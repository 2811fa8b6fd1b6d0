import LeahOS.Mm.Heap

/-!
# The kernel heap over whole runs

The operations of the heap in terms of its blocks, and what holds in every run.

* `Edit` says what an operation did: these are the blocks now, and the blocks in use are where
  they were and hold what they held.
* `Owned` follows the pointers: each one that was returned and not released lies in a block of
  its own, at its start, or further inside with its distance from the start in the word below.
  So `release` finds the block again.
* The heap stays well formed as long as `grow` gets all its pages or none. A growth that stops
  in between has moved `g_break` without making a block, which `stalledCalls` shows.
-/

namespace LeahOS.Mm
open Lib Lib.Tiling Function List Option
namespace Heap
variable {h : Heap} {pre post : List Block} {s : Nat} {free : Bool}

/-! ### What becomes of the blocks in use -/

/-- The blocks in use stay where they are, and so does what they hold; `gone` is the one that is
given back. -/
def Keeps (mem mem' : Nat → Nat) (bs bs' : List Block) (gone : Nat) : Prop :=
  ∀ x t, At kHeapBase bs x ⟨t, false⟩ → x ≠ gone →
    At kHeapBase bs' x ⟨t, false⟩ ∧ ∀ y, x + 32 ≤ y → y < x + 32 + t → mem' y = mem y

theorem Keeps.refl (mem : Nat → Nat) (bs : List Block) (gone : Nat) : Keeps mem mem bs bs gone :=
  fun _ _ hAt _ => ⟨hAt, fun _ _ _ => rfl⟩

variable {gone pages pointer t wanted x : Nat} {mem mem' : Nat → Nat}

theorem Keeps.trans {mem'' : Nat → Nat} {bs bs' bs'' : List Block}
    (hFirst : Keeps mem mem' bs bs' gone) (hThen : Keeps mem' mem'' bs' bs'' gone) :
    Keeps mem mem'' bs bs'' gone := by
  intro x t hAt hNe
  obtain ⟨hAt', hSame⟩ := hFirst x t hAt hNe
  obtain ⟨hAt'', hSame'⟩ := hThen x t hAt' hNe
  exact ⟨hAt'', fun y hFrom hTo => (hSame' y hFrom hTo).trans (hSame y hFrom hTo)⟩

/-- A part of the list without a block in use is exchanged. -/
theorem keeps_replace (gone : Nat) (old new : List Block) (hSpan : span new = span old)
    (hChanged : Changed mem mem' (place pre) (place pre + span old))
    (hOnly : ∀ x t, At (place pre) old x ⟨t, false⟩ → x = gone) :
    Keeps mem mem' (pre ++ (old ++ post)) (pre ++ (new ++ post)) gone := by
  intro x t hAt hNe
  rw [at_append, at_append] at hAt
  rcases hAt with hPre | hOld | hPost
  · refine ⟨at_append.mpr (.inl hPre), fun y hFrom hTo => ?_⟩
    have hBound : x + 32 + t ≤ place pre := hPre.bounds.2
    exact hChanged.payload (c := ⟨t, false⟩) (Nat.le_add_right _ _) (.inl hBound) hFrom hTo
  · exact absurd (hOnly x t hOld) hNe
  · have hAway : place pre + span old ≤ x := hPost.bounds.1
    refine ⟨?_, fun y hFrom hTo =>
      hChanged.payload (c := ⟨t, false⟩) (Nat.le_add_right _ _) (.inr hAway) hFrom hTo⟩
    rw [at_append, at_append, hSpan]
    exact .inr (.inr hPost)

/-! ### The whole operations -/

theorem usedIn_append (bs cs : List Block) : usedIn (bs ++ cs) = usedIn bs + usedIn cs := by
  induction bs with
  | nil => simp [usedIn]
  | cons b bs ih =>
    rw [cons_append, usedIn, usedIn, ih]
    omega

theorem at_ne_zero {bs : List Block} {b : Block} (hAt : At kHeapBase bs x b) : x ≠ 0 := by
  have hBase : 0 < kHeapBase := by decide
  have hLow := hAt.bounds.1
  omega

theorem Keeps.of_zero {bs bs' : List Block} (hKeeps : Keeps mem mem' bs bs' 0) (gone : Nat) :
    Keeps mem mem' bs bs' gone :=
  fun x t hAt _ => hKeeps x t hAt (at_ne_zero hAt)

theorem used_join (x y : Nat) : (h.join x y).used = h.used := fields_linkBack.2.2.2

theorem fields_split (block wanted : Nat) :
    (h.split block wanted).used = h.used ∧ (h.split block wanted).brk = h.brk := by
  unfold Heap.split
  split
  · exact ⟨rfl, rfl⟩
  · exact ⟨fields_linkBack.2.2.2, fields_linkBack.2.1⟩

/-- Two free neighbours become one. -/
theorem Tiled.joined {s' : Nat} (hTiled : h.Tiled (pre ++ ([⟨s, true⟩, ⟨s', true⟩] ++ post))) :
    (h.join (place pre) (place pre + (32 + s))).Tiled (pre ++ ([⟨s + (32 + s'), true⟩] ++ post)) ∧
      Keeps h.mem (h.join (place pre) (place pre + (32 + s))).mem
        (pre ++ ([⟨s, true⟩, ⟨s', true⟩] ++ post)) (pre ++ ([⟨s + (32 + s'), true⟩] ++ post)) 0 := by
  obtain ⟨hJoin, hChanged⟩ := hTiled.join
  refine ⟨hJoin, keeps_replace 0 _ _ (by simp only [span_cons, span_nil]; omega)
    (by simpa [Nat.add_assoc] using hChanged) fun x t hAt => ?_⟩
  simp [At] at hAt

section Apart
variable {s' : Nat}

/-- A used block is apart from everything. -/
theorem apart_used (hApart : List.IsChain NotBoth (pre ++ ([⟨s, free⟩] ++ post))) (t : Nat) :
    List.IsChain NotBoth (pre ++ ([⟨t, false⟩] ++ post)) := by
  simp only [isChain_append, singleton_append, isChain_cons, List.head?_cons] at *
  refine ⟨hApart.1, ⟨fun y _ => by simp [NotBoth], hApart.2.1.2⟩, fun x _ y hy => ?_⟩
  obtain rfl : (⟨t, false⟩ : Block) = y := by simpa using hy
  simp [NotBoth]

/-- A free block may get another size. -/
theorem apart_size (hApart : List.IsChain NotBoth (pre ++ ([⟨s, free⟩] ++ post))) (t : Nat) :
    List.IsChain NotBoth (pre ++ ([⟨t, free⟩] ++ post)) := by
  simp only [isChain_append, singleton_append, isChain_cons, List.head?_cons,
    mem_def, Option.some.injEq, forall_eq'] at *
  exact hApart

/-- The second half of a free block may be free. -/
theorem apart_cut (hApart : List.IsChain NotBoth (pre ++ ([⟨s, true⟩] ++ post))) (t t' : Nat) :
    List.IsChain NotBoth (pre ++ ([⟨t, false⟩] ++ (⟨t', true⟩ :: post))) := by
  have hUsed := apart_used hApart t
  simp only [isChain_append, singleton_append, isChain_cons, List.head?_cons,
    mem_def, Option.some.injEq, forall_eq'] at *
  exact ⟨hUsed.1, ⟨by simp [NotBoth], hApart.2.1⟩, hUsed.2.2⟩

end Apart

/-- What an operation did to the blocks: they are these now, and the blocks in use are as they
were. -/
structure Edit (h h' : Heap) (bs bs' : List Block) (gone : Nat) : Prop where
  shape : h'.Shape bs'
  keeps : Keeps h.mem h'.mem bs bs' gone

/-- What `split` leaves: a free block that is large enough, and perhaps another after it. -/
theorem Tiled.splitted (hTiled : h.Tiled (pre ++ ([⟨s, true⟩] ++ post)))
    (hApart : List.IsChain NotBoth (pre ++ ([⟨s, true⟩] ++ post))) (hFit : wanted ≤ s) :
    ∃ t post', wanted ≤ t ∧ (h.split (place pre) wanted).Tiled (pre ++ ([⟨t, true⟩] ++ post')) ∧
      List.IsChain NotBoth (pre ++ ([⟨t, false⟩] ++ post')) ∧ usedIn post' = usedIn post ∧
      Keeps h.mem (h.split (place pre) wanted).mem (pre ++ ([⟨s, true⟩] ++ post))
        (pre ++ ([⟨t, true⟩] ++ post')) 0 := by
  have hSize := hTiled.header.1
  by_cases hSmall : s < wanted + 32 + 16
  · have hSplit : h.split (place pre) wanted = h := by
      rw [Heap.split, hSize, if_pos hSmall]
    rw [hSplit]
    exact ⟨s, post, hFit, hTiled, apart_used hApart s, rfl, .refl _ _ _⟩
  · obtain ⟨hCut, hChanged⟩ := hTiled.split wanted (by omega)
    refine ⟨wanted, ⟨s - wanted - 32, true⟩ :: post, Nat.le_refl _, hCut, apart_cut hApart _ _, ?_,
      ?_⟩
    · simp [usedIn]
    · exact keeps_replace 0 [⟨s, true⟩] [⟨wanted, true⟩, ⟨s - wanted - 32, true⟩]
        (by simp only [span_cons, span_nil]; omega) hChanged fun x t hAt => by simp [At] at hAt

/-- `take` makes a used block of a free one that is large enough. -/
theorem Shape.take (hShape : h.Shape (pre ++ ([⟨s, true⟩] ++ post))) (hFit : wanted ≤ s) :
    ∃ t bs', wanted ≤ t ∧
      Edit h (h.take (place pre) wanted).1 (pre ++ ([⟨s, true⟩] ++ post)) bs' 0 ∧
      At kHeapBase bs' (place pre) ⟨t, false⟩ ∧ (h.take (place pre) wanted).1.brk = h.brk := by
  obtain ⟨hTiled, hApart, hUsed⟩ := hShape
  obtain ⟨t, post', hWanted, hSplit, hApart', hPost, hKeeps⟩ := hTiled.splitted hApart hFit
  obtain ⟨hSame, hBrk⟩ := h.fields_split (place pre) wanted
  simp only [Heap.take]
  generalize h.split (place pre) wanted = g at *
  obtain ⟨hSet, hChanged⟩ := hSplit.setFree false
  refine ⟨t, pre ++ ([⟨t, false⟩] ++ post'), hWanted, ⟨⟨?_, hApart', ?_⟩, ?_⟩, ?_, hBrk⟩
  · exact { hSet with }
  · have hSize : (g.setFree (place pre) 0).mem (place pre) = t := hSet.header.1
    change g.used + (g.setFree (place pre) 0).mem (place pre) = _
    rw [hSame, hSize, hUsed]
    simp [usedIn_append, usedIn, hPost]
    omega
  · refine hKeeps.trans (keeps_replace 0 _ _ rfl hChanged fun x t hAt => ?_)
    simp [At] at hAt
  · exact at_append.mpr (.inr (.inl ⟨rfl, rfl⟩))

/-- The block is free now and the one after it is not. -/
theorem Tiled.mergedNext (hTiled : h.Tiled (pre ++ ([⟨s, true⟩] ++ post)))
    (hApart : List.IsChain NotBoth post) : ∃ t post',
      (h.mergeNext (place pre)).Tiled (pre ++ ([⟨t, true⟩] ++ post')) ∧
      List.IsChain NotBoth ([⟨t, true⟩] ++ post') ∧ usedIn post' = usedIn post ∧
      (h.mergeNext (place pre)).used = h.used ∧
      Keeps h.mem (h.mergeNext (place pre)).mem (pre ++ ([⟨s, true⟩] ++ post))
        (pre ++ ([⟨t, true⟩] ++ post')) 0 := by
  cases post with
  | nil =>
    rw [hTiled.mergeNext_nil]
    exact ⟨s, [], hTiled, isChain_singleton _, rfl, rfl, .refl _ _ _⟩
  | cons b post =>
    obtain ⟨s', free'⟩ := b
    rw [hTiled.mergeNext]
    cases free' with
    | false =>
      refine ⟨s, ⟨s', false⟩ :: post, hTiled, ?_, rfl, rfl, .refl _ _ _⟩
      exact isChain_cons_cons.mpr ⟨by simp [NotBoth], hApart⟩
    | true =>
      obtain ⟨hJoin, hKeeps⟩ := Tiled.joined (show h.Tiled (pre ++ ([⟨s, true⟩, ⟨s', true⟩] ++
        post)) from hTiled)
      refine ⟨s + (32 + s'), post, hJoin, ?_, by simp [usedIn], used_join _ _, hKeeps⟩
      -- the block that was absorbed was free, so the one after it is not
      rw [isChain_cons] at hApart
      exact isChain_cons.mpr ⟨fun y hy => by simpa [NotBoth] using hApart.1 y hy, hApart.2⟩

/-- The block is free now, and so is neither the one before it nor the one after it. -/
theorem Tiled.mergedPrev (hTiled : h.Tiled (pre ++ ([⟨s, true⟩] ++ post)))
    (hPre : List.IsChain NotBoth pre) (hApart : List.IsChain NotBoth ([⟨s, true⟩] ++ post)) :
    ∃ pre' t, (h.mergePrev (place pre)).Tiled (pre' ++ ([⟨t, true⟩] ++ post)) ∧
      List.IsChain NotBoth (pre' ++ ([⟨t, true⟩] ++ post)) ∧ usedIn pre' = usedIn pre ∧
      (h.mergePrev (place pre)).used = h.used ∧
      Keeps h.mem (h.mergePrev (place pre)).mem (pre ++ ([⟨s, true⟩] ++ post))
        (pre' ++ ([⟨t, true⟩] ++ post)) 0 := by
  induction pre using List.reverseRecOn with
  | nil =>
    rw [hTiled.mergePrev_nil]
    exact ⟨[], s, hTiled, hApart, rfl, rfl, .refl _ _ _⟩
  | append_singleton pre b _ =>
    obtain ⟨t, free'⟩ := b
    rw [place_snoc, hTiled.mergePrev]
    cases free' with
    | false =>
      refine ⟨pre ++ [(⟨t, false⟩ : Block)], s, hTiled, ?_, rfl, rfl, .refl _ _ _⟩
      rw [isChain_append]
      refine ⟨hPre, hApart, fun x hx y _ => ?_⟩
      obtain rfl : x = ⟨t, false⟩ := by simpa using hx.symm
      simp [NotBoth]
    | true =>
      have hBoth : h.Tiled (pre ++ ([⟨t, true⟩, ⟨s, true⟩] ++ post)) := by simpa using hTiled
      obtain ⟨hJoin, hKeeps⟩ := hBoth.joined
      refine ⟨pre, t + (32 + s), hJoin, ?_, by simp [usedIn_append, usedIn], used_join _ _,
        by simpa using hKeeps⟩
      -- the block that takes this one in was free, so the one before it is not
      rw [isChain_append] at hPre ⊢
      refine ⟨hPre.1, @apart_size [] post s true hApart _, fun x hx y hy => ?_⟩
      obtain rfl : y = ⟨t + (32 + s), true⟩ := by simpa using hy.symm
      simpa [NotBoth] using hPre.2.2 x hx ⟨t, true⟩ rfl

/-- `release` of a block that is in use. -/
theorem Shape.release (hShape : h.Shape (pre ++ ([⟨s, false⟩] ++ post))) :
    ∃ bs', Edit h (({ h with used := h.used - h.mem (place pre) } : Heap).setFree (place pre) 1
      |>.coalesce (place pre)) (pre ++ ([⟨s, false⟩] ++ post)) bs' (place pre) := by
  obtain ⟨hTiled, hApart, hUsed⟩ := hShape
  generalize hLess : ({ h with used := h.used - h.mem (place pre) } : Heap) = g
  have hSame : g.mem = h.mem := by rw [← hLess]
  have hTiled' : g.Tiled (pre ++ ([⟨s, false⟩] ++ post)) := by
    rw [← hLess]
    exact { hTiled with }
  have hUsed' : g.used = usedIn pre + usedIn post := by
    rw [← hLess]
    rw [hTiled.header.1, hUsed]
    simp [usedIn_append, usedIn]
    omega
  obtain ⟨hSet, hChanged⟩ := hTiled'.setFree true
  rw [if_pos rfl] at hSet hChanged
  have hSetKeeps : Keeps h.mem (g.setFree (place pre) 1).mem (pre ++ ([⟨s, false⟩] ++ post))
      (pre ++ ([⟨s, true⟩] ++ post)) (place pre) := by
    rw [← hSame]
    refine keeps_replace _ _ _ rfl hChanged fun x t hAt => ?_
    rcases hAt with ⟨rfl, -⟩ | hAt
    · rfl
    · exact hAt.elim
  rw [isChain_append, singleton_append, isChain_cons] at hApart
  obtain ⟨t, post', hNext, hApartNext, hPostUsed, hNextUsed, hNextKeeps⟩ :=
    hSet.mergedNext hApart.2.1.2
  obtain ⟨pre', t', hPrev, hApartPrev, hPreUsed, hPrevUsed, hPrevKeeps⟩ :=
    hNext.mergedPrev hApart.1 hApartNext
  refine ⟨pre' ++ ([(⟨t', true⟩ : Block)] ++ post'), ⟨hPrev, hApartPrev, ?_⟩,
    hSetKeeps.trans ((hNextKeeps.trans hPrevKeeps).of_zero _)⟩
  change (((g.setFree (place pre) 1).mergeNext (place pre)).mergePrev (place pre)).used = _
  rw [hPrevUsed, hNextUsed]
  change g.used = _
  rw [hUsed']
  simp [usedIn_append, usedIn, hPostUsed, hPreUsed]

theorem growCount_ge (bytes : Nat) : kGrowthPages ≤ growCount bytes := by
  unfold growCount
  dsimp only
  split
  · exact Nat.le_refl _
  next hMore => exact Nat.not_lt.mp hMore

variable {address bytes : Nat}

/-- `grow` that gets its pages: a free block at the end, larger than before. -/
theorem Shape.grow {bs : List Block} (hShape : h.Shape bs) (hPages : growCount bytes ≤ pages) :
    ∃ bs', (h.grow bytes pages).2 = true ∧
      Edit h (h.grow bytes pages).1 bs bs' 0 ∧
      (h.grow bytes pages).1.brk = h.brk + growCount bytes * 4096 := by
  obtain ⟨hTiled, hApart, hUsed⟩ := hShape
  have hAdded : 32 ≤ growCount bytes * 4096 := by
    have hGe := growCount_ge bytes
    unfold kGrowthPages at hGe
    omega
  unfold Heap.grow
  dsimp only
  rw [if_neg (Nat.not_lt.mpr hPages)]
  generalize growCount bytes * 4096 = added at hAdded
  generalize hMore : ({ h with brk := h.brk + added, size := h.size + added } : Heap) = h'
  have hLastNe := hTiled.nonempty
  induction bs using List.reverseRecOn with
  | nil => exact absurd rfl hLastNe
  | append_singleton pre b _ =>
    obtain ⟨t, mark⟩ := b
    have hBrk : place pre + (32 + t) = h.brk := by
      rw [← hTiled.tiles]
      exact (place_snoc pre t mark).symm
    obtain ⟨hAdd, hRest⟩ := hTiled.addBlock hAdded hMore.symm
    have hLast : h'.last ≠ 0 := by
      rw [← hMore]
      rw [hTiled.last, lastAt_append]
      exact Nat.ne_of_gt (place_pos pre)
    obtain ⟨-, -, -, hNewBrk, -, hNewUsed⟩ := addBlock_spec (h := h') h.brk (added - 32) hLast
    generalize h'.addBlock h.brk (added - 32) = g at *
    have hUsed' : g.used = h.used := by
      rw [hNewUsed, ← hMore]
    have hBrk' : g.brk = h.brk + added := by
      rw [hNewBrk, ← hMore]
    have hKeeps : Keeps h.mem g.mem (pre ++ [⟨t, mark⟩])
        (pre ++ [⟨t, mark⟩, ⟨added - 32, true⟩]) 0 := by
      intro x u hAt hNe
      have hAt' : At kHeapBase (pre ++ [⟨t, mark⟩, ⟨added - 32, true⟩]) x ⟨u, false⟩ := by
        rw [at_append] at hAt ⊢
        rcases hAt with hAt | hAt | hAt
        · exact .inl hAt
        · exact .inr (.inl hAt)
        · exact hAt.elim
      refine ⟨hAt', fun y hFrom hTo => hRest y ?_ ?_⟩
      · have hBound : x + 32 + u ≤ kHeapBase + Tiling.span (pre ++ [⟨t, mark⟩]) := hAt.bounds.2
        rw [hTiled.tiles] at hBound
        omega
      · -- the word that changes is in the header of the last block
        rw [at_append] at hAt
        rcases hAt with hAt | hAt
        · have hBound : x + 32 + u ≤ place pre := hAt.bounds.2
          omega
        · have hBound : place pre ≤ x := hAt.bounds.1
          omega
    have hSnoc : g.Tiled ((pre ++ [⟨t, mark⟩]) ++ ([⟨added - 32, true⟩] ++ [])) := by
      simpa using hAdd
    have hHeader := hSnoc.header
    rw [place_snoc, hBrk, if_pos rfl] at hHeader
    have hPrev : g.mem (h.brk + 8) = place pre := by
      rw [hHeader.2.1, lastAt_append]
      rfl
    have hMerge : g.mergeTail h.brk = if mark then g.join (place pre) h.brk else g := by
      rw [mergeTail_eq h.brk hHeader.2.2.1 (by omega), ← hBrk, hSnoc.mergePrev]
    rw [hMerge]
    cases mark with
    | false =>
      refine ⟨_, rfl, ⟨⟨hAdd, ?_, ?_⟩, hKeeps⟩, hBrk'⟩
      · rw [isChain_append] at hApart ⊢
        exact ⟨hApart.1, isChain_cons_cons.mpr ⟨by simp [NotBoth], isChain_singleton _⟩, hApart.2.2⟩
      · rw [if_neg Bool.false_ne_true, hUsed', hUsed]
        simp [usedIn_append, usedIn]
    | true =>
      obtain ⟨hJoin, hJoinKeeps⟩ := Tiled.joined (show g.Tiled (pre ++ ([⟨t, true⟩,
        ⟨added - 32, true⟩] ++ [])) by simpa using hAdd)
      rw [if_pos rfl, hBrk] at *
      refine ⟨_, rfl, ⟨⟨hJoin, apart_size hApart _, ?_⟩, hKeeps.trans hJoinKeeps⟩, ?_⟩
      · rw [used_join, hUsed', hUsed]
        simp [usedIn_append, usedIn]
      · rw [← hBrk']
        exact fields_linkBack.2.1

/-! ### Allocation -/

/-- The walk ends, with the null pointer or at a free block that is large enough. -/
theorem walk_spec (wanted : Nat) {p a fuel : Nat} {bs : List Block}
    (hLaid : Laid kMagic h.mem 0 p a bs) (ha : 0 < a) (hFuel : bs.length < fuel) :
    h.walk wanted fuel (if bs = [] then 0 else a) = some none ∨
      ∃ x t, h.walk wanted fuel (if bs = [] then 0 else a) = some (some x) ∧
        At a bs x ⟨t, true⟩ ∧ wanted ≤ t := by
  induction bs generalizing p a fuel with
  | nil =>
    obtain ⟨fuel, rfl⟩ := Nat.exists_eq_succ_of_ne_zero (Nat.ne_of_gt hFuel)
    left
    rw [if_pos rfl, walk, if_pos rfl]
  | cons b bs ih =>
    obtain ⟨fuel, rfl⟩ := Nat.exists_eq_succ_of_ne_zero (Nat.ne_of_gt (Nat.zero_lt_of_lt hFuel))
    obtain ⟨hSize, -, hNext, hTag, hRest⟩ := hLaid
    rw [if_neg (cons_ne_nil b bs), walk, if_neg (Nat.ne_of_gt ha), hSize, hNext,
      Heap.freeAt, hTag, tag_mod]
    by_cases hBad : (if b.free = true then 1 else 0) = 0 ∨ b.size < wanted
    · -- this block will not do: the walk goes on with the rest of the list
      rw [if_pos hBad]
      rcases ih hRest (by omega) (Nat.lt_of_succ_lt_succ hFuel) with hNone | ⟨x, t, hSome, hAt, hFit⟩
      · exact .inl hNone
      · exact .inr ⟨x, t, hSome, .inr hAt, hFit⟩
    · rw [if_neg hBad]
      rw [not_or] at hBad
      obtain ⟨size, mark⟩ := b
      cases mark with
      | false => exact absurd rfl hBad.1
      | true => exact .inr ⟨a, size, rfl, .inl ⟨rfl, rfl⟩, Nat.not_lt.mp hBad.2⟩

theorem Shape.walk {bs : List Block} (hShape : h.Shape bs) (wanted : Nat) :
    h.walk wanted h.walkFuel h.first = some none ∨
      ∃ x t, h.walk wanted h.walkFuel h.first = some (some x) ∧
        At kHeapBase bs x ⟨t, true⟩ ∧ wanted ≤ t := by
  have hFuel : bs.length < h.walkFuel := by
    have hLength := length_le_span bs
    rw [walkFuel, ← hShape.tiled.tiles]
    omega
  have hWalk := walk_spec wanted hShape.tiled.laid (by decide) hFuel
  rw [if_neg hShape.tiled.nonempty] at hWalk
  rw [hShape.tiled.first]
  exact hWalk

/-- A pointer was returned for a new block of at least this size. -/
def Fresh (bs bs' : List Block) (wanted x t : Nat) : Prop :=
  wanted ≤ t ∧ At kHeapBase bs' x ⟨t, false⟩ ∧ ∀ u, ¬ At kHeapBase bs x ⟨u, false⟩

/-- A free block that is large enough is handed out. -/
theorem Shape.takeAt {bs : List Block} (hShape : h.Shape bs) (hAt : At kHeapBase bs x ⟨t, true⟩)
    (hFit : wanted ≤ t) : ∃ bs' t', Edit h (h.take x wanted).1 bs bs' 0 ∧ Fresh bs bs' wanted x t' ∧
      (h.take x wanted).1.brk = h.brk ∧ (h.take x wanted).2 = x + 32 := by
  obtain ⟨pre, post, rfl, rfl⟩ := hAt.split
  obtain ⟨t', bs', hWanted, hEdit, hNew, hBrk⟩ := Shape.take hShape hFit
  refine ⟨bs', t', hEdit, ⟨hWanted, hNew, fun u hUsed => ?_⟩, hBrk, rfl⟩
  cases hAt.unique hUsed

/-- What a call of `allocate` comes to. -/
structure Allocated (h : Heap) (bs : List Block) (bytes pages : Nat) (h' : Heap) (pointer : Nat) :
    Prop where
  spec : ∃ bs', Edit h h' bs bs' 0 ∧
    (pointer = 0 ∨ ∃ x t, pointer = x + 32 ∧ Fresh bs bs' (alignUp bytes 16) x t)
  brk : h'.brk ≤ h.brk + pages * 4096

/-- `allocate` returns, and leaves a heap, unless it was stopped in the middle of growing. -/
theorem Shape.allocate {bs : List Block} (hShape : h.Shape bs)
    (hGrowth : pages = 0 ∨ growCount (alignUp bytes 16) ≤ pages) :
    ∃ h' pointer, h.allocate bytes pages = some (h', pointer) ∧
      Allocated h bs bytes pages h' pointer := by
  have hStay : Edit h h bs bs 0 := ⟨hShape, .refl _ _ _⟩
  unfold Heap.allocate
  by_cases hBytes : bytes = 0
  · rw [if_pos hBytes]
    exact ⟨h, 0, rfl, ⟨bs, hStay, .inl rfl⟩, Nat.le_add_right _ _⟩
  rw [if_neg hBytes]
  dsimp only
  rcases hShape.walk (alignUp bytes 16) with hNone | ⟨x, t, hSome, hAt, hFit⟩
  · rw [hNone, bind_some]
    by_cases hPages : growCount (alignUp bytes 16) ≤ pages
    · obtain ⟨bs₁, hDone, hGrow, hBrk⟩ := hShape.grow hPages
      rw [if_pos hDone]
      have hBound : (h.grow (alignUp bytes 16) pages).1.brk ≤ h.brk + pages * 4096 := by
        omega
      generalize (h.grow (alignUp bytes 16) pages).1 = g at *
      rcases hGrow.shape.walk (alignUp bytes 16) with hNone | ⟨x, t, hSome, hAt, hFit⟩
      · rw [hNone]
        exact ⟨g, 0, rfl, ⟨bs₁, hGrow, .inl rfl⟩, hBound⟩
      · rw [hSome]
        obtain ⟨bs₂, t', hTake, hFresh, hSameBrk, hPointer⟩ := hGrow.shape.takeAt hAt hFit
        refine ⟨(g.take x (alignUp bytes 16)).1, x + 32, congrArg some (Prod.ext rfl hPointer),
          ⟨bs₂, ⟨hTake.shape, hGrow.keeps.trans hTake.keeps⟩,
            .inr ⟨x, t', rfl, hFresh.1, hFresh.2.1, fun u hUsed => ?_⟩⟩, ?_⟩
        · -- a block in use before growing is in use after it
          exact hFresh.2.2 u (hGrow.keeps x u hUsed (at_ne_zero hUsed)).1
        · rw [hSameBrk]
          exact hBound
    · -- no page at all: the heap is as it was
      have hZero : pages = 0 := by omega
      have hFail : h.grow (alignUp bytes 16) pages = (h, false) := by
        unfold Heap.grow
        rw [if_pos (Nat.not_le.mp hPages), hZero]
        simp
      rw [hFail]
      exact ⟨h, 0, rfl, ⟨bs, hStay, .inl rfl⟩, Nat.le_add_right _ _⟩
  · rw [hSome, bind_some]
    obtain ⟨bs', t', hTake, hFresh, hSameBrk, hPointer⟩ := hShape.takeAt hAt hFit
    refine ⟨(h.take x (alignUp bytes 16)).1, x + 32, congrArg some (Prod.ext rfl hPointer),
      ⟨bs', hTake, .inr ⟨x, t', rfl, hFresh⟩⟩, ?_⟩
    rw [hSameBrk]
    exact Nat.le_add_right _ _

theorem alignUp_bounds {value alignment : Nat} (hFits : value + (alignment - 1) < 2 ^ 64) :
    value ≤ alignUp value alignment ∧ alignUp value alignment ≤ value + (alignment - 1) := by
  have hAnd : (value + (alignment - 1)) &&& (alignment - 1) ≤ alignment - 1 := Nat.and_le_right
  unfold alignUp
  dsimp only
  rw [Nat.mod_eq_of_lt hFits]
  omega

/-! ### Pointers -/

/-- The pointer is in this block, or at its end. -/
def Inside (x t pointer : Nat) : Prop := x + 32 ≤ pointer ∧ pointer ≤ x + 32 + t

/-- `release` finds the block at `x` under this pointer. -/
def Under (mem : Nat → Nat) (x t pointer : Nat) : Prop :=
  pointer = x + 32 ∨
    x + 40 ≤ pointer ∧ pointer ≤ x + 32 + t ∧ mem (pointer - 8) = pointer - (x + 32)

theorem Under.inside (hUnder : Under mem x t pointer) :
    Inside x t pointer := by
  unfold Inside
  rcases hUnder with rfl | ⟨hFrom, hTo, -⟩
  · omega
  · omega

/-- Two blocks of the list that hold one pointer are one. -/
theorem Inside.same {bs : List Block} {y u : Nat} (hx : At kHeapBase bs x ⟨t, false⟩)
    (hy : At kHeapBase bs y ⟨u, false⟩) (hInx : Inside x t pointer) (hIny : Inside y u pointer) :
    x = y ∧ t = u := by
  unfold Inside at hInx hIny
  rcases hx.apart hy with ⟨hSame, hBlock⟩ | hApart
  · exact ⟨hSame, by cases hBlock; rfl⟩
  · simp only at hApart
    omega

/-- The pointers that were returned: each in a block in use, no two in one block. -/
structure Owned (mem : Nat → Nat) (bs : List Block) (live : List Nat) : Prop where
  nodup : live.Nodup
  under : ∀ pointer ∈ live, ∃ x t, At kHeapBase bs x ⟨t, false⟩ ∧ Under mem x t pointer
  alone : ∀ p ∈ live, ∀ q ∈ live, ∀ x t, At kHeapBase bs x ⟨t, false⟩ → Inside x t p →
    Inside x t q → p = q

variable {h' : Heap} {bs bs' : List Block} {live : List Nat}

/-- The block of a pointer is where it was, unless it is the one given back. -/
theorem Owned.still (hOwned : Owned mem bs live) (hKeeps : Keeps mem mem' bs bs' gone)
    (hMem : pointer ∈ live) (hAway : ∀ t, At kHeapBase bs gone ⟨t, false⟩ → ¬ Inside gone t pointer) :
    ∃ x t, At kHeapBase bs x ⟨t, false⟩ ∧ At kHeapBase bs' x ⟨t, false⟩ ∧ Inside x t pointer ∧
      Under mem' x t pointer := by
  obtain ⟨x, t, hAt, hUnder⟩ := hOwned.under pointer hMem
  have hNe : x ≠ gone := by
    rintro rfl
    exact hAway t hAt hUnder.inside
  obtain ⟨hAt', hSame⟩ := hKeeps x t hAt hNe
  refine ⟨x, t, hAt, hAt', hUnder.inside, ?_⟩
  rcases hUnder with rfl | ⟨hFrom, hTo, hSlack⟩
  · exact .inl rfl
  · -- the slack count lies inside the block
    exact .inr ⟨hFrom, hTo, by rw [hSame _ (by omega) (by omega), hSlack]⟩

/-- Pointers into other blocks outlive an operation. -/
theorem Owned.edit {live' : List Nat} (hOwned : Owned mem bs live)
    (hKeeps : Keeps mem mem' bs bs' gone) (hSub : live'.Sublist live)
    (hAway : ∀ p ∈ live', ∀ t, At kHeapBase bs gone ⟨t, false⟩ → ¬ Inside gone t p) :
    Owned mem' bs' live' := by
  refine ⟨hOwned.nodup.sublist hSub, fun pointer hMem => ?_, fun p hp q hq x t hAt hInp hInq => ?_⟩
  · obtain ⟨x, t, -, hAt', -, hUnder⟩ :=
      hOwned.still hKeeps (hSub.subset hMem) (hAway pointer hMem)
    exact ⟨x, t, hAt', hUnder⟩
  · -- the block that holds `p` now is the one that held it before
    obtain ⟨y, u, hOld, hNew, hIny, -⟩ := hOwned.still hKeeps (hSub.subset hp) (hAway p hp)
    obtain ⟨rfl, rfl⟩ := Inside.same hAt hNew hInp hIny
    exact hOwned.alone p (hSub.subset hp) q (hSub.subset hq) x t hOld hInp hInq

/-- A pointer into a new block joins the others. -/
theorem Owned.insert (hOwned : Owned mem bs live) (hAt : At kHeapBase bs x ⟨t, false⟩)
    (hUnder : Under mem x t pointer) (hNone : ∀ p ∈ live, ¬ Inside x t p) :
    Owned mem bs (pointer :: live) := by
  have hIn := hUnder.inside
  refine ⟨nodup_cons.mpr ⟨fun hMem => hNone pointer hMem hIn, hOwned.nodup⟩, ?_, ?_⟩
  · intro p hp
    rcases mem_cons.mp hp with rfl | hp
    · exact ⟨x, t, hAt, hUnder⟩
    · exact hOwned.under p hp
  · intro p hp q hq y u hy hInp hInq
    rcases mem_cons.mp hp with rfl | hOldp
    · obtain ⟨rfl, rfl⟩ := Inside.same hAt hy hIn hInp
      rcases mem_cons.mp hq with rfl | hOldq
      · rfl
      · exact absurd hInq (hNone q hOldq)
    · rcases mem_cons.mp hq with rfl | hOldq
      · obtain ⟨rfl, rfl⟩ := Inside.same hAt hy hIn hInq
        exact absurd hInp (hNone p hOldp)
      · exact hOwned.alone p hOldp q hOldq y u hy hInp hInq

/-- No pointer of old is in a new block. -/
theorem Owned.fresh (hOwned : Owned mem bs live) (hKeeps : Keeps mem mem' bs bs' 0)
    (hFresh : Fresh bs bs' wanted x t) :
    ∀ p ∈ live, ¬ Inside x t p := by
  intro p hp hIn
  obtain ⟨y, u, hOld, hNew, hIny, -⟩ := hOwned.still hKeeps hp fun _ hAt _ => at_ne_zero hAt rfl
  obtain ⟨rfl, rfl⟩ := Inside.same hFresh.2.1 hNew hIn hIny
  exact hFresh.2.2 t hOld

/-- Writing a word of the payload of a block leaves the heap as it is. -/
theorem Shape.poke (hShape : h.Shape bs) (hAt : At kHeapBase bs x ⟨t, false⟩)
    (hFrom : x + 32 ≤ address) (hTo : address < x + 32 + t) (v : Nat) :
    (h.set address v).Shape bs :=
  { hShape with tiled := { hShape.tiled with laid := hShape.tiled.laid.poke hAt hFrom hTo v } }

/-- Writing a word of a block no pointer of old is in leaves those pointers as they are. -/
theorem Owned.poke (hOwned : Owned mem bs live) (hAt : At kHeapBase bs x ⟨t, false⟩)
    (hFrom : x + 32 ≤ address) (hTo : address < x + 32 + t) (hNone : ∀ p ∈ live, ¬ Inside x t p)
    (v : Nat) :
    Owned (update mem address v) bs live := by
  refine ⟨hOwned.nodup, fun p hp => ?_, hOwned.alone⟩
  obtain ⟨y, u, hy, hUnder⟩ := hOwned.under p hp
  refine ⟨y, u, hy, ?_⟩
  rcases hUnder with hStart | ⟨hLow, hHigh, hSlack⟩
  · exact .inl hStart
  · refine .inr ⟨hLow, hHigh, ?_⟩
    rw [update_of_ne, hSlack]
    -- the slack count of another pointer is in another block
    intro hEq
    rcases hAt.apart hy with ⟨rfl, hBlock⟩ | hApart
    · cases hBlock
      exact hNone p hp ⟨by omega, hHigh⟩
    · simp only at hApart
      omega

/-- The block `release` finds. -/
theorem Shape.blockUnder (hShape : h.Shape bs) (hBrk : h.brk ≤ kDeviceMmioBase)
    (hAt : At kHeapBase bs x ⟨t, false⟩) (hUnder : Under h.mem x t pointer) :
    h.blockUnder pointer = some x := by
  have hMagic : h.magicAt x = kMagic := by
    rw [Heap.magicAt, hShape.tiled.laid.header hAt, tag_div]
  unfold Heap.blockUnder
  rcases hUnder with rfl | ⟨hFrom, hTo, hSlack⟩
  · rw [Nat.add_sub_cancel, if_pos hMagic]
  · -- what stands where the magic would is the high half of a small slack count
    have hOther : h.magicAt (pointer - 32) ≠ kMagic := by
      have hWord : pointer - 32 + 24 = pointer - 8 := by omega
      have hEnd := hAt.bounds.2
      rw [hShape.tiled.tiles] at hEnd
      have hLow := hAt.bounds.1
      rw [Heap.magicAt, hWord, hSlack]
      simp only [kHeapBase, kDeviceMmioBase, kMagic] at *
      omega
    have hBack : pointer - h.mem (pointer - 8) - 32 = x := by
      omega
    rw [if_neg hOther]
    rw [hBack, if_pos hMagic]

theorem brk_coalesce (block : Nat) : (h.coalesce block).brk = h.brk := by
  have hPrev : ∀ g : Heap, (g.mergePrev block).brk = g.brk := by
    intro g
    unfold mergePrev
    dsimp only
    split
    · exact fields_linkBack.2.1
    · rfl
  rw [coalesce, hPrev, mergeNext]
  split
  · exact fields_linkBack.2.1
  · rfl

/-! ### The start -/

/-- The first block of a heap; there is none before it, so nothing is merged. -/
theorem shape_first (mem : Nat → Nat) {added : Nat} (hAdded : 32 ≤ added) :
    ((({ empty mem with brk := kHeapBase + added, size := 0 + added } : Heap).addBlock kHeapBase
      (added - 32)).mergeTail kHeapBase).Shape [⟨added - 32, true⟩] := by
  generalize hFirst : ({ empty mem with brk := kHeapBase + added, size := 0 + added } : Heap).addBlock
    kHeapBase (added - 32) = h
  have hMem : h.mem = update (update (update (update mem
      kHeapBase (added - 32)) (kHeapBase + 8) 0) (kHeapBase + 16) 0) (kHeapBase + 24)
      (tag kMagic true) := by
    rw [← hFirst]
    rfl
  have hPrev : h.mem (kHeapBase + 8) = 0 := by
    rw [hMem]
    simp (disch := omega) only [update_of_ne, update_self]
  have hSame : h.mergeTail kHeapBase = h := by
    unfold mergeTail
    rw [if_neg (fun hBoth => hBoth.1 hPrev)]
  have hLaid : Laid kMagic h.mem 0 0 kHeapBase [⟨added - 32, true⟩] := by
    rw [hMem]
    refine ⟨?_, ?_, ?_, ?_, trivial⟩
    all_goals simp (disch := omega) only [update_of_ne, update_self, if_true]
  rw [hSame]
  refine ⟨⟨cons_ne_nil _ _, hLaid, ?_, ?_, ?_, ?_⟩, isChain_singleton _, ?_⟩
  all_goals subst hFirst
  · rfl
  · rfl
  · change kHeapBase + span [⟨added - 32, true⟩] = kHeapBase + added
    rw [span_cons, span_nil]
    dsimp only
    omega
  · change 0 + added = kHeapBase + added - kHeapBase
    omega
  · rfl

/-- The heap `init` makes is one free block. -/
theorem shape_init (hInit : init mem pages = some h) :
    h.Shape [⟨17 * 4096 - 32, true⟩] := by
  have hCount : growCount (kGrowthPages * 4096) = 17 := by decide
  unfold init grow at hInit
  rw [hCount] at hInit
  by_cases hPages : pages < 17
  · rw [if_pos hPages] at hInit
    cases hInit
  · rw [if_neg hPages] at hInit
    cases hInit
    exact shape_first mem (by decide)

end Heap

namespace HeapRun

/-- What holds in every run: the heap is made of blocks below the devices, and each pointer that
is live is in a block of its own. -/
def Inv (r : HeapRun) : Prop :=
  ∃ bs, r.heap.Shape bs ∧ r.heap.brk ≤ kDeviceMmioBase ∧ Heap.Owned r.heap.mem bs r.live

variable {r r' : HeapRun} {bytes alignment pages pointer : Nat}

open Heap in
/-- `allocate` keeps the pointers of old where they are, and finds a block none of them is in. -/
theorem Inv.allocate (hInv : r.Inv) (hGrowth : r.Growth bytes pages) :
    ∃ h' pointer, r.heap.allocate bytes pages = some (h', pointer) ∧
      ∃ bs, h'.Shape bs ∧ h'.brk ≤ kDeviceMmioBase ∧ Owned h'.mem bs r.live ∧
        (pointer = 0 ∨ ∃ x t, pointer = x + 32 ∧ alignUp bytes 16 ≤ t ∧
          At kHeapBase bs x ⟨t, false⟩ ∧ ∀ p ∈ r.live, ¬ Inside x t p) := by
  obtain ⟨bs, hShape, hBrk, hOwned⟩ := hInv
  obtain ⟨h', pointer, hDone, ⟨bs', hEdit, hNew⟩, hBound⟩ := hShape.allocate hGrowth.1
  refine ⟨h', pointer, hDone, bs', hEdit.shape, hBound.trans hGrowth.2,
    hOwned.edit hEdit.keeps (List.Sublist.refl _) (fun _ _ _ hAt _ => at_ne_zero hAt rfl), ?_⟩
  rcases hNew with hNull | ⟨x, t, hPointer, hFresh⟩
  · exact .inl hNull
  · exact .inr ⟨x, t, hPointer, hFresh.1, hFresh.2.1, hOwned.fresh hEdit.keeps hFresh⟩

/-- A request for plain memory. -/
theorem Inv.plain (hInv : r.Inv) (hGrowth : r.Growth bytes pages) :
    ∃ a, r.heap.allocate bytes pages = some a ∧ (r.returned a).Inv := by
  obtain ⟨h', pointer, hDone, bs, hShape, hBrk, hOwned, hNew⟩ := hInv.allocate hGrowth
  refine ⟨(h', pointer), hDone, ?_⟩
  rcases hNew with rfl | ⟨x, t, rfl, -, hAt, hNone⟩
  · exact ⟨bs, hShape, hBrk, hOwned⟩
  · exact ⟨bs, hShape, hBrk, hOwned.insert hAt (.inl rfl) hNone⟩

open Heap in
/-- A request for aligned memory: the slack count goes into the new block. -/
theorem Inv.aligned (hInv : r.Inv) (hGrowth : r.Growth (bytes + alignment + 8) pages)
    (hFits : bytes + alignment + 8 + 15 < 2 ^ 64) (hMore : ¬ alignment ≤ 16) :
    ∃ a, r.heap.allocateAligned bytes alignment pages = some a ∧ (r.returned a).Inv := by
  obtain ⟨h', pointer, hDone, bs, hShape, hBrk, hOwned, hNew⟩ := hInv.allocate hGrowth
  unfold Heap.allocateAligned
  rw [if_neg hMore, Nat.mod_eq_of_lt (by omega), hDone, map_some]
  refine ⟨_, rfl, ?_⟩
  rcases hNew with rfl | ⟨x, t, rfl, hLarge, hAt, hNone⟩
  · exact ⟨bs, hShape, hBrk, hOwned⟩
  · rw [if_neg (Nat.succ_ne_zero _)]
    -- the block has room for the slack, so the aligned pointer is in it
    have hRoom : bytes + alignment + 8 ≤ t := (alignUp_bounds (by omega)).1.trans hLarge
    have hEnd := hAt.bounds.2
    rw [hShape.tiled.tiles] at hEnd
    have hTop : kDeviceMmioBase < 2 ^ 64 := by decide
    dsimp only at hEnd
    obtain ⟨hLow, hHigh⟩ := @alignUp_bounds (x + 32 + 8) alignment (by omega)
    have hInPlace : x + 32 ≤ alignUp (x + 32 + 8) alignment - 8 ∧
        alignUp (x + 32 + 8) alignment - 8 < x + 32 + t := by omega
    unfold Heap.alignPointer returned
    dsimp only
    rw [if_neg (by omega)]
    refine ⟨bs, hShape.poke hAt hInPlace.1 hInPlace.2 _, hBrk, ?_⟩
    refine (hOwned.poke hAt hInPlace.1 hInPlace.2 hNone _).insert hAt ?_ hNone
    exact .inr ⟨by omega, by omega, update_self _ _ _⟩

open Heap in
/-- A pointer that is live is released. -/
theorem Inv.release (hInv : r.Inv) (hMem : pointer ∈ r.live) :
    ∃ h', r.heap.release pointer = some h' ∧ Inv ⟨h', r.live.erase pointer⟩ := by
  obtain ⟨bs, hShape, hBrk, hOwned⟩ := hInv
  obtain ⟨x, t, hAt, hUnder⟩ := hOwned.under pointer hMem
  have hNe : pointer ≠ 0 := by
    have hIn := hUnder.inside.1
    omega
  have hBlock := hShape.blockUnder hBrk hAt hUnder
  obtain ⟨pre, post, rfl, hx⟩ := hAt.split
  obtain ⟨bs', hEdit⟩ := Shape.release (show r.heap.Shape (pre ++ ([⟨t, false⟩] ++ post)) from hShape)
  have hFree : r.heap.freeAt x = 0 := by
    rw [hx]
    exact Tiled.freeAt (show r.heap.Tiled (pre ++ ([⟨t, false⟩] ++ post)) from hShape.tiled)
  unfold Heap.release
  rw [if_neg hNe, hBlock, bind_some, if_neg (not_not.mpr hFree)]
  refine ⟨_, rfl, bs', ?_, ?_, ?_⟩
  · rw [hx]
    exact hEdit.shape
  · rw [brk_coalesce]
    exact hBrk
  · rw [hx]
    refine hOwned.edit hEdit.keeps erase_sublist fun q hq u hGone hIn => ?_
    -- the only pointer into the block is the one that was released
    obtain ⟨hqNe, hqMem⟩ := (hOwned.nodup.mem_erase_iff).mp hq
    have hx' : x = place pre := hx
    rw [← hx'] at hGone hIn
    cases hGone.unique hAt
    exact hqNe (hOwned.alone q hqMem pointer hMem x _ hAt hIn hUnder.inside)

variable {e : HeapCall}

/-- Every call returns, and keeps what holds; `release` does not panic. -/
theorem Inv.next (hInv : r.Inv) (hWhole : r.Whole e)
    (hMine : ∀ p, e = .release p → p = 0 ∨ p ∈ r.live) : ∃ r', r.next e = some r' ∧ r'.Inv := by
  cases e with
  | allocate bytes pages =>
    obtain ⟨a, hDone, hAfter⟩ := hInv.plain hWhole
    exact ⟨_, congrArg (Option.map r.returned) hDone, hAfter⟩
  | allocateAligned bytes alignment pages =>
    simp only [Whole] at hWhole
    by_cases hMore : alignment ≤ 16
    · rw [if_pos hMore] at hWhole
      obtain ⟨a, hDone, hAfter⟩ := hInv.plain hWhole
      refine ⟨r.returned a, ?_, hAfter⟩
      rw [HeapRun.next, Heap.allocateAligned, if_pos hMore, hDone]
      rfl
    · rw [if_neg hMore] at hWhole
      obtain ⟨a, hDone, hAfter⟩ := hInv.aligned hWhole.1 hWhole.2 hMore
      exact ⟨_, congrArg (Option.map r.returned) hDone, hAfter⟩
  | release pointer =>
    rw [HeapRun.next, if_pos (hMine pointer rfl)]
    rcases hMine pointer rfl with rfl | hMem
    · -- the null pointer is not in the list, so the list stays as it is
      have hAbsent : 0 ∉ r.live := by
        obtain ⟨bs, -, -, hOwned⟩ := hInv
        intro hMem
        obtain ⟨x, t, -, hUnder⟩ := hOwned.under 0 hMem
        have hLow := hUnder.inside.1
        omega
      refine ⟨⟨r.heap, r.live.erase 0⟩, rfl, ?_⟩
      rw [erase_of_not_mem hAbsent]
      exact hInv
    · obtain ⟨h', hDone, hAfter⟩ := hInv.release hMem
      rw [hDone]
      exact ⟨_, rfl, hAfter⟩

theorem Inv.step (hInv : r.Inv) (hStep : Restrict Whole Step r e r') : r'.Inv := by
  obtain ⟨hWhole, hNext⟩ := hStep
  have hMine : ∀ p, e = .release p → p = 0 ∨ p ∈ r.live := by
    rintro p rfl
    by_contra hNot
    rw [Step, HeapRun.next, if_neg hNot] at hNext
    cases hNext
  obtain ⟨r'', hNext', hAfter⟩ := hInv.next hWhole hMine
  obtain rfl : r'' = r' := some.inj (hNext'.symm.trans hNext)
  exact hAfter

theorem Inv.start {mem : Nat → Nat} {h : Heap} (hInit : Heap.init mem pages = some h) :
    Inv ⟨h, []⟩ := by
  have hShape := Heap.shape_init hInit
  refine ⟨_, hShape, ?_, nodup_nil, ?_, ?_⟩
  · rw [← hShape.tiled.tiles]
    decide
  · exact fun p hp => absurd hp not_mem_nil
  · exact fun p hp => absurd hp not_mem_nil

/-- In a run that never stops in the middle of growing, every heap is well formed. -/
theorem wellFormed_of_whole {mem : Nat → Nat} {pages : Nat} {h : Heap} {es : List HeapCall}
    (hInit : Heap.init mem pages = some h) (hRun : Run (Restrict Whole Step) ⟨h, []⟩ es r) :
    r.heap.WellFormed := by
  obtain ⟨bs, hShape, -⟩ :=
    hRun.invariant (fun _ _ _ hInv hStep => Inv.step hInv hStep) (Inv.start hInit)
  exact ⟨bs, hShape⟩

/-- Two allocations, an aligned one, releases in another order, a request that finds no page at
all and one that grows the heap. -/
def wholeCalls : List HeapCall :=
  [.allocate 100 0, .allocateAligned 100 64 0, .allocate 7 0, .release (kHeapBase + 32),
    .release (kHeapBase + 192), .allocate (2 ^ 20) 0, .allocate (2 ^ 20) 300]

theorem wellFormed_wholeCalls : ∃ h r, Heap.init (fun _ => 0) 17 = some h ∧
    Run (Restrict Whole Step) ⟨h, []⟩ wholeCalls r ∧ r.live.length = 2 ∧ r.heap.WellFormed := by
  have hEnd : ((Heap.init (fun _ => 0) 17).bind fun h =>
      (wholeCalls.foldlM (guarded Whole HeapRun.next) ⟨h, []⟩).map fun r => r.live.length) =
      some 2 := by
    decide +kernel
  obtain ⟨h, hInit, hRest⟩ := bind_eq_some_iff.mp hEnd
  obtain ⟨r, hFold, hLive⟩ := map_eq_some_iff.mp hRest
  have hRun : Run (Restrict Whole Step) ⟨h, []⟩ wholeCalls r :=
    Run.of_guarded (fun _ _ _ hNext => hNext) _ hFold
  exact ⟨h, r, hInit, hRun, hLive, wellFormed_of_whole hInit hRun⟩

/-- A request that needs 257 pages and gets three of them. -/
def stalledCalls : List HeapCall := [.allocate (2 ^ 20) 3]

/-- The region has grown by three pages that belong to no block and are not counted. -/
theorem not_wellFormed_stalledCalls : ¬ ∀ mem pages h es r, Heap.init mem pages = some h →
    Run Step ⟨h, []⟩ es r → r.heap.WellFormed := by
  intro hAll
  have hEnd : ((Heap.init (fun _ => 0) 17).bind fun h =>
      (stalledCalls.foldlM HeapRun.next ⟨h, []⟩).map fun r => r.heap.brk - kHeapBase - r.heap.size) =
      some (3 * 4096) := by
    decide +kernel
  obtain ⟨h, hInit, hRest⟩ := bind_eq_some_iff.mp hEnd
  obtain ⟨r, hFold, hGap⟩ := map_eq_some_iff.mp hRest
  have hRun : Run Step ⟨h, []⟩ stalledCalls r := .of_foldlM (fun _ _ _ hNext => hNext) _ hFold
  obtain ⟨bs, hShape⟩ := hAll _ _ h _ r hInit hRun
  rw [hShape.tiled.size] at hGap
  omega

end HeapRun
end LeahOS.Mm
