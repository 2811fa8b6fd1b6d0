import LeahOS.Mm.System

/-!
# One reference for every mapping

A frame that is handed out has `1 + g_refs` references recorded, and that should be the
number of leaves that map it and of segments and images that hold it; the bit of a mapped
frame is then set, because only the last reference clears it.

Three paths take or drop a reference without the other half. `fork` maps a page that is
shared for good into the child whether `share` had a reference to give or not; a frame mapped
65536 times is then mapped once more than it is counted. `ShmMap` takes all its references
before it maps anything, and leaves the ones it did not use when a table cannot be allocated.
And a mapping over a page that is present drops the reference of what was there.

Where none of these happens references and counts stay in step over every run.
-/

namespace LeahOS.Mm
open Lib List Multiset

/-- The number of present leaves that map a frame, over all address spaces. -/
def State.mappings (k : State) (frame : Nat) : Nat :=
  (k.procs.total fun pr : Process => pr.space.refs).count frame

/-- The number of times segments and images hold a frame. -/
def State.holders (k : State) (frame : Nat) : Nat := k.held.count frame

/-- The frames of page tables. -/
def State.tableFrames (k : State) : Multiset Nat := k.procs.total fun pr => pr.space.own

/-- Every frame handed out since `k₀`, page tables apart, is referred to as often as it is
counted; and the bit of a mapped frame is set. -/
def Counted (k₀ k : State) : Prop :=
  (∀ g, k₀.pmm.test g = false → k.pmm.test g = true → g ∉ k.tableFrames →
    1 + k.pmm.refsOf g = k.mappings g + k.holders g) ∧ ∀ g, 0 < k.mappings g → k.pmm.test g = true

/-- A machine with no process, segment or image yet, and no reference beyond the first.
The frame 0 is in use, as `init` leaves it. -/
structure Fresh (k : State) : Prop where
  procs : k.procs = Assoc.empty
  segments : k.segments = Assoc.empty
  images : k.images = Assoc.empty
  refs : ∀ g, k.pmm.refsOf g = 0
  zero : k.pmm.test 0 = true

/-- The operations on memory the allocator owns: all but the mapping of device memory and of
contiguous buffers. -/
def Owned : Event → Prop
  | .fbMap _ _ _ => False
  | .mapPhysical _ _ _ => False
  | .dmaAlloc _ _ => False
  | _ => True

instance (e : Event) : Decidable (Owned e) := by
  induction e using Event.casesOn <;> unfold Owned <;> infer_instance

/-- `fork` finds room for a reference at every page that is shared for good, and mappings of
shared memory and of files find their pages vacant and memory for the tables. -/
def Prudent (k : State) : Event → Prop
  | .fork pid _ => ∀ pr ∈ k.procs.get pid, ∀ e ∈ pr.space.leaves, e.shared = true →
      k.pmm.Shareable e.frame (pr.space.refs.count e.frame)
  | .shmMap pid id => ∀ pr ∈ k.procs.get pid, ∀ frames ∈ k.segments.get id,
      Vacant pr.space (State.mapPlan pr frames) ∧ Roomy k.pmm (State.mapPlan pr frames)
  | .mapFile pid id offset length _ => ∀ pr ∈ k.procs.get pid, ∀ frames ∈ k.images.get id,
      Vacant pr.space (State.mapPlan pr (State.wantedFrames frames offset length)) ∧
        Roomy k.pmm (State.mapPlan pr (State.wantedFrames frames offset length))
  | e => Owned e

instance (s : Space) (l : List (Nat × Nat)) : Decidable (Vacant s l) :=
  inferInstanceAs (Decidable (_ ∧ _))

instance (p : Pmm) (l : List (Nat × Nat)) : Decidable (Roomy p l) :=
  inferInstanceAs (Decidable (_ ∧ _))

instance (k : State) (e : Event) : Decidable (Prudent k e) := by
  induction e using Event.casesOn <;> unfold Prudent <;> infer_instance

/-- The books are in balance. `kernel` are the frames the kernel took before the first
process. -/
structure Balanced (kernel : Nat → Bool) (b : Books) : Prop where
  zero : kernel 0 = true
  below : ∀ g, kernel g = false → g < b.pmm.frameCount
  kept : ∀ g, kernel g = true → b.pmm.test g = true
  refsUsed : ∀ g ∈ b.refs, b.pmm.test g = true ∧ kernel g = false
  ownUsed : ∀ g ∈ b.own, b.pmm.test g = true ∧ kernel g = false
  counted : ∀ g ∈ b.refs, b.refs.count g = 1 + b.pmm.refsOf g
  alone : ∀ g ∈ b.own, b.own.count g = 1 ∧ g ∉ b.refs
  bare : ∀ g, g ∉ b.refs → b.pmm.refsOf g = 0
  handed : ∀ g, kernel g = false → b.pmm.test g = true → g ∈ b.refs ∨ g ∈ b.own

/-- Where a frame can stand: with the kernel, free, with as many references as it is counted, or
as the frame of one table. -/
def Stands (kernel used : Bool) (refs own extra : Nat) : Prop :=
  (kernel = true ∧ used = true ∧ refs = 0 ∧ own = 0 ∧ extra = 0) ∨
  (kernel = false ∧ used = false ∧ refs = 0 ∧ own = 0 ∧ extra = 0) ∨
  (kernel = false ∧ used = true ∧ refs = 1 + extra ∧ own = 0) ∨
  (kernel = false ∧ used = true ∧ refs = 0 ∧ own = 1 ∧ extra = 0)

section Balanced
variable {kernel : Nat → Bool} {p p' : Pmm} {R R' T T' : Multiset Nat} {frame : Nat}

/-- The books are in balance frame by frame. -/
theorem balanced_iff : Balanced kernel ⟨p, R, T⟩ ↔ kernel 0 = true ∧
    (∀ g, kernel g = false → g < p.frameCount) ∧
    ∀ g, Stands (kernel g) (p.test g) (R.count g) (T.count g) (p.refsOf g) := by
  constructor
  · rintro ⟨hZero, hBelow, hKept, hRefs, hOwn, hCounted, hAlone, hBare, hHanded⟩
    refine ⟨hZero, hBelow, fun g => ?_⟩
    simp only [← count_pos] at hRefs hOwn hCounted hAlone hBare hHanded
    unfold Stands
    grind
  · rintro ⟨hZero, hBelow, hStands⟩
    refine ⟨hZero, hBelow, ?_, ?_, ?_, ?_, ?_, ?_, ?_⟩
    all_goals
      intro g
      have hFrame := hStands g
      simp only [← count_pos]
      unfold Stands at hFrame
      grind

theorem count_singleton_add (R : Multiset Nat) (frame g : Nat) :
    ({frame} + R).count g = R.count g + if g = frame then 1 else 0 := by
  rw [count_add, Multiset.count_singleton, Nat.add_comm]

theorem count_singleton_add_of_ne {g : Nat} (hg : g ≠ frame) (R : Multiset Nat) :
    ({frame} + R).count g = R.count g := by
  rw [count_singleton_add, if_neg hg, Nat.add_zero]

/-- A move that has to do with one frame has to leave that one in order. -/
theorem Balanced.of_frame (hBalanced : Balanced kernel ⟨p, R, T⟩) (frame : Nat)
    (hCount : p'.frameCount = p.frameCount)
    (hSame : ∀ g, g ≠ frame → p'.test g = p.test g ∧ p'.refsOf g = p.refsOf g ∧
      R'.count g = R.count g ∧ T'.count g = T.count g)
    (hFrame : Stands (kernel frame) (p'.test frame) (R'.count frame) (T'.count frame)
      (p'.refsOf frame)) : Balanced kernel ⟨p', R', T'⟩ := by
  obtain ⟨hZero, hBelow, hStands⟩ := balanced_iff.mp hBalanced
  refine balanced_iff.mpr ⟨hZero, fun g hg => hCount ▸ hBelow g hg, fun g => ?_⟩
  by_cases hg : g = frame
  · rw [hg]
    exact hFrame
  · obtain ⟨hTest, hRefs, hR, hT⟩ := hSame g hg
    rw [hTest, hRefs, hR, hT]
    exact hStands g

/-- Frames that were free become the kernel's own. -/
theorem Balanced.take {l : List Nat} (hBalanced : Balanced kernel ⟨p, R, T⟩) (hNodup : l.Nodup)
    (hClear : ∀ g ∈ l, p.test g = false)
    (hTest : ∀ g, p'.test g = (p.test g || decide (g ∈ l))) (hRefs : p.SameRefs p')
    (hCount : p'.frameCount = p.frameCount) : Balanced kernel ⟨p', R, ↑l + T⟩ := by
  obtain ⟨hZero, hBelow, hStands⟩ := balanced_iff.mp hBalanced
  refine balanced_iff.mpr ⟨hZero, fun g hg => hCount ▸ hBelow g hg, fun g => ?_⟩
  have hOld := hStands g
  rw [hTest, hRefs.refsOf, count_add, coe_count]
  by_cases hg : g ∈ l
  · rw [List.count_eq_one_of_mem hNodup hg, decide_eq_true hg, Bool.or_true]
    unfold Stands at hOld ⊢
    grind
  · rw [count_eq_zero_of_not_mem hg, decide_eq_false hg, Bool.or_false, Nat.zero_add]
    exact hOld

/-- The last use of a frame is given up with its bit. -/
theorem Balanced.freed (hBalanced : Balanced kernel ⟨p, R, T⟩) (hKernel : kernel frame = false)
    (hNone : R'.count frame = 0 ∧ T'.count frame = 0 ∧ p.refsOf frame = 0)
    (hSame : ∀ g, g ≠ frame → R'.count g = R.count g ∧ T'.count g = T.count g) :
    Balanced kernel ⟨p.free frame, R', T'⟩ := by
  have hRefs := p.sameRefs_free frame
  have hZero : frame ≠ 0 := by
    rintro rfl
    rw [hBalanced.zero] at hKernel
    cases hKernel
  refine hBalanced.of_frame frame (Pmm.frameCount_free p frame) (fun g hg => ?_) ?_
  · rw [Pmm.test_free, if_neg fun h => hg h.1, hRefs.refsOf]
    exact ⟨rfl, rfl, hSame g hg⟩
  · rw [Pmm.test_free, if_pos ⟨rfl, hZero, hBalanced.below frame hKernel⟩, hRefs.refsOf, hNone.1,
      hNone.2.1, hNone.2.2, hKernel]
    exact .inr (.inl ⟨rfl, rfl, rfl, rfl, rfl⟩)

theorem balanced_move {b b' : Books} (hBalanced : Balanced kernel b)
    (hMove : Move (fun _ => False) b b') : Balanced kernel b' := by
  have hZero := hBalanced.kept 0 hBalanced.zero
  cases hMove with
  | @alloc p p' R T frame hAlloc hFrame =>
    obtain ⟨hClear, hTest, hRefs, hCount⟩ := Pmm.alloc_spec hAlloc hFrame
    have hTaken : Balanced kernel ⟨p', R, ↑[frame] + T⟩ := by
      refine hBalanced.take (List.nodup_singleton frame) (fun g hg => ?_) (fun g => ?_) hRefs hCount
      · rw [List.mem_singleton.mp hg]
        exact hClear
      · rw [hTest]
        simp
    exact hTaken
  | @contiguous p p' R T n start hAlloc hStart =>
    obtain ⟨hClear, hTest, hRefs, hCount⟩ := Pmm.allocContiguous_spec hAlloc hStart
    exact hBalanced.take (nodup_range' ..) (fun g => Pmm.clear_of_mem hClear) hTest hRefs hCount
  | full hAlloc =>
    obtain ⟨rfl, -⟩ := Pmm.alloc_zero hZero hAlloc
    exact hBalanced
  | fullRun hAlloc =>
    obtain rfl := Pmm.allocContiguous_zero hZero hAlloc
    exact hBalanced
  | fill frame page =>
    exact hBalanced.of_frame frame rfl (fun _ _ => ⟨rfl, rfl, rfl, rfl⟩)
      ((balanced_iff.mp hBalanced).2.2 frame)
  | @free p R T T' frame hSplit =>
    subst hSplit
    have hStands := (balanced_iff.mp hBalanced).2.2 frame
    rw [count_singleton_add, if_pos rfl] at hStands
    unfold Stands at hStands
    exact hBalanced.freed (by grind) (by grind)
      fun g hg => ⟨rfl, (count_singleton_add_of_ne hg _).symm⟩
  | @publish p R T T' frame hSplit =>
    subst hSplit
    have hStands := (balanced_iff.mp hBalanced).2.2 frame
    rw [count_singleton_add, if_pos rfl] at hStands
    refine hBalanced.of_frame frame rfl (fun g hg => ⟨rfl, rfl, count_singleton_add_of_ne hg _,
      (count_singleton_add_of_ne hg _).symm⟩) ?_
    rw [count_singleton_add, if_pos rfl]
    unfold Stands at hStands ⊢
    grind
  | @share p p' R T frame hShare hFrame =>
    obtain ⟨hRefs, hTest, hCount, -⟩ := Pmm.share_true hShare
    have hStands := (balanced_iff.mp hBalanced).2.2 frame
    have hPos := count_pos.mpr hFrame
    refine hBalanced.of_frame frame hCount
      (fun g hg => ⟨by rw [hTest], ?_, count_singleton_add_of_ne hg _, rfl⟩) ?_
    · rw [hRefs, if_neg hg, Nat.add_zero]
    · rw [hTest, hRefs, count_singleton_add, if_pos rfl]
      unfold Stands at hStands ⊢
      grind
  | @release p R R' T frame hSplit =>
    subst hSplit
    have hStands := (balanced_iff.mp hBalanced).2.2 frame
    rw [count_singleton_add, if_pos rfl] at hStands
    unfold Stands at hStands
    rcases Nat.eq_zero_or_pos (p.refsOf frame) with hNone | hSome
    · rw [Pmm.release_of_zero hNone]
      exact hBalanced.freed (by grind) (by grind)
        fun g hg => ⟨(count_singleton_add_of_ne hg _).symm, rfl⟩
    · obtain ⟨hRefs, hTest, hCount, -⟩ := Pmm.release_of_pos hSome
      refine hBalanced.of_frame frame hCount
        (fun g hg => ⟨by rw [hTest], ?_, (count_singleton_add_of_ne hg _).symm, rfl⟩) ?_
      · rw [hRefs, if_neg hg, Nat.sub_zero]
      · rw [hTest, hRefs, if_pos rfl]
        unfold Stands
        grind
  | again hFrame hOk | device hOk | lost hSplit hOk | wild hOk => exact hOk.elim

end Balanced

theorem balanced_step {kernel : Nat → Bool} {k k' : State} {e : Event}
    (hBalanced : Balanced kernel k.books) (hPrudent : Prudent k e) (hStep : State.Step k e k') :
    Balanced kernel k'.books := by
  have hAllowed : State.Allowed (fun _ => False) k e := by
    cases e with
    | fork pid child =>
      exact fun pr hGet e hLeaf hShared => .inr (hPrudent pr hGet e hLeaf hShared)
    | shmMap pid id =>
      exact .inr fun pr frames hGet hSegment => hPrudent pr hGet frames hSegment
    | mapFile pid id offset length exec =>
      exact .inr fun pr frames hGet hImage => hPrudent pr hGet frames hImage
    | fbMap | mapPhysical | dmaAlloc => exact hPrudent.elim
    | _ => trivial
  have hMove : ∀ b b', Balanced kernel b → Move (fun _ => False) b b' → Balanced kernel b' :=
    fun b b' => balanced_move
  exact (State.moves_next hStep hAllowed).invariant hMove hBalanced

theorem balanced_of_fresh {k : State} (hFresh : Fresh k) : Balanced k.pmm.test k.books := by
  rw [State.books_of_empty hFresh.procs hFresh.segments hFresh.images]
  refine balanced_iff.mpr ⟨hFresh.zero, fun g hg => Pmm.lt_of_test hg, fun g => ?_⟩
  rw [hFresh.refs, Multiset.count_zero]
  cases k.pmm.test g with
  | true => exact .inl ⟨rfl, rfl, rfl, rfl, rfl⟩
  | false => exact .inr (.inl ⟨rfl, rfl, rfl, rfl, rfl⟩)

theorem counted_of_balanced {k₀ k : State} (hBalanced : Balanced k₀.pmm.test k.books) :
    Counted k₀ k := by
  have hCount : ∀ g, k.books.refs.count g = k.mappings g + k.holders g := fun g =>
    count_add g _ _
  refine ⟨fun g hFree hUsed hTable => ?_, fun g hMapped => ?_⟩
  · have hRef := (hBalanced.handed g hFree hUsed).resolve_right hTable
    rw [← hCount]
    exact (hBalanced.counted g hRef).symm
  · have hRef : g ∈ k.books.refs := count_pos.mp (by rw [hCount]; omega)
    exact (hBalanced.refsUsed g hRef).1

/-- A machine with the frames `1` to `n` free. -/
def smallMachine (n : Nat) : State where
  pmm :=
    { frameCount := n + 1
      bitmapWords := n / 64 + 1
      bitmap := fun frame => decide (frame = 0 ∨ n < frame)
      usedFrames := 1
      freeFrames := n
      searchHint := 0
      highestUsable := UInt64.ofNat ((n + 1) * kPageSize)
      refs := some fun _ => 0
      refCount := n + 1
      mem := fun _ => zeros
      covers := by omega }
  procs := Assoc.empty
  segments := Assoc.empty
  images := Assoc.empty

theorem fresh_smallMachine (n : Nat) : Fresh (smallMachine n) := by
  refine ⟨rfl, rfl, rfl, fun g => ?_, ?_⟩
  · simp [smallMachine, Pmm.refsOf]
  · simp [smallMachine, Pmm.test]

/-- A segment of one page is mapped when there is no frame left for a page table. -/
def starvedEvents : List Event := [.create 1, .shmOpen 0 4096, .shmMap 1 0]

/-- A process with a private page and a shared one forks, both write, and all goes away. -/
def prudentEvents : List Event :=
  [.create 1, .mmap 1 0 4096 true false false, .lazyFault 1 (kUserMmapBase / kPageSize),
    .shmOpen 0 4096, .shmMap 1 0, .fork 1 2, .cowFault 2 (kUserMmapBase / kPageSize),
    .munmap 1 kUserMmapBase 8192, .exit 1]

end LeahOS.Mm
