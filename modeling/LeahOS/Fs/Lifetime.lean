import LeahOS.Fs.Descriptors

/-!
# What a pipe is counted by

The invariant `Inv` says what the counts are, what is freed, and to what descriptors, names and
calls may point. A step changes these one at a time, so `Inv` has two parameters that are empty
between steps: `debt` is by how much a count is behind the descriptors, and `work` is a pipe that
is being worked on, whose fate is open. Each lemma here is about one such change.
-/

namespace LeahOS.Fs
open Lib Function Option
namespace Files
variable {s : Files} {p t : Nat} {x : Nat × Nat} {d : Descriptor}

/-- The tables, the counts and the pointers are in step. -/
structure Inv (debt : Bool → Nat → Int) (work : Option Nat) (s : Files) : Prop where
  ends : ∀ p writes, s.live p = true → (s.pipes p).count writes + debt writes p = s.held writes p
  busy : ∀ p, s.live p = true → (s.pipes p).busy = s.inside p
  doomed : ∀ p, s.live p = true → work ≠ some p →
    ((s.pipes p).doomed = true ↔ ∀ writes, s.held writes p = 0)
  kept : ∀ p, s.live p = true → work ≠ some p → (∃ writes, 0 < s.held writes p) ∨ 0 < s.inside p
  fdLive : ∀ x, (s.fds x).kind = .pipe → x ∈ places ∧
    (∃ p, (s.fds x).pipe = some p ∧ s.live p = true) ∧ ∃ t, s.alive t = true ∧ s.leader t = x.1
  inLive : ∀ t p, s.call t = .inside p → s.live p = true
  named : ∀ i, (s.named i).used = true → ∃ p, (s.named i).pipe = some p ∧ s.live p = true ∧
    (work ≠ some p → ∃ writes, 0 < s.held writes p)
  waiting : ∀ t fd i p writes, s.call t = .waiting fd i p writes →
    Holds (s.fds (s.leader t, fd)) writes p ∧ (s.named i).used = true ∧ (s.named i).pipe = some p
  apart : ∀ t u fd i j p q v w, s.call t = .waiting fd i p v → s.call u = .waiting fd j q w →
    s.leader t = s.leader u → t = u
  calling : ∀ t, s.call t ≠ .idle → s.alive t = true
  bound : ∀ t, s.alive t = true → t < kMaxTasks ∧ s.leader t < kMaxTasks
  fresh : ∀ p, s.made ≤ p → s.live p = false
  freed : ∀ p, s.frees p = if p < s.made ∧ s.live p = false then 1 else 0
  clean : s.touched = false ∧ s.strayed = false

/-- Between steps. -/
abbrev Settled (s : Files) : Prop := Inv (fun _ _ => 0) none s

variable {debt : Bool → Nat → Int} {work : Option Nat}

theorem mem_slots : t ∈ slots ↔ t < kMaxTasks := by
  unfold slots
  exact Finset.mem_range

theorem mem_places : x ∈ places ↔ x.1 < kMaxTasks ∧ x.2 < kMaxFds := by
  unfold places
  rw [Finset.mem_product, Finset.mem_range, Finset.mem_range]

variable {writes : Bool} {i : Nat} {o : PipeEnds} {c : FileCall}

theorem held_pos (hx : x ∈ places) (hHolds : Holds (s.fds x) writes p) :
    0 < s.held writes p :=
  census_pos.mpr ⟨x, hx, hHolds⟩

theorem held_setFd (hx : x ∈ places) (d : Descriptor) (writes : Bool) (q : Nat) :
    (s.setFd x d).held writes q + (if Holds (s.fds x) writes q then 1 else 0) =
      s.held writes q + if Holds d writes q then 1 else 0 :=
  census_update hx s.fds d

theorem touch_of_live (hLive : s.live p = true) : s.touch p = s := by
  unfold touch
  rw [hLive, Bool.not_true, Bool.or_false]

/-- What a descriptor points to. -/
theorem Inv.holds (hInv : Inv debt work s) (hKind : (s.fds x).kind = .pipe) :
    ∃ p, Holds (s.fds x) (s.fds x).writes p ∧ s.live p = true := by
  obtain ⟨-, ⟨p, hPipe, hLive⟩, -⟩ := hInv.fdLive x hKind
  exact ⟨p, ⟨hKind, rfl, hPipe⟩, hLive⟩

theorem Inv.waits (hInv : Inv debt work s) {fd : Nat} (hCall : s.call t = .waiting fd i p writes) :
    0 < s.held writes p := by
  obtain ⟨hHolds, -, -⟩ := hInv.waiting t fd i p writes hCall
  exact held_pos (hInv.fdLive _ hHolds.1).1 hHolds

theorem Inv.isInside (hInv : Inv debt work s) (hCall : s.call t = .inside p) : s.alive t = true :=
  hInv.calling t (by rw [hCall]; exact FileCall.noConfusion)

theorem Inv.isWaiting (hInv : Inv debt work s) {fd : Nat} (hCall : s.call t = .waiting fd i p writes) :
    s.alive t = true :=
  hInv.calling t (by rw [hCall]; exact FileCall.noConfusion)

/-- Nothing points to a pipe that is not there. -/
theorem Inv.held_of_dead (hInv : Inv debt work s) (hDead : s.live p = false) (writes : Bool) :
    s.held writes p = 0 := by
  refine census_eq_zero.mpr fun x _ hHolds => ?_
  obtain ⟨-, ⟨q, hPipe, hLive⟩, -⟩ := hInv.fdLive x hHolds.1
  obtain rfl : p = q := some.inj (hHolds.2.2.symm.trans hPipe)
  rw [hDead] at hLive
  cases hLive

theorem Inv.inside_of_dead (hInv : Inv debt work s) (hDead : s.live p = false) : s.inside p = 0 := by
  refine census_eq_zero.mpr fun t _ hCall => ?_
  rw [hInv.inLive t p hCall] at hDead
  cases hDead

/-- A descriptor with an end of a pipe holds no other. -/
theorem Holds.iff {v : Bool} {q : Nat} (hHolds : Holds d writes p) :
    Holds d v q ↔ v = writes ∧ q = p := by
  constructor
  · rintro ⟨-, hWrites, hPipe⟩
    exact ⟨hWrites.symm.trans hHolds.2.1, some.inj (hPipe.symm.trans hHolds.2.2)⟩
  · rintro ⟨rfl, rfl⟩
    exact hHolds

/-- A pipe that is not the one now worked on is none that was. -/
theorem ne_of_work (hWork : ∀ q, work = some q → q = p) {q : Nat} (hq : some p ≠ some q) :
    q ≠ p ∧ work ≠ some q :=
  ⟨fun hEq => hq (congrArg some hEq.symm), fun hEq => hq (congrArg some (hWork q hEq).symm)⟩

/-! ### Parts of steps -/

/-- A descriptor is written. Only the pipe that is worked on is in it, before or after. -/
theorem Inv.setFd (hInv : Inv debt work s) (hWork : ∀ q, work = some q → q = p)
    (hx : x ∈ places) (hGroup : ∃ t, s.alive t = true ∧ s.leader t = x.1)
    (hOld : ∀ writes q, Holds (s.fds x) writes q → q = p)
    (hNew : d.kind = .pipe → d.pipe = some p ∧ s.live p = true)
    (hFree : ∀ t fd i q writes, s.call t = .waiting fd i q writes → (s.leader t, fd) ≠ x) :
    Inv (fun writes q => debt writes q + (if Holds d writes q then 1 else 0) -
      if Holds (s.fds x) writes q then 1 else 0) (some p) (s.setFd x d) := by
  have hHeld := held_setFd (s := s) hx d
  -- the descriptors of other pipes are as they were
  have hSame : ∀ writes q, q ≠ p → (s.setFd x d).held writes q = s.held writes q := by
    intro writes q hq
    have hEq := hHeld writes q
    rw [if_neg fun hHolds => hq (hOld writes q hHolds), if_neg fun hHolds => hq ?_] at hEq
    · omega
    · have hPipe := (hNew hHolds.1).1
      rw [hHolds.2.2] at hPipe
      exact some.inj hPipe
  refine { hInv with
    ends := fun q writes hLive => ?_
    doomed := fun q hLive hq => ?_
    kept := fun q hLive hq => ?_
    fdLive := fun y hKind => ?_
    named := fun i hUsed => ?_
    waiting := fun t fd i q writes hCall => ?_ }
  · have hEnds := hInv.ends q writes hLive
    have hEq := hHeld writes q
    change (s.pipes q).count writes + (debt writes q + _ - _) = _
    split_ifs at hEq ⊢ <;> omega
  · obtain ⟨hqp, hqw⟩ := ne_of_work hWork hq
    simp only [hSame _ q hqp]
    exact hInv.doomed q hLive hqw
  · obtain ⟨hqp, hqw⟩ := ne_of_work hWork hq
    simp only [hSame _ q hqp]
    exact hInv.kept q hLive hqw
  · by_cases hy : y = x
    · subst hy
      have hKind' : d.kind = .pipe := by simpa [Files.setFd] using hKind
      refine ⟨hx, ⟨p, ?_, (hNew hKind').2⟩, hGroup⟩
      simpa [Files.setFd] using (hNew hKind').1
    · have hOldFd : (s.setFd x d).fds y = s.fds y := update_of_ne hy _ _
      rw [hOldFd] at hKind ⊢
      exact hInv.fdLive y hKind
  · obtain ⟨q, hPipe, hLive, hSome⟩ := hInv.named i hUsed
    refine ⟨q, hPipe, hLive, fun hq => ?_⟩
    obtain ⟨hqp, hqw⟩ := ne_of_work hWork hq
    simp only [hSame _ q hqp]
    exact hSome hqw
  · have hOldFd : (s.setFd x d).fds (s.leader t, fd) = s.fds (s.leader t, fd) :=
      update_of_ne (hFree t fd i q writes hCall) _ _
    obtain ⟨hHolds, hSlot⟩ := hInv.waiting t fd i q writes hCall
    refine ⟨?_, hSlot⟩
    change Holds ((s.setFd x d).fds (s.leader t, fd)) writes q
    rw [hOldFd]
    exact hHolds

/-- The counts of ends of the pipe that is worked on are written. -/
theorem Inv.setEnds (hInv : Inv debt work s) (hWork : ∀ q, work = some q → q = p)
    (hBusy : o.busy = (s.pipes p).busy) : Inv (fun writes q => debt writes q -
      if q = p then o.count writes - (s.pipes p).count writes else 0) (some p) (s.setPipe p o) := by
  have hSame : ∀ q, q ≠ p → (s.setPipe p o).pipes q = s.pipes q := fun q hq =>
    update_of_ne hq _ _
  have hMine : (s.setPipe p o).pipes p = o := update_self _ _ _
  refine { hInv with
    ends := fun q writes hLive => ?_
    busy := fun q hLive => ?_
    doomed := fun q hLive hq => ?_
    kept := fun q hLive hq => ?_
    named := fun i hUsed => ?_ }
  · have hEnds := hInv.ends q writes hLive
    change _ = (s.held writes q : Int)
    by_cases hq : q = p
    · subst hq
      rw [hMine, if_pos rfl]
      omega
    · rw [hSame q hq, if_neg hq]
      omega
  · by_cases hq : q = p
    · subst hq
      rw [hMine, hBusy]
      exact hInv.busy q hLive
    · rw [hSame q hq]
      exact hInv.busy q hLive
  · rw [hSame q (ne_of_work hWork hq).1]
    exact hInv.doomed q hLive (ne_of_work hWork hq).2
  · exact hInv.kept q hLive (ne_of_work hWork hq).2
  · obtain ⟨q, hPipe, hLive, hSome⟩ := hInv.named i hUsed
    exact ⟨q, hPipe, hLive, fun hq => hSome (ne_of_work hWork hq).2⟩

/-- The work on a pipe is done. -/
theorem Inv.done (hInv : Inv debt (some p) s)
    (hDoomed : s.live p = true → ((s.pipes p).doomed = true ↔ ∀ writes, s.held writes p = 0))
    (hKept : s.live p = true → (∃ writes, 0 < s.held writes p) ∨ 0 < s.inside p)
    (hNamed : ∀ i, (s.named i).used = true → (s.named i).pipe = some p →
      ∃ writes, 0 < s.held writes p) : Inv debt none s := by
  have hOther : ∀ q, q ≠ p → some p ≠ some q := fun q hq hEq => hq (some.inj hEq).symm
  refine { hInv with
    doomed := fun q hLive _ => ?_
    kept := fun q hLive _ => ?_
    named := fun i hUsed => ?_ }
  · by_cases hq : q = p
    · subst hq
      exact hDoomed hLive
    · exact hInv.doomed q hLive (hOther q hq)
  · by_cases hq : q = p
    · subst hq
      exact hKept hLive
    · exact hInv.kept q hLive (hOther q hq)
  · obtain ⟨q, hPipe, hLive, hSome⟩ := hInv.named i hUsed
    refine ⟨q, hPipe, hLive, fun _ => ?_⟩
    by_cases hq : q = p
    · subst hq
      exact hNamed i hUsed hPipe
    · exact hSome (hOther q hq)

/-- The work on a pipe is done that somebody holds. -/
theorem Inv.done_held (hInv : Inv debt (some p) s) (hPos : 0 < s.held writes p)
    (hDoomed : (s.pipes p).doomed = false) : Inv debt none s := by
  refine hInv.done (fun _ => ?_) (fun _ => .inl ⟨writes, hPos⟩) fun _ _ _ => ⟨writes, hPos⟩
  rw [hDoomed]
  exact ⟨fun hTrue => absurd hTrue Bool.false_ne_true,
    fun hAll => absurd (hAll writes) (Nat.ne_of_gt hPos)⟩

/-- As long as somebody holds it, it is not doomed. -/
theorem Inv.not_doomed (hInv : Inv debt none s) (hLive : s.live p = true)
    (hPos : 0 < s.held writes p) : (s.pipes p).doomed = false := by
  refine Bool.eq_false_iff.mpr fun hDoomed => ?_
  exact absurd ((hInv.doomed p hLive (some_ne_none p).symm).mp hDoomed writes) (Nat.ne_of_gt hPos)

/-- A pipe with nobody at either end and nobody inside is freed. -/
theorem Inv.kfree (hInv : Inv debt (some p) s) (hLive : s.live p = true)
    (hHeld : ∀ writes, s.held writes p = 0) (hInside : s.inside p = 0)
    (hNamed : ∀ i, (s.named i).used = true → (s.named i).pipe ≠ some p) :
    Inv debt none (s.kfree p) := by
  have hOther : ∀ q, q ≠ p → some p ≠ some q := fun q hq hEq => hq (some.inj hEq).symm
  have hSame : ∀ q, q ≠ p → (s.kfree p).live q = s.live q := fun q hq =>
    update_of_ne hq _ _
  have hGone : (s.kfree p).live p = false := update_self _ _ _
  -- what is live now is another pipe, which was live before
  have hStill : ∀ q, (s.kfree p).live q = true → q ≠ p ∧ s.live q = true := by
    intro q hq
    have hNe : q ≠ p := by
      rintro rfl
      rw [hGone] at hq
      cases hq
    exact ⟨hNe, hSame q hNe ▸ hq⟩
  refine ⟨fun q writes hq => ?_, fun q hq => ?_, fun q hq _ => ?_, fun q hq _ => ?_,
    fun x hKind => ?_, fun t q hCall => ?_, fun i hUsed => ?_, hInv.waiting, hInv.apart,
    hInv.calling, hInv.bound, fun q hMade => ?_, fun q => ?_, hInv.clean⟩
  · exact hInv.ends q writes (hStill q hq).2
  · exact hInv.busy q (hStill q hq).2
  · exact hInv.doomed q (hStill q hq).2 (hOther q (hStill q hq).1)
  · exact hInv.kept q (hStill q hq).2 (hOther q (hStill q hq).1)
  · obtain ⟨hx, ⟨q, hPipe, hq⟩, hGroup⟩ := hInv.fdLive x hKind
    refine ⟨hx, ⟨q, hPipe, ?_⟩, hGroup⟩
    rw [hSame q, hq]
    rintro rfl
    have hPos : 0 < s.held (s.fds x).writes q := held_pos hx ⟨hKind, rfl, hPipe⟩
    rw [hHeld] at hPos
    exact absurd hPos (Nat.lt_irrefl 0)
  · rw [hSame q, hInv.inLive t q hCall]
    rintro rfl
    have hIn := mem_slots.mpr (hInv.bound t (hInv.isInside hCall)).1
    have hPos : 0 < s.inside q := census_pos.mpr ⟨t, hIn, hCall⟩
    omega
  · obtain ⟨q, hPipe, hq, hSome⟩ := hInv.named i hUsed
    have hNe : q ≠ p := by
      rintro rfl
      exact hNamed i hUsed hPipe
    exact ⟨q, hPipe, (hSame q hNe).trans hq, fun _ => hSome (hOther q hNe)⟩
  · by_cases hq : q = p
    · rw [hq]
      exact hGone
    · exact (hSame q hq).trans (hInv.fresh q hMade)
  · by_cases hq : q = p
    · subst hq
      have hMade : q < s.made := by
        by_contra hNot
        rw [hInv.fresh q (Nat.not_lt.mp hNot)] at hLive
        cases hLive
      have hNever : s.frees q = 0 := by
        rw [hInv.freed q, if_neg (fun hBoth => by rw [hLive] at hBoth; cases hBoth.2)]
      rw [if_pos ⟨hMade, hGone⟩]
      change update s.frees q (s.frees q + 1) q = 1
      rw [update_self, hNever]
    · rw [hSame q hq]
      change update s.frees p (s.frees p + 1) q = _
      rw [update_of_ne hq]
      exact hInv.freed q

/-- The names of a pipe nobody waits for are given up. -/
theorem Inv.dropName (hInv : Inv debt work s) (hHeld : ∀ writes, s.held writes p = 0) :
    Inv debt work { s with named := dropName s.named p } := by
  have hKept : ∀ i, (Files.dropName s.named p i).used = true →
      Files.dropName s.named p i = s.named i := by
    intro i hUsed
    unfold Files.dropName at hUsed ⊢
    split at hUsed
    · cases hUsed
    next hNot => rw [if_neg hNot]
  refine { hInv with named := fun i hUsed => ?_, waiting := fun t fd i q writes hCall => ?_ }
  · have hEq := hKept i hUsed
    dsimp only at hUsed ⊢
    rw [hEq] at hUsed ⊢
    exact hInv.named i hUsed
  · obtain ⟨hHolds, hUsed, hPipe⟩ := hInv.waiting t fd i q writes hCall
    have hNe : ¬ ((s.named i).used ∧ (s.named i).pipe = some p) := by
      rintro ⟨-, hMine⟩
      obtain rfl : q = p := some.inj (hPipe.symm.trans hMine)
      have hPos := hInv.waits hCall
      rw [hHeld] at hPos
      exact absurd hPos (Nat.lt_irrefl 0)
    refine ⟨hHolds, ?_⟩
    dsimp only [Files.dropName]
    rw [if_neg hNe]
    exact ⟨hUsed, hPipe⟩

/-- A pipe is made; nobody has it yet. -/
theorem Inv.make (hInv : Settled s) (hBusy : o.busy = 0) :
    Inv (fun writes q => if q = s.made then -o.count writes else 0) (some s.made) (s.make o) := by
  have hNew : s.live s.made = false := hInv.fresh _ (Nat.le_refl _)
  have hOther : ∀ q, some s.made ≠ some q → q ≠ s.made := fun q hq hEq =>
    hq (congrArg some hEq.symm)
  have hPipe : ∀ q, q ≠ s.made → (s.make o).pipes q = s.pipes q := fun q hq =>
    update_of_ne hq _ _
  have hMine : (s.make o).pipes s.made = o := update_self _ _ _
  have hLive : ∀ q, q ≠ s.made → (s.make o).live q = s.live q := fun q hq =>
    update_of_ne hq _ _
  have hBorn : (s.make o).live s.made = true := update_self _ _ _
  have hStill : ∀ q, s.live q = true → (s.make o).live q = true := by
    intro q hq
    rw [hLive q, hq]
    rintro rfl
    rw [hNew] at hq
    cases hq
  refine ⟨fun q writes hq => ?_, fun q hq => ?_, fun q hq hNe => ?_, fun q hq hNe => ?_,
    fun x hKind => ?_, fun t q hCall => hStill q (hInv.inLive t q hCall), fun i hUsed => ?_,
    hInv.waiting, hInv.apart, hInv.calling, hInv.bound, fun q hMade => ?_, fun q => ?_, hInv.clean⟩
  · change _ = (s.held writes q : Int)
    by_cases hMade : q = s.made
    · rw [hMade, hMine, if_pos rfl, hInv.held_of_dead hNew]
      omega
    · rw [hPipe q hMade, if_neg hMade]
      exact hInv.ends q writes ((hLive q hMade).symm.trans hq)
  · change _ = (s.inside q : Int)
    by_cases hMade : q = s.made
    · rw [hMade, hMine, hBusy, hInv.inside_of_dead hNew]
      rfl
    · rw [hPipe q hMade]
      exact hInv.busy q ((hLive q hMade).symm.trans hq)
  · have hMade := hOther q hNe
    rw [hPipe q hMade]
    exact hInv.doomed q ((hLive q hMade).symm.trans hq) (some_ne_none q).symm
  · have hMade := hOther q hNe
    exact hInv.kept q ((hLive q hMade).symm.trans hq) (some_ne_none q).symm
  · obtain ⟨hx, ⟨q, hPipe, hq⟩, hGroup⟩ := hInv.fdLive x hKind
    exact ⟨hx, ⟨q, hPipe, hStill q hq⟩, hGroup⟩
  · obtain ⟨q, hPipe, hq, hSome⟩ := hInv.named i hUsed
    exact ⟨q, hPipe, hStill q hq, fun _ => hSome (some_ne_none q).symm⟩
  · rw [hLive q (Nat.ne_of_gt hMade)]
    exact hInv.fresh q (Nat.le_of_succ_le hMade)
  · change s.frees q = _
    rw [hInv.freed q]
    by_cases hMade : q = s.made
    · subst hMade
      rw [if_neg (fun hBoth => Nat.lt_irrefl _ hBoth.1), if_neg]
      rintro ⟨-, hDead⟩
      rw [hBorn] at hDead
      cases hDead
    · rw [hLive q hMade]
      have hIff : q < s.made ↔ q < s.made + 1 := by omega
      simp only [hIff]
      rfl

/-- What a thread is doing changes, and the pipe it was or is inside of with it. -/
theorem Inv.setCall (hInv : Settled s) (ht : s.alive t = true)
    (hOld : ∀ q, s.call t = .inside q → q = p) (hNew : ∀ q, c = .inside q → q = p ∧ s.live p = true)
    (hCount : ∀ writes, o.count writes = (s.pipes p).count writes)
    (hBusy : o.busy + (if s.call t = .inside p then 1 else 0) =
      (s.pipes p).busy + if c = .inside p then 1 else 0)
    (hWaiting : ∀ fd i q w, c = .waiting fd i q w → Holds (s.fds (s.leader t, fd)) w q ∧
      (s.named i).used = true ∧ (s.named i).pipe = some q)
    (hAlone : ∀ u fd i j q q' w w', c = .waiting fd i q w → s.call u = .waiting fd j q' w' →
      s.leader u = s.leader t → u = t) :
    Inv (fun _ _ => 0) (some p) ((s.setPipe p o).setCall t c) := by
  have hOther : ∀ q, some p ≠ some q → q ≠ p := fun q hq hEq => hq (congrArg some hEq.symm)
  have hSame : ∀ q, q ≠ p → ((s.setPipe p o).setCall t c).pipes q = s.pipes q := fun q hq =>
    update_of_ne hq _ _
  have hMine : ((s.setPipe p o).setCall t c).pipes p = o := update_self _ _ _
  have hIn : ∀ q, ((s.setPipe p o).setCall t c).inside q +
      (if s.call t = .inside q then 1 else 0) = s.inside q + if c = .inside q then 1 else 0 :=
    fun q => census_update (mem_slots.mpr (hInv.bound t ht).1) s.call c
  have hInSame : ∀ q, q ≠ p → ((s.setPipe p o).setCall t c).inside q = s.inside q := by
    intro q hq
    have hEq := hIn q
    rw [if_neg fun hCall => hq (hOld q hCall), if_neg fun hCall => hq (hNew q hCall).1] at hEq
    exact hEq
  -- another thread does what it did
  have hCall : ∀ u, u ≠ t → ((s.setPipe p o).setCall t c).call u = s.call u := fun u hu =>
    update_of_ne hu _ _
  have hCallMine : ((s.setPipe p o).setCall t c).call t = c := update_self _ _ _
  refine ⟨fun q writes hq => ?_, fun q hq => ?_, fun q hq hNe => ?_, fun q hq hNe => ?_,
    hInv.fdLive, fun u q hu => ?_, fun i hUsed => ?_, fun u fd i q w hu => ?_,
    fun u v fd i j q q' w w' hu hv hLeader => ?_, fun u hu => ?_, hInv.bound, hInv.fresh,
    hInv.freed, hInv.clean⟩
  · change _ = (s.held writes q : Int)
    by_cases hqp : q = p
    · subst hqp
      rw [hMine, hCount]
      exact hInv.ends q writes hq
    · rw [hSame q hqp]
      exact hInv.ends q writes hq
  · by_cases hqp : q = p
    · subst hqp
      rw [hMine]
      have hWas := hInv.busy q hq
      have hEq := hIn q
      split_ifs at hBusy hEq <;> omega
    · rw [hSame q hqp, hInSame q hqp]
      exact hInv.busy q hq
  · rw [hSame q (hOther q hNe)]
    exact hInv.doomed q hq (some_ne_none q).symm
  · rw [hInSame q (hOther q hNe)]
    exact hInv.kept q hq (some_ne_none q).symm
  · by_cases hut : u = t
    · rw [hut, hCallMine] at hu
      obtain ⟨rfl, hLive⟩ := hNew q hu
      exact hLive
    · rw [hCall u hut] at hu
      exact hInv.inLive u q hu
  · obtain ⟨q, hPipe, hq, hSome⟩ := hInv.named i hUsed
    exact ⟨q, hPipe, hq, fun _ => hSome (some_ne_none q).symm⟩
  · by_cases hut : u = t
    · rw [hut, hCallMine] at hu
      rw [hut]
      exact hWaiting fd i q w hu
    · rw [hCall u hut] at hu
      exact hInv.waiting u fd i q w hu
  · by_cases hut : u = t
    · rw [hut, hCallMine] at hu
      by_cases hvt : v = t
      · rw [hut, hvt]
      · rw [hCall v hvt] at hv
        rw [hut] at hLeader ⊢
        exact (hAlone v fd i j q q' w w' hu hv hLeader.symm).symm
    · rw [hCall u hut] at hu
      by_cases hvt : v = t
      · rw [hvt, hCallMine] at hv
        rw [hvt] at hLeader ⊢
        exact hAlone u fd j i q' q w' w hv hu hLeader
      · rw [hCall v hvt] at hv
        exact hInv.apart u v fd i j q q' w w' hu hv hLeader
  · by_cases hut : u = t
    · rw [hut]
      exact ht
    · rw [hCall u hut] at hu
      exact hInv.calling u hu

/-- Work on a pipe that is not there is nothing. -/
theorem Inv.idle (hInv : Inv debt (some p) s) (hDead : s.live p = false) : Inv debt none s := by
  have hNot : s.live p ≠ true := by rw [hDead]; exact Bool.false_ne_true
  refine hInv.done (fun hLive => absurd hLive hNot) (fun hLive => absurd hLive hNot)
    fun i hUsed hPipe => ?_
  obtain ⟨q, hPipe', hLive, -⟩ := hInv.named i hUsed
  obtain rfl : q = p := some.inj (hPipe'.symm.trans hPipe)
  exact absurd hLive hNot

/-- A thread in `open_fifo` begins to wait or stops waiting. -/
theorem Inv.setWaiting (hInv : Settled s) (ht : s.alive t = true) (hOld : ∀ q, s.call t ≠ .inside q)
    (hNew : ∀ q, c ≠ .inside q)
    (hWaiting : ∀ fd i q w, c = .waiting fd i q w → Holds (s.fds (s.leader t, fd)) w q ∧
      (s.named i).used = true ∧ (s.named i).pipe = some q)
    (hAlone : ∀ u fd i j q q' w w', c = .waiting fd i q w → s.call u = .waiting fd j q' w' →
      s.leader u = s.leader t → u = t) : Settled (s.setCall t c) := by
  have hSet := hInv.setCall (p := s.made) (o := s.pipes s.made) ht
    (fun q hq => absurd hq (hOld q)) (fun q hq => absurd hq (hNew q)) (fun _ => rfl)
    (by rw [if_neg (hOld _), if_neg (hNew _)]) hWaiting hAlone
  have hPipe : s.setPipe s.made (s.pipes s.made) = s := by
    unfold Files.setPipe
    rw [update_eq_self]
  rw [hPipe] at hSet
  exact hSet.idle (hInv.fresh _ (Nat.le_refl _))

/-- Only how often an end has been seen is noted. -/
theorem Inv.setNamed (hInv : Inv debt work s) {n : NamedPipe} (hUsed : n.used = (s.named i).used)
    (hPipe : n.pipe = (s.named i).pipe) :
    Inv debt work { s with named := update s.named i n } := by
  have hSame : ∀ j, (update s.named i n j).used = (s.named j).used ∧
      (update s.named i n j).pipe = (s.named j).pipe := by
    intro j
    by_cases hj : j = i
    · rw [hj, update_self]
      exact ⟨hUsed, hPipe⟩
    · rw [update_of_ne hj]
      exact ⟨rfl, rfl⟩
  refine { hInv with named := fun j hj => ?_, waiting := fun t fd j q w hCall => ?_ }
  · dsimp only at hj ⊢
    rw [(hSame j).1] at hj
    rw [(hSame j).2]
    exact hInv.named j hj
  · dsimp only
    rw [(hSame j).1, (hSame j).2]
    exact hInv.waiting t fd j q w hCall

/-! ### The end of an end -/

theorem count_add (o : PipeEnds) (v w : Bool) (k : Int) :
    (o.add w k).count v = o.count v + if v = w then k else 0 := by
  cases v <;> cases w <;> simp [PipeEnds.add, PipeEnds.count]

theorem busy_add (o : PipeEnds) (w : Bool) (k : Int) : (o.add w k).busy = o.busy := by
  cases w <;> rfl

theorem doomed_add (o : PipeEnds) (w : Bool) (k : Int) : (o.add w k).doomed = o.doomed := by
  cases w <;> rfl

theorem count_eq_zero (o : PipeEnds) :
    (o.readers = 0 ∧ o.writers = 0) ↔ ∀ writes, o.count writes = 0 := by
  constructor
  · rintro ⟨hReaders, hWriters⟩ writes
    cases writes
    · exact hReaders
    · exact hWriters
  · exact fun hAll => ⟨hAll false, hAll true⟩

/-- `release_pipe` neither looks at the tables and the threads nor changes them. -/
theorem releasePipe_with (s : Files) (d : Descriptor) (fds : Nat × Nat → Descriptor)
    (call : Nat → FileCall) (alive : Nat → Bool) (leader : Nat → Nat) :
    ({ s with fds := fds, call := call, alive := alive, leader := leader } : Files).releasePipe d =
      { s.releasePipe d with fds := fds, call := call, alive := alive, leader := leader } := by
  unfold releasePipe
  cases d.pipe with
  | none => rfl
  | some p =>
    dsimp only
    split_ifs
    · rfl
    · rfl
    · rfl

theorem kept_releasePipe (s : Files) (d : Descriptor) : (s.releasePipe d).fds = s.fds ∧
    (s.releasePipe d).call = s.call ∧ (s.releasePipe d).alive = s.alive ∧
    (s.releasePipe d).leader = s.leader := by
  have hSame : s.releasePipe d = _ := s.releasePipe_with d s.fds s.call s.alive s.leader
  rw [hSame]
  exact ⟨rfl, rfl, rfl, rfl⟩

theorem releasePipe_setFd (s : Files) (x : Nat × Nat) (d d' : Descriptor) :
    (s.setFd x d').releasePipe d = (s.releasePipe d).setFd x d' := by
  obtain ⟨hFds, hCall, hAlive, hLeader⟩ := s.kept_releasePipe d
  rw [Files.setFd, Files.setFd, releasePipe_with, hFds, hCall, hAlive, hLeader]

/-- The debt is this. -/
theorem Inv.owes (hInv : Inv debt work s) (debt' : Bool → Nat → Int)
    (hEq : ∀ writes q, s.live q = true → debt writes q = debt' writes q) : Inv debt' work s :=
  { hInv with ends := fun q writes hq => by rw [← hEq writes q hq]; exact hInv.ends q writes hq }

/-- `release_pipe` where the pipe has one descriptor less than it counts. -/
theorem Inv.releasePipe (hInv : Inv (fun writes q => if writes = d.writes ∧ q = p then -1 else 0)
    (some p) s) (hPipe : d.pipe = some p) (hLive : s.live p = true)
    (hDoomed : (s.pipes p).doomed = false) : Settled (s.releasePipe d) := by
  unfold Files.releasePipe
  rw [hPipe]
  dsimp only
  rw [touch_of_live hLive]
  generalize hMinus : (s.pipes p).add d.writes (-1) = o
  have hLess : Inv (fun _ _ => 0) (some p) (s.setPipe p o) := by
    refine (hInv.setEnds (fun q hq => (some.inj hq).symm) ?_).owes _ fun writes q _ => ?_
    · rw [← hMinus, busy_add]
    · rw [← hMinus, count_add]
      by_cases hq : q = p
      · simp [hq]
      · simp [hq]
  have hAt : (s.setPipe p o).pipes p = o := update_self _ _ _
  have hCount : ∀ writes, o.count writes = ((s.setPipe p o).held writes p : Int) := by
    intro writes
    have hEnds := hLess.ends p writes hLive
    rwa [hAt, Int.add_zero] at hEnds
  have hBusy : o.busy = ((s.setPipe p o).inside p : Int) := by
    have hInside := hLess.busy p hLive
    rwa [hAt] at hInside
  have hDoomed' : o.doomed = false := by
    rw [← hMinus, doomed_add]
    exact hDoomed
  have hLive' : (s.setPipe p o).live p = true := hLive
  generalize s.setPipe p o = r at *
  by_cases hBoth : o.readers = 0 ∧ o.writers = 0
  · -- nobody is left at either end
    rw [if_pos hBoth]
    have hHeld : ∀ writes, r.held writes p = 0 := by
      intro writes
      have hZero := (count_eq_zero o).mp hBoth writes
      rw [hCount] at hZero
      exact Int.ofNat_eq_zero.mp hZero
    have hNamed : ∀ i, (Files.dropName r.named p i).used = true →
        (Files.dropName r.named p i).pipe ≠ some p := by
      intro i hUsed hMine
      unfold Files.dropName at hUsed hMine
      split at hUsed
      · cases hUsed
      next hNot =>
        rw [if_neg hNot] at hMine
        exact hNot ⟨hUsed, hMine⟩
    have hDrop := hLess.dropName hHeld
    by_cases hNone : o.busy = 0
    · rw [if_pos hNone]
      have hInside : r.inside p = 0 := by omega
      exact hDrop.kfree hLive' hHeld hInside hNamed
    · -- a call is inside, and the last one out will free the pipe
      rw [if_neg hNone]
      generalize hNames : ({ r with named := Files.dropName r.named p } : Files) = r' at *
      have hPipe' : r'.pipes p = o := by
        rw [← hNames]
        exact hAt
      have hDoom : Inv (fun _ _ => 0) (some p) (r'.setPipe p { o with doomed := true }) := by
        refine (hDrop.setEnds (fun q hq => (some.inj hq).symm) ?_).owes _ fun v q _ => ?_
        · rw [hPipe']
        · rw [hPipe']
          simp [PipeEnds.count]
      subst hNames
      refine hDoom.done (fun _ => ?_) (fun _ => .inr ?_) fun i hUsed hMine => ?_
      · change (update r.pipes p { o with doomed := true } p).doomed = true ↔ _
        rw [update_self]
        exact ⟨fun _ => hHeld, fun _ => rfl⟩
      · change 0 < r.inside p
        omega
      · exact absurd hMine (hNamed i hUsed)
  · -- some end is still there
    rw [if_neg hBoth]
    obtain ⟨writes, hPos⟩ : ∃ writes, 0 < r.held writes p := by
      by_contra hNot
      apply hBoth
      rw [count_eq_zero]
      intro writes
      rw [hCount, Nat.eq_zero_of_not_pos fun hPos => hNot ⟨writes, hPos⟩]
      rfl
    exact hLess.done_held hPos (hAt ▸ hDoomed')

/-- An end is released and its descriptor is written over. -/
theorem Inv.release (hInv : Settled s) (hKind : (s.fds x).kind = .pipe) (hd : d.kind ≠ .pipe)
    (hFree : ∀ t fd i q writes, s.call t = .waiting fd i q writes → (s.leader t, fd) ≠ x) :
    Settled ((s.releasePipe (s.fds x)).setFd x d) := by
  obtain ⟨p, hHolds, hLive⟩ := hInv.holds hKind
  obtain ⟨hx, -, hGroup⟩ := hInv.fdLive x hKind
  have hNot : ∀ writes q, ¬ Holds d writes q := fun _ _ hNew => hd hNew.1
  rw [← releasePipe_setFd]
  refine .releasePipe ((hInv.setFd (fun q hq => nomatch hq) hx hGroup
    (fun writes q hq => (hHolds.iff.mp hq).2) (fun hPipe => absurd hPipe hd) hFree).owes _
    fun writes q _ => ?_) hHolds.2.2 hLive (hInv.not_doomed hLive (held_pos hx hHolds))
  rw [if_neg (hNot writes q)]
  simp only [hHolds.iff]
  split <;> rfl

/-- A descriptor that is no pipe becomes another one that is none. -/
theorem Inv.setPlain (hInv : Settled s) (hKind : (s.fds x).kind ≠ .pipe) (hd : d.kind ≠ .pipe)
    (hx : x ∈ places) (hGroup : ∃ t, s.alive t = true ∧ s.leader t = x.1) :
    Settled (s.setFd x d) := by
  have hOld : ∀ writes q, ¬ Holds (s.fds x) writes q := fun _ _ hHolds => hKind hHolds.1
  have hNew : ∀ writes q, ¬ Holds d writes q := fun _ _ hHolds => hd hHolds.1
  have hSet := hInv.setFd (p := s.made) (d := d) (fun q hq => nomatch hq) hx hGroup
    (fun writes q hq => absurd hq (hOld writes q)) (fun hPipe => absurd hPipe hd)
    (fun t fd i q writes hCall hEq => by
      have hHolds := (hInv.waiting t fd i q writes hCall).1
      rw [hEq] at hHolds
      exact hOld writes q hHolds)
  have hDebt := hSet.owes (fun _ _ => 0) fun writes q _ => by
    rw [if_neg (hNew writes q), if_neg (hOld writes q)]
    rfl
  exact hDebt.idle (hInv.fresh _ (Nat.le_refl _))

end Files
end LeahOS.Fs
