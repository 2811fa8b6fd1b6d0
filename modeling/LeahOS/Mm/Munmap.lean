import LeahOS.Mm.Refs

/-!
# What `munmap` leaves behind

`sys_munmap` goes over the pages of its range and takes away those that are present. A page
that is only reserved has no frame yet; `translate` gives 0 for it, and the loop passes it over.
Its entry stays, and the next touch of the page makes a page of zeros of it.

The number of pages is taken from the length alone. Where the address is not the start of a
page the last page of the range is left, and a length that wraps when it is rounded up is
accepted and stands for no page at all.

`unmapped_iff` says that there is nothing else to it. What it needs from the history of the machine
is that no leaf maps the frame 0, which `translate` could not tell from nothing
(`Books.Grounded`).
-/

namespace LeahOS.Mm
open Lib List Option Multiset

/-- The page has a byte in the range. -/
def InRange (addr length page : Nat) : Prop :=
  addr < (page + 1) * kPageSize ∧ page * kPageSize < addr + length

/-- `sys_munmap` answers 0. -/
def Accepts (addr length : Nat) : Prop :=
  length ≠ 0 ∧ userRangeOk (addr / kPageSize * kPageSize) (pagesIn length * kPageSize) = true

/-- The process has nothing left in the range, so that touching it is a fault no handler takes
on, and nothing else has changed. -/
structure Unmapped (k k' : State) (pid addr length : Nat) : Prop where
  gone : ∀ pr ∈ k'.procs.get pid, ∀ page, InRange addr length page → pr.space.pages.get page = none
  faults : ∀ pr ∈ k'.procs.get pid, ∀ page, InRange addr length page → ∀ p,
    Space.handleLazyFault p pr.space page = (p, pr.space, false) ∧
      Space.handleCowFault p pr.space page = (p, pr.space, false)
  kept : ∀ pr ∈ k.procs.get pid, ∃ pr' ∈ k'.procs.get pid, ∀ page, ¬ InRange addr length page →
    pr'.space.pages.get page = pr.space.pages.get page
  others : ∀ q, q ≠ pid → k'.procs.get q = k.procs.get q

/-- Every page of the range that has an entry is present, and is one of as many pages as the length
has when it is rounded up, from the page of the address on. -/
def Touched (k : State) (pid addr length : Nat) : Prop :=
  ∀ pr ∈ k.procs.get pid, ∀ page, InRange addr length page → ∀ entry ∈ pr.space.pages.get page,
    entry.present = true ∧ page < addr / kPageSize + pagesIn length

/-! ### The frame 0 is never mapped -/

/-- Nothing refers to the frame 0, and it is no page table. -/
def Books.Grounded (b : Books) : Prop := 0 ∉ b.refs ∧ 0 ∉ b.own

theorem grounded_move {ok : Fault → Prop} (hOk : ∀ g, ¬ ok (.device g)) {b b' : Books}
    (hGrounded : b.Grounded) (hMove : Move ok b b') : b'.Grounded := by
  obtain ⟨hRefs, hOwn⟩ := hGrounded
  cases hMove with
  | full | fullRun | fill | wild => exact ⟨hRefs, hOwn⟩
  | alloc hAlloc hFrame => exact ⟨hRefs, by simpa [hFrame.symm] using hOwn⟩
  | @contiguous p p' R T n start hAlloc hStart =>
    refine ⟨hRefs, ?_⟩
    intro hMem
    rcases mem_add.mp hMem with hMem | hMem
    · rw [mem_coe, mem_range'_1] at hMem
      omega
    · exact hOwn hMem
  | free hSplit =>
    subst hSplit
    exact ⟨hRefs, fun h => hOwn (mem_add.mpr (.inr h))⟩
  | publish hSplit =>
    subst hSplit
    simp only [mem_add, not_or] at hOwn
    exact ⟨by simpa [mem_add] using ⟨by simpa using hOwn.1, hRefs⟩, hOwn.2⟩
  | share _ hFrame | again hFrame _ =>
    refine ⟨fun h => ?_, hOwn⟩
    rcases mem_add.mp h with h | h
    · exact hRefs (Multiset.mem_singleton.mp h ▸ hFrame)
    · exact hRefs h
  | release hSplit | lost hSplit _ =>
    subst hSplit
    exact ⟨fun h => hRefs (mem_add.mpr (.inr h)), hOwn⟩
  | device hOk' => exact absurd hOk' (hOk _)

theorem grounded_step {k k' : State} {e : Event} (hGrounded : k.books.Grounded) (hOwned : Owned e)
    (hStep : State.Step k e k') : k'.books.Grounded := by
  -- every fault but a device mapping is harmless here
  have hAllowed : State.Allowed (fun fault => ∀ g, fault ≠ .device g) k e := by
    cases e with
    | fork pid child => exact fun pr _ e _ _ => .inl (by simp)
    | shmMap | mapFile => exact .inl (by simp)
    | fbMap | mapPhysical | dmaAlloc => exact hOwned.elim
    | _ => trivial
  exact (State.moves_next hStep hAllowed).invariant
    (fun b b' => grounded_move fun g hOk => hOk g rfl) hGrounded

theorem grounded_of_run {k₀ k : State} {es : List Event} (hFresh : Fresh k₀)
    (hRun : Run (Restrict (fun _ e => Owned e) State.Step) k₀ es k) : k.books.Grounded := by
  refine hRun.invariant_of (I := fun k => k.books.Grounded) (fun _ _ _ => grounded_step) ?_
  rw [State.books, State.held, hFresh.procs, hFresh.segments, hFresh.images]
  exact ⟨notMem_zero 0, notMem_zero 0⟩

theorem frame_ne_zero {k : State} {pid page : Nat} {pr : Process} {entry : Entry}
    (hGrounded : k.books.Grounded) (hProc : k.procs.get pid = some pr)
    (hGet : pr.space.pages.get page = some entry) (hPresent : entry.present = true) :
    entry.frame ≠ 0 := by
  intro hZero
  apply hGrounded.1
  rw [State.books_eq hProc, ← hZero]
  exact mem_add.mpr (.inl (Multiset.mem_map_of_mem _
    (Space.mem_leaves hGet hPresent)))

/-! ### The loop -/

/-- What is present at the pages that are visited goes, and nothing else. -/
theorem munmapAll_get (p : Pmm) (s : Space) (virts : List Nat) (page : Nat)
    (hFrame : ∀ page, ∀ entry ∈ s.pages.get page, entry.present = true → entry.frame ≠ 0) :
    (munmapAll p s virts).2.pages.get page =
      if page ∈ virts.map (· / kPageSize) then (s.pages.get page).filter (!·.present)
      else s.pages.get page := by
  induction virts generalizing p s with
  | nil => rfl
  | cons v rest ih =>
    simp only [munmapAll, List.map_cons, List.mem_cons]
    split
    next hZero =>
      -- nothing is present there, so the page is as if it had been swept
      have hAbsent : (s.pages.get (v / kPageSize)).filter (!·.present) =
          s.pages.get (v / kPageSize) := by
        cases hGet : s.pages.get (v / kPageSize) with
        | none => rfl
        | some entry =>
          cases hPresent : entry.present with
          | false => simp [Option.filter, hPresent]
          | true =>
            rw [Space.translate, hGet] at hZero
            simp only [hPresent, if_true] at hZero
            have hPos : 0 < entry.frame * kPageSize :=
              Nat.mul_pos (Nat.pos_of_ne_zero (hFrame _ _ hGet hPresent)) (by decide)
            omega
      rw [ih _ _ hFrame]
      by_cases hPage : page = v / kPageSize
      · rw [hPage, hAbsent]
        simp
      · simp [hPage]
    next hNe =>
      have hHere : (s.pages.get (v / kPageSize)).filter (!·.present) = none := by
        cases hGet : s.pages.get (v / kPageSize) with
        | none => rfl
        | some entry =>
          cases hPresent : entry.present with
          | true => simp [Option.filter, hPresent]
          | false =>
            rw [Space.translate, hGet] at hNe
            simp [hPresent] at hNe
      rw [ih]
      · rw [Space.unmap, Assoc.get_erase]
        by_cases hPage : page = v / kPageSize
        · simp [hPage, hHere]
        · simp [hPage]
      · intro q entry hGet
        rw [Space.unmap, Assoc.get_erase] at hGet
        split at hGet
        · cases hGet
        · exact hFrame q entry hGet

/-- The addresses the loop visits. -/
def swept (addr length : Nat) : List Nat :=
  virtsFrom (addr / kPageSize * kPageSize) (pagesIn length)

/-- Their pages. -/
theorem mem_visited_iff {addr length page : Nat} :
    page ∈ (swept addr length).map (· / kPageSize) ↔
      addr / kPageSize ≤ page ∧ page < addr / kPageSize + pagesIn length := by
  simp only [swept, virtsFrom, List.map_map, List.mem_map, List.mem_range, Function.comp_apply,
    kPageSize]
  constructor
  · rintro ⟨i, hi, rfl⟩
    omega
  · intro hRange
    exact ⟨page - addr / 4096, by omega, by omega⟩

/-- They are pages of the range. -/
theorem inRange_of_visited {addr length page : Nat} (hLow : addr / kPageSize ≤ page)
    (hHigh : page < addr / kPageSize + pagesIn length) : InRange addr length page := by
  simp only [pagesIn, InRange, kPageSize] at *
  omega

/-- **`munmap` takes away the whole range and nothing else exactly where every page of it that has
an entry is present and visited**, in every address space that mappings, faults, forks and earlier
calls can lead to. -/
theorem unmapped_iff {k₀ k k' : State} {es : List Event} {pid addr length : Nat}
    (hFresh : Fresh k₀) (hRun : Run (Restrict (fun _ e => Owned e) State.Step) k₀ es k)
    (hAccepts : Accepts addr length) (hStep : State.Step k (.munmap pid addr length) k') :
    Unmapped k k' pid addr length ↔ Touched k pid addr length := by
  obtain ⟨pr, hProc, rfl⟩ := map_eq_some_iff.mp hStep
  obtain ⟨hLength, hUser⟩ := hAccepts
  have hGet : ∀ page, (munmapAll k.pmm pr.space (swept addr length)).2.pages.get page =
      if page ∈ (swept addr length).map (· / kPageSize) then
        (pr.space.pages.get page).filter (!·.present)
      else pr.space.pages.get page := fun page => munmapAll_get _ _ _ page fun _ _ hEntry =>
    frame_ne_zero (grounded_of_run hFresh hRun) hProc hEntry
  have hAfter : (k.munmap pid pr addr length).procs = k.procs.set pid
      ⟨(munmapAll k.pmm pr.space (swept addr length)).2, pr.mmapNext⟩ := by
    simp only [State.munmap, if_neg hLength, if_pos hUser, State.setProc, swept]
  have hSelf := Assoc.get_set_self k.procs pid
    (Process.mk (munmapAll k.pmm pr.space (swept addr length)).2 pr.mmapNext)
  rw [← hAfter] at hSelf
  constructor
  · intro hUnmapped pr' hpr' page hPage entry hEntry
    obtain rfl : pr = pr' := some.inj (hProc.symm.trans hpr')
    -- the entry is gone, and `hGet` says which ones go
    have hGone := hUnmapped.gone _ hSelf page hPage
    simp only [hGet, mem_visited_iff, Option.mem_def.mp hEntry] at hGone
    split at hGone
    next hVisited => exact ⟨by simpa [Option.filter] using hGone, hVisited.2⟩
    next => cases hGone
  · intro hTouched
    have hGone : ∀ pr' ∈ (k.munmap pid pr addr length).procs.get pid, ∀ page,
        InRange addr length page → pr'.space.pages.get page = none := by
      intro pr' hpr' page hPage
      obtain rfl := some.inj (hSelf.symm.trans hpr')
      change (munmapAll k.pmm pr.space (swept addr length)).2.pages.get page = none
      cases hEntry : pr.space.pages.get page with
      | none => simp [hGet, hEntry]
      | some entry =>
        obtain ⟨hPresent, hVisited⟩ := hTouched pr hProc page hPage entry hEntry
        have hLow : addr / kPageSize ≤ page := by
          simp only [InRange, kPageSize] at hPage ⊢
          omega
        rw [hGet, if_pos (mem_visited_iff.mpr ⟨hLow, hVisited⟩), hEntry]
        simp [Option.filter, hPresent]
    refine ⟨hGone, fun pr' hpr' page hPage p => ?_, fun pr' hpr' => ?_, fun q hq => ?_⟩
    · have hNone := hGone pr' hpr' page hPage
      constructor
      · rw [Space.handleLazyFault, hNone]
      · rw [Space.handleCowFault, hNone]
    · obtain rfl : pr = pr' := some.inj (hProc.symm.trans hpr')
      refine ⟨_, hSelf, fun page hPage => ?_⟩
      rw [hGet, if_neg fun h => hPage (inRange_of_visited (mem_visited_iff.mp h).1
        (mem_visited_iff.mp h).2)]
    · rw [hAfter, Assoc.get_set_of_ne _ _ hq]

/-! ### A page that was touched, and one that was not -/

/-- A page is reserved. -/
def reservedEvents : List Event := [.create 1, .mmap 1 0 4096 true false false]

/-- It is touched before it is unmapped. -/
def touchedEvents : List Event :=
  reservedEvents ++ [.lazyFault 1 (kUserMmapBase / kPageSize)]

theorem unmapped_touchedEvents : ∃ k k', Run (Restrict (fun _ e => Owned e) State.Step)
    (smallMachine 24) touchedEvents k ∧ Unmapped k k' 1 kUserMmapBase 4096 := by
  obtain ⟨k, hRun, hEntry⟩ :
      ∃ k, Run (Restrict (fun _ e => Owned e) State.Step) (smallMachine 24) touchedEvents k ∧
        ((k.procs.get 1).bind fun pr =>
          pr.space.pages.get (kUserMmapBase / kPageSize)).map (·.present) = some true :=
    Run.exists_of_guarded (fun _ _ _ h => h) (by decide +kernel)
  obtain ⟨entry, hEntry, hPresent⟩ := map_eq_some_iff.mp hEntry
  obtain ⟨pr, hProc, hGet⟩ := bind_eq_some_iff.mp hEntry
  have hTouched : Touched k 1 kUserMmapBase 4096 := by
    intro pr' hpr' page hPage entry' hEntry'
    obtain rfl : pr = pr' := some.inj (hProc.symm.trans hpr')
    obtain rfl : page = kUserMmapBase / kPageSize := by
      simp only [InRange, kUserMmapBase, kPageSize] at hPage ⊢
      omega
    obtain rfl : entry = entry' := some.inj (hGet.symm.trans hEntry')
    exact ⟨hPresent, by decide⟩
  exact ⟨k, _, hRun, (unmapped_iff (fresh_smallMachine 24) hRun ⟨by decide, by decide⟩
    (by rw [State.Step, State.next, hProc]; rfl)).mpr hTouched⟩

/-- It is unmapped without having been touched, and is still reserved. -/
theorem not_unmapped_reservedEvents : ¬ ∀ k₀ k k' es pid addr length, Fresh k₀ →
    Run (Restrict (fun _ e => Owned e) State.Step) k₀ es k → Accepts addr length →
      State.Step k (.munmap pid addr length) k' → Unmapped k k' pid addr length := by
  intro hAll
  have hEnd : ((reservedEvents.foldlM (guarded (fun _ e => Owned e) State.next)
      (smallMachine 24)).bind fun k => (k.next (.munmap 1 kUserMmapBase 4096)).map fun k' =>
        ((k'.procs.get 1).bind fun pr => pr.space.pages.get (kUserMmapBase / kPageSize)).map
          (·.lazy)) = some (some true) := by
    decide +kernel
  obtain ⟨k, hEs, hNext⟩ := bind_eq_some_iff.mp hEnd
  obtain ⟨k', hStep, hLazy⟩ := map_eq_some_iff.mp hNext
  have hRun := Run.of_guarded (T := State.Step) (fun _ _ _ h => h) _ hEs
  have hUnmapped := hAll (smallMachine 24) k k' _ 1 kUserMmapBase 4096 (fresh_smallMachine 24) hRun
    ⟨by decide, by decide⟩ hStep
  obtain ⟨entry, hEntry, -⟩ := map_eq_some_iff.mp hLazy
  obtain ⟨pr, hProc, hGet⟩ := bind_eq_some_iff.mp hEntry
  have hGone := hUnmapped.gone pr hProc (kUserMmapBase / kPageSize)
    ⟨by decide, by decide⟩
  rw [hGone] at hGet
  cases hGet

end LeahOS.Mm
