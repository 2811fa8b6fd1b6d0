import LeahOS.Mm.Refs

/-!
# The program break (`kernel/arch/x86_64/syscall.cpp`)

`sys_sbrk` moves the break of a process by a signed amount, and maps the pages between the old
break and a higher new one. Neither end is checked: the break of a process can be taken below
`kUserBrkBase`, where it started, and the next call that raises it maps pages there.

`confined_of_asks` is for calls that ask for a break in the heap's range.
-/

namespace LeahOS.Mm
open Lib Space

/-- The start of every heap. -/
def kUserBrkBase : Nat := 0x10000000

/-- What `sys_sbrk` works on. -/
structure UserHeap where
  pmm : Pmm
  space : Space
  brk : UInt64

/-- `Write | User | NoExecute`. -/
def heapFlags : Flags := { write := true, user := true, noExecute := true }

/-- The loop of `sys_sbrk`: whether every page up to the new break is there in the end. It is
`none` where the loop has no end. -/
def sbrkPages (newBrk : UInt64) : Nat → UInt64 → Pmm → Space → Option (Pmm × Space × Bool)
  | 0, _, _, _ => none
  | fuel + 1, page, p, s =>
    if newBrk ≤ page then some (p, s, true)
    else if s.translate page.toNat ≠ 0 then sbrkPages newBrk fuel (page + 4096) p s
    else
      let a := p.alloc
      if a.1 = 0 then some (a.2, s, false)
      else
        let r := mapInto a.2 s (page.toNat / kPageSize) a.1 heapFlags
        if r.2.2 then sbrkPages newBrk fuel (page + 4096) (r.1.fillFrame a.1 zeros) r.2.1
        else some (r.1.free a.1, r.2.1, false)

namespace UserHeap

/-- `sys_sbrk`, with the answer `none` for -1. A loop that has gone over as many pages as there
are has no end. -/
def sbrk (h : UserHeap) (increment : Int64) : Option (UserHeap × Option UInt64) :=
  if increment = 0 then some (h, some h.brk)
  else if increment < 0 then
    some ({ h with brk := h.brk - (-increment).toUInt64 }, some h.brk)
  else
    let newBrk := h.brk + increment.toUInt64
    (sbrkPages newBrk (2 ^ 52) (h.brk / 4096 * 4096) h.pmm h.space).map fun r =>
      if r.2.2 then (⟨r.1, r.2.1, newBrk⟩, some h.brk) else (⟨r.1, r.2.1, h.brk⟩, none)

def next (h : UserHeap) (increment : Int64) : Option UserHeap := (h.sbrk increment).map (·.1)

def Step (h : UserHeap) (increment : Int64) (h' : UserHeap) : Prop := h.next increment = some h'

/-- An address of the heap's range. -/
def InHeap (address : Nat) : Prop := kUserBrkBase ≤ address ∧ address < 2 ^ 47

/-- The break asked for is in the range. -/
def Asks (h : UserHeap) (increment : Int64) : Prop := InHeap (h.brk + increment.toUInt64).toNat

instance (h : UserHeap) (increment : Int64) : Decidable (Asks h increment) :=
  inferInstanceAs (Decidable (_ ∧ _))

/-- The pages that have changed. -/
def Changes (s s' : Space) : Prop :=
  ∀ page, s'.pages.get page ≠ s.pages.get page → InHeap (page * kPageSize)

/-- Only pages of the range have been mapped, and the break is in it. -/
structure Confined (h h' : UserHeap) : Prop where
  pages : Changes h.space h'.space
  brk : InHeap h'.brk.toNat

variable {h h' : UserHeap} {s s' t : Space}

theorem Changes.trans (hFirst : Changes s t) (hThen : Changes t s') : Changes s s' := by
  intro page hNe
  by_cases hSame : t.pages.get page = s.pages.get page
  · exact hThen page fun hEq => hNe (hEq.trans hSame)
  · exact hFirst page hSame

/-- Raised within the range, the break is reached or memory runs out, and only pages of the range
are mapped. -/
theorem sbrkPages_changes {newBrk page : UInt64} (fuel : Nat) (p : Pmm)
    (hNew : newBrk.toNat < 2 ^ 47) (hAligned : page.toNat % 4096 = 0)
    (hPage : kUserBrkBase ≤ page.toNat) (hFuel : newBrk.toNat ≤ page.toNat + fuel * 4096) :
    ∃ p' s' ok, sbrkPages newBrk (fuel + 1) page p s = some (p', s', ok) ∧ Changes s s' := by
  induction fuel generalizing page p s with
  | zero =>
    have hLe : newBrk ≤ page := UInt64.le_iff_toNat_le.mpr (by omega)
    exact ⟨p, s, true, if_pos hLe, fun _ hNe => absurd rfl hNe⟩
  | succ fuel ih =>
    rw [sbrkPages]
    split
    · exact ⟨p, s, true, rfl, fun _ hNe => absurd rfl hNe⟩
    next hLt =>
      have hLt : page.toNat < newBrk.toNat := by
        rw [UInt64.le_iff_toNat_le] at hLt
        omega
      have hSum : (page + 4096).toNat = page.toNat + 4096 := by
        exact Nat.mod_eq_of_lt (by simp; omega)
      have hRest (q : Pmm) (t : Space) := @ih t (page + 4096) q (by omega) (by omega) (by omega)
      split
      · exact hRest p s
      dsimp only
      split
      · exact ⟨_, s, false, rfl, fun _ hNe => absurd rfl hNe⟩
      next hFrame =>
        generalize hMap : mapInto _ s _ _ heapFlags = r
        obtain ⟨q, t, mapped⟩ := r
        have hPages := mapInto_pages hMap
        have hChanges : Changes s t := by
          intro v hNe
          rw [hPages] at hNe
          obtain rfl : v = page.toNat / kPageSize := by
            by_contra hOther
            cases mapped with
            | false => exact hNe rfl
            | true => exact hNe (Assoc.get_set_of_ne _ _ hOther)
          simp only [InHeap, kPageSize]
          omega
        cases mapped with
        | false => exact ⟨_, t, false, rfl, hChanges⟩
        | true =>
          obtain ⟨p', s', ok, hEnd, hThen⟩ := hRest (q.fillFrame p.alloc.1 zeros) t
          exact ⟨p', s', ok, hEnd, hChanges.trans hThen⟩

/-- One call that asks for a break in the range. -/
theorem sbrk_confined {increment : Int64} (hBrk : InHeap h.brk.toNat) (hAsks : Asks h increment) :
    ∃ h' answer, h.sbrk increment = some (h', answer) ∧ Confined h h' ∧
      (answer = none → h'.brk = h.brk) := by
  unfold sbrk
  split
  · exact ⟨h, _, rfl, ⟨fun _ hNe => absurd rfl hNe, hBrk⟩, fun hNone => by cases hNone⟩
  split
  · refine ⟨_, _, rfl, ⟨fun _ hNe => absurd rfl hNe, ?_⟩, fun hNone => by cases hNone⟩
    rwa [Int64.toUInt64_neg, UInt64.sub_neg]
  · have hDown : (h.brk / 4096 * 4096).toNat = h.brk.toNat / 4096 * 4096 := by
      have := h.brk.toNat_lt
      exact Nat.mod_eq_of_lt (by simp; omega)
    have hLow : kUserBrkBase ≤ (h.brk / 4096 * 4096).toNat := by
      have := hBrk.1
      simp only [hDown, kUserBrkBase] at *
      omega
    have hHigh := hAsks.2
    obtain ⟨p', s', ok, hPages, hChanges⟩ := sbrkPages_changes (s := h.space) (2 ^ 52 - 1) h.pmm
      hHigh (by omega) hLow (by omega)
    dsimp only
    rw [show 2 ^ 52 = 2 ^ 52 - 1 + 1 from rfl, hPages]
    cases ok with
    | false => exact ⟨_, _, rfl, ⟨hChanges, hBrk⟩, fun _ => rfl⟩
    | true => exact ⟨_, _, rfl, ⟨hChanges, hAsks⟩, fun hNone => by cases hNone⟩

/-- Where every call asks for a break in the range, the heap stays in it. -/
theorem confined_of_asks {increments : List Int64} (hBrk : h.brk.toNat = kUserBrkBase)
    (hRun : Run (Restrict Asks Step) h increments h') :
    Confined h h' ∧ ∀ increment, Asks h' increment → ∃ h'' answer,
      h'.sbrk increment = some (h'', answer) ∧ Confined h' h'' ∧
        (answer = none → h''.brk = h'.brk) := by
  have hConfined : Confined h h' := by
    refine hRun.invariant_of (I := Confined h) (fun t increment u hBefore hAsks hStep => ?_)
      ⟨fun _ hNe => absurd rfl hNe, hBrk.ge, by rw [hBrk]; decide⟩
    obtain ⟨u', answer, hCall, hAfter, -⟩ := sbrk_confined hBefore.brk hAsks
    obtain rfl : u' = u := by simpa [Step, next, hCall] using hStep
    exact ⟨hBefore.pages.trans hAfter.pages, hAfter.brk⟩
  exact ⟨hConfined, fun _ => sbrk_confined hConfined.brk⟩

/-- A heap nothing has been asked of yet. -/
def freshHeap : UserHeap where
  pmm := (smallMachine 24).pmm
  space := ⟨1, .empty, .empty⟩
  brk := 0x10000000

theorem confined_freshHeap : ∃ h, Run (Restrict Asks Step) freshHeap [4096, -4000] h ∧
    Confined freshHeap h := by
  obtain ⟨h, hRun, -⟩ : ∃ h, Run (Restrict Asks Step) freshHeap [4096, -4000] h ∧ true = true :=
    Run.exists_of_guarded (fun _ _ _ hNext => hNext) (by decide +kernel)
  exact ⟨h, hRun, (confined_of_asks rfl hRun).1⟩

/-- The break is taken down to 0 and raised again: the page 0 is mapped. -/
theorem not_confined_freshHeap : ¬ ∀ h h' increments, h.brk.toNat = kUserBrkBase →
    Run Step h increments h' → Confined h h' := by
  intro hAll
  obtain ⟨h, hRun, hPage⟩ : ∃ h, Run Step freshHeap [-0x10000000, 4096] h ∧
      (h.space.pages.get 0).isSome = true :=
    Run.exists_of_foldlM (fun _ _ _ hNext => hNext) (by decide +kernel)
  have hRange := (hAll _ h _ rfl hRun).pages 0 fun hSame => by
    rw [hSame] at hPage
    exact absurd hPage (by decide)
  exact absurd hRange.1 (by decide)

end UserHeap
end LeahOS.Mm
