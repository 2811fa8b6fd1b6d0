import LeahOS.Mm.System

/-!
# Fork as a deep copy

What `fork` is for: a child that starts with its parent's memory and shares nothing with it
but the pages that are shared for good. `Eager` says it directly. There a process is a map
from pages to cells, a private cell holds its bytes, and forking copies the map.

The kernel gets the same effect with frames that are mapped several times and copied at the
first store. It does so over every interleaving of loads, stores and forks, with one
exception: where no reference to a frame can be taken `fork` copies the page at once, and
gives the child the flags of the parent's entry without the copy-on-write mark. A page the
parent may write only because it is marked is then read-only in the child.

`deepCopy_of_markable` is the refinement for runs without such a fork.
-/

namespace LeahOS.Mm
open Lib Function List Option Space Multiset Pmm

/-- What a process can do with a page, and what it sees there. -/
inductive Cell
  | absent
  | reserved (write : Bool)
  | priv (data : Page) (write : Bool)
  | shared (object : Nat) (write : Bool)

/-- Processes that own their private pages. -/
structure Eager where
  procs : Nat → Option (Nat → Cell)
  objects : Nat → Page

/-- A load with what it saw, a store with whether it went through, or a fork. -/
inductive Access
  | load (pid page offset : Nat) (seen : Option UInt8)
  | store (pid page offset : Nat) (value : UInt8) (done : Bool)
  | fork (pid child : Nat)

namespace Eager

/-- The machine with one cell changed. -/
def setCell (a : Eager) (pid : Nat) (cells : Nat → Cell) (page : Nat) (cell : Cell) : Eager :=
  { a with procs := update a.procs pid (some (update cells page cell)) }

/-- A load; a reserved page becomes a page of zeros. -/
def load (a : Eager) (pid page offset : Nat) : Option (Eager × Option UInt8) :=
  (a.procs pid).map fun cells =>
    match cells page with
    | .absent => (a, none)
    | .reserved write => (a.setCell pid cells page (.priv zeros write), some 0)
    | .priv data _ => (a, some (data offset))
    | .shared object _ => (a, some (a.objects object offset))

/-- A store, where the page may be written. -/
def store (a : Eager) (pid page offset : Nat) (value : UInt8) : Option (Eager × Bool) :=
  (a.procs pid).map fun cells =>
    match cells page with
    | .absent => (a, false)
    | .reserved write =>
      if write then
        (a.setCell pid cells page (.priv (update zeros offset value) true), true)
      else (a.setCell pid cells page (.priv zeros false), false)
    | .priv data write =>
      if write then
        (a.setCell pid cells page (.priv (update data offset value) true), true)
      else (a, false)
    | .shared object write =>
      if write then
        let data := update (a.objects object) offset value
        ({ a with objects := update a.objects object data }, true)
      else (a, false)

/-- The child gets a copy of every cell. -/
def fork (a : Eager) (pid child : Nat) : Option Eager :=
  if (a.procs child).isSome then none
  else (a.procs pid).map fun cells => { a with procs := update a.procs child (some cells) }

/-- The steps of the machine that copies eagerly. -/
def Step (a : Eager) : Access → Eager → Prop
  | .load pid page offset seen, a' => a.load pid page offset = some (a', seen)
  | .store pid page offset value done, a' => a.store pid page offset value = some (a', done)
  | .fork pid child, a' => a.fork pid child = some a'

end Eager

namespace Space

/-- The first touch of a page: a reserved page goes through `handle_lazy_fault`. `none` when
there is no frame for it. -/
def touch (p : Pmm) (s : Space) (page : Nat) : Option (Pmm × Space) :=
  if (s.pages.get page).any fun e => !e.present && e.lazy then
    let r := handleLazyFault p s page
    if r.2.2 then some (r.1, r.2.1) else none
  else some (p, s)

/-- A load by the process. -/
def load (p : Pmm) (s : Space) (page offset : Nat) : Option (Pmm × Space × Option UInt8) :=
  (touch p s page).map fun r =>
    (r.1, r.2, ((r.2.pages.get page).filter (·.present)).map fun e => r.1.mem e.frame offset)

/-- A byte stored into a frame. -/
def poke (p : Pmm) (frame offset : Nat) (value : UInt8) : Pmm :=
  p.fillFrame frame (update (p.mem frame) offset value)

/-- A store by the process: where the entry is not writable it is retried after
`handle_cow_fault`. `none` when there is no frame for the copy. -/
def store (p : Pmm) (s : Space) (page offset : Nat) (value : UInt8) :
    Option (Pmm × Space × Bool) :=
  (touch p s page).bind fun r =>
    match (r.2.pages.get page).filter (·.present) with
    | none => some (r.1, r.2, false)
    | some e =>
      if e.write then some (poke r.1 e.frame offset value, r.2, true)
      else if e.copyOnWrite then
        let c := handleCowFault r.1 r.2 page
        if c.2.2 then
          ((c.2.1.pages.get page).filter (·.write)).map fun e' =>
            (poke c.1 e'.frame offset value, c.2.1, true)
        else none
      else some (r.1, r.2, false)

end Space

namespace State

/-- The machine with the space of one process changed. -/
def setSpace (k : State) (pid : Nat) (pr : Process) (p : Pmm) (s : Space) : State :=
  k.setProc pid p s pr.mmapNext

/-- The accesses of the processes, with the outcome they had, and forks that succeed. -/
def access (k : State) : Access → Option State
  | .load pid page offset seen =>
    (k.procs.get pid).bind fun pr => (pr.space.load k.pmm page offset).bind fun r =>
      if r.2.2 = seen then some (k.setSpace pid pr r.1 r.2.1) else none
  | .store pid page offset value done =>
    (k.procs.get pid).bind fun pr => (pr.space.store k.pmm page offset value).bind fun r =>
      if r.2.2 = done then some (k.setSpace pid pr r.1 r.2.1) else none
  | .fork pid child =>
    (k.procs.get pid).bind fun pr =>
      if (k.procs.get child).isSome then none
      else
        let r := Space.fork k.pmm pr.space
        r.2.2.map fun t => (k.setSpace pid pr r.1 r.2.1).setProc child r.1 t pr.mmapNext

@[inherit_doc access]
def Accesses (k : State) (e : Access) (k' : State) : Prop := k.access e = some k'

end State

/-- What an entry is to the process. -/
def cellOf (mem : Nat → Page) (e : Entry) : Cell :=
  if e.present then
    if e.shared then .shared e.frame e.write else .priv (mem e.frame) (e.write || e.copyOnWrite)
  else if e.lazy then .reserved e.write else .absent

/-- What the pages of a space are to the process. -/
def cells (p : Pmm) (s : Space) (page : Nat) : Cell :=
  (s.pages.get page).elim .absent (cellOf p.mem)

/-- The machine as its processes see it. -/
def view (k : State) : Eager where
  procs := fun pid => (k.procs.get pid).map fun pr => cells k.pmm pr.space
  objects := k.pmm.mem

/-- How often a frame is mapped by the leaves and held besides. -/
def uses (L : Multiset Entry) (H : Multiset Nat) (frame : Nat) : Nat :=
  (L.map (·.frame)).count frame + H.count frame

/-- What the leaves of all address spaces and the frames held besides have to do with the
allocator: what is mapped is in use; a frame is shared for good by all its leaves or by none;
a private frame has a reference for every use, and the one that may be written directly has
no other. -/
structure Coherent (p : Pmm) (L : Multiset Entry) (H : Multiset Nat) : Prop where
  inUse : ∀ e ∈ L, p.test e.frame = true
  held : ∀ frame ∈ H, p.test frame = true
  plain : ∀ e ∈ L, e.shared = true → e.copyOnWrite = false
  apart : ∀ e ∈ L, ∀ e' ∈ L, e.shared = true → e'.shared = false → e'.frame ≠ e.frame
  counted : ∀ e ∈ L, e.shared = false → uses L H e.frame ≤ 1 + p.refsOf e.frame
  alone : ∀ e ∈ L, e.shared = false → e.write = true → uses L H e.frame = 1

theorem uses_cons (e : Entry) (L : Multiset Entry) (H : Multiset Nat) (frame : Nat) :
    uses ({e} + L) H frame = uses L H frame + if frame = e.frame then 1 else 0 := by
  rw [uses, uses, Multiset.map_add, Multiset.map_singleton, count_add, Multiset.count_singleton]
  omega

variable {L : Multiset Entry} {e : Entry} {p : Pmm} {mem : Nat → Page}

theorem mem_cons_add {x : Entry} : x ∈ {e} + L ↔ x = e ∨ x ∈ L := by
  rw [mem_add, Multiset.mem_singleton]

theorem uses_pos (H : Multiset Nat) (hMem : e ∈ L) :
    0 < uses L H e.frame := by
  have hPos : 0 < (L.map (·.frame)).count e.frame :=
    count_pos.mpr (Multiset.mem_map_of_mem _ hMem)
  rw [uses]
  omega

/-- What a leaf has to be to join the leaves `L`. -/
structure Joins (p : Pmm) (L : Multiset Entry) (H : Multiset Nat) (e : Entry) : Prop where
  inUse : p.test e.frame = true
  plain : e.shared = true → e.copyOnWrite = false
  same : ∀ x ∈ L, x.frame = e.frame → x.shared = e.shared
  counted : e.shared = false → uses L H e.frame ≤ p.refsOf e.frame
  alone : e.shared = false → e.write = true → uses L H e.frame = 0
  others : e.shared = false → ∀ x ∈ L, x.frame = e.frame → x.write = false

/-- Another private leaf on the same frame is as good, if it may be written only where nobody
else uses the frame. -/
theorem Joins.like {H : Multiset Nat} {e' : Entry} (hJoins : Joins p L H e)
    (hFrame : e'.frame = e.frame) (hShared : e.shared = false) (hShared' : e'.shared = false)
    (hWrite : e'.write = true → uses L H e.frame = 0) : Joins p L H e' := by
  refine ⟨?_, fun hOther => ?_, fun x hx hEq => ?_, fun _ => ?_, fun _ hMay => ?_,
    fun _ x hx hEq => hJoins.others hShared x hx (hEq.trans hFrame)⟩
  · rw [hFrame]
    exact hJoins.inUse
  · rw [hShared'] at hOther
    cases hOther
  · rw [hJoins.same x hx (hEq.trans hFrame), hShared, hShared']
  · rw [hFrame]
    exact hJoins.counted hShared
  · rw [hFrame]
    exact hWrite hMay

namespace Coherent
variable {p q : Pmm} {L : Multiset Entry} {H : Multiset Nat} {e : Entry}

theorem tail (hCoherent : Coherent p ({e} + L) H) : Coherent p L H := by
  have hIn : ∀ {x}, x ∈ L → x ∈ {e} + L := fun hx => mem_cons_add.mpr (.inr hx)
  refine ⟨fun x hx => hCoherent.inUse x (hIn hx), hCoherent.held,
    fun x hx => hCoherent.plain x (hIn hx),
    fun x hx y hy => hCoherent.apart x (hIn hx) y (hIn hy), fun x hx hOther => ?_,
    fun x hx hOther hMay => ?_⟩
  · have hBound := hCoherent.counted x (hIn hx) hOther
    rw [uses_cons] at hBound
    omega
  · have hOne := hCoherent.alone x (hIn hx) hOther hMay
    have hPos := uses_pos H hx
    rw [uses_cons] at hOne
    omega

theorem head (hCoherent : Coherent p ({e} + L) H) : Joins p L H e := by
  have hHead : e ∈ {e} + L := mem_cons_add.mpr (.inl rfl)
  have hUses : uses ({e} + L) H e.frame = uses L H e.frame + 1 := by rw [uses_cons, if_pos rfl]
  refine ⟨hCoherent.inUse e hHead, hCoherent.plain e hHead, fun x hx hFrame => ?_, fun hOwn => ?_,
    fun hOwn hMay => ?_, fun hOwn x hx hFrame => Bool.eq_false_iff.mpr fun hMay => ?_⟩
  · have hIn : x ∈ {e} + L := mem_cons_add.mpr (.inr hx)
    cases hOther : x.shared <;> cases hOwn : e.shared
    · rfl
    · exact absurd hFrame (hCoherent.apart e hHead x hIn hOwn hOther)
    · exact absurd hFrame.symm (hCoherent.apart x hIn e hHead hOther hOwn)
    · rfl
  · have hBound := hCoherent.counted e hHead hOwn
    omega
  · have hOne := hCoherent.alone e hHead hOwn hMay
    omega
  · -- the other leaf would have to be alone on the frame
    have hIn : x ∈ {e} + L := mem_cons_add.mpr (.inr hx)
    have hOther : x.shared = false := Bool.eq_false_iff.mpr fun hOther =>
      hCoherent.apart x hIn e hHead hOther hOwn hFrame.symm
    have hOne := hCoherent.alone x hIn hOther hMay
    have hPos := uses_pos H hx
    rw [hFrame] at hOne hPos
    omega

theorem cons (hRest : Coherent p L H) (hJoins : Joins p L H e) : Coherent p ({e} + L) H := by
  have hOwn : ∀ x ∈ L, x.shared = false → x.frame = e.frame → e.shared = false :=
    fun x hx hOther hFrame => (hJoins.same x hx hFrame).symm.trans hOther
  refine ⟨fun x hx => ?_, hRest.held, fun x hx hShared => ?_,
    fun x hx y hy hShared hOther hFrame => ?_, fun x hx hOther => ?_, fun x hx hOther hMay => ?_⟩
  · rcases mem_cons_add.mp hx with rfl | hx
    · exact hJoins.inUse
    · exact hRest.inUse x hx
  · rcases mem_cons_add.mp hx with rfl | hx
    · exact hJoins.plain hShared
    · exact hRest.plain x hx hShared
  · rcases mem_cons_add.mp hx with rfl | hOld <;> rcases mem_cons_add.mp hy with rfl | hOld'
    · exact Bool.false_ne_true (hOther.symm.trans hShared)
    · exact Bool.false_ne_true ((hOwn y hOld' hOther hFrame).symm.trans hShared)
    · rw [← hJoins.same x hOld hFrame.symm, hShared] at hOther
      cases hOther
    · exact hRest.apart x hOld y hOld' hShared hOther hFrame
  · rw [uses_cons]
    rcases mem_cons_add.mp hx with rfl | hx
    · rw [if_pos rfl, Nat.add_comm]
      exact Nat.add_le_add_left (hJoins.counted hOther) 1
    · by_cases hFrame : x.frame = e.frame
      · rw [if_pos hFrame, hFrame, Nat.add_comm]
        exact Nat.add_le_add_left (hJoins.counted (hOwn x hx hOther hFrame)) 1
      · rw [if_neg hFrame]
        exact hRest.counted x hx hOther
  · rw [uses_cons]
    rcases mem_cons_add.mp hx with rfl | hx
    · rw [if_pos rfl, hJoins.alone hOther hMay]
    · have hNe : x.frame ≠ e.frame := by
        intro hFrame
        rw [hJoins.others (hOwn x hx hOther hFrame) x hx hFrame] at hMay
        cases hMay
      rw [if_neg hNe]
      exact hRest.alone x hx hOther hMay

/-- More frames in use, and more references. -/
theorem grow (hCoherent : Coherent p L H)
    (hTest : ∀ frame, p.test frame = true → q.test frame = true)
    (hRefs : ∀ frame, p.refsOf frame ≤ q.refsOf frame) : Coherent q L H :=
  ⟨fun e he => hTest _ (hCoherent.inUse e he), fun f hf => hTest _ (hCoherent.held f hf),
    hCoherent.plain, hCoherent.apart, fun e he hOwn =>
      (hCoherent.counted e he hOwn).trans (Nat.add_le_add_left (hRefs _) 1), hCoherent.alone⟩

/-- Taking frames that were free and writing to them changes nothing. -/
theorem extend (hCoherent : Coherent p L H) (hExtends : p.Extends q) : Coherent q L H :=
  hCoherent.grow (fun f hf => (hExtends.kept f hf).1) fun f => by rw [hExtends.refs.refsOf]

variable {frame : Nat} {taken : Bool}

/-- Nor does a reference that nobody uses yet. -/
theorem refer (hCoherent : Coherent p L H) (hShare : p.share frame = (q, taken)) :
    Coherent q L H := by
  cases taken with
  | false =>
    obtain ⟨rfl, -⟩ := share_false hShare
    exact hCoherent
  | true =>
    obtain ⟨hRefs, hTest, -, -⟩ := share_true hShare
    refine hCoherent.grow (fun f hf => by rwa [hTest]) fun f => ?_
    rw [hRefs]
    exact Nat.le_add_right _ _

/-- A frame that was free has no use, and becomes the page of one private leaf. -/
theorem fresh (hCoherent : Coherent p L H) (hAlloc : p.alloc = (frame, q)) (hFrame : frame ≠ 0)
    (page : Page) {flags : Flags} (hPrivate : flags.shared = false) :
    Coherent (q.fillFrame frame page) ({Entry.leaf frame flags} + L) H := by
  obtain ⟨hClear, hTest, -⟩ := alloc_spec hAlloc hFrame
  have hNe : ∀ e ∈ L, e.frame ≠ frame := by
    rintro e he rfl
    rw [hCoherent.inUse e he] at hClear
    cases hClear
  have hNone : uses L H frame = 0 := by
    rw [uses, count_eq_zero_of_notMem, count_eq_zero_of_notMem]
    · intro hMem
      rw [hCoherent.held frame hMem] at hClear
      cases hClear
    · intro hMem
      obtain ⟨e, he, hEq⟩ := Multiset.mem_map.mp hMem
      exact hNe e he hEq
  refine (hCoherent.extend (extends_alloc_fill hAlloc hFrame page)).cons ⟨?_, fun hShared => ?_,
    fun x hx hEq => absurd hEq (hNe x hx), fun _ => hNone.trans_le (Nat.zero_le _), fun _ _ => hNone,
    fun _ x hx hEq => absurd hEq (hNe x hx)⟩
  · change q.test frame = true
    rw [hTest, decide_eq_true rfl, Bool.or_true]
  · change flags.shared = true at hShared
    rw [hPrivate] at hShared
    cases hShared

theorem fill (hCoherent : Coherent p L H) (frame : Nat) (page : Page) :
    Coherent (p.fillFrame frame page) L H :=
  hCoherent.grow (fun _ hf => hf) fun _ => le_rfl

/-- A leaf on a counted frame is given up with a reference. -/
theorem letGo (hCoherent : Coherent p ({e} + L) H) (hRefs : 0 < p.refsOf e.frame) :
    Coherent (p.release e.frame) L H := by
  obtain ⟨hRefs', hTest, -, -⟩ := release_of_pos hRefs
  have hRest := hCoherent.tail
  refine ⟨hTest ▸ hRest.inUse, hTest ▸ hRest.held, hRest.plain, hRest.apart,
    fun x hx hOther => ?_, hRest.alone⟩
  have hBound := hCoherent.counted x (mem_cons_add.mpr (.inr hx)) hOther
  rw [uses_cons] at hBound
  rw [hRefs']
  by_cases hEq : x.frame = e.frame
  · rw [if_pos hEq] at hBound ⊢
    omega
  · rw [if_neg hEq] at hBound ⊢
    omega

/-- A second leaf on a private frame comes with a reference, and neither may be written. -/
theorem share (hCoherent : Coherent p ({e} + L) H) (hShare : p.share e.frame = (q, true))
    (hShared : e.shared = false) {e₁ : Entry} (h₁ : e₁.frame = e.frame ∧ e₁.shared = false ∧
      e₁.write = false) (e₂ : Entry) (h₂ : e₂.frame = e.frame ∧ e₂.shared = false ∧ e₂.write = false) :
    Coherent q ({e₁} + ({e₂} + L)) H := by
  have hNow := hCoherent.refer hShare
  have hNever : ∀ {x : Entry} {P : Prop}, x.write = false → x.write = true → P :=
    fun hNot hMay => absurd (hNot.symm.trans hMay) Bool.false_ne_true
  have hHead : Joins q L H e₁ := hNow.head.like h₁.1 hShared h₁.2.1 (hNever h₁.2.2)
  refine (hNow.tail.cons (hNow.head.like h₂.1 hShared h₂.2.1 (hNever h₂.2.2))).cons
    ⟨hHead.inUse, hHead.plain, fun x hx hEq => ?_, fun _ => ?_, fun _ => hNever h₁.2.2,
      fun hOwn x hx hEq => ?_⟩
  · rcases mem_cons_add.mp hx with rfl | hx
    · rw [h₁.2.1, h₂.2.1]
    · exact hHead.same x hx hEq
  · -- the reference just taken counts for the second leaf
    obtain ⟨hRefs, -⟩ := share_true hShare
    have hOld := hCoherent.head.counted hShared
    rw [uses_cons, h₁.1, h₂.1, hRefs]
    omega
  · rcases mem_cons_add.mp hx with rfl | hx
    · exact h₂.2.2
    · exact hHead.others hOwn x hx hEq

/-- A frame that is shared for good may be mapped once more, with a reference or without. -/
theorem again (hCoherent : Coherent p L H) (hMem : e ∈ L) (hShared : e.shared = true)
    (hShare : p.share e.frame = (q, taken)) (e' : Entry) (hFrame : e'.frame = e.frame)
    (hShared' : e'.shared = true) (hPlain : e'.copyOnWrite = false) : Coherent q ({e'} + L) H := by
  have hNow := hCoherent.refer hShare
  have hNever : ∀ {P : Prop}, e'.shared = false → P :=
    fun hNot => absurd (hNot.symm.trans hShared') Bool.false_ne_true
  refine hNow.cons ⟨?_, fun _ => hPlain, fun x hx hEq => ?_, hNever, hNever, hNever⟩
  · rw [hFrame]
    exact hNow.inUse e hMem
  · rw [hShared']
    refine Bool.eq_true_of_not_eq_false fun hOther => ?_
    exact hNow.apart e hMem x hx hShared hOther (hEq.trans hFrame)

end Coherent

/-! ### Cells and leaves -/

variable {s : Space} {p' : Pmm} {a : Eager} {pid : Nat}

theorem cells_of_get {page : Nat} (hGet : s.pages.get page = some e) :
    cells p s page = cellOf p.mem e := by
  rw [cells, hGet]
  rfl

theorem cells_setPage (p : Pmm) (s : Space) (page : Nat) (e : Entry) :
    cells p (s.setPage page e) = update (cells p s) page (cellOf p.mem e) := by
  funext w
  by_cases hw : w = page
  · rw [hw, update_self]
    exact cells_of_get (s.pages.get_set_self page e)
  · rw [update_of_ne hw, cells, cells, setPage, s.pages.get_set_of_ne _ hw]

theorem cellOf_present (hPresent : e.present = true) :
    cellOf mem e = if e.shared then .shared e.frame e.write
      else .priv (mem e.frame) (e.write || e.copyOnWrite) := by
  rw [cellOf, if_pos hPresent]

theorem cellOf_private (hPresent : e.present = true) (hShared : e.shared = false) :
    cellOf mem e = .priv (mem e.frame) (e.write || e.copyOnWrite) := by
  rw [cellOf_present hPresent, hShared]
  rfl

theorem cellOf_absent (hPresent : e.present = false) :
    cellOf mem e = if e.lazy then .reserved e.write else .absent := by
  rw [cellOf, hPresent]
  rfl

/-- A process sees of the memory its private pages. -/
theorem cells_congr (hMem : ∀ e ∈ s.leaves, e.shared = false → p'.mem e.frame = p.mem e.frame) :
    cells p' s = cells p s := by
  funext page
  cases hGet : s.pages.get page with
  | none => rw [cells, cells, hGet]; rfl
  | some e =>
    rw [cells_of_get hGet, cells_of_get hGet]
    cases hPresent : e.present with
    | false => rw [cellOf_absent hPresent, cellOf_absent hPresent]
    | true =>
      rw [cellOf_present hPresent, cellOf_present hPresent]
      cases hShared : e.shared with
      | true => rfl
      | false => rw [hMem e (mem_leaves hGet hPresent) hShared]

namespace Space
variable {e : Entry} {page : Nat} {s : Space}

theorem leaves_of_get (hGet : s.pages.get page = some e) (hPresent : e.present = true)
    (L : Multiset Entry) :
    s.leaves + L = {e} + ((s.unmap page).leaves + L) := by
  rw [s.leaves_eq page, leafAt_of_get hGet, leafOf_present hPresent, add_comm _ ({e} : Multiset Entry),
    add_assoc]

theorem mem_leaves_add (hGet : s.pages.get page = some e) (hPresent : e.present = true)
    (L : Multiset Entry) : e ∈ s.leaves + L :=
  mem_add.mpr (.inl (mem_leaves hGet hPresent))

theorem leaves_of_absent (hAbsent : ∀ e, s.pages.get page = some e → e.present = false) :
    s.leaves = (s.unmap page).leaves := by
  rw [s.leaves_eq page]
  cases hGet : s.pages.get page with
  | none => rw [leafAt_of_none hGet, add_zero]
  | some e => rw [leafAt_of_get hGet, leafOf_absent (hAbsent e hGet), add_zero]

theorem leaves_set (hPresent : e.present = true) (L : Multiset Entry) :
    (s.setPage page e).leaves + L = {e} + ((s.unmap page).leaves + L) := by
  rw [leaves_setPage, leafOf_present hPresent, add_comm _ ({e} : Multiset Entry), add_assoc]

theorem leaves_set_absent (hPresent : e.present = false) :
    (s.setPage page e).leaves = (s.unmap page).leaves := by
  rw [leaves_setPage, leafOf_absent hPresent, add_zero]

theorem leaves_congr {t : Space} (hPages : t.pages = s.pages) : t.leaves = s.leaves := by
  rw [leaves, leaves, hPages]

variable {p' : Pmm} {s' : Space}

/-- A touch finds nothing to do, or gives a reserved page a zeroed frame. -/
theorem touch_cases (hTouch : touch p s page = some (p', s')) :
    (p' = p ∧ s' = s ∧ ∀ e, s.pages.get page = some e → e.present = false → e.lazy = false) ∨
      ∃ e frame q, s.pages.get page = some e ∧ e.present = false ∧ e.lazy = true ∧ frame ≠ 0 ∧
        p.alloc = (frame, q) ∧ p' = q.fillFrame frame zeros ∧
        s' = s.setPage page (Entry.leaf frame e.protection) := by
  simp only [touch] at hTouch
  split at hTouch
  next hReserved =>
    obtain ⟨e, hGet, hFlags⟩ : ∃ e, s.pages.get page = some e ∧ (!e.present && e.lazy) = true := by
      cases hGet : s.pages.get page with
      | none => rw [hGet] at hReserved; cases hReserved
      | some e => exact ⟨e, rfl, by rwa [hGet] at hReserved⟩
    rw [Bool.and_eq_true, Bool.not_eq_true'] at hFlags
    have hFault : ¬ (e.present = true ∨ (!e.lazy) = true) := by simp [hFlags.1, hFlags.2]
    simp only [handleLazyFault, hGet, if_neg hFault] at hTouch
    generalize hAlloc : p.alloc = r at hTouch
    obtain ⟨frame, q⟩ := r
    by_cases hFrame : frame = 0
    · simp [if_pos hFrame] at hTouch
    · simp only [if_neg hFrame, if_true] at hTouch
      cases hTouch
      exact .inr ⟨e, frame, q, hGet, hFlags.1, hFlags.2, hFrame, rfl, rfl, rfl⟩
  next hPlain =>
    cases hTouch
    refine .inl ⟨rfl, rfl, fun e hGet hPresent => ?_⟩
    rw [hGet, any_some, hPresent] at hPlain
    simpa using hPlain

/-- A store to a marked page finds it writable: in place where nobody else uses the frame, in
a copy otherwise. -/
theorem handleCowFault_cases (hGet : s.pages.get page = some e) (hPresent : e.present = true)
    (hWrite : e.write = false) (hCow : e.copyOnWrite = true)
    (hFault : handleCowFault p s page = (p', s', true)) :
    (p.refsOf e.frame = 0 ∧ p' = p ∧ s' = s.setPage page (Entry.leaf e.frame (cowFlags e))) ∨
      ∃ frame q, 0 < p.refsOf e.frame ∧ frame ≠ 0 ∧ p.alloc = (frame, q) ∧
        p' = (q.fillFrame frame (q.mem e.frame)).release e.frame ∧
        s' = s.setPage page (Entry.leaf frame (cowFlags e)) := by
  simp only [handleCowFault, hGet, hPresent, hWrite, hCow, Bool.not_true, Bool.false_eq_true,
    if_false] at hFault
  split at hFault
  next hAlone =>
    cases hFault
    refine .inl ⟨?_, rfl, rfl⟩
    simpa [isShared] using hAlone
  next hOthers =>
    generalize hAlloc : p.alloc = r at hFault
    obtain ⟨frame, q⟩ := r
    by_cases hFrame : frame = 0
    · simp [if_pos hFrame] at hFault
    · simp only [if_neg hFrame] at hFault
      cases hFault
      refine .inr ⟨frame, q, ?_, hFrame, rfl, rfl, rfl⟩
      simp only [isShared, Bool.not_eq_true'] at hOthers
      simpa [Nat.pos_iff_ne_zero] using hOthers

end Space

/-! ### One access -/

/-- What the process `pid` with the space `s` sees is what it has in the eager machine, where
`L` are the leaves of the other processes and `H` the frames held besides. -/
structure Sees (L : Multiset Entry) (H : Multiset Nat) (pid : Nat) (p : Pmm) (s : Space)
    (a : Eager) : Prop where
  coherent : Coherent p (s.leaves + L) H
  procs : a.procs pid = some (cells p s)
  objects : ∀ e ∈ s.leaves + L, e.shared = true → a.objects e.frame = p.mem e.frame

/-- Nothing changed for the processes other than `pid`. -/
structure Beside (L : Multiset Entry) (pid : Nat) (p : Pmm) (a : Eager) (p' : Pmm) (a' : Eager) :
    Prop where
  others : ∀ e ∈ L, e.shared = false → p'.mem e.frame = p.mem e.frame
  procs : ∀ q, q ≠ pid → a'.procs q = a.procs q

theorem Beside.refl (L : Multiset Entry) (pid : Nat) (p : Pmm) (a : Eager) : Beside L pid p a p a :=
  ⟨fun _ _ _ => rfl, fun _ _ => rfl⟩

theorem Beside.trans {p'' : Pmm} {a' a'' : Eager} (hFirst : Beside L pid p a p' a')
    (hThen : Beside L pid p' a' p'' a'') :
    Beside L pid p a p'' a'' :=
  ⟨fun e he hShared => (hThen.others e he hShared).trans (hFirst.others e he hShared),
    fun q hq => (hThen.procs q hq).trans (hFirst.procs q hq)⟩

namespace Eager

theorem setCell_procs_self (a : Eager) (pid : Nat) (cells : Nat → Cell) (page : Nat) (cell : Cell) :
    (a.setCell pid cells page cell).procs pid = some (update cells page cell) :=
  update_self _ _ _

variable {pid : Nat}

variable {a : Eager} {cells : Nat → Cell} {page : Nat} {write : Bool}

/-- A load from a reserved page is a load from the page of zeros it becomes. -/
theorem load_reserved (hProcs : a.procs pid = some cells) (hCell : cells page = .reserved write)
    (offset : Nat) :
    a.load pid page offset = (a.setCell pid cells page (.priv zeros write)).load pid page offset := by
  simp only [load, hProcs, setCell_procs_self, map_some, hCell, update_self]
  rfl

theorem store_reserved (hProcs : a.procs pid = some cells) (hCell : cells page = .reserved write)
    (offset : Nat) (value : UInt8) : a.store pid page offset value =
      (a.setCell pid cells page (.priv zeros write)).store pid page offset value := by
  simp only [store, hProcs, setCell_procs_self, map_some, hCell, update_self]
  cases write with
  | true => simp only [if_true, setCell, update_idem]
  | false => rfl

end Eager

section Accesses
variable {L : Multiset Entry} {H : Multiset Nat} {pid : Nat} {p p' : Pmm} {s s' : Space} {a : Eager}
  {page offset : Nat} {e : Entry}

/-- A leaf of one process is not among its others'. -/
theorem Sees.cells_others (hSees : Sees L H pid p s a) (hGet : s.pages.get page = some e)
    (hPresent : e.present = true) (hShared : e.shared = false) (hWrite : e.write = true) :
    ∀ x ∈ (s.unmap page).leaves + L, x.frame ≠ e.frame := by
  have hCoherent := hSees.coherent
  rw [leaves_of_get hGet hPresent] at hCoherent
  intro x hx hEq
  have hPos := uses_pos H hx
  rw [hEq, hCoherent.head.alone hShared hWrite] at hPos
  exact hPos.false

/-- A touch is invisible: a reserved page becomes the page of zeros that it is to loads and
stores. -/
theorem Sees.touch (hSees : Sees L H pid p s a) (hTouch : Space.touch p s page = some (p', s')) :
    ∃ b, Sees L H pid p' s' b ∧ Beside L pid p a p' b ∧
      (∀ e, s'.pages.get page = some e → e.present = false → e.lazy = false) ∧
      (∀ offset, a.load pid page offset = b.load pid page offset) ∧
      ∀ offset value, a.store pid page offset value = b.store pid page offset value := by
  rcases touch_cases hTouch with ⟨rfl, rfl, hTouched⟩ |
    ⟨e, frame, q, hGet, hPresent, hLazy, hFrame, hAlloc, rfl, rfl⟩
  · exact ⟨a, hSees, Beside.refl _ _ _ _, hTouched, fun _ => rfl, fun _ _ => rfl⟩
  have hExtends := extends_alloc_fill hAlloc hFrame zeros
  have hAbsent : ∀ e, s.pages.get page = some e → e.present = false := by
    intro e' hGet'
    rw [hGet] at hGet'
    cases hGet'
    exact hPresent
  have hKept : ∀ x ∈ s.leaves + L, (q.fillFrame frame zeros).mem x.frame = p.mem x.frame :=
    fun x hx => (hExtends.kept _ (hSees.coherent.inUse x hx)).2
  have hCells : cells (q.fillFrame frame zeros) s = cells p s :=
    cells_congr fun x hx _ => hKept x (mem_add.mpr (.inl hx))
  have hCell : cells p s page = .reserved e.write := by
    rw [cells_of_get hGet, cellOf_absent hPresent, hLazy]
    rfl
  refine ⟨a.setCell pid (cells p s) page (.priv zeros e.write), ⟨?_, ?_, fun x hx hShared => ?_⟩,
    ⟨fun x hx _ => ?_, fun r hr => update_of_ne hr _ _⟩, fun x hx hNot => ?_,
    Eager.load_reserved hSees.procs hCell, Eager.store_reserved hSees.procs hCell⟩
  · rw [leaves_set rfl]
    have hCoherent := hSees.coherent
    rw [leaves_of_absent hAbsent] at hCoherent
    exact hCoherent.fresh hAlloc hFrame zeros rfl
  · rw [Eager.setCell_procs_self, cells_setPage, hCells, cellOf_private rfl rfl]
    have hZeros : (q.fillFrame frame zeros).mem frame = zeros := update_self _ _ _
    have hWrite : (e.protection.write || e.protection.copyOnWrite) = e.write := Bool.or_false _
    simp only [Entry.leaf_frame, Entry.leaf_toFlags, hZeros, hWrite]
  · rw [leaves_set rfl] at hx
    rcases mem_cons_add.mp hx with rfl | hx
    · cases hShared
    · rw [← leaves_of_absent hAbsent] at hx
      rw [hKept x hx]
      exact hSees.objects x hx hShared
  · exact hKept x (mem_add.mpr (.inr hx))
  · rw [setPage, s.pages.get_set_self] at hx
    cases hx
    cases hNot

/-- A copy-on-write fault is invisible: the page keeps its bytes and its rights. -/
theorem Sees.cow (hSees : Sees L H pid p s a) (hGet : s.pages.get page = some e)
    (hPresent : e.present = true) (hWrite : e.write = false) (hCow : e.copyOnWrite = true)
    (hFault : handleCowFault p s page = (p', s', true)) :
    Sees L H pid p' s' a ∧ Beside L pid p a p' a ∧ ∃ e', s'.pages.get page = some e' ∧
      e'.present = true ∧ e'.write = true ∧ e'.shared = false := by
  have hHead : e ∈ s.leaves + L := mem_leaves_add hGet hPresent L
  have hShared : e.shared = false := by
    refine Bool.eq_false_iff.mpr fun hOther => ?_
    rw [hSees.coherent.plain e hHead hOther] at hCow
    cases hCow
  -- both ways leave a private writable leaf on a frame with the same bytes
  obtain ⟨frame, hCoherent, hKept, hBytes, rfl⟩ : ∃ frame,
      Coherent p' ({Entry.leaf frame (cowFlags e)} + ((s.unmap page).leaves + L)) H ∧
      (∀ x ∈ s.leaves + L, p'.mem x.frame = p.mem x.frame) ∧
      p'.mem frame = p.mem e.frame ∧ s' = s.setPage page (Entry.leaf frame (cowFlags e)) := by
    have hOld := hSees.coherent
    rw [leaves_of_get hGet hPresent] at hOld
    rcases handleCowFault_cases hGet hPresent hWrite hCow hFault with ⟨hAlone, rfl, rfl⟩ |
      ⟨frame, q, hOthers, hFrame, hAlloc, rfl, rfl⟩
    · have hNone := hOld.head.counted hShared
      rw [hAlone] at hNone
      exact ⟨e.frame, hOld.tail.cons (hOld.head.like rfl hShared rfl fun _ => Nat.le_zero.mp hNone),
        fun _ _ => rfl, rfl, rfl⟩
    · have hExtends := extends_alloc_fill hAlloc hFrame (q.mem e.frame)
      have hRefs : 0 < (q.fillFrame frame (q.mem e.frame)).refsOf e.frame := by
        rw [hExtends.refs.refsOf]
        exact hOthers
      obtain ⟨-, -, -, hMem⟩ := release_of_pos hRefs
      have hQ : q.mem e.frame = p.mem e.frame :=
        ((extends_alloc hAlloc).kept _ (hSees.coherent.inUse e hHead)).2
      refine ⟨frame, ?_, fun x hx => ?_, ?_, rfl⟩
      · have hFresh := hOld.fresh hAlloc hFrame (q.mem e.frame)
          (rfl : (cowFlags e).shared = false)
        rw [← add_assoc, add_comm _ ({e} : Multiset Entry), add_assoc] at hFresh
        exact hFresh.letGo hRefs
      · rw [hMem]
        exact (hExtends.kept _ (hSees.coherent.inUse x hx)).2
      · rw [hMem, ← hQ]
        exact update_self _ _ _
  have hCells : cells p' s = cells p s :=
    cells_congr fun x hx _ => hKept x (mem_add.mpr (.inl hx))
  refine ⟨⟨?_, ?_, fun x hx hOther => ?_⟩, ⟨fun x hx _ => ?_, fun _ _ => rfl⟩, _,
    s.pages.get_set_self page _, rfl, rfl, rfl⟩
  · rw [leaves_set rfl]
    exact hCoherent
  · rw [hSees.procs, cells_setPage, hCells, cellOf_private rfl rfl, Entry.leaf_frame, hBytes]
    refine congrArg some (update_eq_self_iff.mpr ?_).symm
    rw [cells_of_get hGet, cellOf_private hPresent hShared, hWrite, hCow]
    rfl
  · rw [leaves_set rfl] at hx
    rcases mem_cons_add.mp hx with rfl | hx
    · cases hOther
    · have hIn : x ∈ s.leaves + L := by
        rw [leaves_of_get hGet hPresent]
        exact mem_cons_add.mpr (.inr hx)
      rw [hKept x hIn]
      exact hSees.objects x hIn hOther
  · exact hKept x (mem_add.mpr (.inr hx))

/-- A store into a private page changes that page and nothing else. -/
theorem Sees.poke_private (hSees : Sees L H pid p s a) (hGet : s.pages.get page = some e)
    (hPresent : e.present = true) (hShared : e.shared = false) (hWrite : e.write = true)
    (offset : Nat) (value : UInt8) :
    let data := update (p.mem e.frame) offset value
    let a' := a.setCell pid (cells p s) page (.priv data true)
    Sees L H pid (Space.poke p e.frame offset value) s a' ∧
      Beside L pid p a (Space.poke p e.frame offset value) a' := by
  have hOthers := hSees.cells_others hGet hPresent hShared hWrite
  have hHead : e ∈ s.leaves + L := mem_leaves_add hGet hPresent L
  have hMem : ∀ x : Entry, x.frame ≠ e.frame →
      (Space.poke p e.frame offset value).mem x.frame = p.mem x.frame :=
    fun x hx => update_of_ne hx _ _
  refine ⟨⟨hSees.coherent.fill _ _, ?_, fun x hx hOther => ?_⟩,
    ⟨fun x hx _ => hMem x (hOthers x (mem_add.mpr (.inr hx))), fun q hq =>
      update_of_ne hq _ _⟩⟩
  · rw [Eager.setCell_procs_self]
    refine congrArg some (funext fun w => ?_)
    by_cases hw : w = page
    · have hBytes : (Space.poke p e.frame offset value).mem e.frame =
          update (p.mem e.frame) offset value := update_self _ _ _
      rw [hw, update_self, cells_of_get hGet, cellOf_private hPresent hShared, hWrite, hBytes]
      rfl
    · rw [update_of_ne hw]
      have hErase : ∀ q : Pmm, cells q s w = cells q (s.unmap page) w := by
        intro q
        rw [cells, cells, unmap, Assoc.get_erase, if_neg hw]
      rw [hErase, hErase]
      refine (congrFun (cells_congr fun x hx _ => ?_) w).symm
      exact hMem x (hOthers x (mem_add.mpr (.inl hx)))
  · rw [hMem x (hSees.coherent.apart x hx e hHead hOther hShared).symm]
    exact hSees.objects x hx hOther

/-- A store into a page that is shared for good changes the object. -/
theorem Sees.poke_shared (hSees : Sees L H pid p s a) (hGet : s.pages.get page = some e)
    (hPresent : e.present = true) (hShared : e.shared = true) (offset : Nat) (value : UInt8) :
    let data := update (a.objects e.frame) offset value
    let a' : Eager := { a with objects := update a.objects e.frame data }
    Sees L H pid (Space.poke p e.frame offset value) s a' ∧
      Beside L pid p a (Space.poke p e.frame offset value) a' := by
  intro data a'
  have hHead : e ∈ s.leaves + L := mem_leaves_add hGet hPresent L
  have hMem : ∀ x ∈ s.leaves + L, x.shared = false →
      (Space.poke p e.frame offset value).mem x.frame = p.mem x.frame :=
    fun x hx hOther =>
      update_of_ne (hSees.coherent.apart e hHead x hx hShared hOther) _ _
  refine ⟨⟨hSees.coherent.fill _ _, ?_, fun x hx hOther => ?_⟩,
    ⟨fun x hx => hMem x (mem_add.mpr (.inr hx)), fun _ _ => rfl⟩⟩
  · change a.procs pid = _
    rw [hSees.procs]
    exact congrArg some (cells_congr fun x hx => hMem x (mem_add.mpr (.inl hx))).symm
  · change update a.objects e.frame data x.frame = update p.mem e.frame _ x.frame
    by_cases hx' : x.frame = e.frame
    · rw [hx', update_self, update_self, ← hSees.objects e hHead hShared]
    · rw [update_of_ne hx', update_of_ne hx']
      exact hSees.objects x hx hOther

/-- What a page is to the process where it is not reserved. -/
theorem cells_touched {e : Option Entry} (hEntry : s.pages.get page = e)
    (hTouched : ∀ x, e = some x → x.present = false → x.lazy = false) :
    (e.filter (·.present) = none ∧ cells p s page = .absent) ∨
      ∃ x, e = some x ∧ x.present = true ∧ e.filter (·.present) = some x ∧
        cells p s page = cellOf p.mem x := by
  cases e with
  | none => exact .inl ⟨rfl, by rw [cells, hEntry]; rfl⟩
  | some x =>
    cases hPresent : x.present with
    | false =>
      refine .inl ⟨by rw [filter_some, hPresent]; rfl, ?_⟩
      rw [cells_of_get hEntry, cellOf_absent hPresent, hTouched x rfl hPresent]
      rfl
    | true =>
      exact .inr ⟨x, rfl, hPresent, by rw [filter_some, hPresent]; rfl, cells_of_get hEntry⟩

/-- A load sees what the eager machine shows. -/
theorem Sees.load (hSees : Sees L H pid p s a) {seen : Option UInt8}
    (hLoad : s.load p page offset = some (p', s', seen)) :
    ∃ a', a.load pid page offset = some (a', seen) ∧ Sees L H pid p' s' a' ∧
      Beside L pid p a p' a' := by
  obtain ⟨⟨q, t⟩, hTouch, hEq⟩ := map_eq_some_iff.mp hLoad
  obtain ⟨rfl, rfl, rfl⟩ : p' = q ∧ s' = t ∧ seen = ((t.pages.get page).filter (·.present)).map
      fun e => q.mem e.frame offset := by
    cases hEq
    exact ⟨rfl, rfl, rfl⟩
  obtain ⟨b, hB, hBeside, hTouched, hSame, -⟩ := hSees.touch hTouch
  refine ⟨b, (hSame offset).trans ?_, hB, hBeside⟩
  rcases cells_touched (p := p') rfl hTouched with ⟨hNone, hCell⟩ | ⟨x, hGet, hPresent, hSome, hCell⟩
  · simp only [Eager.load, hB.procs, map_some, hCell, hNone]
    rfl
  · rw [hSome]
    simp only [Eager.load, hB.procs, map_some, hCell, cellOf_present hPresent]
    cases hShared : x.shared with
    | false => rfl
    | true =>
      have hIn := mem_leaves_add hGet hPresent L
      simp only [if_true, hB.objects x hIn hShared]

/-- A store goes through exactly where the eager machine lets it, and has the same effect. -/
theorem Sees.store (hSees : Sees L H pid p s a) {value : UInt8} {done : Bool}
    (hStore : s.store p page offset value = some (p', s', done)) :
    ∃ a', a.store pid page offset value = some (a', done) ∧ Sees L H pid p' s' a' ∧
      Beside L pid p a p' a' := by
  obtain ⟨⟨q, t⟩, hTouch, hRest⟩ := bind_eq_some_iff.mp hStore
  obtain ⟨b, hB, hBeside, hTouched, -, hSame⟩ := hSees.touch hTouch
  rw [hSame]
  rcases cells_touched (p := q) rfl hTouched with ⟨hNone, hCell⟩ |
    ⟨x, hGet, hPresent, hSome, hCell⟩
  · rw [hNone] at hRest
    cases hRest
    refine ⟨b, ?_, hB, hBeside⟩
    simp only [Eager.store, hB.procs, map_some, hCell]
  rw [hSome] at hRest
  rw [cellOf_present hPresent] at hCell
  simp only at hRest
  cases hMay : x.write with
  | true =>
    rw [hMay, if_pos rfl] at hRest
    cases hRest
    simp only [Eager.store, hB.procs, map_some, hCell, hMay]
    cases hShared : x.shared with
    | true =>
      obtain ⟨hSees', hBeside'⟩ := hB.poke_shared hGet hPresent hShared offset value
      exact ⟨_, rfl, hSees', hBeside.trans hBeside'⟩
    | false =>
      obtain ⟨hSees', hBeside'⟩ := hB.poke_private hGet hPresent hShared hMay offset value
      exact ⟨_, rfl, hSees', hBeside.trans hBeside'⟩
  | false =>
    simp only [hMay, Bool.false_eq_true, if_false] at hRest
    cases hCow : x.copyOnWrite with
    | false =>
      simp only [hCow, Bool.false_eq_true, if_false] at hRest
      cases hRest
      refine ⟨b, ?_, hB, hBeside⟩
      simp only [Eager.store, hB.procs, map_some, hCell, hMay, hCow]
      cases x.shared with
      | true | false => rfl
    | true =>
      simp only [hCow, if_true] at hRest
      generalize hFault : handleCowFault q t page = c at hRest
      obtain ⟨q', t', found⟩ := c
      cases found with
      | false => cases hRest
      | true =>
        obtain ⟨hB', hCopied, x', hGet', hPresent', hMay', hShared'⟩ :=
          hB.cow hGet hPresent hMay hCow hFault
        simp only [if_true, hGet', filter_some, hMay', map_some] at hRest
        cases hRest
        obtain ⟨hSees', hBeside'⟩ :=
          hB'.poke_private hGet' hPresent' hShared' hMay' offset value
        refine ⟨_, ?_, hSees', (hBeside.trans hCopied).trans hBeside'⟩
        simp only [Eager.store, hB'.procs, map_some, cells_of_get hGet',
          cellOf_private hPresent' hShared', hMay']
        rfl

end Accesses

/-! ### Fork -/

/-- The parent and the child in the loops of `fork_address_space`, beside the leaves `L` of the
other processes. -/
structure Forking (L : Multiset Entry) (H : Multiset Nat) (objects : Nat → Page) (p : Pmm)
    (parent child : Space) : Prop where
  coherent : Coherent p (parent.leaves + (child.leaves + L)) H
  objects : ∀ e ∈ parent.leaves + (child.leaves + L), e.shared = true →
    objects e.frame = p.mem e.frame

section Fork
variable {L : Multiset Entry} {H : Multiset Nat} {objects : Nat → Page} {p p' : Pmm}
  {parent parent' child child' : Space} {page : Nat} {frame : Nat} {q : Pmm} {e : Entry}
  {flags : Flags} {t : Space}

theorem cells_mapInto (hMap : mapInto q child page frame flags = (p', child', true)) (r : Pmm) :
    cells r child' = update (cells r child) page (cellOf r.mem (Entry.leaf frame flags)) := by
  rw [← cells_setPage]
  funext w
  rw [cells, cells, mapInto_pages hMap]
  rfl

theorem leaves_mapInto (hMap : mapInto q child page frame flags = (p', child', true))
    (hEmpty : child.pages.get page = none) :
    child'.leaves = {Entry.leaf frame flags} + child.leaves := by
  have hPages : child'.pages = (child.setPage page (Entry.leaf frame flags)).pages :=
    mapInto_pages hMap
  have hAbsent : child.leaves = (child.unmap page).leaves :=
    leaves_of_absent fun e hGet => by rw [hEmpty] at hGet; cases hGet
  rw [leaves_congr hPages, ← add_zero (Space.leaves _), leaves_set rfl, add_zero, hAbsent]

/-- What a turn of the loop is for: the child gets what the parent has at the page, and the
parent keeps it. -/
structure Turned (L : Multiset Entry) (H : Multiset Nat) (objects : Nat → Page) (page : Nat)
    (p : Pmm) (parent child : Space) (p' : Pmm) (parent' child' : Space) : Prop where
  forking : Forking L H objects p' parent' child'
  others : ∀ e ∈ L, p'.mem e.frame = p.mem e.frame
  parentCells : cells p' parent' = cells p parent
  childCells : cells p' child' = update (cells p child) page (cells p parent page)

section Turns
variable (hForking : Forking L H objects p parent child)
include hForking

/-- A turn keeps the bytes of what was mapped, and maps no new object. -/
theorem Forking.turned (hCoherent : Coherent p' (parent'.leaves + (child'.leaves + L)) H)
    (hKept : ∀ x ∈ parent.leaves + (child.leaves + L), p'.mem x.frame = p.mem x.frame)
    (hObjects : ∀ e ∈ parent'.leaves + (child'.leaves + L), e.shared = true →
      ∃ x ∈ parent.leaves + (child.leaves + L), x.shared = true ∧ x.frame = e.frame)
    (hParent : cells p' parent' = cells p' parent)
    (hChild : cells p' child' = update (cells p' child) page (cells p parent page)) :
    Turned L H objects page p parent child p' parent' child' := by
  refine ⟨⟨hCoherent, fun e he hShared => ?_⟩, fun e he => ?_, hParent.trans ?_, hChild.trans ?_⟩
  · obtain ⟨x, hx, hShared', hFrame⟩ := hObjects e he hShared
    rw [← hFrame, hKept x hx]
    exact hForking.objects x hx hShared'
  · exact hKept e (mem_add.mpr (.inr (mem_add.mpr (.inr he))))
  · exact cells_congr fun x hx _ => hKept x (mem_add.mpr (.inl hx))
  · have hSame : cells p' child = cells p child := cells_congr fun x hx _ =>
      hKept x (mem_add.mpr (.inr (mem_add.mpr (.inl hx))))
    rw [hSame]

variable (hEmpty : child.pages.get page = none)
include hEmpty

/-- A turn that maps a page into the child. -/
theorem Forking.turn_map (hMap : mapInto q child page frame flags = (p', child', true))
    (hCoherent : Coherent q ({Entry.leaf frame flags} + (parent'.leaves + (child.leaves + L))) H)
    (hKept : ∀ x ∈ parent.leaves + (child.leaves + L),
      q.test x.frame = true ∧ q.mem x.frame = p.mem x.frame)
    (hObjects : ∀ e ∈ {Entry.leaf frame flags} + (parent'.leaves + (child.leaves + L)),
      e.shared = true → ∃ x ∈ parent.leaves + (child.leaves + L), x.shared = true ∧ x.frame = e.frame)
    (hParent : ∀ r, cells r parent' = cells r parent)
    (hCell : cellOf q.mem (Entry.leaf frame flags) = cells p parent page) :
    Turned L H objects page p parent child p' parent' child' := by
  have hExtends := mapInto_extends hMap
  have hLeaves : parent'.leaves + (child'.leaves + L) =
      {Entry.leaf frame flags} + (parent'.leaves + (child.leaves + L)) := by
    rw [leaves_mapInto hMap hEmpty, add_assoc, add_left_comm]
  have hBytes := (hExtends.kept _ (hCoherent.inUse _ (mem_cons_add.mpr (.inl rfl)))).2
  refine hForking.turned ?_ (fun x hx => ?_) (fun e he => hObjects e (hLeaves ▸ he)) (hParent p') ?_
  · rw [hLeaves]
    exact hCoherent.extend hExtends
  · exact (hExtends.kept _ (hKept x hx).1).2.trans (hKept x hx).2
  · rw [cells_mapInto hMap, ← hCell, cellOf, cellOf, hBytes]

theorem Forking.turn_nothing
    (hAbsent : ∀ e, parent.pages.get page = some e → e.present = false ∧ e.lazy = false) :
    Turned L H objects page p parent child p parent child := by
  refine hForking.turned hForking.coherent (fun _ _ => rfl) (fun e he hShared => ⟨e, he, hShared, rfl⟩)
    rfl (update_eq_self_iff.mpr ?_).symm
  have hNone : cells p child page = .absent := by rw [cells, hEmpty]; rfl
  rw [hNone]
  cases hGet : parent.pages.get page with
  | none => rw [cells, hGet]; rfl
  | some e =>
    rw [cells_of_get hGet, cellOf_absent (hAbsent e hGet).1, (hAbsent e hGet).2]
    rfl

variable (hGet : parent.pages.get page = some e)
include hGet

theorem Forking.turn_reserved (hPresent : e.present = false) (hWalk : walkMaking p child page = (p', t, true)) :
    Turned L H objects page p parent child p' parent (t.setPage page e) := by
  have hPages := walkMaking_pages hWalk
  have hExtends := walkMaking_extends hWalk
  have hLeaves : (t.setPage page e).leaves = child.leaves := by
    rw [leaves_set_absent hPresent, leaves_of_absent (s := child)]
    · exact leaves_congr (congrArg (fun m : Assoc Entry => m.erase page) hPages)
    · intro e hGet
      rw [hEmpty] at hGet
      cases hGet
  refine hForking.turned ?_ (fun x hx => (hExtends.kept _ (hForking.coherent.inUse x hx)).2)
    (fun x hx hShared => ⟨x, ?_, hShared, rfl⟩) rfl ?_
  · rw [hLeaves]
    exact hForking.coherent.extend hExtends
  · rwa [hLeaves] at hx
  · rw [cells_setPage, cells_of_get hGet, cellOf_absent hPresent, cellOf_absent hPresent]
    have hSame : cells p' t = cells p' child := by
      funext w
      rw [cells, cells, hPages]
    rw [hSame]

variable (hPresent : e.present = true)
include hPresent

theorem Forking.turn_shared {taken : Bool} (hShared : e.shared = true)
    (hShare : p.share e.frame = (q, taken))
    (hMap : mapInto q child page e.frame (passedFlags e) = (p', child', true)) :
    Turned L H objects page p parent child p' parent child' := by
  have hHead : e ∈ parent.leaves + (child.leaves + L) := mem_leaves_add hGet hPresent _
  have hAgain := hForking.coherent.again hHead hShared hShare
    (Entry.leaf e.frame (passedFlags e)) rfl rfl rfl
  have hMem : q.mem = p.mem := by
    cases taken with
    | false => rw [(share_false hShare).1]
    | true => exact (share_true hShare).2.2.2
  refine hForking.turn_map hEmpty hMap hAgain (fun x hx => ⟨?_, by rw [hMem]⟩)
    (fun x hx hOther => ?_) (fun _ => rfl) ?_
  · exact hAgain.inUse x (mem_cons_add.mpr (.inr hx))
  · rcases mem_cons_add.mp hx with rfl | hx
    · exact ⟨e, hHead, hShared, rfl⟩
    · exact ⟨x, hx, hOther, rfl⟩
  · rw [cells_of_get hGet, cellOf_present rfl, cellOf_present hPresent, hShared]
    rfl

variable (hShared : e.shared = false)
include hShared

theorem Forking.turn_cow (hShare : p.share e.frame = (q, true))
    (hMap : mapInto q child page e.frame (sharedFlags e) = (p', child', true)) :
    Turned L H objects page p parent child p'
      (if needsCow e then parent.setPage page { e with write := false, copyOnWrite := true }
        else parent) child' := by
  generalize hParent' : (if needsCow e then
    parent.setPage page { e with write := false, copyOnWrite := true } else parent) = parent'
  obtain ⟨-, hTest, -, hMem⟩ := share_true hShare
  -- the parent's entry as it is left
  obtain ⟨e₁, h₁, hLeft, hSame⟩ : ∃ e₁ : Entry,
      (e₁.frame = e.frame ∧ e₁.shared = false ∧ e₁.write = false) ∧
      (∀ X, parent'.leaves + X = {e₁} + ((parent.unmap page).leaves + X)) ∧
      ∀ r : Pmm, cells r parent' = cells r parent := by
    cases hNeeds : needsCow e with
    | false =>
      rw [hNeeds] at hParent'
      obtain rfl : parent = parent' := hParent'
      have hWrite : e.write = false := (Bool.or_eq_false_iff.mp hNeeds).1
      exact ⟨e, ⟨rfl, hShared, hWrite⟩, leaves_of_get hGet hPresent, fun _ => rfl⟩
    | true =>
      rw [hNeeds, if_pos rfl] at hParent'
      subst hParent'
      refine ⟨{ e with write := false, copyOnWrite := true }, ⟨rfl, hShared, rfl⟩,
        leaves_set hPresent, fun r => ?_⟩
      rw [cells_setPage]
      refine update_eq_self_iff.mpr ?_
      rw [cells_of_get hGet, cellOf_private hPresent hShared]
      exact (cellOf_private (e := { e with write := false, copyOnWrite := true }) hPresent
        hShared).trans (congrArg _ hNeeds.symm)
  have hOld := hForking.coherent
  rw [leaves_of_get hGet hPresent] at hOld
  have hFlags : (sharedFlags e).shared = false ∧ (sharedFlags e).write = false ∧
      ((sharedFlags e).write || (sharedFlags e).copyOnWrite) =
        (e.write || e.copyOnWrite) := by
    unfold sharedFlags
    split
    next hNeeds => exact ⟨rfl, rfl, hNeeds.symm⟩
    next hNeeds =>
      have hNone : (e.write || e.copyOnWrite) = false := Bool.eq_false_iff.mpr hNeeds
      have hWrite : e.protection.write = false := (Bool.or_eq_false_iff.mp hNone).1
      exact ⟨rfl, hWrite, by rw [hNone, hWrite]; rfl⟩
  refine hForking.turn_map hEmpty hMap ?_ (fun x hx => ⟨?_, by rw [hMem]⟩) (fun x hx hOther => ?_)
    hSame ?_
  · rw [hLeft]
    refine hOld.share hShare hShared ?_ e₁ h₁
    exact ⟨rfl, hFlags.1, hFlags.2.1⟩
  · rw [hTest]
    exact hForking.coherent.inUse x hx
  · rw [hLeft] at hx
    rcases mem_cons_add.mp hx with rfl | hx
    · rw [Entry.leaf_toFlags, hFlags.1] at hOther
      cases hOther
    · rcases mem_cons_add.mp hx with rfl | hx
      · rw [h₁.2.1] at hOther
        cases hOther
      · refine ⟨x, ?_, hOther, rfl⟩
        rw [leaves_of_get hGet hPresent]
        exact mem_cons_add.mpr (.inr hx)
  · rw [cells_of_get hGet, cellOf_private rfl hFlags.1, cellOf_private hPresent hShared,
      Entry.leaf_frame, Entry.leaf_toFlags, hFlags.2.2, hMem]

theorem Forking.turn_copy (hMark : e.copyOnWrite = true → e.write = true) (hFrame : frame ≠ 0)
    (hAlloc : p.alloc = (frame, q))
    (hMap : mapInto (q.fillFrame frame (q.mem e.frame)) child page frame e.protection =
      (p', child', true)) :
    Turned L H objects page p parent child p' parent child' := by
  have hFill := extends_alloc_fill hAlloc hFrame (q.mem e.frame)
  have hHead : e ∈ parent.leaves + (child.leaves + L) := mem_leaves_add hGet hPresent _
  have hFresh := hForking.coherent.fresh hAlloc hFrame (q.mem e.frame)
    (rfl : e.protection.shared = false)
  have hBytes : (q.fillFrame frame (q.mem e.frame)).mem frame = p.mem e.frame :=
    (update_self _ _ _).trans
      ((extends_alloc hAlloc).kept _ (hForking.coherent.inUse e hHead)).2
  refine hForking.turn_map hEmpty hMap hFresh
    (fun x hx => hFill.kept _ (hForking.coherent.inUse x hx)) (fun x hx hOther => ?_)
    (fun _ => rfl) ?_
  · rcases mem_cons_add.mp hx with rfl | hx
    · cases hOther
    · exact ⟨x, hx, hOther, rfl⟩
  · rw [cells_of_get hGet, cellOf_private rfl rfl, cellOf_private hPresent hShared,
      Entry.leaf_frame, hBytes]
    have hRights : (e.protection.write || e.protection.copyOnWrite) = (e.write || e.copyOnWrite) := by
      change (e.write || false) = _
      cases hCow : e.copyOnWrite with
      | false => rfl
      | true => rw [hMark hCow]; rfl
    rw [Entry.leaf_toFlags, hRights]

end Turns

theorem Forking.turn (hForking : Forking L H objects p parent child)
    (hForked : Space.ForkedPage p parent child page p' parent' child')
    (hEmpty : child.pages.get page = none)
    (hMark : ∀ e, parent.pages.get page = some e → e.present = true → e.shared = false →
      e.copyOnWrite = true → e.write = false → p.Shareable e.frame 1) :
    Turned L H objects page p parent child p' parent' child' := by
  cases hForked with
  | nothing hAbsent => exact hForking.turn_nothing hEmpty hAbsent
  | reserved hGet hPresent hLazy hWalk => exact hForking.turn_reserved hEmpty hGet hPresent hWalk
  | shared hGet hPresent hShared hShare hMap =>
    exact hForking.turn_shared hEmpty hGet hPresent hShared hShare hMap
  | cow hGet hPresent hShared hShare hMap =>
    exact hForking.turn_cow hEmpty hGet hPresent hShared hShare hMap
  | copy hGet hPresent hShared hShare hFrame hAlloc hMap =>
    refine hForking.turn_copy hEmpty hGet hPresent hShared (fun hCow => ?_) hFrame hAlloc hMap
    -- a marked page would have been shared
    by_contra hWrite
    exact (share_false hShare).2
      (hMark _ hGet hPresent hShared hCow (Bool.eq_false_iff.mpr hWrite))

/-- The loops of `fork_address_space` give the child what the parent has at the pages they
visit. -/
theorem Forking.loop {pages : List Nat} (hForking : Forking L H objects p parent child)
    (hFork : forkPages p parent child pages = (p', parent', child', true))
    (hNodup : pages.Nodup) (hEmpty : ∀ v ∈ pages, child.pages.get v = none)
    (hMark : ∀ v ∈ pages, ∀ e, parent.pages.get v = some e → e.present = true →
      e.shared = false → e.copyOnWrite = true → e.write = false →
        p.Shareable e.frame (pages.countP (parent.mapsTo e.frame))) :
    Forking L H objects p' parent' child' ∧ (∀ e ∈ L, p'.mem e.frame = p.mem e.frame) ∧
      cells p' parent' = cells p parent ∧
      ∀ v, cells p' child' v = if v ∈ pages then cells p parent v else cells p child v := by
  induction pages generalizing p parent child with
  | nil =>
    cases hFork
    exact ⟨hForking, fun _ _ => rfl, rfl, fun v => by rw [if_neg not_mem_nil]⟩
  | cons page rest ih =>
    obtain ⟨hPage, hRest⟩ := List.nodup_cons.mp hNodup
    unfold forkPages at hFork
    generalize hTurn : forkPage p parent child page = r at hFork
    obtain ⟨p₁, parent₁, child₁, done₁⟩ := r
    cases done₁ with
    | false => cases hFork
    | true =>
      have hForked := forkPage_forked hTurn
      have hNe : ∀ v ∈ rest, v ≠ page := fun v hv hEq => hPage (hEq ▸ hv)
      have hTurned := hForking.turn hForked (hEmpty page List.mem_cons_self)
        fun e hGet hPresent hShared hCow hWrite => shareable_head hGet hPresent
          (hMark page List.mem_cons_self e hGet hPresent hShared hCow hWrite)
      obtain ⟨hForking', hOthers, hParent, hChild⟩ := ih hTurned.forking hFork hRest
        (fun v hv => (hForked.get_of_ne (hNe v hv)).2.trans
          (hEmpty v (List.mem_cons_of_mem page hv)))
        (fun v hv e hGet hPresent hShared hCow hWrite => by
          rw [(hForked.get_of_ne (hNe v hv)).1] at hGet
          exact hForked.shareable_tail hPage
            (hMark v (List.mem_cons_of_mem page hv) e hGet hPresent hShared hCow hWrite))
      refine ⟨hForking', fun e he => (hOthers e he).trans (hTurned.others e he),
        hParent.trans hTurned.parentCells, fun v => ?_⟩
      rw [hChild v, hTurned.parentCells, hTurned.childCells]
      by_cases hv : v = page
      · rw [hv, if_neg hPage, update_self, if_pos List.mem_cons_self]
      · rw [update_of_ne hv]
        simp only [List.mem_cons, hv, false_or]

/-- `fork_address_space`: the child's pages are the parent's. -/
theorem fork_cells {s s' : Space} (hFork : Space.fork p s = (p', s', some t))
    (hCoherent : Coherent p (s.leaves + L) H)
    (hObjects : ∀ e ∈ s.leaves + L, e.shared = true → objects e.frame = p.mem e.frame)
    (hMark : ∀ e ∈ s.leaves, e.shared = false → e.copyOnWrite = true → e.write = false →
      p.Shareable e.frame (s.refs.count e.frame)) :
    Forking L H objects p' s' t ∧ (∀ e ∈ L, p'.mem e.frame = p.mem e.frame) ∧
      cells p' s' = cells p s ∧ cells p' t = cells p s := by
  simp only [Space.fork] at hFork
  generalize hCreate : Space.create p = c at hFork
  obtain ⟨q, made⟩ := c
  cases made with
  | none => cases hFork
  | some child =>
    obtain ⟨hExtends, hPages⟩ := create_some hCreate
    simp only at hFork
    generalize hLoop : forkPages q s child s.pages.keys = r at hFork
    obtain ⟨p₁, s₁, t₁, done⟩ := r
    cases done with
    | false => cases hFork
    | true =>
      cases hFork
      have hNone : child.leaves = 0 := by
        rw [Space.leaves, hPages]
        rfl
      have hKept : ∀ e ∈ s.leaves + L, q.mem e.frame = p.mem e.frame := fun e he =>
        (hExtends.kept _ (hCoherent.inUse e he)).2
      have hForking : Forking L H objects q s child := by
        refine ⟨?_, fun e he hShared => ?_⟩
        · rw [hNone, zero_add]
          exact hCoherent.extend hExtends
        · rw [hNone, zero_add] at he
          rw [hKept e he]
          exact hObjects e he hShared
      obtain ⟨hForking', hOthers, hParent, hChild⟩ := hForking.loop hLoop s.pages.keys_nodup
        (fun v _ => by rw [hPages]; rfl)
        (fun v _ e hGet hPresent hShared hCow hWrite => by
          rw [count_refs_eq]
          exact hExtends.refs.shareable
            (hMark e (mem_leaves hGet hPresent) hShared hCow hWrite))
      have hSame : cells q s = cells p s :=
        cells_congr fun e he _ => hKept e (mem_add.mpr (.inl he))
      refine ⟨hForking', fun e he => (hOthers e he).trans
        (hKept e (mem_add.mpr (.inr he))), hParent.trans hSame, funext fun v => ?_⟩
      rw [hChild v, hSame]
      split
      · rfl
      next hKey =>
        have hGet : s.pages.get v = none := by
          cases hGet : s.pages.get v with
          | none => rfl
          | some e => exact absurd (s.pages.mem_keys hGet) hKey
        rw [cells, cells, hPages, hGet]
        rfl

end Fork

/-! ### All processes -/

namespace State

/-- The present leaves of all processes. -/
def leaves (k : State) : Multiset Entry := k.procs.total (·.space.leaves)

/-- The present leaves of all processes but one. -/
def leavesBut (k : State) (pid : Nat) : Multiset Entry :=
  (k.procs.erase pid).total (·.space.leaves)

variable {k k' : State} {pid : Nat} {pr : Process}

theorem leaves_eq (hGet : k.procs.get pid = some pr) :
    k.leaves = pr.space.leaves + k.leavesBut pid :=
  Assoc.total_of_some _ hGet

theorem leavesBut_of_none (hGet : k.procs.get pid = none) :
    k.leavesBut pid = k.leaves :=
  Assoc.total_of_none _ hGet

theorem leaves_setProc (k : State) (pid : Nat) (p : Pmm) (s : Space) (mmapNext : Nat) :
    (k.setProc pid p s mmapNext).leaves = s.leaves + k.leavesBut pid := by
  rw [leaves, setProc, Assoc.total_set, add_comm]
  rfl

theorem mem_leavesBut {q : Nat} (hq : q ≠ pid) (hGet : k.procs.get q = some pr)
    (hMem : e ∈ pr.space.leaves) : e ∈ k.leavesBut pid := by
  refine Assoc.mem_total (a := pr) (k := q) ?_ hMem
  rw [Assoc.get_erase, if_neg hq]
  exact hGet

/-- A load or a store is made by a process, which had the outcome. -/
theorem access_of_bind {α : Type} [DecidableEq α] {f : Process → Option (Pmm × Space × α)} {seen : α}
    (hAccess : ((k.procs.get pid).bind fun pr => (f pr).bind fun r =>
      if r.2.2 = seen then some (k.setSpace pid pr r.1 r.2.1) else none) = some k') :
    ∃ pr p s, k.procs.get pid = some pr ∧ f pr = some (p, s, seen) ∧ k' = k.setSpace pid pr p s := by
  obtain ⟨pr, hGet, hRest⟩ := bind_eq_some_iff.mp hAccess
  obtain ⟨⟨p, s, seen'⟩, hLoad, hEq⟩ := bind_eq_some_iff.mp hRest
  obtain ⟨rfl, hSome⟩ := ite_none_right_eq_some.mp hEq
  exact ⟨pr, p, s, hGet, hLoad, (some.inj hSome).symm⟩

theorem access_fork {child : Nat} (hAccess : k.access (.fork pid child) = some k') :
    ∃ pr p s t, k.procs.get pid = some pr ∧ k.procs.get child = none ∧
      Space.fork k.pmm pr.space = (p, s, some t) ∧
      k' = (k.setSpace pid pr p s).setProc child p t pr.mmapNext := by
  obtain ⟨pr, hGet, hRest⟩ := bind_eq_some_iff.mp hAccess
  obtain ⟨hNew, hRest⟩ := ite_none_left_eq_some.mp hRest
  obtain ⟨t, hMade, rfl⟩ := map_eq_some_iff.mp hRest
  refine ⟨pr, _, _, t, hGet, ?_, ?_, rfl⟩
  · simpa using hNew
  · rw [← hMade]

end State

/-- The eager machine shows the processes what the kernel does. -/
structure Views (k : State) (a : Eager) : Prop where
  coherent : Coherent k.pmm k.leaves k.held
  procs : a.procs = (view k).procs
  objects : ∀ e ∈ k.leaves, e.shared = true → a.objects e.frame = k.pmm.mem e.frame

theorem view_procs (k : State) {pr : Process} (hGet : k.procs.get pid = some pr) :
    (view k).procs pid = some (cells k.pmm pr.space) := by
  simp only [view, hGet, map_some]

theorem view_setProc_self (k : State) (pid : Nat) (p : Pmm) (s : Space) (mmapNext : Nat) :
    (view (k.setProc pid p s mmapNext)).procs pid = some (cells p s) :=
  view_procs (k.setProc pid p s mmapNext) (k.procs.get_set_self pid _)

namespace Views
variable {k : State} {a a' : Eager} {pid : Nat} {pr : Process} {p : Pmm} {s : Space}

theorem sees (hViews : Views k a) (hGet : k.procs.get pid = some pr) :
    Sees (k.leavesBut pid) k.held pid k.pmm pr.space a := by
  have hLeaves := State.leaves_eq hGet
  refine ⟨hLeaves ▸ hViews.coherent, ?_, fun e he => hViews.objects e (hLeaves ▸ he)⟩
  rw [hViews.procs]
  exact view_procs k hGet

/-- The other processes of the kernel see what they saw. -/
theorem procs_of_ne (hMem : ∀ e ∈ k.leavesBut pid, e.shared = false →
    p.mem e.frame = k.pmm.mem e.frame) {mmapNext q : Nat} (hq : q ≠ pid) :
    (view (k.setProc pid p s mmapNext)).procs q = (view k).procs q := by
  simp only [view, State.setProc, Assoc.get_set_of_ne _ _ hq]
  cases hGet : k.procs.get q with
  | none => rfl
  | some pr =>
    refine congrArg some (cells_congr fun e he => ?_)
    exact hMem e (State.mem_leavesBut hq hGet he)

/-- What one process did and saw, for all processes. -/
theorem setSpace (hViews : Views k a) (hSees : Sees (k.leavesBut pid) k.held pid p s a')
    (hBeside : Beside (k.leavesBut pid) pid k.pmm a p a') : Views (k.setSpace pid pr p s) a' := by
  have hLeaves : (k.setSpace pid pr p s).leaves = s.leaves + k.leavesBut pid :=
    k.leaves_setProc pid p s pr.mmapNext
  refine ⟨hLeaves ▸ hSees.coherent, funext fun q => ?_, fun e he => hSees.objects e (hLeaves ▸ he)⟩
  by_cases hq : q = pid
  · rw [hq, hSees.procs]
    exact (view_setProc_self k pid p s pr.mmapNext).symm
  · rw [hBeside.procs q hq, hViews.procs]
    exact (procs_of_ne hBeside.others hq).symm

/-- A fork gives the new process the pages of the old one. -/
theorem fork (hViews : Views k a) {child : Nat} {t : Space} (hGet : k.procs.get pid = some pr)
    (hNew : k.procs.get child = none) (hFork : Space.fork k.pmm pr.space = (p, s, some t))
    (hMark : ∀ e ∈ pr.space.leaves, e.shared = false → e.copyOnWrite = true → e.write = false →
      k.pmm.Shareable e.frame (pr.space.refs.count e.frame)) :
    ∃ a', a.fork pid child = some a' ∧
      Views ((k.setSpace pid pr p s).setProc child p t pr.mmapNext) a' := by
  have hSees := hViews.sees hGet
  obtain ⟨hForking, hOthers, hParent, hChild⟩ :=
    fork_cells hFork hSees.coherent hSees.objects hMark
  have hNe : child ≠ pid := by
    rintro rfl
    rw [hNew] at hGet
    cases hGet
  have hNone : (a.procs child).isSome = false := by
    simp only [hViews.procs, view, hNew, map_none, isSome_none]
  have hNew' : (k.setSpace pid pr p s).procs.get child = none :=
    (k.procs.get_set_of_ne _ hNe).trans hNew
  refine ⟨{ a with procs := update a.procs child (some (cells k.pmm pr.space)) }, ?_, ?_⟩
  · rw [Eager.fork, hNone, hSees.procs]
    rfl
  have hLeaves : ((k.setSpace pid pr p s).setProc child p t pr.mmapNext).leaves =
      s.leaves + (t.leaves + k.leavesBut pid) := by
    rw [State.leaves_setProc, State.leavesBut_of_none hNew', State.setSpace,
      State.leaves_setProc, add_left_comm]
  refine ⟨hLeaves ▸ hForking.coherent, funext fun q => ?_,
    fun e he => hForking.objects e (hLeaves ▸ he)⟩
  change update a.procs child _ q = _
  by_cases hq : q = child
  · rw [hq, update_self, ← hChild]
    exact (view_setProc_self _ child p t pr.mmapNext).symm
  · have hBefore : (view ((k.setSpace pid pr p s).setProc child p t pr.mmapNext)).procs q =
        (view (k.setSpace pid pr p s)).procs q := procs_of_ne (fun _ _ _ => rfl) hq
    rw [update_of_ne hq, hBefore]
    by_cases hq' : q = pid
    · rw [hq', hSees.procs, ← hParent]
      exact (view_setProc_self k pid p s pr.mmapNext).symm
    · rw [hViews.procs]
      exact (procs_of_ne (fun e he _ => hOthers e he) hq').symm

end Views

/-- A fork can take its references to the pages of the parent that are marked and not
writable, as often as the parent maps them. -/
def Markable (k : State) : Access → Prop
  | .fork pid _ => ∀ pr ∈ k.procs.get pid, ∀ e ∈ pr.space.leaves, e.shared = false →
      e.copyOnWrite = true → e.write = false → k.pmm.Shareable e.frame (pr.space.refs.count e.frame)
  | _ => True

instance (k : State) (e : Access) : Decidable (Markable k e) := by
  cases e <;> unfold Markable <;> infer_instance

theorem views_step {k k' : State} {e : Access} (hViews : Views k a) (hMarkable : Markable k e)
    (hAccess : k.Accesses e k') :
    ∃ a', Eager.Step a e a' ∧ Views k' a' := by
  cases e with
  | load pid page offset seen =>
    obtain ⟨pr, p, s, hGet, hLoad, rfl⟩ := State.access_of_bind hAccess
    obtain ⟨a', hStep, hSees, hBeside⟩ := (hViews.sees hGet).load hLoad
    exact ⟨a', hStep, hViews.setSpace hSees hBeside⟩
  | store pid page offset value done =>
    obtain ⟨pr, p, s, hGet, hStore, rfl⟩ := State.access_of_bind hAccess
    obtain ⟨a', hStep, hSees, hBeside⟩ := (hViews.sees hGet).store hStore
    exact ⟨a', hStep, hViews.setSpace hSees hBeside⟩
  | fork pid child =>
    obtain ⟨pr, p, s, t, hGet, hNew, hFork, rfl⟩ := State.access_fork hAccess
    exact hViews.fork hGet hNew hFork (hMarkable pr hGet)

/-- In every run of loads, stores and forks whose forks can take their references to marked
pages, every process sees what it would see had each fork copied all private pages: every load
has the value and every store the outcome it has in the eager machine. -/
theorem deepCopy_of_markable {k₀ k : State} {es : List Access}
    (hCoherent : Coherent k₀.pmm k₀.leaves k₀.held)
    (hRun : Run (Restrict Markable State.Accesses) k₀ es k) :
    ∃ a, Run Eager.Step (view k₀) es a ∧ Views k a := by
  have hStep : ∀ k a e k', Views k a → Restrict Markable State.Accesses k e k' →
      ∃ a', Eager.Step a e a' ∧ Views k' a' :=
    fun k a e k' hViews hStep => views_step hViews hStep.1 hStep.2
  exact hRun.simulation hStep ⟨hCoherent, rfl, fun _ _ _ => rfl⟩

/-! ### A marked page that is copied at once -/

/-- A machine with one process that has one page, marked copy-on-write, on a frame with `refs`
references beyond the first. -/
def markedMachine (refs : UInt16) : State where
  pmm :=
    { frameCount := 16
      bitmapWords := 1
      bitmap := fun frame => decide (frame < 6)
      usedFrames := 6
      freeFrames := 10
      searchHint := 0
      highestUsable := 0x10000
      refs := some (update (fun _ => 0) 1 refs)
      refCount := 16
      mem := fun _ => zeros
      covers := by omega }
  procs := Assoc.empty.set 1
    { space :=
        { pml4 := 2
          tables := ((Assoc.empty.set (Space.slot 3 0) 3).set (Space.slot 2 0) 4).set
            (Space.slot 1 0) 5
          pages := Assoc.empty.set 0 (Entry.leaf 1 { user := true, copyOnWrite := true }) }
      mmapNext := kUserMmapBase }
  segments := Assoc.empty
  images := Assoc.empty

theorem coherent_markedMachine (refs : UInt16) : Coherent (markedMachine refs).pmm
    (markedMachine refs).leaves (markedMachine refs).held := by
  have hLeaves : (markedMachine refs).leaves =
      {Entry.leaf 1 { user := true, copyOnWrite := true }} := rfl
  have hHeld : (markedMachine refs).held = 0 := rfl
  rw [hLeaves, hHeld]
  refine ⟨fun e he => ?_, fun f hf => absurd hf (notMem_zero f), fun e he hShared => ?_,
    fun e he e' he' hShared => ?_, fun e he _ => ?_, fun e he _ hWrite => ?_⟩
  all_goals obtain rfl := Multiset.mem_singleton.mp he
  · rfl
  · cases hShared
  · cases hShared
  · exact Nat.le_add_right 1 _
  · cases hWrite

/-- The process forks, and the child writes to the page. -/
def deniedEvents : List Access := [.fork 1 2, .store 2 0 0 7 false]

/-- With as many references as the counter holds the child may not write to the page, which
the parent may. -/
theorem not_deepCopy_deniedEvents : ¬ ∀ k₀ k es, Coherent k₀.pmm k₀.leaves k₀.held →
    Run State.Accesses k₀ es k → ∃ a, Run Eager.Step (view k₀) es a ∧ Views k a := by
  intro hAll
  obtain ⟨k, hRun, -⟩ : ∃ k, Run State.Accesses (markedMachine 0xFFFF) deniedEvents k ∧ True :=
    Run.exists_of_foldlM (fun _ _ _ h => h) (by decide +kernel)
  obtain ⟨a, hEager, -⟩ := hAll _ k deniedEvents (coherent_markedMachine _) hRun
  obtain ⟨a₁, hFork, hStore⟩ := Run.snoc_inv [Access.fork 1 2] hEager
  obtain ⟨a₀, hNil, hFork⟩ := Run.snoc_inv [] hFork
  obtain rfl := Run.nil_inv hNil
  cases hFork
  cases hStore

/-- Parent and child write to the page, the child forks in its turn, and all read. -/
def markableEvents : List Access :=
  [.fork 1 2, .store 2 0 0 7 true, .load 1 0 0 (some 0), .fork 2 3, .store 1 0 1 5 true,
    .load 3 0 0 (some 7), .load 3 0 1 (some 0), .load 1 1 0 none]

theorem deepCopy_markableEvents : ∃ k a,
    Run (Restrict Markable State.Accesses) (markedMachine 0) markableEvents k ∧
      Run Eager.Step (view (markedMachine 0)) markableEvents a ∧ Views k a := by
  obtain ⟨k, hRun, -⟩ :
      ∃ k, Run (Restrict Markable State.Accesses) (markedMachine 0) markableEvents k ∧ True :=
    Run.exists_of_guarded (fun _ _ _ h => h) (by decide +kernel)
  obtain ⟨a, hEager, hViews⟩ := deepCopy_of_markable (coherent_markedMachine 0) hRun
  exact ⟨k, a, hRun, hEager, hViews⟩

end LeahOS.Mm
