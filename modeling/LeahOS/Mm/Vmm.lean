import LeahOS.Lib.Assoc
import LeahOS.Mm.Pmm

/-!
# Address spaces (`kernel/mm/vmm.cpp`)

The user half of an address space: the frames of the page tables built for it, and the leaf
entries in them that are not zero, both in ascending order. A page is named by its number
`virt >> 12`. The kernel's half is shared by reference and never released, so it is left
out, and with it the huge leaves: no user page is one.

A table of level `l` covers `512 ^ l` pages; the one over the page `v` is kept at
`slot l v`. `next_level` looks a table up and, when it may, allocates the missing one. A
leaf entry can only be written once the three tables above it are there, so a walk that
finds a table missing and a walk that finds a zero entry are the same to every caller that
does not create tables.

Invalidations and shootdowns are not modelled: an access goes by the entry as it stands.
-/

namespace LeahOS.Mm
open Lib List Bool

/-- The flag bits of a leaf entry the kernel itself sets, apart from `Present`. -/
structure Flags where
  write : Bool := false
  user : Bool := false
  writeThrough : Bool := false
  noCache : Bool := false
  copyOnWrite : Bool := false
  lazy : Bool := false
  shared : Bool := false
  noExecute : Bool := false
  deriving DecidableEq

/-- A leaf entry: its flags and the frame in its address bits. -/
structure Entry extends Flags where
  present : Bool
  frame : Nat
  deriving DecidableEq

/-- `entry & (Write | User | NoExecute)`. -/
def Flags.protection (flags : Flags) : Flags :=
  { write := flags.write, user := flags.user, noExecute := flags.noExecute }

/-- `frame | flags | Present`. -/
def Entry.leaf (frame : Nat) (flags : Flags) : Entry :=
  { toFlags := flags, present := true, frame := frame }

@[simp] theorem Entry.leaf_frame (frame : Nat) (flags : Flags) :
    (Entry.leaf frame flags).frame = frame := rfl

@[simp] theorem Entry.leaf_toFlags (frame : Nat) (flags : Flags) :
    (Entry.leaf frame flags).toFlags = flags := rfl

/-- An address space. -/
structure Space where
  pml4 : Nat
  tables : Assoc Nat
  pages : Assoc Entry

namespace Space

/-- Where the table of a level that covers a page is kept. -/
def slot (level page : Nat) : Nat := 4 * (page / 512 ^ level) + level

/-- `pt[...] = entry`. -/
def setPage (s : Space) (page : Nat) (entry : Entry) : Space :=
  { s with pages := s.pages.set page entry }

/-- `alloc_table`: a zeroed frame, or `0`. -/
def allocTable (p : Pmm) : Nat × Pmm :=
  let r := p.alloc
  if r.1 = 0 then r else (r.1, r.2.fillFrame r.1 zeros)

/-- `next_level` with `create`. -/
def nextLevel (p : Pmm) (tables : Assoc Nat) (index : Nat) : Pmm × Assoc Nat × Bool :=
  match tables.get index with
  | some _ => (p, tables, true)
  | none =>
    let r := allocTable p
    if r.1 = 0 then (r.2, tables, false) else (r.2, tables.set index r.1, true)

/-- The walk down the tables at `indices`, building the ones that are missing. -/
def walk (p : Pmm) (tables : Assoc Nat) : List Nat → Pmm × Assoc Nat × Bool
  | [] => (p, tables, true)
  | index :: below =>
    let r := nextLevel p tables index
    if r.2.2 then walk r.1 r.2.1 below else r

/-- `walk_to_pte_making`: whether there is an entry to write now. -/
def walkMaking (p : Pmm) (s : Space) (page : Nat) : Pmm × Space × Bool :=
  let r := walk p s.tables [slot 3 page, slot 2 page, slot 1 page]
  (r.1, { s with tables := r.2.1 }, r.2.2)

def mapInto (p : Pmm) (s : Space) (page frame : Nat) (flags : Flags) : Pmm × Space × Bool :=
  let r := walkMaking p s page
  if r.2.2 then (r.1, r.2.1.setPage page (Entry.leaf frame flags), true) else r

/-- `unmap_into`. -/
def unmap (s : Space) (page : Nat) : Space := { s with pages := s.pages.erase page }

/-- `translate_into`: the physical address of a virtual one, `0` where nothing is present. -/
def translate (s : Space) (virt : Nat) : Nat :=
  match s.pages.get (virt / kPageSize) with
  | some entry => if entry.present then entry.frame * kPageSize + virt % kPageSize else 0
  | none => 0

/-- `reserve`: what a page is going to be, without giving it anything yet. -/
def reserve (p : Pmm) (s : Space) (page : Nat) (flags : Flags) : Pmm × Space × Bool :=
  let r := walkMaking p s page
  if r.2.2 then
    if (r.2.1.pages.get page).any (·.present) then r
    else
      (r.1, r.2.1.setPage page
        { toFlags := { flags.protection with lazy := true }, present := false, frame := 0 }, true)
  else r

def handleLazyFault (p : Pmm) (s : Space) (page : Nat) : Pmm × Space × Bool :=
  match s.pages.get page with
  | none => (p, s, false)
  | some entry =>
    if entry.present ∨ !entry.lazy then (p, s, false)
    else
      let r := p.alloc
      if r.1 = 0 then (r.2, s, false)
      else
        (r.2.fillFrame r.1 zeros, s.setPage page (Entry.leaf r.1 entry.protection), true)

/-- The flags `handle_cow_fault` writes besides `Present`. -/
def cowFlags (entry : Entry) : Flags :=
  { write := true, user := entry.user, noExecute := entry.noExecute }

def handleCowFault (p : Pmm) (s : Space) (page : Nat) : Pmm × Space × Bool :=
  match s.pages.get page with
  | none => (p, s, false)
  | some entry =>
    if !entry.present then (p, s, false)
    else if entry.write then (p, s, true)
    else if !entry.copyOnWrite then (p, s, false)
    else if !p.isShared entry.frame then
      (p, s.setPage page (Entry.leaf entry.frame (cowFlags entry)), true)
    else
      let r := p.alloc
      if r.1 = 0 then (r.2, s, false)
      else
        ((r.2.fillFrame r.1 (r.2.mem entry.frame)).release entry.frame,
          s.setPage page (Entry.leaf r.1 (cowFlags entry)), true)

/-- `create_address_space_locked`. -/
def create (p : Pmm) : Pmm × Option Space :=
  let r := allocTable p
  if r.1 = 0 then (r.2, none)
  else (r.2, some { pml4 := r.1, tables := Assoc.empty, pages := Assoc.empty })

/-- The frames the present leaves map, in order. -/
def leafFrames (s : Space) : List Nat :=
  (s.pages.values.filter (·.present)).map (·.frame)

/-- `destroy_address_space_locked`. The walk releases the frames of a table before it frees
the table itself; the calls commute, so the frames go first here and the tables after. -/
def destroy (p : Pmm) (s : Space) : Pmm :=
  let p := s.leafFrames.foldl Pmm.release p
  let p := s.tables.values.foldl Pmm.free p
  p.free s.pml4

/-- `flags | Shared`: what the child gets on a page that is shared for good. -/
def passedFlags (entry : Entry) : Flags := { entry.protection with shared := true }

/-- The `Shared` path of `fork_address_space`: whether a reference could be taken is not
asked. -/
def forkShared (p : Pmm) (child : Space) (page : Nat) (entry : Entry) : Pmm × Space × Bool :=
  let q := p.share entry.frame
  let r := mapInto q.1 child page entry.frame (passedFlags entry)
  if r.2.2 then r else (r.1.release entry.frame, r.2.1, false)

/-- The eager copy of `fork_address_space`, for a frame no reference could be taken to. -/
def forkCopy (p : Pmm) (child : Space) (page : Nat) (entry : Entry) : Pmm × Space × Bool :=
  let a := p.alloc
  if a.1 = 0 then (a.2, child, false)
  else
    let r := mapInto (a.2.fillFrame a.1 (a.2.mem entry.frame)) child page a.1 entry.protection
    if r.2.2 then r else (r.1.free a.1, r.2.1, false)

def needsCow (entry : Entry) : Bool := entry.write || entry.copyOnWrite

/-- `shared_flags`: what the child gets on a frame it shares. -/
def sharedFlags (entry : Entry) : Flags :=
  if needsCow entry then { entry.protection with write := false, copyOnWrite := true }
  else entry.protection

/-- The copy-on-write path of `fork_address_space`, once the reference is taken. -/
def forkCow (p : Pmm) (parent child : Space) (page : Nat) (entry : Entry) :
    Pmm × Space × Space × Bool :=
  let r := mapInto p child page entry.frame (sharedFlags entry)
  if r.2.2 then
    (r.1, if needsCow entry then
        parent.setPage page { entry with write := false, copyOnWrite := true }
      else parent, r.2.1, true)
  else (r.1.release entry.frame, parent, r.2.1, false)

/-- The body of the innermost loop of `fork_address_space`. -/
def forkPage (p : Pmm) (parent child : Space) (page : Nat) : Pmm × Space × Space × Bool :=
  match parent.pages.get page with
  | none => (p, parent, child, true)
  | some entry =>
    if !entry.present then
      if entry.lazy then
        let r := walkMaking p child page
        if r.2.2 then (r.1, parent, r.2.1.setPage page entry, true)
        else (r.1, parent, r.2.1, false)
      else (p, parent, child, true)
    else if entry.shared then
      let r := forkShared p child page entry
      (r.1, parent, r.2.1, r.2.2)
    else
      let q := p.share entry.frame
      if q.2 then forkCow q.1 parent child page entry
      else
        let r := forkCopy q.1 child page entry
        (r.1, parent, r.2.1, r.2.2)

/-- The loops of `fork_address_space` over the parent's entries, up to the first failure. -/
def forkPages (p : Pmm) (parent child : Space) : List Nat → Pmm × Space × Space × Bool
  | [] => (p, parent, child, true)
  | page :: rest =>
    let r := forkPage p parent child page
    if r.2.2.2 then forkPages r.1 r.2.1 r.2.2.1 rest else r

/-- `fork_address_space`: the parent as it is left, and the child. -/
def fork (p : Pmm) (parent : Space) : Pmm × Space × Option Space :=
  let c := create p
  match c.2 with
  | none => (c.1, parent, none)
  | some child =>
    let r := forkPages c.1 parent child parent.pages.keys
    if r.2.2.2 then (r.1, r.2.1, some r.2.2.1) else (destroy r.1 r.2.2.1, r.2.1, none)

/-! ### What the small functions can do -/

variable {found mapped : Bool} {p p' : Pmm} {tables tables' : Assoc Nat} {flags : Flags}
  {frame page : Nat} {child child' parent parent' s s' : Space} {entry : Entry}

/-- `next_level` finds the table, or builds it, or runs out of memory. -/
theorem nextLevel_cases {index : Nat} (hNext : nextLevel p tables index = (p', tables', found)) :
    (found = true ∧ p' = p ∧ tables' = tables) ∨
      (found = false ∧ tables' = tables ∧ p.alloc = (0, p')) ∨
      ∃ frame q, found = true ∧ tables.get index = none ∧ frame ≠ 0 ∧ p.alloc = (frame, q) ∧
        p' = q.fillFrame frame zeros ∧ tables' = tables.set index frame := by
  unfold nextLevel allocTable at hNext
  split at hNext
  · cases hNext
    exact .inl ⟨rfl, rfl, rfl⟩
  next hNone =>
    by_cases hZero : p.alloc.1 = 0
    · simp only [if_pos hZero] at hNext
      cases hNext
      exact .inr (.inl ⟨rfl, rfl, Prod.ext hZero rfl⟩)
    · simp only [if_neg hZero] at hNext
      cases hNext
      exact .inr (.inr ⟨_, _, rfl, hNone, hZero, rfl, rfl, rfl⟩)

/-- `map_into` walks, and writes the entry if it got there. -/
theorem mapInto_cases (hMap : mapInto p s page frame flags = (p', s', mapped)) :
    ∃ t, walkMaking p s page = (p', t, mapped) ∧
      s' = if mapped then t.setPage page (Entry.leaf frame flags) else t := by
  unfold mapInto at hMap
  generalize walkMaking p s page = r at hMap ⊢
  obtain ⟨q, t, found⟩ := r
  cases found with
  | false | true =>
    cases hMap
    exact ⟨_, rfl, rfl⟩

/-- A walk leaves the entries alone. -/
theorem walkMaking_pages (hWalk : walkMaking p s page = (p', s', found)) :
    s'.pages = s.pages := by
  cases hWalk
  rfl

/-- After `map_into` the page has the entry asked for and the other pages are as before;
after a failed one all are. -/
theorem mapInto_pages (hMap : mapInto p s page frame flags = (p', s', mapped)) :
    s'.pages = if mapped then s.pages.set page (Entry.leaf frame flags) else s.pages := by
  obtain ⟨t, hWalk, rfl⟩ := mapInto_cases hMap
  have hPages := walkMaking_pages hWalk
  cases mapped with
  | false => exact hPages
  | true => exact congrArg (fun m : Assoc Entry => m.set page (Entry.leaf frame flags)) hPages

variable {indices : List Nat} {w : Nat}

theorem walk_extends (hWalk : walk p tables indices = (p', tables', found)) :
    p.Extends p' := by
  induction indices generalizing p tables with
  | nil =>
    cases hWalk
    exact Pmm.Extends.refl _
  | cons index below ih =>
    unfold walk at hWalk
    generalize hNext : nextLevel p tables index = r at hWalk
    obtain ⟨q, tables₁, found₁⟩ := r
    have hLevel : p.Extends q := by
      rcases nextLevel_cases hNext with ⟨-, rfl, -⟩ | ⟨-, -, hAlloc⟩ |
        ⟨frame, q', -, -, hFrame, hAlloc, rfl, -⟩
      · exact Pmm.Extends.refl _
      · exact Pmm.extends_alloc hAlloc
      · exact Pmm.extends_alloc_fill hAlloc hFrame zeros
    cases found₁ with
    | false =>
      cases hWalk
      exact hLevel
    | true => exact hLevel.trans (ih hWalk)

theorem walkMaking_extends (hWalk : walkMaking p s page = (p', s', found)) : p.Extends p' := by
  cases hWalk
  exact walk_extends rfl

theorem mapInto_extends (hMap : mapInto p s page frame flags = (p', s', mapped)) :
    p.Extends p' := by
  obtain ⟨t, hWalk, -⟩ := mapInto_cases hMap
  exact walkMaking_extends hWalk

/-- With a clear bit for every table that may be missing, a walk gets there. -/
theorem walk_true (hWalk : walk p tables indices = (p', tables', found)) (hZero : p.test 0 = true)
    (hRoom : indices.length ≤ p.clear) :
    found = true ∧ p.clear ≤ p'.clear + indices.length ∧ p'.test 0 = true := by
  induction indices generalizing p tables with
  | nil =>
    cases hWalk
    exact ⟨rfl, Nat.le_add_right _ _, hZero⟩
  | cons index below ih =>
    rw [length_cons] at hRoom ⊢
    unfold walk at hWalk
    generalize hNext : nextLevel p tables index = r at hWalk
    obtain ⟨q, tables₁, found₁⟩ := r
    rcases nextLevel_cases hNext with ⟨rfl, rfl, -⟩ | ⟨-, -, hAlloc⟩ |
      ⟨frame, q', rfl, -, hFrame, hAlloc, rfl, -⟩
    · have hWalk : walk q tables₁ below = (p', tables', found) := hWalk
      obtain ⟨hFound, hLeft, hZero'⟩ := ih hWalk hZero (by omega)
      exact ⟨hFound, by omega, hZero'⟩
    · exact absurd rfl (Pmm.alloc_ne_zero hZero (by omega) hAlloc)
    · have hWalk : walk (q'.fillFrame frame zeros) tables₁ below = (p', tables', found) := hWalk
      have hTaken : (q'.fillFrame frame zeros).clear + 1 = p.clear := by
        have hSame : (q'.fillFrame frame zeros).clear = q'.clear := Pmm.clear_congr rfl rfl
        rw [hSame]
        exact Pmm.clear_alloc hAlloc hFrame
      have hZero' : (q'.fillFrame frame zeros).test 0 = true :=
        ((Pmm.extends_alloc hAlloc).kept 0 hZero).1
      obtain ⟨hFound, hLeft, hZero''⟩ := ih hWalk hZero' (by omega)
      exact ⟨hFound, by omega, hZero''⟩

theorem mapInto_true (hMap : mapInto p s page frame flags = (p', s', mapped))
    (hZero : p.test 0 = true) (hRoom : 3 ≤ p.clear) :
    mapped = true ∧ p.clear ≤ p'.clear + 3 ∧ p'.test 0 = true := by
  obtain ⟨t, hWalk, -⟩ := mapInto_cases hMap
  cases hWalk
  exact walk_true rfl hZero hRoom

/-- A new address space maps nothing. -/
theorem create_some (hCreate : create p = (p', some s)) :
    p.Extends p' ∧ s.pages = Assoc.empty := by
  unfold create allocTable at hCreate
  by_cases hZero : p.alloc.1 = 0
  · simp only [if_pos hZero] at hCreate
    cases hCreate
  · simp only [if_neg hZero] at hCreate
    cases hCreate
    exact ⟨Pmm.extends_alloc_fill rfl hZero zeros, rfl⟩

/-- What a successful turn of the loop of `fork_address_space` can do. -/
inductive ForkedPage (p : Pmm) (parent child : Space) (page : Nat) : Pmm → Space → Space → Prop
  | nothing (hAbsent : ∀ e, parent.pages.get page = some e → e.present = false ∧ e.lazy = false) :
      ForkedPage p parent child page p parent child
  | reserved {p' : Pmm} {t : Space} {entry : Entry} (hGet : parent.pages.get page = some entry)
      (hPresent : entry.present = false) (hLazy : entry.lazy = true)
      (hWalk : walkMaking p child page = (p', t, true)) :
      ForkedPage p parent child page p' parent (t.setPage page entry)
  | shared {q p' : Pmm} {child' : Space} {entry : Entry} {taken : Bool}
      (hGet : parent.pages.get page = some entry) (hPresent : entry.present = true)
      (hShared : entry.shared = true) (hShare : p.share entry.frame = (q, taken))
      (hMap : mapInto q child page entry.frame (passedFlags entry) = (p', child', true)) :
      ForkedPage p parent child page p' parent child'
  | cow {q p' : Pmm} {child' : Space} {entry : Entry} (hGet : parent.pages.get page = some entry)
      (hPresent : entry.present = true) (hShared : entry.shared = false)
      (hShare : p.share entry.frame = (q, true))
      (hMap : mapInto q child page entry.frame (sharedFlags entry) = (p', child', true)) :
      ForkedPage p parent child page p'
        (if needsCow entry then
          parent.setPage page { entry with write := false, copyOnWrite := true }
        else parent) child'
  | copy {q p' : Pmm} {child' : Space} {entry : Entry} {frame : Nat}
      (hGet : parent.pages.get page = some entry) (hPresent : entry.present = true)
      (hShared : entry.shared = false) (hShare : p.share entry.frame = (p, false))
      (hFrame : frame ≠ 0) (hAlloc : p.alloc = (frame, q))
      (hMap : mapInto (q.fillFrame frame (q.mem entry.frame)) child page frame entry.protection =
        (p', child', true)) :
      ForkedPage p parent child page p' parent child'

theorem forkPage_forked (hFork : forkPage p parent child page = (p', parent', child', true)) :
    ForkedPage p parent child page p' parent' child' := by
  simp only [forkPage] at hFork
  split at hFork
  next hNone =>
    cases hFork
    exact .nothing fun e hGet => by rw [hNone] at hGet; cases hGet
  next entry hGet =>
    split at hFork
    next hPresent =>
      have hPresent : entry.present = false := by simpa using hPresent
      split at hFork
      next hLazy =>
        generalize hWalk : walkMaking p child page = r at hFork
        obtain ⟨q, t, found⟩ := r
        cases found with
        | false => cases hFork
        | true =>
          cases hFork
          exact .reserved hGet hPresent hLazy hWalk
      next hLazy =>
        cases hFork
        refine .nothing fun e hE => ?_
        rw [hGet] at hE
        cases hE
        exact ⟨hPresent, eq_false_iff.mpr hLazy⟩
    next hPresent =>
      have hPresent : entry.present = true := by simpa using hPresent
      split at hFork
      next hShared =>
        simp only [forkShared] at hFork
        generalize hShare : p.share entry.frame = q at hFork
        obtain ⟨q, taken⟩ := q
        generalize hMap : mapInto q child page entry.frame (passedFlags entry) = r at hFork
        obtain ⟨p₁, s, mapped⟩ := r
        cases mapped with
        | false => cases hFork
        | true =>
          cases hFork
          exact .shared hGet hPresent hShared hShare hMap
      next hShared =>
        have hShared : entry.shared = false := eq_false_iff.mpr hShared
        generalize hShare : p.share entry.frame = q at hFork
        obtain ⟨q, taken⟩ := q
        cases taken with
        | true =>
          simp only [forkCow, if_true] at hFork
          generalize hMap : mapInto q child page entry.frame (sharedFlags entry) = r at hFork
          obtain ⟨p₁, s, mapped⟩ := r
          cases mapped with
          | false => cases hFork
          | true =>
            cases hFork
            exact .cow hGet hPresent hShared hShare hMap
        | false =>
          obtain ⟨rfl, -⟩ := Pmm.share_false hShare
          simp only [forkCopy, false_eq_true, if_false] at hFork
          generalize hAlloc : q.alloc = a at hFork
          obtain ⟨frame, p₁⟩ := a
          by_cases hFrame : frame = 0
          · simp only [if_pos hFrame] at hFork
            cases hFork
          · simp only [if_neg hFrame] at hFork
            generalize hMap : mapInto (p₁.fillFrame frame (p₁.mem entry.frame)) child page frame
              entry.protection = r at hFork
            obtain ⟨p₂, s, mapped⟩ := r
            cases mapped with
            | false => cases hFork
            | true =>
              cases hFork
              exact .copy hGet hPresent hShared hShare hFrame hAlloc hMap

theorem mapInto_get_of_ne (hMap : mapInto p s page frame flags = (p', s', mapped)) (hw : w ≠ page) :
    s'.pages.get w = s.pages.get w := by
  rw [mapInto_pages hMap]
  split
  · exact s.pages.get_set_of_ne _ hw
  · rfl

/-- A turn of the loop touches one page of either space. -/
theorem ForkedPage.get_of_ne (hForked : ForkedPage p parent child page p' parent' child')
    (hw : w ≠ page) :
    parent'.pages.get w = parent.pages.get w ∧ child'.pages.get w = child.pages.get w := by
  cases hForked with
  | nothing => exact ⟨rfl, rfl⟩
  | reserved hGet hPresent hLazy hWalk =>
    refine ⟨rfl, ?_⟩
    rw [← walkMaking_pages hWalk]
    exact Assoc.get_set_of_ne _ _ hw
  | shared hGet hPresent hShared hShare hMap => exact ⟨rfl, mapInto_get_of_ne hMap hw⟩
  | cow hGet hPresent hShared hShare hMap =>
    refine ⟨?_, mapInto_get_of_ne hMap hw⟩
    split
    · exact Assoc.get_set_of_ne _ _ hw
    · rfl
  | copy hGet hPresent hShared hShare hFrame hAlloc hMap =>
    exact ⟨rfl, mapInto_get_of_ne hMap hw⟩

/-- Whether a page maps a frame. -/
def mapsTo (s : Space) (frame page : Nat) : Bool :=
  (s.pages.get page).any fun e => e.present && e.frame == frame

/-- A turn of the loop takes at most one reference, to the frame of its page. -/
theorem ForkedPage.shareable {n : Nat} (hForked : ForkedPage p parent child page p' parent' child')
    (hRoom : p.Shareable frame (n + if parent.mapsTo frame page then 1 else 0)) :
    p'.Shareable frame n := by
  have hLess : ∀ {q : Pmm} {m : Nat}, n ≤ m → q.Shareable frame m → q.Shareable frame n :=
    fun hLe hFit => ⟨hFit.1, hFit.2.1, by have := hFit.2.2; omega⟩
  have hMaps : ∀ {e : Entry}, parent.pages.get page = some e → e.present = true →
      (parent.mapsTo frame page = true ↔ frame = e.frame) := by
    intro e hGet hPresent
    rw [mapsTo, hGet, Option.any_some, hPresent, Bool.true_and, beq_iff_eq]
    exact eq_comm
  cases hForked with
  | nothing => exact hLess (Nat.le_add_right _ _) hRoom
  | reserved hGet hPresent hLazy hWalk =>
    exact (walkMaking_extends hWalk).refs.shareable (hLess (Nat.le_add_right _ _) hRoom)
  | shared hGet hPresent hShared hShare hMap | cow hGet hPresent hShared hShare hMap =>
    simp only [hMaps hGet hPresent] at hRoom
    exact (mapInto_extends hMap).refs.shareable (hRoom.share hShare)
  | copy hGet hPresent hShared hShare hFrame hAlloc hMap =>
    exact ((Pmm.extends_alloc_fill hAlloc hFrame _).trans (mapInto_extends hMap)).refs.shareable
      (hLess (Nat.le_add_right _ _) hRoom)

/-! ### The leaves and the tables of a space -/

/-- The present leaf an entry is, if it is one. -/
def leafOf (entry : Entry) : Multiset Entry := if entry.present then {entry} else 0

/-- The present leaves of a space. -/
def leaves (s : Space) : Multiset Entry := s.pages.total leafOf

/-- The frames a space maps, as often as it maps them. -/
def refs (s : Space) : Multiset Nat := s.leaves.map (·.frame)

/-- The frames of the tables of a space. -/
def own (s : Space) : Multiset Nat := {s.pml4} + s.tables.total fun frame => {frame}

@[simp] theorem leafOf_leaf (frame : Nat) (flags : Flags) :
    leafOf (Entry.leaf frame flags) = {Entry.leaf frame flags} := rfl

theorem leafOf_present (hPresent : entry.present = true) :
    leafOf entry = {entry} := if_pos hPresent

theorem leafOf_absent (hPresent : entry.present = false) : leafOf entry = 0 := by
  rw [leafOf, hPresent]
  rfl

/-- The leaf at a page, none where nothing is present. -/
def leafAt (s : Space) (page : Nat) : Multiset Entry := Assoc.weight leafOf s.pages page

theorem leafAt_of_get (hGet : s.pages.get page = some entry) : s.leafAt page = leafOf entry :=
  Assoc.weight_of_some hGet

theorem leafAt_of_none (hGet : s.pages.get page = none) :
    s.leafAt page = 0 :=
  Assoc.weight_of_none hGet

theorem leaves_eq (s : Space) (page : Nat) : s.leaves = (s.unmap page).leaves + s.leafAt page :=
  (Assoc.total_erase leafOf s.pages page).symm

theorem leaves_setPage (s : Space) (page : Nat) (entry : Entry) :
    (s.setPage page entry).leaves = (s.unmap page).leaves + leafOf entry :=
  Assoc.total_set leafOf s.pages page entry

theorem mem_leaves {entry : Entry} (hGet : s.pages.get page = some entry)
    (hPresent : entry.present = true) : entry ∈ s.leaves := by
  refine Assoc.mem_total hGet ?_
  rw [leafOf_present hPresent]
  exact Multiset.mem_singleton_self entry

theorem coe_leafFrames (s : Space) : (s.leafFrames : Multiset Nat) = s.refs := by
  have hSum : ∀ l : List Entry, (((l.filter (·.present)).map (·.frame) : List Nat) : Multiset Nat) =
        (l.map leafOf).sum.map (·.frame) := by
    intro l
    induction l with
    | nil => rfl
    | cons e rest ih =>
      rw [map_cons, sum_cons, Multiset.map_add, ← ih]
      by_cases hPresent : e.present = true
      · rw [filter_cons_of_pos hPresent, leafOf_present hPresent]
        rfl
      · rw [filter_cons_of_neg hPresent, leafOf_absent (eq_false_iff.mpr hPresent),
          Multiset.map_zero, zero_add]
  exact hSum s.pages.values

theorem coe_values (tables : Assoc Nat) :
    (tables.values : Multiset Nat) = tables.total fun frame => {frame} := by
  have hSum : ∀ l : List Nat,
      (l : Multiset Nat) = (l.map fun frame => ({frame} : Multiset Nat)).sum := by
    intro l
    induction l with
    | nil => rfl
    | cons frame rest ih =>
      rw [map_cons, sum_cons, ← ih]
      rfl
  exact hSum tables.values

end Space
end LeahOS.Mm
