import LeahOS.Mm.Vmm
import Mathlib.Logic.Relation

/-!
# The books of the frame allocator

What every function of the memory manager does to the allocator is said here once, as a
sequence of moves on the books: the allocator, the references to frames that are out
(`refs`: one for every present leaf and for every holder), and the frames the kernel keeps
to itself (`own`: page tables, and frames it has allocated and not handed on yet).

Most moves keep references and counts in step. The ones that do not are faults: a second
mapping without a second reference (`again`), a mapping of a frame that came from nowhere
(`device`), a reference dropped without a release (`lost`), a frame freed whoever refers
to it (`wild`). `Moves ok` allows only the faults that meet `ok`, so each result
about the allocator says which faults it can live with and is proved once for each move.

Moves do not look at what they do not touch (`Moves.frame`), so a function is specified on
the books of its own space alone.
-/

namespace LeahOS.Mm
open Lib List Multiset

/-- A way for references and counts to come apart. -/
inductive Fault
  | again (frame : Nat)
  | device (frame : Nat)
  | lost (frame : Nat)
  | wild (frame : Nat)

/-- The allocator, the references that are out, and the frames the kernel keeps. -/
structure Books where
  pmm : Pmm
  refs : Multiset Nat
  own : Multiset Nat

/-- One move on the books; faults are allowed where they meet `ok`. -/
inductive Move (ok : Fault → Prop) : Books → Books → Prop
  | alloc {p p' : Pmm} {R T : Multiset Nat} {frame : Nat} (hAlloc : p.alloc = (frame, p'))
      (hFrame : frame ≠ 0) : Move ok ⟨p, R, T⟩ ⟨p', R, {frame} + T⟩
  | contiguous {p p' : Pmm} {R T : Multiset Nat} {n start : Nat}
      (hAlloc : p.allocContiguous n = (start, p')) (hStart : start ≠ 0) :
      Move ok ⟨p, R, T⟩ ⟨p', R, ↑(List.range' start n) + T⟩
  | full {p p' : Pmm} {R T : Multiset Nat} (hAlloc : p.alloc = (0, p')) :
      Move ok ⟨p, R, T⟩ ⟨p', R, T⟩
  | fullRun {p p' : Pmm} {R T : Multiset Nat} {n : Nat} (hAlloc : p.allocContiguous n = (0, p')) :
      Move ok ⟨p, R, T⟩ ⟨p', R, T⟩
  | fill {p : Pmm} {R T : Multiset Nat} (frame : Nat) (page : Page) :
      Move ok ⟨p, R, T⟩ ⟨p.fillFrame frame page, R, T⟩
  | free {p : Pmm} {R T T' : Multiset Nat} {frame : Nat} (hOwn : T = {frame} + T') :
      Move ok ⟨p, R, T⟩ ⟨p.free frame, R, T'⟩
  | publish {p : Pmm} {R T T' : Multiset Nat} {frame : Nat} (hOwn : T = {frame} + T') :
      Move ok ⟨p, R, T⟩ ⟨p, {frame} + R, T'⟩
  | share {p p' : Pmm} {R T : Multiset Nat} {frame : Nat} (hShare : p.share frame = (p', true))
      (hFrame : frame ∈ R) : Move ok ⟨p, R, T⟩ ⟨p', {frame} + R, T⟩
  | release {p : Pmm} {R R' T : Multiset Nat} {frame : Nat} (hRefs : R = {frame} + R') :
      Move ok ⟨p, R, T⟩ ⟨p.release frame, R', T⟩
  | again {p : Pmm} {R T : Multiset Nat} {frame : Nat} (hFrame : frame ∈ R)
      (hOk : ok (.again frame)) : Move ok ⟨p, R, T⟩ ⟨p, {frame} + R, T⟩
  | device {p : Pmm} {R T : Multiset Nat} {frame : Nat} (hOk : ok (.device frame)) :
      Move ok ⟨p, R, T⟩ ⟨p, {frame} + R, T⟩
  | lost {p : Pmm} {R R' T : Multiset Nat} {frame : Nat} (hRefs : R = {frame} + R')
      (hOk : ok (.lost frame)) : Move ok ⟨p, R, T⟩ ⟨p, R', T⟩
  | wild {p : Pmm} {R T : Multiset Nat} {frame : Nat} (hOk : ok (.wild frame)) :
      Move ok ⟨p, R, T⟩ ⟨p.free frame, R, T⟩

/-- Any number of moves. -/
def Moves (ok : Fault → Prop) : Books → Books → Prop := Relation.ReflTransGen (Move ok)

variable {ok : Fault → Prop}

theorem Moves.refl (b : Books) : Moves ok b b := Relation.ReflTransGen.refl

variable {b b' : Books}

theorem Moves.trans {b'' : Books} (hFirst : Moves ok b b') (hThen : Moves ok b' b'') :
    Moves ok b b'' := Relation.ReflTransGen.trans hFirst hThen

theorem Move.moves (hMove : Move ok b b') : Moves ok b b' :=
  Relation.ReflTransGen.single hMove

/-- What every move preserves, any number of moves preserve. -/
theorem Moves.invariant {Inv : Books → Prop} (hMove : ∀ b b', Inv b → Move ok b b' → Inv b')
    (hMoves : Moves ok b b') (hInv : Inv b) : Inv b' := by
  induction hMoves with
  | refl => exact hInv
  | tail _ hLast ih => exact hMove _ _ ih hLast

/-- Books with more in them. -/
def Books.frame (b : Books) (R T : Multiset Nat) : Books := ⟨b.pmm, b.refs + R, b.own + T⟩

theorem Move.frame (hMove : Move ok b b') (X Y : Multiset Nat) :
    Move ok (b.frame X Y) (b'.frame X Y) := by
  cases hMove with
  | alloc hAlloc hFrame =>
    simp only [Books.frame, add_assoc]
    exact .alloc hAlloc hFrame
  | contiguous hAlloc hStart =>
    simp only [Books.frame, add_assoc]
    exact .contiguous hAlloc hStart
  | full hAlloc => exact .full hAlloc
  | fullRun hAlloc => exact .fullRun hAlloc
  | fill frame page => exact .fill frame page
  | free hOwn => exact .free (by rw [hOwn, add_assoc])
  | publish hOwn =>
    simp only [Books.frame, add_assoc]
    exact .publish (by rw [hOwn, add_assoc])
  | share hShare hFrame =>
    simp only [Books.frame, add_assoc]
    exact .share hShare (mem_add.mpr (.inl hFrame))
  | release hRefs => exact .release (by rw [hRefs, add_assoc])
  | again hFrame hOk =>
    simp only [Books.frame, add_assoc]
    exact .again (mem_add.mpr (.inl hFrame)) hOk
  | device hOk =>
    simp only [Books.frame, add_assoc]
    exact .device hOk
  | lost hRefs hOk => exact .lost (by rw [hRefs, add_assoc]) hOk
  | wild hOk => exact .wild hOk

/-- The rest of the books is not looked at. -/
theorem Moves.frame (hMoves : Moves ok b b') (X Y : Multiset Nat) :
    Moves ok (b.frame X Y) (b'.frame X Y) := by
  induction hMoves with
  | refl => exact .refl _
  | tail _ hLast ih => exact ih.trans (hLast.frame X Y).moves

/-- The frame rule with the books written in any order. -/
theorem Moves.framed {p p' : Pmm} {R R' T T' R₁ R₁' T₁ T₁' : Multiset Nat}
    (hMoves : Moves ok ⟨p, R, T⟩ ⟨p', R', T'⟩) (X Y : Multiset Nat) (hR : R₁ = R + X)
    (hT : T₁ = T + Y) (hR' : R₁' = R' + X) (hT' : T₁' = T' + Y) :
    Moves ok ⟨p, R₁, T₁⟩ ⟨p', R₁', T₁'⟩ := by
  subst hR hT hR' hT'
  exact hMoves.frame X Y

/-! ### Lists of frames -/

/-- Frame after frame, of books that hold those still to come. -/
theorem moves_foldl {f : Pmm → Nat → Pmm} {l : List Nat} (books : Pmm → Multiset Nat → Books)
    (hOne : ∀ p, ∀ frame ∈ l, ∀ X, Move ok (books p ({frame} + X)) (books (f p frame) X)) (p : Pmm) :
    Moves ok (books p ↑l) (books (l.foldl f p) 0) := by
  induction l generalizing p with
  | nil => exact .refl _
  | cons frame rest ih =>
    exact (hOne p frame List.mem_cons_self _).moves.trans
      (ih (fun p g hg => hOne p g (List.mem_cons_of_mem frame hg)) (f p frame))

theorem moves_releaseAll (p : Pmm) (l : List Nat) (R T : Multiset Nat) :
    Moves ok ⟨p, ↑l + R, T⟩ ⟨l.foldl Pmm.release p, R, T⟩ := by
  simpa only [zero_add] using
    moves_foldl (fun p X => ⟨p, X + R, T⟩) (fun _ _ _ _ => .release (add_assoc _ _ _)) p

theorem moves_freeAll (p : Pmm) (l : List Nat) (R T : Multiset Nat) :
    Moves ok ⟨p, R, ↑l + T⟩ ⟨l.foldl Pmm.free p, R, T⟩ := by
  simpa only [zero_add] using
    moves_foldl (fun p X => ⟨p, R, X + T⟩) (fun _ _ _ _ => .free (add_assoc _ _ _)) p

theorem moves_publishAll (p : Pmm) (l : List Nat) (R T : Multiset Nat) :
    Moves ok ⟨p, R, ↑l + T⟩ ⟨p, ↑l + R, T⟩ := by
  induction l generalizing R with
  | nil =>
    rw [coe_nil, zero_add, zero_add]
    exact .refl _
  | cons frame rest ih =>
    rw [← cons_coe, ← singleton_add]
    refine Moves.trans (Move.moves (Move.publish (add_assoc _ _ _))) ?_
    rw [add_comm {frame} (rest : Multiset Nat), add_assoc]
    exact ih ({frame} + R)

theorem moves_lostAll (p : Pmm) (l : List Nat) (R T : Multiset Nat)
    (hOk : ∀ frame ∈ l, ok (.lost frame)) : Moves ok ⟨p, ↑l + R, T⟩ ⟨p, R, T⟩ := by
  simpa only [zero_add, foldl_fixed] using moves_foldl (f := fun p _ => p)
    (fun p X => ⟨p, X + R, T⟩) (fun _ frame hg _ => .lost (add_assoc _ _ _) (hOk frame hg)) p

theorem moves_deviceAll (p : Pmm) (l : List Nat) (R T : Multiset Nat)
    (hOk : ∀ frame ∈ l, ok (.device frame)) : Moves ok ⟨p, R, T⟩ ⟨p, ↑l + R, T⟩ := by
  induction l with
  | nil =>
    rw [coe_nil, zero_add]
    exact .refl _
  | cons frame rest ih =>
    rw [← cons_coe, ← singleton_add, add_assoc]
    exact .trans (ih fun g hg => hOk g (List.mem_cons_of_mem frame hg))
      (Move.moves (Move.device (hOk frame List.mem_cons_self)))

theorem moves_wildAll (p : Pmm) (l : List Nat) (R T : Multiset Nat)
    (hOk : ∀ frame ∈ l, ok (.wild frame)) :
    Moves ok ⟨p, R, T⟩ ⟨l.foldl Pmm.free p, R, T⟩ :=
  moves_foldl (fun p _ => ⟨p, R, T⟩) (fun _ frame hg _ => .wild (hOk frame hg)) p

namespace Space

theorem refs_eq (s : Space) (page : Nat) :
    s.refs = (s.unmap page).refs + (s.leafAt page).map (·.frame) := by
  rw [refs, s.leaves_eq page, Multiset.map_add]
  rfl

theorem refs_setPage (s : Space) (page : Nat) (entry : Entry) :
    (s.setPage page entry).refs = (s.unmap page).refs + (leafOf entry).map (·.frame) := by
  rw [refs, leaves_setPage, Multiset.map_add]
  rfl

variable {frame page : Nat} {child child' parent parent' s s' : Space} {entry : Entry}
  {done found : Bool} {p p' : Pmm} {flags : Flags}

/-- Where nothing is present, an entry adds its own frame. -/
theorem refs_setPage_of_absent (entry : Entry) (hAbsent : s.leafAt page = 0) :
    (s.setPage page entry).refs = s.refs + (leafOf entry).map (·.frame) := by
  rw [refs_setPage, s.refs_eq page, hAbsent, Multiset.map_zero, add_zero]

/-- An entry that maps the frame that was there before changes no reference. -/
theorem refs_setPage_same (entry' : Entry) (hGet : s.pages.get page = some entry)
    (hPresent : entry'.present = entry.present) (hFrame : entry'.frame = entry.frame) :
    (s.setPage page entry').refs = s.refs := by
  rw [refs_setPage, s.refs_eq page, leafAt_of_get hGet, leafOf, leafOf, hPresent]
  split
  · rw [Multiset.map_singleton, Multiset.map_singleton, hFrame]
  · rfl

theorem leafAt_eq_zero (hAbsent : ∀ e, s.pages.get page = some e → e.present = false) :
    s.leafAt page = 0 := by
  cases hGet : s.pages.get page with
  | none => exact leafAt_of_none hGet
  | some e => rw [leafAt_of_get hGet, leafOf_absent (hAbsent e hGet)]

theorem frame_mem_refs (hGet : s.pages.get page = some entry) (hPresent : entry.present = true) :
    entry.frame ∈ s.refs := by
  rw [s.refs_eq page, leafAt_of_get hGet, leafOf_present hPresent]
  exact mem_add.mpr (.inr (Multiset.mem_singleton_self _))

variable {tables tables' : Assoc Nat} {made : Option Space} {rest : List Nat}

theorem moves_nextLevel {index : Nat} (hNext : nextLevel p tables index = (p', tables', found)) :
    Moves ok ⟨p, 0, tables.total fun frame => {frame}⟩
      ⟨p', 0, tables'.total fun frame => {frame}⟩ := by
  rcases nextLevel_cases hNext with ⟨-, rfl, rfl⟩ | ⟨-, rfl, hAlloc⟩ |
    ⟨frame, q, -, hNone, hFrame, hAlloc, rfl, rfl⟩
  · exact .refl _
  · exact (Move.full hAlloc).moves
  · rw [Assoc.total_set_of_none _ hNone]
    exact Moves.trans (Move.alloc hAlloc hFrame).moves (Move.fill frame zeros).moves

theorem moves_walk {indices : List Nat} (hWalk : walk p tables indices = (p', tables', found)) :
    Moves ok ⟨p, 0, tables.total fun frame => {frame}⟩
      ⟨p', 0, tables'.total fun frame => {frame}⟩ := by
  induction indices generalizing p tables with
  | nil =>
    cases hWalk
    exact .refl _
  | cons index below ih =>
    unfold walk at hWalk
    generalize hNext : nextLevel p tables index = r at hWalk
    obtain ⟨q, tables₁, found₁⟩ := r
    cases found₁ with
    | false =>
      cases hWalk
      exact moves_nextLevel hNext
    | true => exact (moves_nextLevel hNext).trans (ih hWalk)

/-- A walk only adds to the tables. -/
theorem moves_walkMaking (hWalk : walkMaking p s page = (p', s', found)) (R : Multiset Nat) :
    Moves ok ⟨p, R, s.own⟩ ⟨p', R, s'.own⟩ := by
  cases hWalk
  exact (moves_walk rfl).framed R {s.pml4} (zero_add _).symm (add_comm _ _) (zero_add _).symm
    (add_comm _ _)

theorem refs_walkMaking (hWalk : walkMaking p s page = (p', s', found)) : s'.refs = s.refs := by
  cases hWalk
  rfl

/-- Another frame in the place of one. -/
theorem refs_replace (hGet : s.pages.get page = some entry) (hPresent : entry.present = true)
    (frame : Nat) (flags : Flags) :
    {frame} + s.refs = {entry.frame} + (s.setPage page (Entry.leaf frame flags)).refs := by
  rw [refs_setPage, s.refs_eq page, leafAt_of_get hGet, leafOf_present hPresent, leafOf_leaf,
    Multiset.map_singleton, Multiset.map_singleton, Entry.leaf_frame]
  abel

/-- A reference in hand becomes the mapping of its frame; if something was present at the
page its reference is lost. -/
theorem moves_mapInto (hMap : mapInto p s page frame flags = (p', s', true))
    (hLost : ∀ e, s.pages.get page = some e → e.present = true → ok (.lost e.frame))
    (R : Multiset Nat) :
    Moves ok ⟨p, {frame} + (R + s.refs), s.own⟩ ⟨p', R + s'.refs, s'.own⟩ := by
  obtain ⟨t, hWalk, rfl⟩ := mapInto_cases hMap
  rw [if_pos rfl]
  have hPages := walkMaking_pages hWalk
  refine (moves_walkMaking hWalk _).trans ?_
  rw [← refs_walkMaking hWalk]
  have hOwn : (t.setPage page (Entry.leaf frame flags)).own = t.own := rfl
  rw [hOwn, add_left_comm]
  by_cases hOld : ∃ e, t.pages.get page = some e ∧ e.present = true
  · obtain ⟨e, hGet, hPresent⟩ := hOld
    refine Move.moves (Move.lost ?_ (hLost e (hPages ▸ hGet) hPresent))
    rw [refs_replace hGet hPresent frame flags, add_left_comm]
  · have hAbsent : t.leafAt page = 0 := leafAt_eq_zero fun e hGet =>
      Bool.eq_false_iff.mpr fun hPresent => hOld ⟨e, hGet, hPresent⟩
    rw [refs_setPage_of_absent _ hAbsent, leafOf_leaf, Multiset.map_singleton,
      add_comm _ ({_} : Multiset Nat)]
    exact .refl _

theorem moves_mapInto_fail (hMap : mapInto p s page frame flags = (p', s', false))
    (R : Multiset Nat) :
    Moves ok ⟨p, R + s.refs, s.own⟩ ⟨p', R + s'.refs, s'.own⟩ := by
  obtain ⟨t, hWalk, rfl⟩ := mapInto_cases hMap
  rw [refs_walkMaking hWalk]
  exact moves_walkMaking hWalk _

theorem moves_reserve (hReserve : reserve p s page flags = (p', s', done)) :
    Moves ok ⟨p, s.refs, s.own⟩ ⟨p', s'.refs, s'.own⟩ := by
  unfold reserve at hReserve
  generalize hWalk : walkMaking p s page = r at hReserve
  obtain ⟨q, t, found⟩ := r
  have hWalked : Moves ok ⟨p, s.refs, s.own⟩ ⟨q, s.refs, t.own⟩ := moves_walkMaking hWalk _
  rw [← refs_walkMaking hWalk] at hWalked ⊢
  cases found with
  | false =>
    cases hReserve
    exact hWalked
  | true =>
    simp only [if_true] at hReserve
    split at hReserve
    · cases hReserve
      exact hWalked
    next hNot =>
      cases hReserve
      have hAbsent : t.leafAt page = 0 := leafAt_eq_zero fun e hGet => by
        rw [hGet] at hNot
        simpa using hNot
      rw [refs_setPage_of_absent _ hAbsent, leafOf_absent rfl, Multiset.map_zero, add_zero]
      exact hWalked

theorem moves_handleLazyFault (hFault : handleLazyFault p s page = (p', s', done))
    (T : Multiset Nat) :
    Moves ok ⟨p, s.refs, T⟩ ⟨p', s'.refs, T⟩ ∧ s'.own = s.own := by
  unfold handleLazyFault at hFault
  split at hFault
  · cases hFault
    exact ⟨.refl _, rfl⟩
  next entry hGet =>
    split at hFault
    · cases hFault
      exact ⟨.refl _, rfl⟩
    next hLazy =>
      have hAbsent : s.leafAt page = 0 := by
        rw [leafAt_of_get hGet]
        exact leafOf_absent (Bool.eq_false_iff.mpr fun hPresent => hLazy (.inl hPresent))
      by_cases hZero : p.alloc.1 = 0
      · simp only [if_pos hZero] at hFault
        cases hFault
        exact ⟨(Move.full (Prod.ext hZero rfl)).moves, rfl⟩
      · simp only [if_neg hZero] at hFault
        cases hFault
        refine ⟨?_, rfl⟩
        rw [refs_setPage_of_absent _ hAbsent, leafOf_leaf, Multiset.map_singleton, add_comm]
        exact ((Move.alloc rfl hZero).moves.trans (Move.fill _ _).moves).trans
          (Move.publish rfl).moves

theorem moves_handleCowFault (hFault : handleCowFault p s page = (p', s', done)) (T : Multiset Nat) :
    Moves ok ⟨p, s.refs, T⟩ ⟨p', s'.refs, T⟩ ∧ s'.own = s.own := by
  unfold handleCowFault at hFault
  split at hFault
  · cases hFault
    exact ⟨.refl _, rfl⟩
  next entry hGet =>
    split at hFault
    · cases hFault
      exact ⟨.refl _, rfl⟩
    next hPresent =>
      have hPresent : entry.present = true := by simpa using hPresent
      split at hFault
      · cases hFault
        exact ⟨.refl _, rfl⟩
      split at hFault
      · cases hFault
        exact ⟨.refl _, rfl⟩
      split at hFault
      · cases hFault
        refine ⟨?_, rfl⟩
        rw [refs_setPage_same (Entry.leaf entry.frame (cowFlags entry)) hGet hPresent.symm rfl]
        exact .refl _
      by_cases hZero : p.alloc.1 = 0
      · simp only [if_pos hZero] at hFault
        cases hFault
        exact ⟨(Move.full (Prod.ext hZero rfl)).moves, rfl⟩
      · simp only [if_neg hZero] at hFault
        cases hFault
        refine ⟨?_, rfl⟩
        -- the copy is handed over before the source is let go
        refine ((Move.alloc rfl hZero).moves.trans (Move.fill _ _).moves).trans
          ((Move.publish rfl).moves.trans (Move.release ?_).moves)
        exact refs_replace hGet hPresent p.alloc.1 (cowFlags entry)

theorem moves_create (hCreate : create p = (p', made)) :
    Moves ok ⟨p, 0, 0⟩ ⟨p', (made.elim 0 Space.refs), made.elim 0 Space.own⟩ := by
  unfold create allocTable at hCreate
  by_cases hZero : p.alloc.1 = 0
  · simp only [if_pos hZero] at hCreate
    cases hCreate
    exact (Move.full (Prod.ext hZero rfl)).moves
  · simp only [if_neg hZero] at hCreate
    cases hCreate
    exact (Move.alloc rfl hZero).moves.trans (Move.fill _ _).moves

/-- A space that is torn down gives back every reference and every table. -/
theorem moves_destroy (p : Pmm) (s : Space) :
    Moves ok ⟨p, s.refs, s.own⟩ ⟨destroy p s, 0, 0⟩ := by
  have hRelease : Moves ok ⟨p, s.refs, s.own⟩ ⟨s.leafFrames.foldl Pmm.release p, 0, s.own⟩ := by
    rw [← coe_leafFrames, ← add_zero (s.leafFrames : Multiset Nat)]
    exact moves_releaseAll p s.leafFrames 0 s.own
  refine hRelease.trans ?_
  have hFree : Moves ok ⟨s.leafFrames.foldl Pmm.release p, 0, s.own⟩
      ⟨s.tables.values.foldl Pmm.free (s.leafFrames.foldl Pmm.release p), 0, {s.pml4}⟩ := by
    rw [own, ← coe_values, add_comm]
    exact moves_freeAll _ s.tables.values 0 {s.pml4}
  exact hFree.trans (Move.free (add_zero _).symm).moves

/-- A reference in hand is mapped into an empty page, or released when there is no room. -/
theorem moves_mapOrRelease {mapped : Bool} (hMap : mapInto p s page frame flags = (p', s', mapped))
    (hEmpty : s.pages.get page = none) (R : Multiset Nat) :
    Moves ok ⟨p, {frame} + (R + s.refs), s.own⟩
      ⟨if mapped then p' else p'.release frame, R + s'.refs, s'.own⟩ := by
  cases mapped with
  | true =>
    exact moves_mapInto hMap (fun e hGet => by rw [hEmpty] at hGet; cases hGet) R
  | false =>
    rw [← add_assoc]
    exact (moves_mapInto_fail hMap _).trans (Move.release (add_assoc _ _ _)).moves

theorem moves_forkShared (hFork : forkShared p child page entry = (p', child', done))
    (hEmpty : child.pages.get page = none)
    (hAgain : ok (.again entry.frame) ∨ p.Shareable entry.frame 1) (R : Multiset Nat)
    (hFrame : entry.frame ∈ R) :
    Moves ok ⟨p, R + child.refs, child.own⟩ ⟨p', R + child'.refs, child'.own⟩ := by
  simp only [forkShared] at hFork
  have hMem : entry.frame ∈ R + child.refs := mem_add.mpr (.inl hFrame)
  have hTaken : Moves ok ⟨p, R + child.refs, child.own⟩
      ⟨(p.share entry.frame).1, {entry.frame} + (R + child.refs), child.own⟩ := by
    generalize hShare : p.share entry.frame = q
    obtain ⟨q, taken⟩ := q
    cases taken with
    | true => exact (Move.share hShare hMem).moves
    | false =>
      obtain ⟨rfl, hFull⟩ := Pmm.share_false hShare
      exact (Move.again hMem (hAgain.resolve_right hFull)).moves
  refine hTaken.trans ?_
  generalize hMap : mapInto (p.share entry.frame).1 child page entry.frame (passedFlags entry) = r
    at hFork
  obtain ⟨q, s, mapped⟩ := r
  have hMoves : Moves ok ⟨(p.share entry.frame).1, {entry.frame} + (R + child.refs), child.own⟩
      ⟨if mapped then q else q.release entry.frame, R + s.refs, s.own⟩ :=
    moves_mapOrRelease hMap hEmpty R
  cases mapped with
  | true | false =>
    cases hFork
    exact hMoves

theorem moves_forkCow (hFork : forkCow p parent child page entry = (p', parent', child', done))
    (hGet : parent.pages.get page = some entry) (hEmpty : child.pages.get page = none) :
    Moves ok ⟨p, {entry.frame} + (parent.refs + child.refs), child.own⟩
      ⟨p', parent'.refs + child'.refs, child'.own⟩ ∧ parent'.own = parent.own := by
  unfold forkCow at hFork
  generalize hMap : mapInto p child page entry.frame (sharedFlags entry) = r at hFork
  obtain ⟨q, s, mapped⟩ := r
  have hMoves : Moves ok ⟨p, {entry.frame} + (parent.refs + child.refs), child.own⟩
      ⟨if mapped then q else q.release entry.frame, parent.refs + s.refs, s.own⟩ :=
    moves_mapOrRelease hMap hEmpty parent.refs
  cases mapped with
  | false =>
    cases hFork
    exact ⟨hMoves, rfl⟩
  | true =>
    cases hFork
    split
    · refine ⟨?_, rfl⟩
      rw [refs_setPage_same { entry with write := false, copyOnWrite := true } hGet rfl rfl]
      exact hMoves
    · exact ⟨hMoves, rfl⟩

theorem moves_forkCopy (hFork : forkCopy p child page entry = (p', child', done))
    (hEmpty : child.pages.get page = none) (R : Multiset Nat) :
    Moves ok ⟨p, R + child.refs, child.own⟩ ⟨p', R + child'.refs, child'.own⟩ := by
  unfold forkCopy at hFork
  generalize hAlloc : p.alloc = a at hFork
  obtain ⟨copy, p₁⟩ := a
  by_cases hZero : copy = 0
  · simp only [if_pos hZero] at hFork
    cases hFork
    exact (Move.full (hZero ▸ hAlloc)).moves
  · simp only [if_neg hZero] at hFork
    have hFilled : Moves ok ⟨p, R + child.refs, child.own⟩
        ⟨p₁.fillFrame copy (p₁.mem entry.frame), R + child.refs, {copy} + child.own⟩ :=
      (Move.alloc hAlloc hZero).moves.trans (Move.fill _ _).moves
    refine hFilled.trans ?_
    generalize hMap : mapInto (p₁.fillFrame copy (p₁.mem entry.frame)) child page copy
      entry.protection = r at hFork
    obtain ⟨q, s, mapped⟩ := r
    cases mapped with
    | true =>
      cases hFork
      exact (Move.publish rfl).moves.trans (moves_mapOrRelease hMap hEmpty R)
    | false =>
      cases hFork
      exact .trans ((moves_mapInto_fail hMap R).framed 0 {copy} (add_zero _).symm (add_comm _ _)
        (add_zero _).symm (add_comm _ _)) (Move.free rfl).moves

/-- One turn of the loop of `fork_address_space`. -/
theorem moves_forkPage (hFork : forkPage p parent child page = (p', parent', child', done))
    (hEmpty : child.pages.get page = none)
    (hAgain : ∀ e, parent.pages.get page = some e → e.present = true → e.shared = true →
      ok (.again e.frame) ∨ p.Shareable e.frame 1) :
    Moves ok ⟨p, parent.refs + child.refs, child.own⟩
      ⟨p', parent'.refs + child'.refs, child'.own⟩ ∧ parent'.own = parent.own := by
  unfold forkPage at hFork
  split at hFork
  · cases hFork
    exact ⟨.refl _, rfl⟩
  next entry hGet =>
    split at hFork
    next hPresent =>
      split at hFork
      · generalize hWalk : walkMaking p child page = r at hFork
        obtain ⟨q, s, found⟩ := r
        have hMoves : Moves ok ⟨p, parent.refs + child.refs, child.own⟩
            ⟨q, parent.refs + child.refs, s.own⟩ := moves_walkMaking hWalk _
        rw [← refs_walkMaking hWalk] at hMoves ⊢
        cases found with
        | false =>
          cases hFork
          exact ⟨hMoves, rfl⟩
        | true =>
          cases hFork
          have hNone : s.leafAt page = 0 :=
            leafAt_of_none (walkMaking_pages hWalk ▸ hEmpty)
          rw [refs_setPage_of_absent _ hNone, leafOf_absent (by simpa using hPresent),
            Multiset.map_zero, add_zero]
          exact ⟨hMoves, rfl⟩
      · cases hFork
        exact ⟨.refl _, rfl⟩
    next hPresent =>
      have hPresent : entry.present = true := by simpa using hPresent
      have hFrame : entry.frame ∈ parent.refs := frame_mem_refs hGet hPresent
      split at hFork
      next hShared =>
        cases hFork
        exact ⟨moves_forkShared rfl hEmpty (hAgain entry hGet hPresent hShared) _ hFrame, rfl⟩
      next hShared =>
        generalize hShare : p.share entry.frame = q at hFork
        obtain ⟨q, taken⟩ := q
        cases taken with
        | true =>
          obtain ⟨hMoves, hOwn⟩ : Moves ok
              ⟨q, {entry.frame} + (parent.refs + child.refs), child.own⟩
              ⟨p', parent'.refs + child'.refs, child'.own⟩ ∧ parent'.own = parent.own :=
            moves_forkCow hFork hGet hEmpty
          exact ⟨(Move.share hShare (mem_add.mpr (.inl hFrame))).moves.trans hMoves, hOwn⟩
        | false =>
          obtain ⟨rfl, -⟩ := Pmm.share_false hShare
          cases hFork
          exact ⟨moves_forkCopy rfl hEmpty _, rfl⟩

theorem count_refs_eq (s : Space) (frame : Nat) :
    s.pages.keys.countP (s.mapsTo frame) = s.refs.count frame := by
  have hPairs : ∀ l : List (Nat × Entry), (∀ x ∈ l, s.pages.get x.1 = some x.2) →
      (l.map Prod.fst).countP (s.mapsTo frame) =
        (((l.map Prod.snd).filter (·.present)).map (·.frame)).count frame := by
    intro l hl
    induction l with
    | nil => rfl
    | cons x rest ih =>
      have hx := hl x List.mem_cons_self
      have hRest := ih fun y hy => hl y (List.mem_cons_of_mem x hy)
      have hMaps : s.mapsTo frame x.1 = (x.2.present && x.2.frame == frame) := by
        rw [mapsTo, hx, Option.any_some]
      rw [List.map_cons, List.countP_cons, hRest, hMaps, List.map_cons]
      cases hPresent : x.2.present with
      | false => rw [List.filter_cons_of_neg (by simp [hPresent])]; simp
      | true =>
        rw [List.filter_cons_of_pos (by simp [hPresent]), List.map_cons, List.count_cons]
        simp
  rw [← coe_leafFrames, coe_count]
  exact hPairs s.pages.pairs fun x hx => (s.pages.mem_pairs_iff x.1 x.2).mp hx

/-- Room for the references of all the pages is room for one at the first. -/
theorem shareable_head (hGet : parent.pages.get page = some entry) (hPresent : entry.present = true)
    (hRoom : p.Shareable entry.frame ((page :: rest).countP (parent.mapsTo entry.frame))) :
    p.Shareable entry.frame 1 := by
  have hMaps : parent.mapsTo entry.frame page = true := by simp [mapsTo, hGet, hPresent]
  obtain ⟨hTable, hLt, hFit⟩ := hRoom
  rw [List.countP_cons_of_pos hMaps] at hFit
  exact ⟨hTable, hLt, by omega⟩

/-- A turn of the loop leaves room for the rest. -/
theorem ForkedPage.shareable_tail (hForked : ForkedPage p parent child page p' parent' child')
    (hPage : page ∉ rest) (hRoom : p.Shareable frame ((page :: rest).countP (parent.mapsTo frame))) :
    p'.Shareable frame (rest.countP (parent'.mapsTo frame)) := by
  have hCount : rest.countP (parent'.mapsTo frame) = rest.countP (parent.mapsTo frame) :=
    List.countP_congr fun v hv => by
      rw [mapsTo, mapsTo, (hForked.get_of_ne fun hEq => hPage (hEq ▸ hv)).1]
  refine hForked.shareable ?_
  rw [hCount, ← List.countP_cons]
  exact hRoom

/-- The loops of `fork_address_space`: at a page that is shared for good there must be room
for the references the loops still have to take. -/
theorem moves_forkPages {pages : List Nat}
    (hFork : forkPages p parent child pages = (p', parent', child', done)) (hNodup : pages.Nodup)
    (hEmpty : ∀ v ∈ pages, child.pages.get v = none)
    (hAgain : ∀ v ∈ pages, ∀ e, parent.pages.get v = some e → e.present = true →
      e.shared = true → ok (.again e.frame) ∨
      p.Shareable e.frame (pages.countP (parent.mapsTo e.frame))) :
    Moves ok ⟨p, parent.refs + child.refs, child.own⟩
      ⟨p', parent'.refs + child'.refs, child'.own⟩ ∧ parent'.own = parent.own := by
  induction pages generalizing p parent child with
  | nil =>
    cases hFork
    exact ⟨.refl _, rfl⟩
  | cons page rest ih =>
    obtain ⟨hPage, hRest⟩ := List.nodup_cons.mp hNodup
    unfold forkPages at hFork
    generalize hTurn : forkPage p parent child page = r at hFork
    obtain ⟨p₁, parent₁, child₁, done₁⟩ := r
    have hHere : ∀ e, parent.pages.get page = some e → e.present = true → e.shared = true →
        ok (.again e.frame) ∨ p.Shareable e.frame 1 := by
      intro e hGet hPresent hShared
      exact (hAgain page List.mem_cons_self e hGet hPresent hShared).imp_right
        (shareable_head hGet hPresent)
    obtain ⟨hMoves, hOwn⟩ := moves_forkPage hTurn (hEmpty page List.mem_cons_self) hHere
    cases done₁ with
    | false =>
      cases hFork
      exact ⟨hMoves, hOwn⟩
    | true =>
      have hForked := forkPage_forked hTurn
      have hNe : ∀ v ∈ rest, v ≠ page := fun v hv hEq => hPage (hEq ▸ hv)
      obtain ⟨hMoves', hOwn'⟩ := ih hFork hRest
        (fun v hv => (hForked.get_of_ne (hNe v hv)).2.trans
          (hEmpty v (List.mem_cons_of_mem page hv)))
        (fun v hv e hGet hPresent hShared => by
          rw [(hForked.get_of_ne (hNe v hv)).1] at hGet
          exact (hAgain v (List.mem_cons_of_mem page hv) e hGet hPresent hShared).imp_right
            (hForked.shareable_tail hPage))
      exact ⟨hMoves.trans hMoves', hOwn'.trans hOwn⟩

/-- `fork_address_space` on the books: the child's references and tables are new. -/
theorem moves_fork (hFork : fork p parent = (p', parent', made))
    (hAgain : ∀ e ∈ parent.leaves, e.shared = true → ok (.again e.frame) ∨
      p.Shareable e.frame (parent.refs.count e.frame)) :
    Moves ok ⟨p, parent.refs, 0⟩
      ⟨p', parent'.refs + made.elim 0 Space.refs, made.elim 0 Space.own⟩ ∧
      parent'.own = parent.own := by
  simp only [fork] at hFork
  generalize hCreate : create p = c at hFork
  obtain ⟨q, made₀⟩ := c
  cases made₀ with
  | none =>
    cases hFork
    have hMade : Moves ok ⟨p, 0, 0⟩ ⟨q, 0, 0⟩ := moves_create hCreate
    exact ⟨hMade.framed parent.refs 0 (zero_add _).symm rfl (add_comm _ _) rfl, rfl⟩
  | some child =>
    have hMade : Moves ok ⟨p, 0, 0⟩ ⟨q, child.refs, child.own⟩ := moves_create hCreate
    obtain ⟨hExtends, hPages⟩ := create_some hCreate
    simp only at hFork
    generalize hLoop : forkPages q parent child parent.pages.keys = r at hFork
    obtain ⟨p₁, parent₁, child₁, done⟩ := r
    have hStart : Moves ok ⟨p, parent.refs, 0⟩ ⟨q, parent.refs + child.refs, child.own⟩ :=
      hMade.framed parent.refs 0 (zero_add _).symm rfl (add_comm _ _) (add_zero _).symm
    obtain ⟨hMoves, hOwn⟩ : Moves ok ⟨q, parent.refs + child.refs, child.own⟩
        ⟨p₁, parent₁.refs + child₁.refs, child₁.own⟩ ∧ parent₁.own = parent.own := by
      refine moves_forkPages hLoop parent.pages.keys_nodup (fun v _ => by rw [hPages]; rfl) ?_
      intro v hv e hGet hPresent hShared
      have hLeaf := mem_leaves hGet hPresent
      refine (hAgain e hLeaf hShared).imp_right fun hRoom => hExtends.refs.shareable ?_
      rw [count_refs_eq]
      exact hRoom
    cases done with
    | true =>
      cases hFork
      exact ⟨hStart.trans hMoves, hOwn⟩
    | false =>
      cases hFork
      refine ⟨(hStart.trans hMoves).trans ?_, hOwn⟩
      exact (moves_destroy p₁ child₁).framed parent₁.refs 0 (add_comm _ _) (add_zero _).symm
        (add_comm _ _) rfl

end Space
end LeahOS.Mm
