import LeahOS.Lib.Run
import LeahOS.Mm.Ledger

/-!
# The memory of the whole machine

The address spaces of all processes, the shared-memory segments and the images that hold
frames, over one frame allocator; and the system calls and faults that change them
(`arch/x86_64/syscall.cpp`, `arch/x86_64/idt.cpp`, `mm/shm.cpp`, `mm/image.cpp`).

Every event is one step. `ShmMap` and `munmap` let their locks go between their parts, so this is
about runs in which no other processor destroys the segment or works on the same address space
meanwhile; the other events hold one lock from beginning to end.
The checks of user ids and keys in front of an operation are left out: where they refuse,
nothing changes.

`moves_next` says what an event does to the books of the allocator, and which faults it
needs to be allowed.
-/

namespace LeahOS.Mm
open Lib List Option Multiset Space Assoc

/-- `memory::kUserMmapBase` and `memory::kUserMmapEnd`. -/
def kUserMmapBase : Nat := 0x40000000

@[inherit_doc kUserMmapBase]
def kUserMmapEnd : Nat := 0x80000000

/-- What the kernel keeps for a process: its address space and `mmap_next`. -/
structure Process where
  space : Space
  mmapNext : Nat

/-- The memory of the machine. -/
structure State where
  pmm : Pmm
  procs : Assoc Process
  segments : Assoc (List Nat)
  images : Assoc (List Nat)

def userRangeOk (base length : Nat) : Bool :=
  decide (base < 0x800000000000) && decide (length ≤ 0x800000000000 - base)

/-- Rounds a length up to whole pages, as a machine word. -/
def pagesIn (length : Nat) : Nat := (length + (kPageSize - 1)) % 2 ^ 64 / kPageSize

/-- `base + bytes` does not run past the arena; the addition wraps. -/
def inArena (base bytes : Nat) : Bool := decide ((base + bytes) % 2 ^ 64 ≤ kUserMmapEnd)

/-- The numbers of `n` consecutive pages, the first of which holds the address `base`. -/
def pagesFrom (base n : Nat) : List Nat := List.range' (base / kPageSize) n

/-- The frames of `n` consecutive pages of physical memory, as `map_into` masks them. -/
def framesFrom (phys n : Nat) : List Nat :=
  (List.range n).map fun i => (phys + i * kPageSize) % 2 ^ 64 / kPageSize % 2 ^ 40

/-- The flags of a shared mapping. -/
def sharedMapping : Flags := { write := true, user := true, noExecute := true, shared := true }

/-- The flags of device registers. -/
def deviceMapping : Flags := { sharedMapping with noCache := true, writeThrough := true }

/-- `allocate` of `shm.cpp` and `fill` of `image.cpp`: a frame for every page, or none. -/
def allocFrames (p : Pmm) (taken : List Nat) : List Page → Pmm × Option (List Nat)
  | [] => (p, some taken)
  | page :: rest =>
    let r := p.alloc
    if r.1 = 0 then (taken.foldl Pmm.free r.2, none)
    else allocFrames (r.2.fillFrame r.1 page) (taken ++ [r.1]) rest

/-- `share_frames`: a reference to every frame, or to none. -/
def shareFrames (p : Pmm) (taken : List Nat) : List Nat → Pmm × Bool
  | [] => (p, true)
  | frame :: rest =>
    let r := p.share frame
    if r.2 then shareFrames r.1 (taken ++ [frame]) rest
    else (taken.foldl Pmm.release r.1, false)

/-- The mapping loops of `ShmMap`, `FbMap`, `MapPhysical` and `DmaAlloc`: page after page
until one fails. -/
def mapAll (p : Pmm) (s : Space) (flags : Flags) : List (Nat × Nat) → Pmm × Space × Bool
  | [] => (p, s, true)
  | (page, frame) :: rest =>
    let r := mapInto p s page frame flags
    if r.2.2 then mapAll r.1 r.2.1 flags rest else r

/-- The loop of `MapFile`: a reference and then a mapping, until one fails. -/
def mapFileAll (p : Pmm) (s : Space) (flags : Flags) : List (Nat × Nat) → Pmm × Space × Bool
  | [] => (p, s, true)
  | (page, frame) :: rest =>
    let q := p.share frame
    if q.2 then
      let r := mapInto q.1 s page frame flags
      if r.2.2 then mapFileAll r.1 r.2.1 flags rest else r
    else (q.1, s, false)

/-- The loop of `sys_mmap`: what is mapped already is left alone. -/
def reserveAll (p : Pmm) (s : Space) (flags : Flags) : List Nat → Pmm × Space × Bool
  | [] => (p, s, true)
  | virt :: rest =>
    if s.translate virt ≠ 0 then reserveAll p s flags rest
    else
      let r := reserve p s (virt / kPageSize) flags
      if r.2.2 then reserveAll r.1 r.2.1 flags rest else r

/-- The loop of `sys_munmap`. -/
def munmapAll (p : Pmm) (s : Space) : List Nat → Pmm × Space
  | [] => (p, s)
  | virt :: rest =>
    let frame := s.translate virt
    if frame = 0 then munmapAll p s rest
    else munmapAll (p.release (frame / kPageSize)) (s.unmap (virt / kPageSize)) rest

/-- The addresses the loops of `sys_mmap` and `sys_munmap` visit. -/
def virtsFrom (base n : Nat) : List Nat := (List.range n).map fun i => base + i * kPageSize

/-! ### The loops on the books -/

section Loops
variable {ok : Fault → Prop} {p p' : Pmm} {done : Bool} {l : List (Nat × Nat)} {s s' : Space}
  {x : Nat × Nat} {flags : Flags} {taken virts : List Nat}

theorem singleton_add_coe (frame : Nat) (taken : List Nat) (T : Multiset Nat) :
    {frame} + (↑taken + T) = ↑(taken ++ [frame]) + T := by
  rw [← coe_add, coe_singleton]
  abel

theorem moves_allocFrames {contents : List Page} {got : Option (List Nat)}
    (hAlloc : allocFrames p taken contents = (p', got)) (R T : Multiset Nat) :
    Moves ok ⟨p, R, ↑taken + T⟩ ⟨p', R, (got.elim 0 fun frames => ↑frames) + T⟩ := by
  induction contents generalizing p taken with
  | nil =>
    cases hAlloc
    exact .refl _
  | cons page rest ih =>
    simp only [allocFrames] at hAlloc
    generalize hOne : p.alloc = a at hAlloc
    obtain ⟨frame, q⟩ := a
    by_cases hZero : frame = 0
    · simp only [if_pos hZero] at hAlloc
      cases hAlloc
      rw [elim_none, zero_add]
      exact (Move.full (hZero ▸ hOne)).moves.trans (moves_freeAll q taken R T)
    · simp only [if_neg hZero] at hAlloc
      refine ((Move.alloc hOne hZero).moves.trans (Move.fill frame page).moves).trans ?_
      rw [singleton_add_coe]
      exact ih hAlloc

theorem moves_shareFrames {frames : List Nat} (hShare : shareFrames p taken frames = (p', done))
    (R T : Multiset Nat) (hIn : ∀ frame ∈ frames, frame ∈ R) :
    Moves ok ⟨p, ↑taken + R, T⟩ ⟨p', if done then ↑(taken ++ frames) + R else R, T⟩ := by
  induction frames generalizing p taken with
  | nil =>
    cases hShare
    rw [if_pos rfl, append_nil]
    exact .refl _
  | cons frame rest ih =>
    simp only [shareFrames] at hShare
    generalize hOne : p.share frame = q at hShare
    obtain ⟨q, one⟩ := q
    cases one with
    | false =>
      obtain ⟨rfl, -⟩ := Pmm.share_false hOne
      cases hShare
      exact moves_releaseAll q taken R T
    | true =>
      have hFrame : frame ∈ (taken : Multiset Nat) + R :=
        mem_add.mpr (.inr (hIn frame List.mem_cons_self))
      refine (Move.share hOne hFrame).moves.trans ?_
      have hNext := ih hShare fun g hg => hIn g (List.mem_cons_of_mem frame hg)
      rw [append_assoc, singleton_append] at hNext
      rw [singleton_add_coe]
      exact hNext

/-- The pages of a list of mappings are all different and nothing is present at them. -/
def Vacant (s : Space) (l : List (Nat × Nat)) : Prop :=
  (l.map Prod.fst).Nodup ∧ ∀ x ∈ l, s.leafAt x.1 = 0

theorem Vacant.tail (hVacant : Vacant s (x :: l))
    (hSame : ∀ w, w ≠ x.1 → s'.pages.get w = s.pages.get w) :
    Vacant s' l := by
  obtain ⟨hNodup, hAbsent⟩ := hVacant
  obtain ⟨hHead, hTail⟩ := List.nodup_cons.mp hNodup
  refine ⟨hTail, fun y hy => ?_⟩
  have hNe : y.1 ≠ x.1 := fun hEq => hHead (hEq ▸ List.mem_map.mpr ⟨y, hy, rfl⟩)
  have hLeaf := hAbsent y (List.mem_cons_of_mem x hy)
  rw [leafAt, weight] at hLeaf ⊢
  rw [hSame y.1 hNe]
  exact hLeaf

theorem Vacant.lost (hVacant : (∀ g, ok (.lost g)) ∨ Vacant s (x :: l)) (e : Entry)
    (hGet : s.pages.get x.1 = some e) (hPresent : e.present = true) : ok (.lost e.frame) := by
  rcases hVacant with hOk | hVacant
  · exact hOk e.frame
  · have hLeaf := hVacant.2 x List.mem_cons_self
    rw [leafAt_of_get hGet, leafOf_present hPresent] at hLeaf
    exact absurd hLeaf (singleton_ne_zero e)

/-- There is a clear bit for every table a list of mappings may need. -/
def Roomy (p : Pmm) (l : List (Nat × Nat)) : Prop := p.test 0 = true ∧ 3 * l.length ≤ p.clear

theorem Roomy.congr {q : Pmm} (hRoomy : Roomy p l) (hTest : q.test = p.test)
    (hCount : q.frameCount = p.frameCount) : Roomy q l := by
  rw [Roomy, hTest, Pmm.clear_congr hTest hCount]
  exact hRoomy

theorem Roomy.tail {q : Pmm} {t : Space} {one : Bool} (hRoomy : Roomy p (x :: l))
    (hOne : mapInto p s x.1 x.2 flags = (q, t, one)) : one = true ∧ Roomy q l := by
  obtain ⟨hZero, hRoom⟩ := hRoomy
  rw [length_cons] at hRoom
  obtain ⟨hMapped, hLeft, hZero'⟩ := mapInto_true hOne hZero (by omega)
  exact ⟨hMapped, hZero', by omega⟩

/-- References in hand become mappings one after the other; those behind a failure stay in
hand. -/
theorem moves_mapAll (hMap : mapAll p s flags l = (p', s', done))
    (hVacant : (∀ g, ok (.lost g)) ∨ Vacant s l) :
    ∃ left : List Nat, (done = true ∨ Roomy p l → left = []) ∧
      Moves ok ⟨p, ↑(l.map Prod.snd) + s.refs, s.own⟩ ⟨p', ↑left + s'.refs, s'.own⟩ := by
  induction l generalizing p s with
  | nil =>
    cases hMap
    exact ⟨[], fun _ => rfl, .refl _⟩
  | cons x rest ih =>
    simp only [mapAll] at hMap
    generalize hOne : mapInto p s x.1 x.2 flags = r at hMap
    obtain ⟨q, t, one⟩ := r
    cases one with
    | false =>
      cases hMap
      refine ⟨(x :: rest).map Prod.snd, ?_, moves_mapInto_fail hOne _⟩
      rintro (hFalse | hRoomy)
      · cases hFalse
      · exact absurd (hRoomy.tail hOne).1 Bool.false_ne_true
    | true =>
      obtain ⟨left, hDone, hMoves⟩ := ih hMap
        (hVacant.imp_right fun h => h.tail fun w hw => mapInto_get_of_ne hOne hw)
      refine ⟨left, fun h => hDone (h.imp_right fun hRoomy => (hRoomy.tail hOne).2), ?_⟩
      rw [List.map_cons, ← cons_coe, ← singleton_add, add_assoc]
      exact (moves_mapInto hOne (Vacant.lost hVacant) _).trans hMoves

/-- A file is mapped with one reference a page; the reference taken for the page that could
not be mapped is in nobody's hand any more. -/
theorem moves_mapFileAll (hMap : mapFileAll p s flags l = (p', s', done)) (R : Multiset Nat)
    (hIn : ∀ x ∈ l, x.2 ∈ R) (hVacant : (∀ g, ok (.lost g)) ∨ Vacant s l) :
    ∃ left : List Nat, (Roomy p l → left = []) ∧
      Moves ok ⟨p, R + s.refs, s.own⟩ ⟨p', ↑left + (R + s'.refs), s'.own⟩ := by
  induction l generalizing p s with
  | nil =>
    cases hMap
    refine ⟨[], fun _ => rfl, ?_⟩
    rw [coe_nil, zero_add]
    exact .refl _
  | cons x rest ih =>
    simp only [mapFileAll] at hMap
    generalize hShare : p.share x.2 = q at hMap
    obtain ⟨q, taken⟩ := q
    cases taken with
    | false =>
      obtain ⟨rfl, -⟩ := Pmm.share_false hShare
      cases hMap
      refine ⟨[], fun _ => rfl, ?_⟩
      rw [coe_nil, zero_add]
      exact .refl _
    | true =>
      obtain ⟨-, hTest, hCount, -⟩ := Pmm.share_true hShare
      have hFrame : x.2 ∈ R + s.refs :=
        mem_add.mpr (.inl (hIn x List.mem_cons_self))
      have hTaken : Moves ok ⟨p, R + s.refs, s.own⟩ ⟨q, {x.2} + (R + s.refs), s.own⟩ :=
        (Move.share hShare hFrame).moves
      generalize hOne : mapInto q s x.1 x.2 flags = r at hMap
      obtain ⟨q₁, t, one⟩ := r
      cases one with
      | false =>
        cases hMap
        refine ⟨[x.2], fun hRoomy => ?_, ?_⟩
        · exact absurd ((hRoomy.congr hTest hCount).tail hOne).1 Bool.false_ne_true
        · rw [← add_assoc] at hTaken ⊢
          exact hTaken.trans (moves_mapInto_fail hOne _)
      | true =>
        obtain ⟨left, hDone, hMoves⟩ := ih hMap
          (fun y hy => hIn y (List.mem_cons_of_mem x hy))
          (hVacant.imp_right fun h => h.tail fun w hw => mapInto_get_of_ne hOne hw)
        refine ⟨left, fun hRoomy => hDone ((hRoomy.congr hTest hCount).tail hOne).2, ?_⟩
        exact (hTaken.trans (moves_mapInto hOne (Vacant.lost hVacant) R)).trans hMoves

theorem moves_reserveAll (hReserve : reserveAll p s flags virts = (p', s', done)) :
    Moves ok ⟨p, s.refs, s.own⟩ ⟨p', s'.refs, s'.own⟩ := by
  induction virts generalizing p s with
  | nil =>
    cases hReserve
    exact .refl _
  | cons virt rest ih =>
    simp only [reserveAll] at hReserve
    split at hReserve
    · exact ih hReserve
    · generalize hOne : reserve p s (virt / kPageSize) flags = r at hReserve
      obtain ⟨q, t, one⟩ := r
      have hMoves : Moves ok ⟨p, s.refs, s.own⟩ ⟨q, t.refs, t.own⟩ := moves_reserve hOne
      cases one with
      | false =>
        cases hReserve
        exact hMoves
      | true => exact hMoves.trans (ih hReserve)

theorem translate_ne_zero {virt : Nat} (hNe : s.translate virt ≠ 0) :
    ∃ e, s.pages.get (virt / kPageSize) = some e ∧ e.present = true ∧
      s.translate virt / kPageSize = e.frame := by
  unfold Space.translate at hNe ⊢
  split at hNe
  next e hGet =>
    split at hNe
    next hPresent =>
      refine ⟨e, hGet, hPresent, ?_⟩
      rw [if_pos hPresent, Nat.mul_comm, Nat.mul_add_div (by decide),
        Nat.div_eq_of_lt (Nat.mod_lt _ (by decide)), Nat.add_zero]
    · exact absurd rfl hNe
  · exact absurd rfl hNe

theorem moves_munmapAll (hUnmap : munmapAll p s virts = (p', s')) :
    Moves ok ⟨p, s.refs, s.own⟩ ⟨p', s'.refs, s'.own⟩ := by
  induction virts generalizing p s with
  | nil =>
    cases hUnmap
    exact .refl _
  | cons virt rest ih =>
    simp only [munmapAll] at hUnmap
    split at hUnmap
    · exact ih hUnmap
    next hNe =>
      obtain ⟨e, hGet, hPresent, hFrame⟩ := translate_ne_zero hNe
      rw [hFrame] at hUnmap
      have hRelease : Moves ok ⟨p, s.refs, s.own⟩
          ⟨p.release e.frame, (s.unmap (virt / kPageSize)).refs, s.own⟩ := by
        refine (Move.release ?_).moves
        rw [s.refs_eq (virt / kPageSize), leafAt_of_get hGet,
          leafOf_present hPresent, Multiset.map_singleton, add_comm]
      exact hRelease.trans (ih hUnmap)

end Loops

/-- Something that changes the memory of the machine. -/
inductive Event
  | create (pid : Nat)
  | mmap (pid addr length : Nat) (write exec fixed : Bool)
  | munmap (pid addr length : Nat)
  | lazyFault (pid page : Nat)
  | cowFault (pid page : Nat)
  | shmOpen (id bytes : Nat)
  | shmMap (pid id : Nat)
  | shmDestroy (id : Nat)
  | imageCreate (id : Nat) (contents : List Page)
  | imageDiscard (id : Nat)
  | mapFile (pid id offset length : Nat) (exec : Bool)
  | fbMap (pid phys bytes : Nat)
  | mapPhysical (pid addr length : Nat)
  | dmaAlloc (pid length : Nat)
  | fork (pid child : Nat)
  | exit (pid : Nat)

namespace State

/-- The machine with one process and the allocator changed. -/
def setProc (k : State) (pid : Nat) (p : Pmm) (s : Space) (mmapNext : Nat) : State :=
  { k with pmm := p, procs := k.procs.set pid { space := s, mmapNext := mmapNext } }

/-- The mappings of these frames at `mmap_next`. -/
def mapPlan (pr : Process) (frames : List Nat) : List (Nat × Nat) :=
  (pagesFrom pr.mmapNext frames.length).zip frames

/-- `sys_mmap` of anonymous memory. -/
def mmap (k : State) (pid : Nat) (pr : Process) (addr length : Nat) (flags : Flags)
    (fixed : Bool) : State :=
  let bytes := pagesIn length * kPageSize
  if length = 0 then k
  else if fixed ∧ addr ≠ 0 then
    let base := addr / kPageSize * kPageSize
    if userRangeOk base bytes then
      let r := reserveAll k.pmm pr.space flags (virtsFrom base (pagesIn length))
      k.setProc pid r.1 r.2.1 pr.mmapNext
    else k
  else if inArena pr.mmapNext bytes then
    let r := reserveAll k.pmm pr.space flags (virtsFrom pr.mmapNext (pagesIn length))
    k.setProc pid r.1 r.2.1 ((pr.mmapNext + bytes) % 2 ^ 64)
  else k

/-- `sys_munmap`. -/
def munmap (k : State) (pid : Nat) (pr : Process) (addr length : Nat) : State :=
  let base := addr / kPageSize * kPageSize
  if length = 0 then k
  else if userRangeOk base (pagesIn length * kPageSize) then
    let r := munmapAll k.pmm pr.space (virtsFrom base (pagesIn length))
    k.setProc pid r.1 r.2 pr.mmapNext
  else k

/-- The end of the mapping calls: `mmap_next` moves only when every page was mapped. -/
def mapRun (k : State) (pid : Nat) (pr : Process) (p : Pmm) (bytes : Nat) (flags : Flags)
    (frames : List Nat) : State :=
  let r := mapAll p pr.space flags (mapPlan pr frames)
  k.setProc pid r.1 r.2.1
    (if r.2.2 then (pr.mmapNext + bytes) % 2 ^ 64 else pr.mmapNext)

/-- `ShmMap` of a segment with these frames. -/
def shmMap (k : State) (pid : Nat) (pr : Process) (frames : List Nat) : State :=
  let bytes := frames.length * kPageSize
  if frames.length = 0 ∨ !inArena pr.mmapNext bytes then k
  else
    let q := shareFrames k.pmm [] frames
    if q.2 then k.mapRun pid pr q.1 bytes sharedMapping frames else { k with pmm := q.1 }

/-- `FbMap` of a framebuffer at a physical address. -/
def fbMap (k : State) (pid : Nat) (pr : Process) (phys bytes : Nat) : State :=
  if phys = 0 ∨ !inArena pr.mmapNext bytes then k
  else k.mapRun pid pr k.pmm bytes sharedMapping
    (framesFrom phys ((bytes + (kPageSize - 1)) / kPageSize))

def mapPhysical (k : State) (pid : Nat) (pr : Process) (addr length : Nat) : State :=
  let phys := addr / kPageSize * kPageSize
  let bytes := pagesIn ((length + (addr - phys)) % 2 ^ 64) * kPageSize
  if bytes = 0 ∨ 64 * 2 ^ 20 < bytes ∨ !inArena pr.mmapNext bytes then k
  else k.mapRun pid pr k.pmm bytes deviceMapping (framesFrom phys (bytes / kPageSize))

/-- `DmaAlloc`: what was mapped stays mapped when the frames are given back. -/
def dmaAlloc (k : State) (pid : Nat) (pr : Process) (length : Nat) : State :=
  let n := pagesIn length
  let bytes := n * kPageSize
  if n = 0 ∨ 4096 < n ∨ !inArena pr.mmapNext bytes then k
  else
    let a := k.pmm.allocContiguous n
    if a.1 = 0 then { k with pmm := a.2 }
    else
      let frames := List.range' a.1 n
      let p := frames.foldl (fun p frame => p.fillFrame frame zeros) a.2
      let r := mapAll p pr.space sharedMapping ((pagesFrom pr.mmapNext n).zip frames)
      if r.2.2 then k.setProc pid r.1 r.2.1 ((pr.mmapNext + bytes) % 2 ^ 64)
      else k.setProc pid (r.1.freeContiguous a.1 n) r.2.1 pr.mmapNext

/-- The frames of an image `MapFile` is asked for, as far as there are any. -/
def wantedFrames (frames : List Nat) (offset length : Nat) : List Nat :=
  (frames.drop (offset / kPageSize)).take (pagesIn length)

/-- `MapFile` of an image with these frames; the mapping stops where the image does. -/
def mapFile (k : State) (pid : Nat) (pr : Process) (frames : List Nat) (offset length : Nat)
    (exec : Bool) : State :=
  let bytes := pagesIn length * kPageSize
  if length = 0 ∨ !inArena pr.mmapNext bytes then k
  else
    let wanted := wantedFrames frames offset length
    let r := mapFileAll k.pmm pr.space
      { user := true, copyOnWrite := true, noExecute := !exec }
      (mapPlan pr wanted)
    k.setProc pid r.1 r.2.1
      (if r.2.2 ∧ wanted ≠ [] then (pr.mmapNext + bytes) % 2 ^ 64 else pr.mmapNext)

/-- `open` of a key nobody uses, in a free slot. -/
def shmOpen (k : State) (id bytes : Nat) : State :=
  if bytes = 0 ∨ pagesIn bytes = 0 ∨ 4096 < pagesIn bytes then k
  else
    match allocFrames k.pmm [] (List.replicate (pagesIn bytes) zeros) with
    | (p, some frames) => { k with pmm := p, segments := k.segments.set id frames }
    | (p, none) => { k with pmm := p }

/-- `image::create` into a free slot. -/
def imageCreate (k : State) (id : Nat) (contents : List Page) : State :=
  match allocFrames k.pmm [] contents with
  | (p, some frames) => { k with pmm := p, images := k.images.set id frames }
  | (p, none) => { k with pmm := p }

/-- `fork` of a process: the child starts with its parent's `mmap_next`. -/
def fork (k : State) (pid child : Nat) (pr : Process) : State :=
  let r := Space.fork k.pmm pr.space
  let k := k.setProc pid r.1 r.2.1 pr.mmapNext
  match r.2.2 with
  | none => k
  | some s => { k with procs := k.procs.set child { space := s, mmapNext := pr.mmapNext } }

/-- One event. It does not happen (`none`) when there is no such process, segment or image,
or when the number a new one is to get is taken. -/
def next (k : State) : Event → Option State
  | .create pid =>
    if (k.procs.get pid).isSome then none
    else
      match Space.create k.pmm with
      | (p, none) => some { k with pmm := p }
      | (p, some s) => some (k.setProc pid p s kUserMmapBase)
  | .mmap pid addr length write exec fixed =>
    (k.procs.get pid).map fun pr =>
      k.mmap pid pr addr length { user := true, write := write, noExecute := !exec } fixed
  | .munmap pid addr length => (k.procs.get pid).map fun pr => k.munmap pid pr addr length
  | .lazyFault pid page =>
    (k.procs.get pid).map fun pr =>
      let r := handleLazyFault k.pmm pr.space page
      k.setProc pid r.1 r.2.1 pr.mmapNext
  | .cowFault pid page =>
    (k.procs.get pid).map fun pr =>
      let r := handleCowFault k.pmm pr.space page
      k.setProc pid r.1 r.2.1 pr.mmapNext
  | .shmOpen id bytes => if (k.segments.get id).isSome then none else some (k.shmOpen id bytes)
  | .shmMap pid id =>
    (k.procs.get pid).bind fun pr => (k.segments.get id).map fun frames => k.shmMap pid pr frames
  | .shmDestroy id =>
    (k.segments.get id).map fun frames =>
      { k with pmm := frames.foldl Pmm.release k.pmm, segments := k.segments.erase id }
  | .imageCreate id contents =>
    if (k.images.get id).isSome then none else some (k.imageCreate id contents)
  | .imageDiscard id =>
    (k.images.get id).map fun frames =>
      { k with pmm := frames.foldl Pmm.release k.pmm, images := k.images.erase id }
  | .mapFile pid id offset length exec =>
    (k.procs.get pid).bind fun pr => (k.images.get id).map fun frames =>
      k.mapFile pid pr frames offset length exec
  | .fbMap pid phys bytes => (k.procs.get pid).map fun pr => k.fbMap pid pr phys bytes
  | .mapPhysical pid addr length =>
    (k.procs.get pid).map fun pr => k.mapPhysical pid pr addr length
  | .dmaAlloc pid length => (k.procs.get pid).map fun pr => k.dmaAlloc pid pr length
  | .fork pid child =>
    if (k.procs.get child).isSome then none
    else (k.procs.get pid).map fun pr => k.fork pid child pr
  | .exit pid =>
    (k.procs.get pid).map fun pr =>
      { k with pmm := Space.destroy k.pmm pr.space, procs := k.procs.erase pid }

/-- The steps of the machine. -/
def Step (k : State) (e : Event) (k' : State) : Prop := k.next e = some k'

/-! ### The books of the machine -/

/-- The references the segments and the images hold. -/
def held (k : State) : Multiset Nat :=
  k.segments.total (fun frames : List Nat => (frames : Multiset Nat)) +
    k.images.total fun frames : List Nat => (frames : Multiset Nat)

/-- All references that are out, and all page tables. -/
def books (k : State) : Books :=
  ⟨k.pmm, k.procs.total (·.space.refs) + k.held, k.procs.total (·.space.own)⟩

/-- What the books hold apart from one process. -/
def refsBut (k : State) (pid : Nat) : Multiset Nat :=
  (k.procs.erase pid).total (·.space.refs) + k.held

@[inherit_doc refsBut]
def ownBut (k : State) (pid : Nat) : Multiset Nat := (k.procs.erase pid).total (·.space.own)

variable {k : State} {pid : Nat}

theorem books_eq {pr : Process} (hGet : k.procs.get pid = some pr) :
    k.books = ⟨k.pmm, pr.space.refs + k.refsBut pid, pr.space.own + k.ownBut pid⟩ := by
  rw [books, total_of_some _ hGet, total_of_some _ hGet, refsBut, ownBut, add_assoc]

theorem books_eq_of_none (hGet : k.procs.get pid = none) :
    k.books = ⟨k.pmm, k.refsBut pid, k.ownBut pid⟩ := by
  rw [books, refsBut, ownBut, total_of_none _ hGet, total_of_none _ hGet]

theorem books_of_empty (hProcs : k.procs = empty) (hSegments : k.segments = empty)
    (hImages : k.images = empty) : k.books = ⟨k.pmm, 0, 0⟩ := by
  rw [books, held, hProcs, hSegments, hImages]
  rfl

theorem books_setProc (k : State) (pid : Nat) (p : Pmm) (s : Space) (mmapNext : Nat) :
    (k.setProc pid p s mmapNext).books = ⟨p, s.refs + k.refsBut pid, s.own + k.ownBut pid⟩ := by
  rw [books, setProc]
  simp only [total_set]
  rw [refsBut, ownBut, add_comm _ s.own, add_comm _ s.refs, add_assoc]
  rfl

section Moves
variable {ok : Fault → Prop} {k : State} {pid : Nat} {pr : Process} {p : Pmm} {frames : List Nat}
  {id : Nat}

/-- What a process does to its own books it does to the machine's. -/
theorem moves_setProc (hGet : k.procs.get pid = some pr) {s : Space} (mmapNext : Nat)
    (hMoves : Moves ok ⟨k.pmm, pr.space.refs, pr.space.own⟩ ⟨p, s.refs, s.own⟩) :
    Moves ok k.books (k.setProc pid p s mmapNext).books := by
  rw [books_eq hGet, books_setProc]
  exact hMoves.frame (k.refsBut pid) (k.ownBut pid)

/-- A fault leaves the page tables alone. -/
theorem moves_fault (hGet : k.procs.get pid = some pr) {s : Space}
    (hFault : Moves ok ⟨k.pmm, pr.space.refs, pr.space.own⟩ ⟨p, s.refs, pr.space.own⟩ ∧
      s.own = pr.space.own) : Moves ok k.books (k.setProc pid p s pr.mmapNext).books := by
  refine moves_setProc hGet _ ?_
  rw [hFault.2]
  exact hFault.1

theorem moves_mmap (hGet : k.procs.get pid = some pr) (addr length : Nat) (flags : Flags)
    (fixed : Bool) : Moves ok k.books (k.mmap pid pr addr length flags fixed).books := by
  simp only [mmap]
  split
  · exact .refl _
  split
  · split
    · exact moves_setProc hGet _ (moves_reserveAll rfl)
    · exact .refl _
  · split
    · exact moves_setProc hGet _ (moves_reserveAll rfl)
    · exact .refl _

theorem moves_munmap (hGet : k.procs.get pid = some pr) (addr length : Nat) :
    Moves ok k.books (k.munmap pid pr addr length).books := by
  simp only [munmap]
  split
  · exact .refl _
  split
  · exact moves_setProc hGet _ (moves_munmapAll rfl)
  · exact .refl _

theorem mapPlan_frames (pr : Process) (frames : List Nat) :
    (mapPlan pr frames).map Prod.snd = frames :=
  map_snd_zip (by rw [pagesFrom, length_range'])

/-- References that stay in hand are lost. -/
theorem moves_left {left : List Nat} {R T : Multiset Nat} (hLost : (∀ g, ok (.lost g)) ∨ left = []) :
    Moves ok ⟨p, ↑left + R, T⟩ ⟨p, R, T⟩ := by
  rcases hLost with hOk | rfl
  · exact moves_lostAll p left _ _ fun g _ => hOk g
  · rw [coe_nil, zero_add]
    exact .refl _

/-- Mapping a run of frames for which references are in hand. -/
theorem moves_mapRun (bytes : Nat) (flags : Flags) (hLost : (∀ g, ok (.lost g)) ∨
      (Vacant pr.space (mapPlan pr frames) ∧ Roomy p (mapPlan pr frames))) :
    Moves ok ⟨p, ↑frames + (pr.space.refs + k.refsBut pid), pr.space.own + k.ownBut pid⟩
      (k.mapRun pid pr p bytes flags frames).books := by
  rw [mapRun, books_setProc]
  generalize hMap : mapAll p pr.space flags (mapPlan pr frames) = r
  obtain ⟨left, hDone, hMoves⟩ := moves_mapAll hMap (hLost.imp_right And.left)
  rw [mapPlan_frames] at hMoves
  refine .trans (hMoves.framed (k.refsBut pid) (k.ownBut pid) (add_assoc _ _ _).symm rfl
    rfl rfl) ?_
  rw [add_assoc]
  exact moves_left (hLost.imp_right fun h => hDone (.inr h.2))

theorem shareFrames_test {p' : Pmm} {taken : List Nat}
    (hShare : shareFrames p taken frames = (p', true)) :
    p'.test = p.test ∧ p'.frameCount = p.frameCount := by
  induction frames generalizing p taken with
  | nil =>
    cases hShare
    exact ⟨rfl, rfl⟩
  | cons frame rest ih =>
    simp only [shareFrames] at hShare
    generalize hOne : p.share frame = q at hShare
    obtain ⟨q, one⟩ := q
    cases one with
    | false => cases hShare
    | true =>
      obtain ⟨-, hTest, hCount, -⟩ := Pmm.share_true hOne
      obtain ⟨hTest', hCount'⟩ := ih hShare
      exact ⟨hTest'.trans hTest, hCount'.trans hCount⟩

theorem moves_shmMap (hGet : k.procs.get pid = some pr) (hSegment : k.segments.get id = some frames)
    (hLost : (∀ g, ok (.lost g)) ∨
      (Vacant pr.space (mapPlan pr frames) ∧ Roomy k.pmm (mapPlan pr frames))) :
    Moves ok k.books (k.shmMap pid pr frames).books := by
  simp only [shmMap]
  split
  · exact .refl _
  have hIn : ∀ frame ∈ frames, frame ∈ k.books.refs := fun frame hFrame =>
    mem_add.mpr (.inr (mem_add.mpr (.inl (mem_total hSegment hFrame))))
  generalize hShare : shareFrames k.pmm [] frames = q
  obtain ⟨q, done⟩ := q
  have hTaken : Moves ok k.books
      ⟨q, if done then ↑frames + k.books.refs else k.books.refs, k.books.own⟩ := by
    have hMoves : Moves ok ⟨k.pmm, ↑([] : List Nat) + k.books.refs, k.books.own⟩
        ⟨q, if done then (([] ++ frames : List Nat) : Multiset Nat) + k.books.refs
          else k.books.refs, k.books.own⟩ :=
      moves_shareFrames hShare k.books.refs k.books.own hIn
    rw [coe_nil, zero_add, nil_append] at hMoves
    exact hMoves
  cases done with
  | false => exact hTaken
  | true =>
    obtain ⟨hTest, hCount⟩ := shareFrames_test hShare
    refine hTaken.trans ?_
    rw [books_eq hGet]
    exact moves_mapRun _ _ (hLost.imp_right fun h => ⟨h.1, h.2.congr hTest hCount⟩)

theorem moves_mapFile (hGet : k.procs.get pid = some pr) (hImage : k.images.get id = some frames)
    (offset length : Nat) (exec : Bool) (hLost : (∀ g, ok (.lost g)) ∨
      (Vacant pr.space (mapPlan pr (wantedFrames frames offset length)) ∧
      Roomy k.pmm (mapPlan pr (wantedFrames frames offset length)))) :
    Moves ok k.books (k.mapFile pid pr frames offset length exec).books := by
  simp only [mapFile]
  split
  · exact .refl _
  have hIn : ∀ x ∈ mapPlan pr (wantedFrames frames offset length), x.2 ∈ k.refsBut pid := by
    intro x hx
    have hMem : x.2 ∈ frames := by
      have hMap : x.2 ∈ wantedFrames frames offset length := by
        rw [← mapPlan_frames pr (wantedFrames frames offset length)]
        exact List.mem_map.mpr ⟨x, hx, rfl⟩
      exact mem_of_mem_drop (mem_of_mem_take hMap)
    exact mem_add.mpr (.inr (mem_add.mpr (.inr (mem_total hImage hMem))))
  generalize hMap : mapFileAll k.pmm pr.space _ _ = r
  obtain ⟨p', s', done⟩ := r
  obtain ⟨left, hDone, hMoves⟩ := moves_mapFileAll hMap (k.refsBut pid) hIn
    (hLost.imp_right And.left)
  rw [books_eq hGet, books_setProc]
  refine .trans (hMoves.framed 0 (k.ownBut pid) (by rw [add_zero, add_comm]) rfl
    (add_zero _).symm rfl) ?_
  rw [add_comm s'.refs]
  exact moves_left (hLost.imp_right fun h => hDone h.2)

theorem moves_device (hGet : k.procs.get pid = some pr) (bytes : Nat) (flags : Flags)
    (hLost : ∀ g, ok (.lost g)) (hDevice : ∀ g ∈ frames, ok (.device g)) :
    Moves ok k.books (k.mapRun pid pr k.pmm bytes flags frames).books := by
  rw [books_eq hGet]
  exact (moves_deviceAll k.pmm frames _ _ hDevice).trans (moves_mapRun _ _ (.inl hLost))

theorem moves_fillAll (p : Pmm) (l : List Nat) (page : Page) (R T : Multiset Nat) :
    Moves ok ⟨p, R, T⟩ ⟨l.foldl (fun p frame => p.fillFrame frame page) p, R, T⟩ := by
  induction l generalizing p with
  | nil => exact .refl _
  | cons frame rest ih => exact (Move.fill frame page).moves.trans (ih _)

theorem moves_dmaAlloc (hGet : k.procs.get pid = some pr) (length : Nat)
    (hLost : ∀ g, ok (.lost g)) (hWild : ∀ g, k.pmm.test g = false → ok (.wild g)) :
    Moves ok k.books (k.dmaAlloc pid pr length).books := by
  simp only [dmaAlloc]
  split
  · exact .refl _
  generalize hAlloc : k.pmm.allocContiguous (pagesIn length) = a
  obtain ⟨start, q⟩ := a
  by_cases hZero : start = 0
  · rw [if_pos hZero]
    exact (Move.fullRun (hZero ▸ hAlloc)).moves
  rw [if_neg hZero]
  generalize hFrames : List.range' start (pagesIn length) = frames
  generalize hFill : frames.foldl (fun p frame => p.fillFrame frame zeros) q = p
  have hTaken : Moves ok k.books
      ⟨p, ↑frames + (pr.space.refs + k.refsBut pid), pr.space.own + k.ownBut pid⟩ := by
    rw [books_eq hGet, ← hFill]
    refine ((Move.contiguous hAlloc hZero).moves.trans ?_).trans
      (moves_fillAll q frames zeros _ _)
    rw [hFrames]
    exact moves_publishAll q frames _ _
  have hSnd : ((pagesFrom pr.mmapNext (pagesIn length)).zip frames).map Prod.snd = frames :=
    map_snd_zip (by rw [pagesFrom, length_range', ← hFrames, length_range'])
  generalize hMap : mapAll p pr.space sharedMapping
    ((pagesFrom pr.mmapNext (pagesIn length)).zip frames) = r
  obtain ⟨p', s', done⟩ := r
  obtain ⟨left, hDone, hMoves⟩ := moves_mapAll hMap (.inl hLost)
  rw [hSnd] at hMoves
  have hMapped : Moves ok k.books
      ⟨p', ↑left + (s'.refs + k.refsBut pid), s'.own + k.ownBut pid⟩ :=
    hTaken.trans (hMoves.framed (k.refsBut pid) (k.ownBut pid) (add_assoc _ _ _).symm rfl
      (add_assoc _ _ _).symm rfl)
  have hKept : Moves ok k.books ⟨p', s'.refs + k.refsBut pid, s'.own + k.ownBut pid⟩ :=
    hMapped.trans (moves_lostAll p' left _ _ fun g _ => hLost g)
  cases done with
  | true =>
    rw [if_pos rfl, books_setProc]
    exact hKept
  | false =>
    rw [if_neg Bool.false_ne_true, books_setProc, Pmm.freeContiguous, hFrames]
    refine hKept.trans (moves_wildAll p' frames _ _ fun g hg => hWild g ?_)
    exact Pmm.clear_of_mem (Pmm.allocContiguous_spec hAlloc hZero).1 (hFrames ▸ hg)

theorem moves_fork (hGet : k.procs.get pid = some pr) {child : Nat}
    (hChild : k.procs.get child = none)
    (hAgain : ∀ e ∈ pr.space.leaves, e.shared = true → ok (.again e.frame) ∨
      k.pmm.Shareable e.frame (pr.space.refs.count e.frame)) :
    Moves ok k.books (k.fork pid child pr).books := by
  simp only [fork]
  generalize hFork : Space.fork k.pmm pr.space = r
  obtain ⟨p, s, made⟩ := r
  obtain ⟨hMoves, hOwn⟩ := Space.moves_fork hFork hAgain
  have hMoves' : Moves ok k.books ⟨p, s.refs + k.refsBut pid + made.elim 0 Space.refs,
      s.own + k.ownBut pid + made.elim 0 Space.own⟩ := by
    rw [books_eq hGet, hOwn]
    exact hMoves.framed (k.refsBut pid) (pr.space.own + k.ownBut pid) rfl (zero_add _).symm
      (by abel) (add_comm _ _)
  cases made with
  | none =>
    rw [elim_none, elim_none, add_zero, add_zero] at hMoves'
    rw [books_setProc]
    exact hMoves'
  | some t =>
    have hNe : child ≠ pid := by
      rintro rfl
      rw [hGet] at hChild
      cases hChild
    have hNone : (k.setProc pid p s pr.mmapNext).procs.get child = none := by
      rw [setProc, get_set_of_ne _ _ hNe]
      exact hChild
    have hBefore := books_eq_of_none hNone
    rw [books_setProc, Books.mk.injEq] at hBefore
    have hBooks := books_setProc (k.setProc pid p s pr.mmapNext) child p t pr.mmapNext
    rw [← hBefore.2.1, ← hBefore.2.2, add_comm t.refs, add_comm t.own] at hBooks
    change Moves ok k.books
      ((k.setProc pid p s pr.mmapNext).setProc child p t pr.mmapNext).books
    rw [hBooks]
    exact hMoves'

theorem moves_exit (hGet : k.procs.get pid = some pr) :
    Moves ok k.books
      (State.books { k with pmm := Space.destroy k.pmm pr.space, procs := k.procs.erase pid }) := by
  rw [books_eq hGet]
  exact (moves_destroy k.pmm pr.space).framed (k.refsBut pid) (k.ownBut pid) rfl rfl
    (zero_add _).symm (zero_add _).symm

theorem moves_create (hNone : k.procs.get pid = none) {made : Option Space}
    (hCreate : Space.create k.pmm = (p, made)) :
    Moves ok k.books ⟨p, made.elim 0 Space.refs + k.refsBut pid,
      made.elim 0 Space.own + k.ownBut pid⟩ := by
  rw [books_eq_of_none hNone]
  exact (Space.moves_create hCreate).framed (k.refsBut pid) (k.ownBut pid) (zero_add _).symm
    (zero_add _).symm rfl rfl

/-- Frames allocated for a holder are handed to it. -/
theorem moves_allocHolder (contents : List Page) {hold : Pmm → List Nat → State}
    (hHold : ∀ p frames, (hold p frames).books = ⟨p, ↑frames + k.books.refs, k.books.own⟩) :
    Moves ok k.books (match allocFrames k.pmm [] contents with
      | (p, some frames) => hold p frames
      | (p, none) => { k with pmm := p }).books := by
  generalize hAlloc : allocFrames k.pmm [] contents = r
  obtain ⟨p, got⟩ := r
  have hMoves : Moves ok ⟨k.pmm, k.books.refs, ↑([] : List Nat) + k.books.own⟩
      ⟨p, k.books.refs, (got.elim 0 fun frames => ↑frames) + k.books.own⟩ :=
    moves_allocFrames hAlloc _ _
  rw [coe_nil, zero_add] at hMoves
  refine hMoves.trans ?_
  cases got with
  | none =>
    rw [elim_none, zero_add]
    exact .refl _
  | some frames =>
    simp only [hHold]
    exact moves_publishAll p frames _ _

theorem moves_shmOpen (hNone : k.segments.get id = none) (bytes : Nat) :
    Moves ok k.books (k.shmOpen id bytes).books := by
  unfold shmOpen
  split
  · exact .refl _
  refine moves_allocHolder _ fun p frames => ?_
  simp only [books, held, total_set_of_none _ hNone]
  congr 1
  abel

theorem moves_imageCreate (hNone : k.images.get id = none) (contents : List Page) :
    Moves ok k.books (k.imageCreate id contents).books := by
  refine moves_allocHolder contents fun p frames => ?_
  simp only [books, held, total_set_of_none _ hNone]
  congr 1
  abel

theorem moves_shmDestroy (hGet : k.segments.get id = some frames) :
    Moves ok k.books (State.books
      { k with pmm := frames.foldl Pmm.release k.pmm, segments := k.segments.erase id }) := by
  rw [books, held, total_of_some _ hGet, add_assoc (frames : Multiset Nat), add_left_comm]
  exact moves_releaseAll k.pmm frames _ _

theorem moves_imageDiscard (hGet : k.images.get id = some frames) :
    Moves ok k.books (State.books
      { k with pmm := frames.foldl Pmm.release k.pmm, images := k.images.erase id }) := by
  rw [books, held, total_of_some _ hGet, add_left_comm (total _ k.segments), add_left_comm]
  exact moves_releaseAll k.pmm frames _ _

/-- The faults an event needs: `fork` maps a frame shared for good again when it is out of
references, the mapping calls lose references when a page is taken or memory runs out, and
device memory comes from nowhere. -/
def Allowed (ok : Fault → Prop) (k : State) : Event → Prop
  | .fork pid _ => ∀ pr, k.procs.get pid = some pr → ∀ e ∈ pr.space.leaves, e.shared = true →
      ok (.again e.frame) ∨ k.pmm.Shareable e.frame (pr.space.refs.count e.frame)
  | .shmMap pid id => (∀ g, ok (.lost g)) ∨ ∀ pr frames, k.procs.get pid = some pr →
      k.segments.get id = some frames →
      Vacant pr.space (mapPlan pr frames) ∧ Roomy k.pmm (mapPlan pr frames)
  | .mapFile pid id offset length _ => (∀ g, ok (.lost g)) ∨ ∀ pr frames,
      k.procs.get pid = some pr → k.images.get id = some frames →
      Vacant pr.space (mapPlan pr (wantedFrames frames offset length)) ∧
        Roomy k.pmm (mapPlan pr (wantedFrames frames offset length))
  | .fbMap _ phys bytes => (∀ g, ok (.lost g)) ∧
      ∀ g ∈ framesFrom phys ((bytes + (kPageSize - 1)) / kPageSize), ok (.device g)
  | .mapPhysical _ addr length => (∀ g, ok (.lost g)) ∧
      ∀ g ∈ framesFrom (addr / kPageSize * kPageSize)
        (pagesIn ((length + (addr - addr / kPageSize * kPageSize)) % 2 ^ 64)), ok (.device g)
  | .dmaAlloc _ _ => (∀ g, ok (.lost g)) ∧ ∀ g, k.pmm.test g = false → ok (.wild g)
  | _ => True

/-- What an event does to the books, given the faults it needs. -/
theorem moves_next {e : Event} {k' : State} (hNext : k.next e = some k') (hOk : Allowed ok k e) :
    Moves ok k.books k'.books := by
  cases e with
  | create pid =>
    obtain ⟨hNone, hNext⟩ := ite_none_left_eq_some.mp hNext
    have hNone : k.procs.get pid = none := by simpa using hNone
    generalize hCreate : Space.create k.pmm = r at hNext
    obtain ⟨p, made⟩ := r
    have hMoves : Moves ok k.books ⟨p, made.elim 0 Space.refs + k.refsBut pid,
        made.elim 0 Space.own + k.ownBut pid⟩ := moves_create hNone hCreate
    cases made with
    | none =>
      obtain rfl := some.inj hNext
      have hBooks : (State.books { k with pmm := p }) =
          ⟨p, k.refsBut pid, k.ownBut pid⟩ := books_eq_of_none (k := { k with pmm := p }) hNone
      rw [hBooks, ← zero_add (k.refsBut pid), ← zero_add (k.ownBut pid)]
      exact hMoves
    | some s =>
      obtain rfl := some.inj hNext
      rw [books_setProc]
      exact hMoves
  | mmap pid addr length write exec fixed =>
    obtain ⟨pr, hGet, rfl⟩ := map_eq_some_iff.mp hNext
    exact moves_mmap hGet _ _ _ _
  | munmap pid addr length =>
    obtain ⟨pr, hGet, rfl⟩ := map_eq_some_iff.mp hNext
    exact moves_munmap hGet _ _
  | lazyFault pid page =>
    obtain ⟨pr, hGet, rfl⟩ := map_eq_some_iff.mp hNext
    exact moves_fault hGet (moves_handleLazyFault rfl pr.space.own)
  | cowFault pid page =>
    obtain ⟨pr, hGet, rfl⟩ := map_eq_some_iff.mp hNext
    exact moves_fault hGet (moves_handleCowFault rfl pr.space.own)
  | shmOpen id bytes =>
    obtain ⟨hNone, rfl⟩ := unless_inv hNext
    exact moves_shmOpen (by simpa using hNone) bytes
  | shmMap pid id =>
    obtain ⟨pr, hGet, hNext⟩ := bind_eq_some_iff.mp hNext
    obtain ⟨frames, hSegment, rfl⟩ := map_eq_some_iff.mp hNext
    exact moves_shmMap hGet hSegment (Or.imp_right (fun h => h pr frames hGet hSegment) hOk)
  | shmDestroy id =>
    obtain ⟨frames, hGet, rfl⟩ := map_eq_some_iff.mp hNext
    exact moves_shmDestroy hGet
  | imageCreate id contents =>
    obtain ⟨hNone, rfl⟩ := unless_inv hNext
    exact moves_imageCreate (by simpa using hNone) contents
  | imageDiscard id =>
    obtain ⟨frames, hGet, rfl⟩ := map_eq_some_iff.mp hNext
    exact moves_imageDiscard hGet
  | mapFile pid id offset length exec =>
    obtain ⟨pr, hGet, hNext⟩ := bind_eq_some_iff.mp hNext
    obtain ⟨frames, hImage, rfl⟩ := map_eq_some_iff.mp hNext
    exact moves_mapFile hGet hImage _ _ _
      (Or.imp_right (fun h => h pr frames hGet hImage) hOk)
  | fbMap pid phys bytes =>
    obtain ⟨pr, hGet, rfl⟩ := map_eq_some_iff.mp hNext
    rw [fbMap]
    split
    · exact .refl _
    · exact moves_device hGet _ _ hOk.1 hOk.2
  | mapPhysical pid addr length =>
    obtain ⟨pr, hGet, rfl⟩ := map_eq_some_iff.mp hNext
    simp only [mapPhysical]
    split
    · exact .refl _
    · refine moves_device hGet _ _ hOk.1 ?_
      rw [Nat.mul_div_cancel _ (by decide)]
      exact hOk.2
  | dmaAlloc pid length =>
    obtain ⟨pr, hGet, rfl⟩ := map_eq_some_iff.mp hNext
    exact moves_dmaAlloc hGet _ hOk.1 hOk.2
  | fork pid child =>
    obtain ⟨hNone, hNext⟩ := ite_none_left_eq_some.mp hNext
    obtain ⟨pr, hGet, rfl⟩ := map_eq_some_iff.mp hNext
    exact moves_fork hGet (by simpa using hNone) (hOk pr hGet)
  | exit pid =>
    obtain ⟨pr, hGet, rfl⟩ := map_eq_some_iff.mp hNext
    exact moves_exit hGet

end Moves
end State
end LeahOS.Mm
