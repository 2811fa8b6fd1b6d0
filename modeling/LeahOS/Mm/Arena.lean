import LeahOS.Mm.Device

/-!
# The addresses mapping calls hand out

`mmap` without `MAP_FIXED`, `ShmMap`, `MapPhysical`, `DmaAlloc`, `FbMap` and `MapFile` all place
what they map at `mmap_next` and move it behind. `granted` is the range such a call answers with,
and `Watched` is the memory of the machine with what happened to each process so far: the ranges it
was given and the highest value its `mmap_next` ever had.

Every call compares the sum of `mmap_next` and its length with the end of the arena, and the sum is
one of machine words. `separate_of_within` is about the runs in which it does not wrap.
-/

namespace LeahOS.Mm
open Lib Function List Option State

/-- The addresses from `base` on that a mapping call answered with. -/
structure Range where
  base : Nat
  bytes : Nat
deriving DecidableEq

/-- The page has an address of the range. -/
def Range.Touches (r : Range) (page : Nat) : Prop :=
  r.base < (page + 1) * kPageSize ∧ page * kPageSize < r.base + r.bytes

/-- No page has addresses of both. -/
def Range.Apart (r r' : Range) : Prop := ∀ page, r.Touches page → ¬ r'.Touches page

/-- The range lies in the arena. -/
def Range.Inside (r : Range) : Prop := kUserMmapBase ≤ r.base ∧ r.base + r.bytes ≤ kUserMmapEnd

namespace State

/-- The `mmap_next` of a process. -/
def cursor (k : State) (pid : Nat) : Option Nat := (k.procs.get pid).map Process.mmapNext

/-- The answer of `sys_mmap` where it chooses the address. -/
def mmapAnswer (k : State) (pr : Process) (addr length : Nat) (flags : Flags) (fixed : Bool) :
    Option Range :=
  let bytes := pagesIn length * kPageSize
  if length = 0 ∨ (fixed ∧ addr ≠ 0) ∨ !inArena pr.mmapNext bytes then none
  else if (reserveAll k.pmm pr.space flags (virtsFrom pr.mmapNext (pagesIn length))).2.2 then
    some ⟨pr.mmapNext, bytes⟩
  else none

/-- The answer where `mapRun` is the end of a call. -/
def mapAnswer (pr : Process) (p : Pmm) (bytes : Nat) (flags : Flags) (frames : List Nat) :
    Option Range :=
  if (mapAll p pr.space flags (mapPlan pr frames)).2.2 then some ⟨pr.mmapNext, bytes⟩ else none

/-- The answer of `ShmMap`. -/
def shmMapAnswer (k : State) (pr : Process) (frames : List Nat) : Option Range :=
  let bytes := frames.length * kPageSize
  if frames.length = 0 ∨ !inArena pr.mmapNext bytes then none
  else
    let q := shareFrames k.pmm [] frames
    if q.2 then mapAnswer pr q.1 bytes sharedMapping frames else none

/-- The answer of `FbMap`. -/
def fbMapAnswer (k : State) (pr : Process) (phys bytes : Nat) : Option Range :=
  if phys = 0 ∨ !inArena pr.mmapNext bytes then none
  else mapAnswer pr k.pmm bytes sharedMapping
    (framesFrom phys ((bytes + (kPageSize - 1)) / kPageSize))

/-- The answer of `MapPhysical`, as whole pages. -/
def mapPhysicalAnswer (k : State) (pr : Process) (addr length : Nat) : Option Range :=
  let phys := addr / kPageSize * kPageSize
  let bytes := pagesIn ((length + (addr - phys)) % 2 ^ 64) * kPageSize
  if bytes = 0 ∨ 64 * 2 ^ 20 < bytes ∨ !inArena pr.mmapNext bytes then none
  else mapAnswer pr k.pmm bytes deviceMapping (framesFrom phys (bytes / kPageSize))

/-- The answer of `DmaAlloc`. -/
def dmaAllocAnswer (k : State) (pr : Process) (length : Nat) : Option Range :=
  let n := pagesIn length
  let bytes := n * kPageSize
  if n = 0 ∨ 4096 < n ∨ !inArena pr.mmapNext bytes then none
  else
    let a := k.pmm.allocContiguous n
    if a.1 = 0 then none
    else
      let frames := List.range' a.1 n
      let p := frames.foldl (fun p frame => p.fillFrame frame zeros) a.2
      if (mapAll p pr.space sharedMapping ((pagesFrom pr.mmapNext n).zip frames)).2.2 then
        some ⟨pr.mmapNext, bytes⟩
      else none

/-- The answer of `MapFile`. -/
def mapFileAnswer (k : State) (pr : Process) (frames : List Nat) (offset length : Nat)
    (exec : Bool) : Option Range :=
  let bytes := pagesIn length * kPageSize
  if length = 0 ∨ !inArena pr.mmapNext bytes then none
  else
    let wanted := wantedFrames frames offset length
    let r := mapFileAll k.pmm pr.space
      { user := true, copyOnWrite := true, noExecute := !exec }
      (mapPlan pr wanted)
    if r.2.2 ∧ wanted ≠ [] then some ⟨pr.mmapNext, bytes⟩ else none

/-- The range a mapping call answers with, if it succeeds. -/
def granted (k : State) : Event → Option Range
  | .mmap pid addr length write exec fixed =>
    (k.procs.get pid).bind fun pr =>
      k.mmapAnswer pr addr length { user := true, write := write, noExecute := !exec } fixed
  | .shmMap pid id =>
    (k.procs.get pid).bind fun pr => (k.segments.get id).bind fun frames =>
      k.shmMapAnswer pr frames
  | .mapFile pid id offset length exec =>
    (k.procs.get pid).bind fun pr => (k.images.get id).bind fun frames =>
      k.mapFileAnswer pr frames offset length exec
  | .fbMap pid phys bytes => (k.procs.get pid).bind fun pr => k.fbMapAnswer pr phys bytes
  | .mapPhysical pid addr length =>
    (k.procs.get pid).bind fun pr => k.mapPhysicalAnswer pr addr length
  | .dmaAlloc pid length => (k.procs.get pid).bind fun pr => k.dmaAllocAnswer pr length
  | _ => none

end State

/-- The process that makes a mapping call. -/
def Event.caller : Event → Nat
  | .mmap pid .. | .shmMap pid _ | .mapFile pid .. | .fbMap pid .. | .mapPhysical pid ..
  | .dmaAlloc pid _ => pid
  | _ => 0

/-- The memory of the machine, and for each process the ranges it was given and the highest
`mmap_next` it had. -/
structure Watched where
  mem : State
  given : Nat → List Range
  peak : Nat → Nat

namespace Watched

/-- What is noted of a call by `pid` that answers with `g`. -/
def add (given : Nat → List Range) (pid : Nat) : Option Range → Nat → List Range
  | some r => update given pid (r :: given pid)
  | none => given

/-- What is noted about the ranges. A forked process has those of its parent. -/
def note (w : Watched) (e : Event) : Nat → List Range :=
  match e with
  | .create pid => update w.given pid []
  | .fork pid child => update w.given child (w.given pid)
  | e => add w.given e.caller (w.mem.granted e)

/-- What is noted about `mmap_next`: for a process that was there, whether it went up. -/
def notePeak (w : Watched) (k : State) (pid : Nat) : Nat :=
  if (w.mem.cursor pid).isSome then max (w.peak pid) ((k.cursor pid).getD 0)
  else (k.cursor pid).getD 0

def next (w : Watched) (e : Event) : Option Watched :=
  (w.mem.next e).map fun k => ⟨k, w.note e, w.notePeak k⟩

def Step (w : Watched) (e : Event) (w' : Watched) : Prop := w.next e = some w'

/-- Nothing was mapped yet. -/
structure Start (w : Watched) : Prop where
  procs : w.mem.procs = Assoc.empty
  segments : w.mem.segments = Assoc.empty
  images : w.mem.images = Assoc.empty

/-- No two ranges a process was given have a page in common, all lie in the arena, and `mmap_next`
is as high as it ever was. -/
def Separate (w : Watched) : Prop :=
  ∀ pid n, w.mem.cursor pid = some n →
    (w.given pid).Pairwise Range.Apart ∧ (∀ r ∈ w.given pid, r.Inside) ∧ w.peak pid = n

end Watched

/-! ### What a call does to `mmap_next` -/

/-- No sum of machine words wraps, and a framebuffer has whole pages. -/
def Fitting : Event → Prop
  | .mmap _ _ length _ _ _ | .mapFile _ _ _ length _ => length + kUserMmapEnd + kPageSize ≤ 2 ^ 64
  | .fbMap _ _ bytes => bytes % kPageSize = 0 ∧ bytes + kUserMmapEnd < 2 ^ 64
  | _ => True

instance (e : Event) : Decidable (Fitting e) := by
  induction e using Event.casesOn <;> unfold Fitting <;> infer_instance

/-- `mmap_next` may go from `n` to `n'` in a call that answers with `g`. -/
structure Ahead (n n' : Nat) (g : Option Range) : Prop where
  aligned : n' % kPageSize = 0
  le : n ≤ n'
  end_le : n' ≤ kUserMmapEnd
  granted : ∀ r, g = some r → r.base = n ∧ r.base + r.bytes ≤ n'

section Ahead
variable {n : Nat} (hAligned : n % kPageSize = 0) (hEnd : n ≤ kUserMmapEnd)
include hAligned hEnd

theorem ahead_refl : Ahead n n none := ⟨hAligned, le_rfl, hEnd, fun _ hNone => nomatch hNone⟩

theorem ahead_add {bytes : Nat} (hBytes : bytes % kPageSize = 0) (hFits : bytes + kUserMmapEnd < 2 ^ 64)
    (hArena : inArena n bytes = true) {g : Option Range} (hAnswer : g = none ∨ g = some ⟨n, bytes⟩) :
    Ahead n ((n + bytes) % 2 ^ 64) g := by
  have hSum : (n + bytes) % 2 ^ 64 = n + bytes := Nat.mod_eq_of_lt (by omega)
  have hLe : n + bytes ≤ kUserMmapEnd := by
    rw [← hSum]
    exact of_decide_eq_true hArena
  rw [hSum]
  refine ⟨?_, Nat.le_add_right n bytes, hLe, fun r hr => ?_⟩
  · rw [Nat.add_mod, hAligned, hBytes]
    exact Nat.zero_mod _
  · rcases hAnswer with rfl | rfl
    · cases hr
    · obtain rfl := some.inj hr
      exact ⟨rfl, le_rfl⟩

end Ahead

theorem pagesIn_bytes {length : Nat} (hLength : length + kUserMmapEnd + kPageSize ≤ 2 ^ 64) :
    pagesIn length * kPageSize % kPageSize = 0 ∧
      pagesIn length * kPageSize + kUserMmapEnd < 2 ^ 64 := by
  unfold pagesIn kPageSize kUserMmapEnd at *
  omega

namespace State
variable {k k' : State} {pid n : Nat} {pr : Process}

/-- A call moves the `mmap_next` of its process ahead and no other. -/
def Bumps (k k' : State) (pid n : Nat) (g : Option Range) : Prop :=
  ∃ n', Ahead n n' g ∧ ∀ q, k'.cursor q = if q = pid then some n' else k.cursor q

theorem cursor_setProc (k : State) (pid : Nat) (p : Pmm) (s : Space) (n q : Nat) :
    (k.setProc pid p s n).cursor q = if q = pid then some n else k.cursor q := by
  unfold cursor setProc
  simp only [Assoc.get_set]
  split
  next => rfl
  next => rfl

theorem cursor_of_get (hGet : k.procs.get pid = some pr) : k.cursor pid = some pr.mmapNext := by
  rw [cursor, hGet]
  rfl

theorem cursor_of_free (hFree : ¬ (k.procs.get pid).isSome = true) : k.cursor pid = none := by
  rw [cursor, not_isSome_iff_eq_none.mp hFree]
  rfl

/-- Another space for a process. -/
theorem cursor_setProc_self (hGet : k.procs.get pid = some pr) (p : Pmm) (s : Space) (q : Nat) :
    (k.setProc pid p s pr.mmapNext).cursor q = k.cursor q := by
  rw [cursor_setProc]
  split
  next hEq => rw [hEq, cursor_of_get hGet]
  next => rfl

theorem bumps_setProc (p : Pmm) (s : Space) {n' : Nat} {g : Option Range} (hAhead : Ahead n n' g) :
    Bumps k (k.setProc pid p s n') pid n g :=
  ⟨n', hAhead, cursor_setProc k pid p s n'⟩

/-- A call that leaves the processes alone. -/
theorem bumps_of_procs (hCursor : k.cursor pid = some n) (hSame : k'.procs = k.procs)
    (hAligned : n % kPageSize = 0) (hEnd : n ≤ kUserMmapEnd) : Bumps k k' pid n none := by
  refine ⟨n, ahead_refl hAligned hEnd, fun q => ?_⟩
  have hCursors : k'.cursor q = k.cursor q := by rw [cursor, cursor, hSame]
  split
  next hEq => rw [hCursors, hEq, hCursor]
  next => exact hCursors

section Calls
variable (hGet : k.procs.get pid = some pr) (hAligned : pr.mmapNext % kPageSize = 0)
  (hEnd : pr.mmapNext ≤ kUserMmapEnd)
include hGet hAligned hEnd

theorem bumps_refl : Bumps k k pid pr.mmapNext none :=
  bumps_of_procs (cursor_of_get hGet) rfl hAligned hEnd

variable {bytes length : Nat}

theorem bumps_mmap (addr : Nat) (flags : Flags) (fixed : Bool)
    (hLength : length + kUserMmapEnd + kPageSize ≤ 2 ^ 64) :
    Bumps k (k.mmap pid pr addr length flags fixed) pid pr.mmapNext
      (k.mmapAnswer pr addr length flags fixed) := by
  obtain ⟨hBytes, hFits⟩ := pagesIn_bytes hLength
  unfold mmap mmapAnswer
  simp only
  by_cases hZero : length = 0
  · rw [if_pos hZero, if_pos (.inl hZero)]
    exact bumps_refl hGet hAligned hEnd
  rw [if_neg hZero]
  by_cases hFixed : fixed ∧ addr ≠ 0
  · rw [if_pos hFixed, if_pos (Or.inr (Or.inl hFixed))]
    split
    next => exact bumps_setProc _ _ (ahead_refl hAligned hEnd)
    next => exact bumps_refl hGet hAligned hEnd
  rw [if_neg hFixed]
  by_cases hArena : inArena pr.mmapNext (pagesIn length * kPageSize) = true
  · rw [if_pos hArena, if_neg (by simp [hZero, hFixed, hArena])]
    refine bumps_setProc _ _ (ahead_add hAligned hEnd hBytes hFits hArena ?_)
    split
    next => exact .inr rfl
    next => exact .inl rfl
  · rw [if_neg hArena, if_pos (by simp [hArena])]
    exact bumps_refl hGet hAligned hEnd

omit hGet in
/-- The end of the mapping calls. -/
theorem bumps_mapRun (p : Pmm) (flags : Flags) (frames : List Nat) (hBytes : bytes % kPageSize = 0)
    (hFits : bytes + kUserMmapEnd < 2 ^ 64) (hArena : inArena pr.mmapNext bytes = true) :
    Bumps k (k.mapRun pid pr p bytes flags frames) pid pr.mmapNext
      (mapAnswer pr p bytes flags frames) := by
  unfold mapRun mapAnswer
  refine bumps_setProc _ _ ?_
  split
  next => exact ahead_add hAligned hEnd hBytes hFits hArena (.inr rfl)
  next => exact ahead_refl hAligned hEnd

theorem bumps_shmMap {frames : List Nat} (hSmall : frames.length ≤ 4096) :
    Bumps k (k.shmMap pid pr frames) pid pr.mmapNext (k.shmMapAnswer pr frames) := by
  unfold shmMap shmMapAnswer
  simp only
  split
  next => exact bumps_refl hGet hAligned hEnd
  next hOk =>
    rw [not_or] at hOk
    split
    next =>
      refine bumps_mapRun hAligned hEnd _ _ _ (Nat.mul_mod_left _ _) ?_ (by simpa using hOk.2)
      unfold kPageSize kUserMmapEnd
      omega
    next => exact bumps_of_procs (cursor_of_get hGet) rfl hAligned hEnd

theorem bumps_fbMap {phys : Nat} (hBytes : bytes % kPageSize = 0)
    (hFits : bytes + kUserMmapEnd < 2 ^ 64) :
    Bumps k (k.fbMap pid pr phys bytes) pid pr.mmapNext (k.fbMapAnswer pr phys bytes) := by
  unfold fbMap fbMapAnswer
  split
  next => exact bumps_refl hGet hAligned hEnd
  next hOk =>
    rw [not_or] at hOk
    exact bumps_mapRun hAligned hEnd _ _ _ hBytes hFits (by simpa using hOk.2)

theorem bumps_mapPhysical (addr length : Nat) :
    Bumps k (k.mapPhysical pid pr addr length) pid pr.mmapNext
      (k.mapPhysicalAnswer pr addr length) := by
  unfold mapPhysical mapPhysicalAnswer
  simp only
  split
  next => exact bumps_refl hGet hAligned hEnd
  next hOk =>
    rw [not_or, not_or] at hOk
    refine bumps_mapRun hAligned hEnd _ _ _ (Nat.mul_mod_left _ _) ?_ (by simpa using hOk.2.2)
    unfold kUserMmapEnd
    omega

theorem bumps_dmaAlloc (length : Nat) :
    Bumps k (k.dmaAlloc pid pr length) pid pr.mmapNext (k.dmaAllocAnswer pr length) := by
  unfold dmaAlloc dmaAllocAnswer
  simp only
  split
  next => exact bumps_refl hGet hAligned hEnd
  next hOk =>
    rw [not_or, not_or] at hOk
    split
    next => exact bumps_of_procs (cursor_of_get hGet) rfl hAligned hEnd
    next =>
      have hFits : pagesIn length * kPageSize + kUserMmapEnd < 2 ^ 64 := by
        unfold kPageSize kUserMmapEnd
        omega
      split
      next =>
        exact bumps_setProc _ _ (ahead_add hAligned hEnd (Nat.mul_mod_left _ _) hFits
          (by simpa using hOk.2.2) (.inr rfl))
      next => exact bumps_setProc _ _ (ahead_refl hAligned hEnd)

theorem bumps_mapFile (frames : List Nat) (offset : Nat) (exec : Bool)
    (hLength : length + kUserMmapEnd + kPageSize ≤ 2 ^ 64) :
    Bumps k (k.mapFile pid pr frames offset length exec) pid pr.mmapNext
      (k.mapFileAnswer pr frames offset length exec) := by
  obtain ⟨hBytes, hFits⟩ := pagesIn_bytes hLength
  unfold mapFile mapFileAnswer
  simp only
  split
  next => exact bumps_refl hGet hAligned hEnd
  next hOk =>
    rw [not_or] at hOk
    refine bumps_setProc _ _ ?_
    split
    next =>
      exact ahead_add hAligned hEnd hBytes hFits (by simpa using hOk.2) (.inr rfl)
    next => exact ahead_refl hAligned hEnd

end Calls
end State

/-! ### The segments -/

theorem length_allocFrames {p p' : Pmm} {taken frames : List Nat} {contents : List Page}
    (hAlloc : allocFrames p taken contents = (p', some frames)) :
    frames.length = taken.length + contents.length := by
  induction contents generalizing p taken with
  | nil =>
    cases hAlloc
    rfl
  | cons page rest ih =>
    simp only [allocFrames] at hAlloc
    split at hAlloc
    next => cases hAlloc
    next =>
      have hRest := ih hAlloc
      rw [length_append, length_singleton] at hRest
      rw [hRest, length_cons]
      omega

namespace State

/-- A segment has at most 4096 pages. -/
def SmallSegments (k : State) : Prop :=
  ∀ id frames, k.segments.get id = some frames → frames.length ≤ 4096

variable {k k' : State}

theorem SmallSegments.of_eq (hSmall : k.SmallSegments) (hSame : k'.segments = k.segments) :
    k'.SmallSegments := by
  unfold SmallSegments
  rw [hSame]
  exact hSmall

theorem SmallSegments.shmOpen (hSmall : k.SmallSegments) (id bytes : Nat) :
    (k.shmOpen id bytes).SmallSegments := by
  unfold State.shmOpen
  split
  next => exact hSmall
  next hPages =>
    split
    next p frames hAlloc =>
      have hLength := length_allocFrames hAlloc
      rw [length_nil, length_replicate, Nat.zero_add] at hLength
      intro id' frames' hGet
      simp only [Assoc.get_set] at hGet
      split at hGet
      next =>
        obtain rfl := some.inj hGet
        omega
      next => exact hSmall id' frames' hGet
    next => exact hSmall

theorem smallSegments_next {e : Event} (hSmall : k.SmallSegments) (hStep : k.next e = some k') :
    k'.SmallSegments := by
  cases e with
  | shmOpen id bytes =>
    obtain ⟨-, rfl⟩ := unless_inv hStep
    exact hSmall.shmOpen id bytes
  | shmDestroy id =>
    obtain ⟨frames, -, rfl⟩ := map_eq_some_iff.mp hStep
    intro id' frames' hGet
    simp only [Assoc.get_erase] at hGet
    split at hGet
    next => cases hGet
    next => exact hSmall id' frames' hGet
  | create pid =>
    obtain ⟨-, hEq⟩ := ite_none_left_eq_some.mp hStep
    refine hSmall.of_eq ?_
    split at hEq
    · obtain rfl := some.inj hEq
      rfl
    · obtain rfl := some.inj hEq
      rfl
  | mmap | munmap | fbMap | mapPhysical | dmaAlloc =>
    obtain ⟨pr, -, rfl⟩ := map_eq_some_iff.mp hStep
    refine hSmall.of_eq ?_
    simp only [mmap, munmap, fbMap, mapPhysical, dmaAlloc]
    split_ifs <;> rfl
  | lazyFault | cowFault | exit | imageDiscard =>
    obtain ⟨_, -, rfl⟩ := map_eq_some_iff.mp hStep
    exact hSmall.of_eq rfl
  | shmMap | mapFile =>
    obtain ⟨pr, -, hMap⟩ := bind_eq_some_iff.mp hStep
    obtain ⟨frames, -, rfl⟩ := map_eq_some_iff.mp hMap
    refine hSmall.of_eq ?_
    simp only [shmMap, mapFile]
    split_ifs <;> rfl
  | imageCreate id contents =>
    obtain ⟨-, rfl⟩ := unless_inv hStep
    refine hSmall.of_eq ?_
    unfold imageCreate
    split <;> rfl
  | fork pid child =>
    obtain ⟨-, hEq⟩ := ite_none_left_eq_some.mp hStep
    obtain ⟨pr, -, rfl⟩ := map_eq_some_iff.mp hEq
    refine hSmall.of_eq ?_
    unfold fork
    simp only
    split <;> rfl

theorem procs_shmOpen (k : State) (id bytes : Nat) : (k.shmOpen id bytes).procs = k.procs := by
  unfold shmOpen
  split
  next => rfl
  next => split <;> rfl

theorem procs_imageCreate (k : State) (id : Nat) (contents : List Page) :
    (k.imageCreate id contents).procs = k.procs := by
  unfold imageCreate
  split <;> rfl

end State

/-! ### Every process -/

/-- What holds of a process: `mmap_next` is a page of the arena, as high as it ever was, and behind
all ranges the process was given. -/
structure Fair (n : Nat) (given : List Range) (peak : Nat) : Prop where
  aligned : n % kPageSize = 0
  base_le : kUserMmapBase ≤ n
  le_end : n ≤ kUserMmapEnd
  peak : peak = n
  apart : given.Pairwise Range.Apart
  below : ∀ r ∈ given, kUserMmapBase ≤ r.base ∧ r.base + r.bytes ≤ n

variable {given : List Range} {n n' peak : Nat}

theorem Fair.ahead (hFair : Fair n given peak) (hAhead : Ahead n n' none) :
    Fair n' given (max peak n') := by
  refine ⟨hAhead.aligned, hFair.base_le.trans hAhead.le, hAhead.end_le, ?_, hFair.apart, ?_⟩
  · rw [hFair.peak]
    exact max_eq_right hAhead.le
  · intro r hr
    obtain ⟨hBase, hBelow⟩ := hFair.below r hr
    exact ⟨hBase, hBelow.trans hAhead.le⟩

/-- One more range, behind all others. -/
theorem Fair.grant (hFair : Fair n given peak) {r : Range} (hAhead : Ahead n n' (some r)) :
    Fair n' (r :: given) (max peak n') := by
  obtain ⟨hBase, hBytes⟩ := hAhead.granted r rfl
  have hNext : Ahead n n' none :=
    { hAhead with granted := fun _ hNone => nomatch hNone }
  obtain ⟨hAligned, hBaseLe, hEnd, hPeak, hApart, hBelow⟩ := hFair.ahead hNext
  refine ⟨hAligned, hBaseLe, hEnd, hPeak, pairwise_cons.mpr ⟨?_, hApart⟩, ?_⟩
  · intro r' hr' page hHere hThere
    obtain ⟨-, hLower⟩ := hFair.below r' hr'
    have hFirst := hFair.aligned
    unfold Range.Touches kPageSize at *
    omega
  · intro r' hr'
    rcases mem_cons.mp hr' with rfl | hOld
    · exact ⟨hBase ▸ hFair.base_le, hBytes⟩
    · exact hBelow r' hOld

namespace Watched
variable {w : Watched} {k : State}

structure Good (w : Watched) : Prop where
  segments : w.mem.SmallSegments
  each : ∀ pid n, w.mem.cursor pid = some n → Fair n (w.given pid) (w.peak pid)

variable {n pid : Nat} {g : Option Range} {pr : Process}

theorem notePeak_of_some {n' : Nat} (hCursor : w.mem.cursor pid = some n)
    (hAfter : k.cursor pid = some n') : w.notePeak k pid = max (w.peak pid) n' := by
  rw [notePeak, hCursor, hAfter]
  rfl

theorem Good.stays (hGood : w.Good) (hSame : k.cursor pid = w.mem.cursor pid)
    (hAfter : k.cursor pid = some n) : Fair n (w.given pid) (w.notePeak k pid) := by
  have hBefore := hSame.symm.trans hAfter
  have hFair := hGood.each pid n hBefore
  rw [notePeak_of_some hBefore hAfter]
  exact hFair.ahead (ahead_refl hFair.aligned hFair.le_end)

/-- Processes whose `mmap_next` stays or that go. -/
theorem Good.quiet (hGood : w.Good) (hSegments : k.SmallSegments)
    (hCursors : ∀ q, k.cursor q = w.mem.cursor q ∨ k.cursor q = none) :
    Good ⟨k, w.given, w.notePeak k⟩ := by
  refine ⟨hSegments, fun q n hAfter => ?_⟩
  rcases hCursors q with hSame | hNone
  · exact hGood.stays hSame hAfter
  · cases hAfter.symm.trans hNone

theorem Good.bumps (hGood : w.Good) (hSegments : k.SmallSegments)
    (hCursor : w.mem.cursor pid = some n) (hBumps : State.Bumps w.mem k pid n g) :
    Good ⟨k, add w.given pid g, w.notePeak k⟩ := by
  obtain ⟨n', hAhead, hCursors⟩ := hBumps
  refine ⟨hSegments, fun q m hAfter => ?_⟩
  change Fair m (add w.given pid g q) (w.notePeak k q)
  have hAt := hCursors q
  split at hAt
  next hEq =>
    subst hEq
    obtain rfl : n' = m := some.inj (hAt.symm.trans hAfter)
    have hFair := hGood.each q n hCursor
    rw [notePeak_of_some hCursor hAfter]
    cases g with
    | none => exact hFair.ahead hAhead
    | some r =>
      simp only [add, update_self]
      exact hFair.grant hAhead
  next hNe =>
    have hGiven : add w.given pid g q = w.given q := by
      cases g with
      | none => rfl
      | some r => exact update_of_ne hNe ..
    rw [hGiven]
    exact hGood.stays hAt hAfter

/-- A new process, with the ranges and the `mmap_next` it starts with. -/
theorem Good.born (hGood : w.Good) (hSegments : k.SmallSegments) {given : List Range}
    (hNone : w.mem.cursor pid = none) (hFair : Fair n given n)
    (hCursors : ∀ q, k.cursor q = w.mem.cursor q ∨ q = pid ∧ k.cursor q = some n) :
    Good ⟨k, update w.given pid given, w.notePeak k⟩ := by
  refine ⟨hSegments, fun q m hAfter => ?_⟩
  change Fair m (update w.given pid given q) (w.notePeak k q)
  by_cases hEq : q = pid
  · subst hEq
    rcases hCursors q with hSame | ⟨-, hSome⟩
    · rw [hSame, hNone] at hAfter
      cases hAfter
    · obtain rfl : n = m := some.inj (hSome.symm.trans hAfter)
      have hPeak : w.notePeak k q = n := by
        rw [notePeak, hNone, hSome]
        rfl
      rw [update_self, hPeak]
      exact hFair
  · rcases hCursors q with hSame | ⟨hPid, -⟩
    · rw [update_of_ne hEq]
      exact hGood.stays hSame hAfter
    · exact absurd hPid hEq

theorem add_bind {α : Type} {o : Option α} {a : α} (hSome : o = some a) (given : Nat → List Range)
    (pid : Nat) (f : α → Option Range) : add given pid (o.bind f) = add given pid (f a) := by
  rw [hSome]
  rfl

/-- The calls that map at `mmap_next`. -/
theorem Good.call (hGood : w.Good) (hSegments : k.SmallSegments)
    (hGet : w.mem.procs.get pid = some pr)
    (hBumps : pr.mmapNext % kPageSize = 0 → pr.mmapNext ≤ kUserMmapEnd →
      State.Bumps w.mem k pid pr.mmapNext g) {given : Nat → List Range}
    (hGiven : given = add w.given pid g) : Good ⟨k, given, w.notePeak k⟩ := by
  have hCursor := cursor_of_get hGet
  have hFair := hGood.each pid _ hCursor
  rw [hGiven]
  exact hGood.bumps hSegments hCursor (hBumps hFair.aligned hFair.le_end)

/-- A step that changes the space of one process. -/
theorem Good.settle (hGood : w.Good) (p : Pmm) (s : Space) (hGet : w.mem.procs.get pid = some pr) :
    Good ⟨w.mem.setProc pid p s pr.mmapNext, w.given,
      w.notePeak (w.mem.setProc pid p s pr.mmapNext)⟩ :=
  hGood.quiet (hGood.segments.of_eq rfl) fun q => .inl (cursor_setProc_self hGet p s q)

theorem good_step {w' : Watched} {e : Event} (hGood : w.Good) (hFit : Fitting e)
    (hStep : Step w e w') : w'.Good := by
  obtain ⟨k, hNext, rfl⟩ := map_eq_some_iff.mp hStep
  have hSegments := smallSegments_next hGood.segments hNext
  cases e with
  | create pid =>
    obtain ⟨hFree, hEq⟩ := ite_none_left_eq_some.mp hNext
    refine hGood.born (n := kUserMmapBase) hSegments (cursor_of_free hFree)
      ⟨by decide, le_rfl, by decide, rfl, List.Pairwise.nil, fun _ hr => nomatch hr⟩ fun q => ?_
    split at hEq
    next p hCreate =>
      obtain rfl := some.inj hEq
      exact .inl rfl
    next p s hCreate =>
      obtain rfl := some.inj hEq
      rw [cursor_setProc]
      split
      next hPid => exact .inr ⟨hPid, rfl⟩
      next => exact .inl rfl
  | fork pid child =>
    obtain ⟨hFree, hEq⟩ := ite_none_left_eq_some.mp hNext
    obtain ⟨pr, hGet, rfl⟩ := map_eq_some_iff.mp hEq
    refine hGood.born hSegments (cursor_of_free hFree) (n := pr.mmapNext) ?_ fun q => ?_
    · exact { hGood.each pid _ (cursor_of_get hGet) with peak := rfl }
    · unfold State.fork
      simp only
      split
      next => exact .inl (cursor_setProc_self hGet _ _ q)
      next s hSome =>
        by_cases hPid : q = child
        · exact .inr ⟨hPid, (cursor_setProc _ child _ s pr.mmapNext q).trans (if_pos hPid)⟩
        · exact .inl (((cursor_setProc _ child _ s pr.mmapNext q).trans (if_neg hPid)).trans
            (cursor_setProc_self hGet _ _ q))
  | mmap pid addr length write exec fixed =>
    obtain ⟨pr, hGet, rfl⟩ := map_eq_some_iff.mp hNext
    exact hGood.call hSegments hGet
      (fun hAligned hEnd => bumps_mmap hGet hAligned hEnd addr _ fixed hFit)
      (add_bind hGet ..)
  | munmap pid addr length =>
    obtain ⟨pr, hGet, rfl⟩ := map_eq_some_iff.mp hNext
    unfold State.munmap
    simp only
    split_ifs
    next => exact hGood.quiet hGood.segments fun q => .inl rfl
    next => exact hGood.settle _ _ hGet
    next => exact hGood.quiet hGood.segments fun q => .inl rfl
  | lazyFault | cowFault =>
    obtain ⟨pr, hGet, rfl⟩ := map_eq_some_iff.mp hNext
    exact hGood.settle _ _ hGet
  | shmMap pid id =>
    obtain ⟨pr, hGet, hMap⟩ := bind_eq_some_iff.mp hNext
    obtain ⟨frames, hFrames, rfl⟩ := map_eq_some_iff.mp hMap
    exact hGood.call hSegments hGet
      (fun hAligned hEnd =>
        bumps_shmMap hGet hAligned hEnd (hGood.segments id frames hFrames))
      ((add_bind hGet ..).trans (add_bind hFrames ..))
  | mapFile pid id offset length exec =>
    obtain ⟨pr, hGet, hMap⟩ := bind_eq_some_iff.mp hNext
    obtain ⟨frames, hFrames, rfl⟩ := map_eq_some_iff.mp hMap
    exact hGood.call hSegments hGet
      (fun hAligned hEnd => bumps_mapFile hGet hAligned hEnd frames offset exec hFit)
      ((add_bind hGet ..).trans (add_bind hFrames ..))
  | fbMap pid phys bytes =>
    obtain ⟨pr, hGet, rfl⟩ := map_eq_some_iff.mp hNext
    exact hGood.call hSegments hGet
      (fun hAligned hEnd => bumps_fbMap hGet hAligned hEnd hFit.1 hFit.2)
      (add_bind hGet ..)
  | mapPhysical pid addr length =>
    obtain ⟨pr, hGet, rfl⟩ := map_eq_some_iff.mp hNext
    exact hGood.call hSegments hGet
      (fun hAligned hEnd => bumps_mapPhysical hGet hAligned hEnd addr length)
      (add_bind hGet ..)
  | dmaAlloc pid length =>
    obtain ⟨pr, hGet, rfl⟩ := map_eq_some_iff.mp hNext
    exact hGood.call hSegments hGet
      (fun hAligned hEnd => bumps_dmaAlloc hGet hAligned hEnd length) (add_bind hGet ..)
  | shmOpen id bytes =>
    obtain ⟨-, rfl⟩ := unless_inv hNext
    refine hGood.quiet hSegments fun q => .inl ?_
    rw [State.cursor, State.cursor, procs_shmOpen]
  | shmDestroy | imageDiscard =>
    obtain ⟨frames, -, rfl⟩ := map_eq_some_iff.mp hNext
    exact hGood.quiet hSegments fun q => .inl rfl
  | imageCreate id contents =>
    obtain ⟨-, rfl⟩ := unless_inv hNext
    refine hGood.quiet hSegments fun q => .inl ?_
    rw [State.cursor, State.cursor, procs_imageCreate]
  | exit pid =>
    obtain ⟨pr, -, rfl⟩ := map_eq_some_iff.mp hNext
    refine hGood.quiet hSegments fun q => ?_
    simp only [State.cursor, Assoc.get_erase]
    split
    next => exact .inr rfl
    next => exact .inl rfl

theorem Good.separate (hGood : w.Good) : w.Separate := by
  intro pid n hCursor
  obtain ⟨-, -, hEnd, hPeak, hApart, hBelow⟩ := hGood.each pid n hCursor
  exact ⟨hApart, fun r hr => ⟨(hBelow r hr).1, (hBelow r hr).2.trans hEnd⟩, hPeak⟩

theorem good_of_start (hStart : w.Start) : w.Good := by
  refine ⟨fun id frames hGet => ?_, fun pid n hCursor => ?_⟩
  · rw [hStart.segments] at hGet
    cases hGet
  · rw [State.cursor, hStart.procs] at hCursor
    cases hCursor

/-- In every run whose calls do not make a sum wrap, the ranges a process is given are apart and in
the arena, and its `mmap_next` never decreases. -/
theorem separate_of_fitting {w₀ w : Watched} {es : List Event} (hStart : w₀.Start)
    (hRun : Run (Restrict (fun _ e => Fitting e) Step) w₀ es w) : w.Separate := by
  exact (hRun.invariant_of (I := Good) (fun _ _ _ => good_step) (good_of_start hStart)).separate

/-! ### A length that wraps -/

/-- A machine before the first process, with nothing noted. -/
def boot : Option Watched :=
  (Mm.boot holedMap 0x100000 0x108000).map fun k => ⟨k, fun _ => [], fun _ => 0⟩

theorem start_of_boot (hBoot : boot = some w) : w.Start := by
  obtain ⟨k, hMem, rfl⟩ := map_eq_some_iff.mp hBoot
  obtain ⟨-, hProcs, hSegments, hImages⟩ := booted_of_boot hMem
  exact ⟨hProcs, hSegments, hImages⟩

/-- A process maps a page, then an image of one page with a length that takes `mmap_next` back by a
page, and then a page again. -/
def wrappingEvents : List Event :=
  [.create 1, .imageCreate 0 [zeros], .mmap 1 0 4096 true false false,
    .mapFile 1 0 0 (2 ^ 64 - 4096) false, .mmap 1 0 4096 true false false]

/-- The first range and the last are the same. -/
theorem not_separate_wrappingEvents : ¬ ∀ w₀ w es, Start w₀ → Run Step w₀ es w → w.Separate := by
  intro hAll
  have hEnd : (boot.bind fun w₀ => (wrappingEvents.foldlM next w₀).map
      fun w => (w.mem.cursor 1, w.given 1)) =
      some (some 0x40001000, [⟨0x40000000, 4096⟩, ⟨0x40001000, 2 ^ 64 - 4096⟩, ⟨0x40000000, 4096⟩]) := by
    decide +kernel
  obtain ⟨w₀, hBoot, hEnd⟩ := bind_eq_some_iff.mp hEnd
  obtain ⟨w, hEs, hState⟩ := map_eq_some_iff.mp hEnd
  obtain ⟨hCursor, hGiven⟩ := Prod.mk.inj hState
  obtain ⟨hApart, -, -⟩ := hAll w₀ w wrappingEvents (start_of_boot hBoot)
    (.of_foldlM (fun _ _ _ h => h) _ hEs) 1 _ hCursor
  rw [hGiven] at hApart
  have hFirst := (pairwise_cons.mp hApart).1 ⟨0x40000000, 4096⟩ (by simp)
  have hTouches : Range.Touches ⟨0x40000000, 4096⟩ 0x40000 := ⟨by decide, by decide⟩
  exact hFirst 0x40000 hTouches hTouches

/-- All six kinds of calls, in one process and after a fork. -/
def fittingEvents : List Event :=
  [.create 1, .imageCreate 0 [zeros, zeros], .shmOpen 0 5000, .mmap 1 0 4097 true false false,
    .shmMap 1 0, .mapFile 1 0 4096 9000 true, .fbMap 1 0xFD000000 8192, .mapPhysical 1 0xFEE00010 32,
    .fork 1 2, .dmaAlloc 2 4096, .mmap 1 0 1 true false false]

theorem separate_fittingEvents : ∃ w₀ w, Start w₀ ∧
    Run (Restrict (fun _ e => Fitting e) Step) w₀ fittingEvents w ∧ (w.given 1).length = 6 ∧
      w.Separate := by
  have hEnd : (boot.bind fun w₀ =>
      (fittingEvents.foldlM (guarded (fun _ e => Fitting e) next) w₀).map
        fun w => (w.given 1).length) = some 6 := by
    decide +kernel
  obtain ⟨w₀, hBoot, hEnd⟩ := bind_eq_some_iff.mp hEnd
  obtain ⟨w, hEs, hLength⟩ := map_eq_some_iff.mp hEnd
  have hRun : Run (Restrict (fun _ e => Fitting e) Step) w₀ fittingEvents w :=
    Run.of_guarded (fun _ _ _ h => h) _ hEs
  exact ⟨w₀, w, start_of_boot hBoot, hRun, hLength, separate_of_fitting (start_of_boot hBoot) hRun⟩

end Watched
end LeahOS.Mm
