import LeahOS.Lib.Tally

/-!
# The frame allocator (`kernel/mm/pmm.cpp`)

Physical memory is named by frame numbers: an address `a` the code passes around is the
frame `a >> kPageShift`, and `0` is the failed allocation, as in the code. The bitmap is a
predicate on frames, the word `w` holding the frames `64 * w` to `64 * w + 63`. Addresses
of the firmware's memory map are machine words and wrap.

`mem` is what the frames hold: freeing a frame poisons it. `check_poison` only prints, and
the locks are not part of the model, every function here running under `g_lock`.

Each function has a specification in terms of four observations: which bits are set
(`test`), how many references are recorded beyond the first (`refsOf`), what the frames
hold (`mem`), and how many frames there are (`frameCount`, which nothing changes).
-/

namespace LeahOS.Mm
open Lib Function List Bool

def kPageSize : Nat := 4096

/-- `boot::RegionType`. -/
inductive RegionType
  | usable
  | reserved
  | acpiReclaimable
  | acpiNvs
  | bad
  deriving DecidableEq

/-- `boot::MemoryRegion`, one entry of the E820 map. -/
structure MemoryRegion where
  base : UInt64
  length : UInt64
  type : RegionType

/-- `r.base + r.length`. -/
def MemoryRegion.stop (r : MemoryRegion) : UInt64 := r.base + r.length

/-- `page_align_down(address) >> kPageShift`. -/
def frameDown (address : UInt64) : Nat := address.toNat / kPageSize

/-- `page_align_up(address) >> kPageShift`; the addition wraps. -/
def frameUp (address : UInt64) : Nat := (address + 4095).toNat / kPageSize

/-- The bytes of a frame. -/
abbrev Page := Nat → UInt8

/-- The page of zeros. -/
def zeros : Page := fun _ => 0

/-- The globals of `pmm.cpp`. `g_refs` is the null pointer while there is no table. -/
structure Pmm where
  frameCount : Nat
  bitmapWords : Nat
  bitmap : Nat → Bool
  usedFrames : Nat
  freeFrames : Nat
  searchHint : Nat
  highestUsable : UInt64
  refs : Option (Nat → UInt16)
  refCount : Nat
  mem : Nat → Page
  /-- The bitmap has a bit for every frame. -/
  covers : frameCount ≤ 64 * bitmapWords

namespace Pmm

/-- `test`: outside the bitmap is "not free". -/
def test (p : Pmm) (frame : Nat) : Bool :=
  if p.frameCount ≤ frame then true else p.bitmap frame

def markUsed (p : Pmm) (frame : Nat) : Pmm :=
  if p.frameCount ≤ frame then p
  else if p.test frame then p
  else
    { p with
      bitmap := update p.bitmap frame true
      usedFrames := p.usedFrames + 1
      freeFrames := p.freeFrames - 1 }

def markFree (p : Pmm) (frame : Nat) : Pmm :=
  if p.frameCount ≤ frame then p
  else if p.test frame then
    { p with
      bitmap := update p.bitmap frame false
      usedFrames := p.usedFrames - 1
      freeFrames := p.freeFrames + 1 }
  else p

/-- The frames `first, first + 1, ..., last - 1`, in the order the loops visit them. -/
def frames (first last : Nat) : List Nat := List.range' first (last - first)

/-- The first `reserve`, of a region: every frame it touches. -/
def reserveRegion (p : Pmm) (base length : UInt64) : Pmm :=
  (frames (frameDown base) (frameUp (base + length))).foldl markUsed p

/-- The first `release`, of a region: only the whole frames inside it. -/
def releaseRegion (p : Pmm) (base length : UInt64) : Pmm :=
  (frames (frameUp base) (frameDown (base + length))).foldl markFree p

/-- `g_highest_usable` after the second loop of `init`. -/
def highestUsableOf (regions : List MemoryRegion) : UInt64 :=
  regions.foldl (fun top r => if r.type = .usable ∧ top < r.stop then r.stop else top) 0

/-- The allocator before `init` looks at the map: `frame_count` frames, all in use. -/
def allUsed (highestUsable : UInt64) (mem : Nat → Page) : Pmm where
  frameCount := frameUp highestUsable
  bitmapWords := (frameUp highestUsable + 63) / 64
  bitmap := fun _ => true
  usedFrames := frameUp highestUsable
  freeFrames := 0
  searchHint := 0
  highestUsable := highestUsable
  refs := none
  refCount := 0
  mem := mem
  covers := by omega

/-- `bitmap_fits`: some usable region can hold the bitmap. -/
def bitmapFits (regions : List MemoryRegion) (base bytes : UInt64) : Bool :=
  regions.any fun r => r.type = .usable ∧ r.base ≤ base ∧ base + bytes ≤ r.stop

/-- `init`, from the E820 map and the two ends of the kernel image. `none` is the panic. -/
def init (regions : List MemoryRegion) (kernelStart kernelEnd : UInt64) (mem : Nat → Page) :
    Option Pmm :=
  let p := allUsed (highestUsableOf regions) mem
  let bitmapBytes := UInt64.ofNat (p.bitmapWords * 8)
  let bitmapBase := UInt64.ofNat (frameUp kernelEnd * kPageSize)
  if bitmapFits regions bitmapBase bitmapBytes then
    let p := (regions.filter fun r => r.type = .usable).foldl
      (fun p r => p.releaseRegion r.base r.length) p
    let p := p.reserveRegion 0 0x100000
    let p := p.reserveRegion kernelStart (kernelEnd - kernelStart)
    some (p.reserveRegion bitmapBase bitmapBytes)
  else none

/-- `init_refcounts`; `table` tells whether `kmalloc` found room for the table. -/
def initRefcounts (p : Pmm) (table : Bool) : Pmm :=
  match p.refs with
  | some _ => p
  | none =>
    { p with
      refCount := frameDown p.highestUsable
      refs := if table then some fun _ => 0 else none }

/-- The clear bit `alloc_locked` finds in a word: none in a word that is all ones, and no
frame past the last. -/
def freeBit (p : Pmm) (word : Nat) : Option Nat :=
  if (List.range 64).all fun bit => p.bitmap (64 * word + bit) then none
  else
    (List.range' (64 * word) 64).find? fun frame => decide (frame < p.frameCount) && !p.test frame

/-- One pass of `alloc_locked` over the words `start` to `stop - 1`. -/
def scan (p : Pmm) (start stop : Nat) : Option Nat :=
  (List.range' start (stop - start)).findSome? p.freeBit

/-- `alloc_locked`, the body of `alloc`. -/
def alloc (p : Pmm) : Nat × Pmm :=
  match (p.scan p.searchHint p.bitmapWords).or (p.scan 0 p.searchHint) with
  | some frame => (frame, { p.markUsed frame with searchHint := frame / 64 })
  | none => (0, p)

/-- The scan of `alloc_contiguous`: `start` and `run` are the run it is in the middle of. -/
def findRun (p : Pmm) (n : Nat) : List Nat → Nat → Nat → Option Nat
  | [], _, _ => none
  | frame :: rest, start, run =>
    if p.test frame then p.findRun n rest start 0
    else
      let start := if run = 0 then frame else start
      if run + 1 = n then some start else p.findRun n rest start (run + 1)

def allocContiguous (p : Pmm) (n : Nat) : Nat × Pmm :=
  if n = 0 then (0, p)
  else if n = 1 then p.alloc
  else
    match p.findRun n (List.range p.frameCount) 0 0 with
    | some start => (start, (List.range' start n).foldl markUsed p)
    | none => (0, p)

/-- `poison`, once the direct map is there. -/
def poison (p : Pmm) (frame : Nat) : Pmm :=
  { p with mem := update p.mem frame fun _ => 0xCC }

/-- `free_locked`, the body of `free`. -/
def free (p : Pmm) (frame : Nat) : Pmm :=
  if frame = 0 then p
  else
    let p := if frame < p.frameCount ∧ p.test frame then p.poison frame else p
    let p := p.markFree frame
    if frame / 64 < p.searchHint then { p with searchHint := frame / 64 } else p

def freeContiguous (p : Pmm) (base n : Nat) : Pmm := (List.range' base n).foldl free p

/-- The references a frame has beyond the first; none are recorded outside the table. -/
def refsOf (p : Pmm) (frame : Nat) : Nat :=
  match p.refs with
  | none => 0
  | some refs => if p.refCount ≤ frame then 0 else (refs frame).toNat

/-- `share`: one more reference, unless there is no counter for the frame or it is full. -/
def share (p : Pmm) (frame : Nat) : Pmm × Bool :=
  match p.refs with
  | none => (p, false)
  | some refs =>
    if p.refCount ≤ frame then (p, false)
    else if refs frame = 0xFFFF then (p, false)
    else ({ p with refs := some (update refs frame (refs frame + 1)) }, true)

def isShared (p : Pmm) (frame : Nat) : Bool := decide (0 < p.refsOf frame)

/-- The second `release`, of a reference: the last one frees the frame. -/
def release (p : Pmm) (frame : Nat) : Pmm :=
  match p.refs with
  | none => p.free frame
  | some refs =>
    if frame < p.refCount ∧ 0 < refs frame then
      { p with refs := some (update refs frame (refs frame - 1)) }
    else p.free frame

/-- `memset` and `memcpy` of a whole frame through the direct map. -/
def fillFrame (p : Pmm) (frame : Nat) (page : Page) : Pmm :=
  { p with mem := update p.mem frame page }

/-! ### What the bits of the bitmap say after each function -/

@[simp] theorem frameCount_markUsed (p : Pmm) (frame : Nat) :
    (p.markUsed frame).frameCount = p.frameCount := by
  unfold markUsed
  split
  · rfl
  split <;> rfl

@[simp] theorem frameCount_markFree (p : Pmm) (frame : Nat) :
    (p.markFree frame).frameCount = p.frameCount := by
  unfold markFree
  split
  · rfl
  split <;> rfl

variable {frame g n start : Nat} {p p' : Pmm}

theorem test_of_le (hLe : p.frameCount ≤ frame) :
    p.test frame = true := if_pos hLe

theorem test_of_lt (hLt : frame < p.frameCount) :
    p.test frame = p.bitmap frame := if_neg (Nat.not_le.mpr hLt)

theorem lt_of_test (hClear : p.test frame = false) :
    frame < p.frameCount := by
  by_contra hLe
  rw [test_of_le (Nat.not_lt.mp hLe)] at hClear
  cases hClear

theorem test_markUsed (p : Pmm) (frame g : Nat) :
    (p.markUsed frame).test g = (p.test g || decide (g = frame)) := by
  unfold markUsed
  split
  next hLe =>
    by_cases hg : g = frame
    · rw [hg, test_of_le hLe, Bool.true_or]
    · simp [hg]
  split
  next hSet =>
    by_cases hg : g = frame
    · rw [hg, hSet, Bool.true_or]
    · simp [hg]
  next hLe _ =>
    by_cases hg : g = frame
    · subst hg
      simp [test, hLe]
    · simp [test, hg]

theorem test_markFree (p : Pmm) (frame g : Nat) :
    (p.markFree frame).test g =
      if g = frame ∧ frame < p.frameCount then false else p.test g := by
  unfold markFree
  split
  next hLe => rw [if_neg fun h => Nat.not_lt.mpr hLe h.2]
  next hLt =>
    rw [Nat.not_le] at hLt
    split
    next hSet =>
      by_cases hg : g = frame
      · subst hg
        simp [test, Nat.not_le.mpr hLt]
      · rw [if_neg fun h => hg h.1]
        simp [test, hg]
    next hClear =>
      by_cases hg : g = frame
      · subst hg
        rw [if_pos ⟨rfl, hLt⟩]
        exact eq_false_iff.mpr hClear
      · rw [if_neg fun h => hg h.1]

/-- Marking frames used sets their bits and no others. -/
theorem test_foldl_markUsed (p : Pmm) (l : List Nat) (g : Nat) :
    (l.foldl markUsed p).test g = (p.test g || decide (g ∈ l)) := by
  induction l generalizing p with
  | nil => simp
  | cons frame rest ih =>
    rw [foldl_cons, ih, test_markUsed, Bool.or_assoc]
    congr 1
    simp [mem_cons, decide_or]

/-- Marking frames free clears no bit but theirs. -/
theorem test_of_foldl_markFree {l : List Nat} (hClear : (l.foldl markFree p).test g = false) :
    p.test g = false ∨ g ∈ l := by
  induction l generalizing p with
  | nil => exact .inl hClear
  | cons frame rest ih =>
    rcases ih hClear with hTest | hMem
    · rw [test_markFree] at hTest
      split at hTest
      next hFrame => exact .inr (hFrame.1 ▸ mem_cons_self)
      · exact .inl hTest
    · exact .inr (mem_cons_of_mem frame hMem)

@[simp] theorem test_reserveRegion (p : Pmm) (base length : UInt64) (g : Nat) :
    (p.reserveRegion base length).test g =
      (p.test g || decide (g ∈ frames (frameDown base) (frameUp (base + length)))) :=
  test_foldl_markUsed p _ g

variable {first stop word : Nat} {p'' : Pmm} {x : UInt16}

theorem mem_frames {last : Nat} : g ∈ frames first last ↔ first ≤ g ∧ g < last := by
  rw [frames, mem_range'_1]
  omega

theorem test_allUsed (highestUsable : UInt64) (mem : Nat → Page) (g : Nat) :
    (allUsed highestUsable mem).test g = true := by
  unfold test
  split <;> rfl

/-- `init` leaves the frame 0 alone. -/
theorem test_init {regions : List MemoryRegion} {kernelStart kernelEnd : UInt64} {mem : Nat → Page}
    (hInit : init regions kernelStart kernelEnd mem = some p) : p.test 0 = true := by
  simp only [init] at hInit
  split at hInit
  swap
  · cases hInit
  obtain rfl := Option.some.inj hInit
  have hZero : 0 ∈ frames (frameDown 0) (frameUp (0 + 0x100000)) := mem_frames.mpr (by decide)
  simp only [test_reserveRegion, decide_eq_true hZero, Bool.or_true, Bool.true_or]

/-! ### References and contents -/

/-- The reference counts of two states are the same. -/
def SameRefs (p p' : Pmm) : Prop := p'.refs = p.refs ∧ p'.refCount = p.refCount

theorem SameRefs.refsOf (hSame : SameRefs p p') (g : Nat) :
    p'.refsOf g = p.refsOf g := by
  rw [Pmm.refsOf, Pmm.refsOf, hSame.1, hSame.2]

theorem SameRefs.trans (hFirst : SameRefs p p') (hThen : SameRefs p' p'') :
    SameRefs p p'' :=
  ⟨hThen.1.trans hFirst.1, hThen.2.trans hFirst.2⟩

theorem sameRefs_markUsed (p : Pmm) (frame : Nat) : SameRefs p (p.markUsed frame) := by
  unfold markUsed
  split
  · exact ⟨rfl, rfl⟩
  split <;> exact ⟨rfl, rfl⟩

theorem sameRefs_markFree (p : Pmm) (frame : Nat) : SameRefs p (p.markFree frame) := by
  unfold markFree
  split
  · exact ⟨rfl, rfl⟩
  split <;> exact ⟨rfl, rfl⟩

@[simp] theorem mem_markUsed (p : Pmm) (frame : Nat) : (p.markUsed frame).mem = p.mem := by
  unfold markUsed
  split
  · rfl
  split <;> rfl

/-- `free` is `mark_free` to everyone who does not look at the hint or the contents. -/
theorem free_eq (p : Pmm) (hFrame : frame ≠ 0) :
    ∃ mem hint, p.free frame = { p.markFree frame with mem := mem, searchHint := hint } := by
  have hPoison : ∃ mem, (if frame < p.frameCount ∧ p.test frame then p.poison frame else p) =
      { p with mem := mem } := by
    split
    · exact ⟨_, rfl⟩
    · exact ⟨p.mem, rfl⟩
  obtain ⟨mem, hMem⟩ := hPoison
  have hMark : Pmm.markFree { p with mem := mem } frame = { p.markFree frame with mem := mem } := by
    unfold markFree
    by_cases hLe : p.frameCount ≤ frame
    · rw [if_pos hLe, if_pos hLe]
    · rw [if_neg hLe, if_neg hLe]
      by_cases hSet : p.test frame = true
      · have hSet' : Pmm.test { p with mem := mem } frame = true := hSet
        rw [if_pos hSet, if_pos hSet']
      · have hSet' : ¬ Pmm.test { p with mem := mem } frame = true := hSet
        rw [if_neg hSet, if_neg hSet']
  unfold free
  rw [if_neg hFrame]
  simp only [hMem, hMark]
  split
  · exact ⟨mem, _, rfl⟩
  · exact ⟨mem, _, rfl⟩

@[simp] theorem free_zero (p : Pmm) : p.free 0 = p := if_pos rfl

theorem test_free (p : Pmm) (frame g : Nat) :
    (p.free frame).test g =
      if g = frame ∧ frame ≠ 0 ∧ frame < p.frameCount then false else p.test g := by
  by_cases hFrame : frame = 0
  · simp [hFrame]
  · obtain ⟨mem, hint, hEq⟩ := p.free_eq hFrame
    have hTest : (p.free frame).test g = (p.markFree frame).test g := by
      rw [hEq]
      rfl
    rw [hTest, test_markFree]
    simp [hFrame]

theorem test_free_zero (p : Pmm) (frame : Nat) : (p.free frame).test 0 = p.test 0 := by
  rw [test_free, if_neg fun h => h.2.1 h.1.symm]

@[simp] theorem frameCount_free (p : Pmm) (frame : Nat) :
    (p.free frame).frameCount = p.frameCount := by
  by_cases hFrame : frame = 0
  · simp [hFrame]
  · obtain ⟨mem, hint, hEq⟩ := p.free_eq hFrame
    rw [hEq]
    exact frameCount_markFree p frame

theorem sameRefs_free (p : Pmm) (frame : Nat) : SameRefs p (p.free frame) := by
  by_cases hFrame : frame = 0
  · rw [hFrame, free_zero]
    exact ⟨rfl, rfl⟩
  · obtain ⟨mem, hint, hEq⟩ := p.free_eq hFrame
    rw [hEq]
    exact sameRefs_markFree p frame

/-- There is a counter for the frame, and `n` more references fit into it. -/
def Shareable (p : Pmm) (frame n : Nat) : Prop :=
  p.refs.isSome = true ∧ frame < p.refCount ∧ p.refsOf frame + n ≤ 0xFFFF

instance (p : Pmm) (frame n : Nat) : Decidable (p.Shareable frame n) :=
  inferInstanceAs (Decidable (_ ∧ _ ∧ _))

theorem SameRefs.shareable (hSame : SameRefs p p') (hRoom : p.Shareable frame n) :
    p'.Shareable frame n := by
  obtain ⟨hTable, hLt, hFit⟩ := hRoom
  exact ⟨hSame.1 ▸ hTable, hSame.2 ▸ hLt, by rw [hSame.refsOf]; exact hFit⟩

theorem toNat_succ (hx : x ≠ 0xFFFF) : (x + 1).toNat = x.toNat + 1 := by
  have hNe : x.toNat ≠ 65535 := fun hEq => hx (UInt16.toNat_inj.mp hEq)
  have hLt := x.toNat_lt
  change (x.toNat + 1) % 2 ^ 16 = x.toNat + 1
  omega

theorem toNat_pred (hx : 0 < x) : (x - 1).toNat = x.toNat - 1 :=
  UInt16.toNat_sub_of_le x 1 (UInt16.le_iff_toNat_le.mpr (UInt16.lt_iff_toNat_lt.mp hx))

/-- Where `share` returns true, the table has changed and nothing else. -/
theorem share_with (hShare : p.share frame = (p', true)) :
    ∃ refs, p' = { p with refs := some refs } := by
  unfold share at hShare
  split at hShare
  · cases hShare
  split at hShare
  · cases hShare
  split at hShare
  · cases hShare
  · exact ⟨_, (Prod.ext_iff.mp hShare).1.symm⟩

/-- What `share` does when it returns true. -/
theorem share_true (hShare : p.share frame = (p', true)) :
    (∀ g, p'.refsOf g = p.refsOf g + if g = frame then 1 else 0) ∧
      p'.test = p.test ∧ p'.frameCount = p.frameCount ∧ p'.mem = p.mem := by
  unfold share at hShare
  split at hShare
  · cases hShare
  next refs hRefs =>
    split at hShare
    · cases hShare
    split at hShare
    · cases hShare
    next hLt hFull =>
      obtain rfl := (Prod.ext_iff.mp hShare).1
      have hRoom := toNat_succ hFull
      refine ⟨fun g => ?_, rfl, rfl, rfl⟩
      by_cases hg : g = frame
      · subst hg
        simp only [refsOf, hRefs, if_neg hLt, update_self, hRoom, if_true]
      · simp only [refsOf, hRefs, update_of_ne hg, if_neg hg, Nat.add_zero]

/-- When `share` returns false there was no room, and nothing has changed. -/
theorem share_false (hShare : p.share frame = (p', false)) :
    p' = p ∧ ¬ p.Shareable frame 1 := by
  unfold share at hShare
  split at hShare
  next hRefs =>
    refine ⟨(Prod.ext_iff.mp hShare).1.symm, fun hRoom => ?_⟩
    have hSome := hRoom.1
    rw [hRefs] at hSome
    cases hSome
  next refs hRefs =>
    split at hShare
    next hLe =>
      exact ⟨(Prod.ext_iff.mp hShare).1.symm, fun hRoom => Nat.not_lt.mpr hLe hRoom.2.1⟩
    split at hShare
    next hLt hFull =>
      refine ⟨(Prod.ext_iff.mp hShare).1.symm, fun hRoom => ?_⟩
      have hBound := hRoom.2.2
      simp only [refsOf, hRefs, if_neg hLt, hFull] at hBound
      exact absurd hBound (by decide)
    · cases hShare

/-- Taking a reference uses up room for one at its own frame and none elsewhere. -/
theorem Shareable.share {taken : Bool} (hShare : p.share g = (p', taken))
    (hRoom : p.Shareable frame (n + if frame = g then 1 else 0)) : p'.Shareable frame n := by
  obtain ⟨hTable, hLt, hFit⟩ := hRoom
  cases taken with
  | false =>
    obtain ⟨rfl, -⟩ := share_false hShare
    exact ⟨hTable, hLt, by omega⟩
  | true =>
    obtain ⟨hRefs, -⟩ := share_true hShare
    obtain ⟨refs, rfl⟩ := share_with hShare
    exact ⟨rfl, hLt, by rw [hRefs]; omega⟩

theorem release_of_zero (hRefs : p.refsOf frame = 0) :
    p.release frame = p.free frame := by
  unfold release
  split
  · rfl
  next refs hSome =>
    refine if_neg fun hPos => ?_
    simp only [refsOf, hSome, if_neg (Nat.not_le.mpr hPos.1)] at hRefs
    exact absurd (UInt16.lt_iff_toNat_lt.mp hPos.2) (by rw [hRefs]; exact Nat.lt_irrefl 0)

/-- Releasing one of several references only counts. -/
theorem release_of_pos (hRefs : 0 < p.refsOf frame) :
    (∀ g, (p.release frame).refsOf g = p.refsOf g - if g = frame then 1 else 0) ∧
      (p.release frame).test = p.test ∧ (p.release frame).frameCount = p.frameCount ∧
      (p.release frame).mem = p.mem := by
  unfold release
  split
  next hNone => simp [refsOf, hNone] at hRefs
  next refs hSome =>
    have hLt : ¬ p.refCount ≤ frame := by
      intro hLe
      simp [refsOf, hSome, hLe] at hRefs
    have hPos : 0 < refs frame := by
      simp only [refsOf, hSome, if_neg hLt] at hRefs
      exact UInt16.lt_iff_toNat_lt.mpr hRefs
    rw [if_pos ⟨Nat.not_le.mp hLt, hPos⟩]
    refine ⟨fun g => ?_, rfl, rfl, rfl⟩
    by_cases hg : g = frame
    · subst hg
      simp only [refsOf, hSome, if_neg hLt, update_self, toNat_pred hPos, if_true]
    · simp only [refsOf, hSome, update_of_ne hg, if_neg hg, Nat.sub_zero]

/-! ### Allocation -/

theorem freeBit_some (hBit : p.freeBit word = some frame) :
    p.test frame = false := by
  unfold freeBit at hBit
  split at hBit
  · cases hBit
  · have hFound := List.find?_some hBit
    simp only [and_eq_true, not_eq_true'] at hFound
    exact hFound.2

theorem freeBit_none (hBit : p.freeBit word = none) (hWord : frame / 64 = word) :
    p.test frame = true := by
  by_contra hTest
  have hClear : p.test frame = false := eq_false_iff.mpr hTest
  have hLt := lt_of_test hClear
  unfold freeBit at hBit
  split at hBit
  next hAll =>
    have hSet := List.all_eq_true.mp hAll (frame % 64) (mem_range.mpr (by omega))
    rw [show 64 * word + frame % 64 = frame by omega, ← test_of_lt hLt] at hSet
    exact hTest hSet
  · have hNot := List.find?_eq_none.mp hBit frame (mem_range'_1.mpr (by omega))
    simp [hLt, hClear] at hNot

theorem scan_some (hScan : p.scan start stop = some frame) :
    p.test frame = false := by
  obtain ⟨word, -, hBit⟩ := exists_of_findSome?_eq_some hScan
  exact freeBit_some hBit

theorem scan_none (hScan : p.scan start stop = none) (hStart : start ≤ frame / 64)
    (hStop : frame / 64 < stop) : p.test frame = true := by
  have hBit := List.findSome?_eq_none_iff.mp hScan (frame / 64)
    (mem_range'_1.mpr (by omega))
  exact freeBit_none hBit rfl

/-- `alloc` finds a clear bit and sets it, or there is none. -/
theorem alloc_cases (hAlloc : p.alloc = (frame, p')) :
    (p.test frame = false ∧ p' = { p.markUsed frame with searchHint := frame / 64 }) ∨
      (frame = 0 ∧ p' = p ∧ ∀ g, p.test g = true) := by
  unfold alloc at hAlloc
  split at hAlloc
  next found hFound =>
    obtain ⟨rfl, rfl⟩ := Prod.ext_iff.mp hAlloc
    refine .inl ⟨?_, rfl⟩
    rcases Option.or_eq_some_iff.mp hFound with hFirst | ⟨-, hSecond⟩
    · exact scan_some hFirst
    · exact scan_some hSecond
  next hNone =>
    obtain ⟨rfl, rfl⟩ := Prod.ext_iff.mp hAlloc
    obtain ⟨hFirst, hSecond⟩ := Option.or_eq_none_iff.mp hNone
    refine .inr ⟨rfl, rfl, fun g => ?_⟩
    by_cases hLt : g < p.frameCount
    · have hCovers := p.covers
      -- the first pass covers the words from the hint on, the second the ones before it
      by_cases hHint : p.searchHint ≤ g / 64
      · exact scan_none hFirst hHint (by omega)
      · exact scan_none hSecond (Nat.zero_le _) (Nat.not_le.mp hHint)
    · exact test_of_le (Nat.not_lt.mp hLt)

/-- What `alloc` does when it returns a frame. -/
theorem alloc_spec (hAlloc : p.alloc = (frame, p')) (hFrame : frame ≠ 0) :
    p.test frame = false ∧ (∀ g, p'.test g = (p.test g || decide (g = frame))) ∧
      SameRefs p p' ∧ p'.frameCount = p.frameCount := by
  rcases alloc_cases hAlloc with ⟨hClear, rfl⟩ | ⟨hZero, -, -⟩
  · exact ⟨hClear, test_markUsed p frame, sameRefs_markUsed p frame, frameCount_markUsed p frame⟩
  · exact absurd hZero hFrame

/-- `alloc` fails without a trace, and only when every bit is set. -/
theorem alloc_zero (hZero : p.test 0 = true) (hAlloc : p.alloc = (0, p')) :
    p' = p ∧ ∀ g, p.test g = true := by
  rcases alloc_cases hAlloc with ⟨hClear, -⟩ | ⟨-, hSame, hFull⟩
  · rw [hZero] at hClear
    cases hClear
  · exact ⟨hSame, hFull⟩

/-- Nothing that was in use has been let go of or written to, and no reference has been
taken or dropped. -/
structure Extends (p p' : Pmm) : Prop where
  refs : SameRefs p p'
  kept : ∀ g, p.test g = true → p'.test g = true ∧ p'.mem g = p.mem g

theorem Extends.refl (p : Pmm) : Extends p p := ⟨⟨rfl, rfl⟩, fun _ hUsed => ⟨hUsed, rfl⟩⟩

theorem Extends.trans (hFirst : Extends p p') (hThen : Extends p' p'') :
    Extends p p'' := by
  refine ⟨hFirst.refs.trans hThen.refs, fun g hUsed => ?_⟩
  obtain ⟨hUsed', hMem⟩ := hFirst.kept g hUsed
  obtain ⟨hUsed'', hMem'⟩ := hThen.kept g hUsed'
  exact ⟨hUsed'', hMem'.trans hMem⟩

theorem extends_alloc (hAlloc : p.alloc = (frame, p')) :
    Extends p p' := by
  rcases alloc_cases hAlloc with ⟨-, rfl⟩ | ⟨-, rfl, -⟩
  · refine ⟨sameRefs_markUsed p frame, fun g hUsed => ⟨?_, ?_⟩⟩
    · have hTest := test_markUsed p frame g
      rw [hUsed, Bool.true_or] at hTest
      exact hTest
    · exact congrFun (mem_markUsed p frame) g
  · exact Extends.refl _

/-- A frame that has just been allocated may be written. -/
theorem extends_alloc_fill (hAlloc : p.alloc = (frame, p')) (hFrame : frame ≠ 0) (page : Page) :
    Extends p (p'.fillFrame frame page) := by
  have hClear := (alloc_spec hAlloc hFrame).1
  have hExtends := extends_alloc hAlloc
  refine ⟨hExtends.refs, fun g hUsed => ?_⟩
  obtain ⟨hUsed', hMem⟩ := hExtends.kept g hUsed
  have hNe : g ≠ frame := by
    rintro rfl
    rw [hClear] at hUsed
    cases hUsed
  exact ⟨hUsed', (update_of_ne hNe _ _).trans hMem⟩

/-- The number of clear bits. -/
def clear (p : Pmm) : Nat := ((Finset.range p.frameCount).filter fun g => p.test g = false).card

theorem clear_congr (hTest : p'.test = p.test) (hCount : p'.frameCount = p.frameCount) :
    p'.clear = p.clear := by
  rw [clear, clear, hTest, hCount]

theorem clear_eq_clears (p : Pmm) : p.clear = clears p.test p.frameCount := rfl

theorem clear_markUsed (hClear : p.test frame = false) :
    (p.markUsed frame).clear + 1 = p.clear := by
  have hBits : (p.markUsed frame).test = update p.test frame true := by
    ext g
    rw [test_markUsed]
    by_cases hg : g = frame
    · simp [hg]
    · simp [hg]
  rw [clear_eq_clears, clear_eq_clears, frameCount_markUsed, hBits]
  exact clears_set (lt_of_test hClear) hClear

theorem clear_alloc (hAlloc : p.alloc = (frame, p')) (hFrame : frame ≠ 0) :
    p'.clear + 1 = p.clear := by
  rcases alloc_cases hAlloc with ⟨hClear, rfl⟩ | ⟨hZero, -⟩
  · exact clear_markUsed hClear
  · exact absurd hZero hFrame

/-- While a bit is clear, `alloc` returns a frame. -/
theorem alloc_ne_zero (hZero : p.test 0 = true) (hRoom : 0 < p.clear)
    (hAlloc : p.alloc = (frame, p')) : frame ≠ 0 := by
  rintro rfl
  obtain ⟨g, hg⟩ := Finset.card_pos.mp hRoom
  have hClear := (Finset.mem_filter.mp hg).2
  rw [(alloc_zero hZero hAlloc).2 g] at hClear
  cases hClear

/-- The run `findRun` is in the middle of is clear, and it ends where the scan goes on. -/
theorem findRun_some {count run found : Nat} (hRun : ∀ i < run, p.test (start + i) = false)
    (hEnd : run ≠ 0 → start + run = first)
    (hFound : p.findRun n (List.range' first count) start run = some found) :
    ∀ i < n, p.test (found + i) = false := by
  induction count generalizing first start run with
  | zero => cases hFound
  | succ count ih =>
    rw [List.range'_succ] at hFound
    unfold findRun at hFound
    split at hFound
    · exact ih (fun i hi => absurd hi (Nat.not_lt_zero i)) (fun h => absurd rfl h) hFound
    next hTest =>
      have hClear : p.test first = false := eq_false_iff.mpr hTest
      have hStart : (if run = 0 then first else start) + run = first := by
        split
        · omega
        next hPos => exact hEnd hPos
      have hRun' : ∀ i < run + 1, p.test ((if run = 0 then first else start) + i) = false := by
        intro i hi
        rcases Nat.lt_succ_iff_lt_or_eq.mp hi with hLt | rfl
        · rw [if_neg (by omega)]
          exact hRun i hLt
        · rw [hStart]
          exact hClear
      simp only at hFound
      split at hFound
      next hN =>
        obtain rfl := Option.some.inj hFound
        exact hN ▸ hRun'
      · exact ih hRun' (fun _ => by omega) hFound

/-- `alloc_contiguous` takes a run of clear bits, or nothing. -/
theorem allocContiguous_spec (hAlloc : p.allocContiguous n = (start, p')) (hStart : start ≠ 0) :
    (∀ i < n, p.test (start + i) = false) ∧
      (∀ g, p'.test g = (p.test g || decide (g ∈ List.range' start n))) ∧
      SameRefs p p' ∧ p'.frameCount = p.frameCount := by
  have hFold : ∀ (l : List Nat) (p : Pmm), SameRefs p (l.foldl markUsed p) ∧
      (l.foldl markUsed p).frameCount = p.frameCount := by
    intro l
    induction l with
    | nil => exact fun p => ⟨⟨rfl, rfl⟩, rfl⟩
    | cons frame rest ih =>
      intro p
      obtain ⟨hRefs, hCount⟩ := ih (p.markUsed frame)
      exact ⟨(sameRefs_markUsed p frame).trans hRefs, hCount.trans (frameCount_markUsed p frame)⟩
  unfold allocContiguous at hAlloc
  split at hAlloc
  · exact absurd (Prod.ext_iff.mp hAlloc).1.symm hStart
  split at hAlloc
  next hOne =>
    subst hOne
    obtain ⟨hClear, hTest, hRest⟩ := alloc_spec hAlloc hStart
    refine ⟨fun i hi => ?_, fun g => ?_, hRest⟩
    · obtain rfl : i = 0 := by omega
      exact hClear
    · rw [hTest]
      simp [List.range'_succ]
  split at hAlloc
  next found hFound =>
    obtain ⟨rfl, rfl⟩ := Prod.ext_iff.mp hAlloc
    rw [range_eq_range'] at hFound
    exact ⟨findRun_some (fun i hi => absurd hi (Nat.not_lt_zero i)) (fun h => absurd rfl h) hFound,
      test_foldl_markUsed p _, hFold _ p⟩
  · exact absurd (Prod.ext_iff.mp hAlloc).1.symm hStart

theorem clear_of_mem (hClear : ∀ i < n, p.test (start + i) = false) (hg : g ∈ List.range' start n) :
    p.test g = false := by
  have hRange := mem_range'_1.mp hg
  have hRun := hClear (g - start) (by omega)
  rwa [show start + (g - start) = g by omega] at hRun

theorem allocContiguous_zero (hZero : p.test 0 = true) (hAlloc : p.allocContiguous n = (0, p')) :
    p' = p := by
  unfold allocContiguous at hAlloc
  split at hAlloc
  · exact (Prod.ext_iff.mp hAlloc).2.symm
  next hPos =>
    split at hAlloc
    · exact (alloc_zero hZero hAlloc).1
    split at hAlloc
    next found hFound =>
      obtain ⟨rfl, -⟩ := Prod.ext_iff.mp hAlloc
      rw [range_eq_range'] at hFound
      have hClear := findRun_some (fun i hi => absurd hi (Nat.not_lt_zero i))
        (fun h => absurd rfl h) hFound 0 (Nat.pos_of_ne_zero hPos)
      rw [Nat.add_zero, hZero] at hClear
      cases hClear
    · exact (Prod.ext_iff.mp hAlloc).2.symm

end Pmm
end LeahOS.Mm
