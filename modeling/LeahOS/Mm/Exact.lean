import LeahOS.Lib.Run
import LeahOS.Mm.Pmm

/-!
# The frame allocator over whole runs (`kernel/mm/pmm.cpp`)

`FrameBook` is the allocator with two numbers for each frame that nobody stores: how often
`share` has succeeded and how often `release` has been called since the frame's bit was last
set. `FrameBook.next` is one call from outside, with whatever arguments.

* `Counts` says that the two counters agree with the bitmap. Every function keeps it, with
  any arguments, because all of them go through `mark_used` and `mark_free`.
* `Took` says what an allocation of `n` frames did: it set the clear bits it returned, or
  there was no run of `n` clear bits. It holds wherever the search starts.
* `Balanced` says that the table of references holds the shares not yet released. `free`
  does not look at that table, so it is kept as long as what is given back with `free` has
  no reference left, and only frames in use are shared.
-/

namespace LeahOS.Mm
open Lib Function List Option Pmm
namespace Pmm

/-! ### The counters -/

/-- `g_free_frames` counts the clear bits, and the two counters add up. -/
structure Counts (p : Pmm) : Prop where
  bits : p.freeFrames = p.clear
  sum : p.usedFrames + p.freeFrames = p.frameCount

variable {p p' : Pmm} {frame n start : Nat}

theorem Counts.markUsed (hCounts : p.Counts) (frame : Nat) :
    (p.markUsed frame).Counts := by
  by_cases hTest : p.test frame = true
  · -- a set bit, or no bit at all: nothing happens
    have hSame : p.markUsed frame = p := by
      unfold Pmm.markUsed
      simp [hTest]
    rw [hSame]
    exact hCounts
  · have hClear : p.test frame = false := Bool.eq_false_iff.mpr hTest
    have hLt := lt_of_test hClear
    have hLess := clear_markUsed hClear
    have hFree := hCounts.bits
    have hAll := hCounts.sum
    have hFields : (p.markUsed frame).freeFrames = p.freeFrames - 1 ∧
        (p.markUsed frame).usedFrames = p.usedFrames + 1 := by
      unfold Pmm.markUsed
      rw [if_neg (Nat.not_le.mpr hLt), if_neg hTest]
      exact ⟨rfl, rfl⟩
    constructor
    · rw [hFields.1]
      omega
    · rw [hFields.1, hFields.2, frameCount_markUsed]
      omega

theorem Counts.markFree (hCounts : p.Counts) (frame : Nat) :
    (p.markFree frame).Counts := by
  by_cases hSet : frame < p.frameCount ∧ p.test frame = true
  · obtain ⟨hLt, hTest⟩ := hSet
    have hBits : (p.markFree frame).test = update p.test frame false := by
      ext g
      rw [test_markFree]
      by_cases hg : g = frame
      · simp [hg, hLt]
      · simp [hg]
    have hMore : (p.markFree frame).clear = p.clear + 1 := by
      rw [clear_eq_clears, clear_eq_clears, frameCount_markFree, hBits]
      exact clears_clear hLt hTest
    -- the bit was set, so not every frame was free
    have hBound : (p.markFree frame).clear ≤ p.frameCount := by
      rw [clear_eq_clears, frameCount_markFree]
      exact clears_le _ _
    have hFree := hCounts.bits
    have hAll := hCounts.sum
    have hFields : (p.markFree frame).freeFrames = p.freeFrames + 1 ∧
        (p.markFree frame).usedFrames = p.usedFrames - 1 := by
      unfold Pmm.markFree
      rw [if_neg (Nat.not_le.mpr hLt), if_pos hTest]
      exact ⟨rfl, rfl⟩
    constructor
    · rw [hFields.1]
      omega
    · rw [hFields.1, hFields.2, frameCount_markFree]
      omega
  · have hSame : p.markFree frame = p := by
      unfold Pmm.markFree
      split
      · rfl
      next hLt =>
        split
        next hTest => exact absurd ⟨Nat.not_le.mp hLt, hTest⟩ hSet
        · rfl
    rw [hSame]
    exact hCounts

theorem Counts.free (hCounts : p.Counts) (frame : Nat) : (p.free frame).Counts := by
  by_cases hFrame : frame = 0
  · rw [hFrame, free_zero]
    exact hCounts
  · obtain ⟨mem, hint, hEq⟩ := p.free_eq hFrame
    have hMarked := hCounts.markFree frame
    rw [hEq]
    exact ⟨hMarked.bits, hMarked.sum⟩

/-- What a function keeps, a loop over it keeps. -/
theorem foldl_keeps (P : Pmm → Prop) {f : Pmm → Nat → Pmm} (hStep : ∀ p g, P p → P (f p g))
    (l : List Nat) (hp : P p) : P (l.foldl f p) := by
  induction l generalizing p with
  | nil => exact hp
  | cons g rest ih => exact ih (hStep p g hp)

theorem Counts.alloc (hCounts : p.Counts) (hAlloc : p.alloc = (frame, p')) : p'.Counts := by
  rcases alloc_cases hAlloc with ⟨-, rfl⟩ | ⟨-, rfl, -⟩
  · have hMarked := hCounts.markUsed frame
    exact ⟨hMarked.bits, hMarked.sum⟩
  · exact hCounts

theorem Counts.allocContiguous (hCounts : p.Counts) (hAlloc : p.allocContiguous n = (start, p')) :
    p'.Counts := by
  unfold Pmm.allocContiguous at hAlloc
  split at hAlloc
  · obtain rfl : p = p' := (Prod.ext_iff.mp hAlloc).2
    exact hCounts
  split at hAlloc
  · exact hCounts.alloc hAlloc
  split at hAlloc
  · cases hAlloc
    exact foldl_keeps Counts (fun p g hp => hp.markUsed g) _ hCounts
  · obtain rfl : p = p' := (Prod.ext_iff.mp hAlloc).2
    exact hCounts

theorem counts_allUsed (highestUsable : UInt64) (mem : Nat → Page) :
    (allUsed highestUsable mem).Counts := by
  constructor
  · rw [clear_eq_clears, clears, Finset.filter_false_of_mem]
    · rfl
    · intro g _
      rw [test_allUsed]
      exact Bool.noConfusion
  · exact Nat.add_zero _

/-- Exact counters, and no table of references yet. -/
def Untouched (p : Pmm) : Prop := p.Counts ∧ p.refs = none

theorem untouched_reserveRegion (hp : p.Untouched) (base length : UInt64) :
    (p.reserveRegion base length).Untouched :=
  foldl_keeps Untouched (fun p g hp => ⟨hp.1.markUsed g, (sameRefs_markUsed p g).1.trans hp.2⟩) _ hp

theorem untouched_releaseRegions (l : List MemoryRegion) (hp : p.Untouched) :
    (l.foldl (fun p r => p.releaseRegion r.base r.length) p).Untouched := by
  induction l generalizing p with
  | nil => exact hp
  | cons r rest ih =>
    exact ih (foldl_keeps Untouched
      (fun p g hp => ⟨hp.1.markFree g, (sameRefs_markFree p g).1.trans hp.2⟩) _ hp)

/-- `init` leaves exact counters and a set bit for the frame 0. -/
theorem init_counts {regions : List MemoryRegion} {kernelStart kernelEnd : UInt64}
    {mem : Nat → Page} (hInit : init regions kernelStart kernelEnd mem = some p) :
    p.Counts ∧ p.test 0 = true ∧ p.refs = none := by
  have hZero := test_init hInit
  simp only [init] at hInit
  split at hInit
  swap
  · cases hInit
  obtain rfl := some.inj hInit
  have hAll := untouched_releaseRegions (regions.filter fun r => r.type = .usable)
    (show (allUsed (highestUsableOf regions) mem).Untouched from
      ⟨counts_allUsed (highestUsableOf regions) mem, rfl⟩)
  have hAll := untouched_reserveRegion hAll 0 0x100000
  have hAll := untouched_reserveRegion hAll kernelStart (kernelEnd - kernelStart)
  have hAll := untouched_reserveRegion hAll (UInt64.ofNat (frameUp kernelEnd * kPageSize))
    (UInt64.ofNat ((allUsed (highestUsableOf regions) mem).bitmapWords * 8))
  exact ⟨hAll.1, hZero, hAll.2⟩

/-! ### Allocation -/

/-- The frames from `start` on, `n` of them, are free. -/
def ClearRun (p : Pmm) (start n : Nat) : Prop := ∀ i < n, p.test (start + i) = false

/-- The scan of `alloc_contiguous` misses no run: none begins in the clear stretch of length
`run` it is in the middle of, or later. -/
theorem findRun_none {first count run : Nat} (hRun : run < n) (hFirst : run ≤ first)
    (hNone : p.findRun n (List.range' first count) start run = none) {s : Nat}
    (hStart : first - run ≤ s) (hStop : s + n ≤ first + count) : ¬ p.ClearRun s n := by
  induction count generalizing first start run with
  | zero => omega
  | succ count ih =>
    rw [List.range'_succ] at hNone
    unfold findRun at hNone
    split at hNone
    next hTest =>
      by_cases hLater : first + 1 ≤ s
      · exact ih (by omega) (Nat.zero_le _) hNone hLater (by omega)
      · -- the set bit at `first` lies inside the run
        intro hClear
        have hAt := hClear (first - s) (by omega)
        rw [show s + (first - s) = first by omega, hTest] at hAt
        cases hAt
    next hTest =>
      simp only at hNone
      split at hNone
      · cases hNone
      · exact ih (by omega) (by omega) hNone (by omega) (by omega)

/-- What an allocation of `n` frames did: it failed without a trace because there is no run
of `n` clear bits, or it set `n` clear bits and no others. -/
def Took (p p' : Pmm) (start n : Nat) : Prop :=
  if start = 0 then p' = p ∧ ∀ s, ¬ p.ClearRun s n
  else p.ClearRun start n ∧ ∀ g, p'.test g = (p.test g || decide (start ≤ g ∧ g < start + n))

theorem took_alloc (hZero : p.test 0 = true) (hAlloc : p.alloc = (frame, p')) :
    Took p p' frame 1 := by
  unfold Took
  split
  next hFrame =>
    subst hFrame
    obtain ⟨hSame, hFull⟩ := alloc_zero hZero hAlloc
    refine ⟨hSame, fun s hClear => ?_⟩
    have hAt := hClear 0 Nat.one_pos
    rw [hFull] at hAt
    cases hAt
  next hFrame =>
    obtain ⟨hClear, hTest, -⟩ := alloc_spec hAlloc hFrame
    constructor
    · intro i hi
      obtain rfl : i = 0 := by omega
      exact hClear
    · intro g
      rw [hTest]
      congr 2
      exact propext ⟨fun hg => by omega, fun hg => by omega⟩

theorem frameCount_alloc (hAlloc : p.alloc = (frame, p')) :
    p'.frameCount = p.frameCount := by
  rcases alloc_cases hAlloc with ⟨-, rfl⟩ | ⟨-, rfl, -⟩
  · exact frameCount_markUsed p frame
  · rfl

theorem took_allocContiguous (hZero : p.test 0 = true) (hn : 0 < n)
    (hAlloc : p.allocContiguous n = (start, p')) : Took p p' start n := by
  by_cases hOne : n = 1
  · subst hOne
    exact took_alloc hZero hAlloc
  unfold Took
  split
  next hStart =>
    subst hStart
    refine ⟨allocContiguous_zero hZero hAlloc, fun s hClear => ?_⟩
    -- the run ends below the frame count, where every bit past it reads as set
    have hLast := lt_of_test (hClear (n - 1) (by omega))
    unfold Pmm.allocContiguous at hAlloc
    rw [if_neg (by omega), if_neg hOne] at hAlloc
    split at hAlloc
    next found hFound =>
      obtain rfl : found = 0 := (Prod.ext_iff.mp hAlloc).1
      rw [range_eq_range'] at hFound
      have hBit := findRun_some (fun i hi => absurd hi (Nat.not_lt_zero i))
        (fun h => absurd rfl h) hFound 0 hn
      rw [Nat.add_zero, hZero] at hBit
      cases hBit
    next hNone =>
      rw [range_eq_range'] at hNone
      exact findRun_none hn (Nat.le_refl 0) hNone (Nat.zero_le s) (by omega) hClear
  next hStart =>
    obtain ⟨hClear, hTest, -⟩ := allocContiguous_spec hAlloc hStart
    refine ⟨hClear, fun g => ?_⟩
    rw [hTest]
    congr 2
    exact propext mem_range'_1

end Pmm

/-! ### Runs -/

/-- A call from outside. `initRefcounts` comes with the answer of `kmalloc`. -/
inductive FrameCall
  | alloc
  | allocContiguous (n : Nat)
  | free (frame : Nat)
  | freeContiguous (base n : Nat)
  | share (frame : Nat)
  | release (frame : Nat)
  | initRefcounts (table : Bool)

/-- The frames `free_contiguous` visits; the address wraps at the end of the address space. -/
def visited (base n : Nat) : List Nat := (List.range' base n).map fun frame => frame % 2 ^ 52

/-- The allocator, with the successful shares and the releases of each frame since its bit was
last set. -/
structure FrameBook where
  pmm : Pmm
  shares : Nat → Nat
  releases : Nat → Nat

namespace FrameBook

/-- The allocator has moved to `p'`: the frames it took start from nothing. -/
def moved (c : FrameBook) (p' : Pmm) : FrameBook where
  pmm := p'
  shares g := if c.pmm.test g = false ∧ p'.test g = true then 0 else c.shares g
  releases g := if c.pmm.test g = false ∧ p'.test g = true then 0 else c.releases g

def next (c : FrameBook) : FrameCall → FrameBook
  | .alloc => c.moved c.pmm.alloc.2
  | .allocContiguous n => c.moved (c.pmm.allocContiguous n).2
  | .free frame => c.moved (c.pmm.free frame)
  | .freeContiguous base n => c.moved ((visited base n).foldl Pmm.free c.pmm)
  | .share frame =>
    let r := c.pmm.share frame
    { c with
      pmm := r.1
      shares := if r.2 then update c.shares frame (c.shares frame + 1) else c.shares }
  | .release frame =>
    { c with
      pmm := c.pmm.release frame
      releases := update c.releases frame (c.releases frame + 1) }
  | .initRefcounts table => { c with pmm := c.pmm.initRefcounts table }

/-- Where `init` leaves the allocator. -/
def start (p : Pmm) : FrameBook := ⟨p, fun _ => 0, fun _ => 0⟩

/-- The steps of the allocator. -/
def Step (c : FrameBook) (e : FrameCall) (c' : FrameBook) : Prop := c' = c.next e

/-- The allocator is exact. The frame 0 is the failed allocation, so it is never given out. -/
structure Exact (c : FrameBook) : Prop where
  free : c.pmm.freeFrames = c.pmm.clear
  all : c.pmm.usedFrames + c.pmm.freeFrames = c.pmm.frameCount
  alloc : ∀ frame p', c.pmm.alloc = (frame, p') → Pmm.Took c.pmm p' frame 1
  contiguous : ∀ n begin p', 0 < n → c.pmm.allocContiguous n = (begin, p') →
    Pmm.Took c.pmm p' begin n
  release : ∀ frame, 0 < frame → frame < c.pmm.frameCount → c.pmm.test frame = true →
    ((c.pmm.release frame).test frame = false ↔ c.releases frame + 1 = c.shares frame + 1)

/-- What is given back with `free` has no reference left, and what is shared is in use. -/
def Settled (c : FrameBook) : FrameCall → Prop
  | .free frame => c.pmm.isShared frame = false
  | .freeContiguous base n => ∀ frame ∈ visited base n, c.pmm.isShared frame = false
  | .share frame => c.pmm.test frame = true
  | _ => True

instance (c : FrameBook) (e : FrameCall) : Decidable (c.Settled e) := by
  cases e <;> unfold Settled <;> infer_instance

/-! ### What every run keeps -/

/-- The counters are exact and the frame 0 is in use. -/
def Kept (p : Pmm) : Prop := p.Counts ∧ p.test 0 = true

variable {p p' : Pmm} {frame g : Nat} {c : FrameBook}

theorem kept_free (hKept : Kept p) (frame : Nat) : Kept (p.free frame) := by
  exact ⟨hKept.1.free frame, (test_free_zero p frame).trans hKept.2⟩

theorem kept_share (hKept : Kept p) (frame : Nat) : Kept (p.share frame).1 := by
  generalize hShare : p.share frame = r
  obtain ⟨p', done⟩ := r
  cases done with
  | false =>
    obtain ⟨rfl, -⟩ := share_false hShare
    exact hKept
  | true =>
    obtain ⟨refs, rfl⟩ := share_with hShare
    exact ⟨⟨hKept.1.bits, hKept.1.sum⟩, hKept.2⟩

theorem kept_release (hKept : Kept p) (frame : Nat) : Kept (p.release frame) := by
  unfold Pmm.release
  split
  · exact kept_free hKept frame
  split
  · exact ⟨⟨hKept.1.bits, hKept.1.sum⟩, hKept.2⟩
  · exact kept_free hKept frame

theorem kept_initRefcounts (hKept : Kept p) (table : Bool) :
    Kept (p.initRefcounts table) := by
  unfold Pmm.initRefcounts
  split
  · exact hKept
  · exact ⟨⟨hKept.1.bits, hKept.1.sum⟩, hKept.2⟩

/-- An allocation sets bits and clears none. -/
theorem set_of_took {start n : Nat} (hTook : Pmm.Took p p' start n) (hSet : p.test g = true) :
    p'.test g = true := by
  unfold Pmm.Took at hTook
  split at hTook
  · rw [hTook.1]
    exact hSet
  · rw [hTook.2, hSet, Bool.true_or]

theorem set_of_allocContiguous {n start : Nat} (hZero : p.test 0 = true)
    (hAlloc : p.allocContiguous n = (start, p')) (hSet : p.test g = true) :
    p'.test g = true := by
  rcases Nat.eq_zero_or_pos n with rfl | hPos
  · obtain rfl : p = p' := (Prod.ext_iff.mp hAlloc).2
    exact hSet
  · exact set_of_took (took_allocContiguous hZero hPos hAlloc) hSet

theorem kept_next (hKept : Kept c.pmm) (e : FrameCall) : Kept (c.next e).pmm := by
  cases e with
  | alloc =>
    exact ⟨hKept.1.alloc rfl, set_of_took (took_alloc hKept.2 rfl) hKept.2⟩
  | allocContiguous n =>
    exact ⟨hKept.1.allocContiguous rfl, set_of_allocContiguous hKept.2 rfl hKept.2⟩
  | free frame => exact kept_free hKept frame
  | freeContiguous base n => exact foldl_keeps Kept (fun p g hp => kept_free hp g) _ hKept
  | share frame => exact kept_share hKept frame
  | release frame => exact kept_release hKept frame
  | initRefcounts table => exact kept_initRefcounts hKept table

/-! ### The references -/

/-- The table holds the shares of a frame in use that have not been released yet, and nothing
for a free frame. -/
structure Balanced (c : FrameBook) : Prop where
  used : ∀ frame, 0 < frame → frame < c.pmm.frameCount → c.pmm.test frame = true →
    c.pmm.refsOf frame + c.releases frame = c.shares frame
  clear : ∀ frame, 0 < frame → c.pmm.test frame = false → c.pmm.refsOf frame = 0

/-- The allocator may take and free frames without touching the table, as long as what it frees
has no reference left. -/
theorem Balanced.moved (hBal : c.Balanced) (hSame : Pmm.SameRefs c.pmm p')
    (hCount : p'.frameCount = c.pmm.frameCount)
    (hFreed : ∀ g, c.pmm.test g = true → p'.test g = false → c.pmm.refsOf g = 0) :
    (c.moved p').Balanced := by
  constructor
  · intro g hPos hLt hNow
    simp only [FrameBook.moved, hSame.refsOf] at hLt hNow ⊢
    cases hWas : c.pmm.test g with
    | false => simp [hNow, hBal.clear g hPos hWas]
    | true => simpa using hBal.used g hPos (hCount ▸ hLt) hWas
  · intro g hPos hNow
    simp only [FrameBook.moved, hSame.refsOf] at hNow ⊢
    cases hWas : c.pmm.test g with
    | false => exact hBal.clear g hPos hWas
    | true => exact hFreed g hWas hNow

theorem refs_free (hShared : p.isShared frame = false) (hSet : p.test g = true)
    (hClear : (p.free frame).test g = false) : p.refsOf g = 0 := by
  rw [test_free] at hClear
  split at hClear
  next hFrame =>
    rw [hFrame.1]
    simpa [isShared] using hShared
  · rw [hSet] at hClear
    cases hClear

/-- The same for the loop of `free_contiguous`. -/
theorem refs_frees (l : List Nat) (hShared : ∀ frame ∈ l, p.isShared frame = false) :
    Pmm.SameRefs p (l.foldl Pmm.free p) ∧ (l.foldl Pmm.free p).frameCount = p.frameCount ∧
      ∀ g, p.test g = true → (l.foldl Pmm.free p).test g = false → p.refsOf g = 0 := by
  induction l generalizing p with
  | nil =>
    refine ⟨⟨rfl, rfl⟩, rfl, fun g hSet hClear => ?_⟩
    rw [foldl_nil, hSet] at hClear
    cases hClear
  | cons frame rest ih =>
    have hSame := sameRefs_free p frame
    obtain ⟨hRefs, hCount, hFreed⟩ := ih (p := p.free frame) fun g hg => by
      rw [isShared, hSame.refsOf]
      exact hShared g (mem_cons_of_mem _ hg)
    refine ⟨hSame.trans hRefs, hCount.trans (frameCount_free p frame), fun g hSet hClear => ?_⟩
    cases hAfter : (p.free frame).test g with
    | false => exact refs_free (hShared frame mem_cons_self) hSet hAfter
    | true =>
      rw [← hSame.refsOf]
      exact hFreed g hAfter hClear

theorem Balanced.share (hBal : c.Balanced) (hUsed : c.pmm.test frame = true) :
    (c.next (.share frame)).Balanced := by
  simp only [FrameBook.next]
  generalize hShare : c.pmm.share frame = r
  obtain ⟨p', done⟩ := r
  cases done with
  | false =>
    obtain ⟨rfl, -⟩ := share_false hShare
    exact hBal
  | true =>
    obtain ⟨hRefs, hTest, hCount, -⟩ := share_true hShare
    constructor
    · intro g hPos hLt hSet
      simp only [hRefs, if_true]
      have hBefore := hBal.used g hPos (hCount ▸ hLt) (hTest ▸ hSet)
      by_cases hg : g = frame
      · subst hg
        rw [if_pos rfl, update_self]
        omega
      · rw [if_neg hg, update_of_ne hg]
        exact hBefore
    · intro g hPos hClear
      have hWas : c.pmm.test g = false := hTest ▸ hClear
      have hg : g ≠ frame := by
        rintro rfl
        rw [hUsed] at hWas
        cases hWas
      simp only [hRefs, if_neg hg]
      exact hBal.clear g hPos hWas

theorem Balanced.release (hBal : c.Balanced) (frame : Nat) :
    (c.next (.release frame)).Balanced := by
  rcases Nat.eq_zero_or_pos (c.pmm.refsOf frame) with hZero | hMore
  · -- the last reference: the frame is free then
    have hFree := release_of_zero hZero
    have hRefs := (sameRefs_free c.pmm frame).refsOf
    constructor
    · intro g hPos hLt hSet
      simp only [FrameBook.next, hFree, hRefs, frameCount_free, test_free] at hLt hSet ⊢
      have hg : g ≠ frame := by
        rintro rfl
        rw [if_pos ⟨rfl, Nat.ne_of_gt hPos, hLt⟩] at hSet
        cases hSet
      rw [if_neg fun h => hg h.1] at hSet
      rw [update_of_ne hg]
      exact hBal.used g hPos hLt hSet
    · intro g hPos hClear
      simp only [FrameBook.next, hFree, hRefs, test_free] at hClear ⊢
      by_cases hg : g = frame
      · rw [hg]
        exact hZero
      · rw [if_neg fun h => hg h.1] at hClear
        exact hBal.clear g hPos hClear
  · obtain ⟨hRefs, hTest, hCount, -⟩ := release_of_pos hMore
    constructor
    · intro g hPos hLt hSet
      simp only [FrameBook.next, hRefs, hTest, hCount] at hLt hSet ⊢
      have hBefore := hBal.used g hPos hLt hSet
      by_cases hg : g = frame
      · subst hg
        rw [if_pos rfl, update_self]
        omega
      · rw [if_neg hg, update_of_ne hg]
        exact hBefore
    · intro g hPos hClear
      simp only [FrameBook.next, hRefs, hTest] at hClear ⊢
      rw [hBal.clear g hPos hClear]
      exact Nat.zero_sub _

theorem Balanced.initRefcounts (hBal : c.Balanced) (table : Bool) :
    (c.next (.initRefcounts table)).Balanced := by
  have hRefs : ∀ g, (c.pmm.initRefcounts table).refsOf g = c.pmm.refsOf g := by
    intro g
    unfold Pmm.initRefcounts
    split
    · rfl
    next hNone =>
      cases table with
      | false | true => simp [Pmm.refsOf, hNone]
  have hTest : (c.pmm.initRefcounts table).test = c.pmm.test ∧
      (c.pmm.initRefcounts table).frameCount = c.pmm.frameCount := by
    unfold Pmm.initRefcounts
    split
    · exact ⟨rfl, rfl⟩
    · exact ⟨rfl, rfl⟩
  constructor
  · intro g hPos hLt hSet
    simp only [FrameBook.next, hRefs, hTest.1, hTest.2] at hLt hSet ⊢
    exact hBal.used g hPos hLt hSet
  · intro g hPos hClear
    simp only [FrameBook.next, hRefs, hTest.1] at hClear ⊢
    exact hBal.clear g hPos hClear

/-- The allocator takes frames: nothing is freed and the table stays. -/
theorem Balanced.took (hBal : c.Balanced) (hSame : Pmm.SameRefs c.pmm p')
    (hCount : p'.frameCount = c.pmm.frameCount) (hSet : ∀ g, c.pmm.test g = true → p'.test g = true) :
    (c.moved p').Balanced := by
  refine hBal.moved hSame hCount fun g hWas hNow => ?_
  rw [hSet g hWas] at hNow
  cases hNow

theorem balanced_next (hZero : c.pmm.test 0 = true) (hBal : c.Balanced) {e : FrameCall}
    (hSettled : c.Settled e) : (c.next e).Balanced := by
  cases e with
  | alloc =>
    have hTook : Pmm.Took c.pmm c.pmm.alloc.2 c.pmm.alloc.1 1 := took_alloc hZero rfl
    exact hBal.took (extends_alloc rfl).refs (frameCount_alloc rfl)
      fun g hSet => set_of_took hTook hSet
  | allocContiguous n =>
    have hFields : Pmm.SameRefs c.pmm (c.pmm.allocContiguous n).2 ∧
        (c.pmm.allocContiguous n).2.frameCount = c.pmm.frameCount := by
      generalize hAlloc : c.pmm.allocContiguous n = r
      obtain ⟨start, p'⟩ := r
      by_cases hStart : start = 0
      · subst hStart
        obtain rfl := allocContiguous_zero hZero hAlloc
        exact ⟨⟨rfl, rfl⟩, rfl⟩
      · obtain ⟨-, -, hSame, hCount⟩ := allocContiguous_spec hAlloc hStart
        exact ⟨hSame, hCount⟩
    exact hBal.took hFields.1 hFields.2 fun g hSet => set_of_allocContiguous hZero rfl hSet
  | free frame =>
    exact hBal.moved (sameRefs_free _ _) (frameCount_free _ _)
      fun g hSet hClear => refs_free hSettled hSet hClear
  | freeContiguous base n =>
    obtain ⟨hSame, hCount, hFreed⟩ := refs_frees (visited base n) hSettled
    exact hBal.moved hSame hCount hFreed
  | share frame => exact hBal.share hSettled
  | release frame => exact hBal.release frame
  | initRefcounts table => exact hBal.initRefcounts table

/-! ### Exactness -/

/-- With a balanced table the last release is the one after as many releases as shares. -/
theorem Balanced.release_iff (hBal : c.Balanced) (hPos : 0 < frame) (hLt : frame < c.pmm.frameCount)
    (hUsed : c.pmm.test frame = true) :
    (c.pmm.release frame).test frame = false ↔ c.releases frame + 1 = c.shares frame + 1 := by
  have hSum := hBal.used frame hPos hLt hUsed
  rcases Nat.eq_zero_or_pos (c.pmm.refsOf frame) with hZero | hMore
  · rw [release_of_zero hZero, test_free, if_pos ⟨rfl, Nat.ne_of_gt hPos, hLt⟩]
    exact ⟨fun _ => by omega, fun _ => rfl⟩
  · rw [(release_of_pos hMore).2.1, hUsed]
    exact ⟨fun h => Bool.noConfusion h, fun h => by omega⟩

theorem exact_of_kept (hKept : Kept c.pmm) (hBal : c.Balanced) : c.Exact where
  free := hKept.1.bits
  all := hKept.1.sum
  alloc _ _ hAlloc := took_alloc hKept.2 hAlloc
  contiguous _ _ _ hn hAlloc := took_allocContiguous hKept.2 hn hAlloc
  release _ hPos hLt hUsed := hBal.release_iff hPos hLt hUsed

/-- After `init` and any calls that free no shared frame and share no free one, the allocator
is exact. -/
theorem exact_of_settled {regions : List MemoryRegion} {kernelStart kernelEnd : UInt64}
    {mem : Nat → Page} {p : Pmm} (hInit : Pmm.init regions kernelStart kernelEnd mem = some p)
    {c : FrameBook} {es : List FrameCall} (hRun : Run (Restrict Settled Step) (start p) es c) :
    c.Exact := by
  obtain ⟨hCounts, hZero, hRefs⟩ := init_counts hInit
  have hStep : ∀ c e c', Kept c.pmm ∧ c.Balanced → Restrict Settled Step c e c' →
      Kept c'.pmm ∧ c'.Balanced := by
    rintro c e _ ⟨hKept, hBal⟩ ⟨hSettled, rfl⟩
    exact ⟨kept_next hKept e, balanced_next hKept.2 hBal hSettled⟩
  have hStart : (start p).Balanced := by
    have hNone : ∀ g, (start p).pmm.refsOf g = 0 := fun g => by simp [start, Pmm.refsOf, hRefs]
    exact ⟨fun g _ _ _ => hNone g, fun g _ _ => hNone g⟩
  have hEnd := hRun.invariant hStep ⟨⟨hCounts, hZero⟩, hStart⟩
  exact exact_of_kept hEnd.1 hEnd.2

/-! ### A frame freed under a reference -/

/-- One usable region of 64 frames at 1 MiB. -/
def smallMap : List MemoryRegion := [⟨0x100000, 0x40000, .usable⟩]

/-- What `init` makes of it, with a kernel image of eight frames. -/
def booted : Option FrameBook :=
  (Pmm.init smallMap 0x100000 0x108000 fun _ => zeros).map start

/-- A frame is shared, freed all the same, and given out again. -/
def staleCalls : List FrameCall :=
  [.initRefcounts true, .alloc, .share 0x109, .free 0x109, .alloc]

/-- The new owner's one release does not put the frame back. -/
theorem not_exact_staleCalls : ¬ ∀ regions kernelStart kernelEnd mem p c es,
    Pmm.init regions kernelStart kernelEnd mem = some p → Run Step (start p) es c → c.Exact := by
  intro hAll
  have hEnd : (booted.map fun c =>
      let c := staleCalls.foldl next c
      (c.pmm.frameCount, c.pmm.test 0x109, (c.pmm.release 0x109).test 0x109, c.releases 0x109,
        c.shares 0x109)) = some (0x140, true, true, 0, 0) := by
    decide +kernel
  obtain ⟨c₀, hBoot, hEnd⟩ := map_eq_some_iff.mp hEnd
  obtain ⟨p, hInit, rfl⟩ := map_eq_some_iff.mp hBoot
  have hExact := hAll _ _ _ _ p _ staleCalls hInit (.of_foldl next (start p) staleCalls)
  simp only [Prod.mk.injEq] at hEnd
  obtain ⟨hCount, hSet, hStill, hReleases, hShares⟩ := hEnd
  have hBack := (hExact.release 0x109 (by decide) (by rw [hCount]; decide) hSet).mpr
    (by rw [hReleases, hShares])
  rw [hStill] at hBack
  cases hBack

/-- Calls that share a frame, take the reference back and then release the frame. -/
def settledCalls : List FrameCall :=
  [.initRefcounts true, .alloc, .share 0x109, .allocContiguous 3, .release 0x109,
    .release 0x109, .freeContiguous 0x10a 3, .alloc]

theorem exact_settledCalls : ∃ c₀ c, booted = some c₀ ∧
    Run (Restrict Settled Step) c₀ settledCalls c ∧ c.Exact := by
  have hEnd : (booted.bind fun c₀ =>
      settledCalls.foldlM (guarded Settled fun c e => some (c.next e)) c₀).isSome = true := by
    decide +kernel
  obtain ⟨c, hEnd⟩ := isSome_iff_exists.mp hEnd
  obtain ⟨c₀, hBoot, hEnd⟩ := bind_eq_some_iff.mp hEnd
  obtain ⟨p, hInit, rfl⟩ := map_eq_some_iff.mp hBoot
  have hRun : Run (Restrict Settled Step) (start p) settledCalls c :=
    Run.of_guarded (fun _ _ _ h => (some.inj h).symm) _ hEnd
  exact ⟨start p, c, hBoot, hRun, exact_of_settled hInit hRun⟩

end FrameBook
end LeahOS.Mm
