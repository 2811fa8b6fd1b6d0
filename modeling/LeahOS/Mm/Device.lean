import LeahOS.Mm.System

/-!
# Memory the firmware never offered

The bitmap starts full and `init` clears only whole frames of usable regions. The bitmap
reaches up to the end of the highest of them, though, so it has bits for the holes in
between; and `release`, at `munmap` and at the end of a process, clears the bit of any frame
that has no counted reference, whether the allocator ever owned it or not. A device that is
mapped out of a hole therefore ends up among the free frames.

As long as nothing is mapped out of a hole, and no usable region wraps around the end of the
address space, only frames of usable regions are ever free.
-/

namespace LeahOS.Mm
open Lib List Option Bool Multiset

/-- The frame lies in the region, and the region is usable. -/
def MemoryRegion.Holds (r : MemoryRegion) (frame : Nat) : Prop :=
  r.type = .usable ∧ r.base.toNat ≤ frame * kPageSize ∧
    (frame + 1) * kPageSize ≤ r.base.toNat + r.length.toNat

instance (r : MemoryRegion) (frame : Nat) : Decidable (r.Holds frame) :=
  inferInstanceAs (Decidable (_ ∧ _ ∧ _))

/-- The frame lies in a usable region. -/
def Usable (regions : List MemoryRegion) (frame : Nat) : Prop := ∃ r ∈ regions, r.Holds frame

instance (regions : List MemoryRegion) (frame : Nat) : Decidable (Usable regions frame) :=
  inferInstanceAs (Decidable (∃ r ∈ regions, r.Holds frame))

/-- No usable region wraps around. -/
def NoneWraps (regions : List MemoryRegion) : Prop :=
  ∀ r ∈ regions, r.type = .usable → r.base.toNat + r.length.toNat ≤ 2 ^ 64

instance (regions : List MemoryRegion) : Decidable (NoneWraps regions) :=
  inferInstanceAs (Decidable (∀ r ∈ regions, _))

namespace Pmm

theorem frameCount_foldl_markFree (p : Pmm) (l : List Nat) :
    (l.foldl markFree p).frameCount = p.frameCount := by
  induction l generalizing p with
  | nil => rfl
  | cons frame rest ih => rw [List.foldl_cons, ih, frameCount_markFree]

variable {g : Nat} {p : Pmm} {regions : List MemoryRegion} {r : MemoryRegion}

/-- After the regions are released, the clear bits are those of their whole frames. -/
theorem test_of_releaseRegions
    (hClear : (regions.foldl (fun p r => p.releaseRegion r.base r.length) p).test g = false) :
    p.test g = false ∨ ∃ r ∈ regions, frameUp r.base ≤ g ∧ g < frameDown r.stop := by
  induction regions generalizing p with
  | nil => exact .inl hClear
  | cons r rest ih =>
    rcases ih hClear with hTest | ⟨r', hMem, hRange⟩
    · rcases test_of_foldl_markFree hTest with hTest | hMem
      · exact .inl hTest
      · exact .inr ⟨r, List.mem_cons_self, mem_frames.mp hMem⟩
    · exact .inr ⟨r', List.mem_cons_of_mem r hMem, hRange⟩

theorem frameCount_releaseRegions (regions : List MemoryRegion) (p : Pmm) :
    (regions.foldl (fun p r => p.releaseRegion r.base r.length) p).frameCount = p.frameCount := by
  induction regions generalizing p with
  | nil => rfl
  | cons r rest ih =>
    rw [List.foldl_cons, ih]
    exact frameCount_foldl_markFree _ _

/-- No usable region ends above `g_highest_usable`. -/
theorem stop_le_highestUsableOf (hMem : r ∈ regions) (hUsable : r.type = .usable) :
    r.stop ≤ highestUsableOf regions := by
  -- the fold never goes down, and it is at least `r.stop` once it has passed `r`
  have hFold : ∀ (l : List MemoryRegion) (top : UInt64),
      top ≤ l.foldl (fun top r => if r.type = .usable ∧ top < r.stop then r.stop else top) top ∧
        (r ∈ l → r.stop ≤
          l.foldl (fun top r => if r.type = .usable ∧ top < r.stop then r.stop else top) top) := by
    intro l
    induction l with
    | nil => exact fun top => ⟨UInt64.le_refl top, fun h => absurd h not_mem_nil⟩
    | cons x rest ih =>
      intro top
      obtain ⟨hUp, hRest⟩ := ih (if x.type = .usable ∧ top < x.stop then x.stop else top)
      have hHere : top ≤ if x.type = .usable ∧ top < x.stop then x.stop else top := by
        split
        next h => exact UInt64.le_of_lt h.2
        · exact UInt64.le_refl top
      refine ⟨UInt64.le_trans hHere hUp, fun h => ?_⟩
      rcases List.mem_cons.mp h with rfl | h
      · refine UInt64.le_trans ?_ hUp
        split
        · exact UInt64.le_refl _
        next hNot => exact UInt64.not_lt.mp fun hLt => hNot ⟨hUsable, hLt⟩
      · exact hRest h
  exact (hFold regions 0).2 hMem

/-- The whole frames a usable region contributes lie in it, as long as they have a bit. -/
theorem holds_of_range (hMem : r ∈ regions) (hUsable : r.type = .usable)
    (hWraps : NoneWraps regions) (hCount : g < frameUp (highestUsableOf regions))
    (hFirst : frameUp r.base ≤ g) (hLast : g < frameDown r.stop) : r.Holds g := by
  have hFits := hWraps r hMem hUsable
  have hStop := UInt64.le_iff_toNat_le.mp (stop_le_highestUsableOf hMem hUsable)
  have hTop : (highestUsableOf regions + 4095).toNat =
      ((highestUsableOf regions).toNat + 4095) % 2 ^ 64 := UInt64.toNat_add _ _
  have hUp : (r.base + 4095).toNat = (r.base.toNat + 4095) % 2 ^ 64 := UInt64.toNat_add _ _
  have hEnd : r.stop.toNat = (r.base.toNat + r.length.toNat) % 2 ^ 64 := UInt64.toNat_add _ _
  have hLt := (highestUsableOf regions).toNat_lt
  simp only [frameUp, frameDown, kPageSize, hTop, hUp, hEnd] at hCount hFirst hLast
  refine ⟨hUsable, ?_, ?_⟩
  · rw [kPageSize]
    omega
  · rw [kPageSize]
    omega

/-- `init` clears no bit outside the usable regions, and leaves the frame 0 alone. -/
theorem init_spec {kernelStart kernelEnd : UInt64} {mem : Nat → Page}
    (hInit : init regions kernelStart kernelEnd mem = some p) (hWraps : NoneWraps regions) :
    p.test 0 = true ∧ ∀ g, p.test g = false → Usable regions g := by
  refine ⟨test_init hInit, fun g hClear => ?_⟩
  simp only [init] at hInit
  split at hInit
  swap
  · cases hInit
  obtain rfl := some.inj hInit
  simp only [test_reserveRegion, or_eq_false_iff] at hClear
  have hTest := hClear.1.1.1
  have hLt := lt_of_test hTest
  rw [frameCount_releaseRegions] at hLt
  rcases test_of_releaseRegions hTest with hTest | ⟨r, hMem, hFirst, hLast⟩
  · rw [test_allUsed] at hTest
    cases hTest
  · obtain ⟨hMem, hUsable⟩ := List.mem_filter.mp hMem
    exact ⟨r, hMem, holds_of_range hMem (by simpa using hUsable) hWraps hLt hFirst hLast⟩

end Pmm
/-- The machine after `init`, with whatever frames the kernel has taken for itself since, and
no process yet. -/
structure Booted (regions : List MemoryRegion) (k : State) : Prop where
  pmm : ∃ kernelStart kernelEnd mem p, Pmm.init regions kernelStart kernelEnd mem = some p ∧
    ∀ g, p.test g = true → k.pmm.test g = true
  procs : k.procs = Assoc.empty
  segments : k.segments = Assoc.empty
  images : k.images = Assoc.empty

/-- What lies in no usable region is not free, and no allocation returns it. -/
def KeepsOut (regions : List MemoryRegion) (k : State) : Prop :=
  (∀ g, ¬ Usable regions g → k.pmm.test g = true) ∧
    (∀ frame p, k.pmm.alloc = (frame, p) → frame ≠ 0 → Usable regions frame) ∧
    ∀ n start p, k.pmm.allocContiguous n = (start, p) → start ≠ 0 →
      ∀ i < n, Usable regions (start + i)

/-- A frame that may be mapped as a device: it is never freed, or may be free. -/
def Harmless (regions : List MemoryRegion) (frameCount frame : Nat) : Prop :=
  frame = 0 ∨ frameCount ≤ frame ∨ Usable regions frame

instance (regions : List MemoryRegion) (frameCount frame : Nat) :
    Decidable (Harmless regions frameCount frame) :=
  inferInstanceAs (Decidable (_ ∨ _ ∨ _))

/-- No device is mapped out of a hole the bitmap has bits for. -/
def Apart (regions : List MemoryRegion) (k : State) : Event → Prop
  | .fbMap _ phys bytes => ∀ g ∈ framesFrom phys ((bytes + (kPageSize - 1)) / kPageSize),
      Harmless regions k.pmm.frameCount g
  | .mapPhysical _ addr length => ∀ g ∈ framesFrom (addr / kPageSize * kPageSize)
      (pagesIn ((length + (addr - addr / kPageSize * kPageSize)) % 2 ^ 64)),
      Harmless regions k.pmm.frameCount g
  | _ => True

instance (regions : List MemoryRegion) (k : State) (e : Event) :
    Decidable (Apart regions k e) := by
  cases e <;> unfold Apart <;> infer_instance

/-- Only usable frames are free, and every frame that may be let go of is harmless. -/
structure Safe (regions : List MemoryRegion) (frameCount : Nat) (b : Books) : Prop where
  count : b.pmm.frameCount = frameCount
  zero : b.pmm.test 0 = true
  free : ∀ g, b.pmm.test g = false → Usable regions g
  refs : ∀ g ∈ b.refs, Harmless regions frameCount g
  own : ∀ g ∈ b.own, Harmless regions frameCount g

/-- The faults `Safe` can live with. -/
def Bearable (regions : List MemoryRegion) (frameCount : Nat) : Fault → Prop
  | .again _ => True
  | .device frame => Harmless regions frameCount frame
  | .lost _ => True
  | .wild frame => Usable regions frame

section Safe
variable {regions : List MemoryRegion} {frameCount : Nat} {R : Multiset Nat} {frame : Nat}
  {k : State}

theorem harmless_of_mem_singleton_add (hFrame : Harmless regions frameCount frame)
    (hRest : ∀ g ∈ R, Harmless regions frameCount g) :
    ∀ g ∈ {frame} + R, Harmless regions frameCount g := by
  intro g hg
  rcases mem_add.mp hg with hg | hg
  · rw [Multiset.mem_singleton.mp hg]
    exact hFrame
  · exact hRest g hg

theorem harmless_split {R' : Multiset Nat} (hSplit : R = {frame} + R')
    (hAll : ∀ g ∈ R, Harmless regions frameCount g) :
    Harmless regions frameCount frame ∧ ∀ g ∈ R', Harmless regions frameCount g := by
  subst hSplit
  exact ⟨hAll frame (mem_add.mpr (.inl (Multiset.mem_singleton_self frame))),
    fun g hg => hAll g (mem_add.mpr (.inr hg))⟩

/-- Freeing a harmless frame leaves only usable frames free. -/
theorem free_of_harmless {p : Pmm} (hCount : p.frameCount = frameCount) (hZero : p.test 0 = true)
    (hFree : ∀ g, p.test g = false → Usable regions g) (hFrame : Harmless regions frameCount frame) :
    (p.free frame).test 0 = true ∧ ∀ g, (p.free frame).test g = false → Usable regions g := by
  constructor
  · rw [Pmm.test_free_zero, hZero]
  · intro g hClear
    rw [Pmm.test_free] at hClear
    split at hClear
    next h =>
      obtain ⟨rfl, hNe, hLt⟩ := h
      rcases hFrame with hEq | hLe | hUsable
      · exact absurd hEq hNe
      · omega
      · exact hUsable
    · exact hFree g hClear

theorem safe_move {b b' : Books} (hSafe : Safe regions frameCount b)
    (hMove : Move (Bearable regions frameCount) b b') : Safe regions frameCount b' := by
  obtain ⟨hCount, hZero, hFree, hRefs, hOwn⟩ := hSafe
  cases hMove with
  | alloc hAlloc hFrame =>
    obtain ⟨hClear, hTest, -, hCount'⟩ := Pmm.alloc_spec hAlloc hFrame
    refine ⟨hCount'.trans hCount, by rw [hTest, hZero]; rfl, fun g hg => hFree g ?_, hRefs,
      harmless_of_mem_singleton_add (.inr (.inr (hFree _ hClear))) hOwn⟩
    rw [hTest, or_eq_false_iff] at hg
    exact hg.1
  | @contiguous p p' R T n start hAlloc hStart =>
    obtain ⟨hClear, hTest, -, hCount'⟩ := Pmm.allocContiguous_spec hAlloc hStart
    refine ⟨hCount'.trans hCount, by rw [hTest, hZero]; rfl, fun g hg => hFree g ?_, hRefs,
      fun g hg => ?_⟩
    · rw [hTest, or_eq_false_iff] at hg
      exact hg.1
    · rcases mem_add.mp hg with hg | hg
      · exact .inr (.inr (hFree g (Pmm.clear_of_mem hClear (mem_coe.mp hg))))
      · exact hOwn g hg
  | full hAlloc =>
    obtain ⟨rfl, -⟩ := Pmm.alloc_zero hZero hAlloc
    exact ⟨hCount, hZero, hFree, hRefs, hOwn⟩
  | fullRun hAlloc =>
    obtain rfl := Pmm.allocContiguous_zero hZero hAlloc
    exact ⟨hCount, hZero, hFree, hRefs, hOwn⟩
  | fill frame page => exact ⟨hCount, hZero, hFree, hRefs, hOwn⟩
  | free hSplit =>
    obtain ⟨hFrame, hRest⟩ := harmless_split hSplit hOwn
    obtain ⟨hZero', hFree'⟩ := free_of_harmless hCount hZero hFree hFrame
    exact ⟨(Pmm.frameCount_free _ _).trans hCount, hZero', hFree', hRefs, hRest⟩
  | publish hSplit =>
    obtain ⟨hFrame, hRest⟩ := harmless_split hSplit hOwn
    exact ⟨hCount, hZero, hFree, harmless_of_mem_singleton_add hFrame hRefs, hRest⟩
  | share hShare hFrame =>
    obtain ⟨-, hTest, hCount', -⟩ := Pmm.share_true hShare
    exact ⟨hCount'.trans hCount, by rw [hTest]; exact hZero, by rw [hTest]; exact hFree,
      harmless_of_mem_singleton_add (hRefs _ hFrame) hRefs, hOwn⟩
  | @release p R R' T frame hSplit =>
    obtain ⟨hFrame, hRest⟩ := harmless_split hSplit hRefs
    rcases Nat.eq_zero_or_pos (p.refsOf frame) with hNone | hSome
    · rw [Pmm.release_of_zero hNone]
      obtain ⟨hZero', hFree'⟩ := free_of_harmless hCount hZero hFree hFrame
      exact ⟨(Pmm.frameCount_free _ _).trans hCount, hZero', hFree', hRest, hOwn⟩
    · obtain ⟨-, hTest, hCount', -⟩ := Pmm.release_of_pos hSome
      exact ⟨hCount'.trans hCount, by rw [hTest]; exact hZero, by rw [hTest]; exact hFree,
        hRest, hOwn⟩
  | again hFrame hOk =>
    exact ⟨hCount, hZero, hFree, harmless_of_mem_singleton_add (hRefs _ hFrame) hRefs, hOwn⟩
  | device hOk => exact ⟨hCount, hZero, hFree, harmless_of_mem_singleton_add hOk hRefs, hOwn⟩
  | lost hSplit hOk => exact ⟨hCount, hZero, hFree, (harmless_split hSplit hRefs).2, hOwn⟩
  | wild hOk =>
    obtain ⟨hZero', hFree'⟩ := free_of_harmless hCount hZero hFree (.inr (.inr hOk))
    exact ⟨(Pmm.frameCount_free _ _).trans hCount, hZero', hFree', hRefs, hOwn⟩

theorem safe_step {k' : State} {e : Event} (hSafe : Safe regions frameCount k.books)
    (hApart : Apart regions k e) (hStep : State.Step k e k') :
    Safe regions frameCount k'.books := by
  have hCount : k.pmm.frameCount = frameCount := hSafe.count
  have hAllowed : State.Allowed (Bearable regions frameCount) k e := by
    cases e with
    | fork pid child => exact fun pr hGet e hLeaf hShared => .inl trivial
    | shmMap | mapFile => exact .inl fun g => trivial
    | fbMap | mapPhysical => exact ⟨fun g => trivial, fun g hg => hCount ▸ hApart g hg⟩
    | dmaAlloc pid length => exact ⟨fun g => trivial, hSafe.free⟩
    | _ => trivial
  have hMove : ∀ b b', Safe regions frameCount b → Move (Bearable regions frameCount) b b' →
      Safe regions frameCount b' := fun b b' => safe_move
  exact (State.moves_next hStep hAllowed).invariant hMove hSafe

theorem safe_of_booted (hWraps : NoneWraps regions) (hBoot : Booted regions k) :
    Safe regions k.pmm.frameCount k.books := by
  obtain ⟨⟨kernelStart, kernelEnd, mem, p, hInit, hUsed⟩, hProcs, hSegments, hImages⟩ := hBoot
  obtain ⟨hZero, hFree⟩ := Pmm.init_spec hInit hWraps
  rw [State.books_of_empty hProcs hSegments hImages]
  refine ⟨rfl, hUsed 0 hZero, fun g hClear => hFree g ?_, fun g hg => absurd hg (notMem_zero g),
    fun g hg => absurd hg (notMem_zero g)⟩
  refine eq_false_iff.mpr fun hTest => ?_
  rw [hUsed g hTest] at hClear
  cases hClear

theorem keepsOut_of_safe (hSafe : Safe regions frameCount k.books) :
    KeepsOut regions k := by
  refine ⟨fun g hNot => ?_, fun frame p hAlloc hFrame => ?_, fun n start p hAlloc hStart i hi => ?_⟩
  · by_contra hTest
    exact hNot (hSafe.free g (eq_false_iff.mpr hTest))
  · exact hSafe.free frame (Pmm.alloc_spec hAlloc hFrame).1
  · exact hSafe.free _ ((Pmm.allocContiguous_spec hAlloc hStart).1 i hi)

end Safe

/-- In every run from boot that maps no device out of a hole, what the firmware never offered
is never free and never handed out. -/
theorem keepsOut_of_apart {regions : List MemoryRegion} (hWraps : NoneWraps regions)
    {k₀ k : State} {es : List Event} (hBoot : Booted regions k₀)
    (hRun : Run (Restrict (Apart regions) State.Step) k₀ es k) : KeepsOut regions k := by
  exact keepsOut_of_safe (hRun.invariant_of (I := fun k => Safe regions k₀.pmm.frameCount k.books)
    (fun _ _ _ => safe_step) (safe_of_booted hWraps hBoot))

/-! ### A framebuffer in a hole -/

/-- The machine `init` leaves, before the first process. -/
def boot (regions : List MemoryRegion) (kernelStart kernelEnd : UInt64) : Option State :=
  (Pmm.init regions kernelStart kernelEnd fun _ => zeros).map fun p =>
    { pmm := p.initRefcounts true
      procs := Assoc.empty
      segments := Assoc.empty
      images := Assoc.empty }

theorem booted_of_boot {regions : List MemoryRegion} {kernelStart kernelEnd : UInt64} {k : State}
    (hBoot : boot regions kernelStart kernelEnd = some k) : Booted regions k := by
  obtain ⟨p, hInit, rfl⟩ := map_eq_some_iff.mp hBoot
  refine ⟨⟨kernelStart, kernelEnd, _, p, hInit, fun g hTest => ?_⟩, rfl, rfl, rfl⟩
  have hSame : (p.initRefcounts true).test g = p.test g := by
    unfold Pmm.initRefcounts
    split <;> rfl
  rw [hSame]
  exact hTest

/-- Usable memory on both sides of a hole from `0x140000` to `0x180000`. -/
def holedMap : List MemoryRegion :=
  [⟨0x100000, 0x40000, .usable⟩, ⟨0x140000, 0x40000, .reserved⟩, ⟨0x180000, 0x40000, .usable⟩]

/-- A process maps a framebuffer that lies in the hole, and unmaps it. -/
def holeEvents : List Event :=
  [.create 1, .fbMap 1 0x150000 4096, .munmap 1 kUserMmapBase 4096]

/-- The frame of the framebuffer is free then. -/
theorem not_keepsOut_holeEvents : ¬ ∀ regions k₀ k es, Booted regions k₀ →
    Run State.Step k₀ es k → KeepsOut regions k := by
  intro hAll
  have hEnd : ((boot holedMap 0x100000 0x108000).bind fun k₀ =>
      (holeEvents.foldlM State.next k₀).map fun k => k.pmm.test 0x150) = some false := by
    decide +kernel
  obtain ⟨k₀, hBoot, hEnd⟩ := bind_eq_some_iff.mp hEnd
  obtain ⟨k, hEs, hTest⟩ := map_eq_some_iff.mp hEnd
  have hKeeps := hAll holedMap k₀ k holeEvents (booted_of_boot hBoot)
    (.of_foldlM (fun _ _ _ h => h) _ hEs)
  rw [hKeeps.1 0x150 (by decide)] at hTest
  cases hTest

/-- The framebuffer above all memory, shared over a fork, unmapped and torn down. -/
def screenEvents : List Event :=
  [.create 1, .fbMap 1 0xFD000000 8192, .fork 1 2, .munmap 1 kUserMmapBase 4096, .exit 2, .exit 1]

theorem keepsOut_screenEvents : ∃ k₀ k, Booted holedMap k₀ ∧
    Run (Restrict (Apart holedMap) State.Step) k₀ screenEvents k ∧ KeepsOut holedMap k := by
  have hEnd : ((boot holedMap 0x100000 0x108000).bind fun k₀ =>
      (screenEvents.foldlM (guarded (Apart holedMap) State.next) k₀).map
        fun k => k.pmm.frameCount) = some 448 := by
    decide +kernel
  obtain ⟨k₀, hBoot, hEnd⟩ := bind_eq_some_iff.mp hEnd
  obtain ⟨k, hEs, -⟩ := map_eq_some_iff.mp hEnd
  have hRun : Run (Restrict (Apart holedMap) State.Step) k₀ screenEvents k :=
    Run.of_guarded (fun _ _ _ h => h) _ hEs
  exact ⟨k₀, k, booted_of_boot hBoot, hRun,
    keepsOut_of_apart (by decide) (booted_of_boot hBoot) hRun⟩

end LeahOS.Mm
