import LeahOS.Lib.Run
import LeahOS.Lib.Tiling

/-!
# The kernel heap (`kernel/mm/heap.cpp`)

The heap is a region of virtual memory from `kHeapBase` to `g_break`, cut into blocks that are
linked in address order. Memory is modelled word by word: the header of a block at `b` is the
words at `b`, `b + 8`, `b + 16` and `b + 24`, the last one holding `free` in its low half and
`magic` in its high half, and the slack count of an aligned allocation is the word below the
pointer. So the test of `release` that reads the magic of a block that may not be there reads
what the code reads. Requests are machine words and wrap.

`pages` is how many more pages can be mapped during a call: `grow` fails at the first page it
does not get. A walk over the blocks ends after as many steps as there is room for blocks, or
never; `none` is the walk that never ends, and the panic of `release`.
-/

namespace LeahOS.Mm
open Lib Lib.Tiling Function List

/-- `memory::kHeapBase`. -/
def kHeapBase : Nat := 0xFFFFC00000000000

/-- `memory::kDeviceMmioBase`, where the part of the address space for the heap ends. -/
def kDeviceMmioBase : Nat := 0xFFFFE00000000000

def kMagic : Nat := 0x1EA4B10C

def kGrowthPages : Nat := 16

/-- The globals of `heap.cpp`, and the memory. -/
structure Heap where
  mem : Nat → Nat
  first : Nat
  last : Nat
  brk : Nat
  size : Nat
  used : Nat

/-- `align_up`; `x & ~m` is `x` without the bits it shares with `m`. -/
def alignUp (value alignment : Nat) : Nat :=
  let x := (value + (alignment - 1)) % 2 ^ 64
  x - (x &&& (alignment - 1))

/-- How many pages `grow` asks for. -/
def growCount (bytes : Nat) : Nat :=
  let pages := alignUp ((bytes + 32) % 2 ^ 64) 4096 / 4096
  if pages < kGrowthPages then kGrowthPages else pages

namespace Heap

/-- A word is written. -/
def set (h : Heap) (address value : Nat) : Heap :=
  { h with mem := update h.mem address value }

/-- `block->free`. -/
def freeAt (h : Heap) (block : Nat) : Nat := h.mem (block + 24) % 2 ^ 32

/-- `block->magic`. -/
def magicAt (h : Heap) (block : Nat) : Nat := h.mem (block + 24) / 2 ^ 32

/-- `block->free = value`. -/
def setFree (h : Heap) (block value : Nat) : Heap :=
  h.set (block + 24) (h.magicAt block * 2 ^ 32 + value)

/-- The header of a free block at the end of the list. -/
def addBlock (h : Heap) (block size : Nat) : Heap :=
  let h := h.set block size
  let h := h.set (block + 8) h.last
  let h := h.set (block + 16) 0
  let h := h.set (block + 24) (tag kMagic true)
  let h := if h.last ≠ 0 then h.set (h.last + 16) block else { h with first := block }
  { h with last := block }

/-- The end of `grow`: a free tail and the new block become one. -/
def mergeTail (h : Heap) (block : Nat) : Heap :=
  let prev := h.mem (block + 8)
  if prev ≠ 0 ∧ h.freeAt prev ≠ 0 then
    let h := h.set prev (h.mem prev + (32 + h.mem block))
    let h := h.set (prev + 16) 0
    { h with last := prev }
  else h

def grow (h : Heap) (bytes pages : Nat) : Heap × Bool :=
  let count := growCount bytes
  if pages < count then ({ h with brk := h.brk + pages * 4096 }, false)
  else
    let start := h.brk
    let added := count * 4096
    let h := { h with brk := h.brk + added, size := h.size + added }
    ((h.addBlock start (added - 32)).mergeTail start, true)

/-- The block after this one gets it as the block before; without one, this is the last. -/
def linkBack (h : Heap) (next block : Nat) : Heap :=
  if next ≠ 0 then h.set (next + 8) block else { h with last := block }

def split (h : Heap) (block wanted : Nat) : Heap :=
  if h.mem block < wanted + 32 + 16 then h
  else
    let rest := block + 32 + wanted
    let next := h.mem (block + 16)
    let h := h.set rest (h.mem block - wanted - 32)
    let h := h.set (rest + 8) block
    let h := h.set (rest + 16) next
    let h := h.set (rest + 24) (tag kMagic true)
    let h := h.linkBack next rest
    let h := h.set (block + 16) rest
    h.set block wanted

/-- The block `y`, which lies after `x`, becomes a part of it. -/
def join (h : Heap) (x y : Nat) : Heap :=
  let h := h.set x (h.mem x + (32 + h.mem y))
  let next := h.mem (y + 16)
  let h := h.set (x + 16) next
  h.linkBack next x

/-- The first half of `coalesce`: the block after joins in. -/
def mergeNext (h : Heap) (block : Nat) : Heap :=
  let next := h.mem (block + 16)
  if next ≠ 0 ∧ h.freeAt next ≠ 0 then h.join block next else h

/-- The second half of `coalesce`: the block joins the one before. -/
def mergePrev (h : Heap) (block : Nat) : Heap :=
  let prev := h.mem (block + 8)
  if prev ≠ 0 ∧ h.freeAt prev ≠ 0 then h.join prev block else h

def coalesce (h : Heap) (block : Nat) : Heap := (h.mergeNext block).mergePrev block

/-- The loop of `allocate` over the blocks: the first that is free and large enough. -/
def walk (h : Heap) (wanted : Nat) : Nat → Nat → Option (Option Nat)
  | 0, _ => none
  | fuel + 1, block =>
    if block = 0 then some none
    else if h.freeAt block = 0 ∨ h.mem block < wanted then
      h.walk wanted fuel (h.mem (block + 16))
    else some (some block)

/-- More steps than the region has room for blocks. -/
def walkFuel (h : Heap) : Nat := (h.brk - kHeapBase) / 32 + 1

/-- The block found is split and handed out. -/
def take (h : Heap) (block wanted : Nat) : Heap × Nat :=
  let h := (h.split block wanted).setFree block 0
  ({ h with used := h.used + h.mem block }, block + 32)

def allocate (h : Heap) (bytes pages : Nat) : Option (Heap × Nat) :=
  if bytes = 0 then some (h, 0)
  else
    let wanted := alignUp bytes 16
    (h.walk wanted h.walkFuel h.first).bind fun
      | some block => some (h.take block wanted)
      | none =>
        let g := h.grow wanted pages
        if g.2 then
          (g.1.walk wanted g.1.walkFuel g.1.first).map fun
            | some block => g.1.take block wanted
            | none => (g.1, 0)
        else some (g.1, 0)

/-- The aligned pointer into the block at `raw`, and its slack count. -/
def alignPointer (h : Heap) (raw alignment : Nat) : Heap × Nat :=
  let aligned := alignUp (raw + 8) alignment
  (h.set (aligned - 8) (aligned - raw), aligned)

def allocateAligned (h : Heap) (bytes alignment pages : Nat) : Option (Heap × Nat) :=
  if alignment ≤ 16 then h.allocate bytes pages
  else
    (h.allocate ((bytes + alignment + 8) % 2 ^ 64) pages).map fun r =>
      if r.2 = 0 then r else r.1.alignPointer r.2 alignment

/-- The block `release` finds under a pointer. -/
def blockUnder (h : Heap) (pointer : Nat) : Option Nat :=
  if h.magicAt (pointer - 32) = kMagic then some (pointer - 32)
  else
    let block := pointer - h.mem (pointer - 8) - 32
    if h.magicAt block = kMagic then some block else none

def release (h : Heap) (pointer : Nat) : Option Heap :=
  if pointer = 0 then some h
  else
    (h.blockUnder pointer).bind fun block =>
      if h.freeAt block ≠ 0 then none
      else
        let h := { h with used := h.used - h.mem block }
        some ((h.setFree block 1).coalesce block)

/-- The heap before `init`. -/
def empty (mem : Nat → Nat) : Heap := ⟨mem, 0, 0, kHeapBase, 0, 0⟩

/-- `init`; `none` is the panic. -/
def init (mem : Nat → Nat) (pages : Nat) : Option Heap :=
  let g := (empty mem).grow (kGrowthPages * 4096) pages
  if g.2 then some g.1 else none

/-! ### What the heap is -/

/-- The bytes in used blocks. -/
def usedIn : List Block → Nat
  | [] => 0
  | b :: bs => (if b.free then 0 else b.size) + usedIn bs

/-- Two neighbours are not both free. -/
def NotBoth (b c : Block) : Prop := ¬ (b.free = true ∧ c.free = true)

/-- The blocks tile the region up to `g_break`, each starting where the one before ends, and
`prev` and `next` agree. -/
structure Tiled (h : Heap) (bs : List Block) : Prop where
  nonempty : bs ≠ []
  laid : Laid kMagic h.mem 0 0 kHeapBase bs
  first : h.first = kHeapBase
  last : h.last = lastAt 0 kHeapBase bs
  tiles : kHeapBase + span bs = h.brk
  size : h.size = h.brk - kHeapBase

/-- The heap is made of these blocks. -/
structure Shape (h : Heap) (bs : List Block) : Prop where
  tiled : h.Tiled bs
  apart : bs.IsChain NotBoth
  used : h.used = usedIn bs

/-- The heap is well formed: a list of blocks tiles the region, no two neighbours are both free,
and the counters agree with it. -/
def WellFormed (h : Heap) : Prop := ∃ bs, h.Shape bs

end Heap

/-! ### Runs -/

/-- A call from outside. -/
inductive HeapCall
  | allocate (bytes pages : Nat)
  | allocateAligned (bytes alignment pages : Nat)
  | release (pointer : Nat)

/-- The heap, and the pointers that have been returned and not released since. -/
structure HeapRun where
  heap : Heap
  live : List Nat

namespace HeapRun

/-- A pointer was returned. -/
def returned (r : HeapRun) (a : Heap × Nat) : HeapRun :=
  ⟨a.1, if a.2 = 0 then r.live else a.2 :: r.live⟩

/-- One call; `release` is called with a pointer that was returned, or with the null pointer. -/
def next (r : HeapRun) : HeapCall → Option HeapRun
  | .allocate bytes pages => (r.heap.allocate bytes pages).map r.returned
  | .allocateAligned bytes alignment pages =>
    (r.heap.allocateAligned bytes alignment pages).map r.returned
  | .release pointer =>
    if pointer = 0 ∨ pointer ∈ r.live then
      (r.heap.release pointer).map fun h => ⟨h, r.live.erase pointer⟩
    else none

/-- The steps of the heap. -/
def Step (r : HeapRun) (e : HeapCall) (r' : HeapRun) : Prop := r.next e = some r'

/-- If the heap has to grow for this size it gets all its pages or none, and the pages that are
left fit between the heap and the devices. -/
def Growth (r : HeapRun) (bytes pages : Nat) : Prop :=
  (pages = 0 ∨ growCount (alignUp bytes 16) ≤ pages) ∧ r.heap.brk + pages * 4096 ≤ kDeviceMmioBase

instance (r : HeapRun) (bytes pages : Nat) : Decidable (r.Growth bytes pages) :=
  inferInstanceAs (Decidable (_ ∧ _))

/-- Growth is all or nothing, and an aligned request with its slack is a machine word, rounded
up or not. -/
def Whole (r : HeapRun) : HeapCall → Prop
  | .allocate bytes pages => r.Growth bytes pages
  | .allocateAligned bytes alignment pages =>
    if alignment ≤ 16 then r.Growth bytes pages
    else r.Growth (bytes + alignment + 8) pages ∧ bytes + alignment + 8 + 15 < 2 ^ 64
  | .release _ => True

instance (r : HeapRun) (e : HeapCall) : Decidable (r.Whole e) := by
  cases e <;> unfold Whole <;> infer_instance

end HeapRun

/-! ### One block at a time

Each of these says which blocks a part of the code makes out of which, and that it touches no
other block: `Changed` bounds the words it writes. -/

namespace Heap

@[simp] theorem mem_set (h : Heap) (x v : Nat) : (h.set x v).mem = update h.mem x v := rfl

@[simp] theorem last_set (h : Heap) (x v : Nat) : (h.set x v).last = h.last := rfl

variable {h : Heap} {pre post : List Block} {s : Nat} {free : Bool}

/-- The address of the block after the blocks `pre`. -/
def place (pre : List Block) : Nat := kHeapBase + span pre

theorem place_snoc (pre : List Block) (s : Nat) (free : Bool) :
    place (pre ++ [⟨s, free⟩]) = place pre + (32 + s) := by
  simp only [place, span_append, span_cons, span_nil]
  omega

variable {old : List Block} {h' : Heap} {free' : Bool} {s' : Nat}

/-- A part of the list, and the back pointer of the block that follows it. -/
theorem Tiled.part (hTiled : h.Tiled (pre ++ (old ++ post))) :
    Laid kMagic h.mem (if post = [] then 0 else place pre + span old) (lastAt 0 kHeapBase pre)
        (place pre) old ∧ (post ≠ [] → h.mem (place pre + span old + 8) =
        lastAt (lastAt 0 kHeapBase pre) (place pre) old) := by
  obtain ⟨hOld, hPost⟩ := laid_append.mp (laid_append.mp hTiled.laid).2
  refine ⟨hOld, fun hNe => ?_⟩
  obtain ⟨c, cs, rfl⟩ := exists_cons_of_ne_nil hNe
  exact hPost.2.1

/-- What the code reads in the header of a block. -/
theorem Tiled.header (hTiled : h.Tiled (pre ++ ([⟨s, free⟩] ++ post))) :
    h.mem (place pre) = s ∧ h.mem (place pre + 8) = lastAt 0 kHeapBase pre ∧
      h.mem (place pre + 16) = (if post = [] then 0 else place pre + (32 + s)) ∧
      h.mem (place pre + 24) = tag kMagic free := by
  obtain ⟨hSize, hPrev, hNext, hTag, -⟩ := hTiled.part.1
  exact ⟨hSize, hPrev, by simpa using hNext, hTag⟩

theorem Tiled.magicAt (hTiled : h.Tiled (pre ++ ([⟨s, free⟩] ++ post))) :
    h.magicAt (place pre) = kMagic := by
  rw [Heap.magicAt, hTiled.header.2.2.2, tag_div]

theorem Tiled.freeAt (hTiled : h.Tiled (pre ++ ([⟨s, free⟩] ++ post))) :
    h.freeAt (place pre) = if free then 1 else 0 := by
  rw [Heap.freeAt, hTiled.header.2.2.2, tag_mod]

/-- Exchanging blocks keeps the heap tiled. -/
theorem Tiled.replace {new : List Block} (hTiled : h.Tiled (pre ++ (old ++ post))) (hOld : old ≠ [])
    (hNewNe : new ≠ []) (hSpan : span new = span old)
    (hChanged : Changed h.mem h'.mem (place pre) (place pre + span old))
    (hNew : Laid kMagic h'.mem (if post = [] then 0 else place pre + span old)
      (lastAt 0 kHeapBase pre) (place pre) new)
    (hPrev : post ≠ [] → h'.mem (place pre + span old + 8) =
      lastAt (lastAt 0 kHeapBase pre) (place pre) new)
    (hLast : h'.last = if post = [] then lastAt (lastAt 0 kHeapBase pre) (place pre) new else h.last)
    (hFirst : h'.first = h.first) (hBrk : h'.brk = h.brk) (hSize : h'.size = h.size) :
    h'.Tiled (pre ++ (new ++ post)) where
  nonempty := by simp [hNewNe]
  laid := hTiled.laid.replace hOld hNewNe (Nat.le_add_right _ _) (fun _ => ⟨hSpan, rfl⟩) hChanged
    hNew hPrev
  first := hFirst.trans hTiled.first
  last := by
    rw [hLast, lastAt_append, lastAt_append]
    split
    next hNil =>
      rw [hNil, lastAt]
      rfl
    next hNe =>
      -- what follows has not moved, so neither has the last block
      obtain ⟨c, cs, rfl⟩ := exists_cons_of_ne_nil hNe
      rw [hTiled.last, lastAt_append, lastAt_append, lastAt, lastAt, hSpan]
  tiles := by
    rw [hBrk, ← hTiled.tiles]
    simp only [span_append, hSpan]
  size := by rw [hSize, hBrk, hTiled.size]

theorem place_pos (pre : List Block) : 0 < place pre := Nat.lt_add_right _ (by decide)

/-- A block is marked free or used. -/
theorem Tiled.setFree (hTiled : h.Tiled (pre ++ ([⟨s, free⟩] ++ post))) (mark : Bool) :
    (h.setFree (place pre) (if mark then 1 else 0)).Tiled (pre ++ ([⟨s, mark⟩] ++ post)) ∧
      Changed h.mem (h.setFree (place pre) (if mark then 1 else 0)).mem (place pre)
        (place pre + (32 + s)) := by
  obtain ⟨⟨hSize, hPrev, hNext, -, -⟩, hBack⟩ := hTiled.part
  have hMem : (h.setFree (place pre) (if mark then 1 else 0)).mem =
      update h.mem (place pre + 24) (tag kMagic mark) := by
    rw [Heap.setFree, hTiled.magicAt, mem_set, tag]
  have hChanged : Changed h.mem (update h.mem (place pre + 24) (tag kMagic mark))
      (place pre) (place pre + (32 + s)) :=
    fun x hx _ => update_of_ne (by omega) _ _
  refine ⟨hTiled.replace (cons_ne_nil _ _) (cons_ne_nil _ _) rfl (hMem ▸ hChanged) ?_ ?_
    ?_ rfl rfl rfl, hMem ▸ hChanged⟩
  · rw [hMem]
    refine ⟨?_, ?_, ?_, update_self _ _ _, trivial⟩
    · rw [update_of_ne (by omega), hSize]
    · rw [update_of_ne (by omega), hPrev]
    · rw [update_of_ne (by omega), hNext]
  · intro hNe
    rw [hMem, update_of_ne (by simp only [span_cons]; omega)]
    exact hBack hNe
  · by_cases hNil : post = []
    · subst hNil
      rw [if_pos rfl, Heap.setFree, last_set, hTiled.last, append_nil, lastAt_append]
      rfl
    · rw [if_neg hNil]
      rfl

section LinkBack
variable {next block : Nat}

theorem mem_linkBack_of_ne {hi x : Nat} (hNext : next = 0 ∨ next = hi) (hx : x ≠ hi + 8) :
    (h.linkBack next block).mem x = h.mem x := by
  unfold linkBack
  split
  · exact update_of_ne (by omega) _ _
  · rfl

theorem mem_linkBack (hNext : next ≠ 0) : (h.linkBack next block).mem (next + 8) = block := by
  rw [linkBack, if_pos hNext]
  exact update_self _ _ _

theorem last_linkBack : (h.linkBack next block).last = if next = 0 then block else h.last := by
  unfold linkBack
  by_cases hNext : next = 0
  · rw [if_neg (not_not.mpr hNext), if_pos hNext]
  · rw [if_pos hNext, if_neg hNext, last_set]

theorem fields_linkBack : (h.linkBack next block).first = h.first ∧
    (h.linkBack next block).brk = h.brk ∧ (h.linkBack next block).size = h.size ∧
    (h.linkBack next block).used = h.used := by
  unfold linkBack
  split
  · exact ⟨rfl, rfl, rfl, rfl⟩
  · exact ⟨rfl, rfl, rfl, rfl⟩

end LinkBack

/-- A block is cut in two, and the second one is free. -/
theorem Tiled.split (wanted : Nat) (hTiled : h.Tiled (pre ++ ([⟨s, free⟩] ++ post)))
    (hRoom : wanted + 48 ≤ s) :
    (h.split (place pre) wanted).Tiled
        (pre ++ ([⟨wanted, free⟩, ⟨s - wanted - 32, true⟩] ++ post)) ∧
      Changed h.mem (h.split (place pre) wanted).mem (place pre) (place pre + (32 + s)) := by
  obtain ⟨hSize, hPrev, hNext, hTag⟩ := hTiled.header
  have hLarge : ¬ h.mem (place pre) < wanted + 32 + 16 := by omega
  have hSpan : span [⟨wanted, free⟩, ⟨s - wanted - 32, true⟩] = span [⟨s, free⟩] := by
    simp only [span_cons, span_nil]
    omega
  have hCase : h.mem (place pre + 16) = 0 ∨ h.mem (place pre + 16) = place pre + (32 + s) := by
    rw [hNext]
    split
    · exact .inl rfl
    · exact .inr rfl
  have hChanged : Changed h.mem (h.split (place pre) wanted).mem (place pre)
      (place pre + (32 + s)) := by
    intro x hx hNe
    simp only [Heap.split, if_neg hLarge, mem_set]
    simp (disch := omega) only [update_of_ne, mem_linkBack_of_ne hCase, mem_set]
  refine ⟨hTiled.replace (cons_ne_nil _ _) (cons_ne_nil _ _) hSpan hChanged ?_ ?_ ?_ ?_ ?_
    ?_, hChanged⟩
  · simp only [Heap.split, if_neg hLarge, mem_set, Laid]
    simp (disch := omega) only [update_of_ne, update_self, mem_linkBack_of_ne hCase, mem_set]
    simp [hSize, hPrev, hNext, hTag]
  · intro hNe
    rw [if_neg hNe] at hNext
    simp only [Heap.split, if_neg hLarge, mem_set, hNext, span_cons, span_nil, Nat.add_zero]
    simp (disch := omega) only [update_of_ne, mem_linkBack, lastAt]
  · simp only [Heap.split, if_neg hLarge, last_set, last_linkBack, hNext]
    by_cases hNil : post = []
    · simp [hNil, lastAt]
    · simp only [if_neg hNil]
      rw [if_neg (by omega)]
  · simp only [Heap.split, if_neg hLarge]
    exact fields_linkBack.1
  · simp only [Heap.split, if_neg hLarge]
    exact fields_linkBack.2.1
  · simp only [Heap.split, if_neg hLarge]
    exact fields_linkBack.2.2.1

/-- Two neighbours become one. -/
theorem Tiled.join (hTiled : h.Tiled (pre ++ ([⟨s, free⟩, ⟨s', free'⟩] ++ post))) :
    (h.join (place pre) (place pre + (32 + s))).Tiled
        (pre ++ ([⟨s + (32 + s'), free⟩] ++ post)) ∧
      Changed h.mem (h.join (place pre) (place pre + (32 + s))).mem (place pre)
        (place pre + (32 + s + (32 + s'))) := by
  -- the headers of the two, each seen as the one block of its part of the list
  have hFirst : h.Tiled (pre ++ ([⟨s, free⟩] ++ (⟨s', free'⟩ :: post))) := hTiled
  have hSecond : h.Tiled ((pre ++ [⟨s, free⟩]) ++ ([⟨s', free'⟩] ++ post)) := by
    simpa using hTiled
  obtain ⟨hSize, hPrev, -, hTag⟩ := hFirst.header
  obtain ⟨hSize', -, hNext, -⟩ := hSecond.header
  rw [place_snoc] at hSize' hNext
  have hSpan : span [⟨s + (32 + s'), free⟩] = span [⟨s, free⟩, ⟨s', free'⟩] := by
    simp only [span_cons, span_nil]
    omega
  generalize hAfter : (h.set (place pre) (h.mem (place pre) +
    (32 + h.mem (place pre + (32 + s))))).mem (place pre + (32 + s) + 16) = next
  rw [mem_set, update_of_ne (by omega), hNext] at hAfter
  have hCase : next = 0 ∨ next = place pre + (32 + s + (32 + s')) := by
    rw [← hAfter]
    split
    · exact .inl rfl
    · exact .inr (by omega)
  have hJoin : h.join (place pre) (place pre + (32 + s)) =
      ((h.set (place pre) (s + (32 + s'))).set (place pre + 16) next).linkBack next (place pre) := by
    simp only [Heap.join, mem_set, hSize, hSize']
    rw [update_of_ne (by omega), hNext, hAfter]
  have hChanged : Changed h.mem (h.join (place pre) (place pre + (32 + s))).mem (place pre)
      (place pre + (32 + s + (32 + s'))) := by
    intro x hx hNe
    rw [hJoin, mem_linkBack_of_ne hCase (by omega)]
    simp (disch := omega) only [update_of_ne, mem_set]
  refine ⟨?_, hChanged⟩
  rw [hJoin] at hChanged ⊢
  refine hTiled.replace (cons_ne_nil _ _) (cons_ne_nil _ _) hSpan ?_ ?_ ?_ ?_
    fields_linkBack.1 fields_linkBack.2.1 fields_linkBack.2.2.1
  · rw [← hSpan]
    simp only [span_cons, span_nil, Nat.add_zero, ← Nat.add_assoc] at hChanged ⊢
    exact hChanged
  · refine ⟨?_, ?_, ?_, ?_, trivial⟩
    · rw [mem_linkBack_of_ne hCase (by omega)]
      simp (disch := omega) only [update_of_ne, update_self, mem_set]
    · rw [mem_linkBack_of_ne hCase (by omega)]
      simp (disch := omega) only [update_of_ne, mem_set, hPrev]
    · rw [mem_linkBack_of_ne hCase (by omega), ← hAfter, mem_set, update_self]
      simp only [span_cons, span_nil, Nat.add_zero, if_true, Nat.add_assoc]
    · rw [mem_linkBack_of_ne hCase (by omega)]
      simp (disch := omega) only [update_of_ne, mem_set, hTag]
  · intro hNe
    rw [if_neg hNe] at hAfter
    have hAt : place pre + span [⟨s, free⟩, ⟨s', free'⟩] + 8 = next + 8 := by
      simp only [span_cons, span_nil]
      omega
    rw [hAt]
    exact mem_linkBack (by omega)
  · rw [last_linkBack, ← hAfter]
    by_cases hNil : post = []
    · simp [hNil, lastAt]
    · simp only [if_neg hNil]
      rw [if_neg (by omega), last_set, last_set]

theorem addBlock_spec (block size : Nat) (hLast : h.last ≠ 0) :
    (h.addBlock block size).mem = update (update (update
      (update (update h.mem block size) (block + 8) h.last) (block + 16) 0)
        (block + 24) (tag kMagic true)) (h.last + 16) block ∧
      (h.addBlock block size).last = block ∧ (h.addBlock block size).first = h.first ∧
      (h.addBlock block size).brk = h.brk ∧ (h.addBlock block size).size = h.size ∧
      (h.addBlock block size).used = h.used := by
  have hEq : h.addBlock block size =
      { ((((h.set block size).set (block + 8) h.last).set (block + 16) 0).set (block + 24)
        (tag kMagic true)).set (h.last + 16) block with last := block } := by
    exact congrArg (fun g : Heap => { g with last := block }) (if_pos hLast)
  rw [hEq]
  exact ⟨rfl, rfl, rfl, rfl, rfl, rfl⟩

/-- A block is added at the end. -/
theorem Tiled.addBlock {added : Nat} (hTiled : h.Tiled (pre ++ [⟨s, free⟩])) (hAdded : 32 ≤ added)
    (hMore : h' = { h with brk := h.brk + added, size := h.size + added }) :
    (h'.addBlock h.brk (added - 32)).Tiled (pre ++ [⟨s, free⟩, ⟨added - 32, true⟩]) ∧
      ∀ x, x < h.brk → x ≠ place pre + 16 →
        (h'.addBlock h.brk (added - 32)).mem x = h.mem x := by
  have hTiled' : h.Tiled (pre ++ ([⟨s, free⟩] ++ [])) := hTiled
  obtain ⟨hSize, hPrev, -, hTag⟩ := hTiled'.header
  have hPos := place_pos pre
  have hBrk : place pre + (32 + s) = h.brk := by
    rw [← hTiled.tiles]
    exact (place_snoc pre s free).symm
  have hLast : h'.last = place pre := by
    rw [hMore]
    rw [hTiled.last, lastAt_append]
    rfl
  obtain ⟨hMem, hNewLast, hFirst, hNewBrk, hNewSize, -⟩ :=
    addBlock_spec (h := h') h.brk (added - 32) (by omega)
  have hOldMem : h'.mem = h.mem := by rw [hMore]
  rw [hOldMem, hLast] at hMem
  have hChanged : Changed h.mem (h'.addBlock h.brk (added - 32)).mem (place pre)
      (h.brk + added) := by
    intro x hx hNe
    rw [hMem]
    simp (disch := omega) only [update_of_ne]
  refine ⟨⟨by simp, ?_, ?_, ?_, ?_, ?_⟩, fun x hx hNe => ?_⟩
  · have hNew : Laid kMagic (h'.addBlock h.brk (added - 32)).mem 0 (lastAt 0 kHeapBase pre)
        (place pre) [⟨s, free⟩, ⟨added - 32, true⟩] := by
      have hAt : place pre + 32 + s = h.brk := by omega
      rw [hMem]
      simp only [Laid, hAt]
      simp (disch := omega) only [update_of_ne, update_self]
      simp [hSize, hPrev, hTag]
    have hLaid := hTiled'.laid.replace (cons_ne_nil _ _) (cons_ne_nil _ _)
      (show place pre ≤ h.brk + added by omega) (fun hNe => absurd rfl hNe) hChanged hNew
      (fun hNe => absurd rfl hNe)
    simpa using hLaid
  · rw [hFirst, hMore]
    exact hTiled.first
  · rw [hNewLast, lastAt_append]
    change h.brk = place pre + 32 + s
    omega
  · rw [hNewBrk, hMore]
    rw [← hTiled.tiles]
    simp only [span_append, span_cons, span_nil]
    omega
  · rw [hNewSize, hNewBrk, hMore]
    have hOld := hTiled.size
    have hGe : kHeapBase ≤ h.brk := by
      rw [← hTiled.tiles]
      exact Nat.le_add_right _ _
    change h.size + added = h.brk + added - kHeapBase
    omega
  · rw [hMem]
    simp (disch := omega) only [update_of_ne]

/-- `prev->next = nullptr` is what joining with a block at the end does. -/
theorem mergeTail_eq (block : Nat) (hEnd : h.mem (block + 16) = 0)
    (hFar : h.mem (block + 8) ≠ block + 16) :
    h.mergeTail block = h.mergePrev block := by
  unfold mergeTail mergePrev
  dsimp only
  split
  · have hNext : (h.set (h.mem (block + 8)) (h.mem (h.mem (block + 8)) + (32 + h.mem block))).mem
        (block + 16) = 0 := by
      rw [mem_set, update_of_ne hFar.symm, hEnd]
    unfold join
    simp only [hNext, linkBack, ne_eq, not_true, if_false]
  · rfl

/-- The block before joins with this one if it is free. -/
theorem Tiled.mergePrev (hTiled : h.Tiled ((pre ++ [⟨s, free⟩]) ++ ([⟨s', free'⟩] ++ post))) :
    h.mergePrev (place pre + (32 + s)) =
      if free then h.join (place pre) (place pre + (32 + s)) else h := by
  have hFirst : h.Tiled (pre ++ ([⟨s, free⟩] ++ (⟨s', free'⟩ :: post))) := by simpa using hTiled
  have hPrev := hTiled.header.2.1
  rw [place_snoc, lastAt_append] at hPrev
  have hPrev : h.mem (place pre + (32 + s) + 8) = place pre := hPrev
  have hPos := place_pos pre
  unfold Heap.mergePrev
  simp only [hPrev, hFirst.freeAt]
  cases free with
  | false => simp
  | true => simp [Nat.ne_of_gt hPos]

/-- The first block has none before it. -/
theorem Tiled.mergePrev_nil (hTiled : h.Tiled ([] ++ ([⟨s, free⟩] ++ post))) :
    h.mergePrev (place []) = h := by
  have hPrev : h.mem (place [] + 8) = 0 := hTiled.header.2.1
  unfold Heap.mergePrev
  simp [hPrev]

/-- The block after joins with this one if it is free. -/
theorem Tiled.mergeNext (hTiled : h.Tiled (pre ++ ([⟨s, free⟩] ++ (⟨s', free'⟩ :: post)))) :
    h.mergeNext (place pre) =
      if free' then h.join (place pre) (place pre + (32 + s)) else h := by
  have hSecond : h.Tiled ((pre ++ [⟨s, free⟩]) ++ ([⟨s', free'⟩] ++ post)) := by
    simpa using hTiled
  have hNext := hTiled.header.2.2.1
  rw [if_neg (cons_ne_nil _ _)] at hNext
  have hFree := hSecond.freeAt
  rw [place_snoc] at hFree
  have hPos := place_pos pre
  unfold Heap.mergeNext
  simp only [hNext, hFree]
  cases free' with
  | false => simp
  | true => simp [Nat.ne_of_gt hPos]

theorem Tiled.mergeNext_nil (hTiled : h.Tiled (pre ++ ([⟨s, free⟩] ++ []))) :
    h.mergeNext (place pre) = h := by
  have hNext := hTiled.header.2.2.1
  unfold Heap.mergeNext
  simp [hNext]

end Heap
end LeahOS.Mm
