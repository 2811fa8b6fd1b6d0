import LeahOS.Lib.Bytes
import LeahOS.Lib.Run
import LeahOS.Vfsd.Journal

/-!
# The block cache (`cache_init`, `cache_put`, `cache_get`, `read_block`, `write_block`)

A block is answered from three places: the open batch, a direct-mapped cache all mounts share,
and the disk. Here they have the shape the source gives them. The cache is one run of bytes and
the place of a slot in it is the slot number times the block size of the *current* filesystem;
the batch is an array of targets and buffers, and a target is a block number alone. Every
transfer succeeds.

The ghost field `last` says what the last `write_block` of a block on a filesystem carried, or
what its disk held if there was none. `read_block` ought to return that. It does not when two
block sizes share the cache, since slots of different sizes overlap, nor when `g_cur` moves while
blocks are collected. `coherent_of_tame` is for runs in which neither happens.
-/

namespace LeahOS.Vfsd
open Lib Function List

/-- `memcpy(dst, src, n)`. -/
def copyN (n : Nat) (src dst : Block) : Block := fun k => if k < n then src k else dst k

def blkSector : Nat := 512

/-- The globals of the block layer and the disks, which are bytes by device and address.
`cacheUnit` and `last` are ghosts: the block size `cache_init` went by, and the contents every
block ought to have. -/
structure Layer where
  fs : Nat → Fs
  cur : Nat
  txnOpen : Bool
  bypass : Bool
  txnCount : Nat
  txnTarget : Nat → Nat
  txnBuf : Nat → Block
  jbuf : Block
  jdata : Block
  slots : Nat
  cache : Nat → UInt8
  cacheBlock : Nat → Nat
  cacheDev : Nat → Nat
  cacheFull : Nat → Bool
  disk : Nat → Nat → UInt8
  cacheUnit : Nat
  last : Nat → Nat → Block

/-- Where the bytes of a `write_block` come from: a buffer of the caller, or the one `jrnl_walk`
passes, which a flush on the way fills anew. -/
inductive Source
  | own (data : Block)
  | jdata

/-- What the server asks of the block layer. -/
inductive LayerEvent
  | cacheInit (usable : Option Nat) (heap : Bool)
  | setCur (i : Nat)
  | txnBegin
  | txnEnd
  | txnFlush
  | read (bypass : Bool) (block : Nat)
  | write (bypass : Bool) (block : Nat) (source : Source)

namespace Layer

/-- The filesystem `g_cur` points at. -/
def g (s : Layer) : Fs := s.fs s.cur

/-- `g_block_size`. -/
def bs (s : Layer) : Nat := s.g.blockSize

/-- `cache_init`, with what `mem_info` says and whether `malloc` finds the memory. -/
def cacheInit (s : Layer) (usable : Option Nat) (heap : Bool) : Layer :=
  if s.slots ≠ 0 ∨ s.bs = 0 then s
  else
    let bytes := min (max ((usable.map (· / 16)).getD (2 ^ 20)) (2 ^ 20)) (24 * 2 ^ 20)
    if bytes / s.bs = 0 ∨ !heap then s
    else { s with slots := bytes / s.bs, cacheFull := fun _ => false, cacheUnit := s.bs }

def cacheSlot (s : Layer) (block dev : Nat) : Nat := (block ^^^ (dev <<< 9)) % s.slots

def cachePut (s : Layer) (block dev : Nat) (data : Block) : Layer :=
  if s.slots = 0 then s
  else
    let i := s.cacheSlot block dev
    { s with
      cache := fun a => if i * s.bs ≤ a ∧ a < i * s.bs + s.bs then data (a - i * s.bs) else s.cache a
      cacheBlock := update s.cacheBlock i block
      cacheDev := update s.cacheDev i dev
      cacheFull := update s.cacheFull i true }

def cacheGet (s : Layer) (block dev : Nat) (out : Block) : Option Block :=
  let i := s.cacheSlot block dev
  if s.slots = 0 ∨ !s.cacheFull i ∨ s.cacheBlock i ≠ block ∨ s.cacheDev i ≠ dev then none
  else some (copyN s.bs (fun k => s.cache (i * s.bs + k)) out)

/-- The place of a block in the batch. -/
def txnFind (s : Layer) (block : Nat) : Option Nat :=
  (List.range s.txnCount).find? fun i => s.txnTarget i == block

def txnPeek (s : Layer) (block : Nat) (out : Block) : Option Block :=
  if !s.txnOpen || s.bypass then none
  else (s.txnFind block).map fun i => copyN s.bs (s.txnBuf i) out

/-- The address of the first sector of a block, in bytes. -/
def byteOf (s : Layer) (block : Nat) : Nat := block * (s.bs / blkSector) * blkSector

/-- `read_block`: the new state and what is in the buffer. -/
def readBlock (s : Layer) (block : Nat) (out : Block) : Layer × Block :=
  match s.txnPeek block out with
  | some b => (s, b)
  | none =>
    match s.cacheGet block s.g.dev out with
    | some b => (s, b)
    | none =>
      let b := copyN s.bs (fun k => s.disk s.g.dev (s.byteOf block + k)) out
      (s.cachePut block s.g.dev b, b)

/-- The ghost of a `write_block`. -/
def remember (s : Layer) (block : Nat) (data : Block) : Layer :=
  { s with last := update s.last s.cur (update (s.last s.cur) block data) }

/-- The part of `write_block` that goes to the disk. -/
def putBlock (s : Layer) (block : Nat) (data : Block) : Layer :=
  let s' := s.cachePut block s.g.dev data
  let at0 := s.byteOf block
  remember { s' with
    disk := update s.disk s.g.dev fun a =>
      if at0 ≤ a ∧ a < at0 + s.bs then data (a - at0) else s.disk s.g.dev a } block data

/-- Run the rest of a function unless the call before it failed. -/
def andThen (r : Layer × Bool) (rest : Layer → Layer × Bool) : Layer × Bool :=
  if r.2 then rest r.1 else r

/-- `jrnl_read` into `g_jbuf`. -/
def jrnlRead (s : Layer) (index : Nat) : Layer × Bool :=
  if s.g.journal index = 0 then (s, false)
  else
    let r := readBlock { s with bypass := true } (s.g.journal index) s.jbuf
    ({ r.1 with bypass := false, jbuf := r.2 }, true)

def jrnlWrite (s : Layer) (index : Nat) (data : Block) : Layer × Bool :=
  if s.g.journal index = 0 then (s, false)
  else (s.putBlock (s.g.journal index) data, true)

/-- The entries of the batch from `i` on, `n` of them, where they belong. -/
def writeHome : Layer → Nat → Nat → Layer
  | s, _, 0 => s
  | s, i, n + 1 => writeHome (s.putBlock (s.txnTarget i) (s.txnBuf i)) (i + 1) n

/-- The entries of the batch from `i` on, `n` of them, to the journal. -/
def writeCopies : Layer → Nat → Nat → Layer × Bool
  | s, _, 0 => (s, true)
  | s, i, n + 1 =>
    let b := escapeBlock (s.txnBuf i)
    andThen (jrnlWrite { s with jdata := b } (s.g.jrnlFirst + 1 + i) b) fun s =>
      writeCopies s (i + 1) n

/-- Read the journal superblock, stamp it and write it back. -/
def publishSuper (s : Layer) (seq start : Nat) : Layer × Bool :=
  andThen (s.jrnlRead 0) fun s =>
    if rd32be s.jbuf 0 ≠ jbd2Magic then (s, false)
    else
      let b := stampSuper s.jbuf seq start
      jrnlWrite { s with jbuf := b } 0 b

/-- The batch as a list, for the descriptor. -/
def entries (s : Layer) : List TxnEntry :=
  (List.range s.txnCount).map fun i => ⟨s.txnTarget i, s.txnBuf i, s.g.dev⟩

def txnFlush (s : Layer) : Layer × Bool :=
  if s.txnCount = 0 then (s, true)
  else if !s.g.hasJournal then ({ s.writeHome 0 s.txnCount with txnCount := 0 }, true)
  else if (s.g.jrnlMaxlen + 2 ^ 32 - s.g.jrnlFirst) % 2 ^ 32 < s.txnCount + 2 then (s, false)
  else
    let seq := s.g.jrnlSeq
    let first := s.g.jrnlFirst
    let desc := descriptorBlock seq s.entries
    let commit := commitBlock seq
    andThen (jrnlWrite { s with jbuf := desc } first desc) fun s =>
    andThen (s.writeCopies 0 s.txnCount) fun s =>
    andThen (jrnlWrite { s with jbuf := commit } (first + 1 + s.txnCount) commit) fun s =>
    andThen (s.publishSuper seq first) fun s =>
      let s := s.writeHome 0 s.txnCount
      let s := { s with fs := update s.fs s.cur { s.g with jrnlSeq := (seq + 1) % 2 ^ 32 } }
      -- The last write of the superblock is not checked.
      ({ (s.publishSuper ((seq + 1) % 2 ^ 32) 0).1 with txnCount := 0 }, true)

/-- The bytes a `write_block` finds in its buffer. -/
def fetch (s : Layer) : Source → Block
  | .own data => data
  | .jdata => s.jdata

/-- One more block in the batch. -/
def collect (s : Layer) (block : Nat) (data : Block) : Layer :=
  { s with
    txnTarget := update s.txnTarget s.txnCount block
    txnBuf := update s.txnBuf s.txnCount (copyN s.bs data (s.txnBuf s.txnCount))
    txnCount := s.txnCount + 1 }

def writeBlock (s : Layer) (block : Nat) (source : Source) : Layer × Bool :=
  let data := s.fetch source
  if s.txnOpen && !s.bypass then
    match s.txnFind block with
    | some i =>
      (remember { s with txnBuf := update s.txnBuf i (copyN s.bs data (s.txnBuf i)) }
        block data, true)
    | none =>
      -- A batch that will not fit is split; the buffer is looked at again afterwards.
      andThen (if s.txnCount = txnMax then s.txnFlush else (s, true)) fun s =>
        ((s.collect block (s.fetch source)).remember block data, true)
  else (s.putBlock block data, true)

def next (s : Layer) : LayerEvent → Layer
  | .cacheInit usable heap => s.cacheInit usable heap
  | .setCur i => if (s.fs i).used then { s with cur := i } else s
  | .txnBegin => if s.txnOpen then s else { s with txnCount := 0, txnOpen := true }
  | .txnEnd => if s.txnOpen then { s.txnFlush.1 with txnOpen := false } else s
  | .txnFlush => s.txnFlush.1
  | .read b block => { (readBlock { s with bypass := b } block zeroBlock).1 with bypass := false }
  | .write b block source =>
    { (writeBlock { s with bypass := b } block source).1 with bypass := false }

/-- The steps of the block layer. -/
def Step (s : Layer) (e : LayerEvent) (s' : Layer) : Prop := s' = s.next e

/-- Mounts on disks of their own, with block sizes the superblock can ask for, a batch and a
cache that are empty, and nothing written yet. -/
structure Boot (s : Layer) : Prop where
  current : s.g.used = true
  apart : ∀ {i j}, (s.fs i).used = true → (s.fs j).used = true → (s.fs i).dev = (s.fs j).dev → i = j
  sizes : ∀ i, (s.fs i).used = true → (s.fs i).blockSize ∈ [1024, 2048, 4096, 8192]
  closed : s.txnOpen = false ∧ s.bypass = false ∧ s.txnCount = 0
  noCache : s.slots = 0
  unwritten : ∀ i, (s.fs i).used = true → ∀ b k,
    s.last i b k = s.disk (s.fs i).dev (b * (s.fs i).blockSize + k)

/-- A `read_block` now, bypassing the batch or not, returns what the last `write_block` of the
block carried. -/
def Reads (s : Layer) (b : Bool) (block : Nat) : Prop :=
  ∀ out k, k < s.bs → (readBlock { s with bypass := b } block out).2 k = s.last s.cur block k

/-- The batch holds the block. -/
def Held (s : Layer) (block : Nat) : Prop := ∃ i, i < s.txnCount ∧ s.txnTarget i = block

/-- The current filesystem has the block size the cache is laid out for, or there is no cache. -/
def Fits (s : Layer) : Prop := s.slots = 0 ∨ s.bs = s.cacheUnit

end Layer

/-- One block size in the cache; `g_cur` moves and a batch is begun only with nothing collected;
what goes past the batch is not in the batch; and the journal's blocks and its scratch buffer
stay out of a batch that may be flushed. -/
def Tame (s : Layer) : LayerEvent → Prop
  | .cacheInit .. => True
  | .setCur i => s.txnCount = 0 ∨ i = s.cur
  | .txnBegin => s.txnOpen = true ∨ s.txnCount = 0
  | .txnEnd | .txnFlush => s.Fits
  | .read b block => s.Fits ∧ (b = true ∨ s.txnOpen = false → ¬ s.Held block)
  | .write b block source =>
    s.Fits ∧ (b = true ∨ s.txnOpen = false → ¬ s.Held block) ∧
      (b = false → (∀ n, s.g.journal n = block → block = 0) ∧
        (s.txnCount = txnMax → ∃ data, source = .own data))

namespace Layer

/-! ## Bytes and blocks -/

variable {s s' s₀ : Layer} {block n : Nat}

/-- Admissible block sizes are whole sectors. -/
theorem byteOf_eq (hSize : s.bs ∈ [1024, 2048, 4096, 8192]) (block : Nat) :
    s.byteOf block = block * s.bs := by
  unfold byteOf blkSector
  rw [Nat.mul_assoc]
  congr 1
  simp only [mem_cons, not_mem_nil, or_false] at hSize
  rcases hSize with hSize | hSize | hSize | hSize <;> rw [hSize]

theorem copyN_lt {k : Nat} (hk : k < n) (src dst : Block) : copyN n src dst k = src k :=
  if_pos hk

/-! ## The invariant -/

/-- A slot in use holds the bytes the disk has. -/
def CacheOk (s : Layer) : Prop :=
  s.slots ≠ 0 → ∀ i, s.cacheFull i = true → s.cacheSlot (s.cacheBlock i) (s.cacheDev i) = i ∧
      ∀ k, k < s.cacheUnit →
        s.cache (i * s.cacheUnit + k) = s.disk (s.cacheDev i) (s.cacheBlock i * s.cacheUnit + k)

/-- What every tame step keeps: the disk has every block the batch does not hold, and the batch
has the others. -/
structure Inv (s : Layer) : Prop where
  current : s.g.used = true
  apart : ∀ {i j}, (s.fs i).used = true → (s.fs j).used = true → (s.fs i).dev = (s.fs j).dev → i = j
  sizes : ∀ i, (s.fs i).used = true → (s.fs i).blockSize ∈ [1024, 2048, 4096, 8192]
  cached : s.CacheOk
  clean : ∀ i, (s.fs i).used = true → ∀ b, (i = s.cur → ¬ s.Held b) → ∀ k, k < (s.fs i).blockSize →
    s.disk (s.fs i).dev (b * (s.fs i).blockSize + k) = s.last i b k
  batch : ∀ i, i < s.txnCount → ∀ k, k < s.bs → s.txnBuf i k = s.last s.cur (s.txnTarget i) k
  distinct : ∀ {i j}, i < s.txnCount → j < s.txnCount → s.txnTarget i = s.txnTarget j → i = j
  outside : ∀ i, i < s.txnCount → ∀ n, s.g.journal n = s.txnTarget i → s.txnTarget i = 0

theorem Boot.inv (h : s.Boot) : s.Inv where
  current := h.current
  apart := h.apart
  sizes := h.sizes
  cached hSlots := absurd h.noCache hSlots
  clean i hi b _ k _ := (h.unwritten i hi b k).symm
  batch i hi := by
    rw [h.closed.2.2] at hi
    exact absurd hi (Nat.not_lt_zero i)
  distinct hi := by
    rw [h.closed.2.2] at hi
    exact absurd hi (Nat.not_lt_zero _)
  outside i hi := by
    rw [h.closed.2.2] at hi
    exact absurd hi (Nat.not_lt_zero i)

/-- The scratch buffers and the bypass flag say nothing about the contents of blocks. -/
theorem Inv.scratch (hInv : s.Inv) (b : Bool) (jbuf jdata : Block) :
    ({ s with bypass := b, jbuf := jbuf, jdata := jdata } : Layer).Inv :=
  { hInv with }

/-- A slot is filled with what the disk has, or is about to have, for its block. -/
theorem CacheOk.put (hOk : s.CacheOk) (hFits : s.Fits) (block dev : Nat) (data : Block)
    {disk : Nat → Nat → UInt8} (hNew : ∀ k, k < s.bs → disk dev (block * s.bs + k) = data k)
    (hOld : ∀ d b k, (d ≠ dev ∨ b ≠ block) → k < s.bs →
      disk d (b * s.bs + k) = s.disk d (b * s.bs + k)) :
    CacheOk { s.cachePut block dev data with disk := disk } := by
  unfold cachePut
  split
  next hNone => exact fun hSlots => absurd hNone hSlots
  next hSome =>
    have hUnit : s.cacheUnit = s.bs := (hFits.resolve_left hSome).symm
    intro _ i hFull
    simp only [hUnit] at hFull ⊢
    by_cases hEq : i = s.cacheSlot block dev
    · subst hEq
      simp only [update_self]
      refine ⟨rfl, fun k hk => ?_⟩
      rw [if_pos ⟨Nat.le_add_right _ _, Nat.add_lt_add_left hk _⟩, Nat.add_sub_cancel_left]
      exact (hNew k hk).symm
    · simp only [update_of_ne hEq] at hFull ⊢
      obtain ⟨hSlot, hBytes⟩ := hOk hSome i hFull
      refine ⟨hSlot, fun k hk => ?_⟩
      rw [if_neg fun hIn => hEq (record_of_byte hk hIn.1 hIn.2)]
      have hKey : s.cacheDev i ≠ dev ∨ s.cacheBlock i ≠ block := by
        rw [← not_and_or]
        rintro ⟨hDev, hBlock⟩
        rw [hDev, hBlock] at hSlot
        exact hEq hSlot.symm
      rw [hOld _ _ k hKey hk]
      rw [hUnit] at hBytes
      exact hBytes k hk

/-- The disk after `putBlock`, under the current filesystem and under the others. -/
theorem putBlock_disk (hSize : s.bs ∈ [1024, 2048, 4096, 8192]) (block : Nat) (data : Block) :
    (∀ k, k < s.bs → (s.putBlock block data).disk s.g.dev (block * s.bs + k) = data k) ∧
    (∀ b k, b ≠ block → k < s.bs →
      (s.putBlock block data).disk s.g.dev (b * s.bs + k) = s.disk s.g.dev (b * s.bs + k)) ∧
    ∀ d, d ≠ s.g.dev → (s.putBlock block data).disk d = s.disk d := by
  simp only [putBlock, remember, byteOf_eq hSize, update_self]
  refine ⟨fun k hk => ?_, fun b k hNe hk => ?_, fun d hNe => update_of_ne hNe _ _⟩
  · rw [if_pos ⟨Nat.le_add_right _ _, Nat.add_lt_add_left hk _⟩, Nat.add_sub_cancel_left]
  · rw [if_neg fun hIn => hNe (record_of_byte hk hIn.1 hIn.2)]

/-- `cache_put` changes the cache alone. -/
theorem cachePut_eq (s : Layer) (block dev : Nat) (data : Block) :
    ∃ c cb cd cf, s.cachePut block dev data =
      { s with cache := c, cacheBlock := cb, cacheDev := cd, cacheFull := cf } := by
  unfold cachePut
  split
  · exact ⟨_, _, _, _, rfl⟩
  · exact ⟨_, _, _, _, rfl⟩

/-- What the inside of a flush leaves alone. -/
structure Kept (s s' : Layer) : Prop where
  cur : s'.cur = s.cur
  txnOpen : s'.txnOpen = s.txnOpen
  txnCount : s'.txnCount = s.txnCount
  txnTarget : s'.txnTarget = s.txnTarget
  txnBuf : s'.txnBuf = s.txnBuf
  slots : s'.slots = s.slots
  cacheUnit : s'.cacheUnit = s.cacheUnit
  dev : ∀ i, (s'.fs i).dev = (s.fs i).dev
  blockSize : ∀ i, (s'.fs i).blockSize = (s.fs i).blockSize
  journal : ∀ i, (s'.fs i).journal = (s.fs i).journal

theorem Kept.refl (s : Layer) : Kept s s :=
  ⟨rfl, rfl, rfl, rfl, rfl, rfl, rfl, fun _ => rfl, fun _ => rfl, fun _ => rfl⟩

theorem Kept.trans {t u : Layer} (h : Kept s t) (h' : Kept t u) : Kept s u where
  cur := h'.cur.trans h.cur
  txnOpen := h'.txnOpen.trans h.txnOpen
  txnCount := h'.txnCount.trans h.txnCount
  txnTarget := h'.txnTarget.trans h.txnTarget
  txnBuf := h'.txnBuf.trans h.txnBuf
  slots := h'.slots.trans h.slots
  cacheUnit := h'.cacheUnit.trans h.cacheUnit
  dev i := (h'.dev i).trans (h.dev i)
  blockSize i := (h'.blockSize i).trans (h.blockSize i)
  journal i := (h'.journal i).trans (h.journal i)

theorem Kept.bs (h : Kept s s') : s'.bs = s.bs := by
  unfold Layer.bs g
  rw [h.cur, h.blockSize]

theorem Kept.fits (h : Kept s s') (hFits : s.Fits) : s'.Fits := by
  unfold Fits
  rw [h.slots, h.bs, h.cacheUnit]
  exact hFits

theorem kept_cachePut (s : Layer) (block dev : Nat) (data : Block) :
    Kept s (s.cachePut block dev data) := by
  obtain ⟨c, cb, cd, cf, hEq⟩ := s.cachePut_eq block dev data
  rw [hEq]
  exact ⟨rfl, rfl, rfl, rfl, rfl, rfl, rfl, fun _ => rfl, fun _ => rfl, fun _ => rfl⟩

theorem kept_putBlock (s : Layer) (block : Nat) (data : Block) :
    Kept s (s.putBlock block data) := by
  have hKept := s.kept_cachePut block s.g.dev data
  exact { hKept with }

theorem putBlock_last (s : Layer) (block : Nat) (data : Block) :
    (s.putBlock block data).last =
      update s.last s.cur (update (s.last s.cur) block data) := by
  obtain ⟨c, cb, cd, cf, hEq⟩ := s.cachePut_eq block s.g.dev data
  simp only [putBlock, remember, hEq]

/-- `read_block` changes the cache alone. -/
theorem readBlock_eq (s : Layer) (block : Nat) (out : Block) :
    ∃ c cb cd cf, (s.readBlock block out).1 =
      { s with cache := c, cacheBlock := cb, cacheDev := cd, cacheFull := cf } := by
  unfold readBlock
  split
  · exact ⟨_, _, _, _, rfl⟩
  · split
    · exact ⟨_, _, _, _, rfl⟩
    · exact s.cachePut_eq _ _ _

/-- Reading a block from the disk into the cache. -/
theorem Inv.cachePut (hInv : s.Inv) (hFits : s.Fits) (block : Nat) {data : Block}
    (hData : ∀ k, k < s.bs → s.disk s.g.dev (block * s.bs + k) = data k) :
    (s.cachePut block s.g.dev data).Inv := by
  have hCached := hInv.cached.put hFits block s.g.dev data hData (fun _ _ _ _ _ => rfl)
  obtain ⟨c, cb, cd, cf, hEq⟩ := s.cachePut_eq block s.g.dev data
  rw [hEq] at hCached ⊢
  exact { hInv with cached := hCached }

/-- Writing a block through: the batch must not have another version of it. -/
theorem Inv.putBlock (hInv : s.Inv) (hFits : s.Fits) (block : Nat) (data : Block)
    (hHeld : ∀ i, i < s.txnCount → s.txnTarget i = block → ∀ k, k < s.bs → s.txnBuf i k = data k) :
    (s.putBlock block data).Inv := by
  have hSize : s.bs ∈ [1024, 2048, 4096, 8192] := hInv.sizes s.cur hInv.current
  obtain ⟨hSelf, hOther, hDev⟩ := putBlock_disk hSize block data
  have hOld : ∀ d b k, (d ≠ s.g.dev ∨ b ≠ block) → k < s.bs →
      (s.putBlock block data).disk d (b * s.bs + k) = s.disk d (b * s.bs + k) := by
    intro d b k hKey hk
    by_cases hEq : d = s.g.dev
    · subst hEq
      exact hOther b k (hKey.resolve_left (fun h => h rfl)) hk
    · rw [hDev d hEq]
  have hCached := hInv.cached.put hFits block s.g.dev data hSelf hOld
  obtain ⟨c, cb, cd, cf, hEq⟩ := s.cachePut_eq block s.g.dev data
  simp only [Layer.putBlock, remember, hEq] at hSelf hOther hDev hCached ⊢
  refine ⟨hInv.current, hInv.apart, hInv.sizes, hCached, fun i hUsed b hNot k hk => ?_,
    fun i hi k hk => ?_, hInv.distinct, hInv.outside⟩
  · by_cases hCur : i = s.cur
    · subst hCur
      simp only [update_self]
      by_cases hBlock : b = block
      · subst hBlock
        rw [update_self]
        exact hSelf k hk
      · rw [update_of_ne hBlock]
        exact (hOther b k hBlock hk).trans (hInv.clean s.cur hUsed b hNot k hk)
    · simp only [update_of_ne hCur]
      have hNe : (s.fs i).dev ≠ s.g.dev := fun hSame =>
        hCur (hInv.apart hUsed hInv.current hSame)
      rw [hDev _ hNe]
      exact hInv.clean i hUsed b (fun hSame => absurd hSame hCur) k hk
  · simp only [update_self]
    by_cases hBlock : s.txnTarget i = block
    · rw [hBlock, update_self]
      exact hHeld i hi hBlock k hk
    · rw [update_of_ne hBlock]
      exact hInv.batch i hi k hk

theorem txnFind_some {i : Nat} (hFind : s.txnFind block = some i) :
    i < s.txnCount ∧ s.txnTarget i = block := by
  have hMem := mem_of_find?_eq_some hFind
  have hAt := List.find?_some hFind
  exact ⟨mem_range.mp hMem, by simpa using hAt⟩

theorem txnFind_none (hFind : s.txnFind block = none) :
    ¬ s.Held block := by
  rintro ⟨i, hi, hAt⟩
  have hNone := List.find?_eq_none.mp hFind i (mem_range.mpr hi)
  simp [hAt] at hNone

/-- A hit in the cache has the bytes of the disk. -/
theorem Inv.cacheGet (hInv : s.Inv) (hFits : s.Fits) {out b : Block}
    (hGet : s.cacheGet block s.g.dev out = some b) :
    ∀ k, k < s.bs → b k = s.disk s.g.dev (block * s.bs + k) := by
  unfold Layer.cacheGet at hGet
  simp only at hGet
  split at hGet
  next => cases hGet
  next hHit =>
    push Not at hHit
    obtain ⟨hSlots, hFull, hBlock, hDev⟩ := hHit
    obtain rfl := Option.some.inj hGet
    have hUnit : s.cacheUnit = s.bs := (hFits.resolve_left hSlots).symm
    have hBytes := (hInv.cached hSlots _ (by simpa using hFull)).2
    rw [hUnit, hBlock, hDev] at hBytes
    intro k hk
    rw [copyN_lt hk]
    exact hBytes k hk

/-- The server without the cache, with the disks cut into blocks of the current size. -/
def toServer (s : Layer) : Server where
  fs := s.fs
  cur := s.cur
  txnOpen := s.txnOpen && !s.bypass
  txn := s.entries
  jbuf := s.jbuf
  jdata := s.jdata
  disk := fun dev b k => s.disk dev (b * s.bs + k)
  bad := fun _ _ => false
  log := []

theorem txnPeek_toServer (s : Layer) (block : Nat) (out : Block) :
    s.txnPeek block out = (Vfsd.txnPeek s.toServer block).map fun b => copyN s.bs b out := by
  unfold txnPeek Vfsd.txnPeek toServer txnFind entries
  cases s.txnOpen <;> cases s.bypass <;> simp [find?_map, comp_def]

/-- **Where the slots of the cache have the current block size, it does not show**: a block is read
as if there were only the batch and the disk. -/
theorem readBlock_toServer (hInv : s.Inv) (hFits : s.Fits) (block : Nat) (out : Block) :
    ∃ b, Vfsd.readBlock s.toServer block = some b ∧
      ∀ k, k < s.bs → (s.readBlock block out).2 k = b k := by
  unfold Layer.readBlock Vfsd.readBlock
  rw [txnPeek_toServer]
  cases Vfsd.txnPeek s.toServer block with
  | some b => exact ⟨b, rfl, fun k hk => copyN_lt hk _ _⟩
  | none =>
    refine ⟨_, rfl, fun k hk => ?_⟩
    simp only [Option.map_none]
    split
    next hGet => exact hInv.cacheGet hFits hGet k hk
    next =>
      simp only [copyN_lt hk, byteOf_eq (hInv.sizes s.cur hInv.current)]
      rfl

/-- `read_block` keeps the invariant, and where it looks in the right place it returns what was
written last. -/
theorem Inv.readBlock (hInv : s.Inv) (hFits : s.Fits) (block : Nat) (out : Block) :
    (s.readBlock block out).1.Inv ∧ ((s.txnOpen = false ∨ s.bypass = true → ¬ s.Held block) →
        ∀ k, k < s.bs → (s.readBlock block out).2 k = s.last s.cur block k) := by
  have hSize : s.bs ∈ [1024, 2048, 4096, 8192] := hInv.sizes s.cur hInv.current
  unfold Layer.readBlock
  split
  next b hPeek =>
    refine ⟨hInv, fun _ k hk => ?_⟩
    unfold txnPeek at hPeek
    split at hPeek
    · cases hPeek
    · obtain ⟨i, hFind, rfl⟩ := Option.map_eq_some_iff.mp hPeek
      obtain ⟨hi, hAt⟩ := txnFind_some hFind
      change copyN s.bs (s.txnBuf i) out k = _
      rw [copyN_lt hk, hInv.batch i hi k hk, hAt]
  next hPeek =>
    -- Past the batch the block is where the disk has it.
    have hClean : (s.txnOpen = false ∨ s.bypass = true → ¬ s.Held block) →
        ∀ k, k < s.bs → s.disk s.g.dev (block * s.bs + k) = s.last s.cur block k := by
      intro hNot
      refine hInv.clean s.cur hInv.current block fun _ => ?_
      unfold txnPeek at hPeek
      split at hPeek
      next hPast => exact hNot (by simpa using hPast)
      next => exact txnFind_none (Option.map_eq_none_iff.mp hPeek)
    split
    next b hGet =>
      exact ⟨hInv, fun hNot k hk => (hInv.cacheGet hFits hGet k hk).trans (hClean hNot k hk)⟩
    next =>
      simp only [byteOf_eq hSize]
      refine ⟨hInv.cachePut hFits block fun k hk => ?_, fun hNot k hk => ?_⟩
      · rw [copyN_lt hk]
      · rw [copyN_lt hk]
        exact hClean hNot k hk

/-! ## The flush -/

/-- The disk has the last version of the block. -/
def Home (s : Layer) (b : Nat) : Prop :=
  ∀ k, k < s.bs → s.disk s.g.dev (b * s.bs + k) = s.last s.cur b k

/-- A block written through is home, and so is what was home before. -/
theorem home_putBlock (hSize : s.bs ∈ [1024, 2048, 4096, 8192]) (block : Nat) (data : Block)
    (b : Nat) (hHome : b ≠ block → s.Home b) : (s.putBlock block data).Home b := by
  obtain ⟨hSelf, hOther, -⟩ := putBlock_disk hSize block data
  have hKept := s.kept_putBlock block data
  have hDev : (s.putBlock block data).g.dev = s.g.dev := by
    unfold g
    rw [hKept.cur, hKept.dev]
  intro k hk
  rw [hKept.bs] at hk ⊢
  rw [hDev, hKept.cur]
  by_cases hEq : b = block
  · subst hEq
    rw [hSelf k hk, putBlock_last, update_self, update_self]
  · rw [hOther b k hEq hk, hHome hEq k hk, putBlock_last, update_self, update_of_ne hEq]

/-- In the course of a flush of `s₀`, with the first `n` collected blocks home. -/
structure Flushing (s₀ : Layer) (n : Nat) (s : Layer) : Prop where
  inv : s.Inv
  kept : Kept s₀ s
  home : ∀ i, i < n → s.Home (s.txnTarget i)

theorem Flushing.scratch (h : Flushing s₀ n s) (b : Bool) (jbuf jdata : Block) :
    Flushing s₀ n { s with bypass := b, jbuf := jbuf, jdata := jdata } :=
  ⟨h.inv.scratch b jbuf jdata, { h.kept with }, h.home⟩

theorem Flushing.putBlock (h : Flushing s₀ n s) (hFits : s₀.Fits) (block : Nat) (data : Block)
    (hHeld : ∀ i, i < s.txnCount → s.txnTarget i = block → ∀ k, k < s.bs → s.txnBuf i k = data k) :
    Flushing s₀ n (s.putBlock block data) where
  inv := h.inv.putBlock (h.kept.fits hFits) block data hHeld
  kept := h.kept.trans (s.kept_putBlock block data)
  home i hi := by
    rw [(s.kept_putBlock block data).txnTarget]
    exact home_putBlock (h.inv.sizes s.cur h.inv.current) block data _ fun _ => h.home i hi

/-- The next collected block goes home. -/
theorem Flushing.homeNext (h : Flushing s₀ n s) (hFits : s₀.Fits) (hn : n < s.txnCount) :
    Flushing s₀ (n + 1) (s.putBlock (s.txnTarget n) (s.txnBuf n)) := by
  have hPut := h.putBlock hFits (s.txnTarget n) (s.txnBuf n) fun i hi hSame k _ => by
    rw [h.inv.distinct hi hn hSame]
  refine ⟨hPut.inv, hPut.kept, fun i hi => ?_⟩
  rcases Nat.lt_succ_iff_lt_or_eq.mp hi with hLt | rfl
  · exact hPut.home i hLt
  · rw [(s.kept_putBlock _ _).txnTarget]
    exact home_putBlock (h.inv.sizes s.cur h.inv.current) _ _ _ fun hNe => absurd rfl hNe

theorem Flushing.writeHome (hFits : s₀.Fits) : ∀ (m : Nat) {n : Nat} {s : Layer},
    Flushing s₀ n s → n + m ≤ s.txnCount → Flushing s₀ (n + m) (s.writeHome n m)
  | 0, _, _, h, _ => h
  | m + 1, n, s, h, hLe => by
      have hNext := h.homeNext hFits (by omega)
      have hRest := Flushing.writeHome hFits m hNext (by
        rw [(s.kept_putBlock _ _).txnCount]
        omega)
      rw [Nat.add_right_comm] at hRest
      exact hRest

/-- The journal is not in the batch, so its blocks may be written past it. -/
theorem Flushing.jrnlWrite (h : Flushing s₀ n s) (hFits : s₀.Fits) (index : Nat) (data : Block) :
    Flushing s₀ n (s.jrnlWrite index data).1 := by
  unfold Layer.jrnlWrite
  split
  next => exact h
  next hPhys =>
    refine h.putBlock hFits _ data fun i hi hSame => absurd ?_ hPhys
    rw [← hSame]
    exact h.inv.outside i hi index hSame.symm

theorem Flushing.jrnlRead (h : Flushing s₀ n s) (hFits : s₀.Fits) (index : Nat) :
    Flushing s₀ n (s.jrnlRead index).1 := by
  unfold Layer.jrnlRead
  split
  next => exact h
  next =>
    have hIn := h.scratch true s.jbuf s.jdata
    have hRead := (hIn.inv.readBlock (hIn.kept.fits hFits) (s.g.journal index) s.jbuf).1
    obtain ⟨c, cb, cd, cf, hEq⟩ := readBlock_eq { s with bypass := true } (s.g.journal index) s.jbuf
    simp only [hEq] at hRead ⊢
    have hMid : Flushing s₀ n { s with
        bypass := true, cache := c, cacheBlock := cb, cacheDev := cd, cacheFull := cf } :=
      ⟨hRead, { h.kept with }, h.home⟩
    exact hMid.scratch false _ _

/-- What a flush comes to, whether it succeeds or not. -/
structure Flushed (s : Layer) (r : Layer × Bool) : Prop where
  inv : r.1.Inv
  cur : r.1.cur = s.cur
  blockSize : ∀ i, (r.1.fs i).blockSize = (s.fs i).blockSize
  journal : ∀ i, (r.1.fs i).journal = (s.fs i).journal
  empty : r.2 = true → r.1.txnCount = 0

theorem Flushing.flushed (h : Flushing s₀ n s) : Flushed s₀ (s, false) :=
  ⟨h.inv, h.kept.cur, h.kept.blockSize, h.kept.journal, fun hOk => (by cases hOk)⟩

/-- A flush goes on where the call before it succeeded. -/
theorem Flushing.andThen {r : Layer × Bool} {rest : Layer → Layer × Bool} (h : Flushing s₀ n r.1)
    (hRest : Flushing s₀ n r.1 → Flushed s₀ (rest r.1)) :
    Flushed s₀ (andThen r rest) := by
  unfold Layer.andThen
  split
  next => exact hRest h
  next hOk =>
    have hFalse : r.2 = false := by simpa using hOk
    have hStop := h.flushed
    rw [← hFalse] at hStop
    exact hStop

theorem Flushing.writeCopies (hFits : s₀.Fits) : ∀ (m : Nat) {n i : Nat} {s : Layer},
    Flushing s₀ n s → Flushing s₀ n (s.writeCopies i m).1
  | 0, _, _, _, h => h
  | m + 1, n, i, s, h => by
      have hCopy := (h.scratch s.bypass s.jbuf (escapeBlock (s.txnBuf i))).jrnlWrite hFits
        (s.g.jrnlFirst + 1 + i) (escapeBlock (s.txnBuf i))
      simp only [Layer.writeCopies]
      unfold Layer.andThen
      split
      · exact Flushing.writeCopies hFits m hCopy
      · exact hCopy

theorem Flushing.publishSuper (h : Flushing s₀ n s) (hFits : s₀.Fits) (seq start : Nat) :
    Flushing s₀ n (s.publishSuper seq start).1 := by
  have hRead := h.jrnlRead hFits 0
  unfold Layer.publishSuper Layer.andThen
  split
  next =>
    simp only
    split
    next => exact hRead
    next => exact (hRead.scratch _ _ _).jrnlWrite hFits 0 _
  next => exact hRead

/-- The sequence number says nothing about the contents of blocks. -/
theorem Flushing.setSeq (h : Flushing s₀ n s) (seq : Nat) :
    Flushing s₀ n { s with fs := update s.fs s.cur { s.g with jrnlSeq := seq } } := by
  have hFs : ∀ i, (update s.fs s.cur { s.g with jrnlSeq := seq } i).dev = (s.fs i).dev ∧
      (update s.fs s.cur { s.g with jrnlSeq := seq } i).blockSize = (s.fs i).blockSize ∧
      (update s.fs s.cur { s.g with jrnlSeq := seq } i).journal = (s.fs i).journal ∧
      (update s.fs s.cur { s.g with jrnlSeq := seq } i).used = (s.fs i).used := by
    intro i
    by_cases hEq : i = s.cur
    · subst hEq
      simp [g]
    · simp [update_of_ne hEq]
  generalize update s.fs s.cur { s.g with jrnlSeq := seq } = fs at hFs
  have hBs : bs { s with fs := fs } = s.bs := (hFs s.cur).2.1
  have hUsed : ∀ {i}, (fs i).used = true → (s.fs i).used = true := fun {i} hi => (hFs i).2.2.2 ▸ hi
  refine ⟨⟨(hFs s.cur).2.2.2.trans h.inv.current, fun {i j} hi hj hSame => ?_, fun i hi => ?_, ?_,
    fun i hi b hNot k hk => ?_, fun i hi k hk => ?_, h.inv.distinct, fun i hi n hAt => ?_⟩,
    { h.kept with
      dev := fun i => ?_
      blockSize := fun i => ?_
      journal := fun i => ?_ }, fun i hi k hk => ?_⟩
  · exact h.inv.apart (hUsed hi) (hUsed hj) ((hFs i).1.symm.trans (hSame.trans (hFs j).1))
  · exact (hFs i).2.1 ▸ h.inv.sizes i (hUsed hi)
  · exact h.inv.cached
  · simp only [(hFs i).1, (hFs i).2.1] at hk ⊢
    exact h.inv.clean i (hUsed hi) b hNot k hk
  · rw [hBs] at hk
    exact h.inv.batch i hi k hk
  · refine h.inv.outside i hi n ?_
    rw [← hAt]
    exact congrFun (hFs s.cur).2.2.1.symm n
  · exact (hFs i).1.trans (h.kept.dev i)
  · exact (hFs i).2.1.trans (h.kept.blockSize i)
  · exact (hFs i).2.2.1.trans (h.kept.journal i)
  · rw [hBs] at hk ⊢
    have hDev : (g { s with fs := fs }).dev = s.g.dev := (hFs s.cur).1
    rw [hDev]
    exact h.home i hi k hk

/-- With every collected block home, the batch may go. -/
theorem Flushing.finish (h : Flushing s₀ n s) (hAll : s.txnCount ≤ n) :
    Flushed s₀ ({ s with txnCount := 0 }, true) := by
  refine ⟨⟨h.inv.current, h.inv.apart, h.inv.sizes, h.inv.cached, fun i hUsed b _ k hk => ?_,
    fun i hi => absurd hi (Nat.not_lt_zero i), fun hi => absurd hi (Nat.not_lt_zero _),
    fun i hi => absurd hi (Nat.not_lt_zero i)⟩, h.kept.cur, h.kept.blockSize, h.kept.journal,
    fun _ => rfl⟩
  by_cases hHeld : i = s.cur ∧ s.Held b
  · obtain ⟨rfl, j, hj, rfl⟩ := hHeld
    exact h.home j (by omega) k hk
  · exact h.inv.clean i hUsed b (fun hCur hIn => hHeld ⟨hCur, hIn⟩) k hk

/-- A flush keeps the invariant, and when it succeeds nothing is collected any more. -/
theorem Inv.txnFlush (hInv : s.Inv) (hFits : s.Fits) : Flushed s s.txnFlush := by
  have hStart : Flushing s 0 s := ⟨hInv, Kept.refl s, fun i hi => absurd hi (Nat.not_lt_zero i)⟩
  unfold Layer.txnFlush
  split
  next hNone =>
    exact ⟨hInv, rfl, fun _ => rfl, fun _ => rfl, fun _ => hNone⟩
  next =>
  split
  next =>
    have hHome := hStart.writeHome hFits s.txnCount (by omega)
    exact hHome.finish (by rw [hHome.kept.txnCount]; omega)
  next =>
  split
  next => exact hStart.flushed
  next =>
    refine ((hStart.scratch s.bypass _ s.jdata).jrnlWrite hFits _ _).andThen fun hDesc => ?_
    refine (hDesc.writeCopies hFits _).andThen fun hCopies => ?_
    refine ((hCopies.scratch _ _ _).jrnlWrite hFits _ _).andThen fun hCommit => ?_
    refine (hCommit.publishSuper hFits _ _).andThen fun hSuper => ?_
    have hHome := hSuper.writeHome hFits _ (Nat.zero_add _).le
    have hLast := (hHome.setSeq ((s.g.jrnlSeq + 1) % 2 ^ 32)).publishSuper hFits
      ((s.g.jrnlSeq + 1) % 2 ^ 32) 0
    refine hLast.finish ?_
    rw [Nat.zero_add]
    exact (hLast.kept.txnCount.trans hSuper.kept.txnCount.symm).le

/-! ## Writing -/

/-- A block the batch holds gets a new version there. -/
theorem Inv.recollect (hInv : s.Inv) {i : Nat} (hi : i < s.txnCount) (data : Block) :
    (remember { s with txnBuf := update s.txnBuf i (copyN s.bs data (s.txnBuf i)) }
      (s.txnTarget i) data).Inv := by
  refine { hInv with clean := fun j hUsed b hNot k hk => ?_, batch := fun j hj k hk => ?_ }
  · have hOld := hInv.clean j hUsed b hNot k hk
    by_cases hCur : j = s.cur
    · have hNe : b ≠ s.txnTarget i := by
        rintro rfl
        exact hNot hCur ⟨i, hi, rfl⟩
      subst hCur
      simpa [remember, update_of_ne hNe] using hOld
    · simpa [remember, update_of_ne hCur] using hOld
  · have hk' : k < s.bs := hk
    by_cases hEq : j = i
    · subst hEq
      simp [remember, copyN_lt hk']
    · have hNe : s.txnTarget j ≠ s.txnTarget i := fun hSame => hEq (hInv.distinct hj hi hSame)
      simpa [remember, update_of_ne hEq, update_of_ne hNe] using
        hInv.batch j hj k hk'

/-- A block the batch does not hold is added to it. -/
theorem Inv.collect (hInv : s.Inv) (hNew : ¬ s.Held block)
    (hOut : ∀ n, s.g.journal n = block → block = 0) (data : Block) :
    ((s.collect block data).remember block data).Inv := by
  have hTarget : ∀ i, i < s.txnCount →
      update s.txnTarget s.txnCount block i = s.txnTarget i := fun i hi =>
    update_of_ne (Nat.ne_of_lt hi) _ _
  have hNe : ∀ i, i < s.txnCount → s.txnTarget i ≠ block := fun i hi hAt => hNew ⟨i, hi, hAt⟩
  refine ⟨hInv.current, hInv.apart, hInv.sizes, hInv.cached, fun j hUsed b hNot k hk => ?_,
    fun j hj k hk => ?_, fun {i j} hi hj hSame => ?_, fun j hj n hAt => ?_⟩
  · have hStill : j = s.cur → ¬ s.Held b := by
      rintro hCur ⟨i, hi, hAt⟩
      exact hNot hCur ⟨i, Nat.lt_succ_of_lt hi, (hTarget i hi).trans hAt⟩
    have hOld := hInv.clean j hUsed b hStill k hk
    by_cases hCur : j = s.cur
    · have hDiff : b ≠ block := by
        rintro rfl
        exact hNot hCur ⟨s.txnCount, Nat.lt_succ_self _, update_self _ _ _⟩
      subst hCur
      simpa [remember, Layer.collect, update_of_ne hDiff] using hOld
    · simpa [remember, Layer.collect, update_of_ne hCur] using hOld
  · have hk' : k < s.bs := hk
    rcases Nat.lt_succ_iff_lt_or_eq.mp hj with hLt | rfl
    · simpa [remember, Layer.collect, update_of_ne (Nat.ne_of_lt hLt),
        update_of_ne (hNe j hLt)] using hInv.batch j hLt k hk'
    · simp [remember, Layer.collect, copyN_lt hk']
  · simp only [remember, Layer.collect] at hi hj hSame
    rcases Nat.lt_succ_iff_lt_or_eq.mp hi with hLt | rfl <;>
      rcases Nat.lt_succ_iff_lt_or_eq.mp hj with hLt' | rfl
    · rw [hTarget i hLt, hTarget j hLt'] at hSame
      exact hInv.distinct hLt hLt' hSame
    · rw [hTarget i hLt, update_self] at hSame
      exact absurd hSame (hNe i hLt)
    · rw [hTarget j hLt', update_self] at hSame
      exact absurd hSame.symm (hNe j hLt')
    · rfl
  · simp only [remember, Layer.collect] at hAt ⊢
    rcases Nat.lt_succ_iff_lt_or_eq.mp hj with hLt | rfl
    · rw [hTarget j hLt] at hAt ⊢
      exact hInv.outside j hLt n hAt
    · rw [update_self] at hAt ⊢
      exact hOut n hAt

theorem Inv.writeBlock (hInv : s.Inv) (hFits : s.Fits) (block : Nat) (source : Source)
    (hPast : s.bypass = true ∨ s.txnOpen = false → ¬ s.Held block)
    (hOut : s.bypass = false → (∀ n, s.g.journal n = block → block = 0) ∧
      (s.txnCount = txnMax → ∃ data, source = .own data)) :
    (s.writeBlock block source).1.Inv := by
  unfold Layer.writeBlock
  split
  next hTxn =>
    obtain ⟨hOpen, hThrough⟩ : s.txnOpen = true ∧ s.bypass = false := by simpa using hTxn
    obtain ⟨hJournal, hOwn⟩ := hOut hThrough
    split
    next i hFind =>
      obtain ⟨hi, rfl⟩ := txnFind_some hFind
      exact hInv.recollect hi _
    next hFind =>
      have hNew := txnFind_none hFind
      by_cases hFull : s.txnCount = txnMax
      · obtain ⟨data, rfl⟩ := hOwn hFull
        rw [if_pos hFull]
        have hFlush := hInv.txnFlush hFits
        unfold Layer.andThen
        split
        next hOk =>
          have hEmpty := hFlush.empty hOk
          refine hFlush.inv.collect ?_ ?_ data
          · rintro ⟨i, hi, -⟩
            omega
          · intro n hAt
            refine hJournal n ?_
            rw [← hAt]
            unfold g
            rw [hFlush.cur, hFlush.journal]
        next => exact hFlush.inv
      · rw [if_neg hFull]
        exact hInv.collect hNew hJournal _
  next hTxn =>
    have hNot : ¬ s.Held block := by
      refine hPast ?_
      cases hB : s.bypass with
      | true => exact .inl rfl
      | false => exact .inr (by simpa [hB] using hTxn)
    exact hInv.putBlock hFits block _ fun i hi hAt => absurd ⟨i, hi, hAt⟩ hNot

/-! ## Runs -/

theorem Inv.step (hInv : s.Inv) {e : LayerEvent} (hOk : Tame s e) (hStep : s.Step e s') :
    s'.Inv := by
  subst hStep
  cases e with
  | cacheInit usable heap =>
    simp only [next, Layer.cacheInit]
    split
    · exact hInv
    · split
      · exact hInv
      · refine { hInv with cached := fun _ i hFull => (by cases hFull) }
  | setCur i =>
    simp only [next]
    split
    next hUsed =>
      rcases hOk with hNone | rfl
      · have hLt : ∀ j, ¬ j < s.txnCount := by omega
        exact ⟨hUsed, hInv.apart, hInv.sizes, hInv.cached,
          fun j hj b _ => hInv.clean j hj b fun _ hHeld => hLt _ hHeld.choose_spec.1,
          fun j hj => absurd hj (hLt j), fun hj => absurd hj (hLt _), fun j hj => absurd hj (hLt j)⟩
      · exact hInv
    · exact hInv
  | txnBegin =>
    simp only [next]
    split
    next => exact hInv
    next hClosed =>
      have hNone := hOk.resolve_left hClosed
      have hSame : ({ s with txnCount := 0, txnOpen := true } : Layer) =
          { s with txnOpen := true } := by
        rw [← hNone]
      rw [hSame]
      exact { hInv with }
  | txnEnd =>
    have hFlush := (hInv.txnFlush hOk).inv
    simp only [next]
    split
    · exact { hFlush with }
    · exact hInv
  | txnFlush => exact (hInv.txnFlush hOk).inv
  | read b block =>
    have hIn := hInv.scratch b s.jbuf s.jdata
    exact ((hIn.readBlock hOk.1 block zeroBlock).1).scratch false _ _
  | write b block source =>
    have hIn := hInv.scratch b s.jbuf s.jdata
    exact (hIn.writeBlock hOk.1 block source hOk.2.1 hOk.2.2).scratch false _ _

end Layer

/-- In a tame run from mounts with nothing written, every tame read returns what the last write of
the block on its filesystem carried, or what the disk held if there was none. -/
theorem coherent_of_tame (s₀ : Layer) (hBoot : s₀.Boot) (es : List LayerEvent) (s : Layer)
    (hRun : Run (Restrict Tame Layer.Step) s₀ es s) (b : Bool) (block : Nat)
    (hRead : Tame s (.read b block)) : s.Reads b block := by
  have hStep : ∀ s e s', Layer.Inv s → Restrict Tame Layer.Step s e s' → Layer.Inv s' :=
    fun _ _ _ hInv h => hInv.step h.1 h.2
  have hInv := Run.invariant hStep hRun hBoot.inv
  intro out k hk
  have hIn := hInv.scratch b s.jbuf s.jdata
  exact (hIn.readBlock hRead.1 block out).2 (fun hPast => hRead.2 hPast.symm) k hk

/-- Mounts without journals, each on its own disk, and disks full of zeros. -/
def mounts (size : Nat → Nat) : Layer where
  fs i := { Fs.zero with used := true, dev := i, blockSize := size i }
  cur := 0
  txnOpen := false
  bypass := false
  txnCount := 0
  txnTarget := fun _ => 0
  txnBuf := fun _ => zeroBlock
  jbuf := zeroBlock
  jdata := zeroBlock
  slots := 0
  cache := fun _ => 0
  cacheBlock := fun _ => 0
  cacheDev := fun _ => 0
  cacheFull := fun _ => false
  disk := fun _ _ => 0
  cacheUnit := 0
  last := fun _ _ => zeroBlock

theorem boot_mounts {size : Nat → Nat} (hSize : ∀ i, size i ∈ [1024, 2048, 4096, 8192]) :
    (mounts size).Boot where
  current := rfl
  apart _ _ hSame := hSame
  sizes i _ := hSize i
  closed := ⟨rfl, rfl, rfl⟩
  noCache := rfl
  unwritten _ _ _ _ := rfl

/-- A block is written on the first filesystem, then one on the second whose slot, four times as
large, covers the slot of the first. -/
def overlapEvents : List LayerEvent :=
  [.cacheInit none true, .txnBegin, .write false 4 (.own fun _ => 1), .txnFlush, .setCur 1,
    .write false 513 (.own fun _ => 2), .txnFlush, .setCur 0]

/-- It is not so that a read always returns what was written last. -/
theorem not_coherent_overlapEvents :
    ¬ ∀ s₀ : Layer, s₀.Boot → ∀ es s, Run Layer.Step s₀ es s → ∀ b block, s.Reads b block := by
  intro hAll
  let s₀ := mounts fun i => if i = 1 then 4096 else 1024
  have hBoot : s₀.Boot := boot_mounts fun i => by
    split <;> simp
  have hRun : Run Layer.Step s₀ overlapEvents (overlapEvents.foldl Layer.next s₀) :=
    Run.of_foldl Layer.next s₀ overlapEvents
  have hRead := hAll s₀ hBoot overlapEvents _ hRun false 4 zeroBlock 0 (by decide +kernel)
  have hBytes : (Layer.readBlock { overlapEvents.foldl Layer.next s₀ with bypass := false } 4
      zeroBlock).2 0 = 2 ∧ (overlapEvents.foldl Layer.next s₀).last 0 4 0 = 1 := by
    decide +kernel
  have hCur : (overlapEvents.foldl Layer.next s₀).cur = 0 := by
    decide +kernel
  rw [hBytes.1, hCur, hBytes.2] at hRead
  cases hRead

/-- Two filesystems of one block size: a block is collected and flushed on the first, and the
block of the same number is written on the second, past the batch. -/
def sameSizeEvents : List LayerEvent :=
  [.txnBegin, .write false 4 (.own fun _ => 1), .txnFlush, .cacheInit none true, .setCur 1,
    .write true 4 (.own fun _ => 2), .setCur 0]

theorem coherent_sameSizeEvents :
    ∃ s, Run (Restrict Tame Layer.Step) (mounts fun _ => 1024) sameSizeEvents s ∧
      s.Reads false 4 ∧ s.last s.cur 4 0 = 1 := by
  let s₀ := mounts fun _ => 1024
  have hBoot : s₀.Boot := boot_mounts fun _ => by simp
  let reached := fun n => (sameSizeEvents.take n).foldl Layer.next s₀
  have hFits : ∀ n, n < 8 →
      (reached n).slots = 0 ∨ (reached n).bs = (reached n).cacheUnit := by
    decide +kernel
  have hCount : (reached 4).txnCount = 0 ∧ (reached 5).txnCount = 0 ∧ (reached 6).txnCount = 0 := by
    decide +kernel
  have hOpen : (reached 7).txnOpen = true := by
    decide +kernel
  have hPast : ¬ (reached 5).Held 4 := by
    rintro ⟨i, hi, -⟩
    omega
  have hCollect : Tame (reached 1) (.write false 4 (.own fun _ => 1)) :=
    ⟨hFits 1 (by decide), (by rintro (hB | hB) <;> cases hB),
      fun _ => ⟨fun _ hZero => (by cases hZero), fun _ => ⟨_, rfl⟩⟩⟩
  have hRun : Run (Restrict Tame Layer.Step) s₀ sameSizeEvents (reached 7) :=
    Run.cons ⟨.inr rfl, rfl⟩ (.cons ⟨hCollect, rfl⟩
      (.cons ⟨hFits 2 (by decide), rfl⟩ (.cons ⟨trivial, rfl⟩
      (.cons ⟨.inl hCount.1, rfl⟩
      (.cons ⟨⟨hFits 5 (by decide), fun _ => hPast, fun hB => (by cases hB)⟩, rfl⟩
      (.cons ⟨.inl hCount.2.2, rfl⟩ (.nil _)))))))
  refine ⟨reached 7, hRun, coherent_of_tame s₀ hBoot sameSizeEvents _ hRun false 4 ?_, ?_⟩
  · exact ⟨hFits 7 (by decide), fun hNow => by simp [hOpen] at hNow⟩
  · decide +kernel

end LeahOS.Vfsd
