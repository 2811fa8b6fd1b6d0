import LeahOS.Lib.Run
import LeahOS.Vfsd.Fields
import LeahOS.Vfsd.Space

/-!
# Free space on the disk (`alloc_from`, `alloc_block`, `alloc_inode`, `free_block`)

The operations of `Space` as the source performs them: on the bytes of the bitmap blocks, of the
blocks that hold the group descriptors, and of the superblock, which is kept in memory and copied
out. Every block is read, patched and written back, through `g_block` where the source does so.

On a filesystem whose metadata blocks are apart these come to the operations of `Space`, as long
as every block can be read and written: that is what `Comes` says of each operation. A transfer
may fail, and each step says which do. `alloc_from` and the release paths go on when the
descriptor or the superblock could not be updated, and the counts are then wrong for good;
`accounted_of_sound` is for runs in which the transfers succeed.

`block` is the same as in `Vol`: what `read_block` returns. Below it are `Server` and `Layer`, whose
modules say when that is the block written last.
-/

namespace LeahOS.Vfsd
open Lib Function Option

/-- One filesystem: the geometry, the blocks as `read_block` returns them, `g_sb` and `g_block`.
`fails` says of the transfers to come which fail. `dir` is a ghost: the inodes that were made as
directories. -/
structure Store where
  blockSize : Nat
  descSize : Nat
  firstDataBlock : Nat
  blocksPerGroup : Nat
  inodesPerGroup : Nat
  groupCount : Nat
  block : Nat → Block
  sb : Block
  gBlock : Block
  fails : List Bool
  dir : Nat → Bool

/-- The operations, each with the outcome of its transfers. -/
inductive SpaceEvent
  | allocBlock (fails : List Bool)
  | allocInode (isDir : Bool) (fails : List Bool)
  | freeBlock (block : Nat) (fails : List Bool)
  | release (ino : Nat) (fails : List Bool)

/-- The transfers of the step that fail. -/
def SpaceEvent.fails : SpaceEvent → List Bool
  | .allocBlock fails | .allocInode _ fails | .freeBlock _ fails | .release _ fails => fails

/-- Where the descriptor has the number of the bitmap. -/
def Pool.mapAt : Pool → Nat
  | .blocks => 0
  | .inodes => 4

/-- Where the descriptor has the count. -/
def Pool.descAt : Pool → Nat
  | .blocks => 12
  | .inodes => 14

/-- Where the superblock has the count. -/
def Pool.sbAt : Pool → Nat
  | .blocks => 12
  | .inodes => 16

namespace Store

/-- The next transfer fails. -/
def broken (s : Store) : Bool := s.fails.headD false

def readBlock (s : Store) (b : Nat) : Store × Option Block :=
  ({ s with fails := s.fails.tail }, if s.broken then none else some (s.block b))

def writeBlock (s : Store) (b : Nat) (data : Block) : Store × Bool :=
  if s.broken then ({ s with fails := s.fails.tail }, false)
  else ({ s with fails := s.fails.tail, block := update s.block b data }, true)

/-- The block with the descriptor of a group; `g_gd_block` is the block after the first. -/
def descBlock (s : Store) (g : Nat) : Nat :=
  s.firstDataBlock + 1 + g * s.descSize / s.blockSize

/-- Where in that block the descriptor is. -/
def descOff (s : Store) (g : Nat) : Nat := g * s.descSize % s.blockSize

/-- `memcpy(p + off, data, n)`. -/
def patch (p : Block) (off n : Nat) (data : Block) : Block := fun k =>
  if off ≤ k ∧ k < off + n then data (k - off) else p k

def writeSuperblock (s : Store) : Store × Bool :=
  match s.readBlock (1024 / s.blockSize) with
  | (s, none) => (s, false)
  | (s, some whole) =>
    s.writeBlock (1024 / s.blockSize) (patch whole (1024 % s.blockSize) 1024 s.sb)

def readGroupDesc (s : Store) (g : Nat) : Store × Option Block :=
  match s.readBlock (s.descBlock g) with
  | (s, none) => (s, none)
  | (s, some b) => ({ s with gBlock := b }, some fun k => b (s.descOff g + k))

def writeGroupDesc (s : Store) (g : Nat) (desc : Block) : Store × Bool :=
  match s.readBlock (s.descBlock g) with
  | (s, none) => (s, false)
  | (s, some b) =>
    let b := patch b (s.descOff g) s.descSize desc
    { s with gBlock := b }.writeBlock (s.descBlock g) b

/-- A count of the descriptor and one of the superblock change; that the blocks were written is
not checked. -/
def recount (s : Store) (g : Nat) (desc : Block) (descAt descCount sbAt sbCount : Nat) : Store :=
  let s := (s.writeGroupDesc g (wr16w desc descAt descCount)).1
  { s with sb := wr32w s.sb sbAt sbCount }.writeSuperblock.1

def allocFrom (s : Store) (bitmap limit descFreeAt sbFreeAt g : Nat) (desc : Block) : Store × Nat :=
  match s.readBlock bitmap with
  | (s, none) => (s, 0)
  | (s, some bm) =>
    match firstClear (bitAt bm) limit with
    | none => (s, 0)
    | some bit =>
      match s.writeBlock bitmap (setBit bm bit) with
      | (s, false) => (s, 0)
      | (s, true) =>
        (s.recount g desc descFreeAt (predW 32 (rd16 desc descFreeAt)) sbFreeAt
          (predW 32 (rd32 s.sb sbFreeAt)), bit + 1)

/-- `alloc_block`, over `n` groups from `g` on. -/
def allocBlockFrom (s : Store) : Nat → Nat → Store × Nat
  | 0, _ => (s, 0)
  | n + 1, g =>
    match s.readGroupDesc g with
    | (s, none) => s.allocBlockFrom n (g + 1)
    | (s, some desc) =>
      if rd16 desc 12 = 0 then s.allocBlockFrom n (g + 1)
      else
        match s.allocFrom (rd32 desc 0) s.blocksPerGroup 12 12 g desc with
        | (s, 0) => s.allocBlockFrom n (g + 1)
        | (s, got + 1) => (s, s.firstDataBlock + g * s.blocksPerGroup + got)

def allocBlock (s : Store) : Store × Nat := s.allocBlockFrom s.groupCount 0

/-- The group of a new directory counts it, if its descriptor can be read. -/
def countDir (s : Store) (g : Nat) : Store :=
  match s.readGroupDesc g with
  | (s, none) => s
  | (s, some desc) => (s.writeGroupDesc g (wr16w desc 16 (rd16 desc 16 + 1))).1

/-- `alloc_inode`, over `n` groups from `g` on. -/
def allocInodeFrom (s : Store) (isDir : Bool) : Nat → Nat → Store × Nat
  | 0, _ => (s, 0)
  | n + 1, g =>
    match s.readGroupDesc g with
    | (s, none) => s.allocInodeFrom isDir n (g + 1)
    | (s, some desc) =>
      if rd16 desc 14 = 0 then s.allocInodeFrom isDir n (g + 1)
      else
        match s.allocFrom (rd32 desc 4) s.inodesPerGroup 14 16 g desc with
        | (s, 0) => s.allocInodeFrom isDir n (g + 1)
        | (s, got + 1) =>
          (if isDir then s.countDir g else s, g * s.inodesPerGroup + (got + 1))

def allocInode (s : Store) (isDir : Bool) : Store × Nat := s.allocInodeFrom isDir s.groupCount 0

/-- A bit of a bitmap is cleared if it is set, and the counts follow. -/
def giveBack (s : Store) (bitmap bit descFreeAt sbFreeAt g : Nat) (desc : Block) : Store :=
  match s.readBlock bitmap with
  | (s, none) => s
  | (s, some bm) =>
    if bitAt bm bit then
      let s := (s.writeBlock bitmap (clearBit bm bit)).1
      s.recount g desc descFreeAt (rd16 desc descFreeAt + 1) sbFreeAt (rd32 s.sb sbFreeAt + 1)
    else s

def freeBlock (s : Store) (block : Nat) : Store :=
  let rel := block - s.firstDataBlock
  let g := rel / s.blocksPerGroup % 2 ^ 32
  if block < s.firstDataBlock ∨ s.groupCount ≤ g then s
  else
    match s.readGroupDesc g with
    | (s, none) => s
    | (s, some desc) => s.giveBack (rd32 desc 0) (rel % s.blocksPerGroup) 12 12 g desc

/-- The group of a removed directory counts it no more, if its descriptor can be read. -/
def dropDir (s : Store) (g : Nat) : Store :=
  match s.readGroupDesc g with
  | (s, none) => s
  | (s, some desc) =>
    if 0 < rd16 desc 16 then
      (s.writeGroupDesc g (wr16w desc 16 (predW 32 (rd16 desc 16)))).1
    else s

/-- The part of `VFS_UNLINK` that gives the inode back. -/
def releaseInode (s : Store) (ino : Nat) (isDir : Bool) : Store :=
  let g := (ino - 1) / s.inodesPerGroup
  let s :=
    match s.readGroupDesc g with
    | (s, none) => s
    | (s, some desc) => s.giveBack (rd32 desc 4) ((ino - 1) % s.inodesPerGroup) 14 16 g desc
  if isDir then s.dropDir g else s

/-- One operation: the new state and what it returns. Only inodes there are can be released; the
handler takes it from the mode whether it is a directory. -/
def next (s : Store) : SpaceEvent → Option (Store × Nat)
  | .allocBlock fails => some { s with fails := fails }.allocBlock
  | .allocInode isDir fails =>
    let r := { s with fails := fails }.allocInode isDir
    some (if r.2 = 0 then r else ({ r.1 with dir := update s.dir r.2 isDir }, r.2))
  | .freeBlock block fails => some ({ s with fails := fails }.freeBlock block, 0)
  | .release ino fails =>
    if 0 < ino ∧ ino ≤ s.groupCount * s.inodesPerGroup then
      some ({ { s with fails := fails }.releaseInode ino (s.dir ino) with
        dir := update s.dir ino false }, 0)
    else none

def Step (s : Store) (e : SpaceEvent) (s' : Store) : Prop := (s.next e).map Prod.fst = some s'

/-- The descriptor of a group, as it is on the disk. -/
def desc (s : Store) (g : Nat) : Block := fun k => s.block (s.descBlock g) (s.descOff g + k)

/-- What the descriptor and the bitmaps of a group say. -/
def view (s : Store) (g : Nat) : Group :=
  if g < s.groupCount then
    { freeBlocks := rd16 (s.desc g) 12
      freeInodes := rd16 (s.desc g) 14
      usedDirs := rd16 (s.desc g) 16
      blockBits := bitAt (s.block (rd32 (s.desc g) 0))
      inodeBits := bitAt (s.block (rd32 (s.desc g) 4)) }
  else ⟨0, 0, 0, fun _ => false, fun _ => false⟩

/-- The free space the bytes describe. -/
def space (s : Store) : Space where
  firstDataBlock := s.firstDataBlock
  blocksPerGroup := s.blocksPerGroup
  inodesPerGroup := s.inodesPerGroup
  groupCount := s.groupCount
  group := s.view
  freeBlocks := rd32 s.sb 12
  freeInodes := rd32 s.sb 16

/-- The metadata blocks are apart: the superblock's, those of the descriptors, which are not
split between blocks, and the bitmaps, two for each group, which fit a block. -/
structure Layout (s : Store) : Prop where
  blockSize : s.blockSize ∈ [1024, 2048, 4096, 8192]
  descSize : s.descSize ∈ [32, 64]
  first : s.firstDataBlock = 1024 / s.blockSize
  fits : s.blocksPerGroup ≤ 8 * s.blockSize ∧ s.inodesPerGroup ≤ 8 * s.blockSize
  blockMaps : ∀ {g h}, g < s.groupCount → h < s.groupCount →
    rd32 (s.desc g) 0 = rd32 (s.desc h) 0 → g = h
  inodeMaps : ∀ {g h}, g < s.groupCount → h < s.groupCount →
    rd32 (s.desc g) 4 = rd32 (s.desc h) 4 → g = h
  mixed : ∀ {g h}, g < s.groupCount → h < s.groupCount → rd32 (s.desc g) 0 ≠ rd32 (s.desc h) 4
  descs : ∀ {g h}, g < s.groupCount → h < s.groupCount →
    rd32 (s.desc g) 0 ≠ s.descBlock h ∧ rd32 (s.desc g) 4 ≠ s.descBlock h
  super : ∀ {g}, g < s.groupCount →
    rd32 (s.desc g) 0 ≠ 1024 / s.blockSize ∧ rd32 (s.desc g) 4 ≠ 1024 / s.blockSize

/-! ## Transfers that succeed -/

variable {r s s' : Store} {g : Nat} {a : Space}

theorem readBlock_ok (hFails : s.fails = []) (b : Nat) :
    s.readBlock b = (s, some (s.block b)) := by
  obtain ⟨⟩ := s
  subst hFails
  rfl

theorem writeBlock_ok (hFails : s.fails = []) (b : Nat) (data : Block) :
    s.writeBlock b data = ({ s with block := update s.block b data }, true) := by
  obtain ⟨⟩ := s
  subst hFails
  rfl

theorem readGroupDesc_ok (hFails : s.fails = []) (g : Nat) :
    s.readGroupDesc g = ({ s with gBlock := s.block (s.descBlock g) }, some (s.desc g)) := by
  simp only [readGroupDesc, readBlock_ok hFails]
  rfl

theorem writeGroupDesc_ok (hFails : s.fails = []) (g : Nat) (d : Block) :
    s.writeGroupDesc g d = (let b := patch (s.block (s.descBlock g)) (s.descOff g) s.descSize d
      { s with gBlock := b, block := update s.block (s.descBlock g) b }, true) := by
  have hAfter : ∀ b, { s with gBlock := b }.fails = [] := fun _ => hFails
  simp only [writeGroupDesc, readBlock_ok hFails, writeBlock_ok (hAfter _)]

/-! ## Descriptors -/

/-- The metadata is where it belongs, the superblock on the disk is the one in memory, and the
transfers to come succeed. -/
structure Good (s : Store) : Prop where
  layout : s.Layout
  super : ∀ k, k < 1024 → s.block (1024 / s.blockSize) (1024 % s.blockSize + k) = s.sb k
  fails : s.fails = []

/-- The descriptor a `write_group_desc` wrote, and the others. -/
theorem desc_writeGroupDesc (hFails : s.fails = []) (g h : Nat) (d : Block) {k : Nat}
    (hk : k < s.descSize) :
    (s.writeGroupDesc g d).1.desc h k = if h = g then d k else s.desc h k := by
  have hG := Nat.div_add_mod (g * s.descSize) s.blockSize
  have hH := Nat.div_add_mod (h * s.descSize) s.blockSize
  rw [writeGroupDesc_ok hFails]
  simp only [desc, descBlock, descOff]
  by_cases hBlock : h * s.descSize / s.blockSize = g * s.descSize / s.blockSize
  · rw [hBlock, update_self]
    unfold patch
    rw [hBlock] at hH
    split
    next hIn =>
      have hEq : h = g := record_of_byte hk (by omega) (by omega)
      subst hEq
      rw [if_pos rfl]
      congr 1
      omega
    next hOut =>
      rw [if_neg]
      rintro rfl
      omega
  · rw [update_of_ne (by omega)]
    rw [if_neg]
    rintro rfl
    exact hBlock rfl

/-- The geometry, and what no operation on blocks changes. -/
structure SameGeo (s s' : Store) : Prop where
  blockSize : s'.blockSize = s.blockSize
  descSize : s'.descSize = s.descSize
  firstDataBlock : s'.firstDataBlock = s.firstDataBlock
  blocksPerGroup : s'.blocksPerGroup = s.blocksPerGroup
  inodesPerGroup : s'.inodesPerGroup = s.inodesPerGroup
  groupCount : s'.groupCount = s.groupCount
  fails : s'.fails = s.fails
  dir : s'.dir = s.dir

theorem SameGeo.refl (s : Store) : SameGeo s s := ⟨rfl, rfl, rfl, rfl, rfl, rfl, rfl, rfl⟩

theorem SameGeo.trans {t u : Store} (h : SameGeo s t) (h' : SameGeo t u) : SameGeo s u :=
  ⟨h'.1.trans h.1, h'.2.trans h.2, h'.3.trans h.3, h'.4.trans h.4, h'.5.trans h.5, h'.6.trans h.6,
    h'.7.trans h.7, h'.8.trans h.8⟩

theorem sameGeo_block (s : Store) (block : Nat → Block) : SameGeo s { s with block := block } :=
  ⟨rfl, rfl, rfl, rfl, rfl, rfl, rfl, rfl⟩

theorem sameGeo_scratch (s : Store) (b : Block) : SameGeo s { s with gBlock := b } :=
  ⟨rfl, rfl, rfl, rfl, rfl, rfl, rfl, rfl⟩

theorem SameGeo.descBlock (h : SameGeo s s') (g : Nat) :
    s'.descBlock g = s.descBlock g := by
  unfold Store.descBlock
  rw [h.firstDataBlock, h.descSize, h.blockSize]

/-- The layout is a matter of the geometry and of the pointers in the descriptors. -/
theorem Layout.congr (h : s.Layout) (hGeo : SameGeo s s') (hMaps : ∀ g, g < s.groupCount →
      rd32 (s'.desc g) 0 = rd32 (s.desc g) 0 ∧ rd32 (s'.desc g) 4 = rd32 (s.desc g) 4) :
    s'.Layout := by
  have hCount := hGeo.groupCount
  refine ⟨hGeo.blockSize ▸ h.blockSize, hGeo.descSize ▸ h.descSize, ?_, ?_,
    fun {i j} hi hj hSame => ?_, fun {i j} hi hj hSame => ?_, fun {i j} hi hj => ?_,
    fun {i j} hi hj => ?_, fun {i} hi => ?_⟩
  · rw [hGeo.firstDataBlock, hGeo.blockSize]
    exact h.first
  · rw [hGeo.blocksPerGroup, hGeo.inodesPerGroup, hGeo.blockSize]
    exact h.fits
  all_goals rw [hCount] at hi
  · rw [hCount] at hj
    rw [(hMaps i hi).1, (hMaps j hj).1] at hSame
    exact h.blockMaps hi hj hSame
  · rw [hCount] at hj
    rw [(hMaps i hi).2, (hMaps j hj).2] at hSame
    exact h.inodeMaps hi hj hSame
  · rw [hCount] at hj
    rw [(hMaps i hi).1, (hMaps j hj).2]
    exact h.mixed hi hj
  · rw [hCount] at hj
    rw [(hMaps i hi).1, (hMaps i hi).2, hGeo.descBlock]
    exact h.descs hi hj
  · rw [(hMaps i hi).1, (hMaps i hi).2, hGeo.blockSize]
    exact h.super hi

/-- Two views that are the same but for one group. -/
theorem space_eq_setGroup {x : Group} (hg : g < s.groupCount) (hGeo : SameGeo s s')
    (hSb : s'.sb = s.sb) (hAt : s'.view g = x)
    (hElse : ∀ h, h < s.groupCount → h ≠ g → s'.view h = s.view h) :
    s'.space = s.space.setGroup g x := by
  have hView : s'.view = update s.view g x := by
    funext h
    by_cases hEq : h = g
    · subst hEq
      rw [update_self, hAt]
    · rw [update_of_ne hEq]
      by_cases hh : h < s.groupCount
      · exact hElse h hh hEq
      · rw [view, view, if_neg hh, if_neg (by rw [hGeo.groupCount]; exact hh)]
  simp only [space, Space.setGroup, hGeo.firstDataBlock, hGeo.blocksPerGroup, hGeo.inodesPerGroup,
    hGeo.groupCount, hSb, hView]

/-- What is written to a bitmap, by `write_block`. -/
theorem Good.writeMap (hGood : s.Good) {b : Nat} (data : Block)
    (hDesc : ∀ h, h < s.groupCount → b ≠ s.descBlock h) (hSuper : b ≠ 1024 / s.blockSize) :
    { s with block := update s.block b data }.Good ∧ ∀ h, h < s.groupCount →
        { s with block := update s.block b data }.desc h = s.desc h := by
  have hSame : ∀ h, h < s.groupCount →
      { s with block := update s.block b data }.desc h = s.desc h := by
    intro h hh
    funext k
    exact congrFun (update_of_ne (hDesc h hh).symm data s.block) _
  refine ⟨⟨hGood.layout.congr (s.sameGeo_block _) fun g hg => ?_,
    fun k hk => ?_, hGood.fails⟩, hSame⟩
  · rw [hSame g hg]
    exact ⟨rfl, rfl⟩
  · have hBlock := update_of_ne hSuper.symm data s.block
    simp only [hBlock]
    exact hGood.super k hk

/-- Writing a bitmap of a group. -/
theorem Good.writePool (hGood : s.Good) (hg : g < s.groupCount) (pool : Pool) (data : Block) :
    { s with block := update s.block (rd32 (s.desc g) pool.mapAt) data }.Good ∧
      { s with block := update s.block (rd32 (s.desc g) pool.mapAt) data }.space =
        s.space.setGroup g ((s.space.group g).withBits pool (bitAt data)) ∧
      { s with block := update s.block (rd32 (s.desc g) pool.mapAt) data }.desc g =
        s.desc g := by
  have hL := hGood.layout
  obtain ⟨hAfter, hSame⟩ := hGood.writeMap data (b := rd32 (s.desc g) pool.mapAt)
    (fun h hh => by cases pool; exacts [(hL.descs hg hh).1, (hL.descs hg hh).2])
    (by cases pool; exacts [(hL.super hg).1, (hL.super hg).2])
  refine ⟨hAfter, ?_, hSame g hg⟩
  cases pool with
  | blocks =>
    simp only [Pool.mapAt] at hSame ⊢
    refine space_eq_setGroup hg (s.sameGeo_block _) rfl ?_ fun h hh hNe => ?_
    · have hInode := update_of_ne (hL.mixed hg hg).symm data s.block
      simp only [view, space, if_pos hg, hSame g hg, update_self, hInode, Group.withBits]
    · have hBlock := update_of_ne (fun hEq => hNe (hL.blockMaps hh hg hEq)) data s.block
      have hInode := update_of_ne (hL.mixed hg hh).symm data s.block
      simp only [view, if_pos hh, hSame h hh, hInode, hBlock]
  | inodes =>
    simp only [Pool.mapAt] at hSame ⊢
    refine space_eq_setGroup hg (s.sameGeo_block _) rfl ?_ fun h hh hNe => ?_
    · have hBlock := update_of_ne (hL.mixed hg hg) data s.block
      simp only [view, space, if_pos hg, hSame g hg, update_self, hBlock, Group.withBits]
    · have hInode := update_of_ne (fun hEq => hNe (hL.inodeMaps hh hg hEq)) data s.block
      have hBlock := update_of_ne (hL.mixed hh hg) data s.block
      simp only [view, if_pos hh, hSame h hh, hInode, hBlock]

theorem Layout.descSize_ge (h : s.Layout) : 32 ≤ s.descSize := by
  have hMem := h.descSize
  simp only [List.mem_cons, List.not_mem_nil, or_false] at hMem
  omega

/-- The superblock is in the block before the descriptors. -/
theorem Layout.super_ne (h : s.Layout) (g : Nat) :
    1024 / s.blockSize ≠ s.descBlock g := by
  rw [← h.first]
  exact Nat.ne_of_lt (Nat.lt_of_lt_of_le (Nat.lt_succ_self _) (Nat.le_add_right _ _))

/-- The fields of the descriptors after one of them was written. -/
theorem Good.desc_field (hGood : s.Good) (g h : Nat) (d : Block) (off n : Nat) (hIn : off + n ≤ 32) :
    getLE ((s.writeGroupDesc g d).1.desc h) off n = getLE (if h = g then d else s.desc h) off n := by
  have hSize := hGood.layout.descSize_ge
  refine getLE_congr fun k hk => ?_
  rw [desc_writeGroupDesc hGood.fails g h d (by omega)]
  split <;> rfl

/-- Writing the descriptor of a group, its pointers unchanged. -/
theorem Good.writeGroupDesc (hGood : s.Good) (hg : g < s.groupCount) {d : Block}
    (hBlocks : rd32 d 0 = rd32 (s.desc g) 0) (hInodes : rd32 d 4 = rd32 (s.desc g) 4) :
    (s.writeGroupDesc g d).1.Good ∧ SameGeo s (s.writeGroupDesc g d).1 ∧
      (s.writeGroupDesc g d).1.sb = s.sb ∧
      (s.writeGroupDesc g d).1.space = s.space.setGroup g { s.space.group g with
        freeBlocks := rd16 d 12, freeInodes := rd16 d 14, usedDirs := rd16 d 16 } := by
  have hL := hGood.layout
  have hField := fun h => hGood.desc_field g h d
  have hBlock : ∀ b, b ≠ s.descBlock g → (s.writeGroupDesc g d).1.block b = s.block b := by
    intro b hNe
    rw [writeGroupDesc_ok hGood.fails]
    exact update_of_ne hNe _ _
  have hGeo : SameGeo s (s.writeGroupDesc g d).1 := by
    rw [writeGroupDesc_ok hGood.fails]
    exact ⟨rfl, rfl, rfl, rfl, rfl, rfl, rfl, rfl⟩
  have hSb : (s.writeGroupDesc g d).1.sb = s.sb := by
    rw [writeGroupDesc_ok hGood.fails]
  generalize (s.writeGroupDesc g d).1 = s' at hField hBlock hGeo hSb
  have hMaps : ∀ h, rd32 (s'.desc h) 0 = rd32 (s.desc h) 0 ∧
      rd32 (s'.desc h) 4 = rd32 (s.desc h) 4 := by
    intro h
    have hZero := hField h 0 4 (by omega)
    have hFour := hField h 4 4 (by omega)
    by_cases hEq : h = g
    · subst hEq
      rw [if_pos rfl] at hZero hFour
      exact ⟨hZero.trans hBlocks, hFour.trans hInodes⟩
    · rw [if_neg hEq] at hZero hFour
      exact ⟨hZero, hFour⟩
  have hBits : ∀ h, h < s.groupCount → s'.block (rd32 (s'.desc h) 0) = s.block (rd32 (s.desc h) 0) ∧
      s'.block (rd32 (s'.desc h) 4) = s.block (rd32 (s.desc h) 4) := by
    intro h hh
    rw [(hMaps h).1, (hMaps h).2]
    exact ⟨hBlock _ (hL.descs hh hg).1, hBlock _ (hL.descs hh hg).2⟩
  refine ⟨⟨hL.congr hGeo fun h _ => hMaps h, fun k hk => ?_, hGeo.fails.trans hGood.fails⟩, hGeo,
    hSb, space_eq_setGroup hg hGeo hSb ?_ fun h hh hNe => ?_⟩
  · rw [hGeo.blockSize, hBlock _ (hL.super_ne g), hSb]
    exact hGood.super k hk
  · have h12 := hField g 12 2 (by omega)
    have h14 := hField g 14 2 (by omega)
    have h16 := hField g 16 2 (by omega)
    rw [if_pos rfl] at h12 h14 h16
    simp only [view, space, hGeo.groupCount, if_pos hg, (hBits g hg).1, (hBits g hg).2, rd16, h12,
      h14, h16]
  · have h12 := hField h 12 2 (by omega)
    have h14 := hField h 14 2 (by omega)
    have h16 := hField h 16 2 (by omega)
    rw [if_neg hNe] at h12 h14 h16
    simp only [view, hGeo.groupCount, if_pos hh, (hBits h hh).1, (hBits h hh).2, rd16, h12, h14, h16]

/-- The superblock changes in memory and is copied out. -/
theorem Good.writeSuperblock (hGood : s.Good) (sb : Block) :
    { s with sb := sb }.writeSuperblock.1.Good ∧ SameGeo s { s with sb := sb }.writeSuperblock.1 ∧
      { s with sb := sb }.writeSuperblock.1.space =
        { s.space with freeBlocks := rd32 sb 12, freeInodes := rd32 sb 16 } := by
  have hL := hGood.layout
  have hFails : { s with sb := sb }.fails = [] := hGood.fails
  simp only [Store.writeSuperblock, readBlock_ok hFails, writeBlock_ok hFails]
  have hBlock : ∀ b data, b ≠ 1024 / s.blockSize →
      update s.block (1024 / s.blockSize) data b = s.block b := fun b data hNe =>
    update_of_ne hNe _ _
  have hDesc : ∀ h data, { s with
      sb := sb, block := update s.block (1024 / s.blockSize) data }.desc h = s.desc h := by
    intro h data
    funext k
    exact congrFun (hBlock _ data (hL.super_ne h).symm) _
  refine ⟨⟨hL.congr ⟨rfl, rfl, rfl, rfl, rfl, rfl, rfl, rfl⟩ fun h _ => ?_, fun k hk => ?_,
    hGood.fails⟩, ⟨rfl, rfl, rfl, rfl, rfl, rfl, rfl, rfl⟩, ?_⟩
  · rw [hDesc]
    exact ⟨rfl, rfl⟩
  · simp only [update_self, patch]
    rw [if_pos ⟨Nat.le_add_right _ _, Nat.add_lt_add_left hk _⟩, Nat.add_sub_cancel_left]
  · simp only [space]
    congr 1
    funext h
    unfold view
    split
    next hh => simp only [hDesc, hBlock _ _ (hL.super hh).1, hBlock _ _ (hL.super hh).2]
    next => rfl

/-! ## The operations come to those of `Space` -/

/-- The store has come from `s` to `r`, and its free space to `a`. -/
structure Comes (s r : Store) (a : Space) : Prop where
  good : r.Good
  geo : SameGeo s r
  space : r.space = a

theorem Good.comes (hGood : s.Good) : Comes s s s.space :=
  ⟨hGood, SameGeo.refl s, rfl⟩

theorem desc_scratch (s : Store) (b : Block) (g : Nat) : { s with gBlock := b }.desc g = s.desc g :=
  rfl

theorem space_scratch (s : Store) (b : Block) : { s with gBlock := b }.space = s.space := rfl

/-- What is in `g_block` says nothing about the disk. -/
theorem Good.scratch (hGood : s.Good) (b : Block) : { s with gBlock := b }.Good :=
  ⟨hGood.layout.congr (s.sameGeo_scratch b) fun _ _ => ⟨rfl, rfl⟩, hGood.super, hGood.fails⟩

theorem Comes.ofScratch {b : Block} (h : Comes { s with gBlock := b } r a) : Comes s r a :=
  ⟨h.good, (s.sameGeo_scratch b).trans h.geo, h.space⟩

theorem group_of_lt (hg : g < s.groupCount) :
    s.space.group g = ⟨rd16 (s.desc g) 12, rd16 (s.desc g) 14, rd16 (s.desc g) 16,
        bitAt (s.block (rd32 (s.desc g) 0)), bitAt (s.block (rd32 (s.desc g) 4))⟩ :=
  if_pos hg

theorem bits_group (hg : g < s.groupCount) (pool : Pool) :
    (s.space.group g).bits pool = bitAt (s.block (rd32 (s.desc g) pool.mapAt)) := by
  rw [group_of_lt hg]
  cases pool with
  | blocks | inodes => rfl

/-- New counts of free blocks or inodes. -/
theorem Good.recount (hGood : s.Good) (hg : g < s.groupCount) (pool : Pool) (c t : Nat) :
    Comes s (s.recount g (s.desc g) pool.descAt c pool.sbAt t)
      (s.space.put pool g ((s.space.group g).bits pool) (c % 2 ^ 16) (t % 2 ^ 32)) := by
  have hApart : ∀ off, off = 0 ∨ off = 4 →
      rd32 (wr16w (s.desc g) pool.descAt c) off = rd32 (s.desc g) off := fun off hOff =>
    rd32_wr16w_of_disjoint (by cases pool; all_goals simp only [Pool.descAt]; omega)
  obtain ⟨hDesc, hGeo, hSb, hSpace⟩ := hGood.writeGroupDesc hg (hApart 0 (by omega))
    (hApart 4 (by omega))
  obtain ⟨hAfter, hGeo', hSpace'⟩ := hDesc.writeSuperblock
    (wr32w (s.writeGroupDesc g (wr16w (s.desc g) pool.descAt c)).1.sb pool.sbAt t)
  refine ⟨hAfter, hGeo.trans hGeo', hSpace'.trans ?_⟩
  rw [hSpace, hSb]
  cases pool with
  | blocks | inodes =>
    simp only [Pool.descAt, Pool.sbAt]
    rw [rd32_wr32w_self, rd32_wr32w_of_disjoint (by omega), rd16_wr16w_self,
      rd16_wr16w_of_disjoint (by omega), rd16_wr16w_of_disjoint (by omega)]
    simp only [Space.put, group_of_lt hg]
    rfl

/-- A bitmap of a group is written, and the counts follow. -/
theorem Good.put (hGood : s.Good) (hg : g < s.groupCount) (pool : Pool) (data : Block) (c t : Nat) :
    Comes s ({ s with block := update s.block (rd32 (s.desc g) pool.mapAt) data }.recount g
      (s.desc g) pool.descAt c pool.sbAt t)
      (s.space.put pool g (bitAt data) (c % 2 ^ 16) (t % 2 ^ 32)) := by
  obtain ⟨hMap, hSpace, hDesc⟩ := hGood.writePool hg pool data
  have hCount := hMap.recount (g := g) hg pool c t
  rw [hDesc, hSpace] at hCount
  refine ⟨hCount.good, (s.sameGeo_block _).trans hCount.geo, hCount.space.trans ?_⟩
  cases pool with
  | blocks | inodes =>
    simp only [Space.put, Space.setGroup, update_idem, update_self, Group.withBits, Group.bits]

/-- A new count of directories. -/
theorem Good.recountDirs (hGood : s.Good) (hg : g < s.groupCount) (c : Nat) :
    Comes s (s.writeGroupDesc g (wr16w (s.desc g) 16 c)).1
      (s.space.setGroup g { s.space.group g with usedDirs := c % 2 ^ 16 }) := by
  obtain ⟨hDesc, hGeo, -, hSpace⟩ := hGood.writeGroupDesc hg (d := wr16w (s.desc g) 16 c)
    (rd32_wr16w_of_disjoint (by omega)) (rd32_wr16w_of_disjoint (by omega))
  refine ⟨hDesc, hGeo, hSpace.trans ?_⟩
  rw [rd16_wr16w_self, rd16_wr16w_of_disjoint (by omega), rd16_wr16w_of_disjoint (by omega),
    group_of_lt hg]

theorem Good.allocFrom (hGood : s.Good) (hg : g < s.groupCount) (pool : Pool) (limit : Nat) :
    (firstClear ((s.space.group g).bits pool) limit = none ∧
      s.allocFrom (rd32 (s.desc g) pool.mapAt) limit pool.descAt pool.sbAt g (s.desc g) = (s, 0)) ∨
    ∃ bit r, firstClear ((s.space.group g).bits pool) limit = some bit ∧
      s.allocFrom (rd32 (s.desc g) pool.mapAt) limit pool.descAt pool.sbAt g (s.desc g) =
        (r, bit + 1) ∧ Comes s r (s.space.take pool g bit) := by
  rw [bits_group hg pool]
  cases hFirst : firstClear (bitAt (s.block (rd32 (s.desc g) pool.mapAt))) limit with
  | none =>
    refine .inl ⟨rfl, ?_⟩
    simp only [Store.allocFrom, readBlock_ok hGood.fails, hFirst]
  | some bit =>
    have hPut := hGood.put hg pool (setBit (s.block (rd32 (s.desc g) pool.mapAt)) bit)
      (predW 32 (rd16 (s.desc g) pool.descAt)) (predW 32 (rd32 s.sb pool.sbAt))
    rw [predW_mod (by omega), Nat.mod_eq_of_lt (rd16_lt _ _), predW_mod (by omega),
      Nat.mod_eq_of_lt (rd32_lt _ _), bitAt_setBit] at hPut
    refine .inr ⟨bit, _, rfl, ?_, hPut.good, hPut.geo, hPut.space.trans ?_⟩
    · simp only [Store.allocFrom, readBlock_ok hGood.fails, hFirst, writeBlock_ok hGood.fails]
    · cases pool with
      | blocks | inodes =>
        simp only [Space.put, Space.take, Space.takeBlock, Space.takeInode, group_of_lt hg]
        rfl

theorem Good.allocBlockFrom (hGood : s.Good) (n g : Nat) (hEnd : g + n ≤ s.groupCount) :
    Comes s (s.allocBlockFrom n g).1 (s.space.allocBlockFrom n g).1 ∧
      (s.allocBlockFrom n g).2 = (s.space.allocBlockFrom n g).2 := by
  induction n generalizing s g with
  | zero => exact ⟨hGood.comes, rfl⟩
  | succ n ih =>
    have hg : g < s.groupCount := by omega
    have hScratch := hGood.scratch (s.block (s.descBlock g))
    have hCount : (s.space.group g).freeBlocks = rd16 (s.desc g) 12 := by rw [group_of_lt hg]
    have hRest := ih hScratch (g + 1) (show g + 1 + n ≤ s.groupCount by omega)
    have hFrom := hScratch.allocFrom hg .blocks s.blocksPerGroup
    simp only [desc_scratch, space_scratch, Group.bits, Pool.mapAt, Pool.descAt, Pool.sbAt,
      Space.take] at hRest hFrom
    have hPer : s.space.blocksPerGroup = s.blocksPerGroup := rfl
    rw [Store.allocBlockFrom, Space.allocBlockFrom, readGroupDesc_ok hGood.fails, hCount, hPer]
    simp only
    split
    next => exact ⟨hRest.1.ofScratch, hRest.2⟩
    next =>
      rcases hFrom with ⟨hNone, hEq⟩ | ⟨bit, r, hSome, hEq, hTake⟩
      · simp only [hEq, hNone]
        exact ⟨hRest.1.ofScratch, hRest.2⟩
      · simp only [hEq, hSome]
        refine ⟨hTake.ofScratch, ?_⟩
        rw [hTake.geo.firstDataBlock, hTake.geo.blocksPerGroup]
        rfl

theorem Good.countDir (hGood : s.Good) (hg : g < s.groupCount) :
    Comes s (s.countDir g) (s.space.addDir g) := by
  have hDirs := (hGood.scratch (s.block (s.descBlock g))).recountDirs hg (rd16 (s.desc g) 16 + 1)
  unfold Store.countDir Space.addDir
  rw [readGroupDesc_ok hGood.fails]
  have hCount : (s.space.group g).usedDirs = rd16 (s.desc g) 16 := by rw [group_of_lt hg]
  rw [hCount]
  exact hDirs.ofScratch

theorem Good.allocInodeFrom (hGood : s.Good) (isDir : Bool) (n g : Nat)
    (hEnd : g + n ≤ s.groupCount) :
    Comes s (s.allocInodeFrom isDir n g).1 (s.space.allocInodeFrom isDir n g).1 ∧
      (s.allocInodeFrom isDir n g).2 = (s.space.allocInodeFrom isDir n g).2 := by
  induction n generalizing s g with
  | zero => exact ⟨hGood.comes, rfl⟩
  | succ n ih =>
    have hg : g < s.groupCount := by omega
    have hScratch := hGood.scratch (s.block (s.descBlock g))
    have hCount : (s.space.group g).freeInodes = rd16 (s.desc g) 14 := by rw [group_of_lt hg]
    have hRest := ih hScratch (g + 1) (show g + 1 + n ≤ s.groupCount by omega)
    have hFrom := hScratch.allocFrom hg .inodes s.inodesPerGroup
    simp only [desc_scratch, space_scratch, Group.bits, Pool.mapAt, Pool.descAt, Pool.sbAt,
      Space.take] at hRest hFrom
    have hPer : s.space.inodesPerGroup = s.inodesPerGroup := rfl
    rw [Store.allocInodeFrom, Space.allocInodeFrom, readGroupDesc_ok hGood.fails, hCount, hPer]
    simp only
    split
    next => exact ⟨hRest.1.ofScratch, hRest.2⟩
    next =>
      rcases hFrom with ⟨hNone, hEq⟩ | ⟨bit, r, hSome, hEq, hTake⟩
      · simp only [hEq, hNone]
        exact ⟨hRest.1.ofScratch, hRest.2⟩
      · simp only [hEq, hSome]
        have hTake := hTake.ofScratch
        refine ⟨?_, by rw [hTake.geo.inodesPerGroup]⟩
        cases isDir with
        | false => exact hTake
        | true =>
          have hDir := hTake.good.countDir (g := g) (by rw [hTake.geo.groupCount]; exact hg)
          rw [hTake.space] at hDir
          exact ⟨hDir.good, hTake.geo.trans hDir.geo, hDir.space⟩

/-- Giving a bit of a bitmap back. -/
theorem Good.giveBack (hGood : s.Good) (hg : g < s.groupCount) (pool : Pool) (bit : Nat) :
    Comes s (s.giveBack (rd32 (s.desc g) pool.mapAt) bit pool.descAt pool.sbAt g (s.desc g))
      (if (s.space.group g).bits pool bit then s.space.give pool g bit else s.space) := by
  simp only [Store.giveBack, readBlock_ok hGood.fails, bits_group hg pool]
  split
  next =>
    have hPut := hGood.put hg pool (clearBit (s.block (rd32 (s.desc g) pool.mapAt)) bit)
      (rd16 (s.desc g) pool.descAt + 1) (rd32 s.sb pool.sbAt + 1)
    rw [bitAt_clearBit] at hPut
    rw [writeBlock_ok hGood.fails]
    refine ⟨hPut.good, hPut.geo, hPut.space.trans ?_⟩
    cases pool with
    | blocks | inodes =>
      simp only [Space.put, Space.give, Space.giveBlock, Space.giveInode, group_of_lt hg]
      rfl
  next => exact hGood.comes

theorem freeBlock_ok (hFails : s.fails = []) (block : Nat) :
    s.freeBlock block = (let g := s.space.blockGroup block
      if block < s.space.firstDataBlock ∨ s.space.groupCount ≤ g then s
      else { s with gBlock := s.block (s.descBlock g) }.giveBack (rd32 (s.desc g) 0)
        (s.space.blockBit block) 12 12 g (s.desc g)) := by
  simp only [freeBlock, readGroupDesc_ok hFails]
  rfl

theorem Good.freeBlock (hGood : s.Good) (block : Nat) :
    Comes s (s.freeBlock block) (s.space.freeBlock block) := by
  rw [freeBlock_ok hGood.fails, Space.freeBlock]
  simp only
  split
  next => exact hGood.comes
  next hIn =>
    push Not at hIn
    have hScratch := hGood.scratch (s.block (s.descBlock (s.space.blockGroup block)))
    exact (hScratch.giveBack hIn.2 .blocks (s.space.blockBit block)).ofScratch

theorem Good.dropDir (hGood : s.Good) (hg : g < s.groupCount) :
    Comes s (s.dropDir g) (s.space.dropDir g) := by
  have hScratch := hGood.scratch (s.block (s.descBlock g))
  have hDirs := hScratch.recountDirs hg (predW 32 (rd16 (s.desc g) 16))
  rw [predW_mod (by omega), Nat.mod_eq_of_lt (rd16_lt _ _)] at hDirs
  have hCount : (s.space.group g).usedDirs = rd16 (s.desc g) 16 := by rw [group_of_lt hg]
  rw [Store.dropDir, readGroupDesc_ok hGood.fails, Space.dropDir, hCount]
  simp only
  split
  next => exact hDirs.ofScratch
  next => exact hScratch.comes.ofScratch

theorem releaseInode_ok (hFails : s.fails = []) (ino : Nat) (isDir : Bool) :
    s.releaseInode ino isDir = (let g := s.space.inodeGroup ino
      let s' := { s with gBlock := s.block (s.descBlock g) }.giveBack (rd32 (s.desc g) 4)
        (s.space.inodeBit ino) 14 16 g (s.desc g)
      if isDir then s'.dropDir g else s') := by
  simp only [releaseInode, readGroupDesc_ok hFails]
  rfl

theorem Good.releaseInode (hGood : s.Good) {ino : Nat} (isDir : Bool)
    (hg : s.space.inodeGroup ino < s.groupCount) :
    Comes s (s.releaseInode ino isDir) (s.space.releaseInode ino isDir) := by
  have hScratch := hGood.scratch (s.block (s.descBlock (s.space.inodeGroup ino)))
  have hGive := (hScratch.giveBack hg .inodes (s.space.inodeBit ino)).ofScratch
  have hDrop := hGive.good.dropDir (hGive.geo.groupCount ▸ hg)
  rw [hGive.space] at hDrop
  rw [releaseInode_ok hGood.fails, Space.releaseInode]
  cases isDir with
  | false => exact hGive
  | true => exact ⟨hDrop.good, hGive.geo.trans hDrop.geo, hDrop.space⟩

/-! ## Runs -/

/-- The counts are exact, on the disk as well as in memory. -/
structure Accounted (s : Store) : Prop where
  exact : s.space.Exact s.dir
  super : ∀ k, k < 1024 → s.block (1024 / s.blockSize) (1024 % s.blockSize + k) = s.sb k

/-- A filesystem to start from: the metadata blocks are apart, the sizes are those the format
allows, and the counts are exact. -/
structure Consistent (s : Store) : Prop extends Accounted s where
  layout : s.Layout
  sized : s.space.Sized

/-- What a step returns was free before it, and to free what is free changes nothing. -/
def Fair (s : Store) : SpaceEvent → Store × Nat → Prop
  | .allocBlock _, r => r.2 ≠ 0 → s.space.blockTaken r.2 = false
  | .allocInode _ _, r => r.2 ≠ 0 → s.space.inodeTaken r.2 = false
  | .freeBlock block _, r => s.space.blockTaken block = false → r.1.space = s.space
  | .release _ _, _ => True

/-- No transfer of the step fails. -/
def SoundTransfers (_ : Store) (e : SpaceEvent) : Prop := e.fails = []

theorem Consistent.good (h : s.Consistent) : { s with fails := [] }.Good :=
  ⟨{ h.layout with }, h.super, rfl⟩

/-- Where an operation comes to exact counts, the filesystem is consistent again. -/
theorem Comes.consistent (hComes : Comes s r a) (hSized : s.space.Sized) {dir : Nat → Bool}
    (hExact : a.Exact dir) : { r with dir := dir }.Consistent where
  exact := by
    change r.space.Exact dir
    rw [hComes.space]
    exact hExact
  super := hComes.good.super
  layout := { hComes.good.layout with }
  sized := by
    obtain ⟨hBlocks, hInodes, hAllBlocks, hAllInodes⟩ := hSized
    have hGeo := hComes.geo
    refine ⟨?_, ?_, ?_, ?_⟩
    · exact hGeo.blocksPerGroup ▸ hBlocks
    · exact hGeo.inodesPerGroup ▸ hInodes
    · exact hGeo.groupCount ▸ hGeo.blocksPerGroup ▸ hAllBlocks
    · exact hGeo.groupCount ▸ hGeo.inodesPerGroup ▸ hAllInodes

/-- The same when the directories are those there were. -/
theorem Comes.consistent_of_dir (hComes : Comes s r a) (hSized : s.space.Sized)
    (hExact : a.Exact s.dir) : r.Consistent := by
  rw [← hComes.geo.dir] at hExact
  exact hComes.consistent hSized hExact

/-- One step whose transfers succeed. -/
theorem Consistent.next (h : s.Consistent) {e : SpaceEvent} (hSound : SoundTransfers s e)
    {r : Store × Nat} (hNext : s.next e = some r) :
    r.1.Consistent ∧ Fair s e r := by
  have hGood := h.good
  have hSized : { s with fails := [] }.space.Sized := h.sized
  cases e with
  | allocBlock fails =>
    obtain rfl : fails = [] := hSound
    obtain rfl := some.inj hNext
    obtain ⟨hComes, hResult⟩ := hGood.allocBlockFrom s.groupCount 0 (Nat.zero_add _).le
    obtain ⟨hExact, hFree⟩ := h.exact.allocBlock h.sized
    have hEq : { s with fails := [] }.allocBlock.2 = s.space.allocBlock.2 := hResult
    rw [← hEq] at hFree
    exact ⟨hComes.consistent_of_dir hSized hExact, hFree⟩
  | allocInode isDir fails =>
    obtain rfl : fails = [] := hSound
    obtain rfl := some.inj hNext
    obtain ⟨hComes, hResult⟩ := hGood.allocInodeFrom isDir s.groupCount 0 (Nat.zero_add _).le
    obtain ⟨hExact, hFree⟩ := h.exact.allocInode h.sized isDir
    have hEq : ({ s with fails := [] }.allocInode isDir).2 = (s.space.allocInode isDir).2 := hResult
    rw [← hEq] at hFree hExact
    split at hExact
    next hZero =>
      rw [if_pos hZero]
      exact ⟨hComes.consistent_of_dir hSized hExact, hFree⟩
    next hNe =>
      rw [if_neg hNe]
      exact ⟨hComes.consistent hSized hExact, hFree⟩
  | freeBlock block fails =>
    obtain rfl : fails = [] := hSound
    obtain rfl := some.inj hNext
    have hComes := hGood.freeBlock block
    obtain ⟨hExact, hFree⟩ := h.exact.freeBlock h.sized block
    exact ⟨hComes.consistent_of_dir hSized hExact, fun hClear => hComes.space.trans (hFree hClear)⟩
  | release ino fails =>
    obtain rfl : fails = [] := hSound
    obtain ⟨⟨hPos, hLe⟩, rfl⟩ := guard_inv hNext
    have hGroup : s.space.inodeGroup ino < s.groupCount :=
      (Nat.div_lt_iff_lt_mul h.sized.inodes.1).mpr
        (Nat.lt_of_lt_of_le (Nat.sub_lt hPos Nat.one_pos) hLe)
    have hComes := hGood.releaseInode (s.dir ino) hGroup
    exact ⟨hComes.consistent hSized (h.exact.releaseInode h.sized hPos hLe), trivial⟩

/-- Free-space accounting is exact in every run whose transfers succeed: the counts of every group
and of the superblock are right in every state it reaches, nothing that was taken is returned, and
freeing a free block changes nothing. -/
theorem accounted_of_sound {s s' : Store} {es : List SpaceEvent} (hStart : s.Consistent)
    (hRun : Run (Restrict SoundTransfers Step) s es s') :
    s'.Accounted ∧ ∀ e r, SoundTransfers s' e → s'.next e = some r → Fair s' e r := by
  have hStep : ∀ t e t', t.Consistent → Restrict SoundTransfers Step t e t' → t'.Consistent := by
    rintro t e t' h ⟨hSound, hNext⟩
    obtain ⟨r, hResult, rfl⟩ := Option.map_eq_some_iff.mp hNext
    exact (h.next hSound hResult).1
  have hEnd := Run.invariant hStep hRun hStart
  exact ⟨hEnd.toAccounted, fun e r hSound hNext => (hEnd.next hSound hNext).2⟩

/-! ## A filesystem of one group -/

/-- A block that is zero but for the bytes given. -/
def fields (fs : List (Nat × UInt8)) : Block := fun k =>
  match fs.find? fun f => f.1 = k with
  | some f => f.2
  | none => 0

/-- The superblock of the small filesystem: four blocks and six inodes are free. -/
def smallSuper : Block := fields [(12, 4), (16, 6)]

/-- A filesystem of one group: blocks 1 to 8, of which the first four are the superblock, the
descriptor and the two bitmaps, and eight inodes, of which two are in use and inode 2 is a
directory. -/
def smallStore : Store where
  blockSize := 1024
  descSize := 32
  firstDataBlock := 1
  blocksPerGroup := 8
  inodesPerGroup := 8
  groupCount := 1
  block := fun b =>
    if b = 1 then smallSuper
    else if b = 2 then fields [(0, 3), (4, 4), (12, 4), (14, 6), (16, 1)]
    else if b = 3 then fields [(0, 15)]
    else if b = 4 then fields [(0, 3)]
    else fields []
  sb := smallSuper
  gBlock := fields []
  fails := []
  dir := fun i => i == 2

theorem consistent_smallStore : smallStore.Consistent where
  exact := by
    refine ⟨⟨?_, ?_⟩, ⟨?_, ?_⟩, ⟨?_, ?_⟩⟩
    · decide +kernel
    · decide +kernel
    · decide +kernel
    · decide +kernel
    · decide +kernel
    · intro g i hg hi
      obtain rfl : g = 0 := Nat.lt_one_iff.mp hg
      revert i
      decide +kernel
  super := fun k hk => by
    have hZero : 1024 % smallStore.blockSize + k = k := Nat.zero_add k
    rw [hZero]
    rfl
  layout := by
    have hOne : ∀ {g}, g < smallStore.groupCount → g = 0 := fun hg => Nat.lt_one_iff.mp hg
    refine ⟨by decide, by decide, rfl, by decide, fun hg hh _ => ?_, fun hg hh _ => ?_,
      fun hg hh => ?_, fun hg hh => ?_, fun hg => ?_⟩
    · rw [hOne hg, hOne hh]
    · rw [hOne hg, hOne hh]
    · rw [hOne hg, hOne hh]
      decide +kernel
    · rw [hOne hg, hOne hh]
      decide +kernel
    · rw [hOne hg]
      decide +kernel
  sized := ⟨by decide, by decide, by decide, by decide⟩

instance (s : Store) (e : SpaceEvent) : Decidable (SoundTransfers s e) :=
  inferInstanceAs (Decidable (e.fails = []))

/-- A block and an inode for a directory are taken and given back, the block twice. -/
def soundEvents : List SpaceEvent :=
  [.allocBlock [], .allocInode true [], .freeBlock 5 [], .freeBlock 5 [], .release 3 []]

theorem accounted_soundEvents :
    smallStore.Consistent ∧ ∃ s', Run (Restrict SoundTransfers Step) smallStore soundEvents s' ∧
      s'.Accounted ∧ ∀ e r, SoundTransfers s' e → s'.next e = some r → Fair s' e r := by
  obtain ⟨s', hRun, -⟩ : ∃ s', Run (Restrict SoundTransfers Step) smallStore soundEvents s' ∧ True :=
    Run.exists_of_guarded (fun _ _ _ hNext => hNext) (by decide +kernel)
  exact ⟨consistent_smallStore, s', hRun, accounted_of_sound consistent_smallStore hRun⟩

/-- `alloc_block` when the descriptor is read and the bitmap read and written, but the descriptor
cannot be read again to be updated. -/
def brokenEvents : List SpaceEvent := [.allocBlock [false, false, false, true]]

/-- The descriptor then still counts the block as free: the result of `write_group_desc` is not
looked at. -/
theorem not_accounted_brokenEvents :
    ¬ ∀ (s s' : Store) (es : List SpaceEvent), s.Consistent → Run Step s es s' →
      s'.Accounted ∧ ∀ e r, s'.next e = some r → Fair s' e r := by
  intro hAll
  have hRun : Run Step smallStore brokenEvents (brokenEvents.foldl
      (fun s e => ((s.next e).map Prod.fst).getD s) smallStore) :=
    Run.cons (by rfl) (.nil _)
  have hCount := (hAll _ _ _ consistent_smallStore hRun).1.exact.blocks.each 0 (by decide +kernel)
  revert hCount
  decide +kernel

end Store
end LeahOS.Vfsd
