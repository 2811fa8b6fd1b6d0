import LeahOS.Lib.Tally
import LeahOS.Vfsd.Block

/-!
# Free space (`alloc_block`, `alloc_inode`, `free_block`)

What the bitmaps, the group descriptors and the superblock say about free blocks and inodes, and
the operations that take and give them back, on these three alone. `Bitmaps` has the same
operations on the bytes of the disk and proves that they come to this.

A count is as wide as its field on the disk, and going below zero or past the width wraps.
`Exact` says that the counts are the numbers of clear bits, and the directory counts those of the
directories; with the format's limits on the size of a group nothing wraps then.
-/

namespace LeahOS.Vfsd
open Lib Function Nat

/-- One group: the counts of its descriptor, at 12, 14 and 16, and its two bitmaps. -/
structure Group where
  freeBlocks : Nat
  freeInodes : Nat
  usedDirs : Nat
  blockBits : Nat → Bool
  inodeBits : Nat → Bool

/-- The groups, and the counts of the superblock, at 12 and 16. -/
structure Space where
  firstDataBlock : Nat
  blocksPerGroup : Nat
  inodesPerGroup : Nat
  groupCount : Nat
  group : Nat → Group
  freeBlocks : Nat
  freeInodes : Nat

/-- Blocks and inodes are kept in the same way. -/
inductive Pool
  | blocks
  | inodes

/-- The bitmap of a group. -/
def Group.bits (x : Group) : Pool → Nat → Bool
  | .blocks => x.blockBits
  | .inodes => x.inodeBits

/-- The group with another bitmap. -/
def Group.withBits (x : Group) (pool : Pool) (bits : Nat → Bool) : Group :=
  match pool with
  | .blocks => { x with blockBits := bits }
  | .inodes => { x with inodeBits := bits }

namespace Space

def setGroup (s : Space) (g : Nat) (group : Group) : Space :=
  { s with group := update s.group g group }

/-- The bitmap and the count of a group change, and the count of the superblock. -/
def put (s : Space) (pool : Pool) (g : Nat) (bits : Nat → Bool) (count free : Nat) : Space :=
  match pool with
  | .blocks =>
    { s.setGroup g { s.group g with blockBits := bits, freeBlocks := count } with
      freeBlocks := free }
  | .inodes =>
    { s.setGroup g { s.group g with inodeBits := bits, freeInodes := count } with
      freeInodes := free }

/-- Take the block with this bit: the bitmap, the descriptor and the superblock. -/
def takeBlock (s : Space) (g bit : Nat) : Space :=
  { s.setGroup g { s.group g with
      blockBits := update (s.group g).blockBits bit true
      freeBlocks := predW 16 (s.group g).freeBlocks } with
    freeBlocks := predW 32 s.freeBlocks }

/-- Take the inode with this bit. -/
def takeInode (s : Space) (g bit : Nat) : Space :=
  { s.setGroup g { s.group g with
      inodeBits := update (s.group g).inodeBits bit true
      freeInodes := predW 16 (s.group g).freeInodes } with
    freeInodes := predW 32 s.freeInodes }

/-- Give a block back. -/
def giveBlock (s : Space) (g bit : Nat) : Space :=
  { s.setGroup g { s.group g with
      blockBits := update (s.group g).blockBits bit false
      freeBlocks := succW 16 (s.group g).freeBlocks } with
    freeBlocks := succW 32 s.freeBlocks }

/-- Give an inode back. -/
def giveInode (s : Space) (g bit : Nat) : Space :=
  { s.setGroup g { s.group g with
      inodeBits := update (s.group g).inodeBits bit false
      freeInodes := succW 16 (s.group g).freeInodes } with
    freeInodes := succW 32 s.freeInodes }

/-- Take the block or inode with this bit. -/
def take (s : Space) : Pool → Nat → Nat → Space
  | .blocks => s.takeBlock
  | .inodes => s.takeInode

/-- Give a block or an inode back. -/
def give (s : Space) : Pool → Nat → Nat → Space
  | .blocks => s.giveBlock
  | .inodes => s.giveInode

/-- The group holds one directory more. -/
def addDir (s : Space) (g : Nat) : Space :=
  s.setGroup g { s.group g with usedDirs := succW 16 (s.group g).usedDirs }

/-- The group holds one directory fewer. -/
def dropDir (s : Space) (g : Nat) : Space :=
  if 0 < (s.group g).usedDirs then
    s.setGroup g { s.group g with usedDirs := predW 16 (s.group g).usedDirs }
  else s

/-- `alloc_block`, over `n` groups from `g` on; zero is failure. -/
def allocBlockFrom (s : Space) : Nat → Nat → Space × Nat
  | 0, _ => (s, 0)
  | n + 1, g =>
    if (s.group g).freeBlocks = 0 then allocBlockFrom s n (g + 1)
    else
      match firstClear (s.group g).blockBits s.blocksPerGroup with
      | none => allocBlockFrom s n (g + 1)
      | some bit => (s.takeBlock g bit, s.firstDataBlock + g * s.blocksPerGroup + bit)

def allocBlock (s : Space) : Space × Nat := s.allocBlockFrom s.groupCount 0

/-- `alloc_inode`, over `n` groups from `g` on. -/
def allocInodeFrom (s : Space) (isDir : Bool) : Nat → Nat → Space × Nat
  | 0, _ => (s, 0)
  | n + 1, g =>
    if (s.group g).freeInodes = 0 then allocInodeFrom s isDir n (g + 1)
    else
      match firstClear (s.group g).inodeBits s.inodesPerGroup with
      | none => allocInodeFrom s isDir n (g + 1)
      | some bit =>
        let s' := s.takeInode g bit
        (if isDir then s'.addDir g else s', g * s.inodesPerGroup + (bit + 1))

def allocInode (s : Space) (isDir : Bool) : Space × Nat := s.allocInodeFrom isDir s.groupCount 0

/-- The group of a block, as `free_block` computes it. -/
def blockGroup (s : Space) (block : Nat) : Nat :=
  (block - s.firstDataBlock) / s.blocksPerGroup % 2 ^ 32

/-- The bit of a block in the bitmap of its group. -/
def blockBit (s : Space) (block : Nat) : Nat := (block - s.firstDataBlock) % s.blocksPerGroup

/-- The block is marked in its bitmap. -/
def blockTaken (s : Space) (block : Nat) : Bool :=
  (s.group (s.blockGroup block)).blockBits (s.blockBit block)

def freeBlock (s : Space) (block : Nat) : Space :=
  if block < s.firstDataBlock ∨ s.groupCount ≤ s.blockGroup block then s
  else if s.blockTaken block then s.giveBlock (s.blockGroup block) (s.blockBit block)
  else s

/-- The group of an inode. -/
def inodeGroup (s : Space) (ino : Nat) : Nat := (ino - 1) / s.inodesPerGroup

/-- The bit of an inode in the bitmap of its group. -/
def inodeBit (s : Space) (ino : Nat) : Nat := (ino - 1) % s.inodesPerGroup

/-- The inode is marked in its bitmap. -/
def inodeTaken (s : Space) (ino : Nat) : Bool :=
  (s.group (s.inodeGroup ino)).inodeBits (s.inodeBit ino)

/-- The release of an inode in `VFS_UNLINK`: the bit and the counts, and for a directory the
count of its group. -/
def releaseInode (s : Space) (ino : Nat) (isDir : Bool) : Space :=
  let s' := if s.inodeTaken ino then s.giveInode (s.inodeGroup ino) (s.inodeBit ino) else s
  if isDir then s'.dropDir (s.inodeGroup ino) else s'

/-! ## Exact counts -/

/-- The format's limits: a group's blocks and inodes can be counted in 16 bits, and all of them in
32. -/
structure Sized (s : Space) : Prop where
  blocks : 0 < s.blocksPerGroup ∧ s.blocksPerGroup < 2 ^ 16
  inodes : 0 < s.inodesPerGroup ∧ s.inodesPerGroup < 2 ^ 16
  allBlocks : s.groupCount * s.blocksPerGroup < 2 ^ 32
  allInodes : s.groupCount * s.inodesPerGroup < 2 ^ 32

/-- The directory counts of `m` groups of `n` inodes: `dir` says which inodes are directories, and
these are marked. -/
structure DirTally (m n : Nat) (bits : Nat → Nat → Bool) (count : Nat → Nat) (dir : Nat → Bool) :
    Prop where
  each : ∀ g, g < m → count g = clears (fun i => !dir (g * n + (i + 1))) n
  marked : ∀ g i, g < m → i < n → dir (g * n + (i + 1)) = true → bits g i = true

/-- The counts are exact. -/
structure Exact (s : Space) (dir : Nat → Bool) : Prop where
  blocks : Tally s.groupCount s.blocksPerGroup (Group.blockBits ∘ s.group)
    (Group.freeBlocks ∘ s.group) s.freeBlocks
  inodes : Tally s.groupCount s.inodesPerGroup (Group.inodeBits ∘ s.group)
    (Group.freeInodes ∘ s.group) s.freeInodes
  dirs : DirTally s.groupCount s.inodesPerGroup (Group.inodeBits ∘ s.group)
    (Group.usedDirs ∘ s.group) dir

/-- A field of a group that an update of the group leaves alone. -/
theorem update_comp_self {α : Type*} (f : Group → α) (group : Nat → Group) (g : Nat) :
    update (f ∘ group) g (f (group g)) = f ∘ group :=
  update_eq_self g (f ∘ group)

section DirTally
variable {m n : Nat} {bits : Nat → Nat → Bool} {count : Nat → Nat} {dir : Nat → Bool}
  {bit g i : Nat}

/-- The directories of a group when one inode changes; inodes are numbered from one. -/
theorem not_dir_update (dir : Nat → Bool) (hBit : bit < n) (b : Bool) (h : Nat) (hi : i < n) :
    (!update dir (g * n + (bit + 1)) b (h * n + (i + 1))) =
      if h = g then update (fun i => !dir (h * n + (i + 1))) bit (!b) i
      else !dir (h * n + (i + 1)) := by
  by_cases hSame : h * n + (i + 1) = g * n + (bit + 1)
  · obtain ⟨rfl, rfl⟩ := place_inj hi hBit (Nat.succ.inj hSame)
    simp
  · rw [update_of_ne hSame]
    split
    next hEq =>
      subst hEq
      have hNe : i ≠ bit := by
        rintro rfl
        exact hSame rfl
      rw [update_of_ne hNe]
    next => rfl

/-- The directory counts follow a change of one inode. -/
theorem DirTally.change (h : DirTally m n bits count dir) {c : Nat} (hBit : bit < n) (b : Bool)
    {v : Bool} (hCount : c = clears (update (fun i => !dir (g * n + (i + 1))) bit (!b)) n)
    (hMarked : b = true → v = true) :
    DirTally m n (update bits g (update (bits g) bit v)) (update count g c)
      (update dir (g * n + (bit + 1)) b) := by
  refine ⟨fun j hj => ?_, fun j i hj hi hDir => ?_⟩
  · rw [clears_congr fun i hi => not_dir_update dir hBit b j hi]
    by_cases hEq : j = g
    · subst hEq
      simpa using hCount
    · simpa [hEq] using h.each j hj
  · have hNot := not_dir_update (n := n) dir (g := g) hBit b j hi
    rw [hDir] at hNot
    by_cases hEq : j = g
    · subst hEq
      rw [update_self]
      by_cases hI : i = bit
      · rw [hI, update_self]
        exact hMarked (by simpa [hI] using hNot)
      · rw [update_of_ne hI]
        exact h.marked j i hj hi (by simpa [hI] using hNot)
    · rw [update_of_ne hEq]
      exact h.marked j i hj hi (by simpa [hEq] using hNot)

/-- A file or directory is made in a free inode. -/
theorem DirTally.take (h : DirTally m n bits count dir) (hn : n < 2 ^ 16) (hg : g < m)
    (hBit : bit < n) (hClear : bits g bit = false) (isDir : Bool) :
    DirTally m n (update bits g (update (bits g) bit true))
      (update count g (if isDir then succW 16 (count g) else count g))
      (update dir (g * n + (bit + 1)) isDir) := by
  have hFile : dir (g * n + (bit + 1)) = false := by
    rw [Bool.eq_false_iff]
    intro hDir
    rw [h.marked g bit hg hBit hDir] at hClear
    cases hClear
  refine h.change hBit isDir ?_ fun _ => rfl
  cases isDir with
  | false =>
    rw [if_neg (by simp), h.each g hg]
    congr 1
    exact (update_eq_self_iff.mpr (by simp [hFile])).symm
  | true =>
    have hMore := clears_clear (f := fun i => !dir (g * n + (i + 1))) hBit (by simp [hFile])
    have hLe := clears_le (update (fun i => !dir (g * n + (i + 1))) bit false) n
    rw [if_pos rfl, h.each g hg]
    exact (succW_of_lt (by omega)).trans hMore.symm

/-- A file or directory is removed, and its inode given back. -/
theorem DirTally.give (h : DirTally m n bits count dir) (hn : n < 2 ^ 16) (hg : g < m)
    (hBit : bit < n) {isDir : Bool} (hIs : dir (g * n + (bit + 1)) = isDir) :
    (isDir = true → 0 < count g) ∧ DirTally m n (update bits g (update (bits g) bit false))
      (update count g (if isDir then predW 16 (count g) else count g))
      (update dir (g * n + (bit + 1)) false) := by
  have hLe := clears_le (fun i => !dir (g * n + (i + 1))) n
  have hFewer : isDir = true →
      clears (update (fun i => !dir (g * n + (i + 1))) bit true) n + 1 = count g := by
    rintro rfl
    rw [h.each g hg]
    exact clears_set hBit (by simp [hIs])
  refine ⟨fun hDir => ?_, h.change hBit false ?_ nofun⟩
  · have hOne := hFewer hDir
    omega
  · cases isDir with
    | false =>
      rw [if_neg (by simp), h.each g hg]
      congr 1
      exact (update_eq_self_iff.mpr (by simp [hIs])).symm
    | true =>
      have hCount := h.each g hg
      rw [if_pos rfl, ← hFewer rfl]
      exact predW_succ (by have hOne := hFewer rfl; omega)

end DirTally

variable {s : Space} {dir : Nat → Bool} {bits : Nat → Bool} {bit count free g k p : Nat}
  {isDir : Bool} {s' : Space}

/-- New blocks of a group, counted. -/
theorem Exact.ofBlocks (h : s.Exact dir) (hBlocks : Tally s.groupCount s.blocksPerGroup
      (update (Group.blockBits ∘ s.group) g bits)
      (update (Group.freeBlocks ∘ s.group) g count) free) :
    (s.put .blocks g bits count free).Exact dir where
  blocks := by
    simp only [put, setGroup, comp_update]
    exact hBlocks
  inodes := by
    simpa only [put, setGroup, comp_update, update_comp_self] using h.inodes
  dirs := by
    simpa only [put, setGroup, comp_update, update_comp_self] using h.dirs

/-- New inodes of a group, counted, and its directories. -/
theorem Exact.ofInodes (h : s.Exact dir) {dirs : Nat} {dir' : Nat → Bool}
    (hInodes : Tally s.groupCount s.inodesPerGroup
      (update (Group.inodeBits ∘ s.group) g bits)
      (update (Group.freeInodes ∘ s.group) g count) free)
    (hDirs : DirTally s.groupCount s.inodesPerGroup
      (update (Group.inodeBits ∘ s.group) g bits)
      (update (Group.usedDirs ∘ s.group) g dirs) dir') :
    ({ s.setGroup g { s.group g with
      inodeBits := bits, freeInodes := count, usedDirs := dirs } with freeInodes := free }).Exact
        dir' where
  blocks := by
    simpa only [setGroup, comp_update, update_comp_self] using h.blocks
  inodes := by
    simp only [setGroup, comp_update]
    exact hInodes
  dirs := by
    simp only [setGroup, comp_update]
    exact hDirs

/-- Taking a free block. -/
theorem Exact.takeBlock (h : s.Exact dir) (hSized : s.Sized) (hg : g < s.groupCount)
    (hBit : bit < s.blocksPerGroup) (hClear : (s.group g).blockBits bit = false) :
    (s.takeBlock g bit).Exact dir :=
  h.ofBlocks (h.blocks.take hSized.blocks.2 hSized.allBlocks hg hBit hClear)

/-- Giving a taken block back. -/
theorem Exact.giveBlock (h : s.Exact dir) (hSized : s.Sized) (hg : g < s.groupCount)
    (hBit : bit < s.blocksPerGroup) (hSet : (s.group g).blockBits bit = true) :
    (s.giveBlock g bit).Exact dir :=
  h.ofBlocks (h.blocks.give hSized.blocks.2 hSized.allBlocks hg hBit hSet)

/-- Taking a free inode for a file or a directory. -/
theorem Exact.takeInode (h : s.Exact dir) (hSized : s.Sized) (hg : g < s.groupCount)
    (hBit : bit < s.inodesPerGroup) (hClear : (s.group g).inodeBits bit = false) (isDir : Bool) :
    (if isDir then (s.takeInode g bit).addDir g else s.takeInode g bit).Exact
      (update dir (g * s.inodesPerGroup + (bit + 1)) isDir) := by
  have hExact := h.ofInodes (h.inodes.take hSized.inodes.2 hSized.allInodes hg hBit hClear)
    (h.dirs.take hSized.inodes.2 hg hBit hClear isDir)
  cases isDir with
  | false => exact hExact
  | true =>
    simp only [Space.takeInode, addDir, setGroup, update_idem, update_self]
    exact hExact

/-- Giving the inode of a file or a directory back. -/
theorem Exact.giveInode (h : s.Exact dir) (hSized : s.Sized) (hg : g < s.groupCount)
    (hBit : bit < s.inodesPerGroup) (hSet : (s.group g).inodeBits bit = true)
    (hIs : dir (g * s.inodesPerGroup + (bit + 1)) = isDir) :
    (if isDir then (s.giveInode g bit).dropDir g else s.giveInode g bit).Exact
      (update dir (g * s.inodesPerGroup + (bit + 1)) false) := by
  obtain ⟨hPos, hDirs⟩ := h.dirs.give hSized.inodes.2 hg hBit hIs
  have hExact := h.ofInodes (h.inodes.give hSized.inodes.2 hSized.allInodes hg hBit hSet) hDirs
  cases isDir with
  | false => exact hExact
  | true =>
    have hCount : 0 < ((s.giveInode g bit).group g).usedDirs := by
      simpa [Space.giveInode, setGroup] using hPos rfl
    rw [if_pos rfl, dropDir, if_pos hCount]
    simp only [Space.giveInode, setGroup, update_idem, update_self]
    exact hExact

/-! ## The operations -/

/-- Where `alloc_block` finds a block. -/
theorem allocBlockFrom_cases (s : Space) (n g : Nat) (hEnd : g + n ≤ s.groupCount) :
    s.allocBlockFrom n g = (s, 0) ∨
      ∃ h bit, h < s.groupCount ∧ bit < s.blocksPerGroup ∧ (s.group h).blockBits bit = false ∧
        s.allocBlockFrom n g =
          (s.takeBlock h bit, s.firstDataBlock + h * s.blocksPerGroup + bit) := by
  induction n generalizing g with
  | zero => exact .inl rfl
  | succ n ih =>
    rw [allocBlockFrom]
    split
    next => exact ih (g + 1) (by omega)
    next =>
      split
      next => exact ih (g + 1) (by omega)
      next bit hFirst =>
        obtain ⟨hBit, hClear⟩ := firstClear_some hFirst
        exact .inr ⟨g, bit, by omega, hBit, hClear, rfl⟩

theorem allocInodeFrom_cases (s : Space) (isDir : Bool) (n g : Nat) (hEnd : g + n ≤ s.groupCount) :
    s.allocInodeFrom isDir n g = (s, 0) ∨
      ∃ h bit, h < s.groupCount ∧ bit < s.inodesPerGroup ∧ (s.group h).inodeBits bit = false ∧
        s.allocInodeFrom isDir n g =
          (if isDir then (s.takeInode h bit).addDir h else s.takeInode h bit,
            h * s.inodesPerGroup + (bit + 1)) := by
  induction n generalizing g with
  | zero => exact .inl rfl
  | succ n ih =>
    rw [allocInodeFrom]
    split
    next => exact ih (g + 1) (by omega)
    next =>
      split
      next => exact ih (g + 1) (by omega)
      next bit hFirst =>
        obtain ⟨hBit, hClear⟩ := firstClear_some hFirst
        exact .inr ⟨g, bit, by omega, hBit, hClear, rfl⟩

/-- The place of a block in its group. -/
theorem blockGroup_eq (hSized : s.Sized) (hg : g < s.groupCount) (hBit : bit < s.blocksPerGroup) :
    s.blockGroup (s.firstDataBlock + g * s.blocksPerGroup + bit) = g ∧
      s.blockBit (s.firstDataBlock + g * s.blocksPerGroup + bit) = bit := by
  have hRel : s.firstDataBlock + g * s.blocksPerGroup + bit - s.firstDataBlock =
      s.blocksPerGroup * g + bit := by
    rw [Nat.add_assoc, Nat.add_sub_cancel_left, Nat.mul_comm]
  have hLt : g < 2 ^ 32 := by
    have hAll := hSized.allBlocks
    have hPos := hSized.blocks.1
    calc g < s.groupCount := hg
      _ = s.groupCount * 1 := (Nat.mul_one _).symm
      _ ≤ s.groupCount * s.blocksPerGroup := Nat.mul_le_mul_left _ hPos
      _ < 2 ^ 32 := hAll
  unfold blockGroup blockBit
  rw [hRel, mul_add_div hSized.blocks.1, mul_add_mod, div_eq_of_lt hBit, Nat.add_zero]
  exact ⟨mod_eq_of_lt hLt, mod_eq_of_lt hBit⟩

/-- The place of an inode in its group. -/
theorem inodeGroup_eq (hBit : bit < s.inodesPerGroup) :
    s.inodeGroup (g * s.inodesPerGroup + (bit + 1)) = g ∧
      s.inodeBit (g * s.inodesPerGroup + (bit + 1)) = bit := by
  have hRel : g * s.inodesPerGroup + (bit + 1) - 1 = s.inodesPerGroup * g + bit := by
    rw [Nat.mul_comm]
    omega
  unfold inodeGroup inodeBit
  rw [hRel, mul_add_div (by omega), mul_add_mod, div_eq_of_lt hBit, Nat.add_zero]
  exact ⟨rfl, mod_eq_of_lt hBit⟩

/-- `alloc_block` keeps the counts exact and returns a block that was free. -/
theorem Exact.allocBlock (h : s.Exact dir) (hSized : s.Sized) :
    s.allocBlock.1.Exact dir ∧ (s.allocBlock.2 ≠ 0 → s.blockTaken s.allocBlock.2 = false) := by
  unfold Space.allocBlock
  rcases s.allocBlockFrom_cases s.groupCount 0 (by omega) with
    hNone | ⟨g, bit, hg, hBit, hClear, hEq⟩
  · rw [hNone]
    exact ⟨h, fun hNe => absurd rfl hNe⟩
  · rw [hEq]
    refine ⟨h.takeBlock hSized hg hBit hClear, fun _ => ?_⟩
    obtain ⟨hGroup, hAt⟩ := blockGroup_eq hSized hg hBit
    unfold blockTaken
    rw [hGroup, hAt]
    exact hClear

/-- `alloc_inode` keeps the counts exact and returns an inode that was free. -/
theorem Exact.allocInode (h : s.Exact dir) (hSized : s.Sized) (isDir : Bool) :
    (s.allocInode isDir).1.Exact (if (s.allocInode isDir).2 = 0 then dir
      else update dir (s.allocInode isDir).2 isDir) ∧
    ((s.allocInode isDir).2 ≠ 0 → s.inodeTaken (s.allocInode isDir).2 = false) := by
  unfold Space.allocInode
  rcases s.allocInodeFrom_cases isDir s.groupCount 0 (by omega) with
    hNone | ⟨g, bit, hg, hBit, hClear, hEq⟩
  · rw [hNone]
    exact ⟨by simpa using h, fun hNe => absurd rfl hNe⟩
  · rw [hEq]
    refine ⟨?_, fun _ => ?_⟩
    · have hNumber : g * s.inodesPerGroup + (bit + 1) ≠ 0 := by omega
      simpa only [if_neg hNumber] using h.takeInode hSized hg hBit hClear isDir
    · obtain ⟨hGroup, hAt⟩ := inodeGroup_eq (s := s) (g := g) hBit
      unfold inodeTaken
      rw [hGroup, hAt]
      exact hClear

/-- `free_block` keeps the counts exact, and a free block stays as it is. -/
theorem Exact.freeBlock (h : s.Exact dir) (hSized : s.Sized) (block : Nat) :
    (s.freeBlock block).Exact dir ∧ (s.blockTaken block = false → s.freeBlock block = s) := by
  unfold Space.freeBlock
  split
  next => exact ⟨h, fun _ => rfl⟩
  next hIn =>
    push Not at hIn
    split
    next hTaken =>
      refine ⟨h.giveBlock hSized hIn.2 (mod_lt _ hSized.blocks.1) hTaken, fun hFree => ?_⟩
      rw [hTaken] at hFree
      cases hFree
    next => exact ⟨h, fun _ => rfl⟩

/-- The release of a marked inode keeps the counts exact. -/
theorem Exact.releaseInode (h : s.Exact dir) (hSized : s.Sized) {ino : Nat} (hPos : 0 < ino)
    (hLe : ino ≤ s.groupCount * s.inodesPerGroup) :
    (s.releaseInode ino (dir ino)).Exact (update dir ino false) := by
  have hBit : s.inodeBit ino < s.inodesPerGroup := mod_lt _ hSized.inodes.1
  have hGroup : s.inodeGroup ino < s.groupCount := by
    refine (Nat.div_lt_iff_lt_mul hSized.inodes.1).mpr ?_
    omega
  have hNumber : s.inodeGroup ino * s.inodesPerGroup + (s.inodeBit ino + 1) = ino := by
    have hDiv := div_add_mod (ino - 1) s.inodesPerGroup
    unfold inodeGroup inodeBit
    rw [Nat.mul_comm]
    omega
  have hIs : dir (s.inodeGroup ino * s.inodesPerGroup + (s.inodeBit ino + 1)) = dir ino := by
    rw [hNumber]
  unfold Space.releaseInode
  by_cases hTaken : s.inodeTaken ino = true
  · have hGive := h.giveInode hSized hGroup hBit hTaken hIs
    rw [hNumber] at hGive
    simpa only [hTaken, if_true] using hGive
  · have hFile : dir ino = false := by
      rw [Bool.eq_false_iff]
      intro hDir
      rw [← hIs] at hDir
      exact hTaken (h.dirs.marked _ _ hGroup hBit hDir)
    rw [hFile, update_eq_self_iff.mpr hFile.symm]
    simpa [hTaken] using h

/-! ## Room -/

/-- Block 0, which stands for failure, is not free. -/
def ZeroTaken (s : Space) : Prop := 0 < s.firstDataBlock ∨ (s.group 0).blockBits 0 = true

instance (s : Space) : Decidable s.ZeroTaken := inferInstanceAs (Decidable (_ ∨ _))

/-- What `alloc_block` does where block 0 is not free. -/
theorem allocBlock_cases (hZero : s.ZeroTaken) :
    s.allocBlock = (s, 0) ∨
      ∃ h bit p, h < s.groupCount ∧ bit < s.blocksPerGroup ∧ (s.group h).blockBits bit = false ∧
        s.firstDataBlock + h * s.blocksPerGroup + bit = p + 1 ∧
        s.allocBlock = (s.takeBlock h bit, p + 1) := by
  rcases s.allocBlockFrom_cases s.groupCount 0 (by omega) with
    hNone | ⟨h, bit, hh, hBit, hClear, hEq⟩
  · exact .inl hNone
  · have hPos : 0 < s.firstDataBlock + h * s.blocksPerGroup + bit := by
      by_contra hNot
      have hMul : h * s.blocksPerGroup = 0 := by omega
      have hGroup : h = 0 := by
        rcases Nat.mul_eq_zero.mp hMul with hEq | hEq
        · exact hEq
        · omega
      obtain rfl : bit = 0 := by omega
      subst hGroup
      rcases hZero with hPos | hSet
      · omega
      · rw [hSet] at hClear
        cases hClear
    obtain ⟨p, hp⟩ := exists_eq_succ_of_ne_zero hPos.ne'
    rw [hp] at hEq
    exact .inr ⟨h, bit, p, hh, hBit, hClear, hp, hEq⟩

/-- `alloc_block` changes nothing when it finds no block. -/
theorem allocBlock_zero (hZero : s.ZeroTaken) (hNone : s.allocBlock.2 = 0) :
    s.allocBlock = (s, 0) := by
  rcases allocBlock_cases hZero with hEq | ⟨h, bit, p, -, -, -, -, hFound⟩
  · exact hEq
  · rw [hFound] at hNone
    cases hNone

theorem inodeBits_allocBlock (s : Space) (g : Nat) :
    (s.allocBlock.1.group g).inodeBits = (s.group g).inodeBits := by
  rcases s.allocBlockFrom_cases s.groupCount 0 (by omega) with hEq | ⟨h, bit, -, -, -, hEq⟩
  · rw [allocBlock, hEq]
  · rw [allocBlock, hEq]
    by_cases hGroup : g = h
    · subst hGroup
      simp [takeBlock, setGroup]
    · simp [takeBlock, setGroup, hGroup]

/-- The bit of a block is set. -/
def Marked (s : Space) (p : Nat) : Prop :=
  ∃ g bit, g < s.groupCount ∧ bit < s.blocksPerGroup ∧
    p = s.firstDataBlock + g * s.blocksPerGroup + bit ∧ (s.group g).blockBits bit = true

theorem allocBlock_not_marked (hZero : s.ZeroTaken) (hAlloc : s.allocBlock = (s', p + 1)) :
    ¬ s.Marked (p + 1) := by
  rintro ⟨g, bit, hg, hBit, hEq, hSet⟩
  rcases allocBlock_cases hZero with hNone | ⟨h, bit', q, hh, hBit', hClear, hNum, hFound⟩
  · rw [hNone] at hAlloc
    cases hAlloc
  · rw [hFound] at hAlloc
    obtain ⟨-, rfl⟩ : _ ∧ q = p := by simpa using hAlloc
    obtain ⟨rfl, rfl⟩ := place_inj hBit hBit'
      (show g * s.blocksPerGroup + bit = h * s.blocksPerGroup + bit' by omega)
    rw [hSet] at hClear
    cases hClear

theorem ZeroTaken.takeBlock (hZero : s.ZeroTaken) (h bit : Nat) : (s.takeBlock h bit).ZeroTaken := by
  refine hZero.imp id fun hSet => ?_
  simp only [Space.takeBlock, setGroup]
  by_cases hEq : 0 = h
  · subst hEq
    by_cases hBit : 0 = bit
    · simp [hBit]
    · simpa [update_of_ne hBit] using hSet
  · rw [update_of_ne hEq]
    exact hSet

/-- What is known of the blocks is the same. -/
structure SameBlocks (s s' : Space) : Prop where
  firstDataBlock : s'.firstDataBlock = s.firstDataBlock
  blocksPerGroup : s'.blocksPerGroup = s.blocksPerGroup
  groupCount : s'.groupCount = s.groupCount
  bits : ∀ g, (s'.group g).blockBits = (s.group g).blockBits
  count : ∀ g, (s'.group g).freeBlocks = (s.group g).freeBlocks

theorem SameBlocks.zeroTaken (h : SameBlocks s s') (hZero : s.ZeroTaken) :
    s'.ZeroTaken := by
  unfold ZeroTaken
  rw [h.firstDataBlock, h.bits]
  exact hZero

theorem SameBlocks.marked (h : SameBlocks s s') (hMarked : s.Marked p) :
    s'.Marked p := by
  obtain ⟨g, bit, hg, hBit, hEq, hSet⟩ := hMarked
  refine ⟨g, bit, h.groupCount ▸ hg, h.blocksPerGroup ▸ hBit, ?_, ?_⟩
  · rw [h.firstDataBlock, h.blocksPerGroup]
    exact hEq
  · rw [h.bits]
    exact hSet

/-- Which block `alloc_block` finds depends on the blocks only. -/
theorem SameBlocks.allocBlock (h : SameBlocks s s') : s'.allocBlock.2 = s.allocBlock.2 ∧
    SameBlocks s.allocBlock.1 s'.allocBlock.1 := by
  have hFrom : ∀ n g, (s'.allocBlockFrom n g).2 = (s.allocBlockFrom n g).2 ∧
      SameBlocks (s.allocBlockFrom n g).1 (s'.allocBlockFrom n g).1 := by
    intro n
    induction n with
    | zero => exact fun _ => ⟨rfl, h⟩
    | succ n ih =>
      intro g
      unfold allocBlockFrom
      rw [h.count, h.bits, h.blocksPerGroup, h.firstDataBlock]
      split
      next => exact ih (g + 1)
      next =>
        split
        next => exact ih (g + 1)
        next bit _ =>
          refine ⟨rfl, h.firstDataBlock, h.blocksPerGroup, h.groupCount, fun k => ?_, fun k => ?_⟩
          · by_cases hEq : k = g
            · subst hEq
              simp [takeBlock, setGroup, h.bits]
            · simp [takeBlock, setGroup, hEq, h.bits]
          · by_cases hEq : k = g
            · subst hEq
              simp [takeBlock, setGroup, h.count]
            · simp [takeBlock, setGroup, hEq, h.count]
  unfold Space.allocBlock
  rw [h.groupCount]
  exact hFrom s.groupCount 0

theorem sameBlocks_setGroup (s : Space) (g : Nat) {x : Group}
    (hBits : x.blockBits = (s.group g).blockBits) (hCount : x.freeBlocks = (s.group g).freeBlocks)
    (free : Nat) : SameBlocks s { s.setGroup g x with freeInodes := free } := by
  refine ⟨rfl, rfl, rfl, fun h => ?_, fun h => ?_⟩
  · by_cases hEq : h = g
    · subst hEq
      simpa [setGroup] using hBits
    · simp [setGroup, hEq]
  · by_cases hEq : h = g
    · subst hEq
      simpa [setGroup] using hCount
    · simp [setGroup, hEq]

theorem SameBlocks.trans {t u : Space} (h : SameBlocks s t) (h' : SameBlocks t u) :
    SameBlocks s u :=
  ⟨h'.1.trans h.1, h'.2.trans h.2, h'.3.trans h.3, fun g => (h'.4 g).trans (h.4 g),
    fun g => (h'.5 g).trans (h.5 g)⟩

/-- `alloc_inode` leaves the blocks alone. -/
theorem sameBlocks_allocInode (s : Space) (isDir : Bool) : SameBlocks s (s.allocInode isDir).1 := by
  rcases s.allocInodeFrom_cases isDir s.groupCount 0 (by omega) with hEq | ⟨g, bit, -, -, -, hEq⟩
  · rw [allocInode, hEq]
    exact ⟨rfl, rfl, rfl, fun _ => rfl, fun _ => rfl⟩
  · have hTake : SameBlocks s (s.takeInode g bit) := by
      refine s.sameBlocks_setGroup g ?_ ?_ _
      · rfl
      · rfl
    have hDir : SameBlocks (s.takeInode g bit) ((s.takeInode g bit).addDir g) := by
      refine (s.takeInode g bit).sameBlocks_setGroup g ?_ ?_ _
      · rfl
      · rfl
    rw [allocInode, hEq]
    cases isDir with
    | false => exact hTake
    | true => exact hTake.trans hDir

/-- `alloc_inode` changes nothing when it finds no inode. -/
theorem allocInode_zero (hNone : (s.allocInode isDir).2 = 0) :
    s.allocInode isDir = (s, 0) := by
  rcases s.allocInodeFrom_cases isDir s.groupCount 0 (by omega) with hEq | ⟨g, bit, -, -, -, hEq⟩
  · exact hEq
  · rw [allocInode, hEq] at hNone
    simp at hNone

/-- The inode `alloc_inode` finds was free and is not any more. -/
theorem allocInode_takes (hSome : (s.allocInode isDir).2 ≠ 0) : ∃ g bit,
    (s.group g).inodeBits bit = false ∧ ((s.allocInode isDir).1.group g).inodeBits bit = true := by
  rcases s.allocInodeFrom_cases isDir s.groupCount 0 (by omega) with hEq | ⟨g, bit, -, -, hClear, hEq⟩
  · rw [allocInode, hEq] at hSome
    exact absurd rfl hSome
  · refine ⟨g, bit, hClear, ?_⟩
    rw [allocInode, hEq]
    cases isDir with
    | false => simp [takeInode, setGroup]
    | true => simp [takeInode, addDir, setGroup]

end Space
end LeahOS.Vfsd
