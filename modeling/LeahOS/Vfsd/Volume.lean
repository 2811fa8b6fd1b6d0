import LeahOS.Vfsd.Dir
import LeahOS.Vfsd.Extents
import LeahOS.Vfsd.Space

/-!
# One filesystem

`Vol` is a mounted filesystem as the handlers see it when the block layer works: the bitmaps and
counts as `Space` has them, the inode records as bytes, by number, and the other blocks as bytes,
by block number. Every transfer succeeds, so the branches for a block that cannot be read or
written are not here; nor is what lies behind the end of a block in `g_block`, which a record that
claims a longer name than it has room for would show.

Directories and index blocks are bytes, so any inode can be searched as if it were a directory.

The block layer itself is `Server`, the open batch and the journal, and `Layer`, which has the
block cache too; `Layer.readBlock_toServer` relates the two. `data` and `raw` are what `read_block`
returns there: the block written last, the ghost `last` of `Layer`, and after a mount the blocks
of an atomic store, as `CrashAtomic` says.
-/

namespace LeahOS.Vfsd
open Lib Function List Option

/-- A mounted filesystem. -/
structure Vol where
  blockSize : Nat
  space : Space
  raw : Nat → Block
  data : Nat → Block

/-! ## Inodes -/

def modeKind (mode : Nat) : Nat := mode / 2 ^ 12 % 2 ^ 4 * 2 ^ 12

def modeDir : Nat := 0x4000
def modeLink : Nat := 0xA000
def modeFile : Nat := 0x8000
def modeFifo : Nat := 0x1000
def modeChr : Nat := 0x2000
def modeBlk : Nat := 0x6000

/-- The fields of an inode record, as `read_inode` takes them out. -/
def inodeOf (r : Block) : Inode where
  mode := rd16 r 0
  uid := rd16 r 2
  gid := rd16 r 24
  size := rd32 r 4 + rd32 r 108 * 2 ^ 32
  atime := rd32 r 8
  ctime := rd32 r 12
  mtime := rd32 r 16
  block := fun k => if k < 60 then r (40 + k) else 0

/-- `memcpy(raw + 40, in->block, 60)`. -/
def putRoot (r root : Block) : Block := fun k => if 40 ≤ k ∧ k < 100 then root (k - 40) else r k

/-- The inode record `write_inode` writes over `r`. -/
def recordOf (bs : Nat) (r : Block) (i : Inode) (links : Nat) : Block :=
  let r := wr16w (wr16w (wr16w r 0 i.mode) 2 i.uid) 24 i.gid
  let r := wr32w (wr32w r 4 i.size) 108 (i.size / 2 ^ 32)
  let r := wr16w r 26 links
  let r := wr32w r 28 ((i.size + bs - 1) % 2 ^ 64 / bs % 2 ^ 32 * (bs / 512))
  let r := wr32w r 32 (rd32 r 32 ||| 0x80000)
  let r := wr32w (wr32w (wr32w r 8 i.atime) 12 i.ctime) 16 i.mtime
  putRoot r i.block

/-- What `read_inode` and `inode_links` read back after `write_inode`. -/
structure ReadBack (r : Block) (i : Inode) (links : Nat) : Prop where
  mode : rd16 r 0 = i.mode % 2 ^ 16
  uid : rd16 r 2 = i.uid % 2 ^ 16
  gid : rd16 r 24 = i.gid % 2 ^ 16
  size : rd32 r 4 + rd32 r 108 * 2 ^ 32 = i.size % 2 ^ 64
  links : rd16 r 26 = links % 2 ^ 16
  root : ∀ k, k < 60 → r (40 + k) = i.block k

variable {off : Nat} {r root : Block}

theorem rd16_putRoot (hOff : off + 2 ≤ 40 ∨ 100 ≤ off) :
    rd16 (putRoot r root) off = rd16 r off :=
  getLE_congr fun k hk => if_neg (by omega)

theorem rd32_putRoot (hOff : off + 4 ≤ 40 ∨ 100 ≤ off) :
    rd32 (putRoot r root) off = rd32 r off :=
  getLE_congr fun k hk => if_neg (by omega)

theorem readBack_recordOf (bs : Nat) (r : Block) (i : Inode) (links : Nat) :
    ReadBack (recordOf bs r i links) i links := by
  refine ⟨?mode, ?uid, ?gid, ?size, ?links, fun k hk => ?root⟩
  case size =>
    simp (disch := omega) only [recordOf, rd32_putRoot, rd32_wr32w_of_disjoint,
      rd32_wr16w_of_disjoint, rd32_wr32w_self]
    omega
  case root =>
    unfold recordOf putRoot
    rw [if_pos (by omega), Nat.add_sub_cancel_left]
  all_goals simp (disch := omega) only [recordOf, rd16_putRoot, rd16_wr32w_of_disjoint,
      rd16_wr16w_of_disjoint, rd16_wr16w_self]

namespace Vol

/-- `read_inode`, of a number that is not zero. -/
def inode (v : Vol) (n : Nat) : Inode := inodeOf (v.raw n)

def inodeLinks (v : Vol) (n : Nat) : Nat := rd16 (v.raw n) 26

def setRaw (v : Vol) (n : Nat) (r : Block) : Vol := { v with raw := update v.raw n r }

def writeInode (v : Vol) (n : Nat) (i : Inode) (links : Nat) : Vol :=
  v.setRaw n (recordOf v.blockSize (v.raw n) i links)

/-- A link count is written straight into the record. -/
def setLinks (v : Vol) (n links : Nat) : Vol := v.setRaw n (wr16w (v.raw n) 26 links)

/-- `write_block`, of a block that holds neither inodes nor bitmaps. -/
def writeData (v : Vol) (p : Nat) (b : Block) : Vol :=
  { v with data := update v.data p b }

@[simp]
theorem inode_writeData (v : Vol) (p : Nat) (b : Block) (n : Nat) :
    (v.writeData p b).inode n = v.inode n := rfl

@[simp]
theorem blockSize_writeData (v : Vol) (p : Nat) (b : Block) :
    (v.writeData p b).blockSize = v.blockSize := rfl

@[simp]
theorem space_writeData (v : Vol) (p : Nat) (b : Block) : (v.writeData p b).space = v.space := rfl

@[simp]
theorem data_writeData_self (v : Vol) (p : Nat) (b : Block) : (v.writeData p b).data p = b :=
  update_self ..

variable {m n p : Nat} {root : Block} {dir i : Inode} {v : Vol} {α : Type} {name : Name}

@[simp]
theorem data_writeData_of_ne (v : Vol) {q : Nat} (b : Block) (h : q ≠ p) :
    (v.writeData p b).data q = v.data q :=
  update_of_ne h ..

@[simp]
theorem raw_setRaw_self (v : Vol) (n : Nat) (r : Block) : (v.setRaw n r).raw n = r :=
  update_self ..

@[simp]
theorem raw_setRaw_of_ne (v : Vol) (r : Block) (h : m ≠ n) :
    (v.setRaw n r).raw m = v.raw m :=
  update_of_ne h ..

/-- The root of an inode as it is read back: what lies behind the sixty bytes is lost. -/
def clip (root : Block) : Block := fun k => if k < 60 then root k else 0

theorem clip_of_zero (hZero : ∀ k, 60 ≤ k → root k = 0) : clip root = root := by
  funext k
  unfold clip
  split
  next => rfl
  next hk => exact (hZero k (Nat.not_lt.mp hk)).symm

theorem inode_block_zero (v : Vol) (n : Nat) {k : Nat} (hk : 60 ≤ k) : (v.inode n).block k = 0 :=
  if_neg (Nat.not_lt.mpr hk)

theorem inode_size_lt (v : Vol) (n : Nat) : (v.inode n).size < 2 ^ 64 := by
  have hLow := rd32_lt (v.raw n) 4
  have hHigh := rd32_lt (v.raw n) 108
  change rd32 (v.raw n) 4 + rd32 (v.raw n) 108 * 2 ^ 32 < 2 ^ 64
  omega

theorem inode_writeInode_self (v : Vol) (n : Nat) (i : Inode) (links : Nat) :
    ((v.writeInode n i links).inode n).mode = i.mode % 2 ^ 16 ∧
    ((v.writeInode n i links).inode n).size = i.size % 2 ^ 64 ∧
    ((v.writeInode n i links).inode n).block = clip i.block := by
  have hRead := readBack_recordOf v.blockSize (v.raw n) i links
  have hRaw : (v.writeInode n i links).raw n = recordOf v.blockSize (v.raw n) i links :=
    raw_setRaw_self ..
  unfold inode
  rw [hRaw]
  refine ⟨hRead.mode, hRead.size, ?_⟩
  funext k
  unfold clip
  split
  next hk =>
    change (if k < 60 then _ else _) = _
    rw [if_pos hk, hRead.root k hk]
  next hk => exact if_neg hk

theorem inode_writeInode_of_ne (v : Vol) (i : Inode) (links : Nat) (h : m ≠ n) :
    (v.writeInode n i links).inode m = v.inode m := by
  unfold inode writeInode
  rw [raw_setRaw_of_ne v _ h]

/-! ## The blocks of a file -/

/-- The number of blocks the size of an inode stands for. -/
def blocks (v : Vol) (i : Inode) : Nat := (i.size + v.blockSize - 1) % 2 ^ 64 / v.blockSize

/-- `map_block`. -/
def map (v : Vol) (i : Inode) (fb : Nat) : Nat := mapBlock v.data i.block fb

/-- `extend`: the new block, zero if there is none to be had. A block that was found but has no
place in the root stays taken. -/
def extend (v : Vol) (i : Inode) : Vol × Inode × Nat :=
  if Appendable i.block then
    match v.space.allocBlock with
    | (space, 0) => ({ v with space := space }, i, 0)
    | (space, phys + 1) =>
      let v' := { v with space := space }.writeData (phys + 1) zeroBlock
      match appendExtent i.block (v.blocks i) (phys + 1) with
      | some root => (v', { i with block := root }, phys + 1)
      | none => (v', i, 0)
  else (v, i, 0)

/-- `extend` without a root to append to, or without a block. -/
theorem extend_none (hNo : ¬ Appendable i.block ∨ v.space.allocBlock = (v.space, 0)) :
    v.extend i = (v, i, 0) := by
  unfold extend
  split
  next hRoot => rw [hNo.resolve_left (not_not.mpr hRoot)]
  next => rfl

/-- The root has room for one more extent. -/
def Growable (i : Inode) : Prop := Appendable i.block ∧ extEntries i.block < extMax i.block

instance (i : Inode) : Decidable (Growable i) := inferInstanceAs (Decidable (_ ∧ _))

theorem appendExtent_ne (hRoom : extEntries root < extMax root) (want phys : Nat) :
    ∃ root', appendExtent root want phys = some root' := by
  unfold appendExtent
  simp only
  split
  next => exact ⟨_, rfl⟩
  next => exact ⟨_, if_neg (Nat.not_le.mpr hRoom)⟩

/-- `extend` with a block, and with room for it in the root. -/
theorem extend_room (hGrow : Growable i) {space : Space}
    (hAlloc : v.space.allocBlock = (space, p + 1)) :
    ∃ root, v.extend i =
      ({ v with space := space }.writeData (p + 1) zeroBlock, { i with block := root }, p + 1) := by
  obtain ⟨root, hRoot⟩ := appendExtent_ne hGrow.2 (v.blocks i) (p + 1)
  refine ⟨root, ?_⟩
  unfold extend
  rw [if_pos hGrow.1, hAlloc]
  simp only [hRoot]

theorem space_extend (v : Vol) (i : Inode) :
    (v.extend i).1.space = if Appendable i.block then v.space.allocBlock.1 else v.space := by
  unfold extend
  split
  next =>
    rcases v.space.allocBlock with ⟨space, _ | p⟩
    · rfl
    · simp only
      split
      next => rfl
      next => rfl
  next => rfl

/-- A block is free, and the root has a place for it. -/
def Extends (v : Vol) (i : Inode) : Prop :=
  Appendable i.block ∧ v.space.allocBlock.2 ≠ 0 ∧
    appendExtent i.block (v.blocks i) v.space.allocBlock.2 ≠ none

/-- A block is free, but the root, to which blocks can be appended, has no place for it. -/
def Wastes (v : Vol) (i : Inode) : Prop :=
  Appendable i.block ∧ v.space.allocBlock.2 ≠ 0 ∧
    appendExtent i.block (v.blocks i) v.space.allocBlock.2 = none

theorem extends_congr {w : Vol} (hSize : w.blockSize = v.blockSize)
    (hNext : w.space.allocBlock.2 = v.space.allocBlock.2) : w.Extends i ↔ v.Extends i := by
  unfold Extends blocks
  rw [hSize, hNext]

theorem extend_ne_zero (v : Vol) (i : Inode) : (v.extend i).2.2 ≠ 0 ↔ v.Extends i := by
  unfold extend Extends
  split
  next hRoot =>
    rcases v.space.allocBlock with ⟨space, _ | p⟩
    · simp
    · cases hApp : appendExtent i.block (v.blocks i) (p + 1) with
      | some => simp [hRoot, hApp]
      | none => simp [hApp]
  next hRoot => simp [hRoot]

/-- `extend` that fails without a block to waste changes nothing. -/
theorem extend_idle (hZero : v.space.ZeroTaken) (hNo : ¬ v.Extends i) (hWaste : ¬ v.Wastes i) :
    v.extend i = (v, i, 0) := by
  refine extend_none (or_iff_not_imp_left.mpr fun hRoot => ?_)
  refine Space.allocBlock_zero hZero (by_contra fun hSome => hNo ?_)
  exact ⟨not_not.mp hRoot, hSome, fun hNone => hWaste ⟨not_not.mp hRoot, hSome, hNone⟩⟩

/-- The blocks of an inode that `map_block` finds, up to the size, go back. -/
def freeMapped (v : Vol) (i : Inode) : Vol :=
  (List.range (v.blocks i)).foldl (fun v b =>
    if v.map i b = 0 then v else { v with space := v.space.freeBlock (v.map i b) }) v

/-- The blocks `map_block` finds for an inode, up to the size. -/
def mappedBlocks (v : Vol) (i : Inode) : List Nat :=
  ((List.range (v.blocks i)).map (v.map i)).filter (· ≠ 0)

theorem mem_mappedBlocks :
    p ∈ v.mappedBlocks i ↔ p ≠ 0 ∧ ∃ b, b < v.blocks i ∧ v.map i b = p := by
  simp [mappedBlocks, and_comm]

/-- Giving the blocks back changes nothing but the free space. -/
theorem freeMapped_eq (v : Vol) (i : Inode) :
    v.freeMapped i = { v with space := (v.mappedBlocks i).foldl Space.freeBlock v.space } := by
  have hFold : ∀ (bs : List Nat) (w : Vol), w.data = v.data →
      bs.foldl (fun w b =>
        if w.map i b = 0 then w else { w with space := w.space.freeBlock (w.map i b) }) w =
      { w with space := ((bs.map (v.map i)).filter (· ≠ 0)).foldl Space.freeBlock w.space } := by
    intro bs
    induction bs with
    | nil => intro w _; rfl
    | cons b bs ih =>
      intro w hData
      have hMap : w.map i b = v.map i b := by rw [map, map, hData]
      rw [foldl_cons, map_cons, hMap]
      by_cases hZero : v.map i b = 0
      · rw [if_pos hZero, ih w hData, filter_cons_of_neg (by simp [hZero])]
      · rw [if_neg hZero, ih { w with space := w.space.freeBlock (v.map i b) } hData,
          filter_cons_of_pos (by simp [hZero]), foldl_cons]
  exact hFold _ v rfl

/-! ## Directories -/

/-- The first answer the blocks of a directory give; holes are passed over. -/
def firstBlock {α : Type} (v : Vol) (dir : Inode) (f : Nat → Option α) : Option α :=
  (List.range (v.blocks dir)).findSome? fun b => if v.map dir b = 0 then none else f (v.map dir b)

/-- `dir_search` for a name; zero if there is no such entry. -/
def dirSearch (v : Vol) (dir : Inode) (name : Name) : Nat :=
  (v.firstBlock dir fun p => searchIn v.blockSize (v.data p) name).getD 0

/-- `dir_add`: the new state, the directory's inode in memory, and whether the name is in. -/
def dirAdd (v : Vol) (dir : Inode) (dirIno : Nat) (name : Name) (ino : Nat) (type : UInt8) :
    Vol × Inode × Bool :=
  match v.firstBlock dir fun p => (addIn v.blockSize (v.data p) name ino type).map (p, ·) with
  | some (p, b) => (v.writeData p b, dir, true)
  | none =>
    match v.extend dir with
    | (v, dir, 0) => (v, dir, false)
    | (v, dir, phys + 1) =>
      let dir := { dir with size := (dir.size + v.blockSize) % 2 ^ 64 }
      let v := v.writeData (phys + 1) (putRecord zeroBlock 0 ino v.blockSize name type)
      (v.writeInode dirIno dir (v.inodeLinks dirIno), dir, true)

/-- `dir_remove`: the new state and the inode the entry had. -/
def dirRemove (v : Vol) (dir : Inode) (name : Name) : Option (Vol × Nat) :=
  v.firstBlock dir fun p =>
    (removeIn v.blockSize (v.data p) name).map fun r => (v.writeData p r.1, r.2)

/-- The entries of a directory. -/
def dirEntries (v : Vol) (dir : Inode) : List (Name × Nat) :=
  (List.range (v.blocks dir)).flatMap fun b =>
    if v.map dir b = 0 then [] else entries v.blockSize (v.data (v.map dir b))

/-- The entries depend on the size, the root and the blocks. -/
theorem dirEntries_congr {w : Vol} {j : Inode} (hBlock : w.blockSize = v.blockSize)
    (hData : w.data = v.data) (hSize : j.size = i.size) (hRoot : j.block = i.block) :
    w.dirEntries j = v.dirEntries i := by
  unfold dirEntries blocks map
  rw [hBlock, hData, hSize, hRoot]

def dirIsEmpty (v : Vol) (dir : Inode) : Bool :=
  (List.range (v.blocks dir)).all fun b =>
    decide (v.map dir b = 0) || emptyIn v.blockSize (v.data (v.map dir b))

/-- Some record of the directory has room for a name of that length. -/
def HasRoom (v : Vol) (dir : Inode) (len : Nat) : Prop :=
  ∃ b, b < v.blocks dir ∧ v.map dir b ≠ 0 ∧
    ∃ o ∈ records v.blockSize (v.data (v.map dir b)), slotSize len ≤ slack (v.data (v.map dir b)) o

theorem firstBlock_some {f : Nat → Option α} {x : α} (hSome : v.firstBlock dir f = some x) :
    ∃ b, v.map dir b ≠ 0 ∧ f (v.map dir b) = some x := by
  obtain ⟨b, -, hEq⟩ := exists_of_findSome?_eq_some hSome
  exact ⟨b, ite_none_left_eq_some.mp hEq⟩

/-- Where there is room for a name the loop of `dir_add` finds it. -/
theorem hasRoom_iff (v : Vol) (dir : Inode) (name : Name) (ino : Nat) (type : UInt8) :
    v.HasRoom dir name.length ↔ (v.firstBlock dir fun p =>
      (addIn v.blockSize (v.data p) name ino type).map (p, ·)).isSome = true := by
  unfold firstBlock HasRoom addIn
  rw [List.findSome?_isSome_iff]
  refine exists_congr fun b => ?_
  rw [mem_range]
  by_cases hMap : v.map dir b = 0
  · simp [hMap]
  · simp [hMap]

/-- `dir_add` works where a record has room, or where the directory can take another block; if not,
it has tried to extend the directory. -/
theorem dirAdd_cases (v : Vol) (dir : Inode) (dirIno : Nat) (name : Name) (ino : Nat) (type : UInt8) :
    (v.HasRoom dir name.length ∨ v.Extends dir) ∧
        (∃ w dir', v.dirAdd dir dirIno name ino type = (w, dir', true)) ∨
      ¬ (v.HasRoom dir name.length ∨ v.Extends dir) ∧
        ∃ dir', v.dirAdd dir dirIno name ino type = ((v.extend dir).1, dir', false) := by
  rw [hasRoom_iff v dir name ino type, ← extend_ne_zero]
  unfold dirAdd
  cases hFirst : v.firstBlock dir fun p =>
      (addIn v.blockSize (v.data p) name ino type).map (p, ·) with
  | some r => exact .inl ⟨.inl rfl, _, _, rfl⟩
  | none =>
    rcases v.extend dir with ⟨w, dir', _ | p⟩
    · exact .inr ⟨by simp, dir', rfl⟩
    · exact .inl ⟨.inr (Nat.succ_ne_zero p), _, _, rfl⟩

end Vol
end LeahOS.Vfsd
