import LeahOS.Vfsd.Catalog
import LeahOS.Vfsd.Files

/-!
# Requests that are refused

A request that makes, links or moves a name does several things one after the other, and does not
undo them when a later one fails. `create_node` takes an inode before it knows that there is a
block for the directory to grow by; `extend` takes a block before it knows that the root has room
for it; `VFS_RENAME` takes the old name out before it knows that the new one fits.

`unchanged_iff` says for which requests it is true that, if they are refused, they have changed
nothing: for those that find what the steps that can fail late need. `Roomy` says what that is for
each request, in terms of the state before it. The filesystems are in order, `Orderly`; the name
that is moved has its directory on the filesystem it leads to, `AtHome`.
-/

namespace LeahOS.Vfsd
open Lib Function

/-! ## What may fail late -/

namespace Vol

/-- There is room to make a name and, if it needs one, the first block of what it names. -/
def RoomToMake (v : Vol) (dir : Inode) (len : Nat) (what : Make) : Prop :=
  if what.big then
    v.space.allocBlock.2 ≠ 0 ∧
      (v.HasRoom dir len ∨ { v with space := v.space.allocBlock.1 }.Extends dir)
  else v.HasRoom dir len ∨ v.Extends dir

/-- There is room for one more name, or no block to be taken in vain. -/
def RoomToLink (v : Vol) (dir : Inode) (len : Nat) : Prop := v.HasRoom dir len ∨ ¬ v.Wastes dir

/-- There is room for the new name once the old one is out. -/
def RoomToMove (v : Vol) (fromDir : Inode) (old : Name) (toDir : Inode) (len : Nat) : Prop :=
  ∀ w ino, v.dirRemove fromDir old = some (w, ino) → w.HasRoom toDir len ∨ v.Extends toDir

/-- Nothing is to be written, or the first block is there, or none is taken in vain for it. -/
def RoomToWrite (v : Vol) (i : Inode) (offset : Nat) (bytes : List UInt8) : Prop :=
  bytes = [] ∨ v.map i (offset % 2 ^ 64 / v.blockSize) ≠ 0 ∨
    ¬ v.Wastes { i with size := offset % 2 ^ 64 / v.blockSize * v.blockSize % 2 ^ 64 }

/-- The bitmaps, the counts and the entries of directories are what they were. -/
structure SameNames (v v' : Vol) : Prop where
  space : v'.space = v.space
  entries : ∀ n, modeKind (v.inode n).mode = modeDir →
    v'.dirEntries (v'.inode n) = v.dirEntries (v.inode n)

theorem SameNames.refl (v : Vol) : SameNames v v := ⟨rfl, fun _ _ => rfl⟩

/-- The name is not there yet. -/
def Absent (v : Vol) (dir : Inode) (name : Name) : Prop :=
  modeKind dir.mode = modeDir ∧ v.dirSearch dir name = 0

/-- Block 0 is not free, and every directory is one that the server can work on. -/
structure Orderly (v : Vol) : Prop where
  zero : v.space.ZeroTaken
  blockSize : 0 < v.blockSize
  dirs : ∀ n, modeKind (v.inode n).mode = modeDir → ∃ others, v.DirHand others (v.inode n)

end Vol

namespace Vfs

/-- If the last name of a path can be made and an inode is free, there is room to make it. -/
def RoomFor (s : Vfs) (path : Name) (what : Make) : Prop :=
  match splitPath path with
  | none => True
  | some (parent, name) =>
    match s.lookup parent with
    | (_, none) => True
    | (c, some (_, dir)) => (s.vol c).Absent dir name →
      ((s.vol c).space.allocInode what.isDir).2 ≠ 0 → (s.vol c).RoomToMake dir name.length what

/-- If a file can be linked, there is room for the link. -/
def RoomForLink (s : Vfs) (existing path : Name) : Prop :=
  match s.lookupNofollow existing, splitPath path with
  | (_, some (_, target)), some (parent, name) =>
    match s.lookup parent with
    | (_, none) => True
    | (c, some (_, dir)) => modeKind target.mode ≠ modeDir → (s.vol c).Absent dir name →
      (s.vol c).RoomToLink dir name.length
  | _, _ => True

/-- If a name can be moved, there is room to move it. -/
def RoomForRename (s : Vfs) (who : Creds) (old new : Name) : Prop :=
  match splitPath old, splitPath new with
  | some (oldParent, oldName), some (newParent, newName) =>
    match s.lookup oldParent, s.lookup newParent, s.lookup old with
    | (_, some (fromIno, fromDir)), (_, some (toIno, toDir)), (c, some (_, victim)) =>
      mayWrite victim who = true → (s.vol c).dirSearch toDir newName = 0 → (s.vol c).RoomToMove
        fromDir oldName (if fromIno = toIno then fromDir else toDir) newName.length
    | _, _, _ => True
  | _, _ => True

/-- If a file can be written to, there is room for the first block. -/
def RoomForWrite (s : Vfs) (who : Creds) (path : Name) (offset : Nat) (bytes : List UInt8) : Prop :=
  match s.lookup path with
  | (_, none) => True
  | (c, some (_, i)) => mayWrite i who = true → (s.vol c).RoomToWrite i offset bytes

end Vfs

/-- What a request may need late is there. -/
def Roomy (s : Vfs) (e : Call) : Prop :=
  match e.request with
  | .create path => s.RoomFor path .file
  | .mkdir path => s.RoomFor path .dir
  | .mkfifo path => s.RoomFor path .fifo
  | .mknod path block rdev => e.who.uid = 0 → s.RoomFor path (if block then .blk rdev else .chr rdev)
  | .symlink target path => s.RoomFor path (.link target)
  | .link existing path => s.RoomForLink existing path
  | .rename old new => s.RoomForRename e.who old new
  | .write path offset bytes => s.RoomForWrite e.who path offset bytes
  | _ => True

/-- The answer says that the request was not carried out. -/
def Refused (request : Request) (answer : Int) : Prop :=
  match request with
  | .create _ | .mkdir _ | .mkfifo _ | .mknod .. | .symlink .. | .link .. | .rename .. => answer < 0
  | .write .. => answer = 0
  | _ => False

/-- No filesystem's bitmaps, counts or directory entries changed. -/
def Unchanged (s s' : Vfs) : Prop := ∀ c, (s.vol c).SameNames (s'.vol c)

/-- The name that is to be moved is in a directory, of the filesystem it leads to. -/
def AtHome (s : Vfs) : Request → Prop
  | .rename old _ =>
    ∀ parent name c₁ ino dir c victim, splitPath old = some (parent, name) →
      s.lookup parent = (c₁, some (ino, dir)) → s.lookup old = (c, some victim) →
      c₁ = c ∧ modeKind dir.mode = modeDir
  | _ => True

/-! ## Making -/

namespace Vol
variable {dir i : Inode} {len : Nat} {v : Vol} {what : Make} {name : Name} {w : Vol}
  {ino offset : Nat}

/-- Room stays as it is when a block that is not the directory's is written. -/
theorem hasRoom_writeData {p : Nat} {b : Block} (hSize : w.blockSize = v.blockSize)
    (hData : w.data = update v.data p b) (hNot : ¬ Owns v.data dir.block p) :
    w.HasRoom dir len ↔ v.HasRoom dir len := by
  have hIndex : ∀ fb, ∀ c ∈ indexPath v.data dir.block fb, w.data c = v.data c := by
    intro fb c hc
    rw [hData, update_of_ne]
    rintro rfl
    exact hNot ⟨fb, .inl hc⟩
  have hSame : ∀ fb, w.map dir fb = v.map dir fb := fun fb => (mapBlock_congr hIndex fb).1
  have hBlock : ∀ fb, v.map dir fb ≠ 0 → w.data (v.map dir fb) = v.data (v.map dir fb) := by
    intro fb hMap
    rw [hData, update_of_ne]
    rintro rfl
    exact hNot ⟨fb, .inr ⟨hMap, rfl⟩⟩
  unfold HasRoom blocks
  simp only [hSize, hSame]
  refine exists_congr fun fb => and_congr_right fun _ => and_congr_right fun hMap => ?_
  rw [hBlock fb hMap]

/-- Without a block for it, only the inode record is written. -/
theorem fillNode_none (hNone : v.space.allocBlock = (v.space, 0)) (ino dirIno now : Nat)
    (hBig : what.big = true) : ∃ r e, v.fillNode ino dirIno what now = (v.setRaw ino r, e) ∧
      (e = eNospc ∨ e = eIo) := by
  cases what with
  | dir =>
    have hExtend := extend_none (v := v.writeInode ino (Make.dir.fresh now) 2)
      (i := Make.dir.fresh now) (.inr hNone)
    refine ⟨recordOf v.blockSize (v.raw ino) (Make.dir.fresh now) 2, eIo, ?_, .inr rfl⟩
    unfold fillNode
    simp only [hExtend]
    rfl
  | link target =>
    have hLong : ¬ target.length < 60 := Nat.not_lt.mpr (of_decide_eq_true hBig)
    obtain ⟨fresh, hFresh⟩ : ∃ i, { (Make.link target).fresh now with size := target.length } = i :=
      ⟨_, rfl⟩
    have hExtend := extend_none (v := v.writeInode ino fresh 1) (i := fresh) (.inr hNone)
    refine ⟨recordOf v.blockSize (v.raw ino) fresh 1, eNospc, ?_, .inl rfl⟩
    unfold fillNode
    simp only [if_neg hLong, hFresh, hExtend]
    rfl
  | file | fifo | chr | blk => cases hBig

/-- `create_node` once the inode is filled in: the name is put into the directory, or it fails. -/
theorem makeNode_filled {dirIno n now : Nat} {space : Space} {u : Vol} (hAbsent : v.Absent dir name)
    (hAlloc : v.space.allocInode what.isDir = (space, n + 1))
    (hFill : { v with space := space }.fillNode (n + 1) dirIno what now = (u, 0)) :
    (u.HasRoom dir name.length ∨ u.Extends dir) ∧ (v.makeNode dirIno dir name what now).2 = 0 ∨
      ¬ (u.HasRoom dir name.length ∨ u.Extends dir) ∧ (v.makeNode dirIno dir name what now).2 < 0 ∧
        ∀ g, ((v.makeNode dirIno dir name what now).1.space.group g).inodeBits =
          (u.space.group g).inodeBits := by
  unfold makeNode
  rw [if_neg (not_not.mpr hAbsent.1), if_neg (not_not.mpr hAbsent.2), hAlloc]
  simp only [hFill]
  rcases u.dirAdd_cases dir dirIno name (n + 1) what.type with
    ⟨hRoom, u', dir', hAdd⟩ | ⟨hFull, dir', hAdd⟩
  · rw [hAdd]
    exact .inl ⟨hRoom, rfl⟩
  · rw [hAdd]
    refine .inr ⟨hFull, by simp only; decide, fun g => ?_⟩
    simp only [space_extend]
    split
    next => exact u.space.inodeBits_allocBlock g
    next => rfl

/-- `create_node` without a block for what it makes. -/
theorem makeNode_unfilled {dirIno n now : Nat} {space : Space} {u : Vol} {e : Int}
    (hAbsent : v.Absent dir name) (hAlloc : v.space.allocInode what.isDir = (space, n + 1))
    (hFill : { v with space := space }.fillNode (n + 1) dirIno what now = (u, e))
    (hErr : e = eNospc ∨ e = eIo) : v.makeNode dirIno dir name what now = (u, e) := by
  unfold makeNode
  rw [if_neg (not_not.mpr hAbsent.1), if_neg (not_not.mpr hAbsent.2), hAlloc]
  simp only [hFill]
  rcases hErr with rfl | rfl
  · rfl
  · rfl

/-- The room for the name once a block is taken for what it names. -/
theorem room_of_block {space space' : Space} {p : Nat} (hZero : v.space.ZeroTaken)
    (hOwn : ∀ p, Owns v.data dir.block p → v.space.Marked p) (hSame : v.space.SameBlocks space)
    (hTake : space.allocBlock = (space', p + 1)) (b : Block) :
    let u := { v with space := space' }.writeData (p + 1) b
    u.HasRoom dir len ∨ u.Extends dir ↔
      v.HasRoom dir len ∨ { v with space := v.space.allocBlock.1 }.Extends dir := by
  have hFresh := Space.allocBlock_not_marked (hSame.zeroTaken hZero) hTake
  have hAfter := hSame.allocBlock.2
  rw [hTake] at hAfter
  exact or_congr
    (hasRoom_writeData rfl rfl fun hOwns => hFresh (hSame.marked (hOwn _ hOwns)))
    (extends_congr rfl hAfter.allocBlock.1)

/-- `create_node` once the inode is taken: there is room and it succeeds, or it fails and the inode
stays taken. -/
theorem makeNode_taken (hZero : v.space.ZeroTaken)
    (hOwn : ∀ p, Owns v.data dir.block p → v.space.Marked p) (hAbsent : v.Absent dir name)
    (hSome : (v.space.allocInode what.isDir).2 ≠ 0) (dirIno now : Nat) :
    v.RoomToMake dir name.length what ∧ (v.makeNode dirIno dir name what now).2 = 0 ∨
      ¬ v.RoomToMake dir name.length what ∧ (v.makeNode dirIno dir name what now).2 < 0 ∧
        ∀ g, ((v.makeNode dirIno dir name what now).1.space.group g).inodeBits =
          ((v.space.allocInode what.isDir).1.group g).inodeBits := by
  have hSame := v.space.sameBlocks_allocInode what.isDir
  rcases hAlloc : v.space.allocInode what.isDir with ⟨space, _ | n⟩
  · rw [hAlloc] at hSome
    exact absurd rfl hSome
  replace hSame : v.space.SameBlocks space := by rwa [hAlloc] at hSame
  -- `alloc_inode` leaves the blocks alone: `alloc_block` finds what it would have found before
  have hNext := hSame.allocBlock.1
  unfold RoomToMake
  cases hBig : what.big with
  | false =>
    obtain ⟨r, hFill⟩ := { v with space := space }.fillNode_small (n + 1) dirIno now hBig
    rw [if_neg (by simp), ← extends_congr (v := v) (w := { v with space := space }) rfl hNext]
    exact makeNode_filled hAbsent hAlloc hFill
  | true =>
    rw [if_pos rfl]
    rcases hTake : space.allocBlock with ⟨space', _ | p⟩
    · have hNone := Space.allocBlock_zero (hSame.zeroTaken hZero) (congrArg Prod.snd hTake)
      obtain ⟨r, e, hFill, hErr⟩ := fillNode_none (v := { v with space := space }) hNone (n + 1)
        dirIno now hBig
      rw [hTake] at hNext
      -- no block for the directory or the long link, and the inode is not given back
      rw [makeNode_unfilled hAbsent hAlloc hFill hErr]
      refine .inr ⟨fun hRoom => hRoom.1 hNext.symm, ?_, fun _ => rfl⟩
      rcases hErr with rfl | rfl
      · exact (by decide : eNospc < 0)
      · exact (by decide : eIo < 0)
    · obtain ⟨b, r, hFill⟩ := fillNode_big (v := { v with space := space }) hTake (n + 1) dirIno now
        hBig
      have hRoom := @room_of_block dir name.length v space space' p hZero hOwn hSame hTake b
      have hBits : ∀ g, (space'.group g).inodeBits = (space.group g).inodeBits := by
        intro g
        rw [← space.inodeBits_allocBlock g, hTake]
      have hNe : v.space.allocBlock.2 ≠ 0 := by
        rw [← hNext, hTake]
        exact Nat.succ_ne_zero p
      rcases makeNode_filled hAbsent hAlloc hFill with ⟨hHas, hOk⟩ | ⟨hFull, hNeg, hKept⟩
      · exact .inl ⟨⟨hNe, hRoom.mp hHas⟩, hOk⟩
      · exact .inr ⟨fun hHas => hFull (hRoom.mpr hHas.2), hNeg, fun g => (hKept g).trans (hBits g)⟩

/-- `create_node` that fails has changed nothing exactly if there was room, or nothing was begun. -/
theorem makeNode_iff (hZero : v.space.ZeroTaken) (hOwn : modeKind dir.mode = modeDir →
      ∀ p, Owns v.data dir.block p → v.space.Marked p) (dirIno now : Nat) :
    ((v.makeNode dirIno dir name what now).2 < 0 →
        v.SameNames (v.makeNode dirIno dir name what now).1) ↔
      (v.Absent dir name → (v.space.allocInode what.isDir).2 ≠ 0 →
        v.RoomToMake dir name.length what) := by
  by_cases hAbsent : v.Absent dir name
  · by_cases hSome : (v.space.allocInode what.isDir).2 = 0
    · refine iff_of_true (fun _ => ?_) fun _ hNe => absurd hSome hNe
      unfold makeNode
      rw [if_neg (not_not.mpr hAbsent.1), if_neg (not_not.mpr hAbsent.2), Space.allocInode_zero hSome]
      exact .refl v
    · obtain ⟨g, bit, hClear, hSet⟩ := Space.allocInode_takes hSome
      rcases makeNode_taken hZero (hOwn hAbsent.1) hAbsent hSome dirIno now with
        ⟨hRoom, hOk⟩ | ⟨hRoom, hNeg, hBits⟩
      · exact iff_of_true (fun hNeg => absurd hNeg (by omega)) fun _ _ => hRoom
      · -- the bit of the inode gives the failure away
        refine iff_of_false (fun hSame => ?_) fun hHas => hRoom (hHas hAbsent hSome)
        rw [← hBits g, (hSame hNeg).space, hClear] at hSet
        cases hSet
  · refine iff_of_true (fun _ => ?_) fun hHas => absurd hHas hAbsent
    unfold makeNode
    split
    next => exact .refl v
    next hDir =>
      rw [if_pos fun hSearch => hAbsent ⟨not_not.mp hDir, hSearch⟩]
      exact .refl v

/-! ## Linking and moving -/

/-- `extend` that fails took a block in vain, or did nothing. -/
theorem extend_fails (hZero : v.space.ZeroTaken) (hNo : ¬ v.Extends i) :
    v.Wastes i ∧ (v.extend i).1.space ≠ v.space ∨ ¬ v.Wastes i ∧ v.extend i = (v, i, 0) := by
  by_cases hWaste : v.Wastes i
  · refine .inl ⟨hWaste, fun hEq => ?_⟩
    obtain ⟨hClear, hMarked⟩ := Space.allocBlock_takes hZero hWaste.2.1
    rw [space_extend, if_pos hWaste.1] at hEq
    rw [hEq] at hMarked
    exact hClear hMarked
  · exact .inr ⟨hWaste, extend_idle hZero hNo hWaste⟩

/-- `link_node` that fails has changed nothing exactly if no block was taken in vain. -/
theorem linkNode_iff (hZero : v.space.ZeroTaken) (ino mode dirIno : Nat) :
    ((v.linkNode ino mode dirIno dir name).2 < 0 →
        v.SameNames (v.linkNode ino mode dirIno dir name).1) ↔
      (v.Absent dir name → v.RoomToLink dir name.length) := by
  unfold linkNode
  split
  next hDir => exact iff_of_true (fun _ => .refl v) fun hAbsent => absurd hAbsent.1 hDir
  next hDir =>
    split
    next hSearch => exact iff_of_true (fun _ => .refl v) fun hAbsent => absurd hAbsent.2 hSearch
    next hSearch =>
      have hAbsent : v.Absent dir name := ⟨not_not.mp hDir, not_not.mp hSearch⟩
      rw [forall_prop_of_true hAbsent]
      generalize (if modeKind mode = modeLink then (7 : UInt8) else 1) = type
      rcases v.dirAdd_cases dir dirIno name ino type with ⟨hRoom, w, dir', hAdd⟩ | ⟨hNot, dir', hAdd⟩
      · rw [hAdd]
        refine iff_of_true (fun hNeg => absurd hNeg (Int.lt_irrefl 0)) ?_
        exact hRoom.imp id fun hExtends hWaste => hExtends.2.2 hWaste.2.2
      · -- the name does not fit; only a block that was taken for it can show
        obtain ⟨hFull, hNo⟩ := not_or.mp hNot
        rw [hAdd, RoomToLink, or_iff_right hFull]
        rcases extend_fails hZero hNo with ⟨hWaste, hSpace⟩ | ⟨hWaste, hIdle⟩
        · refine iff_of_false (fun hSame => hSpace (hSame ?_).space) (not_not.mpr hWaste)
          exact (by decide : eIo < 0)
        · rw [hIdle]
          exact iff_of_true (fun _ => .refl v) hWaste

/-- `dir_remove` writes one block. -/
theorem dirRemove_eq (hRemove : v.dirRemove dir name = some (w, ino)) :
    ∃ x : Nat × Block, w = v.writeData x.1 x.2 := by
  obtain ⟨b, -, hSome⟩ := firstBlock_some hRemove
  obtain ⟨x, -, hEq⟩ := Option.map_eq_some_iff.mp hSome
  exact ⟨(v.map dir b, x.1), (Prod.mk.inj hEq).1.symm⟩

/-- A name that was taken out and not put back is missed. -/
theorem not_sameNames_extend {fromIno : Nat} {others : Nat → Prop} {old : Name}
    (hZero : v.space.ZeroTaken) (hDir : v.DirHand others (v.inode fromIno))
    (hKind : modeKind (v.inode fromIno).mode = modeDir)
    (hRemove : v.dirRemove (v.inode fromIno) old = some (w, ino)) (hNo : ¬ w.Extends dir) :
    ¬ v.SameNames (w.extend dir).1 := by
  obtain ⟨-, l, r, hBefore, hAfter⟩ := hDir.dirRemove hRemove
  obtain ⟨b, rfl⟩ := dirRemove_eq hRemove
  intro hSame
  -- a block was taken on top of it, or the directory has one entry less
  rcases extend_fails (v := v.writeData b.1 b.2) hZero hNo with ⟨-, hSpace⟩ | ⟨-, hIdle⟩
  · exact hSpace hSame.space
  · rw [hIdle] at hSame
    have hEntries := congrArg List.length ((hAfter.symm.trans (hSame.entries fromIno hKind)).trans
      hBefore)
    simp at hEntries

/-- Renaming that fails has changed nothing exactly if there was room, or no name to be moved. -/
theorem renameNode_iff {fromIno toIno : Nat} {toDir : Inode} {others : Nat → Prop} {old new : Name}
    {victim : Inode} (hZero : v.space.ZeroTaken) (hDir : v.DirHand others (v.inode fromIno))
    (hKind : modeKind (v.inode fromIno).mode = modeDir) :
    ((v.renameNode fromIno (v.inode fromIno) old toIno toDir new victim).2 < 0 →
        v.SameNames (v.renameNode fromIno (v.inode fromIno) old toIno toDir new victim).1) ↔
      (v.dirSearch toDir new = 0 → v.RoomToMove (v.inode fromIno) old
        (if fromIno = toIno then v.inode fromIno else toDir) new.length) := by
  unfold renameNode
  generalize (if modeKind victim.mode = modeDir then (2 : UInt8) else 1) = type
  simp only
  split
  next hSearch => exact iff_of_true (fun _ => .refl v) fun hNone => absurd hNone hSearch
  next hSearch =>
    rw [forall_prop_of_true (not_not.mp hSearch)]
    unfold RoomToMove
    cases hRemove : v.dirRemove (v.inode fromIno) old with
    | none => exact iff_of_true (fun _ => .refl v) nofun
    | some r =>
      obtain ⟨w, ino⟩ := r
      -- `dir_remove` leaves the bitmaps alone, so `extend` finds what it would have found before
      have hOne : ∀ toDir', (∀ w' ino', some (w, ino) = some (w', ino') →
            w'.HasRoom toDir' new.length ∨ v.Extends toDir') ↔
          w.HasRoom toDir' new.length ∨ w.Extends toDir' := by
        intro toDir'
        obtain ⟨x, rfl⟩ := dirRemove_eq hRemove
        refine ⟨fun hAll => hAll _ ino rfl, fun hHas w' ino' hEq => ?_⟩
        obtain ⟨rfl, rfl⟩ := Prod.mk.inj (Option.some.inj hEq)
        exact hHas
      have hLost : ∀ toDir', ¬ w.Extends toDir' → ¬ v.SameNames (w.extend toDir').1 := fun _ =>
        not_sameNames_extend hZero hDir hKind hRemove
      rw [hOne]
      simp only
      split
      next =>
        rcases w.dirAdd_cases (v.inode fromIno) fromIno new ino type with
          ⟨hRoom, w', dir', hAdd⟩ | ⟨hNot, dir', hAdd⟩
        · rw [hAdd]
          exact iff_of_true (fun hNeg => absurd hNeg (Int.lt_irrefl 0)) hRoom
        · rw [hAdd]
          refine iff_of_false (fun hSame => hLost _ (not_or.mp hNot).2 (hSame ?_)) hNot
          exact (by decide : eIo < 0)
      next =>
        rcases w.dirAdd_cases toDir toIno new ino type with
          ⟨hRoom, w', dir', hAdd⟩ | ⟨hNot, dir', hAdd⟩
        · rw [hAdd]
          exact iff_of_true (fun hNeg => absurd hNeg (Int.lt_irrefl 0)) hRoom
        · rw [hAdd]
          refine iff_of_false (fun hSame => hLost _ (not_or.mp hNot).2 (hSame ?_)) hNot
          exact (by decide : eIo < 0)

/-! ## Writing -/

theorem le_writeLoop (offset : Nat) (bytes : List UInt8) (n : Nat) (v : Vol) (i : Inode)
    (done : Nat) : done ≤ (v.writeLoop i offset bytes n done).2.2 := by
  induction n generalizing v i done with
  | zero => exact Nat.le_refl done
  | succ n ih =>
    rw [writeLoop]
    simp only
    split
    next => exact Nat.le_refl done
    next =>
      split
      next => exact Nat.le_refl done
      next => exact Nat.le_trans (Nat.le_add_right ..) (ih ..)

theorem blockFor_hole {fb p : Nat} {j : Inode} (hMap : v.map i fb = 0)
    (hExtend : v.extend { i with size := fb * v.blockSize % 2 ^ 64 } = (w, j, p)) :
    v.blockFor i fb = (w, { j with size := i.size }, p) := by
  rw [blockFor, if_pos hMap, hExtend]

/-- The loop writes something, or has only looked for the first block. -/
theorem writeLoop_first {bytes : List UInt8} (hSize : 0 < v.blockSize) (hBytes : 0 < bytes.length)
    (offset n : Nat) :
    (v.blockFor i (offset % 2 ^ 64 / v.blockSize)).2.2 ≠ 0 ∧
        (v.writeLoop i offset bytes (n + 1) 0).2.2 ≠ 0 ∨
      v.writeLoop i offset bytes (n + 1) 0 = v.blockFor i (offset % 2 ^ 64 / v.blockSize) ∧
        (v.blockFor i (offset % 2 ^ 64 / v.blockSize)).2.2 = 0 := by
  rw [writeLoop]
  simp only [Nat.add_zero, Nat.zero_add]
  rw [if_neg (Nat.not_le.mpr hBytes)]
  split
  next hPhys => exact .inr ⟨Prod.ext rfl (Prod.ext rfl hPhys.symm), hPhys⟩
  next hPhys =>
    refine .inl ⟨hPhys, fun hNo => ?_⟩
    have hLess := (le_writeLoop offset bytes n _ _ _).trans_eq hNo
    have := Nat.mod_lt (offset % 2 ^ 64) hSize
    omega

/-- Only the times of an inode changed. -/
theorem sameNames_touch (v : Vol) (ino now links : Nat) :
    v.SameNames (v.writeInode ino (touch (v.inode ino) now) links) := by
  refine ⟨rfl, fun n _ => ?_⟩
  by_cases hEq : n = ino
  · subst hEq
    obtain ⟨-, hSize, hRoot⟩ := v.inode_writeInode_self n (touch (v.inode n) now) links
    have hSize' := hSize.trans (Nat.mod_eq_of_lt (v.inode_size_lt n))
    have hRoot' := hRoot.trans (clip_of_zero fun k hk => v.inode_block_zero n hk)
    exact dirEntries_congr rfl rfl hSize' hRoot'
  · rw [v.inode_writeInode_of_ne _ links hEq]
    rfl

/-- A write that wrote nothing has changed nothing exactly if no block was taken in vain. -/
theorem writeNode_iff (hZero : v.space.ZeroTaken) (hSize : 0 < v.blockSize) (bytes : List UInt8)
    (now : Nat) :
    ((v.writeNode ino (v.inode ino) offset bytes now).2 = 0 →
        v.SameNames (v.writeNode ino (v.inode ino) offset bytes now).1) ↔
      v.RoomToWrite (v.inode ino) offset bytes := by
  by_cases hBytes : bytes = []
  · subst hBytes
    refine iff_of_true (fun _ => ?_) (.inl rfl)
    simp only [writeNode, writeLoop, List.take_nil, List.length_nil, Nat.le_refl, if_true]
    exact v.sameNames_touch ino now _
  have hSome : 0 < (bytes.take 8192).length := by
    have := List.length_pos_iff.mpr hBytes
    rw [List.length_take]
    omega
  unfold writeNode RoomToWrite
  rw [or_iff_right hBytes]
  generalize bytes.take 8192 = part at hSome ⊢
  have hFirst := writeLoop_first (i := v.inode ino) hSize hSome offset part.length
  generalize offset % 2 ^ 64 / v.blockSize = fb at hFirst ⊢
  simp only [Int.natCast_eq_zero]
  have hExtends := v.extend_ne_zero { v.inode ino with size := fb * v.blockSize % 2 ^ 64 }
  have hFails := @extend_fails { v.inode ino with size := fb * v.blockSize % 2 ^ 64 } v hZero
  rcases hExtend : v.extend { v.inode ino with size := fb * v.blockSize % 2 ^ 64 } with ⟨w, j, p⟩
  rw [hExtend] at hExtends hFails
  by_cases hMap : v.map (v.inode ino) fb = 0
  swap
  · refine iff_of_true (fun hNo => ?_) (.inl hMap)
    rw [blockFor, if_neg hMap] at hFirst
    exact absurd hNo (hFirst.resolve_right fun hNone => hMap hNone.2).2
  -- the first round decides: if it finds no block, there is no other
  rw [blockFor_hole hMap hExtend] at hFirst
  rw [or_iff_right (not_not.mpr hMap)]
  rcases hFirst with ⟨hPhys, hNe⟩ | ⟨hLoop, hPhys⟩
  · exact iff_of_true (fun hNo => absurd hNo hNe) fun hWaste =>
      (hExtends.mp hPhys).2.2 hWaste.2.2
  · rw [hLoop]
    rcases hFails (mt hExtends.mpr (not_not.mpr hPhys)) with ⟨hWaste, hSpace⟩ | ⟨hWaste, hIdle⟩
    · exact iff_of_false (fun hSame => hSpace (hSame hPhys).space) (not_not.mpr hWaste)
    · obtain ⟨rfl, rfl, rfl⟩ : w = v ∧ _ ∧ p = 0 := by simpa using hIdle
      exact iff_of_true (fun _ => w.sameNames_touch ino now _) hWaste

end Vol

/-! ## A refused request -/

theorem unchanged_moveTo (s : Vfs) (c : Nat) : Unchanged s (s.moveTo c) := fun _ => .refl _

variable {s : Vfs} {path : Name}

theorem unchanged_setVol {c : Nat} {v : Vol} :
    Unchanged s (s.setVol c v) ↔ (s.vol c).SameNames v := by
  refine ⟨fun hSame => ?_, fun hSame => Vfs.forall_setVol (P := fun c' w => (s.vol c').SameNames w)
    hSame fun c' _ => .refl (s.vol c')⟩
  have hHere := hSame c
  rwa [s.vol_setVol_self] at hHere

theorem createNode_iff (hOrder : ∀ c, (s.vol c).Orderly) (path : Name) (what : Make) (now : Nat) :
    ((s.createNode path what now).2 < 0 → Unchanged s (s.createNode path what now).1) ↔
      s.RoomFor path what := by
  unfold Vfs.createNode Vfs.RoomFor
  rcases splitPath path with _ | ⟨parent, name⟩
  · exact iff_of_true (fun _ _ => .refl _) trivial
  · rcases hLook : s.lookup parent with ⟨c, _ | ⟨dirIno, dir⟩⟩
    · simp only [hLook]
      exact iff_of_true (fun _ => unchanged_moveTo s c) trivial
    · simp only [hLook]
      rw [unchanged_setVol]
      refine Vol.makeNode_iff (hOrder c).zero (fun hKind p hOwns => ?_) dirIno now
      obtain rfl := Vfs.lookupDeep_inode hLook
      obtain ⟨others, hDir⟩ := (hOrder c).dirs dirIno hKind
      exact (hDir.hand.own p hOwns).1

variable {now : Nat} {who : Creds}

theorem linkNode_unchanged (hOrder : ∀ c, (s.vol c).Orderly) (existing path : Name) :
    ((s.linkNode existing path).2 < 0 → Unchanged s (s.linkNode existing path).1) ↔
      s.RoomForLink existing path := by
  unfold Vfs.linkNode Vfs.RoomForLink
  rcases s.lookupNofollow existing with ⟨c₀, _ | ⟨ino, target⟩⟩
  · exact iff_of_true (fun _ => unchanged_moveTo s c₀) trivial
  · rcases splitPath path with _ | ⟨parent, name⟩
    · refine iff_of_true (fun _ => ?_) trivial
      simp only
      split
      next => exact unchanged_moveTo s c₀
      next => exact unchanged_moveTo s c₀
    · rcases hLook : s.lookup parent with ⟨c, _ | ⟨dirIno, dir⟩⟩
      · refine iff_of_true (fun _ => ?_) (by simp only [hLook])
        simp only [hLook]
        split
        next => exact unchanged_moveTo s c₀
        next => exact unchanged_moveTo s c
      · simp only [hLook]
        split
        next hKind =>
          exact iff_of_true (fun _ => unchanged_moveTo s c₀) fun hNot => absurd hKind hNot
        next hKind =>
          rw [unchanged_setVol, forall_prop_of_true hKind]
          exact Vol.linkNode_iff (hOrder c).zero ino target.mode dirIno

theorem rename_iff {old new : Name} (hOrder : ∀ c, (s.vol c).Orderly)
    (hHome : AtHome s (.rename old new)) :
    ((s.rename who old new).2 < 0 → Unchanged s (s.rename who old new).1) ↔
      s.RoomForRename who old new := by
  unfold Vfs.rename Vfs.RoomForRename
  rcases hOld : splitPath old with _ | ⟨oldParent, oldName⟩
  · exact iff_of_true (fun _ _ => .refl _) trivial
  · rcases splitPath new with _ | ⟨newParent, newName⟩
    · exact iff_of_true (fun _ _ => .refl _) trivial
    · rcases hFrom : s.lookup oldParent with ⟨c₁, _ | ⟨fromIno, fromDir⟩⟩
      · simp only [hFrom]
        exact iff_of_true (fun _ => unchanged_moveTo s c₁) trivial
      · rcases hTo : s.lookup newParent with ⟨c₂, _ | ⟨toIno, toDir⟩⟩
        · simp only [hFrom, hTo]
          exact iff_of_true (fun _ => unchanged_moveTo s c₂) trivial
        · rcases hLook : s.lookup old with ⟨c, _ | ⟨ino, victim⟩⟩
          · simp only [hFrom, hTo]
            exact iff_of_true (fun _ => unchanged_moveTo s c) trivial
          · simp only [hFrom, hTo]
            split
            next hMay =>
              obtain ⟨rfl, hKind⟩ := hHome _ _ _ _ _ _ _ hOld hFrom hLook
              obtain rfl := Vfs.lookupDeep_inode hFrom
              obtain ⟨others, hDir⟩ := (hOrder c₁).dirs fromIno hKind
              rw [unchanged_setVol, forall_prop_of_true hMay]
              exact Vol.renameNode_iff (hOrder c₁).zero hDir hKind
            next hMay =>
              exact iff_of_true (fun _ => unchanged_moveTo s c) fun hCan => absurd hCan hMay

theorem write_iff (hOrder : ∀ c, (s.vol c).Orderly) (path : Name) (offset : Nat)
    (bytes : List UInt8) :
    ((s.write who now path offset bytes).2 = 0 →
        Unchanged s (s.write who now path offset bytes).1) ↔
      s.RoomForWrite who path offset bytes := by
  unfold Vfs.write Vfs.RoomForWrite
  rcases hLook : s.lookup path with ⟨c, _ | ⟨ino, i⟩⟩
  · exact iff_of_true (fun _ => unchanged_moveTo s c) trivial
  · simp only
    split
    next hMay =>
      obtain rfl := Vfs.lookupDeep_inode hLook
      rw [unchanged_setVol, forall_prop_of_true hMay]
      exact Vol.writeNode_iff (hOrder c).zero (hOrder c).blockSize bytes now
    next hMay => exact iff_of_true (fun _ => unchanged_moveTo s c) fun hCan => absurd hCan hMay

/-- On filesystems in order, a request that is refused has changed no bitmap, no count and no entry
exactly if what it may need late is there. -/
theorem unchanged_iff (s : Vfs) (e : Call) (hOrder : ∀ c, (s.vol c).Orderly)
    (hHome : AtHome s e.request) :
    (Refused e.request (s.handle e).2 → Unchanged s (s.handle e).1) ↔ Roomy s e := by
  obtain ⟨who, now, request⟩ := e
  cases request with
  | create path | mkdir path | mkfifo path => exact createNode_iff hOrder path _ now
  | symlink target path => exact createNode_iff hOrder path _ now
  | mknod path block rdev =>
    change ((rootOnly who s _).2 < 0 → Unchanged s (rootOnly who s _).1) ↔ (who.uid = 0 → _)
    unfold rootOnly
    split
    next hRoot =>
      rw [forall_prop_of_true hRoot]
      exact createNode_iff hOrder path _ now
    next hRoot => exact iff_of_true (fun _ _ => .refl _) fun hIs => absurd hIs hRoot
  | link existing path => exact linkNode_unchanged hOrder existing path
  | rename old new => exact rename_iff hOrder hHome
  | write path offset bytes => exact write_iff hOrder path offset bytes
  | _ => exact iff_of_true False.elim trivial

/-! ## A full filesystem -/

theorem oneBlock_eq_runRoot : oneBlock 5 = runRoot 1 5 := by
  funext k
  by_cases hk : k < 60
  · exact (by decide +kernel : ∀ k, k < 60 → oneBlock 5 k = runRoot 1 5 k) k hk
  · exact (setLE_of_not_mem (by omega)).symm

theorem inode_fileVol_of_ne {n : Nat} (taken size : Nat) (root : Block) (hn : n ≠ 11) :
    (fileVol taken size root).inode n = (smallVol taken).inode n :=
  Vol.inode_writeInode_of_ne _ _ 1 hn

/-- The file `/f` has no block, and no block is free. -/
def fullVfs : Vfs := { smallVfs 16 with vol := fun _ => fileVol 16 0 emptyRoot }

theorem orderly_fullVfs (c : Nat) : (fullVfs.vol c).Orderly := by
  change (fileVol 16 0 emptyRoot).Orderly
  have hUsable : (fileVol 16 0 emptyRoot).space.Usable := by
    have hAlike : Space.Alike (smallSpace 16) (fileVol 16 0 emptyRoot).space := ⟨rfl, rfl, rfl, rfl⟩
    exact ⟨.inl (by decide), fun p hp => (usable_smallSpace 16).low p ((hAlike.within p).mp hp)⟩
  refine ⟨hUsable.zero, by decide, fun n hKind => ?_⟩
  -- the root is the only directory, and its entries are in block 5
  by_cases hRoot : n = rootInode
  · subst hRoot
    rw [inode_fileVol_of_ne 16 0 emptyRoot (by decide)]
    refine ⟨_, Vol.InRun.dirHand (n := 1) (p := 5) ⟨?_, by decide, by decide, by decide +kernel,
      by decide, hUsable, fun k hk => ?_, fun k hk => ?_⟩⟩
    · rw [inode_smallVol_root, oneBlock_eq_runRoot]
    · obtain rfl : k = 0 := by omega
      exact ⟨0, 4, by decide, by decide, rfl, by decide⟩
    · obtain rfl : k = 0 := by omega
      exact ⟨by decide +kernel, by decide +kernel⟩
  · by_cases hFile : n = 11
    · subst hFile
      exact absurd hKind (by decide +kernel)
    · have hRaw : (smallVol 16).raw n = zeroBlock := if_neg hRoot
      rw [inode_fileVol_of_ne 16 0 emptyRoot hFile, Vol.inode, hRaw] at hKind
      exact absurd hKind (by decide +kernel)

/-- A byte is to be written to the file: there is no block for it, and nothing changes. -/
theorem unchanged_full_write :
    Refused (.write [slash, 102] 0 [120]) (fullVfs.handle (byRoot (.write [slash, 102] 0 [120]))).2 ∧
      Unchanged fullVfs (fullVfs.handle (byRoot (.write [slash, 102] 0 [120]))).1 := by
  have hRefused : (fullVfs.handle (byRoot (.write [slash, 102] 0 [120]))).2 = 0 := by decide +kernel
  have hRoom : Roomy fullVfs (byRoot (.write [slash, 102] 0 [120])) := by
    change fullVfs.RoomForWrite ⟨0, 0⟩ [slash, 102] 0 [120]
    unfold Vfs.RoomForWrite
    split
    next => trivial
    next =>
      refine fun _ => .inr (.inr fun hWaste => hWaste.2.1 ?_)
      exact (by decide +kernel : (fileVol 16 0 emptyRoot).space.allocBlock.2 = 0)
  have hHome : AtHome fullVfs (byRoot (.write [slash, 102] 0 [120])).request := trivial
  exact ⟨hRefused, (unchanged_iff _ _ orderly_fullVfs hHome).mpr hRoom hRefused⟩

/-- A directory is made where no block is free: its inode stays taken. -/
theorem not_unchanged_of_full :
    ¬ ∀ (s : Vfs) (e : Call), Refused e.request (s.handle e).2 → Unchanged s (s.handle e).1 := by
  intro hAll
  have hRefused : ((smallVfs 16).handle (byRoot (.mkdir [slash, 97]))).2 < 0 := by decide +kernel
  have hBits := congrArg (fun space => (space.group 0).inodeBits 10)
    (hAll (smallVfs 16) (byRoot (.mkdir [slash, 97])) hRefused 0).space
  exact absurd hBits (by decide +kernel)

end LeahOS.Vfsd
