import LeahOS.Lib.Run
import LeahOS.Vfsd.Volume
import Mathlib.Data.List.DropRight

/-!
# Requests that name files (`lookup_deep`, `create_node`, `link_node` and the handlers of `main`)

`Vfs` is the server above the block layer: up to four filesystems, where they are mounted, and which
is current. A request carries its paths as byte strings, the credentials the kernel reports for the
caller, and the time. The path of a request decides by `route` which filesystem it is about, and
`lookup_deep` leaves that one current; where a handler resolves several paths it goes on with the
filesystem of the last one.

The batch, the journal and the checks of a superblock that `route` and `mount_at` come with are in
`Mount`; here a disk is a filesystem or has none, and nothing is ever waiting to be written.

Each handler first resolves its paths and then works on the current filesystem with the copies of
inodes it was handed; the second part is a function of `Vol` of its own.
-/

namespace LeahOS.Vfsd
open Lib Function

/-! ## Answers -/

def ePerm : Int := -1
def eNoent : Int := -2
def eIo : Int := -5
def eAcces : Int := -13
def eBusy : Int := -16
def eExist : Int := -17
def eNotdir : Int := -20
def eIsdir : Int := -21
def eInval : Int := -22
def eNospc : Int := -28
def eNametoolong : Int := -36
def eNotempty : Int := -39

/-! ## Which filesystem -/

/-- The server: the filesystem in each slot, where it is mounted if the slot is in use, the disk it
is on, and the current slot. -/
structure Vfs where
  vol : Nat → Vol
  point : Nat → Option Name
  dev : Nat → Nat
  cur : Nat

/-- The byte of a slash. -/
def slash : UInt8 := 47

/-- The path is the mount point or lies under it. -/
def underPoint (path point : Name) : Bool :=
  point.isPrefixOf path &&
    match path.drop point.length with
    | [] => true
    | c :: _ => c == slash

/-- One round of the loop of `route`. -/
def Vfs.betterPoint (s : Vfs) (path : Name) (best : Nat × Nat) (i : Nat) : Nat × Nat :=
  match s.point i with
  | none => best
  | some point =>
    if point.length ≠ 1 ∧ underPoint path point ∧ best.2 < point.length then (i, point.length)
    else best

/-- `route`: the slot of a path and what it is called there. -/
def Vfs.routeTo (s : Vfs) (path : Name) : Nat × Name :=
  let best := (List.range fsMax).foldl (s.betterPoint path) (0, 0)
  (best.1, if best.2 = 0 then path else if path.drop best.2 = [] then [slash] else path.drop best.2)

/-! ## Paths -/

/-- The inode of the root directory. -/
def rootInode : Nat := 2

/-- `read_link`: the target of a symbolic link as a string. -/
def Vol.readLink (v : Vol) (i : Inode) (max : Nat) : Option Name :=
  let text := fun (b : Block) => ((List.range i.size).map b).takeWhile (· ≠ 0)
  if i.size = 0 ∨ max ≤ i.size then none
  else if i.size < 60 then some (text i.block)
  else if v.map i 0 = 0 then none
  else some (text (v.data (v.map i 0)))

/-- What a path leads to: an inode, with its number. -/
abbrev Found := Option (Nat × Inode)

/-- The path that is looked up in place of one that runs into a symbolic link: `before` is what
comes before the link, `rest` what comes behind it. It is cut to the size of the buffer. -/
def relink (before target rest : Name) : Name :=
  let behind := if rest = [] then [] else slash :: rest
  (if target.head? = some slash then target ++ behind
    else before.rdropWhile (· == slash) ++ slash :: target ++ behind).take 511

/-- The loop of `lookup_deep` over the components of a path, from the inode `ino`. `done` is the
part of the path that is behind it; `again` looks a path up from the start, for symbolic links.
A component is taken at most 63 bytes at a time. -/
def Vol.walkPath (v : Vol) (cur : Nat) (follow : Bool) (again : Name → Nat × Found) :
    Nat → Name → Name → Nat → Inode → Nat × Found
  | 0, _, _, _, _ => (cur, none)
  | n + 1, done, path, ino, out =>
    let done := done ++ path.takeWhile (· == slash)
    let path := path.dropWhile (· == slash)
    if path = [] then (cur, some (ino, out))
    else
      let part := (path.takeWhile (· != slash)).take 63
      let rest := (path.drop part.length).dropWhile (· == slash)
      let found := v.dirSearch out part
      if found = 0 then (cur, none)
      else
        let out := v.inode found
        if modeKind out.mode = modeLink ∧ (rest ≠ [] ∨ follow = true) then
          match v.readLink out 512 with
          | none => (cur, none)
          | some target => again (relink done target rest)
        else v.walkPath cur follow again n (done ++ part) (path.drop part.length) found out

/-- `lookup_deep`, with the number of links that may still be followed and one more: the filesystem
that is current afterwards and what the path leads to. -/
def Vfs.lookupDeep (s : Vfs) (follow : Bool) : Nat → Name → Nat × Found
  | 0, path => ((s.routeTo path).1, none)
  | n + 1, path =>
    let r := s.routeTo path
    (s.vol r.1).walkPath r.1 follow (s.lookupDeep follow n) (r.2.length + 1) [] r.2 rootInode
      ((s.vol r.1).inode rootInode)

def Vfs.lookup (s : Vfs) (path : Name) : Nat × Found := s.lookupDeep true 17 path

def Vfs.lookupNofollow (s : Vfs) (path : Name) : Nat × Found := s.lookupDeep false 17 path

/-- A path that leads somewhere leads to an inode of the filesystem that is current afterwards. -/
theorem Vfs.lookupDeep_inode {s : Vfs} {follow : Bool} {n : Nat} {path : Name} {c ino : Nat}
    {i : Inode} (hFound : s.lookupDeep follow n path = (c, some (ino, i))) :
    i = (s.vol c).inode ino := by
  induction n generalizing path c ino i with
  | zero => cases hFound
  | succ n ih =>
    have hWalk : ∀ (k : Nat) (v : Vol) (slot : Nat) (done path : Name) (at' : Nat) (out : Inode),
        v = s.vol slot → out = v.inode at' →
        v.walkPath slot follow (s.lookupDeep follow n) k done path at' out = (c, some (ino, i)) →
        i = (s.vol c).inode ino := by
      intro k
      induction k with
      | zero =>
        intro v slot done path at' out hVol hOut hWalk
        cases hWalk
      | succ k ihWalk =>
        intro v slot done path at' out hVol hOut hWalk
        rw [Vol.walkPath] at hWalk
        simp only at hWalk
        split at hWalk
        next =>
          cases hWalk
          rw [hOut, hVol]
        next =>
          split at hWalk
          next => cases hWalk
          next =>
            split at hWalk
            next =>
              split at hWalk
              next => cases hWalk
              next => exact ih hWalk
            next => exact ihWalk v slot _ _ _ _ hVol rfl hWalk
    exact hWalk _ _ _ _ _ _ _ rfl rfl hFound

/-- `split_path`: the directory and the last component. -/
def splitPath (path : Name) : Option (Name × Name) :=
  let name := path.rtakeWhile (· != slash)
  let cut := path.length - name.length - 1
  if slash ∈ path ∧ 0 < name.length ∧ name.length ≤ 63 then
    some (if cut = 0 then [slash] else path.take cut, name)
  else none

/-! ## Who may -/

/-- The credentials of a caller. -/
structure Creds where
  uid : Nat
  gid : Nat

/-- `may_access`, for writing. -/
def mayWrite (i : Inode) (c : Creds) : Bool :=
  if c.uid = 0 then true
  else if i.uid = c.uid then i.mode.testBit 7
  else if i.gid = c.gid then i.mode.testBit 4
  else i.mode.testBit 1

/-! ## Making things -/

/-- What `create_node` makes. -/
inductive Make
  | file
  | dir
  | fifo
  | chr (rdev : Nat)
  | blk (rdev : Nat)
  | link (target : Name)

/-- The mode of a new inode. -/
def Make.mode : Make → Nat
  | .file => 0o100644
  | .dir => 0o040755
  | .fifo => 0o010644
  | .chr _ => 0o020666
  | .blk _ => 0o060660
  | .link _ => 0o120777

/-- The type of the entry of a new inode. -/
def Make.type : Make → UInt8
  | .file => 1
  | .dir => 2
  | .fifo => 5
  | .chr _ => 3
  | .blk _ => 4
  | .link _ => 7

/-- An empty root with room for four extents. -/
def emptyRoot : Block := wr16w (wr16w (wr16w (wr16w zeroBlock 0 extMagic) 2 0) 4 4) 6 0

/-- `touch_inode`. -/
def touch (i : Inode) (now : Nat) : Inode := { i with ctime := now, mtime := now, atime := now }

/-- The inode `create_node` starts from. -/
def Make.fresh (what : Make) (now : Nat) : Inode :=
  touch ⟨what.mode, 0, 0, 0, 0, 0, 0, emptyRoot⟩ now

/-- The inode of a device, with its number in place of the extents. -/
def deviceInode (i : Inode) (rdev : Nat) : Inode := { i with block := wr32w zeroBlock 0 rdev }

/-- A directory is made. -/
def Make.isDir : Make → Bool
  | .dir => true
  | _ => false

/-- The new file needs a block of its own. -/
def Make.big : Make → Bool
  | .dir => true
  | .link target => decide (60 ≤ target.length)
  | _ => false

namespace Vol

/-- The inode that was taken for a new file is filled in; the answer is zero unless a block could
not be had. -/
def fillNode (v : Vol) (ino dirIno : Nat) (what : Make) (now : Nat) : Vol × Int :=
  let fresh := what.fresh now
  match what with
  | .file | .fifo => (v.writeInode ino fresh 1, 0)
  | .chr rdev | .blk rdev =>
    ((v.writeInode ino fresh 1).writeInode ino (deviceInode fresh rdev) 1, 0)
  | .link target =>
    let fresh := { fresh with size := target.length }
    if target.length < 60 then
      (v.writeInode ino { fresh with block := copyIn zeroBlock 0 target } 1, 0)
    else
      match (v.writeInode ino fresh 1).extend fresh with
      | (v, _, 0) => (v, eNospc)
      | (v, fresh, phys + 1) =>
        let v := v.writeData (phys + 1) (copyIn zeroBlock 0 (target.take v.blockSize))
        (v.writeInode ino fresh 1, 0)
  | .dir =>
    match (v.writeInode ino fresh 2).extend fresh with
    | (v, _, 0) => (v, eIo)
    | (v, fresh, phys + 1) =>
      let v := v.writeData (phys + 1) (freshDir v.blockSize ino dirIno)
      (v.writeInode ino { fresh with size := v.blockSize } 2, 0)

theorem growable_fresh (what : Make) (now : Nat) : Growable (what.fresh now) := by
  have hRoot : (what.fresh now).block = emptyRoot := rfl
  unfold Growable
  rw [hRoot]
  decide

/-- Without a block: the inode record is written. -/
theorem fillNode_small (v : Vol) (ino dirIno : Nat) {what : Make} (now : Nat)
    (hSmall : what.big = false) : ∃ r, v.fillNode ino dirIno what now = (v.setRaw ino r, 0) := by
  have hTwice : ∀ i j, (v.writeInode ino i 1).writeInode ino j 1 =
      v.setRaw ino (recordOf v.blockSize (recordOf v.blockSize (v.raw ino) i 1) j 1) := by
    simp [writeInode, setRaw]
  cases what with
  | file | fifo => exact ⟨_, rfl⟩
  | chr | blk => exact ⟨_, Prod.ext (hTwice _ _) rfl⟩
  | dir => cases hSmall
  | link target =>
    have hShort : target.length < 60 := Nat.not_le.mp (of_decide_eq_false hSmall)
    exact ⟨_, if_pos hShort⟩

variable {p : Nat} {space : Space} {v : Vol}

/-- With a block: it is written, and the inode record. -/
theorem fillNode_big {what : Make} (hAlloc : v.space.allocBlock = (space, p + 1))
    (ino dirIno now : Nat) (hBig : what.big = true) : ∃ b r, v.fillNode ino dirIno what now =
      (({ v with space := space }.writeData (p + 1) b).setRaw ino r, 0) := by
  cases what with
  | dir =>
    obtain ⟨root, hExtend⟩ := extend_room (v := v.writeInode ino (Make.dir.fresh now) 2)
      (growable_fresh .dir now) hAlloc
    refine ⟨freshDir v.blockSize ino dirIno, recordOf v.blockSize
      (recordOf v.blockSize (v.raw ino) (Make.dir.fresh now) 2)
      { Make.dir.fresh now with block := root, size := v.blockSize } 2, ?_⟩
    unfold fillNode
    simp only [hExtend]
    simp [writeInode, setRaw, writeData]
  | link target =>
    have hLong : ¬ target.length < 60 := Nat.not_lt.mpr (of_decide_eq_true hBig)
    obtain ⟨fresh, hFresh⟩ : ∃ i, { (Make.link target).fresh now with size := target.length } = i :=
      ⟨_, rfl⟩
    have hGrow : Growable fresh := hFresh ▸ growable_fresh (.link target) now
    obtain ⟨root, hExtend⟩ := extend_room (v := v.writeInode ino fresh 1) hGrow hAlloc
    refine ⟨copyIn zeroBlock 0 (target.take v.blockSize), recordOf v.blockSize
      (recordOf v.blockSize (v.raw ino) fresh 1) { fresh with block := root } 1, ?_⟩
    unfold fillNode
    simp only [if_neg hLong, hFresh, hExtend]
    simp [writeInode, setRaw, writeData]
  | file | fifo | chr | blk => cases hBig

/-- The rest of `create_node`, when the parent was found: `dir` is its inode. -/
def makeNode (v : Vol) (dirIno : Nat) (dir : Inode) (name : Name) (what : Make) (now : Nat) :
    Vol × Int :=
  if modeKind dir.mode ≠ modeDir then (v, eNotdir)
  else if v.dirSearch dir name ≠ 0 then (v, eExist)
  else
    match v.space.allocInode what.isDir with
    | (space, 0) => ({ v with space := space }, eNospc)
    | (space, n + 1) =>
      match { v with space := space }.fillNode (n + 1) dirIno what now with
      | (v, 0) =>
        match v.dirAdd dir dirIno name (n + 1) what.type with
        | (v, _, false) => (v, eIo)
        | (v, _, true) =>
          (if what.isDir then v.setLinks dirIno (v.inodeLinks dirIno + 1) else v, 0)
      | (v, e) => (v, e)

/-- The rest of `link_node`: the inode `ino` with mode `mode` gets one more name. -/
def linkNode (v : Vol) (ino mode dirIno : Nat) (dir : Inode) (name : Name) : Vol × Int :=
  if modeKind dir.mode ≠ modeDir then (v, eNotdir)
  else if v.dirSearch dir name ≠ 0 then (v, eExist)
  else
    match v.dirAdd dir dirIno name ino (if modeKind mode = modeLink then 7 else 1) with
    | (v, _, false) => (v, eIo)
    | (v, _, true) => (v.setLinks ino (v.inodeLinks ino + 1), 0)

/-! ## Removing -/

/-- The inode has no block of its own: a symbolic link with its target in the inode. -/
def inlineLink (i : Inode) : Bool := decide (modeKind i.mode = modeLink) && decide (i.size < 60)

/-- The deletion time that is written. -/
def deletedAt : Nat := 0x60000000

/-- An inode that no name is left for: its blocks go back, and then itself. -/
def freeNode (v : Vol) (ino : Nat) : Vol :=
  let victim := v.inode ino
  let v := if inlineLink victim then v else v.freeMapped victim
  let v := v.writeInode ino ⟨0, 0, 0, 0, 0, 0, 0, zeroBlock⟩ 0
  let v := v.setRaw ino (wr32w (v.raw ino) 20 deletedAt)
  { v with space := v.space.releaseInode ino false }

/-- The rest of `VFS_UNLINK`, when parent and path were found: `probe` is the inode the path leads
to and `pino` its number. -/
def unlinkNode (v : Vol) (dirIno : Nat) (dir : Inode) (name : Name) (pino : Nat) (probe : Inode) :
    Vol × Int :=
  let removingDir := decide (modeKind probe.mode = modeDir)
  if removingDir && !v.dirIsEmpty probe then (v, eNotempty)
  else
    let had := v.inodeLinks pino
    match v.dirRemove dir name with
    | none => (v, eNoent)
    | some (v, ino) =>
      if !removingDir && decide (1 < had) then (v.setLinks ino (had - 1), 0)
      else
        let v := v.freeNode ino
        if removingDir then
          let v := v.setLinks dirIno (v.inodeLinks dirIno - 1)
          ({ v with space := v.space.dropDir (v.space.inodeGroup ino) }, 0)
        else (v, 0)

/-- What a successful `VFS_UNLINK` has done. -/
theorem unlinkNode_ok {dirIno : Nat} {dir : Inode} {name : Name} {pino : Nat} {probe : Inode}
    (hOk : (v.unlinkNode dirIno dir name pino probe).2 = 0) :
    ∃ w ino, v.dirRemove dir name = some (w, ino) ∧
      (modeKind probe.mode ≠ modeDir ∧ 1 < v.inodeLinks pino ∨
        (v.unlinkNode dirIno dir name pino probe).1 = w.freeNode ino ∨
        ∃ f, f = (w.freeNode ino).setLinks dirIno ((w.freeNode ino).inodeLinks dirIno - 1) ∧
          (v.unlinkNode dirIno dir name pino probe).1 =
            { f with space := f.space.dropDir (f.space.inodeGroup ino) }) := by
  unfold unlinkNode at hOk ⊢
  simp only at hOk ⊢
  split at hOk
  next => cases hOk
  next hEmpty =>
    rw [if_neg hEmpty]
    cases hRemove : v.dirRemove dir name with
    | none =>
      rw [hRemove] at hOk
      cases hOk
    | some r =>
      obtain ⟨w, ino⟩ := r
      refine ⟨w, ino, rfl, ?_⟩
      by_cases hDir : modeKind probe.mode = modeDir
      · exact .inr (.inr ⟨_, rfl, by simp [hDir]⟩)
      · by_cases hLinks : 1 < v.inodeLinks pino
        · exact .inl ⟨hDir, hLinks⟩
        · exact .inr (.inl (by simp [hDir, hLinks]))

/-! ## Renaming -/

/-- The rest of `VFS_RENAME`, when the parents and the file were found: `victim` is the inode the
old path leads to. -/
def renameNode (v : Vol) (fromIno : Nat) (fromDir : Inode) (old : Name) (toIno : Nat) (toDir : Inode)
    (new : Name) (victim : Inode) : Vol × Int :=
  let type : UInt8 := if modeKind victim.mode = modeDir then 2 else 1
  if v.dirSearch toDir new ≠ 0 then (v, eIo)
  else
    match v.dirRemove fromDir old with
    | none => (v, eIo)
    | some (v, ino) =>
      if fromIno = toIno then
        match v.dirAdd fromDir fromIno new ino type with
        | (v, _, false) => (v, eIo)
        | (v, fromDir, true) => (v.writeInode fromIno fromDir (v.inodeLinks fromIno), 0)
      else
        match v.dirAdd toDir toIno new ino type with
        | (v, _, false) => (v, eIo)
        | (v, toDir, true) =>
          let v := v.writeInode toIno toDir (v.inodeLinks toIno)
          (v.writeInode fromIno fromDir (v.inodeLinks fromIno), 0)

/-! ## Contents -/

/-- What the loop of `VFS_READ` puts into the answer: the bytes from `offset` on, at most `want`;
where there is no block they are zero. -/
def readNode (v : Vol) (i : Inode) (offset want : Nat) : List UInt8 :=
  if i.size ≤ offset then []
  else
    (List.range (min (min want (i.size - offset)) 8192)).map fun k =>
      let phys := v.map i ((offset + k) / v.blockSize)
      if phys = 0 then 0 else v.data phys ((offset + k) % v.blockSize)

/-- The block of a file that is written to. One that is not there is appended as if the file ended
before it. -/
def blockFor (v : Vol) (i : Inode) (fb : Nat) : Vol × Inode × Nat :=
  if v.map i fb = 0 then
    let r := v.extend { i with size := fb * v.blockSize % 2 ^ 64 }
    (r.1, { r.2.1 with size := i.size }, r.2.2)
  else (v, i, v.map i fb)

/-- The loop of `VFS_WRITE` over the blocks of the file, with `done` bytes written. -/
def writeLoop (v : Vol) (i : Inode) (offset : Nat) (bytes : List UInt8) :
    Nat → Nat → Vol × Inode × Nat
  | 0, done => (v, i, done)
  | n + 1, done =>
    if bytes.length ≤ done then (v, i, done)
    else
      let pos := (offset + done) % 2 ^ 64
      let within := pos % v.blockSize
      let len := min (v.blockSize - within) (bytes.length - done)
      let r := v.blockFor i (pos / v.blockSize)
      if r.2.2 = 0 then (r.1, r.2.1, done)
      else
        let part := (bytes.drop done).take len
        let v := r.1.writeData r.2.2 (copyIn (r.1.data r.2.2) within part)
        let upTo := (offset + (done + len)) % 2 ^ 64
        let i := { r.2.1 with size := max r.2.1.size upTo }
        v.writeLoop i offset bytes n (done + len)

/-- The rest of `VFS_WRITE`, by a caller who may; the answer is the number of bytes written. -/
def writeNode (v : Vol) (ino : Nat) (i : Inode) (offset : Nat) (bytes : List UInt8) (now : Nat) :
    Vol × Int :=
  let bytes := bytes.take 8192
  let r := v.writeLoop i offset bytes (bytes.length + 1) 0
  (r.1.writeInode ino (touch r.2.1 now) (r.1.inodeLinks ino), (r.2.2 : Int))

/-- The rest of `VFS_TRUNC`. -/
def truncNode (v : Vol) (ino : Nat) (i : Inode) (now : Nat) : Vol :=
  let v := v.freeMapped i
  v.writeInode ino { touch i now with block := emptyRoot, size := 0 } (v.inodeLinks ino)

end Vol

/-! ## The handlers -/

namespace Vfs

/-- Another filesystem becomes current. -/
def moveTo (s : Vfs) (c : Nat) : Vfs := { s with cur := c }

/-- A filesystem becomes current and changes. -/
def setVol (s : Vfs) (c : Nat) (v : Vol) : Vfs :=
  { s with cur := c, vol := update s.vol c v }

@[simp]
theorem vol_setVol_self (s : Vfs) (c : Nat) (v : Vol) : (s.setVol c v).vol c = v :=
  update_self ..

variable {c : Nat}

@[simp]
theorem vol_setVol_of_ne (s : Vfs) {c' : Nat} (v : Vol) (h : c' ≠ c) :
    (s.setVol c v).vol c' = s.vol c' :=
  update_of_ne h ..

/-- What holds of the filesystem that changed and of the others as they were holds of all. -/
theorem forall_setVol {s : Vfs} {v : Vol} {P : Nat → Vol → Prop} (hHere : P c v)
    (hElse : ∀ c', c' ≠ c → P c' (s.vol c')) (c' : Nat) : P c' ((s.setVol c v).vol c') := by
  by_cases hEq : c' = c
  · subst hEq
    rwa [vol_setVol_self]
  · rw [vol_setVol_of_ne s v hEq]
    exact hElse c' hEq

def createNode (s : Vfs) (path : Name) (what : Make) (now : Nat) : Vfs × Int :=
  match splitPath path with
  | none => (s, eInval)
  | some (parent, name) =>
    match s.lookup parent with
    | (c, none) => (s.moveTo c, eNoent)
    | (c, some (dirIno, dir)) =>
      let r := (s.vol c).makeNode dirIno dir name what now
      (s.setVol c r.1, r.2)

def linkNode (s : Vfs) (existing path : Name) : Vfs × Int :=
  match s.lookupNofollow existing with
  | (c, none) => (s.moveTo c, eNoent)
  | (c, some (ino, target)) =>
    if modeKind target.mode = modeDir then (s.moveTo c, ePerm)
    else
      match splitPath path with
      | none => (s.moveTo c, eInval)
      | some (parent, name) =>
        match s.lookup parent with
        | (c, none) => (s.moveTo c, eNoent)
        | (c, some (dirIno, dir)) =>
          let r := (s.vol c).linkNode ino target.mode dirIno dir name
          (s.setVol c r.1, r.2)

/-- `VFS_UNLINK`. -/
def unlink (s : Vfs) (path : Name) : Vfs × Int :=
  match splitPath path with
  | none => (s, eInval)
  | some (parent, name) =>
    match s.lookup parent with
    | (c, none) => (s.moveTo c, eNoent)
    | (_, some (dirIno, dir)) =>
      match s.lookupNofollow path with
      | (c, none) => (s.moveTo c, eNoent)
      | (c, some (pino, probe)) =>
        let r := (s.vol c).unlinkNode dirIno dir name pino probe
        (s.setVol c r.1, r.2)

/-- `VFS_RENAME`. -/
def rename (s : Vfs) (who : Creds) (old new : Name) : Vfs × Int :=
  match splitPath old, splitPath new with
  | some (oldParent, oldName), some (newParent, newName) =>
    match s.lookup oldParent with
    | (c, none) => (s.moveTo c, eIo)
    | (_, some (fromIno, fromDir)) =>
      match s.lookup newParent with
      | (c, none) => (s.moveTo c, eIo)
      | (_, some (toIno, toDir)) =>
        match s.lookup old with
        | (c, none) => (s.moveTo c, eIo)
        | (c, some (_, victim)) =>
          if mayWrite victim who then
            let r := (s.vol c).renameNode fromIno fromDir oldName toIno toDir newName victim
            (s.setVol c r.1, r.2)
          else (s.moveTo c, eIo)
  | _, _ => (s, eIo)

/-- `VFS_WRITE`. That the path leads to a directory only changes the answer to a caller who may
not write. -/
def write (s : Vfs) (who : Creds) (now : Nat) (path : Name) (offset : Nat) (bytes : List UInt8) :
    Vfs × Int :=
  match s.lookup path with
  | (c, none) => (s.moveTo c, eNoent)
  | (c, some (ino, i)) =>
    if mayWrite i who then
      let r := (s.vol c).writeNode ino i offset bytes now
      (s.setVol c r.1, r.2)
    else (s.moveTo c, if modeKind i.mode = modeDir then eIsdir else eAcces)

/-- `VFS_TRUNC`. -/
def trunc (s : Vfs) (who : Creds) (now : Nat) (path : Name) : Vfs × Int :=
  match s.lookup path with
  | (c, none) => (s.moveTo c, eNoent)
  | (c, some (ino, i)) =>
    if mayWrite i who then (s.setVol c ((s.vol c).truncNode ino i now), 0)
    else (s.moveTo c, eAcces)

/-- `VFS_CHMOD` and `VFS_CHOWN`: the caller may if `allowed` says so of the inode. -/
def change (s : Vfs) (path : Name) (allowed : Inode → Bool) (f : Inode → Inode) : Vfs × Int :=
  match s.lookup path with
  | (c, none) => (s.moveTo c, eNoent)
  | (c, some (ino, i)) =>
    if allowed i then
      let v := s.vol c
      (s.setVol c (v.writeInode ino (f i) (v.inodeLinks ino)), 0)
    else (s.moveTo c, ePerm)

/-- `VFS_CHMOD`. -/
def chmod (s : Vfs) (who : Creds) (path : Name) (mode : Nat) : Vfs × Int :=
  s.change path (fun i => who.uid == 0 || i.uid == who.uid) fun i =>
    { i with mode := modeKind i.mode + mode % 2 ^ 9 }

/-- `VFS_CHOWN`. -/
def chown (s : Vfs) (who : Creds) (path : Name) (uid gid : Nat) : Vfs × Int :=
  s.change path (fun _ => who.uid == 0) fun i => { i with uid := uid, gid := gid }

/-- The requests that only look a path up and read; what they answer is left out. -/
def look (s : Vfs) (path : Name) (follow : Bool) : Vfs := s.moveTo (s.lookupDeep follow 17 path).1

/-- `mount_at`: `disk` is the filesystem on the device, if there is one to be mounted. -/
def mountAt (s : Vfs) (dev : Nat) (disk : Option Vol) (point : Name) : Vfs × Int :=
  if (List.range fsMax).any fun i =>
      s.point i == some point || (s.point i).isSome && s.dev i == dev then (s, eBusy)
  else
    match (List.range fsMax).find? fun i => s.point i == none with
    | none => (s, eNospc)
    | some i =>
      if 64 ≤ point.length then (s, eNametoolong)
      else
        match disk with
        | none => (s, eIo)
        | some v =>
          ({ s with vol := update s.vol i v
                    point := update s.point i (some point)
                    dev := update s.dev i dev }, 0)

/-- `VFS_UMOUNT`; the root stays. -/
def umount (s : Vfs) (point : Name) : Vfs × Int :=
  match (List.range fsMax).find? fun i => i != 0 && s.point i == some point with
  | none => (s, eInval)
  | some i =>
    ({ s with point := update s.point i none, cur := if s.cur = i then 0 else s.cur }, 0)

end Vfs

/-- A bit of a block bitmap is set and no count changes: what the checker does when it repairs. -/
def Space.markBlock (s : Space) (b : Nat) : Space :=
  s.setGroup (s.blockGroup b) { s.group (s.blockGroup b) with
    blockBits := update (s.group (s.blockGroup b)).blockBits (s.blockBit b) true }

/-- What `fsck_run` can do to a filesystem: mark blocks, and correct the superblock's count of free
blocks. Which ones it marks and what it counts is left open. -/
def Vol.repair (v : Vol) (marks : List Nat) (free : Nat) : Vol :=
  { v with space := { marks.foldl Space.markBlock v.space with freeBlocks := free } }

/-- The requests. -/
inductive Request
  | create (path : Name)
  | mkdir (path : Name)
  | mkfifo (path : Name)
  | mknod (path : Name) (block : Bool) (rdev : Nat)
  | symlink (target path : Name)
  | link (existing path : Name)
  | unlink (path : Name)
  | rename (old new : Name)
  | write (path : Name) (offset : Nat) (bytes : List UInt8)
  | trunc (path : Name)
  | chmod (path : Name) (mode : Nat)
  | chown (path : Name) (uid gid : Nat)
  | look (path : Name) (follow : Bool)
  | fsck (marks : List Nat) (free : Nat)
  | mount (dev : Nat) (disk : Option Vol) (point : Name)
  | umount (point : Name)

/-- A request, with what the kernel says of its sender and the time it is handled at. -/
structure Call where
  who : Creds
  now : Nat
  request : Request

/-- What only root may do. -/
def rootOnly (who : Creds) (s : Vfs) (r : Vfs × Int) : Vfs × Int :=
  if who.uid = 0 then r else (s, ePerm)

/-- One round of the loop of `main`: the new state and the answer. -/
def Vfs.handle (s : Vfs) (e : Call) : Vfs × Int :=
  match e.request with
  | .create path => s.createNode path .file e.now
  | .mkdir path => s.createNode path .dir e.now
  | .mkfifo path => s.createNode path .fifo e.now
  | .mknod path block rdev =>
    rootOnly e.who s (s.createNode path (if block then .blk rdev else .chr rdev) e.now)
  | .symlink target path => s.createNode path (.link target) e.now
  | .link existing path => s.linkNode existing path
  | .unlink path => s.unlink path
  | .rename old new => s.rename e.who old new
  | .write path offset bytes => s.write e.who e.now path offset bytes
  | .trunc path => s.trunc e.who e.now path
  | .chmod path mode => s.chmod e.who path mode
  | .chown path uid gid => s.chown e.who path uid gid
  | .look path follow => (s.look path follow, 0)
  | .fsck marks free =>
    rootOnly e.who s (s.setVol s.cur ((s.vol s.cur).repair marks free), 0)
  | .mount dev disk point => rootOnly e.who s (s.mountAt dev disk point)
  | .umount point => rootOnly e.who s (s.umount point)

/-! ## A small filesystem -/

/-- One group of sixteen blocks and sixteen inodes, of which the first `taken` blocks and the ten
reserved inodes are in use. -/
def smallSpace (taken : Nat) : Space where
  firstDataBlock := 1
  blocksPerGroup := 16
  inodesPerGroup := 16
  groupCount := 1
  group := fun _ => ⟨16 - taken, 6, 1, (· < taken), (· < 10)⟩
  freeBlocks := 16 - taken
  freeInodes := 6

/-- A filesystem with nothing but its root, whose entries are in block 5. -/
def smallVol (taken : Nat) : Vol where
  blockSize := 1024
  space := smallSpace taken
  raw := fun n =>
    if n = rootInode then
      recordOf 1024 zeroBlock ⟨0o040755, 0, 0, 1024, 0, 0, 0, pushExtent emptyRoot 0 5⟩ 2
    else zeroBlock
  data := fun p => if p = 5 then freshDir 1024 rootInode rootInode else zeroBlock

/-- The server with that one mounted. -/
def smallVfs (taken : Nat) : Vfs where
  vol := fun _ => smallVol taken
  point := fun i => if i = 0 then some [slash] else none
  dev := fun _ => 0
  cur := 0

/-- A request root makes at time zero. -/
def byRoot (request : Request) : Call := ⟨⟨0, 0⟩, 0, request⟩

end LeahOS.Vfsd
