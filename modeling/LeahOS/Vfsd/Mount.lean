import LeahOS.Vfsd.Journal

/-!
# Mounts and requests of `vfsd`

Several filesystems can be mounted at once. `g_cur` says which of them the block
layer works on, and four places move it: `route`, `mount_at`, and the handlers of
`VFS_MOUNT` and `VFS_UMOUNT`. The batch that is being collected outlives all of
them.

The loop of `main` is modelled as a sequence of events. A request is `begin`, then
what its handler does, then `finish`. What a handler does to the block layer is to
resolve paths (`access`) and to write blocks (`write`), in any order and number; the
handlers of `VFS_MOUNT` and `VFS_UMOUNT` are events of their own.
-/

namespace LeahOS.Vfsd
open Function

/-! ## The batch of a request -/

/-- Start collecting, unless a batch is open already. -/
def txnBegin (s : Server) : Server :=
  if s.txnOpen then s else { s with txn := [], txnOpen := true }

/-- Close the batch when it is asked for, nearly full, or old. -/
def txnEnd (s : Server) (force old : Bool) : Server × Bool :=
  if !s.txnOpen then (s, true)
  else if !force && !(txnMax < s.txn.length + txnHeadroom) && !old then (s, true)
  else
    let r := txnFlush s
    ({ r.1 with txnOpen := false }, r.2)

/-! ## Which mount a path belongs to -/

/-- The path is the mount point or lies under it. -/
def isUnder (path point : List Char) : Bool :=
  point.isPrefixOf path &&
    match path.drop point.length with
    | [] => true
    | c :: _ => c == '/'

/-- One round of the loop of `route`: the longest mount point wins. -/
def routeStep (s : Server) (path : List Char) (best : Nat × Nat) (i : Nat) : Nat × Nat :=
  let n := (s.fs i).mountPoint.length
  if (s.fs i).used && n != 1 && isUnder path (s.fs i).mountPoint && decide (best.2 < n) then (i, n)
  else best

/-- The slot a path belongs to and the length of its mount point. -/
def routeBest (s : Server) (path : List Char) : Nat × Nat :=
  (List.range fsMax).foldl (routeStep s path) (0, 0)

/-- Make the mount of this path current. Crossing mounts commits what is held; the
result of that commit is not looked at. Returns the path inside the mount. -/
def route (s : Server) (path : List Char) : Server × List Char :=
  let best := routeBest s path
  let s := if best.1 ≠ s.cur ∧ s.txnOpen = true then (txnFlush s).1 else s
  ({ s with cur := best.1 }, if best.2 = 0 then path
    else match path.drop best.2 with
      | [] => ['/']
      | rest => rest)

/-! ## Mounting and unmounting -/

/-- How `mount_at` fails: `EBUSY`, `ENOSPC`, `ENAMETOOLONG`, `EIO`. -/
inductive MountError where
  | busy
  | noSpace
  | nameTooLong
  | io
  deriving DecidableEq, Repr

/-- Room for a mount point, its terminator included. -/
def atSize : Nat := 64

/-- The loop of `mount_at`: the first free slot, unless the place or the disk is
taken. -/
def findSlot (s : Server) (dev : Nat) (point : List Char) :
    List Nat → Option Nat → Except MountError Nat
  | [], none => .error .noSpace
  | [], some slot => if atSize ≤ point.length then .error .nameTooLong else .ok slot
  | i :: rest, slot =>
    if (s.fs i).used && (s.fs i).mountPoint == point then .error .busy
    else if (s.fs i).used && (s.fs i).dev == dev then .error .busy
    else findSlot s dev point rest (if !(s.fs i).used && slot.isNone then some i else slot)

/-- `mount_at`. On success the new slot is left current. -/
def mountAt (vol : Nat → Option Volume) (fuel : Nat) (s : Server) (dev : Nat)
    (point : List Char) : Option (Server × Option MountError) :=
  match findSlot s dev point (List.range fsMax) none with
  | .error e => some (s, some e)
  | .ok slot =>
    let was := s.cur
    let s := { s with
      cur := slot
      fs := update s.fs slot { Fs.zero with dev := dev, blockSize := 1024 } }
    match mountReadSb vol fuel s with
    | none => none
    | some (s, false) =>
      some ({ s with fs := update s.fs slot Fs.zero, cur := was }, some .io)
    | some (s, true) =>
      let f := s.fs slot
      some ({ s with fs := update s.fs slot { f with mountPoint := point, used := true } }, none)

/-- The disks `mount` asks for the root, in its order. -/
def rootOrder : List Nat := [4, 5, 0, 1, 2, 3]

/-- `mount`: the root is the first disk that carries its label. -/
def mountRoot (vol : Nat → Option Volume) (fuel : Nat) : Server → List Nat → Option (Server × Bool)
  | s, [] => some (s, false)
  | s, dev :: rest =>
    match mountAt vol fuel s dev ['/'] with
    | none => none
    | some (s, some _) => mountRoot vol fuel s rest
    | some (s, none) =>
      if ((vol dev).map Volume.rootLabel).getD false then some (s, true)
      -- Right kind of filesystem, wrong one. Put the slot back.
      else mountRoot vol fuel { s with fs := update s.fs 0 Fs.zero, cur := 0 } rest

/-- The handler of `VFS_MOUNT`. Root only. -/
def handleMount (vol : Nat → Option Volume) (fuel : Nat) (s : Server) (uid dev : Nat)
    (point : List Char) : Option Server :=
  if uid ≠ 0 then some s
  else
    let s := (txnFlush s).1
    let was := s.cur
    match mountAt vol fuel s dev point with
    | none => none
    | some (s, _) => some { s with cur := was }

/-- The handler of `VFS_UMOUNT`. Root only, and never the root filesystem. -/
def handleUmount (s : Server) (uid : Nat) (point : List Char) : Server :=
  if uid ≠ 0 then s
  else
    match (List.range' 1 (fsMax - 1)).find? fun i =>
        (s.fs i).used && (s.fs i).mountPoint == point with
    | none => s
    | some i =>
      let was := s.cur
      let s := (txnFlush { s with cur := i }).1
      { s with
        fs := update s.fs i Fs.zero
        cur := if was = i then 0 else was }

/-! ## The loop of the server -/

/-- One step of the loop. `old` is what the clock says about the batch, and `faults`
changes which blocks the drivers fail on. -/
inductive LoopEvent where
  | begin
  | access (path : List Char)
  | write (block : Nat) (data : Block)
  | mount (uid dev : Nat) (point : List Char)
  | umount (uid : Nat) (point : List Char)
  | finish (sync old : Bool)
  | faults (bad : Nat → Nat → Bool)

/-- What a step does. `none` while a replay is still looping. -/
def serve (vol : Nat → Option Volume) (fuel : Nat) (s : Server) : LoopEvent → Option Server
  | .begin => some (txnBegin s)
  | .access path => some (route s path).1
  | .write block data => some (writeBlock s block fun _ => data).1
  | .mount uid dev point => handleMount vol fuel s uid dev point
  | .umount uid point => some (handleUmount s uid point)
  | .finish sync old => some (txnEnd s sync old).1
  | .faults bad => some { s with bad := bad }

/-- The server before `mount`, over these disks. -/
def startServer (d : Disks) (bad : Nat → Nat → Bool) : Server where
  fs := fun _ => Fs.zero
  cur := 0
  txnOpen := false
  txn := []
  jbuf := zeroBlock
  jdata := zeroBlock
  disk := d
  bad := bad
  log := []

end LeahOS.Vfsd
