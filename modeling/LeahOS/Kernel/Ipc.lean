import LeahOS.Kernel.Image
import LeahOS.Kernel.Object

/-!
# Message passing, and the machine around it

`ipc.cpp` keeps sixteen ports and sixty-four request slots. A caller puts its request
into a free slot and sleeps; the server of the port takes it, and answers it by the
number of the slot. Everything happens under one lock that is let go while a task
sleeps, so a system call that sleeps is several steps here: `callStart` puts the request
into its slot, and `callCollect`, `callTimeout` or `callSignal` is the caller waking up.

A thread has its own pid; the handle table belongs to the thread group. A task that
exits runs `ipc::abandon` and `object::close_all` for its group when it is the last of
it. Tasks only exit on their own way out of the kernel, never from inside a call.

`π` is whatever a message carries besides handles: nothing here looks at it.

The last fields of `Machine` and `Request.call` are ghosts. Every call has a number of
its own. `obtained` lists which task got which slot number for which call, and `held`
those of them that have not been used for a reply; `sent` lists the messages passed to
`reply`, with the slot number they were passed with, and `returned` what the calls that
returned 0 copied out.
-/

namespace LeahOS.Kernel
open Function

def kMaxPorts : Nat := 16
def kMaxRequests : Nat := 64
def kMaxCarried : Nat := 2

/-- The six states of a request slot. -/
inductive SlotState where
  | free
  | queued
  | taken
  | answered
  | abandoned
  | dropped
  deriving DecidableEq, Repr

/-- One capability in transit. -/
structure Carried where
  type : ObjType
  pointer : Nat
  rights : Nat
  via : Via

/-- A message. -/
structure Message (π : Type) where
  payload : π
  handle : Nat → Int
  handles : Nat

/-- A request slot. -/
structure Request (π : Type) where
  state : SlotState
  port : Nat
  caller : Nat
  server : Nat
  body : Message π
  carried : Nat → Carried
  carriedN : Nat
  call : Nat

/-- A port. -/
structure Port where
  used : Bool
  name : Nat
  owner : Nat

/-- Where a task is. `timed` says that it sleeps with a deadline. -/
inductive Doing where
  | running
  | calling (slot call : Nat) (timed : Bool)
  | receiving (port : Nat)
  deriving DecidableEq, Repr

/-- A slot number, who got it, and for which call. -/
structure Held where
  pid : Nat
  slot : Nat
  call : Nat
  deriving DecidableEq, Repr

/-- The parts of the kernel that handles and messages live in. -/
structure Machine (π : Type) where
  objects : Objects
  cache : Cache
  ports : Nat → Port
  requests : Nat → Request π
  live : Nat → Bool
  tgid : Nat → Nat
  doing : Nat → Doing
  nextPid : Nat
  nextCall : Nat
  obtained : List Held
  held : List Held
  sent : List (Held × Message π)
  returned : List (Nat × Message π)

variable {π : Type}

def Machine.setRequest (k : Machine π) (i : Nat) (r : Request π) : Machine π :=
  { k with requests := update k.requests i r }

def Machine.setDoing (k : Machine π) (p : Nat) (d : Doing) : Machine π :=
  { k with doing := update k.doing p d }

/-! ## Ports -/

def findPort (k : Machine π) (name : Nat) : Option Nat :=
  (List.range kMaxPorts).find? fun i => (k.ports i).used && (k.ports i).name == name

def validPort (k : Machine π) (port : Nat) : Bool :=
  decide (port < kMaxPorts) && (k.ports port).used

/-- `port_create`: one server per name, the first one wins. -/
def portCreate (k : Machine π) (p name : Nat) : Machine π × Int :=
  if name = 0 ∨ (findPort k name).isSome then (k, -1)
  else
    match (List.range kMaxPorts).find? fun i => !(k.ports i).used with
    | none => (k, -1)
    | some i => ({ k with ports := update k.ports i ⟨true, name, p⟩ }, i)

/-- What the end of a port does to a slot: whatever was on it is abandoned. -/
def strand (port : Nat) (r : Request π) : Request π :=
  if r.port ≠ port ∨ r.state = .free then r else { r with state := .abandoned }

/-- `port_destroy_locked`, run by the task `p`. -/
def portDestroyLocked (k : Machine π) (p port : Nat) : Machine π × Int :=
  if validPort k port = false ∨ (k.ports port).owner ≠ p then (k, -1)
  else
    let q := k.ports port
    ({ k with
        ports := update k.ports port { q with used := false }
        requests := fun i => strand port (k.requests i) }, 0)

/-! ## The caller's side -/

/-- The first half of `call`: the request is put into a free slot, and the caller
sleeps. -/
def callStart (k : Machine π) (p port : Nat) (msg : Message π) (timed : Bool) : Machine π × Int :=
  if validPort k port = false then (k, -1)
  else
    match (List.range kMaxRequests).find? fun i => (k.requests i).state == .free with
    | none => (k, -1)
    | some slot =>
      let r := k.requests slot
      let k := k.setRequest slot { r with
        state := .queued
        port := port
        caller := p
        server := 0
        body := msg
        call := k.nextCall }
      let k := k.setDoing p (.calling slot k.nextCall timed)
      ({ k with nextCall := k.nextCall + 1 }, 0)

/-- `stop_waiting`: a slot a server holds stays reserved for its answer. -/
def stopWaiting (k : Machine π) (p slot : Nat) : Machine π :=
  let r := k.requests slot
  (k.setRequest slot { r with state := if r.state = .taken then .dropped else .free }).setDoing p
    .running

/-- One carried capability, installed in the table of this process. -/
def installOne (heap : Bool) (pid : Nat) (o : Objects) (c : Carried) : Objects × Int :=
  giveLocked heap o ⟨pid, c.type, c.pointer, c.rights, c.via.info.tag⟩ fun h => .sent h c.via

/-- The carried capabilities, installed in the table of this process one after the
other; the numbers they get. -/
def install (heap : Bool) (pid : Nat) (r : Request π) :
    List Nat → Objects → (Nat → Int) → Objects × (Nat → Int)
  | [], o, handle => (o, handle)
  | i :: rest, o, handle =>
    let g := installOne heap pid o (r.carried i)
    install heap pid r rest g.1 (update handle i g.2)

/-- The second half of `call`, once the slot is answered or abandoned. The handles
past the carried ones are wiped whether or not there was an answer. -/
def callCollect (heap : Bool) (k : Machine π) (p slot call : Nat) : Machine π × Int × Message π :=
  let r := k.requests slot
  let ok := r.state == .answered
  let given :=
    if ok then
      install heap (k.tgid p) r ((List.range kMaxCarried).filter fun i => i < r.carriedN) k.objects
        r.body.handle
    else (k.objects, r.body.handle)
  let handle := fun i => if r.carriedN ≤ i ∧ i < kMaxCarried then kNoHandle else given.2 i
  let out : Message π := { r.body with handle := handle }
  let k := { k with objects := given.1 }
  let k := k.setRequest slot { r with state := .free, body := out }
  let k := k.setDoing p .running
  ({ k with returned := if ok then k.returned ++ [(call, out)] else k.returned },
    if ok then 0 else -1, out)

/-! ## The server's side -/

/-- `take`: the first request queued on the port, if there is one. -/
def take (k : Machine π) (p port : Nat) : Option (Machine π × Nat) :=
  match (List.range kMaxRequests).find? fun i =>
      (k.requests i).state == .queued && (k.requests i).port == port with
  | none => none
  | some i =>
    let r := k.requests i
    let k := k.setRequest i { r with state := .taken, server := p }
    some ({ k with
      obtained := ⟨p, i, r.call⟩ :: k.obtained
      held := ⟨p, i, r.call⟩ :: k.held }, i)

def tryRecv (k : Machine π) (p port : Nat) : Machine π :=
  if validPort k port = false ∨ (k.ports port).owner ≠ p then k
  else match take k p port with
    | none => k
    | some (k, _) => k

/-- `recv`, up to its first sleep. -/
def recvStart (k : Machine π) (p port : Nat) : Machine π :=
  if validPort k port = false ∨ (k.ports port).owner ≠ p then k
  else match take k p port with
    | none => k.setDoing p (.receiving port)
    | some (k, _) => k

/-- One round of `recv` after a sleep. `giveUp` is a deadline that has passed or a
signal that has arrived. -/
def recvWake (k : Machine π) (p port : Nat) (giveUp : Bool) : Machine π :=
  if giveUp || validPort k port == false then k.setDoing p .running
  else match take k p port with
    | none => k
    | some (k, _) => k.setDoing p .running

/-- What the server passes on, resolved in its own table: a handle it does not hold is
dropped, and the others move up. -/
def resolveCarried (g : Tables) (server : Nat) (msg : Message π) : List Carried :=
  (List.range (min msg.handles kMaxCarried)).filterMap fun i =>
    let handle := msg.handle i
    let type := typeOf g server handle
    if type = .none then none
    else some ⟨type, (look g server handle type 0).getD 0, rightsOf g server handle,
      viaOf g server handle⟩

/-- `reply` with this slot number. -/
def replyTo (k : Machine π) (p slot : Nat) (msg : Message π) : Machine π × Int :=
  let r := k.requests slot
  if kMaxRequests ≤ slot then (k, -1)
  else if r.state = .dropped ∧ r.server = p then (k.setRequest slot { r with state := .free }, -1)
  else if r.state ≠ .taken ∨ r.server ≠ p then (k, -1)
  else
    let carried := resolveCarried k.objects.tables (k.tgid p) msg
    (k.setRequest slot { r with
      state := .answered
      body := { msg with handles := carried.length }
      carried := fun i => carried.getD i (r.carried i)
      carriedN := carried.length }, 0)

/-- `reply` by the server that got the slot number for this call. -/
def reply (k : Machine π) (p slot call : Nat) (msg : Message π) : Machine π :=
  let k := (replyTo k p slot msg).1
  { k with
    held := k.held.erase ⟨p, slot, call⟩
    sent := (⟨p, slot, call⟩, msg) :: k.sent }

/-! ## Tasks -/

/-- What the end of a process does to a slot. -/
def orphan (pid : Nat) (r : Request π) : Request π :=
  if r.state = .free then r
  else if r.server = pid ∧ r.state = .dropped then { r with state := .free }
  else if r.server = pid ∧ r.state = .taken then { r with state := .abandoned }
  else if r.caller = pid then { r with state := if r.state = .taken then .dropped else .free }
  else r

/-- The first loop of `abandon`, run by the task `p`: the ports of the process go. -/
def closePorts (k : Machine π) (p pid : Nat) : Machine π :=
  (List.range kMaxPorts).foldl (fun k i =>
    if (k.ports i).used && (k.ports i).owner == pid then (portDestroyLocked k p i).1 else k) k

/-- `abandon`, run by the task `p`: first the ports, then the slots. -/
def abandon (k : Machine π) (p pid : Nat) : Machine π :=
  let k := closePorts k p pid
  { k with requests := fun i => orphan pid (k.requests i) }

/-- Some other task of the group is left. -/
def groupStillAlive (k : Machine π) (p : Nat) : Bool :=
  (List.range k.nextPid).any fun q => q != p && k.live q && k.tgid q == k.tgid p

def exitCurrent (k : Machine π) (p : Nat) : Machine π :=
  let last := !groupStillAlive k p
  let pid := k.tgid p
  let k := { k with
    live := update k.live p false
    held := k.held.filter fun h => h.pid != p }
  if last then
    let k := abandon k p pid
    { k with objects := closeAll k.objects pid }
  else k

/-- `fork_current`: the child is a group of its own and inherits the handles. -/
def forkCurrent (heap : Bool) (k : Machine π) (p : Nat) : Machine π :=
  { k with
    objects := inherit heap k.objects (k.tgid p) k.nextPid
    live := update k.live k.nextPid true
    tgid := update k.tgid k.nextPid k.nextPid
    doing := update k.doing k.nextPid .running
    nextPid := k.nextPid + 1 }

/-- A new thread of the group. -/
def spawnThread (k : Machine π) (p : Nat) : Machine π :=
  { k with
    live := update k.live k.nextPid true
    tgid := update k.tgid k.nextPid (k.tgid p)
    doing := update k.doing k.nextPid .running
    nextPid := k.nextPid + 1 }

/-! ## System calls on images -/

/-- What a process gets on an image it made itself. -/
def kImageRights : Nat := kRead ||| kMap ||| kExecute ||| kDuplicate ||| kTransfer

/-- A handle on what the cache came up with. -/
def giveImage (heap : Bool) (k : Machine π) (p : Nat) (r : Cache × Option Nat) : Machine π × Int :=
  match r.2 with
  | none => ({ k with cache := r.1 }, kNoHandle)
  | some i =>
    let g := give heap k.objects ⟨k.tgid p, .image, i, kImageRights, (r.1.images i).serial⟩
    ({ k with cache := r.1, objects := g.1 }, g.2)

def imageFind (heap : Bool) (k : Machine π) (p : Nat) (name : List Char) (version : Nat) :
    Machine π × Int :=
  giveImage heap k p (findImage k.cache name version)

def imageCreate (heap : Bool) (k : Machine π) (p : Nat) (name : List Char) (version : Nat)
    (bytes : List UInt8) (frames : Option (Nat → Nat)) : Machine π × Int :=
  giveImage heap k p (create k.cache name version bytes frames)

end LeahOS.Kernel
