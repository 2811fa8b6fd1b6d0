import LeahOS.Lib.Census
import LeahOS.Lib.Run

/-!
# Descriptors and the lifetime of pipes (`kernel/fs/files.cpp`)

Threads of one process share the descriptor table of their leader. A pipe is counted by the
descriptors that hold its ends, and by the calls that are inside it; a pipe with a name has a slot
in a table of sixteen. Here a pipe is its counts alone: what it holds does not decide how long
it lives.

A step is what a call does from one blocking point to the next. `read` and `write` enter a pipe
and leave it again, and `open_fifo` may wait in between. Pipes are numbered as they are made.
Beside what the code stores, `Files` notes which of them have been freed, and how often, and
whether a freed pipe or a name slot that has another owner was ever touched.
-/

namespace LeahOS.Fs
open Lib Function

def kMaxFds : Nat := 32

def kMaxNamedPipes : Nat := 16

def kMaxTasks : Nat := 256

/-- The kinds of descriptors; the console and the terminals are `other`. -/
inductive Kind
  | none
  | other
  | pipe
  deriving DecidableEq

/-- `Descriptor`; the flags of a pipe are `kWrite` or `kRead`. -/
structure Descriptor where
  kind : Kind
  writes : Bool
  pipe : Option Nat
  deriving DecidableEq

/-- The counts of a `Pipe`. -/
structure PipeEnds where
  readers : Int
  writers : Int
  busy : Int
  doomed : Bool

structure NamedPipe where
  used : Bool
  key : Nat
  pipe : Option Nat
  seenReader : Bool
  seenWriter : Bool

/-- Where a thread is: outside of the calls, inside a pipe, or in `open_fifo` waiting for the
other end. -/
inductive FileCall
  | idle
  | inside (p : Nat)
  | waiting (fd slot p : Nat) (writes : Bool)
  deriving DecidableEq

/-- The tables of all tasks, the pipes and the names; from `made` on, what is not stored. -/
structure Files where
  fds : Nat × Nat → Descriptor
  pipes : Nat → PipeEnds
  named : Nat → NamedPipe
  call : Nat → FileCall
  alive : Nat → Bool
  leader : Nat → Nat
  made : Nat
  live : Nat → Bool
  frees : Nat → Nat
  touched : Bool
  strayed : Bool

namespace PipeEnds

/-- `readers` or `writers`. -/
def count (o : PipeEnds) (writes : Bool) : Int := if writes then o.writers else o.readers

/-- One more or one less of them. -/
def add (o : PipeEnds) (writes : Bool) (k : Int) : PipeEnds :=
  if writes then { o with writers := o.writers + k } else { o with readers := o.readers + k }

end PipeEnds

/-- The other end has been seen. -/
def NamedPipe.seenOther (n : NamedPipe) (writes : Bool) : Bool :=
  if writes then n.seenReader else n.seenWriter

/-- This end has been seen. -/
def NamedPipe.see (n : NamedPipe) (writes : Bool) : NamedPipe :=
  if writes then { n with seenWriter := true } else { n with seenReader := true }

namespace Files

/-! ### The functions -/

/-- A pipe is read or written. -/
def touch (s : Files) (p : Nat) : Files := { s with touched := s.touched || !s.live p }

def setPipe (s : Files) (p : Nat) (o : PipeEnds) : Files :=
  { s with pipes := update s.pipes p o }

def setFd (s : Files) (x : Nat × Nat) (d : Descriptor) : Files :=
  { s with fds := update s.fds x d }

def setCall (s : Files) (t : Nat) (c : FileCall) : Files :=
  { s with call := update s.call t c }

def kfree (s : Files) (p : Nat) : Files :=
  { s with
    live := update s.live p false
    frees := update s.frees p (s.frees p + 1) }

/-- A pipe of zeros, from `kmalloc` and `memset`. -/
def make (s : Files) (o : PipeEnds) : Files :=
  { s.setPipe s.made o with live := update s.live s.made true, made := s.made + 1 }

/-- The loop of `release_pipe` over the names. -/
def dropName (named : Nat → NamedPipe) (p : Nat) : Nat → NamedPipe := fun i =>
  if (named i).used ∧ (named i).pipe = some p then
    { named i with used := false, pipe := none }
  else named i

def releasePipe (s : Files) (d : Descriptor) : Files :=
  match d.pipe with
  | none => s
  | some p =>
    let o := (s.pipes p).add d.writes (-1)
    let s := (s.touch p).setPipe p o
    if o.readers = 0 ∧ o.writers = 0 then
      let s := { s with named := dropName s.named p }
      if o.busy = 0 then s.kfree p else s.setPipe p { o with doomed := true }
    else s

def dropPipe (s : Files) (p : Nat) : Files :=
  let o := { s.pipes p with busy := (s.pipes p).busy - 1 }
  let s := (s.touch p).setPipe p o
  if o.busy = 0 ∧ o.doomed then s.kfree p else s

/-- `alloc_fd`, in a table, leaving out descriptors that are reserved. -/
def allocFd (s : Files) (table : Nat) (reserved : List Nat) : Option Nat :=
  (List.range kMaxFds).find? fun fd => (s.fds (table, fd)).kind = .none ∧ fd ∉ reserved

def close (s : Files) (t fd : Nat) : Files :=
  let x := (s.leader t, fd)
  let d := s.fds x
  if fd < kMaxFds ∧ d.kind ≠ .none then
    (if d.kind = .pipe then s.releasePipe d else s).setFd x ⟨.none, d.writes, none⟩
  else s

/-- The beginning of `read` and `write`: the descriptor is looked up and the pipe is held. -/
def enter (s : Files) (t fd : Nat) (writes : Bool) : Files :=
  let d := s.fds (s.leader t, fd)
  if fd < kMaxFds ∧ d.kind = .pipe ∧ d.writes = writes then
    match d.pipe with
    | none => s
    | some p =>
      ((s.touch p).setPipe p { s.pipes p with busy := (s.pipes p).busy + 1 }).setCall t (.inside p)
  else s

def findNamed (s : Files) (key : Nat) : Option Nat :=
  (List.range kMaxNamedPipes).find? fun i => (s.named i).used ∧ (s.named i).key = key

/-- The slot `open_fifo` uses: the one of the key, or a new one with a new pipe. -/
def slotFor (s : Files) (key : Nat) (memory : Bool) : Option (Files × Nat) :=
  match s.findNamed key with
  | some i => some (s, i)
  | none =>
    match (List.range kMaxNamedPipes).find? fun i => ¬ (s.named i).used with
    | none => none
    | some i =>
      if memory then
        some ({ s.make ⟨0, 0, 0, false⟩ with
          named := update s.named i ⟨true, key, some s.made, false, false⟩ }, i)
      else none

/-- `open_fifo` from where the slot is known: the end is counted, and the call waits unless the
other end has been seen. -/
def openEnd (s : Files) (t fd i : Nat) (writes nonblocking : Bool) : Files :=
  match (s.named i).pipe with
  | none => s
  | some p =>
    let n := (s.named i).see writes
    let s := ((s.touch p).setFd (s.leader t, fd) ⟨.pipe, writes, some p⟩).setPipe p
      ((s.pipes p).add writes 1)
    let s := { s with named := update s.named i n }
    if nonblocking || n.seenOther writes then s
    else s.setCall t (.waiting fd i p writes)

/-- `open_fifo` up to its return or its first wait. -/
def openFifo (s : Files) (t key : Nat) (writes nonblocking memory : Bool) : Files :=
  match s.allocFd (s.leader t) [] with
  | none => s
  | some fd =>
    match s.slotFor key memory with
    | none => s
    | some (s, i) => s.openEnd t fd i writes nonblocking

/-- `open_fifo` after a nap: it is interrupted, or it looks at its slot again. -/
def wake (s : Files) (t fd i p : Nat) (writes signal : Bool) : Files :=
  if signal then
    let x := (s.leader t, fd)
    let s := s.releasePipe (s.fds x)
    (s.setFd x { s.fds x with kind := .none }).setCall t .idle
  else
    let s := { s with
      strayed := s.strayed || !decide ((s.named i).used = true ∧ (s.named i).pipe = some p) }
    if (s.named i).seenOther writes then s.setCall t .idle else s

def pipe (s : Files) (t : Nat) (memory : Bool) : Files :=
  match s.allocFd (s.leader t) [] with
  | none => s
  | some readFd =>
    match s.allocFd (s.leader t) [readFd] with
    | none => s
    | some writeFd =>
      if memory then
        let p := s.made
        ((s.make ⟨1, 1, 0, false⟩).setFd (s.leader t, readFd) ⟨.pipe, false, some p⟩).setFd
          (s.leader t, writeFd) ⟨.pipe, true, some p⟩
      else s

/-- One round of `inherit`. -/
def inheritFd (c : Nat) (s : Files) (fd : Nat) : Files :=
  let d := s.fds (c, fd)
  match d.kind, d.pipe with
  | .pipe, some p => (s.touch p).setPipe p ((s.pipes p).add d.writes 1)
  | _, _ => s

def initTable (fd : Nat) : Descriptor := ⟨if fd < 3 then .other else .none, false, none⟩

/-- A task starts, with this table. -/
def startTask (s : Files) (c leader : Nat) (table : Nat → Descriptor) : Files :=
  { s with
    fds := fun x => if x.1 = c then table x.2 else s.fds x
    alive := update s.alive c true
    leader := update s.leader c leader
    call := update s.call c .idle }

/-- The end of `fork_current`: the child gets a copy of the table of the task that forks, which
is not that of its leader, and inherits the ends in it. -/
def fork (s : Files) (t c : Nat) : Files :=
  (List.range kMaxFds).foldl (inheritFd c) (s.startTask c c fun fd => s.fds (t, fd))

/-- One round of `close_all`. -/
def closeFd (c : Nat) (s : Files) (fd : Nat) : Files :=
  let d := s.fds (c, fd)
  (if d.kind = .pipe then s.releasePipe d else s).setFd (c, fd) { d with kind := .none }

def closeAll (s : Files) (c : Nat) : Files := (List.range kMaxFds).foldl (closeFd c) s

/-- Some thread of the group of this leader is there. -/
def groupAlive (s : Files) (leader : Nat) : Bool :=
  (List.range kMaxTasks).any fun t => s.alive t && s.leader t == leader

/-- `exit_current`: the last thread of a group closes its table. -/
def exit (s : Files) (t : Nat) : Files :=
  let s := { s with alive := update s.alive t false }
  if s.groupAlive (s.leader t) then s else s.closeAll (s.leader t)

end Files

/-! ### Runs -/

/-- What a thread does. -/
inductive FileEvent
  | pipe (t : Nat) (memory : Bool)
  | openFifo (t key : Nat) (writes nonblocking memory : Bool)
  | wake (t : Nat) (signal : Bool)
  | enter (t fd : Nat) (writes : Bool)
  | leave (t : Nat)
  | close (t fd : Nat)
  | fork (t c : Nat)
  | spawnThread (t c : Nat)
  | exit (t : Nat)

namespace Files

/-- A thread that can make a call. -/
def Ready (s : Files) (t : Nat) : Prop := s.alive t = true ∧ s.call t = .idle

instance (s : Files) (t : Nat) : Decidable (s.Ready t) := inferInstanceAs (Decidable (_ ∧ _))

/-- A task slot that can be used: nobody's, and not that of a leader whose group is alive. -/
def Spare (s : Files) (c : Nat) : Prop :=
  c < kMaxTasks ∧ s.alive c = false ∧ s.groupAlive c = false

instance (s : Files) (c : Nat) : Decidable (s.Spare c) := inferInstanceAs (Decidable (_ ∧ _ ∧ _))

def next (s : Files) : FileEvent → Option Files
  | .pipe t memory => if s.Ready t then some (s.pipe t memory) else none
  | .openFifo t key writes nonblocking memory =>
    if s.Ready t then some (s.openFifo t key writes nonblocking memory) else none
  | .wake t signal =>
    match s.call t with
    | .waiting fd i p writes => some (s.wake t fd i p writes signal)
    | _ => none
  | .enter t fd writes => if s.Ready t then some (s.enter t fd writes) else none
  | .leave t =>
    match s.call t with
    | .inside p => some ((s.dropPipe p).setCall t .idle)
    | _ => none
  | .close t fd => if s.Ready t then some (s.close t fd) else none
  | .fork t c => if s.Ready t ∧ s.Spare c then some (s.fork t c) else none
  | .spawnThread t c =>
    if s.Ready t ∧ s.Spare c then some (s.startTask c (s.leader t) initTable) else none
  | .exit t => if s.Ready t then some (s.exit t) else none

/-- The steps of the threads. -/
def Step (s : Files) (e : FileEvent) (s' : Files) : Prop := s.next e = some s'

/-- The first task, and nothing else. -/
def init : Files where
  fds x := if x.1 = 0 then initTable x.2 else ⟨.none, false, none⟩
  pipes _ := ⟨0, 0, 0, false⟩
  named _ := ⟨false, 0, none, false, false⟩
  call _ := .idle
  alive t := t == 0
  leader t := t
  made := 0
  live _ := false
  frees _ := 0
  touched := false
  strayed := false

/-- The descriptor is this end of the pipe. -/
def Holds (d : Descriptor) (writes : Bool) (p : Nat) : Prop :=
  d.kind = .pipe ∧ d.writes = writes ∧ d.pipe = some p

instance (writes : Bool) (p : Nat) : DecidablePred fun d => Holds d writes p := fun _ =>
  inferInstanceAs (Decidable (_ ∧ _ ∧ _))

/-- The task slots. -/
@[irreducible] def slots : Finset Nat := Finset.range kMaxTasks

/-- The places of all tables. -/
@[irreducible] def places : Finset (Nat × Nat) := Finset.range kMaxTasks ×ˢ Finset.range kMaxFds

/-- How many descriptors in all tables hold an end of a pipe. -/
def held (s : Files) (writes : Bool) (p : Nat) : Nat :=
  census places s.fds fun d => Holds d writes p

/-- How many calls are inside a pipe. -/
def inside (s : Files) (p : Nat) : Nat :=
  census slots s.call fun c => c = .inside p

/-- The lifetime of pipes: the counts are the numbers of descriptors, each pipe is freed once,
when no descriptor and no call has it, and nobody touches it or its name after that. -/
structure Sound (s : Files) : Prop where
  counts : ∀ p, s.live p = true →
    (s.pipes p).readers = s.held false p ∧ (s.pipes p).writers = s.held true p
  freed : ∀ p < s.made, s.frees p =
    if s.held false p = 0 ∧ s.held true p = 0 ∧ s.inside p = 0 then 1 else 0
  gone : ∀ p < s.made, s.live p = true ↔ s.frees p = 0
  inLive : ∀ t p, s.call t = .inside p → s.live p = true
  waiting : ∀ t fd i p writes, s.call t = .waiting fd i p writes →
    s.live p = true ∧ (s.named i).used = true ∧ (s.named i).pipe = some p
  untouched : s.touched = false ∧ s.strayed = false

/-- Nobody closes a descriptor that a thread of the same process is still opening. -/
def Calm (s : Files) : FileEvent → Prop
  | .close t fd => ∀ u < kMaxTasks, s.leader u = s.leader t →
      match s.call u with
      | .waiting fd' _ _ _ => fd' ≠ fd
      | _ => True
  | _ => True

instance (s : Files) (e : FileEvent) : Decidable (s.Calm e) := by
  unfold Calm
  split
  · refine @Nat.decidableBallLT _ _ fun u _ => @instDecidableForall _ _ _ ?_
    split
    · infer_instance
    · infer_instance
  · infer_instance

end Files
end LeahOS.Fs
