import LeahOS.Sched.Tasks

/-!
# Processes, their groups and sessions (`kernel/sched/scheduler.cpp`)

The task table again, with the fields that make tasks into processes: the parent, the thread
group, the process group and the session, the exit code, and what the parent has still to be
told. Which processor runs what is in `Tasks`; here a task is dispatched, displaced, blocked
and woken by whoever does that.

`next` has every operation on these fields: `spawn_user`, `fork_current`, `spawn_thread`,
`exit_current`, one pass of `wait_child`, `set_pgid`, `set_sid`, and stopping and continuing.
One field is a ghost: which tasks `set_pgid` has moved since they were made or got a session of
their own.

`next_effect` says once what a step can do to the table. Everything else is proved from it.
-/

namespace LeahOS.Sched
open Lib Function List Option

/-- The fields of `Task` that make it a process. `report` is what the parent has not been told
about a stop or a continue, `none` for `-1`. -/
structure Proc where
  pid : Nat
  parentPid : Nat
  tgid : Nat
  pgid : Nat
  sid : Nat
  report : Option Nat
  state : TaskState
  isUser : Bool
  exitCode : Int
  onCpu : Bool
  deriving DecidableEq

/-- The task table, and the ghost. -/
structure Procs where
  tasks : Nat → Proc
  count : Nat
  nextPid : Nat
  moved : Nat → Bool

/-- The operations, by the slot of the task that calls them, and the steps of the scheduler on
one slot. -/
inductive ProcEvent
  | spawnUser (p parentPid : Nat) (heap : Bool)
  | fork (p : Nat) (memory heap : Bool)
  | spawnThread (p : Nat) (heap : Bool)
  | exit (p : Nat) (code : Int)
  | wait (p : Nat) (which : Int) (options : Nat) (pending : Bool)
  | setPgid (p pid pgid : Nat)
  | setSid (p : Nat)
  | stop (p signo : Nat)
  | cont (pid : Nat)
  | dispatch (i : Nat)
  | displace (i : Nat)
  | block (i : Nat)
  | rouse (i : Nat)
  | kill (i : Nat)

/-- What one pass of `wait_child` comes to. -/
inductive WaitAnswer
  | child (pid : Nat) (status : Int)
  | noChildren
  | nothing
  | interrupted
  | blocks
  deriving DecidableEq

def kStopped : Nat := 0x200
def kContinued : Nat := 0x300
def kStatusKind : Nat := 0x300
def kWaitNoHang : Nat := 1
def kWaitUntraced : Nat := 2
def kWaitContinued : Nat := 4

namespace Proc

/-- The slot is not free. -/
def used (t : Proc) : Bool := t.state != .unused

/-- The task has not come to its end. -/
def live (t : Proc) : Bool :=
  match t.state with
  | .unused | .zombie | .dead => false
  | .ready | .running | .blocked | .stopped => true

theorem used_of_live {t : Proc} (h : t.live = true) : t.used = true := by
  cases hState : t.state <;> simp_all [live, used]

end Proc

namespace Procs

def setTask (s : Procs) (i : Nat) (t : Proc) : Procs :=
  { s with tasks := update s.tasks i t }

/-- `find`: the task with this pid. -/
def find (s : Procs) (pid : Nat) : Option Nat :=
  (List.range s.count).find? fun i => (s.tasks i).pid == pid && (s.tasks i).used

/-- The search of `alloc_slot`. -/
def allocSlot (s : Procs) : Option Nat :=
  (List.range kMaxTasks).find? fun i => (s.tasks i).state == .unused

/-- `group_still_alive`: another task of the group has not ended. -/
def groupStillAlive (s : Procs) (i : Nat) : Bool :=
  (s.tasks i).tgid != 0 && (List.range s.count).any fun j =>
    j != i && (s.tasks j).live && (s.tasks j).tgid == (s.tasks i).tgid

/-- A new task in slot `i`, unless there is no memory for its stack. -/
def spawnAt (s : Procs) (i : Nat) (heap : Bool) (t : Proc) : Procs :=
  let s := { s with count := if s.count ≤ i then i + 1 else s.count }
  if heap then
    { s.setTask i t with
      nextPid := (s.nextPid + 1) % 2 ^ 32
      moved := update s.moved i false }
  else s

/-- What the three ways to make a user task write, over what the slot held. -/
def newTask (s : Procs) (i parentPid tgid pgid sid : Nat) : Proc :=
  { s.tasks i with
    pid := s.nextPid
    parentPid := parentPid
    tgid := tgid
    pgid := pgid
    sid := sid
    report := none
    state := .ready
    isUser := true }

/-- `spawn_user`: a process, group and session of its own. -/
def spawnUser (s : Procs) (parentPid : Nat) (heap : Bool) : Procs :=
  match s.allocSlot with
  | none => s
  | some i => s.spawnAt i heap (s.newTask i parentPid s.nextPid s.nextPid s.nextPid)

/-- `fork_current`: a process of its own, in the group and the session of its parent. -/
def forkCurrent (s : Procs) (p : Nat) (memory heap : Bool) : Procs :=
  if memory then
    match s.allocSlot with
    | none => s
    | some i => s.spawnAt i heap
        (s.newTask i (s.tasks p).pid s.nextPid (s.tasks p).pgid (s.tasks p).sid)
  else s

/-- `spawn_thread`: another task of the same process. -/
def spawnThread (s : Procs) (p : Nat) (heap : Bool) : Procs :=
  match s.allocSlot with
  | none => s
  | some i => s.spawnAt i heap
      (s.newTask i (s.tasks p).pid (s.tasks p).tgid (s.tasks p).pgid (s.tasks p).sid)

/-- A blocked task becomes ready. -/
def rouse (t : Proc) : Proc := if t.state = .blocked then { t with state := .ready } else t

/-- A sleeping parent hears of it. -/
def rouseParent (s : Procs) (pid : Nat) : Procs :=
  match s.find pid with
  | none => s
  | some i => s.setTask i (rouse (s.tasks i))

def exitCurrent (s : Procs) (p : Nat) (code : Int) : Procs :=
  let t := s.tasks p
  (s.setTask p { t with
    exitCode := code
    state := if t.isUser then .zombie else .dead }).rouseParent t.parentPid

def stopCurrent (s : Procs) (p signo : Nat) : Procs :=
  let t := s.tasks p
  (s.setTask p { t with report := some (kStopped ||| signo), state := .stopped }).rouseParent
    t.parentPid

/-- What SIGCONT does to a stopped task. -/
def continueTask (s : Procs) (pid : Nat) : Procs :=
  match s.find pid with
  | none => s
  | some i =>
    let t := s.tasks i
    if t.isUser ∧ t.state = .stopped then
      (s.setTask i { t with report := some kContinued, state := .ready }).rouseParent t.parentPid
    else s

def wanted (s : Procs) (p : Nat) (which : Int) (t : Proc) : Bool :=
  if 0 < which then t.pid == which.toNat % 2 ^ 32
  else if which = -1 then true
  else if which = 0 then t.pgid == (s.tasks p).pgid
  else t.pgid == (-which).toNat % 2 ^ 32

/-- A stop or a continue that the caller asked to hear about. -/
def tells (options : Nat) (t : Proc) : Bool :=
  match t.report with
  | none => false
  | some report =>
    let isStop := report &&& kStatusKind == kStopped
    isStop && options &&& kWaitUntraced != 0 || !isStop && options &&& kWaitContinued != 0

/-- A zombie that may go: its threads are gone, and so is the processor it ended on. -/
def reapable (s : Procs) (i : Nat) : Bool :=
  let t := s.tasks i
  t.state == .zombie && !(t.tgid == t.pid && s.groupStillAlive i) && !t.onCpu

/-- The children the caller asks about. -/
def children (s : Procs) (p : Nat) (which : Int) : List Nat :=
  (List.range s.count).filter fun i =>
    (s.tasks i).parentPid == (s.tasks p).pid && (s.tasks i).used && s.wanted p which (s.tasks i)

/-- One pass of the loop of `wait_child`. -/
def waitChild (s : Procs) (p : Nat) (which : Int) (options : Nat) (pending : Bool) :
    Procs × WaitAnswer :=
  match (s.children p which).find? fun i => tells options (s.tasks i) || s.reapable i with
  | some i =>
    let t := s.tasks i
    if tells options t then
      (s.setTask i { t with report := none }, .child t.pid (t.report.getD 0))
    else
      (s.setTask i { t with state := .unused }, .child t.pid t.exitCode)
  | none =>
    if s.children p which = [] then (s, .noChildren)
    else if options &&& kWaitNoHang ≠ 0 then (s, .nothing)
    else if pending then (s, .interrupted)
    else (s.setTask p { s.tasks p with state := .blocked }, .blocks)

/-- The tests of `set_pgid`: the task to move, and the group. -/
def groupFor (s : Procs) (p pid pgid : Nat) : Option (Nat × Nat) :=
  let self := s.tasks p
  match s.find (if pid = 0 then self.pid else pid) with
  | none => none
  | some i =>
    let t := s.tasks i
    let pgid := if pgid = 0 then t.pid else pgid
    if !t.isUser ∨ (t.pid ≠ self.pid ∧ t.parentPid ≠ self.pid) ∨ t.sid ≠ self.sid then none
    else if pgid ≠ t.pid ∧ (List.range s.count).all (fun j =>
        !((s.tasks j).used && (s.tasks j).pgid == pgid && (s.tasks j).sid == t.sid)) then none
    else some (i, pgid)

/-- The store of `set_pgid`. -/
def moveTo (s : Procs) (i pgid : Nat) : Procs :=
  { s.setTask i { s.tasks i with pgid := pgid } with moved := update s.moved i true }

def setPgid (s : Procs) (p pid pgid : Nat) : Procs × Bool :=
  match s.groupFor p pid pgid with
  | none => (s, false)
  | some (i, pgid) => (s.moveTo i pgid, true)

/-- `set_sid` has nothing to do. -/
def leads (s : Procs) (p : Nat) : Bool :=
  (s.tasks p).pgid == (s.tasks p).pid && (s.tasks p).sid == (s.tasks p).pid

/-- The search of `set_sid`: nobody is in the group called after the caller. -/
def mayLead (s : Procs) (p : Nat) : Bool :=
  !(List.range s.count).any fun j => (s.tasks j).used && (s.tasks j).pgid == (s.tasks p).pid

/-- The first store of `set_sid`. -/
def openSession (s : Procs) (p : Nat) : Procs :=
  s.setTask p { s.tasks p with sid := (s.tasks p).pid }

/-- The second one. -/
def openGroup (s : Procs) (p : Nat) : Procs :=
  { s.setTask p { s.tasks p with pgid := (s.tasks p).pid } with moved := update s.moved p false }

def setSid (s : Procs) (p : Nat) : Procs × Nat :=
  if s.leads p then (s, (s.tasks p).sid)
  else if s.mayLead p then ((s.openSession p).openGroup p, (s.tasks p).pid)
  else (s, 0)

/-- One step. Only a task that has not ended calls anything, and the system calls are those of
user tasks. -/
def next (s : Procs) : ProcEvent → Option Procs
  | .spawnUser p parentPid heap =>
    if (s.tasks p).live then some (s.spawnUser parentPid heap) else none
  | .fork p memory heap =>
    if (s.tasks p).live && (s.tasks p).isUser then some (s.forkCurrent p memory heap) else none
  | .spawnThread p heap =>
    if (s.tasks p).live && (s.tasks p).isUser then some (s.spawnThread p heap) else none
  | .exit p code => if (s.tasks p).live then some (s.exitCurrent p code) else none
  | .wait p which options pending =>
    if (s.tasks p).live then some (s.waitChild p which options pending).1 else none
  | .setPgid p pid pgid =>
    if (s.tasks p).live && (s.tasks p).isUser then some (s.setPgid p pid pgid).1 else none
  | .setSid p => if (s.tasks p).live && (s.tasks p).isUser then some (s.setSid p).1 else none
  | .stop p signo =>
    if (s.tasks p).live && (s.tasks p).isUser then some (s.stopCurrent p signo) else none
  | .cont pid => some (s.continueTask pid)
  | .dispatch i =>
    if (s.tasks i).state = .ready ∧ (s.tasks i).onCpu = false then
      some (s.setTask i { s.tasks i with state := .running, onCpu := true })
    else none
  | .displace i =>
    some (s.setTask i { s.tasks i with
      state := if (s.tasks i).state = .running then .ready else (s.tasks i).state
      onCpu := false })
  | .block i =>
    if (s.tasks i).state = .running then some (s.setTask i { s.tasks i with state := .blocked })
    else none
  | .rouse i => some (s.setTask i (rouse (s.tasks i)))
  | .kill i =>
    if (s.tasks i).state = .stopped then some (s.setTask i { s.tasks i with state := .ready })
    else some (s.setTask i (rouse (s.tasks i)))

/-- The steps, as a relation. -/
def Step (s : Procs) (e : ProcEvent) (s' : Procs) : Prop := s.next e = some s'

/-- A user task in use. -/
def Member (s : Procs) (i : Nat) : Prop := (s.tasks i).used = true ∧ (s.tasks i).isUser = true

/-- The table before the first user task: kernel tasks, which have no group and no session and
lead at most themselves. -/
structure Start (s : Procs) : Prop where
  nextPid_pos : 0 < s.nextPid
  nextPid_lt : s.nextPid < 2 ^ 32
  kernel : ∀ i, (s.tasks i).isUser = false ∧ (s.tasks i).pgid = 0 ∧ (s.tasks i).sid = 0
  no_zombie : ∀ i, (s.tasks i).state ≠ .zombie
  pid_lt : ∀ i, (s.tasks i).used = true → 0 < (s.tasks i).pid ∧ (s.tasks i).pid < s.nextPid
  pid_inj : ∀ i j, (s.tasks i).used = true → (s.tasks j).used = true →
    (s.tasks i).pid = (s.tasks j).pid → i = j
  tgid : ∀ i, (s.tasks i).tgid = 0 ∨ (s.tasks i).tgid = (s.tasks i).pid
  slots : ∀ i, (s.tasks i).used = true → i < s.count

/-- `scheduler::init`: the boot task. -/
def boot : Procs where
  tasks := fun i => ⟨if i = 0 then 1 else 0, 0, if i = 0 then 1 else 0, 0, 0, none,
    if i = 0 then .running else .unused, false, 0, false⟩
  count := 1
  nextPid := 2
  moved := fun _ => false

theorem boot_start : boot.Start where
  nextPid_pos := by decide
  nextPid_lt := by decide
  kernel _ := ⟨rfl, rfl, rfl⟩
  no_zombie i := by
    by_cases hZero : i = 0 <;> simp [boot, hZero]
  pid_lt i hi := by
    by_cases hZero : i = 0
    · simp [boot, hZero]
    · simp [boot, Proc.used, hZero] at hi
  pid_inj i j hi hj _ := by
    have hOnly : ∀ k, (boot.tasks k).used = true → k = 0 := fun k hk => by
      by_contra hNe
      simp [boot, Proc.used, hNe] at hk
    rw [hOnly i hi, hOnly j hj]
  tgid i := by
    by_cases hZero : i = 0 <;> simp [boot, hZero]
  slots i hi := by
    by_cases hZero : i = 0
    · simp [boot, hZero]
    · simp [boot, Proc.used, hZero] at hi

end Procs

/-- Process ids do not wrap. -/
def NoWrap (s : Procs) : ProcEvent → Prop
  | .spawnUser .. | .fork .. | .spawnThread .. => s.nextPid + 1 < 2 ^ 32
  | _ => True

instance (s : Procs) (e : ProcEvent) : Decidable (NoWrap s e) := by
  cases e <;> unfold NoWrap <;> infer_instance

namespace Procs

/-! ## What a step can do -/

/-- The task is the same process, and has not ended or come to life. -/
structure Adjusted (t t' : Proc) : Prop where
  pid : t'.pid = t.pid
  parentPid : t'.parentPid = t.parentPid
  tgid : t'.tgid = t.tgid
  pgid : t'.pgid = t.pgid
  sid : t'.sid = t.sid
  isUser : t'.isUser = t.isUser
  exitCode : t'.exitCode = t.exitCode
  state : t'.state = t.state ∨ (t.live = true ∧ t'.live = true)

theorem Adjusted.refl (t : Proc) : Adjusted t t := ⟨rfl, rfl, rfl, rfl, rfl, rfl, rfl, .inl rfl⟩

variable {t t' : Proc} {i p : Nat} {s s' : Procs} {e : ProcEvent}

theorem Adjusted.live (h : Adjusted t t') : t'.live = t.live := by
  rcases h.state with hSame | ⟨hOld, hNew⟩
  · simp only [Proc.live, hSame]
  · rw [hOld, hNew]

theorem Adjusted.used (h : Adjusted t t') : t'.used = t.used := by
  rcases h.state with hSame | ⟨hOld, hNew⟩
  · simp only [Proc.used, hSame]
  · rw [Proc.used_of_live hOld, Proc.used_of_live hNew]

theorem Adjusted.trans {t'' : Proc} (h : Adjusted t t') (h' : Adjusted t' t'') :
    Adjusted t t'' := by
  refine ⟨h'.pid.trans h.pid, h'.parentPid.trans h.parentPid, h'.tgid.trans h.tgid,
    h'.pgid.trans h.pgid, h'.sid.trans h.sid, h'.isUser.trans h.isUser,
    h'.exitCode.trans h.exitCode, ?_⟩
  rcases h'.state with hSame | ⟨hOld, hNew⟩
  · rw [hSame]
    refine h.state.imp_right fun hLive => ⟨hLive.1, ?_⟩
    exact h'.live.trans hLive.2
  · exact .inr ⟨h.live ▸ hOld, hNew⟩

theorem adjusted_rouse (t : Proc) : Adjusted t (rouse t) := by
  unfold rouse
  split
  next hBlocked => exact ⟨rfl, rfl, rfl, rfl, rfl, rfl, rfl, .inr (by simp [Proc.live, hBlocked])⟩
  · exact .refl t

/-- Nothing but scheduling happens to any task. -/
structure Adjusts (s s' : Procs) : Prop where
  tasks : ∀ i, Adjusted (s.tasks i) (s'.tasks i)
  count : s.count ≤ s'.count
  nextPid : s'.nextPid = s.nextPid
  moved : s'.moved = s.moved

theorem adjusted_update (f : Nat → Proc) (h : Adjusted (f i) t) (j : Nat) :
    Adjusted (f j) (update f i t j) := by
  by_cases hEq : j = i
  · subst hEq
    simpa using h
  · simpa [hEq] using Adjusted.refl (f j)

theorem Adjusts.setTask (h : Adjusted (s.tasks i) t) :
    Adjusts s (s.setTask i t) :=
  ⟨adjusted_update s.tasks h, Nat.le_refl _, rfl, rfl⟩

theorem adjusts_refl (s : Procs) : Adjusts s s :=
  ⟨fun _ => .refl _, Nat.le_refl _, rfl, rfl⟩

theorem Adjusts.trans {s'' : Procs} (h : Adjusts s s') (h' : Adjusts s' s'') : Adjusts s s'' :=
  ⟨fun i => (h.tasks i).trans (h'.tasks i), h.count.trans h'.count, h'.nextPid.trans h.nextPid,
    h'.moved.trans h.moved⟩

theorem adjusts_rouseParent (s : Procs) (pid : Nat) : Adjusts s (s.rouseParent pid) := by
  unfold rouseParent
  split
  · exact adjusts_refl s
  · exact .setTask (adjusted_rouse _)

/-- Who may make a user task, and what it writes: the parent, the thread group, the process group
and the session. -/
inductive Born (s : Procs) : ProcEvent → Nat → Nat → Nat → Nat → Prop
  | user {p parentPid : Nat} {heap : Bool} (hLive : (s.tasks p).live = true) :
      Born s (.spawnUser p parentPid heap) parentPid s.nextPid s.nextPid s.nextPid
  | fork {p : Nat} {memory heap : Bool} (hLive : (s.tasks p).live = true)
      (hUser : (s.tasks p).isUser = true) :
      Born s (.fork p memory heap) (s.tasks p).pid s.nextPid (s.tasks p).pgid (s.tasks p).sid
  | thread {p : Nat} {heap : Bool} (hLive : (s.tasks p).live = true)
      (hUser : (s.tasks p).isUser = true) :
      Born s (.spawnThread p heap) (s.tasks p).pid (s.tasks p).tgid (s.tasks p).pgid (s.tasks p).sid

/-- The task has ended, and nobody has been told. -/
def ended (s : Procs) (p : Nat) (code : Int) : Procs :=
  s.setTask p { s.tasks p with
    exitCode := code
    state := if (s.tasks p).isUser then .zombie else .dead }

/-- What a step does to the table. -/
inductive Effect (s : Procs) : ProcEvent → Procs → Prop
  | adjusts {e : ProcEvent} {s' : Procs} (h : Adjusts s s') : Effect s e s'
  | born {e : ProcEvent} {parentPid tgid pgid sid : Nat} (i : Nat)
      (hBorn : Born s e parentPid tgid pgid sid) (hUnused : (s.tasks i).state = .unused) :
      Effect s e (s.spawnAt i true (s.newTask i parentPid tgid pgid sid))
  | ends {p : Nat} {code : Int} {s' : Procs} (hLive : (s.tasks p).live = true)
      (h : Adjusts (s.ended p code) s') : Effect s (.exit p code) s'
  | reaps {p : Nat} {which : Int} {options : Nat} {pending : Bool} (i : Nat)
      (hReap : s.reapable i = true) :
      Effect s (.wait p which options pending) (s.setTask i { s.tasks i with state := .unused })
  | moves {p pid arg : Nat} (i pgid : Nat) (hUsed : (s.tasks i).used = true)
      (hUser : (s.tasks i).isUser = true) (hPos : pgid = (s.tasks i).pid ∨ 0 < pgid)
      (hGroup : pgid = (s.tasks i).pid ∨ ∃ j, (s.tasks j).used = true ∧ (s.tasks j).pgid = pgid ∧
        (s.tasks j).sid = (s.tasks i).sid) :
      Effect s (.setPgid p pid arg) (s.moveTo i pgid)
  | leads {p : Nat} (hLive : (s.tasks p).live = true)
      (hFree : ∀ j < s.count, (s.tasks j).used = true → (s.tasks j).pgid ≠ (s.tasks p).pid) :
      Effect s (.setSid p) ((s.openSession p).openGroup p)

variable {parentPid pgid sid tgid : Nat}

/-- Without memory for a stack only the table has grown. -/
theorem effect_spawnAt (heap : Bool) (hBorn : Born s e parentPid tgid pgid sid)
    (hSlot : s.allocSlot = some i) :
    Effect s e (s.spawnAt i heap (s.newTask i parentPid tgid pgid sid)) := by
  cases heap with
  | true =>
    have hUnused : (s.tasks i).state = .unused := by simpa using List.find?_some hSlot
    exact .born i hBorn hUnused
  | false =>
    refine .adjusts ⟨fun _ => .refl _, ?_, rfl, rfl⟩
    simp only [spawnAt, Bool.false_eq_true, if_false]
    split <;> omega

theorem effect_exitCurrent (hLive : (s.tasks p).live = true) (code : Int) :
    Effect s (.exit p code) (s.exitCurrent p code) :=
  .ends hLive (adjusts_rouseParent (s.ended p code) (s.tasks p).parentPid)

theorem effect_waitChild (hLive : (s.tasks p).live = true) (which : Int) (options : Nat)
    (pending : Bool) :
    Effect s (.wait p which options pending) (s.waitChild p which options pending).1 := by
  unfold waitChild
  split
  next i hFind =>
    have hReady := List.find?_some hFind
    simp only
    split
    · exact .adjusts (.setTask ⟨rfl, rfl, rfl, rfl, rfl, rfl, rfl, .inl rfl⟩)
    next hSilent =>
      have hReap : s.reapable i = true := by simpa [hSilent] using hReady
      exact .reaps i hReap
  · split_ifs
    · exact .adjusts (adjusts_refl s)
    · exact .adjusts (adjusts_refl s)
    · exact .adjusts (adjusts_refl s)
    · exact .adjusts (.setTask
        ⟨rfl, rfl, rfl, rfl, rfl, rfl, rfl, .inr ⟨hLive, rfl⟩⟩)

theorem used_of_find {pid : Nat} (hFind : s.find pid = some i) : (s.tasks i).used = true := by
  have hAt := List.find?_some hFind
  rw [Bool.and_eq_true] at hAt
  exact hAt.2

/-- What the tests of `set_pgid` ensure. -/
theorem groupFor_spec {pid arg pgid : Nat} (hFor : s.groupFor p pid arg = some (i, pgid)) :
    ((s.tasks i).used = true ∧ (s.tasks i).isUser = true) ∧ (pgid = (s.tasks i).pid ∨ 0 < pgid) ∧
      (pgid = (s.tasks i).pid ∨ ∃ j < s.count, (s.tasks j).used = true ∧ (s.tasks j).pgid = pgid ∧
        (s.tasks j).sid = (s.tasks i).sid) := by
  unfold groupFor at hFor
  simp only at hFor
  split at hFor
  · cases hFor
  next k hFind =>
  have hUsed := used_of_find hFind
  obtain ⟨hMay, hFor⟩ := ite_none_left_eq_some.mp hFor
  obtain ⟨hHere, hFor⟩ := ite_none_left_eq_some.mp hFor
  obtain ⟨rfl, rfl⟩ := Prod.mk.inj (some.inj hFor)
  push Not at hMay
  refine ⟨⟨hUsed, by simpa using hMay.1⟩, ?_, ?_⟩
  · split
    · exact .inl rfl
    next hPos => exact .inr (Nat.pos_of_ne_zero hPos)
  -- the group is its own, or somebody in its session is in it
  · generalize (if arg = 0 then (s.tasks k).pid else arg) = pgid at hHere ⊢
    by_cases hOwn : pgid = (s.tasks k).pid
    · exact .inl hOwn
    · right
      simp only [ne_eq, hOwn, not_false_eq_true, true_and, List.all_eq_true, mem_range,
        not_forall] at hHere
      obtain ⟨j, hLt, hJ⟩ := hHere
      simp only [Bool.not_eq_true', Bool.not_eq_false, Bool.and_eq_true, beq_iff_eq, and_assoc] at hJ
      exact ⟨j, hLt, hJ⟩

theorem effect_setPgid (s : Procs) (p pid arg : Nat) :
    Effect s (.setPgid p pid arg) (s.setPgid p pid arg).1 := by
  unfold setPgid
  split
  · exact .adjusts (adjusts_refl s)
  next i pgid hFor =>
    obtain ⟨⟨hUsed, hUser⟩, hPos, hGroup⟩ := groupFor_spec hFor
    exact .moves i pgid hUsed hUser hPos (hGroup.imp_right fun ⟨j, _, hj⟩ => ⟨j, hj⟩)

theorem mayLead_iff : s.mayLead p = true ↔
    ∀ j < s.count, (s.tasks j).used = true → (s.tasks j).pgid ≠ (s.tasks p).pid := by
  simp [mayLead]

/-- The two stores of `set_sid` together. -/
theorem openGroup_openSession (s : Procs) (p : Nat) : ((s.openSession p).openGroup p).tasks =
    update s.tasks p { s.tasks p with sid := (s.tasks p).pid, pgid := (s.tasks p).pid } := by
  simp [openGroup, openSession, setTask]

theorem effect_setSid (hLive : (s.tasks p).live = true) :
    Effect s (.setSid p) (s.setSid p).1 := by
  unfold setSid
  split
  · exact .adjusts (adjusts_refl s)
  split
  next hMay => exact .leads hLive (mayLead_iff.mp hMay)
  · exact .adjusts (adjusts_refl s)

/-- **Every step has one of the effects.** -/
theorem effect_of_step (hStep : s.Step e s') : Effect s e s' := by
  unfold Step next at hStep
  cases e with
  | spawnUser p parentPid heap =>
    obtain ⟨hLive, rfl⟩ := guard_inv hStep
    unfold spawnUser
    split
    · exact .adjusts (adjusts_refl s)
    next hSlot => exact effect_spawnAt heap (.user hLive) hSlot
  | fork p memory heap =>
    obtain ⟨hLive, rfl⟩ := guard_inv hStep
    obtain ⟨hLive, hUser⟩ := Bool.and_eq_true_iff.mp hLive
    unfold forkCurrent
    split
    · split
      · exact .adjusts (adjusts_refl s)
      next hSlot => exact effect_spawnAt heap (.fork hLive hUser) hSlot
    · exact .adjusts (adjusts_refl s)
  | spawnThread p heap =>
    obtain ⟨hLive, rfl⟩ := guard_inv hStep
    obtain ⟨hLive, hUser⟩ := Bool.and_eq_true_iff.mp hLive
    unfold spawnThread
    split
    · exact .adjusts (adjusts_refl s)
    next hSlot => exact effect_spawnAt heap (.thread hLive hUser) hSlot
  | exit p code =>
    exact of_guard hStep fun hLive => effect_exitCurrent hLive code
  | wait p which options pending =>
    exact of_guard hStep fun hLive => effect_waitChild hLive which options pending
  | setPgid p pid pgid =>
    exact of_guard hStep fun _ => effect_setPgid s p pid pgid
  | setSid p =>
    exact of_guard hStep fun hLive => effect_setSid (Bool.and_eq_true_iff.mp hLive).1
  | stop p signo =>
    obtain ⟨hLive, rfl⟩ := guard_inv hStep
    have hStopped : Adjusted (s.tasks p) { s.tasks p with
        report := some (kStopped ||| signo), state := .stopped } :=
      ⟨rfl, rfl, rfl, rfl, rfl, rfl, rfl, .inr ⟨(Bool.and_eq_true_iff.mp hLive).1, rfl⟩⟩
    exact Effect.adjusts ((Adjusts.setTask hStopped).trans (adjusts_rouseParent _ _))
  | cont pid =>
    obtain rfl := some.inj hStep
    unfold continueTask
    split
    · exact .adjusts (adjusts_refl s)
    next i _ =>
    simp only
    split
    next hStopped =>
      have hReady : Adjusted (s.tasks i) { s.tasks i with
          report := some kContinued, state := .ready } :=
        ⟨rfl, rfl, rfl, rfl, rfl, rfl, rfl, .inr (by simp [Proc.live, hStopped.2])⟩
      exact Effect.adjusts ((Adjusts.setTask hReady).trans (adjusts_rouseParent _ _))
    · exact .adjusts (adjusts_refl s)
  | dispatch i =>
    obtain ⟨hReady, rfl⟩ := guard_inv hStep
    exact .adjusts (.setTask
      ⟨rfl, rfl, rfl, rfl, rfl, rfl, rfl, .inr (by simp [Proc.live, hReady.1])⟩)
  | displace i =>
    obtain rfl := some.inj hStep
    refine .adjusts (.setTask ⟨rfl, rfl, rfl, rfl, rfl, rfl, rfl, ?_⟩)
    by_cases hRunning : (s.tasks i).state = .running
    · exact .inr (by simp [Proc.live, hRunning])
    · exact .inl (by simp [hRunning])
  | block i =>
    obtain ⟨hRunning, rfl⟩ := guard_inv hStep
    exact .adjusts (.setTask
      ⟨rfl, rfl, rfl, rfl, rfl, rfl, rfl, .inr (by simp [Proc.live, hRunning])⟩)
  | rouse i =>
    obtain rfl := some.inj hStep
    exact .adjusts (.setTask (adjusted_rouse _))
  | kill i =>
    simp only at hStep
    split at hStep
    next hStopped =>
      obtain rfl := some.inj hStep
      exact .adjusts (.setTask
        ⟨rfl, rfl, rfl, rfl, rfl, rfl, rfl, .inr (by simp [Proc.live, hStopped])⟩)
    · obtain rfl := some.inj hStep
      exact .adjusts (.setTask (adjusted_rouse _))

/-! ## Process ids -/

@[simp] theorem spawnAt_tasks (s : Procs) (i : Nat) (t : Proc) :
    (s.spawnAt i true t).tasks = update s.tasks i t := rfl

theorem lt_count_spawnAt (s : Procs) (i : Nat) (t : Proc) :
    s.count ≤ (s.spawnAt i true t).count ∧ i < (s.spawnAt i true t).count := by
  simp only [spawnAt, setTask, if_true]
  split <;> omega

/-- A task is made with the next number, and there is one after it. -/
theorem Born.nextPid (h : Born s e parentPid tgid pgid sid) (hOk : NoWrap s e) (i : Nat) (t : Proc) :
    (s.spawnAt i true t).nextPid = s.nextPid + 1 ∧ s.nextPid + 1 < 2 ^ 32 := by
  have hLt : s.nextPid + 1 < 2 ^ 32 := by cases h <;> exact hOk
  exact ⟨Nat.mod_eq_of_lt hLt, hLt⟩

/-- Tasks in use have different numbers, all of them given out already. -/
structure Numbered (s : Procs) : Prop where
  nextPid_pos : 0 < s.nextPid
  nextPid_lt : s.nextPid < 2 ^ 32
  pid_lt : ∀ i, (s.tasks i).used = true → 0 < (s.tasks i).pid ∧ (s.tasks i).pid < s.nextPid
  pid_inj : ∀ i j, (s.tasks i).used = true → (s.tasks j).used = true →
    (s.tasks i).pid = (s.tasks j).pid → i = j
  slots : ∀ i, (s.tasks i).used = true → i < s.count

theorem Start.numbered (h : s.Start) : s.Numbered :=
  { h with }

/-- Numbers stay as they are, and no slot comes into use. -/
theorem Numbered.of_fewer (h : s.Numbered) (hNext : s'.nextPid = s.nextPid)
    (hCount : s.count ≤ s'.count) (hPid : ∀ i, (s'.tasks i).pid = (s.tasks i).pid)
    (hUsed : ∀ i, (s'.tasks i).used = true → (s.tasks i).used = true) : s'.Numbered := by
  refine ⟨hNext ▸ h.nextPid_pos, hNext ▸ h.nextPid_lt, fun i hi => ?_, fun i j hi hj hEq => ?_,
    fun i hi => ?_⟩
  · rw [hPid, hNext]
    exact h.pid_lt i (hUsed i hi)
  · rw [hPid, hPid] at hEq
    exact h.pid_inj i j (hUsed i hi) (hUsed j hj) hEq
  · exact (h.slots i (hUsed i hi)).trans_le hCount

/-- One task changes, keeps its number, and is in use only if it was. -/
theorem Numbered.of_setTask (h : s.Numbered) (hTasks : s'.tasks = update s.tasks i t)
    (hNext : s'.nextPid = s.nextPid) (hCount : s'.count = s.count) (hPid : t.pid = (s.tasks i).pid)
    (hUsed : t.used = true → (s.tasks i).used = true) : s'.Numbered := by
  refine h.of_fewer hNext hCount.ge (fun j => ?_) (fun j hj => ?_)
  · rw [hTasks]
    by_cases hEq : j = i
    · subst hEq
      simpa using hPid
    · simp [hEq]
  · rw [hTasks] at hj
    by_cases hEq : j = i
    · subst hEq
      simpa using hUsed (by simpa using hj)
    · simpa [hEq] using hj

theorem Numbered.adjusts (h : s.Numbered) (hAdjusts : Adjusts s s') : s'.Numbered :=
  h.of_fewer hAdjusts.nextPid hAdjusts.count (fun i => (hAdjusts.tasks i).pid)
    (fun i hi => (hAdjusts.tasks i).used ▸ hi)

theorem Numbered.effect (h : s.Numbered) (hOk : NoWrap s e) (hEffect : Effect s e s') :
    s'.Numbered := by
  cases hEffect with
  | adjusts hAdjusts => exact h.adjusts hAdjusts
  | @born _ parentPid tgid pgid sid i hBorn hUnused =>
    obtain ⟨hCount, hi⟩ := lt_count_spawnAt s i (s.newTask i parentPid tgid pgid sid)
    obtain ⟨hNext, hLt⟩ := hBorn.nextPid hOk i (s.newTask i parentPid tgid pgid sid)
    refine ⟨by omega, by omega, fun j hj => ?_, fun j k hj hk hEq => ?_, fun j hj => ?_⟩
    · rw [hNext]
      by_cases hji : j = i
      · subst hji
        simpa [newTask] using h.nextPid_pos
      · simp only [spawnAt_tasks, update_of_ne hji] at hj ⊢
        have hLt := h.pid_lt j hj
        omega
    · simp only [spawnAt_tasks] at hj hk hEq
      by_cases hji : j = i
      · by_cases hki : k = i
        · exact hji.trans hki.symm
        · simp only [hji, update_self, update_of_ne hki, newTask] at hk hEq
          have hLt := h.pid_lt k hk
          omega
      · by_cases hki : k = i
        · simp only [hki, update_self, update_of_ne hji, newTask] at hj hEq
          have hLt := h.pid_lt j hj
          omega
        · simp only [update_of_ne hji, update_of_ne hki] at hj hk hEq
          exact h.pid_inj j k hj hk hEq
    · by_cases hji : j = i
      · exact hji ▸ hi
      · simp only [spawnAt_tasks, update_of_ne hji] at hj
        exact (h.slots j hj).trans_le hCount
  | @ends p code _ hLive hAdjusts =>
    have hEnded : (s.ended p code).Numbered :=
      h.of_setTask rfl rfl rfl rfl fun _ => Proc.used_of_live hLive
    exact hEnded.adjusts hAdjusts
  | reaps i hReap => exact h.of_setTask rfl rfl rfl rfl fun hUsed => by simp [Proc.used] at hUsed
  | moves i pgid hUsed hUser hPos hGroup => exact h.of_setTask rfl rfl rfl rfl fun _ => hUsed
  | leads hLive hFree =>
    exact h.of_setTask (openGroup_openSession s _) rfl rfl rfl fun _ => Proc.used_of_live hLive

end Procs
end LeahOS.Sched
