import LeahOS.Sched.Locks

/-!
# Tasks and the processors they are on (`kernel/sched/scheduler.cpp`)

The task table, what each processor runs, and the steps of the scheduler. `pick_next` and
`switch_to` run under the kernel lock, and each is part of one step here. A switch has two
parts with a gap between them: `switch_to` hands the kernel lock on before the context of the
outgoing task is saved, and `finish_switch` lets go of that task on the other side. In the
gap the processor does nothing else, and the other processors do anything.

`on_cpu` closes the gap. It is set when a processor commits to a task and cleared by
`finish_switch`, and `pick_next` passes over a task that has it set. Two kinds of task run
without it: the idle task an application processor adopts, which no other processor picks, and
the boot task, which was never switched to. The boot task has nothing else to protect it. If
it blocks before it was ever switched out, it can be woken and picked up in the gap.

An application processor that has not adopted its idle task can take an interrupt too, while it
waits for the kernel lock with interrupts on, and would switch away from the task of the boot
processor. `noSharing_of_flagged` is for runs without either.

Stacks, address spaces, ticks and load are left out, and `wait_child` is here as the part that
frees the slot of a zombie.
-/

namespace LeahOS.Sched
open Lib Function Option Bool

/-- `enum class State`. -/
inductive TaskState
  | unused
  | ready
  | running
  | blocked
  | stopped
  | zombie
  | dead
  deriving DecidableEq

/-- The fields of `Task` the scheduler goes by. -/
structure Task where
  pid : Nat
  parentPid : Nat
  state : TaskState
  isUser : Bool
  waitChannel : Nat
  wakeTick : Nat
  bklDepth : Nat
  onCpu : Bool

def kMaxTasks : Nat := 256
def kMaxCpuSlots : Nat := 32

/-- The globals of `scheduler.cpp`. `entered` is a ghost: the processor is the boot processor,
or has adopted its idle task. -/
structure Tasks where
  tasks : Nat → Task
  count : Nat
  nextPid : Nat
  current : Nat → Nat
  idle : Nat → Option Nat
  previous : Nat → Option Nat
  bkl : Bkl
  panicked : Bool
  entered : Nat → Bool

/-- Which signal it is, as far as `signal_send` looks at it. -/
inductive Signal
  | cont
  | kill
  | other
  deriving DecidableEq

/-- The steps. `heap` says whether there is memory for a stack, and what `block` leaves alone is
`none`. -/
inductive TaskEvent
  | acquire (cpu : Nat)
  | release (cpu : Nat)
  | releaseAll (cpu : Nat)
  | spawn (cpu : Nat) (isUser heap : Bool)
  | startIdle (cpu slot : Nat)
  | adopt (cpu : Nat)
  | yield (cpu : Nat)
  | block (cpu : Nat) (channel wakeTick : Option Nat)
  | clearWait (cpu : Nat)
  | stop (cpu : Nat)
  | exit (cpu : Nat)
  | wake (cpu channel : Nat)
  | wakeN (cpu channel limit : Nat)
  | tick (cpu now : Nat)
  | signal (pid : Nat) (signo : Signal)
  | reap (cpu task : Nat)
  | finish (cpu : Nat)

namespace Tasks

def setTask (s : Tasks) (i : Nat) (t : Task) : Tasks :=
  { s with tasks := update s.tasks i t }

/-- `find`: the task with this pid. -/
def find (s : Tasks) (pid : Nat) : Option Nat :=
  (List.range s.count).find? fun i => (s.tasks i).pid == pid && (s.tasks i).state != .unused

def isIdleTask (s : Tasks) (i : Nat) : Bool :=
  (List.range kMaxCpuSlots).any fun c => s.idle c == some i

def allocSlot (s : Tasks) : Option Nat :=
  (List.range kMaxTasks).find? fun i => (s.tasks i).state == .unused

/-- A task `pick_next` may take off the queue. -/
def pickable (s : Tasks) (i : Nat) : Bool :=
  !s.isIdleTask i && (s.tasks i).state == .ready && !(s.tasks i).onCpu

/-- `pick_next`; `none` is its panic. -/
def pickNext (s : Tasks) (c : Nat) : Option Nat :=
  match ((List.range' 1 s.count).map fun step => (s.current c + step) % s.count).find?
    s.pickable with
  | some i => some i
  | none =>
    let state := (s.tasks (s.current c)).state
    if !s.isIdleTask (s.current c) && (state == .running || state == .ready) then
      some (s.current c)
    else s.idle c

/-- `bkl::handoff` by the owner of the lock. -/
def handoff (b : Bkl) (c target : Nat) : Bkl := if target = 0 then b.drop c else b.take c target

/-- `switch_to`, up to the point where the lock is handed on. -/
def switchTo (s : Tasks) (c next : Nat) : Tasks :=
  let prev := s.current c
  if next = prev then s
  else if (s.tasks next).onCpu then { s with panicked := true }
  else
    let s' := s.setTask next { s.tasks next with state := .running, onCpu := true }
    let s' := s'.setTask prev { s.tasks prev with bklDepth := s.bkl.depth c }
    { s' with
      current := update s.current c next
      previous := update s.previous c (some prev)
      bkl := handoff s.bkl c (s.tasks next).bklDepth }

/-- `switch_to(pick_next())`. -/
def reschedule (s : Tasks) (c : Nat) : Option Tasks := (s.pickNext c).map (s.switchTo c)

/-- The current task changes its state. -/
def mark (s : Tasks) (c : Nat) (t : Task) : Tasks := s.setTask (s.current c) t

/-- A blocked task becomes ready. -/
def rouse (t : Task) : Task := if t.state = .blocked then { t with state := .ready } else t

/-- A sleeping parent hears of it. -/
def rouseParent (s : Tasks) (pid : Nat) : Tasks :=
  match s.find pid with
  | none => s
  | some i => s.setTask i (rouse (s.tasks i))

/-- `block_on`, `block_on_until`, `sleep_ticks` and their relatives. -/
def block (s : Tasks) (c : Nat) (channel wakeTick : Option Nat) : Option Tasks :=
  let t := s.tasks (s.current c)
  (s.mark c { t with
    state := .blocked
    waitChannel := channel.getD t.waitChannel
    wakeTick := wakeTick.getD t.wakeTick }).reschedule c

/-- The end of `block_on_until`. -/
def clearWait (s : Tasks) (c : Nat) : Tasks :=
  s.mark c { s.tasks (s.current c) with wakeTick := 0, waitChannel := 0 }

/-- `stop_current`. -/
def stop (s : Tasks) (c : Nat) : Option Tasks :=
  let t := s.tasks (s.current c)
  ((s.mark c { t with state := .stopped }).rouseParent t.parentPid).reschedule c

/-- `exit_current`, the scheduler's part. -/
def exit (s : Tasks) (c : Nat) : Option Tasks :=
  let t := s.tasks (s.current c)
  ((s.mark c { t with state := if t.isUser then .zombie else .dead }).rouseParent
    t.parentPid).reschedule c

/-- The task waits on the channel. -/
def waitsOn (t : Task) (channel : Nat) : Bool := t.state == .blocked && t.waitChannel == channel

/-- What `wake` does to a task that waits on the channel. -/
def wakeTask (t : Task) : Task := { t with state := .ready, waitChannel := 0 }

/-- `wake_n`; `wake` is without a limit. -/
def wakeAll (s : Tasks) (channel limit : Nat) : Tasks :=
  let woken := ((List.range s.count).filter fun i => waitsOn (s.tasks i) channel).take limit
  { s with tasks := fun i => if i ∈ woken then wakeTask (s.tasks i) else s.tasks i }

/-- The wakeups of `on_tick`. -/
def onTick (s : Tasks) (now : Nat) : Tasks :=
  { s with tasks := fun i =>
      let t := s.tasks i
      if i < s.count ∧ t.state = .blocked ∧ t.wakeTick ≠ 0 ∧ t.wakeTick ≤ now then
        { t with wakeTick := 0, waitChannel := 0, state := .ready }
      else t }

/-- What `signal_send` does to the state of its target. -/
def signalTask (signo : Signal) (t : Task) : Task :=
  if t.state = .blocked then wakeTask t
  else if signo ≠ .other ∧ t.state = .stopped then { t with state := .ready }
  else t

/-- `signal_send`, which takes no lock. -/
def signalSend (s : Tasks) (pid : Nat) (signo : Signal) : Option Tasks :=
  match s.find pid with
  | none => none
  | some i =>
    let t := s.tasks i
    if !t.isUser ∨ t.state = .zombie ∨ t.state = .dead then none
    else
      let s' := s.setTask i (signalTask signo t)
      some (if signo = .cont ∧ t.state = .stopped then s'.rouseParent t.parentPid else s')

/-- The new task of `spawn` and its relatives. -/
def newTask (s : Tasks) (c i : Nat) (isUser : Bool) : Task :=
  { s.tasks i with
    pid := s.nextPid
    parentPid := (s.tasks (s.current c)).pid
    state := .ready
    isUser := isUser
    bklDepth := 0 }

/-- `spawn` and its relatives, in the slot `i`. -/
def spawnAt (s : Tasks) (c i : Nat) (isUser heap : Bool) : Tasks :=
  let s := { s with count := if s.count ≤ i then i + 1 else s.count }
  if heap then { s.setTask i (s.newTask c i isUser) with nextPid := s.nextPid + 1 } else s

/-- `start_idle_for`, once for each processor. -/
def startIdleFor (s : Tasks) (c slot : Nat) : Option Tasks :=
  if kMaxCpuSlots ≤ slot ∨ (s.idle slot).isSome then none
  else s.allocSlot.map fun i =>
    { s.spawnAt c i false true with idle := update s.idle slot (some i) }

/-- The adoption in `enter_scheduler_on_this_cpu`. -/
def adopt (s : Tasks) (c : Nat) : Option Tasks :=
  if s.entered c then none
  else (s.idle c).map fun i =>
    { s.setTask i { s.tasks i with state := .running } with
      current := update s.current c i
      entered := update s.entered c true }

/-- The part of `wait_child` that gives the slot of a zombie back. -/
def reap (s : Tasks) (c i : Nat) : Option Tasks :=
  let t := s.tasks i
  if t.parentPid = (s.tasks (s.current c)).pid ∧ t.state = .zombie ∧ !t.onCpu then
    some (s.setTask i { t with state := .unused })
  else none

/-- What `finish_switch` does to the displaced task. -/
def displaced (t : Task) : Task :=
  { t with state := if t.state = .running then .ready else t.state, onCpu := false }

def finishSwitch (s : Tasks) (c : Nat) : Option Tasks :=
  (s.previous c).map fun i =>
    { s.setTask i (displaced (s.tasks i)) with previous := update s.previous c none }

/-- The processor is not between the two parts of a switch. -/
def settled (s : Tasks) (c : Nat) : Bool := (s.previous c).isNone

/-- The processor may enter the scheduler. -/
def locked (s : Tasks) (c : Nat) : Bool := s.settled c && s.bkl.owner == some c

/-- One step; after a panic there is none. Idle tasks do not block, stop or end, and only user
tasks are stopped. -/
def next (s : Tasks) (e : TaskEvent) : Option Tasks :=
  if s.panicked then none
  else
    match e with
    | .acquire c =>
      if !s.settled c then none
      else if s.bkl.owner = some c then some { s with bkl := s.bkl.nest c }
      else if s.bkl.owner = none then some { s with bkl := s.bkl.take c 1 }
      else none
    | .release c => if s.settled c then some { s with bkl := s.bkl.release c } else none
    | .releaseAll c => if s.settled c then some { s with bkl := s.bkl.releaseAll c } else none
    | .spawn c isUser heap =>
      if s.locked c then s.allocSlot.map fun i => s.spawnAt c i isUser heap else none
    | .startIdle c slot => if s.locked c then s.startIdleFor c slot else none
    | .adopt c => if s.locked c then s.adopt c else none
    | .yield c => if s.locked c then s.reschedule c else none
    | .block c channel wakeTick =>
      if s.locked c ∧ !s.isIdleTask (s.current c) then s.block c channel wakeTick else none
    | .clearWait c => if s.locked c then some (s.clearWait c) else none
    | .stop c =>
      if s.locked c ∧ !s.isIdleTask (s.current c) ∧ (s.tasks (s.current c)).isUser then s.stop c
      else none
    | .exit c => if s.locked c ∧ !s.isIdleTask (s.current c) then s.exit c else none
    | .wake c channel => if s.locked c then some (s.wakeAll channel s.count) else none
    | .wakeN c channel limit => if s.locked c then some (s.wakeAll channel limit) else none
    | .tick c now => if s.locked c then some (s.onTick now) else none
    | .signal pid signo => s.signalSend pid signo
    | .reap c i => if s.locked c then s.reap c i else none
    | .finish c => s.finishSwitch c

/-- The steps of the scheduler. -/
def Step (s : Tasks) (e : TaskEvent) (s' : Tasks) : Prop := s.next e = some s'

/-- `scheduler::init`: the boot task on the boot processor. -/
def init : Tasks where
  tasks := fun i => ⟨if i = 0 then 1 else 0, 0, if i = 0 then .running else .unused, false, 0, 0, 0,
    false⟩
  count := 1
  nextPid := 2
  current := fun _ => 0
  idle := fun _ => none
  previous := fun _ => none
  bkl := ⟨none, fun _ => 0⟩
  panicked := false
  entered := fun c => c == 0

/-- The task is the current one or the just displaced one of a processor that schedules. -/
def On (s : Tasks) (c i : Nat) : Prop :=
  s.entered c = true ∧ (s.current c = i ∨ s.previous c = some i)

/-- No two processors have one current task, a task with `on_cpu` set is on exactly one, and
`switch_to` never found the flag set. -/
structure NoSharing (s : Tasks) : Prop where
  alone : ∀ c d, s.entered c = true → s.entered d = true → c ≠ d → s.current c ≠ s.current d
  flagged : ∀ i, (s.tasks i).onCpu = true → ∃! c, s.On c i
  calm : s.panicked = false

end Tasks

/-- A processor reschedules only once it has entered the scheduler, and a task blocks only with
`on_cpu` set. -/
def Flagged (s : Tasks) : TaskEvent → Prop
  | .block c _ _ => s.entered c = true ∧ (s.tasks (s.current c)).onCpu = true
  | .yield c | .stop c | .exit c => s.entered c = true
  | _ => True

instance (s : Tasks) (e : TaskEvent) : Decidable (Flagged s e) := by
  cases e <;> unfold Flagged <;> infer_instance

namespace Tasks
variable {c i n : Nat} {s s' : Tasks} {t : Task}

theorem isIdleTask_iff :
    s.isIdleTask i = true ↔ ∃ c, c < kMaxCpuSlots ∧ s.idle c = some i := by
  simp [isIdleTask]

/-- What `pick_next` returns is free, is the task that runs already, or is the idle task of the
processor. -/
theorem pickNext_cases (hPick : s.pickNext c = some n) :
    s.pickable n = true ∨ n = s.current c ∨ s.idle c = some n := by
  unfold pickNext at hPick
  split at hPick
  next i hFind =>
    obtain rfl := some.inj hPick
    exact .inl (List.find?_some hFind)
  next =>
    simp only at hPick
    split at hPick
    · exact .inr (.inl (some.inj hPick).symm)
    · exact .inr (.inr hPick)

/-- What the record in slot `i` has to be, the processors being where they are. A task a
processor is on is kept from the others by its flag, by being an idle task, or, the boot task, by
a state that nobody else changes. -/
structure Fits (s : Tasks) (i : Nat) (t : Task) : Prop where
  used : ∀ c, s.On c i → t.state ≠ .unused
  held : ∀ c, s.On c i → t.onCpu = true ∨ s.isIdleTask i = true ∨
    (t.isUser = false ∧ (t.state = .running ∨ t.state = .dead))
  idles : ∀ c, s.idle c = some i → t.state ≠ .unused ∧ t.state ≠ .zombie

/-- What every step keeps. -/
structure Inv (s : Tasks) : Prop where
  calm : s.panicked = false
  apart : ∀ {c d i}, s.On c i → s.On d i → c = d
  fits : ∀ i, Fits s i (s.tasks i)
  flag : ∀ i, (s.tasks i).onCpu = true → ∃ c, s.On c i
  home : ∀ {c d i}, s.idle c = some i → s.On d i → d = c
  own : ∀ {c d i}, s.idle c = some i → s.idle d = some i → c = d
  slots : ∀ {c i}, s.idle c = some i → c < kMaxCpuSlots
  fresh : ∀ {c i}, s.previous c = some i → s.current c ≠ i
  past : ∀ {c i}, s.previous c = some i → s.entered c = true

theorem Inv.noSharing (hInv : s.Inv) : s.NoSharing where
  alone c d hC hD hNe hSame :=
    hNe (hInv.apart (i := s.current c) ⟨hC, .inl rfl⟩ ⟨hD, .inl hSame.symm⟩)
  flagged i hCpu := by
    obtain ⟨c, hOn⟩ := hInv.flag i hCpu
    exact ⟨c, hOn, fun d hD => hInv.apart hD hOn⟩
  calm := hInv.calm

theorem inv_init : init.Inv where
  calm := rfl
  apart := by
    rintro c d i ⟨hC, -⟩ ⟨hD, -⟩
    exact (beq_iff_eq.mp hC).trans (beq_iff_eq.mp hD).symm
  fits i := by
    have hZero : ∀ c, init.On c i → i = 0 := by
      rintro c ⟨-, hCur | hPrev⟩
      · exact hCur.symm
      · cases hPrev
    refine ⟨fun c hOn => ?_, fun c hOn => ?_, fun c hIdle => (by cases hIdle)⟩
    · obtain rfl := hZero c hOn
      decide
    · obtain rfl := hZero c hOn
      exact .inr (.inr ⟨rfl, .inl rfl⟩)
  flag i hCpu := (by cases hCpu)
  home hIdle := (by cases hIdle)
  own hIdle := (by cases hIdle)
  slots hIdle := (by cases hIdle)
  fresh hPrev := (by cases hPrev)
  past hPrev := (by cases hPrev)

/-- The processors stay where they are, no flag changes, and every task still fits. -/
structure Retask (s s' : Tasks) : Prop where
  panicked : s'.panicked = s.panicked
  current : s'.current = s.current
  idle : s'.idle = s.idle
  previous : s'.previous = s.previous
  entered : s'.entered = s.entered
  onCpu : ∀ i, (s'.tasks i).onCpu = (s.tasks i).onCpu
  fits : ∀ i, Fits s i (s'.tasks i)

theorem Inv.retask (hInv : s.Inv) (h : Retask s s') : s'.Inv := by
  obtain ⟨hPanicked, hCurrent, hIdle, hPrevious, hEntered, hCpu, hFits⟩ := h
  obtain ⟨tasks, count, nextPid, current, idle, previous, bkl, panicked, entered⟩ := s'
  subst hPanicked hCurrent hIdle hPrevious hEntered
  exact { hInv with
    fits := fun i => { hFits i with }
    flag := fun i hOn => hInv.flag i ((hCpu i).symm.trans hOn) }

/-- One task changes. -/
theorem Inv.setTask (hInv : s.Inv) (hCpu : t.onCpu = (s.tasks i).onCpu) (hFits : Fits s i t) :
    (s.setTask i t).Inv := by
  refine hInv.retask ⟨rfl, rfl, rfl, rfl, rfl, fun j => ?_, fun j => ?_⟩
  · by_cases hEq : j = i
    · subst hEq
      simpa [Tasks.setTask] using hCpu
    · simp [Tasks.setTask, hEq]
  · by_cases hEq : j = i
    · subst hEq
      simpa [Tasks.setTask] using hFits
    · simpa [Tasks.setTask, hEq] using hInv.fits j

/-- A task that is waiting or stopped becomes ready, or keeps its state. -/
structure Woken (t t' : Task) : Prop where
  onCpu : t'.onCpu = t.onCpu
  isUser : t'.isUser = t.isUser
  state : t'.state = t.state ∨ ((t.state = .blocked ∨ t.state = .stopped) ∧ t'.state = .ready)

/-- Waking takes no task away from the processor it is on: the one without a flag is not
waiting. -/
theorem Fits.woken {t' : Task} (hFits : Fits s i t) (h : Woken t t') :
    Fits s i t' := by
  obtain ⟨hCpu, hUser, hSame | ⟨hWas, hReady⟩⟩ := h
  · exact ⟨hSame ▸ hFits.used, hCpu ▸ hUser ▸ hSame ▸ hFits.held, hSame ▸ hFits.idles⟩
  · refine ⟨fun c hOn => by simp [hReady], fun c hOn => ?_, fun c hIdle => by simp [hReady]⟩
    rw [hCpu]
    rcases hFits.held c hOn with hHeld | hHeld | ⟨-, hHeld⟩
    · exact .inl hHeld
    · exact .inr (.inl hHeld)
    · rcases hWas with hWas | hWas <;> simp [hWas] at hHeld

theorem woken_rouse (t : Task) : Woken t (rouse t) := by
  unfold rouse
  split
  next hState => exact ⟨rfl, rfl, .inr ⟨.inl hState, rfl⟩⟩
  next => exact ⟨rfl, rfl, .inl rfl⟩

theorem woken_signalTask (signo : Signal) (t : Task) : Woken t (signalTask signo t) := by
  unfold signalTask
  split
  next hState => exact ⟨rfl, rfl, .inr ⟨.inl hState, rfl⟩⟩
  next =>
    split
    next hStop => exact ⟨rfl, rfl, .inr ⟨.inr hStop.2, rfl⟩⟩
    next => exact ⟨rfl, rfl, .inl rfl⟩

theorem Inv.woken (hInv : s.Inv) (h : Woken (s.tasks i) t) :
    (s.setTask i t).Inv :=
  hInv.setTask h.onCpu ((hInv.fits i).woken h)

/-- Many tasks are woken at once. -/
theorem Inv.wokenAll (hInv : s.Inv) {f : Nat → Task} (h : ∀ i, Woken (s.tasks i) (f i)) :
    ({ s with tasks := f } : Tasks).Inv :=
  hInv.retask ⟨rfl, rfl, rfl, rfl, rfl, fun i => (h i).onCpu, fun i => (hInv.fits i).woken (h i)⟩

theorem Inv.rouseParent (hInv : s.Inv) (pid : Nat) : (s.rouseParent pid).Inv := by
  unfold Tasks.rouseParent
  split
  next => exact hInv
  next i _ => exact hInv.woken (woken_rouse _)

theorem Inv.wakeAll (hInv : s.Inv) (channel limit : Nat) :
    (s.wakeAll channel limit).Inv := by
  refine hInv.wokenAll fun i => ?_
  split
  next hMem =>
    have hWaits := (List.mem_filter.mp (List.mem_of_mem_take hMem)).2
    simp only [waitsOn, and_eq_true, beq_iff_eq] at hWaits
    exact ⟨rfl, rfl, .inr ⟨.inl hWaits.1, rfl⟩⟩
  next => exact ⟨rfl, rfl, .inl rfl⟩

theorem Inv.onTick (hInv : s.Inv) (now : Nat) : (s.onTick now).Inv := by
  refine hInv.wokenAll fun i => ?_
  simp only
  split
  next hDue => exact ⟨rfl, rfl, .inr ⟨.inl hDue.2.1, rfl⟩⟩
  next => exact ⟨rfl, rfl, .inl rfl⟩

variable {pid slot : Nat}

theorem Inv.signalSend (hInv : s.Inv) {signo : Signal} (hNext : s.signalSend pid signo = some s') :
    s'.Inv := by
  unfold Tasks.signalSend at hNext
  split at hNext
  next => cases hNext
  next i _ =>
    simp only at hNext
    split at hNext
    next => cases hNext
    next =>
      obtain rfl := some.inj hNext
      have hTask := hInv.woken (woken_signalTask signo (s.tasks i))
      split
      next => exact hTask.rouseParent _
      next => exact hTask

/-- A task no processor is on takes any state. -/
theorem Inv.setFree (hInv : s.Inv) (hCpu : t.onCpu = (s.tasks i).onCpu) (hFree : ∀ c, ¬ s.On c i)
    (hIdle : ∀ c, s.idle c ≠ some i) :
    (s.setTask i t).Inv :=
  hInv.setTask hCpu ⟨fun c hOn => absurd hOn (hFree c), fun c hOn => absurd hOn (hFree c),
    fun c hSome => absurd hSome (hIdle c)⟩

/-- A zombie that is off its processor is on none. -/
theorem Inv.reap (hInv : s.Inv) (hNext : s.reap c i = some s') :
    s'.Inv := by
  obtain ⟨⟨-, hZombie, hOff⟩, rfl⟩ := guard_inv hNext
  have hIdle : ∀ d, s.idle d ≠ some i := fun d hSome => ((hInv.fits i).idles d hSome).2 hZombie
  refine hInv.setFree rfl (fun d hOn => ?_) hIdle
  rcases (hInv.fits i).held d hOn with hHeld | hHeld | ⟨-, hHeld⟩
  · simp [hHeld] at hOff
  · obtain ⟨e, -, hSome⟩ := isIdleTask_iff.mp hHeld
    exact hIdle e hSome
  · simp [hZombie] at hHeld

theorem allocSlot_unused (hSlot : s.allocSlot = some i) :
    (s.tasks i).state = .unused := by
  simpa using List.find?_some hSlot

/-- A task is made in a slot that no processor is on. -/
theorem Inv.spawnAt (hInv : s.Inv) (hSlot : s.allocSlot = some i) (c : Nat) (isUser heap : Bool) :
    (s.spawnAt c i isUser heap).Inv := by
  have hUnused := allocSlot_unused hSlot
  unfold Tasks.spawnAt
  simp only
  split
  next =>
    have hSet : (s.setTask i (s.newTask c i isUser)).Inv :=
      hInv.setFree rfl (fun d hOn => (hInv.fits i).used d hOn hUnused)
        (fun d hSome => ((hInv.fits i).idles d hSome).1 hUnused)
    exact hSet.retask ⟨rfl, rfl, rfl, rfl, rfl, fun _ => rfl, hSet.fits⟩
  next => exact hInv.retask ⟨rfl, rfl, rfl, rfl, rfl, fun _ => rfl, hInv.fits⟩

/-- A new task becomes the idle task of a processor that had none. -/
theorem Inv.setIdle (hInv : s.Inv) (hLt : slot < kMaxCpuSlots) (hNone : s.idle slot = none)
    (hReady : (s.tasks i).state = .ready) (hFree : ∀ c, ¬ s.On c i) (hIdle : ∀ c, s.idle c ≠ some i) :
    ({ s with idle := update s.idle slot (some i) } : Tasks).Inv := by
  have hUpd : ∀ {d j}, update s.idle slot (some i) d = some j →
      (d = slot ∧ j = i) ∨ (d ≠ slot ∧ s.idle d = some j) := by
    intro d j hSome
    by_cases hEq : d = slot
    · subst hEq
      rw [update_self] at hSome
      exact .inl ⟨rfl, (some.inj hSome).symm⟩
    · rw [update_of_ne hEq] at hSome
      exact .inr ⟨hEq, hSome⟩
  have hMono : ∀ j, s.isIdleTask j = true →
      isIdleTask { s with idle := update s.idle slot (some i) } j = true := by
    intro j hJ
    obtain ⟨d, hD, hSome⟩ := isIdleTask_iff.mp hJ
    have hNe : d ≠ slot := by
      rintro rfl
      rw [hNone] at hSome
      cases hSome
    exact isIdleTask_iff.mpr ⟨d, hD, (update_of_ne hNe _ _).trans hSome⟩
  refine ⟨hInv.calm, hInv.apart, fun j => ⟨(hInv.fits j).used, fun c hOn => ?_, fun c hSome => ?_⟩,
    hInv.flag, fun hSome hOn => ?_, fun hC hD => ?_, fun hSome => ?_, hInv.fresh, hInv.past⟩
  · exact ((hInv.fits j).held c hOn).imp_right (Or.imp_left (hMono j))
  · rcases hUpd hSome with ⟨-, rfl⟩ | ⟨-, hSome⟩
    · simp [hReady]
    · exact (hInv.fits j).idles c hSome
  · rcases hUpd hSome with ⟨-, rfl⟩ | ⟨-, hSome⟩
    · exact absurd hOn (hFree _)
    · exact hInv.home hSome hOn
  · rcases hUpd hC with ⟨rfl, rfl⟩ | ⟨-, hOld⟩ <;> rcases hUpd hD with ⟨rfl, hEq⟩ | ⟨-, hOld'⟩
    · rfl
    · exact absurd hOld' (hIdle _)
    · subst hEq
      exact absurd hOld (hIdle _)
    · exact hInv.own hOld hOld'
  · rcases hUpd hSome with ⟨rfl, -⟩ | ⟨-, hSome⟩
    · exact hLt
    · exact hInv.slots hSome

theorem Inv.startIdleFor (hInv : s.Inv) (hNext : s.startIdleFor c slot = some s') :
    s'.Inv := by
  unfold Tasks.startIdleFor at hNext
  split at hNext
  next => cases hNext
  next hSlot =>
    push Not at hSlot
    obtain ⟨i, hAlloc, rfl⟩ := map_eq_some_iff.mp hNext
    have hUnused := allocSlot_unused hAlloc
    have hNone : s.idle slot = none := by simpa using hSlot.2
    refine (hInv.spawnAt hAlloc c false true).setIdle hSlot.1 hNone ?_
      (fun d hOn => (hInv.fits i).used d hOn hUnused)
      (fun d hSome => ((hInv.fits i).idles d hSome).1 hUnused)
    simp [Tasks.spawnAt, Tasks.setTask, newTask]

/-- The processor `c` goes to the task `n`, which no processor was on, and stays on those it
was on. -/
structure Moves (s s' : Tasks) (c n : Nat) : Prop where
  free : ∀ d, ¬ s.On d n
  home : ∀ d, s.idle d = some n → d = c
  panicked : s'.panicked = s.panicked
  idle : s'.idle = s.idle
  arrives : s'.On c n
  stays : ∀ d i, s.On d i → s'.On d i
  onlyHere : ∀ d i, s'.On d i → (d = c ∧ i = n) ∨ s.On d i
  running : (s'.tasks n).state = .running
  held : (s'.tasks n).onCpu = true ∨ s.isIdleTask n = true
  onCpu : ∀ i, i ≠ n → (s'.tasks i).onCpu = (s.tasks i).onCpu
  others : ∀ i, i ≠ n → (s'.tasks i).state = (s.tasks i).state ∧
    (s'.tasks i).isUser = (s.tasks i).isUser
  fresh : ∀ d i, s'.previous d = some i → s'.current d ≠ i
  past : ∀ d i, s'.previous d = some i → s'.entered d = true

theorem Moves.fits (h : Moves s s' c n) (hInv : s.Inv) (i : Nat) :
    Fits s' i (s'.tasks i) := by
  have hIdle : s'.isIdleTask i = s.isIdleTask i := by simp only [isIdleTask, h.idle]
  by_cases hEq : i = n
  · subst hEq
    refine ⟨fun d _ => by simp [h.running], fun d _ => ?_, fun d _ => by simp [h.running]⟩
    rw [hIdle]
    exact h.held.imp_right .inl
  · have hOld : ∀ d, s'.On d i → s.On d i := fun d hOn =>
      (h.onlyHere d i hOn).resolve_left fun hNew => hEq hNew.2
    obtain ⟨hState, hUser⟩ := h.others i hEq
    refine ⟨fun d hOn => ?_, fun d hOn => ?_, fun d hSome => ?_⟩
    · rw [hState]
      exact (hInv.fits i).used d (hOld d hOn)
    · rw [hIdle, hState, hUser, h.onCpu i hEq]
      exact (hInv.fits i).held d (hOld d hOn)
    · rw [hState]
      rw [h.idle] at hSome
      exact (hInv.fits i).idles d hSome

theorem Inv.moves (hInv : s.Inv) (h : Moves s s' c n) : s'.Inv where
  calm := h.panicked.trans hInv.calm
  apart {d e i} hD hE := by
    rcases h.onlyHere d i hD with ⟨rfl, rfl⟩ | hD
    · rcases h.onlyHere e i hE with ⟨rfl, -⟩ | hE
      · rfl
      · exact absurd hE (h.free e)
    · rcases h.onlyHere e i hE with ⟨rfl, rfl⟩ | hE
      · exact absurd hD (h.free d)
      · exact hInv.apart hD hE
  fits := h.fits hInv
  flag i hCpu := by
    by_cases hEq : i = n
    · exact ⟨c, hEq ▸ h.arrives⟩
    · rw [h.onCpu i hEq] at hCpu
      obtain ⟨d, hOn⟩ := hInv.flag i hCpu
      exact ⟨d, h.stays d i hOn⟩
  home {d e i} hSome hOn := by
    rw [h.idle] at hSome
    rcases h.onlyHere e i hOn with ⟨rfl, rfl⟩ | hOld
    · exact (h.home d hSome).symm
    · exact hInv.home hSome hOld
  own hC hD := hInv.own (h.idle ▸ hC) (h.idle ▸ hD)
  slots hSome := hInv.slots (h.idle ▸ hSome)
  fresh := h.fresh _ _
  past := h.past _ _

/-- An idle task that waits for its processor is on none. -/
theorem Inv.adopt (hInv : s.Inv) (hNext : s.adopt c = some s') :
    s'.Inv := by
  unfold Tasks.adopt at hNext
  split at hNext
  next => cases hNext
  next hOut =>
    obtain ⟨n, hIdle, rfl⟩ := map_eq_some_iff.mp hNext
    have hPrev : ∀ i, s.previous c ≠ some i := fun i hSome => hOut (hInv.past hSome)
    have hNe : ∀ {d i}, s.On d i → d ≠ c := by
      rintro d i hOn rfl
      exact hOut hOn.1
    refine hInv.moves (c := c) (n := n) ⟨fun d hOn => ?_, fun d hSome => hInv.own hSome hIdle, rfl,
      rfl, ?_, fun d i hOn => ?_, fun d i hOn => ?_, ?_, ?_, fun i hI => ?_, fun i hI => ?_,
      fun d i hSome => ?_, fun d i hSome => ?_⟩
    · exact hNe hOn (hInv.home hIdle hOn)
    · simp [On]
    · simpa [On, Tasks.setTask, update_of_ne (hNe hOn)] using hOn
    · by_cases hEq : d = c
      · subst hEq
        rcases hOn.2 with hCur | hSome
        · exact .inl ⟨rfl, by simpa using hCur.symm⟩
        · exact absurd hSome (hPrev i)
      · exact .inr (by simpa [On, Tasks.setTask, update_of_ne hEq] using hOn)
    · simp [Tasks.setTask]
    · exact .inr (isIdleTask_iff.mpr ⟨c, hInv.slots hIdle, hIdle⟩)
    · simp [Tasks.setTask, hI]
    · simp [Tasks.setTask, hI]
    · have hEq : d ≠ c := by
        rintro rfl
        exact hPrev i hSome
      simpa [update_of_ne hEq] using hInv.fresh hSome
    · have hEq : d ≠ c := by
        rintro rfl
        exact hPrev i hSome
      simpa [update_of_ne hEq] using hInv.past hSome

/-- What `pick_next` returns, if it is another task, is on no processor: a task on one that is
ready has its flag set. -/
theorem Inv.pickNext_free (hInv : s.Inv) (hSettled : s.settled c = true)
    (hPick : s.pickNext c = some n) (hNe : n ≠ s.current c) :
    (∀ d, ¬ s.On d n) ∧ ∀ d, s.idle d = some n → d = c := by
  rcases pickNext_cases hPick with hFree | hCur | hIdle
  · simp only [pickable, and_eq_true, not_eq_true', beq_iff_eq] at hFree
    obtain ⟨⟨hIdle, hReady⟩, hCpu⟩ := hFree
    refine ⟨fun d hOn => ?_, fun d hSome => ?_⟩
    · rcases (hInv.fits n).held d hOn with hHeld | hHeld | ⟨-, hHeld⟩
      · simp [hHeld] at hCpu
      · simp [hHeld] at hIdle
      · simp [hReady] at hHeld
    · rw [isIdleTask_iff.mpr ⟨d, hInv.slots hSome, hSome⟩] at hIdle
      cases hIdle
  · exact absurd hCur hNe
  · refine ⟨fun d hOn => ?_, fun d hSome => hInv.own hSome hIdle⟩
    obtain rfl := hInv.home hIdle hOn
    rcases hOn.2 with hCur | hPrev
    · exact hNe hCur.symm
    · simp [settled, hPrev] at hSettled

/-- The state after `switch_to` has gone to another task. -/
theorem switchTo_of_ne (hNe : n ≠ s.current c) (hOff : (s.tasks n).onCpu = false) :
    s.switchTo c n =
      { s with
        tasks := update
          (update s.tasks n { s.tasks n with state := .running, onCpu := true })
          (s.current c) { s.tasks (s.current c) with bklDepth := s.bkl.depth c }
        current := update s.current c n
        previous := update s.previous c (some (s.current c))
        bkl := handoff s.bkl c (s.tasks n).bklDepth } := by
  simp [switchTo, hNe, hOff, Tasks.setTask]

/-- The switch: the incoming task gets its flag, and the outgoing one stays on the processor as
the displaced one. -/
theorem Inv.switchTo (hInv : s.Inv) (hIn : s.entered c = true) (hSettled : s.settled c = true)
    (hPick : s.pickNext c = some n) : (s.switchTo c n).Inv := by
  by_cases hNe : n = s.current c
  · simpa [Tasks.switchTo, hNe] using hInv
  obtain ⟨hFree, hHome⟩ := hInv.pickNext_free hSettled hPick hNe
  have hOff : (s.tasks n).onCpu = false := by
    rw [eq_false_iff]
    intro hCpu
    obtain ⟨d, hOn⟩ := hInv.flag n hCpu
    exact hFree d hOn
  have hNone : s.previous c = none := by simpa [settled] using hSettled
  rw [switchTo_of_ne hNe hOff]
  refine hInv.moves (c := c) (n := n) ⟨hFree, hHome, rfl, rfl, ⟨hIn, .inl (by simp)⟩,
    fun d i hOn => ?_, fun d i hOn => ?_, ?_, .inl ?_, fun i hI => ?_, fun i hI => ?_,
    fun d i hSome => ?_, fun d i hSome => ?_⟩
  · by_cases hEq : d = c
    · subst hEq
      have hCur : s.current d = i := hOn.2.resolve_right (by simp [hNone])
      exact ⟨hIn, .inr (by simp [hCur])⟩
    · simpa [On, update_of_ne hEq] using hOn
  · by_cases hEq : d = c
    · subst hEq
      rcases hOn.2 with hCur | hPrev
      · exact .inl ⟨rfl, by simpa using hCur.symm⟩
      · exact .inr ⟨hIn, .inl (by simpa using hPrev)⟩
    · exact .inr (by simpa [On, update_of_ne hEq] using hOn)
  · simp [update_of_ne hNe]
  · simp [update_of_ne hNe]
  · by_cases hCur : i = s.current c
    · simp [hCur]
    · simp [hCur, hI]
  · by_cases hCur : i = s.current c
    · simp [hCur]
    · simp [hCur, hI]
  · by_cases hEq : d = c
    · subst hEq
      have hCur : s.current d = i := by simpa using hSome
      simpa [← hCur] using hNe
    · simpa [update_of_ne hEq] using
        hInv.fresh (c := d) (by simpa [update_of_ne hEq] using hSome)
  · by_cases hEq : d = c
    · exact hEq ▸ hIn
    · exact hInv.past (by simpa [update_of_ne hEq] using hSome)

theorem Inv.reschedule (hInv : s.Inv) (hIn : s.entered c = true) (hSettled : s.settled c = true)
    (hNext : s.reschedule c = some s') : s'.Inv := by
  obtain ⟨n, hPick, rfl⟩ := map_eq_some_iff.mp hNext
  exact hInv.switchTo hIn hSettled hPick

/-- The current task of a processor may take a state in which nobody but its flag protects it,
if it has one, and may die if it is not a user task. -/
theorem Inv.mark (hInv : s.Inv) (hCpu : t.onCpu = (s.tasks (s.current c)).onCpu)
    (hUsed : t.state ≠ .unused) (hIdle : s.isIdleTask (s.current c) = false)
    (hHeld : t.onCpu = true ∨ (t.isUser = false ∧ t.state = .dead)) : (s.mark c t).Inv := by
  refine hInv.setTask hCpu ⟨fun d _ => hUsed, fun d _ => ?_, fun d hSome => ?_⟩
  · exact hHeld.imp_right fun hDead => .inr ⟨hDead.1, .inr hDead.2⟩
  · rw [isIdleTask_iff.mpr ⟨d, hInv.slots hSome, hSome⟩] at hIdle
    cases hIdle

/-- A user task that a processor runs has its flag set. -/
theorem Inv.onCpu_of_isUser (hInv : s.Inv) (hIn : s.entered c = true)
    (hIdle : s.isIdleTask (s.current c) = false) (hUser : (s.tasks (s.current c)).isUser = true) :
    (s.tasks (s.current c)).onCpu = true := by
  rcases (hInv.fits (s.current c)).held c ⟨hIn, .inl rfl⟩ with hHeld | hHeld | ⟨hHeld, -⟩
  · exact hHeld
  · simp [hHeld] at hIdle
  · simp [hUser] at hHeld

theorem finishSwitch_eq (hNext : s.finishSwitch c = some s') :
    ∃ n, s.previous c = some n ∧
      s' = { s with
        tasks := update s.tasks n (displaced (s.tasks n))
        previous := update s.previous c none } := by
  obtain ⟨n, hPrev, rfl⟩ := map_eq_some_iff.mp hNext
  exact ⟨n, hPrev, rfl⟩

/-- After `finish_switch` nobody is on the displaced task, and nothing else has moved. -/
theorem Inv.on_displaced (hInv : s.Inv) (hPrev : s.previous c = some n) (f : Nat → Task) (d i : Nat) :
    On { s with tasks := f, previous := update s.previous c none } d i ↔
      s.On d i ∧ i ≠ n := by
  have hBefore : s.On c n := ⟨hInv.past hPrev, .inr hPrev⟩
  by_cases hEq : d = c
  · subst hEq
    constructor
    · rintro ⟨hIn, hCur | hSome⟩
      · refine ⟨⟨hIn, .inl hCur⟩, ?_⟩
        rintro rfl
        exact hInv.fresh hPrev hCur
      · simp at hSome
    · rintro ⟨⟨hIn, hCur | hSome⟩, hNe⟩
      · exact ⟨hIn, .inl hCur⟩
      · rw [hPrev] at hSome
        exact absurd (some.inj hSome).symm hNe
  · have hSame : On { s with tasks := f, previous := update s.previous c none } d i ↔
        s.On d i := by
      simp [On, update_of_ne hEq]
    rw [hSame]
    refine ⟨fun hOn => ⟨hOn, ?_⟩, And.left⟩
    rintro rfl
    exact hEq (hInv.apart hOn hBefore)

/-- `finish_switch` takes the displaced task off its processor. -/
theorem Inv.finishSwitch (hInv : s.Inv) (hNext : s.finishSwitch c = some s') : s'.Inv := by
  obtain ⟨n, hPrev, rfl⟩ := finishSwitch_eq hNext
  have hOn := hInv.on_displaced hPrev (update s.tasks n (displaced (s.tasks n)))
  have hPrevious : ∀ {d i}, update s.previous c none d = some i →
      s.previous d = some i := by
    intro d i hSome
    by_cases hEq : d = c
    · simp [hEq] at hSome
    · simpa [update_of_ne hEq] using hSome
  refine ⟨hInv.calm, fun hC hD => hInv.apart ((hOn _ _).mp hC).1 ((hOn _ _).mp hD).1, fun i => ?_,
    fun i hCpu => ?_, fun hSome hD => hInv.home hSome ((hOn _ _).mp hD).1, hInv.own, hInv.slots,
    fun hSome => hInv.fresh (hPrevious hSome), fun hSome => hInv.past (hPrevious hSome)⟩
  · by_cases hEq : i = n
    · subst hEq
      refine ⟨fun d hD => absurd rfl ((hOn d i).mp hD).2, fun d hD => absurd rfl ((hOn d i).mp hD).2,
        fun d hSome => ?_⟩
      have hIdles := (hInv.fits i).idles d hSome
      simp only [update_self, displaced]
      split
      · simp
      · exact hIdles
    · have hFits := hInv.fits i
      simp only [update_of_ne hEq]
      exact ⟨fun d hD => hFits.used d ((hOn d i).mp hD).1,
        fun d hD => hFits.held d ((hOn d i).mp hD).1, hFits.idles⟩
  · have hNe : i ≠ n := by
      rintro rfl
      simp [displaced] at hCpu
    simp only [update_of_ne hNe] at hCpu
    obtain ⟨d, hD⟩ := hInv.flag i hCpu
    exact ⟨d, (hOn d i).mpr ⟨hD, hNe⟩⟩

theorem rouseParent_entered (s : Tasks) (pid : Nat) : (s.rouseParent pid).entered = s.entered := by
  unfold rouseParent
  split <;> rfl

theorem rouseParent_previous (s : Tasks) (pid : Nat) :
    (s.rouseParent pid).previous = s.previous := by
  unfold rouseParent
  split <;> rfl

/-- A marked task tells its parent and leaves. -/
theorem Inv.leave (hInv : s.Inv) (hIn : s.entered c = true) (hSettled : s.settled c = true)
    (hNext : (s.rouseParent pid).reschedule c = some s') : s'.Inv := by
  refine (hInv.rouseParent pid).reschedule ?_ ?_ hNext
  · rw [rouseParent_entered]
    exact hIn
  · unfold settled
    rw [rouseParent_previous]
    exact hSettled

theorem Inv.block (hInv : s.Inv) (hIn : s.entered c = true) (hSettled : s.settled c = true)
    (hIdle : s.isIdleTask (s.current c) = false) (hCpu : (s.tasks (s.current c)).onCpu = true)
    {channel wakeTick : Option Nat} (hNext : s.block c channel wakeTick = some s') : s'.Inv := by
  refine .reschedule (hInv.mark ?_ ?_ hIdle (.inl ?_)) ?_ ?_ hNext
  · rfl
  · simp
  · exact hCpu
  · exact hIn
  · exact hSettled

/-- A task stops only as a user task, and so with its flag set. -/
theorem Inv.mark_stop (hInv : s.Inv) (hIn : s.entered c = true)
    (hIdle : s.isIdleTask (s.current c) = false) (hUser : (s.tasks (s.current c)).isUser = true) :
    (s.mark c { s.tasks (s.current c) with state := .stopped }).Inv :=
  hInv.mark rfl (by simp) hIdle (.inl (hInv.onCpu_of_isUser hIn hIdle hUser))

/-- A user task exits with its flag set, and a dead task is never picked. -/
theorem Inv.mark_exit (hInv : s.Inv) (hIn : s.entered c = true)
    (hIdle : s.isIdleTask (s.current c) = false) :
    (s.mark c { s.tasks (s.current c) with
      state := if (s.tasks (s.current c)).isUser then .zombie else .dead }).Inv := by
  refine hInv.mark rfl ?_ hIdle ?_
  · simp only
    split <;> simp
  · cases hUser : (s.tasks (s.current c)).isUser with
    | true => exact .inl (hInv.onCpu_of_isUser hIn hIdle hUser)
    | false => exact .inr ⟨rfl, by simp⟩

/-- A step keeps the invariant. -/
theorem Inv.step (hInv : s.Inv) {e : TaskEvent} (hOk : Flagged s e) (hNext : s.Step e s') :
    s'.Inv := by
  unfold Step next at hNext
  rw [if_neg (by simp [hInv.calm])] at hNext
  have hBkl : ∀ b, ({ s with bkl := b } : Tasks).Inv := fun b =>
    hInv.retask ⟨rfl, rfl, rfl, rfl, rfl, fun _ => rfl, hInv.fits⟩
  cases e with
  | acquire c =>
    simp only at hNext
    split at hNext
    · cases hNext
    · split at hNext
      · obtain rfl := some.inj hNext
        exact hBkl _
      · obtain ⟨-, rfl⟩ := guard_inv hNext
        exact hBkl _
  | release c | releaseAll c =>
    exact of_guard hNext fun _ => hBkl _
  | spawn c isUser heap =>
    obtain ⟨-, hNext⟩ := ite_none_right_eq_some.mp hNext
    obtain ⟨i, hSlot, rfl⟩ := map_eq_some_iff.mp hNext
    exact hInv.spawnAt hSlot c isUser heap
  | startIdle c slot =>
    exact hInv.startIdleFor (ite_none_right_eq_some.mp hNext).2
  | adopt c => exact hInv.adopt (ite_none_right_eq_some.mp hNext).2
  | yield c =>
    obtain ⟨hLocked, hNext⟩ := ite_none_right_eq_some.mp hNext
    exact hInv.reschedule hOk (and_eq_true_iff.mp hLocked).1 hNext
  | block c channel wakeTick =>
    obtain ⟨⟨hLocked, hIdle⟩, hNext⟩ := ite_none_right_eq_some.mp hNext
    exact hInv.block hOk.1 (and_eq_true_iff.mp hLocked).1 (by simpa using hIdle) hOk.2 hNext
  | clearWait c =>
    exact of_guard hNext fun _ => hInv.woken ⟨rfl, rfl, .inl rfl⟩
  | stop c =>
    obtain ⟨⟨hLocked, hIdle, hUser⟩, hNext⟩ := ite_none_right_eq_some.mp hNext
    exact (hInv.mark_stop hOk (by simpa using hIdle) hUser).leave hOk
      (and_eq_true_iff.mp hLocked).1 hNext
  | exit c =>
    obtain ⟨⟨hLocked, hIdle⟩, hNext⟩ := ite_none_right_eq_some.mp hNext
    exact (hInv.mark_exit hOk (by simpa using hIdle)).leave hOk (and_eq_true_iff.mp hLocked).1
      hNext
  | wake c channel | wakeN c channel limit =>
    exact of_guard hNext fun _ => hInv.wakeAll _ _
  | tick c now =>
    exact of_guard hNext fun _ => hInv.onTick now
  | signal pid signo => exact hInv.signalSend hNext
  | reap c i => exact hInv.reap (ite_none_right_eq_some.mp hNext).2
  | finish c => exact hInv.finishSwitch hNext

end Tasks

/-- In a run in which processors reschedule after they have entered the scheduler, and tasks
block with `on_cpu` set, no processor runs a task another one is on, in any state. -/
theorem noSharing_of_flagged (es : List TaskEvent) (s : Tasks)
    (hRun : Run (Restrict Flagged Tasks.Step) Tasks.init es s) : s.NoSharing := by
  exact (hRun.invariant_of (I := Tasks.Inv) (fun _ _ _ h => h.step) Tasks.inv_init).noSharing

/-- Two processors start, and the second adopts its idle task. -/
def startEvents : List TaskEvent :=
  [.acquire 0, .startIdle 0 0, .startIdle 0 1, .release 0, .acquire 1, .adopt 1, .releaseAll 1]

/-- The boot task blocks before it was ever switched out. The other processor wakes it in the
gap and runs it, and the boot processor, back from the gap, runs it too. -/
def stolenEvents : List TaskEvent :=
  startEvents ++ [.acquire 0, .block 0 (some 7) none, .acquire 1, .wake 1 7, .yield 1, .finish 0,
    .finish 1, .release 1, .acquire 0, .yield 0]

/-- It is not so that no processor ever runs a task another one is on. -/
theorem not_noSharing_stolenEvents :
    ¬ ∀ es s, Run Tasks.Step Tasks.init es s → s.NoSharing := by
  intro hAll
  obtain ⟨s, hRun, hZero, hOne, hSame⟩ : ∃ s, Run Tasks.Step Tasks.init stolenEvents s ∧
      s.entered 0 ∧ s.entered 1 ∧ s.current 0 = s.current 1 :=
    Run.exists_of_foldlM (fun _ _ _ h => h) (by decide +kernel)
  exact (hAll stolenEvents s hRun).alone 0 1 hZero hOne (by decide) hSame

/-- The boot task yields to a task of its own, comes back, and blocks. The other processor wakes
it in the gap and passes over it, and runs it when the switch is finished. -/
def handoverEvents : List TaskEvent :=
  startEvents ++ [.acquire 0, .spawn 0 true true, .yield 0, .finish 0, .acquire 0,
    .block 0 (some 9) none, .finish 0, .block 0 (some 7) none, .acquire 1, .wake 1 7, .yield 1,
    .finish 0, .yield 1, .finish 1]

theorem noSharing_handoverEvents :
    ∃ s, Run (Restrict Flagged Tasks.Step) Tasks.init handoverEvents s ∧ s.NoSharing ∧
      s.current 0 = 1 ∧ s.current 1 = 0 := by
  obtain ⟨s, hRun, hAt⟩ : ∃ s, Run (Restrict Flagged Tasks.Step) Tasks.init handoverEvents s ∧
      s.current 0 = 1 ∧ s.current 1 = 0 :=
    Run.exists_of_guarded (fun _ _ _ h => h) (by decide +kernel)
  exact ⟨s, hRun, noSharing_of_flagged handoverEvents s hRun, hAt⟩

end LeahOS.Sched
