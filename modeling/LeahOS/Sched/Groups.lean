import LeahOS.Sched.Processes

/-!
# Processes of several threads (`kernel/sched/scheduler.cpp`)

What a process has besides its tasks: the signals pending for each of them, and the open files,
the program break, the next mmap address and the signal dispositions. Every task has fields for
the latter, and the kernel looks them up with the leader of the thread group.

`exit_group` ends a process. It rouses the threads that are blocked and passes over those that
are stopped, which keep the group alive until somebody continues them. A thread that it rouses out
of the loop of `wait_for` or `read_key` goes to sleep again. `fork_current` copies the
fields of the task that calls it, and those of a thread are what `spawn_thread` made them.
-/

namespace LeahOS.Sched
open Lib Function

def kSigKill : Nat := 9

/-- The tasks the loop of `exit_group` does not pass over when `p` runs it. -/
def Procs.siblings (s : Procs) (p i : Nat) : Bool :=
  decide (i < s.count) && i != p && (s.tasks i).tgid == (s.tasks p).tgid && (s.tasks i).isUser &&
    (s.tasks i).live

/-- The task runs or is about to. -/
def Proc.runnable (t : Proc) : Bool := t.state == .ready || t.state == .running

namespace Procs
variable {s : Procs} {i p : Nat} {t : Proc}

theorem exitCurrent_count (s : Procs) (p : Nat) (code : Int) :
    (s.exitCurrent p code).count = s.count := by
  unfold exitCurrent rouseParent
  dsimp only
  split <;> rfl

theorem exitCurrent_self (s : Procs) (p : Nat) (code : Int) :
    ((s.exitCurrent p code).tasks p).live = false ∧
      ((s.exitCurrent p code).tasks p).tgid = (s.tasks p).tgid := by
  have hRoused := (adjusts_rouseParent (s.setTask p { s.tasks p with
    exitCode := code
    state := if (s.tasks p).isUser then .zombie else .dead }) (s.tasks p).parentPid).tasks p
  refine ⟨hRoused.live.trans ?_, hRoused.tgid.trans ?_⟩
  · simp only [setTask, update_self]
    cases (s.tasks p).isUser <;> rfl
  · simp only [setTask, update_self]

/-- Another task is roused at most. -/
theorem exitCurrent_other (code : Int) (hNe : i ≠ p) :
    (s.exitCurrent p code).tasks i = s.tasks i ∨
      (s.exitCurrent p code).tasks i = rouse (s.tasks i) := by
  unfold exitCurrent rouseParent
  dsimp only
  split
  · exact .inl (update_of_ne hNe ..)
  next j _ =>
    by_cases hEq : i = j
    · subst hEq
      exact .inr (by simp [setTask, hNe])
    · exact .inl (by simp [setTask, hNe, hEq])

theorem rouse_rouse (t : Proc) : rouse (rouse t) = rouse t := by
  unfold rouse
  split <;> simp_all

/-- A task that has not ended may run once it is roused, unless it is stopped. -/
theorem runnable_rouse (hLive : t.live = true) :
    (rouse t).runnable = true ↔ t.state ≠ .stopped := by
  unfold rouse Proc.live at *
  split at hLive <;> simp_all [Proc.runnable]

end Procs

/-- The task table with `sig_pending` of each task, and which tasks are in the loop of `wait_for` or
`read_key`: these sleep until there is something for them, whatever signals are pending. -/
structure Signals where
  procs : Procs
  pending : Nat → Nat
  loops : Nat → Bool

namespace Signals

/-- The loop of `exit_group`. -/
def killGroup (s : Signals) (p : Nat) : Signals where
  procs := { s.procs with
    tasks := fun i =>
      if s.procs.siblings p i then Procs.rouse (s.procs.tasks i) else s.procs.tasks i }
  pending := fun i =>
    if s.procs.siblings p i then s.pending i ||| 1 <<< kSigKill else s.pending i
  loops := s.loops

def exitGroup (s : Signals) (p : Nat) (code : Int) : Signals :=
  { s.killGroup p with procs := (s.killGroup p).procs.exitCurrent p code }

/-- What becomes of a task that runs with SIGKILL pending while nothing else happens. -/
def ranOut (s : Signals) (i : Nat) : Proc :=
  let t := s.procs.tasks i
  if (s.pending i).testBit kSigKill && t.runnable then
    { t with state := if s.loops i then .blocked else .zombie }
  else t

/-- The process of `p` ends as a whole: every other thread has SIGKILL pending and may run, and when
those that may have run, the group is gone. -/
structure Ends (s : Signals) (p : Nat) : Prop where
  killed : ∀ i, s.procs.siblings p i = true → (s.pending i).testBit kSigKill = true ∧
    (s.procs.tasks i).state ≠ .blocked ∧ (s.procs.tasks i).state ≠ .stopped
  reapable : ∀ i, (s.procs.tasks i).tgid = (s.procs.tasks p).tgid →
    ({ s.procs with tasks := s.ranOut } : Procs).groupStillAlive i = false

variable {s : Signals} {i p : Nat} {code : Int}

/-- What `exit_group` leaves of another task. -/
theorem exitGroup_other (code : Int) (hNe : i ≠ p) :
    ((s.exitGroup p code).procs.tasks i = s.procs.tasks i ∨
      (s.exitGroup p code).procs.tasks i = Procs.rouse (s.procs.tasks i)) ∧
    (s.procs.siblings p i = true →
      (s.exitGroup p code).procs.tasks i = Procs.rouse (s.procs.tasks i)) := by
  have hTask := Procs.exitCurrent_other (s := (s.killGroup p).procs) code hNe
  simp only [killGroup] at hTask
  cases hSibling : s.procs.siblings p i with
  | false =>
    simp only [hSibling, Bool.false_eq_true, if_false] at hTask
    exact ⟨hTask, fun h => absurd h Bool.false_ne_true⟩
  | true =>
    simp only [hSibling, if_true, Procs.rouse_rouse, or_self] at hTask
    exact ⟨.inr hTask, fun _ => hTask⟩

theorem adjusted_exitGroup (s : Signals) (code : Int) (hNe : i ≠ p) :
    Procs.Adjusted (s.procs.tasks i) ((s.exitGroup p code).procs.tasks i) := by
  rcases (exitGroup_other (s := s) code hNe).1 with hTask | hTask
  · exact hTask ▸ Procs.Adjusted.refl _
  · exact hTask ▸ Procs.adjusted_rouse _

theorem tgid_exitGroup (s : Signals) (p : Nat) (code : Int) :
    ((s.exitGroup p code).procs.tasks p).tgid = (s.procs.tasks p).tgid := by
  refine (Procs.exitCurrent_self (s.killGroup p).procs p code).2.trans ?_
  simp [killGroup, Procs.siblings]

theorem siblings_iff (s : Procs) (p i : Nat) : s.siblings p i = true ↔ i < s.count ∧ i ≠ p ∧
    (s.tasks i).tgid = (s.tasks p).tgid ∧ (s.tasks i).isUser = true ∧ (s.tasks i).live = true := by
  simp [Procs.siblings, and_assoc]

/-- The threads it found are those that are left. -/
theorem siblings_exitGroup (code : Int) :
    (s.exitGroup p code).procs.siblings p i = s.procs.siblings p i := by
  rw [Bool.eq_iff_iff, siblings_iff, siblings_iff]
  have hCount : (s.exitGroup p code).procs.count = s.procs.count := Procs.exitCurrent_count ..
  rw [hCount, tgid_exitGroup]
  refine and_congr_right fun _ => and_congr_right fun hNe => ?_
  have hAdjusted := adjusted_exitGroup s code hNe
  rw [hAdjusted.tgid, hAdjusted.isUser, hAdjusted.live]

/-- Each of them has SIGKILL pending, and runs unless it was stopped. -/
theorem exitGroup_sibling (code : Int) (hSibling : s.procs.siblings p i = true) :
    ((s.exitGroup p code).pending i).testBit kSigKill = true ∧
      (((s.exitGroup p code).procs.tasks i).runnable = true ↔
        (s.procs.tasks i).state ≠ .stopped) := by
  obtain ⟨-, hNe, -, -, hLive⟩ := (siblings_iff ..).mp hSibling
  refine ⟨?_, ?_⟩
  · simp only [exitGroup, killGroup, hSibling, if_true, Nat.testBit_or]
    exact Bool.or_eq_true_iff.mpr (.inr (by decide))
  · rw [(exitGroup_other code hNe).2 hSibling]
    exact Procs.runnable_rouse hLive

/-- So it comes to its end unless it was stopped or sleeps again. -/
theorem ranOut_sibling (code : Int) (hSibling : s.procs.siblings p i = true) :
    ((s.exitGroup p code).ranOut i).live = false ↔
      (s.procs.tasks i).state ≠ .stopped ∧ s.loops i = false := by
  obtain ⟨hKilled, hRuns⟩ := exitGroup_sibling code hSibling
  have hLive := ((siblings_iff ..).mp (siblings_exitGroup code ▸ hSibling)).2.2.2.2
  have hLoops : (s.exitGroup p code).loops i = s.loops i := rfl
  unfold ranOut
  by_cases hStopped : (s.procs.tasks i).state = .stopped
  · have hNot := mt hRuns.mp (not_not.mpr hStopped)
    simp [hNot, hLive, hStopped]
  · cases hAgain : s.loops i <;> simp [hKilled, hRuns.mpr hStopped, hLoops, hAgain, Proc.live, hStopped]

/-- Running out brings no task back. -/
theorem ranOut_spec (s : Signals) (i : Nat) : (s.ranOut i).tgid = (s.procs.tasks i).tgid ∧
    ((s.ranOut i).live = true → (s.procs.tasks i).live = true) := by
  unfold ranOut
  dsimp only
  split
  next hRuns =>
    refine ⟨rfl, fun _ => ?_⟩
    simp only [Proc.runnable, Bool.and_eq_true, Bool.or_eq_true, beq_iff_eq] at hRuns
    rcases hRuns.2 with hState | hState <;> simp [Proc.live, hState]
  · exact ⟨rfl, id⟩

theorem groupStillAlive_ranOut (s : Signals) (i : Nat) :
    ({ s.procs with tasks := s.ranOut } : Procs).groupStillAlive i = true ↔
      (s.procs.tasks i).tgid ≠ 0 ∧ ∃ j < s.procs.count, j ≠ i ∧ (s.ranOut j).live = true ∧
        (s.procs.tasks j).tgid = (s.procs.tasks i).tgid := by
  simp only [Procs.groupStillAlive, (ranOut_spec s _).1, Bool.and_eq_true, bne_iff_ne, List.any_eq_true,
    List.mem_range, beq_iff_eq, and_assoc]

/-- A process whose second thread is in this state. -/
def pair (state : TaskState) : Signals where
  procs := {
    tasks := fun i => ⟨i + 1, 0, 1, 1, 1, none,
      if i = 0 then .running else if i = 1 then state else .unused, true, 0, false⟩
    count := 2
    nextPid := 3
    moved := fun _ => false }
  pending := fun _ => 0
  loops := fun _ => false

end Signals

/-! ## What fork copies -/

def kMaxSignals : Nat := 32
def kSigDefault : Nat := 0

/-- The fields of `Task` that belong to the process. A table of open files is `none` when
nothing is open. -/
@[ext]
structure Image (φ : Type) where
  files : Option φ
  brk : Nat
  mmapNext : Nat
  sigHandler : Nat → Nat
  sigRestorer : Nat

/-- The task table with these fields. -/
structure Images (φ : Type) where
  procs : Procs
  image : Nat → Image φ

def Procs.groupLeader (s : Procs) (i : Nat) : Nat :=
  if (s.tasks i).tgid ≠ 0 ∧ (s.tasks i).tgid ≠ (s.tasks i).pid then
    (s.find (s.tasks i).tgid).getD i
  else i

namespace Images
variable {φ : Type}

/-- What the getters make of the fields of the leader. -/
def shown (image : Image φ) : Image φ :=
  { image with sigHandler := fun signo =>
      if signo = 0 ∨ kMaxSignals ≤ signo then kSigDefault else image.sigHandler signo }

/-- What the task sees through `current_files`, `current_brk`, `current_mmap_next`,
`signal_handler` and `signal_restorer`. -/
def seen (s : Images φ) (i : Nat) : Image φ := shown (s.image (s.procs.groupLeader i))

/-- What `spawn_user` starts with. -/
def fresh : Image φ := ⟨none, 0x10000000, 0x40000000, fun _ => kSigDefault, 0⟩

def spawnThread (s : Images φ) (p : Nat) (heap : Bool) : Images φ where
  procs := s.procs.spawnThread p heap
  image := match s.procs.allocSlot with
    | some i => if heap then update s.image i { fresh with
        brk := (s.image p).brk
        mmapNext := (s.image p).mmapNext } else s.image
    | none => s.image

/-- `fork_current`, which looks its child up by the process id. -/
def forkCurrent (s : Images φ) (p : Nat) (memory heap : Bool) : Images φ where
  procs := s.procs.forkCurrent p memory heap
  image :=
    match s.procs.allocSlot, (s.procs.forkCurrent p memory heap).find s.procs.nextPid with
    | some i, some child =>
      if memory && heap then update (update s.image i fresh) child (s.image p) else s.image
    | _, _ => s.image

/-- What a step writes into these fields when it makes a task. -/
def made (s : Images φ) : ProcEvent → Nat → Image φ
  | .spawnUser _ _ heap =>
    match s.procs.allocSlot with
    | some i => if heap then update s.image i fresh else s.image
    | none => s.image
  | .fork p memory heap => (s.forkCurrent p memory heap).image
  | .spawnThread p heap => (s.spawnThread p heap).image
  | _ => s.image

end Images

/-- The operations on tasks, and any change a task makes to the fields of its process, all of which
go to the leader. -/
inductive ImageEvent (φ : Type)
  | proc (e : ProcEvent)
  | alter (p : Nat) (image : Image φ)

namespace Images
variable {φ : Type}

def next (s : Images φ) : ImageEvent φ → Option (Images φ)
  | .proc e => (s.procs.next e).map fun procs => ⟨procs, s.made e⟩
  | .alter p image =>
    if (s.procs.tasks p).live then
      some { s with image := update s.image (s.procs.groupLeader p) image }
    else none

def Step (s : Images φ) (e : ImageEvent φ) (s' : Images φ) : Prop := s.next e = some s'

/-- Process ids do not wrap. -/
def NoWrap (s : Images φ) : ImageEvent φ → Prop
  | .proc e => Sched.NoWrap s.procs e
  | .alter .. => True

instance (s : Images φ) (e : ImageEvent φ) : Decidable (s.NoWrap e) := by
  induction e using ImageEvent.casesOn <;> unfold NoWrap <;> infer_instance

/-- What `spawn_thread` leaves a thread with. -/
structure Bare (image : Image φ) : Prop where
  files : image.files = none
  sigHandler : ∀ signo, image.sigHandler signo = kSigDefault
  sigRestorer : image.sigRestorer = 0

/-- The invariant. The task a group is called after leads it, and the fields of the others are as
they were made. -/
structure Led (s : Images φ) : Prop where
  numbered : s.procs.Numbered
  lt : ∀ i, (s.procs.tasks i).used = true → (s.procs.tasks i).tgid < s.procs.nextPid
  leads : ∀ i j, (s.procs.tasks i).used = true → (s.procs.tasks j).used = true →
    (s.procs.tasks j).pid = (s.procs.tasks i).tgid →
    (s.procs.tasks j).tgid = (s.procs.tasks j).pid
  bare : ∀ i j, (s.procs.tasks i).used = true → (s.procs.tasks j).used = true → i ≠ j →
    (s.procs.tasks j).pid = (s.procs.tasks i).tgid → Bare (s.image i)

theorem led_of_start {s : Images φ} (h : s.procs.Start) : s.Led := by
  -- a kernel task is in the group of nobody else
  have hAlone : ∀ i j, (s.procs.tasks i).used = true → (s.procs.tasks j).used = true →
      (s.procs.tasks j).pid = (s.procs.tasks i).tgid → i = j := by
    intro i j hi hj hEq
    rcases h.tgid i with hZero | hOwn
    · have hPos := (h.pid_lt j hj).1
      omega
    · exact h.pid_inj i j hi hj (hOwn.symm.trans hEq.symm)
  refine ⟨h.numbered, fun i hi => ?_, fun i j hi hj hEq => ?_, fun i j hi hj hNe hEq => ?_⟩
  · rcases h.tgid i with hZero | hOwn
    · exact hZero ▸ h.nextPid_pos
    · exact hOwn ▸ (h.pid_lt i hi).2
  · obtain rfl := hAlone i j hi hj hEq
    exact hEq.symm
  · exact absurd (hAlone i j hi hj hEq) hNe

variable {s s' : Images φ} {i p : Nat}

/-- Steps after which fewer tasks are in use, with the numbers and the fields they had. -/
theorem Led.of_fewer (h : s.Led) (hNumbered : s'.procs.Numbered)
    (hNext : s'.procs.nextPid = s.procs.nextPid) (hImage : s'.image = s.image)
    (hKept : ∀ i, (s'.procs.tasks i).pid = (s.procs.tasks i).pid ∧
      (s'.procs.tasks i).tgid = (s.procs.tasks i).tgid ∧
      ((s'.procs.tasks i).used = true → (s.procs.tasks i).used = true)) : s'.Led := by
  refine ⟨hNumbered, fun i hi => ?_, fun i j hi hj hEq => ?_, fun i j hi hj hNe hEq => ?_⟩
  · rw [hNext, (hKept i).2.1]
    exact h.lt i ((hKept i).2.2 hi)
  · rw [(hKept j).1, (hKept i).2.1] at hEq
    rw [(hKept j).1, (hKept j).2.1]
    exact h.leads i j ((hKept i).2.2 hi) ((hKept j).2.2 hj) hEq
  · rw [(hKept j).1, (hKept i).2.1] at hEq
    rw [hImage]
    exact h.bare i j ((hKept i).2.2 hi) ((hKept j).2.2 hj) hNe hEq

/-- One task changes, keeps its numbers, and is in use only if it was. -/
theorem Led.of_setTask (h : s.Led) (hNumbered : s'.procs.Numbered)
    (hNext : s'.procs.nextPid = s.procs.nextPid) (hImage : s'.image = s.image) {t : Proc}
    (hTasks : s'.procs.tasks = update s.procs.tasks i t) (hPid : t.pid = (s.procs.tasks i).pid)
    (hTgid : t.tgid = (s.procs.tasks i).tgid)
    (hUsed : t.used = true → (s.procs.tasks i).used = true) : s'.Led := by
  refine h.of_fewer hNumbered hNext hImage fun j => ?_
  rw [hTasks]
  by_cases hji : j = i
  · subst hji
    simpa using ⟨hPid, hTgid, hUsed⟩
  · simp [hji]

theorem Led.adjusts (h : s.Led) (hAdjusts : Procs.Adjusts s.procs s'.procs)
    (hImage : s'.image = s.image) : s'.Led := by
  refine h.of_fewer (h.numbered.adjusts hAdjusts) hAdjusts.nextPid hImage fun i => ?_
  have hSame := hAdjusts.tasks i
  exact ⟨hSame.pid, hSame.tgid, fun hUsed => hSame.used ▸ hUsed⟩

/-- A new task leads itself, or it is a thread of the group of the task that made it. -/
theorem Led.born (h : s.Led) {e : ProcEvent} {parentPid tgid pgid sid : Nat}
    {image : Nat → Image φ} (hBorn : Procs.Born s.procs e parentPid tgid pgid sid)
    (hOk : Sched.NoWrap s.procs e) (hUnused : (s.procs.tasks i).state = .unused)
    (hOther : ∀ j ≠ i, image j = s.image j) (hSelf : tgid = s.procs.nextPid ∨ Bare (image i)) :
    Led ⟨s.procs.spawnAt i true (s.procs.newTask i parentPid tgid pgid sid), image⟩ := by
  obtain ⟨hNext, -⟩ := hBorn.nextPid hOk i (s.procs.newTask i parentPid tgid pgid sid)
  have hMaker : tgid = s.procs.nextPid ∨ ∃ p, (s.procs.tasks p).used = true ∧
      tgid = (s.procs.tasks p).tgid := by
    cases hBorn with
    | user _ | fork _ _ => exact .inl rfl
    | thread hLive _ => exact .inr ⟨_, Proc.used_of_live hLive, rfl⟩
  -- nobody else has the new number, and nobody is in a group called after it
  have hPid : ∀ j, (s.procs.tasks j).used = true → (s.procs.tasks j).pid ≠ s.procs.nextPid :=
    fun j hj => (h.numbered.pid_lt j hj).2.ne
  refine ⟨h.numbered.effect hOk (.born i hBorn hUnused), fun j hj => ?_, fun j k hj hk hEq => ?_,
    fun j k hj hk hNe hEq => ?_⟩
  · rw [hNext]
    by_cases hji : j = i
    · subst hji
      simp only [Procs.spawnAt_tasks, update_self, Procs.newTask]
      rcases hMaker with rfl | ⟨p, hp, rfl⟩
      · exact Nat.lt_succ_self _
      · exact (h.lt p hp).trans (Nat.lt_succ_self _)
    · simp only [Procs.spawnAt_tasks, update_of_ne hji] at hj ⊢
      exact (h.lt j hj).trans (Nat.lt_succ_self _)
  · simp only [Procs.spawnAt_tasks] at hj hk hEq ⊢
    by_cases hki : k = i
    · subst hki
      simp only [update_self, Procs.newTask] at hEq ⊢
      by_cases hjk : j = k
      · subst hjk
        simpa using hEq.symm
      · simp only [update_of_ne hjk] at hj hEq
        exact absurd hEq (h.lt j hj).ne'
    · simp only [update_of_ne hki] at hk hEq ⊢
      by_cases hji : j = i
      · subst hji
        simp only [update_self, Procs.newTask] at hEq
        rcases hMaker with rfl | ⟨p, hp, rfl⟩
        · exact absurd hEq (hPid k hk)
        · exact h.leads p k hp hk hEq
      · simp only [update_of_ne hji] at hj hEq
        exact h.leads j k hj hk hEq
  · simp only [Procs.spawnAt_tasks] at hj hk hEq
    by_cases hji : j = i
    · subst hji
      simp only [update_self, update_of_ne hNe.symm, Procs.newTask] at hk hEq
      rcases hSelf with rfl | hBare
      · exact absurd hEq (hPid k hk)
      · exact hBare
    · simp only [update_of_ne hji] at hj hEq
      show Bare (image j)
      rw [hOther j hji]
      by_cases hki : k = i
      · subst hki
        simp only [update_self, Procs.newTask] at hEq
        exact absurd hEq (h.lt j hj).ne'
      · simp only [update_of_ne hki] at hk hEq
        exact h.bare j k hj hk hNe hEq

/-- The same, with or without memory for a stack. -/
theorem Led.spawnAt (h : s.Led) {e : ProcEvent} {parentPid tgid pgid sid : Nat} (heap : Bool)
    (image : Image φ) (hBorn : Procs.Born s.procs e parentPid tgid pgid sid)
    (hOk : Sched.NoWrap s.procs e) (hSlot : s.procs.allocSlot = some i)
    (hSelf : tgid = s.procs.nextPid ∨ Bare image) :
    Led ⟨s.procs.spawnAt i heap (s.procs.newTask i parentPid tgid pgid sid),
      if heap then update s.image i image else s.image⟩ := by
  cases heap with
  | true =>
    have hUnused : (s.procs.tasks i).state = .unused := by simpa using List.find?_some hSlot
    exact h.born hBorn hOk hUnused (fun j hji => by simp [hji]) (by simpa using hSelf)
  | false =>
    refine h.adjusts ⟨fun _ => .refl _, ?_, rfl, rfl⟩ rfl
    simp only [Procs.spawnAt, Bool.false_eq_true, if_false]
    split <;> omega

/-- Any step but those that make a task. -/
theorem Led.effect (h : s.Led) {e : ProcEvent} {procs : Procs} (hOk : Sched.NoWrap s.procs e)
    (hEffect : Procs.Effect s.procs e procs)
    (hNot : ∀ parentPid tgid pgid sid, ¬ Procs.Born s.procs e parentPid tgid pgid sid) :
    Led ⟨procs, s.image⟩ := by
  have hNumbered := h.numbered.effect hOk hEffect
  cases hEffect with
  | adjusts hAdjusts => exact h.adjusts hAdjusts rfl
  | born _ hBorn => exact absurd hBorn (hNot _ _ _ _)
  | @ends p code _ hLive hAdjusts =>
    have hUsed := Proc.used_of_live hLive
    have hEnded : Led ⟨s.procs.ended p code, s.image⟩ :=
      h.of_setTask (h.numbered.of_setTask rfl rfl rfl rfl fun _ => hUsed) rfl rfl rfl rfl rfl
        fun _ => hUsed
    exact hEnded.adjusts hAdjusts rfl
  | reaps i hReap =>
    exact h.of_setTask hNumbered rfl rfl rfl rfl rfl fun hUsed => by simp [Proc.used] at hUsed
  | moves i pgid hUsed => exact h.of_setTask hNumbered rfl rfl rfl rfl rfl fun _ => hUsed
  | leads hLive =>
    exact h.of_setTask hNumbered rfl rfl (Procs.openGroup_openSession ..) rfl rfl
      fun _ => Proc.used_of_live hLive

/-- `find` gives the task with the number. -/
theorem find_iff {s : Procs} (h : s.Numbered) {pid j : Nat} :
    s.find pid = some j ↔ (s.tasks j).used = true ∧ (s.tasks j).pid = pid := by
  constructor
  · intro hFind
    have hAt := List.find?_some hFind
    simp only [Bool.and_eq_true, beq_iff_eq] at hAt
    exact hAt.symm
  · rintro ⟨hUsed, hPid⟩
    cases hFind : s.find pid with
    | none =>
      have hNot := List.find?_eq_none.mp hFind j (List.mem_range.mpr (h.slots j hUsed))
      simp [hUsed, hPid] at hNot
    | some k =>
      have hAt := List.find?_some hFind
      simp only [Bool.and_eq_true, beq_iff_eq] at hAt
      rw [h.pid_inj k j hAt.2 hUsed (hAt.1.trans hPid.symm)]

/-- `fork_current` finds the child it has made. -/
theorem forkCurrent_image (h : s.procs.Numbered) (hNext : s.procs.nextPid + 1 < 2 ^ 32)
    (hSlot : s.procs.allocSlot = some i) (hCaller : (s.procs.tasks p).live = true)
    (hUser : (s.procs.tasks p).isUser = true) (heap : Bool) :
    (s.forkCurrent p true heap).image =
      if heap then update s.image i (s.image p) else s.image := by
  cases heap with
  | true =>
    have hUnused : (s.procs.tasks i).state = .unused := by simpa using List.find?_some hSlot
    have hNumbered : (s.procs.forkCurrent p true true).Numbered := by
      have hBorn := @Procs.Born.fork s.procs p true true hCaller hUser
      have hOk : Sched.NoWrap s.procs (.fork p true true) := hNext
      simpa [Procs.forkCurrent, hSlot] using h.effect hOk (.born i hBorn hUnused)
    have hFind : (s.procs.forkCurrent p true true).find s.procs.nextPid = some i := by
      refine (find_iff hNumbered).mpr ?_
      simp [Procs.forkCurrent, hSlot, Procs.newTask, Proc.used]
    simp [forkCurrent, hSlot, hFind]
  | false =>
    unfold forkCurrent
    dsimp only
    split <;> simp

/-- A task in the group of another has it as its leader. -/
theorem groupLeader_eq {s : Procs} (h : s.Numbered) {j : Nat} (hp : (s.tasks p).used = true)
    (hj : (s.tasks j).used = true) (hNe : p ≠ j) (hPid : (s.tasks j).pid = (s.tasks p).tgid) :
    s.groupLeader p = j := by
  have hPos := (h.pid_lt j hj).1
  have hOther : (s.tasks p).tgid ≠ (s.tasks p).pid := fun hOwn =>
    hNe (h.pid_inj p j hp hj (hOwn.symm.trans hPid.symm))
  rw [Procs.groupLeader, if_pos ⟨by omega, hOther⟩, (find_iff h).mpr ⟨hj, hPid⟩]
  rfl

theorem groupLeader_ne {s : Procs} (hLeader : s.groupLeader p ≠ p) :
    (s.tasks (s.groupLeader p)).used = true ∧
      (s.tasks (s.groupLeader p)).pid = (s.tasks p).tgid := by
  unfold Procs.groupLeader at hLeader ⊢
  split at hLeader
  next hThread =>
    rw [if_pos hThread]
    cases hFind : s.find (s.tasks p).tgid with
    | none => simp [hFind] at hLeader
    | some j =>
      have hAt := List.find?_some hFind
      simp only [Bool.and_eq_true, beq_iff_eq] at hAt
      exact hAt.symm
  · exact absurd rfl hLeader

/-- A change goes to a task that leads its group. -/
theorem Led.alter (h : s.Led) (hp : (s.procs.tasks p).used = true) (image : Image φ) :
    Led { s with image := update s.image (s.procs.groupLeader p) image } := by
  refine ⟨h.numbered, h.lt, h.leads, fun i j hi hj hNe hPid => ?_⟩
  by_cases hEq : i = s.procs.groupLeader p
  · have hLeads := groupLeader_eq h.numbered hi hj hNe hPid
    by_cases hSelf : s.procs.groupLeader p = p
    · rw [hEq, hSelf, hSelf] at hLeads
      exact absurd (hEq.trans (hSelf.trans hLeads)) hNe
    · obtain ⟨hUsed, hOf⟩ := groupLeader_ne hSelf
      have hOwn := h.leads p _ hp hUsed hOf
      rw [← hEq] at hOwn
      exact absurd (h.numbered.pid_inj i j hi hj (hOwn.symm.trans hPid.symm)) hNe
  · simp only [update_of_ne hEq]
    exact h.bare i j hi hj hNe hPid

theorem Led.proc (h : s.Led) {e : ProcEvent} {procs : Procs} (hOk : Sched.NoWrap s.procs e)
    (hStep : s.procs.Step e procs) : Led ⟨procs, s.made e⟩ := by
  have hEffect := Procs.effect_of_step hStep
  have hSame : Led ⟨s.procs, s.image⟩ := h
  cases e with
  | spawnUser p parentPid heap =>
    obtain ⟨hLive, rfl⟩ := guard_inv hStep
    unfold made Procs.spawnUser
    cases hSlot : s.procs.allocSlot with
    | none => exact hSame
    | some i => exact h.spawnAt heap fresh (.user hLive) hOk hSlot (.inl rfl)
  | fork p memory heap =>
    obtain ⟨hCaller, rfl⟩ := guard_inv hStep
    obtain ⟨hLive, hUser⟩ := Bool.and_eq_true_iff.mp hCaller
    unfold made Procs.forkCurrent
    cases hSlot : s.procs.allocSlot with
    | none => cases memory <;> simpa [forkCurrent, hSlot] using hSame
    | some i =>
      cases memory with
      | false =>
        have hImage : (s.forkCurrent p false heap).image = s.image := by
          unfold forkCurrent
          dsimp only
          split <;> simp
        simpa [hImage] using hSame
      | true =>
        dsimp only
        rw [forkCurrent_image h.numbered hOk hSlot hLive hUser]
        exact h.spawnAt heap (s.image p) (.fork hLive hUser) hOk hSlot (.inl rfl)
  | spawnThread p heap =>
    obtain ⟨hCaller, rfl⟩ := guard_inv hStep
    obtain ⟨hLive, hUser⟩ := Bool.and_eq_true_iff.mp hCaller
    unfold made spawnThread Procs.spawnThread
    cases hSlot : s.procs.allocSlot with
    | none => exact hSame
    | some i =>
      exact h.spawnAt heap _ (.thread hLive hUser) hOk hSlot (.inr ⟨rfl, fun _ => rfl, rfl⟩)
  | _ => exact h.effect hOk hEffect (by nofun)

theorem Led.step (h : s.Led) {e : ImageEvent φ} (hOk : s.NoWrap e) (hStep : s.Step e s') :
    s'.Led := by
  cases e with
  | proc e =>
    obtain ⟨procs, hNext, rfl⟩ := Option.map_eq_some_iff.mp hStep
    exact h.proc hOk hNext
  | alter p image =>
    obtain ⟨hLive, rfl⟩ := guard_inv hStep
    exact h.alter (Proc.used_of_live hLive) image

theorem shown_eq_iff {a b : Image φ} : shown a = shown b ↔ a.files = b.files ∧ a.brk = b.brk ∧
    a.mmapNext = b.mmapNext ∧ (∀ signo, 0 < signo → signo < kMaxSignals →
      a.sigHandler signo = b.sigHandler signo) ∧ a.sigRestorer = b.sigRestorer := by
  simp only [Image.ext_iff, shown, funext_iff]
  refine and_congr_right fun _ => and_congr_right fun _ => and_congr_right fun _ =>
    and_congr_left fun _ => forall_congr' fun signo => ?_
  by_cases hMasked : signo = 0 ∨ kMaxSignals ≤ signo
  · simp only [hMasked, if_true, true_iff]
    intro hPos hLt
    omega
  · push Not at hMasked
    simp [hMasked.1, Nat.not_le.mpr hMasked.2, Nat.pos_of_ne_zero hMasked.1, hMasked.2]

/-- The process of the thread `p` has no open files and no dispositions, and its memory is where it
was when the thread was made. -/
structure Untouched (s : Images φ) (p : Nat) : Prop where
  files : (s.image (s.procs.groupLeader p)).files = none
  brk : (s.image (s.procs.groupLeader p)).brk = (s.image p).brk
  mmapNext : (s.image (s.procs.groupLeader p)).mmapNext = (s.image p).mmapNext
  sigHandler : ∀ signo, 0 < signo → signo < kMaxSignals →
    (s.image (s.procs.groupLeader p)).sigHandler signo = kSigDefault
  sigRestorer : (s.image (s.procs.groupLeader p)).sigRestorer = 0

/-- A process that opens a file, makes a thread and is forked by it. -/
def openedEvents : List (ImageEvent Nat) :=
  [.proc (.spawnUser 0 1 true), .alter 1 ⟨some 3, 0x10000000, 0x40000000, fun _ => 0, 0⟩,
    .proc (.spawnThread 1 true)]

/-- No process has been made yet. -/
def booted : Images Nat := ⟨Procs.boot, fun _ => fresh⟩

end Images
end LeahOS.Sched
