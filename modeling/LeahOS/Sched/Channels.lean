import LeahOS.Sched.Tasks

/-!
# Wait channels (`kernel/sched/scheduler.cpp`)

`wake` and `wake_n` go by the state and the `wait_channel` of a task. Not every blocking call
sets the channel: `sleep_ticks` and `wait_child` block on nothing. So whoever takes a task out
of `Blocked` has to clear its channel, or the next sleep of the task is on a channel it had left.

`Noted` adds to the scheduler what each task was last told to block on. `NoStale` says that the
channels agree with it, and what follows for `wake_n`. A child that exits, stops or is
continued makes its parent ready whatever the parent is blocked on, and does not clear the
channel. `ParentFree` rules that out.

`signal_send` takes no lock. It finds its target blocked, makes it ready, and then clears the
channel; other processors can step in between. So here these are three steps, and `Undisturbed`
says what may not come between them.
-/

namespace LeahOS.Sched
open Lib Function List Option Bool Tasks

/-- The scheduler, and the channel of the latest blocking call of each task, `0` for a call that
blocks on none. `seen` are the targets a `signal_send` has found blocked and is about to make ready,
and `late` those it has made ready and whose channel it is about to clear. -/
structure Noted where
  sched : Tasks
  latest : Nat → Nat
  seen : List Nat
  late : List Nat

/-- The steps of the scheduler, and the two stores of `signal_send` to a target it found blocked. -/
inductive NotedEvent
  | task (e : TaskEvent)
  | ready (i : Nat)
  | clear (i : Nat)

/-- The task a `signal_send` finds blocked. -/
def Tasks.sees (s : Tasks) : TaskEvent → Option Nat
  | .signal pid _ => (s.find pid).filter fun i => (s.tasks i).isUser && (s.tasks i).state == .blocked
  | _ => none

namespace Noted

/-- What a step notes. -/
def note (w : Noted) : TaskEvent → Nat → Nat
  | .block c channel _ => update w.latest (w.sched.current c) (channel.getD 0)
  | _ => w.latest

def next (w : Noted) : NotedEvent → Option Noted
  | .task e =>
    match w.sched.sees e with
    | some i => if w.sched.panicked then none else some { w with seen := i :: w.seen }
    | none => (w.sched.next e).map fun s => { w with sched := s, latest := w.note e }
  | .ready i =>
    if i ∈ w.seen then
      some { w with
        sched := w.sched.setTask i { w.sched.tasks i with state := .ready }
        seen := w.seen.erase i
        late := i :: w.late }
    else none
  | .clear i =>
    if i ∈ w.late then
      some { w with
        sched := w.sched.setTask i { w.sched.tasks i with waitChannel := 0 }
        late := w.late.erase i }
    else none

def Step (w : Noted) (e : NotedEvent) (w' : Noted) : Prop := w.next e = some w'

/-- `scheduler::init`. -/
def init : Noted := ⟨Tasks.init, fun _ => 0, [], []⟩

/-- The tasks that are blocked by their latest blocking call on the channel. -/
def waiting (w : Noted) (channel : Nat) : List Nat :=
  (List.range w.sched.count).filter fun i =>
    (w.sched.tasks i).state == .blocked && w.latest i == channel

/-- A channel that is set is the one of the call the task is blocked by, or the task is awake and
the channel is about to be cleared; and `wake_n` wakes as many as it may of the tasks that wait on
the channel, and nobody else. -/
structure NoStale (w : Noted) : Prop where
  exact : ∀ i, (w.sched.tasks i).waitChannel ≠ 0 →
    ((w.sched.tasks i).state = .blocked ∧ w.latest i = (w.sched.tasks i).waitChannel) ∨
      (i ∈ w.late ∧ (w.sched.tasks i).state ≠ .blocked)
  woken : ∀ channel limit, ∃ woken : List Nat, woken.Nodup ∧ woken ⊆ w.waiting channel ∧
    woken.length = min limit (w.waiting channel).length ∧
    ∀ i, (w.sched.wakeAll channel limit).tasks i =
      if i ∈ woken then wakeTask (w.sched.tasks i) else w.sched.tasks i

end Noted

/-- The task with this pid is not blocked on a channel. -/
def ParentFree (s : Tasks) (pid : Nat) : Prop :=
  ∀ i < s.count, (s.tasks i).pid = pid → (s.tasks i).state = .blocked → (s.tasks i).waitChannel = 0

instance (s : Tasks) (pid : Nat) : Decidable (ParentFree s pid) :=
  inferInstanceAs (Decidable (∀ i < s.count, _))

/-- A task exits, stops or is continued only while its parent is not blocked on a channel, no task
blocks whose channel is about to be cleared, and the processors behave. -/
def Calm (w : Noted) (e : TaskEvent) : Prop :=
  Flagged w.sched e ∧
    match e with
    | .stop c | .exit c => ParentFree w.sched (w.sched.tasks (w.sched.current c)).parentPid
    | .signal pid .cont => ∀ i < w.sched.count, (w.sched.tasks i).pid = pid →
        (w.sched.tasks i).state = .stopped → ParentFree w.sched (w.sched.tasks i).parentPid
    | .block c _ _ => w.sched.current c ∉ w.late
    | .clearWait c => w.sched.entered c = true
    | _ => True

instance (w : Noted) (e : TaskEvent) : Decidable (Calm w e) := by
  induction e using TaskEvent.casesOn with
  | signal _ sig => induction sig using Signal.casesOn <;> unfold Calm <;> infer_instance
  | _ => unfold Calm; infer_instance

/-- Steps are calm, and the target of a signal is still blocked when it is made ready. -/
def Undisturbed (w : Noted) : NotedEvent → Prop
  | .task e => Calm w e
  | .ready i => (w.sched.tasks i).state = .blocked
  | .clear _ => True

instance (w : Noted) (e : NotedEvent) : Decidable (Undisturbed w e) := by
  induction e using NotedEvent.casesOn <;> unfold Undisturbed <;> infer_instance

/-! ## Tasks whose channel is that of their latest call -/

/-- Only a blocked task has a channel, and it has the one it was told; except that one whose channel
is about to be cleared is awake. -/
structure Honest (latest : Nat) (late : Prop) (t : Task) : Prop where
  blocked : t.waitChannel ≠ 0 → t.state = .blocked ∨ late
  told : t.state = .blocked → t.waitChannel = latest
  awake : late → t.state ≠ .blocked

variable {latest : Nat} {late : Prop} {t t' : Task}

/-- A task that is not blocked has no channel, unless it is to be cleared. -/
theorem Honest.channel_eq (h : Honest latest late t) (hState : t.state ≠ .blocked)
    (hLate : ¬ late) : t.waitChannel = 0 := by
  by_contra hSet
  exact (h.blocked hSet).elim hState hLate

/-- A task that is not blocked and does not become so keeps its channel. -/
theorem Honest.keep {latest' : Nat} (h : Honest latest late t) (hWas : t.state ≠ .blocked)
    (hState : t'.state ≠ .blocked) (hChannel : t'.waitChannel = t.waitChannel) :
    Honest latest' late t' :=
  ⟨fun hSet => .inr ((h.blocked (hChannel ▸ hSet)).resolve_left hWas),
    fun hBlocked => absurd hBlocked hState, fun _ => hState⟩

/-- A task keeps its state, or it was asleep and is ready. It has no channel any more, or it is
blocked as it was. -/
structure Roused (t t' : Task) : Prop where
  state : t'.state = t.state ∨ ((t.state = .blocked ∨ t.state = .stopped) ∧ t'.state = .ready)
  channel : (t'.state ≠ .blocked ∧ t'.waitChannel = 0) ∨
    ((t.state = .blocked → t'.state = .blocked) ∧ t'.waitChannel = t.waitChannel)

theorem Roused.refl (t : Task) : Roused t t := ⟨.inl rfl, .inr ⟨id, rfl⟩⟩

/-- Nobody falls asleep. -/
theorem Roused.blocked (h : Roused t t') (hBlocked : t'.state = .blocked) : t.state = .blocked := by
  rcases h.state with hSame | ⟨-, hReady⟩
  · exact hSame ▸ hBlocked
  · simp [hReady] at hBlocked

theorem Honest.roused (h : Honest latest late t) (hRoused : Roused t t') :
    Honest latest late t' := by
  refine ⟨fun hSet => ?_, fun hBlocked => ?_, fun hLate => mt hRoused.blocked (h.awake hLate)⟩
  · rcases hRoused.channel with ⟨-, hZero⟩ | ⟨hStill, hSame⟩
    · exact absurd hZero hSet
    · exact (h.blocked (hSame ▸ hSet)).imp_left hStill
  · rcases hRoused.channel with ⟨hNot, -⟩ | ⟨-, hSame⟩
    · exact absurd hBlocked hNot
    · exact hSame.trans (h.told (hRoused.blocked hBlocked))

theorem roused_rouse (hFree : t.state = .blocked → t.waitChannel = 0) :
    Roused t (Tasks.rouse t) := by
  unfold Tasks.rouse
  split
  next hBlocked => exact ⟨.inr ⟨.inl hBlocked, rfl⟩, .inl ⟨by simp, hFree hBlocked⟩⟩
  · exact .refl t

theorem roused_signalTask (signo : Signal) (t : Task) : Roused t (signalTask signo t) := by
  unfold signalTask
  split
  next hBlocked => exact ⟨.inr ⟨.inl hBlocked, rfl⟩, .inl ⟨by simp [wakeTask], rfl⟩⟩
  next hNot =>
    split
    next hStopped => exact ⟨.inr ⟨.inr hStopped.2, rfl⟩, .inr ⟨fun h => absurd h hNot, rfl⟩⟩
    · exact .refl t

/-- All tasks are honest, and idle tasks do not block. -/
structure Quiet (s : Tasks) (latest : Nat → Nat) (late : List Nat) : Prop where
  honest : ∀ i, Honest (latest i) (i ∈ late) (s.tasks i)
  idles : ∀ c i, s.idle c = some i → (s.tasks i).state ≠ .blocked

/-- The task the processor is on is running. -/
def Runs (s : Tasks) (c : Nat) : Prop :=
  s.entered c = true → (s.tasks (s.current c)).state = .running

section Steps
variable {s s' : Tasks} {latest : Nat → Nat} {late : List Nat} {f : Nat → Task} {c i pid : Nat}
  {t : Task}

/-- One task changes, and is told something else. -/
theorem Quiet.setTask (h : Quiet s latest late) {told : Nat} (ht : Honest told (i ∈ late) t)
    (hIdle : ∀ d, s.idle d = some i → t.state ≠ .blocked) :
    Quiet (s.setTask i t) (update latest i told) late := by
  refine ⟨fun j => ?_, fun d j hSome => ?_⟩ <;> by_cases hEq : j = i
  · subst hEq
    simpa [Tasks.setTask] using ht
  · simpa [Tasks.setTask, hEq] using h.honest j
  · subst hEq
    simpa [Tasks.setTask] using hIdle d hSome
  · simpa [Tasks.setTask, hEq] using h.idles d j hSome

theorem Quiet.keep (h : Quiet s latest late) (ht : Honest (latest i) (i ∈ late) t)
    (hIdle : ∀ d, s.idle d = some i → t.state ≠ .blocked) : Quiet (s.setTask i t) latest late := by
  simpa using h.setTask ht hIdle

/-- Some tasks are roused, and nothing else happens. -/
theorem Quiet.roused (h : Quiet s latest late) (hf : ∀ i, Roused (s.tasks i) (f i)) :
    Quiet { s with tasks := f } latest late := by
  refine ⟨fun i => (h.honest i).roused (hf i), fun c i hIdle => ?_⟩
  exact mt (hf i).blocked (h.idles c i hIdle)

theorem Runs.roused (h : Runs s c) (hf : ∀ i, Roused (s.tasks i) (f i)) :
    Runs { s with tasks := f } c := by
  intro hIn
  have hRunning := h hIn
  rcases (hf (s.current c)).state with hState | ⟨hAsleep, -⟩
  · exact hState.trans hRunning
  · simp [hRunning] at hAsleep

theorem roused_setTask (h : Roused (s.tasks i) t) (j : Nat) :
    Roused (s.tasks j) (update s.tasks i t j) := by
  by_cases hEq : j = i
  · subst hEq
    simpa using h
  · simpa [hEq] using Roused.refl (s.tasks j)

/-- What a sleeping parent hears makes it ready, and only a sleeping one. -/
theorem rouseParent_roused (hFree : ParentFree s pid) :
    ∃ f, s.rouseParent pid = { s with tasks := f } ∧ (∀ i, Roused (s.tasks i) (f i)) ∧
      ∀ i, (s.tasks i).state ≠ .blocked → f i = s.tasks i := by
  unfold Tasks.rouseParent
  split
  · exact ⟨s.tasks, rfl, fun i => .refl _, fun i _ => rfl⟩
  next i hFind =>
    obtain ⟨hMem, hPid⟩ := And.intro (mem_of_find?_eq_some hFind) (List.find?_some hFind)
    simp only [and_eq_true, beq_iff_eq] at hPid
    refine ⟨_, rfl, roused_setTask (roused_rouse (hFree i (mem_range.mp hMem) hPid.1)), ?_⟩
    intro j hNot
    by_cases hEq : j = i
    · subst hEq
      simp [Tasks.rouse, hNot]
    · simp [hEq]

/-! ## Rescheduling -/

/-- The task a processor goes to was not blocked, so it has no channel. -/
theorem Quiet.pickNext (h : Quiet s latest late) {n : Nat} (hPick : s.pickNext c = some n)
    (hNe : n ≠ s.current c) : (s.tasks n).state ≠ .blocked := by
  rcases pickNext_cases hPick with hFree | hCur | hIdle
  · simp only [pickable, and_eq_true, beq_iff_eq] at hFree
    simp [hFree.1.2]
  · exact absurd hCur hNe
  · exact h.idles c n hIdle

theorem Quiet.reschedule (h : Quiet s latest late) (hNext : s.reschedule c = some s') :
    Quiet s' latest late := by
  obtain ⟨n, hPick, rfl⟩ := map_eq_some_iff.mp hNext
  by_cases hEq : n = s.current c
  · simpa [Tasks.switchTo, hEq] using h
  have hAwake := h.pickNext hPick hEq
  by_cases hCpu : (s.tasks n).onCpu = true
  · simp only [Tasks.switchTo, if_neg hEq, hCpu, if_true]
    exact ⟨h.honest, h.idles⟩
  rw [switchTo_of_ne hEq (by simpa using hCpu)]
  have hIn := h.keep (i := n) (t := { s.tasks n with state := .running, onCpu := true })
    ((h.honest n).keep hAwake (by simp) rfl) (by simp)
  have hOut := hIn.keep (i := s.current c)
    (t := { s.tasks (s.current c) with bklDepth := s.bkl.depth c })
    { h.honest (s.current c) with } fun d => h.idles d _
  exact { hOut with }

/-- The task a processor is to leave: it runs, or it is neither running nor ready and not an idle
task. -/
def Leaves (s : Tasks) (c : Nat) : Prop :=
  (s.tasks (s.current c)).state = .running ∨
    ((s.tasks (s.current c)).state ≠ .running ∧ (s.tasks (s.current c)).state ≠ .ready ∧
      s.isIdleTask (s.current c) = false)

/-- Only a task that runs is picked again. -/
theorem Leaves.running (h : Leaves s c) (hSlots : ∀ i, s.idle c = some i → c < kMaxCpuSlots)
    (hPick : s.pickNext c = some (s.current c)) : (s.tasks (s.current c)).state = .running := by
  rcases h with hRunning | ⟨hNot, hReady, hIdle⟩
  · exact hRunning
  · exfalso
    unfold Tasks.pickNext at hPick
    split at hPick
    next i hFind =>
      obtain rfl := some.inj hPick
      have hPickable := List.find?_some hFind
      simp [pickable, hReady] at hPickable
    · simp only [hIdle, beq_eq_false_iff_ne.mpr hNot, beq_eq_false_iff_ne.mpr hReady] at hPick
      rw [isIdleTask_iff.mpr ⟨c, hSlots _ hPick, hPick⟩] at hIdle
      cases hIdle

theorem runs_reschedule (hInv : s.Inv) (hIn : s.entered c = true) (hSettled : s.settled c = true)
    (hLeaves : Leaves s c) (hOthers : ∀ d ≠ c, Runs s d) (hNext : s.reschedule c = some s')
    (d : Nat) : Runs s' d := by
  obtain ⟨n, hPick, rfl⟩ := map_eq_some_iff.mp hNext
  by_cases hEq : n = s.current c
  · subst hEq
    have hRunning := hLeaves.running (fun i hIdle => hInv.slots hIdle) hPick
    have hSame : s.switchTo c (s.current c) = s := by simp [Tasks.switchTo]
    rw [hSame]
    by_cases hd : d = c
    · exact fun _ => hd ▸ hRunning
    · exact hOthers d hd
  obtain ⟨hFree, -⟩ := hInv.pickNext_free hSettled hPick hEq
  have hOff : (s.tasks n).onCpu = false := by
    rw [eq_false_iff]
    intro hCpu
    obtain ⟨e, hOn⟩ := hInv.flag n hCpu
    exact hFree e hOn
  rw [switchTo_of_ne hEq hOff]
  intro hEntered
  by_cases hd : d = c
  · subst hd
    simp [update_of_ne hEq]
  · -- the other processors are on other tasks
    have hOnD : s.On d (s.current d) := ⟨hEntered, .inl rfl⟩
    have hNotN : s.current d ≠ n := fun hSame => hFree d (hSame ▸ hOnD)
    have hNotCur : s.current d ≠ s.current c := fun hSame =>
      hd (hInv.apart hOnD ⟨hIn, .inl hSame.symm⟩)
    simpa [update_of_ne hd, update_of_ne hNotN, update_of_ne hNotCur] using
      hOthers d hd hEntered

/-! ## The steps -/

/-- The current task is told to do something else than to run. -/
theorem Quiet.mark (h : Quiet s latest late) (hInv : s.Inv) {told : Nat}
    (hIdle : s.isIdleTask (s.current c) = false) (ht : Honest told (s.current c ∈ late) t) :
    Quiet (s.mark c t) (update latest (s.current c) told) late := by
  refine h.setTask ht fun d hSome => ?_
  rw [isIdleTask_iff.mpr ⟨d, hInv.slots hSome, hSome⟩] at hIdle
  cases hIdle

theorem runs_mark (hInv : s.Inv) (hIn : s.entered c = true) (hRuns : ∀ d, Runs s d) (t : Task)
    (d : Nat) (hd : d ≠ c) : Runs (s.mark c t) d := by
  intro hEntered
  have hNe : s.current d ≠ s.current c := fun hSame =>
    hd (hInv.apart ⟨hEntered, .inl rfl⟩ ⟨hIn, .inl hSame.symm⟩)
  simpa [Tasks.mark, Tasks.setTask, update_of_ne hNe] using hRuns d hEntered

/-- The invariant: processors behave, tasks are honest, and what a processor is on runs. -/
structure Sound (s : Tasks) (latest : Nat → Nat) (late : List Nat) : Prop where
  inv : s.Inv
  quiet : Quiet s latest late
  runs : ∀ c, Runs s c

theorem Sound.current_awake (h : Sound s latest late) (hIn : s.entered c = true) :
    (s.tasks (s.current c)).state ≠ .blocked := by
  simp [h.runs c hIn]

/-- A task that blocks leaves its processor, with the channel it was told. -/
theorem Sound.block (h : Sound s latest late) (hIn : s.entered c = true) (hSettled : s.settled c = true)
    (hIdle : s.isIdleTask (s.current c) = false) (hCpu : (s.tasks (s.current c)).onCpu = true)
    (hLate : s.current c ∉ late) {channel wakeTick : Option Nat}
    (hNext : s.block c channel wakeTick = some s') :
    Sound s' (update latest (s.current c) (channel.getD 0)) late := by
  refine ⟨h.inv.block hIn hSettled hIdle hCpu hNext, ?_, ?_⟩
  · refine Quiet.reschedule (h.quiet.mark h.inv hIdle
      ⟨fun _ => .inl rfl, fun _ => ?_, fun hNow => absurd hNow hLate⟩) hNext
    simp only [(h.quiet.honest _).channel_eq (h.current_awake hIn) hLate]
  · refine runs_reschedule ?_ ?_ ?_ ?_ (runs_mark h.inv hIn h.runs _) hNext
    · exact h.inv.mark rfl (by simp) hIdle (.inl hCpu)
    · exact hIn
    · exact hSettled
    · exact .inr ⟨by simp [Tasks.mark, Tasks.setTask], by simp [Tasks.mark, Tasks.setTask], hIdle⟩

/-- A task that stops or exits tells its parent, which waits on no channel, and leaves. -/
theorem Sound.leave (h : Sound s latest late) (hIn : s.entered c = true) (hSettled : s.settled c = true)
    (hIdle : s.isIdleTask (s.current c) = false)
    (hChannel : t.waitChannel = (s.tasks (s.current c)).waitChannel)
    (hState : t.state = .stopped ∨ t.state = .zombie ∨ t.state = .dead) (hMark : (s.mark c t).Inv)
    (hFree : ParentFree s pid) (hNext : ((s.mark c t).rouseParent pid).reschedule c = some s') :
    Sound s' latest late := by
  have hNot : t.state ≠ .blocked ∧ t.state ≠ .running ∧ t.state ≠ .ready := by
    rcases hState with hState | hState | hState <;> simp [hState]
  have hHonest : Honest (latest (s.current c)) (s.current c ∈ late) t :=
    (h.quiet.honest _).keep (h.current_awake hIn) hNot.1 hChannel
  have hQuiet : Quiet (s.mark c t) latest late := by
    simpa using h.quiet.mark h.inv hIdle hHonest
  -- the parent is the same task as before, and still not on a channel
  have hFree' : ParentFree (s.mark c t) pid := by
    intro i hi hPid' hBlocked
    by_cases hEq : i = s.current c
    · subst hEq
      simp [Tasks.mark, Tasks.setTask, hNot.1] at hBlocked
    · simp only [Tasks.mark, Tasks.setTask, update_of_ne hEq] at hPid' hBlocked ⊢
      exact hFree i hi hPid' hBlocked
  obtain ⟨f, hRouse, hf, hSame⟩ := rouseParent_roused hFree'
  refine ⟨hMark.leave hIn hSettled hNext, ?_, ?_⟩
  · refine Quiet.reschedule ?_ hNext
    rw [hRouse]
    exact hQuiet.roused hf
  · rw [hRouse] at hNext
    have hInv' : ({ s.mark c t with tasks := f } : Tasks).Inv := hRouse ▸ hMark.rouseParent pid
    refine runs_reschedule hInv' hIn hSettled (.inr ?_)
      (fun d hd => (runs_mark h.inv hIn h.runs t d hd).roused hf) hNext
    have hSelf : (s.mark c t).tasks (s.current c) = t := by simp [Tasks.mark, Tasks.setTask]
    have hStays : f ((s.mark c t).current c) = t := by
      change f (s.current c) = t
      rw [hSame _ (by rw [hSelf]; exact hNot.1), hSelf]
    exact ⟨by simpa [hStays] using hNot.2.1, by simpa [hStays] using hNot.2.2, hIdle⟩

/-- Tasks that are roused are honest. -/
theorem Sound.roused (h : Sound s latest late) (hf : ∀ i, Roused (s.tasks i) (f i))
    (hInv : ({ s with tasks := f } : Tasks).Inv) : Sound { s with tasks := f } latest late :=
  ⟨hInv, h.quiet.roused hf, fun c => (h.runs c).roused hf⟩

theorem Sound.wakeAll (h : Sound s latest late) (channel limit : Nat) :
    Sound (s.wakeAll channel limit) latest late := by
  refine h.roused (fun i => ?_) (h.inv.wakeAll channel limit)
  split
  next hMem =>
    have hWaits := (mem_filter.mp (mem_of_mem_take hMem)).2
    simp only [Tasks.waitsOn, and_eq_true, beq_iff_eq] at hWaits
    exact ⟨.inr ⟨.inl hWaits.1, rfl⟩, .inl ⟨by simp [wakeTask], rfl⟩⟩
  · exact .refl _

theorem Sound.onTick (h : Sound s latest late) (now : Nat) : Sound (s.onTick now) latest late := by
  refine h.roused (fun i => ?_) (h.inv.onTick now)
  simp only
  split
  next hDue => exact ⟨.inr ⟨.inl hDue.2.1, rfl⟩, .inl ⟨by simp, rfl⟩⟩
  · exact .refl _

/-- A signal clears the channel of its target; the parent of a task that is continued waits on
no channel. -/
theorem Sound.signalSend (h : Sound s latest late) {signo : Signal}
    (hFree : signo = .cont → ∀ i < s.count, (s.tasks i).pid = pid → (s.tasks i).state = .stopped →
      ParentFree s (s.tasks i).parentPid) (hNext : s.signalSend pid signo = some s') :
    Sound s' latest late := by
  have hInv := h.inv.signalSend hNext
  unfold Tasks.signalSend at hNext
  split at hNext
  · cases hNext
  next i hFind =>
  simp only at hNext
  split at hNext
  · cases hNext
  obtain rfl := some.inj hNext
  have hTarget : Sound (s.setTask i (signalTask signo (s.tasks i))) latest late :=
    h.roused (roused_setTask (roused_signalTask signo (s.tasks i)))
      (h.inv.woken (woken_signalTask signo (s.tasks i)))
  split at hInv
  next hCont =>
    rw [if_pos hCont]
    obtain ⟨hMem, hPid⟩ := And.intro (mem_of_find?_eq_some hFind) (List.find?_some hFind)
    simp only [and_eq_true, beq_iff_eq] at hPid
    have hOld := hFree hCont.1 i (mem_range.mp hMem) hPid.1 hCont.2
    -- the target itself is not blocked any more
    have hNew : ParentFree (s.setTask i (signalTask signo (s.tasks i)))
        (s.tasks i).parentPid := by
      intro j hj hParent hBlocked
      by_cases hEq : j = i
      · subst hEq
        simp [Tasks.setTask, signalTask, hCont.1, hCont.2] at hBlocked
      · simp only [Tasks.setTask, update_of_ne hEq] at hParent hBlocked ⊢
        exact hOld j hj hParent hBlocked
    obtain ⟨f, hRouse, hf, -⟩ := rouseParent_roused hNew
    rw [hRouse] at hInv ⊢
    exact hTarget.roused hf hInv
  next hCont =>
    rw [if_neg hCont]
    exact hTarget

/-- A task that no processor is on and that is not blocked takes another state. -/
theorem Sound.setOther (h : Sound s latest late) (hInv : (s.setTask i t).Inv)
    (hChannel : t.waitChannel = (s.tasks i).waitChannel)
    (hWas : (s.tasks i).state ≠ .blocked ∧ (s.tasks i).state ≠ .running)
    (hState : t.state ≠ .blocked) : Sound (s.setTask i t) latest late := by
  refine ⟨hInv, h.quiet.keep ((h.quiet.honest i).keep hWas.1 hState hChannel) fun _ _ => hState,
    fun c hIn => ?_⟩
  have hRunning := h.runs c hIn
  have hNe : s.current c ≠ i := fun hEq => hWas.2 (hEq ▸ hRunning)
  simpa [Tasks.setTask, update_of_ne hNe] using hRunning

/-- A new task has the channel its slot had. -/
theorem Sound.spawnAt (h : Sound s latest late) (hSlot : s.allocSlot = some i) (c : Nat)
    (isUser heap : Bool) : Sound (s.spawnAt c i isUser heap) latest late := by
  have hUnused := allocSlot_unused hSlot
  have hInv := h.inv.spawnAt hSlot c isUser heap
  unfold Tasks.spawnAt at hInv ⊢
  simp only at hInv ⊢
  split
  · have hSet : Sound (s.setTask i (s.newTask c i isUser)) latest late := by
      refine h.setOther ?_ rfl (by simp [hUnused]) (by simp [Tasks.newTask])
      exact h.inv.setFree rfl (fun d hOn => (h.inv.fits i).used d hOn hUnused)
        (fun d hSome => ((h.inv.fits i).idles d hSome).1 hUnused)
    rw [if_pos ‹heap = true›] at hInv
    exact ⟨hInv, { hSet.quiet with }, hSet.runs⟩
  · rw [if_neg ‹¬ heap = true›] at hInv
    exact ⟨hInv, { h.quiet with }, h.runs⟩

theorem Sound.startIdleFor (h : Sound s latest late) {slot : Nat}
    (hNext : s.startIdleFor c slot = some s') : Sound s' latest late := by
  have hInv := h.inv.startIdleFor hNext
  unfold Tasks.startIdleFor at hNext
  split at hNext
  · cases hNext
  obtain ⟨i, hAlloc, rfl⟩ := map_eq_some_iff.mp hNext
  have hSpawn := h.spawnAt hAlloc c false true
  refine ⟨hInv, ⟨hSpawn.quiet.honest, fun d j hSome => ?_⟩, hSpawn.runs⟩
  by_cases hd : d = slot
  · subst hd
    simp only [update_self, Option.some.injEq] at hSome
    subst hSome
    simp [Tasks.spawnAt, Tasks.setTask, Tasks.newTask]
  · simp only [update_of_ne hd] at hSome
    exact hSpawn.quiet.idles d j hSome

theorem Sound.adopt (h : Sound s latest late) (hNext : s.adopt c = some s') :
    Sound s' latest late := by
  have hInv := h.inv.adopt hNext
  unfold Tasks.adopt at hNext
  split at hNext
  · cases hNext
  obtain ⟨n, hIdle, rfl⟩ := map_eq_some_iff.mp hNext
  have hQuiet := h.quiet.keep (i := n) (t := { s.tasks n with state := .running })
    ((h.quiet.honest n).keep (h.quiet.idles c n hIdle) (by simp) rfl) (by simp)
  refine ⟨hInv, { hQuiet with }, fun d hIn => ?_⟩
  by_cases hd : d = c
  · subst hd
    simp [Tasks.setTask]
  · simp only [update_of_ne hd] at hIn ⊢
    by_cases hEq : s.current d = n
    · simp [Tasks.setTask, hEq]
    · simpa [Tasks.setTask, update_of_ne hEq] using h.runs d hIn

/-- The displaced task is no processor's any more. -/
theorem Sound.finishSwitch (h : Sound s latest late) (hNext : s.finishSwitch c = some s') :
    Sound s' latest late := by
  have hInv := h.inv.finishSwitch hNext
  obtain ⟨n, hPrev, rfl⟩ := finishSwitch_eq hNext
  have hQuiet : Quiet (s.setTask n (displaced (s.tasks n))) latest late := by
    have hHonest := h.quiet.honest n
    refine h.quiet.keep ?_ fun d hSome => ?_ <;> unfold displaced <;> split
    next hRunning => exact hHonest.keep (by simp [hRunning]) (by simp) rfl
    · exact { hHonest with }
    · simp
    · exact h.quiet.idles d n hSome
  refine ⟨hInv, { hQuiet with }, fun d hIn => ?_⟩
  have hNe : s.current d ≠ n := by
    intro hEq
    have hSame : d = c := h.inv.apart ⟨hIn, .inl hEq⟩ ⟨h.inv.past hPrev, .inr hPrev⟩
    subst hSame
    exact h.inv.fresh hPrev hEq
  simpa [update_of_ne hNe] using h.runs d hIn

theorem Sound.reap (h : Sound s latest late) (hNext : s.reap c i = some s') :
    Sound s' latest late := by
  have hInv := h.inv.reap hNext
  obtain ⟨⟨-, hZombie, -⟩, rfl⟩ := guard_inv hNext
  exact h.setOther hInv rfl (by simp [hZombie]) (by simp)

theorem sound_init : Sound Tasks.init (fun _ => 0) [] where
  inv := Tasks.inv_init
  quiet := by
    refine ⟨fun i => ⟨fun hSet => absurd rfl hSet, fun _ => rfl, fun hLate => ?_⟩, fun c i hIdle => ?_⟩
    · cases hLate
    · cases hIdle
  runs c _ := rfl

theorem Sound.clearWait (h : Sound s latest late) (hIn : s.entered c = true) :
    Sound (s.clearWait c) latest late :=
  h.roused (roused_setTask ⟨.inl rfl, .inl ⟨h.current_awake hIn, rfl⟩⟩)
    (h.inv.woken ⟨rfl, rfl, .inl rfl⟩)

/-- A target of a signal that is still blocked is made ready, and its channel is to be cleared. -/
theorem Sound.ready (h : Sound s latest late) (hBlocked : (s.tasks i).state = .blocked) :
    Sound (s.setTask i { s.tasks i with state := .ready }) latest (i :: late) := by
  refine ⟨h.inv.woken ⟨rfl, rfl, .inr ⟨.inl hBlocked, rfl⟩⟩, ⟨fun j => ?_, fun c j hIdle => ?_⟩,
    fun c hIn => ?_⟩
  · by_cases hEq : j = i
    · subst hEq
      exact ⟨fun _ => .inr mem_cons_self, fun hNow => by simp [Tasks.setTask] at hNow,
        fun _ => by simp [Tasks.setTask]⟩
    · simpa [Tasks.setTask, hEq] using h.quiet.honest j
  · by_cases hEq : j = i
    · simp [Tasks.setTask, hEq]
    · simpa [Tasks.setTask, hEq] using h.quiet.idles c j hIdle
  · have hRunning := h.runs c hIn
    have hNe : s.current c ≠ i := fun hEq => by simp [← hEq, hRunning] at hBlocked
    simpa [Tasks.setTask, update_of_ne hNe] using hRunning

/-- The channel of a task that has been made ready is cleared. -/
theorem Sound.clear (h : Sound s latest late) (hLate : i ∈ late) :
    Sound (s.setTask i { s.tasks i with waitChannel := 0 }) latest (late.erase i) := by
  have hAwake := (h.quiet.honest i).awake hLate
  have hCleared : Sound (s.setTask i { s.tasks i with waitChannel := 0 }) latest late :=
    h.roused (roused_setTask ⟨.inl rfl, .inl ⟨hAwake, rfl⟩⟩) (h.inv.woken ⟨rfl, rfl, .inl rfl⟩)
  refine ⟨hCleared.inv, ⟨fun j => ?_, hCleared.quiet.idles⟩, hCleared.runs⟩
  by_cases hEq : j = i
  · subst hEq
    exact ⟨fun hSet => by simp [Tasks.setTask] at hSet,
      fun hNow => absurd hNow (by simpa [Tasks.setTask] using hAwake),
      fun _ => by simpa [Tasks.setTask] using hAwake⟩
  · have hHonest := hCleared.quiet.honest j
    rwa [← List.mem_erase_of_ne hEq] at hHonest

/-- A step keeps the invariant, with what it notes. -/
theorem Sound.calm {w : Noted} {e : TaskEvent} (h : Sound w.sched w.latest w.late) (hOk : Calm w e)
    (hNext : w.sched.Step e s') : Sound s' (w.note e) w.late := by
  obtain ⟨hFlagged, hOk⟩ := hOk
  have hNext' := hNext
  unfold Tasks.Step Tasks.next at hNext
  rw [if_neg (by simp [h.inv.calm])] at hNext
  have hBkl : ∀ b, Sound { w.sched with bkl := b } w.latest w.late := fun b =>
    ⟨h.inv.retask ⟨rfl, rfl, rfl, rfl, rfl, fun _ => rfl, h.inv.fits⟩,
      ⟨h.quiet.honest, h.quiet.idles⟩, h.runs⟩
  cases e with
  | acquire c =>
    simp only at hNext
    split at hNext
    · cases hNext
    · split at hNext
      · obtain rfl := some.inj hNext
        exact hBkl _
      · obtain ⟨-, rfl⟩ := guard_inv hNext
        exact hBkl _
  | release c | releaseAll c =>
    obtain ⟨-, rfl⟩ := guard_inv hNext
    exact hBkl _
  | spawn c isUser heap =>
    obtain ⟨-, hNext⟩ := ite_none_right_eq_some.mp hNext
    obtain ⟨i, hSlot, rfl⟩ := map_eq_some_iff.mp hNext
    exact h.spawnAt hSlot c isUser heap
  | startIdle c slot => exact h.startIdleFor (ite_none_right_eq_some.mp hNext).2
  | adopt c => exact h.adopt (ite_none_right_eq_some.mp hNext).2
  | yield c =>
    obtain ⟨hLocked, hNext⟩ := ite_none_right_eq_some.mp hNext
    exact ⟨h.inv.step hFlagged hNext', h.quiet.reschedule hNext,
      runs_reschedule h.inv hFlagged (and_eq_true_iff.mp hLocked).1
        (.inl (h.runs c hFlagged)) (fun d _ => h.runs d) hNext⟩
  | block c channel wakeTick =>
    obtain ⟨⟨hLocked, hIdle⟩, hNext⟩ := ite_none_right_eq_some.mp hNext
    exact h.block hFlagged.1 (and_eq_true_iff.mp hLocked).1 (by simpa using hIdle) hFlagged.2
      hOk hNext
  | clearWait c =>
    obtain ⟨-, rfl⟩ := guard_inv hNext
    exact h.clearWait hOk
  | stop c =>
    obtain ⟨⟨hLocked, hIdle, hUser⟩, hNext⟩ := ite_none_right_eq_some.mp hNext
    have hNotIdle : w.sched.isIdleTask (w.sched.current c) = false := by simpa using hIdle
    refine h.leave (t := { w.sched.tasks (w.sched.current c) with state := .stopped }) hFlagged
      (and_eq_true_iff.mp hLocked).1 hNotIdle rfl (.inl rfl) ?_ hOk hNext
    exact h.inv.mark_stop hFlagged hNotIdle hUser
  | exit c =>
    obtain ⟨⟨hLocked, hIdle⟩, hNext⟩ := ite_none_right_eq_some.mp hNext
    have hNotIdle : w.sched.isIdleTask (w.sched.current c) = false := by simpa using hIdle
    refine h.leave (t := { w.sched.tasks (w.sched.current c) with
      state := if (w.sched.tasks (w.sched.current c)).isUser then .zombie else .dead }) hFlagged
      (and_eq_true_iff.mp hLocked).1 hNotIdle rfl (.inr ?_)
      (h.inv.mark_exit hFlagged hNotIdle) hOk hNext
    split <;> simp
  | wake c channel | wakeN c channel limit =>
    obtain ⟨-, rfl⟩ := guard_inv hNext
    exact h.wakeAll _ _
  | tick c now =>
    obtain ⟨-, rfl⟩ := guard_inv hNext
    exact h.onTick now
  | signal pid signo =>
    refine h.signalSend ?_ hNext
    rintro rfl
    exact hOk
  | reap c i => exact h.reap (ite_none_right_eq_some.mp hNext).2
  | finish c => exact h.finishSwitch hNext

end Steps

theorem Sound.step {w w' : Noted} {e : NotedEvent} (h : Sound w.sched w.latest w.late)
    (hOk : Undisturbed w e) (hStep : w.Step e w') : Sound w'.sched w'.latest w'.late := by
  unfold Noted.Step Noted.next at hStep
  cases e with
  | task e =>
    simp only at hStep
    split at hStep
    · obtain ⟨-, hSeen⟩ := ite_none_left_eq_some.mp hStep
      obtain rfl := some.inj hSeen
      exact h
    · obtain ⟨s, hNext, rfl⟩ := map_eq_some_iff.mp hStep
      exact h.calm hOk hNext
  | ready i =>
    obtain ⟨-, rfl⟩ := guard_inv hStep
    exact h.ready hOk
  | clear i =>
    obtain ⟨hLate, rfl⟩ := guard_inv hStep
    exact h.clear hLate

/-- The tasks `wake_n` looks for are those that really wait. -/
theorem Sound.noStale {w : Noted} (h : Sound w.sched w.latest w.late) : w.NoStale where
  exact i hSet := by
    have hHonest := h.quiet.honest i
    rcases hHonest.blocked hSet with hBlocked | hLate
    · exact .inl ⟨hBlocked, (hHonest.told hBlocked).symm⟩
    · exact .inr ⟨hLate, hHonest.awake hLate⟩
  woken channel limit := by
    have hWaiting : (List.range w.sched.count).filter
        (fun i => Tasks.waitsOn (w.sched.tasks i) channel) = w.waiting channel := by
      refine filter_congr fun i _ => ?_
      by_cases hBlocked : (w.sched.tasks i).state = .blocked
      · simp [Tasks.waitsOn, hBlocked, (h.quiet.honest i).told hBlocked]
      · simp [Tasks.waitsOn, beq_eq_false_iff_ne.mpr hBlocked]
    refine ⟨(w.waiting channel).take limit, ?_, take_subset _ _, length_take, fun i => ?_⟩
    · exact ((nodup_range.filter _).sublist (take_sublist _ _))
    · unfold Tasks.wakeAll
      rw [hWaiting]

/-- One processor, and a user task (slot 2) with a child (slot 3). -/
def familyEvents : List TaskEvent :=
  [.acquire 0, .startIdle 0 0, .spawn 0 true true, .yield 0, .finish 0, .acquire 0,
    .spawn 0 true true]

/-- The parent blocks on the channel 5 and the child exits, which makes the parent ready. It
runs, and sleeps for a while. -/
def staleEvents : List TaskEvent :=
  familyEvents ++ [.block 0 (some 5) none, .finish 0, .acquire 0, .exit 0, .finish 0, .yield 0,
    .finish 0, .block 0 none (some 100)]

/-- The parent blocks on the channel 5, its child signals it and exits, and the parent, which runs
before its channel is cleared, blocks on the channel 7. -/
def waitedEvents : List NotedEvent :=
  familyEvents.map .task ++ [.task (.block 0 (some 5) none), .task (.finish 0), .task (.acquire 0),
    .task (.signal 3 .other), .ready 2, .task (.exit 0), .task (.finish 0), .task (.yield 0),
    .task (.finish 0), .task (.reap 0 3), .clear 2, .task (.block 0 (some 7) none)]

end LeahOS.Sched
