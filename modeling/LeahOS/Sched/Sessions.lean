import LeahOS.Sched.Processes

/-!
# Process groups stay in their sessions

A process group is a number that tasks carry, and so is a session; nothing else ties the two
together. `set_pgid` lets a task into a group if the group is called after the task, or if
somebody of its session is in the group already; `set_sid` refuses a task whose number is a group
in use. Groups outlive the task they are called after, and that task may leave its group and come
back.

So `NoSpan` needs a companion: whoever is in the group called after a task that is still there is
in the session of that task.

The two functions take no lock. What one of them has tested may have changed on another processor
before it stores, and `set_sid` stores twice. `Unlocked` has these as steps of their own.
-/

namespace LeahOS.Sched
open Lib Function List Option

/-- Two user tasks in one group are in one session, and a task whose session is called after it is
in the group called after it, unless it was moved. -/
structure NoSpan (s : Procs) : Prop where
  same : ∀ i j, (s.tasks i).used = true → (s.tasks j).used = true → (s.tasks i).isUser = true →
    (s.tasks j).isUser = true → (s.tasks i).pgid = (s.tasks j).pgid →
    (s.tasks i).sid = (s.tasks j).sid
  own : ∀ i, (s.tasks i).used = true → (s.tasks i).isUser = true → s.moved i = false →
    (s.tasks i).pid = (s.tasks i).sid → (s.tasks i).pgid = (s.tasks i).pid

namespace Procs

/-- The invariant of the groups. -/
structure Grouped (s : Procs) : Prop where
  numbered : s.Numbered
  kernel : ∀ i, (s.tasks i).used = true → (s.tasks i).isUser = false → (s.tasks i).pgid = 0
  lt : ∀ i, s.Member i → 0 < (s.tasks i).pgid ∧ (s.tasks i).pgid < s.nextPid ∧
    (s.tasks i).sid < s.nextPid
  same : ∀ i j, s.Member i → s.Member j → (s.tasks i).pgid = (s.tasks j).pgid →
    (s.tasks i).sid = (s.tasks j).sid
  led : ∀ i j, s.Member i → s.Member j → (s.tasks j).pgid = (s.tasks i).pid →
    (s.tasks j).sid = (s.tasks i).sid
  own : ∀ i, s.Member i → s.moved i = false → (s.tasks i).pid = (s.tasks i).sid →
    (s.tasks i).pgid = (s.tasks i).pid

variable {s : Procs}

theorem Start.grouped (h : s.Start) : s.Grouped := by
  have hNone : ∀ i, ¬ s.Member i := fun i hi => by simpa [(h.kernel i).1] using hi.2
  exact ⟨h.numbered, fun i _ _ => (h.kernel i).2.1, fun i hi => absurd hi (hNone i),
    fun i _ hi => absurd hi (hNone i), fun i _ hi => absurd hi (hNone i),
    fun i hi => absurd hi (hNone i)⟩

theorem Grouped.noSpan (h : s.Grouped) : NoSpan s :=
  ⟨fun i j hi hj hUser hUser' => h.same i j ⟨hi, hUser⟩ ⟨hj, hUser'⟩,
    fun i hi hUser => h.own i ⟨hi, hUser⟩⟩

/-- Whoever is in a group that somebody in use is in is a user task, if the group has a number. -/
theorem Grouped.member_of_pgid (h : s.Grouped) {j : Nat} (hUsed : (s.tasks j).used = true)
    (hPos : 0 < (s.tasks j).pgid) : s.Member j := by
  refine ⟨hUsed, ?_⟩
  by_contra hKernel
  have hZero := h.kernel j hUsed (by simpa using hKernel)
  omega

section Steps
variable {s s' : Procs}

/-- Steps after which fewer tasks are in use, with the numbers they had. -/
theorem Grouped.of_fewer (h : s.Grouped) (hNumbered : s'.Numbered) (hNext : s'.nextPid = s.nextPid)
    (hMoved : s'.moved = s.moved) (hUsed : ∀ i, (s'.tasks i).used = true → (s.tasks i).used = true)
    (hPid : ∀ i, (s'.tasks i).pid = (s.tasks i).pid)
    (hPgid : ∀ i, (s'.tasks i).pgid = (s.tasks i).pgid)
    (hSid : ∀ i, (s'.tasks i).sid = (s.tasks i).sid)
    (hUser : ∀ i, (s'.tasks i).isUser = (s.tasks i).isUser) : s'.Grouped := by
  have hMember : ∀ i, s'.Member i → s.Member i := fun i hi => ⟨hUsed i hi.1, hUser i ▸ hi.2⟩
  refine ⟨hNumbered, fun i hi hKernel => ?_, fun i hi => ?_, fun i j hi hj => ?_, fun i j hi hj => ?_,
    fun i hi => ?_⟩
  · rw [hPgid]
    exact h.kernel i (hUsed i hi) (hUser i ▸ hKernel)
  · rw [hPgid, hSid, hNext]
    exact h.lt i (hMember i hi)
  · rw [hPgid, hPgid, hSid, hSid]
    exact h.same i j (hMember i hi) (hMember j hj)
  · rw [hPgid, hPid, hSid, hSid]
    exact h.led i j (hMember i hi) (hMember j hj)
  · rw [hMoved, hPid, hSid, hPgid]
    exact h.own i (hMember i hi)

variable {i pgid : Nat} {t : Proc} {e : ProcEvent}

/-- One task changes, keeps its numbers, and is in use only if it was. -/
theorem Grouped.of_setTask (h : s.Grouped) (hNumbered : s'.Numbered)
    (hTasks : s'.tasks = update s.tasks i t) (hNext : s'.nextPid = s.nextPid)
    (hMoved : s'.moved = s.moved) (hUsed : t.used = true → (s.tasks i).used = true)
    (hPid : t.pid = (s.tasks i).pid) (hPgid : t.pgid = (s.tasks i).pgid)
    (hSid : t.sid = (s.tasks i).sid) (hUser : t.isUser = (s.tasks i).isUser) : s'.Grouped := by
  have hKept : ∀ j, (s'.tasks j).pid = (s.tasks j).pid ∧ (s'.tasks j).pgid = (s.tasks j).pgid ∧
      (s'.tasks j).sid = (s.tasks j).sid ∧ (s'.tasks j).isUser = (s.tasks j).isUser ∧
      ((s'.tasks j).used = true → (s.tasks j).used = true) := by
    intro j
    rw [hTasks]
    by_cases hji : j = i
    · subst hji
      simpa using ⟨hPid, hPgid, hSid, hUser, hUsed⟩
    · simp [hji]
  exact h.of_fewer hNumbered hNext hMoved (fun j => (hKept j).2.2.2.2) (fun j => (hKept j).1)
    (fun j => (hKept j).2.1) (fun j => (hKept j).2.2.1) (fun j => (hKept j).2.2.2.1)

theorem Grouped.adjusts (h : s.Grouped) (hAdjusts : Adjusts s s') : s'.Grouped :=
  h.of_fewer (h.numbered.adjusts hAdjusts) hAdjusts.nextPid hAdjusts.moved
    (fun i hi => (hAdjusts.tasks i).used ▸ hi) (fun i => (hAdjusts.tasks i).pid)
    (fun i => (hAdjusts.tasks i).pgid) (fun i => (hAdjusts.tasks i).sid)
    (fun i => (hAdjusts.tasks i).isUser)

/-- One slot is written: a user task is there now, with a group and a session. -/
structure Regroups (s s' : Procs) (i : Nat) (t : Proc) : Prop where
  tasks : s'.tasks = update s.tasks i t
  nextPid : s.nextPid ≤ s'.nextPid
  isUser : t.isUser = true
  moved : ∀ j ≠ i, s'.moved j = s.moved j

theorem Regroups.member (hTask : Regroups s s' i t) {j : Nat} (hji : j ≠ i) (hj : s'.Member j) :
    s.Member j := by
  simpa [Member, hTask.tasks, hji] using hj

/-- It is enough that the task agrees with everybody in its new group and in the group called
after it, and with the task the new group is called after. -/
theorem Grouped.regroup (h : s.Grouped) (hTask : Regroups s s' i t) (hNumbered : s'.Numbered)
    (hPos : 0 < t.pgid ∧ t.pgid < s'.nextPid ∧ t.sid < s'.nextPid)
    (hSame : ∀ j, j ≠ i → s.Member j → (s.tasks j).pgid = t.pgid → (s.tasks j).sid = t.sid)
    (hLed : ∀ j, j ≠ i → s.Member j → (s.tasks j).pgid = t.pid → (s.tasks j).sid = t.sid)
    (hLeader : ∀ j, j ≠ i → s.Member j → t.pgid = (s.tasks j).pid → t.sid = (s.tasks j).sid)
    (hOwn : s'.moved i = false → t.pid = t.sid → t.pgid = t.pid) : s'.Grouped := by
  have hSelf : s'.tasks i = t := by simp [hTask.tasks]
  have hOther : ∀ j, j ≠ i → s'.tasks j = s.tasks j := fun j hj => by simp [hTask.tasks, hj]
  refine ⟨hNumbered, fun j hj hKernel => ?_, fun j hj => ?_, fun j k hj hk hEq => ?_,
    fun j k hj hk hEq => ?_, fun j hj hMoved hPid => ?_⟩
  · by_cases hji : j = i
    · subst hji
      simp [hSelf, hTask.isUser] at hKernel
    · rw [hOther j hji] at hj hKernel ⊢
      exact h.kernel j hj hKernel
  · by_cases hji : j = i
    · subst hji
      rw [hSelf]
      exact hPos
    · rw [hOther j hji]
      have hLt := h.lt j (hTask.member hji hj)
      have hNext := hTask.nextPid
      omega
  · by_cases hji : j = i
    · by_cases hki : k = i
      · rw [hji, hki]
      · subst hji
        rw [hSelf, hOther k hki] at hEq ⊢
        exact (hSame k hki (hTask.member hki hk) hEq.symm).symm
    · by_cases hki : k = i
      · subst hki
        rw [hSelf, hOther j hji] at hEq ⊢
        exact hSame j hji (hTask.member hji hj) hEq
      · rw [hOther j hji, hOther k hki] at hEq ⊢
        exact h.same j k (hTask.member hji hj) (hTask.member hki hk) hEq
  · by_cases hji : j = i
    · by_cases hki : k = i
      · rw [hji, hki]
      · subst hji
        rw [hSelf, hOther k hki] at hEq ⊢
        exact hLed k hki (hTask.member hki hk) hEq
    · by_cases hki : k = i
      · subst hki
        rw [hSelf, hOther j hji] at hEq ⊢
        exact hLeader j hji (hTask.member hji hj) hEq
      · rw [hOther j hji, hOther k hki] at hEq ⊢
        exact h.led j k (hTask.member hji hj) (hTask.member hki hk) hEq
  · by_cases hji : j = i
    · subst hji
      rw [hSelf] at hPid ⊢
      exact hOwn hMoved hPid
    · rw [hOther j hji] at hPid ⊢
      exact h.own j (hTask.member hji hj) (hTask.moved j hji ▸ hMoved) hPid

/-- A new task is in a group of its own, or in that of the task that made it. -/
theorem Grouped.born (h : s.Grouped) {parentPid tgid sid : Nat}
    (hBorn : Born s e parentPid tgid pgid sid) (hOk : NoWrap s e)
    (hUnused : (s.tasks i).state = .unused) :
    (s.spawnAt i true (s.newTask i parentPid tgid pgid sid)).Grouped := by
  obtain ⟨hNext, -⟩ := hBorn.nextPid hOk i (s.newTask i parentPid tgid pgid sid)
  have hPos := h.numbered.nextPid_pos
  -- of its own: nobody carries the new number yet
  have hMaker : (pgid = s.nextPid ∧ sid = s.nextPid) ∨
      ∃ p, s.Member p ∧ pgid = (s.tasks p).pgid ∧ sid = (s.tasks p).sid := by
    cases hBorn with
    | user _ => exact .inl ⟨rfl, rfl⟩
    | fork hLive hUser | thread hLive hUser =>
      exact .inr ⟨_, ⟨Proc.used_of_live hLive, hUser⟩, rfl, rfl⟩
  refine h.regroup (i := i) (t := s.newTask i parentPid tgid pgid sid) ⟨rfl, by omega, rfl, ?_⟩
    (h.numbered.effect hOk (.born i hBorn hUnused)) ?_ ?_ ?_ ?_ ?_
  · intro j hji
    exact update_of_ne hji ..
  · rw [hNext]
    rcases hMaker with ⟨rfl, rfl⟩ | ⟨p, hp, rfl, rfl⟩
    · exact ⟨hPos, Nat.lt_succ_self _, Nat.lt_succ_self _⟩
    · have hLt := h.lt p hp
      exact ⟨hLt.1, by simp only [newTask]; omega, by simp only [newTask]; omega⟩
  · intro j _ hj hEq
    rcases hMaker with ⟨rfl, rfl⟩ | ⟨p, hp, rfl, rfl⟩
    · exact absurd hEq (h.lt j hj).2.1.ne
    · exact h.same j p hj hp hEq
  · intro j _ hj hEq
    exact absurd hEq (h.lt j hj).2.1.ne
  · intro j _ hj hEq
    rcases hMaker with ⟨rfl, rfl⟩ | ⟨p, hp, rfl, rfl⟩
    · exact absurd hEq.symm (h.numbered.pid_lt j hj.1).2.ne
    · exact h.led j p hj hp hEq
  · intro _ hPid
    rcases hMaker with ⟨rfl, rfl⟩ | ⟨p, hp, rfl, rfl⟩
    · rfl
    · exact absurd hPid.symm (h.lt p hp).2.2.ne

/-- A task that `set_pgid` moves agrees with whoever is in its new group. -/
theorem Grouped.moves (h : s.Grouped) (hi : s.Member i) (hPos : pgid = (s.tasks i).pid ∨ 0 < pgid)
    (hGroup : pgid = (s.tasks i).pid ∨ ∃ j, (s.tasks j).used = true ∧ (s.tasks j).pgid = pgid ∧
      (s.tasks j).sid = (s.tasks i).sid) : (s.moveTo i pgid).Grouped := by
  have hPid := h.numbered.pid_lt i hi.1
  -- somebody of the session is in the group, or the group is called after the task
  have hIn : pgid = (s.tasks i).pid ∨
      ∃ j, s.Member j ∧ (s.tasks j).pgid = pgid ∧ (s.tasks j).sid = (s.tasks i).sid := by
    rcases hGroup with hOwn | ⟨j, hUsed, hPgid, hSid⟩
    · exact .inl hOwn
    · by_cases hOwn : pgid = (s.tasks i).pid
      · exact .inl hOwn
      · have hNum : 0 < pgid := hPos.resolve_left hOwn
        exact .inr ⟨j, h.member_of_pgid hUsed (hPgid.symm ▸ hNum), hPgid, hSid⟩
  refine h.regroup (i := i) (t := { s.tasks i with pgid := pgid }) ⟨rfl, Nat.le_refl _, hi.2, ?_⟩
    (h.numbered.of_setTask rfl rfl rfl rfl fun _ => hi.1) ?_ ?_ ?_ ?_ ?_
  · intro j hji
    exact update_of_ne hji ..
  · refine ⟨?_, ?_, (h.lt i hi).2.2⟩
    · rcases hPos with hOwn | hNum
      · exact hOwn.symm ▸ hPid.1
      · exact hNum
    · rcases hIn with hOwn | ⟨j, hj, hPgid, -⟩
      · exact hOwn.symm ▸ hPid.2
      · exact hPgid ▸ (h.lt j hj).2.1
  · intro j _ hj hEq
    rcases hIn with hOwn | ⟨k, hk, hPgid, hSid⟩
    · exact h.led i j hi hj (hEq.trans hOwn)
    · exact (h.same j k hj hk (hEq.trans hPgid.symm)).trans hSid
  · intro j _ hj hEq
    exact h.led i j hi hj hEq
  · intro j hji hj hEq
    rcases hIn with hOwn | ⟨k, hk, hPgid, hSid⟩
    · have hSame : (s.tasks i).pid = (s.tasks j).pid := hOwn.symm.trans hEq
      exact absurd (h.numbered.pid_inj i j hi.1 hj.1 hSame).symm hji
    · exact hSid.symm.trans (h.led j k hj hk (hPgid.trans hEq))
  · intro hMoved
    simp [moveTo] at hMoved

/-- A task gets a session of its own only while nobody is in the group called after it. -/
theorem Grouped.leads (h : s.Grouped) {p : Nat} (hp : s.Member p)
    (hFree : ∀ j < s.count, (s.tasks j).used = true → (s.tasks j).pgid ≠ (s.tasks p).pid) :
    ((s.openSession p).openGroup p).Grouped := by
  have hPid := h.numbered.pid_lt p hp.1
  have hNobody : ∀ j, s.Member j → (s.tasks j).pgid ≠ (s.tasks p).pid := fun j hj =>
    hFree j (h.numbered.slots j hj.1) hj.1
  have hTasks := openGroup_openSession s p
  refine h.regroup ⟨hTasks, Nat.le_refl _, hp.2, ?_⟩
    (h.numbered.of_setTask hTasks rfl rfl rfl fun _ => hp.1) ⟨hPid.1, hPid.2, hPid.2⟩
    (fun j _ hj hEq => absurd hEq (hNobody j hj)) (fun j _ hj hEq => absurd hEq (hNobody j hj)) ?_
    (fun _ _ => rfl)
  · intro j hji
    exact update_of_ne hji ..
  · intro j hji hj hEq
    exact absurd (h.numbered.pid_inj p j hp.1 hj.1 hEq).symm hji

/-- **A step keeps groups in their sessions.** -/
theorem Grouped.step (h : s.Grouped) (hOk : NoWrap s e) (hStep : s.Step e s') :
    s'.Grouped := by
  have hEffect := effect_of_step hStep
  have hNumbered := h.numbered.effect hOk hEffect
  cases hEffect with
  | adjusts hAdjusts => exact h.adjusts hAdjusts
  | born i hBorn hUnused => exact h.born hBorn hOk hUnused
  | @ends p code _ hLive hAdjusts =>
    have hUsed := Proc.used_of_live hLive
    have hEnded : (s.ended p code).Grouped :=
      h.of_setTask (h.numbered.of_setTask rfl rfl rfl rfl fun _ => hUsed) rfl rfl rfl
        (fun _ => hUsed) rfl rfl rfl rfl
    exact hEnded.adjusts hAdjusts
  | reaps i hReap =>
    exact h.of_setTask hNumbered rfl rfl rfl (fun hUsed => by simp [Proc.used] at hUsed)
      rfl rfl rfl rfl
  | moves i pgid hUsed hUser hPos hGroup => exact h.moves ⟨hUsed, hUser⟩ hPos hGroup
  | leads hLive hFree =>
    obtain ⟨hCaller, -⟩ := Option.ite_none_right_eq_some.mp hStep
    exact h.leads ⟨Proc.used_of_live hLive, (Bool.and_eq_true_iff.mp hCaller).2⟩ hFree

end Steps
end Procs

/-! ### Without a lock -/

/-- What a call has tested and has still to store: `set_pgid` the group of a task, `set_sid` the
session of its caller and then the group. -/
inductive Pending
  | move (i pgid : Nat)
  | session
  | group
  deriving DecidableEq

/-- The table, and the calls that are under way, by the slots of their callers. -/
structure Unlocked where
  procs : Procs
  calls : List (Nat × Pending)

/-- A call, which for `set_pgid` and `set_sid` is their tests; and their stores. -/
inductive UnlockedEvent
  | call (e : ProcEvent)
  | store (p : Nat)

/-- The task that has to be running for the step to be made. -/
def ProcEvent.actor : ProcEvent → Option Nat
  | .spawnUser p .. | .fork p .. | .spawnThread p .. | .exit p .. | .wait p .. | .setPgid p ..
  | .setSid p | .stop p .. | .displace p | .block p => some p
  | .cont .. | .dispatch .. | .rouse .. | .kill .. => none

namespace Unlocked

/-- The calls other than those of `p`. -/
def rest (u : Unlocked) (p : Nat) : List (Nat × Pending) := u.calls.filter (·.1 ≠ p)

/-- The call of a task that is not in the middle of another. -/
def call (u : Unlocked) : ProcEvent → Option Unlocked
  | .setPgid p pid pgid =>
    if (u.procs.tasks p).live && (u.procs.tasks p).isUser then
      match u.procs.groupFor p pid pgid with
      | none => some u
      | some (i, pgid) => some { u with calls := (p, .move i pgid) :: u.calls }
    else none
  | .setSid p =>
    if (u.procs.tasks p).live && (u.procs.tasks p).isUser then
      if !u.procs.leads p && u.procs.mayLead p then
        some { u with calls := (p, .session) :: u.calls }
      else some u
    else none
  | e => (u.procs.next e).map fun s => { u with procs := s }

def next (u : Unlocked) : UnlockedEvent → Option Unlocked
  | .call e => if u.calls.any fun c => e.actor == some c.1 then none else u.call e
  | .store p =>
    match u.calls.lookup p with
    | some (.move i pgid) => some ⟨u.procs.moveTo i pgid, u.rest p⟩
    | some .session => some ⟨u.procs.openSession p, (p, .group) :: u.rest p⟩
    | some .group => some ⟨u.procs.openGroup p, u.rest p⟩
    | none => none

def Step (u : Unlocked) (e : UnlockedEvent) (u' : Unlocked) : Prop := u.next e = some u'

/-- No `set_sid` is between its two stores. -/
def Settled (u : Unlocked) : Prop := ∀ c ∈ u.calls, c.2 ≠ .group

instance (u : Unlocked) : Decidable u.Settled := inferInstanceAs (Decidable (∀ _ ∈ _, _))

/-- Process ids do not wrap. -/
def Unwrapped (u : Unlocked) : UnlockedEvent → Prop
  | .call e => NoWrap u.procs e
  | .store _ => True

/-- What a call has tested is still so, and no `set_sid` is between its two stores. -/
def Stands (u : Unlocked) (p : Nat) : Pending → Prop
  | .move i pgid => u.Settled ∧ u.procs.Member i ∧ (pgid = (u.procs.tasks i).pid ∨
      ∃ j < u.procs.count, (u.procs.tasks j).used = true ∧ (u.procs.tasks j).pgid = pgid ∧
        (u.procs.tasks j).sid = (u.procs.tasks i).sid)
  | .session => u.Settled ∧ u.procs.Member p ∧ u.procs.mayLead p = true
  | .group => True

/-- Process ids do not wrap, what a call has tested is still so when it stores, and nothing comes
between the two stores of `set_sid`. -/
def Fresh (u : Unlocked) : UnlockedEvent → Prop
  | .call e => NoWrap u.procs e ∧ u.Settled
  | .store p => ∀ c ∈ u.calls.lookup p, u.Stands p c

instance (s : Procs) (i : Nat) : Decidable (s.Member i) := inferInstanceAs (Decidable (_ ∧ _))

instance (u : Unlocked) (e : UnlockedEvent) : Decidable (u.Unwrapped e) := by
  induction e using UnlockedEvent.casesOn <;> unfold Unwrapped <;> infer_instance

instance (u : Unlocked) (p : Nat) (c : Pending) : Decidable (u.Stands p c) := by
  induction c using Pending.casesOn <;> unfold Stands <;> infer_instance

instance (u : Unlocked) (e : UnlockedEvent) : Decidable (u.Fresh e) := by
  induction e using UnlockedEvent.casesOn <;> unfold Fresh <;> infer_instance

/-- The invariant: groups are in order, but for the second store of a `set_sid`. -/
structure Sound (u : Unlocked) : Prop where
  settled : u.Settled → u.procs.Grouped
  half : ∀ p, (p, .group) ∈ u.calls →
    (∀ c ∈ u.calls, c.2 = .group → c.1 = p) ∧ (u.procs.openGroup p).Grouped
  pos : ∀ p i pgid, (p, .move i pgid) ∈ u.calls → 0 < pgid

variable {u u' : Unlocked} {e : UnlockedEvent} {p : Nat}

theorem mem_of_lookup {c : Pending} (hCall : u.calls.lookup p = some c) : (p, c) ∈ u.calls := by
  obtain ⟨l₁, l₂, hSplit, -⟩ := List.lookup_eq_some_iff.mp hCall
  simp [hSplit]

theorem mem_rest {c : Nat × Pending} (hMem : c ∈ u.rest p) : c ∈ u.calls ∧ c.1 ≠ p := by
  simpa [rest] using hMem

/-- While no `set_sid` is between its stores, the invariant is about the table and the groups that
are about to be stored. -/
theorem Sound.of_settled (hSettled : u.Settled) (hGrouped : u.procs.Grouped)
    (hPos : ∀ p i pgid, (p, .move i pgid) ∈ u.calls → 0 < pgid) : u.Sound :=
  ⟨fun _ => hGrouped, fun _ hMem => absurd rfl (hSettled _ hMem), hPos⟩

theorem Sound.call (h : u.Sound) {e : ProcEvent} (hOk : NoWrap u.procs e) (hSettled : u.Settled)
    (hCall : u.call e = some u') : u'.Sound := by
  have hGrouped := h.settled hSettled
  have hPlain : ∀ e, NoWrap u.procs e →
      (u.procs.next e).map (fun s => { u with procs := s }) = some u' → u'.Sound := by
    intro e hOk hNext
    obtain ⟨s, hStep, rfl⟩ := Option.map_eq_some_iff.mp hNext
    exact .of_settled hSettled (hGrouped.step hOk hStep) h.pos
  unfold Unlocked.call at hCall
  split at hCall
  next p pid arg =>
    obtain ⟨-, hCall⟩ := ite_none_right_eq_some.mp hCall
    split at hCall
    · obtain rfl := some.inj hCall
      exact h
    next i pgid hFor =>
      obtain rfl := some.inj hCall
      obtain ⟨⟨hUsed, -⟩, hPos, -⟩ := Procs.groupFor_spec hFor
      have hPgid : 0 < pgid := hPos.elim
        (fun hOwn => hOwn ▸ (hGrouped.numbered.pid_lt i hUsed).1) id
      refine .of_settled (forall_mem_cons.mpr ⟨by simp, hSettled⟩) hGrouped fun q k g hMem => ?_
      rcases mem_cons.mp hMem with hEq | hMem
      · cases hEq
        exact hPgid
      · exact h.pos q k g hMem
  next p =>
    obtain ⟨-, hCall⟩ := ite_none_right_eq_some.mp hCall
    split at hCall
    · obtain rfl := some.inj hCall
      refine .of_settled (forall_mem_cons.mpr ⟨by simp, hSettled⟩) hGrouped fun q k g hMem => ?_
      exact h.pos q k g (mem_of_ne_of_mem (by simp) hMem)
    · obtain rfl := some.inj hCall
      exact h
  · exact hPlain _ hOk hCall

theorem Sound.store (h : u.Sound) (hOk : u.Fresh (.store p))
    (hStore : u.next (.store p) = some u') : u'.Sound := by
  have hRest : ∀ q i pgid, (q, .move i pgid) ∈ u.rest p → 0 < pgid := fun q i pgid hMem =>
    h.pos q i pgid (mem_rest hMem).1
  unfold next at hStore
  simp only at hStore
  split at hStore
  next i pgid hCall =>
    obtain rfl := some.inj hStore
    obtain ⟨hSettled, hMember, hGroup⟩ := hOk _ hCall
    refine .of_settled (fun c hc => hSettled c (mem_rest hc).1) ?_ hRest
    exact (h.settled hSettled).moves hMember (.inr (h.pos p i pgid (mem_of_lookup hCall)))
      (hGroup.imp_right fun ⟨j, _, hj⟩ => ⟨j, hj⟩)
  next hCall =>
    obtain rfl := some.inj hStore
    obtain ⟨hSettled, hMember, hMay⟩ := hOk _ hCall
    have hNone : ∀ c ∈ u.rest p, c.2 ≠ .group := fun c hc => hSettled c (mem_rest hc).1
    refine ⟨fun hNow => absurd rfl (hNow _ mem_cons_self), fun q hMem => ?_, fun q i g hMem => ?_⟩
    · have hq : q = p := by
        rcases mem_cons.mp hMem with hEq | hMem
        · exact congrArg Prod.fst hEq
        · exact absurd rfl (hNone _ hMem)
      subst hq
      refine ⟨forall_mem_cons.mpr ⟨fun _ => rfl, fun c hc hGroup => absurd hGroup (hNone c hc)⟩, ?_⟩
      exact (h.settled hSettled).leads hMember (Procs.mayLead_iff.mp hMay)
    · exact hRest q i g (mem_of_ne_of_mem (by simp) hMem)
  next hCall =>
    obtain rfl := some.inj hStore
    obtain ⟨hOnly, hGrouped⟩ := h.half p (mem_of_lookup hCall)
    refine .of_settled (fun c hc hGroup => ?_) hGrouped hRest
    exact (mem_rest hc).2 (hOnly c (mem_rest hc).1 hGroup)
  · cases hStore

theorem Sound.step (h : u.Sound) (hOk : u.Fresh e) (hStep : u.Step e u') : u'.Sound := by
  cases e with
  | call e =>
    obtain ⟨-, hCall⟩ := ite_none_left_eq_some.mp hStep
    exact h.call hOk.1 hOk.2 hCall
  | store p => exact h.store hOk hStep

end Unlocked

/-- A shell forks twice and gives its first child a group; the second child joins it while a child
of that one starts a session. -/
def sessionEvents : List UnlockedEvent :=
  [.call (.spawnUser 0 1 true), .call (.fork 1 true true), .call (.setPgid 1 3 0), .store 1,
    .call (.fork 1 true true), .call (.fork 3 true true), .call (.setPgid 1 4 3), .call (.setSid 4),
    .store 1, .store 4, .store 4]

/-- A shell puts its child into its own group while the child starts a session, on another
processor. -/
def strayEvents : List UnlockedEvent :=
  [.call (.spawnUser 0 1 true), .call (.fork 1 true true), .call (.setPgid 1 3 2), .call (.setSid 2),
    .store 2, .store 2, .store 1]

end LeahOS.Sched
