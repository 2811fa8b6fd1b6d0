import LeahOS.Kernel.System

/-!
# Waking the callers of a port that goes

A caller sleeps on the channel of its slot. The operations that end an exchange change
the slots under the lock and wake the callers after it, from a list of channels they have
collected: `reply` one, `port_destroy` and `abandon` up to eight.

`Waking` adds to the machine who is really asleep, which wakes each task still has to do,
and who brought each slot to the state it is in. Between the end of the locked part and
the last wake anything may happen. `Released` says that a task that sleeps on a slot whose
state is final will be woken by whoever made it final; so when that operation has returned,
it is awake. With more than eight slots on a port it is not.
-/

namespace LeahOS.Kernel
open Lib Function List Option
variable {π : Type}

/-! ## The channels to wake -/

/-- The room for channels in `port_destroy` and in `abandon`. -/
def kMaxWakes : Nat := 8

/-- One more channel, while there is room. -/
def pushWake (wake : List Nat) (slot : Nat) : List Nat :=
  if wake.length < kMaxWakes then wake ++ [slot] else wake

/-- The slots on a port that are not free. -/
def slotsOn (k : Machine π) (port : Nat) : List Nat :=
  (List.range kMaxRequests).filter fun i =>
    (k.requests i).port == port && (k.requests i).state != .free

/-- What `port_destroy_locked` adds to the channels. -/
def destroyWakes (k : Machine π) (p port : Nat) (wake : List Nat) : List Nat :=
  if validPort k port = false ∨ (k.ports port).owner ≠ p then wake
  else (slotsOn k port).foldl pushWake wake

/-- One round of the first loop of `abandon`, with the channels. -/
def closeOneWakes (p pid : Nat) (a : Machine π × List Nat) (port : Nat) : Machine π × List Nat :=
  (closeOne p pid a.1 port,
    if (a.1.ports port).used && (a.1.ports port).owner == pid then destroyWakes a.1 p port a.2
    else a.2)

/-- The slots a process has taken from their ports. -/
def slotsTaken (k : Machine π) (pid : Nat) : List Nat :=
  (List.range kMaxRequests).filter fun i =>
    (k.requests i).server == pid && (k.requests i).state == .taken

/-- The channels `abandon` collects in its two loops. -/
def abandonWakes (k : Machine π) (p pid : Nat) : List Nat :=
  let a := (List.range kMaxPorts).foldl (closeOneWakes p pid) (k, [])
  (slotsTaken a.1 pid).foldl pushWake a.2

/-- The channels a step wakes once it has let the lock go. -/
def wakes (k : Machine π) : Event π → List Nat
  | .portDestroy p port => destroyWakes k p port []
  | .reply p slot _ msg => if (replyTo k p slot msg).2 = 0 then [slot] else []
  | .exit p => if groupStillAlive k p then [] else abandonWakes k p (k.tgid p)
  | _ => []

/-- The task that takes the step. -/
def Event.actor : Event π → Option Nat
  | .portCreate p _ | .portDestroy p _ | .callStart p _ _ _ | .callCollect p _ | .callTimeout p
  | .callSignal p | .tryRecv p _ | .recvStart p _ | .recvWake p _ | .reply p _ _ _ | .exit p
  | .fork p _ | .thread p | .imageFind p _ _ _ | .imageCreate p _ _ _ _ _ | .close p _
  | .duplicate p _ _ _ => some p
  | .give _ _ => none

/-! ## The machine with its sleepers -/

/-- The machine, the tasks that are blocked on the channel of the slot they wait for, the
wakes each task has still to do, and the task that last moved each slot. -/
structure Waking (π : Type) where
  kernel : Machine π
  asleep : Nat → Bool
  pending : Nat → List Nat
  mover : Nat → Nat

/-- A step of the machine; a caller that finds its slot not final and blocks; a sleeper
that the clock or a signal makes runnable; and one of the wakes a task has to do. -/
inductive WakeEvent (π : Type) where
  | task (e : Event π)
  | sleep (p : Nat)
  | rouse (p : Nat)
  | wake (p : Nat)

namespace Waking

/-- A task that sleeps takes no step, and one that has wakes to do does them first. -/
def Ready (w : Waking π) (e : Event π) : Prop :=
  ∀ p ∈ e.actor, w.asleep p = false ∧ w.pending p = []

instance (w : Waking π) (e : Event π) : Decidable (w.Ready e) :=
  inferInstanceAs (Decidable (∀ p ∈ e.actor, _))

/-- After a step of the machine. -/
def after (w : Waking π) (e : Event π) (k : Machine π) : Waking π where
  kernel := k
  asleep := w.asleep
  pending := match e.actor with
    | none => w.pending
    | some p => update w.pending p (wakes w.kernel e)
  mover i := if (k.requests i).state = (w.kernel.requests i).state then w.mover i
    else e.actor.getD (w.mover i)

/-- The task waits for this slot. -/
def waitsOn (k : Machine π) (p slot : Nat) : Bool :=
  match k.doing p with
  | .calling i _ _ => i == slot
  | _ => false

/-- Where an event leads, if it can happen. -/
def next (w : Waking π) : WakeEvent π → Option (Waking π)
  | .task e => if w.Ready e then (Kernel.next w.kernel e).map (w.after e) else none
  | .sleep p =>
    match w.kernel.doing p with
    | .calling slot _ _ =>
      if Done (w.kernel.requests slot) then none
      else some { w with asleep := update w.asleep p true }
    | _ => none
  | .rouse p => some { w with asleep := update w.asleep p false }
  | .wake p =>
    match w.pending p with
    | [] => none
    | slot :: rest => some { w with
        asleep := fun q => w.asleep q && !waitsOn w.kernel q slot
        pending := update w.pending p rest }

/-- The steps, as a relation. -/
def Step (w : Waking π) (e : WakeEvent π) (w' : Waking π) : Prop := w.next e = some w'

/-- Nobody sleeps and nobody has anything to wake. -/
structure Start (w : Waking π) : Prop where
  initial : Initial w.kernel
  asleep_eq : ∀ p, w.asleep p = false
  pending_eq : ∀ p, w.pending p = []

/-- Whoever sleeps on a slot that is final will be woken by the task that made it so,
which has not returned yet. -/
def Released (w : Waking π) : Prop :=
  ∀ p slot call timed, w.asleep p = true → w.kernel.doing p = .calling slot call timed →
    Done (w.kernel.requests slot) → slot ∈ w.pending (w.mover slot)

end Waking

/-- The slots that are not free and are on a port of the process or were taken by it. -/
def slotsOf (k : Machine π) (pid : Nat) : List Nat :=
  (List.range kMaxRequests).filter fun i => (k.requests i).state ≠ .free ∧
    ((k.ports (k.requests i).port).used = true ∧ (k.ports (k.requests i).port).owner = pid ∨
      (k.requests i).server = pid ∧ (k.requests i).state = .taken)

/-- A port goes with at most eight slots on it that are not free, and a process with at
most eight on its ports and in its hands. -/
def Few (w : Waking π) : WakeEvent π → Prop
  | .task (.portDestroy p port) =>
    validPort w.kernel port = true → (w.kernel.ports port).owner = p →
      (slotsOn w.kernel port).length ≤ kMaxWakes
  | .task (.exit p) => groupStillAlive w.kernel p = false →
      (slotsOf w.kernel (w.kernel.tgid p)).length ≤ kMaxWakes
  | _ => True

instance (w : Waking π) (e : WakeEvent π) : Decidable (Few w e) := by
  induction e using WakeEvent.casesOn with
  | task e => induction e using Event.casesOn <;> unfold Few <;> infer_instance
  | _ => unfold Few; infer_instance

/-! ## What fits into the room -/

section Lists
variable {k : Machine π} {p : Nat}

/-- As long as there is room, nothing is left out. -/
theorem foldl_pushWake (slots : List Nat) {wake : List Nat}
    (hFits : (wake ++ slots).length ≤ kMaxWakes) : slots.foldl pushWake wake = wake ++ slots := by
  induction slots generalizing wake with
  | nil => simp
  | cons slot rest ih =>
    have hRoom : wake.length < kMaxWakes := by
      rw [length_append, length_cons] at hFits
      omega
    have hPush : pushWake wake slot = wake ++ [slot] := if_pos hRoom
    rw [foldl_cons, hPush, ih (by simpa using hFits), append_assoc]
    rfl

variable {i pid port : Nat}

theorem mem_slotsOn :
    i ∈ slotsOn k port ↔
      i < kMaxRequests ∧ (k.requests i).port = port ∧ (k.requests i).state ≠ .free := by
  simp [slotsOn]

theorem mem_slotsTaken :
    i ∈ slotsTaken k pid ↔
      i < kMaxRequests ∧ (k.requests i).server = pid ∧ (k.requests i).state = .taken := by
  simp [slotsTaken]

theorem strand_free (port : Nat) (r : Request π) :
    (strand port r).state = .free ↔ r.state = .free := by
  unfold strand
  split_ifs with hOff
  · rfl
  · push Not at hOff
    simp [hOff.2]

/-- The end of a port frees no slot and moves none to another port. -/
theorem slotsOn_closeOne (pid port other : Nat) :
    slotsOn (closeOne p pid k port) other = slotsOn k other := by
  by_cases hClosing : Closing k p pid port
  · rw [closeOne_of_closing hClosing]
    refine filter_congr fun i _ => ?_
    simp only [strand_port]
    by_cases hFree : (k.requests i).state = .free
    · simp [hFree, (strand_free port (k.requests i)).mpr hFree]
    · have hNot := mt (strand_free port (k.requests i)).mp hFree
      simp [bne, beq_eq_false_iff_ne.mpr hFree, beq_eq_false_iff_ne.mpr hNot]
  · rw [closeOne_of_not_closing hClosing]

theorem closing_closeOne {other : Nat} (hNe : other ≠ port) :
    Closing (closeOne p pid k port) p pid other ↔ Closing k p pid other := by
  by_cases hClosing : Closing k p pid port
  · rw [closeOne_of_closing hClosing]
    simp [Closing, update_of_ne hNe]
  · rw [closeOne_of_not_closing hClosing]

theorem closeOneWakes_eq (pid port : Nat) (wake : List Nat) :
    closeOneWakes p pid (k, wake) port = (closeOne p pid k port,
      if Closing k p pid port then (slotsOn k port).foldl pushWake wake else wake) := by
  unfold closeOneWakes destroyWakes
  by_cases hClosing : Closing k p pid port
  · obtain ⟨hLt, hUsed, hPid, hOwner⟩ := id hClosing
    simp only [if_pos hClosing]
    simp [validPort, hLt, hUsed, hPid, ← hOwner]
  · simp only [hClosing, if_false]
    split
    next hMatch =>
      split
      · rfl
      next hOwn =>
        push Not at hOwn
        simp only [Bool.and_eq_true, beq_iff_eq] at hMatch
        obtain ⟨hLt, -⟩ : port < kMaxPorts ∧ _ := by simpa [validPort] using hOwn.1
        exact absurd ⟨hLt, hMatch.1, hMatch.2, hOwn.2⟩ hClosing
    · rfl

/-- The first loop of `abandon` collects the slots of all ports it closes, if they fit. -/
theorem foldl_closeOneWakes (pid : Nat) {ports : List Nat} (hNodup : ports.Nodup)
    (k : Machine π) (wake : List Nat)
    (hFits : (wake ++ (ports.filter (Closing k p pid ·)).flatMap (slotsOn k)).length ≤ kMaxWakes) :
    ports.foldl (closeOneWakes p pid) (k, wake) = (ports.foldl (closeOne p pid) k,
      wake ++ (ports.filter (Closing k p pid ·)).flatMap (slotsOn k)) := by
  induction ports generalizing k wake with
  | nil => simp
  | cons port rest ih =>
    obtain ⟨hNot, hRest⟩ := nodup_cons.mp hNodup
    -- the rest of the loop finds the other ports and all slots as they were
    have hLater : (rest.filter (Closing (closeOne p pid k port) p pid ·)).flatMap
        (slotsOn (closeOne p pid k port)) =
          (rest.filter (Closing k p pid ·)).flatMap (slotsOn k) := by
      have hSlots : slotsOn (closeOne p pid k port) = slotsOn k :=
        funext fun other => slotsOn_closeOne pid port other
      rw [hSlots]
      refine congrArg (List.flatMap _) (filter_congr fun other hMem => ?_)
      have hNe : other ≠ port := fun hEq => hNot (hEq ▸ hMem)
      exact decide_eq_decide.mpr (closing_closeOne hNe)
    rw [foldl_cons, foldl_cons, closeOneWakes_eq]
    by_cases hClosing : Closing k p pid port
    · rw [filter_cons_of_pos (by simpa using hClosing), flatMap_cons, ← append_assoc] at hFits ⊢
      have hHere : (wake ++ slotsOn k port).length ≤ kMaxWakes := by
        rw [length_append] at hFits
        omega
      rw [if_pos hClosing, foldl_pushWake _ hHere, ih hRest _ _ (by rw [hLater]; exact hFits),
        hLater]
    · rw [filter_cons_of_neg (by simpa using hClosing)] at hFits ⊢
      rw [if_neg hClosing, ih hRest _ _ (by rw [hLater]; exact hFits), hLater]

/-- The slots on the ports that `abandon` closes. -/
def slotsClosed (k : Machine π) (p pid : Nat) : List Nat :=
  ((List.range kMaxPorts).filter (Closing k p pid ·)).flatMap (slotsOn k)

theorem mem_slotsClosed :
    i ∈ slotsClosed k p pid ↔
      i < kMaxRequests ∧ Closing k p pid (k.requests i).port ∧ (k.requests i).state ≠ .free := by
  unfold slotsClosed
  simp only [mem_flatMap, mem_filter, mem_range, decide_eq_true_eq, mem_slotsOn]
  constructor
  · rintro ⟨port, ⟨-, hClosing⟩, hLt, rfl, hState⟩
    exact ⟨hLt, hClosing, hState⟩
  · rintro ⟨hLt, hClosing, hState⟩
    exact ⟨_, ⟨hClosing.1, hClosing⟩, hLt, rfl, hState⟩

/-- A slot that is still taken after the first loop was on none of the ports closed. -/
theorem taken_closePorts (hTaken : ((closePorts k p pid).requests i).state = .taken) :
    ¬ Closing k p pid (k.requests i).port ∧ (closePorts k p pid).requests i = k.requests i := by
  have hSlot := closePorts_requests_eq k p pid i
  split at hSlot
  next hClosing =>
    rw [hSlot, strand] at hTaken
    split at hTaken
    next hOff =>
      rcases hOff with hOff | hFree
      · exact absurd rfl hOff
      · rw [hFree] at hTaken
        cases hTaken
    · cases hTaken
  next hNot => exact ⟨hNot, hSlot⟩

theorem nodup_slotsClosed (k : Machine π) (p pid : Nat) : (slotsClosed k p pid).Nodup := by
  refine nodup_flatMap.mpr ⟨fun port _ => nodup_range.filter _, ?_⟩
  refine (nodup_range.filter _).imp fun {port other} hNe => ?_
  intro i hi hi'
  exact hNe ((mem_slotsOn.mp hi).2.1.symm.trans (mem_slotsOn.mp hi').2.1)

/-- No slot is collected twice, and every one is on a port of the process or in its
hands. -/
theorem length_collected_le (k : Machine π) (p pid : Nat) :
    (slotsClosed k p pid ++ slotsTaken (closePorts k p pid) pid).length ≤ (slotsOf k pid).length := by
  refine (subperm_of_subset (List.Nodup.append (nodup_slotsClosed k p pid)
    (nodup_range.filter _) ?_) ?_).length_le
  · intro i hi hi'
    exact (taken_closePorts (mem_slotsTaken.mp hi').2.2).1 (mem_slotsClosed.mp hi).2.1
  · intro i hi
    rw [slotsOf, mem_filter, mem_range, decide_eq_true_eq]
    rcases mem_append.mp hi with hi | hi
    · obtain ⟨hLt, ⟨-, hUsed, hPid, -⟩, hState⟩ := mem_slotsClosed.mp hi
      exact ⟨hLt, hState, .inl ⟨hUsed, hPid⟩⟩
    · obtain ⟨hLt, hServer, hTaken⟩ := mem_slotsTaken.mp hi
      have hSame := (taken_closePorts hTaken).2
      rw [hSame] at hServer hTaken
      exact ⟨hLt, by simp [hTaken], .inr ⟨hServer, hTaken⟩⟩

theorem abandonWakes_eq (hFew : (slotsOf k pid).length ≤ kMaxWakes) :
    abandonWakes k p pid = slotsClosed k p pid ++ slotsTaken (closePorts k p pid) pid := by
  have hFits := (length_collected_le k p pid).trans hFew
  have hFirst : (slotsClosed k p pid).length ≤ kMaxWakes := by
    rw [length_append] at hFits
    omega
  have hLoop := foldl_closeOneWakes pid (p := p) (nodup_range (n := kMaxPorts)) k [] hFirst
  unfold abandonWakes
  rw [hLoop]
  exact foldl_pushWake _ hFits

end Lists

/-! ## What a step does to sleepers and slots -/

section Steps
variable {k k' : Machine π} {p q i slot call : Nat} {timed : Bool}

/-- A task that is told to do something else than calling. -/
theorem calling_of_update {d : Doing} (hDoing : k'.doing = update k.doing p d)
    (hd : ∀ slot call timed, d ≠ .calling slot call timed)
    (h : k'.doing q = .calling slot call timed) : k.doing q = .calling slot call timed := by
  rw [hDoing, update_apply] at h
  split at h
  · exact absurd h (hd slot call timed)
  · exact h

variable {port : Nat} {e : Event π}

theorem calling_of_recv (hEnds : RecvEnds k p port k') (h : k'.doing q = .calling slot call timed) :
    k.doing q = .calling slot call timed := by
  cases hEnds with
  | same => exact h
  | sleep | wake => exact calling_of_update rfl (by simp) h
  | took hTake =>
    obtain ⟨-, -, -, rfl⟩ := take_eq hTake
    exact h
  | tookAwake hTake =>
    obtain ⟨-, -, -, rfl⟩ := take_eq hTake
    exact calling_of_update (p := p) (d := .running) rfl (by simp) h

/-- Whoever waits for a slot after a step waited for it before, or has just put its
request there. -/
theorem calling_of_step (hStep : Step k e k') (h : k'.doing q = .calling slot call timed) :
    k.doing q = .calling slot call timed ∨ (q ∈ e.actor ∧ slot < kMaxRequests) := by
  have hObjects := objects_of_step hStep
  cases hStep with
  | @portCreate p name hp =>
    rcases portCreate_cases k p name with hEq | ⟨_, -, -, hEq⟩ <;> rw [hEq] at h <;> exact .inl h
  | @portDestroy p port hp =>
    obtain ⟨_, _, hEq⟩ := portDestroyLocked_eq k p port
    rw [hEq] at h
    exact .inl h
  | @callStart p port msg timed' hp =>
    rcases callStart_cases k p port msg timed' with hEq | ⟨slot', hLt, -, hEq⟩ <;> rw [hEq] at h
    · exact .inl h
    · by_cases hq : q = p
      · subst hq
        simp only [Machine.setDoing, update_self, Doing.calling.injEq] at h
        exact .inr ⟨rfl, h.1 ▸ hLt⟩
      · simp only [Machine.setDoing, update_of_ne hq] at h
        exact .inl h
  | callCollect | callTimeout | callSignal => exact .inl (calling_of_update rfl (by simp) h)
  | tryRecv port hp => exact .inl (calling_of_recv (tryRecv_ends k _ port) h)
  | recvStart port hp => exact .inl (calling_of_recv (recvStart_ends k _ port) h)
  | recvWake giveUp hp => exact .inl (calling_of_recv (recvWake_ends k _ _ giveUp) h)
  | @reply p slot' call' msg hp hHas =>
    left
    have hTo : (replyTo k p slot' msg).1.doing q = .calling slot call timed := h
    rcases replyTo_cases k p slot' msg with hEq | ⟨-, -, hEq⟩ | ⟨-, -, _, -, hEq⟩ <;>
      rw [hEq] at hTo <;> exact hTo
  | @exit p hp =>
    obtain ⟨_, _, _, hEq, -⟩ := exitCurrent_eq k p
    rw [hEq] at h
    exact .inl h
  | fork | thread => exact .inl (calling_of_update (d := .running) rfl (by simp) h)
  | give | imageFind | imageCreate | close | duplicate =>
    obtain ⟨o, c, hEq⟩ := hObjects trivial
    rw [hEq] at h
    exact .inl h

/-- A step on one slot that does not make it final. -/
theorem done_of_update {r : Request π} (hRequests : k'.requests = update k.requests slot r)
    (hr : ¬ Done r) (h : Done (k'.requests i)) : (k'.requests i).state = (k.requests i).state := by
  rw [hRequests] at h ⊢
  by_cases hi : i = slot
  · subst hi
    rw [update_self] at h
    exact absurd h hr
  · rw [update_of_ne hi]

theorem done_of_recv (hEnds : RecvEnds k p port k') (h : Done (k'.requests i)) :
    (k'.requests i).state = (k.requests i).state := by
  cases hEnds with
  | same | sleep | wake => rfl
  | took hTake | tookAwake hTake =>
    obtain ⟨-, -, -, rfl⟩ := take_eq hTake
    exact done_of_update rfl (by simp [Done]) h

/-- A port that goes wakes everybody on it. -/
theorem done_of_portDestroy (hi : i < kMaxRequests)
    (hFew : validPort k port = true → (k.ports port).owner = p →
      (slotsOn k port).length ≤ kMaxWakes) :
    ((portDestroyLocked k p port).1.requests i).state = (k.requests i).state ∨
      i ∈ destroyWakes k p port [] := by
  unfold portDestroyLocked destroyWakes at *
  split
  · exact .inl rfl
  next hOwn =>
  push Not at hOwn
  rw [foldl_pushWake _ (hFew (by simpa using hOwn.1) hOwn.2)]
  simp only [strand]
  split
  · exact .inl rfl
  next hOn =>
    push Not at hOn
    exact .inr (mem_slotsOn.mpr ⟨hi, hOn.1, hOn.2⟩)

/-- A process that goes wakes everybody on its ports, and everybody it owes an answer. -/
theorem done_of_exit (hi : i < kMaxRequests)
    (hFew : groupStillAlive k p = false → (slotsOf k (k.tgid p)).length ≤ kMaxWakes)
    (h : Done ((exitCurrent k p).requests i)) :
    ((exitCurrent k p).requests i).state = (k.requests i).state ∨ i ∈ wakes k (.exit p) := by
  cases hLast : groupStillAlive k p with
  | true =>
    left
    simp [exitCurrent, hLast]
  | false =>
    have hSlot : (exitCurrent k p).requests i =
        orphan (k.tgid p) ((closePorts k p (k.tgid p)).requests i) := by
      have hClosed := closePorts_requests_eq (k.without p) p (k.tgid p) i
      simp only [exitCurrent, abandon, hLast, Bool.not_false, if_true]
      rw [hClosed, closePorts_requests_eq]
      rfl
    have hWakes : wakes k (.exit p) =
        slotsClosed k p (k.tgid p) ++ slotsTaken (closePorts k p (k.tgid p)) (k.tgid p) := by
      simp only [wakes, hLast]
      exact abandonWakes_eq (hFew hLast)
    rw [hSlot] at h ⊢
    rw [hWakes, mem_append, mem_slotsClosed, mem_slotsTaken]
    unfold orphan at h ⊢
    split_ifs at h ⊢ with hFree hDropped hTaken hCaller hWas
    · simp [Done, hFree] at h
    · simp [Done] at h
    · exact .inr (.inr ⟨hi, hTaken⟩)
    · simp [Done] at h
    · simp [Done] at h
    · -- the slot is as the first loop has left it
      rw [closePorts_requests_eq] at hFree h ⊢
      split_ifs at hFree h ⊢ with hClosing
      · exact .inr (.inl ⟨hi, hClosing, mt (strand_free _ _).mpr hFree⟩)
      · exact .inl rfl

/-- An answer wakes its caller. -/
theorem done_of_reply (msg : Message π) (hi : i < kMaxRequests)
    (h : Done ((reply k p slot call msg).requests i)) :
    ((reply k p slot call msg).requests i).state = (k.requests i).state ∨
      i ∈ wakes k (.reply p slot call msg) := by
  have hTo : (reply k p slot call msg).requests = (replyTo k p slot msg).1.requests := rfl
  rw [hTo] at h ⊢
  rcases replyTo_cases k p slot msg with hEq | ⟨-, -, hEq⟩ | ⟨hTaken, hServer, _, -, hEq⟩ <;>
    rw [hEq] at h ⊢
  · exact .inl rfl
  · exact .inl (done_of_update rfl (by simp [Done]) h)
  · by_cases hSlot : i = slot
    · subst hSlot
      right
      simp [wakes, replyTo, Nat.not_le.mpr hi, hTaken, hServer]
    · exact .inl (congrArg Request.state (update_of_ne hSlot _ _))

/-- **A slot that a step makes final is among those it wakes.** -/
theorem done_of_step {w : Waking π} (hOk : Few w (.task e)) (hi : i < kMaxRequests)
    (hStep : Step w.kernel e k') (h : Done (k'.requests i)) :
    (k'.requests i).state = (w.kernel.requests i).state ∨ i ∈ wakes w.kernel e := by
  have hObjects := objects_of_step hStep
  cases hStep with
  | @portCreate p name hp =>
    rcases portCreate_cases w.kernel p name with hEq | ⟨_, -, -, hEq⟩ <;> rw [hEq] <;>
      exact .inl rfl
  | portDestroy port hp => exact done_of_portDestroy hi hOk
  | @callStart p port msg timed' hp =>
    left
    rcases callStart_cases w.kernel p port msg timed' with hEq | ⟨_, -, -, hEq⟩ <;>
      rw [hEq] at h ⊢
    exact done_of_update rfl (by simp [Done]) h
  | callCollect heap hp hDone => exact .inl (done_of_update rfl (by simp [Done]) h)
  | callTimeout | callSignal =>
    refine .inl (done_of_update rfl ?_ h)
    simp only [Done]
    split <;> simp
  | tryRecv port hp => exact .inl (done_of_recv (tryRecv_ends _ _ port) h)
  | recvStart port hp => exact .inl (done_of_recv (recvStart_ends _ _ port) h)
  | recvWake giveUp hp => exact .inl (done_of_recv (recvWake_ends _ _ _ giveUp) h)
  | @reply p slot' call' msg hp hHas => exact done_of_reply msg hi h
  | exit hp => exact done_of_exit hi hOk h
  | fork | thread => exact .inl rfl
  | give | imageFind | imageCreate | close | duplicate =>
    obtain ⟨o, c, hEq⟩ := hObjects trivial
    rw [hEq]
    exact .inl rfl

end Steps

/-! ## Runs -/

namespace Waking

/-- The invariant of runs that strand few callers at a time. -/
structure Good (w : Waking π) : Prop where
  released : w.Released
  calling_lt : ∀ p slot call timed, w.kernel.doing p = .calling slot call timed →
    slot < kMaxRequests

variable {w : Waking π} {p slot : Nat}

theorem Start.good (h : w.Start) : w.Good where
  released p slot call timed hAsleep := by simp [h.asleep_eq p] at hAsleep
  calling_lt p slot call timed hp := by simp [h.initial.doing_eq p] at hp

theorem Good.task {e : Event π} {k : Machine π} (h : w.Good) (hOk : Few w (.task e))
    (hReady : w.Ready e) (hStep : Kernel.Step w.kernel e k) : (w.after e k).Good := by
  refine ⟨fun p slot call timed hAsleep hp hDone => ?_, fun p slot call timed hp => ?_⟩
  · -- the sleeper takes no step, so it waits for this slot since before
    have hActor : p ∉ e.actor := fun hActor => by
      have hAwake : w.asleep p = false := (hReady p hActor).1
      exact absurd hAsleep (by simp [after, hAwake])
    have hWas := (calling_of_step hStep hp).resolve_right fun hNew => hActor hNew.1
    have hLt := h.calling_lt p slot call timed hWas
    by_cases hSame : (k.requests slot).state = (w.kernel.requests slot).state
    · -- it was final already, and whoever made it so has not woken everybody yet
      have hBefore : slot ∈ w.pending (w.mover slot) := by
        refine h.released p slot call timed hAsleep hWas ?_
        unfold Done at hDone ⊢
        rw [← hSame]
        exact hDone
      have hMover : (w.after e k).mover slot = w.mover slot := if_pos hSame
      rw [hMover]
      unfold after
      cases hEvent : e.actor with
      | none => exact hBefore
      | some q =>
        have hNe : w.mover slot ≠ q := by
          rintro rfl
          rw [(hReady _ hEvent).2] at hBefore
          cases hBefore
        simpa [update_of_ne hNe] using hBefore
    · have hWake := (done_of_step hOk hLt hStep hDone).resolve_left hSame
      have hMover : (w.after e k).mover slot = e.actor.getD (w.mover slot) := if_neg hSame
      rw [hMover]
      unfold after
      cases hEvent : e.actor with
      | none =>
        cases e <;> simp [Event.actor] at hEvent
        simp [wakes] at hWake
      | some q => simpa using hWake
  · rcases calling_of_step hStep hp with hWas | ⟨-, hLt⟩
    · exact h.calling_lt p slot call timed hWas
    · exact hLt

theorem Good.sleep (h : w.Good) {call : Nat} {timed : Bool}
    (hp : w.kernel.doing p = .calling slot call timed) (hDone : ¬ Done (w.kernel.requests slot)) :
    Good { w with asleep := update w.asleep p true } := by
  refine ⟨fun q slot' call' timed' hAsleep hq hDone' => ?_, h.calling_lt⟩
  by_cases hqp : q = p
  · subst hqp
    obtain ⟨rfl, -, -⟩ := Doing.calling.inj (hp.symm.trans hq)
    exact absurd hDone' hDone
  · simp only [update_of_ne hqp] at hAsleep
    exact h.released q slot' call' timed' hAsleep hq hDone'

/-- Whoever is still asleep after a wake does not wait for that slot. -/
theorem Good.wake (h : w.Good) {rest : List Nat} (hPending : w.pending p = slot :: rest) :
    Good { w with
      asleep := fun q => w.asleep q && !waitsOn w.kernel q slot
      pending := update w.pending p rest } := by
  refine ⟨fun q slot' call timed hAsleep hq hDone => ?_, h.calling_lt⟩
  simp only [Bool.and_eq_true, Bool.not_eq_true', waitsOn] at hAsleep
  change w.kernel.doing q = .calling slot' call timed at hq
  have hNe : slot' ≠ slot := by simpa [hq] using hAsleep.2
  have hMem := h.released q slot' call timed hAsleep.1 hq hDone
  by_cases hMover : w.mover slot' = p
  · rw [hMover, hPending] at hMem
    have hLater := (mem_cons.mp hMem).resolve_left hNe
    simpa [hMover] using hLater
  · simpa [update_of_ne hMover] using hMem

theorem good_step {w' : Waking π} {e : WakeEvent π} (h : w.Good) (hOk : Few w e)
    (hStep : w.Step e w') : w'.Good := by
  unfold Step next at hStep
  cases e with
  | task e =>
    obtain ⟨hReady, hNext⟩ := ite_none_right_eq_some.mp hStep
    obtain ⟨k, hKernel, rfl⟩ := map_eq_some_iff.mp hNext
    exact h.task hOk hReady (step_of_next hKernel)
  | sleep p =>
    simp only at hStep
    split at hStep
    next hp =>
      obtain ⟨hDone, hEq⟩ := ite_none_left_eq_some.mp hStep
      exact some.inj hEq ▸ h.sleep hp hDone
    · cases hStep
  | rouse p =>
    obtain rfl := some.inj hStep
    refine ⟨fun q slot call timed hAsleep hq hDone => ?_, h.calling_lt⟩
    refine h.released q slot call timed ?_ hq hDone
    by_cases hqp : q = p
    · subst hqp
      simp at hAsleep
    · simpa [update_of_ne hqp] using hAsleep
  | wake p =>
    simp only at hStep
    split at hStep
    · cases hStep
    next hPending => exact some.inj hStep ▸ h.wake hPending

/-- **While few callers are stranded at a time, all of them are woken.** -/
theorem released_of_few {w₀ w : Waking π} {es : List (WakeEvent π)} (hStart : w₀.Start)
    (hRun : Run (Restrict Few Step) w₀ es w) : w.Released := by
  exact (hRun.invariant_of (I := Good) (fun _ _ _ => good_step) hStart.good).released

/-- A machine of `count` processes, all awake. -/
def awake (count : Nat) : Waking Nat :=
  ⟨boot 0 count, fun _ => false, fun _ => [], fun _ => 0⟩

theorem awake_start (count : Nat) : (awake count).Start :=
  ⟨boot_initial 0 count, fun _ => rfl, fun _ => rfl⟩

/-- The process `1` serves a port, `callers` others call it and sleep, and it destroys the
port and does its wakes. -/
def destroyEvents (callers wakes : Nat) : List (WakeEvent Nat) :=
  .task (.portCreate 1 7) ::
    ((List.range callers).flatMap fun i =>
      [.task (.callStart (i + 2) 0 (plain 0) false), .sleep (i + 2)]) ++
    .task (.portDestroy 1 0) :: List.replicate wakes (.wake 1)

/-- With nine callers `port_destroy` has returned, and the last one sleeps on. -/
theorem not_released_destroyEvents :
    ¬ ∀ (w₀ w : Waking Nat) (es : List (WakeEvent Nat)), w₀.Start → Run Step w₀ es w →
      w.Released := by
  intro hAll
  obtain ⟨w, hRun, hAsleep, hDoing, hState, hMover, hPending⟩ :
      ∃ w, Run Step (awake 10) (destroyEvents 9 8) w ∧ w.asleep 10 = true ∧
        w.kernel.doing 10 = .calling 8 8 false ∧ (w.kernel.requests 8).state = .abandoned ∧
          w.mover 8 = 1 ∧ w.pending 1 = [] :=
    Run.exists_of_foldlM (fun _ _ _ h => h) (by decide +kernel)
  have hMem := hAll _ _ _ (awake_start 10) hRun 10 8 8 false hAsleep hDoing (.inr hState)
  rw [hMover, hPending] at hMem
  cases hMem

/-- With eight callers the port is gone, all wakes are done, and nobody sleeps on a slot
that is final. -/
theorem released_destroyEvents :
    ∃ w : Waking Nat, (w.kernel.requests 7).state = .abandoned ∧ w.pending 1 = [] ∧ w.Released := by
  obtain ⟨w, hRun, hState, hPending⟩ :
      ∃ w, Run (Restrict Few Step) (awake 9) (destroyEvents 8 8) w ∧
        (w.kernel.requests 7).state = .abandoned ∧ w.pending 1 = [] :=
    Run.exists_of_guarded (fun _ _ _ h => h) (by decide +kernel)
  exact ⟨w, hState, hPending, released_of_few (awake_start 9) hRun⟩

end Waking
end LeahOS.Kernel
