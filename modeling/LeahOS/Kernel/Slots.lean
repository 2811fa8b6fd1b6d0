import LeahOS.Kernel.System

/-!
# No request slot is lost

There are sixty-four request slots for the whole system, and a slot only becomes free
again when somebody lets go of it: the caller that sleeps on it, or the server that owes
an answer for it. A slot that has neither is lost until the machine boots again.

That does happen: the end of a port abandons the slots on it, and a slot whose caller has
given up has nobody to collect what was abandoned. `Tidy` rules these steps out, and with
them the end of a task that owes answers and is not the last of its group: its slots are
nobody's either.
-/

namespace LeahOS.Kernel
open Lib Function Machine
variable {π : Type}

/-- The caller of the slot is alive and sleeps on it. -/
def CallerInside (k : Machine π) (i : Nat) : Prop :=
  k.live (k.requests i).caller = true ∧
    ∃ timed, k.doing (k.requests i).caller = .calling i (k.requests i).call timed

/-- Who lets go of a slot, by its state. -/
def HasOwner (k : Machine π) (i : Nat) : Prop :=
  match (k.requests i).state with
  | .free => True
  | .queued | .answered | .abandoned => CallerInside k i
  | .taken | .dropped => k.live (k.requests i).server = true

/-- Some steps from here the slot is free. -/
def Reclaimable (k : Machine π) (i : Nat) : Prop :=
  ∃ es k', Run Step k es k' ∧ (k'.requests i).state = .free

/-- Every slot is somebody's, and can be free again. -/
def NoSlotLost (k : Machine π) : Prop := ∀ i, HasOwner k i ∧ Reclaimable k i

/-- No port is destroyed, and no server that leads its group and is the last of it exits,
while the caller of a request there has given up and the answer is outstanding; and no
other task exits that owes an answer at all. -/
def Tidy (k : Machine π) : Event π → Prop
  | .portDestroy p port => validPort k port = true → (k.ports port).owner = p →
      ∀ i < kMaxRequests, (k.requests i).state = .dropped → (k.requests i).port ≠ port
  | .exit p => ∀ i < kMaxRequests, Owed (k.requests i) → (k.requests i).server = p →
      groupStillAlive k p = false ∧ k.tgid p = p ∧ (k.requests i).state ≠ .dropped
  | _ => True

instance (k : Machine π) (e : Event π) : Decidable (Tidy k e) := by
  induction e using Event.casesOn <;> unfold Tidy <;> infer_instance

/-- The invariant of tidy runs. -/
structure SlotInv (k : Machine π) : Prop where
  waiting : ∀ i, Awaited (k.requests i) →
    ∃ timed, k.doing (k.requests i).caller = .calling i (k.requests i).call timed
  serving : ∀ i, Owed (k.requests i) → k.live (k.requests i).server = true

theorem Initial.slotInv {k : Machine π} (h : Initial k) : SlotInv k where
  waiting i hi := by simp [Awaited, h.requests_eq i] at hi
  serving i hi := by simp [Owed, h.requests_eq i] at hi

section Steps
variable {k k' : Machine π} {p : Nat} {r : Request π} {call i port slot : Nat} {timed : Bool}

/-- A change of one slot that keeps its caller. -/
theorem SlotInv.of_request (h : SlotInv k) (hCaller : r.caller = (k.requests slot).caller)
    (hCall : r.call = (k.requests slot).call) (hAwaited : Awaited r → Awaited (k.requests slot))
    (hOwed : Owed r → k.live r.server = true) : SlotInv (k.setRequest slot r) := by
  refine ⟨fun i hi => ?_, fun i hi => ?_⟩
  · by_cases hEq : i = slot
    · subst hEq
      simp only [setRequest, update_self] at hi ⊢
      rw [hCaller, hCall]
      exact h.waiting i (hAwaited hi)
    · simp only [setRequest, update_of_ne hEq] at hi ⊢
      exact h.waiting i hi
  · by_cases hEq : i = slot
    · subst hEq
      simp only [setRequest, update_self] at hi ⊢
      exact hOwed hi
    · simp only [setRequest, update_of_ne hEq] at hi ⊢
      exact h.serving i hi

/-- A task that sleeps on no slot may do something else. -/
theorem SlotInv.of_doing (h : SlotInv k) {d : Doing}
    (hNot : ∀ i, Awaited (k.requests i) → (k.requests i).caller ≠ p) : SlotInv (k.setDoing p d) := by
  refine ⟨fun i hi => ?_, h.serving⟩
  obtain ⟨timed, hDoing⟩ := h.waiting i hi
  exact ⟨timed, (update_of_ne (hNot i hi) _ _).trans hDoing⟩

/-- A task that is not in a call is the caller of no slot that is awaited. -/
theorem SlotInv.caller_ne (h : SlotInv k)
    (hNot : ∀ slot call timed, k.doing p ≠ .calling slot call timed) (hi : Awaited (k.requests i)) :
    (k.requests i).caller ≠ p := by
  rintro rfl
  obtain ⟨timed, hDoing⟩ := h.waiting i hi
  exact hNot _ _ _ hDoing

/-- A caller leaves its slot to nobody, or to a server that is alive. -/
theorem SlotInv.of_wake (h : SlotInv k) (hp : k.doing p = .calling slot call timed)
    (hCaller : r.caller = (k.requests slot).caller) (hCall : r.call = (k.requests slot).call)
    (hr : ¬ Awaited r) (hOwed : Owed r → k.live r.server = true) :
    SlotInv ((k.setRequest slot r).setDoing p .running) := by
  have hSet := h.of_request hCaller hCall (fun hAwaited => absurd hAwaited hr) hOwed
  refine hSet.of_doing fun i hi => ?_
  rintro rfl
  -- the task sleeps on this slot, and its slot is not awaited any more
  obtain ⟨timed', hDoing⟩ := hSet.waiting i hi
  have hSlot : i = slot := by
    have hBoth : Doing.calling i _ timed' = Doing.calling slot call timed := hDoing.symm.trans hp
    exact (Doing.calling.inj hBoth).1
  subst hSlot
  simp only [setRequest, update_self] at hi
  exact hr hi

/-- Steps that leave slots and sleepers alone. -/
theorem SlotInv.of_same (h : SlotInv k) (hRequests : k'.requests = k.requests)
    (hDoing : k'.doing = k.doing) (hLive : k'.live = k.live) : SlotInv k' := by
  refine ⟨fun i hi => ?_, fun i hi => ?_⟩
  · rw [hRequests] at hi ⊢
    rw [hDoing]
    exact h.waiting i hi
  · rw [hRequests] at hi ⊢
    rw [hLive]
    exact h.serving i hi

theorem portCreate_slotInv (h : SlotInv k) (name : Nat) : SlotInv (portCreate k p name).1 := by
  rcases portCreate_cases k p name with hEq | ⟨_, -, -, hEq⟩ <;> rw [hEq]
  · exact h
  · exact h.of_same rfl rfl rfl

theorem portDestroyLocked_slotInv (hInv : RunInv k) (h : SlotInv k)
    (hOk : Tidy k (.portDestroy p port)) : SlotInv (portDestroyLocked k p port).1 := by
  unfold portDestroyLocked
  split
  · exact h
  next hOwn =>
  push Not at hOwn
  refine ⟨fun i hi => ?_, fun i hi => ?_⟩
  · -- whoever slept on the slot still does, and there was somebody
    have hAwaited : Awaited (k.requests i) := by
      by_cases hPort : (k.requests i).port = port
      · have hNot : (k.requests i).state ≠ .dropped := fun hDropped =>
          hOk (by simpa using hOwn.1) hOwn.2 i (hInv.owed i (.inr hDropped)).2.2.2 hDropped hPort
        have hFree : (k.requests i).state ≠ .free := fun hFree => by
          simp [strand, hFree, Awaited] at hi
        cases hState : (k.requests i).state <;> simp_all [Awaited]
      · simpa [strand, hPort] using hi
    simp only [strand_caller, strand_call]
    exact h.waiting i hAwaited
  · obtain ⟨-, hSame⟩ := strand_owed hi
    simp only [hSame] at hi ⊢
    exact h.serving i hi

theorem callStart_slotInv (h : SlotInv k) (hp : Active k p) (port : Nat) (msg : Message π)
    (timed : Bool) : SlotInv (callStart k p port msg timed).1 := by
  rcases callStart_cases k p port msg timed with hEq | ⟨slot, -, -, hEq⟩ <;> rw [hEq]
  · exact h
  refine ⟨fun i hi => ?_, fun i hi => ?_⟩
  · by_cases hEq : i = slot
    · subst hEq
      simp [setRequest, setDoing]
    · simp only [setRequest, setDoing, update_of_ne hEq] at hi ⊢
      rw [update_of_ne (h.caller_ne (by simp [hp.2]) hi)]
      exact h.waiting i hi
  · by_cases hEq : i = slot
    · subst hEq
      simp [setRequest, setDoing, Owed] at hi
    · simp only [setRequest, setDoing, update_of_ne hEq] at hi ⊢
      exact h.serving i hi

theorem stopWaiting_slotInv (h : SlotInv k) (hp : k.doing p = .calling slot call timed) :
    SlotInv (stopWaiting k p slot) := by
  refine h.of_wake hp rfl rfl ?_ fun hOwed => ?_
  · by_cases hTaken : (k.requests slot).state = .taken <;> simp [Awaited, hTaken]
  · by_cases hTaken : (k.requests slot).state = .taken
    · exact h.serving slot (.inl hTaken)
    · simp [Owed, hTaken] at hOwed

theorem callCollect_slotInv (h : SlotInv k) (heap : Bool)
    (hp : k.doing p = .calling slot call timed) : SlotInv (callCollect heap k p slot call).1 := by
  have hWake := h.of_wake hp (r := { k.requests slot with
    state := .free
    body := (callCollect heap k p slot call).2.2 }) rfl rfl (by simp [Awaited]) (by simp [Owed])
  exact hWake.of_same rfl rfl rfl

theorem take_slotInv (h : SlotInv k) (hLive : k.live p = true)
    (hTake : take k p port = some (k', i)) : SlotInv k' := by
  obtain ⟨hQueued, -, -, rfl⟩ := take_eq hTake
  have hSet : SlotInv (k.setRequest i { k.requests i with state := .taken, server := p }) :=
    h.of_request rfl rfl (fun _ => .inl hQueued) fun _ => hLive
  exact hSet.of_same rfl rfl rfl

theorem SlotInv.of_recv (h : SlotInv k) (hLive : k.live p = true)
    (hNot : ∀ slot call timed, k.doing p ≠ .calling slot call timed) (hEnds : RecvEnds k p port k') :
    SlotInv k' := by
  cases hEnds with
  | same => exact h
  | sleep | wake => exact h.of_doing fun i hi => h.caller_ne hNot hi
  | took hTake => exact take_slotInv h hLive hTake
  | @tookAwake k' _ hTake =>
    have hDoing : k'.doing = k.doing := by
      obtain ⟨-, -, -, rfl⟩ := take_eq hTake
      rfl
    have hTaken := take_slotInv h hLive hTake
    exact hTaken.of_doing fun i hi => hTaken.caller_ne (hDoing ▸ hNot) hi

theorem reply_slotInv (h : SlotInv k) (slot call : Nat) (msg : Message π) :
    SlotInv (reply k p slot call msg) := by
  have hReply : SlotInv (replyTo k p slot msg).1 := by
    rcases replyTo_cases k p slot msg with hEq | ⟨-, -, hEq⟩ | ⟨hTaken, -, _, -, hEq⟩ <;> rw [hEq]
    · exact h
    · exact h.of_request rfl rfl (by simp [Awaited]) (by simp [Owed])
    · exact h.of_request rfl rfl (fun _ => .inr (.inl hTaken)) (by simp [Owed])
  exact hReply.of_same rfl rfl rfl

variable {pid : Nat} {e : Event π}

/-- A slot somebody waits for after the end of a process had somebody waiting before. -/
theorem awaited_of_orphan (hr : Awaited (orphan pid r)) : Awaited r := by
  unfold orphan at hr
  split_ifs at hr with h₁ h₂ h₃ h₄ hTaken
  · exact hr
  · simp [Awaited] at hr
  · exact .inr (.inl h₃.2)
  · simp [Awaited] at hr
  · simp [Awaited] at hr
  · exact hr

theorem orphan_of_served (hTaken : r.state = .taken) (hServer : r.server = pid) :
    (orphan pid r).state = .abandoned := by
  simp [orphan, hTaken, hServer]

theorem exitCurrent_slotInv (hInv : RunInv k) (h : SlotInv k) (hOk : Tidy k (.exit p)) :
    SlotInv (exitCurrent k p) := by
  obtain ⟨o, ports, requests, hEq, hCases⟩ := exitCurrent_eq k p
  have hLt : ∀ i, Owed (k.requests i) → i < kMaxRequests := fun i hi => (hInv.owed i hi).2.2.2
  -- a server that stays alive is another task
  have hLive : ∀ i, Owed (k.requests i) → (k.requests i).server ≠ p →
      update k.live p false (k.requests i).server = true := fun i hi hNe =>
    (update_of_ne hNe _ _).trans (h.serving i hi)
  rw [hEq]
  refine ⟨fun i hi => ?_, fun i hi => ?_⟩
  · simp only at hi ⊢
    rcases hCases with ⟨-, -, -, rfl⟩ | ⟨-, -, hSlots⟩
    · exact h.waiting i hi
    rcases hSlots i with hSame | ⟨hOwner, hState, hAbandoned⟩
    · rw [hSame] at hi ⊢
      simp only [orphan_fields]
      exact h.waiting i (awaited_of_orphan hi)
    · have hNot : (k.requests i).state ≠ .dropped := fun hDropped => by
        obtain ⟨-, hServer, -, hLt⟩ := hInv.owed i (.inr hDropped)
        exact (hOk i hLt (.inr hDropped) (hServer.symm.trans hOwner)).2.2 hDropped
      simp only [hAbandoned, orphan_fields]
      refine h.waiting i ?_
      cases hCase : (k.requests i).state <;> simp_all [Awaited]
  · simp only at hi ⊢
    rcases hCases with ⟨hAlive, -, -, rfl⟩ | ⟨-, -, hSlots⟩
    · refine hLive i hi fun hServer => ?_
      have hLast := (hOk i (hLt i hi) hi hServer).1
      rw [hAlive] at hLast
      cases hLast
    rcases hSlots i with hSame | ⟨-, -, hAbandoned⟩
    · rw [hSame] at hi ⊢
      have hOwed := orphan_owed hi
      simp only [orphan_fields]
      refine hLive i hOwed fun hServer => ?_
      obtain ⟨-, hLeader, hNot⟩ := hOk i (hLt i hOwed) hOwed hServer
      have hGone := orphan_of_served (hOwed.resolve_right hNot) (hServer.trans hLeader.symm)
      simp [Owed, hGone] at hi
    · rw [hAbandoned] at hi
      have hOwed := orphan_owed hi
      simp [Owed] at hOwed

/-- A new task is nobody's caller. -/
theorem SlotInv.of_spawn (hInv : RunInv k) (h : SlotInv k) (o : Objects) (group : Nat) :
    SlotInv (k.spawned o group) := by
  refine ⟨fun i hi => ?_, fun i hi => ?_⟩
  · obtain ⟨timed, hDoing⟩ := h.waiting i hi
    have hNe : (k.requests i).caller ≠ k.nextPid :=
      (hInv.live_lt _ (hInv.sleeper_live _ (by simp [hDoing]))).ne
    exact ⟨timed, (update_of_ne hNe _ _).trans hDoing⟩
  · have hNe : (k.requests i).server ≠ k.nextPid := (hInv.live_lt _ (h.serving i hi)).ne
    exact (update_of_ne hNe _ _).trans (h.serving i hi)

/-- **A tidy step leaves every slot with an owner.** -/
theorem slotInv_step (hInv : RunInv k) (h : SlotInv k) (hOk : Tidy k e) (hStep : Step k e k') :
    SlotInv k' := by
  have hObjects := objects_of_step hStep
  cases hStep with
  | portCreate name hp => exact portCreate_slotInv h name
  | portDestroy port hp => exact portDestroyLocked_slotInv hInv h hOk
  | callStart port msg timed hp => exact callStart_slotInv h hp port msg timed
  | callCollect heap hp hDone => exact callCollect_slotInv h heap hp
  | callTimeout hp hDone | callSignal hp hDone => exact stopWaiting_slotInv h hp
  | tryRecv port hp => exact h.of_recv hp.1 (by simp [hp.2]) (tryRecv_ends k _ port)
  | recvStart port hp => exact h.of_recv hp.1 (by simp [hp.2]) (recvStart_ends k _ port)
  | recvWake giveUp hp =>
    exact h.of_recv (hInv.sleeper_live _ (by simp [hp])) (by simp [hp]) (recvWake_ends k _ _ giveUp)
  | reply msg hp hHas => exact reply_slotInv h _ _ msg
  | exit hp => exact exitCurrent_slotInv hInv h hOk
  | fork heap hp => exact h.of_spawn hInv _ _
  | thread hp => exact h.of_spawn hInv k.objects _
  | give | imageFind | imageCreate | close | duplicate =>
    obtain ⟨o, c, hEq⟩ := hObjects trivial
    exact hEq ▸ h.of_same rfl rfl rfl

/-! ## Letting go -/

theorem Reclaimable.of_step (hStep : Step k e k') (h : Reclaimable k' i) :
    Reclaimable k i := by
  obtain ⟨es, k'', hRun, hFree⟩ := h
  exact ⟨[] ++ [e] ++ es, k'', (Run.snoc (Run.nil k) hStep).append hRun, hFree⟩

theorem reclaimable_of_free (hFree : (k.requests i).state = .free) : Reclaimable k i :=
  ⟨[], k, .nil k, hFree⟩

/-- A task that is alive can be awake one step later, without a word about a slot it does
not sleep on. -/
theorem exists_awake (hInv : RunInv k) (hLive : k.live p = true) (hNot : ¬ Awaited (k.requests i)) :
    ∃ es k', Run Step k es k' ∧ Active k' p ∧
      k'.requests i = k.requests i ∧ k'.obtained = k.obtained := by
  have hOne : ∀ {e k'}, Step k e k' → Run Step k [e] k' := fun hStep => .snoc (.nil k) hStep
  cases hDoing : k.doing p with
  | running => exact ⟨[], k, .nil k, ⟨hLive, hDoing⟩, rfl, rfl⟩
  | receiving port =>
    have hWake : recvWake k p port true = k.setDoing p .running := by simp [recvWake]
    refine ⟨_, _, hOne (.recvWake true hDoing), ?_⟩
    rw [hWake]
    exact ⟨⟨hLive, by simp [setDoing]⟩, rfl, rfl⟩
  | calling slot call timed =>
    have hNe : i ≠ slot := by
      rintro rfl
      exact hNot (hInv.calling p i call timed hDoing).2.2
    by_cases hDone : Done (k.requests slot)
    · refine ⟨_, _, hOne (.callCollect true hDoing hDone), ⟨hLive, ?_⟩, ?_, rfl⟩
      · simp [callCollect, setDoing]
      · exact update_of_ne hNe _ _
    · refine ⟨_, _, hOne (.callSignal hDoing hDone), ⟨hLive, ?_⟩, ?_, rfl⟩
      · simp [stopWaiting, setDoing]
      · exact update_of_ne hNe _ _

/-- The answer nobody waits for gives the slot back. -/
theorem reclaimable_of_dropped (hInv : RunInv k) (hDropped : (k.requests i).state = .dropped)
    (hLive : k.live (k.requests i).server = true) : Reclaimable k i := by
  obtain ⟨-, -, hHas, hLt⟩ := hInv.owed i (.inr hDropped)
  have hNot : ¬ Awaited (k.requests i) := by simp [Awaited, hDropped]
  obtain ⟨es, k', hRun, hActive, hSame, hObtained⟩ := exists_awake hInv hLive hNot
  rw [← hObtained] at hHas
  refine ⟨es ++ [_], _, .snoc hRun (.reply (k.requests i).body hActive (.inl hHas)), ?_⟩
  simp [reply, replyTo, hSame, hDropped, Nat.not_le.mpr hLt, setRequest]

theorem reclaimable_of_inv (hInv : RunInv k) (h : SlotInv k) (i : Nat) : Reclaimable k i := by
  cases hState : (k.requests i).state with
  | free => exact reclaimable_of_free hState
  | queued =>
    obtain ⟨timed, hDoing⟩ := h.waiting i (.inl hState)
    have hDone : ¬ Done (k.requests i) := by simp [Done, hState]
    refine .of_step (.callSignal hDoing hDone) (reclaimable_of_free ?_)
    simp [stopWaiting, setRequest, setDoing, hState]
  | taken =>
    -- the caller gives up, and then the server answers nobody
    obtain ⟨timed, hDoing⟩ := h.waiting i (.inr (.inl hState))
    have hDone : ¬ Done (k.requests i) := by simp [Done, hState]
    have hStep := Step.callSignal hDoing hDone
    refine .of_step hStep (reclaimable_of_dropped (runInv_step hInv hStep) ?_ ?_)
    · simp [stopWaiting, setRequest, setDoing, hState]
    · have hLive := h.serving i (.inl hState)
      simpa [stopWaiting, setRequest, setDoing] using hLive
  | answered =>
    obtain ⟨timed, hDoing⟩ := h.waiting i (.inr (.inr (.inl hState)))
    refine .of_step (.callCollect true hDoing (.inl hState)) (reclaimable_of_free ?_)
    simp [callCollect, setRequest, setDoing]
  | abandoned =>
    obtain ⟨timed, hDoing⟩ := h.waiting i (.inr (.inr (.inr hState)))
    refine .of_step (.callCollect true hDoing (.inr hState)) (reclaimable_of_free ?_)
    simp [callCollect, setRequest, setDoing]
  | dropped => exact reclaimable_of_dropped hInv hState (h.serving i (.inr hState))

theorem hasOwner_of_inv (hInv : RunInv k) (h : SlotInv k) (i : Nat) : HasOwner k i := by
  have hCaller : Awaited (k.requests i) → CallerInside k i := fun hi => by
    obtain ⟨timed, hDoing⟩ := h.waiting i hi
    exact ⟨hInv.sleeper_live _ (by simp [hDoing]), timed, hDoing⟩
  unfold HasOwner
  split
  · trivial
  next hState => exact hCaller (.inl hState)
  next hState => exact hCaller (.inr (.inr (.inl hState)))
  next hState => exact hCaller (.inr (.inr (.inr hState)))
  next hState => exact h.serving i (.inl hState)
  next hState => exact h.serving i (.inr hState)

end Steps

/-- **In a tidy run every slot is somebody's, and can be free again.** -/
theorem noSlotLost_of_tidy {k₀ k : Machine π} {es : List (Event π)} (hInit : Initial k₀)
    (hRun : Run (Restrict Tidy Step) k₀ es k) : NoSlotLost k := by
  obtain ⟨hInv, hSlot⟩ := hRun.invariant_with (J := RunInv) (I := SlotInv)
    (fun _ _ _ => runInv_step) (fun _ _ _ => slotInv_step) hInit.inv hInit.slotInv
  exact fun i => ⟨hasOwner_of_inv hInv hSlot i, reclaimable_of_inv hInv hSlot i⟩

/-! ## A slot that is lost for good

The server is `1`. A thread of the process `2` calls it, gives up and exits; the server
then destroys the port. The slot is abandoned, and nobody will ever look at it again: not
the thread, and not the process when it ends, since the slot has the number of the
thread. -/

/-- The slot is abandoned, its caller is gone, and no task is of a group of that number. -/
structure Stuck (i : Nat) (k : Machine π) : Prop where
  abandoned : (k.requests i).state = .abandoned
  caller_lt : (k.requests i).caller < k.nextPid
  gone : ∀ p, k.live p = true → p ≠ (k.requests i).caller ∧ k.tgid p ≠ (k.requests i).caller

section Stuck
variable {k k' : Machine π} {p i : Nat}

theorem Stuck.of_same (h : Stuck i k) (hState : (k'.requests i).state = .abandoned)
    (hCaller : (k'.requests i).caller = (k.requests i).caller) (hNext : k'.nextPid = k.nextPid)
    (hLive : ∀ p, k'.live p = true → k.live p = true) (hTgid : k'.tgid = k.tgid) : Stuck i k' := by
  refine ⟨hState, ?_, fun p hp => ?_⟩
  · rw [hCaller, hNext]
    exact h.caller_lt
  · rw [hCaller, hTgid]
    exact h.gone p (hLive p hp)

/-- Steps on another slot, and what comes with them. -/
theorem Stuck.of_requests (h : Stuck i k) (hSame : k'.requests i = k.requests i)
    (hNext : k'.nextPid = k.nextPid) (hLive : k'.live = k.live) (hTgid : k'.tgid = k.tgid) :
    Stuck i k' :=
  h.of_same (hSame ▸ h.abandoned) (by rw [hSame]) hNext (fun p hp => hLive ▸ hp) hTgid

variable {port slot : Nat}

/-- Nobody who sleeps in a call sleeps on the slot. -/
theorem Stuck.slot_ne (hInv : RunInv k) (h : Stuck i k) {call : Nat} {timed : Bool}
    (hp : k.doing p = .calling slot call timed) : i ≠ slot := by
  rintro rfl
  have hLive := hInv.sleeper_live p (by simp [hp])
  exact (h.gone p hLive).1 (hInv.calling p i call timed hp).1.symm

theorem take_stuck (h : Stuck i k) {j : Nat} (hTake : take k p port = some (k', j)) :
    Stuck i k' := by
  obtain ⟨hQueued, -, -, rfl⟩ := take_eq hTake
  have hNe : i ≠ j := by
    rintro rfl
    simp [h.abandoned] at hQueued
  exact h.of_requests (update_of_ne hNe _ _) rfl rfl rfl

theorem Stuck.of_recv (h : Stuck i k) (hEnds : RecvEnds k p port k') : Stuck i k' := by
  cases hEnds with
  | same => exact h
  | sleep | wake => exact h.of_requests rfl rfl rfl rfl
  | took hTake => exact take_stuck h hTake
  | tookAwake hTake => exact (take_stuck h hTake).of_requests rfl rfl rfl rfl

theorem replyTo_of_abandoned (msg : Message π) (hState : (k.requests slot).state = .abandoned) :
    (replyTo k p slot msg).1 = k := by
  rcases replyTo_cases k p slot msg with hEq | ⟨hDropped, -⟩ | ⟨hTaken, -⟩
  · exact hEq
  · simp [hState] at hDropped
  · simp [hState] at hTaken

theorem orphan_of_abandoned {pid : Nat} {r : Request π} (hState : r.state = .abandoned)
    (hCaller : pid ≠ r.caller) : orphan pid r = r := by
  simp [orphan, hState, hCaller.symm]

theorem exitCurrent_stuck (h : Stuck i k) (hp : Active k p) : Stuck i (exitCurrent k p) := by
  obtain ⟨o, ports, requests, hEq, hCases⟩ := exitCurrent_eq k p
  have hSlot : requests i = k.requests i := by
    rcases hCases with ⟨-, -, -, rfl⟩ | ⟨-, -, hSlots⟩
    · rfl
    have hOther := (h.gone p hp.1).2
    rcases hSlots i with hSame | ⟨-, -, hSame⟩
    · rw [hSame, orphan_of_abandoned h.abandoned hOther]
    · have hKeep : { k.requests i with state := .abandoned } = k.requests i := by
        rw [← h.abandoned]
      rw [hSame, hKeep, orphan_of_abandoned h.abandoned hOther]
  rw [hEq]
  refine h.of_same ((congrArg Request.state hSlot).trans h.abandoned)
    (congrArg Request.caller hSlot) rfl (fun q hq => ?_) rfl
  by_cases hSelf : q = p
  · exact hSelf ▸ hp.1
  · exact (update_of_ne hSelf _ _).symm.trans hq

theorem Stuck.of_spawn (h : Stuck i k) (o : Objects) {group : Nat}
    (hGroup : group ≠ (k.requests i).caller) :
    Stuck i (k.spawned o group) := by
  refine ⟨h.abandoned, Nat.lt_succ_of_lt h.caller_lt, fun q hq => ?_⟩
  by_cases hEq : q = k.nextPid
  · subst hEq
    refine ⟨h.caller_lt.ne', ?_⟩
    simpa using hGroup
  · have hGone := h.gone q ((update_of_ne hEq _ _).symm.trans hq)
    exact ⟨hGone.1, by simpa [update_of_ne hEq] using hGone.2⟩

theorem stuck_step {e : Event π} (hInv : RunInv k) (h : Stuck i k) (hStep : Step k e k') :
    Stuck i k' := by
  have hObjects := objects_of_step hStep
  cases hStep with
  | @portCreate p name hp =>
    rcases portCreate_cases k p name with hEq | ⟨_, -, -, hEq⟩ <;> rw [hEq]
    · exact h
    · exact h.of_requests rfl rfl rfl rfl
  | @portDestroy p port hp =>
    obtain ⟨_, _, hEq⟩ := portDestroyLocked_eq k p port
    rcases portDestroyLocked_requests k p port i with hSame | hSame <;> rw [hEq] at hSame ⊢
    · exact h.of_requests hSame rfl rfl rfl
    · exact h.of_same (by rw [hSame]) (by rw [hSame]) rfl (fun _ => id) rfl
  | @callStart p port msg timed hp =>
    rcases callStart_cases k p port msg timed with hEq | ⟨slot, -, hFree, hEq⟩ <;> rw [hEq]
    · exact h
    · have hNe : i ≠ slot := by
        rintro rfl
        simp [h.abandoned] at hFree
      exact h.of_requests (update_of_ne hNe _ _) rfl rfl rfl
  | callCollect _ hp _ | callTimeout hp _ | callSignal hp _ =>
    exact h.of_requests (update_of_ne (h.slot_ne hInv hp) _ _) rfl rfl rfl
  | tryRecv port hp => exact h.of_recv (tryRecv_ends k _ port)
  | recvStart port hp => exact h.of_recv (recvStart_ends k _ port)
  | recvWake giveUp hp => exact h.of_recv (recvWake_ends k _ _ giveUp)
  | @reply p slot call msg hp hHas =>
    obtain ⟨requests, hEq⟩ := replyTo_eq k p slot msg
    have hSame : (replyTo k p slot msg).1.requests i = k.requests i := by
      by_cases hSlot : i = slot
      · subst hSlot
        rw [replyTo_of_abandoned msg h.abandoned]
      · exact replyTo_requests_of_ne k p slot msg hSlot
    unfold reply
    rw [hEq] at hSame ⊢
    exact h.of_requests hSame rfl rfl rfl
  | exit hp => exact exitCurrent_stuck h hp
  | fork heap hp => exact h.of_spawn _ h.caller_lt.ne'
  | thread hp => exact h.of_spawn k.objects (h.gone _ hp.1).2
  | give | imageFind | imageCreate | close | duplicate =>
    obtain ⟨o, c, hEq⟩ := hObjects trivial
    exact hEq ▸ h.of_requests rfl rfl rfl rfl

/-- Such a slot is lost. -/
theorem Stuck.not_reclaimable (hInv : RunInv k) (h : Stuck i k) : ¬ Reclaimable k i := by
  rintro ⟨es, k', hRun, hFree⟩
  have hStep : ∀ (k : Machine π) e k', RunInv k ∧ Stuck i k → Step k e k' →
      RunInv k' ∧ Stuck i k' := by
    rintro k e k' ⟨hInv, hStuck⟩ hStep
    exact ⟨runInv_step hInv hStep, stuck_step hInv hStuck hStep⟩
  have hStuck := (hRun.invariant hStep ⟨hInv, h⟩).2
  rw [hStuck.abandoned] at hFree
  cases hFree

end Stuck

/-- A thread of `2` calls, gives up and exits; the server destroys the port. -/
def lostEvents : List (Event Nat) :=
  [.portCreate 1 2, .thread 2, .callStart 3 0 (plain 30) true, .tryRecv 1 0, .callTimeout 3, .exit 3,
    .portDestroy 1 0]

/-- The slot is not free, and no run will ever free it. -/
theorem not_noSlotLost_lostEvents :
    ¬ ∀ (k₀ k : Machine Nat) (es : List (Event Nat)), Initial k₀ → Run Step k₀ es k →
      NoSlotLost k := by
  intro hAll
  obtain ⟨k, hRun, hState, hCaller, hNext, hGone⟩ : ∃ k, Run Step (boot 0 2) lostEvents k ∧
      (k.requests 0).state = .abandoned ∧ (k.requests 0).caller = 3 ∧ k.nextPid = 4 ∧
        ∀ p ∈ List.range 4, k.live p = true → p ≠ 3 ∧ k.tgid p ≠ 3 :=
    Run.exists_of_foldlM (fun _ _ _ => step_of_next) (by decide)
  have hInv := runInv_run (boot_initial 0 2) hRun
  have hStuck : Stuck 0 k := by
    refine ⟨hState, by omega, fun p hp => ?_⟩
    rw [hCaller]
    exact hGone p (List.mem_range.mpr (hNext ▸ hInv.live_lt p hp)) hp
  exact hStuck.not_reclaimable hInv (hAll _ _ _ (boot_initial 0 2) hRun 0).2

/-- The same thread, and a server that answers before it lets its port go. -/
def tidyEvents : List (Event Nat) :=
  [.portCreate 1 2, .thread 2, .callStart 3 0 (plain 30) true, .tryRecv 1 0, .callTimeout 3, .exit 3,
    .reply 1 0 0 (plain 31), .callStart 2 0 (plain 20) false, .tryRecv 1 0, .portDestroy 1 0]

/-- The slot is abandoned, and the caller is there to collect it. -/
theorem noSlotLost_tidyEvents :
    ∃ k : Machine Nat, (k.requests 0).state = .abandoned ∧ NoSlotLost k := by
  obtain ⟨k, hRun, hState⟩ : ∃ k, Run (Restrict Tidy Step) (boot 0 2) tidyEvents k ∧
      (k.requests 0).state = .abandoned :=
    Run.exists_of_guarded (fun _ _ _ => step_of_next) (by decide)
  exact ⟨k, hState, noSlotLost_of_tidy (boot_initial 0 2) hRun⟩

end LeahOS.Kernel
