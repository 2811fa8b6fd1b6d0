import LeahOS.Kernel.System

/-!
# Which request a reply answers

A server answers a request by the number of its slot, and slot numbers are reused. The
number a server got for one call is meant to answer that call only: when a call returns
0, what it copies out should be something a server passed to `reply` with the number it
got by taking this very call.

Nothing in the kernel checks that. A slot that a server holds can be freed under it, by
the end of its caller or of its port, and given to another call; and a server may use a
number twice. `Orderly` rules these out, and `repliesMatch_of_orderly` says that they
are all there is.
-/

namespace LeahOS.Kernel
open Lib Function List
variable {π : Type}

/-- Somebody passed this payload to `reply`, with the number it got by taking the call. -/
def Replied (k : Machine π) (call : Nat) (payload : π) : Prop :=
  ∃ x msg, (x, msg) ∈ k.sent ∧ x ∈ k.obtained ∧ x.call = call ∧ msg.payload = payload

/-- What every call that returned 0 copied out answers this call. -/
def RepliesMatch (k : Machine π) : Prop :=
  ∀ call msg, (call, msg) ∈ k.returned → Replied k call msg.payload

/-- A server uses each number it got once; it destroys no port on which it still owes an
answer; and no process ends whose call some other server still holds after the caller
gave up. -/
def Orderly (k : Machine π) : Event π → Prop
  | .reply p slot call _ => ⟨p, slot, call⟩ ∈ k.obtained → ⟨p, slot, call⟩ ∈ k.held
  | .portDestroy p port => validPort k port = true → (k.ports port).owner = p →
      ∀ i < kMaxRequests, Owed (k.requests i) → (k.requests i).port ≠ port
  | .exit p => groupStillAlive k p = false → ∀ i < kMaxRequests,
      (k.requests i).state = .dropped → (k.requests i).caller = k.tgid p →
        (k.requests i).server = k.tgid p
  | _ => True

instance (k : Machine π) (e : Event π) : Decidable (Orderly k e) := by
  induction e using Event.casesOn <;> unfold Orderly <;> infer_instance

/-- The task `x.pid` is alive and its slot is still the one it took. -/
structure Owes (k : Machine π) (x : Held) : Prop where
  live : k.live x.pid = true
  obtained : x ∈ k.obtained
  owed : Owed (k.requests x.slot)
  server : (k.requests x.slot).server = x.pid
  call : (k.requests x.slot).call = x.call

/-- The invariant of orderly runs. -/
structure ReplyInv (k : Machine π) : Prop where
  held : ∀ x ∈ k.held, Owes k x
  nodup : k.held.Nodup
  answered : ∀ i, (k.requests i).state = .answered →
    Replied k (k.requests i).call (k.requests i).body.payload
  returned : RepliesMatch k

theorem Initial.replyInv {k : Machine π} (h : Initial k) : ReplyInv k where
  held x hx := by simp [h.held_eq] at hx
  nodup := by simp [h.held_eq]
  answered i hi := by simp [h.requests_eq i] at hi
  returned call msg hm := by simp [h.returned_eq] at hm

section Steps
variable {k k' : Machine π} {p : Nat} {call port slot : Nat} {x : Held} {r : Request π}
  {timed : Bool}

theorem Replied.mono {payload : π} (h : Replied k call payload) (hSent : k.sent ⊆ k'.sent)
    (hObtained : k.obtained ⊆ k'.obtained) :
    Replied k' call payload := by
  obtain ⟨x, msg, hSaid, hHas, hCall, hPayload⟩ := h
  exact ⟨x, msg, hSent hSaid, hObtained hHas, hCall, hPayload⟩

/-- Two numbers held for one slot are one. -/
theorem Owes.eq_of_slot {y : Held} (hx : Owes k x) (hy : Owes k y) (hSlot : x.slot = y.slot) :
    x = y := by
  have hPid := hx.server.symm.trans (hSlot ▸ hy.server)
  have hCall := hx.call.symm.trans (hSlot ▸ hy.call)
  cases x
  cases y
  simp_all

/-- A server whose slot did not change owes what it owed. -/
theorem Owes.of_same (hx : Owes k x) (hLive : k'.live x.pid = true)
    (hObtained : k.obtained ⊆ k'.obtained) (hSame : k'.requests x.slot = k.requests x.slot) :
    Owes k' x :=
  ⟨hLive, hObtained hx.obtained, hSame ▸ hx.owed, hSame ▸ hx.server, hSame ▸ hx.call⟩

/-- A step that says nothing, takes nothing and answers nothing. -/
theorem ReplyInv.of_quiet (h : ReplyInv k) (hObtained : k'.obtained = k.obtained)
    (hSent : k'.sent = k.sent) (hReturned : k'.returned = k.returned)
    (hHeld : k'.held.Sublist k.held) (hOwes : ∀ x ∈ k'.held, Owes k x → Owes k' x)
    (hAnswered : ∀ i, (k'.requests i).state = .answered → k'.requests i = k.requests i) :
    ReplyInv k' := by
  have hMono : ∀ {call payload}, Replied k call payload → Replied k' call payload := fun hr =>
    hr.mono (by rw [hSent]; exact List.Subset.refl _) (by rw [hObtained]; exact List.Subset.refl _)
  refine ⟨fun x hx => hOwes x hx (h.held x (hHeld.subset hx)), h.nodup.sublist hHeld,
    fun i hi => ?_, fun call msg hm => ?_⟩
  · have hSame := hAnswered i hi
    rw [hSame] at hi ⊢
    exact hMono (h.answered i hi)
  · rw [hReturned] at hm
    exact hMono (h.returned call msg hm)

/-- Such a step that changes one slot, and that slot is owed to nobody. -/
theorem ReplyInv.of_slot (h : ReplyInv k) (hObtained : k'.obtained = k.obtained)
    (hSent : k'.sent = k.sent) (hReturned : k'.returned = k.returned) (hHeld : k'.held = k.held)
    (hLive : k'.live = k.live) (hRequests : k'.requests = update k.requests slot r)
    (hOwed : Owed (k.requests slot) → Owed r ∧ r.server = (k.requests slot).server ∧
      r.call = (k.requests slot).call) (hr : r.state ≠ .answered) : ReplyInv k' := by
  refine h.of_quiet hObtained hSent hReturned (by rw [hHeld]) (fun x _ hx => ?_) fun i hi => ?_
  · by_cases hEq : x.slot = slot
    · obtain ⟨hrOwed, hrServer, hrCall⟩ := hOwed (hEq ▸ hx.owed)
      refine ⟨hLive ▸ hx.live, hObtained ▸ hx.obtained, ?_, ?_, ?_⟩ <;>
        rw [hRequests, hEq, update_self]
      · exact hrOwed
      · rw [hrServer, ← hEq, hx.server]
      · rw [hrCall, ← hEq, hx.call]
    · refine hx.of_same (hLive ▸ hx.live) (by rw [hObtained]; exact List.Subset.refl _) ?_
      rw [hRequests, update_of_ne hEq]
  · rw [hRequests] at hi ⊢
    by_cases hEq : i = slot
    · rw [hEq, update_self] at hi
      exact absurd hi hr
    · rw [update_of_ne hEq]

/-- A step on what no message is about. -/
theorem ReplyInv.of_rest (h : ReplyInv k) (o : Objects) (c : Cache) (ports : Nat → Port)
    (doing : Nat → Doing) :
    ReplyInv { k with objects := o, cache := c, ports := ports, doing := doing } :=
  h.of_quiet rfl rfl rfl (List.Sublist.refl _)
    (fun _ _ hx => hx.of_same hx.live (List.Subset.refl _) rfl) fun _ _ => rfl

theorem portCreate_replyInv (h : ReplyInv k) (name : Nat) : ReplyInv (portCreate k p name).1 := by
  rcases portCreate_cases k p name with hEq | ⟨_, -, -, hEq⟩ <;> rw [hEq]
  · exact h
  · exact h.of_rest _ _ _ _

theorem portDestroyLocked_replyInv (h : ReplyInv k) (hInv : RunInv k)
    (hOk : Orderly k (.portDestroy p port)) : ReplyInv (portDestroyLocked k p port).1 := by
  unfold portDestroyLocked
  split
  · exact h
  next hOwn =>
  push Not at hOwn
  refine h.of_quiet rfl rfl rfl (List.Sublist.refl _) (fun x _ hx => ?_) fun i hi => strand_answered hi
  have hOff := hOk (by simpa using hOwn.1) hOwn.2 x.slot (hInv.owed _ hx.owed).2.2.2 hx.owed
  exact hx.of_same hx.live (List.Subset.refl _) (if_pos (.inl hOff))

theorem callStart_replyInv (h : ReplyInv k) (port : Nat) (msg : Message π) (timed : Bool) :
    ReplyInv (callStart k p port msg timed).1 := by
  rcases callStart_cases k p port msg timed with hEq | ⟨slot, -, hFree, hEq⟩ <;> rw [hEq]
  · exact h
  refine h.of_slot rfl rfl rfl rfl rfl rfl (fun hOwed => ?_) (by simp)
  simp [Owed, hFree] at hOwed

theorem stopWaiting_replyInv (hInv : RunInv k) (h : ReplyInv k)
    (hp : k.doing p = .calling slot call timed) : ReplyInv (stopWaiting k p slot) := by
  have hAwaited := (hInv.calling p slot call timed hp).2.2
  refine h.of_slot rfl rfl rfl rfl rfl rfl (fun hOwed => ⟨?_, rfl, rfl⟩) ?_
  · -- a caller that sleeps has not been dropped yet
    rcases hOwed with hTaken | hDropped
    · exact .inr (if_pos hTaken)
    · simp [Awaited, hDropped] at hAwaited
  · simp only
    split <;> simp

theorem callCollect_replyInv (hInv : RunInv k) (h : ReplyInv k) (heap : Bool)
    (hp : k.doing p = .calling slot call timed) (hDone : Done (k.requests slot)) :
    ReplyInv (callCollect heap k p slot call).1 := by
  obtain ⟨-, hCall, -⟩ := hInv.calling p slot call timed hp
  -- the slot is free again, and nothing is reported yet
  have hFreed : ReplyInv { (callCollect heap k p slot call).1 with returned := k.returned } := by
    refine h.of_slot rfl rfl rfl rfl rfl rfl (fun hOwed => ?_) (by simp)
    rcases hOwed with hOwed | hOwed <;> rcases hDone with hDone | hDone <;>
      rw [hDone] at hOwed <;> cases hOwed
  refine ⟨fun x hx => ?_, hFreed.nodup, hFreed.answered, fun call' msg hm => ?_⟩
  · have hx' := hFreed.held x hx
    exact hx'.of_same hx'.live (List.Subset.refl _) rfl
  · by_cases hAnswered : (k.requests slot).state = .answered
    · simp only [callCollect, hAnswered, beq_self_eq_true, if_true] at hm
      rcases mem_append.mp hm with hOld | hNew
      · exact h.returned call' msg hOld
      · obtain ⟨rfl, rfl⟩ := Prod.mk.inj (mem_singleton.mp hNew)
        have hReplied := h.answered slot hAnswered
        rw [hCall] at hReplied
        exact hReplied
    · have hSame : (callCollect heap k p slot call).1.returned = k.returned := by
        simp [callCollect, hAnswered, Machine.setRequest, Machine.setDoing]
      exact h.returned call' msg (hSame ▸ hm)

/-- A server takes a request: its number is new to it, since the slot was queued. -/
theorem take_replyInv (h : ReplyInv k) (hLive : k.live p = true) {i : Nat}
    (hTake : take k p port = some (k', i)) : ReplyInv k' := by
  obtain ⟨hQueued, -, -, rfl⟩ := take_eq hTake
  have hNe : ∀ x ∈ k.held, x.slot ≠ i := by
    rintro x hx rfl
    have hOwed := (h.held x hx).owed
    simp [Owed, hQueued] at hOwed
  refine ⟨fun x hx => ?_, ?_, fun j hj => ?_, fun call msg hm => ?_⟩
  · rcases mem_cons.mp hx with rfl | hOld
    · refine ⟨hLive, mem_cons_self, .inl ?_, ?_, ?_⟩ <;>
        simp [Machine.setRequest]
    · exact (h.held x hOld).of_same (h.held x hOld).live (subset_cons_self _ _)
        (update_of_ne (hNe x hOld) _ _)
  · exact nodup_cons.mpr ⟨fun hMem => hNe _ hMem rfl, h.nodup⟩
  · have hEq : j ≠ i := by
      rintro rfl
      simp [Machine.setRequest] at hj
    simp only [Machine.setRequest, update_of_ne hEq] at hj ⊢
    exact (h.answered j hj).mono (List.Subset.refl _) (subset_cons_self _ _)
  · exact (h.returned call msg hm).mono (List.Subset.refl _) (subset_cons_self _ _)

theorem ReplyInv.of_recv (h : ReplyInv k) (hLive : k.live p = true) (hEnds : RecvEnds k p port k') :
    ReplyInv k' := by
  cases hEnds with
  | same => exact h
  | sleep | wake => exact h.of_rest _ _ _ _
  | took hTake => exact take_replyInv h hLive hTake
  | tookAwake hTake => exact (take_replyInv h hLive hTake).of_rest _ _ _ _

/-- A number a server never got answers nothing. -/
theorem replyTo_of_stray (hInv : RunInv k) (msg : Message π)
    (hStray : ∀ x ∈ k.obtained, x.pid = p → x.slot ≠ slot) : (replyTo k p slot msg).1 = k := by
  have hNot : Owed (k.requests slot) → (k.requests slot).server ≠ p := fun hOwed hServer =>
    hStray _ (hInv.owed slot hOwed).2.2.1 hServer rfl
  rcases replyTo_cases k p slot msg with hEq | ⟨hDropped, hServer, -⟩ | ⟨hTaken, hServer, -⟩
  · exact hEq
  · exact absurd hServer (hNot (.inr hDropped))
  · exact absurd hServer (hNot (.inl hTaken))

/-- An answer in the slot was there before, or is this message for the call the slot
belongs to. -/
theorem replyTo_answered {msg : Message π}
    (hState : ((replyTo k p slot msg).1.requests slot).state = .answered) :
    (replyTo k p slot msg).1.requests slot = k.requests slot ∨
      (((replyTo k p slot msg).1.requests slot).call = (k.requests slot).call ∧
        ((replyTo k p slot msg).1.requests slot).body.payload = msg.payload) := by
  rcases replyTo_cases k p slot msg with hEq | ⟨-, -, hEq⟩ | ⟨-, -, _, -, hEq⟩
  · rw [hEq]
    exact .inl rfl
  · rw [hEq] at hState
    simp [Machine.setRequest] at hState
  · rw [hEq]
    simp [Machine.setRequest]

/-- A server replies with a number it got: with each of them once, so that the slot is
still the one it took. -/
theorem reply_replyInv (hInv : RunInv k) (h : ReplyInv k) (msg : Message π)
    (hHas : ⟨p, slot, call⟩ ∈ k.obtained ∨ ∀ x ∈ k.obtained, x.pid = p → x.slot ≠ slot)
    (hOk : Orderly k (.reply p slot call msg)) : ReplyInv (reply k p slot call msg) := by
  obtain ⟨requests, hEq⟩ := replyTo_eq k p slot msg
  have hReply : reply k p slot call msg = { k with
      requests := requests
      held := k.held.erase ⟨p, slot, call⟩
      sent := (⟨p, slot, call⟩, msg) :: k.sent } := by
    unfold reply
    rw [hEq]
  have hRequests : (replyTo k p slot msg).1.requests = requests := by rw [hEq]
  -- the numbers that are left are for other slots
  have hSlots : ∀ y ∈ k.held.erase ⟨p, slot, call⟩, requests y.slot = k.requests y.slot := by
    intro y hy
    rw [← hRequests]
    rcases hHas with hHas | hStray
    · obtain ⟨hNe, hMem⟩ := (List.Nodup.mem_erase_iff h.nodup).mp hy
      refine replyTo_requests_of_ne k p slot msg fun hSlot => hNe ?_
      exact (h.held y hMem).eq_of_slot (h.held _ (hOk hHas)) hSlot
    · rw [replyTo_of_stray hInv msg hStray]
  have hKept : ∀ {call' : Nat} {payload : π}, Replied k call' payload →
      Replied (reply k p slot call msg) call' payload := fun hr => by
    rw [hReply]
    exact hr.mono (subset_cons_self _ _) (List.Subset.refl _)
  have hAnswered : ∀ i, (requests i).state = .answered →
      Replied (reply k p slot call msg) (requests i).call (requests i).body.payload := by
    intro i hi
    by_cases hSame : requests i = k.requests i
    · rw [hSame] at hi ⊢
      exact hKept (h.answered i hi)
    have hSlot : i = slot := by
      by_contra hNe
      exact hSame (hRequests ▸ replyTo_requests_of_ne k p slot msg hNe)
    subst hSlot
    rcases hHas with hHas | hStray
    · rw [← hRequests] at hi hSame ⊢
      obtain ⟨hCall, hPayload⟩ := (replyTo_answered hi).resolve_left hSame
      have hOwes := h.held _ (hOk hHas)
      rw [hCall, hPayload, hReply]
      exact ⟨_, msg, mem_cons_self, hHas, hOwes.call.symm, rfl⟩
    · exact absurd (by rw [← hRequests, replyTo_of_stray hInv msg hStray]) hSame
  rw [hReply] at hKept hAnswered ⊢
  refine ⟨fun x hx => ?_, h.nodup.erase _, hAnswered, fun call' msg' hm => hKept (h.returned _ _ hm)⟩
  have hOwes := h.held x (mem_of_mem_erase hx)
  exact hOwes.of_same hOwes.live (List.Subset.refl _) (hSlots x hx)

/-- The end of a process leaves what another server owes, unless the caller of it gave up
before. -/
theorem orphan_owes {pid : Nat} (hr : Owed r) (hServer : r.server ≠ pid)
    (hDropped : r.state = .dropped → r.caller ≠ pid) : Owed (orphan pid r) := by
  have hState : r.state ≠ .free := by
    rcases hr with h | h <;> rw [h] <;> simp
  by_cases hCaller : r.caller = pid
  · have hTaken : r.state = .taken := hr.resolve_right fun h => hDropped h hCaller
    simp [orphan, hServer, hCaller, hTaken, Owed]
  · simpa [orphan, hState, hServer, hCaller] using hr

/-- A task ends. The slots of the servers that are left stay theirs. -/
theorem exitCurrent_replyInv (hInv : RunInv k) (h : ReplyInv k) (hp : Active k p)
    (hOk : Orderly k (.exit p)) : ReplyInv (exitCurrent k p) := by
  obtain ⟨o, ports, requests, hEq, hCases⟩ := exitCurrent_eq k p
  rw [hEq]
  refine h.of_quiet rfl rfl rfl filter_sublist (fun x hx hOwes => ?_) fun i hi => ?_
  · have hNe : x.pid ≠ p := by simpa using (mem_filter.mp hx).2
    have hLive : update k.live p false x.pid = true :=
      (update_of_ne hNe _ _).trans hOwes.live
    rcases hCases with ⟨-, -, -, rfl⟩ | ⟨hLast, -, hSlots⟩
    · exact hOwes.of_same hLive (List.Subset.refl _) rfl
    -- the slot is on a port of its server, so it is not on a port of this task
    have hSame : requests x.slot = orphan (k.tgid p) (k.requests x.slot) := by
      refine (hSlots x.slot).resolve_right fun hStranded => hNe ?_
      rw [← hOwes.server, ← hStranded.1]
      exact (hInv.owed x.slot hOwes.owed).2.1.symm
    have hServer : (k.requests x.slot).server ≠ k.tgid p := fun hEq =>
      hInv.ne_tgid hp.1 hLast hOwes.live hNe (hOwes.server.symm.trans hEq)
    refine ⟨hLive, hOwes.obtained, ?_, ?_, ?_⟩ <;> simp only [hSame]
    · exact orphan_owes hOwes.owed hServer fun hDropped hCaller =>
        hServer (hOk hLast x.slot (hInv.owed _ hOwes.owed).2.2.2 hDropped hCaller)
    · exact (orphan_fields _ _).2.2.2.trans hOwes.server
    · exact (orphan_fields _ _).2.1.trans hOwes.call
  · rcases hCases with ⟨-, -, -, rfl⟩ | ⟨-, -, hSlots⟩
    · rfl
    simp only at hi ⊢
    rcases hSlots i with hSame | ⟨-, -, hAbandoned⟩
    · rw [hSame] at hi ⊢
      exact orphan_answered hi
    · rw [hAbandoned] at hi
      have hKept := orphan_answered hi
      rw [hKept] at hi
      cases hi

/-- A new task has no number yet. -/
theorem ReplyInv.of_spawn (hInv : RunInv k) (h : ReplyInv k) (o : Objects) (group : Nat) :
    ReplyInv (k.spawned o group) := by
  refine h.of_quiet rfl rfl rfl (List.Sublist.refl _) (fun x _ hx => ?_) fun _ _ => rfl
  refine hx.of_same ?_ (List.Subset.refl _) rfl
  have hNe : x.pid ≠ k.nextPid := (hInv.live_lt _ hx.live).ne
  exact (update_of_ne hNe _ _).trans hx.live

/-- **An orderly step keeps the numbers with the calls they were got for.** -/
theorem replyInv_step {e : Event π} (hInv : RunInv k) (h : ReplyInv k) (hOk : Orderly k e)
    (hStep : Step k e k') : ReplyInv k' := by
  have hObjects := objects_of_step hStep
  cases hStep with
  | portCreate name hp => exact portCreate_replyInv h name
  | portDestroy port hp => exact portDestroyLocked_replyInv h hInv hOk
  | callStart port msg timed hp => exact callStart_replyInv h port msg timed
  | callCollect heap hp hDone => exact callCollect_replyInv hInv h heap hp hDone
  | callTimeout hp hDone | callSignal hp hDone => exact stopWaiting_replyInv hInv h hp
  | tryRecv port hp => exact h.of_recv hp.1 (tryRecv_ends k _ port)
  | recvStart port hp => exact h.of_recv hp.1 (recvStart_ends k _ port)
  | recvWake giveUp hp =>
    exact h.of_recv (hInv.sleeper_live _ (by simp [hp])) (recvWake_ends k _ _ giveUp)
  | reply msg hp hHas => exact reply_replyInv hInv h msg hHas hOk
  | exit hp => exact exitCurrent_replyInv hInv h hp hOk
  | fork heap hp => exact h.of_spawn hInv _ _
  | thread hp => exact h.of_spawn hInv k.objects _
  | give | imageFind | imageCreate | close | duplicate =>
    obtain ⟨o, c, hEq⟩ := hObjects trivial
    exact hEq ▸ h.of_rest o c k.ports k.doing

end Steps

/-- **In an orderly run, what a call copies out is what was said to this call.** -/
theorem repliesMatch_of_orderly {k₀ k : Machine π} {es : List (Event π)} (hInit : Initial k₀)
    (hRun : Run (Restrict Orderly Step) k₀ es k) : RepliesMatch k := by
  exact (hRun.invariant_with (J := RunInv) (I := ReplyInv) (fun _ _ _ => runInv_step)
    (fun _ _ _ => replyInv_step) hInit.inv hInit.replyInv).2.returned

/-! ## A number that outlives its call

The processes are a server `1` and two callers `2` and `3`. The first caller gives up
and exits while the server holds its request; that frees the slot, the second caller gets
it, and the server's answer to the first goes to the second. -/

def staleEvents : List (Event Nat) :=
  [.portCreate 1 2, .callStart 2 0 (plain 20) true, .tryRecv 1 0, .callTimeout 2, .exit 2,
    .callStart 3 0 (plain 30) false, .tryRecv 1 0, .reply 1 0 0 (plain 21), .callCollect 3 true]

/-- The call of the second caller returns what was said to the first. -/
theorem not_repliesMatch_staleEvents :
    ¬ ∀ (k₀ k : Machine Nat) (es : List (Event Nat)), Initial k₀ → Run Step k₀ es k →
      RepliesMatch k := by
  intro hAll
  obtain ⟨k, hRun, hSent, hReturned⟩ : ∃ k, Run Step (boot 0 3) staleEvents k ∧
      (k.sent.map fun x => (x.1.call, x.2.payload)) = [(0, 21)] ∧
        (k.returned.map fun x => (x.1, x.2.payload)) = [(1, 21)] :=
    Run.exists_of_foldlM (fun _ _ _ => step_of_next) (by decide)
  have hMatch := hAll _ _ _ (boot_initial 0 3) hRun
  have hMem : (1, 21) ∈ k.returned.map fun x => (x.1, x.2.payload) := by simp [hReturned]
  obtain ⟨⟨call, msg⟩, hOut, hEq⟩ := List.mem_map.mp hMem
  obtain ⟨x, said, hSaid, -, hCall, -⟩ := hMatch call msg hOut
  have hSaid' := List.mem_map_of_mem (f := fun x : Held × Message Nat => (x.1.call, x.2.payload)) hSaid
  rw [hSent] at hSaid'
  simp_all

/-- The same server, careful: it answers the first call, late as it is, before the slot
goes to the second caller. -/
def lateEvents : List (Event Nat) :=
  [.portCreate 1 2, .callStart 2 0 (plain 20) true, .tryRecv 1 0, .callTimeout 2,
    .reply 1 0 0 (plain 21), .exit 2, .callStart 3 0 (plain 30) false, .tryRecv 1 0,
    .reply 1 0 1 (plain 31), .callCollect 3 true]

/-- The second caller gets its own answer. -/
theorem repliesMatch_lateEvents :
    ∃ k : Machine Nat, (k.returned.map fun x => (x.1, x.2.payload)) = [(1, 31)] ∧ RepliesMatch k := by
  obtain ⟨k, hRun, hReturned⟩ : ∃ k, Run (Restrict Orderly Step) (boot 0 3) lateEvents k ∧
      (k.returned.map fun x => (x.1, x.2.payload)) = [(1, 31)] :=
    Run.exists_of_guarded (fun _ _ _ => step_of_next) (by decide)
  exact ⟨k, hReturned, repliesMatch_of_orderly (boot_initial 0 3) hRun⟩

end LeahOS.Kernel
