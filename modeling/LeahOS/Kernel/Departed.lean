import LeahOS.Kernel.System

/-!
# What a process leaves behind

When the last thread of a process exits, `abandon` runs once for the whole process, with
the number of its first thread. The ports carry the number of the thread that made them,
and a port is only destroyed by its owner. So `abandon` finds the ports of the first
thread, if that is the thread that runs it, and no others.

`LeavesNothing` is what one would expect of it. `ClosesItsPorts` is what makes it true: a
thread that exits has no port left, unless it is the first thread and everybody else is
gone.
-/

namespace LeahOS.Kernel
open Lib Function
variable {π : Type}

/-- No thread of the process of `p` is left. -/
def Departed (k : Machine π) (p : Nat) : Prop := ∀ q, k.live q = true → k.tgid q ≠ k.tgid p

/-- A process that is gone owns no port, and owes nobody an answer. -/
def LeavesNothing (k : Machine π) : Prop :=
  ∀ p, Departed k p → (∀ i, (k.ports i).used = true → (k.ports i).owner ≠ p) ∧
      ∀ i, Owed (k.requests i) → (k.requests i).server ≠ p

/-- A thread that exits while it owns a port is the first of its process, and the last
that is left. -/
def ClosesItsPorts (k : Machine π) : Event π → Prop
  | .exit p => ∀ i < kMaxPorts, (k.ports i).used = true → (k.ports i).owner = p →
      k.tgid p = p ∧ groupStillAlive k p = false
  | _ => True

instance (k : Machine π) (e : Event π) : Decidable (ClosesItsPorts k e) := by
  cases e <;> unfold ClosesItsPorts <;> infer_instance

/-- The owner of a port in use is alive. -/
def OwnersLive (k : Machine π) : Prop :=
  ∀ i, (k.ports i).used = true → i < kMaxPorts ∧ k.live (k.ports i).owner = true

/-- A request that is being served is on a port of its server, so the server is alive. -/
theorem leavesNothing_of_ownersLive {k : Machine π} (hInv : RunInv k) (h : OwnersLive k) :
    LeavesNothing k := by
  refine fun p hGone => ⟨fun i hUsed hOwner => ?_, fun i hOwed hServer => ?_⟩
  · have hLive := (h i hUsed).2
    rw [hOwner] at hLive
    exact hGone p hLive rfl
  · obtain ⟨hValid, hOwner, -, -⟩ := hInv.owed i hOwed
    have hUsed := (Bool.and_eq_true_iff.mp hValid).2
    have hLive := (h _ hUsed).2
    rw [hOwner, hServer] at hLive
    exact hGone p hLive rfl

section Steps
variable {k k' : Machine π} {p : Nat}

/-- Steps that make no port and end no task. -/
theorem OwnersLive.of_fewer (h : OwnersLive k)
    (hPorts : ∀ i, k'.ports i = k.ports i ∨ (k'.ports i).used = false)
    (hLive : k'.live = k.live) : OwnersLive k' := by
  intro i hUsed
  rcases hPorts i with hSame | hGone
  · rw [hSame] at hUsed ⊢
    rw [hLive]
    exact h i hUsed
  · rw [hGone] at hUsed
    cases hUsed

theorem OwnersLive.of_same (h : OwnersLive k) (hPorts : k'.ports = k.ports)
    (hLive : k'.live = k.live) : OwnersLive k' :=
  h.of_fewer (fun i => .inl (congrFun hPorts i)) hLive

theorem OwnersLive.of_recv (h : OwnersLive k) {port : Nat} (hEnds : RecvEnds k p port k') :
    OwnersLive k' := by
  cases hEnds with
  | same | sleep | wake => exact h
  | took hTake | tookAwake hTake =>
    obtain ⟨-, -, -, rfl⟩ := take_eq hTake
    exact h

theorem portCreate_ownersLive (h : OwnersLive k) (hp : Active k p) (name : Nat) :
    OwnersLive (portCreate k p name).1 := by
  rcases portCreate_cases k p name with hEq | ⟨j, hLt, -, hEq⟩ <;> rw [hEq]
  · exact h
  intro i hUsed
  by_cases hij : i = j
  · subst hij
    simpa using ⟨hLt, hp.1⟩
  · simp only [update_of_ne hij] at hUsed ⊢
    exact h i hUsed

theorem portDestroyLocked_ownersLive (h : OwnersLive k) (port : Nat) :
    OwnersLive (portDestroyLocked k p port).1 := by
  refine h.of_fewer (fun i => ?_) ?_
  · rcases portDestroyLocked_ports k p port i with hSame | ⟨-, -, -, hGone⟩
    · exact .inl hSame
    · exact .inr hGone
  · obtain ⟨_, _, hEq⟩ := portDestroyLocked_eq k p port
    rw [hEq]

theorem callStart_ownersLive (h : OwnersLive k) (port : Nat) (msg : Message π) (timed : Bool) :
    OwnersLive (callStart k p port msg timed).1 := by
  rcases callStart_cases k p port msg timed with hEq | ⟨_, -, -, hEq⟩ <;> rw [hEq]
  · exact h
  · exact h.of_same rfl rfl

theorem reply_ownersLive (h : OwnersLive k) (slot call : Nat) (msg : Message π) :
    OwnersLive (reply k p slot call msg) := by
  have hTo : OwnersLive (replyTo k p slot msg).1 := by
    rcases replyTo_cases k p slot msg with hEq | ⟨-, -, hEq⟩ | ⟨-, -, _, -, hEq⟩ <;> rw [hEq]
    · exact h
    · exact h.of_same rfl rfl
    · exact h.of_same rfl rfl
  exact hTo.of_same rfl rfl

/-! ## The end of a thread -/

/-- The last thread of a process takes its own ports with it, if it is the first. -/
theorem exitCurrent_own (hLeads : k.tgid p = p) (hLast : groupStillAlive k p = false) {i : Nat}
    (hi : i < kMaxPorts) (hOwner : (k.ports i).owner = p) :
    ((exitCurrent k p).ports i).used = false := by
  have hPorts := closePorts_ports_eq (k.without p) p p i
  unfold exitCurrent abandon
  rw [hLast, hLeads]
  refine (congrArg Port.used hPorts).trans ?_
  split
  · rfl
  next hNot =>
    by_contra hUsed
    exact hNot ⟨hi, Bool.eq_true_of_not_eq_false hUsed, hOwner, hOwner⟩

theorem exitCurrent_ownersLive (h : OwnersLive k) (hOk : ClosesItsPorts k (.exit p)) :
    OwnersLive (exitCurrent k p) := by
  intro i hUsed
  obtain ⟨_, _, _, hEq, -⟩ := exitCurrent_eq k p
  have hLive : (exitCurrent k p).live = update k.live p false := by rw [hEq]
  rcases exitCurrent_ports k p i with hSame | ⟨-, -, -, hGone⟩
  · have hWas : (k.ports i).used = true := hSame ▸ hUsed
    obtain ⟨hLt, hOwner⟩ := h i hWas
    have hNe : (k.ports i).owner ≠ p := fun hMine => by
      obtain ⟨hLeads, hLast⟩ := hOk i hLt hWas hMine
      rw [exitCurrent_own hLeads hLast hLt hMine] at hUsed
      cases hUsed
    rw [hSame, hLive, update_of_ne hNe]
    exact ⟨hLt, hOwner⟩
  · rw [hGone] at hUsed
    cases hUsed

/-- A new task owns nothing, and everybody else lives on. -/
theorem OwnersLive.of_spawn (h : OwnersLive k) (hPorts : k'.ports = k.ports)
    (hLive : k'.live = update k.live k.nextPid true) : OwnersLive k' := by
  intro i hUsed
  rw [hPorts] at hUsed ⊢
  obtain ⟨hLt, hOwner⟩ := h i hUsed
  refine ⟨hLt, ?_⟩
  rw [hLive, update_apply]
  split
  · rfl
  · exact hOwner

theorem ownersLive_step {e : Event π} (h : OwnersLive k) (hOk : ClosesItsPorts k e)
    (hStep : Step k e k') : OwnersLive k' := by
  have hObjects := objects_of_step hStep
  cases hStep with
  | portCreate name hp => exact portCreate_ownersLive h hp name
  | portDestroy port hp => exact portDestroyLocked_ownersLive h port
  | callStart port msg timed hp => exact callStart_ownersLive h port msg timed
  | callCollect | callTimeout | callSignal => exact h.of_same rfl rfl
  | tryRecv port hp => exact h.of_recv (tryRecv_ends k _ port)
  | recvStart port hp => exact h.of_recv (recvStart_ends k _ port)
  | recvWake giveUp hp => exact h.of_recv (recvWake_ends k _ _ giveUp)
  | reply msg hp hHas => exact reply_ownersLive h _ _ msg
  | exit hp => exact exitCurrent_ownersLive h hOk
  | fork | thread => exact h.of_spawn rfl rfl
  | give | imageFind | imageCreate | close | duplicate =>
    obtain ⟨o, c, hEq⟩ := hObjects trivial
    exact hEq ▸ h.of_same rfl rfl

end Steps

/-- **A process whose threads close their ports leaves nothing behind.** -/
theorem leavesNothing_of_closesItsPorts {k₀ k : Machine π} {es : List (Event π)}
    (hInit : Initial k₀) (hRun : Run (Restrict ClosesItsPorts Step) k₀ es k) : LeavesNothing k := by
  have hNone : OwnersLive k₀ := fun i hUsed => by simp [hInit.ports_eq i] at hUsed
  obtain ⟨hInv, hOwners⟩ := hRun.invariant_with (J := RunInv) (I := OwnersLive)
    (fun _ _ _ => runInv_step) (fun _ _ _ _ => ownersLive_step) hInit.inv hNone
  exact leavesNothing_of_ownersLive hInv hOwners

/-- A process of two threads serves a call, and its second thread is the one that made
the port. Both threads exit while the call is being served. -/
def threadPortEvents : List (Event Nat) :=
  [.thread 1, .portCreate 3 7, .callStart 2 0 (plain 20) false, .tryRecv 3 0, .exit 3, .exit 1]

/-- The process is gone, its port is not, and its caller sleeps on a request that nobody
serves. -/
theorem not_leavesNothing_threadPortEvents :
    ¬ ∀ (k₀ k : Machine Nat) (es : List (Event Nat)), Initial k₀ → Run Step k₀ es k →
      LeavesNothing k := by
  intro hAll
  obtain ⟨k, hRun, hUsed, hOwner, hNext, hLeft⟩ : ∃ k, Run Step (boot 0 2) threadPortEvents k ∧
      (k.ports 0).used = true ∧ (k.ports 0).owner = 3 ∧ k.nextPid = 4 ∧
        ∀ q ∈ List.range 4, k.live q = true → k.tgid q ≠ k.tgid 3 :=
    Run.exists_of_foldlM (fun _ _ _ => step_of_next) (by decide)
  have hInv := runInv_run (boot_initial 0 2) hRun
  have hGone : Departed k 3 := fun q hq =>
    hLeft q (List.mem_range.mpr (hNext ▸ hInv.live_lt q hq)) hq
  exact (hAll _ _ _ (boot_initial 0 2) hRun 3 hGone).1 0 hUsed hOwner

/-- The same process, and the first thread makes the port and exits last. -/
def firstThreadEvents : List (Event Nat) :=
  [.thread 1, .portCreate 1 7, .callStart 2 0 (plain 20) false, .tryRecv 1 0, .exit 3, .exit 1]

theorem leavesNothing_firstThreadEvents :
    ∃ k : Machine Nat, k.live 1 = false ∧ (k.requests 0).state = .abandoned ∧ LeavesNothing k := by
  obtain ⟨k, hRun, hLive, hState⟩ :
      ∃ k, Run (Restrict ClosesItsPorts Step) (boot 0 2) firstThreadEvents k ∧
        k.live 1 = false ∧ (k.requests 0).state = .abandoned :=
    Run.exists_of_guarded (fun _ _ _ => step_of_next) (by decide +kernel)
  exact ⟨k, hLive, hState, leavesNothing_of_closesItsPorts (boot_initial 0 2) hRun⟩

end LeahOS.Kernel
