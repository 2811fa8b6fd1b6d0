import LeahOS.Kernel.Ipc
import LeahOS.Lib.Run

/-!
# The runs of the machine

`Event` is every step a task can take: the system calls on ports, messages, handles and
images, and the birth and death of tasks. `Step` is the transition relation, over any
interleaving. Calls that sleep are cut where they do. `imageFind` and `imageCreate` are one step
with the `give` that follows them, and `reply` with the look at the handle it passes on, though
the code lets its lock go in between.

`RunInv` is what holds in every reachable state without any condition. A task that
sleeps in `call` finds its own request in its slot, a request that a server has taken
belongs to the owner of its port, who got the number of its slot, and the leader of a group
leads itself.
-/

namespace LeahOS.Kernel
open Lib Function List Option
variable {π : Type}

/-- One step of one task. `give` is any object the kernel may hand out; the only
system calls that do are `imageFind` and `imageCreate`. -/
inductive Event (π : Type) where
  | portCreate (p name : Nat)
  | portDestroy (p port : Nat)
  | callStart (p port : Nat) (msg : Message π) (timed : Bool)
  | callCollect (p : Nat) (heap : Bool)
  | callTimeout (p : Nat)
  | callSignal (p : Nat)
  | tryRecv (p port : Nat)
  | recvStart (p port : Nat)
  | recvWake (p : Nat) (giveUp : Bool)
  | reply (p slot call : Nat) (msg : Message π)
  | exit (p : Nat)
  | fork (p : Nat) (heap : Bool)
  | thread (p : Nat)
  | give (h : Info) (heap : Bool)
  | imageFind (p : Nat) (name : List Char) (version : Nat) (heap : Bool)
  | imageCreate (p : Nat) (name : List Char) (version : Nat) (bytes : List UInt8)
      (frames : Option (Nat → Nat)) (heap : Bool)
  | close (p : Nat) (handle : Int)
  | duplicate (p : Nat) (handle : Int) (mask : Nat) (heap : Bool)

/-- A task that is not asleep in the kernel. -/
def Active (k : Machine π) (p : Nat) : Prop := k.live p = true ∧ k.doing p = .running

/-- A slot that its caller can collect. -/
def Done (r : Request π) : Prop := r.state = .answered ∨ r.state = .abandoned

/-- The steps, each with what it needs and what it does. A server passes `reply` a slot
number it got for some call, or one it never got. -/
inductive Step : Machine π → Event π → Machine π → Prop
  | portCreate {k : Machine π} {p : Nat} (name : Nat) (hp : Active k p) :
      Step k (.portCreate p name) (portCreate k p name).1
  | portDestroy {k : Machine π} {p : Nat} (port : Nat) (hp : Active k p) :
      Step k (.portDestroy p port) (portDestroyLocked k p port).1
  | callStart {k : Machine π} {p : Nat} (port : Nat) (msg : Message π) (timed : Bool)
      (hp : Active k p) : Step k (.callStart p port msg timed) (callStart k p port msg timed).1
  | callCollect {k : Machine π} {p slot call : Nat} {timed : Bool} (heap : Bool)
      (hp : k.doing p = .calling slot call timed) (hDone : Done (k.requests slot)) :
      Step k (.callCollect p heap) (callCollect heap k p slot call).1
  | callTimeout {k : Machine π} {p slot call : Nat} (hp : k.doing p = .calling slot call true)
      (hDone : ¬ Done (k.requests slot)) : Step k (.callTimeout p) (stopWaiting k p slot)
  | callSignal {k : Machine π} {p slot call : Nat} {timed : Bool}
      (hp : k.doing p = .calling slot call timed) (hDone : ¬ Done (k.requests slot)) :
      Step k (.callSignal p) (stopWaiting k p slot)
  | tryRecv {k : Machine π} {p : Nat} (port : Nat) (hp : Active k p) :
      Step k (.tryRecv p port) (tryRecv k p port)
  | recvStart {k : Machine π} {p : Nat} (port : Nat) (hp : Active k p) :
      Step k (.recvStart p port) (recvStart k p port)
  | recvWake {k : Machine π} {p port : Nat} (giveUp : Bool) (hp : k.doing p = .receiving port) :
      Step k (.recvWake p giveUp) (recvWake k p port giveUp)
  | reply {k : Machine π} {p slot call : Nat} (msg : Message π) (hp : Active k p)
      (hHas : ⟨p, slot, call⟩ ∈ k.obtained ∨ ∀ x ∈ k.obtained, x.pid = p → x.slot ≠ slot) :
      Step k (.reply p slot call msg) (reply k p slot call msg)
  | exit {k : Machine π} {p : Nat} (hp : Active k p) : Step k (.exit p) (exitCurrent k p)
  | fork {k : Machine π} {p : Nat} (heap : Bool) (hp : Active k p) :
      Step k (.fork p heap) (forkCurrent heap k p)
  | thread {k : Machine π} {p : Nat} (hp : Active k p) : Step k (.thread p) (spawnThread k p)
  | give {k : Machine π} (h : Info) (heap : Bool) :
      Step k (.give h heap) { k with objects := (give heap k.objects h).1 }
  | imageFind {k : Machine π} {p : Nat} (name : List Char) (version : Nat) (heap : Bool)
      (hp : Active k p) : Step k (.imageFind p name version heap) (imageFind heap k p name version).1
  | imageCreate {k : Machine π} {p : Nat} (name : List Char) (version : Nat) (bytes : List UInt8)
      (frames : Option (Nat → Nat)) (heap : Bool) (hp : Active k p) :
      Step k (.imageCreate p name version bytes frames heap)
        (imageCreate heap k p name version bytes frames).1
  | close {k : Machine π} {p : Nat} (handle : Int) (hp : Active k p) :
      Step k (.close p handle) { k with objects := (close k.objects (k.tgid p) handle).1 }
  | duplicate {k : Machine π} {p : Nat} (handle : Int) (mask : Nat) (heap : Bool)
      (hp : Active k p) :
      Step k (.duplicate p handle mask heap)
        { k with objects := (duplicate heap k.objects (k.tgid p) handle mask).1 }

/-- The machine as it boots: `count` processes, nothing else. The contents of memory
and of the request slots are whatever they are. -/
structure Initial (k : Machine π) : Prop where
  tables_eq : ∀ i, k.objects.tables i = none
  issued_eq : k.objects.issued = []
  images_eq : ∀ i, (k.cache.images i).used = false
  made_eq : k.cache.made = []
  ports_eq : ∀ i, (k.ports i).used = false
  requests_eq : ∀ i, (k.requests i).state = .free
  live_lt : ∀ p, k.live p = true → p < k.nextPid
  tgid_eq : ∀ p, k.live p = true → k.tgid p = p
  doing_eq : ∀ p, k.doing p = .running
  obtained_eq : k.obtained = []
  held_eq : k.held = []
  sent_eq : k.sent = []
  returned_eq : k.returned = []

/-- A machine with the processes `1, …, count` and zeros everywhere else. -/
def boot (payload : π) (count : Nat) : Machine π where
  objects := ⟨fun _ => none, []⟩
  cache := ⟨fun _ => Image.zero, 0, fun _ _ => 0, []⟩
  ports := fun _ => ⟨false, 0, 0⟩
  requests := fun _ => ⟨.free, 0, 0, 0, ⟨payload, fun _ => 0, 0⟩,
    fun _ => ⟨.none, 0, 0, Entry.zero.via⟩, 0, 0⟩
  live := fun p => decide (0 < p ∧ p ≤ count)
  tgid := fun p => p
  doing := fun _ => .running
  nextPid := count + 1
  nextCall := 0
  obtained := []
  held := []
  sent := []
  returned := []

/-- A message without handles. -/
def plain (payload : π) : Message π := ⟨payload, fun _ => 0, 0⟩

theorem boot_initial (payload : π) (count : Nat) : Initial (boot payload count) where
  tables_eq _ := rfl
  issued_eq := rfl
  images_eq _ := rfl
  made_eq := rfl
  ports_eq _ := rfl
  requests_eq _ := rfl
  live_lt p hp := by
    have hp' : 0 < p ∧ p ≤ count := of_decide_eq_true hp
    exact Nat.lt_succ_of_le hp'.2
  tgid_eq _ _ := rfl
  doing_eq _ := rfl
  obtained_eq := rfl
  held_eq := rfl
  sent_eq := rfl
  returned_eq := rfl

/-! ## What every run keeps -/

/-- A slot that a caller sleeps on. -/
def Awaited (r : Request π) : Prop :=
  r.state = .queued ∨ r.state = .taken ∨ r.state = .answered ∨ r.state = .abandoned

/-- A slot a server owes an answer for. -/
def Owed (r : Request π) : Prop := r.state = .taken ∨ r.state = .dropped

instance (r : Request π) : Decidable (Owed r) := inferInstanceAs (Decidable (_ ∨ _))

/-- The invariant of every run. -/
structure RunInv (k : Machine π) : Prop where
  live_lt : ∀ p, k.live p = true → p < k.nextPid
  sleeper_live : ∀ p, k.doing p ≠ .running → k.live p = true
  leader : ∀ p, k.live p = true → k.tgid (k.tgid p) = k.tgid p
  leader_lt : ∀ p, k.live p = true → k.tgid p < k.nextPid
  calling : ∀ p slot call timed, k.doing p = .calling slot call timed →
    (k.requests slot).caller = p ∧ (k.requests slot).call = call ∧ Awaited (k.requests slot)
  receiving : ∀ p port, k.doing p = .receiving port →
    validPort k port = true ∧ (k.ports port).owner = p
  owed : ∀ i, Owed (k.requests i) → validPort k (k.requests i).port = true ∧
      (k.ports (k.requests i).port).owner = (k.requests i).server ∧
      ⟨(k.requests i).server, i, (k.requests i).call⟩ ∈ k.obtained ∧ i < kMaxRequests

variable {k : Machine π}

theorem Initial.inv (h : Initial k) : RunInv k where
  live_lt := h.live_lt
  sleeper_live p hp := absurd (h.doing_eq p) hp
  leader p hp := by rw [h.tgid_eq p hp, h.tgid_eq p hp]
  leader_lt p hp := by
    rw [h.tgid_eq p hp]
    exact h.live_lt p hp
  calling p slot call timed hp := by simp [h.doing_eq p] at hp
  receiving p port hp := by simp [h.doing_eq p] at hp
  owed i hi := by simp [Owed, h.requests_eq i] at hi

section Steps
variable {k : Machine π} {p : Nat}

/-- So do the records of what was said. -/
theorem RunInv.of_ghosts (h : RunInv k) (o : Objects) {obtained : List Held}
    (hSub : k.obtained ⊆ obtained) (held : List Held) (sent : List (Held × Message π))
    (returned : List (Nat × Message π)) :
    RunInv { k with
      objects := o
      obtained := obtained
      held := held
      sent := sent
      returned := returned } :=
  { h with owed := fun i hi =>
      have ⟨hValid, hOwner, hHas, hLt⟩ := h.owed i hi
      ⟨hValid, hOwner, hSub hHas, hLt⟩ }

theorem RunInv.of_nextCall (h : RunInv k) (n : Nat) : RunInv { k with nextCall := n } := { h with }

theorem giveImage_eq (heap : Bool) (k : Machine π) (p : Nat) (r : Cache × Option Nat) :
    ∃ o, (giveImage heap k p r).1 = { k with objects := o, cache := r.1 } := by
  unfold giveImage
  split
  · exact ⟨k.objects, rfl⟩
  · exact ⟨_, rfl⟩

/-- The system calls on handles and images. -/
def Event.OnObjects : Event π → Prop
  | .give .. | .imageFind .. | .imageCreate .. | .close .. | .duplicate .. => True
  | _ => False

variable {e : Event π}

/-- They change nothing else. -/
theorem objects_of_step {k' : Machine π} (hStep : Step k e k') (he : e.OnObjects) :
    ∃ o c, k' = { k with objects := o, cache := c } := by
  cases hStep with
  | give | close | duplicate => exact ⟨_, k.cache, rfl⟩
  | imageFind name version heap hp =>
    obtain ⟨o, hEq⟩ := giveImage_eq heap k _ (findImage k.cache name version)
    exact ⟨o, _, hEq⟩
  | imageCreate name version bytes frames heap hp =>
    obtain ⟨o, hEq⟩ := giveImage_eq heap k _ (create k.cache name version bytes frames)
    exact ⟨o, _, hEq⟩
  | _ => exact he.elim

variable {call i pid port q slot : Nat} {timed : Bool} {r : Request π} {k' : Machine π}

/-- A task that sleeps in a call is the caller of its slot, so two of them sleep on
different slots. -/
theorem RunInv.slot_ne (h : RunInv k) {slot' call' : Nat} {timed' : Bool}
    (hp : k.doing p = .calling slot call timed) (hq : k.doing q = .calling slot' call' timed')
    (hNe : q ≠ p) : slot' ≠ slot := by
  rintro rfl
  have h₁ := (h.calling p _ _ _ hp).1
  have h₂ := (h.calling q _ _ _ hq).1
  exact hNe (h₂.symm.trans h₁)

/-- What `port_create` does: nothing, or an unused port is this task's. -/
theorem portCreate_cases (k : Machine π) (p name : Nat) :
    (portCreate k p name).1 = k ∨ ∃ i < kMaxPorts, (k.ports i).used = false ∧
        (portCreate k p name).1 = { k with ports := update k.ports i ⟨true, name, p⟩ } := by
  unfold portCreate
  split
  · exact .inl rfl
  split
  · exact .inl rfl
  next i hFind =>
    have hUnused : (k.ports i).used = false := by
      simpa using List.find?_some hFind
    exact .inr ⟨i, mem_range.mp (mem_of_find?_eq_some hFind), hUnused, rfl⟩

theorem portCreate_inv (h : RunInv k) (name : Nat) : RunInv (portCreate k p name).1 := by
  rcases portCreate_cases k p name with hEq | ⟨i, -, hUnused, hEq⟩ <;> rw [hEq]
  · exact h
  -- the new port is none of those in use
  have hKeep : ∀ port, validPort k port = true →
      update k.ports i ⟨true, name, p⟩ port = k.ports port := by
    intro port hValid
    refine update_of_ne ?_ _ _
    rintro rfl
    simp [validPort, hUnused] at hValid
  have hValid' : ∀ port, validPort k port = true →
      validPort { k with ports := update k.ports i ⟨true, name, p⟩ } port = true := by
    intro port hValid
    simp only [validPort, hKeep port hValid]
    exact hValid
  refine { h with receiving := fun q port hq => ?_, owed := fun j hj => ?_ }
  · obtain ⟨hValid, hOwner⟩ := h.receiving q port hq
    exact ⟨hValid' port hValid, (congrArg Port.owner (hKeep port hValid)).trans hOwner⟩
  · obtain ⟨hValid, hOwner, hHas⟩ := h.owed j hj
    exact ⟨hValid' _ hValid, (congrArg Port.owner (hKeep _ hValid)).trans hOwner, hHas⟩

theorem strand_port (port : Nat) (r : Request π) : (strand port r).port = r.port := by
  unfold strand
  split_ifs <;> rfl

theorem strand_caller (port : Nat) (r : Request π) : (strand port r).caller = r.caller := by
  unfold strand
  split <;> rfl

theorem strand_call (port : Nat) (r : Request π) : (strand port r).call = r.call := by
  unfold strand
  split <;> rfl

theorem strand_awaited (hr : Awaited r) : Awaited (strand port r) := by
  unfold strand
  split
  · exact hr
  · exact .inr (.inr (.inr rfl))

/-- A slot that is still owed an answer was not on the port. -/
theorem strand_owed (hr : Owed (strand port r)) :
    r.port ≠ port ∧ strand port r = r := by
  unfold strand at hr ⊢
  split at hr
  next hOff =>
    rcases hOff with hPort | hFree
    · exact ⟨hPort, if_pos (.inl hPort)⟩
    · rcases hr with h | h <;> rw [hFree] at h <;> cases h
  · rcases hr with h | h <;> cases h

theorem strand_answered (hr : (strand port r).state = .answered) :
    strand port r = r := by
  unfold strand at hr ⊢
  split at hr
  next hOff => exact if_pos hOff
  · cases hr

/-- A port can be destroyed by a task that is awake. -/
theorem portDestroyLocked_inv (h : RunInv k) (hp : k.doing p = .running) (port : Nat) :
    RunInv (portDestroyLocked k p port).1 := by
  unfold portDestroyLocked
  split
  · exact h
  next hOwn =>
  push Not at hOwn
  have hKeep : ∀ port', port' ≠ port →
      update k.ports port { (k.ports port) with used := false } port' = k.ports port' :=
    fun port' hNe => update_of_ne hNe _ _
  refine ⟨h.live_lt, h.sleeper_live, h.leader, h.leader_lt, fun q slot call timed hq => ?_,
    fun q port' hq => ?_, fun i hi => ?_⟩
  · obtain ⟨hCaller, hCall, hAwaited⟩ := h.calling q slot call timed hq
    exact ⟨(strand_caller port _).trans hCaller, (strand_call port _).trans hCall,
      strand_awaited hAwaited⟩
  · obtain ⟨hValid, hOwner⟩ := h.receiving q port' hq
    -- the owner is awake, so nobody sleeps on this port
    have hNe : port' ≠ port := by
      rintro rfl
      rw [← hOwner, hOwn.2, hp] at hq
      cases hq
    simp only [validPort, hKeep port' hNe]
    exact ⟨hValid, hOwner⟩
  · obtain ⟨hNe, hEq⟩ := strand_owed hi
    simp only [validPort, hEq, hKeep _ hNe]
    exact h.owed i (hEq ▸ hi)

/-- What the first half of `call` does: nothing, or a free slot holds the request and the
caller sleeps on it. -/
theorem callStart_cases (k : Machine π) (p port : Nat) (msg : Message π) (timed : Bool) :
    (callStart k p port msg timed).1 = k ∨ ∃ slot < kMaxRequests, (k.requests slot).state = .free ∧
        (callStart k p port msg timed).1 =
          { (k.setRequest slot { k.requests slot with
              state := .queued
              port := port
              caller := p
              server := 0
              body := msg
              call := k.nextCall }).setDoing p (.calling slot k.nextCall timed) with
            nextCall := k.nextCall + 1 } := by
  unfold callStart
  split
  · exact .inl rfl
  split
  · exact .inl rfl
  next slot hFind =>
    have hFree : (k.requests slot).state = .free := by
      simpa using List.find?_some hFind
    exact .inr ⟨slot, mem_range.mp (mem_of_find?_eq_some hFind), hFree, rfl⟩

/-- One slot changes: whoever sleeps on it finds its request there, and whoever owes it an
answer got it. -/
theorem RunInv.of_slot (h : RunInv k)
    (hCalling : ∀ q call timed, k.doing q = .calling i call timed →
      r.caller = q ∧ r.call = call ∧ Awaited r)
    (hOwed : Owed r → validPort k r.port = true ∧ (k.ports r.port).owner = r.server ∧
      ⟨r.server, i, r.call⟩ ∈ k.obtained ∧ i < kMaxRequests) :
    RunInv (k.setRequest i r) := by
  refine { h with calling := fun q slot call timed hq => ?_, owed := fun j hj => ?_ }
  · by_cases hEq : slot = i
    · subst hEq
      simp only [Machine.setRequest, update_self]
      exact hCalling q call timed hq
    · simp only [Machine.setRequest, update_of_ne hEq]
      exact h.calling q slot call timed hq
  · by_cases hEq : j = i
    · subst hEq
      simp only [Machine.setRequest, update_self] at hj ⊢
      exact hOwed hj
    · simp only [Machine.setRequest, update_of_ne hEq] at hj ⊢
      exact h.owed j hj

/-- A task goes to sleep on its own request or port, or wakes up. -/
theorem RunInv.of_doing (h : RunInv k) (hLive : k.live p = true) {d : Doing}
    (hCall : ∀ slot call timed, d = .calling slot call timed →
      (k.requests slot).caller = p ∧ (k.requests slot).call = call ∧ Awaited (k.requests slot))
    (hRecv : ∀ port, d = .receiving port → validPort k port = true ∧ (k.ports port).owner = p) :
    RunInv (k.setDoing p d) := by
  refine ⟨h.live_lt, fun q hq => ?_, h.leader, h.leader_lt, fun q slot call timed hq => ?_,
    fun q port hq => ?_, h.owed⟩ <;> by_cases hEq : q = p
  · exact hEq ▸ hLive
  · exact h.sleeper_live q fun hRun => hq ((update_of_ne hEq _ _).trans hRun)
  · subst hEq
    exact hCall slot call timed ((update_self _ _ _).symm.trans hq)
  · exact h.calling q slot call timed ((update_of_ne hEq _ _).symm.trans hq)
  · subst hEq
    exact hRecv port ((update_self _ _ _).symm.trans hq)
  · exact h.receiving q port ((update_of_ne hEq _ _).symm.trans hq)

theorem callStart_inv (h : RunInv k) (hp : Active k p) (port : Nat) (msg : Message π)
    (timed : Bool) : RunInv (callStart k p port msg timed).1 := by
  rcases callStart_cases k p port msg timed with hEq | ⟨slot, -, hFree, hEq⟩ <;> rw [hEq]
  · exact h
  -- nobody sleeps on a free slot
  have hSlot : ∀ r : Request π, r.state = .queued → RunInv (k.setRequest slot r) := by
    refine fun r hr => h.of_slot (fun q call timed' hq => ?_) fun hOwed => ?_
    · have hOld := (h.calling q slot call timed' hq).2.2
      simp [Awaited, hFree] at hOld
    · simp [Owed, hr] at hOwed
  refine RunInv.of_nextCall ((hSlot _ rfl).of_doing hp.1 (fun slot' call timed' hd => ?_) ?_) _
  · cases hd
    simp [Machine.setRequest, Awaited]
  · simp

/-- A caller that stops sleeping leaves its slot to nobody, or to the server that
already owed an answer. -/
theorem RunInv.of_wake (h : RunInv k) (hp : k.doing p = .calling slot call timed)
    (hr : Owed r → Owed (k.requests slot) ∧ r.port = (k.requests slot).port ∧
      r.server = (k.requests slot).server ∧ r.call = (k.requests slot).call) :
    RunInv ((k.setRequest slot r).setDoing p .running) := by
  have hAwake : RunInv (k.setDoing p .running) :=
    h.of_doing (h.sleeper_live p (by simp [hp])) (by simp) (by simp)
  refine hAwake.of_slot (fun q call' timed' hq => ?_) fun hOwed => ?_
  · by_cases hEq : q = p
    · subst hEq
      simp [Machine.setDoing] at hq
    · exact absurd rfl (h.slot_ne hp ((update_of_ne hEq _ _).symm.trans hq) hEq)
  · obtain ⟨hOwed, hPort, hServer, hCall⟩ := hr hOwed
    rw [hPort, hServer, hCall]
    exact h.owed slot hOwed

theorem stopWaiting_inv (h : RunInv k) (hp : k.doing p = .calling slot call timed) :
    RunInv (stopWaiting k p slot) := by
  refine h.of_wake hp fun hOwed => ⟨?_, rfl, rfl, rfl⟩
  by_cases hTaken : (k.requests slot).state = .taken
  · exact .inl hTaken
  · simp [Owed, hTaken] at hOwed

theorem callCollect_inv (h : RunInv k) (heap : Bool) (hp : k.doing p = .calling slot call timed) :
    RunInv (callCollect heap k p slot call).1 := by
  have hFree : ∀ r : Request π, r.state = .free → RunInv ((k.setRequest slot r).setDoing p .running) :=
    fun r hr => h.of_wake hp fun hOwed => by simp [Owed, hr] at hOwed
  have hInv := hFree { k.requests slot with
    state := .free
    body := (callCollect heap k p slot call).2.2 } rfl
  exact hInv.of_ghosts _ (List.Subset.refl _) _ _ _

/-- A change of one slot that keeps its caller asleep and its server owing. -/
theorem RunInv.of_setRequest (h : RunInv k) (hCaller : r.caller = (k.requests i).caller)
    (hCall : r.call = (k.requests i).call) (hAwaited : Awaited (k.requests i) → Awaited r)
    (hOwed : Owed r → validPort k r.port = true ∧ (k.ports r.port).owner = r.server ∧
      ⟨r.server, i, r.call⟩ ∈ k.obtained ∧ i < kMaxRequests) :
    RunInv (k.setRequest i r) :=
  h.of_slot (fun q call timed hq =>
    have ⟨hq₁, hq₂, hq₃⟩ := h.calling q i call timed hq
    ⟨hCaller.trans hq₁, hCall.trans hq₂, hAwaited hq₃⟩) hOwed

/-- What `take` does: one queued request of the port is now with the server. -/
theorem take_eq (hTake : take k p port = some (k', i)) :
    (k.requests i).state = .queued ∧ (k.requests i).port = port ∧ i < kMaxRequests ∧
      k' = { k.setRequest i { k.requests i with state := .taken, server := p } with
        obtained := ⟨p, i, (k.requests i).call⟩ :: k.obtained
        held := ⟨p, i, (k.requests i).call⟩ :: k.held } := by
  unfold take at hTake
  split at hTake
  · cases hTake
  next j hFind =>
  cases hTake
  have hMatch := List.find?_some hFind
  simp only [Bool.and_eq_true, beq_iff_eq] at hMatch
  exact ⟨hMatch.1, hMatch.2, mem_range.mp (mem_of_find?_eq_some hFind), rfl⟩

theorem take_inv (h : RunInv k) (hValid : validPort k port = true)
    (hOwner : (k.ports port).owner = p) (hTake : take k p port = some (k', i)) : RunInv k' := by
  obtain ⟨-, hPort, hLt, rfl⟩ := take_eq hTake
  have hNoted := h.of_ghosts k.objects (subset_cons_self ⟨p, i, (k.requests i).call⟩ _)
    (⟨p, i, (k.requests i).call⟩ :: k.held) k.sent k.returned
  refine hNoted.of_setRequest (r := { k.requests i with state := .taken, server := p }) rfl rfl
    (fun _ => .inr (.inl rfl)) fun _ => ⟨?_, ?_, mem_cons_self, hLt⟩
  · exact (congrArg (validPort k) hPort).trans hValid
  · exact (congrArg (fun port => (k.ports port).owner) hPort).trans hOwner

theorem tryRecv_inv (h : RunInv k) (port : Nat) : RunInv (tryRecv k p port) := by
  unfold tryRecv
  split
  · exact h
  next hOwn =>
  push Not at hOwn
  split
  · exact h
  next k' i hTake => exact take_inv h (by simpa using hOwn.1) hOwn.2 hTake

theorem recvStart_inv (h : RunInv k) (hp : Active k p) (port : Nat) : RunInv (recvStart k p port) := by
  unfold recvStart
  split
  · exact h
  next hOwn =>
  push Not at hOwn
  have hValid : validPort k port = true := by simpa using hOwn.1
  split
  · refine h.of_doing hp.1 (by simp) fun port' hEq => ?_
    cases hEq
    exact ⟨hValid, hOwn.2⟩
  next k' i hTake => exact take_inv h hValid hOwn.2 hTake

theorem recvWake_inv (h : RunInv k) (giveUp : Bool) (hp : k.doing p = .receiving port) :
    RunInv (recvWake k p port giveUp) := by
  have hLive : k.live p = true := h.sleeper_live p (by simp [hp])
  obtain ⟨hValid, hOwner⟩ := h.receiving p port hp
  unfold recvWake
  split
  · exact h.of_doing hLive (by simp) (by simp)
  split
  · exact h
  next k' i hTake =>
    have hLive' : k'.live p = true := by
      obtain ⟨-, -, -, rfl⟩ := take_eq hTake
      exact hLive
    exact (take_inv h hValid hOwner hTake).of_doing hLive' (by simp) (by simp)

/-- How a step of `recv` or `try_recv` ends: nothing happened, the task went to sleep or
woke up, or it took a request. -/
inductive RecvEnds (k : Machine π) (p port : Nat) : Machine π → Prop
  | same : RecvEnds k p port k
  | sleep : RecvEnds k p port (k.setDoing p (.receiving port))
  | wake : RecvEnds k p port (k.setDoing p .running)
  | took {k' : Machine π} {i : Nat} (hTake : take k p port = some (k', i)) : RecvEnds k p port k'
  | tookAwake {k' : Machine π} {i : Nat} (hTake : take k p port = some (k', i)) :
      RecvEnds k p port (k'.setDoing p .running)

theorem tryRecv_ends (k : Machine π) (p port : Nat) : RecvEnds k p port (tryRecv k p port) := by
  unfold tryRecv
  split
  · exact .same
  split
  · exact .same
  next hTake => exact .took hTake

theorem recvStart_ends (k : Machine π) (p port : Nat) : RecvEnds k p port (recvStart k p port) := by
  unfold recvStart
  split
  · exact .same
  split
  · exact .sleep
  next hTake => exact .took hTake

theorem recvWake_ends (k : Machine π) (p port : Nat) (giveUp : Bool) :
    RecvEnds k p port (recvWake k p port giveUp) := by
  unfold recvWake
  split
  · exact .wake
  split
  · exact .same
  next hTake => exact .tookAwake hTake

/-- What `reply` can do to the machine: nothing, give a dropped slot back, or answer a
taken one. -/
theorem replyTo_cases (k : Machine π) (p slot : Nat) (msg : Message π) :
    (replyTo k p slot msg).1 = k ∨
    ((k.requests slot).state = .dropped ∧ (k.requests slot).server = p ∧
      (replyTo k p slot msg).1 = k.setRequest slot { k.requests slot with state := .free }) ∨
    ((k.requests slot).state = .taken ∧ (k.requests slot).server = p ∧
      ∃ carried : List Carried, carried = resolveCarried k.objects.tables (k.tgid p) msg ∧
        (replyTo k p slot msg).1 = k.setRequest slot { k.requests slot with
          state := .answered
          body := { msg with handles := carried.length }
          carried := fun i => carried.getD i ((k.requests slot).carried i)
          carriedN := carried.length }) := by
  unfold replyTo
  simp only
  split
  · exact .inl rfl
  split
  next hDropped => exact .inr (.inl ⟨hDropped.1, hDropped.2, rfl⟩)
  split
  · exact .inl rfl
  next hTaken =>
    push Not at hTaken
    exact .inr (.inr ⟨hTaken.1, hTaken.2, _, rfl, rfl⟩)

/-- `reply` changes no slot but its own. -/
theorem replyTo_requests_of_ne (k : Machine π) (p slot : Nat) (msg : Message π) (hNe : i ≠ slot) :
    (replyTo k p slot msg).1.requests i = k.requests i := by
  rcases replyTo_cases k p slot msg with hEq | ⟨-, -, hEq⟩ | ⟨-, -, _, -, hEq⟩ <;> rw [hEq]
  · exact update_of_ne hNe _ _
  · exact update_of_ne hNe _ _

theorem replyTo_eq (k : Machine π) (p slot : Nat) (msg : Message π) :
    ∃ requests, (replyTo k p slot msg).1 = { k with requests := requests } := by
  rcases replyTo_cases k p slot msg with hEq | ⟨-, -, hEq⟩ | ⟨-, -, _, -, hEq⟩
  · exact ⟨k.requests, hEq⟩
  · exact ⟨_, hEq⟩
  · exact ⟨_, hEq⟩

theorem replyTo_inv (h : RunInv k) (slot : Nat) (msg : Message π) :
    RunInv (replyTo k p slot msg).1 := by
  rcases replyTo_cases k p slot msg with hEq | ⟨hDropped, -, hEq⟩ | ⟨hTaken, -, _, -, hEq⟩
  · rw [hEq]
    exact h
  · rw [hEq]
    refine h.of_setRequest rfl rfl (fun hAwaited => ?_) (by simp [Owed])
    simp [Awaited, hDropped] at hAwaited
  · rw [hEq]
    exact h.of_setRequest rfl rfl (fun _ => .inr (.inr (.inl rfl))) (by simp [Owed])

/-- What every port that goes keeps, the first loop of `abandon` keeps. -/
theorem closePorts_induct {P : Machine π → Prop} (hk : P k)
    (hStep : ∀ k' i, P k' → (k'.ports i).owner = pid → P (portDestroyLocked k' p i).1) :
    P (closePorts k p pid) := by
  unfold closePorts
  generalize List.range kMaxPorts = ports
  induction ports generalizing k with
  | nil => exact hk
  | cons i rest ih =>
    refine ih ?_
    simp only
    split
    next hMatch =>
      simp only [Bool.and_eq_true, beq_iff_eq] at hMatch
      exact hStep k i hk hMatch.2
    · exact hk

/-- Destroying a port changes ports and slots, nothing else. -/
theorem portDestroyLocked_eq (k : Machine π) (p port : Nat) :
    ∃ ports requests, (portDestroyLocked k p port).1 =
      { k with ports := ports, requests := requests } := by
  unfold portDestroyLocked
  split
  · exact ⟨k.ports, k.requests, rfl⟩
  · exact ⟨_, _, rfl⟩

theorem closePorts_eq (k : Machine π) (p pid : Nat) :
    ∃ ports requests, closePorts k p pid = { k with ports := ports, requests := requests } := by
  refine closePorts_induct (P := fun k' => ∃ ports requests,
    k' = { k with ports := ports, requests := requests }) ⟨k.ports, k.requests, rfl⟩ ?_
  rintro k' i ⟨ports, requests, rfl⟩ -
  obtain ⟨ports', requests', hEq⟩ := portDestroyLocked_eq
    { k with ports := ports, requests := requests } p i
  exact ⟨ports', requests', hEq⟩

/-- A slot the end of a port changes was on that port, and is abandoned. -/
theorem portDestroyLocked_requests (k : Machine π) (p port i : Nat) :
    (portDestroyLocked k p port).1.requests i = k.requests i ∨
      (portDestroyLocked k p port).1.requests i = { k.requests i with state := .abandoned } := by
  unfold portDestroyLocked
  split
  · exact .inl rfl
  simp only [strand]
  split
  · exact .inl rfl
  · exact .inr rfl

/-- The ports the task `p` destroys when it goes through those of the process `pid`. -/
def Closing (k : Machine π) (p pid port : Nat) : Prop :=
  port < kMaxPorts ∧ (k.ports port).used = true ∧ (k.ports port).owner = pid ∧
    (k.ports port).owner = p

instance (k : Machine π) (p pid port : Nat) : Decidable (Closing k p pid port) :=
  inferInstanceAs (Decidable (_ ∧ _ ∧ _ ∧ _))

/-- One round of the loop over the ports. -/
def closeOne (p pid : Nat) (k : Machine π) (port : Nat) : Machine π :=
  if (k.ports port).used && (k.ports port).owner == pid then (portDestroyLocked k p port).1 else k

theorem closeOne_of_closing (h : Closing k p pid port) :
    closeOne p pid k port = { k with
      ports := update k.ports port { k.ports port with used := false }
      requests := fun i => strand port (k.requests i) } := by
  obtain ⟨hLt, hUsed, hPid, hOwner⟩ := h
  have hValid : validPort k port = true := by simp [validPort, hLt, hUsed]
  simp [closeOne, portDestroyLocked, hUsed, hPid, hValid, ← hOwner]

theorem closeOne_of_not_closing (h : ¬ Closing k p pid port) :
    closeOne p pid k port = k := by
  unfold closeOne portDestroyLocked
  split
  next hMatch =>
    simp only [Bool.and_eq_true, beq_iff_eq] at hMatch
    split
    · rfl
    next hOwn =>
      push Not at hOwn
      obtain ⟨hLt, -⟩ : port < kMaxPorts ∧ _ := by simpa [validPort] using hOwn.1
      exact absurd ⟨hLt, hMatch.1, hMatch.2, hOwn.2⟩ h
  · rfl

/-- What the loop over some of the ports leaves of a port and of a slot. -/
theorem foldl_closeOne (pid : Nat) {ports : List Nat} (hNodup : ports.Nodup) (k : Machine π) (i : Nat) :
    ((ports.foldl (closeOne p pid) k).ports i =
        if i ∈ ports ∧ Closing k p pid i then { k.ports i with used := false } else k.ports i) ∧
      (ports.foldl (closeOne p pid) k).requests i =
        if (k.requests i).port ∈ ports ∧ Closing k p pid (k.requests i).port then
          strand (k.requests i).port (k.requests i)
        else k.requests i := by
  induction ports generalizing k with
  | nil => simp
  | cons port rest ih =>
    obtain ⟨hNot, hRest⟩ := nodup_cons.mp hNodup
    rw [foldl_cons]
    obtain ⟨hPorts, hRequests⟩ := ih hRest (closeOne p pid k port)
    rw [hPorts, hRequests]
    by_cases hClosing : Closing k p pid port
    · rw [closeOne_of_closing hClosing]
      refine ⟨?_, ?_⟩
      · by_cases hEq : i = port
        · subst hEq
          simp [hNot, hClosing]
        · simp [Closing, hEq]
      · by_cases hEq : (k.requests i).port = port
        · simp [strand_port, hEq, hNot, hClosing]
        · have hSame : strand port (k.requests i) = k.requests i := by simp [strand, hEq]
          simp [hSame, Closing, hEq]
    · rw [closeOne_of_not_closing hClosing]
      refine ⟨?_, ?_⟩
      · by_cases hEq : i = port
        · subst hEq
          simp [hClosing]
        · simp [hEq]
      · by_cases hEq : (k.requests i).port = port
        · simp [hEq, hClosing]
        · simp [hEq]

theorem closePorts_ports_eq (k : Machine π) (p pid i : Nat) :
    (closePorts k p pid).ports i =
      if Closing k p pid i then { k.ports i with used := false } else k.ports i := by
  refine (foldl_closeOne pid nodup_range k i).1.trans (if_congr ?_ rfl rfl)
  exact and_iff_right_of_imp fun h => mem_range.mpr h.1

theorem closePorts_requests_eq (k : Machine π) (p pid i : Nat) :
    (closePorts k p pid).requests i =
      if Closing k p pid (k.requests i).port then strand (k.requests i).port (k.requests i)
      else k.requests i := by
  refine (foldl_closeOne pid nodup_range k i).2.trans (if_congr ?_ rfl rfl)
  exact and_iff_right_of_imp fun h => mem_range.mpr h.1

/-- A slot the end of all ports of a process changes was on a port of the task that
destroys them, and is abandoned. -/
theorem closePorts_requests (k : Machine π) (p pid i : Nat) :
    (closePorts k p pid).requests i = k.requests i ∨
      ((k.ports (k.requests i).port).owner = p ∧ (k.requests i).state ≠ .free ∧
        (closePorts k p pid).requests i = { k.requests i with state := .abandoned }) := by
  rw [closePorts_requests_eq]
  split
  next hClosing =>
    by_cases hFree : (k.requests i).state = .free
    · exact .inl (by simp [strand, hFree])
    · exact .inr ⟨hClosing.2.2.2, hFree, by simp [strand, hFree]⟩
  · exact .inl rfl

theorem closePorts_inv (h : RunInv k) (hp : k.doing p = .running) (pid : Nat) :
    RunInv (closePorts k p pid) := by
  refine (closePorts_induct (P := fun k' => RunInv k' ∧ k'.doing = k.doing) ⟨h, rfl⟩ ?_).1
  rintro k' i ⟨hInv, hDoing⟩ -
  refine ⟨portDestroyLocked_inv hInv (by rw [hDoing]; exact hp) i, ?_⟩
  obtain ⟨_, _, hEq⟩ := portDestroyLocked_eq k' p i
  rw [hEq]
  exact hDoing

/-- Only the state of a slot changes. -/
theorem orphan_fields (pid : Nat) (r : Request π) : (orphan pid r).caller = r.caller ∧
    (orphan pid r).call = r.call ∧ (orphan pid r).port = r.port ∧
      (orphan pid r).server = r.server := by
  unfold orphan
  split_ifs <;> exact ⟨rfl, rfl, rfl, rfl⟩

/-- The end of another process leaves a sleeping caller something to collect. -/
theorem orphan_awaited (hr : Awaited r) (hCaller : r.caller ≠ pid) :
    Awaited (orphan pid r) := by
  unfold orphan
  split_ifs with h₁ h₂ h₃
  · exact hr
  · simp [Awaited, h₂.2] at hr
  · exact .inr (.inr (.inr rfl))
  · exact hr

theorem orphan_owed (hr : Owed (orphan pid r)) : Owed r := by
  unfold orphan at hr
  split_ifs at hr with h₁ h₂ h₃ h₄ hTaken
  · exact hr
  · simp [Owed] at hr
  · simp [Owed] at hr
  · exact .inl hTaken
  · simp [Owed] at hr
  · exact hr

theorem orphan_answered (hr : (orphan pid r).state = .answered) :
    orphan pid r = r := by
  unfold orphan at hr ⊢
  split_ifs at hr ⊢ <;> simp_all

/-- When the last task of a group goes, every other task is of another group. -/
theorem RunInv.tgid_ne (h : RunInv k) (hLast : groupStillAlive k p = false)
    (hLive : k.live q = true) (hNe : q ≠ p) : k.tgid q ≠ k.tgid p := by
  intro hGroup
  have hAlive : groupStillAlive k p = true := by
    refine List.any_eq_true.mpr ⟨q, mem_range.mpr (h.live_lt q hLive), ?_⟩
    simp [hNe, hLive, hGroup]
  rw [hLast] at hAlive
  cases hAlive

/-- So none of them leads it. -/
theorem RunInv.ne_tgid (h : RunInv k) (hp : k.live p = true) (hLast : groupStillAlive k p = false)
    (hLive : k.live q = true) (hNe : q ≠ p) : q ≠ k.tgid p := by
  rintro rfl
  exact h.tgid_ne hLast hLive hNe (h.leader p hp)

/-- What the end of the last task of a group leaves of a slot. -/
def Orphaned (k : Machine π) (p i : Nat) (r : Request π) : Prop :=
  r = orphan (k.tgid p) (k.requests i) ∨
    ((k.ports (k.requests i).port).owner = p ∧ (k.requests i).state ≠ .free ∧
      r = orphan (k.tgid p) { k.requests i with state := .abandoned })

/-- The machine without the task. -/
abbrev Machine.without (k : Machine π) (p : Nat) : Machine π :=
  { k with live := update k.live p false, held := k.held.filter fun x => x.pid != p }

/-- What the end of a task does. -/
theorem exitCurrent_eq (k : Machine π) (p : Nat) :
    ∃ o ports requests, exitCurrent k p = { k with
        objects := o
        ports := ports
        requests := requests
        live := update k.live p false
        held := k.held.filter fun x => x.pid != p } ∧
      ((groupStillAlive k p = true ∧ o = k.objects ∧ ports = k.ports ∧ requests = k.requests) ∨
        (groupStillAlive k p = false ∧ o = closeAll k.objects (k.tgid p) ∧
          ∀ i, Orphaned k p i (requests i))) := by
  unfold exitCurrent abandon
  cases hLast : groupStillAlive k p with
  | true => exact ⟨k.objects, k.ports, k.requests, rfl, .inl ⟨rfl, rfl, rfl, rfl⟩⟩
  | false =>
    have hSlots := closePorts_requests (k.without p) p (k.tgid p)
    obtain ⟨ports, requests, hEq⟩ := closePorts_eq (k.without p) p (k.tgid p)
    simp only [Bool.not_false, if_true]
    rw [hEq] at hSlots ⊢
    refine ⟨_, ports, fun i => orphan (k.tgid p) (requests i), rfl, .inr ⟨trivial, rfl, fun i => ?_⟩⟩
    rcases hSlots i with hSame | ⟨hOwner, hState, hAbandoned⟩
    · exact .inl (congrArg (orphan _) hSame)
    · exact .inr ⟨hOwner, hState, congrArg (orphan _) hAbandoned⟩

/-- A port that goes when a port is destroyed is that one, and of the task that does it. -/
theorem portDestroyLocked_ports (k : Machine π) (p port i : Nat) :
    (portDestroyLocked k p port).1.ports i = k.ports i ∨
      (i = port ∧ validPort k port = true ∧ (k.ports port).owner = p ∧
        ((portDestroyLocked k p port).1.ports i).used = false) := by
  unfold portDestroyLocked
  split
  · exact .inl rfl
  next hOwn =>
  push Not at hOwn
  by_cases hEq : i = port
  · subst hEq
    exact .inr ⟨rfl, by simpa using hOwn.1, hOwn.2, by simp⟩
  · exact .inl (update_of_ne hEq _ _)

theorem closePorts_ports (k : Machine π) (p pid i : Nat) :
    (closePorts k p pid).ports i = k.ports i ∨ ((k.ports i).owner = p ∧ (k.ports i).owner = pid ∧
        ((closePorts k p pid).ports i).used = false) := by
  rw [closePorts_ports_eq]
  split
  next hClosing => exact .inr ⟨hClosing.2.2.2, hClosing.2.2.1, rfl⟩
  · exact .inl rfl

/-- A port that goes with a task is its own, and the task is the last of the group it
leads. -/
theorem exitCurrent_ports (k : Machine π) (p i : Nat) :
    (exitCurrent k p).ports i = k.ports i ∨
      ((k.ports i).owner = p ∧ k.tgid p = p ∧ groupStillAlive k p = false ∧
        ((exitCurrent k p).ports i).used = false) := by
  unfold exitCurrent abandon
  cases hLast : groupStillAlive k p with
  | true => exact .inl rfl
  | false =>
    rcases closePorts_ports (k.without p) p (k.tgid p) i with hSame | ⟨hOwner, hPid, hUsed⟩
    · exact .inl hSame
    · exact .inr ⟨hOwner, hPid.symm.trans hOwner, rfl, hUsed⟩

theorem exitCurrent_inv (h : RunInv k) (hp : Active k p) : RunInv (exitCurrent k p) := by
  -- the task is gone, and nothing else has happened yet
  have hGone : RunInv (k.without p) := by
    have hLive : ∀ q, update k.live p false q = true → k.live q = true := by
      intro q hq
      by_cases hEq : q = p
      · subst hEq
        simp at hq
      · rwa [update_of_ne hEq] at hq
    refine ⟨fun q hq => h.live_lt q (hLive q hq), fun q hq => ?_, fun q hq => h.leader q (hLive q hq),
      fun q hq => h.leader_lt q (hLive q hq), h.calling, h.receiving, h.owed⟩
    have hNe : q ≠ p := by
      rintro rfl
      exact hq hp.2
    show update k.live p false q = true
    rw [update_of_ne hNe]
    exact h.sleeper_live q hq
  unfold exitCurrent
  simp only
  split
  next hLast =>
    have hLast' : groupStillAlive k p = false := by simpa using hLast
    have hInv := closePorts_inv hGone hp.2 (k.tgid p)
    have hDoing : (closePorts (k.without p) p (k.tgid p)).doing = k.doing := by
      obtain ⟨_, _, hEq⟩ := closePorts_eq (k.without p) p (k.tgid p)
      rw [hEq]
    unfold abandon
    generalize closePorts _ p (k.tgid p) = k' at hInv hDoing
    refine { hInv with calling := fun q slot call timed hq => ?_, owed := fun i hi => ?_ }
    · obtain ⟨hCaller, hCall, hAwaited⟩ := hInv.calling q slot call timed hq
      have hSleeps : k.doing q = .calling slot call timed := hDoing ▸ hq
      have hNe : q ≠ k.tgid p := by
        refine h.ne_tgid hp.1 hLast' (h.sleeper_live q (by simp [hSleeps])) ?_
        rintro rfl
        rw [hp.2] at hSleeps
        cases hSleeps
      simp only [orphan_fields]
      exact ⟨hCaller, hCall, orphan_awaited hAwaited (hCaller ▸ hNe)⟩
    · simp only [validPort, orphan_fields]
      exact hInv.owed i (orphan_owed hi)
  · exact hGone

/-- The machine with one task more, which is awake. -/
abbrev Machine.spawned (k : Machine π) (o : Objects) (group : Nat) : Machine π :=
  { k with
    objects := o
    live := update k.live k.nextPid true
    tgid := update k.tgid k.nextPid group
    doing := update k.doing k.nextPid .running
    nextPid := k.nextPid + 1 }

/-- A new task, awake, in a group that leads itself. -/
theorem RunInv.of_spawn (h : RunInv k) {group : Nat} (o : Objects)
    (hGroup : group = k.nextPid ∨ (group < k.nextPid ∧ k.tgid group = group)) :
    RunInv (k.spawned o group) := by
  -- the number is new: whoever is alive is somebody else
  have hOld : ∀ q, q ≠ k.nextPid → update k.live k.nextPid true q = true →
      k.live q = true := fun q hNe hq => by rwa [update_of_ne hNe] at hq
  have hDoing : ∀ q d, d ≠ Doing.running → update k.doing k.nextPid .running q = d →
      k.doing q = d := by
    intro q d hd hq
    by_cases hEq : q = k.nextPid
    · subst hEq
      rw [update_self] at hq
      exact absurd hq.symm hd
    · rwa [update_of_ne hEq] at hq
  refine ⟨fun q hq => ?_, fun q hq => ?_, fun q hq => ?_, fun q hq => ?_,
    fun q slot call timed hq => h.calling q slot call timed (hDoing q _ (by simp) hq),
    fun q port hq => h.receiving q port (hDoing q _ (by simp) hq), h.owed⟩
  · by_cases hEq : q = k.nextPid
    · subst hEq
      exact Nat.lt_succ_self _
    · exact Nat.lt_succ_of_lt (h.live_lt q (hOld q hEq hq))
  · have hEq : q ≠ k.nextPid := by
      rintro rfl
      simp at hq
    show update k.live k.nextPid true q = true
    rw [update_of_ne hEq]
    exact h.sleeper_live q fun hRun => hq ((update_of_ne hEq _ _).trans hRun)
  · show update k.tgid k.nextPid group (update k.tgid k.nextPid group q) =
      update k.tgid k.nextPid group q
    by_cases hEq : q = k.nextPid
    · subst hEq
      rw [update_self]
      rcases hGroup with rfl | ⟨hLt, hLeads⟩
      · rw [update_self]
      · rw [update_of_ne (by omega), hLeads]
    · have hLive := hOld q hEq hq
      rw [update_of_ne hEq, update_of_ne (by have := h.leader_lt q hLive; omega)]
      exact h.leader q hLive
  · show update k.tgid k.nextPid group q < k.nextPid + 1
    by_cases hEq : q = k.nextPid
    · subst hEq
      rw [update_self]
      rcases hGroup with rfl | ⟨hLt, -⟩
      · exact Nat.lt_succ_self _
      · omega
    · rw [update_of_ne hEq]
      exact Nat.lt_succ_of_lt (h.leader_lt q (hOld q hEq hq))

/-- **Every step keeps the invariant.** -/
theorem runInv_step (h : RunInv k) (hStep : Step k e k') :
    RunInv k' := by
  have hObjects := objects_of_step hStep
  cases hStep with
  | portCreate name hp => exact portCreate_inv h name
  | portDestroy port hp => exact portDestroyLocked_inv h hp.2 port
  | callStart port msg timed hp => exact callStart_inv h hp port msg timed
  | callCollect heap hp hDone => exact callCollect_inv h heap hp
  | callTimeout hp hDone | callSignal hp hDone => exact stopWaiting_inv h hp
  | tryRecv port hp => exact tryRecv_inv h port
  | recvStart port hp => exact recvStart_inv h hp port
  | recvWake giveUp hp => exact recvWake_inv h giveUp hp
  | @reply p slot call msg hp hHas =>
    exact (replyTo_inv (p := p) h slot msg).of_ghosts _ (List.Subset.refl _) _ _ _
  | exit hp => exact exitCurrent_inv h hp
  | fork heap hp => exact h.of_spawn _ (.inl rfl)
  | thread hp => exact h.of_spawn k.objects (.inr ⟨h.leader_lt _ hp.1, h.leader _ hp.1⟩)
  | give | imageFind | imageCreate | close | duplicate =>
    obtain ⟨o, c, hEq⟩ := hObjects trivial
    rw [hEq]
    exact { h with }

/-- Assigning a slot that is not answered leaves the answers alone. -/
theorem update_answered {requests : Nat → Request π} (hr : r.state ≠ .answered)
    (hi : (update requests slot r i).state = .answered) :
    update requests slot r i = requests i := by
  by_cases hEq : i = slot
  · subst hEq
    rw [update_self] at hi
    exact absurd hi hr
  · exact update_of_ne hEq _ _

theorem take_answered {j : Nat} (hTake : take k p port = some (k', j))
    (hi : (k'.requests i).state = .answered) : k'.requests i = k.requests i := by
  obtain ⟨-, -, -, rfl⟩ := take_eq hTake
  exact update_answered (by simp) hi

theorem RecvEnds.answered (hEnds : RecvEnds k p port k') (hi : (k'.requests i).state = .answered) :
    k'.requests i = k.requests i := by
  cases hEnds with
  | same | sleep | wake => rfl
  | took hTake => exact take_answered hTake hi
  | @tookAwake k' _ hTake =>
    have hSame : (k'.requests i).state = .answered → k'.requests i = k.requests i :=
      take_answered hTake
    exact hSame hi

theorem RecvEnds.objects (hEnds : RecvEnds k p port k') :
    k'.objects = k.objects ∧ k'.cache = k.cache := by
  cases hEnds with
  | same | sleep | wake => exact ⟨rfl, rfl⟩
  | took hTake | tookAwake hTake =>
    obtain ⟨-, -, -, rfl⟩ := take_eq hTake
    exact ⟨rfl, rfl⟩

/-- **Only `reply` answers**: after any other step an answer is one that was there. -/
theorem answered_of_step (hStep : Step k e k')
    (hNot : ∀ p slot call msg, e ≠ .reply p slot call msg) (hi : (k'.requests i).state = .answered) :
    k'.requests i = k.requests i := by
  have hObjects := objects_of_step hStep
  cases hStep with
  | @portCreate p name hp =>
    rcases portCreate_cases k p name with hEq | ⟨_, -, -, hEq⟩ <;> rw [hEq]
  | @portDestroy p port hp =>
    rcases portDestroyLocked_requests k p port i with hSame | hSame
    · exact hSame
    · simp [hSame] at hi
  | @callStart p port msg timed hp =>
    rcases callStart_cases k p port msg timed with hEq | ⟨slot, -, -, hEq⟩ <;> rw [hEq] at hi ⊢
    exact update_answered (by simp) hi
  | callCollect heap hp hDone => exact update_answered (by simp) hi
  | callTimeout hp hDone | callSignal hp hDone =>
    refine update_answered ?_ hi
    split <;> simp
  | tryRecv port hp => exact (tryRecv_ends k _ port).answered hi
  | recvStart port hp => exact (recvStart_ends k _ port).answered hi
  | recvWake giveUp hp => exact (recvWake_ends k _ _ giveUp).answered hi
  | reply msg hp hHas => exact absurd rfl (hNot _ _ _ _)
  | @exit p hp =>
    obtain ⟨o, ports, requests, hEq, hCases⟩ := exitCurrent_eq k p
    rw [hEq] at hi ⊢
    rcases hCases with ⟨-, -, -, rfl⟩ | ⟨-, -, hSlots⟩
    · rfl
    simp only at hi ⊢
    rcases hSlots i with hSame | ⟨-, -, hSame⟩ <;> rw [hSame] at hi ⊢
    · exact orphan_answered hi
    · rw [orphan_answered hi] at hi
      cases hi
  | fork | thread => rfl
  | give | imageFind | imageCreate | close | duplicate =>
    obtain ⟨o, c, hEq⟩ := hObjects trivial
    rw [hEq]

end Steps

theorem runInv_run {k₀ : Machine π} {es : List (Event π)} (hInit : Initial k₀)
    (hRun : Run Step k₀ es k) : RunInv k :=
  hRun.invariant (fun _ _ _ h hStep => runInv_step h hStep) hInit.inv

/-! ## The steps as a function -/

instance (k : Machine π) (p : Nat) : Decidable (Active k p) := inferInstanceAs (Decidable (_ ∧ _))

instance (r : Request π) : Decidable (Done r) := inferInstanceAs (Decidable (_ ∨ _))

/-- Where an event leads, if it can happen. -/
def next (k : Machine π) : Event π → Option (Machine π)
  | .portCreate p name => if Active k p then some (portCreate k p name).1 else none
  | .portDestroy p port => if Active k p then some (portDestroyLocked k p port).1 else none
  | .callStart p port msg timed =>
    if Active k p then some (callStart k p port msg timed).1 else none
  | .callCollect p heap =>
    match k.doing p with
    | .calling slot call _ =>
      if Done (k.requests slot) then some (callCollect heap k p slot call).1 else none
    | _ => none
  | .callTimeout p =>
    match k.doing p with
    | .calling slot _ true => if Done (k.requests slot) then none else some (stopWaiting k p slot)
    | _ => none
  | .callSignal p =>
    match k.doing p with
    | .calling slot _ _ => if Done (k.requests slot) then none else some (stopWaiting k p slot)
    | _ => none
  | .tryRecv p port => if Active k p then some (tryRecv k p port) else none
  | .recvStart p port => if Active k p then some (recvStart k p port) else none
  | .recvWake p giveUp =>
    match k.doing p with
    | .receiving port => some (recvWake k p port giveUp)
    | _ => none
  | .reply p slot call msg =>
    if Active k p ∧ (⟨p, slot, call⟩ ∈ k.obtained ∨
        ∀ x ∈ k.obtained, x.pid = p → x.slot ≠ slot) then
      some (reply k p slot call msg)
    else none
  | .exit p => if Active k p then some (exitCurrent k p) else none
  | .fork p heap => if Active k p then some (forkCurrent heap k p) else none
  | .thread p => if Active k p then some (spawnThread k p) else none
  | .give h heap => some { k with objects := (give heap k.objects h).1 }
  | .imageFind p name version heap =>
    if Active k p then some (imageFind heap k p name version).1 else none
  | .imageCreate p name version bytes frames heap =>
    if Active k p then some (imageCreate heap k p name version bytes frames).1 else none
  | .close p handle =>
    if Active k p then some { k with objects := (close k.objects (k.tgid p) handle).1 } else none
  | .duplicate p handle mask heap =>
    if Active k p then
      some { k with objects := (duplicate heap k.objects (k.tgid p) handle mask).1 }
    else none

theorem step_of_next {k' : Machine π} {e : Event π} (hNext : next k e = some k') :
    Step k e k' := by
  cases e with
  | portCreate p name =>
    exact of_guard hNext (.portCreate name)
  | portDestroy p port =>
    exact of_guard hNext (.portDestroy port)
  | callStart p port msg timed =>
    exact of_guard hNext (.callStart port msg timed)
  | callCollect p heap =>
    simp only [next] at hNext
    split at hNext
    next hp =>
      exact of_guard hNext (.callCollect heap hp)
    · cases hNext
  | callTimeout p =>
    simp only [next] at hNext
    split at hNext
    next hp =>
      obtain ⟨hDone, hEq⟩ := ite_none_left_eq_some.mp hNext
      exact some.inj hEq ▸ Step.callTimeout hp hDone
    · cases hNext
  | callSignal p =>
    simp only [next] at hNext
    split at hNext
    next hp =>
      obtain ⟨hDone, hEq⟩ := ite_none_left_eq_some.mp hNext
      exact some.inj hEq ▸ Step.callSignal hp hDone
    · cases hNext
  | tryRecv p port =>
    exact of_guard hNext (.tryRecv port)
  | recvStart p port =>
    exact of_guard hNext (.recvStart port)
  | recvWake p giveUp =>
    simp only [next] at hNext
    split at hNext
    next hp => exact some.inj hNext ▸ Step.recvWake giveUp hp
    · cases hNext
  | reply p slot call msg =>
    obtain ⟨⟨hp, hHas⟩, hEq⟩ := ite_none_right_eq_some.mp hNext
    exact some.inj hEq ▸ Step.reply msg hp hHas
  | exit p =>
    exact of_guard hNext Step.exit
  | fork p heap =>
    exact of_guard hNext (.fork heap)
  | thread p =>
    exact of_guard hNext Step.thread
  | give h heap => exact some.inj hNext ▸ Step.give h heap
  | imageFind p name version heap =>
    exact of_guard hNext (.imageFind name version heap)
  | imageCreate p name version bytes frames heap =>
    exact of_guard hNext (.imageCreate name version bytes frames heap)
  | close p handle =>
    exact of_guard hNext (.close handle)
  | duplicate p handle mask heap =>
    exact of_guard hNext (.duplicate handle mask heap)

/-- No two tasks sleep in calls on one slot, or at one port. -/
def SleepApart (k : Machine π) : Prop :=
  (∀ slot, {p | ∃ call timed, k.doing p = .calling slot call timed}.Subsingleton) ∧
    ∀ port, {p | k.doing p = .receiving port}.Subsingleton

/-- **In every run, whoever sleeps on a slot or at a port sleeps there alone.** -/
theorem sleepApart_of_run {k₀ es} (hInit : Initial k₀) (hRun : Run Step k₀ es k) :
    SleepApart k := by
  have hInv := runInv_run hInit hRun
  constructor
  · rintro slot p ⟨_, _, hp⟩ q ⟨_, _, hq⟩
    exact (hInv.calling p slot _ _ hp).1.symm.trans (hInv.calling q slot _ _ hq).1
  · intro port p hp q hq
    exact (hInv.receiving p port hp).2.symm.trans (hInv.receiving q port hq).2

/-- A server sleeps at its port, and two callers on slots of their own. -/
theorem sleepApart_recv : ∃ k : Machine Nat, (k.doing 1 = .receiving 0 ∧
    k.doing 2 = .calling 0 0 false ∧ k.doing 3 = .calling 1 1 true) ∧ SleepApart k := by
  obtain ⟨k, hRun, hAt⟩ : ∃ k, Run Step (boot 0 3)
      [.portCreate 1 2, .recvStart 1 0, .callStart 2 0 (plain 0) false,
        .callStart 3 0 (plain 0) true] k ∧
      k.doing 1 = .receiving 0 ∧ k.doing 2 = .calling 0 0 false ∧ k.doing 3 = .calling 1 1 true :=
    Run.exists_of_foldlM (fun _ _ _ => step_of_next) (by decide)
  exact ⟨k, hAt, sleepApart_of_run (boot_initial 0 3) hRun⟩

end LeahOS.Kernel
