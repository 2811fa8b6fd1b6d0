import LeahOS.Kernel.Handles

/-!
# The right to execute

`exec` asks for a handle on an image with the right to execute, and for nothing else: the
filesystem server is meant to be the only one that hands such handles out, after it has
looked at the file and the caller. A process other than the server should have one only
if it came with a reply, was inherited, or was duplicated from one that did.

`ImageFind` and `ImageCreate` do not know that. They give whoever calls them the right to
execute, so any process can make an image of any bytes and run it. `Entrusted` is the
condition the server relies on; it also keeps the port with the server until it ends.
-/

namespace LeahOS.Kernel
open Lib Function
variable {π : Type}

/-- `IPC_PORT_VFS`. -/
def kPortVfs : Nat := 2

/-- The process holds the port of the filesystem server. -/
def VfsHolder (k : Machine π) (pid : Nat) : Prop :=
  ∃ i < kMaxPorts, (k.ports i).used = true ∧ (k.ports i).name = kPortVfs ∧
    k.tgid (k.ports i).owner = pid

/-- The handle came with a reply or was inherited, or was duplicated from one that did. -/
def Via.Passed : Via → Prop
  | .given _ => False
  | .duplicated _ s => s.Passed
  | .inherited _ _ => True
  | .sent _ _ => True

/-- Whoever may execute an image is the filesystem server or had the right passed on. -/
def ExecuteOnly (k : Machine π) : Prop :=
  ∀ pid e, Holds k.objects.tables pid e → e.type = .image → e.rights &&& kExecute ≠ 0 →
    VfsHolder k pid ∨ e.via.Passed

/-- The steps that are system calls, or parts of one: all but a `give` of the kernel's
own. -/
def isSystemCall : Event π → Bool
  | .give _ _ => false
  | _ => true

def SystemCall (_ : Machine π) (e : Event π) : Prop := isSystemCall e = true

instance (k : Machine π) (e : Event π) : Decidable (SystemCall k e) :=
  inferInstanceAs (Decidable (_ = _))

/-- The calls that make image handles are left to the filesystem server, which does not
give its port away while it runs. -/
def Entrusted (k : Machine π) : Event π → Prop
  | .give _ _ => False
  | .imageFind p _ _ _ => VfsHolder k (k.tgid p)
  | .imageCreate p _ _ _ _ _ => VfsHolder k (k.tgid p)
  | .portDestroy p port => validPort k port = true → (k.ports port).owner = p →
      (k.ports port).name ≠ kPortVfs
  | _ => True

instance (k : Machine π) (pid : Nat) : Decidable (VfsHolder k pid) :=
  inferInstanceAs (Decidable (∃ i < kMaxPorts, _ ∧ _ ∧ _))

instance (k : Machine π) (e : Event π) : Decidable (Entrusted k e) := by
  induction e using Event.casesOn <;> unfold Entrusted <;> infer_instance

/-! ## One table for each process -/

/-- No process has two tables. -/
structure OneEach (g : Tables) : Prop where
  lt : ∀ i t, g i = some t → t.used = true → i < kMaxTables
  unique : ∀ i j t t', g i = some t → g j = some t' → t.used = true → t'.used = true →
    t.pid = t'.pid → i = j

variable {g : Tables} {i : Nat} {t : Table} {o : Objects}

/-- A table stays with its process, or is given up. -/
theorem OneEach.of_table (h : OneEach g) {t' : Table} (ht : g i = some t)
    (hUsed : t'.used = true → t.used = true) (hPid : t'.pid = t.pid) :
    OneEach (update g i (some t')) := by
  -- whatever table in use is at `j`, one of the same process was there before
  have hOld : ∀ j u, update g i (some t') j = some u → u.used = true →
      ∃ u', g j = some u' ∧ u'.used = true ∧ u'.pid = u.pid := by
    intro j u hj hu
    by_cases hEq : j = i
    · subst hEq
      rw [update_self, Option.some.injEq] at hj
      subst hj
      exact ⟨t, ht, hUsed hu, hPid.symm⟩
    · rw [update_of_ne hEq] at hj
      exact ⟨u, hj, hu, rfl⟩
  refine ⟨fun j u hj hu => ?_, fun j j' u v hj hj' hu hv hEq => ?_⟩
  · obtain ⟨u', hu', hUsed', -⟩ := hOld j u hj hu
    exact h.lt j u' hu' hUsed'
  · obtain ⟨u', hu', hUsed', hPid'⟩ := hOld j u hj hu
    obtain ⟨v', hv', hVsed', hVid'⟩ := hOld j' v hj' hv
    exact h.unique j j' u' v' hu' hv' hUsed' hVsed' (hPid'.trans (hEq.trans hVid'.symm))

/-- A process that has no table gets one. -/
theorem OneEach.of_new (h : OneEach g) (hLt : i < kMaxTables)
    (hNew : ∀ j u, g j = some u → u.used = true → u.pid ≠ t.pid) :
    OneEach (update g i (some t)) := by
  have hCases : ∀ j u, update g i (some t) j = some u → j = i ∧ u = t ∨ g j = some u := by
    intro j u hj
    by_cases hEq : j = i
    · subst hEq
      rw [update_self, Option.some.injEq] at hj
      exact .inl ⟨rfl, hj.symm⟩
    · rw [update_of_ne hEq] at hj
      exact .inr hj
  refine ⟨fun j u hj hu => ?_, fun j j' u v hj hj' hu hv hEq => ?_⟩
  · rcases hCases j u hj with ⟨rfl, -⟩ | hOld
    · exact hLt
    · exact h.lt j u hOld hu
  · rcases hCases j u hj with ⟨rfl, rfl⟩ | hOld <;> rcases hCases j' v hj' with ⟨rfl, rfl⟩ | hOld'
    · rfl
    · exact absurd hEq.symm (hNew j' v hOld' hv)
    · exact absurd hEq (hNew j u hOld hu)
    · exact h.unique j j' u v hOld hOld' hu hv hEq

theorem OneEach.pid_ne (h : OneEach g) {pid : Nat} (hFind : find g pid = none) (ht : g i = some t)
    (hUsed : t.used = true) : t.pid ≠ pid := by
  have hNot := List.find?_eq_none.mp hFind i (List.mem_range.mpr (h.lt i t ht hUsed))
  simpa [isOf, ht, hUsed] using hNot

theorem OneEach.findOrMake (h : OneEach g) (heap : Bool) (pid : Nat) :
    OneEach (findOrMake heap g pid).1 := by
  unfold Kernel.findOrMake
  split
  · exact h
  next hFind =>
  split
  · exact h
  next i hPlace =>
  split
  · exact h
  · exact h.of_new (List.mem_range.mp (List.mem_of_find?_eq_some hPlace)) fun _ _ ht hUsed =>
      h.pid_ne hFind ht hUsed

theorem OneEach.giveLocked (h : OneEach o.tables) (heap : Bool) (x : Info) (how : Info → Via) :
    OneEach (giveLocked heap o x how).1.tables := by
  have hMade := h.findOrMake heap x.pid
  unfold Kernel.giveLocked
  split
  · exact h
  split
  next hMake =>
    rw [hMake] at hMade
    exact hMade
  next hMake =>
  rw [hMake] at hMade
  split
  · exact hMade
  next ht =>
  split
  · exact hMade
  · exact hMade.of_table ht id rfl

theorem OneEach.inherit (h : OneEach o.tables) (heap : Bool) (parent child : Nat) :
    OneEach (inherit heap o parent child).tables := by
  have hMade := h.findOrMake heap child
  unfold Kernel.inherit
  split
  · exact h
  split
  · exact h
  split
  next hMake =>
    rw [hMake] at hMade
    exact hMade
  next hMake =>
    obtain ⟨t, ht, hUsed, hPid⟩ := findOrMake_eq_some hMake
    rw [hMake] at hMade
    exact hMade.of_table ht (fun _ => hUsed) hPid.symm

theorem OneEach.of_ops {o' : Objects} (hOps : TableOps o o') (h : OneEach o.tables) :
    OneEach o'.tables := by
  induction hOps with
  | refl => exact h
  | tail _ hOp ih =>
    cases hOp with
    | give heap _ x how => exact ih.giveLocked heap x how
    | close _ pid handle =>
      unfold close
      split
      · exact ih
      next hResolve => exact ih.of_table (resolve_eq_some hResolve).1 id rfl
    | closeAll _ pid =>
      unfold closeAll
      split
      · exact ih
      split
      · exact ih
      next ht => exact ih.of_table ht (fun hUsed => by cases hUsed) rfl
    | inherit heap _ parent child => exact ih.inherit heap parent child

/-- After `close_all` the process holds nothing. -/
theorem not_holds_closeAll (h : OneEach o.tables) (pid : Nat) (e : Entry) :
    ¬ Holds (closeAll o pid).tables pid e := by
  intro hHolds
  have hOld := holds_closeAll hHolds
  obtain ⟨i, t, slot, ht, hUsed, rfl, -⟩ := hOld
  cases hFind : find o.tables t.pid with
  | none => exact h.pid_ne hFind ht hUsed rfl
  | some j =>
    obtain ⟨t', ht', hUsed', hPid'⟩ := find_eq_some hFind
    unfold closeAll at hHolds
    simp only [hFind, ht'] at hHolds
    -- the table it closed is the only one there was
    obtain ⟨i', u, slot', hu, hUsed'', hPid, -⟩ := hHolds
    by_cases hEq : i' = j
    · subst hEq
      rw [update_self, Option.some.injEq] at hu
      subst hu
      cases hUsed''
    · rw [update_of_ne hEq] at hu
      exact hEq (h.unique i' j u t' hu ht' hUsed'' hUsed' (hPid.trans hPid'.symm))

/-! ## Runs -/

/-- The invariant of runs in which image handles are left to the server. -/
structure ExecInv (k : Machine π) : Prop where
  only : ExecuteOnly k
  oneEach : OneEach k.objects.tables
  owner_lt : ∀ i, (k.ports i).used = true → (k.ports i).owner < k.nextPid

theorem Initial.execInv {k : Machine π} (h : Initial k) : ExecInv k where
  only := by
    rintro pid e ⟨i, t, slot, ht, -⟩
    simp [h.tables_eq i] at ht
  oneEach := ⟨fun i t ht => by simp [h.tables_eq i] at ht, fun i j t t' ht => by
    simp [h.tables_eq i] at ht⟩
  owner_lt i hi := by simp [h.ports_eq i] at hi

section Steps
variable {k k' : Machine π} {e : Event π} {p pid : Nat}

/-- A mask does not add the right to execute. -/
theorem execute_of_mask {rights mask : Nat} (h : (rights &&& mask) &&& kExecute ≠ 0) :
    rights &&& kExecute ≠ 0 := by
  intro hNone
  apply h
  rw [Nat.and_assoc, Nat.and_comm mask, ← Nat.and_assoc, hNone, Nat.zero_and]

/-- After the step, the right is with a process that held the port before it, or was passed
on. -/
theorem execute_of_spread (h : ExecuteOnly k) (hOk : Entrusted k e) (hSpread : Spread k e k')
    {en : Entry} (hHolds : Holds k'.objects.tables pid en) (hType : en.type = .image)
    (hRight : en.rights &&& kExecute ≠ 0) : VfsHolder k pid ∨ en.via.Passed := by
  rcases hSpread.adds.held pid en hHolds with hOld | ⟨-, hFresh, hInfo⟩
  · exact h pid en hOld hType hRight
  generalize hVia : en.via = via at hFresh hInfo
  cases hFresh with
  | @given x hGives =>
    have hPid : x.pid = pid := congrArg Info.pid hInfo
    refine .inl (hPid ▸ ?_)
    cases e with
    | give => exact absurd hOk id
    | imageFind p name version heap | imageCreate p name version bytes frames heap =>
      obtain ⟨i, -, rfl⟩ := hGives
      exact hOk
    | _ => exact absurd hGives id
  | @duplicated pid' src mask hSrc =>
    simp only [Via.info, Info.mk.injEq] at hInfo
    obtain ⟨rfl, hSrcType, -, hRights, -⟩ := hInfo
    rw [← hRights] at hRight
    exact h pid' src hSrc (hSrcType.trans hType) (execute_of_mask hRight)
  | inherited | sent => exact .inr trivial

/-- A port in use that stays where it is, with a holder that stays in its group. -/
theorem VfsHolder.of_same (hHolder : VfsHolder k pid)
    (hPorts : ∀ i, (k.ports i).used = true → (k.ports i).name = kPortVfs → k'.ports i = k.ports i)
    (hTgid : ∀ i, (k.ports i).used = true → k'.tgid (k.ports i).owner = k.tgid (k.ports i).owner) :
    VfsHolder k' pid := by
  obtain ⟨i, hLt, hUsed, hName, hOwner⟩ := hHolder
  have hSame := hPorts i hUsed hName
  refine ⟨i, hLt, ?_, ?_, ?_⟩ <;> rw [hSame]
  · exact hUsed
  · exact hName
  · rw [hTgid i hUsed]
    exact hOwner

variable {port : Nat}

theorem RecvEnds.tasks (hEnds : RecvEnds k p port k') :
    k'.ports = k.ports ∧ k'.tgid = k.tgid ∧ k'.nextPid = k.nextPid := by
  cases hEnds with
  | same | sleep | wake => exact ⟨rfl, rfl, rfl⟩
  | took hTake | tookAwake hTake =>
    obtain ⟨-, -, -, rfl⟩ := take_eq hTake
    exact ⟨rfl, rfl, rfl⟩

/-- The server keeps its port, or it is gone and holds nothing any more; and ports belong
to tasks there are. -/
structure PortsKept (k k' : Machine π) : Prop where
  holder : ∀ pid en, VfsHolder k pid → Holds k'.objects.tables pid en → VfsHolder k' pid
  owner_lt : ∀ i, (k'.ports i).used = true → (k'.ports i).owner < k'.nextPid

theorem PortsKept.of_same (h : ExecInv k) (hPorts : k'.ports = k.ports) (hTgid : k'.tgid = k.tgid)
    (hNext : k'.nextPid = k.nextPid) : PortsKept k k' where
  holder pid en hHolder _ := by
    refine hHolder.of_same (fun i _ _ => ?_) fun i _ => ?_
    · rw [hPorts]
    · rw [hTgid]
  owner_lt i hi := by
    rw [hPorts] at hi ⊢
    rw [hNext]
    exact h.owner_lt i hi

/-- A new task has a new number, so no port is its. -/
theorem PortsKept.of_spawn (h : ExecInv k) {group : Nat} (hPorts : k'.ports = k.ports)
    (hTgid : k'.tgid = update k.tgid k.nextPid group) (hNext : k'.nextPid = k.nextPid + 1) :
    PortsKept k k' where
  holder pid en hHolder _ := by
    refine hHolder.of_same (fun i _ _ => ?_) fun i hi => ?_
    · rw [hPorts]
    · rw [hTgid, update_of_ne (h.owner_lt i hi).ne]
  owner_lt i hi := by
    rw [hPorts] at hi ⊢
    rw [hNext]
    exact Nat.lt_succ_of_lt (h.owner_lt i hi)

theorem portCreate_kept (hInv : RunInv k) (h : ExecInv k) (hp : Active k p) (name : Nat) :
    PortsKept k (portCreate k p name).1 := by
  rcases portCreate_cases k p name with hEq | ⟨i, -, hUnused, hEq⟩ <;> rw [hEq]
  · exact .of_same h rfl rfl rfl
  refine ⟨fun pid en hHolder _ => hHolder.of_same (fun j hj _ => ?_) fun _ _ => rfl, fun j hj => ?_⟩
  · refine update_of_ne ?_ _ _
    rintro rfl
    simp [hUnused] at hj
  · by_cases hEq : j = i
    · subst hEq
      simpa using hInv.live_lt p hp.1
    · simp only [update_of_ne hEq] at hj ⊢
      exact h.owner_lt j hj

theorem portDestroyLocked_kept (h : ExecInv k) (hOk : Entrusted k (.portDestroy p port)) :
    PortsKept k (portDestroyLocked k p port).1 := by
  have hTasks : (portDestroyLocked k p port).1.tgid = k.tgid ∧
      (portDestroyLocked k p port).1.nextPid = k.nextPid := by
    obtain ⟨_, _, hEq⟩ := portDestroyLocked_eq k p port
    rw [hEq]
    exact ⟨rfl, rfl⟩
  refine ⟨fun pid en hHolder _ => hHolder.of_same (fun i _ hName => ?_) fun _ _ => ?_,
    fun i hi => ?_⟩
  · rcases portDestroyLocked_ports k p port i with hKept | ⟨rfl, hValid, hOwn, -⟩
    · exact hKept
    · exact absurd hName (hOk hValid hOwn)
  · rw [hTasks.1]
  · rw [hTasks.2]
    rcases portDestroyLocked_ports k p port i with hKept | ⟨-, -, -, hUnused⟩
    · rw [hKept] at hi ⊢
      exact h.owner_lt i hi
    · simp [hUnused] at hi

theorem exitCurrent_kept (h : ExecInv k) (p : Nat) : PortsKept k (exitCurrent k p) := by
  obtain ⟨o, ports, requests, hEq, hCases⟩ := exitCurrent_eq k p
  have hPorts := exitCurrent_ports k p
  rw [hEq] at hPorts ⊢
  refine ⟨fun pid en hHolder hHolds => ?_, fun i hi => ?_⟩
  · obtain ⟨i, hLt, hUsed, hName, hOwner⟩ := hHolder
    rcases hPorts i with hKept | ⟨hSelf, -, hLast, -⟩
    · exact ⟨i, hLt, (congrArg Port.used hKept).trans hUsed, (congrArg Port.name hKept).trans hName,
        (congrArg (fun q => k.tgid q.owner) hKept).trans hOwner⟩
    · -- the server itself ends, and its table is closed
      rcases hCases with ⟨hAlive, -⟩ | ⟨-, rfl, -⟩
      · rw [hLast] at hAlive
        cases hAlive
      · have hPid : k.tgid p = pid := by rw [← hSelf, hOwner]
        rw [← hPid] at hHolds
        exact absurd hHolds (not_holds_closeAll h.oneEach _ _)
  · rcases hPorts i with hKept | ⟨-, -, -, hUnused⟩
    · simp only at hKept hi ⊢
      rw [hKept] at hi ⊢
      exact h.owner_lt i hi
    · rw [hUnused] at hi
      cases hi

theorem PortsKept.of_recv (h : ExecInv k) (hEnds : RecvEnds k p port k') :
    PortsKept k k' :=
  PortsKept.of_same h hEnds.tasks.1 hEnds.tasks.2.1 hEnds.tasks.2.2

theorem portsKept_of_step (hInv : RunInv k) (h : ExecInv k) (hOk : Entrusted k e)
    (hStep : Step k e k') : PortsKept k k' := by
  have hObjects := objects_of_step hStep
  cases hStep with
  | portCreate name hp => exact portCreate_kept hInv h hp name
  | portDestroy port hp => exact portDestroyLocked_kept h hOk
  | @callStart p port msg timed hp =>
    rcases callStart_cases k p port msg timed with hEq | ⟨_, -, -, hEq⟩ <;> rw [hEq]
    · exact .of_same h rfl rfl rfl
    · exact .of_same h rfl rfl rfl
  | callCollect | callTimeout | callSignal => exact .of_same h rfl rfl rfl
  | tryRecv port hp => exact .of_recv h (tryRecv_ends k _ port)
  | recvStart port hp => exact .of_recv h (recvStart_ends k _ port)
  | recvWake giveUp hp => exact .of_recv h (recvWake_ends k _ _ giveUp)
  | @reply p slot call msg hp hHas =>
    obtain ⟨_, hEq⟩ := replyTo_eq k p slot msg
    unfold reply
    rw [hEq]
    exact .of_same h rfl rfl rfl
  | exit hp => exact exitCurrent_kept h _
  | fork | thread => exact .of_spawn h rfl rfl rfl
  | give | imageFind | imageCreate | close | duplicate =>
    obtain ⟨o, c, hEq⟩ := hObjects trivial
    exact hEq ▸ PortsKept.of_same h rfl rfl rfl

/-- **A step that leaves image handles to the server leaves the right to execute to it.** -/
theorem execInv_step (hInv : RunInv k) (h : ExecInv k) (hOk : Entrusted k e) (hStep : Step k e k') :
    ExecInv k' := by
  have hKept := portsKept_of_step hInv h hOk hStep
  refine ⟨fun pid en hHolds hType hRight => ?_, OneEach.of_ops (tableOps_of_step hStep) h.oneEach,
    hKept.owner_lt⟩
  rcases execute_of_spread h.only hOk (spread_of_step hStep) hHolds hType hRight with hHolder | hPassed
  · exact .inl (hKept.holder pid en hHolder hHolds)
  · exact .inr hPassed

end Steps

/-- **In a run that leaves image handles to the server, the right to execute comes from
it.** -/
theorem executeOnly_of_entrusted {k₀ k : Machine π} {es : List (Event π)} (hInit : Initial k₀)
    (hRun : Run (Restrict Entrusted Step) k₀ es k) : ExecuteOnly k := by
  exact (hRun.invariant_with (J := RunInv) (I := ExecInv) (fun _ _ _ => runInv_step)
    (fun _ _ _ => execInv_step) hInit.inv hInit.execInv).2.only

/-- A process makes an image of one byte. -/
def mintEvents : List (Event Nat) := [.imageCreate 1 ['a'] 0 [0x7f] (some fun i => i + 1) true]

/-- Nobody is the filesystem server, and the process may execute what it made. -/
theorem not_executeOnly_mintEvents :
    ¬ ∀ (k₀ k : Machine Nat) (es : List (Event Nat)), Initial k₀ →
      Run (Restrict SystemCall Step) k₀ es k → ExecuteOnly k := by
  intro hAll
  obtain ⟨k, hRun, hEntry, hHolder⟩ :
      ∃ k, Run (Restrict SystemCall Step) (boot 0 1) mintEvents k ∧
        ((entryOf k.objects.tables 1 1024).map fun e => (e.type, e.rights, e.via)) =
          some (.image, kImageRights, .given ⟨1, .image, 0, kImageRights, 0⟩) ∧ ¬ VfsHolder k 1 :=
    Run.exists_of_guarded (fun _ _ _ => step_of_next) (by decide)
  obtain ⟨e, he, hFields⟩ := Option.map_eq_some_iff.mp hEntry
  simp only [Prod.mk.injEq] at hFields
  obtain ⟨hType, hRights, hVia⟩ := hFields
  rcases hAll _ _ _ (boot_initial 0 1) hRun 1 e (holds_of_entryOf he) hType
    (by rw [hRights]; decide) with hIs | hPassed
  · exact hHolder hIs
  · rw [hVia] at hPassed
    exact hPassed

/-- The server makes an image and answers a call with the handle. -/
def servedEvents : List (Event Nat) :=
  [.portCreate 1 2, .imageCreate 1 ['a'] 0 [0x7f] (some fun i => i + 1) true,
    .callStart 2 0 (plain 0) false, .tryRecv 1 0, .reply 1 0 0 ⟨0, fun _ => 1024, 1⟩,
    .callCollect 2 true]

/-- The caller may execute the image, and had the right passed on. -/
theorem executeOnly_servedEvents :
    ∃ (k : Machine Nat) (e : Entry), Holds k.objects.tables 2 e ∧
      (e.type, e.rights) = (.image, kImageRights) ∧ ExecuteOnly k := by
  obtain ⟨k, hRun, hEntry⟩ : ∃ k, Run (Restrict Entrusted Step) (boot 0 2) servedEvents k ∧
      ((entryOf k.objects.tables 2 1024).map fun e => (e.type, e.rights)) =
        some (.image, kImageRights) :=
    Run.exists_of_guarded (fun _ _ _ => step_of_next) (by decide)
  obtain ⟨e, he, hFields⟩ := Option.map_eq_some_iff.mp hEntry
  exact ⟨k, e, holds_of_entryOf he, hFields, executeOnly_of_entrusted (boot_initial 0 2) hRun⟩

end LeahOS.Kernel
