import LeahOS.Lib.Run
import Mathlib.Order.WithBot
import Mathlib.Tactic

/-!
# The order of the locks (`kernel/sched/lock.cpp`, `kernel/sched/bkl.cpp`)

Every subsystem has a spin lock with a rank, and a processor may take one only if its rank is
above that of the last one it took. The kernel lock stands outside this order. It is
recursive and goes from task to task at a context switch; taken from scratch, it asks that
everything the processor holds ranks below `Rank::Scheduler`.

The model has any number of processors and any lock operations that pass these checks, in any
order. An operation that would panic is no step. A processor that finds a lock taken waits
and does nothing else until it gets it, with one exception: `bkl::acquire` lets interrupts in
while the processor holds nothing, and an interrupt can take the processor elsewhere.

Below `Rank::Scheduler` a subsystem may hold its lock and ask for the kernel lock. Nothing
checks the other direction: a processor that holds the kernel lock may ask for the lock of
such a subsystem. `exit_current` does, and `noDeadlock_of_finer` says that this is all there
is to it.
-/

namespace LeahOS.Sched
open Lib Function List Option Bool

/-- The ranked locks of the kernel. -/
inductive RankedLock
  | files
  | pty
  | ipc
  | keyboard
  | mouse
  | handles
  | image
  | shm
  | heap
  | vmm
  | pmm
  deriving DecidableEq

/-- `enum class Rank`. -/
def RankedLock.rank : RankedLock → Nat
  | .files => 10
  | .pty => 12
  | .ipc => 15
  | .keyboard => 18
  | .mouse => 18
  | .handles => 30
  | .image => 34
  | .shm => 38
  | .heap => 49
  | .vmm => 50
  | .pmm => 60

/-- `Rank::Scheduler`. -/
def kScheduler : Nat := 20

/-- The length of the stack of locks a processor holds. -/
def kMaxDepth : Nat := 8

/-- What a processor spins on: a ranked lock, or the kernel lock with the depth it is going to
have. `listens` is `may_listen`. -/
inductive Wait (κ : Type)
  | ranked (lock : κ)
  | kernel (depth : Nat) (listens : Bool)
  deriving DecidableEq

/-- The kernel lock: which processor owns it, and how deep each one is in it. -/
structure Bkl where
  owner : Option Nat
  depth : Nat → Nat

namespace Bkl

/-- The processor has it. -/
def take (b : Bkl) (c depth : Nat) : Bkl :=
  { b with owner := some c, depth := update b.depth c depth }

/-- It is free again. -/
def drop (b : Bkl) (c : Nat) : Bkl :=
  { b with owner := none, depth := update b.depth c 0 }

/-- `bkl::acquire` by the processor that owns it. -/
def nest (b : Bkl) (c : Nat) : Bkl :=
  { b with depth := update b.depth c (b.depth c + 1) }

/-- `bkl::release`. -/
def release (b : Bkl) (c : Nat) : Bkl :=
  if b.depth c = 0 then b
  else if b.depth c = 1 then b.drop c
  else { b with depth := update b.depth c (b.depth c - 1) }

/-- `bkl::release_all`. -/
def releaseAll (b : Bkl) (c : Nat) : Bkl := if b.depth c = 0 then b else b.drop c

theorem release_owner (b : Bkl) (c : Nat) :
    (b.release c).owner = b.owner ∨ (b.release c).owner = none := by
  unfold release
  split
  · exact .inl rfl
  split
  · exact .inr rfl
  · exact .inl rfl

theorem releaseAll_owner (b : Bkl) (c : Nat) :
    (b.releaseAll c).owner = b.owner ∨ (b.releaseAll c).owner = none := by
  unfold releaseAll
  split
  · exact .inl rfl
  · exact .inr rfl

end Bkl

/-- The locks, and what the processors do with them. `held` is `g_held`, the last one taken
first. -/
structure Locks (κ : Type) where
  locked : κ → Bool
  held : Nat → List κ
  bkl : Bkl
  waits : Nat → Option (Wait κ)

/-- One operation of one processor; `spin` is a turn of the loop it waits in, and `listen` an
interrupt that comes in there. -/
inductive LockEvent (κ : Type)
  | acquire (cpu : Nat) (lock : κ)
  | release (cpu : Nat) (lock : κ)
  | kernelAcquire (cpu : Nat)
  | kernelRelease (cpu : Nat)
  | handoff (cpu target : Nat)
  | releaseAll (cpu : Nat)
  | spin (cpu : Nat)
  | listen (cpu : Nat)

/-- The processor that does it. -/
def LockEvent.cpu {κ : Type} : LockEvent κ → Nat
  | .acquire cpu _ | .release cpu _ | .kernelAcquire cpu | .kernelRelease cpu | .handoff cpu _
  | .releaseAll cpu | .spin cpu | .listen cpu => cpu

variable {κ : Type} (rank : κ → Nat)

namespace Locks
section Operations
variable [DecidableEq κ]

/-- The processor has the ranked lock. -/
def take (s : Locks κ) (c : Nat) (m : κ) : Locks κ :=
  { s with
    locked := update s.locked m true
    held := update s.held c (m :: s.held c)
    waits := update s.waits c none }

/-- The processor has the kernel lock. -/
def takeKernel (s : Locks κ) (c depth : Nat) : Locks κ :=
  { s with bkl := s.bkl.take c depth, waits := update s.waits c none }

/-- The processor waits. -/
def wait (s : Locks κ) (c : Nat) (w : Wait κ) : Locks κ :=
  { s with waits := update s.waits c (some w) }

/-- The last lock taken ranks below `limit`. -/
def topBelow (s : Locks κ) (c limit : Nat) : Bool :=
  (s.held c).head?.all fun top => rank top < limit

/-- `RankedLock::acquire`. -/
def acquire (s : Locks κ) (c : Nat) (m : κ) : Option (Locks κ) :=
  if !s.topBelow rank c (rank m) then none
  else if kMaxDepth ≤ (s.held c).length then none
  else if s.locked m then some (s.wait c (.ranked m))
  else some (s.take c m)

/-- `RankedLock::release`, by a guard that took the lock. -/
def release (s : Locks κ) (c : Nat) (m : κ) : Option (Locks κ) :=
  match s.held c with
  | [] => none
  | top :: rest =>
    if rank top ≠ rank m ∨ m ∉ s.held c then none
    else some { s with
      locked := update s.locked m false
      held := update s.held c rest }

/-- `g_lock.acquire()` of the kernel lock. -/
def spinKernel (s : Locks κ) (c depth : Nat) (listens : Bool) : Locks κ :=
  if s.bkl.owner.isSome then s.wait c (.kernel depth listens) else s.takeKernel c depth

/-- `bkl::acquire`. -/
def kernelAcquire (s : Locks κ) (c : Nat) : Option (Locks κ) :=
  if s.bkl.owner = some c then some { s with bkl := s.bkl.nest c }
  else if !s.topBelow rank c kScheduler then none
  else some (s.spinKernel c 1 (s.held c).isEmpty)

/-- `bkl::handoff` in `switch_to`, which no ranked lock may be held across. -/
def handoff (s : Locks κ) (c target : Nat) : Option (Locks κ) :=
  if !(s.held c).isEmpty then none
  else if target = 0 then
    if s.bkl.owner = some c then some { s with bkl := s.bkl.drop c } else some s
  else if s.bkl.owner = some c then some { s with bkl := s.bkl.take c target }
  else some (s.spinKernel c target false)

/-- A turn of the loop the processor waits in. -/
def spin (s : Locks κ) (c : Nat) : Option (Locks κ) :=
  match s.waits c with
  | none => none
  | some (.ranked m) => if s.locked m then some s else some (s.take c m)
  | some (.kernel depth _) => if s.bkl.owner.isSome then some s else some (s.takeKernel c depth)

/-- An interrupt in the loop of `bkl::acquire`. -/
def listen (s : Locks κ) (c : Nat) : Option (Locks κ) :=
  match s.waits c with
  | some (.kernel _ true) => some { s with waits := update s.waits c none }
  | _ => none

/-- One operation; a processor that waits does nothing else. -/
def next (s : Locks κ) : LockEvent κ → Option (Locks κ)
  | .acquire c m => if (s.waits c).isSome then none else s.acquire rank c m
  | .release c m => if (s.waits c).isSome then none else s.release rank c m
  | .kernelAcquire c => if (s.waits c).isSome then none else s.kernelAcquire rank c
  | .kernelRelease c =>
    if (s.waits c).isSome then none else some { s with bkl := s.bkl.release c }
  | .handoff c target => if (s.waits c).isSome then none else s.handoff c target
  | .releaseAll c =>
    if (s.waits c).isSome then none else some { s with bkl := s.bkl.releaseAll c }
  | .spin c => s.spin c
  | .listen c => s.listen c

/-- The operations that pass the checks. -/
def Step (s : Locks κ) (e : LockEvent κ) (s' : Locks κ) : Prop := s.next rank e = some s'

end Operations

/-- All locks are free. -/
def free : Locks κ := ⟨fun _ => false, fun _ => [], ⟨none, fun _ => 0⟩, fun _ => none⟩

/-- The first processor waits for a lock the second one holds. -/
def WaitsFor (s : Locks κ) (c d : Nat) : Prop :=
  match s.waits c with
  | none => False
  | some (.ranked m) => m ∈ s.held d
  | some (.kernel _ _) => s.bkl.owner = some d

/-- No processor waits, by way of others, for itself. -/
def NoDeadlock (s : Locks κ) : Prop := ∀ c, ¬ Relation.TransGen s.WaitsFor c c

end Locks

/-- A processor that holds the kernel lock asks only for locks that rank at or above it. -/
def Finer (s : Locks κ) : LockEvent κ → Prop
  | .acquire c m => s.bkl.owner = some c → kScheduler ≤ rank m
  | _ => True

instance (s : Locks κ) (e : LockEvent κ) : Decidable (Finer rank s e) := by
  cases e <;> unfold Finer <;> infer_instance

/-! ### The order -/

/-- The locks one processor holds and waits for are in order, with the kernel lock just below
the locks of rank `kScheduler`. -/
structure InOrder (held : List κ) (owns : Prop) (waits : Option (Wait κ)) : Prop where
  sorted : held.Pairwise fun a b => rank b < rank a
  ranked : ∀ m, waits = some (.ranked m) →
    (∀ h ∈ held, rank h < rank m) ∧ (owns → kScheduler ≤ rank m)
  kernel : ∀ depth listens, waits = some (.kernel depth listens) →
    ¬ owns ∧ ∀ h ∈ held, rank h < kScheduler

/-- All processors keep the order. -/
def Ordered (s : Locks κ) : Prop :=
  ∀ c, InOrder rank (s.held c) (s.bkl.owner = some c) (s.waits c)

section Order
variable {rank} {held : List κ} {owns : Prop} {waits : Option (Wait κ)} {c : Nat} {s s' : Locks κ}

theorem InOrder.of_sorted (hSorted : held.Pairwise fun a b => rank b < rank a) :
    InOrder rank held owns none :=
  ⟨hSorted, fun _ h => (by cases h), fun _ _ h => (by cases h)⟩

theorem InOrder.idle {owns' : Prop} (hOrder : InOrder rank held owns waits) :
    InOrder rank held owns' none :=
  InOrder.of_sorted hOrder.sorted

/-- Letting go of the kernel lock never hurts. -/
theorem InOrder.disown {owns' : Prop} (hOrder : InOrder rank held owns waits) (hOwns : owns' → owns) :
    InOrder rank held owns' waits :=
  ⟨hOrder.sorted, fun m h => ⟨(hOrder.ranked m h).1, fun hOwn => (hOrder.ranked m h).2 (hOwns hOwn)⟩,
    fun d l h => ⟨fun hOwn => (hOrder.kernel d l h).1 (hOwns hOwn), (hOrder.kernel d l h).2⟩⟩

/-- In a stack that is in order the last lock taken ranks highest. -/
theorem InOrder.below {limit : Nat} (hOrder : InOrder rank (s.held c) owns waits)
    (hTop : s.topBelow rank c limit = true) :
    ∀ h ∈ s.held c, rank h < limit := by
  unfold Locks.topBelow at hTop
  have hSorted := hOrder.sorted
  cases hHeld : s.held c with
  | nil => exact fun h hMem => absurd hMem not_mem_nil
  | cons top rest =>
    rw [hHeld] at hTop hSorted
    have hLimit : rank top < limit := by simpa using hTop
    intro h hMem
    rcases mem_cons.mp hMem with rfl | hMem
    · exact hLimit
    · exact (rel_of_pairwise_cons hSorted hMem).trans hLimit

/-- What one processor does matters to the others only if it takes the kernel lock from
them. -/
theorem Ordered.of_one (hOrdered : Ordered rank s) (c : Nat)
    (hHeld : ∀ d, d ≠ c → s'.held d = s.held d) (hWaits : ∀ d, d ≠ c → s'.waits d = s.waits d)
    (hOwner : s'.bkl.owner = s.bkl.owner ∨ s'.bkl.owner = none ∨ s'.bkl.owner = some c)
    (hMine : InOrder rank (s'.held c) (s'.bkl.owner = some c) (s'.waits c)) : Ordered rank s' := by
  intro d
  by_cases hd : d = c
  · rw [hd]
    exact hMine
  · rw [hHeld d hd, hWaits d hd]
    refine (hOrdered d).disown fun hOwn => ?_
    rcases hOwner with hSame | hNone | hTaken
    · rwa [hSame] at hOwn
    · rw [hNone] at hOwn
      cases hOwn
    · rw [hTaken, Option.some.injEq] at hOwn
      exact absurd hOwn.symm hd

/-- Where a lock stands in the order. -/
def Wait.level (rank : κ → Nat) : Wait κ → Nat
  | .ranked m => 2 * rank m
  | .kernel _ _ => 2 * kScheduler - 1

/-- Where the lock a processor waits for stands, above all others if it waits for none. -/
def Locks.level (rank : κ → Nat) (s : Locks κ) (c : Nat) : WithTop Nat :=
  (s.waits c).elim ⊤ fun w => WithTop.some (w.level rank)

/-- What a processor holds stands below what it waits for. -/
theorem Ordered.level_lt (hOrdered : Ordered rank s) {d : Nat} (hWaits : s.WaitsFor c d) :
    s.level rank c < s.level rank d := by
  unfold Locks.WaitsFor at hWaits
  unfold Locks.level
  split at hWaits
  · exact hWaits.elim
  next m hc =>
    cases hd : s.waits d with
    | none => simp [hc]
    | some w =>
      simp only [hc, elim_some, WithTop.coe_lt_coe]
      cases w with
      | ranked m' =>
        have hLt := ((hOrdered d).ranked m' hd).1 m hWaits
        simp only [Wait.level]
        omega
      | kernel depth listens =>
        have hLt := ((hOrdered d).kernel depth listens hd).2 m hWaits
        simp only [Wait.level]
        omega
  next depth listens hc =>
    cases hd : s.waits d with
    | none => simp [hc]
    | some w =>
      simp only [hc, elim_some, WithTop.coe_lt_coe]
      cases w with
      | ranked m' =>
        have hLe := ((hOrdered d).ranked m' hd).2 hWaits
        simp only [Wait.level]
        have hPos : 0 < kScheduler := by decide
        omega
      | kernel depth' listens' =>
        exact absurd hWaits ((hOrdered d).kernel depth' listens' hd).1

theorem Ordered.noDeadlock (hOrdered : Ordered rank s) : s.NoDeadlock := by
  intro c hCycle
  have hLt : Relation.TransGen (· < ·) (s.level rank c) (s.level rank c) :=
    hCycle.lift (s.level rank) fun _ _ hWaits => hOrdered.level_lt hWaits
  rw [Relation.transGen_eq_self] at hLt
  exact lt_irrefl _ hLt

theorem ordered_free : Ordered rank (Locks.free : Locks κ) := fun _ =>
  InOrder.of_sorted List.Pairwise.nil

theorem Ordered.takeKernel (hOrdered : Ordered rank s) (c depth : Nat) :
    Ordered rank (s.takeKernel c depth) := by
  refine hOrdered.of_one c (fun _ _ => rfl) (fun d hd => update_of_ne hd _ _)
    (.inr (.inr rfl)) ?_
  simp only [Locks.takeKernel, update_self]
  exact (hOrdered c).idle

theorem Ordered.wait (hOrdered : Ordered rank s) {w : Wait κ}
    (hMine : InOrder rank (s.held c) (s.bkl.owner = some c) (some w)) :
    Ordered rank (s.wait c w) := by
  refine hOrdered.of_one c (fun _ _ => rfl) (fun d hd => update_of_ne hd _ _)
    (.inl rfl) ?_
  simp only [Locks.wait, update_self]
  exact hMine

/-- Letting go of the kernel lock, and going deeper into it. -/
theorem Ordered.setBkl (hOrdered : Ordered rank s) {b : Bkl}
    (hOwner : b.owner = s.bkl.owner ∨ b.owner = none) : Ordered rank { s with bkl := b } := by
  refine hOrdered.of_one 0 (fun _ _ => rfl) (fun _ _ => rfl) (hOwner.imp_right .inl)
    ((hOrdered 0).disown fun hOwn => ?_)
  rcases hOwner with hSame | hNone
  · rwa [hSame] at hOwn
  · rw [hNone] at hOwn
    cases hOwn

theorem Ordered.spinKernel (hOrdered : Ordered rank s) (depth : Nat) (listens : Bool)
    (hOwner : s.bkl.owner ≠ some c) (hBelow : ∀ h ∈ s.held c, rank h < kScheduler) :
    Ordered rank (s.spinKernel c depth listens) := by
  unfold Locks.spinKernel
  split
  · exact hOrdered.wait ⟨(hOrdered c).sorted, fun _ h => (by cases h), fun _ _ _ => ⟨hOwner, hBelow⟩⟩
  · exact hOrdered.takeKernel c depth

theorem Ordered.kernelAcquire (hOrdered : Ordered rank s)
    (hAcquire : s.kernelAcquire rank c = some s') : Ordered rank s' := by
  unfold Locks.kernelAcquire at hAcquire
  split at hAcquire
  · cases hAcquire
    exact hOrdered.setBkl (.inl rfl)
  next hOwner =>
    simp only [ite_none_left_eq_some, not_eq_true', not_eq_false, Option.some.injEq] at hAcquire
    obtain ⟨hTop, rfl⟩ := hAcquire
    exact hOrdered.spinKernel 1 _ hOwner ((hOrdered c).below hTop)

theorem Ordered.handoff (hOrdered : Ordered rank s) {target : Nat}
    (hHandoff : s.handoff c target = some s') : Ordered rank s' := by
  simp only [Locks.handoff, ite_none_left_eq_some, not_eq_true', not_eq_false,
    List.isEmpty_iff] at hHandoff
  obtain ⟨hEmpty, hHandoff⟩ := hHandoff
  split at hHandoff
  · split at hHandoff <;> cases hHandoff
    · exact hOrdered.setBkl (.inr rfl)
    · exact hOrdered
  split at hHandoff <;> cases hHandoff
  next hOwner => exact hOrdered.setBkl (.inl hOwner.symm)
  next hOwner =>
    refine hOrdered.spinKernel target false hOwner fun h hMem => ?_
    rw [hEmpty] at hMem
    exact absurd hMem not_mem_nil

theorem Ordered.listen (hOrdered : Ordered rank s) (hListen : s.listen c = some s') :
    Ordered rank s' := by
  unfold Locks.listen at hListen
  split at hListen
  · cases hListen
    refine hOrdered.of_one c (fun _ _ => rfl) (fun d hd => update_of_ne hd _ _)
      (.inl rfl) ?_
    simp only [update_self]
    exact (hOrdered c).idle
  · cases hListen

end Order

section Steps
variable {rank} [DecidableEq κ] {c : Nat} {m : κ} {s s' : Locks κ}

theorem Ordered.take (hOrdered : Ordered rank s) (hBelow : ∀ h ∈ s.held c, rank h < rank m) :
    Ordered rank (s.take c m) := by
  refine hOrdered.of_one c (fun d hd => update_of_ne hd _ _)
    (fun d hd => update_of_ne hd _ _) (.inl rfl) ?_
  simp only [Locks.take, update_self]
  exact InOrder.of_sorted (pairwise_cons.mpr ⟨hBelow, (hOrdered c).sorted⟩)

theorem Ordered.acquire (hOrdered : Ordered rank s)
    (hFiner : s.bkl.owner = some c → kScheduler ≤ rank m) (hAcquire : s.acquire rank c m = some s') :
    Ordered rank s' := by
  simp only [Locks.acquire, ite_none_left_eq_some, not_eq_true', not_eq_false] at hAcquire
  obtain ⟨hTop, -, hAcquire⟩ := hAcquire
  have hBelow := (hOrdered c).below hTop
  split at hAcquire <;> cases hAcquire
  · refine hOrdered.wait ⟨(hOrdered c).sorted, fun m' h => ?_, fun _ _ h => by cases h⟩
    cases h
    exact ⟨hBelow, hFiner⟩
  · exact hOrdered.take hBelow

theorem Ordered.release (hOrdered : Ordered rank s) (hIdle : s.waits c = none)
    (hRelease : s.release rank c m = some s') : Ordered rank s' := by
  unfold Locks.release at hRelease
  split at hRelease
  · cases hRelease
  next top rest hHeld =>
    obtain ⟨-, hSome⟩ := ite_none_left_eq_some.mp hRelease
    cases hSome
    refine hOrdered.of_one c (fun d hd => update_of_ne hd _ _) (fun _ _ => rfl)
      (.inl rfl) ?_
    have hSorted := (hOrdered c).sorted
    rw [hHeld] at hSorted
    simp only [update_self, hIdle]
    exact InOrder.of_sorted hSorted.of_cons

theorem Ordered.spin (hOrdered : Ordered rank s) (hSpin : s.spin c = some s') :
    Ordered rank s' := by
  unfold Locks.spin at hSpin
  split at hSpin
  · cases hSpin
  next m hWaits =>
    split at hSpin <;> cases hSpin
    · exact hOrdered
    · exact hOrdered.take ((hOrdered c).ranked m hWaits).1
  next depth listens hWaits =>
    split at hSpin <;> cases hSpin
    · exact hOrdered
    · exact hOrdered.takeKernel c depth

/-- **Every operation of a processor that asks for finer locks only keeps the order.** -/
theorem ordered_step {e : LockEvent κ} (hOrdered : Ordered rank s) (hFiner : Finer rank s e)
    (hStep : s.Step rank e s') : Ordered rank s' := by
  cases e with
  | acquire c m => exact hOrdered.acquire hFiner (ite_none_left_eq_some.mp hStep).2
  | release c m =>
    obtain ⟨hIdle, hRelease⟩ := ite_none_left_eq_some.mp hStep
    exact hOrdered.release (by simpa using hIdle) hRelease
  | kernelAcquire c => exact hOrdered.kernelAcquire (ite_none_left_eq_some.mp hStep).2
  | kernelRelease c =>
    obtain ⟨-, hSome⟩ := ite_none_left_eq_some.mp hStep
    cases hSome
    exact hOrdered.setBkl (s.bkl.release_owner c)
  | handoff c target => exact hOrdered.handoff (ite_none_left_eq_some.mp hStep).2
  | releaseAll c =>
    obtain ⟨-, hSome⟩ := ite_none_left_eq_some.mp hStep
    cases hSome
    exact hOrdered.setBkl (s.bkl.releaseAll_owner c)
  | spin c => exact hOrdered.spin hStep
  | listen c => exact hOrdered.listen hStep

end Steps

/-- **As long as processors that hold the kernel lock ask for finer locks only, there is no
deadlock.** -/
theorem noDeadlock_of_finer [DecidableEq κ] {s : Locks κ} {es : List (LockEvent κ)}
    (hRun : Run (Restrict (Finer rank) (Locks.Step rank)) Locks.free es s) : s.NoDeadlock := by
  exact (hRun.invariant_of (I := Ordered rank) (fun _ _ _ => ordered_step) ordered_free).noDeadlock

/-! ### Two paths that cross -/

/-- The locks `exit_current` takes for a process with one terminal and no open pipe: the
kernel lock, `pty::close` and the wake of its readers, `destroy_address_space` with one frame,
`ipc::abandon`, `shm::abandon`, `object::close_all`, and the switch to a new task. -/
def exitCurrent (c : Nat) : List (LockEvent RankedLock) :=
  [.kernelAcquire c, .acquire c .pty, .release c .pty, .kernelAcquire c, .kernelRelease c,
    .acquire c .vmm, .acquire c .pmm, .release c .pmm, .release c .vmm, .acquire c .ipc,
    .release c .ipc, .acquire c .shm, .release c .shm, .acquire c .handles, .release c .handles,
    .handoff c 0]

/-- The locks of the wait in `ipc::call`: `block_on_releasing` takes the kernel lock, drops the
lock of the ports and switches, and back again takes the lock of the ports. -/
def callWaits (c : Nat) : List (LockEvent RankedLock) :=
  [.acquire c .ipc, .kernelAcquire c, .release c .ipc, .handoff c 0, .handoff c 1,
    .kernelRelease c, .acquire c .ipc, .release c .ipc]

/-- A process ends on one processor while another begins to wait for an answer. -/
def crossedEvents : List (LockEvent RankedLock) :=
  (exitCurrent 0).take 9 ++ (callWaits 1).take 1 ++ [.acquire 0 .ipc, .kernelAcquire 1]

example : crossedEvents.filter (fun e => e.cpu == 0) = (exitCurrent 0).take 10 := rfl

example : crossedEvents.filter (fun e => e.cpu == 1) = (callWaits 1).take 2 := rfl

/-- The first holds the kernel lock and waits for the ports, the second holds the ports and
waits for the kernel lock. -/
theorem not_noDeadlock_crossedEvents : ¬ ∀ (s : Locks RankedLock) es,
    Run (Locks.Step RankedLock.rank) Locks.free es s → s.NoDeadlock := by
  intro hAll
  obtain ⟨s, hRun, hZero, hOne, hIpc, hOwner⟩ :
      ∃ s, Run (Locks.Step RankedLock.rank) Locks.free crossedEvents s ∧
        s.waits 0 = some (.ranked .ipc) ∧ s.waits 1 = some (.kernel 1 false) ∧
          RankedLock.ipc ∈ s.held 1 ∧ s.bkl.owner = some 0 :=
    Run.exists_of_foldlM (fun _ _ _ h => h) (by decide +kernel)
  have hThere : s.WaitsFor 0 1 := by
    simp only [Locks.WaitsFor, hZero]
    exact hIpc
  have hBack : s.WaitsFor 1 0 := by
    simp only [Locks.WaitsFor, hOne]
    exact hOwner
  exact hAll s crossedEvents hRun 0 (Relation.TransGen.tail (Relation.TransGen.single hThere) hBack)

/-- A process waits for an answer while another processor holds the kernel lock and takes finer
locks; it gets the kernel lock when that one is done. -/
def finerEvents : List (LockEvent RankedLock) :=
  [.kernelAcquire 0, .acquire 1 .ipc, .acquire 0 .vmm, .kernelAcquire 1, .acquire 0 .pmm,
    .release 0 .pmm, .release 0 .vmm, .kernelRelease 0, .spin 1, .release 1 .ipc, .kernelAcquire 0]

theorem noDeadlock_finerEvents : ∃ s : Locks RankedLock,
    Run (Restrict (Finer RankedLock.rank) (Locks.Step RankedLock.rank)) Locks.free finerEvents s ∧
      s.WaitsFor 0 1 ∧ s.NoDeadlock := by
  obtain ⟨s, hRun, hZero, hOwner⟩ :
      ∃ s, Run (Restrict (Finer RankedLock.rank) (Locks.Step RankedLock.rank)) Locks.free
        finerEvents s ∧ s.waits 0 = some (.kernel 1 true) ∧ s.bkl.owner = some 1 :=
    Run.exists_of_guarded (fun _ _ _ h => h) (by decide +kernel)
  refine ⟨s, hRun, ?_, noDeadlock_of_finer RankedLock.rank hRun⟩
  simp only [Locks.WaitsFor, hZero]
  exact hOwner

end LeahOS.Sched
