import Mathlib.Data.List.FinRange
import Mathlib.Logic.Function.Basic
import LeahOS.Lib.Run

/-!
# The mutex (`user/libc/mutex.c`) and the futex under it

A thread is at one point of `mutex_lock`, `mutex_trylock` or `mutex_unlock`, or outside of them.
Each step is one atomic operation on the lock word or one step of the kernel: `sys_futex` checks
the value, `block_on` blocks the task, and `wake_n` wakes one. A blocked task can also be roused
by something else, a signal for one.

The channel a task blocks on is the virtual address of the word, and the task table is that of all
processes. So the tasks here are those of any number of processes that have a mutex at this address,
each process with a word of its own.

Two properties of different parts of the protocol are proved apart.

* Only one thread of a process holds the lock. This is about the word alone (`Excl`).
* Nobody is left asleep. While somebody waits the word is 2, or somebody `Attends`: some thread
  will still set the word to 2 or wake a sleeper (`Cared`). A wake that comes between the value
  check of a waiter and its block finds nobody to wake, and then nobody attends to that waiter;
  `strandingMoves` is that run. A wake that finds a task of another process is spent on it. `Prompt`
  rules both out.
-/

namespace LeahOS.Libc
open Lib Function

/-- Where a thread is. -/
inductive Pc
  | out
  | owner
  /-- In the loop of `mutex_lock`, with what the word was. -/
  | mark (c : Int)
  /-- In `futex_wait`, before the value check. -/
  | check
  /-- In `futex_wait`, between the check and the block. -/
  | block
  | blocked
  /-- In the loop of `mutex_lock`, before the second `cas`. -/
  | retry
  /-- In `mutex_unlock`, before the store. -/
  | store
  /-- In `mutex_unlock`, before the wake. -/
  | wake
  deriving DecidableEq

/-- What a thread does next: it calls a function, takes the next step of the call it is in, or
is roused. -/
inductive Move
  | lock
  | trylock
  | unlock
  | advance
  | rouse

/-- `cas`: what the word is afterwards. -/
def cas (word expected desired : Int) : Int := if word = expected then desired else word

/-- The move of one thread: the word and where the thread is afterwards. The wake is not here,
since it moves two threads. -/
def act (word : Int) : Pc → Move → Option (Int × Pc)
  | .out, .lock => some (cas word 0 1, if word = 0 then .owner else .mark word)
  | .out, .trylock => some (cas word 0 1, if word = 0 then .owner else .out)
  | .owner, .unlock => some (word - 1, if word ≠ 1 then .store else .out)
  | .mark c, .advance =>
    if c = 2 then some (word, .check)
    else some (cas word 1 2, if word ≠ 0 then .check else .retry)
  | .check, .advance => some (word, if word ≠ 2 then .retry else .block)
  | .block, .advance => some (word, .blocked)
  | .retry, .advance => some (cas word 0 2, if word = 0 then .owner else .mark word)
  | .store, .advance => some (0, .wake)
  | .blocked, .rouse => some (word, .retry)
  | _, _ => none

/-- The lock word of each process, and the threads of all of them. -/
structure Mutex (n : Nat) where
  word : Nat → Int
  pc : Fin n → Pc

namespace Mutex
variable {n : Nat} (proc : Fin n → Nat)

/-- A mutex nobody uses. -/
def init (n : Nat) : Mutex n := ⟨fun _ => 0, fun _ => .out⟩

/-- `wake_n` for one task: the first in the table that is blocked on the address. -/
def wakeOne (pc : Fin n → Pc) : Fin n → Pc :=
  match (List.finRange n).find? fun u => pc u = .blocked with
  | some u => update pc u .retry
  | none => pc

/-- One step of one thread. -/
def next (s : Mutex n) (e : Fin n × Move) : Option (Mutex n) :=
  match s.pc e.1, e.2 with
  | .wake, .advance => some ⟨s.word, wakeOne (update s.pc e.1 .out)⟩
  | p, m => (act (s.word (proc e.1)) p m).map fun r =>
      ⟨update s.word (proc e.1) r.1, update s.pc e.1 r.2⟩

/-- The steps of the threads. -/
def Step (s : Mutex n) (e : Fin n × Move) (s' : Mutex n) : Prop := s.next proc e = some s'

/-- At most one thread of a process is between lock and unlock; and when the word is 0 and every
thread of the process is outside of the calls or blocked in one, none is blocked. -/
structure Sound (s : Mutex n) : Prop where
  one : ∀ t u, proc t = proc u → s.pc t = .owner → s.pc u = .owner → t = u
  awake : ∀ p, s.word p = 0 → (∀ t, proc t = p → s.pc t = .out ∨ s.pc t = .blocked) →
    ∀ t, proc t = p → s.pc t ≠ .blocked

/-- No wake is done while a thread of the process is between its value check and its block, or one
of another process is blocked. -/
def Prompt (s : Mutex n) (e : Fin n × Move) : Prop :=
  s.pc e.1 = .wake → ∀ u, s.pc u ≠ if proc u = proc e.1 then .block else .blocked

instance (s : Mutex n) (e : Fin n × Move) : Decidable (s.Prompt proc e) :=
  inferInstanceAs (Decidable (_ → ∀ _, _))

end Mutex

/-! ### What one thread does -/

/-- The thread has the lock, until the store of `mutex_unlock`. -/
def Pc.Holds (p : Pc) : Prop := p = .owner ∨ p = .store

/-- The thread is blocked or is about to be, without looking at the word again. -/
def Pc.Waits (p : Pc) : Prop := p = .block ∨ p = .blocked

/-- The thread is going to look at the word again or to wake a thread. -/
def Pc.Attends : Pc → Prop
  | .mark _ | .check | .retry | .store | .wake => True
  | _ => False

/-- The lock is taken only when the word is 0, which makes it another number, and the word
becomes 0 only through the thread that has the lock. -/
structure Grips (word : Int) (p : Pc) (word' : Int) (p' : Pc) : Prop where
  takes : p'.Holds → word' ≠ 0 ∧ (p.Holds ∨ word = 0)
  drops : word' = 0 → word = 0 ∨ p.Holds

/-- Nobody begins to wait unless the word is 2, and whoever stops attending or changes a word
that is 2 leaves a word that is 2 or attends itself. -/
structure Cares (word : Int) (p : Pc) (word' : Int) (p' : Pc) : Prop where
  waits : p'.Waits → p.Waits ∨ word = 2
  marked : word = 2 → word' = 2 ∨ p'.Attends
  attends : p.Attends → word' = 2 ∨ p'.Attends

variable {p p' : Pc} {word word' : Int} {m : Move}

/-- `cas` from 0 with the two ways on. -/
theorem grips_cas {desired : Int} {q : Pc} (hDesired : desired ≠ 0) (hq : ¬ q.Holds) :
    Grips word p (cas word 0 desired) (if word = 0 then .owner else q) := by
  unfold cas
  by_cases hWord : word = 0
  · rw [if_pos hWord, if_pos hWord]
    exact ⟨fun _ => ⟨hDesired, .inr hWord⟩, fun hZero => absurd hZero hDesired⟩
  · rw [if_neg hWord, if_neg hWord]
    exact ⟨fun hHolds => absurd hHolds hq, .inl⟩

/-- A step that leaves a word that is not 0 as it is, or makes it something else but 0. -/
theorem grips_of_ne (hp' : ¬ p'.Holds) (hWord : word' = 0 → word = 0) : Grips word p word' p' :=
  ⟨fun hHolds => absurd hHolds hp', fun hZero => .inl (hWord hZero)⟩

theorem grips_act (hAct : act word p m = some (word', p')) : Grips word p word' p' := by
  unfold act at hAct
  split at hAct
  · cases hAct
    exact grips_cas (by decide) (by simp [Pc.Holds])
  · cases hAct
    exact grips_cas (by decide) (by simp [Pc.Holds])
  · -- the owner unlocks: it keeps the lock for the store if the word was not 1
    cases hAct
    refine ⟨fun hHolds => ⟨?_, .inl (.inl rfl)⟩, fun _ => .inr (.inl rfl)⟩
    intro hZero
    rw [if_neg (not_not.mpr (by omega))] at hHolds
    simp [Pc.Holds] at hHolds
  next c =>
    split at hAct
    · cases hAct
      exact grips_of_ne (by simp [Pc.Holds]) id
    · cases hAct
      refine grips_of_ne (by split <;> simp [Pc.Holds]) fun hZero => ?_
      unfold cas at hZero
      split at hZero
      · cases hZero
      · exact hZero
  · cases hAct
    exact grips_of_ne (by split <;> simp [Pc.Holds]) id
  · cases hAct
    exact grips_of_ne (by simp [Pc.Holds]) id
  · cases hAct
    exact grips_cas (by decide) (by simp [Pc.Holds])
  · cases hAct
    exact ⟨fun hHolds => by simp [Pc.Holds] at hHolds, fun _ => .inr (.inr rfl)⟩
  · cases hAct
    exact grips_of_ne (by simp [Pc.Holds]) id
  · cases hAct

/-- A step of a thread that goes on attending. -/
theorem cares_of_attends (hp' : p'.Attends) (hNot : ¬ p'.Waits) :
    Cares word p word' p' :=
  ⟨fun hWaits => absurd hWaits hNot, fun _ => .inr hp', fun _ => .inr hp'⟩

theorem cares_act (hAct : act word p m = some (word', p')) : Cares word p word' p' := by
  unfold act at hAct
  split at hAct
  · cases hAct
    by_cases hWord : word = 0
    · subst hWord
      refine ⟨?_, fun hTwo => absurd hTwo (by decide), fun hAttends => hAttends.elim⟩
      simp [Pc.Waits]
    · rw [if_neg hWord]
      exact cares_of_attends trivial (by simp [Pc.Waits])
  · -- a failed `trylock` leaves everything as it is
    cases hAct
    refine ⟨?_, fun hTwo => ?_, fun hAttends => hAttends.elim⟩
    · split <;> simp [Pc.Waits]
    · subst hTwo
      exact .inl rfl
  · cases hAct
    refine ⟨?_, fun hTwo => ?_, fun hAttends => hAttends.elim⟩
    · split <;> simp [Pc.Waits]
    · subst hTwo
      exact .inr trivial
  · split at hAct
    · cases hAct
      exact cares_of_attends trivial (by simp [Pc.Waits])
    · cases hAct
      split
      · exact cares_of_attends trivial (by simp [Pc.Waits])
      · exact cares_of_attends trivial (by simp [Pc.Waits])
  · cases hAct
    by_cases hWord : word = 2
    · subst hWord
      exact ⟨fun _ => .inr rfl, fun _ => .inl rfl, fun _ => .inl rfl⟩
    · rw [if_pos hWord]
      exact cares_of_attends trivial (by simp [Pc.Waits])
  · cases hAct
    exact ⟨fun _ => .inl (.inl rfl), .inl, fun hAttends => hAttends.elim⟩
  · -- the second `cas` takes the lock with 2, since there may be others asleep
    cases hAct
    by_cases hWord : word = 0
    · subst hWord
      exact ⟨by simp [Pc.Waits], fun _ => .inl rfl, fun _ => .inl rfl⟩
    · rw [if_neg hWord]
      exact cares_of_attends trivial (by simp [Pc.Waits])
  · cases hAct
    exact cares_of_attends trivial (by simp [Pc.Waits])
  · cases hAct
    exact cares_of_attends trivial (by simp [Pc.Waits])
  · cases hAct

/-! ### What the threads do together -/

namespace Mutex
variable {n : Nat} {proc : Fin n → Nat} {s s' : Mutex n} {e : Fin n × Move}

/-- What a step can be: one thread makes a move, or one wakes another. -/
theorem next_cases (hNext : s.next proc e = some s') :
    (∃ word p, act (s.word (proc e.1)) (s.pc e.1) e.2 = some (word, p) ∧
      s' = ⟨update s.word (proc e.1) word, update s.pc e.1 p⟩) ∨
    (s.pc e.1 = .wake ∧ s' = ⟨s.word, wakeOne (update s.pc e.1 .out)⟩) := by
  unfold next at hNext
  split at hNext
  next hWake _ => exact .inr ⟨hWake, (Option.some.inj hNext).symm⟩
  · obtain ⟨r, hAct, rfl⟩ := Option.map_eq_some_iff.mp hNext
    exact .inl ⟨r.1, r.2, hAct, rfl⟩

/-- What `wake_n` does: it wakes a thread that is blocked, or there is none. -/
theorem wakeOne_cases (pc : Fin n → Pc) :
    (∃ u, pc u = .blocked ∧ wakeOne pc = update pc u .retry) ∨
      (wakeOne pc = pc ∧ ∀ u, pc u ≠ .blocked) := by
  unfold wakeOne
  cases hFind : (List.finRange n).find? fun u => pc u = .blocked with
  | some u => exact .inl ⟨u, by simpa using List.find?_some hFind, rfl⟩
  | none =>
    refine .inr ⟨rfl, fun u => ?_⟩
    simpa using List.find?_eq_none.mp hFind u (List.mem_finRange u)

/-- One thread of a process at most has the lock, and the word says so. -/
structure Excl (proc : Fin n → Nat) (s : Mutex n) : Prop where
  word : ∀ t, (s.pc t).Holds → s.word (proc t) ≠ 0
  one : ∀ t u, proc t = proc u → (s.pc t).Holds → (s.pc u).Holds → t = u

/-- As long as a thread waits, the word is 2 or a thread of its process attends. -/
def Cared (proc : Fin n → Nat) (s : Mutex n) : Prop :=
  ∀ t, (s.pc t).Waits → s.word (proc t) = 2 ∨ ∃ u, proc u = proc t ∧ (s.pc u).Attends

variable {p : Pc} {t : Fin n} {word : Int}

/-- What holds where a thread is, after one has moved. -/
theorem at_update {P : Pc → Prop} {pc : Fin n → Pc} {u : Fin n} (h : P (update pc t p u)) :
    (u = t ∧ P p) ∨ (u ≠ t ∧ P (pc u)) := by
  by_cases hu : u = t
  · rw [hu, update_self] at h
    exact .inl ⟨hu, h⟩
  · rw [update_of_ne hu] at h
    exact .inr ⟨hu, h⟩

/-- A thread that has the lock had it before, or it is the one that moved. -/
theorem Excl.move (hExcl : s.Excl proc) (hGrips : Grips (s.word (proc t)) (s.pc t) word p) :
    Excl proc ⟨update s.word (proc t) word, update s.pc t p⟩ := by
  -- besides the thread that moved nobody of its process holds a lock that it took or gave up
  have hOther : ∀ u, u ≠ t → proc u = proc t → (s.pc u).Holds → word ≠ 0 ∧ ¬ p.Holds := by
    intro u hu hSame hHolds
    have hWord := hSame ▸ hExcl.word u hHolds
    refine ⟨fun hZero => ?_, fun hp => ?_⟩
    · rcases hGrips.drops hZero with hWas | hMine
      · exact hWord hWas
      · exact hu (hExcl.one u t hSame hHolds hMine)
    · rcases (hGrips.takes hp).2 with hMine | hWas
      · exact hu (hExcl.one u t hSame hHolds hMine)
      · exact hWord hWas
  refine ⟨fun u hHolds => ?_, fun u v hSame hHoldsU hHoldsV => ?_⟩
  · dsimp only
    rcases at_update hHolds with ⟨rfl, hp⟩ | ⟨hu, hWas⟩
    · rw [update_self]
      exact (hGrips.takes hp).1
    · by_cases hProc : proc u = proc t
      · rw [hProc, update_self]
        exact (hOther u hu hProc hWas).1
      · rw [update_of_ne hProc]
        exact hExcl.word u hWas
  · rcases at_update hHoldsU with ⟨rfl, hp⟩ | ⟨hu, hWasU⟩
    · rcases at_update hHoldsV with ⟨rfl, -⟩ | ⟨hv, hWasV⟩
      · rfl
      · exact absurd hp (hOther v hv hSame.symm hWasV).2
    · rcases at_update hHoldsV with ⟨rfl, hp⟩ | ⟨-, hWasV⟩
      · exact absurd hp (hOther u hu hSame hWasU).2
      · exact hExcl.one u v hSame hWasU hWasV

/-- A thread that does not get the lock leaves the word as it is. -/
theorem Excl.pass (hExcl : s.Excl proc) (t : Fin n) (hp : ¬ p.Holds) :
    Excl proc ⟨s.word, update s.pc t p⟩ := by
  have hGrips : Grips (s.word (proc t)) (s.pc t) (s.word (proc t)) p := grips_of_ne hp id
  have hMove := hExcl.move hGrips
  rwa [update_eq_self] at hMove

theorem Excl.step (hExcl : s.Excl proc) (hStep : Step proc s e s') : s'.Excl proc := by
  rcases next_cases hStep with ⟨word, p, hAct, rfl⟩ | ⟨hWake, rfl⟩
  · exact hExcl.move (grips_act hAct)
  · have hOut := hExcl.pass e.1 (show ¬ Pc.out.Holds by simp [Pc.Holds])
    rcases wakeOne_cases (update s.pc e.1 .out) with ⟨u, -, hWoken⟩ | ⟨hNone, -⟩
    · rw [hWoken]
      exact hOut.pass u (by simp [Pc.Holds])
    · rw [hNone]
      exact hOut

theorem Cared.move (hCared : s.Cared proc) (hCares : Cares (s.word (proc t)) (s.pc t) word p) :
    Cared proc ⟨update s.word (proc t) word, update s.pc t p⟩ := by
  have hMine : p.Attends → ∃ u, proc u = proc t ∧ ((update s.pc t p) u).Attends := fun hp =>
    ⟨t, rfl, by rwa [update_self]⟩
  intro u hWaits
  dsimp only
  by_cases hProc : proc u = proc t
  · -- before the step the word was 2 or somebody attended
    have hBefore : s.word (proc t) = 2 ∨ ∃ v, proc v = proc t ∧ (s.pc v).Attends := by
      rcases at_update hWaits with ⟨-, hp⟩ | ⟨-, hWas⟩
      · rcases hCares.waits hp with hWas | hTwo
        · exact hCared t hWas
        · exact .inl hTwo
      · exact hProc ▸ hCared u hWas
    rw [hProc, update_self]
    rcases hBefore with hTwo | ⟨v, hSame, hAttends⟩
    · exact (hCares.marked hTwo).imp id hMine
    · by_cases hv : v = t
      · subst hv
        exact (hCares.attends hAttends).imp id hMine
      · exact .inr ⟨v, hSame, by rwa [update_of_ne hv]⟩
  · -- nothing happens to the other processes
    have hElse : ∀ v, proc v = proc u → update s.pc t p v = s.pc v := by
      intro v hv
      refine update_of_ne ?_ _ _
      rintro rfl
      exact hProc hv.symm
    dsimp only at hWaits
    rw [hElse u rfl] at hWaits
    rw [update_of_ne hProc]
    rcases hCared u hWaits with hTwo | ⟨v, hSame, hAttends⟩
    · exact .inl hTwo
    · exact .inr ⟨v, hSame, by rwa [hElse v hSame]⟩

/-- A wake that finds nobody about to block, and nobody of another process. -/
theorem Cared.wake (hCared : s.Cared proc) (hPrompt : s.Prompt proc e) (hWake : s.pc e.1 = .wake) :
    Cared proc ⟨s.word, wakeOne (update s.pc e.1 .out)⟩ := by
  have hFree := hPrompt hWake
  intro t hWaits
  by_cases hProc : proc t = proc e.1
  · rcases wakeOne_cases (update s.pc e.1 .out) with ⟨u, hAsleep, hWoken⟩ | ⟨hNone, hAwake⟩
    · -- whoever is woken is of this process, and attends
      have hSame : proc u = proc e.1 := by
        by_contra hOther
        rcases at_update (P := (· = Pc.blocked)) hAsleep with ⟨rfl, -⟩ | ⟨-, hWas⟩
        · exact hOther rfl
        · exact hFree u (by rw [if_neg hOther]; exact hWas)
      refine .inr ⟨u, hSame.trans hProc.symm, ?_⟩
      dsimp only
      rw [hWoken, update_self]
      trivial
    · rw [hNone] at hWaits
      rcases hWaits with hBlock | hBlocked
      · rcases at_update (P := (· = Pc.block)) hBlock with ⟨-, hOut⟩ | ⟨-, hWas⟩
        · cases hOut
        · exact absurd hWas (by simpa [hProc] using hFree t)
      · exact absurd hBlocked (hAwake t)
  · -- the tasks of another process are where they were
    have hElse : ∀ v, proc v = proc t → wakeOne (update s.pc e.1 .out) v = s.pc v := by
      intro v hv
      have hNe : v ≠ e.1 := by
        rintro rfl
        exact hProc hv.symm
      rcases wakeOne_cases (update s.pc e.1 .out) with ⟨u, hAsleep, hWoken⟩ | ⟨hNone, -⟩
      · have hu : v ≠ u := by
          rintro rfl
          rw [update_of_ne hNe] at hAsleep
          exact hFree v (by rw [if_neg (hv ▸ hProc)]; exact hAsleep)
        rw [hWoken, update_of_ne hu, update_of_ne hNe]
      · rw [hNone, update_of_ne hNe]
    dsimp only at hWaits
    rw [hElse t rfl] at hWaits
    rcases hCared t hWaits with hTwo | ⟨v, hSame, hAttends⟩
    · exact .inl hTwo
    · exact .inr ⟨v, hSame, by dsimp only; rwa [hElse v hSame]⟩

theorem Cared.step (hCared : s.Cared proc) (hStep : Restrict (Prompt proc) (Step proc) s e s') :
    s'.Cared proc := by
  obtain ⟨hPrompt, hNext⟩ := hStep
  rcases next_cases hNext with ⟨word, p, hAct, rfl⟩ | ⟨hWake, rfl⟩
  · exact hCared.move (cares_act hAct)
  · exact hCared.wake hPrompt hWake

theorem excl_init (proc : Fin n → Nat) : (init n).Excl proc :=
  ⟨fun _ hHolds => by simp [init, Pc.Holds] at hHolds,
    fun _ _ _ hHolds => by simp [init, Pc.Holds] at hHolds⟩

theorem cared_init (proc : Fin n → Nat) : (init n).Cared proc :=
  fun _ hWaits => by simp [init, Pc.Waits] at hWaits

/-- Mutual exclusion needs no condition. -/
theorem excl_of_run {es : List (Fin n × Move)} (hRun : Run (Step proc) (init n) es s) :
    s.Excl proc :=
  hRun.invariant (fun _ _ _ hExcl hStep => hExcl.step hStep) (excl_init proc)

/-- Thread 0 has the lock and thread 1 goes to sleep on it; thread 0 unlocks and wakes it. -/
def handOver : List (Fin 3 × Move) :=
  [(0, .lock), (1, .lock), (1, .advance), (1, .advance), (1, .advance), (0, .unlock),
    (0, .advance), (0, .advance), (1, .advance), (1, .unlock), (1, .advance), (1, .advance)]

/-- Threads 0 and 1 are of one process, and thread 2 is of another. -/
def twoProcesses (t : Fin 3) : Nat := t / 2

/-- The same, but thread 0 unlocks after thread 1 has checked the value and before it blocks. -/
def strandingMoves : List (Fin 2 × Move) :=
  [(0, .lock), (1, .lock), (1, .advance), (1, .advance), (0, .unlock), (0, .advance),
    (0, .advance), (1, .advance)]

end Mutex
end LeahOS.Libc
