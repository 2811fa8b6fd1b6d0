import Mathlib.Order.Basic
import Mathlib.Tactic.Common

/-!
# Bounded iteration of a relation

`Iter R n a b` is the `n`-fold composition of `R`. A loop that may go round
between `lo` and `hi` times (a negative `hi` is no limit) is `Between R lo hi`.

A search for such a run must not go round on a step that leads nowhere, so it
leaves the loop at the first step from a point to itself, whatever the count is
then. `Exits` is that rule. It never leaves the loop where `Between` does not
(`Exits.between`), and it finds every run of `Between` as long as one round is
enough or a step that leads nowhere can be made at the end of the run as well
(`Between.exits`).
-/

namespace LeahOS.Lib
section Iteration
variable {α : Type*} {R : α → α → Prop} {lo hi : Int}

/-- The composition of `n` steps of `R`. -/
inductive Iter (R : α → α → Prop) : Nat → α → α → Prop
  | zero (a : α) : Iter R 0 a a
  | succ {n : Nat} {a b c : α} : R a b → Iter R n b c → Iter R (n + 1) a c

/-- A number of rounds between the two bounds, a negative upper bound being none. -/
def Between (R : α → α → Prop) (lo hi : Int) (a b : α) : Prop :=
  ∃ n : Nat, lo ≤ n ∧ (hi < 0 ∨ (n : Int) ≤ hi) ∧ Iter R n a b

/-- Leaving a loop of which `count` rounds are done: either there have been
enough of them, or the next round leads nowhere and is taken for all that are
missing, or one more round makes progress. -/
inductive Exits (R : α → α → Prop) (lo hi : Int) : Nat → α → α → Prop
  | enough {count : Nat} (a : α) : lo ≤ count → Exits R lo hi count a a
  | idle {count : Nat} {a : α} : hi < 0 ∨ (count : Int) < hi → R a a → Exits R lo hi count a a
  | more {count : Nat} {a b c : α} : hi < 0 ∨ (count : Int) < hi → R a b → b ≠ a →
      Exits R lo hi (count + 1) b c → Exits R lo hi count a c

theorem Iter.of_loop {a : α} (hLoop : R a a) (n : Nat) : Iter R n a a := by
  induction n with
  | zero => exact .zero a
  | succ n ih => exact .succ hLoop ih

/-- What every step keeps, every run keeps. -/
theorem Iter.preserves {P : α → Prop} (hStep : ∀ a b, R a b → P a → P b) {n : Nat} {a b : α}
    (hIter : Iter R n a b) (ha : P a) : P b := by
  induction hIter with
  | zero => exact ha
  | succ hR _ ih => exact ih (hStep _ _ hR ha)

/-- What leaves the loop with one relation does so with another that has its steps. -/
theorem Exits.imp {S : α → α → Prop} {P : α → Prop} (hStep : ∀ a b, P a → R a b → S a b ∧ P b)
    {count : Nat} {a b : α} (hExits : Exits R lo hi count a b) (ha : P a) :
    Exits S lo hi count a b := by
  induction hExits with
  | enough a hLo => exact .enough a hLo
  | idle hHi hLoop => exact .idle hHi (hStep _ _ ha hLoop).1
  | more hHi hFirst hNe _ ih =>
    obtain ⟨hOther, hb⟩ := hStep _ _ ha hFirst
    exact .more hHi hOther hNe (ih hb)

/-- A round that leads nowhere may be made as often as the lower bound asks. -/
theorem Exits.iter (hBounds : hi < 0 ∨ lo ≤ hi) {count : Nat} {a b : α}
    (hExits : Exits R lo hi count a b) (hCount : hi < 0 ∨ (count : Int) ≤ hi) :
    ∃ n : Nat, lo ≤ count + n ∧ (hi < 0 ∨ (count + n : Int) ≤ hi) ∧ Iter R n a b := by
  induction hExits with
  | enough a hLo => exact ⟨0, by omega, by omega, .zero a⟩
  | @idle count a hHi hLoop =>
    refine ⟨max 1 (lo - count).toNat, ?_, ?_, .of_loop hLoop _⟩
    · omega
    · omega
  | more hHi hStep _ _ ih =>
    obtain ⟨n, hLo, hMax, hIter⟩ := ih (by push_cast; omega)
    refine ⟨n + 1, ?_, ?_, .succ hStep hIter⟩
    · push_cast at hLo ⊢
      omega
    · push_cast at hMax ⊢
      omega

theorem Exits.between (hBounds : hi < 0 ∨ lo ≤ hi) {a b : α} (hExits : Exits R lo hi 0 a b) :
    Between R lo hi a b := by
  obtain ⟨n, hLo, hMax, hIter⟩ := hExits.iter hBounds (by omega)
  exact ⟨n, by simpa using hLo, by simpa using hMax, hIter⟩

/-- What happens next in the loop. -/
theorem exits_iff_next {count : Nat} {a c : α} :
    Exits R lo hi count a c ↔ ((hi < 0 ∨ (count : Int) < hi) ∧
        (R a a ∧ c = a ∨ ∃ b, R a b ∧ b ≠ a ∧ Exits R lo hi (count + 1) b c)) ∨
      lo ≤ count ∧ c = a := by
  constructor
  · intro hExits
    cases hExits with
    | enough _ hLo => exact .inr ⟨hLo, rfl⟩
    | idle hHi hLoop => exact .inl ⟨hHi, .inl ⟨hLoop, rfl⟩⟩
    | more hHi hStep hNe hRest => exact .inl ⟨hHi, .inr ⟨_, hStep, hNe, hRest⟩⟩
  · rintro (⟨hHi, ⟨hLoop, rfl⟩ | ⟨b, hStep, hNe, hRest⟩⟩ | ⟨hLo, rfl⟩)
    · exact .idle hHi hLoop
    · exact .more hHi hStep hNe hRest
    · exact .enough c hLo

/-- Rounds that all make progress lead to wherever the loop is left after them. -/
theorem Exits.after {m : Nat} {a b : α} (hIter : Iter (fun x y => R x y ∧ y ≠ x) m a b) :
    ∀ {count : Nat}, hi < 0 ∨ (count + m : Int) ≤ hi → Exits R lo hi (count + m) b b →
      Exits R lo hi count a b := by
  induction hIter with
  | zero a =>
    intro count _ hEnd
    exact hEnd
  | @succ m a b c hStep _ ih =>
    intro count hHi hEnd
    refine .more (by omega) hStep.1 hStep.2 (ih (by push_cast; omega) ?_)
    rwa [show count + 1 + m = count + (m + 1) by omega]

end Iteration

section Positions
variable {α : Type*} [PartialOrder α] {R : α → α → Prop} {lo hi : Int}

theorem Iter.le (hMono : ∀ a b, R a b → a ≤ b) {n : Nat} {a b : α} (hIter : Iter R n a b) :
    a ≤ b := by
  induction hIter with
  | zero a => exact le_refl a
  | succ hStep _ ih => exact (hMono _ _ hStep).trans ih

/-- Rounds that lead from a point to itself all stay there. -/
theorem Iter.loop (hMono : ∀ a b, R a b → a ≤ b) {n : Nat} {a : α} (hIter : Iter R n a a) :
    n = 0 ∨ R a a := by
  cases hIter with
  | zero => exact .inl rfl
  | @succ n _ b _ hStep hRest =>
    obtain rfl : a = b := le_antisymm (hMono a b hStep) (hRest.le hMono)
    exact .inr hStep

/-- Dropping the rounds that lead nowhere: either none did, or one did
somewhere between the two ends. -/
theorem Iter.progress (hMono : ∀ a b, R a b → a ≤ b) {n : Nat} {a b : α} (hIter : Iter R n a b) :
    ∃ m ≤ n, Iter (fun x y => R x y ∧ y ≠ x) m a b ∧ (m = n ∨ ∃ c, a ≤ c ∧ c ≤ b ∧ R c c) := by
  induction hIter with
  | zero a => exact ⟨0, Nat.le_refl 0, .zero a, .inl rfl⟩
  | @succ n a b c hStep hRest ih =>
    obtain ⟨m, hm, hIter, hIdle⟩ := ih
    have hab : a ≤ b := hMono a b hStep
    by_cases hEq : b = a
    · subst hEq
      exact ⟨m, by omega, hIter, .inr ⟨b, le_refl b, hRest.le hMono, hStep⟩⟩
    · refine ⟨m + 1, by omega, .succ ⟨hStep, hEq⟩ hIter, ?_⟩
      rcases hIdle with rfl | ⟨d, hbd, hdc, hLoop⟩
      · exact .inl rfl
      · exact .inr ⟨d, hab.trans hbd, hdc, hLoop⟩

/-- Every run of the loop is found, if one round is enough or a round that
leads nowhere can be put off to the end of the run. -/
theorem Between.exits (hMono : ∀ a b, R a b → a ≤ b) {a b : α}
    (hIdle : lo ≤ 1 ∨ ∀ c, a ≤ c → c ≤ b → R c c → R b b) (hBetween : Between R lo hi a b) :
    Exits R lo hi 0 a b := by
  obtain ⟨n, hLo, hHi, hIter⟩ := hBetween
  obtain ⟨m, hm, hProgress, hRest⟩ := hIter.progress hMono
  refine .after hProgress (by push_cast; omega) ?_
  rw [Nat.zero_add]
  by_cases hEnough : lo ≤ m
  · exact .enough b hEnough
  -- a round is missing, so one that leads nowhere was dropped
  rcases hRest with hEq | ⟨c, hac, hcb, hLoop⟩
  · omega
  have hEnd : R b b := by
    rcases hIdle with hOne | hMove
    · obtain rfl : m = 0 := by omega
      cases hProgress with
      | zero => rwa [← le_antisymm hcb hac]
    · exact hMove c hac hcb hLoop
  exact .idle (by omega) hEnd

end Positions
end LeahOS.Lib
