import Mathlib.Logic.Basic

/-!
# Loops that take fuel

A loop that may run forever is modelled as a function of its fuel, with `none`
while it is still running. `Settles f a` says that it ends with `a`: from some
amount of fuel on, more fuel changes nothing.
-/

namespace LeahOS.Lib
variable {α β : Type*}

/-- The loop ends, and `a` is what it ends with. -/
def Settles (f : Nat → Option α) (a : α) : Prop :=
  ∃ bound, ∀ fuel, bound ≤ fuel → f fuel = some a

/-- A loop ends with one result. -/
theorem Settles.unique {f : Nat → Option α} {a b : α} (ha : Settles f a) (hb : Settles f b) :
    a = b := by
  obtain ⟨n, hn⟩ := ha
  obtain ⟨m, hm⟩ := hb
  have hBoth := (hn (max n m) (Nat.le_max_left n m)).symm.trans
    (hm (max n m) (Nat.le_max_right n m))
  exact Option.some.inj hBoth

/-- What is computed from the result of a loop that ends is settled too. -/
theorem Settles.map {f : Nat → Option α} {a : α} (ha : Settles f a) (g : Nat → Option β) {b : β}
    (hg : ∀ fuel, f fuel = some a → g fuel = some b) : Settles g b := by
  obtain ⟨n, hn⟩ := ha
  exact ⟨n, fun fuel hFuel => hg fuel (hn fuel hFuel)⟩

end LeahOS.Lib
