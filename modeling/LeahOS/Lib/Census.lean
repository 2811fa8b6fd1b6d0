import Mathlib.Algebra.BigOperators.Group.Finset.Basic
import Mathlib.Algebra.BigOperators.Group.Finset.Sigma
import Mathlib.Algebra.BigOperators.Ring.Finset

/-!
# Counting the cells of a table

How many cells of a finite part of a table hold a value with a property, and how that number
changes when one cell is written.
-/

namespace LeahOS.Lib
open Function Finset
variable {ι α : Type*}

/-- The number of cells in `cells` whose value has the property. -/
def census (cells : Finset ι) (f : ι → α) (P : α → Prop) [DecidablePred P] : Nat :=
  (cells.filter fun x => P (f x)).card

variable {cells : Finset ι} {f f' : ι → α} {P : α → Prop} [DecidablePred P]

theorem census_congr (hSame : ∀ x ∈ cells, P (f x) ↔ P (f' x)) :
    census cells f P = census cells f' P := by
  unfold census
  rw [filter_congr hSame]

theorem census_pos : 0 < census cells f P ↔ ∃ x ∈ cells, P (f x) := by
  unfold census
  rw [card_pos, filter_nonempty_iff]

theorem census_eq_zero : census cells f P = 0 ↔ ∀ x ∈ cells, ¬ P (f x) := by
  unfold census
  rw [card_eq_zero, filter_eq_empty_iff]

/-- Writing a cell: what it held is counted no more, and what it holds now is. -/
theorem census_update [DecidableEq ι] {x : ι} (hx : x ∈ cells) (f : ι → α) (v : α) :
    census cells (update f x v) P + (if P (f x) then 1 else 0) =
      census cells f P + if P v then 1 else 0 := by
  have hSplit : ∀ g : ι → α, census cells g P =
      (if P (g x) then 1 else 0) + census (cells.erase x) g P := by
    intro g
    unfold census
    rw [card_filter, card_filter]
    exact (add_sum_erase cells (fun y => if P (g y) then 1 else 0) hx).symm
  have hRest : census (cells.erase x) (update f x v) P = census (cells.erase x) f P := by
    apply census_congr
    intro y hy
    rw [update_of_ne (ne_of_mem_erase hy)]
  rw [hSplit (update f x v), hSplit f, hRest, update_self]
  omega

theorem census_insert [DecidableEq ι] {x : ι} (hx : x ∉ cells) :
    census (insert x cells) f P = census cells f P + if P (f x) then 1 else 0 := by
  unfold census
  rw [filter_insert]
  split
  · rw [card_insert_of_notMem fun hMem => hx (mem_of_mem_filter x hMem)]
  · rfl

/-- A table counted row by row. -/
theorem census_product {κ : Type*} (rows : Finset ι) (columns : Finset κ) (f : ι × κ → α) :
    census (rows ×ˢ columns) f P = ∑ r ∈ rows, census columns (fun j => f (r, j)) P := by
  unfold census
  rw [card_filter, sum_product]
  apply sum_congr rfl
  intro r _
  rw [card_filter]

/-- Writing a row of which nothing was counted. -/
theorem census_row [DecidableEq ι] {κ : Type*} {rows : Finset ι} {columns : Finset κ}
    {f f' : ι × κ → α} {c : ι} {row : κ → α} (hc : c ∈ rows) (hNew : ∀ j, f' (c, j) = row j)
    (hSame : ∀ x, x.1 ≠ c → f' x = f x) (hNone : ∀ j ∈ columns, ¬ P (f (c, j))) :
    census (rows ×ˢ columns) f' P = census (rows ×ˢ columns) f P + census columns row P := by
  have hBefore : census columns (fun j => f (c, j)) P = 0 := census_eq_zero.mpr hNone
  have hAfter : census columns (fun j => f' (c, j)) P = census columns row P :=
    census_congr fun j _ => by rw [hNew]
  have hRest : ∑ r ∈ rows.erase c, census columns (fun j => f' (r, j)) P =
      ∑ r ∈ rows.erase c, census columns (fun j => f (r, j)) P := by
    apply sum_congr rfl
    intro r hr
    apply census_congr
    intro j _
    rw [hSame (r, j) (ne_of_mem_erase hr)]
  rw [census_product, census_product, ← add_sum_erase rows _ hc,
    ← add_sum_erase rows (fun r => census columns (fun j => f (r, j)) P) hc, hBefore, hAfter, hRest]
  omega

end LeahOS.Lib
