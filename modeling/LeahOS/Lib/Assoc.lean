import Mathlib.Algebra.BigOperators.Group.Multiset.Basic
import Mathlib.Algebra.Order.Group.Multiset
import Mathlib.Tactic

/-!
# Finite maps kept in order

A finite map from numbers, stored as the list of its pairs in ascending order of the
key. The order is a field of the structure, so walking the list visits every key once
and in order.

`total w m` adds up a weight over the values of a map. The weights live in any
commutative monoid: numbers when one counts, multisets when one collects. Nothing can be
subtracted there, so a total is split at a key into what is left without the key and what
the key contributes: `total_erase` before a change of that key, `total_set` after it.
-/

namespace LeahOS.Lib
open List Option

/-- A finite map from numbers, its pairs in ascending order of the key. -/
structure Assoc (α : Type*) where
  pairs : List (Nat × α)
  sorted : pairs.Pairwise fun x y => x.1 < y.1

namespace Assoc
variable {α M : Type*}

/-- Puts a pair into an ordered list, in place of one with the same key. -/
def insertPair (k : Nat) (a : α) : List (Nat × α) → List (Nat × α)
  | [] => [(k, a)]
  | x :: rest =>
    if k < x.1 then (k, a) :: x :: rest
    else if k = x.1 then (k, a) :: rest
    else x :: insertPair k a rest

variable {a : α} {k : Nat} {l : List (Nat × α)} {m : Assoc α} {w : α → M}

theorem mem_insertPair {y : Nat × α} (hy : y ∈ insertPair k a l) : y = (k, a) ∨ y ∈ l := by
  induction l with
  | nil => exact .inl (mem_singleton.mp hy)
  | cons x rest ih =>
    unfold insertPair at hy
    split at hy
    · exact mem_cons.mp hy
    split at hy
    · rcases mem_cons.mp hy with hEq | hRest
      · exact .inl hEq
      · exact .inr (mem_cons_of_mem x hRest)
    · rcases mem_cons.mp hy with rfl | hRest
      · exact .inr mem_cons_self
      · exact (ih hRest).imp_right (mem_cons_of_mem x)

theorem sorted_insertPair (k : Nat) (a : α) (hl : l.Pairwise fun x y => x.1 < y.1) :
    (insertPair k a l).Pairwise fun x y => x.1 < y.1 := by
  induction l with
  | nil => exact pairwise_singleton _ _
  | cons x rest ih =>
    obtain ⟨hx, hRest⟩ := pairwise_cons.mp hl
    unfold insertPair
    split
    next hLt =>
      refine pairwise_cons.mpr ⟨fun y hy => ?_, hl⟩
      rcases mem_cons.mp hy with rfl | hy
      · exact hLt
      · exact hLt.trans (hx y hy)
    next hLt =>
      split
      next hEq => exact pairwise_cons.mpr ⟨fun y hy => hEq ▸ hx y hy, hRest⟩
      next hEq =>
        refine pairwise_cons.mpr ⟨fun y hy => ?_, ih hRest⟩
        rcases mem_insertPair hy with rfl | hy
        · exact Nat.lt_of_le_of_ne (Nat.not_lt.mp hLt) (Ne.symm hEq)
        · exact hx y hy

/-- The map with no keys. -/
def empty : Assoc α := ⟨[], List.Pairwise.nil⟩

/-- What the map holds at a key. -/
def get (m : Assoc α) (k : Nat) : Option α := m.pairs.lookup k

/-- The map with one key set. -/
def set (m : Assoc α) (k : Nat) (a : α) : Assoc α :=
  ⟨insertPair k a m.pairs, sorted_insertPair k a m.sorted⟩

/-- The map without one key. -/
def erase (m : Assoc α) (k : Nat) : Assoc α :=
  ⟨m.pairs.filter fun x => x.1 != k, m.sorted.filter _⟩

/-- The keys, in ascending order. -/
def keys (m : Assoc α) : List Nat := m.pairs.map Prod.fst

/-- The values, in ascending order of their keys. -/
def values (m : Assoc α) : List α := m.pairs.map Prod.snd

/-- A weight added up over the values. -/
def total [AddCommMonoid M] (w : α → M) (m : Assoc α) : M := (m.values.map w).sum

theorem lookup_cons_ite (k : Nat) (x : Nat × α) (l : List (Nat × α)) :
    (x :: l).lookup k = if k = x.1 then some x.2 else l.lookup k := by
  by_cases hk : k = x.1
  · rw [lookup_cons, beq_iff_eq.mpr hk, if_pos hk]
  · rw [lookup_cons, beq_false_of_ne hk, if_neg hk]

theorem lookup_eq_none_of_lt (hl : ∀ x ∈ l, k < x.1) :
    l.lookup k = none := by
  induction l with
  | nil => rfl
  | cons x rest ih =>
    rw [lookup_cons_ite, if_neg (hl x mem_cons_self).ne]
    exact ih fun y hy => hl y (mem_cons_of_mem x hy)

theorem lookup_insertPair (k j : Nat) (a : α) (l : List (Nat × α)) :
    (insertPair k a l).lookup j = if j = k then some a else l.lookup j := by
  induction l with
  | nil => rw [insertPair, lookup_cons_ite]
  | cons x rest ih =>
    unfold insertPair
    split
    · rw [lookup_cons_ite]
    split
    next hEq =>
      rw [lookup_cons_ite, lookup_cons_ite, ← hEq]
      by_cases hj : j = k
      · rw [if_pos hj, if_pos hj]
      · rw [if_neg hj, if_neg hj, if_neg hj]
    next hEq =>
      rw [lookup_cons_ite, ih, lookup_cons_ite]
      by_cases hj : j = k
      · rw [if_pos hj, if_pos hj, if_neg (hj ▸ hEq)]
      · rw [if_neg hj, if_neg hj]

theorem get_set (m : Assoc α) (k j : Nat) (a : α) :
    (m.set k a).get j = if j = k then some a else m.get j :=
  lookup_insertPair k j a m.pairs

@[simp] theorem get_set_self (m : Assoc α) (k : Nat) (a : α) : (m.set k a).get k = some a := by
  rw [get_set, if_pos rfl]

theorem get_set_of_ne (m : Assoc α) {j : Nat} (a : α) (hj : j ≠ k) :
    (m.set k a).get j = m.get j := by
  rw [get_set, if_neg hj]

theorem get_erase (m : Assoc α) (k j : Nat) :
    (m.erase k).get j = if j = k then none else m.get j := by
  obtain ⟨l, hl⟩ := m
  change (l.filter fun x => x.1 != k).lookup j = if j = k then none else l.lookup j
  clear hl
  induction l with
  | nil => simp
  | cons x rest ih =>
    by_cases hx : x.1 = k
    · rw [filter_cons_of_neg (by simp [hx]), ih, lookup_cons_ite, hx]
      by_cases hj : j = k
      · rw [if_pos hj, if_pos hj]
      · rw [if_neg hj, if_neg hj, if_neg hj]
    · rw [filter_cons_of_pos (by simp [hx]), lookup_cons_ite, ih, lookup_cons_ite]
      by_cases hj : j = k
      · rw [if_pos hj, if_pos hj, if_neg (hj ▸ Ne.symm hx)]
      · rw [if_neg hj, if_neg hj]

/-- The pairs of a map are what it holds at their keys. -/
theorem mem_pairs_iff (m : Assoc α) (k : Nat) (a : α) : (k, a) ∈ m.pairs ↔ m.get k = some a := by
  obtain ⟨l, hl⟩ := m
  change (k, a) ∈ l ↔ l.lookup k = some a
  induction l with
  | nil => simp
  | cons x rest ih =>
    obtain ⟨hx, hRest⟩ := pairwise_cons.mp hl
    rw [mem_cons, ih hRest, lookup_cons_ite]
    by_cases hk : k = x.1
    · have hNone : rest.lookup k = none := lookup_eq_none_of_lt fun y hy => hk ▸ hx y hy
      rw [hNone, if_pos hk]
      constructor
      · rintro (rfl | hFalse)
        · rfl
        · cases hFalse
      · intro hSome
        exact .inl (Prod.ext hk (some.inj hSome).symm)
    · rw [if_neg hk]
      constructor
      · rintro (rfl | hSome)
        · exact absurd rfl hk
        · exact hSome
      · exact .inr

theorem mem_keys (m : Assoc α) {k : Nat} {a : α} (hGet : m.get k = some a) : k ∈ m.keys :=
  List.mem_map.mpr ⟨(k, a), (m.mem_pairs_iff k a).mpr hGet, rfl⟩

theorem keys_nodup (m : Assoc α) : m.keys.Nodup :=
  List.Pairwise.map Prod.fst (fun _ _ hLt => Nat.ne_of_lt hLt) m.sorted

variable [AddCommMonoid M]

/-- The weight of what a map holds at a key, nothing where it holds nothing. -/
def weight (w : α → M) (m : Assoc α) (k : Nat) : M := (m.get k).elim 0 w

@[simp] theorem weight_of_some (hGet : m.get k = some a) : weight w m k = w a := by
  rw [weight, hGet, elim_some]

@[simp] theorem weight_of_none (hGet : m.get k = none) :
    weight w m k = 0 := by
  rw [weight, hGet, elim_none]

/-- A total is what is left without a key, and the weight at the key. -/
theorem total_erase (w : α → M) (m : Assoc α) (k : Nat) :
    total w (m.erase k) + weight w m k = total w m := by
  obtain ⟨l, hl⟩ := m
  change ((((l.filter fun x => x.1 != k)).map Prod.snd).map w).sum + (l.lookup k).elim 0 w =
    ((l.map Prod.snd).map w).sum
  induction l with
  | nil => simp
  | cons x rest ih =>
    obtain ⟨hx, hRest⟩ := pairwise_cons.mp hl
    by_cases hEq : k = x.1
    · subst hEq
      have hKeep : rest.filter (fun y => y.1 != x.1) = rest :=
        filter_eq_self.mpr fun y hy => by simp [(hx y hy).ne']
      rw [filter_cons_of_neg (by simp), hKeep, lookup_cons_ite, if_pos rfl]
      simp only [map_cons, sum_cons, elim_some]
      abel
    · rw [filter_cons_of_pos (by simp [Ne.symm hEq]), lookup_cons_ite, if_neg hEq]
      simp only [map_cons, sum_cons]
      rw [add_assoc, ih hRest]

theorem total_of_some (w : α → M) (hGet : m.get k = some a) :
    total w m = w a + total w (m.erase k) := by
  rw [← total_erase w m k, weight_of_some hGet, add_comm]

theorem total_of_none (w : α → M) (hGet : m.get k = none) : total w (m.erase k) = total w m := by
  rw [← total_erase w m k, weight_of_none hGet, add_zero]

theorem filter_insertPair (k : Nat) (a : α) (l : List (Nat × α)) :
    (insertPair k a l).filter (fun x => x.1 != k) = l.filter fun x => x.1 != k := by
  induction l with
  | nil => simp [insertPair]
  | cons x rest ih =>
    unfold insertPair
    split
    · rw [filter_cons_of_neg (by simp)]
    split
    next hEq =>
      rw [filter_cons_of_neg (by simp), filter_cons_of_neg (by simp [← hEq])]
    next hEq =>
      rw [filter_cons_of_pos (by simp [Ne.symm hEq]), ih,
        filter_cons_of_pos (by simp [Ne.symm hEq])]

/-- With a key set, a total is what is left without the key, and the new weight. -/
theorem total_set (w : α → M) (m : Assoc α) (k : Nat) (a : α) :
    total w (m.set k a) = total w (m.erase k) + w a := by
  have hErase : (m.set k a).erase k = m.erase k := by
    unfold erase set
    simp only [filter_insertPair]
  rw [← total_erase w (m.set k a) k, hErase, weight_of_some (m.get_set_self k a)]

theorem total_set_of_none (w : α → M) (hGet : m.get k = none) (a : α) :
    total w (m.set k a) = w a + total w m := by
  rw [total_set, total_of_none w hGet, add_comm]

/-- What is in the weight of a value is in the collection over the values. -/
theorem mem_total {β : Type*} {w : α → Multiset β} {b : β} (hGet : m.get k = some a)
    (hMem : b ∈ w a) : b ∈ total w m := by
  rw [total_of_some w hGet]
  exact Multiset.mem_add.mpr (.inl hMem)

end Assoc
end LeahOS.Lib
