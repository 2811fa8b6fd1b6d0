import Mathlib.Data.List.Nodup
import Mathlib.Logic.Function.Basic

/-!
# Lists of pairs as finite maps

`find l k` is the value of the first pair with key `k`. Where no key is there twice, the list is a
finite map: `find_eq_some_iff` says that what is found is what is in the list, so that the order of
the pairs does not matter (`find_perm`); a pair more and a pair less are `update`.
-/

namespace LeahOS.Lib
namespace Pairs
open Function List
variable {κ α : Type*} [DecidableEq κ]

/-- The value of the first pair with the key. -/
def find (l : List (κ × α)) (k : κ) : Option α := (l.find? fun x => decide (x.1 = k)).map Prod.snd

/-- No key is there twice. -/
def Distinct (l : List (κ × α)) : Prop := (l.map Prod.fst).Nodup

instance (l : List (κ × α)) : Decidable (Distinct l) := inferInstanceAs (Decidable (List.Nodup _))

@[simp]
theorem find_cons (x : κ × α) (l : List (κ × α)) (k : κ) :
    find (x :: l) k = if x.1 = k then some x.2 else find l k := by
  unfold find
  by_cases hKey : x.1 = k
  · simp [hKey]
  · simp [hKey]

variable {k : κ} {l l' : List (κ × α)} {a : α}

theorem find_eq_none_iff : find l k = none ↔ ∀ x ∈ l, x.1 ≠ k := by
  unfold find
  simp

theorem mem_of_find (h : find l k = some a) : (k, a) ∈ l := by
  obtain ⟨x, hFind, rfl⟩ := Option.map_eq_some_iff.mp h
  have hKey := List.find?_some hFind
  rw [decide_eq_true_eq] at hKey
  rw [← hKey]
  exact mem_of_find?_eq_some hFind

/-- What is found is what is in the list. -/
theorem find_eq_some_iff (hDistinct : Distinct l) :
    find l k = some a ↔ (k, a) ∈ l := by
  refine ⟨mem_of_find, fun hMem => ?_⟩
  induction l with
  | nil => cases hMem
  | cons x l ih =>
    obtain ⟨hNot, hRest⟩ := nodup_cons.mp hDistinct
    rw [find_cons]
    rcases mem_cons.mp hMem with rfl | hMem
    · exact if_pos rfl
    · have hKey : x.1 ≠ k := by
        rintro rfl
        exact hNot (List.mem_map.mpr ⟨_, hMem, rfl⟩)
      rw [if_neg hKey]
      exact ih hRest hMem

/-- The order does not matter. -/
theorem find_perm (hPerm : l.Perm l') (hDistinct : Distinct l) (k : κ) :
    find l k = find l' k := by
  have hDistinct' : Distinct l' := (hPerm.map Prod.fst).nodup_iff.mp hDistinct
  refine Option.ext fun a => ?_
  rw [find_eq_some_iff hDistinct, find_eq_some_iff hDistinct', hPerm.mem_iff]

theorem distinct_cons {x : κ × α} (hDistinct : Distinct l) (hNew : find l x.1 = none) :
    Distinct (x :: l) := by
  refine nodup_cons.mpr ⟨fun hMem => ?_, hDistinct⟩
  obtain ⟨y, hy, hKey⟩ := List.mem_map.mp hMem
  exact find_eq_none_iff.mp hNew y hy hKey

/-- A pair more. -/
theorem find_insert (hPerm : l'.Perm ((k, a) :: l)) (hDistinct : Distinct l)
    (hNew : find l k = none) :
    Distinct l' ∧ find l' = update (find l) k (some a) := by
  have hCons : Distinct ((k, a) :: l) := distinct_cons hDistinct hNew
  have hDistinct' : Distinct l' := (hPerm.map Prod.fst).nodup_iff.mpr hCons
  refine ⟨hDistinct', funext fun j => ?_⟩
  rw [find_perm hPerm hDistinct', find_cons]
  by_cases hKey : j = k
  · subst hKey
    rw [if_pos rfl, update_self]
  · rw [if_neg (Ne.symm hKey), update_of_ne hKey]

/-- A pair less. -/
theorem find_erase {r : List (κ × α)} (hDistinct : Distinct (l ++ (k, a) :: r)) :
    Distinct (l ++ r) ∧ find (l ++ r) = update (find (l ++ (k, a) :: r)) k none := by
  have hPerm : (l ++ (k, a) :: r).Perm ((k, a) :: (l ++ r)) := perm_middle
  have hCons : Distinct ((k, a) :: (l ++ r)) := (hPerm.map Prod.fst).nodup_iff.mp hDistinct
  obtain ⟨hNot, hRest⟩ := nodup_cons.mp hCons
  refine ⟨hRest, funext fun j => ?_⟩
  by_cases hKey : j = k
  · subst hKey
    rw [update_self, find_eq_none_iff]
    rintro x hx rfl
    exact hNot (List.mem_map.mpr ⟨x, hx, rfl⟩)
  · rw [update_of_ne hKey, find_perm hPerm hDistinct, find_cons, if_neg (Ne.symm hKey)]

end Pairs
end LeahOS.Lib
