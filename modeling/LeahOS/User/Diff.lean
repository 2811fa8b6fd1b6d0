import Mathlib.Tactic.Common

/-!
# What `diff` prints

The lines that were loaded are two lists over any type. `lcs` is the table `g_lcs`, filled row by
row from the last line up, and looked at by the tails of the lists; `walk` goes forward through it
and prints what it passes over. An entry is at most the number of lines, 1200, so that no
`short` overflows.
-/

namespace LeahOS.User.Diff
open List

/-- A line that is printed, with `-` or with `+`. -/
inductive Edit (α : Type*)
  | removed (number : Nat) (line : α)
  | added (number : Nat) (line : α)

section Program
variable {α : Type*} [DecidableEq α]

/-- A row of the table, from the row below it. -/
def row (x : α) (below : List α → Nat) : List α → Nat
  | [] => 0
  | y :: ys =>
    if x = y then below ys + 1
    else if row x below ys ≤ below (y :: ys) then below (y :: ys) else row x below ys

def lcs : List α → List α → Nat
  | [] => fun _ => 0
  | x :: xs => row x (lcs xs)

/-- The walk, `i` and `j` lines on. -/
def walk (i j : Nat) : List α → List α → List (Edit α)
  | [], [] => []
  | x :: xs, [] => .removed (i + 1) x :: walk (i + 1) j xs []
  | [], y :: ys => .added (j + 1) y :: walk i (j + 1) [] ys
  | x :: xs, y :: ys =>
    if x = y then walk (i + 1) (j + 1) xs ys
    else if lcs (x :: xs) ys ≤ lcs xs (y :: ys) then
      .removed (i + 1) x :: walk (i + 1) j xs (y :: ys)
    else .added (j + 1) y :: walk i (j + 1) (x :: xs) ys
termination_by a b => a.length + b.length

/-- What is printed, and the exit status. -/
def diff (a b : List α) : List (Edit α) × Nat :=
  (walk 0 0 a b, if 0 < (walk 0 0 a b).length then 1 else 0)

end Program

variable {α : Type*} {a b p q : List α} {es : List (Edit α)}

/-- The line of the number is taken out. -/
def Edit.delete : Edit α → List α → List α
  | .removed n _, l => l.eraseIdx (n - 1)
  | .added _ _, l => l

/-- The line is put in so that it has the number. -/
def Edit.insert (l : List α) : Edit α → List α
  | .removed _ _ => l
  | .added n y => l.take (n - 1) ++ y :: l.drop (n - 1)

/-- The number is the position of the line. -/
def Edit.Names (a b : List α) : Edit α → Prop
  | .removed n x => 0 < n ∧ a[n - 1]? = some x
  | .added n y => 0 < n ∧ b[n - 1]? = some y

/-- Delete from the last line on, then insert from the first on. -/
def patch (es : List (Edit α)) (a : List α) : List α :=
  es.foldl Edit.insert (es.foldr Edit.delete a)

/-- The edits are right behind `p` and `q`: some lines are what the deletions leave, and what the
insertions start from. -/
structure Replays (p q a b : List α) (es : List (Edit α)) : Prop where
  names : ∀ e ∈ es, e.Names (p ++ a) (q ++ b)
  kept : ∃ k, es.foldr Edit.delete (p ++ a) = p ++ k ∧ es.foldl Edit.insert (q ++ k) = q ++ b

theorem Replays.removed {x : α} (h : Replays (p ++ [x]) q a b es) :
    Replays p q (x :: a) b (.removed (p.length + 1) x :: es) := by
  obtain ⟨hNames, k, hDelete, hInsert⟩ := h
  simp only [append_assoc, singleton_append] at hNames hDelete
  refine ⟨forall_mem_cons.mpr ⟨by simp [Edit.Names], hNames⟩, k, ?_, hInsert⟩
  rw [foldr_cons, hDelete]
  simp [Edit.delete, eraseIdx_append_of_length_le]

theorem Replays.added {y : α} (h : Replays p (q ++ [y]) a b es) :
    Replays p q a (y :: b) (.added (q.length + 1) y :: es) := by
  obtain ⟨hNames, k, hDelete, hInsert⟩ := h
  simp only [append_assoc, singleton_append] at hNames hInsert
  refine ⟨forall_mem_cons.mpr ⟨by simp [Edit.Names], hNames⟩, k, hDelete, ?_⟩
  rw [foldl_cons, ← hInsert]
  simp [Edit.insert]

theorem Replays.same {x : α} (h : Replays (p ++ [x]) (q ++ [x]) a b es) :
    Replays p q (x :: a) (x :: b) es := by
  obtain ⟨hNames, k, hDelete, hInsert⟩ := h
  simp only [append_assoc, singleton_append] at hNames hDelete hInsert
  exact ⟨hNames, x :: k, hDelete, hInsert⟩

/-- What a script leaves of the first list it leaves in the second. -/
theorem common_patch (es : List (Edit α)) (l : List α) :
    es.foldr Edit.delete a <+ a ∧ l <+ es.foldl Edit.insert l ∧
      a.length + (es.foldl Edit.insert l).length ≤
        (es.foldr Edit.delete a).length + l.length + es.length := by
  induction es generalizing l with
  | nil => exact ⟨.refl a, .refl l, by simp⟩
  | cons e es ih =>
    obtain ⟨hLeft, hRight, hLength⟩ := ih (e.insert l)
    rw [foldr_cons, foldl_cons, length_cons]
    cases e with
    | removed n x =>
      have hErase := le_length_eraseIdx (es.foldr Edit.delete a) (n - 1)
      refine ⟨(eraseIdx_sublist _ _).trans hLeft, hRight, ?_⟩
      simp only [Edit.delete, Edit.insert] at hLength ⊢
      omega
    | added n y =>
      have hIn : l <+ Edit.insert l (.added n y) := by
        conv_lhs => rw [← take_append_drop (n - 1) l]
        exact (Sublist.refl _).append (sublist_cons_self _ _)
      refine ⟨hLeft, hIn.trans hRight, ?_⟩
      simp only [Edit.delete, Edit.insert, length_append, length_cons, length_take,
        length_drop] at hLength ⊢
      omega

variable [DecidableEq α] {i j : Nat}

theorem lcs_cons (x y : α) (xs ys : List α) : lcs (x :: xs) (y :: ys) =
    if x = y then lcs xs ys + 1
    else if lcs (x :: xs) ys ≤ lcs xs (y :: ys) then lcs xs (y :: ys) else lcs (x :: xs) ys :=
  rfl

theorem lcs_nil (a : List α) : lcs a [] = 0 := by
  cases a <;> rfl

/-- No common part is longer than the table says. -/
theorem length_le_lcs {c : List α} (hA : c <+ a) (hB : c <+ b) : c.length ≤ lcs a b := by
  induction a generalizing b c with
  | nil => simp [sublist_nil.mp hA]
  | cons x xs ih =>
    induction b generalizing c with
    | nil => simp [sublist_nil.mp hB]
    | cons y ys ihRow =>
      rw [lcs_cons]
      split
      next =>
        -- an equal pair may be taken at once
        have hTail := ih hA.tail hB.tail
        rw [length_tail] at hTail
        exact Nat.sub_le_iff_le_add.mp hTail
      next hNe =>
        have hRow : c.length ≤ lcs xs (y :: ys) ∨ c.length ≤ lcs (x :: xs) ys := by
          cases hA with
          | cons _ hX => exact .inl (ih hX hB)
          | cons_cons _ hX =>
            cases hB with
            | cons _ hY => exact .inr (ihRow (hX.cons_cons x) hY)
            | cons_cons => exact absurd rfl hNe
        split <;> omega

theorem replays_walk (hi : p.length = i) (hj : q.length = j) : Replays p q a b (walk i j a b) := by
  fun_induction walk i j a b generalizing p q with
  | case1 => exact ⟨by simp, [], rfl, rfl⟩
  | case2 i j x xs ih | case5 i j x xs y ys _ _ ih =>
    exact hi ▸ (ih (p := p ++ [x]) (by simp [hi]) hj).removed
  | case3 i j y ys ih | case6 i j x xs y ys _ _ ih =>
    exact hj ▸ (ih (q := q ++ [y]) hi (by simp [hj])).added
  | case4 i j xs y ys ih => exact (ih (by simp [hi]) (by simp [hj])).same

theorem length_walk (i j : Nat) (a b : List α) :
    (walk i j a b).length + 2 * lcs a b = a.length + b.length := by
  fun_induction walk i j a b with
  | case1 => rfl
  | case2 i j x xs ih =>
    simp only [length_cons, lcs_nil] at ih ⊢
    omega
  | case3 i j y ys ih =>
    simp only [length_cons, lcs] at ih ⊢
    omega
  | case4 i j xs y ys ih =>
    simp only [lcs_cons, if_true, length_cons]
    omega
  | case5 i j x xs y ys hNe hLe ih | case6 i j x xs y ys hNe hLe ih =>
    simp only [lcs_cons, if_neg hNe, hLe, if_true, if_false, length_cons] at ih ⊢
    omega

/-- **`diff` prints a shortest script.**  It makes the second list of the first, every number is the
position of its line, no script that does the same is shorter, and the status says whether the lists
are equal. -/
theorem diff_shortest (a b : List α) :
    patch (diff a b).1 a = b ∧ (∀ e ∈ (diff a b).1, e.Names a b) ∧
      (∀ es, patch es a = b → (diff a b).1.length ≤ es.length) ∧ ((diff a b).2 = 0 ↔ a = b) := by
  obtain ⟨hNames, k, hDelete, hInsert⟩ := @replays_walk _ a b [] [] _ 0 0 rfl rfl
  have hPatch : patch (diff a b).1 a = b := by
    unfold patch
    rw [show (diff a b).1.foldr Edit.delete a = k from hDelete]
    exact hInsert
  have hShortest : ∀ es, patch es a = b → (diff a b).1.length ≤ es.length := by
    rintro es rfl
    obtain ⟨hLeft, hRight, hLength⟩ := common_patch (a := a) es (es.foldr Edit.delete a)
    have hTable := length_le_lcs hLeft hRight
    have hWalk := length_walk 0 0 a (patch es a)
    change (walk 0 0 a (patch es a)).length ≤ es.length
    unfold patch at *
    omega
  have hStatus : (diff a b).2 = 0 ↔ (diff a b).1 = [] := by simp [diff]
  refine ⟨hPatch, hNames, hShortest, hStatus.trans ⟨fun hNone => ?_, fun hEq => ?_⟩⟩
  · rw [← hPatch, hNone]
    rfl
  · exact length_eq_zero_iff.mp (Nat.le_zero.mp (hShortest [] hEq))

/-- An entry of the table is the length of a longest common part. -/
theorem lcs_longest (a b : List α) : (∃ c, c <+ a ∧ c <+ b ∧ c.length = lcs a b) ∧
    ∀ c, c <+ a → c <+ b → c.length ≤ lcs a b := by
  refine ⟨?_, fun c => length_le_lcs⟩
  -- the lines that are not printed are one
  obtain ⟨-, k, hDelete, hInsert⟩ := @replays_walk _ a b [] [] _ 0 0 rfl rfl
  obtain ⟨hLeft, hRight, hLength⟩ := common_patch (a := a) (walk 0 0 a b) k
  rw [nil_append, nil_append] at hDelete hInsert
  rw [hDelete] at hLeft hLength
  rw [hInsert] at hRight hLength
  have hTable := length_le_lcs hLeft hRight
  have hWalk := length_walk 0 0 a b
  exact ⟨k, hLeft, hRight, by omega⟩

end LeahOS.User.Diff
