import Mathlib.Algebra.Order.Ring.Nat
import Mathlib.Data.List.Count
import Mathlib.Tactic.Ring
import Mathlib.Tactic.Common

/-!
# Canonical codes

A canonical prefix code is given by the length of the word of every symbol; a length
of 0 means that the symbol has no word. Words of one length are consecutive numbers
in the order of the symbols, and they start above all shorter words (`firstCode`).

A word, cut to the length of a shorter one, is a larger number than the shorter one
(`firstCode_le`). So no word is the start of another (`IsCode.unique`), even
if the lengths ask for more words than there are (`Roomy` rules that out).
-/

namespace LeahOS.Lib
open List
variable {lengths : List Nat}

/-- How many words of a length there are. -/
def population (lengths : List Nat) (len : Nat) : Nat :=
  if len = 0 then 0 else lengths.count len

/-- The first word of a length. -/
def firstCode (lengths : List Nat) : Nat → Nat
  | 0 => 0
  | len + 1 => (firstCode lengths len + population lengths len) * 2

/-- How many earlier symbols have the same length. -/
def rank (lengths : List Nat) (symbol len : Nat) : Nat := (lengths.take symbol).count len

/-- The word of a symbol, as a number of `len` bits. -/
structure IsCode (lengths : List Nat) (symbol len code : Nat) : Prop where
  length : lengths[symbol]? = some len
  pos : 0 < len
  code : code = firstCode lengths len + rank lengths symbol len

/-- No length up to `most` has more words than there are numbers of that length. -/
def Roomy (lengths : List Nat) (most : Nat) : Prop :=
  ∀ len ≤ most, firstCode lengths len + population lengths len ≤ 2 ^ len

instance (most : Nat) : Decidable (Roomy lengths most) :=
  inferInstanceAs (Decidable (∀ len ≤ most, _ ≤ _))

variable {len symbol symbol' : Nat}

theorem population_of_pos (hLen : 0 < len) :
    population lengths len = lengths.count len := if_neg hLen.ne'

theorem rank_lt (hLength : lengths[symbol]? = some len) :
    rank lengths symbol len < lengths.count len := by
  obtain ⟨hSymbol, hGet⟩ := List.getElem?_eq_some_iff.mp hLength
  have hSplit : lengths.take symbol ++ len :: lengths.drop (symbol + 1) = lengths := by
    rw [← hGet, ← drop_eq_getElem_cons hSymbol, take_append_drop]
  have hCount := congrArg (List.count len) hSplit
  rw [count_append, count_cons_self] at hCount
  unfold rank
  omega

theorem rank_lt_rank (hLength : lengths[symbol]? = some len) (hlt : symbol < symbol') :
    rank lengths symbol len < rank lengths symbol' len := by
  have hTake : (lengths.take symbol')[symbol]? = some len := by
    rw [List.getElem?_take_of_lt hlt, hLength]
  have hRank := rank_lt hTake
  unfold rank at *
  rwa [take_take, min_eq_left hlt.le] at hRank

/-- Words of different symbols with the same length are different. -/
theorem rank_injective (hLength : lengths[symbol]? = some len)
    (hLength' : lengths[symbol']? = some len)
    (hRank : rank lengths symbol len = rank lengths symbol' len) : symbol = symbol' := by
  rcases Nat.lt_trichotomy symbol symbol' with hlt | hEq | hgt
  · exact absurd hRank (rank_lt_rank hLength hlt).ne
  · exact hEq
  · exact absurd hRank (rank_lt_rank hLength' hgt).ne'

/-- Every rank below the number of words of a length is the rank of a symbol. -/
theorem exists_rank {i : Nat} (hi : i < lengths.count len) :
    ∃ symbol, lengths[symbol]? = some len ∧ rank lengths symbol len = i := by
  induction lengths generalizing i with
  | nil => exact absurd hi (Nat.not_lt_zero i)
  | cons first rest ih =>
    by_cases hFirst : first = len
    · subst hFirst
      cases i with
      | zero => exact ⟨0, rfl, rfl⟩
      | succ i =>
        rw [count_cons_self] at hi
        obtain ⟨symbol, hLength, hRank⟩ := ih (Nat.lt_of_succ_lt_succ hi)
        refine ⟨symbol + 1, hLength, ?_⟩
        rw [rank, take_succ_cons, count_cons_self, ← rank, hRank]
    · rw [count_cons_of_ne hFirst] at hi
      obtain ⟨symbol, hLength, hRank⟩ := ih hi
      refine ⟨symbol + 1, hLength, ?_⟩
      rw [rank, take_succ_cons, count_cons_of_ne hFirst, ← rank, hRank]

/-- The words of a length start above all shorter words. -/
theorem firstCode_le {len' : Nat} (hlt : len < len') :
    (firstCode lengths len + population lengths len) * 2 ^ (len' - len) ≤ firstCode lengths len' := by
  induction len', hlt using Nat.le_induction with
  | base => rw [Nat.succ_sub (Nat.le_refl len), Nat.sub_self, pow_one, firstCode]
  | succ m hm ih =>
    have hle : len ≤ m := Nat.le_of_succ_le hm
    rw [Nat.succ_sub hle, pow_succ, ← Nat.mul_assoc, firstCode]
    exact Nat.mul_le_mul_right 2 (ih.trans (Nat.le_add_right _ _))

namespace IsCode
variable {symbol symbol' len len' code code' : Nat}

theorem lt_of (hCode : IsCode lengths symbol len code) :
    code < firstCode lengths len + population lengths len := by
  have hRank := rank_lt hCode.length
  rw [hCode.code, population_of_pos hCode.pos]
  omega

/-- The start of a longer word is above all words of the shorter length. -/
theorem le_div (hCode : IsCode lengths symbol len code) (hlt : len' < len) :
    firstCode lengths len' + population lengths len' ≤ code / 2 ^ (len - len') := by
  rw [Nat.le_div_iff_mul_le (Nat.two_pow_pos _), hCode.code]
  exact (firstCode_le hlt).trans (Nat.le_add_right _ _)

/-- No word is the start of another. -/
theorem unique (hCode : IsCode lengths symbol len code)
    (hCode' : IsCode lengths symbol' len' code') (hle : len ≤ len')
    (hStart : code' / 2 ^ (len' - len) = code) : symbol = symbol' ∧ len = len' := by
  rcases Nat.lt_or_eq_of_le hle with hlt | rfl
  · have hAbove := hCode'.le_div hlt
    have hBelow := hCode.lt_of
    omega
  · rw [Nat.sub_self, pow_zero, Nat.div_one, hCode'.code, hCode.code] at hStart
    exact ⟨rank_injective hCode.length hCode'.length (by omega), rfl⟩

end IsCode
end LeahOS.Lib
