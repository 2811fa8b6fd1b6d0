import Mathlib.Tactic

/-!
# Numbers that carry a slot and a generation

A table hands out numbers for its slots and wants old ones to fail. It puts the slot into the
low `k` bits and a generation above them, and keeps the result in a signed 32-bit integer.
While the generation fits the `31 - k` bits below the sign, the number says both exactly; the
first generation that does not fit makes it negative.
-/

namespace LeahOS.Lib
open Nat

/-- The low 32 bits of a number, read as two's complement. -/
def signed32 (n : Nat) : Int :=
  if n % 2 ^ 32 < 2 ^ 31 then (n % 2 ^ 32 : Nat) else (n % 2 ^ 32 : Nat) - 2 ^ 32

/-- The slot in the low `k` bits, the generation above them. -/
def packed (k slot generation : Nat) : Int := signed32 (generation * 2 ^ k + slot)

theorem signed32_of_lt {n : Nat} (hn : n < 2 ^ 31) : signed32 n = n := by
  unfold signed32
  have hSame : n % 2 ^ 32 = n := mod_eq_of_lt (by omega)
  rw [hSame, if_pos hn]

theorem mod_of_signed32 {n : Nat} (hPos : 0 ≤ signed32 n) : (signed32 n).toNat = n % 2 ^ 32 := by
  unfold signed32 at *
  split at hPos
  next hLow =>
    rw [if_pos hLow]
    exact Int.toNat_natCast _
  · have hMod : n % 2 ^ 32 < 2 ^ 32 := mod_lt _ (by decide)
    omega

section Fits
variable {k slot generation : Nat} (hk : k ≤ 31) (hSlot : slot < 2 ^ k)
include hk hSlot

/-- A generation that fits leaves the sign alone. -/
theorem packed_of_lt (hGen : generation < 2 ^ (31 - k)) :
    packed k slot generation = (generation * 2 ^ k + slot : Nat) := by
  have hMul : (generation + 1) * 2 ^ k ≤ 2 ^ (31 - k) * 2 ^ k := Nat.mul_le_mul_right _ hGen
  rw [← Nat.pow_add, Nat.sub_add_cancel hk, succ_mul] at hMul
  exact signed32_of_lt (by omega)

theorem packed_nonneg (hGen : generation < 2 ^ (31 - k)) : 0 ≤ packed k slot generation := by
  rw [packed_of_lt hk hSlot hGen]
  exact Int.natCast_nonneg _

theorem packed_generation (hGen : generation < 2 ^ (31 - k)) :
    (packed k slot generation).toNat / 2 ^ k = generation := by
  rw [packed_of_lt hk hSlot hGen, Int.toNat_natCast, Nat.add_comm,
    add_mul_div_right _ _ (Nat.two_pow_pos k), div_eq_of_lt hSlot, Nat.zero_add]

/-- The slot can be read back from every number that is not negative. -/
theorem packed_slot (hPos : 0 ≤ packed k slot generation) :
    (packed k slot generation).toNat % 2 ^ k = slot := by
  have hDvd : 2 ^ k ∣ 2 ^ 32 := Nat.pow_dvd_pow 2 (by omega)
  rw [packed, mod_of_signed32 hPos, mod_mod_of_dvd _ hDvd, Nat.add_comm,
    add_mul_mod_self_right, mod_eq_of_lt hSlot]

/-- The first generation that does not fit sets the sign. -/
theorem packed_neg : packed k slot (2 ^ (31 - k)) < 0 := by
  have hLow : slot < 2 ^ 31 := hSlot.trans_le (Nat.pow_le_pow_right (by decide) hk)
  unfold packed signed32
  rw [← Nat.pow_add, Nat.sub_add_cancel hk]
  have hMod : (2 ^ 31 + slot) % 2 ^ 32 = 2 ^ 31 + slot := mod_eq_of_lt (by omega)
  rw [hMod, if_neg (by omega)]
  omega

/-- The number `-1` would need every bit of the slot. -/
theorem packed_ne_neg_one (hLast : slot + 1 < 2 ^ k) : packed k slot generation ≠ -1 := by
  intro hEq
  unfold packed signed32 at hEq
  have hOnes : (generation * 2 ^ k + slot) % 2 ^ 32 = 2 ^ 32 - 1 := by
    split at hEq
    · omega
    · omega
  have hDvd : 2 ^ k ∣ 2 ^ 32 := Nat.pow_dvd_pow 2 (by omega)
  have hSlotMod : (2 ^ 32 - 1) % 2 ^ k = slot := by
    rw [← hOnes, mod_mod_of_dvd _ hDvd, Nat.add_comm, add_mul_mod_self_right,
      mod_eq_of_lt hSlot]
  have hLowOnes : (2 ^ 32 - 1) % 2 ^ k = 2 ^ k - 1 := by
    obtain ⟨m, hm⟩ := hDvd
    have hm0 : 0 < m := Nat.pos_of_ne_zero (by rintro rfl; simp at hm)
    have hSplit : 2 ^ 32 - 1 = (2 ^ k - 1) + (m - 1) * 2 ^ k := by
      have hMul : 2 ^ k * m = (m - 1) * 2 ^ k + 2 ^ k := by
        rw [← succ_mul, succ_eq_add_one, Nat.sub_add_cancel hm0, Nat.mul_comm]
      omega
    rw [hSplit, add_mul_mod_self_right, mod_eq_of_lt (by omega)]
  omega

end Fits
end LeahOS.Lib
