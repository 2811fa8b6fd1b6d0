import Mathlib.Data.Nat.Bitwise
import Mathlib.Tactic

/-!
# Numbers and bits in memory

Memory is a function from addresses to bytes. `getLE` and `setLE` read and write a number of `n`
bytes, lowest byte first; `bitAt`, `setBit` and `clearBit` take memory as a bitmap, lowest bit of
a byte first. The lemmas say what is read back after a write: the number written where the places
are the same, what was there before where they do not meet.
-/

namespace LeahOS.Lib
open Function Nat

/-- The number in the `n` bytes from `off` on. -/
def getLE (p : Nat → UInt8) (off : Nat) : Nat → Nat
  | 0 => 0
  | n + 1 => (p off).toNat + 256 * getLE p (off + 1) n

/-- Put the number `v` in the `n` bytes from `off` on. -/
def setLE (p : Nat → UInt8) (off v n : Nat) : Nat → UInt8 := fun k =>
  if off ≤ k ∧ k < off + n then UInt8.ofNat (v / 256 ^ (k - off)) else p k

theorem getLE_lt (p : Nat → UInt8) (off n : Nat) : getLE p off n < 256 ^ n := by
  induction n generalizing off with
  | zero => simp [getLE]
  | succ n ih =>
    have hByte := (p off).toNat_lt
    have hRest := ih (off + 1)
    rw [getLE, pow_succ]
    omega

variable {k n off off' v : Nat} {p : Nat → UInt8}

/-- The number depends on its own bytes alone. -/
theorem getLE_congr {q : Nat → UInt8} (hSame : ∀ k, k < n → p (off + k) = q (off' + k)) :
    getLE p off n = getLE q off' n := by
  induction n generalizing off off' with
  | zero => rfl
  | succ n ih =>
    have hFirst := hSame 0 (succ_pos n)
    have hRest : getLE p (off + 1) n = getLE q (off' + 1) n := ih fun k hk => by
      have hNext := hSame (k + 1) (succ_lt_succ hk)
      rwa [Nat.add_comm k 1, ← Nat.add_assoc, ← Nat.add_assoc] at hNext
    rw [getLE, getLE, hRest, show p off = q off' from hFirst]

theorem setLE_of_not_mem (hk : k < off ∨ off + n ≤ k) :
    setLE p off v n k = p k :=
  if_neg (by omega)

theorem getLE_setLE_self (p : Nat → UInt8) (off v n : Nat) :
    getLE (setLE p off v n) off n = v % 256 ^ n := by
  induction n generalizing p off v with
  | zero => simp [getLE, mod_one]
  | succ n ih =>
    have hRest : getLE (setLE p off v (n + 1)) (off + 1) n =
        getLE (setLE p (off + 1) (v / 256) n) (off + 1) n := by
      refine getLE_congr fun k hk => ?_
      have hSub : off + 1 + k - off = k + 1 := by omega
      have hSub' : off + 1 + k - (off + 1) = k := by omega
      rw [setLE, setLE, if_pos (by omega), if_pos (by omega), hSub, hSub', pow_succ,
        Nat.mul_comm, Nat.div_div_eq_div_mul]
    rw [getLE, hRest, ih, setLE, if_pos (by omega), Nat.sub_self, pow_zero, Nat.div_one, pow_succ,
      Nat.mul_comm (256 ^ n), mod_mul]
    simp

theorem getLE_setLE_of_disjoint {n' : Nat} (hApart : off' + n' ≤ off ∨ off + n ≤ off') :
    getLE (setLE p off v n) off' n' = getLE p off' n' :=
  getLE_congr fun k hk => setLE_of_not_mem (by omega)

/-- Records of `n` bytes one after the other: a byte belongs to one record. -/
theorem record_of_byte {b c : Nat} (hk : k < n) (hLe : c * n ≤ b * n + k)
    (hLt : b * n + k < c * n + n) : b = c := by
  rcases Nat.lt_trichotomy b c with hBC | hBC | hBC
  · have hMul := Nat.mul_le_mul_right n (succ_le_of_lt hBC)
    rw [succ_mul] at hMul
    omega
  · exact hBC
  · have hMul := Nat.mul_le_mul_right n (succ_le_of_lt hBC)
    rw [succ_mul] at hMul
    omega

/-- Bit `i` of a bitmap. -/
def bitAt (p : Nat → UInt8) (i : Nat) : Bool := (p (i / 8)).toBitVec.getLsbD (i % 8)

def setBit (p : Nat → UInt8) (i : Nat) : Nat → UInt8 :=
  update p (i / 8) ⟨(p (i / 8)).toBitVec ||| BitVec.twoPow 8 (i % 8)⟩

def clearBit (p : Nat → UInt8) (i : Nat) : Nat → UInt8 :=
  update p (i / 8) ⟨(p (i / 8)).toBitVec &&& ~~~ BitVec.twoPow 8 (i % 8)⟩

theorem bitAt_setBit (p : Nat → UInt8) (i : Nat) :
    bitAt (setBit p i) = update (bitAt p) i true := by
  funext j
  by_cases hByte : j / 8 = i / 8
  · by_cases hEq : j = i
    · subst hEq
      simp [bitAt, setBit, mod_lt]
    · have hBit : i % 8 ≠ j % 8 := by omega
      simp [bitAt, setBit, hByte, hEq, BitVec.getLsbD_twoPow, hBit]
  · have hEq : j ≠ i := by
      rintro rfl
      exact hByte rfl
    simp [bitAt, setBit, hByte, hEq]

theorem bitAt_clearBit (p : Nat → UInt8) (i : Nat) :
    bitAt (clearBit p i) = update (bitAt p) i false := by
  funext j
  by_cases hByte : j / 8 = i / 8
  · by_cases hEq : j = i
    · subst hEq
      simp [bitAt, clearBit, mod_lt]
    · have hBit : j % 8 ≠ i % 8 := by omega
      simp [bitAt, clearBit, hByte, hEq, hBit, mod_lt]
  · have hEq : j ≠ i := by
      rintro rfl
      exact hByte rfl
    simp [bitAt, clearBit, hByte, hEq]

end LeahOS.Lib
