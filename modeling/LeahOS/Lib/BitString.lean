import Mathlib.Algebra.Order.Ring.Nat
import Mathlib.Tactic.Ring
import Mathlib.Tactic.Common

/-!
# Bytes as a string of bits

The bits of a list of bytes, lowest bit of a byte first, are the bits of one number.
A field of the string is taken low bit first (`field`); a code word that is written
high bit first is the `mirror` of the field.
-/

namespace LeahOS.Lib
open Nat

/-- The number whose binary digits are the bits of the bytes. -/
def number : List UInt8 → Nat
  | [] => 0
  | b :: bytes => b.toNat + 2 ^ 8 * number bytes

/-- The `width` bits at `pos`, as a number. -/
def field (n pos width : Nat) : Nat := n / 2 ^ pos % 2 ^ width

/-- The low `len` bits of a number in the other order. -/
def mirror : Nat → Nat → Nat
  | 0, _ => 0
  | len + 1, n => n % 2 * 2 ^ len + mirror len (n / 2)

section Fields
variable (n pos : Nat)

theorem field_lt (width : Nat) : field n pos width < 2 ^ width := mod_lt _ (Nat.two_pow_pos _)

/-- A field is its low part and what stands above it. -/
theorem field_add (a b : Nat) :
    field n pos (a + b) = field n pos a + field n (pos + a) b * 2 ^ a := by
  unfold field
  rw [pow_add, mod_mul, Nat.div_div_eq_div_mul, ← pow_add, Nat.mul_comm (2 ^ a)]

theorem field_mod {a b : Nat} (hab : a ≤ b) : field n pos b % 2 ^ a = field n pos a := by
  obtain ⟨c, rfl⟩ := Nat.exists_eq_add_of_le hab
  rw [field_add, add_mul_mod_self_right, mod_eq_of_lt (field_lt n pos a)]

theorem field_div {a b : Nat} (hab : a ≤ b) :
    field n pos b / 2 ^ a = field n (pos + a) (b - a) := by
  obtain ⟨c, rfl⟩ := Nat.exists_eq_add_of_le hab
  rw [field_add, add_mul_div_right _ _ (Nat.two_pow_pos a),
    div_eq_of_lt (field_lt n pos a), Nat.zero_add, Nat.add_sub_cancel_left]

end Fields

/-- A byte of the list is a field of the string. -/
theorem field_number (bytes : List UInt8) :
    ∀ {i : Nat}, i < bytes.length → field (number bytes) (8 * i) 8 = (bytes.getD i 0).toNat := by
  induction bytes with
  | nil =>
    intro i hi
    exact absurd hi (Nat.not_lt_zero i)
  | cons b bytes ih =>
    intro i hi
    have hb : b.toNat < 2 ^ 8 := b.toNat_lt
    cases i with
    | zero =>
      rw [number, field, Nat.mul_zero, pow_zero, Nat.div_one, add_mul_mod_self_left,
        mod_eq_of_lt hb]
      rfl
    | succ i =>
      rw [List.getD_cons_succ, ← ih (lt_of_succ_lt_succ hi), number, field, field,
        mul_succ, Nat.add_comm (8 * i), pow_add, ← Nat.div_div_eq_div_mul,
        add_mul_div_left _ _ (by norm_num), div_eq_of_lt hb, Nat.zero_add]

section Mirror
variable (n : Nat)

theorem mirror_lt (len : Nat) : ∀ n, mirror len n < 2 ^ len := by
  induction len with
  | zero => exact fun _ => Nat.one_pos
  | succ len ih =>
    intro n
    have hRest := ih (n / 2)
    have hBit : n % 2 * 2 ^ len ≤ 1 * 2 ^ len :=
      Nat.mul_le_mul_right _ (le_of_lt_succ (mod_lt n Nat.two_pos))
    rw [mirror, pow_succ]
    omega

/-- One bit more at the end. -/
theorem mirror_succ (len : Nat) :
    ∀ n, mirror (len + 1) n = mirror len n * 2 + n / 2 ^ len % 2 := by
  induction len with
  | zero =>
    simp [mirror]
  | succ len ih =>
    intro n
    rw [mirror, ih (n / 2), mirror, Nat.div_div_eq_div_mul, ← pow_succ']
    ring

theorem mirror_mod {len len' : Nat} (hle : len ≤ len') :
    mirror len (n % 2 ^ len') = mirror len n := by
  induction len generalizing n len' with
  | zero => rfl
  | succ len ih =>
    obtain ⟨m, rfl⟩ : ∃ m, len' = m + 1 := ⟨len' - 1, by omega⟩
    have hDvd : 2 ∣ 2 ^ (m + 1) := Dvd.intro_left (2 ^ m) (pow_succ 2 m).symm
    rw [mirror, mirror, mod_mod_of_dvd n hDvd, pow_succ', mod_mul_right_div_self,
      ih (n / 2) (by omega)]

/-- The first bits of a longer word. -/
theorem mirror_div {len len' : Nat} (hle : len ≤ len') :
    mirror len' n / 2 ^ (len' - len) = mirror len n := by
  induction len', hle using le_induction with
  | base => rw [Nat.sub_self, pow_zero, Nat.div_one]
  | succ m hm ih =>
    have hBit : n / 2 ^ m % 2 < 2 := mod_lt _ Nat.two_pos
    rw [succ_sub hm, pow_succ', ← Nat.div_div_eq_div_mul, mirror_succ,
      Nat.mul_comm, mul_add_div Nat.two_pos, div_eq_of_lt hBit, Nat.add_zero, ih]

theorem mirror_mirror (len : Nat) : ∀ n, mirror len (mirror len n) = n % 2 ^ len := by
  induction len with
  | zero =>
    intro n
    rw [pow_zero, mod_one]
    rfl
  | succ len ih =>
    intro n
    -- the last bit of the mirror is the first of the number
    have hLast : mirror (len + 1) n / 2 ^ len = n % 2 := by
      rw [mirror, Nat.add_comm, add_mul_div_right _ _ (Nat.two_pow_pos len),
        div_eq_of_lt (mirror_lt len _), Nat.zero_add]
    have hRest : mirror len (mirror (len + 1) n) = n / 2 % 2 ^ len := by
      rw [← mirror_mod _ (Nat.le_refl len), mirror, Nat.add_comm, add_mul_mod_self_right,
        mod_eq_of_lt (mirror_lt len _), ih]
    rw [mirror_succ, hLast, hRest, mod_mod, pow_succ', mod_mul]
    omega

/-- A word is found at an index exactly when the index has the mirror of the word at its
low end. -/
theorem mirror_of_mod_eq {len code : Nat} (hCode : code < 2 ^ len)
    (hEq : n % 2 ^ len = mirror len code) : mirror len n = code := by
  rw [← mirror_mod n (Nat.le_refl len), hEq, mirror_mirror, mod_eq_of_lt hCode]

end Mirror
end LeahOS.Lib
