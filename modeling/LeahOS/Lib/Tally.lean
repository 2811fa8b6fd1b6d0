import Mathlib.Algebra.BigOperators.Group.Finset.Basic
import Mathlib.Algebra.Order.BigOperators.Group.Finset
import Mathlib.Tactic

/-!
# Counts of clear bits

A bitmap is a function from bits to `Bool`. `clears f n` counts the clear bits among the first
`n`, and changes by one with each bit that is set or cleared. A `Tally` is a number of bitmaps
with a count of clear bits for each, in a field of some width, and a total in another; it stays
exact when a clear bit is set and both counts go down by one, or a set bit is cleared and both go
up, as long as the bitmaps are small enough for the fields.
-/

namespace LeahOS.Lib
open Function Finset

/-- How many of the first `n` bits are clear. -/
def clears (f : Nat → Bool) (n : Nat) : Nat := ((range n).filter fun i => f i = false).card

theorem clears_le (f : Nat → Bool) (n : Nat) : clears f n ≤ n :=
  (card_filter_le _ _).trans (card_range n).le

variable {f : Nat → Bool} {g i limit n w : Nat}

theorem clears_congr {f' : Nat → Bool} (hSame : ∀ i, i < n → f i = f' i) :
    clears f n = clears f' n := by
  unfold clears
  congr 1
  exact filter_congr fun i hi => by rw [hSame i (mem_range.mp hi)]

/-- Setting a clear bit. -/
theorem clears_set (hi : i < n) (hClear : f i = false) :
    clears (update f i true) n + 1 = clears f n := by
  have hErase : (range n).filter (fun j => update f i true j = false) =
      ((range n).filter fun j => f j = false).erase i := by
    ext j
    by_cases hEq : j = i
    · simp [hEq]
    · simp [hEq]
  rw [clears, clears, hErase]
  exact card_erase_add_one (by simp [hi, hClear])

/-- Clearing a set bit. -/
theorem clears_clear (hi : i < n) (hSet : f i = true) :
    clears (update f i false) n = clears f n + 1 := by
  have hBack := clears_set (f := update f i false) hi (update_self _ _ _)
  rw [update_idem] at hBack
  rw [← hBack]
  congr 2
  exact (update_eq_self_iff.mpr hSet.symm)

/-- Two sums whose terms differ by one in one place. -/
theorem sum_add_one (f f' : Nat → Nat) (hi : i < n) (hAt : f' i + 1 = f i)
    (hElse : ∀ j, j ≠ i → f' j = f j) :
    (∑ j ∈ range n, f' j) + 1 = ∑ j ∈ range n, f j := by
  have hMem : i ∈ range n := mem_range.mpr hi
  have hRest : ∑ j ∈ (range n).erase i, f' j = ∑ j ∈ (range n).erase i, f j :=
    sum_congr rfl fun j hj => hElse j (ne_of_mem_erase hj)
  rw [← sum_erase_add _ _ hMem, ← sum_erase_add _ f hMem, hRest, ← hAt]
  omega

/-- One less, in a field of `w` bits. -/
def predW (w n : Nat) : Nat := (n + 2 ^ w - 1) % 2 ^ w

/-- One more, in a field of `w` bits. -/
def succW (w n : Nat) : Nat := (n + 1) % 2 ^ w

theorem predW_succ (hn : n < 2 ^ w) : predW w (n + 1) = n := by
  have hSub : n + 1 + 2 ^ w - 1 = n + 2 ^ w := by omega
  rw [predW, hSub, Nat.add_mod_right, Nat.mod_eq_of_lt hn]

theorem succW_of_lt (hn : n + 1 < 2 ^ w) : succW w n = n + 1 := Nat.mod_eq_of_lt hn

/-- The low bits of one less. -/
theorem predW_mod {v : Nat} (hw : w ≤ v) : predW v n % 2 ^ w = predW w (n % 2 ^ w) := by
  have hDvd : 2 ^ w ∣ 2 ^ v := pow_dvd_pow 2 hw
  obtain ⟨c, hc⟩ := hDvd
  have hPosV : 0 < 2 ^ v := Nat.two_pow_pos v
  have hCpos : 0 < c := Nat.pos_of_ne_zero (by rintro rfl; omega)
  obtain ⟨c, rfl⟩ := Nat.exists_eq_succ_of_ne_zero hCpos.ne'
  unfold predW
  rw [Nat.mod_mod_of_dvd _ (pow_dvd_pow 2 hw)]
  have hSplit : n + 2 ^ v - 1 = n % 2 ^ w + 2 ^ w - 1 + 2 ^ w * (n / 2 ^ w + c) := by
    have hDiv := Nat.mod_add_div n (2 ^ w)
    rw [Nat.mul_add, hc, Nat.mul_succ]
    omega
  rw [hSplit, Nat.add_mul_mod_self_left]

/-- The first clear bit of a bitmap. -/
def firstClear (f : Nat → Bool) (limit : Nat) : Option Nat :=
  (List.range limit).find? fun i => !f i

theorem firstClear_some (h : firstClear f limit = some i) :
    i < limit ∧ f i = false := by
  have hMem := List.mem_of_find?_eq_some h
  have hClear := List.find?_some h
  exact ⟨List.mem_range.mp hMem, by simpa using hClear⟩

/-- `m` bitmaps of `n` bits, each with an exact count, and the total of the counts. -/
structure Tally (m n : Nat) (bits : Nat → Nat → Bool) (count : Nat → Nat) (total : Nat) : Prop where
  each : ∀ g, g < m → count g = clears (bits g) n
  sum : total = ∑ g ∈ range m, count g

section Tally
variable {m n total : Nat} {bits : Nat → Nat → Bool} {count : Nat → Nat}

theorem Tally.total_le (h : Tally m n bits count total) : total ≤ m * n := by
  rw [h.sum]
  refine (sum_le_card_nsmul _ _ n fun g hg => ?_).trans (by simp)
  rw [h.each g (mem_range.mp hg)]
  exact clears_le _ _

variable {bit g : Nat}

/-- The counts of one bitmap and of the whole follow it. -/
theorem Tally.change (h : Tally m n bits count total) {c t : Nat} {f : Nat → Bool}
    (hCount : c = clears f n) (hTotal : t = ∑ j ∈ range m, update count g c j) :
    Tally m n (update bits g f) (update count g c) t := by
  refine ⟨fun j hj => ?_, hTotal⟩
  by_cases hEq : j = g
  · subst hEq
    simpa using hCount
  · simpa [update_of_ne hEq] using h.each j hj

/-- A clear bit is set. -/
theorem Tally.take (h : Tally m n bits count total) (hn : n < 2 ^ 16) (hAll : m * n < 2 ^ 32)
    (hg : g < m) (hBit : bit < n) (hClear : bits g bit = false) :
    Tally m n (update bits g (update (bits g) bit true))
      (update count g (predW 16 (count g))) (predW 32 total) := by
  have hSet := clears_set hBit hClear
  have hLe := clears_le (bits g) n
  have hOne : predW 16 (count g) = clears (update (bits g) bit true) n := by
    rw [h.each g hg, ← hSet]
    exact predW_succ (by omega)
  refine h.change hOne ?_
  have hSum := sum_add_one count (update count g (predW 16 (count g))) hg
    (by rw [update_self, hOne, hSet, h.each g hg]) fun j hj => update_of_ne hj _ _
  have hTotal := h.total_le
  rw [← h.sum] at hSum
  rw [← hSum]
  exact predW_succ (by omega)

/-- A set bit is cleared. -/
theorem Tally.give (h : Tally m n bits count total) (hn : n < 2 ^ 16) (hAll : m * n < 2 ^ 32)
    (hg : g < m) (hBit : bit < n) (hSet : bits g bit = true) :
    Tally m n (update bits g (update (bits g) bit false))
      (update count g (succW 16 (count g))) (succW 32 total) := by
  have hClear := clears_clear hBit hSet
  have hLe := clears_le (update (bits g) bit false) n
  have hOne : succW 16 (count g) = clears (update (bits g) bit false) n := by
    rw [h.each g hg, hClear]
    exact succW_of_lt (by omega)
  have hSum := sum_add_one (update count g (succW 16 (count g))) count hg
    (by rw [update_self, hOne, hClear, h.each g hg])
    fun j hj => (update_of_ne hj _ _).symm
  have hTotal := (h.change (g := g) hOne rfl).total_le
  rw [← h.sum] at hSum
  refine h.change hOne ?_
  rw [← hSum]
  exact succW_of_lt (by omega)

end Tally

/-! ## Bits by number -/

/-- Bit `k` of `m` bitmaps of `n` bits each, counted through, is set. -/
def BitAt (m n : Nat) (bits : Nat → Nat → Bool) (k : Nat) : Prop :=
  ∃ g i, g < m ∧ i < n ∧ k = g * n + i ∧ bits g i = true

theorem place_inj {h j : Nat} (hi : i < n) (hj : j < n) (hSame : g * n + i = h * n + j) :
    g = h ∧ i = j := by
  have hGroup : g = h := by
    have hDiv : (g * n + i) / n = (h * n + j) / n := by rw [hSame]
    rwa [Nat.mul_comm g, Nat.mul_comm h, Nat.mul_add_div (by omega), Nat.mul_add_div (by omega),
      Nat.div_eq_of_lt hi, Nat.div_eq_of_lt hj] at hDiv
  subst hGroup
  exact ⟨rfl, by omega⟩

/-- One bit changes. -/
theorem bitAt_update {m : Nat} {bits bits' : Nat → Nat → Bool} {value : Bool} (hg : g < m)
    (hi : i < n) (hBits : ∀ h j, bits' h j = if h = g ∧ j = i then value else bits h j) (k : Nat) :
    BitAt m n bits' k ↔ if k = g * n + i then value = true else BitAt m n bits k := by
  constructor
  · rintro ⟨h, j, hh, hj, rfl, hSet⟩
    rw [hBits] at hSet
    split at hSet
    next hEq => rw [hEq.1, hEq.2, if_pos rfl]; exact hSet
    next hNe =>
      rw [if_neg fun hSame => hNe (place_inj hj hi hSame)]
      exact ⟨h, j, hh, hj, rfl, hSet⟩
  · intro hSet
    split at hSet
    next hEq => exact ⟨g, i, hg, hi, hEq, by rw [hBits, if_pos ⟨rfl, rfl⟩]; exact hSet⟩
    next hNe =>
      obtain ⟨h, j, hh, hj, rfl, hSet⟩ := hSet
      refine ⟨h, j, hh, hj, rfl, ?_⟩
      rw [hBits, if_neg]
      · exact hSet
      · rintro ⟨rfl, rfl⟩
        exact hNe rfl

end LeahOS.Lib
