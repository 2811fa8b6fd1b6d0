import Mathlib.Order.Nat
import LeahOS.Libc.Deflate
import LeahOS.Libc.Inflate

/-!
# The decompressor reads what the format says: fields and symbols

A stream is `Synced` with a position in the bits of the input when its register holds
the bits from there up to the last byte that was read. `bits` then reads fields, and
`decode` reads symbols, with a table that was `Built` from the lengths of their words.

The register is topped up ahead of what is consumed. How far ahead is kept with every
read, since a stored block drops what is left.
-/

namespace LeahOS.Libc
open Lib Deflate Function List Nat

/-! ## The register -/

/-- The register holds the bits from `pos` up to the last byte read. -/
structure Synced (input : List UInt8) (s : Stream) (pos : Nat) (out : List UInt8) : Prop where
  place : 8 * s.inAt = pos + s.bitcount
  le : s.inAt ≤ input.length
  buf : s.bitbuf = field (number input) pos s.bitcount
  ok : s.failed = false
  out : s.out = out

section Register
variable {input : List UInt8} {s : Stream} {pos : Nat} {out : List UInt8}

theorem Synced.load (hSync : Synced input s pos out) (hMore : s.inAt < input.length) :
    Synced input (load input s) pos out where
  place := by
    have := hSync.place
    simp only [Libc.load]
    omega
  le := hMore
  buf := by
    simp only [Libc.load]
    rw [field_add, ← hSync.place, field_number input hMore, ← hSync.buf]
  ok := hSync.ok
  out := hSync.out

variable {need : Nat}

/-- Topping up keeps the position. The register holds at most seven bits more than were
asked for, or what it held, and too little only at the end of the input. -/
theorem Synced.refill (rounds : Nat) :
    ∀ {s : Stream}, Synced input s pos out → Synced input (refill input need rounds s) pos out ∧
        (refill input need rounds s).bitcount ≤ max s.bitcount (need + 7) ∧
        (need ≤ s.bitcount + 8 * rounds → (refill input need rounds s).bitcount < need →
          (refill input need rounds s).inAt = input.length) := by
  induction rounds with
  | zero =>
    intro s hSync
    refine ⟨hSync, le_max_left _ _, fun hNeed hLess => ?_⟩
    exact absurd hLess (by simp only [Libc.refill]; omega)
  | succ rounds ih =>
    intro s hSync
    rw [Libc.refill]
    split
    next hMore =>
      obtain ⟨hLoaded, hMax, hEnd⟩ := ih (hSync.load hMore.2)
      have hCount : (Libc.load input s).bitcount = s.bitcount + 8 := rfl
      refine ⟨hLoaded, by omega, fun hNeed => hEnd (by omega)⟩
    next hStop =>
      refine ⟨hSync, le_max_left _ _, fun _ hLess => ?_⟩
      have := hSync.le
      omega

theorem Synced.consume {n : Nat} (hSync : Synced input s pos out) (hn : n ≤ s.bitcount) :
    Synced input (consume s n) (pos + n) out where
  place := by
    have := hSync.place
    simp only [Libc.consume]
    omega
  le := hSync.le
  buf := by
    simp only [Libc.consume]
    rw [hSync.buf, field_div _ _ hn]
  ok := hSync.ok
  out := hSync.out

/-- With enough input left, topping up gives what was asked for. -/
theorem Synced.refill_le (hSync : Synced input s pos out) (hLeft : pos + need ≤ 8 * input.length) :
    need ≤ (Libc.refill input need need s).bitcount := by
  obtain ⟨hRefill, -, hEnd⟩ := hSync.refill need
  by_contra hLess
  have hAt := hEnd (by omega) (not_le.mp hLess)
  have hPlace := hRefill.place
  omega

/-- `bits` reads a field. -/
theorem Synced.bits {width value next : Nat} (hSync : Synced input s pos out)
    (hField : FieldAt input pos width value next) :
    ∃ t, bits input s width = (value, t) ∧ Synced input t next out ∧
      t.bitcount ≤ max 7 (s.bitcount - width) := by
  have hLeft : pos + width ≤ 8 * input.length := hField.ends ▸ hField.le
  have hEnough := hSync.refill_le hLeft
  obtain ⟨hRefill, hMax, -⟩ := hSync.refill width
  refine ⟨Libc.consume (Libc.refill input width width s) width, ?_, ?_, ?_⟩
  · unfold Libc.bits
    rw [if_neg (not_lt.mpr hEnough), hRefill.buf, field_mod _ _ hEnough, ← hField.reads]
  · rw [hField.ends]
    exact hRefill.consume hEnough
  · simp only [Libc.consume]
    omega

end Register

/-! ## The sorted symbols -/

section Sorting

/-- The places of different lengths do not meet. -/
def Apart (offset : Nat → Nat) (lengths : List Nat) : Prop :=
  ∀ a b, a ≠ 0 → b ≠ 0 → a ≠ b →
    offset a + lengths.count a ≤ offset b ∨ offset b + lengths.count b ≤ offset a

/-- A place of no symbol that is left keeps what it has. -/
theorem sortLoop_other {k : Nat} (lengths : List Nat) :
    ∀ {i : Nat} {offset symbol : Nat → Nat},
      (∀ len, len ≠ 0 → k < offset len ∨ offset len + lengths.count len ≤ k) →
      sortLoop lengths i offset symbol k = symbol k := by
  induction lengths with
  | nil => exact fun _ => rfl
  | cons len₀ rest ih =>
    intro i offset symbol hOther
    rw [sortLoop]
    split
    next hLen₀ =>
      have h₀ := hOther len₀ hLen₀
      rw [count_cons_self] at h₀
      rw [ih, update_of_ne (by omega)]
      intro len hLen
      have hPlace := hOther len hLen
      by_cases hEq : len = len₀
      · subst hEq
        rw [update_self]
        omega
      · rw [count_cons_of_ne (Ne.symm hEq)] at hPlace
        rwa [update_of_ne hEq]
    next hLen₀ =>
      apply ih
      intro len hLen
      have hNe : len₀ ≠ len := fun hEq => hLen₀ (hEq ▸ hLen)
      have hPlace := hOther len hLen
      rwa [count_cons_of_ne hNe] at hPlace

/-- A symbol is put at the place of its rank among those of its length. -/
theorem sortLoop_place (lengths : List Nat) :
    ∀ {i j len : Nat} {offset symbol : Nat → Nat}, Apart offset lengths →
      lengths[j]? = some len → len ≠ 0 →
      sortLoop lengths i offset symbol (offset len + rank lengths j len) = i + j := by
  induction lengths with
  | nil =>
    intro i j len offset symbol _ hj
    cases hj
  | cons len₀ rest ih =>
    intro i j len offset symbol hApart hj hLen
    rw [sortLoop]
    split
    next hLen₀ =>
      -- the places that are left do not meet either
      have hApart' : Apart (update offset len₀ (offset len₀ + 1)) rest := by
        intro a b ha hb hab
        have hPlaces := hApart a b ha hb hab
        by_cases hA : a = len₀
        · subst hA
          rw [count_cons_self, count_cons_of_ne hab] at hPlaces
          rw [update_self, update_of_ne (Ne.symm hab)]
          omega
        · rw [count_cons_of_ne (Ne.symm hA)] at hPlaces
          rw [update_of_ne hA]
          by_cases hB : b = len₀
          · subst hB
            rw [count_cons_self] at hPlaces
            rw [update_self]
            omega
          · rw [count_cons_of_ne (Ne.symm hB)] at hPlaces
            rwa [update_of_ne hB]
      cases j with
      | zero =>
        obtain rfl : len₀ = len := Option.some.inj hj
        have hFirst : offset len₀ + rank (len₀ :: rest) 0 len₀ = offset len₀ := rfl
        rw [hFirst, sortLoop_other, update_self]
        · rfl
        intro a ha
        by_cases hEq : a = len₀
        · subst hEq
          rw [update_self]
          omega
        · have hPlaces := hApart a len₀ ha hLen₀ hEq
          rw [count_cons_self, count_cons_of_ne (Ne.symm hEq)] at hPlaces
          rw [update_of_ne hEq]
          omega
      | succ j =>
        have hRest := @ih (i + 1) j len _ (update symbol (offset len₀) i) hApart' hj hLen
        by_cases hEq : len = len₀
        · subst hEq
          rw [update_self] at hRest
          rw [rank, take_succ_cons, count_cons_self, ← rank,
            show offset len + (rank rest j len + 1) = offset len + 1 + rank rest j len by omega,
            hRest]
          omega
        · rw [update_of_ne hEq] at hRest
          rw [rank, take_succ_cons, count_cons_of_ne (Ne.symm hEq), ← rank, hRest]
          omega
    next hLen₀ =>
      have hZero : len₀ = 0 := not_not.mp hLen₀
      have hNe : ∀ {a : Nat}, a ≠ 0 → len₀ ≠ a := fun ha hEq => ha (hEq ▸ hZero)
      cases j with
      | zero =>
        obtain rfl : len₀ = len := Option.some.inj hj
        exact absurd hZero hLen
      | succ j =>
        have hApart' : Apart offset rest := by
          intro a b ha hb hab
          have hPlaces := hApart a b ha hb hab
          rwa [count_cons_of_ne (hNe ha), count_cons_of_ne (hNe hb)] at hPlaces
        rw [rank, take_succ_cons, count_cons_of_ne (hNe hLen), ← rank, ih hApart' hj hLen]
        omega

theorem offsetOf_succ (count : Nat → Nat) {len : Nat} (hLen : 0 < len) :
    offsetOf count (len + 1) = offsetOf count len + count len := by
  obtain ⟨m, rfl⟩ : ∃ m, len = m + 1 := ⟨len - 1, by omega⟩
  rfl

theorem offsetOf_mono (count : Nat → Nat) {len len' : Nat} (hLen : 0 < len) (hle : len ≤ len') :
    offsetOf count len ≤ offsetOf count len' := by
  induction hle with
  | refl => exact Nat.le_refl _
  | @step m hle ih =>
    have hm : 0 < m := hLen.trans_le hle
    rw [offsetOf_succ count hm]
    exact ih.trans (Nat.le_add_right _ _)

theorem apart_offsetOf (lengths : List Nat) :
    Apart (offsetOf fun len => lengths.count len) lengths := by
  have hBelow : ∀ a b, a ≠ 0 → a < b → offsetOf (fun len => lengths.count len) a + lengths.count a ≤
        offsetOf (fun len => lengths.count len) b := by
    intro a b ha hab
    have hMono := offsetOf_mono (fun len => lengths.count len) (succ_pos a) hab
    rwa [offsetOf_succ _ (Nat.pos_of_ne_zero ha)] at hMono
  intro a b ha hb hab
  rcases Nat.lt_or_gt_of_ne hab with hlt | hgt
  · exact .inl (hBelow a b ha hlt)
  · exact .inr (hBelow b a hb hgt)

end Sorting

/-! ## The lookup table -/

section Filling
variable {len i n a : Nat} {reversed entry : Nat → Nat} {fast : Nat → Nat}

/-- Strides of one length, none of which hits the index. -/
theorem foldl_stride_miss (hMiss : ∀ j < n, a % 2 ^ len ≠ reversed j) :
    (List.range n).foldl (fun fast j => fillStride fast len (reversed j) (entry j)) fast a =
      fast a := by
  induction n with
  | zero => rfl
  | succ n ih =>
    rw [range_succ, foldl_append, foldl_cons, foldl_nil, fillStride,
      if_neg (hMiss n (lt_succ_self n))]
    exact ih fun j hj => hMiss j (hj.trans (lt_succ_self n))

/-- Strides of one length, one of which hits the index. -/
theorem foldl_stride_hit (hi : i < n) (hHit : a % 2 ^ len = reversed i)
    (hOnly : ∀ j < n, a % 2 ^ len = reversed j → j = i) :
    (List.range n).foldl (fun fast j => fillStride fast len (reversed j) (entry j)) fast a =
      entry i := by
  induction n with
  | zero => exact absurd hi (Nat.not_lt_zero i)
  | succ n ih =>
    rw [range_succ, foldl_append, foldl_cons, foldl_nil, fillStride]
    split
    next hLast => rw [hOnly n (lt_succ_self n) hLast]
    next hLast =>
      have hNe : i ≠ n := fun hEq => hLast (hEq ▸ hHit)
      exact ih (by omega) fun j hj => hOnly j (hj.trans (lt_succ_self n))

variable {lengths : List Nat} {symbol : Nat → Nat}

/-- A word of the lookup table hits an index. -/
structure Hits (lengths : List Nat) (a len i : Nat) : Prop where
  short : len ≤ fastBits
  lt : i < lengths.count len
  hit : a % 2 ^ len = mirror len (firstCode lengths len + i)

theorem firstCode_succ (hLen : 0 < len) :
    (firstCode lengths len + lengths.count len) * 2 = firstCode lengths (len + 1) := by
  rw [firstCode, population_of_pos hLen]

theorem fastLoop_miss (rounds : Nat) :
    ∀ {len : Nat} {fast : Nat → Nat}, 0 < len →
      (∀ l i, len ≤ l → l < len + rounds → ¬ Hits lengths a l i) →
      fastLoop (fun len => lengths.count len) symbol rounds len (firstCode lengths len)
        (offsetOf (fun len => lengths.count len) len) fast a = fast a := by
  induction rounds with
  | zero => exact fun _ _ => rfl
  | succ rounds ih =>
    intro len fast hLen hMiss
    rw [fastLoop, firstCode_succ hLen, ← offsetOf_succ _ hLen, ih (succ_pos len)]
    · split
      next hShort =>
        refine foldl_stride_miss fun j hj hHit => ?_
        exact hMiss len j (Nat.le_refl len) (by omega) ⟨hShort, hj, hHit⟩
      next => rfl
    · intro l i hl hlt
      exact hMiss l i (by omega) (by omega)

theorem fastLoop_hit {l : Nat} (hHit : Hits lengths a l i)
    (hOnly : ∀ l' i', 0 < l' → Hits lengths a l' i' → l' = l ∧ i' = i) (rounds : Nat) :
    ∀ {len : Nat} {fast : Nat → Nat}, 0 < len → len ≤ l → l < len + rounds →
      fastLoop (fun len => lengths.count len) symbol rounds len (firstCode lengths len)
        (offsetOf (fun len => lengths.count len) len) fast a =
          l * 2 ^ 12 + symbol (offsetOf (fun len => lengths.count len) l + i) := by
  induction rounds with
  | zero =>
    omega
  | succ rounds ih =>
    intro len fast hLen hle hlt
    rw [fastLoop, firstCode_succ hLen, ← offsetOf_succ _ hLen]
    rcases Nat.lt_or_eq_of_le hle with hLess | rfl
    · exact ih (succ_pos len) hLess (by omega)
    -- the row of this length has the hit, and no later row has one
    rw [fastLoop_miss rounds (succ_pos len), if_pos hHit.short]
    · refine foldl_stride_hit hHit.lt hHit.hit fun j hj hHit' => ?_
      exact (hOnly len j hLen ⟨hHit.short, hj, hHit'⟩).2
    · intro l' i' hl' _ hHit'
      have := (hOnly l' i' (by omega) hHit').1
      omega

end Filling

/-! ## Tables -/

/-- A table that decodes the code with these lengths. -/
structure Built (h : Huffman) (lengths : List Nat) : Prop where
  count : ∀ len, h.count len = lengths.count len
  symbol : ∀ {symbol len : Nat}, lengths[symbol]? = some len → 0 < len →
    h.symbol (offsetOf (fun len => lengths.count len) len + rank lengths symbol len) = symbol
  hit : ∀ {a symbol len : Nat}, IsCode lengths symbol len (mirror len a) → len ≤ fastBits →
    h.fast a = len * 2 ^ 12 + symbol
  miss : ∀ {a : Nat}, (∀ symbol len, len ≤ fastBits → ¬ IsCode lengths symbol len (mirror len a)) →
    h.fast a = 0

section Building
variable {lengths : List Nat} {a len symbol : Nat}

/-- What hits an index is the word of a symbol. -/
theorem Hits.isCode (hRoomy : Roomy lengths longest) {i : Nat} (hLen : 0 < len)
    (hHits : Hits lengths a len i) :
    ∃ symbol, IsCode lengths symbol len (mirror len a) ∧ rank lengths symbol len = i := by
  obtain ⟨symbol, hLength, hRank⟩ := exists_rank hHits.lt
  have hRoom := hRoomy len (hHits.short.trans (by decide))
  rw [population_of_pos hLen] at hRoom
  have hLt := hHits.lt
  have hMirror := mirror_of_mod_eq a (by omega) hHits.hit
  exact ⟨symbol, ⟨hLength, hLen, by rw [hMirror, hRank]⟩, hRank⟩

/-- A word of a symbol that an index starts with hits it. -/
theorem Hits.of_isCode (hCode : IsCode lengths symbol len (mirror len a)) (hShort : len ≤ fastBits) :
    Hits lengths a len (rank lengths symbol len) where
  short := hShort
  lt := rank_lt hCode.length
  hit := by rw [← hCode.code, mirror_mirror]

/-- Only one word starts an index. -/
theorem isCode_unique {symbol' len' : Nat} (hCode : IsCode lengths symbol len (mirror len a))
    (hCode' : IsCode lengths symbol' len' (mirror len' a)) : symbol = symbol' ∧ len = len' := by
  rcases Nat.le_total len len' with hle | hle
  · exact hCode.unique hCode' hle (mirror_div a hle)
  · obtain ⟨hSymbol, hLen⟩ := hCode'.unique hCode hle (mirror_div a hle)
    exact ⟨hSymbol.symm, hLen.symm⟩

/-- The room that is left at each length. -/
theorem roomLoop_iff (rounds : Nat) :
    ∀ {len : Nat} {left : Int}, 0 < len → left * 2 = 2 ^ len - (firstCode lengths len : Int) →
      (roomLoop (fun len => lengths.count len) rounds len left = true ↔
        ∀ l, len ≤ l → l < len + rounds → firstCode lengths l + lengths.count l ≤ 2 ^ l) := by
  induction rounds with
  | zero => exact fun _ _ => iff_of_true rfl fun l hl hlt => absurd hl (by omega)
  | succ rounds ih =>
    intro len left hLen hLeft
    have hRoom : firstCode lengths len + lengths.count len ≤ 2 ^ len ↔
        (firstCode lengths len : Int) + lengths.count len ≤ 2 ^ len := by
      norm_cast
    rw [roomLoop]
    split
    next hNone =>
      refine iff_of_false Bool.false_ne_true fun hAll => ?_
      have := hRoom.mp (hAll len (Nat.le_refl len) (by omega))
      omega
    next hSome =>
      rw [ih (succ_pos len) (by rw [← firstCode_succ hLen, pow_succ]; push_cast; omega)]
      refine ⟨fun hAll l hl hlt => ?_, fun hAll l hl hlt => hAll l (by omega) (by omega)⟩
      rcases Nat.lt_or_eq_of_le hl with hLess | rfl
      · exact hAll l hLess (by omega)
      · exact hRoom.mpr (by omega)

theorem roomLoop_iff_roomy :
    roomLoop (fun len => lengths.count len) maxBits 1 1 = true ↔ Roomy lengths longest := by
  rw [roomLoop_iff maxBits Nat.one_pos (by norm_num [firstCode, population])]
  have hLast : 1 + maxBits = longest + 1 := rfl
  refine ⟨fun hAll len hLen => ?_, fun hRoomy len hLen hlt => ?_⟩
  · rcases Nat.eq_zero_or_pos len with rfl | hPos
    · exact Nat.zero_le 1
    · rw [population_of_pos hPos]
      exact hAll len hPos (by omega)
  · have hRoom := hRoomy len (by omega)
    rwa [population_of_pos hLen] at hRoom

/-- What `build` accepts is built. -/
theorem built_of_accepted (h : Huffman) (hOk : (build h lengths).1 = true) :
    Built (build h lengths).2 lengths := by
  unfold build at hOk ⊢
  dsimp only at hOk ⊢
  split at hOk
  next => cases hOk
  next hFits =>
  have hRoomy : Roomy lengths longest := by
    rw [← roomLoop_iff_roomy, ← Bool.not_eq_false]
    exact fun hRoom => hFits (.inr hRoom)
  rw [if_neg hFits]
  have hSorted : ∀ {symbol len : Nat}, lengths[symbol]? = some len → 0 < len →
      sortLoop lengths 0 (offsetOf fun len => lengths.count len) h.symbol
        (offsetOf (fun len => lengths.count len) len + rank lengths symbol len) = symbol := by
    intro symbol len hLength hPos
    rw [sortLoop_place lengths (apart_offsetOf lengths) hLength hPos.ne', Nat.zero_add]
  refine ⟨fun _ => rfl, hSorted, ?_, ?_⟩
  · intro a symbol len hCode hShort
    have hFast := fun symbols => @fastLoop_hit (rank lengths symbol len) a lengths symbols len
      (.of_isCode hCode hShort)
    have hSmall : fastBits < 1 + maxBits := by decide
    rw [← hSorted hCode.length hCode.pos]
    refine hFast _ ?_ maxBits Nat.one_pos hCode.pos (hShort.trans_lt hSmall)
    intro l' i' hl' hHits
    obtain ⟨symbol', hCode', rfl⟩ := hHits.isCode hRoomy hl'
    obtain ⟨rfl, rfl⟩ := isCode_unique hCode' hCode
    exact ⟨rfl, rfl⟩
  · intro a hMiss
    refine @fastLoop_miss a lengths _ maxBits 1 _ Nat.one_pos ?_
    intro l i hl _ hHits
    obtain ⟨symbol, hCode, -⟩ := hHits.isCode hRoomy hl
    exact hMiss symbol l hHits.short hCode

/-- `build` accepts a code with room for its words and at least one of them. -/
theorem built_build (h : Huffman) (hRoomy : Roomy lengths longest)
    (hSome : lengths[symbol]? = some len) (hLen : 0 < len) :
    (build h lengths).1 = true ∧ Built (build h lengths).2 lengths := by
  have hCount : lengths.count 0 ≠ lengths.length := by
    intro hAll
    have hMem := count_eq_length.mp hAll len (mem_of_getElem? hSome)
    omega
  have hOk : (build h lengths).1 = true := by
    unfold build
    rw [if_neg (by rw [roomLoop_iff_roomy.mpr hRoomy]; simpa using hCount)]
  exact ⟨hOk, built_of_accepted h hOk⟩

/-- The entry of an index that starts with a word. -/
theorem Built.entry {h : Huffman} (hBuilt : Built h lengths) (hSmall : lengths.length ≤ 2 ^ 12)
    (hCode : IsCode lengths symbol len (mirror len a)) (hShort : len ≤ fastBits) :
    h.fast a / 2 ^ 12 = len ∧ h.fast a % 2 ^ 12 = symbol := by
  have hLt : symbol < 2 ^ 12 :=
    ((List.getElem?_eq_some_iff.mp hCode.length).1).trans_le hSmall
  rw [hBuilt.hit hCode hShort]
  omega

end Building

/-! ## Symbols -/

section Symbols
variable {input : List UInt8} {lengths : List Nat} {h : Huffman} {out : List UInt8}
  {pos symbol len : Nat}

/-- The walk reads the word of a symbol, from any number of its bits on. -/
theorem walk_eq (hBuilt : Built h lengths)
    (hCode : IsCode lengths symbol len (mirror len (number input / 2 ^ pos)))
    (hLeft : pos + len ≤ 8 * input.length) (rounds : Nat) :
    ∀ {l : Nat} {s : Stream}, l < len → len < l + 1 + rounds → Synced input s (pos + l) out →
      ∃ t, walk input h rounds (l + 1) (mirror l (number input / 2 ^ pos) * 2)
          (firstCode lengths (l + 1)) (offsetOf (fun len => lengths.count len) (l + 1)) s =
          (some symbol, t) ∧
        Synced input t (pos + len) out ∧ t.bitcount ≤ max 7 (s.bitcount + l - len) := by
  induction rounds with
  | zero =>
    omega
  | succ rounds ih =>
    intro l s hl hRounds hSync
    -- one bit more of the word
    have hField : FieldAt input (pos + l) 1 (field (number input) (pos + l) 1) (pos + l + 1) :=
      ⟨rfl, by omega, rfl⟩
    obtain ⟨t, hBits, hSync', hAhead⟩ := hSync.bits hField
    have hWord : mirror l (number input / 2 ^ pos) * 2 + field (number input) (pos + l) 1 =
        mirror (l + 1) (number input / 2 ^ pos) := by
      rw [mirror_succ, field, pow_add, ← Nat.div_div_eq_div_mul, pow_one]
    rw [walk, hBits]
    dsimp only
    rw [if_neg (by rw [hSync'.ok]; exact Bool.false_ne_true), hWord, hBuilt.count]
    rcases Nat.lt_or_eq_of_le (succ_le_of_lt hl) with hShort | hWhole
    · -- a longer word is above all words of this length
      have hAbove := hCode.le_div hShort
      rw [mirror_div _ hShort.le, population_of_pos (succ_pos l)] at hAbove
      rw [if_neg (not_lt.mpr hAbove), firstCode_succ (succ_pos l),
        ← offsetOf_succ (fun len => lengths.count len) (succ_pos l)]
      obtain ⟨u, hWalk, hSync'', hAhead'⟩ := ih hShort (by omega) hSync'
      exact ⟨u, hWalk, hSync'', by omega⟩
    · subst hWhole
      have hBelow := hCode.lt_of
      rw [population_of_pos (succ_pos l)] at hBelow
      rw [if_pos hBelow, hCode.code, Nat.add_sub_cancel_left, hBuilt.symbol hCode.length hCode.pos]
      exact ⟨t, rfl, hSync', by omega⟩

/-- The bits of an index that are in the register are those of the input. -/
theorem Synced.index {s : Stream} {l : Nat} (hSync : Synced input s pos out) (hl : l ≤ fastBits)
    (hCount : l ≤ s.bitcount) :
    mirror l (s.bitbuf % 2 ^ fastBits) = mirror l (number input / 2 ^ pos) := by
  rw [mirror_mod _ hl, hSync.buf, field, mirror_mod _ hCount]

/-- `decode` reads a symbol. What is left in the register is at most what it held with a
full index, without the word. -/
theorem Synced.decode {s : Stream} {next : Nat} (hSync : Synced input s pos out)
    (hBuilt : Built h lengths) (hSmall : lengths.length ≤ 2 ^ 12)
    (hLengths : ∀ l ∈ lengths, l ≤ longest) (hSymbol : SymbolAt input lengths pos symbol next)
    (hAhead : s.bitcount ≤ 16) :
    ∃ t, decode input s h = (some symbol, t) ∧ Synced input t next out ∧
      t.bitcount ≤ max 7 (16 + pos - next) := by
  obtain ⟨len, hCode, rfl, hLeft⟩ := hSymbol
  have hLongest : len ≤ longest := hLengths len (mem_of_getElem? hCode.length)
  obtain ⟨hRefill, hMax, hEnd⟩ := @Synced.refill input pos out fastBits fastBits s hSync
  have hSixteen : (Libc.refill input fastBits fastBits s).bitcount ≤ 16 := by
    have : fastBits + 7 = 16 := rfl
    omega
  unfold Libc.decode
  dsimp only
  revert hRefill hEnd hSixteen
  generalize Libc.refill input fastBits fastBits s = r
  intro hRefill hEnd hSixteen
  -- only at the end of the input is there less than a full index
  have hEnough : len ≤ r.bitcount ∨ fastBits ≤ r.bitcount := by
    rcases Nat.lt_or_ge r.bitcount fastBits with hLess | hGe
    · have hAt := hEnd (by omega) hLess
      have hPlace := hRefill.place
      omega
    · exact .inr hGe
  rcases Nat.lt_or_ge fastBits len with hLong | hShort
  · -- a word of the table would start the longer one
    have hMiss : h.fast (r.bitbuf % 2 ^ fastBits) = 0 := by
      apply hBuilt.miss
      intro symbol' l hl hCode'
      rw [hRefill.index hl (by omega)] at hCode'
      have := (isCode_unique hCode' hCode).2
      omega
    rw [if_neg (by rw [hMiss]; exact fun hHit => hHit.1 rfl)]
    have hLast : longest < 0 + 1 + maxBits := by decide
    obtain ⟨t, hWalk, hSync', hAhead'⟩ :=
      walk_eq hBuilt hCode hLeft maxBits hCode.pos (hLongest.trans_lt hLast) hRefill
    exact ⟨t, hWalk, hSync', by omega⟩
  · have hWhole : len ≤ r.bitcount := by omega
    rw [← hRefill.index hShort hWhole] at hCode
    obtain ⟨hDiv, hMod⟩ := hBuilt.entry hSmall hCode hShort
    have hPos := hCode.pos
    rw [hDiv, hMod, if_pos ⟨by omega, hWhole⟩]
    refine ⟨_, rfl, hRefill.consume hWhole, ?_⟩
    simp only [Libc.consume]
    omega

/-- Where in the bits of the input the next bit is read. -/
def Stream.place (s : Stream) : Nat := 8 * s.inAt - s.bitcount

/-- Two reads return the same symbol and leave the stream at the same place. -/
def Alike (p q : Option Nat × Stream) : Prop := p.1 = q.1 ∧ p.2.place = q.2.place

theorem Synced.place_eq {s : Stream} (hSync : Synced input s pos out) : s.place = pos := by
  have := hSync.place
  unfold Stream.place
  omega

/-- Past the last bit, reading one fails and leaves the place. -/
theorem Synced.bits_end {s : Stream} (hSync : Synced input s pos out)
    (hEnd : 8 * input.length ≤ pos) :
    ∃ t, Libc.bits input s 1 = (0, t) ∧ t.failed = true ∧ t.place = pos := by
  obtain ⟨hRefill, -, -⟩ := @Synced.refill input pos out 1 1 s hSync
  have hPlace := hRefill.place
  have hLe := hRefill.le
  refine ⟨{ Libc.refill input 1 1 s with failed := true }, ?_, rfl, hRefill.place_eq⟩
  unfold Libc.bits
  rw [if_pos (by omega)]

/-- The walk does not depend on how far ahead the register was topped up. -/
theorem walk_same (rounds : Nat) :
    ∀ {len code first index pos : Nat} {s s' : Stream}, Synced input s pos out →
      Synced input s' pos out → Alike (walk input h rounds len code first index s)
        (walk input h rounds len code first index s') := by
  induction rounds with
  | zero => exact fun hSync hSync' => ⟨rfl, hSync.place_eq.trans hSync'.place_eq.symm⟩
  | succ rounds ih =>
    intro len code first index pos s s' hSync hSync'
    rw [walk, walk]
    rcases Nat.lt_or_ge pos (8 * input.length) with hLeft | hEnd
    · have hField : FieldAt input pos 1 (field (number input) pos 1) (pos + 1) :=
        ⟨rfl, hLeft, rfl⟩
      obtain ⟨t, hBits, hNext, -⟩ := hSync.bits hField
      obtain ⟨t', hBits', hNext', -⟩ := hSync'.bits hField
      rw [hBits, hBits']
      dsimp only
      rw [hNext.ok, hNext'.ok, if_neg Bool.false_ne_true, if_neg Bool.false_ne_true]
      split
      next => exact ⟨rfl, hNext.place_eq.trans hNext'.place_eq.symm⟩
      next => exact ih hNext hNext'
    · obtain ⟨t, hBits, hFail, hPlace⟩ := hSync.bits_end hEnd
      obtain ⟨t', hBits', hFail', hPlace'⟩ := hSync'.bits_end hEnd
      rw [hBits, hBits']
      dsimp only
      rw [if_pos hFail, if_pos hFail']
      exact ⟨rfl, hPlace.trans hPlace'.symm⟩

/-- The lookup table changes nothing: with any table that `build` made, from any stream
that has not failed, `decode` returns what the walk alone does and leaves the same place. -/
theorem decode_eq_walk {s : Stream} (hSize : lengths.length ≤ 288)
    (hOk : (build h lengths).1 = true) (hSync : Synced input s pos out) :
    Alike (decode input s (build h lengths).2)
      (walk input (build h lengths).2 maxBits 1 0 0 0 s) := by
  have hBuilt := built_of_accepted h hOk
  obtain ⟨hRefill, -, -⟩ := @Synced.refill input pos out fastBits fastBits s hSync
  unfold decode
  dsimp only
  generalize refill input fastBits fastBits s = r at hRefill ⊢
  split
  next hHit =>
    -- only an index that starts with a word has an entry
    obtain ⟨symbol, len, hShort, hCode⟩ : ∃ symbol len, len ≤ fastBits ∧
        IsCode lengths symbol len (mirror len (r.bitbuf % 2 ^ fastBits)) := by
      by_contra hNone
      refine hHit.1 (hBuilt.miss fun symbol len hShort hCode => ?_)
      exact hNone ⟨symbol, len, hShort, hCode⟩
    obtain ⟨hDiv, hMod⟩ := hBuilt.entry (hSize.trans (by decide)) hCode hShort
    rw [hDiv] at hHit ⊢
    rw [hMod]
    rw [hRefill.index hShort hHit.2] at hCode
    have hLeft : pos + len ≤ 8 * input.length := by
      have hPlace := hRefill.place
      have hLe := hRefill.le
      omega
    have hLast : fastBits < 0 + 1 + maxBits := by decide
    obtain ⟨t, hWalk, hNext, -⟩ :=
      walk_eq hBuilt hCode hLeft maxBits hCode.pos (hShort.trans_lt hLast) hSync
    rw [show walk input _ maxBits 1 0 0 0 s = (some symbol, t) from hWalk]
    exact ⟨rfl, (hRefill.consume hHit.2).place_eq.trans hNext.place_eq.symm⟩
  next => exact walk_same maxBits hRefill hSync

theorem decode_eq_walk_last :
    Alike (decode [1] .start (build .zero [1, 2]).2)
      (walk [1] (build .zero [1, 2]).2 maxBits 1 0 0 0 .start) :=
  decode_eq_walk (by decide) (by decide) (⟨rfl, Nat.zero_le 1, rfl, rfl, rfl⟩ : Synced _ _ 0 [])

/-- After a read of more bits than are left, the lookup still gives a symbol where the walk
gives none. -/
theorem not_decode_eq_walk_failed :
    ¬ Alike (decode [16] (bits [16] ⟨1, 1, 4, [], false⟩ 5).2 (build .zero [1, 2]).2)
      (walk [16] (build .zero [1, 2]).2 maxBits 1 0 0 0
        (bits [16] ⟨1, 1, 4, [], false⟩ 5).2) :=
  fun hAlike => absurd hAlike.1 (by decide)

end Symbols
end LeahOS.Libc
