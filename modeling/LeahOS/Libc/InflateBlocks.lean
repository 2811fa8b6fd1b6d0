import LeahOS.Libc.InflateDecode

/-!
# The decompressor reads what the format says: compressed blocks and headers

Each part of a block that the format describes is read by the function for it, from a
stream that is `Synced` with its start to one that is `Synced` with its end. The first
section has what these proofs need of the format itself: positions only grow, and so does
the output.
-/

namespace LeahOS.Libc
open Lib Deflate List

/-! ## Positions -/

namespace Deflate
variable {input : List UInt8} {next pos total width : Nat}
  {codes dist lengths lit result : List Nat} {out out' : List UInt8}

theorem FieldAt.pos_le {value : Nat} (hField : FieldAt input pos width value next) :
    pos ≤ next := by
  have := hField.ends
  omega

theorem SymbolAt.lt {symbol : Nat} (hSymbol : SymbolAt input lengths pos symbol next) :
    pos < next ∧ next ≤ 8 * input.length := by
  obtain ⟨len, hCode, rfl, hLe⟩ := hSymbol
  have := hCode.pos
  omega

/-- A symbol from its word. -/
theorem SymbolAt.of_word {symbol : Nat} (len : Nat) (hWord : lengths[symbol]? = some len ∧ 0 < len ∧
      mirror len (number input / 2 ^ pos) = firstCode lengths len + rank lengths symbol len ∧
      pos + len ≤ 8 * input.length) : SymbolAt input lengths pos symbol (pos + len) :=
  ⟨len, ⟨hWord.1, hWord.2.1, hWord.2.2.1⟩, rfl, hWord.2.2.2⟩

theorem FieldsAt.pos_le {values : List Nat} (hFields : FieldsAt input width pos values next) :
    pos ≤ next := by
  induction hFields with
  | nil => exact Nat.le_refl _
  | cons hField _ ih => exact hField.pos_le.trans ih

theorem RunLengths.pos_le (hRun : RunLengths input codes total pos lengths result next) :
    pos ≤ next := by
  induction hRun with
  | done => exact Nat.le_refl _
  | one _ _ hSymbol _ ih => exact hSymbol.lt.1.le.trans ih
  | again _ hSymbol hField _ _ ih | zeros hSymbol hField _ _ ih
  | manyZeros hSymbol hField _ _ ih => exact hSymbol.lt.1.le.trans (hField.pos_le.trans ih)

theorem HeaderAt.pos_le {nlit : Nat} (hHeader : HeaderAt input pos nlit lengths next) :
    pos ≤ next := by
  cases hHeader with
  | mk h₁ h₂ h₃ _ hFields _ _ _ hRun _ _ =>
    exact h₁.pos_le.trans (h₂.pos_le.trans (h₃.pos_le.trans (hFields.pos_le.trans hRun.pos_le)))

theorem Coded.pos_lt (hCoded : Coded input lit dist pos out next out') :
    pos < next ∧ next ≤ 8 * input.length := by
  induction hCoded with
  | stop hSymbol => exact hSymbol.lt
  | literal hSymbol _ ih => exact ⟨hSymbol.lt.1.trans ih.1, ih.2⟩
  | copy _ hSymbol hExtra _ hDist hExtra' _ _ _ ih =>
    have h₁ := hSymbol.lt.1
    have h₂ := hExtra.pos_le
    have h₃ := hDist.lt.1
    have h₄ := hExtra'.pos_le
    omega

/-- The output only grows. -/
theorem Coded.length_le (hCoded : Coded input lit dist pos out next out') :
    out.length ≤ out'.length := by
  induction hCoded with
  | stop => exact Nat.le_refl _
  | literal _ _ ih =>
    rw [length_append] at ih
    omega
  | copy _ _ _ _ _ _ _ hCopied _ ih =>
    have := hCopied.longer
    omega

theorem FieldsAt.le_of_mem {values : List Nat} (hFields : FieldsAt input width pos values next) :
    ∀ v ∈ values, v < 2 ^ width := by
  induction hFields with
  | nil =>
    intro v hv
    cases hv
  | cons hField _ ih =>
    intro v hv
    rcases mem_cons.mp hv with rfl | hv
    · rw [hField.reads]
      exact field_lt _ _ _
    · exact ih v hv

theorem RunLengths.length_eq (hRun : RunLengths input codes total pos lengths result next) :
    result.length = total := by
  induction hRun with
  | done hLength => exact hLength
  | one _ _ _ _ ih | again _ _ _ _ _ ih | zeros _ _ _ _ ih | manyZeros _ _ _ _ ih => exact ih

theorem RunLengths.le (hRun : RunLengths input codes total pos lengths result next)
    (hLe : ∀ l ∈ lengths, l ≤ longest) : ∀ l ∈ result, l ≤ longest := by
  -- what a round appends is a length that was read, one that was there, or 0
  have hAppend : ∀ {lengths : List Nat} {n value : Nat}, (∀ l ∈ lengths, l ≤ longest) →
      value ≤ longest → ∀ l ∈ lengths ++ List.replicate n value, l ≤ longest := by
    intro lengths n value hLe hValue l hl
    rcases mem_append.mp hl with hl | hl
    · exact hLe l hl
    · rw [eq_of_mem_replicate hl]
      exact hValue
  induction hRun with
  | done => exact hLe
  | one _ hLen _ _ ih => exact ih (hAppend (n := 1) hLe (Nat.le_of_lt_succ hLen))
  | again hLast _ _ _ _ ih => exact ih (hAppend hLe (hLe _ (mem_of_getLast? hLast)))
  | zeros _ _ _ _ ih | manyZeros _ _ _ _ ih => exact ih (hAppend hLe (Nat.zero_le _))

/-- A header that is not complete goes on with a symbol. -/
theorem RunLengths.symbol (hRun : RunLengths input codes total pos lengths result next)
    (hLess : lengths.length < total) :
    ∃ symbol mid, SymbolAt input codes pos symbol mid := by
  cases hRun with
  | done hLength => omega
  | one _ _ hSymbol _ | again _ hSymbol _ _ _ | zeros hSymbol _ _ _ | manyZeros hSymbol _ _ _ =>
    exact ⟨_, _, hSymbol⟩

/-- A compressed block ends with its end symbol. -/
theorem Coded.stop_code (hCoded : Coded input lit dist pos out next out') :
    ∃ len, lit[256]? = some len ∧ 0 < len := by
  induction hCoded with
  | stop hSymbol =>
    obtain ⟨len, hCode, -⟩ := hSymbol
    exact ⟨len, hCode.length, hCode.pos⟩
  | literal _ _ ih | copy _ _ _ _ _ _ _ _ _ ih => exact ih

/-- The distance symbols that occur can be read under another code with the same words. -/
theorem Coded.mono_dist {dist' : List Nat}
    (hDist : ∀ {pos d next : Nat}, d < 30 → SymbolAt input dist pos d next →
      SymbolAt input dist' pos d next) (hCoded : Coded input lit dist pos out next out') :
    Coded input lit dist' pos out next out' := by
  induction hCoded with
  | stop hSymbol => exact .stop hSymbol
  | literal hSymbol _ ih => exact .literal hSymbol ih
  | copy hk hSymbol hExtra hd hSymbol' hExtra' hBack hCopied _ ih =>
    exact .copy hk hSymbol hExtra hd (hDist hd hSymbol') hExtra' hBack hCopied ih

theorem BlockAt.pos_le {kind : Kind} (hBlock : BlockAt input kind pos out next out') :
    pos ≤ next := by
  cases hBlock with
  | stored hType hStart =>
    have := hType.pos_le
    omega
  | fixed hType hCoded => exact hType.pos_le.trans hCoded.pos_lt.1.le
  | dynamic hType hHeader hCoded =>
    exact hType.pos_le.trans (hHeader.pos_le.trans hCoded.pos_lt.1.le)

theorem BlockAt.length_le {kind : Kind} (hBlock : BlockAt input kind pos out next out') :
    out.length ≤ out'.length := by
  cases hBlock with
  | stored =>
    rw [length_append]
    exact Nat.le_add_right _ _
  | fixed _ hCoded | dynamic _ _ hCoded => exact hCoded.length_le

theorem Blocks.length_le {kinds : List Kind} (hBlocks : Blocks input kinds pos out out') :
    out.length ≤ out'.length := by
  induction hBlocks with
  | last _ hBlock => exact hBlock.length_le
  | more _ hBlock _ ih => exact hBlock.length_le.trans ih

/-- Every block takes at least a bit. -/
theorem Blocks.count_le {kinds : List Kind} (hBlocks : Blocks input kinds pos out out') :
    pos + kinds.length ≤ 8 * input.length := by
  induction hBlocks with
  | last hFinal hBlock =>
    have := hFinal.ends
    have := hFinal.le
    simp only [length_singleton]
    omega
  | more hFinal hBlock _ ih =>
    have := hFinal.ends
    have := hBlock.pos_le
    rw [length_cons]
    omega

end Deflate

/-! ## Back-references -/

/-- The byte-wise copy gives what the back-reference repeats. -/
theorem copyBack_eq {distance : Nat} (hPos : 0 < distance) (length : Nat) :
    ∀ {out out' : List UInt8}, distance ≤ out.length → Copied out length distance out' →
      copyBack length distance out = out' := by
  induction length with
  | zero =>
    intro out out' _ hCopied
    rw [copyBack, ← hCopied.keeps, take_of_length_le (by rw [hCopied.longer]; omega)]
  | succ length ih =>
    intro out out' hLe hCopied
    have hLonger := hCopied.longer
    -- the byte at the end of the output so far, and the one that it repeats
    have hByte : out'[out.length]? = some (out.getD (out.length - distance) 0) := by
      have hRepeat := hCopied.repeats 0 (Nat.succ_pos length)
      have hKeep : out'[out.length - distance]? = out[out.length - distance]? := by
        have hTake := List.getElem?_take_of_lt (show out.length - distance < out.length by omega)
          (l := out')
        rw [← hTake, hCopied.keeps]
      rw [Nat.add_zero] at hRepeat
      rw [hRepeat, hKeep, getD_eq_getElem?_getD,
        List.getElem?_eq_getElem (show out.length - distance < out.length by omega)]
      rfl
    have hLength : (out ++ [out.getD (out.length - distance) 0]).length = out.length + 1 := by
      simp
    apply ih (by rw [hLength]; omega)
    refine ⟨?_, ?_, ?_⟩
    · rw [hLength, take_add_one, hCopied.keeps, hByte]
      rfl
    · rw [hLength]
      omega
    · intro i hi
      have hRepeat := hCopied.repeats (i + 1) (by omega)
      rw [hLength, show out.length + 1 + i = out.length + (i + 1) by omega]
      exact hRepeat

theorem kLen_eq : ∀ k < 29, kLenExtra.getD k 0 = lengthExtra k ∧ kLenBase.getD k 0 = lengthBase k := by
  decide

theorem kDist_eq : ∀ k < 30, kDistExtra.getD k 0 = distExtra k ∧ kDistBase.getD k 0 = distBase k := by
  decide

theorem distBase_pos (k : Nat) : 0 < distBase k := by
  unfold distBase
  split
  · exact Nat.succ_pos k
  · omega

/-! ## Compressed blocks -/

/-- Lengths that a table can hold. -/
structure Usable (lengths : List Nat) : Prop where
  small : lengths.length ≤ 2 ^ 12
  le : ∀ l ∈ lengths, l ≤ longest

section Tokens
variable {input : List UInt8} {lit dist : Huffman} {litLengths distLengths : List Nat}
  {pos next : Nat} {out : List UInt8} {s : Stream}

theorem Synced.push (hSync : Synced input s pos out) (out' : List UInt8) :
    Synced input { s with out := out' } pos out' :=
  { hSync with out := rfl }

theorem readToken_stop (hSync : Synced input s pos out) (hBuilt : Built lit litLengths)
    (hUsable : Usable litLengths) (hAhead : s.bitcount ≤ 16)
    (hSymbol : SymbolAt input litLengths pos 256 next) :
    ∃ t, readToken input lit dist s = (some .stop, t) ∧ Synced input t next out ∧
      t.bitcount ≤ max 7 (16 + pos - next) := by
  obtain ⟨t, hDecode, hSync', hLeft⟩ := hSync.decode hBuilt hUsable.small hUsable.le hSymbol hAhead
  refine ⟨t, ?_, hSync', hLeft⟩
  rw [readToken, hDecode]
  rfl

theorem readToken_literal (hSync : Synced input s pos out) (hBuilt : Built lit litLengths)
    (hUsable : Usable litLengths) (hAhead : s.bitcount ≤ 16) {byte : UInt8}
    (hSymbol : SymbolAt input litLengths pos byte.toNat next) :
    ∃ t, readToken input lit dist s = (some (.literal byte), t) ∧ Synced input t next out ∧
      t.bitcount ≤ 16 := by
  obtain ⟨t, hDecode, hSync', hLeft⟩ := hSync.decode hBuilt hUsable.small hUsable.le hSymbol hAhead
  have hLt := hSymbol.lt.1
  refine ⟨t, ?_, hSync', by omega⟩
  have hByte : byte.toNat < 256 := byte.toNat_lt
  rw [readToken, hDecode]
  dsimp only
  rw [if_pos hByte]
  simp

theorem readToken_copy {k d p₁ p₂ p₃ extra extra' : Nat} (hSync : Synced input s pos out)
    (hLit : Built lit litLengths) (hUsableLit : Usable litLengths)
    (hDist : Built dist distLengths) (hUsableDist : Usable distLengths)
    (hAhead : s.bitcount ≤ 16) (hk : k < 29) (hSymbol : SymbolAt input litLengths pos (257 + k) p₁)
    (hExtra : FieldAt input p₁ (lengthExtra k) extra p₂) (hd : d < 30)
    (hSymbol' : SymbolAt input distLengths p₂ d p₃)
    (hExtra' : FieldAt input p₃ (distExtra d) extra' next) :
    ∃ t, readToken input lit dist s =
        (some (.copy (lengthBase k + extra) (distBase d + extra')), t) ∧
      Synced input t next out ∧ t.bitcount ≤ 16 := by
  obtain ⟨t₁, hDecode, hSync₁, hLeft₁⟩ :=
    hSync.decode hLit hUsableLit.small hUsableLit.le hSymbol hAhead
  obtain ⟨t₂, hBits, hSync₂, hLeft₂⟩ := hSync₁.bits hExtra
  have hLt := hSymbol.lt.1
  obtain ⟨t₃, hDecode', hSync₃, hLeft₃⟩ :=
    hSync₂.decode hDist hUsableDist.small hUsableDist.le hSymbol' (by omega)
  obtain ⟨t₄, hBits', hSync₄, hLeft₄⟩ := hSync₃.bits hExtra'
  have hLt' := hSymbol'.lt.1
  refine ⟨t₄, ?_, hSync₄, by omega⟩
  have hMinus : 257 + k - 257 = k := Nat.add_sub_cancel_left 257 k
  rw [readToken, hDecode]
  dsimp only
  rw [if_neg (by omega), if_neg (by omega), if_neg (by omega), hMinus, (kLen_eq k hk).1,
    (kLen_eq k hk).2, hBits]
  rw [readDistance, hDecode']
  dsimp only
  rw [if_neg (by omega), (kDist_eq d hd).1, (kDist_eq d hd).2, hBits']
  rw [if_neg (by rw [hSync₄.ok]; exact Bool.false_ne_true)]

/-- `coded_block` reads a compressed block. A distance is only decoded when some symbol
of the distance code has a word, and then its table is built. -/
theorem codedBlock_eq {cap : Nat} (hLit : Built lit litLengths) (hUsableLit : Usable litLengths)
    (hDist : ∀ {symbol len : Nat}, distLengths[symbol]? = some len → 0 < len →
      Built dist distLengths) (hUsableDist : Usable distLengths) {out' : List UInt8}
    (hCoded : Coded input litLengths distLengths pos out next out') (hCap : out'.length ≤ cap) :
    ∀ {rounds : Nat} {s : Stream}, next < pos + rounds → Synced input s pos out → s.bitcount ≤ 16 →
      ∃ t, codedBlock input cap lit dist rounds s = (true, t) ∧ Synced input t next out' ∧
        t.bitcount ≤ max 7 (16 - litLengths.getD 256 0) := by
  induction hCoded with
  | @stop pos next out hSymbol =>
    intro rounds s hRounds hSync hAhead
    have hLt := hSymbol.lt.1
    obtain ⟨rounds, rfl⟩ : ∃ n, rounds = n + 1 := ⟨rounds - 1, by omega⟩
    obtain ⟨t, hToken, hSync', hLeft⟩ := readToken_stop hSync hLit hUsableLit hAhead hSymbol
    refine ⟨t, by rw [codedBlock, hToken], hSync', ?_⟩
    obtain ⟨len, hCode, rfl, -⟩ := hSymbol
    rw [getD_eq_getElem?_getD, hCode.length, Option.getD_some]
    omega
  | @literal pos mid next out out' byte hSymbol hCoded ih =>
    intro rounds s hRounds hSync hAhead
    have hLt := hSymbol.lt.1
    have hLt' := hCoded.pos_lt.1
    obtain ⟨rounds, rfl⟩ : ∃ n, rounds = n + 1 := ⟨rounds - 1, by omega⟩
    obtain ⟨t, hToken, hSync', hLeft⟩ := readToken_literal hSync hLit hUsableLit hAhead hSymbol
    have hRoom := hCoded.length_le
    rw [length_append, length_singleton] at hRoom
    rw [codedBlock, hToken]
    dsimp only
    rw [if_neg (by rw [hSync'.out]; omega), hSync'.out]
    exact ih hCap (by omega) (hSync'.push _) hLeft
  | @copy pos p₁ p₂ p₃ p₄ next k d extra extra' out out₁ out' hk hSymbol hExtra hd hSymbol'
      hExtra' hBack hCopied hCoded ih =>
      intro rounds s hRounds hSync hAhead
      have hLt := hSymbol.lt.1
      have hLt₂ := hExtra.pos_le
      have hLt₃ := hSymbol'.lt.1
      have hLt₄ := hExtra'.pos_le
      have hLt₅ := hCoded.pos_lt.1
      obtain ⟨rounds, rfl⟩ : ∃ n, rounds = n + 1 := ⟨rounds - 1, by omega⟩
      have hBuilt : Built dist distLengths := by
        obtain ⟨len, hCode, -⟩ := hSymbol'
        exact hDist hCode.length hCode.pos
      obtain ⟨t, hToken, hSync', hLeft⟩ := readToken_copy hSync hLit hUsableLit hBuilt hUsableDist
        hAhead hk hSymbol hExtra hd hSymbol' hExtra'
      have hRoom := hCoded.length_le
      rw [hCopied.longer] at hRoom
      have hBase := distBase_pos d
      rw [codedBlock, hToken]
      dsimp only
      rw [if_neg (by rw [hSync'.out]; omega), hSync'.out, copyBack_eq (by omega) _ hBack hCopied]
      exact ih hCap (by omega) (hSync'.push _) hLeft

end Tokens

/-! ## The header of a dynamic block -/

section Header
variable {input : List UInt8} {out : List UInt8} {next pos : Nat}

theorem readFields_eq {width : Nat} {values : List Nat}
    (hFields : FieldsAt input width pos values next) :
    ∀ {s : Stream}, Synced input s pos out → s.bitcount ≤ 16 →
      ∃ t, readFields input width values.length s = (values, t) ∧ Synced input t next out ∧
        t.bitcount ≤ 16 := by
  induction hFields with
  | nil =>
    intro s hSync hAhead
    exact ⟨s, rfl, hSync, hAhead⟩
  | cons hField _ ih =>
    intro s hSync hAhead
    obtain ⟨t, hBits, hSync', hLeft⟩ := hSync.bits hField
    obtain ⟨u, hRest, hSync'', hLeft'⟩ := ih hSync' (by omega)
    refine ⟨u, ?_, hSync'', hLeft'⟩
    rw [length_cons, readFields, hBits]
    dsimp only
    rw [hRest]

/-- The fields in their order are the lengths of the symbols. -/
theorem orderLengths_eq {fields codes : List Nat} (hOrder : InOrder fields codes) :
    orderLengths fields = codes := by
  have hIndex : ∀ symbol < 19, kLengthOrder.idxOf symbol < 19 ∧
      order.getD (kLengthOrder.idxOf symbol) 0 = symbol := by decide
  apply ext_getElem?
  intro symbol
  rcases Nat.lt_or_ge symbol 19 with hlt | hge
  · have hGet := hOrder.get _ (hIndex symbol hlt).1
    rw [(hIndex symbol hlt).2] at hGet
    rw [hGet, orderLengths, List.getElem?_map, List.getElem?_range hlt]
    rfl
  · rw [List.getElem?_eq_none (by simpa [orderLengths] using hge),
      List.getElem?_eq_none (by rw [hOrder.length]; exact hge)]

theorem usable_codes {fields codes : List Nat} (hFields : FieldsAt input 3 pos fields next)
    (hOrder : InOrder fields codes) :
    Usable codes := by
  refine ⟨by rw [hOrder.length]; decide, fun l hl => ?_⟩
  rw [← orderLengths_eq hOrder] at hl
  obtain ⟨symbol, -, rfl⟩ := List.mem_map.mp hl
  rw [getD_eq_getElem?_getD]
  cases hGet : fields[kLengthOrder.idxOf symbol]? with
  | none => exact Nat.zero_le _
  | some v =>
    have hv := hFields.le_of_mem v (mem_of_getElem? hGet)
    exact (Nat.le_of_lt hv).trans (by decide)

section Loop
variable {code : Huffman} {codes lengths result : List Nat} {total rounds : Nat} {s : Stream}

/-- A round of the loop that reads a repeat symbol. -/
theorem lengthsLoop_repeat {symbol value least width extra pos p₁ p₂ : Nat}
    (hSync : Synced input s pos out) (hBuilt : Built code codes) (hUsable : Usable codes)
    (hAhead : s.bitcount ≤ 16) (hSymbol : SymbolAt input codes pos symbol p₁)
    (hRepeat : 16 ≤ symbol) (hFirst : symbol = 16 → lengths ≠ [])
    (hOf : repeatOf lengths symbol = (value, least, width))
    (hExtra : FieldAt input p₁ width extra p₂) (hLeast : 0 < least)
    (hRoom : lengths.length + (least + extra) ≤ total) :
    ∃ t, lengthsLoop input code total (rounds + 1) lengths s =
        lengthsLoop input code total rounds (lengths ++ List.replicate (least + extra) value) t ∧
      Synced input t p₂ out ∧ t.bitcount ≤ 16 := by
  obtain ⟨t, hDecode, hSync', hLeft⟩ := hSync.decode hBuilt hUsable.small hUsable.le hSymbol hAhead
  obtain ⟨u, hBits, hSync'', hLeft'⟩ := hSync'.bits hExtra
  have hLt := hSymbol.lt.1
  refine ⟨u, ?_, hSync'', by omega⟩
  rw [lengthsLoop, if_neg (by omega), hDecode]
  dsimp only
  rw [if_neg (by omega), if_neg (fun hBad => hFirst hBad.1 hBad.2), hOf]
  rw [hBits]
  rw [if_neg]
  rw [hSync''.ok]
  simp only [Bool.false_eq_true, false_or, not_lt]
  exact hRoom

/-- The loop reads the lengths of both codes. -/
theorem lengthsLoop_eq {pos next : Nat} (hBuilt : Built code codes) (hUsable : Usable codes)
    (hRun : RunLengths input codes total pos lengths result next) :
    ∀ {rounds : Nat} {s : Stream}, total < lengths.length + rounds → Synced input s pos out →
      s.bitcount ≤ 16 → ∃ t, lengthsLoop input code total rounds lengths s = (some result, t) ∧
        Synced input t next out ∧ t.bitcount ≤ 16 := by
  induction hRun with
  | @done pos lengths hLength =>
    intro rounds s hRounds hSync hAhead
    obtain ⟨rounds, rfl⟩ : ∃ n, rounds = n + 1 := ⟨rounds - 1, by omega⟩
    exact ⟨s, by rw [lengthsLoop, if_pos hLength.ge], hSync, hAhead⟩
  | @one pos mid next len lengths result hLess hLen hSymbol _ ih =>
    intro rounds s hRounds hSync hAhead
    obtain ⟨rounds, rfl⟩ : ∃ n, rounds = n + 1 := ⟨rounds - 1, by omega⟩
    obtain ⟨t, hDecode, hSync', hLeft⟩ :=
      hSync.decode hBuilt hUsable.small hUsable.le hSymbol hAhead
    have hLt := hSymbol.lt.1
    rw [lengthsLoop, if_neg (by omega), hDecode]
    dsimp only
    rw [if_pos hLen]
    exact ih (by rw [length_append, length_singleton]; omega) hSync' (by omega)
  | @again pos p₁ p₂ next extra value lengths result hLast hSymbol hExtra hRoom _ ih =>
    intro rounds s hRounds hSync hAhead
    obtain ⟨rounds, rfl⟩ : ∃ n, rounds = n + 1 := ⟨rounds - 1, by omega⟩
    have hOf : repeatOf lengths 16 = (value, 3, 2) := by
      rw [repeatOf, if_pos rfl, getLastD_eq_getLast?, hLast, Option.getD_some]
    have hFirst : lengths ≠ [] := by
      rintro rfl
      cases hLast
    obtain ⟨t, hStep, hSync', hLeft⟩ := lengthsLoop_repeat hSync hBuilt hUsable hAhead hSymbol
      (Nat.le_refl 16) (fun _ => hFirst) hOf hExtra (by decide) hRoom
    rw [hStep]
    exact ih (by rw [length_append, length_replicate]; omega) hSync' hLeft
  | @zeros pos p₁ p₂ next extra lengths result hSymbol hExtra hRoom _ ih
  | @manyZeros pos p₁ p₂ next extra lengths result hSymbol hExtra hRoom _ ih =>
    intro rounds s hRounds hSync hAhead
    obtain ⟨rounds, rfl⟩ : ∃ n, rounds = n + 1 := ⟨rounds - 1, by omega⟩
    obtain ⟨t, hStep, hSync', hLeft⟩ := lengthsLoop_repeat hSync hBuilt hUsable hAhead hSymbol
      (by decide) (fun hEq => absurd hEq (by decide)) rfl hExtra (by decide) hRoom
    rw [hStep]
    exact ih (by rw [length_append, length_replicate]; omega) hSync' hLeft

end Loop

/-- `dynamic_codes` up to the tables: the header is read. -/
theorem readHeader_eq {nlit : Nat} {lengths : List Nat} {s : Stream}
    (hHeader : HeaderAt input pos nlit lengths next) (hDistances : lengths.length - nlit ≤ 30)
    (hSync : Synced input s pos out) (hAhead : s.bitcount ≤ 16) :
    ∃ t, readHeader input s = (some (nlit, lengths), t) ∧ Synced input t next out ∧
      t.bitcount ≤ 16 := by
  cases hHeader with
  | mk h₁ h₂ h₃ hMax hFields hCount hOrder hRoomy hRun _ _ =>
    obtain ⟨t₁, hBits₁, hSync₁, hLeft₁⟩ := hSync.bits h₁
    obtain ⟨t₂, hBits₂, hSync₂, hLeft₂⟩ := hSync₁.bits h₂
    obtain ⟨t₃, hBits₃, hSync₃, hLeft₃⟩ := hSync₂.bits h₃
    obtain ⟨t₄, hRead, hSync₄, hLeft₄⟩ := readFields_eq hFields hSync₃ (by omega)
    have hUsable := usable_codes hFields hOrder
    -- a symbol is read, so the code-length code has one
    obtain ⟨symbol, mid, len, hCode, -⟩ := hRun.symbol (show 0 < _ by omega)
    obtain ⟨hOk, hBuilt⟩ := built_build .zero hRoomy hCode.length hCode.pos
    obtain ⟨t₅, hLoop, hSync₅, hLeft₅⟩ :=
      lengthsLoop_eq hBuilt hUsable hRun (show _ < _ + (_ + 1) by
        rw [length_nil, Nat.zero_add]; exact Nat.lt_succ_self _) hSync₄ hLeft₄
    refine ⟨t₅, ?_, hSync₅, hLeft₅⟩
    have hTotal := hRun.length_eq
    rw [readHeader, hBits₁]
    dsimp only
    rw [hBits₂]
    rw [hBits₃]
    rw [if_neg (by rw [hSync₃.ok]; simp only [Bool.false_eq_true, false_or]; omega),
      ← hCount, hRead]
    rw [orderLengths_eq hOrder, hOk, if_neg (by rw [hSync₄.ok]; simp), hLoop]

end Header
end LeahOS.Libc
