import LeahOS.Libc.InflateBlocks

/-!
# The decompressor reads what the format says: blocks and streams

What the register holds beyond the bits that were consumed is dropped by a stored block.
That is right when it is less than a byte. After the end of a compressed block it can be
up to 16 bits less the word that ended the block, and it is always the rest of a byte and
whole bytes (`Kind.spare`). With the three bits of its header gone that has to be less
than a byte for a stored block to follow a dynamic one. `gentle` says that, and that no
header asks for more distance symbols than `dynamic_codes` takes.
-/

namespace LeahOS.Libc
open Lib Deflate List

/-! ## Blocks -/

section Block
variable {input : List UInt8} {out out' : List UInt8} {pos next : Nat} {s : Stream}

theorem xor_of_add {a b : Nat} (hSum : a + b = 0xFFFF) : a ^^^ 0xFFFF = b := by
  have hLt : a < 2 ^ 16 := by omega
  have hNot := congrArg BitVec.toNat (BitVec.xor_allOnes (x := BitVec.ofNat 16 a))
  rw [BitVec.toNat_xor, BitVec.toNat_not, BitVec.toNat_ofNat, Nat.mod_eq_of_lt hLt,
    BitVec.toNat_allOnes] at hNot
  have hOnes : 2 ^ 16 - 1 = 0xFFFF := rfl
  rw [hOnes] at hNot
  omega

variable {i len nlit p₂ : Nat} {lengths : List Nat}

theorem word_eq {value : Nat} (hField : FieldAt input (8 * i) 16 value next) :
    word input i = value := by
  have hLe := hField.le
  have hEnds := hField.ends
  rw [hField.reads, field_add _ _ 8 8, field_number input (by omega),
    show 8 * i + 8 = 8 * (i + 1) by omega, field_number input (by omega), word]

/-- `stored_block` from a register that holds less than a byte. -/
theorem storedBlock_eq {cap start p₃ nlen : Nat} (hSync : Synced input s pos out)
    (hAhead : s.bitcount ≤ 7) (hStart : start = (pos + 7) / 8)
    (hLen : FieldAt input (8 * start) 16 len p₂) (hNlen : FieldAt input p₂ 16 nlen p₃)
    (hSum : len + nlen = 0xFFFF) (hInput : start + 4 + len ≤ input.length)
    (hCap : (out ++ (input.drop (start + 4)).take len).length ≤ cap) :
    ∃ t, storedBlock input cap s = (true, t) ∧ t.bitcount = 0 ∧
      Synced input t (8 * (start + 4 + len)) (out ++ (input.drop (start + 4)).take len) := by
  have hPlace := hSync.place
  have hAt : s.inAt = start := by omega
  have hTake : ((input.drop (start + 4)).take len).length = len := by
    rw [length_take, length_drop]
    omega
  have hNlen' : FieldAt input (8 * (start + 2)) 16 nlen p₃ := by
    rw [show 8 * (start + 2) = p₂ by rw [hLen.ends]; omega]
    exact hNlen
  rw [length_append, hTake] at hCap
  unfold storedBlock
  dsimp only
  rw [hAt, word_eq hLen, word_eq hNlen', xor_of_add hSum, hSync.out, if_neg (by omega),
    if_neg (by simp only [ne_eq, not_true_eq_false, false_or]; omega)]
  refine ⟨_, rfl, rfl, ?_⟩
  exact ⟨by dsimp only; omega, hInput, by simp [field, Nat.mod_one], hSync.ok, rfl⟩

theorem usable_fixed : Usable fixedLit ∧ Usable fixedDist :=
  ⟨⟨by decide +kernel, by decide +kernel⟩, by decide, by decide⟩

theorem built_buildBoth (g : Tables) {lit dist : List Nat} {symbol symbol' len' : Nat}
    (hLit : Roomy lit longest) (hDist : Roomy dist longest) (hSome : lit[symbol]? = some len)
    (hLen : 0 < len) (hSome' : dist[symbol']? = some len') (hLen' : 0 < len') :
    (buildBoth g lit dist).1 = true ∧ Built (buildBoth g lit dist).2.lit lit ∧
      Built (buildBoth g lit dist).2.dist dist := by
  obtain ⟨hOk, hBuilt⟩ := built_build g.lit hLit hSome hLen
  obtain ⟨hOk', hBuilt'⟩ := built_build g.dist hDist hSome' hLen'
  unfold buildBoth
  rw [if_pos hOk]
  exact ⟨hOk', hBuilt, hBuilt'⟩

theorem built_fixed (g : Tables) : (fixedCodes g).1 = true ∧
    Built (fixedCodes g).2.lit fixedLit ∧ Built (fixedCodes g).2.dist fixedDist := by
  have hRoomy : Roomy fixedLit longest ∧ Roomy fixedDist longest := by decide +kernel
  have hSome : fixedLit[0]? = some 8 ∧ fixedDist[0]? = some 5 := by decide +kernel
  unfold fixedCodes
  exact built_buildBoth g hRoomy.1 hRoomy.2 hSome.1 (by decide) hSome.2 (by decide)

/-- The two distance symbols that never occur do not change the words of the others. -/
theorem symbolAt_fixedDist {d : Nat} (hd : d < 30)
    (hSymbol : SymbolAt input fixedDistances pos d next) : SymbolAt input fixedDist pos d next := by
  have hRank : ∀ d < 30, fixedDist[d]? = some 5 ∧ rank fixedDistances d 5 = rank fixedDist d 5 := by
    decide
  obtain ⟨len, hCode, hNext⟩ := hSymbol
  obtain rfl : len = 5 := by
    have hLength := hCode.length
    rw [fixedDistances, List.getElem?_replicate, if_pos (by omega)] at hLength
    exact (Option.some.inj hLength).symm
  refine ⟨5, ⟨(hRank d hd).1, hCode.pos, ?_⟩, hNext⟩
  rw [hCode.code, (hRank d hd).2, show firstCode fixedDistances 5 = firstCode fixedDist 5 by decide]

theorem getD_of_take {n : Nat} (hTake : (lengths.take n)[i]? = some len) :
    lengths.getD i 0 = len := by
  rw [List.getElem?_take] at hTake
  split at hTake
  · rw [getD_eq_getElem?_getD, hTake, Option.getD_some]
  · cases hTake

/-- `dynamic_codes` sets up both codes; a distance code without symbols is refused by
`build` and left for the block not to use. -/
theorem dynamicCodes_eq (g : Tables) (hHeader : HeaderAt input pos nlit lengths p₂)
    (hDistances : lengths.length - nlit ≤ 30)
    (hCoded : Coded input (lengths.take nlit) (lengths.drop nlit) p₂ out next out')
    (hSync : Synced input s pos out) (hAhead : s.bitcount ≤ 16) :
    ∃ t g', dynamicCodes input s g = (true, t, g') ∧ Synced input t p₂ out ∧ t.bitcount ≤ 16 ∧
      Built g'.lit (lengths.take nlit) ∧
      ∀ {symbol len : Nat}, (lengths.drop nlit)[symbol]? = some len → 0 < len →
        Built g'.dist (lengths.drop nlit) := by
  obtain ⟨t, hRead, hSync', hLeft⟩ := readHeader_eq hHeader hDistances hSync hAhead
  obtain ⟨len, hStop, hLen⟩ := hCoded.stop_code
  have hRoomy : Roomy (lengths.take nlit) longest ∧ Roomy (lengths.drop nlit) longest := by
    cases hHeader with
    | mk _ _ _ _ _ _ _ _ _ hLit hDist => exact ⟨hLit, hDist⟩
  have hStop' := getD_of_take hStop
  obtain ⟨hOk, hBuilt⟩ := built_build g.lit hRoomy.1 hStop hLen
  refine ⟨t, ⟨(build g.lit (lengths.take nlit)).2, (build g.dist (lengths.drop nlit)).2⟩,
    ?_, hSync', hLeft, hBuilt, fun hSome hPos => (built_build g.dist hRoomy.2 hSome hPos).2⟩
  simp only [dynamicCodes, hRead]
  rw [if_neg (by omega), if_pos hOk]

theorem usable_dynamic (hHeader : HeaderAt input pos nlit lengths p₂) :
    Usable (lengths.take nlit) ∧ Usable (lengths.drop nlit) := by
  cases hHeader with
  | mk _ h₂ _ hMax _ _ _ _ hRun _ _ =>
    have hLe := hRun.le (fun l hl => by cases hl)
    have hTotal := hRun.length_eq
    have hdist := h₂.reads ▸ field_lt _ _ 5
    refine ⟨⟨?_, fun l hl => hLe l (mem_of_mem_take hl)⟩, ?_,
      fun l hl => hLe l (mem_of_mem_drop hl)⟩
    · rw [length_take]
      omega
    · rw [length_drop]
      omega

end Block

/-! ## Streams -/

/-- How many bits the register can hold after a block. -/
def Deflate.Kind.ahead : Kind → Nat
  | .stored => 0
  | .fixed => 9
  | .dynamic stop _ _ => max 7 (16 - stop)

/-- What is left of the 16 bits after a word that ends at `next`: as much as there is up to the end
of a byte. -/
def Deflate.Kind.spare (stop next : Nat) : Nat := 16 - stop - (16 - stop + next) % 8

/-- No dynamic block has more than 30 distance symbols, and no stored block comes directly
after a dynamic block that leaves a byte in the register beyond the next header. -/
def gentle : List Kind → Bool
  | [] => true
  | .dynamic stop distances next :: rest =>
    distances ≤ 30 && (Kind.spare stop next < 3 + 8 || rest.head? != some .stored) && gentle rest
  | _ :: rest => gentle rest

section Streams
variable {input : List UInt8} {out out' : List UInt8} {pos next : Nat} {s : Stream} {cap : Nat}
  {kind : Kind} {kinds : List Kind}

/-- A dynamic block ends where its kind says. -/
theorem Deflate.BlockAt.next_eq (hBlock : BlockAt input kind pos out next out')
    {stop distances stops : Nat} (hKind : kind = .dynamic stop distances stops) : stops = next := by
  cases hBlock <;> cases hKind
  rfl

/-- A round of `inflate_raw` after the bit that says whether it is the last. -/
theorem block_eq (g : Tables) (hBlock : BlockAt input kind pos out next out')
    (hCap : out'.length ≤ cap) (hGentle : ∀ stop distances next, kind = .dynamic stop distances next →
      distances ≤ 30) (hStored : kind = .stored → s.bitcount ≤ 9) (hSync : Synced input s pos out)
    (hAhead : s.bitcount ≤ 16) :
    ∃ type t u g', bits input s 2 = (type, t) ∧ t.failed = false ∧
      block input cap type t g = (true, u, g') ∧ Synced input u next out' ∧
      u.bitcount ≤ kind.ahead := by
  cases hBlock with
  | stored hType hStart hLen hNlen hSum hInput =>
    obtain ⟨t, hBits, hSync', hLeft⟩ := hSync.bits hType
    have hSmall := hStored rfl
    obtain ⟨u, hBlock, hEmpty, hSync''⟩ :=
      storedBlock_eq hSync' (by omega) hStart hLen hNlen hSum hInput hCap
    refine ⟨0, t, u, g, hBits, hSync'.ok, ?_, hSync'', hEmpty.le⟩
    rw [block, if_pos rfl, hBlock]
  | fixed hType hCoded =>
    obtain ⟨t, hBits, hSync', hLeft⟩ := hSync.bits hType
    obtain ⟨hOk, hLit, hDist⟩ := built_fixed g
    have hRounds := hCoded.pos_lt.2
    obtain ⟨u, hBlock, hSync'', hLeft'⟩ := codedBlock_eq hLit usable_fixed.1 (fun _ _ => hDist)
      usable_fixed.2 (hCoded.mono_dist symbolAt_fixedDist) hCap
      (show _ < _ + roundsFor input by unfold roundsFor; omega) hSync' (by omega)
    refine ⟨1, t, u, (fixedCodes g).2, hBits, hSync'.ok, ?_, hSync'', hLeft'.trans (by decide +kernel)⟩
    rw [block, if_neg (by decide), if_pos rfl]
    dsimp only
    rw [hOk, afterCodes, hBlock]
  | dynamic hType hHeader hCoded =>
    obtain ⟨t, hBits, hSync', hLeft⟩ := hSync.bits hType
    obtain ⟨t', g', hCodes, hSync'', hLeft', hLit, hDist⟩ :=
      dynamicCodes_eq g hHeader (hGentle _ _ _ rfl) hCoded hSync' (by omega)
    have hUsable := usable_dynamic hHeader
    have hRounds := hCoded.pos_lt.2
    obtain ⟨u, hBlock, hSync₃, hLeft₃⟩ := codedBlock_eq hLit hUsable.1 hDist hUsable.2 hCoded hCap
      (show _ < _ + roundsFor input by unfold roundsFor; omega) hSync'' hLeft'
    refine ⟨2, t, u, g', hBits, hSync'.ok, ?_, hSync₃, ?_⟩
    · rw [block, if_neg (by decide), if_neg (by decide), if_pos rfl, hCodes, afterCodes, hBlock]
    · obtain ⟨len, hStop, -⟩ := hCoded.stop_code
      rw [getD_eq_getElem?_getD, hStop, Option.getD_some] at hLeft₃
      rw [Deflate.Kind.ahead, getD_of_take hStop]
      exact hLeft₃

/-- What `gentle` says of the first block and of the one after it, where the register has been read
from whole bytes. -/
theorem gentle_cons (hGentle : gentle (kind :: kinds) = true) :
    (∀ stop distances next, kind = .dynamic stop distances next → distances ≤ 30) ∧
      gentle kinds = true ∧ kind.ahead ≤ 16 := by
  cases kind with
  | stored | fixed => exact ⟨fun _ _ _ hEq => (by cases hEq), hGentle, by decide⟩
  | dynamic stop distances next =>
    simp only [gentle, Bool.and_eq_true, decide_eq_true_eq] at hGentle
    obtain ⟨⟨hDistances, -⟩, hRest⟩ := hGentle
    refine ⟨?_, hRest, ?_⟩
    · rintro _ _ _ ⟨⟩
      exact hDistances
    · rw [Deflate.Kind.ahead]
      omega

/-- Before a stored block less than a byte and a header is left. -/
theorem bitcount_of_gentle (hGentle : gentle (kind :: kinds) = true)
    (hNext : kinds.head? = some .stored) (hSync : Synced input s next out)
    (hKind : ∀ stop distances stops, kind = .dynamic stop distances stops → stops = next)
    (hLeft : s.bitcount ≤ kind.ahead) : s.bitcount ≤ 10 := by
  cases kind with
  | stored | fixed => exact hLeft.trans (by decide)
  | dynamic stop distances stops =>
    obtain rfl := hKind _ _ _ rfl
    simp only [gentle, hNext, Kind.spare, Bool.and_eq_true, decide_eq_true_eq,
      bne_self_eq_false, Bool.or_false] at hGentle
    have hSpare := of_decide_eq_true hGentle.1.2
    have hPlace := hSync.place
    rw [Deflate.Kind.ahead] at hLeft
    omega

/-- One round of the loop. -/
theorem blocksLoop_round {final p₁ rounds : Nat} (g : Tables)
    (hFinal : FieldAt input pos 1 final p₁) (hBlock : BlockAt input kind p₁ out next out')
    (hCap : out'.length ≤ cap) (hGentle : gentle (kind :: kinds) = true)
    (hSync : Synced input s pos out) (hAhead : s.bitcount ≤ 16)
    (hStored : kind = .stored → s.bitcount ≤ 10) :
    ∃ t g', blocksLoop input cap (rounds + 1) s g =
        (if final = 0 then blocksLoop input cap rounds t g' else (true, t, g')) ∧
      Synced input t next out' ∧ t.bitcount ≤ kind.ahead := by
  obtain ⟨t, hBits, hSync', hLeft⟩ := hSync.bits hFinal
  obtain ⟨type, u, v, g', hBits', hOk, hRead, hSync'', hLeft'⟩ :=
    block_eq g hBlock hCap (gentle_cons hGentle).1
      (fun hKind => by have := hStored hKind; omega) hSync' (by omega)
  refine ⟨v, g', ?_, hSync'', hLeft'⟩
  rw [blocksLoop, hBits]
  dsimp only
  rw [hBits']
  rw [if_neg (by rw [hOk]; exact Bool.false_ne_true), hRead, afterBlock,
    if_neg (by rw [hSync''.ok]; exact Bool.false_ne_true)]

theorem blocksLoop_eq (hBlocks : Blocks input kinds pos out out') (hCap : out'.length ≤ cap) :
    ∀ {rounds : Nat} {s : Stream} (g : Tables), kinds.length ≤ rounds → gentle kinds = true →
      Synced input s pos out → s.bitcount ≤ 16 → (kinds.head? = some .stored → s.bitcount ≤ 10) →
      ∃ t g', blocksLoop input cap rounds s g = (true, t, g') ∧ t.out = out' := by
  induction hBlocks with
  | last hFinal hBlock =>
    intro rounds s g hRounds hGentle hSync hAhead hStored
    rw [length_singleton] at hRounds
    obtain ⟨rounds, rfl⟩ : ∃ n, rounds = n + 1 := ⟨rounds - 1, by omega⟩
    obtain ⟨t, g', hRound, hSync', -⟩ := blocksLoop_round g hFinal hBlock hCap hGentle hSync
      hAhead (fun hKind => hStored (by rw [hKind]; rfl))
    exact ⟨t, g', hRound, hSync'.out⟩
  | more hFinal hBlock hBlocks ih =>
    intro rounds s g hRounds hGentle hSync hAhead hStored
    rw [length_cons] at hRounds
    obtain ⟨rounds, rfl⟩ : ∃ n, rounds = n + 1 := ⟨rounds - 1, by omega⟩
    obtain ⟨t, g', hRound, hSync', hLeft⟩ := blocksLoop_round g hFinal hBlock
      (hBlocks.length_le.trans hCap) hGentle hSync hAhead
      (fun hKind => hStored (by rw [hKind]; rfl))
    obtain ⟨-, hRest, hSixteen⟩ := gentle_cons hGentle
    have hKind : ∀ stop distances stops, _ = Kind.dynamic stop distances stops → stops = _ :=
      fun _ _ _ hEq => hBlock.next_eq hEq
    rw [hRound]
    exact ih hCap g' (by omega) hRest hSync' (hLeft.trans hSixteen)
      fun hNext => bitcount_of_gentle hGentle hNext hSync' hKind hLeft

/-- For every stream that is gentle and whose output fits, whatever was decompressed before. -/
theorem inflateRaw_of_gentle {kinds : List Kind} (hStream : Decompresses input kinds out)
    (hGentle : gentle kinds = true) (hCap : out.length ≤ cap) (g : Tables) :
    (inflateRaw input cap g).1 = some out := by
  have hStart : Synced input .start 0 [] :=
    ⟨rfl, Nat.zero_le _, by simp [field, Nat.mod_one, Stream.start], rfl, rfl⟩
  have hCount := hStream.count_le
  obtain ⟨t, g', hLoop, hOut⟩ := blocksLoop_eq hStream hCap g
    (show _ ≤ roundsFor input by unfold roundsFor; omega) hGentle hStart (Nat.zero_le _)
    fun _ => Nat.zero_le _
  rw [inflateRaw, hLoop]
  exact congrArg some hOut

end Streams

/-! ## Two streams -/

/-- A fixed block with a letter and a back-reference to it, and then a stored block. -/
def fixedThenStored : List UInt8 := [74, 4, 2, 64, 0, 2, 0, 253, 255, 104, 105]

theorem decompresses_fixedThenStored :
    Decompresses fixedThenStored [.fixed, .stored] [97, 97, 97, 97, 104, 105] := by
  have hFinal : FieldAt fixedThenStored 0 1 0 1 := ⟨rfl, by decide, by decide⟩
  have hType : FieldAt fixedThenStored 1 2 1 3 := ⟨rfl, by decide, by decide⟩
  -- the letter, three bytes from one byte back, the end of the block
  have hLetter : SymbolAt fixedThenStored fixedLengths 3 97 11 := .of_word 8 (by decide +kernel)
  have hLength : SymbolAt fixedThenStored fixedLengths 11 (257 + 0) 18 :=
    .of_word 7 (by decide +kernel)
  have hDistance : SymbolAt fixedThenStored fixedDistances 18 0 23 := .of_word 5 (by decide +kernel)
  have hStop : SymbolAt fixedThenStored fixedLengths 23 256 30 := .of_word 7 (by decide +kernel)
  have hCopied : Copied [97] (lengthBase 0 + 0) (distBase 0 + 0) [97, 97, 97, 97] :=
    ⟨by decide, by decide, by decide⟩
  have hBody : Coded fixedThenStored fixedLengths fixedDistances 3 [] 30 [97, 97, 97, 97] :=
    .literal (show SymbolAt _ _ 3 (97 : UInt8).toNat 11 from hLetter)
      (.copy (by decide) hLength ⟨rfl, by decide, by decide⟩ (by decide) hDistance
        ⟨rfl, by decide, by decide⟩ (by decide) hCopied (.stop hStop))
  have hFinal' : FieldAt fixedThenStored 30 1 1 31 := ⟨rfl, by decide, by decide⟩
  have hType' : FieldAt fixedThenStored 31 2 0 33 := ⟨rfl, by decide, by decide⟩
  have hLen : FieldAt fixedThenStored (8 * 5) 16 2 56 := ⟨rfl, by decide, by decide⟩
  have hNlen : FieldAt fixedThenStored 56 16 65533 72 := ⟨rfl, by decide, by decide⟩
  exact .more hFinal (.fixed hType hBody)
    (.last hFinal' (.stored hType' (by decide) hLen hNlen (by decide) (by decide)))

/-- The stream is decompressed in a fresh process. -/
theorem inflateRaw_fixedThenStored :
    (inflateRaw fixedThenStored 16 .zero).1 = some [97, 97, 97, 97, 104, 105] :=
  inflateRaw_of_gentle decompresses_fixedThenStored (by decide) (by decide) .zero

/-- A dynamic block with three letters, whose end symbol has a word of one bit, and then a
stored block. -/
def lateStored : List UInt8 :=
  [4, 192, 129, 8, 0, 0, 0, 0, 32, 214, 253, 37, 14, 3, 2, 0, 253, 255, 104, 105]

/-- The lengths in the header of the dynamic block, as they are read. -/
def lateLengths : List Nat :=
  [] ++ List.replicate (11 + 86) 0 ++ [1] ++ List.replicate (11 + 127) 0 ++
    List.replicate (11 + 9) 0 ++ [1] ++ [0]

/-- The lengths of the code-length code: the symbols 0, 1 and 18 have words. -/
def lateCodes : List Nat := [2, 2, 0, 0, 0, 0, 0, 0, 0, 0, 0, 0, 0, 0, 0, 0, 0, 0, 1]

theorem headerAt_lateStored : HeaderAt lateStored 3 257 lateLengths 101 := by
  have hLit : FieldAt lateStored 3 5 0 8 := ⟨rfl, by decide, by decide⟩
  have hDist : FieldAt lateStored 8 5 0 13 := ⟨rfl, by decide, by decide⟩
  have hCodes : FieldAt lateStored 13 4 14 17 := ⟨rfl, by decide, by decide⟩
  have hFields : FieldsAt lateStored 3 17 [0, 0, 1, 2, 0, 0, 0, 0, 0, 0, 0, 0, 0, 0, 0, 0, 0, 2] 71 := by
    repeat refine .cons ⟨rfl, by decide, by decide⟩ ?_
    exact .nil
  have hOrder : InOrder [0, 0, 1, 2, 0, 0, 0, 0, 0, 0, 0, 0, 0, 0, 0, 0, 0, 2] lateCodes :=
    ⟨rfl, by decide⟩
  have hRun : RunLengths lateStored lateCodes (0 + 257 + (0 + 1)) 71 [] lateLengths 101 := by
    refine .manyZeros (.of_word 1 (by decide)) (⟨rfl, by decide, rfl⟩ : FieldAt _ 72 7 86 79)
      (by decide) ?_
    refine .one (by decide +kernel) (show 1 < 16 by decide) (.of_word 2 (by decide)) ?_
    refine .manyZeros (.of_word 1 (by decide)) (⟨rfl, by decide, rfl⟩ : FieldAt _ 82 7 127 89)
      (by decide +kernel) ?_
    refine .manyZeros (.of_word 1 (by decide)) (⟨rfl, by decide, rfl⟩ : FieldAt _ 90 7 9 97)
      (by decide +kernel) ?_
    refine .one (by decide +kernel) (show 1 < 16 by decide) (.of_word 2 (by decide)) ?_
    refine .one (by decide +kernel) (show 0 < 16 by decide) (.of_word 2 (by decide)) ?_
    exact .done (by decide +kernel)
  exact .mk hLit hDist hCodes (by decide) hFields rfl hOrder (by decide +kernel) hRun
    (by decide +kernel) (by decide +kernel)

theorem decompresses_lateStored :
    Decompresses lateStored [.dynamic 1 1 105, .stored] [97, 97, 97, 104, 105] := by
  have hFinal : FieldAt lateStored 0 1 0 1 := ⟨rfl, by decide, by decide⟩
  have hType : FieldAt lateStored 1 2 2 3 := ⟨rfl, by decide, by decide⟩
  have hLetter : ∀ pos, pos = 101 ∨ pos = 102 ∨ pos = 103 →
      SymbolAt lateStored (lateLengths.take 257) pos (97 : UInt8).toNat (pos + 1) := by
    rintro pos (rfl | rfl | rfl)
    all_goals exact .of_word 1 (by decide +kernel)
  have hStop : SymbolAt lateStored (lateLengths.take 257) 104 256 105 :=
    .of_word 1 (by decide +kernel)
  have hBody : Coded lateStored (lateLengths.take 257) (lateLengths.drop 257) 101 [] 105
      [97, 97, 97] :=
    .literal (hLetter 101 (by decide)) (.literal (hLetter 102 (by decide))
      (.literal (hLetter 103 (by decide)) (.stop hStop)))
  have hFinal' : FieldAt lateStored 105 1 1 106 := ⟨rfl, by decide, by decide⟩
  have hType' : FieldAt lateStored 106 2 0 108 := ⟨rfl, by decide, by decide⟩
  have hLen : FieldAt lateStored (8 * 14) 16 2 128 := ⟨rfl, by decide, by decide⟩
  have hNlen : FieldAt lateStored 128 16 65533 144 := ⟨rfl, by decide, by decide⟩
  have hBlock := BlockAt.dynamic hType headerAt_lateStored hBody
  have hKind : lateLengths.getD 256 0 = 1 ∧ lateLengths.length - 257 = 1 := by decide +kernel
  rw [hKind.1, hKind.2] at hBlock
  exact .more hFinal hBlock
    (.last hFinal' (.stored hType' (by decide) hLen hNlen (by decide) (by decide)))

/-- The register holds two bytes when the end symbol is decoded. With its one bit and the
three of the next header gone, more than a byte is left, and the stored block drops it. -/
theorem not_inflateRaw_lateStored :
    ¬ ∀ (input : List UInt8) (kinds : List Kind) (out : List UInt8) (cap : Nat),
      Decompresses input kinds out → out.length ≤ cap →
      (inflateRaw input cap .zero).1 = some out := by
  intro hAll
  have hRefused : (inflateRaw lateStored 16 .zero).1 = none := by decide +kernel
  rw [hAll _ _ _ 16 decompresses_lateStored (by decide)] at hRefused
  cases hRefused

end LeahOS.Libc
