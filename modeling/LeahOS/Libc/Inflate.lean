import Mathlib.Logic.Function.Basic
import LeahOS.Lib.BitString

/-!
# The decompressor (`user/libc/inflate.c`): the code

A stream is decoded with two code tables that are `static`: they outlive the
call, and `build` leaves part of a table as it was when it refuses a code. So
the tables are passed through every function that uses them.

* An array is a function from indices. The shift register is a number. It
  never holds more than 20 bits, so no bit of an `unsigned long` is lost.
* A bit is or-ed into a place that is empty, so `|` is written as `+`; the
  fields of a table entry are packed and taken apart with `*`, `/` and `%`.
* A loop that the source leaves only by `return` has a bound on its rounds.
-/

namespace LeahOS.Libc
open Lib

def maxBits : Nat := 15

def fastBits : Nat := 9

/-- `struct huffman`. -/
structure Huffman where
  count : Nat → Nat
  symbol : Nat → Nat
  fast : Nat → Nat

/-- `g_lit` and `g_dist`. -/
structure Tables where
  lit : Huffman
  dist : Huffman

/-- `struct stream`, without the input and the capacity of the output. -/
structure Stream where
  inAt : Nat
  bitbuf : Nat
  bitcount : Nat
  out : List UInt8
  failed : Bool

/-- A table as it is when the process starts. -/
def Huffman.zero : Huffman := ⟨fun _ => 0, fun _ => 0, fun _ => 0⟩

def Tables.zero : Tables := ⟨.zero, .zero⟩

/-- The stream at the start of `inflate_raw`. -/
def Stream.start : Stream := ⟨0, 0, 0, [], false⟩

/-! ## Huffman codes -/

section Codes

/-- The check that no length has more codes than there is room for. -/
def roomLoop (count : Nat → Nat) : Nat → Nat → Int → Bool
  | 0, _, _ => true
  | rounds + 1, len, left =>
    let left := 2 * left - count len
    if left < 0 then false else roomLoop count rounds (len + 1) left

/-- `offset`: where the symbols of a length start. -/
def offsetOf (count : Nat → Nat) : Nat → Nat
  | 0 => 0
  | 1 => 0
  | len + 1 => offsetOf count len + count len

/-- The loop that sorts the symbols by length. -/
def sortLoop : List Nat → Nat → (Nat → Nat) → (Nat → Nat) → (Nat → Nat)
  | [], _, _, symbol => symbol
  | len :: rest, i, offset, symbol =>
    if len ≠ 0 then
      sortLoop rest (i + 1) (Function.update offset len (offset len + 1))
        (Function.update symbol (offset len) i)
    else
      sortLoop rest (i + 1) offset symbol

/-- The strides of one code: every index whose low `len` bits are `reversed`. -/
def fillStride (fast : Nat → Nat) (len reversed entry : Nat) : Nat → Nat := fun i =>
  if i % 2 ^ len = reversed then entry else fast i

/-- The codes of one length. -/
def fillRow (count symbol : Nat → Nat) (len first index : Nat) (fast : Nat → Nat) : Nat → Nat :=
  (List.range (count len)).foldl
    (fun fast i => fillStride fast len (mirror len (first + i)) (len * 2 ^ 12 + symbol (index + i)))
    fast

/-- The loop that makes the lookup table. -/
def fastLoop (count symbol : Nat → Nat) : Nat → Nat → Nat → Nat → (Nat → Nat) → (Nat → Nat)
  | 0, _, _, _, fast => fast
  | rounds + 1, len, first, index, fast =>
    fastLoop count symbol rounds (len + 1) ((first + count len) * 2) (index + count len)
      (if len ≤ fastBits then fillRow count symbol len first index fast else fast)

/-- `build`, with whether it returns 0. A code that is refused leaves the symbols
and the lookup table as they were, but not the counts. -/
def build (h : Huffman) (lengths : List Nat) : Bool × Huffman :=
  let count := fun len => lengths.count len
  if count 0 = lengths.length ∨ roomLoop count maxBits 1 1 = false then
    (false, { h with count := count })
  else
    let symbol := sortLoop lengths 0 (offsetOf count) h.symbol
    (true, ⟨count, symbol, fastLoop count symbol maxBits 1 0 0 fun _ => 0⟩)

end Codes

/-! ## Reading bits -/

section Reading
variable (input : List UInt8)

/-- One byte into the shift register. -/
def load (s : Stream) : Stream :=
  { s with
    bitbuf := s.bitbuf + (input.getD s.inAt 0).toNat * 2 ^ s.bitcount
    inAt := s.inAt + 1
    bitcount := s.bitcount + 8 }

/-- The loop that tops the register up. -/
def refill (need : Nat) : Nat → Stream → Stream
  | 0, s => s
  | rounds + 1, s =>
    if s.bitcount < need ∧ s.inAt < input.length then
      refill need rounds (load input s)
    else
      s

/-- Take bits out of the register. -/
def consume (s : Stream) (n : Nat) : Stream :=
  { s with bitbuf := s.bitbuf / 2 ^ n, bitcount := s.bitcount - n }

def bits (s : Stream) (need : Nat) : Nat × Stream :=
  let s := refill input need need s
  if s.bitcount < need then
    (0, { s with failed := true })
  else
    (s.bitbuf % 2 ^ need, consume s need)

/-- The loop of `decode` that takes one bit at a time. -/
def walk (h : Huffman) : Nat → Nat → Nat → Nat → Nat → Stream → Option Nat × Stream
  | 0, _, _, _, _, s => (none, s)
  | rounds + 1, len, code, first, index, s =>
    let (bit, s) := bits input s 1
    if s.failed then
      (none, s)
    else
      let code := code + bit
      if code < first + h.count len then
        (some (h.symbol (index + (code - first))), s)
      else
        walk h rounds (len + 1) (code * 2) ((first + h.count len) * 2) (index + h.count len) s

/-- `decode`. A code that the lookup table does not have, or that needs more bits
than are left, is walked. -/
def decode (s : Stream) (h : Huffman) : Option Nat × Stream :=
  let s := refill input fastBits fastBits s
  let entry := h.fast (s.bitbuf % 2 ^ fastBits)
  if entry ≠ 0 ∧ entry / 2 ^ 12 ≤ s.bitcount then
    (some (entry % 2 ^ 12), consume s (entry / 2 ^ 12))
  else
    walk input h maxBits 1 0 0 0 s

end Reading

/-! ## The fixed tables -/

def kLenBase : List Nat :=
  [3, 4, 5, 6, 7, 8, 9, 10, 11, 13, 15, 17, 19, 23, 27, 31, 35, 43, 51, 59,
   67, 83, 99, 115, 131, 163, 195, 227, 258]

def kLenExtra : List Nat :=
  [0, 0, 0, 0, 0, 0, 0, 0, 1, 1, 1, 1, 2, 2, 2, 2, 3, 3, 3, 3, 4, 4, 4, 4, 5, 5, 5, 5, 0]

def kDistBase : List Nat :=
  [1, 2, 3, 4, 5, 7, 9, 13, 17, 25, 33, 49, 65, 97, 129, 193, 257, 385, 513,
   769, 1025, 1537, 2049, 3073, 4097, 6145, 8193, 12289, 16385, 24577]

def kDistExtra : List Nat :=
  [0, 0, 0, 0, 1, 1, 2, 2, 3, 3, 4, 4, 5, 5, 6, 6, 7, 7, 8, 8, 9, 9, 10, 10, 11, 11, 12, 12, 13, 13]

def kLengthOrder : List Nat := [16, 17, 18, 0, 8, 7, 9, 6, 10, 5, 11, 4, 12, 3, 13, 2, 14, 1, 15]

/-! ## Blocks -/

section Blocks
variable (input : List UInt8) (cap : Nat)

/-- A 16-bit number of the input. -/
def word (i : Nat) : Nat := (input.getD i 0).toNat + (input.getD (i + 1) 0).toNat * 2 ^ 8

/-- `stored_block`, with whether it returns 0. -/
def storedBlock (s : Stream) : Bool × Stream :=
  let s := { s with bitbuf := 0, bitcount := 0 }
  if input.length < s.inAt + 4 then
    (false, s)
  else
    let len := word input s.inAt
    let nlen := word input (s.inAt + 2)
    let s := { s with inAt := s.inAt + 4 }
    if len ^^^ 0xFFFF ≠ nlen ∨ input.length < s.inAt + len ∨ cap < s.out.length + len then
      (false, s)
    else
      (true, { s with inAt := s.inAt + len, out := s.out ++ (input.drop s.inAt).take len })

/-- What one round of `coded_block` reads. -/
inductive Token
  | literal (byte : UInt8)
  | stop
  | copy (length distance : Nat)
  deriving DecidableEq

/-- The distance of a back-reference whose length has been read. -/
def readDistance (dist : Huffman) (length : Nat) (s : Stream) : Option Token × Stream :=
  match decode input s dist with
  | (none, s) => (none, s)
  | (some symbol, s) =>
    if 30 ≤ symbol then (none, s)
    else
      let (extra, s) := bits input s (kDistExtra.getD symbol 0)
      if s.failed then (none, s)
      else (some (.copy length (kDistBase.getD symbol 0 + extra)), s)

/-- The part of a round of `coded_block` that reads. -/
def readToken (lit dist : Huffman) (s : Stream) : Option Token × Stream :=
  match decode input s lit with
  | (none, s) => (none, s)
  | (some symbol, s) =>
    if symbol < 256 then (some (.literal symbol.toUInt8), s)
    else if symbol = 256 then (some .stop, s)
    else if 29 ≤ symbol - 257 then (none, s)
    else
      let (extra, s) := bits input s (kLenExtra.getD (symbol - 257) 0)
      readDistance input dist (kLenBase.getD (symbol - 257) 0 + extra) s

/-- The copy of a back-reference, a byte at a time. -/
def copyBack : Nat → Nat → List UInt8 → List UInt8
  | 0, _, out => out
  | length + 1, distance, out =>
    copyBack length distance (out ++ [out.getD (out.length - distance) 0])

/-- `coded_block`, with whether it returns 0. -/
def codedBlock (lit dist : Huffman) : Nat → Stream → Bool × Stream
  | 0, s => (false, s)
  | rounds + 1, s =>
    match readToken input lit dist s with
    | (none, s) => (false, s)
    | (some .stop, s) => (true, s)
    | (some (.literal byte), s) =>
      if cap ≤ s.out.length then (false, s)
      else codedBlock lit dist rounds { s with out := s.out ++ [byte] }
    | (some (.copy length distance), s) =>
      if s.out.length < distance ∨ cap < s.out.length + length then (false, s)
      else codedBlock lit dist rounds { s with out := copyBack length distance s.out }

/-- The literal lengths of `fixed_codes`. -/
def fixedLit : List Nat :=
  List.replicate 144 8 ++ List.replicate 112 9 ++ List.replicate 24 7 ++ List.replicate 8 8

def fixedDist : List Nat := List.replicate 30 5

/-- Build both codes, the second if the first is accepted. -/
def buildBoth (g : Tables) (lit dist : List Nat) : Bool × Tables :=
  let builtLit := build g.lit lit
  if builtLit.1 then
    let builtDist := build g.dist dist
    (builtDist.1, ⟨builtLit.2, builtDist.2⟩)
  else
    (false, { g with lit := builtLit.2 })

def fixedCodes (g : Tables) : Bool × Tables := buildBoth g fixedLit fixedDist

/-- Some fields of the same width, one after the other. -/
def readFields (width : Nat) : Nat → Stream → List Nat × Stream
  | 0, s => ([], s)
  | n + 1, s =>
    let (value, s) := bits input s width
    let (rest, s) := readFields width n s
    (value :: rest, s)

/-- The lengths of the code-length code, from the fields in the order they come. -/
def orderLengths (fields : List Nat) : List Nat :=
  (List.range 19).map fun symbol => fields.getD (kLengthOrder.idxOf symbol) 0

/-- The value that a repeat symbol repeats, how often at least, and how many bits say
how much more. -/
def repeatOf (lengths : List Nat) (symbol : Nat) : Nat × Nat × Nat :=
  if symbol = 16 then (lengths.getLastD 0, 3, 2)
  else if symbol = 17 then (0, 3, 3)
  else (0, 11, 7)

/-- The loop of `dynamic_codes` that reads the lengths of both codes. -/
def lengthsLoop (code : Huffman) (total : Nat) :
    Nat → List Nat → Stream → Option (List Nat) × Stream
  | 0, _, s => (none, s)
  | rounds + 1, lengths, s =>
    if total ≤ lengths.length then
      (some lengths, s)
    else
      match decode input s code with
      | (none, s) => (none, s)
      | (some symbol, s) =>
        if symbol < 16 then
          lengthsLoop code total rounds (lengths ++ [symbol]) s
        else if symbol = 16 ∧ lengths = [] then
          (none, s)
        else
          let (value, least, width) := repeatOf lengths symbol
          let (extra, s) := bits input s width
          if s.failed ∨ total < lengths.length + (least + extra) then
            (none, s)
          else
            lengthsLoop code total rounds (lengths ++ List.replicate (least + extra) value) s

/-- The header of a dynamic block: the number of literal lengths, and the lengths
of both codes. -/
def readHeader (s : Stream) : Option (Nat × List Nat) × Stream :=
  let (hlit, s) := bits input s 5
  let (hdist, s) := bits input s 5
  let (hclen, s) := bits input s 4
  let nlit := hlit + 257
  let ndist := hdist + 1
  if s.failed ∨ 286 < nlit ∨ 30 < ndist then
    (none, s)
  else
    let (fields, s) := readFields input 3 (hclen + 4) s
    let (ok, code) := build .zero (orderLengths fields)
    if s.failed ∨ ok = false then
      (none, s)
    else
      match lengthsLoop input code (nlit + ndist) (nlit + ndist + 1) [] s with
      | (none, s) => (none, s)
      | (some lengths, s) => (some (nlit, lengths), s)

/-- `dynamic_codes`. What `build` says of the distance code is ignored. -/
def dynamicCodes (s : Stream) (g : Tables) : Bool × Stream × Tables :=
  match readHeader input s with
  | (none, s) => (false, s, g)
  | (some (nlit, lengths), s) =>
    if lengths.getD 256 0 = 0 then
      (false, s, g)
    else
      let builtLit := build g.lit (lengths.take nlit)
      if builtLit.1 then
        (true, s, ⟨builtLit.2, (build g.dist (lengths.drop nlit)).2⟩)
      else
        (false, s, { g with lit := builtLit.2 })

/-- More rounds than there are bits. -/
def roundsFor : Nat := 8 * input.length + 1

/-- A block under the codes that were set up for it, if they were. -/
def afterCodes : Bool × Stream × Tables → Bool × Stream × Tables
  | (false, s, g) => (false, s, g)
  | (true, s, g) =>
    let coded := codedBlock input cap g.lit g.dist (roundsFor input) s
    (coded.1, coded.2, g)

/-- One block of a type. -/
def block (type : Nat) (s : Stream) (g : Tables) : Bool × Stream × Tables :=
  if type = 0 then
    let stored := storedBlock input cap s
    (stored.1, stored.2, g)
  else if type = 1 then
    let fixed := fixedCodes g
    afterCodes input cap (fixed.1, s, fixed.2)
  else if type = 2 then
    afterCodes input cap (dynamicCodes input s g)
  else
    (false, s, g)

/-- The rest of a round of `inflate_raw` after its block, before the next round. -/
def afterBlock (final : Nat) (next : Stream → Tables → Bool × Stream × Tables) :
    Bool × Stream × Tables → Bool × Stream × Tables
  | (false, s, g) => (false, s, g)
  | (true, s, g) =>
    if s.failed then (false, s, g)
    else if final = 0 then next s g
    else (true, s, g)

/-- The loop of `inflate_raw`. -/
def blocksLoop : Nat → Stream → Tables → Bool × Stream × Tables
  | 0, s, g => (false, s, g)
  | rounds + 1, s, g =>
    let (final, s) := bits input s 1
    let (type, s) := bits input s 2
    if s.failed then
      (false, s, g)
    else
      afterBlock final (blocksLoop rounds) (block input cap type s g)

/-- `inflate_raw` with an input and an output buffer: the bytes produced, if it does not
return -1, with the stream and the tables afterwards. -/
def inflateRaw (g : Tables) : Option (List UInt8) × Stream × Tables :=
  let r := blocksLoop input cap (roundsFor input) .start g
  (if r.1 then some r.2.1.out else none, r.2.1, r.2.2)

end Blocks
end LeahOS.Libc
