import LeahOS.Lib.BitString
import LeahOS.Lib.Canonical

/-!
# The deflate format (RFC 1951)

What a stream of blocks says, as relations between positions in its bits. Nothing here
is taken from the decompressor: the base values of lengths and distances are given by
their rule, a back-reference by what it repeats, and codes as in section 3.2.2 of the
document.

* `Coded` is the body of a compressed block, from a position with the output so far to
  the position and the output after it.
* `BlockAt` is a block with its type, `Blocks` a whole stream. The kinds of the blocks are
  kept, with what the header of a dynamic block says about its codes.
* Codes must be `Roomy`: lengths that ask for more words than there are define no code.
  Lengths that leave words unused are allowed, and so is a distance code without symbols.
-/

namespace LeahOS.Libc

namespace Deflate
open Lib

/-! ## Lengths and distances -/

/-- Lengths 3 to 10 have symbols of their own; then every four symbols share a number of
extra bits. The last symbol is 258 alone. -/
def lengthExtra (k : Nat) : Nat := if k < 8 ∨ k = 28 then 0 else (k - 4) / 4

def lengthBase (k : Nat) : Nat :=
  if k < 8 then k + 3
  else if k = 28 then 258
  else 3 + (4 + k % 4) * 2 ^ ((k - 4) / 4)

/-- Distances 1 to 4 have symbols of their own; then every two symbols share a number of
extra bits. -/
def distExtra (k : Nat) : Nat := if k < 4 then 0 else (k - 2) / 2

def distBase (k : Nat) : Nat := if k < 4 then k + 1 else 1 + (2 + k % 2) * 2 ^ ((k - 2) / 2)

/-- The output after a back-reference: `length` bytes more, each equal to the one
`distance` before it. -/
structure Copied (out : List UInt8) (length distance : Nat) (out' : List UInt8) : Prop where
  keeps : out'.take out.length = out
  longer : out'.length = out.length + length
  repeats : ∀ i < length, out'[out.length + i]? = out'[out.length + i - distance]?

/-! ## Fields and symbols -/

section Format
variable (input : List UInt8)

/-- A number of `width` bits, low bit first. -/
structure FieldAt (pos width value next : Nat) : Prop where
  ends : next = pos + width
  le : next ≤ 8 * input.length
  reads : value = field (number input) pos width

/-- Numbers of the same width, one after the other. -/
inductive FieldsAt (width : Nat) : Nat → List Nat → Nat → Prop
  | nil {pos : Nat} : FieldsAt width pos [] pos
  | cons {pos value mid next : Nat} {values : List Nat} : FieldAt input pos width value mid →
      FieldsAt width mid values next → FieldsAt width pos (value :: values) next

/-- A symbol under a code, the high bit of its word first. -/
def SymbolAt (lengths : List Nat) (pos symbol next : Nat) : Prop :=
  ∃ len, IsCode lengths symbol len (mirror len (number input / 2 ^ pos)) ∧
    next = pos + len ∧ next ≤ 8 * input.length

/-! ## Compressed blocks -/

/-- The symbols of a compressed block. -/
inductive Coded (lit dist : List Nat) : Nat → List UInt8 → Nat → List UInt8 → Prop
  | stop {pos next : Nat} {out : List UInt8} :
      SymbolAt input lit pos 256 next → Coded lit dist pos out next out
  | literal {pos mid next : Nat} {out out' : List UInt8} {byte : UInt8} :
      SymbolAt input lit pos byte.toNat mid →
      Coded lit dist mid (out ++ [byte]) next out' → Coded lit dist pos out next out'
  | copy {pos p₁ p₂ p₃ p₄ next k d extra extra' : Nat} {out out₁ out' : List UInt8} :
      k < 29 → SymbolAt input lit pos (257 + k) p₁ → FieldAt input p₁ (lengthExtra k) extra p₂ →
      d < 30 → SymbolAt input dist p₂ d p₃ → FieldAt input p₃ (distExtra d) extra' p₄ →
      distBase d + extra' ≤ out.length →
      Copied out (lengthBase k + extra) (distBase d + extra') out₁ →
      Coded lit dist p₄ out₁ next out' → Coded lit dist pos out next out'

/-- The longest code word. -/
def longest : Nat := 15

def fixedLengths : List Nat :=
  List.replicate 144 8 ++ List.replicate 112 9 ++ List.replicate 24 7 ++ List.replicate 8 8

def fixedDistances : List Nat := List.replicate 32 5

/-- The order of the lengths of the code-length code. -/
def order : List Nat := [16, 17, 18, 0, 8, 7, 9, 6, 10, 5, 11, 4, 12, 3, 13, 2, 14, 1, 15]

/-- Lengths that come in `order`, those that are left out being 0. -/
structure InOrder (fields lengths : List Nat) : Prop where
  length : lengths.length = 19
  get : ∀ i < 19, lengths[order.getD i 0]? = some (fields.getD i 0)

/-- The lengths of both codes of a dynamic block, with their repeats, after some of them. -/
inductive RunLengths (codes : List Nat) (total : Nat) : Nat → List Nat → List Nat → Nat → Prop
  | done {pos : Nat} {lengths : List Nat} :
      lengths.length = total → RunLengths codes total pos lengths lengths pos
  | one {pos mid next len : Nat} {lengths result : List Nat} :
      lengths.length < total → len < 16 → SymbolAt input codes pos len mid →
      RunLengths codes total mid (lengths ++ [len]) result next →
      RunLengths codes total pos lengths result next
  | again {pos p₁ p₂ next extra value : Nat} {lengths result : List Nat} :
      lengths.getLast? = some value → SymbolAt input codes pos 16 p₁ →
      FieldAt input p₁ 2 extra p₂ → lengths.length + (3 + extra) ≤ total →
      RunLengths codes total p₂ (lengths ++ List.replicate (3 + extra) value) result next →
      RunLengths codes total pos lengths result next
  | zeros {pos p₁ p₂ next extra : Nat} {lengths result : List Nat} :
      SymbolAt input codes pos 17 p₁ → FieldAt input p₁ 3 extra p₂ →
      lengths.length + (3 + extra) ≤ total →
      RunLengths codes total p₂ (lengths ++ List.replicate (3 + extra) 0) result next →
      RunLengths codes total pos lengths result next
  | manyZeros {pos p₁ p₂ next extra : Nat} {lengths result : List Nat} :
      SymbolAt input codes pos 18 p₁ → FieldAt input p₁ 7 extra p₂ →
      lengths.length + (11 + extra) ≤ total →
      RunLengths codes total p₂ (lengths ++ List.replicate (11 + extra) 0) result next →
      RunLengths codes total pos lengths result next

/-- The header of a dynamic block: how many literal and length symbols there are, and the
lengths of the words of both codes. -/
inductive HeaderAt : Nat → Nat → List Nat → Nat → Prop
  | mk {pos p₁ p₂ p₃ p₄ next hlit hdist hclen : Nat} {fields codes lengths : List Nat} :
      FieldAt input pos 5 hlit p₁ → FieldAt input p₁ 5 hdist p₂ → FieldAt input p₂ 4 hclen p₃ →
      hlit + 257 ≤ 286 →
      FieldsAt input 3 p₃ fields p₄ → fields.length = hclen + 4 → InOrder fields codes →
      Roomy codes longest → RunLengths input codes (hlit + 257 + (hdist + 1)) p₄ [] lengths next →
      Roomy (lengths.take (hlit + 257)) longest → Roomy (lengths.drop (hlit + 257)) longest →
      HeaderAt pos (hlit + 257) lengths next

/-! ## Streams -/

/-- The kinds of blocks, with the length of the word that ends a dynamic block, the number of
its distance symbols and the place where it ends. -/
inductive Kind
  | stored
  | fixed
  | dynamic (stop distances next : Nat)
  deriving DecidableEq

/-- A block, its type first. -/
inductive BlockAt : Kind → Nat → List UInt8 → Nat → List UInt8 → Prop
  | stored {pos p₁ start p₂ p₃ len nlen : Nat} {out : List UInt8} :
      FieldAt input pos 2 0 p₁ → start = (p₁ + 7) / 8 →
      FieldAt input (8 * start) 16 len p₂ → FieldAt input p₂ 16 nlen p₃ → len + nlen = 0xFFFF →
      start + 4 + len ≤ input.length →
      BlockAt .stored pos out (8 * (start + 4 + len)) (out ++ (input.drop (start + 4)).take len)
  | fixed {pos p₁ next : Nat} {out out' : List UInt8} :
      FieldAt input pos 2 1 p₁ → Coded input fixedLengths fixedDistances p₁ out next out' →
      BlockAt .fixed pos out next out'
  | dynamic {pos p₁ p₂ next nlit : Nat} {lengths : List Nat} {out out' : List UInt8} :
      FieldAt input pos 2 2 p₁ → HeaderAt input p₁ nlit lengths p₂ →
      Coded input (lengths.take nlit) (lengths.drop nlit) p₂ out next out' →
      BlockAt (.dynamic (lengths.getD 256 0) (lengths.length - nlit) next) pos out next out'

/-- Blocks up to the one that is marked as the last. -/
inductive Blocks : List Kind → Nat → List UInt8 → List UInt8 → Prop
  | last {pos p₁ next : Nat} {kind : Kind} {out out' : List UInt8} :
      FieldAt input pos 1 1 p₁ → BlockAt input kind p₁ out next out' → Blocks [kind] pos out out'
  | more {pos p₁ next : Nat} {kind : Kind} {kinds : List Kind} {out out₁ out' : List UInt8} :
      FieldAt input pos 1 0 p₁ → BlockAt input kind p₁ out next out₁ →
      Blocks kinds next out₁ out' → Blocks (kind :: kinds) pos out out'

/-- The input is a stream of blocks of these kinds, and this is what it decompresses to. -/
def Decompresses (kinds : List Kind) (out : List UInt8) : Prop := Blocks input kinds 0 [] out

end Format
end Deflate
end LeahOS.Libc
