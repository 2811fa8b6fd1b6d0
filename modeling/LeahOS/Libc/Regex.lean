import Mathlib.Data.List.Basic
import LeahOS.Lib.Packed

/-!
# Regular expressions (`user/libc/regex.c`): the code

A pattern is parsed into an array of nodes whose children are indices, and the
nodes are matched by a backtracker that carries what is still to be matched
after a node as a list of links (`Rest`).

* A C string is a list of bytes none of which is the terminator (`Text`).
  Reading past its end gives the terminator.
* A parse function that returns -1 has set the error text, and every caller
  returns at once, so the parser is in `Except`.
* `matchNode` and `matchRepeat` count every call against `maxSteps`. The count is
  threaded through the search; the first argument of `search` bounds the depth
  of the recursion, which the step limit does already.
-/

namespace LeahOS.Libc
open Lib

/-- The bytes of a C string, without its terminator. -/
abbrev Text := List {c : UInt8 // c ≠ 0}

/-- The code of an ASCII character. -/
def ascii (c : Char) : UInt8 := c.toNat.toUInt8

/-- The string a literal stands for. -/
def literal (cs : List Char) : Text :=
  cs.filterMap fun c => if h : ascii c ≠ 0 then some ⟨ascii c, h⟩ else none

/-- `at[i]`, the terminator included. -/
def byteAt (text : Text) (i : Nat) : UInt8 :=
  match text[i]? with
  | some c => c.1
  | none => 0

def maxNodes : Nat := 512

def maxSteps : Nat := 200000

/-- A set of bytes, one bit for each value. -/
abbrev ByteSet := UInt8 → Bool

/-- The node kinds, each with the fields that its kind uses. -/
inductive Node
  | empty
  | char (ch : UInt8)
  | any
  | set (bits : ByteSet) (negate : Bool)
  | begin
  | end
  | concat (left right : Nat)
  | alt (left right : Nat)
  /-- A negative `max` means no limit. -/
  | repeat (left : Nat) (min max : Int)

/-- `struct regex`. -/
structure Regex where
  nodes : List Node
  root : Nat
  ignoreCase : Bool

/-! ## Parsing -/

/-- Why a pattern is not parsed. The recursion bound is never reached. -/
inductive ParseError
  | refused (error : String)
  | stuck

/-- `struct parser`: the nodes so far and the rest of the pattern. -/
structure Parser where
  nodes : List Node
  cursor : Text
  ignoreCase : Bool

abbrev Parse (α : Type) := Except ParseError α

namespace Parser

/-- `*p->at` -/
def peek (p : Parser) : UInt8 := byteAt p.cursor 0

/-- `++p->at` -/
def skip (p : Parser) : Parser := { p with cursor := p.cursor.tail }

end Parser

/-- `new_node`, with the fields that the caller fills in. -/
def newNode (p : Parser) (node : Node) : Parse (Nat × Parser) :=
  if maxNodes ≤ p.nodes.length then
    .error (.refused "the pattern is too complicated")
  else
    .ok (p.nodes.length, { p with nodes := p.nodes ++ [node] })

def setAdd (set : ByteSet) (c : UInt8) : ByteSet := fun b => set b || b == c

def setAddRange (set : ByteSet) (first last : UInt8) : ByteSet :=
  fun b => set b || (first ≤ b && b ≤ last)

/-- The named classes. -/
def setAddClass (set : ByteSet) (which : UInt8) : ByteSet :=
  if which = ascii 'd' then
    setAddRange set (ascii '0') (ascii '9')
  else if which = ascii 'w' then
    setAdd (setAddRange (setAddRange (setAddRange set (ascii 'a') (ascii 'z'))
      (ascii 'A') (ascii 'Z')) (ascii '0') (ascii '9')) (ascii '_')
  else if which = ascii 's' then
    [' ', '\t', '\n', '\r', '\x0c', '\x0b'].foldl (fun set c => setAdd set (ascii c)) set
  else
    set

def escapedChar (c : UInt8) : UInt8 :=
  if c = ascii 'n' then ascii '\n'
  else if c = ascii 't' then ascii '\t'
  else if c = ascii 'r' then ascii '\r'
  else if c = ascii 'f' then ascii '\x0c'
  else if c = ascii 'v' then ascii '\x0b'
  else if c = ascii '0' then 0
  else c

def isUpper (c : UInt8) : Bool := ascii 'A' ≤ c && c ≤ ascii 'Z'

def isLower (c : UInt8) : Bool := ascii 'a' ≤ c && c ≤ ascii 'z'

/-- A letter as it is in the other case. -/
def toLower (c : UInt8) : UInt8 := c - ascii 'A' + ascii 'a'

def toUpper (c : UInt8) : UInt8 := c - ascii 'a' + ascii 'A'

/-- The last loop of `parse_set`: each letter of the set in both cases. -/
def foldSet (set : ByteSet) : ByteSet := fun b =>
  set b || (isUpper b && set (toLower b)) || (isLower b && set (toUpper b))

/-- Whether a class letter names a class, in either case. -/
def isClass (which : UInt8) : Bool :=
  which == ascii 'd' || which == ascii 'w' || which == ascii 's'

def isInvertedClass (which : UInt8) : Bool :=
  which == ascii 'D' || which == ascii 'W' || which == ascii 'S'

/-- The second half of a round of the loop in `parse_set`: the byte `c`, or the
range that starts with it. -/
def setItem (set : ByteSet) (p : Parser) (c : UInt8) : Parse (ByteSet × Parser) :=
  if p.peek = ascii '-' ∧ byteAt p.cursor 1 ≠ ascii ']' ∧ byteAt p.cursor 1 ≠ 0 then
    let first := p.skip.peek
    let p := p.skip.skip
    let escape : Bool := first = ascii '\\' ∧ p.peek ≠ 0
    let last := if escape then escapedChar p.peek else first
    if last < c then
      .error (.refused "a range that runs backwards")
    else
      .ok (setAddRange set c last, if escape then p.skip else p)
  else
    .ok (setAdd set c, p)

/-- The loop of `parse_set`. -/
def setLoop : Nat → ByteSet → Parser → Parse (ByteSet × Parser)
  | 0, _, _ => .error .stuck
  | fuel + 1, set, p =>
    if p.peek = 0 ∨ p.peek = ascii ']' then
      .ok (set, p)
    else
      let c := p.peek
      let p := p.skip
      if c = ascii '\\' ∧ p.peek ≠ 0 then
        let which := p.peek
        let p := p.skip
        if isClass which then
          setLoop fuel (setAddClass set which) p
        else if isInvertedClass which then
          .error (.refused "an inverted class does not fit inside [ ]")
        else do
          let (set, p) ← setItem set p (escapedChar which)
          setLoop fuel set p
      else do
        let (set, p) ← setItem set p c
        setLoop fuel set p

/-- `parse_set`. The node is taken before the set is read, so a full array is
noticed first. -/
def parseSet (p : Parser) : Parse (Nat × Parser) := do
  let _ ← newNode p .empty
  let negate : Bool := p.peek = ascii '^'
  let p := if negate then p.skip else p
  let bracket : Bool := p.peek = ascii ']'
  let set : ByteSet := fun b => bracket && b == ascii ']'
  let p := if bracket then p.skip else p
  let (set, p) ← setLoop (p.cursor.length + 1) set p
  if p.peek ≠ ascii ']' then
    .error (.refused "unmatched [")
  else
    newNode p.skip (.set (if p.ignoreCase then foldSet set else set) negate)

/-- The part of `parse_atom` after a backslash. -/
def parseEscape (p : Parser) : Parse (Nat × Parser) :=
  if p.peek = 0 then
    .error (.refused "a trailing backslash")
  else
    let which := p.peek
    let p := p.skip
    if isClass which || isInvertedClass which then
      newNode p (.set (setAddClass (fun _ => false)
        (if isUpper which then toLower which else which)) (isUpper which))
    else
      newNode p (.char (escapedChar which))

/-- A run of digits: its value, how many there are and what follows. -/
def parseDigits : Nat → Nat → Text → Nat × Nat × Text
  | value, digits, [] => (value, digits, [])
  | value, digits, c :: rest =>
    if ascii '0' ≤ c.1 ∧ c.1 ≤ ascii '9' then
      parseDigits (value * 10 + (c.1 - ascii '0').toNat) (digits + 1) rest
    else
      (value, digits, c :: rest)

/-- `parse_braces`: the two counts, or nothing for a brace that is a literal.
The counts are computed in an `int`. -/
def parseBraces (p : Parser) : Parse (Option (Int × Int) × Parser) :=
  let (value, digits, rest) := parseDigits 0 0 p.cursor.tail
  let low := signed32 value
  if digits = 0 then
    .ok (none, p)
  else
    let (high, rest) :=
      if byteAt rest 0 = ascii ',' then
        let (value, digits, rest) := parseDigits 0 0 rest.tail
        (if 0 < digits then signed32 value else -1, rest)
      else
        (low, rest)
    if byteAt rest 0 ≠ ascii '\x7d' then
      .ok (none, p)
    else if 0 ≤ high ∧ high < low then
      .error (.refused "a count that runs backwards")
    else
      .ok (some (low, high), { p with cursor := rest.tail })

/-- One look for a repeat operator in the loop of `parse_repeat`. -/
def parseCounts (p : Parser) : Parse (Option (Int × Int) × Parser) :=
  if p.peek = ascii '*' then .ok (some (0, -1), p.skip)
  else if p.peek = ascii '+' then .ok (some (1, -1), p.skip)
  else if p.peek = ascii '?' then .ok (some (0, 1), p.skip)
  else if p.peek = ascii '\x7b' then parseBraces p
  else .ok (none, p)

/-- The loop of `parse_repeat`. -/
def repeatLoop : Nat → Nat → Parser → Parse (Nat × Parser)
  | 0, _, _ => .error .stuck
  | fuel + 1, atom, p => do
      let (counts, p) ← parseCounts p
      match counts with
      | none => .ok (atom, p)
      | some (min, max) =>
        let (parent, p) ← newNode p (.repeat atom min max)
        repeatLoop fuel parent p

/-- The single characters that are atoms of their own. -/
def parseSimple (p : Parser) : Parse (Nat × Parser) :=
  if p.peek = ascii '[' then parseSet p.skip
  else if p.peek = ascii '.' then newNode p.skip .any
  else if p.peek = ascii '^' then newNode p.skip .begin
  else if p.peek = ascii '$' then newNode p.skip .end
  else if p.peek = ascii '\\' then parseEscape p.skip
  else newNode p.skip (.char p.peek)

mutual

def parseAlternation : Nat → Parser → Parse (Nat × Parser)
  | 0, _ => .error .stuck
  | fuel + 1, p => do
      let (left, p) ← parseConcat fuel none p
      alternationLoop fuel left p

/-- The loop of `parse_alternation`. -/
def alternationLoop : Nat → Nat → Parser → Parse (Nat × Parser)
  | 0, _, _ => .error .stuck
  | fuel + 1, left, p =>
    if p.peek = ascii '|' then do
      let (right, p) ← parseConcat fuel none p.skip
      let (parent, p) ← newNode p (.alt left right)
      alternationLoop fuel parent p
    else
      .ok (left, p)

/-- `parse_concat`, with what is to the left so far. -/
def parseConcat : Nat → Option Nat → Parser → Parse (Nat × Parser)
  | 0, _, _ => .error .stuck
  | fuel + 1, left, p =>
    if p.peek = 0 ∨ p.peek = ascii '|' ∨ p.peek = ascii ')' then
      match left with
      | some left => .ok (left, p)
      | none => newNode p .empty
    else do
      let (next, p) ← parseRepeat fuel p
      match left with
      | none => parseConcat fuel (some next) p
      | some left =>
        let (parent, p) ← newNode p (.concat left next)
        parseConcat fuel (some parent) p

def parseRepeat : Nat → Parser → Parse (Nat × Parser)
  | 0, _ => .error .stuck
  | fuel + 1, p => do
      let (atom, p) ← parseAtom fuel p
      repeatLoop (p.cursor.length + 1) atom p

def parseAtom : Nat → Parser → Parse (Nat × Parser)
  | 0, _ => .error .stuck
  | fuel + 1, p =>
    if p.peek = ascii '(' then do
      let (inner, p) ← parseAlternation fuel p.skip
      if p.peek ≠ ascii ')' then
        .error (.refused "unmatched (")
      else
        .ok (inner, p.skip)
    else
      parseSimple p

end

/-- `regex_compile` with memory for the pattern. -/
def regexCompile (pattern : Text) (ignoreCase : Bool) : Parse Regex := do
  let (root, p) ← parseAlternation (4 * pattern.length + 4) ⟨[], pattern, ignoreCase⟩
  if p.peek ≠ 0 then
    .error (.refused (if p.peek = ascii ')' then "unmatched )" else "trailing rubbish"))
  else
    .ok ⟨p.nodes, root, ignoreCase⟩

/-! ## Matching -/

/-- What is to be matched after a node: `struct rest`, with the link of a repeat
as a case of its own. -/
inductive Rest
  | nil
  | node (node : Nat) (next : Rest)
  | again (node count start : Nat) (after : Rest)

/-- The two functions that count steps. -/
inductive Call
  | node (node : Nat)
  | repeat (node count : Nat)

/-- Where the match ends, if there is one, and the steps made so far. -/
abbrev Outcome := Option Nat × Nat

/-- `if (tried) return 1; return other;` with the steps of the first in the second. -/
def otherwise (tried : Outcome) (other : Nat → Outcome) : Outcome :=
  match tried with
  | (some stop, steps) => (some stop, steps)
  | (none, steps) => other steps

/-- A call of one of the two functions at a position, with what follows it and
the steps made so far. -/
abbrev Matcher := Call → Nat → Rest → Nat → Outcome

def matchRest (go : Matcher) : Rest → Nat → Nat → Outcome
  | .nil, i, steps => (some i, steps)
  | .again node count start after, i, steps =>
    -- an iteration that consumed nothing is not repeated
    if i = start then matchRest go after i steps else go (.repeat node count) i after steps
  | .node node next, i, steps => go (.node node) i next steps

namespace Regex
variable (re : Regex) (text : Text)

def node (n : Nat) : Node := re.nodes.getD n .empty

def fold (c : UInt8) : UInt8 := if re.ignoreCase && isUpper c then toLower c else c

/-- Whether a node that takes one byte takes this one. -/
def takes : Node → UInt8 → Bool
  | .char ch, c => re.fold c == re.fold ch
  | .any, c => c != ascii '\n'
  | .set bits negate, c => bits c != negate
  | _, _ => false

/-- `match_node` after the count. -/
def matchNode (go : Matcher) (n i : Nat) (rest : Rest) (steps : Nat) : Outcome :=
  match re.node n with
  | .empty => matchRest go rest i steps
  | .begin => if i ≠ 0 then (none, steps) else matchRest go rest i steps
  | .end => if byteAt text i ≠ 0 then (none, steps) else matchRest go rest i steps
  | .concat left right => go (.node left) i (.node right rest) steps
  | .alt left right => otherwise (go (.node left) i rest steps) (go (.node right) i rest)
  | .repeat _ _ _ => go (.repeat n 0) i rest steps
  | leaf =>
    if byteAt text i = 0 ∨ re.takes leaf (byteAt text i) = false then
      (none, steps)
    else
      matchRest go rest (i + 1) steps

/-- `match_repeat` after the count. -/
def matchRepeat (go : Matcher) (n count i : Nat) (rest : Rest) (steps : Nat) : Outcome :=
  match re.node n with
  | .repeat left min max =>
    otherwise
      (if max < 0 ∨ (count : Int) < max then
        go (.node left) i (.again n (count + 1) i rest) steps
      else
        (none, steps))
      fun steps => if min ≤ count then matchRest go rest i steps else (none, steps)
  | _ => (none, steps)

/-- The two functions, with the recursion bound first. -/
def run : Nat → Matcher
  | 0, _, _, _, steps => (none, steps + 1)
  | depth + 1, call, i, rest, steps =>
    if maxSteps < steps + 1 then
      (none, steps + 1)
    else
      match call with
      | .node n => re.matchNode text (run depth) n i rest (steps + 1)
      | .repeat n count => re.matchRepeat (run depth) n count i rest (steps + 1)

/-- One round of the loop of `regex_search`: an attempt at a starting position. -/
def attempt (i : Nat) : Outcome := re.run text maxSteps (.node re.root) i .nil 0

/-- `regex_search`: the start and the end of the first match. -/
def regexSearch : Option (Nat × Nat) :=
  (List.range (text.length + 1)).findSome? fun i => (re.attempt text i).1.map fun stop => (i, stop)

end Regex
end LeahOS.Libc
