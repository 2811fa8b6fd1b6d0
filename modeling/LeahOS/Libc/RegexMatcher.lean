import LeahOS.Lib.Iterate
import LeahOS.Libc.RegexParser

/-!
# The backtracker finds what the pattern means

The meaning of a pattern is a relation between two positions of the text
(`Matches`), defined along its syntax tree. The backtracker is compared with it
call by call: a call with what follows it finds an end exactly when the tree of
its node leads to a position from which the rest leads to an end (`Reaches`),
unless the step limit was hit (`Right`).

The rule that an iteration which consumed nothing ends the repeat is `Exits`, and
`Tried` is the meaning with that rule. It has a match only where there is one. It
lacks one when the empty iteration is possible at one position only and has to come
before the others, so what the search finds is right as long as the first match is
not of that kind (`finds_iff`). The begin anchor is what ties an empty match to a
position: without one inside a repeat with a minimum of two or more nothing is
lacking (`Tree.plain`).
-/

namespace LeahOS.Libc
open Lib Bool Regex

/-- The syntax tree of a pattern. A literal, a dot and a set are all `byte`. -/
inductive Tree
  | empty
  | byte (ok : UInt8 → Bool)
  | begin
  | end
  | concat (left right : Tree)
  | alt (left right : Tree)
  | repeat (inner : Tree) (min max : Int)

/-- The part of the text from `i` to `j` is in the language of a tree. -/
def Matches (text : Text) : Tree → Nat → Nat → Prop
  | .empty, i, j => j = i
  | .byte ok, i, j => j = i + 1 ∧ ∃ c, text[i]? = some c ∧ ok c.1 = true
  | .begin, i, j => i = 0 ∧ j = i
  | .end, i, j => i = text.length ∧ j = i
  | .concat left right, i, j => ∃ k, Matches text left i k ∧ Matches text right k j
  | .alt left right, i, j => Matches text left i j ∨ Matches text right i j
  | .repeat inner min max, i, j => Between (Matches text inner) min max i j

/-- The same, where an iteration that matches nothing is the last of its repeat and stands for all
that are missing. -/
def Tried (text : Text) : Tree → Nat → Nat → Prop
  | .empty, i, j => j = i
  | .byte ok, i, j => j = i + 1 ∧ ∃ c, text[i]? = some c ∧ ok c.1 = true
  | .begin, i, j => i = 0 ∧ j = i
  | .end, i, j => i = text.length ∧ j = i
  | .concat left right, i, j => ∃ k, Tried text left i k ∧ Tried text right k j
  | .alt left right, i, j => Tried text left i j ∨ Tried text right i j
  | .repeat inner min max, i, j => Exits (Tried text inner) min max 0 i j

namespace Tree

/-- A begin anchor stands somewhere in the tree. -/
def anchored : Tree → Bool
  | .begin => true
  | .concat left right => left.anchored || right.anchored
  | .alt left right => left.anchored || right.anchored
  | .repeat inner _ _ => inner.anchored
  | _ => false

/-- No begin anchor stands inside a repeat with a minimum of two or more. -/
def plain : Tree → Bool
  | .concat left right => left.plain && right.plain
  | .alt left right => left.plain && right.plain
  | .repeat inner min _ => (min ≤ 1 || !inner.anchored) && inner.plain
  | _ => true

end Tree

namespace Regex
variable (re : Regex)

/-- The tree below a node, down to a depth. -/
def treeOf : Nat → Nat → Tree
  | 0, _ => .empty
  | depth + 1, n =>
    match re.node n with
    | .empty => .empty
    | .begin => .begin
    | .end => .end
    | .concat left right => .concat (treeOf depth left) (treeOf depth right)
    | .alt left right => .alt (treeOf depth left) (treeOf depth right)
    | .repeat left min max => .repeat (treeOf depth left) min max
    | leaf => .byte (re.takes leaf)

/-- The tree below a node. Children stand before their parents, so this is deep enough. -/
def treeAt (n : Nat) : Tree := re.treeOf (n + 1) n

/-- The syntax tree of the pattern. -/
def tree : Tree := re.treeAt re.root

/-- Every child stands before its parent. -/
def Ordered : Prop := ∀ n, (re.node n).Fits n

end Regex

/-! ## Positions -/

section Positions
variable {text : Text}

/-- What holds where a match starts and is kept by going over one byte holds where it ends. -/
theorem Matches.keeps {P : Nat → Prop} (hByte : ∀ i, i < text.length → P i → P (i + 1)) {t : Tree} :
    ∀ {i j : Nat}, Matches text t i j → P i → P j := by
  induction t with
  | empty =>
    rintro i j rfl hi
    exact hi
  | byte ok =>
    rintro i j ⟨rfl, c, hc, -⟩ hi
    exact hByte i (List.getElem?_eq_some_iff.mp hc).1 hi
  | begin | «end» =>
    rintro i j ⟨-, rfl⟩ hi
    exact hi
  | concat left right ihLeft ihRight =>
    rintro i j ⟨k, hLeft, hRight⟩ hi
    exact ihRight hRight (ihLeft hLeft hi)
  | alt left right ihLeft ihRight =>
    rintro i j (hLeft | hRight) hi
    · exact ihLeft hLeft hi
    · exact ihRight hRight hi
  | «repeat» inner min max ih =>
    rintro i j ⟨n, -, -, hIter⟩ hi
    exact hIter.preserves (fun _ _ hStep => ih hStep) hi

theorem Matches.le {t : Tree} {i j : Nat} (hMatches : Matches text t i j) : i ≤ j :=
  hMatches.keeps (P := fun j => i ≤ j) (fun _ _ hLe => hLe.trans (Nat.le_succ _)) le_rfl

/-- A match that starts inside the text ends inside it. -/
theorem Matches.le_length {t : Tree} {i j : Nat} (hMatches : Matches text t i j)
    (hi : i ≤ text.length) : j ≤ text.length :=
  hMatches.keeps (P := fun j => j ≤ text.length) (fun _ hLt _ => hLt) hi

/-- Without a begin anchor an empty match is possible at every later position too. -/
theorem Matches.empty_later {t : Tree} (hFree : t.anchored = false) :
    ∀ {i j : Nat}, Matches text t i i → i ≤ j → j ≤ text.length → Matches text t j j := by
  induction t with
  | empty => exact fun _ _ _ => rfl
  | byte ok =>
    rintro i j ⟨hEq, -⟩
    omega
  | begin => cases hFree
  | «end» =>
    rintro i j ⟨hEnd, -⟩ hij hj
    exact ⟨by omega, rfl⟩
  | concat left right ihLeft ihRight =>
    rintro i j ⟨k, hLeft, hRight⟩ hij hj
    obtain rfl : i = k := le_antisymm hLeft.le hRight.le
    obtain ⟨hl, hr⟩ := or_eq_false_iff.mp hFree
    exact ⟨j, ihLeft hl hLeft hij hj, ihRight hr hRight hij hj⟩
  | alt left right ihLeft ihRight =>
    obtain ⟨hl, hr⟩ := or_eq_false_iff.mp hFree
    rintro i j (hLeft | hRight) hij hj
    · exact .inl (ihLeft hl hLeft hij hj)
    · exact .inr (ihRight hr hRight hij hj)
  | «repeat» inner min max ih =>
    rintro i j ⟨n, hMin, hMax, hIter⟩ hij hj
    refine ⟨n, hMin, hMax, ?_⟩
    rcases hIter.loop fun _ _ hStep => hStep.le with rfl | hLoop
    · exact .zero j
    · exact .of_loop (ih hFree hLoop hij hj) n

/-- In a plain tree no match is lacking. -/
theorem Matches.tried {t : Tree} (hPlain : t.plain = true) :
    ∀ {i j : Nat}, i ≤ text.length → Matches text t i j → Tried text t i j := by
  induction t with
  | empty | byte | begin | «end» => exact fun _ hMatches => hMatches
  | concat left right ihLeft ihRight =>
    obtain ⟨hl, hr⟩ := and_eq_true_iff.mp hPlain
    rintro i j hi ⟨k, hLeft, hRight⟩
    exact ⟨k, ihLeft hl hi hLeft, ihRight hr (hLeft.le_length hi) hRight⟩
  | alt left right ihLeft ihRight =>
    obtain ⟨hl, hr⟩ := and_eq_true_iff.mp hPlain
    rintro i j hi (hLeft | hRight)
    · exact .inl (ihLeft hl hi hLeft)
    · exact .inr (ihRight hr hi hRight)
  | «repeat» inner min max ih =>
    simp only [Tree.plain, and_eq_true, or_eq_true, decide_eq_true_eq, not_eq_true'] at hPlain
    intro i j hi hMatches
    have hj : j ≤ text.length := hMatches.le_length hi
    have hExits : Exits (Matches text inner) min max 0 i j := by
      refine Between.exits (fun _ _ hStep => hStep.le) ?_ hMatches
      refine hPlain.1.imp_right fun hFree k hik hkj hLoop => ?_
      exact Matches.empty_later hFree hLoop hkj hj
    refine hExits.imp (P := fun k => k ≤ text.length) (fun a b ha hStep => ?_) hi
    exact ⟨ih hPlain.2 ha hStep, hStep.le_length ha⟩

end Positions

/-! ## The tree and the array -/

section Trees
variable {re : Regex}

theorem Regex.ordered_of_laid (hLaid : Laid re.nodes) : re.Ordered := by
  intro n
  unfold Regex.node
  rw [List.getD_eq_getElem?_getD]
  cases hn : re.nodes[n]? with
  | none => exact trivial
  | some node => exact hLaid n node hn

/-- Any depth above the index gives the same tree. -/
theorem Regex.treeOf_eq (hOrdered : re.Ordered) (n : Nat) :
    ∀ depth, n < depth → re.treeOf depth n = re.treeAt n := by
  induction n using Nat.strong_induction_on with
  | _ n ih =>
    intro depth hn
    obtain ⟨depth, rfl⟩ : ∃ d, depth = d + 1 := ⟨depth - 1, by omega⟩
    -- both sides look at the same node, and the trees below its children agree
    have hChild : ∀ l < n, re.treeOf depth l = re.treeOf n l := fun l hl =>
      (ih l hl depth (by omega)).trans (ih l hl n hl).symm
    have hFits := hOrdered n
    rw [treeAt, treeOf, treeOf]
    cases hNode : re.node n with
    | concat left right | alt left right =>
      rw [hNode] at hFits
      simp only [hChild left hFits.1, hChild right hFits.2]
    | «repeat» left min max =>
      rw [hNode] at hFits
      simp only [hChild left hFits.1]
    | _ => rfl

/-- The tree below a node, from the trees below its children. -/
theorem Regex.treeAt_eq (hOrdered : re.Ordered) (n : Nat) :
    re.treeAt n = match re.node n with
      | .empty => .empty
      | .begin => .begin
      | .end => .end
      | .concat left right => .concat (re.treeAt left) (re.treeAt right)
      | .alt left right => .alt (re.treeAt left) (re.treeAt right)
      | .repeat left min max => .repeat (re.treeAt left) min max
      | leaf => .byte (re.takes leaf) := by
  have hFits := hOrdered n
  have hChild : ∀ l < n, re.treeOf n l = re.treeAt l := fun l hl => re.treeOf_eq hOrdered l n hl
  rw [treeAt, treeOf]
  cases hNode : re.node n with
  | concat left right | alt left right =>
    rw [hNode] at hFits
    simp only [hChild left hFits.1, hChild right hFits.2]
  | «repeat» left min max =>
    rw [hNode] at hFits
    simp only [hChild left hFits.1]
  | _ => rfl

end Trees

/-! ## What a call is to find -/

section Calls
variable (re : Regex) (text : Text)

/-- A repeat of which `count` iterations are done can be left at `j`. -/
def Regex.Leaves (n count i j : Nat) : Prop :=
  match re.node n with
  | .repeat left min max => Exits (Tried text (re.treeAt left)) min max count i j
  | _ => False

/-- What follows leads from `i` to an end of the match. -/
def Regex.Follows : Rest → Nat → Nat → Prop
  | .nil, i, stop => stop = i
  | .node n next, i, stop => ∃ j, Tried text (re.treeAt n) i j ∧ Follows next j stop
  | .again n count start after, i, stop =>
    if i = start then Follows after i stop
    else ∃ j, re.Leaves text n count i j ∧ Follows after j stop

/-- A call and what follows it lead from `i` to an end of the match. -/
def Regex.Reaches (call : Call) (i : Nat) (rest : Rest) (stop : Nat) : Prop :=
  match call with
  | .node n => ∃ j, Tried text (re.treeAt n) i j ∧ re.Follows text rest j stop
  | .repeat n count => ∃ j, re.Leaves text n count i j ∧ re.Follows text rest j stop

end Calls

/-- An outcome is right for a set of ends: an end that was found is one of them, and none was missed
within the step limit. -/
structure Right (P : Nat → Prop) (steps : Nat) (outcome : Outcome) : Prop where
  steps_le : steps ≤ outcome.2
  found : ∀ stop, outcome.1 = some stop → P stop
  missed : outcome.1 = none → outcome.2 ≤ maxSteps → ∀ stop, ¬ P stop

section Outcomes
variable {P Q : Nat → Prop} {steps : Nat} {outcome : Outcome}

theorem Right.congr (hRight : Right P steps outcome) (hIff : ∀ stop, P stop ↔ Q stop) :
    Right Q steps outcome where
  steps_le := hRight.steps_le
  found stop hFound := (hIff stop).mp (hRight.found stop hFound)
  missed hNone hSteps stop hQ := hRight.missed hNone hSteps stop ((hIff stop).mpr hQ)

/-- Nothing is to be found. -/
theorem Right.nothing (hP : ∀ stop, ¬ P stop) : Right P steps (none, steps) where
  steps_le := le_refl _
  found _ hFound := by cases hFound
  missed _ _ := hP

/-- The step limit is hit. -/
theorem Right.spent (hSteps : maxSteps < steps + 1) : Right P steps (none, steps + 1) where
  steps_le := Nat.le_succ steps
  found _ hFound := by cases hFound
  missed _ hLe := absurd hLe (not_le.mpr hSteps)

theorem Right.after (hRight : Right P (steps + 1) outcome) : Right P steps outcome :=
  { hRight with steps_le := (Nat.le_succ steps).trans hRight.steps_le }

/-- One search and, if it finds nothing, another. -/
theorem Right.otherwise (hFirst : Right P steps outcome) {other : Nat → Outcome}
    (hOther : ∀ steps', steps ≤ steps' → Right Q steps' (other steps')) :
    Right (fun stop => P stop ∨ Q stop) steps (otherwise outcome other) := by
  obtain ⟨found, after⟩ := outcome
  cases found with
  | some stop =>
    refine ⟨hFirst.steps_le, ?_, ?_⟩
    · rintro stop' ⟨⟩
      exact .inl (hFirst.found stop rfl)
    · rintro ⟨⟩
  | none =>
    have hSecond := hOther after hFirst.steps_le
    refine ⟨hFirst.steps_le.trans hSecond.steps_le, ?_, ?_⟩
    · intro stop hFound
      exact .inr (hSecond.found stop hFound)
    · rintro hNone hSteps stop (hP | hQ)
      · exact hFirst.missed rfl (hSecond.steps_le.trans hSteps) stop hP
      · exact hSecond.missed hNone hSteps stop hQ

end Outcomes

/-! ## The search -/

section Search
variable {re : Regex} {text : Text} {depth : Nat}

/-- The calls below a recursion bound find what they are to find, as long as the bound and the steps
made so far cover the step limit. -/
def Regex.Searches (re : Regex) (text : Text) (depth : Nat) (go : Matcher) : Prop :=
  ∀ call i rest steps, maxSteps ≤ depth + steps → i ≤ text.length →
    Right (re.Reaches text call i rest) steps (go call i rest steps)

variable {go : Matcher} {i n steps : Nat} {rest : Rest}

theorem Regex.Searches.matchRest (hGo : re.Searches text depth go) (hi : i ≤ text.length)
    (hDepth : maxSteps ≤ depth + steps) :
    Right (re.Follows text rest i) steps (matchRest go rest i steps) := by
  induction rest with
  | nil =>
    refine ⟨le_refl _, ?_, ?_⟩
    · rintro stop ⟨⟩
      exact rfl
    · rintro ⟨⟩
  | node n next _ => exact hGo (.node n) i next steps hDepth hi
  | again n count start after ih =>
    rw [Libc.matchRest]
    by_cases hStart : i = start
    · rw [if_pos hStart]
      refine ih.congr fun stop => ?_
      rw [Regex.Follows, if_pos hStart]
    · rw [if_neg hStart]
      refine (hGo (.repeat n count) i after steps hDepth hi).congr fun stop => ?_
      rw [Regex.Follows, if_neg hStart]
      exact Iff.rfl

theorem byteAt_eq_zero : byteAt text i = 0 ↔ text.length ≤ i := by
  unfold byteAt
  cases hc : text[i]? with
  | none => simpa using hc
  | some c =>
    have hi := (List.getElem?_eq_some_iff.mp hc).1
    exact ⟨fun hZero => absurd hZero c.2, fun hLe => by omega⟩

theorem byteAt_eq {c : {c : UInt8 // c ≠ 0}} (hc : text[i]? = some c) : byteAt text i = c.1 := by
  rw [byteAt, hc]

/-- A node that takes one byte. -/
theorem Regex.Searches.matchByte (hGo : re.Searches text depth go)
    (hDepth : maxSteps ≤ depth + steps) (ok : UInt8 → Bool) :
    Right (fun stop => ∃ j, Tried text (.byte ok) i j ∧ re.Follows text rest j stop) steps
      (if byteAt text i = 0 ∨ ok (byteAt text i) = false then (none, steps)
        else Libc.matchRest go rest (i + 1) steps) := by
  split
  next hStop =>
    apply Right.nothing
    rintro stop ⟨j, ⟨-, c, hc, hOk⟩, -⟩
    rw [byteAt_eq hc, hOk] at hStop
    rcases hStop with hZero | hFalse
    · exact c.2 hZero
    · cases hFalse
  next hGoOn =>
    obtain ⟨hByte, hOk⟩ := not_or.mp hGoOn
    have hi : i < text.length := by
      by_contra hLe
      exact hByte (byteAt_eq_zero.mpr (not_lt.mp hLe))
    refine (hGo.matchRest hi hDepth).congr fun stop => ?_
    constructor
    · intro hFollows
      have hc : text[i]? = some text[i] := List.getElem?_eq_getElem hi
      rw [byteAt_eq hc, not_eq_false] at hOk
      exact ⟨i + 1, ⟨rfl, text[i], hc, hOk⟩, hFollows⟩
    · rintro ⟨j, ⟨rfl, -⟩, hFollows⟩
      exact hFollows

theorem Regex.Searches.matchNode (hOrdered : re.Ordered) (hGo : re.Searches text depth go)
    (hDepth : maxSteps ≤ depth + steps) (hi : i ≤ text.length) :
    Right (re.Reaches text (.node n) i rest) steps (re.matchNode text go n i rest steps) := by
  unfold Regex.Reaches Regex.matchNode
  dsimp only
  rw [re.treeAt_eq hOrdered n]
  cases hNode : re.node n with
  | empty =>
    refine (hGo.matchRest hi hDepth).congr fun stop => ?_
    simp [Tried]
  | begin =>
    dsimp only
    split
    next hi0 =>
      apply Right.nothing
      rintro stop ⟨j, ⟨hBegin, -⟩, -⟩
      exact hi0 hBegin
    next hi0 =>
      refine (hGo.matchRest hi hDepth).congr fun stop => ?_
      simp [Tried, not_not.mp hi0]
  | «end» =>
    dsimp only
    split
    next hByte =>
      apply Right.nothing
      rintro stop ⟨j, ⟨hEnd, -⟩, -⟩
      exact hByte (byteAt_eq_zero.mpr hEnd.ge)
    next hByte =>
      have hEnd : i = text.length := le_antisymm hi (byteAt_eq_zero.mp (not_not.mp hByte))
      refine (hGo.matchRest hi hDepth).congr fun stop => ?_
      simp [Tried, hEnd]
  | concat left right =>
    refine (hGo (.node left) i (.node right rest) steps hDepth hi).congr fun stop => ?_
    constructor
    · rintro ⟨k, hk, j, hj, hFollows⟩
      exact ⟨j, ⟨k, hk, hj⟩, hFollows⟩
    · rintro ⟨j, ⟨k, hk, hj⟩, hFollows⟩
      exact ⟨k, hk, j, hj, hFollows⟩
  | alt left right =>
    refine ((hGo (.node left) i rest steps hDepth hi).otherwise fun steps' hSteps =>
      hGo (.node right) i rest steps' (hDepth.trans (by omega)) hi).congr fun stop => ?_
    constructor
    · rintro (⟨j, hj, hFollows⟩ | ⟨j, hj, hFollows⟩)
      · exact ⟨j, .inl hj, hFollows⟩
      · exact ⟨j, .inr hj, hFollows⟩
    · rintro ⟨j, hj | hj, hFollows⟩
      · exact .inl ⟨j, hj, hFollows⟩
      · exact .inr ⟨j, hj, hFollows⟩
  | «repeat» left min max =>
    refine (hGo (.repeat n 0) i rest steps hDepth hi).congr fun stop => ?_
    dsimp only [Regex.Reaches, Regex.Leaves]
    rw [hNode]
    exact Iff.rfl
  | char | any | set => exact hGo.matchByte hDepth _

/-- One more iteration, followed by what its link says. -/
theorem Regex.reaches_again {left count stop : Nat} {min max : Int}
    (hNode : re.node n = .repeat left min max) :
    re.Reaches text (.node left) i (.again n (count + 1) i rest) stop ↔
      ∃ j, (Tried text (re.treeAt left) i i ∧ j = i ∨ ∃ k, Tried text (re.treeAt left) i k ∧
        k ≠ i ∧ Exits (Tried text (re.treeAt left)) min max (count + 1) k j) ∧
        re.Follows text rest j stop := by
  constructor
  · rintro ⟨k, hk, hFollows⟩
    rw [Regex.Follows] at hFollows
    split at hFollows
    next hEq =>
      subst hEq
      exact ⟨k, .inl ⟨hk, rfl⟩, hFollows⟩
    next hNe =>
      obtain ⟨j, hLeaves, hFollows⟩ := hFollows
      rw [Regex.Leaves, hNode] at hLeaves
      exact ⟨j, .inr ⟨k, hk, hNe, hLeaves⟩, hFollows⟩
  · rintro ⟨j, ⟨hk, rfl⟩ | ⟨k, hk, hNe, hExits⟩, hFollows⟩
    · refine ⟨j, hk, ?_⟩
      rwa [Regex.Follows, if_pos rfl]
    · refine ⟨k, hk, ?_⟩
      rw [Regex.Follows, if_neg hNe]
      refine ⟨j, ?_, hFollows⟩
      rwa [Regex.Leaves, hNode]

theorem Regex.Searches.matchRepeat (hGo : re.Searches text depth go) {count : Nat}
    (hDepth : maxSteps ≤ depth + steps) (hi : i ≤ text.length) :
    Right (re.Reaches text (.repeat n count) i rest) steps
      (re.matchRepeat go n count i rest steps) := by
  unfold Regex.matchRepeat Regex.Reaches Regex.Leaves
  dsimp only
  cases hNode : re.node n with
  | «repeat» left min max =>
    -- the iteration that is tried first
    have hFirst : Right (fun stop => (max < 0 ∨ (count : Int) < max) ∧
        re.Reaches text (.node left) i (.again n (count + 1) i rest) stop) steps
        (if max < 0 ∨ (count : Int) < max then
          go (.node left) i (.again n (count + 1) i rest) steps else (none, steps)) := by
      split
      next hMax =>
        refine (hGo (.node left) i _ steps hDepth hi).congr fun stop => ?_
        exact (and_iff_right hMax).symm
      next hMax => exact .nothing fun stop hReach => hMax hReach.1
    -- leaving the repeat here
    have hSecond : ∀ steps', steps ≤ steps' →
        Right (fun stop => min ≤ count ∧ re.Follows text rest i stop) steps'
          (if min ≤ count then Libc.matchRest go rest i steps' else (none, steps')) := by
      intro steps' hSteps
      split
      next hMin =>
        refine (hGo.matchRest hi (hDepth.trans (by omega))).congr fun stop => ?_
        exact (and_iff_right hMin).symm
      next hMin => exact .nothing fun stop hFollows => hMin hFollows.1
    refine (hFirst.otherwise hSecond).congr fun stop => ?_
    rw [re.reaches_again hNode]
    constructor
    · rintro (⟨hMax, j, hj, hFollows⟩ | ⟨hMin, hFollows⟩)
      · exact ⟨j, exits_iff_next.mpr (.inl ⟨hMax, hj⟩), hFollows⟩
      · exact ⟨i, .enough i hMin, hFollows⟩
    · rintro ⟨j, hExits, hFollows⟩
      rcases exits_iff_next.mp hExits with ⟨hMax, hj⟩ | ⟨hMin, rfl⟩
      · exact .inl ⟨hMax, j, hj, hFollows⟩
      · exact .inr ⟨hMin, hFollows⟩
  | _ => exact .nothing fun stop hReach => hReach.elim fun _ hLeaves => hLeaves.1

/-- The backtracker finds what it is to find. -/
theorem Regex.searches_run (hOrdered : re.Ordered) (text : Text) (depth : Nat) :
    re.Searches text depth (re.run text depth) := by
  induction depth with
  | zero =>
    intro call i rest steps hDepth _
    exact .spent (hDepth.trans_lt (by omega))
  | succ depth ih =>
    intro call i rest steps hDepth hi
    rw [run.eq_def]
    dsimp only
    split
    next hSpent => exact .spent hSpent
    next =>
      have hBelow : maxSteps ≤ depth + (steps + 1) := hDepth.trans (by omega)
      cases call with
      | node n => exact (ih.matchNode hOrdered hBelow hi).after
      | «repeat» n count => exact (ih.matchRepeat hBelow hi).after

/-- One attempt finds a match at its position, by the rule for empty iterations, exactly when there
is one. -/
theorem Regex.right_attempt (hOrdered : re.Ordered) (hi : i ≤ text.length) :
    Right (Tried text re.tree i) 0 (re.attempt text i) := by
  have hSearch := re.searches_run hOrdered text maxSteps (.node re.root) i .nil 0 (le_refl _) hi
  refine hSearch.congr fun stop => ?_
  simp [Regex.Reaches, Regex.Follows, Regex.tree]

/-- What is tried is a match. -/
theorem Regex.matches_of_tried (hOrdered : re.Ordered) (n : Nat) :
    ∀ {i j : Nat}, Tried text (re.treeAt n) i j → Matches text (re.treeAt n) i j := by
  induction n using Nat.strong_induction_on with
  | _ n ih =>
    have hFits := hOrdered n
    rw [re.treeAt_eq hOrdered n]
    intro i j hTried
    cases hNode : re.node n with
    | concat left right =>
      rw [hNode] at hFits hTried
      obtain ⟨k, hLeft, hRight⟩ := hTried
      exact ⟨k, ih left hFits.1 hLeft, ih right hFits.2 hRight⟩
    | alt left right =>
      rw [hNode] at hFits hTried
      exact hTried.imp (ih left hFits.1) (ih right hFits.2)
    | «repeat» left min max =>
      rw [hNode] at hFits hTried
      have hExits : Exits (Matches text (re.treeAt left)) min max 0 i j :=
        hTried.imp (P := fun _ => True) (fun a b _ hStep => ⟨ih left hFits.1 hStep, trivial⟩) trivial
      exact hExits.between hFits.2
    | _ =>
      rw [hNode] at hTried
      exact hTried

end Search

/-! ## The first match -/

section First
variable {re : Regex} {text : Text}

/-- No attempt that `regexSearch` makes exceeds the step limit. -/
def Regex.WithinLimit (re : Regex) (text : Text) : Prop :=
  ∀ i ≤ text.length, (∀ k < i, (re.attempt text k).1 = none) → (re.attempt text i).2 ≤ maxSteps

/-- `regexSearch` finds a match exactly when there is one, and then reports a
match at the least position that has one. -/
structure Regex.Finds (re : Regex) (text : Text) : Prop where
  found_iff : (re.regexSearch text).isSome = true ↔
    ∃ i j, i ≤ j ∧ j ≤ text.length ∧ Matches text re.tree i j
  least : ∀ start stop, re.regexSearch text = some (start, stop) →
    Matches text re.tree start stop ∧ ∀ i < start, ∀ j, ¬ Matches text re.tree i j

instance : Decidable (re.WithinLimit text) :=
  inferInstanceAs (Decidable (∀ i ≤ text.length, _ → _))

theorem findSome?_range {α : Type} {f : Nat → Option α} {a : α} (n : Nat)
    (hFind : (List.range n).findSome? f = some a) :
    ∃ i < n, f i = some a ∧ ∀ k < i, f k = none := by
  induction n with
  | zero => cases hFind
  | succ n ih =>
    rw [List.range_succ, List.findSome?_append] at hFind
    cases hBefore : (List.range n).findSome? f with
    | some b =>
      rw [hBefore] at hFind
      obtain ⟨i, hi, hf, hLeast⟩ := ih (by rw [hBefore]; exact hFind)
      exact ⟨i, by omega, hf, hLeast⟩
    | none =>
      refine ⟨n, Nat.lt_succ_self n, by simpa [hBefore] using hFind, ?_⟩
      simpa using hBefore

theorem Regex.regexSearch_eq_some {start stop : Nat}
    (hSearch : re.regexSearch text = some (start, stop)) :
    start ≤ text.length ∧ (re.attempt text start).1 = some stop ∧
      ∀ k < start, (re.attempt text k).1 = none := by
  obtain ⟨i, hi, hFound, hLeast⟩ := findSome?_range _ hSearch
  simp only [Option.map_eq_some_iff, Prod.mk.injEq, Option.map_eq_none_iff] at hFound hLeast
  obtain ⟨_, hStop, rfl, rfl⟩ := hFound
  exact ⟨Nat.lt_succ_iff.mp hi, hStop, hLeast⟩

theorem Regex.regexSearch_eq_none (hSearch : re.regexSearch text = none) :
    ∀ k ≤ text.length, (re.attempt text k).1 = none := by
  intro k hk
  have := List.findSome?_eq_none_iff.mp hSearch k (List.mem_range.mpr (Nat.lt_succ_of_le hk))
  simpa using this

/-- What is found is a match, whatever the tree and the steps. -/
theorem Regex.matches_of_regexSearch (hOrdered : re.Ordered) {start stop : Nat}
    (hSearch : re.regexSearch text = some (start, stop)) : Matches text re.tree start stop := by
  obtain ⟨hStart, hStop, -⟩ := regexSearch_eq_some hSearch
  exact matches_of_tried hOrdered re.root ((right_attempt hOrdered hStart).found stop hStop)

/-- Where there is a match, or before, there is one in which an iteration that matches nothing is the
last of its repeat and stands for all that are missing. -/
def Regex.Early (re : Regex) (text : Text) : Prop :=
  ∀ i j, i ≤ text.length → Matches text re.tree i j → ∃ i' ≤ i, ∃ j', Tried text re.tree i' j'

theorem Regex.early_of_plain (hPlain : re.tree.plain = true) (text : Text) : re.Early text :=
  fun i j hi hMatches => ⟨i, le_rfl, j, hMatches.tried hPlain hi⟩

/-- `*start` and `*end` as `regex_search` leaves them: both are an `int`. -/
def Regex.reported (re : Regex) (text : Text) : Option (Int × Int) :=
  (re.regexSearch text).map fun span => (signed32 span.1, signed32 span.2)

/-- A span that is inside the text and matched by the tree. -/
def Regex.IsMatch (re : Regex) (text : Text) (span : Int × Int) : Prop :=
  ∃ i j : Nat, span = (↑i, ↑j) ∧ i ≤ j ∧ j ≤ text.length ∧ Matches text re.tree i j

/-- Every pattern that is accepted, in texts whose positions are all an `int`. -/
theorem Regex.isMatch_reported {pattern : Text} {ignoreCase : Bool} {re : Regex}
    (hCompile : regexCompile pattern ignoreCase = .ok re) {text : Text}
    (hShort : text.length < 2 ^ 31) {span : Int × Int} (hSpan : re.reported text = some span) :
    re.IsMatch text span := by
  have hLaid := (settles_regexCompile pattern ignoreCase).ok hCompile
  obtain ⟨⟨i, j⟩, hSearch, rfl⟩ := Option.map_eq_some_iff.mp hSpan
  have hMatches := matches_of_regexSearch (ordered_of_laid hLaid.1) hSearch
  have hij := hMatches.le
  have hj := hMatches.le_length (regexSearch_eq_some hSearch).1
  refine ⟨i, j, ?_, hij, hj, hMatches⟩
  simp only [signed32_of_lt (hj.trans_lt hShort), signed32_of_lt ((hij.trans hj).trans_lt hShort)]

/-- `(^|a){2}a` in `aa`, where the iteration that is counted twice matches nothing. -/
theorem Regex.isMatch_reported_anchored :
    ∃ re, regexCompile (literal ['(', '^', '|', 'a', ')', '{', '2', '}', 'a']) false
        = .ok re ∧ re.IsMatch (literal ['a', 'a']) (0, 1) := by
  have hCompile : regexCompile
      (literal ['(', '^', '|', 'a', ')', '{', '2', '}', 'a']) false
      = .ok ⟨[.begin, .char 97, .alt 0 1, .repeat 2 2 2, .char 97, .concat 3 4], 5, false⟩ := rfl
  exact ⟨_, hCompile, isMatch_reported hCompile (by decide) (by decide +kernel)⟩

/-- `$` in a text of two gigabytes: the position does not fit. -/
theorem Regex.not_isMatch_reported_long :
    ¬ ∀ (pattern : Text) (ignoreCase : Bool) (re : Regex),
      regexCompile pattern ignoreCase = .ok re →
      ∀ (text : Text) (span : Int × Int), re.reported text = some span → re.IsMatch text span := by
  intro hReal
  have hCompile : regexCompile (literal ['$']) false = .ok ⟨[.end], 0, false⟩ := rfl
  have hOrdered : Ordered ⟨[.end], 0, false⟩ :=
    ordered_of_laid ((settles_regexCompile _ _).ok hCompile).1
  obtain ⟨text, hLength⟩ : ∃ text : Text, text.length = 2 ^ 31 :=
    ⟨.replicate (2 ^ 31) ⟨97, by decide⟩, List.length_replicate⟩
  cases hSearch : regexSearch ⟨[.end], 0, false⟩ text with
  | none =>
    have hNone := regexSearch_eq_none hSearch text.length le_rfl
    have hEnd : byteAt text text.length = 0 := byteAt_eq_zero.mpr le_rfl
    simp [attempt, maxSteps, run, matchNode, node, hEnd, matchRest] at hNone
  | some span =>
    obtain ⟨hStart, hStop⟩ := matches_of_regexSearch hOrdered hSearch
    have hReported : reported ⟨[.end], 0, false⟩ text = some (signed32 span.1, signed32 span.2) := by
      rw [reported, hSearch, Option.map_some]
    obtain ⟨i, j, hSpan, -⟩ := hReal _ _ _ hCompile text _ hReported
    have hFirst : signed32 span.1 = i := congrArg Prod.fst hSpan
    rw [hStart, hLength, signed32] at hFirst
    norm_num at hFirst
    omega

end First
end LeahOS.Libc
