import LeahOS.Libc.Regex

/-!
# What the pattern parser builds

Two things are proved of `regexCompile` together, since both go along the
recursion of the grammar: the recursion bound is never reached, and the nodes
are `Laid`. Every child stands before its parent, so the array is a tree with
shared leaves and no cycles, and no repeat has a limit below its minimum.
-/

namespace LeahOS.Libc
open List

/-- The children of a node at index `i` stand before it, and its counts make sense. -/
def Node.Fits (i : Nat) : Node → Prop
  | .concat left right => left < i ∧ right < i
  | .alt left right => left < i ∧ right < i
  | .repeat left min max => left < i ∧ (max < 0 ∨ min ≤ max)
  | _ => True

def Laid (nodes : List Node) : Prop :=
  ∀ (i : Nat) (n : Node), nodes[i]? = some n → n.Fits i

theorem Laid.nil : Laid [] := by
  intro i n hn
  simp at hn

theorem Laid.push {nodes : List Node} {node : Node} (hLaid : Laid nodes)
    (hNode : node.Fits nodes.length) : Laid (nodes ++ [node]) := by
  intro i n hn
  rcases Nat.lt_or_ge i nodes.length with hi | hi
  · rw [List.getElem?_append_left hi] at hn
    exact hLaid i n hn
  · rw [List.getElem?_append_right hi] at hn
    obtain ⟨hi', hn⟩ := List.getElem?_eq_some_iff.mp hn
    obtain rfl : i = nodes.length := by
      simp only [length_singleton] at hi'
      omega
    simp only [Nat.sub_self, getElem_cons_zero] at hn
    exact hn ▸ hNode

/-! ## Results of the parser -/

/-- A parse that does not run into the recursion bound, and whose result satisfies `Q`. -/
def Settles {α : Type} (x : Parse α) (Q : α → Prop) : Prop :=
  match x with
  | .ok a => Q a
  | .error (.refused _) => True
  | .error .stuck => False

section Results
variable {α β : Type} {Q : α → Prop} {x : Parse α}

theorem Settles.mono {Q' : α → Prop} (hx : Settles x Q) (hQ : ∀ a, Q a → Q' a) :
    Settles x Q' := by
  unfold Settles at *
  split
  · exact hQ _ hx
  · trivial
  · exact hx

theorem Settles.bind {f : α → Parse β} {Q' : β → Prop} (hx : Settles x Q)
    (hf : ∀ a, Q a → Settles (f a) Q') : Settles (x >>= f) Q' := by
  cases x with
  | ok a => exact hf a hx
  | error e =>
    cases e with
    | refused text => trivial
    | stuck => exact hx

theorem Settles.ok (hx : Settles x Q) {a : α} (hOk : x = .ok a) : Q a := by
  rw [hOk] at hx
  exact hx

end Results

/-! ## The cursor -/

section Cursor
variable {p : Parser}

theorem cursor_ne_nil (hPeek : p.peek ≠ 0) : p.cursor ≠ [] := by
  intro hNil
  exact hPeek (by simp [Parser.peek, byteAt, hNil])

theorem length_skip (hPeek : p.peek ≠ 0) : p.skip.cursor.length + 1 = p.cursor.length := by
  have hPos := length_pos_iff.mpr (cursor_ne_nil hPeek)
  simp only [Parser.skip, length_tail]
  omega

theorem length_skip_le (p : Parser) : p.skip.cursor.length ≤ p.cursor.length := by
  simp only [Parser.skip, length_tail]
  omega

theorem peek_ne_zero {c : UInt8} (hc : c ≠ 0) (hPeek : p.peek = c) : p.peek ≠ 0 := hPeek ▸ hc

end Cursor

/-! ## One node at a time -/

/-- A parse from `p` to `q` that made node `n` and read at least `read` bytes. -/
structure Grown (p : Parser) (read : Nat) (n : Nat) (q : Parser) : Prop where
  laid : Laid q.nodes
  lt : n < q.nodes.length
  le : p.nodes.length ≤ q.nodes.length
  cursor : q.cursor.length + read ≤ p.cursor.length

section Nodes
variable {p q : Parser} {read n : Nat}

theorem Grown.weaken {p' : Parser} {read' : Nat} (hGrown : Grown p read n q)
    (hNodes : p'.nodes.length ≤ p.nodes.length)
    (hCursor : p.cursor.length + read' ≤ p'.cursor.length + read) : Grown p' read' n q where
  laid := hGrown.laid
  lt := hGrown.lt
  le := hNodes.trans hGrown.le
  cursor := by
    have := hGrown.cursor
    omega

theorem settles_newNode (node : Node) (hLaid : Laid p.nodes) (hNode : node.Fits p.nodes.length) :
    Settles (newNode p node) fun r => Grown p 0 r.1 r.2 := by
  unfold newNode
  split
  · trivial
  · refine ⟨hLaid.push hNode, ?_, ?_, ?_⟩
    all_goals simp

/-- A node made from a later state of the parser. -/
theorem settles_newNode_of {node : Node} (hLaid : Laid q.nodes) (hNode : node.Fits q.nodes.length)
    (hNodes : p.nodes.length ≤ q.nodes.length) (hCursor : q.cursor.length + read ≤ p.cursor.length) :
    Settles (newNode q node) fun r => Grown p read r.1 r.2 :=
  (settles_newNode node hLaid hNode).mono fun _ hGrown => hGrown.weaken hNodes (by omega)

end Nodes

/-! ## Sets -/

section Sets
variable {p : Parser} {set : ByteSet}

/-- A parse that leaves the nodes as they are. -/
def Reads (p : Parser) {α : Type} (r : α × Parser) : Prop :=
  r.2.nodes = p.nodes ∧ r.2.cursor.length ≤ p.cursor.length

theorem settles_setItem (c : UInt8) : Settles (setItem set p c) (Reads p) := by
  unfold setItem
  have hSkip : p.skip.skip.cursor.length ≤ p.cursor.length :=
    (length_skip_le _).trans (length_skip_le p)
  split
  · -- the end of the range is one byte, or two with a backslash
    dsimp only
    split_ifs
    · trivial
    · exact ⟨rfl, (length_skip_le _).trans hSkip⟩
    · trivial
    · exact ⟨rfl, hSkip⟩
  · exact ⟨rfl, le_refl _⟩

theorem settles_setLoop (fuel : Nat) :
    ∀ {set : ByteSet} {p : Parser}, p.cursor.length < fuel →
      Settles (setLoop fuel set p) (Reads p) := by
  induction fuel with
  | zero =>
    omega
  | succ fuel ih =>
    intro set p hFuel
    -- a round reads its first byte, so the rest fits the smaller bound
    have hNext : ∀ {set : ByteSet} {q : Parser}, p.peek ≠ 0 → q.nodes = p.nodes →
        q.cursor.length ≤ p.skip.cursor.length → Settles (setLoop fuel set q) (Reads p) := by
      intro set q hPeek hNodes hCursor
      have hLength := length_skip hPeek
      refine (ih (by omega)).mono fun r hr => ⟨hr.1.trans hNodes, ?_⟩
      exact hr.2.trans (by omega)
    have hItem : ∀ {q : Parser} (c : UInt8), p.peek ≠ 0 → q.nodes = p.nodes →
        q.cursor.length ≤ p.skip.cursor.length →
        Settles (setItem set q c >>= fun r => setLoop fuel r.1 r.2) (Reads p) := by
      intro q c hPeek hNodes hCursor
      refine (settles_setItem c).bind fun r hr => ?_
      exact hNext hPeek (hr.1.trans hNodes) (hr.2.trans hCursor)
    rw [setLoop]
    split
    · exact ⟨rfl, le_refl _⟩
    next hEnd =>
      obtain ⟨hPeek, -⟩ := not_or.mp hEnd
      dsimp only
      split
      · split
        · exact hNext hPeek rfl (length_skip_le _)
        · split
          · trivial
          · exact hItem _ hPeek rfl (length_skip_le _)
      · exact hItem _ hPeek rfl (le_refl _)

theorem settles_parseSet (hLaid : Laid p.nodes) :
    Settles (parseSet p) fun r => Grown p 0 r.1 r.2 := by
  refine (settles_newNode .empty hLaid trivial).bind fun _ _ => ?_
  dsimp only
  generalize hq : (if decide (p.peek = ascii '^') = true then p.skip else p) = q
  have hReads : q.nodes = p.nodes ∧ q.cursor.length ≤ p.cursor.length := by
    subst hq
    split
    · exact ⟨rfl, length_skip_le p⟩
    · exact ⟨rfl, le_refl _⟩
  generalize hs : (if decide (q.peek = ascii ']') = true then q.skip else q) = s
  have hReads' : s.nodes = p.nodes ∧ s.cursor.length ≤ p.cursor.length := by
    subst hs
    split
    · exact ⟨hReads.1, (length_skip_le q).trans hReads.2⟩
    · exact hReads
  refine (settles_setLoop _ (Nat.lt_succ_self _)).bind fun r hr => ?_
  split
  · trivial
  · have hNodes : r.2.skip.nodes = p.nodes := hr.1.trans hReads'.1
    refine settles_newNode_of (hNodes ▸ hLaid) trivial (le_of_eq (congrArg _ hNodes.symm)) ?_
    exact (length_skip_le r.2).trans (hr.2.trans hReads'.2)

end Sets

/-! ## Atoms and counts -/

section Atoms
variable {p : Parser}

theorem settles_parseEscape (hLaid : Laid p.nodes) :
    Settles (parseEscape p) fun r => Grown p 0 r.1 r.2 := by
  unfold parseEscape
  split
  · trivial
  · dsimp only
    split
    all_goals exact settles_newNode_of hLaid trivial (le_refl _) (length_skip_le p)

theorem settles_parseSimple (hLaid : Laid p.nodes) (hPeek : p.peek ≠ 0) :
    Settles (parseSimple p) fun r => Grown p 1 r.1 r.2 := by
  have hSkip : p.skip.cursor.length + 1 ≤ p.cursor.length := (length_skip hPeek).le
  have hInner : ∀ {x : Parse (Nat × Parser)}, (Settles x fun r => Grown p.skip 0 r.1 r.2) →
      Settles x fun r => Grown p 1 r.1 r.2 := fun hx =>
    hx.mono fun _ hGrown => hGrown.weaken (le_refl _) (by omega)
  unfold parseSimple
  split_ifs
  · exact hInner (settles_parseSet hLaid)
  · exact settles_newNode_of hLaid trivial (le_refl _) hSkip
  · exact settles_newNode_of hLaid trivial (le_refl _) hSkip
  · exact settles_newNode_of hLaid trivial (le_refl _) hSkip
  · exact hInner (settles_parseEscape hLaid)
  · exact settles_newNode_of hLaid trivial (le_refl _) hSkip

theorem length_parseDigits (text : Text) :
    ∀ value digits, (parseDigits value digits text).2.2.length ≤ text.length := by
  induction text with
  | nil =>
    intro value digits
    exact le_refl _
  | cons c rest ih =>
    intro value digits
    rw [parseDigits]
    split
    · exact (ih _ _).trans (Nat.le_succ _)
    · exact le_refl _

/-- Either there is no repeat operator and nothing was read, or there is one with
counts that make sense. -/
def Counted (p : Parser) (r : Option (Int × Int) × Parser) : Prop :=
  match r.1 with
  | none => r.2 = p
  | some (min, max) =>
    r.2.nodes = p.nodes ∧ r.2.cursor.length < p.cursor.length ∧ (max < 0 ∨ min ≤ max)

theorem settles_parseBraces (hPeek : p.peek ≠ 0) : Settles (parseBraces p) (Counted p) := by
  have hTail : p.cursor.tail.length < p.cursor.length := (length_skip hPeek).le
  unfold parseBraces
  obtain ⟨value, digits, rest, hDigits⟩ :
      ∃ value digits rest, parseDigits 0 0 p.cursor.tail = (value, digits, rest) := ⟨_, _, _, rfl⟩
  have hRest : rest.length ≤ p.cursor.tail.length := by
    have := length_parseDigits p.cursor.tail 0 0
    rwa [hDigits] at this
  rw [hDigits]
  dsimp only
  split
  · exact rfl
  · -- the part after the comma reads on, if there is one
    generalize hHigh : (if byteAt rest 0 = ascii ',' then _ else _ : Int × Text) = high
    have hRead : high.2.length ≤ rest.length := by
      subst hHigh
      split
      · exact (length_parseDigits rest.tail 0 0).trans (by simp)
      · exact le_refl _
    split
    · exact rfl
    · split
      · trivial
      next hCounts =>
        refine ⟨rfl, ?_, by omega⟩
        have : high.2.tail.length ≤ high.2.length := by simp
        change high.2.tail.length < _
        omega

theorem settles_parseCounts (p : Parser) : Settles (parseCounts p) (Counted p) := by
  unfold parseCounts
  split_ifs with h1 h2 h3 h4
  · exact ⟨rfl, (length_skip (peek_ne_zero (by decide) h1)).le, by decide⟩
  · exact ⟨rfl, (length_skip (peek_ne_zero (by decide) h2)).le, by decide⟩
  · exact ⟨rfl, (length_skip (peek_ne_zero (by decide) h3)).le, by decide⟩
  · exact settles_parseBraces (peek_ne_zero (by decide) h4)
  · exact rfl

theorem settles_repeatLoop (fuel : Nat) :
    ∀ {atom : Nat} {p : Parser}, p.cursor.length < fuel → Laid p.nodes → atom < p.nodes.length →
      Settles (repeatLoop fuel atom p) fun r => Grown p 0 r.1 r.2 := by
  induction fuel with
  | zero =>
    omega
  | succ fuel ih =>
    intro atom p hFuel hLaid hAtom
    refine (settles_parseCounts p).bind ?_
    rintro ⟨counts, q⟩ hCounted
    cases counts with
    | none =>
      obtain rfl : q = p := hCounted
      exact ⟨hLaid, hAtom, le_refl _, le_refl _⟩
    | some counts =>
      obtain ⟨hNodes, hCursor, hCounts⟩ := hCounted
      dsimp only at hNodes hCursor
      rw [← hNodes] at hLaid hAtom
      refine (settles_newNode (.repeat atom counts.1 counts.2) hLaid ⟨hAtom, hCounts⟩).bind ?_
      rintro ⟨parent, s⟩ hGrown
      have hRead := hGrown.cursor
      refine (ih (by dsimp only at hRead ⊢; omega) hGrown.laid hGrown.lt).mono ?_
      intro r hr
      refine hr.weaken ?_ (by dsimp only at hRead ⊢; omega)
      exact hNodes ▸ hGrown.le

end Atoms

/-! ## The grammar -/

/-- What the five functions of the grammar do below a recursion bound: each
needs a few calls more than four for every byte that is left. -/
structure Grammar (fuel : Nat) : Prop where
  alternation : ∀ p : Parser, 4 * p.cursor.length + 4 ≤ fuel → Laid p.nodes →
    Settles (parseAlternation fuel p) fun r => Grown p 0 r.1 r.2
  loop : ∀ (left : Nat) (p : Parser), 4 * p.cursor.length + 1 ≤ fuel → Laid p.nodes →
    left < p.nodes.length → Settles (alternationLoop fuel left p) fun r => Grown p 0 r.1 r.2
  concat : ∀ (left : Option Nat) (p : Parser), 4 * p.cursor.length + 3 ≤ fuel → Laid p.nodes →
    (∀ l ∈ left, l < p.nodes.length) → Settles (parseConcat fuel left p) fun r => Grown p 0 r.1 r.2
  repeated : ∀ p : Parser, 4 * p.cursor.length + 2 ≤ fuel → Laid p.nodes → p.peek ≠ 0 →
    Settles (parseRepeat fuel p) fun r => Grown p 1 r.1 r.2
  atom : ∀ p : Parser, 4 * p.cursor.length + 1 ≤ fuel → Laid p.nodes → p.peek ≠ 0 →
    Settles (parseAtom fuel p) fun r => Grown p 1 r.1 r.2

variable {fuel : Nat} {p : Parser}

theorem Grammar.parseAlternation_succ (ih : Grammar fuel)
    (hFuel : 4 * p.cursor.length + 4 ≤ fuel + 1) (hLaid : Laid p.nodes) :
    Settles (parseAlternation (fuel + 1) p) fun r => Grown p 0 r.1 r.2 := by
  refine (ih.concat none p (by omega) hLaid (by simp)).bind fun r hr => ?_
  have hRead := hr.cursor
  refine (ih.loop r.1 r.2 (by omega) hr.laid hr.lt).mono fun s hs => ?_
  exact hs.weaken hr.le (by omega)

theorem Grammar.alternationLoop_succ (ih : Grammar fuel) {left : Nat}
    (hFuel : 4 * p.cursor.length + 1 ≤ fuel + 1) (hLaid : Laid p.nodes)
    (hLeft : left < p.nodes.length) :
    Settles (alternationLoop (fuel + 1) left p) fun r => Grown p 0 r.1 r.2 := by
  rw [alternationLoop]
  split
  next hBar =>
    have hSkip := length_skip (peek_ne_zero (by decide) hBar)
    refine (ih.concat none p.skip (by omega) hLaid (by simp)).bind fun r hr => ?_
    have hRead := hr.cursor
    refine (settles_newNode (.alt left r.1) hr.laid ⟨hLeft.trans_le hr.le, hr.lt⟩).bind fun s hs => ?_
    have hRead' := hs.cursor
    refine (ih.loop s.1 s.2 (by omega) hs.laid hs.lt).mono fun t ht => ?_
    exact ht.weaken (hr.le.trans hs.le) (by omega)
  · exact ⟨hLaid, hLeft, le_refl _, le_refl _⟩

theorem Grammar.parseConcat_succ (ih : Grammar fuel) {left : Option Nat}
    (hFuel : 4 * p.cursor.length + 3 ≤ fuel + 1) (hLaid : Laid p.nodes)
    (hLeft : ∀ l ∈ left, l < p.nodes.length) :
    Settles (parseConcat (fuel + 1) left p) fun r => Grown p 0 r.1 r.2 := by
  rw [parseConcat.eq_def]
  dsimp only
  split
  · cases left with
    | none => exact settles_newNode .empty hLaid trivial
    | some l => exact ⟨hLaid, hLeft l rfl, le_refl _, le_refl _⟩
  next hEnd =>
    obtain ⟨hPeek, -⟩ := not_or.mp hEnd
    refine (ih.repeated p (by omega) hLaid hPeek).bind fun r hr => ?_
    have hRead := hr.cursor
    cases left with
    | none =>
      refine (ih.concat (some r.1) r.2 (by omega) hr.laid ?_).mono fun s hs => ?_
      · rintro l ⟨⟩
        exact hr.lt
      · exact hs.weaken hr.le (by omega)
    | some l =>
      have hl : l < r.2.nodes.length := (hLeft l rfl).trans_le hr.le
      refine (settles_newNode (.concat l r.1) hr.laid ⟨hl, hr.lt⟩).bind fun s hs => ?_
      have hRead' := hs.cursor
      refine (ih.concat (some s.1) s.2 (by omega) hs.laid ?_).mono fun t ht => ?_
      · rintro l ⟨⟩
        exact hs.lt
      · exact ht.weaken (hr.le.trans hs.le) (by omega)

theorem Grammar.parseRepeat_succ (ih : Grammar fuel) (hFuel : 4 * p.cursor.length + 2 ≤ fuel + 1)
    (hLaid : Laid p.nodes) (hPeek : p.peek ≠ 0) :
    Settles (parseRepeat (fuel + 1) p) fun r => Grown p 1 r.1 r.2 := by
  refine (ih.atom p (by omega) hLaid hPeek).bind fun r hr => ?_
  have hRead := hr.cursor
  refine (settles_repeatLoop _ (Nat.lt_succ_self _) hr.laid hr.lt).mono fun s hs => ?_
  exact hs.weaken hr.le (by omega)

theorem Grammar.parseAtom_succ (ih : Grammar fuel) (hFuel : 4 * p.cursor.length + 1 ≤ fuel + 1)
    (hLaid : Laid p.nodes) (hPeek : p.peek ≠ 0) :
    Settles (parseAtom (fuel + 1) p) fun r => Grown p 1 r.1 r.2 := by
  rw [parseAtom]
  have hSkip := length_skip hPeek
  split
  · refine (ih.alternation p.skip (by omega) hLaid).bind ?_
    rintro ⟨inner, q⟩ hr
    have hRead := hr.cursor
    dsimp only at hRead ⊢
    split
    · trivial
    · have := length_skip_le q
      exact ⟨hr.laid, hr.lt, hr.le, by dsimp only; omega⟩
  · exact settles_parseSimple hLaid hPeek

theorem grammar (fuel : Nat) : Grammar fuel := by
  induction fuel with
  | zero =>
    constructor
    all_goals intros; omega
  | succ fuel ih =>
    constructor
    · intro p hFuel hLaid
      exact ih.parseAlternation_succ hFuel hLaid
    · intro left p hFuel hLaid hLeft
      exact ih.alternationLoop_succ hFuel hLaid hLeft
    · intro left p hFuel hLaid hLeft
      exact ih.parseConcat_succ hFuel hLaid hLeft
    · intro p hFuel hLaid hPeek
      exact ih.parseRepeat_succ hFuel hLaid hPeek
    · intro p hFuel hLaid hPeek
      exact ih.parseAtom_succ hFuel hLaid hPeek

/-- `regexCompile` never runs into its bound, and what it accepts is laid out as a tree. -/
theorem settles_regexCompile (pattern : Text) (ignoreCase : Bool) :
    Settles (regexCompile pattern ignoreCase) fun re =>
      Laid re.nodes ∧ re.root < re.nodes.length := by
  refine ((grammar _).alternation ⟨[], pattern, ignoreCase⟩ (le_refl _) .nil).bind ?_
  rintro ⟨root, p⟩ hr
  dsimp only
  split
  · trivial
  · exact ⟨hr.laid, hr.lt⟩

end LeahOS.Libc
