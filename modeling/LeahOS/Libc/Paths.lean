import Mathlib.Data.List.Basic

/-!
# Paths on their way to `vfsd` (`__fd_resolve`, `vfs_call`, `vfs_pair`, `rename`)

The absolute path is copied into a buffer of 512 characters, rebuilt component by component in one
of 256, and copied into the 256 characters of a message, beside a second path where the call has
two. Each copy stops at the end of its buffer and says nothing, so a path that is too long arrives
as another one.

What was cut off can still be taken back by a `..`. While the rebuilt path is in step with the
normalised one, only the end of its last component may be missing (`InStep`); once a component is
dropped as a whole it has one too few (`Behind`), and stays so until both are back at the root.
`send_exact` has the condition that follows from this.
-/

namespace LeahOS.Libc
open List
namespace Paths

abbrev Path := List Char

/-- `PATH_MAX`, which is also the room of a message. -/
def kPathMax : Nat := 256

/-- The absolute path, as it would be written out. -/
def absolute (cwd path : Path) : Path :=
  let path := if path = [] then ['.'] else path
  if path.head? = some '/' then path
  else cwd ++ (if cwd = [] ∨ cwd.getLast? = some '/' then [] else ['/']) ++ path

/-- `..` takes the last component away, and the separator before it. The path stands backwards:
its last character comes first. -/
def pop (out : Path) : Path :=
  let rest := out.dropWhile (· ≠ '/')
  if 1 < rest.length then rest.tail else rest

/-- A component is added, as far as there is room. -/
def push (out segment : Path) : Path :=
  let out := if 1 < out.length ∧ out.length + 1 < kPathMax then '/' :: out else out
  (segment.take (kPathMax - 1 - out.length)).reverse ++ out

/-- One turn of the loop of `__fd_resolve`. -/
def rebuild (out segment : Path) : Path :=
  if segment = [] ∨ segment = ['.'] then out
  else if segment = ['.', '.'] then pop out
  else push out segment

/-- `__fd_resolve`. -/
def resolve (cwd path : Path) : Path :=
  ((((absolute cwd path).take (2 * kPathMax - 1)).splitOn '/').foldl rebuild ['/']).reverse

/-- The calls, by the paths they name: one; two, as `rename` or `link` takes them; the text of a
symbolic link and its path. -/
inductive Call
  | one (path : Path)
  | rename (old new : Path)
  | link (existing path : Path)
  | symlink (target path : Path)

/-- Two strings in the one data field, of which they may fill so much. -/
def pack (room : Nat) (first second : Path) : List Path :=
  let first := first.take (kPathMax - 2)
  [first, second.take (room - (first.length + 1))]

def vfsPair (first second : Path) : List Path := pack (kPathMax - 1) first second

/-- The strings the message carries, one behind the other, each with the character that ends it;
`none` where the filesystem has no port to send it to. -/
def send (cwd : Path) (port : Bool) (call : Call) : Option (List Path) :=
  if port then
    match call with
    | .one path => some [(resolve cwd path).take (kPathMax - 1)]
    | .rename old new => some (pack (kPathMax - 2) (resolve cwd old) (resolve cwd new))
    | .link existing path => some (vfsPair (resolve cwd existing) (resolve cwd path))
    | .symlink target path => some (vfsPair target (resolve cwd path))
  else none

/-- The lexical normalisation, last component first. -/
def fold (components : List Path) (segment : Path) : List Path :=
  if segment = [] ∨ segment = ['.'] then components
  else if segment = ['.', '.'] then components.tail
  else segment :: components

/-- A list of components written out, backwards. -/
def render : List Path → Path
  | [] => ['/']
  | [c] => c.reverse ++ ['/']
  | c :: d :: rest => c.reverse ++ '/' :: render (d :: rest)

/-- The normalisation of a path that is written out. -/
def normalOf (text : Path) : Path := (render ((text.splitOn '/').foldl fold [])).reverse

/-- The normalised absolute path. -/
def normal (cwd path : Path) : Path := normalOf (absolute cwd path)

/-- What the message is to carry. -/
def exact (cwd : Path) : Call → List Path
  | .one path => [normal cwd path]
  | .rename old new => [normal cwd old, normal cwd new]
  | .link existing path => [normal cwd existing, normal cwd path]
  | .symlink target path => [target, normal cwd path]

/-- Neither empty nor one of the two dots. -/
def IsName (segment : Path) : Prop := segment ≠ [] ∧ segment ≠ ['.'] ∧ segment ≠ ['.', '.']

/-- Some way through the components the normalised path is the root. -/
def Returns (components segments : List Path) : Prop :=
  ∃ k, k ≤ segments.length ∧ (segments.take k).foldl fold components = []

/-- The second buffer does no harm: a name that is added to a full one is gone again when the path
comes back to the root, and in the end the normalised path fits. -/
structure Survives (components segments : List Path) : Prop where
  room : ∀ k segment, segments[k]? = some segment → IsName segment →
    kPathMax ≤ (render ((segments.take k).foldl fold components)).length + 1 →
    Returns ((segments.take (k + 1)).foldl fold components) (segments.drop (k + 1))
  whole : (render (segments.foldl fold components)).length < kPathMax

/-- Neither of the two buffers does harm. -/
structure Short (cwd path : Path) : Prop where
  survives : Survives [] (((absolute cwd path).take (2 * kPathMax - 1)).splitOn '/')
  same : normalOf ((absolute cwd path).take (2 * kPathMax - 1)) = normal cwd path

/-- The paths come through, and two of them fit the message together. -/
def Fits (cwd : Path) : Call → Prop
  | .one path => Short cwd path
  | .rename old new => Short cwd old ∧ Short cwd new ∧
      (normal cwd old).length + (normal cwd new).length + 2 < kPathMax
  | .link existing path => Short cwd existing ∧ Short cwd path ∧
      (normal cwd existing).length + (normal cwd path).length + 2 ≤ kPathMax
  | .symlink target path => Short cwd path ∧ target.length + (normal cwd path).length + 2 ≤ kPathMax

/-- The paths of a call that are resolved. -/
def Call.paths : Call → List Path
  | .one path => [path]
  | .rename old new => [old, new]
  | .link existing path => [existing, path]
  | .symlink _ path => [path]

/-- What is written out fits the first buffer. -/
def Written (cwd : Path) (call : Call) : Prop :=
  ∀ path ∈ call.paths, (absolute cwd path).length < 2 * kPathMax

/-- Components: not empty, and without a separator. -/
def Proper (components : List Path) : Prop := ∀ c ∈ components, c ≠ [] ∧ '/' ∉ c

variable {c : Path} {components : List Path}

theorem not_mem_of_mem_splitOn {text : Path} (h : c ∈ text.splitOn '/') : '/' ∉ c := by
  induction text generalizing c with
  | nil =>
    obtain rfl := mem_singleton.mp h
    exact not_mem_nil
  | cons a text ih =>
    rw [splitOn_cons_eq_if_modifyHead] at h
    split at h
    next =>
      rcases mem_cons.mp h with rfl | h
      · exact not_mem_nil
      · exact ih h
    next hSlash =>
      -- the character joins the first piece
      cases hSplit : text.splitOn '/' with
      | nil => exact absurd hSplit (splitOn_ne_nil _ _)
      | cons first rest =>
        rw [hSplit] at h ih
        rcases mem_cons.mp h with rfl | h
        · refine fun hMem => ?_
          rcases mem_cons.mp hMem with rfl | hMem
          · exact hSlash rfl
          · exact ih mem_cons_self hMem
        · exact ih (mem_cons_of_mem _ h)

theorem render_ne_nil (components : List Path) : render components ≠ [] := by
  fun_cases render components <;> simp

theorem dropWhile_component {rest : Path} (hc : '/' ∉ c) :
    (c.reverse ++ '/' :: rest).dropWhile (· ≠ '/') = '/' :: rest := by
  rw [dropWhile_append_of_pos (by grind)]
  simp

theorem pop_render (h : ∀ c ∈ components, '/' ∉ c) :
    pop (render components) = render components.tail := by
  match components, h with
  | [], _ => rfl
  | [c], h =>
    unfold pop render
    rw [dropWhile_component (h c mem_cons_self)]
    rfl
  | c :: d :: rest, h =>
    have hPos := length_pos_iff.mpr (render_ne_nil (d :: rest))
    unfold pop
    rw [render, dropWhile_component (h c mem_cons_self)]
    exact if_pos (Nat.lt_add_of_pos_left hPos)

/-- The components a buffer can hold: the first one is not empty. -/
structure Held (components : List Path) : Prop where
  noSlash : ∀ c ∈ components, '/' ∉ c
  bottom : ∀ c, components.getLast? = some c → c ≠ []

theorem Proper.held (h : Proper components) : Held components :=
  ⟨fun c hc => (h c hc).2, fun c hc => (h c (mem_of_getLast? hc)).1⟩

theorem Held.tail (h : Held components) : Held components.tail := by
  match components, h with
  | [], h => exact h
  | [c], h => exact ⟨fun c hc => absurd hc not_mem_nil, fun c hc => by cases hc⟩
  | c :: d :: rest, h =>
    exact ⟨fun x hx => h.noSlash x (mem_of_mem_tail hx), fun x hx => h.bottom x hx⟩

theorem Held.one_lt (h : Held components) (hNe : components ≠ []) :
    1 < (render components).length := by
  match components, hNe with
  | [c], _ =>
    have hc := length_pos_iff.mpr (h.bottom c rfl)
    simp [render]
    omega
  | c :: d :: rest, _ =>
    have hRest := length_pos_iff.mpr (render_ne_nil (d :: rest))
    simp [render]
    omega

/-- A name is added, cut off where the buffer ends. -/
theorem push_held (h : Held components) (hRoom : (render components).length + 1 < kPathMax)
    {segment : Path} (hName : segment ≠ []) (hSlash : '/' ∉ segment) : ∃ k,
      push (render components) segment = render (segment.take k :: components) ∧
      Held (segment.take k :: components) ∧
      (push (render components) segment).length =
        min (kPathMax - 1) (render (segment :: components)).length := by
  have hTake : ∀ k, '/' ∉ segment.take k := fun k hMem => hSlash (mem_of_mem_take hMem)
  match components, h with
  | [], _ =>
    refine ⟨kPathMax - 1 - 1, by simp [push, render], ⟨?_, ?_⟩, ?_⟩
    · exact forall_mem_singleton.mpr (hTake _)
    · rintro c hc
      obtain rfl := Option.some.inj hc
      simp [hName, kPathMax]
    · simp [push, render, kPathMax]
      omega
  | c :: rest, h =>
    have hLong := h.one_lt (cons_ne_nil c rest)
    refine ⟨kPathMax - 1 - ((render (c :: rest)).length + 1), ?_, ⟨?_, fun x hx => ?_⟩, ?_⟩
    · simp [push, render, hLong, hRoom]
    · exact forall_mem_cons.mpr ⟨hTake _, h.noSlash⟩
    · exact h.bottom x hx
    · simp [push, render, hLong, hRoom]
      omega

theorem push_full {out : Path} (hFull : kPathMax ≤ out.length + 1) (segment : Path) :
    push out segment = out := by
  unfold push
  rw [if_neg (by omega)]
  simp [show kPathMax - 1 - out.length = 0 by omega]

theorem push_whole (h : Held components) {segment : Path}
    (hRoom : (render (segment :: components)).length < kPathMax) :
    push (render components) segment = render (segment :: components) := by
  match components, h with
  | [], _ =>
    have hTake : segment.length ≤ kPathMax - 1 - 1 := by
      simp [render] at hRoom
      omega
    simp [push, render, take_of_length_le hTake]
  | c :: rest, h =>
    have hLong := h.one_lt (cons_ne_nil c rest)
    simp only [render, length_append, length_reverse, length_cons] at hRoom
    have hTake : segment.length ≤ kPathMax - 1 - ((render (c :: rest)).length + 1) := by omega
    have hSlash : (render (c :: rest)).length + 1 < kPathMax := by omega
    simp [push, render, hLong, hSlash, take_of_length_le hTake]

theorem length_tail_le (components : List Path) :
    (render components.tail).length ≤ (render components).length := by
  match components with
  | [] => exact Nat.le_refl _
  | [c] => simp [render]
  | c :: d :: rest => simp [render]; omega

/-! ## The buffer and the normalised path -/

/-- In step: at most the end of the last component is missing. -/
inductive InStep : Path → List Path → Prop
  | root : InStep ['/'] []
  | top {c : Path} {rest : List Path} (hRoom : (render rest).length + 1 < kPathMax) :
      InStep (push (render rest) c) (c :: rest)

/-- The buffer has fewer components. -/
def Behind (out : Path) (components : List Path) : Prop :=
  ∃ kept, out = render kept ∧ Held kept ∧ kept.length < components.length ∧
    (render kept).length < kPathMax

variable {out segment : Path} {segments : List Path}

/-- Nothing is missing from a path that fits. -/
theorem InStep.eq (h : InStep out components) (hProper : Proper components)
    (hFits : (render components).length < kPathMax) : out = render components := by
  cases h with
  | root => rfl
  | @top c rest hRoom =>
    obtain ⟨hc, hRest⟩ := forall_mem_cons.mp hProper
    exact push_whole (Proper.held hRest) hFits

theorem inStep_render (hProper : Proper components)
    (hRoom : (render components).length + 1 < kPathMax) : InStep (render components) components := by
  match components, hProper, hRoom with
  | [], _, _ => exact .root
  | c :: rest, hProper, hRoom =>
    obtain ⟨hc, hRest⟩ := forall_mem_cons.mp hProper
    have hLe := length_tail_le (c :: rest)
    rw [← push_whole (Proper.held hRest) (by omega)]
    exact .top (by simp only [tail_cons] at hLe; omega)

/-- One turn of the loop from a buffer in step: it stays so, or a name is dropped. -/
theorem InStep.rebuild (h : InStep out components) (hProper : Proper components) :
    ¬ (IsName segment ∧ kPathMax ≤ (render components).length + 1) ∧
        InStep (rebuild out segment) (fold components segment) ∨
      (IsName segment ∧ kPathMax ≤ (render components).length + 1) ∧
        Behind (rebuild out segment) (fold components segment) := by
  unfold Paths.rebuild fold
  split
  next hNone => exact .inl ⟨fun ⟨hName, _⟩ => hNone.elim hName.1 hName.2.1, h⟩
  next hSome =>
  split
  next hDots =>
    refine .inl ⟨fun ⟨hName, _⟩ => hName.2.2 hDots, ?_⟩
    cases h with
    | root => exact .root
    | @top c rest hRoom =>
      obtain ⟨hc, hRest⟩ := forall_mem_cons.mp hProper
      obtain ⟨k, hPush, hHeld, -⟩ := push_held (Proper.held hRest) hRoom hc.1 hc.2
      rw [hPush, pop_render hHeld.noSlash]
      exact inStep_render hRest hRoom
  next hDots =>
    have hName : IsName segment :=
      ⟨fun hNil => hSome (.inl hNil), fun hDot => hSome (.inr hDot), hDots⟩
    by_cases hRoom : (render components).length + 1 < kPathMax
    · rw [h.eq hProper (by omega)]
      exact .inl ⟨fun ⟨_, hFull⟩ => absurd hFull (by omega), .top hRoom⟩
    · -- no room even for the slash: the name is dropped as a whole
      refine .inr ⟨⟨hName, by omega⟩, ?_⟩
      cases h with
      | root => exact absurd (by decide) hRoom
      | @top c rest hRest =>
        obtain ⟨hc, hProper⟩ := forall_mem_cons.mp hProper
        obtain ⟨k, hPush, hHeld, hLength⟩ := push_held (Proper.held hProper) hRest hc.1 hc.2
        rw [push_full (by omega), hPush]
        refine ⟨_, rfl, hHeld, by simp, ?_⟩
        rw [← hPush, hLength, kPathMax]
        omega

/-- One turn of the loop from a buffer with fewer components: it catches up at the root only. -/
theorem Behind.rebuild (h : Behind out components) (hSlash : '/' ∉ segment) :
    InStep (rebuild out segment) (fold components segment) ∧ fold components segment = [] ∨
      Behind (rebuild out segment) (fold components segment) := by
  obtain ⟨kept, rfl, hHeld, hLess, hFits⟩ := h
  unfold Paths.rebuild fold
  split
  next => exact .inr ⟨kept, rfl, hHeld, hLess, hFits⟩
  next hSome =>
  split
  next =>
    -- `..` takes a component off both; at the root the buffer has caught up
    rw [pop_render hHeld.noSlash]
    by_cases hRoot : components.tail = []
    · obtain rfl : kept = [] := by
        have hLength := congrArg length hRoot
        rw [length_tail, length_nil] at hLength
        exact length_eq_zero_iff.mp (by omega)
      rw [hRoot]
      exact .inl ⟨.root, rfl⟩
    · have hPos := length_pos_iff.mpr hRoot
      refine .inr ⟨kept.tail, rfl, hHeld.tail, ?_, Nat.lt_of_le_of_lt (length_tail_le kept) hFits⟩
      rw [length_tail] at hPos ⊢
      rw [length_tail]
      omega
  next =>
    refine .inr ?_
    by_cases hRoom : (render kept).length + 1 < kPathMax
    · obtain ⟨k, hPush, hHeld', hLength⟩ :=
        push_held hHeld hRoom (fun hNil => hSome (.inl hNil)) hSlash
      refine ⟨_, hPush, hHeld', by simpa using hLess, ?_⟩
      rw [← hPush, hLength, kPathMax]
      omega
    · rw [push_full (by omega)]
      exact ⟨kept, rfl, hHeld, by simp; omega, hFits⟩

theorem InStep.length_lt (h : InStep out components) (hProper : Proper components) :
    out.length < kPathMax := by
  cases h with
  | root => decide
  | @top c rest hRoom =>
    obtain ⟨hc, hRest⟩ := forall_mem_cons.mp hProper
    obtain ⟨k, -, -, hLength⟩ := push_held (Proper.held hRest) hRoom hc.1 hc.2
    rw [hLength, kPathMax]
    omega

theorem count_render (h : ∀ c ∈ components, '/' ∉ c) :
    (render components).count '/' = max 1 components.length := by
  fun_induction render components with
  | case1 => rfl
  | case2 c => simp [count_eq_zero_of_not_mem (h c mem_cons_self)]
  | case3 c d rest ih =>
    have hRest := ih fun x hx => h x (mem_cons_of_mem c hx)
    simp [count_eq_zero_of_not_mem (h c mem_cons_self), hRest]

/-- With fewer components nothing reads as the normalised path. -/
theorem Behind.not_prefix (h : Behind out components) (hProper : Proper components) :
    ¬ (render components).reverse <+: out.reverse := by
  obtain ⟨kept, rfl, hHeld, hLess, -⟩ := h
  intro hPrefix
  have hNe : components ≠ [] := ne_nil_of_length_pos (by omega)
  -- a path of more components has more slashes
  have hCount := hPrefix.sublist.count_le '/'
  have hLength := hPrefix.length_le
  rw [count_reverse, count_reverse, count_render hHeld.noSlash,
    count_render (Proper.held hProper).noSlash] at hCount
  rw [length_reverse, length_reverse] at hLength
  have hLong := (Proper.held hProper).one_lt hNe
  cases kept with
  | nil => simp [render] at hLength; omega
  | cons c rest => simp at hCount hLess; omega

/-! ## The whole loop -/

theorem Proper.fold (h : Proper components) (hSlash : '/' ∉ segment) :
    Proper (fold components segment) := by
  unfold Paths.fold
  split
  next => exact h
  next hSome =>
  split
  next => exact fun c hc => h c (mem_of_mem_tail hc)
  next => exact forall_mem_cons.mpr ⟨⟨fun hNil => hSome (.inl hNil), hSlash⟩, h⟩

theorem survives_cons : Survives components (segment :: segments) ↔
    Survives (fold components segment) segments ∧
      (IsName segment → kPathMax ≤ (render components).length + 1 →
        Returns (fold components segment) segments) := by
  constructor
  · intro h
    exact ⟨⟨fun k s hk => h.room (k + 1) s hk, h.whole⟩, h.room 0 segment rfl⟩
  · rintro ⟨h, hFirst⟩
    refine ⟨fun k s hk => ?_, h.whole⟩
    cases k with
    | zero =>
      obtain rfl := Option.some.inj hk
      exact hFirst
    | succ k => exact h.room k s hk

theorem returns_cons (hNe : components ≠ []) : Returns components (segment :: segments) ↔
    Returns (fold components segment) segments := by
  constructor
  · rintro ⟨_ | k, hk, hRoot⟩
    · exact absurd hRoot hNe
    · exact ⟨k, Nat.le_of_succ_le_succ hk, hRoot⟩
  · rintro ⟨k, hk, hRoot⟩
    exact ⟨k + 1, Nat.succ_le_succ hk, hRoot⟩

/-- The buffer after the loop holds the normalised path. -/
def Right (out : Path) (components segments : List Path) : Prop :=
  segments.foldl rebuild out = render (segments.foldl fold components)

/-- It begins with it. -/
def Reads (out : Path) (components segments : List Path) : Prop :=
  (render (segments.foldl fold components)).reverse <+: (segments.foldl rebuild out).reverse

/-- From a buffer in step the loop comes out right if what it drops is taken back, and only then;
from one that is behind, the path has to come back to the root, too. -/
theorem run_rebuild (hProper : Proper components) (hSegments : ∀ c ∈ segments, '/' ∉ c) :
    (InStep out components → (Survives components segments → Right out components segments) ∧
      (Reads out components segments → Survives components segments)) ∧
    (Behind out components →
      (Returns components segments ∧ Survives components segments → Right out components segments) ∧
      (Reads out components segments →
        Returns components segments ∧ Survives components segments)) := by
  induction segments generalizing out components with
  | nil =>
    refine ⟨fun h => ⟨fun hAll => h.eq hProper hAll.whole, fun hReads => ⟨?_, ?_⟩⟩, fun h => ?_⟩
    · exact fun k s hk => by cases hk
    · have hLe := IsPrefix.length_le hReads
      rw [length_reverse, length_reverse] at hLe
      exact Nat.lt_of_le_of_lt hLe (h.length_lt hProper)
    · refine ⟨?_, fun hReads => absurd hReads (h.not_prefix hProper)⟩
      rintro ⟨⟨k, hk, hRoot⟩, -⟩
      obtain ⟨kept, -, -, hLess, -⟩ := h
      rw [take_nil, foldl_nil] at hRoot
      rw [hRoot] at hLess
      exact absurd hLess (Nat.not_lt_zero _)
  | cons segment rest ih =>
    obtain ⟨hSlash, hRest⟩ := forall_mem_cons.mp hSegments
    rw [survives_cons]
    constructor
    · intro h
      rcases @InStep.rebuild _ _ segment h hProper with ⟨hNot, hStep⟩ | ⟨⟨hName, hFull⟩, hStep⟩
      · obtain ⟨hTo, hFrom⟩ := (ih (hProper.fold hSlash) hRest).1 hStep
        exact ⟨fun hAll => hTo hAll.1,
          fun hReads => ⟨hFrom hReads, fun hName hFull => absurd ⟨hName, hFull⟩ hNot⟩⟩
      · obtain ⟨hTo, hFrom⟩ := (ih (hProper.fold hSlash) hRest).2 hStep
        refine ⟨fun hAll => hTo ⟨hAll.2 hName hFull, hAll.1⟩, fun hReads => ?_⟩
        obtain ⟨hReturns, hSurvives⟩ := hFrom hReads
        exact ⟨hSurvives, fun _ _ => hReturns⟩
    · intro h
      have hNe : components ≠ [] := by
        obtain ⟨kept, -, -, hLess, -⟩ := h
        exact ne_nil_of_length_pos (by omega)
      rw [returns_cons hNe]
      rcases h.rebuild hSlash with ⟨hStep, hRoot⟩ | hStep
      · have hReturns : Returns (fold components segment) rest := ⟨0, Nat.zero_le _, hRoot⟩
        obtain ⟨hTo, hFrom⟩ := (ih (hProper.fold hSlash) hRest).1 hStep
        exact ⟨fun hAll => hTo hAll.2.1,
          fun hReads => ⟨hReturns, hFrom hReads, fun _ _ => hReturns⟩⟩
      · obtain ⟨hTo, hFrom⟩ := (ih (hProper.fold hSlash) hRest).2 hStep
        refine ⟨fun hAll => hTo ⟨hAll.1, hAll.2.1⟩, fun hReads => ?_⟩
        obtain ⟨hReturns, hSurvives⟩ := hFrom hReads
        exact ⟨hReturns, hSurvives, fun _ _ => hReturns⟩

theorem resolve_eq {cwd path : Path} (h : Short cwd path) : resolve cwd path = normal cwd path := by
  have hProper : Proper [] := fun c hc => absurd hc not_mem_nil
  have hRight := ((run_rebuild hProper fun c hc => not_mem_of_mem_splitOn hc).1 .root).1 h.survives
  exact (congrArg List.reverse hRight).trans h.same

/-- A path that fits the first buffer, and of which a beginning of the second reads right. -/
theorem short_of_leading {cwd path : Path} (hWritten : (absolute cwd path).length < 2 * kPathMax)
    (hReads : normal cwd path <+: resolve cwd path) : Short cwd path := by
  have hProper : Proper [] := fun c hc => absurd hc not_mem_nil
  have hTake : (absolute cwd path).take (2 * kPathMax - 1) = absolute cwd path :=
    take_of_length_le (by omega)
  refine ⟨((run_rebuild hProper fun c hc => not_mem_of_mem_splitOn hc).1 .root).2 ?_, ?_⟩
  · rw [hTake]
    unfold resolve at hReads
    rwa [hTake] at hReads
  · rw [hTake]
    rfl

theorem normal_pos (cwd path : Path) : 0 < (normal cwd path).length := by
  unfold normal normalOf
  rw [length_reverse]
  exact length_pos_iff.mpr (render_ne_nil _)

theorem Short.length_lt {cwd path : Path} (h : Short cwd path) :
    (normal cwd path).length < kPathMax := by
  rw [← h.same, normalOf, length_reverse]
  exact h.survives.whole

/-! ## The message -/

/-- The first `k` characters of what was resolved are the normalised path: nothing was cut off. -/
theorem take_eq_normal {cwd path : Path} (hWritten : (absolute cwd path).length < 2 * kPathMax)
    {k : Nat} (hEq : (resolve cwd path).take k = normal cwd path) :
    Short cwd path ∧ (normal cwd path).length ≤ k := by
  refine ⟨short_of_leading hWritten (hEq ▸ take_prefix ..), ?_⟩
  rw [← hEq, length_take]
  exact Nat.min_le_left ..

theorem pack_eq {cwd path first : Path} {room : Nat} (h : Short cwd path) (hRoom : room < kPathMax)
    (hFits : first.length + (normal cwd path).length + 1 ≤ room) :
    pack room first (resolve cwd path) = [first, normal cwd path] := by
  have hPos := normal_pos cwd path
  simp only [pack, resolve_eq h]
  rw [take_of_length_le (by omega), take_of_length_le (by omega)]

theorem of_pack_eq {cwd path first whole : Path} {room : Nat}
    (hWritten : (absolute cwd path).length < 2 * kPathMax)
    (hEq : pack room first (resolve cwd path) = [whole, normal cwd path]) :
    first.take (kPathMax - 2) = whole ∧ Short cwd path ∧
      whole.length + (normal cwd path).length + 1 ≤ room := by
  obtain ⟨hFirst, hRest⟩ := cons.inj hEq
  obtain ⟨hSecond, -⟩ := cons.inj hRest
  rw [hFirst] at hSecond
  obtain ⟨hShort, hLength⟩ := take_eq_normal hWritten hSecond
  have hPos := normal_pos cwd path
  exact ⟨hFirst, hShort, by omega⟩

end Paths
end LeahOS.Libc
