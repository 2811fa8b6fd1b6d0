import Mathlib.Data.List.Chain
import Mathlib.Tactic

/-!
# Blocks laid end to end

A region of memory is cut into blocks. Each has a header of 32 bytes, four words: the size of
what follows the header, the address of the block before, the address of the block after, and
a tag with a mark for free blocks. Memory is a function from the addresses of words to words,
and `0` is the address of no block.

* `Laid mem nxt p a bs` says that the blocks `bs` lie at `a`, one directly after the other, with
  `p` before the first and `nxt` after the last.
* `Laid.replace` is the one rule for changing a list of blocks: exchange a part of it for other
  blocks of the same extent, and set the back pointer of the block that follows.
* `At a bs x b` says that `b` is the block of the list that lies at `x`.
-/

namespace LeahOS.Lib

namespace Tiling
open Function List

/-- A block: how much follows its header, and whether it is free. -/
structure Block where
  size : Nat
  free : Bool
  deriving DecidableEq

/-- The bytes a list of blocks covers. -/
def span : List Block → Nat
  | [] => 0
  | b :: bs => 32 + b.size + span bs

/-- Where the last block lies; `p` when there is none. -/
def lastAt (p a : Nat) : List Block → Nat
  | [] => p
  | b :: bs => lastAt a (a + 32 + b.size) bs

/-- The tag of a block: a fixed pattern above the mark. -/
def tag (magic : Nat) (free : Bool) : Nat := magic * 2 ^ 32 + if free then 1 else 0

theorem tag_div (magic : Nat) (free : Bool) : tag magic free / 2 ^ 32 = magic := by
  unfold tag
  split <;> omega

theorem tag_mod (magic : Nat) (free : Bool) : tag magic free % 2 ^ 32 = if free then 1 else 0 := by
  unfold tag
  split <;> omega

section
variable (magic : Nat)

/-- The blocks lie at `a`, with `p` before them and `nxt` after them. -/
def Laid (mem : Nat → Nat) (nxt : Nat) : Nat → Nat → List Block → Prop
  | _, _, [] => True
  | p, a, b :: bs =>
    mem a = b.size ∧ mem (a + 8) = p ∧ mem (a + 16) = (if bs = [] then nxt else a + 32 + b.size) ∧
      mem (a + 24) = tag magic b.free ∧ Laid mem nxt a (a + 32 + b.size) bs

end

/-- The block of the list that lies at `x`. -/
def At : Nat → List Block → Nat → Block → Prop
  | _, [], _, _ => False
  | a, b :: bs, x, c => (x = a ∧ c = b) ∨ At (a + 32 + b.size) bs x c

@[simp] theorem span_nil : span [] = 0 := rfl

@[simp] theorem span_cons (b : Block) (bs : List Block) :
    span (b :: bs) = 32 + b.size + span bs := rfl

@[simp] theorem span_append (bs cs : List Block) : span (bs ++ cs) = span bs + span cs := by
  induction bs with
  | nil => simp
  | cons b bs ih =>
    rw [cons_append, span_cons, span_cons, ih]
    omega

theorem length_le_span (bs : List Block) : 32 * bs.length ≤ span bs := by
  induction bs with
  | nil => exact Nat.le_refl 0
  | cons b bs ih =>
    rw [length_cons, span_cons]
    omega

theorem lastAt_append (p a : Nat) (bs cs : List Block) :
    lastAt p a (bs ++ cs) = lastAt (lastAt p a bs) (a + span bs) cs := by
  induction bs generalizing p a with
  | nil => rfl
  | cons b bs ih =>
    rw [cons_append, lastAt, ih, lastAt, span_cons]
    congr 1
    omega

variable {magic : Nat} {mem mem' : Nat → Nat} {nxt p a : Nat} {bs cs : List Block}

/-- Two lists, one after the other. -/
theorem laid_append : Laid magic mem nxt p a (bs ++ cs) ↔
    Laid magic mem (if cs = [] then nxt else a + span bs) p a bs ∧
      Laid magic mem nxt (lastAt p a bs) (a + span bs) cs := by
  induction bs generalizing p a with
  | nil => simp [Laid, lastAt]
  | cons b bs ih =>
    have hPlace : a + span (b :: bs) = a + 32 + b.size + span bs := by
      rw [span_cons]
      omega
    rw [cons_append, Laid, Laid, ih, lastAt, hPlace]
    -- the forward pointer of the last block of the first list leads into the second
    have hNext : (if bs ++ cs = [] then nxt else a + 32 + b.size) =
        if bs = [] then (if cs = [] then nxt else a + 32 + b.size + span bs)
        else a + 32 + b.size := by
      by_cases hbs : bs = []
      · simp [hbs]
      · simp [hbs]
    rw [hNext]
    tauto

/-- A header is read from its own words only. -/
theorem Laid.cons {b : Block} (hLaid : Laid magic mem nxt p a (b :: bs))
    (hSame : ∀ x, a ≤ x → x < a + 32 → mem' x = mem x)
    (hRest : Laid magic mem' nxt a (a + 32 + b.size) bs) : Laid magic mem' nxt p a (b :: bs) := by
  obtain ⟨hSize, hPrev, hNext, hTag, -⟩ := hLaid
  refine ⟨?_, ?_, ?_, ?_, hRest⟩
  · rw [hSame a (by omega) (by omega), hSize]
  · rw [hSame (a + 8) (by omega) (by omega), hPrev]
  · rw [hSame (a + 16) (by omega) (by omega), hNext]
  · rw [hSame (a + 24) (by omega) (by omega), hTag]

/-- A list of blocks is read from its own region only. -/
theorem Laid.frame (hLaid : Laid magic mem nxt p a bs)
    (hSame : ∀ x, a ≤ x → x < a + span bs → mem' x = mem x) : Laid magic mem' nxt p a bs := by
  induction bs generalizing p a with
  | nil => trivial
  | cons b bs ih =>
    rw [span_cons] at hSame
    exact hLaid.cons (fun x hx hLt => hSame x hx (by omega))
      (ih hLaid.2.2.2.2 fun x hx hLt => hSame x (by omega) (by omega))

/-- A list of blocks whose first block has another block before it now. -/
theorem Laid.behind {q : Nat} (hLaid : Laid magic mem nxt p a bs)
    (hSame : ∀ x, a ≤ x → x < a + span bs → x ≠ a + 8 → mem' x = mem x)
    (hPrev : bs ≠ [] → mem' (a + 8) = q) : Laid magic mem' nxt q a bs := by
  cases bs with
  | nil => trivial
  | cons b bs =>
    obtain ⟨hSize, -, hNext, hTag, hRest⟩ := hLaid
    rw [span_cons] at hSame
    refine ⟨?_, hPrev (cons_ne_nil b bs), ?_, ?_, hRest.frame fun x hx hLt => ?_⟩
    · rw [hSame a (by omega) (by omega) (by omega), hSize]
    · rw [hSame (a + 16) (by omega) (by omega) (by omega), hNext]
    · rw [hSame (a + 24) (by omega) (by omega) (by omega), hTag]
    · exact hSame x (by omega) (by omega) (by omega)

/-- Only words between `lo` and `hi` have changed, and the back pointer of a block at `hi`. -/
def Changed (mem mem' : Nat → Nat) (lo hi : Nat) : Prop :=
  ∀ x, x < lo ∨ hi ≤ x → x ≠ hi + 8 → mem' x = mem x

variable {hi x y : Nat} {c : Block}

/-- Exchange the blocks `old` for the blocks `new`. What follows keeps its place, and its first
block gets the last new one as the block before it. -/
theorem Laid.replace {pre old new post : List Block}
    (hLaid : Laid magic mem nxt p a (pre ++ (old ++ post))) (hOld : old ≠ []) (hNewNe : new ≠ [])
    (hHi : a + span pre ≤ hi)
    (hSpan : post ≠ [] → span new = span old ∧ a + span pre + span old = hi)
    (hChanged : Changed mem mem' (a + span pre) hi)
    (hNew : Laid magic mem' (if post = [] then nxt else hi) (lastAt p a pre) (a + span pre) new)
    (hPrev : post ≠ [] → mem' (hi + 8) = lastAt (lastAt p a pre) (a + span pre) new) :
    Laid magic mem' nxt p a (pre ++ (new ++ post)) := by
  obtain ⟨hPre, hRest⟩ := laid_append.mp hLaid
  obtain ⟨-, hPost⟩ := laid_append.mp hRest
  rw [laid_append, laid_append]
  refine ⟨?_, ?_, ?_⟩
  · -- the blocks before still lead to the place where the exchanged ones begin
    rw [if_neg (by simp [hOld])] at hPre
    rw [if_neg (by simp [hNewNe])]
    exact hPre.frame fun x _ hx => hChanged x (.inl hx) (by omega)
  · by_cases hNil : post = []
    · simpa [hNil] using hNew
    · obtain ⟨hSame, rfl⟩ := hSpan hNil
      rw [hSame]
      exact hNew
  · by_cases hNil : post = []
    · subst hNil
      trivial
    · obtain ⟨hSame, rfl⟩ := hSpan hNil
      rw [hSame]
      exact hPost.behind (fun x hx _ hNe => hChanged x (.inr hx) hNe) hPrev

theorem at_append :
    At a (bs ++ cs) x c ↔ At a bs x c ∨ At (a + span bs) cs x c := by
  induction bs generalizing a with
  | nil => simp [At]
  | cons b bs ih =>
    have hPlace : a + span (b :: bs) = a + 32 + b.size + span bs := by
      rw [span_cons]
      omega
    rw [cons_append, At, At, ih, hPlace, or_assoc]

theorem At.bounds (hAt : At a bs x c) :
    a ≤ x ∧ x + 32 + c.size ≤ a + span bs := by
  induction bs generalizing a with
  | nil => exact hAt.elim
  | cons b bs ih =>
    rw [span_cons]
    rcases hAt with ⟨rfl, rfl⟩ | hAt
    · omega
    · have hRest := ih hAt
      omega

/-- Two blocks of the list are one, or lie apart. -/
theorem At.apart {d : Block} (hx : At a bs x c) (hy : At a bs y d) :
    (x = y ∧ c = d) ∨ x + 32 + c.size ≤ y ∨ y + 32 + d.size ≤ x := by
  induction bs generalizing a with
  | nil => exact hx.elim
  | cons b bs ih =>
    rcases hx with ⟨rfl, rfl⟩ | hx
    · rcases hy with ⟨rfl, rfl⟩ | hy
      · exact .inl ⟨rfl, rfl⟩
      · exact .inr (.inl hy.bounds.1)
    · rcases hy with ⟨rfl, rfl⟩ | hy
      · exact .inr (.inr hx.bounds.1)
      · exact ih hx hy

theorem At.unique {d : Block} (hx : At a bs x c) (hy : At a bs x d) : c = d := by
  rcases hx.apart hy with ⟨-, hSame⟩ | hApart
  · exact hSame
  · omega

/-- What a block holds does not change with a part of the list it is not in. -/
theorem Changed.payload {lo : Nat} (hChanged : Changed mem mem' lo hi) (hLe : lo ≤ hi)
    (hAway : x + 32 + c.size ≤ lo ∨ hi ≤ x) (hFrom : x + 32 ≤ y) (hTo : y < x + 32 + c.size) :
    mem' y = mem y :=
  hChanged y (by omega) (by omega)

/-- What the header of a block of the list holds. -/
theorem Laid.header (hLaid : Laid magic mem nxt p a bs) (hAt : At a bs x c) :
    mem (x + 24) = tag magic c.free := by
  induction bs generalizing p a with
  | nil => exact hAt.elim
  | cons b bs ih =>
    obtain ⟨-, -, -, hTag, hRest⟩ := hLaid
    rcases hAt with ⟨rfl, rfl⟩ | hAt
    · exact hTag
    · exact ih hRest hAt

/-- What a block holds may be written without touching a header. -/
theorem Laid.poke (hLaid : Laid magic mem nxt p a bs) (hAt : At a bs x c) (hFrom : x + 32 ≤ y)
    (hTo : y < x + 32 + c.size) (v : Nat) :
    Laid magic (update mem y v) nxt p a bs := by
  induction bs generalizing p a with
  | nil => exact hAt.elim
  | cons b bs ih =>
    have hRest := hLaid.2.2.2.2
    rcases hAt with ⟨rfl, rfl⟩ | hAt
    · exact hLaid.cons (fun z _ hz => update_of_ne (by omega) _ _)
        (hRest.frame fun z hz _ => update_of_ne (by omega) _ _)
    · have hBound := hAt.bounds.1
      exact hLaid.cons (fun z _ hz => update_of_ne (by omega) _ _) (ih hRest hAt)

/-- The list around a block of it. -/
theorem At.split (hAt : At a bs x c) :
    ∃ pre post, bs = pre ++ c :: post ∧ x = a + span pre := by
  induction bs generalizing a with
  | nil => exact hAt.elim
  | cons b bs ih =>
    rcases hAt with ⟨rfl, rfl⟩ | hAt
    · exact ⟨[], bs, rfl, rfl⟩
    · obtain ⟨pre, post, rfl, rfl⟩ := ih hAt
      refine ⟨b :: pre, post, rfl, ?_⟩
      rw [span_cons]
      omega

end Tiling
end LeahOS.Lib
