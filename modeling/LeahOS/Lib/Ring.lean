import Mathlib.Data.Nat.ModEq
import Mathlib.Logic.Function.Basic

/-!
# Ring buffers

A ring of `k` cells with a place to read, a place to write and a count. `contents` is the queue
it stands for, and `Ok` is what the three numbers have to do with each other. `drain` takes
elements as long as there are any, and `fill` puts elements in as long as there is room; their
specifications are in terms of `contents` alone.
-/

namespace LeahOS.Lib
open Function List

/-- The cells and the three numbers. -/
structure RingBuffer (α : Type*) where
  buffer : Nat → α
  head : Nat
  tail : Nat
  count : Nat

namespace RingBuffer
variable {α : Type*} (k : Nat)

/-- The front element has been read. -/
def pop (r : RingBuffer α) : RingBuffer α := { r with head := (r.head + 1) % k, count := r.count - 1 }

/-- An element is written at the end. -/
def push (r : RingBuffer α) (a : α) : RingBuffer α :=
  ⟨update r.buffer r.tail a, r.head, (r.tail + 1) % k, r.count + 1⟩

/-- Reads at most so many elements. -/
def drain (r : RingBuffer α) : Nat → List α × RingBuffer α
  | 0 => ([], r)
  | n + 1 =>
    if 0 < r.count then
      let rest := drain (r.pop k) n
      (r.buffer r.head :: rest.1, rest.2)
    else ([], r)

/-- Writes elements while there is room, and counts them. -/
def fill (r : RingBuffer α) : List α → RingBuffer α × Nat
  | [] => (r, 0)
  | a :: as =>
    if r.count < k then
      let rest := fill (r.push k a) as
      (rest.1, rest.2 + 1)
    else (r, 0)

/-- The queue. -/
def contents (r : RingBuffer α) : List α :=
  (List.range r.count).map fun i => r.buffer ((r.head + i) % k)

/-- The place to write is behind the last element, and the ring does not overlap itself. -/
structure Ok (r : RingBuffer α) : Prop where
  head : r.head < k
  tail : r.tail = (r.head + r.count) % k
  count : r.count ≤ k

variable {k} {r : RingBuffer α}

@[simp] theorem length_contents : (r.contents k).length = r.count := by
  simp [contents]

theorem Ok.pop (h : r.Ok k) (hSome : 0 < r.count) : (r.pop k).Ok k := by
  have hPos : 0 < k := Nat.zero_lt_of_lt h.head
  refine ⟨Nat.mod_lt _ hPos, ?_, (Nat.sub_le _ _).trans h.count⟩
  change r.tail = ((r.head + 1) % k + (r.count - 1)) % k
  rw [Nat.mod_add_mod, h.tail]
  congr 1
  omega

theorem contents_pop (h : r.Ok k) (hSome : 0 < r.count) :
    r.contents k = r.buffer r.head :: (r.pop k).contents k := by
  obtain ⟨c, hc⟩ := Nat.exists_eq_succ_of_ne_zero (Nat.ne_of_gt hSome)
  have hPop : (r.pop k).count = c := by
    change r.count - 1 = c
    omega
  rw [contents, contents, hPop, hc, range_succ_eq_map, map_cons, List.map_map,
    Nat.add_zero, Nat.mod_eq_of_lt h.head]
  congr 1
  apply map_congr_left
  intro i _
  change r.buffer ((r.head + (i + 1)) % k) = r.buffer (((r.head + 1) % k + i) % k)
  rw [Nat.mod_add_mod]
  congr 2
  omega

theorem Ok.push (h : r.Ok k) (hRoom : r.count < k) (a : α) : (r.push k a).Ok k := by
  refine ⟨h.head, ?_, hRoom⟩
  change (r.tail + 1) % k = (r.head + (r.count + 1)) % k
  rw [h.tail, Nat.mod_add_mod, Nat.add_assoc]

theorem contents_push (h : r.Ok k) (hRoom : r.count < k) (a : α) :
    (r.push k a).contents k = r.contents k ++ [a] := by
  change (List.range (r.count + 1)).map _ = _
  rw [range_succ, map_append]
  congr 1
  · apply map_congr_left
    intro i hi
    -- the cell written is none of those in use
    have hOther : (r.head + i) % k ≠ r.tail := by
      rw [h.tail]
      intro hSame
      have hCount : i = r.count :=
        Nat.ModEq.eq_of_lt_of_lt (Nat.ModEq.add_left_cancel' r.head hSame)
          ((mem_range.mp hi).trans hRoom) hRoom
      exact absurd (mem_range.mp hi) (by omega)
    exact update_of_ne hOther _ _
  · simp only [map_cons, map_nil]
    change [update r.buffer r.tail a ((r.head + r.count) % k)] = [a]
    rw [← h.tail, update_self]

/-- What is read comes off the front of the queue. -/
theorem drain_spec (h : r.Ok k) (n : Nat) : (drain k r n).2.Ok k ∧
    r.contents k = (drain k r n).1 ++ (drain k r n).2.contents k ∧
      (drain k r n).1.length = min n r.count := by
  induction n generalizing r with
  | zero => exact ⟨h, rfl, by simp [drain]⟩
  | succ n ih =>
    unfold drain
    by_cases hSome : 0 < r.count
    · obtain ⟨hOk, hContents, hLength⟩ := ih (h.pop hSome)
      rw [if_pos hSome]
      refine ⟨hOk, ?_, ?_⟩
      · rw [contents_pop h hSome, hContents]
        rfl
      · change (drain k (r.pop k) n).1.length + 1 = _
        rw [hLength]
        change min n (r.count - 1) + 1 = _
        omega
    · rw [if_neg hSome]
      refine ⟨h, rfl, ?_⟩
      rw [length_nil]
      omega

/-- What is written goes to the end of the queue, as far as there is room. -/
theorem fill_spec (h : r.Ok k) (as : List α) : (fill k r as).1.Ok k ∧
    (fill k r as).1.contents k = r.contents k ++ as.take (fill k r as).2 ∧
      (fill k r as).2 = min as.length (k - r.count) := by
  induction as generalizing r with
  | nil => exact ⟨h, by simp [fill], by simp [fill]⟩
  | cons a as ih =>
    unfold fill
    by_cases hRoom : r.count < k
    · obtain ⟨hOk, hContents, hCount⟩ := ih (h.push hRoom a)
      rw [if_pos hRoom]
      refine ⟨hOk, ?_, ?_⟩
      · dsimp only
        rw [hContents, contents_push h hRoom, take_succ_cons, append_assoc]
        rfl
      · dsimp only
        rw [hCount, length_cons]
        change min as.length (k - (r.count + 1)) + 1 = _
        omega
    · rw [if_neg hRoom]
      refine ⟨h, by simp, ?_⟩
      omega

end RingBuffer
end LeahOS.Lib
