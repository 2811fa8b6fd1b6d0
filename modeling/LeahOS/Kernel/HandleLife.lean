import LeahOS.Kernel.Object
import LeahOS.Lib.Packed
import LeahOS.Lib.Run

/-!
# The handles of one process over its life

A process is given handles, duplicates them and closes them, and no number it has closed may
come to name another object. The module follows one process from before it has a table.

* `slots` is the table of a process as a function, all zero while there is no table. What a
  handle names, what `give` adds and what `close` takes away are stated in terms of it.
* `Life` is the tables with two lists no one stores: the handles the process holds, each with
  what it was given for, and the numbers it has closed.
* `Inv` says that the numbers held are the current generations of their slots and the numbers
  closed are past ones. It needs generations that fit a handle; `Fresh` says that every slot
  has been given out fewer than `2 ^ 21 - 1` times.
-/

namespace LeahOS.Kernel
open Lib Function List Option

/-! ### A table as a function -/

/-- The entries of a process; all zero while it has no table. -/
def slots (g : Tables) (pid : Nat) : Nat → Entry :=
  match (find g pid).bind g with
  | some t => t.entries
  | none => fun _ => Entry.zero

variable {g : Tables} {o : Objects} {pid : Nat} {generation i slot : Nat} {t : Table} {e : Entry}
  {handle : Int} {heap : Bool} {x : Info}

theorem slots_of_find (hFind : find g pid = some i) (ht : g i = some t) :
    slots g pid = t.entries := by
  simp [slots, hFind, ht]

theorem slots_of_none (hFind : find g pid = none) : slots g pid = fun _ => Entry.zero := by
  simp [slots, hFind]

/-- What a handle names, in terms of the slots. -/
theorem entryOf_eq_some_iff : entryOf g pid handle = some e ↔
    0 ≤ handle ∧ handle.toNat % 2 ^ kSlotBits < kMaxHandles ∧
      slots g pid (handle.toNat % 2 ^ kSlotBits) = e ∧ e.type ≠ .none ∧
      e.generation = handle.toNat / 2 ^ kSlotBits := by
  have hDecode : ∀ (t : Table) slot, decode t handle = some slot ↔ 0 ≤ handle ∧
      handle.toNat % 2 ^ kSlotBits < kMaxHandles ∧ handle.toNat % 2 ^ kSlotBits = slot ∧
      (t.entries slot).type ≠ .none ∧
      (t.entries slot).generation = handle.toNat / 2 ^ kSlotBits := by
    intro t slot
    unfold decode
    split
    next hNeg => exact ⟨fun h => (by cases h), fun h => absurd h.1 (Int.not_le.mpr hNeg)⟩
    next hPos =>
      simp only
      split
      next hLarge => exact ⟨fun h => (by cases h), fun h => absurd h.2.1 (Nat.not_lt.mpr hLarge)⟩
      next hSmall =>
        split
        next hDead =>
          refine ⟨fun h => (by cases h), ?_⟩
          rintro ⟨-, -, rfl, hType, hGen⟩
          exact absurd hDead (by simp [hType, hGen])
        next hLive =>
          rw [not_or, not_not] at hLive
          constructor
          · intro h
            obtain rfl := some.inj h
            exact ⟨Int.not_lt.mp hPos, Nat.not_le.mp hSmall, rfl, hLive⟩
          · rintro ⟨-, -, rfl, -⟩
            rfl
  rw [entryOf_iff]
  constructor
  · rintro ⟨i, t, slot, hFind, ht, hSlot, hEntry⟩
    obtain ⟨hPos, hLt, rfl, hType, hGen⟩ := (hDecode t slot).mp hSlot
    rw [slots_of_find hFind ht]
    subst hEntry
    exact ⟨hPos, hLt, rfl, hType, hGen⟩
  · rintro ⟨hPos, hLt, hEntry, hType, hGen⟩
    cases hFind : find g pid with
    | none =>
      -- without a table every slot is zero and names nothing
      rw [slots_of_none hFind] at hEntry
      subst hEntry
      exact absurd rfl hType
    | some i =>
      obtain ⟨t, ht, -⟩ := find_eq_some hFind
      rw [slots_of_find hFind ht] at hEntry
      subst hEntry
      exact ⟨i, t, _, rfl, ht, (hDecode t _).mpr ⟨hPos, hLt, rfl, hType, hGen⟩, rfl⟩

/-- The slot `give` would use. -/
def spare (g : Tables) (pid : Nat) : Option Nat :=
  (List.range kMaxHandles).find? fun slot => (slots g pid slot).type == .none

theorem spare_some (hSpare : spare g pid = some slot) :
    slot < kMaxHandles ∧ (slots g pid slot).type = .none := by
  have hFree := List.find?_some hSpare
  exact ⟨mem_range.mp (mem_of_find?_eq_some hSpare), by simpa using hFree⟩

theorem spare_none (hSpare : spare g pid = none) (hSlot : slot < kMaxHandles) :
    (slots g pid slot).type ≠ .none := by
  have hTaken := List.find?_eq_none.mp hSpare slot (mem_range.mpr hSlot)
  simpa using hTaken

/-- A new table is all zero, so making one changes no slot. -/
theorem slots_findOrMake {g' : Tables} (hMake : findOrMake heap g pid = (g', some i)) :
    slots g' pid = slots g pid := by
  have hFound := find_findOrMake hMake
  unfold findOrMake at hMake
  split at hMake
  · cases hMake
    rfl
  next hNone =>
  split at hMake
  · cases hMake
  split at hMake
  · cases hMake
  · cases hMake
    rw [slots_of_none hNone, slots_of_find hFound (update_self _ _ _)]

theorem slots_setEntry (hFind : find g pid = some i) (ht : g i = some t) (e : Entry) :
    slots (setEntry g i t slot e) pid = update (slots g pid) slot e := by
  have hFind' : find (setEntry g i t slot e) pid = some i := (find_setEntry ht slot e).trans hFind
  rw [slots_of_find hFind ht, slots_of_find hFind' (update_self _ _ _)]

/-- There is a table for the process, or room to make one. -/
def HasTable (heap : Bool) (g : Tables) (pid : Nat) : Prop := (findOrMake heap g pid).2.isSome = true

theorem hasTable_of_find (hFind : find g pid = some i) :
    HasTable heap g pid := by
  simp [HasTable, findOrMake, hFind]

/-- The slot a new handle takes, and its number. -/
theorem giveLocked_of_spare (how : Info → Via) (hType : x.type ≠ .none)
    (hTable : HasTable heap o.tables x.pid) (hSpare : spare o.tables x.pid = some slot) :
    (giveLocked heap o x how).2 =
        encode slot (nextGeneration (slots o.tables x.pid slot).generation) ∧
      slots (giveLocked heap o x how).1.tables x.pid = update (slots o.tables x.pid) slot
        ⟨x.type, x.rights, x.pointer,
          nextGeneration (slots o.tables x.pid slot).generation, how x⟩ ∧
      (find (giveLocked heap o x how).1.tables x.pid).isSome = true := by
  obtain ⟨i, hi⟩ := isSome_iff_exists.mp hTable
  generalize hMake : findOrMake heap o.tables x.pid = made at hi
  obtain ⟨g', j⟩ := made
  obtain rfl : j = some i := hi
  obtain ⟨t, ht, -⟩ := findOrMake_eq_some hMake
  have hFind := find_findOrMake hMake
  have hSlots := slots_findOrMake hMake
  rw [slots_of_find hFind ht] at hSlots
  unfold spare at hSpare
  rw [← hSlots] at hSpare ⊢
  unfold giveLocked
  rw [if_neg hType]
  simp only [hMake, ht, hSpare]
  refine ⟨trivial, ?_, ?_⟩
  · rw [slots_setEntry hFind ht, slots_of_find hFind ht]
  · rw [find_setEntry ht, hFind]
    rfl

/-- Without a spare slot, or a table, there is no handle and nothing changes. -/
theorem giveLocked_of_none (how : Info → Via)
    (hNone : x.type = .none ∨ ¬ HasTable heap o.tables x.pid ∨ spare o.tables x.pid = none) :
    (giveLocked heap o x how).2 = kNoHandle ∧
      slots (giveLocked heap o x how).1.tables x.pid = slots o.tables x.pid := by
  by_cases hType : x.type = .none
  · unfold giveLocked
    rw [if_pos hType]
    exact ⟨rfl, rfl⟩
  · unfold giveLocked
    rw [if_neg hType]
    generalize hMake : findOrMake heap o.tables x.pid = made
    obtain ⟨g', j⟩ := made
    cases j with
    | none =>
      have hSame : g' = o.tables := by
        unfold findOrMake at hMake
        split at hMake
        · cases hMake
        split at hMake
        · cases hMake
          rfl
        split at hMake
        · cases hMake
          rfl
        · cases hMake
      rw [hSame]
      exact ⟨rfl, rfl⟩
    | some i =>
      obtain ⟨t, ht, -⟩ := findOrMake_eq_some hMake
      have hSlots := slots_findOrMake hMake
      have hTable : HasTable heap o.tables x.pid := by simp [HasTable, hMake]
      have hSpare : spare o.tables x.pid = none := by
        rcases hNone with h | h | h
        · exact absurd h hType
        · exact absurd hTable h
        · exact h
      unfold spare at hSpare
      rw [← hSlots, slots_of_find (find_findOrMake hMake) ht] at hSpare
      simp only [ht, hSpare]
      exact ⟨trivial, hSlots⟩

/-- `close` empties the slot its handle names. -/
theorem close_of_entry (he : entryOf o.tables pid handle = some e) :
    (close o pid handle).2 = true ∧ slots (close o pid handle).1.tables pid =
        update (slots o.tables pid) (handle.toNat % 2 ^ kSlotBits)
          { e with type := .none, rights := 0, pointer := 0 } ∧
      find (close o pid handle).1.tables pid = find o.tables pid := by
  obtain ⟨i, t, slot, hFind, ht, hDecode, rfl⟩ := entryOf_iff.mp he
  have hLow := (decode_eq_some hDecode).2.1
  have hResolve := resolve_iff.mpr ⟨hFind, ht, hDecode⟩
  unfold close
  simp only [hResolve]
  rw [hLow]
  exact ⟨trivial, slots_setEntry hFind ht _, find_setEntry ht slot _⟩

theorem close_of_none (he : entryOf o.tables pid handle = none) :
    close o pid handle = (o, false) := by
  have hResolve : resolve o.tables pid handle = none := by
    exact map_eq_none_iff.mp he
  unfold close
  rw [hResolve]

/-! ### Numbers -/

theorem encode_eq_packed (slot generation : Nat) :
    encode slot generation = packed kSlotBits slot generation := rfl

/-- A generation below `2 ^ 21` can be read back from its handle. -/
theorem encode_spec (hSlot : slot < kMaxHandles) (hGen : generation < 2 ^ 21) :
    0 ≤ encode slot generation ∧
      (encode slot generation).toNat % 2 ^ kSlotBits = slot ∧
      (encode slot generation).toNat / 2 ^ kSlotBits = generation := by
  have hBits : slot < 2 ^ kSlotBits := hSlot.trans (by decide)
  have hPos : 0 ≤ encode slot generation := packed_nonneg (by decide) hBits hGen
  exact ⟨hPos, packed_slot (by decide) hBits hPos, packed_generation (by decide) hBits hGen⟩

/-- A handle that is not negative is made of its slot and its generation. -/
theorem encode_of_nonneg (hPos : 0 ≤ handle) (hGen : handle.toNat / 2 ^ kSlotBits < 2 ^ 21) :
    encode (handle.toNat % 2 ^ kSlotBits) (handle.toNat / 2 ^ kSlotBits) = handle := by
  rw [encode_eq_packed, packed_of_lt (by decide) (Nat.mod_lt _ (by decide)) hGen,
    Nat.div_add_mod', Int.toNat_of_nonneg hPos]

theorem nextGeneration_of_lt (hGen : generation + 1 < 2 ^ 21) :
    nextGeneration generation = generation + 1 := by
  have hSame : (generation + 1) % 2 ^ 32 = generation + 1 := Nat.mod_eq_of_lt (by omega)
  rw [nextGeneration, hSame, if_neg (Nat.succ_ne_zero _)]

/-! ### One process -/

/-- What the process has done to its handles. -/
inductive HandleCall
  | give (heap : Bool) (type : ObjType) (pointer rights tag : Nat)
  | duplicate (heap : Bool) (handle : Int) (mask : Nat)
  | close (handle : Int)

/-- The tables, the handles the process holds with what each was given for, and the numbers it
has closed. -/
structure Life where
  objects : Objects
  holding : List (Int × Info)
  closed : List Int

namespace Life

/-- What `duplicate` is asked to make. -/
def copyOf (g : Tables) (pid : Nat) (handle : Int) (mask : Nat) : Info :=
  match entryOf g pid handle with
  | some e => ⟨pid, e.type, e.pointer, e.rights &&& mask, e.via.info.tag⟩
  | none => ⟨pid, .none, 0, 0, 0⟩

/-- A handle was returned for `x`, unless there was none. -/
def handed (l : Life) (r : Objects × Int) (x : Info) : Life where
  objects := r.1
  holding := if r.2 = kNoHandle then l.holding else l.holding ++ [(r.2, x)]
  closed := l.closed

def next (pid : Nat) (l : Life) : HandleCall → Life
  | .give heap type pointer rights tag =>
    l.handed (give heap l.objects ⟨pid, type, pointer, rights, tag⟩)
      ⟨pid, type, pointer, rights, tag⟩
  | .duplicate heap handle mask =>
    l.handed (duplicate heap l.objects pid handle mask) (copyOf l.objects.tables pid handle mask)
  | .close handle =>
    let r := close l.objects pid handle
    if r.2 then
      ⟨r.1, l.holding.filter fun held => decide (held.1 ≠ handle), l.closed ++ [handle]⟩
    else { l with objects := r.1 }

/-- The steps of the process. -/
def Step (pid : Nat) (l : Life) (e : HandleCall) (l' : Life) : Prop := l' = l.next pid e

/-- The process has just been made: it has no table yet. -/
def Born (pid : Nat) (l : Life) : Prop :=
  find l.objects.tables pid = none ∧ l.holding = [] ∧ l.closed = []

/-- Every handle held names what it was given for, no closed one names anything, and `give`
fails only when every slot is taken or there can be no table. -/
structure Sound (pid : Nat) (l : Life) : Prop where
  held : ∀ handle x, (handle, x) ∈ l.holding → 0 ≤ handle ∧
    ∃ e, entryOf l.objects.tables pid handle = some e ∧ e.type = x.type ∧
      e.pointer = x.pointer ∧ e.rights = x.rights
  gone : ∀ handle ∈ l.closed, entryOf l.objects.tables pid handle = none
  room : ∀ heap type pointer rights tag, type ≠ .none →
    (give heap l.objects ⟨pid, type, pointer, rights, tag⟩).2 = kNoHandle →
    (∀ slot, slot < kMaxHandles → (slots l.objects.tables pid slot).type ≠ .none) ∨
      ¬ HasTable heap l.objects.tables pid

/-- No slot of the process has been given out `2 ^ 21 - 1` times. -/
def Fresh (pid : Nat) (l : Life) : HandleCall → Prop
  | .close _ => True
  | _ => ∀ slot, slot < kMaxHandles → (slots l.objects.tables pid slot).generation + 1 < 2 ^ 21

instance (pid : Nat) (l : Life) (e : HandleCall) : Decidable (l.Fresh pid e) := by
  cases e with
  | give | duplicate => exact Nat.decidableBallLT _ _
  | close handle => exact isTrue trivial

/-- The numbers held are the current ones of their slots, the numbers closed are past ones. -/
structure Inv (pid : Nat) (l : Life) : Prop where
  small : ∀ slot, slot < kMaxHandles → (slots l.objects.tables pid slot).generation < 2 ^ 21
  holding : ∀ handle x, (handle, x) ∈ l.holding → ∃ slot, slot < kMaxHandles ∧
    handle = encode slot (slots l.objects.tables pid slot).generation ∧
    (slots l.objects.tables pid slot).type ≠ .none ∧
    (slots l.objects.tables pid slot).type = x.type ∧
    (slots l.objects.tables pid slot).pointer = x.pointer ∧
    (slots l.objects.tables pid slot).rights = x.rights
  closed : ∀ handle ∈ l.closed, ∃ slot generation, slot < kMaxHandles ∧ generation < 2 ^ 21 ∧
    handle = encode slot generation ∧ (generation < (slots l.objects.tables pid slot).generation ∨
      generation = (slots l.objects.tables pid slot).generation ∧
        (slots l.objects.tables pid slot).type = .none)

variable {l : Life}

theorem inv_born (hBorn : l.Born pid) : l.Inv pid := by
  obtain ⟨hFind, hHolding, hClosed⟩ := hBorn
  constructor
  · intro slot _
    rw [slots_of_none hFind]
    exact Nat.two_pow_pos 21
  · rw [hHolding]
    exact fun handle x hMem => absurd hMem not_mem_nil
  · rw [hClosed]
    exact fun handle hMem => absurd hMem not_mem_nil

variable {x : Info} {n : Nat}

/-- A handle put into an empty slot, under the next generation. -/
theorem Inv.giveLocked (hInv : l.Inv pid) (hFresh : ∀ slot, slot < kMaxHandles →
      (slots l.objects.tables pid slot).generation + 1 < 2 ^ 21) (heap : Bool) (hPid : x.pid = pid)
    (how : Info → Via) :
    (l.handed (Kernel.giveLocked heap l.objects x how) x).Inv pid := by
  subst hPid
  by_cases hNone : x.type = .none ∨ ¬ HasTable heap l.objects.tables x.pid ∨
      spare l.objects.tables x.pid = none
  · obtain ⟨hNo, hSame⟩ := giveLocked_of_none how hNone
    simp only [handed, if_pos hNo]
    exact ⟨by rw [hSame]; exact hInv.small, by rw [hSame]; exact hInv.holding,
      by rw [hSame]; exact hInv.closed⟩
  · rw [not_or, not_or, not_not] at hNone
    obtain ⟨hType, hTable, hSome⟩ := hNone
    obtain ⟨slot, hSpare⟩ := ne_none_iff_exists'.mp hSome
    obtain ⟨hSlot, hFree⟩ := spare_some hSpare
    obtain ⟨hHandle, hSlots, -⟩ := giveLocked_of_spare how hType hTable hSpare
    rw [nextGeneration_of_lt (hFresh slot hSlot)] at hHandle hSlots
    have hNew := hFresh slot hSlot
    have hPos := (encode_spec hSlot hNew).1
    have hSome : ¬ (Kernel.giveLocked heap l.objects x how).2 = kNoHandle := by
      rw [hHandle]
      intro hEq
      rw [hEq] at hPos
      exact absurd hPos (by decide)
    simp only [handed, if_neg hSome]
    constructor
    · intro i hi
      rw [hSlots]
      by_cases hEq : i = slot
      · subst hEq
        simpa using hNew
      · rw [update_of_ne hEq]
        exact hInv.small i hi
    · intro handle y hMem
      rw [hSlots]
      rcases mem_append.mp hMem with hOld | hLast
      · -- a handle that is held is not in the empty slot
        obtain ⟨i, hi, hIs, hLive, hRest⟩ := hInv.holding handle y hOld
        have hNe : i ≠ slot := by
          rintro rfl
          exact hLive hFree
        refine ⟨i, hi, ?_⟩
        rw [update_of_ne hNe]
        exact ⟨hIs, hLive, hRest⟩
      · obtain ⟨rfl, rfl⟩ := Prod.mk.inj (mem_singleton.mp hLast)
        refine ⟨slot, hSlot, ?_⟩
        rw [update_self]
        exact ⟨hHandle, hType, rfl, rfl, rfl⟩
    · intro handle hMem
      obtain ⟨i, generation, hi, hGen, hIs, hPast⟩ := hInv.closed handle hMem
      refine ⟨i, generation, hi, hGen, hIs, ?_⟩
      rw [hSlots]
      by_cases hEq : i = slot
      · subst hEq
        rw [update_self]
        left
        rcases hPast with hLt | ⟨rfl, -⟩
        · exact Nat.lt_succ_of_lt hLt
        · exact Nat.lt_succ_self _
      · rw [update_of_ne hEq]
        exact hPast

theorem Inv.close (hInv : l.Inv pid) (handle : Int) : (l.next pid (.close handle)).Inv pid := by
  cases he : entryOf l.objects.tables pid handle with
  | none =>
    simp only [next, close_of_none he, Bool.false_eq_true, if_false]
    exact hInv
  | some e =>
    obtain ⟨hTrue, hSlots, -⟩ := close_of_entry he
    obtain ⟨hPos, hSlot, hEntry, hLive, hGen⟩ := entryOf_eq_some_iff.mp he
    generalize hPlace : handle.toNat % 2 ^ kSlotBits = slot at hSlots hSlot hEntry
    have hSmall := hInv.small slot hSlot
    have hIs : handle = encode slot e.generation := by
      rw [hEntry, hGen] at hSmall
      rw [← hPlace, hGen]
      exact (encode_of_nonneg hPos hSmall).symm
    rw [hEntry] at hSmall
    simp only [next, hTrue, if_true]
    constructor
    · intro i hi
      rw [hSlots]
      by_cases hEq : i = slot
      · subst hEq
        simpa using hSmall
      · rw [update_of_ne hEq]
        exact hInv.small i hi
    · intro other x hMem
      obtain ⟨hOld, hOther⟩ := mem_filter.mp hMem
      obtain ⟨i, hi, hIs', hRest⟩ := hInv.holding other x hOld
      have hNe : i ≠ slot := by
        rintro rfl
        rw [hEntry] at hIs'
        exact absurd (hIs'.trans hIs.symm) (by simpa using hOther)
      refine ⟨i, hi, ?_⟩
      rw [hSlots, update_of_ne hNe]
      exact ⟨hIs', hRest⟩
    · intro other hMem
      rw [hSlots]
      rcases mem_append.mp hMem with hOld | hLast
      · obtain ⟨i, generation, hi, hGen', hIs', hPast⟩ := hInv.closed other hOld
        refine ⟨i, generation, hi, hGen', hIs', ?_⟩
        by_cases hEq : i = slot
        · subst hEq
          rw [update_self]
          rw [hEntry] at hPast
          rcases hPast with hLt | ⟨hSame, -⟩
          · exact .inl hLt
          · exact .inr ⟨hSame, rfl⟩
        · rw [update_of_ne hEq]
          exact hPast
      · obtain rfl := mem_singleton.mp hLast
        refine ⟨slot, e.generation, hSlot, hSmall, hIs, .inr ?_⟩
        rw [update_self]
        exact ⟨rfl, rfl⟩

theorem inv_next (hInv : l.Inv pid) {e : HandleCall} (hFresh : l.Fresh pid e) :
    (l.next pid e).Inv pid := by
  cases e with
  | give heap type pointer rights tag => exact hInv.giveLocked hFresh heap rfl Via.given
  | duplicate heap handle mask =>
    cases he : entryOf l.objects.tables pid handle with
    | none =>
      simp only [next, duplicate, he, handed, if_true]
      exact { hInv with }
    | some e =>
      simp only [next, duplicate, copyOf, he]
      split
      · simp only [handed, if_true]
        exact { hInv with }
      · exact hInv.giveLocked hFresh heap
          (x := ⟨pid, e.type, e.pointer, e.rights &&& mask, e.via.info.tag⟩) rfl _
  | close handle => exact hInv.close handle

/-- No number that is given out looks like a failure. -/
theorem encode_ne_noHandle {slot : Nat} (hSlot : slot < kMaxHandles) (generation : Nat) :
    encode slot generation ≠ kNoHandle :=
  packed_ne_neg_one (by decide) (hSlot.trans (by decide)) (Nat.lt_of_le_of_lt hSlot (by decide))

theorem room_of_give {heap : Bool} (hType : x.type ≠ .none) (hNo : (give heap o x).2 = kNoHandle) :
    (∀ slot, slot < kMaxHandles → (slots o.tables x.pid slot).type ≠ .none) ∨
      ¬ HasTable heap o.tables x.pid := by
  by_cases hTable : HasTable heap o.tables x.pid
  · left
    intro slot hSlot
    cases hSpare : spare o.tables x.pid with
    | none => exact spare_none hSpare hSlot
    | some i =>
      have hHandle := (giveLocked_of_spare Via.given hType hTable hSpare).1
      exact absurd (hHandle.symm.trans hNo) (encode_ne_noHandle (spare_some hSpare).1 _)
  · exact .inr hTable

theorem sound_of_inv (hInv : l.Inv pid) : l.Sound pid where
  held handle x hMem := by
    obtain ⟨slot, hSlot, rfl, hLive, hType, hPointer, hRights⟩ := hInv.holding handle x hMem
    obtain ⟨hPos, hLow, hHigh⟩ := encode_spec hSlot (hInv.small slot hSlot)
    refine ⟨hPos, slots l.objects.tables pid slot, ?_, hType, hPointer, hRights⟩
    rw [entryOf_eq_some_iff, hLow, hHigh]
    exact ⟨hPos, hSlot, rfl, hLive, rfl⟩
  gone handle hMem := by
    obtain ⟨slot, generation, hSlot, hGen, rfl, hPast⟩ := hInv.closed handle hMem
    obtain ⟨-, hLow, hHigh⟩ := encode_spec hSlot hGen
    rw [eq_none_iff_forall_ne_some]
    intro e he
    rw [entryOf_eq_some_iff, hLow, hHigh] at he
    obtain ⟨-, -, rfl, hLive, hSame⟩ := he
    rcases hPast with hLt | ⟨-, hFree⟩
    · exact Nat.ne_of_gt hLt hSame
    · exact hLive hFree
  room _ _ _ _ _ hType hNo := room_of_give hType hNo

/-- In every run of a process that gives out no slot more than `2 ^ 21 - 1` times, no handle is
confused with another. -/
theorem sound_of_fresh {l₀ l : Life} {es : List HandleCall} (hBorn : l₀.Born pid)
    (hRun : Run (Restrict (Fresh pid) (Step pid)) l₀ es l) : l.Sound pid := by
  have hStep : ∀ l e l', Inv pid l → Restrict (Fresh pid) (Step pid) l e l' → Inv pid l' := by
    rintro l e _ hInv ⟨hFresh, rfl⟩
    exact inv_next hInv hFresh
  exact sound_of_inv (hRun.invariant hStep (inv_born hBorn))

/-! ### A server that recycles one slot -/

/-- The process is given an object and closes it, again and again; the `n`-th handle has the
generation `n` of the slot 0. -/
def recycle : Nat → List HandleCall
  | 0 => []
  | n + 1 => recycle n ++ [.give true .port 1 kRead 0, .close (encode 0 (n + 1))]

/-- No slot is in use, and the slot 0 has been given out this often. -/
structure Recycled (pid n : Nat) (l : Life) : Prop where
  table : HasTable true l.objects.tables pid
  vacant : ∀ slot, (slots l.objects.tables pid slot).type = .none
  zero : (slots l.objects.tables pid 0).generation = n

theorem spare_of_vacant (hVacant : ∀ slot, (slots g pid slot).type = .none) :
    spare g pid = some 0 := by
  unfold spare
  rw [show kMaxHandles = 127 + 1 from rfl, range_succ_eq_map, List.find?_cons]
  simp [hVacant 0]

/-- The next handle, and the slots after it. -/
theorem Recycled.give (hl : Recycled pid n l) :
    (Kernel.give true l.objects ⟨pid, .port, 1, kRead, 0⟩).2 = encode 0 (nextGeneration n) ∧
      slots (Kernel.give true l.objects ⟨pid, .port, 1, kRead, 0⟩).1.tables pid =
        update (slots l.objects.tables pid) 0
          ⟨.port, kRead, 1, nextGeneration n, .given ⟨pid, .port, 1, kRead, 0⟩⟩ ∧
      (find (Kernel.give true l.objects ⟨pid, .port, 1, kRead, 0⟩).1.tables pid).isSome = true := by
  have hGive := giveLocked_of_spare Via.given (x := ⟨pid, .port, 1, kRead, 0⟩)
    ObjType.noConfusion hl.table (spare_of_vacant hl.vacant)
  rw [hl.zero] at hGive
  exact hGive

theorem Recycled.again (hl : Recycled pid n l) (hn : n + 1 < 2 ^ 21) :
    Recycled pid (n + 1) ((l.next pid (.give true .port 1 kRead 0)).next pid
      (.close (encode 0 (n + 1)))) := by
  obtain ⟨-, hSlots, hFind⟩ := hl.give
  rw [nextGeneration_of_lt hn] at hSlots
  have hObjects : (l.next pid (.give true .port 1 kRead 0)).objects =
      (Kernel.give true l.objects ⟨pid, .port, 1, kRead, 0⟩).1 := rfl
  generalize l.next pid (.give true .port 1 kRead 0) = l' at hObjects
  rw [← hObjects] at hSlots hFind
  obtain ⟨hPos, hLow, hHigh⟩ := encode_spec (show 0 < kMaxHandles by decide) hn
  have he : entryOf l'.objects.tables pid (encode 0 (n + 1)) =
      some ⟨.port, kRead, 1, n + 1, .given ⟨pid, .port, 1, kRead, 0⟩⟩ := by
    rw [entryOf_eq_some_iff, hLow, hHigh, hSlots, update_self]
    exact ⟨hPos, by decide, rfl, ObjType.noConfusion, rfl⟩
  obtain ⟨hTrue, hAfter, hSame⟩ := close_of_entry he
  rw [hLow, hSlots, update_idem] at hAfter
  have hNext : (l'.next pid (.close (encode 0 (n + 1)))).objects =
      (Kernel.close l'.objects pid (encode 0 (n + 1))).1 := by
    simp only [next, hTrue, if_true]
  constructor
  · obtain ⟨i, hi⟩ := isSome_iff_exists.mp hFind
    rw [hNext]
    exact hasTable_of_find (hSame.trans hi)
  · intro slot
    rw [hNext, hAfter]
    by_cases hEq : slot = 0
    · rw [hEq, update_self]
    · rw [update_of_ne hEq]
      exact hl.vacant slot
  · rw [hNext, hAfter, update_self]

theorem recycle_run {l₀ : Life} (hStart : Recycled pid 0 l₀) (n : Nat) (hn : n < 2 ^ 21) :
    ∃ l, Run (Step pid) l₀ (recycle n) l ∧ Recycled pid n l := by
  induction n with
  | zero => exact ⟨l₀, .nil _, hStart⟩
  | succ n ih =>
    obtain ⟨l, hRun, hl⟩ := ih (Nat.lt_of_succ_lt hn)
    exact ⟨_, hRun.append (.cons rfl (.cons rfl (.nil _))), hl.again hn⟩

/-- The machine after `init`, before the process has asked for anything. -/
def newborn : Life := ⟨⟨fun _ => none, []⟩, [], []⟩

theorem recycled_newborn : Recycled 1 0 newborn := by
  have hFind : find newborn.objects.tables 1 = none := by decide +kernel
  constructor
  · unfold HasTable
    decide +kernel
  · intro slot
    rfl
  · rw [slots_of_none hFind]
    rfl

/-- The handle number `2 ^ 21` of the slot is negative. -/
theorem not_sound_recycle :
    ¬ ∀ pid l₀ l es, Born pid l₀ → Run (Step pid) l₀ es l → l.Sound pid := by
  intro hAll
  have hBorn : Born 1 newborn := ⟨by decide +kernel, rfl, rfl⟩
  obtain ⟨es, l, hRun, hl⟩ : ∃ es l, Run (Step 1) newborn es l ∧ Recycled 1 (2 ^ 21 - 1) l :=
    ⟨_, recycle_run recycled_newborn (2 ^ 21 - 1) (by decide)⟩
  have hSound := hAll 1 _ _ _ hBorn (hRun.snoc (e := .give true .port 1 kRead 0) rfl)
  have hNeg : encode 0 (2 ^ 21) < 0 := by
    rw [encode_eq_packed]
    exact packed_neg (by decide) (by decide)
  have hNext : nextGeneration (2 ^ 21 - 1) = 2 ^ 21 := by decide
  have hHandle := hl.give.1
  rw [hNext] at hHandle
  have hSome : ¬ encode 0 (2 ^ 21) = kNoHandle := encode_ne_noHandle (by decide) _
  have hMem : (encode 0 (2 ^ 21), (⟨1, .port, 1, kRead, 0⟩ : Info)) ∈
      (l.next 1 (.give true .port 1 kRead 0)).holding := by
    simp only [next, handed, hHandle, if_neg hSome]
    exact mem_append_right _ (mem_singleton.mpr rfl)
  exact absurd (hSound.held _ _ hMem).1 (Int.not_le.mpr hNeg)

/-- Two handles, one of them closed and its slot used again. -/
def reuse : List HandleCall :=
  [.give true .port 5 (kRead ||| kDuplicate) 0, .duplicate true (encode 0 1) kRead,
    .close (encode 0 1), .give true .shm 6 kRead 1, .close (encode 0 1)]

theorem sound_reuse : ∃ l, Run (Restrict (Fresh 1) (Step 1)) newborn reuse l ∧ l.Sound 1 := by
  obtain ⟨l, hRun, -⟩ : ∃ l, Run (Restrict (Fresh 1) (Step 1)) newborn reuse l ∧ True :=
    Run.exists_of_guarded (fun _ _ _ h => (some.inj h).symm)
      (by decide +kernel)
  exact ⟨l, hRun, sound_of_fresh ⟨by decide +kernel, rfl, rfl⟩ hRun⟩

end Life
end LeahOS.Kernel
