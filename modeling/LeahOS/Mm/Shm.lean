import LeahOS.Lib.Packed
import LeahOS.Lib.Run

/-!
# Shared memory segments and their ids (`kernel/mm/shm.cpp`)

The segments stand in a table of 512 slots, and `open`, `destroy` and `abandon` run under one
lock, so each is one step. An id is a slot and the generation the slot was claimed under, one
counter for all slots. Whether `allocate` gets its frames is part of the call (`room`); which
frames they are is the business of the ledger of `Mm.System`.

Two fields are ghosts. `serial` numbers the segments in the order they were made, so that "the
same segment" means something after its slot has been used again, and `returned` is the list of
the ids `open` has given out, each with the segment it was given out for. No definition
branches on them.
-/

namespace LeahOS.Mm
open Lib Function List Option

/-- `shm::kMaxSegments`. -/
def kMaxSegments : Nat := 512

/-- `kSlotBits` of `shm.cpp`. -/
def kShmSlotBits : Nat := 10

/-- `shm::Public`. -/
def kShmPublic : Nat := 1

structure Segment where
  used : Bool
  generation : Nat
  key : Nat
  ownerUid : Nat
  ownerPid : Nat
  bytes : Nat
  flags : Nat
  pages : Nat
  serial : Nat

/-- A zeroed slot. -/
def Segment.zero : Segment := ⟨false, 0, 0, 0, 0, 0, 0, 0, 0⟩

/-- The globals of `shm.cpp`. -/
structure Shm where
  segments : Nat → Segment
  nextGeneration : Nat
  serials : Nat
  returned : List (Int × Nat)

/-- What `open` is asked: who asks, and whether there will be memory. -/
structure ShmRequest where
  key : Nat
  bytes : Nat
  uid : Nat
  flags : Nat
  pid : Nat
  room : Bool

namespace Shm

def makeId (slot generation : Nat) : Int := packed kShmSlotBits slot generation

def slotOf (s : Shm) (id : Int) : Option Nat :=
  if id < 0 then none
  else
    let slot := id.toNat % 2 ^ kShmSlotBits
    let generation := id.toNat / 2 ^ kShmSlotBits
    if kMaxSegments ≤ slot then none
    else if (s.segments slot).used = false ∨ (s.segments slot).generation ≠ generation then none
    else some slot

/-- `accessible_locked`. -/
def accessible (s : Shm) (id : Int) (uid : Nat) : Bool :=
  match s.slotOf id with
  | none => false
  | some slot =>
    decide (uid = 0 ∨ uid = (s.segments slot).ownerUid ∨ (s.segments slot).flags &&& kShmPublic ≠ 0)

/-- The slot of the segment with this key. -/
def keyed (s : Shm) (key : Nat) : Option Nat :=
  (List.range kMaxSegments).find? fun i => (s.segments i).used && (s.segments i).key == key

/-- The first slot that is not in use. -/
def vacant (s : Shm) : Option Nat :=
  (List.range kMaxSegments).find? fun i => !(s.segments i).used

/-- The pages that hold so many bytes; the addition wraps. -/
def pagesOf (bytes : Nat) : Nat := (bytes + 4095) % 2 ^ 64 / 4096

/-- The segment `open` makes of a request, before and after `allocate`. -/
def claimed (s : Shm) (r : ShmRequest) : Segment where
  used := r.room
  generation := s.nextGeneration
  key := r.key
  ownerUid := r.uid
  ownerPid := r.pid
  bytes := r.bytes
  flags := r.flags
  pages := if r.room then pagesOf r.bytes else 0
  serial := s.serials

/-- The slot is claimed and filled, or given back when there is no memory. -/
def claim (s : Shm) (slot : Nat) (r : ShmRequest) : Shm :=
  { s with
    segments := update s.segments slot (s.claimed r)
    nextGeneration := (s.nextGeneration + 1) % 2 ^ 32
    serials := s.serials + 1 }

/-- `open`, up to the id: the slot of the segment it opens. -/
def openSlot (s : Shm) (r : ShmRequest) : Shm × Option Nat :=
  if r.key = 0 then (s, none)
  else
    match s.keyed r.key with
    | some i =>
      -- the segment is complete: it was filled under the same lock
      if s.accessible (makeId i (s.segments i).generation) r.uid = false then (s, none)
      else if (s.segments i).pages = 0 then (s, none)
      else (s, some i)
    | none =>
      if r.bytes = 0 then (s, none)
      else if pagesOf r.bytes = 0 ∨ 4096 < pagesOf r.bytes then (s, none)
      else
        match s.vacant with
        | none => (s, none)
        | some i => (s.claim i r, if r.room then some i else none)

/-- The id of the segment in a slot, noted as given out. -/
def issue (s : Shm) (slot : Nat) : Shm × Int :=
  let id := makeId slot (s.segments slot).generation
  ({ s with returned := s.returned ++ [(id, (s.segments slot).serial)] }, id)

/-- `open`. -/
def openSegment (s : Shm) (r : ShmRequest) : Shm × Int :=
  match s.openSlot r with
  | (s', none) => (s', -1)
  | (s', some slot) => s'.issue slot

def destroy (s : Shm) (id : Int) (uid : Nat) : Shm × Bool :=
  match s.slotOf id with
  | none => (s, false)
  | some slot =>
    if uid ≠ 0 ∧ uid ≠ (s.segments slot).ownerUid then (s, false)
    else ({ s with segments := update s.segments slot Segment.zero }, true)

/-- `abandon`: what a process made goes with it. -/
def abandon (s : Shm) (pid : Nat) : Shm :=
  { s with
    segments := fun i =>
      if (s.segments i).used = true ∧ (s.segments i).ownerPid = pid then Segment.zero
      else s.segments i }

/-- A call from outside. -/
inductive Call
  | openSegment (r : ShmRequest)
  | destroy (id : Int) (uid : Nat)
  | abandon (pid : Nat)

def next (s : Shm) : Call → Shm
  | .openSegment r => (s.openSegment r).1
  | .destroy id uid => (s.destroy id uid).1
  | .abandon pid => s.abandon pid

def init : Shm := ⟨fun _ => Segment.zero, 1, 0, []⟩

/-- The steps of the table. -/
def Step (s : Shm) (e : Call) (s' : Shm) : Prop := s' = s.next e

/-- Every id given out names its segment as long as there is that segment, and nothing else
ever; and a request for a new segment fails only for want of a slot or of memory. -/
structure Sound (s : Shm) : Prop where
  nonneg : ∀ id serial, (id, serial) ∈ s.returned → 0 ≤ id
  finds : ∀ id serial, (id, serial) ∈ s.returned → ∀ slot, slot < kMaxSegments →
    (s.segments slot).used = true → (s.segments slot).serial = serial → s.slotOf id = some slot
  only : ∀ id serial, (id, serial) ∈ s.returned → ∀ slot, s.slotOf id = some slot →
    (s.segments slot).serial = serial
  room : ∀ r : ShmRequest, r.key ≠ 0 →
    (∀ i, i < kMaxSegments → (s.segments i).used = true → (s.segments i).key ≠ r.key) →
    0 < r.bytes → r.bytes ≤ 4096 * 4096 → (s.openSegment r).2 = -1 →
    (∀ i, i < kMaxSegments → (s.segments i).used = true) ∨ r.room = false

/-- The counter of generations has not reached the bit that becomes the sign of an id. -/
def Young (s : Shm) : Call → Prop
  | .openSegment _ => s.nextGeneration < 2 ^ 21
  | _ => True

instance (s : Shm) (e : Call) : Decidable (s.Young e) := by
  cases e <;> unfold Young <;> infer_instance

/-! ### What the ids say -/

variable {generation i slot : Nat} {r : ShmRequest}

theorem slotOf_makeId (s : Shm) (hSlot : slot < kMaxSegments) (hGen : generation < 2 ^ 21) :
    s.slotOf (makeId slot generation) =
      if (s.segments slot).used = true ∧ (s.segments slot).generation = generation then some slot
      else none := by
  have hBits : slot < 2 ^ kShmSlotBits := hSlot.trans (by decide)
  have hPos : 0 ≤ makeId slot generation := packed_nonneg (by decide) hBits hGen
  have hLow : (makeId slot generation).toNat % 2 ^ kShmSlotBits = slot :=
    packed_slot (by decide) hBits hPos
  have hHigh : (makeId slot generation).toNat / 2 ^ kShmSlotBits = generation :=
    packed_generation (by decide) hBits hGen
  unfold slotOf
  rw [if_neg (Int.not_lt.mpr hPos), hLow, hHigh]
  simp only [if_neg (Nat.not_le.mpr hSlot)]
  by_cases hUsed : (s.segments slot).used = true
  · by_cases hSame : (s.segments slot).generation = generation
    · rw [if_neg (by simp [hUsed, hSame]), if_pos ⟨hUsed, hSame⟩]
    · rw [if_pos (.inr hSame), if_neg fun h => hSame h.2]
  · rw [if_pos (.inl (Bool.eq_false_iff.mpr hUsed)), if_neg fun h => hUsed h.1]

/-- The generations of the segments lie below the counter, and each id that was given out tells
its segment from every other one. -/
structure Inv (s : Shm) : Prop where
  young : s.nextGeneration ≤ 2 ^ 21
  live : ∀ i, (s.segments i).used = true →
    (s.segments i).generation < s.nextGeneration ∧ (s.segments i).serial < s.serials
  distinct : ∀ i j, (s.segments i).used = true → (s.segments j).used = true →
    (s.segments i).serial = (s.segments j).serial → i = j
  issued : ∀ id serial, (id, serial) ∈ s.returned → ∃ slot generation, slot < kMaxSegments ∧
    generation < s.nextGeneration ∧ id = makeId slot generation ∧ serial < s.serials ∧
    ∀ i, (s.segments i).used = true →
      ((s.segments i).serial = serial ↔ i = slot ∧ (s.segments i).generation = generation)

theorem inv_init : Inv init where
  young := by decide
  live _ hUsed := Bool.noConfusion hUsed
  distinct _ _ hUsed := Bool.noConfusion hUsed
  issued _ _ hMem := absurd hMem not_mem_nil

variable {s : Shm}

/-- Segments may go at any time. -/
theorem Inv.forget (hInv : s.Inv) (segments : Nat → Segment)
    (hKept : ∀ i, (segments i).used = true → segments i = s.segments i) :
    Inv { s with segments := segments } := by
  have hUsed : ∀ i, (segments i).used = true → (s.segments i).used = true :=
    fun i h => hKept i h ▸ h
  constructor
  · exact hInv.young
  · intro i hi
    simp only [hKept i hi]
    exact hInv.live i (hUsed i hi)
  · intro i j hi hj
    simp only [hKept i hi, hKept j hj]
    exact hInv.distinct i j (hUsed i hi) (hUsed j hj)
  · intro id serial hMem
    obtain ⟨slot, generation, hSlot, hGen, hId, hSerial, hIff⟩ := hInv.issued id serial hMem
    refine ⟨slot, generation, hSlot, hGen, hId, hSerial, fun i hi => ?_⟩
    simp only [hKept i hi]
    exact hIff i (hUsed i hi)

theorem vacant_some (hVacant : s.vacant = some i) :
    i < kMaxSegments ∧ (s.segments i).used = false := by
  have hMem := mem_of_find?_eq_some hVacant
  have hFree := List.find?_some hVacant
  exact ⟨mem_range.mp hMem, by simpa using hFree⟩

/-- A new segment has a generation and a serial no one has had before. -/
theorem Inv.claim (hInv : s.Inv) (hYoung : s.nextGeneration < 2 ^ 21)
    (hFree : (s.segments slot).used = false) (r : ShmRequest) : Inv (s.claim slot r) := by
  have hNext : (s.claim slot r).nextGeneration = s.nextGeneration + 1 :=
    Nat.mod_eq_of_lt (by omega)
  have hOther : ∀ i, i ≠ slot → (s.claim slot r).segments i = s.segments i :=
    fun i hi => update_of_ne hi _ _
  have hAt : (s.claim slot r).segments slot = s.claimed r := update_self _ _ _
  constructor
  · rw [hNext]
    exact hYoung
  · intro i hUsed
    rw [hNext]
    by_cases hi : i = slot
    · subst hi
      rw [hAt]
      exact ⟨Nat.lt_succ_self _, Nat.lt_succ_self _⟩
    · rw [hOther i hi] at hUsed ⊢
      obtain ⟨hGen, hSerial⟩ := hInv.live i hUsed
      exact ⟨Nat.lt_succ_of_lt hGen, Nat.lt_succ_of_lt hSerial⟩
  · intro i j hi hj hSame
    by_cases hiSlot : i = slot
    · by_cases hjSlot : j = slot
      · exact hiSlot.trans hjSlot.symm
      · subst hiSlot
        rw [hAt, hOther j hjSlot] at hSame
        rw [hOther j hjSlot] at hj
        exact absurd hSame.symm (Nat.ne_of_lt (hInv.live j hj).2)
    · rw [hOther i hiSlot] at hi hSame
      by_cases hjSlot : j = slot
      · subst hjSlot
        rw [hAt] at hSame
        exact absurd hSame (Nat.ne_of_lt (hInv.live i hi).2)
      · rw [hOther j hjSlot] at hj hSame
        exact hInv.distinct i j hi hj hSame
  · intro id serial hMem
    obtain ⟨place, generation, hPlace, hGen, hId, hSerial, hIff⟩ := hInv.issued id serial hMem
    refine ⟨place, generation, hPlace, by omega, hId, Nat.lt_succ_of_lt hSerial, fun i hUsed => ?_⟩
    by_cases hi : i = slot
    · -- the new segment is no one's old one, and its generation is no old one either
      subst hi
      rw [hAt]
      constructor
      · intro hSame
        exact absurd hSame.symm (Nat.ne_of_lt hSerial)
      · rintro ⟨-, hSame⟩
        exact absurd hSame.symm (Nat.ne_of_lt hGen)
    · rw [hOther i hi] at hUsed ⊢
      exact hIff i hUsed

/-- An id of a segment that is there may be given out again. -/
theorem Inv.issue (hInv : s.Inv) (hSlot : slot < kMaxSegments)
    (hUsed : (s.segments slot).used = true) : Inv (s.issue slot).1 := by
  refine { hInv with issued := fun id serial hMem => ?_ }
  rcases mem_append.mp hMem with hOld | hNew
  · exact hInv.issued id serial hOld
  · obtain ⟨rfl, rfl⟩ := Prod.ext_iff.mp (mem_singleton.mp hNew)
    obtain ⟨hGen, hSerial⟩ := hInv.live slot hUsed
    refine ⟨slot, _, hSlot, hGen, rfl, hSerial, fun i hi => ?_⟩
    constructor
    · intro hSame
      obtain rfl := hInv.distinct i slot hi hUsed hSame
      exact ⟨rfl, rfl⟩
    · rintro ⟨rfl, -⟩
      rfl

theorem keyed_some {key : Nat} (hKeyed : s.keyed key = some i) :
    i < kMaxSegments ∧ (s.segments i).used = true := by
  have hMem := mem_of_find?_eq_some hKeyed
  have hFound := List.find?_some hKeyed
  simp only [Bool.and_eq_true] at hFound
  exact ⟨mem_range.mp hMem, hFound.1⟩

/-- What `open` did before it returned an id: nothing, or it claimed a slot. -/
theorem openSlot_cases (s : Shm) (r : ShmRequest) :
    ((s.openSlot r).1 = s ∧ ∀ i, (s.openSlot r).2 = some i →
      i < kMaxSegments ∧ (s.segments i).used = true) ∨
    ∃ i, i < kMaxSegments ∧ (s.segments i).used = false ∧ (s.openSlot r).1 = s.claim i r ∧
      (s.openSlot r).2 = if r.room then some i else none := by
  have hNothing : ∀ i, (none : Option Nat) = some i →
      i < kMaxSegments ∧ (s.segments i).used = true := fun i h => by cases h
  unfold openSlot
  split
  · exact .inl ⟨rfl, hNothing⟩
  split
  next i hKeyed =>
    left
    split
    · exact ⟨rfl, hNothing⟩
    split
    · exact ⟨rfl, hNothing⟩
    · refine ⟨rfl, fun j hj => ?_⟩
      obtain rfl := some.inj hj
      exact keyed_some hKeyed
  split
  · exact .inl ⟨rfl, hNothing⟩
  split
  · exact .inl ⟨rfl, hNothing⟩
  split
  · exact .inl ⟨rfl, hNothing⟩
  next i hVacant =>
    obtain ⟨hLt, hFree⟩ := vacant_some hVacant
    exact .inr ⟨i, hLt, hFree, rfl, rfl⟩

theorem inv_open (hInv : s.Inv) (hYoung : s.nextGeneration < 2 ^ 21) :
    Inv (s.openSegment r).1 := by
  have hCases := openSlot_cases s r
  unfold openSegment
  generalize s.openSlot r = o at hCases
  obtain ⟨s', slot⟩ := o
  rcases hCases with ⟨hSame, hSlot⟩ | ⟨i, hLt, hFree, hClaim, hSlot⟩
  · obtain rfl : s' = s := hSame
    cases slot with
    | none => exact hInv
    | some i =>
      obtain ⟨hLt, hUsed⟩ := hSlot i rfl
      exact hInv.issue hLt hUsed
  · obtain rfl : s' = s.claim i r := hClaim
    have hClaimed := hInv.claim hYoung hFree r
    cases hRoom : r.room with
    | false =>
      obtain rfl : slot = none := by simpa [hRoom] using hSlot
      exact hClaimed
    | true =>
      obtain rfl : slot = some i := by simpa [hRoom] using hSlot
      refine hClaimed.issue hLt ?_
      simp [claim, claimed, hRoom]

theorem inv_next (hInv : s.Inv) {e : Call} (hYoung : s.Young e) : Inv (s.next e) := by
  cases e with
  | openSegment r => exact inv_open hInv hYoung
  | destroy id uid =>
    simp only [next, destroy]
    split
    · exact hInv
    next slot _ =>
      split
      · exact hInv
      · refine hInv.forget _ fun i hUsed => ?_
        by_cases hi : i = slot
        · rw [hi, update_self] at hUsed
          cases hUsed
        · exact update_of_ne hi _ _
  | abandon pid =>
    refine hInv.forget _ fun i hUsed => ?_
    split at hUsed
    · cases hUsed
    next hKept => exact if_neg hKept

/-- `open` returns `-1` only on a way that makes no segment. -/
theorem openSlot_none (hFail : (s.openSegment r).2 = -1) :
    (s.openSlot r).2 = none := by
  have hCases := openSlot_cases s r
  unfold openSegment at hFail
  generalize s.openSlot r = o at hCases hFail
  obtain ⟨s', slot⟩ := o
  cases slot with
  | none => rfl
  | some i =>
    have hLt : i < kMaxSegments := by
      rcases hCases with ⟨-, hSlot⟩ | ⟨j, hLt, -, -, hSlot⟩
      · exact (hSlot i rfl).1
      · cases hRoom : r.room with
        | false => simp [hRoom] at hSlot
        | true =>
          obtain rfl : i = j := by simpa [hRoom] using hSlot
          exact hLt
    have hLast : i + 1 < 2 ^ kShmSlotBits := Nat.lt_of_le_of_lt hLt (by decide)
    exact absurd hFail (packed_ne_neg_one (by decide) (Nat.lt_of_succ_lt hLast) hLast)

theorem room_of_fail (hKey : r.key ≠ 0)
    (hFresh : ∀ i, i < kMaxSegments → (s.segments i).used = true → (s.segments i).key ≠ r.key)
    (hBytes : 0 < r.bytes) (hSmall : r.bytes ≤ 4096 * 4096) (hFail : (s.openSegment r).2 = -1) :
    (∀ i, i < kMaxSegments → (s.segments i).used = true) ∨ r.room = false := by
  have hNone := openSlot_none hFail
  have hKeyed : s.keyed r.key = none := by
    refine List.find?_eq_none.mpr fun i hi hFound => ?_
    simp only [Bool.and_eq_true, beq_iff_eq] at hFound
    exact hFresh i (mem_range.mp hi) hFound.1 hFound.2
  have hPages : ¬ (pagesOf r.bytes = 0 ∨ 4096 < pagesOf r.bytes) := by
    unfold pagesOf
    omega
  unfold openSlot at hNone
  rw [if_neg hKey, hKeyed] at hNone
  simp only [if_neg (Nat.ne_of_gt hBytes), if_neg hPages] at hNone
  split at hNone
  next hVacant =>
    left
    intro i hi
    simpa using List.find?_eq_none.mp hVacant i (mem_range.mpr hi)
  · right
    cases hRoom : r.room with
    | false => rfl
    | true => simp [hRoom] at hNone

theorem sound_of_inv (hInv : s.Inv) : s.Sound where
  nonneg id serial hMem := by
    obtain ⟨slot, generation, hSlot, hGen, rfl, -⟩ := hInv.issued id serial hMem
    exact packed_nonneg (by decide) (hSlot.trans (by decide)) (hGen.trans_le hInv.young)
  finds id serial hMem i _ hUsed hSerial := by
    obtain ⟨slot, generation, hSlot, hGen, rfl, -, hIff⟩ := hInv.issued id serial hMem
    obtain ⟨rfl, hSame⟩ := (hIff i hUsed).mp hSerial
    rw [slotOf_makeId s hSlot (hGen.trans_le hInv.young), if_pos ⟨hUsed, hSame⟩]
  only id serial hMem i hSlotOf := by
    obtain ⟨slot, generation, hSlot, hGen, rfl, -, hIff⟩ := hInv.issued id serial hMem
    rw [slotOf_makeId s hSlot (hGen.trans_le hInv.young)] at hSlotOf
    split at hSlotOf
    next hLive =>
      obtain rfl := some.inj hSlotOf
      exact (hIff slot hLive.1).mpr ⟨rfl, hLive.2⟩
    · cases hSlotOf
  room _ hKey hFresh hBytes hSmall hFail := room_of_fail hKey hFresh hBytes hSmall hFail

/-- In every run in which no slot is claimed once the counter has reached `2 ^ 21`, ids are
never stale and slots never run out early. -/
theorem sound_of_young {s : Shm} {es : List Call} (hRun : Run (Restrict Young Step) init es s) :
    s.Sound := by
  have hStep : ∀ s e s', Inv s → Restrict Young Step s e s' → Inv s' := by
    rintro s e _ hInv ⟨hYoung, rfl⟩
    exact inv_next hInv hYoung
  exact sound_of_inv (hRun.invariant hStep inv_init)

/-! ### Two million segments -/

/-- A process opens a segment of one page. -/
def pageRequest : ShmRequest := ⟨1, 4096, 0, 0, 7, true⟩

/-- A process opens a segment and exits, again and again. -/
def churn (n : Nat) : List Call :=
  (List.replicate n [Call.openSegment pageRequest, Call.abandon 7]).flatten

/-- The table is empty and the counter has come this far. -/
def EmptyAt (s : Shm) (generation : Nat) : Prop :=
  s.segments = (fun _ => Segment.zero) ∧ s.nextGeneration = generation

theorem open_of_empty (hEmpty : s.EmptyAt generation) :
    s.openSegment pageRequest = (s.claim 0 pageRequest).issue 0 := by
  have hKeyed : s.keyed pageRequest.key = none := by
    refine List.find?_eq_none.mpr fun i _ => ?_
    rw [hEmpty.1]
    exact Bool.noConfusion
  have hVacant : s.vacant = some 0 := by
    unfold vacant
    rw [hEmpty.1, show kMaxSegments = 511 + 1 from rfl, range_succ_eq_map]
    rfl
  unfold openSegment openSlot
  rw [if_neg (by decide), hKeyed, hVacant]
  rfl

theorem churn_one (hEmpty : s.EmptyAt generation) (hGen : generation + 1 < 2 ^ 32) :
    ((s.next (.openSegment pageRequest)).next (.abandon 7)).EmptyAt (generation + 1) := by
  simp only [next]
  rw [open_of_empty hEmpty]
  constructor
  · funext i
    by_cases hi : i = 0
    · subst hi
      simp [abandon, issue, claim, claimed, pageRequest]
    · simp [abandon, issue, claim, hi, hEmpty.1, Segment.zero]
  · change (s.nextGeneration + 1) % 2 ^ 32 = generation + 1
    rw [hEmpty.2]
    exact Nat.mod_eq_of_lt hGen

theorem churn_run (n : Nat) (hn : n + 1 < 2 ^ 32) :
    ∃ s, Run Step init (churn n) s ∧ s.EmptyAt (n + 1) := by
  induction n with
  | zero => exact ⟨init, .nil _, rfl, rfl⟩
  | succ n ih =>
    obtain ⟨s, hRun, hEmpty⟩ := ih (by omega)
    refine ⟨_, ?_, churn_one hEmpty hn⟩
    have hSplit : churn (n + 1) =
        churn n ++ [Call.openSegment pageRequest, Call.abandon 7] := by
      simp [churn, replicate_succ']
    rw [hSplit]
    exact hRun.append (.cons rfl (.cons rfl (.nil _)))

/-- The segment made after two million others has a negative id. -/
theorem not_sound_churn : ¬ ∀ s es, Run Step init es s → s.Sound := by
  intro hAll
  obtain ⟨s, hRun, hEmpty⟩ := churn_run (2 ^ 21 - 1) (by decide)
  have hSound := hAll _ _ (hRun.snoc (e := .openSegment pageRequest) rfl)
  have hOpen : s.next (.openSegment pageRequest) = ((s.claim 0 pageRequest).issue 0).1 := by
    simp only [next]
    rw [open_of_empty hEmpty]
  have hGen : ((s.claim 0 pageRequest).segments 0).generation = 2 ^ 21 := by
    simp [claim, claimed, hEmpty.2]
  have hMem : (makeId 0 (2 ^ 21), ((s.claim 0 pageRequest).segments 0).serial) ∈
      (s.next (.openSegment pageRequest)).returned := by
    rw [hOpen, issue, hGen]
    exact mem_append_right _ (mem_singleton.mpr rfl)
  have hNeg : makeId 0 (2 ^ 21) < 0 := packed_neg (by decide) (by decide)
  exact absurd (hSound.nonneg _ _ hMem) (Int.not_le.mpr hNeg)

/-- Two segments, one of them destroyed and its slot used again. -/
def reuseCalls : List Call :=
  [.openSegment pageRequest, .openSegment ⟨2, 8192, 5, 0, 9, true⟩, .destroy (makeId 0 1) 0,
    .openSegment ⟨3, 1, 5, 1, 9, true⟩, .abandon 9, .openSegment ⟨3, 1, 5, 1, 9, false⟩]

theorem sound_reuseCalls : ∃ s, Run (Restrict Young Step) init reuseCalls s ∧ s.Sound := by
  obtain ⟨s, hRun, -⟩ : ∃ s, Run (Restrict Young Step) init reuseCalls s ∧ True :=
    Run.exists_of_guarded (fun _ _ _ h => (some.inj h).symm) (by decide +kernel)
  exact ⟨s, hRun, sound_of_young hRun⟩

end Shm
end LeahOS.Mm
