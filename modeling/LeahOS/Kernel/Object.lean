import Mathlib.Tactic

/-!
# Handles and the tables that hold them

A process holds kernel objects by handles, and a handle is a slot of a table the
process cannot write, together with a generation. This module models that table
layer: finding and making the table of a process, `give`, `look`, `rights_of`,
`type_of`, `duplicate`, `close`, `close_all` and `inherit`.

Every operation runs under one lock, so each is one step. `heap` says whether
`kmalloc` would find memory for a table that was never made.

`Entry.via` and `Objects.issued` are ghosts. `via` remembers how a handle came to be,
and `issued` is the list of all handles there ever were; no definition branches on
them.
-/

namespace LeahOS.Kernel
open Function List Option

/-- The kinds of kernel objects. -/
inductive ObjType where
  | none
  | port
  | shm
  | image
  | pty
  | pipe
  | process
  | thread
  | event
  deriving DecidableEq, Repr

def kRead : Nat := 1
def kMap : Nat := 8
def kExecute : Nat := 4
def kDuplicate : Nat := 64
def kTransfer : Nat := 128

/-- Every right of the first mask is in the second. -/
def Within (r r' : Nat) : Prop := r &&& r' = r

theorem Within.refl (r : Nat) : Within r r := Nat.and_self r

theorem Within.trans {a b c : Nat} (hab : Within a b) (hbc : Within b c) : Within a c := by
  unfold Within at *
  rw [← hab, Nat.and_assoc, hbc]

theorem within_and (r mask : Nat) : Within (r &&& mask) r := by
  unfold Within
  rw [Nat.and_comm r mask, Nat.and_assoc, Nat.and_self]

/-- A handle as its holder has it. `tag` is a ghost: which object was at `pointer`
when the handle was made. -/
structure Info where
  pid : Nat
  type : ObjType
  pointer : Nat
  rights : Nat
  tag : Nat
  deriving DecidableEq, Repr

/-- How a handle came to be: given by the kernel, or derived from another one. -/
inductive Via where
  | given (h : Info)
  | duplicated (h : Info) (source : Via)
  | inherited (h : Info) (source : Via)
  | sent (h : Info) (source : Via)
  deriving DecidableEq, Repr

/-- The handle itself. -/
def Via.info : Via → Info
  | .given h => h
  | .duplicated h _ => h
  | .inherited h _ => h
  | .sent h _ => h

/-- The handle it was derived from. -/
def Via.source : Via → Option Via
  | .given _ => .none
  | .duplicated _ s => some s
  | .inherited _ s => some s
  | .sent _ s => some s

/-- One slot of a table. -/
structure Entry where
  type : ObjType
  rights : Nat
  pointer : Nat
  generation : Nat
  via : Via

/-- A slot of a zeroed table. -/
def Entry.zero : Entry := ⟨.none, 0, 0, 0, .given ⟨0, .none, 0, 0, 0⟩⟩

/-- The handles of one process. -/
structure Table where
  used : Bool
  pid : Nat
  entries : Nat → Entry

def kMaxTables : Nat := 96
def kMaxHandles : Nat := 128

/-- `g_tables`; a table is made the first time a process needs one. -/
abbrev Tables := Nat → Option Table

/-- The handle tables, and every handle that was ever put into one. -/
structure Objects where
  tables : Tables
  issued : List Via

/-- The table in use by this process. -/
def isOf (pid : Nat) : Option Table → Bool
  | some t => t.used && t.pid == pid
  | none => false

def find (g : Tables) (pid : Nat) : Option Nat :=
  (List.range kMaxTables).find? fun i => isOf pid (g i)

/-- A place for a new table. -/
def isUnused : Option Table → Bool
  | some t => !t.used
  | none => true

def findOrMake (heap : Bool) (g : Tables) (pid : Nat) : Tables × Option Nat :=
  match find g pid with
  | some i => (g, some i)
  | none =>
    match (List.range kMaxTables).find? fun i => isUnused (g i) with
    | none => (g, none)
    | some i =>
      if (g i).isNone && !heap then (g, none)
      else (update g i (some ⟨true, pid, fun _ => Entry.zero⟩), some i)

/-- A handle is a signed 32-bit number. -/
def toI32 (n : Nat) : Int := if n % 2 ^ 32 < 2 ^ 31 then (n % 2 ^ 32 : Nat) else (n % 2 ^ 32 : Nat) - 2 ^ 32

def kSlotBits : Nat := 10
def kNoHandle : Int := -1

/-- Ten bits of slot, and the generation above them. -/
def encode (slot generation : Nat) : Int := toI32 (generation * 2 ^ kSlotBits + slot)

/-- The slot a handle names in a table. -/
def decode (t : Table) (handle : Int) : Option Nat :=
  if handle < 0 then none
  else
    let value := handle.toNat
    let slot := value % 2 ^ kSlotBits
    if kMaxHandles ≤ slot then none
    else if (t.entries slot).type = .none ∨ (t.entries slot).generation ≠ value / 2 ^ kSlotBits then
      none
    else some slot

def setEntry (g : Tables) (i : Nat) (t : Table) (slot : Nat) (e : Entry) : Tables :=
  update g i (some { t with entries := update t.entries slot e })

/-- The number of a slot that is used again; zero is passed over. -/
def nextGeneration (generation : Nat) : Nat :=
  if (generation + 1) % 2 ^ 32 = 0 then 1 else (generation + 1) % 2 ^ 32

/-- `give_locked`. `how` says how the new handle came to be. -/
def giveLocked (heap : Bool) (o : Objects) (h : Info) (how : Info → Via) : Objects × Int :=
  if h.type = .none then (o, kNoHandle)
  else
    match findOrMake heap o.tables h.pid with
    | (g, none) => ({ o with tables := g }, kNoHandle)
    | (g, some i) =>
      match g i with
      | none => ({ o with tables := g }, kNoHandle)
      | some t =>
        match (List.range kMaxHandles).find? fun slot => (t.entries slot).type == .none with
        | none => ({ o with tables := g }, kNoHandle)
        | some slot =>
          let generation := nextGeneration (t.entries slot).generation
          (⟨setEntry g i t slot ⟨h.type, h.rights, h.pointer, generation, how h⟩,
            o.issued ++ [how h]⟩, encode slot generation)

/-- `give`: the kernel hands out an object. -/
def give (heap : Bool) (o : Objects) (h : Info) : Objects × Int := giveLocked heap o h Via.given

/-- The table, the slot and the entry a handle of this process names. -/
def resolve (g : Tables) (pid : Nat) (handle : Int) : Option (Nat × Table × Nat) :=
  match find g pid with
  | none => none
  | some i =>
    match g i with
    | none => none
    | some t => (decode t handle).map fun slot => (i, t, slot)

/-- The entry a handle of this process names. -/
def entryOf (g : Tables) (pid : Nat) (handle : Int) : Option Entry :=
  (resolve g pid handle).map fun r => r.2.1.entries r.2.2

/-- `look`: the object, if the handle is of this type and carries every right needed. -/
def look (g : Tables) (pid : Nat) (handle : Int) (type : ObjType) (needed : Nat) : Option Nat :=
  match entryOf g pid handle with
  | none => none
  | some e =>
    if e.type ≠ type then none
    else if e.rights &&& needed ≠ needed then none
    else some e.pointer

def rightsOf (g : Tables) (pid : Nat) (handle : Int) : Nat :=
  ((entryOf g pid handle).map Entry.rights).getD 0

def typeOf (g : Tables) (pid : Nat) (handle : Int) : ObjType :=
  ((entryOf g pid handle).map Entry.type).getD .none

/-- How a handle came to be. -/
def viaOf (g : Tables) (pid : Nat) (handle : Int) : Via :=
  ((entryOf g pid handle).map Entry.via).getD Entry.zero.via

/-- `duplicate`: narrowed, never widened. -/
def duplicate (heap : Bool) (o : Objects) (pid : Nat) (handle : Int) (mask : Nat) : Objects × Int :=
  match entryOf o.tables pid handle with
  | none => (o, kNoHandle)
  | some e =>
    if e.rights &&& kDuplicate = 0 then (o, kNoHandle)
    else
      giveLocked heap o ⟨pid, e.type, e.pointer, e.rights &&& mask, e.via.info.tag⟩
        fun h => .duplicated h e.via

/-- `close`. The generation stays, for the next handle in this slot. -/
def close (o : Objects) (pid : Nat) (handle : Int) : Objects × Bool :=
  match resolve o.tables pid handle with
  | none => (o, false)
  | some (i, t, slot) =>
    let e := t.entries slot
    ({ o with tables := setEntry o.tables i t slot { e with type := .none, rights := 0, pointer := 0 } },
      true)

def closeAll (o : Objects) (pid : Nat) : Objects :=
  match find o.tables pid with
  | none => o
  | some i =>
    match o.tables i with
    | none => o
    | some t => { o with tables := update o.tables i (some { t with used := false }) }

/-- The copy of one slot in a child. -/
def inheritEntry (pid : Nat) (e : Entry) : Entry :=
  { e with via := .inherited ⟨pid, e.type, e.pointer, e.rights, e.via.info.tag⟩ e.via }

/-- `inherit`: the child of a fork holds what its parent held. -/
def inherit (heap : Bool) (o : Objects) (parent child : Nat) : Objects :=
  match find o.tables parent with
  | none => o
  | some i =>
    match o.tables i with
    | none => o
    | some src =>
      match findOrMake heap o.tables child with
      | (g, none) => { o with tables := g }
      | (g, some j) =>
        { tables := update g j
            (some ⟨true, child, fun slot =>
              if slot < kMaxHandles then inheritEntry child (src.entries slot) else Entry.zero⟩)
          issued := o.issued ++ ((List.range kMaxHandles).filter fun slot =>
              (src.entries slot).type != .none).map fun slot =>
                (inheritEntry child (src.entries slot)).via }

/-! ## What the tables hold

`Holds g pid e` says that the process has `e` in its table. Each operation has one lemma:
what is held afterwards was held before, or is the handle it adds. -/

/-- The process has this handle. -/
def Holds (g : Tables) (pid : Nat) (e : Entry) : Prop :=
  ∃ i t slot, g i = some t ∧ t.used = true ∧ t.pid = pid ∧ t.entries slot = e ∧ e.type ≠ .none

section Held
variable {g : Tables} {o : Objects} {pid : Nat} {e : Entry} {i q slot : Nat} {t : Table}
  {heap : Bool} {handle : Int}

theorem holds_update (h : Holds (update g i (some t)) pid e) :
    Holds g pid e ∨ (t.used = true ∧ t.pid = pid ∧ e.type ≠ .none ∧ ∃ slot, t.entries slot = e) := by
  obtain ⟨j, t', slot, hj, hUsed, hPid, hSlot, hType⟩ := h
  by_cases hEq : j = i
  · subst hEq
    rw [update_self, Option.some.injEq] at hj
    subst hj
    exact .inr ⟨hUsed, hPid, hType, slot, hSlot⟩
  · rw [update_of_ne hEq] at hj
    exact .inl ⟨j, t', slot, hj, hUsed, hPid, hSlot, hType⟩

theorem holds_setEntry {new : Entry} (ht : g i = some t) (h : Holds (setEntry g i t slot new) pid e) :
    Holds g pid e ∨ (t.pid = pid ∧ e = new ∧ e.type ≠ .none) := by
  rcases holds_update h with h | ⟨hUsed, hPid, hType, slot', hSlot⟩
  · exact .inl h
  · by_cases hEq : slot' = slot
    · subst hEq
      simp only [update_self] at hSlot
      exact .inr ⟨hPid, hSlot.symm, hType⟩
    · simp only [update_of_ne hEq] at hSlot
      exact .inl ⟨i, t, slot', ht, hUsed, hPid, hSlot, hType⟩

/-- What `find` finds is a table in use by this process. -/
theorem find_eq_some (hFind : find g pid = some i) :
    ∃ t, g i = some t ∧ t.used = true ∧ t.pid = pid := by
  have hMatch := List.find?_some hFind
  cases ht : g i with
  | none => simp [isOf, ht] at hMatch
  | some t =>
    simp only [isOf, ht, Bool.and_eq_true, beq_iff_eq] at hMatch
    exact ⟨t, rfl, hMatch⟩

/-- A new table holds nothing. -/
theorem holds_findOrMake (h : Holds (findOrMake heap g q).1 pid e) :
    Holds g pid e := by
  unfold findOrMake at h
  split at h
  · exact h
  split at h
  · exact h
  split at h
  · exact h
  · rcases holds_update h with h | ⟨-, -, hType, slot, rfl⟩
    · exact h
    · exact absurd rfl hType

/-- The table `find_or_make` names is of this process. -/
theorem findOrMake_eq_some {g' : Tables} (hMake : findOrMake heap g pid = (g', some i)) :
    ∃ t, g' i = some t ∧ t.used = true ∧ t.pid = pid := by
  unfold findOrMake at hMake
  split at hMake
  next j hFind =>
    cases hMake
    exact find_eq_some hFind
  split at hMake
  · cases hMake
  split at hMake
  · cases hMake
  · cases hMake
    exact ⟨_, update_self _ _ _, rfl, rfl⟩

/-- `give` adds the handle it was told to, and records it, or adds nothing. -/
theorem giveLocked_spec (heap : Bool) (o : Objects) (x : Info) (how : Info → Via) :
    ((giveLocked heap o x how).1.issued = o.issued ∧
      ∀ pid e, Holds (giveLocked heap o x how).1.tables pid e → Holds o.tables pid e) ∨
    ((giveLocked heap o x how).1.issued = o.issued ++ [how x] ∧
      ∀ pid e, Holds (giveLocked heap o x how).1.tables pid e → Holds o.tables pid e ∨
        (pid = x.pid ∧ ∃ generation, e = ⟨x.type, x.rights, x.pointer, generation, how x⟩)) := by
  have hKeep : ∀ pid e, Holds (findOrMake heap o.tables x.pid).1 pid e → Holds o.tables pid e :=
    fun _ _ => holds_findOrMake
  unfold giveLocked
  split
  · exact .inl ⟨rfl, fun _ _ h => h⟩
  split
  next g hMake =>
    rw [hMake] at hKeep
    exact .inl ⟨rfl, hKeep⟩
  next g i hMake =>
  obtain ⟨t, ht, -, hPid⟩ := findOrMake_eq_some hMake
  rw [hMake] at hKeep
  split
  · exact .inl ⟨rfl, hKeep⟩
  next t' ht' =>
  obtain rfl := some.inj (ht.symm.trans ht')
  split
  · exact .inl ⟨rfl, hKeep⟩
  · refine .inr ⟨rfl, fun pid e h => ?_⟩
    rcases holds_setEntry ht h with h | ⟨hOwner, hNew, -⟩
    · exact .inl (hKeep pid e h)
    · exact .inr ⟨hOwner.symm.trans hPid, _, hNew⟩

/-- The slot a handle names is in its low bits, and is in use. -/
theorem decode_eq_some (h : decode t handle = some slot) :
    0 ≤ handle ∧ handle.toNat % 2 ^ kSlotBits = slot ∧ (t.entries slot).type ≠ .none := by
  unfold decode at h
  split at h
  · cases h
  next hPos =>
  simp only at h
  split at h
  · cases h
  split at h
  · cases h
  next hLive =>
  obtain rfl := some.inj h
  exact ⟨Int.not_lt.mp hPos, rfl, fun hNone => hLive (.inl hNone)⟩

theorem resolve_iff :
    resolve g pid handle = some (i, t, slot) ↔
      find g pid = some i ∧ g i = some t ∧ decode t handle = some slot := by
  constructor
  · intro h
    unfold resolve at h
    split at h
    · cases h
    next j hFind =>
    split at h
    · cases h
    next t' ht =>
    obtain ⟨slot', hDecode, hEq⟩ := map_eq_some_iff.mp h
    cases hEq
    exact ⟨hFind, ht, hDecode⟩
  · rintro ⟨hFind, ht, hDecode⟩
    simp [resolve, hFind, ht, hDecode]

/-- What a handle of this process names is in a table of it. -/
theorem resolve_eq_some (h : resolve g pid handle = some (i, t, slot)) :
    g i = some t ∧ t.used = true ∧ t.pid = pid ∧ (t.entries slot).type ≠ .none := by
  obtain ⟨hFind, ht, hDecode⟩ := resolve_iff.mp h
  obtain ⟨t', ht', hUsed, hPid⟩ := find_eq_some hFind
  obtain rfl := some.inj (ht.symm.trans ht')
  exact ⟨ht, hUsed, hPid, (decode_eq_some hDecode).2.2⟩

theorem holds_of_entryOf (he : entryOf g pid handle = some e) : Holds g pid e := by
  obtain ⟨⟨i, t, slot⟩, hResolve, rfl⟩ := map_eq_some_iff.mp he
  obtain ⟨ht, hUsed, hPid, hType⟩ := resolve_eq_some hResolve
  exact ⟨i, t, slot, ht, hUsed, hPid, rfl, hType⟩

theorem close_issued (o : Objects) (pid : Nat) (handle : Int) :
    (close o pid handle).1.issued = o.issued := by
  unfold close
  split <;> rfl

theorem holds_close (h : Holds (close o q handle).1.tables pid e) :
    Holds o.tables pid e := by
  unfold close at h
  split at h
  · exact h
  next hResolve =>
    rcases holds_setEntry (resolve_eq_some hResolve).1 h with h | ⟨-, rfl, hType⟩
    · exact h
    · exact absurd rfl hType

/-! ## What a new handle names -/

/-- `find` looks at whose the tables are, and at nothing in them. -/
theorem find_setEntry (ht : g i = some t) (slot : Nat) (x : Entry) :
    find (setEntry g i t slot x) pid = find g pid := by
  unfold find
  congr 1
  funext j
  by_cases hEq : j = i
  · subst hEq
    simp [setEntry, ht, isOf]
  · simp [setEntry, update_of_ne hEq]

theorem find_findOrMake {g' : Tables} (hMake : findOrMake heap g pid = (g', some i)) :
    find g' pid = some i := by
  unfold findOrMake at hMake
  split at hMake
  next hFind =>
    cases hMake
    exact hFind
  next hNone =>
  split at hMake
  · cases hMake
  next j hUnused =>
  split at hMake
  · cases hMake
  · cases hMake
    -- no other table is of this process
    have hOthers : ∀ j ∈ List.range kMaxTables, isOf pid (g j) = false := by
      simpa using List.find?_eq_none.mp hNone
    have hFound : ∀ j ∈ List.range kMaxTables,
        isOf pid (update g i (some ⟨true, pid, fun _ => Entry.zero⟩) j) = true → j = i := by
      intro j hj hIs
      by_contra hNe
      rw [update_of_ne hNe, hOthers j hj] at hIs
      cases hIs
    cases hFind : find (update g i (some ⟨true, pid, fun _ => Entry.zero⟩)) pid with
    | none =>
      have hMiss := List.find?_eq_none.mp hFind i (mem_of_find?_eq_some hUnused)
      simp [isOf] at hMiss
    | some j =>
      have hIs := List.find?_some (p := fun j => isOf pid (_ : Option Table)) hFind
      rw [hFound j (mem_of_find?_eq_some hFind) hIs]

theorem entryOf_iff : entryOf g pid handle = some e ↔
    ∃ i t slot, find g pid = some i ∧ g i = some t ∧ decode t handle = some slot ∧
      t.entries slot = e := by
  unfold entryOf
  rw [map_eq_some_iff]
  constructor
  · rintro ⟨⟨i, t, slot⟩, hResolve, hEntry⟩
    obtain ⟨hFind, ht, hDecode⟩ := resolve_iff.mp hResolve
    exact ⟨i, t, slot, hFind, ht, hDecode, hEntry⟩
  · rintro ⟨i, t, slot, hFind, ht, hDecode, hEntry⟩
    exact ⟨(i, t, slot), resolve_iff.mpr ⟨hFind, ht, hDecode⟩, hEntry⟩

theorem closeAll_issued (o : Objects) (pid : Nat) : (closeAll o pid).issued = o.issued := by
  unfold closeAll
  split
  · rfl
  · split <;> rfl

theorem holds_closeAll (h : Holds (closeAll o q).tables pid e) : Holds o.tables pid e := by
  unfold closeAll at h
  split at h
  · exact h
  split at h
  · exact h
  · rcases holds_update h with h | ⟨hUsed, -⟩
    · exact h
    · cases hUsed

/-- `inherit` adds a copy of what the parent holds, and records it. -/
theorem inherit_spec (heap : Bool) (o : Objects) (parent child : Nat) :
    ∃ new, (inherit heap o parent child).issued = o.issued ++ new ∧
      (∀ v ∈ new, ∃ src, Holds o.tables parent src ∧ v = (inheritEntry child src).via) ∧
      ∀ pid e, Holds (inherit heap o parent child).tables pid e → Holds o.tables pid e ∨
        (pid = child ∧ e.via ∈ new ∧
          ∃ src, Holds o.tables parent src ∧ e = inheritEntry child src) := by
  have hKeep : ∀ pid e, Holds (findOrMake heap o.tables child).1 pid e → Holds o.tables pid e :=
    fun _ _ => holds_findOrMake
  have hNone : ∀ o' : Objects, o'.issued = o.issued →
      (∀ pid e, Holds o'.tables pid e → Holds o.tables pid e) → ∃ new, o'.issued = o.issued ++ new ∧
        (∀ v ∈ new, ∃ src, Holds o.tables parent src ∧ v = (inheritEntry child src).via) ∧
        ∀ pid e, Holds o'.tables pid e → Holds o.tables pid e ∨ (pid = child ∧ e.via ∈ new ∧
          ∃ src, Holds o.tables parent src ∧ e = inheritEntry child src) :=
    fun o' hIssued hHeld => ⟨[], by rw [hIssued, append_nil],
      fun _ hv => absurd hv not_mem_nil, fun pid e h => .inl (hHeld pid e h)⟩
  unfold inherit
  split
  · exact hNone o rfl fun _ _ h => h
  next i hFind =>
  obtain ⟨src, hSrc, hUsed, rfl⟩ := find_eq_some hFind
  split
  · exact hNone o rfl fun _ _ h => h
  next src' hSrc' =>
  obtain rfl := some.inj (hSrc.symm.trans hSrc')
  split
  next g hMake =>
    rw [hMake] at hKeep
    exact hNone _ rfl hKeep
  next g j hMake =>
  rw [hMake] at hKeep
  refine ⟨_, rfl, fun v hv => ?_, fun pid e h => ?_⟩
  · obtain ⟨slot, hSlot, rfl⟩ := List.mem_map.mp hv
    have hType : (src.entries slot).type ≠ .none := by simpa using (mem_filter.mp hSlot).2
    exact ⟨src.entries slot, ⟨i, src, slot, hSrc, hUsed, rfl, rfl, hType⟩, rfl⟩
  · rcases holds_update h with h | ⟨-, rfl, hType, slot, rfl⟩
    · exact .inl (hKeep pid e h)
    · by_cases hLt : slot < kMaxHandles
      · simp only [if_pos hLt] at hType ⊢
        have hType' : (src.entries slot).type ≠ .none := hType
        refine .inr ⟨trivial, List.mem_map_of_mem (mem_filter.mpr ?_), src.entries slot,
          ⟨i, src, slot, hSrc, hUsed, rfl, rfl, hType'⟩, rfl⟩
        exact ⟨mem_range.mpr hLt, by simpa using hType'⟩
      · simp only [if_neg hLt] at hType
        exact absurd rfl hType

end Held
end LeahOS.Kernel
