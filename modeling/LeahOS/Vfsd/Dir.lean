import LeahOS.Vfsd.Fields

/-!
# A block of a directory

A directory block is a chain of records: each has the number of an inode, its own length, and a
name with its length and type. A record may claim more room than it needs. `dir_add` splits one
with enough slack; `dir_remove` lets the record before swallow the one that goes, or clears its
inode number if there is none before it.

`records` are the offsets at which the loops of the source stop by, and `entries` the names and
inodes they see there. `entries_addIn` and `entries_removeIn` say what the two operations do to
the entries of a block in which every record has room for its own name (`Packed`), and that they
keep it so.
-/

namespace LeahOS.Vfsd
open Lib Function List

/-- A name: the bytes of a string, without the NUL at its end. -/
abbrev Name := List UInt8

/-! ## Records -/

/-- The inode of a record, zero for none. -/
def recIno (b : Block) (o : Nat) : Nat := rd32 b o

/-- The length of a record. -/
def recLen (b : Block) (o : Nat) : Nat := rd16 b (o + 4)

/-- The length of the name of a record. -/
def nameLen (b : Block) (o : Nat) : Nat := (b (o + 6)).toNat

/-- The name of a record. -/
def nameOf (b : Block) (o : Nat) : Name := (List.range (nameLen b o)).map fun i => b (o + 8 + i)

/-- There is a record at the offset: the loops go on. -/
def recOk (bs : Nat) (b : Block) (o : Nat) : Bool :=
  decide (o + 8 ≤ bs) && decide (8 ≤ recLen b o) && decide (o + recLen b o ≤ bs)

/-- The offsets of at most `n` records from `o` on. -/
def recordsFrom (bs : Nat) (b : Block) : Nat → Nat → List Nat
  | 0, _ => []
  | n + 1, o => if recOk bs b o then o :: recordsFrom bs b n (o + recLen b o) else []

/-- The offsets of the records from `o` on. -/
def recordsAt (bs : Nat) (b : Block) (o : Nat) : List Nat := recordsFrom bs b (bs - o) o

/-- The offsets of the records of a block. -/
def records (bs : Nat) (b : Block) : List Nat := recordsAt bs b 0

/-- The record is an entry. -/
def live (b : Block) (o : Nat) : Bool := decide (recIno b o ≠ 0) && decide (0 < nameLen b o)

/-- The entries of a block. -/
def entries (bs : Nat) (b : Block) : List (Name × Nat) :=
  ((records bs b).filter (live b)).map fun o => (nameOf b o, recIno b o)

/-! ## The operations -/

/-- The inode of the first entry of that name. -/
def searchIn (bs : Nat) (b : Block) (name : Name) : Option Nat :=
  ((records bs b).find? fun o => live b o && nameOf b o == name).map (recIno b)

/-- The room a record with a name of this length needs: `(8 + len + 3) & ~3`. -/
def slotSize (len : Nat) : Nat := (8 + len + 3) / 4 * 4

/-- The room a record uses. -/
def usedRoom (b : Block) (o : Nat) : Nat := if recIno b o = 0 then 0 else slotSize (nameLen b o)

/-- The room a record has to spare, in 32 bits. -/
def slack (b : Block) (o : Nat) : Nat := (recLen b o + 2 ^ 32 - usedRoom b o) % 2 ^ 32

/-- `memcpy` of a string. -/
def copyIn (b : Block) (off : Nat) (bytes : List UInt8) : Block := fun k =>
  if off ≤ k ∧ k < off + bytes.length then bytes.getD (k - off) 0 else b k

/-- A record is written. -/
def putRecord (b : Block) (o ino len : Nat) (name : Name) (type : UInt8) : Block :=
  let b := wr16w (wr32w b o ino) (o + 4) len
  let b := update (update b (o + 6) (UInt8.ofNat name.length)) (o + 7) type
  copyIn b (o + 8) name

/-- A record is put into the slack of the one at `o`. -/
def addAt (b : Block) (o : Nat) (name : Name) (ino : Nat) (type : UInt8) : Block :=
  putRecord (if usedRoom b o ≠ 0 then wr16w b (o + 4) (usedRoom b o) else b) (o + usedRoom b o) ino
    (slack b o) name type

/-- The loop of `dir_add` over one block. -/
def addIn (bs : Nat) (b : Block) (name : Name) (ino : Nat) (type : UInt8) : Option Block :=
  ((records bs b).find? fun o => decide (slotSize name.length ≤ slack b o)).map fun o =>
    addAt b o name ino type

/-- The record at `o` goes; `prev` is the one before it. -/
def dropAt (b : Block) (prev : Option Nat) (o : Nat) : Block :=
  match prev with
  | some p => wr16w b (p + 4) (recLen b p + recLen b o)
  | none => wr32w b o 0

/-- The loop of `dir_remove` over the records of one block: the block and the inode removed. -/
def removeFrom (b : Block) (name : Name) : Option Nat → List Nat → Option (Block × Nat)
  | _, [] => none
  | prev, o :: rest =>
    if live b o && nameOf b o == name then some (dropAt b prev o, recIno b o)
    else removeFrom b name (some o) rest

/-- The loop of `dir_remove` over one block. -/
def removeIn (bs : Nat) (b : Block) (name : Name) : Option (Block × Nat) :=
  removeFrom b name none (records bs b)

/-- The name of a directory's entry for itself. -/
def dot : Name := [46]

/-- The name of a directory's entry for its parent. -/
def dotdot : Name := [46, 46]

/-- The loop of `dir_is_empty` over one block. -/
def emptyIn (bs : Nat) (b : Block) : Bool :=
  (records bs b).all fun o => !live b o || nameOf b o == dot || nameOf b o == dotdot

/-! ## The walk -/

variable {b b' : Block} {bs ino o : Nat} {mid os post pre : List Nat} {name : Name}

theorem recOk_iff :
    recOk bs b o = true ↔ o + 8 ≤ bs ∧ 8 ≤ recLen b o ∧ o + recLen b o ≤ bs := by
  simp [recOk, and_assoc]

theorem recordsFrom_fuel (bs : Nat) (b : Block) (n m o : Nat) (hn : bs - o ≤ n) (hm : bs - o ≤ m) :
    recordsFrom bs b n o = recordsFrom bs b m o := by
  induction n generalizing m o with
  | zero =>
    cases m with
    | zero => rfl
    | succ m =>
      rw [recordsFrom, recordsFrom, if_neg]
      rw [recOk_iff]
      omega
  | succ n ih =>
    cases m with
    | zero =>
      rw [recordsFrom, recordsFrom, if_neg]
      rw [recOk_iff]
      omega
    | succ m =>
      rw [recordsFrom, recordsFrom]
      split
      next hOk =>
        rw [recOk_iff] at hOk
        rw [ih m (o + recLen b o) (by omega) (by omega)]
      next => rfl

theorem recordsAt_eq (bs : Nat) (b : Block) (o : Nat) :
    recordsAt bs b o = if recOk bs b o then o :: recordsAt bs b (o + recLen b o) else [] := by
  unfold recordsAt
  cases hFuel : bs - o with
  | zero =>
    rw [recordsFrom, if_neg]
    rw [recOk_iff]
    omega
  | succ n =>
    rw [recordsFrom]
    split
    next hOk =>
      rw [recOk_iff] at hOk
      rw [recordsFrom_fuel bs b n _ (o + recLen b o) (by omega) le_rfl]
    next => rfl

variable {i len start : Nat} {type : UInt8} {prev : Option Nat}

/-- Records are met in order. -/
theorem le_of_mem_recordsAt (h : o ∈ recordsAt bs b start) :
    start ≤ o ∧ recOk bs b o = true := by
  induction hFuel : bs - start using Nat.strong_induction_on generalizing start with
  | _ n ih =>
    rw [recordsAt_eq] at h
    split at h
    next hOk =>
      rcases mem_cons.mp h with rfl | hRest
      · exact ⟨le_rfl, hOk⟩
      · have hOk' := recOk_iff.mp hOk
        obtain ⟨hLe, hHere⟩ := ih (bs - (start + recLen b start)) (by omega) hRest rfl
        exact ⟨by omega, hHere⟩
    next => simp at h

theorem recordsAt_pairwise (bs : Nat) (b : Block) (start : Nat) :
    (recordsAt bs b start).Pairwise (· < ·) := by
  induction hFuel : bs - start using Nat.strong_induction_on generalizing start with
  | _ n ih =>
    rw [recordsAt_eq]
    split
    next hOk =>
      have hOk' := recOk_iff.mp hOk
      refine pairwise_cons.mpr ⟨fun q hq => ?_, ih _ (by omega) _ rfl⟩
      have hLe := (le_of_mem_recordsAt hq).1
      omega
    next => exact List.Pairwise.nil

/-- What lies before a record is walked as before when the bytes from the record on change. -/
theorem recordsAt_before (hSame : ∀ k, k < o → b' k = b k) (hMem : o ∈ recordsAt bs b start) :
    ∃ pre, recordsAt bs b start = pre ++ recordsAt bs b o ∧
      recordsAt bs b' start = pre ++ recordsAt bs b' o ∧
      ∀ q ∈ pre, recOk bs b q = true ∧ q + recLen b q ≤ o := by
  induction hFuel : bs - start using Nat.strong_induction_on generalizing start with
  | _ n ih =>
    by_cases hEq : o = start
    · subst hEq
      exact ⟨[], rfl, rfl, fun q hq => absurd hq not_mem_nil⟩
    rw [recordsAt_eq] at hMem
    split at hMem
    next hOk =>
      have hRest := (mem_cons.mp hMem).resolve_left hEq
      have hOk' := recOk_iff.mp hOk
      have hLe := (le_of_mem_recordsAt hRest).1
      have hLen : recLen b' start = recLen b start :=
        getLE_congr fun k hk => hSame _ (by omega)
      have hOkNew : recOk bs b' start = true := by
        rw [recOk_iff, hLen]
        exact hOk'
      obtain ⟨pre, hOld, hNew, hPre⟩ := ih (bs - (start + recLen b start)) (by omega) hRest rfl
      refine ⟨start :: pre, ?_, ?_, fun q hq => ?_⟩
      · rw [recordsAt_eq, if_pos hOk, hOld]
        rfl
      · rw [recordsAt_eq bs b' start, if_pos hOkNew, hLen, hNew]
        rfl
      · rcases mem_cons.mp hq with rfl | hIn
        · exact ⟨hOk, hLe⟩
        · exact hPre q hIn
    next => simp at hMem

/-- What lies behind the bytes that change is walked as before. -/
theorem recordsAt_after (hSame : ∀ k, o ≤ k → b' k = b k) :
    recordsAt bs b' o = recordsAt bs b o := by
  induction hFuel : bs - o using Nat.strong_induction_on generalizing o with
  | _ n ih =>
    have hLen : recLen b' o = recLen b o := getLE_congr fun k hk => hSame _ (by omega)
    have hOk : recOk bs b' o = recOk bs b o := by rw [recOk, recOk, hLen]
    rw [recordsAt_eq, recordsAt_eq bs b o, hOk, hLen]
    split
    next hHere =>
      have hHere := recOk_iff.mp hHere
      rw [ih (bs - (o + recLen b o)) (by omega) (fun k hk => hSame k (by omega)) rfl]
    next => rfl

/-- The entries among the records at the offsets given. -/
def entriesAt (b : Block) (os : List Nat) : List (Name × Nat) :=
  (os.filter (live b)).map fun o => (nameOf b o, recIno b o)

@[simp]
theorem entriesAt_append (b : Block) (os os' : List Nat) :
    entriesAt b (os ++ os') = entriesAt b os ++ entriesAt b os' := by
  simp [entriesAt]

theorem entriesAt_cons_live (hLive : live b o = true) (os : List Nat) :
    entriesAt b (o :: os) = (nameOf b o, recIno b o) :: entriesAt b os := by
  simp [entriesAt, hLive]

theorem entriesAt_cons_dead (hDead : live b o = false) (os : List Nat) :
    entriesAt b (o :: os) = entriesAt b os := by
  simp [entriesAt, hDead]

/-- The header of a record is in its first eight bytes. -/
theorem header_congr (hSame : ∀ k, o ≤ k → k < o + 8 → b' k = b k) :
    recIno b' o = recIno b o ∧ recLen b' o = recLen b o ∧ nameLen b' o = nameLen b o := by
  refine ⟨getLE_congr fun k hk => hSame _ (by omega) (by omega),
    getLE_congr fun k hk => hSame _ (by omega) (by omega), ?_⟩
  rw [nameLen, nameLen, hSame _ (by omega) (by omega)]

theorem nameOf_congr (hLen : nameLen b' o = nameLen b o)
    (hSame : ∀ k, o + 8 ≤ k → k < o + 8 + nameLen b o → b' k = b k) : nameOf b' o = nameOf b o := by
  unfold nameOf
  rw [hLen]
  refine map_congr_left fun i hi => hSame _ (by omega) ?_
  have hi := mem_range.mp hi
  omega

/-- The record shows the entry it showed. -/
structure SameEntry (b b' : Block) (o : Nat) : Prop where
  ino : recIno b' o = recIno b o
  nameLen : nameLen b' o = nameLen b o
  name : live b o = true → nameOf b' o = nameOf b o

/-- The record is as it was. -/
structure SameRecord (b b' : Block) (o : Nat) : Prop extends SameEntry b b' o where
  len : recLen b' o = recLen b o

theorem SameEntry.live (h : SameEntry b b' o) : live b' o = live b o := by
  unfold Vfsd.live
  rw [h.ino, h.nameLen]

theorem SameEntry.used (h : SameEntry b b' o) :
    usedRoom b' o = usedRoom b o := by
  unfold usedRoom
  rw [h.ino, h.nameLen]

theorem entriesAt_congr (hSame : ∀ o ∈ os, SameEntry b b' o) :
    entriesAt b' os = entriesAt b os := by
  induction os with
  | nil => rfl
  | cons o os ih =>
    have hHere := hSame o mem_cons_self
    have hRest := ih fun q hq => hSame q (mem_cons_of_mem _ hq)
    cases hLive : live b o with
    | true =>
      rw [entriesAt_cons_live hLive, entriesAt_cons_live (hHere.live.trans hLive), hRest, hHere.ino,
        hHere.name hLive]
    | false =>
      rw [entriesAt_cons_dead hLive, entriesAt_cons_dead (hHere.live.trans hLive), hRest]

/-! ## Packed blocks -/

/-- Every record has room for its own name. -/
def Packed (bs : Nat) (b : Block) : Prop := ∀ o ∈ records bs b, usedRoom b o ≤ recLen b o

instance (bs : Nat) (b : Block) : Decidable (Packed bs b) :=
  inferInstanceAs (Decidable (∀ o ∈ _, _))

/-- The bytes the records of a block take up. -/
def filled (bs : Nat) (b : Block) : Nat := ((records bs b).map (recLen b)).sum

/-- The records tile the block: they take up all of it, and every one has room for its name. -/
structure Tiled (bs : Nat) (b : Block) : Prop where
  packed : Packed bs b
  filled : filled bs b = bs

theorem le_slotSize (len : Nat) : 8 + len ≤ slotSize len ∧ slotSize len ≤ 11 + len := by
  unfold slotSize
  omega

/-- A record whose bytes did not change. -/
theorem sameRecord_of_bytes (hLen : 8 ≤ recLen b o) (hRoom : usedRoom b o ≤ recLen b o)
    (hSame : ∀ k, o ≤ k → k < o + recLen b o → b' k = b k) :
    SameRecord b b' o := by
  obtain ⟨hIno, hRec, hName⟩ := header_congr fun k hLow hHigh => hSame k hLow (by omega)
  refine ⟨⟨hIno, hName, fun hLive => nameOf_congr hName fun k hLow hHigh => hSame k (by omega) ?_⟩,
    hRec⟩
  have hNe : recIno b o ≠ 0 := by
    intro hZero
    simp [live, hZero] at hLive
  have hSlot := le_slotSize (nameLen b o)
  rw [usedRoom, if_neg hNe] at hRoom
  omega

/-- A block in which only the bytes of one record changed: the records before and behind it are what
they were. -/
structure Edited (bs : Nat) (b b' : Block) (o : Nat) (pre post : List Nat) : Prop where
  old : records bs b = pre ++ o :: post
  new : records bs b' = pre ++ recordsAt bs b' o
  rest : recordsAt bs b' (o + recLen b o) = post
  same : ∀ q ∈ pre ++ post, SameRecord b b' q

theorem edited_of_bytes (b' : Block) (hPacked : Packed bs b) (hMem : o ∈ records bs b)
    (hSame : ∀ k, k < o ∨ o + recLen b o ≤ k → b' k = b k) :
    ∃ pre post, Edited bs b b' o pre post := by
  obtain ⟨pre, hOld, hNew, hPre⟩ := recordsAt_before (fun k hk => hSame k (.inl hk)) hMem
  have hOk := (le_of_mem_recordsAt hMem).2
  have hSplit : records bs b = pre ++ o :: recordsAt bs b (o + recLen b o) := by
    rw [records, hOld, recordsAt_eq, if_pos hOk]
  refine ⟨pre, recordsAt bs b (o + recLen b o), hSplit, hNew,
    recordsAt_after fun k hk => hSame k (.inr hk), fun q hq => ?_⟩
  rcases mem_append.mp hq with hIn | hIn
  · obtain ⟨hQ, hEnd⟩ := hPre q hIn
    have hRoom : usedRoom b q ≤ recLen b q := hPacked q (by
      rw [hSplit]
      exact mem_append_left _ hIn)
    exact sameRecord_of_bytes (recOk_iff.mp hQ).2.1 hRoom fun k _ hk => hSame k (by omega)
  · obtain ⟨hLow, hQ⟩ := le_of_mem_recordsAt hIn
    have hRoom : usedRoom b q ≤ recLen b q := hPacked q (by
      rw [hSplit]
      exact mem_append_right _ (mem_cons_of_mem _ hIn))
    exact sameRecord_of_bytes (recOk_iff.mp hQ).2.1 hRoom fun k hk _ => hSame k (by omega)

/-- The same for a record that is known by its place. -/
theorem edited_of_split (b' : Block) (hPacked : Packed bs b)
    (hSplit : records bs b = pre ++ o :: post)
    (hSame : ∀ k, k < o ∨ o + recLen b o ≤ k → b' k = b k) : Edited bs b b' o pre post := by
  have hMem : o ∈ records bs b := by
    rw [hSplit]
    exact mem_append_right _ mem_cons_self
  obtain ⟨pre', post', hEdit⟩ := edited_of_bytes b' hPacked hMem hSame
  have hNodup : (pre ++ o :: post).Nodup := hSplit ▸ (recordsAt_pairwise bs b 0).imp Nat.ne_of_lt
  have hOnce := nodup_middle.mp hNodup
  have hNot := (nodup_cons.mp hOnce).1
  obtain ⟨rfl, -, rfl⟩ := (append_cons_inj_of_notMem
    (fun hIn => hNot (mem_append_left _ hIn))
    (fun hIn => hNot (mem_append_right _ hIn))).mp (hSplit.symm.trans hEdit.old)
  exact hEdit

/-- The entries, when the record's place is taken by the records `mid`. -/
theorem Edited.entries (h : Edited bs b b' o pre post) (hMid : recordsAt bs b' o = mid ++ post) :
    entries bs b = entriesAt b pre ++ (entriesAt b [o] ++ entriesAt b post) ∧
      entries bs b' = entriesAt b pre ++ (entriesAt b' mid ++ entriesAt b post) := by
  have hPre := entriesAt_congr fun q hq => (h.same q (mem_append_left _ hq)).toSameEntry
  have hPost := entriesAt_congr fun q hq => (h.same q (mem_append_right _ hq)).toSameEntry
  constructor
  · change entriesAt b (records bs b) = _
    rw [h.old, entriesAt_append]
    exact congrArg _ (entriesAt_append b [o] post)
  · change entriesAt b' (records bs b') = _
    rw [h.new, hMid]
    simp only [entriesAt_append, hPre, hPost]

theorem Edited.packed (h : Edited bs b b' o pre post) (hPacked : Packed bs b)
    (hMid : recordsAt bs b' o = mid ++ post) (hRoom : ∀ q ∈ mid, usedRoom b' q ≤ recLen b' q) :
    Packed bs b' := by
  intro q hq
  rw [h.new, hMid] at hq
  have hKept : q ∈ pre ++ post → usedRoom b' q ≤ recLen b' q := by
    intro hIn
    rw [(h.same q hIn).used, (h.same q hIn).len]
    refine hPacked q ?_
    rw [h.old]
    rcases mem_append.mp hIn with hPre | hPost
    · exact mem_append_left _ hPre
    · exact mem_append_right _ (mem_cons_of_mem _ hPost)
  rcases mem_append.mp hq with hPre | hq
  · exact hKept (mem_append_left _ hPre)
  · rcases mem_append.mp hq with hIn | hPost
    · exact hRoom q hIn
    · exact hKept (mem_append_right _ hPost)

theorem Edited.filled (h : Edited bs b b' o pre post) (hMid : recordsAt bs b' o = mid ++ post)
    (hLen : (mid.map (recLen b')).sum = recLen b o) : filled bs b' = filled bs b := by
  have hSame : (pre ++ post).map (recLen b') = (pre ++ post).map (recLen b) :=
    map_congr_left fun q hq => (h.same q hq).len
  have hSum := congrArg List.sum hSame
  unfold Vfsd.filled
  rw [h.old, h.new, hMid]
  simp only [map_append, map_cons, sum_append, sum_cons] at hSum ⊢
  omega

/-! ## Adding -/

theorem putRecord_byte {k : Nat} (hk : k < o ∨ o + 8 + name.length ≤ k) :
    putRecord b o ino len name type k = b k := by
  have hSix : k ≠ o + 6 := by omega
  have hSeven : k ≠ o + 7 := by omega
  unfold putRecord copyIn
  rw [if_neg (by omega), update_of_ne hSeven, update_of_ne hSix, wr16w,
    setLE_of_not_mem (by omega), wr32w, setLE_of_not_mem (by omega)]

/-- The record that was written. -/
theorem putRecord_fields (b : Block) (o : Nat) (type : UInt8) (hIno : ino < 2 ^ 32)
    (hLen : len < 2 ^ 16) (hName : name.length < 2 ^ 8) :
    recIno (putRecord b o ino len name type) o = ino ∧
    recLen (putRecord b o ino len name type) o = len ∧
    nameLen (putRecord b o ino len name type) o = name.length ∧
    nameOf (putRecord b o ino len name type) o = name := by
  have hHead : ∀ k, k < 6 → putRecord b o ino len name type (o + k) =
      wr16w (wr32w b o ino) (o + 4) len (o + k) := by
    intro k hk
    have hSix : o + k ≠ o + 6 := by omega
    have hSeven : o + k ≠ o + 7 := by omega
    unfold putRecord copyIn
    rw [if_neg (by omega), update_of_ne hSeven, update_of_ne hSix]
  have hNameLen : nameLen (putRecord b o ino len name type) o = name.length := by
    unfold nameLen putRecord copyIn
    rw [if_neg (by omega), update_of_ne (by omega), update_self, UInt8.toNat_ofNat',
      Nat.mod_eq_of_lt hName]
  refine ⟨?_, ?_, hNameLen, ?_⟩
  · have hSame : recIno (putRecord b o ino len name type) o =
        rd32 (wr16w (wr32w b o ino) (o + 4) len) o := getLE_congr fun k hk => hHead k (by omega)
    rw [hSame, rd32_wr16w_of_disjoint (by omega), rd32_wr32w_self, Nat.mod_eq_of_lt hIno]
  · have hSame : recLen (putRecord b o ino len name type) o =
        rd16 (wr16w (wr32w b o ino) (o + 4) len) (o + 4) := getLE_congr fun k hk => by
      rw [Nat.add_assoc]
      exact hHead (4 + k) (by omega)
    rw [hSame, rd16_wr16w_self, Nat.mod_eq_of_lt hLen]
  · unfold nameOf
    rw [hNameLen]
    refine ext_getElem (by simp) fun i hi hi' => ?_
    have hAt : o + 8 + i - (o + 8) = i := by omega
    rw [getElem_map, getElem_range]
    unfold putRecord copyIn
    rw [if_pos (by omega), hAt, getD_eq_getElem _ _ hi']

theorem slack_eq (hRoom : usedRoom b o ≤ recLen b o) :
    slack b o = recLen b o - usedRoom b o := by
  have hLen : recLen b o < 2 ^ 16 := rd16_lt b _
  unfold slack
  omega

section Add
variable {bs : Nat} {b : Block} {o ino : Nat} {name : Name} (type : UInt8)

variable (ino) in
/-- The record before the new one keeps what it uses. -/
theorem addAt_byte (hRoom : usedRoom b o ≤ recLen b o)
    (hSlack : slotSize name.length ≤ slack b o) {k : Nat}
    (hk : k < o + usedRoom b o ∧ (k < o + 4 ∨ o + 6 ≤ k) ∨ o + recLen b o ≤ k) :
    addAt b o name ino type k = b k := by
  have hSlot := le_slotSize name.length
  rw [slack_eq hRoom] at hSlack
  unfold addAt
  rw [putRecord_byte (by omega)]
  split
  next => rw [wr16w, setLE_of_not_mem (by omega)]
  next => rfl

/-- The new record. -/
theorem addAt_fields (hRoom : usedRoom b o ≤ recLen b o) (hIno : ino < 2 ^ 32)
    (hName : name.length < 2 ^ 8) :
    recIno (addAt b o name ino type) (o + usedRoom b o) = ino ∧
    recLen (addAt b o name ino type) (o + usedRoom b o) = recLen b o - usedRoom b o ∧
    nameLen (addAt b o name ino type) (o + usedRoom b o) = name.length ∧
    nameOf (addAt b o name ino type) (o + usedRoom b o) = name := by
  have hLen : recLen b o < 2 ^ 16 := rd16_lt b _
  unfold addAt
  rw [slack_eq hRoom]
  exact putRecord_fields _ _ type hIno (by omega) hName

variable (ino) in
/-- The record that gave its slack. -/
theorem addAt_giver (hRoom : usedRoom b o ≤ recLen b o) (hSlack : slotSize name.length ≤ slack b o)
    (hUsed : usedRoom b o ≠ 0) :
    SameEntry b (addAt b o name ino type) o ∧
      recLen (addAt b o name ino type) o = usedRoom b o := by
  have hNe : recIno b o ≠ 0 := by
    intro hZero
    exact hUsed (if_pos hZero)
  have hEq : usedRoom b o = slotSize (nameLen b o) := if_neg hNe
  have hSlot := le_slotSize (nameLen b o)
  have hByte := fun {k} => addAt_byte ino type hRoom hSlack (k := k)
  have hLen : recLen b o < 2 ^ 16 := rd16_lt b _
  have hName : nameLen (addAt b o name ino type) o = nameLen b o := by
    rw [nameLen, nameLen, hByte (by omega)]
  refine ⟨⟨getLE_congr fun k hk => hByte (by omega), hName,
    fun _ => nameOf_congr hName fun k hLow hHigh => hByte (by omega)⟩, ?_⟩
  unfold addAt
  rw [if_pos hUsed]
  have hSame : recLen (putRecord (wr16w b (o + 4) (usedRoom b o)) (o + usedRoom b o) ino (slack b o)
      name type) o = rd16 (wr16w b (o + 4) (usedRoom b o)) (o + 4) :=
    getLE_congr fun k hk => putRecord_byte (by omega)
  rw [hSame, rd16_wr16w_self, Nat.mod_eq_of_lt (by omega)]

/-- A name goes into a block: the entries are those there were and the new one. -/
theorem entries_addAt (hPacked : Packed bs b) (hMem : o ∈ records bs b)
    (hSlack : slotSize name.length ≤ slack b o) (hPos : 0 < ino) (hIno : ino < 2 ^ 32)
    (hSome : 0 < name.length) (hName : name.length < 2 ^ 8) :
    Packed bs (addAt b o name ino type) ∧
      (entries bs (addAt b o name ino type)).Perm ((name, ino) :: entries bs b) ∧
      filled bs (addAt b o name ino type) = filled bs b := by
  have hRoom := hPacked o hMem
  have hOk := recOk_iff.mp (le_of_mem_recordsAt hMem).2
  have hSlot := le_slotSize name.length
  have hSpare := hSlack
  rw [slack_eq hRoom] at hSpare
  have hByte := fun {k} => addAt_byte ino type hRoom hSlack (k := k)
  obtain ⟨hNewIno, hNewLen, hNewName, hNewBytes⟩ := addAt_fields type hRoom hIno hName
  have hGiver := addAt_giver ino type hRoom hSlack
  obtain ⟨pre, post, hEdit⟩ := edited_of_bytes (addAt b o name ino type) hPacked hMem
    fun k hk => hByte (by omega)
  generalize addAt b o name ino type = b' at *
  have hLive : live b' (o + usedRoom b o) = true := by
    simp [live, hNewIno, hNewName, hPos.ne', hSome]
  have hNew : recordsAt bs b' (o + usedRoom b o) = (o + usedRoom b o) :: post := by
    have hEnd : o + usedRoom b o + (recLen b o - usedRoom b o) = o + recLen b o := by omega
    rw [recordsAt_eq, if_pos (recOk_iff.mpr (by omega)), hNewLen, hEnd, hEdit.rest]
  have hNewRoom : usedRoom b' (o + usedRoom b o) ≤ recLen b' (o + usedRoom b o) := by
    rw [usedRoom, hNewIno, if_neg hPos.ne', hNewName, hNewLen]
    exact hSpare
  by_cases hUsed : usedRoom b o = 0
  · -- The record was free: the new one takes its place.
    rw [hUsed, Nat.add_zero] at hNew hNewRoom hLive hNewIno hNewBytes hNewLen
    have hDead : live b o = false := by
      have hFree : recIno b o = 0 := by
        by_contra hNe
        rw [usedRoom, if_neg hNe] at hUsed
        have hEight := (le_slotSize (nameLen b o)).1
        omega
      simp [live, hFree]
    have hMid : recordsAt bs b' o = [o] ++ post := hNew
    obtain ⟨hOld, hAfter⟩ := hEdit.entries hMid
    refine ⟨hEdit.packed hPacked hMid fun q hq => ?_, ?_, hEdit.filled hMid (by simpa using hNewLen)⟩
    · rw [mem_singleton.mp hq]
      exact hNewRoom
    · rw [hOld, hAfter, entriesAt_cons_dead hDead, entriesAt_cons_live hLive, hNewIno, hNewBytes]
      exact perm_middle
  · -- It gave its slack: the new record is behind it.
    obtain ⟨hSame, hLen'⟩ := hGiver hUsed
    have hEight : 8 ≤ usedRoom b o := by
      have hEight := (le_slotSize (nameLen b o)).1
      unfold usedRoom at hUsed ⊢
      split
      next hZero => exact absurd (if_pos hZero) hUsed
      next => omega
    have hMid : recordsAt bs b' o = [o, o + usedRoom b o] ++ post := by
      rw [recordsAt_eq, if_pos (recOk_iff.mpr (by omega)), hLen', hNew]
      rfl
    obtain ⟨hOld, hAfter⟩ := hEdit.entries hMid
    refine ⟨hEdit.packed hPacked hMid fun q hq => ?_, ?_, hEdit.filled hMid ?_⟩
    · rcases mem_cons.mp hq with rfl | hq
      · rw [hLen', hSame.used]
      · rw [mem_singleton.mp hq]
        exact hNewRoom
    · have hGave : entriesAt b' [o] = entriesAt b [o] :=
        entriesAt_congr fun q hq => mem_singleton.mp hq ▸ hSame
      have hBoth : entriesAt b' [o, o + usedRoom b o] = entriesAt b [o] ++ [(name, ino)] := by
        have hNewEntry : entriesAt b' [o + usedRoom b o] = [(name, ino)] := by
          rw [entriesAt_cons_live hLive, hNewIno, hNewBytes]
          rfl
        rw [← hGave, ← hNewEntry]
        exact entriesAt_append b' [o] [o + usedRoom b o]
      rw [hOld, hAfter, hBoth, append_assoc, ← append_assoc]
      exact perm_middle.trans (by simp)
    · simp only [map_cons, map_nil, sum_cons, sum_nil, hLen', hNewLen]
      omega

end Add

/-! ## Removing -/

/-- Where `dir_remove` finds the name: the first record that has it. -/
theorem removeFrom_some (hSome : removeFrom b name prev os = some (b', i)) :
    ∃ pre o post, os = pre ++ o :: post ∧ live b o = true ∧ nameOf b o = name ∧ recIno b o = i ∧
      b' = dropAt b (pre.getLast?.or prev) o := by
  induction os generalizing prev with
  | nil => cases hSome
  | cons o os ih =>
    rw [removeFrom] at hSome
    split at hSome
    next hHere =>
      rw [Bool.and_eq_true, beq_iff_eq] at hHere
      obtain ⟨rfl, rfl⟩ := Prod.mk.inj (Option.some.inj hSome)
      exact ⟨[], o, os, rfl, hHere.1, hHere.2, rfl, rfl⟩
    next =>
      obtain ⟨pre, q, post, rfl, hLive, hName, hIno, hDrop⟩ := ih hSome
      refine ⟨o :: pre, q, post, rfl, hLive, hName, hIno, ?_⟩
      rw [hDrop, List.getLast?_cons]
      cases hLast : pre.getLast? with
      | none | some => simp

section Remove
variable {bs : Nat} {b : Block} {o : Nat} {post : List Nat}

/-- The first record of the block goes: it stays as one without an inode. -/
theorem records_dropFirst (hPacked : Packed bs b) (hSplit : records bs b = o :: post) :
    records bs (wr32w b o 0) = o :: post ∧ recIno (wr32w b o 0) o = 0 ∧
      recLen (wr32w b o 0) o = recLen b o ∧ ∀ q ∈ post, SameRecord b (wr32w b o 0) q := by
  have hMem : o ∈ records bs b := by
    rw [hSplit]
    exact mem_cons_self
  have hOk' := recOk_iff.mp (le_of_mem_recordsAt hMem).2
  have hNone : records bs b = [] ++ o :: post := hSplit
  have hEdit := edited_of_split (wr32w b o 0) hPacked hNone fun k hk =>
    setLE_of_not_mem (by omega)
  have hLen : recLen (wr32w b o 0) o = recLen b o := rd16_wr32w_of_disjoint (by omega)
  refine ⟨?_, rd32_wr32w_self b o 0, hLen, hEdit.same⟩
  rw [hEdit.new, recordsAt_eq, if_pos (recOk_iff.mpr (by rw [hLen]; exact hOk')), hLen, hEdit.rest]
  rfl

variable {p : Nat}

/-- A record goes: the one before it swallows it. -/
theorem records_dropNext (hPacked : Packed bs b) (hSize : bs < 2 ^ 16)
    (hSplit : records bs b = pre ++ p :: o :: post) :
    let b' := wr16w b (p + 4) (recLen b p + recLen b o)
    records bs b' = pre ++ p :: post ∧ SameEntry b b' p ∧ recLen b' p = recLen b p + recLen b o ∧
      ∀ q ∈ pre ++ post, SameRecord b b' q := by
  have hMem : ∀ q, q ∈ pre ++ p :: o :: post → q ∈ records bs b := fun q hq => hSplit ▸ hq
  have hOkP := recOk_iff.mp (le_of_mem_recordsAt (hMem p (by simp))).2
  have hOkO := recOk_iff.mp (le_of_mem_recordsAt (hMem o (by simp))).2
  have hByte : ∀ k, k < p + 4 ∨ p + 6 ≤ k →
      wr16w b (p + 4) (recLen b p + recLen b o) k = b k := fun k hk => setLE_of_not_mem (by omega)
  have hEdit := edited_of_split (wr16w b (p + 4) (recLen b p + recLen b o)) hPacked hSplit
    fun k hk => hByte k (by omega)
  have hNext := hEdit.rest
  generalize hNew : wr16w b (p + 4) (recLen b p + recLen b o) = b' at *
  -- The record behind `p` is at its end.
  rw [recordsAt_eq] at hNext
  split at hNext
  next hOk =>
    obtain ⟨hAt, hPost⟩ := List.cons.inj hNext
    subst hAt
    have hLenO := (hEdit.same (p + recLen b p) (by simp)).len
    rw [hLenO] at hPost
    have hLenP : recLen b' p = recLen b p + recLen b (p + recLen b p) := by
      rw [← hNew]
      exact (rd16_wr16w_self _ _ _).trans (Nat.mod_eq_of_lt (by omega))
    have hName : nameLen b' p = nameLen b p := by rw [nameLen, nameLen, hByte _ (by omega)]
    refine ⟨?_, ⟨getLE_congr fun k hk => hByte _ (by omega), hName,
      fun _ => nameOf_congr hName fun k _ _ => hByte _ (by omega)⟩, hLenP, fun q hq => ?_⟩
    · rw [hEdit.new, recordsAt_eq, if_pos (recOk_iff.mpr (by omega)), hLenP, ← Nat.add_assoc, hPost]
    · exact hEdit.same q (by rcases mem_append.mp hq with h | h <;> simp [h])
  next => cases hNext

/-- What is left of the records when one goes: all show what they showed, and none has less room. -/
structure Dropped (bs : Nat) (b b' : Block) (pre post : List Nat) : Prop where
  packed : Packed bs b'
  entries : entries bs b' = entriesAt b pre ++ entriesAt b post
  filled : filled bs b' = filled bs b
  room : ∀ {need}, (∃ q ∈ records bs b, need ≤ slack b q) → ∃ q ∈ records bs b', need ≤ slack b' q

theorem SameRecord.slack {q : Nat} (h : SameRecord b b' q) :
    slack b' q = slack b q := by
  unfold Vfsd.slack
  rw [h.used, h.len]

theorem dropped_first (hPacked : Packed bs b) (hSplit : records bs b = o :: post) :
    Dropped bs b (wr32w b o 0) [] post := by
  obtain ⟨hRecords, hIno, hLen, hSame⟩ := records_dropFirst hPacked hSplit
  generalize wr32w b o 0 = b' at *
  have hUsed : usedRoom b' o = 0 := if_pos hIno
  have hDead : live b' o = false := by simp [live, hIno]
  have hRoom := hPacked o (by rw [hSplit]; exact mem_cons_self)
  have hLens : post.map (recLen b') = post.map (recLen b) :=
    map_congr_left fun q hq => (hSame q hq).len
  refine ⟨fun q hq => ?_, ?_, by simp only [filled, hRecords, hSplit, map_cons, hLen, hLens], ?_⟩
  · rw [hRecords] at hq
    rcases mem_cons.mp hq with rfl | hq
    · rw [hUsed]
      exact Nat.zero_le _
    · rw [(hSame q hq).used, (hSame q hq).len]
      exact hPacked q (by rw [hSplit]; exact mem_cons_of_mem _ hq)
  · change entriesAt b' (records bs b') = _
    rw [hRecords, entriesAt_cons_dead hDead]
    exact entriesAt_congr fun q hq => (hSame q hq).toSameEntry
  · rintro need ⟨q, hq, hNeed⟩
    rw [hSplit] at hq
    rcases mem_cons.mp hq with rfl | hq
    · refine ⟨q, by rw [hRecords]; exact mem_cons_self, ?_⟩
      rw [slack_eq hRoom] at hNeed
      rw [slack_eq (by omega), hUsed, hLen]
      omega
    · exact ⟨q, by rw [hRecords]; exact mem_cons_of_mem _ hq, by rw [(hSame q hq).slack]; exact hNeed⟩

theorem dropped_next (hPacked : Packed bs b) (hSize : bs < 2 ^ 16)
    (hSplit : records bs b = pre ++ p :: o :: post) :
    Dropped bs b (wr16w b (p + 4) (recLen b p + recLen b o)) (pre ++ [p]) post := by
  obtain ⟨hRecords, hSameP, hLen, hSame⟩ := records_dropNext hPacked hSize hSplit
  generalize wr16w b (p + 4) (recLen b p + recLen b o) = b' at *
  have hMem : ∀ q, q ∈ pre ++ p :: o :: post → usedRoom b q ≤ recLen b q := fun q hq =>
    hPacked q (hSplit ▸ hq)
  have hRoomP := hMem p (by simp)
  have hRoomO := hMem o (by simp)
  have hCases : ∀ q, q ∈ pre ++ p :: post → q = p ∨ q ∈ pre ++ post := by
    intro q hq
    simp only [mem_append, mem_cons] at hq ⊢
    tauto
  have hSlackP : slack b' p = recLen b p + recLen b o - usedRoom b p := by
    rw [slack_eq (by rw [hSameP.used, hLen]; omega), hSameP.used, hLen]
  have hLens : (pre ++ post).map (recLen b') = (pre ++ post).map (recLen b) :=
    map_congr_left fun q hq => (hSame q hq).len
  refine ⟨fun q hq => ?_, ?_, ?_, ?_⟩
  · rw [hRecords] at hq
    rcases hCases q hq with rfl | hq
    · rw [hSameP.used, hLen]
      omega
    · rw [(hSame q hq).used, (hSame q hq).len]
      exact hMem q (by rcases mem_append.mp hq with h | h <;> simp [h])
  · change entriesAt b' (records bs b') = _
    rw [← entriesAt_append, hRecords, append_cons]
    refine entriesAt_congr fun q hq => ?_
    rcases hCases q (by simpa using hq) with rfl | hq
    · exact hSameP
    · exact (hSame q hq).toSameEntry
  · have hSum := congrArg List.sum hLens
    unfold Vfsd.filled
    rw [hRecords, hSplit]
    simp only [map_append, map_cons, sum_append, sum_cons, hLen] at hSum ⊢
    omega
  · rintro need ⟨q, hq, hNeed⟩
    rw [hSplit] at hq
    rw [hRecords]
    by_cases hEq : q = p ∨ q = o
    · refine ⟨p, by simp, ?_⟩
      rcases hEq with rfl | rfl
      · rw [slack_eq hRoomP] at hNeed
        omega
      · rw [slack_eq hRoomO] at hNeed
        omega
    · push Not at hEq
      have hIn : q ∈ pre ++ post := by simpa [hEq.1, hEq.2] using hq
      exact ⟨q, by rcases mem_append.mp hIn with h | h <;> simp [h],
        by rw [(hSame q hIn).slack]; exact hNeed⟩

end Remove

/-- `dir_remove` takes the first entry of the name out, and no other; what room there was is still
there. -/
theorem entries_removeIn (hPacked : Packed bs b) (hSize : bs < 2 ^ 16)
    (hSome : removeIn bs b name = some (b', i)) :
    Packed bs b' ∧ (∃ l l', entries bs b = l ++ (name, i) :: l' ∧ entries bs b' = l ++ l') ∧
      filled bs b' = filled bs b ∧
    ∀ {need}, (∃ q ∈ records bs b, need ≤ slack b q) → ∃ q ∈ records bs b', need ≤ slack b' q := by
  obtain ⟨pre, o, post, hSplit, hLive, rfl, rfl, rfl⟩ := removeFrom_some hSome
  have hOld : entries bs b =
      entriesAt b pre ++ (nameOf b o, recIno b o) :: entriesAt b post := by
    change entriesAt b (records bs b) = _
    rw [hSplit, entriesAt_append, entriesAt_cons_live hLive]
  rcases eq_nil_or_concat pre with rfl | ⟨pre', p, rfl⟩
  · have hDrop := dropped_first hPacked hSplit
    exact ⟨hDrop.packed, ⟨_, _, hOld, hDrop.entries⟩, hDrop.filled, hDrop.room⟩
  · have hSplit' : records bs b = pre' ++ p :: o :: post := by simpa using hSplit
    have hDrop := dropped_next hPacked hSize hSplit'
    rw [concat_eq_append] at hOld ⊢
    rw [List.getLast?_append]
    exact ⟨hDrop.packed, ⟨_, _, hOld, hDrop.entries⟩, hDrop.filled, hDrop.room⟩

/-- `dir_add` puts the name into a block where a record has room for it. -/
theorem entries_addIn (hPacked : Packed bs b) (hPos : 0 < ino) (hIno : ino < 2 ^ 32)
    (hSome : 0 < name.length) (hName : name.length < 2 ^ 8)
    (hAdd : addIn bs b name ino type = some b') :
    Packed bs b' ∧ (entries bs b').Perm ((name, ino) :: entries bs b) ∧
      filled bs b' = filled bs b := by
  obtain ⟨o, hFind, rfl⟩ := Option.map_eq_some_iff.mp hAdd
  have hSlack := List.find?_some hFind
  exact entries_addAt type hPacked (mem_of_find?_eq_some hFind) (of_decide_eq_true hSlack) hPos
    hIno hSome hName

/-- `dir_search` finds the first entry of the name. -/
theorem searchIn_eq (bs : Nat) (b : Block) (name : Name) :
    searchIn bs b name = ((entries bs b).find? fun e => e.1 == name).map Prod.snd := by
  have hSame : (fun o => live b o && nameOf b o == name) =
      fun o => decide (live b o = true ∧ (nameOf b o == name) = true) := by
    funext o
    rw [Bool.decide_and, Bool.decide_eq_true, Bool.decide_eq_true]
  unfold searchIn entries
  rw [List.find?_map, List.find?_filter, Option.map_map, hSame]
  rfl

theorem removeFrom_none :
    removeFrom b name prev os = none ↔ ∀ e ∈ entriesAt b os, e.1 ≠ name := by
  induction os generalizing prev with
  | nil => simp [removeFrom, entriesAt]
  | cons o os ih =>
    rw [removeFrom]
    cases hLive : live b o with
    | false => simp [entriesAt_cons_dead hLive, ih]
    | true =>
      rw [entriesAt_cons_live hLive]
      by_cases hEq : nameOf b o = name
      · simp [hEq]
      · simp [hEq, ih]

theorem emptyIn_iff :
    emptyIn bs b = true ↔ ∀ e ∈ entries bs b, e.1 = dot ∨ e.1 = dotdot := by
  unfold emptyIn entries
  rw [List.all_eq_true]
  constructor
  · intro hAll e he
    obtain ⟨o, ho, rfl⟩ := List.mem_map.mp he
    obtain ⟨hMem, hLive⟩ := mem_filter.mp ho
    simpa [hLive] using hAll o hMem
  · intro hAll o hMem
    cases hLive : live b o with
    | false => simp
    | true => simpa using hAll _ (List.mem_map.mpr ⟨o, mem_filter.mpr ⟨hMem, hLive⟩, rfl⟩)

/-! ## Blocks of one and of two records -/

/-- A record that reaches to the end of the block is the last. -/
theorem recordsAt_last (hLen : 8 ≤ recLen b o) (hEnd : o + recLen b o = bs) :
    recordsAt bs b o = [o] := by
  have hOk : recOk bs b o = true := recOk_iff.mpr (by omega)
  have hStop : recOk bs b bs ≠ true := fun h => by
    have hStop := recOk_iff.mp h
    omega
  rw [recordsAt_eq, if_pos hOk, hEnd, recordsAt_eq, if_neg hStop]

/-- The first block of a new directory. -/
def freshDir (bs ino parent : Nat) : Block :=
  putRecord (putRecord zeroBlock 0 ino 12 dot 2) 12 parent (bs - 12) dotdot 2

theorem entries_freshDir {parent : Nat} (hSize : 1024 ≤ bs) (hBs : bs < 2 ^ 16) (hPos : 0 < ino)
    (hIno : ino < 2 ^ 32) (hParent : 0 < parent) (hParentLt : parent < 2 ^ 32) :
    Tiled bs (freshDir bs ino parent) ∧
      entries bs (freshDir bs ino parent) = [(dot, ino), (dotdot, parent)] := by
  obtain ⟨hI, hL, hN, hB⟩ := putRecord_fields zeroBlock 0 2 hIno
    (show 12 < 2 ^ 16 by decide) (show dot.length < 2 ^ 8 by decide)
  obtain ⟨hI', hL', hN', hB'⟩ := putRecord_fields (putRecord zeroBlock 0 ino 12 dot 2) 12
    2 hParentLt (show bs - 12 < 2 ^ 16 by omega) (show dotdot.length < 2 ^ 8 by decide)
  have hFirst : SameRecord (putRecord zeroBlock 0 ino 12 dot 2) (freshDir bs ino parent) 0 := by
    refine sameRecord_of_bytes (by omega) ?_ fun k _ hk => putRecord_byte (by omega)
    rw [usedRoom, hI, if_neg hPos.ne', hN, hL]
    decide
  unfold freshDir at *
  generalize putRecord (putRecord zeroBlock 0 ino 12 dot 2) 12 parent (bs - 12) dotdot 2 = b at *
  have hLenFirst : recLen b 0 = 12 := hFirst.len.trans hL
  have hRecords : records bs b = [0, 12] := by
    rw [records, recordsAt_eq, if_pos (recOk_iff.mpr (by omega)), hLenFirst, Nat.zero_add,
      recordsAt_last (by omega) (by omega)]
  have hLive : live (putRecord zeroBlock 0 ino 12 dot 2) 0 = true := by
    rw [live, hI, hN]
    simp [hPos.ne', dot]
  have hLive' : live b 12 = true := by simp [live, hI', hN', hParent.ne', dotdot]
  refine ⟨⟨fun o ho => ?_, ?_⟩, ?_⟩
  · rw [hRecords] at ho
    rcases mem_cons.mp ho with rfl | ho
    · rw [hFirst.used, usedRoom, hI, if_neg hPos.ne', hN, hLenFirst]
      decide
    · rw [mem_singleton.mp ho, usedRoom, hI', if_neg hParent.ne', hN', hL', slotSize]
      change (8 + 2 + 3) / 4 * 4 ≤ _
      omega
  · simp only [filled, hRecords, map_cons, map_nil, sum_cons, sum_nil, hLenFirst, hL']
    omega
  · change entriesAt b (records bs b) = _
    rw [hRecords, entriesAt_cons_live (hFirst.live.trans hLive), entriesAt_cons_live hLive', hI', hB',
      hFirst.ino, hI, hFirst.name hLive, hB]
    rfl

/-- The block `dir_add` appends to a directory, with one record. -/
theorem entries_putRecord (type : UInt8) (hSize : 1024 ≤ bs) (hBs : bs < 2 ^ 16) (hPos : 0 < ino)
    (hIno : ino < 2 ^ 32) (hSome : 0 < name.length) (hName : name.length < 2 ^ 8) :
    Tiled bs (putRecord zeroBlock 0 ino bs name type) ∧
      entries bs (putRecord zeroBlock 0 ino bs name type) = [(name, ino)] := by
  obtain ⟨hI, hL, hN, hB⟩ := putRecord_fields zeroBlock 0 type hIno hBs hName
  generalize putRecord zeroBlock 0 ino bs name type = b at *
  have hRecords : records bs b = [0] := recordsAt_last (by omega) (by omega)
  have hSlot := le_slotSize name.length
  have hLive : live b 0 = true := by simp [live, hI, hN, hPos.ne', hSome]
  refine ⟨⟨fun o ho => ?_, by simp [filled, hRecords, hL]⟩, ?_⟩
  · rw [hRecords, mem_singleton] at ho
    rw [ho, usedRoom, hI, if_neg hPos.ne', hN, hL]
    omega
  · change entriesAt b (records bs b) = _
    rw [hRecords, entriesAt_cons_live hLive, hI, hB]
    rfl

end LeahOS.Vfsd
