import LeahOS.Vfsd.Directory

/-!
# A directory as a finite map

`Catalog` is a directory on which `dir_add` and `dir_remove` are called in any order, together with
the map from names to inodes that it should be. `isMap_of_small` says that it is that map: for
`dir_search` by name and by index and for `dir_is_empty`, and that records tile its blocks, after
every sequence of calls in which no block is appended to a directory of 32768 blocks.

The limit is real. An extent of 32768 blocks is the longest there is: `extend` puts one more than
that into the length field, and from then on it reads as one block. `bigDir` is a directory in one
extent of that length, and one more name makes it forget the others.
-/

namespace LeahOS.Vfsd
open Lib Function List Option

/-- A directory, its number and its inode in memory, and the map it should be. -/
structure Catalog where
  vol : Vol
  ino : Nat
  dir : Inode
  map : Name → Option Nat

/-- The calls. -/
inductive DirOp
  | add (name : Name) (ino : Nat) (type : UInt8)
  | remove (name : Name)

namespace Catalog

/-- One call. A name that `dir_add` put in is in the map from then on; one that `dir_remove` was
told to take out is not. -/
def next (s : Catalog) : DirOp → Catalog
  | .add name ino type =>
    let r := s.vol.dirAdd s.dir s.ino name ino type
    { s with vol := r.1, dir := r.2.1,
             map := if r.2.2 then update s.map name (some ino) else s.map }
  | .remove name =>
    { s with vol := ((s.vol.dirRemove s.dir name).map Prod.fst).getD s.vol,
             map := update s.map name none }

/-- The steps of a directory. -/
def Step (s : Catalog) (op : DirOp) (s' : Catalog) : Prop := s' = s.next op

/-- A name that is put in is new and of 1 to 63 bytes, and its inode has a number. -/
def Proper (s : Catalog) : DirOp → Prop
  | .add name ino _ =>
    s.map name = none ∧ 0 < name.length ∧ name.length ≤ 63 ∧ 0 < ino ∧ ino < 2 ^ 32
  | .remove _ => True

/-- A name is put into a directory of fewer than 32768 blocks only. -/
def Small (s : Catalog) : DirOp → Prop
  | .add .. => s.vol.blocks s.dir < 2 ^ 15
  | .remove _ => True

/-- The directory is well formed, its names are distinct and of 1 to 63 bytes, and the map is what
it holds. -/
structure WellFormed (s : Catalog) : Prop where
  dirHand : ∃ others, s.vol.DirHand others s.dir
  distinct : Pairs.Distinct (s.vol.dirEntries s.dir)
  names : ∀ e ∈ s.vol.dirEntries s.dir, 0 < e.1.length ∧ e.1.length ≤ 63
  map : s.map = Pairs.find (s.vol.dirEntries s.dir)

/-- The directory is the map. -/
structure IsMap (s : Catalog) : Prop where
  search : ∀ name ino, s.map name = some ino ↔ s.vol.dirSearch s.dir name = ino ∧ ino ≠ 0
  listed : ∀ name ino, (∃ want kind, s.vol.dirList s.dir want = some (name, kind, ino)) ↔
    s.map name = some ino ∧ name ≠ dot ∧ name ≠ dotdot
  once : ∀ i j x y, s.vol.dirList s.dir i = some x → s.vol.dirList s.dir j = some y →
    x.1 = y.1 → i = j
  empty : s.vol.dirIsEmpty s.dir = true ↔
    ∀ name ino, s.map name = some ino → name = dot ∨ name = dotdot
  tiled : ∀ fb, s.vol.map s.dir fb ≠ 0 → Tiled s.vol.blockSize (s.vol.data (s.vol.map s.dir fb))

/-! ## What the functions read is the map -/

theorem entry_ne_zero {v : Vol} {dir : Inode} {e : Name × Nat} (he : e ∈ v.dirEntries dir) :
    e.2 ≠ 0 := by
  obtain ⟨fb, -, he⟩ := mem_flatMap.mp he
  split at he
  next => cases he
  next =>
    obtain ⟨o, ho, rfl⟩ := List.mem_map.mp he
    have hLive := (mem_filter.mp ho).2
    rw [live, Bool.and_eq_true, decide_eq_true_eq] at hLive
    exact hLive.1

variable {s : Catalog}

/-- With names of at most 63 bytes the listing is the list of entries but for `.` and `..`. -/
theorem WellFormed.listed (h : s.WellFormed) :
    (s.vol.dirListed s.dir).map (fun x => (x.1, x.2.2)) =
      (s.vol.dirEntries s.dir).filter fun e => e.1 != dot && e.1 != dotdot := by
  rw [Vol.dirListed_eq]
  refine (map_congr_left fun e he => ?_).trans (List.map_id _)
  have hShort := (h.names e (mem_filter.mp he).1).2
  rw [take_of_length_le hShort, id]

theorem WellFormed.isMap (h : s.WellFormed) : s.IsMap := by
  have hMem : ∀ name ino, s.map name = some ino ↔ (name, ino) ∈ s.vol.dirEntries s.dir := by
    intro name ino
    rw [h.map]
    exact Pairs.find_eq_some_iff h.distinct
  refine ⟨fun name ino => ?_, fun name ino => ?_, fun i j x y hx hy hEq => ?_, ?_, ?_⟩
  · rw [Vol.dirSearch_eq, ← h.map]
    cases hFind : s.map name with
    | none =>
      constructor
      · exact nofun
      · rintro ⟨rfl, hNe⟩
        exact absurd rfl hNe
    | some i =>
      have hNe := entry_ne_zero ((hMem name i).mp hFind)
      constructor
      · intro hEq
        obtain rfl := some.inj hEq
        exact ⟨rfl, hNe⟩
      · rintro ⟨rfl, -⟩
        rfl
  · have hPair : (∃ want kind, s.vol.dirList s.dir want = some (name, kind, ino)) ↔
        (name, ino) ∈ (s.vol.dirListed s.dir).map fun x => (x.1, x.2.2) := by
      simp only [Vol.dirList, List.mem_map, Prod.mk.injEq, Prod.exists]
      constructor
      · rintro ⟨want, kind, hAt⟩
        exact ⟨name, kind, ino, mem_of_getElem? hAt, rfl, rfl⟩
      · rintro ⟨_, kind, _, hIn, rfl, rfl⟩
        obtain ⟨want, hAt⟩ := mem_iff_getElem?.mp hIn
        exact ⟨want, kind, hAt⟩
    rw [hPair, h.listed, mem_filter, hMem]
    simp
  · -- the names in the listing are distinct, as those of the entries are
    have hNames : ((s.vol.dirListed s.dir).map Prod.fst).Nodup := by
      have hFirst : (s.vol.dirListed s.dir).map Prod.fst =
          ((s.vol.dirListed s.dir).map fun x => (x.1, x.2.2)).map Prod.fst := by
        rw [List.map_map]
        rfl
      rw [hFirst, h.listed]
      exact h.distinct.sublist (filter_sublist.map Prod.fst)
    have hAt : ∀ k z, s.vol.dirList s.dir k = some z →
        ((s.vol.dirListed s.dir).map Prod.fst)[k]? = some z.1 := by
      intro k z hz
      rw [List.getElem?_map, show (s.vol.dirListed s.dir)[k]? = some z from hz, map_some]
    have hi := hAt i x hx
    rw [hEq, ← hAt j y hy] at hi
    exact (List.getElem?_inj (List.getElem?_eq_some_iff.mp (hAt i x hx)).1 hNames).mp hi
  · rw [Vol.dirIsEmpty_iff]
    constructor
    · intro hAll name ino hFind
      exact hAll (name, ino) ((hMem name ino).mp hFind)
    · rintro hAll ⟨name, ino⟩ he
      exact hAll name ino ((hMem name ino).mpr he)
  · obtain ⟨others, hDir⟩ := h.dirHand
    exact hDir.tiled

/-! ## The calls keep it -/

theorem wellFormed_add (h : s.WellFormed) {name : Name} {ino : Nat} {type : UInt8}
    (hProper : s.Proper (.add name ino type)) (hSmall : s.Small (.add name ino type)) :
    (s.next (.add name ino type)).WellFormed := by
  obtain ⟨hNew, hSome, hShort, hPos, hIno⟩ := hProper
  obtain ⟨others, hDir⟩ := h.dirHand
  have hEnter : ∀ {w : Vol} {dir : Inode}, s.vol.Entered w others s.dir dir name ino →
      ∀ v, v.DirHand others dir → v.dirEntries dir = w.dirEntries dir →
      WellFormed ⟨v, s.ino, dir, update s.map name (some ino)⟩ := by
    intro w dir hEntered v hHand hSame
    rw [h.map] at hNew ⊢
    obtain ⟨hDistinct, hFind⟩ := Pairs.find_insert hEntered.entries h.distinct hNew
    refine ⟨⟨others, hHand⟩, ?_, fun e he => ?_, ?_⟩
    · change Pairs.Distinct (v.dirEntries dir)
      rw [hSame]
      exact hDistinct
    · change e ∈ v.dirEntries dir at he
      rw [hSame] at he
      rcases mem_cons.mp (hEntered.entries.mem_iff.mp he) with rfl | he
      · exact ⟨hSome, hShort⟩
      · exact h.names e he
    · change _ = Pairs.find (v.dirEntries dir)
      rw [hSame, hFind]
  rcases hDir.dirAdd hSmall hSome (by omega) hPos hIno s.ino type with
    ⟨w, hAdd, hHand, hSame⟩ | ⟨w, hAdd, hEntered⟩ | ⟨w, dir, hAdd, hEntered⟩
  · unfold next
    simp only [hAdd, Bool.false_eq_true, if_false]
    have hMap := h.map
    have hNames := h.names
    have hDistinct := h.distinct
    rw [← hSame] at hMap hNames hDistinct
    exact ⟨⟨others, hHand⟩, hDistinct, hNames, hMap⟩
  · unfold next
    simp only [hAdd, if_true]
    exact hEnter hEntered w hEntered.dirHand rfl
  · unfold next
    simp only [hAdd, if_true]
    exact hEnter hEntered _ (hEntered.dirHand.setRaw s.ino _) rfl

theorem wellFormed_remove (h : s.WellFormed) (name : Name) :
    (s.next (.remove name)).WellFormed := by
  obtain ⟨others, hDir⟩ := h.dirHand
  change WellFormed ⟨((s.vol.dirRemove s.dir name).map Prod.fst).getD s.vol, s.ino, s.dir,
    update s.map name none⟩
  cases hRemove : s.vol.dirRemove s.dir name with
  | none =>
    -- the name was not there, and the map did not have it
    have hGone := Vol.dirRemove_none hRemove
    have hSame : update s.map name none = s.map := by
      rw [h.map, ← hGone, update_eq_self]
    rw [hSame, map_none, getD_none]
    exact h
  | some r =>
    obtain ⟨w, ino⟩ := r
    obtain ⟨hHand, l, r, hBefore, hAfter⟩ := hDir.dirRemove hRemove
    obtain ⟨hDistinct, hFind⟩ := Pairs.find_erase (hBefore ▸ h.distinct)
    refine ⟨⟨others, hHand⟩, hAfter ▸ hDistinct, fun e he => h.names e ?_, ?_⟩
    · rw [hBefore]
      have he' : e ∈ l ++ r := hAfter ▸ he
      rcases mem_append.mp he' with hl | hr
      · exact mem_append_left _ hl
      · exact mem_append_right _ (mem_cons_of_mem _ hr)
    · change update s.map name none = Pairs.find (w.dirEntries s.dir)
      rw [hAfter, hFind, h.map, hBefore]

/-- After every sequence of calls that never appends to a directory of 32768 blocks, the directory
is the map. -/
theorem isMap_of_small {s s' : Catalog} {ops : List DirOp} (hStart : s.WellFormed)
    (hRun : Run (Restrict (fun s op => s.Proper op ∧ s.Small op) Step) s ops s') : s'.IsMap := by
  have hStep : ∀ s op s', s.WellFormed →
      Restrict (fun s op => s.Proper op ∧ s.Small op) Step s op s' → s'.WellFormed := by
    rintro s op s' h ⟨⟨hProper, hSmall⟩, rfl⟩
    cases op with
    | add name ino type => exact wellFormed_add h hProper hSmall
    | remove name => exact wellFormed_remove h name
  exact (Run.invariant hStep hRun hStart).isMap

end Catalog

/-! ## A directory in one extent -/

/-- The root whose one extent is the `n` blocks from `p` on. -/
def runRoot (n p : Nat) : Block := wr16w (oneBlock p) 16 n

theorem mapped_single {root : Block} (hEntries : extEntries root = 1) (fb : Nat) :
    mapped root fb = if covers root fb 0 then some (extStart root 0 + (fb - extFirst root 0))
      else none := by
  rw [mapped, hEntries, mappedIn_succ]
  rfl

variable {n p : Nat}

/-- What the header and the extent of such a root are. -/
theorem runRoot_fields (hn : n < 2 ^ 16) (hp : p < 2 ^ 48) :
    Appendable (runRoot n p) ∧ extEntries (runRoot n p) = 1 ∧ extMax (runRoot n p) = 4 ∧
      extFirst (runRoot n p) 0 = 0 ∧ extLen (runRoot n p) 0 = n ∧ extStart (runRoot n p) 0 = p := by
  have hCount : extEntries emptyRoot = 0 := by decide
  obtain ⟨hFirst, -, hStart⟩ := pushExtent_fields emptyRoot (show 0 + 1 < 2 ^ 32 by decide) hp
  have hOff : ∀ off, off + 2 ≤ 16 ∨ 18 ≤ off → rd16 (runRoot n p) off = rd16 (oneBlock p) off :=
    fun off hOff => rd16_wr16w_of_disjoint hOff
  have hHead : ∀ off, off = 0 ∨ off = 4 ∨ off = 6 → rd16 (oneBlock p) off = rd16 emptyRoot off :=
    fun off hAt => getLE_congr fun k hk =>
      pushExtent_byte emptyRoot 0 p (by omega) (by rw [hCount, extAt]; omega)
  refine ⟨⟨?_, ?_⟩, ?_, ?_, ?_, ?_, ?_⟩
  · rw [hOff 0 (by omega), hHead 0 (by omega)]
    decide
  · rw [extDepth, hOff 6 (by omega), hHead 6 (by omega)]
    decide
  · rw [extEntries, hOff 2 (by omega)]
    refine (rd16_wr16w_self _ _ _).trans ?_
    rw [hCount, Nat.mod_eq_of_lt (by omega)]
  · rw [extMax, hOff 4 (by omega), hHead 4 (by omega)]
    decide
  · exact (rd32_wr16w_of_disjoint (by decide)).trans hFirst
  · exact (rd16_wr16w_self _ _ _).trans (Nat.mod_eq_of_lt hn)
  · rw [extStart, hOff _ (by decide)]
    exact (congrArg _ (rd32_wr16w_of_disjoint (by decide))).trans hStart

theorem mapped_runRoot (hn : n ≤ 2 ^ 15) (hp : p < 2 ^ 48) (fb : Nat) :
    mapped (runRoot n p) fb = if fb < n then some (p + fb) else none := by
  obtain ⟨-, hEntries, -, hFirst, hLen, hStart⟩ := runRoot_fields (n := n) (by omega) hp
  have hBlocks : blocksOf n = n := if_neg (by omega)
  rw [mapped_single hEntries, covers, hFirst, hLen, hStart, spans, hBlocks, Nat.zero_add,
    Nat.mod_eq_of_lt (by omega), Nat.sub_zero]
  by_cases hLt : fb < n
  · simp [hLt]
  · simp [hLt]

namespace Vol

/-- A directory whose blocks are the `n` from `p` on. -/
structure InRun (v : Vol) (dir : Inode) (n p : Nat) : Prop where
  root : dir.block = runRoot n p
  length : n ≤ 2 ^ 15
  start : 0 < p ∧ p < 2 ^ 48
  size : dir.size = n * v.blockSize
  blockSize : 1024 ≤ v.blockSize ∧ v.blockSize < 2 ^ 16
  space : v.space.Usable
  marked : ∀ k, k < n → v.space.Marked (p + k)
  tiled : ∀ k, k < n → Tiled v.blockSize (v.data (p + k))

section
variable {v : Vol} {dir : Inode} {n p : Nat}

theorem InRun.map (h : v.InRun dir n p) (fb : Nat) :
    v.map dir fb = if fb < n then p + fb else 0 := by
  have hRoot := (runRoot_fields (n := n) (by have := h.length; omega) h.start.2).1
  rw [Vol.map, h.root, mapBlock_of_appendable hRoot, mapped_runRoot h.length h.start.2]
  split
  next => rfl
  next => rfl

theorem InRun.blocks (h : v.InRun dir n p) : v.blocks dir = n := by
  have hBs := h.blockSize
  have hMul : n * v.blockSize ≤ 2 ^ 15 * v.blockSize := Nat.mul_le_mul_right _ h.length
  change (dir.size + v.blockSize - 1) % 2 ^ 64 / v.blockSize = n
  rw [h.size, Nat.mod_eq_of_lt (by omega), Nat.div_eq_iff (by omega)]
  omega

theorem InRun.dirHand (h : v.InRun dir n p) : v.DirHand (fun _ => False) dir := by
  obtain ⟨hRoot, hEntries, hMax, hFirst, hLen, -⟩ :=
    runRoot_fields (n := n) (by have := h.length; omega) h.start.2
  have hStart := h.start
  have hMap := h.map
  have hNe : ∀ fb, v.map dir fb ≠ 0 → fb < n ∧ v.map dir fb = p + fb := by
    intro fb hNe
    rw [hMap] at hNe ⊢
    split at hNe
    next hLt => exact ⟨hLt, if_pos hLt⟩
    next => exact absurd rfl hNe
  have hIndex : ∀ fb, indexPath v.data dir.block fb = [] := by
    intro fb
    rw [h.root]
    exact congrArg Prod.fst (mapNode_of_appendable hRoot fb)
  refine ⟨⟨⟨by have := h.blockSize; omega, h.blockSize.2⟩, h.space, fun _ => False.elim, ?_,
    ⟨fun fb fb' _ => ?_, fun fb fb' hMapNe hEq => ?_, fun _ => ⟨?_, fun fb => ?_⟩⟩, ?_⟩,
    h.blockSize.1, ?_, fun fb hMapNe => ?_, fun fb hMapNe => ?_⟩
  · rintro q ⟨fb, hIn | ⟨hq, rfl⟩⟩
    · rw [hIndex] at hIn
      cases hIn
    · obtain ⟨hLt, hEq⟩ := hNe fb hq
      change v.space.Marked (v.map dir fb) ∧ _
      rw [hEq]
      exact ⟨h.marked fb hLt, id⟩
  · rw [hIndex]
    exact not_mem_nil
  · change v.map dir fb ≠ 0 at hMapNe
    change v.map dir fb' = v.map dir fb at hEq
    have hHere := (hNe fb hMapNe).2
    rw [← hEq] at hMapNe
    have hThere := (hNe fb' hMapNe).2
    omega
  · rw [h.root]
    refine ⟨by rw [hMax], by rw [hEntries]; decide, fun e he => ?_⟩
    obtain rfl : e = 0 := by omega
    have hLength := h.length
    omega
  · rw [h.root, mapped_runRoot h.length hStart.2]
    split
    next => exact fun hZero => absurd (some.inj hZero) (by omega)
    next => exact nofun
  · intro k hk
    rw [h.root]
    exact (setLE_of_not_mem (by omega)).trans (oneBlock_zero p hk)
  · rw [h.blocks]
    exact h.size
  · rw [h.blocks]
    exact (hNe fb hMapNe).1
  · obtain ⟨hLt, hEq⟩ := hNe fb hMapNe
    rw [hEq]
    exact h.tiled fb hLt

theorem InRun.dirEntries (h : v.InRun dir n p) :
    v.dirEntries dir = (List.range n).flatMap fun k => entries v.blockSize (v.data (p + k)) := by
  have hStart := h.start
  unfold Vol.dirEntries
  rw [h.blocks]
  refine flatMap_congr fun fb hMem => ?_
  rw [h.map, if_pos (mem_range.mp hMem), if_neg (by omega)]

end
end Vol

namespace Catalog

/-- The catalog of a directory with the names it has. -/
def ofDir (vol : Vol) (ino : Nat) (dir : Inode) : Catalog :=
  ⟨vol, ino, dir, Pairs.find (vol.dirEntries dir)⟩

variable {dir dir' : Inode} {others : Nat → Prop} {v vol w : Vol} {p : Nat}

theorem wellFormed_ofDir (hHand : vol.DirHand others dir)
    (hDistinct : Pairs.Distinct (vol.dirEntries dir))
    (hNames : ∀ e ∈ vol.dirEntries dir, 0 < e.1.length ∧ e.1.length ≤ 63) (ino : Nat) :
    (ofDir vol ino dir).WellFormed :=
  ⟨⟨others, hHand⟩, hDistinct, hNames, rfl⟩

instance (s : Catalog) (op : DirOp) : Decidable (s.Proper op) := by
  cases op <;> unfold Proper <;> infer_instance

instance (s : Catalog) (op : DirOp) : Decidable (s.Small op) := by
  cases op <;> unfold Small <;> infer_instance

/-- The root of the small filesystem. -/
def smallCatalog : Catalog :=
  ofDir (smallVol 6) rootInode ⟨0o040755, 0, 0, 1024, 0, 0, 0, runRoot 1 5⟩

theorem inRun_smallCatalog : smallCatalog.vol.InRun smallCatalog.dir 1 5 := by
  refine ⟨rfl, by decide, by decide, rfl, by decide, ⟨.inl (by decide), ?_⟩, ?_, ?_⟩
  · rintro p ⟨g, bit, hg, hBit, rfl⟩
    change g < 1 at hg
    change bit < 16 at hBit
    change 1 + g * 16 + bit < 2 ^ 48
    omega
  · intro k hk
    obtain rfl : k = 0 := by omega
    exact ⟨0, 4, by decide, by decide, rfl, by decide⟩
  · intro k hk
    obtain rfl : k = 0 := by omega
    exact (entries_freshDir (by decide) (by decide) (by decide) (by decide) (by decide)
      (by decide)).1

theorem wellFormed_smallCatalog : smallCatalog.WellFormed :=
  wellFormed_ofDir inRun_smallCatalog.dirHand (by decide +kernel) (by decide +kernel) rootInode

/-- Two names are put in, and one of them is taken out again. -/
def smallOps : List DirOp := [.add [97] 11 1, .add [98] 12 1, .remove [97]]

/-- The small directory is the map. -/
theorem isMap_smallOps : ∃ s', Run (Restrict (fun s op => s.Proper op ∧ s.Small op) Step)
    smallCatalog smallOps s' ∧ s'.IsMap := by
  obtain ⟨s', hRun, -⟩ : ∃ s', Run (Restrict (fun s op => s.Proper op ∧ s.Small op) Step)
      smallCatalog smallOps s' ∧ True :=
    Run.exists_of_guarded (fun _ _ _ hNext => (some.inj hNext).symm)
      (by decide +kernel)
  exact ⟨s', hRun, isMap_of_small wellFormed_smallCatalog hRun⟩

/-! ## A directory of 32768 blocks -/

/-- A block full of records of eight bytes that are no entries. -/
def idleBlock : Block := fun k => if k % 8 = 4 then 8 else 0

/-- The same, but for an entry `x` for inode 5, which has the first sixteen bytes. -/
def busyBlock : Block := putRecord idleBlock 0 5 16 [120] 1

/-- Five groups of 8192 blocks. The first free block is 32779. -/
def bigSpace : Space where
  firstDataBlock := 1
  blocksPerGroup := 8192
  inodesPerGroup := 16
  groupCount := 5
  group := fun g => if g < 4 then ⟨0, 16, 0, fun _ => true, fun _ => false⟩
    else ⟨8182, 16, 0, (· < 10), fun _ => false⟩
  freeBlocks := 8182
  freeInodes := 80

/-- The directory has the blocks from 11 on; `x` is in the second. -/
def bigVol : Vol where
  blockSize := 1024
  space := bigSpace
  raw := fun _ => zeroBlock
  data := fun p => if p = 12 then busyBlock else idleBlock

def bigDir : Inode := ⟨0o040755, 0, 0, 2 ^ 25, 0, 0, 0, runRoot 32768 11⟩

/-- No record of the block has room for one more name. -/
abbrev Crowded (b : Block) : Prop := ∀ o ∈ records 1024 b, slack b o < 9

theorem idleBlock_holds : Packed 1024 idleBlock ∧ filled 1024 idleBlock = 1024 ∧
    Crowded idleBlock ∧ entries 1024 idleBlock = [] ∧ searchIn 1024 idleBlock [120] = none := by
  decide +kernel

theorem busyBlock_holds : Packed 1024 busyBlock ∧ filled 1024 busyBlock = 1024 ∧
    Crowded busyBlock ∧ entries 1024 busyBlock = [([120], 5)] := by
  decide +kernel

theorem inRun_bigDir : bigVol.InRun bigDir 32768 11 := by
  refine ⟨rfl, by decide, by decide, by decide, by decide, ⟨.inl (by decide), ?_⟩, ?_, ?_⟩
  · rintro p ⟨g, bit, hg, hBit, rfl⟩
    change g < 5 at hg
    change bit < 8192 at hBit
    change 1 + g * 8192 + bit < 2 ^ 48
    omega
  · intro k hk
    refine ⟨(10 + k) / 8192, (10 + k) % 8192, ?_, ?_, ?_, ?_⟩
    · change (10 + k) / 8192 < 5
      omega
    · change (10 + k) % 8192 < 8192
      omega
    · change 11 + k = 1 + (10 + k) / 8192 * 8192 + (10 + k) % 8192
      omega
    · change (if (10 + k) / 8192 < 4 then _ else _ : Group).blockBits ((10 + k) % 8192) = true
      split
      next => rfl
      next =>
        refine decide_eq_true ?_
        omega
  · intro k _
    change Tiled 1024 (if 11 + k = 12 then busyBlock else idleBlock)
    split
    next => exact ⟨busyBlock_holds.1, busyBlock_holds.2.1⟩
    next => exact ⟨idleBlock_holds.1, idleBlock_holds.2.1⟩

theorem flatMap_second {α : Type} (e : α) (n : Nat) :
    ((List.range (n + 2)).flatMap fun k => if k = 1 then [e] else []) = [e] := by
  induction n with
  | zero => rfl
  | succ n ih =>
    have hLast : (if n + 2 = 1 then [e] else []) = [] := if_neg (by omega)
    rw [show n + 1 + 2 = n + 2 + 1 from rfl, range_succ, flatMap_append, ih,
      flatMap_singleton, hLast, append_nil]

theorem dirEntries_bigDir : bigVol.dirEntries bigDir = [([120], 5)] := by
  obtain ⟨-, -, -, hIdle, -⟩ := idleBlock_holds
  obtain ⟨-, -, -, hBusy⟩ := busyBlock_holds
  have hAt : ∀ k, entries bigVol.blockSize (bigVol.data (11 + k)) =
      if k = 1 then [([120], 5)] else [] := by
    intro k
    change entries 1024 (if 11 + k = 12 then busyBlock else idleBlock) = _
    by_cases hk : k = 1
    · rw [if_pos (by omega), if_pos hk, hBusy]
    · rw [if_neg (by omega), if_neg hk, hIdle]
  rw [inRun_bigDir.dirEntries]
  simp only [hAt]
  exact flatMap_second ([120], 5) 32766

theorem wellFormed_bigDir : (ofDir bigVol rootInode bigDir).WellFormed := by
  refine wellFormed_ofDir inRun_bigDir.dirHand ?_ ?_ rootInode
  · rw [dirEntries_bigDir]
    exact nodup_singleton _
  · rw [dirEntries_bigDir]
    intro e he
    rw [mem_singleton.mp he]
    decide

/-- No record of the directory has room for one more name. -/
theorem firstBlock_bigDir {name : Name} (hSome : 0 < name.length) (ino : Nat) (type : UInt8) :
    (bigVol.firstBlock bigDir fun p =>
      (addIn bigVol.blockSize (bigVol.data p) name ino type).map (p, ·)) = none := by
  obtain ⟨-, -, hIdle, -⟩ := idleBlock_holds
  obtain ⟨-, -, hBusy, -⟩ := busyBlock_holds
  have hSlot := le_slotSize name.length
  have hNone : ∀ b : Block, Crowded b → addIn 1024 b name ino type = none := by
    intro b hLess
    rw [addIn, map_eq_none_iff, List.find?_eq_none]
    intro o ho
    have := hLess o ho
    rw [decide_eq_true_eq]
    omega
  have hAll : ∀ p, addIn bigVol.blockSize (bigVol.data p) name ino type = none := by
    intro p
    change addIn 1024 (if p = 12 then busyBlock else idleBlock) name ino type = none
    split
    next => exact hNone _ hBusy
    next => exact hNone _ hIdle
  unfold Vol.firstBlock
  rw [List.findSome?_eq_none_iff]
  intro fb _
  simp only [hAll, map_none, ite_self]

/-- The root after `dir_add`: its extent has the length 32769, and that stands for one block. -/
theorem extend_bigDir : ∃ space, bigVol.extend bigDir =
    ({ bigVol with space := space }.writeData 32779 zeroBlock,
      { bigDir with block := growExtent (runRoot 32768 11) 0 }, 32779) := by
  obtain ⟨hRoot, hEntries, -, hFirst, hLen, hStart⟩ :=
    runRoot_fields (n := 32768) (p := 11) (by decide) (by decide)
  have hPair : ∀ (r : Space × Nat) (n : Nat), r.2 = n → r = (r.1, n) := by
    rintro ⟨space, m⟩ n rfl
    rfl
  have hAlloc := hPair bigVol.space.allocBlock 32779 (by decide +kernel)
  have hAppend : appendExtent (runRoot 32768 11) 32768 32779 =
      some (growExtent (runRoot 32768 11) 0) := by
    unfold appendExtent
    exact if_pos (by decide)
  refine ⟨bigVol.space.allocBlock.1, ?_⟩
  have hBlocks : bigVol.blocks bigDir = 32768 := inRun_bigDir.blocks
  unfold Vol.extend
  rw [hBlocks, hAlloc, show bigDir.block = runRoot 32768 11 from rfl, if_pos hRoot]
  simp only [hAppend]

theorem mapped_grown (fb : Nat) :
    mapped (growExtent (runRoot 32768 11) 0) fb = if fb = 0 then some 11 else none := by
  obtain ⟨-, hEntries, -, hFirst, hLen, hStart⟩ :=
    runRoot_fields (n := 32768) (p := 11) (by decide) (by decide)
  obtain ⟨hFirst', hLen', hStart'⟩ := growExtent_fields (runRoot 32768 11) 0
    (by rw [hLen]; decide)
  have hCount : extEntries (growExtent (runRoot 32768 11) 0) = 1 := by
    exact getLE_congr fun k hk => growExtent_byte _ (by unfold extAt; omega)
  have hOne : blocksOf (32768 + 1) = 1 := by decide
  rw [mapped_single hCount, covers, hFirst', hLen', hStart', hFirst, hLen, hStart, spans, hOne]
  by_cases hZero : fb = 0
  · simp [hZero]
  · have hNot : ¬ fb < 1 := by omega
    simp [hZero, hNot]

/-- An inode with that root has one block. -/
theorem map_grown (hRoot : dir.block = growExtent (runRoot 32768 11) 0) (fb : Nat) :
    v.map dir fb = if fb = 0 then 11 else 0 := by
  obtain ⟨hBig, -⟩ := runRoot_fields (n := 32768) (p := 11) (by decide) (by decide)
  have hHead : ∀ off, off ≤ 6 →
      rd16 (growExtent (runRoot 32768 11) 0) off = rd16 (runRoot 32768 11) off := fun off hOff =>
    getLE_congr fun k hk => growExtent_byte _ (by unfold extAt; omega)
  have hAppend : Appendable (growExtent (runRoot 32768 11) 0) :=
    ⟨(hHead 0 (by omega)).trans hBig.1, (hHead 6 (by omega)).trans hBig.2⟩
  rw [Vol.map, hRoot, mapBlock_of_appendable hAppend, mapped_grown]
  split
  next => rfl
  next => rfl

/-- What `dir_search` finds in a directory with that root: only the first block is looked at. -/
theorem dirSearch_grown (hRoot : dir.block = growExtent (runRoot 32768 11) 0)
    (hSize : v.blockSize = 1024) (hData : v.data 11 = idleBlock) : v.dirSearch dir [120] = 0 := by
  obtain ⟨-, -, -, -, hNone⟩ := idleBlock_holds
  have hFirst : (v.firstBlock dir fun p => searchIn v.blockSize (v.data p) [120]) = none := by
    unfold Vol.firstBlock
    rw [List.findSome?_eq_none_iff]
    intro fb _
    rw [map_grown hRoot]
    by_cases hZero : fb = 0
    · simp only [if_pos hZero, hData, hSize, hNone, ite_self]
    · rw [if_neg hZero]
      exact if_pos rfl
  rw [Vol.dirSearch, hFirst]
  rfl

/-- `dir_add` with a new block, as far as the block and the inode go. -/
theorem dirAdd_grown (name : Name) (ino : Nat) (type : UInt8) (dirIno : Nat)
    (hFirst : (v.firstBlock dir fun p =>
      (addIn v.blockSize (v.data p) name ino type).map (p, ·)) = none)
    (hExtend : v.extend dir = (w, dir', p + 1)) :
    ∃ u j, v.dirAdd dir dirIno name ino type = (u, j, true) ∧ j.block = dir'.block ∧
      u.blockSize = w.blockSize ∧ ∀ q, q ≠ p + 1 → u.data q = w.data q := by
  unfold Vol.dirAdd
  simp only [hFirst, hExtend]
  exact ⟨_, _, rfl, rfl, rfl, fun q hq => Vol.data_writeData_of_ne w _ hq⟩

/-- A directory that forgets a name when another one is put in is not the map. -/
theorem not_isMap_of_lost {ino i j : Nat} {x y : Name} {type : UInt8}
    (hStart : (ofDir vol ino dir).WellFormed) (hX : Pairs.find (vol.dirEntries dir) x = some i)
    (hY : Pairs.find (vol.dirEntries dir) y = none) (hLength : 0 < y.length ∧ y.length ≤ 63)
    (hIno : 0 < j ∧ j < 2 ^ 32) (hAdd : vol.dirAdd dir ino y j type = (w, dir', true))
    (hGone : w.dirSearch dir' x = 0) :
    ¬ ∀ (s s' : Catalog) (ops : List DirOp), s.WellFormed →
      Run (Restrict Proper Step) s ops s' → s'.IsMap := by
  intro hAll
  have hNext : (ofDir vol ino dir).next (.add y j type) =
      ⟨w, ino, dir', update (Pairs.find (vol.dirEntries dir)) y (some j)⟩ := by
    simp only [next, ofDir, hAdd, if_true]
  have hRun : Run (Restrict Proper Step) (ofDir vol ino dir) [.add y j type]
      ((ofDir vol ino dir).next (.add y j type)) :=
    Run.cons ⟨⟨hY, hLength.1, hLength.2, hIno.1, hIno.2⟩, rfl⟩ (.nil _)
  have hIsMap := hAll _ _ _ hStart hRun
  have hNe : x ≠ y := by
    rintro rfl
    rw [hX] at hY
    cases hY
  rw [hNext] at hIsMap
  obtain ⟨hFound, hZero⟩ := (hIsMap.search x i).mp ((update_of_ne hNe ..).trans hX)
  exact hZero (hFound.symm.trans hGone)

/-- A name is put into the big directory: `x` is not found any more. -/
theorem not_isMap_bigDir : ¬ ∀ (s s' : Catalog) (ops : List DirOp), s.WellFormed →
    Run (Restrict Proper Step) s ops s' → s'.IsMap := by
  have hX : Pairs.find (bigVol.dirEntries bigDir) [120] = some 5 := by
    rw [dirEntries_bigDir]
    decide
  have hY : Pairs.find (bigVol.dirEntries bigDir) [121] = none := by
    rw [dirEntries_bigDir]
    decide
  obtain ⟨space, hExtend⟩ := extend_bigDir
  obtain ⟨w, dir, hAdd, hRoot, hSize, hData⟩ := dirAdd_grown [121] 6 1
    rootInode (firstBlock_bigDir (by decide) 6 1) hExtend
  have hFirst : w.data 11 = idleBlock := by
    rw [hData 11 (by decide), Vol.data_writeData_of_ne _ _ (by decide)]
    rfl
  exact not_isMap_of_lost wellFormed_bigDir hX hY (by decide) (by decide) hAdd
    (dirSearch_grown hRoot hSize hFirst)

/-! ## One more block of a file -/

/-- `extend` has put the block behind the others: it is the next one of the file, the others are
where they were, no block is at two places, and the inode is one that can be extended again. -/
structure Lengthened (v w : Vol) (others : Nat → Prop) (i j : Inode) (p : Nat) : Prop where
  hand : w.Hand others j.block
  new : w.map j (v.blocks i) = p
  old : ∀ fb, fb ≠ v.blocks i → w.map j fb = v.map i fb
  once : ∀ fb fb', w.map j fb ≠ 0 → w.map j fb' = w.map j fb → fb' = fb

end Catalog
end LeahOS.Vfsd
