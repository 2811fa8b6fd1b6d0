import LeahOS.Vfsd.Fields

/-!
# Extents (`map_block` and the block area of an inode)

A file's blocks are found through a tree of nodes. The root is in the inode, sixty bytes with room
for four entries; the other nodes are blocks of the disk. `mapNode` follows `map_block` down the
tree and also says which index blocks it read; what an inode `Owns` are the blocks `map_block`
comes by for some block of the file.

`appendExtent` is the part of `extend` that puts a new block at the end of the root.
`appended_of_appendExtent` says what the root maps afterwards: the new block of the file, if nothing
covered it before, and for the others what it mapped already. That holds while no extent grows past
32768 blocks: one of 32769 reads as one block not yet written to.
-/

namespace LeahOS.Vfsd
open Lib Nat

/-- `struct inode`; of `block` the first sixty bytes are the inode's. -/
structure Inode where
  mode : Nat
  uid : Nat
  gid : Nat
  size : Nat
  atime : Nat
  ctime : Nat
  mtime : Nat
  block : Block

/-! ## One node -/

/-- The magic number of a node. -/
def extMagic : Nat := 0xF30A

/-- The number of entries of a node. -/
def extEntries (node : Block) : Nat := rd16 node 2

/-- The entries a node has room for. -/
def extMax (node : Block) : Nat := rd16 node 4

/-- How far a node is above the extents. -/
def extDepth (node : Block) : Nat := rd16 node 6

/-- Where entry `e` of a node is. -/
def extAt (e : Nat) : Nat := 12 + e * 12

/-- The first block of the file an entry is for. -/
def extFirst (node : Block) (e : Nat) : Nat := rd32 node (extAt e)

/-- The length field of an extent. -/
def extLen (node : Block) (e : Nat) : Nat := rd16 node (extAt e + 4)

/-- The number of blocks a length field stands for; above 32768 they are not yet written to. -/
def blocksOf (len : Nat) : Nat := if 32768 < len then len - 32768 else len

/-- The first block of the disk of an extent. -/
def extStart (node : Block) (e : Nat) : Nat :=
  rd16 node (extAt e + 6) * 2 ^ 32 + rd32 node (extAt e + 8)

/-- An extent from `first` on has the block `fb` of the file; the sum is a 32-bit one. -/
def spans (first len fb : Nat) : Bool :=
  decide (first ≤ fb) && decide (fb < (first + blocksOf len) % 2 ^ 32)

/-- Extent `e` of the node has the block of the file. -/
def covers (node : Block) (fb e : Nat) : Bool := spans (extFirst node e) (extLen node e) fb

/-- The block at which the first of `n` extents that has `fb` has it. -/
def mappedIn (node : Block) (fb n : Nat) : Option Nat :=
  ((List.range n).find? (covers node fb)).map fun e => extStart node e + (fb - extFirst node e)

/-- The block at which the extents of a node have `fb`. -/
def mapped (node : Block) (fb : Nat) : Option Nat := mappedIn node fb (extEntries node)

/-- The last child whose first block is not past `fb`, of those before the first that is. -/
def childFor (node : Block) (fb : Nat) : Option Nat :=
  ((List.range (extEntries node)).takeWhile fun e => decide (extFirst node e ≤ fb)).getLast?.map
    fun e => rd32 node (extAt e + 4) + rd16 node (extAt e + 8) * 2 ^ 32

/-! ## The tree -/

/-- The loop of `map_block`, with the number of nodes it may still read: the index blocks it reads
and the block it finds, zero for none. -/
def mapNode (data : Nat → Block) : Nat → Block → Nat → List Nat × Nat
  | 0, _, _ => ([], 0)
  | n + 1, node, fb =>
    if rd16 node 0 ≠ extMagic then ([], 0)
    else if extDepth node = 0 then ([], (mapped node fb).getD 0)
    else
      match childFor node fb with
      | none => ([], 0)
      | some child =>
        let r := mapNode data n (data child) fb
        (child :: r.1, r.2)

/-- The index blocks `map_block` reads for a block of the file. -/
def indexPath (data : Nat → Block) (root : Block) (fb : Nat) : List Nat := (mapNode data 8 root fb).1

/-- `map_block`, from the sixty bytes of the inode. -/
def mapBlock (data : Nat → Block) (root : Block) (fb : Nat) : Nat := (mapNode data 8 root fb).2

/-- The tree has the block, as an index block or as a block of the file. -/
def Owns (data : Nat → Block) (root : Block) (p : Nat) : Prop :=
  ∃ fb, p ∈ indexPath data root fb ∨ (p ≠ 0 ∧ p = mapBlock data root fb)

variable {data data' : Nat → Block} {root : Block} {e first last phys want : Nat}

theorem mapNode_congr (n : Nat) (node : Block) (fb : Nat)
    (hSame : ∀ c ∈ (mapNode data n node fb).1, data' c = data c) :
    mapNode data' n node fb = mapNode data n node fb := by
  induction n generalizing node with
  | zero => rfl
  | succ n ih =>
    unfold mapNode at hSame ⊢
    split
    next => rfl
    next hMagic =>
      rw [if_neg hMagic] at hSame
      split
      next => rfl
      next hDepth =>
        rw [if_neg hDepth] at hSame
        cases hChild : childFor node fb with
        | none => rfl
        | some child =>
          simp only [hChild] at hSame
          have hHere : data' child = data child := hSame child List.mem_cons_self
          have hRest := ih (data child) fun c hc => hSame c (List.mem_cons_of_mem _ hc)
          simp only [hHere, hRest]

/-- The mapping depends on the index blocks alone. -/
theorem mapBlock_congr (hSame : ∀ fb, ∀ c ∈ indexPath data root fb, data' c = data c) (fb : Nat) :
    mapBlock data' root fb = mapBlock data root fb ∧
      indexPath data' root fb = indexPath data root fb := by
  have hNode := mapNode_congr 8 root fb (hSame fb)
  exact ⟨congrArg Prod.snd hNode, congrArg Prod.fst hNode⟩

theorem owns_congr (hSame : ∀ fb, ∀ c ∈ indexPath data root fb, data' c = data c) (p : Nat) :
    Owns data' root p ↔ Owns data root p := by
  refine exists_congr fun fb => ?_
  rw [(mapBlock_congr hSame fb).1, (mapBlock_congr hSame fb).2]

/-! ## A root without index blocks -/

/-- A root `extend` can append to. -/
def Appendable (root : Block) : Prop := rd16 root 0 = extMagic ∧ extDepth root = 0

instance (root : Block) : Decidable (Appendable root) := inferInstanceAs (Decidable (_ ∧ _))

theorem mapNode_of_appendable (hRoot : Appendable root) (fb : Nat) :
    mapNode data 8 root fb = ([], (mapped root fb).getD 0) := by
  rw [mapNode, if_neg (not_not.mpr hRoot.1), if_pos hRoot.2]

theorem mapBlock_of_appendable (hRoot : Appendable root) (fb : Nat) :
    mapBlock data root fb = (mapped root fb).getD 0 := by
  rw [mapBlock, mapNode_of_appendable hRoot]

/-- The root after its last extent grew by one block. -/
def growExtent (root : Block) (last : Nat) : Block :=
  wr16w root (extAt last + 4) (extLen root last + 1)

/-- The root after an extent of one block was put behind the others. -/
def pushExtent (root : Block) (want phys : Nat) : Block :=
  let ent := extAt (extEntries root)
  wr16w (wr32w (wr16w (wr16w (wr32w root ent want) (ent + 4) 1) (ent + 6) (phys / 2 ^ 32))
    (ent + 8) phys) 2 (extEntries root + 1)

/-- The last part of `extend`: the block `phys` becomes block `want` of the file, at the end of the
last extent if it carries on there, or as an extent of its own if there is room for one. -/
def appendExtent (root : Block) (want phys : Nat) : Option Block :=
  let last := extEntries root - 1
  if 0 < extEntries root ∧ extStart root last + extLen root last = phys ∧
      (extFirst root last + extLen root last) % 2 ^ 32 = want then
    some (growExtent root last)
  else if extMax root ≤ extEntries root then none
  else some (pushExtent root want phys)

/-- The root is one the format allows: it has room for at most four extents, and they end below
the last block a file can have. -/
structure RootShape (root : Block) : Prop where
  max : extMax root ≤ 4
  entries : extEntries root ≤ 4
  ends : ∀ e, e < extEntries root → extFirst root e + extLen root e < 2 ^ 32

variable {node node' : Block} {k len : Nat}

/-- The fields of an entry are in its twelve bytes. -/
theorem ext_congr (hSame : ∀ k, extAt e ≤ k → k < extAt e + 12 → node' k = node k) :
    extFirst node' e = extFirst node e ∧ extLen node' e = extLen node e ∧
      extStart node' e = extStart node e := by
  have hField : ∀ off n, off + n ≤ 12 → getLE node' (extAt e + off) n = getLE node (extAt e + off) n :=
    fun off n hIn => getLE_congr fun k hk => hSame _ (by omega) (by omega)
  refine ⟨hField 0 4 (by omega), hField 4 2 (by omega), ?_⟩
  unfold extStart rd16 rd32
  rw [hField 6 2 (by omega), hField 8 4 (by omega)]

theorem mappedIn_succ (node : Block) (fb n : Nat) :
    mappedIn node fb (n + 1) = (mappedIn node fb n <|>
      if covers node fb n then some (extStart node n + (fb - extFirst node n)) else none) := by
  unfold mappedIn
  rw [List.range_succ, List.find?_append]
  cases (List.range n).find? (covers node fb) with
  | some e => rfl
  | none =>
    rw [Option.none_or, List.find?_singleton]
    split <;> rfl

theorem mappedIn_congr (fb : Nat) {n : Nat}
    (hSame : ∀ e, e < n → extFirst node' e = extFirst node e ∧ extLen node' e = extLen node e ∧
      extStart node' e = extStart node e) : mappedIn node' fb n = mappedIn node fb n := by
  induction n with
  | zero => simp [mappedIn]
  | succ n ih =>
    obtain ⟨hFirst, hLen, hStart⟩ := hSame n (lt_succ_self n)
    have hCovers : covers node' fb n = covers node fb n := by
      rw [covers, covers, hFirst, hLen]
    rw [mappedIn_succ, mappedIn_succ, ih fun e he => hSame e (lt_succ_of_lt he), hCovers,
      hFirst, hStart]

/-- An extent of one block more. -/
theorem spans_succ (hLen : len < 2 ^ 15) (hEnd : first + len + 1 < 2 ^ 32) (fb : Nat) :
    spans first (len + 1) fb = (decide (fb = first + len) || spans first len fb) := by
  have hMore : blocksOf (len + 1) = len + 1 := if_neg (by omega)
  have hBlocks : blocksOf len = len := if_neg (by omega)
  rw [spans, spans, hMore, hBlocks, mod_eq_of_lt (by omega), mod_eq_of_lt (by omega),
    Bool.eq_iff_iff]
  simp only [Bool.and_eq_true, Bool.or_eq_true, decide_eq_true_eq]
  omega

/-- An extent does not span the block it ends at. -/
theorem spans_end (hLen : len < 2 ^ 15) (hEnd : first + len + 1 < 2 ^ 32) :
    spans first len (first + len) = false := by
  have hBlocks : blocksOf len = len := if_neg (by omega)
  rw [spans, hBlocks, mod_eq_of_lt (by omega)]
  simp

theorem spans_one (hSmall : first + 1 < 2 ^ 32) (fb : Nat) :
    spans first 1 fb = decide (fb = first) := by
  have hOne : blocksOf 1 = 1 := if_neg (by omega)
  rw [spans, hOne, mod_eq_of_lt (by omega), Bool.eq_iff_iff]
  simp only [Bool.and_eq_true, decide_eq_true_eq]
  omega

theorem growExtent_byte (root : Block) (hk : k < extAt last + 4 ∨ extAt last + 6 ≤ k) :
    growExtent root last k = root k :=
  setLE_of_not_mem (by omega)

/-- The fields of the extent that grew. -/
theorem growExtent_fields (root : Block) (last : Nat) (hLen : extLen root last + 1 < 2 ^ 16) :
    extFirst (growExtent root last) last = extFirst root last ∧
    extLen (growExtent root last) last = extLen root last + 1 ∧
    extStart (growExtent root last) last = extStart root last := by
  have hHigh : rd16 (growExtent root last) (extAt last + 6) = rd16 root (extAt last + 6) :=
    getLE_congr fun k hk => growExtent_byte root (by omega)
  have hLow : rd32 (growExtent root last) (extAt last + 8) = rd32 root (extAt last + 8) :=
    getLE_congr fun k hk => growExtent_byte root (by omega)
  refine ⟨getLE_congr fun k hk => growExtent_byte root (by omega), ?_, ?_⟩
  · exact (rd16_wr16w_self _ _ _).trans (mod_eq_of_lt hLen)
  · rw [extStart, extStart, hHigh, hLow]

theorem growExtent_before (root : Block) (he : e < last) :
    extFirst (growExtent root last) e = extFirst root e ∧
    extLen (growExtent root last) e = extLen root e ∧
    extStart (growExtent root last) e = extStart root e :=
  ext_congr fun k _ hk => growExtent_byte root (by unfold extAt at *; omega)

theorem pushExtent_byte (root : Block) (want phys : Nat) (hLow : k < 2 ∨ 4 ≤ k)
    (hHigh : k < extAt (extEntries root) ∨ extAt (extEntries root) + 12 ≤ k) :
    pushExtent root want phys k = root k := by
  unfold pushExtent
  rw [wr16w, setLE_of_not_mem (by omega), wr32w, setLE_of_not_mem (by omega), wr16w,
    setLE_of_not_mem (by omega), wr16w, setLE_of_not_mem (by omega), wr32w,
    setLE_of_not_mem (by omega)]

/-- The fields of the new extent. -/
theorem pushExtent_fields (root : Block) (hWant : want + 1 < 2 ^ 32) (hPhys : phys < 2 ^ 48) :
    extFirst (pushExtent root want phys) (extEntries root) = want ∧
    extLen (pushExtent root want phys) (extEntries root) = 1 ∧
    extStart (pushExtent root want phys) (extEntries root) = phys := by
  have hAt : 12 ≤ extAt (extEntries root) := Nat.le_add_right _ _
  refine ⟨?_, ?_, ?_⟩
  · rw [extFirst, pushExtent, rd32_wr16w_of_disjoint (by omega), rd32_wr32w_of_disjoint (by omega),
      rd32_wr16w_of_disjoint (by omega), rd32_wr16w_of_disjoint (by omega), rd32_wr32w_self,
      mod_eq_of_lt (by omega)]
  · rw [extLen, pushExtent, rd16_wr16w_of_disjoint (by omega), rd16_wr32w_of_disjoint (by omega),
      rd16_wr16w_of_disjoint (by omega), rd16_wr16w_self, mod_eq_of_lt (by omega)]
  · rw [extStart, pushExtent, rd16_wr16w_of_disjoint (by omega), rd16_wr32w_of_disjoint (by omega),
      rd16_wr16w_self, rd32_wr16w_of_disjoint (by omega), rd32_wr32w_self]
    omega

theorem pushExtent_before (root : Block) (want phys : Nat) (he : e < extEntries root) :
    extFirst (pushExtent root want phys) e = extFirst root e ∧
    extLen (pushExtent root want phys) e = extLen root e ∧
    extStart (pushExtent root want phys) e = extStart root e :=
  ext_congr fun k hLow hHigh =>
    pushExtent_byte root want phys (by unfold extAt at *; omega) (by unfold extAt at *; omega)

theorem mapped_grow (hEntries : extEntries root = last + 1) (hShort : extLen root last < 2 ^ 15)
    (hEnd : extFirst root last + extLen root last + 1 < 2 ^ 32) (fb : Nat) :
    mapped (growExtent root last) fb = if fb = extFirst root last + extLen root last then
        (mapped root fb <|> some (extStart root last + extLen root last))
      else mapped root fb := by
  obtain ⟨hFirst, hLen, hStart⟩ := growExtent_fields root last (by omega)
  have hCount : extEntries (growExtent root last) = last + 1 := by
    rw [← hEntries]
    exact getLE_congr fun k hk => growExtent_byte root (by unfold extAt; omega)
  have hBefore : mappedIn (growExtent root last) fb last = mappedIn root fb last :=
    mappedIn_congr fb fun e he => growExtent_before root he
  rw [mapped, mapped, hCount, hEntries, mappedIn_succ, mappedIn_succ, hBefore, covers, covers, hFirst,
    hStart, hLen, spans_succ hShort hEnd]
  cases mappedIn root fb last with
  | some q => simp
  | none =>
    by_cases hEq : fb = extFirst root last + extLen root last
    · rw [hEq, spans_end hShort hEnd]
      simp
    · simp [hEq]

theorem mapped_push (hEntries : extEntries root < 4) (hWant : want + 1 < 2 ^ 32)
    (hPhys : phys < 2 ^ 48) (fb : Nat) :
    mapped (pushExtent root want phys) fb =
      if fb = want then (mapped root fb <|> some phys) else mapped root fb := by
  obtain ⟨hFirst, hLen, hStart⟩ := pushExtent_fields root hWant hPhys
  have hCount : extEntries (pushExtent root want phys) = extEntries root + 1 :=
    (rd16_wr16w_self _ _ _).trans (mod_eq_of_lt (by omega))
  have hBefore : mappedIn (pushExtent root want phys) fb (extEntries root) = mapped root fb :=
    mappedIn_congr fb fun e he => pushExtent_before root want phys he
  rw [mapped, hCount, mappedIn_succ, hBefore, covers, hFirst, hLen, hStart, spans_one hWant]
  by_cases hEq : fb = want
  · simp [hEq]
  · simp [hEq]

/-- What `extend` does to a root: it is still one that can be appended to, of the same shape, and
the new block of the file is mapped unless an extent had it. -/
structure Appended (root root' : Block) (want phys : Nat) : Prop where
  appendable : Appendable root → Appendable root'
  shape : RootShape root'
  mapped : ∀ fb, mapped root' fb =
    if fb = want then (mapped root fb <|> some phys) else mapped root fb
  rest : ∀ k, 60 ≤ k → root' k = root k

theorem appended_grow (hShape : RootShape root) (hEntries : extEntries root = last + 1)
    (hShort : extLen root last < 2 ^ 15)
    (hEnd : extFirst root last + extLen root last + 1 < 2 ^ 32) :
    Appended root (growExtent root last) (extFirst root last + extLen root last)
      (extStart root last + extLen root last) := by
  have hLast : extAt last + 12 ≤ 60 := by
    have hFour := hShape.entries
    unfold extAt
    omega
  have hHead : ∀ off, off ≤ 6 → rd16 (growExtent root last) off = rd16 root off := fun off hOff =>
    getLE_congr fun k hk => growExtent_byte root (by unfold extAt; omega)
  refine ⟨fun h => ⟨(hHead 0 (by omega)).trans h.1, (hHead 6 (by omega)).trans h.2⟩,
    ⟨(hHead 4 (by omega)).trans_le hShape.max, (hHead 2 (by omega)).trans_le hShape.entries,
      fun e he => ?_⟩, mapped_grow hEntries hShort hEnd, fun k hk => growExtent_byte root (by omega)⟩
  have hCount : extEntries (growExtent root last) = last + 1 := (hHead 2 (by omega)).trans hEntries
  rcases Nat.lt_or_ge e last with hLt | hGe
  · obtain ⟨hFirst, hLen, -⟩ := growExtent_before root hLt
    rw [hFirst, hLen]
    exact hShape.ends e (by omega)
  · obtain rfl : e = last := by omega
    obtain ⟨hFirst, hLen, -⟩ := growExtent_fields root e (by omega)
    omega

theorem appended_push (hShape : RootShape root) (hRoom : extEntries root < extMax root)
    (hWant : want + 1 < 2 ^ 32) (hPhys : phys < 2 ^ 48) :
    Appended root (pushExtent root want phys) want phys := by
  have hFour : extEntries root < 4 := hRoom.trans_le hShape.max
  have hHead : ∀ off, off = 0 ∨ off = 4 ∨ off = 6 →
      rd16 (pushExtent root want phys) off = rd16 root off := fun off hOff =>
    getLE_congr fun k hk => pushExtent_byte root want phys (by omega) (by unfold extAt; omega)
  have hCount : extEntries (pushExtent root want phys) = extEntries root + 1 :=
    (rd16_wr16w_self _ _ _).trans (mod_eq_of_lt (by omega))
  refine ⟨fun h => ⟨(hHead 0 (by omega)).trans h.1, (hHead 6 (by omega)).trans h.2⟩,
    ⟨(hHead 4 (by omega)).trans_le hShape.max, hCount.trans_le hFour, fun e he => ?_⟩,
    mapped_push hFour hWant hPhys,
    fun k hk => pushExtent_byte root want phys (by omega) (by unfold extAt; omega)⟩
  rcases Nat.lt_or_ge e (extEntries root) with hLt | hGe
  · obtain ⟨hFirst, hLen, -⟩ := pushExtent_before root want phys hLt
    rw [hFirst, hLen]
    exact hShape.ends e hLt
  · obtain rfl : e = extEntries root := by omega
    obtain ⟨hFirst, hLen, -⟩ := pushExtent_fields root hWant hPhys
    omega

/-- The block would make an extent longer than 32768 blocks. -/
def Overlong (root : Block) (want phys : Nat) : Prop :=
  let last := extEntries root - 1
  0 < extEntries root ∧ extStart root last + extLen root last = phys ∧
    extFirst root last + extLen root last = want ∧ 2 ^ 15 ≤ extLen root last

theorem not_overlong (hWant : want < 2 ^ 15) : ¬ Overlong root want phys := by
  rintro ⟨-, -, hEnd, hLong⟩
  omega

/-- A length that goes past 32768 does not reach the block it was raised for. -/
theorem covers_of_overlong {last : Nat} (hLong : 2 ^ 15 ≤ extLen root last)
    (hEnd : extFirst root last + extLen root last = want) (hWant : want < 2 ^ 32) :
    covers root want last = false ∧ covers (growExtent root last) want last = false := by
  have hFirst : extFirst (growExtent root last) last = extFirst root last :=
    getLE_congr fun k hk => growExtent_byte root (by omega)
  have hLen : extLen (growExtent root last) last = (extLen root last + 1) % 2 ^ 16 :=
    rd16_wr16w_self _ _ _
  have hField : extLen root last < 2 ^ 16 := getLE_lt _ _ _
  have hEnds : ∀ len, blocksOf len ≤ extLen root last →
      spans (extFirst root last) len want = false := by
    intro len hLe
    have hShort : ¬ want < (extFirst root last + blocksOf len) % 2 ^ 32 := by omega
    rw [spans, decide_eq_false hShort, Bool.and_false]
  refine ⟨hEnds _ ?_, ?_⟩
  · unfold blocksOf
    split <;> omega
  · rw [covers, hFirst, hLen]
    refine hEnds _ ?_
    unfold blocksOf
    split <;> omega

theorem mapBlock_of_overlong (data data' : Nat → Block) (hRoot : Appendable root)
    (hOver : Overlong root want phys) (hWant : want < 2 ^ 32) :
    ∃ root', appendExtent root want phys = some root' ∧
      mapBlock data' root' want = mapBlock data root want := by
  obtain ⟨hPos, hStart, hEnd, hLong⟩ := hOver
  obtain ⟨last, hEntries⟩ := Nat.exists_eq_add_one_of_ne_zero hPos.ne'
  rw [hEntries, Nat.add_sub_cancel] at hStart hEnd hLong
  obtain ⟨hOld, hNew⟩ := covers_of_overlong hLong hEnd hWant
  have hHead : ∀ off, off ≤ 6 → rd16 (growExtent root last) off = rd16 root off := fun off hOff =>
    getLE_congr fun k hk => growExtent_byte root (by unfold extAt; omega)
  have hRoot' : Appendable (growExtent root last) :=
    ⟨(hHead 0 (by omega)).trans hRoot.1, (hHead 6 (by omega)).trans hRoot.2⟩
  have hCount : extEntries (growExtent root last) = last + 1 := (hHead 2 (by omega)).trans hEntries
  refine ⟨growExtent root last, ?_, ?_⟩
  · rw [appendExtent, hEntries, Nat.add_sub_cancel]
    exact if_pos ⟨succ_pos last, hStart, by omega⟩
  · rw [mapBlock_of_appendable hRoot', mapBlock_of_appendable hRoot, mapped, mapped, hCount,
      hEntries, mappedIn_succ, mappedIn_succ, hOld, hNew,
      mappedIn_congr want fun e he => growExtent_before root he,
      if_neg Bool.false_ne_true, if_neg Bool.false_ne_true]

theorem appended_of_appendExtent {root' : Block} (hShape : RootShape root)
    (hWant : want + 1 < 2 ^ 32) (hShort : ¬ Overlong root want phys) (hPhys : phys < 2 ^ 48)
    (hSome : appendExtent root want phys = some root') : Appended root root' want phys := by
  unfold appendExtent at hSome
  simp only at hSome
  split at hSome
  next hGrow =>
    obtain ⟨hPos, hStart, hEnd⟩ := hGrow
    obtain rfl := Option.some.inj hSome
    obtain ⟨last, hEntries⟩ := Nat.exists_eq_add_of_lt hPos
    have hLast : extEntries root - 1 = last := by omega
    have hNoWrap := hShape.ends last (by omega)
    rw [Overlong, hLast] at hShort
    rw [hLast] at hStart hEnd ⊢
    rw [mod_eq_of_lt hNoWrap] at hEnd
    subst hStart hEnd
    exact appended_grow hShape (by omega)
      (Nat.not_le.mp fun hLong => hShort ⟨hPos, rfl, rfl, hLong⟩) hWant
  next =>
    split at hSome
    next => cases hSome
    next hRoom =>
      obtain rfl := Option.some.inj hSome
      exact appended_push hShape (by omega) hWant hPhys

end LeahOS.Vfsd
