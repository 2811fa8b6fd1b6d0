import LeahOS.Lib.Pairs
import LeahOS.Vfsd.Held

/-!
# A directory

`DirHand v others dir` is a directory in hand whose blocks are tiled by records. `dir_add` and
`dir_remove` keep it that way; `DirHand.dirAdd` and `DirHand.dirRemove` say what they do to the
entries. `dir_search`, by name or by index, and `dir_is_empty` read the list of entries.

`dir_add` appends a block when no record has room for the name. That is right while the directory
has fewer than 32768 blocks.
-/

namespace LeahOS.Vfsd
open Lib Option

/-! ## Listing -/

/-- `VFS_KIND_*`. -/
inductive Kind
  | file
  | dir
  | link
  | fifo
  | chr
  | blk
  deriving DecidableEq

/-- The kind `dir_search` makes of the type of a record. -/
def kindOf (type : UInt8) : Kind :=
  if type = 2 then .dir
  else if type = 7 then .link
  else if type = 5 then .fifo
  else if type = 3 then .chr
  else if type = 4 then .blk
  else .file

/-- The record is listed: it is an entry, and neither `.` nor `..`. -/
def shown (b : Block) (o : Nat) : Bool := live b o && nameOf b o != dot && nameOf b o != dotdot

/-- What the listing of a block shows: at most 63 bytes of each name. -/
def listIn (bs : Nat) (b : Block) : List (Name × Kind × Nat) :=
  ((records bs b).filter (shown b)).map fun o =>
    ((nameOf b o).take 63, kindOf (b (o + 7)), recIno b o)

/-- The listing of a block shows its entries but for `.` and `..`. -/
theorem listIn_eq (bs : Nat) (b : Block) :
    (listIn bs b).map (fun x => (x.1, x.2.2)) =
      ((entries bs b).filter fun e => e.1 != dot && e.1 != dotdot).map fun e => (e.1.take 63, e.2) := by
  unfold listIn entries
  rw [List.filter_map, List.filter_filter, List.map_map, List.map_map]
  have hShown : (fun o => ((fun e : Name × Nat => e.1 != dot && e.1 != dotdot) ∘ fun o =>
      (nameOf b o, recIno b o)) o && live b o) = shown b := by
    funext o
    simp only [Function.comp_apply, shown]
    rw [Bool.and_comm, Bool.and_assoc]
  rw [hShown]
  rfl

namespace Vol

/-- What the blocks of a directory list one after the other. -/
def dirListed (v : Vol) (dir : Inode) : List (Name × Kind × Nat) :=
  (List.range (v.blocks dir)).flatMap fun b =>
    if v.map dir b = 0 then [] else listIn v.blockSize (v.data (v.map dir b))

/-- `dir_search` for the entry with a number. -/
def dirList (v : Vol) (dir : Inode) (want : Nat) : Option (Name × Kind × Nat) :=
  (v.dirListed dir)[want]?

/-! ## What the functions read -/

theorem dirSearch_eq (v : Vol) (dir : Inode) (name : Name) :
    v.dirSearch dir name = (Pairs.find (v.dirEntries dir) name).getD 0 := by
  unfold dirSearch firstBlock dirEntries Pairs.find
  rw [List.find?_flatMap, List.map_findSome?]
  congr 2
  funext fb
  simp only [Function.comp_apply]
  split
  next => rfl
  next => simp only [searchIn_eq, beq_eq_decide]

theorem dirIsEmpty_iff (v : Vol) (dir : Inode) :
    v.dirIsEmpty dir = true ↔ ∀ e ∈ v.dirEntries dir, e.1 = dot ∨ e.1 = dotdot := by
  unfold dirIsEmpty dirEntries
  simp only [List.all_eq_true, Bool.or_eq_true, decide_eq_true_eq, emptyIn_iff, List.mem_flatMap]
  constructor
  · rintro hAll e ⟨fb, hfb, he⟩
    split at he
    next => cases he
    next hMap => exact (hAll fb hfb).resolve_left hMap e he
  · intro hAll fb hfb
    by_cases hMap : v.map dir fb = 0
    · exact .inl hMap
    · exact .inr fun e he => hAll e ⟨fb, hfb, by rwa [if_neg hMap]⟩

theorem dirListed_eq (v : Vol) (dir : Inode) :
    (v.dirListed dir).map (fun x => (x.1, x.2.2)) =
      ((v.dirEntries dir).filter fun e => e.1 != dot && e.1 != dotdot).map
        fun e => (e.1.take 63, e.2) := by
  unfold dirListed dirEntries
  rw [List.map_flatMap, List.filter_flatMap, List.map_flatMap]
  congr 1
  funext fb
  split
  next => rfl
  next => exact listIn_eq ..

theorem dirRemove_none {v : Vol} {dir : Inode} {name : Name} (hNone : v.dirRemove dir name = none) :
    Pairs.find (v.dirEntries dir) name = none := by
  rw [Pairs.find_eq_none_iff]
  unfold dirRemove firstBlock at hNone
  unfold dirEntries
  simp only [List.findSome?_eq_none_iff, List.mem_flatMap] at hNone ⊢
  rintro e ⟨fb, hfb, he⟩
  have hHere := hNone fb hfb
  split at he
  next => cases he
  next hMap =>
    rw [if_neg hMap, map_eq_none_iff] at hHere
    exact removeFrom_none.mp hHere e he

/-! ## A directory in hand -/

/-- The directory in hand has a whole number of blocks, none beyond its size, and records tile
them. -/
structure DirHand (v : Vol) (others : Nat → Prop) (dir : Inode) : Prop where
  hand : v.Hand others dir.block
  blockSize : 1024 ≤ v.blockSize
  whole : dir.size = v.blocks dir * v.blockSize
  inside : ∀ fb, v.map dir fb ≠ 0 → fb < v.blocks dir
  tiled : ∀ fb, v.map dir fb ≠ 0 → Tiled v.blockSize (v.data (v.map dir fb))

section
variable {v w : Vol} {others : Nat → Prop} {dir dir' : Inode} {name : Name} {ino : Nat}

/-- What is in hand does not depend on the inode records. -/
theorem DirHand.setRaw (h : v.DirHand others dir) (n : Nat) (r : Block) :
    (v.setRaw n r).DirHand others dir :=
  { h with hand := { h.hand with } }

/-- One block of a directory is replaced. -/
theorem DirHand.writeData (h : v.DirHand others dir) {fb : Nat} (hNe : v.map dir fb ≠ 0) {b : Block}
    (hTiled : Tiled v.blockSize b) :
    (v.writeData (v.map dir fb) b).DirHand others dir ∧
      Keeps v (v.writeData (v.map dir fb) b) others ∧
      ∃ l r, v.dirEntries dir = l ++ (entries v.blockSize (v.data (v.map dir fb)) ++ r) ∧
        (v.writeData (v.map dir fb) b).dirEntries dir = l ++ (entries v.blockSize b ++ r) := by
  obtain ⟨hHand, hKeeps, hMap⟩ := h.hand.writeData b (h.hand.own _ ⟨fb, .inr ⟨hNe, rfl⟩⟩).2
    fun fb' => h.hand.tree.leaf fb fb' hNe
  have hMap' : ∀ fb', (v.writeData (v.map dir fb) b).map dir fb' = v.map dir fb' := hMap
  have hElse : ∀ fb', fb' ≠ fb → v.map dir fb' ≠ 0 →
      (v.writeData (v.map dir fb) b).data (v.map dir fb') = v.data (v.map dir fb') := by
    intro fb' hFb hNe'
    refine data_writeData_of_ne v b fun hEq => hFb ?_
    exact h.hand.tree.once fb fb' hNe hEq
  refine ⟨⟨hHand, h.blockSize, h.whole, fun fb' hNe' => ?_, fun fb' hNe' => ?_⟩, hKeeps, ?_⟩
  · rw [hMap'] at hNe'
    exact h.inside fb' hNe'
  · rw [hMap'] at hNe' ⊢
    by_cases hFb : fb' = fb
    · rw [hFb, data_writeData_self]
      exact hTiled
    · rw [hElse fb' hFb hNe']
      exact h.tiled fb' hNe'
  · -- the block is met once on the way through the directory
    obtain ⟨l, r, hRange⟩ := List.append_of_mem (List.mem_range.mpr (h.inside fb hNe))
    have hNodup : (l ++ fb :: r).Nodup := hRange ▸ List.nodup_range
    have hNot := (List.nodup_cons.mp (List.nodup_middle.mp hNodup)).1
    have hSame : ∀ bs : List Nat, fb ∉ bs →
        (bs.flatMap fun fb' => if (v.writeData (v.map dir fb) b).map dir fb' = 0 then []
          else entries v.blockSize ((v.writeData (v.map dir fb) b).data
            ((v.writeData (v.map dir fb) b).map dir fb'))) =
        bs.flatMap fun fb' => if v.map dir fb' = 0 then []
          else entries v.blockSize (v.data (v.map dir fb')) := by
      intro bs hOut
      refine List.flatMap_congr fun fb' hMem => ?_
      rw [hMap']
      split
      next => rfl
      next hNe' => rw [hElse fb' (fun hEq => hOut (hEq ▸ hMem)) hNe']
    refine ⟨l.flatMap fun fb' => if v.map dir fb' = 0 then []
        else entries v.blockSize (v.data (v.map dir fb')),
      r.flatMap fun fb' => if v.map dir fb' = 0 then []
        else entries v.blockSize (v.data (v.map dir fb')), ?_, ?_⟩
    · unfold dirEntries
      rw [hRange, List.flatMap_append, List.flatMap_cons, if_neg hNe]
    · have hBlocks : (v.writeData (v.map dir fb) b).blocks dir = v.blocks dir := rfl
      unfold dirEntries
      rw [hBlocks, hRange, List.flatMap_append, List.flatMap_cons, blockSize_writeData,
        hSame l fun hIn => hNot (List.mem_append_left _ hIn),
        hSame r fun hIn => hNot (List.mem_append_right _ hIn), hMap', if_neg hNe,
        data_writeData_self]

/-- `dir_remove` that finds the name: its entry goes. -/
theorem DirHand.dirRemove (h : v.DirHand others dir)
    (hRemove : v.dirRemove dir name = some (w, ino)) :
    w.DirHand others dir ∧
      ∃ l r, v.dirEntries dir = l ++ (name, ino) :: r ∧ w.dirEntries dir = l ++ r := by
  obtain ⟨fb, hNe, hSome⟩ := firstBlock_some hRemove
  obtain ⟨⟨b, j⟩, hBlock, hEq⟩ := map_eq_some_iff.mp hSome
  obtain ⟨rfl, rfl⟩ := Prod.mk.inj hEq
  have hTiled := h.tiled fb hNe
  obtain ⟨hPacked, ⟨l, r, hOld, hNew⟩, hFilled, -⟩ :=
    entries_removeIn hTiled.packed h.hand.blockSize.2 hBlock
  obtain ⟨hDir, -, l', r', hBefore, hAfter⟩ :=
    h.writeData hNe ⟨hPacked, hFilled.trans hTiled.filled⟩
  refine ⟨hDir, l' ++ l, r ++ r', ?_, ?_⟩
  · rw [hBefore, hOld]
    simp
  · rw [hAfter, hNew]
    simp

/-! ## One more name -/

/-- A name was put into a directory; its inode may have grown by a block. -/
structure Entered (v w : Vol) (others : Nat → Prop) (dir dir' : Inode) (name : Name) (ino : Nat) :
    Prop where
  dirHand : w.DirHand others dir'
  keeps : Keeps v w others
  fields : dir' = { dir with block := dir'.block, size := dir'.size }
  entries : (w.dirEntries dir').Perm ((name, ino) :: v.dirEntries dir)

/-- The block `dir_add` appends. -/
theorem DirHand.grown (h : v.DirHand others dir) {root : Block} {p : Nat}
    (hGrown : Grown v w others dir.block root (v.blocks dir) p) (hp : p ≠ 0)
    (hSmall : v.blocks dir < 2 ^ 15) {b : Block} {e : Name × Nat}
    (hTiled : Tiled v.blockSize b) (hEntries : Vfsd.entries v.blockSize b = [e])
    (hDir : dir' = { dir with block := root, size := (dir.size + v.blockSize) % 2 ^ 64 }) :
    (w.writeData p b).DirHand others dir' ∧ Keeps v (w.writeData p b) others ∧
      (w.writeData p b).dirEntries dir' = v.dirEntries dir ++ [e] := by
  have hBs := h.hand.blockSize
  have hSize : w.blockSize = v.blockSize := hGrown.keeps.blockSize
  have hRoot : dir'.block = root := by rw [hDir]
  have hWhole : dir'.size = (v.blocks dir + 1) * v.blockSize := by
    have hMul : v.blocks dir * v.blockSize < 2 ^ 31 := by
      calc v.blocks dir * v.blockSize < 2 ^ 15 * 2 ^ 16 := Nat.mul_lt_mul'' hSmall hBs.2
        _ = 2 ^ 31 := by decide
    rw [hDir, Nat.succ_mul]
    rw [h.whole, Nat.mod_eq_of_lt (by omega)]
  have hBlocks : (w.writeData p b).blocks dir' = v.blocks dir + 1 := by
    have hLt : (v.blocks dir + 1) * v.blockSize < 2 ^ 32 := by
      calc (v.blocks dir + 1) * v.blockSize ≤ 2 ^ 15 * v.blockSize := Nat.mul_le_mul_right _ hSmall
        _ < 2 ^ 32 := by omega
    change (dir'.size + w.blockSize - 1) % 2 ^ 64 / w.blockSize = _
    rw [hSize, hWhole, Nat.mod_eq_of_lt (by omega), Nat.div_eq_iff hBs.1]
    omega
  -- the new block is no index block, so the tree is the same after it is filled
  have hNewMap := hGrown.map
  have hHere : mapBlock w.data root (v.blocks dir) = p := (hNewMap _).trans (if_pos rfl)
  obtain ⟨hHand, hKeeps, hMap⟩ := hGrown.hand.writeData b
    (fun hOther => hGrown.clear (h.hand.theirs p hOther)) (by
      rw [← hHere] at hp ⊢
      exact fun fb => hGrown.hand.tree.leaf _ fb hp)
  have hMap' : ∀ fb, (w.writeData p b).map dir' fb =
      if fb = v.blocks dir then p else v.map dir fb := by
    intro fb
    unfold Vol.map
    rw [hRoot, hMap, hNewMap]
  have hOld : ∀ fb, v.map dir fb ≠ 0 →
      (w.writeData p b).data (v.map dir fb) = v.data (v.map dir fb) := by
    intro fb hNe
    have hOther : v.map dir fb ≠ p := by
      intro hEq
      exact hGrown.clear (hEq ▸ (h.hand.own _ ⟨fb, .inr ⟨hNe, rfl⟩⟩).1)
    rw [data_writeData_of_ne w b hOther, hGrown.data _ hOther]
  refine ⟨⟨hRoot ▸ hHand, ?_, ?_, fun fb hNe => ?_, fun fb hNe => ?_⟩, hGrown.keeps.trans hKeeps, ?_⟩
  · rw [blockSize_writeData, hSize]
    exact h.blockSize
  · rw [hBlocks, blockSize_writeData, hSize, hWhole]
  · rw [hBlocks]
    rw [hMap'] at hNe
    split at hNe
    next hEq => omega
    next => exact Nat.lt_succ_of_lt (h.inside fb hNe)
  · rw [blockSize_writeData, hSize]
    rw [hMap'] at hNe ⊢
    split at hNe
    next hEq =>
      rw [if_pos hEq, data_writeData_self]
      exact hTiled
    next hEq =>
      rw [if_neg hEq, hOld fb hNe]
      exact h.tiled fb hNe
  · unfold dirEntries
    rw [hBlocks, List.range_succ, List.flatMap_append, List.flatMap_singleton, blockSize_writeData,
      hSize, hMap', if_pos rfl, if_neg hp, data_writeData_self, hEntries]
    refine congrArg (· ++ [e]) (List.flatMap_congr fun fb hMem => ?_)
    rw [hMap', if_neg (List.mem_range.mp hMem).ne]
    split
    next => rfl
    next hNe => rw [hOld fb hNe]

/-- The directory looks the same when none of its blocks was written. -/
theorem DirHand.unwritten (h : v.DirHand others dir) (hHand : w.Hand others dir.block)
    (hKeeps : Keeps v w others) (hData : ∀ p, Owns v.data dir.block p → w.data p = v.data p) :
    w.DirHand others dir ∧ w.dirEntries dir = v.dirEntries dir := by
  have hMap : ∀ fb, w.map dir fb = v.map dir fb := fun fb =>
    (mapBlock_congr (fun fb c hc => hData c ⟨fb, .inl hc⟩) fb).1
  have hBlocks : w.blocks dir = v.blocks dir := by
    unfold blocks
    rw [hKeeps.blockSize]
  have hSame : ∀ fb, v.map dir fb ≠ 0 → w.data (v.map dir fb) = v.data (v.map dir fb) :=
    fun fb hNe => hData _ ⟨fb, .inr ⟨hNe, rfl⟩⟩
  refine ⟨⟨hHand, ?_, ?_, fun fb hNe => ?_, fun fb hNe => ?_⟩, ?_⟩
  · rw [hKeeps.blockSize]
    exact h.blockSize
  · rw [hBlocks, hKeeps.blockSize]
    exact h.whole
  · rw [hMap] at hNe
    rw [hBlocks]
    exact h.inside fb hNe
  · rw [hMap] at hNe ⊢
    rw [hSame fb hNe, hKeeps.blockSize]
    exact h.tiled fb hNe
  · unfold dirEntries
    rw [hBlocks, hKeeps.blockSize]
    refine List.flatMap_congr fun fb _ => ?_
    rw [hMap]
    split
    next => rfl
    next hNe => rw [hSame fb hNe]

/-- `dir_add`, to a directory of fewer than 32768 blocks: it fails and the directory is as it was, or
the name is in one of its blocks, or in a new one. -/
theorem DirHand.dirAdd (h : v.DirHand others dir) (hSmall : v.blocks dir < 2 ^ 15)
    (hSome : 0 < name.length) (hName : name.length < 2 ^ 8) (hPos : 0 < ino) (hIno : ino < 2 ^ 32)
    (dirIno : Nat) (type : UInt8) :
    (∃ w, v.dirAdd dir dirIno name ino type = (w, dir, false) ∧ w.DirHand others dir ∧
        w.dirEntries dir = v.dirEntries dir) ∨
      (∃ w, v.dirAdd dir dirIno name ino type = (w, dir, true) ∧
        Entered v w others dir dir name ino) ∨ ∃ w dir', v.dirAdd dir dirIno name ino type =
          (w.writeInode dirIno dir' (w.inodeLinks dirIno), dir', true) ∧
        Entered v w others dir dir' name ino := by
  unfold Vol.dirAdd
  cases hFirst : v.firstBlock dir fun p =>
      (addIn v.blockSize (v.data p) name ino type).map (p, ·) with
  | some r =>
    obtain ⟨fb, hNe, hAt⟩ := firstBlock_some hFirst
    obtain ⟨b, hAdd, rfl⟩ := map_eq_some_iff.mp hAt
    have hTiled := h.tiled fb hNe
    obtain ⟨hPacked, hPerm, hFilled⟩ := entries_addIn hTiled.packed hPos hIno hSome hName hAdd
    obtain ⟨hDir, hKeeps, l, r, hBefore, hAfter⟩ :=
      h.writeData hNe ⟨hPacked, hFilled.trans hTiled.filled⟩
    refine .inr (.inl ⟨v.writeData (v.map dir fb) b, rfl, hDir, hKeeps, rfl, ?_⟩)
    rw [hBefore, hAfter]
    calc l ++ (Vfsd.entries v.blockSize b ++ r)
        |>.Perm (l ++ ((name, ino) :: Vfsd.entries v.blockSize (v.data (v.map dir fb)) ++ r)) :=
          (hPerm.append_right r).append_left l
      _ |>.Perm ((name, ino) :: (l ++ (Vfsd.entries v.blockSize (v.data (v.map dir fb)) ++ r))) :=
          List.perm_middle
  | none =>
    have hHole : v.map dir (v.blocks dir) = 0 := by
      by_contra hNe
      exact Nat.lt_irrefl _ (h.inside _ hNe)
    rcases h.hand.extend (by omega) (not_overlong hSmall) hHole with
        ⟨w, hExtend, hHand, hKeeps, hData⟩ | ⟨w, root, p, hExtend, hGrown⟩
    · obtain ⟨hDir, hSame⟩ := h.unwritten hHand hKeeps hData
      exact .inl ⟨w, by simp only [hExtend], hDir, hSame⟩
    · have hBs : w.blockSize = v.blockSize := hGrown.keeps.blockSize
      obtain ⟨hTiled, hEntries⟩ :=
        entries_putRecord type h.blockSize h.hand.blockSize.2 hPos hIno hSome hName
      obtain ⟨hDir, hKeeps, hAll⟩ := h.grown hGrown (Nat.succ_ne_zero p) hSmall hTiled hEntries rfl
      refine .inr (.inr ⟨w.writeData (p + 1) (putRecord zeroBlock 0 ino v.blockSize name type),
        { dir with block := root, size := (dir.size + v.blockSize) % 2 ^ 64 }, ?_,
        hDir, hKeeps, rfl, ?_⟩)
      · simp only [hExtend, hBs]
      · rw [hAll]
        exact List.perm_append_singleton _ _

end
end Vol
end LeahOS.Vfsd
