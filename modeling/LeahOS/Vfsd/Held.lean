import LeahOS.Vfsd.Reclaim

/-!
# An inode in hand

A handler works on a copy of an inode and writes it back at the end; in between the copy and the
record differ. `Hand v others root` is what holds all along: the blocks the copy's tree has are
marked, none of them belongs to `others`, and the tree is one the server can work on. A block that
`alloc_block` finds was not marked, so it is neither the inode's nor another's.

`Keeps v w others` says what a step of a handler leaves alone. `Hand.extend`, `Hand.blockFor` and
`Hand.writeLoop` say what the functions do to an inode in hand; the last one in terms of the bytes
the file shows, `byteAt`: the part that was written is put over what was there.
-/

namespace LeahOS.Vfsd
open Lib List Nat
namespace Space

/-- Block 0 is not free, and the numbers of the blocks fit into an extent. -/
structure Usable (s : Space) : Prop where
  zero : s.ZeroTaken
  low : ∀ p, s.Within p → p < 2 ^ 48

theorem usable_allocBlock {s s' : Space} (h : s.Usable) {p : Nat}
    (hAlloc : s.allocBlock = (s', p + 1)) : s'.Usable := by
  obtain ⟨-, -, hMarks⟩ := marks_allocBlock h.zero hAlloc
  refine ⟨?_, fun q hq => h.low q ((hMarks.alike.within q).mp hq)⟩
  rcases allocBlock_cases h.zero with hNone | ⟨g, bit, q, -, -, -, -, hFound⟩
  · rw [hNone] at hAlloc
    cases hAlloc
  · rw [hFound] at hAlloc
    obtain ⟨rfl, -⟩ := Prod.mk.inj hAlloc
    exact h.zero.takeBlock g bit

end Space

/-- The server can work on the tree: no block of the file is an index block, none is there twice,
and a root that can be appended to is one the format allows and does not lead to block 0. -/
structure TreeShape (data : Nat → Block) (root : Block) : Prop where
  leaf : ∀ fb fb', mapBlock data root fb ≠ 0 → mapBlock data root fb ∉ indexPath data root fb'
  once : ∀ fb fb', mapBlock data root fb ≠ 0 → mapBlock data root fb' = mapBlock data root fb →
    fb' = fb
  shape : Appendable root → RootShape root ∧ ∀ fb, mapped root fb ≠ some 0

theorem TreeShape.congr {data data' : Nat → Block} {root : Block} (h : TreeShape data root)
    (hSame : ∀ fb, ∀ c ∈ indexPath data root fb, data' c = data c) : TreeShape data' root := by
  have hMap := mapBlock_congr hSame
  refine ⟨fun fb fb' hNe => ?_, fun fb fb' hNe hEq => ?_, h.shape⟩
  · rw [(hMap fb).1, (hMap fb').2]
    rw [(hMap fb).1] at hNe
    exact h.leaf fb fb' hNe
  · rw [(hMap fb).1] at hNe hEq
    rw [(hMap fb').1] at hEq
    exact h.once fb fb' hNe hEq

namespace Vol

/-- What holds while an inode with that root is in hand. -/
structure Hand (v : Vol) (others : Nat → Prop) (root : Block) : Prop where
  blockSize : 0 < v.blockSize ∧ v.blockSize < 2 ^ 16
  space : v.space.Usable
  theirs : ∀ p, others p → v.space.Marked p
  own : ∀ p, Owns v.data root p → v.space.Marked p ∧ ¬ others p
  tree : TreeShape v.data root
  rest : ∀ k, 60 ≤ k → root k = 0

/-- What a step leaves alone: the inode records, the marks of inodes and the blocks of others;
and what was marked still is. -/
structure Keeps (v w : Vol) (others : Nat → Prop) : Prop where
  blockSize : w.blockSize = v.blockSize
  raw : w.raw = v.raw
  alike : v.space.Alike w.space
  taken : ∀ n, w.space.Taken n ↔ v.space.Taken n
  marked : ∀ p, v.space.Marked p → w.space.Marked p
  data : ∀ p, others p → w.data p = v.data p

section
variable {v w u : Vol} {others : Nat → Prop} {root : Block}

theorem Keeps.refl (v : Vol) (others : Nat → Prop) : Keeps v v others :=
  ⟨rfl, rfl, .refl _, fun _ => Iff.rfl, fun _ => id, fun _ _ => rfl⟩

theorem Keeps.trans (h : Keeps v w others) (h' : Keeps w u others) : Keeps v u others where
  blockSize := h'.blockSize.trans h.blockSize
  raw := h'.raw.trans h.raw
  alike := h.alike.trans h'.alike
  taken n := (h'.taken n).trans (h.taken n)
  marked p hp := h'.marked p (h.marked p hp)
  data p hp := (h'.data p hp).trans (h.data p hp)

variable {p want : Nat} {data : Nat → Block} {root' : Block}

/-- A block that is neither another's nor an index block is written. -/
theorem Hand.writeData (h : v.Hand others root) (b : Block) (hNot : ¬ others p)
    (hLeaf : ∀ fb, p ∉ indexPath v.data root fb) :
    (v.writeData p b).Hand others root ∧ Keeps v (v.writeData p b) others ∧
      ∀ fb, mapBlock (v.writeData p b).data root fb = mapBlock v.data root fb := by
  have hSame : ∀ fb, ∀ c ∈ indexPath v.data root fb, (v.writeData p b).data c = v.data c := by
    intro fb c hc
    refine data_writeData_of_ne v b ?_
    rintro rfl
    exact hLeaf fb hc
  refine ⟨{ h with
    own := fun q hq => h.own q ((owns_congr hSame q).mp hq)
    tree := h.tree.congr hSame }, ⟨rfl, rfl, .refl _, fun _ => Iff.rfl, fun _ => id, fun q hq => ?_⟩,
    fun fb => (mapBlock_congr hSame fb).1⟩
  refine data_writeData_of_ne v b ?_
  rintro rfl
  exact hNot hq

/-- A block is taken and written: it was nobody's. -/
theorem Hand.take (h : v.Hand others root) {space : Space}
    (hAlloc : v.space.allocBlock = (space, p + 1)) (b : Block) :
    let w := { v with space := space }.writeData (p + 1) b
    w.Hand others root ∧ Keeps v w others ∧
      (∀ fb, mapBlock w.data root fb = mapBlock v.data root fb) ∧
      ¬ v.space.Marked (p + 1) ∧ w.space.Marked (p + 1) ∧ p + 1 < 2 ^ 48 := by
  obtain ⟨hWithin, hClear, hMarks⟩ := Space.marks_allocBlock h.space.zero hAlloc
  have hMono : ∀ q, v.space.Marked q → space.Marked q := fun q hq => (hMarks.marked q).mpr (.inl hq)
  have hTaken : { v with space := space }.Hand others root :=
    ⟨h.blockSize, Space.usable_allocBlock h.space hAlloc, fun q hq => hMono q (h.theirs q hq),
      fun q hq => ⟨hMono q (h.own q hq).1, (h.own q hq).2⟩, h.tree, h.rest⟩
  obtain ⟨hHand, hKeeps, hMap⟩ := hTaken.writeData b (fun hOther => hClear (h.theirs _ hOther))
    fun fb hc => hClear (h.own _ ⟨fb, .inl hc⟩).1
  have hSpace : Keeps v { v with space := space } others :=
    ⟨rfl, rfl, hMarks.alike, hMarks.taken, hMono, fun _ _ => rfl⟩
  exact ⟨hHand, hSpace.trans hKeeps, hMap, hClear, (hMarks.marked _).mpr (.inr rfl),
    h.space.low _ hWithin⟩

/-! ## One more block -/

/-- The tree has one block more, which is empty. -/
structure Grown (v w : Vol) (others : Nat → Prop) (root root' : Block) (want p : Nat) : Prop where
  hand : w.Hand others root'
  keeps : Keeps v w others
  clear : ¬ v.space.Marked p
  empty : w.data p = zeroBlock
  data : ∀ q, q ≠ p → w.data q = v.data q
  map : ∀ fb, mapBlock w.data root' fb = if fb = want then p else mapBlock v.data root fb

theorem mapped_none (hTree : TreeShape data root) (hRoot : Appendable root) {fb : Nat}
    (hHole : mapBlock data root fb = 0) : mapped root fb = none := by
  rw [mapBlock_of_appendable hRoot] at hHole
  cases hMap : mapped root fb with
  | none => rfl
  | some p =>
    rw [hMap] at hHole
    obtain rfl : p = 0 := hHole
    exact absurd hMap ((hTree.shape hRoot).2 fb)

/-- The tree of a root that got one more block. -/
theorem mapped_appended (hTree : TreeShape data root) (hRoot : Appendable root)
    (hHole : mapBlock data root want = 0) (hApp : Appended root root' want p) (fb : Nat) :
    mapped root' fb = if fb = want then some p else mapped root fb := by
  rw [hApp.mapped fb]
  split
  next hEq =>
    rw [hEq, mapped_none hTree hRoot hHole]
    rfl
  next => rfl

theorem Hand.append (h : v.Hand others root) (hRoot : Appendable root)
    (hHole : mapBlock v.data root want = 0) (hApp : Appended root root' want p) (hp : p ≠ 0)
    (hMarked : v.space.Marked p) (hNot : ¬ others p) (hNew : ∀ fb, mapBlock v.data root fb ≠ p) :
    v.Hand others root' ∧
      ∀ fb, mapBlock v.data root' fb = if fb = want then p else mapBlock v.data root fb := by
  have hRoot' := hApp.appendable hRoot
  have hMapped := mapped_appended h.tree hRoot hHole hApp
  have hMap : ∀ fb, mapBlock v.data root' fb = if fb = want then p else mapBlock v.data root fb := by
    intro fb
    rw [mapBlock_of_appendable hRoot', mapBlock_of_appendable hRoot, hMapped fb]
    split
    next => rfl
    next => rfl
  have hIndex : ∀ fb, indexPath v.data root' fb = [] := fun fb =>
    congrArg Prod.fst (mapNode_of_appendable hRoot' fb)
  refine ⟨⟨h.blockSize, h.space, h.theirs, fun q hq => ?_, ⟨fun fb fb' _ => ?_, fun fb fb' hNe hEq => ?_,
    fun _ => ⟨hApp.shape, fun fb => ?_⟩⟩, fun k hk => (hApp.rest k hk).trans (h.rest k hk)⟩, hMap⟩
  · obtain ⟨fb, hIn | ⟨hNe, rfl⟩⟩ := hq
    · rw [hIndex] at hIn
      cases hIn
    · rw [hMap fb] at hNe ⊢
      split at hNe
      next hEq =>
        rw [if_pos hEq]
        exact ⟨hMarked, hNot⟩
      next hEq =>
        rw [if_neg hEq]
        exact h.own _ ⟨fb, .inr ⟨hNe, rfl⟩⟩
  · rw [hIndex]
    exact not_mem_nil
  · -- the new block is at one place only, since it was at none
    rw [hMap] at hNe
    rw [hMap, hMap] at hEq
    by_cases hFb : fb = want
    · by_cases hFb' : fb' = want
      · exact hFb'.trans hFb.symm
      · rw [if_pos hFb, if_neg hFb'] at hEq
        exact absurd hEq (hNew fb')
    · rw [if_neg hFb] at hNe hEq
      by_cases hFb' : fb' = want
      · rw [if_pos hFb'] at hEq
        exact absurd hEq.symm (hNew fb)
      · rw [if_neg hFb'] at hEq
        exact h.tree.once fb fb' hNe hEq
  · rw [hMapped fb]
    split
    next => exact fun hEq => hp (Option.some.inj hEq)
    next => exact (h.tree.shape hRoot).2 fb

/-- `extend`, for a block of the file that is not there yet and makes no extent too long. -/
theorem Hand.extend {i : Inode} (h : v.Hand others i.block) (hWant : v.blocks i + 1 < 2 ^ 32)
    (hShort : ¬ Overlong i.block (v.blocks i) v.space.allocBlock.2) (hHole : v.map i (v.blocks i) = 0) :
    (∃ w, v.extend i = (w, i, 0) ∧ w.Hand others i.block ∧ Keeps v w others ∧
        ∀ p, Owns v.data i.block p → w.data p = v.data p) ∨
      ∃ w root p, v.extend i = (w, { i with block := root }, p + 1) ∧
        Grown v w others i.block root (v.blocks i) (p + 1) := by
  by_cases hRoot : Appendable i.block
  · rcases hAlloc : v.space.allocBlock with ⟨space, _ | p⟩
    · have hNone := Space.allocBlock_zero h.space.zero (congrArg Prod.snd hAlloc)
      exact .inl ⟨v, extend_none (.inr hNone), h, .refl v others, fun _ _ => rfl⟩
    · obtain ⟨hHand, hKeeps, hMap, hClear, hMarked, hLow⟩ := h.take hAlloc zeroBlock
      have hNotOwn : ¬ Owns v.data i.block (p + 1) := fun hOwns => hClear (h.own _ hOwns).1
      have hElse : ∀ q, q ≠ p + 1 →
          ({ v with space := space }.writeData (p + 1) zeroBlock).data q = v.data q :=
        fun q hq => data_writeData_of_ne _ _ hq
      cases hApp : appendExtent i.block (v.blocks i) (p + 1) with
      | none =>
        refine .inl ⟨{ v with space := space }.writeData (p + 1) zeroBlock, ?_, hHand, hKeeps,
          fun q hq => hElse q ?_⟩
        · rw [Vol.extend, if_pos hRoot, hAlloc]
          simp only [hApp]
        · rintro rfl
          exact hNotOwn hq
      | some root =>
        rw [hAlloc] at hShort
        have hAppended :=
          appended_of_appendExtent (h.tree.shape hRoot).1 hWant hShort hLow hApp
        obtain ⟨hHand', hMap'⟩ := hHand.append hRoot ((hMap _).trans hHole) hAppended
          (succ_ne_zero p) hMarked (fun hOther => hClear (h.theirs _ hOther)) fun fb hEq => by
            rw [hMap fb] at hEq
            exact hNotOwn ⟨fb, .inr ⟨succ_ne_zero p, hEq.symm⟩⟩
        refine .inr ⟨{ v with space := space }.writeData (p + 1) zeroBlock, root, p, ?_,
          ⟨hHand', hKeeps, hClear, data_writeData_self .., hElse, fun fb => ?_⟩⟩
        · rw [Vol.extend, if_pos hRoot, hAlloc]
          simp only [hApp]
        · rw [hMap' fb, hMap fb]
  · exact .inl ⟨v, extend_none (.inl hRoot), h, .refl v others, fun _ _ => rfl⟩

end

/-! ## The bytes of a file -/

/-- The byte a file shows at a position; where it has no block, zero. -/
def byteAt (v : Vol) (root : Block) (k : Nat) : UInt8 :=
  if mapBlock v.data root (k / v.blockSize) = 0 then 0
  else v.data (mapBlock v.data root (k / v.blockSize)) (k % v.blockSize)

/-- `VFS_READ` answers with the bytes the file shows. -/
theorem readNode_eq (v : Vol) (i : Inode) (offset want : Nat) :
    v.readNode i offset want = if i.size ≤ offset then [] else
      (List.range (min (min want (i.size - offset)) 8192)).map fun k =>
        v.byteAt i.block (offset + k) := rfl

theorem copyIn_nil (f : Block) (pos : Nat) : copyIn f pos [] = f := by
  funext k
  exact if_neg (by simp only [length_nil]; omega)

theorem copyIn_append (f : Block) (pos : Nat) (xs ys : List UInt8) :
    copyIn (copyIn f pos xs) (pos + xs.length) ys = copyIn f pos (xs ++ ys) := by
  funext k
  unfold copyIn
  rw [length_append]
  by_cases hFirst : pos ≤ k ∧ k < pos + xs.length
  · rw [if_neg (by omega), if_pos hFirst, if_pos (by omega), getD_append _ _ _ _ (by omega)]
  · by_cases hSecond : pos + xs.length ≤ k ∧ k < pos + xs.length + ys.length
    · rw [if_pos hSecond, if_pos (by omega), getD_append_right _ _ _ _ (by omega), sub_add_eq]
    · rw [if_neg hSecond, if_neg hFirst, if_neg (by omega)]

section
variable {v w u : Vol} {others : Nat → Prop} {root : Block} {i j l : Inode} {fb pos : Nat}
  {part : List UInt8}

/-- A part of one block is written over. -/
theorem Hand.byteAt_writeData (h : v.Hand others root) (hNe : mapBlock v.data root fb ≠ 0)
    (within : Nat) (part : List UInt8) (hFit : within + part.length ≤ v.blockSize) :
    (v.writeData (mapBlock v.data root fb)
        (copyIn (v.data (mapBlock v.data root fb)) within part)).byteAt root =
      copyIn (v.byteAt root) (fb * v.blockSize + within) part := by
  have hMap := (h.writeData (copyIn (v.data (mapBlock v.data root fb)) within part)
    (h.own _ ⟨fb, .inr ⟨hNe, rfl⟩⟩).2 fun fb' => h.tree.leaf fb fb' hNe).2.2
  funext k
  rw [byteAt, hMap, blockSize_writeData]
  have hSplit : fb * v.blockSize + k % v.blockSize = k ↔ k / v.blockSize = fb := by
    have hDiv := div_add_mod k v.blockSize
    constructor
    · intro hEq
      rw [← hEq, Nat.mul_comm, mul_add_div h.blockSize.1,
        div_eq_of_lt (mod_lt _ h.blockSize.1), Nat.add_zero]
    · rintro rfl
      rw [Nat.mul_comm]
      exact hDiv
  by_cases hHere : k / v.blockSize = fb
  · have hk := hSplit.mpr hHere
    rw [hHere, if_neg hNe, data_writeData_self]
    unfold copyIn
    rw [byteAt, hHere, if_neg hNe]
    by_cases hIn : within ≤ k % v.blockSize ∧ k % v.blockSize < within + part.length
    · have hSub : k - (fb * v.blockSize + within) = k % v.blockSize - within := by omega
      rw [if_pos hIn, if_pos (by omega), hSub]
    · rw [if_neg hIn, if_neg (by omega)]
  · -- another block of the file is another block of the disk
    have hOut : ¬ (fb * v.blockSize + within ≤ k ∧
        k < fb * v.blockSize + within + part.length) := by
      rintro ⟨hLe, hLt⟩
      refine hHere ?_
      rw [Nat.div_eq_iff h.blockSize.1]
      omega
    rw [copyIn, if_neg hOut, byteAt]
    split
    next => rfl
    next hOther =>
      refine congrFun (data_writeData_of_ne v _ fun hEq => hHere ?_) _
      exact h.tree.once fb _ hNe hEq

/-- The block of a file that is to be written to was looked up, or appended. -/
structure Located (v w : Vol) (others : Nat → Prop) (i j : Inode) (fb p : Nat) : Prop where
  hand : w.Hand others j.block
  keeps : Keeps v w others
  fields : j = { i with block := j.block }
  bytes : w.byteAt j.block = v.byteAt i.block
  map : p ≠ 0 → mapBlock w.data j.block fb = p

/-- The file shows the same as long as its blocks do. -/
theorem byteAt_congr {root' : Block} (hSize : w.blockSize = v.blockSize)
    (hMap : ∀ fb, mapBlock w.data root' fb = mapBlock v.data root fb)
    (hData : ∀ p, Owns v.data root p → w.data p = v.data p) : w.byteAt root' = v.byteAt root := by
  funext k
  unfold byteAt
  rw [hSize, hMap]
  split
  next => rfl
  next hNe => rw [hData _ ⟨_, .inr ⟨hNe, rfl⟩⟩]

theorem blocks_of_mul (hSize : 0 < v.blockSize ∧ v.blockSize < 2 ^ 16) (hFb : fb < 2 ^ 15) {n : Nat}
    (hn : n = fb * v.blockSize % 2 ^ 64) : v.blocks { i with size := n } = fb := by
  have hMul : fb * v.blockSize < 2 ^ 31 := by
    calc fb * v.blockSize < 2 ^ 15 * 2 ^ 16 := Nat.mul_lt_mul'' hFb hSize.2
      _ = 2 ^ 31 := by decide
  subst hn
  change (fb * v.blockSize % 2 ^ 64 + v.blockSize - 1) % 2 ^ 64 / v.blockSize = fb
  rw [mod_eq_of_lt (by omega), mod_eq_of_lt (by omega), Nat.div_eq_iff hSize.1]
  omega

theorem Hand.blockFor (h : v.Hand others i.block) (hFb : fb < 2 ^ 15) :
    Located v (v.blockFor i fb).1 others i (v.blockFor i fb).2.1 fb (v.blockFor i fb).2.2 := by
  unfold Vol.blockFor
  split
  next hHole =>
    have hBlocks : v.blocks { i with size := fb * v.blockSize % 2 ^ 64 } = fb :=
      blocks_of_mul h.blockSize hFb rfl
    rcases Hand.extend (i := { i with size := fb * v.blockSize % 2 ^ 64 }) h
        (by rw [hBlocks]; omega) (not_overlong (by rwa [hBlocks])) (by rwa [hBlocks]) with
        ⟨w, hExtend, hHand, hKeeps, hData⟩ | ⟨w, root, p, hExtend, hGrown⟩
    · rw [hExtend]
      have hIndex : ∀ fb, ∀ c ∈ indexPath v.data i.block fb, w.data c = v.data c :=
        fun fb c hc => hData c ⟨fb, .inl hc⟩
      exact ⟨hHand, hKeeps, rfl, byteAt_congr hKeeps.blockSize
        (fun fb => (mapBlock_congr hIndex fb).1) hData, fun hNe => absurd rfl hNe⟩
    · rw [hExtend]
      rw [hBlocks] at hGrown
      refine ⟨hGrown.hand, hGrown.keeps, rfl, ?_, fun _ => (hGrown.map fb).trans (if_pos rfl)⟩
      -- where there was no block the new one is full of zeros
      funext k
      unfold byteAt
      rw [hGrown.keeps.blockSize, hGrown.map]
      by_cases hHere : k / v.blockSize = fb
      · rw [if_pos hHere, if_neg (succ_ne_zero p), hGrown.empty, hHere]
        exact (if_pos hHole).symm
      · rw [if_neg hHere]
        split
        next => rfl
        next hNe =>
          refine congrFun (hGrown.data _ ?_) _
          intro hEq
          exact hGrown.clear (hEq ▸ (h.own _ ⟨_, .inr ⟨hNe, rfl⟩⟩).1)
  next hNe => exact ⟨h, .refl v others, rfl, rfl, fun _ => rfl⟩

/-- A part was written into a file, from a position on. -/
structure Wrote (v w : Vol) (others : Nat → Prop) (i j : Inode) (pos : Nat) (part : List UInt8) :
    Prop where
  hand : w.Hand others j.block
  keeps : Keeps v w others
  fields : j = { i with block := j.block, size := j.size }
  bytes : w.byteAt j.block = copyIn (v.byteAt i.block) pos part
  size : j.size = if part = [] then i.size else max i.size (pos + part.length)

theorem Wrote.mode (h : Wrote v w others i j pos part) :
    j.mode = i.mode := by
  rw [h.fields]

theorem Wrote.trans {xs ys : List UInt8} (h : Wrote v w others i j pos xs)
    (h' : Wrote w u others j l (pos + xs.length) ys) : Wrote v u others i l pos (xs ++ ys) where
  hand := h'.hand
  keeps := h.keeps.trans h'.keeps
  fields := by
    rw [h'.fields, h.fields]
  bytes := by rw [h'.bytes, h.bytes, copyIn_append]
  size := by
    rw [h'.size, h.size]
    cases xs with
    | nil => simp
    | cons x xs =>
      cases ys with
      | nil => simp
      | cons y ys =>
        simp only [cons_append, reduceCtorEq, if_false, length_cons, length_append]
        omega

/-- One round of the loop of `VFS_WRITE`: the part that falls into one block. -/
theorem Located.wrote {p : Nat} (h : Located v w others i j (pos / v.blockSize) p) (hp : p ≠ 0)
    (hSome : part ≠ []) (hFit : pos % v.blockSize + part.length ≤ v.blockSize) :
    Wrote v (w.writeData p (copyIn (w.data p) (pos % v.blockSize) part)) others i
      { j with size := max j.size (pos + part.length) } pos part := by
  obtain rfl := h.map hp
  obtain ⟨hHand, hKeeps, -⟩ := h.hand.writeData
    (copyIn (w.data (mapBlock w.data j.block (pos / v.blockSize))) (pos % v.blockSize) part)
    (h.hand.own _ ⟨_, .inr ⟨hp, rfl⟩⟩).2 fun fb' => h.hand.tree.leaf _ fb' hp
  have hBytes := h.hand.byteAt_writeData hp (pos % v.blockSize) part
    (by rw [h.keeps.blockSize]; exact hFit)
  have hPos : pos / v.blockSize * w.blockSize + pos % v.blockSize = pos := by
    rw [h.keeps.blockSize, Nat.mul_comm]
    exact div_add_mod pos v.blockSize
  refine ⟨hHand, h.keeps.trans hKeeps, ?_, ?_, ?_⟩
  · rw [h.fields]
  · change byteAt _ j.block = _
    rw [hBytes, hPos, h.bytes]
  · rw [if_neg hSome, h.fields]

/-- The loop of `VFS_WRITE`, below block 32768 of the file: what it reports is what it wrote. -/
theorem Hand.writeLoop {offset : Nat} {bytes : List UInt8}
    (hEnd : offset + bytes.length ≤ 2 ^ 15 * v.blockSize) (n : Nat) {done : Nat}
    (hDone : done ≤ bytes.length) (h : v.Hand others i.block) :
    ∃ len, (v.writeLoop i offset bytes n done).2.2 = done + len ∧ done + len ≤ bytes.length ∧
      Wrote v (v.writeLoop i offset bytes n done).1 others i (v.writeLoop i offset bytes n done).2.1
        (offset + done) ((bytes.drop done).take len) := by
  induction n generalizing v i done with
  | zero =>
    refine ⟨0, rfl, hDone, h, .refl v others, rfl, ?_, rfl⟩
    exact (copyIn_nil _ _).symm
  | succ n ih =>
    have hNone : Wrote v v others i i (offset + done) ((bytes.drop done).take 0) :=
      ⟨h, .refl v others, rfl, (copyIn_nil _ _).symm, rfl⟩
    rw [Vol.writeLoop]
    simp only
    split
    next => exact ⟨0, rfl, hDone, hNone⟩
    next hMore =>
      have hBs := h.blockSize
      have hPos : (offset + done) % 2 ^ 64 = offset + done := mod_eq_of_lt (by omega)
      rw [hPos]
      have hFb : (offset + done) / v.blockSize < 2 ^ 15 := by
        rw [Nat.div_lt_iff_lt_mul hBs.1]
        omega
      have hLocated := h.blockFor hFb
      generalize v.blockFor i ((offset + done) / v.blockSize) = r at hLocated ⊢
      obtain ⟨w, j, p⟩ := r
      split
      next =>
        refine ⟨0, rfl, hDone, hLocated.hand, hLocated.keeps, ?_, ?_, ?_⟩
        · rw [hLocated.fields]
        · rw [hLocated.bytes]
          exact (copyIn_nil _ _).symm
        · rw [hLocated.fields]
          rfl
      next hp =>
        have hWithin := mod_lt (offset + done) hBs.1
        obtain ⟨len, hLen⟩ : ∃ len, len = min (v.blockSize - (offset + done) % v.blockSize)
            (bytes.length - done) := ⟨_, rfl⟩
        have hPart : ((bytes.drop done).take len).length = len := by
          rw [length_take, length_drop]
          omega
        have hUpTo : (offset + (done + len)) % 2 ^ 64 = offset + (done + len) :=
          mod_eq_of_lt (by omega)
        have hSome : (bytes.drop done).take len ≠ [] := ne_nil_of_length_pos (by omega)
        have hStep := hLocated.wrote hp hSome (by omega)
        rw [← hLen, hUpTo]
        obtain ⟨more, hTotal', hLe, hRest⟩ := ih (v := w.writeData p (copyIn (w.data p)
            ((offset + done) % v.blockSize) ((bytes.drop done).take len)))
          (i := { j with size := max j.size (offset + (done + len)) })
          (by rw [blockSize_writeData, hLocated.keeps.blockSize]; exact hEnd)
          (show done + len ≤ bytes.length by omega)
          hStep.hand
        refine ⟨len + more, by rw [hTotal', Nat.add_assoc], by omega, ?_⟩
        rw [take_add, drop_drop]
        refine hStep.trans ?_
        rw [hPart, Nat.add_assoc]
        exact hRest

end
end Vol
end LeahOS.Vfsd
