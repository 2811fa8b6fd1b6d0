import LeahOS.Vfsd.Held

/-!
# A filesystem in order

`Sound v` is what the checker of a filesystem looks for in its blocks: the blocks of the inodes in
use are marked, no block belongs to two of them, and every tree is one the server can work on. An
inode is in use when its bit is set.

A handler changes one inode at a time. `Sound.update` says what is to be shown for it: that the
inode is in hand with respect to the blocks of the other inodes in use (`Others`), and that those
blocks and the other records are as they were. `Sound.writeNode` is `VFS_WRITE` put this way.
-/

namespace LeahOS.Vfsd
open Lib

/-- The sixty bytes of the inode are a tree of blocks: neither the target of a symbolic link nor the
number of a device. -/
def hasTree (i : Inode) : Bool :=
  !Vol.inlineLink i && decide (modeKind i.mode ≠ modeChr) && decide (modeKind i.mode ≠ modeBlk)

theorem hasTree_of_kind {i : Inode} (hLink : modeKind i.mode ≠ modeLink)
    (hChr : modeKind i.mode ≠ modeChr) (hBlk : modeKind i.mode ≠ modeBlk) : hasTree i = true := by
  simp [hasTree, Vol.inlineLink, hLink, hChr, hBlk]

theorem hasTree_file {i : Inode} (hFile : modeKind i.mode = modeFile) : hasTree i = true :=
  hasTree_of_kind (by rw [hFile]; decide) (by rw [hFile]; decide) (by rw [hFile]; decide)

namespace Vol

/-- The inode is in use and has the block. -/
def Has (v : Vol) (n p : Nat) : Prop :=
  v.space.Taken n ∧ hasTree (v.inode n) = true ∧ Owns v.data (v.inode n).block p

/-- Another inode in use has the block. -/
def Others (v : Vol) (n p : Nat) : Prop := ∃ m, m ≠ n ∧ v.Has m p

/-- The blocks of the inodes in use are in order. -/
structure Sound (v : Vol) : Prop where
  blockSize : 0 < v.blockSize ∧ v.blockSize < 2 ^ 16
  space : v.space.Usable
  marked : ∀ n p, v.Has n p → v.space.Marked p
  apart : ∀ n m p, v.Has n p → v.Has m p → n = m
  tree : ∀ n, v.space.Taken n → hasTree (v.inode n) = true → TreeShape v.data (v.inode n).block

section
variable {v w : Vol} {n : Nat}

theorem Sound.hand (h : v.Sound) (hTaken : v.space.Taken n) (hTree : hasTree (v.inode n) = true) :
    v.Hand (v.Others n) (v.inode n).block where
  blockSize := h.blockSize
  space := h.space
  theirs p := fun ⟨m, _, hHas⟩ => h.marked m p hHas
  own p hOwns := by
    refine ⟨h.marked n p ⟨hTaken, hTree, hOwns⟩, ?_⟩
    rintro ⟨m, hNe, hHas⟩
    exact hNe (h.apart m n p hHas ⟨hTaken, hTree, hOwns⟩)
  tree := h.tree n hTaken hTree
  rest k hk := v.inode_block_zero n hk

/-- The tree of an inode in use that another's handler left alone. -/
theorem map_of_others (hData : ∀ p, v.Others n p → w.data p = v.data p) {m : Nat} (hNe : m ≠ n)
    (hTaken : v.space.Taken m) (hTree : hasTree (v.inode m) = true) :
    (∀ fb, ∀ c ∈ indexPath v.data (v.inode m).block fb, w.data c = v.data c) ∧
      ∀ p, Owns v.data (v.inode m).block p → w.data p = v.data p :=
  ⟨fun fb c hc => hData c ⟨m, hNe, hTaken, hTree, fb, .inl hc⟩,
    fun p hOwns => hData p ⟨m, hNe, hTaken, hTree, hOwns⟩⟩

/-- A handler changed the inode `n`, which may also have come into use or gone out of it. -/
structure Update (v w : Vol) (n : Nat) : Prop where
  blockSize : w.blockSize = v.blockSize
  usable : w.space.Usable
  taken : ∀ m, m ≠ n → (w.space.Taken m ↔ v.space.Taken m)
  marked : ∀ p, v.Others n p → w.space.Marked p
  data : ∀ p, v.Others n p → w.data p = v.data p
  inode : ∀ m, m ≠ n → w.inode m = v.inode m
  hand : w.space.Taken n → hasTree (w.inode n) = true → w.Hand (v.Others n) (w.inode n).block

theorem Update.has (h : Update v w n) {m : Nat} (hNe : m ≠ n) (p : Nat) :
    w.Has m p ↔ v.Has m p := by
  unfold Has
  rw [h.taken m hNe, h.inode m hNe]
  refine and_congr_right fun hTaken => and_congr_right fun hTree => ?_
  exact owns_congr (map_of_others h.data hNe hTaken hTree).1 p

theorem Sound.update (hSound : v.Sound) (h : Update v w n) : w.Sound where
  blockSize := by
    rw [h.blockSize]
    exact hSound.blockSize
  space := h.usable
  marked m p hHas := by
    by_cases hEq : m = n
    · subst hEq
      exact ((h.hand hHas.1 hHas.2.1).own p hHas.2.2).1
    · exact h.marked p ⟨m, hEq, (h.has hEq p).mp hHas⟩
  apart m m' p hHas hHas' := by
    -- a block of the changed inode is no block of the others
    have hMixed : ∀ m', m' ≠ n → w.Has n p → ¬ w.Has m' p := by
      intro m' hNe hOwn hOther
      exact ((h.hand hOwn.1 hOwn.2.1).own p hOwn.2.2).2 ⟨m', hNe, (h.has hNe p).mp hOther⟩
    by_cases hEq : m = n
    · subst hEq
      by_contra hNe
      exact hMixed m' (Ne.symm hNe) hHas hHas'
    · by_cases hEq' : m' = n
      · subst hEq'
        exact absurd hHas (hMixed m hEq hHas')
      · exact hSound.apart m m' p ((h.has hEq p).mp hHas) ((h.has hEq' p).mp hHas')
  tree m hTaken hTree := by
    by_cases hEq : m = n
    · subst hEq
      exact (h.hand hTaken hTree).tree
    · rw [h.taken m hEq] at hTaken
      rw [h.inode m hEq] at hTree ⊢
      exact (hSound.tree m hTaken hTree).congr (map_of_others h.data hEq hTaken hTree).1

/-- Other files show the same bytes. -/
theorem Update.byteAt (h : Update v w n) {m : Nat} (hNe : m ≠ n) (hTaken : v.space.Taken m)
    (hTree : hasTree (v.inode m) = true) :
    w.byteAt (w.inode m).block = v.byteAt (v.inode m).block := by
  obtain ⟨hIndex, hData⟩ := map_of_others h.data hNe hTaken hTree
  rw [h.inode m hNe]
  exact byteAt_congr h.blockSize (fun fb => (mapBlock_congr hIndex fb).1) hData

/-- The inode in hand is written back. -/
theorem update_writeInode {j : Inode} (hKeeps : Keeps v w (v.Others n))
    (hHand : w.Hand (v.Others n) j.block) (links : Nat) : Update v (w.writeInode n j links) n where
  blockSize := hKeeps.blockSize
  usable := hHand.space
  taken m _ := hKeeps.taken m
  marked := hHand.theirs
  data := hKeeps.data
  inode m hNe := by
    rw [w.inode_writeInode_of_ne j links hNe]
    unfold Vol.inode
    rw [hKeeps.raw]
  hand _ _ := by
    rw [(w.inode_writeInode_self n j links).2.2, clip_of_zero hHand.rest]
    exact { hHand with }

/-! ## Writing a file -/

/-- What `VFS_WRITE` did to a file: `part` is what it reported. -/
structure NodeWritten (v w : Vol) (n offset : Nat) (part : List UInt8) : Prop where
  update : Update v w n
  taken : w.space.Taken n ↔ v.space.Taken n
  mode : (w.inode n).mode = (v.inode n).mode
  size : (w.inode n).size =
    if part = [] then (v.inode n).size else max (v.inode n).size (offset + part.length)
  bytes : w.byteAt (w.inode n).block = copyIn (v.byteAt (v.inode n).block) offset part

theorem Sound.writeNode (h : v.Sound) (hTaken : v.space.Taken n)
    (hTree : hasTree (v.inode n) = true) {offset : Nat} {bytes : List UInt8}
    (hEnd : offset + (bytes.take 8192).length ≤ 2 ^ 15 * v.blockSize) (now : Nat) :
    ∃ len : Nat, (v.writeNode n (v.inode n) offset bytes now).2 = len ∧
      len ≤ (bytes.take 8192).length ∧
      NodeWritten v (v.writeNode n (v.inode n) offset bytes now).1 n offset
        ((bytes.take 8192).take len) := by
  obtain ⟨len, hLen, hLe, hWrote⟩ := Hand.writeLoop hEnd ((bytes.take 8192).length + 1)
    (Nat.zero_le _) (h.hand hTaken hTree)
  rw [Nat.zero_add] at hLen hLe
  rw [Nat.add_zero, List.drop_zero] at hWrote
  refine ⟨len, by rw [Vol.writeNode, hLen], hLe, ?_⟩
  unfold Vol.writeNode
  simp only
  generalize bytes.take 8192 = chunk at hEnd hLe hWrote ⊢
  generalize v.writeLoop (v.inode n) offset chunk (chunk.length + 1) 0 = r at hWrote ⊢
  obtain ⟨w, j, d⟩ := r
  obtain ⟨hMode, hSize, hBlock⟩ :=
    w.inode_writeInode_self n (touch j now) (w.inodeLinks n)
  have hPart : (chunk.take len).length = len := by
    rw [List.length_take]
    omega
  have hSizeLt : j.size < 2 ^ 64 := by
    have hOld := v.inode_size_lt n
    have hBs := h.blockSize
    rw [hWrote.size]
    split
    next => exact hOld
    next =>
      refine max_lt hOld ?_
      omega
  have hBack : (touch j now).block = j.block := rfl
  rw [hBack, clip_of_zero hWrote.hand.rest] at hBlock
  refine ⟨update_writeInode (j := touch j now) hWrote.keeps hWrote.hand _,
    hWrote.keeps.taken n, ?_, ?_, ?_⟩
  · rw [hMode, show (touch j now).mode = j.mode from rfl, hWrote.mode]
    exact Nat.mod_eq_of_lt (rd16_lt (v.raw n) 0)
  · rw [hSize, show (touch j now).size = j.size from rfl, Nat.mod_eq_of_lt hSizeLt]
    exact hWrote.size
  · rw [hBlock]
    exact hWrote.bytes

end
end Vol

/-! ## A filesystem with nothing but its root -/

/-- The root has no blocks. -/
structure Barren (data : Nat → Block) (root : Block) : Prop where
  node : ∀ fb, mapNode data 8 root fb = ([], 0)
  shape : Appendable root → RootShape root ∧ ∀ fb, mapped root fb ≠ some 0

theorem barren_zeroBlock (data : Nat → Block) : Barren data zeroBlock := by
  have hMagic : rd16 zeroBlock 0 ≠ extMagic := by decide
  refine ⟨fun fb => ?_, fun hRoot => absurd hRoot.1 hMagic⟩
  rw [mapNode, if_pos hMagic]

theorem barren_emptyRoot (data : Nat → Block) : Barren data emptyRoot := by
  have hRoot : Appendable emptyRoot := by decide
  have hCount : extEntries emptyRoot = 0 := by decide
  have hNone : ∀ fb, mapped emptyRoot fb = none := fun fb => by
    rfl
  refine ⟨fun fb => ?_, fun _ => ⟨⟨by decide, by decide, fun e he => ?_⟩, fun fb => ?_⟩⟩
  · rw [mapNode_of_appendable hRoot, hNone]
    rfl
  · rw [hCount] at he
    omega
  · rw [hNone]
    exact (Option.some_ne_none 0).symm

/-- A filesystem whose only inode with blocks is the root, in block 5. -/
theorem Vol.sound_of_barren {v : Vol} (hSize : 0 < v.blockSize ∧ v.blockSize < 2 ^ 16)
    (hSpace : v.space.Usable) (hMarked : v.space.Marked 5)
    (hRoot : (v.inode rootInode).block = oneBlock 5)
    (hElse : ∀ n, n ≠ rootInode → Barren v.data (v.inode n).block) : v.Sound := by
  have hAppend : Appendable (oneBlock 5) := by decide
  have hMap : ∀ fb, mapBlock v.data (oneBlock 5) fb = if fb = 0 then 5 else 0 := by
    intro fb
    rw [mapBlock_of_appendable hAppend, mapped_oneBlock (by decide)]
    split
    next => rfl
    next => rfl
  have hIndex : ∀ fb, indexPath v.data (oneBlock 5) fb = [] := fun fb =>
    congrArg Prod.fst (mapNode_of_appendable hAppend fb)
  have hHas : ∀ n p, v.Has n p → n = rootInode ∧ p = 5 := by
    rintro n p ⟨-, -, fb, hOwns⟩
    by_cases hn : n = rootInode
    · subst hn
      rw [hRoot, hIndex, hMap] at hOwns
      rcases hOwns with hIn | ⟨hNe, hEq⟩
      · cases hIn
      · split at hEq
        next => exact ⟨rfl, hEq⟩
        next => exact absurd hEq hNe
    · have hNode := (hElse n hn).node fb
      unfold indexPath mapBlock at hOwns
      rw [hNode] at hOwns
      rcases hOwns with hIn | ⟨hNe, hEq⟩
      · cases hIn
      · exact absurd hEq hNe
  refine ⟨hSize, hSpace, fun n p h => ?_, fun n m p h h' => ?_, fun n _ _ => ?_⟩
  · rw [(hHas n p h).2]
    exact hMarked
  · rw [(hHas n p h).1, (hHas m p h').1]
  · by_cases hn : n = rootInode
    · subst hn
      rw [hRoot]
      refine ⟨fun fb fb' _ => ?_, fun fb fb' hNe hEq => ?_, fun _ => ⟨⟨by decide, by decide, ?_⟩, ?_⟩⟩
      · rw [hIndex]
        exact List.not_mem_nil
      · rw [hMap] at hNe hEq
        rw [hMap] at hEq
        by_cases hFb : fb = 0
        · by_cases hFb' : fb' = 0
          · rw [hFb, hFb']
          · rw [if_pos hFb, if_neg hFb'] at hEq
            cases hEq
        · rw [if_neg hFb] at hNe
          exact absurd rfl hNe
      · decide
      · intro fb
        rw [mapped_oneBlock (by decide)]
        split
        next => decide
        next => exact nofun
    · have hBarren := hElse n hn
      have hHole : ∀ fb, mapBlock v.data (v.inode n).block fb = 0 := fun fb =>
        congrArg Prod.snd (hBarren.node fb)
      exact ⟨fun fb fb' hNe => absurd (hHole fb) hNe, fun fb fb' hNe => absurd (hHole fb) hNe,
        hBarren.shape⟩

end LeahOS.Vfsd
