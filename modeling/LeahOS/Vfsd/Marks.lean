import LeahOS.Vfsd.Space

/-!
# Which blocks and inodes are marked

`Marks s s' block inode` says what an operation on the free space comes to for everything that
only looks at the bitmaps: the layout stays, and afterwards exactly the blocks in `block` and the
inodes in `inode` have their bit set.
-/

namespace LeahOS.Vfsd
open Lib Function List
namespace Space
variable {s s' : Space}

/-- The filesystem has a block of that number. -/
def Within (s : Space) (p : Nat) : Prop :=
  ∃ g bit, g < s.groupCount ∧ bit < s.blocksPerGroup ∧
    p = s.firstDataBlock + g * s.blocksPerGroup + bit

/-- The bit of an inode is set. -/
def Taken (s : Space) (n : Nat) : Prop :=
  ∃ g bit, g < s.groupCount ∧ bit < s.inodesPerGroup ∧ n = g * s.inodesPerGroup + (bit + 1) ∧
    (s.group g).inodeBits bit = true

/-- The layout is the same. -/
structure Alike (s s' : Space) : Prop where
  firstDataBlock : s'.firstDataBlock = s.firstDataBlock
  blocksPerGroup : s'.blocksPerGroup = s.blocksPerGroup
  inodesPerGroup : s'.inodesPerGroup = s.inodesPerGroup
  groupCount : s'.groupCount = s.groupCount

theorem Alike.refl (s : Space) : Alike s s := ⟨rfl, rfl, rfl, rfl⟩

theorem Alike.trans {t : Space} (h : Alike s s') (h' : Alike s' t) : Alike s t :=
  ⟨h'.1.trans h.1, h'.2.trans h.2, h'.3.trans h.3, h'.4.trans h.4⟩

theorem Alike.within (h : Alike s s') (p : Nat) : s'.Within p ↔ s.Within p := by
  unfold Within
  rw [h.firstDataBlock, h.blocksPerGroup, h.groupCount]

theorem Alike.sized (h : Alike s s') (hSized : s.Sized) : s'.Sized := by
  obtain ⟨hBlocks, hInodes, hAllBlocks, hAllInodes⟩ := hSized
  refine ⟨?_, ?_, ?_, ?_⟩
  · rwa [h.blocksPerGroup]
  · rwa [h.inodesPerGroup]
  · rwa [h.groupCount, h.blocksPerGroup]
  · rwa [h.groupCount, h.inodesPerGroup]

theorem marked_iff (s : Space) (p : Nat) :
    s.Marked p ↔ s.firstDataBlock ≤ p ∧ BitAt s.groupCount s.blocksPerGroup
      (fun g => (s.group g).blockBits) (p - s.firstDataBlock) := by
  constructor
  · rintro ⟨g, bit, hg, hBit, rfl, hSet⟩
    exact ⟨by omega, g, bit, hg, hBit, by omega, hSet⟩
  · rintro ⟨hLe, g, bit, hg, hBit, hEq, hSet⟩
    exact ⟨g, bit, hg, hBit, by omega, hSet⟩

theorem taken_iff (s : Space) (n : Nat) :
    s.Taken n ↔ 0 < n ∧ BitAt s.groupCount s.inodesPerGroup (fun g => (s.group g).inodeBits)
      (n - 1) := by
  constructor
  · rintro ⟨g, bit, hg, hBit, rfl, hSet⟩
    exact ⟨by omega, g, bit, hg, hBit, by omega, hSet⟩
  · rintro ⟨hPos, g, bit, hg, hBit, hEq, hSet⟩
    exact ⟨g, bit, hg, hBit, by omega, hSet⟩

/-- What is marked afterwards. -/
structure Marks (s s' : Space) (block inode : Nat → Prop) : Prop where
  alike : Alike s s'
  marked : ∀ q, s'.Marked q ↔ block q
  taken : ∀ n, s'.Taken n ↔ inode n

/-- The bitmaps did not change. -/
theorem marks_of_bits (s s' : Space) (hAlike : Alike s s')
    (hBlocks : ∀ g, (s'.group g).blockBits = (s.group g).blockBits)
    (hInodes : ∀ g, (s'.group g).inodeBits = (s.group g).inodeBits) :
    Marks s s' s.Marked s.Taken := by
  refine ⟨hAlike, fun q => ?_, fun n => ?_⟩
  · simp only [marked_iff, hAlike.firstDataBlock, hAlike.blocksPerGroup, hAlike.groupCount, hBlocks]
  · simp only [taken_iff, hAlike.inodesPerGroup, hAlike.groupCount, hInodes]

variable {bit g p : Nat}

/-- One bit of a block bitmap changed. -/
theorem marks_of_block (s s' : Space) (hAlike : Alike s s') {value : Bool} (hg : g < s.groupCount)
    (hBit : bit < s.blocksPerGroup) (hBlocks : ∀ h j, (s'.group h).blockBits j =
      if h = g ∧ j = bit then value else (s.group h).blockBits j)
    (hInodes : ∀ h, (s'.group h).inodeBits = (s.group h).inodeBits) :
    Marks s s' (fun q => if q = s.firstDataBlock + g * s.blocksPerGroup + bit then value = true
      else s.Marked q) s.Taken := by
  refine ⟨hAlike, fun q => ?_, fun n => ?_⟩
  · simp only [marked_iff, hAlike.firstDataBlock, hAlike.blocksPerGroup, hAlike.groupCount,
      bitAt_update hg hBit hBlocks]
    by_cases hLe : s.firstDataBlock ≤ q
    · have hNumber : q - s.firstDataBlock = g * s.blocksPerGroup + bit ↔
          q = s.firstDataBlock + g * s.blocksPerGroup + bit := by omega
      simp only [hLe, true_and, hNumber]
    · have hNumber : q ≠ s.firstDataBlock + g * s.blocksPerGroup + bit := by omega
      simp [hLe, hNumber]
  · simp only [taken_iff, hAlike.inodesPerGroup, hAlike.groupCount, hInodes]

/-! ## The operations -/

section Update
variable {group : Nat → Group} {g : Nat} {x : Group}

theorem update_keeps {α : Type} (f : Group → α) (hx : f x = f (group g)) (h : Nat) :
    f (update group g x h) = f (group h) := by
  by_cases hEq : h = g
  · subst hEq
    rw [update_self, hx]
  · rw [update_of_ne hEq]

theorem update_bit (f : Group → Nat → Bool) {bit : Nat} {value : Bool}
    (hx : f x = update (f (group g)) bit value) (h j : Nat) :
    f (update group g x h) j = if h = g ∧ j = bit then value else f (group h) j := by
  by_cases hEq : h = g
  · subst hEq
    rw [update_self, hx]
    by_cases hBit : j = bit
    · simp [hBit]
    · simp [hBit]
  · rw [update_of_ne hEq, if_neg fun hBoth => hEq hBoth.1]

end Update

theorem marks_takeBlock (s : Space) (hg : g < s.groupCount) (hBit : bit < s.blocksPerGroup) :
    Marks s (s.takeBlock g bit)
      (fun q => if q = s.firstDataBlock + g * s.blocksPerGroup + bit then true = true
        else s.Marked q) s.Taken := by
  refine marks_of_block s (s.takeBlock g bit) ⟨rfl, rfl, rfl, rfl⟩ hg hBit
    (update_bit Group.blockBits ?_) (update_keeps Group.inodeBits ?_)
  · rfl
  · rfl

theorem marks_giveBlock (s : Space) (hg : g < s.groupCount) (hBit : bit < s.blocksPerGroup) :
    Marks s (s.giveBlock g bit)
      (fun q => if q = s.firstDataBlock + g * s.blocksPerGroup + bit then false = true
        else s.Marked q) s.Taken := by
  refine marks_of_block s (s.giveBlock g bit) ⟨rfl, rfl, rfl, rfl⟩ hg hBit
    (update_bit Group.blockBits ?_) (update_keeps Group.inodeBits ?_)
  · rfl
  · rfl

/-- `alloc_block` marks the block it finds, which was clear. -/
theorem marks_allocBlock (hZero : s.ZeroTaken) (hAlloc : s.allocBlock = (s', p + 1)) :
    s.Within (p + 1) ∧ ¬ s.Marked (p + 1) ∧
      Marks s s' (fun q => s.Marked q ∨ q = p + 1) s.Taken := by
  have hFresh := allocBlock_not_marked hZero hAlloc
  rcases allocBlock_cases hZero with hNone | ⟨g, bit, q, hg, hBit, hClear, hNumber, hFound⟩
  · rw [hNone] at hAlloc
    cases hAlloc
  · rw [hFound] at hAlloc
    obtain ⟨rfl, rfl⟩ : s.takeBlock g bit = s' ∧ q = p := by simpa using hAlloc
    obtain ⟨hAlike, hMarked, hTaken⟩ := s.marks_takeBlock hg hBit
    refine ⟨⟨g, bit, hg, hBit, hNumber.symm⟩, hFresh, hAlike, fun r => ?_, hTaken⟩
    rw [hMarked r, hNumber]
    by_cases hEq : r = q + 1
    · simp [hEq]
    · simp [hEq]

/-- `alloc_block` gives no block back. -/
theorem allocBlock_keeps (hZero : s.ZeroTaken) :
    s.allocBlock.1.ZeroTaken ∧ ∀ p, s.Marked p → s.allocBlock.1.Marked p := by
  rcases allocBlock_cases hZero with hNone | ⟨g, bit, p, -, -, -, -, hFound⟩
  · rw [hNone]
    exact ⟨hZero, fun _ => id⟩
  · obtain ⟨-, -, hMarks⟩ := marks_allocBlock hZero hFound
    rw [hFound]
    exact ⟨hZero.takeBlock g bit, fun q hq => (hMarks.marked q).mpr (.inl hq)⟩

/-- The block `alloc_block` finds was free and is not any more. -/
theorem allocBlock_takes (hZero : s.ZeroTaken) (hSome : s.allocBlock.2 ≠ 0) :
    ¬ s.Marked s.allocBlock.2 ∧ s.allocBlock.1.Marked s.allocBlock.2 := by
  rcases allocBlock_cases hZero with hNone | ⟨g, bit, p, -, -, -, -, hFound⟩
  · rw [hNone] at hSome
    exact absurd rfl hSome
  · obtain ⟨-, hClear, hMarks⟩ := marks_allocBlock hZero hFound
    rw [hFound]
    exact ⟨hClear, (hMarks.marked _).mpr (.inr rfl)⟩

theorem Marked.within (h : s.Marked p) : s.Within p := by
  obtain ⟨g, bit, hg, hBit, hEq, -⟩ := h
  exact ⟨g, bit, hg, hBit, hEq⟩

/-- The number of the group of the block fits 32 bits. -/
def Numbered (s : Space) (p : Nat) : Prop := (p - s.firstDataBlock) / s.blocksPerGroup < 2 ^ 32

/-- `free_block` leaves a block alone that the filesystem does not have. -/
theorem freeBlock_of_not_within (hSized : s.Sized) (hNumber : s.Numbered p) (hNot : ¬ s.Within p) :
    s.freeBlock p = s := by
  refine if_pos ?_
  by_contra hIn
  push Not at hIn
  rw [blockGroup, Nat.mod_eq_of_lt hNumber] at hIn
  refine hNot ⟨_, (p - s.firstDataBlock) % s.blocksPerGroup, hIn.2,
    Nat.mod_lt _ hSized.blocks.1, ?_⟩
  have hDiv := Nat.div_add_mod' (p - s.firstDataBlock) s.blocksPerGroup
  omega

/-- `free_block` clears the mark of its block. -/
theorem marks_freeBlock (hSized : s.Sized) (hNumber : s.Numbered p) :
    Marks s (s.freeBlock p) (fun q => s.Marked q ∧ q ≠ p) s.Taken := by
  by_cases hWithin : s.Within p
  swap
  · rw [freeBlock_of_not_within hSized hNumber hWithin]
    refine ⟨.refl s, fun q => ⟨fun hMarked => ⟨hMarked, ?_⟩, And.left⟩, fun _ => Iff.rfl⟩
    rintro rfl
    exact hWithin hMarked.within
  obtain ⟨g, bit, hg, hBit, rfl⟩ := hWithin
  obtain ⟨hGroup, hPlace⟩ := blockGroup_eq hSized hg hBit
  have hIn : ¬ (s.firstDataBlock + g * s.blocksPerGroup + bit < s.firstDataBlock ∨
      s.groupCount ≤ s.blockGroup (s.firstDataBlock + g * s.blocksPerGroup + bit)) := by
    omega
  unfold freeBlock blockTaken
  rw [if_neg hIn, hGroup, hPlace]
  split
  next hSet =>
    obtain ⟨hAlike, hMarked, hTaken⟩ := s.marks_giveBlock hg hBit
    refine ⟨hAlike, fun r => ?_, hTaken⟩
    rw [hMarked r]
    by_cases hEq : r = s.firstDataBlock + g * s.blocksPerGroup + bit
    · simp [hEq]
    · simp [hEq]
  next hClear =>
    refine ⟨.refl s, fun r => ⟨fun hMarked => ⟨hMarked, ?_⟩, And.left⟩, fun _ => Iff.rfl⟩
    rintro rfl
    obtain ⟨h, j, hh, hj, hSame, hSet⟩ := hMarked
    obtain ⟨rfl, rfl⟩ := place_inj hBit hj
      (show g * s.blocksPerGroup + bit = h * s.blocksPerGroup + j by omega)
    exact hClear hSet

/-- `free_block` for every block of a list. -/
theorem marks_freeBlocks (hSized : s.Sized) {ps : List Nat} (hNumber : ∀ p ∈ ps, s.Numbered p) :
    Marks s (ps.foldl freeBlock s) (fun q => s.Marked q ∧ q ∉ ps) s.Taken := by
  induction ps generalizing s with
  | nil => exact ⟨.refl s, fun q => by simp, fun _ => Iff.rfl⟩
  | cons p ps ih =>
    have hOne := marks_freeBlock hSized (hNumber p mem_cons_self)
    have hRest := ih (hOne.alike.sized hSized) fun q hq => by
      rw [Numbered, hOne.alike.firstDataBlock, hOne.alike.blocksPerGroup]
      exact hNumber q (mem_cons_of_mem p hq)
    refine ⟨hOne.alike.trans hRest.alike, fun q => ?_, fun n => ?_⟩
    · rw [foldl_cons, hRest.marked, hOne.marked, mem_cons, not_or, and_assoc]
    · rw [foldl_cons, hRest.taken, hOne.taken]

theorem marks_dropDir (s : Space) (g : Nat) : Marks s (s.dropDir g) s.Marked s.Taken := by
  unfold dropDir
  split
  next =>
    refine marks_of_bits s (s.setGroup g _) ⟨rfl, rfl, rfl, rfl⟩
      (update_keeps Group.blockBits ?_) (update_keeps Group.inodeBits ?_)
    · rfl
    · rfl
  next => exact ⟨.refl s, fun _ => Iff.rfl, fun _ => Iff.rfl⟩

end Space
end LeahOS.Vfsd
