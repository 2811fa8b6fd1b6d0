import LeahOS.Vfsd.Marks
import LeahOS.Vfsd.Requests

/-!
# What removing and truncating give back

`VFS_UNLINK` of a last name and `VFS_TRUNC` go through the blocks of the file by their number in
the file, up to its size, and free what `map_block` finds. The index blocks of a tree that does not
stand in the inode alone are no blocks of the file, and an extent may reach beyond the size. So
everything is given back exactly if every marked block of the inode is one the loop comes by
(`Vol.Whole`).
-/

namespace LeahOS.Vfsd
open Lib
namespace Vol

/-- The block belongs to the inode. A short symbolic link has its target where the extents would
be, and owns nothing. -/
def Holds (v : Vol) (i : Inode) (p : Nat) : Prop := inlineLink i = false ∧ Owns v.data i.block p

/-- Exactly the blocks of the inode went back. -/
structure Reclaimed (v v' : Vol) (i : Inode) : Prop where
  clear : ∀ p, v.Holds i p → ¬ v'.space.Marked p
  others : ∀ p, ¬ v.Holds i p → (v'.space.Marked p ↔ v.space.Marked p)

/-- Every marked block of the inode is one of the file below its size. -/
def Whole (v : Vol) (i : Inode) : Prop :=
  ∀ p, v.space.Marked p → v.Holds i p → p ∈ v.mappedBlocks i

/-- `free_block` can tell the groups of the blocks of the file. -/
def Numbered (v : Vol) (i : Inode) : Prop := ∀ p ∈ v.mappedBlocks i, v.space.Numbered p

variable {i : Inode} {v v' : Vol}

theorem owns_of_mapped {p : Nat} (hMem : p ∈ v.mappedBlocks i) : Owns v.data i.block p := by
  obtain ⟨hNe, fb, -, rfl⟩ := mem_mappedBlocks.mp hMem
  exact ⟨fb, .inr ⟨hNe, rfl⟩⟩

/-- A tree looks the same whatever is written to a block that is none of its index blocks. -/
theorem mappedBlocks_writeData {p : Nat} (hApart : ∀ fb, p ∉ indexPath v.data i.block fb)
    (b : Block) : (v.writeData p b).mappedBlocks i = v.mappedBlocks i := by
  have hMap : (v.writeData p b).map i = v.map i := by
    funext fb
    refine (mapBlock_congr (fun fb c hc => ?_) fb).1
    refine Function.update_of_ne ?_ _ _
    rintro rfl
    exact hApart fb hc
  unfold mappedBlocks
  rw [hMap]
  rfl

theorem marked_freeMapped (hSized : v.space.Sized) (hNumbered : v.Numbered i) (p : Nat) :
    (v.freeMapped i).space.Marked p ↔ v.space.Marked p ∧ p ∉ v.mappedBlocks i := by
  rw [freeMapped_eq]
  exact (Space.marks_freeBlocks hSized hNumbered).marked p

/-- Giving back what the size covers is giving back everything, if that is all there is. -/
theorem reclaimed_iff_of_marked (hInline : inlineLink i = false)
    (hMarked : ∀ p, v'.space.Marked p ↔ v.space.Marked p ∧ p ∉ v.mappedBlocks i) :
    v.Reclaimed v' i ↔ v.Whole i := by
  constructor
  · intro hBack p hSet hHolds
    by_contra hNot
    exact hBack.clear p hHolds ((hMarked p).mpr ⟨hSet, hNot⟩)
  · intro hWhole
    refine ⟨fun p hHolds hSet => ?_, fun p hNot => ?_⟩
    · obtain ⟨hWas, hNot⟩ := (hMarked p).mp hSet
      exact hNot (hWhole p hWas hHolds)
    · rw [hMarked p, and_iff_left]
      exact fun hMem => hNot ⟨hInline, owns_of_mapped hMem⟩

/-- An inode that owns nothing, and no mark changed. -/
theorem reclaimed_iff_of_inline (hInline : inlineLink i = true)
    (hMarked : ∀ p, v'.space.Marked p ↔ v.space.Marked p) : v.Reclaimed v' i ↔ v.Whole i := by
  have hNone : ∀ p, ¬ v.Holds i p := fun p hHolds => by simpa [hInline] using hHolds.1
  exact ⟨fun _ p _ hHolds => absurd hHolds (hNone p),
    fun _ => ⟨fun p hHolds => absurd hHolds (hNone p), fun p _ => hMarked p⟩⟩

end Vol

namespace Space

theorem SameBlocks.marked_iff {s s' : Space} (h : SameBlocks s s') (p : Nat) :
    s'.Marked p ↔ s.Marked p :=
  ⟨SameBlocks.marked ⟨h.1.symm, h.2.symm, h.3.symm, fun g => (h.4 g).symm, fun g => (h.5 g).symm⟩,
    h.marked⟩

theorem sameBlocks_releaseInode (s : Space) (n : Nat) : SameBlocks s (s.releaseInode n false) := by
  unfold releaseInode
  split
  next =>
    refine s.sameBlocks_setGroup _ ?_ ?_ _
    · rfl
    · rfl
  next => exact ⟨rfl, rfl, rfl, fun _ => rfl, fun _ => rfl⟩

end Space

namespace Vol

/-- The marks after an inode was freed. -/
theorem marked_freeNode (v : Vol) (ino p : Nat) :
    (v.freeNode ino).space.Marked p ↔
      (if inlineLink (v.inode ino) then v else v.freeMapped (v.inode ino)).space.Marked p := by
  exact (Space.sameBlocks_releaseInode _ ino).marked_iff p

variable {ino : Nat} {v : Vol}

/-- Freeing an inode gives its blocks back, also after another block was written. -/
theorem reclaimed_freeNode (hSized : v.space.Sized) (hNumbered : v.Numbered (v.inode ino)) {v' : Vol}
    {q : Nat} (hApart : ∀ fb, q ∉ indexPath v.data (v.inode ino).block fb) (b : Block)
    (hMarked : ∀ p, v'.space.Marked p ↔ ((v.writeData q b).freeNode ino).space.Marked p) :
    v.Reclaimed v' (v.inode ino) ↔ v.Whole (v.inode ino) := by
  cases hInline : inlineLink (v.inode ino) with
  | true =>
    refine reclaimed_iff_of_inline hInline fun p => ?_
    rw [hMarked, marked_freeNode, inode_writeData, if_pos hInline, space_writeData]
  | false =>
    refine reclaimed_iff_of_marked hInline fun p => ?_
    rw [hMarked, marked_freeNode, inode_writeData, if_neg (by simp [hInline]), freeMapped_eq,
      mappedBlocks_writeData hApart, space_writeData, ← marked_freeMapped hSized hNumbered,
      freeMapped_eq]

theorem searchIn_eq_removeIn (bs : Nat) (b : Block) (name : Name) :
    searchIn bs b name = (removeIn bs b name).map Prod.snd := by
  have hLoop : ∀ (os : List Nat) (prev : Option Nat),
      (os.find? fun o => live b o && nameOf b o == name).map (recIno b) =
        (removeFrom b name prev os).map Prod.snd := by
    intro os
    induction os with
    | nil => intro prev; rfl
    | cons o os ih =>
      intro prev
      rw [removeFrom, List.find?_cons]
      cases hHere : live b o && nameOf b o == name with
      | false => exact ih (some o)
      | true => rfl
  exact hLoop _ none

/-- `dir_remove` removes what `dir_search` finds. -/
theorem dirRemove_search {w : Vol} {dir : Inode} {name : Name}
    (hRemove : v.dirRemove dir name = some (w, ino)) : v.dirSearch dir name = ino := by
  have hBoth : (v.firstBlock dir fun p => searchIn v.blockSize (v.data p) name) =
      (v.dirRemove dir name).map Prod.snd := by
    unfold dirRemove firstBlock
    rw [List.map_findSome?]
    congr 1
    funext fb
    simp only [Function.comp_apply]
    split
    next => rfl
    next =>
      rw [searchIn_eq_removeIn, Option.map_map]
      rfl
  rw [dirSearch, hBoth, hRemove]
  rfl

end Vol

/-! ## The requests -/

/-- The request takes the last name of an inode away, if it is carried out, or truncates it: the
path leads to it, and it is a directory or has no other name, and what is removed is a name of it;
or it is no symbolic link. -/
def LastOf (s : Vfs) (e : Call) (c ino : Nat) : Prop :=
  match e.request with
  | .unlink path => (∃ probe, s.lookupNofollow path = (c, some (ino, probe)) ∧
      (modeKind probe.mode = modeDir ∨ (s.vol c).inodeLinks ino ≤ 1)) ∧
    ∀ parent name c' dirIno dir, splitPath path = some (parent, name) →
      s.lookup parent = (c', some (dirIno, dir)) → (s.vol c).dirSearch dir name = ino
  | .trunc path => ∃ i, s.lookup path = (c, some (ino, i)) ∧ modeKind i.mode ≠ modeLink
  | _ => False

/-- The blocks went back, and a truncated file reads as empty. -/
def GivenBack (s : Vfs) (e : Call) (c ino : Nat) : Prop :=
  (s.vol c).Reclaimed ((s.handle e).1.vol c) ((s.vol c).inode ino) ∧
    ∀ path, e.request = .trunc path → ∀ offset want,
      ((s.handle e).1.vol c).readNode (((s.handle e).1.vol c).inode ino) offset want = []

/-- The layout is one of the format, the blocks of the inode have numbers of it, and none of its
index blocks is a block of the directory its name is removed from. -/
structure Tidy (s : Vfs) (e : Call) (c ino : Nat) : Prop where
  sized : (s.vol c).space.Sized
  numbered : (s.vol c).Numbered ((s.vol c).inode ino)
  apart : ∀ path parent name c' dirIno dir, e.request = .unlink path →
    splitPath path = some (parent, name) → s.lookup parent = (c', some (dirIno, dir)) →
    ∀ fb fb', (s.vol c).map dir fb ∉ indexPath (s.vol c).data ((s.vol c).inode ino).block fb'

variable {c ino k : Nat} {i probe : Inode} {v : Vol} {path : Name} {s : Vfs}

theorem Vol.unlinkNode_reclaims {dirIno : Nat} {dir : Inode} {name : Name}
    (hOk : (v.unlinkNode dirIno dir name ino probe).2 = 0)
    (hLast : modeKind probe.mode = modeDir ∨ v.inodeLinks ino ≤ 1) (hSized : v.space.Sized)
    (hNumbered : v.Numbered (v.inode ino)) (hSearch : v.dirSearch dir name = ino)
    (hApart : ∀ fb fb', v.map dir fb ∉ indexPath v.data (v.inode ino).block fb') :
    v.Reclaimed (v.unlinkNode dirIno dir name ino probe).1 (v.inode ino) ↔
      v.Whole (v.inode ino) := by
  obtain ⟨w, ino', hRemove, hCases⟩ := unlinkNode_ok hOk
  obtain rfl : ino = ino' := hSearch.symm.trans (dirRemove_search hRemove)
  obtain ⟨fb, -, hSome⟩ := firstBlock_some hRemove
  obtain ⟨⟨b, j⟩, -, hEq⟩ := Option.map_eq_some_iff.mp hSome
  obtain ⟨rfl, -⟩ := Prod.mk.inj hEq
  rcases hCases with ⟨hDir, hLinks⟩ | hResult | ⟨f, rfl, hResult⟩
  · rcases hLast with hEq | hLe
    · exact absurd hEq hDir
    · omega
  · exact reclaimed_freeNode hSized hNumbered (hApart fb) b fun p => by rw [hResult]
  · refine reclaimed_freeNode hSized hNumbered (hApart fb) b fun p => ?_
    rw [hResult]
    exact (Space.marks_dropDir _ _).marked p

variable {who : Creds} {now : Nat}

theorem unlink_reclaims (hLast : LastOf s ⟨who, now, .unlink path⟩ c ino)
    (hTidy : Tidy s ⟨who, now, .unlink path⟩ c ino) (hOk : (s.unlink path).2 = 0) :
    (s.vol c).Reclaimed ((s.unlink path).1.vol c) ((s.vol c).inode ino) ↔
      (s.vol c).Whole ((s.vol c).inode ino) := by
  obtain ⟨⟨probe, hLook, hLast⟩, hParent⟩ := hLast
  unfold Vfs.unlink at hOk ⊢
  rcases hSplit : splitPath path with _ | ⟨parent, name⟩
  · rw [hSplit] at hOk
    cases hOk
  · rcases hDir : s.lookup parent with ⟨c', _ | ⟨dirIno, dir⟩⟩
    · simp only [hSplit, hDir] at hOk
      cases hOk
    · simp only [hSplit, hDir, hLook] at hOk ⊢
      rw [Vfs.vol_setVol_self]
      exact Vol.unlinkNode_reclaims hOk hLast hTidy.sized hTidy.numbered
        (hParent parent name c' dirIno dir hSplit hDir)
        (hTidy.apart path parent name c' dirIno dir rfl hSplit hDir)

/-- A successful `VFS_TRUNC`. -/
theorem trunc_ok (hLook : s.lookup path = (c, some (ino, i)))
    (hOk : (s.trunc who now path).2 = 0) :
    (s.trunc who now path).1.vol c = (s.vol c).truncNode ino i now := by
  unfold Vfs.trunc at hOk ⊢
  simp only [hLook] at hOk ⊢
  split at hOk
  next hMay => rw [if_pos hMay, Vfs.vol_setVol_self]
  next => cases hOk

theorem Vol.truncNode_reclaims (hSized : v.space.Sized) (hInline : Vol.inlineLink i = false)
    (hNumbered : v.Numbered i) (ino now : Nat) :
    v.Reclaimed (v.truncNode ino i now) i ↔ v.Whole i :=
  reclaimed_iff_of_marked hInline fun p => marked_freeMapped hSized hNumbered p

theorem Vol.readNode_truncNode (v : Vol) (ino : Nat) (i : Inode) (now offset want : Nat) :
    (v.truncNode ino i now).readNode ((v.truncNode ino i now).inode ino) offset want = [] := by
  have hSize : ((v.truncNode ino i now).inode ino).size = 0 :=
    (Vol.inode_writeInode_self _ ino _ _).2.1.trans (Nat.zero_mod _)
  exact if_pos (hSize ▸ Nat.zero_le offset)

/-- The small filesystem with a file `/f`, whose inode, 11, has the given size and root. -/
def fileVol (taken size : Nat) (root : Block) : Vol :=
  { (smallVol taken).writeData 5 (addAt (freshDir 1024 rootInode rootInode) 12 [102] 11 1) with
    space := (smallSpace taken).takeInode 0 10 }.writeInode 11
    ⟨0o100644, 0, 0, size, 0, 0, 0, root⟩ 1

/-- The server with that one mounted. -/
def withFile (taken size : Nat) (root : Block) : Vfs :=
  (smallVfs taken).setVol 0 (fileVol taken size root)

theorem emptyRoot_zero (hk : 8 ≤ k) : emptyRoot k = 0 := by
  unfold emptyRoot wr16w
  rw [setLE_of_not_mem (by omega), setLE_of_not_mem (by omega), setLE_of_not_mem (by omega),
    setLE_of_not_mem (by omega)]
  rfl

/-- The root whose one extent is block `p`. -/
def oneBlock (p : Nat) : Block := pushExtent emptyRoot 0 p

theorem oneBlock_zero (p : Nat) (hk : 60 ≤ k) : oneBlock p k = 0 := by
  have hCount : extEntries emptyRoot = 0 := by decide
  rw [oneBlock, pushExtent_byte _ _ _ (by omega) (by rw [hCount, extAt]; omega)]
  exact emptyRoot_zero (by omega)

theorem mapped_oneBlock {p : Nat} (hp : p < 2 ^ 48) (fb : Nat) :
    mapped (oneBlock p) fb = if fb = 0 then some p else none := by
  have hCount : extEntries emptyRoot = 0 := by decide
  have hNone : mapped emptyRoot fb = none := by simp [mapped, mappedIn, hCount]
  rw [oneBlock, mapped_push (by omega) (by omega) hp, hNone]
  rfl

/-- The file of one block, block 6. -/
theorem inode_withFile : (((withFile 7 1024 (oneBlock 6)).vol 0).inode 11).block = oneBlock 6 := by
  obtain ⟨-, -, hRoot⟩ := Vol.inode_writeInode_self
    { (smallVol 7).writeData 5 (addAt (freshDir 1024 rootInode rootInode) 12 [102] 11 1) with
      space := (smallSpace 7).takeInode 0 10 } 11 ⟨0o100644, 0, 0, 1024, 0, 0, 0, oneBlock 6⟩ 1
  exact hRoot.trans (Vol.clip_of_zero fun k hk => oneBlock_zero 6 hk)

/-- What a path of one letter is split into and leads to. -/
theorem parent_unlink {parent name : Name} {c' dirIno : Nat} {dir : Inode}
    (hSlot : (s.lookup [slash]).1 = 0) (hIno : (s.lookup [slash]).2.map Prod.fst = some 2)
    (hSplit : splitPath [slash, 102] = some (parent, name))
    (hLook : s.lookup parent = (c', some (dirIno, dir))) :
    name = [102] ∧ dir = (s.vol 0).inode 2 := by
  obtain rfl := Vfs.lookupDeep_inode hLook
  have hHere : splitPath [slash, 102] = some ([slash], [102]) := by decide +kernel
  obtain ⟨rfl, rfl⟩ := Prod.mk.inj (Option.some.inj (hHere.symm.trans hSplit))
  rw [hLook] at hSlot hIno
  obtain rfl : c' = 0 := hSlot
  obtain rfl : dirIno = 2 := Option.some.inj hIno
  exact ⟨rfl, rfl⟩

theorem lastOf_unlink (hSlot : (s.lookupNofollow [slash, 102]).1 = 0)
    (hIno : (s.lookupNofollow [slash, 102]).2.map Prod.fst = some 11)
    (hLinks : (s.vol 0).inodeLinks 11 ≤ 1) (hRoot : (s.lookup [slash]).1 = 0)
    (hRootIno : (s.lookup [slash]).2.map Prod.fst = some 2)
    (hName : (s.vol 0).dirSearch ((s.vol 0).inode 2) [102] = 11) :
    LastOf s (byRoot (.unlink [slash, 102])) 0 11 := by
  obtain ⟨⟨ino, probe⟩, hFound, rfl⟩ := Option.map_eq_some_iff.mp hIno
  refine ⟨⟨probe, Prod.ext hSlot hFound, .inr hLinks⟩, ?_⟩
  intro parent name c' dirIno dir hSplit hLook
  obtain ⟨rfl, rfl⟩ := parent_unlink hRoot hRootIno hSplit hLook
  exact hName

/-- The root that has one index block, `p`. -/
def oneIndex (p : Nat) : Block := wr32w (wr16w (wr16w emptyRoot 2 1) 6 1) 16 p

/-- The small server with a file whose extents are in block 6; the file's block is 7. -/
def withIndex : Vfs :=
  let s := withFile 8 1024 (oneIndex 6)
  s.setVol 0 ((s.vol 0).writeData 6 (oneBlock 7))

end LeahOS.Vfsd
