import LeahOS.Vfsd.Files

/-!
# Data requests and what is no file

`VFS_WRITE` and `VFS_TRUNC` ask whether the caller may write, and nothing else: not what the path
leads to. The sixty bytes of a directory, a FIFO or a device are then worked on as those of a file.
Root may write everything, so root's write goes into the entries of a directory, and a FIFO gets
blocks.

`untouched_iff` says what is left of the separation: the caller may not write, or there is nothing
to truncate, or what is written is there already, up to the first block that is missing and that
the server cannot append (because the sixty bytes are no tree, the number of a device, say).
-/

namespace LeahOS.Vfsd
open Lib List

/-- The inode is a directory, a device or a FIFO. -/
def Special (i : Inode) : Prop :=
  modeKind i.mode = modeDir ∨ modeKind i.mode = modeChr ∨ modeKind i.mode = modeBlk ∨
    modeKind i.mode = modeFifo

instance (i : Inode) : Decidable (Special i) := inferInstanceAs (Decidable (_ ∨ _))

/-- The request is one for contents, and its path leads to the inode `ino` of filesystem `c`. -/
def DataOf (s : Vfs) (e : Call) (c ino : Nat) : Prop :=
  match e.request with
  | .write path _ _ | .trunc path => ∃ i, s.lookup path = (c, some (ino, i))
  | _ => False

/-- The block area and the size of an inode are as they were, and so are all blocks: those of files
and directories, the bitmaps, and the records of the other inodes. -/
structure Untouched (s s' : Vfs) (c ino : Nat) : Prop where
  area : ((s'.vol c).inode ino).block = ((s.vol c).inode ino).block
  size : ((s'.vol c).inode ino).size = ((s.vol c).inode ino).size
  data : ∀ c', (s'.vol c').data = (s.vol c').data
  space : ∀ c', (s'.vol c').space = (s.vol c').space
  raw : ∀ c' n, (c', n) ≠ (c, ino) → (s'.vol c').raw n = (s.vol c').raw n
  entries : ∀ c' n, (s'.vol c').dirEntries ((s'.vol c').inode n) =
    (s.vol c').dirEntries ((s.vol c').inode n)

/-- A write that brings nothing new: it finds its bytes, below the size, up to the first block that
is missing, and no block can be appended there. -/
structure Vol.Idle (v : Vol) (i : Inode) (offset : Nat) (bytes : List UInt8) : Prop where
  same : ∀ k, k < bytes.length → (∀ l, l ≤ k → v.map i ((offset + l) / v.blockSize) ≠ 0) →
    v.byteAt i.block (offset + k) = bytes.getD k 0 ∧ offset + k < i.size
  full : ∀ k, k < bytes.length → v.map i ((offset + k) / v.blockSize) = 0 →
    ¬ Appendable i.block ∨ v.space.allocBlock.2 = 0

/-- The handler has nothing to do to the inode. -/
def Harmless (s : Vfs) (e : Call) (c ino : Nat) : Prop :=
  mayWrite ((s.vol c).inode ino) e.who = false ∨
    match e.request with
    | .write _ offset bytes => (s.vol c).Idle ((s.vol c).inode ino) offset (bytes.take 8192)
    | .trunc _ => ((s.vol c).inode ino).size = 0 ∧ ((s.vol c).inode ino).block = emptyRoot
    | _ => True

/-- What is written to ends below 2⁶⁴, and the blocks of the inode are in order. -/
def InOrder (s : Vfs) (e : Call) (c ino : Nat) : Prop :=
  match e.request with
  | .write _ offset bytes => offset + (bytes.take 8192).length < 2 ^ 64 ∧
      ∃ others, (s.vol c).Hand others ((s.vol c).inode ino).block
  | _ => True

theorem untouched_moveTo (s : Vfs) (slot c ino : Nat) : Untouched s (s.moveTo slot) c ino :=
  ⟨rfl, rfl, fun _ => rfl, fun _ => rfl, fun _ _ _ => rfl, fun _ _ => rfl⟩

variable {c ino now offset : Nat} {i : Inode} {bytes : List UInt8} {path : Name} {s : Vfs}
  {who : Creds}

/-- The record of the inode is written again, with the same area and size. -/
theorem untouched_writeInode (s : Vfs) (links : Nat)
    (hBlock : i.block = ((s.vol c).inode ino).block) (hSize : i.size = ((s.vol c).inode ino).size) :
    Untouched s (s.setVol c ((s.vol c).writeInode ino i links)) c ino := by
  obtain ⟨-, hSize', hBlock'⟩ := (s.vol c).inode_writeInode_self ino i links
  rw [hSize, Nat.mod_eq_of_lt ((s.vol c).inode_size_lt ino)] at hSize'
  rw [hBlock, Vol.clip_of_zero fun k hk => (s.vol c).inode_block_zero ino hk] at hBlock'
  refine ⟨?_, ?_, ?_, ?_, fun c' n => ?_, fun c' n => ?_⟩
  · rw [s.vol_setVol_self, hBlock']
  · rw [s.vol_setVol_self, hSize']
  · exact Vfs.forall_setVol (P := fun c' w => w.data = (s.vol c').data) rfl fun _ _ => rfl
  · exact Vfs.forall_setVol (P := fun c' w => w.space = (s.vol c').space) rfl fun _ _ => rfl
  · refine Vfs.forall_setVol (P := fun c' w => (c', n) ≠ (c, ino) → w.raw n = (s.vol c').raw n)
      (fun hNe => Vol.raw_setRaw_of_ne (s.vol c) _ ?_) (fun _ _ _ => rfl) c'
    rintro rfl
    exact hNe rfl
  · refine Vfs.forall_setVol (P := fun c' w => w.dirEntries (w.inode n) =
      (s.vol c').dirEntries ((s.vol c').inode n)) ?_ (fun _ _ => rfl) c'
    by_cases hn : n = ino
    · subst hn
      exact Vol.dirEntries_congr rfl rfl hSize' hBlock'
    · rw [(s.vol c).inode_writeInode_of_ne i links hn]
      exact Vol.dirEntries_congr rfl rfl rfl rfl

/-- What the record of an inode is written over with is what it had. -/
theorem Untouched.of_writeInode {v : Vol} {links : Nat}
    (h : Untouched s (s.setVol c (v.writeInode ino i links)) c ino) :
    v.data = (s.vol c).data ∧ v.space = (s.vol c).space ∧
      Vol.clip i.block = ((s.vol c).inode ino).block ∧
      i.size % 2 ^ 64 = ((s.vol c).inode ino).size := by
  obtain ⟨-, hSize, hBlock⟩ := v.inode_writeInode_self ino i links
  have hData := h.data c
  have hSpace := h.space c
  have hArea := h.area
  have hSize' := h.size
  rw [s.vol_setVol_self] at hData hSpace hArea hSize'
  exact ⟨hData, hSpace, hBlock.symm.trans hArea, hSize.symm.trans hSize'⟩

namespace Vol
variable {done fb : Nat} {i : Inode} {v : Vol} {others : Nat → Prop}

/-- A round of the loop that finds its block, or finds that there is none. -/
theorem blockFor_idle (hFull : v.map i fb = 0 → ¬ Appendable i.block ∨ v.space.allocBlock.2 = 0)
    (hZero : v.space.ZeroTaken) : v.blockFor i fb = (v, i, v.map i fb) := by
  unfold blockFor
  split
  next hMap =>
    have hNone : v.extend { i with size := fb * v.blockSize % 2 ^ 64 } =
        (v, { i with size := fb * v.blockSize % 2 ^ 64 }, 0) := by
      exact extend_none ((hFull hMap).imp id (Space.allocBlock_zero hZero))
    simp only [hNone, hMap]
  next => rfl

/-- A round of the loop that takes a block. -/
theorem blockFor_takes (hZero : v.space.ZeroTaken) (hMap : v.map i fb = 0)
    (hRoot : Appendable i.block) (hSome : v.space.allocBlock.2 ≠ 0) :
    ∃ p, ¬ v.space.Marked p ∧ (v.blockFor i fb).1.space.Marked p := by
  obtain ⟨hClear, hMarked⟩ := Space.allocBlock_takes hZero hSome
  refine ⟨v.space.allocBlock.2, hClear, ?_⟩
  unfold blockFor
  rw [if_pos hMap]
  simp only [space_extend, if_pos hRoot]
  exact hMarked

/-- The loop gives no block back. -/
theorem blockFor_marked (hZero : v.space.ZeroTaken) (i : Inode) (fb : Nat) :
    (v.blockFor i fb).1.space.ZeroTaken ∧
      ∀ p, v.space.Marked p → (v.blockFor i fb).1.space.Marked p := by
  unfold blockFor
  split
  next =>
    simp only [space_extend]
    split
    next => exact Space.allocBlock_keeps hZero
    next => exact ⟨hZero, fun _ => id⟩
  next => exact ⟨hZero, fun _ => id⟩

theorem writeLoop_marked (offset : Nat) (bytes : List UInt8) (n : Nat) (v : Vol) (i : Inode)
    (done : Nat) (hZero : v.space.ZeroTaken) {p : Nat} (hp : v.space.Marked p) :
    (v.writeLoop i offset bytes n done).1.space.Marked p := by
  induction n generalizing v i done with
  | zero => exact hp
  | succ n ih =>
    rw [writeLoop]
    simp only
    split
    next => exact hp
    next =>
      obtain ⟨hZero', hMarked⟩ := v.blockFor_marked hZero i ((offset + done) % 2 ^ 64 / v.blockSize)
      split
      next => exact hMarked p hp
      next => exact ih _ _ _ hZero' (hMarked p hp)

/-- The part a round writes is in one block. -/
theorem round_place {pos k : Nat} (hPos : 0 < v.blockSize)
    (hk : k < v.blockSize - pos % v.blockSize) : (pos + k) / v.blockSize = pos / v.blockSize ∧
      (pos + k) % v.blockSize = pos % v.blockSize + k := by
  have hWithin := Nat.mod_lt pos hPos
  have hDiv : (pos + k) / v.blockSize = pos / v.blockSize := by
    rw [Nat.div_eq_iff hPos]
    have hSplit := Nat.div_add_mod' pos v.blockSize
    omega
  have hSplit := Nat.div_add_mod' pos v.blockSize
  have hSplit' := Nat.div_add_mod' (pos + k) v.blockSize
  rw [hDiv] at hSplit'
  exact ⟨hDiv, by omega⟩

/-- An idle write leaves the volume and the inode alone. -/
theorem writeLoop_idle {offset : Nat} {bytes : List UInt8} (hIdle : v.Idle i offset bytes)
    (hZero : v.space.ZeroTaken) (hPos : 0 < v.blockSize) (hEnd : offset + bytes.length < 2 ^ 64)
    (n : Nat) {done : Nat}
    (hThere : ∀ l, l < done → v.map i ((offset + l) / v.blockSize) ≠ 0) :
    (v.writeLoop i offset bytes n done).1 = v ∧ (v.writeLoop i offset bytes n done).2.1 = i := by
  induction n generalizing done with
  | zero => exact ⟨rfl, rfl⟩
  | succ n ih =>
    rw [writeLoop]
    simp only
    split
    next => exact ⟨rfl, rfl⟩
    next hMore =>
      rw [Nat.mod_eq_of_lt (show offset + done < 2 ^ 64 by omega),
        blockFor_idle (hIdle.full done (by omega)) hZero]
      simp only
      split
      next => exact ⟨rfl, rfl⟩
      next hMap =>
        obtain ⟨len, hLen⟩ : ∃ len, len = min (v.blockSize - (offset + done) % v.blockSize)
            (bytes.length - done) := ⟨_, rfl⟩
        have hWithin := Nat.mod_lt (offset + done) hPos
        rw [← hLen, Nat.mod_eq_of_lt (show offset + (done + len) < 2 ^ 64 by omega)]
        -- the round finds its block and copies into it the bytes that are there
        have hRound := fun k (hk : k < len) => round_place hPos
          (show k < v.blockSize - (offset + done) % v.blockSize by omega)
        have hThere' : ∀ l, l < done + len → v.map i ((offset + l) / v.blockSize) ≠ 0 := by
          intro l hl
          by_cases hOld : l < done
          · exact hThere l hOld
          · obtain ⟨k, rfl⟩ := Nat.exists_eq_add_of_le (Nat.not_lt.mp hOld)
            rw [← Nat.add_assoc, (hRound k (by omega)).1]
            exact hMap
        have hByte := fun k (hk : k < len) => hIdle.same (done + k) (by omega)
          fun l hl => hThere' l (by omega)
        have hCopy : copyIn (v.data (v.map i ((offset + done) / v.blockSize)))
            ((offset + done) % v.blockSize) ((bytes.drop done).take len) =
            v.data (v.map i ((offset + done) / v.blockSize)) := by
          funext k
          unfold copyIn
          split
          next hIn =>
            rw [length_take, length_drop] at hIn
            obtain ⟨k, rfl⟩ := Nat.exists_eq_add_of_le hIn.1
            have hk : k < len := by omega
            have hHere := (hByte k hk).1
            rw [byteAt, ← Nat.add_assoc, (hRound k hk).1, (hRound k hk).2] at hHere
            rw [Nat.add_sub_cancel_left]
            refine Eq.trans ?_ (hHere.symm.trans (if_neg hMap))
            simp [List.getD, List.getElem?_take_of_lt hk]
          next => rfl
        have hSize : max i.size (offset + (done + len)) = i.size := by
          have hLast := (hByte (len - 1) (by omega)).2
          omega
        rw [hCopy, hSize]
        have hSame : v.writeData (v.map i ((offset + done) / v.blockSize))
            (v.data (v.map i ((offset + done) / v.blockSize))) = v := by
          unfold writeData
          rw [Function.update_eq_self]
        rw [hSame]
        exact ih hThere'

/-- The loop of `VFS_WRITE` has written over what was there, `len` bytes from `done` on, up to the
first block that was missing. -/
structure Overwrote (v w : Vol) (i j : Inode) (offset : Nat) (bytes : List UInt8) (done len : Nat) :
    Prop where
  fits : done + len ≤ bytes.length
  blockSize : w.blockSize = v.blockSize
  shows : w.byteAt i.block =
    copyIn (v.byteAt i.block) (offset + done) ((bytes.drop done).take len)
  size : j.size = max i.size (if len = 0 then 0 else offset + (done + len))
  there : ∀ k, k < len → v.map i ((offset + done + k) / v.blockSize) ≠ 0
  missing : done + len < bytes.length → v.map i ((offset + (done + len)) / v.blockSize) = 0 ∧
    (¬ Appendable i.block ∨ v.space.allocBlock.2 = 0)

theorem overwrote_nothing {offset : Nat} {bytes : List UInt8} {done : Nat}
    (hDone : done ≤ bytes.length) (hMissing : done < bytes.length →
      v.map i ((offset + done) / v.blockSize) = 0 ∧
        (¬ Appendable i.block ∨ v.space.allocBlock.2 = 0)) :
    Overwrote v v i i offset bytes done 0 where
  fits := hDone
  blockSize := rfl
  shows := (copyIn_nil _ _).symm
  size := by simp
  there _ hk := absurd hk (Nat.not_lt_zero _)
  missing := hMissing

section
variable {w : Vol} {j : Inode} {offset len : Nat} {bytes : List UInt8}

theorem Overwrote.size_lt (h : Overwrote v w i j offset bytes done len)
    (hEnd : offset + bytes.length < 2 ^ 64) (hSize : i.size < 2 ^ 64) : j.size < 2 ^ 64 := by
  have hFits := h.fits
  rw [h.size]
  split <;> omega

/-- If that left no trace, then the write was idle. -/
theorem Overwrote.idle (h : Overwrote v w i j offset bytes 0 len) (hData : w.data = v.data)
    (hSize : j.size = i.size) : v.Idle i offset bytes := by
  obtain ⟨hLe, hBlocks, hShows, hGrown, hThere, hMissing⟩ := h
  simp only [Nat.zero_add, Nat.add_zero, drop_zero] at hLe hShows hGrown hThere hMissing
  refine ⟨fun k hk hAll => ?_, fun k hk hHole => (hMissing ?_).2⟩
  · have hk' : k < len := by
      by_contra hNot
      exact hAll len (by omega) (hMissing (by omega)).1
    constructor
    · have hByte := congrFun hShows (offset + k)
      rw [copyIn, length_take, if_pos (by omega), Nat.add_sub_cancel_left] at hByte
      refine Eq.trans ?_ (hByte.trans (by simp [List.getD, List.getElem?_take_of_lt hk']))
      unfold byteAt
      rw [hData, hBlocks]
    · rw [if_neg (by omega)] at hGrown
      omega
  · by_contra hNot
    exact hThere k (by omega) hHole

end

/-- The loop takes a block, or it only writes over what is there. -/
theorem Hand.writeLoop_cases {offset : Nat} {bytes : List UInt8}
    (hEnd : offset + bytes.length < 2 ^ 64) (n : Nat) {v : Vol} {i : Inode} {done : Nat}
    (hDone : done ≤ bytes.length) (hFuel : bytes.length < done + n) (h : v.Hand others i.block) :
    (∃ p, ¬ v.space.Marked p ∧ (v.writeLoop i offset bytes n done).1.space.Marked p) ∨
      ∃ len, Overwrote v (v.writeLoop i offset bytes n done).1 i
        (v.writeLoop i offset bytes n done).2.1 offset bytes done len := by
  induction n generalizing v i done with
  | zero => omega
  | succ n ih =>
    rw [Vol.writeLoop]
    simp only
    split
    next hAll => exact .inr ⟨0, overwrote_nothing hDone fun hMore => absurd hAll (by omega)⟩
    next hMore =>
      rw [Nat.mod_eq_of_lt (show offset + done < 2 ^ 64 by omega)]
      by_cases hTakes : v.map i ((offset + done) / v.blockSize) = 0 ∧ Appendable i.block ∧
          v.space.allocBlock.2 ≠ 0
      · obtain ⟨hMap, hRoot, hSome⟩ := hTakes
        obtain ⟨p, hClear, hSet⟩ := blockFor_takes h.space.zero hMap hRoot hSome
        obtain ⟨hZero, -⟩ := v.blockFor_marked h.space.zero i ((offset + done) / v.blockSize)
        refine .inl ⟨p, hClear, ?_⟩
        -- a block that was taken stays marked, whatever the other rounds do
        split
        next => exact hSet
        next =>
          refine writeLoop_marked _ _ _ _ _ _ ?_ ?_
          · exact hZero
          · exact hSet
      · have hFull : v.map i ((offset + done) / v.blockSize) = 0 →
            ¬ Appendable i.block ∨ v.space.allocBlock.2 = 0 := by
          intro hMap
          by_contra hNot
          push Not at hNot
          exact hTakes ⟨hMap, hNot⟩
        rw [blockFor_idle hFull h.space.zero]
        simp only
        split
        next hMap =>
          exact .inr ⟨0, overwrote_nothing hDone fun _ => ⟨hMap, hFull hMap⟩⟩
        next hMap =>
          obtain ⟨len, hLen⟩ : ∃ len, len = min (v.blockSize - (offset + done) % v.blockSize)
              (bytes.length - done) := ⟨_, rfl⟩
          have hWithin := Nat.mod_lt (offset + done) h.blockSize.1
          rw [← hLen, Nat.mod_eq_of_lt (show offset + (done + len) < 2 ^ 64 by omega)]
          have hPart : ((bytes.drop done).take len).length = len := by
            rw [length_take, length_drop]
            omega
          obtain ⟨hHand, -, hSame⟩ := h.writeData (copyIn (v.data (mapBlock v.data i.block
              ((offset + done) / v.blockSize))) ((offset + done) % v.blockSize)
              ((bytes.drop done).take len)) (h.own _ ⟨_, .inr ⟨hMap, rfl⟩⟩).2
              fun fb' => h.tree.leaf _ fb' hMap
          have hBytes := h.byteAt_writeData hMap ((offset + done) % v.blockSize)
            ((bytes.drop done).take len) (by omega)
          rw [Nat.div_add_mod'] at hBytes
          -- the rest of the loop runs on the same tree, with the part of this round written
          rcases ih (i := { i with size := max i.size (offset + (done + len)) })
              (show done + len ≤ bytes.length by omega) (by omega) hHand with
            hTook | ⟨more, hRest⟩
          · exact .inl hTook
          · refine .inr ⟨len + more, ?fits, hRest.blockSize, ?shows, ?size, ?there, ?missing⟩
            case fits => exact (Nat.add_assoc ..).symm.trans_le hRest.fits
            case shows =>
              refine hRest.shows.trans ?_
              dsimp only [map]
              rw [hBytes, ← Nat.add_assoc]
              nth_rewrite 2 [← hPart]
              rw [copyIn_append, take_add, drop_drop]
            case size =>
              refine hRest.size.trans ?_
              dsimp only
              split <;> split <;> omega
            case there =>
              intro k hk
              by_cases hHere : k < len
              · rw [(round_place h.blockSize.1 (by omega)).1]
                exact hMap
              · have hNext := hRest.there (k - len) (by omega)
                rw [map, hSame] at hNext
                rwa [show offset + (done + len) + (k - len) = offset + done + k by omega] at hNext
            case missing =>
              intro hLess
              obtain ⟨hHole, hNo⟩ := hRest.missing (by omega)
              refine ⟨?_, hNo⟩
              rw [← Nat.add_assoc done, map, ← hSame]
              exact hHole

/-- An empty file has nothing to free. -/
theorem freeMapped_empty (v : Vol) (hSize : i.size = 0) : v.freeMapped i = v := by
  have hBlocks : v.blocks i = 0 := by
    unfold blocks
    rcases Nat.eq_zero_or_pos v.blockSize with hZero | hPos
    · rw [hZero, Nat.div_zero]
    · refine Nat.div_eq_of_lt ?_
      omega
  unfold freeMapped
  rw [hBlocks]
  rfl

end Vol

theorem write_untouched {others : Nat → Prop} (hLook : s.lookup path = (c, some (ino, i)))
    (hEnd : offset + (bytes.take 8192).length < 2 ^ 64) (hHand : (s.vol c).Hand others i.block) :
    Untouched s (s.write who now path offset bytes).1 c ino ↔
      mayWrite i who = false ∨ (s.vol c).Idle i offset (bytes.take 8192) := by
  unfold Vfs.write
  rw [hLook]
  simp only
  split
  swap
  next hMay => exact iff_of_true (untouched_moveTo s c c ino) (.inl (by simpa using hMay))
  next hMay =>
    rw [hMay, or_iff_right Bool.noConfusion]
    obtain rfl := Vfs.lookupDeep_inode hLook
    unfold Vol.writeNode
    simp only
    constructor
    · intro hUntouched
      obtain ⟨hData, hSpace, -, hSize⟩ := hUntouched.of_writeInode
      rcases hHand.writeLoop_cases hEnd ((bytes.take 8192).length + 1) (Nat.zero_le _) (by omega)
        with ⟨p, hClear, hSet⟩ | ⟨len, hOver⟩
      · rw [hSpace] at hSet
        exact absurd hSet hClear
      · have hLess := hOver.size_lt hEnd ((s.vol c).inode_size_lt ino)
        exact hOver.idle hData ((Nat.mod_eq_of_lt hLess).symm.trans hSize)
    · intro hIdle
      obtain ⟨hVol, hNode⟩ := Vol.writeLoop_idle hIdle hHand.space.zero hHand.blockSize.1 hEnd
        ((bytes.take 8192).length + 1) fun l (hl : l < 0) => absurd hl (Nat.not_lt_zero l)
      rw [hVol, hNode]
      exact untouched_writeInode s _ rfl rfl

theorem trunc_untouched (hLook : s.lookup path = (c, some (ino, i))) :
    Untouched s (s.trunc who now path).1 c ino ↔
      mayWrite i who = false ∨ i.size = 0 ∧ i.block = emptyRoot := by
  unfold Vfs.trunc
  rw [hLook]
  simp only
  split
  swap
  next hMay => exact iff_of_true (untouched_moveTo s c c ino) (.inl (by simpa using hMay))
  next hMay =>
    rw [hMay, or_iff_right Bool.noConfusion]
    obtain rfl := Vfs.lookupDeep_inode hLook
    unfold Vol.truncNode
    simp only
    constructor
    · intro hUntouched
      obtain ⟨-, -, hArea, hSize⟩ := hUntouched.of_writeInode
      refine ⟨hSize.symm, hArea.symm.trans (Vol.clip_of_zero fun k hk => ?_)⟩
      exact emptyRoot_zero (by omega)
    · rintro ⟨hSize, hRoot⟩
      rw [(s.vol c).freeMapped_empty hSize]
      exact untouched_writeInode s _ hRoot.symm hSize.symm

/-- Path and inode of a data request, from what the lookup computes. -/
theorem dataOf_write (hSlot : (s.lookup path).1 = c)
    (hIno : (s.lookup path).2.map Prod.fst = some ino) :
    DataOf s ⟨who, now, .write path offset bytes⟩ c ino := by
  obtain ⟨⟨n, i⟩, hFound, rfl⟩ := Option.map_eq_some_iff.mp hIno
  exact ⟨i, Prod.ext hSlot hFound⟩

end LeahOS.Vfsd
