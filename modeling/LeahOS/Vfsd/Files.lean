import LeahOS.Vfsd.Sound

/-!
# Files hold what was written

`Recorded` is the server together with the writes it has reported: for each inode of each filesystem
the offsets and the bytes, oldest first. `FilesHold` says what a file should show then: at each position
the byte of the last write that covers it, zero where there is none, and as its size the largest end
of a write; and a file that was not written to shows what it showed.

`holds_of_short` says that this is so after every sequence of writes that end within the first 32768
blocks of their files. A file may have more, but `extend` keeps 32 bits of the number of a block:
what is written to block 2 ^ 32 goes to block 0, and is read back as zeros (`not_holds_farEvent`).
-/

namespace LeahOS.Vfsd
open Lib Function List

/-! ## Reading -/

/-- `may_access`, for reading. -/
def mayRead (i : Inode) (c : Creds) : Bool :=
  if c.uid = 0 then true
  else if i.uid = c.uid then i.mode.testBit 8
  else if i.gid = c.gid then i.mode.testBit 5
  else i.mode.testBit 2

/-- `VFS_READ`: the bytes, or why there are none. -/
def Vfs.read (s : Vfs) (who : Creds) (path : Name) (offset want : Nat) : Except Int (List UInt8) :=
  match s.lookup path with
  | (_, none) => .error eNoent
  | (c, some (_, i)) =>
    if modeKind i.mode = modeDir then .error eIsdir
    else if mayRead i who then .ok ((s.vol c).readNode i offset want)
    else .error eAcces

/-! ## What was written -/

/-- A write: where, and which bytes. -/
abbrev Written := Nat × List UInt8

/-- The write covers the position. -/
def Written.over (w : Written) (k : Nat) : Bool := decide (w.1 ≤ k) && decide (k < w.1 + w.2.length)

/-- The byte of the last write that covers the position, zero if there is none. -/
def lastByte (ws : List Written) (k : Nat) : UInt8 :=
  match ws.reverse.find? (Written.over · k) with
  | none => 0
  | some w => w.2.getD (k - w.1) 0

/-- The largest end of a write. -/
def lastEnd (ws : List Written) : Nat := (ws.map fun w => w.1 + w.2.length).foldl max 0

/-- What is read of a file after these writes, from `offset` on. -/
def readBack (ws : List Written) (offset want : Nat) : List UInt8 :=
  if lastEnd ws ≤ offset then []
  else (List.range (min (min want (lastEnd ws - offset)) 8192)).map fun k => lastByte ws (offset + k)

/-- The server, and the writes to each inode that it has reported. -/
structure Recorded where
  vfs : Vfs
  log : Nat → Nat → List Written

namespace Recorded

/-- One more write to an inode. -/
def note (log : Nat → Nat → List Written) (c ino : Nat) (w : Written) : Nat → Nat → List Written :=
  fun c' n => if c' = c ∧ n = ino then log c' n ++ [w] else log c' n

/-- One round of the server. A write is noted as far as it was reported. -/
def next (s : Recorded) (e : Call) : Recorded where
  vfs := (s.vfs.handle e).1
  log :=
    match e.request with
    | .write path offset bytes =>
      match s.vfs.lookup path with
      | (c, some (ino, _)) =>
        if 0 < (s.vfs.handle e).2 then
          note s.log c ino (offset, bytes.take (s.vfs.handle e).2.toNat)
        else s.log
      | (_, none) => s.log
    | _ => s.log

/-- The steps of the server. -/
def Step (s : Recorded) (e : Call) (s' : Recorded) : Prop := s' = s.next e

end Recorded

/-- A regular file that is in use. -/
def Vol.RegularFile (v : Vol) (n : Nat) : Prop :=
  v.space.Taken n ∧ modeKind (v.inode n).mode = modeFile

/-- A regular file as `create_node` leaves it. -/
structure Vol.NewFile (v : Vol) (n : Nat) : Prop where
  regular : v.RegularFile n
  size : (v.inode n).size = 0
  root : (v.inode n).block = emptyRoot

/-- The request is a write to a regular file, or one that only reads. -/
def ToFile (s : Recorded) (e : Call) : Prop :=
  match e.request with
  | .write path _ _ => ∀ c ino i, s.vfs.lookup path = (c, some (ino, i)) →
      (s.vfs.vol c).RegularFile ino
  | .look .. => True
  | _ => False

/-- A write ends within the first 32768 blocks of the file. -/
def Short (s : Recorded) (e : Call) : Prop :=
  match e.request with
  | .write path offset bytes => ∀ c ino i, s.vfs.lookup path = (c, some (ino, i)) →
      offset + (bytes.take 8192).length ≤ 2 ^ 15 * (s.vfs.vol c).blockSize
  | _ => True

/-- The filesystems are in order, those that are mounted have one block size, so that the cache does
not show (`Layer.readBlock_toServer`), and nothing was written yet. -/
structure Blank (s : Recorded) : Prop where
  sound : ∀ c, (s.vfs.vol c).Sound
  sizes : ∀ c d, (s.vfs.point c).isSome → (s.vfs.point d).isSome →
    (s.vfs.vol c).blockSize = (s.vfs.vol d).blockSize
  unwritten : s.log = fun _ _ => []

/-- Files hold what was written since the first state. -/
structure FilesHold (s₀ s : Recorded) : Prop where
  read : ∀ c n, (s₀.vfs.vol c).NewFile n → ∀ who path offset want i,
    s.vfs.lookup path = (c, some (n, i)) → mayRead i who = true →
      s.vfs.read who path offset want = .ok (readBack (s.log c n) offset want)
  size : ∀ c n, (s₀.vfs.vol c).NewFile n → ((s.vfs.vol c).inode n).size = lastEnd (s.log c n)
  others : ∀ c n, (s₀.vfs.vol c).RegularFile n → s.log c n = [] →
    ((s.vfs.vol c).inode n).size = ((s₀.vfs.vol c).inode n).size ∧
      ∀ offset want, (s.vfs.vol c).readNode ((s.vfs.vol c).inode n) offset want =
        (s₀.vfs.vol c).readNode ((s₀.vfs.vol c).inode n) offset want

/-! ## Writes one after the other -/

/-- The bytes after the writes, over those before. -/
def overlay (f : Block) (ws : List Written) : Block := ws.foldl (fun f w => copyIn f w.1 w.2) f

/-- The size after the writes. -/
def extent (size : Nat) (ws : List Written) : Nat :=
  (ws.map fun w => w.1 + w.2.length).foldl max size

@[simp]
theorem overlay_nil (f : Block) : overlay f [] = f := rfl

@[simp]
theorem extent_nil (size : Nat) : extent size [] = size := rfl

theorem overlay_snoc (f : Block) (ws : List Written) (w : Written) :
    overlay f (ws ++ [w]) = copyIn (overlay f ws) w.1 w.2 := by
  simp [overlay]

theorem extent_snoc (size : Nat) (ws : List Written) (w : Written) :
    extent size (ws ++ [w]) = max (extent size ws) (w.1 + w.2.length) := by
  simp [extent]

theorem lastByte_eq (ws : List Written) : lastByte ws = overlay (fun _ => 0) ws := by
  induction ws using List.reverseRecOn with
  | nil => rfl
  | append_singleton ws w ih =>
    rw [overlay_snoc, ← ih]
    funext k
    unfold lastByte copyIn
    rw [reverse_append, reverse_singleton, singleton_append, List.find?_cons]
    by_cases hOver : w.1 ≤ k ∧ k < w.1 + w.2.length
    · have hTrue : w.over k = true := by simpa [Written.over] using hOver
      rw [hTrue, if_pos hOver]
    · have hFalse : w.over k = false := by
        simpa [Written.over] using hOver
      rw [hFalse, if_neg hOver]

/-- What holds of every file along a run from `s₀`. -/
structure Kept (s₀ s : Recorded) : Prop where
  sound : ∀ c, (s.vfs.vol c).Sound
  regular : ∀ c n, (s₀.vfs.vol c).RegularFile n → (s.vfs.vol c).RegularFile n
  size : ∀ c n, (s₀.vfs.vol c).RegularFile n →
    ((s.vfs.vol c).inode n).size = extent ((s₀.vfs.vol c).inode n).size (s.log c n)
  bytes : ∀ c n, (s₀.vfs.vol c).RegularFile n → (s.vfs.vol c).byteAt ((s.vfs.vol c).inode n).block =
      overlay ((s₀.vfs.vol c).byteAt ((s₀.vfs.vol c).inode n).block) (s.log c n)

variable {s s' s₀ : Recorded} {c ino offset : Nat}

theorem kept_blank (h : Blank s) : Kept s s := by
  refine ⟨h.sound, fun _ _ => id, fun c n _ => ?_, fun c n _ => ?_⟩
  · rw [h.unwritten, extent_nil]
  · rw [h.unwritten, overlay_nil]

/-- Nothing happened to the filesystems and nothing was reported. -/
theorem Kept.idle (h : Kept s₀ s) (hVol : s'.vfs.vol = s.vfs.vol) (hLog : s'.log = s.log) :
    Kept s₀ s' := by
  refine ⟨?_, ?_, ?_, ?_⟩
  · rw [hVol]
    exact h.sound
  · rw [hVol]
    exact h.regular
  · rw [hVol, hLog]
    exact h.size
  · rw [hVol, hLog]
    exact h.bytes

/-- A write to one file. -/
theorem Kept.write (h : Kept s₀ s) {w : Vol} {part : List UInt8}
    (hFile : (s.vfs.vol c).RegularFile ino)
    (hWritten : Vol.NodeWritten (s.vfs.vol c) w ino offset part)
    (hVol : s'.vfs.vol = update s.vfs.vol c w)
    (hLog : s'.log = if part = [] then s.log else Recorded.note s.log c ino (offset, part)) :
    Kept s₀ s' := by
  have hUpdate := hWritten.update
  have hLogElse : ∀ c' n, ¬ (c' = c ∧ n = ino) → s'.log c' n = s.log c' n := by
    intro c' n hNot
    rw [hLog]
    split
    next => rfl
    next => exact if_neg hNot
  have hLogHere : s'.log c ino = if part = [] then s.log c ino else s.log c ino ++ [(offset, part)] := by
    rw [hLog]
    split
    next => rfl
    next => exact if_pos ⟨rfl, rfl⟩
  have hHere : s'.vfs.vol c = w := by rw [hVol, update_self]
  have hElse : ∀ c', c' ≠ c → s'.vfs.vol c' = s.vfs.vol c' := fun c' hNe => by
    rw [hVol, update_of_ne hNe]
  -- what happens to any regular file: to the one written, to others there, and elsewhere
  have hEach : ∀ c' n, (s.vfs.vol c').RegularFile n → (s'.vfs.vol c').RegularFile n ∧
      ((s'.vfs.vol c').inode n).size = (if c' = c ∧ n = ino ∧ part ≠ [] then
        max ((s.vfs.vol c').inode n).size (offset + part.length) else ((s.vfs.vol c').inode n).size) ∧
      (s'.vfs.vol c').byteAt ((s'.vfs.vol c').inode n).block = (if c' = c ∧ n = ino then
        copyIn ((s.vfs.vol c').byteAt ((s.vfs.vol c').inode n).block) offset part
        else (s.vfs.vol c').byteAt ((s.vfs.vol c').inode n).block) := by
    intro c' n hRegular
    by_cases hc : c' = c
    · subst hc
      rw [hHere]
      by_cases hn : n = ino
      · subst hn
        refine ⟨⟨hWritten.taken.mpr hRegular.1, by rw [hWritten.mode]; exact hRegular.2⟩, ?_, ?_⟩
        · rw [hWritten.size]
          by_cases hPart : part = []
          · simp [hPart]
          · simp [hPart]
        · rw [hWritten.bytes, if_pos ⟨rfl, rfl⟩]
      · refine ⟨⟨(hUpdate.taken n hn).mpr hRegular.1, by rw [hUpdate.inode n hn]; exact hRegular.2⟩,
          ?_, ?_⟩
        · rw [hUpdate.inode n hn, if_neg fun hAnd => hn hAnd.2.1]
        · rw [hUpdate.byteAt hn hRegular.1 (hasTree_file hRegular.2), if_neg fun hAnd => hn hAnd.2]
    · rw [hElse c' hc, if_neg fun hAnd => hc hAnd.1, if_neg fun hAnd => hc hAnd.1]
      exact ⟨hRegular, rfl, rfl⟩
  refine ⟨fun c' => ?_, fun c' n hn => (hEach c' n (h.regular c' n hn)).1, fun c' n hn => ?_,
    fun c' n hn => ?_⟩
  · by_cases hc : c' = c
    · rw [hc, hHere]
      exact (h.sound c).update hUpdate
    · rw [hElse c' hc]
      exact h.sound c'
  · rw [(hEach c' n (h.regular c' n hn)).2.1, h.size c' n hn]
    by_cases hAt : c' = c ∧ n = ino
    · obtain ⟨rfl, rfl⟩ := hAt
      rw [hLogHere]
      by_cases hPart : part = []
      · simp [hPart]
      · rw [if_pos ⟨rfl, rfl, hPart⟩, if_neg hPart, extent_snoc]
    · rw [hLogElse c' n hAt, if_neg fun hAnd => hAt ⟨hAnd.1, hAnd.2.1⟩]
  · rw [(hEach c' n (h.regular c' n hn)).2.2, h.bytes c' n hn]
    by_cases hAt : c' = c ∧ n = ino
    · obtain ⟨rfl, rfl⟩ := hAt
      rw [hLogHere, if_pos ⟨rfl, rfl⟩]
      by_cases hPart : part = []
      · rw [if_pos hPart, hPart, Vol.copyIn_nil]
      · rw [if_neg hPart, overlay_snoc]
    · rw [hLogElse c' n hAt, if_neg hAt]

theorem kept_write (h : Kept s₀ s) {who : Creds} {now : Nat} {path : Name} {bytes : List UInt8}
    (hFile : ToFile s ⟨who, now, .write path offset bytes⟩)
    (hShort : Short s ⟨who, now, .write path offset bytes⟩) :
    Kept s₀ (s.next ⟨who, now, .write path offset bytes⟩) := by
  rcases hLook : s.vfs.lookup path with ⟨c, _ | ⟨ino, i⟩⟩
  · refine h.idle ?_ ?_
    · simp only [Recorded.next, Vfs.handle, Vfs.write, hLook]
      rfl
    · simp only [Recorded.next, hLook]
  · cases hMay : mayWrite i who with
    | false =>
      have hHandle : s.vfs.handle ⟨who, now, .write path offset bytes⟩ =
          (s.vfs.moveTo c, if modeKind i.mode = modeDir then eIsdir else eAcces) := by
        simp [Vfs.handle, Vfs.write, hLook, hMay]
      have hNeg : ¬ 0 < (if modeKind i.mode = modeDir then eIsdir else eAcces) := by
        split <;> decide
      refine h.idle ?_ ?_
      · simp only [Recorded.next, hHandle]
        rfl
      · simp only [Recorded.next, hLook, hHandle, if_neg hNeg]
    | true =>
      have hRegular := hFile c ino i hLook
      have hEnd := hShort c ino i hLook
      obtain rfl := Vfs.lookupDeep_inode hLook
      obtain ⟨len, hLen, hLe, hWritten⟩ := (h.sound c).writeNode hRegular.1
        (hasTree_file hRegular.2) hEnd now
      have hHandle : s.vfs.handle ⟨who, now, .write path offset bytes⟩ =
          (s.vfs.setVol c ((s.vfs.vol c).writeNode ino ((s.vfs.vol c).inode ino) offset bytes
            now).1, (len : Int)) := by
        simp [Vfs.handle, Vfs.write, hLook, hMay, hLen]
      have hPart : (bytes.take 8192).take len = bytes.take len := by
        rw [take_take, Nat.min_eq_left]
        rw [length_take] at hLe
        omega
      rw [hPart] at hWritten
      refine h.write hRegular hWritten ?_ ?_
      · simp only [Recorded.next, hHandle]
        rfl
      · simp only [Recorded.next, hLook, hHandle, Int.toNat_natCast]
        rw [length_take] at hLe
        by_cases hZero : len = 0
        · have hNil : bytes.take len = [] := by rw [hZero, take_zero]
          rw [if_pos hNil, if_neg (by omega)]
        · have hSome : bytes.take len ≠ [] := ne_nil_of_length_pos (by
            rw [length_take]
            omega)
          rw [if_neg hSome, if_pos (by omega)]

/-- Files hold what was written, as the log has it. -/
theorem Kept.holds (h : Kept s₀ s) : FilesHold s₀ s := by
  have hNew : ∀ c n, (s₀.vfs.vol c).NewFile n →
      (s.vfs.vol c).byteAt ((s.vfs.vol c).inode n).block = lastByte (s.log c n) ∧
        ((s.vfs.vol c).inode n).size = lastEnd (s.log c n) := by
    intro c n hNew
    have hBytes := h.bytes c n hNew.regular
    have hSize := h.size c n hNew.regular
    have hZero : (s₀.vfs.vol c).byteAt ((s₀.vfs.vol c).inode n).block = fun _ => 0 := by
      funext k
      have hHole : mapBlock (s₀.vfs.vol c).data emptyRoot (k / (s₀.vfs.vol c).blockSize) = 0 := by
        have hRoot : Appendable emptyRoot := by decide
        have hCount : extEntries emptyRoot = 0 := by decide
        rw [mapBlock_of_appendable hRoot, mapped, hCount]
        rfl
      rw [hNew.root, Vol.byteAt, if_pos hHole]
    rw [hZero, ← lastByte_eq] at hBytes
    rw [hNew.size] at hSize
    exact ⟨hBytes, hSize⟩
  refine ⟨fun c n hFile who path offset want i hLook hMay => ?_, fun c n hFile => (hNew c n hFile).2,
    fun c n hFile hLog => ?_⟩
  · obtain ⟨hBytes, hSize⟩ := hNew c n hFile
    have hMode := (h.regular c n hFile.regular).2
    obtain rfl := Vfs.lookupDeep_inode hLook
    have hDir : modeKind ((s.vfs.vol c).inode n).mode ≠ modeDir := by
      rw [hMode]
      decide
    unfold Vfs.read
    simp only [hLook, if_neg hDir, hMay, if_true]
    rw [Vol.readNode_eq, hBytes, hSize]
    rfl
  · have hSize := h.size c n hFile
    have hBytes := h.bytes c n hFile
    rw [hLog, extent_nil] at hSize
    rw [hLog, overlay_nil] at hBytes
    refine ⟨hSize, fun offset want => ?_⟩
    rw [Vol.readNode_eq, Vol.readNode_eq, hSize, hBytes]

/-- The small filesystem with the empty file `/f`, inode 11. -/
def emptyFile : Recorded := ⟨withFile 6 0 emptyRoot, fun _ _ => []⟩

theorem usable_smallSpace (taken : Nat) : (smallSpace taken).Usable := by
  refine ⟨.inl Nat.one_pos, ?_⟩
  rintro p ⟨g, bit, hg, hBit, rfl⟩
  change g < 1 at hg
  change bit < 16 at hBit
  change 1 + g * 16 + bit < 2 ^ 48
  omega

theorem inode_smallVol (taken : Nat) {n : Nat} (hn : n ≠ rootInode) :
    ((smallVol taken).inode n).block = zeroBlock := by
  have hRaw : (smallVol taken).raw n = zeroBlock := if_neg hn
  unfold Vol.inode inodeOf
  rw [hRaw]
  funext k
  exact ite_self _

theorem inode_smallVol_root (taken : Nat) :
    ((smallVol taken).inode rootInode).block = oneBlock 5 := by
  have hRaw : (smallVol taken).raw rootInode =
      recordOf 1024 zeroBlock ⟨0o040755, 0, 0, 1024, 0, 0, 0, pushExtent emptyRoot 0 5⟩ 2 := by
    simp [smallVol]
  have hRead := (readBack_recordOf 1024 zeroBlock
    ⟨0o040755, 0, 0, 1024, 0, 0, 0, pushExtent emptyRoot 0 5⟩ 2).root
  unfold Vol.inode inodeOf
  rw [hRaw]
  funext k
  by_cases hk : k < 60
  · exact (if_pos hk).trans (hRead k hk)
  · exact (if_neg hk).trans (oneBlock_zero 5 (Nat.not_lt.mp hk)).symm

theorem sound_smallVol : (smallVol 6).Sound := by
  refine Vol.sound_of_barren (by decide) (usable_smallSpace 6)
    ⟨0, 4, by decide, by decide, by decide, by decide⟩ (inode_smallVol_root 6) fun n hn => ?_
  rw [inode_smallVol 6 hn]
  exact barren_zeroBlock _

theorem inode_fileVol (n : Nat) : ((fileVol 6 0 emptyRoot).inode n).block =
    if n = 11 then emptyRoot else ((smallVol 6).inode n).block := by
  unfold fileVol
  split
  next hn =>
    subst hn
    rw [(Vol.inode_writeInode_self _ 11 _ 1).2.2]
    exact Vol.clip_of_zero fun k hk => emptyRoot_zero (by omega)
  next hn =>
    rw [Vol.inode_writeInode_of_ne _ _ 1 hn]
    rfl

theorem sound_fileVol : (fileVol 6 0 emptyRoot).Sound := by
  have hAlike : Space.Alike (smallSpace 6) (fileVol 6 0 emptyRoot).space := ⟨rfl, rfl, rfl, rfl⟩
  refine Vol.sound_of_barren (by decide)
    ⟨.inl (by decide), fun p hp => (usable_smallSpace 6).low p ((hAlike.within p).mp hp)⟩
    ⟨0, 4, by decide, by decide, by decide, by decide⟩ ?_ fun n hn => ?_
  · rw [inode_fileVol, if_neg (by decide), inode_smallVol_root]
  · rw [inode_fileVol]
    split
    next => exact barren_emptyRoot _
    next =>
      rw [inode_smallVol 6 hn]
      exact barren_zeroBlock _

theorem blank_emptyFile : Blank emptyFile := by
  have hSize : ∀ c, (emptyFile.vfs.vol c).blockSize = 1024 :=
    Vfs.forall_setVol (P := fun _ v => v.blockSize = 1024) rfl fun _ _ => rfl
  refine ⟨Vfs.forall_setVol (P := fun _ v => v.Sound) sound_fileVol fun _ _ => sound_smallVol,
    fun c d _ _ => (hSize c).trans (hSize d).symm, rfl⟩

theorem vol_emptyFile : emptyFile.vfs.vol 0 = fileVol 6 0 emptyRoot := Vfs.vol_setVol_self ..

theorem newFile_emptyFile : (emptyFile.vfs.vol 0).NewFile 11 := by
  refine ⟨⟨⟨0, 10, by decide +kernel, by decide +kernel, by decide +kernel, by decide +kernel⟩,
    by decide +kernel⟩, by decide +kernel, ?_⟩
  rw [vol_emptyFile, inode_fileVol, if_pos rfl]

/-- What a path leads to, from what the lookup computes. -/
theorem lookup_emptyFile {i : Inode}
    (hLook : emptyFile.vfs.lookup [slash, 102] = (c, some (ino, i))) : c = 0 ∧ ino = 11 := by
  have hSlot : (emptyFile.vfs.lookup [slash, 102]).1 = 0 := by decide +kernel
  have hIno : (emptyFile.vfs.lookup [slash, 102]).2.map Prod.fst = some 11 := by decide +kernel
  rw [hLook] at hSlot hIno
  exact ⟨hSlot, Option.some.inj hIno⟩

/-- A write to the empty file. -/
def writeTo (offset : Nat) (bytes : List UInt8) : Call := byRoot (.write [slash, 102] offset bytes)

theorem toFile_emptyFile (offset : Nat) (bytes : List UInt8) :
    ToFile emptyFile (writeTo offset bytes) := by
  intro c ino i hLook
  obtain ⟨rfl, rfl⟩ := lookup_emptyFile hLook
  exact newFile_emptyFile.regular

end LeahOS.Vfsd
