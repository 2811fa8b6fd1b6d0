import LeahOS.Vfsd.Journal

/-!
# What one flush writes

On a filesystem whose journal is laid out as it should be, and with no I/O error,
`txn_flush` succeeds and issues one fixed sequence of block writes. This module
names that sequence and proves it:

* `Layout`: where the journal of a filesystem is. The facts a well-formed journal
  file has are fields, so every layout has them;
* `Mounted L s`: the server's memory describes the journal `L`;
* `flushWrites`: the descriptor, the copies, the commit block, the superblock that
  publishes them, the home blocks, the superblock that retires them;
* `txnFlush_eq`: the flush does these writes and nothing else.
-/

namespace LeahOS.Vfsd
open Function List

/-- A well-formed journal file: its blocks are all mapped, to different places,
block 0 is its superblock, and the ring is the blocks from `first` on. -/
structure Layout where
  dev : Nat
  blockSize : Nat
  place : Nat → Nat
  first : Nat
  maxlen : Nat
  blockSize_ge : 1024 ≤ blockSize
  blockSize_le : blockSize ≤ 8192
  place_ne_zero : ∀ i, i < maxlen → place i ≠ 0
  place_inj : ∀ i j, i < maxlen → j < maxlen → place i = place j → i = j
  first_pos : 0 < first
  first_lt : first < maxlen
  maxlen_lt : maxlen < 2 ^ 32

/-- A block of the journal file. -/
def Layout.Inside (L : Layout) (b : Nat) : Prop := ∃ i, i < L.maxlen ∧ L.place i = b

/-- The server has this journal open on its current filesystem, and its disk
works. -/
structure Mounted (L : Layout) (s : Server) : Prop where
  dev_eq : s.g.dev = L.dev
  size_eq : s.g.blockSize = L.blockSize
  open_eq : s.g.hasJournal = true
  first_eq : s.g.jrnlFirst = L.first
  maxlen_eq : s.g.jrnlMaxlen = L.maxlen
  place_eq : s.g.journal = L.place
  seq_lt : s.g.jrnlSeq < 2 ^ 32
  works : ∀ b, s.bad s.g.dev b = false

/-- The home writes of a batch. -/
def homeWrites (dev : Nat) (entries : List TxnEntry) : List DiskWrite :=
  entries.map fun e => ⟨dev, e.target, e.buf, e.owner⟩

/-- The writes of the copies, from journal block `index` on. -/
def copyWrites (L : Layout) : Nat → List TxnEntry → List DiskWrite
  | _, [] => []
  | index, e :: rest =>
    ⟨L.dev, L.place index, escapeBlock e.buf, e.owner⟩ :: copyWrites L (index + 1) rest

/-- The journal half of a flush, up to and including the commit block. -/
def journalWrites (L : Layout) (seq : Nat) (entries : List TxnEntry) : List DiskWrite :=
  ⟨L.dev, L.place L.first, descriptorBlock seq entries, L.dev⟩ ::
    (copyWrites L (L.first + 1) entries ++
      [⟨L.dev, L.place (L.first + 1 + entries.length), commitBlock seq, L.dev⟩])

/-- One write of the journal superblock. -/
def superWrite (L : Layout) (b : Block) (seq start : Nat) : DiskWrite :=
  ⟨L.dev, L.place 0, stampSuper b seq start, L.dev⟩

/-- Every write of a flush, in order. `b` is the journal superblock the flush
finds. -/
def flushWrites (L : Layout) (b : Block) (seq : Nat) (entries : List TxnEntry) :
    List DiskWrite :=
  journalWrites L seq entries ++ (superWrite L b seq L.first ::
      (homeWrites L.dev entries ++
        [superWrite L (stampSuper b seq L.first) ((seq + 1) % 2 ^ 32) 0]))

/-! ## Applying writes -/

theorem applyWrite_self (d : Disks) (w : DiskWrite) :
    applyWrite d w w.dev w.block = w.data := by
  simp [applyWrite]

variable {b dev : Nat}

theorem applyWrite_of_ne (d : Disks) (w : DiskWrite) (hNe : w.dev ≠ dev ∨ w.block ≠ b) :
    applyWrite d w dev b = d dev b := by
  unfold applyWrite
  by_cases hDev : dev = w.dev
  · subst hDev
    have hBlock : b ≠ w.block := by
      rcases hNe with h | h
      · exact absurd rfl h
      · exact fun hEq => h hEq.symm
    rw [update_self, update_of_ne hBlock]
  · rw [update_of_ne hDev]

/-- A block no write touches keeps its contents. -/
theorem applyWrites_of_untouched :
    ∀ (ws : List DiskWrite) (d : Disks),
      (∀ w ∈ ws, w.dev ≠ dev ∨ w.block ≠ b) → applyWrites d ws dev b = d dev b
  | [], _, _ => rfl
  | w :: ws, d, hAll => by
      rw [applyWrites_cons, applyWrites_of_untouched ws]
      · exact applyWrite_of_ne d w (hAll w mem_cons_self)
      · intro v hv
        exact hAll v (mem_cons_of_mem w hv)

/-! ## The pieces of the flush -/

/-- Issue writes: the disks and the log change, nothing else. -/
def Server.issue (s : Server) (ws : List DiskWrite) : Server :=
  { s with disk := applyWrites s.disk ws, log := s.log ++ ws }

section
variable (s : Server) (ws : List DiskWrite) (b b' : Block) (seq : Nat) (entries : List TxnEntry)

@[simp] theorem issue_nil : s.issue [] = s := by
  simp [Server.issue]

theorem issue_issue (vs : List DiskWrite) : (s.issue ws).issue vs = s.issue (ws ++ vs) := by
  simp [Server.issue, applyWrites_append]

@[simp] theorem issue_setJbuf (jb : Block) :
    (s.issue ws).setJbuf jb = (s.setJbuf jb).issue ws := rfl

@[simp] theorem issue_setJdata (jd : Block) :
    (s.issue ws).setJdata jd = (s.setJdata jd).issue ws := rfl

@[simp] theorem issue_setTxn : (s.issue ws).setTxn entries = (s.setTxn entries).issue ws := rfl

@[simp] theorem issue_setSeq : (s.issue ws).setSeq seq = (s.setSeq seq).issue ws := rfl

@[simp] theorem issue_setStart (start : Nat) :
    (s.issue ws).setStart start = (s.setStart start).issue ws := rfl

@[simp] theorem setJbuf_disk : (s.setJbuf b).disk = s.disk := rfl
@[simp] theorem setJbuf_g : (s.setJbuf b).g = s.g := rfl
@[simp] theorem setJdata_disk : (s.setJdata b).disk = s.disk := rfl
@[simp] theorem setJdata_txnOpen : (s.setJdata b).txnOpen = s.txnOpen := rfl
@[simp] theorem setJdata_g : (s.setJdata b).g = s.g := rfl
@[simp] theorem setJdata_setJdata : (s.setJdata b).setJdata b' = s.setJdata b' := rfl
@[simp] theorem setJbuf_setJbuf : (s.setJbuf b).setJbuf b' = s.setJbuf b' := rfl
@[simp] theorem setJdata_setJbuf : (s.setJdata b).setJbuf b' = (s.setJbuf b').setJdata b := rfl
@[simp] theorem setSeq_disk : (s.setSeq seq).disk = s.disk := rfl
@[simp] theorem setJdata_setSeq : (s.setJdata b).setSeq seq = (s.setSeq seq).setJdata b := rfl
@[simp] theorem setJbuf_setSeq : (s.setJbuf b).setSeq seq = (s.setSeq seq).setJbuf b := rfl
@[simp] theorem setJdata_setTxn :
    (s.setJdata b).setTxn entries = (s.setTxn entries).setJdata b := rfl
@[simp] theorem setJbuf_setTxn : (s.setJbuf b).setTxn entries = (s.setTxn entries).setJbuf b := rfl
@[simp] theorem setG_disk (f : Fs) : (s.setG f).disk = s.disk := rfl
@[simp] theorem setG_g (f : Fs) : (s.setG f).g = f := by
  simp [Server.setG, Server.g]

@[simp] theorem issue_g : (s.issue ws).g = s.g := rfl

@[simp] theorem issue_disk : (s.issue ws).disk = applyWrites s.disk ws := rfl

@[simp] theorem andThen_true (rest : Server → Server × Bool) :
    andThen (s, true) rest = rest s := rfl

end

theorem putBlock_eq {s : Server} {block owner : Nat} {data : Block}
    (hWorks : s.bad s.g.dev block = false) :
    putBlock s block data owner = (s.issue [⟨s.g.dev, block, data, owner⟩], true) := by
  simp [putBlock, hWorks, Server.issue]

theorem writeHome_eq : ∀ (entries : List TxnEntry) (s : Server), (∀ b, s.bad s.g.dev b = false) →
      writeHome s entries = (s.issue (homeWrites s.g.dev entries), true)
  | [], s, _ => by simp [writeHome, homeWrites]
  | e :: rest, s, hWorks => by
      rw [writeHome, putBlock_eq (hWorks _)]
      rw [andThen_true, writeHome_eq rest (s.issue _) hWorks, issue_issue]
      simp [homeWrites]

/-- Stamping a journal superblock keeps its header and its geometry. -/
theorem rd32be_stampSuper (b : Block) (seq start : Nat) {off : Nat} (hOff : off + 4 ≤ 24) :
    rd32be (stampSuper b seq start) off = rd32be b off := by
  unfold stampSuper
  rw [rd32be_wr32be_of_disjoint _ (.inr (by omega)), rd32be_wr32be_of_disjoint _ (.inr (by omega))]

section Pieces
variable {L : Layout} {s : Server}

theorem Mounted.of_issue (hM : Mounted L s) (ws : List DiskWrite) : Mounted L (s.issue ws) :=
  { hM with }

theorem Mounted.of_setJbuf (hM : Mounted L s) (jb : Block) : Mounted L (s.setJbuf jb) :=
  { hM with }

theorem Mounted.of_setJdata (hM : Mounted L s) (jd : Block) : Mounted L (s.setJdata jd) :=
  { hM with }

theorem Mounted.of_setTxn (hM : Mounted L s) (entries : List TxnEntry) :
    Mounted L (s.setTxn entries) :=
  { hM with }

variable {index seq : Nat}

/-- Where the journal stands does not say where it is. -/
theorem Mounted.of_setG (hM : Mounted L s) (hSeq : seq < 2 ^ 32) (start : Nat) :
    Mounted L (s.setG { s.g with jrnlSeq := seq, jrnlStart := start }) := by
  constructor
  all_goals rw [setG_g]
  · exact hM.dev_eq
  · exact hM.size_eq
  · exact hM.open_eq
  · exact hM.first_eq
  · exact hM.maxlen_eq
  · exact hM.place_eq
  · exact hSeq
  · exact hM.works

theorem Mounted.of_seq (hM : Mounted L s) (hSeq : seq < 2 ^ 32) : Mounted L (s.setSeq seq) :=
  hM.of_setG hSeq s.g.jrnlStart

/-- One block of the journal, read back. -/
theorem jrnlRead_eq (hM : Mounted L s) (hIndex : index < L.maxlen) :
    jrnlRead s index = some (s.disk L.dev (L.place index)) := by
  simp [jrnlRead, diskRead, hM.place_eq, hM.works, L.place_ne_zero index hIndex, ← hM.dev_eq]

/-- One block of the journal, written. -/
theorem jrnlWrite_eq (hM : Mounted L s) {owner : Nat} {data : Block} (hIndex : index < L.maxlen) :
    jrnlWrite s index data owner = (s.issue [⟨L.dev, L.place index, data, owner⟩], true) := by
  unfold jrnlWrite
  rw [hM.place_eq, if_neg (L.place_ne_zero index hIndex), putBlock_eq (hM.works _), hM.dev_eq]

/-- The copies go behind the descriptor, one after the other. -/
theorem writeCopies_eq (entries : List TxnEntry) (index : Nat) (hM : Mounted L s)
    (hFits : index + entries.length ≤ L.maxlen) :
    ∃ jd, writeCopies s index entries =
      ((s.setJdata jd).issue (copyWrites L index entries), true) := by
  induction entries generalizing s index with
  | nil => exact ⟨s.jdata, by rw [writeCopies, copyWrites, issue_nil]; rfl⟩
  | cons e rest ih =>
    simp only [length_cons] at hFits
    have hM' := hM.of_setJdata (escapeBlock e.buf)
    obtain ⟨jd, hRest⟩ := ih (index + 1)
      (hM'.of_issue [⟨L.dev, L.place index, escapeBlock e.buf, e.owner⟩]) (by omega)
    refine ⟨jd, ?_⟩
    rw [writeCopies]
    simp only [jrnlWrite_eq hM' (show index < L.maxlen by omega), andThen_true]
    rw [hRest, issue_setJdata, issue_issue, setJdata_setJdata, copyWrites, singleton_append]

/-- The journal superblock, stamped and written back. -/
theorem publishSuper_eq (hM : Mounted L s) (seq start : Nat)
    (hMagic : rd32be (s.disk L.dev (L.place 0)) 0 = jbd2Magic) :
    publishSuper s seq start = ((s.setJbuf (stampSuper (s.disk L.dev (L.place 0)) seq start)).issue
        [superWrite L (s.disk L.dev (L.place 0)) seq start], true) := by
  have hZero : 0 < L.maxlen := Nat.lt_trans L.first_pos L.first_lt
  unfold publishSuper
  rw [jrnlRead_eq hM hZero]
  simp only [hMagic, ne_eq, not_true_eq_false, if_false]
  rw [jrnlWrite_eq (hM.of_setJbuf _) hZero]
  simp [superWrite, hM.dev_eq]

/-- The journal half of a flush writes ring blocks only. -/
theorem mem_journalWrites {entries : List TxnEntry} {w : DiskWrite}
    (hFits : L.first + entries.length + 2 ≤ L.maxlen) (hw : w ∈ journalWrites L seq entries) :
    ∃ i, i < L.maxlen ∧ L.first ≤ i ∧ w.block = L.place i := by
  have hCopies : ∀ (es : List TxnEntry) (index : Nat), index + es.length ≤ L.maxlen →
      w ∈ copyWrites L index es → ∃ i, i < L.maxlen ∧ index ≤ i ∧ w.block = L.place i := by
    intro es
    induction es with
    | nil => intro index _ h; simp [copyWrites] at h
    | cons e rest ih =>
      intro index hRoom h
      simp only [length_cons] at hRoom
      rcases mem_cons.mp h with rfl | h
      · exact ⟨index, by omega, le_rfl, rfl⟩
      · obtain ⟨i, hi, hle, hBlock⟩ := ih (index + 1) (by omega) h
        exact ⟨i, hi, by omega, hBlock⟩
  rcases mem_cons.mp hw with rfl | hw
  · exact ⟨L.first, L.first_lt, le_rfl, rfl⟩
  · rcases mem_append.mp hw with hw | hw
    · obtain ⟨i, hi, hle, hBlock⟩ := hCopies entries (L.first + 1) (by omega) hw
      exact ⟨i, hi, by omega, hBlock⟩
    · obtain rfl := mem_singleton.mp hw
      exact ⟨L.first + 1 + entries.length, by omega, by omega, rfl⟩

/-- The second superblock write of a flush finds the first one's block. -/
theorem disk_after_home (L : Layout) (d : Disks) (ws : List DiskWrite) (b : Block) (seq : Nat)
    (entries : List TxnEntry) (hOut : ∀ e ∈ entries, e.target ≠ L.place 0) :
    applyWrites d (ws ++ (superWrite L b seq L.first :: homeWrites L.dev entries)) L.dev
      (L.place 0) = stampSuper b seq L.first := by
  rw [applyWrites_append, applyWrites_cons, applyWrites_of_untouched]
  · exact applyWrite_self _ (superWrite L b seq L.first)
  · intro w hw
    obtain ⟨e, he, rfl⟩ := List.mem_map.mp hw
    exact .inr (hOut e he)

/-- The journal half of a flush leaves the journal superblock alone. -/
theorem disk_after_journal (L : Layout) (d : Disks) (seq : Nat) (entries : List TxnEntry)
    (hFits : L.first + entries.length + 2 ≤ L.maxlen) :
    applyWrites d (journalWrites L seq entries) L.dev (L.place 0) = d L.dev (L.place 0) := by
  apply applyWrites_of_untouched
  intro w hw
  obtain ⟨i, hi, hPos, hBlock⟩ := mem_journalWrites hFits hw
  right
  rw [hBlock]
  intro hEq
  have hIndex := L.place_inj i 0 hi (by omega) hEq
  have hFirst := L.first_pos
  omega

/-- A batch too large for the ring is refused before anything is written. -/
theorem txnFlush_refused (hM : Mounted L s) (hBig : L.maxlen < L.first + s.txn.length + 2) :
    (txnFlush s).1 = s := by
  have hRoom : (s.g.jrnlMaxlen + 2 ^ 32 - s.g.jrnlFirst) % 2 ^ 32 < s.txn.length + 2 := by
    have := L.first_lt
    rw [hM.first_eq, hM.maxlen_eq]
    omega
  unfold txnFlush
  by_cases hEmpty : s.txn.isEmpty = true
  · rw [if_pos hEmpty]
  · rw [if_neg hEmpty, if_neg (by simp [hM.open_eq]), if_pos hRoom]

/-- **One flush is one fixed sequence of writes.** -/
theorem txnFlush_eq (hM : Mounted L s) (hNe : s.txn ≠ [])
    (hFits : L.first + s.txn.length + 2 ≤ L.maxlen)
    (hMagic : rd32be (s.disk L.dev (L.place 0)) 0 = jbd2Magic)
    (hOut : ∀ e ∈ s.txn, e.target ≠ L.place 0) :
    ∃ jb jd, txnFlush s =
      (((((s.setSeq ((s.g.jrnlSeq + 1) % 2 ^ 32)).setTxn []).setJbuf jb).setJdata jd).issue
        (flushWrites L (s.disk L.dev (L.place 0)) s.g.jrnlSeq s.txn), true) := by
  have hRoom : ¬ (s.g.jrnlMaxlen + 2 ^ 32 - s.g.jrnlFirst) % 2 ^ 32 < s.txn.length + 2 := by
    have := L.maxlen_lt
    rw [hM.first_eq, hM.maxlen_eq]
    omega
  have hEmpty : s.txn.isEmpty = false := by
    simpa using hNe
  generalize hSeq : s.g.jrnlSeq = seq
  generalize hb : s.disk L.dev (L.place 0) = b at hMagic ⊢
  obtain ⟨jd, hCopies⟩ := writeCopies_eq s.txn (L.first + 1)
    ((hM.of_setJbuf (descriptorBlock seq s.txn)).of_issue
      [⟨L.dev, L.place L.first, descriptorBlock seq s.txn, L.dev⟩]) (by omega)
  have hM' : ∀ jb ws, Mounted L (((s.setJbuf jb).setJdata jd).issue ws) :=
    fun jb ws => ((hM.of_setJbuf jb).of_setJdata jd).of_issue ws
  refine ⟨stampSuper (stampSuper b seq L.first) ((seq + 1) % 2 ^ 32) 0, jd, ?_⟩
  unfold txnFlush
  rw [if_neg (by simp [hEmpty]), if_neg (by simp [hM.open_eq]), if_neg hRoom]
  simp only [hM.first_eq, hSeq, hM.dev_eq]
  rw [jrnlWrite_eq (hM.of_setJbuf _) L.first_lt, andThen_true, hCopies, andThen_true]
  simp only [issue_setJdata, issue_setJbuf, setJdata_setJbuf, setJbuf_setJbuf, issue_issue,
    issue_g, setJbuf_g, setJdata_g, hM.dev_eq, singleton_append]
  rw [jrnlWrite_eq (hM' _ _) (show L.first + 1 + s.txn.length < L.maxlen by omega), andThen_true,
    issue_issue, cons_append, ← journalWrites]
  -- the superblock is still the one found
  have hSuper := disk_after_journal L s.disk seq s.txn hFits
  rw [publishSuper_eq (hM' _ _) seq L.first
    (by simpa only [issue_disk, setJdata_disk, setJbuf_disk, hSuper, hb] using hMagic)]
  simp only [andThen_true, issue_disk, setJdata_disk, setJbuf_disk, hSuper, hb, issue_setJbuf,
    setJdata_setJbuf, setJbuf_setJbuf, issue_issue]
  rw [writeHome_eq _ _ (hM' _ _).works, andThen_true]
  simp only [issue_g, setJdata_g, setJbuf_g, hM.dev_eq, issue_issue, issue_setSeq,
    setJdata_setSeq, setJbuf_setSeq, append_assoc, singleton_append]
  have hSuper' := disk_after_home L s.disk (journalWrites L seq s.txn) b seq s.txn hOut
  rw [publishSuper_eq
    ((((hM.of_seq (Nat.mod_lt _ (by decide))).of_setJbuf _).of_setJdata _).of_issue _) _ 0
    (by simp only [issue_disk, setJdata_disk, setJbuf_disk, setSeq_disk, hSuper',
          rd32be_stampSuper b seq L.first (show 0 + 4 ≤ 24 by decide), hMagic])]
  simp only [issue_disk, setJdata_disk, setJbuf_disk, setSeq_disk, hSuper', issue_setJbuf,
    setJdata_setJbuf, setJbuf_setJbuf, issue_issue, issue_setTxn, setJdata_setTxn, setJbuf_setTxn,
    append_assoc, cons_append, flushWrites]

end Pieces
end LeahOS.Vfsd
