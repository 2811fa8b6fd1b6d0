import LeahOS.Lib.Run
import LeahOS.Vfsd.ReplaySpec

/-!
# Crash atomicity of the journal

The machine may stop after any number of the block writes of a flush or of a
recovery. What it is started with again is the disk as those writes left it.

* `Node`, `Event`, `Step`: a filesystem that is down or mounted, and what can happen
  to it: mounts, flushes, and both of them cut short;
* `AtomicStep`: the store the journal is supposed to be. A flush puts all blocks of
  its batch, a flush that was cut short puts all of them or none, and nothing else
  changes a block;
* `CrashAtomic`: every run refines such a store, and a disk that is down can always
  be mounted again;
* `Safe`: the steps for which that is true.
-/

namespace LeahOS.Vfsd
open Lib Function List

/-! ## The system -/

/-- A filesystem between two mounts, or mounted. -/
inductive Node where
  | down (d : Disks)
  | up (s : Server)

/-- A batch: block numbers and what goes there. -/
abbrev Writes := List (Nat × Block)

/-- What can happen. `txnOpen` is `g_txn_open` at the time of the mount: clear when
the server starts, set when the mount was asked for by a request. The cut events
count the block writes that reached the disk. -/
inductive Event where
  | mount (txnOpen : Bool)
  | mountCut (txnOpen : Bool) (count : Nat)
  | flush (batch : Writes)
  | flushCut (batch : Writes) (count : Nat)

/-- The batch as `write_block` collected it. -/
def collect (L : Layout) (batch : Writes) : List TxnEntry :=
  batch.map fun p => ⟨p.1, p.2, L.dev⟩

/-- What `write_block` lets a batch be: at most `TXN_MAX` different blocks. Nothing
writes to the journal file through the filesystem. -/
structure Collected (L : Layout) (batch : Writes) : Prop where
  length_le : batch.length ≤ txnMax
  nodup : (batch.map Prod.fst).Nodup
  outside : ∀ p ∈ batch, ¬ L.Inside p.1

/-- The one disk there is, and where its journal is. -/
def Layout.volumes (L : Layout) (dev : Nat) : Option Volume :=
  if dev = L.dev then some ⟨L.blockSize, false, some L.place⟩ else none

/-- The server with nothing mounted yet, about to read this disk. -/
def powerOn (L : Layout) (d : Disks) (txnOpen : Bool) : Server where
  fs := fun _ => { Fs.zero with dev := L.dev }
  cur := 0
  txnOpen := txnOpen
  txn := []
  jbuf := zeroBlock
  jdata := zeroBlock
  disk := d
  bad := fun _ _ => false
  log := []

/-- The mount of this disk returns the server `s`. -/
def Mounts (L : Layout) (d : Disks) (o : Bool) (s : Server) : Prop :=
  Settles (fun fuel => mountReadSb L.volumes fuel (powerOn L d o)) (s, true)

/-- The flush of a batch. -/
def flushed (L : Layout) (s : Server) (batch : Writes) : Server :=
  (txnFlush (s.setTxn (collect L batch))).1

/-- One thing happening to the filesystem. -/
inductive Step (L : Layout) : Node → Event → Node → Prop
  | mount {d : Disks} {o : Bool} {s : Server}
      (hMount : Mounts L d o s) :
      Step L (.down d) (.mount o) (.up s)
  | mountCut {d : Disks} {o : Bool} {s : Server} (count : Nat) (hMount : Mounts L d o s) :
      Step L (.down d) (.mountCut o count) (.down (applyWrites d (s.log.take count)))
  | flush {s : Server} {batch : Writes} (hBatch : Collected L batch) :
      Step L (.up s) (.flush batch) (.up (flushed L s batch))
  | flushCut {s : Server} {batch : Writes} (count : Nat) (hBatch : Collected L batch) :
      Step L (.up s) (.flushCut batch count)
        (.down (applyWrites s.disk (((flushed L s batch).log.drop s.log.length).take count)))

/-! ## What it is supposed to be -/

/-- The contents of a disk, block by block. -/
abbrev Contents := Nat → Block

/-- Put all blocks of a batch. -/
def putAll (st : Contents) (batch : Writes) : Contents :=
  batch.foldl (fun st p => update st p.1 p.2) st

/-- The batch and its two journal blocks fit the ring. -/
def Fits (L : Layout) (batch : Writes) : Prop := L.first + batch.length + 2 ≤ L.maxlen

/-- One step of an atomic store. A batch too large for the ring is refused. -/
def AtomicStep (L : Layout) (st : Contents) (e : Event) (st' : Contents) : Prop :=
  match e with
  | .mount _ => st' = st
  | .mountCut _ _ => st' = st
  | .flush batch => (Fits L batch ∧ st' = putAll st batch) ∨ (¬ Fits L batch ∧ st' = st)
  | .flushCut batch _ => st' = st ∨ st' = putAll st batch

/-- A journal as it is before this server first writes to it: the superblock says
that it is empty, and no block of the ring looks like one of the journal's. -/
structure Fresh (L : Layout) (d : Disks) : Prop where
  super : Super L (d L.dev (L.place 0))
  start_eq : rd32be (d L.dev (L.place 0)) 28 = 0
  ring : ∀ i, L.first ≤ i → i < L.maxlen → rd32be (d L.dev (L.place i)) 0 ≠ jbd2Magic

/-- Every run from this disk whose steps all meet `ok` is a run of the atomic store,
and whenever it leaves the filesystem down, the next mount returns. -/
def CrashAtomic (L : Layout) (ok : Node → Event → Prop) (d₀ : Disks) : Prop :=
  (∀ es s, Run (Restrict ok (Step L)) (.down d₀) es (.up s) →
    ∃ st, Run (AtomicStep L) (d₀ L.dev) es st ∧ ∀ b, ¬ L.Inside b → s.disk L.dev b = st b) ∧
  (∀ es d, Run (Restrict ok (Step L)) (.down d₀) es (.down d) → ∃ s, Mounts L d false s)

/-- The steps recovery can answer for. A flush collects no block zero and no block
past the 32 bits of a tag; a disk that is mounted while a batch is open has nothing
to recover. -/
def Safe (L : Layout) (n : Node) (e : Event) : Prop :=
  match n, e with
  | .down d, .mount o => o = false ∨ rd32be (d L.dev (L.place 0)) 28 = 0
  | .down d, .mountCut o _ => o = false ∨ rd32be (d L.dev (L.place 0)) 28 = 0
  | .up _, .flush batch => ∀ p ∈ batch, p.1 ≠ 0 ∧ p.1 < 2 ^ 32
  | .up _, .flushCut batch _ => ∀ p ∈ batch, p.1 ≠ 0 ∧ p.1 < 2 ^ 32
  | _, _ => True

/-! ## Mounting -/

section Mounting
variable {L : Layout} {d : Disks}

/-- A disk with a journal of this layout is mounted with that journal open, and all
that is left is the replay. -/
theorem mountReadSb_eq (hSuper : Super L (d L.dev (L.place 0))) (o : Bool) :
    ∃ s, Mounted L s ∧ s.disk = d ∧ s.log = [] ∧ s.txnOpen = o ∧
      s.g.jrnlSeq = rd32be (d L.dev (L.place 0)) 24 ∧
      s.g.jrnlStart = rd32be (d L.dev (L.place 0)) 28 ∧
      ∀ fuel, mountReadSb L.volumes fuel (powerOn L d o) =
        (journalReplay fuel s).map fun r => (r.1, true) := by
  have hPos := L.first_pos
  have hFirst := L.first_lt
  have hZero : L.place 0 ≠ 0 := L.place_ne_zero 0 (by omega)
  have hLe := L.blockSize_le
  -- the slot as `journal_open` leaves it
  let f : Fs := { Fs.zero with
    dev := L.dev
    blockSize := L.blockSize
    hasJournal := true
    jrnlFirst := L.first
    jrnlMaxlen := L.maxlen
    jrnlSeq := rd32be (d L.dev (L.place 0)) 24
    jrnlStart := rd32be (d L.dev (L.place 0)) 28
    journal := L.place }
  let s : Server := ((powerOn L d o).setJbuf (d L.dev (L.place 0))).setG f
  have hg : s.g = f := setG_g _ f
  have hOpen : journalOpen ((powerOn L d o).setG { (powerOn L d o).g with blockSize := L.blockSize })
      ⟨L.blockSize, false, some L.place⟩ = s := by
    simp [journalOpen, hZero, readBlock, txnPeek, diskRead, powerOn, Server.setG, Server.g,
      Server.setJbuf, hSuper.magic, hSuper.size, hSuper.maxlen, hSuper.first, s, f, hPos.ne',
      (show L.maxlen ≠ 0 by omega)]
  refine ⟨s, ?_, rfl, rfl, rfl, by rw [hg], by rw [hg], ?_⟩
  · constructor
    case works => exact fun _ => rfl
    case seq_lt => rw [hg]; exact rd32be_lt _ _
    all_goals rw [hg]
  · intro fuel
    have hVol : L.volumes (powerOn L d o).g.dev = some ⟨L.blockSize, false, some L.place⟩ :=
      if_pos rfl
    simp only [mountReadSb, hVol, hOpen, if_neg (show ¬ 8192 < L.blockSize by omega)]
    cases journalReplay fuel s with
    | none | some => rfl

/-- An empty journal is mounted without a single write. -/
theorem mounts_clean (hSuper : Super L (d L.dev (L.place 0)))
    (hStart : rd32be (d L.dev (L.place 0)) 28 = 0) (o : Bool) :
    ∃ s, Mounts L d o s ∧ Mounted L s ∧ s.disk = d ∧ s.log = [] := by
  obtain ⟨s, hM, hDisk, hLog, -, -, hJrnl, hEq⟩ := mountReadSb_eq hSuper o
  refine ⟨s, ⟨0, fun fuel _ => ?_⟩, hM, hDisk, hLog⟩
  simp only [hEq, journalReplay_clean (hJrnl.trans hStart), Option.map_some]

/-- The writes of the recovery of a published batch. -/
def recoverWrites (L : Layout) (b : Block) (seq : Nat) (entries : List TxnEntry) :
    List DiskWrite :=
  homeWrites L.dev (replayed entries) ++ [superWrite L b seq 0]

/-- A published batch is recovered by the mount, outside any batch. -/
theorem mounts_pending {seq : Nat} {entries : List TxnEntry}
    (hSuper : Super L (d L.dev (L.place 0))) (hRing : Ring L d) (hB : Batch L entries)
    (hP : Pending L d seq entries) :
    ∃ s seq', Mounts L d false s ∧ Mounted L s ∧
      s.log = recoverWrites L (d L.dev (L.place 0)) seq' entries ∧
      s.disk = applyWrites d (recoverWrites L (d L.dev (L.place 0)) seq' entries) := by
  obtain ⟨s, hM, rfl, hLog, hClosed, hSeq, hStart, hEq⟩ := mountReadSb_eq hSuper false
  obtain ⟨jb, jd, seq', hReplay⟩ := journalReplay_pending hM hClosed (hStart.trans hP.start_eq)
    (hSeq.trans hP.seq_eq) hSuper.magic hRing hB hP
  refine ⟨_, seq', hReplay.map _ (fun fuel hFuel => ?_),
    (((hM.of_setG hM.seq_lt 0).of_setJbuf jb).of_setJdata jd).of_issue _, ?_, rfl⟩
  · exact (hEq fuel).trans (by rw [hFuel]; rfl)
  · show s.log ++ _ = _
    rw [hLog]
    rfl

end Mounting

/-! ## Cutting a flush short -/

section Cutting
variable {L : Layout} {d : Disks}

/-- A write the flush makes before it publishes: into the ring, and behind the first
block of the ring nothing but commit blocks looks like one of the journal's. -/
structure RingWrite (L : Layout) (w : DiskWrite) : Prop where
  place_eq : ∃ i, L.first ≤ i ∧ i < L.maxlen ∧ w.block = L.place i ∧
    (L.first < i → rd32be w.data 0 = jbd2Magic → rd32be w.data 4 = jbd2Commit)
  dev_eq : w.dev = L.dev

variable {w : DiskWrite} {ws : List DiskWrite} {entries : List TxnEntry} {seq : Nat}

theorem RingWrite.block_ne_super (hw : RingWrite L w) : w.block ≠ L.place 0 := by
  obtain ⟨i, hFirst, hi, hBlock, -⟩ := hw.place_eq
  have hPos := L.first_pos
  rw [hBlock]
  intro hEq
  have := L.place_inj i 0 hi (by omega) hEq
  omega

theorem RingWrite.block_ne_outside (hw : RingWrite L w) {b : Nat} (hb : ¬ L.Inside b) :
    w.block ≠ b := by
  obtain ⟨i, -, hi, hBlock, -⟩ := hw.place_eq
  rintro rfl
  exact hb ⟨i, hi, hBlock.symm⟩

/-- One write into the ring keeps the ring in order. -/
theorem Ring.of_ringWrite (hRing : Ring L d) (hw : RingWrite L w) :
    Ring L (applyWrite d w) := by
  intro j hFirst hj hMagic
  obtain ⟨i, -, hi, hBlock, hData⟩ := hw.place_eq
  by_cases hEq : i = j
  · subst hEq
    have hSelf : applyWrite d w L.dev (L.place i) = w.data := by
      rw [← hw.dev_eq, ← hBlock]
      exact applyWrite_self d w
    rw [hSelf] at hMagic ⊢
    exact hData hFirst hMagic
  · have hOther : applyWrite d w L.dev (L.place j) = d L.dev (L.place j) := by
      refine applyWrite_of_ne d w (.inr ?_)
      rw [hBlock]
      exact fun h => hEq (L.place_inj i j hi hj h)
    rw [hOther] at hMagic ⊢
    exact hRing j hFirst hj hMagic

theorem Ring.of_ringWrites (hRing : Ring L d) (hAll : ∀ w ∈ ws, RingWrite L w) :
    Ring L (applyWrites d ws) := by
  induction ws generalizing d with
  | nil => exact hRing
  | cons w ws ih =>
    exact ih (hRing.of_ringWrite (hAll w mem_cons_self))
      fun v hv => hAll v (mem_cons_of_mem w hv)

/-- Writes outside the ring keep it in order. -/
theorem Ring.of_untouched (hRing : Ring L d)
    (hAll : ∀ w ∈ ws, ∀ i, L.first < i → i < L.maxlen → w.block ≠ L.place i) :
    Ring L (applyWrites d ws) := by
  intro i hFirst hi hMagic
  have hSame : applyWrites d ws L.dev (L.place i) = d L.dev (L.place i) :=
    applyWrites_of_untouched ws d fun w hw => .inr (hAll w hw i hFirst hi)
  rw [hSame] at hMagic ⊢
  exact hRing i hFirst hi hMagic

theorem copyWrites_ringWrite : ∀ {entries : List TxnEntry} {index : Nat},
    L.first < index → index + entries.length ≤ L.maxlen →
      ∀ w ∈ copyWrites L index entries, RingWrite L w
  | [], _, _, _, w, hw => by simp [copyWrites] at hw
  | e :: rest, index, hIndex, hRoom, w, hw => by
      simp only [length_cons] at hRoom
      rcases mem_cons.mp hw with rfl | hw
      · refine ⟨⟨index, by omega, by omega, rfl, fun _ hMagic => ?_⟩, rfl⟩
        exact absurd hMagic (rd32be_escapeBlock_ne e.buf)
      · exact copyWrites_ringWrite (by omega) (by omega) w hw

/-- Everything before the publishing superblock is a write into the ring. -/
theorem journalWrites_ringWrite (hFits : L.first + entries.length + 2 ≤ L.maxlen)
    (hSeq : seq < 2 ^ 32) :
    ∀ w ∈ journalWrites L seq entries, RingWrite L w := by
  intro w hw
  rcases mem_cons.mp hw with rfl | hw
  · exact ⟨⟨L.first, le_rfl, L.first_lt, rfl, fun h => absurd h (lt_irrefl _)⟩, rfl⟩
  · rcases mem_append.mp hw with hw | hw
    · exact copyWrites_ringWrite (by omega) (by omega) w hw
    · obtain rfl := mem_singleton.mp hw
      exact ⟨⟨L.first + 1 + entries.length, by omega, by omega, rfl,
        fun _ _ => (commitBlock_header hSeq).2.1⟩, rfl⟩

theorem mem_copyWrites : ∀ {entries : List TxnEntry} {index : Nat},
    w ∈ copyWrites L index entries →
      ∃ i, index ≤ i ∧ i < index + entries.length ∧ w.block = L.place i
  | [], _, hw => by simp [copyWrites] at hw
  | e :: rest, index, hw => by
      rcases mem_cons.mp hw with rfl | hw
      · exact ⟨index, le_rfl, by simp, rfl⟩
      · obtain ⟨i, hLow, hHigh, hBlock⟩ := mem_copyWrites hw
        exact ⟨i, by omega, by simp only [length_cons]; omega, hBlock⟩

/-- The copies are where they were written. -/
theorem copiesAt_copyWrites : ∀ (entries : List TxnEntry) (index : Nat) (d : Disks),
    index + entries.length ≤ L.maxlen →
      CopiesAt L (applyWrites d (copyWrites L index entries)) index entries
  | [], _, _, _ => trivial
  | e :: rest, index, d, hRoom => by
      simp only [length_cons] at hRoom
      rw [copyWrites, applyWrites_cons]
      refine ⟨?_, copiesAt_copyWrites rest (index + 1) _ (by omega)⟩
      rw [applyWrites_of_untouched]
      · exact applyWrite_self d ⟨L.dev, L.place index, escapeBlock e.buf, e.owner⟩
      · intro w hw
        obtain ⟨i, hLow, hHigh, hBlock⟩ := mem_copyWrites hw
        right
        rw [hBlock]
        intro hEq
        have := L.place_inj i index (by omega) (by omega) hEq
        omega

/-- The journal half of a flush leaves the descriptor, the copies and the commit
block of the batch in the ring. -/
theorem journalWrites_written (seq : Nat) (hFits : L.first + entries.length + 2 ≤ L.maxlen) :
    let d' := applyWrites d (journalWrites L seq entries)
    d' L.dev (L.place L.first) = descriptorBlock seq entries ∧ CopiesAt L d' (L.first + 1) entries ∧
      d' L.dev (L.place (L.first + 1 + entries.length)) = commitBlock seq := by
  intro d'
  have hApart : ∀ {i j}, i < L.maxlen → j < L.maxlen → i ≠ j → L.place i ≠ L.place j :=
    fun hi hj hNe hEq => hNe (L.place_inj _ _ hi hj hEq)
  have hd' : d' = applyWrite (applyWrites (applyWrite d
      ⟨L.dev, L.place L.first, descriptorBlock seq entries, L.dev⟩)
        (copyWrites L (L.first + 1) entries))
      ⟨L.dev, L.place (L.first + 1 + entries.length), commitBlock seq, L.dev⟩ := by
    simp only [d', journalWrites, applyWrites_cons, applyWrites_append, applyWrites_nil]
  rw [hd']
  refine ⟨?_, ?_, applyWrite_self _
    ⟨L.dev, L.place (L.first + 1 + entries.length), commitBlock seq, L.dev⟩⟩
  · rw [applyWrite_of_ne _ _ (.inr (hApart (by omega) (by omega) (by omega))),
      applyWrites_of_untouched]
    · exact applyWrite_self d ⟨L.dev, L.place L.first, descriptorBlock seq entries, L.dev⟩
    · intro w hw
      obtain ⟨i, hLow, hHigh, hBlock⟩ := mem_copyWrites hw
      exact .inr (hBlock ▸ hApart (by omega) (by omega) (by omega))
  · refine CopiesAt.congr (fun i hLow hHigh => ?_)
      (copiesAt_copyWrites entries (L.first + 1)
        (applyWrite d ⟨L.dev, L.place L.first, descriptorBlock seq entries, L.dev⟩) (by omega))
    exact applyWrite_of_ne _ _ (.inr (hApart (by omega) (by omega) (by omega)))

/-- Once the superblock is out, the batch is published, however many of the home
writes have been made. -/
theorem pending_of_published {hs : List TxnEntry} (b : Block)
    (hFits : L.first + entries.length + 2 ≤ L.maxlen) (hSeq : seq < 2 ^ 32)
    (hOut : ∀ e ∈ hs, ¬ L.Inside e.target) :
    Pending L (applyWrites d (journalWrites L seq entries ++
      superWrite L b seq L.first :: homeWrites L.dev hs)) seq entries := by
  have hMax := L.maxlen_lt
  obtain ⟨hDesc, hCopies, hCommit⟩ := journalWrites_written (d := d) seq hFits
  rw [applyWrites_append, applyWrites_cons]
  generalize applyWrites d (journalWrites L seq entries) = d' at *
  -- neither the superblock nor a home block is a block of the ring
  have hKeep : ∀ i, 0 < i → i < L.maxlen →
      applyWrites (applyWrite d' (superWrite L b seq L.first)) (homeWrites L.dev hs) L.dev
        (L.place i) = d' L.dev (L.place i) := by
    intro i hPos hi
    rw [applyWrites_homeWrites_inside _ hOut ⟨i, hi, rfl⟩]
    refine applyWrite_of_ne d' _ (.inr fun hEq => ?_)
    have := L.place_inj 0 i (by omega) hi hEq
    omega
  have hSuper : applyWrites (applyWrite d' (superWrite L b seq L.first)) (homeWrites L.dev hs)
      L.dev (L.place 0) = stampSuper b seq L.first := by
    rw [applyWrites_homeWrites_inside _ hOut ⟨0, by omega, rfl⟩]
    exact applyWrite_self d' (superWrite L b seq L.first)
  have hPos := L.first_pos
  constructor
  · rw [hSuper, rd32be_stampSuper_start _ _ (by omega)]
  · rw [hSuper, rd32be_stampSuper_seq _ _ hSeq]
  · rw [hKeep _ hPos L.first_lt, hDesc]
  · exact hCopies.congr fun i hLow hHigh => hKeep i (by omega) (by omega)
  · rw [hKeep _ (by omega) (by omega), hCommit]

end Cutting

/-! ## Running against the atomic store -/

section Simulation
variable {L : Layout} {d : Disks} {st : Contents} {batch : Writes} {b seq : Nat}

/-- Putting a batch forgets what its blocks held before. -/
theorem putAll_congr {x y : Contents} :
    ∀ {batch : Writes}, (b ∉ batch.map Prod.fst → x b = y b) →
      putAll x batch b = putAll y batch b := by
  intro batch
  induction batch generalizing x y with
  | nil => exact fun h => h (by simp)
  | cons p rest ih =>
    intro h
    refine ih fun hRest => ?_
    show update x p.1 p.2 b = update y p.1 p.2 b
    by_cases hEq : b = p.1
    · subst hEq
      rw [update_self, update_self]
    · rw [update_of_ne hEq, update_of_ne hEq]
      exact h (by simpa [hEq] using hRest)

/-- The home writes of a batch put it. -/
theorem applyWrites_collect (L : Layout) (d : Disks) (batch : Writes) :
    applyWrites d (homeWrites L.dev (collect L batch)) L.dev = putAll (d L.dev) batch := by
  induction batch generalizing d with
  | nil => rfl
  | cons p rest ih =>
    have hStep : applyWrite d ⟨L.dev, p.1, p.2, L.dev⟩ L.dev =
        update (d L.dev) p.1 p.2 := by
      simp [applyWrite]
    simp only [collect, homeWrites, map_cons, applyWrites_cons] at ih ⊢
    rw [ih, hStep]
    rfl

/-- Some of the home writes of a batch touch none but its blocks. -/
theorem applyWrites_take_collect (d : Disks) {k : Nat} (hb : b ∉ batch.map Prod.fst) :
    applyWrites d (homeWrites L.dev ((collect L batch).take k)) L.dev b = d L.dev b := by
  apply applyWrites_of_untouched
  intro w hw
  obtain ⟨e, he, rfl⟩ := List.mem_map.mp hw
  obtain ⟨p, hp, rfl⟩ := List.mem_map.mp (mem_of_mem_take he)
  right
  rintro rfl
  exact hb (List.mem_map_of_mem hp)

/-- A journal in order. -/
structure Sound (L : Layout) (d : Disks) : Prop where
  super : Super L (d L.dev (L.place 0))
  ring : Ring L d

/-- Nothing is published, and the disk is the store. -/
structure Idle (L : Layout) (d : Disks) (st : Contents) : Prop where
  start_eq : rd32be (d L.dev (L.place 0)) 28 = 0
  holds : ∀ b, ¬ L.Inside b → d L.dev b = st b

/-- A batch as a safe flush collects it. -/
structure SafeBatch (L : Layout) (batch : Writes) : Prop where
  ne_nil : batch ≠ []
  fits : Fits L batch
  collected : Collected L batch
  safe : ∀ p ∈ batch, p.1 ≠ 0 ∧ p.1 < 2 ^ 32

/-- A batch is published, and the store is what the disk will be once it has been
put. -/
def Owed (L : Layout) (d : Disks) (st : Contents) : Prop :=
  ∃ batch seq, SafeBatch L batch ∧ Pending L d seq (collect L batch) ∧
    ∀ b, ¬ L.Inside b → putAll (d L.dev) batch b = st b

/-- What ties a node to the store it stands for. -/
def Holds (L : Layout) : Node → Contents → Prop
  | .up s, st => Mounted L s ∧ Sound L s.disk ∧ Idle L s.disk st
  | .down d, st => Sound L d ∧ (Idle L d st ∨ Owed L d st)

theorem SafeBatch.outside (hSafe : SafeBatch L batch) :
    ∀ e ∈ collect L batch, ¬ L.Inside e.target := by
  intro e he
  obtain ⟨p, hp, rfl⟩ := List.mem_map.mp he
  exact hSafe.collected.outside p hp

theorem SafeBatch.replayed_eq (hSafe : SafeBatch L batch) :
    replayed (collect L batch) = collect L batch := by
  refine replayed_eq_self fun e he => ?_
  obtain ⟨p, hp, rfl⟩ := List.mem_map.mp he
  exact hSafe.safe p hp

theorem SafeBatch.toBatch (hSafe : SafeBatch L batch) : Batch L (collect L batch) := by
  refine ⟨by simpa [collect] using hSafe.ne_nil, by simpa [collect] using hSafe.collected.length_le,
    by simpa [collect, Fits] using hSafe.fits, fun e he => ?_, fun e he => ?_⟩
  · obtain ⟨p, hp, rfl⟩ := List.mem_map.mp he
    rw [Nat.mod_eq_of_lt (hSafe.safe p hp).2]
    exact hSafe.collected.outside p hp
  · obtain ⟨p, hp, rfl⟩ := List.mem_map.mp he
    rfl

/-- Home writes keep the journal in order. -/
theorem Sound.of_home {hs : List TxnEntry} (hSound : Sound L d)
    (hOut : ∀ e ∈ hs, ¬ L.Inside e.target) : Sound L (applyWrites d (homeWrites L.dev hs)) := by
  have hFirst := L.first_lt
  constructor
  · rw [applyWrites_homeWrites_inside d hOut ⟨0, by omega, rfl⟩]
    exact hSound.super
  · refine hSound.ring.of_untouched fun w hw i _ hi => ?_
    obtain ⟨e, he, rfl⟩ := List.mem_map.mp hw
    exact fun hEq => hOut e he ⟨i, hi, hEq.symm⟩

/-- Stamping the superblock keeps the journal in order. -/
theorem Sound.of_superWrite (hSound : Sound L d) (seq start : Nat) {b : Block}
    (hb : Super L b) : Sound L (applyWrite d (superWrite L b seq start)) := by
  constructor
  · rw [show applyWrite d (superWrite L b seq start) L.dev (L.place 0) = stampSuper b seq start
      from applyWrite_self d (superWrite L b seq start)]
    exact hb.of_stamp seq start
  · have hRing : Ring L (applyWrites d [superWrite L b seq start]) := by
      refine hSound.ring.of_untouched fun w hw i hFirst hi hEq => ?_
      obtain rfl := mem_singleton.mp hw
      have := L.place_inj 0 i (by omega) hi hEq
      omega
    exact hRing

/-- The superblock is not part of the store. -/
theorem idle_of_retired (seq : Nat) (b : Block) (hHolds : ∀ b, ¬ L.Inside b → d L.dev b = st b) :
    Idle L (applyWrite d (superWrite L b seq 0)) st := by
  have hFirst := L.first_lt
  constructor
  · rw [show applyWrite d (superWrite L b seq 0) L.dev (L.place 0) = stampSuper b seq 0
      from applyWrite_self d (superWrite L b seq 0)]
    exact rd32be_stampSuper_start _ _ (by decide)
  · intro x hx
    rw [applyWrite_of_ne d _ (.inr fun hEq => hx ⟨0, by omega, hEq⟩)]
    exact hHolds x hx

/-- A recovery cut short: the batch is still owed, or the journal is empty again and
the batch has been put. -/
theorem recover_cut (hSound : Sound L d) (hSafe : SafeBatch L batch)
    (hP : Pending L d seq (collect L batch))
    (hHolds : ∀ b, ¬ L.Inside b → putAll (d L.dev) batch b = st b) (seq' count : Nat) :
    Holds L (.down (applyWrites d
      ((recoverWrites L (d L.dev (L.place 0)) seq' (collect L batch)).take count))) st := by
  have hOut := hSafe.outside
  unfold recoverWrites
  rw [hSafe.replayed_eq]
  by_cases hCount : count ≤ batch.length
  · -- the superblock has not been written yet
    rw [take_append_of_le_length (by simpa [homeWrites, collect] using hCount), homeWrites,
      ← map_take, ← homeWrites]
    have hOut' : ∀ e ∈ (collect L batch).take count, ¬ L.Inside e.target :=
      fun e he => hOut e (mem_of_mem_take he)
    have hKeep : ∀ i, i < L.maxlen → applyWrites d (homeWrites L.dev ((collect L batch).take count))
        L.dev (L.place i) = d L.dev (L.place i) :=
      fun i hi => applyWrites_homeWrites_inside d hOut' ⟨i, hi, rfl⟩
    have hFits := hSafe.toBatch.fits
    refine ⟨hSound.of_home hOut', .inr ⟨batch, seq, hSafe, ?_, fun b hb => ?_⟩⟩
    · constructor
      · rw [hKeep 0 (by omega), hP.start_eq]
      · rw [hKeep 0 (by omega), hP.seq_eq]
      · rw [hKeep _ L.first_lt, hP.descriptor]
      · exact hP.copies.congr fun i _ hHigh => hKeep i (by omega)
      · rw [hKeep _ (by omega), hP.commit]
    · rw [← hHolds b hb]
      exact putAll_congr fun hNot => applyWrites_take_collect d hNot
  · rw [take_of_length_le (by simp [homeWrites, collect]; omega), applyWrites_append,
      applyWrites_cons, applyWrites_nil]
    refine ⟨(hSound.of_home hOut).of_superWrite _ _ hSound.super, .inl (idle_of_retired _ _ ?_)⟩
    intro b hb
    rw [applyWrites_collect]
    exact hHolds b hb

/-- Writes into the ring are nothing the store can see. -/
theorem Sound.of_ringWrites {ws : List DiskWrite} (hSound : Sound L d) (hIdle : Idle L d st)
    (hAll : ∀ w ∈ ws, RingWrite L w) :
    Sound L (applyWrites d ws) ∧ Idle L (applyWrites d ws) st := by
  have hSuper : applyWrites d ws L.dev (L.place 0) = d L.dev (L.place 0) :=
    applyWrites_of_untouched ws d fun w hw => .inr (hAll w hw).block_ne_super
  refine ⟨⟨hSuper ▸ hSound.super, hSound.ring.of_ringWrites hAll⟩,
    hSuper ▸ hIdle.start_eq, fun b hb => ?_⟩
  rw [applyWrites_of_untouched ws d fun w hw => .inr ((hAll w hw).block_ne_outside hb)]
  exact hIdle.holds b hb

/-- A flush cut short after it published: the batch is owed. -/
theorem flush_published (hSound : Sound L d) (hIdle : Idle L d st) (hSafe : SafeBatch L batch)
    (hSeq : seq < 2 ^ 32) (k : Nat) :
    Holds L (.down (applyWrites d (journalWrites L seq (collect L batch) ++
      superWrite L (d L.dev (L.place 0)) seq L.first ::
        homeWrites L.dev ((collect L batch).take k)))) (putAll st batch) := by
  have hFits := hSafe.toBatch.fits
  have hOut : ∀ e ∈ (collect L batch).take k, ¬ L.Inside e.target :=
    fun e he => hSafe.outside e (mem_of_mem_take he)
  have hP := pending_of_published (d := d) (d L.dev (L.place 0)) hFits hSeq hOut
  rw [applyWrites_append, applyWrites_cons] at hP ⊢
  obtain ⟨hSound', hIdle'⟩ := hSound.of_ringWrites hIdle (journalWrites_ringWrite hFits hSeq)
  refine ⟨(hSound'.of_superWrite _ _ hSound.super).of_home hOut,
    .inr ⟨batch, seq, hSafe, hP, fun b hb => ?_⟩⟩
  refine putAll_congr fun hNot => ?_
  rw [applyWrites_take_collect _ hNot, applyWrite_of_ne _ _ (.inr fun hEq => hb ⟨0, by omega, hEq⟩)]
  exact hIdle'.holds b hb

/-- A whole flush puts its batch. -/
theorem flush_complete (hSound : Sound L d) (hIdle : Idle L d st) (hSafe : SafeBatch L batch)
    (hSeq : seq < 2 ^ 32) :
    Sound L (applyWrites d (flushWrites L (d L.dev (L.place 0)) seq (collect L batch))) ∧
      Idle L (applyWrites d (flushWrites L (d L.dev (L.place 0)) seq (collect L batch)))
        (putAll st batch) := by
  have hFits := hSafe.toBatch.fits
  obtain ⟨hSound', hIdle'⟩ := hSound.of_ringWrites hIdle (journalWrites_ringWrite hFits hSeq)
  have hSound'' := (hSound'.of_superWrite seq L.first hSound.super).of_home hSafe.outside
  unfold flushWrites
  rw [applyWrites_append, applyWrites_cons, applyWrites_append, applyWrites_cons, applyWrites_nil]
  refine ⟨hSound''.of_superWrite _ _ (hSound.super.of_stamp _ _), idle_of_retired _ _ ?_⟩
  intro b hb
  rw [applyWrites_collect]
  refine putAll_congr fun _ => ?_
  rw [applyWrite_of_ne _ _ (.inr fun hEq => hb ⟨0, by omega, hEq⟩)]
  exact hIdle'.holds b hb

/-- A flush cut short: nothing has happened to the store, or all of it has. -/
theorem flush_cut (hSound : Sound L d) (hIdle : Idle L d st) (hSafe : SafeBatch L batch)
    (hSeq : seq < 2 ^ 32) (count : Nat) :
    ∃ st', AtomicStep L st (.flushCut batch count) st' ∧ Holds L (.down (applyWrites d
        ((flushWrites L (d L.dev (L.place 0)) seq (collect L batch)).take count))) st' := by
  have hLen : (homeWrites L.dev (collect L batch)).length = batch.length := by
    simp [homeWrites, collect]
  generalize hj : (journalWrites L seq (collect L batch)).length = j
  by_cases hJournal : count ≤ j
  · -- before the batch is published
    refine ⟨st, .inl rfl, ?_⟩
    rw [flushWrites, take_append_of_le_length (hj ▸ hJournal)]
    obtain ⟨hSound', hIdle'⟩ := hSound.of_ringWrites hIdle fun w hw =>
      journalWrites_ringWrite hSafe.toBatch.fits hSeq w (mem_of_mem_take hw)
    exact ⟨hSound', .inl hIdle'⟩
  · obtain ⟨k, rfl⟩ : ∃ k, count = j + (k + 1) := ⟨count - j - 1, by omega⟩
    refine ⟨putAll st batch, .inr rfl, ?_⟩
    by_cases hHome : k ≤ batch.length
    · -- between the two superblocks
      rw [flushWrites, ← hj, take_length_add_append, take_succ_cons,
        take_append_of_le_length (hLen ▸ hHome), homeWrites, ← map_take, ← homeWrites]
      exact flush_published hSound hIdle hSafe hSeq k
    · rw [take_of_length_le]
      · obtain ⟨hSound', hIdle'⟩ := flush_complete hSound hIdle hSafe hSeq
        exact ⟨hSound', .inl hIdle'⟩
      · simp only [flushWrites, length_append, length_cons, length_nil, hLen, hj]
        omega

/-- A flush does nothing to a batch that is empty or too large, and the writes of
`flushWrites` to any other. -/
theorem flushed_cases {s : Server} (hM : Mounted L s) (hSuper : Super L (s.disk L.dev (L.place 0)))
    (hBatch : Collected L batch) :
    ((batch = [] ∨ ¬ Fits L batch) ∧ flushed L s batch = s.setTxn (collect L batch)) ∨
    (batch ≠ [] ∧ Fits L batch ∧ Mounted L (flushed L s batch) ∧ (flushed L s batch).log = s.log ++
        flushWrites L (s.disk L.dev (L.place 0)) s.g.jrnlSeq (collect L batch) ∧
      (flushed L s batch).disk = applyWrites s.disk
        (flushWrites L (s.disk L.dev (L.place 0)) s.g.jrnlSeq (collect L batch))) := by
  have hLen : (collect L batch).length = batch.length := length_map ..
  have hM' := hM.of_setTxn (collect L batch)
  by_cases hNil : batch = []
  · subst hNil
    exact .inl ⟨.inl rfl, rfl⟩
  by_cases hFits : Fits L batch
  · right
    have hFirst := L.first_lt
    obtain ⟨jb, jd, hEq⟩ := txnFlush_eq hM' (by simpa [Server.setTxn, collect] using hNil)
      (by simpa [Server.setTxn, hLen, Fits] using hFits) hSuper.magic (by
        intro e he hEq
        obtain ⟨p, hp, rfl⟩ := List.mem_map.mp he
        exact hBatch.outside p hp ⟨0, by omega, hEq.symm⟩)
    unfold flushed
    rw [hEq]
    refine ⟨hNil, hFits, ?_, rfl, rfl⟩
    exact ((((hM'.of_seq (Nat.mod_lt _ (by decide))).of_setTxn []).of_setJbuf jb).of_setJdata
      jd).of_issue _
  · refine .inl ⟨.inr hFits, txnFlush_refused hM' ?_⟩
    unfold Fits at hFits
    show L.maxlen < L.first + (collect L batch).length + 2
    omega

/-- A disk that is down can be mounted. The mount keeps the store, and so does any
part of it. -/
theorem holds_mount {o : Bool} (hHolds : Holds L (.down d) st)
    (hSafe : o = false ∨ rd32be (d L.dev (L.place 0)) 28 = 0) :
    ∃ s, Mounts L d o s ∧ Holds L (.up s) st ∧
      ∀ count, Holds L (.down (applyWrites d (s.log.take count))) st := by
  obtain ⟨hSound, hIdle | ⟨batch, seq, hBatch, hP, hPut⟩⟩ := hHolds
  · obtain ⟨s, hMount, hM, rfl, hLog⟩ := mounts_clean hSound.super hIdle.start_eq o
    refine ⟨s, hMount, ⟨hM, hSound, hIdle⟩, fun count => ?_⟩
    rw [hLog, take_nil]
    exact ⟨hSound, .inl hIdle⟩
  · -- a published batch is recovered, and that needs the batch to be closed
    have hClosed : o = false := by
      rcases hSafe with h | h
      · exact h
      · have := L.first_pos
        rw [hP.start_eq] at h
        omega
    subst hClosed
    obtain ⟨s, seq', hMount, hM, hLog, hDisk⟩ := mounts_pending hSound.super hSound.ring
      hBatch.toBatch hP
    have hCut := recover_cut hSound hBatch hP hPut seq'
    refine ⟨s, hMount, ⟨hM, ?_⟩, fun count => hLog ▸ hCut count⟩
    rw [hDisk]
    unfold recoverWrites
    rw [hBatch.replayed_eq, applyWrites_append, applyWrites_cons, applyWrites_nil]
    refine ⟨(hSound.of_home hBatch.outside).of_superWrite _ _ hSound.super,
      idle_of_retired _ _ fun b hb => ?_⟩
    rw [applyWrites_collect]
    exact hPut b hb

theorem AtomicStep.flush_nothing (hNothing : batch = [] ∨ ¬ Fits L batch) :
    AtomicStep L st (.flush batch) st := by
  by_cases hFits : Fits L batch
  · obtain rfl : batch = [] := hNothing.resolve_right fun h => h hFits
    exact .inl ⟨hFits, rfl⟩
  · exact .inr ⟨hFits, rfl⟩

/-- **Every safe step is a step of the atomic store.** -/
theorem holds_step {n n' : Node} {e : Event} (hHolds : Holds L n st)
    (hStep : Restrict (Safe L) (Step L) n e n') : ∃ st', AtomicStep L st e st' ∧ Holds L n' st' := by
  obtain ⟨hSafe, hStep⟩ := hStep
  cases hStep with
  | mount hMount =>
    obtain ⟨s, hMount', hUp, -⟩ := holds_mount hHolds hSafe
    obtain ⟨rfl, -⟩ := Prod.mk.inj (hMount.unique hMount')
    exact ⟨st, rfl, hUp⟩
  | mountCut count hMount =>
    obtain ⟨s, hMount', -, hCut⟩ := holds_mount hHolds hSafe
    obtain ⟨rfl, -⟩ := Prod.mk.inj (hMount.unique hMount')
    exact ⟨st, rfl, hCut count⟩
  | @flush s batch hBatch =>
    obtain ⟨hM, hSound, hIdle⟩ := hHolds
    rcases flushed_cases hM hSound.super hBatch with ⟨hNothing, hEq⟩ | ⟨hNe, hFits, hM', -, hDisk⟩
    · rw [hEq]
      exact ⟨st, AtomicStep.flush_nothing hNothing, hM.of_setTxn _, hSound, hIdle⟩
    · refine ⟨putAll st batch, .inl ⟨hFits, rfl⟩, hM', ?_⟩
      rw [hDisk]
      exact flush_complete hSound hIdle ⟨hNe, hFits, hBatch, hSafe⟩ hM.seq_lt
  | @flushCut s batch count hBatch =>
    obtain ⟨hM, hSound, hIdle⟩ := hHolds
    rcases flushed_cases hM hSound.super hBatch with ⟨-, hEq⟩ | ⟨hNe, hFits, -, hLog, -⟩
    · refine ⟨st, .inl rfl, ?_⟩
      rw [hEq, show (s.setTxn (collect L batch)).log = s.log from rfl, drop_length, take_nil]
      exact ⟨hSound, .inl hIdle⟩
    · rw [hLog, drop_left]
      exact flush_cut hSound hIdle ⟨hNe, hFits, hBatch, hSafe⟩ hM.seq_lt count

theorem Fresh.holds (hFresh : Fresh L d) : Holds L (.down d) (d L.dev) :=
  ⟨⟨hFresh.super, fun i hFirst hi hMagic => absurd hMagic (hFresh.ring i hFirst.le hi)⟩,
    .inl ⟨hFresh.start_eq, fun _ _ => rfl⟩⟩

/-- **Crash atomicity.**  However flushes, mounts and crashes in the middle of either
follow one another, as long as every step is safe the disk is at every mount what an
atomic store would be, and mounting it again succeeds. -/
theorem crashAtomic_of_safe (L : Layout) (d₀ : Disks) (hFresh : Fresh L d₀) :
    CrashAtomic L (Safe L) d₀ := by
  have hSim : ∀ es n, Run (Restrict (Safe L) (Step L)) (.down d₀) es n →
      ∃ st, Run (AtomicStep L) (d₀ L.dev) es st ∧ Holds L n st :=
    fun es n hRun => Run.simulation (R := Holds L) (A := AtomicStep L)
      (fun _ _ _ _ hHolds hStep => holds_step hHolds hStep) hRun hFresh.holds
  constructor
  · intro es s hRun
    obtain ⟨st, hAbs, -, -, hIdle⟩ := hSim es _ hRun
    exact ⟨st, hAbs, hIdle.holds⟩
  · intro es d hRun
    obtain ⟨st, -, hHolds⟩ := hSim es _ hRun
    obtain ⟨s, hMount, -⟩ := holds_mount hHolds (.inl rfl)
    exact ⟨s, hMount⟩

end Simulation

/-! ## What block zero does to it

A root image has 4096-byte blocks, so its ext4 superblock is in block zero, and every
batch that allocates collects it. Recovery passes a target of zero over. -/

/-- A journal of sixteen 4096-byte blocks behind block ten. -/
def smallLayout : Layout where
  dev := 0
  blockSize := 4096
  place := fun i => 10 + i
  first := 1
  maxlen := 16
  blockSize_ge := by decide
  blockSize_le := by decide
  place_ne_zero := fun i _ => by omega
  place_inj := fun i j _ _ h => by omega
  first_pos := by decide
  first_lt := by decide
  maxlen_lt := by decide

/-- The superblock of that journal, empty. -/
def smallSuper : Block :=
  wr32be (wr32be (wr32be (wr32be (wr32be zeroBlock 0 jbd2Magic) 12 4096) 16 16) 20 1) 24 1

/-- The disk with that journal, zero everywhere else. -/
def smallDisk : Disks := fun _ b => if b = 10 then smallSuper else zeroBlock

theorem smallDisk_fresh : Fresh smallLayout smallDisk := by
  refine ⟨⟨by decide, by decide, by decide, by decide⟩, by decide, fun i hFirst _ => ?_⟩
  have hRing : smallDisk smallLayout.dev (smallLayout.place i) = zeroBlock :=
    if_neg (by unfold smallLayout at *; simp only at *; omega)
  rw [hRing, rd32be_zeroBlock]
  decide

/-- New contents for block zero and block one. -/
def superBatch : Writes := [(0, fun _ => 1), (1, fun _ => 1)]

theorem collected_of_low {batch : Writes} (hLen : batch.length ≤ txnMax)
    (hNodup : (batch.map Prod.fst).Nodup) (hLow : ∀ b ∈ batch.map Prod.fst, b < 10) :
    Collected smallLayout batch := by
  refine ⟨hLen, hNodup, fun p hp hIn => ?_⟩
  obtain ⟨i, -, hPlace⟩ := hIn
  have hTen : 10 + i = p.1 := hPlace
  have hBlock := hLow p.1 (mem_map_of_mem hp)
  omega

theorem superBatch_collected : Collected smallLayout superBatch :=
  collected_of_low (by decide) (by decide) (by decide)

theorem superBatch_batch : Batch smallLayout (collect smallLayout superBatch) := by
  refine ⟨by simp [collect, superBatch], by decide, by decide, ?_, ?_⟩
  · intro e he
    obtain ⟨p, hp, rfl⟩ := List.mem_map.mp he
    have hSmall : p.1 % 2 ^ 32 = p.1 := by
      simp only [superBatch, mem_cons, not_mem_nil, or_false] at hp
      rcases hp with rfl | rfl <;> rfl
    rw [hSmall]
    exact superBatch_collected.outside p hp
  · intro e he
    obtain ⟨p, hp, rfl⟩ := List.mem_map.mp he
    rfl

/-- A flush of `superBatch` that stops once the batch is published, and the mount
behind it: block one is new and block zero is old. -/
theorem superBatch_torn : ∃ s, Run (Restrict (fun _ _ => True) (Step smallLayout)) (.down smallDisk)
    [.mount false, .flushCut superBatch 5, .mount false] (.up s) ∧
      s.disk 0 0 = zeroBlock ∧ s.disk 0 1 = fun _ => 1 := by
  have hB := superBatch_batch
  obtain ⟨⟨hSuper, hRing⟩, -⟩ := smallDisk_fresh.holds
  obtain ⟨s₀, hMount₀, hM₀, hDisk₀, -⟩ := mounts_clean hSuper smallDisk_fresh.start_eq false
  have hSound₀ : Sound smallLayout s₀.disk := hDisk₀ ▸ ⟨hSuper, hRing⟩
  have hCut := Step.flushCut (s := s₀) 5 superBatch_collected
  rcases flushed_cases hM₀ hSound₀.super superBatch_collected with
    ⟨hNothing, -⟩ | ⟨-, -, -, hLog, -⟩
  · rcases hNothing with h | h
    · simp [superBatch] at h
    · exact absurd (show Fits smallLayout superBatch from by unfold Fits; decide) h
  rw [hLog, drop_left] at hCut
  generalize hWrites : (flushWrites smallLayout (s₀.disk smallLayout.dev (smallLayout.place 0))
    s₀.g.jrnlSeq (collect smallLayout superBatch)).take 5 = ws at hCut
  have hTake : ws = journalWrites smallLayout s₀.g.jrnlSeq (collect smallLayout superBatch) ++
      superWrite smallLayout (s₀.disk smallLayout.dev (smallLayout.place 0)) s₀.g.jrnlSeq
        smallLayout.first :: homeWrites smallLayout.dev [] := hWrites.symm
  -- the batch is published, and both blocks are still as they were
  have hP : Pending smallLayout (applyWrites s₀.disk ws) s₀.g.jrnlSeq
      (collect smallLayout superBatch) := by
    rw [hTake]
    exact pending_of_published _ hB.fits hM₀.seq_lt fun _ he => absurd he not_mem_nil
  have hRingWrites := journalWrites_ringWrite (L := smallLayout) hB.fits hM₀.seq_lt
  have hSound₁ : Sound smallLayout (applyWrites s₀.disk ws) := by
    have hIdle₀ : Idle smallLayout s₀.disk (s₀.disk smallLayout.dev) :=
      ⟨hDisk₀ ▸ smallDisk_fresh.start_eq, fun _ _ => rfl⟩
    rw [hTake, applyWrites_append]
    exact (hSound₀.of_ringWrites hIdle₀ hRingWrites).1.of_superWrite _ _ hSound₀.super
  have hZero : applyWrites s₀.disk ws 0 0 = zeroBlock := by
    rw [hTake, applyWrites_append, applyWrites_cons, homeWrites, map_nil, applyWrites_nil,
      applyWrite_of_ne _ _ (.inr (show 10 + 0 ≠ 0 by decide)), applyWrites_of_untouched, hDisk₀]
    · rfl
    · refine fun w hw => .inr ((hRingWrites w hw).block_ne_outside ?_)
      exact superBatch_collected.outside (0, fun _ => 1) (by simp [superBatch])
  -- recovery writes block one and passes block zero over
  obtain ⟨s₂, seq', hMount₂, -, -, hDisk₂⟩ := mounts_pending hSound₁.super hSound₁.ring hB hP
  have hWrites₂ : ∀ b, recoverWrites smallLayout b seq' (collect smallLayout superBatch) =
      [⟨0, 1, fun _ => 1, 0⟩, superWrite smallLayout b seq' 0] := fun _ => rfl
  rw [hWrites₂] at hDisk₂
  refine ⟨s₂, ((Run.nil _).snoc ⟨trivial, .mount hMount₀⟩).snoc ⟨trivial, hCut⟩
    |>.snoc ⟨trivial, .mount hMount₂⟩, ?_, ?_⟩
  · rw [hDisk₂, ← hZero]
    refine applyWrites_of_untouched _ _ fun w hw => .inr ?_
    simp only [mem_cons, not_mem_nil, or_false] at hw
    rcases hw with rfl | rfl
    · exact Nat.one_ne_zero
    · exact (show 10 + 0 ≠ 0 by decide)
  · rw [hDisk₂, applyWrites_cons, applyWrites_cons, applyWrites_nil,
      applyWrite_of_ne _ _ (.inr (show 10 + 0 ≠ 1 by decide))]
    exact applyWrite_self _ ⟨0, 1, fun _ => 1, 0⟩

/-- The machine stops in a flush that collected block zero, right after the batch is
published. The next mount finds half of the batch. -/
theorem not_crashAtomic_superBatch :
    Fresh smallLayout smallDisk ∧ ¬ CrashAtomic smallLayout (fun _ _ => True) smallDisk := by
  refine ⟨smallDisk_fresh, fun hAtomic => ?_⟩
  obtain ⟨s, hRun, hOld, hNew⟩ := superBatch_torn
  obtain ⟨st, hAbs, hHolds⟩ := hAtomic.1 _ _ hRun
  obtain ⟨st₂, hAbs₂, rfl⟩ := Run.snoc_inv
    [Event.mount false, Event.flushCut superBatch 5] hAbs
  obtain ⟨st₁, hAbs₁, hFlush⟩ := Run.snoc_inv [Event.mount false] hAbs₂
  obtain ⟨st₀, hAbs₀, rfl⟩ := Run.snoc_inv [] hAbs₁
  obtain rfl := hAbs₀.nil_inv
  have hZero := hHolds 0 (superBatch_collected.outside (0, fun _ => 1) (by simp [superBatch]))
  have hOne := hHolds 1 (superBatch_collected.outside (1, fun _ => 1) (by simp [superBatch]))
  have hDiffer : (fun _ => 1 : Block) ≠ zeroBlock :=
    fun hEq => absurd (congrFun hEq 0) (by decide)
  rcases hFlush with rfl | rfl
  · exact hDiffer (hNew.symm.trans hOne)
  · exact hDiffer (hOld.symm.trans hZero).symm

/-- A batch for block one. -/
def firstBatch : Writes := [(1, fun _ => 1)]

/-- A later one, for block one and block two. -/
def laterBatch : Writes := [(1, fun _ => 2), (2, fun _ => 2)]

/-- An empty disk: a flush, then one that stops once its batch is published, and the mount that
recovers it. -/
theorem crashAtomic_smallDisk : CrashAtomic smallLayout (Safe smallLayout) smallDisk ∧
    ∃ s, Run (Restrict (Safe smallLayout) (Step smallLayout)) (.down smallDisk)
      [.mount false, .flush firstBatch, .flushCut laterBatch 5, .mount false] (.up s) := by
  have hAtomic := crashAtomic_of_safe smallLayout smallDisk smallDisk_fresh
  obtain ⟨s₀, hMount₀, -⟩ := mounts_clean smallDisk_fresh.super smallDisk_fresh.start_eq false
  have hFirst : Collected smallLayout firstBatch :=
    collected_of_low (by decide) (by decide) (by decide)
  have hLater : Collected smallLayout laterBatch :=
    collected_of_low (by decide) (by decide) (by decide)
  have hSafe : ∀ p ∈ firstBatch ++ laterBatch, p.1 ≠ 0 ∧ p.1 < 2 ^ 32 := by
    intro p hp
    exact (by decide : ∀ b ∈ (firstBatch ++ laterBatch).map Prod.fst, b ≠ 0 ∧ b < 2 ^ 32) p.1
      (mem_map_of_mem hp)
  have hUp : Run (Restrict (Safe smallLayout) (Step smallLayout)) (.down smallDisk)
      [.mount false] (.up s₀) := (Run.nil _).snoc ⟨.inl rfl, .mount hMount₀⟩
  have hFlushSafe : Safe smallLayout (.up s₀) (.flush firstBatch) :=
    fun p hp => hSafe p (mem_append_left _ hp)
  have hCutSafe : ∀ s, Safe smallLayout (.up s) (.flushCut laterBatch 5) :=
    fun _ p hp => hSafe p (mem_append_right _ hp)
  have hCut := (hUp.snoc ⟨hFlushSafe, .flush hFirst⟩).snoc ⟨hCutSafe _, .flushCut 5 hLater⟩
  obtain ⟨s, hMount⟩ := hAtomic.2 _ _ hCut
  exact ⟨hAtomic, s, hCut.snoc ⟨.inl rfl, .mount hMount⟩⟩

end LeahOS.Vfsd
