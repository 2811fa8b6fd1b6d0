import LeahOS.Lib.Fuel
import LeahOS.Lib.Run
import LeahOS.Vfsd.FlushSpec
import LeahOS.Vfsd.Mount

/-!
# Blocks go to the disk they were collected for

Every block that reaches a disk remembers, as a ghost, the disk of the filesystem
that was current when `write_block` was called for it. `Delivered s` says that no
write of the log went anywhere else.

The batch does not remember it: it holds block numbers, and they are written to
whatever is current when the batch is flushed. So the invariant is that the blocks of
an open batch all belong to the current filesystem, and the places that move `g_cur`
have to leave an empty batch behind. `Steady` says what the block layer leaves alone,
and `Careful` is the condition under which each of those places keeps the invariant.
-/

namespace LeahOS.Vfsd
open Lib Function List Option

/-- Every block went to the disk it was written for. -/
def Delivered (s : Server) : Prop := ∀ w ∈ s.log, w.dev = w.owner

/-- The collected blocks all belong to the current filesystem. -/
def BatchOwned (s : Server) : Prop := ∀ e ∈ s.txn, e.owner = s.g.dev

/-! ## What the block layer leaves alone -/

/-- Nothing but the contents of the current disk, the journal's sequence number, the
scratch buffers and the batch has changed, and the batch has not grown. -/
structure Steady (s s' : Server) : Prop where
  cur_eq : s'.cur = s.cur
  open_eq : s'.txnOpen = s.txnOpen
  bad_eq : s'.bad = s.bad
  used_eq : ∀ i, (s'.fs i).used = (s.fs i).used
  dev_eq : ∀ i, (s'.fs i).dev = (s.fs i).dev
  disk_eq : ∀ dev, dev ≠ s.g.dev → s'.disk dev = s.disk dev
  txn_sub : ∀ e ∈ s'.txn, e ∈ s.txn
  delivered : Delivered s → Delivered s'

theorem Steady.refl (s : Server) : Steady s s :=
  ⟨rfl, rfl, rfl, fun _ => rfl, fun _ => rfl, fun _ _ => rfl, fun _ h => h, fun h => h⟩

variable {s s' : Server} {r : Server × Bool} {vol : Nat → Option Volume} {dev fuel : Nat}

theorem Steady.g_dev_eq (h : Steady s s') : s'.g.dev = s.g.dev := by
  unfold Server.g
  rw [h.cur_eq]
  exact h.dev_eq s.cur

theorem Steady.trans {t u : Server} (hst : Steady s t) (htu : Steady t u) : Steady s u where
  cur_eq := htu.cur_eq.trans hst.cur_eq
  open_eq := htu.open_eq.trans hst.open_eq
  bad_eq := htu.bad_eq.trans hst.bad_eq
  used_eq i := (htu.used_eq i).trans (hst.used_eq i)
  dev_eq i := (htu.dev_eq i).trans (hst.dev_eq i)
  disk_eq dev hNe := (htu.disk_eq dev (hst.g_dev_eq ▸ hNe)).trans (hst.disk_eq dev hNe)
  txn_sub e he := hst.txn_sub e (htu.txn_sub e he)
  delivered h := htu.delivered (hst.delivered h)

/-- The idiom `if (call() != 0) return -1;` is steady when both halves are. -/
theorem Steady.andThen {rest : Server → Server × Bool} (hr : Steady s r.1)
    (hRest : ∀ t, Steady s t → Steady t (rest t).1) :
    Steady s (Vfsd.andThen r rest).1 := by
  unfold Vfsd.andThen
  split
  · exact hr.trans (hRest r.1 hr)
  · exact hr

theorem steady_setJbuf (s : Server) (b : Block) : Steady s (s.setJbuf b) :=
  ⟨rfl, rfl, rfl, fun _ => rfl, fun _ => rfl, fun _ _ => rfl, fun _ h => h, fun h => h⟩

theorem steady_setJdata (s : Server) (b : Block) : Steady s (s.setJdata b) :=
  ⟨rfl, rfl, rfl, fun _ => rfl, fun _ => rfl, fun _ _ => rfl, fun _ h => h, fun h => h⟩

theorem steady_clear (s : Server) : Steady s (s.setTxn []) :=
  ⟨rfl, rfl, rfl, fun _ => rfl, fun _ => rfl, fun _ _ => rfl,
    fun _ h => absurd h not_mem_nil, fun h => h⟩

theorem steady_setG {f : Fs} (hUsed : f.used = s.g.used) (hDev : f.dev = s.g.dev) :
    Steady s (s.setG f) := by
  refine ⟨rfl, rfl, rfl, fun i => ?_, fun i => ?_, fun _ _ => rfl, fun _ h => h, fun h => h⟩
  · by_cases hi : i = s.cur
    · subst hi
      simpa [Server.setG, Server.g] using hUsed
    · simp [Server.setG, update_of_ne hi]
  · by_cases hi : i = s.cur
    · subst hi
      simpa [Server.setG, Server.g] using hDev
    · simp [Server.setG, update_of_ne hi]

variable {owner : Nat} {point : List Char}

/-- A block of the current filesystem, written. -/
theorem putBlock_steady (block : Nat) (data : Block) (hOwner : owner = s.g.dev) :
    Steady s (putBlock s block data owner).1 := by
  unfold putBlock
  split
  · exact .refl s
  · refine ⟨rfl, rfl, rfl, fun _ => rfl, fun _ => rfl, fun dev hNe => ?_, fun _ h => h,
      fun hAll w hw => ?_⟩
    · exact update_of_ne hNe _ _
    · rcases mem_append.mp hw with hw | hw
      · exact hAll w hw
      · obtain rfl := mem_singleton.mp hw
        exact hOwner.symm

theorem jrnlWrite_steady (index : Nat) (data : Block) (hOwner : owner = s.g.dev) :
    Steady s (jrnlWrite s index data owner).1 := by
  unfold jrnlWrite
  split
  · exact .refl s
  · exact putBlock_steady _ data hOwner

theorem writeHome_steady : ∀ (entries : List TxnEntry) (s : Server),
    (∀ e ∈ entries, e.owner = s.g.dev) → Steady s (writeHome s entries).1
  | [], s, _ => .refl s
  | e :: rest, s, hOwned => by
      refine (putBlock_steady _ _ (hOwned e mem_cons_self)).andThen fun t ht => ?_
      refine writeHome_steady rest t fun x hx => ?_
      rw [ht.g_dev_eq]
      exact hOwned x (mem_cons_of_mem e hx)

theorem writeCopies_steady (entries : List TxnEntry) (index : Nat)
    (hOwned : ∀ e ∈ entries, e.owner = s.g.dev) : Steady s (writeCopies s index entries).1 := by
  induction entries generalizing s index with
  | nil =>
    exact .refl s
  | cons e rest ih =>
    have hOwner : e.owner = (s.setJdata (escapeBlock e.buf)).g.dev := by
      rw [setJdata_g]
      exact hOwned e mem_cons_self
    have hFirst := (steady_setJdata s _).trans
      (jrnlWrite_steady index (escapeBlock e.buf) hOwner)
    refine hFirst.andThen fun t ht => ih (index + 1) fun x hx => ?_
    rw [ht.g_dev_eq]
    exact hOwned x (mem_cons_of_mem e hx)

theorem publishSuper_steady (s : Server) (seq start : Nat) :
    Steady s (publishSuper s seq start).1 := by
  unfold publishSuper
  split
  · exact .refl s
  · split
    · exact steady_setJbuf s _
    · exact (steady_setJbuf s _).trans (jrnlWrite_steady _ _ rfl)

/-- A flush, whether it succeeds or fails half way, writes to the disk of the current
filesystem. -/
theorem txnFlush_steady (hOwned : BatchOwned s) : Steady s (txnFlush s).1 := by
  unfold txnFlush
  split
  · exact .refl s
  split
  · exact (writeHome_steady s.txn s hOwned).andThen fun t _ => steady_clear t
  split
  · exact .refl s
  have hOwned' : ∀ t, Steady s t → ∀ e ∈ s.txn, e.owner = t.g.dev :=
    fun t ht e he => (hOwned e he).trans ht.g_dev_eq.symm
  refine .andThen ((steady_setJbuf s _).trans (jrnlWrite_steady _ _ rfl)) fun t ht => ?_
  refine .andThen (writeCopies_steady _ _ (hOwned' t ht)) fun u hu => ?_
  refine .andThen ((steady_setJbuf u _).trans (jrnlWrite_steady _ _ rfl)) fun v hv => ?_
  refine .andThen (publishSuper_steady v _ _) fun w hw => ?_
  refine .andThen (writeHome_steady _ _ (hOwned' w
    (((ht.trans hu).trans hv).trans hw))) fun x _ => ?_
  have hSeq : Steady x (x.setSeq ((s.g.jrnlSeq + 1) % 2 ^ 32)) := steady_setG rfl rfl
  exact (hSeq.trans (publishSuper_steady _ _ _)).trans (steady_clear _)

/-! ## The invariant -/

/-- Between two steps of the loop: nothing has gone astray, an open batch belongs to
the current filesystem, and the current slot and the root's are in use. -/
structure RouteInv (s : Server) : Prop where
  delivered : Delivered s
  owned : s.txnOpen = true → BatchOwned s
  root_used : (s.fs 0).used = true
  cur_used : s.g.used = true
  cur_lt : s.cur < fsMax

theorem BatchOwned.of_steady (h : Steady s s') (hOwned : BatchOwned s) :
    BatchOwned s' :=
  fun e he => (hOwned e (h.txn_sub e he)).trans h.g_dev_eq.symm

theorem RouteInv.of_steady (h : Steady s s') (hInv : RouteInv s) : RouteInv s' where
  delivered := h.delivered hInv.delivered
  owned hOpen := (hInv.owned (h.open_eq ▸ hOpen)).of_steady h
  root_used := (h.used_eq 0).trans hInv.root_used
  cur_used := by
    unfold Server.g
    rw [h.cur_eq, h.used_eq]
    exact hInv.cur_used
  cur_lt := h.cur_eq ▸ hInv.cur_lt

/-- A new batch of blocks of the current filesystem. -/
theorem RouteInv.of_setTxn {entries : List TxnEntry} (hInv : RouteInv s)
    (hOwned : ∀ e ∈ entries, e.owner = s.g.dev) : RouteInv (s.setTxn entries) :=
  { hInv with owned := fun _ => hOwned }

theorem writeBlock_inv (block : Nat) (buf : Server → Block) (hInv : RouteInv s) :
    RouteInv (writeBlock s block buf).1 := by
  unfold writeBlock
  by_cases hOpen : s.txnOpen = true
  · have hOwned := hInv.owned hOpen
    rw [if_pos hOpen]
    split
    · -- the block is in the batch already
      refine hInv.of_setTxn fun e he => ?_
      obtain ⟨x, hx, rfl⟩ := List.mem_map.mp he
      split
      · rfl
      · exact hOwned x hx
    · -- a full batch is flushed first
      have hFlush : Steady s (if s.txn.length = txnMax then txnFlush s else (s, true)).1 := by
        split
        · exact txnFlush_steady hOwned
        · exact .refl s
      generalize (if s.txn.length = txnMax then txnFlush s else (s, true)) = r at hFlush
      have hInv' := hInv.of_steady hFlush
      simp only [andThen]
      split
      · refine hInv'.of_setTxn fun e he => ?_
        rcases mem_append.mp he with he | he
        · exact hOwned.of_steady hFlush e he
        · obtain rfl := mem_singleton.mp he
          rfl
      · exact hInv'
  · rw [if_neg hOpen]
    exact hInv.of_steady (putBlock_steady block _ rfl)

/-! ## When the current filesystem may change -/

/-- The batch can be written: it is empty, or there is no journal and its blocks are
sound, or the disk works, the journal is in order and the batch fits. -/
def Flushable (s : Server) : Prop :=
  s.txn = [] ∨ (s.g.hasJournal = false ∧ ∀ e ∈ s.txn, s.bad s.g.dev e.target = false) ∨
  ∃ L : Layout, Mounted L s ∧ L.first + s.txn.length + 2 ≤ L.maxlen ∧
    rd32be (s.disk L.dev (L.place 0)) 0 = jbd2Magic ∧ ∀ e ∈ s.txn, e.target ≠ L.place 0

/-- The journal of a disk has nothing to recover. -/
def Quiet (vol : Nat → Option Volume) (d : Disks) (dev : Nat) : Prop :=
  ∀ v place, vol dev = some v → v.journal = some place → place 0 ≠ 0 →
    rd32be (d dev (place 0)) 0 = jbd2Magic → rd32be (d dev (place 0)) 12 = v.blockSize →
    rd32be (d dev (place 0)) 28 = 0

/-- The condition on a step. A path that leads to another mount finds a batch that can
be written; so does a mount, and the disk it mounts has nothing to recover and the
block size of the others, for which the cache is laid out (`Layer.readBlock_toServer`);
an unmount finds an empty batch, or one of the filesystem it unmounts that can be
written. -/
def Careful (vol : Nat → Option Volume) (s : Server) : LoopEvent → Prop
  | .access path => (routeBest s path).1 = s.cur ∨ Flushable s
  | .mount uid dev _ => uid ≠ 0 ∨ (Flushable s ∧ Quiet vol s.disk dev ∧
      ∀ v, vol dev = some v → v.blockSize = s.g.blockSize)
  | .umount uid point => uid ≠ 0 ∨ s.txn = [] ∨
      (Flushable s ∧ ∀ i, (s.fs i).used = true → (s.fs i).mountPoint = point → i = s.cur)
  | _ => True

theorem writeHome_ok : ∀ (entries : List TxnEntry) (s : Server),
    (∀ e ∈ entries, s.bad s.g.dev e.target = false) → (writeHome s entries).2 = true
  | [], _, _ => rfl
  | e :: rest, s, hGood => by
      rw [writeHome, putBlock_eq (hGood e mem_cons_self), andThen_true]
      exact writeHome_ok rest _ fun x hx => hGood x (mem_cons_of_mem e hx)

/-- A batch that can be written leaves an empty one behind. -/
theorem Flushable.txn_nil (hFlush : Flushable s) : (txnFlush s).1.txn = [] := by
  rcases hFlush with hNil | ⟨hNone, hGood⟩ | ⟨L, hM, hFits, hMagic, hOut⟩
  · unfold txnFlush
    rw [if_pos (by simp [hNil])]
    exact hNil
  · have hHome := writeHome_ok s.txn s hGood
    unfold txnFlush
    by_cases hEmpty : s.txn.isEmpty = true
    · rw [if_pos hEmpty]
      simpa using hEmpty
    · rw [if_neg hEmpty, if_pos (by simp [hNone]), andThen, if_pos hHome]
      rfl
  · by_cases hNil : s.txn = []
    · unfold txnFlush
      rw [if_pos (by simp [hNil])]
      exact hNil
    · obtain ⟨jb, jd, hEq⟩ := txnFlush_eq hM hNil hFits hMagic hOut
      rw [hEq]
      rfl

/-! ## The places that move `g_cur` -/

/-- With an empty batch any slot in use may become current. -/
theorem RouteInv.of_cur {i : Nat} (hInv : RouteInv s) (hNil : s.txn = [])
    (hUsed : (s.fs i).used = true) (hLt : i < fsMax) : RouteInv { s with cur := i } :=
  ⟨hInv.delivered, fun _ _ he => absurd (hNil ▸ he) not_mem_nil, hInv.root_used, hUsed, hLt⟩

/-- The loop of `route` ends on the root or on a slot in use. -/
theorem routeBest_used (s : Server) (path : List Char) (hRoot : (s.fs 0).used = true) :
    (s.fs (routeBest s path).1).used = true ∧ (routeBest s path).1 < fsMax := by
  have hLoop : ∀ (l : List Nat) (best : Nat × Nat), (∀ i ∈ l, i < fsMax) →
      (s.fs best.1).used = true ∧ best.1 < fsMax →
      (s.fs (l.foldl (routeStep s path) best).1).used = true ∧
        (l.foldl (routeStep s path) best).1 < fsMax := by
    intro l
    induction l with
    | nil => exact fun _ _ h => h
    | cons i rest ih =>
      intro best hAll hBest
      refine ih _ (fun j hj => hAll j (mem_cons_of_mem i hj)) ?_
      unfold routeStep
      simp only
      split
      next hTaken =>
        simp only [Bool.and_eq_true] at hTaken
        exact ⟨hTaken.1.1.1, hAll i mem_cons_self⟩
      · exact hBest
  exact hLoop _ _ (fun i hi => mem_range.mp hi) ⟨hRoot, by decide⟩

theorem route_inv (path : List Char) (hInv : RouteInv s) (hOpen : s.txnOpen = true)
    (hCareful : (routeBest s path).1 = s.cur ∨ Flushable s) : RouteInv (route s path).1 := by
  obtain ⟨hUsed, hLt⟩ := routeBest_used s path hInv.root_used
  unfold route
  by_cases hSame : (routeBest s path).1 = s.cur
  · simp only [hSame, ne_eq, not_true_eq_false, false_and, if_false]
    exact hInv
  · have hFlush := hCareful.resolve_left hSame
    have hSteady := txnFlush_steady (hInv.owned hOpen)
    simp only [hSame, hOpen, ne_eq, not_false_eq_true, and_self, if_true]
    refine (hInv.of_steady hSteady).of_cur hFlush.txn_nil ?_ hLt
    rw [hSteady.used_eq]
    exact hUsed

theorem txnBegin_inv (hInv : RouteInv s) : RouteInv (txnBegin s) := by
  unfold txnBegin
  split
  · exact hInv
  · exact { hInv with owned := fun _ _ he => absurd he not_mem_nil }

theorem txnEnd_inv (force old : Bool) (hInv : RouteInv s) (hOpen : s.txnOpen = true) :
    RouteInv (txnEnd s force old).1 := by
  unfold txnEnd
  rw [if_neg (by simp [hOpen])]
  split
  · exact hInv
  · have hInv' := hInv.of_steady (txnFlush_steady (hInv.owned hOpen))
    exact { hInv' with owned := fun h => absurd h Bool.false_ne_true }

theorem handleUmount_inv (uid : Nat) (point : List Char) (hInv : RouteInv s)
    (hOpen : s.txnOpen = true) (hCareful : uid ≠ 0 ∨ s.txn = [] ∨ (Flushable s ∧
      ∀ i, (s.fs i).used = true → (s.fs i).mountPoint = point → i = s.cur)) :
    RouteInv (handleUmount s uid point) := by
  unfold handleUmount
  split
  · exact hInv
  next hUid =>
  split
  · exact hInv
  next i hFind =>
  have hMem := mem_range'_1.mp (mem_of_find?_eq_some hFind)
  have hMatch := List.find?_some hFind
  simp only [Bool.and_eq_true, beq_iff_eq] at hMatch
  -- the flush writes an empty batch, or the batch of the slot it is for
  obtain ⟨hSteady, hNil⟩ : Steady { s with cur := i } (txnFlush { s with cur := i }).1 ∧
      (txnFlush { s with cur := i }).1.txn = [] := by
    rcases (not_not.mp hUid ▸ hCareful).resolve_left (fun h => h rfl) with hNil | ⟨hFlush, hOnly⟩
    · have hEq : txnFlush { s with cur := i } = ({ s with cur := i }, true) := by
        unfold txnFlush
        rw [if_pos (by simp [hNil])]
      rw [hEq]
      exact ⟨.refl _, hNil⟩
    · obtain rfl := hOnly i hMatch.1 hMatch.2
      exact ⟨txnFlush_steady (hInv.owned hOpen), hFlush.txn_nil⟩
  refine ⟨hSteady.delivered hInv.delivered, fun _ _ he => absurd (hNil ▸ he) not_mem_nil,
    ?_, ?_, ?_⟩
  · show (update (txnFlush { s with cur := i }).1.fs i Fs.zero 0).used = true
    rw [update_of_ne (by omega), hSteady.used_eq]
    exact hInv.root_used
  · show (update (txnFlush { s with cur := i }).1.fs i Fs.zero
      (if s.cur = i then 0 else s.cur)).used = true
    split
    · rw [update_of_ne (by omega), hSteady.used_eq]
      exact hInv.root_used
    next hNe =>
      rw [update_of_ne hNe, hSteady.used_eq]
      exact hInv.cur_used
  · show (if s.cur = i then 0 else s.cur) < fsMax
    split
    · decide
    · exact hInv.cur_lt

/-! ## Mounting -/

theorem journalOpen_steady (s : Server) (v : Volume) : Steady s (journalOpen s v) := by
  have hOff : Steady s (s.setG { s.g with hasJournal := false }) := steady_setG rfl rfl
  unfold journalOpen
  cases v.journal with
  | none => exact hOff
  | some place =>
    have hPlace := hOff.trans (steady_setG (f := { (s.setG { s.g with hasJournal := false }).g with
      journal := place }) rfl rfl)
    simp only
    split
    · exact hPlace
    split
    · exact hPlace
    split
    · exact hPlace.trans (steady_setJbuf _ _)
    · exact (hPlace.trans (steady_setJbuf _ _)).trans (steady_setG rfl rfl)

/-- A disk with nothing to recover is opened with nothing to recover. -/
theorem journalOpen_quiet {v : Volume} (hQuiet : Quiet vol s.disk s.g.dev)
    (hVol : vol s.g.dev = some v) (hSize : s.g.blockSize = v.blockSize) (hNil : s.txn = []) :
    (journalOpen s v).g.hasJournal = false ∨ (journalOpen s v).g.jrnlStart = 0 := by
  unfold journalOpen
  cases hJournal : v.journal with
  | none =>
    left
    simp only [setG_g]
  | some place =>
    simp only
    split
    · left
      simp only [setG_g]
    next hZero =>
    split
    · left
      simp only [setG_g]
    next b hRead =>
    split
    · left
      simp only [setJbuf_g, setG_g]
    next hHeader =>
    right
    -- the batch is empty, so the superblock was read from the disk
    have hb : b = s.disk s.g.dev (place 0) := by
      simp only [readBlock, txnPeek, Server.setG, hNil, List.find?_nil, Option.map_none,
        ite_self, diskRead] at hRead
      split at hRead
      · cases hRead
      · simpa [Server.g] using (some.inj hRead).symm
    push Not at hHeader
    simp only [setG_g, setJbuf_g] at hHeader ⊢
    rw [hb] at hHeader ⊢
    exact hQuiet v place hVol hJournal hZero hHeader.1 (hHeader.2.trans hSize)

/-- Such a disk is mounted without a write. -/
theorem mountReadSb_quiet (fuel : Nat) (hQuiet : Quiet vol s.disk s.g.dev) (hNil : s.txn = []) :
    ∃ s' ok, mountReadSb vol fuel s = some (s', ok) ∧ Steady s s' ∧ s'.txn = [] := by
  unfold mountReadSb
  cases hVol : vol s.g.dev with
  | none => exact ⟨s, false, rfl, .refl s, hNil⟩
  | some v =>
    have hSize : Steady s (s.setG { s.g with blockSize := v.blockSize }) := steady_setG rfl rfl
    simp only
    split
    · exact ⟨_, false, rfl, hSize, hNil⟩
    · have hOpen := hSize.trans (journalOpen_steady _ v)
      have hQuiet' : Quiet vol (s.setG { s.g with blockSize := v.blockSize }).disk
          (s.setG { s.g with blockSize := v.blockSize }).g.dev := by
        simpa only [setG_g, setG_disk] using hQuiet
      have hDone := journalOpen_quiet hQuiet' (by simpa only [setG_g] using hVol)
        (by rw [setG_g]) hNil
      have hReplay : journalReplay fuel (journalOpen (s.setG { s.g with
          blockSize := v.blockSize }) v) = some (journalOpen (s.setG { s.g with
          blockSize := v.blockSize }) v, true) := by
        unfold journalReplay
        rcases hDone with h | h <;> simp [h]
      rw [hReplay]
      refine ⟨_, true, rfl, hOpen, eq_nil_iff_forall_not_mem.mpr fun e he => ?_⟩
      exact not_mem_nil (hNil ▸ hOpen.txn_sub e he)

/-- The slot `mount_at` finds is free, and no slot in use has the disk. -/
theorem findSlot_ok {slot : Nat} :
    ∀ {l : List Nat} {found : Option Nat}, findSlot s dev point l found = .ok slot →
      (found = some slot ∨ (s.fs slot).used = false) ∧
        ∀ i ∈ l, (s.fs i).used = true → (s.fs i).dev ≠ dev
  | [], found, h => by
      cases found with
      | none => cases h
      | some k =>
        rw [findSlot] at h
        split at h
        · cases h
        · cases h
          exact ⟨.inl rfl, fun i hi => absurd hi not_mem_nil⟩
  | i :: rest, found, h => by
      rw [findSlot] at h
      split at h
      · cases h
      split at h
      · cases h
      next hDev =>
      obtain ⟨hSlot, hRest⟩ := findSlot_ok h
      constructor
      · split at hSlot
        next hFree =>
          rcases hSlot with hEq | hUnused
          · obtain rfl := some.inj hEq
            simp only [Bool.and_eq_true, Bool.not_eq_true'] at hFree
            exact .inr hFree.1
          · exact .inr hUnused
        · exact hSlot
      · intro j hj hUsed
        rcases mem_cons.mp hj with rfl | hj
        · intro hEq
          exact hDev (by simp [hUsed, hEq])
        · exact hRest j hj hUsed

theorem handleMount_inv {uid : Nat} (hInv : RouteInv s) (hOpen : s.txnOpen = true)
    (hCareful : uid ≠ 0 ∨ (Flushable s ∧ Quiet vol s.disk dev))
    (hRun : handleMount vol fuel s uid dev point = some s') : RouteInv s' := by
  unfold handleMount at hRun
  split at hRun
  · cases hRun
    exact hInv
  next hUid =>
  obtain ⟨hFlush, hQuiet⟩ := (not_not.mp hUid ▸ hCareful).resolve_left fun h => h rfl
  have hSteady := txnFlush_steady (hInv.owned hOpen)
  have hInv₁ := hInv.of_steady hSteady
  have hNil := hFlush.txn_nil
  generalize (txnFlush s).1 = t at *
  unfold mountAt at hRun
  cases hFind : findSlot t dev point (List.range fsMax) none with
  | error e =>
    simp only [hFind, Option.some.injEq] at hRun
    subst hRun
    exact hInv₁
  | ok slot =>
    simp only [hFind] at hRun
    obtain ⟨hSlot, hDev⟩ := findSlot_ok hFind
    have hUnused : (t.fs slot).used = false := hSlot.resolve_left (by simp)
    have hNeCur : t.cur ≠ slot := by
      rintro rfl
      exact absurd hInv₁.cur_used (by simp [Server.g, hUnused])
    have hNeRoot : 0 ≠ slot := by
      rintro rfl
      exact absurd hInv₁.root_used (by simp [hUnused])
    -- the new disk is not the current one, so the flush did not touch it
    have hOther : dev ≠ s.g.dev := by
      rw [← hSteady.g_dev_eq]
      exact (hDev t.cur (mem_range.mpr hInv₁.cur_lt) hInv₁.cur_used).symm
    have hQuiet' : Quiet vol t.disk dev := by
      unfold Quiet
      rw [hSteady.disk_eq dev hOther]
      exact hQuiet
    obtain ⟨u, ok, hRead, hSteady', hNil'⟩ := mountReadSb_quiet fuel
      (s := { t with
        cur := slot
        fs := update t.fs slot { Fs.zero with dev := dev, blockSize := 1024 } })
      (by simpa [Server.g] using hQuiet') hNil
    -- whatever becomes of the slot, the others are as they were
    have hKeep : ∀ f : Fs, RouteInv { u with cur := t.cur, fs := update u.fs slot f } := by
      intro f
      have hUsed : ∀ i, i ≠ slot → (update u.fs slot f i).used = (t.fs i).used := by
        intro i hi
        rw [update_of_ne hi, hSteady'.used_eq]
        exact congrArg Fs.used (update_of_ne hi _ _)
      exact ⟨hSteady'.delivered hInv₁.delivered, fun _ _ he => absurd (hNil' ▸ he) not_mem_nil,
        (hUsed 0 hNeRoot).trans hInv₁.root_used, (hUsed t.cur hNeCur).trans hInv₁.cur_used,
        hInv₁.cur_lt⟩
    rw [hRead] at hRun
    cases ok with
    | false | true =>
      simp only [Option.some.injEq] at hRun
      subst hRun
      exact hKeep _

/-! ## Starting up

The root is mounted before any batch is open, so its replay writes straight to the disk
it is replaying. -/

theorem writeBlock_steady (block : Nat) (buf : Server → Block) (hClosed : s.txnOpen = false) :
    Steady s (writeBlock s block buf).1 := by
  unfold writeBlock
  rw [if_neg (by simp [hClosed])]
  exact putBlock_steady block _ rfl

theorem jrnlWalkLoop_steady : ∀ (fuel : Nat) (s : Server) (apply : Bool) (off idx : Nat),
    s.txnOpen = false → Steady s (jrnlWalkLoop fuel s apply off idx).1 := by
  intro fuel
  induction fuel with
  | zero => exact fun s _ _ _ _ => .refl s
  | succ fuel ih =>
    intro s apply off idx hClosed
    rw [jrnlWalkLoop]
    split
    · exact .refl s
    simp only
    split
    · exact .refl s
    generalize hr : (if !apply then (s, true) else _ : Server × Bool) = r
    have hSteady : Steady s r.1 := by
      subst hr
      split
      · exact .refl s
      split
      · exact .refl s
      split
      · exact steady_setJdata s _
      · refine (steady_setJdata s _).trans (writeBlock_steady _ _ ?_)
        rw [setJdata_txnOpen]
        exact hClosed
    split
    · exact hSteady
    split
    · exact hSteady
    · exact hSteady.trans (ih _ _ _ _ (hSteady.open_eq.trans hClosed))

theorem scanCommitted_steady : ∀ (fuel : Nat) (s : Server) (idx seq committed : Nat)
    {r : Server × Nat × Nat}, s.txnOpen = false →
      scanCommitted fuel s idx seq committed = some r → Steady s r.1 := by
  intro fuel
  induction fuel with
  | zero => exact fun s _ _ _ _ _ h => by simp [scanCommitted] at h
  | succ fuel ih =>
    intro s idx seq committed r hClosed h
    rw [scanCommitted] at h
    split at h
    · cases h
      exact .refl s
    next b hRead =>
    have hb := steady_setJbuf s b
    simp only at h
    split at h
    · cases h
      exact hb
    split at h
    · exact hb.trans (ih _ _ _ _ hClosed h)
    split at h
    · have hWalk := hb.trans (jrnlWalkLoop_steady (s.setJbuf b).g.blockSize _ false 12
        (jrnlNext (s.setJbuf b) idx) hClosed)
      split at h
      · cases h
        exact hWalk
      · exact hWalk.trans (ih _ _ _ _ (hWalk.open_eq.trans hClosed) h)
    split at h
    · exact hb.trans (ih _ _ _ _ hClosed h)
    · cases h
      exact hb

theorem applyCommitted_steady : ∀ (fuel : Nat) (s : Server) (idx seq done committed : Nat)
    {r : Server × Nat}, s.txnOpen = false →
      applyCommitted fuel s idx seq done committed = some r → Steady s r.1 := by
  intro fuel
  induction fuel with
  | zero => exact fun s _ _ _ _ _ _ h => by simp [applyCommitted] at h
  | succ fuel ih =>
    intro s idx seq done committed r hClosed h
    rw [applyCommitted] at h
    split at h
    · cases h
      exact .refl s
    split at h
    · cases h
      exact .refl s
    next b hRead =>
    have hb := steady_setJbuf s b
    simp only at h
    split at h
    · cases h
      exact hb
    split at h
    · exact hb.trans (ih _ _ _ _ _ hClosed h)
    split at h
    · have hWalk := hb.trans (jrnlWalkLoop_steady (s.setJbuf b).g.blockSize _ true 12
        (jrnlNext (s.setJbuf b) idx) hClosed)
      split at h
      · cases h
        exact hWalk
      · exact hWalk.trans (ih _ _ _ _ _ (hWalk.open_eq.trans hClosed) h)
    · exact hb.trans (ih _ _ _ _ _ hClosed h)

theorem retireJournal_steady (s : Server) (seq : Nat) : Steady s (retireJournal s seq).1 := by
  refine .andThen ?_ fun t _ => steady_setG rfl rfl
  split
  · exact .refl s
  split
  · exact steady_setJbuf s _
  · exact (steady_setJbuf s _).trans (jrnlWrite_steady _ _ rfl)

theorem journalReplay_steady (hClosed : s.txnOpen = false) (h : journalReplay fuel s = some r) :
    Steady s r.1 := by
  unfold journalReplay at h
  split at h
  · cases h
    exact .refl s
  split at h
  · cases h
  next t seq committed hScan =>
  have ht := scanCommitted_steady _ _ _ _ _ hClosed hScan
  split at h
  · cases h
    exact ht.trans (retireJournal_steady _ _)
  split at h
  · cases h
  next u seq' hApply =>
  cases h
  have hu := applyCommitted_steady _ _ _ _ _ _ (ht.open_eq.trans hClosed) hApply
  exact (ht.trans hu).trans (retireJournal_steady _ _)

theorem mountReadSb_steady (hClosed : s.txnOpen = false) (h : mountReadSb vol fuel s = some r) :
    Steady s r.1 := by
  unfold mountReadSb at h
  split at h
  · cases h
    exact .refl s
  next v hVol =>
  have hSize : Steady s (s.setG { s.g with blockSize := v.blockSize }) := steady_setG rfl rfl
  simp only at h
  split at h
  · cases h
    exact hSize
  have hOpen := hSize.trans (journalOpen_steady _ v)
  split at h
  · cases h
  next t ok hReplay =>
  cases h
  have hSteady := journalReplay_steady (hOpen.open_eq.trans hClosed) hReplay
  exact hOpen.trans hSteady

/-- While the root is being looked for: nothing is mounted, nothing is collected. -/
structure Starting (s : Server) : Prop where
  delivered : Delivered s
  closed : s.txnOpen = false
  cur_eq : s.cur = 0
  unused : ∀ i, (s.fs i).used = false

/-- With nothing mounted, the first slot is taken. -/
theorem findSlot_starting (hStart : Starting s) (dev : Nat) :
    findSlot s dev ['/'] (List.range fsMax) none = .ok 0 := by
  simp [findSlot, fsMax, List.range, List.range.loop, hStart.unused, atSize]

/-- One disk tried for the root. -/
theorem mountAt_starting {r : Server × Option MountError} (hStart : Starting s)
    (h : mountAt vol fuel s dev ['/'] = some r) :
    (r.2 = none → RouteInv r.1) ∧ (r.2 ≠ none → Starting r.1) ∧
      Starting { r.1 with fs := update r.1.fs 0 Fs.zero, cur := 0 } := by
  unfold mountAt at h
  rw [findSlot_starting hStart] at h
  simp only at h
  generalize ht : ({ s with
      cur := 0
      fs := update s.fs 0 { Fs.zero with dev := dev, blockSize := 1024 } } : Server) = t at h
  have hUnused : ∀ i, (t.fs i).used = false := by
    intro i
    subst ht
    by_cases hi : i = 0
    · subst hi
      rfl
    · exact (congrArg Fs.used (update_of_ne hi _ _)).trans (hStart.unused i)
  have hClosed : t.txnOpen = false := by
    subst ht
    exact hStart.closed
  have hDelivered : Delivered t := by
    subst ht
    exact hStart.delivered
  cases hRead : mountReadSb vol fuel t with
  | none => rw [hRead] at h; cases h
  | some p =>
    obtain ⟨u, ok⟩ := p
    have hSteady := mountReadSb_steady hClosed hRead
    have hReset : Starting { u with fs := update u.fs 0 Fs.zero, cur := 0 } := by
      refine ⟨hSteady.delivered hDelivered, hSteady.open_eq.trans hClosed, rfl, fun i => ?_⟩
      by_cases hi : i = 0
      · subst hi
        rfl
      · exact (congrArg Fs.used (update_of_ne hi _ _)).trans
          ((hSteady.used_eq i).trans (hUnused i))
    rw [hRead] at h
    cases ok with
    | false =>
      simp only [Option.some.injEq, hStart.cur_eq] at h
      subst h
      simpa using hReset
    | true =>
      simp only [Option.some.injEq] at h
      subst h
      have hCur : u.cur = 0 := by
        rw [hSteady.cur_eq, ← ht]
      refine ⟨fun _ => ⟨hSteady.delivered hDelivered, fun hOpen => ?_, ?_, ?_, ?_⟩,
        fun hSome => absurd rfl hSome, by simpa using hReset⟩
      · exact absurd (hOpen.symm.trans (hSteady.open_eq.trans hClosed)) (by simp)
      · simp
      · simp [Server.g, hCur]
      · simp [hCur, fsMax]

/-- The server that comes out of `mount` keeps the invariant. -/
theorem mountRoot_inv :
    ∀ {disks : List Nat} {s s' : Server}, Starting s →
      mountRoot vol fuel s disks = some (s', true) → RouteInv s'
  | [], _, _, _, h => by simp [mountRoot] at h
  | dev :: rest, s, s', hStart, h => by
      rw [mountRoot] at h
      split at h
      · cases h
      next t e hMount =>
        exact mountRoot_inv ((mountAt_starting hStart hMount).2.1 (by simp)) h
      next t hMount =>
        obtain ⟨hDone, -, hReset⟩ := mountAt_starting hStart hMount
        split at h
        · cases h
          exact hDone rfl
        · exact mountRoot_inv hReset h

/-! ## Every run -/

/-- A handler only runs inside a request, with a batch open. -/
def Enabled (s : Server) : LoopEvent → Prop
  | .begin => True
  | .faults _ => True
  | _ => s.txnOpen = true

/-- One step of the loop that comes to an end. -/
def LoopStep (vol : Nat → Option Volume) (s : Server) (e : LoopEvent) (s' : Server) : Prop :=
  Enabled s e ∧ Settles (fun fuel => serve vol fuel s e) s'

/-- The server as it enters its loop: the root is mounted, from some disks. -/
def Boots (vol : Nat → Option Volume) (s : Server) : Prop :=
  ∃ d bad, Settles (fun fuel => mountRoot vol fuel (startServer d bad) rootOrder) (s, true)

theorem Boots.inv (hBoot : Boots vol s) : RouteInv s := by
  obtain ⟨d, bad, n, hRun⟩ := hBoot
  refine mountRoot_inv ⟨fun w hw => absurd hw not_mem_nil, rfl, rfl, fun _ => rfl⟩
    (hRun n le_rfl)

/-- One careful step keeps the invariant. -/
theorem routeInv_step {e : LoopEvent} (hInv : RouteInv s)
    (hStep : Restrict (Careful vol) (LoopStep vol) s e s') : RouteInv s' := by
  obtain ⟨hCareful, hEnabled, n, hRun⟩ := hStep
  replace hRun := hRun n le_rfl
  cases e with
  | begin =>
    obtain rfl := some.inj hRun
    exact txnBegin_inv hInv
  | access path =>
    obtain rfl := some.inj hRun
    exact route_inv path hInv hEnabled hCareful
  | write block data =>
    obtain rfl := some.inj hRun
    exact writeBlock_inv block _ hInv
  | mount uid dev point =>
    exact handleMount_inv hInv hEnabled (hCareful.imp_right fun h => ⟨h.1, h.2.1⟩) hRun
  | umount uid point =>
    obtain rfl := some.inj hRun
    exact handleUmount_inv uid point hInv hEnabled hCareful
  | finish sync old =>
    obtain rfl := some.inj hRun
    exact txnEnd_inv sync old hInv hEnabled
  | faults bad =>
    obtain rfl := some.inj hRun
    exact { hInv with }

/-- A root on disk zero and a spare volume on disk one, neither with a journal. -/
def twoVolumes : Nat → Option Volume
  | 0 => some ⟨4096, true, none⟩
  | 1 => some ⟨4096, false, none⟩
  | _ => none

/-- A machine with two sound, empty disks, booted. -/
def bootTwo : Server :=
  ((mountRoot twoVolumes 0 (startServer (fun _ _ => zeroBlock) fun _ _ => false) rootOrder).getD
    (startServer (fun _ _ => zeroBlock) (fun _ _ => false), false)).1

theorem bootTwo_boots : Boots twoVolumes bootTwo :=
  ⟨fun _ _ => zeroBlock, fun _ _ => false, 0, fun _ _ => rfl⟩

/-- The loop over these events. -/
def loopTwo (es : List LoopEvent) : Server :=
  es.foldl (fun s e => (serve twoVolumes 0 s e).getD s) bootTwo

theorem loopTwo_snoc {ok : Server → LoopEvent → Prop} {es : List LoopEvent} (e : LoopEvent)
    (hRun : Run (Restrict ok (LoopStep twoVolumes)) bootTwo es (loopTwo es)) (hOk : ok (loopTwo es) e)
    (hEnabled : Enabled (loopTwo es) e)
    (hServe : ∀ fuel, serve twoVolumes fuel (loopTwo es) e = some (loopTwo (es ++ [e]))) :
    Run (Restrict ok (LoopStep twoVolumes)) bootTwo (es ++ [e]) (loopTwo (es ++ [e])) :=
  hRun.snoc ⟨hOk, hEnabled, 0, fun fuel _ => hServe fuel⟩

/-- A block of the root is collected, and then the spare volume is unmounted. -/
def strayEvents : List LoopEvent :=
  [.begin, .mount 0 1 ['/', 'm'], .write 7 fun _ => 1, .umount 0 ['/', 'm']]

theorem strayEvents_run : Run (Restrict (fun _ _ => True) (LoopStep twoVolumes)) bootTwo strayEvents
    (loopTwo strayEvents) := by
  have h₀ : Run (Restrict (fun _ _ => True) (LoopStep twoVolumes)) bootTwo [] (loopTwo []) :=
    Run.nil _
  have h₁ := loopTwo_snoc .begin h₀ trivial trivial fun _ => rfl
  have h₂ := loopTwo_snoc (.mount 0 1 ['/', 'm']) h₁ trivial rfl fun _ => rfl
  have h₃ := loopTwo_snoc (.write 7 fun _ => 1) h₂ trivial rfl fun _ => rfl
  exact loopTwo_snoc (.umount 0 ['/', 'm']) h₃ trivial rfl fun _ => rfl

/-- A block is written on the spare volume, and a path leads back to the root. -/
def carefulEvents : List LoopEvent :=
  [.begin, .mount 0 1 ['/', 'm'], .access ['/', 'm', '/', 'a'], .write 7 fun _ => 1, .access ['/']]

theorem carefulEvents_run : Run (Restrict (Careful twoVolumes) (LoopStep twoVolumes)) bootTwo
    carefulEvents (loopTwo carefulEvents) := by
  have h₀ : Run (Restrict (Careful twoVolumes) (LoopStep twoVolumes)) bootTwo [] (loopTwo []) :=
    Run.nil _
  have hQuiet : ∀ d, Quiet twoVolumes d 1 := by
    intro d v place hVol hJournal
    obtain rfl := some.inj hVol
    cases hJournal
  have h₁ := loopTwo_snoc .begin h₀ trivial trivial fun _ => rfl
  have hSize : ∀ v, twoVolumes 1 = some v → v.blockSize = (loopTwo [.begin]).g.blockSize := by
    intro v hVol
    obtain rfl := some.inj hVol
    rfl
  have h₂ := loopTwo_snoc (.mount 0 1 ['/', 'm']) h₁ (.inr ⟨.inl rfl, hQuiet _, hSize⟩) rfl fun _ => rfl
  have h₃ := loopTwo_snoc (.access ['/', 'm', '/', 'a']) h₂ (.inr (.inl rfl)) rfl fun _ => rfl
  have h₄ := loopTwo_snoc (.write 7 fun _ => 1) h₃ trivial rfl fun _ => rfl
  exact loopTwo_snoc (.access ['/']) h₄ (.inr (.inr (.inl ⟨rfl, fun _ _ => rfl⟩))) rfl
    fun _ => rfl

end LeahOS.Vfsd
