import LeahOS.Lib.Fuel
import LeahOS.Vfsd.FlushSpec

/-!
# What one recovery writes

A journal with a published batch is recovered by two passes over the ring. Only
the first block of the ring is ever a descriptor; behind the commit block of the
batch there may be commit blocks of older, longer batches, and a stale one whose
sequence number happens to be the next is counted as well. That is harmless:
both passes walk the same blocks, and there is no descriptor among them.

* `TagsAt`, `CopiesAt`: the descriptor and the copies of a batch, as they lie in the
  ring;
* `Super`, `Ring`, `Pending`: what the disk holds;
* `scanCommitted_tail`, `applyCommitted_tail`: the passes behind the commit block;
* `journalReplay_pending`: the recovery writes the home blocks of the batch and then
  the superblock that retires it.
-/

namespace LeahOS.Vfsd
open Lib List

/-! ## Blocks of the ring -/

theorem rd32be_headerBlock_magic (type seq : Nat) :
    rd32be (headerBlock type seq) 0 = jbd2Magic := by
  unfold headerBlock
  rw [rd32be_wr32be_of_disjoint _ (.inr (by decide)),
    rd32be_wr32be_of_disjoint _ (.inr (by decide)), rd32be_wr32be_self _ _ (by decide)]

theorem rd32be_headerBlock_type {type : Nat} (seq : Nat) (hType : type < 2 ^ 32) :
    rd32be (headerBlock type seq) 4 = type := by
  unfold headerBlock
  rw [rd32be_wr32be_of_disjoint _ (.inr (by decide)), rd32be_wr32be_self _ _ hType]

variable {seq : Nat} {L : Layout}

theorem rd32be_headerBlock_seq (type : Nat) (hSeq : seq < 2 ^ 32) :
    rd32be (headerBlock type seq) 8 = seq := by
  unfold headerBlock
  rw [rd32be_wr32be_self _ _ hSeq]

/-- Writing tags leaves the words before them alone. -/
theorem rd32be_writeTags_of_le : ∀ (entries : List TxnEntry) (p : Block) {off o : Nat},
    o + 4 ≤ off → rd32be (writeTags p off entries) o = rd32be p o
  | [], _, _, _, _ => rfl
  | e :: rest, p, off, o, hBelow => by
      rw [writeTags, rd32be_writeTags_of_le rest _ (by omega),
        rd32be_wr32be_of_disjoint _ (.inr (by omega)),
        rd32be_wr32be_of_disjoint _ (.inr (by omega))]

/-- The tags of a batch stand in this buffer from `off` on. -/
def TagsAt (p : Block) : Nat → List TxnEntry → Prop
  | _, [] => True
  | off, e :: rest =>
    rd32be p off = e.target % 2 ^ 32 ∧ rd32be p (off + 4) = tagFlags e rest.isEmpty ∧
      TagsAt p (off + 8) rest

theorem tagFlags_lt (e : TxnEntry) (last : Bool) : tagFlags e last < 2 ^ 32 := by
  unfold tagFlags jbd2FlagSameUuid jbd2FlagEscape jbd2FlagLastTag
  split <;> split <;> decide

theorem tagsAt_writeTags : ∀ (entries : List TxnEntry) (p : Block) (off : Nat),
    TagsAt (writeTags p off entries) off entries
  | [], _, _ => trivial
  | e :: rest, p, off => by
      rw [writeTags]
      refine ⟨?_, ?_, tagsAt_writeTags rest _ (off + 8)⟩
      · rw [rd32be_writeTags_of_le rest _ (by omega), rd32be_wr32be_of_disjoint _ (.inr (by omega)),
          rd32be_wr32be_self _ _ (Nat.mod_lt _ (by decide))]
      · rw [rd32be_writeTags_of_le rest _ (by omega), rd32be_wr32be_self _ _ (tagFlags_lt e _)]

/-- A tag says which block it is for, whether the copy is escaped, and whether it
is the last one; none of ours carries a UUID. -/
theorem tagFlags_bits (e : TxnEntry) (last : Bool) :
    tagWidth (tagFlags e last) false = 8 ∧
      (tagFlags e last &&& jbd2FlagEscape ≠ 0 ↔ rd32be e.buf 0 = jbd2Magic) ∧
      (tagFlags e last &&& jbd2FlagLastTag ≠ 0 ↔ last = true) := by
  unfold tagFlags tagWidth jbd2FlagSameUuid jbd2FlagEscape jbd2FlagLastTag
  by_cases hMagic : rd32be e.buf 0 = jbd2Magic <;> cases last <;> simp [hMagic]

/-- The copies of a batch lie in the ring from block `index` on. -/
def CopiesAt (L : Layout) (d : Disks) : Nat → List TxnEntry → Prop
  | _, [] => True
  | index, e :: rest =>
    d L.dev (L.place index) = escapeBlock e.buf ∧ CopiesAt L d (index + 1) rest

/-- Copies are journal blocks: two disks that agree on those hold the same ones. -/
theorem CopiesAt.congr {d d' : Disks} : ∀ {entries : List TxnEntry} {index : Nat},
    (∀ i, index ≤ i → i < index + entries.length → d' L.dev (L.place i) = d L.dev (L.place i)) →
    CopiesAt L d index entries → CopiesAt L d' index entries
  | [], _, _, _ => trivial
  | e :: rest, index, hSame, hCopies => by
      simp only [length_cons] at hSame
      refine ⟨(hSame index le_rfl (by omega)).trans hCopies.1, ?_⟩
      exact CopiesAt.congr (fun i hLow hHigh => hSame i (by omega) (by omega)) hCopies.2

/-- A word put back where it stood. -/
theorem wr32be_rd32be (b : Block) (off v : Nat) (hv : rd32be b off = v) (w : Nat) :
    wr32be (wr32be b off w) off v = b := by
  subst hv
  have h0 := (b off).toNat_lt
  have h1 := (b (off + 1)).toNat_lt
  have h2 := (b (off + 2)).toNat_lt
  have h3 := (b (off + 3)).toNat_lt
  funext k
  unfold wr32be
  split_ifs with h h h h
  case neg => rfl
  all_goals
    subst h
    apply UInt8.toNat_inj.mp
    rw [UInt8.toNat_ofNat']
    unfold rd32be
    omega

/-- Recovery gives an escaped block its first word back. -/
theorem unescape_escapeBlock (e : TxnEntry) (last : Bool) :
    (if tagFlags e last &&& jbd2FlagEscape ≠ 0 then wr32be (escapeBlock e.buf) 0 jbd2Magic
      else escapeBlock e.buf) = e.buf := by
  have hBits := (tagFlags_bits e last).2.1
  by_cases hMagic : rd32be e.buf 0 = jbd2Magic
  · rw [if_pos (hBits.mpr hMagic), escapeBlock, if_pos hMagic]
    exact wr32be_rd32be _ _ _ hMagic 0
  · rw [if_neg (fun h => hMagic (hBits.mp h)), escapeBlock, if_neg hMagic]

/-- A copy never looks like a block of the journal itself. -/
theorem rd32be_escapeBlock_ne (b : Block) : rd32be (escapeBlock b) 0 ≠ jbd2Magic := by
  unfold escapeBlock
  split
  · rw [rd32be_wr32be_self _ _ (by decide)]
    decide
  next h => exact h

/-! ## Walking a descriptor -/

section Walk
variable {L : Layout} {s : Server} {idx : Nat} {entries : List TxnEntry}

theorem jrnlNext_of_lt (hM : Mounted L s) (hIdx : idx + 1 < L.maxlen) :
    jrnlNext s idx = idx + 1 := by
  have := L.maxlen_lt
  unfold jrnlNext
  rw [hM.maxlen_eq, if_neg (by omega), Nat.mod_eq_of_lt (by omega)]

theorem jrnlNext_wraps (hM : Mounted L s) (hIdx : idx + 1 = L.maxlen) :
    jrnlNext s idx = L.first := by
  have := L.maxlen_lt
  unfold jrnlNext
  rw [hM.maxlen_eq, if_pos (by omega), hM.first_eq]

/-- Pass one walks a descriptor without touching anything. -/
theorem jrnlWalkLoop_count (hM : Mounted L s) :
    ∀ (entries : List TxnEntry) (off idx fuel : Nat), entries ≠ [] →
      TagsAt s.jbuf off entries → off + 8 * entries.length ≤ L.blockSize →
      idx + entries.length < L.maxlen → entries.length ≤ fuel →
      jrnlWalkLoop fuel s false off idx = (s, idx + entries.length)
  | [], _, _, _, hNe, _, _, _, _ => absurd rfl hNe
  | e :: rest, off, idx, 0, _, _, _, _, hFuel => by simp at hFuel
  | e :: rest, off, idx, fuel + 1, _, hTags, hRoom, hIdx, hFuel => by
      obtain ⟨hTarget, hFlags, hRest⟩ := hTags
      obtain ⟨hWidth, -, hLast⟩ := tagFlags_bits e rest.isEmpty
      simp only [length_cons] at hRoom hIdx hFuel
      rw [jrnlWalkLoop, hM.size_eq, if_neg (by omega)]
      simp only [hFlags, hWidth, Bool.not_false, if_true, Bool.not_true, Bool.false_eq_true,
        if_false]
      rw [if_neg (by omega), jrnlNext_of_lt hM (by omega)]
      cases rest with
      | nil => rw [if_pos (hLast.mpr rfl)]; rfl
      | cons e' rest =>
        rw [if_neg (fun h => Bool.false_ne_true (hLast.mp h))]
        rw [jrnlWalkLoop_count hM (e' :: rest) (off + 8) (idx + 1) fuel (by simp) hRest
          (by simp only [length_cons] at hRoom ⊢; omega)
          (by simp only [length_cons] at hIdx ⊢; omega) (by omega)]
        simp only [length_cons, Prod.mk.injEq, true_and]
        omega

/-- The blocks of a batch as recovery puts them back: a tag has 32 bits for its
target, and a target of zero is passed over. -/
def replayed : List TxnEntry → List TxnEntry
  | [] => []
  | e :: rest =>
    if e.target % 2 ^ 32 = 0 then replayed rest
    else { e with target := e.target % 2 ^ 32 } :: replayed rest

theorem mem_replayed {x : TxnEntry} : ∀ {entries : List TxnEntry}, x ∈ replayed entries →
    ∃ e ∈ entries, x.target = e.target % 2 ^ 32
  | [], h => absurd h not_mem_nil
  | e :: rest, h => by
      rw [replayed] at h
      split at h
      · obtain ⟨y, hy, hEq⟩ := mem_replayed h
        exact ⟨y, mem_cons_of_mem e hy, hEq⟩
      · rcases mem_cons.mp h with rfl | h
        · exact ⟨e, mem_cons_self, rfl⟩
        · obtain ⟨y, hy, hEq⟩ := mem_replayed h
          exact ⟨y, mem_cons_of_mem e hy, hEq⟩

theorem replayed_append : ∀ (xs ys : List TxnEntry),
    replayed (xs ++ ys) = replayed xs ++ replayed ys
  | [], _ => rfl
  | e :: rest, ys => by
      rw [cons_append, replayed, replayed, replayed_append rest ys]
      split <;> rfl

/-- Recovery puts back exactly the batch when every target survives its tag. -/
theorem replayed_eq_self : ∀ {entries : List TxnEntry},
    (∀ e ∈ entries, e.target ≠ 0 ∧ e.target < 2 ^ 32) → replayed entries = entries
  | [], _ => rfl
  | e :: rest, hAll => by
      obtain ⟨hNe, hLt⟩ := hAll e mem_cons_self
      rw [replayed, Nat.mod_eq_of_lt hLt, if_neg hNe,
        replayed_eq_self (fun x hx => hAll x (mem_cons_of_mem e hx))]

/-- A batch the flush can write, and whose tags name no block of the journal. -/
structure Batch (L : Layout) (entries : List TxnEntry) : Prop where
  ne_nil : entries ≠ []
  length_le : entries.length ≤ txnMax
  fits : L.first + entries.length + 2 ≤ L.maxlen
  outside : ∀ e ∈ entries, ¬ L.Inside (e.target % 2 ^ 32)
  owner_eq : ∀ e ∈ entries, e.owner = L.dev

theorem Batch.replayed_outside (hB : Batch L entries) :
    ∀ e ∈ replayed entries, ¬ L.Inside e.target := by
  intro x hx
  obtain ⟨e, he, hEq⟩ := mem_replayed hx
  exact hEq ▸ hB.outside e he

/-- Home writes of blocks outside the journal leave the journal alone. -/
theorem applyWrites_homeWrites_inside {dev b : Nat} (d : Disks)
    (hOut : ∀ e ∈ entries, ¬ L.Inside e.target) (hIn : L.Inside b) :
    applyWrites d (homeWrites dev entries) L.dev b = d L.dev b := by
  apply applyWrites_of_untouched
  intro w hw
  obtain ⟨e, he, rfl⟩ := List.mem_map.mp hw
  right
  rintro rfl
  exact hOut e he hIn

/-- Pass two walks a descriptor and puts the blocks of it back. -/
theorem jrnlWalkLoop_apply :
    ∀ (entries : List TxnEntry) (s : Server) (off idx fuel : Nat), Mounted L s →
      s.txnOpen = false → entries ≠ [] → TagsAt s.jbuf off entries → CopiesAt L s.disk idx entries →
      (∀ e ∈ entries, ¬ L.Inside (e.target % 2 ^ 32)) → (∀ e ∈ entries, e.owner = L.dev) →
      off + 8 * entries.length ≤ L.blockSize → idx + entries.length < L.maxlen →
      entries.length ≤ fuel → ∃ jd, jrnlWalkLoop fuel s true off idx =
        ((s.setJdata jd).issue (homeWrites L.dev (replayed entries)), idx + entries.length)
  | [], _, _, _, _, _, _, hNe, _, _, _, _, _, _, _ => absurd rfl hNe
  | e :: rest, _, off, idx, 0, _, _, _, _, _, _, _, _, _, hFuel => by simp at hFuel
  | e :: rest, s, off, idx, fuel + 1, hM, hClosed, _, hTags, hCopies, hOut, hOwn, hRoom, hIdx,
      hFuel => by
      obtain ⟨hTarget, hFlags, hRest⟩ := hTags
      obtain ⟨hWidth, -, hLast⟩ := tagFlags_bits e rest.isEmpty
      simp only [length_cons] at hRoom hIdx hFuel
      have hM' := hM.of_setJdata e.buf
      -- what the tag of `e` makes the walk write
      have hWrite : (if e.target % 2 ^ 32 = 0 then (s.setJdata e.buf, true)
            else writeBlock (s.setJdata e.buf) (e.target % 2 ^ 32) fun s => s.jdata) =
          ((s.setJdata e.buf).issue (homeWrites L.dev (replayed [e])), true) := by
        by_cases hZero : e.target % 2 ^ 32 = 0
        · simp only [hZero, if_true, replayed, homeWrites, map_nil, issue_nil]
        · simp only [hZero, if_false, writeBlock, replayed, homeWrites, map_cons, map_nil]
          rw [if_neg (by simpa [Server.setJdata] using hClosed), putBlock_eq (hM'.works _),
            hM'.dev_eq, hOwn e mem_cons_self]
          rfl
      rw [jrnlWalkLoop, hM.size_eq, if_neg (by omega)]
      simp only [hFlags, hWidth, hTarget, jrnlRead_eq hM (show idx < L.maxlen by omega),
        hCopies.1, unescape_escapeBlock, hWrite, Bool.not_true, Bool.false_eq_true, if_false]
      rw [if_neg (by omega), jrnlNext_of_lt (hM'.of_issue _) (by omega)]
      cases rest with
      | nil => exact ⟨e.buf, by rw [if_pos (hLast.mpr rfl)]; rfl⟩
      | cons e' rest =>
        rw [if_neg (fun h => Bool.false_ne_true (hLast.mp h))]
        -- the copies still to come are journal blocks, which this write left alone
        have hOut' : ∀ x ∈ replayed [e], ¬ L.Inside x.target := by
          intro x hx
          obtain ⟨y, hy, hEq⟩ := mem_replayed hx
          rw [hEq, mem_singleton.mp hy]
          exact hOut e mem_cons_self
        have hCopies' : CopiesAt L ((s.setJdata e.buf).issue
            (homeWrites L.dev (replayed [e]))).disk (idx + 1) (e' :: rest) := by
          refine CopiesAt.congr (fun i hLow hHigh => ?_) hCopies.2
          exact applyWrites_homeWrites_inside _ hOut'
            ⟨i, by simp only [length_cons] at hIdx hHigh; omega, rfl⟩
        obtain ⟨jd, hRun⟩ := jrnlWalkLoop_apply (e' :: rest) _ (off + 8) (idx + 1) fuel
          (hM'.of_issue (homeWrites L.dev (replayed [e]))) hClosed (by simp) hRest hCopies'
          (fun x hx => hOut x (mem_cons_of_mem e hx))
          (fun x hx => hOwn x (mem_cons_of_mem e hx))
          (by simp only [length_cons] at hRoom ⊢; omega)
          (by simp only [length_cons] at hIdx ⊢; omega) (by omega)
        refine ⟨jd, hRun.trans ?_⟩
        rw [issue_setJdata, issue_issue, setJdata_setJdata, homeWrites, homeWrites,
          ← map_append, ← replayed_append, singleton_append, ← homeWrites]
        simp only [length_cons, Prod.mk.injEq, true_and]
        omega

end Walk

/-! ## What the disk holds -/

/-- The journal superblock of this layout. -/
structure Super (L : Layout) (b : Block) : Prop where
  magic : rd32be b 0 = jbd2Magic
  size : rd32be b 12 = L.blockSize
  maxlen : rd32be b 16 = L.maxlen
  first : rd32be b 20 = L.first

theorem Super.of_stamp {b : Block} (hb : Super L b) (seq start : Nat) :
    Super L (stampSuper b seq start) := by
  constructor
  · rw [rd32be_stampSuper _ _ _ (by decide), hb.magic]
  · rw [rd32be_stampSuper _ _ _ (by decide), hb.size]
  · rw [rd32be_stampSuper _ _ _ (by decide), hb.maxlen]
  · rw [rd32be_stampSuper _ _ _ (by decide), hb.first]

theorem rd32be_stampSuper_seq (b : Block) (start : Nat) (hSeq : seq < 2 ^ 32) :
    rd32be (stampSuper b seq start) 24 = seq := by
  unfold stampSuper
  rw [rd32be_wr32be_of_disjoint _ (.inr (by decide)), rd32be_wr32be_self _ _ hSeq]

theorem rd32be_stampSuper_start (b : Block) (seq : Nat) {start : Nat} (hStart : start < 2 ^ 32) :
    rd32be (stampSuper b seq start) 28 = start := by
  unfold stampSuper
  rw [rd32be_wr32be_self _ _ hStart]

/-- Behind the first block of the ring, whatever looks like a block of the journal
is a commit block. -/
def Ring (L : Layout) (d : Disks) : Prop :=
  ∀ i, L.first < i → i < L.maxlen → rd32be (d L.dev (L.place i)) 0 = jbd2Magic →
    rd32be (d L.dev (L.place i)) 4 = jbd2Commit

/-- The journal holds a published batch: the superblock points at it, and its
descriptor, its copies and its commit block are all there. -/
structure Pending (L : Layout) (d : Disks) (seq : Nat) (entries : List TxnEntry) : Prop where
  start_eq : rd32be (d L.dev (L.place 0)) 28 = L.first
  seq_eq : rd32be (d L.dev (L.place 0)) 24 = seq
  descriptor : d L.dev (L.place L.first) = descriptorBlock seq entries
  copies : CopiesAt L d (L.first + 1) entries
  commit : d L.dev (L.place (L.first + 1 + entries.length)) = commitBlock seq

/-! ## The two passes -/

section Passes
variable {L : Layout}

/-- Block `i` of the ring; the end of the ring is its beginning. -/
def Layout.wrap (L : Layout) (i : Nat) : Nat := if i < L.maxlen then i else L.first

theorem jrnlNext_eq_wrap {s : Server} (hM : Mounted L s) {i : Nat} (hi : i < L.maxlen) :
    jrnlNext s i = L.wrap (i + 1) := by
  unfold Layout.wrap
  by_cases hNext : i + 1 < L.maxlen
  · rw [if_pos hNext, jrnlNext_of_lt hM hNext]
  · rw [if_neg hNext, jrnlNext_wraps hM (by omega)]

/-- `count` commit blocks lie in the ring from block `i` on, without a wrap. -/
def Commits (L : Layout) (d : Disks) (i count : Nat) : Prop :=
  i + count ≤ L.maxlen ∧ ∀ j, i ≤ j → j < i + count →
    rd32be (d L.dev (L.place j)) 0 = jbd2Magic ∧ rd32be (d L.dev (L.place j)) 4 = jbd2Commit

variable {d : Disks} {seq : Nat}

/-- Pass one behind a commit block. It goes on over stale commit blocks and stops
at the latest where the ring wraps, because the descriptor there carries an older
sequence number. -/
theorem scanCommitted_tail {entries : List TxnEntry} (hRing : Ring L d)
    (hDesc : d L.dev (L.place L.first) = descriptorBlock seq entries) (hSeq : seq < 2 ^ 32) :
    ∀ (left : Nat) (s : Server) (i committed : Nat), Mounted L s → s.disk = d →
      i + left = L.maxlen → L.first < i → 0 < committed → committed + left < 2 ^ 32 →
      ∃ count jb, Commits L d i count ∧ ∀ fuel, left + 1 ≤ fuel →
        scanCommitted fuel s (L.wrap i) ((seq + committed) % 2 ^ 32) committed =
          some (s.setJbuf jb, (seq + (committed + count)) % 2 ^ 32, committed + count) := by
  intro left
  induction left with
  | zero =>
    intro s i committed hM hd hi hFirst hPos hBound
    refine ⟨0, descriptorBlock seq entries, ⟨by omega, fun j hLow hHigh => by omega⟩, ?_⟩
    intro fuel hFuel
    obtain ⟨fuel, rfl⟩ : ∃ n, fuel = n + 1 := ⟨fuel - 1, by omega⟩
    have hStale : rd32be (descriptorBlock seq entries) 8 ≠ (seq + committed) % 2 ^ 32 := by
      unfold descriptorBlock
      rw [rd32be_writeTags_of_le _ _ (by decide), rd32be_headerBlock_seq _ hSeq]
      omega
    rw [Layout.wrap, if_neg (by omega), scanCommitted, jrnlRead_eq hM L.first_lt, hd, hDesc]
    simp only [hStale, ne_eq, not_false_eq_true, or_true, if_true, Nat.add_zero]
  | succ left ih =>
    intro s i committed hM hd hi hFirst hPos hBound
    have hLt : i < L.maxlen := by omega
    have hWrap : L.wrap i = i := if_pos hLt
    rw [hWrap]
    have hRead := jrnlRead_eq hM hLt
    rw [hd] at hRead
    by_cases hStop : rd32be (d L.dev (L.place i)) 0 ≠ jbd2Magic ∨
        rd32be (d L.dev (L.place i)) 8 ≠ (seq + committed) % 2 ^ 32
    · refine ⟨0, d L.dev (L.place i), ⟨by omega, fun j hLow hHigh => by omega⟩, ?_⟩
      intro fuel hFuel
      obtain ⟨fuel, rfl⟩ : ∃ n, fuel = n + 1 := ⟨fuel - 1, by omega⟩
      rw [scanCommitted, hRead]
      simp only [hStop, if_true, Nat.add_zero]
    · have hMagic : rd32be (d L.dev (L.place i)) 0 = jbd2Magic := by
        by_contra h
        exact hStop (.inl h)
      have hType := hRing i hFirst hLt hMagic
      obtain ⟨count, jb, hCommits, hRun⟩ := ih (s.setJbuf (d L.dev (L.place i))) (i + 1)
        (committed + 1) (hM.of_setJbuf _) hd (by omega) (by omega) (by omega) (by omega)
      refine ⟨count + 1, jb, ⟨by have := hCommits.1; omega, fun j hLow hHigh => ?_⟩, ?_⟩
      · rcases Nat.eq_or_lt_of_le hLow with rfl | hLow
        · exact ⟨hMagic, hType⟩
        · exact hCommits.2 j (by omega) (by omega)
      · intro fuel hFuel
        obtain ⟨fuel, rfl⟩ : ∃ n, fuel = n + 1 := ⟨fuel - 1, by omega⟩
        rw [scanCommitted, hRead]
        simp only [hStop, if_false, hType, if_true]
        rw [jrnlNext_eq_wrap (hM.of_setJbuf _) hLt, Nat.mod_eq_of_lt (show committed + 1 < _ by omega),
          show ((seq + committed) % 2 ^ 32 + 1) % 2 ^ 32 = (seq + (committed + 1)) % 2 ^ 32 by omega,
          hRun fuel (by omega), setJbuf_setJbuf]
        rw [show committed + 1 + count = committed + (count + 1) by omega]

/-- Pass two over the same commit blocks. -/
theorem applyCommitted_tail :
    ∀ (count : Nat) (s : Server) (i seq done : Nat), Mounted L s → s.disk = d →
      Commits L d i count → L.first < i → done + count < 2 ^ 32 →
      ∃ jb seq', ∀ fuel, count + 1 ≤ fuel →
        applyCommitted fuel s (L.wrap i) seq done (done + count) = some (s.setJbuf jb, seq') := by
  intro count
  induction count with
  | zero =>
    intro s i seq done hM hd hCommits hFirst hBound
    refine ⟨s.jbuf, seq, fun fuel hFuel => ?_⟩
    obtain ⟨fuel, rfl⟩ : ∃ n, fuel = n + 1 := ⟨fuel - 1, by omega⟩
    rw [applyCommitted, if_pos (by omega)]
    rfl
  | succ count ih =>
    intro s i seq done hM hd hCommits hFirst hBound
    have hLt : i < L.maxlen := by have := hCommits.1; omega
    obtain ⟨hMagic, hType⟩ := hCommits.2 i le_rfl (by omega)
    have hRead := jrnlRead_eq hM hLt
    rw [hd] at hRead
    obtain ⟨jb, seq', hRun⟩ := ih (s.setJbuf (d L.dev (L.place i))) (i + 1)
      ((seq + 1) % 2 ^ 32) (done + 1) (hM.of_setJbuf _) hd
      ⟨by have := hCommits.1; omega, fun j hLow hHigh => hCommits.2 j (by omega) (by omega)⟩
      (by omega) (by omega)
    refine ⟨jb, seq', fun fuel hFuel => ?_⟩
    obtain ⟨fuel, rfl⟩ : ∃ n, fuel = n + 1 := ⟨fuel - 1, by omega⟩
    have hWrap : L.wrap i = i := if_pos hLt
    rw [hWrap, applyCommitted, if_neg (by omega), hRead]
    simp only [hMagic, hType, ne_eq, not_true_eq_false, if_false, if_true]
    rw [jrnlNext_eq_wrap (hM.of_setJbuf _) hLt, Nat.mod_eq_of_lt (show done + 1 < _ by omega),
      show done + (count + 1) = done + 1 + count by omega, hRun fuel (by omega), setJbuf_setJbuf]

/-- The header of a descriptor. -/
theorem descriptorBlock_header (entries : List TxnEntry) (hSeq : seq < 2 ^ 32) :
    rd32be (descriptorBlock seq entries) 0 = jbd2Magic ∧
      rd32be (descriptorBlock seq entries) 4 = jbd2Descriptor ∧
      rd32be (descriptorBlock seq entries) 8 = seq := by
  unfold descriptorBlock
  refine ⟨?_, ?_, ?_⟩ <;> rw [rd32be_writeTags_of_le _ _ (by decide)]
  · exact rd32be_headerBlock_magic _ _
  · exact rd32be_headerBlock_type _ (by decide)
  · exact rd32be_headerBlock_seq _ hSeq

/-- The header of a commit block. -/
theorem commitBlock_header (hSeq : seq < 2 ^ 32) :
    rd32be (commitBlock seq) 0 = jbd2Magic ∧ rd32be (commitBlock seq) 4 = jbd2Commit ∧
      rd32be (commitBlock seq) 8 = seq :=
  ⟨rd32be_headerBlock_magic _ _, rd32be_headerBlock_type _ (by decide),
    rd32be_headerBlock_seq _ hSeq⟩

theorem jbd2Descriptor_ne_commit : jbd2Descriptor ≠ jbd2Commit := by decide

section Pending
variable {s : Server} {seq : Nat} {entries : List TxnEntry} {count : Nat}

/-- Home writes leave what the journal holds alone. -/
theorem Commits.of_home {d : Disks} {i : Nat} (hB : Batch L entries)
    (hCommits : Commits L d i count) :
    Commits L (applyWrites d (homeWrites L.dev (replayed entries))) i count := by
  refine ⟨hCommits.1, fun j hLow hHigh => ?_⟩
  rw [applyWrites_homeWrites_inside d hB.replayed_outside
    ⟨j, by have := hCommits.1; omega, rfl⟩]
  exact hCommits.2 j hLow hHigh

/-- Pass one on a published batch: it finds the batch committed, and possibly some
stale commit blocks behind it. -/
theorem scanCommitted_pending (hM : Mounted L s) (hRing : Ring L s.disk) (hB : Batch L entries)
    (hP : Pending L s.disk seq entries) (hSeq : seq < 2 ^ 32) :
    ∃ count jb seq', Commits L s.disk (L.first + 2 + entries.length) count ∧ count < L.maxlen ∧
      ∀ fuel, L.maxlen + 3 ≤ fuel →
        scanCommitted fuel s L.first seq 0 = some (s.setJbuf jb, seq', 1 + count) := by
  have hFits := hB.fits
  have hLen := hB.length_le
  have hSize := L.blockSize_ge
  have hMax := L.maxlen_lt
  obtain ⟨hMagic, hType, hField⟩ := descriptorBlock_header entries hSeq
  obtain ⟨hMagic', hType', hField'⟩ := commitBlock_header hSeq
  have hM1 := hM.of_setJbuf (descriptorBlock seq entries)
  have hM2 := hM.of_setJbuf (commitBlock seq)
  obtain ⟨count, jb, hCommits, hTail⟩ := scanCommitted_tail hRing hP.descriptor hSeq
    (L.maxlen - (L.first + 2 + entries.length)) (s.setJbuf (commitBlock seq))
    (L.first + 2 + entries.length) 1 hM2 rfl (by omega) (by omega) (by omega) (by omega)
  refine ⟨count, jb, (seq + (1 + count)) % 2 ^ 32, hCommits, by have := hCommits.1; omega,
    fun fuel hFuel => ?_⟩
  obtain ⟨fuel, rfl⟩ : ∃ n, fuel = n + 2 := ⟨fuel - 2, by omega⟩
  -- the descriptor
  have hWalk : jrnlWalk (s.setJbuf (descriptorBlock seq entries)) L.first false =
      (s.setJbuf (descriptorBlock seq entries), L.first + 1 + entries.length) := by
    unfold jrnlWalk
    rw [jrnlNext_of_lt hM1 (by omega), hM1.size_eq]
    exact jrnlWalkLoop_count hM1 entries 12 (L.first + 1) L.blockSize hB.ne_nil
      (tagsAt_writeTags _ _ _) (by unfold txnMax at hLen; omega) (by omega)
      (by unfold txnMax at hLen; omega)
  rw [scanCommitted, jrnlRead_eq hM L.first_lt, hP.descriptor]
  simp only [hMagic, hField, hType, hWalk, ne_eq, not_true_eq_false, or_self, if_false,
    jbd2Descriptor_ne_commit, if_true, show ¬ L.first + 1 + entries.length = 0 by omega]
  -- the commit block
  rw [scanCommitted, jrnlRead_eq hM1 (by omega), setJbuf_disk, hP.commit]
  simp only [hMagic', hField', hType', ne_eq, not_true_eq_false, or_self, if_false, if_true,
    setJbuf_setJbuf]
  rw [jrnlNext_eq_wrap hM2 (by omega),
    show L.first + 1 + entries.length + 1 = L.first + 2 + entries.length by omega,
    show (0 + 1) % 2 ^ 32 = 1 by decide, hTail fuel (by omega), setJbuf_setJbuf]

/-- Pass two on a published batch: every home block is put back. -/
theorem applyCommitted_pending (hM : Mounted L s) (hClosed : s.txnOpen = false)
    (hB : Batch L entries) (hP : Pending L s.disk seq entries) (hSeq : seq < 2 ^ 32)
    (hCommits : Commits L s.disk (L.first + 2 + entries.length) count) (hCount : count < L.maxlen) :
    ∃ jb jd seq', ∀ fuel, L.maxlen + 3 ≤ fuel → applyCommitted fuel s L.first seq 0 (1 + count) =
        some (((s.setJbuf jb).setJdata jd).issue (homeWrites L.dev (replayed entries)), seq') := by
  have hFits := hB.fits
  have hLen := hB.length_le
  have hSize := L.blockSize_ge
  have hMax := L.maxlen_lt
  obtain ⟨hMagic, hType, -⟩ := descriptorBlock_header entries hSeq
  obtain ⟨hMagic', hType', -⟩ := commitBlock_header hSeq
  have hM1 := hM.of_setJbuf (descriptorBlock seq entries)
  -- the descriptor
  obtain ⟨jd, hWalk⟩ : ∃ jd, jrnlWalk (s.setJbuf (descriptorBlock seq entries)) L.first true =
      (((s.setJbuf (descriptorBlock seq entries)).setJdata jd).issue (homeWrites L.dev (replayed entries)),
        L.first + 1 + entries.length) := by
    unfold jrnlWalk
    rw [jrnlNext_of_lt hM1 (by omega), hM1.size_eq]
    exact jrnlWalkLoop_apply entries _ 12 (L.first + 1) L.blockSize hM1 hClosed hB.ne_nil
      (tagsAt_writeTags _ _ _) hP.copies hB.outside hB.owner_eq (by unfold txnMax at hLen; omega)
      (by omega) (by unfold txnMax at hLen; omega)
  have hM2 := (hM1.of_setJdata jd).of_issue (homeWrites L.dev (replayed entries))
  -- the commit block, still where it was
  have hCommit : applyWrites s.disk (homeWrites L.dev (replayed entries)) L.dev
      (L.place (L.first + 1 + entries.length)) = commitBlock seq := by
    rw [applyWrites_homeWrites_inside s.disk hB.replayed_outside
      ⟨_, by omega, rfl⟩]
    exact hP.commit
  have hM3 := ((hM.of_setJbuf (commitBlock seq)).of_setJdata jd).of_issue
    (homeWrites L.dev (replayed entries))
  obtain ⟨jb, seq', hTail⟩ := applyCommitted_tail count _ (L.first + 2 + entries.length)
    ((seq + 1) % 2 ^ 32) 1 hM3 rfl (hCommits.of_home hB) (by omega) (by omega)
  refine ⟨jb, jd, seq', fun fuel hFuel => ?_⟩
  obtain ⟨fuel, rfl⟩ : ∃ n, fuel = n + 2 := ⟨fuel - 2, by omega⟩
  rw [applyCommitted, if_neg (by omega), jrnlRead_eq hM L.first_lt, hP.descriptor]
  simp only [hMagic, hType, hWalk, ne_eq, not_true_eq_false, if_false, jbd2Descriptor_ne_commit,
    if_true, show ¬ L.first + 1 + entries.length = 0 by omega]
  rw [applyCommitted, if_neg (by omega), jrnlRead_eq hM2 (by omega), issue_disk, setJdata_disk,
    setJbuf_disk, hCommit]
  simp only [hMagic', hType', ne_eq, not_true_eq_false, if_false, if_true, issue_setJbuf,
    setJdata_setJbuf, setJbuf_setJbuf]
  rw [jrnlNext_eq_wrap hM3 (by omega),
    show L.first + 1 + entries.length + 1 = L.first + 2 + entries.length by omega,
    show (0 + 1) % 2 ^ 32 = 1 by decide, hTail fuel (by omega)]
  simp only [issue_setJbuf, setJdata_setJbuf, setJbuf_setJbuf]

/-- The superblock that retires the journal. -/
theorem retireJournal_eq (hM : Mounted L s) (seq : Nat)
    (hMagic : rd32be (s.disk L.dev (L.place 0)) 0 = jbd2Magic) :
    retireJournal s seq = (((s.setStart 0).setJbuf
      (stampSuper (s.disk L.dev (L.place 0)) seq 0)).issue
        [superWrite L (s.disk L.dev (L.place 0)) seq 0], true) := by
  have hZero : 0 < L.maxlen := Nat.lt_trans L.first_pos L.first_lt
  unfold retireJournal
  rw [jrnlRead_eq hM hZero]
  simp only [hMagic, ne_eq, not_true_eq_false, if_false]
  rw [jrnlWrite_eq (hM.of_setJbuf _) hZero, andThen_true, issue_setStart, hM.dev_eq]
  rfl

/-- **Recovery of a published batch** writes its home blocks, and then the
superblock that retires it. -/
theorem journalReplay_pending (hM : Mounted L s) (hClosed : s.txnOpen = false)
    (hStart : s.g.jrnlStart = L.first) (hSeq : s.g.jrnlSeq = seq)
    (hMagic : rd32be (s.disk L.dev (L.place 0)) 0 = jbd2Magic) (hRing : Ring L s.disk)
    (hB : Batch L entries) (hP : Pending L s.disk seq entries) :
    ∃ jb jd seq', Settles (fun fuel => journalReplay fuel s)
      ((((s.setStart 0).setJbuf jb).setJdata jd).issue
        (homeWrites L.dev (replayed entries) ++ [superWrite L (s.disk L.dev (L.place 0)) seq' 0]), true) := by
  have hLt : seq < 2 ^ 32 := hSeq ▸ hM.seq_lt
  have hPos := L.first_pos
  obtain ⟨count, jb1, seq1, hCommits, hCount, hScan⟩ := scanCommitted_pending hM hRing hB hP hLt
  obtain ⟨jb, jd, seq', hApply⟩ := applyCommitted_pending (hM.of_setJbuf jb1) hClosed hB hP hLt
    hCommits hCount
  have hM' := ((hM.of_setJbuf jb).of_setJdata jd).of_issue (homeWrites L.dev (replayed entries))
  -- the superblock is not one of the home blocks
  have hSuper : applyWrites s.disk (homeWrites L.dev (replayed entries)) L.dev (L.place 0) =
      s.disk L.dev (L.place 0) :=
    applyWrites_homeWrites_inside s.disk hB.replayed_outside
      ⟨0, by omega, rfl⟩
  have hRetire := retireJournal_eq hM' seq' (by simpa only [issue_disk, setJdata_disk,
    setJbuf_disk, hSuper] using hMagic)
  refine ⟨stampSuper (s.disk L.dev (L.place 0)) seq' 0, jd, seq', L.maxlen + 3,
    fun fuel hFuel => ?_⟩
  simp only [journalReplay, hM.open_eq, hStart, hSeq, Bool.not_true, Bool.false_or,
    show (L.first == 0) = false by simpa using by omega, Bool.false_eq_true, if_false,
    hScan fuel hFuel, show ¬ 1 + count = 0 by omega, setJbuf_g]
  rw [hApply fuel hFuel]
  simp only [setJbuf_setJbuf, hRetire, issue_disk, setJdata_disk, setJbuf_disk, hSuper]
  rw [issue_setStart, issue_setJbuf, issue_issue]
  rfl

/-- A journal with nothing published needs no recovery. -/
theorem journalReplay_clean (hStart : s.g.jrnlStart = 0) (fuel : Nat) :
    journalReplay fuel s = some (s, true) := by
  unfold journalReplay
  rw [if_pos (by simp [hStart])]

end Pending
end Passes
end LeahOS.Vfsd
