import LeahOS.Vfsd.Block

/-!
# The journal of `vfsd`

`txn_flush` writes the collected blocks to the journal, commits them, and only
then puts them where they belong; `journal_replay` finishes at mount what a crash
interrupted. Both are modelled here statement by statement, with their early
returns.

* `descriptorBlock`, `commitBlock`, `escapeBlock`: what the flush puts into
  `g_jbuf` and `g_jdata`;
* `txnFlush` and `writeBlock`;
* `jrnlWalk`, `scanCommitted` (pass one), `applyCommitted` (pass two),
  `journalReplay`, `journalOpen`, `mountReadSb`.

`g_jbuf` and `g_jdata` are shared scratch buffers, and a flush started from inside
the replay overwrites both. So they are fields of the state, and `writeBlock`
takes the buffer it copies from as a function of the state.

The two passes of the replay loop until a block of the ring stops them, which a
malformed ring need not do. They take fuel, and `none` means that they were still
looping.
-/

namespace LeahOS.Vfsd

def jbd2Magic : Nat := 0xC03B3998
def jbd2Descriptor : Nat := 1
def jbd2Commit : Nat := 2
def jbd2Revoke : Nat := 5
def jbd2FlagEscape : Nat := 1
def jbd2FlagSameUuid : Nat := 2
def jbd2FlagLastTag : Nat := 8

/-! ## What the flush writes -/

/-- The header shared by descriptor and commit blocks, over a zeroed buffer. -/
def headerBlock (type seq : Nat) : Block :=
  wr32be (wr32be (wr32be zeroBlock 0 jbd2Magic) 4 type) 8 seq

/-- The flags of one tag. -/
def tagFlags (e : TxnEntry) (last : Bool) : Nat :=
  jbd2FlagSameUuid + (if rd32be e.buf 0 = jbd2Magic then jbd2FlagEscape else 0) +
    (if last then jbd2FlagLastTag else 0)

/-- The tags of the collected blocks, eight bytes each from `off` on. A target
is cut to the 32 bits a tag has for it. -/
def writeTags : Block → Nat → List TxnEntry → Block
  | p, _, [] => p
  | p, off, e :: rest =>
    writeTags
      (wr32be (wr32be p off (e.target % 2 ^ 32)) (off + 4) (tagFlags e rest.isEmpty))
      (off + 8) rest

/-- The descriptor of a batch. -/
def descriptorBlock (seq : Nat) (entries : List TxnEntry) : Block :=
  writeTags (headerBlock jbd2Descriptor seq) 12 entries

/-- The commit block of a batch. -/
def commitBlock (seq : Nat) : Block := headerBlock jbd2Commit seq

/-- A block whose first word is the journal's magic is stored with it zeroed. -/
def escapeBlock (b : Block) : Block :=
  if rd32be b 0 = jbd2Magic then wr32be b 0 0 else b

/-- Put `s_sequence` and `s_start` into a journal superblock. -/
def stampSuper (b : Block) (seq start : Nat) : Block := wr32be (wr32be b 24 seq) 28 start

/-- The collected blocks, written to where they belong. -/
def writeHome : Server → List TxnEntry → Server × Bool
  | s, [] => (s, true)
  | s, e :: rest => andThen (putBlock s e.target e.buf e.owner) fun s => writeHome s rest

/-- The copies of the collected blocks, written behind the descriptor. -/
def writeCopies : Server → Nat → List TxnEntry → Server × Bool
  | s, _, [] => (s, true)
  | s, index, e :: rest =>
    let data := escapeBlock e.buf
    andThen (jrnlWrite (s.setJdata data) index data e.owner)
      fun s => writeCopies s (index + 1) rest

/-- Read the journal superblock, stamp it and write it back: the moment a batch
becomes real. Fails when the superblock cannot be read or is not one. -/
def publishSuper (s : Server) (seq start : Nat) : Server × Bool :=
  match jrnlRead s 0 with
  | none => (s, false)
  | some b =>
    if rd32be b 0 ≠ jbd2Magic then (s.setJbuf b, false)
    else
      let b := stampSuper b seq start
      jrnlWrite (s.setJbuf b) 0 b s.g.dev

/-- Write the collected blocks to the journal, commit them, and only then put
them where they belong. -/
def txnFlush (s : Server) : Server × Bool :=
  if s.txn.isEmpty then (s, true)
  else if !s.g.hasJournal then
    -- No journal to write to. The writes still have to happen.
    andThen (writeHome s s.txn) fun s => (s.setTxn [], true)
  else if (s.g.jrnlMaxlen + 2 ^ 32 - s.g.jrnlFirst) % 2 ^ 32 < s.txn.length + 2 then
    (s, false)
  else
    let seq := s.g.jrnlSeq
    let first := s.g.jrnlFirst
    let entries := s.txn
    let desc := descriptorBlock seq entries
    let commit := commitBlock seq
    andThen (jrnlWrite (s.setJbuf desc) first desc s.g.dev) fun s =>
    andThen (writeCopies s (first + 1) entries) fun s =>
    andThen (jrnlWrite (s.setJbuf commit) (first + 1 + entries.length) commit s.g.dev) fun s =>
    andThen (publishSuper s seq first) fun s =>
    andThen (writeHome s entries) fun s =>
      let s := s.setSeq ((seq + 1) % 2 ^ 32)
      -- The journal is empty again; this write is not checked.
      let s := (publishSuper s ((seq + 1) % 2 ^ 32) 0).1
      (s.setTxn [], true)

/-- Replace the copy of a block the batch already holds. -/
def recollect (entries : List TxnEntry) (e : TxnEntry) : List TxnEntry :=
  entries.map fun x => if x.target = e.target then e else x

/-- `write_block`. `buf` is the buffer the caller points at: a flush in the
middle may have changed what is in it. -/
def writeBlock (s : Server) (block : Nat) (buf : Server → Block) : Server × Bool :=
  if s.txnOpen then
    if s.txn.any (fun e => e.target == block) then
      (s.setTxn (recollect s.txn ⟨block, buf s, s.g.dev⟩), true)
    else
      -- A batch that will not fit is split rather than dropped.
      let r := if s.txn.length = txnMax then txnFlush s else (s, true)
      andThen r fun s => (s.setTxn (s.txn ++ [⟨block, buf s, s.g.dev⟩]), true)
  else putBlock s block (buf s) s.g.dev

/-! ## Recovery -/

/-- How wide a tag is. -/
def tagWidth (flags : Nat) (sixtyFour : Bool) : Nat :=
  (if sixtyFour then 12 else 8) + (if flags &&& jbd2FlagSameUuid = 0 then 16 else 0)

/-- The loop of `jrnl_walk`. Every round moves `off` at least eight bytes on and
stops once it passes the block size, so `g_block_size` rounds are more than
enough. -/
def jrnlWalkLoop : Nat → Server → Bool → Nat → Nat → Server × Nat
  | 0, s, _, _, _ => (s, 0)
  | fuel + 1, s, apply, off, idx =>
    if s.g.blockSize < off + 8 then (s, 0)
    else
      let target := rd32be s.jbuf off
      let flags := rd32be s.jbuf (off + 4)
      let off := off + tagWidth flags false
      if s.g.blockSize < off then (s, 0)
      else
        let r : Server × Bool :=
          if !apply then (s, true)
          else
            match jrnlRead s idx with
            | none => (s, false)
            | some b =>
              -- An escaped block gets its first word back.
              let b := if flags &&& jbd2FlagEscape ≠ 0 then wr32be b 0 jbd2Magic else b
              let s := s.setJdata b
              if target = 0 then (s, true) else writeBlock s target fun s => s.jdata
        if !r.2 then (r.1, 0)
        else
          let s := r.1
          let idx := jrnlNext s idx
          if flags &&& jbd2FlagLastTag ≠ 0 then (s, idx)
          else jrnlWalkLoop fuel s apply off idx

/-- Walk the descriptor in `g_jbuf`. Returns the journal index just past the last
data block, or 0 on a malformed descriptor. -/
def jrnlWalk (s : Server) (idx : Nat) (apply : Bool) : Server × Nat :=
  jrnlWalkLoop s.g.blockSize s apply 12 (jrnlNext s idx)

/-- Pass one: the sequence number behind the last committed transaction, and how
many committed. -/
def scanCommitted : Nat → Server → Nat → Nat → Nat → Option (Server × Nat × Nat)
  | 0, _, _, _, _ => none
  | fuel + 1, s, idx, seq, committed =>
    match jrnlRead s idx with
    | none => some (s, seq, committed)
    | some b =>
      let s := s.setJbuf b
      if rd32be b 0 ≠ jbd2Magic ∨ rd32be b 8 ≠ seq then some (s, seq, committed)
      else if rd32be b 4 = jbd2Commit then
        scanCommitted fuel s (jrnlNext s idx) ((seq + 1) % 2 ^ 32)
          ((committed + 1) % 2 ^ 32)
      else if rd32be b 4 = jbd2Descriptor then
        let r := jrnlWalk s idx false
        if r.2 = 0 then some (r.1, seq, committed)
        else scanCommitted fuel r.1 r.2 seq committed
      else if rd32be b 4 = jbd2Revoke then
        scanCommitted fuel s (jrnlNext s idx) seq committed
      else some (s, seq, committed)

/-- Pass two: apply exactly that many. Returns the sequence number it reached. -/
def applyCommitted : Nat → Server → Nat → Nat → Nat → Nat → Option (Server × Nat)
  | 0, _, _, _, _, _ => none
  | fuel + 1, s, idx, seq, done, committed =>
    if committed ≤ done then some (s, seq)
    else
      match jrnlRead s idx with
      | none => some (s, seq)
      | some b =>
        let s := s.setJbuf b
        if rd32be b 0 ≠ jbd2Magic then some (s, seq)
        else if rd32be b 4 = jbd2Commit then
          applyCommitted fuel s (jrnlNext s idx) ((seq + 1) % 2 ^ 32)
            ((done + 1) % 2 ^ 32) committed
        else if rd32be b 4 = jbd2Descriptor then
          let r := jrnlWalk s idx true
          if r.2 = 0 then some (r.1, seq)
          else applyCommitted fuel r.1 r.2 seq done committed
        else applyCommitted fuel s (jrnlNext s idx) seq done committed

/-- Declare the journal empty. A superblock that cannot be read is left alone. -/
def retireJournal (s : Server) (seq : Nat) : Server × Bool :=
  let r : Server × Bool :=
    match jrnlRead s 0 with
    | none => (s, true)
    | some b =>
      if rd32be b 0 ≠ jbd2Magic then (s.setJbuf b, true)
      else
        let b := stampSuper b seq 0
        jrnlWrite (s.setJbuf b) 0 b s.g.dev
  andThen r fun s => (s.setStart 0, true)

/-- Replay everything that committed, then declare the journal empty. -/
def journalReplay (fuel : Nat) (s : Server) : Option (Server × Bool) :=
  if !s.g.hasJournal || s.g.jrnlStart == 0 then some (s, true)
  else
    match scanCommitted fuel s s.g.jrnlStart s.g.jrnlSeq 0 with
    | none => none
    | some (s, seq, committed) =>
      if committed = 0 then some (retireJournal s seq)
      else
        match applyCommitted fuel s s.g.jrnlStart s.g.jrnlSeq 0 committed with
        | none => none
        | some (s, seq) => some (retireJournal s seq)

/-- What the ext4 superblock of a disk leads to: its block size, whether it carries
the label of the root, and where the blocks of its journal file are when it has
one. Nothing this server does moves any of these. -/
structure Volume where
  blockSize : Nat
  rootLabel : Bool
  journal : Option (Nat → Nat)

/-- Find the journal and read its superblock. -/
def journalOpen (s : Server) (v : Volume) : Server :=
  let s := s.setG { s.g with hasJournal := false }
  match v.journal with
  | none => s
  | some place =>
    let s := s.setG { s.g with journal := place }
    if place 0 = 0 then s
    else
      match readBlock s (place 0) with
      | none => s
      | some b =>
        let s := s.setJbuf b
        if rd32be b 0 ≠ jbd2Magic ∨ rd32be b 12 ≠ s.g.blockSize then s
        else
          let f := { s.g with
            jrnlMaxlen := rd32be b 16
            jrnlFirst := rd32be b 20
            jrnlSeq := rd32be b 24
            jrnlStart := rd32be b 28 }
          s.setG { f with hasJournal := f.jrnlMaxlen ≠ 0 ∧ f.jrnlFirst ≠ 0 }

/-- `mount_read_sb`: what `mount_at` does once the slot is current. `vol` is what
the superblocks say; a disk that is not ext4, or whose blocks are larger than
the buffers, is refused. -/
def mountReadSb (vol : Nat → Option Volume) (fuel : Nat) (s : Server) :
    Option (Server × Bool) :=
  match vol s.g.dev with
  | none => some (s, false)
  | some v =>
    let s := s.setG { s.g with blockSize := v.blockSize }
    if 8192 < v.blockSize then some (s, false)
    else
      match journalReplay fuel (journalOpen s v) with
      | none => none
      -- A journal that could not be replayed is reported and mounted anyway.
      | some (s, _) => some (s, true)

end LeahOS.Vfsd
