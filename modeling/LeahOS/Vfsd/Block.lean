import Mathlib.Tactic

/-!
# The block layer of `vfsd`

Everything the filesystem server writes goes through `write_block`. A block is
either collected into the open batch, to be journalled later, or written to the
disk of the filesystem `g_cur` points at. This module models that layer:

* `Fs` and `Server`: the mount slots, the open batch and the disks;
* `putBlock`: the second half of `write_block`, straight to the disk. It is what
  `write_block` does while `g_txn_bypass` is set, which is only ever around one
  call, so the flag itself is not a field;
* `txnPeek`, `readBlock`, `jrnlRead`, `jrnlWrite`.

A block is its bytes. Blocks travel whole (`memcpy` of `g_block_size` bytes),
so bytes past the block size are never looked at. The write-through cache in
front of `disk_read` is not part of this model: `readBlock` returns what the disk
holds. With the cache it does so as long as all filesystems have one block size
(`Layer.readBlock_toServer`).

`TxnEntry.owner` and `DiskWrite.owner` are ghosts. They remember the disk of the
filesystem that was current when `write_block` was called; no definition branches
on them.
-/

namespace LeahOS.Vfsd
open Function

/-- The bytes of one block. -/
abbrev Block := Nat → UInt8

/-- Read a big-endian word. -/
def rd32be (p : Block) (off : Nat) : Nat :=
  (p off).toNat * 2 ^ 24 + (p (off + 1)).toNat * 2 ^ 16 +
    (p (off + 2)).toNat * 2 ^ 8 + (p (off + 3)).toNat

/-- Write a big-endian word; each byte keeps the low eight bits of its shift. -/
def wr32be (p : Block) (off v : Nat) : Block := fun k =>
  if k = off then UInt8.ofNat (v / 2 ^ 24)
  else if k = off + 1 then UInt8.ofNat (v / 2 ^ 16)
  else if k = off + 2 then UInt8.ofNat (v / 2 ^ 8)
  else if k = off + 3 then UInt8.ofNat v
  else p k

/-- `memset(p, 0, g_block_size)`. -/
def zeroBlock : Block := fun _ => 0

theorem rd32be_lt (p : Block) (off : Nat) : rd32be p off < 2 ^ 32 := by
  have h0 := (p off).toNat_lt
  have h1 := (p (off + 1)).toNat_lt
  have h2 := (p (off + 2)).toNat_lt
  have h3 := (p (off + 3)).toNat_lt
  unfold rd32be
  omega

/-- The word just written is the word read back. -/
theorem rd32be_wr32be_self (p : Block) (off : Nat) {v : Nat} (hv : v < 2 ^ 32) :
    rd32be (wr32be p off v) off = v := by
  simp [rd32be, wr32be, UInt8.toNat_ofNat']
  omega

/-- A word that does not overlap the one written is unchanged. -/
theorem rd32be_wr32be_of_disjoint (p : Block) {off other v : Nat}
    (hDisjoint : off + 4 ≤ other ∨ other + 4 ≤ off) :
    rd32be (wr32be p off v) other = rd32be p other := by
  have hByte : ∀ k, other ≤ k → k < other + 4 → wr32be p off v k = p k := by
    intro k hLow hHigh
    unfold wr32be
    rw [if_neg (by omega), if_neg (by omega), if_neg (by omega), if_neg (by omega)]
  unfold rd32be
  rw [hByte other (by omega) (by omega), hByte (other + 1) (by omega) (by omega),
    hByte (other + 2) (by omega) (by omega), hByte (other + 3) (by omega) (by omega)]

@[simp] theorem rd32be_zeroBlock (off : Nat) : rd32be zeroBlock off = 0 := by
  simp [rd32be, zeroBlock]

/-! ## The server's state -/

/-- One mount slot. The superblock fields only the allocator reads are left out;
`journal` is `map_block(&g_journal, ·)`, the place of each block of the journal
file, zero where it has none. -/
structure Fs where
  used : Bool
  mountPoint : List Char
  dev : Nat
  blockSize : Nat
  hasJournal : Bool
  jrnlFirst : Nat
  jrnlMaxlen : Nat
  jrnlSeq : Nat
  jrnlStart : Nat
  journal : Nat → Nat

/-- `memset(slot, 0, sizeof(*slot))`. -/
def Fs.zero : Fs where
  used := false
  mountPoint := []
  dev := 0
  blockSize := 0
  hasJournal := false
  jrnlFirst := 0
  jrnlMaxlen := 0
  jrnlSeq := 0
  jrnlStart := 0
  journal := fun _ => 0

/-- One collected block of the open batch. -/
structure TxnEntry where
  target : Nat
  buf : Block
  owner : Nat

/-- One block write as it reached a disk. -/
structure DiskWrite where
  dev : Nat
  block : Nat
  data : Block
  owner : Nat

/-- Contents of every disk, by device and block number. -/
abbrev Disks := Nat → Nat → Block

/-- `FS_MAX` mount slots. -/
def fsMax : Nat := 4

/-- The batch holds at most `TXN_MAX` blocks. -/
def txnMax : Nat := 32

/-- Room kept for the request that would otherwise overflow the batch. -/
def txnHeadroom : Nat := 10

/-- The globals of the server and the disks it drives. `bad` says which blocks
the driver fails on at the moment. -/
structure Server where
  fs : Nat → Fs
  cur : Nat
  txnOpen : Bool
  txn : List TxnEntry
  jbuf : Block
  jdata : Block
  disk : Disks
  bad : Nat → Nat → Bool
  log : List DiskWrite

/-- The filesystem `g_cur` points at. -/
def Server.g (s : Server) : Fs := s.fs s.cur

/-- Assign the fields of the current filesystem. -/
def Server.setG (s : Server) (f : Fs) : Server :=
  { s with fs := update s.fs s.cur f }

def Server.setSeq (s : Server) (seq : Nat) : Server := s.setG { s.g with jrnlSeq := seq }

def Server.setStart (s : Server) (start : Nat) : Server := s.setG { s.g with jrnlStart := start }

/-- Fill the scratch buffer `g_jbuf`. -/
def Server.setJbuf (s : Server) (b : Block) : Server := { s with jbuf := b }

/-- Fill the scratch buffer `g_jdata`. -/
def Server.setJdata (s : Server) (b : Block) : Server := { s with jdata := b }

/-- Assign the collected blocks of the batch. -/
def Server.setTxn (s : Server) (entries : List TxnEntry) : Server := { s with txn := entries }

/-- One write, applied to the disks. -/
def applyWrite (d : Disks) (w : DiskWrite) : Disks :=
  update d w.dev (update (d w.dev) w.block w.data)

/-- Writes in the order they were issued. -/
def applyWrites (d : Disks) (ws : List DiskWrite) : Disks := ws.foldl applyWrite d

@[simp] theorem applyWrites_nil (d : Disks) : applyWrites d [] = d := rfl

@[simp] theorem applyWrites_cons (d : Disks) (w : DiskWrite) (ws : List DiskWrite) :
    applyWrites d (w :: ws) = applyWrites (applyWrite d w) ws := rfl

theorem applyWrites_append (d : Disks) (ws vs : List DiskWrite) :
    applyWrites d (ws ++ vs) = applyWrites (applyWrites d ws) vs := by
  simp [applyWrites, List.foldl_append]

/-! ## Reading and writing one block -/

/-- Run the rest of a function unless the call before it failed: the C idiom
`if (call() != 0) return -1;`. -/
def andThen (r : Server × Bool) (rest : Server → Server × Bool) : Server × Bool :=
  if r.2 then rest r.1 else r

/-- `disk_write` under `g_cur`, on behalf of `owner`. -/
def putBlock (s : Server) (block : Nat) (data : Block) (owner : Nat) : Server × Bool :=
  if s.bad s.g.dev block then (s, false)
  else
    let w : DiskWrite := ⟨s.g.dev, block, data, owner⟩
    ({ s with disk := applyWrite s.disk w, log := s.log ++ [w] }, true)

/-- Whatever the batch is holding for this block, if it holds one. -/
def txnPeek (s : Server) (block : Nat) : Option Block :=
  if s.txnOpen then (s.txn.find? fun e => e.target == block).map TxnEntry.buf else none

/-- `disk_read` under `g_cur`. -/
def diskRead (s : Server) (block : Nat) : Option Block :=
  if s.bad s.g.dev block then none else some (s.disk s.g.dev block)

/-- `read_block`: the batch first, then the disk. -/
def readBlock (s : Server) (block : Nat) : Option Block :=
  match txnPeek s block with
  | some b => some b
  | none => diskRead s block

/-- One block of the journal file, past the batch. -/
def jrnlRead (s : Server) (index : Nat) : Option Block :=
  if s.g.journal index = 0 then none else diskRead s (s.g.journal index)

/-- One block of the journal file, straight to the disk. A copy of a collected
block is still that block's, so it keeps its owner. -/
def jrnlWrite (s : Server) (index : Nat) (data : Block) (owner : Nat) : Server × Bool :=
  if s.g.journal index = 0 then (s, false) else putBlock s (s.g.journal index) data owner

/-- The journal is a ring. -/
def jrnlNext (s : Server) (idx : Nat) : Nat :=
  if s.g.jrnlMaxlen ≤ (idx + 1) % 2 ^ 32 then s.g.jrnlFirst else (idx + 1) % 2 ^ 32

end LeahOS.Vfsd
