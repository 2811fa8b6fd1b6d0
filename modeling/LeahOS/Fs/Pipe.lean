import LeahOS.Lib.Ring
import LeahOS.Lib.Run

/-!
# Pipes as queues (`kernel/fs/files.cpp`)

`pipe_read` and `pipe_write` run from one blocking point to the next; what happens between two
of them is one step here. A call that blocks can be resumed at any time, with a signal pending
or not, whether somebody woke it or not.

`PipeRun` adds to the pipe what nobody stores: which bytes each write has put in, in order, and
how each read ended. `Inv` says that what was put in is what was returned followed by what is in
the ring.
-/

namespace LeahOS.Fs
open Lib Function List Option

/-- `Pipe::kSize`. -/
def kPipeSize : Nat := 4096

def kInterrupted : Int := -4

/-- `Pipe`, without what only its lifetime depends on. -/
structure Pipe where
  ring : RingBuffer UInt8
  readers : Nat
  writers : Nat

namespace Pipe

/-- The pipe `memset` makes, with so many ends. -/
def fresh (readers writers : Nat) : Pipe := ⟨⟨fun _ => 0, 0, 0, 0⟩, readers, writers⟩

/-- `pipe_read` up to where it returns or blocks: the result and the bytes, or `none`. -/
def read (p : Pipe) (count : Nat) : Pipe × Option (Int × List UInt8) :=
  if 0 < p.ring.count then
    let out := p.ring.drain kPipeSize count
    ({ p with ring := out.2 }, some (out.1.length, out.1))
  else if p.writers = 0 then (p, some (0, []))
  else (p, none)

/-- The loop of `pipe_write` up to where it returns or blocks: what is written by then, and the
result if it returns. -/
def writeLoop : Nat → Pipe → List UInt8 → Nat → Option (Pipe × Nat × Option Int)
  | 0, _, _, _ => none
  | fuel + 1, p, data, written =>
    if written < data.length then
      if p.readers = 0 then
        some (p, written, some (if 0 < written then (written : Int) else -1))
      else if p.ring.count = kPipeSize then some (p, written, none)
      else
        let filled := p.ring.fill kPipeSize (data.drop written)
        writeLoop fuel { p with ring := filled.1 } data (written + filled.2)
    else some (p, written, some written)

/-- `pipe_write` from a state where so much is written. Each round of the loop writes at least
one byte. -/
def write (p : Pipe) (data : List UInt8) (written : Nat) : Option (Pipe × Nat × Option Int) :=
  writeLoop (data.length + 1) p data written

end Pipe

/-- The two ends of a pipe. -/
inductive End
  | reader
  | writer
  deriving DecidableEq

/-- A call on the pipe. -/
inductive PipeCall
  | none
  | reading (count : Nat)
  | writing (data : List UInt8) (written : Nat)
  | returned
  | wrote (data : List UInt8) (result : Int)

/-- How a read ended: what it asked for and got, and how many bytes were in the pipe and how many
writers there were when it returned. -/
structure ReadEnd where
  asked : Nat
  result : Int
  bytes : List UInt8
  outstanding : Nat
  writers : Nat

/-- The pipe and its calls by number, the bytes the writes have put in, and the reads that have
returned. -/
structure PipeRun where
  pipe : Pipe
  calls : Nat → PipeCall
  started : Nat
  put : List (Nat × UInt8)
  ends : List ReadEnd

/-- What can happen to a pipe. -/
inductive PipeEvent
  | read (count : Nat)
  | write (data : List UInt8)
  | resume (call : Nat) (signal : Bool)
  /-- A descriptor more holds this end: it is inherited, or a named pipe is opened. -/
  | attach (e : End)
  | close (e : End)

namespace PipeRun

/-- A pipe with so many ends, and no calls yet. -/
def start (readers writers : Nat) : PipeRun :=
  ⟨Pipe.fresh readers writers, fun _ => .none, 0, [], []⟩

/-- The bytes returned by reads, in order. -/
def taken (s : PipeRun) : List UInt8 := s.ends.flatMap ReadEnd.bytes

/-- A read returns. -/
def readReturns (s : PipeRun) (call count : Nat) (result : Int) (bytes : List UInt8) : PipeRun :=
  { s with
    calls := update s.calls call .returned
    ends := s.ends ++
      [⟨count, result, bytes, s.put.length - (s.taken.length + bytes.length), s.pipe.writers⟩] }

/-- A read runs. -/
def readTurn (s : PipeRun) (call count : Nat) : PipeRun :=
  let turn := s.pipe.read count
  let s := { s with pipe := turn.1 }
  match turn.2 with
  | some (result, bytes) => s.readReturns call count result bytes
  | none => { s with calls := update s.calls call (.reading count) }

/-- A write runs. -/
def writeTurn (s : PipeRun) (call : Nat) (data : List UInt8) (written : Nat) : Option PipeRun :=
  (s.pipe.write data written).map fun turn =>
    { s with
      pipe := turn.1
      put := s.put ++ ((data.drop written).take (turn.2.1 - written)).map fun byte => (call, byte)
      calls := update s.calls call
        (match turn.2.2 with
        | some result => .wrote data result
        | none => .writing data turn.2.1) }

/-- A call goes on after it was blocked. -/
def resume (s : PipeRun) (call : Nat) (signal : Bool) : Option PipeRun :=
  match s.calls call with
  | .reading count =>
    some (if signal then s.readReturns call count kInterrupted [] else s.readTurn call count)
  | .writing data written =>
    if signal then
      some { s with
        calls := update s.calls call
          (.wrote data (if 0 < written then (written : Int) else kInterrupted)) }
    else s.writeTurn call data written
  | _ => none

/-- One step. A call needs a descriptor for its end, and an end that is closed has one; a pipe
without descriptors is gone. -/
def next (s : PipeRun) : PipeEvent → Option PipeRun
  | .read count =>
    if s.pipe.readers = 0 then none
    else some ({ s with started := s.started + 1 }.readTurn s.started count)
  | .write data =>
    if s.pipe.writers = 0 then none
    else { s with started := s.started + 1 }.writeTurn s.started data 0
  | .resume call signal => s.resume call signal
  | .attach .reader =>
    if s.pipe.readers + s.pipe.writers = 0 then none
    else some { s with pipe := { s.pipe with readers := s.pipe.readers + 1 } }
  | .attach .writer =>
    if s.pipe.readers + s.pipe.writers = 0 then none
    else some { s with pipe := { s.pipe with writers := s.pipe.writers + 1 } }
  | .close .reader =>
    if s.pipe.readers = 0 then none
    else some { s with pipe := { s.pipe with readers := s.pipe.readers - 1 } }
  | .close .writer =>
    if s.pipe.writers = 0 then none
    else some { s with pipe := { s.pipe with writers := s.pipe.writers - 1 } }

/-- The steps of a pipe. -/
def Step (s : PipeRun) (e : PipeEvent) (s' : PipeRun) : Prop := s.next e = some s'

/-- What one call has put in. -/
def putBy (s : PipeRun) (call : Nat) : List UInt8 :=
  (s.put.filter fun entry => entry.1 = call).map Prod.snd

/-- The pipe is a queue: what was returned is the beginning of what was put in, a write has put in
as much of its data as it reports, and not more than the ring holds is outstanding. A read that
asked for at least so many bytes returns 0 only at the end of the file. -/
structure Queue (least : Nat) (s : PipeRun) : Prop where
  fifo : s.taken <+: s.put.map Prod.snd
  reported : ∀ call data result, s.calls call = .wrote data result →
    s.putBy call = data.take result.toNat
  bounded : s.put.length ≤ s.taken.length + kPipeSize
  counted : ∀ r ∈ s.ends, r.bytes.length = r.result.toNat
  atEnd : ∀ r ∈ s.ends, least ≤ r.asked → r.result = 0 → r.outstanding = 0 ∧ r.writers = 0

end PipeRun

/-! ### The loop of a write -/

/-- What a write that has written so much comes to: more of its data is in the ring. -/
def Pipe.Wrote (p : Pipe) (data : List UInt8) (written : Nat) (r : Option (Pipe × Nat × Option Int)) :
    Prop :=
  ∃ p' total result, r = some (p', total, result) ∧ p'.ring.Ok kPipeSize ∧
    p'.ring.contents kPipeSize =
      p.ring.contents kPipeSize ++ (data.drop written).take (total - written) ∧
    written ≤ total ∧ total ≤ data.length ∧ ∀ v, result = some v → v.toNat = total

variable {p : Pipe} {data : List UInt8} {fuel written : Nat}

theorem Pipe.writeLoop_spec (hOk : p.ring.Ok kPipeSize) (hWritten : written ≤ data.length)
    (hFuel : data.length < written + fuel) : p.Wrote data written (writeLoop fuel p data written) := by
  induction fuel generalizing p written with
  | zero => omega
  | succ fuel ih =>
    -- where the loop ends nothing more is written
    have hStay : ∀ result : Option Int, (∀ v, result = some v → v.toNat = written) →
        p.Wrote data written (some (p, written, result)) := fun result hResult =>
      ⟨p, written, result, rfl, hOk, by simp, Nat.le_refl _, hWritten, hResult⟩
    unfold writeLoop
    by_cases hMore : written < data.length
    · rw [if_pos hMore]
      by_cases hBroken : p.readers = 0
      · rw [if_pos hBroken]
        apply hStay
        rintro v ⟨⟩
        split
        · rfl
        next hNone => exact (Nat.eq_zero_of_not_pos hNone).symm
      · rw [if_neg hBroken]
        by_cases hFull : p.ring.count = kPipeSize
        · rw [if_pos hFull]
          exact hStay none fun v hv => nomatch hv
        · -- one round of the loop: the ring takes some of the rest, and at least one byte
          rw [if_neg hFull]
          obtain ⟨hOk', hContents, hCount⟩ := RingBuffer.fill_spec hOk (data.drop written)
          generalize p.ring.fill kPipeSize (data.drop written) = filled at *
          have hRoom := hOk.count
          rw [length_drop] at hCount
          obtain ⟨p', total, result, hLoop, hAfter, hAll, hLow, hHigh, hResult⟩ :=
            @ih { p with ring := filled.1 } (written + filled.2) hOk' (by omega) (by omega)
          refine ⟨p', total, result, hLoop, hAfter, ?_, by omega, hHigh, hResult⟩
          have hSplit : total - written = filled.2 + (total - (written + filled.2)) := by omega
          rw [hAll, hSplit, take_add, drop_drop, ← append_assoc]
          congr 1
    · rw [if_neg hMore]
      apply hStay
      rintro v ⟨⟩
      rfl

/-- A write comes to its end or to a blocking point, having written some of its data. -/
theorem Pipe.write_spec (hOk : p.ring.Ok kPipeSize) (hWritten : written ≤ data.length) :
    p.Wrote data written (p.write data written) :=
  writeLoop_spec hOk hWritten (by omega)

/-! ### What holds in every run -/

/-- What a call has put in, by where it is. -/
def PipeCall.Put : PipeCall → List UInt8 → Prop
  | .writing data written, bytes => written ≤ data.length ∧ bytes = data.take written
  | .wrote data result, bytes => bytes = data.take result.toNat
  | _, bytes => bytes = []

namespace PipeRun
variable {s s' : PipeRun}

/-- What was put in is what was returned, what a read is about to return, and what is in the
ring. -/
structure Inv (about : List UInt8) (s : PipeRun) : Prop where
  ring : s.pipe.ring.Ok kPipeSize
  flow : s.put.map Prod.snd = s.taken ++ (about ++ s.pipe.ring.contents kPipeSize)
  calls : ∀ call, (s.calls call).Put (s.putBy call)
  later : ∀ call, s.started ≤ call → s.calls call = .none
  counted : ∀ r ∈ s.ends, r.bytes.length = r.result.toNat
  atEnd : ∀ r ∈ s.ends, 1 ≤ r.asked → r.result = 0 → r.outstanding = 0 ∧ r.writers = 0

theorem Inv.queue (hInv : Inv [] s) : s.Queue 1 where
  fifo := ⟨_, hInv.flow.symm⟩
  reported call data result hCall := by
    have hPut := hInv.calls call
    rw [hCall] at hPut
    exact hPut
  bounded := by
    have hLength := congrArg List.length hInv.flow
    have hCount := hInv.ring.count
    simp only [length_map, nil_append, length_append, RingBuffer.length_contents] at hLength
    omega
  counted := hInv.counted
  atEnd := hInv.atEnd

/-- Moving a call that is there. -/
theorem Inv.setCall {about : List UInt8} (hInv : Inv about s) {call : Nat} {c : PipeCall}
    (hThere : call < s.started) (hPut : c.Put (s.putBy call)) :
    Inv about { s with calls := update s.calls call c } where
  ring := hInv.ring
  flow := hInv.flow
  calls other := by
    dsimp only
    by_cases hSame : other = call
    · rw [hSame, update_self]
      exact hPut
    · rw [update_of_ne hSame]
      exact hInv.calls other
  later other hLater := by
    have hOther : other ≠ call := by
      rintro rfl
      exact absurd hLater (Nat.not_le.mpr hThere)
    dsimp only
    rw [update_of_ne hOther]
    exact hInv.later other hLater
  counted := hInv.counted
  atEnd := hInv.atEnd

/-- A read returns what it took out of the ring. If that is nothing it was at the end of the
file, was interrupted or asked for nothing. -/
theorem Inv.readReturns {bytes : List UInt8} (hInv : Inv bytes s) {call count : Nat} {result : Int}
    (hThere : call < s.started) (hNone : s.putBy call = []) (hCounted : bytes.length = result.toNat)
    (hZero : 1 ≤ count → result = 0 → s.pipe.ring.count = 0 ∧ s.pipe.writers = 0) :
    Inv [] (s.readReturns call count result bytes) := by
  have hSet := hInv.setCall (c := .returned) hThere hNone
  have hLength := congrArg List.length hInv.flow
  simp only [length_map, length_append, RingBuffer.length_contents] at hLength
  refine ⟨hSet.ring, ?_, hSet.calls, hSet.later, fun r hr => ?_, fun r hr hAsked hResult => ?_⟩
  · rw [nil_append]
    simp only [PipeRun.readReturns, taken, flatMap_append, flatMap_cons, flatMap_nil, append_nil]
    rw [append_assoc]
    exact hInv.flow
  · rcases mem_append.mp hr with hOld | hNew
    · exact hInv.counted r hOld
    · rw [mem_singleton.mp hNew]
      exact hCounted
  · rcases mem_append.mp hr with hOld | hNew
    · exact hInv.atEnd r hOld hAsked hResult
    · rw [mem_singleton.mp hNew] at hAsked hResult ⊢
      obtain ⟨hEmpty, hWriters⟩ := hZero hAsked hResult
      refine ⟨?_, hWriters⟩
      change s.put.length - (s.taken.length + bytes.length) = 0
      omega

theorem Inv.readTurn (hInv : Inv [] s) {call : Nat} (count : Nat) (hThere : call < s.started)
    (hNone : s.putBy call = []) : Inv [] (s.readTurn call count) := by
  unfold PipeRun.readTurn Pipe.read
  by_cases hSome : 0 < s.pipe.ring.count
  · rw [if_pos hSome]
    obtain ⟨hOk, hContents, hLength⟩ := RingBuffer.drain_spec hInv.ring count
    generalize s.pipe.ring.drain kPipeSize count = out at *
    have hTaken : Inv out.1 { s with pipe := { s.pipe with ring := out.2 } } := by
      refine { hInv with ring := hOk, flow := ?_ }
      rw [← hContents]
      exact hInv.flow
    refine hTaken.readReturns hThere hNone rfl fun hAsked hResult => ?_
    -- there were bytes and some were asked for
    omega
  · rw [if_neg hSome]
    by_cases hWriters : s.pipe.writers = 0
    · rw [if_pos hWriters]
      exact hInv.readReturns hThere hNone rfl fun _ _ => ⟨Nat.eq_zero_of_not_pos hSome, hWriters⟩
    · rw [if_neg hWriters]
      exact hInv.setCall hThere hNone

/-- What one call has put in after another one, or itself, has put in more. -/
theorem putBy_append (put : List (Nat × UInt8)) (call other : Nat) (bytes : List UInt8) :
    ((put ++ bytes.map fun byte => (call, byte)).filter fun entry => entry.1 = other).map Prod.snd =
      ((put.filter fun entry => entry.1 = other).map Prod.snd) ++
        if other = call then bytes else [] := by
  rw [filter_append, map_append]
  congr 1
  by_cases hSame : other = call
  · simp [hSame, List.filter_map, comp_def]
  · simp [List.filter_map, comp_def, Ne.symm hSame, hSame]

theorem Inv.writeTurn (hInv : Inv [] s) {call written : Nat} {data : List UInt8}
    (hThere : call < s.started) (hWritten : written ≤ data.length)
    (hPut : s.putBy call = data.take written) :
    ∃ s', s.writeTurn call data written = some s' ∧ Inv [] s' := by
  obtain ⟨p, total, result, hWrite, hOk, hContents, hLow, hHigh, hResult⟩ :=
    Pipe.write_spec hInv.ring hWritten
  unfold PipeRun.writeTurn
  rw [hWrite, map_some]
  refine ⟨_, rfl, ?_⟩
  -- the call has put in as much as it counts
  have hAll : data.take written ++ (data.drop written).take (total - written) = data.take total := by
    rw [← take_add]
    congr 1
    omega
  refine ⟨hOk, ?_, fun other => ?_, fun other hLater => ?_, hInv.counted, hInv.atEnd⟩
  · rw [map_append, List.map_map, hInv.flow, hContents]
    simp [comp_def, taken]
  · simp only [putBy]
    rw [putBy_append]
    by_cases hSame : other = call
    · rw [hSame, update_self, if_pos rfl]
      change PipeCall.Put _ (s.putBy call ++ _)
      rw [hPut, hAll]
      cases result with
      | none => exact ⟨hHigh, rfl⟩
      | some v =>
        change data.take total = data.take v.toNat
        rw [hResult v rfl]
    · rw [update_of_ne hSame, if_neg hSame, append_nil]
      exact hInv.calls other
  · have hOther : other ≠ call := by
      rintro rfl
      exact absurd hLater (Nat.not_le.mpr hThere)
    dsimp only
    rw [update_of_ne hOther]
    exact hInv.later other hLater

/-- The numbers of the ends do not matter to the queue. -/
theorem Inv.setEnds (hInv : Inv [] s) (readers writers : Nat) :
    Inv [] { s with pipe := { s.pipe with readers := readers, writers := writers } } :=
  { hInv with }

/-- There is room for another call, which has put in nothing. -/
theorem Inv.open (hInv : Inv [] s) : Inv [] { s with started := s.started + 1 } ∧
    s.putBy s.started = [] := by
  refine ⟨{ hInv with later := fun call hLater => ?_ }, ?_⟩
  · exact hInv.later call (Nat.le_of_succ_le hLater)
  · have hPut := hInv.calls s.started
    rw [hInv.later s.started (Nat.le_refl _)] at hPut
    exact hPut

/-- A call that waits is there. -/
theorem Inv.there (hInv : Inv [] s) {call : Nat} (hCall : s.calls call ≠ .none) :
    call < s.started :=
  Nat.lt_of_not_le fun hLater => hCall (hInv.later call hLater)

theorem Inv.resume (hInv : Inv [] s) {call : Nat} {signal : Bool}
    (hNext : s.resume call signal = some s') : Inv [] s' := by
  have hPut := hInv.calls call
  unfold PipeRun.resume at hNext
  split at hNext
  next count hCall =>
    have hThere : call < s.started := hInv.there (by rw [hCall]; exact PipeCall.noConfusion)
    rw [hCall] at hPut
    obtain rfl := some.inj hNext
    cases signal with
    | true => exact hInv.readReturns hThere hPut rfl fun _ hResult => absurd hResult (by decide)
    | false => exact hInv.readTurn count hThere hPut
  next data written hCall =>
    have hThere : call < s.started := hInv.there (by rw [hCall]; exact PipeCall.noConfusion)
    rw [hCall] at hPut
    cases signal with
    | true =>
      -- what did get through still counts
      obtain rfl := some.inj hNext
      refine hInv.setCall hThere ?_
      rw [hPut.2]
      congr 1
      split
      · rfl
      next hNothing => exact Nat.eq_zero_of_not_pos hNothing
    | false =>
      obtain ⟨s'', hTurn, hAfter⟩ := hInv.writeTurn hThere hPut.1 hPut.2
      obtain rfl : s'' = s' := some.inj (hTurn.symm.trans hNext)
      exact hAfter
  · cases hNext

theorem Inv.step {e : PipeEvent} (hInv : Inv [] s) (hStep : Step s e s') : Inv [] s' := by
  obtain ⟨hOpen, hNone⟩ := hInv.open
  cases e with
  | read count =>
    obtain ⟨-, rfl⟩ := unless_inv hStep
    exact hOpen.readTurn count (Nat.lt_succ_self _) hNone
  | write data =>
    obtain ⟨-, hNext⟩ := ite_none_left_eq_some.mp hStep
    obtain ⟨s'', hTurn, hAfter⟩ := @Inv.writeTurn _ hOpen s.started 0 data
      (Nat.lt_succ_self _) (Nat.zero_le _) hNone
    obtain rfl : s'' = s' := some.inj (hTurn.symm.trans hNext)
    exact hAfter
  | resume call signal => exact hInv.resume hStep
  | attach e | close e =>
    -- four ways to change the number of an end
    cases e
    all_goals
      obtain ⟨-, rfl⟩ := unless_inv hStep
      exact hInv.setEnds _ _

theorem inv_start (readers writers : Nat) : Inv [] (start readers writers) where
  ring := ⟨show 0 < kPipeSize by decide, rfl, Nat.zero_le _⟩
  flow := rfl
  calls _ := rfl
  later _ _ := rfl
  counted _ hr := absurd hr not_mem_nil
  atEnd _ hr := absurd hr not_mem_nil

/-- In every run a pipe is a queue; a read of at least one byte returns 0 only at the end of the
file. -/
theorem queue_of_run {readers writers : Nat} {es : List PipeEvent}
    (hRun : Run Step (start readers writers) es s) : s.Queue 1 :=
  (hRun.invariant (fun _ _ _ hInv hStep => hInv.step hStep) (inv_start readers writers)).queue

/-- A reader waits, two writers write, one byte is left when the last writer goes, and after it
the reader is told. -/
def talk : List PipeEvent :=
  [.read 2, .attach .writer, .write [1], .write [2, 3], .resume 0 false, .close .writer,
    .close .writer, .read 5, .read 1]

theorem queue_talk : ∃ s, Run Step (start 1 1) talk s ∧
    s.ends.map ReadEnd.bytes = [[1, 2], [3], []] ∧ s.Queue 1 := by
  obtain ⟨s, hRun, hBytes⟩ : ∃ s, Run Step (start 1 1) talk s ∧
      s.ends.map ReadEnd.bytes = [[1, 2], [3], []] :=
    Run.exists_of_foldlM (fun _ _ _ hNext => hNext) (by decide +kernel)
  exact ⟨s, hRun, hBytes, queue_of_run hRun⟩

/-- A read of no bytes at all returns 0 while a byte is there to be read. -/
theorem not_queue_zero : ¬ ∀ readers writers es s,
    Run Step (start readers writers) es s → s.Queue 0 := by
  intro hAll
  have hEnd : ([PipeEvent.write [7], .read 0].foldlM next (start 1 1)).map (fun s =>
      s.ends.map fun r => (r.result, r.outstanding)) = some [(0, 1)] := by
    decide +kernel
  obtain ⟨s, hFold, hEnds⟩ := map_eq_some_iff.mp hEnd
  have hQueue := hAll 1 1 _ s (.of_foldlM (fun _ _ _ hNext => hNext) _ hFold)
  obtain ⟨r, hr, hPair⟩ : ∃ r ∈ s.ends, (r.result, r.outstanding) = (0, 1) := by
    have hMem : ((0, 1) : Int × Nat) ∈ s.ends.map fun r => (r.result, r.outstanding) := by
      rw [hEnds]
      exact mem_singleton.mpr rfl
    exact List.mem_map.mp hMem
  simp only [Prod.mk.injEq] at hPair
  have hNone := (hQueue.atEnd r hr (Nat.zero_le _) hPair.1).1
  rw [hPair.2] at hNone
  cases hNone

end PipeRun
end LeahOS.Fs
