import LeahOS.Lib.Run

/-!
# Reading a socket (`tcp_read`, `NET_TCP_RECV`)

One connection as `netd` keeps it for its reader: the bytes it has queued, and the readers it has
put aside until there are some. An answer takes up to 200 bytes off the queue, however many the
caller has room for, and `tcp_read` copies what fits and forgets the rest. A reader that a signal
takes out of its call leaves its entry behind, and the entry is answered all the same.

`returned_of_patient` is for callers with room for a whole answer that stay until they get it.
-/

namespace LeahOS.Net
open Lib List Option

/-- `TCP_RX`. -/
def kTcpRx : Nat := 8192

/-- What one answer carries at most. -/
def kAnswer : Nat := 200

/-- A connection. `waiting` are the entries of `g_pending` for its readers, in the order of the
table: the room of a caller that sleeps, or `none` where the caller has gone. `queued` and
`returned` are ghosts: all that was ever put into `rx`, and all that `tcp_read` has returned. -/
structure Socket where
  rx : List UInt8
  peerClosed : Bool
  dead : Bool
  waiting : List (Option Nat)
  queued : List UInt8
  returned : List UInt8

/-- A segment for the connection, a reset, a call of `tcp_read`, a signal to its caller, and the
end of an entry's time. The new entry of a reader comes anywhere among the others, if there is one
free in the table. -/
inductive SocketEvent
  | segment (data : List UInt8) (inOrder fin : Bool)
  | reset
  | read (bytes slot : Nat) (free : Bool)
  | interrupt
  | expire (slot : Nat)

namespace Socket

/-- A connection that was just made. -/
def init : Socket := ⟨[], false, false, [], [], []⟩

/-- What `tcp_read` copies of an answer. -/
def copied (reader : Option Nat) (data : List UInt8) : List UInt8 :=
  reader.elim [] fun bytes => data.take bytes

/-- A reader is answered with what is queued. -/
def give (s : Socket) (reader : Option Nat) : Socket :=
  { s with
    rx := s.rx.drop kAnswer
    returned := s.returned ++ copied reader (s.rx.take kAnswer) }

/-- The loop of `handle_frame` over the readers that wait. -/
def serve (s : Socket) : List (Option Nat) → Socket
  | [] => s
  | reader :: rest =>
    if s.rx ≠ [] then (s.give reader).serve rest
    else if s.peerClosed then s.serve rest
    else { s.serve rest with waiting := reader :: (s.serve rest).waiting }

/-- What a segment leaves in the queue. -/
def accept (s : Socket) (data : List UInt8) (inOrder fin : Bool) : Socket :=
  let kept := if inOrder then data.take (kTcpRx - s.rx.length) else []
  { s with
    rx := s.rx ++ kept
    queued := s.queued ++ kept
    peerClosed := s.peerClosed || fin }

/-- `NET_TCP_RECV` for a caller with room for `bytes`. -/
def recv (s : Socket) (bytes slot : Nat) (free : Bool) : Socket :=
  if s.dead then s
  else if s.rx ≠ [] then s.give (some bytes)
  else if s.peerClosed || !free then s
  else { s with waiting := s.waiting.take slot ++ some bytes :: s.waiting.drop slot }

/-- One step. The caller makes one call at a time. -/
def next (s : Socket) : SocketEvent → Option Socket
  | .segment data inOrder fin =>
    some ({ s.accept data inOrder fin with waiting := [] }.serve s.waiting)
  | .reset => some { s with dead := true, waiting := [] }
  | .read bytes slot free =>
    if 0 < bytes ∧ ∀ reader ∈ s.waiting, reader = none then some (s.recv bytes slot free) else none
  | .interrupt => some { s with waiting := s.waiting.map fun _ => none }
  | .expire slot => some { s with waiting := s.waiting.eraseIdx slot }

def Step (s : Socket) (e : SocketEvent) (s' : Socket) : Prop := s.next e = some s'

/-- The caller has room for an answer, and waits for it. -/
def Patient (_ : Socket) : SocketEvent → Prop
  | .read bytes _ _ => kAnswer ≤ bytes
  | .interrupt => False
  | _ => True

instance (s : Socket) (e : SocketEvent) : Decidable (Patient s e) := by
  cases e <;> unfold Patient <;> infer_instance

/-- Nothing is lost: what was queued and is not there any more was returned. -/
structure Lossless (s : Socket) : Prop where
  balance : s.queued = s.returned ++ s.rx
  roomy : ∀ reader ∈ s.waiting, ∃ bytes, reader = some bytes ∧ kAnswer ≤ bytes

variable {s s' : Socket}

theorem Lossless.give (h : s.Lossless) {bytes : Nat} (hRoom : kAnswer ≤ bytes) :
    (s.give (some bytes)).Lossless := by
  have hWhole : (s.rx.take kAnswer).take bytes = s.rx.take kAnswer := by
    rw [take_take, Nat.min_eq_right hRoom]
  refine ⟨?_, h.roomy⟩
  show s.queued = s.returned ++ (s.rx.take kAnswer).take bytes ++ s.rx.drop kAnswer
  rw [hWhole, append_assoc, take_append_drop]
  exact h.balance

/-- The loop keeps the balance, reader by reader; who is not answered waits on. -/
theorem Lossless.serve {readers : List (Option Nat)} (h : s.Lossless)
    (hRoomy : ∀ reader ∈ readers, ∃ bytes, reader = some bytes ∧ kAnswer ≤ bytes) :
    (s.serve readers).Lossless := by
  induction readers generalizing s with
  | nil => exact h
  | cons reader rest ih =>
    obtain ⟨hFirst, hRest⟩ := forall_mem_cons.mp hRoomy
    unfold Socket.serve
    split
    · obtain ⟨bytes, rfl, hRoom⟩ := hFirst
      exact ih (h.give hRoom) hRest
    split
    · exact ih h hRest
    · have hAfter := ih h hRest
      exact ⟨hAfter.balance, forall_mem_cons.mpr ⟨hFirst, hAfter.roomy⟩⟩

theorem Lossless.recv (h : s.Lossless) {bytes : Nat} (hRoom : kAnswer ≤ bytes) (slot : Nat)
    (free : Bool) : (s.recv bytes slot free).Lossless := by
  unfold Socket.recv
  split
  · exact h
  split
  · exact h.give hRoom
  split
  · exact h
  · refine ⟨h.balance, fun reader hReader => ?_⟩
    rcases mem_append.mp hReader with hBefore | hAfter
    · exact h.roomy reader (mem_of_mem_take hBefore)
    rcases mem_cons.mp hAfter with rfl | hAfter
    · exact ⟨bytes, rfl, hRoom⟩
    · exact h.roomy reader (mem_of_mem_drop hAfter)

theorem Lossless.step {e : SocketEvent} (h : s.Lossless) (hPatient : Patient s e)
    (hStep : Step s e s') : s'.Lossless := by
  cases e with
  | segment data inOrder fin =>
    obtain rfl := some.inj hStep
    refine Lossless.serve ⟨?_, fun reader hReader => absurd hReader not_mem_nil⟩ h.roomy
    show s.queued ++ _ = s.returned ++ (s.rx ++ _)
    rw [h.balance, append_assoc]
  | reset =>
    obtain rfl := some.inj hStep
    exact ⟨h.balance, fun reader hReader => absurd hReader not_mem_nil⟩
  | read bytes slot free => exact of_guard hStep fun _ => h.recv hPatient slot free
  | interrupt => exact hPatient.elim
  | expire slot =>
    obtain rfl := some.inj hStep
    exact ⟨h.balance, fun reader hReader => h.roomy reader (mem_of_mem_eraseIdx hReader)⟩

/-- In every run of calls with room for a whole answer that no signal cuts short, the bytes
returned are the first of those that were queued. -/
theorem returned_of_patient {es : List SocketEvent} (hRun : Run (Restrict Patient Step) init es s) :
    s.returned <+: s.queued := by
  have hInit : init.Lossless := ⟨rfl, fun reader hReader => absurd hReader not_mem_nil⟩
  exact ⟨s.rx, (hRun.invariant_of (I := Lossless) (fun _ _ _ => Lossless.step) hInit).balance.symm⟩

/-- A reader waits for five bytes, and another comes when there are more than fit an answer. -/
def patientEvents : List SocketEvent :=
  [.read 200 0 true, .segment [1, 2, 3, 4, 5] true false,
    .segment (List.replicate 201 6) true false, .read 512 0 true, .read 512 0 true]

theorem returned_patientEvents : ∃ s, Run (Restrict Patient Step) init patientEvents s ∧
    s.returned.length = 206 ∧ s.returned <+: s.queued := by
  obtain ⟨s, hRun, hLength⟩ : ∃ s, Run (Restrict Patient Step) init patientEvents s ∧
      s.returned.length = 206 :=
    Run.exists_of_guarded (fun _ _ _ h => h) (by decide +kernel)
  exact ⟨s, hRun, hLength, returned_of_patient hRun⟩

/-- Two bytes are queued for a caller with room for one. -/
def crampedEvents : List SocketEvent :=
  [.segment [1, 2] true false, .read 1 0 true, .segment [3] true false, .read 1 0 true]

/-- It reads the first byte and then the third. -/
theorem not_returned_crampedEvents : ¬ ∀ (es : List SocketEvent) (s : Socket),
    Run Step init es s → s.returned <+: s.queued := by
  intro hAll
  have hRun : Run Step init crampedEvents ⟨[], false, false, [], [1, 2, 3], [1, 3]⟩ :=
    Run.of_foldlM (fun _ _ _ h => h) crampedEvents rfl
  exact absurd (hAll _ _ hRun) (by decide)

end Socket
end LeahOS.Net
