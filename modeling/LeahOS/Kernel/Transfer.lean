import LeahOS.Kernel.Authority

/-!
# The right to be sent

A handle carries `kTransfer` if it may be sent to another process, and a process that narrows
a handle by `duplicate` can leave the right out. What the right is for: a handle without it
stays with its process and the children that inherit it.

`reply` resolves the handles of a message in the server's table and never looks at the right,
so a handle goes with the answer whether it carries it or not. `transferHonoured_of_willing`
is what remains: where servers do not put handles without the right into their messages, no
such handle gets to another process but by a fork, over whole runs and through any number of
duplicates.
-/

namespace LeahOS.Kernel
open Lib

/-- `w` was derived from `v`, in any number of steps. -/
def Via.Derived (v w : Via) : Prop := Relation.ReflTransGen (fun s w => w.source = some s) v w

/-- `w` was derived from `v` by duplicates in the same process and by inheritance. -/
inductive Via.HandedDown (v : Via) : Via → Prop
  | here : HandedDown v v
  | duplicated {h : Info} {s : Via} (hs : HandedDown v s) (hPid : h.pid = s.info.pid) :
      HandedDown v (.duplicated h s)
  | inherited {h : Info} {s : Via} (hs : HandedDown v s) : HandedDown v (.inherited h s)

/-- The handle may be sent. -/
def Info.Transferable (h : Info) : Prop := h.rights &&& kTransfer ≠ 0

instance (h : Info) : Decidable h.Transferable := inferInstanceAs (Decidable (¬ _))

variable {π : Type}

/-- What came with an answer came from a handle that may be sent, and what was derived from a
handle that may not was handed down from it. -/
structure TransferHonoured (k : Machine π) : Prop where
  sent : ∀ h s, Via.sent h s ∈ k.objects.issued → s.info.Transferable
  narrowed : ∀ pid e, Holds k.objects.tables pid e → ∀ v, Via.Derived v e.via →
    ¬ v.info.Transferable → Via.HandedDown v e.via

/-- The server offers only handles that may be sent. -/
def Willing (k : Machine π) : Event π → Prop
  | .reply p _ _ msg => ∀ i < min msg.handles kMaxCarried,
      ∀ e ∈ entryOf k.objects.tables (k.tgid p) (msg.handle i), e.rights &&& kTransfer ≠ 0
  | _ => True

instance (k : Machine π) (e : Event π) : Decidable (Willing k e) := by
  induction e using Event.casesOn <;> unfold Willing <;> infer_instance

/-- A handle that narrows one that may not be sent may not be sent. -/
theorem Narrows.transferable {h s : Info} (hNarrows : Narrows h s) (hSent : h.Transferable) :
    s.Transferable := by
  intro hNone
  refine hSent ?_
  rw [← hNarrows.rights, Nat.and_assoc, hNone, Nat.and_zero]

/-- Everything sent, and everything on its way, came from a handle that may be sent. -/
structure TransferInv (k : Machine π) : Prop where
  auth : AuthInv k
  sent : ∀ h s, Via.sent h s ∈ k.objects.issued → s.info.Transferable
  carried : ∀ c, Carries k c → c.via.info.Transferable

variable {k : Machine π}

theorem Initial.transferInv (h : Initial k) : TransferInv k where
  auth := h.authInv
  sent := by
    intro x s hx
    simp [h.issued_eq] at hx
  carried := by
    rintro c ⟨i, j, hi, -⟩
    simp [h.requests_eq i] at hi

theorem transferInv_step {k' : Machine π} {e : Event π} (h : TransferInv k) (hWilling : Willing k e)
    (hStep : Step k e k') : TransferInv k' := by
  refine ⟨authInv_step h.auth hStep, fun x s hx => ?_, fun c hc => ?_⟩
  · rcases (adds_of_step hStep).issued _ hx with hOld | hNew
    · exact h.sent x s hOld
    · cases hNew with
      | sent pid hCarries => exact h.carried _ hCarries
  · rcases carries_of_step hStep hc with hOld | ⟨p, slot, call, msg, rfl, hNew⟩
    · exact h.carried c hOld
    · obtain ⟨i, hi, src, hEntry, rfl⟩ := mem_resolveCarried hNew
      have hInfo : src.via.info = src.info (k.tgid p) :=
        (h.auth.held _ _ (holds_of_entryOf hEntry)).2
      rw [hInfo]
      exact hWilling i hi src hEntry

/-- By induction on the derivation: a handle that was sent cannot go back to one that may
not be. -/
theorem TransferInv.handedDown (h : TransferInv k) {v w : Via} (hDerived : Via.Derived v w)
    (hw : w ∈ k.objects.issued) (hv : ¬ v.info.Transferable) :
    Via.HandedDown v w ∧ Narrows w.info v.info := by
  induction hDerived with
  | refl => exact ⟨Via.HandedDown.here, .refl _⟩
  | @tail s w _ hSource ih =>
    obtain ⟨hs, hNarrows⟩ := h.auth.traced.source w hw s hSource
    obtain ⟨hDown, hNarrows'⟩ := ih hs
    refine ⟨?_, hNarrows.trans hNarrows'⟩
    cases w with
    | given x => cases hSource
    | duplicated x s =>
      cases hSource
      exact Via.HandedDown.duplicated hDown (h.auth.traced.duplicated x _ hw)
    | inherited x s =>
      cases hSource
      exact Via.HandedDown.inherited hDown
    | sent x s =>
      cases hSource
      exact absurd (hNarrows'.transferable (h.sent x _ hw)) hv

theorem TransferInv.honoured (h : TransferInv k) : TransferHonoured k where
  sent := h.sent
  narrowed pid e he _ hDerived hv := (h.handedDown hDerived (h.auth.held pid e he).1 hv).1

/-- **In a run in which servers offer only handles that may be sent, a handle that may not
gets to another process by forks alone.** -/
theorem transferHonoured_of_willing {k₀ k : Machine π} {es : List (Event π)} (hInit : Initial k₀)
    (hRun : Run (Restrict Willing Step) k₀ es k) : TransferHonoured k := by
  exact (hRun.invariant_of (I := TransferInv) (fun _ _ _ => transferInv_step) hInit.transferInv).honoured

/-- The server makes an image, narrows the handle to one that may not be sent, and answers a
call with it. -/
def smuggledEvents : List (Event Nat) :=
  [.portCreate 1 2, .imageCreate 1 ['a'] 0 [0x7f] (some fun i => i + 1) true,
    .duplicate 1 1024 kRead true, .callStart 2 0 (plain 0) false, .tryRecv 1 0,
    .reply 1 0 0 ⟨0, fun _ => 1025, 1⟩, .callCollect 2 true]

/-- The caller gets it all the same. -/
theorem not_transferHonoured_smuggledEvents :
    ¬ ∀ (k₀ k : Machine Nat) (es : List (Event Nat)), Initial k₀ → Run Step k₀ es k →
      TransferHonoured k := by
  intro hAll
  obtain ⟨k, hRun, hLast⟩ : ∃ k, Run Step (boot 0 2) smuggledEvents k ∧
      k.objects.issued.getLast? = some (.sent ⟨2, .image, 0, kRead, 0⟩
        (.duplicated ⟨1, .image, 0, kRead, 0⟩ (.given ⟨1, .image, 0, kImageRights, 0⟩))) :=
    Run.exists_of_foldlM (fun _ _ _ => step_of_next) (by decide)
  have hSent := (hAll _ _ _ (boot_initial 0 2) hRun).sent _ _ (List.mem_of_getLast? hLast)
  exact hSent rfl

/-- The server sends a handle that may be sent, and the caller leaves it to a child. -/
def willingEvents : List (Event Nat) :=
  [.portCreate 1 2, .imageCreate 1 ['a'] 0 [0x7f] (some fun i => i + 1) true,
    .duplicate 1 1024 kRead true, .callStart 2 0 (plain 0) false, .tryRecv 1 0,
    .reply 1 0 0 ⟨0, fun _ => 1024, 1⟩, .callCollect 2 true, .duplicate 2 1024 kRead true,
    .fork 2 true]

theorem transferHonoured_willingEvents :
    ∃ (k : Machine Nat) (e : Entry), Holds k.objects.tables 3 e ∧
      (e.type, e.rights) = (.image, kRead) ∧ TransferHonoured k := by
  obtain ⟨k, hRun, hEntry⟩ : ∃ k, Run (Restrict Willing Step) (boot 0 2) willingEvents k ∧
      ((entryOf k.objects.tables 3 1025).map fun e => (e.type, e.rights)) = some (.image, kRead) :=
    Run.exists_of_guarded (fun _ _ _ => step_of_next) (by decide)
  obtain ⟨e, he, hFields⟩ := Option.map_eq_some_iff.mp hEntry
  exact ⟨k, e, holds_of_entryOf he, hFields,  transferHonoured_of_willing (boot_initial 0 2) hRun⟩

end LeahOS.Kernel
