import LeahOS.Kernel.Handles

/-!
# Where a handle comes from

A handle is given by the kernel, or derived from another one: by `duplicate` with a mask,
by `inherit` at a fork, or by going through a reply. A derived handle names the object
of its source and carries no right its source does not.

`Via` keeps the whole derivation of a handle, so the statement is about the list of all
handles there ever were: the source of each is in the list, and narrows to it. The work
is in the machine: what a table or a request slot holds is what was recorded of it, also
when slots, tables and requests are used again.
-/

namespace LeahOS.Kernel
open Lib Option

/-- The same object, and no more rights. -/
structure Narrows (h s : Info) : Prop where
  type_eq : h.type = s.type
  pointer_eq : h.pointer = s.pointer
  tag_eq : h.tag = s.tag
  rights : Within h.rights s.rights

theorem Narrows.refl (h : Info) : Narrows h h := ⟨rfl, rfl, rfl, .refl _⟩

theorem Narrows.trans {a b c : Info} (hab : Narrows a b) (hbc : Narrows b c) : Narrows a c :=
  ⟨hab.type_eq.trans hbc.type_eq, hab.pointer_eq.trans hbc.pointer_eq, hab.tag_eq.trans hbc.tag_eq,
    hab.rights.trans hbc.rights⟩

/-- What the kernel gave at the start of a derivation. -/
def Via.root : Via → Info
  | .given h => h
  | .duplicated _ s => s.root
  | .inherited _ s => s.root
  | .sent _ s => s.root

/-- Not made by its own holder from a handle it had. -/
def Via.Received : Via → Prop
  | .duplicated _ _ => False
  | _ => True

/-- Every handle in the list was derived from one in the list, and narrowed; a duplicate
belongs to the process of its source. -/
structure Traced (issued : List Via) : Prop where
  source : ∀ v ∈ issued, ∀ s, v.source = some s → s ∈ issued ∧ Narrows v.info s.info
  duplicated : ∀ h s, Via.duplicated h s ∈ issued → h.pid = s.info.pid

theorem Traced.root {issued : List Via} (h : Traced issued) {v : Via} (hv : v ∈ issued) :
    .given v.root ∈ issued ∧ Narrows v.info v.root := by
  induction v with
  | given x => exact ⟨hv, .refl x⟩
  | duplicated x s ih | inherited x s ih | sent x s ih =>
    obtain ⟨hs, hNarrows⟩ := h.source _ hv s rfl
    obtain ⟨hRoot, hNarrows'⟩ := ih hs
    exact ⟨hRoot, hNarrows.trans hNarrows'⟩

theorem Traced.received {issued : List Via} (h : Traced issued) {v : Via} (hv : v ∈ issued) :
    ∃ w ∈ issued, w.Received ∧ w.info.pid = v.info.pid ∧ Narrows v.info w.info := by
  induction v with
  | given x | inherited x s ih | sent x s ih => exact ⟨_, hv, trivial, rfl, .refl x⟩
  | duplicated x s ih =>
    obtain ⟨hs, hNarrows⟩ := h.source _ hv s rfl
    obtain ⟨w, hw, hReceived, hPid, hNarrows'⟩ := ih hs
    exact ⟨w, hw, hReceived, hPid.trans (h.duplicated x s hv).symm, hNarrows.trans hNarrows'⟩

/-! ## Runs -/

variable {π : Type}

/-- What is recorded of an entry, or of a capability in transit, is what it is. -/
def Recorded (issued : List Via) (via : Via) (x : Info) : Prop := via ∈ issued ∧ via.info = x

/-- The handle an entry of this process is. -/
def Entry.info (e : Entry) (pid : Nat) : Info :=
  ⟨pid, e.type, e.pointer, e.rights, e.via.info.tag⟩

/-- The handle a capability in transit was taken from. -/
def Carried.info (c : Carried) : Info :=
  ⟨c.via.info.pid, c.type, c.pointer, c.rights, c.via.info.tag⟩

/-- Everything held and everything on its way is recorded, and the record is traced. -/
structure AuthInv (k : Machine π) : Prop where
  traced : Traced k.objects.issued
  held : ∀ pid e, Holds k.objects.tables pid e → Recorded k.objects.issued e.via (e.info pid)
  carried : ∀ c, Carries k c → Recorded k.objects.issued c.via c.info

theorem Initial.authInv {k : Machine π} (h : Initial k) : AuthInv k where
  traced := by
    refine ⟨fun v hv => ?_, fun x s hx => ?_⟩
    · simp [h.issued_eq] at hv
    · simp [h.issued_eq] at hx
  held := by
    rintro pid e ⟨i, t, slot, ht, -⟩
    simp [h.tables_eq i] at ht
  carried := by
    rintro c ⟨i, j, hi, -⟩
    simp [h.requests_eq i] at hi

section Steps
variable {k k' : Machine π} {e : Event π}

/-- A handle that comes to be in a step narrows one that is recorded. -/
theorem AuthInv.source_of_fresh (h : AuthInv k) {v s : Via} (hv : Fresh k e v)
    (hs : v.source = some s) : s ∈ k.objects.issued ∧ Narrows v.info s.info := by
  cases hv with
  | given hGives => cases hs
  | duplicated mask hSrc =>
    obtain rfl := some.inj hs
    obtain ⟨hVia, hInfo⟩ := h.held _ _ hSrc
    refine ⟨hVia, ?_⟩
    rw [hInfo]
    exact ⟨rfl, rfl, rfl, within_and _ _⟩
  | inherited child hSrc =>
    obtain rfl := some.inj hs
    obtain ⟨hVia, hInfo⟩ := h.held _ _ hSrc
    refine ⟨hVia, ?_⟩
    rw [hInfo]
    exact ⟨rfl, rfl, rfl, .refl _⟩
  | sent pid hCarries =>
    obtain rfl := some.inj hs
    obtain ⟨hVia, hInfo⟩ := h.carried _ hCarries
    refine ⟨hVia, ?_⟩
    rw [hInfo]
    exact ⟨rfl, rfl, rfl, .refl _⟩

theorem AuthInv.duplicated_of_fresh (h : AuthInv k) {x : Info} {s : Via}
    (hv : Fresh k e (.duplicated x s)) : x.pid = s.info.pid := by
  cases hv with
  | duplicated mask hSrc => rw [(h.held _ _ hSrc).2, Entry.info]

/-- **Every step keeps what is held recorded.** -/
theorem authInv_step (h : AuthInv k) (hStep : Step k e k') : AuthInv k' := by
  obtain ⟨⟨hIssued, hGrows, hHeld⟩, hCarried⟩ := spread_of_step hStep
  refine ⟨⟨fun v hv s hs => ?_, fun x s hx => ?_⟩, fun pid en hen => ?_, fun c hc => ?_⟩
  · obtain ⟨hMem, hNarrows⟩ :=
      (hIssued v hv).elim (fun hOld => h.traced.source v hOld s hs) (h.source_of_fresh · hs)
    exact ⟨hGrows hMem, hNarrows⟩
  · exact (hIssued _ hx).elim (h.traced.duplicated x s) h.duplicated_of_fresh
  · rcases hHeld pid en hen with hOld | ⟨hVia, -, hInfo⟩
    · obtain ⟨hVia, hInfo⟩ := h.held pid en hOld
      exact ⟨hGrows hVia, hInfo⟩
    · exact ⟨hVia, hInfo⟩
  · rcases hCarried c hc with hOld | ⟨pid, src, hSrc, rfl⟩
    · obtain ⟨hVia, hInfo⟩ := h.carried c hOld
      exact ⟨hGrows hVia, hInfo⟩
    · obtain ⟨hVia, hInfo⟩ := h.held pid src hSrc
      have hPid : src.via.info.pid = pid := congrArg Info.pid hInfo
      refine ⟨hGrows hVia, hInfo.trans ?_⟩
      simp only [Carried.info, Entry.info, hPid]

end Steps

/-- Where handles come from: a derived one narrows the one it was derived from, every one
that is held goes back to something the kernel gave, and its holder was given, sent or
left the object itself. -/
structure NoneInvented (k : Machine π) : Prop where
  derived : ∀ v ∈ k.objects.issued, ∀ s, v.source = some s →
    s ∈ k.objects.issued ∧ Narrows v.info s.info
  held : ∀ pid e, Holds k.objects.tables pid e → e.via ∈ k.objects.issued ∧ e.via.info = e.info pid
  given : ∀ pid e, Holds k.objects.tables pid e →
    .given e.via.root ∈ k.objects.issued ∧ Narrows (e.info pid) e.via.root
  received : ∀ pid e, Holds k.objects.tables pid e →
    ∃ w ∈ k.objects.issued, w.Received ∧ w.info.pid = pid ∧ Narrows (e.info pid) w.info

theorem AuthInv.noneInvented {k : Machine π} (h : AuthInv k) : NoneInvented k := by
  refine ⟨h.traced.source, h.held, fun pid e he => ?_, fun pid e he => ?_⟩
  · obtain ⟨hVia, hInfo⟩ := h.held pid e he
    obtain ⟨hGiven, hNarrows⟩ := h.traced.root hVia
    exact ⟨hGiven, hInfo ▸ hNarrows⟩
  · obtain ⟨hVia, hInfo⟩ := h.held pid e he
    obtain ⟨w, hw, hReceived, hPid, hNarrows⟩ := h.traced.received hVia
    rw [hInfo] at hPid hNarrows
    exact ⟨w, hw, hReceived, hPid, hNarrows⟩

/-- What the record says the kernel gave, the kernel gave in some step. -/
theorem given_of_run {k₀ k : Machine π} {es : List (Event π)} (hInit : Initial k₀)
    (hRun : Run Step k₀ es k) {x : Info} (hx : Via.given x ∈ k.objects.issued) :
    ∃ k₁, ∃ e ∈ es, Gives k₁ e x := by
  induction hRun with
  | nil => simp [hInit.issued_eq] at hx
  | @snoc t _ es e hRun hStep ih =>
    rcases (spread_of_step hStep).adds.issued _ hx with hOld | hNew
    · obtain ⟨k₁, e', he', hGives⟩ := ih hOld
      exact ⟨k₁, e', List.mem_append_left _ he', hGives⟩
    · cases hNew with
      | given hGives => exact ⟨t, e, List.mem_append_right _ (List.mem_singleton.mpr rfl), hGives⟩

/-- **Authority is never invented.** -/
theorem noneInvented_of_run {k₀ k : Machine π} {es : List (Event π)} (hInit : Initial k₀)
    (hRun : Run Step k₀ es k) :
    NoneInvented k ∧ ∀ x, Via.given x ∈ k.objects.issued → ∃ k₁, ∃ e ∈ es, Gives k₁ e x :=
  ⟨(hRun.invariant (fun _ _ _ h hStep => authInv_step h hStep) hInit.authInv).noneInvented,
    fun _ hx => given_of_run hInit hRun hx⟩

/-- The kernel gives `1` a segment; `1` narrows the handle, sends it to `2`, and `2` leaves
it to its child `3`. -/
def handedDown : List (Event Nat) :=
  [.give ⟨1, .shm, 5, kRead ||| kDuplicate, 0⟩ true, .duplicate 1 1024 kRead true, .portCreate 1 2,
    .callStart 2 0 (plain 0) false, .tryRecv 1 0, .reply 1 0 0 ⟨0, fun _ => 1025, 1⟩,
    .callCollect 2 true, .fork 2 true]

theorem noneInvented_handedDown :
    ∃ (k : Machine Nat) (e : Entry), Holds k.objects.tables 3 e ∧
      (e.type, e.pointer, e.rights) = (.shm, 5, kRead) ∧ NoneInvented k := by
  obtain ⟨k, hRun, hEntry⟩ : ∃ k, Run Step (boot 0 2) handedDown k ∧
      ((entryOf k.objects.tables 3 1024).map fun e => (e.type, e.pointer, e.rights)) =
        some (.shm, 5, kRead) :=
    Run.exists_of_foldlM (fun _ _ _ => step_of_next) (by decide)
  obtain ⟨e, he, hFields⟩ := Option.map_eq_some_iff.mp hEntry
  exact ⟨k, e, holds_of_entryOf he, hFields, (noneInvented_of_run (boot_initial 0 2) hRun).1⟩

end LeahOS.Kernel
