import Mathlib.Order.Interval.Finset.Nat
import LeahOS.Fs.Lifetime

/-!
# Pipes live as long as they are needed

The steps of the threads, each put together from changes that keep `Inv`.

An `open_fifo` that waits has no reference of its own: it lives on the descriptor it has made.
`Calm` keeps that descriptor, and `abandonedOpen` shows what happens without it.
-/

namespace LeahOS.Fs
open Lib Function List Option
namespace Files
variable {s : Files} {p t : Nat} {x : Nat × Nat} {d : Descriptor} {debt : Bool → Nat → Int}
  {work : Option Nat}

/-! ### The steps -/

variable {fd i n : Nat}

theorem Inv.close (hInv : Settled s) (ht : s.Ready t) (hCalm : s.Calm (.close t fd)) :
    Settled (s.close t fd) := by
  unfold Files.close
  dsimp only
  split
  next hOpen =>
    have hx : (s.leader t, fd) ∈ places := mem_places.mpr ⟨(hInv.bound t ht.1).2, hOpen.1⟩
    split
    next hKind =>
      refine hInv.release hKind (by simp) fun u fd' i q writes hCall hEq => ?_
      -- nobody is opening this descriptor
      have hOther := hCalm u (hInv.bound u (hInv.isWaiting hCall)).1 (Prod.ext_iff.mp hEq).1
      rw [hCall] at hOther
      exact hOther (Prod.ext_iff.mp hEq).2
    next hKind => exact hInv.setPlain hKind (by simp) hx ⟨t, ht.1, rfl⟩
  · exact hInv

theorem Inv.enter (hInv : Settled s) (ht : s.Ready t) (fd : Nat) (writes : Bool) :
    Settled (s.enter t fd writes) := by
  unfold Files.enter
  dsimp only
  split
  next hOpen =>
    obtain ⟨-, hKind, -⟩ := hOpen
    obtain ⟨p, hHolds, hLive⟩ := hInv.holds hKind
    obtain ⟨hx, -, -⟩ := hInv.fdLive _ hKind
    rw [hHolds.2.2]
    dsimp only
    rw [touch_of_live hLive]
    have hPos := held_pos hx hHolds
    have hDoomed := hInv.not_doomed hLive hPos
    generalize hMore : ({ s.pipes p with busy := (s.pipes p).busy + 1 } : PipeEnds) = o
    have hIn : Inv (fun _ _ => 0) (some p) ((s.setPipe p o).setCall t (.inside p)) := by
      subst hMore
      refine hInv.setCall ht.1 (fun q hq => ?_) (fun q hq => ?_) (fun _ => rfl) ?_ nofun nofun
      · rw [ht.2] at hq
        cases hq
      · cases hq
        exact ⟨rfl, hLive⟩
      · rw [ht.2, if_neg FileCall.noConfusion, if_pos rfl]
        exact Int.add_zero _
    refine hIn.done_held hPos ?_
    change (update s.pipes p o p).doomed = false
    rw [update_self, ← hMore]
    exact hDoomed
  · exact hInv

theorem Inv.leave (hInv : Settled s) (hCall : s.call t = .inside p) :
    Settled ((s.dropPipe p).setCall t .idle) := by
  have hLive := hInv.inLive t p hCall
  have ht := hInv.isInside hCall
  have hIff := hInv.doomed p hLive (some_ne_none p).symm
  obtain ⟨o, hLess⟩ : ∃ o : PipeEnds, { s.pipes p with busy := (s.pipes p).busy - 1 } = o := ⟨_, rfl⟩
  have hDrop : s.dropPipe p = if o.busy = 0 ∧ o.doomed = true then (s.setPipe p o).kfree p
      else s.setPipe p o := by
    unfold Files.dropPipe
    rw [touch_of_live hLive, ← hLess]
  rw [hDrop]
  have hOut : Inv (fun _ _ => 0) (some p) ((s.setPipe p o).setCall t .idle) := by
    subst hLess
    refine hInv.setCall ht (fun q hq => ?_) nofun (fun _ => rfl) ?_ nofun nofun
    · rw [hCall] at hq
      cases hq
      rfl
    · rw [hCall, if_pos rfl, if_neg FileCall.noConfusion]
      dsimp only
      omega
  have hAt : ((s.setPipe p o).setCall t .idle).pipes p = o := update_self _ _ _
  have hBusy := hOut.busy p hLive
  rw [hAt] at hBusy
  have hDoomed : o.doomed = (s.pipes p).doomed := by rw [← hLess]
  by_cases hLast : o.busy = 0 ∧ o.doomed = true
  · -- the last one out frees the pipe
    rw [if_pos hLast]
    have hHeld := hIff.mp (hDoomed.symm.trans hLast.2)
    refine hOut.kfree hLive hHeld (by omega) fun i hUsed hMine => ?_
    obtain ⟨q, hPipe, -, hSome⟩ := hInv.named i hUsed
    obtain rfl : q = p := some.inj (hPipe.symm.trans hMine)
    obtain ⟨writes, hPos⟩ := hSome (some_ne_none q).symm
    exact absurd (hHeld writes) (Nat.ne_of_gt hPos)
  · rw [if_neg hLast]
    refine hOut.done (fun _ => ?_) (fun _ => ?_) fun i hUsed hMine => ?_
    · rw [hAt, hDoomed]
      exact hIff
    · by_cases hNone : o.busy = 0
      · -- it is not doomed, so somebody holds an end
        left
        by_contra hNot
        refine hLast ⟨hNone, ?_⟩
        rw [hDoomed]
        exact hIff.mpr fun writes => Nat.eq_zero_of_not_pos fun hPos => hNot ⟨writes, hPos⟩
      · right
        omega
    · obtain ⟨q, hPipe, -, hSome⟩ := hInv.named i hUsed
      obtain rfl : q = p := some.inj (hPipe.symm.trans hMine)
      exact hSome (some_ne_none q).symm

theorem releasePipe_setCall (s : Files) (t : Nat) (c : FileCall) (d : Descriptor) :
    (s.setCall t c).releasePipe d = (s.releasePipe d).setCall t c := by
  obtain ⟨hFds, hCall, hAlive, hLeader⟩ := s.kept_releasePipe d
  rw [Files.setCall, Files.setCall, Files.releasePipe_with, hFds, hCall, hAlive, hLeader]

theorem Inv.wake (hInv : Settled s) {writes : Bool} (signal : Bool)
    (hCall : s.call t = .waiting fd i p writes) : Settled (s.wake t fd i p writes signal) := by
  have ht := hInv.isWaiting hCall
  obtain ⟨hHolds, hUsed, hPipe⟩ := hInv.waiting t fd i p writes hCall
  have hIdle : Settled (s.setCall t .idle) := by
    refine hInv.setWaiting ht (fun q hq => ?_) (fun q => FileCall.noConfusion)
      (fun _ _ _ _ hc => nomatch hc) fun _ _ _ _ _ _ _ _ hc => nomatch hc
    rw [hCall] at hq
    cases hq
  unfold Files.wake
  cases signal with
  | true =>
    dsimp only
    rw [(s.kept_releasePipe _).1]
    change Settled (((s.releasePipe (s.fds (s.leader t, fd))).setCall t .idle).setFd
      (s.leader t, fd) { s.fds (s.leader t, fd) with kind := .none })
    rw [← releasePipe_setCall]
    refine .release (s := s.setCall t .idle) hIdle hHolds.1 (by simp) ?_
    -- another thread that waits has another descriptor
    intro u fd' j q w hu hEq
    obtain ⟨hLeader, hFd⟩ := Prod.ext_iff.mp hEq
    by_cases hut : u = t
    · rw [hut] at hu
      change update s.call t .idle t = _ at hu
      rw [update_self] at hu
      cases hu
    · have hu' : s.call u = .waiting fd' j q w := by
        change update s.call t .idle u = _ at hu
        rwa [update_of_ne hut] at hu
      subst hFd
      exact hut (hInv.apart u t fd' j i q p w writes hu' hCall hLeader)
  | false =>
    rw [if_neg Bool.false_ne_true]
    dsimp only
    rw [decide_eq_true (⟨hUsed, hPipe⟩ : _ ∧ _), Bool.not_true, Bool.or_false]
    split
    · exact hIdle
    · exact hInv

/-- What `alloc_fd` finds. -/
theorem allocFd_spec {table : Nat} {reserved : List Nat}
    (hAlloc : s.allocFd table reserved = some fd) :
    fd < kMaxFds ∧ (s.fds (table, fd)).kind = .none ∧ fd ∉ reserved := by
  have hMem := mem_of_find?_eq_some hAlloc
  have hGood := List.find?_some hAlloc
  exact ⟨mem_range.mp hMem, by simpa using hGood⟩

/-- Nobody is opening a descriptor that is free. -/
theorem Inv.unopened (hInv : Inv debt work s) (hKind : (s.fds x).kind = .none) (t fd i q : Nat)
    (writes : Bool) (hCall : s.call t = .waiting fd i q writes) : (s.leader t, fd) ≠ x := by
  intro hEq
  have hHolds := (hInv.waiting t fd i q writes hCall).1
  rw [hEq, Holds, hKind] at hHolds
  cases hHolds.1

/-- An end is opened: the descriptor is made, and the count goes up. -/
theorem Inv.attach (hInv : Inv debt work s) (hWork : ∀ q, work = some q → q = p)
    (hx : x ∈ places) (hGroup : ∃ t, s.alive t = true ∧ s.leader t = x.1)
    (hKind : (s.fds x).kind = .none) (hLive : s.live p = true) (writes : Bool) :
    Inv (fun v q => debt v q + if v = writes ∧ q = p then 1 else 0) (some p)
      (s.setFd x ⟨.pipe, writes, some p⟩) := by
  have hOld : ∀ v q, ¬ Holds (s.fds x) v q := by
    intro v q hHolds
    rw [Holds, hKind] at hHolds
    cases hHolds.1
  have hNew : Holds ⟨.pipe, writes, some p⟩ writes p := ⟨rfl, rfl, rfl⟩
  refine (hInv.setFd hWork hx hGroup (fun v q hq => absurd hq (hOld v q)) (fun _ => ⟨rfl, hLive⟩)
    (hInv.unopened hKind)).owes _ fun v q _ => ?_
  rw [if_neg (hOld v q)]
  simp only [hNew.iff]
  exact Int.sub_zero _

theorem held_attach (hx : x ∈ places) (writes : Bool) :
    0 < (s.setFd x ⟨.pipe, writes, some p⟩).held writes p := by
  refine held_pos hx ?_
  change Holds (update s.fds x ⟨.pipe, writes, some p⟩ x) writes p
  rw [update_self]
  exact ⟨rfl, rfl, rfl⟩

theorem used_see (n : NamedPipe) (writes : Bool) :
    (n.see writes).used = n.used ∧ (n.see writes).pipe = n.pipe := by
  cases writes <;> exact ⟨rfl, rfl⟩

/-- `open_fifo` with a slot whose pipe is not doomed. -/
theorem Inv.openEnd (hInv : Inv (fun _ _ => 0) work s) (hWork : ∀ q, work = some q → q = p)
    (ht : s.Ready t) (hFd : fd < kMaxFds) (hKind : (s.fds (s.leader t, fd)).kind = .none)
    (hUsed : (s.named i).used = true) (hPipe : (s.named i).pipe = some p) (hLive : s.live p = true)
    (hDoomed : (s.pipes p).doomed = false) (writes nonblocking : Bool) :
    Settled (s.openEnd t fd i writes nonblocking) := by
  have hx : (s.leader t, fd) ∈ places := mem_places.mpr ⟨(hInv.bound t ht.1).2, hFd⟩
  have hAttach := hInv.attach hWork hx ⟨t, ht.1, rfl⟩ hKind hLive writes
  have hPos := held_attach (s := s) (p := p) hx writes
  unfold Files.openEnd
  rw [hPipe]
  dsimp only
  rw [touch_of_live hLive]
  obtain ⟨hSeenUsed, hSeenPipe⟩ := used_see (s.named i) writes
  generalize (s.named i).see writes = n at *
  have hOpen : Settled { (s.setFd (s.leader t, fd) ⟨.pipe, writes, some p⟩).setPipe p
      ((s.pipes p).add writes 1) with named := update s.named i n } := by
    have hCounted := (hAttach.setEnds (o := (s.pipes p).add writes 1)
      (fun q hq => (some.inj hq).symm) (busy_add _ _ _)).owes (fun _ _ => 0)
      fun v q _ => by
        rw [count_add]
        change (0 : Int) + _ - (if q = p then (s.pipes p).count v + _ - (s.pipes p).count v else 0) = 0
        by_cases hq : q = p
        · simp [hq]
        · simp [hq]
    refine (hCounted.setNamed hSeenUsed hSeenPipe).done_held hPos ?_
    change (update s.pipes p ((s.pipes p).add writes 1) p).doomed = false
    rw [update_self, doomed_add, hDoomed]
  split
  · exact hOpen
  · -- the other end has not been seen: the call waits with the descriptor it has made
    refine hOpen.setWaiting ht.1 (fun q hq => ?_) (fun _ => FileCall.noConfusion) ?_ ?_
    · change s.call t = _ at hq
      rw [ht.2] at hq
      cases hq
    · rintro fd' j q w ⟨⟩
      refine ⟨?_, ?_, ?_⟩
      · change Holds (update s.fds (s.leader t, fd) _ (s.leader t, fd)) writes p
        rw [update_self]
        exact ⟨rfl, rfl, rfl⟩
      · change (update s.named i n i).used = true
        rw [update_self, hSeenUsed, hUsed]
      · change (update s.named i n i).pipe = some p
        rw [update_self, hSeenPipe, hPipe]
    · rintro u fd' j k q q' w w' ⟨⟩ hu hLeader
      refine absurd ?_ (hInv.unopened hKind u fd k q' w' hu)
      rw [show s.leader u = s.leader t from hLeader]

/-- A slot that is not in use gets the pipe that was just made. -/
theorem Inv.claim (hInv : Inv debt (some p) s) (key : Nat) (hLive : s.live p = true)
    (hSpare : (s.named i).used = false) : Inv debt (some p)
      { s with named := update s.named i ⟨true, key, some p, false, false⟩ } := by
  have hSame : ∀ j, j ≠ i → update s.named i ⟨true, key, some p, false, false⟩ j =
      s.named j := fun j hj => update_of_ne hj _ _
  refine { hInv with named := fun j hUsed => ?_, waiting := fun t fd j q w hCall => ?_ }
  · by_cases hj : j = i
    · refine ⟨p, ?_, hLive, fun hNe => absurd rfl hNe⟩
      dsimp only
      rw [hj, update_self]
    · dsimp only at hUsed ⊢
      rw [hSame j hj] at hUsed ⊢
      exact hInv.named j hUsed
  · obtain ⟨hHolds, hUsed, hPipe⟩ := hInv.waiting t fd j q w hCall
    have hj : j ≠ i := by
      rintro rfl
      rw [hSpare] at hUsed
      cases hUsed
    refine ⟨hHolds, ?_⟩
    dsimp only
    rw [hSame j hj]
    exact ⟨hUsed, hPipe⟩

theorem Inv.openFifo (hInv : Settled s) (ht : s.Ready t) (key : Nat)
    (writes nonblocking memory : Bool) : Settled (s.openFifo t key writes nonblocking memory) := by
  unfold Files.openFifo
  cases hAlloc : s.allocFd (s.leader t) [] with
  | none => exact hInv
  | some fd =>
    obtain ⟨hFd, hKind, -⟩ := allocFd_spec hAlloc
    cases hSlot : s.slotFor key memory with
    | none => exact hInv
    | some r =>
      obtain ⟨r, i⟩ := r
      unfold Files.slotFor at hSlot
      cases hFind : s.findNamed key with
      | some j =>
        -- the FIFO is there: somebody has it open, so its pipe is not doomed
        rw [hFind] at hSlot
        cases hSlot
        have hUsed : (s.named i).used = true := by
          have hGood := List.find?_some hFind
          simp only [decide_eq_true_eq] at hGood
          exact hGood.1
        obtain ⟨p, hPipe, hLive, hSome⟩ := hInv.named i hUsed
        obtain ⟨v, hPos⟩ := hSome (some_ne_none p).symm
        exact hInv.openEnd (fun q hq => nomatch hq) ht hFd hKind hUsed hPipe hLive
          (hInv.not_doomed hLive hPos) _ _
      | none =>
        rw [hFind] at hSlot
        dsimp only at hSlot
        split at hSlot
        · cases hSlot
        next j hSpare =>
          obtain ⟨-, hSlot⟩ := ite_none_right_eq_some.mp hSlot
          cases hSlot
          have hUnused : (s.named i).used = false := by
            have hGood := List.find?_some hSpare
            simpa using hGood
          have hMade := (hInv.make (o := ⟨0, 0, 0, false⟩) rfl).owes
            (fun _ _ => 0) fun v q _ => by cases v <;> simp [PipeEnds.count]
          have hBorn : (s.make ⟨0, 0, 0, false⟩).live s.made = true :=
            update_self _ _ _
          refine (hMade.claim key hBorn hUnused).openEnd (p := s.made)
            (fun q hq => (some.inj hq).symm) ht hFd hKind ?_ ?_ hBorn ?_ _ _
          · change (update s.named i _ i).used = true
            rw [update_self]
          · change (update s.named i _ i).pipe = some s.made
            rw [update_self]
          · change (update s.pipes s.made _ s.made).doomed = false
            rw [update_self]

theorem Inv.pipe (hInv : Settled s) (ht : s.Ready t) (memory : Bool) : Settled (s.pipe t memory) := by
  unfold Files.pipe
  cases hRead : s.allocFd (s.leader t) [] with
  | none => exact hInv
  | some readFd =>
    dsimp only
    cases hWrite : s.allocFd (s.leader t) [readFd] with
    | none => exact hInv
    | some writeFd =>
      obtain ⟨hReadFd, hReadKind, -⟩ := allocFd_spec hRead
      obtain ⟨hWriteFd, hWriteKind, hOther⟩ := allocFd_spec hWrite
      have hNe : (s.leader t, writeFd) ≠ (s.leader t, readFd) := fun hEq =>
        hOther (mem_singleton.mpr (Prod.ext_iff.mp hEq).2)
      dsimp only
      split
      · have hLeader := (hInv.bound t ht.1).2
        have hGroup : ∃ u, s.alive u = true ∧ s.leader u = s.leader t := ⟨t, ht.1, rfl⟩
        have hBorn : (s.make ⟨1, 1, 0, false⟩).live s.made = true := update_self _ _ _
        have hFirst := (hInv.make (o := ⟨1, 1, 0, false⟩) rfl).attach
          (x := (s.leader t, readFd)) (fun q hq => (some.inj hq).symm)
          (mem_places.mpr ⟨hLeader, hReadFd⟩) hGroup hReadKind hBorn false
        have hSecond := hFirst.attach (x := (s.leader t, writeFd))
          (fun q hq => (some.inj hq).symm) (mem_places.mpr ⟨hLeader, hWriteFd⟩) hGroup
          (by
            change (update s.fds _ _ (s.leader t, writeFd)).kind = .none
            rw [update_of_ne hNe]
            exact hWriteKind) hBorn true
        have hPos := held_attach (p := s.made) (s := (s.make ⟨1, 1, 0, false⟩).setFd
          (s.leader t, readFd) ⟨.pipe, false, some s.made⟩) (x := (s.leader t, writeFd))
          (mem_places.mpr ⟨hLeader, hWriteFd⟩) true
        refine (hSecond.owes (fun _ _ => 0) fun v q _ => ?_).done_held hPos ?_
        · cases v <;> by_cases hq : q = s.made <;> simp [hq, PipeEnds.count]
        · change (update s.pipes s.made _ s.made).doomed = false
          rw [update_self]
      · exact hInv

/-! ### Tasks come and go -/

variable {c : Nat}

/-- Nobody has the table of a spare slot. -/
theorem Inv.spare (hInv : Settled s) (hSpare : s.Spare c) (hAlive : s.alive t = true) :
    s.leader t ≠ c := by
  intro hLeader
  have hGroup : s.groupAlive c = true := by
    unfold groupAlive
    rw [List.any_eq_true]
    exact ⟨t, mem_range.mpr (hInv.bound t hAlive).1, by simp [hAlive, hLeader]⟩
  rw [hSpare.2.2] at hGroup
  cases hGroup

/-- A task starts with a table whose pipes are live; what it holds is not counted yet. -/
theorem Inv.startTask (hInv : Settled s) (hSpare : s.Spare c) {leader : Nat}
    {table : Nat → Descriptor} (hLeader : leader < kMaxTasks)
    (hTable : ∀ fd, (table fd).kind = .pipe →
      leader = c ∧ fd < kMaxFds ∧ ∃ p, (table fd).pipe = some p ∧ s.live p = true)
    (hHeld : ∀ writes q, (∃ fd, Holds (table fd) writes q) → ∃ v, 0 < s.held v q) :
    Inv (fun writes q => census (Finset.range kMaxFds) table fun d => Holds d writes q) none
      (s.startTask c leader table) := by
  have hIdle : s.call c = .idle := by
    by_contra hNot
    have hAlive := hInv.calling c hNot
    rw [hSpare.2.1] at hAlive
    cases hAlive
  have hCalls : update s.call c .idle = s.call := by
    rw [← hIdle, update_eq_self]
  have hOther : ∀ u, s.alive u = true → u ≠ c := by
    rintro u hu rfl
    rw [hSpare.2.1] at hu
    cases hu
  have hLeaders : ∀ u, s.alive u = true → update s.leader c leader u = s.leader u :=
    fun u hu => update_of_ne (hOther u hu) _ _
  have hOld : ∀ x, x.1 ≠ c → (s.startTask c leader table).fds x = s.fds x := fun x hx => if_neg hx
  have hNew : ∀ fd, (s.startTask c leader table).fds (c, fd) = table fd := fun fd => if_pos rfl
  have hCount : ∀ writes q, (s.startTask c leader table).held writes q =
      s.held writes q + census (Finset.range kMaxFds) table fun d => Holds d writes q := by
    intro writes q
    unfold held places
    refine census_row (Finset.mem_range.mpr hSpare.1) hNew hOld fun fd _ hHolds => ?_
    obtain ⟨-, -, u, hu, hMine⟩ := hInv.fdLive (c, fd) hHolds.1
    exact hInv.spare hSpare hu hMine
  have hMore : ∀ q, (∃ writes, 0 < s.held writes q) →
      ∃ writes, 0 < (s.startTask c leader table).held writes q := by
    rintro q ⟨writes, hPos⟩
    exact ⟨writes, by rw [hCount]; omega⟩
  have hIn : ∀ q, (s.startTask c leader table).inside q = s.inside q := by
    intro q
    unfold inside
    change census slots (update s.call c .idle) _ = _
    rw [hCalls]
  have hAlive : ∀ u, s.alive u = true → (s.startTask c leader table).alive u = true := fun u hu =>
    (update_of_ne (hOther u hu) _ _).trans hu
  have hCall : ∀ u, (s.startTask c leader table).call u = s.call u := fun u => congrFun hCalls u
  refine ⟨fun q writes hq => ?_, fun q hq => ?_, fun q hq hNe => ?_, fun q hq hNe => ?_,
    fun x hKind => ?_, fun u q hu => ?_, fun i hUsed => ?_, fun u fd i q w hu => ?_,
    fun u v fd i j q q' w w' hu hv hSame => ?_, fun u hu => ?_, fun u hu => ?_, hInv.fresh,
    hInv.freed, hInv.clean⟩
  · have hEnds := hInv.ends q writes hq
    rw [hCount]
    change (s.pipes q).count writes + _ = _
    omega
  · rw [hIn]
    exact hInv.busy q hq
  · -- what the table holds was held before, so a doomed pipe stays doomed
    refine (hInv.doomed q hq hNe).trans ⟨fun hAll writes => ?_, fun hAll writes => ?_⟩
    · rw [hCount, hAll, Nat.zero_add, census_eq_zero]
      intro fd _ hHolds
      obtain ⟨v, hPos⟩ := hHeld writes q ⟨fd, hHolds⟩
      exact absurd (hAll v) (Nat.ne_of_gt hPos)
    · have hZero := hAll writes
      rw [hCount] at hZero
      omega
  · rw [hIn]
    exact (hInv.kept q hq hNe).imp (hMore q) id
  · by_cases hx : x.1 = c
    · obtain ⟨a, fd⟩ := x
      subst hx
      rw [hNew] at hKind ⊢
      obtain ⟨hMine, hFd, hPipe⟩ := hTable fd hKind
      refine ⟨mem_places.mpr ⟨hSpare.1, hFd⟩, hPipe, a, ?_, ?_⟩
      · exact update_self _ _ _
      · exact (update_self _ _ _).trans hMine
    · rw [hOld x hx] at hKind ⊢
      obtain ⟨hPlace, hPipe, u, hu, hMine⟩ := hInv.fdLive x hKind
      exact ⟨hPlace, hPipe, u, hAlive u hu, (hLeaders u hu).trans hMine⟩
  · rw [hCall] at hu
    exact hInv.inLive u q hu
  · obtain ⟨q, hPipe, hq, hSome⟩ := hInv.named i hUsed
    exact ⟨q, hPipe, hq, fun hNe => hMore q (hSome hNe)⟩
  · rw [hCall] at hu
    have hAliveU := hInv.isWaiting hu
    have hFdU : (s.startTask c leader table).fds ((s.startTask c leader table).leader u, fd) =
        s.fds (s.leader u, fd) := by
      rw [show (s.startTask c leader table).leader u = s.leader u from hLeaders u hAliveU]
      exact hOld _ (hInv.spare hSpare hAliveU)
    rw [hFdU]
    exact hInv.waiting u fd i q w hu
  · rw [hCall] at hu hv
    refine hInv.apart u v fd i j q q' w w' hu hv ?_
    rw [← hLeaders u (hInv.isWaiting hu), ← hLeaders v (hInv.isWaiting hv)]
    exact hSame
  · rw [hCall] at hu
    exact hAlive u (hInv.calling u hu)
  · by_cases huc : u = c
    · subst huc
      refine ⟨hSpare.1, ?_⟩
      change update s.leader u leader u < kMaxTasks
      rw [update_self]
      exact hLeader
    · have hu' : s.alive u = true := (update_of_ne huc _ _).symm.trans hu
      refine ⟨(hInv.bound u hu').1, ?_⟩
      change update s.leader c leader u < kMaxTasks
      rw [hLeaders u hu']
      exact (hInv.bound u hu').2

theorem Inv.spawnThread (hInv : Settled s) (ht : s.Ready t) (hSpare : s.Spare c) :
    Settled (s.startTask c (s.leader t) initTable) := by
  have hPlain : ∀ fd, (initTable fd).kind ≠ .pipe := by
    intro fd
    unfold initTable
    split
    · exact Kind.noConfusion
    · exact Kind.noConfusion
  refine (hInv.startTask hSpare (hInv.bound t ht.1).2 (fun fd hKind => absurd hKind (hPlain fd))
    ?_).owes _ fun writes q _ => ?_
  · rintro writes q ⟨fd, hHolds⟩
    exact absurd hHolds.1 (hPlain fd)
  · rw [census_eq_zero.mpr fun fd _ hHolds => hPlain fd hHolds.1]
    rfl

/-- What `inherit` has not counted yet from this descriptor on. -/
def owed (s : Files) (c fd : Nat) (writes : Bool) (q : Nat) : Int :=
  (census (Finset.Ico fd kMaxFds) (fun fd => s.fds (c, fd)) fun d => Holds d writes q : Nat)

theorem owed_succ (hFd : fd < kMaxFds) (writes : Bool) (q : Nat) :
    s.owed c fd writes q =
      s.owed c (fd + 1) writes q + if Holds (s.fds (c, fd)) writes q then 1 else 0 := by
  have hFirst : Finset.Ico fd kMaxFds = insert fd (Finset.Ico (fd + 1) kMaxFds) := by
    ext j
    rw [Finset.mem_insert, Finset.mem_Ico, Finset.mem_Ico]
    omega
  have hNot : fd ∉ Finset.Ico (fd + 1) kMaxFds := fun hMem => by
    rw [Finset.mem_Ico] at hMem
    omega
  unfold owed
  rw [hFirst, census_insert hNot]
  split <;> simp

/-- One round of `inherit`. -/
theorem Inv.inheritFd (hInv : Inv (s.owed c fd) none s) (hFd : fd < kMaxFds) :
    Inv (s.owed c (fd + 1)) none (Files.inheritFd c s fd) := by
  unfold Files.inheritFd
  dsimp only
  by_cases hKind : (s.fds (c, fd)).kind = .pipe
  · obtain ⟨p, hHolds, hLive⟩ := hInv.holds hKind
    obtain ⟨hx, -, -⟩ := hInv.fdLive _ hKind
    rw [hKind, hHolds.2.2]
    dsimp only
    rw [touch_of_live hLive]
    have hPos := held_pos hx hHolds
    refine ((hInv.setEnds (fun q hq => nomatch hq)
      (busy_add _ _ _)).owes _ fun v q _ => ?_).done_held hPos ?_
    · rw [owed_succ hFd, count_add]
      simp only [hHolds.iff]
      by_cases hq : q = p
      · by_cases hv : v = (s.fds (c, fd)).writes
        · simp [hq, hv]
        · simp [hq, hv]
      · simp [hq]
    · change (update s.pipes p _ p).doomed = false
      rw [update_self, doomed_add]
      exact hInv.not_doomed hLive hPos
  · have hStay : Inv (s.owed c (fd + 1)) none s := by
      refine hInv.owes _ fun v q _ => ?_
      rw [owed_succ hFd, if_neg fun hHolds => hKind hHolds.1, Int.add_zero]
    split
    next hPipe _ => exact absurd hPipe hKind
    · exact hStay

theorem fds_inheritFd (s : Files) (c fd : Nat) : (Files.inheritFd c s fd).fds = s.fds := by
  unfold Files.inheritFd
  dsimp only
  split
  · rfl
  · rfl

/-- `inherit` counts the descriptors one by one. -/
theorem Inv.inherit (hInv : Inv (s.owed c 0) none s) (hn : n ≤ kMaxFds) :
    Inv (s.owed c n) none ((List.range n).foldl (Files.inheritFd c) s) ∧
      ((List.range n).foldl (Files.inheritFd c) s).fds = s.fds := by
  induction n with
  | zero => exact ⟨hInv, rfl⟩
  | succ n ih =>
    obtain ⟨hSoFar, hFds⟩ := ih (Nat.le_of_succ_le hn)
    rw [range_succ, foldl_append, foldl_cons, foldl_nil]
    generalize (List.range n).foldl (Files.inheritFd c) s = r at *
    have hOwed : ∀ m, r.owed c m = s.owed c m := by
      intro m
      unfold owed
      rw [hFds]
    rw [← hOwed] at hSoFar ⊢
    exact ⟨hSoFar.inheritFd hn, (fds_inheritFd r c n).trans hFds⟩

theorem Inv.fork (hInv : Settled s) (hSpare : s.Spare c) : Settled (s.fork t c) := by
  have hStart : Inv (fun writes q => census (Finset.range kMaxFds) (fun fd => s.fds (t, fd))
      fun d => Holds d writes q) none (s.startTask c c fun fd => s.fds (t, fd)) := by
    refine hInv.startTask hSpare hSpare.1 (fun fd hKind => ?_) ?_
    · obtain ⟨hx, hPipe, -⟩ := hInv.fdLive _ hKind
      exact ⟨rfl, (mem_places.mp hx).2, hPipe⟩
    · rintro writes q ⟨fd, hHolds⟩
      exact ⟨writes, held_pos (hInv.fdLive _ hHolds.1).1 hHolds⟩
  unfold Files.fork
  generalize hChild : s.startTask c c (fun fd => s.fds (t, fd)) = r at *
  have hAll : Inv (r.owed c 0) none r := by
    refine hStart.owes _ fun writes q _ => ?_
    rw [← hChild]
    congr 1
    exact census_congr fun fd _ => by rw [show (s.startTask c c fun fd => s.fds (t, fd)).fds (c, fd) =
      s.fds (t, fd) from if_pos rfl]
  refine ((hAll.inherit (Nat.le_refl kMaxFds)).1).owes _ fun writes q _ => ?_
  rfl

theorem closeAll_alive (s : Files) (a : Nat → Bool) (c : Nat) :
    ({ s with alive := a } : Files).closeAll c = { s.closeAll c with alive := a } := by
  unfold closeAll
  generalize List.range kMaxFds = l
  induction l generalizing s with
  | nil => rfl
  | cons fd l ih =>
    have hOne : closeFd c { s with alive := a } fd = { closeFd c s fd with alive := a } := by
      unfold closeFd
      dsimp only
      split
      · obtain ⟨hFds, hCall, -, hLeader⟩ := s.kept_releasePipe (s.fds (c, fd))
        rw [Files.releasePipe_with, Files.setFd, Files.setFd, hFds, hCall, hLeader]
      · rfl
    rw [foldl_cons, foldl_cons, hOne, ih]

theorem kept_closeFd (s : Files) (c fd : Nat) : (closeFd c s fd).call = s.call ∧
    (closeFd c s fd).alive = s.alive ∧ (closeFd c s fd).leader = s.leader ∧ (closeFd c s fd).fds =
      update s.fds (c, fd) { s.fds (c, fd) with kind := .none } := by
  unfold closeFd
  dsimp only
  split
  · obtain ⟨hFds, hCall, hAlive, hLeader⟩ := s.kept_releasePipe (s.fds (c, fd))
    refine ⟨hCall, hAlive, hLeader, ?_⟩
    rw [Files.setFd, hFds]
  · exact ⟨rfl, rfl, rfl, rfl⟩

/-- `close_all` for a group nobody of which is waiting: the pipes of the table are released, and
none is left in it. -/
theorem Inv.closeAll (hInv : Settled s) (hGroup : ∃ t, s.alive t = true ∧ s.leader t = c)
    (hFree : ∀ t fd i q writes, s.call t = .waiting fd i q writes → s.leader t ≠ c)
    (hn : n ≤ kMaxFds) :
    let r := (List.range n).foldl (closeFd c) s
    Settled r ∧ (r.call = s.call ∧ r.alive = s.alive ∧ r.leader = s.leader) ∧
      (∀ fd < n, (r.fds (c, fd)).kind = .none) := by
  induction n with
  | zero => exact ⟨hInv, ⟨rfl, rfl, rfl⟩, fun fd hfd => absurd hfd (Nat.not_lt_zero fd)⟩
  | succ n ih =>
    obtain ⟨hSoFar, ⟨hCall, hAlive, hLeader⟩, hClosed⟩ := ih (Nat.le_of_succ_le hn)
    rw [range_succ, foldl_append, foldl_cons, foldl_nil]
    generalize (List.range n).foldl (closeFd c) s = r at *
    obtain ⟨hCall', hAlive', hLeader', hFds⟩ := kept_closeFd r c n
    refine ⟨?_, ⟨hCall'.trans hCall, hAlive'.trans hAlive, hLeader'.trans hLeader⟩, ?_⟩
    · unfold closeFd
      dsimp only
      split
      next hKind =>
        refine hSoFar.release hKind (by simp) fun t fd i q writes hWaits hEq => ?_
        rw [hCall] at hWaits
        rw [hLeader] at hEq
        exact hFree t fd i q writes hWaits (Prod.ext_iff.mp hEq).1
      next hKind =>
        obtain ⟨t, ht, hMine⟩ := hGroup
        have hBound := (hInv.bound t ht).2
        rw [hMine] at hBound
        refine hSoFar.setPlain hKind (by simp) (mem_places.mpr ⟨hBound, hn⟩) ⟨t, ?_, ?_⟩
        · rw [hAlive]
          exact ht
        · rw [hLeader]
          exact hMine
    · intro fd hfd
      rw [hFds]
      by_cases hSame : fd = n
      · rw [hSame, update_self]
      · rw [update_of_ne fun hEq => hSame (Prod.ext_iff.mp hEq).2]
        exact hClosed fd (by omega)

/-- A thread is gone; its group is alive or has nothing open. -/
theorem Inv.setDead (hInv : Settled s) (hIdle : s.call t = .idle)
    (hOpen : ∀ fd, (s.fds (s.leader t, fd)).kind = .pipe →
      ∃ u, u ≠ t ∧ s.alive u = true ∧ s.leader u = s.leader t) :
    Settled { s with alive := update s.alive t false } := by
  have hOther : ∀ u, u ≠ t → update s.alive t false u = s.alive u := fun u hu =>
    update_of_ne hu _ _
  refine { hInv with
    fdLive := fun x hKind => ?_
    calling := fun u hu => ?_
    bound := fun u hu => ?_ }
  · obtain ⟨hx, hPipe, u, hu, hMine⟩ := hInv.fdLive x hKind
    refine ⟨hx, hPipe, ?_⟩
    by_cases hut : u = t
    · obtain ⟨v, hv, hAlive, hLeader⟩ := hOpen x.2 (by
        rw [← hut, hMine]
        exact hKind)
      exact ⟨v, (hOther v hv).trans hAlive, by rw [hLeader, ← hut, hMine]⟩
    · exact ⟨u, (hOther u hut).trans hu, hMine⟩
  · have hut : u ≠ t := by
      rintro rfl
      exact hu hIdle
    exact (hOther u hut).trans (hInv.calling u hu)
  · have hut : u ≠ t := by
      rintro rfl
      dsimp only at hu
      rw [update_self] at hu
      cases hu
    exact hInv.bound u ((hOther u hut).symm.trans hu)

theorem Inv.exit (hInv : Settled s) (ht : s.Ready t) : Settled (s.exit t) := by
  unfold Files.exit
  dsimp only
  split
  next hGroup =>
    -- another thread of the group goes on with the table
    refine hInv.setDead ht.2 fun fd _ => ?_
    unfold groupAlive at hGroup
    rw [List.any_eq_true] at hGroup
    obtain ⟨u, -, hu⟩ := hGroup
    simp only [Bool.and_eq_true, beq_iff_eq] at hu
    have hut : u ≠ t := by
      rintro rfl
      rw [update_self] at hu
      cases hu.1
    exact ⟨u, hut, (update_of_ne hut _ _).symm.trans hu.1, hu.2⟩
  next hGroup =>
    rw [closeAll_alive]
    -- whoever waits is alive and in another group
    have hFree : ∀ u fd i q writes, s.call u = .waiting fd i q writes →
        s.leader u ≠ s.leader t := by
      intro u fd i q writes hu hLeader
      have hAlive := hInv.isWaiting hu
      have hut : u ≠ t := by
        rintro rfl
        rw [ht.2] at hu
        cases hu
      apply hGroup
      unfold groupAlive
      rw [List.any_eq_true]
      refine ⟨u, mem_range.mpr (hInv.bound u hAlive).1, ?_⟩
      simp [update_of_ne hut, hAlive, hLeader]
    obtain ⟨hSettled, ⟨hCall, hAlive, hLeader⟩, hClosed⟩ :=
      hInv.closeAll ⟨t, ht.1, rfl⟩ hFree (Nat.le_refl kMaxFds)
    unfold Files.closeAll
    generalize (List.range kMaxFds).foldl (closeFd (s.leader t)) s = r at *
    rw [← hAlive]
    refine .setDead hSettled (by rw [hCall]; exact ht.2) fun fd hKind => ?_
    rw [hLeader] at hKind
    rw [hClosed fd (mem_places.mp (hSettled.fdLive _ hKind).1).2] at hKind
    cases hKind

/-! ### Runs -/

theorem Inv.step {s' : Files} {e : FileEvent} (hInv : Settled s)
    (hStep : Restrict Calm Step s e s') : Settled s' := by
  obtain ⟨hCalm, hNext⟩ := hStep
  unfold Step Files.next at hNext
  cases e with
  | pipe t memory =>
    exact of_guard hNext fun ht => hInv.pipe ht memory
  | openFifo t key writes nonblocking memory =>
    exact of_guard hNext fun ht => hInv.openFifo ht key writes nonblocking memory
  | wake t signal =>
    dsimp only at hNext
    split at hNext
    next hCall =>
      obtain rfl := some.inj hNext
      exact hInv.wake signal hCall
    · cases hNext
  | enter t fd writes =>
    exact of_guard hNext fun ht => hInv.enter ht fd writes
  | leave t =>
    dsimp only at hNext
    split at hNext
    next hCall =>
      obtain rfl := some.inj hNext
      exact hInv.leave hCall
    · cases hNext
  | close t fd =>
    exact of_guard hNext fun ht => hInv.close ht hCalm
  | fork t c =>
    obtain ⟨⟨-, hSpare⟩, rfl⟩ := guard_inv hNext
    exact hInv.fork hSpare
  | spawnThread t c =>
    obtain ⟨⟨ht, hSpare⟩, rfl⟩ := guard_inv hNext
    exact hInv.spawnThread ht hSpare
  | exit t =>
    exact of_guard hNext hInv.exit

theorem settled_init : Settled init := by
  have hPlain : ∀ x, (init.fds x).kind ≠ .pipe := by
    intro x
    simp only [init, initTable]
    split
    · dsimp only
      split
      · exact Kind.noConfusion
      · exact Kind.noConfusion
    · exact Kind.noConfusion
  have hLive : ∀ q, init.live q ≠ true := fun _ => Bool.false_ne_true
  have hUsed : ∀ i, (init.named i).used ≠ true := fun _ => Bool.false_ne_true
  have hWaits : ∀ t fd i q w, init.call t ≠ .waiting fd i q w := fun _ _ _ _ _ =>
    FileCall.noConfusion
  exact {
    ends := fun q _ hq => absurd hq (hLive q)
    busy := fun q hq => absurd hq (hLive q)
    doomed := fun q hq => absurd hq (hLive q)
    kept := fun q hq => absurd hq (hLive q)
    fdLive := fun x hKind => absurd hKind (hPlain x)
    inLive := fun t q hq => by cases (show FileCall.idle = .inside q from hq)
    named := fun i hi => absurd hi (hUsed i)
    waiting := fun t fd i q w hCall => absurd hCall (hWaits t fd i q w)
    apart := fun t _ fd i _ q _ w _ hCall => absurd hCall (hWaits t fd i q w)
    calling := fun _ hCall => absurd rfl hCall
    bound := fun t ht => by
      obtain rfl : t = 0 := beq_iff_eq.mp ht
      exact ⟨by decide, by decide⟩
    fresh := fun _ _ => rfl
    freed := fun _ => (if_neg fun hBoth => Nat.not_lt_zero _ hBoth.1).symm
    clean := ⟨rfl, rfl⟩ }

/-- A pipe is live as long as a descriptor or a call has it. -/
theorem Inv.live_iff (hInv : Settled s) (p : Nat) : s.live p = false ↔
    s.held false p = 0 ∧ s.held true p = 0 ∧ s.inside p = 0 := by
  constructor
  · intro hDead
    exact ⟨hInv.held_of_dead hDead false, hInv.held_of_dead hDead true, hInv.inside_of_dead hDead⟩
  · rintro ⟨hRead, hWrite, hIn⟩
    by_contra hNot
    rcases hInv.kept p (by simpa using hNot) (some_ne_none p).symm with ⟨writes, hPos⟩ | hPos
    · cases writes
      · omega
      · omega
    · omega

theorem Inv.sound (hInv : Settled s) : s.Sound where
  counts p hLive := by
    have hRead := hInv.ends p false hLive
    have hWrite := hInv.ends p true hLive
    rw [Int.add_zero] at hRead hWrite
    exact ⟨hRead, hWrite⟩
  freed p hMade := by
    rw [hInv.freed p]
    simp only [hMade, true_and, hInv.live_iff p]
  gone p hMade := by
    rw [hInv.freed p]
    cases hLive : s.live p with
    | false => simp [hMade]
    | true => simp
  inLive := hInv.inLive
  waiting t fd i p writes hCall := by
    obtain ⟨hHolds, hSlot⟩ := hInv.waiting t fd i p writes hCall
    obtain ⟨-, ⟨q, hPipe, hLive⟩, -⟩ := hInv.fdLive _ hHolds.1
    obtain rfl : p = q := some.inj (hHolds.2.2.symm.trans hPipe)
    exact ⟨hLive, hSlot⟩
  untouched := hInv.clean

/-- In a run in which nobody closes a descriptor that is still being opened, pipes live as long
as they are needed. -/
theorem sound_of_calm {es : List FileEvent} (hRun : Run (Restrict Calm Step) init es s) : s.Sound :=
  (hRun.invariant (fun _ _ _ hInv hStep => hInv.step hStep) settled_init).sound

/-- A FIFO is opened by two processes; one end is closed while a read is inside the pipe, the
other by an exit, and the read is the last one out. -/
def calmEvents : List FileEvent :=
  [.fork 0 1, .openFifo 0 7 false false true, .openFifo 1 7 true false true, .wake 0 false,
    .spawnThread 0 2, .enter 2 3 false, .close 0 3, .exit 1, .leave 2]

theorem sound_calmEvents : ∃ s, Run (Restrict Calm Step) init calmEvents s ∧ s.frees 0 = 1 ∧
    s.Sound := by
  obtain ⟨s, hRun, hFrees⟩ : ∃ s, Run (Restrict Calm Step) init calmEvents s ∧ s.frees 0 = 1 :=
    Run.exists_of_guarded (fun _ _ _ hNext => hNext) (by decide +kernel)
  exact ⟨s, hRun, hFrees, sound_of_calm hRun⟩

/-- A thread waits for the other end of a FIFO, another one closes the descriptor, and the first
looks at its slot again. -/
def abandonedOpen : List FileEvent :=
  [.spawnThread 0 1, .openFifo 0 7 false false true, .close 1 3, .wake 0 false]

/-- The open looks at a slot that is not its own any more. -/
theorem not_sound_abandonedOpen : ¬ ∀ es s, Run Step init es s → s.Sound := by
  intro hAll
  obtain ⟨s, hRun, hStrayed⟩ : ∃ s, Run Step init abandonedOpen s ∧ s.strayed = true :=
    Run.exists_of_foldlM (fun _ _ _ hNext => hNext) (by decide +kernel)
  rw [(hAll _ s hRun).untouched.2] at hStrayed
  cases hStrayed

end Files
end LeahOS.Fs
