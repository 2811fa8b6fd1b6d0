import LeahOS.Kernel.System

/-!
# How handles spread

A step adds handles in four ways: the kernel gives one, a process duplicates one it
holds, a child inherits what its parent holds, and a caller receives what came with an
answer. `Adds` says this of one operation on the tables, and `Spread` of a step of the
machine: whatever is held or on its way afterwards was held or on its way before, or was
added in one of these ways from what was.
-/

namespace LeahOS.Kernel
open List
variable {π : Type}

/-- `o'` has the handles of `o`, and others that `F` says how they came to be. -/
structure Adds (F : Via → Prop) (o o' : Objects) : Prop where
  issued : ∀ v ∈ o'.issued, v ∈ o.issued ∨ F v
  grows : o.issued ⊆ o'.issued
  held : ∀ pid e, Holds o'.tables pid e → Holds o.tables pid e ∨ (e.via ∈ o'.issued ∧ F e.via ∧
      e.via.info = ⟨pid, e.type, e.pointer, e.rights, e.via.info.tag⟩)

section Adds
variable {F : Via → Prop} {o o' o'' : Objects}

/-- Nothing is added. -/
theorem Adds.of_same (hIssued : o'.issued = o.issued)
    (hHeld : ∀ pid e, Holds o'.tables pid e → Holds o.tables pid e) : Adds F o o' where
  issued v hv := .inl (hIssued ▸ hv)
  grows := by
    rw [hIssued]
    exact List.Subset.refl _
  held pid e h := .inl (hHeld pid e h)

theorem Adds.refl (F : Via → Prop) (o : Objects) : Adds F o o := .of_same rfl fun _ _ h => h

theorem Adds.trans (h : Adds F o o') (h' : Adds F o' o'') : Adds F o o'' where
  issued v hv := (h'.issued v hv).elim (h.issued v) .inr
  grows := fun _ hv => h'.grows (h.grows hv)
  held pid e he := by
    rcases h'.held pid e he with he | hNew
    · rcases h.held pid e he with he | ⟨hVia, hF, hInfo⟩
      · exact .inl he
      · exact .inr ⟨h'.grows hVia, hF, hInfo⟩
    · exact .inr hNew

theorem giveLocked_adds (heap : Bool) (o : Objects) {x : Info} {how : Info → Via} (hF : F (how x))
    (hInfo : (how x).info = x) : Adds F o (giveLocked heap o x how).1 := by
  rcases giveLocked_spec heap o x how with ⟨hIssued, hHeld⟩ | ⟨hIssued, hHeld⟩
  · exact .of_same hIssued hHeld
  · refine ⟨fun v hv => ?_, ?_, fun pid e he => ?_⟩
    · rw [hIssued] at hv
      rcases mem_append.mp hv with hv | hv
      · exact .inl hv
      · obtain rfl := mem_singleton.mp hv
        exact .inr hF
    · rw [hIssued]
      exact subset_append_left _ _
    · rcases hHeld pid e he with he | ⟨rfl, generation, rfl⟩
      · exact .inl he
      · refine .inr ⟨?_, hF, ?_⟩
        · rw [hIssued]
          exact mem_append_right _ (mem_singleton.mpr rfl)
        · simp only [hInfo]

theorem duplicate_adds (heap : Bool) (o : Objects) (pid : Nat) (handle : Int) (mask : Nat)
    (hF : ∀ e, Holds o.tables pid e → F (.duplicated
      ⟨pid, e.type, e.pointer, e.rights &&& mask, e.via.info.tag⟩ e.via)) :
    Adds F o (duplicate heap o pid handle mask).1 := by
  unfold duplicate
  split
  · exact .refl F o
  next e hEntry =>
  split
  · exact .refl F o
  · exact giveLocked_adds heap o (hF e (holds_of_entryOf hEntry)) rfl

theorem inherit_adds (heap : Bool) (o : Objects) (parent child : Nat)
    (hF : ∀ e, Holds o.tables parent e → F (inheritEntry child e).via) :
    Adds F o (inherit heap o parent child) := by
  obtain ⟨new, hIssued, hNew, hHeld⟩ := inherit_spec heap o parent child
  refine ⟨fun v hv => ?_, ?_, fun pid e he => ?_⟩
  · rw [hIssued] at hv
    rcases mem_append.mp hv with hv | hv
    · exact .inl hv
    · obtain ⟨src, hSrc, rfl⟩ := hNew v hv
      exact .inr (hF src hSrc)
  · rw [hIssued]
    exact subset_append_left _ _
  · rcases hHeld pid e he with he | ⟨rfl, hVia, src, hSrc, rfl⟩
    · exact .inl he
    · refine .inr ⟨?_, hF src hSrc, rfl⟩
      rw [hIssued]
      exact mem_append_right _ hVia

theorem install_adds (heap : Bool) (pid : Nat) (r : Request π) (l : List Nat) (o : Objects)
    (handle : Nat → Int)
    (hF : ∀ i ∈ l, F (.sent ⟨pid, (r.carried i).type, (r.carried i).pointer, (r.carried i).rights,
      (r.carried i).via.info.tag⟩ (r.carried i).via)) :
    Adds F o (install heap pid r l o handle).1 := by
  induction l generalizing o handle with
  | nil => exact .refl F o
  | cons i rest ih =>
    have hOne : Adds F o (installOne heap pid o (r.carried i)).1 :=
      giveLocked_adds heap o (hF i mem_cons_self) rfl
    exact hOne.trans (ih _ _ fun j hj => hF j (mem_cons_of_mem _ hj))

end Adds

/-! ## Steps of the machine -/

/-- The capability goes with some answer. -/
def Carries (k : Machine π) (c : Carried) : Prop :=
  ∃ i j, (k.requests i).state = .answered ∧ j < (k.requests i).carriedN ∧ (k.requests i).carried j = c

/-- What a process gets for what the cache came up with. -/
def ImageInfo (k : Machine π) (p : Nat) (r : Cache × Option Nat) (x : Info) : Prop :=
  ∃ i, r.2 = some i ∧ x = ⟨k.tgid p, .image, i, kImageRights, (r.1.images i).serial⟩

/-- What the kernel hands out in a step. -/
def Gives (k : Machine π) : Event π → Info → Prop
  | .give h _, x => x = h
  | .imageFind p name version _, x => ImageInfo k p (findImage k.cache name version) x
  | .imageCreate p name version bytes frames _, x =>
    ImageInfo k p (create k.cache name version bytes frames) x
  | _, _ => False

/-- How a handle can come to be in a step. -/
inductive Fresh (k : Machine π) (e : Event π) : Via → Prop
  | given {x : Info} (hGives : Gives k e x) : Fresh k e (.given x)
  | duplicated {pid : Nat} {src : Entry} (mask : Nat) (hSrc : Holds k.objects.tables pid src) :
      Fresh k e (.duplicated ⟨pid, src.type, src.pointer, src.rights &&& mask, src.via.info.tag⟩
        src.via)
  | inherited {parent : Nat} {src : Entry} (child : Nat) (hSrc : Holds k.objects.tables parent src) :
      Fresh k e (inheritEntry child src).via
  | sent {c : Carried} (pid : Nat) (hCarries : Carries k c) :
      Fresh k e (.sent ⟨pid, c.type, c.pointer, c.rights, c.via.info.tag⟩ c.via)

/-- What a step does to handles, held and on their way. -/
structure Spread (k : Machine π) (e : Event π) (k' : Machine π) : Prop where
  adds : Adds (Fresh k e) k.objects k'.objects
  carried : ∀ c, Carries k' c → Carries k c ∨
    ∃ pid src, Holds k.objects.tables pid src ∧ c = ⟨src.type, src.pointer, src.rights, src.via⟩

section Steps
variable {k k' : Machine π} {p : Nat} {c : Carried} {msg : Message π} {e : Event π}

/-- The server passes on handles of its own, out of the message. -/
theorem mem_resolveCarried {g : Tables} {server : Nat} (hc : c ∈ resolveCarried g server msg) :
    ∃ i < min msg.handles kMaxCarried, ∃ src, entryOf g server (msg.handle i) = some src ∧
      c = ⟨src.type, src.pointer, src.rights, src.via⟩ := by
  obtain ⟨i, hi, hSome⟩ := mem_filterMap.mp hc
  simp only at hSome
  split at hSome
  · cases hSome
  next hType =>
  obtain rfl := Option.some.inj hSome
  cases hEntry : entryOf g server (msg.handle i) with
  | none => simp [typeOf, hEntry] at hType
  | some src =>
    refine ⟨i, mem_range.mp hi, src, hEntry, ?_⟩
    simp [viaOf, typeOf, rightsOf, look, hEntry]

/-- What goes with an answer after a `reply` went with one before, or comes with this one. -/
theorem reply_carries {slot call : Nat} (hc : Carries (reply k p slot call msg) c) :
    Carries k c ∨ c ∈ resolveCarried k.objects.tables (k.tgid p) msg := by
  obtain ⟨i, j, hi, hj, hEq⟩ := hc
  simp only [reply] at hi hj hEq
  by_cases hSlot : i = slot
  · subst hSlot
    rcases replyTo_cases k p i msg with hSame | ⟨-, -, hSame⟩ | ⟨-, -, carried, hCarried, hSame⟩ <;>
      rw [hSame] at hi hj hEq
    · exact .inl ⟨i, j, hi, hj, hEq⟩
    · simp [Machine.setRequest] at hi
    · simp only [Machine.setRequest, Function.update_self] at hj hEq
      rw [getD_eq_getElem?_getD, List.getElem?_eq_getElem hj, Option.getD_some] at hEq
      refine .inr ?_
      rw [← hCarried, ← hEq]
      exact getElem_mem hj
  · rw [replyTo_requests_of_ne k p slot msg hSlot] at hi hj hEq
    exact .inl ⟨i, j, hi, hj, hEq⟩

/-- Only `reply` puts a capability on its way. -/
theorem carries_of_step (hStep : Step k e k') (hc : Carries k' c) :
    Carries k c ∨ ∃ p slot call msg, e = .reply p slot call msg ∧
      c ∈ resolveCarried k.objects.tables (k.tgid p) msg := by
  by_cases hReply : ∃ p slot call msg, e = .reply p slot call msg
  · obtain ⟨p, slot, call, msg, rfl⟩ := hReply
    cases hStep with
    | reply _ hp hHas =>
      exact (reply_carries hc).imp_right fun hNew => ⟨p, slot, call, msg, rfl, hNew⟩
  · obtain ⟨i, j, hi, hj, hEq⟩ := hc
    have hSame := answered_of_step hStep
      (fun p slot call msg hEq => hReply ⟨p, slot, call, msg, hEq⟩) hi
    rw [hSame] at hi hj hEq
    exact .inl ⟨i, j, hi, hj, hEq⟩

theorem callCollect_adds (heap : Bool) (k : Machine π) (p slot call : Nat) (e : Event π) :
    Adds (Fresh k e) k.objects (callCollect heap k p slot call).1.objects := by
  by_cases hAnswered : (k.requests slot).state = .answered
  · have hInstall : Adds (Fresh k e) k.objects (install heap (k.tgid p) (k.requests slot)
        ((List.range kMaxCarried).filter fun j => j < (k.requests slot).carriedN) k.objects
        (k.requests slot).body.handle).1 :=
      install_adds _ _ _ _ _ _ fun j hj => .sent (k.tgid p)
        ⟨slot, j, hAnswered, by simpa using (mem_filter.mp hj).2, rfl⟩
    simpa [callCollect, hAnswered, Machine.setRequest, Machine.setDoing] using hInstall
  · have hSame : (callCollect heap k p slot call).1.objects = k.objects := by
      simp [callCollect, hAnswered, Machine.setRequest, Machine.setDoing]
    rw [hSame]
    exact .refl _ _

theorem giveImage_adds (heap : Bool) (k : Machine π) (p : Nat) (r : Cache × Option Nat)
    (hGives : ∀ x, ImageInfo k p r x → Gives k e x) :
    Adds (Fresh k e) k.objects (giveImage heap k p r).1.objects := by
  unfold giveImage
  split
  · exact .refl _ _
  next i hi => exact giveLocked_adds heap _ (.given (hGives _ ⟨i, hi, rfl⟩)) rfl

theorem exitCurrent_adds (F : Via → Prop) (k : Machine π) (p : Nat) :
    Adds F k.objects (exitCurrent k p).objects := by
  obtain ⟨o, _, _, hEq, ⟨-, rfl, -⟩ | ⟨-, rfl, -⟩⟩ := exitCurrent_eq k p <;> rw [hEq]
  · exact .refl _ _
  · exact .of_same (closeAll_issued _ _) fun _ _ => holds_closeAll

/-- The steps that leave the tables and the images alone, whatever they find. -/
def Event.Quiet : Event π → Prop
  | .portCreate .. | .portDestroy .. | .callStart .. | .callTimeout .. | .callSignal ..
  | .tryRecv .. | .recvStart .. | .recvWake .. | .reply .. | .thread .. => True
  | _ => False

theorem quiet_of_step (hStep : Step k e k') (he : e.Quiet) :
    k'.objects = k.objects ∧ k'.cache = k.cache := by
  cases hStep with
  | @portCreate p name hp =>
    rcases portCreate_cases k p name with hEq | ⟨_, -, -, hEq⟩ <;> rw [hEq] <;> exact ⟨rfl, rfl⟩
  | @portDestroy p port hp =>
    obtain ⟨_, _, hEq⟩ := portDestroyLocked_eq k p port
    rw [hEq]
    exact ⟨rfl, rfl⟩
  | @callStart p port msg timed hp =>
    rcases callStart_cases k p port msg timed with hEq | ⟨_, -, -, hEq⟩ <;> rw [hEq] <;>
      exact ⟨rfl, rfl⟩
  | callTimeout | callSignal | thread => exact ⟨rfl, rfl⟩
  | tryRecv port hp => exact (tryRecv_ends k _ port).objects
  | recvStart port hp => exact (recvStart_ends k _ port).objects
  | recvWake giveUp hp => exact (recvWake_ends k _ _ giveUp).objects
  | @reply p slot call msg hp hHas =>
    obtain ⟨_, hEq⟩ := replyTo_eq k p slot msg
    unfold reply
    rw [hEq]
    exact ⟨rfl, rfl⟩
  | _ => exact he.elim

/-- A step adds handles to the tables in one of the four ways. -/
theorem adds_of_step (hStep : Step k e k') :
    Adds (Fresh k e) k.objects k'.objects := by
  have hQuiet := quiet_of_step hStep
  cases hStep with
  | portCreate | portDestroy | callStart | callTimeout | callSignal | tryRecv | recvStart
  | recvWake | reply | thread =>
    rw [(hQuiet trivial).1]
    exact .refl _ _
  | callCollect heap hp hDone => exact callCollect_adds heap k _ _ _ _
  | exit hp => exact exitCurrent_adds _ k _
  | fork heap hp => exact inherit_adds heap k.objects _ _ fun _ hSrc => .inherited _ hSrc
  | give x heap => exact giveLocked_adds heap _ (.given rfl) rfl
  | imageFind name version heap hp | imageCreate name version bytes frames heap hp =>
    exact giveImage_adds heap k _ _ fun _ hx => hx
  | close handle hp => exact .of_same (close_issued _ _ handle) fun _ _ => holds_close
  | duplicate handle mask heap hp =>
    exact duplicate_adds heap _ _ handle mask fun _ hSrc => .duplicated mask hSrc

/-- **What a step does to handles.** -/
theorem spread_of_step (hStep : Step k e k') : Spread k e k' := by
  refine ⟨adds_of_step hStep, fun c hc => (carries_of_step hStep hc).imp_right ?_⟩
  rintro ⟨p, slot, call, msg, -, hNew⟩
  obtain ⟨i, -, src, hEntry, hEq⟩ := mem_resolveCarried hNew
  exact ⟨k.tgid p, src, holds_of_entryOf hEntry, hEq⟩

/-! ## Operations on the tables -/

/-- One operation on the tables. -/
inductive TableOp : Objects → Objects → Prop
  | give (heap : Bool) (o : Objects) (x : Info) (how : Info → Via) :
      TableOp o (giveLocked heap o x how).1
  | close (o : Objects) (pid : Nat) (handle : Int) : TableOp o (close o pid handle).1
  | closeAll (o : Objects) (pid : Nat) : TableOp o (closeAll o pid)
  | inherit (heap : Bool) (o : Objects) (parent child : Nat) :
      TableOp o (inherit heap o parent child)

/-- Some of them, one after the other. -/
abbrev TableOps : Objects → Objects → Prop := Relation.ReflTransGen TableOp

theorem install_ops (heap : Bool) (pid : Nat) (r : Request π) (l : List Nat) (o : Objects)
    (handle : Nat → Int) : TableOps o (install heap pid r l o handle).1 := by
  induction l generalizing o handle with
  | nil => exact .refl
  | cons i rest ih => exact .head (.give _ _ _ _) (ih _ _)

theorem duplicate_ops (heap : Bool) (o : Objects) (pid : Nat) (handle : Int) (mask : Nat) :
    TableOps o (duplicate heap o pid handle mask).1 := by
  unfold duplicate
  split
  · exact .refl
  split
  · exact .refl
  · exact .single (.give _ _ _ _)

theorem giveImage_ops (heap : Bool) (k : Machine π) (p : Nat) (r : Cache × Option Nat) :
    TableOps k.objects (giveImage heap k p r).1.objects := by
  unfold giveImage
  split
  · exact .refl
  · exact .single (.give _ _ _ _)

/-- A step changes the tables by these operations only. -/
theorem tableOps_of_step (hStep : Step k e k') : TableOps k.objects k'.objects := by
  have hQuiet := quiet_of_step hStep
  cases hStep with
  | portCreate | portDestroy | callStart | callTimeout | callSignal | tryRecv | recvStart
  | recvWake | reply | thread =>
    rw [(hQuiet trivial).1]
  | @callCollect p slot call timed heap hp hDone =>
    simp only [callCollect, Machine.setRequest, Machine.setDoing]
    split
    · exact install_ops heap (k.tgid p) (k.requests slot) _ k.objects _
    · exact .refl
  | @exit p hp =>
    obtain ⟨o, _, _, hEq, ⟨-, rfl, -⟩ | ⟨-, rfl, -⟩⟩ := exitCurrent_eq k p
    · rw [hEq]
    · rw [hEq]
      exact .single (.closeAll _ _)
  | fork heap hp => exact .single (.inherit _ _ _ _)
  | give x heap => exact .single (.give _ _ _ _)
  | imageFind | imageCreate => exact giveImage_ops _ _ _ _
  | close handle hp => exact .single (.close _ _ _)
  | duplicate handle mask heap hp => exact duplicate_ops _ _ _ _ _

end Steps
end LeahOS.Kernel
