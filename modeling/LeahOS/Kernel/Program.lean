import LeahOS.Kernel.Handles

/-!
# The program a handle names

A handle on an image holds the address of a slot of the cache, and slots are used again.
A handle that a process got for a program should go on naming that program: whatever it
reads through it, and whatever frame it finds or shares through it, should be of the bytes
the image was made from.

Nothing ties a handle to what was in the slot when it was given. When the cache is full
the slot asked for longest ago gets another program, and every handle on the old one is
now a handle on the new one. `Lasting` asks that `create` never takes a slot that some
handle names, and that the frames it gets are nobody's.
-/

namespace LeahOS.Kernel
open Lib Function List Option
variable {π : Type}

/-! ## The cache -/

/-- What the cache keeps of a program in one slot. -/
def Keeps (c : Cache) (image : Image) (program : List UInt8) : Prop :=
  c.made[image.serial]? = some program ∧ image.bytes = program.length ∧
    image.pages = pagesOf program.length ∧
      ∀ page < image.pages, c.mem (image.frames page) = pageOf program page

/-- Every image in use is some program that was made. -/
def CacheInv (c : Cache) : Prop :=
  ∀ i, (c.images i).used = true → ∃ program, Keeps c (c.images i) program

/-- The program at `pointer` is the one with this number, if there is one at all. -/
def Names (c : Cache) (pointer tag : Nat) : Prop :=
  tag < c.made.length ∧ ((c.images pointer).used = true → (c.images pointer).serial = tag)

/-- No frame twice, and none of an image in use. -/
def FreshFrames (c : Cache) (frames : Nat → Nat) (pages : Nat) : Prop :=
  (∀ a < pages, ∀ b < pages, frames a = frames b → a = b) ∧
    ∀ i, (c.images i).used = true → ∀ a < (c.images i).pages, ∀ b < pages,
      (c.images i).frames a ≠ frames b

/-- A find only marks the slot as just used. -/
theorem findImage_spec (c : Cache) (name : List Char) (version : Nat) :
    (findImage c name version).1.mem = c.mem ∧ (findImage c name version).1.made = c.made ∧
      (∀ i, ∃ t, (findImage c name version).1.images i = { c.images i with usedAt := t }) ∧
      ∀ i, (findImage c name version).2 = some i → (c.images i).used = true := by
  unfold findImage
  split
  · exact ⟨rfl, rfl, fun i => ⟨(c.images i).usedAt, rfl⟩, fun i hi => by cases hi⟩
  next j hFind =>
  refine ⟨rfl, rfl, fun i => ?_, fun i hi => ?_⟩
  · by_cases hEq : i = j
    · subst hEq
      exact ⟨c.clock + 1, by simp [Cache.set]⟩
    · exact ⟨(c.images i).usedAt, by simp [Cache.set, update_of_ne hEq]⟩
  · obtain rfl := some.inj hi
    have hMatch := List.find?_some hFind
    simp only [Bool.and_eq_true] at hMatch
    exact hMatch.1.1

/-- The slot that is taken is empty, and the others are as they were. -/
theorem takeSlot_spec (c : Cache) :
    (takeSlot c).1.mem = c.mem ∧ (takeSlot c).1.made = c.made ∧
      ((takeSlot c).1.images (takeSlot c).2).used = false ∧
      ∀ i, i ≠ (takeSlot c).2 → (takeSlot c).1.images i = c.images i := by
  unfold takeSlot
  split
  next i hFind =>
    have hUnused : (c.images i).used = false := by
      simpa using List.find?_some hFind
    exact ⟨rfl, rfl, hUnused, fun _ _ => rfl⟩
  · refine ⟨rfl, rfl, ?_, fun i hNe => ?_⟩
    · simp [Cache.set, discard]
    · simp [Cache.set, update_of_ne hNe]

variable {frames : Nat → Nat} {pages : Nat}

theorem fill_of_ne (mem : Nat → Nat → UInt8) (bytes : List UInt8) {frame : Nat}
    (hNe : ∀ b < pages, frame ≠ frames b) :
    fill mem bytes frames pages frame = mem frame := by
  induction pages with
  | zero => rfl
  | succ pages ih =>
    rw [fill, update_of_ne (hNe pages (Nat.lt_succ_self _))]
    exact ih fun b hb => hNe b (Nat.lt_succ_of_lt hb)

/-- Every page is in its frame, when no frame is used twice. -/
theorem fill_frame (mem : Nat → Nat → UInt8) (bytes : List UInt8)
    (hInj : ∀ a < pages, ∀ b < pages, frames a = frames b → a = b) {page : Nat}
    (hPage : page < pages) : fill mem bytes frames pages (frames page) = pageOf bytes page := by
  induction pages with
  | zero => exact absurd hPage (Nat.not_lt_zero _)
  | succ pages ih =>
    rw [fill]
    by_cases hEq : page = pages
    · rw [hEq, update_self]
    · have hLt : page < pages := by omega
      have hNe : frames page ≠ frames pages := fun hSame =>
        hEq (hInj page hPage pages (Nat.lt_succ_self _) hSame)
      rw [update_of_ne hNe]
      exact ih (fun a ha b hb => hInj a (Nat.lt_succ_of_lt ha) b (Nat.lt_succ_of_lt hb)) hLt

/-! ## Reading -/

theorem readLoop_eq (c : Cache) (image : Image) (offset bytes : Nat) {fuel done : Nat}
    (out : List UInt8) (hFuel : bytes ≤ done + fuel) :
    readLoop c image offset bytes fuel done out =
      out ++ (List.range' done (bytes - done)).map fun i =>
        c.mem (image.frames ((offset + i) / kPageSize)) ((offset + i) % kPageSize) := by
  induction fuel generalizing done out with
  | zero =>
    have hNone : bytes - done = 0 := by omega
    simp [readLoop, hNone]
  | succ fuel ih =>
    rw [readLoop]
    split
    next hDone =>
      have hNone : bytes - done = 0 := by omega
      simp [hNone]
    next hMore =>
    -- the rest of this page, or all that is left
    have hWithin : (offset + done) % kPageSize < kPageSize := Nat.mod_lt _ (by decide)
    obtain ⟨take, hTake⟩ : ∃ take, take =
      min (kPageSize - (offset + done) % kPageSize) (bytes - done) := ⟨_, rfl⟩
    simp only [← hTake]
    rw [ih _ (by omega), append_assoc]
    congr 1
    have hSplit : List.range' done (bytes - done) =
        List.range' done take ++ List.range' (done + take) (bytes - (done + take)) := by
      rw [show bytes - done = take + (bytes - (done + take)) by omega, ← List.range'_append_1]
    rw [hSplit, map_append]
    congr 1
    rw [List.range'_eq_map_range, List.map_map]
    refine map_congr_left fun i hi => ?_
    have hLt := mem_range.mp hi
    have hPage : (offset + (done + i)) / kPageSize = (offset + done) / kPageSize := by
      simp only [kPageSize] at *
      omega
    have hPlace : (offset + (done + i)) % kPageSize = (offset + done) % kPageSize + i := by
      simp only [kPageSize] at *
      omega
    simp only [comp_apply, hPage, hPlace]

/-- What is read from a slot that keeps a program is of the program. -/
theorem Keeps.read {c : Cache} {image : Image} {program : List UInt8} (h : Keeps c image program)
    {offset bytes : Nat} (hIn : offset + bytes ≤ program.length) :
    readLoop c image offset bytes bytes 0 [] = (program.drop offset).take bytes := by
  obtain ⟨-, -, hPages, hMem⟩ := h
  rw [readLoop_eq c image offset bytes [] (by omega), nil_append, Nat.sub_zero]
  refine ext_getElem (by simp; omega) fun i hi hi' => ?_
  have hLt : i < bytes := by simpa using hi
  have hPage : (offset + i) / kPageSize < image.pages := by
    rw [hPages]
    simp only [pagesOf, kPageSize]
    omega
  have hPlace : (offset + i) / kPageSize * kPageSize + (offset + i) % kPageSize = offset + i :=
    Nat.div_add_mod' _ _
  have hIdx : offset + i < program.length := by omega
  simp only [getElem_map, getElem_range', Nat.one_mul, Nat.zero_add, getElem_take, getElem_drop]
  rw [hMem _ hPage, pageOf, hPlace, getD_eq_getElem?_getD, List.getElem?_eq_getElem hIdx, getD_some]

/-! ## What `find` and `create` keep -/

section Cache
variable {c c' : Cache}

/-- Slots that only change when they were asked for keep their programs. -/
theorem CacheInv.of_touched (h : CacheInv c) (hMem : c'.mem = c.mem) (hMade : c'.made = c.made)
    (hImages : ∀ i, (c'.images i).used = true → ∃ t, c'.images i = { c.images i with usedAt := t }) :
    CacheInv c' := by
  intro i hi
  obtain ⟨t, hEq⟩ := hImages i hi
  rw [hEq] at hi ⊢
  obtain ⟨program, hSerial, hBytes, hPages, hFrames⟩ := h i hi
  refine ⟨program, hMade ▸ hSerial, hBytes, hPages, ?_⟩
  rw [hMem]
  exact hFrames

theorem findImage_inv (h : CacheInv c) (name : List Char) (version : Nat) :
    CacheInv (findImage c name version).1 := by
  obtain ⟨hMem, hMade, hImages, -⟩ := findImage_spec c name version
  exact h.of_touched hMem hMade fun i _ => hImages i

theorem takeSlot_inv (h : CacheInv c) : CacheInv (takeSlot c).1 := by
  obtain ⟨hMem, hMade, hUnused, hImages⟩ := takeSlot_spec c
  refine h.of_touched hMem hMade fun i hi => ⟨(c.images i).usedAt, hImages i ?_⟩
  rintro rfl
  rw [hUnused] at hi
  cases hi

variable {pointer slot tag : Nat}

/-- A new program in an empty slot, in frames that are nobody's. -/
theorem place_inv (h : CacheInv c) (name : List Char) (version : Nat) (bytes : List UInt8)
    {frames : Nat → Nat} (hFresh : FreshFrames c frames (pagesOf bytes.length)) :
    CacheInv (place c slot name version bytes frames) := by
  intro i hi
  by_cases hEq : i = slot
  · subst hEq
    simp only [place, Cache.set, update_self]
    refine ⟨bytes, List.getElem?_concat_length, rfl, rfl, fun page hPage => ?_⟩
    exact fill_frame c.mem bytes hFresh.1 hPage
  · simp only [place, Cache.set, update_of_ne hEq] at hi ⊢
    obtain ⟨program, hSerial, hBytes, hPages, hFrames⟩ := h i hi
    refine ⟨program, ?_, hBytes, hPages, fun page hPage => ?_⟩
    · have hLt : (c.images i).serial < c.made.length := (List.getElem?_eq_some_iff.mp hSerial).1
      exact (List.getElem?_append_left hLt).trans hSerial
    · rw [← hFrames page hPage]
      exact fill_of_ne c.mem bytes fun b hb => hFresh.2 i hi page hPage b hb

/-- What `create` does: nothing, a find, a slot emptied for want of memory, or a new
program in the slot it takes. -/
theorem create_cases (c : Cache) (name : List Char) (version : Nat) (bytes : List UInt8)
    (frames : Option (Nat → Nat)) :
    create c name version bytes frames = (c, none) ∨
    create c name version bytes frames = findImage c name version ∨
    create c name version bytes frames = ((takeSlot c).1, none) ∨
    ∃ f, frames = some f ∧ (findImage c name version).2 = none ∧
      create c name version bytes frames =
        (place (takeSlot c).1 (takeSlot c).2 name version bytes f, some (takeSlot c).2) := by
  unfold create
  split
  · exact .inl rfl
  split
  next hFind => exact .inr (.inl hFind.symm)
  next c' hFind =>
  have hSame : c' = c := by
    unfold findImage at hFind
    split at hFind <;> cases hFind
    rfl
  subst hSame
  cases frames with
  | none => exact .inr (.inr (.inl rfl))
  | some f => exact .inr (.inr (.inr ⟨f, rfl, by rw [hFind], rfl⟩))

/-- The frames a new program gets are nobody's. -/
def NewFrames (c : Cache) (name : List Char) (version size : Nat) (frames : Option (Nat → Nat)) :
    Prop :=
  ∀ f, frames = some f → (findImage c name version).2 = none →
    FreshFrames (takeSlot c).1 f (pagesOf size)

theorem create_inv (h : CacheInv c) {name : List Char} {version : Nat} {bytes : List UInt8}
    {frames : Option (Nat → Nat)} (hFrames : NewFrames c name version bytes.length frames) :
    CacheInv (create c name version bytes frames).1 := by
  rcases create_cases c name version bytes frames with hEq | hEq | hEq | ⟨f, rfl, hNone, hEq⟩ <;>
    rw [hEq]
  · exact h
  · exact findImage_inv h name version
  · exact takeSlot_inv h
  · exact place_inv (takeSlot_inv h) name version bytes (hFrames f rfl hNone)

theorem Names.of_touched (h : Names c pointer tag) (hMade : c.made.length ≤ c'.made.length)
    (hImage : (c'.images pointer).used = true →
      ∃ t, c'.images pointer = { c.images pointer with usedAt := t }) : Names c' pointer tag := by
  refine ⟨h.1.trans_le hMade, fun hUsed => ?_⟩
  obtain ⟨t, hEq⟩ := hImage hUsed
  rw [hEq] at hUsed ⊢
  exact h.2 hUsed

theorem findImage_names (h : Names c pointer tag) (name : List Char) (version : Nat) :
    Names (findImage c name version).1 pointer tag := by
  obtain ⟨-, hMade, hImages, -⟩ := findImage_spec c name version
  exact h.of_touched (by rw [hMade]) fun _ => hImages pointer

theorem takeSlot_names (h : Names c pointer tag) :
    Names (takeSlot c).1 pointer tag := by
  obtain ⟨-, hMade, hUnused, hImages⟩ := takeSlot_spec c
  refine h.of_touched (by rw [hMade]) fun hUsed => ⟨(c.images pointer).usedAt, hImages pointer ?_⟩
  rintro rfl
  rw [hUnused] at hUsed
  cases hUsed

theorem place_names (h : Names c pointer tag) (hNe : pointer ≠ slot) (name : List Char)
    (version : Nat) (bytes : List UInt8) (frames : Nat → Nat) :
    Names (place c slot name version bytes frames) pointer tag := by
  refine h.of_touched (by simp [place, Cache.set]) fun _ => ⟨(c.images pointer).usedAt, ?_⟩
  simp [place, Cache.set, update_of_ne hNe]

/-- A slot in use names its own program. -/
theorem CacheInv.names (h : CacheInv c) {i : Nat} (hUsed : (c.images i).used = true) :
    Names c i (c.images i).serial := by
  obtain ⟨program, hSerial, -⟩ := h i hUsed
  exact ⟨(List.getElem?_eq_some_iff.mp hSerial).1, fun _ => rfl⟩

end Cache

/-! ## Runs -/

/-- Some handle, held or on its way, is on the image at `pointer` and was given for the
program with this number. -/
def Live (k : Machine π) (pointer tag : Nat) : Prop :=
  (∃ pid e, Holds k.objects.tables pid e ∧ e.type = .image ∧ e.pointer = pointer ∧
    e.via.info.tag = tag) ∨
  ∃ c, Carries k c ∧ c.type = .image ∧ c.pointer = pointer ∧ c.via.info.tag = tag

/-- What is read, found or shared through a handle on an image is of the program the
handle was given for. -/
def KeepsProgram (k : Machine π) : Prop :=
  ∀ pid e, Holds k.objects.tables pid e → e.type = .image →
    ∃ program, k.cache.made[e.via.info.tag]? = some program ∧
      (∀ offset bytes out, readImage k.cache e.pointer offset bytes = some out →
        offset + bytes ≤ program.length ∧ out = (program.drop offset).take bytes) ∧
      (∀ offset frame, frameAt k.cache e.pointer offset = some frame →
        k.cache.mem frame = pageOf program (offset / kPageSize)) ∧
      ∀ offset shared, shareFrame k.cache e.pointer offset shared = true →
        ∃ frame, frameAt k.cache e.pointer offset = some frame ∧
          k.cache.mem frame = pageOf program (offset / kPageSize)

/-- A new program goes into a slot that no handle names, and into frames of its own; and
only the calls on images give handles on them. -/
def Lasting (k : Machine π) : Event π → Prop
  | .give h _ => h.type ≠ .image
  | .imageCreate _ name version bytes (some frames) _ => (findImage k.cache name version).2 = none →
      (∀ tag, ¬ Live k (takeSlot k.cache).2 tag) ∧
        FreshFrames (takeSlot k.cache).1 frames (pagesOf bytes.length)
  | _ => True

/-- The invariant of lasting runs. -/
structure ProgramInv (k : Machine π) : Prop where
  cache : CacheInv k.cache
  names : ∀ pointer tag, Live k pointer tag → Names k.cache pointer tag

theorem Initial.programInv {k : Machine π} (h : Initial k) : ProgramInv k where
  cache i hi := by simp [h.images_eq i] at hi
  names pointer tag hLive := by
    rcases hLive with ⟨pid, e, ⟨i, t, slot, ht, -⟩, -⟩ | ⟨c, ⟨i, j, hi, -⟩, -⟩
    · simp [h.tables_eq i] at ht
    · simp [h.requests_eq i] at hi

section Steps
variable {k k' : Machine π} {e : Event π}

/-- A handle on an image is one there was, or is given in this step. -/
theorem live_of_spread (hSpread : Spread k e k') {pointer tag : Nat} (hLive : Live k' pointer tag) :
    Live k pointer tag ∨ ∃ x, Gives k e x ∧ x.type = .image ∧ x.pointer = pointer ∧ x.tag = tag := by
  rcases hLive with ⟨pid, en, hHolds, hType, rfl, rfl⟩ | ⟨c, hCarries, hType, rfl, rfl⟩
  · rcases hSpread.adds.held pid en hHolds with hOld | ⟨-, hFresh, hInfo⟩
    · exact .inl (.inl ⟨pid, en, hOld, hType, rfl, rfl⟩)
    have hType' := (congrArg Info.type hInfo).trans hType
    have hPointer := congrArg Info.pointer hInfo
    generalize en.via = via at hFresh hType' hPointer
    cases hFresh with
    | @given x hGives => exact .inr ⟨x, hGives, hType', hPointer, rfl⟩
    | @duplicated pid' src mask hSrc =>
      exact .inl (.inl ⟨pid', src, hSrc, hType', hPointer, rfl⟩)
    | @inherited parent src child hSrc =>
      exact .inl (.inl ⟨parent, src, hSrc, hType', hPointer, rfl⟩)
    | @sent c pid' hCarries => exact .inl (.inr ⟨c, hCarries, hType', hPointer, rfl⟩)
  · rcases hSpread.carried c hCarries with hOld | ⟨pid, src, hSrc, rfl⟩
    · exact .inl (.inr ⟨c, hOld, hType, rfl, rfl⟩)
    · exact .inl (.inl ⟨pid, src, hSrc, hType, rfl, rfl⟩)

/-- What a step does to the cache, as far as handles go. -/
structure CacheKept (k : Machine π) (e : Event π) (k' : Machine π) : Prop where
  inv : CacheInv k'.cache
  live : ∀ pointer tag, Live k pointer tag → Names k'.cache pointer tag
  given : ∀ x, Gives k e x → x.type = .image → Names k'.cache x.pointer x.tag

theorem CacheKept.of_same (h : ProgramInv k) (hCache : k'.cache = k.cache)
    (hGives : ∀ x, Gives k e x → x.type ≠ .image) : CacheKept k e k' where
  inv := hCache ▸ h.cache
  live := hCache ▸ h.names
  given x hx hType := absurd hType (hGives x hx)

/-- A handle on what the cache came up with. -/
theorem CacheKept.of_giveImage {heap : Bool} {p : Nat} {r : Cache × Option Nat}
    (hGives : ∀ x, Gives k e x → ImageInfo k p r x) (hInv : CacheInv r.1)
    (hUsed : ∀ i, r.2 = some i → (r.1.images i).used = true)
    (hLive : ∀ pointer tag, Live k pointer tag → Names r.1 pointer tag) :
    CacheKept k e (giveImage heap k p r).1 := by
  obtain ⟨o, hEq⟩ := giveImage_eq heap k p r
  rw [hEq]
  refine ⟨hInv, hLive, fun x hx _ => ?_⟩
  obtain ⟨i, hi, rfl⟩ := hGives x hx
  exact hInv.names (hUsed i hi)

theorem findImage_used (c : Cache) (name : List Char) (version i : Nat)
    (hi : (findImage c name version).2 = some i) :
    ((findImage c name version).1.images i).used = true := by
  obtain ⟨-, -, hImages, hUsed⟩ := findImage_spec c name version
  obtain ⟨t, hEq⟩ := hImages i
  rw [hEq]
  exact hUsed i hi

theorem imageFind_kept (h : ProgramInv k) (heap : Bool) (p : Nat) (name : List Char)
    (version : Nat) : CacheKept k (.imageFind p name version heap) (imageFind heap k p name version).1 :=
  CacheKept.of_giveImage (fun _ hx => hx) (findImage_inv h.cache name version)
    (findImage_used k.cache name version) fun pointer tag hLive =>
      findImage_names (h.names pointer tag hLive) name version

theorem imageCreate_kept (h : ProgramInv k) (heap : Bool) (p : Nat) (name : List Char)
    (version : Nat) (bytes : List UInt8) (frames : Option (Nat → Nat))
    (hOk : Lasting k (.imageCreate p name version bytes frames heap)) :
    CacheKept k (.imageCreate p name version bytes frames heap)
      (imageCreate heap k p name version bytes frames).1 := by
  have hFrames : NewFrames k.cache name version bytes.length frames := by
    rintro f rfl hNone
    exact (hOk hNone).2
  refine CacheKept.of_giveImage (fun _ hx => hx) (create_inv h.cache hFrames) ?_ ?_ <;>
    rcases create_cases k.cache name version bytes frames with hEq | hEq | hEq | ⟨f, rfl, hNone, hEq⟩ <;>
      rw [hEq]
  · exact fun i hi => by cases hi
  · exact findImage_used k.cache name version
  · exact fun i hi => by cases hi
  · intro i hi
    obtain rfl := some.inj hi
    simp [place, Cache.set]
  · exact h.names
  · exact fun pointer tag hLive => findImage_names (h.names pointer tag hLive) name version
  · exact fun pointer tag hLive => takeSlot_names (h.names pointer tag hLive)
  · intro pointer tag hLive
    refine place_names (takeSlot_names (h.names pointer tag hLive)) ?_ name version bytes f
    rintro rfl
    exact (hOk hNone).1 tag hLive

/-- What a step does to the cache: nothing, or what `find` or `create` do. -/
theorem cache_of_step (hStep : Step k e k') :
    (k'.cache = k.cache ∧ ∀ x, Gives k e x → ∃ heap, e = .give x heap) ∨
    (∃ p name version heap, e = .imageFind p name version heap ∧
      k' = (imageFind heap k p name version).1) ∨
    ∃ p name version bytes frames heap, e = .imageCreate p name version bytes frames heap ∧
      k' = (imageCreate heap k p name version bytes frames).1 := by
  have hQuiet := quiet_of_step hStep
  cases hStep with
  | portCreate | portDestroy | callStart | callTimeout | callSignal | tryRecv | recvStart
  | recvWake | reply | thread => exact .inl ⟨(hQuiet trivial).2, fun _ => False.elim⟩
  | @exit p hp =>
    obtain ⟨_, _, _, hEq, -⟩ := exitCurrent_eq k p
    rw [hEq]
    exact .inl ⟨rfl, fun _ => False.elim⟩
  | give x heap =>
    refine .inl ⟨rfl, fun y hy => ?_⟩
    obtain rfl : y = x := hy
    exact ⟨heap, rfl⟩
  | imageFind name version heap hp => exact .inr (.inl ⟨_, name, version, heap, rfl, rfl⟩)
  | imageCreate name version bytes frames heap hp =>
    exact .inr (.inr ⟨_, name, version, bytes, frames, heap, rfl, rfl⟩)
  | _ => exact .inl ⟨rfl, fun _ => False.elim⟩

theorem cacheKept_of_step (h : ProgramInv k) (hOk : Lasting k e) (hStep : Step k e k') :
    CacheKept k e k' := by
  rcases cache_of_step hStep with ⟨hCache, hGives⟩ | ⟨p, name, version, heap, rfl, rfl⟩ |
    ⟨p, name, version, bytes, frames, heap, rfl, rfl⟩
  · refine CacheKept.of_same h hCache fun x hx => ?_
    obtain ⟨heap, rfl⟩ := hGives x hx
    exact hOk
  · exact imageFind_kept h heap p name version
  · exact imageCreate_kept h heap p name version bytes frames hOk

/-- **A lasting step leaves every handle with its program.** -/
theorem programInv_step (h : ProgramInv k) (hOk : Lasting k e) (hStep : Step k e k') :
    ProgramInv k' := by
  have hKept := cacheKept_of_step h hOk hStep
  refine ⟨hKept.inv, fun pointer tag hLive => ?_⟩
  rcases live_of_spread (spread_of_step hStep) hLive with hOld | ⟨x, hGives, hType, rfl, rfl⟩
  · exact hKept.live pointer tag hOld
  · exact hKept.given x hGives hType

/-- What goes through a handle is of its program, then. -/
theorem ProgramInv.keepsProgram (h : ProgramInv k) : KeepsProgram k := by
  intro pid en hHolds hType
  obtain ⟨hLt, hSerial⟩ := h.names en.pointer en.via.info.tag (.inl ⟨pid, en, hHolds, hType, rfl, rfl⟩)
  obtain ⟨program, hProgram⟩ : ∃ program, k.cache.made[en.via.info.tag]? = some program :=
    ⟨_, List.getElem?_eq_getElem hLt⟩
  -- a slot the handle still opens keeps that program
  have hKeeps : ∀ image, imageOf k.cache en.pointer = some image → Keeps k.cache image program := by
    intro image hImage
    unfold imageOf at hImage
    split at hImage
    next hUsed =>
      obtain rfl := some.inj hImage
      obtain ⟨program', hKeeps⟩ := h.cache _ hUsed.2
      have hSame := hKeeps.1
      rw [hSerial hUsed.2, hProgram, Option.some.injEq] at hSame
      exact hSame ▸ hKeeps
    · cases hImage
  have hFrame : ∀ offset frame, frameAt k.cache en.pointer offset = some frame →
      k.cache.mem frame = pageOf program (offset / kPageSize) := by
    intro offset frame hFrame
    unfold frameAt at hFrame
    split at hFrame
    · cases hFrame
    next image hImage =>
    split at hFrame
    · cases hFrame
    split at hFrame
    next hPage =>
      obtain rfl := some.inj hFrame
      exact (hKeeps image hImage).2.2.2 _ hPage
    · cases hFrame
  refine ⟨program, hProgram, fun offset bytes out hRead => ?_, hFrame, fun offset shared hShared => ?_⟩
  · unfold readImage at hRead
    split at hRead
    · cases hRead
    next image hImage =>
    split at hRead
    · cases hRead
    next hIn =>
      push Not at hIn
      have hk := hKeeps image hImage
      have hLen : offset + bytes ≤ program.length := by
        have := hk.2.1
        omega
      obtain rfl := some.inj hRead
      exact ⟨hLen, hk.read hLen⟩
  · simp only [shareFrame, Bool.and_eq_true] at hShared
    obtain ⟨frame, hSome⟩ := isSome_iff_exists.mp hShared.1
    exact ⟨frame, hSome, hFrame offset frame hSome⟩

end Steps

/-- **In a lasting run, what goes through a handle on an image is of the program the handle
was given for.** -/
theorem keepsProgram_of_lasting {k₀ k : Machine π} {es : List (Event π)} (hInit : Initial k₀)
    (hRun : Run (Restrict Lasting Step) k₀ es k) : KeepsProgram k := by
  exact (hRun.invariant_of (I := ProgramInv) (fun _ _ _ => programInv_step) hInit.programInv).keepsProgram

/-! ## A slot that gets another program

The process `1` makes an image of the byte `0` and keeps its handle. The process `2` makes
thirty-two more, each of the byte `1`; the last of them gets the slot of the first. -/

def crowdEvents : List (Event Nat) :=
  .imageCreate 1 ['a'] 0 [0] (some fun _ => 1) true ::
    (List.range 32).map fun i => .imageCreate 2 ['a'] (i + 1) [1] (some fun _ => i + 2) true

/-- The first process now reads the other program. -/
theorem not_keepsProgram_crowdEvents :
    ¬ ∀ (k₀ k : Machine Nat) (es : List (Event Nat)), Initial k₀ → Run Step k₀ es k →
      KeepsProgram k := by
  intro hAll
  obtain ⟨k, hRun, hEntry, hRead, hMade⟩ : ∃ k, Run Step (boot 0 2) crowdEvents k ∧
      ((entryOf k.objects.tables 1 1024).map fun e => (e.type, e.pointer, e.via.info.tag)) =
        some (.image, 0, 0) ∧ readImage k.cache 0 0 1 = some [1] ∧ k.cache.made[0]? = some [0] :=
    Run.exists_of_foldlM (fun _ _ _ => step_of_next) (by decide +kernel)
  obtain ⟨e, he, hFields⟩ := map_eq_some_iff.mp hEntry
  simp only [Prod.mk.injEq] at hFields
  obtain ⟨hType, hPointer, hTag⟩ := hFields
  obtain ⟨program, hProgram, hReads, -⟩ :=
    hAll _ _ _ (boot_initial 0 2) hRun 1 e (holds_of_entryOf he) hType
  rw [hTag, hMade, Option.some.injEq] at hProgram
  subst hProgram
  have hOut := (hReads 0 1 [1] (hPointer ▸ hRead)).2
  exact absurd hOut (by decide)

/-- A process makes an image, finds it again, and forks. -/
def familyEvents : List (Event Nat) :=
  [.imageCreate 1 ['a'] 0 [5, 6, 7] (some fun _ => 1) true, .imageFind 1 ['a'] 0 true, .fork 1 true]

theorem familyEvents_run :
    ∃ k, Run (Restrict Lasting Step) (boot 0 1) familyEvents k ∧
      ((entryOf k.objects.tables 2 1025).map fun e => (e.type, e.pointer)) = some (.image, 0) ∧
        readImage k.cache 0 1 2 = some [6, 7] := by
  have hFresh : Lasting (boot 0 1) (.imageCreate 1 ['a'] 0 [5, 6, 7] (some fun _ => 1) true) := by
    refine fun _ => ⟨fun tag hLive => ?_, fun a ha b hb _ => ?_, fun i hi => ?_⟩
    · rcases hLive with ⟨_, _, ⟨i, t, slot, ht, -⟩, -⟩ | ⟨_, ⟨i, j, hi, -⟩, -⟩
      · cases ht
      · cases hi
    · have ha' : a < 1 := ha
      have hb' : b < 1 := hb
      omega
    · cases hi
  have hFind : ∀ k : Machine Nat, Lasting k (.imageFind 1 ['a'] 0 true) := fun _ => trivial
  have hFork : ∀ k : Machine Nat, Lasting k (.fork 1 true) := fun _ => trivial
  have h₀ : Run (Restrict Lasting Step) (boot 0 1) [] (boot 0 1) := .nil _
  have h₁ := h₀.snoc ⟨hFresh, step_of_next rfl⟩
  have h₂ := h₁.snoc ⟨hFind _, step_of_next rfl⟩
  exact ⟨_, h₂.snoc ⟨hFork _, step_of_next rfl⟩, rfl, by decide⟩

/-- The child reads the program through the handle it was left. -/
theorem keepsProgram_familyEvents :
    ∃ (k : Machine Nat) (e : Entry), Holds k.objects.tables 2 e ∧ e.type = .image ∧
      readImage k.cache e.pointer 1 2 = some [6, 7] ∧ KeepsProgram k := by
  obtain ⟨k, hRun, hEntry, hRead⟩ := familyEvents_run
  obtain ⟨e, he, hFields⟩ := map_eq_some_iff.mp hEntry
  obtain ⟨hType, hPointer⟩ := Prod.mk.inj hFields
  exact ⟨k, e, holds_of_entryOf he, hType, hPointer ▸ hRead,
    keepsProgram_of_lasting (boot_initial 0 1) hRun⟩

end LeahOS.Kernel
