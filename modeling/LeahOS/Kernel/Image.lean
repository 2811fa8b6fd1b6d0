import Mathlib.Tactic

/-!
# The cache of program images

`image::create` keeps the pages of a program in one of thirty-two slots, and a handle
on an image is the address of its slot. When no slot is free the one that was asked
for longest ago is emptied and used again.

A pointer into the array is the index of the slot. The frame allocator is outside this
model: `create` is told which frames it got, or that it got none. `mem` is what the
frames hold.

`Image.serial` and `Cache.made` are ghosts. Every image that is made has the next
serial number, and `made` remembers the bytes each was made from.
-/

namespace LeahOS.Kernel

def kMaxImages : Nat := 32
def kNameMax : Nat := 72
def kMaxBytes : Nat := 8 * 1024 * 1024
def kPageSize : Nat := 4096

/-- One slot of the cache. -/
structure Image where
  used : Bool
  name : List Char
  version : Nat
  bytes : Nat
  pages : Nat
  frames : Nat → Nat
  usedAt : Nat
  serial : Nat

/-- A slot of the zeroed array. -/
def Image.zero : Image := ⟨false, [], 0, 0, 0, fun _ => 0, 0, 0⟩

/-- `g_images`, `g_clock`, and the contents of the frames. -/
structure Cache where
  images : Nat → Image
  clock : Nat
  mem : Nat → Nat → UInt8
  made : List (List UInt8)

def Cache.set (c : Cache) (i : Nat) (image : Image) : Cache :=
  { c with images := Function.update c.images i image }

/-- `same_name`: a name too long for the field is nobody's. -/
def sameName (image : Image) (name : List Char) : Bool :=
  image.name == name && decide (name.length < kNameMax)

/-- `find_locked`: the slot, marked as just used. -/
def findImage (c : Cache) (name : List Char) (version : Nat) : Cache × Option Nat :=
  match (List.range kMaxImages).find? fun i =>
      (c.images i).used && (c.images i).version == version && sameName (c.images i) name with
  | none => (c, none)
  | some i =>
    let image := c.images i
    ({ c.set i { image with usedAt := c.clock + 1 } with clock := c.clock + 1 }, some i)

/-- `discard`: the image gives up its pages. -/
def discard (image : Image) : Image :=
  { image with used := false, name := [], bytes := 0, pages := 0, frames := fun _ => 0 }

/-- The slot asked for longest ago; the first of them on a tie. -/
def oldest (c : Cache) : Nat :=
  (List.range' 1 (kMaxImages - 1)).foldl
    (fun best i => if (c.images i).usedAt < (c.images best).usedAt then i else best) 0

/-- `take_slot`: a free slot, or the least recently used one emptied out. -/
def takeSlot (c : Cache) : Cache × Nat :=
  match (List.range kMaxImages).find? fun i => !(c.images i).used with
  | some i => (c, i)
  | none => (c.set (oldest c) (discard (c.images (oldest c))), oldest c)

/-- One page of a program; past its last byte there are zeros. -/
def pageOf (bytes : List UInt8) (page : Nat) : Nat → UInt8 := fun k =>
  bytes.getD (page * kPageSize + k) 0

/-- `fill`: the pages of a program, copied into the frames it got. -/
def fill (mem : Nat → Nat → UInt8) (bytes : List UInt8) (frames : Nat → Nat) :
    Nat → Nat → Nat → UInt8
  | 0 => mem
  | pages + 1 =>
    Function.update (fill mem bytes frames pages) (frames pages) (pageOf bytes pages)

/-- How many pages a program has. -/
def pagesOf (size : Nat) : Nat := (size + kPageSize - 1) / kPageSize

/-- The rest of `create` once it has a slot and frames: the image is filled in. -/
def place (c : Cache) (slot : Nat) (name : List Char) (version : Nat) (bytes : List UInt8)
    (frames : Nat → Nat) : Cache :=
  let pages := pagesOf bytes.length
  let c := c.set slot ⟨true, name.take (kNameMax - 1), version, bytes.length, pages, frames,
    c.clock + 1, c.made.length⟩
  { c with
    clock := c.clock + 1
    mem := fill c.mem bytes frames pages
    made := c.made ++ [bytes] }

/-- `create`. `frames` is what the allocators come up with. What a failed `create` leaves
in a slot that is not in use is not modelled: nothing reads it. -/
def create (c : Cache) (name : List Char) (version : Nat) (bytes : List UInt8)
    (frames : Option (Nat → Nat)) : Cache × Option Nat :=
  if bytes.length = 0 ∨ kMaxBytes < bytes.length then (c, none)
  else
    match findImage c name version with
    | (c, some i) => (c, some i)
    | (c, none) =>
      let r := takeSlot c
      match frames with
      | none => (r.1, none)
      | some frames => (place r.1 r.2 name version bytes frames, some r.2)

/-- `of`: a pointer handed back, checked against the array. -/
def imageOf (c : Cache) (pointer : Nat) : Option Image :=
  if pointer < kMaxImages ∧ (c.images pointer).used = true then some (c.images pointer) else none

/-- `frame_at_locked`. -/
def frameAt (c : Cache) (pointer offset : Nat) : Option Nat :=
  match imageOf c pointer with
  | none => none
  | some image =>
    if offset % kPageSize ≠ 0 then none
    else if offset / kPageSize < image.pages then some (image.frames (offset / kPageSize))
    else none

/-- `share_frame`. `shared` is what `pmm::share` answers. -/
def shareFrame (c : Cache) (pointer offset : Nat) (shared : Bool) : Bool :=
  (frameAt c pointer offset).isSome && shared

/-- The loop of `read`: a page, or what is left of it, at a time. -/
def readLoop (c : Cache) (image : Image) (offset bytes : Nat) :
    Nat → Nat → List UInt8 → List UInt8
  | 0, _, out => out
  | fuel + 1, done, out =>
    if bytes ≤ done then out
    else
      let pos := offset + done
      let page := pos / kPageSize
      let within := pos % kPageSize
      let take := min (kPageSize - within) (bytes - done)
      readLoop c image offset bytes fuel (done + take)
        (out ++ (List.range take).map fun k => c.mem (image.frames page) (within + k))

/-- `read`. Every round copies at least one byte, so `bytes` rounds are enough. -/
def readImage (c : Cache) (pointer offset bytes : Nat) : Option (List UInt8) :=
  match imageOf c pointer with
  | none => none
  | some image =>
    if image.bytes < offset ∨ image.bytes - offset < bytes then none
    else some (readLoop c image offset bytes bytes 0 [])

end LeahOS.Kernel
