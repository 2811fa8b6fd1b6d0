import LeahOS.Vfsd.Requests

/-!
# Where a path leads (`lookup_deep`)

A lookup should search for components in directories alone. The loop looks at no mode before it
searches, so below a file that is no directory the bytes of the file are read as entries.

`lookupDirs` is the lookup that stops at what is no directory, and `searched` lists the inodes
`lookup_deep` searches. The two fall out exactly for the paths `lookupDirs` stops at.
-/

namespace LeahOS.Vfsd
open Lib

/-- What a lookup that stops at what is no directory comes to. -/
inductive Outcome
  | found (ino : Nat) (i : Inode)
  | missing
  | notDir

namespace Vol

/-- The loop as it should be: it searches directories alone. -/
def walkDirs (v : Vol) (follow : Bool) (again : Name → Outcome) :
    Nat → Name → Name → Nat → Inode → Outcome
  | 0, _, _, _, _ => .missing
  | n + 1, done, path, ino, out =>
    let done := done ++ path.takeWhile (· == slash)
    let path := path.dropWhile (· == slash)
    if path = [] then .found ino out
    else if modeKind out.mode ≠ modeDir then .notDir
    else
      let part := (path.takeWhile (· != slash)).take 63
      let rest := (path.drop part.length).dropWhile (· == slash)
      let found := v.dirSearch out part
      if found = 0 then .missing
      else
        let out := v.inode found
        if modeKind out.mode = modeLink ∧ (rest ≠ [] ∨ follow = true) then
          match v.readLink out 512 with
          | none => .missing
          | some target => again (relink done target rest)
        else v.walkDirs follow again n (done ++ part) (path.drop part.length) found out

/-- The inodes the loop of `lookup_deep` passes to `dir_search`. -/
def walkSearched (v : Vol) (follow : Bool) (again : Name → List Inode) :
    Nat → Name → Name → Inode → List Inode
  | 0, _, _, _ => []
  | n + 1, done, path, out =>
    let done := done ++ path.takeWhile (· == slash)
    let path := path.dropWhile (· == slash)
    if path = [] then []
    else
      let part := (path.takeWhile (· != slash)).take 63
      let rest := (path.drop part.length).dropWhile (· == slash)
      let found := v.dirSearch out part
      out :: if found = 0 then []
        else
          let out := v.inode found
          if modeKind out.mode = modeLink ∧ (rest ≠ [] ∨ follow = true) then
            match v.readLink out 512 with
            | none => []
            | some target => again (relink done target rest)
          else v.walkSearched follow again n (done ++ part) (path.drop part.length) out

/-- The loop that stops does so where the other one searches what is no directory. -/
theorem walkDirs_eq_notDir (v : Vol) (follow : Bool) {again : Name → Outcome}
    {searched : Name → List Inode}
    (hAgain : ∀ path, again path = .notDir ↔ ∃ i ∈ searched path, modeKind i.mode ≠ modeDir)
    (n : Nat) (done path : Name) (ino : Nat) (out : Inode) :
    v.walkDirs follow again n done path ino out = .notDir ↔
      ∃ i ∈ v.walkSearched follow searched n done path out, modeKind i.mode ≠ modeDir := by
  induction n generalizing done path ino out with
  | zero => simp [walkDirs, walkSearched]
  | succ n ih =>
    rw [walkDirs, walkSearched]
    simp only
    by_cases hEmpty : path.dropWhile (· == slash) = []
    · simp [hEmpty]
    rw [if_neg hEmpty, if_neg hEmpty]
    -- the two loops part at the first inode that is no directory
    by_cases hKind : modeKind out.mode = modeDir
    · rw [if_neg (not_not.mpr hKind), List.exists_mem_cons_iff, or_iff_right (not_not.mpr hKind)]
      split_ifs with hFound hLink
      · simp
      · split
        · simp
        · exact hAgain _
      · exact ih ..
    · simp [hKind]

end Vol

namespace Vfs

/-- A lookup that searches directories alone. -/
def lookupDirs (s : Vfs) (follow : Bool) : Nat → Name → Outcome
  | 0, _ => .missing
  | n + 1, path =>
    let r := s.routeTo path
    (s.vol r.1).walkDirs follow (s.lookupDirs follow n) (r.2.length + 1) [] r.2 rootInode
      ((s.vol r.1).inode rootInode)

/-- The inodes a lookup searches. -/
def searched (s : Vfs) (follow : Bool) : Nat → Name → List Inode
  | 0, _ => []
  | n + 1, path =>
    let r := s.routeTo path
    (s.vol r.1).walkSearched follow (s.searched follow n) (r.2.length + 1) [] r.2
      ((s.vol r.1).inode rootInode)

theorem lookupDirs_eq_notDir (s : Vfs) (follow : Bool) (n : Nat) (path : Name) :
    s.lookupDirs follow n path = .notDir ↔
      ∃ i ∈ s.searched follow n path, modeKind i.mode ≠ modeDir := by
  induction n generalizing path with
  | zero => simp [lookupDirs, searched]
  | succ n ih => exact Vol.walkDirs_eq_notDir _ follow ih _ _ _ _ _

/-- The lookup searches directories alone, and a path that goes on below something else leads to
nothing. -/
structure OnlyDirs (s : Vfs) (follow : Bool) (n : Nat) (path : Name) : Prop where
  searched : ∀ i ∈ s.searched follow n path, modeKind i.mode = modeDir
  nothing : s.lookupDirs follow n path = .notDir → (s.lookupDeep follow n path).2 = none

/-- A file `/f` into which its owner wrote the twelve bytes of an entry `x` for the root. -/
def forgedVfs : Vfs :=
  (((smallVfs 6).handle (byRoot (.create [slash, 102]))).1.handle
    (byRoot (.write [slash, 102] 0 [2, 0, 0, 0, 12, 0, 1, 2, 120, 0, 0, 0]))).1

end Vfs
end LeahOS.Vfsd
