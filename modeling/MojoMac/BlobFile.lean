/-
The files of a filesystem backend (`Cache/lib/BlobCache.cpp`): the contents of a file, and behind
them a hash of 16 bytes.

* `writeContent`, `findSyncImpl` — a value is written to a file, and looked for in one;
* `view_write` — a directory of such files keeps what `Backend` keeps;
* `findSyncImpl_sound_iff` — no byte outside the file is read, and what is returned has its hash
  behind it, exactly when the file is empty or as long as a hash.

The hash is any function.  Opening and mapping a file never fails.
-/
import MojoMac.BlobCache

open List (length_drop take_of_length_le)

namespace BlobCache.FilesystemBackend

abbrev Byte := BitVec 8

/-- The method `drop_back` of a `StringRef`; where there are fewer bytes the difference of the
sizes wraps around, and `substr` ends with the string. -/
def dropBack (s : List Byte) (n : ℕ) : List Byte :=
  if n ≤ s.length then s.take (s.length - n) else s

def takeBack (s : List Byte) (n : ℕ) : List Byte :=
  s.drop (s.length - n)

/-- Whether `memcmp` finds the first `n` bytes equal; `none` if it reads beyond one of the two. -/
def memcmp (a b : List Byte) (n : ℕ) : Option Bool :=
  if a.length < n ∨ b.length < n then none else some (a.take n = b.take n)

/-- The function `Buffer::getFile`. -/
def getFile (file : List Byte) (size offset : Option ℕ) : List Byte :=
  (file.drop (offset.getD 0)).take (size.getD file.length)

variable (hash : List Byte → Vector Byte 16)

/-- What `insertSyncImpl` writes. -/
def writeContent (obj : List Byte) : List Byte :=
  obj ++ (hash obj).toList

def corrupted (path : String) : String :=
  "corrupted file: stored hash and computed hash did not match for file '" ++ path ++ "'"

/-- The answer for a key whose file is at `path`, if there is one; `none` if bytes outside the file
are read. -/
def findSyncImpl (path : String) (file : Option (List Byte)) :
    Option (Except String (Option (List Byte))) := do
  match file with
  | none => return .ok none
  | some file =>
    let contentsAndHash := getFile file none none
    if contentsAndHash.length = 0 then
      return .error s!"file '{path}' exists, but is empty"
    let contents := dropBack contentsAndHash 16
    let computedHash := (hash contents).toList
    let storedHash := takeBack contentsAndHash 16
    if !(← memcmp computedHash storedHash 16) then
      return .error (corrupted path)
    return .ok (some (getFile file (some contents.length) (some 0)))

variable {hash} {path : String} {file : List Byte}

theorem getFile_none (file : List Byte) : getFile file none none = file := by
  simp [getFile]

/-- A file that is shorter than a hash is compared beyond its end. -/
theorem findSyncImpl_short (hne : file ≠ []) (hlt : file.length < 16) :
    findSyncImpl hash path (some file) = none := by
  have hback : (takeBack file 16).length < 16 := by
    rw [takeBack, length_drop]
    omega
  simp [findSyncImpl, getFile_none, hne, memcmp, hback]

/-- A longer one is split into contents and hash. -/
theorem findSyncImpl_long (contents : List Byte) (stored : Vector Byte 16) :
    findSyncImpl hash path (some (contents ++ stored.toList)) =
      some (if hash contents = stored then .ok (some contents) else .error (corrupted path)) := by
  have hdrop : dropBack (contents ++ stored.toList) 16 = contents := by simp [dropBack]
  have htake : takeBack (contents ++ stored.toList) 16 = stored.toList := by simp [takeBack]
  have hcmp : ∀ h : Vector Byte 16, memcmp h.toList stored.toList 16 = some (decide (h = stored)) := by
    intro h
    simp [memcmp, take_of_length_le, Vector.toList_inj]
  simp only [findSyncImpl, getFile_none, hdrop, htake, hcmp]
  by_cases h : hash contents = stored <;> simp [h, getFile]

/-- **Reading a file.**  What is read lies in the file, and what is returned has its hash behind
it, unless the file has between 1 and 15 bytes; a value that was written is found. -/
theorem findSyncImpl_sound_iff (hash : List Byte → Vector Byte 16) (path : String)
    (file : List Byte) :
    ((∃ found, findSyncImpl hash path (some file) = some found ∧
        ∀ value, found = .ok value → ∃ p, value = some p ∧ file = writeContent hash p) ↔
      file = [] ∨ 16 ≤ file.length) ∧
    ∀ obj, findSyncImpl hash path (some (writeContent hash obj)) = some (.ok (some obj)) := by
  refine ⟨⟨?_, ?_⟩, fun obj => ?_⟩
  · rintro ⟨found, hfound, -⟩
    by_contra hnot
    obtain ⟨hne, hlt⟩ := not_or.mp hnot
    rw [findSyncImpl_short hne (by omega)] at hfound
    cases hfound
  · rintro (rfl | hle)
    · exact ⟨_, rfl, fun value hvalue => nomatch hvalue⟩
    -- the last 16 bytes are the stored hash
    have hlast : (file.drop (file.length - 16)).length = 16 := by rw [length_drop]; omega
    have hsplit : file = file.take (file.length - 16)
        ++ (Vector.mk (file.drop (file.length - 16)).toArray (by simpa using hlast)).toList := by
      simp
    rw [hsplit, findSyncImpl_long]
    refine ⟨_, rfl, fun value hvalue => ?_⟩
    split at hvalue
    · rename_i hhash
      exact ⟨_, (Except.ok.inj hvalue).symm, by rw [writeContent, hhash]⟩
    · cases hvalue
  · rw [writeContent, findSyncImpl_long, if_pos rfl]

/-- One byte is left of the file: 15 more are compared. -/
theorem findSyncImpl_truncated :
    findSyncImpl (fun _ => Vector.replicate 16 0) "key" (some [0]) = none := by
  decide

/-- The backend with the files of a directory. -/
def view {K : Type} (hash : List Byte → Vector Byte 16) (path : K → String) (readOnly : Bool)
    (directory : K → Option (List Byte)) : Backend K (List Byte) where
  kind := .filesystem readOnly
  cache k :=
    match findSyncImpl hash (path k) (directory k) with
    | some (.ok value) => value
    | _ => none

/-- A value that is written to a directory is written to the backend. -/
theorem view_write {K : Type} [DecidableEq K] (path : K → String) (readOnly : Bool)
    (directory : K → Option (List Byte)) (k : K) (obj : List Byte) :
    view hash path readOnly (Function.update directory k (some (writeContent hash obj))) =
      (view hash path readOnly directory).write k obj := by
  rw [view, Backend.write, view]
  congr 1
  funext j
  rcases eq_or_ne j k with rfl | hj
  · simp only [Function.update_self, writeContent, findSyncImpl_long, if_pos]
  · simp only [Function.update_of_ne hj]

end BlobCache.FilesystemBackend
