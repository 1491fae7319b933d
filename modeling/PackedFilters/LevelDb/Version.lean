import PackedFilters.LevelDb.Lookup

/-!
# Lookups in a version

`Version::Get` of `db/version_set.cc`: the files of level 0 newest first, then at most one
file of every other level, until one of them has the key.

The files of level 0 may overlap, and each of them that may have the user key is read.  Those
of another level do not, so a binary search by their largest keys finds the only one that can
have it.  The search counts in 32-bit words, whose sum must not wrap; below 2^31 files it
does not.  The first file that was read without an answer is remembered, since too many reads
of that kind make a file worth compacting.

* `FileMetaData`, `Version` — a file and its key range, and the files of every level;
* `findFile`, `someFileOverlapsRange` — the binary search among the files of a level, and a
  question that it answers: whether a range of user keys meets a file;
* `forEachOverlapping`, `Version.get` — the lookup;
* `findFile_spec` — the search ends where a linear one does;
* `InOrder` — the files of a level above 0: each ends before the next one begins;
* `someFileOverlapsRange_eq` — on such files the search and the scan of all of them agree,
  for ranges that are open or closed on either side.
-/

namespace PackedFilters.LevelDb

open Cursor

/-! ## Files -/

/-- `FileMetaData`, with its keys encoded. -/
structure FileMetaData where
  number : ℕ
  fileSize : ℕ
  smallest : Bytes
  largest : Bytes
  deriving DecidableEq

/-- The loop of `FindFile`. -/
def findFileLoop (icmp : Comparator) (files : List FileMetaData) (key : Bytes) :
    ℕ → ℕ → ℕ → Checked ℕ
  | 0, _, _ => .error .loopUnfinished
  | rounds + 1, left, right =>
    if left < right then
      let mid := u32 (left + right) / 2
      match files[mid]? with
      | none => .error (.readOutside mid)
      | some f =>
        if icmp.compare f.largest key = .lt then findFileLoop icmp files key rounds (mid + 1) right
        else findFileLoop icmp files key rounds left mid
    else .ok right

/-- `FindFile`: the first file whose largest key is not below the key, or the number of
files. -/
def findFile (icmp : Comparator) (files : List FileMetaData) (key : Bytes) : Checked ℕ :=
  findFileLoop icmp files key (files.length + 1) 0 (u32 files.length)

/-- `AfterFile`; `none` for a null pointer. -/
def afterFile (ucmp : Comparator) (userKey : Option Bytes) (f : FileMetaData) : Bool :=
  match userKey with
  | none => false
  | some userKey => ucmp.compare userKey (extractUserKey f.largest) = .gt

/-- `BeforeFile`; `none` for a null pointer. -/
def beforeFile (ucmp : Comparator) (userKey : Option Bytes) (f : FileMetaData) : Bool :=
  match userKey with
  | none => false
  | some userKey => ucmp.compare userKey (extractUserKey f.smallest) = .lt

/-- `SomeFileOverlapsRange`: whether a file has a user key between the two; files that may
overlap are all looked at, others are searched for the first that ends behind the smaller
one. -/
def someFileOverlapsRange (ucmp : Comparator) (disjointSortedFiles : Bool)
    (files : List FileMetaData) (smallestUserKey largestUserKey : Option Bytes) : Checked Bool :=
  if !disjointSortedFiles then
    .ok (files.any fun f => !(afterFile ucmp smallestUserKey f || beforeFile ucmp largestUserKey f))
  else do
    let index ←
      match smallestUserKey with
      | none => .ok 0
      | some userKey =>
        findFile (internalKeyComparator ucmp) files (lookupKey userKey kMaxSequenceNumber)
    match files[index]? with
    | none => .ok false
    | some f => .ok (!beforeFile ucmp largestUserKey f)

/-! ## The lookup -/

/-- `config::kNumLevels`: the number of levels, level 0 among them. -/
def kNumLevels : ℕ := 7

/-- `Version`: the files of every level. -/
structure Version where
  files : ℕ → List FileMetaData

/-- `NewestFirst`: files that were written later have larger numbers. -/
def newestFirst (a b : FileMetaData) : Bool := b.number < a.number

/-- The calls of `func` on files of one level: whether to go on, and the state. -/
def callFiles {σ : Type} (func : σ → ℕ → FileMetaData → Checked (Bool × σ)) (level : ℕ) :
    List FileMetaData → σ → Checked (Bool × σ)
  | [], s => .ok (true, s)
  | f :: files, s => do
    let (more, s) ← func s level f
    if more then callFiles func level files s else .ok (false, s)

namespace Version

/-- The files of level 0 that may have `userKey`, newest first. -/
def levelZero (ucmp : Comparator) (v : Version) (userKey : Bytes) : List FileMetaData :=
  let tmp := (v.files 0).filter fun f =>
    (ucmp.compare userKey (extractUserKey f.smallest)).isGE &&
      (ucmp.compare userKey (extractUserKey f.largest)).isLE
  tmp.mergeSort fun a b => !newestFirst b a

/-- The file of another level that may have `userKey`, if there is one. -/
def levelFile (ucmp : Comparator) (v : Version) (userKey internalKey : Bytes) (level : ℕ) :
    Checked (Option FileMetaData) := do
  let numFiles := (v.files level).length
  if numFiles = 0 then .ok none
  else
    let index ← findFile (internalKeyComparator ucmp) (v.files level) internalKey
    match (v.files level)[index]? with
    | none => .ok none
    | some f =>
      if ucmp.compare userKey (extractUserKey f.smallest) = .lt then .ok none else .ok (some f)

/-- The calls of `func` on the other levels. -/
def callLevels {σ : Type} (ucmp : Comparator) (v : Version) (userKey internalKey : Bytes)
    (func : σ → ℕ → FileMetaData → Checked (Bool × σ)) : List ℕ → σ → Checked σ
  | [], s => .ok s
  | level :: levels, s => do
    match ← v.levelFile ucmp userKey internalKey level with
    | none => callLevels ucmp v userKey internalKey func levels s
    | some f =>
      let (more, s) ← func s level f
      if more then callLevels ucmp v userKey internalKey func levels s else .ok s

/-- `ForEachOverlapping`: the function is called for the files that may have the user key,
newest first, until it says to stop. -/
def forEachOverlapping {σ : Type} (ucmp : Comparator) (v : Version) (userKey internalKey : Bytes)
    (func : σ → ℕ → FileMetaData → Checked (Bool × σ)) (s : σ) : Checked σ := do
  let (more, s) ← callFiles func 0 (v.levelZero ucmp userKey) s
  if more then
    callLevels ucmp v userKey internalKey func ((List.range (kNumLevels - 1)).map (· + 1)) s
  else .ok s

end Version

/-- `TableCache::Get`: `env` opens a file by its number. -/
def tableCacheGet (crc : Crc32c) (snappy : Snappy) (options : Options)
    (env : ℕ → Except Status Bytes) (verifyChecksums : Bool) (fileNumber fileSize : ℕ) (k : Bytes)
    (saver : Saver) : Checked (Status × Saver) :=
  match env fileNumber with
  | .error s => .ok (s, saver)
  | .ok file => do
    match ← Table.openTable crc snappy options file fileSize with
    | .error s => .ok (s, saver)
    | .ok t => t.get crc snappy verifyChecksums k saver

namespace Version

/-- `State` of `Get`, with its `GetStats`. -/
structure GetState where
  saver : Saver
  seekFile : Option (FileMetaData × ℕ) := none
  lastFileRead : Option (FileMetaData × ℕ) := none
  s : Status := .ok
  found : Bool := false

/-- `State::Match`: the file is looked up in; the lookup goes on if it has nothing for the user
key. -/
def GetState.matchFile (crc : Crc32c) (snappy : Snappy) (options : Options)
    (env : ℕ → Except Status Bytes) (verifyChecksums : Bool) (ikey : Bytes) (state : GetState)
    (level : ℕ) (f : FileMetaData) : Checked (Bool × GetState) := do
  let seekFile := if state.seekFile.isNone then state.lastFileRead else state.seekFile
  let (s, saver) ←
    tableCacheGet crc snappy options env verifyChecksums f.number f.fileSize ikey state.saver
  let state := { state with seekFile, lastFileRead := some (f, level), s, saver }
  if s ≠ .ok then .ok (false, { state with found := true })
  else
    match saver.state with
    | .notFound => .ok (true, state)
    | .found => .ok (false, { state with found := true })
    | .deleted => .ok (false, state)
    | .corrupt =>
      let msg := literal "corrupted key for "
      let msg := if saver.userKey = [] then msg else msg ++ literal ": " ++ saver.userKey
      .ok (false, { state with s := .corruption msg, found := true })

/-- `Get`: the status, the value and `stats->seek_file` with its level. -/
def get (crc : Crc32c) (snappy : Snappy) (options : Options) (env : ℕ → Except Status Bytes)
    (verifyChecksums : Bool) (ucmp : Comparator) (v : Version) (userKey : Bytes) (sequence : ℕ)
    (value : Bytes) : Checked (Status × Bytes × Option (FileMetaData × ℕ)) := do
  let ikey := lookupKey userKey sequence
  let state ← v.forEachOverlapping ucmp userKey ikey
    (GetState.matchFile crc snappy options env verifyChecksums ikey)
    { saver := { ucmp, userKey, value } }
  .ok (if state.found then state.s else .notFound [], state.saver.value, state.seekFile)

end Version

/-! ## The binary search -/

section FindFile

variable {icmp : Comparator} [icmp.Lawful] {files : List FileMetaData} {key : Bytes}

/-- The files as a sorted list of largest keys. -/
def byLargest (files : List FileMetaData) : List (Bytes × FileMetaData) :=
  files.map fun f => (f.largest, f)

theorem findFileLoop_spec (hsorted : Sorted icmp.compare (byLargest files))
    (hlen : files.length < 2147483648) (rounds : ℕ) :
    ∀ {left right : ℕ}, right - left < rounds → right ≤ files.length →
      left ≤ lowerBound icmp.compare (byLargest files) key →
      lowerBound icmp.compare (byLargest files) key ≤ right →
      findFileLoop icmp files key rounds left right
        = .ok (lowerBound icmp.compare (byLargest files) key) := by
  induction rounds with
  | zero => exact fun h => absurd h (Nat.not_lt_zero _)
  | succ rounds ih =>
    intro left right hrounds hright hle hge
    rw [findFileLoop]
    by_cases hlt : left < right
    · have hmid : (left + right) / 2 < files.length := by omega
      have hmid' : (left + right) / 2 < (byLargest files).length := by
        rwa [byLargest, List.length_map]
      have hentry : (byLargest files)[(left + right) / 2].1
          = files[(left + right) / 2].largest := by
        simp only [byLargest, List.getElem_map]
      rw [if_pos hlt, u32_of_lt (by omega)]
      simp only [List.getElem?_eq_getElem hmid]
      split
      · rename_i hbefore
        rw [← hentry] at hbefore
        have := hsorted.lt_lowerBound hmid' hbefore
        exact ih (by omega) hright (by omega) hge
      · rename_i hbehind
        refine ih (by omega) (by omega) hle (not_lt.1 fun hbefore => hbehind ?_)
        rw [← hentry]
        exact lt_of_lt_lowerBound hbefore
    · rw [if_neg hlt]
      exact congrArg Except.ok (by omega)

/-- **`FindFile`** is the search for the first file that does not end before the key. -/
theorem findFile_spec (hsorted : Sorted icmp.compare (byLargest files))
    (hlen : files.length < 2147483648) (key : Bytes) :
    findFile icmp files key = .ok (lowerBound icmp.compare (byLargest files) key) := by
  have hle := lowerBound_le icmp.compare (byLargest files) key
  rw [byLargest, List.length_map] at hle
  rw [findFile, u32_of_lt (by omega)]
  exact findFileLoop_spec hsorted hlen _ (by omega) le_rfl (Nat.zero_le _) hle

end FindFile

/-! ## Files in order -/

/-- The files of a level above 0: each ends before the next one begins. -/
structure InOrder (user : Comparator) (files : List FileMetaData) : Prop where
  disjoint : files.Pairwise fun f g => internalCompare user f.largest g.smallest = .lt
  smallest_le : ∀ f ∈ files, (internalCompare user f.smallest f.largest).isLE
  tag_le : ∀ f ∈ files, extractTag f.largest ≤ 256 * kMaxSequenceNumber + 1

namespace InOrder

variable {user : Comparator} [user.Lawful] {files : List FileMetaData}

theorem sorted (h : InOrder user files) :
    Sorted (internalKeyComparator user).compare (byLargest files) := by
  rw [Sorted, byLargest, List.pairwise_map]
  refine h.disjoint.imp_of_mem fun _ hg hlt => ?_
  exact Std.TransCmp.lt_of_lt_of_isLE hlt (h.smallest_le _ hg)

/-- The smallest keys ascend. -/
theorem smallest_le_smallest (h : InOrder user files) {i j : ℕ} (hij : i ≤ j)
    (hj : j < files.length) :
    (user.compare (extractUserKey files[i].smallest) (extractUserKey files[j].smallest)).isLE := by
  apply userCompare_of_internalCompare
  rcases hij.lt_or_eq with hij | rfl
  · have hlt := List.pairwise_iff_getElem.1 h.disjoint i j (hij.trans hj) hj hij
    have hle := h.smallest_le _ (List.getElem_mem (hij.trans hj))
    exact Std.TransCmp.isLE_trans hle (Ordering.isLE_of_eq_lt hlt)
  · exact Ordering.isLE_of_eq_eq (internalCompare_self _)

omit [user.Lawful] in
/-- A file ends before the earliest key of a user key exactly if it ends before the user
key. -/
theorem lt_lookupKey_iff (h : InOrder user files) {f : FileMetaData} (hf : f ∈ files)
    (userKey : Bytes) :
    internalCompare user f.largest (lookupKey userKey kMaxSequenceNumber) = .lt ↔
      user.compare (extractUserKey f.largest) userKey = .lt := by
  have htag : compare (256 * kMaxSequenceNumber + 1) (extractTag f.largest) ≠ .lt := by
    rw [Ne, Std.compare_eq_lt, not_lt]
    exact h.tag_le f hf
  rw [internalCompare, userKey_lookupKey, tag_lookupKey le_rfl]
  cases user.compare (extractUserKey f.largest) userKey
  · simp [Ordering.then]
  · simpa [Ordering.then] using htag
  · simp [Ordering.then]

end InOrder

section Overlap

variable {user : Comparator} [user.Lawful] {files : List FileMetaData}

/-- The search for an overlap, from the first file on that is not before the range. -/
theorem any_overlaps_eq (h : InOrder user files) (smallest largest : Option Bytes) {index : ℕ}
    (hafter : ∀ (j : ℕ) (hj : j < files.length), afterFile user smallest files[j] = true ↔ j < index) :
    (files.any fun f => !(afterFile user smallest f || beforeFile user largest f))
      = match files[index]? with
        | none => false
        | some f => !beforeFile user largest f := by
  rw [Bool.eq_iff_iff, List.any_eq_true]
  constructor
  · rintro ⟨f, hf, hoverlap⟩
    obtain ⟨j, hj, rfl⟩ := List.mem_iff_getElem.1 hf
    simp only [Bool.not_eq_true', Bool.or_eq_false_iff] at hoverlap
    have hle : index ≤ j := not_lt.1 fun hlt => by
      rw [(hafter j hj).2 hlt] at hoverlap
      cases hoverlap.1
    rw [List.getElem?_eq_getElem (hle.trans_lt hj)]
    simp only [Bool.not_eq_true']
    cases largest with
    | none => rfl
    | some largest =>
      have hnot := hoverlap.2
      simp only [beforeFile, decide_eq_false_iff_not] at hnot ⊢
      intro hlt
      exact hnot (Std.TransCmp.lt_of_lt_of_isLE hlt (h.smallest_le_smallest hle hj))
  · intro hbefore
    cases hindex : files[index]? with
    | none =>
      rw [hindex] at hbefore
      cases hbefore
    | some f =>
      obtain ⟨hlt, rfl⟩ := List.getElem?_eq_some_iff.1 hindex
      rw [hindex] at hbefore
      refine ⟨_, List.getElem_mem hlt, ?_⟩
      have hnot : afterFile user smallest files[index] = false :=
        Bool.eq_false_iff.2 (mt (hafter index hlt).1 (lt_irrefl _))
      rw [hnot, Bool.false_or]
      exact hbefore

/-- **On files in order the binary search finds an overlap exactly if the scan of all of
them does.** -/
theorem someFileOverlapsRange_eq (h : InOrder user files) (hlen : files.length < 2147483648)
    (smallest largest : Option Bytes) :
    someFileOverlapsRange user true files smallest largest
      = someFileOverlapsRange user false files smallest largest := by
  have hsearch {index : ℕ} (hafter : ∀ (j : ℕ) (hj : j < files.length),
      afterFile user smallest files[j] = true ↔ j < index) :
      (match files[index]? with
        | none => (.ok false : Checked Bool)
        | some f => .ok (!beforeFile user largest f))
      = .ok (files.any fun f => !(afterFile user smallest f || beforeFile user largest f)) := by
    rw [any_overlaps_eq h smallest largest hafter]
    cases files[index]? <;> rfl
  rw [someFileOverlapsRange, someFileOverlapsRange, if_neg (by simp), if_pos (by simp)]
  cases smallest with
  | none =>
    simp only [ok_bind]
    exact hsearch fun j _ => by simp [afterFile]
  | some userKey =>
    simp only
    rw [findFile_spec h.sorted hlen, ok_bind]
    refine hsearch fun j hj => ?_
    have hj' : j < (byLargest files).length := by rwa [byLargest, List.length_map]
    have hentry : (byLargest files)[j].1 = files[j].largest := by
      simp only [byLargest, List.getElem_map]
    have hiff := h.lt_lookupKey_iff (List.getElem_mem hj) userKey
    rw [← hentry] at hiff
    rw [afterFile, decide_eq_true_eq, Std.OrientedCmp.gt_iff_lt, ← hentry, ← hiff]
    exact ⟨fun hlt => h.sorted.lt_lowerBound hj' hlt, fun hlt => lt_of_lt_lowerBound hlt⟩

end Overlap

theorem someFileOverlapsRange_eq_two :
    someFileOverlapsRange bytewiseComparator true
        [⟨1, 100, lookupKey [1] 9, lookupKey [3] 4⟩, ⟨2, 100, lookupKey [5] 7, lookupKey [5] 2⟩]
        (some [2]) (some [4])
      = someFileOverlapsRange bytewiseComparator false
        [⟨1, 100, lookupKey [1] 9, lookupKey [3] 4⟩, ⟨2, 100, lookupKey [5] 7, lookupKey [5] 2⟩]
        (some [2]) (some [4]) :=
  someFileOverlapsRange_eq ⟨by decide, by decide, by decide⟩ (by decide) _ _

end PackedFilters.LevelDb
