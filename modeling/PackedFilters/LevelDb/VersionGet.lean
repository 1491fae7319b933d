import PackedFilters.LevelDb.Version

/-!
# What a lookup in a version finds

`Version::Get` reads few files and stops at the first answer, and still finds the newest
record of the whole version that it may see.  Two facts about the files make that right, and
they are hypotheses here, which the rest of the store keeps: files of a level above 0 do not
overlap, and whatever is read earlier is newer.

The second is not a matter of file numbers only.  A record moves down through the levels when
files are compacted, and no record may come to lie above a newer one of its user key; in
level 0 the same holds of files by their numbers.  Under these the files are sources in the
sense of `Lib.Sources`, and the first answer is the answer of all of them.

* `FileHolds` — a file opens, and its table answers every lookup as its records do, which
  `buildTable_serves` proves of the tables that are built;
* `Version.Holds` — what holds of the files of a version: each has its records in order,
  those of a level above 0 are in order themselves, and what is read first is newer;
* `Version.levelFile_spec` — the one file of a level that is read has what the level has;
* `Version.forEachOverlapping_spec` — the calls of `State::Match`, up to the one that stops;
* `Version.get_newest` — a lookup finds the newest visible record of all files.
-/

namespace PackedFilters.LevelDb

open Cursor Sources

/-! ## A version -/

/-- A file that has these records. -/
structure FileHolds (crc : Crc32c) (snappy : Snappy) (src : Options)
    (env : ℕ → Except Status Bytes) (f : FileMetaData) (records : List Record) : Prop where
  ordered : Ordered src.comparator records
  smallest : records.head?.map (fun r => r.entry.1) = some f.smallest
  largest : records.getLast?.map (fun r => r.entry.1) = some f.largest
  serves : ∃ file t, env f.number = .ok file ∧
    Table.openTable crc snappy (sanitizeOptions src) file f.fileSize = .ok (.ok t) ∧
    t.Serves crc snappy src.comparator records

/-- No record of `back` is newer than one of `front` with the same user key. -/
def Newer (user : Comparator) (front back : List Record) : Prop :=
  ∀ a ∈ front, ∀ b ∈ back, user.compare a.key.userKey b.key.userKey = .eq →
    b.key.sequence ≤ a.key.sequence

/-- What holds of the files of a version. -/
structure Version.Holds (crc : Crc32c) (snappy : Snappy) (src : Options)
    (env : ℕ → Except Status Bytes) (holds : FileMetaData → List Record) (v : Version) : Prop where
  file : ∀ level < kNumLevels, ∀ f ∈ v.files level, FileHolds crc snappy src env f (holds f)
  disjoint : ∀ level, 1 ≤ level → level < kNumLevels →
    (v.files level).Pairwise fun f g => internalCompare src.comparator f.largest g.smallest = .lt
  length_lt : ∀ level < kNumLevels, (v.files level).length < 2147483648
  numbers : ((v.files 0).map FileMetaData.number).Nodup
  newer : ∀ f ∈ v.files 0, ∀ g ∈ v.files 0, g.number < f.number →
    Newer src.comparator (holds f) (holds g)
  newerLevel : ∀ i j, i < j → j < kNumLevels → ∀ f ∈ v.files i, ∀ g ∈ v.files j,
    Newer src.comparator (holds f) (holds g)

/-- The records of all files. -/
def Version.records (holds : FileMetaData → List Record) (v : Version) : List Record :=
  (List.range kNumLevels).flatMap fun level => (v.files level).flatMap holds

/-- What a lookup returns that finds this record: its status, and the value it leaves. -/
def answer (value : Bytes) : Option Record → Status × Bytes
  | none => (.notFound [], value)
  | some r =>
    match r.key.type with
    | .value => (.ok, r.value)
    | .deletion => (.notFound [], value)

section Files

variable {crc : Crc32c} {snappy : Snappy} {src : Options} [src.comparator.Lawful]
  {env : ℕ → Except Status Bytes} {f : FileMetaData} {records : List Record}

/-- The keys of a file are at or behind its smallest one. -/
theorem FileHolds.smallest_le (h : FileHolds crc snappy src env f records) {r : Record}
    (hr : r ∈ records) : (internalCompare src.comparator f.smallest r.entry.1).isLE := by
  obtain ⟨first, hfirst, hsmallest⟩ := Option.map_eq_some_iff.1 h.smallest
  obtain ⟨rest, rfl⟩ := List.head?_eq_some_iff.1 hfirst
  rw [← hsmallest]
  rcases List.mem_cons.1 hr with rfl | hr
  · exact Ordering.isLE_of_eq_eq (internalCompare_self _)
  · exact Ordering.isLE_of_eq_lt
      ((List.pairwise_cons.1 h.ordered.sorted).1 _ (List.mem_map_of_mem hr))

/-- The keys of a file are at or before its largest one. -/
theorem FileHolds.le_largest (h : FileHolds crc snappy src env f records) {r : Record}
    (hr : r ∈ records) : (internalCompare src.comparator r.entry.1 f.largest).isLE := by
  obtain ⟨last, hlast, hlargest⟩ := Option.map_eq_some_iff.1 h.largest
  obtain ⟨front, rfl⟩ := List.getLast?_eq_some_iff.1 hlast
  have hsorted := h.ordered.sorted
  rw [Sorted, List.map_append, List.pairwise_append] at hsorted
  rw [← hlargest]
  rcases List.mem_append.1 hr with hr | hr
  · exact Ordering.isLE_of_eq_lt (hsorted.2.2 _ (List.mem_map_of_mem hr) _ List.mem_cons_self)
  · rw [List.mem_singleton.1 hr]
    exact Ordering.isLE_of_eq_eq (internalCompare_self _)

omit [src.comparator.Lawful] in
theorem FileHolds.exists_largest (h : FileHolds crc snappy src env f records) :
    ∃ r ∈ records, r.entry.1 = f.largest := by
  obtain ⟨last, hlast, hlargest⟩ := Option.map_eq_some_iff.1 h.largest
  exact ⟨last, List.mem_of_getLast? hlast, hlargest⟩

theorem FileHolds.smallest_le_largest (h : FileHolds crc snappy src env f records) :
    (internalCompare src.comparator f.smallest f.largest).isLE := by
  obtain ⟨r, hr, heq⟩ := h.exists_largest
  exact heq ▸ h.smallest_le hr

variable {userKey : Bytes} {sequence : ℕ}

/-- A visible record lies in the range of its file. -/
theorem FileHolds.range_of_visible (h : FileHolds crc snappy src env f records) {r : Record}
    (hr : r ∈ records) (hvisible : r.Visible src.comparator userKey sequence) :
    (src.comparator.compare userKey (extractUserKey f.smallest)).isGE ∧
      (src.comparator.compare userKey (extractUserKey f.largest)).isLE := by
  have hsmallest := userCompare_of_internalCompare (h.smallest_le hr)
  have hlargest := userCompare_of_internalCompare (h.le_largest hr)
  rw [r.userKey_entry] at hsmallest hlargest
  refine ⟨Std.OrientedCmp.isGE_of_isLE ?_, ?_⟩
  · exact Std.TransCmp.isLE_trans hsmallest (Ordering.isLE_of_eq_eq hvisible.1)
  · exact Std.TransCmp.isLE_trans
      (Ordering.isLE_of_eq_eq (Std.OrientedCmp.eq_symm hvisible.1)) hlargest

variable {holds : FileMetaData → List Record} {files : List FileMetaData}

/-- The files of a level are in order. -/
theorem inOrder_of_holds (h : ∀ f ∈ files, FileHolds crc snappy src env f (holds f))
    (hdisjoint : files.Pairwise fun f g =>
      internalCompare src.comparator f.largest g.smallest = .lt) :
    InOrder src.comparator files where
  disjoint := hdisjoint
  smallest_le f hf := (h f hf).smallest_le_largest
  tag_le f hf := by
    obtain ⟨r, hr, heq⟩ := (h f hf).exists_largest
    have hsequence := (h f hf).ordered.sequence_le r hr
    have htype : r.key.type.toNat ≤ 1 := by cases r.key.type <;> decide
    rw [← heq, r.tag_entry hsequence]
    omega

/-- And so are all their records. -/
theorem ordered_flatMap (h : ∀ f ∈ files, FileHolds crc snappy src env f (holds f))
    (hdisjoint : files.Pairwise fun f g =>
      internalCompare src.comparator f.largest g.smallest = .lt) :
    Ordered src.comparator (files.flatMap holds) where
  sorted := by
    rw [Sorted, List.map_flatMap, List.flatMap_def, List.pairwise_flatten]
    constructor
    · intro l hl
      obtain ⟨f, hf, rfl⟩ := List.mem_map.1 hl
      exact (h f hf).ordered.sorted
    · rw [List.pairwise_map]
      refine hdisjoint.imp_of_mem fun hf hg hlt e he e' he' => ?_
      obtain ⟨r, hr, rfl⟩ := List.mem_map.1 he
      obtain ⟨r', hr', rfl⟩ := List.mem_map.1 he'
      exact Std.TransCmp.lt_of_isLE_of_lt ((h _ hf).le_largest hr)
        (Std.TransCmp.lt_of_lt_of_isLE hlt ((h _ hg).smallest_le hr'))
  sequence_le r hr := by
    obtain ⟨f, hf, hr⟩ := List.mem_flatMap.1 hr
    exact (h f hf).ordered.sequence_le r hr

/-- The first record at or behind a key is in the file the binary search ends at. -/
theorem find?_flatMap_holds (h : ∀ f ∈ files, FileHolds crc snappy src env f (holds f))
    (k : Bytes) :
    (files.flatMap holds).find? (fun r => (internalCompare src.comparator r.entry.1 k).isGE)
      = files[lowerBound (internalCompare src.comparator) (byLargest files) k]?.bind fun f =>
          (holds f).find? fun r => (internalCompare src.comparator r.entry.1 k).isGE := by
  induction files with
  | nil => rfl
  | cons f files ih =>
    have hf := h f List.mem_cons_self
    have ih := ih fun g hg => h g (List.mem_cons_of_mem _ hg)
    rw [List.flatMap_cons, List.find?_append, byLargest, List.map_cons, lowerBound,
      List.findIdx_cons]
    cases hcmp : (internalCompare src.comparator f.largest k).isGE with
    | true =>
      obtain ⟨r, hr, heq⟩ := hf.exists_largest
      have hsome : ((holds f).find? fun r =>
          (internalCompare src.comparator r.entry.1 k).isGE).isSome := by
        rw [List.find?_isSome]
        exact ⟨r, hr, by rw [heq, hcmp]⟩
      obtain ⟨r', hr'⟩ := Option.isSome_iff_exists.1 hsome
      rw [hr', Option.some_or]
      exact hr'.symm
    | false =>
      have hnone : (holds f).find? (fun r =>
          (internalCompare src.comparator r.entry.1 k).isGE) = none := by
        rw [List.find?_eq_none]
        intro r hr hge
        have hle := Std.TransCmp.isLE_trans (Std.OrientedCmp.isLE_of_isGE hge) (hf.le_largest hr)
        rw [Std.OrientedCmp.isGE_of_isLE hle] at hcmp
        cases hcmp
      rw [hnone, Option.none_or, ih]
      rfl

end Files

/-! ## The file of a level -/

section Level

variable {crc : Crc32c} {snappy : Snappy} {src : Options} [src.comparator.Lawful]
  {env : ℕ → Except Status Bytes} {holds : FileMetaData → List Record} {v : Version}
  {userKey : Bytes} {sequence : ℕ}

/-- **The file that is read has what its level has,** and a level whose file is not read
has nothing. -/
theorem Version.levelFile_spec (h : v.Holds crc snappy src env holds) {level : ℕ}
    (hpos : 1 ≤ level) (hlevel : level < kNumLevels) (userKey : Bytes)
    (hs : sequence ≤ kMaxSequenceNumber) :
    ∃ o, v.levelFile src.comparator userKey (lookupKey userKey sequence) level = .ok o ∧
      (∀ f, o = some f → f ∈ v.files level) ∧
      newest src.comparator userKey sequence ((v.files level).flatMap holds)
        = o.bind fun f => newest src.comparator userKey sequence (holds f) := by
  have hfiles := h.file level hlevel
  have hdisjoint := h.disjoint level hpos hlevel
  have hsearch := findFile_spec (inOrder_of_holds hfiles hdisjoint).sorted
    (h.length_lt level hlevel) (lookupKey userKey sequence)
  have hnewest := newest_eq userKey (ordered_flatMap hfiles hdisjoint) hs
  rw [find?_flatMap_holds hfiles] at hnewest
  rw [Version.levelFile]
  by_cases hzero : (v.files level).length = 0
  · rw [if_pos hzero, List.eq_nil_of_length_eq_zero hzero]
    exact ⟨none, rfl, nofun, rfl⟩
  · rw [if_neg hzero, hsearch, ok_bind]
    cases hindex : (v.files level)[lowerBound (internalCompare src.comparator)
        (byLargest (v.files level)) (lookupKey userKey sequence)]? with
    | none =>
      rw [hindex] at hnewest
      exact ⟨none, by simp only [internalKeyComparator, hindex], nofun, hnewest⟩
    | some f =>
      have hf := hfiles f (List.mem_of_getElem? hindex)
      rw [hindex, Option.bind_some, ← newest_eq userKey hf.ordered hs] at hnewest
      simp only [internalKeyComparator, hindex]
      split
      · rename_i hbefore
        refine ⟨none, rfl, nofun, hnewest.trans ?_⟩
        rw [newest, Option.bind_none, List.find?_eq_none]
        intro r hr hvisible
        have hrange := (hf.range_of_visible hr (of_decide_eq_true hvisible)).1
        rw [hbefore] at hrange
        cases hrange
      · refine ⟨some f, rfl, fun g hg => ?_, hnewest⟩
        cases hg
        exact List.mem_of_getElem? hindex

end Level

/-! ## The calls of `Match` -/

namespace Version

/-- What the state of `Get` is after this record was found, or none. -/
def GetState.Outcome (user : Comparator) (userKey value : Bytes) (state : GetState) :
    Option Record → Prop
  | none => state.saver = { ucmp := user, userKey, value } ∧ state.found = false
  | some r => ((if state.found then state.s else .notFound []), state.saver.value)
      = answer value (some r)

section Match

variable {crc : Crc32c} {snappy : Snappy} {src : Options} {env : ℕ → Except Status Bytes}
  {holds : FileMetaData → List Record} {userKey value : Bytes} {sequence : ℕ}

/-- `Match` on a file that has these records. -/
theorem matchFile_spec (verifyChecksums : Bool) {f : FileMetaData} {records : List Record}
    (hf : FileHolds crc snappy src env f records) (hs : sequence ≤ kMaxSequenceNumber)
    {state : GetState} (hstate : state.Outcome src.comparator userKey value none) (level : ℕ) :
    ∃ state', state.matchFile crc snappy (sanitizeOptions src) env verifyChecksums
        (lookupKey userKey sequence) level f
          = .ok ((newest src.comparator userKey sequence records).isNone, state') ∧
      state'.Outcome src.comparator userKey value
        (newest src.comparator userKey sequence records) := by
  obtain ⟨hsaver, hfound⟩ := hstate
  obtain ⟨file, t, henv, hopen, hserves⟩ := hf.serves
  have hget := hserves verifyChecksums userKey sequence hs state.saver (by rw [hsaver])
    (by rw [hsaver])
  rw [GetState.matchFile, tableCacheGet, henv]
  simp only
  rw [hopen, ok_bind]
  simp only
  rw [hget, ok_bind, hsaver]
  simp only [ne_eq, not_true_eq_false, if_false]
  cases newest src.comparator userKey sequence records with
  | none => exact ⟨_, rfl, rfl, hfound⟩
  | some r =>
    cases htype : r.key.type with
    | value =>
      simp only [Saver.saved, htype]
      exact ⟨_, rfl, by simp only [GetState.Outcome, answer, htype, if_true]⟩
    | deletion =>
      simp only [Saver.saved, htype]
      refine ⟨_, rfl, ?_⟩
      simp only [GetState.Outcome, answer, htype, hfound, Bool.false_eq_true, if_false]

/-- The calls on files of one level, up to the first that has the key. -/
theorem callFiles_spec (verifyChecksums : Bool) (hs : sequence ≤ kMaxSequenceNumber) (level : ℕ) :
    ∀ (files : List FileMetaData) {state : GetState},
      (∀ f ∈ files, FileHolds crc snappy src env f (holds f)) →
      state.Outcome src.comparator userKey value none →
      ∃ state', callFiles (GetState.matchFile crc snappy (sanitizeOptions src) env verifyChecksums
          (lookupKey userKey sequence)) level files state
            = .ok ((files.findSome? fun f =>
                newest src.comparator userKey sequence (holds f)).isNone, state') ∧
        state'.Outcome src.comparator userKey value (files.findSome? fun f =>
          newest src.comparator userKey sequence (holds f)) := by
  intro files
  induction files with
  | nil => exact fun _ hstate => ⟨_, rfl, hstate⟩
  | cons f files ih =>
    intro state hfiles hstate
    obtain ⟨state', hmatch, hstate'⟩ :=
      matchFile_spec verifyChecksums (hfiles f List.mem_cons_self) hs hstate level
    rw [callFiles, hmatch, ok_bind, List.findSome?_cons]
    cases hnewest : newest src.comparator userKey sequence (holds f) with
    | some r =>
      rw [hnewest] at hstate'
      exact ⟨state', rfl, hstate'⟩
    | none =>
      rw [hnewest] at hstate'
      exact ih (fun g hg => hfiles g (List.mem_cons_of_mem _ hg)) hstate'

variable [src.comparator.Lawful] {v : Version}

/-- The calls on the other levels. -/
theorem callLevels_spec (verifyChecksums : Bool) (h : v.Holds crc snappy src env holds)
    (hs : sequence ≤ kMaxSequenceNumber) :
    ∀ (levels : List ℕ) {state : GetState}, (∀ level ∈ levels, 1 ≤ level ∧ level < kNumLevels) →
      state.Outcome src.comparator userKey value none →
      ∃ state', v.callLevels src.comparator userKey (lookupKey userKey sequence)
          (GetState.matchFile crc snappy (sanitizeOptions src) env verifyChecksums
            (lookupKey userKey sequence)) levels state = .ok state' ∧
        state'.Outcome src.comparator userKey value (levels.findSome? fun level =>
          newest src.comparator userKey sequence ((v.files level).flatMap holds)) := by
  intro levels
  induction levels with
  | nil => exact fun _ hstate => ⟨_, rfl, hstate⟩
  | cons level levels ih =>
    intro state hlevels hstate
    obtain ⟨hpos, hlevel⟩ := hlevels level List.mem_cons_self
    have hlevels' : ∀ l ∈ levels, 1 ≤ l ∧ l < kNumLevels := fun l hl =>
      hlevels l (List.mem_cons_of_mem _ hl)
    obtain ⟨o, hfile, hmem, hnewest⟩ := levelFile_spec h hpos hlevel userKey hs
    rw [callLevels, hfile, ok_bind, List.findSome?_cons, hnewest]
    cases o with
    | none => exact ih hlevels' hstate
    | some f =>
      obtain ⟨state', hmatch, hstate'⟩ := matchFile_spec verifyChecksums
        (h.file level hlevel f (hmem f rfl)) hs hstate level
      simp only [Option.bind_some]
      rw [hmatch, ok_bind]
      cases hcase : newest src.comparator userKey sequence (holds f) with
      | some r =>
        rw [hcase] at hstate'
        exact ⟨state', rfl, hstate'⟩
      | none =>
        rw [hcase] at hstate'
        exact ih hlevels' hstate'

/-- The sources of a lookup: the files of level 0 that are read, and the other levels. -/
def sources (user : Comparator) (holds : FileMetaData → List Record) (v : Version)
    (userKey : Bytes) : List (List Record) :=
  (v.levelZero user userKey).map holds ++
    ((List.range (kNumLevels - 1)).map (· + 1)).map fun level => (v.files level).flatMap holds

theorem mem_levels {level : ℕ} :
    level ∈ (List.range (kNumLevels - 1)).map (· + 1) ↔ 1 ≤ level ∧ level < kNumLevels := by
  rw [List.mem_map]
  constructor
  · rintro ⟨n, hn, rfl⟩
    rw [List.mem_range] at hn
    omega
  · rintro ⟨hpos, hlt⟩
    exact ⟨level - 1, List.mem_range.2 (by omega), by omega⟩

omit [src.comparator.Lawful] in
theorem mem_levelZero {f : FileMetaData} :
    f ∈ v.levelZero src.comparator userKey ↔ f ∈ v.files 0 ∧
      (src.comparator.compare userKey (extractUserKey f.smallest)).isGE ∧
        (src.comparator.compare userKey (extractUserKey f.largest)).isLE := by
  simp [levelZero]

omit [src.comparator.Lawful] in
/-- The files of level 0 are read newest first. -/
theorem levelZero_descends (h : ((v.files 0).map FileMetaData.number).Nodup) (userKey : Bytes) :
    (v.levelZero src.comparator userKey).Pairwise fun f g => g.number < f.number := by
  rw [levelZero]
  set tmp := (v.files 0).filter fun f =>
    (src.comparator.compare userKey (extractUserKey f.smallest)).isGE &&
      (src.comparator.compare userKey (extractUserKey f.largest)).isLE
  have hnodup : (tmp.map FileMetaData.number).Nodup :=
    h.sublist (List.filter_sublist.map FileMetaData.number)
  rw [← ((List.mergeSort_perm tmp fun a b => !newestFirst b a).map _).nodup_iff, List.Nodup,
    List.pairwise_map] at hnodup
  have hsorted : (tmp.mergeSort fun a b => !newestFirst b a).Pairwise fun a b =>
      (!newestFirst b a) = true := by
    apply List.pairwise_mergeSort
    · simp only [newestFirst, Bool.not_eq_true', decide_eq_false_iff_not, not_lt]
      exact fun a b c hab hbc => hbc.trans hab
    · simp only [newestFirst, Bool.or_eq_true, Bool.not_eq_true', decide_eq_false_iff_not, not_lt]
      exact fun a b => Nat.le_total ..
  refine (hsorted.and hnodup).imp fun hle => lt_of_le_of_ne ?_ (Ne.symm hle.2)
  simpa [newestFirst] using hle.1

/-- The search is over once a source has an answer. -/
theorem forEachOverlapping_spec (verifyChecksums : Bool) (h : v.Holds crc snappy src env holds)
    (hs : sequence ≤ kMaxSequenceNumber) {state : GetState}
    (hstate : state.Outcome src.comparator userKey value none) :
    ∃ state', v.forEachOverlapping src.comparator userKey (lookupKey userKey sequence)
        (GetState.matchFile crc snappy (sanitizeOptions src) env verifyChecksums
          (lookupKey userKey sequence)) state = .ok state' ∧
      state'.Outcome src.comparator userKey value ((v.sources src.comparator holds userKey).findSome?
        (newest src.comparator userKey sequence)) := by
  have hzero : ∀ f ∈ v.levelZero src.comparator userKey,
      FileHolds crc snappy src env f (holds f) := fun f hf =>
    h.file 0 (by decide) f (mem_levelZero.1 hf).1
  obtain ⟨state', hcalls, hstate'⟩ := callFiles_spec verifyChecksums hs 0 _ hzero hstate
  rw [forEachOverlapping, hcalls, ok_bind, sources, List.findSome?_append, List.findSome?_map,
    List.findSome?_map]
  cases hcase : (v.levelZero src.comparator userKey).findSome?
      fun f => newest src.comparator userKey sequence (holds f) with
  | some r =>
    rw [hcase] at hstate'
    have hfound : (v.levelZero src.comparator userKey).findSome?
      (newest src.comparator userKey sequence ∘ holds) = some r := hcase
    rw [hfound]
    exact ⟨state', rfl, hstate'⟩
  | none =>
    rw [hcase] at hstate'
    have hnone : (v.levelZero src.comparator userKey).findSome?
      (newest src.comparator userKey sequence ∘ holds) = none := hcase
    rw [hnone, Option.none_or]
    exact callLevels_spec verifyChecksums h hs _ (fun level hlevel => mem_levels.1 hlevel) hstate'

/-- What is read first is newer. -/
theorem newestFirst_sources (h : v.Holds crc snappy src env holds) (userKey : Bytes)
    (sequence : ℕ) :
    NewestFirst (Record.Visible src.comparator userKey sequence) (fun r => r.key.sequence)
      (v.sources src.comparator holds userKey) := by
  have hnewer {front back : List Record} (hnewer : Newer src.comparator front back) :
      ∀ a ∈ front, a.Visible src.comparator userKey sequence → ∀ b ∈ back,
        b.Visible src.comparator userKey sequence → b.key.sequence ≤ a.key.sequence :=
    fun a ha hvisible b hb hvisible' => hnewer a ha b hb
      (Std.TransCmp.eq_trans hvisible.1 (Std.OrientedCmp.eq_symm hvisible'.1))
  rw [NewestFirst, sources, List.pairwise_append, List.pairwise_map, List.pairwise_map]
  refine ⟨?_, ?_, ?_⟩
  · refine (levelZero_descends h.numbers userKey).imp_of_mem fun hf hg hlt => hnewer ?_
    exact h.newer _ (mem_levelZero.1 hf).1 _ (mem_levelZero.1 hg).1 hlt
  · rw [List.pairwise_map]
    refine List.pairwise_lt_range.imp_of_mem fun {i j} hi hj hlt => hnewer fun a ha b hb => ?_
    obtain ⟨f, hf, ha⟩ := List.mem_flatMap.1 ha
    obtain ⟨g, hg, hb⟩ := List.mem_flatMap.1 hb
    rw [List.mem_range] at hj
    exact h.newerLevel (i + 1) (j + 1) (by omega) (by omega) f hf g hg a ha b hb
  · intro front hfront back hback
    obtain ⟨f, hf, rfl⟩ := List.mem_map.1 hfront
    obtain ⟨level, hlevel, rfl⟩ := List.mem_map.1 hback
    obtain ⟨hpos, hlt⟩ := mem_levels.1 hlevel
    refine hnewer fun a ha b hb => ?_
    obtain ⟨g, hg, hb⟩ := List.mem_flatMap.1 hb
    exact h.newerLevel 0 level hpos hlt f (mem_levelZero.1 hf).1 g hg a ha b hb

/-- Whatever is visible is in a source. -/
theorem mem_sources (h : v.Holds crc snappy src env holds) {r : Record}
    (hvisible : r.Visible src.comparator userKey sequence) :
    r ∈ (v.sources src.comparator holds userKey).flatten ↔ r ∈ v.records holds := by
  rw [sources, List.flatten_append, List.mem_append, records, List.mem_flatMap]
  simp only [List.mem_flatten, List.mem_map, exists_exists_and_eq_and]
  constructor
  · rintro (⟨f, hf, hr⟩ | ⟨n, hn, hr⟩)
    · exact ⟨0, by decide, List.mem_flatMap.2 ⟨f, (mem_levelZero.1 hf).1, hr⟩⟩
    · rw [List.mem_range] at hn
      exact ⟨n + 1, List.mem_range.2 (by omega), hr⟩
  · rintro ⟨level, hlevel, hr⟩
    rw [List.mem_range] at hlevel
    cases level with
    | zero =>
      obtain ⟨f, hf, hr⟩ := List.mem_flatMap.1 hr
      exact Or.inl ⟨f, mem_levelZero.2
        ⟨hf, (h.file 0 hlevel f hf).range_of_visible hr hvisible⟩, hr⟩
    | succ n => exact Or.inr ⟨n, List.mem_range.2 (by omega), hr⟩

/-- **`Get` finds the newest visible record** of the whole version, in whatever file of
whatever level it is. -/
theorem get_newest (h : v.Holds crc snappy src env holds) (verifyChecksums : Bool)
    (userKey : Bytes) (hs : sequence ≤ kMaxSequenceNumber) (value : Bytes) :
    ∃ r seekFile,
      Newest (Record.Visible src.comparator userKey sequence) (fun r => r.key.sequence)
        (v.records holds) r ∧
      v.get crc snappy (sanitizeOptions src) env verifyChecksums src.comparator userKey sequence value
        = .ok ((answer value r).1, (answer value r).2, seekFile) := by
  have hordered : ∀ records ∈ v.sources src.comparator holds userKey,
      Ordered src.comparator records := by
    intro records hrecords
    rcases List.mem_append.1 hrecords with hrecords | hrecords
    · obtain ⟨f, hf, rfl⟩ := List.mem_map.1 hrecords
      exact (h.file 0 (by decide) f (mem_levelZero.1 hf).1).ordered
    · obtain ⟨level, hlevel, rfl⟩ := List.mem_map.1 hrecords
      obtain ⟨hpos, hlt⟩ := mem_levels.1 hlevel
      exact ordered_flatMap (h.file level hlt) (h.disjoint level hpos hlt)
  have hnewest := (newest_findSome? (newestFirst_sources h userKey sequence)
    fun records hrecords => newest_spec (hordered records hrecords)).congr
      fun r hvisible => mem_sources h hvisible
  have hstart : GetState.Outcome src.comparator userKey value
      { saver := { ucmp := src.comparator, userKey, value } } none := ⟨rfl, rfl⟩
  obtain ⟨state', hrun, hstate'⟩ := forEachOverlapping_spec verifyChecksums h hs hstart
  refine ⟨_, state'.seekFile, hnewest, ?_⟩
  rw [Version.get, hrun, ok_bind]
  revert hstate'
  cases (v.sources src.comparator holds userKey).findSome?
    (newest src.comparator userKey sequence) with
  | none =>
    rintro ⟨hsaver, hfound⟩
    simp only [hsaver, hfound, answer]
    rfl
  | some r =>
    intro hoc
    have := Prod.ext_iff.1 hoc
    simp only at this
    rw [this.1, this.2]

end Match

end Version

/-! ## A version of two files -/

/-- Tables without a filter. -/
def plainOptions : Options := { comparator := bytewiseComparator, blockRestartInterval := 2 }

instance : plainOptions.comparator.Lawful := instLawfulBytewise

/-- The records of a file of level 0. -/
def newRecords : List Record := [⟨⟨[1], 9, .deletion⟩, []⟩, ⟨⟨[1, 2], 8, .value⟩, [8]⟩]

/-- The records of a file of level 1. -/
def oldRecords : List Record := [⟨⟨[1], 4, .value⟩, [3]⟩, ⟨⟨[2], 2, .value⟩, [6]⟩]

/-- The bytes of a table of these records, as long as there are not too many. -/
def fileOf (records : List Record) : Bytes :=
  match buildTable castagnoli .missing (sanitizeOptions plainOptions)
    (records.map Record.entry) with
  | .ok file => file
  | .error _ => []

/-- The metadata of the file. -/
def metaOf (number : ℕ) (records : List Record) : FileMetaData where
  number
  fileSize := (fileOf records).length
  smallest := ((records.head?.map fun r => r.entry.1)).getD []
  largest := ((records.getLast?.map fun r => r.entry.1)).getD []

/-- A version with a file in each of the first two levels. -/
def twoFiles : Version where
  files
    | 0 => [metaOf 7 newRecords]
    | 1 => [metaOf 3 oldRecords]
    | _ => []

/-- The records of its files. -/
def twoFilesHolds (f : FileMetaData) : List Record := if f.number = 7 then newRecords else oldRecords

/-- Where its files are. -/
def twoFilesEnv (number : ℕ) : Except Status Bytes :=
  if number = 7 then .ok (fileOf newRecords)
  else if number = 3 then .ok (fileOf oldRecords)
  else .error (.ioError [])

theorem fileHolds_fileOf {records : List Record} {number : ℕ}
    (hrecords : Ordered bytewiseComparator records)
    (hends : records.head?.isSome ∧ records.getLast?.isSome)
    (hweight : weight (records.map Record.entry) + 128 < 4294967296)
    (hshort : (fileOf records).length < 4294967296)
    (henv : twoFilesEnv number = .ok (fileOf records)) :
    FileHolds castagnoli .missing plainOptions twoFilesEnv (metaOf number records) records where
  ordered := hrecords
  smallest := by
    obtain ⟨r, hr⟩ := Option.isSome_iff_exists.1 hends.1
    rw [metaOf, hr]
    rfl
  largest := by
    obtain ⟨r, hr⟩ := Option.isSome_iff_exists.1 hends.2
    rw [metaOf, hr]
    rfl
  serves := by
    obtain ⟨file, hbuild, hopen⟩ := buildTable_serves castagnoli .missing plainOptions (by decide)
      hrecords bytewise_view (fun _ h => by cases h) (.of_weight hweight)
    have heq : fileOf records = file := by rw [fileOf, hbuild]
    obtain ⟨t, hopen, hserves⟩ := hopen (by rwa [← heq])
    exact ⟨file, t, by rw [← heq]; exact henv, by rw [metaOf, heq]; exact hopen, hserves⟩

theorem twoFiles_holds :
    twoFiles.Holds castagnoli .missing plainOptions twoFilesEnv twoFilesHolds where
  file
    | 0, _, f, hf => by
      rw [List.mem_singleton.1 hf]
      exact fileHolds_fileOf ⟨by unfold Sorted; decide, by decide⟩ (by decide) (by decide)
        (by decide +kernel) rfl
    | 1, _, f, hf => by
      rw [List.mem_singleton.1 hf]
      exact fileHolds_fileOf ⟨by unfold Sorted; decide, by decide⟩ (by decide) (by decide)
        (by decide +kernel) rfl
    | _ + 2, _, f, hf => by cases hf
  disjoint
    | 0, h, _ => absurd h (by decide)
    | 1, _, _ => List.pairwise_singleton _ _
    | _ + 2, _, _ => List.Pairwise.nil
  length_lt
    | 0, _ => by decide
    | 1, _ => by decide
    | _ + 2, _ => (by decide : (0 : ℕ) < 2147483648)
  numbers := List.nodup_singleton _
  newer f hf g hg hlt := by
    rw [List.mem_singleton.1 hf, List.mem_singleton.1 hg] at hlt
    exact absurd hlt (lt_irrefl _)
  newerLevel
    | 0, 1, _, _, f, hf, g, hg => by
      rw [List.mem_singleton.1 hf, List.mem_singleton.1 hg]
      unfold Newer
      decide
    | 0, _ + 2, _, _, f, hf, g, hg => by cases hg
    | 1, 1, h, _, f, hf, g, hg => absurd h (lt_irrefl _)
    | 1, _ + 2, _, _, f, hf, g, hg => by cases hg
    | _ + 2, _, _, _, f, hf, g, hg => by cases hf

theorem get_newest_two : ∃ r seekFile,
    Newest (Record.Visible bytewiseComparator [1] 20) (fun r => r.key.sequence)
      (twoFiles.records twoFilesHolds) r ∧
    twoFiles.get castagnoli .missing (sanitizeOptions plainOptions) twoFilesEnv true
      bytewiseComparator [1] 20 [5] = .ok ((answer [5] r).1, (answer [5] r).2, seekFile) :=
  Version.get_newest twoFiles_holds true [1] (by decide) [5]

end PackedFilters.LevelDb
