import PackedFilters.LevelDb.DbIter
import PackedFilters.LevelDb.TwoLevelIterator
import PackedFilters.LevelDb.VersionGet

/-!
# The iterators of a version

`Version::AddIterators` of `db/version_set.cc`.  The files of level 0 may overlap, and each
of them gets an iterator of its own.  The files of another level do not, and one two-level
iterator goes through all of them: its index is the list of files, and behind each file it
opens the iterator of a table.

* `LevelFileNumIterator` — the index; `LevelFileNumIterator.walks` says that it is a cursor
  on the largest keys of the files, its seek being the binary search of `FindFile`;
* `TableIterator`, `tableCacheNewIterator` — what `TableCache::NewIterator` opens, which is
  the iterator of a table or, when the file cannot be opened, an empty one with a status;
* `FileScans`, `Version.Scans` — a file, and a version, whose tables open and show their
  records; `buildTable_scans` proves the first of every table that is built;
* `Version.newConcatenatingIterator_fresh` — the iterator of a level shows the records of its
  files behind each other;
* `Version.addIterators_spec` — the iterators of a version show its sorted runs, and
  `Version.flatten_runs` says that no record is missing and none is there twice.
-/

namespace PackedFilters.LevelDb

open Cursor LittleEndian

/-! ## The files of a level -/

/-- `Version::LevelFileNumIterator`: the files of a level and the index of one of them. -/
structure LevelFileNumIterator where
  flist : List FileMetaData
  index : ℕ

/-- What `value` has of a file: its number and its size, eight bytes each. -/
def fileValue (f : FileMetaData) : Bytes := fixed64 f.number ++ fixed64 f.fileSize

namespace LevelFileNumIterator

/-- The constructor; the index marks it as invalid. -/
def new (flist : List FileMetaData) : LevelFileNumIterator := ⟨flist, u32 flist.length⟩

/-- The operations: a seek is a binary search, and a step before the first file leads behind
the last one, which marks the iterator as invalid. -/
def step (icmp : Comparator) (op : Op Bytes) (it : LevelFileNumIterator) :
    Checked LevelFileNumIterator :=
  match op with
  | .seek target => do
    let index ← findFile icmp it.flist target
    .ok { it with index }
  | .seekToFirst => .ok { it with index := 0 }
  | .seekToLast =>
    .ok { it with index := if it.flist = [] then 0 else u32 (it.flist.length - 1) }
  | .next => .ok { it with index := u32 (it.index + 1) }
  | .prev =>
    .ok { it with index := if it.index = 0 then u32 it.flist.length else it.index - 1 }

/-- `LevelFileNumIterator` as an iterator, over the largest keys of the files. -/
def iterator (icmp : Comparator) : DbIterator LevelFileNumIterator where
  valid it := it.index < it.flist.length
  key it := (it.flist[it.index]?.map FileMetaData.largest).getD []
  value it := (it.flist[it.index]?.map fileValue).getD []
  step := step icmp
  status _ := .ok

/-- The index of a level. -/
def entries (files : List FileMetaData) : List (Bytes × Bytes) :=
  files.map fun f => (f.largest, fileValue f)

/-- The iterator is at this position of the index. -/
def At (files : List FileMetaData) (it : LevelFileNumIterator) (i : ℕ) : Prop :=
  it = ⟨files, i⟩ ∧ i ≤ files.length

/-- **The index of a level is a cursor** on the largest keys of its files. -/
theorem walks {icmp : Comparator} [icmp.Lawful] {files : List FileMetaData}
    (hsorted : Sorted icmp.compare (byLargest files)) (hlen : files.length < 2147483648) :
    (iterator icmp).Walks icmp.compare (entries files) (At files) where
  status _ := rfl
  refines :=
    { valid_iff := by
        rintro _ i ⟨rfl, -⟩
        rw [entries, List.length_map]
        exact decide_eq_true_iff
      shows := by
        rintro _ i ⟨rfl, -⟩ hi
        have hi' : i < files.length := by rwa [entries, List.length_map] at hi
        show ((files[i]?.map FileMetaData.largest).getD [], (files[i]?.map fileValue).getD []) = _
        simp only [List.getElem?_eq_getElem hi', entries, List.getElem_map, Option.map_some,
          Option.getD_some]
      step := by
        rintro _ i op ⟨rfl, hi⟩ hallowed
        have hcount : (entries files).length = files.length := List.length_map _
        cases op with
        | seek target =>
          have hbound : lowerBound icmp.compare (byLargest files) target
              = lowerBound icmp.compare (entries files) target := by
            rw [lowerBound, lowerBound, byLargest, entries, List.findIdx_map, List.findIdx_map]
            rfl
          refine ⟨⟨files, _⟩, ?_, rfl, (lowerBound_le ..).trans_eq hcount⟩
          show (do
            let index ← findFile icmp files target
            .ok (⟨files, index⟩ : LevelFileNumIterator)) = _
          rw [findFile_spec hsorted hlen, ok_bind, hbound]
          rfl
        | seekToFirst => exact ⟨⟨files, 0⟩, rfl, rfl, Nat.zero_le _⟩
        | seekToLast =>
          refine ⟨⟨files, files.length - 1⟩, ?_, by rw [move, hcount], ?_⟩
          · show Except.ok (⟨files, if files = [] then 0 else u32 (files.length - 1)⟩ :
              LevelFileNumIterator) = _
            split
            · rename_i hempty
              rw [hempty]
              rfl
            · rw [u32_of_lt (by omega)]
          · rw [move, hcount]
            exact Nat.sub_le ..
        | next =>
          have hi' : i < files.length := hcount ▸ hallowed
          refine ⟨⟨files, i + 1⟩, ?_, rfl, hi'⟩
          show Except.ok (⟨files, u32 (i + 1)⟩ : LevelFileNumIterator) = _
          rw [u32_of_lt (by omega)]
        | prev =>
          refine ⟨⟨files, if i = 0 then files.length else i - 1⟩, ?_, by rw [move, hcount], ?_⟩
          · show Except.ok (⟨files, if i = 0 then u32 files.length else i - 1⟩ :
              LevelFileNumIterator) = _
            rw [u32_of_lt (by omega)]
          · rw [move, hcount]
            split <;> omega }

/-- A new one is behind the last file. -/
theorem fresh {icmp : Comparator} [icmp.Lawful] {files : List FileMetaData}
    (hsorted : Sorted icmp.compare (byLargest files)) (hlen : files.length < 2147483648) :
    DbIterator.Fresh (fun _ => iterator icmp) icmp.compare (entries files) (new files) := by
  refine ⟨At files, ⟨?_, ?_⟩, 0, fun _ _ => walks hsorted hlen⟩
  · rw [new, u32_of_lt (by omega), entries, List.length_map]
  · rw [entries, List.length_map]

end LevelFileNumIterator

/-! ## The records of a file -/

/-- What `TableCache::NewIterator` returns: the iterator of a table, or an `EmptyIterator`
with a status. -/
inductive TableIterator where
  | table (t : Table) (it : TwoLevelIterator BlockIterator BlockIterator)
  | error (status : Status)

namespace TableIterator

variable (crc : Crc32c) (snappy : Snappy) (verifyChecksums : Bool) (rounds : ℕ)

/-- The operations; an `EmptyIterator` ignores the seeks, and its steps are not called. -/
def step (op : Op Bytes) : TableIterator → Checked TableIterator
  | table t it => ((t.iterator crc snappy verifyChecksums rounds).step op it).map (table t)
  | error status => .ok (error status)

def valid : TableIterator → Bool
  | table t it => (t.iterator crc snappy verifyChecksums rounds).valid it
  | error _ => false

def key : TableIterator → Bytes
  | table t it => (t.iterator crc snappy verifyChecksums rounds).key it
  | error _ => []

def value : TableIterator → Bytes
  | table t it => (t.iterator crc snappy verifyChecksums rounds).value it
  | error _ => []

def status : TableIterator → Status
  | table t it => (t.iterator crc snappy verifyChecksums rounds).status it
  | error status => status

/-- What `TableCache::NewIterator` returns, as an iterator. -/
def iterator : DbIterator TableIterator where
  valid := valid crc snappy verifyChecksums rounds
  key := key crc snappy verifyChecksums rounds
  value := value crc snappy verifyChecksums rounds
  step := step crc snappy verifyChecksums rounds
  status := status crc snappy verifyChecksums rounds

theorem embeds_table (t : Table) : (t.iterator crc snappy verifyChecksums rounds).Embeds
    (iterator crc snappy verifyChecksums rounds) (table t) :=
  ⟨fun _ => rfl, fun _ => rfl, fun _ => rfl, fun _ => rfl, fun _ _ => rfl⟩

end TableIterator

/-- `TableCache::NewIterator`: `env` opens a file by its number, and a file that cannot be
opened leaves an empty iterator with the status of the attempt. -/
def tableCacheNewIterator (crc : Crc32c) (snappy : Snappy) (options : Options)
    (env : ℕ → Except Status Bytes) (fileNumber fileSize : ℕ) : Checked TableIterator :=
  match env fileNumber with
  | .error s => .ok (.error s)
  | .ok file => do
    match ← Table.openTable crc snappy options file fileSize with
    | .error s => .ok (.error s)
    | .ok t =>
      let it ← t.newIterator
      .ok (.table t it)

/-- `GetFileIterator`: the iterator of the file that a value of the index names. -/
def getFileIterator (crc : Crc32c) (snappy : Snappy) (options : Options)
    (env : ℕ → Except Status Bytes) (value : Bytes) : Checked TableIterator :=
  if value.length ≠ 16 then
    .ok (.error (.corruption (literal "FileReader invoked with unexpected value")))
  else do
    let number ← decodeFixed64 value 0
    let size ← decodeFixed64 value 8
    tableCacheNewIterator crc snappy options env number size

/-- A table whose iterators show these records. -/
def Table.Scans (crc : Crc32c) (snappy : Snappy) (user : Comparator) (records : List Record)
    (t : Table) : Prop :=
  ∀ verifyChecksums, ∃ it, t.newIterator = .ok it ∧
    DbIterator.Fresh (t.iterator crc snappy verifyChecksums) (internalCompare user)
      (records.map Record.entry) it

/-- A file whose table opens and shows these records. -/
structure FileScans (crc : Crc32c) (snappy : Snappy) (src : Options)
    (env : ℕ → Except Status Bytes) (f : FileMetaData) (records : List Record) : Prop where
  number_lt : f.number < 18446744073709551616
  fileSize_lt : f.fileSize < 18446744073709551616
  scans : ∃ file t, env f.number = .ok file ∧
    Table.openTable crc snappy (sanitizeOptions src) file f.fileSize = .ok (.ok t) ∧
    t.Scans crc snappy src.comparator records

/-- **A table that is built shows its records** to every iterator. -/
theorem buildTable_scans (crc : Crc32c) (snappy : Snappy) (src : Options)
    [src.comparator.Lawful] {view : Bytes → Bytes} {records : List Record}
    (hinterval : 1 ≤ src.blockRestartInterval) (hrecords : Ordered src.comparator records)
    (hfits : FilterFits src view records.length)
    (hfit : TableFits (sanitizeOptions src) (records.map Record.entry)) :
    ∃ file, buildTable crc snappy (sanitizeOptions src) (records.map Record.entry) = .ok file ∧
      (file.length < 4294967296 →
        ∃ t, Table.openTable crc snappy (sanitizeOptions src) file file.length = .ok (.ok t) ∧
          t.Scans crc snappy src.comparator records) := by
  have hfits' := filterFits_sanitizeOptions hfits
  obtain ⟨file, hbuild, hlayout⟩ := buildTable_layout crc snappy (sanitizeOptions src)
    (by rwa [List.length_map]) hrecords.sorted hfit
  refine ⟨file, hbuild, fun hfile => ?_⟩
  obtain ⟨blocks, footer, h⟩ := hlayout hfile
  obtain ⟨t, hopen, ht, -⟩ := open_layout h hinterval hfile hfit hrecords.sorted
    (by rwa [List.length_map])
  exact ⟨t, hopen, fun verifyChecksums =>
    table_fresh h hinterval hfile hfit hrecords.sorted ht verifyChecksums⟩

section File

variable {crc : Crc32c} {snappy : Snappy} {src : Options} {env : ℕ → Except Status Bytes}
  {f : FileMetaData} {records : List Record}

/-- The iterator of a file. -/
theorem FileScans.newIterator (h : FileScans crc snappy src env f records)
    (verifyChecksums : Bool) :
    ∃ it, tableCacheNewIterator crc snappy (sanitizeOptions src) env f.number f.fileSize = .ok it ∧
      DbIterator.Fresh (TableIterator.iterator crc snappy verifyChecksums)
        (internalCompare src.comparator) (records.map Record.entry) it := by
  obtain ⟨file, t, henv, hopen, hscans⟩ := h.scans
  obtain ⟨it, hnew, hfresh⟩ := hscans verifyChecksums
  refine ⟨.table t it, ?_, hfresh.embed fun rounds =>
    TableIterator.embeds_table crc snappy verifyChecksums rounds t⟩
  rw [tableCacheNewIterator, henv]
  simp only
  rw [hopen, ok_bind]
  simp only
  rw [hnew, ok_bind]

/-- The value of a file in the index of its level opens its iterator. -/
theorem FileScans.getFileIterator_eq (h : FileScans crc snappy src env f records) :
    getFileIterator crc snappy (sanitizeOptions src) env (fileValue f)
      = tableCacheNewIterator crc snappy (sanitizeOptions src) env f.number f.fileSize := by
  have hnumber : decodeFixed64 (fileValue f) 0 = .ok f.number :=
    decodeFixed64_append [] (fixed64 f.fileSize) h.number_lt
  have hsize : decodeFixed64 (fileValue f) 8 = .ok f.fileSize := by
    have hdecode := decodeFixed64_append (fixed64 f.number) [] h.fileSize_lt
    rwa [List.append_nil] at hdecode
  have hlen : (fileValue f).length = 16 := rfl
  rw [getFileIterator, if_neg (not_not.2 hlen), hnumber, ok_bind, hsize, ok_bind]

/-- Files of one value have one number. -/
theorem FileScans.number_eq (h : FileScans crc snappy src env f records) {g : FileMetaData}
    {records' : List Record} (h' : FileScans crc snappy src env g records')
    (heq : fileValue f = fileValue g) : f.number = g.number := by
  have hf := decodeFixed64_append [] (fixed64 f.fileSize) h.number_lt
  have hg := decodeFixed64_append [] (fixed64 g.fileSize) h'.number_lt
  have hvalue : ([] : Bytes) ++ (fixed64 f.number ++ fixed64 f.fileSize)
      = [] ++ (fixed64 g.number ++ fixed64 g.fileSize) := heq
  rw [hvalue, hg] at hf
  exact (Except.ok.inj hf).symm

end File

/-! ## The iterators of a version -/

/-- What `NewConcatenatingIterator` returns: an index of files, and behind each of them the
iterator of its table. -/
abbrev LevelIterator := TwoLevelIterator LevelFileNumIterator TableIterator

/-- The operations of the iterator of a level: a two-level iterator over the files, each opened
by `GetFileIterator`. -/
def levelIterator (crc : Crc32c) (snappy : Snappy) (options : Options)
    (env : ℕ → Except Status Bytes) (verifyChecksums : Bool) (rounds : ℕ) :
    DbIterator LevelIterator :=
  TwoLevelIterator.iterator (LevelFileNumIterator.iterator options.comparator)
    (TableIterator.iterator crc snappy verifyChecksums rounds)
    (getFileIterator crc snappy options env) rounds

/-- An iterator of a version: of a file of level 0, or of another level. -/
abbrev VersionIterator := TableIterator ⊕ LevelIterator

/-- The operations of an iterator of a version, of either kind. -/
def versionIterator (crc : Crc32c) (snappy : Snappy) (options : Options)
    (env : ℕ → Except Status Bytes) (verifyChecksums : Bool) (rounds : ℕ) :
    DbIterator VersionIterator :=
  (TableIterator.iterator crc snappy verifyChecksums rounds).sum
    (levelIterator crc snappy options env verifyChecksums rounds)

namespace Version

/-- `Version::NewConcatenatingIterator`; no file is opened before a seek. -/
def newConcatenatingIterator (v : Version) (level : ℕ) : LevelIterator where
  indexIter := .new (v.files level)

/-- The levels above 0 that have files. -/
def filledLevels (v : Version) : List ℕ :=
  ((List.range (kNumLevels - 1)).map (· + 1)).filter fun level => v.files level ≠ []

/-- `Version::AddIterators`: what it puts on the list, an iterator for every file of level 0
and one for every other level that has files. -/
def addIterators (crc : Crc32c) (snappy : Snappy) (options : Options)
    (env : ℕ → Except Status Bytes) (v : Version) : Checked (List VersionIterator) := do
  let files ← (v.files 0).mapM fun f =>
    tableCacheNewIterator crc snappy options env f.number f.fileSize
  .ok (files.map .inl ++ v.filledLevels.map fun level => .inr (v.newConcatenatingIterator level))

/-- What holds of a version that is read by iterators: what holds of one that is looked up
in, its tables show their records, and no two files of a level have one number. -/
structure Scans (crc : Crc32c) (snappy : Snappy) (src : Options)
    (env : ℕ → Except Status Bytes) (holds : FileMetaData → List Record) (v : Version) : Prop where
  held : v.Holds crc snappy src env holds
  file : ∀ level < kNumLevels, ∀ f ∈ v.files level, FileScans crc snappy src env f (holds f)
  numbers : ∀ level < kNumLevels, ((v.files level).map FileMetaData.number).Nodup

/-- The sorted runs of a version: the records of each file of level 0, and those of each
other level that has files. -/
def runs (holds : FileMetaData → List Record) (v : Version) : List (List Record) :=
  (v.files 0).map holds ++ v.filledLevels.map fun level => (v.files level).flatMap holds

end Version

/-- A file as a part of its level. -/
def FileMetaData.part (holds : FileMetaData → List Record) (f : FileMetaData) :
    Part Bytes Bytes Bytes where
  key := f.largest
  handle := fileValue f
  entries := (holds f).map Record.entry

section Levels

variable {crc : Crc32c} {snappy : Snappy} {src : Options} [src.comparator.Lawful]
  {env : ℕ → Except Status Bytes} {holds : FileMetaData → List Record} {v : Version}
  {files : List FileMetaData} {level : ℕ}

/-- The largest keys of files in order are an index of their records. -/
theorem indexed_files (h : ∀ f ∈ files, FileHolds crc snappy src env f (holds f))
    (hdisjoint : files.Pairwise fun f g =>
      internalCompare src.comparator f.largest g.smallest = .lt) :
    Indexed (internalCompare src.comparator) (files.map (FileMetaData.part holds)) where
  le p hp e he := by
    obtain ⟨f, hf, rfl⟩ := List.mem_map.1 hp
    obtain ⟨r, hr, rfl⟩ := List.mem_map.1 he
    exact (h f hf).le_largest hr
  later := by
    rw [List.pairwise_map]
    refine hdisjoint.imp_of_mem fun _ hg hlt e he => ?_
    obtain ⟨r, hr, rfl⟩ := List.mem_map.1 he
    exact Std.TransCmp.isLE_trans (Ordering.isLE_of_eq_lt hlt) ((h _ hg).smallest_le hr)

namespace Version

omit [src.comparator.Lawful] in
theorem mem_filledLevels : level ∈ v.filledLevels ↔
    (1 ≤ level ∧ level < kNumLevels) ∧ v.files level ≠ [] := by
  rw [filledLevels, List.mem_filter, mem_levels, decide_eq_true_iff]

/-- **The iterator of a level** is a new one on the records of its files, behind each
other. -/
theorem newConcatenatingIterator_fresh (h : v.Scans crc snappy src env holds) (hpos : 1 ≤ level)
    (hlevel : level < kNumLevels) (verifyChecksums : Bool) :
    DbIterator.Fresh (levelIterator crc snappy (sanitizeOptions src) env verifyChecksums)
      (internalCompare src.comparator) (((v.files level).flatMap holds).map Record.entry)
      (v.newConcatenatingIterator level) := by
  have hfiles := h.held.file level hlevel
  have hdisjoint := h.held.disjoint level hpos hlevel
  have hjoined : joined ((v.files level).map (FileMetaData.part holds))
      = ((v.files level).flatMap holds).map Record.entry := by
    rw [joined, List.flatMap_map, List.map_flatMap]
    rfl
  have hindexOf : indexOf ((v.files level).map (FileMetaData.part holds))
      = LevelFileNumIterator.entries (v.files level) := by
    rw [indexOf, List.map_map]
    rfl
  rw [← hjoined]
  refine TwoLevel.fresh (indexed_files hfiles hdisjoint) ?_ (fun p hp => ?_) fun p hp p' hp' heq => ?_
  · rw [hindexOf]
    exact LevelFileNumIterator.fresh (inOrder_of_holds hfiles hdisjoint).sorted
      (h.held.length_lt level hlevel)
  · obtain ⟨f, hf, rfl⟩ := List.mem_map.1 hp
    have hscans := h.file level hlevel f hf
    obtain ⟨it, hnew, hfresh⟩ := hscans.newIterator verifyChecksums
    exact ⟨it, hscans.getFileIterator_eq.trans hnew, hfresh⟩
  · obtain ⟨f, hf, rfl⟩ := List.mem_map.1 hp
    obtain ⟨g, hg, rfl⟩ := List.mem_map.1 hp'
    have hnumber := (h.file level hlevel f hf).number_eq (h.file level hlevel g hg) heq
    rw [List.inj_on_of_nodup_map (h.numbers level hlevel) hf hg hnumber]

omit [src.comparator.Lawful] in
/-- A loop that succeeds for every file. -/
theorem exists_mapM {α β : Type} {f : α → Checked β} {R : α → β → Prop} {l : List α}
    (h : ∀ a ∈ l, ∃ b, f a = .ok b ∧ R a b) : ∃ bs, l.mapM f = .ok bs ∧ List.Forall₂ R l bs := by
  induction l with
  | nil => exact ⟨[], rfl, .nil⟩
  | cons a l ih =>
    obtain ⟨b, hb, hab⟩ := h a List.mem_cons_self
    obtain ⟨bs, hbs, hall⟩ := ih fun a' ha' => h a' (List.mem_cons_of_mem _ ha')
    refine ⟨b :: bs, ?_, .cons hab hall⟩
    rw [List.mapM_cons, hb, ok_bind, hbs, ok_bind]
    rfl

/-- **The iterators of a version** are new ones on its sorted runs. -/
theorem addIterators_spec (h : v.Scans crc snappy src env holds) (verifyChecksums : Bool) :
    ∃ children, v.addIterators crc snappy (sanitizeOptions src) env = .ok children ∧
      List.Forall₂ (fun records => DbIterator.Fresh
          (versionIterator crc snappy (sanitizeOptions src) env verifyChecksums)
          (internalCompare src.comparator) (records.map Record.entry))
        (v.runs holds) children := by
  obtain ⟨files, hfiles, hfresh⟩ := exists_mapM fun f hf =>
    (h.file 0 (by decide) f hf).newIterator verifyChecksums
  rw [addIterators, hfiles, ok_bind]
  refine ⟨_, rfl, List.rel_append ?_ ?_⟩
  · rw [List.forall₂_map_left_iff, List.forall₂_map_right_iff]
    exact hfresh.imp fun f it hit => hit.embed fun _ => DbIterator.embeds_inl _ _
  · rw [List.forall₂_map_left_iff, List.forall₂_map_right_iff, List.forall₂_same]
    intro level hlevel
    obtain ⟨⟨hpos, hlt⟩, -⟩ := mem_filledLevels.1 hlevel
    exact (newConcatenatingIterator_fresh h hpos hlt verifyChecksums).embed fun _ =>
      DbIterator.embeds_inr _ _

/-- Each run is in order. -/
theorem ordered_of_mem_runs (h : v.Holds crc snappy src env holds) {records : List Record}
    (hrecords : records ∈ v.runs holds) : Ordered src.comparator records := by
  rcases List.mem_append.1 hrecords with hrecords | hrecords
  · obtain ⟨f, hf, rfl⟩ := List.mem_map.1 hrecords
    exact (h.file 0 (by decide) f hf).ordered
  · obtain ⟨level, hlevel, rfl⟩ := List.mem_map.1 hrecords
    obtain ⟨⟨hpos, hlt⟩, -⟩ := mem_filledLevels.1 hlevel
    exact ordered_flatMap (h.file level hlt) (h.disjoint level hpos hlt)

omit [src.comparator.Lawful] in
/-- **No record is left out:** the runs behind each other are the records of the version. -/
theorem flatten_runs (holds : FileMetaData → List Record) (v : Version) :
    (v.runs holds).flatten = v.records holds := by
  have hfilter (levels : List ℕ) :
      ((levels.filter fun level => v.files level ≠ []).map fun level =>
          (v.files level).flatMap holds).flatten
        = levels.flatMap fun level => (v.files level).flatMap holds := by
    induction levels with
    | nil => rfl
    | cons level levels ih =>
      rw [List.filter_cons, List.flatMap_cons]
      split
      · rw [List.map_cons, List.flatten_cons, ih]
      · rename_i hempty
        rw [decide_eq_true_iff, not_not] at hempty
        rw [ih, hempty]
        rfl
  rw [runs, List.flatten_append, filledLevels, hfilter, records, ← List.flatMap_def]
  rfl

end Version

end Levels

end PackedFilters.LevelDb
