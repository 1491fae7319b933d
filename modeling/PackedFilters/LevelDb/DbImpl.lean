import PackedFilters.LevelDb.VersionIterator

/-!
# A scan of the database

`DBImpl::NewIterator` of `db/db_impl.cc` puts the iterators of the store on top of each
other: `NewInternalIterator` merges those of the memtables with those of the current
version, and `NewDBIterator` leaves of the records what a reader at a sequence number is to
see.  Each of these layers is a cursor in a module of its own; here they are joined.

* `newInternalIterator`, `newIterator` — what the two functions return.  The iterators of
  the memtables are a parameter, of which is asked what `MemTable::NewIterator` promises:
  they are new ones on records in order;
* `exists_ordered` — records whose internal keys differ have one order;
* `internalIterator_fresh` — the merged iterator is a new one on all records in that order;
* `newIterator_run` — **a scan shows the snapshot**: in the order of the user keys it has
  the newest visible value of every user key whose newest visible record is no deletion.
  This is what `Version::Get` finds for the same keys, one by one.
-/

namespace PackedFilters.LevelDb.DbImpl

open Cursor Sources

/-! ## The iterators -/

/-- What `NewInternalIterator` returns: an iterator over those of memtables, of the type
`μ`, and those of a version. -/
abbrev InternalIterator (μ : Type) := MergedIterator (μ ⊕ VersionIterator)

section Iterators

variable {μ : Type} (crc : Crc32c) (snappy : Snappy) (options : Options)
  (env : ℕ → Except Status Bytes)

/-- `NewInternalIterator`: the memtables come first, and then what `AddIterators` of the
current version puts behind them. -/
def newInternalIterator (memtables : List μ) (v : Version) : Checked (InternalIterator μ) := do
  let list ← v.addIterators crc snappy options env
  .ok (newMergingIterator (memtables.map .inl ++ list.map .inr))

/-- `NewIterator`: an iterator of the database over the internal one. -/
def newIterator (memtables : List μ) (v : Version) : Checked (DbIter (InternalIterator μ)) := do
  let iter ← newInternalIterator crc snappy options env memtables v
  .ok { iter }

/-- The operations of the internal iterator. -/
def internalIterator (memtable : DbIterator μ) (verifyChecksums : Bool) (rounds : ℕ) :
    DbIterator (InternalIterator μ) :=
  MergedIterator.iterator
    (memtable.sum (versionIterator crc snappy options env verifyChecksums rounds))
    options.comparator

/-- The operations of the iterator of the database, at a sequence number. -/
def iterator (memtable : DbIterator μ) (ucmp : Comparator) (sequence : ℕ) (verifyChecksums : Bool)
    (rounds : ℕ) : DbIterator (DbIter (InternalIterator μ)) :=
  DbIter.iterator (internalIterator crc snappy options env memtable verifyChecksums rounds) ucmp
    sequence rounds

end Iterators

/-! ## The order of the records -/

/-- Records whose internal keys differ can be put in order. -/
theorem exists_ordered {user : Comparator} [user.Lawful] {all : List Record}
    (hapart : all.Pairwise fun r r' => internalCompare user r.entry.1 r'.entry.1 ≠ .eq)
    (hsequence : ∀ r ∈ all, r.key.sequence ≤ kMaxSequenceNumber) :
    ∃ records, records.Perm all ∧ Ordered user records := by
  set le : Record → Record → Bool := fun r r' => (internalCompare user r.entry.1 r'.entry.1).isLE
    with hle
  have hperm : (all.mergeSort le).Perm all := List.mergeSort_perm all le
  have htrans (a b c : Record) (hab : le a b) (hbc : le b c) : le a c := by
    rw [hle] at hab hbc ⊢
    exact Std.TransCmp.isLE_trans hab hbc
  have htotal (a b : Record) : le a b || le b a := by
    have hgt : internalCompare user b.entry.1 a.entry.1
        = (internalCompare user a.entry.1 b.entry.1).swap := Std.OrientedCmp.eq_swap
    simp only [le, hgt]
    cases internalCompare user a.entry.1 b.entry.1 <;> rfl
  have hsorted : (all.mergeSort le).Pairwise fun r r' => le r r' = true :=
    List.pairwise_mergeSort htrans htotal all
  have hne := hperm.symm.pairwise hapart fun hne heq => hne (Std.OrientedCmp.eq_symm heq)
  refine ⟨all.mergeSort le, hperm, ?_, fun r hr => hsequence r (hperm.mem_iff.1 hr)⟩
  rw [Sorted, List.pairwise_map]
  refine (hsorted.and hne).imp fun {r r'} h => ?_
  revert h
  simp only [le]
  cases internalCompare user r.entry.1 r'.entry.1 <;> simp

/-! ## What a scan shows -/

section Scan

variable {μ : Type} {crc : Crc32c} {snappy : Snappy} {src : Options} [src.comparator.Lawful]
  {env : ℕ → Except Status Bytes} {holds : FileMetaData → List Record} {v : Version}
  {memtable : DbIterator μ} {memtables : List μ} {memRecords : List (List Record)}
  {records : List Record} {sequence : ℕ}

/-- The memtables' records and the runs of the version are what the records in order are
merged from. -/
theorem merges_runs (h : v.Scans crc snappy src env holds)
    (hmem : ∀ l ∈ memRecords, Ordered src.comparator l)
    (hperm : records.Perm (memRecords.flatten ++ v.records holds))
    (hordered : Ordered src.comparator records) :
    Merges (internalCompare src.comparator)
      ((memRecords ++ v.runs holds).map fun l => l.map Record.entry) (records.map Record.entry) where
  sorted := hordered.sorted
  perm := by
    rw [← List.map_flatten, List.flatten_append, Version.flatten_runs]
    exact hperm.map _
  each l hl := by
    obtain ⟨run, hrun, rfl⟩ := List.mem_map.1 hl
    rcases List.mem_append.1 hrun with hrun | hrun
    · exact (hmem run hrun).sorted
    · exact (Version.ordered_of_mem_runs h.held hrun).sorted

/-- **The internal iterator** is a new one on all records in order. -/
theorem internalIterator_fresh (h : v.Scans crc snappy src env holds)
    (hmem : ∀ l ∈ memRecords, Ordered src.comparator l)
    (hfresh : List.Forall₂ (fun l => DbIterator.Fresh (fun _ => memtable)
      (internalCompare src.comparator) (l.map Record.entry)) memRecords memtables)
    (hperm : records.Perm (memRecords.flatten ++ v.records holds))
    (hordered : Ordered src.comparator records) (verifyChecksums : Bool) :
    ∃ it, newInternalIterator crc snappy (sanitizeOptions src) env memtables v = .ok it ∧
      DbIterator.Fresh
        (internalIterator crc snappy (sanitizeOptions src) env memtable verifyChecksums)
        (internalCompare src.comparator) (records.map Record.entry) it := by
  obtain ⟨children, hadd, hchildren⟩ := Version.addIterators_spec h verifyChecksums
  rw [newInternalIterator, hadd, ok_bind]
  refine ⟨_, rfl, MergedIterator.fresh (merges_runs h hmem hperm hordered) ?_⟩
  rw [List.forall₂_map_left_iff]
  refine List.rel_append ?_ ?_
  · rw [List.forall₂_map_right_iff]
    exact hfresh.imp fun l c hc => hc.embed fun _ => DbIterator.embeds_inl _ _
  · rw [List.forall₂_map_right_iff]
    exact hchildren.imp fun l c hc => hc.embed fun _ => DbIterator.embeds_inr _ _

/-- **A scan shows the snapshot.**  The iterator that `NewIterator` returns is a cursor on a
list in the order of the user keys, in which a user key has a value exactly if that is what
its newest visible record, of all memtables and all files, has: after every run of seeks and
steps from valid positions it reports no error and shows what the list has there. -/
theorem newIterator_run (h : v.Scans crc snappy src env holds)
    (hsequence : sequence ≤ kMaxSequenceNumber) (hmem : ∀ l ∈ memRecords, Ordered src.comparator l)
    (hfresh : List.Forall₂ (fun l => DbIterator.Fresh (fun _ => memtable)
      (internalCompare src.comparator) (l.map Record.entry)) memRecords memtables)
    (hapart : (memRecords.flatten ++ v.records holds).Pairwise fun r r' =>
      internalCompare src.comparator r.entry.1 r'.entry.1 ≠ .eq) (verifyChecksums : Bool) :
    ∃ shown it, Sorted src.comparator.compare shown ∧
      (∀ key value, (key, value) ∈ shown ↔
        ∃ r, Newest (Record.Visible src.comparator key sequence) (fun r => r.key.sequence)
            (memRecords.flatten ++ v.records holds) (some r) ∧
          r.key.type = .value ∧ r.key.userKey = key ∧ r.value = value) ∧
      newIterator crc snappy (sanitizeOptions src) env memtables v = .ok it ∧
      ∃ n, ∀ rounds, n ≤ rounds → ∀ ops : List (Op Bytes),
        AllAllowed src.comparator.compare shown ops shown.length →
        ∃ it', run (iterator crc snappy (sanitizeOptions src) env memtable src.comparator sequence
            verifyChecksums rounds).toIterator ops it = .ok it' ∧
          (iterator crc snappy (sanitizeOptions src) env memtable src.comparator sequence
            verifyChecksums rounds).status it' = .ok ∧
          (iterator crc snappy (sanitizeOptions src) env memtable src.comparator sequence
            verifyChecksums rounds).entry it'
              = shown[moves src.comparator.compare shown ops shown.length]? := by
  have hsequences : ∀ r ∈ memRecords.flatten ++ v.records holds,
      r.key.sequence ≤ kMaxSequenceNumber := by
    intro r hr
    rw [← Version.flatten_runs, ← List.flatten_append] at hr
    obtain ⟨l, hl, hr⟩ := List.mem_flatten.1 hr
    rcases List.mem_append.1 hl with hl | hl
    · exact (hmem l hl).sequence_le r hr
    · exact (Version.ordered_of_mem_runs h.held hl).sequence_le r hr
  obtain ⟨records, hperm, hordered⟩ := exists_ordered hapart hsequences
  obtain ⟨it, hnew, hinternal⟩ :=
    internalIterator_fresh h hmem hfresh hperm hordered verifyChecksums
  have hshown := DbIter.fresh hordered hsequence hinternal
  refine ⟨snapshot src.comparator sequence records, { iter := it }, snapshot_sorted hordered,
    fun key value => ?_, by rw [newIterator, hnew, ok_bind], hshown.run⟩
  -- which records there are does not depend on their order
  have hmem_iff (items items' : List Record) (hperm : items.Perm items') (r : Record)
      (hnewest : Newest (Record.Visible src.comparator key sequence) (fun r => r.key.sequence)
        items (some r)) :
      Newest (Record.Visible src.comparator key sequence) (fun r => r.key.sequence) items'
        (some r) :=
    hnewest.congr fun _ _ => hperm.mem_iff
  rw [mem_snapshot_iff hordered]
  constructor
  · rintro ⟨r, hnewest, hrest⟩
    exact ⟨r, hmem_iff _ _ hperm r hnewest, hrest⟩
  · rintro ⟨r, hnewest, hrest⟩
    exact ⟨r, hmem_iff _ _ hperm.symm r hnewest, hrest⟩

end Scan

/-! ## A scan of two files and a memtable -/

theorem fileScans_fileOf {records : List Record} {number : ℕ}
    (hrecords : Ordered bytewiseComparator records)
    (hweight : weight (records.map Record.entry) + 128 < 4294967296)
    (hshort : (fileOf records).length < 4294967296)
    (hnumber : number < 18446744073709551616)
    (henv : twoFilesEnv number = .ok (fileOf records)) :
    FileScans castagnoli .missing plainOptions twoFilesEnv (metaOf number records) records where
  number_lt := hnumber
  fileSize_lt := hshort.trans (by norm_num)
  scans := by
    have hfits : FilterFits plainOptions id records.length := fun _ h => by cases h
    obtain ⟨file, hbuild, hopen⟩ := buildTable_scans castagnoli .missing plainOptions (by decide)
      hrecords hfits (.of_weight hweight)
    have heq : fileOf records = file := by rw [fileOf, hbuild]
    obtain ⟨t, hopen, hscans⟩ := hopen (by rwa [← heq])
    exact ⟨file, t, by rw [← heq]; exact henv, by rw [metaOf, heq]; exact hopen, hscans⟩

theorem twoFiles_scans :
    twoFiles.Scans castagnoli .missing plainOptions twoFilesEnv twoFilesHolds where
  held := twoFiles_holds
  file
    | 0, _, f, hf => by
      rw [List.mem_singleton.1 hf]
      exact fileScans_fileOf ⟨by unfold Sorted; decide, by decide⟩ (by decide) (by decide +kernel)
        (by decide) rfl
    | 1, _, f, hf => by
      rw [List.mem_singleton.1 hf]
      exact fileScans_fileOf ⟨by unfold Sorted; decide, by decide⟩ (by decide) (by decide +kernel)
        (by decide) rfl
    | _ + 2, _, f, hf => by cases hf
  numbers
    | 0, _ => List.nodup_singleton _
    | 1, _ => List.nodup_singleton _
    | _ + 2, _ => List.nodup_nil

/-- A record that is still in the memtable: it deletes what a file of level 1 has. -/
def memRecord : Record := ⟨⟨[2], 11, .deletion⟩, []⟩

/-- The iterator of the memtable. -/
def memIterator : DbIterator ℕ := .ofList (internalCompare bytewiseComparator) [memRecord.entry]

theorem newIterator_run_two :
    ∃ shown it, Sorted sliceCompare shown ∧
      (∀ key value, (key, value) ∈ shown ↔
        ∃ r, Newest (Record.Visible bytewiseComparator key 20) (fun r => r.key.sequence)
            ([memRecord] ++ twoFiles.records twoFilesHolds) (some r) ∧
          r.key.type = .value ∧ r.key.userKey = key ∧ r.value = value) ∧
      newIterator castagnoli .missing (sanitizeOptions plainOptions) twoFilesEnv [1] twoFiles
        = .ok it ∧
      ∃ n, ∀ rounds, n ≤ rounds → ∀ ops : List (Op Bytes),
        AllAllowed sliceCompare shown ops shown.length →
        ∃ it', run (iterator castagnoli .missing (sanitizeOptions plainOptions) twoFilesEnv
            memIterator bytewiseComparator 20 true rounds).toIterator ops it = .ok it' ∧
          (iterator castagnoli .missing (sanitizeOptions plainOptions) twoFilesEnv memIterator
            bytewiseComparator 20 true rounds).status it' = .ok ∧
          (iterator castagnoli .missing (sanitizeOptions plainOptions) twoFilesEnv memIterator
            bytewiseComparator 20 true rounds).entry it'
              = shown[moves sliceCompare shown ops shown.length]? :=
  have hmem : ∀ l ∈ [[memRecord]], Ordered bytewiseComparator l := by
    intro l hl
    rw [List.mem_singleton.1 hl]
    exact ⟨List.pairwise_singleton _ _, by decide⟩
  have hfresh : List.Forall₂ (fun l : List Record => DbIterator.Fresh (fun _ => memIterator)
      (internalCompare bytewiseComparator) (l.map Record.entry)) [[memRecord]] [1] :=
    .cons (DbIterator.ofList_fresh _ _) .nil
  have hapart : ([[memRecord]].flatten ++ twoFiles.records twoFilesHolds).Pairwise fun r r' =>
      internalCompare bytewiseComparator r.entry.1 r'.entry.1 ≠ .eq := by decide
  have hsequence : 20 ≤ kMaxSequenceNumber := by decide
  newIterator_run twoFiles_scans hsequence hmem hfresh hapart true

end PackedFilters.LevelDb.DbImpl
