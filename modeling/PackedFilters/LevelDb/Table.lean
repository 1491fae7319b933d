import PackedFilters.LevelDb.TableLayout

/-!
# The reader of a table

`table/table.cc`: `Table::Open`, which reads the footer, the index block and the filter, and
`InternalGet`, which asks the filter before it reads a data block.

A lookup seeks the key in the index, whose entry names the one block that can have it, and
then in the block.  That block is the right one up to a gap: a key behind the last key of a
block but not behind its separator is looked for there, and is at or behind no entry of it;
the first entry that is at or behind it is the first one of the next block (`Gap`).
`InternalGet` then shows nothing, which is no harm to its callers, because an entry behind
the gap has another user key.

* `Table`, `openTable`, `internalGet`, `approximateOffsetOf` — the reader;
* `Table.Reads` — what an open table knows of its file; `open_layout` — a table that was
  built is opened, and knows it;
* `first_cases` — the block that is read has the first entry at or behind the key, or the key
  lies in a gap;
* `internalGet_spec` — what a lookup shows, with a filter and without one;
* `approximateOffsetOf_layout`, `approximateOffsetOf_mem`, `approximateOffsetOf_mono` — where
  keys are said to be: where the block they are looked for in begins;
* `buildTable_approximateOffsetOf` — of every table that is built.
-/

namespace PackedFilters.LevelDb

open Cursor (Op lowerBound)

/-! ## The reader -/

/-- `Table::Rep`, without its cache. -/
structure Table where
  options : Options
  file : Bytes
  filter : Option (FilterPolicy × FilterBlockReader)
  metaindexHandle : BlockHandle
  indexBlock : Block

namespace Table

/-- `ReadFilter`: the block at the handle as a filter block, or no filter when the handle or the
block is bad. -/
def readFilter (crc : Crc32c) (snappy : Snappy) (options : Options) (file : Bytes)
    (policy : FilterPolicy) (filterHandleValue : Bytes) :
    Checked (Option (FilterPolicy × FilterBlockReader)) := do
  match ← BlockHandle.decodeFrom filterHandleValue with
  | .error _ => .ok none
  | .ok (filterHandle, _) =>
    match ← readBlock crc snappy file options.paranoidChecks filterHandle with
    | .error _ => .ok none
    | .ok contents =>
      let reader ← FilterBlockReader.new contents
      .ok (some (policy, reader))

/-- `ReadMeta`: the filter of the policy, if the metaindex block has one under its name; errors
leave the table without a filter. -/
def readMeta (crc : Crc32c) (snappy : Snappy) (options : Options) (file : Bytes)
    (footer : Footer) : Checked (Option (FilterPolicy × FilterBlockReader)) :=
  match options.filterPolicy with
  | none => .ok none
  | some policy => do
    match ← readBlock crc snappy file options.paranoidChecks footer.metaindexHandle with
    | .error _ => .ok none
    | .ok contents =>
      let iter ← openBlock bytewiseComparator contents
      let key := TableBuilder.filterKey policy
      let iter ← iter.step (.seek key)
      if iter.valid && decide (iter.key = key) then
        readFilter crc snappy options file policy iter.value
      else .ok none

/-- `Open` of a file that is said to have `size` bytes. -/
def openTable (crc : Crc32c) (snappy : Snappy) (options : Options) (file : Bytes) (size : ℕ) :
    Checked (Except Status Table) :=
  if size < kFooterLength then
    .ok (.error (.corruption (literal "file is too short to be an sstable")))
  else do
    match ← Footer.decodeFrom (readFile file (size - kFooterLength) kFooterLength) with
    | .error s => .ok (.error s)
    | .ok footer =>
      match ← readBlock crc snappy file options.paranoidChecks footer.indexHandle with
      | .error s => .ok (.error s)
      | .ok contents =>
        let indexBlock ← Block.new contents
        let filter ← readMeta crc snappy options file footer
        .ok (.ok { options, file, filter, metaindexHandle := footer.metaindexHandle, indexBlock })

variable (crc : Crc32c) (snappy : Snappy) (t : Table)

/-- `BlockReader`, without the cache. -/
def blockReader (verifyChecksums : Bool) (indexValue : Bytes) : Checked BlockIterator := do
  match ← BlockHandle.decodeFrom indexValue with
  | .error s => .ok (.empty s)
  | .ok (handle, _) =>
    match ← readBlock crc snappy t.file verifyChecksums handle with
    | .error s => .ok (.empty s)
    | .ok contents => openBlock t.options.comparator contents

/-- The question `InternalGet` asks the filter: whether the block can be passed over. -/
def filterRejects (handleValue k : Bytes) : Checked Bool :=
  match t.filter with
  | none => .ok false
  | some (policy, filter) => do
    match ← BlockHandle.decodeFrom handleValue with
    | .error _ => .ok false
    | .ok (handle, _) =>
      let mayMatch ← filter.keyMayMatch policy handle.offset k
      .ok (!mayMatch)

/-- `InternalGet`: the status, and the entry `handle_result` is called with. -/
def internalGet (verifyChecksums : Bool) (k : Bytes) : Checked (Status × Option (Bytes × Bytes)) := do
  let iiter ← t.indexBlock.newIterator t.options.comparator
  let iiter ← iiter.step (.seek k)
  if iiter.valid then
    let rejected ← t.filterRejects iiter.value k
    if rejected then .ok (iiter.status, none)
    else
      let blockIter ← t.blockReader crc snappy verifyChecksums iiter.value
      let blockIter ← blockIter.step (.seek k)
      let found := if blockIter.valid then some (blockIter.key, blockIter.value) else none
      let s := blockIter.status
      .ok (if s = .ok then iiter.status else s, found)
  else .ok (iiter.status, none)

/-- `ApproximateOffsetOf`: the offset of the block that the key is looked for in, or of the
metaindex block for a key behind all of them. -/
def approximateOffsetOf (key : Bytes) : Checked ℕ := do
  let indexIter ← t.indexBlock.newIterator t.options.comparator
  let indexIter ← indexIter.step (.seek key)
  if indexIter.valid then
    match ← BlockHandle.decodeFrom indexIter.value with
    | .ok (handle, _) => .ok handle.offset
    | .error _ => .ok t.metaindexHandle.offset
  else .ok t.metaindexHandle.offset

end Table

/-! ## Blocks of a layout -/

/-- The keys of a block are at or before its last one. -/
theorem le_lastKey {cmp : Bytes → Bytes → Ordering} [Std.TransCmp cmp] {t : TableBlock}
    (h : Cursor.Sorted cmp t.entries) {e : Bytes × Bytes} (he : e ∈ t.entries) :
    (cmp e.1 t.lastKey).isLE := by
  obtain ⟨front, last, heq⟩ : ∃ front last, t.entries = front ++ [last] :=
    ⟨_, _, (List.dropLast_append_getLast (List.ne_nil_of_mem he)).symm⟩
  rw [TableBlock.lastKey, heq, List.getLast?_concat]
  rw [heq] at h he
  rcases List.mem_append.1 he with he | he
  · exact Ordering.isLE_of_eq_lt ((List.pairwise_append.1 h).2.2 e he last
      (List.mem_singleton_self last))
  · rw [List.mem_singleton.1 he]
    exact Ordering.isLE_of_eq_eq Std.ReflCmp.compare_self

/-- The last key is one of the block's. -/
theorem exists_lastKey {t : TableBlock} (h : t.entries ≠ []) :
    ∃ e ∈ t.entries, e.1 = t.lastKey := by
  refine ⟨t.entries.getLast h, List.getLast_mem h, ?_⟩
  rw [TableBlock.lastKey, List.getLast?_eq_getLast_of_ne_nil h]
  rfl

section Layout

variable {crc : Crc32c} {snappy : Snappy} {options : Options}
  {entries : List (Bytes × Bytes)} {file : Bytes} {blocks : List TableBlock} {footer : Footer}

theorem TableLayout.sorted_entries (h : TableLayout crc snappy options entries file blocks footer)
    {cmp : Bytes → Bytes → Ordering} (hsorted : Cursor.Sorted cmp entries) {t : TableBlock}
    (ht : t ∈ blocks) : Cursor.Sorted cmp t.entries := by
  rw [← h.entries_eq, List.flatMap_def, Cursor.Sorted, List.pairwise_flatten] at hsorted
  exact hsorted.1 _ (List.mem_map_of_mem ht)

variable [options.comparator.Lawful]

theorem TableLayout.le_separator_of_mem
    (h : TableLayout crc snappy options entries file blocks footer)
    (hsorted : Cursor.Sorted options.comparator.compare entries) {t : TableBlock} (ht : t ∈ blocks)
    {e : Bytes × Bytes} (he : e ∈ t.entries) :
    (options.comparator.compare e.1 t.separator).isLE :=
  Std.TransCmp.isLE_trans (le_lastKey (h.sorted_entries hsorted ht) he) (h.le_separator t ht)

/-- The keys of the index block ascend. -/
theorem TableLayout.sorted_index (h : TableLayout crc snappy options entries file blocks footer)
    (hsorted : Cursor.Sorted options.comparator.compare entries) :
    Cursor.Sorted options.comparator.compare (blocks.map TableBlock.indexEntry) := by
  rw [Cursor.Sorted, List.pairwise_map]
  refine h.separated.imp_of_mem fun {t t'} _ ht' hsep => ?_
  obtain ⟨e, he, -⟩ := exists_lastKey (h.nonempty t' ht')
  have hlt : options.comparator.compare t.separator t.limit = .lt := by
    rw [hsep.1.separator_eq]
    exact Comparator.Lawful.separator_lt hsep.1.lt
  exact Std.TransCmp.lt_of_lt_of_isLE hlt (Std.TransCmp.isLE_trans (hsep.2 e he)
    (h.le_separator_of_mem hsorted ht' he))

omit [options.comparator.Lawful] in
/-- A data block is short enough for its restart offsets. -/
theorem TableLayout.length_block_lt (h : TableLayout crc snappy options entries file blocks footer)
    (hfit : TableFits options entries) {t : TableBlock} (ht : t ∈ blocks) :
    (buildBlock options.blockRestartInterval t.entries).length < 4294967296 :=
  hfit.dataBlock t.entries (h.blocks_eq ▸ List.mem_map_of_mem ht)

omit [options.comparator.Lawful] in
/-- The index block is short enough for its restart offsets. -/
theorem TableLayout.length_index_lt (h : TableLayout crc snappy options entries file blocks footer)
    (hfit : TableFits options entries) (hfile : file.length < 4294967296) :
    (buildBlock 1 (blocks.map TableBlock.indexEntry)).length < 4294967296 := by
  have hle := TableBuilder.length_index_le (fun t ht => (h.stored t ht).fits (by omega))
    h.separator_length
  rw [h.blocks_eq] at hle
  exact hle.trans_lt hfit.indexBlock

end Layout

/-! ## Opening a table -/

/-- What an open table knows of its file. -/
structure Table.Reads (options : Options) (view : Bytes → Bytes) (file : Bytes)
    (blocks : List TableBlock) (t : Table) : Prop where
  options_eq : t.options = options
  file_eq : t.file = file
  index : ∃ At, blockIterator.Walks options.comparator.compare (blocks.map TableBlock.indexEntry) At ∧
    ∃ s, t.indexBlock.newIterator options.comparator = .ok s ∧ At s blocks.length
  metaindex_le : t.metaindexHandle.offset ≤ file.length
  offset_lt : ∀ block ∈ blocks, block.handle.offset < t.metaindexHandle.offset
  filter : match options.filterPolicy with
    | none => t.filter = none
    | some policy => ∃ r, t.filter = some (policy, r) ∧
        (∀ block ∈ blocks, ∀ key, view key ∈ block.entries.map (fun e => view e.1) →
          r.keyMayMatch policy block.handle.offset key = .ok true) ∧
        ∀ blockOffset key, ∃ answer, r.keyMayMatch policy blockOffset key = .ok answer

section Open

variable {crc : Crc32c} {snappy : Snappy} {options : Options} [options.comparator.Lawful]
  {view : Bytes → Bytes} {entries : List (Bytes × Bytes)} {file : Bytes}
  {blocks : List TableBlock} {footer : Footer}

omit [options.comparator.Lawful] in
/-- The filter of a table is found again. -/
theorem readMeta_layout (h : TableLayout crc snappy options entries file blocks footer)
    (hinterval : 1 ≤ options.blockRestartInterval) (hfile : file.length < 4294967296)
    (hfit : TableFits options entries)
    (hfits : FilterFits options view entries.length) :
    ∃ filter, Table.readMeta crc snappy options file footer = .ok filter ∧
      match options.filterPolicy with
      | none => filter = none
      | some policy => ∃ r, filter = some (policy, r) ∧
          (∀ block ∈ blocks, ∀ key, view key ∈ block.entries.map (fun e => view e.1) →
            r.keyMayMatch policy block.handle.offset key = .ok true) ∧
          ∀ blockOffset key, ∃ answer, r.keyMayMatch policy blockOffset key = .ok answer := by
  obtain ⟨filter, hmeta, hfilter⟩ := h.filter
  rw [Table.readMeta]
  cases hpolicy : options.filterPolicy with
  | none => exact ⟨none, rfl, rfl⟩
  | some policy =>
    rw [hpolicy] at hfilter
    obtain ⟨handle, contents, end_, hsome, hat, hle_file, hbuild, hoffsets⟩ := hfilter
    have hhandle : handle.Fits := hat.fits (by omega)
    subst hsome
    have hlength : (buildBlock options.blockRestartInterval
        (TableBuilder.metaindexEntries (some (policy, handle)))).length < 4294967296 := by
      refine lt_of_le_of_lt (TableBuilder.length_metaindex_le (fun policy' handle' hsome => ?_) _)
        hfit.metaindexBlock
      cases hsome
      rw [TableBuilder.nameLength, hpolicy]
      exact ⟨le_rfl, hhandle⟩
    have hsingle : Cursor.Sorted bytewiseComparator.compare
        (TableBuilder.metaindexEntries (some (policy, handle))) := List.pairwise_singleton _ _
    obtain ⟨At, hwalks, s, hopen, hs⟩ := buildBlock_walks hinterval hsingle hlength
    obtain ⟨s', hstep, hs'⟩ := hwalks.refines.seek hs (TableBuilder.filterKey policy)
    have hzero : Cursor.move bytewiseComparator.compare
        (TableBuilder.metaindexEntries (some (policy, handle)))
        (.seek (TableBuilder.filterKey policy)) 1 = 0 :=
      hsingle.lowerBound_of_eq (i := 0) Nat.one_pos (sliceCompare_self _)
    have hs'' : At s' 0 := hzero ▸ hs'
    have hvalid : s'.valid = true := (hwalks.refines.valid_iff hs'').2 Nat.one_pos
    have hshows := Prod.ext_iff.1 (hwalks.refines.shows hs'' Nat.one_pos)
    have hkey : s'.key = TableBuilder.filterKey policy := hshows.1
    have hvalue : s'.value = handle.encodeTo [] := hshows.2
    have hseek : s.step (.seek (TableBuilder.filterKey policy)) = .ok s' := hstep
    have hdecode := BlockHandle.decodeFrom_encodeTo hhandle []
    rw [List.append_nil] at hdecode
    obtain ⟨fits, hsound, hle⟩ := hfits policy hpolicy
    have hcount : ((blocks.map TableBlock.filterEntry ++ [(end_, [])]).map
        fun g : ℕ × List Bytes => g.2.length).sum ≤ entries.length := by
      have := TableBuilder.sum_filterEntry blocks end_ []
      rw [List.append_nil, h.entries_eq] at this
      exact this.le
    obtain ⟨contents', hbuild', hreads⟩ := buildFilterBlock_reads hsound _
      (fun m hm => hle m (hm.trans hcount)) hoffsets
    rw [hbuild] at hbuild'
    cases hbuild'
    obtain ⟨r, hnew, hmatch, hanswer⟩ := hreads (by omega)
    refine ⟨some (policy, r), ?_, r, rfl, fun block hblock key hkey' => ?_, hanswer⟩
    · simp only
      rw [readBlock_storedAt hmeta (by omega), ok_bind]
      simp only
      rw [hopen, ok_bind, hseek, ok_bind, hvalid, hkey, hvalue]
      simp only [decide_true, Bool.and_self, if_true]
      rw [Table.readFilter, hdecode, ok_bind]
      simp only
      rw [readBlock_storedAt hat (by omega), ok_bind]
      simp only
      rw [hnew, ok_bind]
    · refine hmatch block.filterEntry (List.mem_append_left _ (List.mem_map_of_mem hblock)) _ rfl
        key ?_
      rw [TableBlock.filterEntry, List.map_map]
      exact hkey'

/-- **A table that was built is opened.** -/
theorem open_layout (h : TableLayout crc snappy options entries file blocks footer)
    (hinterval : 1 ≤ options.blockRestartInterval) (hfile : file.length < 4294967296)
    (hfit : TableFits options entries)
    (hsorted : Cursor.Sorted options.comparator.compare entries)
    (hfits : FilterFits options view entries.length) :
    ∃ t, Table.openTable crc snappy options file file.length = .ok (.ok t) ∧
      t.Reads options view file blocks ∧ t.metaindexHandle = footer.metaindexHandle := by
  obtain ⟨filter, hmeta, hfilter⟩ := readMeta_layout h hinterval hfile hfit hfits
  obtain ⟨front, hfooter⟩ := h.footer_eq
  have hmetaFits : footer.metaindexHandle.Fits := by
    obtain ⟨_, hat, -⟩ := h.filter
    exact hat.fits (by omega)
  have hindexFits : footer.indexHandle.Fits := h.index.fits (by omega)
  have hlen := Footer.length_encode hmetaFits hindexFits
  have hread : readFile file (file.length - kFooterLength) kFooterLength = footer.encode := by
    rw [readFile, hfooter, List.length_append, hlen, Nat.add_sub_cancel, List.drop_left,
      List.take_of_length_le hlen.le]
  have hsize : ¬ file.length < kFooterLength := by
    rw [hfooter, List.length_append, hlen]
    omega
  obtain ⟨At, hwalks, s, hopen, hs⟩ := buildBlock_walks le_rfl (h.sorted_index hsorted)
    (h.length_index_lt hfit hfile)
  obtain ⟨indexBlock, hnew, hiter⟩ := bind_eq_ok hopen
  rw [List.length_map] at hs
  let t : Table := ⟨options, file, filter, footer.metaindexHandle, indexBlock⟩
  have hmeta_le : footer.metaindexHandle.offset ≤ file.length := by
    obtain ⟨_, hat, -⟩ := h.filter
    have := hat.handle_le
    omega
  have hreads : t.Reads options view file blocks :=
    ⟨rfl, rfl, ⟨At, hwalks, s, hiter, hs⟩, hmeta_le, h.offset_lt, hfilter⟩
  refine ⟨t, ?_, hreads, rfl⟩
  rw [Table.openTable, if_neg hsize, hread, Footer.decodeFrom_encode hmetaFits hindexFits, ok_bind]
  simp only
  rw [readBlock_storedAt h.index (by omega), ok_bind]
  simp only
  rw [hnew, ok_bind, hmeta, ok_bind]

end Open

/-! ## `InternalGet` -/

/-- `k` lies behind the last key of a block, not behind the block's separator, and before
`key`: the block that is read for `k` does not hold `key`. -/
def Gap (cmp : Comparator) (k key : Bytes) : Prop :=
  ∃ start limit, cmp.compare start limit = .lt ∧ cmp.compare start k = .lt ∧
    (cmp.compare k (cmp.findShortestSeparator start limit)).isLE ∧ (cmp.compare limit key).isLE

section Get

variable {crc : Crc32c} {snappy : Snappy} {options : Options} [options.comparator.Lawful]
  {view : Bytes → Bytes} {entries : List (Bytes × Bytes)} {file : Bytes}
  {blocks : List TableBlock} {footer : Footer} {t : Table}

/-- An iterator after a seek, as its block's cursor shows it. -/
theorem seek_shows {cmp : Comparator} {entries : List (Bytes × Bytes)} {At : BlockIterator → ℕ → Prop}
    (hwalks : blockIterator.Walks cmp.compare entries At) {s : BlockIterator} {i : ℕ} (hs : At s i)
    (k : Bytes) :
    ∃ s', s.step (.seek k) = .ok s' ∧ s'.status = .ok ∧
      (if s'.valid then some (s'.key, s'.value) else none)
        = entries[lowerBound cmp.compare entries k]? ∧
      (s'.valid = true ↔ lowerBound cmp.compare entries k < entries.length) := by
  obtain ⟨s', hstep, hs'⟩ := hwalks.refines.seek hs k
  have hvalid : s'.valid = true ↔ lowerBound cmp.compare entries k < entries.length :=
    hwalks.refines.valid_iff hs'
  refine ⟨s', hstep, hwalks.status hs', ?_, hvalid⟩
  by_cases hlt : lowerBound cmp.compare entries k < entries.length
  · rw [if_pos (hvalid.2 hlt), List.getElem?_eq_getElem hlt]
    exact congrArg some (hwalks.refines.shows hs' hlt)
  · rw [if_neg (mt hvalid.1 hlt), List.getElem?_eq_none (not_lt.1 hlt)]

/-- `BlockReader` opens the block of an index entry. -/
theorem blockReader_layout (h : TableLayout crc snappy options entries file blocks footer)
    (hinterval : 1 ≤ options.blockRestartInterval)
    (hfile : file.length < 4294967296) (hfit : TableFits options entries)
    (hsorted : Cursor.Sorted options.comparator.compare entries)
    (ht : t.Reads options view file blocks) {block : TableBlock} (hblock : block ∈ blocks)
    (verifyChecksums : Bool) :
    ∃ At, blockIterator.Walks options.comparator.compare block.entries At ∧
      ∃ s, t.blockReader crc snappy verifyChecksums block.indexEntry.2 = .ok s ∧
        At s block.entries.length := by
  have hat := h.stored block hblock
  have hdecode := BlockHandle.decodeFrom_encodeTo (hat.fits (by omega)) []
  rw [List.append_nil] at hdecode
  obtain ⟨At, hwalks, s, hopen, hs⟩ := buildBlock_walks hinterval
    (h.sorted_entries hsorted hblock) (h.length_block_lt hfit hblock)
  refine ⟨At, hwalks, s, ?_, hs⟩
  rw [Table.blockReader, TableBlock.indexEntry, hdecode, ok_bind]
  simp only
  rw [ht.file_eq, readBlock_storedAt hat (by omega), ok_bind, ht.options_eq]
  exact hopen

omit [options.comparator.Lawful] in
/-- The filter rejects a block only if none of its keys looks like `k`. -/
theorem filterRejects_layout (h : TableLayout crc snappy options entries file blocks footer)
    (hfile : file.length < 4294967296) (ht : t.Reads options view file blocks)
    {block : TableBlock} (hblock : block ∈ blocks) (k : Bytes) :
    ∃ rejected, t.filterRejects block.indexEntry.2 k = .ok rejected ∧
      (rejected = true → ∀ e ∈ block.entries, view k ≠ view e.1) := by
  have hdecode := BlockHandle.decodeFrom_encodeTo ((h.stored block hblock).fits (by omega)) []
  rw [List.append_nil] at hdecode
  have hfilter := ht.filter
  rw [Table.filterRejects]
  split at hfilter
  · rw [hfilter]
    exact ⟨false, rfl, nofun⟩
  · obtain ⟨r, hr, hmatch, hanswer⟩ := hfilter
    obtain ⟨answer, hans⟩ := hanswer block.handle.offset k
    rw [hr]
    simp only [TableBlock.indexEntry]
    rw [hdecode, ok_bind]
    simp only
    rw [hans, ok_bind]
    refine ⟨!answer, rfl, fun hrej e he hview => ?_⟩
    rw [hmatch block hblock k (List.mem_map.2 ⟨e, he, hview.symm⟩)] at hans
    cases hans
    cases hrej

/-- Where a seek lands in the entries of a table, from where it lands in its index block. -/
theorem getElem?_lowerBound_blocks
    (h : TableLayout crc snappy options entries file blocks footer)
    (hsorted : Cursor.Sorted options.comparator.compare entries) (k : Bytes) {i : ℕ}
    (hi : i = lowerBound options.comparator.compare (blocks.map TableBlock.indexEntry) k) :
    entries[lowerBound options.comparator.compare entries k]?
      = ((blocks.drop i).flatMap TableBlock.entries)[lowerBound options.comparator.compare
          ((blocks.drop i).flatMap TableBlock.entries) k]? := by
  have hsplit : entries = (blocks.take i).flatMap TableBlock.entries ++
      (blocks.drop i).flatMap TableBlock.entries := by
    rw [← List.flatMap_append, List.take_append_drop, h.entries_eq]
  have hfront : ∀ e ∈ (blocks.take i).flatMap TableBlock.entries,
      options.comparator.compare e.1 k = .lt := by
    intro e he
    obtain ⟨block, hblock, he⟩ := List.mem_flatMap.1 he
    obtain ⟨j, hj, rfl⟩ := List.mem_iff_getElem.1 hblock
    rw [List.length_take] at hj
    have hlen : j < (blocks.map TableBlock.indexEntry).length := by
      rw [List.length_map]
      omega
    have hlt : options.comparator.compare (blocks.map TableBlock.indexEntry)[j].1 k = .lt :=
      Cursor.lt_of_lt_lowerBound (by omega)
    rw [List.getElem_map] at hlt
    rw [List.getElem_take] at he
    exact Std.TransCmp.lt_of_isLE_of_lt
      (h.le_separator_of_mem hsorted (List.getElem_mem _) he) hlt
  conv_lhs => rw [hsplit]
  rw [Cursor.lowerBound_append_of_lt hfront, List.getElem?_append_right (Nat.le_add_right ..),
    Nat.add_sub_cancel_left]

/-- **The first entry at or behind a key** is of the block its index entry names, or the
key lies between that block's last key and its separator. -/
theorem first_cases (h : TableLayout crc snappy options entries file blocks footer)
    (hsorted : Cursor.Sorted options.comparator.compare entries) (k : Bytes) {i : ℕ}
    (hi : i = lowerBound options.comparator.compare (blocks.map TableBlock.indexEntry) k)
    {e : Bytes × Bytes} (he : entries[lowerBound options.comparator.compare entries k]? = some e) :
    ∃ hlt : i < blocks.length,
      (blocks[i].entries[lowerBound options.comparator.compare blocks[i].entries k]? = some e) ∨
        Gap options.comparator k e.1 := by
  rw [getElem?_lowerBound_blocks h hsorted k hi] at he
  by_cases hlt : i < blocks.length
  · refine ⟨hlt, ?_⟩
    rw [List.drop_eq_getElem_cons hlt, List.flatMap_cons, Cursor.lowerBound_append] at he
    split at he
    · rename_i hin
      rw [List.getElem?_append_left hin] at he
      exact Or.inl he
    · rename_i hout
      rw [List.getElem?_append_right (Nat.le_add_right ..), Nat.add_sub_cancel_left] at he
      obtain ⟨block, hblock, hmem⟩ := List.mem_flatMap.1 (List.mem_of_getElem? he)
      obtain ⟨j, hj, rfl⟩ := List.mem_iff_getElem.1 hblock
      rw [List.getElem_drop] at hmem
      rw [List.length_drop] at hj
      have hsep := List.pairwise_iff_getElem.1 h.separated i (i + 1 + j) hlt (by omega) (by omega)
      obtain ⟨last, hlast, hkey⟩ := exists_lastKey (h.nonempty _ (List.getElem_mem hlt))
      obtain ⟨l, hl, rfl⟩ := List.mem_iff_getElem.1 hlast
      have hbefore : options.comparator.compare blocks[i].entries[l].1 k = .lt :=
        Cursor.lt_of_lt_lowerBound (hl.trans_le (not_lt.1 hout))
      have hindex := Cursor.isGE_lowerBound options.comparator.compare
        (blocks.map TableBlock.indexEntry) k (by rwa [← hi, List.length_map])
      simp only [← hi, List.getElem_map] at hindex
      refine Or.inr ⟨blocks[i].lastKey, blocks[i].limit, hsep.1.lt, hkey ▸ hbefore, ?_,
        hsep.2 e hmem⟩
      rw [← hsep.1.separator_eq]
      exact Std.OrientedCmp.isLE_of_isGE hindex
  · rw [List.drop_eq_nil_of_le (not_lt.1 hlt)] at he
    cases he

/-- What that block shows is the first entry at or behind the key. -/
theorem first_of_block (h : TableLayout crc snappy options entries file blocks footer)
    (hsorted : Cursor.Sorted options.comparator.compare entries) (k : Bytes) {i : ℕ}
    (hi : i = lowerBound options.comparator.compare (blocks.map TableBlock.indexEntry) k)
    (hlt : i < blocks.length) {e : Bytes × Bytes}
    (he : blocks[i].entries[lowerBound options.comparator.compare blocks[i].entries k]? = some e) :
    entries[lowerBound options.comparator.compare entries k]? = some e := by
  have hin := (List.getElem?_eq_some_iff.1 he).1
  rw [getElem?_lowerBound_blocks h hsorted k hi, List.drop_eq_getElem_cons hlt, List.flatMap_cons,
    Cursor.lowerBound_append, if_pos hin, List.getElem?_append_left hin]
  exact he

/-- **`InternalGet`** shows the first entry at or behind the key it is asked for, or the
entry is skipped. -/
theorem internalGet_spec (h : TableLayout crc snappy options entries file blocks footer)
    (hinterval : 1 ≤ options.blockRestartInterval) (hfile : file.length < 4294967296)
    (hfit : TableFits options entries)
    (hsorted : Cursor.Sorted options.comparator.compare entries)
    (ht : t.Reads options view file blocks) (verifyChecksums : Bool) (k : Bytes) :
    ∃ r, t.internalGet crc snappy verifyChecksums k = .ok (.ok, r) ∧
      (∀ e, r = some e → entries[lowerBound options.comparator.compare entries k]? = some e) ∧
      (r = none → ∀ e, entries[lowerBound options.comparator.compare entries k]? = some e →
        view k ≠ view e.1 ∨ Gap options.comparator k e.1) := by
  obtain ⟨At, hwalks, s, hiter, hs⟩ := ht.index
  obtain ⟨s', hstep, hstatus, hshows, hvalid⟩ := seek_shows hwalks hs k
  obtain ⟨i, hi⟩ : ∃ i, i = lowerBound options.comparator.compare
    (blocks.map TableBlock.indexEntry) k := ⟨_, rfl⟩
  rw [← hi, List.length_map] at hvalid
  rw [← hi] at hshows
  rw [Table.internalGet, ht.options_eq, hiter, ok_bind, hstep, ok_bind]
  by_cases hlt : i < blocks.length
  · rw [if_pos (hvalid.2 hlt), List.getElem?_map, List.getElem?_eq_getElem hlt] at hshows
    have hvalue : s'.value = blocks[i].indexEntry.2 := congrArg Prod.snd (Option.some.inj hshows)
    have hblock : blocks[i] ∈ blocks := List.getElem_mem hlt
    obtain ⟨rejected, hrejected, hreject⟩ := filterRejects_layout h hfile ht hblock k
    rw [if_pos (hvalid.2 hlt), hvalue, hrejected, ok_bind, hstatus]
    cases rejected with
    | true =>
      refine ⟨none, rfl, nofun, fun _ e he => ?_⟩
      obtain ⟨_, hin | hgap⟩ := first_cases h hsorted k hi he
      · exact Or.inl (hreject rfl e (List.mem_of_getElem? hin))
      · exact Or.inr hgap
    | false =>
      obtain ⟨At', hwalks', s₁, hread, hs₁⟩ := blockReader_layout h hinterval hfile hfit hsorted
        ht hblock verifyChecksums
      obtain ⟨s₂, hstep₂, hstatus₂, hshows₂, -⟩ := seek_shows hwalks' hs₁ k
      rw [if_neg Bool.false_ne_true, hread, ok_bind, hstep₂, ok_bind]
      simp only [hstatus₂, if_true]
      refine ⟨_, rfl, fun e he => ?_, fun hnone e he => ?_⟩
      · exact first_of_block h hsorted k hi hlt (hshows₂.symm.trans he)
      · obtain ⟨_, hin | hgap⟩ := first_cases h hsorted k hi he
        · rw [← hshows₂, hnone] at hin
          cases hin
        · exact Or.inr hgap
  · rw [if_neg (mt hvalid.1 hlt), hstatus]
    refine ⟨none, rfl, nofun, fun _ e he => ?_⟩
    exact absurd (first_cases h hsorted k hi he).1 hlt

omit [options.comparator.Lawful] in
/-- Where a key is said to be: at the block it is looked for in, or behind the last one. -/
theorem approximateOffsetOf_layout
    (h : TableLayout crc snappy options entries file blocks footer)
    (hfile : file.length < 4294967296) (ht : t.Reads options view file blocks) (key : Bytes) :
    t.approximateOffsetOf key = .ok
      (blocks[lowerBound options.comparator.compare (blocks.map TableBlock.indexEntry) key]?.elim
        t.metaindexHandle.offset fun block => block.handle.offset) := by
  obtain ⟨At, hwalks, s, hiter, hs⟩ := ht.index
  obtain ⟨s', hstep, -, hshows, hvalid⟩ := seek_shows hwalks hs key
  rw [List.length_map] at hvalid
  rw [Table.approximateOffsetOf, ht.options_eq, hiter, ok_bind, hstep, ok_bind]
  rw [List.getElem?_map] at hshows
  cases hblock : blocks[lowerBound options.comparator.compare (blocks.map TableBlock.indexEntry)
      key]? with
  | none =>
    rw [if_neg (mt hvalid.1 (not_lt.2 (List.getElem?_eq_none_iff.1 hblock)))]
    rfl
  | some block =>
    have htrue := hvalid.2 (List.getElem?_eq_some_iff.1 hblock).1
    rw [hblock, if_pos htrue] at hshows
    have hvalue : s'.value = block.handle.encodeTo [] :=
      congrArg Prod.snd (Option.some.inj hshows)
    have hdecode := BlockHandle.decodeFrom_encodeTo
      ((h.stored block (List.mem_of_getElem? hblock)).fits (by omega)) []
    rw [List.append_nil] at hdecode
    rw [if_pos htrue, hvalue, hdecode, ok_bind]
    rfl

/-- A key of the table is said to be where the data block that has it begins. -/
theorem approximateOffsetOf_mem (h : TableLayout crc snappy options entries file blocks footer)
    (hfile : file.length < 4294967296)
    (hsorted : Cursor.Sorted options.comparator.compare entries)
    (ht : t.Reads options view file blocks) {block : TableBlock} (hblock : block ∈ blocks)
    {e : Bytes × Bytes} (he : e ∈ block.entries) :
    t.approximateOffsetOf e.1 = .ok block.handle.offset := by
  obtain ⟨i, hi, rfl⟩ := List.mem_iff_getElem.1 hblock
  have hlen : (blocks.map TableBlock.indexEntry).length = blocks.length := List.length_map _
  have hbound : lowerBound options.comparator.compare (blocks.map TableBlock.indexEntry) e.1 = i := by
    refine Cursor.lowerBound_eq (hlen ▸ hi.le) (fun j hj hj' => ?_) fun hi' => ?_
    -- the blocks before it have separators before its keys
    · have hsep := List.pairwise_iff_getElem.1 h.separated j i (hj.trans hi) hi hj
      rw [List.getElem_map]
      show options.comparator.compare blocks[j].separator e.1 = .lt
      rw [hsep.1.separator_eq]
      exact Std.TransCmp.lt_of_lt_of_isLE (Comparator.Lawful.separator_lt hsep.1.lt) (hsep.2 e he)
    · rw [List.getElem_map]
      exact Std.OrientedCmp.isGE_of_isLE
        (h.le_separator_of_mem hsorted (List.getElem_mem hi) he)
  rw [approximateOffsetOf_layout h hfile ht e.1, hbound, List.getElem?_eq_getElem hi]
  rfl

/-- Later keys are said to be later. -/
theorem approximateOffsetOf_mono
    (h : TableLayout crc snappy options entries file blocks footer)
    (hfile : file.length < 4294967296) (ht : t.Reads options view file blocks) {a b : Bytes}
    (hab : (options.comparator.compare a b).isLE) :
    ∃ m n, t.approximateOffsetOf a = .ok m ∧ t.approximateOffsetOf b = .ok n ∧ m ≤ n ∧
      n ≤ file.length := by
  refine ⟨_, _, approximateOffsetOf_layout h hfile ht a, approximateOffsetOf_layout h hfile ht b,
    ?_, ?_⟩
  · have hle := Cursor.lowerBound_mono hab (blocks.map TableBlock.indexEntry)
    generalize lowerBound options.comparator.compare (blocks.map TableBlock.indexEntry) a = i at hle ⊢
    generalize lowerBound options.comparator.compare (blocks.map TableBlock.indexEntry) b = j at hle ⊢
    by_cases hj : j < blocks.length
    · have hi := hle.trans_lt hj
      rw [List.getElem?_eq_getElem hi, List.getElem?_eq_getElem hj]
      rcases hle.lt_or_eq with hlt | rfl
      · have hoffsets := h.offsets
        rw [List.pairwise_map] at hoffsets
        exact (List.pairwise_iff_getElem.1 hoffsets i j hi hj hlt).le
      · exact le_rfl
    · rw [List.getElem?_eq_none (not_lt.1 hj)]
      cases hi : blocks[i]? with
      | none => exact le_rfl
      | some block => exact (ht.offset_lt block (List.mem_of_getElem? hi)).le
  · cases hb : blocks[lowerBound options.comparator.compare (blocks.map TableBlock.indexEntry) b]? with
    | none => exact ht.metaindex_le
    | some block =>
      exact (ht.offset_lt block (List.mem_of_getElem? hb)).le.trans ht.metaindex_le

end Get

/-- **`ApproximateOffsetOf`** of a table that was built is the offset of the data block that
the key is looked for in, and behind the last of them the offset of the metaindex block.  A
key of the table is said to be where its own block begins, later keys are said to be later,
and no key is said to be behind the file. -/
theorem buildTable_approximateOffsetOf (crc : Crc32c) (snappy : Snappy) (options : Options)
    [options.comparator.Lawful] [options.comparator.Short] {view : Bytes → Bytes}
    {entries : List (Bytes × Bytes)} (hinterval : 1 ≤ options.blockRestartInterval)
    (hsorted : Cursor.Sorted options.comparator.compare entries)
    (hfits : FilterFits options view entries.length) (hfit : TableFits options entries) :
    ∃ file, buildTable crc snappy options entries = .ok file ∧ (file.length < 4294967296 →
      ∃ blocks footer, TableLayout crc snappy options entries file blocks footer ∧
        ∃ t, Table.openTable crc snappy options file file.length = .ok (.ok t) ∧
          (∀ key, t.approximateOffsetOf key = .ok
            (blocks[lowerBound options.comparator.compare (blocks.map TableBlock.indexEntry) key]?.elim
              footer.metaindexHandle.offset fun block => block.handle.offset)) ∧
          (∀ block ∈ blocks, ∀ e ∈ block.entries,
            t.approximateOffsetOf e.1 = .ok block.handle.offset) ∧
          ∀ a b, (options.comparator.compare a b).isLE →
            ∃ m n, t.approximateOffsetOf a = .ok m ∧ t.approximateOffsetOf b = .ok n ∧ m ≤ n ∧
              n ≤ file.length) := by
  obtain ⟨file, hbuild, hlayout⟩ := buildTable_layout crc snappy options hfits hsorted hfit
  refine ⟨file, hbuild, fun hfile => ?_⟩
  obtain ⟨blocks, footer, h⟩ := hlayout hfile
  obtain ⟨t, hopen, ht, hmetaindex⟩ := open_layout h hinterval hfile hfit hsorted hfits
  refine ⟨blocks, footer, h, t, hopen, fun key => ?_, fun block hblock e he => ?_, fun a b hab => ?_⟩
  · rw [← hmetaindex]
    exact approximateOffsetOf_layout h hfile ht key
  · exact approximateOffsetOf_mem h hfile hsorted ht hblock he
  · exact approximateOffsetOf_mono h hfile ht hab

instance : ({ comparator := bytewiseComparator } : Options).comparator.Lawful := instLawfulBytewise

instance : ({ comparator := bytewiseComparator } : Options).comparator.Short := instShortBytewise

theorem buildTable_approximateOffsetOf_one :
    ∃ file, buildTable castagnoli .missing { comparator := bytewiseComparator } [([1], [2])]
        = .ok file ∧ (file.length < 4294967296 →
      ∃ blocks footer, TableLayout castagnoli .missing { comparator := bytewiseComparator }
          [([1], [2])] file blocks footer ∧
        ∃ t, Table.openTable castagnoli .missing { comparator := bytewiseComparator } file
            file.length = .ok (.ok t) ∧
          (∀ key, t.approximateOffsetOf key = .ok
            (blocks[lowerBound sliceCompare (blocks.map TableBlock.indexEntry) key]?.elim
              footer.metaindexHandle.offset fun block => block.handle.offset)) ∧
          (∀ block ∈ blocks, ∀ e ∈ block.entries,
            t.approximateOffsetOf e.1 = .ok block.handle.offset) ∧
          ∀ a b, (sliceCompare a b).isLE →
            ∃ m n, t.approximateOffsetOf a = .ok m ∧ t.approximateOffsetOf b = .ok n ∧ m ≤ n ∧
              n ≤ file.length) :=
  have hfits : FilterFits { comparator := bytewiseComparator } id 1 := fun _ h => by cases h
  buildTable_approximateOffsetOf castagnoli .missing { comparator := bytewiseComparator }
    (by decide) (List.pairwise_singleton _ _) hfits (.of_weight (by decide))

end PackedFilters.LevelDb
