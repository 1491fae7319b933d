import PackedFilters.LevelDb.BlockCursor
import PackedFilters.LevelDb.Format

/-!
# The builder of a table

`table/table_builder.cc`: data blocks, and behind them the filter block, the metaindex block,
the index block and the footer.

Entries are added in ascending order and collected in a data block, which is written as soon
as its size estimate reaches `block_size`.  Its index entry has to wait for the next key,
since only then a short separator can be chosen; that is what `pendingIndexEntry` is about.
The file is part of the state, so that a run of the builder ends in the bytes of the table.

The format has fixed widths: restart offsets have 32 bits, handles 64.  `TableFits` says what
that asks of the entries, block by block: each data block, as it is before compression, and
the index block are below four gigabytes.  How the entries are cut into blocks depends on
their sizes alone (`dataBlocks`), so this can be said before the table is built.

* `Options`, `TableBuilder`, `buildTable` — the builder and a whole run;
* `dataBlocks` — how the entries are cut into data blocks;
* `TableFits`, `TableFits.of_weight` — entries whose blocks stay within the widths of the
  format, and a bound on all of them together that is enough for it;
* `TableBuilder.writeBlock_writes` — a block that is written is stored at its handle.
-/

namespace PackedFilters.LevelDb

/-! ## The builder -/

/-- The `Options` a table is built and read with. -/
structure Options where
  comparator : Comparator
  blockSize : ℕ := 4096
  blockRestartInterval : ℕ := 16
  compression : CompressionType := .snappyCompression
  filterPolicy : Option FilterPolicy := none
  paranoidChecks : Bool := false

/-- `TableBuilder::Rep`, with the contents of its file. -/
structure TableBuilder where
  file : Bytes := []
  offset : ℕ := 0
  dataBlock : BlockBuilder := {}
  indexBlock : BlockBuilder := {}
  lastKey : Bytes := []
  numEntries : ℕ := 0
  /-- The filter block's builder and its policy. -/
  filterBlock : Option (FilterPolicy × FilterBlockBuilder) := none
  pendingIndexEntry : Bool := false
  pendingHandle : BlockHandle := ⟨18446744073709551615, 18446744073709551615⟩

namespace TableBuilder

/-- `filter_block->StartBlock`, if there is a filter block. -/
def startFilterBlock (b : TableBuilder) (blockOffset : ℕ) : Checked TableBuilder :=
  match b.filterBlock with
  | none => .ok b
  | some (policy, f) => do
    let f ← f.startBlock policy blockOffset
    .ok { b with filterBlock := some (policy, f) }

/-- The constructor: an empty file, and a filter block if there is a policy, which is told that
a block begins at offset 0. -/
def new (options : Options) : Checked TableBuilder :=
  startFilterBlock { filterBlock := options.filterPolicy.map fun policy => (policy, {}) } 0

/-- `WriteRawBlock`: the new state and the block's handle. -/
def writeRawBlock (crc : Crc32c) (b : TableBuilder) (contents : Bytes) (type : CompressionType) :
    TableBuilder × BlockHandle :=
  let handle := ⟨b.offset, contents.length⟩
  ({ b with
      file := b.file ++ contents ++ blockTrailer crc contents type
      offset := u64 (b.offset + (contents.length + kBlockTrailerSize)) }, handle)

/-- `WriteBlock` of a finished block. -/
def writeBlock (crc : Crc32c) (snappy : Snappy) (options : Options) (b : TableBuilder)
    (raw : Bytes) : TableBuilder × BlockHandle :=
  match options.compression with
  | .noCompression => b.writeRawBlock crc raw .noCompression
  | .snappyCompression =>
    match snappy.compress raw with
    | some compressed =>
      if compressed.length < raw.length - raw.length / 8 then
        b.writeRawBlock crc compressed .snappyCompression
      else b.writeRawBlock crc raw .noCompression
    | none => b.writeRawBlock crc raw .noCompression

/-- `Flush`: the data block, if it has entries, is written and a new one begins; the filter
block is told where. -/
def flush (crc : Crc32c) (snappy : Snappy) (options : Options) (b : TableBuilder) :
    Checked TableBuilder :=
  if b.dataBlock.empty then .ok b
  else
    let (b, handle) := b.writeBlock crc snappy options b.dataBlock.finish
    let b := { b with dataBlock := {}, pendingHandle := handle, pendingIndexEntry := true }
    b.startFilterBlock b.offset

/-- The index entry of the last data block, under the key `lastKey`. -/
def addIndexEntry (b : TableBuilder) (lastKey : Bytes) : TableBuilder :=
  { b with
    lastKey
    indexBlock := b.indexBlock.add 1 lastKey (b.pendingHandle.encodeTo [])
    pendingIndexEntry := false }

/-- `Add`: the last block that was written gets its index entry, and the entry goes into the
filter block and the data block, which is flushed when it is large enough. -/
def add (crc : Crc32c) (snappy : Snappy) (options : Options) (b : TableBuilder)
    (key value : Bytes) : Checked TableBuilder :=
  let b :=
    if b.pendingIndexEntry then
      b.addIndexEntry (options.comparator.findShortestSeparator b.lastKey key)
    else b
  let b := { b with
    filterBlock := b.filterBlock.map fun f => (f.1, f.2.addKey key)
    lastKey := key
    numEntries := b.numEntries + 1
    dataBlock := b.dataBlock.add options.blockRestartInterval key value }
  if options.blockSize ≤ b.dataBlock.currentSizeEstimate then b.flush crc snappy options else .ok b

/-- The filter block, if there is one. -/
def writeFilterBlock (crc : Crc32c) (b : TableBuilder) :
    Checked (TableBuilder × Option (FilterPolicy × BlockHandle)) :=
  match b.filterBlock with
  | none => .ok (b, none)
  | some (policy, f) => do
    let contents ← f.finish policy
    let (b, handle) := b.writeRawBlock crc contents .noCompression
    .ok (b, some (policy, handle))

/-- The key of a filter block in the metaindex block. -/
def filterKey (policy : FilterPolicy) : Bytes := literal "filter." ++ policy.name

/-- The entries of the metaindex block: the handle of the filter block under the name of its
policy. -/
def metaindexEntries (filter : Option (FilterPolicy × BlockHandle)) : List (Bytes × Bytes) :=
  match filter with
  | none => []
  | some (policy, handle) => [(filterKey policy, handle.encodeTo [])]

/-- `Finish`: the last data block, the filter block, the metaindex block, the index block and
the footer; the result is the file. -/
def finish (crc : Crc32c) (snappy : Snappy) (options : Options) (b : TableBuilder) :
    Checked Bytes := do
  let b ← b.flush crc snappy options
  let (b, filter) ← b.writeFilterBlock crc
  let metaIndexBlock := buildBlock options.blockRestartInterval (metaindexEntries filter)
  let (b, metaindexHandle) := b.writeBlock crc snappy options metaIndexBlock
  let b :=
    if b.pendingIndexEntry then
      b.addIndexEntry (options.comparator.findShortSuccessor b.lastKey)
    else b
  let (b, indexHandle) := b.writeBlock crc snappy options b.indexBlock.finish
  .ok (b.file ++ Footer.encode { metaindexHandle, indexHandle })

end TableBuilder

/-- A whole table: the entries added to a new builder, one after the other, and then
`Finish`. -/
def buildTable (crc : Crc32c) (snappy : Snappy) (options : Options)
    (entries : List (Bytes × Bytes)) : Checked Bytes := do
  let b ← TableBuilder.new options
  let b ← entries.foldlM (fun b e => b.add crc snappy options e.1 e.2) b
  b.finish crc snappy options

/-! ## Sizes -/

/-- The data blocks that entries are cut into behind `current`, which the data block has
taken already: `Add` ends a block as soon as its size estimate reaches `block_size`, and
`Finish` ends the last one. -/
def dataBlocks (options : Options) :
    List (Bytes × Bytes) → List (Bytes × Bytes) → List (List (Bytes × Bytes))
  | current, [] => if current.isEmpty then [] else [current]
  | current, e :: entries =>
    if options.blockSize ≤ (BlockBuilder.addAll options.blockRestartInterval {}
        (current ++ [e])).currentSizeEstimate then
      (current ++ [e]) :: dataBlocks options [] entries
    else dataBlocks options (current ++ [e]) entries

/-- What the entries of a table weigh: the file, before any block of it is compressed, is
no longer than that. -/
def weight (entries : List (Bytes × Bytes)) : ℕ :=
  (entries.map fun e => e.1.length + e.2.length + 64).sum

/-- The length of a policy's name. -/
def TableBuilder.nameLength (options : Options) : ℕ :=
  match options.filterPolicy with
  | none => 0
  | some policy => policy.name.length

/-- The length of the last key of a data block: what its key in the index block has at
most. -/
def lastKeyLength (group : List (Bytes × Bytes)) : ℕ :=
  ((group.getLast?.map Prod.fst).getD []).length

/-- The entries fit into the format.  The restart offsets of a block have 32 bits, so that
each data block, the index block and the metaindex block are below four gigabytes before
they are compressed; a block handle has 64 bits, so that the file is below `2^64` bytes. -/
structure TableFits (options : Options) (entries : List (Bytes × Bytes)) : Prop where
  dataBlock : ∀ group ∈ dataBlocks options [] entries,
    (buildBlock options.blockRestartInterval group).length < 4294967296
  indexBlock : ((dataBlocks options [] entries).map fun group => lastKeyLength group + 39).sum + 8
    < 4294967296
  metaindexBlock : TableBuilder.nameLength options + 54 < 4294967296
  file : weight entries + TableBuilder.nameLength options + 128 < 18446744073709551616

@[simp] theorem weight_nil : weight [] = 0 := rfl

@[simp] theorem weight_cons (e : Bytes × Bytes) (entries : List (Bytes × Bytes)) :
    weight (e :: entries) = e.1.length + e.2.length + 64 + weight entries := rfl

@[simp] theorem weight_append (front back : List (Bytes × Bytes)) :
    weight (front ++ back) = weight front + weight back := by
  rw [weight, List.map_append, List.sum_append]
  rfl

theorem length_putVarint32_le (dst : Bytes) (v : ℕ) : (putVarint32 dst v).length ≤ dst.length + 5 := by
  have hlen : (Base128.encode (u32 v)).length ≤ 5 :=
    Base128.length_encode_le (k := 4) ((u32_lt v).trans (by norm_num))
  rw [putVarint32, List.length_append, encodeVarint32_eq (u32_lt v)]
  omega

/-- An entry takes nineteen bytes at most beside its key and its value. -/
theorem BlockBuilder.add_length_le (interval : ℕ) (b : BlockBuilder) (key value : Bytes) :
    (b.add interval key value).buffer.length + (b.add interval key value).restarts.length * 4
      ≤ b.buffer.length + b.restarts.length * 4 + (key.length + value.length + 19) := by
  rw [add]
  split
  rename_i shared restarts counter heq
  have hrestarts : restarts.length ≤ b.restarts.length + 1 := by
    split at heq <;> (cases heq; simp)
  have h1 := length_putVarint32_le b.buffer shared
  have h2 := length_putVarint32_le (putVarint32 b.buffer shared) (key.length - shared)
  have h3 := length_putVarint32_le
    (putVarint32 (putVarint32 b.buffer shared) (key.length - shared)) value.length
  simp only [List.length_append, List.length_drop]
  omega

theorem BlockBuilder.addAll_length_le (interval : ℕ) (entries : List (Bytes × Bytes)) :
    ∀ b : BlockBuilder,
      (addAll interval b entries).buffer.length + (addAll interval b entries).restarts.length * 4
        ≤ b.buffer.length + b.restarts.length * 4 +
          (entries.map fun e => e.1.length + e.2.length + 19).sum := by
  induction entries with
  | nil => exact fun b => le_rfl
  | cons e entries ih =>
    intro b
    have hadd := add_length_le interval b e.1 e.2
    have := ih (b.add interval e.1 e.2)
    rw [List.map_cons, List.sum_cons]
    exact this.trans (by omega)

theorem length_buildBlock_le (interval : ℕ) (entries : List (Bytes × Bytes)) :
    (buildBlock interval entries).length
      ≤ (entries.map fun e => e.1.length + e.2.length + 19).sum + 8 := by
  have := BlockBuilder.addAll_length_le interval entries {}
  have h0 : (({} : BlockBuilder).buffer.length + ({} : BlockBuilder).restarts.length * 4) = 4 := rfl
  rw [buildBlock, BlockBuilder.finish, foldl_appendFixed32, appendFixed32, List.length_append,
    List.length_append, length_flatMap_fixed32, length_fixed32]
  omega

theorem sum_le_weight (entries : List (Bytes × Bytes)) :
    (entries.map fun e => e.1.length + e.2.length + 19).sum + entries.length * 45
      ≤ weight entries := by
  induction entries with
  | nil => exact le_rfl
  | cons e entries ih =>
    rw [List.map_cons, List.sum_cons, weight_cons, List.length_cons]
    omega

/-- A data block and its trailer are no longer than what its entries weigh. -/
theorem length_dataBlock_le (interval : ℕ) {entries : List (Bytes × Bytes)} (h : entries ≠ []) :
    (buildBlock interval entries).length + kBlockTrailerSize ≤ weight entries := by
  have := length_buildBlock_le interval entries
  have := sum_le_weight entries
  have := List.length_pos_iff.2 h
  rw [kBlockTrailerSize]
  omega

theorem flatten_dataBlocks (options : Options) (entries : List (Bytes × Bytes)) :
    ∀ current, (dataBlocks options current entries).flatten = current ++ entries := by
  induction entries with
  | nil =>
    intro current
    cases current <;> rfl
  | cons e entries ih =>
    intro current
    rw [dataBlocks]
    split
    · rw [List.flatten_cons, ih, List.nil_append, ← List.append_cons]
    · rw [ih, ← List.append_cons]

theorem ne_nil_of_mem_dataBlocks {options : Options} {entries : List (Bytes × Bytes)} :
    ∀ {current group : List (Bytes × Bytes)}, group ∈ dataBlocks options current entries →
      group ≠ [] := by
  induction entries with
  | nil =>
    intro current group h
    cases current with
    | nil => cases h
    | cons e current =>
      rw [dataBlocks, if_neg (by simp), List.mem_singleton] at h
      rw [h]
      exact List.cons_ne_nil _ _
  | cons e entries ih =>
    intro current group h
    rw [dataBlocks] at h
    split at h
    · rcases List.mem_cons.1 h with rfl | h
      · simp
      · exact ih h
    · exact ih h

theorem lastKeyLength_le {group : List (Bytes × Bytes)} (h : group ≠ []) :
    lastKeyLength group + 64 ≤ weight group := by
  obtain ⟨front, e, rfl⟩ : ∃ front e, group = front ++ [e] :=
    ⟨_, _, (List.dropLast_append_getLast h).symm⟩
  rw [lastKeyLength, List.getLast?_concat, weight_append, weight_cons, weight_nil, Option.map_some,
    Option.getD_some]
  omega

theorem weight_flatten (groups : List (List (Bytes × Bytes))) :
    weight groups.flatten = (groups.map weight).sum := by
  induction groups with
  | nil => rfl
  | cons group groups ih =>
    rw [List.flatten_cons, weight_append, List.map_cons, List.sum_cons, ih]

/-- The last keys of data blocks, with what the index block has beside them. -/
theorem sum_lastKeyLength_le {groups : List (List (Bytes × Bytes))} (h : ∀ group ∈ groups, group ≠ []) :
    (groups.map fun group => lastKeyLength group + 39).sum ≤ weight groups.flatten := by
  rw [weight_flatten]
  refine List.sum_le_sum fun group hgroup => ?_
  have := lastKeyLength_le (h group hgroup)
  omega

/-- A table that weighs less than four gigabytes fits into the format. -/
theorem TableFits.of_weight {options : Options} {entries : List (Bytes × Bytes)}
    (h : weight entries + TableBuilder.nameLength options + 128 < 4294967296) :
    TableFits options entries where
  dataBlock group hgroup := by
    have hblock := length_dataBlock_le options.blockRestartInterval (ne_nil_of_mem_dataBlocks hgroup)
    have hle : weight group ≤ weight entries := by
      have hflatten := flatten_dataBlocks options entries []
      rw [List.nil_append] at hflatten
      rw [← hflatten, weight_flatten]
      exact List.le_sum_of_mem (List.mem_map_of_mem hgroup)
    omega
  indexBlock := by
    have hsum := sum_lastKeyLength_le fun group
      (hgroup : group ∈ dataBlocks options [] entries) => ne_nil_of_mem_dataBlocks hgroup
    rw [flatten_dataBlocks, List.nil_append] at hsum
    omega
  metaindexBlock := by omega
  file := by omega

theorem BlockBuilder.addAll_empty_iff (interval : ℕ) (entries : List (Bytes × Bytes)) :
    (addAll interval {} entries).empty = true ↔ entries = [] := by
  constructor
  · intro h
    cases entries with
    | nil => rfl
    | cons e entries =>
      have hgrow := (add_length interval (b := {}) le_rfl e.1 e.2).1
      have := (addAll_length interval entries (b := ({} : BlockBuilder).add interval e.1 e.2) hgrow).1
      have hpos : 0 < (({} : BlockBuilder).add interval e.1 e.2).buffer.length := by
        have := encodeVarint32_pos (u32 e.2.length)
        rw [add]
        split
        simp only [putVarint32, List.length_append]
        omega
      rw [empty, List.isEmpty_iff] at h
      have hlen := congrArg List.length h
      rw [List.length_nil] at hlen
      exact absurd (hpos.trans_le this) (by
        rw [show (addAll interval (({} : BlockBuilder).add interval e.1 e.2) entries)
          = addAll interval {} (e :: entries) from rfl, hlen]
        exact lt_irrefl _)
  · rintro rfl
    rfl

/-! ## Writing blocks -/

namespace TableBuilder

section Write

variable {crc : Crc32c} {snappy : Snappy} {options : Options} {b : TableBuilder} {raw : Bytes}

/-- What a call that writes a block does: the file grows by the block, and the handle is its
place. -/
structure Writes (crc : Crc32c) (snappy : Snappy) (raw : Bytes) (b : TableBuilder)
    (r : TableBuilder × BlockHandle) : Prop where
  state : ∃ more, r.1 = { b with file := b.file ++ more, offset := (b.file ++ more).length }
  stored : StoredAt crc snappy r.1.file r.2 raw
  offset : r.2.offset = b.file.length
  length : r.1.file.length ≤ b.file.length + raw.length + kBlockTrailerSize
  grows : b.file.length < r.1.file.length

theorem writeRawBlock_writes (hoffset : b.offset = b.file.length) {contents : Bytes}
    (hsmall : b.file.length + contents.length + kBlockTrailerSize < 18446744073709551616)
    (hle : contents.length ≤ raw.length) {type : CompressionType}
    (htype : type = .noCompression ∧ contents = raw ∨
      type = .snappyCompression ∧ snappy.compress raw = some contents) :
    Writes crc snappy raw b (b.writeRawBlock crc contents type) := by
  have htrailer : (blockTrailer crc contents type).length = kBlockTrailerSize := rfl
  have hlen : (b.file ++ contents ++ blockTrailer crc contents type).length
      = b.file.length + contents.length + kBlockTrailerSize := by
    rw [List.length_append, List.length_append, htrailer]
  constructor
  · refine ⟨contents ++ blockTrailer crc contents type, ?_⟩
    rw [writeRawBlock, hoffset]
    simp only
    rw [u64_of_lt (by omega), ← List.append_assoc, hlen, Nat.add_assoc]
  · refine ⟨b.file, contents, type, [], ?_, by rw [writeRawBlock, hoffset], htype⟩
    rw [writeRawBlock, List.append_nil, ← List.append_assoc]
  · exact hoffset
  · show (b.file ++ contents ++ blockTrailer crc contents type).length ≤ _
    omega
  · show _ < (b.file ++ contents ++ blockTrailer crc contents type).length
    have : kBlockTrailerSize = 5 := rfl
    omega

theorem writeBlock_writes (options : Options) (hoffset : b.offset = b.file.length)
    (hsmall : b.file.length + raw.length + kBlockTrailerSize < 18446744073709551616) :
    Writes crc snappy raw b (b.writeBlock crc snappy options raw) := by
  have hraw : Writes crc snappy raw b (b.writeRawBlock crc raw .noCompression) :=
    writeRawBlock_writes hoffset hsmall le_rfl (Or.inl ⟨rfl, rfl⟩)
  rw [writeBlock]
  split
  · exact hraw
  · split
    · rename_i compressed hcompress
      split
      · exact writeRawBlock_writes hoffset (by omega) (by omega) (Or.inr ⟨rfl, hcompress⟩)
      · exact hraw
    · exact hraw

end Write

end TableBuilder

end PackedFilters.LevelDb
