import PackedFilters.LevelDb.TableBuilder

/-!
# The layout of a table

What a run of `TableBuilder` leaves in its file, said without the builder: a list of data
blocks with their places and their keys in the index, the blocks that are stored there, and
the footer at the end.  The reader's results are about any file with such a layout.

The builder is followed through its run by one relation (`TableBuilder.Builds`).  It says
which blocks have been written and have their index entry, which one has been written and is
still waiting for it, and which entries the current block has taken; every call of `Add` and
`Flush` keeps it.  All of it is kept up to lengths: a file of four gigabytes or more has
offsets in the filter block that are cut, and nothing is said of it.

* `TableBlock` — a data block, its place, and how its key in the index was made;
* `FilterFits` — the filter policy, if there is one, is sound for filters of so many keys;
* `TableLayout` — what holds of every table: its blocks have the entries in order, each of
  them stored at its handle and cut as `dataBlocks` says, the index block has one entry for
  each, and the filter block covers their keys;
* `TableBuilder.Builds`, `TableBuilder.builds_addAll` — the relation, and a run of `Add`;
* `buildTable_layout` — every table that is built has such a layout of its entries.
-/

namespace PackedFilters.LevelDb

/-- A data block: its entries, its place, the key it has in the index block and, unless it
is the last one, the key behind it that this one was shortened before. -/
structure TableBlock where
  entries : List (Bytes × Bytes)
  handle : BlockHandle
  separator : Bytes := []
  limit : Bytes := []

namespace TableBlock

/-- The last key of a block. -/
def lastKey (t : TableBlock) : Bytes := (t.entries.getLast?.map Prod.fst).getD []

/-- The entry of a block in the index block. -/
def indexEntry (t : TableBlock) : Bytes × Bytes := (t.separator, t.handle.encodeTo [])

/-- What the filter block gets of a block. -/
def filterEntry (t : TableBlock) : ℕ × List Bytes := (t.handle.offset, t.entries.map Prod.fst)

/-- The separator was made for the last key and the key behind it. -/
structure Separated (cmp : Comparator) (t : TableBlock) : Prop where
  lt : cmp.compare t.lastKey t.limit = .lt
  separator_eq : t.separator = cmp.findShortestSeparator t.lastKey t.limit

end TableBlock

/-- The filter policy of a table, if it has one, makes sound filters of as many keys. -/
def FilterFits (options : Options) (view : Bytes → Bytes) (n : ℕ) : Prop :=
  ∀ policy, options.filterPolicy = some policy →
    ∃ fits, policy.Sound view fits ∧ ∀ m ≤ n, fits m

/-- What holds of every table. -/
structure TableLayout (crc : Crc32c) (snappy : Snappy) (options : Options)
    (entries : List (Bytes × Bytes)) (file : Bytes) (blocks : List TableBlock)
    (footer : Footer) : Prop where
  entries_eq : blocks.flatMap TableBlock.entries = entries
  blocks_eq : blocks.map TableBlock.entries = dataBlocks options [] entries
  nonempty : ∀ t ∈ blocks, t.entries ≠ []
  stored : ∀ t ∈ blocks,
    StoredAt crc snappy file t.handle (buildBlock options.blockRestartInterval t.entries)
  le_separator : ∀ t ∈ blocks, (options.comparator.compare t.lastKey t.separator).isLE
  separator_length : ∀ t ∈ blocks, t.separator.length ≤ t.lastKey.length
  separated : blocks.Pairwise fun t t' => t.Separated options.comparator ∧
    ∀ e ∈ t'.entries, (options.comparator.compare t.limit e.1).isLE
  offsets : (blocks.map fun t => t.handle.offset).Pairwise (· < ·)
  offset_lt : ∀ t ∈ blocks, t.handle.offset < footer.metaindexHandle.offset
  footer_eq : ∃ front, file = front ++ footer.encode
  index : StoredAt crc snappy file footer.indexHandle
    (buildBlock 1 (blocks.map TableBlock.indexEntry))
  filter : ∃ filter, StoredAt crc snappy file footer.metaindexHandle
      (buildBlock options.blockRestartInterval (TableBuilder.metaindexEntries filter)) ∧
    match options.filterPolicy with
    | none => filter = none
    | some policy => ∃ handle contents end_, filter = some (policy, handle) ∧
        StoredAt crc snappy file handle contents ∧ contents.length ≤ file.length ∧
        buildFilterBlock policy (blocks.map TableBlock.filterEntry ++ [(end_, [])])
          = .ok contents ∧
        ((blocks.map TableBlock.filterEntry ++ [(end_, [])]).map Prod.fst).Pairwise (· ≤ ·)

namespace TableBuilder

/-! ## What a builder stands for -/

/-- The filter block's builder has had these calls. -/
def Filters (options : Options) (groups : List (ℕ × List Bytes)) (b : TableBuilder) : Prop :=
  match options.filterPolicy with
  | none => b.filterBlock = none
  | some policy => ∃ f, b.filterBlock = some (policy, f) ∧
      groups.foldlM (FilterBlockBuilder.addBlock policy) {} = .ok f

/-- A builder that has written `blocks`, with their entries in the index block, and
`pending`, which has none yet, and has taken the entries `current` for the next block;
`next` holds of the keys that may come. -/
structure Builds (crc : Crc32c) (snappy : Snappy) (options : Options) (blocks : List TableBlock)
    (pending : Option TableBlock) (current : List (Bytes × Bytes)) (next : Bytes → Prop)
    (b : TableBuilder) : Prop where
  dataBlock : b.dataBlock = BlockBuilder.addAll options.blockRestartInterval {} current
  indexBlock : b.indexBlock = BlockBuilder.addAll 1 {} (blocks.map TableBlock.indexEntry)
  nonempty : ∀ t ∈ blocks ++ pending.toList, t.entries ≠ []
  stored : ∀ t ∈ blocks ++ pending.toList,
    StoredAt crc snappy b.file t.handle (buildBlock options.blockRestartInterval t.entries)
  pending_iff : b.pendingIndexEntry = pending.isSome
  pending_spec : ∀ t, pending = some t →
    b.pendingHandle = t.handle ∧ b.lastKey = t.lastKey ∧ current = []
  lastKey : current ≠ [] → b.lastKey = (current.getLast?.map Prod.fst).getD []
  separated : ∀ t ∈ blocks, t.Separated options.comparator
  limit_le : (blocks ++ pending.toList).Pairwise fun t t' =>
    ∀ e ∈ t'.entries, (options.comparator.compare t.limit e.1).isLE
  limit_le_current : ∀ t ∈ blocks, ∀ e ∈ current, (options.comparator.compare t.limit e.1).isLE
  limit_le_next : ∀ t ∈ blocks, ∀ key, next key → (options.comparator.compare t.limit key).isLE
  offset : b.offset = b.file.length
  length_le : b.file.length ≤ weight ((blocks ++ pending.toList).flatMap TableBlock.entries)
  filters : Filters options ((blocks ++ pending.toList).map TableBlock.filterEntry ++
    [(b.offset, current.map Prod.fst)]) b
  offsets : ((blocks ++ pending.toList).map fun t => t.handle.offset).Pairwise (· < ·)
  offset_lt : ∀ t ∈ blocks ++ pending.toList, t.handle.offset < b.offset

/-- The keys that may follow these entries. -/
def After (cmp : Comparator) (entries : List (Bytes × Bytes)) (key : Bytes) : Prop :=
  ∀ e ∈ entries, cmp.compare e.1 key = .lt

section Builds

variable {crc : Crc32c} {snappy : Snappy} {options : Options} [options.comparator.Lawful]
  {blocks : List TableBlock} {pending : Option TableBlock} {current : List (Bytes × Bytes)}
  {next : Bytes → Prop} {b : TableBuilder}

omit [options.comparator.Lawful] in
theorem builds_new (crc : Crc32c) (snappy : Snappy) (options : Options) : ∃ b, new options = .ok b ∧
    Builds crc snappy options [] none [] (After options.comparator []) b := by
  have hbuilds (f : Option (FilterPolicy × FilterBlockBuilder))
      (hf : Filters options [(0, [])] { filterBlock := f }) :
      Builds crc snappy options [] none [] (After options.comparator []) { filterBlock := f } := by
    constructor
    case filters => exact hf
    all_goals first | rfl | simp
  rw [new]
  cases hpolicy : options.filterPolicy with
  | none => exact ⟨_, rfl, hbuilds none (by rw [Filters, hpolicy])⟩
  | some policy =>
    refine ⟨_, rfl, hbuilds (some (policy, {})) ?_⟩
    rw [Filters, hpolicy]
    exact ⟨{}, rfl, rfl⟩

/-- The index entry of the pending block, made before `key`. -/
theorem builds_addIndexEntry {t : TableBlock} {key : Bytes}
    (h : Builds crc snappy options blocks (some t) current next b)
    (hkey : options.comparator.compare t.lastKey key = .lt) (hnext : next key) :
    Builds crc snappy options
      (blocks ++ [{ t with
        separator := options.comparator.findShortestSeparator t.lastKey key, limit := key }])
      none current (· = key)
      (b.addIndexEntry (options.comparator.findShortestSeparator b.lastKey key)) := by
  obtain ⟨hhandle, hlast, hcurrent⟩ := h.pending_spec t rfl
  set t' : TableBlock := { t with
    separator := options.comparator.findShortestSeparator t.lastKey key, limit := key } with ht'
  subst hcurrent
  have hmem (t₀ : TableBlock) (ht₀ : t₀ ∈ blocks ++ [t'] ++ (none : Option TableBlock).toList) :
      ∃ t₁ ∈ blocks ++ (some t).toList, t₁.entries = t₀.entries ∧ t₁.handle = t₀.handle := by
    rw [Option.toList_none, List.append_nil, List.mem_append, List.mem_singleton] at ht₀
    rcases ht₀ with ht₀ | rfl
    · exact ⟨t₀, List.mem_append_left _ ht₀, rfl, rfl⟩
    · exact ⟨t, by simp, rfl, rfl⟩
  have hlimit := List.pairwise_append.1 h.limit_le
  have hoffsets := h.offsets
  rw [Option.toList_some, List.map_append, List.map_singleton] at hoffsets
  constructor
  case dataBlock => exact h.dataBlock
  case indexBlock =>
    rw [addIndexEntry, hlast, hhandle, h.indexBlock, List.map_append, List.map_singleton,
      BlockBuilder.addAll, BlockBuilder.addAll, List.foldl_append]
    rfl
  case nonempty =>
    intro t₀ ht₀
    obtain ⟨t₁, ht₁, he, -⟩ := hmem t₀ ht₀
    exact he ▸ h.nonempty t₁ ht₁
  case stored =>
    intro t₀ ht₀
    obtain ⟨t₁, ht₁, he, hh⟩ := hmem t₀ ht₀
    rw [← he, ← hh]
    exact h.stored t₁ ht₁
  case pending_iff => rfl
  case pending_spec => exact nofun
  case lastKey => exact fun hne => absurd rfl hne
  case separated =>
    intro t₀ ht₀
    rcases List.mem_append.1 ht₀ with ht₀ | ht₀
    · exact h.separated t₀ ht₀
    · rw [List.mem_singleton.1 ht₀]
      exact ⟨hkey, rfl⟩
  case limit_le =>
    rw [Option.toList_none, List.append_nil]
    refine List.pairwise_append.2 ⟨hlimit.1, List.pairwise_singleton _ _, fun t₀ ht₀ t₁ ht₁ => ?_⟩
    rw [List.mem_singleton.1 ht₁]
    exact hlimit.2.2 t₀ ht₀ t (by simp)
  case limit_le_current => exact fun _ _ e he => absurd he List.not_mem_nil
  case limit_le_next =>
    rintro t₀ ht₀ _ rfl
    rcases List.mem_append.1 ht₀ with ht₀ | ht₀
    · exact h.limit_le_next t₀ ht₀ _ hnext
    · rw [List.mem_singleton.1 ht₀]
      exact Ordering.isLE_of_eq_eq Std.ReflCmp.compare_self
  case offset => exact h.offset
  case length_le =>
    have := h.length_le
    simp only [Option.toList_some, Option.toList_none, List.append_nil, List.flatMap_append,
      List.flatMap_singleton] at this ⊢
    exact this
  case filters =>
    have := h.filters
    simp only [Filters, Option.toList_some, Option.toList_none, List.append_nil, List.map_append,
      List.map_singleton] at this ⊢
    exact this
  case offsets =>
    rw [Option.toList_none, List.append_nil, List.map_append, List.map_singleton]
    exact hoffsets
  case offset_lt =>
    intro t₀ ht₀
    obtain ⟨t₁, ht₁, -, hh⟩ := hmem t₀ ht₀
    exact hh ▸ h.offset_lt t₁ ht₁

omit [options.comparator.Lawful] in
theorem builds_next (h : Builds crc snappy options blocks pending current next b)
    {next' : Bytes → Prop} (hle : ∀ key, next' key → next key) :
    Builds crc snappy options blocks pending current next' b :=
  { h with limit_le_next := fun t ht key hkey => h.limit_le_next t ht key (hle key hkey) }

/-- The state with one more key in the current data block. -/
def withEntry (options : Options) (b : TableBuilder) (key value : Bytes) : TableBuilder :=
  { b with
    filterBlock := b.filterBlock.map fun f => (f.1, f.2.addKey key)
    lastKey := key
    numEntries := b.numEntries + 1
    dataBlock := b.dataBlock.add options.blockRestartInterval key value }

theorem addBlocks_concat {policy : FilterPolicy} {groups : List (ℕ × List Bytes)}
    {group : ℕ × List Bytes} {f : FilterBlockBuilder} :
    (groups ++ [group]).foldlM (FilterBlockBuilder.addBlock policy) {} = .ok f ↔
      ∃ f₀, groups.foldlM (FilterBlockBuilder.addBlock policy) {} = .ok f₀ ∧
        f₀.addBlock policy group = .ok f := by
  have hconcat : (groups ++ [group]).foldlM (FilterBlockBuilder.addBlock policy) {}
      = groups.foldlM (FilterBlockBuilder.addBlock policy) {} >>= fun f => f.addBlock policy group := by
    rw [List.foldlM_append]
    refine bind_congr fun f => ?_
    rw [List.foldlM_cons]
    exact bind_pure _
  rw [hconcat]
  constructor
  · exact bind_eq_ok
  · rintro ⟨f₀, hf₀, hf⟩
    rw [hf₀, ok_bind, hf]

omit [options.comparator.Lawful] in
theorem filters_addKey {groups : List (ℕ × List Bytes)} {offset : ℕ} {keys : List Bytes}
    (h : Filters options (groups ++ [(offset, keys)]) b) (key value : Bytes) :
    Filters options (groups ++ [(offset, keys ++ [key])]) (b.withEntry options key value) := by
  rw [Filters] at h ⊢
  cases hpolicy : options.filterPolicy with
  | none =>
    rw [hpolicy] at h
    show b.filterBlock.map _ = none
    rw [show b.filterBlock = none from h]
    rfl
  | some policy =>
    rw [hpolicy] at h
    obtain ⟨f, hf, hrun⟩ := h
    refine ⟨f.addKey key, ?_, ?_⟩
    · show b.filterBlock.map _ = _
      rw [hf]
      rfl
    · obtain ⟨f₀, hf₀, hadd⟩ := addBlocks_concat.1 hrun
      obtain ⟨f₁, hf₁, hadd⟩ := bind_eq_ok hadd
      cases hadd
      refine addBlocks_concat.2 ⟨f₀, hf₀, ?_⟩
      simp only at hf₁
      rw [FilterBlockBuilder.addBlock]
      simp only
      rw [hf₁, ok_bind, List.foldl_append]
      rfl

/-- A key in the current data block. -/
theorem builds_withEntry {key : Bytes}
    (h : Builds crc snappy options blocks none current (· = key) b) (value : Bytes) :
    Builds crc snappy options blocks none (current ++ [(key, value)])
      (After options.comparator (blocks.flatMap TableBlock.entries ++ (current ++ [(key, value)])))
      (b.withEntry options key value) := by
  constructor
  case dataBlock =>
    show b.dataBlock.add options.blockRestartInterval key value = _
    rw [h.dataBlock, BlockBuilder.addAll, BlockBuilder.addAll, List.foldl_append]
    rfl
  case indexBlock => exact h.indexBlock
  case nonempty => exact h.nonempty
  case stored => exact h.stored
  case pending_iff => exact h.pending_iff
  case pending_spec => exact nofun
  case lastKey =>
    intro _
    rw [List.getLast?_concat]
    rfl
  case separated => exact h.separated
  case limit_le => exact h.limit_le
  case limit_le_current =>
    intro t ht e he
    rcases List.mem_append.1 he with he | he
    · exact h.limit_le_current t ht e he
    · rw [List.mem_singleton.1 he]
      exact h.limit_le_next t ht key rfl
  case limit_le_next =>
    intro t ht key' hkey'
    have hlt : options.comparator.compare key key' = .lt := hkey' (key, value) (by simp)
    exact Ordering.isLE_of_eq_lt
      (Std.TransCmp.lt_of_isLE_of_lt (h.limit_le_next t ht key rfl) hlt)
  case offset => exact h.offset
  case length_le => exact h.length_le
  case filters =>
    have hkeys : (current ++ [(key, value)]).map Prod.fst = current.map Prod.fst ++ [key] := by simp
    rw [hkeys]
    exact filters_addKey h.filters key value
  case offsets => exact h.offsets
  case offset_lt => exact h.offset_lt

omit [options.comparator.Lawful] in
/-- `StartBlock` of the filter block, behind its other calls. -/
theorem filters_startBlock {groups : List (ℕ × List Bytes)} {view : Bytes → Bytes} {n : ℕ}
    (hfits : FilterFits options view n) (h : Filters options groups b) (blockOffset : ℕ)
    (hn : (groups.map fun g => g.2.length).sum ≤ n)
    (hsorted : ((groups ++ [(blockOffset, [])]).map Prod.fst).Pairwise (· ≤ ·)) :
    ∃ f, b.startFilterBlock blockOffset = .ok { b with filterBlock := f } ∧
      Filters options (groups ++ [(blockOffset, [])]) { b with filterBlock := f } := by
  rw [Filters] at h
  rw [startFilterBlock]
  cases hpolicy : options.filterPolicy with
  | none =>
    rw [hpolicy] at h
    have hnone : b.filterBlock = none := h
    refine ⟨none, ?_, by rw [Filters, hpolicy]⟩
    have hb : b = { b with filterBlock := none } := by rw [← hnone]
    rw [hnone]
    exact congrArg Except.ok hb
  | some policy =>
    rw [hpolicy] at h
    obtain ⟨f, hf, hrun⟩ := h
    obtain ⟨fits, hsound, hle⟩ := hfits policy hpolicy
    obtain ⟨_, _, f', hrun', -⟩ := FilterBlockBuilder.holds_addBlocks hsound
      (groups ++ [(blockOffset, [])]) []
      ⟨FilterBlockBuilder.represents_empty, by simp, by simp⟩ (fun m hm => hle m (by
        rw [List.nil_append, List.map_append, List.sum_append] at hm
        simp only [List.map_cons, List.map_nil, List.sum_cons, List.sum_nil, List.length_nil] at hm
        omega)) (by simp) hsorted
    obtain ⟨f₀, hf₀, hadd⟩ := addBlocks_concat.1 hrun'
    rw [hrun] at hf₀
    cases hf₀
    obtain ⟨f₁, hf₁, hadd⟩ := bind_eq_ok hadd
    cases hadd
    refine ⟨some (policy, f₁), ?_, ?_⟩
    · rw [hf]
      simp only at hf₁ ⊢
      rw [hf₁, ok_bind]
    · rw [Filters, hpolicy]
      exact ⟨f₁, rfl, hrun'⟩

omit [options.comparator.Lawful] in
/-- How many keys the filters have had. -/
theorem sum_filterEntry (blocks : List TableBlock) (offset : ℕ) (current : List (Bytes × Bytes)) :
    ((blocks.map TableBlock.filterEntry ++ [(offset, current.map Prod.fst)]).map
      fun g => g.2.length).sum = (blocks.flatMap TableBlock.entries ++ current).length := by
  rw [List.map_append, List.sum_append, List.length_append, List.length_flatMap, List.map_map]
  simp [Function.comp_def, TableBlock.filterEntry]

omit [options.comparator.Lawful] in
theorem map_fst_filterEntry (blocks : List TableBlock) :
    (blocks.map TableBlock.filterEntry).map Prod.fst = blocks.map fun t => t.handle.offset := by
  rw [List.map_map]
  rfl

omit [options.comparator.Lawful] in
/-- The filter block is told of the end of a data block behind the start of it, and of that
behind the start of every other block. -/
theorem pairwise_flush (h : Builds crc snappy options blocks none current next b) {limit : ℕ}
    (hlimit : b.file.length ≤ limit) :
    (((blocks.map TableBlock.filterEntry ++ [(b.offset, current.map Prod.fst)]) ++
      [(limit, [])]).map Prod.fst).Pairwise (· ≤ ·) := by
  have hoffsets := h.offsets
  have hoffset_lt := h.offset_lt
  simp only [Option.toList_none, List.append_nil] at hoffsets hoffset_lt
  rw [List.map_append, List.map_append, map_fst_filterEntry]
  simp only [List.map_cons, List.map_nil, List.append_assoc, List.singleton_append]
  refine List.pairwise_append.2 ⟨hoffsets.imp Nat.le_of_lt, ?_, fun o ho o' ho' => ?_⟩
  · rw [h.offset]
    simpa using hlimit
  · obtain ⟨t, ht, rfl⟩ := List.mem_map.1 ho
    have hle := (hoffset_lt t ht).le
    rw [h.offset] at hle ho'
    simp only [List.mem_cons, List.not_mem_nil, or_false] at ho'
    rcases ho' with rfl | rfl
    · exact hle
    · exact hle.trans hlimit

omit [options.comparator.Lawful] in
/-- `Flush` of a data block that has entries. -/
theorem builds_flush {view : Bytes → Bytes} {n : ℕ} (hfits : FilterFits options view n)
    (h : Builds crc snappy options blocks none current next b) (hne : current ≠ [])
    (hn : (blocks.flatMap TableBlock.entries ++ current).length ≤ n)
    (hweight : weight (blocks.flatMap TableBlock.entries ++ current) < 18446744073709551616) :
    ∃ t b', b.flush crc snappy options = .ok b' ∧ t.entries = current ∧
      Builds crc snappy options blocks (some t) [] next b' := by
  have hstored := h.stored
  have hlength := h.length_le
  have hoffsets := h.offsets
  have hoffset_lt := h.offset_lt
  have hfilters := h.filters
  have hlimit := h.limit_le
  have hnonempty := h.nonempty
  simp only [Option.toList_none, List.append_nil] at hstored hlength hoffsets hoffset_lt
  simp only [Option.toList_none, List.append_nil] at hfilters hlimit hnonempty
  rw [weight_append] at hweight
  have hblock := length_dataBlock_le options.blockRestartInterval hne
  have hempty : ¬ b.dataBlock.empty = true := by
    rwa [h.dataBlock, BlockBuilder.addAll_empty_iff]
  have hraw : b.dataBlock.finish = buildBlock options.blockRestartInterval current := by
    rw [h.dataBlock]
    rfl
  have hwrites : Writes crc snappy b.dataBlock.finish b
      (b.writeBlock crc snappy options b.dataBlock.finish) :=
    writeBlock_writes options h.offset (by rw [hraw]; omega)
  rw [flush, if_neg hempty]
  obtain ⟨⟨b₁, handle⟩, hr⟩ : ∃ r, b.writeBlock crc snappy options b.dataBlock.finish = r := ⟨_, rfl⟩
  rw [hr] at hwrites ⊢
  obtain ⟨⟨more, hstate⟩, hat, hhandle, hlen, hgrow⟩ := hwrites
  simp only at hstate hat hhandle hlen hgrow
  subst hstate
  simp only at hat hlen hgrow ⊢
  obtain ⟨f, hstart, hfilters'⟩ := filters_startBlock
    (b := { b with
      file := b.file ++ more, offset := (b.file ++ more).length, dataBlock := {},
      pendingHandle := handle, pendingIndexEntry := true })
    hfits hfilters (b.file ++ more).length (by rwa [sum_filterEntry]) (pairwise_flush h hgrow.le)
  refine ⟨{ entries := current, handle }, _, hstart, rfl, ?_⟩
  have hmem (t : TableBlock) (ht : t ∈ blocks ++ (some
      ({ entries := current, handle } : TableBlock)).toList) :
      t ∈ blocks ∨ t = { entries := current, handle } := by
    rwa [Option.toList_some, List.mem_append, List.mem_singleton] at ht
  constructor
  case dataBlock => rfl
  case indexBlock => exact h.indexBlock
  case nonempty =>
    intro t ht
    rcases hmem t ht with ht | rfl
    · exact hnonempty t ht
    · exact hne
  case stored =>
    intro t ht
    rcases hmem t ht with ht | rfl
    · exact (hstored t ht).append more
    · rwa [hraw] at hat
  case pending_iff => rfl
  case pending_spec =>
    rintro t ⟨⟩
    exact ⟨rfl, h.lastKey hne, rfl⟩
  case lastKey => exact fun h0 => absurd rfl h0
  case separated => exact h.separated
  case limit_le =>
    rw [Option.toList_some]
    refine List.pairwise_append.2 ⟨hlimit, List.pairwise_singleton _ _, fun t ht t' ht' => ?_⟩
    rw [List.mem_singleton.1 ht']
    exact h.limit_le_current t ht
  case limit_le_current => exact fun _ _ e he => absurd he List.not_mem_nil
  case limit_le_next => exact h.limit_le_next
  case offset => rfl
  case length_le =>
    rw [Option.toList_some, List.flatMap_append, List.flatMap_singleton, weight_append]
    rw [hraw] at hlen
    simp only at hlen ⊢
    omega
  case filters =>
    rw [Option.toList_some, List.map_append, List.map_singleton]
    rw [h.offset.trans hhandle.symm] at hfilters'
    exact hfilters'
  case offsets =>
    rw [Option.toList_some, List.map_append, List.map_singleton]
    refine List.pairwise_append.2 ⟨hoffsets, List.pairwise_singleton _ _, fun o ho o' ho' => ?_⟩
    obtain ⟨t, ht, rfl⟩ := List.mem_map.1 ho
    rw [List.mem_singleton.1 ho', hhandle, ← h.offset]
    exact hoffset_lt t ht
  case offset_lt =>
    intro t ht
    rcases hmem t ht with ht | rfl
    · have := hoffset_lt t ht
      rw [h.offset] at this
      exact this.trans hgrow
    · rw [hhandle]
      exact hgrow

/-- What `Add` does first: the block that waits for its index entry gets it, so that none
does any more. -/
theorem builds_closeIndex {key : Bytes}
    (h : Builds crc snappy options blocks pending current
      (After options.comparator
        ((blocks ++ pending.toList).flatMap TableBlock.entries ++ current)) b)
    (hkey : After options.comparator
      ((blocks ++ pending.toList).flatMap TableBlock.entries ++ current) key) :
    ∃ blocks' b',
      (if b.pendingIndexEntry then
        b.addIndexEntry (options.comparator.findShortestSeparator b.lastKey key) else b) = b' ∧
      Builds crc snappy options blocks' none current (· = key) b' ∧
      blocks'.flatMap TableBlock.entries ++ current
        = (blocks ++ pending.toList).flatMap TableBlock.entries ++ current ∧
      blocks'.map TableBlock.entries = (blocks ++ pending.toList).map TableBlock.entries := by
  rw [h.pending_iff]
  cases pending with
  | none =>
    refine ⟨blocks, b, rfl, builds_next h ?_, by rw [Option.toList_none, List.append_nil],
      by rw [Option.toList_none, List.append_nil]⟩
    rintro _ rfl
    exact hkey
  | some t =>
    have hlast : options.comparator.compare t.lastKey key = .lt := by
      have hne := h.nonempty t (by simp)
      obtain ⟨e, he⟩ := List.getLast?_isSome.2 hne |> Option.isSome_iff_exists.1
      have hmem := List.mem_of_getLast? he
      rw [TableBlock.lastKey, he]
      exact hkey e (List.mem_append_left _ (List.mem_flatMap.2 ⟨t, by simp, hmem⟩))
    refine ⟨_, _, rfl, builds_addIndexEntry h hlast hkey, ?_, ?_⟩
    · rw [Option.toList_some, List.flatMap_append, List.flatMap_append, List.flatMap_singleton,
        List.flatMap_singleton]
    · rw [Option.toList_some, List.map_append, List.map_append, List.map_singleton,
        List.map_singleton]

/-- `Add`: one more entry behind those taken so far, and the data blocks are cut as
`dataBlocks` cuts them. -/
theorem builds_add {view : Bytes → Bytes} {n : ℕ} (hfits : FilterFits options view n)
    (h : Builds crc snappy options blocks pending current
      (After options.comparator
        ((blocks ++ pending.toList).flatMap TableBlock.entries ++ current)) b)
    (key value : Bytes)
    (hkey : After options.comparator
      ((blocks ++ pending.toList).flatMap TableBlock.entries ++ current) key)
    (hn : ((blocks ++ pending.toList).flatMap TableBlock.entries ++ current).length < n)
    (hweight : weight ((blocks ++ pending.toList).flatMap TableBlock.entries ++ current ++
      [(key, value)]) < 18446744073709551616) :
    ∃ blocks' pending' current' b', b.add crc snappy options key value = .ok b' ∧
      Builds crc snappy options blocks' pending' current' (After options.comparator
        ((blocks' ++ pending'.toList).flatMap TableBlock.entries ++ current')) b' ∧
      (blocks' ++ pending'.toList).flatMap TableBlock.entries ++ current'
        = (blocks ++ pending.toList).flatMap TableBlock.entries ++ current ++ [(key, value)] ∧
      ∀ entries, (blocks' ++ pending'.toList).map TableBlock.entries ++
          dataBlocks options current' entries
        = (blocks ++ pending.toList).map TableBlock.entries ++
          dataBlocks options current ((key, value) :: entries) := by
  obtain ⟨blocks₁, b₁, hb₁, h₁, heq₁, hmap₁⟩ := builds_closeIndex h hkey
  have h₂ := builds_withEntry h₁ value
  have heq₂ : blocks₁.flatMap TableBlock.entries ++ (current ++ [(key, value)])
      = (blocks ++ pending.toList).flatMap TableBlock.entries ++ current ++ [(key, value)] := by
    rw [← List.append_assoc, heq₁]
  have hestimate : (b₁.withEntry options key value).dataBlock
      = BlockBuilder.addAll options.blockRestartInterval {} (current ++ [(key, value)]) :=
    h₂.dataBlock
  rw [add]
  simp only [hb₁]
  split
  · rename_i hfull
    change options.blockSize ≤ (b₁.withEntry options key value).dataBlock.currentSizeEstimate
      at hfull
    rw [hestimate] at hfull
    obtain ⟨t, b', hflush, ht, h'⟩ := builds_flush hfits h₂ (by simp) (by
      rw [heq₂, List.length_append, List.length_singleton]
      exact hn) (by rwa [heq₂])
    have heq' : (blocks₁ ++ (some t).toList).flatMap TableBlock.entries ++ []
        = blocks₁.flatMap TableBlock.entries ++ (current ++ [(key, value)]) := by
      rw [Option.toList_some, List.flatMap_append, List.flatMap_singleton, ht, List.append_nil]
    refine ⟨blocks₁, some t, [], b', hflush, ?_, heq'.trans heq₂, fun entries => ?_⟩
    · rw [heq']
      exact h'
    · rw [dataBlocks, if_pos hfull, Option.toList_some, List.map_append, List.map_singleton, ht,
        hmap₁, List.append_assoc, List.singleton_append]
  · rename_i hroom
    change ¬ options.blockSize ≤ (b₁.withEntry options key value).dataBlock.currentSizeEstimate
      at hroom
    rw [hestimate] at hroom
    refine ⟨blocks₁, none, current ++ [(key, value)], _, rfl, ?_, ?_, fun entries => ?_⟩
    · rw [Option.toList_none, List.append_nil]
      exact h₂
    · rw [Option.toList_none, List.append_nil]
      exact heq₂
    · rw [dataBlocks, if_neg hroom, Option.toList_none, List.append_nil, hmap₁]

/-- **A run of `Add`** with ascending keys. -/
theorem builds_addAll {view : Bytes → Bytes} {n : ℕ} (hfits : FilterFits options view n)
    (entries : List (Bytes × Bytes)) : ∀ {blocks : List TableBlock} {pending : Option TableBlock}
      {current : List (Bytes × Bytes)} {b : TableBuilder},
    Builds crc snappy options blocks pending current (After options.comparator
      ((blocks ++ pending.toList).flatMap TableBlock.entries ++ current)) b →
    Cursor.Sorted options.comparator.compare
      ((blocks ++ pending.toList).flatMap TableBlock.entries ++ current ++ entries) →
    ((blocks ++ pending.toList).flatMap TableBlock.entries ++ current ++ entries).length ≤ n →
    weight ((blocks ++ pending.toList).flatMap TableBlock.entries ++ current ++ entries)
      < 18446744073709551616 →
    ∃ blocks' pending' current' b',
      entries.foldlM (fun b e => b.add crc snappy options e.1 e.2) b = .ok b' ∧
      Builds crc snappy options blocks' pending' current' (After options.comparator
        ((blocks' ++ pending'.toList).flatMap TableBlock.entries ++ current')) b' ∧
      (blocks' ++ pending'.toList).flatMap TableBlock.entries ++ current'
        = (blocks ++ pending.toList).flatMap TableBlock.entries ++ current ++ entries ∧
      (blocks' ++ pending'.toList).map TableBlock.entries ++ dataBlocks options current' []
        = (blocks ++ pending.toList).map TableBlock.entries ++
          dataBlocks options current entries := by
  induction entries with
  | nil =>
    intro blocks pending current b h _ _ _
    exact ⟨blocks, pending, current, b, rfl, h, (List.append_nil _).symm, rfl⟩
  | cons e entries ih =>
    intro blocks pending current b h hsorted hn hweight
    rw [List.append_cons] at hsorted hn hweight
    have hfront := (List.pairwise_append.1 hsorted).1
    have hafter := (List.pairwise_append.1 hfront).2.2
    rw [List.length_append, List.length_append, List.length_singleton] at hn
    have hw := hweight
    rw [weight_append] at hw
    obtain ⟨blocks', pending', current', b', hadd, h', heq, hcut⟩ := builds_add hfits h e.1 e.2
      (fun e' he' => hafter e' he' e (List.mem_singleton_self e)) (by omega)
      (lt_of_le_of_lt (Nat.le_add_right _ _) hw)
    rw [← heq] at hsorted hweight
    have hn' : ((blocks' ++ pending'.toList).flatMap TableBlock.entries ++ current' ++
        entries).length ≤ n := by
      rw [heq, List.length_append, List.length_append, List.length_singleton]
      omega
    obtain ⟨blocks'', pending'', current'', b'', hrun, h'', heq'', hcut''⟩ :=
      ih h' hsorted hn' hweight
    refine ⟨blocks'', pending'', current'', b'', ?_, h'', ?_, hcut''.trans (hcut entries)⟩
    · rw [List.foldlM_cons, hadd, ok_bind, hrun]
    · rw [heq'', heq, List.append_assoc]
      rfl

omit [options.comparator.Lawful] in
theorem writeRawBlock_grows (crc : Crc32c) (b : TableBuilder) (contents : Bytes) (type : CompressionType) :
    b.file.length + contents.length + kBlockTrailerSize
      ≤ (b.writeRawBlock crc contents type).1.file.length := by
  have htrailer : (blockTrailer crc contents type).length = kBlockTrailerSize := rfl
  rw [writeRawBlock]
  simp only [List.length_append, htrailer, le_refl]

omit [options.comparator.Lawful] in
theorem writeBlock_grows (crc : Crc32c) (snappy : Snappy) (options : Options) (b : TableBuilder) (raw : Bytes) :
    b.file.length ≤ (b.writeBlock crc snappy options raw).1.file.length := by
  have h (contents : Bytes) (type : CompressionType) :
      b.file.length ≤ (b.writeRawBlock crc contents type).1.file.length :=
    (by omega : b.file.length ≤ b.file.length + contents.length + kBlockTrailerSize).trans
      (writeRawBlock_grows crc b contents type)
  rw [writeBlock]
  split
  · exact h _ _
  · split
    · split
      · exact h _ _
      · exact h _ _
    · exact h _ _

/-- What `writeFilterBlock` does, if the file stays short. -/
structure WritesFilter (crc : Crc32c) (snappy : Snappy) (options : Options)
    (groups : List (ℕ × List Bytes)) (b : TableBuilder)
    (r : TableBuilder × Option (FilterPolicy × BlockHandle)) : Prop where
  state : ∃ more, r.1 = { b with file := b.file ++ more, offset := (b.file ++ more).length }
  filter : match options.filterPolicy with
    | none => r.2 = none
    | some policy => ∃ handle contents, r.2 = some (policy, handle) ∧
        StoredAt crc snappy r.1.file handle contents ∧ contents.length ≤ r.1.file.length ∧
        buildFilterBlock policy groups = .ok contents

omit [options.comparator.Lawful] in
/-- The filter block is written, with the filters of all groups. -/
theorem writeFilterBlock_spec (crc : Crc32c) (snappy : Snappy) {view : Bytes → Bytes} {n : ℕ} {groups : List (ℕ × List Bytes)}
    (hfits : FilterFits options view n) (h : Filters options groups b)
    (hoffset : b.offset = b.file.length) (hn : (groups.map fun g => g.2.length).sum ≤ n)
    (hsorted : (groups.map Prod.fst).Pairwise (· ≤ ·)) :
    ∃ r, b.writeFilterBlock crc = .ok r ∧ b.file.length ≤ r.1.file.length ∧
      (r.1.file.length < 4294967296 → WritesFilter crc snappy options groups b r) := by
  rw [Filters] at h
  rw [writeFilterBlock]
  cases hpolicy : options.filterPolicy with
  | none =>
    rw [hpolicy] at h
    have hnone : b.filterBlock = none := h
    rw [hnone]
    refine ⟨(b, none), rfl, le_rfl, fun _ => ⟨⟨[], ?_⟩, ?_⟩⟩
    · simp only [List.append_nil, ← hoffset]
    · rw [hpolicy]
  | some policy =>
    rw [hpolicy] at h
    obtain ⟨f, hf, hrun⟩ := h
    obtain ⟨fits, hsound, hle⟩ := hfits policy hpolicy
    obtain ⟨contents, hbuild, -⟩ := buildFilterBlock_reads hsound groups
      (fun m hm => hle m (hm.trans hn)) hsorted
    have hfinish := hbuild
    rw [buildFilterBlock, hrun, ok_bind] at hfinish
    rw [hf]
    simp only
    rw [hfinish, ok_bind]
    have hgrows := writeRawBlock_grows crc b contents .noCompression
    refine ⟨_, rfl, by simp only; omega, fun hsmall => ?_⟩
    simp only at hsmall
    have hwrites : Writes crc snappy contents b (b.writeRawBlock crc contents .noCompression) :=
      writeRawBlock_writes hoffset (by omega) le_rfl (Or.inl ⟨rfl, rfl⟩)
    refine ⟨hwrites.state, ?_⟩
    rw [hpolicy]
    exact ⟨_, contents, rfl, hwrites.stored, by simp only; omega, hbuild⟩

theorem length_literal_filter : (literal "filter.").length = 7 := by
  rw [literal, List.length_map]
  rfl

omit [options.comparator.Lawful] in
theorem length_metaindex_le {filter : Option (FilterPolicy × BlockHandle)} {m : ℕ}
    (h : ∀ policy handle, filter = some (policy, handle) →
      policy.name.length ≤ m ∧ handle.Fits) (interval : ℕ) :
    (buildBlock interval (metaindexEntries filter)).length ≤ m + 54 := by
  have := length_buildBlock_le interval (metaindexEntries filter)
  cases filter with
  | none =>
    simp only [metaindexEntries, List.map_nil, List.sum_nil] at this
    exact this.trans (by omega)
  | some p =>
    obtain ⟨policy, handle⟩ := p
    obtain ⟨hname, hfits⟩ := h policy handle rfl
    have hhandle := BlockHandle.length_encodeTo_le hfits
    simp only [metaindexEntries, List.map_cons, List.map_nil, List.sum_cons, List.sum_nil,
      filterKey, List.length_append, length_literal_filter] at this
    simp only [metaindexEntries, filterKey]
    omega

end Builds

/-! ## The index block -/

/-- The index block has the last keys of the data blocks at most, and their handles. -/
theorem length_index_le {blocks : List TableBlock} (hfits : ∀ t ∈ blocks, t.handle.Fits)
    (hlen : ∀ t ∈ blocks, t.separator.length ≤ t.lastKey.length) :
    (buildBlock 1 (blocks.map TableBlock.indexEntry)).length
      ≤ ((blocks.map TableBlock.entries).map fun group => lastKeyLength group + 39).sum + 8 := by
  have hsum : ((blocks.map TableBlock.indexEntry).map fun e => e.1.length + e.2.length + 19).sum
      ≤ ((blocks.map TableBlock.entries).map fun group => lastKeyLength group + 39).sum := by
    rw [List.map_map, List.map_map]
    refine List.sum_le_sum fun t ht => ?_
    have hkey : lastKeyLength t.entries = t.lastKey.length := rfl
    have hsep := hlen t ht
    have hhandle := BlockHandle.length_encodeTo_le (hfits t ht)
    simp only [Function.comp_apply, TableBlock.indexEntry]
    omega
  have := length_buildBlock_le 1 (blocks.map TableBlock.indexEntry)
  omega

/-- `Flush` at the end of a run. -/
theorem builds_lastFlush {crc : Crc32c} {snappy : Snappy} {options : Options}
    {blocks : List TableBlock} {pending : Option TableBlock} {current : List (Bytes × Bytes)}
    {next : Bytes → Prop} {b : TableBuilder} {view : Bytes → Bytes} {n : ℕ}
    (hfits : FilterFits options view n)
    (h : Builds crc snappy options blocks pending current next b)
    (hn : ((blocks ++ pending.toList).flatMap TableBlock.entries ++ current).length ≤ n)
    (hweight : weight ((blocks ++ pending.toList).flatMap TableBlock.entries ++ current)
      < 18446744073709551616) :
    ∃ pending' b', b.flush crc snappy options = .ok b' ∧
      Builds crc snappy options blocks pending' [] next b' ∧
      (blocks ++ pending'.toList).flatMap TableBlock.entries
        = (blocks ++ pending.toList).flatMap TableBlock.entries ++ current ∧
      (blocks ++ pending'.toList).map TableBlock.entries
        = (blocks ++ pending.toList).map TableBlock.entries ++ dataBlocks options current [] := by
  by_cases hne : current = []
  · subst hne
    refine ⟨pending, b, ?_, h, (List.append_nil _).symm, (List.append_nil _).symm⟩
    rw [flush, if_pos (by rw [h.dataBlock]; rfl)]
  · cases pending with
    | some t => exact absurd (h.pending_spec t rfl).2.2 hne
    | none =>
      rw [Option.toList_none, List.append_nil] at hn hweight ⊢
      obtain ⟨t, b', hflush, ht, h'⟩ := builds_flush hfits h hne hn hweight
      refine ⟨some t, b', hflush, h', ?_, ?_⟩
      · rw [Option.toList_some, List.flatMap_append, List.flatMap_singleton, ht]
      · rw [Option.toList_some, List.map_append, List.map_singleton, ht, dataBlocks,
          if_neg (by rwa [List.isEmpty_iff])]

/-- The data blocks, all of them in the index block. -/
def closePending (options : Options) (blocks : List TableBlock) (pending : Option TableBlock) :
    List TableBlock :=
  blocks ++ (pending.map fun t =>
    { t with separator := options.comparator.findShortSuccessor t.lastKey }).toList

theorem closePending_map {α : Type} {options : Options} {blocks : List TableBlock}
    {pending : Option TableBlock} (f : TableBlock → α)
    (hf : ∀ t s, f { t with separator := s } = f t) :
    (closePending options blocks pending).map f = (blocks ++ pending.toList).map f := by
  cases pending with
  | none => rfl
  | some t =>
    simp only [closePending, Option.map_some, Option.toList_some, List.map_append,
      List.map_singleton]
    rw [hf]

theorem mem_closePending {options : Options} {blocks : List TableBlock}
    {pending : Option TableBlock} {t : TableBlock} (ht : t ∈ closePending options blocks pending) :
    t ∈ blocks ∨ ∃ t₀, pending = some t₀ ∧
      t = { t₀ with separator := options.comparator.findShortSuccessor t₀.lastKey } := by
  rcases List.mem_append.1 ht with ht | ht
  · exact Or.inl ht
  · cases pending with
    | none => cases ht
    | some t₀ =>
      rw [Option.map_some, Option.toList_some, List.mem_singleton] at ht
      exact Or.inr ⟨t₀, rfl, ht⟩

section Close

variable {crc : Crc32c} {snappy : Snappy} {options : Options} {blocks : List TableBlock}
  {pending : Option TableBlock} {current : List (Bytes × Bytes)} {next : Bytes → Prop}
  {b : TableBuilder}

/-- What holds of the closed blocks because it does of the written ones, whatever their keys
in the index are. -/
theorem forall_closePending {P : TableBlock → Prop} (h : ∀ t ∈ blocks ++ pending.toList, P t)
    (hP : ∀ t s, P t → P { t with separator := s }) :
    ∀ t ∈ closePending options blocks pending, P t := by
  intro t ht
  rcases mem_closePending ht with ht | ⟨t₀, rfl, rfl⟩
  · exact h t (List.mem_append_left _ ht)
  · exact hP t₀ _ (h t₀ (by simp))

theorem closePending_entries : (closePending options blocks pending).flatMap TableBlock.entries
    = (blocks ++ pending.toList).flatMap TableBlock.entries := by
  rw [List.flatMap_def, List.flatMap_def, closePending_map _ fun _ _ => rfl]

/-- The keys in the index are between the blocks, and no longer than the last keys. -/
theorem closePending_separator [options.comparator.Lawful] [options.comparator.Short]
    (h : Builds crc snappy options blocks pending current next b) {t : TableBlock}
    (ht : t ∈ closePending options blocks pending) :
    (options.comparator.compare t.lastKey t.separator).isLE ∧
      t.separator.length ≤ t.lastKey.length := by
  rcases mem_closePending ht with ht | ⟨t₀, rfl, rfl⟩
  · have hsep := h.separated t ht
    rw [hsep.separator_eq]
    exact ⟨Comparator.Lawful.le_separator (Ordering.isLE_of_eq_lt hsep.lt),
      Comparator.Short.separator_length _ _⟩
  · exact ⟨Comparator.Lawful.le_successor _, Comparator.Short.successor_length _⟩

theorem closePending_separated (h : Builds crc snappy options blocks pending current next b) :
    (closePending options blocks pending).Pairwise fun t t' => t.Separated options.comparator ∧
      ∀ e ∈ t'.entries, (options.comparator.compare t.limit e.1).isLE := by
  have hpairs : (blocks ++ pending.toList).Pairwise fun t t' =>
      t ∈ blocks → t.Separated options.comparator ∧
        ∀ e ∈ t'.entries, (options.comparator.compare t.limit e.1).isLE :=
    h.limit_le.imp fun hle ht => ⟨h.separated _ ht, hle⟩
  have hfront := List.pairwise_append.1 hpairs
  refine List.pairwise_append.2 ⟨?_, ?_, fun t ht t' ht' => ?_⟩
  · exact hfront.1.imp_of_mem fun ht _ h => h ht
  · cases pending with
    | none => exact List.Pairwise.nil
    | some t => exact List.pairwise_singleton _ _
  · cases pending with
    | none => cases ht'
    | some t₀ =>
      rw [Option.map_some, Option.toList_some, List.mem_singleton] at ht'
      subst ht'
      exact hfront.2.2 t ht t₀ (by simp) ht

/-- The filter block is told of the blocks in ascending order. -/
theorem pairwise_groups (h : Builds crc snappy options blocks pending current next b) :
    (((blocks ++ pending.toList).map TableBlock.filterEntry ++ [(b.offset, [])]).map
      Prod.fst).Pairwise (· ≤ ·) := by
  rw [List.map_append, map_fst_filterEntry]
  refine List.pairwise_append.2 ⟨h.offsets.imp Nat.le_of_lt, List.pairwise_singleton _ _,
    fun o ho o' ho' => ?_⟩
  obtain ⟨t, ht, rfl⟩ := List.mem_map.1 ho
  rw [List.map_singleton, List.mem_singleton] at ho'
  rw [ho']
  exact (h.offset_lt t ht).le

/-- The last index entry, made by a builder that has written other blocks in the meantime. -/
theorem indexBlock_closePending (h : Builds crc snappy options blocks pending current next b)
    {b' : TableBuilder} {file : Bytes} {offset : ℕ} (hb' : b' = { b with file, offset }) :
    (if b'.pendingIndexEntry then
        b'.addIndexEntry (options.comparator.findShortSuccessor b'.lastKey) else b').indexBlock
      = BlockBuilder.addAll 1 {}
          ((closePending options blocks pending).map TableBlock.indexEntry) := by
  subst hb'
  simp only
  rw [h.pending_iff]
  cases pending with
  | none =>
    rw [closePending, Option.map_none, Option.toList_none, List.append_nil]
    exact h.indexBlock
  | some t =>
    obtain ⟨hhandle, hlast, -⟩ := h.pending_spec t rfl
    rw [Option.isSome_some, if_pos rfl, addIndexEntry, closePending, Option.map_some,
      Option.toList_some, List.map_append, List.map_singleton, BlockBuilder.addAll,
      List.foldl_append, h.indexBlock, hhandle, hlast]
    rfl

/-- The handle of a filter block that was written fits, and the name is the policy's. -/
theorem WritesFilter.fits {groups : List (ℕ × List Bytes)}
    {r : TableBuilder × Option (FilterPolicy × BlockHandle)}
    (h : WritesFilter crc snappy options groups b r)
    (hfile : r.1.file.length < 18446744073709551616) {policy : FilterPolicy}
    {handle : BlockHandle} (hsome : r.2 = some (policy, handle)) :
    policy.name.length ≤ nameLength options ∧ handle.Fits := by
  have hfilter := h.filter
  split at hfilter
  · rw [hfilter] at hsome
    cases hsome
  · rename_i policy' hpolicy
    obtain ⟨handle', contents, hsome', hat, -, -⟩ := hfilter
    rw [hsome'] at hsome
    cases hsome
    rw [nameLength, hpolicy]
    exact ⟨le_rfl, hat.fits hfile⟩

end Close

/-- `Finish`: the file has the layout of the blocks that were written, the last of them by
`Finish` itself. -/
theorem finish_layout {crc : Crc32c} {snappy : Snappy} {options : Options}
    [options.comparator.Lawful] [options.comparator.Short]
    {blocks : List TableBlock} {pending : Option TableBlock} {current : List (Bytes × Bytes)}
    {next : Bytes → Prop} {b : TableBuilder} {view : Bytes → Bytes} {n : ℕ}
    (hfits : FilterFits options view n)
    (h : Builds crc snappy options blocks pending current next b)
    (hn : ((blocks ++ pending.toList).flatMap TableBlock.entries ++ current).length ≤ n)
    (hfit : TableFits options ((blocks ++ pending.toList).flatMap TableBlock.entries ++ current))
    (hcut : (blocks ++ pending.toList).map TableBlock.entries ++ dataBlocks options current []
      = dataBlocks options []
          ((blocks ++ pending.toList).flatMap TableBlock.entries ++ current)) :
    ∃ file, b.finish crc snappy options = .ok file ∧ (file.length < 4294967296 →
      ∃ blocks' footer, TableLayout crc snappy options
        ((blocks ++ pending.toList).flatMap TableBlock.entries ++ current) file blocks' footer) := by
  have hweight := hfit.file
  obtain ⟨pending', b₁, hflush, h₁, heq, hmap⟩ := builds_lastFlush hfits h hn (by omega)
  rw [← hmap] at hcut
  rw [← heq] at hn hfit hcut ⊢
  have hgroups : (((blocks ++ pending'.toList).map TableBlock.filterEntry ++ [(b₁.offset, [])]).map
      fun g : ℕ × List Bytes => g.2.length).sum ≤ n := by
    have := sum_filterEntry (blocks ++ pending'.toList) b₁.offset []
    rw [List.append_nil] at this
    exact this.trans_le hn
  have hsorted := pairwise_groups h₁
  obtain ⟨⟨b₂, filter⟩, hfilter, hgrow₂, hwritesFilter⟩ :=
    writeFilterBlock_spec crc snappy hfits h₁.filters h₁.offset hgroups hsorted
  have hstored : ∀ t ∈ closePending options blocks pending', StoredAt crc snappy b₁.file t.handle
      (buildBlock options.blockRestartInterval t.entries) :=
    forall_closePending h₁.stored fun _ _ h => h
  rw [finish, hflush, ok_bind, hfilter, ok_bind]
  simp only
  obtain ⟨⟨b₃, metaHandle⟩, hmeta⟩ : ∃ r, b₂.writeBlock crc snappy options
    (buildBlock options.blockRestartInterval (metaindexEntries filter)) = r := ⟨_, rfl⟩
  rw [hmeta]
  simp only
  obtain ⟨b₄, hb₄⟩ : ∃ b₄, (if b₃.pendingIndexEntry then
    b₃.addIndexEntry (options.comparator.findShortSuccessor b₃.lastKey) else b₃) = b₄ := ⟨_, rfl⟩
  rw [hb₄]
  obtain ⟨⟨b₅, indexHandle⟩, hindex⟩ : ∃ r, b₄.writeBlock crc snappy options
    b₄.indexBlock.finish = r := ⟨_, rfl⟩
  rw [hindex]
  refine ⟨_, rfl, fun hsmall => ⟨closePending options blocks pending',
    { metaindexHandle := metaHandle, indexHandle }, ?_⟩⟩
  have hfile₄ : b₄.file = b₃.file := by
    rw [← hb₄]
    split <;> rfl
  have hgrow₃ := writeBlock_grows crc snappy options b₂
    (buildBlock options.blockRestartInterval (metaindexEntries filter))
  have hgrow₅ := writeBlock_grows crc snappy options b₄
    b₄.indexBlock.finish
  rw [hmeta] at hgrow₃
  rw [hindex, hfile₄] at hgrow₅
  rw [List.length_append] at hsmall
  simp only at hgrow₂ hgrow₃ hgrow₅ hsmall
  have hwrites₂ := hwritesFilter (by simp only; omega)
  have hfits₂ (policy : FilterPolicy) (handle : BlockHandle) (hsome : filter = some (policy, handle)) :=
    hwrites₂.fits (by simp only; omega) hsome
  obtain ⟨⟨more₂, hstate₂⟩, hfilter₂⟩ := hwrites₂
  simp only at hstate₂ hfilter₂
  have hname := hfit.metaindexBlock
  have hmetaLength := length_metaindex_le hfits₂ options.blockRestartInterval
  -- the metaindex block
  have hwrites₃ : Writes crc snappy
      (buildBlock options.blockRestartInterval (metaindexEntries filter)) b₂ (b₃, metaHandle) := by
    rw [← hmeta]
    exact writeBlock_writes options (by rw [hstate₂]) (by rw [kBlockTrailerSize]; omega)
  obtain ⟨⟨more₃, hstate₃⟩, hat₃, hoffset₃, -, -⟩ := hwrites₃
  simp only at hstate₃ hat₃ hoffset₃
  -- the index block
  have hindex₄ : b₄.indexBlock = BlockBuilder.addAll 1 {}
      ((closePending options blocks pending').map TableBlock.indexEntry) := by
    rw [← hb₄]
    exact indexBlock_closePending h₁ (by rw [hstate₃, hstate₂])
  have hoffset₄ : b₄.offset = b₄.file.length := by
    rw [← hb₄, hstate₃]
    split <;> rfl
  have hraw : b₄.indexBlock.finish
      = buildBlock 1 ((closePending options blocks pending').map TableBlock.indexEntry) := by
    rw [hindex₄]
    rfl
  have hblocks : (closePending options blocks pending').map TableBlock.entries
      = (blocks ++ pending'.toList).map TableBlock.entries := closePending_map _ fun _ _ => rfl
  have hindexLength := length_index_le
    (fun t ht => (hstored t ht).fits (by omega)) fun t ht => (closePending_separator h₁ ht).2
  have hlastKeys := hfit.indexBlock
  rw [← hcut, ← hblocks] at hlastKeys
  have hwrites₅ : Writes crc snappy
      (buildBlock 1 ((closePending options blocks pending').map TableBlock.indexEntry)) b₄
      (b₅, indexHandle) := by
    rw [← hindex, ← hraw]
    exact writeBlock_writes options hoffset₄ (by rw [hraw, hfile₄, kBlockTrailerSize]; omega)
  obtain ⟨⟨more₅, hstate₅⟩, hat₅, -, -, -⟩ := hwrites₅
  simp only at hstate₅ hat₅
  -- every block stays where it is
  have hfile₂ : b₂.file = b₁.file ++ more₂ := by rw [hstate₂]
  have hfile₃ : b₃.file = b₂.file ++ more₃ := by rw [hstate₃]
  have hfile₅ : b₅.file = b₃.file ++ more₅ := by rw [hstate₅, hfile₄]
  constructor
  case entries_eq => exact closePending_entries
  case blocks_eq => exact hblocks.trans hcut
  case nonempty => exact forall_closePending h₁.nonempty fun _ _ h => h
  case stored =>
    intro t ht
    rw [hfile₅, hfile₃, hfile₂]
    exact ((((hstored t ht).append _).append _).append _).append _
  case le_separator => exact fun t ht => (closePending_separator h₁ ht).1
  case separator_length => exact fun t ht => (closePending_separator h₁ ht).2
  case separated => exact closePending_separated h₁
  case offsets =>
    rw [closePending_map (fun t => t.handle.offset) fun _ _ => rfl]
    exact h₁.offsets
  case offset_lt =>
    intro t ht
    have hlt : t.handle.offset < b₁.offset :=
      forall_closePending h₁.offset_lt (fun _ _ h => h) t ht
    rw [h₁.offset] at hlt
    show t.handle.offset < metaHandle.offset
    rw [hoffset₃]
    exact hlt.trans_le hgrow₂
  case footer_eq => exact ⟨b₅.file, rfl⟩
  case index => exact hat₅.append _
  case filter =>
    refine ⟨filter, ?_, ?_⟩
    · rw [hfile₅]
      exact (hat₃.append _).append _
    · split at hfilter₂
      · exact hfilter₂
      · obtain ⟨handle, contents, hsome, hat, hle, hbuild⟩ := hfilter₂
        have hmap : (closePending options blocks pending').map TableBlock.filterEntry
            = (blocks ++ pending'.toList).map TableBlock.filterEntry :=
          closePending_map _ fun _ _ => rfl
        rw [hmap]
        refine ⟨handle, contents, b₁.offset, hsome, ?_, ?_, hbuild, hsorted⟩
        · rw [hfile₅, hfile₃]
          exact ((hat.append _).append _).append _
        · simp only [List.length_append]
          omega

end TableBuilder

/-- **Every table that is built** from ascending keys whose blocks fit into the format has
such a layout of its entries, as long as the file is shorter than four gigabytes. -/
theorem buildTable_layout (crc : Crc32c) (snappy : Snappy) (options : Options)
    [options.comparator.Lawful] [options.comparator.Short] {view : Bytes → Bytes}
    {entries : List (Bytes × Bytes)} (hfits : FilterFits options view entries.length)
    (hsorted : Cursor.Sorted options.comparator.compare entries)
    (hfit : TableFits options entries) :
    ∃ file, buildTable crc snappy options entries = .ok file ∧ (file.length < 4294967296 →
      ∃ blocks footer, TableLayout crc snappy options entries file blocks footer) := by
  obtain ⟨b, hnew, hb⟩ := TableBuilder.builds_new crc snappy options
  have hlight : weight (([] ++ (none : Option TableBlock).toList).flatMap TableBlock.entries ++ [] ++
      entries) < 18446744073709551616 := by
    have := hfit.file
    simp only [Option.toList_none, List.append_nil, List.flatMap_nil, List.nil_append]
    omega
  obtain ⟨blocks, pending, current, b', hrun, hb', heq, hcut⟩ :=
    TableBuilder.builds_addAll hfits entries hb hsorted le_rfl hlight
  simp only [Option.toList_none, List.append_nil, List.flatMap_nil, List.nil_append] at heq
  simp only [Option.toList_none, List.append_nil, List.map_nil, List.nil_append] at hcut
  rw [← heq] at hfit hcut ⊢
  have hn : ((blocks ++ pending.toList).flatMap TableBlock.entries ++ current).length
      ≤ entries.length := by rw [heq]
  obtain ⟨file, hfinish, hlayout⟩ := TableBuilder.finish_layout hfits hb' hn hfit hcut
  refine ⟨file, ?_, hlayout⟩
  rw [heq, buildTable, hnew, ok_bind, hrun, ok_bind, hfinish]

end PackedFilters.LevelDb
