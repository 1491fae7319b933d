import PackedFilters.LevelDb.FilterPolicy

/-!
# The filter block of a table

`table/filter_block.cc`: one filter for every two kilobytes of data blocks, and behind
the filters their offsets.

A data block belongs to the two kilobytes its offset lies in, so the keys of several small
blocks share a filter and the keys of a large block are followed by filters without keys.  The
builder keeps the keys since the last filter in one string; `Represents` says which lists of
keys its filters and that string stand for, and every call of the builder keeps it.  The
reader is asked with the offset of a data block and looks in one filter only, so what carries
the result is that the keys of a block and its offset meet in the same two kilobytes.

* `FilterBlockBuilder`, `FilterBlockReader` — the builder's state and the reader's;
* `Represents` — which keys the filters of a builder stand for, kept by every call
  (`represents_startBlock`, `represents_addKeys`);
* `buildFilterBlock_reads` — after any run of the builder the reader has every key of
  every block, and so it has every version of every user key
  (`internalFilterBlock_mayMatch`);
* `keyMayMatch_safe_iff` — on bytes that no builder wrote the reader stays inside them
  unless they claim a shift of 64 or more.
-/

namespace PackedFilters.LevelDb

open LittleEndian

/-- `kFilterBaseLg`: a filter is for the blocks that begin in the same 2^11 bytes. -/
def kFilterBaseLg : ℕ := 11

/-- `kFilterBase`: the bytes of the file that share a filter. -/
def kFilterBase : ℕ := 1 <<< kFilterBaseLg

/-! ## The builder -/

/-- `FilterBlockBuilder`: the keys that wait for their filter, and the filters written so far
with their offsets. -/
structure FilterBlockBuilder where
  /-- The keys of the next filter, one behind the other. -/
  keys : Bytes := []
  /-- Where each of them starts. -/
  start : List ℕ := []
  result : Bytes := []
  filterOffsets : List UInt32 := []

namespace FilterBlockBuilder

/-- `tmp_keys_`: the slices between the starts. -/
def tmpKeys (keys : Bytes) : List ℕ → List Bytes
  | [] => []
  | [s] => [(keys.drop s).take (keys.length - s)]
  | s :: s' :: rest => (keys.drop s).take (s' - s) :: tmpKeys keys (s' :: rest)

/-- `GenerateFilter`: a filter of the pending keys behind those written so far, or only its
offset if no key is pending.  The number of keys is cast to the `int` that `CreateFilter`
takes; the policies are sound for counts that the cast keeps. -/
def generateFilter (policy : FilterPolicy) (b : FilterBlockBuilder) : Checked FilterBlockBuilder :=
  let numKeys := b.start.length
  if numKeys = 0 then
    .ok { b with filterOffsets := b.filterOffsets ++ [UInt32.ofNat b.result.length] }
  else do
    let tmpKeys := tmpKeys b.keys b.start
    let filterOffsets := b.filterOffsets ++ [UInt32.ofNat b.result.length]
    let result ← policy.createFilter tmpKeys b.result
    .ok { keys := [], start := [], result, filterOffsets }

/-- `GenerateFilter`, `n` times: one filter of the pending keys, and filters without keys behind
it. -/
def generateFilters (policy : FilterPolicy) : ℕ → FilterBlockBuilder → Checked FilterBlockBuilder
  | 0, b => .ok b
  | n + 1, b => do
    let b ← generateFilter policy b
    generateFilters policy n b

/-- `StartBlock`.  Every round of its loop adds one offset, so it has as many rounds as
offsets are missing. -/
def startBlock (policy : FilterPolicy) (b : FilterBlockBuilder) (blockOffset : ℕ) :
    Checked FilterBlockBuilder :=
  let filterIndex := blockOffset / kFilterBase
  generateFilters policy (filterIndex - b.filterOffsets.length) b

/-- `AddKey`: one more pending key. -/
def addKey (b : FilterBlockBuilder) (key : Bytes) : FilterBlockBuilder :=
  { b with start := b.start ++ [b.keys.length], keys := b.keys ++ key }

/-- `Finish`: the last filter, the offsets of all filters, where these start, and the shift
that takes a block's offset to its filter. -/
def finish (policy : FilterPolicy) (b : FilterBlockBuilder) : Checked Bytes := do
  let b ← if b.start ≠ [] then generateFilter policy b else .ok b
  let arrayOffset := UInt32.ofNat b.result.length
  let result := b.filterOffsets.foldl appendFixed32 b.result
  let result := appendFixed32 result arrayOffset
  .ok (result ++ [UInt8.ofNat kFilterBaseLg])

/-- A data block: `StartBlock` with its offset, and `AddKey` for each of its keys. -/
def addBlock (policy : FilterPolicy) (b : FilterBlockBuilder) (block : ℕ × List Bytes) :
    Checked FilterBlockBuilder := do
  let b ← startBlock policy b block.1
  .ok (block.2.foldl addKey b)

end FilterBlockBuilder

/-- A whole run, `(StartBlock AddKey*)* Finish`. -/
def buildFilterBlock (policy : FilterPolicy) (blocks : List (ℕ × List Bytes)) : Checked Bytes := do
  let b ← blocks.foldlM (FilterBlockBuilder.addBlock policy) {}
  b.finish policy

/-! ## The reader -/

/-- `FilterBlockReader`; `offset` is `offset_ - data_`. -/
structure FilterBlockReader where
  data : Bytes := []
  offset : ℕ := 0
  num : ℕ := 0
  baseLg : ℕ := 0

/-- The `size_t` that a `char`, which is signed, is converted to. -/
def charToSize (b : UInt8) : ℕ :=
  if b.toNat < 128 then b.toNat else 18446744073709551360 + b.toNat

namespace FilterBlockReader

/-- The constructor: where the offsets start and how many there are, from the last five
bytes.  Bytes that cannot be a filter block leave no filters, but may leave the shift. -/
def new (contents : Bytes) : Checked FilterBlockReader :=
  let n := contents.length
  if n < 5 then .ok {}
  else do
    let baseLg ← readByte contents (n - 1)
    let lastWord ← decodeFixed32 contents (n - 5)
    let r : FilterBlockReader := { baseLg := charToSize baseLg }
    if n - 5 < lastWord.toNat then .ok r
    else
      let num := (n - 5 - lastWord.toNat) / 4
      .ok { r with data := contents, offset := lastWord.toNat, num }

/-- `KeyMayMatch`: what the filter of the block at `blockOffset` answers.  Without such a
filter, or with offsets that make no sense, the key may match. -/
def keyMayMatch (policy : FilterPolicy) (r : FilterBlockReader) (blockOffset : ℕ) (key : Bytes) :
    Checked Bool :=
  if 64 ≤ r.baseLg then .error (.shiftOutside r.baseLg)
  else
    let index := blockOffset >>> r.baseLg
    if index < r.num then do
      let start ← decodeFixed32 r.data (r.offset + index * 4)
      let limit ← decodeFixed32 r.data (r.offset + index * 4 + 4)
      if start.toNat ≤ limit.toNat ∧ limit.toNat ≤ r.offset then
        policy.keyMayMatch key ((r.data.drop start.toNat).take (limit.toNat - start.toNat))
      else if start = limit then .ok false
      else .ok true
    else .ok true

end FilterBlockReader

/-! ## What a builder stands for -/

namespace FilterBlockBuilder

theorem tmpKeys_concat (keys key : Bytes) (start : List ℕ) (h : ∀ s ∈ start, s ≤ keys.length) :
    tmpKeys (keys ++ key) (start ++ [keys.length]) = tmpKeys keys start ++ [key] := by
  induction start with
  | nil => simp [tmpKeys]
  | cons s start ih =>
    have hs := h s List.mem_cons_self
    have ih := ih fun s' hs' => h s' (List.mem_cons_of_mem _ hs')
    cases start with
    | nil =>
      simp only [List.cons_append, List.nil_append, tmpKeys]
      rw [List.drop_append_of_le_length hs, List.take_left' (List.length_drop ..)]
      simp
    | cons s' start =>
      have hs' := h s' (List.mem_cons_of_mem _ List.mem_cons_self)
      simp only [List.cons_append, tmpKeys] at ih ⊢
      rw [ih, List.drop_append_of_le_length hs,
        List.take_append_of_le_length (by rw [List.length_drop]; omega)]

/-- Where the filters start. -/
def offsetsOf (filters : List Bytes) : List ℕ :=
  (List.range filters.length).map fun i => (filters.take i).flatten.length

theorem offsetsOf_concat (filters : List Bytes) (filter : Bytes) :
    offsetsOf (filters ++ [filter]) = offsetsOf filters ++ [filters.flatten.length] := by
  rw [offsetsOf, offsetsOf, List.length_append, List.length_singleton, List.range_succ,
    List.map_append, List.map_singleton, List.take_left]
  congr 1
  refine List.map_congr_left fun i hi => ?_
  rw [List.take_append_of_le_length (List.mem_range.1 hi).le]

/-- One filter for a group of keys: none at all for the empty group. -/
def FilterOf (policy : FilterPolicy) (view : Bytes → Bytes) (group : List Bytes) (filter : Bytes) :
    Prop :=
  if group = [] then filter = [] else policy.Covers view group filter

/-- A builder whose finished filters are those of `groups` and whose next one is to get the
keys `pending`. -/
structure Represents (policy : FilterPolicy) (view : Bytes → Bytes) (groups : List (List Bytes))
    (pending : List Bytes) (b : FilterBlockBuilder) : Prop where
  keys_eq : tmpKeys b.keys b.start = pending
  start_le : ∀ s ∈ b.start, s ≤ b.keys.length
  start_length : b.start.length = pending.length
  filters : ∃ filters : List Bytes, b.result = filters.flatten ∧
    b.filterOffsets = (offsetsOf filters).map UInt32.ofNat ∧
    List.Forall₂ (FilterOf policy view) groups filters

variable {policy : FilterPolicy} {view : Bytes → Bytes} {fits : ℕ → Prop}
  {groups : List (List Bytes)} {pending : List Bytes} {b : FilterBlockBuilder}

theorem filterOf_mayMatch {group : List Bytes} {filter key key' : Bytes}
    (h : FilterOf policy view group filter) (hkey : key' ∈ group) (hview : view key' = view key) :
    policy.keyMayMatch key filter = .ok true := by
  rw [FilterOf, if_neg (List.ne_nil_of_mem hkey)] at h
  exact h.mayMatch key (hview ▸ List.mem_map_of_mem hkey)

theorem filterOf_isOk (hp : policy.Sound view fits) {group : List Bytes} {filter : Bytes}
    (h : FilterOf policy view group filter) (key : Bytes) :
    ∃ answer, policy.keyMayMatch key filter = .ok answer := by
  rw [FilterOf] at h
  split at h
  · exact h ▸ hp.empty key
  · exact h.isOk key

theorem represents_empty : Represents policy view [] [] {} where
  keys_eq := rfl
  start_le := by simp
  start_length := rfl
  filters := ⟨[], rfl, rfl, .nil⟩

theorem Represents.length (h : Represents policy view groups pending b) :
    b.filterOffsets.length = groups.length := by
  obtain ⟨filters, -, hoffsets, hfilters⟩ := h.filters
  rw [hoffsets, List.length_map, offsetsOf, List.length_map, List.length_range, hfilters.length_eq]

theorem represents_addKey (h : Represents policy view groups pending b) (key : Bytes) :
    Represents policy view groups (pending ++ [key]) (b.addKey key) where
  keys_eq := by rw [addKey, tmpKeys_concat _ _ _ h.start_le, h.keys_eq]
  start_le s hs := by
    rw [addKey, List.length_append]
    rcases List.mem_append.1 hs with hs | hs
    · exact (h.start_le s hs).trans (Nat.le_add_right ..)
    · rw [List.mem_singleton.1 hs]
      exact Nat.le_add_right ..
  start_length := by rw [addKey, List.length_append, List.length_append, h.start_length]; rfl
  filters := h.filters

theorem represents_addKeys (keys : List Bytes) : ∀ {pending : List Bytes} {b : FilterBlockBuilder},
    Represents policy view groups pending b →
    Represents policy view groups (pending ++ keys) (keys.foldl addKey b) := by
  induction keys with
  | nil =>
    intro pending b h
    rwa [List.append_nil]
  | cons key keys ih =>
    intro pending b h
    have := ih (represents_addKey h key)
    rwa [List.append_assoc] at this

/-- One more filter for one more group. -/
theorem filterOf_concat {filters : List Bytes} {group : List Bytes} {filter : Bytes}
    (h : List.Forall₂ (FilterOf policy view) groups filters) (hf : FilterOf policy view group filter) :
    List.Forall₂ (FilterOf policy view) (groups ++ [group]) (filters ++ [filter]) :=
  List.rel_append h (.cons hf .nil)

/-- `GenerateFilter` closes the group of the pending keys. -/
theorem represents_generateFilter (hp : policy.Sound view fits)
    (h : Represents policy view groups pending b) (hfits : fits pending.length) :
    ∃ b', b.generateFilter policy = .ok b' ∧ Represents policy view (groups ++ [pending]) [] b' := by
  obtain ⟨filters, hresult, hoffsets, hfilters⟩ := h.filters
  have hnext (filter : Bytes) : b.filterOffsets ++ [UInt32.ofNat b.result.length]
      = (offsetsOf (filters ++ [filter])).map UInt32.ofNat := by
    rw [offsetsOf_concat, List.map_append, List.map_singleton, ← hoffsets, hresult]
  rw [generateFilter]
  by_cases hempty : pending = []
  · subst hempty
    have hstart := h.start_length
    rw [List.length_nil] at hstart
    refine ⟨_, if_pos hstart, h.keys_eq, h.start_le, h.start_length, filters ++ [[]], ?_,
      hnext [], filterOf_concat hfilters (by simp [FilterOf])⟩
    simp [hresult]
  · have hstart : b.start.length ≠ 0 := by
      rw [h.start_length]
      exact fun h0 => hempty (List.eq_nil_of_length_eq_zero h0)
    obtain ⟨filter, hcreate, hcovers⟩ := hp.create pending hempty hfits b.result
    simp only [if_neg hstart, h.keys_eq, hcreate, ok_bind]
    refine ⟨_, rfl, rfl, by simp, rfl, filters ++ [filter], ?_, hnext filter,
      filterOf_concat hfilters (by simpa [FilterOf, hempty] using hcovers)⟩
    simp [hresult]

/-- The next calls of `GenerateFilter` close empty groups. -/
theorem represents_generateFilters (hp : policy.Sound view fits) (hzero : fits 0) (n : ℕ) :
    ∀ {groups : List (List Bytes)} {b : FilterBlockBuilder}, Represents policy view groups [] b →
    ∃ b', generateFilters policy n b = .ok b' ∧
      Represents policy view (groups ++ List.replicate n []) [] b' := by
  induction n with
  | zero =>
    intro groups b h
    exact ⟨b, rfl, by simpa using h⟩
  | succ n ih =>
    intro groups b h
    obtain ⟨b', hb', h'⟩ := represents_generateFilter hp h hzero
    obtain ⟨b'', hb'', h''⟩ := ih h'
    refine ⟨b'', by rw [generateFilters, hb', ok_bind, hb''], ?_⟩
    rwa [List.append_assoc, List.singleton_append, ← List.replicate_succ] at h''

/-- The group of an offset's two kilobytes, closed or still pending. -/
def groupAt (groups : List (List Bytes)) (pending : List Bytes) (blockOffset : ℕ) : List Bytes :=
  (groups ++ [pending]).getD (blockOffset / kFilterBase) []

/-- `StartBlock` makes the group of its offset the pending one and takes no key from any. -/
theorem represents_startBlock (hp : policy.Sound view fits) (hzero : fits 0)
    (h : Represents policy view groups pending b) (hfits : fits pending.length) {blockOffset : ℕ}
    (hle : groups.length ≤ blockOffset / kFilterBase) :
    ∃ groups' pending' b', startBlock policy b blockOffset = .ok b' ∧
      Represents policy view groups' pending' b' ∧
      groups'.length = blockOffset / kFilterBase ∧ pending'.length ≤ pending.length ∧
      ∀ o, groupAt groups pending o ⊆ groupAt groups' pending' o := by
  rw [startBlock, h.length]
  obtain ⟨n, hn⟩ := Nat.exists_eq_add_of_le hle
  simp only [hn, Nat.add_sub_cancel_left]
  cases n with
  | zero => exact ⟨groups, pending, b, rfl, h, rfl, le_rfl, fun o => List.Subset.refl _⟩
  | succ n =>
    obtain ⟨b', hb', h'⟩ := represents_generateFilter hp h hfits
    obtain ⟨b'', hb'', h''⟩ := represents_generateFilters hp hzero n h'
    refine ⟨_, [], b'', by rw [generateFilters, hb', ok_bind, hb''], h'', by simp,
      Nat.zero_le _, fun o key hkey => ?_⟩
    rw [groupAt, List.getD_eq_getElem?_getD] at hkey ⊢
    have hlt : o / kFilterBase < (groups ++ [pending]).length := by
      by_contra hge
      rw [List.getElem?_eq_none (not_lt.1 hge)] at hkey
      cases hkey
    rwa [List.append_assoc (groups ++ [pending]), List.getElem?_append_left hlt]

/-- A run that has got as far as `done`: every key is in the group of its block. -/
structure Holds (policy : FilterPolicy) (view : Bytes → Bytes) (done : List (ℕ × List Bytes))
    (groups : List (List Bytes)) (pending : List Bytes) (b : FilterBlockBuilder) : Prop where
  represents : Represents policy view groups pending b
  group : ∀ block ∈ done, block.2 ⊆ groupAt groups pending block.1
  pending_le : pending.length ≤ (done.map fun block => block.2.length).sum

/-- A data block is put into the group of its offset. -/
theorem holds_addBlock (hp : policy.Sound view fits) {done : List (ℕ × List Bytes)}
    (h : Holds policy view done groups pending b)
    (hfits : ∀ m ≤ (done.map fun block => block.2.length).sum, fits m) {block : ℕ × List Bytes}
    (hle : groups.length ≤ block.1 / kFilterBase) :
    ∃ groups' pending' b', addBlock policy b block = .ok b' ∧
      Holds policy view (done ++ [block]) groups' pending' b' ∧
      groups'.length = block.1 / kFilterBase := by
  obtain ⟨groups', pending', b', hb', h', hlen, hpending, hkeep⟩ :=
    represents_startBlock hp (hfits 0 (Nat.zero_le _)) h.represents (hfits _ h.pending_le) hle
  have hmore (o : ℕ) : groupAt groups' pending' o ⊆ groupAt groups' (pending' ++ block.2) o := by
    intro key hkey
    simp only [groupAt, List.getD_eq_getElem?_getD, List.getElem?_append] at hkey ⊢
    split at hkey
    · rename_i hlt
      rwa [if_pos hlt]
    · rename_i hge
      rw [if_neg hge]
      cases ho : o / kFilterBase - groups'.length with
      | zero =>
        rw [ho] at hkey
        exact List.mem_append_left _ hkey
      | succ k =>
        rw [ho] at hkey
        cases hkey
  refine ⟨groups', pending' ++ block.2, block.2.foldl addKey b', by rw [addBlock, hb', ok_bind],
    ⟨represents_addKeys block.2 h', fun d hd => ?_, ?_⟩, hlen⟩
  · rcases List.mem_append.1 hd with hd | hd
    · exact fun key hkey => hmore _ (hkeep _ (h.group d hd hkey))
    · rw [List.mem_singleton.1 hd, groupAt, ← hlen]
      intro key hkey
      simp [hkey]
  · have := h.pending_le
    simp only [List.length_append, List.map_append, List.sum_append, List.map_cons, List.map_nil,
      List.sum_cons, List.sum_nil]
    omega

/-- **A run of the builder:** blocks at ascending offsets. -/
theorem holds_addBlocks (hp : policy.Sound view fits) (blocks : List (ℕ × List Bytes)) :
    ∀ (done : List (ℕ × List Bytes)) {groups : List (List Bytes)} {pending : List Bytes}
      {b : FilterBlockBuilder}, Holds policy view done groups pending b →
    (∀ m ≤ ((done ++ blocks).map fun block => block.2.length).sum, fits m) →
    (∀ block ∈ blocks, groups.length ≤ block.1 / kFilterBase) →
    (blocks.map Prod.fst).Pairwise (· ≤ ·) →
    ∃ groups' pending' b', blocks.foldlM (addBlock policy) b = .ok b' ∧
      Holds policy view (done ++ blocks) groups' pending' b' := by
  induction blocks with
  | nil =>
    intro done groups pending b h _ _ _
    exact ⟨groups, pending, b, rfl, by rwa [List.append_nil]⟩
  | cons block blocks ih =>
    intro done groups pending b h hfits hle hsorted
    rw [List.map_cons, List.pairwise_cons] at hsorted
    have hdone : ∀ m ≤ (done.map fun block => block.2.length).sum, fits m := fun m hm => by
      refine hfits m (hm.trans ?_)
      rw [List.map_append, List.sum_append]
      exact Nat.le_add_right ..
    obtain ⟨groups', pending', b', hb', h', hlen⟩ :=
      holds_addBlock hp h hdone (hle block List.mem_cons_self)
    rw [List.append_cons] at hfits
    obtain ⟨groups'', pending'', b'', hb'', h''⟩ := ih _ h' hfits (fun later hlater => by
      rw [hlen]
      exact Nat.div_le_div_right (hsorted.1 _ (List.mem_map_of_mem hlater))) hsorted.2
    refine ⟨groups'', pending'', b'', ?_, by rwa [List.append_cons]⟩
    rw [List.foldlM_cons, hb', ok_bind, hb'']

end FilterBlockBuilder

/-! ## What the reader finds -/

/-- The array of offsets, with the offset of the array behind it. -/
def offsetArray (filters : List Bytes) : List UInt32 :=
  (FilterBlockBuilder.offsetsOf filters ++ [filters.flatten.length]).map UInt32.ofNat

/-- A filter block: the filters, the array and the number `kFilterBaseLg`. -/
def blockOf (filters : List Bytes) : Bytes :=
  filters.flatten ++ (offsetArray filters).flatMap fixed32 ++ [UInt8.ofNat kFilterBaseLg]

theorem foldl_appendFixed32 (words : List UInt32) (dst : Bytes) :
    words.foldl appendFixed32 dst = dst ++ words.flatMap fixed32 := by
  induction words generalizing dst with
  | nil => simp
  | cons w words ih => rw [List.foldl_cons, ih, appendFixed32, List.flatMap_cons, List.append_assoc]

theorem length_flatMap_fixed32 (words : List UInt32) :
    (words.flatMap fixed32).length = words.length * 4 := by
  induction words with
  | nil => rfl
  | cons w words ih =>
    rw [List.flatMap_cons, List.length_append, ih, length_fixed32, List.length_cons]
    ring

/-- The words of an array come back. -/
theorem decodeFixed32_array (pre rest : Bytes) (words : List UInt32) {i : ℕ}
    (h : i < words.length) :
    decodeFixed32 (pre ++ words.flatMap fixed32 ++ rest) (pre.length + i * 4) = .ok words[i] := by
  have hsplit : words.flatMap fixed32 = (words.take i).flatMap fixed32 ++
      (fixed32 words[i] ++ (words.drop (i + 1)).flatMap fixed32) := by
    rw [← List.flatMap_cons, ← List.drop_eq_getElem_cons h, ← List.flatMap_append,
      List.take_append_drop]
  have hlen : ((words.take i).flatMap fixed32).length = i * 4 := by
    rw [length_flatMap_fixed32, List.length_take, min_eq_left h.le]
  have := decodeFixed32_append (pre ++ (words.take i).flatMap fixed32)
    ((words.drop (i + 1)).flatMap fixed32 ++ rest) words[i]
  rw [List.length_append, hlen] at this
  rw [hsplit, ← this]
  simp only [List.append_assoc]

theorem length_offsetArray (filters : List Bytes) :
    (offsetArray filters).length = filters.length + 1 := by
  simp [offsetArray, FilterBlockBuilder.offsetsOf]

theorem getElem_offsetArray {filters : List Bytes} {i : ℕ} (h : i < (offsetArray filters).length) :
    (offsetArray filters)[i] = UInt32.ofNat (filters.take i).flatten.length := by
  simp only [offsetArray, FilterBlockBuilder.offsetsOf, List.getElem_map, List.getElem_append,
    List.length_map, List.length_range, List.getElem_range]
  split
  · rfl
  · rename_i hge
    rw [length_offsetArray] at h
    simp [List.take_of_length_le (not_lt.1 hge)]

/-- One of several strings written behind each other. -/
theorem slice_flatten {filters : List Bytes} {i : ℕ} (h : i < filters.length) (rest : Bytes) :
    ((filters.flatten ++ rest).drop (filters.take i).flatten.length).take
        ((filters.take (i + 1)).flatten.length - (filters.take i).flatten.length)
      = filters[i] := by
  have hsplit : filters.flatten
      = (filters.take i).flatten ++ (filters[i] ++ (filters.drop (i + 1)).flatten) := by
    rw [← List.flatten_cons, ← List.drop_eq_getElem_cons h, ← List.flatten_append,
      List.take_append_drop]
  have hlen : (filters.take (i + 1)).flatten.length - (filters.take i).flatten.length
      = filters[i].length := by
    rw [List.take_add_one, List.getElem?_eq_getElem h, Option.toList_some, List.flatten_append,
      List.length_append, Nat.add_sub_cancel_left, List.flatten_singleton]
  rw [hlen, hsplit]
  simp only [List.append_assoc, List.drop_left, List.take_left]

theorem length_take_flatten_le (filters : List Bytes) (i : ℕ) :
    (filters.take i).flatten.length ≤ filters.flatten.length := by
  conv_rhs => rw [← List.take_append_drop i filters, List.flatten_append, List.length_append]
  exact Nat.le_add_right ..

namespace FilterBlockReader

/-- The reader of a filter block. -/
theorem new_blockOf {filters : List Bytes} (h : (blockOf filters).length < 4294967296) :
    new (blockOf filters) = .ok
      { data := blockOf filters, offset := filters.flatten.length, num := filters.length,
        baseLg := kFilterBaseLg } := by
  have hlen : (blockOf filters).length = filters.flatten.length + (filters.length + 1) * 4 + 1 := by
    rw [blockOf, List.length_append, List.length_append, length_flatMap_fixed32,
      length_offsetArray]
    rfl
  rw [new]
  simp only
  rw [if_neg (by omega), readByte_of_lt (by omega), ok_bind]
  have hlast : (blockOf filters).getD ((blockOf filters).length - 1) 0 = UInt8.ofNat kFilterBaseLg := by
    rw [blockOf, List.length_append, List.length_singleton, Nat.add_sub_cancel,
      List.getD_append_right _ _ _ _ le_rfl, Nat.sub_self, List.getD_cons_zero]
  have harray : decodeFixed32 (blockOf filters) ((blockOf filters).length - 5)
      = .ok (UInt32.ofNat filters.flatten.length) := by
    have hi : filters.length < (offsetArray filters).length := by rw [length_offsetArray]; omega
    have := decodeFixed32_array filters.flatten [UInt8.ofNat kFilterBaseLg] (offsetArray filters) hi
    rw [getElem_offsetArray hi, List.take_length] at this
    rw [hlen, ← this, blockOf]
    congr 1
    omega
  have hword : (UInt32.ofNat filters.flatten.length).toNat = filters.flatten.length :=
    toNat_ofNat32 (by omega)
  rw [hlast, harray, ok_bind, hword, if_neg (by omega)]
  congr 2
  omega

/-- **A query** is one of the filter of its two kilobytes; behind the last filter the
answer is `true`. -/
theorem keyMayMatch_blockOf (policy : FilterPolicy) {filters : List Bytes}
    (h : (blockOf filters).length < 4294967296) (blockOffset : ℕ) (key : Bytes) :
    (do
      let r ← new (blockOf filters)
      r.keyMayMatch policy blockOffset key)
      = match filters[blockOffset / kFilterBase]? with
        | some filter => policy.keyMayMatch key filter
        | none => .ok true := by
  have hshift : blockOffset >>> kFilterBaseLg = blockOffset / kFilterBase :=
    Nat.shiftRight_eq_div_pow ..
  have hsmall : filters.flatten.length < 4294967296 := by
    rw [blockOf, List.append_assoc, List.length_append] at h
    omega
  rw [new_blockOf h, ok_bind, keyMayMatch]
  simp only [hshift]
  rw [if_neg (by decide)]
  by_cases hi : blockOffset / kFilterBase < filters.length
  · have hi0 : blockOffset / kFilterBase < (offsetArray filters).length := by
      rw [length_offsetArray]
      omega
    have hi1 : blockOffset / kFilterBase + 1 < (offsetArray filters).length := by
      rw [length_offsetArray]
      omega
    have hstart := decodeFixed32_array filters.flatten [UInt8.ofNat kFilterBaseLg]
      (offsetArray filters) hi0
    have hlimit := decodeFixed32_array filters.flatten [UInt8.ofNat kFilterBaseLg]
      (offsetArray filters) hi1
    have hle0 := length_take_flatten_le filters (blockOffset / kFilterBase)
    have hle1 := length_take_flatten_le filters (blockOffset / kFilterBase + 1)
    have hmono : (filters.take (blockOffset / kFilterBase)).flatten.length
        ≤ (filters.take (blockOffset / kFilterBase + 1)).flatten.length := by
      rw [List.take_add_one, List.flatten_append, List.length_append]
      exact Nat.le_add_right ..
    rw [← blockOf, getElem_offsetArray] at hstart hlimit
    rw [Nat.add_mul, ← Nat.add_assoc, Nat.one_mul] at hlimit
    rw [if_pos hi, hstart, ok_bind, hlimit, ok_bind, toNat_ofNat32 (by omega),
      toNat_ofNat32 (by omega), if_pos ⟨hmono, hle1⟩, List.getElem?_eq_getElem hi, blockOf,
      List.append_assoc, slice_flatten hi]
  · rw [if_neg hi, List.getElem?_eq_none (not_lt.1 hi)]

end FilterBlockReader

/-! ## Main results -/

/-- A builder's filters are filters of its groups, with the pending keys as the last one. -/
theorem finish_eq {policy : FilterPolicy} {view : Bytes → Bytes} {fits : ℕ → Prop}
    {groups : List (List Bytes)} {pending : List Bytes} {b : FilterBlockBuilder}
    (hp : policy.Sound view fits)
    (h : FilterBlockBuilder.Represents policy view groups pending b) (hfits : fits pending.length) :
    ∃ filters, b.finish policy = .ok (blockOf filters) ∧
      List.Forall₂ (FilterBlockBuilder.FilterOf policy view)
        (if pending = [] then groups else groups ++ [pending]) filters := by
  have hlast (groups : List (List Bytes)) (b : FilterBlockBuilder)
      (h : FilterBlockBuilder.Represents policy view groups [] b) :
      ∃ filters, (Except.ok (b.filterOffsets.foldl appendFixed32 b.result
          |> (appendFixed32 · (UInt32.ofNat b.result.length))
          |> (· ++ [UInt8.ofNat kFilterBaseLg])) : Checked Bytes) = .ok (blockOf filters) ∧
        List.Forall₂ (FilterBlockBuilder.FilterOf policy view) groups filters := by
    obtain ⟨filters, hresult, hoffsets, hfilters⟩ := h.filters
    refine ⟨filters, ?_, hfilters⟩
    simp only [foldl_appendFixed32, hresult, hoffsets, appendFixed32, blockOf, offsetArray,
      List.map_append, List.map_singleton, List.flatMap_append, List.flatMap_singleton,
      List.append_assoc]
  have hstart : b.start = [] ↔ pending = [] := by
    rw [← List.length_eq_zero_iff, h.start_length, List.length_eq_zero_iff]
  rw [FilterBlockBuilder.finish]
  by_cases hempty : pending = []
  · rw [if_neg (not_not.2 (hstart.2 hempty)), ok_bind, if_pos hempty]
    rw [hempty] at h
    exact hlast groups b h
  · obtain ⟨b', hb', h'⟩ := FilterBlockBuilder.represents_generateFilter hp h hfits
    rw [if_pos (mt hstart.1 hempty), hb', ok_bind, if_neg hempty]
    exact hlast (groups ++ [pending]) b' h'

/-- **No false negatives through a filter block.**  A table writes data blocks at ascending
offsets, `StartBlock` before the keys of each; the policy makes sound filters of as many
keys as the table has.  Then the builder finishes.  If the block is shorter than `2 ^ 32`
bytes, every key that looks like one of a data block's is there for every offset in the two
kilobytes of that block, and every query for any key at any offset is answered. -/
theorem buildFilterBlock_reads {policy : FilterPolicy} {view : Bytes → Bytes} {fits : ℕ → Prop}
    (hp : policy.Sound view fits) (blocks : List (ℕ × List Bytes))
    (hfits : ∀ m ≤ (blocks.map fun block => block.2.length).sum, fits m)
    (hsorted : (blocks.map Prod.fst).Pairwise (· ≤ ·)) :
    ∃ contents, buildFilterBlock policy blocks = .ok contents ∧
      (contents.length < 4294967296 → ∃ r, FilterBlockReader.new contents = .ok r ∧
        (∀ block ∈ blocks, ∀ blockOffset, blockOffset / kFilterBase = block.1 / kFilterBase →
          ∀ key, view key ∈ block.2.map view → r.keyMayMatch policy blockOffset key = .ok true) ∧
        ∀ blockOffset key, ∃ answer, r.keyMayMatch policy blockOffset key = .ok answer) := by
  obtain ⟨groups, pending, b, hb, h⟩ := FilterBlockBuilder.holds_addBlocks hp blocks
    [] ⟨FilterBlockBuilder.represents_empty, by simp, by simp⟩ (by simpa using hfits)
    (by simp) hsorted
  rw [List.nil_append] at h
  obtain ⟨filters, hfinish, hfilters⟩ := finish_eq hp h.represents (hfits _ h.pending_le)
  refine ⟨blockOf filters, by rw [buildFilterBlock, hb, ok_bind, hfinish], fun hlen => ?_⟩
  have hnew := FilterBlockReader.new_blockOf hlen
  refine ⟨_, hnew, fun block hblock blockOffset hoffset key hkey => ?_, fun blockOffset key => ?_⟩
  · have hquery := FilterBlockReader.keyMayMatch_blockOf policy hlen blockOffset key
    rw [hnew, ok_bind] at hquery
    rw [hquery, hoffset]
    cases hi : filters[block.1 / kFilterBase]? with
    | none => rfl
    | some filter =>
      obtain ⟨key', hkey', hview⟩ := List.mem_map.1 hkey
      have hgroup := h.group block hblock hkey'
      rw [FilterBlockBuilder.groupAt, List.getD_eq_getElem?_getD] at hgroup
      obtain ⟨hlt, rfl⟩ := List.getElem?_eq_some_iff.1 hi
      have hlt' := hfilters.length_eq ▸ hlt
      refine FilterBlockBuilder.filterOf_mayMatch (hfilters.get hlt' hlt) (?_ : key' ∈ _) hview
      rw [List.get_eq_getElem]
      by_cases hempty : pending = []
      · simp only [hempty, if_true] at hlt' ⊢
        rw [List.getElem?_append_left hlt', List.getElem?_eq_getElem hlt'] at hgroup
        exact hgroup
      · simp only [hempty, if_false] at hlt' ⊢
        rw [List.getElem?_eq_getElem hlt'] at hgroup
        exact hgroup
  · have hquery := FilterBlockReader.keyMayMatch_blockOf policy hlen blockOffset key
    rw [hnew, ok_bind] at hquery
    rw [hquery]
    cases hi : filters[blockOffset / kFilterBase]? with
    | none => exact ⟨true, rfl⟩
    | some filter =>
      obtain ⟨hlt, rfl⟩ := List.getElem?_eq_some_iff.1 hi
      exact FilterBlockBuilder.filterOf_isOk hp (hfilters.get (hfilters.length_eq ▸ hlt) hlt) key

/-- **Every version of a user key is there:** through `InternalFilterPolicy` the filter of a
data block has every internal key whose user key looks like that of one of the block's
keys, whatever its number and type. -/
theorem internalFilterBlock_mayMatch {user : FilterPolicy} {view : Bytes → Bytes} {fits : ℕ → Prop}
    (hp : user.Sound view fits) (blocks : List (ℕ × List Bytes))
    (hfits : ∀ m ≤ (blocks.map fun block => block.2.length).sum, fits m)
    (hsorted : (blocks.map Prod.fst).Pairwise (· ≤ ·)) :
    ∃ contents, buildFilterBlock (internalFilterPolicy user) blocks = .ok contents ∧
      (contents.length < 4294967296 → ∃ r, FilterBlockReader.new contents = .ok r ∧
        ∀ block ∈ blocks, ∀ key ∈ block.2, ∀ key',
          view (extractUserKey key') = view (extractUserKey key) →
          r.keyMayMatch (internalFilterPolicy user) block.1 key' = .ok true) := by
  obtain ⟨contents, hbuild, hreads⟩ :=
    buildFilterBlock_reads (internalFilterPolicy_sound hp) blocks hfits hsorted
  refine ⟨contents, hbuild, fun hlen => ?_⟩
  obtain ⟨r, hnew, hmatch, -⟩ := hreads hlen
  exact ⟨r, hnew, fun block hblock key hkey key' hview =>
    hmatch block hblock _ rfl key' (List.mem_map.2 ⟨key, hkey, hview.symm⟩)⟩

theorem internalFilterBlock_mayMatch_two :
    ∃ contents, buildFilterBlock (internalFilterPolicy
        (bloomPolicy (newBloomFilterPolicy 10) leveldbHash))
        [(0, [[1, 1, 5, 0, 0, 0, 0, 0, 0]]), (5000, [[2, 1, 4, 0, 0, 0, 0, 0, 0]])]
          = .ok contents ∧
      (contents.length < 4294967296 → ∃ r, FilterBlockReader.new contents = .ok r ∧
        ∀ block ∈ [(0, [[1, 1, 5, 0, 0, 0, 0, 0, 0]]), (5000, [[2, 1, 4, 0, 0, 0, 0, 0, 0]])],
          ∀ key ∈ block.2, ∀ key', id (extractUserKey key') = id (extractUserKey key) →
          r.keyMayMatch (internalFilterPolicy (bloomPolicy (newBloomFilterPolicy 10) leveldbHash))
            block.1 key' = .ok true) :=
  internalFilterBlock_mayMatch (bloomPolicy_sound _ _) _
    (fun m hm => by
      have : m ≤ 2 := hm
      show m < 2147483648 ∧ m * 10 < 18446744073709551609
      omega)
    (by decide)

/-- A shift of 64 or more is undefined for every query. -/
theorem keyMayMatch_isOk_imp {policy : FilterPolicy} {r : FilterBlockReader}
    (h : ∀ blockOffset key, ∃ answer, r.keyMayMatch policy blockOffset key = .ok answer) :
    r.baseLg < 64 := by
  by_contra hge
  obtain ⟨answer, ha⟩ := h 0 []
  rw [FilterBlockReader.keyMayMatch, if_pos (not_lt.1 hge)] at ha
  cases ha

/-- **On any bytes** the constructor stays inside them.  With a policy that answers on every
filter, as the built-in Bloom policy does (`bloomPolicy_isOk`), all queries do so exactly when
the last byte is no shift of 64 or more, or there are too few bytes to look at it. -/
theorem keyMayMatch_safe_iff {policy : FilterPolicy}
    (hp : ∀ key filter, ∃ answer, policy.keyMayMatch key filter = .ok answer) (contents : Bytes) :
    ∃ r, FilterBlockReader.new contents = .ok r ∧
      ((∀ blockOffset key, ∃ answer, r.keyMayMatch policy blockOffset key = .ok answer) ↔
        contents.length < 5 ∨ (contents.getD (contents.length - 1) 0).toNat < 64) := by
  have hchar (b : UInt8) : charToSize b < 64 ↔ b.toNat < 64 := by
    rw [charToSize]
    split <;> omega
  rw [FilterBlockReader.new]
  simp only
  by_cases hn : contents.length < 5
  · rw [if_pos hn]
    exact ⟨_, rfl, iff_of_true (fun _ _ => ⟨true, rfl⟩) (Or.inl hn)⟩
  · obtain ⟨lastWord, hword, -⟩ := decodeFixed32_ok contents (contents.length - 5) (by omega)
    rw [if_neg hn, readByte_of_lt (by omega), ok_bind, hword, ok_bind, or_iff_right hn, ← hchar]
    split
    · refine ⟨_, rfl, keyMayMatch_isOk_imp, fun h blockOffset key => ⟨true, ?_⟩⟩
      rw [FilterBlockReader.keyMayMatch, if_neg (not_le.2 h)]
      rfl
    · rename_i hin
      refine ⟨_, rfl, keyMayMatch_isOk_imp, fun h blockOffset key => ?_⟩
      rw [FilterBlockReader.keyMayMatch, if_neg (not_le.2 h)]
      simp only
      generalize blockOffset >>> charToSize (contents.getD (contents.length - 1) 0) = index
      split
      · rename_i hindex
        obtain ⟨start, hstart, -⟩ := decodeFixed32_ok contents (lastWord.toNat + index * 4)
          (by omega)
        obtain ⟨limit, hlimit, -⟩ := decodeFixed32_ok contents (lastWord.toNat + index * 4 + 4)
          (by omega)
        rw [hstart, ok_bind, hlimit, ok_bind]
        split
        · exact hp _ _
        · split
          · exact ⟨false, rfl⟩
          · exact ⟨true, rfl⟩
      · exact ⟨true, rfl⟩

theorem keyMayMatch_safe_iff_wide :
    ∃ r, FilterBlockReader.new [0, 0, 0, 0, 64] = .ok r ∧
      ((∀ blockOffset key, ∃ answer, r.keyMayMatch
          (bloomPolicy (newBloomFilterPolicy 10) leveldbHash) blockOffset key = .ok answer) ↔
        [(0 : UInt8), 0, 0, 0, 64].length < 5 ∨
          ([(0 : UInt8), 0, 0, 0, 64].getD ([(0 : UInt8), 0, 0, 0, 64].length - 1) 0).toNat < 64) :=
  keyMayMatch_safe_iff (bloomPolicy_isOk _ _) _

end PackedFilters.LevelDb
