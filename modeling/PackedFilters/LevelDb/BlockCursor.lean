import PackedFilters.LevelDb.Block

/-!
# The iterator of a block is a cursor

On a block with a layout every operation of `Block::Iter` leads where it does on the list of
its entries.

What a state of the iterator stands for changes in the middle of an operation.  Between
operations it shows an entry (`Iter.At`); after a jump to a restart point it shows none, but
`ParseNextKey` will come to a certain entry next (`Iter.Ready`), because the key it holds is
the one that entry was shortened against, or the entry was not shortened.  Every operation is
a jump, or none, and then calls of `ParseNextKey` until a test says to stop, so what is shown
of `ParseNextKey` once carries all of them.

* `decodeEntry_eq` — the fast path of `DecodeEntry` agrees with the slow one;
* `Iter.Ready`, `Iter.At` — what a state stands for before and after `ParseNextKey`;
* `Iter.parse_ready`, `Iter.parse_end` — `ParseNextKey` itself;
* `Iter.seek_spec` — `Seek` ends at the first entry at or behind the target, from wherever it
  starts;
* `Iter.walks` — the iterator walks the entries;
* `buildBlock_walks`, `buildBlock_run` — on every block that is built.
-/

namespace PackedFilters.LevelDb

open Cursor (Op lowerBound)

/-! ## Where the entries lie -/

theorem encodeVarint32_pos (v : ℕ) : 1 ≤ (encodeVarint32 v).length := by
  rw [encodeVarint32]
  split_ifs <;> simp

theorem Item.three_le_header (e : Item) : 3 ≤ e.header.length := by
  have h1 := encodeVarint32_pos e.shared
  have h2 := encodeVarint32_pos (e.key.length - e.shared)
  have h3 := encodeVarint32_pos e.value.length
  rw [Item.header, List.length_append, List.length_append]
  omega

theorem Item.length_bytes (e : Item) :
    e.bytes.length = e.header.length + (e.key.length - e.shared) + e.value.length := by
  rw [Item.bytes, List.length_append, List.length_append, List.length_drop, Nat.add_assoc]

section Offsets

variable {items : List Item}

theorem offsetAt_length : offsetAt items items.length = (itemBytes items).length := by
  rw [offsetAt, List.take_length]

theorem offsetAt_succ {i : ℕ} (h : i < items.length) :
    offsetAt items (i + 1) = offsetAt items i + items[i].bytes.length := by
  rw [offsetAt, List.take_add_one, List.getElem?_eq_getElem h, Option.toList_some, itemBytes_append,
    itemBytes_singleton, List.length_append, offsetAt]

/-- The bytes before an entry, its own and those behind it. -/
theorem itemBytes_split {i : ℕ} (h : i < items.length) :
    itemBytes items = itemBytes (items.take i) ++
      (items[i].bytes ++ itemBytes (items.drop (i + 1))) := by
  rw [← itemBytes_singleton, ← itemBytes_append, ← itemBytes_append, List.singleton_append,
    ← List.drop_eq_getElem_cons h, List.take_append_drop]

theorem offsetAt_lt_succ {i : ℕ} (h : i < items.length) :
    offsetAt items i < offsetAt items (i + 1) := by
  have := items[i].three_le_header
  rw [offsetAt_succ h, Item.length_bytes]
  omega

theorem offsetAt_lt {i j : ℕ} (hij : i < j) (hj : j ≤ items.length) :
    offsetAt items i < offsetAt items j := by
  induction j, hij using Nat.le_induction with
  | base => exact offsetAt_lt_succ hj
  | succ j _ ih => exact (ih (by omega)).trans (offsetAt_lt_succ hj)

theorem offsetAt_lt_iff {i j : ℕ} (hi : i ≤ items.length) (hj : j ≤ items.length) :
    offsetAt items i < offsetAt items j ↔ i < j := by
  refine ⟨fun h => ?_, fun h => offsetAt_lt h hj⟩
  by_contra hle
  rcases (not_lt.1 hle).lt_or_eq with hlt | heq
  · exact absurd (offsetAt_lt hlt hi) h.not_gt
  · exact absurd h (heq ▸ lt_irrefl _)

theorem offsetAt_le {i : ℕ} (hi : i ≤ items.length) : offsetAt items i ≤ (itemBytes items).length := by
  rw [← offsetAt_length, ← not_lt, offsetAt_lt_iff le_rfl hi, not_lt]
  exact hi

theorem le_offsetAt {i : ℕ} (hi : i ≤ items.length) : i ≤ offsetAt items i := by
  induction i with
  | zero => exact Nat.zero_le _
  | succ i ih =>
    have := ih (by omega)
    have := offsetAt_lt_succ hi
    omega

theorem length_layoutBytes (items : List Item) (points : List ℕ) :
    (layoutBytes items points).length = (itemBytes items).length + points.length * 4 + 4 := by
  rw [layoutBytes, List.length_append, List.length_append, length_flatMap_fixed32, List.length_map,
    length_fixed32]

end Offsets

section Layout

variable {items : List Item} {points : List ℕ} (hl : Layout items points)

include hl

theorem Layout.points_pos : 0 < points.length := by
  cases points with
  | nil => cases hl.points_zero
  | cons p points => exact Nat.succ_pos _

theorem Layout.first (hpos : 0 < points.length := hl.points_pos) : points[0] = 0 := by
  have := hl.points_zero
  rw [List.head?_eq_getElem?, List.getElem?_eq_getElem hpos] at this
  exact Option.some.inj this

theorem Layout.point_lt {j : ℕ} (hj : j < points.length) (h : 0 < j) :
    points[j] < items.length := by
  have hlt := List.pairwise_iff_getElem.1 hl.points_lt 0 j hl.points_pos hj h
  rcases hl.points_le _ (List.getElem_mem hj) with h0 | h0
  · rw [h0] at hlt
    exact absurd hlt (Nat.not_lt_zero _)
  · exact h0

theorem Layout.point_le {j : ℕ} (hj : j < points.length) : points[j] ≤ items.length := by
  rcases hl.points_le _ (List.getElem_mem hj) with h0 | h0
  · rw [h0]
    exact Nat.zero_le _
  · exact h0.le

/-- What a key leaves out the one before it has. -/
theorem Layout.shared_le_before {i : ℕ} (h : i + 1 < items.length)
    (hi : i < items.length := Nat.lt_of_succ_lt h) :
    items[i + 1].shared ≤ items[i].key.length := by
  have hlen := congrArg List.length (hl.takes i h)
  rw [List.length_take, List.length_take,
    min_eq_left (hl.shared_le _ (List.getElem_mem h))] at hlen
  omega

/-- Keys are no longer than the block so far. -/
theorem Layout.key_le {i : ℕ} (h : i < items.length) :
    items[i].key.length ≤ offsetAt items (i + 1) := by
  have hbytes := items[i].length_bytes
  have hsucc := offsetAt_succ h
  induction i with
  | zero =>
    have := hl.restart 0 (by rw [← hl.first]; exact List.getElem_mem _) h
    omega
  | succ i ih =>
    have := hl.shared_le_before h
    have := ih (by omega) (Item.length_bytes _) (offsetAt_succ _)
    omega

/-- A restart point is where its entry starts. -/
theorem Layout.restartWord (hsmall : (layoutBytes items points).length < 4294967296) {j : ℕ}
    (hj : j < points.length) :
    ∃ w, decodeFixed32 (layoutBytes items points) ((itemBytes items).length + j * 4) = .ok w ∧
      w.toNat = offsetAt items points[j] := by
  have hword := decodeFixed32_array (itemBytes items) (fixed32 (UInt32.ofNat points.length))
    (points.map fun p => UInt32.ofNat (offsetAt items p)) (i := j) (by rwa [List.length_map])
  rw [List.getElem_map] at hword
  refine ⟨_, hword, toNat_ofNat32 ?_⟩
  have := offsetAt_le (hl.point_le hj)
  rw [length_layoutBytes] at hsmall
  omega

end Layout

/-! ## Decoding an entry -/

/-- **The fast path of `DecodeEntry` agrees with the slow one.** -/
theorem decodeEntry_eq {data : Bytes} {p limit : ℕ} (h3 : p + 3 ≤ limit)
    (hlimit : limit ≤ data.length) :
    decodeEntry data p limit = (do
      match ← decodeHeader data p limit with
      | none => .ok none
      | some h =>
        if u32 (limit - h.keyPtr) < u32 (h.nonShared + h.valueLength) then .ok none
        else .ok (some h)) := by
  have hfast {q : ℕ} (hq : q < limit) (hbyte : (data.getD q 0).toNat < 128) :
      getVarint32Ptr data q limit = .ok (some (q + 1, (data.getD q 0).toNat)) := by
    rw [getVarint32Ptr, if_pos hq, readByte_of_lt (by omega), ok_bind,
      if_pos ((and_128_eq_zero_iff _).2 hbyte)]
  rw [decodeEntry, if_neg (by omega), readByte_of_lt (by omega), ok_bind, readByte_of_lt (by omega),
    ok_bind, readByte_of_lt (by omega), ok_bind]
  split
  · rename_i hor
    have ha : (data.getD p 0).toNat < 128 :=
      (Nat.left_le_or.trans Nat.left_le_or).trans_lt hor
    have hb : (data.getD (p + 1) 0).toNat < 128 :=
      (Nat.right_le_or.trans Nat.left_le_or).trans_lt hor
    have hc : (data.getD (p + 2) 0).toNat < 128 := Nat.right_le_or.trans_lt hor
    have hheader : decodeHeader data p limit = .ok (some ⟨p + 3, (data.getD p 0).toNat,
        (data.getD (p + 1) 0).toNat, (data.getD (p + 2) 0).toNat⟩) := by
      rw [decodeHeader, hfast (by omega) ha, ok_bind]
      simp only
      rw [hfast (by omega) hb, ok_bind]
      simp only
      simp only [hfast (by omega) hc, ok_bind]
    simp only [hheader, ok_bind]
  · rfl

theorem decodeHeader_append (pre rest : Bytes) {e : Item} (hkey : e.key.length < 4294967296)
    (hshared : e.shared ≤ e.key.length) (hvalue : e.value.length < 4294967296) (limit : ℕ)
    (hle : pre.length + e.header.length ≤ limit)
    (hlimit : limit ≤ (pre ++ (e.header ++ rest)).length) :
    decodeHeader (pre ++ (e.header ++ rest)) pre.length limit
      = .ok (some ⟨pre.length + e.header.length, e.shared, e.key.length - e.shared,
          e.value.length⟩) := by
  set a := encodeVarint32 e.shared with ha
  set b := encodeVarint32 (e.key.length - e.shared) with hb
  set c := encodeVarint32 e.value.length with hc
  have hheader : e.header = a ++ (b ++ c) := rfl
  have hlen : e.header.length = a.length + (b.length + c.length) := by
    rw [hheader, List.length_append, List.length_append]
  rw [hheader] at hlimit ⊢
  simp only [List.append_assoc] at hlimit ⊢
  have h1 := getVarint32Ptr_append pre (b ++ (c ++ rest)) e.shared limit
    (by omega) (by rw [← ha]; omega) (by rwa [← ha])
  have h2 := getVarint32Ptr_append (pre ++ a) (c ++ rest) (e.key.length - e.shared)
    limit (by omega) (by rw [← hb, List.length_append]; omega)
    (by rwa [← hb, List.append_assoc])
  have h3 := getVarint32Ptr_append (pre ++ a ++ b) rest e.value.length limit
    hvalue (by rw [← hc, List.length_append, List.length_append]; omega)
    (by rw [← hc]; simpa only [List.append_assoc] using hlimit)
  rw [← ha] at h1
  rw [← hb] at h2
  rw [← hc] at h3
  simp only [List.append_assoc, List.length_append] at h2 h3
  rw [← Nat.add_assoc] at h3
  rw [decodeHeader, h1, ok_bind]
  simp only
  rw [h2, ok_bind]
  simp only
  rw [h3, ok_bind]
  simp only [List.length_append, Nat.add_assoc]

/-- The entry at a position, as `DecodeEntry` sees it. -/
theorem Layout.decodeEntry {items : List Item} {points : List ℕ} (hl : Layout items points)
    (hsmall : (layoutBytes items points).length < 4294967296) {i : ℕ} (hi : i < items.length) :
    decodeEntry (layoutBytes items points) (offsetAt items i) (itemBytes items).length
      = .ok (some ⟨offsetAt items i + items[i].header.length, items[i].shared,
          items[i].key.length - items[i].shared, items[i].value.length⟩) := by
  have hlen := length_layoutBytes items points
  have hbytes := items[i].length_bytes
  have hsucc := offsetAt_succ hi
  have hle : offsetAt items (i + 1) ≤ (itemBytes items).length := offsetAt_le hi
  have h3 := items[i].three_le_header
  have hkey := hl.key_le hi
  have hshared := hl.shared_le _ (List.getElem_mem hi)
  have hsplit : layoutBytes items points = itemBytes (items.take i) ++ (items[i].header ++
      (items[i].key.drop items[i].shared ++ items[i].value ++ itemBytes (items.drop (i + 1)) ++
        (points.map fun p => UInt32.ofNat (offsetAt items p)).flatMap fixed32 ++
        fixed32 (UInt32.ofNat points.length))) := by
    rw [layoutBytes, itemBytes_split hi, Item.bytes]
    simp only [List.append_assoc]
  have hheader := decodeHeader_append (itemBytes (items.take i))
    (items[i].key.drop items[i].shared ++ items[i].value ++ itemBytes (items.drop (i + 1)) ++
      (points.map fun p => UInt32.ofNat (offsetAt items p)).flatMap fixed32 ++
      fixed32 (UInt32.ofNat points.length)) (e := items[i]) (by omega) hshared (by omega)
    (itemBytes items).length (by rw [← offsetAt]; omega) (by rw [← hsplit]; omega)
  rw [← hsplit, ← offsetAt] at hheader
  rw [decodeEntry_eq (by omega) (by omega), hheader, ok_bind]
  simp only
  rw [if_neg]
  rw [u32_of_lt (by omega), u32_of_lt (by omega)]
  omega

/-- The bytes of its key that an entry has itself. -/
theorem Layout.readDelta {items : List Item} (points : List ℕ) {i : ℕ} (hi : i < items.length) :
    readSlice (layoutBytes items points) (offsetAt items i + items[i].header.length)
      (items[i].key.length - items[i].shared) = .ok (items[i].key.drop items[i].shared) := by
  have := readSlice_append (itemBytes (items.take i) ++ items[i].header)
    (items[i].key.drop items[i].shared) (items[i].value ++ itemBytes (items.drop (i + 1)) ++
      (points.map fun p => UInt32.ofNat (offsetAt items p)).flatMap fixed32 ++
      fixed32 (UInt32.ofNat points.length))
  rw [List.length_append, List.length_drop] at this
  rw [offsetAt, ← this, layoutBytes, itemBytes_split hi, Item.bytes]
  simp only [List.append_assoc]

/-- The value of an entry. -/
theorem Layout.readValue {items : List Item} {points : List ℕ} {i : ℕ} (hi : i < items.length) :
    ((layoutBytes items points).drop (offsetAt items i + items[i].header.length +
      (items[i].key.length - items[i].shared))).take items[i].value.length = items[i].value := by
  have hsplit : layoutBytes items points = itemBytes (items.take i) ++ items[i].header ++
      items[i].key.drop items[i].shared ++ (items[i].value ++ (itemBytes (items.drop (i + 1)) ++
        ((points.map fun p => UInt32.ofNat (offsetAt items p)).flatMap fixed32 ++
        fixed32 (UInt32.ofNat points.length)))) := by
    rw [layoutBytes, itemBytes_split hi, Item.bytes]
    simp only [List.append_assoc]
  have hlen : offsetAt items i + items[i].header.length + (items[i].key.length - items[i].shared)
      = (itemBytes (items.take i) ++ items[i].header ++
          items[i].key.drop items[i].shared).length := by
    rw [List.length_append, List.length_append, List.length_drop, offsetAt]
  rw [hlen, hsplit, List.drop_left, List.take_left]

/-! ## What a state stands for -/

namespace Iter

/-- An iterator of this block, without an error. -/
structure Over (cmp : Comparator) (items : List Item) (points : List ℕ) (it : Iter) : Prop where
  comparator : it.comparator = cmp
  data : it.data = layoutBytes items points
  restarts : it.restarts = (itemBytes items).length
  numRestarts : it.numRestarts = points.length
  status : it.status = .ok

/-- `ParseNextKey` comes to the entry at position `i` next. -/
structure Ready (cmp : Comparator) (items : List Item) (points : List ℕ) (it : Iter) (i : ℕ) :
    Prop where
  block : Over cmp items points it
  le : i ≤ items.length
  value_end : it.valueOffset + it.valueLength = offsetAt items i
  takes : ∀ h : i < items.length,
    it.key.take items[i].shared = items[i].key.take items[i].shared
  index : ∃ h : it.restartIndex < points.length, points[it.restartIndex] ≤ i

/-- The state shows the entry at position `i`. -/
structure Shows (items : List Item) (points : List ℕ) (it : Iter) (i : ℕ) (h : i < items.length) :
    Prop where
  current : it.current = offsetAt items i
  key : it.key = items[i].key
  value : it.value = items[i].value
  value_end : it.valueOffset + it.valueLength = offsetAt items (i + 1)
  index : ∃ h : it.restartIndex < points.length, points[it.restartIndex] ≤ i

/-- The state at position `i` of the list of entries. -/
structure At (cmp : Comparator) (items : List Item) (points : List ℕ) (it : Iter) (i : ℕ) :
    Prop where
  block : Over cmp items points it
  le : i ≤ items.length
  shows : ∀ h : i < items.length, Shows items points it i h
  invalid : i = items.length → it.current = it.restarts

section Parse

variable {cmp : Comparator} {items : List Item} {points : List ℕ} (hl : Layout items points)
  (hsmall : (layoutBytes items points).length < 4294967296) {it : Iter} {i : ℕ}

include hsmall in
theorem restarts_small : (itemBytes items).length < 4294967296 := by
  rw [length_layoutBytes] at hsmall
  omega

include hl hsmall

theorem getRestartPoint_eq (h : Over cmp items points it) {j : ℕ} (hj : j < points.length) :
    it.getRestartPoint j = .ok (offsetAt items points[j]) := by
  obtain ⟨w, hw, hval⟩ := hl.restartWord hsmall hj
  rw [getRestartPoint, h.data, h.restarts, hw, ok_bind, hval]

/-- `SeekToRestartPoint` gets ready for the entry of a restart point. -/
theorem seekToRestartPoint_ready (h : Over cmp items points it) {j : ℕ} (hj : j < points.length) :
    ∃ it', it.seekToRestartPoint j = .ok it' ∧ Ready cmp items points it' points[j] := by
  rw [seekToRestartPoint, getRestartPoint_eq hl hsmall h hj, ok_bind]
  refine ⟨_, rfl, ?_⟩
  constructor
  · exact ⟨h.comparator, h.data, h.restarts, h.numRestarts, h.status⟩
  · exact hl.point_le hj
  · exact Nat.add_zero _
  · intro hlt
    rw [hl.restart _ (List.getElem_mem hj) hlt, List.take_zero, List.take_zero]
  · exact ⟨hj, le_rfl⟩

/-- The last loop of `ParseNextKey` keeps the restart index at or before the entry. -/
theorem advanceRestart_spec (h : Over cmp items points it) (hi : i ≤ items.length)
    (hcurrent : it.current = offsetAt items i) (left : ℕ) :
    ∀ {index : ℕ} (hindex : index < points.length), left + index + 1 = points.length →
      points[index] ≤ i → ∃ index', it.advanceRestart left index = .ok index' ∧
        ∃ h : index' < points.length, points[index'] ≤ i := by
  induction left with
  | zero => exact fun hindex _ hle => ⟨_, rfl, hindex, hle⟩
  | succ left ih =>
    intro index hindex hleft hle
    have hnext : index + 1 < points.length := by omega
    rw [advanceRestart, getRestartPoint_eq hl hsmall h hnext, ok_bind, hcurrent]
    split
    · rename_i hlt
      rw [offsetAt_lt_iff (hl.point_le hnext) hi] at hlt
      exact ih hnext (by omega) hlt.le
    · exact ⟨index, rfl, hindex, hle⟩

/-- **`ParseNextKey`** comes to the entry it was ready for. -/
theorem parse_ready (h : Ready cmp items points it i) (hi : i < items.length) :
    ∃ it', it.parseNextKey = .ok (true, it') ∧ At cmp items points it' i := by
  have hr := restarts_small hsmall
  have hoff := offsetAt_le h.le
  have hlt : offsetAt items i < (itemBytes items).length := by
    rw [← offsetAt_length]
    exact offsetAt_lt hi le_rfl
  have hnext : it.nextEntryOffset = offsetAt items i := by
    rw [nextEntryOffset, h.value_end, u32_of_lt (by omega)]
  have hshared := hl.shared_le _ (List.getElem_mem hi)
  have htakes := h.takes hi
  have hkey : items[i].shared ≤ it.key.length := by
    have := congrArg List.length htakes
    rw [List.length_take, List.length_take, min_eq_left hshared] at this
    omega
  obtain ⟨hindex, hpoint⟩ := h.index
  rw [parseNextKey]
  simp only [hnext, h.block.restarts, h.block.data, h.block.numRestarts]
  rw [if_neg (by omega), hl.decodeEntry hsmall hi, ok_bind]
  simp only
  rw [if_neg (by omega), Layout.readDelta points hi, ok_bind]
  set it' : Iter := { it with
    current := offsetAt items i
    key := it.key.take items[i].shared ++ items[i].key.drop items[i].shared
    valueOffset := offsetAt items i + items[i].header.length +
      (items[i].key.length - items[i].shared)
    valueLength := items[i].value.length } with hit'
  have hover : Over cmp items points it' :=
    ⟨h.block.comparator, h.block.data, h.block.restarts, h.block.numRestarts, h.block.status⟩
  obtain ⟨index, hadvance, hindex', hpoint'⟩ := advanceRestart_spec hl hsmall hover h.le rfl
    (points.length - 1 - it.restartIndex) hindex (by omega) hpoint
  refine ⟨{ it' with restartIndex := index }, ?_, ?_⟩
  · rw [hit'] at hadvance
    simp only [h.block.restarts, h.block.data, h.block.numRestarts] at hadvance ⊢
    rw [hadvance, ok_bind]
    simp only [hit', h.block.data, h.block.restarts, h.block.numRestarts]
  · constructor
    · exact ⟨hover.comparator, hover.data, hover.restarts, hover.numRestarts, hover.status⟩
    · exact h.le
    · intro _
      constructor
      · rfl
      · show it.key.take items[i].shared ++ items[i].key.drop items[i].shared = _
        rw [htakes, List.take_append_drop]
      · show (it.data.drop _).take _ = _
        rw [h.block.data]
        exact Layout.readValue hi
      · show offsetAt items i + items[i].header.length +
          (items[i].key.length - items[i].shared) + items[i].value.length = _
        rw [offsetAt_succ hi, Item.length_bytes]
        omega
      · exact ⟨hindex', hpoint'⟩
    · exact fun heq => absurd heq hi.ne

omit hl in
/-- Behind the last entry it leaves the block. -/
theorem parse_end (h : Ready cmp items points it items.length) :
    ∃ it', it.parseNextKey = .ok (false, it') ∧ At cmp items points it' items.length := by
  have hr := restarts_small hsmall
  have hnext : it.nextEntryOffset = (itemBytes items).length := by
    rw [nextEntryOffset, h.value_end, offsetAt_length, u32_of_lt hr]
  rw [parseNextKey]
  simp only [hnext, h.block.restarts]
  rw [if_pos le_rfl]
  refine ⟨_, rfl, ?_⟩
  constructor
  · exact ⟨h.block.comparator, h.block.data, rfl, h.block.numRestarts, h.block.status⟩
  · exact le_rfl
  · exact fun hlt => absurd hlt (lt_irrefl _)
  · exact fun _ => rfl

omit hsmall in
/-- A state at an entry is ready for the one behind it. -/
theorem At.ready (h : At cmp items points it i) (hi : i < items.length) :
    Ready cmp items points it (i + 1) := by
  have hs := h.shows hi
  constructor
  · exact h.block
  · exact hi
  · exact hs.value_end
  · intro hlt
    rw [hs.key]
    exact hl.takes i hlt
  · obtain ⟨hindex, hpoint⟩ := hs.index
    exact ⟨hindex, hpoint.trans (Nat.le_succ i)⟩

/-! ## The loops -/

/-- `while (ParseNextKey() && NextEntryOffset() < bound)` ends at the entry before the
bound. -/
theorem skipTo_spec {m : ℕ} (hm : m ≤ items.length) (n : ℕ) :
    ∀ {it : Iter} {k : ℕ}, Ready cmp items points it k → k < m → m - k ≤ n →
      ∃ it', skipTo (offsetAt items m) n it = .ok it' ∧ At cmp items points it' (m - 1) := by
  induction n with
  | zero => exact fun _ hlt hle => absurd hlt (by omega)
  | succ n ih =>
    intro it k h hlt hle
    have hk : k < items.length := by omega
    obtain ⟨it', hparse, hat⟩ := parse_ready hl hsmall h hk
    have hnext : it'.nextEntryOffset = offsetAt items (k + 1) := by
      have hle : offsetAt items (k + 1) ≤ (itemBytes items).length := offsetAt_le hk
      have := restarts_small hsmall
      rw [nextEntryOffset, (hat.shows hk).value_end, u32_of_lt (by omega)]
    rw [skipTo, hparse, ok_bind]
    simp only [hnext, Bool.true_and, decide_eq_true_eq]
    split
    · rename_i hmore
      rw [offsetAt_lt_iff hk hm] at hmore
      exact ih (hat.ready hl hk) hmore (by omega)
    · rename_i hdone
      rw [offsetAt_lt_iff hk hm] at hdone
      have heq : m - 1 = k := by omega
      exact ⟨it', rfl, heq ▸ hat⟩

/-- The first loop of `Prev`: a restart point before the entry, if there is one. -/
theorem restartBefore_spec (h : Over cmp items points it) (hi : i ≤ items.length) (index : ℕ) :
    index < points.length → ∃ r, it.restartBefore (offsetAt items i) index = .ok r ∧
      (r = none → i = 0) ∧
      ∀ j, r = some j → ∃ hj : j < points.length, points[j] < i := by
  have hle {j : ℕ} (hj : j < points.length) :
      offsetAt items i ≤ offsetAt items points[j] ↔ ¬ points[j] < i := by
    rw [← not_lt, offsetAt_lt_iff (hl.point_le hj) hi]
  induction index with
  | zero =>
    intro hindex
    rw [restartBefore, getRestartPoint_eq hl hsmall h hindex, ok_bind]
    split
    · rename_i hbefore
      rw [hle hindex, hl.first] at hbefore
      exact ⟨none, rfl, fun _ => Nat.eq_zero_of_not_pos hbefore, nofun⟩
    · rename_i hbefore
      rw [hle hindex, not_not] at hbefore
      refine ⟨some 0, rfl, nofun, fun j hj => ?_⟩
      cases hj
      exact ⟨hindex, hbefore⟩
  | succ index ih =>
    intro hindex
    rw [restartBefore, getRestartPoint_eq hl hsmall h hindex, ok_bind]
    split
    · exact ih (by omega)
    · rename_i hbefore
      rw [hle hindex, not_not] at hbefore
      refine ⟨some (index + 1), rfl, nofun, fun j hj => ?_⟩
      cases hj
      exact ⟨hindex, hbefore⟩

/-- The binary search of `Seek` finds a restart point that is no later than the first entry
at or behind the target: its key is below the target, or it is the first. -/
theorem searchRestart_spec (h : Over cmp items points it) (target : Bytes) (n : ℕ) :
    ∀ {left right : ℕ}, right - left < n → left ≤ right → right < points.length →
      (left = 0 ∨ ∃ (hj : left < points.length) (hi : points[left] < items.length),
        cmp.compare items[points[left]].key target = .lt) →
      ∃ left', it.searchRestart target n left right = .ok (some left') ∧
        left' < points.length ∧
        (left' = 0 ∨ ∃ (hj : left' < points.length) (hi : points[left'] < items.length),
          cmp.compare items[points[left']].key target = .lt) := by
  induction n with
  | zero => exact fun hn => absurd hn (Nat.not_lt_zero _)
  | succ n ih =>
    intro left right hn hle hright hleft
    rw [searchRestart]
    by_cases hlt : left < right
    · have hpoints : points.length ≤ (layoutBytes items points).length := by
        rw [length_layoutBytes]
        omega
      have hmid : u32 (left + right + 1) / 2 = (left + right + 1) / 2 := by
        rw [length_layoutBytes] at hsmall
        rw [u32_of_lt (by omega)]
      rw [if_pos hlt]
      simp only [hmid]
      set mid := (left + right + 1) / 2
      have hmid : mid < points.length := by omega
      have hpoint : points[mid] < items.length := hl.point_lt hmid (by omega)
      have hzero := hl.restart _ (List.getElem_mem hmid) hpoint
      have hdelta := Layout.readDelta points hpoint
      rw [getRestartPoint_eq hl hsmall h hmid, ok_bind, h.data, h.restarts,
        hl.decodeEntry hsmall hpoint, ok_bind]
      simp only
      rw [if_neg (not_not.2 hzero), hdelta, ok_bind, hzero, List.drop_zero, h.comparator]
      split
      · rename_i hcmp
        exact ih (by omega) (by omega) hright (Or.inr ⟨hmid, hpoint, hcmp⟩)
      · exact ih (by omega) (by omega) (by omega) hleft
    · rw [if_neg hlt]
      exact ⟨left, rfl, by omega, hleft⟩

omit hl hsmall in
theorem length_le_rounds (h : Over cmp items points it) : items.length < it.rounds := by
  rw [rounds, h.restarts, ← offsetAt_length]
  exact Nat.lt_succ_of_le (le_offsetAt le_rfl)

end Parse

/-! ## The operations -/

section Operations

variable {cmp : Comparator} [cmp.Lawful] {items : List Item} {points : List ℕ}
  (hl : Layout items points) (hsmall : (layoutBytes items points).length < 4294967296)
  {it : Iter} {i : ℕ}

include hl hsmall

omit [cmp.Lawful]

/-- The linear search of `Seek` ends at the first entry at or behind the target. -/
theorem scanTo_spec (target : Bytes) (n : ℕ) : ∀ {it : Iter} {k : ℕ},
    Ready cmp items points it k → k ≤ lowerBound cmp.compare (items.map Item.entry) target →
    items.length - k < n → ∃ it', scanTo target n it = .ok it' ∧
      At cmp items points it' (lowerBound cmp.compare (items.map Item.entry) target) := by
  induction n with
  | zero => exact fun _ _ hn => absurd hn (Nat.not_lt_zero _)
  | succ n ih =>
    intro it k h hk hn
    have hbound := Cursor.lowerBound_le cmp.compare (items.map Item.entry) target
    rw [List.length_map] at hbound
    rw [scanTo]
    rcases h.le.lt_or_eq with hlt | heq
    · obtain ⟨it', hparse, hat⟩ := parse_ready hl hsmall h hlt
      rw [hparse, ok_bind]
      simp only [Bool.true_and, decide_eq_true_eq, hat.block.comparator, (hat.shows hlt).key]
      split
      · rename_i hcmp
        refine ih (hat.ready hl hlt) (lt_of_le_of_ne hk fun heq => ?_) (by omega)
        have hge := Cursor.isGE_lowerBound cmp.compare (items.map Item.entry) target
          (by rwa [← heq, List.length_map])
        simp only [← heq, List.getElem_map, Item.entry, hcmp] at hge
        cases hge
      · rename_i hcmp
        refine ⟨it', rfl, ?_⟩
        have heq : lowerBound cmp.compare (items.map Item.entry) target = k := by
          rcases hk.lt_or_eq with hk | hk
          · have := Cursor.lt_of_lt_lowerBound hk
            rw [List.getElem_map] at this
            exact absurd this hcmp
          · exact hk.symm
        rw [heq]
        exact hat
    · subst heq
      obtain ⟨it', hparse, hat⟩ := parse_end hsmall h
      rw [hparse, ok_bind]
      exact ⟨it', rfl, le_antisymm hk hbound ▸ hat⟩

theorem seekToFirst_spec (h : Over cmp items points it) :
    ∃ it', it.seekToFirst = .ok it' ∧ At cmp items points it' 0 := by
  obtain ⟨it', hseek, hready⟩ := seekToRestartPoint_ready hl hsmall h hl.points_pos
  rw [hl.first] at hready
  rw [seekToFirst, hseek, ok_bind]
  rcases Nat.eq_zero_or_pos items.length with hzero | hpos
  · rw [← hzero] at hready
    obtain ⟨it'', hparse, hat⟩ := parse_end hsmall hready
    rw [hparse, ok_bind]
    exact ⟨it'', rfl, hzero ▸ hat⟩
  · obtain ⟨it'', hparse, hat⟩ := parse_ready hl hsmall hready hpos
    rw [hparse, ok_bind]
    exact ⟨it'', rfl, hat⟩

theorem seekToLast_spec (h : Over cmp items points it) :
    ∃ it', it.seekToLast = .ok it' ∧ At cmp items points it' (items.length - 1) := by
  have hpos := hl.points_pos
  have hlast : points.length - 1 < points.length := by omega
  obtain ⟨it', hseek, hready⟩ := seekToRestartPoint_ready hl hsmall h hlast
  rw [seekToLast, h.numRestarts, hseek, ok_bind, hready.block.restarts]
  have hrounds := length_le_rounds hready.block
  rcases hl.points_le _ (List.getElem_mem hlast) with hzero | hlt
  · rw [hzero] at hready
    rcases Nat.eq_zero_or_pos items.length with hempty | hpos'
    · rw [← hempty] at hready
      obtain ⟨it'', hparse, hat⟩ := parse_end hsmall hready
      refine ⟨it'', ?_, by simpa [hempty] using hat⟩
      rw [rounds, skipTo, hparse]
      rfl
    · rw [← offsetAt_length]
      exact skipTo_spec hl hsmall le_rfl _ hready hpos' (by omega)
  · rw [← offsetAt_length]
    exact skipTo_spec hl hsmall le_rfl _ hready hlt (by omega)

theorem next_spec (h : At cmp items points it i) (hi : i < items.length) :
    ∃ it', it.next = .ok it' ∧ At cmp items points it' (i + 1) := by
  have hready := h.ready hl hi
  rw [next]
  rcases hready.le.lt_or_eq with hlt | heq
  · obtain ⟨it', hparse, hat⟩ := parse_ready hl hsmall hready hlt
    rw [hparse, ok_bind]
    exact ⟨it', rfl, hat⟩
  · rw [heq] at hready ⊢
    obtain ⟨it', hparse, hat⟩ := parse_end hsmall hready
    rw [hparse, ok_bind]
    exact ⟨it', rfl, hat⟩

theorem prev_spec (h : At cmp items points it i) (hi : i < items.length) :
    ∃ it', it.prev = .ok it' ∧
      At cmp items points it' (if i = 0 then items.length else i - 1) := by
  have hs := h.shows hi
  obtain ⟨hindex, hpoint⟩ := hs.index
  obtain ⟨r, hr, hnone, hsome⟩ := restartBefore_spec hl hsmall h.block h.le it.restartIndex hindex
  rw [prev, hs.current, hr, ok_bind]
  cases r with
  | none =>
    rw [if_pos (hnone rfl)]
    refine ⟨_, rfl, ?_⟩
    constructor
    · exact ⟨h.block.comparator, h.block.data, h.block.restarts, h.block.numRestarts,
        h.block.status⟩
    · exact le_rfl
    · exact fun hlt => absurd hlt (lt_irrefl _)
    · exact fun _ => rfl
  | some j =>
    obtain ⟨hj, hbefore⟩ := hsome j rfl
    obtain ⟨it', hseek, hready⟩ := seekToRestartPoint_ready hl hsmall h.block hj
    simp only
    rw [hseek, ok_bind, if_neg (by omega)]
    have hrounds := length_le_rounds hready.block
    have hrounds' : it.rounds = it'.rounds := by
      rw [rounds, rounds, h.block.restarts, hready.block.restarts]
    exact skipTo_spec hl hsmall hi.le _ hready hbefore (by omega)

variable [cmp.Lawful] (hsorted : Cursor.Sorted cmp.compare (items.map Item.entry))

include hsorted

/-- `Seek` behind the comparison with the current key. -/
theorem seekFrom_spec (h : Over cmp items points it) (target : Bytes) {left right : ℕ}
    {order : Ordering} (hle : left ≤ right) (hright : right < points.length)
    (hleft : left = 0 ∨ ∃ (hj : left < points.length) (hi : points[left] < items.length),
      cmp.compare items[points[left]].key target = .lt)
    (horder : order = .lt → ∃ k, Ready cmp items points it k ∧
      k ≤ lowerBound cmp.compare (items.map Item.entry) target) :
    ∃ it', it.seekFrom target left right order = .ok it' ∧
      At cmp items points it' (lowerBound cmp.compare (items.map Item.entry) target) := by
  obtain ⟨left', hsearch, hlt, hbefore⟩ := searchRestart_spec hl hsmall h target it.numRestarts
    (by rw [h.numRestarts]; omega) hle hright hleft
  have hrounds := length_le_rounds h
  rw [seekFrom, hsearch, ok_bind]
  simp only
  by_cases hskip : left' = it.restartIndex ∧ order = .lt
  · obtain ⟨k, hready, hk⟩ := horder hskip.2
    simp only [hskip.1, hskip.2, decide_true, Bool.and_self, if_true, ok_bind]
    exact scanTo_spec hl hsmall target _ hready hk (by omega)
  · obtain ⟨it', hseek, hready⟩ := seekToRestartPoint_ready hl hsmall h hlt
    have hrounds' : it.rounds = it'.rounds := by
      rw [rounds, rounds, h.restarts, hready.block.restarts]
    rw [if_neg (by simpa only [Bool.and_eq_true, decide_eq_true_eq] using hskip), hseek, ok_bind]
    refine scanTo_spec hl hsmall target _ hready ?_ (by omega)
    rcases hbefore with hzero | ⟨hj, hi, hcmp⟩
    · simp only [hzero, hl.first]
      exact Nat.zero_le _
    · exact (hsorted.lt_lowerBound (j := points[left']) (by rwa [List.length_map])
        (by rwa [List.getElem_map])).le

/-- **`Seek`** ends at the first entry at or behind the target, wherever it starts. -/
theorem seek_spec (h : At cmp items points it i) (target : Bytes) :
    ∃ it', it.seek target = .ok it' ∧
      At cmp items points it' (lowerBound cmp.compare (items.map Item.entry) target) := by
  have hpos := hl.points_pos
  rw [seek]
  rcases h.le.lt_or_eq with hi | hi
  · have hs := h.shows hi
    obtain ⟨hindex, hpoint⟩ := hs.index
    have hvalid : it.valid = true := by
      rw [valid, decide_eq_true_eq, hs.current, h.block.restarts, ← offsetAt_length]
      exact offsetAt_lt hi le_rfl
    have hlen : i < (items.map Item.entry).length := by rwa [List.length_map]
    have hentry : (items.map Item.entry)[i].1 = items[i].key := by
      rw [List.getElem_map]
      rfl
    simp only [hvalid, if_true, h.block.comparator, hs.key, h.block.numRestarts]
    split
    · rename_i hcmp
      have hpoint' : points[it.restartIndex] < items.length := hpoint.trans_lt hi
      refine seekFrom_spec hl hsmall hsorted h.block target (by omega) (by omega)
        (Or.inr ⟨hindex, hpoint', ?_⟩) fun _ => ⟨i + 1, h.ready hl hi, ?_⟩
      · have hlt := hsorted.lt_target target hpoint (by rwa [List.length_map])
          (by rwa [hentry])
        rwa [List.getElem_map] at hlt
      · exact hsorted.lt_lowerBound (by rwa [List.length_map]) (by rwa [hentry])
    · exact seekFrom_spec hl hsmall hsorted h.block target (Nat.zero_le _) hindex (Or.inl rfl)
        nofun
    · rename_i hcmp
      refine ⟨it, rfl, ?_⟩
      rwa [hsorted.lowerBound_of_eq (by rwa [List.length_map]) (by rwa [hentry])]
  · have hvalid : ¬ it.valid = true := by
      rw [valid, decide_eq_true_eq, h.invalid hi]
      exact lt_irrefl _
    rw [if_neg hvalid, h.block.numRestarts]
    exact seekFrom_spec hl hsmall hsorted h.block target (Nat.zero_le _) (by omega) (Or.inl rfl)
      nofun

/-- **The iterator of a block walks its entries.** -/
theorem walks : iterator.Walks cmp.compare (items.map Item.entry) (At cmp items points) where
  refines := by
    constructor
    case valid_iff =>
      intro it i h
      show it.valid = true ↔ _
      rw [valid, decide_eq_true_eq, List.length_map]
      constructor
      · intro hlt
        rcases h.le.lt_or_eq with hi | hi
        · exact hi
        · exact absurd (h.invalid hi) hlt.ne
      · intro hi
        rw [(h.shows hi).current, h.block.restarts, ← offsetAt_length]
        exact offsetAt_lt hi le_rfl
    case shows =>
      intro it i h hi
      have hs := h.shows (by rwa [List.length_map] at hi)
      rw [List.getElem_map]
      exact Prod.ext hs.key hs.value
    case step =>
      intro it i op h hallowed
      cases op with
      | seek target => exact seek_spec hl hsmall hsorted h target
      | seekToFirst => exact seekToFirst_spec hl hsmall h.block
      | seekToLast =>
        have := seekToLast_spec hl hsmall h.block
        rwa [← List.length_map Item.entry] at this
      | next =>
        rw [Cursor.Allowed, List.length_map] at hallowed
        exact next_spec hl hsmall h hallowed
      | prev =>
        rw [Cursor.Allowed, List.length_map] at hallowed
        have := prev_spec hl hsmall h hallowed
        rwa [← List.length_map Item.entry] at this
  status h := h.block.status

end Operations

end Iter

/-! ## Blocks that are built -/

/-- Keys and values are no longer than the bytes written for them. -/
theorem BlockBuilder.add_length (interval : ℕ) {b : BlockBuilder}
    (hb : b.lastKey.length ≤ b.buffer.length) (key value : Bytes) :
    (b.add interval key value).lastKey.length ≤ (b.add interval key value).buffer.length ∧
      b.buffer.length + value.length ≤ (b.add interval key value).buffer.length ∧
      key.length ≤ (b.add interval key value).buffer.length := by
  have hs := sharedPrefix_le_left b.lastKey key
  have hs' := sharedPrefix_le_right b.lastKey key
  rw [add]
  split
  rename_i shared restarts counter heq
  have hshared : shared ≤ b.lastKey.length ∧ shared ≤ key.length := by
    split at heq <;> (cases heq; omega)
  simp only [putVarint32, List.length_append, List.length_take, List.length_drop]
  omega

theorem BlockBuilder.addAll_length (interval : ℕ) (entries : List (Bytes × Bytes)) :
    ∀ {b : BlockBuilder}, b.lastKey.length ≤ b.buffer.length →
      b.buffer.length ≤ (addAll interval b entries).buffer.length ∧
      ∀ e ∈ entries, e.1.length ≤ (addAll interval b entries).buffer.length ∧
        e.2.length ≤ (addAll interval b entries).buffer.length := by
  induction entries with
  | nil => exact fun _ => ⟨le_rfl, fun e he => absurd he List.not_mem_nil⟩
  | cons e entries ih =>
    intro b hb
    obtain ⟨hlast, hvalue, hkey⟩ := add_length interval hb e.1 e.2
    obtain ⟨hbuffer, hentries⟩ := ih hlast
    have hcons : addAll interval b (e :: entries) = addAll interval (b.add interval e.1 e.2) entries :=
      rfl
    rw [hcons]
    refine ⟨by omega, fun e' he' => ?_⟩
    rcases List.mem_cons.1 he' with rfl | he'
    · omega
    · exact hentries e' he'

theorem length_le_buildBlock (interval : ℕ) {entries : List (Bytes × Bytes)} {e : Bytes × Bytes}
    (he : e ∈ entries) : e.1.length ≤ (buildBlock interval entries).length ∧
      e.2.length ≤ (buildBlock interval entries).length := by
  have hle : (BlockBuilder.addAll interval {} entries).buffer.length
      ≤ (buildBlock interval entries).length := by
    rw [buildBlock, BlockBuilder.finish, foldl_appendFixed32, appendFixed32, List.length_append,
      List.length_append]
    omega
  obtain ⟨-, h⟩ := BlockBuilder.addAll_length interval entries (b := {}) le_rfl
  have := h e he
  omega

/-- The reader of a block finds its restart points. -/
theorem openBlock_layout {items : List Item} {points : List ℕ} (hl : Layout items points)
    (hsmall : (layoutBytes items points).length < 4294967296) (cmp : Comparator) :
    openBlock cmp (layoutBytes items points) = .ok (.iter
      (Iter.new cmp (layoutBytes items points) (itemBytes items).length points.length)) := by
  have hlen := length_layoutBytes items points
  have hpos := hl.points_pos
  have hword : (UInt32.ofNat points.length).toNat = points.length := toNat_ofNat32 (by omega)
  have hnum : Block.numRestarts (layoutBytes items points) (layoutBytes items points).length
      = .ok points.length := by
    have := decodeFixed32_append (itemBytes items ++
      (points.map fun p => UInt32.ofNat (offsetAt items p)).flatMap fixed32) []
      (UInt32.ofNat points.length)
    rw [List.append_nil, ← layoutBytes, List.length_append, length_flatMap_fixed32,
      List.length_map] at this
    rw [Block.numRestarts, hlen, Nat.add_sub_cancel, this, ok_bind, hword]
  have hnew : Block.new (layoutBytes items points) = .ok
      { data := layoutBytes items points, size := (layoutBytes items points).length,
        restartOffset := (itemBytes items).length } := by
    rw [Block.new]
    simp only
    rw [if_neg (by omega), hnum, ok_bind, if_neg (by omega), u32_of_lt (by omega),
      u32_of_lt (by omega)]
    congr 2
    omega
  rw [openBlock, hnew, ok_bind, Block.newIterator]
  simp only
  rw [if_neg (by omega), hnum, ok_bind, if_neg (by omega)]

/-- An open block, at a position. -/
def BlockAt (cmp : Comparator) (items : List Item) (points : List ℕ) (s : BlockIterator) (i : ℕ) :
    Prop :=
  ∃ it, s = .iter it ∧ Iter.At cmp items points it i

/-- **Every block that is built** is walked by its iterator, which starts behind the last
entry. -/
theorem buildBlock_walks {cmp : Comparator} [cmp.Lawful] {interval : ℕ} (hpos : 1 ≤ interval)
    {entries : List (Bytes × Bytes)} (hsorted : Cursor.Sorted cmp.compare entries)
    (hsmall : (buildBlock interval entries).length < 4294967296) :
    ∃ At, blockIterator.Walks cmp.compare entries At ∧
      ∃ s, openBlock cmp (buildBlock interval entries) = .ok s ∧ At s entries.length := by
  obtain ⟨items, points, hl, rfl, hbuild⟩ := buildBlock_layout hpos entries
    fun e he => by
      have := length_le_buildBlock interval he
      omega
  rw [hbuild] at hsmall ⊢
  have hwalks := Iter.walks hl hsmall hsorted
  refine ⟨BlockAt cmp items points, ?_, _, openBlock_layout hl hsmall cmp, _, rfl, ?_⟩
  · constructor
    case refines =>
      constructor
      case valid_iff =>
        rintro s i ⟨it, rfl, h⟩
        exact hwalks.refines.valid_iff h
      case shows =>
        rintro s i ⟨it, rfl, h⟩
        exact hwalks.refines.shows h
      case step =>
        rintro s i op ⟨it, rfl, h⟩ hallowed
        obtain ⟨it', hstep, h'⟩ := hwalks.refines.step h hallowed
        refine ⟨.iter it', ?_, it', rfl, h'⟩
        show (it.step op).map BlockIterator.iter = _
        rw [show it.step op = .ok it' from hstep]
        rfl
    case status =>
      rintro s i ⟨it, rfl, h⟩
      exact hwalks.status h
  · rw [List.length_map]
    constructor
    · exact ⟨rfl, rfl, rfl, rfl, rfl⟩
    · exact le_rfl
    · exact fun hlt => absurd hlt (lt_irrefl _)
    · exact fun _ => rfl

/-- **A block is read as it was written:** after every run of operations from a fresh
iterator, in which steps are taken from valid positions only, the iterator reports no error
and shows what a cursor on the entries shows after the same run. -/
theorem buildBlock_run {cmp : Comparator} [cmp.Lawful] {interval : ℕ} (hpos : 1 ≤ interval)
    {entries : List (Bytes × Bytes)} (hsorted : Cursor.Sorted cmp.compare entries)
    (hsmall : (buildBlock interval entries).length < 4294967296) (ops : List (Op Bytes))
    (hallowed : Cursor.AllAllowed cmp.compare entries ops entries.length) :
    ∃ s s', openBlock cmp (buildBlock interval entries) = .ok s ∧
      Cursor.run blockIterator.toIterator ops s = .ok s' ∧ blockIterator.status s' = .ok ∧
      blockIterator.entry s' = entries[Cursor.moves cmp.compare entries ops entries.length]? := by
  obtain ⟨At, hwalks, s, hopen, hs⟩ := buildBlock_walks hpos hsorted hsmall
  obtain ⟨s', hrun, hstatus, hentry⟩ := hwalks.run hs ops hallowed
  exact ⟨s, s', hopen, hrun, hstatus, hentry⟩

theorem buildBlock_run_three :
    ∃ s s', openBlock bytewiseComparator (buildBlock 2 [([1], [9]), ([1, 2], []), ([3], [7])])
        = .ok s ∧
      Cursor.run blockIterator.toIterator [.seek [1, 1], .next, .prev, .seekToLast, .prev] s
        = .ok s' ∧ blockIterator.status s' = .ok ∧
      blockIterator.entry s' = [([1], [9]), ([1, 2], []), ([3], [7])][Cursor.moves sliceCompare
        [([1], [9]), ([1, 2], []), ([3], [7])]
        [.seek [1, 1], .next, .prev, .seekToLast, .prev] 3]? :=
  buildBlock_run (by decide) (by unfold Cursor.Sorted; decide) (by decide) _ (by decide)

end PackedFilters.LevelDb
