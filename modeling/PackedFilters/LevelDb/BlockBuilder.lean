import PackedFilters.LevelDb.Comparator
import PackedFilters.LevelDb.FilterBlock
import PackedFilters.Codec.Coding

/-!
# The builder of a block

`table/block_builder.cc`: entries whose keys leave out what they share with the key before
them, and restart points at which a key is written in full.

An entry is three varints (how many bytes of its key it shares, how many follow, and the
length of its value) with the rest of the key and the value behind them.  After so many
entries the builder starts anew with a whole key and notes the offset, so that a reader can
begin there; the offsets and their number end the block.  They are 32-bit numbers, and a
block has to be shorter than four gigabytes for them to be right.

* `BlockBuilder`, `buildBlock` — the builder, and a whole run of it;
* `Item`, `layoutBytes` — entries as they lie in a block, and the bytes of all of them;
* `Layout` — what holds of every block and is all that its reader relies on: what an entry
  leaves out it takes from the one before it, and at a restart point nothing is left out;
* `Represents` — what the state of a builder stands for, kept by `Add` (`represents_add`,
  `represents_addAll`);
* `buildBlock_layout` — every block that is built has such a layout of its entries.
-/

namespace PackedFilters.LevelDb

open LittleEndian

/-! ## The builder -/

/-- `BlockBuilder`, less `finished_`, which only its assertions read. -/
structure BlockBuilder where
  buffer : Bytes := []
  restarts : List UInt32 := [0]
  /-- Entries since the last restart. -/
  counter : ℕ := 0
  lastKey : Bytes := []

namespace BlockBuilder

/-- `empty`: no entry was added. -/
def empty (b : BlockBuilder) : Bool := b.buffer.isEmpty

/-- `CurrentSizeEstimate`: the length that the block would have if it were finished now. -/
def currentSizeEstimate (b : BlockBuilder) : ℕ := b.buffer.length + b.restarts.length * 4 + 4

/-- `Add`, with `block_restart_interval`: the entry is appended without what its key shares with
the last one, or, when the interval is over, with its whole key and a new restart point. -/
def add (interval : ℕ) (b : BlockBuilder) (key value : Bytes) : BlockBuilder :=
  let (shared, restarts, counter) :=
    if b.counter < interval then (sharedPrefix b.lastKey key, b.restarts, b.counter)
    else (0, b.restarts ++ [UInt32.ofNat b.buffer.length], 0)
  let nonShared := key.length - shared
  let buffer := putVarint32 b.buffer shared
  let buffer := putVarint32 buffer nonShared
  let buffer := putVarint32 buffer value.length
  { buffer := buffer ++ key.drop shared ++ value
    restarts
    counter := counter + 1
    lastKey := b.lastKey.take shared ++ key.drop shared }

/-- `Finish`: the block.  `Reset` after it leaves a new builder. -/
def finish (b : BlockBuilder) : Bytes :=
  appendFixed32 (b.restarts.foldl appendFixed32 b.buffer) (UInt32.ofNat b.restarts.length)

/-- `Add` for each of the entries. -/
def addAll (interval : ℕ) (b : BlockBuilder) (entries : List (Bytes × Bytes)) : BlockBuilder :=
  entries.foldl (fun b e => b.add interval e.1 e.2) b

end BlockBuilder

/-- A whole block: the entries added to a new builder, one after the other, and then
`Finish`. -/
def buildBlock (interval : ℕ) (entries : List (Bytes × Bytes)) : Bytes :=
  (BlockBuilder.addAll interval {} entries).finish

/-! ## Entries in a block -/

/-- An entry, with the number of bytes of its key that it leaves out. -/
structure Item where
  shared : ℕ
  key : Bytes
  value : Bytes

namespace Item

/-- The three numbers in front of an entry. -/
def header (e : Item) : Bytes :=
  encodeVarint32 e.shared ++ (encodeVarint32 (e.key.length - e.shared) ++
    encodeVarint32 e.value.length)

/-- An entry as it is written. -/
def bytes (e : Item) : Bytes := e.header ++ (e.key.drop e.shared ++ e.value)

/-- The entry as the reader shows it. -/
def entry (e : Item) : Bytes × Bytes := (e.key, e.value)

end Item

/-- The bytes of entries behind each other. -/
def itemBytes (items : List Item) : Bytes := items.flatMap Item.bytes

/-- Where the entry at position `i` starts. -/
def offsetAt (items : List Item) (i : ℕ) : ℕ := (itemBytes (items.take i)).length

/-- What the reader relies on: a key takes from the one before it what it leaves out, and
at the restart points, which ascend from `0`, keys leave out nothing. -/
structure Layout (items : List Item) (points : List ℕ) : Prop where
  shared_le : ∀ e ∈ items, e.shared ≤ e.key.length
  takes : ∀ i (h : i + 1 < items.length),
    (items[i].key.take items[i + 1].shared) = items[i + 1].key.take items[i + 1].shared
  points_zero : points.head? = some 0
  points_lt : points.Pairwise (· < ·)
  points_le : ∀ p ∈ points, p = 0 ∨ p < items.length
  restart : ∀ p ∈ points, ∀ h : p < items.length, items[p].shared = 0

/-- A block: its entries, the offsets of its restart points and their number. -/
def layoutBytes (items : List Item) (points : List ℕ) : Bytes :=
  itemBytes items ++ (points.map fun p => UInt32.ofNat (offsetAt items p)).flatMap fixed32 ++
    fixed32 (UInt32.ofNat points.length)

theorem itemBytes_append (front back : List Item) :
    itemBytes (front ++ back) = itemBytes front ++ itemBytes back := List.flatMap_append ..

theorem itemBytes_singleton (e : Item) : itemBytes [e] = e.bytes := List.flatMap_singleton ..

theorem offsetAt_append {items : List Item} {i : ℕ} (h : i ≤ items.length) (more : List Item) :
    offsetAt (items ++ more) i = offsetAt items i := by
  rw [offsetAt, List.take_append_of_le_length h, offsetAt]

/-! ## What a builder stands for -/

namespace BlockBuilder

/-- A builder that has written `items` with restarts at `points`. -/
structure Represents (items : List Item) (points : List ℕ) (b : BlockBuilder) : Prop where
  layout : Layout items points
  buffer_eq : b.buffer = itemBytes items
  restarts_eq : b.restarts = points.map fun p => UInt32.ofNat (offsetAt items p)
  lastKey_eq : b.lastKey = (items.getLast?.map Item.key).getD []
  counter_eq : ∀ p ∈ points, p + b.counter ≤ items.length
  counter_zero : b.counter = 0 → items = []

theorem represents_empty : Represents [] [0] {} where
  layout := by constructor <;> simp
  buffer_eq := rfl
  restarts_eq := rfl
  lastKey_eq := rfl
  counter_eq := by simp
  counter_zero _ := rfl

/-- One more entry behind the others. -/
theorem layout_concat {items : List Item} {points : List ℕ} (h : Layout items points) {e : Item}
    (hle : e.shared ≤ e.key.length)
    (htakes : ((items.getLast?.map Item.key).getD []).take e.shared = e.key.take e.shared)
    (hrestart : items.length ∈ points → e.shared = 0) : Layout (items ++ [e]) points where
  shared_le e' he' := by
    rcases List.mem_append.1 he' with he' | he'
    · exact h.shared_le e' he'
    · rwa [List.mem_singleton.1 he']
  takes i hi := by
    rw [List.length_append, List.length_singleton, Nat.succ_lt_succ_iff] at hi
    rcases (Nat.succ_le_of_lt hi).lt_or_eq with hlt | heq
    · rw [List.getElem_append_left hi, List.getElem_append_left hlt]
      exact h.takes i hlt
    · have hlast : items.getLast? = some items[i] := by
        rw [List.getLast?_eq_getElem?, ← heq]
        exact List.getElem?_eq_getElem hi
      rw [hlast] at htakes
      rw [List.getElem_append_left hi, List.getElem_append_right heq.ge]
      simpa using htakes
  points_zero := h.points_zero
  points_lt := h.points_lt
  points_le p hp := by
    rw [List.length_append]
    exact (h.points_le p hp).imp_right fun hlt => hlt.trans_le (Nat.le_add_right ..)
  restart p hp hlt := by
    rcases Nat.lt_or_ge p items.length with hp' | hp'
    · rw [List.getElem_append_left hp']
      exact h.restart p hp hp'
    · rw [List.length_append, List.length_singleton] at hlt
      have heq : p = items.length := le_antisymm (Nat.le_of_lt_succ hlt) hp'
      subst heq
      rw [List.getElem_append_right le_rfl]
      simpa using hrestart hp

/-- A restart point for the entry to come. -/
theorem layout_point {items : List Item} {points : List ℕ} (h : Layout items points)
    (hlt : ∀ p ∈ points, p < items.length) {e : Item} (he : e.shared = 0) :
    Layout (items ++ [e]) (points ++ [items.length]) := by
  have hconcat : Layout (items ++ [e]) points := layout_concat h (he ▸ Nat.zero_le _)
    (by rw [he, List.take_zero, List.take_zero]) fun _ => he
  constructor
  · exact hconcat.shared_le
  · exact hconcat.takes
  · rw [List.head?_append, h.points_zero]
    rfl
  · exact List.pairwise_append.2 ⟨h.points_lt, List.pairwise_singleton _ _, fun p hp q hq => by
      rw [List.mem_singleton.1 hq]
      exact hlt p hp⟩
  · intro p hp
    rcases List.mem_append.1 hp with hp | hp
    · exact hconcat.points_le p hp
    · rw [List.mem_singleton.1 hp]
      simp
  · intro p hp hlt
    rcases List.mem_append.1 hp with hp | hp
    · exact hconcat.restart p hp hlt
    · have heq := List.mem_singleton.1 hp
      subst heq
      rw [List.getElem_append_right le_rfl]
      simpa using he

theorem map_offsetAt_append {items : List Item} {points : List ℕ}
    (h : ∀ p ∈ points, p ≤ items.length) (more : List Item) :
    (points.map fun p => UInt32.ofNat (offsetAt (items ++ more) p))
      = points.map fun p => UInt32.ofNat (offsetAt items p) :=
  List.map_congr_left fun p hp => by rw [offsetAt_append (h p hp)]

/-- `Add` puts an entry behind the others. -/
theorem represents_add {interval : ℕ} (hpos : 1 ≤ interval) {items : List Item}
    {points : List ℕ} {b : BlockBuilder} (h : Represents items points b) {key value : Bytes}
    (hkey : key.length < 4294967296) (hvalue : value.length < 4294967296) :
    ∃ shared points', Represents (items ++ [⟨shared, key, value⟩]) points'
      (b.add interval key value) := by
  have hle : ∀ p ∈ points, p ≤ items.length := fun p hp =>
    (Nat.le_add_right ..).trans (h.counter_eq p hp)
  have hbytes (shared : ℕ) (hs : shared ≤ key.length) :
      putVarint32 (putVarint32 (putVarint32 b.buffer shared) (key.length - shared)) value.length ++
        key.drop shared ++ value = itemBytes (items ++ [⟨shared, key, value⟩]) := by
    rw [itemBytes_append, itemBytes_singleton, ← h.buffer_eq, Item.bytes, Item.header]
    simp only [putVarint32, List.append_assoc]
    rw [u32_of_lt (by omega), u32_of_lt (by omega), u32_of_lt hvalue]
  by_cases hcounter : b.counter < interval
  · have hs := sharedPrefix_le_right b.lastKey key
    refine ⟨sharedPrefix b.lastKey key, points, ?_⟩
    rw [add, if_pos hcounter]
    constructor
    · refine layout_concat h.layout hs ?_ fun hmem => ?_
      · rw [← h.lastKey_eq]
        exact take_sharedPrefix _ _
      · have hzero := h.counter_zero (by have := h.counter_eq _ hmem; omega)
        simp [h.lastKey_eq, hzero, sharedPrefix]
    · exact hbytes _ hs
    · rw [map_offsetAt_append hle]
      exact h.restarts_eq
    · rw [List.getLast?_concat]
      simp only [Option.map_some, Option.getD_some]
      rw [take_sharedPrefix, List.take_append_drop]
    · intro p hp
      have := h.counter_eq p hp
      simp only [List.length_append, List.length_singleton]
      omega
    · exact fun h0 => absurd h0 (Nat.succ_ne_zero _)
  · have hlt : ∀ p ∈ points, p < items.length := fun p hp => by
      have := h.counter_eq p hp
      omega
    refine ⟨0, points ++ [items.length], ?_⟩
    rw [add, if_neg hcounter]
    constructor
    · exact layout_point h.layout hlt rfl
    · exact hbytes 0 (Nat.zero_le _)
    · rw [List.map_append, map_offsetAt_append hle, ← h.restarts_eq, List.map_singleton,
        offsetAt_append le_rfl, offsetAt, List.take_length, ← h.buffer_eq]
    · simp
    · intro p hp
      show p + (0 + 1) ≤ (items ++ [_]).length
      rw [List.length_append, List.length_singleton]
      rcases List.mem_append.1 hp with hp | hp
      · have := hlt p hp
        omega
      · rw [List.mem_singleton.1 hp]
    · exact fun h0 => absurd h0 (Nat.succ_ne_zero _)

/-- So do the calls of `Add` for several entries. -/
theorem represents_addAll {interval : ℕ} (hpos : 1 ≤ interval) (entries : List (Bytes × Bytes)) :
    ∀ {items : List Item} {points : List ℕ} {b : BlockBuilder}, Represents items points b →
    (∀ e ∈ entries, e.1.length < 4294967296 ∧ e.2.length < 4294967296) →
    ∃ items' points', Represents items' points' (addAll interval b entries) ∧
      items'.map Item.entry = items.map Item.entry ++ entries := by
  induction entries with
  | nil => exact fun h _ => ⟨_, _, h, (List.append_nil _).symm⟩
  | cons e entries ih =>
    intro items points b h hsmall
    obtain ⟨hkey, hvalue⟩ := hsmall e List.mem_cons_self
    obtain ⟨shared, points', h'⟩ := represents_add hpos h hkey hvalue
    obtain ⟨items'', points'', h'', heq⟩ := ih h' fun e' he' => hsmall e' (List.mem_cons_of_mem _ he')
    refine ⟨items'', points'', h'', ?_⟩
    rw [heq, List.map_append, List.map_singleton, List.append_assoc]
    rfl

/-- What `Finish` returns. -/
theorem Represents.finish_eq {items : List Item} {points : List ℕ} {b : BlockBuilder}
    (h : Represents items points b) : b.finish = layoutBytes items points := by
  rw [finish, foldl_appendFixed32, appendFixed32, h.buffer_eq, h.restarts_eq, layoutBytes,
    List.length_map]

end BlockBuilder

/-- **Every block that is built** is a layout of its entries. -/
theorem buildBlock_layout {interval : ℕ} (hpos : 1 ≤ interval) (entries : List (Bytes × Bytes))
    (h : ∀ e ∈ entries, e.1.length < 4294967296 ∧ e.2.length < 4294967296) :
    ∃ items points, Layout items points ∧ items.map Item.entry = entries ∧
      buildBlock interval entries = layoutBytes items points := by
  obtain ⟨items, points, hrep, heq⟩ :=
    BlockBuilder.represents_addAll hpos entries BlockBuilder.represents_empty h
  exact ⟨items, points, hrep.layout, heq, hrep.finish_eq⟩

end PackedFilters.LevelDb
