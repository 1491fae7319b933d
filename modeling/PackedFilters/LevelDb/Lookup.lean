import PackedFilters.Lib.Sources
import PackedFilters.LevelDb.Table

/-!
# Lookups in a table

What a table of internal keys answers: `SanitizeOptions`, `TableCache::Get` on an open table
and its callback `SaveValue`.

The records of a table are writes, and a lookup at a sequence number is to find, among those
of its user key that are not newer, the newest one.  In the order of internal keys that is
the first visible record (`newest_spec`), and the first entry at or behind the lookup's key;
`SaveValue` compares the user key of what it is shown, so that an entry of another user key
is no answer.

A filter is asked before the block is read, with the same internal key, from which
`InternalFilterPolicy` takes the number off.  It may only pass over a block in which the user
key does not occur.  So the answer is the same with every sound policy and with none; the
policy must not tell apart what the comparator takes for equal, and that is a hypothesis.

* `Record`, `newest` — a write, and the one a lookup must find among others;
* `newest_spec` — it is the visible one with the largest number;
* `Table.get`, `Table.Serves` — the lookup, and that it answers as some records do;
* `buildTable_serves` — a table that is built finds the newest visible record, with a filter
  or without one;
* `filter_transparent` — a table with a filter and one without answer alike.
-/

namespace PackedFilters.LevelDb

open LittleEndian Cursor Sources

/-! ## Records -/

/-- A write, as a table keeps it. -/
structure Record where
  key : ParsedInternalKey
  value : Bytes
  deriving DecidableEq

/-- The entry of a record in a table. -/
def Record.entry (r : Record) : Bytes × Bytes := (appendInternalKey [] r.key, r.value)

/-- A lookup of `userKey` at `sequence` may see the record. -/
def Record.Visible (user : Comparator) (userKey : Bytes) (sequence : ℕ) (r : Record) : Prop :=
  user.compare r.key.userKey userKey = .eq ∧ r.key.sequence ≤ sequence

instance (user : Comparator) (userKey : Bytes) (sequence : ℕ) :
    DecidablePred (Record.Visible user userKey sequence) :=
  fun _ => inferInstanceAs (Decidable (_ ∧ _))

/-- The first visible record. -/
def newest (user : Comparator) (userKey : Bytes) (sequence : ℕ) (records : List Record) :
    Option Record :=
  records.find? fun r => r.Visible user userKey sequence

/-- Records as a table may have them: in order, with numbers that fit. -/
structure Ordered (user : Comparator) (records : List Record) : Prop where
  sorted : Sorted (internalCompare user) (records.map Record.entry)
  sequence_le : ∀ r ∈ records, r.key.sequence ≤ kMaxSequenceNumber

theorem Ordered.of_cons {user : Comparator} {r : Record} {records : List Record}
    (h : Ordered user (r :: records)) : Ordered user records where
  sorted := (List.pairwise_cons.1 h.sorted).2
  sequence_le := fun r' hr' => h.sequence_le r' (List.mem_cons_of_mem _ hr')

section Order

variable {user : Comparator} {userKey : Bytes} {sequence : ℕ}

theorem Record.userKey_entry (r : Record) : extractUserKey r.entry.1 = r.key.userKey := by
  rw [Record.entry, appendInternalKey, List.nil_append, extractUserKey_append]

theorem Record.tag_entry {r : Record} (h : r.key.sequence ≤ kMaxSequenceNumber) :
    extractTag r.entry.1 = 256 * r.key.sequence + r.key.type.toNat := by
  rw [Record.entry, appendInternalKey, List.nil_append,
    extractTag_append _ (packSequenceAndType_lt h _), packSequenceAndType_eq h]

theorem userKey_lookupKey : extractUserKey (lookupKey userKey sequence) = userKey :=
  extractUserKey_append _ _

theorem tag_lookupKey (h : sequence ≤ kMaxSequenceNumber) :
    extractTag (lookupKey userKey sequence) = 256 * sequence + 1 := by
  rw [lookupKey, extractTag_append _ (packSequenceAndType_lt h _), packSequenceAndType_eq h]
  rfl

/-- Records at or behind a lookup key are visible or have a later user key. -/
theorem isGE_lookupKey (user : Comparator) (userKey : Bytes) {r : Record} (hr : r.key.sequence ≤ kMaxSequenceNumber)
    (hs : sequence ≤ kMaxSequenceNumber) :
    (internalCompare user r.entry.1 (lookupKey userKey sequence)).isGE = true ↔
      user.compare r.key.userKey userKey = .gt ∨ r.Visible user userKey sequence := by
  have htag : (compare (256 * sequence + 1) (256 * r.key.sequence + r.key.type.toNat)).isGE = true ↔
      r.key.sequence ≤ sequence := by
    rw [Nat.isGE_compare]
    cases r.key.type <;> simp only [ValueType.toNat] <;> omega
  rw [internalCompare, r.userKey_entry, userKey_lookupKey, r.tag_entry hr, tag_lookupKey hs,
    Record.Visible]
  cases user.compare r.key.userKey userKey
  · simp [Ordering.then]
  · simpa [Ordering.then] using htag
  · simp [Ordering.then]

variable [user.Lawful]

/-- Behind a record with a later user key there is nothing to see. -/
theorem not_visible_of_gt {r : Record} (hgt : user.compare r.key.userKey userKey = .gt)
    {r' : Record} (hlt : internalCompare user r.entry.1 r'.entry.1 = .lt) :
    ¬ r'.Visible user userKey sequence := by
  intro hvisible
  have hle := userCompare_of_internalCompare (Ordering.isLE_of_eq_lt hlt)
  rw [r.userKey_entry, r'.userKey_entry] at hle
  have := Std.TransCmp.isLE_trans hle (Ordering.isLE_of_eq_eq hvisible.1)
  rw [hgt] at this
  cases this

/-- The newest visible record is the first one at or behind the lookup key, if that one
has the right user key. -/
theorem newest_eq (userKey : Bytes) {records : List Record} (h : Ordered user records)
    (hs : sequence ≤ kMaxSequenceNumber) :
    newest user userKey sequence records
      = (records.find? fun r =>
          (internalCompare user r.entry.1 (lookupKey userKey sequence)).isGE).filter
        fun r => user.compare r.key.userKey userKey = .eq := by
  induction records with
  | nil => rfl
  | cons r records ih =>
    have hiff := isGE_lookupKey user userKey
      (h.sequence_le r List.mem_cons_self) hs
    rw [newest, List.find?_cons, List.find?_cons]
    by_cases hvisible : r.Visible user userKey sequence
    · rw [decide_eq_true hvisible, hiff.2 (Or.inr hvisible)]
      simp [Option.filter, hvisible.1]
    · rw [decide_eq_false hvisible]
      by_cases hgt : user.compare r.key.userKey userKey = .gt
      · have hnone : records.find? (fun r => r.Visible user userKey sequence) = none := by
          rw [List.find?_eq_none]
          intro r' hr'
          have hlt := (List.pairwise_cons.1 h.sorted).1 _ (List.mem_map_of_mem hr')
          simpa using not_visible_of_gt hgt hlt
        rw [hiff.2 (Or.inl hgt)]
        simp [Option.filter, hgt, hnone]
      · have hbefore := mt hiff.1 (by simp [hgt, hvisible])
        rw [Bool.eq_false_iff.2 hbefore]
        exact ih h.of_cons

/-- **The first visible record is the newest one.** -/
theorem newest_spec {records : List Record} (h : Ordered user records) :
    Newest (Record.Visible user userKey sequence) (fun r => r.key.sequence) records
      (newest user userKey sequence records) := by
  induction records with
  | nil => exact newest_nil
  | cons r records ih =>
    rw [newest, List.find?_cons]
    by_cases hvisible : r.Visible user userKey sequence
    · rw [decide_eq_true hvisible]
      refine ⟨List.mem_cons_self, hvisible, fun r' hr' hvisible' => ?_⟩
      rcases List.mem_cons.1 hr' with rfl | hr'
      · exact le_rfl
      · have hlt := (List.pairwise_cons.1 h.sorted).1 _ (List.mem_map_of_mem hr')
        have heq : user.compare r.key.userKey r'.key.userKey = .eq :=
          Std.TransCmp.eq_trans hvisible.1 (Std.OrientedCmp.eq_symm hvisible'.1)
        rw [internalCompare, r.userKey_entry, r'.userKey_entry, heq,
          r.tag_entry (h.sequence_le r List.mem_cons_self),
          r'.tag_entry (h.sequence_le r' (List.mem_cons_of_mem _ hr')), Ordering.then,
          Std.compare_eq_lt] at hlt
        have : r.key.type.toNat ≤ 1 := by cases r.key.type <;> decide
        show r'.key.sequence ≤ r.key.sequence
        omega
    · rw [decide_eq_false hvisible]
      have hfront : Newest (Record.Visible user userKey sequence) (fun r => r.key.sequence) [r]
          none := fun a ha => by rwa [List.mem_singleton.1 ha]
      exact hfront.append_of_none (ih h.of_cons)

end Order

/-! ## `SaveValue` -/

/-- `SaverState`: what a lookup has found so far. -/
inductive SaverState where
  | notFound
  | found
  | deleted
  | corrupt
  deriving DecidableEq

/-- `Saver`: the state of a lookup, the user key it is for, and the value it has found. -/
structure Saver where
  state : SaverState := .notFound
  ucmp : Comparator
  userKey : Bytes
  value : Bytes := []

/-- `SaveValue`: an entry with the user key of the lookup is its answer, a value or a deletion;
an entry of another user key changes nothing. -/
def saveValue (s : Saver) (ikey v : Bytes) : Checked Saver := do
  match ← parseInternalKey ikey with
  | none => .ok { s with state := .corrupt }
  | some parsedKey =>
    if s.ucmp.compare parsedKey.userKey s.userKey = .eq then
      match parsedKey.type with
      | .value => .ok { s with state := .found, value := v }
      | .deletion => .ok { s with state := .deleted }
    else .ok s

/-- What a saver is after a record was found for it. -/
def Saver.saved (s : Saver) : Option Record → Saver
  | none => s
  | some r =>
    match r.key.type with
    | .value => { s with state := .found, value := r.value }
    | .deletion => { s with state := .deleted }

theorem saveValue_entry (s : Saver) {r : Record} (h : r.key.sequence ≤ kMaxSequenceNumber) :
    saveValue s r.entry.1 r.entry.2
      = .ok (s.saved ((some r).filter fun r => s.ucmp.compare r.key.userKey s.userKey = .eq)) := by
  rw [saveValue, Record.entry, parseInternalKey_append _ h, ok_bind]
  simp only [Option.filter]
  split
  · rename_i heq
    rw [if_pos (decide_eq_true heq), Saver.saved]
    cases r.key.type <;> rfl
  · rename_i hne
    rw [if_neg (by simpa using hne), Saver.saved]

/-! ## Lookups -/

/-- `ClipToRange` with a range of type `int`. -/
def clipToRange (v minvalue maxvalue : ℕ) : ℕ :=
  let v := if (maxvalue : ℤ) < Int.bmod v 4294967296 then maxvalue else v
  if Int.bmod v 4294967296 < (minvalue : ℤ) then minvalue else v

/-- `SanitizeOptions`, of the options a table is built and read with. -/
def sanitizeOptions (src : Options) : Options :=
  { src with
    comparator := internalKeyComparator src.comparator
    filterPolicy := src.filterPolicy.map internalFilterPolicy
    blockSize := clipToRange src.blockSize (1 <<< 10) (4 <<< 20) }

/-- `TableCache::Get` on an open table, with `SaveValue` as its callback. -/
def Table.get (crc : Crc32c) (snappy : Snappy) (t : Table) (verifyChecksums : Bool) (k : Bytes)
    (saver : Saver) : Checked (Status × Saver) := do
  let (s, found) ← t.internalGet crc snappy verifyChecksums k
  match found with
  | none => .ok (s, saver)
  | some (key, v) =>
    let saver ← saveValue saver key v
    .ok (s, saver)

/-- A table that answers every lookup as these records do. -/
def Table.Serves (crc : Crc32c) (snappy : Snappy) (user : Comparator) (records : List Record)
    (t : Table) : Prop :=
  ∀ verifyChecksums userKey sequence, sequence ≤ kMaxSequenceNumber → ∀ saver : Saver,
    saver.ucmp = user → saver.userKey = userKey →
      t.get crc snappy verifyChecksums (lookupKey userKey sequence) saver
        = .ok (.ok, saver.saved (newest user userKey sequence records))

section Get

variable {user : Comparator} [user.Lawful] {userKey : Bytes} {sequence : ℕ}

/-- In a gap there is no entry with the user key that is asked for. -/
theorem userCompare_of_gap {k key : Bytes} (h : Gap (internalKeyComparator user) k key) :
    user.compare (extractUserKey key) (extractUserKey k) ≠ .eq := by
  obtain ⟨start, limit, hlt, hbefore, hle, hbehind⟩ := h
  have hle' : (internalCompare user start limit).isLE := Ordering.isLE_of_eq_lt hlt
  rcases internalSeparator_cases hle' with he | ⟨-, hseparator⟩
  · rw [he] at hle
    have hself : internalCompare user start start = .lt :=
      Std.TransCmp.lt_of_lt_of_isLE hbefore hle
    rw [internalCompare_self] at hself
    cases hself
  · have hk := userCompare_of_internalCompare hle
    have hkey := userCompare_of_internalCompare hbehind
    have := Std.TransCmp.lt_of_lt_of_isLE (Std.TransCmp.lt_of_isLE_of_lt hk hseparator) hkey
    intro heq
    rw [Std.OrientedCmp.eq_symm heq] at this
    cases this

variable {crc : Crc32c} {snappy : Snappy} {src : Options} {view : Bytes → Bytes}
  {records : List Record} {file : Bytes} {blocks : List TableBlock} {footer : Footer} {t : Table}

omit [user.Lawful] in
/-- The entry a seek lands on is the first record at or behind the key. -/
theorem getElem?_lowerBound (user : Comparator) (records : List Record) (k : Bytes) :
    (records.map Record.entry)[lowerBound (internalCompare user) (records.map Record.entry) k]?
      = (records.find? fun r => (internalCompare user r.entry.1 k).isGE).map Record.entry := by
  rw [lowerBound, ← List.find?_eq_getElem?_findIdx, List.find?_map]
  rfl

variable [src.comparator.Lawful]

instance instLawfulSanitized : (sanitizeOptions src).comparator.Lawful :=
  inferInstanceAs (internalKeyComparator src.comparator).Lawful

omit [src.comparator.Lawful] in
instance instShortSanitized : (sanitizeOptions src).comparator.Short :=
  inferInstanceAs (internalKeyComparator src.comparator).Short

/-- **A lookup finds the newest visible record,** whatever the filter says. -/
theorem serves_layout
    (h : TableLayout crc snappy (sanitizeOptions src) (records.map Record.entry) file blocks footer)
    (hinterval : 1 ≤ src.blockRestartInterval) (hfile : file.length < 4294967296)
    (hfit : TableFits (sanitizeOptions src) (records.map Record.entry))
    (hrecords : Ordered src.comparator records)
    (hview : ∀ a b, src.comparator.compare a b = .eq → view a = view b)
    (ht : t.Reads (sanitizeOptions src) (fun key => view (extractUserKey key)) file blocks) :
    t.Serves crc snappy src.comparator records := by
  rintro verifyChecksums userKey sequence hs saver hucmp rfl
  obtain ⟨r, hget, hsome, hnone⟩ := internalGet_spec h hinterval hfile hfit hrecords.sorted ht
    verifyChecksums (lookupKey saver.userKey sequence)
  have hfirst := getElem?_lowerBound src.comparator records
    (lookupKey saver.userKey sequence)
  rw [Table.get, hget, ok_bind, newest_eq _ hrecords hs]
  cases r with
  | none =>
    have hnone := hnone rfl
    cases hfind : records.find? fun r =>
        (internalCompare src.comparator r.entry.1 (lookupKey saver.userKey sequence)).isGE with
    | none => rfl
    | some r =>
      rw [hfind] at hfirst
      have hne : src.comparator.compare r.key.userKey saver.userKey ≠ .eq := by
        rcases hnone r.entry hfirst with hviews | hgap
        · rw [userKey_lookupKey, r.userKey_entry] at hviews
          exact fun heq => hviews (hview _ _ heq).symm
        · have := userCompare_of_gap hgap
          rwa [userKey_lookupKey, r.userKey_entry] at this
      simp [Option.filter, hne, Saver.saved]
  | some e =>
    have hsome := hsome e rfl
    cases hfind : records.find? fun r =>
        (internalCompare src.comparator r.entry.1 (lookupKey saver.userKey sequence)).isGE with
    | none =>
      rw [hfind] at hfirst
      exact absurd (hfirst.symm.trans hsome) nofun
    | some r =>
      rw [hfind] at hfirst
      obtain rfl : r.entry = e := Option.some.inj (hfirst.symm.trans hsome)
      have hr := hrecords.sequence_le r (List.mem_of_find?_eq_some hfind)
      simp only
      rw [saveValue_entry saver hr, ok_bind, hucmp]

end Get

/-! ## A table that is built -/

/-- The filter policy of the keys is the policy of the user keys. -/
theorem filterFits_sanitizeOptions {src : Options} {view : Bytes → Bytes} {n : ℕ}
    (h : FilterFits src view n) :
    FilterFits (sanitizeOptions src) (fun key => view (extractUserKey key)) n := by
  intro policy hpolicy
  obtain ⟨user, huser, rfl⟩ := Option.map_eq_some_iff.1 hpolicy
  obtain ⟨fits, hsound, hfits⟩ := h user huser
  exact ⟨fits, internalFilterPolicy_sound hsound, hfits⟩

theorem nameLength_sanitizeOptions (src : Options) :
    TableBuilder.nameLength (sanitizeOptions src) = TableBuilder.nameLength src := by
  rw [TableBuilder.nameLength, TableBuilder.nameLength, sanitizeOptions]
  cases src.filterPolicy <;> rfl

/-- What fits with a filter fits without one: the entries are cut into the same blocks. -/
theorem TableFits.withoutFilter {options plain : Options} {entries : List (Bytes × Bytes)}
    (h : TableFits options entries) (hplain : plain = { options with filterPolicy := none }) :
    TableFits plain entries := by
  subst hplain
  have hcut (remaining : List (Bytes × Bytes)) : ∀ current,
      dataBlocks { options with filterPolicy := none } current remaining
        = dataBlocks options current remaining := by
    induction remaining with
    | nil => exact fun _ => rfl
    | cons e remaining ih =>
      intro current
      rw [dataBlocks, dataBlocks, ih, ih]
  constructor
  · rw [hcut]
    exact h.dataBlock
  · rw [hcut]
    exact h.indexBlock
  · exact lt_of_le_of_lt (Nat.add_le_add_right (Nat.zero_le _) _) h.metaindexBlock
  · exact lt_of_le_of_lt (Nat.add_le_add_right (Nat.le_add_right _ _) _) h.file

/-- **A table that is built finds the newest visible record** of every user key, whether it
has a filter or none, when the filter's policy does not tell apart what the comparator
takes for equal. -/
theorem buildTable_serves (crc : Crc32c) (snappy : Snappy) (src : Options)
    [src.comparator.Lawful] {view : Bytes → Bytes} {records : List Record}
    (hinterval : 1 ≤ src.blockRestartInterval) (hrecords : Ordered src.comparator records)
    (hview : ∀ a b, src.comparator.compare a b = .eq → view a = view b)
    (hfits : FilterFits src view records.length)
    (hfit : TableFits (sanitizeOptions src) (records.map Record.entry)) :
    ∃ file, buildTable crc snappy (sanitizeOptions src) (records.map Record.entry) = .ok file ∧
      (file.length < 4294967296 →
        ∃ t, Table.openTable crc snappy (sanitizeOptions src) file file.length = .ok (.ok t) ∧
          t.Serves crc snappy src.comparator records) := by
  have hfits' := filterFits_sanitizeOptions hfits
  obtain ⟨file, hbuild, hlayout⟩ := buildTable_layout crc snappy (sanitizeOptions src)
    (by rwa [List.length_map]) hrecords.sorted hfit
  refine ⟨file, hbuild, fun hfile => ?_⟩
  obtain ⟨blocks, footer, h⟩ := hlayout hfile
  obtain ⟨t, hopen, ht, -⟩ := open_layout h hinterval hfile hfit hrecords.sorted
    (by rwa [List.length_map])
  exact ⟨t, hopen, serves_layout h hinterval hfile hfit hrecords hview ht⟩

/-- **A filter changes no answer:** a table that is built with one and a table of the same
records that is built without answer every lookup alike, with the newest visible record. -/
theorem filter_transparent (crc : Crc32c) (snappy : Snappy) (src : Options)
    [src.comparator.Lawful] {view : Bytes → Bytes} {records : List Record}
    (hinterval : 1 ≤ src.blockRestartInterval) (hrecords : Ordered src.comparator records)
    (hview : ∀ a b, src.comparator.compare a b = .eq → view a = view b)
    (hfits : FilterFits src view records.length)
    (hfit : TableFits (sanitizeOptions src) (records.map Record.entry)) :
    ∃ file plain,
      buildTable crc snappy (sanitizeOptions src) (records.map Record.entry) = .ok file ∧
      buildTable crc snappy (sanitizeOptions { src with filterPolicy := none })
        (records.map Record.entry) = .ok plain ∧
      (file.length < 4294967296 → plain.length < 4294967296 →
        ∃ t t', Table.openTable crc snappy (sanitizeOptions src) file file.length = .ok (.ok t) ∧
          Table.openTable crc snappy (sanitizeOptions { src with filterPolicy := none }) plain
            plain.length = .ok (.ok t') ∧
          ∀ verifyChecksums userKey sequence, sequence ≤ kMaxSequenceNumber →
            ∀ value, let saver : Saver := { ucmp := src.comparator, userKey, value }
              t.get crc snappy verifyChecksums (lookupKey userKey sequence) saver
                = .ok (.ok, saver.saved (newest src.comparator userKey sequence records)) ∧
              t'.get crc snappy verifyChecksums (lookupKey userKey sequence) saver
                = t.get crc snappy verifyChecksums (lookupKey userKey sequence) saver) := by
  have hplain : FilterFits { src with filterPolicy := none } view records.length :=
    fun _ h => by cases h
  obtain ⟨file, hbuild, hserves⟩ :=
    buildTable_serves crc snappy src hinterval hrecords hview hfits hfit
  obtain ⟨plain, hbuild', hserves'⟩ := buildTable_serves crc snappy
    { src with filterPolicy := none } hinterval hrecords hview hplain
    (hfit.withoutFilter (by simp only [sanitizeOptions, Option.map_none]))
  refine ⟨file, plain, hbuild, hbuild', fun hlen hlen' => ?_⟩
  obtain ⟨t, hopen, ht⟩ := hserves hlen
  obtain ⟨t', hopen', ht'⟩ := hserves' hlen'
  refine ⟨t, t', hopen, hopen', fun verifyChecksums userKey sequence hs value => ?_⟩
  have hget := ht verifyChecksums userKey sequence hs { ucmp := src.comparator, userKey, value }
    rfl rfl
  exact ⟨hget, (ht' verifyChecksums userKey sequence hs _ rfl rfl).trans hget.symm⟩

/-- Tables with an Xor filter. -/
def xorOptions : Options :=
  { comparator := bytewiseComparator
    blockRestartInterval := 2
    filterPolicy := some (xorPolicy ⟨10, 7, by decide, by decide, by decide⟩ leveldbHash) }

instance : xorOptions.comparator.Lawful := instLawfulBytewise

instance : xorOptions.comparator.Short := instShortBytewise

/-- Three records: a value above a deletion, and another key. -/
def threeRecords : List Record :=
  [⟨⟨[1], 9, .value⟩, [7, 7]⟩, ⟨⟨[1], 4, .deletion⟩, []⟩, ⟨⟨[1, 2], 5, .value⟩, [8]⟩]

theorem ordered_threeRecords : Ordered bytewiseComparator threeRecords where
  sorted := by
    unfold Sorted
    decide
  sequence_le := by decide

theorem bytewise_view (a b : Bytes) (h : bytewiseComparator.compare a b = .eq) : id a = id b :=
  Std.LawfulEqCmp.eq_of_compare (show sliceCompare a b = .eq from h)

theorem filterFits_xorOptions {n : ℕ} (hn : n < 2147483648) : FilterFits xorOptions id n := by
  intro policy hpolicy
  obtain rfl := Option.some.inj hpolicy
  exact ⟨_, xorPolicy_sound _ _, fun m hm => hm.trans_lt hn⟩

theorem filter_transparent_three :
    ∃ file plain,
      buildTable castagnoli .missing (sanitizeOptions xorOptions) (threeRecords.map Record.entry)
        = .ok file ∧
      buildTable castagnoli .missing (sanitizeOptions { xorOptions with filterPolicy := none })
        (threeRecords.map Record.entry) = .ok plain ∧
      (file.length < 4294967296 → plain.length < 4294967296 →
        ∃ t t', Table.openTable castagnoli .missing (sanitizeOptions xorOptions) file file.length
            = .ok (.ok t) ∧
          Table.openTable castagnoli .missing (sanitizeOptions { xorOptions with filterPolicy := none })
            plain plain.length = .ok (.ok t') ∧
          ∀ verifyChecksums userKey sequence, sequence ≤ kMaxSequenceNumber →
            ∀ value, let saver : Saver := { ucmp := bytewiseComparator, userKey, value }
              t.get castagnoli .missing verifyChecksums (lookupKey userKey sequence) saver
                = .ok (.ok, saver.saved (newest bytewiseComparator userKey sequence threeRecords)) ∧
              t'.get castagnoli .missing verifyChecksums (lookupKey userKey sequence) saver
                = t.get castagnoli .missing verifyChecksums (lookupKey userKey sequence) saver) :=
  filter_transparent castagnoli .missing xorOptions (by decide) ordered_threeRecords bytewise_view
    (filterFits_xorOptions (by decide)) (.of_weight (by rw [nameLength_sanitizeOptions]; decide))

end PackedFilters.LevelDb
