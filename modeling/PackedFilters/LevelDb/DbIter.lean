import PackedFilters.Lib.Filtered
import PackedFilters.LevelDb.Lookup
import PackedFilters.LevelDb.MergingIterator

/-!
# The iterator of the database

`db/db_iter.cc`: what a reader at a sequence number sees of an iterator over internal keys.

The internal iterator goes through all records, several for a user key that was written more
than once, the newest first, and deletions among them.  The reader is to see each user key at
most once, with its newest visible value.  Forward that is a search for a record that is not
hidden by an earlier one with its user key, whose own records are then skipped.  Backward the
records of a user key come oldest first, so the search has to go on until the user key ends
and remember the newest visible one; it stands in front of the key that it shows.

* `DbIter` — the iterator, with both directions;
* `Shown`, `snapshot` — what the reader is to see: of every user key the newest visible
  record, unless it is a deletion;
* `Forward`, `Reverse`, `DbIter.At` — where it stands, in the records and in the snapshot;
* `findNextUserEntry_spec`, `findPrevUserEntry_spec` — the two searches; `leaveKey_spec` —
  the loop by which `Prev` turns round;
* `DbIter.walks`, `DbIter.fresh` — the iterator is a cursor on the snapshot, also where it
  turns round;
* `mem_snapshot_iff` — what is in the snapshot is what a lookup finds.

The sampling of reads, by which the store decides what to compact, is left out; it changes
nothing that the reader sees.
-/

namespace PackedFilters.LevelDb

open Cursor Sources

/-- `DBIter`; `error` is its `status_`. -/
structure DbIter (ι : Type) where
  iter : ι
  error : Status := .ok
  savedKey : Bytes := []
  savedValue : Bytes := []
  direction : Direction := .forward
  valid : Bool := false

namespace DbIter

variable {ι : Type} (internal : DbIterator ι) (userComparator : Comparator) (sequence : ℕ)

/-- `key`: the user key of the record, or the saved one on the way back. -/
def key (it : DbIter ι) : Bytes :=
  match it.direction with
  | .forward => extractUserKey (internal.key it.iter)
  | .reverse => it.savedKey

/-- `value`: that of the record, or the saved one on the way back. -/
def value (it : DbIter ι) : Bytes :=
  match it.direction with
  | .forward => internal.value it.iter
  | .reverse => it.savedValue

/-- `status`: a record that could not be parsed, or else the status of the internal iterator. -/
def status (it : DbIter ι) : Status :=
  if it.error = .ok then internal.status it.iter else it.error

/-- `ParseKey`, without the read samples. -/
def parseKey (it : DbIter ι) : Checked (Option ParsedInternalKey × DbIter ι) := do
  match ← parseInternalKey (internal.key it.iter) with
  | none =>
    .ok (none, { it with error := .corruption (literal "corrupted internal key in DBIter") })
  | some ikey => .ok (some ikey, it)

/-- What the loop of `FindNextUserEntry` makes of one entry: whether it is the one to yield,
and whether entries are skipped from here on.  `*skip` is always `saved_key_`. -/
def nextEntry (skipping : Bool) (it : DbIter ι) : Checked (Bool × Bool × DbIter ι) := do
  let (parsed, it) ← it.parseKey internal
  match parsed.filter fun ikey => ikey.sequence ≤ sequence with
  | none => .ok (false, skipping, it)
  | some ikey =>
    match ikey.type with
    | .deletion => .ok (false, true, { it with savedKey := ikey.userKey })
    | .value =>
      if skipping && (userComparator.compare ikey.userKey it.savedKey).isLE then
        .ok (false, skipping, it)
      else .ok (true, skipping, { it with valid := true, savedKey := [] })

/-- `FindNextUserEntry`: on to the first record that the reader is to see; while `skipping`,
records of the saved user key are hidden. -/
def findNextUserEntry : ℕ → Bool → DbIter ι → Checked (DbIter ι)
  | 0, _, _ => .error .loopUnfinished
  | rounds + 1, skipping, it => do
    let (found, skipping, it) ← it.nextEntry internal userComparator sequence skipping
    if found then .ok it
    else
      let iter ← internal.step .next it.iter
      if internal.valid iter then findNextUserEntry rounds skipping { it with iter }
      else .ok { it with iter, savedKey := [], valid := false }

/-- What the loop of `FindPrevUserEntry` makes of one entry: whether it ends, and the type
seen last. -/
def prevEntry (valueType : ValueType) (it : DbIter ι) :
    Checked (Bool × ValueType × DbIter ι) := do
  let (parsed, it) ← it.parseKey internal
  match parsed.filter fun ikey => ikey.sequence ≤ sequence with
  | none => .ok (false, valueType, it)
  | some ikey =>
    if valueType ≠ .deletion ∧ userComparator.compare ikey.userKey it.savedKey = .lt then
      .ok (true, valueType, it)
    else
      match ikey.type with
      | .deletion => .ok (false, .deletion, { it with savedKey := [], savedValue := [] })
      | .value =>
        .ok (false, .value, { it with
          savedKey := extractUserKey (internal.key it.iter)
          savedValue := internal.value it.iter })

/-- The loop of `FindPrevUserEntry`. -/
def prevLoop : ℕ → ValueType → DbIter ι → Checked (ValueType × DbIter ι)
  | 0, _, _ => .error .loopUnfinished
  | rounds + 1, valueType, it => do
    let (found, valueType, it) ← it.prevEntry internal userComparator sequence valueType
    if found then .ok (valueType, it)
    else
      let iter ← internal.step .prev it.iter
      if internal.valid iter then prevLoop rounds valueType { it with iter }
      else .ok (valueType, { it with iter })

/-- `FindPrevUserEntry`: back over the records of one user key, the newest visible value of
which is saved; on from there, if that was a deletion, and to no entry at the front. -/
def findPrevUserEntry (rounds : ℕ) (it : DbIter ι) : Checked (DbIter ι) := do
  let (valueType, it) ←
    (if internal.valid it.iter then
      prevLoop internal userComparator sequence rounds .deletion it
    else .ok (.deletion, it))
  match valueType with
  | .deletion =>
    .ok { it with valid := false, savedKey := [], savedValue := [], direction := .forward }
  | .value => .ok { it with valid := true }

/-- The loop of `Prev` that leaves the entries of the current key. -/
def leaveKey : ℕ → DbIter ι → Checked (Bool × DbIter ι)
  | 0, _ => .error .loopUnfinished
  | rounds + 1, it => do
    let iter ← internal.step .prev it.iter
    if !internal.valid iter then
      .ok (false, { it with iter, valid := false, savedKey := [], savedValue := [] })
    else if userComparator.compare (extractUserKey (internal.key iter)) it.savedKey = .lt then
      .ok (true, { it with iter })
    else leaveKey rounds { it with iter }

/-- `Next`, from where the internal iterator was moved to. -/
def nextFrom (rounds : ℕ) (it : DbIter ι) : Checked (DbIter ι) :=
  if !internal.valid it.iter then .ok { it with valid := false, savedKey := [] }
  else findNextUserEntry internal userComparator sequence rounds true it

/-- `Next`: the records of the current user key are skipped; behind a step back the internal
iterator has to go forward over the saved one first. -/
def next (rounds : ℕ) (it : DbIter ι) : Checked (DbIter ι) :=
  match it.direction with
  | .reverse => do
    let iter ← internal.step (if !internal.valid it.iter then .seekToFirst else .next) it.iter
    nextFrom internal userComparator sequence rounds { it with iter, direction := .forward }
  | .forward => do
    let iter ← internal.step .next it.iter
    nextFrom internal userComparator sequence rounds
      { it with iter, savedKey := extractUserKey (internal.key it.iter) }

/-- `Prev`: behind a step forward the records of the current user key are left first; then the
search goes back. -/
def prev (rounds : ℕ) (it : DbIter ι) : Checked (DbIter ι) :=
  match it.direction with
  | .forward => do
    let (more, it) ← leaveKey internal userComparator rounds
      { it with savedKey := extractUserKey (internal.key it.iter) }
    if more then
      findPrevUserEntry internal userComparator sequence rounds { it with direction := .reverse }
    else .ok it
  | .reverse => findPrevUserEntry internal userComparator sequence rounds it

/-- The part of `Seek` and `SeekToFirst` behind the seek of the internal iterator. -/
def seekFrom (rounds : ℕ) (it : DbIter ι) : Checked (DbIter ι) :=
  if internal.valid it.iter then
    findNextUserEntry internal userComparator sequence rounds false it
  else .ok { it with valid := false }

/-- The operations; the loops end after `rounds` rounds. -/
def step (rounds : ℕ) (op : Op Bytes) (it : DbIter ι) : Checked (DbIter ι) :=
  match op with
  | .seek target => do
    let savedKey := appendInternalKey [] ⟨target, sequence, kValueTypeForSeek⟩
    let iter ← internal.step (.seek savedKey) it.iter
    seekFrom internal userComparator sequence rounds
      { it with iter, savedKey, savedValue := [], direction := .forward }
  | .seekToFirst => do
    let iter ← internal.step .seekToFirst it.iter
    seekFrom internal userComparator sequence rounds
      { it with iter, savedValue := [], direction := .forward }
  | .seekToLast => do
    let iter ← internal.step .seekToLast it.iter
    findPrevUserEntry internal userComparator sequence rounds
      { it with iter, savedValue := [], direction := .reverse }
  | .next => it.next internal userComparator sequence rounds
  | .prev => it.prev internal userComparator sequence rounds

/-- `DBIter` as an iterator. -/
def iterator (rounds : ℕ) : DbIterator (DbIter ι) where
  valid := valid
  key := key internal
  value := value internal
  step := step internal userComparator sequence rounds
  status := status internal

end DbIter

/-! ## What is to be seen -/

/-- A reader at `sequence` sees the record: it is the newest visible one of its user key,
and no deletion. -/
def Shown (user : Comparator) (sequence : ℕ) (records : List Record) (r : Record) : Bool :=
  newest user r.key.userKey sequence records = some r ∧ r.key.type = .value

/-- What a reader at `sequence` sees. -/
def snapshot (user : Comparator) (sequence : ℕ) (records : List Record) : List (Bytes × Bytes) :=
  (records.filter (Shown user sequence records)).map fun r => (r.key.userKey, r.value)

section Snapshot

variable {user : Comparator} [user.Lawful] {sequence : ℕ} {records : List Record} {r r' : Record}
  {i j : ℕ}

/-- The user keys ascend. -/
theorem userKey_le (h : Ordered user records) (hij : i ≤ j) (hi : records[i]? = some r)
    (hj : records[j]? = some r') : (user.compare r.key.userKey r'.key.userKey).isLE := by
  obtain ⟨hi', rfl⟩ := List.getElem?_eq_some_iff.1 hi
  obtain ⟨hj', rfl⟩ := List.getElem?_eq_some_iff.1 hj
  have hle := h.sorted.le hij (by rwa [List.length_map])
  simp only [List.getElem_map] at hle
  have := userCompare_of_internalCompare hle
  rwa [Record.userKey_entry, Record.userKey_entry] at this

/-- No record is there twice. -/
theorem index_inj (h : Ordered user records) (hi : records[i]? = some r)
    (hj : records[j]? = some r) : i = j := by
  have hne {i j : ℕ} (hij : i < j) (hi : records[i]? = some r) : records[j]? ≠ some r := by
    intro hj
    obtain ⟨hi', rfl⟩ := List.getElem?_eq_some_iff.1 hi
    obtain ⟨hj', heq⟩ := List.getElem?_eq_some_iff.1 hj
    have hlt := h.sorted.lt hij (by rwa [List.length_map])
    simp only [List.getElem_map, heq, internalCompare_self] at hlt
    cases hlt
  rcases lt_trichotomy i j with hlt | heq | hlt
  · exact absurd hj (hne hlt hi)
  · exact heq
  · exact absurd hi (hne hlt hj)

/-- **A record is shown** if it is visible, has a value, and none before it with its user key
is visible. -/
theorem shown_iff (h : Ordered user records) (hi : records[i]? = some r) :
    Shown user sequence records r = true ↔
      r.key.sequence ≤ sequence ∧ r.key.type = .value ∧
        ∀ j r', j < i → records[j]? = some r' → r'.key.sequence ≤ sequence →
          user.compare r'.key.userKey r.key.userKey ≠ .eq := by
  obtain ⟨hi', hget⟩ := List.getElem?_eq_some_iff.1 hi
  rw [Shown, decide_eq_true_eq, newest, List.find?_eq_some_iff_getElem]
  constructor
  · rintro ⟨⟨hvisible, k, hk, hr, hbefore⟩, htype⟩
    obtain rfl := index_inj h hi (List.getElem?_eq_some_iff.2 ⟨hk, hr⟩)
    refine ⟨(of_decide_eq_true hvisible).2, htype, fun j r' hj hget' hs heq => ?_⟩
    obtain ⟨hj', rfl⟩ := List.getElem?_eq_some_iff.1 hget'
    have hnot := hbefore j hj
    simp only [Record.Visible, heq, hs, and_self, decide_true, Bool.not_true,
      Bool.false_eq_true] at hnot
  · rintro ⟨hs, htype, hbefore⟩
    have hself : user.compare r.key.userKey r.key.userKey = .eq := Std.ReflCmp.compare_self
    refine ⟨⟨decide_eq_true ⟨hself, hs⟩, i, hi', hget, fun j hj => ?_⟩, htype⟩
    have hj' : j < records.length := hj.trans hi'
    rw [Bool.not_eq_true', decide_eq_false_iff_not]
    exact fun hvisible => hbefore j _ hj (List.getElem?_eq_getElem hj') hvisible.2 hvisible.1

theorem not_shown_of_invisible (h : Ordered user records) (hi : records[i]? = some r)
    (hs : sequence < r.key.sequence) : Shown user sequence records r = false := by
  rw [Bool.eq_false_iff, Ne, shown_iff h hi]
  exact fun hshown => absurd hshown.1 (not_le.2 hs)

omit [user.Lawful] in
theorem not_shown_of_deletion (htype : r.key.type = .deletion) :
    Shown user sequence records r = false := by
  rw [Shown, decide_eq_false_iff_not, htype]
  exact fun hshown => nomatch hshown.2

/-- The user keys of a snapshot ascend. -/
theorem snapshot_sorted (h : Ordered user records) :
    Sorted user.compare (snapshot user sequence records) := by
  rw [Sorted, snapshot, List.pairwise_map]
  have hsorted := h.sorted
  rw [Sorted, List.pairwise_map] at hsorted
  refine (hsorted.filter _).imp_of_mem fun {a b} ha hb hlt => ?_
  obtain ⟨hamem, ha⟩ := List.mem_filter.1 ha
  obtain ⟨hbmem, hb⟩ := List.mem_filter.1 hb
  obtain ⟨i, hi⟩ := List.mem_iff_getElem?.1 hamem
  obtain ⟨j, hj⟩ := List.mem_iff_getElem?.1 hbmem
  have hle := userCompare_of_internalCompare (Ordering.isLE_of_eq_lt hlt)
  rw [Record.userKey_entry, Record.userKey_entry] at hle
  have hij : i < j := by
    by_contra hji
    obtain ⟨hi', rfl⟩ := List.getElem?_eq_some_iff.1 hi
    obtain ⟨hj', rfl⟩ := List.getElem?_eq_some_iff.1 hj
    have hge := h.sorted.le (not_lt.1 hji) (by rwa [List.length_map])
    simp only [List.getElem_map] at hge
    exact Std.OrientedCmp.not_isLE_of_lt hlt hge
  have hne := ((shown_iff h hj).1 hb).2.2 i a hij hi ((shown_iff h hi).1 ha).1
  revert hle hne
  cases user.compare a.key.userKey b.key.userKey <;> simp

/-- **A user key is in the snapshot with its newest visible value,** if that is what its
newest visible record has. -/
theorem mem_snapshot_iff (h : Ordered user records) {key value : Bytes} :
    (key, value) ∈ snapshot user sequence records ↔
      ∃ r, Newest (Record.Visible user key sequence) (fun r => r.key.sequence) records (some r) ∧
        r.key.type = .value ∧ r.key.userKey = key ∧ r.value = value := by
  constructor
  · intro hmem
    obtain ⟨r, hr, heq⟩ := List.mem_map.1 hmem
    obtain ⟨hnewest, htype⟩ := of_decide_eq_true (List.mem_filter.1 hr).2
    cases heq
    exact ⟨r, hnewest ▸ newest_spec h, htype, rfl, rfl⟩
  · rintro ⟨r, ⟨hmem, hvisible, hmax⟩, htype, rfl, rfl⟩
    obtain ⟨i, hi⟩ := List.mem_iff_getElem?.1 hmem
    refine List.mem_map.2 ⟨r, List.mem_filter.2 ⟨hmem, (shown_iff h hi).2
      ⟨hvisible.2, htype, fun j r' hj hj' hs heq => ?_⟩⟩, rfl⟩
    -- a record before it has a larger tag, and so a larger sequence number
    have hle : r'.key.sequence ≤ r.key.sequence := hmax r' (List.mem_of_getElem? hj') ⟨heq, hs⟩
    have htype' : r'.key.type.toNat ≤ 1 := by cases r'.key.type <;> decide
    obtain ⟨hi', rfl⟩ := List.getElem?_eq_some_iff.1 hi
    obtain ⟨hjlen, rfl⟩ := List.getElem?_eq_some_iff.1 hj'
    have hlt := h.sorted.lt hj (by rwa [List.length_map])
    rw [List.getElem_map, List.getElem_map, internalCompare, Record.userKey_entry,
      Record.userKey_entry, heq, Record.tag_entry (h.sequence_le _ (List.getElem_mem hjlen)),
      Record.tag_entry (h.sequence_le _ (List.getElem_mem hi')), htype, Ordering.then,
      Std.compare_eq_lt] at hlt
    have hone : ValueType.value.toNat = 1 := rfl
    omega

end Snapshot

/-! ## Where it stands -/

namespace DbIter

/-- It is at a record, on the way forward. -/
structure Forward {ι : Type} (InnerAt : ι → ℕ → Prop) (i : ℕ) (it : DbIter ι) : Prop where
  direction : it.direction = .forward
  inner : InnerAt it.iter i

/-- It is at a record, on the way back: the internal iterator has gone on before `u`. -/
structure Reverse {ι : Type} (InnerAt : ι → ℕ → Prop) (user : Comparator) (sequence : ℕ)
    (records : List Record) (i : ℕ) (r : Record) (u : ℕ) (it : DbIter ι) : Prop where
  direction : it.direction = .reverse
  savedKey : it.savedKey = r.key.userKey
  savedValue : it.savedValue = r.value
  inner : InnerAt it.iter (if u = 0 then records.length else u - 1)
  le : u ≤ i
  before : ∀ k r', k < u → records[k]? = some r' → user.compare r'.key.userKey r.key.userKey = .lt
  between : ∀ k r', u ≤ k → k < i → records[k]? = some r' → sequence < r'.key.sequence

/-- Where the iterator stands in the snapshot. -/
def At {ι : Type} (InnerAt : ι → ℕ → Prop) (user : Comparator) (sequence : ℕ)
    (records : List Record) (it : DbIter ι) (n : ℕ) : Prop :=
  it.error = .ok ∧
    ((it.valid = true ∧ ∃ i r, records[i]? = some r ∧ Shown user sequence records r = true ∧
        n = rank (Shown user sequence records) records i ∧
        (Forward InnerAt i it ∨ ∃ u, Reverse InnerAt user sequence records i r u it)) ∨
      it.valid = false ∧ n = (snapshot user sequence records).length ∧ ∃ i, InnerAt it.iter i)

section Search

variable {ι : Type} {internal : DbIterator ι} {user : Comparator} {sequence : ℕ}
  {records : List Record} {InnerAt : ι → ℕ → Prop} {it : DbIter ι} {i n : ℕ} {r : Record}

/-- What the internal iterator shows at a record. -/
theorem inner_shows (hw : internal.Walks (internalCompare user) (records.map Record.entry) InnerAt)
    {s : ι} (hs : InnerAt s i) (hr : records[i]? = some r) :
    internal.valid s = true ∧ internal.key s = r.entry.1 ∧ internal.value s = r.value := by
  obtain ⟨hi, rfl⟩ := List.getElem?_eq_some_iff.1 hr
  have hi' : i < (records.map Record.entry).length := by rwa [List.length_map]
  have hshows := hw.refines.shows hs hi'
  rw [List.getElem_map] at hshows
  obtain ⟨hkey, hvalue⟩ := Prod.ext_iff.1 hshows
  exact ⟨(hw.refines.valid_iff hs).2 hi', hkey, hvalue⟩

theorem inner_end (hw : internal.Walks (internalCompare user) (records.map Record.entry) InnerAt)
    {s : ι} (hs : InnerAt s i) (hi : records.length ≤ i) : internal.valid s = false := by
  rw [Bool.eq_false_iff, Ne, hw.refines.valid_iff hs, List.length_map]
  exact not_lt.2 hi

/-- A step of the internal iterator forward. -/
theorem inner_next (hw : internal.Walks (internalCompare user) (records.map Record.entry) InnerAt)
    {s : ι} (hs : InnerAt s i) (hi : i < records.length) :
    ∃ s', internal.step .next s = .ok s' ∧ InnerAt s' (i + 1) := by
  have hallowed : Allowed (records.map Record.entry) (.next : Op Bytes) i := by
    rwa [Allowed, List.length_map]
  exact hw.refines.step hs hallowed

/-- And back. -/
theorem inner_prev (hw : internal.Walks (internalCompare user) (records.map Record.entry) InnerAt)
    {s : ι} (hs : InnerAt s i) (hi : i < records.length) :
    ∃ s', internal.step .prev s = .ok s' ∧
      InnerAt s' (if i = 0 then records.length else i - 1) := by
  have hallowed : Allowed (records.map Record.entry) (.prev : Op Bytes) i := by
    rwa [Allowed, List.length_map]
  have hstep := hw.refines.step hs hallowed
  simpa only [move, List.length_map] using hstep

theorem parseKey_spec (hordered : Ordered user records)
    (hw : internal.Walks (internalCompare user) (records.map Record.entry) InnerAt)
    (hs : InnerAt it.iter i) (hr : records[i]? = some r) :
    it.parseKey internal = .ok (some r.key, it) := by
  have hseq := hordered.sequence_le r (List.mem_of_getElem? hr)
  rw [parseKey, (inner_shows hw hs hr).2.1, Record.entry, parseInternalKey_append r.key hseq, ok_bind]

/-- The entries from `i` on that are hidden are those whose user key was seen before. -/
def Hides (user : Comparator) (sequence : ℕ) (records : List Record) (skipping : Bool)
    (savedKey : Bytes) (i : ℕ) : Prop :=
  ∀ k r, i ≤ k → records[k]? = some r → r.key.sequence ≤ sequence →
    ((skipping = true ∧ (user.compare r.key.userKey savedKey).isLE = true) ↔
      ∃ j r', j < i ∧ records[j]? = some r' ∧ r'.key.sequence ≤ sequence ∧
        user.compare r'.key.userKey r.key.userKey = .eq)

/-- An entry that hides nothing new. -/
theorem Hides.succ {skipping : Bool} {savedKey : Bytes}
    (h : Hides user sequence records skipping savedKey i) (hr : records[i]? = some r)
    (hold : ∀ k r', i < k → records[k]? = some r' → r.key.sequence ≤ sequence →
      user.compare r.key.userKey r'.key.userKey = .eq → ∃ j r'', j < i ∧ records[j]? = some r'' ∧
        r''.key.sequence ≤ sequence ∧ user.compare r''.key.userKey r'.key.userKey = .eq) :
    Hides user sequence records skipping savedKey (i + 1) := by
  intro k r' hk hr' hs'
  rw [h k r' (by omega) hr' hs']
  constructor
  · rintro ⟨j, r'', hj, hrest⟩
    exact ⟨j, r'', by omega, hrest⟩
  · rintro ⟨j, r'', hj, hr'', hs'', heq⟩
    rcases Nat.lt_succ_iff_lt_or_eq.1 hj with hlt | rfl
    · exact ⟨j, r'', hlt, hr'', hs'', heq⟩
    · cases hr.symm.trans hr''
      exact hold k r' (by omega) hr' hs'' heq

variable [user.Lawful]

/-- The records of a user key that was visible. -/
theorem hides_userKey (hordered : Ordered user records) (hr : records[i]? = some r)
    (hs : r.key.sequence ≤ sequence) :
    Hides user sequence records true r.key.userKey (i + 1) := by
  intro k r' hk hr' hs'
  have hle := userKey_le hordered (show i ≤ k by omega) hr hr'
  constructor
  · rintro ⟨-, hge⟩
    exact ⟨i, r, by omega, hr, hs, Std.OrientedCmp.isLE_antisymm hle hge⟩
  · rintro ⟨j, r'', hj, hr'', hs'', heq⟩
    have hle' := userKey_le hordered (show j ≤ i by omega) hr'' hr
    have := Std.TransCmp.isLE_trans (Ordering.isLE_of_eq_eq (Std.OrientedCmp.eq_symm heq)) hle'
    exact ⟨rfl, this⟩

/-- One round of `FindNextUserEntry` yields a record that is shown, and passes over
another one. -/
theorem nextEntry_spec (hordered : Ordered user records)
    (hw : internal.Walks (internalCompare user) (records.map Record.entry) InnerAt)
    (hs : InnerAt it.iter i) (hr : records[i]? = some r) {skipping : Bool}
    (hides : Hides user sequence records skipping it.savedKey i) :
    Shown user sequence records r = true ∧
        it.nextEntry internal user sequence skipping
          = .ok (true, skipping, { it with valid := true, savedKey := [] }) ∨
      Shown user sequence records r = false ∧ ∃ skipping' savedKey,
        it.nextEntry internal user sequence skipping
          = .ok (false, skipping', { it with savedKey }) ∧
        Hides user sequence records skipping' savedKey (i + 1) := by
  rw [nextEntry, parseKey_spec hordered hw hs hr, ok_bind]
  by_cases hseq : r.key.sequence ≤ sequence
  · simp only [Option.filter, hseq, decide_true, if_true]
    cases htype : r.key.type with
    | deletion =>
      exact Or.inr ⟨not_shown_of_deletion htype, true, r.key.userKey, rfl,
        hides_userKey hordered hr hseq⟩
    | value =>
      have hiff := hides i r le_rfl hr hseq
      simp only
      by_cases hhidden : skipping = true ∧ (user.compare r.key.userKey it.savedKey).isLE = true
      · obtain ⟨j, r', hj, hr', hs', heq⟩ := hiff.1 hhidden
        rw [if_pos (by rwa [Bool.and_eq_true])]
        refine Or.inr ⟨?_, skipping, it.savedKey, rfl, hides.succ hr fun k r'' _ hr'' _ heq' => ?_⟩
        · rw [Bool.eq_false_iff, Ne, shown_iff hordered hr]
          exact fun hshown => hshown.2.2 j r' hj hr' hs' heq
        · exact ⟨j, r', hj, hr', hs', Std.TransCmp.eq_trans heq heq'⟩
      · rw [if_neg (by rwa [Bool.and_eq_true])]
        refine Or.inl ⟨(shown_iff hordered hr).2 ⟨hseq, htype, fun j r' hj hr' hs' heq => ?_⟩, rfl⟩
        exact hhidden (hiff.2 ⟨j, r', hj, hr', hs', heq⟩)
  · have hnot : Option.filter (fun ikey : ParsedInternalKey => ikey.sequence ≤ sequence)
        (some r.key) = none := by
      simp [Option.filter, hseq]
    simp only [hnot]
    exact Or.inr ⟨not_shown_of_invisible hordered hr (not_le.1 hseq), skipping, it.savedKey, rfl,
      hides.succ hr fun _ _ _ _ hs' => absurd hs' hseq⟩

theorem length_snapshot (user : Comparator) (sequence : ℕ) (records : List Record) :
    (snapshot user sequence records).length
      = rank (Shown user sequence records) records records.length := by
  rw [snapshot, List.length_map, rank_of_le le_rfl]

/-- **`FindNextUserEntry`** ends at the first record to be shown from here on. -/
theorem findNextUserEntry_spec (hordered : Ordered user records)
    (hw : internal.Walks (internalCompare user) (records.map Record.entry) InnerAt) (rounds : ℕ) :
    ∀ {it : DbIter ι} {i : ℕ} {skipping : Bool}, InnerAt it.iter i → i < records.length →
      records.length ≤ rounds + i → Hides user sequence records skipping it.savedKey i →
      it.error = .ok → it.direction = .forward →
      ∃ it', it.findNextUserEntry internal user sequence rounds skipping = .ok it' ∧
        At InnerAt user sequence records it' (rank (Shown user sequence records) records i) := by
  induction rounds with
  | zero => exact fun _ hi hrounds => absurd hi (by omega)
  | succ rounds ih =>
    intro it i skipping hs hi hrounds hides herror hdirection
    have hr := List.getElem?_eq_getElem hi
    rw [findNextUserEntry]
    rcases nextEntry_spec hordered hw hs hr hides with ⟨hshown, hnext⟩ |
      ⟨hnot, skipping', savedKey, hnext, hides'⟩
    · rw [hnext, ok_bind]
      exact ⟨_, rfl, herror, Or.inl ⟨rfl, i, _, hr, hshown, rfl, Or.inl ⟨hdirection, hs⟩⟩⟩
    · obtain ⟨iter, hstep, hs'⟩ := inner_next hw hs hi
      rw [hnext, ok_bind]
      simp only [Bool.false_eq_true, if_false]
      rw [hstep, ok_bind, ← rank_succ_of_not hr hnot]
      by_cases hlast : i + 1 < records.length
      · rw [if_pos (inner_shows hw hs' (List.getElem?_eq_getElem hlast)).1]
        exact ih hs' hlast (by omega) hides' herror hdirection
      · rw [inner_end hw hs' (not_lt.1 hlast)]
        have hlen : i + 1 = records.length := by omega
        rw [hlen, ← length_snapshot]
        exact ⟨_, rfl, herror, Or.inr ⟨rfl, rfl, _, hs'⟩⟩

/-- Records of a user key that was yielded, or that are not visible, are passed over. -/
theorem pass_spec (hordered : Ordered user records)
    (hw : internal.Walks (internalCompare user) (records.map Record.entry) InnerAt)
    (hr : records[i]? = some r) (hshown : Shown user sequence records r = true) (rounds : ℕ) :
    ∀ {it : DbIter ι} {u : ℕ}, InnerAt it.iter u → u ≤ i →
      (∀ k r', u ≤ k → k < i → records[k]? = some r' → sequence < r'.key.sequence) →
      records.length ≤ rounds + u → it.savedKey = r.key.userKey → it.error = .ok →
      it.direction = .forward →
      ∃ it', it.findNextUserEntry internal user sequence rounds true = .ok it' ∧
        At InnerAt user sequence records it' (rank (Shown user sequence records) records (i + 1)) := by
  obtain ⟨hseq, htype, -⟩ := (shown_iff hordered hr).1 hshown
  obtain ⟨hi, -⟩ := List.getElem?_eq_some_iff.1 hr
  induction rounds with
  | zero => exact fun _ hu _ hrounds => absurd hi (by omega)
  | succ rounds ih =>
    intro it u hs hu hbetween hrounds hsaved herror hdirection
    have hru := List.getElem?_eq_getElem (hu.trans_lt hi)
    have hpass : it.nextEntry internal user sequence true = .ok (false, true, it) := by
      rw [nextEntry, parseKey_spec hordered hw hs hru, ok_bind]
      rcases hu.lt_or_eq with hlt | rfl
      · have hnot := not_le.2 (hbetween u _ le_rfl hlt hru)
        simp [Option.filter, hnot]
      · cases hr.symm.trans hru
        simp [Option.filter, hseq, htype, hsaved, Std.ReflCmp.compare_self]
    obtain ⟨iter, hstep, hs'⟩ := inner_next hw hs (hu.trans_lt hi)
    rw [findNextUserEntry, hpass, ok_bind]
    simp only [Bool.false_eq_true, if_false]
    rw [hstep, ok_bind]
    by_cases hlast : u + 1 < records.length
    · rw [if_pos (inner_shows hw hs' (List.getElem?_eq_getElem hlast)).1]
      rcases hu.lt_or_eq with hlt | rfl
      · exact ih hs' hlt (fun k r' hk => hbetween k r' (by omega)) (by omega) hsaved herror hdirection
      · refine findNextUserEntry_spec hordered hw rounds hs' hlast (by omega) ?_ herror hdirection
        rw [hsaved]
        exact hides_userKey hordered hr hseq
    · rw [inner_end hw hs' (not_lt.1 hlast)]
      have hlen : i + 1 = records.length := by omega
      rw [hlen, ← length_snapshot]
      exact ⟨_, rfl, herror, Or.inr ⟨rfl, rfl, _, hs'⟩⟩

/-! ## Backward -/

/-- What the search backward keeps when the records from `u` on have been passed: the number
`n` of those shown up to its start counts none of them, or the one that is saved. -/
def Seen (user : Comparator) (sequence : ℕ) (records : List Record) (n u : ℕ) (it : DbIter ι) :
    ValueType → Prop
  | .deletion => n = rank (Shown user sequence records) records u
  | .value => ∃ c r, records[c]? = some r ∧ u ≤ c ∧ r.key.sequence ≤ sequence ∧
      r.key.type = .value ∧
      (∀ k r', u ≤ k → k < c → records[k]? = some r' → sequence < r'.key.sequence) ∧
      it.savedKey = r.key.userKey ∧ it.savedValue = r.value ∧
      n = rank (Shown user sequence records) records (c + 1)

/-- One round of `FindPrevUserEntry`: it ends in front of a saved record, or goes on. -/
theorem prevEntry_spec (hordered : Ordered user records)
    (hw : internal.Walks (internalCompare user) (records.map Record.entry) InnerAt)
    (hs : InnerAt it.iter i) (hr : records[i]? = some r) {valueType : ValueType}
    (hseen : Seen user sequence records n (i + 1) it valueType) :
    (valueType = .value ∧ user.compare r.key.userKey it.savedKey = .lt ∧
        it.prevEntry internal user sequence valueType = .ok (true, valueType, it)) ∨
      ∃ valueType' savedKey savedValue,
        it.prevEntry internal user sequence valueType
          = .ok (false, valueType', { it with savedKey, savedValue }) ∧
        Seen user sequence records n i { it with savedKey, savedValue } valueType' := by
  obtain ⟨-, hkey, hvalue⟩ := inner_shows hw hs hr
  rw [prevEntry, parseKey_spec hordered hw hs hr, ok_bind]
  by_cases hseq : r.key.sequence ≤ sequence
  · simp only [Option.filter, hseq, decide_true, if_true]
    by_cases hlt : valueType ≠ .deletion ∧ user.compare r.key.userKey it.savedKey = .lt
    · rw [if_pos hlt]
      refine Or.inl ⟨?_, hlt.2, rfl⟩
      cases valueType with
      | deletion => exact absurd rfl hlt.1
      | value => rfl
    · rw [if_neg hlt]
      -- Whatever was saved has the user key of this record and is older.
      have hn : n = rank (Shown user sequence records) records (i + 1) := by
        cases valueType with
        | deletion => exact hseen
        | value =>
          obtain ⟨c, r', hr', hc, hseq', -, hbetween, hsaved, -, hn⟩ := hseen
          have hle := userKey_le hordered (show i ≤ c by omega) hr hr'
          have hnot : Shown user sequence records r' = false := by
            rw [Bool.eq_false_iff, Ne, shown_iff hordered hr']
            intro hshown
            have hne := hshown.2.2 i r (by omega) hr hseq
            rw [hsaved] at hlt
            revert hle hne hlt
            cases user.compare r.key.userKey r'.key.userKey <;> simp
          rw [hn, rank_succ_of_not hr' hnot]
          exact rank_eq hc fun k a hk hk' ha =>
            not_shown_of_invisible hordered ha (hbetween k a hk hk' ha)
      refine Or.inr ?_
      cases htype : r.key.type with
      | deletion =>
        refine ⟨.deletion, [], [], rfl, ?_⟩
        rw [Seen, hn, rank_succ_of_not hr (not_shown_of_deletion htype)]
      | value =>
        refine ⟨.value, _, _, rfl, i, r, hr, le_rfl, hseq, htype, fun k r' hk hk' => ?_, ?_, ?_, hn⟩
        · exact absurd hk (not_le.2 hk')
        · simp only [hkey, Record.userKey_entry]
        · exact hvalue
  · have hnot : Option.filter (fun ikey : ParsedInternalKey => ikey.sequence ≤ sequence)
        (some r.key) = none := by
      simp [Option.filter, hseq]
    simp only [hnot]
    refine Or.inr ⟨valueType, it.savedKey, it.savedValue, rfl, ?_⟩
    have hinvisible := not_le.1 hseq
    cases valueType with
    | deletion =>
      exact hseen.trans (rank_succ_of_not hr (not_shown_of_invisible hordered hr hinvisible))
    | value =>
      obtain ⟨c, r', hr', hc, hseq', htype, hbetween, hrest⟩ := hseen
      refine ⟨c, r', hr', by omega, hseq', htype, fun k a hk hk' ha => ?_, hrest⟩
      rcases hk.lt_or_eq with hlt | rfl
      · exact hbetween k a hlt hk' ha
      · cases hr.symm.trans ha
        exact hinvisible

/-- A saved record is shown when no record before the passed ones has its user key. -/
theorem shown_of_seen (hordered : Ordered user records) {c u : ℕ} (hr : records[c]? = some r)
    (hseq : r.key.sequence ≤ sequence) (htype : r.key.type = .value)
    (hbetween : ∀ k r', u ≤ k → k < c → records[k]? = some r' → sequence < r'.key.sequence)
    (hbefore : ∀ k r', k < u → records[k]? = some r' →
      user.compare r'.key.userKey r.key.userKey = .lt) :
    Shown user sequence records r = true := by
  refine (shown_iff hordered hr).2 ⟨hseq, htype, fun j r' hj hr' hs' heq => ?_⟩
  by_cases hu : u ≤ j
  · exact absurd hs' (not_le.2 (hbetween j r' hu hj hr'))
  · rw [hbefore j r' (not_le.1 hu) hr'] at heq
    cases heq

/-- How the loop of `FindPrevUserEntry` ends: with nothing to show, or behind a record that
is shown. -/
def Ended (InnerAt : ι → ℕ → Prop) (user : Comparator) (sequence : ℕ) (records : List Record)
    (n : ℕ) (it : DbIter ι) : ValueType → Prop
  | .deletion => n = 0 ∧ ∃ i, InnerAt it.iter i
  | .value => ∃ i r u, records[i]? = some r ∧ Shown user sequence records r = true ∧
      n = rank (Shown user sequence records) records i + 1 ∧
      Reverse InnerAt user sequence records i r u it

theorem prevLoop_spec (hordered : Ordered user records)
    (hw : internal.Walks (internalCompare user) (records.map Record.entry) InnerAt) (rounds : ℕ) :
    ∀ {it : DbIter ι} {i : ℕ} {valueType : ValueType}, InnerAt it.iter i → i < records.length →
      i < rounds → Seen user sequence records n (i + 1) it valueType → it.error = .ok →
      it.direction = .reverse →
      ∃ valueType' it', it.prevLoop internal user sequence rounds valueType = .ok (valueType', it') ∧
        it'.error = .ok ∧ Ended InnerAt user sequence records n it' valueType' := by
  induction rounds with
  | zero => exact fun _ _ hrounds => absurd hrounds (Nat.not_lt_zero _)
  | succ rounds ih =>
    intro it i valueType hs hi hrounds hseen herror hdirection
    have hr := List.getElem?_eq_getElem hi
    rw [prevLoop]
    rcases prevEntry_spec hordered hw hs hr hseen with ⟨rfl, hlt, hprev⟩ |
      ⟨valueType', savedKey, savedValue, hprev, hseen'⟩
    · obtain ⟨c, r, hr', hc, hseq, htype, hbetween, hsaved, hvalue, hn⟩ := hseen
      have hbefore : ∀ k r', k < i + 1 → records[k]? = some r' →
          user.compare r'.key.userKey r.key.userKey = .lt := fun k r' hk hk' => by
        rw [hsaved] at hlt
        exact Std.TransCmp.lt_of_isLE_of_lt (userKey_le hordered (Nat.le_of_lt_succ hk) hk' hr) hlt
      have hshown := shown_of_seen hordered hr' hseq htype hbetween hbefore
      rw [rank_succ hr', hshown] at hn
      rw [hprev, ok_bind]
      exact ⟨_, _, rfl, herror, c, r, i + 1, hr', hshown, hn, hdirection, hsaved, hvalue, hs, hc,
        hbefore, hbetween⟩
    · obtain ⟨iter, hstep, hs'⟩ := inner_prev hw hs hi
      rw [hprev, ok_bind]
      simp only [Bool.false_eq_true, if_false]
      rw [hstep, ok_bind]
      cases i with
      | zero =>
        rw [if_pos rfl] at hs'
        rw [inner_end hw hs' le_rfl]
        refine ⟨_, _, rfl, herror, ?_⟩
        cases valueType' with
        | deletion => exact ⟨hseen', _, hs'⟩
        | value =>
          obtain ⟨c, r, hr', hc, hseq, htype, hbetween, hsaved, hvalue, hn⟩ := hseen'
          have hbefore : ∀ k r', k < 0 → records[k]? = some r' →
              user.compare r'.key.userKey r.key.userKey = .lt := fun k _ hk => absurd hk k.not_lt_zero
          have hshown := shown_of_seen hordered hr' hseq htype hbetween hbefore
          rw [rank_succ hr', hshown] at hn
          exact ⟨c, r, 0, hr', hshown, hn, hdirection, hsaved, hvalue, hs', hc, hbefore, hbetween⟩
      | succ i =>
        rw [if_neg (Nat.succ_ne_zero i), Nat.add_sub_cancel] at hs'
        have hi' : i < records.length := by omega
        rw [if_pos (inner_shows hw hs' (List.getElem?_eq_getElem hi')).1]
        exact ih hs' hi' (by omega) hseen' herror hdirection

/-- **`FindPrevUserEntry`** ends at the last record to be shown among the first `u`. -/
theorem findPrevUserEntry_spec (it : DbIter ι) (hordered : Ordered user records)
    (hw : internal.Walks (internalCompare user) (records.map Record.entry) InnerAt) {rounds u : ℕ}
    (hs : InnerAt it.iter (if u = 0 then records.length else u - 1)) (hu : u ≤ records.length)
    (hrounds : records.length ≤ rounds) (hn : n = rank (Shown user sequence records) records u)
    (herror : it.error = .ok) (hdirection : it.direction = .reverse) :
    ∃ it', it.findPrevUserEntry internal user sequence rounds = .ok it' ∧
      At InnerAt user sequence records it'
        (if n = 0 then (snapshot user sequence records).length else n - 1) := by
  have hloop : ∃ valueType it', (if internal.valid it.iter then
        it.prevLoop internal user sequence rounds .deletion else .ok (.deletion, it))
          = .ok (valueType, it') ∧
      it'.error = .ok ∧ Ended InnerAt user sequence records n it' valueType := by
    cases u with
    | zero =>
      rw [if_pos rfl] at hs
      rw [inner_end hw hs le_rfl]
      exact ⟨_, _, rfl, herror, hn, _, hs⟩
    | succ u =>
      rw [if_neg (Nat.succ_ne_zero u), Nat.add_sub_cancel] at hs
      rw [if_pos (inner_shows hw hs (List.getElem?_eq_getElem hu)).1]
      exact prevLoop_spec hordered hw rounds hs hu (by omega) hn herror hdirection
  obtain ⟨valueType, it', hloop, herror', hended⟩ := hloop
  rw [findPrevUserEntry, hloop, ok_bind]
  cases valueType with
  | deletion =>
    obtain ⟨hzero, hinner⟩ := hended
    rw [if_pos hzero]
    exact ⟨_, rfl, herror', Or.inr ⟨rfl, rfl, hinner⟩⟩
  | value =>
    obtain ⟨i, r, u, hr, hshown, hn, hreverse⟩ := hended
    rw [if_neg (by omega), hn, Nat.add_sub_cancel]
    exact ⟨_, rfl, herror', Or.inl ⟨rfl, i, r, hr, hshown, rfl, Or.inr ⟨u, hreverse.direction,
      hreverse.savedKey, hreverse.savedValue, hreverse.inner, hreverse.le, hreverse.before,
      hreverse.between⟩⟩⟩

/-- **The loop of `Prev`** leaves the records of the current user key. -/
theorem leaveKey_spec (hordered : Ordered user records)
    (hw : internal.Walks (internalCompare user) (records.map Record.entry) InnerAt)
    (hr : records[i]? = some r) (rounds : ℕ) :
    ∀ (it : DbIter ι) {u : ℕ}, InnerAt it.iter u → u ≤ i → u < rounds →
      (∀ k r', u ≤ k → k < i → records[k]? = some r' →
        user.compare r'.key.userKey r.key.userKey = .eq) →
      it.savedKey = r.key.userKey → it.error = .ok →
      ∃ more it' u', it.leaveKey internal user rounds = .ok (more, it') ∧ it'.error = .ok ∧ u' ≤ i ∧
        (∀ k r', u' ≤ k → k < i → records[k]? = some r' →
          user.compare r'.key.userKey r.key.userKey = .eq) ∧
        InnerAt it'.iter (if u' = 0 then records.length else u' - 1) ∧
        (more = true ∨ more = false ∧ u' = 0 ∧ it'.valid = false) := by
  obtain ⟨hi, -⟩ := List.getElem?_eq_some_iff.1 hr
  induction rounds with
  | zero => exact fun _ _ _ _ hrounds => absurd hrounds (Nat.not_lt_zero _)
  | succ rounds ih =>
    intro it u hs hu hrounds hsame hsaved herror
    obtain ⟨iter, hstep, hs'⟩ := inner_prev hw hs (hu.trans_lt hi)
    rw [leaveKey, hstep, ok_bind]
    cases u with
    | zero =>
      have hinvalid := inner_end hw hs' (by rw [if_pos rfl])
      rw [hinvalid]
      exact ⟨false, _, 0, rfl, herror, Nat.zero_le _, hsame, hs', Or.inr ⟨rfl, rfl, rfl⟩⟩
    | succ u =>
      have hs'' := hs'
      rw [if_neg (Nat.succ_ne_zero u), Nat.add_sub_cancel] at hs''
      have hru := List.getElem?_eq_getElem (show u < records.length by omega)
      obtain ⟨hvalid, hkey, -⟩ := inner_shows hw hs'' hru
      rw [hvalid]
      simp only [Bool.not_true, Bool.false_eq_true, if_false, hkey, Record.userKey_entry, hsaved]
      by_cases hlt : user.compare records[u].key.userKey r.key.userKey = .lt
      · rw [if_pos hlt]
        exact ⟨true, _, u + 1, rfl, herror, hu, hsame, hs', Or.inl rfl⟩
      · rw [if_neg hlt]
        refine ih _ hs'' (by omega) (by omega) (fun k r' hk hk' hr' => ?_) rfl herror
        rcases hk.lt_or_eq with hk | rfl
        · exact hsame k r' hk hk' hr'
        · cases hru.symm.trans hr'
          have hle := userKey_le hordered (show u ≤ i by omega) hru hr
          revert hle hlt
          cases user.compare records[u].key.userKey r.key.userKey <;> simp

/-! ## The operations -/

omit [user.Lawful] in
theorem At.inner (h : At InnerAt user sequence records it n) : ∃ i, InnerAt it.iter i := by
  obtain ⟨-, ⟨-, i, r, -, -, -, hforward | ⟨u, hreverse⟩⟩ | ⟨-, -, hinner⟩⟩ := h
  · exact ⟨i, hforward.inner⟩
  · exact ⟨_, hreverse.inner⟩
  · exact hinner

/-- A step forward. -/
theorem next_spec (hordered : Ordered user records)
    (hw : internal.Walks (internalCompare user) (records.map Record.entry) InnerAt) {rounds : ℕ}
    (hrounds : records.length ≤ rounds) (h : At InnerAt user sequence records it n)
    (hn : n < (snapshot user sequence records).length) :
    ∃ it', it.next internal user sequence rounds = .ok it' ∧
      At InnerAt user sequence records it' (n + 1) := by
  obtain ⟨herror, ⟨-, i, r, hr, hshown, rfl, hat⟩ | ⟨-, rfl, -⟩⟩ := h
  · obtain ⟨hi, -⟩ := List.getElem?_eq_some_iff.1 hr
    have hrank : rank (Shown user sequence records) records i + 1
        = rank (Shown user sequence records) records (i + 1) := by
      rw [rank_succ hr, hshown, if_pos rfl]
    rw [hrank]
    rcases hat with hforward | ⟨u, hreverse⟩
    · obtain ⟨-, hkey, -⟩ := inner_shows hw hforward.inner hr
      obtain ⟨iter, hstep, hs'⟩ := inner_next hw hforward.inner hi
      rw [next, hforward.direction]
      simp only
      rw [hstep, ok_bind, nextFrom, hkey, Record.userKey_entry]
      by_cases hlast : i + 1 < records.length
      · rw [(inner_shows hw hs' (List.getElem?_eq_getElem hlast)).1]
        exact findNextUserEntry_spec hordered hw rounds hs' hlast (by omega)
          (hides_userKey hordered hr ((shown_iff hordered hr).1 hshown).1) herror rfl
      · rw [inner_end hw hs' (not_lt.1 hlast), show i + 1 = records.length by omega,
          ← length_snapshot]
        exact ⟨_, rfl, herror, Or.inr ⟨rfl, rfl, _, hs'⟩⟩
    · have hu := hreverse.le
      have hmove : ∃ iter, internal.step (if !internal.valid it.iter then .seekToFirst else .next)
          it.iter = .ok iter ∧ InnerAt iter u := by
        have hinner := hreverse.inner
        cases u with
        | zero =>
          rw [if_pos rfl] at hinner
          rw [inner_end hw hinner le_rfl]
          have hallowed : Allowed (records.map Record.entry) (.seekToFirst : Op Bytes)
            records.length := trivial
          exact hw.refines.step hinner hallowed
        | succ u =>
          rw [if_neg (Nat.succ_ne_zero u), Nat.add_sub_cancel] at hinner
          have hlt : u < records.length := by omega
          rw [(inner_shows hw hinner (List.getElem?_eq_getElem hlt)).1]
          exact inner_next hw hinner hlt
      obtain ⟨iter, hstep, hs'⟩ := hmove
      rw [next, hreverse.direction]
      simp only
      rw [hstep, ok_bind, nextFrom,
        (inner_shows hw hs' (List.getElem?_eq_getElem (hu.trans_lt hi))).1]
      exact pass_spec hordered hw hr hshown rounds hs' hu hreverse.between (by omega)
        hreverse.savedKey herror rfl
  · exact absurd hn (lt_irrefl _)

/-- A step back. -/
theorem prev_spec (hordered : Ordered user records)
    (hw : internal.Walks (internalCompare user) (records.map Record.entry) InnerAt) {rounds : ℕ}
    (hrounds : records.length ≤ rounds) (h : At InnerAt user sequence records it n)
    (hn : n < (snapshot user sequence records).length) :
    ∃ it', it.prev internal user sequence rounds = .ok it' ∧
      At InnerAt user sequence records it'
        (if n = 0 then (snapshot user sequence records).length else n - 1) := by
  obtain ⟨herror, ⟨-, i, r, hr, hshown, rfl, hat⟩ | ⟨-, rfl, -⟩⟩ := h
  · obtain ⟨hi, -⟩ := List.getElem?_eq_some_iff.1 hr
    rcases hat with hforward | ⟨u, hreverse⟩
    · obtain ⟨-, hkey, -⟩ := inner_shows hw hforward.inner hr
      obtain ⟨more, it', u, hleave, herror', hu, hsame, hs', hmore⟩ :=
        leaveKey_spec hordered hw hr rounds
          { it with savedKey := r.key.userKey, direction := .forward } hforward.inner le_rfl (by omega) (fun k _ hk hk' => absurd hk (not_le.2 hk')) rfl herror
      -- The records that were left have the user key of a record that is shown.
      have hrank : rank (Shown user sequence records) records i
          = rank (Shown user sequence records) records u := by
        refine rank_eq hu fun k r' hk hk' hr' => not_shown_of_invisible hordered hr' ?_
        by_contra hvisible
        exact ((shown_iff hordered hr).1 hshown).2.2 k r' hk' hr' (not_lt.1 hvisible)
          (hsame k r' hk hk' hr')
      rw [prev, hforward.direction]
      simp only
      rw [hkey, Record.userKey_entry, hleave, ok_bind]
      rcases hmore with rfl | ⟨rfl, rfl, hinvalid⟩
      · exact findPrevUserEntry_spec _ hordered hw hs' (by omega) hrounds hrank herror' rfl
      · rw [hrank, rank_zero, if_pos rfl]
        exact ⟨it', rfl, herror', Or.inr ⟨hinvalid, rfl, _, hs'⟩⟩
    · rw [prev, hreverse.direction]
      have hu := hreverse.le
      refine findPrevUserEntry_spec _ hordered hw hreverse.inner (by omega) hrounds
        (rank_eq hu fun k r' hk hk' hr' =>
          not_shown_of_invisible hordered hr' (hreverse.between k r' hk hk' hr'))
        herror hreverse.direction
  · exact absurd hn (lt_irrefl _)

/-- A seek: the first record at or behind the key of a lookup is the first of those to be
shown. -/
theorem seekFrom_spec (it : DbIter ι) (hordered : Ordered user records)
    (hw : internal.Walks (internalCompare user) (records.map Record.entry) InnerAt) {rounds : ℕ}
    (hrounds : records.length ≤ rounds) (hs : InnerAt it.iter i) (hi : i ≤ records.length)
    (hsplit : ∀ j k r r', j < i → i ≤ k → records[j]? = some r → records[k]? = some r' →
      r.key.sequence ≤ sequence → r'.key.sequence ≤ sequence →
      user.compare r.key.userKey r'.key.userKey ≠ .eq)
    (herror : it.error = .ok) (hdirection : it.direction = .forward) :
    ∃ it', it.seekFrom internal user sequence rounds = .ok it' ∧
      At InnerAt user sequence records it' (rank (Shown user sequence records) records i) := by
  rw [seekFrom]
  rcases hi.lt_or_eq with hi | rfl
  · rw [if_pos (inner_shows hw hs (List.getElem?_eq_getElem hi)).1]
    refine findNextUserEntry_spec hordered hw rounds hs hi (by omega) (fun k r hk hr hseq => ?_)
      herror hdirection
    constructor
    · exact fun h => absurd h.1 Bool.false_ne_true
    · rintro ⟨j, r', hj, hr', hseq', heq⟩
      exact absurd heq (hsplit j k r' r hj hk hr' hr hseq' hseq)
  · rw [inner_end hw hs le_rfl, ← length_snapshot]
    exact ⟨_, rfl, herror, Or.inr ⟨rfl, rfl, _, hs⟩⟩

omit [user.Lawful] in
/-- Whatever can be seen before the place of a lookup has an earlier user key. -/
theorem lt_of_lt_lookup (hordered : Ordered user records) (hsequence : sequence ≤ kMaxSequenceNumber)
    (target : Bytes) (hr : records[i]? = some r)
    (hi : i < lowerBound (internalCompare user) (records.map Record.entry) (lookupKey target sequence))
    (hseq : r.key.sequence ≤ sequence) : user.compare r.key.userKey target = .lt := by
  obtain ⟨hi', rfl⟩ := List.getElem?_eq_some_iff.1 hr
  have hlt := lt_of_lt_lowerBound hi
  rw [List.getElem_map] at hlt
  have hge := mt (isGE_lookupKey user target (hordered.sequence_le _ (List.getElem_mem hi'))
    hsequence).2 (by rw [hlt]; exact Bool.false_ne_true)
  rw [not_or, Record.Visible, not_and] at hge
  cases hcmp : user.compare records[i].key.userKey target with
  | lt => rfl
  | eq => exact absurd hseq (hge.2 hcmp)
  | gt => exact absurd hcmp hge.1

/-- And whatever comes from there on has it or a later one. -/
theorem isGE_of_lookup_le (hordered : Ordered user records)
    (hsequence : sequence ≤ kMaxSequenceNumber) (target : Bytes) (hr : records[i]? = some r)
    (hi : lowerBound (internalCompare user) (records.map Record.entry) (lookupKey target sequence) ≤ i) :
    (user.compare r.key.userKey target).isGE := by
  obtain ⟨hi', rfl⟩ := List.getElem?_eq_some_iff.1 hr
  have hlen : i < (records.map Record.entry).length := by rwa [List.length_map]
  have hge := isGE_lowerBound (internalCompare user) (records.map Record.entry)
    (lookupKey target sequence) (hi.trans_lt hlen)
  have hle := Std.TransCmp.isLE_trans (Std.OrientedCmp.isLE_of_isGE hge) (hordered.sorted.le hi hlen)
  rw [List.getElem_map] at hle
  rcases (isGE_lookupKey user target (hordered.sequence_le _ (List.getElem_mem hi')) hsequence).1
    (Std.OrientedCmp.isGE_of_isLE hle) with hgt | hvisible
  · rw [hgt]
    rfl
  · rw [hvisible.1]
    rfl

omit [user.Lawful] in
/-- What it shows is the entry of the snapshot it is at, in either direction. -/
theorem At.shows (hw : internal.Walks (internalCompare user) (records.map Record.entry) InnerAt)
    (h : At InnerAt user sequence records it n)
    (hn : n < (snapshot user sequence records).length) :
    (it.key internal, it.value internal) = (snapshot user sequence records)[n] := by
  obtain ⟨-, ⟨-, i, r, hr, hshown, rfl, hat⟩ | ⟨-, rfl, -⟩⟩ := h
  · have hget : (snapshot user sequence records)[rank (Shown user sequence records) records i]?
        = some (r.key.userKey, r.value) := by
      rw [snapshot, List.getElem?_map, getElem?_filter_rank hr hshown]
      rfl
    rw [List.getElem?_eq_getElem hn, Option.some.injEq] at hget
    rw [hget]
    rcases hat with hforward | ⟨u, hreverse⟩
    · obtain ⟨-, hkey, hvalue⟩ := inner_shows hw hforward.inner hr
      simp only [key, value, hforward.direction, hkey, hvalue, Record.userKey_entry]
    · simp only [key, value, hreverse.direction, hreverse.savedKey, hreverse.savedValue]
  · exact absurd hn (lt_irrefl _)

/-- A seek to a user key: the records before the place of its lookup have earlier ones. -/
theorem seek_spec (hordered : Ordered user records) (hsequence : sequence ≤ kMaxSequenceNumber)
    (hw : internal.Walks (internalCompare user) (records.map Record.entry) InnerAt) {rounds : ℕ}
    (hrounds : records.length ≤ rounds) (h : At InnerAt user sequence records it n)
    (target : Bytes) :
    ∃ it', it.step internal user sequence rounds (.seek target) = .ok it' ∧
      At InnerAt user sequence records it'
        (lowerBound user.compare (snapshot user sequence records) target) := by
  obtain ⟨i, hinner⟩ := h.inner
  have herror := h.1
  obtain ⟨iter, hstep, hs⟩ := hw.refines.seek hinner (lookupKey target sequence)
  have hkey : appendInternalKey [] ⟨target, sequence, kValueTypeForSeek⟩
      = lookupKey target sequence := rfl
  have hle := lowerBound_le (internalCompare user) (records.map Record.entry)
    (lookupKey target sequence)
  rw [List.length_map] at hle
  obtain ⟨it', hseek, hat⟩ := seekFrom_spec
    { it with iter, savedKey := lookupKey target sequence, savedValue := [],
              direction := .forward } hordered hw hrounds hs hle
    (fun j k r r' hj hk hr hr' hseq _ heq => by
      have hlt := lt_of_lt_lookup hordered hsequence target hr hj hseq
      have hge := isGE_of_lookup_le hordered hsequence target hr' hk
      have := Std.TransCmp.lt_of_isLE_of_lt
        (Ordering.isLE_of_eq_eq (Std.OrientedCmp.eq_symm heq)) hlt
      rw [this] at hge
      cases hge) herror rfl
  refine ⟨it', ?_, ?_⟩
  · simp only [step, hkey, hstep, ok_bind, hseek]
  · rw [snapshot, lowerBound_filter]
    · exact hat
    · exact fun k r hk hr hshown =>
        lt_of_lt_lookup hordered hsequence target hr hk ((shown_iff hordered hr).1 hshown).1
    · exact fun k r hk hr _ => isGE_of_lookup_le hordered hsequence target hr hk

/-- To the first entry of the snapshot. -/
theorem seekToFirst_spec (hordered : Ordered user records)
    (hw : internal.Walks (internalCompare user) (records.map Record.entry) InnerAt) {rounds : ℕ}
    (hrounds : records.length ≤ rounds) (h : At InnerAt user sequence records it n) :
    ∃ it', it.step internal user sequence rounds .seekToFirst = .ok it' ∧
      At InnerAt user sequence records it' 0 := by
  obtain ⟨i, hinner⟩ := h.inner
  have herror := h.1
  have hop : Allowed (records.map Record.entry) (.seekToFirst : Op Bytes) i := trivial
  obtain ⟨iter, hstep, hs⟩ := hw.refines.step hinner hop
  obtain ⟨it', hseek, hat⟩ := seekFrom_spec
    { it with iter, savedValue := [], direction := .forward } (i := 0) hordered hw
    hrounds hs (Nat.zero_le _) (fun j _ _ _ hj => absurd hj j.not_lt_zero) herror rfl
  exact ⟨it', by simp only [step, hstep, ok_bind, hseek], hat⟩

/-- To the last, from behind all records. -/
theorem seekToLast_spec (hordered : Ordered user records)
    (hw : internal.Walks (internalCompare user) (records.map Record.entry) InnerAt) {rounds : ℕ}
    (hrounds : records.length ≤ rounds) (h : At InnerAt user sequence records it n) :
    ∃ it', it.step internal user sequence rounds .seekToLast = .ok it' ∧
      At InnerAt user sequence records it' ((snapshot user sequence records).length - 1) := by
  obtain ⟨i, hinner⟩ := h.inner
  have herror := h.1
  have hop : Allowed (records.map Record.entry) (.seekToLast : Op Bytes) i := trivial
  obtain ⟨iter, hstep, hs⟩ := hw.refines.step hinner hop
  have hlast : InnerAt iter
      (if records.length = 0 then records.length else records.length - 1) := by
    simp only [move, List.length_map] at hs
    split
    · rename_i hzero
      rwa [hzero] at hs ⊢
    · exact hs
  obtain ⟨it', hprev, hat⟩ := findPrevUserEntry_spec
    { it with iter, savedValue := [], direction := .reverse } hordered hw hlast le_rfl
    hrounds (rfl : rank (Shown user sequence records) records records.length = _) herror rfl
  refine ⟨it', by simp only [step, hstep, ok_bind, hprev], ?_⟩
  rw [← length_snapshot] at hat
  split at hat
  · rename_i hzero
    rwa [hzero] at hat ⊢
  · exact hat

/-- **The iterator of the database is a cursor** on what a reader at this sequence number is
to see. -/
theorem walks (hordered : Ordered user records) (hsequence : sequence ≤ kMaxSequenceNumber)
    (hw : internal.Walks (internalCompare user) (records.map Record.entry) InnerAt) {rounds : ℕ}
    (hrounds : records.length ≤ rounds) :
    (iterator internal user sequence rounds).Walks user.compare (snapshot user sequence records)
      (At InnerAt user sequence records) where
  status {it n} h := by
    obtain ⟨i, hinner⟩ := h.inner
    show it.status internal = .ok
    rw [status, if_pos h.1, hw.status hinner]
  refines :=
    { valid_iff := fun {it n} h => by
        show it.valid = true ↔ _
        obtain ⟨-, ⟨hvalid, i, r, hr, hshown, rfl, -⟩ | ⟨hvalid, rfl, -⟩⟩ := h
        · rw [snapshot, List.length_map]
          exact iff_of_true hvalid (rank_lt hr hshown)
        · rw [hvalid]
          exact iff_of_false Bool.false_ne_true (lt_irrefl _)
      shows := fun {it n} h hn => h.shows hw hn
      step := fun {it n op} h hallowed => by
        show ∃ it', it.step internal user sequence rounds op = .ok it' ∧ _
        cases op with
        | seek target => exact seek_spec hordered hsequence hw hrounds h target
        | seekToFirst => exact seekToFirst_spec hordered hw hrounds h
        | seekToLast => exact seekToLast_spec hordered hw hrounds h
        | next => exact next_spec hordered hw hrounds h hallowed
        | prev => exact prev_spec hordered hw hrounds h hallowed }

/-- **A new one,** over a new iterator on the records. -/
theorem fresh {internal : ℕ → DbIterator ι} (hordered : Ordered user records)
    (hsequence : sequence ≤ kMaxSequenceNumber) {iter : ι}
    (h : DbIterator.Fresh internal (internalCompare user) (records.map Record.entry) iter) :
    DbIterator.Fresh (fun rounds => iterator (internal rounds) user sequence rounds) user.compare
      (snapshot user sequence records) { iter } := by
  obtain ⟨InnerAt, hat, n, hwalks⟩ := h
  exact ⟨At InnerAt user sequence records, ⟨rfl, Or.inr ⟨rfl, rfl, _, hat⟩⟩, n + records.length,
    fun rounds hrounds => walks hordered hsequence (hwalks rounds (by omega)) (by omega)⟩

end Search

end DbIter

end PackedFilters.LevelDb
