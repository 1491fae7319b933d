import PackedFilters.Machine

/-!
# Comparators

The order of a table's keys: `Slice::compare`, the `Comparator` interface with the two
functions that shorten the keys of an index block, and `BytewiseComparator`.

A table keeps one key for each data block in its index, and it need not be a key that anybody
wrote: any text from the last key of the block up to, but not including, the first key of the
next one will do, and a short one saves space.  The interface promises such separators, and
successors for the last block; nothing of a table works without the promise, so it is a class
that the theorems about tables ask for.

* `Comparator` — the interface; keys that `compare` holds equal need not be the same bytes;
* `Comparator.Lawful` — what the interface promises: a total preorder, separators in `[start,
  limit)`, successors at or above their key;
* `Comparator.Short` — a separator is no longer than the key it was made from, which bounds
  the index block;
* `sharedPrefix` — the loop over a common prefix, which a block builder uses too;
* `instLawfulBytewise`, `instShortBytewise` — the bytewise comparator keeps both promises.
-/

namespace PackedFilters.LevelDb

/-- `Slice::compare`: `memcmp` over the common length, then the lengths. -/
def sliceCompare : Bytes → Bytes → Ordering := List.compareLex compare

instance : Std.TransCmp sliceCompare := inferInstanceAs (Std.TransCmp (List.compareLex compare))

instance : Std.LawfulEqCmp sliceCompare :=
  inferInstanceAs (Std.LawfulEqCmp (List.compareLex compare))

/-- The `Comparator` interface: the order of keys, and the two functions that shorten keys of an
index block. -/
structure Comparator where
  /-- `Compare(a, b)`, by its sign. -/
  compare : Bytes → Bytes → Ordering
  /-- What `FindShortestSeparator(start, limit)` leaves in `*start`. -/
  findShortestSeparator : Bytes → Bytes → Bytes
  /-- What `FindShortSuccessor(key)` leaves in `*key`. -/
  findShortSuccessor : Bytes → Bytes

/-- What the interface asks of its implementations. -/
class Comparator.Lawful (c : Comparator) : Prop where
  trans : Std.TransCmp c.compare
  le_separator {start limit : Bytes} : (c.compare start limit).isLE →
    (c.compare start (c.findShortestSeparator start limit)).isLE
  separator_le {start limit : Bytes} : (c.compare start limit).isLE →
    (c.compare (c.findShortestSeparator start limit) limit).isLE
  separator_lt {start limit : Bytes} : c.compare start limit = .lt →
    c.compare (c.findShortestSeparator start limit) limit = .lt
  le_successor (key : Bytes) : (c.compare key (c.findShortSuccessor key)).isLE

attribute [instance] Comparator.Lawful.trans

/-- Its short keys are not longer than the keys they stand for. -/
class Comparator.Short (c : Comparator) : Prop where
  separator_length (start limit : Bytes) :
    (c.findShortestSeparator start limit).length ≤ start.length
  successor_length (key : Bytes) : (c.findShortSuccessor key).length ≤ key.length

/-! ## The bytewise comparator -/

/-- The length of the common prefix: the loop of `FindShortestSeparator` and of
`BlockBuilder::Add`. -/
def sharedPrefix : Bytes → Bytes → ℕ
  | a :: as, b :: bs => if a = b then sharedPrefix as bs + 1 else 0
  | _, _ => 0

/-- `BytewiseComparatorImpl::FindShortestSeparator`: the first byte that differs is raised by
one and what is behind it dropped, where that still is below the limit. -/
def bytewiseSeparator (start limit : Bytes) : Bytes :=
  let minLength := min start.length limit.length
  let diffIndex := sharedPrefix start limit
  if minLength ≤ diffIndex then start
  else
    let diffByte := start.getD diffIndex 0
    if diffByte < 0xff ∧ diffByte.toNat + 1 < (limit.getD diffIndex 0).toNat then
      (start.set diffIndex (diffByte + 1)).take (diffIndex + 1)
    else start

/-- `BytewiseComparatorImpl::FindShortSuccessor`, from the first byte on. -/
def bytewiseSuccessor : Bytes → Bytes
  | [] => []
  | byte :: rest => if byte ≠ 0xff then [byte + 1] else byte :: bytewiseSuccessor rest

/-- `BytewiseComparator()`: keys in the order of their bytes, a prefix before what it is a
prefix of. -/
def bytewiseComparator : Comparator where
  compare := sliceCompare
  findShortestSeparator := bytewiseSeparator
  findShortSuccessor := bytewiseSuccessor

theorem sharedPrefix_le_left : ∀ a b : Bytes, sharedPrefix a b ≤ a.length
  | [], _ => by simp [sharedPrefix]
  | _ :: _, [] => by simp [sharedPrefix]
  | a :: as, b :: bs => by
    rw [sharedPrefix]
    have := sharedPrefix_le_left as bs
    simp only [List.length_cons]
    split
    · omega
    · exact Nat.zero_le _

theorem sharedPrefix_le_right : ∀ a b : Bytes, sharedPrefix a b ≤ b.length
  | [], _ => by simp [sharedPrefix]
  | _ :: _, [] => by simp [sharedPrefix]
  | a :: as, b :: bs => by
    rw [sharedPrefix]
    have := sharedPrefix_le_right as bs
    simp only [List.length_cons]
    split
    · omega
    · exact Nat.zero_le _

/-- Up to there the strings agree. -/
theorem take_sharedPrefix : ∀ a b : Bytes, a.take (sharedPrefix a b) = b.take (sharedPrefix a b)
  | [], _ => by simp [sharedPrefix]
  | _ :: _, [] => by simp [sharedPrefix]
  | a :: as, b :: bs => by
    rw [sharedPrefix]
    split
    · rename_i h
      rw [List.take_succ_cons, List.take_succ_cons, take_sharedPrefix as bs, h]
    · rw [List.take_zero, List.take_zero]

theorem sliceCompare_append (p : Bytes) (x y : Bytes) :
    sliceCompare (p ++ x) (p ++ y) = sliceCompare x y := by
  induction p with
  | nil => rfl
  | cons b p ih =>
    have hb : compare b b = .eq := Std.ReflCmp.compare_self
    simpa [sliceCompare, List.compareLex_cons_cons, hb] using ih

theorem sliceCompare_cons_of_lt {a b : UInt8} (h : a < b) (x y : Bytes) :
    sliceCompare (a :: x) (b :: y) = .lt := by
  have hab : compare a b = .lt := Std.compare_eq_lt.2 h
  simp [sliceCompare, List.compareLex_cons_cons, hab]

theorem sliceCompare_self (a : Bytes) : sliceCompare a a = .eq := Std.ReflCmp.compare_self

/-- A separator is its `start`, or is cut behind the first byte in which `start` and
`limit` differ, with a byte between theirs in the end. -/
theorem bytewiseSeparator_cases (start limit : Bytes) :
    bytewiseSeparator start limit = start ∨
      ∃ p a b x y, start = p ++ a :: x ∧ limit = p ++ b :: y ∧ a < a + 1 ∧ a + 1 < b ∧
        bytewiseSeparator start limit = p ++ [a + 1] := by
  rw [bytewiseSeparator]
  simp only
  split
  · exact Or.inl rfl
  split
  · rename_i hmin hbyte
    obtain ⟨hff, hlt⟩ := hbyte
    have hi : sharedPrefix start limit < start.length := by omega
    have hj : sharedPrefix start limit < limit.length := by omega
    rw [List.getD_eq_getElem _ _ hi, List.getD_eq_getElem _ _ hj] at *
    have hsucc : (start[sharedPrefix start limit] + 1).toNat
        = start[sharedPrefix start limit].toNat + 1 := by
      rw [UInt8.lt_iff_toNat_lt] at hff
      rw [UInt8.toNat_add]
      exact Nat.mod_eq_of_lt (Nat.succ_lt_succ hff)
    refine Or.inr ⟨start.take (sharedPrefix start limit), start[sharedPrefix start limit],
      limit[sharedPrefix start limit], start.drop (sharedPrefix start limit + 1),
      limit.drop (sharedPrefix start limit + 1), ?_, ?_, ?_, ?_, ?_⟩
    · rw [← List.drop_eq_getElem_cons hi, List.take_append_drop]
    · rw [take_sharedPrefix, ← List.drop_eq_getElem_cons hj, List.take_append_drop]
    · rw [UInt8.lt_iff_toNat_lt, hsucc]
      omega
    · rw [UInt8.lt_iff_toNat_lt, hsucc]
      exact hlt
    · rw [List.take_add_one, List.take_set_of_le (le_refl _)]
      simp [hi]
  · exact Or.inl rfl

theorem le_bytewiseSuccessor : ∀ key : Bytes, (sliceCompare key (bytewiseSuccessor key)).isLE
  | [] => rfl
  | byte :: rest => by
    rw [bytewiseSuccessor]
    split
    · rename_i h
      rw [sliceCompare_cons_of_lt]
      · rfl
      · have hlt : byte.toNat < 255 :=
          lt_of_le_of_ne (Nat.le_of_lt_succ byte.toNat_lt) fun h255 => h (UInt8.toNat_inj.1 h255)
        rw [UInt8.lt_iff_toNat_lt, UInt8.toNat_add]
        exact (Nat.lt_succ_self _).trans_eq (Nat.mod_eq_of_lt (Nat.succ_lt_succ hlt)).symm
    · have := le_bytewiseSuccessor rest
      rwa [← sliceCompare_append [byte]] at this

instance instLawfulBytewise : bytewiseComparator.Lawful where
  trans := inferInstanceAs (Std.TransCmp sliceCompare)
  le_separator {start limit} h := by
    show (sliceCompare start (bytewiseSeparator start limit)).isLE
    rcases bytewiseSeparator_cases start limit with he | ⟨p, a, b, x, y, rfl, rfl, ha, -, he⟩
    · rw [he, sliceCompare_self]
      rfl
    · rw [he, sliceCompare_append, sliceCompare_cons_of_lt ha]
      rfl
  separator_le {start limit} h := by
    show (sliceCompare (bytewiseSeparator start limit) limit).isLE
    rcases bytewiseSeparator_cases start limit with he | ⟨p, a, b, x, y, rfl, rfl, -, hb, he⟩
    · rw [he]
      exact h
    · rw [he, sliceCompare_append, sliceCompare_cons_of_lt hb]
      rfl
  separator_lt {start limit} h := by
    show sliceCompare (bytewiseSeparator start limit) limit = .lt
    rcases bytewiseSeparator_cases start limit with he | ⟨p, a, b, x, y, rfl, rfl, -, hb, he⟩
    · rw [he]
      exact h
    · rw [he, sliceCompare_append, sliceCompare_cons_of_lt hb]
  le_successor := le_bytewiseSuccessor

instance instShortBytewise : bytewiseComparator.Short where
  separator_length start limit := by
    show (bytewiseSeparator start limit).length ≤ start.length
    rw [bytewiseSeparator]
    simp only
    split
    · exact le_rfl
    split
    · rw [List.length_take, List.length_set]
      exact Nat.min_le_right ..
    · exact le_rfl
  successor_length key := by
    show (bytewiseSuccessor key).length ≤ key.length
    induction key with
    | nil => exact le_rfl
    | cons byte rest ih =>
      rw [bytewiseSuccessor]
      split
      · simp
      · exact Nat.succ_le_succ ih

end PackedFilters.LevelDb
