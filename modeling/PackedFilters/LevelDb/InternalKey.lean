import PackedFilters.Codec.Coding
import PackedFilters.LevelDb.Comparator

/-!
# Internal keys

A user key with its sequence number and type behind it (`db/dbformat.h`), their order and the
key a lookup seeks.

Every write of the store has a number of its own, and the same user key may be written often.
The number and the type are packed into eight bytes behind the user key, and the order of
internal keys is that of the user keys and, for one user key, of the numbers backwards.  So
the first entry at or behind the key that a lookup makes of a user key and a number is the
newest write that this lookup may see, and a table can find it by a seek.

* `ParsedInternalKey`, `appendInternalKey`, `parseInternalKey` — the two forms of a key;
* `lookupKey` — the key that is sought;
* `internalCompare`, `internalKeyComparator` — user keys ascending, then newest first, and
  short keys that come from shorter user keys only;
* `parseInternalKey_append` — the parts come back;
* `instLawfulInternal`, `instShortInternal` — the order is a comparator as the tables need
  it, whatever the order of the user keys.
-/

namespace PackedFilters.LevelDb

open LittleEndian

/-! ## The key -/

/-- `ValueType`: whether a write puts a value under its key or deletes what is there. -/
inductive ValueType where
  | deletion
  | value
  deriving DecidableEq, Repr

/-- The number of a type on disk. -/
def ValueType.toNat : ValueType → ℕ
  | deletion => 0
  | value => 1

/-- `kMaxSequenceNumber`: sequence numbers have 56 bits, so that a type fits into the same
word. -/
def kMaxSequenceNumber : ℕ := 2 ^ 56 - 1

/-- `kValueTypeForSeek`: the type that sorts first among keys of one number. -/
def kValueTypeForSeek : ValueType := .value

/-- `PackSequenceAndType`: the number above the eight bits of the type. -/
def packSequenceAndType (seq : ℕ) (t : ValueType) : ℕ := u64 (seq <<< 8) ||| t.toNat

/-- `ParsedInternalKey`: a user key, the number of a write and its type, apart from each
other. -/
structure ParsedInternalKey where
  userKey : Bytes
  sequence : ℕ
  type : ValueType
  deriving DecidableEq, Repr

/-- `AppendInternalKey`: the user key and eight bytes with the number and the type behind it. -/
def appendInternalKey (result : Bytes) (key : ParsedInternalKey) : Bytes :=
  result ++ key.userKey ++ fixed64 (packSequenceAndType key.sequence key.type)

/-- `ExtractUserKey`; its assertion asks for eight bytes at least. -/
def extractUserKey (internalKey : Bytes) : Bytes := internalKey.take (internalKey.length - 8)

/-- The number `DecodeFixed64(key.data() + key.size() - 8)` of a key of eight bytes at
least. -/
def extractTag (internalKey : Bytes) : ℕ := value (internalKey.drop (internalKey.length - 8))

/-- `ParseInternalKey`: `none` for `false`. -/
def parseInternalKey (internalKey : Bytes) : Checked (Option ParsedInternalKey) :=
  let n := internalKey.length
  if n < 8 then .ok none
  else do
    let num ← decodeFixed64 internalKey (n - 8)
    let userKey := internalKey.take (n - 8)
    match num &&& 0xff with
    | 0 => .ok (some ⟨userKey, num >>> 8, .deletion⟩)
    | 1 => .ok (some ⟨userKey, num >>> 8, .value⟩)
    | _ => .ok none

/-- The `internal_key()` of a `LookupKey`. -/
def lookupKey (userKey : Bytes) (sequence : ℕ) : Bytes :=
  userKey ++ fixed64 (packSequenceAndType sequence kValueTypeForSeek)

/-! ## The order -/

/-- `InternalKeyComparator::Compare`: user keys first, and of one user key the larger number and
type first. -/
def internalCompare (user : Comparator) (akey bkey : Bytes) : Ordering :=
  (user.compare (extractUserKey akey) (extractUserKey bkey)).then
    (compare (extractTag bkey) (extractTag akey))

/-- The tag put behind a shortened user key: the earliest one. -/
def earliestTag : Bytes := fixed64 (packSequenceAndType kMaxSequenceNumber kValueTypeForSeek)

/-- What `FindShortestSeparator` and `FindShortSuccessor` make of a shortened user key. -/
def replaceUserKey (user : Comparator) (key tmp : Bytes) : Bytes :=
  if tmp.length < (extractUserKey key).length ∧ user.compare (extractUserKey key) tmp = .lt then
    tmp ++ earliestTag
  else key

/-- `InternalKeyComparator`: the order of internal keys over that of the user keys; a key is
shortened in its user key and gets the earliest tag. -/
def internalKeyComparator (user : Comparator) : Comparator where
  compare := internalCompare user
  findShortestSeparator start limit :=
    replaceUserKey user start
      (user.findShortestSeparator (extractUserKey start) (extractUserKey limit))
  findShortSuccessor key := replaceUserKey user key (user.findShortSuccessor (extractUserKey key))

/-! ## The parts of a key -/

theorem extractUserKey_append (userKey : Bytes) (tag : ℕ) :
    extractUserKey (userKey ++ fixed64 tag) = userKey := by
  rw [extractUserKey, List.length_append, length_fixed64, Nat.add_sub_cancel, List.take_left]

theorem extractTag_append (userKey : Bytes) {tag : ℕ} (h : tag < 18446744073709551616) :
    extractTag (userKey ++ fixed64 tag) = tag := by
  rw [extractTag, List.length_append, length_fixed64, Nat.add_sub_cancel, List.drop_left,
    value_fixed64 h]

theorem packSequenceAndType_eq {seq : ℕ} (h : seq ≤ kMaxSequenceNumber) (t : ValueType) :
    packSequenceAndType seq t = 256 * seq + t.toNat := by
  rw [kMaxSequenceNumber] at h
  have ht : t.toNat < 2 ^ 8 := by cases t <;> decide
  rw [packSequenceAndType, Nat.shiftLeft_eq, Nat.mul_comm, u64_of_lt (by omega),
    ← Nat.two_pow_add_eq_or_of_lt ht]

theorem packSequenceAndType_lt {seq : ℕ} (h : seq ≤ kMaxSequenceNumber) (t : ValueType) :
    packSequenceAndType seq t < 18446744073709551616 := by
  rw [packSequenceAndType_eq h]
  rw [kMaxSequenceNumber] at h
  have ht : t.toNat < 256 := by cases t <;> decide
  omega

/-- **The parts come back.** -/
theorem parseInternalKey_append (key : ParsedInternalKey)
    (h : key.sequence ≤ kMaxSequenceNumber) :
    parseInternalKey (appendInternalKey [] key) = .ok (some key) := by
  obtain ⟨userKey, seq, t⟩ := key
  have htag : packSequenceAndType seq t < 18446744073709551616 := packSequenceAndType_lt h t
  have hlen : (userKey ++ fixed64 (packSequenceAndType seq t)).length - 8 = userKey.length := by
    rw [List.length_append, length_fixed64, Nat.add_sub_cancel]
  have hdecode := decodeFixed64_append userKey [] htag
  rw [List.append_nil] at hdecode
  rw [parseInternalKey, appendInternalKey, List.nil_append]
  simp only [hlen, hdecode, ok_bind, List.take_left]
  rw [if_neg (by simp)]
  have hseq : packSequenceAndType seq t >>> 8 = seq := by
    rw [Nat.shiftRight_eq_div_pow, packSequenceAndType_eq h]
    cases t <;> simp only [ValueType.toNat] <;> omega
  have htype : packSequenceAndType seq t &&& 0xff = t.toNat := by
    rw [show (0xff : ℕ) = 2 ^ 8 - 1 from rfl, Nat.and_two_pow_sub_one_eq_mod,
      packSequenceAndType_eq h]
    cases t <;> simp only [ValueType.toNat] <;> omega
  rw [htype, hseq]
  cases t <;> rfl

/-! ## The order is lawful -/

/-- The order of the images under a function. -/
theorem transCmp_on {α β : Type} (f : β → α) (cmp : α → α → Ordering) [Std.TransCmp cmp] :
    Std.TransCmp fun a b => cmp (f a) (f b) where
  eq_swap := Std.OrientedCmp.eq_swap
  isLE_trans := Std.TransCmp.isLE_trans

/-- The order turned round. -/
theorem transCmp_swap {α : Type} (cmp : α → α → Ordering) [Std.TransCmp cmp] :
    Std.TransCmp fun a b => cmp b a where
  eq_swap := Std.OrientedCmp.eq_swap
  isLE_trans h h' := Std.TransCmp.isLE_trans h' h

theorem internalCompare_of_lt {user : Comparator} {a b : Bytes}
    (h : user.compare (extractUserKey a) (extractUserKey b) = .lt) :
    internalCompare user a b = .lt := by
  rw [internalCompare, h]
  rfl

theorem userCompare_of_internalCompare {user : Comparator} {a b : Bytes}
    (h : (internalCompare user a b).isLE) :
    (user.compare (extractUserKey a) (extractUserKey b)).isLE := by
  rw [internalCompare] at h
  revert h
  cases user.compare (extractUserKey a) (extractUserKey b)
  · exact fun _ => rfl
  · exact fun _ => rfl
  · exact id

section Order

variable {user : Comparator} [user.Lawful]

instance instTransInternal : Std.TransCmp (internalCompare user) := by
  have hkeys := transCmp_on extractUserKey user.compare
  have hswap := transCmp_swap (compare : ℕ → ℕ → Ordering)
  have htags := transCmp_on extractTag fun a b : ℕ => compare b a
  exact inferInstanceAs (Std.TransCmp (compareLex
    (fun a b => user.compare (extractUserKey a) (extractUserKey b))
    fun a b => compare (extractTag b) (extractTag a)))

theorem internalCompare_self (a : Bytes) : internalCompare user a a = .eq :=
  Std.ReflCmp.compare_self

/-- A key is kept, or its user key is replaced by a later one. -/
theorem replaceUserKey_cases (user : Comparator) (key tmp : Bytes) :
    replaceUserKey user key tmp = key ∨
      user.compare (extractUserKey key) tmp = .lt ∧
        replaceUserKey user key tmp = tmp ++ earliestTag := by
  rw [replaceUserKey]
  split
  · rename_i h
    exact Or.inr ⟨h.2, rfl⟩
  · exact Or.inl rfl

/-- A separator is its `start`, or lies behind it and before `limit` by its user key. -/
theorem internalSeparator_cases {start limit : Bytes} (h : (internalCompare user start limit).isLE) :
    (internalKeyComparator user).findShortestSeparator start limit = start ∨
      user.compare (extractUserKey start) (extractUserKey
          ((internalKeyComparator user).findShortestSeparator start limit)) = .lt ∧
        user.compare (extractUserKey
            ((internalKeyComparator user).findShortestSeparator start limit))
          (extractUserKey limit) = .lt := by
  have hle := userCompare_of_internalCompare h
  rcases replaceUserKey_cases user start
      (user.findShortestSeparator (extractUserKey start) (extractUserKey limit))
    with he | ⟨hlt, he⟩
  · exact Or.inl he
  · have hsep := Comparator.Lawful.separator_le (c := user) hle
    have hstrict : user.compare (extractUserKey start) (extractUserKey limit) = .lt :=
      Std.TransCmp.lt_of_lt_of_isLE hlt hsep
    have hkey : extractUserKey ((internalKeyComparator user).findShortestSeparator start limit)
        = user.findShortestSeparator (extractUserKey start) (extractUserKey limit) :=
      (congrArg extractUserKey he).trans (extractUserKey_append _ _)
    rw [hkey]
    exact Or.inr ⟨hlt, Comparator.Lawful.separator_lt hstrict⟩

instance instLawfulInternal : (internalKeyComparator user).Lawful where
  trans := instTransInternal
  le_separator {start limit} h := by
    rcases internalSeparator_cases h with he | ⟨hlt, -⟩
    · rw [he]
      exact Ordering.isLE_of_eq_eq (internalCompare_self start)
    · exact Ordering.isLE_of_eq_lt (internalCompare_of_lt hlt)
  separator_le {start limit} h := by
    rcases internalSeparator_cases h with he | ⟨-, hlt⟩
    · rw [he]
      exact h
    · exact Ordering.isLE_of_eq_lt (internalCompare_of_lt hlt)
  separator_lt {start limit} h := by
    rcases internalSeparator_cases (Ordering.isLE_of_eq_lt h) with he | ⟨-, hlt⟩
    · rw [he]
      exact h
    · exact internalCompare_of_lt hlt
  le_successor key := by
    rcases replaceUserKey_cases user key (user.findShortSuccessor (extractUserKey key))
      with he | ⟨hlt, he⟩
    · show (internalCompare user key (replaceUserKey user key _)).isLE
      rw [he]
      exact Ordering.isLE_of_eq_eq (internalCompare_self key)
    · show (internalCompare user key (replaceUserKey user key _)).isLE
      rw [he, internalCompare_of_lt]
      · rfl
      · rwa [earliestTag, extractUserKey_append]

/-- Short keys come from shorter user keys only. -/
theorem length_replaceUserKey (user : Comparator) (key tmp : Bytes) :
    (replaceUserKey user key tmp).length ≤ key.length := by
  rw [replaceUserKey]
  split
  · rename_i h
    have hlen := h.1
    rw [extractUserKey, List.length_take] at hlen
    rw [List.length_append, earliestTag, length_fixed64]
    omega
  · exact le_rfl

instance instShortInternal (user : Comparator) : (internalKeyComparator user).Short where
  separator_length start _ := length_replaceUserKey user start _
  successor_length key := length_replaceUserKey user key _

end Order

end PackedFilters.LevelDb
