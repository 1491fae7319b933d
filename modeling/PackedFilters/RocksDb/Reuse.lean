import PackedFilters.Codec.Hash
import PackedFilters.RocksDb.Builder

/-!
# A builder used for several filters

A partitioned filter uses one builder for all its partitions: it adds keys, asks for a
filter, and goes on.  The builder sorts its vector of hashes in `Finish` and leaves it as it
is, so the hashes of earlier partitions stay, and the next filter is that of all keys so far.
Such a filter loses no key, but it is larger than it has to be, and `EstimateEntriesAdded`,
by which the partitions are cut, counts the old ones too.

How far that shows is decided by `AddKey`, which passes over a key whose hash is the last one
in the vector.  A batch comes out as it would on a fresh builder exactly if nothing was in
the vector before it, or only the hash that its own first key has.

* `exists_pushHashes` — what `AddKey` leaves of a batch when the vector was not empty;
* `finish_addKeys` — a filter is that of all the keys so far;
* `result_fresh_iff` — one batch is as on a fresh builder exactly if it is `Unaffected`;
* `runBatches_fresh_iff` — a run is that of fresh builders exactly when, before each batch,
  there were no keys or only keys with the hash of its first one.
-/

namespace PackedFilters.RocksDb

open PackedFilters.Xor

namespace XorFilterBitsBuilder

/-! ## A vector that is not empty -/

/-- `AddKey` looks at the last hash only. -/
theorem pushHashes_append (kept : List UInt64) (hashes : List UInt64) :
    ∀ {entries : List UInt64}, entries ≠ [] →
      pushHashes (kept ++ entries) hashes = kept ++ pushHashes entries hashes := by
  induction hashes with
  | nil => exact fun _ => rfl
  | cons h hashes ih =>
    intro entries hne
    have hlast : (kept ++ entries).getLast? = entries.getLast? :=
      List.getLast?_append_of_ne_nil _ hne
    have hpush : pushHash (kept ++ entries) h = kept ++ pushHash entries h := by
      unfold pushHash
      rw [hlast]
      by_cases heq : some h ≠ entries.getLast?
      · rw [if_pos (Or.inr heq), if_pos (Or.inr heq), List.append_assoc]
      · rw [if_neg (by simp [hne, heq]), if_neg (by simp [hne, heq])]
    have hne' : pushHash entries h ≠ [] :=
      List.ne_nil_of_mem (mem_pushHash.2 (Or.inr rfl))
    rw [pushHashes, List.foldl_cons, hpush, ← pushHashes, ih hne']
    rfl

/-- The hashes of a batch go behind those already there, less one of these when it is
the last and the batch begins with it. -/
theorem exists_pushHashes (entries hashes : List UInt64) :
    ∃ kept, pushHashes entries hashes = kept ++ pushHashes [] hashes ∧
      (kept = [] ↔ entries = [] ∨ ∃ h, entries = [h] ∧ hashes.head? = some h) := by
  cases hashes with
  | nil => exact ⟨entries, (List.append_nil _).symm, by simp⟩
  | cons h hashes =>
    by_cases hlast : entries.getLast? = some h
    · obtain ⟨kept, rfl⟩ := List.getLast?_eq_some_iff.1 hlast
      refine ⟨kept, ?_, by simp⟩
      have hpush : pushHash (kept ++ [h]) h = kept ++ [h] := by
        unfold pushHash
        simp
      rw [pushHashes, List.foldl_cons, hpush, ← pushHashes, pushHashes_append _ _ (by simp)]
      rfl
    · refine ⟨entries, ?_, ?_⟩
      · have hpush : pushHash entries h = entries ++ [h] :=
          if_pos (Or.inr (Ne.symm hlast))
        rw [pushHashes, List.foldl_cons, hpush, ← pushHashes, pushHashes_append _ _ (by simp)]
        rfl
      · refine ⟨Or.inl, ?_⟩
        rintro (h' | ⟨x, rfl, hx⟩)
        · exact h'
        · exact absurd hx.symm hlast

/-! ## Runs -/

/-- What a fresh builder says and returns for a batch alone. -/
def freshResult (sliceHash : SliceHash) (bitsPerKey : ℕ) (batch : List Bytes) :
    ℕ × Checked Bytes :=
  let b := (new bitsPerKey).addKeys sliceHash batch
  (b.estimateEntriesAdded, b.finish.2)

/-- There were no keys before the batch, or only keys with the hash of its first one. -/
def Unaffected (sliceHash : SliceHash) (earlier batch : List Bytes) : Prop :=
  earlier = [] ∨ ∃ first ∈ batch.head?, ∀ key ∈ earlier, sliceHash key = sliceHash first

variable {sliceHash : SliceHash} {bitsPerKey : ℕ}

/-- The builder behind a `Finish`, after these keys. -/
def afterKeys (sliceHash : SliceHash) (bitsPerKey : ℕ) (earlier : List Bytes) :
    XorFilterBitsBuilder where
  bitsPerKey := bitsPerKey
  hashEntries := sortUnique (earlier.map sliceHash)

variable (sliceHash bitsPerKey) in
theorem afterKeys_nil : afterKeys sliceHash bitsPerKey [] = new bitsPerKey := by
  rw [afterKeys, List.map_nil, sortUnique_eq_nil_iff.2 rfl]
  rfl

/-- **One batch.**  Its filter is that of all the keys so far. -/
theorem finish_addKeys (earlier batch : List Bytes) :
    ((afterKeys sliceHash bitsPerKey earlier).addKeys sliceHash batch).finish
      = (afterKeys sliceHash bitsPerKey (earlier ++ batch),
          finishHashes bitsPerKey (sortUnique ((earlier ++ batch).map sliceHash))) := by
  have hsame : sortUnique (pushHashes (sortUnique (earlier.map sliceHash)) (batch.map sliceHash))
      = sortUnique ((earlier ++ batch).map sliceHash) :=
    sortUnique_eq_of_mem_iff fun x => by
      rw [mem_pushHashes, mem_sortUnique, List.map_append, List.mem_append]
  rw [addKeys_eq, finish]
  simp only [afterKeys, hsame]

/-- The distinct hashes of the keys before a batch are gone or its first hash alone
exactly when the batch is unaffected. -/
theorem unaffected_iff (earlier batch : List Bytes) :
    Unaffected sliceHash earlier batch ↔
      sortUnique (earlier.map sliceHash) = [] ∨
        ∃ h, sortUnique (earlier.map sliceHash) = [h] ∧ (batch.map sliceHash).head? = some h := by
  rw [sortUnique_eq_nil_iff, List.map_eq_nil_iff, Unaffected]
  by_cases hne : earlier = []
  · simp [hne]
  rw [or_iff_right hne, or_iff_right hne]
  have hone (h : UInt64) : sortUnique (earlier.map sliceHash) = [h] ↔
      ∀ key ∈ earlier, sliceHash key = h := by
    constructor
    · intro hs key hkey
      have hmem : sliceHash key ∈ sortUnique (earlier.map sliceHash) :=
        mem_sortUnique.2 (List.mem_map_of_mem hkey)
      rwa [hs, List.mem_singleton] at hmem
    · intro hall
      refine (sortUnique_eq_of_mem_iff fun x => ?_).trans (sortUnique_singleton h)
      rw [List.mem_map, List.mem_singleton]
      constructor
      · rintro ⟨key, hkey, rfl⟩
        exact hall key hkey
      · rintro rfl
        obtain ⟨key, hkey⟩ := List.exists_mem_of_ne_nil _ hne
        exact ⟨key, hkey, hall key hkey⟩
  simp only [hone, List.head?_map, Option.map_eq_some_iff, Option.mem_def]
  constructor
  · rintro ⟨first, hfirst, hall⟩
    exact ⟨_, hall, first, hfirst, rfl⟩
  · rintro ⟨_, hall, first, hfirst, rfl⟩
    exact ⟨first, hfirst, hall⟩

/-- **One batch is as on a fresh builder** exactly when it is unaffected: otherwise
already the number of entries differs. -/
theorem result_fresh_iff (earlier batch : List Bytes) :
    (((afterKeys sliceHash bitsPerKey earlier).addKeys sliceHash batch).estimateEntriesAdded,
        ((afterKeys sliceHash bitsPerKey earlier).addKeys sliceHash batch).finish.2)
      = freshResult sliceHash bitsPerKey batch ↔ Unaffected sliceHash earlier batch := by
  obtain ⟨kept, hkept, hnil⟩ :=
    exists_pushHashes (sortUnique (earlier.map sliceHash)) (batch.map sliceHash)
  rw [unaffected_iff, ← hnil, freshResult]
  simp only [addKeys_eq, afterKeys, new, estimateEntriesAdded, finish, hkept]
  constructor
  · intro h
    have hlen := congrArg Prod.fst h
    rw [List.length_append, Nat.add_eq_right] at hlen
    exact List.eq_nil_of_length_eq_zero hlen
  · rintro rfl
    rfl

/-- A run from the state behind some keys. -/
theorem runBatches_afterKeys_iff (batches : List (List Bytes)) : ∀ earlier : List Bytes,
    runBatches sliceHash (afterKeys sliceHash bitsPerKey earlier) batches
        = batches.map (freshResult sliceHash bitsPerKey) ↔
      ∀ before batch rest, batches = before ++ batch :: rest →
        Unaffected sliceHash (earlier ++ before.flatten) batch := by
  induction batches with
  | nil => exact fun _ => iff_of_true rfl fun before batch rest h => by simp at h
  | cons batch batches ih =>
    intro earlier
    have hnext : ((afterKeys sliceHash bitsPerKey earlier).addKeys sliceHash batch).finish.1
        = afterKeys sliceHash bitsPerKey (earlier ++ batch) := by
      rw [finish_addKeys]
    rw [runBatches, List.map_cons, List.cons.injEq, result_fresh_iff, hnext, ih]
    constructor
    · rintro ⟨hfirst, hrest⟩ before other rest h
      cases before with
      | nil =>
        simp only [List.nil_append, List.cons.injEq] at h
        simpa [← h.1] using hfirst
      | cons _ before =>
        simp only [List.cons_append, List.cons.injEq] at h
        simpa [← h.1] using hrest before other rest h.2
    · intro h
      refine ⟨by simpa using h [] batch batches rfl, fun before other rest heq => ?_⟩
      simpa using h (batch :: before) other rest (by rw [heq, List.cons_append])

/-- **Exactly when one builder is as good as fresh ones.**  Over any sequence of batches,
every `Finish` and every `EstimateEntriesAdded` is that of a fresh builder if and only if
each batch comes after no keys, or after keys that all hash like its first one. -/
theorem runBatches_fresh_iff (sliceHash : SliceHash) (bitsPerKey : ℕ)
    (batches : List (List Bytes)) :
    runBatches sliceHash (new bitsPerKey) batches
        = batches.map (freshResult sliceHash bitsPerKey) ↔
      ∀ before batch rest, batches = before ++ batch :: rest →
        Unaffected sliceHash before.flatten batch := by
  rw [← afterKeys_nil sliceHash, runBatches_afterKeys_iff]
  rfl

/-- Two partitions of one key each: at the second one the builder counts two entries. -/
theorem runBatches_not_fresh :
    ¬ runBatches xxph3Len1to3 (new 10) [[[0x61]], [[0x62]]]
      = [[[0x61]], [[0x62]]].map (freshResult xxph3Len1to3 10) := by
  rw [← afterKeys_nil xxph3Len1to3, runBatches_afterKeys_iff]
  intro h
  rcases h [[[0x61]]] [[0x62]] [] rfl with hnone | ⟨first, hfirst, hall⟩
  · cases hnone
  · cases hfirst
    exact absurd (hall [0x61] (List.mem_singleton_self _)) (by decide)

end XorFilterBitsBuilder

end PackedFilters.RocksDb
