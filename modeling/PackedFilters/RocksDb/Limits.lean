import PackedFilters.RocksDb.Builder

/-!
# The arithmetic of the RocksDB builder near its limits

`Finish` computes its sizes in 64 and in 32 bits, and the position of every probe modulo a
bit count.  With few keys none of that comes near a limit.  With many, three things could go
wrong: the table size and the positions in it could wrap, a block could be sized too short
for what is written to it, and the bit count of the fallback could be zero, modulo which no
remainder is defined.

Only the last one happens.  `BloomBitCount` returns zero for a count that does not fit in 32
bits; LevelDB's builder asks for that and writes an always-match marker, and this one does
not ask.  The seed loop is safe on its own account: a table that wrapped would have fewer
positions than there are keys, and the loop is not entered with one.

* `ExactPositions`, `exactPositions` — in a table whose size fits in 32 bits no position
  wraps;
* `ArithmeticSafe` — `Finish` takes no remainder by zero, writes inside the string it sized,
  and no number of the seed loop wraps;
* `finish_arithmetic_iff` — all of that holds, except where the fallback is built on a bit
  count of zero.
-/

namespace PackedFilters.RocksDb

open PackedFilters.Xor

/-! ## Positions -/

/-- The positions of a hash without any wrap. -/
structure ExactPositions (blockLength : ℕ) (hash : UInt64) : Prop where
  position1_eq : position1 hash blockLength
    = blockLength + fastRange32 (rotateLeft64 hash 21).toUInt32 blockLength
  position2_eq : position2 hash blockLength
    = 2 * blockLength + fastRange32 (rotateLeft64 hash 42).toUInt32 blockLength
  lt : ∀ p ∈ getPositions hash blockLength, p < 3 * blockLength

theorem exactPositions {L : ℕ} (hL : 0 < L) (h3 : 3 * L ≤ 4294967295) (hash : UInt64) :
    ExactPositions L hash := by
  have h21 := fastRange32_lt (rotateLeft64 hash 21).toUInt32 hL
  have h42 := fastRange32_lt (rotateLeft64 hash 42).toUInt32 hL
  refine ⟨u32_of_lt (by omega), ?_, getPositions_lt hL h3 hash⟩
  rw [position2, u32_of_lt (by omega : 2 * L < 4294967296), u32_of_lt (by omega)]

/-! ## `Finish` -/

namespace XorFilterBitsBuilder

/-- What the arithmetic of `Finish` is to keep.  A wrap in the seed loop would show as a
size or a position that differs from its exact value. -/
structure ArithmeticSafe (b : XorFilterBitsBuilder) : Prop where
  no_remainder : b.finish.2 ≠ .error .remainderByZero
  no_write : ∀ index, b.finish.2 ≠ .error (.writeOutside index)
  sizes : LoopRuns b.bitsPerKey (sortUnique b.hashEntries).length →
    ExactSizes (sortUnique b.hashEntries).length
  positions : LoopRuns b.bitsPerKey (sortUnique b.hashEntries).length →
    ∀ hash, ExactPositions (blockLength (sortUnique b.hashEntries).length) hash

/-- `Finish` returns a filter, and then nothing went wrong on the way. -/
theorem arithmeticSafe_of_ok {b : XorFilterBitsBuilder} {filter : Bytes}
    (h : b.finish.2 = .ok filter) : b.ArithmeticSafe where
  no_remainder := by simp [h]
  no_write := by simp [h]
  sizes hruns := hruns.sizes
  positions hruns := exactPositions hruns.sizes.pos hruns.sizes.le

/-- **Exactly when the arithmetic is safe.**  The bit count of the fallback fits in 32
bits, or the fallback is not needed: the seed loop runs and one of its seeds leaves no
core. -/
theorem finish_arithmetic_iff (b : XorFilterBitsBuilder) (h : b.hashEntries ≠ []) :
    b.ArithmeticSafe ↔
      bloomBitCount (sortUnique b.hashEntries).length b.bitsPerKey ≠ 0 ∨
        Solvable b.bitsPerKey (sortUnique b.hashEntries) := by
  have hne : sortUnique b.hashEntries ≠ [] := mt sortUnique_eq_nil_iff.1 h
  have hfinish : b.finish.2 = finishHashes b.bitsPerKey (sortUnique b.hashEntries) := rfl
  rcases finishHashes_cases b.bitsPerKey hne (sortUnique_nodup _)
    with ⟨hsolved, seed, table, -, he⟩ | ⟨hunsolved, he⟩
  · exact iff_of_true (arithmeticSafe_of_ok (hfinish.trans he)) (Or.inr hsolved)
  · rw [or_iff_left hunsolved]
    constructor
    · intro hsafe hzero
      exact hsafe.no_remainder (hfinish.trans (he.trans (buildBloomFallback_fault hne hzero)))
    · intro hbits
      obtain ⟨payload, hok, -⟩ := buildBloomFallback_ok _ hbits
      exact arithmeticSafe_of_ok (hfinish.trans (he.trans hok))

theorem finish_arithmetic_one :
    (XorFilterBitsBuilder.mk 10 [7]).ArithmeticSafe ↔
      bloomBitCount (sortUnique [7]).length 10 ≠ 0 ∨ Solvable 10 (sortUnique [7]) :=
  finish_arithmetic_iff _ (by decide)

theorem length_sortUnique_countedHashes {count : ℕ} (h : count ≤ 18446744073709551616) :
    (sortUnique (countedHashes count)).length = count := by
  rw [length_sortUnique, List.toFinset_card_of_nodup (countedHashes_nodup h), length_countedHashes]

theorem countedHashes_ne_nil {count : ℕ} (h : 0 < count) : countedHashes count ≠ [] :=
  List.ne_nil_of_length_pos (by rwa [length_countedHashes])

/-- Above 16 bits per key there is only the fallback. -/
theorem finish_of_overflow {b : XorFilterBitsBuilder} (h : b.hashEntries ≠ [])
    (hbits : 16 < b.bitsPerKey)
    (hzero : bloomBitCount (sortUnique b.hashEntries).length b.bitsPerKey = 0) :
    b.finish.2 = .error .remainderByZero := by
  have hne : sortUnique b.hashEntries ≠ [] := mt sortUnique_eq_nil_iff.1 h
  show finishHashes b.bitsPerKey (sortUnique b.hashEntries) = _
  rw [finishHashes_eq _ hne, if_neg fun hruns => absurd hruns.bits_le (not_le.2 hbits)]
  exact buildBloomFallback_fault hne hzero

/-- Any number of hashes whose bit count overflows. -/
theorem not_arithmeticSafe_countedHashes {bitsPerKey count : ℕ} (hbits : 16 < bitsPerKey)
    (hpos : 0 < count) (hcount : count ≤ 18446744073709551616)
    (hzero : bloomBitCount count bitsPerKey = 0) :
    ¬ (XorFilterBitsBuilder.mk bitsPerKey (countedHashes count)).ArithmeticSafe := by
  intro hsafe
  refine hsafe.no_remainder (finish_of_overflow (countedHashes_ne_nil hpos) hbits ?_)
  simp only [length_sortUnique_countedHashes hcount, hzero]

/-- With 100 bits per key, 42949673 hashes ask for more than 2³² bits. -/
theorem finish_arithmetic_overflow :
    ¬ (XorFilterBitsBuilder.mk 100 (countedHashes 42949673)).ArithmeticSafe :=
  not_arithmeticSafe_countedHashes (by norm_num) (by norm_num) (by norm_num) (by decide)

end XorFilterBitsBuilder

end PackedFilters.RocksDb
