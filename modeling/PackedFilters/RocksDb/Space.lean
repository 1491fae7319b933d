import PackedFilters.RocksDb.Builder

/-!
# The size predictions of the RocksDB builder

`CalculateSpace` writes the sizes of `Finish` down a second time, and
`ApproximateNumEntries` inverts them over the rationals.

`Finish` builds a table of fingerprints up to 16 bits per key, and there the prediction is
the size of that table, byte for byte, whatever the width.  Above 16 bits per key it always
falls back to a Bloom filter, whose size grows with the bits per key, while `CalculateSpace`
goes on predicting the table.  The two sizes then agree by accident only: the table has 32
positions to spare, so it is the longer one for few hashes, the Bloom filter is the longer
one for many, and in between the roundings meet in 52 places (`coincidences`).

* `sizesAgree_iff` — those places, found by evaluation up to 256 hashes and excluded by an
  estimate beyond;
* `finish_length_iff` — a filter is as long as predicted up to 16 bits per key, and above in
  those places;
* `approximateNumEntries_calculateSpace` — the prediction holds at least as many
  entries as it was made for, whatever the width.
-/

namespace PackedFilters.RocksDb

open PackedFilters.Xor

/-! ## Sizes without a wrap -/

theorem exactSizes_of_capacity {n : ℕ} (h : 3 * ((n * 123 / 100 + 32) / 3) < 4294967296) :
    ExactSizes n := by
  have hcapacity : capacity n = n * 123 / 100 + 32 := by
    rw [capacity, kCapacityNumerator, kCapacityDenominator, kCapacitySlack,
      u64_of_lt (by omega : n * 123 < 18446744073709551616), u64_of_lt (by omega)]
  have hblock : blockLength n = (n * 123 / 100 + 32) / 3 := by
    rw [blockLength, hcapacity, u32_of_lt (by omega)]
  exact ⟨hcapacity, hblock, u32_of_lt (by omega), by omega, by omega⟩

/-- The table has 123 positions for 100 keys, and more than 29 to spare. -/
theorem ExactSizes.slack {n : ℕ} (h : ExactSizes n) :
    n * 123 + 2900 ≤ tableSize n * 100 + 99 := by
  rw [h.tableSize_eq, h.blockLength_eq]
  omega

theorem ExactSizes.loopRuns {n bitsPerKey : ℕ} (h : ExactSizes n) (h1 : 1 ≤ bitsPerKey)
    (h16 : bitsPerKey ≤ 16) : LoopRuns bitsPerKey n := by
  have hslack := h.slack
  exact ⟨h1, h16, h.pos.ne', by omega⟩

namespace XorFilterBitsBuilder

/-! ## The two functions -/

/-- `CalculateSpace`: the length of a filter for so many entries, by the sizes of the table of
fingerprints, whatever the bits per key. -/
def calculateSpace (b : XorFilterBitsBuilder) (numEntries : ℕ) : ℕ :=
  let fpBits := computeFingerprintBits b.bitsPerKey
  let capacity := u64 (u64 (numEntries * kCapacityNumerator) / kCapacityDenominator + kCapacitySlack)
  let blockLength := u32 (capacity / 3)
  let tableSize := u32 (3 * blockLength)
  (tableSize * fpBits + 7) / 8 + kTrailerSize

/-- `ApproximateNumEntries`, its doubles read as rational numbers. -/
def approximateNumEntries (b : XorFilterBitsBuilder) (bytes : ℕ) : ℕ :=
  if bytes < kTrailerSize then 0
  else
    let fpBits : ℚ := computeFingerprintBits b.bitsPerKey
    let bytesForTable : ℚ := (bytes - kTrailerSize : ℕ)
    ⌊bytesForTable * 8 / (123 / 100 * fpBits)⌋₊

theorem calculateSpace_eq (b : XorFilterBitsBuilder) (n : ℕ) :
    b.calculateSpace n
      = packedByteSize (tableSize n) (computeFingerprintBits b.bitsPerKey) + kTrailerSize := rfl

/-! ## The length of a filter -/

@[simp] theorem length_appendTrailer (payload : Bytes) (seed blockLength : UInt32)
    (fingerprintBits : UInt8) :
    (appendTrailer payload seed blockLength fingerprintBits).length
      = payload.length + kTrailerSize := by
  simp [appendTrailer, appendFixed32, kTrailerSize]

/-- The seed loop of `Finish` runs and finds no seed. -/
def ExhaustsSeeds (b : XorFilterBitsBuilder) : Prop :=
  let hashes := sortUnique b.hashEntries
  LoopRuns b.bitsPerKey hashes.length ∧
    trySeeds (blockLength hashes.length) hashes kMaxSeedTries 0 = .ok none

variable {b : XorFilterBitsBuilder}

/-- Where the loop finds a seed, the filter is a packed table of the predicted size. -/
theorem finish_length_of_loopRuns (hne : b.hashEntries ≠ [])
    (hruns : LoopRuns b.bitsPerKey (sortUnique b.hashEntries).length) (hseeds : ¬ b.ExhaustsSeeds) :
    ∃ filter, b.finish.2 = .ok filter ∧
      filter.length = b.calculateSpace (sortUnique b.hashEntries).length := by
  set hashes := sortUnique b.hashEntries with hhashes
  have hsizes := hruns.sizes
  have hne' : hashes ≠ [] := mt sortUnique_eq_nil_iff.1 hne
  have hfinish : b.finish.2 = finishHashes b.bitsPerKey hashes := rfl
  rw [finishHashes_eq _ hne', if_pos hruns] at hfinish
  rcases trySeeds_cases hsizes.pos hsizes.le (sortUnique_nodup b.hashEntries) kMaxSeedTries 0
    with ⟨i, -, -, order, he, htable⟩ | ⟨-, he⟩
  · have hwidth : computeFingerprintBits b.bitsPerKey ≤ 16 := packedWidth_le _
    obtain ⟨out, hout, hlen, -⟩ := appendPackedValues_eq hwidth
      (assignFingerprints (blockLength hashes.length) (computeFingerprintBits b.bitsPerKey) order) []
    refine ⟨_, by rw [hfinish, he, ok_bind], ?_⟩
    rw [hout, length_appendTrailer, List.nil_append, hlen, (htable _ hwidth).length, calculateSpace_eq,
      hsizes.tableSize_eq]
  · exact absurd ⟨hruns, he⟩ hseeds

/-- Above 16 bits per key the filter is the fallback's. -/
theorem finish_length_of_fallback (hne : b.hashEntries ≠ []) (hbits : 16 < b.bitsPerKey)
    (hbloom : bloomBitCount (sortUnique b.hashEntries).length b.bitsPerKey ≠ 0) :
    ∃ filter, b.finish.2 = .ok filter ∧
      filter.length
        = bloomBitCount (sortUnique b.hashEntries).length b.bitsPerKey / 8 + kTrailerSize := by
  have hne' : sortUnique b.hashEntries ≠ [] := mt sortUnique_eq_nil_iff.1 hne
  have hfinish : b.finish.2 = finishHashes b.bitsPerKey (sortUnique b.hashEntries) := rfl
  rw [finishHashes_eq _ hne', if_neg fun hruns => absurd hruns.bits_le (not_le.2 hbits)] at hfinish
  obtain ⟨payload, hok, hlen, -⟩ := buildBloomFallback_ok _ hbloom
  exact ⟨_, hfinish.trans hok, by rw [length_appendTrailer, hlen]⟩

/-- The bytes of a bit count that fits. -/
theorem bloomBitCount_div_eight {n bitsPerKey : ℕ} (hfits : n * bitsPerKey ≤ 18446744073709551608)
    (h : bloomBitCount n bitsPerKey ≠ 0) :
    bloomBitCount n bitsPerKey / 8 = (max 64 (n * bitsPerKey) + 7) / 8 := by
  have hbound := bloomBitCount_bound hfits h
  have hword : u64 (n * bitsPerKey) = n * bitsPerKey := u64_of_lt (by omega)
  have hround (bits : ℕ) (hle : bits ≤ 4294967288) :
      (if 4294967295 < u64 (bits + 7) / 8 * 8 then 0 else u64 (bits + 7) / 8 * 8)
        = (bits + 7) / 8 * 8 := by
    rw [u64_of_lt (by omega)]
    exact if_neg (by omega)
  have hcount : bloomBitCount n bitsPerKey = (max 64 (n * bitsPerKey) + 7) / 8 * 8 := by
    unfold bloomBitCount
    simp only [hword]
    split
    · next hsmall => rw [hround 64 (by norm_num), max_eq_left hsmall.le]
    · next hlarge => rw [hround _ hbound, max_eq_right (not_lt.1 hlarge)]
  rw [hcount, Nat.mul_div_cancel _ (by norm_num)]

/-! ## Where the two formulas meet -/

/-- The numbers of distinct hashes for which, above 16 bits per key, the fallback has the
size of the table that is not built.  Beyond 89 bits per key there are none. -/
def coincidences : ℕ → List ℕ
  | 17 => [159, 163, 165]
  | 18 => [195, 197, 204, 206]
  | 19 => [241, 243, 250]
  | 20 => [147, 149, 151, 162]
  | 21 => [176, 180]
  | 22 => [205, 207, 216, 218]
  | 23 => [144, 146, 148, 150]
  | 24 => [108, 110, 112, 114, 116, 118]
  | 25 => [90, 92, 94, 96]
  | 27 => [64]
  | 28 => [60]
  | 30 => [48]
  | 32 => [39]
  | 35 => [30]
  | 40 => [24]
  | 43 => [20]
  | 48 => [17, 18]
  | 51 => [15, 16]
  | 55 => [13]
  | 60 => [12]
  | 65 => [11]
  | 67 => [10]
  | 74 => [9]
  | 78 => [8]
  | 89 => [7]
  | _ => []

/-- The bytes of the fallback's bit array and of the table, for `d` distinct hashes. -/
def SizesAgree (bitsPerKey d : ℕ) : Prop :=
  (max 64 (d * bitsPerKey) + 7) / 8
    = (3 * ((d * 123 / 100 + 32) / 3) * computeFingerprintBits bitsPerKey + 7) / 8

instance (bitsPerKey d : ℕ) : Decidable (SizesAgree bitsPerKey d) :=
  inferInstanceAs (Decidable (_ = _))

/-- From 257 hashes on the fallback is the longer one. -/
theorem not_sizesAgree_of_large {bitsPerKey d : ℕ} (h16 : 16 < bitsPerKey)
    (h100 : bitsPerKey ≤ 100) (hd : 257 ≤ d) : ¬ SizesAgree bitsPerKey d := by
  have hall : ∀ b < 101, 16 < b →
      257 * (123 * computeFingerprintBits b) + 3200 * computeFingerprintBits b + 800 ≤ 257 * (100 * b) ∧
        123 * computeFingerprintBits b ≤ 100 * b := by decide +kernel
  obtain ⟨hstart, hslope⟩ := hall bitsPerKey (by omega) h16
  set w := computeFingerprintBits bitsPerKey with hw
  obtain ⟨k, rfl⟩ := Nat.exists_eq_add_of_le hd
  have hstep := Nat.mul_le_mul_left k hslope
  have htable : 3 * (((257 + k) * 123 / 100 + 32) / 3) * w * 100
      ≤ 257 * (123 * w) + k * (123 * w) + 3200 * w := by
    calc 3 * (((257 + k) * 123 / 100 + 32) / 3) * w * 100
        = 3 * (((257 + k) * 123 / 100 + 32) / 3) * 100 * w := by ring
      _ ≤ ((257 + k) * 123 + 3200) * w := Nat.mul_le_mul_right _ (by omega)
      _ = 257 * (123 * w) + k * (123 * w) + 3200 * w := by ring
  have hbits : (257 + k) * bitsPerKey * 100 = 257 * (100 * bitsPerKey) + k * (100 * bitsPerKey) := by
    ring
  have hmax := le_max_right 64 ((257 + k) * bitsPerKey)
  rw [SizesAgree, ← hw]
  omega

/-- **The two sizes agree** for the listed numbers of hashes and no others. -/
theorem sizesAgree_iff {bitsPerKey : ℕ} (h16 : 16 < bitsPerKey) (h100 : bitsPerKey ≤ 100) (d : ℕ) :
    SizesAgree bitsPerKey d ↔ d ∈ coincidences bitsPerKey := by
  have hsmall : ∀ b < 101, 16 < b →
      (List.range 257).filter (fun d => SizesAgree b d) = coincidences b := by decide +kernel
  rw [← hsmall bitsPerKey (by omega) h16, List.mem_filter, List.mem_range, decide_eq_true_eq]
  constructor
  · intro h
    exact ⟨not_le.1 fun hd => not_sizesAgree_of_large h16 h100 hd h, h⟩
  · exact fun h => h.2

/-- Above 16 bits per key the filter has the predicted length where the two sizes agree. -/
theorem finish_length_fallback_iff (h16 : 16 < b.bitsPerKey) (h100 : b.bitsPerKey ≤ 100)
    (hne : b.hashEntries ≠ []) (hsizes : ExactSizes (sortUnique b.hashEntries).length)
    (hbloom : bloomBitCount (sortUnique b.hashEntries).length b.bitsPerKey ≠ 0) :
    (∃ filter, b.finish.2 = .ok filter ∧
        filter.length = b.calculateSpace (sortUnique b.hashEntries).length) ↔
      SizesAgree b.bitsPerKey (sortUnique b.hashEntries).length := by
  obtain ⟨filter, hok, hlen⟩ := finish_length_of_fallback hne h16 hbloom
  have hsmall : (sortUnique b.hashEntries).length * b.bitsPerKey ≤ 18446744073709551608 := by
    have hslack := hsizes.slack
    have htable := hsizes.le
    refine (Nat.mul_le_mul_left _ h100).trans ?_
    rw [hsizes.tableSize_eq] at hslack
    omega
  rw [SizesAgree, ← bloomBitCount_div_eight hsmall hbloom]
  rw [calculateSpace_eq, packedByteSize, hsizes.tableSize_eq, hsizes.blockLength_eq]
  constructor
  · rintro ⟨filter', hok', hlen'⟩
    cases hok.symm.trans hok'
    omega
  · intro heq
    exact ⟨filter, hok, by omega⟩

/-- **`CalculateSpace` and `Finish`.**  Let the sizes fit in 32 bits and the seeds not
run out.  Up to 16 bits per key the filter is exactly as long as `CalculateSpace` says;
above, it is so for 52 pairs of bits per key and distinct hashes, all below 251 hashes, and
for no others. -/
theorem finish_length_iff (b : XorFilterBitsBuilder) (h1 : 1 ≤ b.bitsPerKey)
    (h100 : b.bitsPerKey ≤ 100) (hne : b.hashEntries ≠ [])
    (hfits : 3 * (((sortUnique b.hashEntries).length * 123 / 100 + 32) / 3) < 4294967296)
    (hbloom : bloomBitCount (sortUnique b.hashEntries).length b.bitsPerKey ≠ 0)
    (hseeds : ¬ b.ExhaustsSeeds) :
    (∃ filter, b.finish.2 = .ok filter ∧
        filter.length = b.calculateSpace (sortUnique b.hashEntries).length) ↔
      b.bitsPerKey ≤ 16 ∨ (sortUnique b.hashEntries).length ∈ coincidences b.bitsPerKey := by
  have hsizes := exactSizes_of_capacity hfits
  by_cases h16 : b.bitsPerKey ≤ 16
  · exact iff_of_true (finish_length_of_loopRuns hne (hsizes.loopRuns h1 h16) hseeds) (Or.inl h16)
  · rw [or_iff_right h16, finish_length_fallback_iff (not_le.1 h16) h100 hne hsizes hbloom]
    exact sizesAgree_iff (not_le.1 h16) h100 _

theorem finish_length_iff_twenty :
    (∃ filter, (mk 20 [7]).finish.2 = .ok filter ∧
        filter.length = (mk 20 [7]).calculateSpace (sortUnique [7]).length) ↔
      20 ≤ 16 ∨ (sortUnique [7]).length ∈ coincidences 20 :=
  finish_length_iff (mk 20 [7]) (by norm_num) (by norm_num) (by decide)
    (by simp only [sortUnique_singleton]; decide) (by simp only [sortUnique_singleton]; decide)
    fun h => absurd h.1.bits_le (by norm_num)

/-- With 20 bits per key and one key the prediction is 72 bytes; the fallback has 22. -/
theorem finish_length_mispredicted :
    ∃ b : XorFilterBitsBuilder, b.bitsPerKey = 20 ∧ b.hashEntries = [7] ∧
      (sortUnique b.hashEntries).length = 1 ∧ bloomBitCount 1 20 ≠ 0 ∧ ¬ b.ExhaustsSeeds ∧
      b.calculateSpace 1 = 72 ∧ ∃ filter, b.finish.2 = .ok filter ∧ filter.length = 22 := by
  have hone : (sortUnique [7]).length = 1 := by rw [sortUnique_singleton, List.length_singleton]
  have hbits : bloomBitCount (sortUnique [7]).length 20 ≠ 0 := by
    rw [hone]
    decide
  obtain ⟨filter, hok, hlen⟩ :=
    finish_length_of_fallback (b := mk 20 [7]) (by decide) (by norm_num) hbits
  have hbytes : bloomBitCount (sortUnique [7]).length 20 / 8 + kTrailerSize = 22 := by
    rw [hone]
    decide
  exact ⟨mk 20 [7], rfl, rfl, hone, by decide, fun h => absurd h.1.bits_le (by norm_num), by decide,
    filter, hok, hlen.trans hbytes⟩

/-! ## The inverse -/

/-- Every width has its bits per key. -/
theorem exists_computeFingerprintBits : ∀ w, 1 ≤ w → w ≤ 16 →
    ∃ bitsPerKey, 1 ≤ bitsPerKey ∧ computeFingerprintBits bitsPerKey = w := by
  intro w h1 h16
  have hall : ∀ w ∈ Finset.Icc 1 16, ∃ bitsPerKey ∈ Finset.Icc 1 22,
      computeFingerprintBits bitsPerKey = w := by decide
  obtain ⟨bitsPerKey, hmem, hw⟩ := hall w (Finset.mem_Icc.2 ⟨h1, h16⟩)
  exact ⟨bitsPerKey, (Finset.mem_Icc.1 hmem).1, hw⟩

/-- What fits into a number of bytes, without the division. -/
theorem le_approximateNumEntries {n bytes : ℕ} (hbytes : kTrailerSize ≤ bytes) :
    n ≤ b.approximateNumEntries bytes ↔
      n * 123 * computeFingerprintBits b.bitsPerKey ≤ (bytes - kTrailerSize) * 800 := by
  have hwidth : (0 : ℚ) < computeFingerprintBits b.bitsPerKey := by
    exact_mod_cast packedWidth_pos b.bitsPerKey
  have hdivisor : (0 : ℚ) < 123 / 100 * computeFingerprintBits b.bitsPerKey := by positivity
  unfold approximateNumEntries
  rw [if_neg (not_lt.2 hbytes), Nat.le_floor_iff (by positivity), le_div_iff₀ hdivisor]
  constructor
  · intro h
    have : (n * 123 * computeFingerprintBits b.bitsPerKey : ℚ)
        ≤ ((bytes - kTrailerSize : ℕ) : ℚ) * 800 := by linarith
    exact_mod_cast this
  · intro h
    have : (n * 123 * computeFingerprintBits b.bitsPerKey : ℚ)
        ≤ ((bytes - kTrailerSize : ℕ) : ℚ) * 800 := by exact_mod_cast h
    linarith

/-- The slack of 32 positions outweighs all the roundings. -/
theorem le_approximateNumEntries_calculateSpace (b : XorFilterBitsBuilder) {n : ℕ}
    (hn : n * 123 / 100 + 32 < 4294967296) :
    n ≤ b.approximateNumEntries (b.calculateSpace n) := by
  have hslack := (exactSizes_of_capacity (n := n) (by omega)).slack
  rw [calculateSpace_eq, le_approximateNumEntries (Nat.le_add_left ..), Nat.add_sub_cancel]
  set w := computeFingerprintBits b.bitsPerKey
  have hround : tableSize n * w ≤ packedByteSize (tableSize n) w * 8 := by
    rw [packedByteSize]
    omega
  calc n * 123 * w ≤ tableSize n * 100 * w := Nat.mul_le_mul_right _ (by omega)
    _ = tableSize n * w * 100 := by ring
    _ ≤ packedByteSize (tableSize n) w * 8 * 100 := Nat.mul_le_mul_right _ hround
    _ = packedByteSize (tableSize n) w * 800 := by ring

theorem approximateNumEntries_mono (b : XorFilterBitsBuilder) :
    Monotone b.approximateNumEntries := by
  intro x y hxy
  by_cases hx : x < kTrailerSize
  · have hzero : b.approximateNumEntries x = 0 := if_pos hx
    rw [hzero]
    exact Nat.zero_le _
  · have hx' : kTrailerSize ≤ x := not_lt.1 hx
    have h := (le_approximateNumEntries (b := b) hx').1 le_rfl
    rw [le_approximateNumEntries (hx'.trans hxy)]
    exact h.trans (Nat.mul_le_mul_right _ (Nat.sub_le_sub_right hxy _))

/-- **`ApproximateNumEntries` inverts `CalculateSpace` from above**, for every width and
every number of entries whose sizes fit in 32 bits, and never shrinks when it is given
more bytes. -/
theorem approximateNumEntries_calculateSpace :
    (∀ w, 1 ≤ w → w ≤ 16 → ∃ bitsPerKey, 1 ≤ bitsPerKey ∧ computeFingerprintBits bitsPerKey = w) ∧
      ∀ b : XorFilterBitsBuilder,
        (∀ n, n * 123 / 100 + 32 < 4294967296 →
          n ≤ b.approximateNumEntries (b.calculateSpace n)) ∧
        Monotone b.approximateNumEntries :=
  ⟨exists_computeFingerprintBits, fun b =>
    ⟨fun _ hn => le_approximateNumEntries_calculateSpace b hn, approximateNumEntries_mono b⟩⟩

theorem approximateNumEntries_calculateSpace_thousand :
    1000 ≤ (new 10).approximateNumEntries ((new 10).calculateSpace 1000) :=
  (approximateNumEntries_calculateSpace.2 (new 10)).1 1000 (by norm_num)

end XorFilterBitsBuilder

end PackedFilters.RocksDb
