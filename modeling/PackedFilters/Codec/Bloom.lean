import PackedFilters.Codec.Fixed

/-!
# The Bloom fallback

Every filter falls back to a Bloom filter: a bit array, and for each key a run of
probes `hash, hash + delta, hash + 2 * delta, …` reduced modulo the number of
bits.  The fallbacks differ in the hash they start from and in the format around
the array; the sizes and the two loops are shared.

* `setProbes_ok` and `addBloomHashes_ok` — the writer's loops set the probed bits
  and no others, inside the array;
* `testProbes_eq_true_iff`, `testProbes_eq_false_iff` — what the reader's loop
  answers on any memory, reads outside it included;
* `addBloomHashes_perm` — the array does not depend on the order of the keys;
* `addBloomHashes_replicate` — the reader finds every hash the writer added;
* `buildBloomEncoding_format` — the bytes of the fallback of the LevelDB filters: the
  array of the hashes and its trailer, or the always-match marker;
* `buildBloomEncoding_spec` — its reader finds every hash through that encoding.
-/

namespace PackedFilters

/-! ## Sizes -/

/-- `BloomProbeCount`.  The product `bits_per_key * 0.69` is a `double`; wherever
it is not clamped to 30 it lies at least a hundredth away from the next integer,
so its truncation is that of the exact product. -/
def bloomProbeCount (bitsPerKey : ℕ) : ℕ :=
  let probes := bitsPerKey * 69 / 100
  let probes := if probes < 1 then 1 else probes
  if 30 < probes then 30 else probes

/-- `BloomBitCount`; 0 stands for a count that does not fit in 32 bits. -/
def bloomBitCount (keyCount bitsPerKey : ℕ) : ℕ :=
  let bits := u64 (keyCount * bitsPerKey)
  let bits := if bits < 64 then 64 else bits
  let bits := u64 (bits + 7) / 8 * 8
  if 4294967295 < bits then 0 else bits

theorem bloomProbeCount_pos (b : ℕ) : 1 ≤ bloomProbeCount b := by
  simp only [bloomProbeCount]
  split <;> split <;> omega

theorem bloomProbeCount_le (b : ℕ) : bloomProbeCount b ≤ 30 := by
  simp only [bloomProbeCount]
  split <;> split <;> omega

/-- A probe count fits in the byte it is stored in. -/
theorem toNat_bloomProbeCount (b : ℕ) :
    (UInt8.ofNat (bloomProbeCount b)).toNat = bloomProbeCount b :=
  toNat_ofNat8 ((bloomProbeCount_le b).trans_lt (by norm_num))

/-- A bit count is zero, or a multiple of eight from 64 on that fits in 32 bits. -/
theorem bloomBitCount_range (n b : ℕ) : bloomBitCount n b = 0 ∨
    64 ≤ bloomBitCount n b ∧ bloomBitCount n b ≤ 4294967288 ∧ 8 ∣ bloomBitCount n b := by
  have hlt : u64 (n * b) < 18446744073709551616 := Nat.mod_lt _ (by norm_num)
  have hbits : ∀ bits, 64 ≤ bits → bits < 18446744073709551616 →
      ∀ r, r = (if 4294967295 < u64 (bits + 7) / 8 * 8 then 0 else u64 (bits + 7) / 8 * 8) →
        r = 0 ∨ 64 ≤ r ∧ r ≤ 4294967288 ∧ 8 ∣ r := by
    intro bits h64 hlt r hr
    rw [u64] at hr
    split at hr <;> omega
  by_cases h : u64 (n * b) < 64
  · exact hbits 64 le_rfl (by norm_num) _ (by rw [bloomBitCount, if_pos h])
  · exact hbits _ (not_lt.1 h) hlt _ (by rw [bloomBitCount, if_neg h])

/-! ## The probes -/

/-- The step between two probes, `(hash >> 17) | (hash << 15)`. -/
def bloomDelta (hash : UInt32) : UInt32 := (hash >>> 17) ||| (hash <<< 15)

/-- `array[index] |= 1 << bit`. -/
def orBit (array : Bytes) (index bit : ℕ) : Checked Bytes :=
  match array[index]? with
  | some b => .ok (array.set index (b ||| (1 <<< UInt8.ofNat bit)))
  | none => .error (.writeOutside index)

/-- The probe loop of the writer, on the bit array that starts at `offset`. -/
def setProbes (offset bitCount : ℕ) : ℕ → UInt32 → UInt32 → Bytes → Checked Bytes
  | 0, _, _, array => .ok array
  | probes + 1, hash, delta, array =>
    if bitCount = 0 then .error .remainderByZero
    else do
      let bitPosition := hash.toNat % bitCount
      let array ← orBit array (offset + bitPosition / 8) (bitPosition % 8)
      setProbes offset bitCount probes (hash + delta) delta array

/-- The loop of the writer over the hashes. -/
def addBloomHashes (offset bitCount probes : ℕ) (hashes : List UInt32) (array : Bytes) :
    Checked Bytes :=
  hashes.foldlM (fun array hash => setProbes offset bitCount probes hash (bloomDelta hash) array)
    array

/-- The probe loop of the reader. -/
def testProbes (array : Bytes) (bitCount : ℕ) : ℕ → UInt32 → UInt32 → Checked Bool
  | 0, _, _ => .ok true
  | probes + 1, hash, delta =>
    if bitCount = 0 then .error .remainderByZero
    else do
      let bitPosition := hash.toNat % bitCount
      let byte ← readByte array (bitPosition / 8)
      if byte &&& (1 <<< UInt8.ofNat (bitPosition % 8)) = 0 then .ok false
      else testProbes array bitCount probes (hash + delta) delta

/-! ## Bits of a byte string -/

/-- Bit `i` of a byte string, counted from the lowest bit of its first byte. -/
def bitAt (array : Bytes) (i : ℕ) : Bool := (array.getD (i / 8) 0).toNat.testBit (i % 8)

/-- The bit that probe `j` of a run looks at. -/
def probeBit (bitCount : ℕ) (hash delta : UInt32) (j : ℕ) : ℕ :=
  (hash + UInt32.ofNat j * delta).toNat % bitCount

theorem probeBit_lt {bitCount : ℕ} (h : 0 < bitCount) (hash delta : UInt32) (j : ℕ) :
    probeBit bitCount hash delta j < bitCount := Nat.mod_lt _ h

theorem probeBit_zero (bitCount : ℕ) (hash delta : UInt32) :
    probeBit bitCount hash delta 0 = hash.toNat % bitCount := by
  rw [probeBit, show UInt32.ofNat 0 = 0 from rfl, UInt32.zero_mul, UInt32.add_zero]

theorem probeBit_succ (bitCount : ℕ) (hash delta : UInt32) (j : ℕ) :
    probeBit bitCount hash delta (j + 1) = probeBit bitCount (hash + delta) delta j := by
  have h : hash + UInt32.ofNat (j + 1) * delta = hash + delta + UInt32.ofNat j * delta := by
    rw [UInt32.ofNat_add, UInt32.ofNat_one, UInt32.add_mul, UInt32.one_mul, UInt32.add_assoc,
      UInt32.add_comm delta]
  rw [probeBit, probeBit, h]

private theorem toNat_one_shl {k : ℕ} (h : k < 8) :
    ((1 : UInt8) <<< UInt8.ofNat k).toNat = 2 ^ k := by
  rw [UInt8.toNat_shiftLeft, UInt8.toNat_ofNat', Nat.mod_eq_of_lt (by omega : k < 2 ^ 8),
    Nat.mod_eq_of_lt h, UInt8.toNat_one, Nat.one_shiftLeft,
    Nat.mod_eq_of_lt (Nat.pow_lt_pow_right (by norm_num) h)]

/-- The reader's test of one bit. -/
theorem and_one_shl_eq_zero {b : UInt8} {k : ℕ} (h : k < 8) :
    b &&& ((1 : UInt8) <<< UInt8.ofNat k) = 0 ↔ b.toNat.testBit k = false := by
  rw [← UInt8.toNat_inj, UInt8.toNat_and, toNat_one_shl h, UInt8.toNat_zero, Nat.and_two_pow]
  cases b.toNat.testBit k <;> simp

/-- The writer's setting of one bit. -/
theorem testBit_or_one_shl (b : UInt8) {k : ℕ} (h : k < 8) (i : ℕ) :
    (b ||| ((1 : UInt8) <<< UInt8.ofNat k)).toNat.testBit i = (b.toNat.testBit i || decide (k = i))
    := by
  rw [UInt8.toNat_or, toNat_one_shl h, Nat.testBit_or, Nat.testBit_two_pow]

/-- Byte strings of one length with the same bits are equal. -/
theorem bytes_ext {x y : Bytes} (hlen : x.length = y.length) (h : ∀ i, bitAt x i = bitAt y i) :
    x = y := by
  refine List.ext_getElem hlen fun i hx hy => ?_
  rw [← UInt8.toNat_inj]
  refine Nat.eq_of_testBit_eq fun j => ?_
  by_cases hj : j < 8
  · have hbit := h (8 * i + j)
    rw [bitAt, bitAt, show (8 * i + j) / 8 = i by omega, show (8 * i + j) % 8 = j by omega,
      List.getD_eq_getElem?_getD, List.getD_eq_getElem?_getD, List.getElem?_eq_getElem hx,
      List.getElem?_eq_getElem hy] at hbit
    exact hbit
  · have hsmall (b : UInt8) : b.toNat.testBit j = false :=
      Nat.testBit_lt_two_pow (b.toNat_lt.trans_le (Nat.pow_le_pow_right (by norm_num) (by omega)))
    rw [hsmall, hsmall]

/-- Setting one bit sets that bit. -/
theorem orBit_ok (array : Bytes) (index bit : ℕ) (hi : index < array.length) (hb : bit < 8) :
    ∃ out, orBit array index bit = .ok out ∧ out.length = array.length ∧
      ∀ i, bitAt out i = true ↔ bitAt array i = true ∨ i = 8 * index + bit := by
  refine ⟨array.set index (array[index] ||| (1 <<< UInt8.ofNat bit)), ?_, List.length_set .., ?_⟩
  · rw [orBit, List.getElem?_eq_getElem hi]
  · intro i
    rw [bitAt, bitAt, getD_set]
    by_cases hidx : index = i / 8
    · have hget : array.getD (i / 8) 0 = array[index] := by
        rw [List.getD_eq_getElem?_getD, ← hidx, List.getElem?_eq_getElem hi]
        rfl
      rw [if_pos ⟨hidx, hidx ▸ hi⟩, testBit_or_one_shl _ hb, hget, Bool.or_eq_true,
        decide_eq_true_eq]
      exact or_congr_right (by omega)
    · rw [if_neg fun h => hidx h.1]
      exact ⟨Or.inl, fun h => h.resolve_right (by omega)⟩

/-! ## The writer -/

/-- The writer's probe loop stays inside the array and sets the probed bits. -/
theorem setProbes_ok {offset bitCount : ℕ} (hpos : 0 < bitCount) :
    ∀ (probes : ℕ) (hash delta : UInt32) (array : Bytes),
      8 * offset + bitCount ≤ 8 * array.length →
      ∃ out, setProbes offset bitCount probes hash delta array = .ok out ∧
        out.length = array.length ∧ ∀ i, bitAt out i = true ↔ bitAt array i = true ∨
          ∃ j < probes, i = 8 * offset + probeBit bitCount hash delta j := by
  intro probes
  induction probes with
  | zero => exact fun hash delta array _ => ⟨array, rfl, rfl, by simp⟩
  | succ probes ih =>
    intro hash delta array hlen
    have hbit : hash.toNat % bitCount < bitCount := Nat.mod_lt _ hpos
    obtain ⟨next, hnext, hnlen, hnbit⟩ := orBit_ok array
      (offset + hash.toNat % bitCount / 8) (hash.toNat % bitCount % 8)
      (by omega) (by omega)
    obtain ⟨out, hout, holen, hobit⟩ := ih (hash + delta) delta next (by omega)
    refine ⟨out, ?_, by omega, fun i => ?_⟩
    · rw [setProbes, if_neg hpos.ne']
      simp only [hnext, ok_bind, hout]
    · rw [hobit, hnbit, or_assoc]
      refine or_congr_right ⟨?_, ?_⟩
      · rintro (h | ⟨j, hj, h⟩)
        · exact ⟨0, by omega, by rw [probeBit_zero]; omega⟩
        · exact ⟨j + 1, by omega, by rw [probeBit_succ]; exact h⟩
      · rintro ⟨j, hj, h⟩
        cases j with
        | zero => exact Or.inl (by rw [probeBit_zero] at h; omega)
        | succ j => exact Or.inr ⟨j, by omega, by rw [probeBit_succ] at h; exact h⟩

/-- The whole writer: the bits of all the hashes' probes, and no others. -/
theorem addBloomHashes_ok (offset : ℕ) {bitCount : ℕ} (hpos : 0 < bitCount) (probes : ℕ)
    (hashes : List UInt32) : ∀ array : Bytes, 8 * offset + bitCount ≤ 8 * array.length →
      ∃ out, addBloomHashes offset bitCount probes hashes array = .ok out ∧
        out.length = array.length ∧ ∀ i, bitAt out i = true ↔ bitAt array i = true ∨
          ∃ h ∈ hashes, ∃ j < probes, i = 8 * offset + probeBit bitCount h (bloomDelta h) j := by
  induction hashes with
  | nil => exact fun array _ => ⟨array, rfl, rfl, by simp⟩
  | cons h hashes ih =>
    intro array hlen
    obtain ⟨next, hnext, hnlen, hnbit⟩ := setProbes_ok hpos probes h (bloomDelta h) array hlen
    obtain ⟨out, hout, holen, hobit⟩ := ih next (by omega)
    refine ⟨out, ?_, by omega, fun i => ?_⟩
    · rw [addBloomHashes, List.foldlM_cons, hnext, ok_bind]
      exact hout
    · rw [hobit, hnbit, or_assoc]
      simp only [List.mem_cons, exists_eq_or_imp]

/-- The array does not depend on the order of the hashes. -/
theorem addBloomHashes_perm (offset : ℕ) {bitCount : ℕ} (hpos : 0 < bitCount) (probes : ℕ)
    {hashes hashes' : List UInt32} (hperm : hashes.Perm hashes') (array : Bytes)
    (hlen : 8 * offset + bitCount ≤ 8 * array.length) :
    addBloomHashes offset bitCount probes hashes array
      = addBloomHashes offset bitCount probes hashes' array := by
  obtain ⟨x, hx, hxlen, hxbit⟩ := addBloomHashes_ok offset hpos probes hashes array hlen
  obtain ⟨y, hy, hylen, hybit⟩ := addBloomHashes_ok offset hpos probes hashes' array hlen
  rw [hx, hy]
  congr 1
  refine bytes_ext (hxlen.trans hylen.symm) fun i => Bool.eq_iff_iff.2 ?_
  rw [hxbit, hybit]
  simp only [hperm.mem_iff]

/-! ## The reader -/

variable {array : Bytes} {bitCount : ℕ}

/-- The probe lands inside the array, on a set bit. -/
def ProbeSet (array : Bytes) (bitCount : ℕ) (hash delta : UInt32) (j : ℕ) : Prop :=
  probeBit bitCount hash delta j / 8 < array.length ∧
    bitAt array (probeBit bitCount hash delta j) = true

/-- The probe lands inside the array, on a clear bit. -/
def ProbeClear (array : Bytes) (bitCount : ℕ) (hash delta : UInt32) (j : ℕ) : Prop :=
  probeBit bitCount hash delta j / 8 < array.length ∧
    bitAt array (probeBit bitCount hash delta j) = false

instance (hash delta : UInt32) (j : ℕ) : Decidable (ProbeSet array bitCount hash delta j) :=
  inferInstanceAs (Decidable (_ ∧ _))

instance (hash delta : UInt32) (j : ℕ) : Decidable (ProbeClear array bitCount hash delta j) :=
  inferInstanceAs (Decidable (_ ∧ _))

theorem probeSet_succ {hash delta : UInt32} {j : ℕ} :
    ProbeSet array bitCount hash delta (j + 1) ↔ ProbeSet array bitCount (hash + delta) delta j := by
  rw [ProbeSet, ProbeSet, probeBit_succ]

theorem probeClear_succ {hash delta : UInt32} {j : ℕ} :
    ProbeClear array bitCount hash delta (j + 1)
      ↔ ProbeClear array bitCount (hash + delta) delta j := by
  rw [ProbeClear, ProbeClear, probeBit_succ]

/-- One round of the reader's loop, by where its probe lands. -/
theorem testProbes_succ (hpos : 0 < bitCount) (probes : ℕ) (hash delta : UInt32) :
    (ProbeSet array bitCount hash delta 0 ∧ testProbes array bitCount (probes + 1) hash delta
        = testProbes array bitCount probes (hash + delta) delta) ∨
    (ProbeClear array bitCount hash delta 0 ∧
      testProbes array bitCount (probes + 1) hash delta = .ok false) ∨
    (array.length ≤ probeBit bitCount hash delta 0 / 8 ∧
      testProbes array bitCount (probes + 1) hash delta
        = .error (.readOutside (probeBit bitCount hash delta 0 / 8))) := by
  rw [testProbes, if_neg hpos.ne', ProbeSet, ProbeClear, bitAt, probeBit_zero]
  simp only
  by_cases hin : hash.toNat % bitCount / 8 < array.length
  · rw [readByte_of_lt hin, ok_bind]
    by_cases hbit : (array.getD (hash.toNat % bitCount / 8) 0).toNat.testBit
        (hash.toNat % bitCount % 8) = false
    · exact Or.inr (Or.inl ⟨⟨hin, hbit⟩, if_pos ((and_one_shl_eq_zero (by omega)).2 hbit)⟩)
    · exact Or.inl ⟨⟨hin, by simpa using hbit⟩,
        if_neg fun h => hbit ((and_one_shl_eq_zero (by omega)).1 h)⟩
  · exact Or.inr (Or.inr ⟨not_lt.1 hin, by rw [readByte_of_le (not_lt.1 hin), error_bind]⟩)

/-- The reader answers "may match" when every probe lands on a set bit. -/
theorem testProbes_eq_true_iff (hpos : 0 < bitCount) : ∀ (probes : ℕ) (hash delta : UInt32),
    testProbes array bitCount probes hash delta = .ok true ↔
      ∀ j < probes, ProbeSet array bitCount hash delta j := by
  intro probes
  induction probes with
  | zero => simp [testProbes]
  | succ probes ih =>
    intro hash delta
    rw [Nat.forall_lt_succ_left]
    simp only [probeSet_succ, ← ih]
    rcases testProbes_succ hpos probes hash delta with ⟨h, he⟩ | ⟨h, he⟩ | ⟨h, he⟩
    · rw [he, and_iff_right h]
    · rw [he]
      exact iff_of_false (by simp) fun hc => absurd (hc.1.2.symm.trans h.2) (by simp)
    · rw [he]
      exact iff_of_false (by simp) fun hc => absurd hc.1.1 (not_lt.2 h)

/-- It answers "no" when a probe lands on a clear bit and the probes before it on
set bits. -/
theorem testProbes_eq_false_iff (hpos : 0 < bitCount) : ∀ (probes : ℕ) (hash delta : UInt32),
    testProbes array bitCount probes hash delta = .ok false ↔
      ∃ j < probes, ProbeClear array bitCount hash delta j ∧
        ∀ i < j, ProbeSet array bitCount hash delta i := by
  intro probes
  induction probes with
  | zero => simp [testProbes]
  | succ probes ih =>
    intro hash delta
    rw [Nat.exists_lt_succ_left]
    simp only [Nat.forall_lt_succ_left, probeSet_succ, probeClear_succ]
    rcases testProbes_succ hpos probes hash delta with ⟨h, he⟩ | ⟨h, he⟩ | ⟨h, he⟩
    · rw [he, ih]
      constructor
      · rintro ⟨j, hj, hc, hs⟩
        exact Or.inr ⟨j, hj, hc, h, hs⟩
      · rintro (⟨hc, -⟩ | ⟨j, hj, hc, -, hs⟩)
        · exact absurd (h.2.symm.trans hc.2) (by simp)
        · exact ⟨j, hj, hc, hs⟩
    · rw [he]
      exact iff_of_true rfl (Or.inl ⟨h, by simp⟩)
    · rw [he]
      refine iff_of_false (by simp) ?_
      rintro (⟨hc, -⟩ | ⟨j, -, -, hs, -⟩)
      · exact absurd hc.1 (not_lt.2 h)
      · exact absurd hs.1 (not_lt.2 h)

/-- When every bit of the array's size is in memory the reader always answers. -/
theorem testProbes_isOk (hpos : 0 < bitCount) (hlen : bitCount ≤ 8 * array.length) :
    ∀ (probes : ℕ) (hash delta : UInt32),
      ∃ r, testProbes array bitCount probes hash delta = .ok r := by
  intro probes
  induction probes with
  | zero => exact fun _ _ => ⟨true, rfl⟩
  | succ probes ih =>
    intro hash delta
    rcases testProbes_succ hpos probes hash delta with ⟨-, he⟩ | ⟨-, he⟩ | ⟨h, -⟩
    · rw [he]
      exact ih _ _
    · exact ⟨false, he⟩
    · have := probeBit_lt hpos hash delta 0
      omega

/-! ## Writer and reader -/

theorem bitAt_append {x : Bytes} (rest : Bytes) {i : ℕ} (h : i / 8 < x.length) :
    bitAt (x ++ rest) i = bitAt x i := by
  rw [bitAt, bitAt, List.getD_append _ _ _ _ h]

/-- **No false negatives.**  From an empty array the writer's loop succeeds, and the
reader finds every hash in the array, whatever is stored behind it. -/
theorem addBloomHashes_replicate {bitCount : ℕ} (hpos : 0 < bitCount) (h8 : 8 ∣ bitCount)
    (probes : ℕ) (hashes : List UInt32) :
    ∃ out, addBloomHashes 0 bitCount probes hashes (List.replicate (bitCount / 8) 0) = .ok out ∧
      out.length = bitCount / 8 ∧
      (∀ i, bitAt out i = true ↔
        ∃ h ∈ hashes, ∃ j < probes, i = probeBit bitCount h (bloomDelta h) j) ∧
      ∀ rest, ∀ h ∈ hashes,
        testProbes (out ++ rest) bitCount probes h (bloomDelta h) = .ok true := by
  obtain ⟨out, hout, hlen, hbit⟩ := addBloomHashes_ok 0 hpos probes hashes
    (List.replicate (bitCount / 8) 0) (by rw [List.length_replicate]; omega)
  rw [List.length_replicate] at hlen
  have hempty (i : ℕ) : bitAt (List.replicate (bitCount / 8) 0) i = false := by
    rw [bitAt, getD_replicate]
    exact Nat.zero_testBit _
  simp only [hempty, Bool.false_eq_true, false_or, Nat.mul_zero, Nat.zero_add] at hbit
  refine ⟨out, hout, hlen, hbit, fun rest h hh => ?_⟩
  rw [testProbes_eq_true_iff hpos]
  intro j hj
  have hlt : probeBit bitCount h (bloomDelta h) j / 8 < out.length := by
    have := probeBit_lt hpos h (bloomDelta h) j
    omega
  refine ⟨by rw [List.length_append]; omega, ?_⟩
  rw [bitAt_append rest hlt, hbit]
  exact ⟨h, hh, j, hj, rfl⟩

/-! ## The fallback of the LevelDB filters -/

/-- `EstimatedBloomSerializedSize`: the bytes of the fallback with its trailer, or the largest
number where no bit count fits in 32 bits. -/
def estimatedBloomSerializedSize (keyCount bitsPerKey : ℕ) : ℕ :=
  let bitCount := bloomBitCount keyCount bitsPerKey
  if bitCount = 0 then 18446744073709551615 else bitCount / 8 + kTrailerSize

/-- `BuildBloomEncoding`, from the hashes the probes start at. -/
def buildBloomEncoding (magic : UInt8) (hashes : List UInt32) (bitsPerKey : ℕ) (seed : UInt32)
    (encoded : Bytes) : Checked Bytes :=
  let bitCount := bloomBitCount hashes.length bitsPerKey
  if bitCount = 0 then .ok (appendTrailer magic encoded seed 0 0 kEncodingAlwaysMatch)
  else do
    let probes := bloomProbeCount bitsPerKey
    let byteCount := bitCount / 8
    let payloadOffset := encoded.length
    let encoded ← addBloomHashes payloadOffset bitCount probes hashes
      (encoded ++ List.replicate byteCount 0)
    .ok (appendTrailer magic encoded seed (UInt32.ofNat bitCount) (UInt8.ofNat probes)
      kEncodingBloom)

/-- `BloomMayMatch`, from the hash the probes start at. -/
def bloomMayMatch (hash : UInt32) (payload : Bytes) (payloadSize bitCount probes : ℕ) :
    Checked Bool :=
  if bitCount < 64 ∨ probes < 1 ∨ 30 < probes ∨ payloadSize ≠ u32 (bitCount + 7) / 8 then .ok true
  else testProbes payload bitCount probes hash (bloomDelta hash)

/-- The bytes of a fallback encoding, by the way `BuildBloomEncoding` ends: the Bloom array
of the hashes and its trailer, or, where no bit count fits in 32 bits, the always-match
marker, which is a trailer alone.  The array has the length and the bits its builder
promises: those of the hashes' probes and no others. -/
inductive FallbackFormat (magic : UInt8) (hashes : List UInt32) (bitsPerKey : ℕ) (seed : UInt32) :
    Bytes → Prop
  | bloom (payload : Bytes) :
      bloomBitCount hashes.length bitsPerKey ≠ 0 →
      payload.length = bloomBitCount hashes.length bitsPerKey / 8 →
      (∀ i, bitAt payload i = true ↔ ∃ h ∈ hashes, ∃ j < bloomProbeCount bitsPerKey,
        i = probeBit (bloomBitCount hashes.length bitsPerKey) h (bloomDelta h) j) →
      FallbackFormat magic hashes bitsPerKey seed (payload ++ Trailer.bytes
        ⟨seed, UInt32.ofNat (bloomBitCount hashes.length bitsPerKey),
          UInt8.ofNat (bloomProbeCount bitsPerKey), kEncodingBloom, kFormatVersion, magic⟩)
  | alwaysMatch :
      bloomBitCount hashes.length bitsPerKey = 0 →
      FallbackFormat magic hashes bitsPerKey seed
        (Trailer.bytes ⟨seed, 0, 0, kEncodingAlwaysMatch, kFormatVersion, magic⟩)

/-- `BuildBloomEncoding` always writes a fallback encoding of its hashes. -/
theorem buildBloomEncoding_format (magic : UInt8) (hashes : List UInt32) (bitsPerKey : ℕ)
    (seed : UInt32) :
    ∃ E, buildBloomEncoding magic hashes bitsPerKey seed [] = .ok E ∧
      FallbackFormat magic hashes bitsPerKey seed E := by
  rw [buildBloomEncoding]
  rcases bloomBitCount_range hashes.length bitsPerKey with hzero | ⟨h64, -, h8⟩
  · rw [if_pos hzero, appendTrailer_eq, List.nil_append]
    exact ⟨_, rfl, .alwaysMatch hzero⟩
  · have hne : bloomBitCount hashes.length bitsPerKey ≠ 0 := by omega
    obtain ⟨payload, hpayload, hlen, hbits, -⟩ := addBloomHashes_replicate
      (Nat.pos_of_ne_zero hne) h8 (bloomProbeCount bitsPerKey) hashes
    simp only [if_neg hne, List.length_nil, List.nil_append, hpayload, ok_bind, appendTrailer_eq]
    exact ⟨_, rfl, .bloom payload hne hlen hbits⟩

theorem FallbackFormat.of_build {magic : UInt8} {hashes : List UInt32} {bitsPerKey : ℕ}
    {seed : UInt32} {E : Bytes}
    (h : buildBloomEncoding magic hashes bitsPerKey seed [] = .ok E) :
    FallbackFormat magic hashes bitsPerKey seed E := by
  obtain ⟨E', hE', hformat⟩ := buildBloomEncoding_format magic hashes bitsPerKey seed
  obtain rfl : E' = E := Except.ok.inj (hE'.symm.trans h)
  exact hformat

/-- What `BuildBloomEncoding` produced: an always-match marker, or a Bloom filter that
its reader finds every hash in. -/
structure BloomEncoding (magic : UInt8) (hashes : List UInt32) (seed : UInt32) (payload : Bytes)
    (t : Trailer) : Prop where
  magic_eq : t.magic = magic
  version_eq : t.version = kFormatVersion
  seed_eq : t.seed = seed
  type_eq : t.type = kEncodingAlwaysMatch ∨ t.type = kEncodingBloom
  mayMatch : t.type = kEncodingBloom → ∀ h ∈ hashes,
    bloomMayMatch h (payload ++ t.bytes) payload.length t.lengthOrBits.toNat t.aux.toNat = .ok true

theorem buildBloomEncoding_spec (magic : UInt8) (hashes : List UInt32) (bitsPerKey : ℕ)
    (seed : UInt32) :
    ∃ payload t, buildBloomEncoding magic hashes bitsPerKey seed [] = .ok (payload ++ t.bytes) ∧
      BloomEncoding magic hashes seed payload t := by
  rw [buildBloomEncoding]
  rcases bloomBitCount_range hashes.length bitsPerKey with hzero | ⟨h64, hmax, h8⟩
  · simp only [hzero, if_true, appendTrailer_eq]
    have hother : kEncodingAlwaysMatch ≠ kEncodingBloom := by decide
    exact ⟨[], _, rfl, rfl, rfl, rfl, Or.inl rfl, fun h => absurd h hother⟩
  · set bitCount := bloomBitCount hashes.length bitsPerKey
    obtain ⟨payload, hpayload, hlen, -, haccept⟩ := addBloomHashes_replicate (by omega) h8
      (bloomProbeCount bitsPerKey) hashes
    simp only [if_neg (by omega : bitCount ≠ 0), List.length_nil, List.nil_append, hpayload,
      ok_bind, appendTrailer_eq]
    refine ⟨payload, _, rfl, rfl, rfl, rfl, Or.inr rfl, fun _ h hh => ?_⟩
    have hprobes := bloomProbeCount_pos bitsPerKey
    have hprobes' := bloomProbeCount_le bitsPerKey
    have hcount : (UInt32.ofNat bitCount).toNat = bitCount := toNat_ofNat32 (by omega)
    have hsize : u32 (bitCount + 7) / 8 = bitCount / 8 := by
      rw [u32_of_lt (by omega)]
      omega
    rw [bloomMayMatch, hcount, toNat_bloomProbeCount, hsize, if_neg (by omega)]
    exact haccept _ h hh

/-- The encoding does not depend on the order of the hashes. -/
theorem buildBloomEncoding_perm (magic : UInt8) {hashes hashes' : List UInt32}
    (hperm : hashes.Perm hashes') (bitsPerKey : ℕ) (seed : UInt32) :
    buildBloomEncoding magic hashes bitsPerKey seed []
      = buildBloomEncoding magic hashes' bitsPerKey seed [] := by
  rw [buildBloomEncoding, buildBloomEncoding, ← hperm.length_eq]
  rcases bloomBitCount_range hashes.length bitsPerKey with hzero | ⟨h64, -, h8⟩
  · simp only [hzero, if_true]
  · have hbloom := addBloomHashes_perm 0 (by omega : 0 < bloomBitCount hashes.length bitsPerKey)
      (bloomProbeCount bitsPerKey) hperm
      (List.replicate (bloomBitCount hashes.length bitsPerKey / 8) 0)
      (by rw [List.length_replicate]; omega)
    simp only [List.length_nil, List.nil_append, hbloom]

/-- With a single probe, copies of one hash set one bit, and the encoding shows which. -/
theorem buildBloomEncoding_copies {magic : UInt8} {copies bitsPerKey : ℕ} {seed h h' : UInt32}
    (hcopies : copies ≠ 0) (hprobe : bloomProbeCount bitsPerKey = 1)
    (hbits : bloomBitCount copies bitsPerKey ≠ 0)
    (heq : buildBloomEncoding magic (List.replicate copies h) bitsPerKey seed []
      = buildBloomEncoding magic (List.replicate copies h') bitsPerKey seed []) :
    h.toNat % bloomBitCount copies bitsPerKey = h'.toNat % bloomBitCount copies bitsPerKey := by
  have h8 := ((bloomBitCount_range copies bitsPerKey).resolve_left hbits).2.2
  have hpos := Nat.pos_of_ne_zero hbits
  rw [buildBloomEncoding, buildBloomEncoding, List.length_replicate, List.length_replicate] at heq
  set bitCount := bloomBitCount copies bitsPerKey
  have hlen : 8 * 0 + bitCount ≤ 8 * (List.replicate (bitCount / 8) (0 : UInt8)).length := by
    rw [List.length_replicate]
    omega
  obtain ⟨x, hx, -, hxbit⟩ := addBloomHashes_ok 0 hpos 1 (List.replicate copies h) _ hlen
  obtain ⟨y, hy, -, hybit⟩ := addBloomHashes_ok 0 hpos 1 (List.replicate copies h') _ hlen
  simp only [if_neg hbits, hprobe, List.length_nil, List.nil_append, hx, hy, ok_bind,
    appendTrailer_eq, Except.ok.injEq, List.append_cancel_right_eq] at heq
  have hset : bitAt x (h.toNat % bitCount) = true := (hxbit _).2
    (Or.inr ⟨h, List.mem_replicate.2 ⟨hcopies, rfl⟩, 0, Nat.one_pos, by rw [probeBit_zero]; omega⟩)
  rw [heq, hybit] at hset
  rcases hset with hzero | ⟨g, hg, j, hj, hbit⟩
  · rw [bitAt, getD_replicate] at hzero
    exact absurd hzero (by simp)
  · obtain rfl : g = h' := (List.mem_replicate.1 hg).2
    obtain rfl : j = 0 := by omega
    rw [probeBit_zero] at hbit
    omega

/-! ## What stands around an array -/

section Frame

variable (pre rest : Bytes)

theorem orBit_frame {array out : Bytes} {index bit : ℕ} (h : orBit array index bit = .ok out) :
    orBit (pre ++ (array ++ rest)) (pre.length + index) bit = .ok (pre ++ (out ++ rest)) := by
  rw [orBit] at h ⊢
  rw [List.getElem?_append_right (Nat.le_add_right ..), Nat.add_sub_cancel_left]
  cases hget : array[index]? with
  | none =>
    rw [hget] at h
    cases h
  | some b =>
    rw [hget] at h
    obtain ⟨hlt, -⟩ := List.getElem?_eq_some_iff.1 hget
    rw [List.getElem?_append_left hlt, hget]
    simp only [Except.ok.injEq] at h ⊢
    rw [List.set_append_right _ _ (Nat.le_add_right ..), Nat.add_sub_cancel_left,
      List.set_append_left _ _ hlt, h]

theorem setProbes_frame {bitCount : ℕ} : ∀ (probes : ℕ) (hash delta : UInt32) (array out : Bytes),
    setProbes 0 bitCount probes hash delta array = .ok out →
    setProbes pre.length bitCount probes hash delta (pre ++ (array ++ rest))
      = .ok (pre ++ (out ++ rest)) := by
  intro probes
  induction probes with
  | zero =>
    intro hash delta array out h
    cases h
    rfl
  | succ probes ih =>
    intro hash delta array out h
    rw [setProbes] at h ⊢
    split at h
    · cases h
    · rename_i hpos
      rw [if_neg hpos]
      simp only [Nat.zero_add] at h ⊢
      cases hbit : orBit array (hash.toNat % bitCount / 8) (hash.toNat % bitCount % 8) with
      | error e =>
        rw [hbit] at h
        cases h
      | ok next =>
        rw [hbit, ok_bind] at h
        rw [orBit_frame pre rest hbit, ok_bind]
        exact ih _ _ _ _ h

/-- The writer leaves alone what stands before and behind its array. -/
theorem addBloomHashes_frame {bitCount probes : ℕ} (hashes : List UInt32) :
    ∀ array out : Bytes, addBloomHashes 0 bitCount probes hashes array = .ok out →
      addBloomHashes pre.length bitCount probes hashes (pre ++ (array ++ rest))
        = .ok (pre ++ (out ++ rest)) := by
  induction hashes with
  | nil =>
    intro array out h
    cases h
    rfl
  | cons hash hashes ih =>
    intro array out h
    rw [addBloomHashes, List.foldlM_cons] at h ⊢
    cases hnext : setProbes 0 bitCount probes hash (bloomDelta hash) array with
    | error e =>
      rw [hnext] at h
      cases h
    | ok next =>
      rw [hnext, ok_bind] at h
      rw [setProbes_frame pre rest _ _ _ _ _ hnext, ok_bind]
      exact ih _ _ h

end Frame

/-- An encoding of no more than a trailer is not a Bloom filter. -/
theorem buildBloomEncoding_type {magic : UInt8} {hashes : List UInt32} {bitsPerKey : ℕ}
    {seed : UInt32} {E : Bytes}
    (h : buildBloomEncoding magic hashes bitsPerKey seed [] = .ok E)
    (hlen : E.length = kTrailerSize) :
    ∃ t, HasTrailer E t ∧ t.type = kEncodingAlwaysMatch := by
  cases FallbackFormat.of_build h with
  | bloom payload hne hplen =>
    have hrange := (bloomBitCount_range hashes.length bitsPerKey).resolve_left hne
    rw [List.length_append, Trailer.length_bytes] at hlen
    omega
  | alwaysMatch => exact ⟨_, hasTrailer_append [] _, rfl⟩

end PackedFilters
