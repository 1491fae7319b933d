import PackedFilters.RocksDb.Policy

/-!
# The RocksDB reader on arbitrary bytes

What `XorFilterBitsReader` does on a byte string that no builder wrote.  The trailer carries
two formats, and `block_length` says which; the reader believes its fields.

In the Xor branch the three values are read through `ReadPackedValue`, which compares the
place of a value with the payload before it reads, so no byte outside is touched; but the
width is a byte of the trailer, and one outside `1..16` gets as far as the `assert` of
`BitMask`.  In the Bloom branch the probes index the string directly.  A probe behind the
payload reads the trailer, or memory behind the string, unless an earlier one was decided by
a clear bit.

* `NeedsOutside` — a byte that decides the answer lies behind the payload;
* `ProbeLeaves`, `ProbeRejects` — a probe that has to be looked at, and where it looks;
* `testProbes_payload_iff` — the Bloom branch: what the probes may be for it to stay inside
  the string and to answer "may match" when it leaves the payload;
* `safe_bloom_iff`, `safe_xor_iff` — the two branches of a reader whose contents have a
  payload;
* `hashMayMatch_safe_iff` — every byte string and every hash.
-/

namespace PackedFilters.RocksDb

open PackedFilters.Xor

/-! ## Probes in a prefix -/

section Prefix

variable {array : Bytes} {size bitCount : ℕ} (hsize : size ≤ array.length) (hash delta : UInt32)
  (j : ℕ)

include hsize

theorem bitAt_take {i : ℕ} (h : i / 8 < size) : bitAt (array.take size) i = bitAt array i := by
  have happend := bitAt_append (x := array.take size) (array.drop size)
    (by rw [List.length_take, min_eq_left hsize]; exact h)
  rwa [List.take_append_drop, eq_comm] at happend

theorem probeSet_take_iff : ProbeSet (array.take size) bitCount hash delta j ↔
    probeBit bitCount hash delta j / 8 < size ∧ ProbeSet array bitCount hash delta j := by
  rw [ProbeSet, ProbeSet, List.length_take, min_eq_left hsize]
  constructor
  · rintro ⟨hlt, hbit⟩
    exact ⟨hlt, hlt.trans_le hsize, by rwa [bitAt_take hsize hlt] at hbit⟩
  · rintro ⟨hlt, -, hbit⟩
    exact ⟨hlt, by rwa [bitAt_take hsize hlt]⟩

theorem probeClear_take_iff : ProbeClear (array.take size) bitCount hash delta j ↔
    probeBit bitCount hash delta j / 8 < size ∧ ProbeClear array bitCount hash delta j := by
  rw [ProbeClear, ProbeClear, List.length_take, min_eq_left hsize]
  constructor
  · rintro ⟨hlt, hbit⟩
    exact ⟨hlt, hlt.trans_le hsize, by rwa [bitAt_take hsize hlt] at hbit⟩
  · rintro ⟨hlt, -, hbit⟩
    exact ⟨hlt, by rwa [bitAt_take hsize hlt]⟩

end Prefix

/-! ## The Bloom branch -/

/-- Probe `j` has to be looked at, since the probes before it find set bits of the payload,
and it looks behind the payload. -/
def ProbeLeaves (payload : Bytes) (bitCount : ℕ) (hash delta : UInt32) (j : ℕ) : Prop :=
  payload.length ≤ probeBit bitCount hash delta j / 8 ∧
    ∀ i < j, ProbeSet payload bitCount hash delta i

/-- Probe `j` has to be looked at, and finds a clear bit of the payload. -/
def ProbeRejects (payload : Bytes) (bitCount : ℕ) (hash delta : UInt32) (j : ℕ) : Prop :=
  ProbeClear payload bitCount hash delta j ∧ ∀ i < j, ProbeSet payload bitCount hash delta i

/-- A probe that rejects is met before any that leaves. -/
theorem ProbeRejects.not_leaves {payload : Bytes} {bitCount : ℕ} {hash delta : UInt32} {i j : ℕ}
    (hr : ProbeRejects payload bitCount hash delta i)
    (hl : ProbeLeaves payload bitCount hash delta j) : False := by
  obtain ⟨hclear, hbefore⟩ := hr
  obtain ⟨hout, hbefore'⟩ := hl
  rcases lt_trichotomy i j with hij | rfl | hij
  · exact absurd ((hbefore' i hij).2.symm.trans hclear.2) (by simp)
  · exact absurd hclear.1 (not_lt.2 hout)
  · exact absurd (hbefore j hij).1 (not_lt.2 hout)

/-- When no probe leaves the payload, the probes that find set bits are inside it. -/
theorem probeSet_of_not_leaves {array : Bytes} {size bitCount probes : ℕ} {hash delta : UInt32}
    (hsize : size ≤ array.length)
    (hno : ∀ j < probes, ¬ ProbeLeaves (array.take size) bitCount hash delta j) :
    ∀ k < probes, (∀ i < k, ProbeSet array bitCount hash delta i) →
      probeBit bitCount hash delta k / 8 < size ∧
        ∀ i < k, ProbeSet (array.take size) bitCount hash delta i := by
  intro k
  induction k using Nat.strong_induction_on with
  | _ k ih =>
    intro hk hset
    have hinside : ∀ i < k, ProbeSet (array.take size) bitCount hash delta i := fun i hi =>
      (probeSet_take_iff hsize hash delta i).2
        ⟨(ih i hi (hi.trans hk) fun i' hi' => hset i' (hi'.trans hi)).1, hset i hi⟩
    refine ⟨?_, hinside⟩
    by_contra hout
    refine hno k hk ⟨?_, hinside⟩
    rw [List.length_take, min_eq_left hsize]
    exact not_lt.1 hout

/-- **The Bloom branch** reads inside the string and answers "may match" when it leaves
the payload, exactly when a probe rejects inside the payload or every probe finds a set
bit of the string. -/
theorem testProbes_payload_iff {array : Bytes} {size bitCount : ℕ} (hpos : 0 < bitCount)
    (hsize : size ≤ array.length) (probes : ℕ) (hash delta : UInt32) :
    (∃ b, testProbes array bitCount probes hash delta = .ok b ∧
        ((∃ j < probes, ProbeLeaves (array.take size) bitCount hash delta j) → b = true)) ↔
      (∃ j < probes, ProbeRejects (array.take size) bitCount hash delta j) ∨
        ∀ j < probes, ProbeSet array bitCount hash delta j := by
  constructor
  · rintro ⟨b, hb, hconservative⟩
    cases b with
    | true => exact Or.inr ((testProbes_eq_true_iff hpos probes hash delta).1 hb)
    | false =>
      obtain ⟨j, hj, hclear, hset⟩ := (testProbes_eq_false_iff hpos probes hash delta).1 hb
      have hno : ∀ k < probes, ¬ ProbeLeaves (array.take size) bitCount hash delta k :=
        fun k hk hl => absurd (hconservative ⟨k, hk, hl⟩) (by simp)
      obtain ⟨hin, hinside⟩ := probeSet_of_not_leaves hsize hno j hj hset
      exact Or.inl ⟨j, hj, (probeClear_take_iff hsize hash delta j).2 ⟨hin, hclear⟩, hinside⟩
  · rintro (⟨j, hj, hr⟩ | hset)
    · refine ⟨false, (testProbes_eq_false_iff hpos probes hash delta).2 ⟨j, hj, ?_, ?_⟩, ?_⟩
      · exact ((probeClear_take_iff hsize hash delta j).1 hr.1).2
      · exact fun i hi => ((probeSet_take_iff hsize hash delta i).1 (hr.2 i hi)).2
      · rintro ⟨k, -, hl⟩
        exact (hr.not_leaves hl).elim
    · exact ⟨true, (testProbes_eq_true_iff hpos probes hash delta).2 hset, fun _ => rfl⟩

/-! ## The reader -/

namespace XorFilterBitsReader

/-- The bytes before the trailer. -/
def payload (r : XorFilterBitsReader) : Bytes := r.filter.take r.payloadSize

/-- The string is all there is behind the payload, and the payload is a part of it. -/
theorem exists_new (contents : Bytes) : ∃ r, new contents = .ok r ∧ r.filter = contents ∧
    r.payloadSize = contents.length - kTrailerSize := by
  rw [new]
  by_cases hshort : contents.length < kTrailerSize
  · rw [if_pos hshort]
    exact ⟨_, rfl, rfl, (Nat.sub_eq_zero_of_le hshort.le).symm⟩
  · rw [kTrailerSize] at hshort
    obtain ⟨seed, hseed, -⟩ := decodeFixed32_ok contents (contents.length - 14) (by omega)
    obtain ⟨length, hlength, -⟩ := decodeFixed32_ok contents (contents.length - 14 + 4) (by omega)
    have hbits : readByte contents (contents.length - 14 + 8) = .ok _ :=
      readByte_of_lt (by omega)
    rw [kTrailerSize, if_neg hshort]
    simp only [hseed, hlength, hbits, ok_bind]
    exact ⟨_, rfl, rfl, rfl⟩

variable (r : XorFilterBitsReader) (h : UInt64)

/-- A byte that decides the answer lies behind the payload. -/
def NeedsOutside : Prop :=
  if r.blockLength = 0 then
    ∃ j < r.fingerprintBits.toNat,
      ProbeLeaves r.payload r.seed.toNat h.toUInt32 (bloomDelta h.toUInt32) j
  else
    ∃ p ∈ getPositions (mixHash h r.seed) r.blockLength.toNat, r.payload.length
      < p * r.fingerprintBits.toNat / 8 + bytesNeeded p r.fingerprintBits.toNat

/-- The reader neither reads outside the string nor uses a width or a shift it must not,
and answers "may match" when a byte it needs lies behind the payload. -/
def Safe : Prop := ∃ b, r.hashMayMatch h = .ok b ∧ (r.NeedsOutside h → b = true)

/-- The Bloom fields that do no harm to this hash. -/
def BloomHarmless : Prop :=
  r.seed.toNat = 0 ∨ r.fingerprintBits.toNat = 0 ∨
    (∃ j < r.fingerprintBits.toNat,
      ProbeRejects r.payload r.seed.toNat h.toUInt32 (bloomDelta h.toUInt32) j) ∨
    ∀ j < r.fingerprintBits.toNat,
      ProbeSet r.filter r.seed.toNat h.toUInt32 (bloomDelta h.toUInt32) j

/-- The Xor fields that do no harm to this hash: the width is one of those a builder
writes, or the first value already ends behind the payload. -/
def XorHarmless : Prop :=
  (1 ≤ r.fingerprintBits.toNat ∧ r.fingerprintBits.toNat ≤ 16) ∨
    r.payload.length < position0 (mixHash h r.seed) r.blockLength.toNat
        * r.fingerprintBits.toNat / 8
      + bytesNeeded (position0 (mixHash h r.seed) r.blockLength.toNat) r.fingerprintBits.toNat

variable {r h}

theorem safe_of_true (hr : r.hashMayMatch h = .ok true) : r.Safe h := ⟨true, hr, fun _ => rfl⟩

theorem not_safe_of_error {e : Fault} (hr : r.hashMayMatch h = .error e) : ¬ r.Safe h := by
  rintro ⟨b, hb, -⟩
  rw [hr] at hb
  cases hb

theorem safe_bloom_iff (hpayload : r.payloadSize ≠ 0) (hsize : r.payloadSize ≤ r.filter.length)
    (hlength : r.blockLength = 0) : r.Safe h ↔ r.BloomHarmless h := by
  have hresult := hashMayMatch_bloom h hpayload hlength
  rw [BloomHarmless, ← or_assoc]
  by_cases hfields : r.seed.toNat = 0 ∨ r.fingerprintBits.toNat = 0
  · rw [if_pos hfields] at hresult
    exact iff_of_true (safe_of_true hresult) (Or.inl hfields)
  · rw [if_neg hfields] at hresult
    rw [or_iff_right hfields, Safe, NeedsOutside, if_pos hlength, hresult, payload]
    exact testProbes_payload_iff (by omega) hsize _ _ _

theorem safe_xor_iff (hpayload : r.payloadSize ≠ 0) (hsize : r.payloadSize ≤ r.filter.length)
    (hlength : r.blockLength ≠ 0) : r.Safe h ↔ r.XorHarmless h := by
  have hresult := hashMayMatch_xor h hpayload hlength
  have hlen : r.payload.length = r.payloadSize := by
    rw [payload, List.length_take, min_eq_left hsize]
  rw [XorHarmless, hlen]
  by_cases hwidth : 1 ≤ r.fingerprintBits.toNat ∧ r.fingerprintBits.toNat ≤ 16
  · refine iff_of_true ?_ (Or.inl hwidth)
    rcases readFingerprint_cases hwidth.1 hwidth.2 hsize r.blockLength.toNat (mixHash h r.seed)
      with ⟨-, he⟩ | ⟨hfits, v, he⟩
    · exact safe_of_true (hresult.trans (by rw [he, ok_bind]))
    · rw [he, ok_bind] at hresult
      simp only [checkedBitMask, if_pos hwidth, ok_bind] at hresult
      refine ⟨_, hresult, fun hout => ?_⟩
      rw [NeedsOutside, if_neg hlength, hlen] at hout
      obtain ⟨p, hp, hlt⟩ := hout
      exact absurd (hfits p hp) (not_le.2 hlt)
  · rw [or_iff_right hwidth]
    by_cases hfirst : r.payloadSize < position0 (mixHash h r.seed) r.blockLength.toNat
        * r.fingerprintBits.toNat / 8
      + bytesNeeded (position0 (mixHash h r.seed) r.blockLength.toNat) r.fingerprintBits.toNat
    · refine iff_of_true (safe_of_true (hresult.trans ?_)) hfirst
      simp only [readFingerprint, readPackedValue_eq_none hfirst, ok_bind]
    · obtain ⟨e, he⟩ := readPackedValue_fault r.filter hwidth (not_lt.1 hfirst)
      refine iff_of_false (not_safe_of_error (e := e) (hresult.trans ?_)) hfirst
      simp only [readFingerprint, he, error_bind]

/-- **Exactly when the reader is safe**, on any byte string and for any hash: there is no
payload, or the fields of the format that `block_length` selects do no harm. -/
theorem hashMayMatch_safe_iff (contents : Bytes) (h : UInt64) :
    ∃ r, new contents = .ok r ∧ r.filter = contents ∧
      (r.Safe h ↔ contents.length ≤ kTrailerSize ∨
        if r.blockLength = 0 then r.BloomHarmless h else r.XorHarmless h) := by
  obtain ⟨r, hr, hfilter, hsize⟩ := exists_new contents
  refine ⟨r, hr, hfilter, ?_⟩
  by_cases hshort : contents.length ≤ kTrailerSize
  · refine iff_of_true (safe_of_true (hashMayMatch_empty h ?_)) (Or.inl hshort)
    rw [hsize, Nat.sub_eq_zero_of_le hshort]
  · have hpayload : r.payloadSize ≠ 0 := by omega
    have hle : r.payloadSize ≤ r.filter.length := by
      rw [hsize, hfilter]
      exact Nat.sub_le _ _
    rw [or_iff_right hshort]
    by_cases hlength : r.blockLength = 0
    · rw [if_pos hlength]
      exact safe_bloom_iff hpayload hle hlength
    · rw [if_neg hlength]
      exact safe_xor_iff hpayload hle hlength

/-- Two strings of one payload byte and the marker.  The first claims a Bloom filter of
2³² − 1 bits, and its probe reads byte 536870911; the second a table of width zero. -/
theorem hashMayMatch_not_safe :
    (getBuiltinFilterBitsReader
        [0xFF, 0xFF, 0xFF, 0xFF, 0xFF, 0, 0, 0, 0, 1, 0xFD, 0, 0, 0, 0] = .ok .xor ∧
      ∀ r, new [0xFF, 0xFF, 0xFF, 0xFF, 0xFF, 0, 0, 0, 0, 1, 0xFD, 0, 0, 0, 0] = .ok r →
        ¬ r.Safe 0xFFFFFFFE) ∧
    (getBuiltinFilterBitsReader [0, 0, 0, 0, 0, 1, 0, 0, 0, 0, 0xFD, 0, 0, 0, 0] = .ok .xor ∧
      ∀ r, new [0, 0, 0, 0, 0, 1, 0, 0, 0, 0, 0xFD, 0, 0, 0, 0] = .ok r → ¬ r.Safe 0) := by
  have hbloom : (new [0xFF, 0xFF, 0xFF, 0xFF, 0xFF, 0, 0, 0, 0, 1, 0xFD, 0, 0, 0, 0]
      >>= fun r => r.hashMayMatch 0xFFFFFFFE) = .error (.readOutside 536870911) := by decide
  have hxor : (new [0, 0, 0, 0, 0, 1, 0, 0, 0, 0, 0xFD, 0, 0, 0, 0]
      >>= fun r => r.hashMayMatch 0) = .error (.widthOutside 0) := by decide
  refine ⟨⟨by decide, fun r hr => ?_⟩, by decide, fun r hr => ?_⟩
  · rw [hr, ok_bind] at hbloom
    exact not_safe_of_error hbloom
  · rw [hr, ok_bind] at hxor
    exact not_safe_of_error hxor

end XorFilterBitsReader

end PackedFilters.RocksDb
