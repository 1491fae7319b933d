import PackedFilters.Codec.Hash
import PackedFilters.Ribbon.Elimination
import PackedFilters.Xor.Table

/-!
# The LevelDB readers on arbitrary bytes

What `KeyMayMatch` of the Ribbon and the Xor policy does on a byte string that no builder
wrote: one that was cut short, belongs to another version, or was damaged on the disk.  A
read outside the string is a fault of the model, so a result `.ok b` says that every read was
inside.

* `WellFormed` — the encodings the format describes, with mathematical sizes: the payload has
  as many bytes as the fields of the trailer ask for;
* `Conservative` — the reader stays inside the string, and answers "may match" for what is
  not well-formed;
* `matchEncoding_conservative_iff` — it does so except where the 32-bit sum `bit_count + 7u`
  wraps (`WrappedBloom`): there a filter without payload passes the size check, and the
  probes read the trailer and what lies behind it;
* `ribbonFormat`, `xorFormat` — what the two policies ask of their own encodings, and that
  their checks are exactly that, without a wrap;
* `keyMayMatch_conservative_iff` — the same for the two policies.

The condition is one on the bytes and the key: a wrapped filter does no harm to a key whose
probes all land on set bits of its twelve bytes.
-/

namespace PackedFilters

/-! ## The property -/

/-- The encodings of a format: `main` is what its own type asks of the trailer and the
payload's length. -/
def WellFormed (magic mainType : UInt8) (main : Trailer → ℕ → Prop) (filter : Bytes) : Prop :=
  ∃ t, HasTrailer filter t ∧ t.magic = magic ∧ t.version = kFormatVersion ∧
    ((t.type = kEncodingEmpty ∧ filter.length - kTrailerSize = 0) ∨
      (t.type = kEncodingBloom ∧ 64 ≤ t.lengthOrBits.toNat ∧ 1 ≤ t.aux.toNat ∧ t.aux.toNat ≤ 30 ∧
        filter.length - kTrailerSize = (t.lengthOrBits.toNat + 7) / 8) ∨
      (t.type = mainType ∧ main t (filter.length - kTrailerSize)) ∨
      t.type = kEncodingAlwaysMatch)

/-- The reader reads inside the filter, and answers "may match" unless the filter is
well-formed. -/
def Conservative (wellFormed : Prop) (result : Checked Bool) : Prop :=
  ∃ b, result = .ok b ∧ (¬ wellFormed → b = true)

/-- A Bloom trailer without payload whose `bit_count + 7u` wraps to a number below 8. -/
structure WrappedBloom (magic : UInt8) (filter : Bytes) (t : Trailer) : Prop where
  length : filter.length = kTrailerSize
  magic_eq : t.magic = magic
  version_eq : t.version = kFormatVersion
  type_eq : t.type = kEncodingBloom
  wraps : 4294967289 ≤ t.lengthOrBits.toNat
  probes_pos : 1 ≤ t.aux.toNat
  probes_le : t.aux.toNat ≤ 30

theorem HasTrailer.unique {filter : Bytes} {t t' : Trailer} (h : HasTrailer filter t)
    (h' : HasTrailer filter t') : t = t' := by
  have := h.read.symm.trans h'.read
  rwa [Except.ok.injEq] at this

/-! ## The Bloom branch -/

/-- Where the sum wraps, a filter without payload passes every check. -/
theorem bloomMayMatch_of_wrapped (hash : UInt32) (filter : Bytes) {bits probes : ℕ}
    (hwrap : 4294967289 ≤ bits) (hbits : bits < 4294967296) (h1 : 1 ≤ probes) (h30 : probes ≤ 30) :
    bloomMayMatch hash filter 0 bits probes
      = testProbes filter bits probes hash (bloomDelta hash) := by
  have hsize : u32 (bits + 7) / 8 = 0 := by
    unfold u32
    omega
  rw [bloomMayMatch, hsize, if_neg (by omega)]

/-- Everywhere else the array is all there, or the answer is "may match". -/
theorem bloomMayMatch_of_not_wrapped (hash : UInt32) {filter : Bytes} {size bits probes : ℕ}
    (hbits : bits < 4294967296) (hlen : size ≤ filter.length)
    (hno : ¬ (size = 0 ∧ 4294967289 ≤ bits ∧ 1 ≤ probes ∧ probes ≤ 30)) :
    Conservative (64 ≤ bits ∧ 1 ≤ probes ∧ probes ≤ 30 ∧ size = (bits + 7) / 8)
      (bloomMayMatch hash filter size bits probes) := by
  rw [bloomMayMatch]
  by_cases hcheck : bits < 64 ∨ probes < 1 ∨ 30 < probes ∨ size ≠ u32 (bits + 7) / 8
  · rw [if_pos hcheck]
    exact ⟨true, rfl, fun _ => rfl⟩
  · have hsize : size = (bits + 7) / 8 := by
      unfold u32 at hcheck
      omega
    rw [if_neg hcheck]
    obtain ⟨b, hb⟩ : ∃ b, testProbes filter bits probes hash (bloomDelta hash) = .ok b :=
      testProbes_isOk (by omega) (by omega) probes hash (bloomDelta hash)
    exact ⟨b, hb, fun hwf => absurd ⟨by omega, by omega, by omega, hsize⟩ hwf⟩

/-! ## The dispatch -/

section Dispatch

variable {magic mainType : UInt8} {mainFormat : Trailer → ℕ → Prop}
  {main : Trailer → ℕ → Checked Bool} {filter : Bytes} {t : Trailer} (ht : HasTrailer filter t)

include ht

/-- What holds of every trailer of a filter holds of the one it has. -/
theorem forall_hasTrailer_iff (P : Trailer → Prop) : (∀ t', HasTrailer filter t' → P t') ↔ P t :=
  ⟨fun h => h t ht, fun h _ ht' => ht'.unique ht ▸ h⟩

theorem wellFormed_iff : WellFormed magic mainType mainFormat filter ↔
    t.magic = magic ∧ t.version = kFormatVersion ∧
      ((t.type = kEncodingEmpty ∧ filter.length - kTrailerSize = 0) ∨
        (t.type = kEncodingBloom ∧ 64 ≤ t.lengthOrBits.toNat ∧ 1 ≤ t.aux.toNat ∧
          t.aux.toNat ≤ 30 ∧
          filter.length - kTrailerSize = (t.lengthOrBits.toNat + 7) / 8) ∨
        (t.type = mainType ∧ mainFormat t (filter.length - kTrailerSize)) ∨
        t.type = kEncodingAlwaysMatch) := by
  constructor
  · rintro ⟨t', ht', h⟩
    rwa [ht'.unique ht] at h
  · exact fun h => ⟨t, ht, h⟩

/-- A wrapped Bloom encoding lacks its array. -/
theorem WrappedBloom.not_wellFormed (hmain : mainType = 1) (hwrap : WrappedBloom magic filter t) :
    ¬ WellFormed magic mainType mainFormat filter := by
  have hwraps := hwrap.wraps
  rw [wellFormed_iff ht, hwrap.type_eq, hwrap.length, Nat.sub_self, hmain]
  rintro ⟨-, -, ⟨h, -⟩ | ⟨-, -, -, -, h⟩ | ⟨h, -⟩ | h⟩
  · exact absurd h (by decide)
  · omega
  · exact absurd h (by decide)
  · exact absurd h (by decide)

variable (hm : t.magic = magic) (hv : t.version = kFormatVersion)

include hm hv

/-- The Bloom branch is conservative, except on a wrapped encoding with a probe that does
not find a set bit. -/
theorem conservative_bloom_iff (hmain : mainType = 1) (htype : t.type = kEncodingBloom)
    (start : UInt32) :
    Conservative (WellFormed magic mainType mainFormat filter)
        (bloomMayMatch start filter (filter.length - kTrailerSize) t.lengthOrBits.toNat
          t.aux.toNat) ↔
      (WrappedBloom magic filter t → ∀ j < t.aux.toNat,
        ProbeSet filter t.lengthOrBits.toNat start (bloomDelta start) j) := by
  have hbits : t.lengthOrBits.toNat < 4294967296 := t.lengthOrBits.toNat_lt
  by_cases hwrap : WrappedBloom magic filter t
  · -- no payload: the answer is what the probes find in the trailer and behind it
    have hwraps := hwrap.wraps
    have htest := bloomMayMatch_of_wrapped start filter hwraps hbits hwrap.probes_pos
      hwrap.probes_le
    rw [hwrap.length, Nat.sub_self, htest, forall_prop_of_true hwrap,
      ← testProbes_eq_true_iff (by omega)]
    constructor
    · rintro ⟨b, hb, htrue⟩
      rw [hb, htrue (hwrap.not_wellFormed ht hmain)]
    · exact fun h => ⟨true, h, fun _ => rfl⟩
  · refine iff_of_true ?_ fun h => absurd h hwrap
    have hno : ¬ (filter.length - kTrailerSize = 0 ∧ 4294967289 ≤ t.lengthOrBits.toNat ∧
        1 ≤ t.aux.toNat ∧ t.aux.toNat ≤ 30) := by
      rintro ⟨hsize, hw, h1, h30⟩
      have hlen : filter.length = kTrailerSize := by
        have := ht.length_le
        omega
      exact hwrap ⟨hlen, hm, hv, htype, hw, h1, h30⟩
    obtain ⟨b, hb, htrue⟩ := bloomMayMatch_of_not_wrapped start hbits
      (Nat.sub_le filter.length kTrailerSize) hno
    refine ⟨b, hb, fun hnot => htrue fun h => hnot ((wellFormed_iff ht).2 ⟨hm, hv, ?_⟩)⟩
    exact Or.inr (Or.inl ⟨htype, h⟩)

/-- The other branches always are. -/
theorem conservative_of_not_bloom (hmain : mainType = 1) (htype : t.type ≠ kEncodingBloom)
    (bloom : Trailer → ℕ → Checked Bool)
    (hsafe : Conservative (mainFormat t (filter.length - kTrailerSize))
      (main t (filter.length - kTrailerSize))) :
    Conservative (WellFormed magic mainType mainFormat filter)
      (matchEncoding magic mainType bloom main filter) := by
  by_cases hempty : t.type = kEncodingEmpty
  · rw [matchEncoding_empty ht hm hv hempty]
    refine ⟨_, rfl, fun hnot => if_neg fun hsize => hnot ((wellFormed_iff ht).2 ⟨hm, hv, ?_⟩)⟩
    exact Or.inl ⟨hempty, hsize⟩
  by_cases halways : t.type = kEncodingAlwaysMatch
  · rw [matchEncoding_alwaysMatch ht hm hv halways]
    exact ⟨true, rfl, fun _ => rfl⟩
  by_cases hmaintype : t.type = mainType
  · rw [matchEncoding_main ht hm hv hmain hmaintype]
    obtain ⟨b, hb, htrue⟩ := hsafe
    refine ⟨b, hb, fun hnot => htrue fun h => hnot ((wellFormed_iff ht).2 ⟨hm, hv, ?_⟩)⟩
    exact Or.inr (Or.inr (Or.inl ⟨hmaintype, h⟩))
  · rw [matchEncoding_of_format ht hm hv, if_neg hempty, if_neg halways, if_neg htype,
      if_pos hmaintype]
    exact ⟨true, rfl, fun _ => rfl⟩

end Dispatch

/-- **Exactly when a reader is conservative.**  `main` is conservative about its own
encodings; then the reader is, unless the filter is a wrapped Bloom encoding and some
probe of the key does not land on a set bit of its twelve bytes. -/
theorem matchEncoding_conservative_iff {magic mainType : UInt8} (hmain : mainType = 1)
    {mainFormat : Trailer → ℕ → Prop} {start : Trailer → UInt32}
    {main : Trailer → ℕ → Checked Bool} {filter : Bytes}
    (hsafe : ∀ t, Conservative (mainFormat t (filter.length - kTrailerSize))
      (main t (filter.length - kTrailerSize))) :
    Conservative (WellFormed magic mainType mainFormat filter)
        (matchEncoding magic mainType
          (fun t size => bloomMayMatch (start t) filter size t.lengthOrBits.toNat t.aux.toNat) main
          filter) ↔
      ∀ t, HasTrailer filter t → WrappedBloom magic filter t →
        ∀ j < t.aux.toNat,
          ProbeSet filter t.lengthOrBits.toNat (start t) (bloomDelta (start t)) j := by
  by_cases hshort : filter.length < kTrailerSize
  · rw [matchEncoding_short hshort]
    exact iff_of_true ⟨true, rfl, fun _ => rfl⟩ fun t ht _ => absurd ht.length_le (not_le.2 hshort)
  obtain ⟨t, ht⟩ := exists_hasTrailer (not_lt.1 hshort)
  rw [forall_hasTrailer_iff ht]
  by_cases hformat : t.magic = magic ∧ t.version = kFormatVersion
  · obtain ⟨hm, hv⟩ := hformat
    by_cases htype : t.type = kEncodingBloom
    · rw [matchEncoding_bloom ht hm hv htype]
      exact conservative_bloom_iff ht hm hv hmain htype (start t)
    · exact iff_of_true (conservative_of_not_bloom ht hm hv hmain htype _ (hsafe t))
        fun h => absurd h.type_eq htype
  · rw [matchEncoding_foreign ht (by rwa [← not_and_or])]
    exact iff_of_true ⟨true, rfl, fun _ => rfl⟩ fun h =>
      absurd ⟨h.magic_eq, h.version_eq⟩ hformat

/-! ## The main branches -/

/-- What the format asks of a Ribbon encoding. -/
def ribbonFormat (t : Trailer) (size : ℕ) : Prop :=
  1 ≤ t.aux.toNat ∧ t.aux.toNat ≤ 16 ∧ 64 ≤ t.lengthOrBits.toNat ∧
    size = (t.lengthOrBits.toNat * t.aux.toNat + 7) / 8

/-- What the format asks of an Xor encoding. -/
def xorFormat (t : Trailer) (size : ℕ) : Prop :=
  1 ≤ t.aux.toNat ∧ t.aux.toNat ≤ 16 ∧ 1 ≤ t.lengthOrBits.toNat ∧
    t.lengthOrBits.toNat ≤ 4294967295 / 3 ∧ size = (3 * t.lengthOrBits.toNat * t.aux.toNat + 7) / 8

section Readers

variable {payload : Bytes} {size width : ℕ} (h1 : 1 ≤ width) (h16 : width ≤ 16)
  (hsize : size ≤ payload.length)

include h1 h16 hsize

/-- The walk over a row always ends, on any payload: each round clears the lowest
coefficient. -/
theorem walkRow_isOk (slotCount : ℕ) : ∀ (rounds position : ℕ) (c : UInt64) (actual : UInt32),
    c.toNat < 2 ^ rounds →
    ∃ r, Ribbon.RibbonFilterPolicy.walkRow payload size slotCount width (rounds + 1) position c
      actual = .ok r := by
  intro rounds
  induction rounds with
  | zero =>
    intro position c actual hc
    have hzero : c = 0 := UInt64.toNat_inj.1 (by
      rw [pow_zero] at hc
      rw [UInt64.toNat_zero]
      omega)
    exact ⟨some actual, by rw [Ribbon.RibbonFilterPolicy.walkRow, if_pos hzero]⟩
  | succ rounds ih =>
    intro position c actual hc
    rw [Ribbon.RibbonFilterPolicy.walkRow]
    by_cases hzero : c = 0
    · exact ⟨some actual, if_pos hzero⟩
    · obtain ⟨hz, -⟩ := Ribbon.countTrailingZeros64_spec hzero
      rw [if_neg hzero]
      simp only
      split
      · exact ⟨none, rfl⟩
      · obtain ⟨v, hv⟩ : ∃ v, readPackedValue payload size
            (u32 (position + Ribbon.countTrailingZeros64 c)) width = .ok v :=
          readPackedValue_isOk h1 h16 hsize
        rw [hv, ok_bind]
        cases v with
        | none => exact ⟨none, rfl⟩
        | some value =>
          refine ih _ _ _ ?_
          rw [toNat_shr64 _ (by norm_num), toNat_shr64 c hz]
          have := Nat.div_le_self c.toNat (2 ^ Ribbon.countTrailingZeros64 c)
          omega

theorem ribbonMayMatch_isOk (hash : HashFunction) (key : Bytes) (slotCount : ℕ) (seed : UInt32) :
    ∃ b, Ribbon.RibbonFilterPolicy.ribbonMayMatch hash key payload size slotCount width seed
      = .ok b := by
  unfold Ribbon.RibbonFilterPolicy.ribbonMayMatch
  obtain ⟨r, hr⟩ := walkRow_isOk h1 h16 hsize slotCount 64
    (Ribbon.deriveStart (Ribbon.ribbonHash64 hash key seed) (slotCount - Ribbon.kRibbonWidth + 1))
    (Ribbon.deriveCoefficient
      (Ribbon.ribbonHash64 hash key (seed + Ribbon.kCoefficientSeedDelta))) 0 (UInt64.toNat_lt _)
  simp only [hr, ok_bind]
  cases r with
  | none => exact ⟨true, rfl⟩
  | some actual => exact ⟨_, rfl⟩

theorem xorMayMatch_isOk (hash : HashFunction) (key : Bytes) (blockLength : ℕ) (seed : UInt32) :
    ∃ b, Xor.XorFilterPolicy.xorMayMatch hash key payload size blockLength width seed = .ok b := by
  rw [Xor.XorFilterPolicy.xorMayMatch]
  rcases Xor.readFingerprint_cases h1 h16 hsize blockLength (Xor.xorHash64 hash key seed)
    with ⟨-, he⟩ | ⟨-, actual, he⟩
  · exact ⟨true, by rw [he, ok_bind]⟩
  · exact ⟨_, by rw [he, ok_bind]⟩

end Readers

/-! ## Main results -/

/-- **Exactly when the readers are safe and conservative.**  Both policies are, on every
byte string and for every key, except on a wrapped Bloom encoding with a probe of the
key that does not land on a set bit of its twelve bytes. -/
theorem keyMayMatch_conservative_iff (hash : HashFunction) (key filter : Bytes) :
    (∀ q : Ribbon.RibbonFilterPolicy,
      Conservative
          (WellFormed Ribbon.kFormatMagic Ribbon.kEncodingRibbon ribbonFormat filter)
          (q.keyMayMatch hash key filter) ↔
        ∀ t, HasTrailer filter t → WrappedBloom Ribbon.kFormatMagic filter t →
          ∀ j < t.aux.toNat, ProbeSet filter t.lengthOrBits.toNat (hash key Ribbon.bloomSeed)
            (bloomDelta (hash key Ribbon.bloomSeed)) j) ∧
      ∀ q : Xor.XorFilterPolicy,
        Conservative (WellFormed Xor.kFormatMagic Xor.kEncodingXor xorFormat filter)
            (q.keyMayMatch hash key filter) ↔
          ∀ t, HasTrailer filter t → WrappedBloom Xor.kFormatMagic filter t →
            ∀ j < t.aux.toNat, ProbeSet filter t.lengthOrBits.toNat
              (Xor.bloomHash (Xor.xorHash64 hash key t.seed))
              (bloomDelta (Xor.bloomHash (Xor.xorHash64 hash key t.seed))) j := by
  have hle : filter.length - kTrailerSize ≤ filter.length := Nat.sub_le ..
  constructor
  · intro q
    refine matchEncoding_conservative_iff rfl fun t => ?_
    simp only
    split
    · exact ⟨true, rfl, fun _ => rfl⟩
    · rename_i hcheck
      rw [Ribbon.kRibbonWidth, packedByteSize] at hcheck
      have hwf : ribbonFormat t (filter.length - kTrailerSize) :=
        ⟨by omega, by omega, by omega, by omega⟩
      obtain ⟨b, hb⟩ := ribbonMayMatch_isOk hwf.1 hwf.2.1 hle hash key t.lengthOrBits.toNat t.seed
      exact ⟨b, hb, fun hno => absurd hwf hno⟩
  · intro q
    refine matchEncoding_conservative_iff rfl fun t => ?_
    simp only
    split
    · exact ⟨true, rfl, fun _ => rfl⟩
    · rename_i hcheck
      split
      · exact ⟨true, rfl, fun _ => rfl⟩
      · rename_i hsize
        rw [not_not, Xor.tableLength, u32_of_lt (by omega), packedByteSize] at hsize
        have hwf : xorFormat t (filter.length - kTrailerSize) :=
          ⟨by omega, by omega, by omega, by omega, hsize⟩
        obtain ⟨b, hb⟩ := xorMayMatch_isOk hwf.1 hwf.2.1 hle hash key t.lengthOrBits.toNat t.seed
        exact ⟨b, hb, fun hno => absurd hwf hno⟩

/-- Twelve bytes that claim a Bloom filter of 2³² − 7 bits: the empty key's probe reads
far behind them, in both policies. -/
theorem keyMayMatch_not_conservative :
    ¬ Conservative
        (WellFormed Ribbon.kFormatMagic Ribbon.kEncodingRibbon ribbonFormat
          [0, 0, 0, 0, 0xF9, 0xFF, 0xFF, 0xFF, 1, 2, 1, 0xB7])
        (Ribbon.RibbonFilterPolicy.keyMayMatch ⟨10, 7, by decide, by decide, by decide⟩ leveldbHash
          [] [0, 0, 0, 0, 0xF9, 0xFF, 0xFF, 0xFF, 1, 2, 1, 0xB7]) ∧
      ¬ Conservative
        (WellFormed Xor.kFormatMagic Xor.kEncodingXor xorFormat
          [0, 0, 0, 0, 0xF9, 0xFF, 0xFF, 0xFF, 1, 2, 1, 0xA9])
        (Xor.XorFilterPolicy.keyMayMatch ⟨10, 7, by decide, by decide, by decide⟩ leveldbHash
          [] [0, 0, 0, 0, 0xF9, 0xFF, 0xFF, 0xFF, 1, 2, 1, 0xA9]) := by
  have hribbon : Ribbon.RibbonFilterPolicy.keyMayMatch ⟨10, 7, by decide, by decide, by decide⟩
      leveldbHash [] [0, 0, 0, 0, 0xF9, 0xFF, 0xFF, 0xFF, 1, 2, 1, 0xB7]
      = .error (.readOutside 395568038) := by decide
  have hxor : Xor.XorFilterPolicy.keyMayMatch ⟨10, 7, by decide, by decide, by decide⟩
      leveldbHash [] [0, 0, 0, 0, 0xF9, 0xFF, 0xFF, 0xFF, 1, 2, 1, 0xA9]
      = .error (.readOutside 382364415) := by decide
  constructor
  · rintro ⟨b, hb, -⟩
    rw [hribbon] at hb
    cases hb
  · rintro ⟨b, hb, -⟩
    rw [hxor] at hb
    cases hb

end PackedFilters
