import PackedFilters.Ribbon.Encoding

/-!
# The Ribbon policy end to end

`CreateFilter` against `KeyMayMatch`.  `createFilter_cases` says how the builder ends on
a list of keys: with the Ribbon encoding under the least seed whose system is solvable, or
with the Bloom fallback.  `Exit` turns the ends into the bytes they append, down to the
trailer: the packed slots of a solution, the Bloom array of the hashes, or the marker that
matches always.  Each main result is read off these two.

The number of slots is below 2^31 throughout, since `TryBuildRibbon` casts it to `int`
before it solves; a count for which no Ribbon filter is attempted never gets there, and
`createFilter_exit` asks for the bound only where one is.

* `createFilter_keyMayMatch` — what `CreateFilter` appends, and that no key is lost: the
  reader of any instance of the policy accepts every key, whatever its own `bits_per_key`;
* `createFilter_perm` — the bytes do not depend on the order of the keys, nor on
  what `std::sort` does with equal rows;
* `tryBuildRibbon_decides` — the Ribbon encoding is chosen exactly when it is smaller
  and some seed is solvable, and the seed is the least one.
-/

namespace PackedFilters.Ribbon

open LittleEndian

namespace RibbonFilterPolicy

/-! ## The encodings -/

/-- Every instance of the policy finds every key. -/
def Accepts (hash : HashFunction) (keys : List Bytes) (encoded : Bytes) : Prop :=
  ∀ (q : RibbonFilterPolicy), ∀ key ∈ keys, q.keyMayMatch hash key encoded = .ok true

/-- The encoding ends in the trailer of a Ribbon filter built with `seed`. -/
def EmitsRibbon (encoded : Bytes) (seed : UInt32) : Prop :=
  ∃ t, HasTrailer encoded t ∧ t.type = kEncodingRibbon ∧ t.seed = seed

/-- The encoding of a solution. -/
def ribbonEncoding (slots : List UInt32) (slotCount resultBits : ℕ) (seed : UInt32) : Bytes :=
  appendTrailer (appendPackedValues slots resultBits []) seed (UInt32.ofNat slotCount)
    (UInt8.ofNat resultBits) kEncodingRibbon

theorem hasTrailer_appendTrailer (payload : Bytes) (seed length : UInt32) (aux type : UInt8) :
    HasTrailer (appendTrailer payload seed length aux type)
      ⟨seed, length, aux, type, kFormatVersion, kFormatMagic⟩ := by
  rw [appendTrailer, appendTrailer_eq]
  exact hasTrailer_append payload _

/-- The trailer of a Ribbon encoding names one seed. -/
theorem emitsRibbon_ribbonEncoding (slots : List UInt32) (slotCount resultBits : ℕ)
    (seed seed' : UInt32) :
    EmitsRibbon (ribbonEncoding slots slotCount resultBits seed) seed' ↔ seed' = seed := by
  have htrailer := hasTrailer_appendTrailer (appendPackedValues slots resultBits []) seed
    (UInt32.ofNat slotCount) (UInt8.ofNat resultBits) kEncodingRibbon
  constructor
  · rintro ⟨t, ht, -, hseed⟩
    have := ht.read.symm.trans htrailer.read
    rw [Except.ok.injEq] at this
    rw [← hseed, this]
  · rintro rfl
    exact ⟨_, htrailer, rfl, rfl⟩

/-- **The Bloom encoding** is built for any keys, accepts them, and is not taken for
a Ribbon filter. -/
theorem buildBloomEncoding_accepts (hash : HashFunction) (keys : List Bytes) (bitsPerKey : ℕ) :
    ∃ E, buildBloomEncoding hash keys bitsPerKey [] = .ok E ∧ Accepts hash keys E ∧
      ∀ seed, ¬ EmitsRibbon E seed := by
  obtain ⟨payload, t, hE, hbloom⟩ := PackedFilters.buildBloomEncoding_spec kFormatMagic
    (keys.map fun key => hash key bloomSeed) bitsPerKey 0
  have htrailer := hasTrailer_append payload t
  refine ⟨_, hE, fun q key hkey => ?_, ?_⟩
  · rw [keyMayMatch]
    rcases hbloom.type_eq with htype | htype
    · exact matchEncoding_alwaysMatch htrailer hbloom.magic_eq hbloom.version_eq htype
    · rw [matchEncoding_bloom htrailer hbloom.magic_eq hbloom.version_eq htype, length_append_sub]
      exact hbloom.mayMatch htype _ (List.mem_map_of_mem hkey)
  · rintro seed ⟨t', ht', heq, -⟩
    have := ht'.read.symm.trans htrailer.read
    rw [Except.ok.injEq] at this
    rw [this] at heq
    rcases hbloom.type_eq with htype | htype
    · exact absurd (htype.symm.trans heq) (by decide)
    · exact absurd (htype.symm.trans heq) (by decide)

/-- **The Ribbon encoding** of a solution accepts its keys. -/
theorem ribbonEncoding_accepts {hash : HashFunction} {keys : List Bytes} {slots : List UInt32}
    {slotCount resultBits : ℕ} {seed : UInt32} (h64 : 64 ≤ slotCount)
    (hslots : slotCount < 2147483648) (hb1 : 1 ≤ resultBits) (hbits : resultBits ≤ 16)
    (hs : Solution slotCount resultBits (keys.map (ribbonRow hash slotCount resultBits seed))
      slots) : Accepts hash keys (ribbonEncoding slots slotCount resultBits seed) := by
  intro q key hkey
  obtain ⟨out, hout, hlen, hval⟩ := appendPackedValues_eq hbits slots []
  rw [List.nil_append] at hout
  have hcount : (UInt32.ofNat slotCount).toNat = slotCount := toNat_ofNat32 (by omega)
  have haux : (UInt8.ofNat resultBits).toNat = resultBits := toNat_ofNat8 (by omega)
  have hsize : out.length = packedByteSize slotCount resultBits := by rw [hlen, hs.length]
  have htrailer := hasTrailer_append out
    ⟨seed, UInt32.ofNat slotCount, UInt8.ofNat resultBits, kEncodingRibbon, kFormatVersion,
      kFormatMagic⟩
  rw [ribbonEncoding, hout, appendTrailer, appendTrailer_eq]
  refine (matchEncoding_main htrailer rfl rfl rfl rfl).trans ?_
  rw [length_append_sub]
  simp only [hcount, haux]
  rw [if_neg (by rw [kRibbonWidth]; omega)]
  exact ribbonMayMatch_packed h64 hslots hb1 hbits hs hlen hval hkey

/-! ## The builder -/

section Builder

variable (p : RibbonFilterPolicy) (hash : HashFunction) (sort : RowSort) (keys : List Bytes)

/-- A slot count is zero, which sends the builder to Bloom, or at least one band. -/
theorem ribbonSlotCount_range (n : ℕ) : ribbonSlotCount n = 0 ∨ 64 ≤ ribbonSlotCount n := by
  have hclamp (s r : ℕ) (hs : 64 ≤ s) (hr : r = if 4294967295 < s then 0 else s) :
      r = 0 ∨ 64 ≤ r := by
    split at hr <;> omega
  have hraise (s : ℕ) : 64 ≤ if s < 64 then 64 else s := by split <;> omega
  rw [ribbonSlotCount]
  split
  · exact Or.inl rfl
  · exact hclamp _ _ (hraise _) rfl

/-- **The seed loop** stops at the first solvable seed, with an encoding of its
solution, and otherwise reports failure. -/
theorem trySeeds_cases {slotCount : ℕ} (h64 : 64 ≤ slotCount) (hslots : slotCount < 2147483648) :
    ∀ (tries : ℕ) (seed : UInt32),
      (∃ i < tries, (∀ j < i, ¬ Solvable hash keys slotCount p.resultBits
            (seed + UInt32.ofNat j)) ∧
          ∃ slots, Solution slotCount p.resultBits (keys.map
              (ribbonRow hash slotCount p.resultBits (seed + UInt32.ofNat i))) slots ∧
            p.trySeeds hash sort keys slotCount tries seed = .ok (some
              (ribbonEncoding slots slotCount p.resultBits (seed + UInt32.ofNat i)))) ∨
        ((∀ j < tries, ¬ Solvable hash keys slotCount p.resultBits (seed + UInt32.ofNat j)) ∧
          p.trySeeds hash sort keys slotCount tries seed = .ok none) := by
  have hzero (seed : UInt32) : seed + UInt32.ofNat 0 = seed := UInt32.add_zero seed
  have hsucc (seed : UInt32) (j : ℕ) : seed + UInt32.ofNat (j + 1) = seed + 1 + UInt32.ofNat j := by
    rw [UInt32.ofNat_add, UInt32.ofNat_one, UInt32.add_assoc, UInt32.add_comm 1]
  intro tries
  induction tries with
  | zero => exact fun seed => Or.inr ⟨fun j hj => absurd hj (Nat.not_lt_zero j), rfl⟩
  | succ tries ih =>
    intro seed
    rw [trySeeds]
    rcases tryBuildRibbon_cases hash sort h64 hslots p.resultBits_le keys seed []
      with ⟨slots, hs, he⟩ | ⟨hno, he⟩
    · refine Or.inl ⟨0, Nat.succ_pos _, fun j hj => absurd hj (Nat.not_lt_zero j), slots, ?_, ?_⟩
      · rwa [hzero]
      · rw [he, ok_bind, hzero]
        rfl
    · have hfirst : ¬ Solvable hash keys slotCount p.resultBits (seed + UInt32.ofNat 0) := by
        rwa [hzero]
      rw [he, ok_bind]
      rcases ih (seed + 1) with ⟨i, hi, hbelow, slots, hs, ht⟩ | ⟨hall, ht⟩
      · refine Or.inl ⟨i + 1, by omega, fun j hj => ?_, slots, ?_, ?_⟩
        · cases j with
          | zero => exact hfirst
          | succ j =>
            rw [hsucc]
            exact hbelow j (by omega)
        · rwa [hsucc]
        · rw [hsucc]
          exact ht
      · refine Or.inr ⟨fun j hj => ?_, ht⟩
        cases j with
        | zero => exact hfirst
        | succ j =>
          rw [hsucc]
          exact hall j (by omega)

/-- The seed loop sees of its hash and keys what `TryBuildRibbon` makes of them. -/
theorem trySeeds_congr {hash hash' : HashFunction} {sort sort' : RowSort}
    {keys keys' : List Bytes} {slotCount : ℕ}
    (htry : ∀ seed encoded,
      tryBuildRibbon hash sort keys slotCount p.resultBits seed encoded
        = tryBuildRibbon hash' sort' keys' slotCount p.resultBits seed encoded) :
    ∀ (tries : ℕ) (seed : UInt32),
      p.trySeeds hash sort keys slotCount tries seed
        = p.trySeeds hash' sort' keys' slotCount tries seed := by
  intro tries
  induction tries with
  | zero => exact fun seed => rfl
  | succ tries ih =>
    intro seed
    rw [trySeeds, trySeeds, htry, ih]

/-- The sizes let the builder attempt a Ribbon filter. -/
def AttemptsRibbon (n : ℕ) : Prop :=
  ribbonSlotCount n ≠ 0 ∧
    packedByteSize (ribbonSlotCount n) p.resultBits + kTrailerSize
      < estimatedBloomSerializedSize n p.bitsPerKey

/-- Where it attempts none, the builder goes straight to Bloom. -/
theorem createFilter_of_not_attempts (hkeys : keys ≠ [])
    (h : ¬ p.AttemptsRibbon keys.length) (dst : Bytes) :
    p.createFilter hash sort keys dst = (do
      let encoded ← buildBloomEncoding hash keys p.bitsPerKey []
      .ok (dst ++ encoded)) := by
  have hlen : keys.length ≠ 0 := fun h => hkeys (List.eq_nil_of_length_eq_zero h)
  rw [createFilter, if_neg hlen]
  by_cases hzero : ribbonSlotCount keys.length = 0
  · exact if_pos hzero
  · have hsize : estimatedBloomSerializedSize keys.length p.bitsPerKey
        ≤ packedByteSize (ribbonSlotCount keys.length) p.resultBits + kTrailerSize :=
      not_lt.1 fun hlt => h ⟨hzero, hlt⟩
    simp only [if_neg hzero, if_pos hsize]

/-- **How `CreateFilter` ends** on a non-empty list of keys. -/
theorem createFilter_cases (hkeys : keys ≠ [])
    (hslots : ribbonSlotCount keys.length < 2147483648) (dst : Bytes) :
    (p.AttemptsRibbon keys.length ∧ ∃ i < 64,
        (∀ j < i, ¬ Solvable hash keys (ribbonSlotCount keys.length) p.resultBits
          (UInt32.ofNat j)) ∧
        ∃ slots, Solution (ribbonSlotCount keys.length) p.resultBits (keys.map
            (ribbonRow hash (ribbonSlotCount keys.length) p.resultBits (UInt32.ofNat i))) slots ∧
          p.createFilter hash sort keys dst = .ok (dst ++ ribbonEncoding slots
            (ribbonSlotCount keys.length) p.resultBits (UInt32.ofNat i))) ∨
      (¬ (p.AttemptsRibbon keys.length ∧ ∃ i < 64,
          Solvable hash keys (ribbonSlotCount keys.length) p.resultBits (UInt32.ofNat i)) ∧
        p.createFilter hash sort keys dst = (do
          let encoded ← buildBloomEncoding hash keys p.bitsPerKey []
          .ok (dst ++ encoded))) := by
  by_cases hattempt : p.AttemptsRibbon keys.length
  · have hlen : keys.length ≠ 0 := fun h => hkeys (List.eq_nil_of_length_eq_zero h)
    have h64 := (ribbonSlotCount_range keys.length).resolve_left hattempt.1
    have hseed (j : ℕ) : 0 + UInt32.ofNat j = UInt32.ofNat j := UInt32.zero_add _
    rw [createFilter, if_neg hlen]
    simp only [if_neg hattempt.1, if_neg (not_le.2 hattempt.2)]
    rcases p.trySeeds_cases hash sort keys h64 hslots kMaxSeedTries 0
      with ⟨i, hi, hbelow, slots, hs, he⟩ | ⟨hall, he⟩
    · simp only [hseed] at hbelow hs he
      exact Or.inl ⟨hattempt, i, hi, hbelow, slots, hs, by rw [he, ok_bind]⟩
    · simp only [hseed] at hall
      refine Or.inr ⟨?_, by rw [he, ok_bind]⟩
      rintro ⟨-, i, hi, hsolve⟩
      exact hall i hi hsolve
  · exact Or.inr ⟨fun h => hattempt h.1,
      p.createFilter_of_not_attempts hash sort keys hkeys hattempt dst⟩

/-- **The encodings of `CreateFilter`**, by the exit it takes: the Ribbon encoding under
the first seed that is solvable (packed slots of the keys' system and a trailer), the
Bloom fallback because a Ribbon filter would not be smaller, and the Bloom fallback after
64 seeds without a solution.  Either fallback is the always-match marker where no bit
count fits in 32 bits (`FallbackFormat`). -/
inductive Exit : Bytes → Prop
  | ribbon (i : ℕ) (slots : List UInt32) (payload : Bytes) :
      p.AttemptsRibbon keys.length → i < 64 →
      (∀ j < i, ¬ Solvable hash keys (ribbonSlotCount keys.length) p.resultBits
        (UInt32.ofNat j)) →
      Solution (ribbonSlotCount keys.length) p.resultBits (keys.map
        (ribbonRow hash (ribbonSlotCount keys.length) p.resultBits (UInt32.ofNat i))) slots →
      payload = appendPackedValues slots p.resultBits [] →
      payload.length = packedByteSize (ribbonSlotCount keys.length) p.resultBits →
      Exit (payload ++ Trailer.bytes ⟨UInt32.ofNat i, UInt32.ofNat (ribbonSlotCount keys.length),
        UInt8.ofNat p.resultBits, kEncodingRibbon, kFormatVersion, kFormatMagic⟩)
  | bloomForSize (E : Bytes) :
      ¬ p.AttemptsRibbon keys.length →
      FallbackFormat kFormatMagic (keys.map fun key => hash key bloomSeed) p.bitsPerKey 0 E →
      Exit E
  | bloomAfterSeeds (E : Bytes) :
      p.AttemptsRibbon keys.length →
      (∀ i < 64, ¬ Solvable hash keys (ribbonSlotCount keys.length) p.resultBits
        (UInt32.ofNat i)) →
      FallbackFormat kFormatMagic (keys.map fun key => hash key bloomSeed) p.bitsPerKey 0 E →
      Exit E

/-- The builder appends one encoding, that of its exit, and the encoding accepts the keys,
as long as a Ribbon filter is attempted in fewer than 2^31 slots only. -/
theorem createFilter_exit (hkeys : keys ≠ [])
    (hslots : p.AttemptsRibbon keys.length → ribbonSlotCount keys.length < 2147483648)
    (dst : Bytes) :
    ∃ E, p.createFilter hash sort keys dst = .ok (dst ++ E) ∧ p.Exit hash keys E ∧
      Accepts hash keys E := by
  obtain ⟨E, hE, haccept, -⟩ := buildBloomEncoding_accepts hash keys p.bitsPerKey
  have hformat := FallbackFormat.of_build hE
  by_cases hattempt : p.AttemptsRibbon keys.length
  · rcases p.createFilter_cases hash sort keys hkeys (hslots hattempt) dst
      with ⟨-, i, hi, hbelow, slots, hs, he⟩ | ⟨hno, he⟩
    · have h64 := (ribbonSlotCount_range keys.length).resolve_left hattempt.1
      refine ⟨_, he, ?_,
        ribbonEncoding_accepts h64 (hslots hattempt) p.resultBits_pos p.resultBits_le hs⟩
      have hlen : (appendPackedValues slots p.resultBits []).length
          = packedByteSize (ribbonSlotCount keys.length) p.resultBits := by
        obtain ⟨out, hout, hlen, -⟩ := appendPackedValues_eq p.resultBits_le slots []
        rw [hout, List.nil_append, hlen, hs.length]
      rw [ribbonEncoding, appendTrailer, appendTrailer_eq]
      exact .ribbon i slots _ hattempt hi hbelow hs rfl hlen
    · exact ⟨E, by rw [he, hE, ok_bind],
        .bloomAfterSeeds E hattempt (fun i hi hsolve => hno ⟨hattempt, i, hi, hsolve⟩) hformat,
        haccept⟩
  · rw [p.createFilter_of_not_attempts hash sort keys hkeys hattempt, hE, ok_bind]
    exact ⟨E, rfl, .bloomForSize E hattempt hformat, haccept⟩

/-- The builder appends one encoding that accepts the keys. -/
theorem createFilter_accepts (hkeys : keys ≠ [])
    (hslots : p.AttemptsRibbon keys.length → ribbonSlotCount keys.length < 2147483648)
    (dst : Bytes) :
    ∃ E, p.createFilter hash sort keys dst = .ok (dst ++ E) ∧ Accepts hash keys E := by
  obtain ⟨E, hE, -, haccept⟩ := p.createFilter_exit hash sort keys hkeys hslots dst
  exact ⟨E, hE, haccept⟩

/-- The builder always returns, with bytes appended to `dst`. -/
theorem createFilter_appends (hslots : ribbonSlotCount keys.length < 2147483648) (dst : Bytes) :
    ∃ E, p.createFilter hash sort keys dst = .ok (dst ++ E) := by
  by_cases hkeys : keys = []
  · subst hkeys
    exact ⟨_, rfl⟩
  · obtain ⟨E, hE, -⟩ := p.createFilter_accepts hash sort keys hkeys (fun _ => hslots) dst
    exact ⟨E, hE⟩

end Builder

/-- A seed with no smaller solvable one is the seed the loop has stopped at. -/
theorem eq_ofNat_iff_least {solves : UInt32 → Prop} {i : ℕ} (hi : i < 64)
    (hbelow : ∀ j < i, ¬ solves (UInt32.ofNat j)) (hsolve : solves (UInt32.ofNat i))
    (seed : UInt32) :
    seed = UInt32.ofNat i ↔ seed.toNat < 64 ∧ solves seed ∧ ∀ s < seed, ¬ solves s := by
  have hnat : (UInt32.ofNat i).toNat = i := toNat_ofNat32 (by omega)
  have hleast (s : UInt32) (hs : s.toNat < i) : ¬ solves s := by
    have := hbelow s.toNat hs
    rwa [UInt32.ofNat_toNat] at this
  constructor
  · rintro rfl
    refine ⟨by omega, hsolve, fun s hs => hleast s ?_⟩
    rwa [UInt32.lt_iff_toNat_lt, hnat] at hs
  · rintro ⟨-, hseed, hmin⟩
    have hge : ¬ UInt32.ofNat i < seed := fun h => hmin _ h hsolve
    have hle : ¬ seed.toNat < i := fun h => hleast seed h hseed
    rw [UInt32.lt_iff_toNat_lt, hnat] at hge
    refine UInt32.toNat_inj.1 ?_
    omega

/-! ## Main results -/

/-- **No false negatives.**  `CreateFilter` leaves `dst` as it was and appends one
encoding, that of the exit it takes, which every instance of the policy accepts every key
in. -/
theorem createFilter_keyMayMatch (p : RibbonFilterPolicy) (hash : HashFunction) (sort : RowSort)
    (keys : List Bytes) (dst : Bytes) (hkeys : keys ≠ [])
    (hslots : ribbonSlotCount keys.length < 2147483648) :
    ∃ E, p.createFilter hash sort keys dst = .ok (dst ++ E) ∧ p.Exit hash keys E ∧
      ∀ (q : RibbonFilterPolicy), ∀ key ∈ keys, q.keyMayMatch hash key E = .ok true :=
  p.createFilter_exit hash sort keys hkeys (fun _ => hslots) dst

theorem createFilter_keyMayMatch_two :
    ∃ E, createFilter ⟨10, 7, by decide, by decide, by decide⟩ leveldbHash (StdSort.stable _)
        [[0x61], [0x62, 0x63]] [9] = .ok ([9] ++ E) ∧
      Exit ⟨10, 7, by decide, by decide, by decide⟩ leveldbHash [[0x61], [0x62, 0x63]] E ∧
      ∀ (q : RibbonFilterPolicy), ∀ key ∈ [[0x61], [0x62, 0x63]],
        q.keyMayMatch leveldbHash key E = .ok true :=
  createFilter_keyMayMatch _ _ _ _ _ (by decide) (by decide)

/-- A seed has one verdict on the keys in any order, under any sort. -/
theorem tryBuildRibbon_reorder (p : RibbonFilterPolicy) (hash : HashFunction) (sort sort' : RowSort)
    {keys keys' : List Bytes} (hperm : keys.Perm keys')
    (hslots : ribbonSlotCount keys.length < 2147483648) (seed : UInt32) (encoded : Bytes) :
    tryBuildRibbon hash sort keys (ribbonSlotCount keys.length) p.resultBits seed encoded
      = tryBuildRibbon hash sort' keys' (ribbonSlotCount keys.length) p.resultBits seed
          encoded := by
  rcases ribbonSlotCount_range keys.length with hzero | h64
  · rw [hzero]
    rfl
  · exact tryBuildRibbon_perm hash sort h64 hslots p.resultBits_le sort' hperm seed encoded

/-- And so the keys in any order have one filter. -/
theorem createFilter_reorder (p : RibbonFilterPolicy) (hash : HashFunction) (sort sort' : RowSort)
    {keys keys' : List Bytes} (dst : Bytes) (hperm : keys.Perm keys')
    (hslots : ribbonSlotCount keys.length < 2147483648) :
    p.createFilter hash sort keys dst = p.createFilter hash sort' keys' dst := by
  have hseeds := fun tries =>
    p.trySeeds_congr (p.tryBuildRibbon_reorder hash sort sort' hperm hslots) tries
  have hbloom : buildBloomEncoding hash keys p.bitsPerKey []
      = buildBloomEncoding hash keys' p.bitsPerKey [] :=
    buildBloomEncoding_perm kFormatMagic (hperm.map fun key => hash key bloomSeed) _ 0
  rw [createFilter, createFilter, ← hperm.length_eq]
  simp only [hseeds, hbloom]

/-- **Order independence.**  The keys in any order, with rows of equal start left in any
order, give the same bytes; every seed has the same verdict and the same slots. -/
theorem createFilter_perm (p : RibbonFilterPolicy) (hash : HashFunction) (sort sort' : RowSort)
    {keys keys' : List Bytes} (dst : Bytes) (hperm : keys.Perm keys')
    (hslots : ribbonSlotCount keys.length < 2147483648) :
    (∃ E, p.createFilter hash sort keys dst = .ok (dst ++ E) ∧
        p.createFilter hash sort' keys' dst = .ok (dst ++ E)) ∧
      (∀ seed encoded,
        tryBuildRibbon hash sort keys (ribbonSlotCount keys.length) p.resultBits seed encoded
          = tryBuildRibbon hash sort' keys' (ribbonSlotCount keys'.length) p.resultBits seed
              encoded) ∧
      (p.AttemptsRibbon keys.length ↔ p.AttemptsRibbon keys'.length) ∧
      (p.AttemptsRibbon keys.length → ∀ seed,
        solveRows (ribbonSlotCount keys.length) p.resultBits (sort.run (keys.map
            (ribbonRow hash (ribbonSlotCount keys.length) p.resultBits seed)))
          = solveRows (ribbonSlotCount keys'.length) p.resultBits (sort'.run (keys'.map
              (ribbonRow hash (ribbonSlotCount keys'.length) p.resultBits seed)))) := by
  rw [← hperm.length_eq]
  refine ⟨?_, p.tryBuildRibbon_reorder hash sort sort' hperm hslots, Iff.rfl,
    fun hattempt seed => ?_⟩
  · obtain ⟨E, hE⟩ := p.createFilter_appends hash sort keys hslots dst
    exact ⟨E, hE, p.createFilter_reorder hash sort sort' dst hperm hslots ▸ hE⟩
  · have h64 := (ribbonSlotCount_range keys.length).resolve_left hattempt.1
    refine solveRows_perm hslots p.resultBits_le ?_ fun row hrow =>
      forall_ribbonRow_fits hash seed h64 p.resultBits_le keys row ((sort.perm _).mem_iff.1 hrow)
    exact (sort.perm _).trans ((hperm.map _).trans (sort'.perm _).symm)

theorem createFilter_perm_swap :
    ∃ E, createFilter ⟨10, 7, by decide, by decide, by decide⟩ leveldbHash (StdSort.stable _)
          [[0x61], [0x62, 0x63]] [9] = .ok ([9] ++ E) ∧
        createFilter ⟨10, 7, by decide, by decide, by decide⟩ leveldbHash (StdSort.stable _)
          [[0x62, 0x63], [0x61]] [9] = .ok ([9] ++ E) :=
  (createFilter_perm _ _ _ _ _ (List.Perm.swap _ _ _) (by decide)).1

/-- **Solvability is decided exactly.**  `TryBuildRibbon` succeeds when the system of the
keys has a solution and leaves `encoded` alone when it has none; so `CreateFilter` emits
the Ribbon encoding of the least solvable seed, if it is smaller, and else the fallback. -/
theorem tryBuildRibbon_decides (hash : HashFunction) (sort : RowSort) (keys : List Bytes) :
    (∀ (slotCount resultBits : ℕ) (seed : UInt32) (encoded : Bytes), 64 ≤ slotCount →
        slotCount ≤ 2147483647 → 1 ≤ resultBits → resultBits ≤ 16 →
        ∃ built out,
          tryBuildRibbon hash sort keys slotCount resultBits seed encoded = .ok (built, out) ∧
          (built = true ↔ Solvable hash keys slotCount resultBits seed) ∧
          (built = false → out = encoded)) ∧
      ∀ (p : RibbonFilterPolicy) (dst : Bytes), 64 ≤ ribbonSlotCount keys.length →
        ribbonSlotCount keys.length ≤ 2147483647 →
        ∃ E, p.createFilter hash sort keys dst = .ok (dst ++ E) ∧
          (∀ seed, EmitsRibbon E seed ↔
            packedByteSize (ribbonSlotCount keys.length) p.resultBits + kTrailerSize
                < estimatedBloomSerializedSize keys.length p.bitsPerKey ∧
              seed.toNat < 64 ∧
              Solvable hash keys (ribbonSlotCount keys.length) p.resultBits seed ∧
              ∀ s < seed, ¬ Solvable hash keys (ribbonSlotCount keys.length) p.resultBits s) ∧
          ((∀ seed, ¬ EmitsRibbon E seed) →
            buildBloomEncoding hash keys p.bitsPerKey [] = .ok E) := by
  refine ⟨fun slotCount resultBits seed encoded h64 hslots hb1 hbits => ?_,
    fun p dst h64 hslots => ?_⟩
  · rcases tryBuildRibbon_cases hash sort h64 (by omega) hbits keys seed encoded
      with ⟨slots, hs, he⟩ | ⟨hno, he⟩
    · exact ⟨_, _, he, iff_of_true rfl (solvable_of_solution hs), fun h => absurd h (by decide)⟩
    · exact ⟨_, _, he, iff_of_false Bool.false_ne_true hno, fun _ => rfl⟩
  · have hkeys : keys ≠ [] := by
      rintro rfl
      exact absurd h64 (by decide)
    rcases p.createFilter_cases hash sort keys hkeys (by omega) dst
      with ⟨hattempt, i, hi, hbelow, slots, hs, he⟩ | ⟨hno, he⟩
    · refine ⟨_, he, fun seed => ?_, fun h =>
        absurd ((emitsRibbon_ribbonEncoding ..).2 rfl) (h (UInt32.ofNat i))⟩
      rw [emitsRibbon_ribbonEncoding, and_iff_right hattempt.2]
      exact eq_ofNat_iff_least hi hbelow (solvable_of_solution hs) seed
    · obtain ⟨E, hE, -, hbloom⟩ := buildBloomEncoding_accepts hash keys p.bitsPerKey
      refine ⟨E, by rw [he, hE, ok_bind], fun seed => ?_, fun _ => hE⟩
      refine iff_of_false (hbloom seed) ?_
      rintro ⟨hsize, hlt, hsolve, -⟩
      refine hno ⟨⟨by omega, hsize⟩, seed.toNat, hlt, ?_⟩
      rwa [UInt32.ofNat_toNat]

theorem tryBuildRibbon_decides_one :
    (∃ built out, tryBuildRibbon leveldbHash (StdSort.stable _) [[0x61]] 64 7 5 [9]
          = .ok (built, out) ∧
        (built = true ↔ Solvable leveldbHash [[0x61]] 64 7 5) ∧ (built = false → out = [9])) ∧
      ∃ E, createFilter ⟨10, 7, by decide, by decide, by decide⟩ leveldbHash (StdSort.stable _)
          [[0x61]] [9] = .ok ([9] ++ E) ∧
        (∀ seed, EmitsRibbon E seed ↔
          packedByteSize (ribbonSlotCount 1) 7 + kTrailerSize
              < estimatedBloomSerializedSize 1 10 ∧
            seed.toNat < 64 ∧ Solvable leveldbHash [[0x61]] (ribbonSlotCount 1) 7 seed ∧
            ∀ s < seed, ¬ Solvable leveldbHash [[0x61]] (ribbonSlotCount 1) 7 s) ∧
        ((∀ seed, ¬ EmitsRibbon E seed) →
          buildBloomEncoding leveldbHash [[0x61]] 10 [] = .ok E) :=
  have h := tryBuildRibbon_decides leveldbHash (StdSort.stable _) [[0x61]]
  ⟨h.1 64 7 5 [9] (by decide) (by decide) (by decide) (by decide),
    h.2 ⟨10, 7, by decide, by decide, by decide⟩ [9] (by decide) (by decide)⟩

end RibbonFilterPolicy

end PackedFilters.Ribbon
