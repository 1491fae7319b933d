import PackedFilters.Codec.SignedChar
import PackedFilters.Ribbon.Indices
import PackedFilters.Xor.Policy

/-!
# One name, two engines

The filter sources of LevelDB and PebblesDB are the same text under the same `Name()`, by
which a database recognizes the filters it can read; each engine links them with its own
`Hash`.  A filter depends on the hash only through its keys' values (`createFilter_congr`),
so engines whose hashes agree on the keys write the same bytes, even if their sorts leave
rows of equal start in another order.

The hashes agree on a key exactly when none of the bytes that are added one by one is above
127.  On any other key they differ under every seed, and then copies of it give the
difference away: with one bit per key so many copies make a Bloom filter of as many bits, in
which the key has a single probe, so that equal filters would have hashes that are equal
modulo that number.  Two such numbers (`copyCounts`) tell all 32-bit words apart.

* `Engine`, `leveldb`, `pebblesdb` — the hash and the names;
* `OneFormat` — filters of these keys are the same, and each engine finds the keys in the
  other's;
* `SafeSize` — the Ribbon builder is not asked for 2^31 slots;
* `oneFormat_iff` — the keys for which every filter of one engine is a filter of the other.
-/

namespace PackedFilters

/-- The two hashes agree on these keys, under every seed. -/
def AgreeOn (hash hash' : HashFunction) (keys : List Bytes) : Prop :=
  ∀ key ∈ keys, ∀ seed, hash key seed = hash' key seed

/-! ## Ribbon -/

namespace Ribbon.RibbonFilterPolicy

variable {hash hash' : HashFunction} {sort : RowSort} {keys : List Bytes} (p : RibbonFilterPolicy)

theorem buildBloomEncoding_congr (h : AgreeOn hash hash' keys) (bitsPerKey : ℕ) (encoded : Bytes) :
    buildBloomEncoding hash keys bitsPerKey encoded
      = buildBloomEncoding hash' keys bitsPerKey encoded := by
  have hmap : (keys.map fun key => hash key bloomSeed) = keys.map fun key => hash' key bloomSeed :=
    List.map_congr_left fun key hkey => h key hkey bloomSeed
  rw [buildBloomEncoding, buildBloomEncoding, hmap]

theorem tryBuildRibbon_congr (h : AgreeOn hash hash' keys) (slotCount resultBits : ℕ)
    (seed : UInt32) (encoded : Bytes) :
    tryBuildRibbon hash sort keys slotCount resultBits seed encoded
      = tryBuildRibbon hash' sort keys slotCount resultBits seed encoded := by
  have hmap : keys.map (ribbonRow hash slotCount resultBits seed)
      = keys.map (ribbonRow hash' slotCount resultBits seed) :=
    List.map_congr_left fun key hkey => by simp only [ribbonRow, ribbonHash64, h key hkey]
  rw [tryBuildRibbon, tryBuildRibbon, hmap]

/-- The builder sees its hash on the keys only, and nothing of the way its sort leaves rows
of equal start. -/
theorem createFilter_congr (sort sort' : RowSort) (h : AgreeOn hash hash' keys) (hkeys : keys ≠ [])
    (hslots : p.AttemptsRibbon keys.length → ribbonSlotCount keys.length < 2147483648)
    (dst : Bytes) : p.createFilter hash sort keys dst = p.createFilter hash' sort' keys dst := by
  by_cases hattempt : p.AttemptsRibbon keys.length
  · have hseeds (tries : ℕ) (seed : UInt32) :
        p.trySeeds hash sort keys (ribbonSlotCount keys.length) tries seed
          = p.trySeeds hash' sort keys (ribbonSlotCount keys.length) tries seed :=
      p.trySeeds_congr (tryBuildRibbon_congr h _ p.resultBits) tries seed
    rw [← p.createFilter_reorder hash' sort sort' dst (List.Perm.refl keys) (hslots hattempt),
      createFilter, createFilter]
    simp only [hseeds, buildBloomEncoding_congr h]
  · rw [p.createFilter_of_not_attempts hash sort keys hkeys hattempt,
      p.createFilter_of_not_attempts hash' sort' keys hkeys hattempt, buildBloomEncoding_congr h]

theorem keyMayMatch_congr (h : AgreeOn hash hash' keys) {key : Bytes} (hkey : key ∈ keys)
    (filter : Bytes) : p.keyMayMatch hash key filter = p.keyMayMatch hash' key filter := by
  simp only [keyMayMatch, bloomMayMatch, ribbonMayMatch, ribbonHash64, h key hkey]

/-- A filter that has all keys under one hash has them under the other. -/
theorem Accepts.both {E : Bytes} (haccept : Accepts hash keys E) (h : AgreeOn hash hash' keys)
    (q : RibbonFilterPolicy) (key : Bytes) (hkey : key ∈ keys) :
    q.keyMayMatch hash key E = .ok true ∧ q.keyMayMatch hash' key E = .ok true := by
  rw [← q.keyMayMatch_congr h hkey, and_self]
  exact haccept q key hkey

end Ribbon.RibbonFilterPolicy

/-! ## Xor -/

namespace Xor.XorFilterPolicy

variable {hash hash' : HashFunction} {keys : List Bytes} (p : XorFilterPolicy)

theorem buildUniqueHashes_congr (h : AgreeOn hash hash' keys) (seed : UInt32) :
    buildUniqueHashes hash keys seed = buildUniqueHashes hash' keys seed := by
  have hmap : (keys.map fun key => xorHash64 hash key seed)
      = keys.map fun key => xorHash64 hash' key seed :=
    List.map_congr_left fun key hkey => by simp only [xorHash64, h key hkey]
  rw [buildUniqueHashes, buildUniqueHashes, hmap]

theorem trySeeds_congr (h : AgreeOn hash hash' keys) : ∀ (tries : ℕ) (seed : UInt32),
    p.trySeeds hash keys tries seed = p.trySeeds hash' keys tries seed := by
  intro tries
  induction tries with
  | zero => exact fun seed => rfl
  | succ tries ih =>
    intro seed
    rw [trySeeds, trySeeds, buildUniqueHashes_congr h, ih]

/-- The builder sees its hash on the keys only. -/
theorem createFilter_congr (h : AgreeOn hash hash' keys) (dst : Bytes) :
    p.createFilter hash keys dst = p.createFilter hash' keys dst := by
  rw [createFilter, createFilter]
  simp only [p.trySeeds_congr h, buildUniqueHashes_congr h]

theorem keyMayMatch_congr (h : AgreeOn hash hash' keys) {key : Bytes} (hkey : key ∈ keys)
    (filter : Bytes) : p.keyMayMatch hash key filter = p.keyMayMatch hash' key filter := by
  simp only [keyMayMatch, bloomMayMatch, xorMayMatch, xorHash64, h key hkey]

/-- A filter that has all keys under one hash has them under the other. -/
theorem Accepts.both {E : Bytes} (haccept : Accepts hash keys E) (h : AgreeOn hash hash' keys)
    (q : XorFilterPolicy) (key : Bytes) (hkey : key ∈ keys) :
    q.keyMayMatch hash key E = .ok true ∧ q.keyMayMatch hash' key E = .ok true := by
  rw [← q.keyMayMatch_congr h hkey, and_self]
  exact haccept q key hkey

end Xor.XorFilterPolicy

/-! ## The engines -/

open PackedFilters.Ribbon PackedFilters.Xor

/-- What an engine gives its filters: the hash they are linked with, and the names under
which their bytes are stored. -/
structure Engine where
  hash : HashFunction
  /-- `RibbonFilterPolicy::Name`. -/
  ribbonName : String
  /-- `XorFilterPolicy::Name`. -/
  xorName : String

/-- LevelDB, which adds the last bytes of a key as `uint8_t`. -/
def leveldb : Engine where
  hash := leveldbHash
  ribbonName := "proyecto-soa.RibbonFilter64Packed.v1"
  xorName := "proyecto-soa.XorFilter3Packed.v1"

/-- PebblesDB, which adds them as signed `char`. -/
def pebblesdb : Engine where
  hash := pebblesdbHash
  ribbonName := "proyecto-soa.RibbonFilter64Packed.v1"
  xorName := "proyecto-soa.XorFilter3Packed.v1"

/-- Filters of `keys` are the same in both engines, and both find every key in them.  Each
engine is compiled with a `std::sort` of its own, which may leave rows of equal start in
another order. -/
structure OneFormat (sort sort' : RowSort) (bitsPerKey : ℤ) (keys : List Bytes) (a b : Engine) :
    Prop where
  ribbonName : a.ribbonName = b.ribbonName
  xorName : a.xorName = b.xorName
  ribbon : ∀ p, newRibbonFilterPolicy bitsPerKey = some p → ∀ dst,
    ∃ E, p.createFilter a.hash sort keys dst = .ok (dst ++ E) ∧
      p.createFilter b.hash sort' keys dst = .ok (dst ++ E) ∧
        ∀ (q : RibbonFilterPolicy), ∀ key ∈ keys,
          q.keyMayMatch a.hash key E = .ok true ∧ q.keyMayMatch b.hash key E = .ok true
  xor : ∀ p, newXorFilterPolicy bitsPerKey = some p → ∀ dst,
    ∃ E, p.createFilter a.hash keys dst = .ok (dst ++ E) ∧
      p.createFilter b.hash keys dst = .ok (dst ++ E) ∧
        ∀ (q : XorFilterPolicy), ∀ key ∈ keys,
          q.keyMayMatch a.hash key E = .ok true ∧ q.keyMayMatch b.hash key E = .ok true

/-- The Ribbon builder's index arithmetic is exact wherever it attempts a Ribbon filter. -/
def SafeSize (bitsPerKey : ℤ) (keyCount : ℕ) : Prop :=
  ∀ p, newRibbonFilterPolicy bitsPerKey = some p → p.AttemptsRibbon keyCount →
    keyCount ≤ 2045222520

/-- Engines whose hashes agree on the keys have one format for them. -/
theorem oneFormat_of_agreeOn (sort sort' : RowSort) {bitsPerKey : ℤ} {keys : List Bytes}
    (hsize : SafeSize bitsPerKey keys.length) (h : AgreeOn leveldb.hash pebblesdb.hash keys) :
    OneFormat sort sort' bitsPerKey keys leveldb pebblesdb where
  ribbonName := rfl
  xorName := rfl
  ribbon p hp dst := by
    by_cases hkeys : keys = []
    · subst hkeys
      exact ⟨_, rfl, rfl, fun q key hkey => absurd hkey List.not_mem_nil⟩
    · have hpos : 1 ≤ keys.length := List.length_pos_iff.2 hkeys
      have hslots : p.AttemptsRibbon keys.length → ribbonSlotCount keys.length < 2147483648 :=
        fun hattempt => by
          have hle := hsize p hp hattempt
          exact (slotCount_lt_iff hpos (by omega)).2 hle
      have hcongr := p.createFilter_congr sort sort' h hkeys hslots dst
      rw [← hcongr]
      obtain ⟨E, hE, haccept⟩ := p.createFilter_accepts leveldb.hash sort keys hkeys hslots dst
      exact ⟨E, hE, hE, haccept.both h⟩
  xor p _ dst := by
    rw [← p.createFilter_congr h]
    by_cases hkeys : keys = []
    · subst hkeys
      exact ⟨_, rfl, rfl, fun q key hkey => absurd hkey List.not_mem_nil⟩
    · obtain ⟨E, hE, haccept⟩ : ∃ E, p.createFilter leveldb.hash keys dst = .ok (dst ++ E) ∧
          XorFilterPolicy.Accepts leveldb.hash keys E := p.createFilter_accepts hkeys dst
      exact ⟨E, hE, hE, haccept.both h⟩

/-! ## Keys whose hashes differ -/

/-- Two numbers of copies for which one bit per key gives a Bloom filter of as many bits. -/
def copyCounts : List ℕ := [524280, 524288]

/-- Both remainders together tell two 32-bit words apart. -/
theorem eq_of_mod_copyCounts {a b : UInt32}
    (h : ∀ n ∈ copyCounts, a.toNat % n = b.toNat % n) : a = b := by
  have ha := a.toNat_lt
  have hb := b.toNat_lt
  have h1 := h 524280 (by decide)
  have h2 := h 524288 (by decide)
  exact UInt32.toNat_inj.1 (by omega)

/-- One bit per key: a single probe, and Bloom is never larger than Ribbon. -/
theorem newRibbonFilterPolicy_one : ∃ p, newRibbonFilterPolicy 1 = some p ∧ p.bitsPerKey = 1 ∧
    ∀ n ∈ copyCounts, n ≠ 0 ∧ bloomBitCount n 1 = n ∧ ¬ p.AttemptsRibbon n := by
  refine ⟨_, rfl, rfl, fun n hn => ?_⟩
  unfold RibbonFilterPolicy.AttemptsRibbon
  revert n
  decide

/-- Engines that agree on every list of copies of a key agree on its hash. -/
theorem hash_eq_of_oneFormat {sort sort' : RowSort} {key : Bytes} {a b : Engine}
    (h : ∀ n, SafeSize 1 n → OneFormat sort sort' 1 (List.replicate n key) a b) :
    a.hash key bloomSeed = b.hash key bloomSeed := by
  obtain ⟨p, hp, hbits, hcounts⟩ := newRibbonFilterPolicy_one
  refine eq_of_mod_copyCounts fun n hn => ?_
  obtain ⟨hne, hcount, hno⟩ := hcounts n hn
  have hsafe : SafeSize 1 n := by
    intro q hq hattempt
    obtain rfl : p = q := Option.some.inj (hp.symm.trans hq)
    exact absurd hattempt hno
  have hkeys : List.replicate n key ≠ [] := by
    rw [Ne, List.replicate_eq_nil_iff]
    exact hne
  obtain ⟨E, ha, hb, -⟩ := (h n hsafe).ribbon p hp []
  rw [← List.length_replicate (n := n) (a := key)] at hno
  obtain ⟨x, hx, -, -⟩ := RibbonFilterPolicy.buildBloomEncoding_accepts a.hash
    (List.replicate n key) p.bitsPerKey
  obtain ⟨y, hy, -, -⟩ := RibbonFilterPolicy.buildBloomEncoding_accepts b.hash
    (List.replicate n key) p.bitsPerKey
  rw [p.createFilter_of_not_attempts _ sort _ hkeys hno, hx, ok_bind, Except.ok.injEq] at ha
  rw [p.createFilter_of_not_attempts _ sort' _ hkeys hno, hy, ok_bind, Except.ok.injEq] at hb
  rw [List.nil_append, List.nil_append] at ha hb
  have heq := hx.trans ((congrArg _ (ha.trans hb.symm)).trans hy.symm)
  rw [Ribbon.buildBloomEncoding, Ribbon.buildBloomEncoding, List.map_replicate,
    List.map_replicate] at heq
  have hmod := buildBloomEncoding_copies hne (by rw [hbits]; decide)
    (by rw [hbits, hcount]; exact hne) heq
  rwa [hbits, hcount] at hmod

/-- **One format.**  The two engines, each with its own sort, write the same filters of all
keys drawn from a set, and find the keys in each other's, exactly when no key of the set has
a byte above 127 among the last ones that the hash takes one by one. -/
theorem oneFormat_iff (sort sort' : RowSort) (S : Set Bytes) :
    (∀ (bitsPerKey : ℤ) (keys : List Bytes), 1 ≤ bitsPerKey → (∀ key ∈ keys, key ∈ S) →
        SafeSize bitsPerKey keys.length →
          OneFormat sort sort' bitsPerKey keys leveldb pebblesdb) ↔
      ∀ key ∈ S, SignFree key := by
  constructor
  · intro h key hkey
    have hcopies (n : ℕ) (hsafe : SafeSize 1 n) :
        OneFormat sort sort' 1 (List.replicate n key) leveldb pebblesdb := by
      refine h 1 (List.replicate n key) le_rfl (fun k hk => ?_) ?_
      · rw [List.eq_of_mem_replicate hk]
        exact hkey
      · rwa [List.length_replicate]
    exact (leveldbHash_eq_iff key bloomSeed).1 (hash_eq_of_oneFormat hcopies)
  · intro h bitsPerKey keys _ hkeys hsize
    exact oneFormat_of_agreeOn sort sort' hsize fun key hkey seed =>
      (leveldbHash_eq_iff key seed).2 (h key (hkeys key hkey))

/-- A key of one byte, 128, with ten bits per key: PebblesDB does not find it in the filter
that LevelDB wrote. -/
theorem highByte_lost : ∃ p E, newRibbonFilterPolicy 10 = some p ∧
    p.createFilter leveldb.hash (StdSort.stable _) [[0x80]] [] = .ok E ∧
    p.createFilter pebblesdb.hash (StdSort.stable _) [[0x80]] [] ≠ .ok E ∧
    p.keyMayMatch pebblesdb.hash [0x80] E = .ok false :=
  ⟨_, [4, 128, 8, 0, 1, 0, 2, 64, 0, 0, 0, 0, 64, 0, 0, 0, 6, 2, 1, 183], rfl,
    by decide, by decide, by decide⟩

end PackedFilters
