import PackedFilters.LevelDbSafety
import PackedFilters.LevelDb.InternalKey
import PackedFilters.Ribbon.Policy
import PackedFilters.Xor.Policy

/-!
# The filter policies a table is built with

The `FilterPolicy` interface, its three implementations in LevelDB and PebblesDB, and
`InternalFilterPolicy`, which takes the sequence number off a key before it asks one of
them.

A table asks two things of a policy (`FilterPolicy.Sound`): the filter of some keys has each
of them, and the reader answers for any key, without a fault.  For the Ribbon and the Xor
policy the second is not clear from the first, since their readers can be led outside a
filter that no builder wrote; it holds because what their builders write is never a Bloom
encoding without an array (`HasArray`).  The Bloom policy's reader answers on any bytes.

`CreateFilter` takes the number of keys as an `int`.  A caller that has more of them casts
the number, so nothing is known of such a filter, and each implementation is sound for counts
below 2^31 only, or less where its own sizes wrap earlier.

* `FilterPolicy.Sound` — what a table relies on: a filter of `n` keys is appended, has
  every key that looks like one of them, and answers for every other key;
* `bloomPolicy_sound`, `ribbonPolicy_sound`, `xorPolicy_sound` — the implementations;
* `bloomPolicy_isOk` — the Bloom policy's reader answers on arbitrary bytes;
* `internalFilterPolicy_sound` — the wrapper, whose filters look at user keys.
-/

namespace PackedFilters.LevelDb

/-- The characters of a literal. -/
def literal (s : String) : Bytes := s.toList.map fun c => UInt8.ofNat c.toNat

/-- The `FilterPolicy` interface: a name, the making of a filter, and the question whether a key
may be in one. -/
structure FilterPolicy where
  /-- The characters of `Name()`. -/
  name : Bytes
  /-- `CreateFilter(keys, n, dst)`: the new contents of `*dst`.  `n` is an `int`, so what
  this does on 2^31 keys or more stands for no call. -/
  createFilter : List Bytes → Bytes → Checked Bytes
  /-- `KeyMayMatch(key, filter)`. -/
  keyMayMatch : Bytes → Bytes → Checked Bool

/-- A filter over these keys: it has every key that looks like one of them through
`view`, and it answers for every key. -/
structure FilterPolicy.Covers (p : FilterPolicy) (view : Bytes → Bytes) (keys : List Bytes)
    (filter : Bytes) : Prop where
  mayMatch : ∀ key, view key ∈ keys.map view → p.keyMayMatch key filter = .ok true
  isOk : ∀ key, ∃ b, p.keyMayMatch key filter = .ok b

/-- What a table relies on, for filters of `n` keys with `fits n`: `CreateFilter` appends one
that covers its keys, and the empty filter of a block without keys is answered too. -/
structure FilterPolicy.Sound (p : FilterPolicy) (view : Bytes → Bytes) (fits : ℕ → Prop) :
    Prop where
  create : ∀ keys, keys ≠ [] → fits keys.length → ∀ dst,
    ∃ filter, p.createFilter keys dst = .ok (dst ++ filter) ∧ p.Covers view keys filter
  empty : ∀ key, ∃ b, p.keyMayMatch key [] = .ok b

/-! ## The built-in Bloom policy -/

/-- `BloomFilterPolicy` of `util/bloom.cc`, with `bits_per_key_` and `k_`. -/
structure BloomFilterPolicy where
  bitsPerKey : ℕ
  k : ℕ
  k_pos : 1 ≤ k
  k_le : k ≤ 30

/-- The constructor; `k_` is computed as `BloomProbeCount` of the other filters is. -/
def newBloomFilterPolicy (bitsPerKey : ℕ) : BloomFilterPolicy where
  bitsPerKey := bitsPerKey
  k := bloomProbeCount bitsPerKey
  k_pos := bloomProbeCount_pos bitsPerKey
  k_le := bloomProbeCount_le bitsPerKey

namespace BloomFilterPolicy

/-- `BloomHash`: the hash the probes of a key start at. -/
def bloomHash (hash : HashFunction) (key : Bytes) : UInt32 := hash key 0xbc9f1d34

/-- The bytes of the array `CreateFilter` allots to `n` keys. -/
def byteCount (p : BloomFilterPolicy) (n : ℕ) : ℕ :=
  let bits := u64 (n * p.bitsPerKey)
  let bits := if bits < 64 then 64 else bits
  u64 (bits + 7) / 8

/-- `CreateFilter`: a cleared array and the number of probes are appended to `*dst`, and the
probes of every key are set in the array. -/
def createFilter (p : BloomFilterPolicy) (hash : HashFunction) (keys : List Bytes) (dst : Bytes) :
    Checked Bytes :=
  let bytes := p.byteCount keys.length
  let bits := bytes * 8
  let initSize := dst.length
  let dst := dst ++ List.replicate bytes 0 ++ [UInt8.ofNat p.k]
  addBloomHashes initSize bits p.k (keys.map (bloomHash hash)) dst

/-- `KeyMayMatch`: whether all probes of the key are set.  The number of probes is the
filter's own, read from its last byte; above 30 it is one of a later encoding, which matches
always. -/
def keyMayMatch (hash : HashFunction) (key filter : Bytes) : Checked Bool :=
  let len := filter.length
  if len < 2 then .ok false
  else do
    let bits := (len - 1) * 8
    let k ← readByte filter (len - 1)
    if 30 < k.toNat then .ok true
    else
      let h := bloomHash hash key
      testProbes filter bits k.toNat h (bloomDelta h)

variable (p : BloomFilterPolicy)

/-- The array has bytes, unless rounding up wraps. -/
theorem byteCount_pos {n : ℕ} (h : n * p.bitsPerKey < 18446744073709551609) :
    8 ≤ p.byteCount n := by
  have hbits : ∀ bits, 64 ≤ bits → bits < 18446744073709551609 → 8 ≤ u64 (bits + 7) / 8 :=
    fun bits h64 hlt => by
      rw [u64_of_lt (by omega)]
      omega
  rw [byteCount]
  simp only [u64_of_lt (by omega : n * p.bitsPerKey < 18446744073709551616)]
  split
  · decide
  · exact hbits _ (by omega) h

/-- What the reader makes of an array with its number of probes behind it. -/
theorem keyMayMatch_append (hash : HashFunction) (key : Bytes) {array : Bytes} (hne : array ≠ [])
    {k : ℕ} (hk : k ≤ 30) :
    keyMayMatch hash key (array ++ [UInt8.ofNat k])
      = testProbes (array ++ [UInt8.ofNat k]) (array.length * 8) k (bloomHash hash key)
          (bloomDelta (bloomHash hash key)) := by
  have hlen := List.length_pos_iff.2 hne
  have hnat : (UInt8.ofNat k).toNat = k := toNat_ofNat8 (by omega)
  have hlast : (array ++ [UInt8.ofNat k]).length - 1 = array.length := by simp
  rw [keyMayMatch]
  simp only
  rw [if_neg (by simp; omega), hlast, readByte_of_lt (by simp), ok_bind,
    List.getD_append_right _ _ _ _ le_rfl, Nat.sub_self, List.getD_cons_zero, hnat,
    if_neg (by omega)]

end BloomFilterPolicy

/-- The Bloom policy as a `FilterPolicy`. -/
def bloomPolicy (p : BloomFilterPolicy) (hash : HashFunction) : FilterPolicy where
  name := literal "leveldb.BuiltinBloomFilter2"
  createFilter := p.createFilter hash
  keyMayMatch := BloomFilterPolicy.keyMayMatch hash

/-- On any bytes the reader answers: its probes stay inside the array they are taken from. -/
theorem bloomPolicy_isOk (p : BloomFilterPolicy) (hash : HashFunction) (key filter : Bytes) :
    ∃ answer, (bloomPolicy p hash).keyMayMatch key filter = .ok answer := by
  show ∃ answer, BloomFilterPolicy.keyMayMatch hash key filter = .ok answer
  rw [BloomFilterPolicy.keyMayMatch]
  simp only
  split
  · exact ⟨false, rfl⟩
  · rw [readByte_of_lt (by omega), ok_bind]
    split
    · exact ⟨true, rfl⟩
    · exact testProbes_isOk (by omega) (by omega) _ _ _

/-- **The Bloom policy is sound**, as long as the keys can be counted in an `int` and the
number of their bits can be rounded up to bytes. -/
theorem bloomPolicy_sound (p : BloomFilterPolicy) (hash : HashFunction) :
    (bloomPolicy p hash).Sound id
      fun n => n < 2147483648 ∧ n * p.bitsPerKey < 18446744073709551609 where
  create keys _ hfits dst := by
    have h8 := p.byteCount_pos hfits.2
    obtain ⟨out, hout, hlen, -, haccept⟩ := addBloomHashes_replicate
      (by omega : 0 < p.byteCount keys.length * 8) (Nat.dvd_mul_left 8 _) p.k
      (keys.map (BloomFilterPolicy.bloomHash hash))
    rw [Nat.mul_div_cancel _ (by norm_num)] at hout hlen
    have hne : out ≠ [] := List.length_pos_iff.1 (by omega)
    refine ⟨out ++ [UInt8.ofNat p.k], ?_, fun key hkey => ?_, fun key => ?_⟩
    · show p.createFilter hash keys dst = _
      rw [BloomFilterPolicy.createFilter]
      simp only [List.append_assoc]
      exact addBloomHashes_frame dst [UInt8.ofNat p.k] _ _ _ hout
    · rw [List.map_id] at hkey
      show BloomFilterPolicy.keyMayMatch hash key _ = _
      rw [BloomFilterPolicy.keyMayMatch_append hash key hne p.k_le, hlen]
      exact haccept _ _ (List.mem_map_of_mem hkey)
    · show ∃ b, BloomFilterPolicy.keyMayMatch hash key _ = .ok b
      rw [BloomFilterPolicy.keyMayMatch_append hash key hne p.k_le, hlen]
      exact testProbes_isOk (by omega) (by simp; omega) _ _ _
  empty key := ⟨false, rfl⟩

/-! ## The Ribbon and the Xor policy -/

/-- Both readers answer on what their builders wrote: it is no Bloom filter without an
array. -/
theorem matchEncoding_isOk {magic mainType : UInt8} {start : Trailer → UInt32}
    {main : Trailer → ℕ → Checked Bool} {filter : Bytes}
    (hbloom : ∀ t, HasTrailer filter t → t.type = kEncodingBloom → filter.length ≠ kTrailerSize)
    (hmain : ∀ t, ∃ b, main t (filter.length - kTrailerSize) = .ok b) :
    ∃ b, matchEncoding magic mainType
      (fun t size => bloomMayMatch (start t) filter size t.lengthOrBits.toNat t.aux.toNat) main
      filter = .ok b := by
  by_cases hshort : filter.length < kTrailerSize
  · exact ⟨true, matchEncoding_short hshort⟩
  obtain ⟨t, ht⟩ := exists_hasTrailer (not_lt.1 hshort)
  by_cases hformat : t.magic = magic ∧ t.version = kFormatVersion
  · rw [matchEncoding_of_format ht hformat.1 hformat.2]
    split
    · exact ⟨_, rfl⟩
    split
    · exact ⟨_, rfl⟩
    split
    · rename_i htype
      have hlen : filter.length - kTrailerSize ≠ 0 := by
        have := hbloom t ht htype
        have := ht.length_le
        omega
      have hconservative := bloomMayMatch_of_not_wrapped (start t) t.lengthOrBits.toNat_lt
        (Nat.sub_le filter.length kTrailerSize)
        fun h : _ ∧ _ ∧ 1 ≤ t.aux.toNat ∧ _ => hlen h.1
      obtain ⟨b, hb, -⟩ := hconservative
      exact ⟨b, hb⟩
    split
    · exact ⟨_, rfl⟩
    · exact hmain t
  · exact ⟨true, matchEncoding_foreign ht (by rwa [← not_and_or])⟩

/-- A filter is not a Bloom filter without an array. -/
def HasArray (filter : Bytes) : Prop :=
  ∀ t, HasTrailer filter t → t.type = kEncodingBloom → filter.length ≠ kTrailerSize

theorem hasArray_of_type {filter : Bytes} {t : Trailer} (ht : HasTrailer filter t)
    (htype : t.type ≠ kEncodingBloom) : HasArray filter := fun _ ht' h =>
  absurd (ht'.unique ht ▸ h) htype

theorem hasArray_nil : HasArray [] := fun _ _ _ h => absurd h (by decide)

theorem hasArray_buildBloomEncoding {magic : UInt8} {hashes : List UInt32} {bitsPerKey : ℕ}
    {seed : UInt32} {E : Bytes} (h : buildBloomEncoding magic hashes bitsPerKey seed [] = .ok E) :
    HasArray E := by
  intro t ht htype hlen
  obtain ⟨t', ht', htype'⟩ := buildBloomEncoding_type h hlen
  rw [ht.unique ht', htype'] at htype
  exact absurd htype (by decide)

/-- The Ribbon policy as a `FilterPolicy`. -/
def ribbonPolicy (p : Ribbon.RibbonFilterPolicy) (hash : HashFunction) (sort : Ribbon.RowSort) :
    FilterPolicy where
  name := literal "proyecto-soa.RibbonFilter64Packed.v1"
  createFilter := p.createFilter hash sort
  keyMayMatch := p.keyMayMatch hash

/-- The Xor policy as a `FilterPolicy`. -/
def xorPolicy (p : Xor.XorFilterPolicy) (hash : HashFunction) : FilterPolicy where
  name := literal "proyecto-soa.XorFilter3Packed.v1"
  createFilter := p.createFilter hash
  keyMayMatch := p.keyMayMatch hash

theorem ribbon_keyMayMatch_isOk (p : Ribbon.RibbonFilterPolicy) (hash : HashFunction)
    (key : Bytes) {filter : Bytes} (h : HasArray filter) :
    ∃ b, p.keyMayMatch hash key filter = .ok b := by
  refine matchEncoding_isOk h fun t => ?_
  simp only
  split
  · exact ⟨true, rfl⟩
  · exact ribbonMayMatch_isOk (by omega) (by omega) (Nat.sub_le ..) hash key _ _

theorem xor_keyMayMatch_isOk (p : Xor.XorFilterPolicy) (hash : HashFunction) (key : Bytes)
    {filter : Bytes} (h : HasArray filter) : ∃ b, p.keyMayMatch hash key filter = .ok b := by
  refine matchEncoding_isOk h fun t => ?_
  simp only
  split
  · exact ⟨true, rfl⟩
  · split
    · exact ⟨true, rfl⟩
    · exact xorMayMatch_isOk (by omega) (by omega) (Nat.sub_le ..) hash key _ _

/-- What is appended is an encoding that the fallback built. -/
theorem hasArray_of_fallback {magic : UInt8} {hashes : List UInt32} {bitsPerKey : ℕ}
    {seed : UInt32} {dst E : Bytes}
    (h : (do
      let encoded ← buildBloomEncoding magic hashes bitsPerKey seed []
      Except.ok (dst ++ encoded) : Checked Bytes) = .ok (dst ++ E)) : HasArray E := by
  obtain ⟨B, hB, heq⟩ := bind_eq_ok h
  rw [Except.ok.injEq] at heq
  rw [← List.append_cancel_left heq]
  exact hasArray_buildBloomEncoding hB

/-- **The Ribbon policy is sound**, as long as its keys and its slots can be counted in an
`int`. -/
theorem ribbonPolicy_sound (p : Ribbon.RibbonFilterPolicy) (hash : HashFunction)
    (sort : Ribbon.RowSort) :
    (ribbonPolicy p hash sort).Sound id
      fun n => n < 2147483648 ∧ Ribbon.ribbonSlotCount n < 2147483648 where
  create keys hkeys hfits dst := by
    have hslots := hfits.2
    obtain ⟨E, hE, haccept⟩ := p.createFilter_accepts hash sort keys hkeys (fun _ => hslots) dst
    have harray : HasArray E := by
      rcases p.createFilter_cases hash sort keys hkeys hslots dst
        with ⟨-, i, -, -, slots, -, he⟩ | ⟨-, he⟩
      · have hother : Ribbon.kEncodingRibbon ≠ kEncodingBloom := by decide
        rw [he, Except.ok.injEq] at hE
        rw [← List.append_cancel_left hE]
        exact hasArray_of_type (Ribbon.RibbonFilterPolicy.hasTrailer_appendTrailer ..) hother
      · exact hasArray_of_fallback (he.symm.trans hE)
    refine ⟨E, hE, fun key hkey => ?_, fun key => ribbon_keyMayMatch_isOk p hash key harray⟩
    rw [List.map_id] at hkey
    exact haccept p key hkey
  empty key := ribbon_keyMayMatch_isOk p hash key hasArray_nil

/-- What the seed loop of the Xor policy returns is an Xor filter. -/
theorem xor_trySeeds_hasArray (p : Xor.XorFilterPolicy) (hash : HashFunction) (keys : List Bytes) :
    ∀ (tries : ℕ) (seed : UInt32) {E : Bytes},
      p.trySeeds hash keys tries seed = .ok (some E) → HasArray E := by
  have hother : Xor.kEncodingXor ≠ kEncodingBloom := by decide
  intro tries
  induction tries with
  | zero =>
    intro seed E h
    cases h
  | succ tries ih =>
    intro seed E h
    rw [Xor.XorFilterPolicy.trySeeds] at h
    simp only at h
    split at h
    · exact ih _ h
    · obtain ⟨⟨built, encoded⟩, htry, h⟩ := bind_eq_ok h
      simp only at h
      split at h
      · rename_i hbuilt
        rw [Except.ok.injEq, Option.some.injEq] at h
        rw [Xor.tryBuildXor] at htry
        split at htry
        · simp only [Except.ok.injEq, Prod.mk.injEq] at htry
          exact absurd (htry.1.trans hbuilt) (by decide)
        · obtain ⟨s, -, htry⟩ := bind_eq_ok htry
          split at htry
          · simp only [Except.ok.injEq, Prod.mk.injEq] at htry
            exact absurd (htry.1.trans hbuilt) (by decide)
          · simp only [Except.ok.injEq, Prod.mk.injEq] at htry
            rw [← h, ← htry.2, Xor.appendTrailer, appendTrailer_eq]
            exact hasArray_of_type (hasTrailer_append _ _) hother
      · exact ih _ h

theorem xor_createFilter_hasArray (p : Xor.XorFilterPolicy) (hash : HashFunction)
    {keys : List Bytes} {dst E : Bytes} (h : p.createFilter hash keys dst = .ok (dst ++ E)) :
    HasArray E := by
  have hempty (h : (Except.ok (dst ++ Xor.appendTrailer [] 0 0 0 kEncodingEmpty) : Checked Bytes)
      = .ok (dst ++ E)) : HasArray E := by
    have hother : kEncodingEmpty ≠ kEncodingBloom := by decide
    rw [Except.ok.injEq] at h
    rw [← List.append_cancel_left h, Xor.appendTrailer, appendTrailer_eq]
    exact hasArray_of_type (hasTrailer_append _ _) hother
  rw [Xor.XorFilterPolicy.createFilter] at h
  split at h
  · exact hempty h
  simp only at h
  split at h
  · exact hempty h
  split at h
  · exact hasArray_of_fallback h
  split at h
  · exact hasArray_of_fallback h
  obtain ⟨r, hr, h⟩ := bind_eq_ok h
  cases r with
  | some encoded =>
    simp only [Except.ok.injEq] at h
    rw [← List.append_cancel_left h]
    exact xor_trySeeds_hasArray p hash keys _ _ hr
  | none => exact hasArray_of_fallback h

/-- **The Xor policy is sound**, for any number of keys that is an `int`. -/
theorem xorPolicy_sound (p : Xor.XorFilterPolicy) (hash : HashFunction) :
    (xorPolicy p hash).Sound id fun n => n < 2147483648 where
  create keys hkeys _ dst := by
    obtain ⟨E, hE, haccept⟩ : ∃ E, p.createFilter hash keys dst = .ok (dst ++ E) ∧
        Xor.XorFilterPolicy.Accepts hash keys E := p.createFilter_accepts hkeys dst
    refine ⟨E, hE, fun key hkey => ?_, fun key =>
      xor_keyMayMatch_isOk p hash key (xor_createFilter_hasArray p hash hE)⟩
    rw [List.map_id] at hkey
    exact haccept p key hkey
  empty key := xor_keyMayMatch_isOk p hash key hasArray_nil

/-! ## Filters of user keys -/

/-- `InternalFilterPolicy`: the user's policy, asked about user keys. -/
def internalFilterPolicy (user : FilterPolicy) : FilterPolicy where
  name := user.name
  createFilter keys dst := user.createFilter (keys.map extractUserKey) dst
  keyMayMatch key filter := user.keyMayMatch (extractUserKey key) filter

/-- **The wrapper is sound:** its filters have every key whose user key looks like one of
theirs. -/
theorem internalFilterPolicy_sound {user : FilterPolicy} {view : Bytes → Bytes} {fits : ℕ → Prop}
    (h : user.Sound view fits) :
    (internalFilterPolicy user).Sound (fun key => view (extractUserKey key)) fits where
  create keys hkeys hfits dst := by
    obtain ⟨filter, hcreate, hcovers⟩ := h.create (keys.map extractUserKey)
      (by rwa [Ne, List.map_eq_nil_iff]) (by rwa [List.length_map]) dst
    refine ⟨filter, hcreate, fun key hkey => ?_, fun key => hcovers.isOk _⟩
    exact hcovers.mayMatch _ (by rwa [List.map_map])
  empty key := h.empty _

end PackedFilters.LevelDb
