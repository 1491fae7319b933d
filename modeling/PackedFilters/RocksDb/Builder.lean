import PackedFilters.RocksDb.Model
import PackedFilters.Xor.Table

/-!
# What `Finish` of the RocksDB builder returns

`Finish` has three ways to go on from the sorted hashes: without keys it returns a trailer
alone, with a width or a size it does not want it builds the Bloom fallback at once, and else
it runs the seed loop and falls back when no seed peels.  Each of them is described here by
what it returns, and the conditions are on the sizes and on the hashes, not on the builder's
variables.

The sizes are where the work is.  They are 32-bit numbers that could wrap, but a table that
wrapped is shorter than the number of hashes, and then the loop is not entered: so wherever
it runs, all sizes are exact.

* `mixHash_injective` — mixing with a seed keeps distinct hashes distinct;
* `LoopRuns` — the sizes for which the seed loop runs; there no 32-bit number of `Finish`
  wraps (`LoopRuns.sizes`);
* `peelSeed_exact`, `trySeeds_cases` — one seed, and the loop over the seeds;
* `buildBloomFallback_ok`, `buildBloomFallback_fault` — the fallback, and its remainder by
  zero;
* `finishHashes_cases` — the ways `Finish` ends;
* `addKeys_eq`, `mem_pushHashes` — `AddKey` on the hashes, and what it keeps of them.
-/

namespace PackedFilters.RocksDb

open PackedFilters.Xor

/-! ## `MixHash` -/

/-- Folding the high bits of a word into its low bits undoes itself. -/
theorem xorShift_involutive : Function.Involutive fun w : UInt64 => w ^^^ shr64 w 33 := by
  intro w
  simp only
  rw [← UInt64.toNat_inj]
  refine Nat.eq_of_testBit_eq fun i => ?_
  have hshift := testBit_shr64 (w ^^^ shr64 w 33) (by norm_num : 33 < 64) i
  have hlow := testBit_shr64 w (by norm_num : 33 < 64)
  have hhigh := testBit_of_ge w (by omega : 64 ≤ 33 + (33 + i))
  rw [UInt64.toNat_xor, Nat.testBit_xor, hshift, UInt64.toNat_xor, Nat.testBit_xor,
    Nat.testBit_xor, hlow, hlow, hhigh]
  simp

theorem mul_injective {c d : UInt64} (h : c * d = 1) : Function.Injective fun w : UInt64 => w * c :=
  Function.LeftInverse.injective (g := fun w => w * d) fun w => by
    simp only [UInt64.mul_assoc, h, UInt64.mul_one]

/-- **`MixHash` keeps distinct hashes distinct**: each of its steps can be undone. -/
theorem mixHash_injective (seed : UInt32) : Function.Injective fun hash => mixHash hash seed := by
  have hseed : Function.Injective fun hash : UInt64 =>
      hash ^^^ (seed.toUInt64 * 0x9e3779b97f4a7c15) := fun a b hab =>
    UInt64.xor_left_inj _ |>.1 hab
  have hfirst := mul_injective (by decide : (0xff51afd7ed558ccd : UInt64) * 0x4f74430c22a54005 = 1)
  have hsecond := mul_injective (by decide : (0xc4ceb9fe1a85ec53 : UInt64) * 0x9cb4b2f8129337db = 1)
  exact xorShift_involutive.injective.comp
    (hsecond.comp (xorShift_involutive.injective.comp (hfirst.comp hseed)))

/-- The hashes one seed peels. -/
def mixedHashes (hashes : List UInt64) (seed : UInt32) : List UInt64 :=
  hashes.map fun hash => mixHash hash seed

theorem mixedHashes_nodup {hashes : List UInt64} (h : hashes.Nodup) (seed : UInt32) :
    (mixedHashes hashes seed).Nodup := h.map (mixHash_injective seed)

theorem mem_mixedHashes {hashes : List UInt64} {h : UInt64} (hh : h ∈ hashes) (seed : UInt32) :
    mixHash h seed ∈ mixedHashes hashes seed := List.mem_map_of_mem hh

/-! ## Sizes -/

/-- The sizes for which `Finish` gets to the seed loop.  Its test
`table_size > 0xffffffffu` is not among them: a 32-bit number never exceeds that. -/
structure LoopRuns (bitsPerKey keyCount : ℕ) : Prop where
  bits_pos : 1 ≤ bitsPerKey
  bits_le : bitsPerKey ≤ 16
  length_ne : blockLength keyCount ≠ 0
  count_le : keyCount ≤ tableSize keyCount

instance (bitsPerKey keyCount : ℕ) : Decidable (LoopRuns bitsPerKey keyCount) :=
  decidable_of_iff (1 ≤ bitsPerKey ∧ bitsPerKey ≤ 16 ∧ blockLength keyCount ≠ 0 ∧
      keyCount ≤ tableSize keyCount)
    ⟨fun h => ⟨h.1, h.2.1, h.2.2.1, h.2.2.2⟩,
      fun h => ⟨h.bits_pos, h.bits_le, h.length_ne, h.count_le⟩⟩

/-- The sizes of `Finish` without any wrap. -/
structure ExactSizes (keyCount : ℕ) : Prop where
  capacity_eq : capacity keyCount = keyCount * 123 / 100 + 32
  blockLength_eq : blockLength keyCount = (keyCount * 123 / 100 + 32) / 3
  tableSize_eq : tableSize keyCount = 3 * blockLength keyCount
  pos : 0 < blockLength keyCount
  le : 3 * blockLength keyCount ≤ 4294967295

/-- **Nothing wraps when the loop runs.**  A table that wrapped has fewer positions
than there are hashes. -/
theorem LoopRuns.sizes {bitsPerKey keyCount : ℕ} (h : LoopRuns bitsPerKey keyCount) :
    ExactSizes keyCount := by
  have hcount := h.count_le
  have htable : tableSize keyCount < 4294967296 := u32_lt _
  have hcapacity : capacity keyCount = keyCount * 123 / 100 + 32 := by
    rw [capacity, kCapacityNumerator, kCapacityDenominator, kCapacitySlack,
      u64_of_lt (by omega : keyCount * 123 < 18446744073709551616), u64_of_lt (by omega)]
  have hblock : blockLength keyCount = (keyCount * 123 / 100 + 32) / 3 := by
    rw [blockLength, hcapacity, u32_of_lt (by omega)]
  have hfits : 3 * blockLength keyCount < 4294967296 := by
    by_contra hlarge
    have hwrap : tableSize keyCount = 3 * blockLength keyCount - 4294967296 := by
      show u32 (3 * blockLength keyCount) = _
      rw [u32]
      omega
    omega
  exact ⟨hcapacity, hblock, u32_of_lt hfits, Nat.pos_of_ne_zero h.length_ne, by omega⟩

/-- A bit count that is not zero was not cut off. -/
theorem bloomBitCount_bound {n b : ℕ} (hfits : n * b ≤ 18446744073709551608)
    (h : bloomBitCount n b ≠ 0) : n * b ≤ 4294967288 := by
  by_contra hlarge
  have hcut (bits : ℕ) (h1 : 4294967288 < bits) (h2 : bits ≤ 18446744073709551608) :
      4294967295 < u64 (bits + 7) / 8 * 8 := by
    rw [u64_of_lt (by omega)]
    omega
  have hword : u64 (n * b) = n * b := u64_of_lt (by omega)
  refine h ?_
  rw [bloomBitCount, hword, if_neg (by omega : ¬ n * b < 64)]
  exact if_pos (hcut _ (not_le.1 hlarge) hfits)

/-! ## The seed loop -/

variable {L : ℕ} {hashes : List UInt64}

/-- **One seed** peels all the hashes exactly when, mixed with it, they contain no
core. -/
theorem peelSeed_exact (hL : 0 < L) (h3 : 3 * L ≤ 4294967295) (hnodup : hashes.Nodup)
    (seed : UInt32) :
    ∃ s, peelSeed L hashes seed = .ok s ∧ PeelRun L (mixedHashes hashes seed) s ∧
      (s.peelOrder.length = hashes.length ↔ ¬ HasCore L (mixedHashes hashes seed)) := by
  obtain ⟨s, hs, hrun, hexact⟩ := peelHashes_exact hL h3 (mixedHashes_nodup hnodup seed)
  rw [mixedHashes, List.length_map] at hexact
  exact ⟨s, hs, hrun, hexact⟩

/-- **The seed loop** ends: with the first seed that leaves no core and a peel order
whose table answers every mixed hash, or without one when all of them leave a core. -/
theorem trySeeds_cases (hL : 0 < L) (h3 : 3 * L ≤ 4294967295) (hnodup : hashes.Nodup) :
    ∀ (tries : ℕ) (seed : UInt32),
      (∃ i < tries, ¬ HasCore L (mixedHashes hashes (seed + UInt32.ofNat i)) ∧
        ∃ order, trySeeds L hashes tries seed = .ok (some (seed + UInt32.ofNat i, order)) ∧
          ∀ bits ≤ 16, XorTable L bits (mixedHashes hashes (seed + UInt32.ofNat i))
            (assignFingerprints L bits order)) ∨
      ((∀ i < tries, HasCore L (mixedHashes hashes (seed + UInt32.ofNat i))) ∧
        trySeeds L hashes tries seed = .ok none) := by
  intro tries
  induction tries with
  | zero => exact fun seed => Or.inr ⟨fun i hi => absurd hi (Nat.not_lt_zero i), rfl⟩
  | succ tries ih =>
    intro seed
    have hzero : seed + UInt32.ofNat 0 = seed := UInt32.add_zero seed
    have hsucc (i : ℕ) : seed + UInt32.ofNat (i + 1) = seed + 1 + UInt32.ofNat i := by
      rw [UInt32.ofNat_add, UInt32.add_comm (UInt32.ofNat i), ← UInt32.add_assoc]
      rfl
    obtain ⟨s, hs, hrun, hexact⟩ := peelSeed_exact hL h3 hnodup seed
    rw [Nat.exists_lt_succ_left, Nat.forall_lt_succ_left, trySeeds, hs, ok_bind, hzero]
    simp only [hsucc]
    by_cases hall : s.peelOrder.length = hashes.length
    · rw [if_pos hall]
      refine Or.inl (Or.inl ⟨hexact.1 hall, _, rfl, fun bits hbits => ?_⟩)
      refine xorTable_of_peeled hL h3 hbits (mixedHashes_nodup hnodup seed) hrun ?_
      rw [hall, mixedHashes, List.length_map]
    · rw [if_neg hall, and_assoc]
      have hcore : HasCore L (mixedHashes hashes seed) := not_not.1 (mt hexact.2 hall)
      exact (ih (seed + 1)).imp Or.inr fun h => ⟨hcore, h⟩

/-- The seed loop runs, and one of its seeds leaves no core. -/
def Solvable (bitsPerKey : ℕ) (hashes : List UInt64) : Prop :=
  LoopRuns bitsPerKey hashes.length ∧ ∃ i < kMaxSeedTries,
    ¬ HasCore (blockLength hashes.length) (mixedHashes hashes (UInt32.ofNat i))

/-! ## The fallback -/

/-- **The fallback with a bit count**: an array in which the reader's probes find every
hash. -/
theorem buildBloomFallback_ok (hashes : List UInt64) {bitsPerKey : ℕ}
    (hbits : bloomBitCount hashes.length bitsPerKey ≠ 0) :
    ∃ payload, buildBloomFallback hashes bitsPerKey
        = .ok (appendTrailer payload (UInt32.ofNat (bloomBitCount hashes.length bitsPerKey)) 0
            (UInt8.ofNat (bloomProbeCount bitsPerKey))) ∧
      payload.length = bloomBitCount hashes.length bitsPerKey / 8 ∧
      ∀ rest, ∀ h ∈ hashes, testProbes (payload ++ rest)
        (bloomBitCount hashes.length bitsPerKey) (bloomProbeCount bitsPerKey) h.toUInt32
        (bloomDelta h.toUInt32) = .ok true := by
  obtain ⟨h64, -, h8⟩ := (bloomBitCount_range hashes.length bitsPerKey).resolve_left hbits
  obtain ⟨payload, hpayload, hlen, -, haccept⟩ := addBloomHashes_replicate (by omega) h8
    (bloomProbeCount bitsPerKey) (hashes.map UInt64.toUInt32)
  refine ⟨payload, ?_, hlen, fun rest h hh => haccept rest _ (List.mem_map_of_mem hh)⟩
  unfold buildBloomFallback
  simp only [hpayload, ok_bind]

/-- **The fallback without one**: the first probe takes a remainder by zero. -/
theorem buildBloomFallback_fault (hne : hashes ≠ []) {bitsPerKey : ℕ}
    (hbits : bloomBitCount hashes.length bitsPerKey = 0) :
    buildBloomFallback hashes bitsPerKey = .error .remainderByZero := by
  obtain ⟨h, rest, rfl⟩ := List.exists_cons_of_ne_nil hne
  obtain ⟨probes, hprobes⟩ := Nat.exists_eq_add_of_le' (bloomProbeCount_pos bitsPerKey)
  unfold buildBloomFallback
  simp only [hbits, hprobes, List.map_cons, addBloomHashes, List.foldlM_cons, setProbes, if_true,
    error_bind]

/-! ## `Finish` -/

/-- `Finish` on some hashes: the seed loop for the sizes of `LoopRuns`, and the fallback
for all others. -/
theorem finishHashes_eq (bitsPerKey : ℕ) (hne : hashes ≠ []) :
    finishHashes bitsPerKey hashes =
      if LoopRuns bitsPerKey hashes.length then do
        match ← trySeeds (blockLength hashes.length) hashes kMaxSeedTries 0 with
        | none => buildBloomFallback hashes bitsPerKey
        | some (bestSeed, peelOrder) =>
          .ok (appendTrailer (appendPackedValues
              (assignFingerprints (blockLength hashes.length) (computeFingerprintBits bitsPerKey)
                peelOrder)
              (computeFingerprintBits bitsPerKey) []) bestSeed
            (UInt32.ofNat (blockLength hashes.length))
            (UInt8.ofNat (computeFingerprintBits bitsPerKey)))
      else buildBloomFallback hashes bitsPerKey := by
  have hlen : hashes.length ≠ 0 := fun h => hne (List.eq_nil_of_length_eq_zero h)
  have htable : tableSize hashes.length < 4294967296 := u32_lt _
  unfold finishHashes
  simp only
  rw [if_neg hlen]
  by_cases hruns : LoopRuns bitsPerKey hashes.length
  · have hb1 := hruns.bits_pos
    have hb16 := hruns.bits_le
    have hcount := hruns.count_le
    have hlength := hruns.length_ne
    rw [if_pos hruns, if_neg (by omega : ¬ (bitsPerKey ≤ 0 ∨ 16 < bitsPerKey))]
    exact if_neg (by omega)
  · rw [if_neg hruns]
    by_cases hb : bitsPerKey ≤ 0 ∨ 16 < bitsPerKey
    · rw [if_pos hb]
    · rw [if_neg hb]
      refine if_pos ?_
      by_contra hsmall
      exact hruns ⟨by omega, by omega, by omega, by omega⟩

/-- **The ways `Finish` ends** on distinct hashes: with a table that answers all of them
under one seed, or with the fallback. -/
theorem finishHashes_cases (bitsPerKey : ℕ) (hne : hashes ≠ []) (hnodup : hashes.Nodup) :
    (Solvable bitsPerKey hashes ∧ ∃ seed table,
        XorTable (blockLength hashes.length) (computeFingerprintBits bitsPerKey)
          (mixedHashes hashes seed) table ∧
        finishHashes bitsPerKey hashes
          = .ok (appendTrailer (appendPackedValues table (computeFingerprintBits bitsPerKey) [])
              seed (UInt32.ofNat (blockLength hashes.length))
              (UInt8.ofNat (computeFingerprintBits bitsPerKey)))) ∨
      (¬ Solvable bitsPerKey hashes ∧
        finishHashes bitsPerKey hashes = buildBloomFallback hashes bitsPerKey) := by
  rw [finishHashes_eq bitsPerKey hne]
  by_cases hruns : LoopRuns bitsPerKey hashes.length
  · have hsizes := hruns.sizes
    have hseed (i : ℕ) : (0 : UInt32) + UInt32.ofNat i = UInt32.ofNat i := UInt32.zero_add _
    rw [if_pos hruns]
    rcases trySeeds_cases hsizes.pos hsizes.le hnodup kMaxSeedTries 0
      with ⟨i, hi, hcore, order, he, htable⟩ | ⟨hcores, he⟩
    · rw [hseed] at hcore he htable
      refine Or.inl ⟨⟨hruns, i, hi, hcore⟩, _, _, htable _ (packedWidth_le bitsPerKey), ?_⟩
      rw [he, ok_bind]
    · simp only [hseed] at hcores
      refine Or.inr ⟨?_, by rw [he, ok_bind]⟩
      rintro ⟨-, i, hi, hcore⟩
      exact hcore (hcores i hi)
  · exact Or.inr ⟨fun h => hruns h.1, if_neg hruns⟩

/-! ## `AddKey` -/

namespace XorFilterBitsBuilder

variable {sliceHash : SliceHash}

/-- What `AddKey` does to the vector, on the key's hash. -/
def pushHash (entries : List UInt64) (hash : UInt64) : List UInt64 :=
  if entries = [] ∨ some hash ≠ entries.getLast? then entries ++ [hash] else entries

/-- The vector after several of them. -/
def pushHashes (entries hashes : List UInt64) : List UInt64 := hashes.foldl pushHash entries

theorem addKeys_eq (keys : List Bytes) : ∀ b : XorFilterBitsBuilder,
    b.addKeys sliceHash keys = ⟨b.bitsPerKey, pushHashes b.hashEntries (keys.map sliceHash)⟩ := by
  induction keys with
  | nil => exact fun b => rfl
  | cons key keys ih =>
    intro b
    have hstep : b.addKey sliceHash key = ⟨b.bitsPerKey, pushHash b.hashEntries (sliceHash key)⟩ := by
      unfold addKey pushHash
      simp only
      split <;> rfl
    rw [addKeys, List.foldl_cons, ← addKeys, ih, hstep]
    rfl

theorem mem_pushHash {entries : List UInt64} {hash x : UInt64} :
    x ∈ pushHash entries hash ↔ x ∈ entries ∨ x = hash := by
  unfold pushHash
  split
  · rw [List.mem_append, List.mem_singleton]
  · rename_i hlast
    push Not at hlast
    have hmem : hash ∈ entries := List.mem_of_getLast? hlast.2.symm
    exact (or_iff_left_of_imp fun hx => hx ▸ hmem).symm

/-- `AddKey` drops no hash. -/
theorem mem_pushHashes {x : UInt64} (hashes : List UInt64) : ∀ {entries : List UInt64},
    x ∈ pushHashes entries hashes ↔ x ∈ entries ∨ x ∈ hashes := by
  induction hashes with
  | nil => simp [pushHashes]
  | cons h hashes ih =>
    intro entries
    rw [pushHashes, List.foldl_cons, ← pushHashes, ih, mem_pushHash, List.mem_cons, or_assoc]

/-- `Finish` sees the distinct hashes of the keys. -/
theorem sortUnique_addKeys (bitsPerKey : ℕ) (keys : List Bytes) :
    sortUnique ((new bitsPerKey).addKeys sliceHash keys).hashEntries
      = sortUnique (keys.map sliceHash) :=
  sortUnique_eq_of_mem_iff fun x => by
    rw [addKeys_eq, mem_pushHashes, new]
    simp

end XorFilterBitsBuilder

end PackedFilters.RocksDb
