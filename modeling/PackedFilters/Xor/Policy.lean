import PackedFilters.Codec.Hash
import PackedFilters.Xor.Table

/-!
# The Xor policy of LevelDB end to end

`CreateFilter` tries 64 seeds.  Each seed has hashes of its own, sorted and without
repetition, so their number and with it the block length change from seed to seed, while
the decision whether an Xor filter pays is made once, on the hashes of seed 0.  A seed is
rejected when its hashes have no block length or contain a core (`Rejects`); the loop stops
at the first one that is not, and every other way out is a Bloom fallback of the hashes of
seed 0.  `Exit` says for each of these ways which bytes are appended, down to the trailer.

* `tryBuildXor_cases` — one seed: a table that accepts its hashes, or `false` when
  they contain a core;
* `trySeeds_cases` — the loop over the seeds, from one round of it (`trySeeds_succ`);
* `createFilter_mayMatch` — what `CreateFilter` appends, and that no key is lost: the
  reader of any instance of the policy accepts every key, whatever its own `bits_per_key`.
-/

namespace PackedFilters.Xor

open LittleEndian

/-! ## One seed -/

/-- A block length is zero, which skips the seed, or the table fits in 32 bits. -/
theorem computeBlockLength_range (n : ℕ) : computeBlockLength n = 0 ∨
    0 < computeBlockLength n ∧ 3 * computeBlockLength n ≤ 4294967295 := by
  have hguard (b r : ℕ) (hr : r = if b = 0 ∨ 4294967295 / 3 < b then 0 else b) :
      r = 0 ∨ 0 < r ∧ 3 * r ≤ 4294967295 := by
    split at hr <;> omega
  rw [computeBlockLength]
  split
  · exact Or.inl rfl
  · exact hguard _ _ rfl

/-- **What `TryBuildXor` returns** for distinct hashes: a table that accepts them,
packed and framed, or `false` and the old `encoded` when they contain a core. -/
theorem tryBuildXor_cases {L bits : ℕ} (hL : 0 < L) (h3 : 3 * L ≤ 4294967295) (hbits : bits ≤ 16)
    {hashes : List UInt64} (hne : hashes ≠ []) (hnodup : hashes.Nodup) (encoded : Bytes)
    (seed : UInt32) :
    (¬ HasCore L hashes ∧ ∃ table, XorTable L bits hashes table ∧
        tryBuildXor hashes L bits encoded seed
          = .ok (true, appendTrailer (appendPackedValues table bits encoded) seed (UInt32.ofNat L)
              (UInt8.ofNat bits) kEncodingXor)) ∨
      (HasCore L hashes ∧ tryBuildXor hashes L bits encoded seed = .ok (false, encoded)) := by
  obtain ⟨s, hs, hrun, hexact⟩ := peelHashes_exact hL h3 hnodup
  rw [tryBuildXor, if_neg (not_or.2 ⟨hne, hL.ne'⟩), hs, ok_bind]
  by_cases hall : s.peelOrder.length = hashes.length
  · refine Or.inl ⟨hexact.1 hall, _, xorTable_of_peeled hL h3 hbits hnodup hrun hall, ?_⟩
    rw [if_neg (not_not.2 hall)]
  · exact Or.inr ⟨not_not.1 (mt hexact.2 hall), if_pos hall⟩

namespace XorFilterPolicy

/-! ## The encodings -/

/-- Every instance of the policy finds every key. -/
def Accepts (hash : HashFunction) (keys : List Bytes) (encoded : Bytes) : Prop :=
  ∀ (q : XorFilterPolicy), ∀ key ∈ keys, q.keyMayMatch hash key encoded = .ok true

/-- The encoding of a table. -/
def xorEncoding (table : List UInt32) (L bits : ℕ) (seed : UInt32) : Bytes :=
  appendTrailer (appendPackedValues table bits []) seed (UInt32.ofNat L) (UInt8.ofNat bits)
    kEncodingXor

variable {hash : HashFunction} {keys : List Bytes}

theorem xorHash64_mem {key : Bytes} (hkey : key ∈ keys) (seed : UInt32) :
    xorHash64 hash key seed ∈ buildUniqueHashes hash keys seed :=
  mem_sortUnique.2 (List.mem_map_of_mem (f := fun key => xorHash64 hash key seed) hkey)

variable (hash keys) in
/-- **The Bloom encoding** of the hashes of one seed accepts their keys. -/
theorem buildBloomEncoding_accepts (bitsPerKey : ℕ) (seed : UInt32) :
    ∃ E, buildBloomEncoding (buildUniqueHashes hash keys seed) bitsPerKey seed [] = .ok E ∧
      Accepts hash keys E := by
  obtain ⟨payload, t, hE, hbloom⟩ := PackedFilters.buildBloomEncoding_spec kFormatMagic
    ((buildUniqueHashes hash keys seed).map bloomHash) bitsPerKey seed
  have htrailer := hasTrailer_append payload t
  refine ⟨_, hE, fun q key hkey => ?_⟩
  rw [keyMayMatch]
  rcases hbloom.type_eq with htype | htype
  · exact matchEncoding_alwaysMatch htrailer hbloom.magic_eq hbloom.version_eq htype
  · rw [matchEncoding_bloom htrailer hbloom.magic_eq hbloom.version_eq htype, length_append_sub,
      hbloom.seed_eq]
    exact hbloom.mayMatch htype _ (List.mem_map_of_mem (xorHash64_mem hkey seed))

/-- **The Xor encoding** of a table accepts the keys of its hashes. -/
theorem xorEncoding_accepts {L bits : ℕ} (hL : 0 < L) (h3 : 3 * L ≤ 4294967295) (hb1 : 1 ≤ bits)
    (hbits : bits ≤ 16) {seed : UInt32} {table : List UInt32}
    (ht : XorTable L bits (buildUniqueHashes hash keys seed) table) :
    Accepts hash keys (xorEncoding table L bits seed) := by
  intro q key hkey
  obtain ⟨out, hout, hlen, hval⟩ := appendPackedValues_eq hbits table []
  rw [List.nil_append] at hout
  have hcount : (UInt32.ofNat L).toNat = L := toNat_ofNat32 (by omega)
  have haux : (UInt8.ofNat bits).toNat = bits := toNat_ofNat8 (by omega)
  have hsize : out.length = packedByteSize (tableLength L) bits := by
    rw [hlen, ht.length, tableLength_eq h3]
  have htrailer := hasTrailer_append out
    ⟨seed, UInt32.ofNat L, UInt8.ofNat bits, kEncodingXor, kFormatVersion, kFormatMagic⟩
  have hread := ht.read hL h3 hb1 hbits
    (Trailer.bytes ⟨seed, UInt32.ofNat L, UInt8.ofNat bits, kEncodingXor, kFormatVersion,
      kFormatMagic⟩) hlen hval (xorHash64_mem hkey seed)
  have hmask : (fingerprint (xorHash64 hash key seed) bits) &&& bitMask bits
      = fingerprint (xorHash64 hash key seed) bits :=
    and_bitMask_of_lt hbits (toNat_and_bitMask_lt _ hbits)
  rw [xorEncoding, hout, appendTrailer, appendTrailer_eq]
  refine (matchEncoding_main htrailer rfl rfl rfl rfl).trans ?_
  rw [length_append_sub]
  simp only [hcount, haux]
  rw [if_neg (by omega), if_neg (not_not.2 hsize), xorMayMatch, hread, ok_bind]
  simp only [hmask, beq_self_eq_true]

/-! ## The builder -/

variable (p : XorFilterPolicy)

/-- A seed the loop of `CreateFilter` passes over: its hashes have no block length that
fits in 32 bits, or they contain a core and cannot be peeled. -/
def Rejects (hash : HashFunction) (keys : List Bytes) (seed : UInt32) : Prop :=
  computeBlockLength (buildUniqueHashes hash keys seed).length = 0 ∨
    HasCore (computeBlockLength (buildUniqueHashes hash keys seed).length)
      (buildUniqueHashes hash keys seed)

/-- The sizes, taken from the hashes of seed 0, let the builder attempt an Xor filter. -/
def AttemptsXor (hash : HashFunction) (keys : List Bytes) : Prop :=
  computeBlockLength (buildUniqueHashes hash keys 0).length ≠ 0 ∧
    packedByteSize (tableLength (computeBlockLength (buildUniqueHashes hash keys 0).length))
        p.fingerprintBits + kTrailerSize
      < estimatedBloomSerializedSize (buildUniqueHashes hash keys 0).length p.bitsPerKey

/-- **The encodings of `CreateFilter`**, by the exit it takes: the Xor encoding under the
first seed that is not rejected (the packed table of that seed's hashes, whose number and
block length may differ from seed 0's, and a trailer), the Bloom fallback because an Xor
filter is too long or not smaller, and the Bloom fallback after 64 rejected seeds.  Both
fallbacks are built from the hashes of seed 0, and are the always-match marker where no
bit count fits in 32 bits (`FallbackFormat`). -/
inductive Exit (hash : HashFunction) (keys : List Bytes) : Bytes → Prop
  | xor (i L : ℕ) (table : List UInt32) (payload : Bytes) :
      p.AttemptsXor hash keys → i < 64 →
      (∀ j < i, Rejects hash keys (UInt32.ofNat j)) → ¬ Rejects hash keys (UInt32.ofNat i) →
      L = computeBlockLength (buildUniqueHashes hash keys (UInt32.ofNat i)).length →
      XorTable L p.fingerprintBits (buildUniqueHashes hash keys (UInt32.ofNat i)) table →
      payload = appendPackedValues table p.fingerprintBits [] →
      payload.length = packedByteSize (tableLength L) p.fingerprintBits →
      Exit hash keys (payload ++ Trailer.bytes ⟨UInt32.ofNat i, UInt32.ofNat L,
        UInt8.ofNat p.fingerprintBits, kEncodingXor, kFormatVersion, kFormatMagic⟩)
  | bloomForSize (E : Bytes) :
      ¬ p.AttemptsXor hash keys →
      FallbackFormat kFormatMagic ((buildUniqueHashes hash keys 0).map bloomHash) p.bitsPerKey 0
        E →
      Exit hash keys E
  | bloomAfterSeeds (E : Bytes) :
      p.AttemptsXor hash keys → (∀ i < 64, Rejects hash keys (UInt32.ofNat i)) →
      FallbackFormat kFormatMagic ((buildUniqueHashes hash keys 0).map bloomHash) p.bitsPerKey 0
        E →
      Exit hash keys E

theorem buildUniqueHashes_ne_nil (hkeys : keys ≠ []) (seed : UInt32) :
    buildUniqueHashes hash keys seed ≠ [] := by
  rw [buildUniqueHashes, Ne, sortUnique_eq_nil_iff, List.map_eq_nil_iff]
  exact hkeys

/-- **One round of the seed loop**: the seed is rejected and the next one is tried, or the
loop stops with the encoding of a table of the seed's hashes. -/
theorem trySeeds_succ (hkeys : keys ≠ []) (tries : ℕ) (seed : UInt32) :
    (Rejects hash keys seed ∧
        p.trySeeds hash keys (tries + 1) seed = p.trySeeds hash keys tries (seed + 1)) ∨
      (¬ Rejects hash keys seed ∧ ∃ table, XorTable
          (computeBlockLength (buildUniqueHashes hash keys seed).length) p.fingerprintBits
          (buildUniqueHashes hash keys seed) table ∧
        p.trySeeds hash keys (tries + 1) seed = .ok (some (xorEncoding table
          (computeBlockLength (buildUniqueHashes hash keys seed).length) p.fingerprintBits
          seed))) := by
  rw [trySeeds]
  rcases computeBlockLength_range (buildUniqueHashes hash keys seed).length with hzero | ⟨hL, h3⟩
  · exact Or.inl ⟨Or.inl hzero, by simp only [hzero, if_true]⟩
  · simp only [if_neg hL.ne']
    rcases tryBuildXor_cases hL h3 p.fingerprintBits_le (buildUniqueHashes_ne_nil hkeys seed)
        (sortUnique_nodup _) [] seed with ⟨hpeel, table, ht, he⟩ | ⟨hcore, he⟩
    · refine Or.inr ⟨not_or.2 ⟨hL.ne', hpeel⟩, table, ht, ?_⟩
      rw [he, ok_bind]
      rfl
    · exact Or.inl ⟨Or.inr hcore, by rw [he, ok_bind]; rfl⟩

/-- **The seed loop** stops at the first seed that is not rejected, with the encoding of a
table of that seed's hashes, and otherwise ends without one. -/
theorem trySeeds_cases (hkeys : keys ≠ []) : ∀ (tries : ℕ) (seed : UInt32),
    (∃ i < tries, (∀ j < i, Rejects hash keys (seed + UInt32.ofNat j)) ∧
        ¬ Rejects hash keys (seed + UInt32.ofNat i) ∧
        ∃ table, XorTable
            (computeBlockLength (buildUniqueHashes hash keys (seed + UInt32.ofNat i)).length)
            p.fingerprintBits (buildUniqueHashes hash keys (seed + UInt32.ofNat i)) table ∧
          p.trySeeds hash keys tries seed = .ok (some (xorEncoding table
            (computeBlockLength (buildUniqueHashes hash keys (seed + UInt32.ofNat i)).length)
            p.fingerprintBits (seed + UInt32.ofNat i)))) ∨
      ((∀ j < tries, Rejects hash keys (seed + UInt32.ofNat j)) ∧
        p.trySeeds hash keys tries seed = .ok none) := by
  have hzero (seed : UInt32) : seed + UInt32.ofNat 0 = seed := UInt32.add_zero seed
  have hsucc (seed : UInt32) (j : ℕ) : seed + UInt32.ofNat (j + 1) = seed + 1 + UInt32.ofNat j := by
    rw [UInt32.ofNat_add, UInt32.ofNat_one, UInt32.add_assoc, UInt32.add_comm 1]
  intro tries
  induction tries with
  | zero => exact fun seed => Or.inr ⟨fun j hj => absurd hj (Nat.not_lt_zero j), rfl⟩
  | succ tries ih =>
    intro seed
    have hbelow {n : ℕ} (hfirst : Rejects hash keys seed)
        (hrest : ∀ j < n, Rejects hash keys (seed + 1 + UInt32.ofNat j)) :
        ∀ j < n + 1, Rejects hash keys (seed + UInt32.ofNat j) := by
      intro j hj
      cases j with
      | zero => rwa [hzero]
      | succ j =>
        rw [hsucc]
        exact hrest j (by omega)
    rcases p.trySeeds_succ hkeys tries seed with ⟨hreject, he⟩ | ⟨haccept, table, ht, he⟩
    · rw [he]
      rcases ih (seed + 1) with ⟨i, hi, hearlier, hnot, table, ht, he⟩ | ⟨hall, he⟩
      · refine Or.inl ⟨i + 1, by omega, hbelow hreject hearlier, ?_⟩
        rw [hsucc]
        exact ⟨hnot, table, ht, he⟩
      · exact Or.inr ⟨hbelow hreject hall, he⟩
    · refine Or.inl ⟨0, Nat.succ_pos _, fun j hj => absurd hj (Nat.not_lt_zero j), ?_⟩
      rw [hzero]
      exact ⟨haccept, table, ht, he⟩

/-- The builder appends one encoding, that of its exit, and the encoding accepts the keys. -/
theorem createFilter_exit (hkeys : keys ≠ []) (dst : Bytes) :
    ∃ E, p.createFilter hash keys dst = .ok (dst ++ E) ∧ p.Exit hash keys E ∧
      Accepts hash keys E := by
  obtain ⟨E, hE, haccept⟩ := buildBloomEncoding_accepts hash keys p.bitsPerKey 0
  have hformat := FallbackFormat.of_build hE
  have hlen : keys.length ≠ 0 := fun h => hkeys (List.eq_nil_of_length_eq_zero h)
  rw [createFilter, if_neg hlen]
  simp only [if_neg (buildUniqueHashes_ne_nil hkeys 0)]
  by_cases hzero : computeBlockLength (buildUniqueHashes hash keys 0).length = 0
  · rw [if_pos hzero]
    exact ⟨E, by rw [hE, ok_bind], .bloomForSize E (fun h => h.1 hzero) hformat, haccept⟩
  · rw [if_neg hzero]
    split
    · rename_i hsize
      exact ⟨E, by rw [hE, ok_bind], .bloomForSize E (fun h => absurd h.2 (not_lt.2 hsize)) hformat,
        haccept⟩
    · rename_i hsize
      have hattempt : p.AttemptsXor hash keys := ⟨hzero, not_le.1 hsize⟩
      have hseed (j : ℕ) : 0 + UInt32.ofNat j = UInt32.ofNat j := UInt32.zero_add _
      rcases p.trySeeds_cases hkeys kMaxSeedTries 0 with
        ⟨i, hi, hbelow, hnot, table, ht, he⟩ | ⟨hall, he⟩
      · simp only [hseed] at hbelow hnot ht he
        obtain ⟨hL, h3⟩ := (computeBlockLength_range
          (buildUniqueHashes hash keys (UInt32.ofNat i)).length).resolve_left fun h => hnot (Or.inl h)
        refine ⟨_, by rw [he, ok_bind], ?_,
          xorEncoding_accepts hL h3 p.fingerprintBits_pos p.fingerprintBits_le ht⟩
        have hsize : (appendPackedValues table p.fingerprintBits []).length = packedByteSize
            (tableLength (computeBlockLength
              (buildUniqueHashes hash keys (UInt32.ofNat i)).length)) p.fingerprintBits := by
          obtain ⟨out, hout, hlen, -⟩ := appendPackedValues_eq p.fingerprintBits_le table []
          rw [hout, List.nil_append, hlen, ht.length, tableLength_eq h3]
        rw [xorEncoding, appendTrailer, appendTrailer_eq]
        exact .xor i _ table _ hattempt hi hbelow hnot rfl ht rfl hsize
      · simp only [hseed] at hall
        exact ⟨E, by rw [he, ok_bind, hE, ok_bind], .bloomAfterSeeds E hattempt hall hformat,
          haccept⟩

/-- The builder appends one encoding that accepts the keys. -/
theorem createFilter_accepts (hkeys : keys ≠ []) (dst : Bytes) :
    ∃ E, p.createFilter hash keys dst = .ok (dst ++ E) ∧ Accepts hash keys E := by
  obtain ⟨E, hE, -, haccept⟩ := p.createFilter_exit hkeys dst
  exact ⟨E, hE, haccept⟩

/-- **No false negatives.**  `CreateFilter` leaves `dst` as it was and appends one
encoding, that of the exit it takes, which every instance of the policy accepts every key
in. -/
theorem createFilter_mayMatch (p : XorFilterPolicy) (hash : HashFunction) (keys : List Bytes)
    (dst : Bytes) (hkeys : keys ≠ []) :
    ∃ E, p.createFilter hash keys dst = .ok (dst ++ E) ∧ p.Exit hash keys E ∧
      ∀ (q : XorFilterPolicy), ∀ key ∈ keys, q.keyMayMatch hash key E = .ok true :=
  p.createFilter_exit hkeys dst

theorem createFilter_mayMatch_two :
    ∃ E, createFilter ⟨10, 7, by decide, by decide, by decide⟩ leveldbHash [[0x61], [0x62, 0x63]]
        [9] = .ok ([9] ++ E) ∧
      Exit ⟨10, 7, by decide, by decide, by decide⟩ leveldbHash [[0x61], [0x62, 0x63]] E ∧
      ∀ (q : XorFilterPolicy), ∀ key ∈ [[0x61], [0x62, 0x63]],
        q.keyMayMatch leveldbHash key E = .ok true :=
  createFilter_mayMatch _ _ _ _ (by decide)

end XorFilterPolicy

end PackedFilters.Xor
