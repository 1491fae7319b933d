import PackedFilters.Codec.Hash
import PackedFilters.RocksDb.Builder

/-!
# The Xor filter of RocksDB end to end

What `Finish` returns is not given to its reader directly.  It is stored with a table, and
whoever reads the table asks `GetBuiltinFilterBitsReader` for a reader of it, which looks at
the last five bytes.  So that a key is found means three things: the marker in the trailer
routes the filter to the Xor reader, that reader gets the fields back that were written, and
it answers "may match" for the hash of the key.

The Bloom fallback has no format of its own: it goes through the fields of an Xor filter with
block length zero, the number of bits in place of the seed and the probes in place of the
width, and the payload in front of them.

* `new_append`, `getBuiltinFilterBitsReader_append` — the trailer of a filter is read back,
  and the marker in it routes the filter to this reader;
* `Finds` — a filter that gets to its reader and is found to hold these hashes;
* `buildBloomFallback_finds`, `xorFilter_finds` — the fallback, and the table of one seed;
* `finishHashes_finds` — what `Finish` returns is one, whichever way it ends;
* `finish_mayMatch` — no false negatives for the keys.
-/

namespace PackedFilters.RocksDb

open PackedFilters.Xor LittleEndian

/-! ## The trailer -/

/-- The bytes of a trailer. -/
def trailerBytes (seed blockLength : UInt32) (fingerprintBits : UInt8) : Bytes :=
  fixed32 seed ++ (fixed32 blockLength ++
    [fingerprintBits, kRocksDbMarkerXor.toUInt8, 0, 0, 0, 0])

section Trailer

variable (payload : Bytes) (seed blockLength : UInt32) (fingerprintBits : UInt8)

@[simp] theorem length_trailerBytes :
    (trailerBytes seed blockLength fingerprintBits).length = kTrailerSize := rfl

theorem appendTrailer_eq : appendTrailer payload seed blockLength fingerprintBits
    = payload ++ trailerBytes seed blockLength fingerprintBits := by
  simp only [appendTrailer, appendFixed32, trailerBytes, List.append_assoc]

theorem readByte_trailer {i : ℕ} (hi : i < kTrailerSize) :
    readByte (payload ++ trailerBytes seed blockLength fingerprintBits) (payload.length + i)
      = .ok ((trailerBytes seed blockLength fingerprintBits).getD i 0) := by
  rw [readByte_of_lt (by rw [List.length_append, length_trailerBytes]; omega),
    List.getD_append_right _ _ _ _ (Nat.le_add_right _ _), Nat.add_sub_cancel_left]

/-- The reader gets the payload and the fields back. -/
theorem new_append :
    XorFilterBitsReader.new (payload ++ trailerBytes seed blockLength fingerprintBits)
      = .ok ⟨payload ++ trailerBytes seed blockLength fingerprintBits, seed, blockLength,
          fingerprintBits, payload.length⟩ := by
  have hlen : (payload ++ trailerBytes seed blockLength fingerprintBits).length
      = payload.length + kTrailerSize := by
    rw [List.length_append, length_trailerBytes]
  have hseed : decodeFixed32 (payload ++ trailerBytes seed blockLength fingerprintBits)
      payload.length = .ok seed := decodeFixed32_append payload _ seed
  have hlength : decodeFixed32 (payload ++ trailerBytes seed blockLength fingerprintBits)
      (payload.length + 4) = .ok blockLength := by
    have := decodeFixed32_append (payload ++ fixed32 seed)
      [fingerprintBits, kRocksDbMarkerXor.toUInt8, 0, 0, 0, 0] blockLength
    rwa [List.length_append, length_fixed32, List.append_assoc] at this
  have hbits := readByte_trailer payload seed blockLength fingerprintBits
    (by decide : 8 < kTrailerSize)
  unfold XorFilterBitsReader.new
  rw [hlen, if_neg (by omega)]
  simp only [Nat.add_sub_cancel, hseed, ok_bind, hlength, hbits]
  rfl

/-- The marker sends the filter to the Xor reader, if its length fits in 32 bits. -/
theorem getBuiltinFilterBitsReader_append (hlen : payload.length + kTrailerSize < 4294967296) :
    getBuiltinFilterBitsReader (payload ++ trailerBytes seed blockLength fingerprintBits)
      = .ok .xor := by
  have hmarker := readByte_trailer payload seed blockLength fingerprintBits
    (by decide : 9 < kTrailerSize)
  have hsub : payload.length + kTrailerSize - kMetadataLen = payload.length + 9 := rfl
  unfold getBuiltinFilterBitsReader
  rw [List.length_append, length_trailerBytes, u32_of_lt hlen]
  simp only
  rw [if_neg (by rw [kTrailerSize, kMetadataLen]; omega), hsub, hmarker, ok_bind]
  rfl

end Trailer

/-! ## The branches of the reader -/

namespace XorFilterBitsReader

variable {r : XorFilterBitsReader} (h : UInt64)

theorem hashMayMatch_empty (hsize : r.payloadSize = 0) : r.hashMayMatch h = .ok true :=
  if_pos hsize

theorem hashMayMatch_bloom (hsize : r.payloadSize ≠ 0) (hlength : r.blockLength = 0) :
    r.hashMayMatch h =
      if r.seed.toNat = 0 ∨ r.fingerprintBits.toNat = 0 then .ok true
      else testProbes r.filter r.seed.toNat r.fingerprintBits.toNat h.toUInt32
        (bloomDelta h.toUInt32) := by
  unfold hashMayMatch
  rw [if_neg hsize, if_pos hlength]

theorem hashMayMatch_xor (hsize : r.payloadSize ≠ 0) (hlength : r.blockLength ≠ 0) :
    r.hashMayMatch h = (do
      match ← readFingerprint r.filter r.payloadSize r.blockLength.toNat r.fingerprintBits.toNat
        (mixHash h r.seed) with
      | none => .ok true
      | some values =>
        let mask ← checkedBitMask r.fingerprintBits.toNat
        .ok ((foldHash (mixHash h r.seed) &&& mask) == values)) := by
  unfold hashMayMatch
  exact (if_neg hsize).trans (if_neg hlength)

end XorFilterBitsReader

/-! ## Filters that find their hashes -/

/-- The dispatch hands the filter to the Xor reader, which finds all the hashes. -/
def Finds (hashes : List UInt64) (filter : Bytes) : Prop :=
  getBuiltinFilterBitsReader filter = .ok .xor ∧ ∃ r, XorFilterBitsReader.new filter = .ok r ∧
    ∀ h ∈ hashes, r.hashMayMatch h = .ok true

variable {hashes : List UInt64} {bitsPerKey : ℕ}

/-- **The fallback**, read through the fields of an Xor filter. -/
theorem buildBloomFallback_finds (hbits : bloomBitCount hashes.length bitsPerKey ≠ 0) :
    ∃ filter, buildBloomFallback hashes bitsPerKey = .ok filter ∧ Finds hashes filter := by
  obtain ⟨payload, hfilter, hlen, haccept⟩ := buildBloomFallback_ok hashes hbits
  obtain ⟨h64, hmax, -⟩ := (bloomBitCount_range hashes.length bitsPerKey).resolve_left hbits
  set bitCount := bloomBitCount hashes.length bitsPerKey
  have hcount : (UInt32.ofNat bitCount).toNat = bitCount := toNat_ofNat32 (by omega)
  have hprobes := bloomProbeCount_pos bitsPerKey
  refine ⟨_, hfilter, ?_⟩
  rw [appendTrailer_eq]
  refine ⟨getBuiltinFilterBitsReader_append _ _ _ _ ?_, _, new_append _ _ _ _, fun h hh => ?_⟩
  · rw [kTrailerSize]
    omega
  · refine (XorFilterBitsReader.hashMayMatch_bloom h (by simp only; omega) rfl).trans ?_
    simp only [hcount, toNat_bloomProbeCount]
    rw [if_neg (by omega)]
    exact haccept _ h hh

/-- **The table** of one seed. -/
theorem xorFilter_finds {L bits : ℕ} (hL : 0 < L) (h3 : 3 * L ≤ 4294967295) (hb1 : 1 ≤ bits)
    (hbits : bits ≤ 16) {seed : UInt32} {table : List UInt32}
    (ht : XorTable L bits (mixedHashes hashes seed) table)
    (hfits : packedByteSize (3 * L) bits + kTrailerSize < 4294967296) :
    Finds hashes (appendTrailer (appendPackedValues table bits []) seed (UInt32.ofNat L)
      (UInt8.ofNat bits)) := by
  obtain ⟨out, hout, hlen, hval⟩ := appendPackedValues_eq hbits table []
  rw [List.nil_append] at hout
  have hsize : out.length = packedByteSize (3 * L) bits := by rw [hlen, ht.length]
  have hpos : out.length ≠ 0 := by
    have := Nat.mul_le_mul (by omega : 1 ≤ 3 * L) hb1
    rw [hsize, packedByteSize]
    omega
  have hcount : (UInt32.ofNat L).toNat = L := toNat_ofNat32 (by omega)
  have hne : UInt32.ofNat L ≠ 0 := fun h => by
    rw [h, UInt32.toNat_zero] at hcount
    omega
  have haux : (UInt8.ofNat bits).toNat = bits := toNat_ofNat8 (by omega)
  rw [hout, appendTrailer_eq]
  refine ⟨getBuiltinFilterBitsReader_append _ _ _ _ (hsize ▸ hfits), _, new_append _ _ _ _,
    fun h hh => ?_⟩
  have hread := ht.read hL h3 hb1 hbits
    (trailerBytes seed (UInt32.ofNat L) (UInt8.ofNat bits)) hlen hval (mem_mixedHashes hh seed)
  refine (XorFilterBitsReader.hashMayMatch_xor h hpos hne).trans ?_
  simp only [hcount, haux, hread, ok_bind, checkedBitMask, if_pos (And.intro hb1 hbits), ok_bind, fingerprint,
    beq_self_eq_true]

theorem packedWidth_le_self {b : ℕ} (h : 1 ≤ b) : packedWidth b ≤ b := by
  simp only [packedWidth]
  split <;> split <;> omega

/-- A table for which the fallback would have fitted fits as well. -/
theorem LoopRuns.fits (hruns : LoopRuns bitsPerKey hashes.length)
    (hbits : bloomBitCount hashes.length bitsPerKey ≠ 0) :
    packedByteSize (3 * blockLength hashes.length) (computeFingerprintBits bitsPerKey)
      + kTrailerSize < 4294967296 := by
  have hsizes := hruns.sizes
  have hcount : hashes.length ≤ 4294967296 := by
    have := hruns.count_le
    have := hsizes.tableSize_eq
    have := hsizes.le
    omega
  have hbound := bloomBitCount_bound
    ((Nat.mul_le_mul hcount hruns.bits_le).trans (by norm_num)) hbits
  have htable : 100 * (3 * blockLength hashes.length) ≤ 123 * hashes.length + 3200 := by
    have := hsizes.blockLength_eq
    omega
  have hwidth : computeFingerprintBits bitsPerKey ≤ bitsPerKey :=
    packedWidth_le_self hruns.bits_pos
  have hbits16 := hruns.bits_le
  have hproduct : 100 * (3 * blockLength hashes.length * computeFingerprintBits bitsPerKey)
      ≤ 123 * (hashes.length * bitsPerKey) + 3200 * 16 := by
    calc 100 * (3 * blockLength hashes.length * computeFingerprintBits bitsPerKey)
        = 100 * (3 * blockLength hashes.length) * computeFingerprintBits bitsPerKey := by ring
      _ ≤ (123 * hashes.length + 3200) * bitsPerKey := Nat.mul_le_mul htable hwidth
      _ = 123 * (hashes.length * bitsPerKey) + 3200 * bitsPerKey := by ring
      _ ≤ 123 * (hashes.length * bitsPerKey) + 3200 * 16 := by omega
  rw [packedByteSize, kTrailerSize]
  omega

/-- **What `Finish` returns finds every hash**, whichever way it ends. -/
theorem finishHashes_finds (hne : hashes ≠ []) (hnodup : hashes.Nodup)
    (hbits : bloomBitCount hashes.length bitsPerKey ≠ 0) :
    ∃ filter, finishHashes bitsPerKey hashes = .ok filter ∧ Finds hashes filter := by
  rcases finishHashes_cases bitsPerKey hne hnodup with ⟨hsolved, seed, table, ht, he⟩ | ⟨-, he⟩
  · have hsizes := hsolved.1.sizes
    exact ⟨_, he, xorFilter_finds hsizes.pos hsizes.le (packedWidth_pos bitsPerKey)
      (packedWidth_le bitsPerKey) ht (hsolved.1.fits hbits)⟩
  · rw [he]
    exact buildBloomFallback_finds hbits

/-! ## The keys -/

namespace XorFilterBitsBuilder

/-- **No false negatives.**  Whenever the number of distinct hashes leaves the Bloom bit
count in 32 bits, `Finish` returns a filter that the dispatch hands to the Xor reader,
and that reader finds every key. -/
theorem finish_mayMatch (sliceHash : SliceHash) (bitsPerKey : ℕ) (keys : List Bytes)
    (hkeys : keys ≠ [])
    (hbits : bloomBitCount (keys.map sliceHash).toFinset.card bitsPerKey ≠ 0) :
    ∃ filter, ((new bitsPerKey).addKeys sliceHash keys).finish.2 = .ok filter ∧
      getBuiltinFilterBitsReader filter = .ok .xor ∧
      ∃ r, XorFilterBitsReader.new filter = .ok r ∧
        ∀ key ∈ keys, r.mayMatch sliceHash key = .ok true := by
  have hne : sortUnique (keys.map sliceHash) ≠ [] := by
    rw [Ne, sortUnique_eq_nil_iff, List.map_eq_nil_iff]
    exact hkeys
  rw [← length_sortUnique] at hbits
  obtain ⟨filter, hfilter, hdispatch, r, hr, hfind⟩ :=
    finishHashes_finds hne (sortUnique_nodup _) hbits
  refine ⟨filter, ?_, hdispatch, r, hr, fun key hkey => ?_⟩
  · show finishHashes _ (sortUnique _) = _
    rw [sortUnique_addKeys, addKeys_eq]
    exact hfilter
  · exact hfind _ (mem_sortUnique.2 (List.mem_map_of_mem hkey))

theorem finish_mayMatch_two :
    ∃ filter, ((new 10).addKeys xxph3Len1to3 [[0x61], [0x62, 0x63]]).finish.2 = .ok filter ∧
      getBuiltinFilterBitsReader filter = .ok .xor ∧
      ∃ r, XorFilterBitsReader.new filter = .ok r ∧
        ∀ key ∈ [[0x61], [0x62, 0x63]], r.mayMatch xxph3Len1to3 key = .ok true :=
  finish_mayMatch _ _ _ (by decide) (by decide)

end XorFilterBitsBuilder

end PackedFilters.RocksDb
