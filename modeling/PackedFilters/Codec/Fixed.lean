import PackedFilters.Codec.Packed

/-!
# Fixed-width fields and the trailer of the LevelDB filters

`AppendFixed32`, `DecodeFixed32` (`PutFixed32` in RocksDB and Speedb) and the twelve-byte
trailer `[seed] [length] [aux] [type] [version] [magic]` that the Ribbon and the Xor policy
of LevelDB and PebblesDB share, each with its own magic byte.

Every filter that these policies write is a payload with this trailer behind it, so it is
read from its end.  `matchEncoding` is their reader up to its dispatch on the encoding's
type: what is too short, or ends in another magic byte or version, is answered with "may
match", and so is a type that is not known; only the Bloom payload and the payload of the
policy itself are looked into, by the two functions it is given.

* `fixed32`, `decodeFixed32` — four bytes, least significant first, and
  `decodeFixed32_append`: they are read back wherever they stand;
* `Trailer`, `appendTrailer`, `readTrailer` — the fields, in the order of their bytes;
* `HasTrailer` — the byte string ends in this trailer, which is what the lemmas about the
  dispatch ask for;
* `matchEncoding_short` up to `matchEncoding_main` — one lemma for each way the dispatch can
  go.
-/

namespace PackedFilters

open LittleEndian

/-! ## 32-bit fields -/

/-- The four bytes of `AppendFixed32`. -/
def fixed32 (value : UInt32) : Bytes :=
  [(value &&& 0xff).toUInt8, ((value >>> 8) &&& 0xff).toUInt8,
    ((value >>> 16) &&& 0xff).toUInt8, ((value >>> 24) &&& 0xff).toUInt8]

/-- `AppendFixed32`: four bytes behind `dst`, least significant first. -/
def appendFixed32 (dst : Bytes) (value : UInt32) : Bytes := dst ++ fixed32 value

/-- `DecodeFixed32(data + offset)`: the number that the four bytes there spell; it reads all
four, wherever they are. -/
def decodeFixed32 (data : Bytes) (offset : ℕ) : Checked UInt32 := do
  let b0 ← readByte data offset
  let b1 ← readByte data (offset + 1)
  let b2 ← readByte data (offset + 2)
  let b3 ← readByte data (offset + 3)
  .ok (b0.toUInt32 ||| (b1.toUInt32 <<< 8) ||| (b2.toUInt32 <<< 16) ||| (b3.toUInt32 <<< 24))

@[simp] theorem length_fixed32 (v : UInt32) : (fixed32 v).length = 4 := rfl

theorem value_fixed32 (v : UInt32) : value (fixed32 v) = v.toNat := by
  have hmask (w : UInt32) : (w &&& 0xff).toUInt8.toNat = w.toNat % 256 := by
    rw [UInt32.toNat_toUInt8, UInt32.toNat_and]
    exact (congrArg (· % 256) (Nat.and_two_pow_sub_one_eq_mod w.toNat 8)).trans (Nat.mod_mod _ _)
  have hlt : v.toNat < 4294967296 := v.toNat_lt
  simp only [fixed32, value_cons, value_nil, hmask, UInt32.toNat_shiftRight,
    Nat.shiftRight_eq_div_pow, UInt32.reduceToNat, Nat.reduceMod, Nat.reducePow]
  omega

/-- A byte entered above the bits of a word adds to its value. -/
theorem toNat_or_byte {w : UInt32} (b : UInt8) {k : ℕ} (hw : w.toNat < 2 ^ k) (hk : k + 8 ≤ 32) :
    (w ||| b.toUInt32 <<< UInt32.ofNat k).toNat = w.toNat + 2 ^ k * b.toNat := by
  have hb : b.toNat < 2 ^ 8 := b.toNat_lt
  have hfit : b.toNat * 2 ^ k < 2 ^ 32 := by
    calc b.toNat * 2 ^ k < 2 ^ 8 * 2 ^ k := Nat.mul_lt_mul_of_pos_right hb (Nat.two_pow_pos k)
      _ = 2 ^ (k + 8) := by rw [← pow_add, add_comm]
      _ ≤ 2 ^ 32 := Nat.pow_le_pow_right (by norm_num) hk
  rw [UInt32.toNat_or, UInt32.toNat_shiftLeft, UInt32.toNat_ofNat',
    Nat.mod_eq_of_lt (by omega : k < 2 ^ 32), Nat.mod_eq_of_lt (by omega : k < 32),
    UInt8.toNat_toUInt32, Nat.shiftLeft_eq, Nat.mod_eq_of_lt hfit, Nat.or_comm, Nat.mul_comm,
    ← Nat.two_pow_add_eq_or_of_lt hw, Nat.add_comm]

/-- The four bytes at an offset. -/
theorem take_four_drop (data : Bytes) (offset : ℕ) (h : offset + 4 ≤ data.length) :
    (data.drop offset).take 4 = [data.getD offset 0, data.getD (offset + 1) 0,
      data.getD (offset + 2) 0, data.getD (offset + 3) 0] := by
  refine List.ext_getElem (by simp; omega) fun i hi _ => ?_
  simp only [List.length_take, List.length_drop] at hi
  rw [List.getElem_take, List.getElem_drop]
  match i, hi with
  | 0, _ | 1, _ | 2, _ | 3, _ =>
    simp [List.getD_eq_getElem?_getD]
    rw [List.getElem?_eq_getElem (by omega)]
    rfl

/-- Four bytes that are there decode to the number they spell. -/
theorem decodeFixed32_ok (data : Bytes) (offset : ℕ) (h : offset + 4 ≤ data.length) :
    ∃ v, decodeFixed32 data offset = .ok v ∧ v.toNat = value ((data.drop offset).take 4) := by
  rw [take_four_drop data offset h]
  set b0 := data.getD offset 0
  set b1 := data.getD (offset + 1) 0
  set b2 := data.getD (offset + 2) 0
  set b3 := data.getD (offset + 3) 0
  refine ⟨b0.toUInt32 ||| (b1.toUInt32 <<< 8) ||| (b2.toUInt32 <<< 16) ||| (b3.toUInt32 <<< 24),
    ?_, ?_⟩
  · rw [decodeFixed32, readByte_of_lt (by omega), ok_bind, readByte_of_lt (by omega), ok_bind,
      readByte_of_lt (by omega), ok_bind, readByte_of_lt (by omega), ok_bind]
  · have h0 : b0.toUInt32.toNat = b0.toNat := UInt8.toNat_toUInt32 b0
    have l0 : b0.toNat < 256 := b0.toNat_lt
    have l1 : b1.toNat < 256 := b1.toNat_lt
    have l2 : b2.toNat < 256 := b2.toNat_lt
    have h1 := toNat_or_byte (w := b0.toUInt32) b1 (k := 8) (by rw [h0]; exact l0) (by norm_num)
    have h2 := toNat_or_byte b2 (k := 16) (by rw [h1, h0]; norm_num; omega) (by norm_num)
    have h3 := toNat_or_byte b3 (k := 24) (by rw [h2, h1, h0]; norm_num; omega) (by norm_num)
    simp only [value_cons, value_nil]
    refine h3.trans ?_
    rw [h2, h1, h0]
    norm_num
    ring

/-- Decoding where a field was appended gives the field back. -/
theorem decodeFixed32_append (pre rest : Bytes) (v : UInt32) :
    decodeFixed32 (pre ++ (fixed32 v ++ rest)) pre.length = .ok v := by
  obtain ⟨w, hw, hval⟩ := decodeFixed32_ok (pre ++ (fixed32 v ++ rest)) pre.length
    (by simp)
  rw [hw]
  congr 1
  rw [← UInt32.toNat_inj, hval, List.drop_left, List.take_left' (length_fixed32 v), value_fixed32]

/-! ## The trailer -/

/-- `kTrailerSize` of the LevelDB filters. -/
def kTrailerSize : ℕ := 12

/-- `kFormatVersion`, the same for Ribbon and Xor. -/
def kFormatVersion : UInt8 := 1

/-- `kEncodingEmpty`: the filter of no keys, without a payload. -/
def kEncodingEmpty : UInt8 := 0

/-- `kEncodingBloom`: the payload is a Bloom filter, the fallback of both policies. -/
def kEncodingBloom : UInt8 := 2

/-- `kEncodingAlwaysMatch`: there is no payload, and every key may match. -/
def kEncodingAlwaysMatch : UInt8 := 3

/-- The last twelve bytes of an encoding. -/
structure Trailer where
  seed : UInt32
  /-- `slot_count`, `block_length` or the number of Bloom bits. -/
  lengthOrBits : UInt32
  aux : UInt8
  type : UInt8
  version : UInt8
  magic : UInt8

/-- The bytes of a trailer. -/
def Trailer.bytes (t : Trailer) : Bytes :=
  fixed32 t.seed ++ (fixed32 t.lengthOrBits ++ [t.aux, t.type, t.version, t.magic])

/-- `AppendTrailer` of the filter with the given magic byte. -/
def appendTrailer (magic : UInt8) (dst : Bytes) (seed lengthOrBits : UInt32) (aux type : UInt8) :
    Bytes :=
  appendFixed32 (appendFixed32 dst seed) lengthOrBits ++ [aux, type, kFormatVersion, magic]

/-- The trailer fields as `KeyMayMatch` reads them, at `trailer = data + offset`. -/
def readTrailer (data : Bytes) (offset : ℕ) : Checked Trailer := do
  let seed ← decodeFixed32 data offset
  let lengthOrBits ← decodeFixed32 data (offset + 4)
  let aux ← readByte data (offset + 8)
  let type ← readByte data (offset + 9)
  let version ← readByte data (offset + 10)
  let magic ← readByte data (offset + 11)
  .ok { seed, lengthOrBits, aux, type, version, magic }

@[simp] theorem Trailer.length_bytes (t : Trailer) : t.bytes.length = kTrailerSize := rfl

theorem appendTrailer_eq (magic : UInt8) (dst : Bytes) (seed length : UInt32) (aux type : UInt8) :
    appendTrailer magic dst seed length aux type
      = dst ++ Trailer.bytes ⟨seed, length, aux, type, kFormatVersion, magic⟩ := by
  simp only [appendTrailer, appendFixed32, Trailer.bytes, List.append_assoc]

/-- Twelve bytes that are there are a trailer. -/
theorem readTrailer_ok {data : Bytes} {offset : ℕ} (h : offset + kTrailerSize ≤ data.length) :
    ∃ t, readTrailer data offset = .ok t := by
  rw [kTrailerSize] at h
  obtain ⟨seed, hseed, -⟩ := decodeFixed32_ok data offset (by omega)
  obtain ⟨len, hlen, -⟩ := decodeFixed32_ok data (offset + 4) (by omega)
  refine ⟨⟨seed, len, data.getD (offset + 8) 0, data.getD (offset + 9) 0,
    data.getD (offset + 10) 0, data.getD (offset + 11) 0⟩, ?_⟩
  rw [readTrailer, hseed, ok_bind, hlen, ok_bind, readByte_of_lt (by omega), ok_bind,
    readByte_of_lt (by omega), ok_bind, readByte_of_lt (by omega), ok_bind,
    readByte_of_lt (by omega), ok_bind]

/-- The trailer read back from an encoding is the one appended to its payload. -/
theorem readTrailer_append (payload : Bytes) (t : Trailer) :
    readTrailer (payload ++ t.bytes) payload.length = .ok t := by
  have hbyte (i : ℕ) (hi : i < 12) :
      readByte (payload ++ t.bytes) (payload.length + i) = .ok (t.bytes.getD i 0) := by
    rw [readByte_of_lt (by rw [List.length_append, Trailer.length_bytes, kTrailerSize]; omega),
      List.getD_append_right _ _ _ _ (by omega), Nat.add_sub_cancel_left]
  have hseed : decodeFixed32 (payload ++ t.bytes) payload.length = .ok t.seed :=
    decodeFixed32_append payload _ t.seed
  have hlen : decodeFixed32 (payload ++ t.bytes) (payload.length + 4) = .ok t.lengthOrBits := by
    have := decodeFixed32_append (payload ++ fixed32 t.seed) [t.aux, t.type, t.version, t.magic]
      t.lengthOrBits
    rwa [List.length_append, length_fixed32, List.append_assoc] at this
  rw [readTrailer, hseed, ok_bind, hlen, ok_bind, hbyte 8 (by norm_num), ok_bind,
    hbyte 9 (by norm_num), ok_bind, hbyte 10 (by norm_num), ok_bind, hbyte 11 (by norm_num),
    ok_bind]
  rfl

/-- The byte string ends in this trailer. -/
structure HasTrailer (data : Bytes) (t : Trailer) : Prop where
  length_le : kTrailerSize ≤ data.length
  read : readTrailer data (data.length - kTrailerSize) = .ok t

theorem exists_hasTrailer {data : Bytes} (h : kTrailerSize ≤ data.length) :
    ∃ t, HasTrailer data t := by
  obtain ⟨t, ht⟩ := readTrailer_ok (Nat.sub_add_cancel h).le
  exact ⟨t, h, ht⟩

theorem length_append_sub (payload : Bytes) (t : Trailer) :
    (payload ++ t.bytes).length - kTrailerSize = payload.length := by
  rw [List.length_append, Trailer.length_bytes, Nat.add_sub_cancel]

theorem hasTrailer_append (payload : Bytes) (t : Trailer) : HasTrailer (payload ++ t.bytes) t where
  length_le := by
    rw [List.length_append, Trailer.length_bytes]
    omega
  read := by
    rw [length_append_sub]
    exact readTrailer_append payload t

/-! ## The dispatch on the trailer -/

/-- `KeyMayMatch` up to the dispatch on the encoding's type.  `mainType` is
`kEncodingRibbon` or `kEncodingXor`; `bloom` and `main` get the trailer and
`payload_size`. -/
def matchEncoding (magic mainType : UInt8) (bloom main : Trailer → ℕ → Checked Bool)
    (filter : Bytes) : Checked Bool :=
  if filter.length < kTrailerSize then .ok true
  else do
    let trailerOffset := filter.length - kTrailerSize
    let trailer ← readTrailer filter trailerOffset
    if trailer.magic ≠ magic ∨ trailer.version ≠ kFormatVersion then .ok true
    else
      let payloadSize := trailerOffset
      if trailer.type = kEncodingEmpty then .ok (if payloadSize = 0 then false else true)
      else if trailer.type = kEncodingAlwaysMatch then .ok true
      else if trailer.type = kEncodingBloom then bloom trailer payloadSize
      else if trailer.type ≠ mainType then .ok true
      else main trailer payloadSize

section Dispatch

variable {magic mainType : UInt8} {bloom main : Trailer → ℕ → Checked Bool} {filter : Bytes}
  {t : Trailer}

theorem matchEncoding_short (h : filter.length < kTrailerSize) :
    matchEncoding magic mainType bloom main filter = .ok true := if_pos h

theorem matchEncoding_foreign (h : HasTrailer filter t)
    (hf : t.magic ≠ magic ∨ t.version ≠ kFormatVersion) :
    matchEncoding magic mainType bloom main filter = .ok true := by
  rw [matchEncoding, if_neg (not_lt.2 h.length_le)]
  simp only [h.read, ok_bind]
  exact if_pos hf

variable (h : HasTrailer filter t) (hm : t.magic = magic) (hv : t.version = kFormatVersion)

include h hm hv

/-- A trailer of this format: what is left is the dispatch on its type. -/
theorem matchEncoding_of_format :
    matchEncoding magic mainType bloom main filter =
      if t.type = kEncodingEmpty then
        .ok (if filter.length - kTrailerSize = 0 then false else true)
      else if t.type = kEncodingAlwaysMatch then .ok true
      else if t.type = kEncodingBloom then bloom t (filter.length - kTrailerSize)
      else if t.type ≠ mainType then .ok true
      else main t (filter.length - kTrailerSize) := by
  rw [matchEncoding, if_neg (not_lt.2 h.length_le)]
  simp only [h.read, ok_bind]
  rw [if_neg (not_or.2 ⟨not_not.2 hm, not_not.2 hv⟩)]

theorem matchEncoding_empty (ht : t.type = kEncodingEmpty) :
    matchEncoding magic mainType bloom main filter
      = .ok (if filter.length - kTrailerSize = 0 then false else true) := by
  rw [matchEncoding_of_format h hm hv, if_pos ht]

theorem matchEncoding_alwaysMatch (ht : t.type = kEncodingAlwaysMatch) :
    matchEncoding magic mainType bloom main filter = .ok true := by
  rw [matchEncoding_of_format h hm hv, ht]
  rfl

theorem matchEncoding_bloom (ht : t.type = kEncodingBloom) :
    matchEncoding magic mainType bloom main filter = bloom t (filter.length - kTrailerSize) := by
  rw [matchEncoding_of_format h hm hv, ht]
  rfl

theorem matchEncoding_main (hmain : mainType = 1) (ht : t.type = mainType) :
    matchEncoding magic mainType bloom main filter = main t (filter.length - kTrailerSize) := by
  rw [matchEncoding_of_format h hm hv, ht, hmain]
  rfl

end Dispatch

end PackedFilters
