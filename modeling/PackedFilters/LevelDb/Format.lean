import PackedFilters.LevelDb.Block

/-!
# The format of a table file

`table/format.cc`: handles of blocks, the footer, and `ReadBlock`, which checks and
uncompresses a block.

A table file is read from its end.  The footer has a fixed length, so it is found without
knowing anything else; it names two blocks, and these name all others.  A handle is an offset
and a size as varints, and behind the bytes of a block stand its compression type and a
checksum of both.

The checksum and the compression are not part of this development: they are parameters, with
what is known of them as fields.  Of a checksum that is only that it can be continued; no
result says that an error is found.  Of a compression it is that what was compressed is
uncompressed again.

* `BlockHandle`, `Footer` — the two records, encoded and decoded;
* `Crc32c`, `Snappy` — the checksum and the compression; `castagnoli` and `Snappy.missing`
  are a checksum as the code computes it, and the library when it is not linked;
* `readBlock` — a block, or what is wrong with it;
* `Footer.decodeFrom_encode`, `readBlock_storedAt` — what was written is read back, and a
  block stays where it is when the file grows (`StoredAt.append`).
-/

namespace PackedFilters.LevelDb

open LittleEndian

/-! ## Handles -/

/-- `BlockHandle`: where a block of the file begins, and how many bytes it has without its
trailer. -/
structure BlockHandle where
  offset : ℕ
  size : ℕ
  deriving DecidableEq

namespace BlockHandle

/-- A handle whose fields fit their 64-bit words. -/
structure Fits (h : BlockHandle) : Prop where
  offset_lt : h.offset < 18446744073709551616
  size_lt : h.size < 18446744073709551616

/-- `EncodeTo`: the offset and the size behind `dst`, as varints. -/
def encodeTo (h : BlockHandle) (dst : Bytes) : Bytes := putVarint64 (putVarint64 dst h.offset) h.size

/-- `DecodeFrom`: the handle and what is left of the input, or an error. -/
def decodeFrom (input : Bytes) : Checked (Except Status (BlockHandle × Bytes)) := do
  match ← getVarint64 input with
  | none => .ok (.error (.corruption (literal "bad block handle")))
  | some (offset, input) =>
    match ← getVarint64 input with
    | none => .ok (.error (.corruption (literal "bad block handle")))
    | some (size, input) => .ok (.ok (⟨offset, size⟩, input))

theorem encodeTo_eq (h : BlockHandle) (dst : Bytes) : h.encodeTo dst = dst ++ h.encodeTo [] := by
  simp only [encodeTo, putVarint64, List.nil_append, List.append_assoc]

theorem decodeFrom_encodeTo {h : BlockHandle} (hf : h.Fits) (rest : Bytes) :
    decodeFrom (h.encodeTo [] ++ rest) = .ok (.ok (h, rest)) := by
  rw [decodeFrom, encodeTo, putVarint64, putVarint64, List.nil_append, u64_of_lt hf.offset_lt,
    u64_of_lt hf.size_lt, List.append_assoc, getVarint64_append hf.offset_lt, ok_bind]
  simp only
  rw [getVarint64_append hf.size_lt, ok_bind]

theorem length_encodeTo_le {h : BlockHandle} (hf : h.Fits) : (h.encodeTo []).length ≤ 20 := by
  have hlen {v : ℕ} (hv : v < 18446744073709551616) : (encodeVarint64 v).length ≤ 10 := by
    rw [encodeVarint64_eq hv]
    exact Base128.length_encode_le (k := 9) (hv.trans (by norm_num))
  have h1 := hlen hf.offset_lt
  have h2 := hlen hf.size_lt
  rw [encodeTo, putVarint64, putVarint64, List.nil_append, u64_of_lt hf.offset_lt,
    u64_of_lt hf.size_lt, List.length_append]
  omega

end BlockHandle

/-! ## The footer -/

/-- `kTableMagicNumber`: what a table file ends in. -/
def kTableMagicNumber : ℕ := 0xdb4775248b80fb57

/-- `Footer::kEncodedLength`: two handles of the greatest length, and the magic number. -/
def kFooterLength : ℕ := 48

/-- `Footer`: the handles of the metaindex block and of the index block. -/
structure Footer where
  metaindexHandle : BlockHandle
  indexHandle : BlockHandle

/-- `std::string::resize`: what is behind the new length is dropped, what is missing is filled
with zeros. -/
def resize (s : Bytes) (n : ℕ) : Bytes := s.take n ++ List.replicate (n - s.length) 0

namespace Footer

/-- `EncodeTo` an empty string. -/
def encode (f : Footer) : Bytes :=
  let dst := f.indexHandle.encodeTo (f.metaindexHandle.encodeTo [])
  let dst := resize dst 40
  let dst := appendFixed32 dst (UInt32.ofNat (kTableMagicNumber &&& 0xffffffff))
  appendFixed32 dst (UInt32.ofNat (kTableMagicNumber >>> 32))

/-- `DecodeFrom`: the two handles, or an error if the magic number or a handle is bad. -/
def decodeFrom (input : Bytes) : Checked (Except Status Footer) := do
  let magicLo ← decodeFixed32 input 40
  let magicHi ← decodeFixed32 input 44
  let magic := magicHi.toNat <<< 32 ||| magicLo.toNat
  if magic ≠ kTableMagicNumber then
    .ok (.error (.corruption (literal "not an sstable (bad magic number)")))
  else
    match ← BlockHandle.decodeFrom input with
    | .error s => .ok (.error s)
    | .ok (metaindexHandle, input) =>
      match ← BlockHandle.decodeFrom input with
      | .error s => .ok (.error s)
      | .ok (indexHandle, _) => .ok (.ok ⟨metaindexHandle, indexHandle⟩)

/-- The handles with their padding. -/
theorem encode_eq {f : Footer} (hm : f.metaindexHandle.Fits) (hi : f.indexHandle.Fits) :
    ∃ padding, f.encode = f.metaindexHandle.encodeTo [] ++ (f.indexHandle.encodeTo [] ++ padding) ++
        fixed32 (UInt32.ofNat (kTableMagicNumber &&& 0xffffffff)) ++
        fixed32 (UInt32.ofNat (kTableMagicNumber >>> 32)) ∧
      (f.metaindexHandle.encodeTo [] ++ (f.indexHandle.encodeTo [] ++ padding)).length = 40 := by
  have h1 := BlockHandle.length_encodeTo_le hm
  have h2 := BlockHandle.length_encodeTo_le hi
  have hdst : f.indexHandle.encodeTo (f.metaindexHandle.encodeTo [])
      = f.metaindexHandle.encodeTo [] ++ f.indexHandle.encodeTo [] := BlockHandle.encodeTo_eq _ _
  refine ⟨List.replicate (40 - (f.metaindexHandle.encodeTo [] ++
    f.indexHandle.encodeTo []).length) 0, ?_, ?_⟩
  · rw [encode]
    simp only [hdst, appendFixed32, resize]
    rw [List.take_of_length_le (by rw [List.length_append]; omega)]
    simp only [List.append_assoc]
  · simp only [List.length_append, List.length_replicate]
    omega

theorem length_encode {f : Footer} (hm : f.metaindexHandle.Fits) (hi : f.indexHandle.Fits) :
    f.encode.length = kFooterLength := by
  obtain ⟨padding, heq, hlen⟩ := encode_eq hm hi
  rw [heq, List.length_append, List.length_append, hlen, length_fixed32, length_fixed32]
  rfl

/-- **A footer comes back.** -/
theorem decodeFrom_encode {f : Footer} (hm : f.metaindexHandle.Fits) (hi : f.indexHandle.Fits) :
    decodeFrom f.encode = .ok (.ok f) := by
  obtain ⟨padding, heq, hlen⟩ := encode_eq hm hi
  have hlo := decodeFixed32_append (f.metaindexHandle.encodeTo [] ++
    (f.indexHandle.encodeTo [] ++ padding)) (fixed32 (UInt32.ofNat (kTableMagicNumber >>> 32)))
    (UInt32.ofNat (kTableMagicNumber &&& 0xffffffff))
  have hhi := decodeFixed32_append (f.metaindexHandle.encodeTo [] ++
    (f.indexHandle.encodeTo [] ++ padding) ++
      fixed32 (UInt32.ofNat (kTableMagicNumber &&& 0xffffffff))) []
    (UInt32.ofNat (kTableMagicNumber >>> 32))
  rw [hlen, ← List.append_assoc, ← heq] at hlo
  rw [List.append_nil, ← heq, List.length_append, hlen, length_fixed32] at hhi
  have hmagic : (UInt32.ofNat (kTableMagicNumber >>> 32)).toNat <<< 32 |||
      (UInt32.ofNat (kTableMagicNumber &&& 0xffffffff)).toNat = kTableMagicNumber := by decide
  rw [decodeFrom, hlo, ok_bind, hhi, ok_bind]
  simp only [hmagic]
  rw [if_neg (not_not.2 rfl), heq]
  simp only [List.append_assoc]
  rw [BlockHandle.decodeFrom_encodeTo hm, ok_bind]
  simp only
  rw [BlockHandle.decodeFrom_encodeTo hi, ok_bind]

end Footer

/-! ## Checksums and compression -/

/-- `crc32c::Extend`, and that it is what its comment says: the checksum of a string from
the checksum of its front. -/
structure Crc32c where
  extend : UInt32 → Bytes → UInt32
  extend_append : ∀ crc a b, extend (extend crc a) b = extend crc (a ++ b)

/-- One step of the checksum: a byte of `kByteExtensionTable`, bit by bit. -/
def castagnoliByte (l : UInt32) (b : UInt8) : UInt32 :=
  (List.range 8).foldl
    (fun l _ => if l &&& 1 = 1 then (l >>> 1) ^^^ 0x82f63b78 else l >>> 1) (l ^^^ b.toUInt32)

/-- `crc32c::Extend`, a byte at a time. -/
def castagnoli : Crc32c where
  extend crc data := data.foldl castagnoliByte (crc ^^^ 0xffffffff) ^^^ 0xffffffff
  extend_append crc a b := by
    rw [List.foldl_append, UInt32.xor_assoc, UInt32.xor_self, UInt32.xor_zero]

/-- `crc32c::Value`: the checksum of a string by itself. -/
def Crc32c.value (c : Crc32c) (data : Bytes) : UInt32 := c.extend 0 data

/-- `kMaskDelta`: what is added to a turned checksum. -/
def kMaskDelta : UInt32 := 0xa282ead8

/-- `crc32c::Mask`: the form in which a checksum is stored, so that it is not taken over bytes
that hold checksums. -/
def crcMask (crc : UInt32) : UInt32 := ((crc >>> 15) ||| (crc <<< 17)) + kMaskDelta

/-- `crc32c::Unmask`: the checksum back from its stored form. -/
def crcUnmask (maskedCrc : UInt32) : UInt32 :=
  let rot := maskedCrc - kMaskDelta
  (rot >>> 17) ||| (rot <<< 15)

/-- The Snappy library, if it is linked: what it compresses it uncompresses. -/
structure Snappy where
  compress : Bytes → Option Bytes
  getUncompressedLength : Bytes → Option ℕ
  uncompress : Bytes → Option Bytes
  uncompress_compress : ∀ raw compressed, compress raw = some compressed →
    getUncompressedLength compressed = some raw.length ∧ uncompress compressed = some raw

/-- What `port_stdcxx.h` has instead of the library when it is not linked. -/
def Snappy.missing : Snappy where
  compress _ := none
  getUncompressedLength _ := none
  uncompress _ := none
  uncompress_compress _ _ h := by cases h

/-- The value of a rotated word. -/
theorem toNat_rotate (c : UInt32) {k : ℕ} (hpos : 0 < k) (h32 : k < 32) :
    ((c >>> UInt32.ofNat k) ||| (c <<< UInt32.ofNat (32 - k))).toNat
      = 2 ^ (32 - k) * (c.toNat % 2 ^ k) + c.toNat / 2 ^ k := by
  have hpow : 2 ^ 32 = 2 ^ (32 - k) * 2 ^ k := by rw [← pow_add, Nat.sub_add_cancel h32.le]
  have hlt : c.toNat / 2 ^ k < 2 ^ (32 - k) := by
    rw [Nat.div_lt_iff_lt_mul (Nat.two_pow_pos k), ← hpow]
    exact c.toNat_lt
  rw [UInt32.toNat_or, UInt32.toNat_shiftRight, UInt32.toNat_shiftLeft, UInt32.toNat_ofNat',
    UInt32.toNat_ofNat', Nat.mod_eq_of_lt (by omega : k < 2 ^ 32), Nat.mod_eq_of_lt h32,
    Nat.mod_eq_of_lt (by omega : 32 - k < 2 ^ 32), Nat.mod_eq_of_lt (by omega : 32 - k < 32),
    Nat.shiftRight_eq_div_pow, Nat.shiftLeft_eq, hpow, Nat.mul_comm c.toNat, Nat.mul_mod_mul_left,
    Nat.or_comm, Nat.two_pow_add_eq_or_of_lt hlt]

/-- A rotation and the one back. -/
theorem crcUnmask_crcMask (crc : UInt32) : crcUnmask (crcMask crc) = crc := by
  have hlt : crc.toNat < 4294967296 := crc.toNat_lt
  have h15 : ((crc >>> 15) ||| (crc <<< 17)).toNat
      = 131072 * (crc.toNat % 32768) + crc.toNat / 32768 :=
    toNat_rotate crc (k := 15) (by norm_num) (by norm_num)
  have h17 (w : UInt32) : ((w >>> 17) ||| (w <<< 15)).toNat
      = 32768 * (w.toNat % 131072) + w.toNat / 131072 :=
    toNat_rotate w (k := 17) (by norm_num) (by norm_num)
  rw [crcUnmask, crcMask, UInt32.add_sub_cancel]
  apply UInt32.toNat_inj.1
  rw [h17, h15]
  omega
/-! ## Blocks in a file -/

/-- `CompressionType`: whether the bytes of a block are stored as they are or compressed. -/
inductive CompressionType where
  | noCompression
  | snappyCompression
  deriving DecidableEq

/-- The byte of a type on disk. -/
def CompressionType.toByte : CompressionType → UInt8
  | noCompression => 0
  | snappyCompression => 1

/-- `kBlockTrailerSize`: a type of one byte and a checksum of four. -/
def kBlockTrailerSize : ℕ := 5

/-- What `WriteRawBlock` puts behind the contents of a block. -/
def blockTrailer (crc : Crc32c) (contents : Bytes) (type : CompressionType) : Bytes :=
  let sum := crc.extend (crc.value contents) [type.toByte]
  type.toByte :: fixed32 (crcMask sum)

/-- `Read` of a file that is all there: as many of the bytes as the file has. -/
def readFile (file : Bytes) (offset n : ℕ) : Bytes := (file.drop offset).take n

/-- `ReadBlock`, less the question who owns the bytes. -/
def readBlock (crc : Crc32c) (snappy : Snappy) (file : Bytes) (verifyChecksums : Bool)
    (handle : BlockHandle) : Checked (Except Status Bytes) := do
  let n := handle.size
  let data := readFile file handle.offset (u64 (n + kBlockTrailerSize))
  if data.length ≠ u64 (n + kBlockTrailerSize) then
    .ok (.error (.corruption (literal "truncated block read")))
  else
    let mismatch ←
      if verifyChecksums then do
        let stored ← decodeFixed32 data (n + 1)
        let checked ← readSlice data 0 (n + 1)
        .ok (decide (crc.value checked ≠ crcUnmask stored))
      else .ok false
    if mismatch then .ok (.error (.corruption (literal "block checksum mismatch")))
    else
      let type ← readByte data n
      let contents ← readSlice data 0 n
      if type = CompressionType.noCompression.toByte then .ok (.ok contents)
      else if type = CompressionType.snappyCompression.toByte then
        match snappy.getUncompressedLength contents, snappy.uncompress contents with
        | some _, some raw => .ok (.ok raw)
        | _, _ => .ok (.error (.corruption (literal "corrupted compressed block contents")))
      else .ok (.error (.corruption (literal "bad block type")))

/-- The block with these contents lies at this handle. -/
def StoredAt (crc : Crc32c) (snappy : Snappy) (file : Bytes) (handle : BlockHandle)
    (contents : Bytes) : Prop :=
  ∃ front stored type back, file = front ++ (stored ++ (blockTrailer crc stored type ++ back)) ∧
    handle = ⟨front.length, stored.length⟩ ∧
    (type = .noCompression ∧ stored = contents ∨
      type = .snappyCompression ∧ snappy.compress contents = some stored)

section Stored

variable {crc : Crc32c} {snappy : Snappy} {file : Bytes} {handle : BlockHandle} {contents : Bytes}

/-- A file that grows keeps its blocks. -/
theorem StoredAt.append (h : StoredAt crc snappy file handle contents) (more : Bytes) :
    StoredAt crc snappy (file ++ more) handle contents := by
  obtain ⟨front, stored, type, back, rfl, rfl, htype⟩ := h
  refine ⟨front, stored, type, back ++ more, ?_, rfl, htype⟩
  simp only [List.append_assoc]

theorem StoredAt.handle_le (h : StoredAt crc snappy file handle contents) :
    handle.offset + handle.size + kBlockTrailerSize ≤ file.length := by
  obtain ⟨front, stored, type, back, rfl, rfl, -⟩ := h
  have htrailer : (blockTrailer crc stored type).length = kBlockTrailerSize := rfl
  simp only [List.length_append, htrailer]
  omega

theorem StoredAt.fits (h : StoredAt crc snappy file handle contents)
    (hfile : file.length < 18446744073709551616) : handle.Fits := by
  have := h.handle_le
  exact ⟨by omega, by omega⟩

/-- **A stored block is read back**, with and without its checksum. -/
theorem readBlock_storedAt (h : StoredAt crc snappy file handle contents)
    (hfile : file.length < 18446744073709551616) (verifyChecksums : Bool) :
    readBlock crc snappy file verifyChecksums handle = .ok (.ok contents) := by
  have hle := h.handle_le
  obtain ⟨front, stored, type, back, rfl, rfl, htype⟩ := h
  have htrailer : (blockTrailer crc stored type).length = kBlockTrailerSize := rfl
  have hsize : u64 (stored.length + kBlockTrailerSize)
      = (stored ++ blockTrailer crc stored type).length := by
    simp only at hle
    rw [List.length_append, htrailer, u64_of_lt (by omega)]
  have hdata : readFile (front ++ (stored ++ (blockTrailer crc stored type ++ back))) front.length
      (u64 (stored.length + kBlockTrailerSize)) = stored ++ blockTrailer crc stored type := by
    rw [readFile, List.drop_left, hsize, ← List.append_assoc, List.take_left]
  have hcontents : readSlice (stored ++ blockTrailer crc stored type) 0 stored.length
      = .ok stored := readSlice_append [] stored _
  have hbyte : readByte (stored ++ blockTrailer crc stored type) stored.length
      = .ok type.toByte := by
    rw [readByte, List.getElem?_append_right le_rfl, Nat.sub_self]
    rfl
  have hchecked : readSlice (stored ++ blockTrailer crc stored type) 0 (stored.length + 1)
      = .ok (stored ++ [type.toByte]) := by
    have := readSlice_append [] (stored ++ [type.toByte])
      (fixed32 (crcMask (crc.extend (crc.value stored) [type.toByte])))
    rw [List.length_append, List.append_assoc] at this
    exact this
  have hsum : decodeFixed32 (stored ++ blockTrailer crc stored type) (stored.length + 1)
      = .ok (crcMask (crc.extend (crc.value stored) [type.toByte])) := by
    have := decodeFixed32_append (stored ++ [type.toByte]) []
      (crcMask (crc.extend (crc.value stored) [type.toByte]))
    rw [List.length_append, List.append_nil, List.append_assoc] at this
    exact this
  have hmatch : crc.value (stored ++ [type.toByte])
      = crcUnmask (crcMask (crc.extend (crc.value stored) [type.toByte])) := by
    rw [crcUnmask_crcMask, Crc32c.value, Crc32c.value, crc.extend_append]
  rw [readBlock]
  simp only [hdata]
  rw [if_neg (not_not.2 hsize.symm), hsum, ok_bind, hchecked, ok_bind, hmatch]
  simp only [ne_eq, not_true_eq_false, decide_false, ite_self, ok_bind, Bool.false_eq_true, if_false]
  rw [hbyte, ok_bind, hcontents, ok_bind]
  rcases htype with ⟨rfl, rfl⟩ | ⟨rfl, hcompress⟩
  · rfl
  · obtain ⟨hlength, huncompress⟩ := snappy.uncompress_compress _ _ hcompress
    have hother : CompressionType.snappyCompression.toByte ≠ CompressionType.noCompression.toByte :=
      by decide
    rw [if_neg hother, if_pos rfl, hlength, huncompress]

end Stored

end PackedFilters.LevelDb
