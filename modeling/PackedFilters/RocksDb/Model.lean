import PackedFilters.Xor.Model

/-!
# The Xor filter of RocksDB and Speedb

`util/xor_filter.cc` of both engines, and the dispatch that hands a filter to its reader,
`BuiltinFilterPolicy::GetBuiltinFilterBitsReader`.  Positions, fingerprint, peeling and
assignment are those of the LevelDB filter; here they run on hashes mixed with the seed.  A
filter ends in fourteen bytes `[seed] [block_length] [fingerprint_bits] [-3] [0] [0] [0]
[0]`; with block length zero the first three fields hold the size and the probes of a Bloom
filter.

The builder is an object that keys are added to and that is asked for a filter at the end,
perhaps more than once.  So `finish` returns the builder too: its vector of hashes is sorted
in place and not emptied.  Sizes are computed in the widths of the code, 64 bits for the
capacity and 32 for what follows from it, and every product is wrapped.

* `XorFilterBitsBuilder`, `addKey`, `finish` — the builder; `runBatches` — one builder, used
  for several filters;
* `XorFilterBitsReader`, `hashMayMatch` — the reader, on any contents;
* `getBuiltinFilterBitsReader` — which reader gets a filter, from its last five bytes.

`GetSliceHash64` is a parameter.
-/

namespace PackedFilters.RocksDb

open PackedFilters.Xor

/-! ## Parameters -/

def kCapacityNumerator : ℕ := 123

def kCapacityDenominator : ℕ := 100

def kCapacitySlack : ℕ := 32

def kMaxSeedTries : ℕ := 64

/-- 5 for marker, 9 for Xor specific. -/
def kTrailerSize : ℕ := 5 + 9

def kRocksDbMarkerXor : Int8 := -3

/-- `GetSliceHash64`: the 64-bit hash of a key, which the builder and the reader share. -/
abbrev SliceHash := Bytes → UInt64

/-- The fourteen bytes behind the payload. -/
def appendTrailer (dst : Bytes) (seed blockLength : UInt32) (fingerprintBits : UInt8) : Bytes :=
  appendFixed32 (appendFixed32 dst seed) blockLength ++
    [fingerprintBits, kRocksDbMarkerXor.toUInt8, 0, 0, 0, 0]

/-- `MixHash`: the hash of a key under a seed, by products with odd constants and shifts. -/
def mixHash (hash : UInt64) (seed : UInt32) : UInt64 :=
  let mixed := hash ^^^ (seed.toUInt64 * 0x9e3779b97f4a7c15)
  let mixed := mixed * 0xff51afd7ed558ccd
  let mixed := mixed ^^^ shr64 mixed 33
  let mixed := mixed * 0xc4ceb9fe1a85ec53
  mixed ^^^ shr64 mixed 33

/-- `ComputeFingerprintBits`: the width of a fingerprint, from the bits per key. -/
def computeFingerprintBits (bitsPerKey : ℕ) : ℕ := packedWidth bitsPerKey

/-! ## Bloom fallback -/

/-- `BuildBloomFallback`.  Unlike its sibling in LevelDB it does not ask whether
`bit_count` is zero. -/
def buildBloomFallback (hashes : List UInt64) (bitsPerKey : ℕ) : Checked Bytes := do
  let bitCount := bloomBitCount hashes.length bitsPerKey
  let byteCount := bitCount / 8
  let probes := bloomProbeCount bitsPerKey
  let dst ← addBloomHashes 0 bitCount probes (hashes.map UInt64.toUInt32)
    (List.replicate byteCount 0)
  .ok (appendTrailer dst (UInt32.ofNat bitCount) 0 (UInt8.ofNat probes))

/-! ## Builder -/

/-- `XorFilterBitsBuilder`: its bits per key and `hash_entries_`, the hashes of the keys added
so far. -/
structure XorFilterBitsBuilder where
  bitsPerKey : ℕ
  hashEntries : List UInt64

/-- `capacity` in `Finish`: the positions wanted for so many keys, 123 for 100 and a few
more. -/
def capacity (keyCount : ℕ) : ℕ :=
  u64 (u64 (keyCount * kCapacityNumerator) / kCapacityDenominator + kCapacitySlack)

/-- `block_length` in `Finish`: a third of the capacity, cut to 32 bits. -/
def blockLength (keyCount : ℕ) : ℕ := u32 (capacity keyCount / 3)

/-- `table_size` in `Finish`: three blocks, as a 32-bit product. -/
def tableSize (keyCount : ℕ) : ℕ := tableLength (blockLength keyCount)

/-- One round of the seed loop, on the mixed hashes. -/
def peelSeed (blockLength : ℕ) (hashes : List UInt64) (seed : UInt32) : Checked PeelState :=
  peelHashes blockLength (hashes.map fun hash => mixHash hash seed)

/-- The seed loop: `best_seed` and the peel order, or `none`. -/
def trySeeds (blockLength : ℕ) (hashes : List UInt64) :
    ℕ → UInt32 → Checked (Option (UInt32 × List PeelEntry))
  | 0, _ => .ok none
  | tries + 1, seed => do
    let s ← peelSeed blockLength hashes seed
    if s.peelOrder.length = hashes.length then .ok (some (seed, s.peelOrder))
    else trySeeds blockLength hashes tries (seed + 1)

/-- `Finish`, behind the sorting of the hashes. -/
def finishHashes (bitsPerKey : ℕ) (hashes : List UInt64) : Checked Bytes :=
  let keyCount := hashes.length
  if keyCount = 0 then .ok (appendTrailer [] 0 0 0)
  else if bitsPerKey ≤ 0 ∨ 16 < bitsPerKey then buildBloomFallback hashes bitsPerKey
  else
    let fingerprintBits := computeFingerprintBits bitsPerKey
    let blockLength := blockLength keyCount
    let tableSize := tableSize keyCount
    if 4294967295 < tableSize ∨ blockLength = 0 ∨ tableSize < keyCount then
      buildBloomFallback hashes bitsPerKey
    else do
      match ← trySeeds blockLength hashes kMaxSeedTries 0 with
      | none => buildBloomFallback hashes bitsPerKey
      | some (bestSeed, peelOrder) =>
        let table := assignFingerprints blockLength fingerprintBits peelOrder
        .ok (appendTrailer (appendPackedValues table fingerprintBits []) bestSeed
          (UInt32.ofNat blockLength) (UInt8.ofNat fingerprintBits))

namespace XorFilterBitsBuilder

/-- The constructor: no hashes yet. -/
def new (bitsPerKey : ℕ) : XorFilterBitsBuilder where
  bitsPerKey := bitsPerKey
  hashEntries := []

/-- `AddKey`: the hash of the key is appended, unless the last one is the same. -/
def addKey (sliceHash : SliceHash) (b : XorFilterBitsBuilder) (key : Bytes) :
    XorFilterBitsBuilder :=
  let hash := sliceHash key
  if b.hashEntries = [] ∨ some hash ≠ b.hashEntries.getLast? then
    { b with hashEntries := b.hashEntries ++ [hash] }
  else b

/-- `AddKey` for all keys of a batch. -/
def addKeys (sliceHash : SliceHash) (b : XorFilterBitsBuilder) (keys : List Bytes) :
    XorFilterBitsBuilder := keys.foldl (addKey sliceHash) b

/-- `EstimateEntriesAdded`: the number of hashes in the vector, those of earlier filters
included. -/
def estimateEntriesAdded (b : XorFilterBitsBuilder) : ℕ := b.hashEntries.length

/-- `Finish`: the builder afterwards and the filter.  `hashes` is a reference to
`hash_entries_`, so sorting it and erasing its repetitions changes the builder. -/
def finish (b : XorFilterBitsBuilder) : XorFilterBitsBuilder × Checked Bytes :=
  let hashes := sortUnique b.hashEntries
  ({ b with hashEntries := hashes }, finishHashes b.bitsPerKey hashes)

/-- A run of one builder over batches of keys: what `EstimateEntriesAdded` says just
before each `Finish`, and what that `Finish` returns. -/
def runBatches (sliceHash : SliceHash) :
    XorFilterBitsBuilder → List (List Bytes) → List (ℕ × Checked Bytes)
  | _, [] => []
  | b, batch :: batches =>
    let b := b.addKeys sliceHash batch
    let (next, filter) := b.finish
    (b.estimateEntriesAdded, filter) :: runBatches sliceHash next batches

end XorFilterBitsBuilder

/-! ## Reader -/

/-- `XorFilterBitsReader`.  Where the constructor leaves `seed_`, `block_length_` and
`fingerprint_bits_` unset, `payload_size_` is zero and none of them is read. -/
structure XorFilterBitsReader where
  filter : Bytes
  seed : UInt32
  blockLength : UInt32
  fingerprintBits : UInt8
  payloadSize : ℕ

namespace XorFilterBitsReader

/-- The constructor: the fields of the trailer, or none of them where the contents are shorter
than one. -/
def new (contents : Bytes) : Checked XorFilterBitsReader :=
  if contents.length < kTrailerSize then
    .ok { filter := contents, seed := 0, blockLength := 0, fingerprintBits := 0, payloadSize := 0 }
  else do
    let trailer := contents.length - kTrailerSize
    let seed ← decodeFixed32 contents trailer
    let blockLength ← decodeFixed32 contents (trailer + 4)
    let fingerprintBits ← readByte contents (trailer + 8)
    .ok { filter := contents, seed, blockLength, fingerprintBits, payloadSize := trailer }

/-- `HashMayMatch`: without a payload every key may match; with block length zero the Bloom
probes run over the contents; else three values are read, and "may match" is the answer if one
of them ends behind the payload. -/
def hashMayMatch (r : XorFilterBitsReader) (h : UInt64) : Checked Bool :=
  if r.payloadSize = 0 then .ok true
  else if r.blockLength = 0 then
    let bitCount := r.seed.toNat
    let probes := r.fingerprintBits.toNat
    if bitCount = 0 ∨ probes = 0 then .ok true
    else testProbes r.filter bitCount probes h.toUInt32 (bloomDelta h.toUInt32)
  else do
    let mixed := mixHash h r.seed
    let fingerprintBits := r.fingerprintBits.toNat
    match ← readFingerprint r.filter r.payloadSize r.blockLength.toNat fingerprintBits mixed with
    | none => .ok true
    | some values =>
      let mask ← checkedBitMask fingerprintBits
      .ok ((foldHash mixed &&& mask) == values)

/-- `MayMatch`: the same for the hash of a key. -/
def mayMatch (sliceHash : SliceHash) (r : XorFilterBitsReader) (entry : Bytes) : Checked Bool :=
  r.hashMayMatch (sliceHash entry)

end XorFilterBitsReader

/-! ## Dispatch -/

/-- `kMetadataLen`: the bytes at the end of a filter that say which reader it is for. -/
def kMetadataLen : ℕ := 5

/-- `CACHE_LINE_SIZE` on x86-64, which old filters measure their lines in. -/
def kCacheLineSize : ℕ := 64

/-- The readers `GetBuiltinFilterBitsReader` chooses from. -/
inductive BuiltinReader where
  | alwaysFalse
  | alwaysTrue
  | bloom
  | ribbon
  | xor
  | legacyBloom (numProbes numLines log2CacheLineSize : ℕ)
  deriving DecidableEq, Repr

/-- The loop over `log2_cache_line_size`; a 32-bit word can be shifted by 31 at most. -/
def cacheLineLoop (numLines len : ℕ) : ℕ → ℕ → Checked ℕ
  | 0, log2 => .error (.shiftOutside log2)
  | rounds + 1, log2 =>
    if u32 (numLines * 2 ^ log2) < len then cacheLineLoop numLines len rounds (log2 + 1)
    else .ok log2

/-- `GetBuiltinFilterBitsReader`: the marker in front of the last four bytes chooses the reader;
from 1 on it is the number of probes of an old Bloom filter, whose lines are counted. -/
def getBuiltinFilterBitsReader (contents : Bytes) : Checked BuiltinReader :=
  let lenWithMeta := u32 contents.length
  if lenWithMeta ≤ kMetadataLen then .ok .alwaysFalse
  else do
    let marker ← readByte contents (lenWithMeta - kMetadataLen)
    let rawNumProbes := marker.toInt8
    if rawNumProbes < 1 then
      .ok (if rawNumProbes = 0 then .alwaysTrue
        else if rawNumProbes = -1 then .bloom
        else if rawNumProbes = -2 then .ribbon
        else if rawNumProbes = -3 then .xor
        else .alwaysTrue)
    else
      let len := lenWithMeta - kMetadataLen
      let numLines := (← decodeFixed32 contents (lenWithMeta - 4)).toNat
      if u32 (numLines * kCacheLineSize) = len then
        .ok (.legacyBloom rawNumProbes.toNatClampNeg numLines 6)
      else if numLines = 0 ∨ len % numLines ≠ 0 then .ok .alwaysTrue
      else do
        let log2CacheLineSize ← cacheLineLoop numLines len 32 0
        if u32 (numLines * 2 ^ log2CacheLineSize) ≠ len then .ok .alwaysTrue
        else .ok (.legacyBloom rawNumProbes.toNatClampNeg numLines log2CacheLineSize)

end PackedFilters.RocksDb
