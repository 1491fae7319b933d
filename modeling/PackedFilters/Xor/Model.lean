import PackedFilters.Codec.Bloom
import PackedFilters.Lib.WhileLoop

/-!
# The Xor filter policy of LevelDB and PebblesDB

`util/xor_filter.cc`.  Every key's hash touches three positions of a table, one in each
third, and the three values there are to add up to the key's fingerprint.  The builder counts
how many hashes touch a position and keeps their exclusive or; it peels off a hash that has a
position to itself until none is left, and assigns the table in the reverse of that order.
The reader adds up three values and compares.

The first half of the file (positions, fingerprint, peeling and assignment) is the same code
in RocksDB and Speedb, whose model uses these definitions.  The two vectors of the peeling
loop are lists, and its queue is a list with an index into it, as in the source, which never
takes an entry out.

* `getPositions`, `fingerprint` — what a hash stands for;
* `countHashes`, `peelStep`, `peelHashes` — the peeling;
* `assignFingerprints` — the assignment, from the last hash that was peeled to the first;
* `tryBuildXor`, `trySeeds`, `createFilter` — one seed, the loop over the seeds, and the
  builder with its fallbacks;
* `readFingerprint`, `xorMayMatch`, `keyMayMatch` — the reader.

`Hash` is a parameter.  Sorting the hashes and dropping repetitions leaves nothing open:
equal hashes are equal numbers.
-/

namespace PackedFilters.Xor

/-! ## Parameters -/

def kCapacityNumerator : ℕ := 123

def kCapacityDenominator : ℕ := 100

def kCapacitySlack : ℕ := 32

def kMaxSeedTries : ℕ := 64

def kSecondHashDelta : UInt32 := 0x7F4A7C15

def kFormatMagic : UInt8 := 0xA9

def kEncodingXor : UInt8 := 1

/-- `AppendTrailer`: the twelve bytes of a trailer with the magic byte of the Xor policy behind
`dst`. -/
def appendTrailer (dst : Bytes) (seed lengthOrBits : UInt32) (aux type : UInt8) : Bytes :=
  PackedFilters.appendTrailer kFormatMagic dst seed lengthOrBits aux type

/-! ## Positions and fingerprint -/

/-- `RotateLeft64`: the bits that leave a word on the left come back on the right. -/
def rotateLeft64 (value : UInt64) (distance : ℕ) : UInt64 :=
  shl64 value distance ||| shr64 value (64 - distance)

/-- `Position0`: a position in the first third of the table, from the lower half of the hash. -/
def position0 (hash : UInt64) (blockLength : ℕ) : ℕ := fastRange32 hash.toUInt32 blockLength

/-- `Position1`: a position in the second third, from the hash turned by 21 bits. -/
def position1 (hash : UInt64) (blockLength : ℕ) : ℕ :=
  u32 (blockLength + fastRange32 (rotateLeft64 hash 21).toUInt32 blockLength)

/-- `Position2`: a position in the last third, from the hash turned by 42 bits. -/
def position2 (hash : UInt64) (blockLength : ℕ) : ℕ :=
  u32 (u32 (2 * blockLength) + fastRange32 (rotateLeft64 hash 42).toUInt32 blockLength)

/-- `GetPositions`: the three positions that a hash touches. -/
def getPositions (hash : UInt64) (blockLength : ℕ) : List ℕ :=
  [position0 hash blockLength, position1 hash blockLength, position2 hash blockLength]

/-- The folded hash `Fingerprint` masks. -/
def foldHash (hash : UInt64) : UInt32 :=
  let mixed := hash ^^^ shr64 hash 32
  let mixed := mixed ^^^ shr64 mixed 16
  mixed.toUInt32

/-- `Fingerprint`: the low bits of the folded hash, as many as a value of the table has. -/
def fingerprint (hash : UInt64) (fingerprintBits : ℕ) : UInt32 :=
  foldHash hash &&& bitMask fingerprintBits

/-- The three reads of the reader; `none` when one of them fails. -/
def readFingerprint (payload : Bytes) (payloadSize blockLength fingerprintBits : ℕ)
    (hash : UInt64) : Checked (Option UInt32) := do
  match ← readPackedValue payload payloadSize (position0 hash blockLength) fingerprintBits with
  | none => .ok none
  | some value0 =>
    match ← readPackedValue payload payloadSize (position1 hash blockLength) fingerprintBits with
    | none => .ok none
    | some value1 =>
      match ← readPackedValue payload payloadSize (position2 hash blockLength) fingerprintBits with
      | none => .ok none
      | some value2 => .ok (some (value0 ^^^ value1 ^^^ value2))

/-! ## Peeling -/

/-- `PeelEntry`: a hash and the position it was peeled at. -/
abbrev PeelEntry := UInt64 × ℕ

/-- The variables of the peeling loop.  Every access to the two vectors is at a
position of the table, which the counts and the queue only hold. -/
structure PeelState where
  counts : List ℕ
  hashXors : List UInt64
  queue : List ℕ
  queueIndex : ℕ
  peelOrder : List PeelEntry

/-- `3u * block_length`: the number of positions, as the 32-bit product that the code
computes. -/
def tableLength (blockLength : ℕ) : ℕ := u32 (3 * blockLength)

/-- `++counts[position]; hash_xors[position] ^= hash`. -/
def PeelState.touchPosition (hash : UInt64) (s : PeelState) (position : ℕ) : PeelState :=
  { s with
    counts := s.counts.set position (u32 (s.counts.getD position 0 + 1))
    hashXors := s.hashXors.set position (s.hashXors.getD position 0 ^^^ hash) }

/-- The loop that enters the hashes into the table. -/
def countHashes (blockLength : ℕ) (hashes : List UInt64) : PeelState :=
  hashes.foldl
    (fun s hash => (getPositions hash blockLength).foldl (PeelState.touchPosition hash) s)
    { counts := List.replicate (tableLength blockLength) 0
      hashXors := List.replicate (tableLength blockLength) 0
      queue := []
      queueIndex := 0
      peelOrder := [] }

/-- The state before the peeling loop: the positions counted once are queued. -/
def startPeeling (blockLength : ℕ) (hashes : List UInt64) : PeelState :=
  let s := countHashes blockLength hashes
  { s with
    queue := (List.range (tableLength blockLength)).filter fun p => s.counts.getD p 0 = 1 }

/-- The body of the inner loop: one position of the hash just peeled. -/
def PeelState.releasePosition (hash : UInt64) (s : PeelState) (position : ℕ) : PeelState :=
  if s.counts.getD position 0 = 0 then s
  else
    let count := s.counts.getD position 0 - 1
    { s with
      counts := s.counts.set position count
      hashXors := s.hashXors.set position (s.hashXors.getD position 0 ^^^ hash)
      queue := if count = 1 then s.queue ++ [position] else s.queue }

/-- The body of the peeling loop. -/
def peelStep (blockLength : ℕ) (s : PeelState) : PeelState :=
  let selectedPosition := s.queue.getD s.queueIndex 0
  let s := { s with queueIndex := s.queueIndex + 1 }
  if s.counts.getD selectedPosition 0 ≠ 1 then s
  else
    let hash := s.hashXors.getD selectedPosition 0
    let s := { s with peelOrder := s.peelOrder ++ [(hash, selectedPosition)] }
    (getPositions hash blockLength).foldl (PeelState.releasePosition hash) s

/-- The test of the peeling loop. -/
def PeelState.Pending (s : PeelState) : Prop := s.queueIndex < s.queue.length

instance : DecidablePred PeelState.Pending := fun s =>
  inferInstanceAs (Decidable (s.queueIndex < s.queue.length))

/-- Peeling from the counted table.  No position is queued twice, so one round for
each position and a last test are enough. -/
def peelHashes (blockLength : ℕ) (hashes : List UInt64) : Checked PeelState :=
  match WhileLoop.iterate PeelState.Pending (peelStep blockLength) (tableLength blockLength + 1)
      (startPeeling blockLength hashes) with
  | some s => .ok s
  | none => .error .loopUnfinished

/-! ## Assignment -/

/-- One entry of the assignment loop. -/
def assignEntry (blockLength fingerprintBits : ℕ) (entry : PeelEntry) (table : List UInt32) :
    List UInt32 :=
  let value := fingerprint entry.1 fingerprintBits
  let value := value ^^^ table.getD (position0 entry.1 blockLength) 0
  let value := value ^^^ table.getD (position1 entry.1 blockLength) 0
  let value := value ^^^ table.getD (position2 entry.1 blockLength) 0
  table.set entry.2 (value &&& bitMask fingerprintBits)

/-- The assignment loop, from the last entry of the peel order to the first. -/
def assignFingerprints (blockLength fingerprintBits : ℕ) (peelOrder : List PeelEntry) :
    List UInt32 :=
  peelOrder.foldr (assignEntry blockLength fingerprintBits)
    (List.replicate (tableLength blockLength) 0)

/-! ## Hashes -/

/-- `std::unique` and the `erase` behind it. -/
def unique : List UInt64 → List UInt64
  | [] => []
  | [a] => [a]
  | a :: b :: rest => if a = b then unique (b :: rest) else a :: unique (b :: rest)

/-- `std::sort` and `std::unique` on a vector of hashes. -/
def sortUnique (hashes : List UInt64) : List UInt64 :=
  unique (hashes.mergeSort fun a b => decide (a ≤ b))

/-- `XorHash64`: two 32-bit hashes of the key, under the seed and another one, joined to a word
and mixed. -/
def xorHash64 (hash : HashFunction) (data : Bytes) (seed : UInt32) : UInt64 :=
  let high := hash data seed
  let low := hash data (seed + kSecondHashDelta)
  let hash := shl64 high.toUInt64 32 ||| low.toUInt64
  let hash := hash ^^^ shr64 hash 33
  let hash := hash * 0xff51afd7ed558ccd
  let hash := hash ^^^ shr64 hash 33
  let hash := hash * 0xc4ceb9fe1a85ec53
  hash ^^^ shr64 hash 33

/-- `BuildUniqueHashes`: the hashes of the keys under a seed, sorted and without repetitions. -/
def buildUniqueHashes (hash : HashFunction) (keys : List Bytes) (seed : UInt32) : List UInt64 :=
  sortUnique (keys.map fun key => xorHash64 hash key seed)

/-! ## Internal Bloom fallback -/

/-- The hash the Bloom probes start at. -/
def bloomHash (hash : UInt64) : UInt32 := (hash ^^^ shr64 hash 32).toUInt32

/-- `BuildBloomEncoding`: the Bloom fallback of these hashes behind `encoded`. -/
def buildBloomEncoding (hashes : List UInt64) (bitsPerKey : ℕ) (seed : UInt32) (encoded : Bytes) :
    Checked Bytes :=
  PackedFilters.buildBloomEncoding kFormatMagic (hashes.map bloomHash) bitsPerKey seed encoded

/-- `BloomMayMatch`: the probes of the key in the payload of a fallback, whose hash is taken
under the seed of the trailer. -/
def bloomMayMatch (hash : HashFunction) (key payload : Bytes) (payloadSize : ℕ) (seed : UInt32)
    (bitCount probes : ℕ) : Checked Bool :=
  PackedFilters.bloomMayMatch (bloomHash (xorHash64 hash key seed)) payload payloadSize bitCount
    probes

/-! ## Xor construction -/

/-- `ComputeBlockLength`; 0 stands for a table too long for 32 bits. -/
def computeBlockLength (keyCount : ℕ) : ℕ :=
  if keyCount = 0 then 0
  else
    let scaled := (keyCount * kCapacityNumerator + kCapacityDenominator - 1) / kCapacityDenominator
    let capacity := scaled + kCapacitySlack
    let blockLength := (capacity + 2) / 3
    if blockLength = 0 ∨ 4294967295 / 3 < blockLength then 0 else blockLength

/-- `TryBuildXor`: its result and `*encoded`. -/
def tryBuildXor (hashes : List UInt64) (blockLength fingerprintBits : ℕ) (encoded : Bytes)
    (seed : UInt32) : Checked (Bool × Bytes) :=
  if hashes = [] ∨ blockLength = 0 then .ok (false, encoded)
  else do
    let s ← peelHashes blockLength hashes
    if s.peelOrder.length ≠ hashes.length then .ok (false, encoded)
    else
      let fingerprints := assignFingerprints blockLength fingerprintBits s.peelOrder
      .ok (true, appendTrailer (appendPackedValues fingerprints fingerprintBits encoded) seed
        (UInt32.ofNat blockLength) (UInt8.ofNat fingerprintBits) kEncodingXor)

/-! ## The policy -/

/-- `ComputeFingerprintBits`: the width of a fingerprint, from the bits per key a Bloom filter
would get. -/
def computeFingerprintBits (bloomEquivalentBitsPerKey : ℕ) : ℕ :=
  packedWidth bloomEquivalentBitsPerKey

/-- `XorFilterPolicy`, with what its constructor and factory establish. -/
structure XorFilterPolicy where
  bitsPerKey : ℕ
  fingerprintBits : ℕ
  bitsPerKey_pos : 1 ≤ bitsPerKey
  fingerprintBits_pos : 1 ≤ fingerprintBits
  fingerprintBits_le : fingerprintBits ≤ 16

theorem computeFingerprintBits_pos (bits : ℤ) : 1 ≤ computeFingerprintBits bits.toNat :=
  packedWidth_pos _

theorem computeFingerprintBits_le (bits : ℤ) : computeFingerprintBits bits.toNat ≤ 16 :=
  packedWidth_le _

/-- `NewXorFilterPolicy`: a policy with its two widths, or null where the bits per key are not
positive. -/
def newXorFilterPolicy (bloomEquivalentBitsPerKey : ℤ) : Option XorFilterPolicy :=
  if h : bloomEquivalentBitsPerKey ≤ 0 then none
  else some
    { bitsPerKey := bloomEquivalentBitsPerKey.toNat
      fingerprintBits := computeFingerprintBits bloomEquivalentBitsPerKey.toNat
      bitsPerKey_pos := one_le_toNat h
      fingerprintBits_pos := computeFingerprintBits_pos bloomEquivalentBitsPerKey
      fingerprintBits_le := computeFingerprintBits_le bloomEquivalentBitsPerKey }

namespace XorFilterPolicy

/-- The seed loop of `CreateFilter`; `none` when no seed was accepted. -/
def trySeeds (p : XorFilterPolicy) (hash : HashFunction) (keys : List Bytes) :
    ℕ → UInt32 → Checked (Option Bytes)
  | 0, _ => .ok none
  | tries + 1, seed =>
    let hashes := buildUniqueHashes hash keys seed
    let blockLength := computeBlockLength hashes.length
    if blockLength = 0 then trySeeds p hash keys tries (seed + 1)
    else do
      let (built, encoded) ← tryBuildXor hashes blockLength p.fingerprintBits [] seed
      if built then .ok (some encoded) else trySeeds p hash keys tries (seed + 1)

/-- `CreateFilter`: the new contents of `*dst`. -/
def createFilter (p : XorFilterPolicy) (hash : HashFunction) (keys : List Bytes) (dst : Bytes) :
    Checked Bytes :=
  if keys.length = 0 then .ok (dst ++ appendTrailer [] 0 0 0 kEncodingEmpty)
  else
    let initialHashes := buildUniqueHashes hash keys 0
    if initialHashes = [] then .ok (dst ++ appendTrailer [] 0 0 0 kEncodingEmpty)
    else
      let initialBlockLength := computeBlockLength initialHashes.length
      if initialBlockLength = 0 then do
        let encoded ← buildBloomEncoding initialHashes p.bitsPerKey 0 []
        .ok (dst ++ encoded)
      else
        let initialTableLength := tableLength initialBlockLength
        let xorSize := packedByteSize initialTableLength p.fingerprintBits + kTrailerSize
        let bloomSize := estimatedBloomSerializedSize initialHashes.length p.bitsPerKey
        if bloomSize ≤ xorSize then do
          let encoded ← buildBloomEncoding initialHashes p.bitsPerKey 0 []
          .ok (dst ++ encoded)
        else do
          match ← trySeeds p hash keys kMaxSeedTries 0 with
          | some encoded => .ok (dst ++ encoded)
          | none =>
            let encoded ← buildBloomEncoding initialHashes p.bitsPerKey 0 []
            .ok (dst ++ encoded)

/-- The Xor branch of `KeyMayMatch`, behind its checks. -/
def xorMayMatch (hash : HashFunction) (key payload : Bytes) (payloadSize blockLength : ℕ)
    (fingerprintBits : ℕ) (seed : UInt32) : Checked Bool := do
  let hash := xorHash64 hash key seed
  match ← readFingerprint payload payloadSize blockLength fingerprintBits hash with
  | none => .ok true
  | some actual =>
    let expected := fingerprint hash fingerprintBits
    .ok (actual &&& bitMask fingerprintBits == expected)

/-- `KeyMayMatch`; no field of the policy takes part in it. -/
def keyMayMatch (_p : XorFilterPolicy) (hash : HashFunction) (key filter : Bytes) :
    Checked Bool :=
  matchEncoding kFormatMagic kEncodingXor
    (fun trailer payloadSize =>
      bloomMayMatch hash key filter payloadSize trailer.seed trailer.lengthOrBits.toNat
        trailer.aux.toNat)
    (fun trailer payloadSize =>
      let blockLength := trailer.lengthOrBits.toNat
      let fingerprintBits := trailer.aux.toNat
      if blockLength = 0 ∨ 4294967295 / 3 < blockLength ∨ fingerprintBits < 1 ∨
          16 < fingerprintBits then .ok true
      else if payloadSize ≠ packedByteSize (tableLength blockLength) fingerprintBits then .ok true
      else xorMayMatch hash key filter payloadSize blockLength fingerprintBits trailer.seed)
    filter

end XorFilterPolicy

end PackedFilters.Xor
