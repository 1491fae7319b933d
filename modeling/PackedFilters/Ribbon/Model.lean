import PackedFilters.Codec.Bloom

/-!
# The Ribbon filter policy of LevelDB and PebblesDB

`util/ribbon_filter.cc`, the same code in both engines.  Every key gives one equation over
GF(2): the slots `start + j`, for the set bits `j` of a 64-bit coefficient word, are to add
up to the key's result.  The builder sorts the rows by `start`, eliminates them one by one
into a table of pivots, solves the table from the last slot down with free slots zero, and
packs the solution; the reader walks the same row and compares.

Definitions stand in the order of the source.  Loops carry a bound on their rounds and end in
a fault when it is used up, so that their termination is a theorem and not part of the
definition.  The 32-bit `Hash` and the order `std::sort` leaves equal rows in are parameters.

* `RibbonRow`, `ribbonRow` — the row of a key under a seed;
* `PivotTable`, `eliminateRow`, `eliminateRows` — the elimination;
* `substituteSlot`, `backSubstitute` — the back substitution, with the `int` that counts its
  positions;
* `tryBuildRibbon`, `trySeeds`, `createFilter` — one seed, the loop over the seeds, and the
  builder with its fallbacks;
* `walkRow`, `ribbonMayMatch`, `keyMayMatch` — the reader.
-/

namespace PackedFilters.Ribbon

/-! ## Parameters -/

def kRibbonWidth : ℕ := 64

def kOverheadNumerator : ℕ := 105

def kOverheadDenominator : ℕ := 100

def kMaxSeedTries : ℕ := 64

def kSecondHashDelta : UInt32 := 0x7F4A7C15

def kCoefficientSeedDelta : UInt32 := 0x12345678

def kFormatMagic : UInt8 := 0xB7

def kEncodingRibbon : UInt8 := 1

/-- `AppendTrailer`: the twelve bytes of a trailer with the magic byte of the Ribbon policy
behind `dst`. -/
def appendTrailer (dst : Bytes) (seed slotCount : UInt32) (aux type : UInt8) : Bytes :=
  PackedFilters.appendTrailer kFormatMagic dst seed slotCount aux type

/-- The loop of `CountTrailingZeros64`; a word has at most 64 trailing zeros. -/
def trailingZerosLoop : ℕ → UInt64 → ℕ
  | 0, _ => 0
  | bits + 1, value => if value &&& 1 = 0 then trailingZerosLoop bits (shr64 value 1) + 1 else 0

/-- `CountTrailingZeros64`: the place of the lowest set bit; 64 for a word without one. -/
def countTrailingZeros64 (value : UInt64) : ℕ := trailingZerosLoop 64 value

/-! ## Hash derivation -/

/-- `RibbonHash64`: two 32-bit hashes of the key, under the seed and another one, joined to a
word. -/
def ribbonHash64 (hash : HashFunction) (key : Bytes) (seed : UInt32) : UInt64 :=
  let high := hash key seed
  let low := hash key (seed + kSecondHashDelta)
  shl64 high.toUInt64 32 ||| low.toUInt64

/-- `DeriveStart`: the first slot of a row, from the upper half of its hash. -/
def deriveStart (hash : UInt64) (startCount : ℕ) : ℕ :=
  fastRange32 (shr64 hash 32).toUInt32 startCount

/-- `DeriveCoefficient`: the hash with its lowest bit set, so that a row never begins with a
slot it does not use. -/
def deriveCoefficient (hash : UInt64) : UInt64 := hash ||| 1

/-- `DeriveResult`: the low bits of the hash, as many as a slot has. -/
def deriveResult (hash : UInt64) (resultBits : ℕ) : UInt32 := hash.toUInt32 &&& bitMask resultBits

/-! ## Internal Bloom fallback -/

/-- The seed of the Bloom hash. -/
def bloomSeed : UInt32 := 0xbc9f1d34

/-- `BuildBloomEncoding`: the Bloom fallback of these keys behind `encoded`, from one 32-bit
hash for each of them. -/
def buildBloomEncoding (hash : HashFunction) (keys : List Bytes) (bitsPerKey : ℕ)
    (encoded : Bytes) : Checked Bytes :=
  PackedFilters.buildBloomEncoding kFormatMagic (keys.map fun key => hash key bloomSeed) bitsPerKey
    0 encoded

/-- `BloomMayMatch`: the probes of the key in the payload of a fallback. -/
def bloomMayMatch (hash : HashFunction) (key payload : Bytes) (payloadSize bitCount probes : ℕ) :
    Checked Bool :=
  PackedFilters.bloomMayMatch (hash key bloomSeed) payload payloadSize bitCount probes

/-! ## Rows -/

/-- `RibbonRow`: the first slot of a row, the slots it adds up as bits from there on, and what
they are to add up to. -/
structure RibbonRow where
  start : ℕ
  coefficients : UInt64
  result : UInt32

/-- What `std::sort` does to the rows with `RibbonRowStartLess`: they ascend by `start`, and
rows with equal start stand in some order. -/
abbrev RowSort := StdSort RibbonRow RibbonRow.start

/-- `RibbonSlotCount`: five slots more for 100 keys, but a whole band at least, and 0 where the
number does not fit in 32 bits. -/
def ribbonSlotCount (keyCount : ℕ) : ℕ :=
  if keyCount = 0 then 0
  else
    let slotCount :=
      if keyCount < kRibbonWidth then kRibbonWidth + keyCount
      else (keyCount * kOverheadNumerator + kOverheadDenominator - 1) / kOverheadDenominator
    let slotCount := if slotCount < kRibbonWidth then kRibbonWidth else slotCount
    if 4294967295 < slotCount then 0 else slotCount

/-- The row of one key, as `TryBuildRibbon` fills it. -/
def ribbonRow (hash : HashFunction) (slotCount resultBits : ℕ) (seed : UInt32) (key : Bytes) :
    RibbonRow :=
  let startCount := slotCount - kRibbonWidth + 1
  let resultHash := ribbonHash64 hash key seed
  let coefficientHash := ribbonHash64 hash key (seed + kCoefficientSeedDelta)
  { start := deriveStart resultHash startCount
    coefficients := deriveCoefficient coefficientHash
    result := deriveResult resultHash resultBits }

/-! ## Elimination -/

/-- The vectors `pivots` and `pivot_results`. -/
structure PivotTable where
  pivots : List UInt64
  pivotResults : List UInt32

/-- Both vectors zero: no position has a pivot yet. -/
def PivotTable.empty (slotCount : ℕ) : PivotTable where
  pivots := List.replicate slotCount 0
  pivotResults := List.replicate slotCount 0

/-- Store a row at its leading position. -/
def PivotTable.store (t : PivotTable) (position : ℕ) (coefficients : UInt64) (result : UInt32) :
    PivotTable where
  pivots := t.pivots.set position coefficients
  pivotResults := t.pivotResults.set position result

/-- The loop `while (coefficients != 0)` on one row; `none` is `return false`. -/
def eliminateLoop (slotCount : ℕ) (t : PivotTable) :
    ℕ → UInt64 → UInt32 → ℕ → Checked (Option PivotTable)
  | 0, _, _, _ => .error .loopUnfinished
  | rounds + 1, coefficients, result, position =>
    if coefficients = 0 then
      -- the test behind the loop: the row has cancelled to `0 = result`
      if result ≠ 0 then .ok none else .ok (some t)
    else
      let leadingZeroes := countTrailingZeros64 coefficients
      let position := u32 (position + leadingZeroes)
      let coefficients := shr64 coefficients leadingZeroes
      if slotCount ≤ position then
        if result ≠ 0 then .ok none else .ok (some t)
      else if t.pivots.getD position 0 = 0 then
        .ok (some (t.store position coefficients result))
      else
        eliminateLoop slotCount t rounds (coefficients ^^^ t.pivots.getD position 0)
          (result ^^^ t.pivotResults.getD position 0) position

/-- One row.  The position grows in every round but the first and stays below
`slot_count`, so `slot_count + 2` rounds are enough. -/
def eliminateRow (slotCount : ℕ) (t : PivotTable) (row : RibbonRow) :
    Checked (Option PivotTable) :=
  eliminateLoop slotCount t (slotCount + 2) row.coefficients row.result row.start

/-- The loop over the sorted rows. -/
def eliminateRows (slotCount : ℕ) : List RibbonRow → PivotTable → Checked (Option PivotTable)
  | [], t => .ok (some t)
  | row :: rows, t => do
    match ← eliminateRow slotCount t row with
    | none => .ok none
    | some t => eliminateRows slotCount rows t

/-! ## Back substitution -/

/-- The loop over the coefficients of one pivot behind its leading one.
`remaining` loses its lowest bit in every round, so 64 rounds empty it. -/
def substituteLoop (solution : List UInt32) (slots : ℤ) (position : ℕ) :
    ℕ → UInt64 → ℕ → UInt32 → UInt32
  | 0, _, _, value => value
  | rounds + 1, remaining, relative, value =>
    if remaining ≠ 0 ∧ (position + relative : ℤ) < slots then
      substituteLoop solution slots position rounds (shr64 remaining 1) (relative + 1)
        (if remaining &&& 1 ≠ 0 then value ^^^ solution.getD (position + relative) 0 else value)
    else value

/-- One position of the back substitution. -/
def substituteSlot (t : PivotTable) (slotCount resultBits position : ℕ)
    (solution : List UInt32) : List UInt32 :=
  if t.pivots.getD position 0 = 0 then solution
  else
    let value := substituteLoop solution (intOfU32 slotCount) position 64
      (shr64 (t.pivots.getD position 0) 1) 1 (t.pivotResults.getD position 0)
    solution.set position (value &&& bitMask resultBits)

/-- The positions below `bound`, from the last one down. -/
def substituteBelow (t : PivotTable) (slotCount resultBits : ℕ) : ℕ → List UInt32 → List UInt32
  | 0, solution => solution
  | position + 1, solution =>
    substituteBelow t slotCount resultBits position
      (substituteSlot t slotCount resultBits position solution)

/-- The back substitution; its loop counter is an `int` that starts at
`static_cast<int>(slot_count) - 1`.  At exactly 2^31 slots the cast gives the least `int`, and
the subtraction overflows; from there on the counter starts below zero. -/
def backSubstitute (t : PivotTable) (slotCount resultBits : ℕ) : Checked (List UInt32) :=
  if intOfU32 slotCount - 1 < -2147483648 then .error .signedOverflow
  else .ok (substituteBelow t slotCount resultBits (intOfU32 slotCount).toNat
    (List.replicate slotCount 0))

/-- The part of `TryBuildRibbon` before the encoding: the solution of the rows, or
`none` where it returns `false`. -/
def solveRows (slotCount resultBits : ℕ) (rows : List RibbonRow) :
    Checked (Option (List UInt32)) := do
  match ← eliminateRows slotCount rows (PivotTable.empty slotCount) with
  | none => .ok none
  | some t => do
    let solution ← backSubstitute t slotCount resultBits
    .ok (some solution)

/-- `TryBuildRibbon`: its result and `*encoded`. -/
def tryBuildRibbon (hash : HashFunction) (sort : RowSort) (keys : List Bytes)
    (slotCount resultBits : ℕ) (seed : UInt32) (encoded : Bytes) : Checked (Bool × Bytes) :=
  if slotCount < kRibbonWidth then .ok (false, encoded)
  else do
    let rows := sort.run (keys.map (ribbonRow hash slotCount resultBits seed))
    match ← solveRows slotCount resultBits rows with
    | none => .ok (false, encoded)
    | some solution =>
      .ok (true, appendTrailer (appendPackedValues solution resultBits encoded) seed
        (UInt32.ofNat slotCount) (UInt8.ofNat resultBits) kEncodingRibbon)

/-! ## The policy -/

/-- `ComputeResultBits`: the width of a slot, from the bits per key a Bloom filter would get. -/
def computeResultBits (bloomEquivalentBitsPerKey : ℕ) : ℕ := packedWidth bloomEquivalentBitsPerKey

/-- `RibbonFilterPolicy`, with what its constructor and factory establish. -/
structure RibbonFilterPolicy where
  bitsPerKey : ℕ
  resultBits : ℕ
  bitsPerKey_pos : 1 ≤ bitsPerKey
  resultBits_pos : 1 ≤ resultBits
  resultBits_le : resultBits ≤ 16

theorem computeResultBits_pos (bits : ℤ) : 1 ≤ computeResultBits bits.toNat := packedWidth_pos _

theorem computeResultBits_le (bits : ℤ) : computeResultBits bits.toNat ≤ 16 := packedWidth_le _

/-- `NewRibbonFilterPolicy`: a policy with its two widths, or null where the bits per key are
not positive. -/
def newRibbonFilterPolicy (bloomEquivalentBitsPerKey : ℤ) : Option RibbonFilterPolicy :=
  if h : bloomEquivalentBitsPerKey ≤ 0 then none
  else some
    { bitsPerKey := bloomEquivalentBitsPerKey.toNat
      resultBits := computeResultBits bloomEquivalentBitsPerKey.toNat
      bitsPerKey_pos := one_le_toNat h
      resultBits_pos := computeResultBits_pos bloomEquivalentBitsPerKey
      resultBits_le := computeResultBits_le bloomEquivalentBitsPerKey }

namespace RibbonFilterPolicy

/-- The seed loop of `CreateFilter`; `none` when no seed was accepted. -/
def trySeeds (p : RibbonFilterPolicy) (hash : HashFunction) (sort : RowSort) (keys : List Bytes)
    (slotCount : ℕ) : ℕ → UInt32 → Checked (Option Bytes)
  | 0, _ => .ok none
  | tries + 1, seed => do
    let (built, encoded) ← tryBuildRibbon hash sort keys slotCount p.resultBits seed []
    if built then .ok (some encoded)
    else trySeeds p hash sort keys slotCount tries (seed + 1)

/-- `CreateFilter`: the new contents of `*dst`. -/
def createFilter (p : RibbonFilterPolicy) (hash : HashFunction) (sort : RowSort)
    (keys : List Bytes) (dst : Bytes) : Checked Bytes :=
  if keys.length = 0 then .ok (dst ++ appendTrailer [] 0 0 0 kEncodingEmpty)
  else
    let slotCount := ribbonSlotCount keys.length
    if slotCount = 0 then do
      let encoded ← buildBloomEncoding hash keys p.bitsPerKey []
      .ok (dst ++ encoded)
    else
      let ribbonSize := packedByteSize slotCount p.resultBits + kTrailerSize
      let bloomSize := estimatedBloomSerializedSize keys.length p.bitsPerKey
      if bloomSize ≤ ribbonSize then do
        let encoded ← buildBloomEncoding hash keys p.bitsPerKey []
        .ok (dst ++ encoded)
      else do
        match ← trySeeds p hash sort keys slotCount kMaxSeedTries 0 with
        | some encoded => .ok (dst ++ encoded)
        | none =>
          let encoded ← buildBloomEncoding hash keys p.bitsPerKey []
          .ok (dst ++ encoded)

/-- The loop of `KeyMayMatch` over the coefficients; `none` is `return true`.  A
word of 64 bits has at most 64 set ones, and one more round sees it empty. -/
def walkRow (payload : Bytes) (payloadSize slotCount resultBits : ℕ) :
    ℕ → ℕ → UInt64 → UInt32 → Checked (Option UInt32)
  | 0, _, _, _ => .error .loopUnfinished
  | rounds + 1, position, coefficients, actual =>
    if coefficients = 0 then .ok (some actual)
    else
      let leadingZeroes := countTrailingZeros64 coefficients
      let position := u32 (position + leadingZeroes)
      let coefficients := shr64 coefficients leadingZeroes
      if slotCount ≤ position then .ok none
      else do
        match ← readPackedValue payload payloadSize position resultBits with
        | none => .ok none
        | some value =>
          walkRow payload payloadSize slotCount resultBits rounds (u32 (position + 1))
            (shr64 coefficients 1) (actual ^^^ value)

/-- The Ribbon branch of `KeyMayMatch`, behind its checks. -/
def ribbonMayMatch (hash : HashFunction) (key payload : Bytes) (payloadSize slotCount : ℕ)
    (resultBits : ℕ) (seed : UInt32) : Checked Bool := do
  let startCount := slotCount - kRibbonWidth + 1
  let resultHash := ribbonHash64 hash key seed
  let coefficientHash := ribbonHash64 hash key (seed + kCoefficientSeedDelta)
  let position := deriveStart resultHash startCount
  let coefficients := deriveCoefficient coefficientHash
  let expected := deriveResult resultHash resultBits
  match ← walkRow payload payloadSize slotCount resultBits 65 position coefficients 0 with
  | none => .ok true
  | some actual => .ok (actual &&& bitMask resultBits == expected)

/-- `KeyMayMatch`; no field of the policy takes part in it. -/
def keyMayMatch (_p : RibbonFilterPolicy) (hash : HashFunction) (key filter : Bytes) :
    Checked Bool :=
  matchEncoding kFormatMagic kEncodingRibbon
    (fun trailer payloadSize =>
      bloomMayMatch hash key filter payloadSize trailer.lengthOrBits.toNat trailer.aux.toNat)
    (fun trailer payloadSize =>
      let slotCount := trailer.lengthOrBits.toNat
      let resultBits := trailer.aux.toNat
      if resultBits < 1 ∨ 16 < resultBits ∨ slotCount < kRibbonWidth ∨
          payloadSize ≠ packedByteSize slotCount resultBits then .ok true
      else ribbonMayMatch hash key filter payloadSize slotCount resultBits trailer.seed)
    filter

end RibbonFilterPolicy

end PackedFilters.Ribbon
