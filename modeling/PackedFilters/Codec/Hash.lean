import PackedFilters.Machine

/-!
# The hashes

`Hash(data, n, seed)` of `util/hash.cc`, which the filters of LevelDB and PebblesDB take
their hashes and Bloom probes from, and the part of `util/xxph3.h` that gives RocksDB and
Speedb the 64-bit hash of a short key.

The two engines' `Hash` differ in one place.  It adds the data four bytes at a time and then,
in a `switch` that falls through, the one to three bytes that remain; LevelDB widens those as
`uint8_t`, PebblesDB adds a `char`, which is signed on this machine.  Both are `hashBytes`,
with the widening as a parameter, so that what sets the engines apart is one argument.

* `hashBytes`, `hashTail` — the loop and the `switch` behind it;
* `leveldbHash`, `pebblesdbHash` — the two functions;
* `charToUInt32` — what a signed `char` becomes in a sum of `uint32_t`;
* `xxph3Len1to3` — `GetSliceHash64` of one to three bytes, which the concrete runs of the
  RocksDB builder are about.

The filters' own theorems hold for any hash function; these are the ones they are linked
with, and only the comparison of the engines and the concrete runs look inside them.
-/

namespace PackedFilters

/-- The multiplier `m` of `Hash`, an odd constant, so that a product with it can be undone. -/
def hashMultiplier : UInt32 := 0xc6a4a793

/-- What the `case 1` of the remaining bytes does after adding the last of them. -/
def hashFinish (h : UInt32) : UInt32 :=
  let h := h * hashMultiplier
  h ^^^ (h >>> 24)

/-- One round of the loop over four bytes. -/
def hashWord (h w : UInt32) : UInt32 :=
  let h := (h + w) * hashMultiplier
  h ^^^ (h >>> 16)

/-- The `switch` on the bytes that remain.  `widen` is how the compiler takes one of
them to a 32-bit number. -/
def hashTail (widen : UInt8 → UInt32) : Bytes → UInt32 → UInt32
  | [b0, b1, b2], h => hashFinish (h + (widen b2 <<< 16) + (widen b1 <<< 8) + widen b0)
  | [b0, b1], h => hashFinish (h + (widen b1 <<< 8) + widen b0)
  | [b0], h => hashFinish (h + widen b0)
  | _, h => h

/-- The loop over the data, `words` times four bytes, and the `switch` behind it. -/
def hashBytes (widen : UInt8 → UInt32) : ℕ → Bytes → UInt32 → UInt32
  | 0, data, h => hashTail widen data h
  | words + 1, data, h =>
    let w := (data.getD 0 0).toUInt32 ||| ((data.getD 1 0).toUInt32 <<< 8) |||
      ((data.getD 2 0).toUInt32 <<< 16) ||| ((data.getD 3 0).toUInt32 <<< 24)
    hashBytes widen words (data.drop 4) (hashWord h w)

/-- `Hash` of LevelDB: the remaining bytes are read as `uint8_t`. -/
def leveldbHash : HashFunction := fun data seed =>
  hashBytes UInt8.toUInt32 (data.length / 4) data
    (seed ^^^ (UInt32.ofNat data.length * hashMultiplier))

/-- A `char`, which is signed, as an `int` and then as a `uint32_t`. -/
def charToUInt32 (b : UInt8) : UInt32 := b.toInt8.toInt32.toUInt32

/-- `Hash` of PebblesDB: the remaining bytes are read as `char`. -/
def pebblesdbHash : HashFunction := fun data seed =>
  hashBytes charToUInt32 (data.length / 4) data
    (seed ^^^ (UInt32.ofNat data.length * hashMultiplier))

/-- `XXPH3_avalanche`: the last mixing of a hash, a shift, a product and a shift. -/
def xxph3Avalanche (h : UInt64) : UInt64 :=
  let h := h ^^^ shr64 h 37
  let h := h * 0x165667B19E3779F9
  h ^^^ shr64 h 32

/-- `XXPH3_len_1to3_64b` with seed 0: `GetSliceHash64` on keys of one to three bytes. -/
def xxph3Len1to3 (input : Bytes) : UInt64 :=
  let len := input.length
  let c1 := input.getD 0 0
  let c2 := input.getD (len / 2) 0
  let c3 := input.getD (len - 1) 0
  let combined := c1.toUInt32 ||| (c2.toUInt32 <<< 8) ||| (c3.toUInt32 <<< 16) |||
    (UInt32.ofNat len <<< 24)
  -- the first four bytes of `kSecret`, little endian
  let keyed := combined.toUInt64 ^^^ 0x396cfeb8
  xxph3Avalanche (keyed * 0x9E3779B185EBCA87)

end PackedFilters
