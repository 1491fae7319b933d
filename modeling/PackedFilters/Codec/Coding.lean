import PackedFilters.Codec.Fixed
import PackedFilters.Lib.Base128

/-!
# The integers and strings of `util/coding.cc`

64-bit fields, variable-length integers and length-prefixed strings, in which LevelDB writes
everything that is not a filter: block handles, the lengths in a block, the restart points.

The varint writers are unrolled for 32 bits and a loop for 64; both produce the code of
`Base128` (`encodeVarint32_eq`, `encodeVarint64_eq`).  The readers get a pointer and a limit,
stop after as many bytes as their word can need, and shift what they read into the word, in
which the bits of a number that is too large are lost.  What they make of any bytes is said
once, for both widths (`getVarintLoop_eq`): the number in front, cut to the word, if its code
is short enough, and null otherwise.

* `readSlice` — a `Slice` over part of a buffer, read as a whole;
* `fixed64`, `decodeFixed64` — eight bytes, least significant first;
* `encodeVarint32`, `encodeVarint64`, `varintLength` — the writers;
* `getVarint32Ptr`, `getVarint64Ptr` — the readers, on the bytes of a buffer below `limit`;
* `getLengthPrefixedSlice` — a length and as many bytes, if there are so many;
* `varint_roundTrip` — what was written comes back, what was cut short does not, and no input
  makes a reader leave it.
-/

namespace PackedFilters

open LittleEndian

/-! ## Slices -/

/-- The bytes of `Slice(data + offset, size)`. -/
def readSlice (data : Bytes) (offset size : ℕ) : Checked Bytes :=
  if size = 0 then .ok []
  else if offset + size ≤ data.length then .ok ((data.drop offset).take size)
  else .error (.readOutside (offset + size - 1))

theorem readSlice_ok {data : Bytes} {offset size : ℕ} (h : offset + size ≤ data.length) :
    readSlice data offset size = .ok ((data.drop offset).take size) := by
  by_cases h0 : size = 0
  · rw [readSlice, if_pos h0, h0, List.take_zero]
  · rw [readSlice, if_neg h0, if_pos h]

/-- The slice over the middle of a buffer. -/
theorem readSlice_append (pre mid rest : Bytes) :
    readSlice (pre ++ (mid ++ rest)) pre.length mid.length = .ok mid := by
  rw [readSlice_ok (by simp), List.drop_left, List.take_left]

/-! ## 64-bit fields -/

/-- The eight bytes of `EncodeFixed64`. -/
def fixed64 (value : ℕ) : Bytes :=
  [UInt8.ofNat value, UInt8.ofNat (value >>> 8), UInt8.ofNat (value >>> 16),
    UInt8.ofNat (value >>> 24), UInt8.ofNat (value >>> 32), UInt8.ofNat (value >>> 40),
    UInt8.ofNat (value >>> 48), UInt8.ofNat (value >>> 56)]

/-- `DecodeFixed64(data + offset)`: the number that the eight bytes there spell, least
significant first. -/
def decodeFixed64 (data : Bytes) (offset : ℕ) : Checked ℕ := do
  let b0 ← readByte data offset
  let b1 ← readByte data (offset + 1)
  let b2 ← readByte data (offset + 2)
  let b3 ← readByte data (offset + 3)
  let b4 ← readByte data (offset + 4)
  let b5 ← readByte data (offset + 5)
  let b6 ← readByte data (offset + 6)
  let b7 ← readByte data (offset + 7)
  .ok (b0.toNat ||| b1.toNat <<< 8 ||| b2.toNat <<< 16 ||| b3.toNat <<< 24 ||| b4.toNat <<< 32
    ||| b5.toNat <<< 40 ||| b6.toNat <<< 48 ||| b7.toNat <<< 56)

@[simp] theorem length_fixed64 (v : ℕ) : (fixed64 v).length = 8 := rfl

theorem value_fixed64 {v : ℕ} (h : v < 18446744073709551616) : value (fixed64 v) = v := by
  simp only [fixed64, value_cons, value_nil, UInt8.toNat_ofNat', Nat.shiftRight_eq_div_pow,
    Nat.reducePow]
  omega

/-- A byte entered above the bits of a number adds to it. -/
theorem or_byte {x k : ℕ} (hx : x < 2 ^ k) (b : ℕ) : x ||| b <<< k = x + 2 ^ k * b := by
  rw [Nat.shiftLeft_eq, Nat.mul_comm, Nat.or_comm, ← Nat.two_pow_add_eq_or_of_lt hx, Nat.add_comm]

/-- The bytes of a slice, one by one. -/
theorem take_drop_eq_map (data : Bytes) (offset k : ℕ) (h : offset + k ≤ data.length) :
    (data.drop offset).take k = (List.range k).map fun i => data.getD (offset + i) 0 := by
  refine List.ext_getElem (by simp; omega) fun i hi _ => ?_
  simp only [List.length_take, List.length_drop] at hi
  rw [List.getElem_take, List.getElem_drop, List.getElem_map, List.getElem_range,
    List.getD_eq_getElem]

/-- Eight bytes that are there decode to the number they spell. -/
theorem decodeFixed64_ok (data : Bytes) (offset : ℕ) (h : offset + 8 ≤ data.length) :
    decodeFixed64 data offset = .ok (value ((data.drop offset).take 8)) := by
  rw [decodeFixed64, take_drop_eq_map data offset 8 h, show List.range 8 = [0, 1, 2, 3, 4, 5, 6, 7]
    from rfl]
  iterate 8 rw [readByte_of_lt (by omega), ok_bind]
  simp only [List.map_cons, List.map_nil, value_cons, value_nil, Nat.add_zero]
  have hlt (i : ℕ) : (data.getD i 0).toNat < 256 := (data.getD i 0).toNat_lt
  have h0 := hlt offset
  have h1 := hlt (offset + 1)
  have h2 := hlt (offset + 2)
  have h3 := hlt (offset + 3)
  have h4 := hlt (offset + 4)
  have h5 := hlt (offset + 5)
  have h6 := hlt (offset + 6)
  rw [or_byte (k := 8) (by omega), or_byte (k := 16) (by omega), or_byte (k := 24) (by omega),
    or_byte (k := 32) (by omega), or_byte (k := 40) (by omega), or_byte (k := 48) (by omega),
    or_byte (k := 56) (by omega)]
  congr 1
  omega

/-- Decoding where a field was appended gives the field back. -/
theorem decodeFixed64_append (pre rest : Bytes) {v : ℕ} (hv : v < 18446744073709551616) :
    decodeFixed64 (pre ++ (fixed64 v ++ rest)) pre.length = .ok v := by
  rw [decodeFixed64_ok _ _ (by simp), List.drop_left, List.take_left' (length_fixed64 v),
    value_fixed64 hv]

/-! ## Writers -/

/-- The bytes `EncodeVarint32` writes for a `uint32_t`. -/
def encodeVarint32 (v : ℕ) : Bytes :=
  if v < 1 <<< 7 then [UInt8.ofNat v]
  else if v < 1 <<< 14 then [UInt8.ofNat (v ||| 128), UInt8.ofNat (v >>> 7)]
  else if v < 1 <<< 21 then
    [UInt8.ofNat (v ||| 128), UInt8.ofNat ((v >>> 7) ||| 128), UInt8.ofNat (v >>> 14)]
  else if v < 1 <<< 28 then
    [UInt8.ofNat (v ||| 128), UInt8.ofNat ((v >>> 7) ||| 128), UInt8.ofNat ((v >>> 14) ||| 128),
      UInt8.ofNat (v >>> 21)]
  else
    [UInt8.ofNat (v ||| 128), UInt8.ofNat ((v >>> 7) ||| 128), UInt8.ofNat ((v >>> 14) ||| 128),
      UInt8.ofNat ((v >>> 21) ||| 128), UInt8.ofNat (v >>> 28)]

/-- `PutVarint32`; its argument is converted to a `uint32_t`. -/
def putVarint32 (dst : Bytes) (v : ℕ) : Bytes := dst ++ encodeVarint32 (u32 v)

/-- The loop of `EncodeVarint64`; a `uint64_t` ends it within ten bytes. -/
def encodeVarint64Loop : ℕ → ℕ → Bytes
  | 0, v => [UInt8.ofNat v]
  | rounds + 1, v =>
    if 128 ≤ v then UInt8.ofNat (v ||| 128) :: encodeVarint64Loop rounds (v >>> 7)
    else [UInt8.ofNat v]

/-- The bytes `EncodeVarint64` writes for a `uint64_t`. -/
def encodeVarint64 (v : ℕ) : Bytes := encodeVarint64Loop 9 v

/-- `PutVarint64`: the code of a `uint64_t` behind `dst`. -/
def putVarint64 (dst : Bytes) (v : ℕ) : Bytes := dst ++ encodeVarint64 (u64 v)

/-- `PutLengthPrefixedSlice`: the length of `value` as a varint, and then its bytes. -/
def putLengthPrefixedSlice (dst value : Bytes) : Bytes := putVarint32 dst value.length ++ value

/-- The loop of `VarintLength`. -/
def varintLengthLoop : ℕ → ℕ → ℕ → ℕ
  | 0, _, len => len
  | rounds + 1, v, len => if 128 ≤ v then varintLengthLoop rounds (v >>> 7) (len + 1) else len

/-- `VarintLength` of a `uint64_t`. -/
def varintLength (v : ℕ) : ℕ := varintLengthLoop 9 v 1

/-! ## Readers -/

/-- The loop of `GetVarint32PtrFallback` and `GetVarint64Ptr` over a word of `bits` bits:
`rounds` bytes are left to the largest shift.  Returns the pointer behind the number and
the number, or null. -/
def getVarintLoop (bits : ℕ) (data : Bytes) (limit : ℕ) :
    ℕ → ℕ → ℕ → ℕ → Checked (Option (ℕ × ℕ))
  | 0, _, _, _ => .ok none
  | rounds + 1, p, shift, result =>
    if p < limit then do
      let byte ← readByte data p
      if byte.toNat &&& 128 ≠ 0 then
        getVarintLoop bits data limit rounds (p + 1) (shift + 7)
          (result ||| ((byte.toNat &&& 127) <<< shift) % 2 ^ bits)
      else .ok (some (p + 1, result ||| (byte.toNat <<< shift) % 2 ^ bits))
    else .ok none

/-- `GetVarint32PtrFallback`: the reader of numbers with more than one byte; it looks at five at
most. -/
def getVarint32PtrFallback (data : Bytes) (p limit : ℕ) : Checked (Option (ℕ × ℕ)) :=
  getVarintLoop 32 data limit 5 p 0 0

/-- `GetVarint32Ptr`: a number of one byte is read at once, a longer one by the fallback; null,
if there is none before `limit`. -/
def getVarint32Ptr (data : Bytes) (p limit : ℕ) : Checked (Option (ℕ × ℕ)) :=
  if p < limit then do
    let result ← readByte data p
    if result.toNat &&& 128 = 0 then .ok (some (p + 1, result.toNat))
    else getVarint32PtrFallback data p limit
  else getVarint32PtrFallback data p limit

/-- `GetVarint64Ptr`: the number at `p`, of ten bytes at most, and the pointer behind it; null,
if there is none before `limit`. -/
def getVarint64Ptr (data : Bytes) (p limit : ℕ) : Checked (Option (ℕ × ℕ)) :=
  getVarintLoop 64 data limit 10 p 0 0

/-- `GetVarint32`: the number, and what is left of the input. -/
def getVarint32 (input : Bytes) : Checked (Option (ℕ × Bytes)) := do
  match ← getVarint32Ptr input 0 input.length with
  | none => .ok none
  | some (q, value) => .ok (some (value, input.drop q))

/-- `GetVarint64`: the number at the start of the input, which is then shortened; `none` for
`false`. -/
def getVarint64 (input : Bytes) : Checked (Option (ℕ × Bytes)) := do
  match ← getVarint64Ptr input 0 input.length with
  | none => .ok none
  | some (q, value) => .ok (some (value, input.drop q))

/-- `GetLengthPrefixedSlice` on a `Slice`; `none` for `false`. -/
def getLengthPrefixedSlice (input : Bytes) : Checked (Option (Bytes × Bytes)) := do
  match ← getVarint32 input with
  | none => .ok none
  | some (len, input) =>
    if len ≤ input.length then .ok (some (input.take len, input.drop len)) else .ok none

/-! ## The bits of a byte -/

theorem ofNat_or_128 (v : ℕ) : UInt8.ofNat (v ||| 128) = UInt8.ofNat (v % 128 + 128) := by
  have hsplit : v % 256 = 128 * (v / 128 % 2) + v % 128 := by omega
  have hor : (v ||| 128) % 2 ^ 8 = v % 128 + 128 := by
    rw [Nat.or_mod_two_pow, show v % 2 ^ 8 = v % 256 from rfl, hsplit,
      Nat.two_pow_add_eq_or_of_lt (i := 7) (Nat.mod_lt v (by norm_num)), Nat.or_right_comm]
    have hhigh : 2 ^ 7 * (v / 128 % 2) ||| 128 % 2 ^ 8 = 2 ^ 7 * 1 := by
      rcases Nat.mod_two_eq_zero_or_one (v / 128) with h | h <;> rw [h] <;> rfl
    rw [hhigh, ← Nat.two_pow_add_eq_or_of_lt (i := 7) (Nat.mod_lt v (by norm_num))]
    omega
  rw [← UInt8.toNat_inj, UInt8.toNat_ofNat', UInt8.toNat_ofNat', hor]
  omega

theorem and_128_eq_zero_iff (b : UInt8) : b.toNat &&& 128 = 0 ↔ b.toNat < 128 := by
  have hb : b.toNat < 256 := b.toNat_lt
  rw [show (128 : ℕ) = 2 ^ 7 from rfl, Nat.and_two_pow]
  have hbit : b.toNat.testBit 7 = decide (128 ≤ b.toNat) := by
    rw [Nat.testBit_eq_decide_div_mod_eq, decide_eq_decide]
    omega
  rw [hbit]
  by_cases h : 128 ≤ b.toNat
  · simp [h]
  · simp [h, not_le.1 h]

theorem and_127 (n : ℕ) : n &&& 127 = n % 128 := Nat.and_two_pow_sub_one_eq_mod n 7

/-! ## What the writers write -/

theorem encodeVarint64Loop_eq : ∀ (rounds v : ℕ), v < 128 ^ (rounds + 1) →
    encodeVarint64Loop rounds v = Base128.encode v := by
  intro rounds
  induction rounds with
  | zero =>
    intro v h
    rw [encodeVarint64Loop, Base128.encode_of_lt (by omega)]
  | succ rounds ih =>
    intro v h
    rw [encodeVarint64Loop]
    split
    · rename_i hv
      have hdiv : v >>> 7 = v / 128 := Nat.shiftRight_eq_div_pow v 7
      rw [hdiv, ih _ (by rwa [Nat.div_lt_iff_lt_mul (by norm_num), ← pow_succ]), ofNat_or_128,
        Base128.encode_of_le hv]
    · rename_i hv
      rw [Base128.encode_of_lt (not_le.1 hv)]

theorem encodeVarint64_eq {v : ℕ} (h : v < 18446744073709551616) :
    encodeVarint64 v = Base128.encode v :=
  encodeVarint64Loop_eq 9 v (h.trans (by norm_num))

theorem encodeVarint32_eq {v : ℕ} (h : v < 4294967296) :
    encodeVarint32 v = Base128.encode v := by
  have hshift (k : ℕ) : v >>> k = v / 2 ^ k := Nat.shiftRight_eq_div_pow v k
  rw [encodeVarint32]
  simp only [hshift, ofNat_or_128, Nat.one_shiftLeft]
  split_ifs with h1 h2 h3 h4
  · rw [Base128.encode_of_lt h1]
  · rw [Base128.encode_of_le (by omega), Base128.encode_of_lt (by omega)]
    rfl
  · rw [Base128.encode_of_le (by omega), Base128.encode_of_le (by omega),
      Base128.encode_of_lt (by omega), Nat.div_div_eq_div_mul]
    rfl
  · rw [Base128.encode_of_le (by omega), Base128.encode_of_le (by omega),
      Base128.encode_of_le (by omega), Base128.encode_of_lt (by omega), Nat.div_div_eq_div_mul,
      Nat.div_div_eq_div_mul]
    rfl
  · rw [Base128.encode_of_le (by omega), Base128.encode_of_le (by omega),
      Base128.encode_of_le (by omega), Base128.encode_of_le (by omega),
      Base128.encode_of_lt (by omega), Nat.div_div_eq_div_mul, Nat.div_div_eq_div_mul,
      Nat.div_div_eq_div_mul]
    rfl

theorem varintLengthLoop_eq : ∀ (rounds v len : ℕ), v < 128 ^ (rounds + 1) →
    varintLengthLoop rounds v (len + 1) = len + (Base128.encode v).length := by
  intro rounds
  induction rounds with
  | zero =>
    intro v len h
    rw [varintLengthLoop, Base128.encode_of_lt (by omega), List.length_singleton]
  | succ rounds ih =>
    intro v len h
    rw [varintLengthLoop]
    split
    · rename_i hv
      have hdiv : v >>> 7 = v / 128 := Nat.shiftRight_eq_div_pow v 7
      rw [hdiv, ih _ _ (by rwa [Nat.div_lt_iff_lt_mul (by norm_num), ← pow_succ]),
        Base128.encode_of_le hv, List.length_cons]
      omega
    · rename_i hv
      rw [Base128.encode_of_lt (not_le.1 hv), List.length_singleton]

/-- `VarintLength` is the number of bytes written. -/
theorem varintLength_eq {v : ℕ} (h : v < 18446744073709551616) :
    varintLength v = (encodeVarint64 v).length := by
  rw [encodeVarint64_eq h, varintLength, varintLengthLoop_eq 9 v 0 (h.trans (by norm_num)),
    Nat.zero_add]

/-! ## What the readers read -/

/-- One byte enters the accumulator above the bits that are there. -/
theorem or_shl_mod {bits shift result x : ℕ} (hr : result < 2 ^ shift) (hs : shift ≤ bits) :
    result ||| (x <<< shift) % 2 ^ bits = (result + 2 ^ shift * x) % 2 ^ bits := by
  have hpow : 2 ^ bits = 2 ^ shift * 2 ^ (bits - shift) := by rw [← pow_add, Nat.add_sub_cancel' hs]
  have hlt : result < 2 ^ bits := hr.trans_le (Nat.pow_le_pow_right (by norm_num) hs)
  rw [Nat.shiftLeft_eq, Nat.mul_comm x, hpow, Nat.mul_mod_mul_left, Nat.or_comm,
    ← Nat.two_pow_add_eq_or_of_lt hr, ← Nat.mul_mod_mul_left, ← hpow,
    Nat.add_comm result, Nat.add_mod (2 ^ shift * x), Nat.mod_eq_of_lt hlt]
  refine (Nat.mod_eq_of_lt ?_).symm
  rw [hpow, Nat.mul_mod_mul_left]
  have hx : x % 2 ^ (bits - shift) + 1 ≤ 2 ^ (bits - shift) :=
    Nat.mod_lt _ (Nat.two_pow_pos _)
  calc 2 ^ shift * (x % 2 ^ (bits - shift)) + result
      < 2 ^ shift * (x % 2 ^ (bits - shift)) + 2 ^ shift := by omega
    _ = 2 ^ shift * (x % 2 ^ (bits - shift) + 1) := by ring
    _ ≤ 2 ^ shift * 2 ^ (bits - shift) := Nat.mul_le_mul_left _ hx

/-- The bytes of a buffer from `p` up to `limit`. -/
def window (data : Bytes) (p limit : ℕ) : Bytes := (data.take limit).drop p

theorem window_eq_nil {data : Bytes} {p limit : ℕ} (h : limit ≤ p) : window data p limit = [] :=
  List.drop_eq_nil_of_le (by rw [List.length_take]; omega)

theorem window_eq_cons {data : Bytes} {p limit : ℕ} (h : p < limit) (hl : limit ≤ data.length) :
    window data p limit = data.getD p 0 :: window data (p + 1) limit := by
  have hp : p < (data.take limit).length := by rw [List.length_take]; omega
  rw [window, window, List.drop_eq_getElem_cons hp, List.getElem_take, List.getD_eq_getElem]

/-- **What a reader makes of any bytes:** the number they start with, cut to the word, if
its code takes no more bytes than the reader looks at. -/
theorem getVarintLoop_eq {bits : ℕ} {data : Bytes} {limit : ℕ} (hl : limit ≤ data.length) :
    ∀ (rounds p shift result : ℕ), result < 2 ^ shift → shift + 7 * rounds < bits + 7 →
      getVarintLoop bits data limit rounds p shift result = .ok
        ((Base128.decode (window data p limit)).bind fun r =>
          if (window data p limit).length ≤ r.2.length + rounds then
            some (p + ((window data p limit).length - r.2.length),
              (result + 2 ^ shift * r.1) % 2 ^ bits)
          else none) := by
  intro rounds
  induction rounds with
  | zero =>
    intro p shift result _ _
    rw [getVarintLoop]
    cases h : Base128.decode (window data p limit) with
    | none => rfl
    | some r =>
      obtain ⟨n, rest⟩ := r
      obtain ⟨init, last, heq, -⟩ := Base128.decode_eq_some h
      rw [Option.bind_some, if_neg]
      rw [heq]
      simp
      omega
  | succ rounds ih =>
    intro p shift result hr hs
    rw [getVarintLoop]
    by_cases hp : p < limit
    · rw [if_pos hp, readByte_of_lt (by omega), ok_bind, window_eq_cons hp hl, Base128.decode]
      set b := data.getD p 0
      by_cases hb : b.toNat < 128
      · rw [if_neg (not_not.2 ((and_128_eq_zero_iff b).2 hb)), if_pos hb, Option.bind_some,
          or_shl_mod hr (by omega)]
        simp
      · have hcont : b.toNat &&& 128 ≠ 0 := fun h => hb ((and_128_eq_zero_iff b).1 h)
        have h127 : b.toNat &&& 127 = b.toNat - 128 := by
          have := b.toNat_lt
          rw [and_127]
          omega
        have hnext : (result + 2 ^ shift * (b.toNat - 128)) % 2 ^ bits < 2 ^ (shift + 7) := by
          have hb' : b.toNat - 128 + 1 ≤ 128 := by
            have := b.toNat_lt
            omega
          calc (result + 2 ^ shift * (b.toNat - 128)) % 2 ^ bits
              ≤ result + 2 ^ shift * (b.toNat - 128) := Nat.mod_le _ _
            _ < 2 ^ shift + 2 ^ shift * (b.toNat - 128) := by omega
            _ = 2 ^ shift * (b.toNat - 128 + 1) := by ring
            _ ≤ 2 ^ shift * 128 := Nat.mul_le_mul_left _ hb'
            _ = 2 ^ (shift + 7) := by rw [pow_add]; norm_num
        rw [if_pos hcont, if_neg hb, h127, or_shl_mod hr (by omega), ih _ _ _ hnext (by omega)]
        cases hdecode : Base128.decode (window data (p + 1) limit) with
        | none => rfl
        | some r =>
          obtain ⟨n, rest⟩ := r
          obtain ⟨init, last, heq, -⟩ := Base128.decode_eq_some hdecode
          have hlen : (window data (p + 1) limit).length = init.length + (rest.length + 1) := by
            rw [heq, List.length_append, List.length_cons]
          simp only [Option.bind_some, Option.map_some, List.length_cons, hlen]
          refine congrArg Except.ok (if_congr (by omega) (congrArg some ?_) rfl)
          refine Prod.ext (by simp only; omega) ?_
          have hsum : result + 2 ^ shift * (b.toNat - 128) + 2 ^ (shift + 7) * n
              = result + 2 ^ shift * (b.toNat - 128 + 128 * n) := by
            rw [pow_add]
            ring
          rw [← hsum, Nat.mod_add_mod]
    · rw [if_neg hp, window_eq_nil (not_lt.1 hp)]
      rfl

theorem getVarint64Ptr_eq {data : Bytes} {limit : ℕ} (hl : limit ≤ data.length) (p : ℕ) :
    getVarint64Ptr data p limit = .ok ((Base128.decode (window data p limit)).bind fun r =>
      if (window data p limit).length ≤ r.2.length + 10 then
        some (p + ((window data p limit).length - r.2.length), r.1 % 2 ^ 64)
      else none) := by
  rw [getVarint64Ptr, getVarintLoop_eq hl 10 p 0 0 (by norm_num) (by norm_num)]
  simp only [pow_zero, Nat.one_mul, Nat.zero_add]

/-- The fast path of `GetVarint32Ptr` agrees with the loop. -/
theorem getVarint32Ptr_eq {data : Bytes} {limit : ℕ} (hl : limit ≤ data.length) (p : ℕ) :
    getVarint32Ptr data p limit = .ok ((Base128.decode (window data p limit)).bind fun r =>
      if (window data p limit).length ≤ r.2.length + 5 then
        some (p + ((window data p limit).length - r.2.length), r.1 % 2 ^ 32)
      else none) := by
  have hloop : getVarint32PtrFallback data p limit
      = .ok ((Base128.decode (window data p limit)).bind fun r =>
          if (window data p limit).length ≤ r.2.length + 5 then
            some (p + ((window data p limit).length - r.2.length), r.1 % 2 ^ 32)
          else none) := by
    rw [getVarint32PtrFallback, getVarintLoop_eq hl 5 p 0 0 (by norm_num) (by norm_num)]
    simp only [pow_zero, Nat.one_mul, Nat.zero_add]
  rw [getVarint32Ptr]
  split
  · rename_i hp
    rw [readByte_of_lt (by omega), ok_bind]
    split
    · rename_i hb
      rw [and_128_eq_zero_iff] at hb
      have hsmall : (data.getD p 0).toNat % 2 ^ 32 = (data.getD p 0).toNat :=
        Nat.mod_eq_of_lt (hb.trans (by norm_num))
      rw [window_eq_cons hp hl, Base128.decode, if_pos hb, Option.bind_some, hsmall]
      simp
    · exact hloop
  · exact hloop

/-! ## Round trips -/

theorem window_append (pre x rest : Bytes) {limit : ℕ} (h : pre.length + x.length ≤ limit) :
    window (pre ++ (x ++ rest)) pre.length limit
      = x ++ rest.take (limit - (pre.length + x.length)) := by
  rw [window, List.take_append, List.take_of_length_le (by omega), List.drop_left, List.take_append,
    List.take_of_length_le (by omega)]
  congr 2
  omega

theorem getVarint32Ptr_append (pre rest : Bytes) (v limit : ℕ) (hv : v < 4294967296)
    (hl : pre.length + (encodeVarint32 v).length ≤ limit)
    (hlen : limit ≤ (pre ++ (encodeVarint32 v ++ rest)).length) :
    getVarint32Ptr (pre ++ (encodeVarint32 v ++ rest)) pre.length limit
      = .ok (some (pre.length + (encodeVarint32 v).length, v)) := by
  rw [getVarint32Ptr_eq hlen, window_append _ _ _ hl, encodeVarint32_eq hv, Base128.decode_append,
    Option.bind_some]
  have h5 : (Base128.encode v).length ≤ 5 :=
    Base128.length_encode_le (k := 4) (hv.trans (by norm_num))
  rw [if_pos (by simp only [List.length_append]; omega), Nat.mod_eq_of_lt (show v < 2 ^ 32 from hv),
    List.length_append, Nat.add_sub_cancel]

theorem getVarint64Ptr_append (pre rest : Bytes) (v limit : ℕ) (hv : v < 18446744073709551616)
    (hl : pre.length + (encodeVarint64 v).length ≤ limit)
    (hlen : limit ≤ (pre ++ (encodeVarint64 v ++ rest)).length) :
    getVarint64Ptr (pre ++ (encodeVarint64 v ++ rest)) pre.length limit
      = .ok (some (pre.length + (encodeVarint64 v).length, v)) := by
  rw [getVarint64Ptr_eq hlen, window_append _ _ _ hl, encodeVarint64_eq hv, Base128.decode_append,
    Option.bind_some]
  have h10 : (Base128.encode v).length ≤ 10 :=
    Base128.length_encode_le (k := 9) (hv.trans (by norm_num))
  rw [if_pos (by simp only [List.length_append]; omega), Nat.mod_eq_of_lt (show v < 2 ^ 64 from hv),
    List.length_append, Nat.add_sub_cancel]

theorem getVarint32_append {v : ℕ} (hv : v < 4294967296) (rest : Bytes) :
    getVarint32 (encodeVarint32 v ++ rest) = .ok (some (v, rest)) := by
  have h := getVarint32Ptr_append [] rest v (encodeVarint32 v ++ rest).length hv (by simp) (by simp)
  rw [List.nil_append, List.length_nil, Nat.zero_add] at h
  rw [getVarint32, h, ok_bind]
  simp only [List.drop_left]

theorem getVarint64_append {v : ℕ} (hv : v < 18446744073709551616) (rest : Bytes) :
    getVarint64 (encodeVarint64 v ++ rest) = .ok (some (v, rest)) := by
  have h := getVarint64Ptr_append [] rest v (encodeVarint64 v ++ rest).length hv (by simp) (by simp)
  rw [List.nil_append, List.length_nil, Nat.zero_add] at h
  rw [getVarint64, h, ok_bind]
  simp only [List.drop_left]

/-- A string of less than 4 GiB comes back from its length prefix. -/
theorem getLengthPrefixedSlice_append {value : Bytes} (hv : value.length < 4294967296)
    (rest : Bytes) :
    getLengthPrefixedSlice (putLengthPrefixedSlice [] value ++ rest) = .ok (some (value, rest)) := by
  rw [getLengthPrefixedSlice, putLengthPrefixedSlice, putVarint32, List.nil_append, u32_of_lt hv,
    List.append_assoc, getVarint32_append hv, ok_bind]
  simp

/-! ## Bytes that no writer wrote -/

theorem getVarint32Ptr_isOk {data : Bytes} {limit : ℕ} (hl : limit ≤ data.length) (p : ℕ) :
    ∃ r, getVarint32Ptr data p limit = .ok r := ⟨_, getVarint32Ptr_eq hl p⟩

theorem getVarint32_isOk (input : Bytes) : ∃ r, getVarint32 input = .ok r := by
  obtain ⟨r, hr⟩ := getVarint32Ptr_isOk (le_refl input.length) 0
  rw [getVarint32, hr, ok_bind]
  cases r with
  | none => exact ⟨none, rfl⟩
  | some r => exact ⟨some (r.2, input.drop r.1), rfl⟩

theorem getVarint64_isOk (input : Bytes) : ∃ r, getVarint64 input = .ok r := by
  rw [getVarint64, getVarint64Ptr_eq (le_refl input.length) 0, ok_bind]
  split <;> exact ⟨_, rfl⟩

theorem getLengthPrefixedSlice_isOk (input : Bytes) :
    ∃ r, getLengthPrefixedSlice input = .ok r := by
  obtain ⟨r, hr⟩ := getVarint32_isOk input
  rw [getLengthPrefixedSlice, hr, ok_bind]
  cases r with
  | none => exact ⟨none, rfl⟩
  | some r =>
    simp only
    split <;> exact ⟨_, rfl⟩

theorem getVarint32_prefix {l : Bytes} {v : ℕ} (hl : l <+: Base128.encode v)
    (hne : l ≠ Base128.encode v) : getVarint32 l = .ok none := by
  have hlen : l.length < (Base128.encode v).length :=
    lt_of_le_of_ne hl.length_le fun h => hne (hl.eq_of_length h)
  have hwindow : window l 0 l.length = l := by rw [window, List.take_length, List.drop_zero]
  rw [getVarint32, getVarint32Ptr_eq le_rfl, hwindow, Base128.decode_of_prefix v hl hlen]
  rfl

theorem getVarint64_prefix {l : Bytes} {v : ℕ} (hl : l <+: Base128.encode v)
    (hne : l ≠ Base128.encode v) : getVarint64 l = .ok none := by
  have hlen : l.length < (Base128.encode v).length :=
    lt_of_le_of_ne hl.length_le fun h => hne (hl.eq_of_length h)
  have hwindow : window l 0 l.length = l := by rw [window, List.take_length, List.drop_zero]
  rw [getVarint64, getVarint64Ptr_eq le_rfl, hwindow, Base128.decode_of_prefix v hl hlen]
  rfl

/-! ## Main result -/

/-- **Varints.**  A number comes back from its code and leaves what follows alone; the code
has `VarintLength` bytes; a code that is cut short is rejected; and no reader reads outside
its input, whatever the bytes are. -/
theorem varint_roundTrip :
    (∀ v < 4294967296,
      (∀ rest, getVarint32 (encodeVarint32 v ++ rest) = .ok (some (v, rest))) ∧
        (encodeVarint32 v).length = varintLength v ∧
        ∀ l, l <+: encodeVarint32 v → l ≠ encodeVarint32 v → getVarint32 l = .ok none) ∧
      (∀ v < 18446744073709551616,
        (∀ rest, getVarint64 (encodeVarint64 v ++ rest) = .ok (some (v, rest))) ∧
          (encodeVarint64 v).length = varintLength v ∧
          ∀ l, l <+: encodeVarint64 v → l ≠ encodeVarint64 v → getVarint64 l = .ok none) ∧
      (∀ value : Bytes, value.length < 4294967296 → ∀ rest,
        getLengthPrefixedSlice (putLengthPrefixedSlice [] value ++ rest)
          = .ok (some (value, rest))) ∧
      ∀ input, (∃ r, getVarint32 input = .ok r) ∧ (∃ r, getVarint64 input = .ok r) ∧
        ∃ r, getLengthPrefixedSlice input = .ok r := by
  refine ⟨fun v hv => ⟨getVarint32_append hv, ?_, fun l hl hne => ?_⟩,
    fun v hv => ⟨getVarint64_append hv, (varintLength_eq hv).symm, fun l hl hne => ?_⟩,
    fun value hvalue => getLengthPrefixedSlice_append hvalue,
    fun input => ⟨getVarint32_isOk input, getVarint64_isOk input,
      getLengthPrefixedSlice_isOk input⟩⟩
  · have hv64 : v < 18446744073709551616 := hv.trans (by norm_num)
    rw [varintLength_eq hv64, encodeVarint32_eq hv, encodeVarint64_eq hv64]
  · rw [encodeVarint32_eq hv] at hl hne
    exact getVarint32_prefix hl hne
  · rw [encodeVarint64_eq hv] at hl hne
    exact getVarint64_prefix hl hne

end PackedFilters
