import PackedFilters.Lib.LittleEndian
import PackedFilters.Machine

/-!
# The packed value codec

`AppendPackedValues` and `ReadPackedValue`, the same code in the Ribbon and Xor filters of
all four engines: values of `1..16` bits written back to back, least significant bit first.

The writer keeps up to 23 pending bits in a 64-bit accumulator and drains whole bytes from
it; the reader recomputes the absolute bit offset of one value, gathers the bytes from there
and shifts.  They meet in one number: `Packs` says the bytes written so far and the pending
bits spell, little endian, the fields written so far in base `2 ^ bits`.

The reader is given a payload size and trusts nothing else: it compares the last byte it
needs with it before it reads.  The width it is given may come from a serialized filter, and
then passes through the `assert` of `BitMask` (`checkedBitMask`), behind which a width
outside `1..16` is not defined.

* `packedWidth` — the width that a filter derives from its bits per key;
* `appendPackedValues_eq` — the bytes appended and their number;
* `readPackedValue_packed` — the reader gets every value back;
* `readPackedValue_eq_none`, `readPackedValue_ok` — on any payload the reader gives up when
  the value ends behind the payload, and otherwise reads only bytes of the payload;
* `readPackedValue_fault` — a width outside `1..16` that reaches `BitMask` is a fault.
-/

namespace PackedFilters

open LittleEndian

/-! ## Definitions -/

/-- `BitMask`, for a width that passes its `assert`. -/
def bitMask (bits : ℕ) : UInt32 := (1 <<< UInt32.ofNat bits) - 1

/-- `BitMask` with its `assert`, where the width comes from a serialized filter. -/
def checkedBitMask (bits : ℕ) : Checked UInt32 :=
  if 1 ≤ bits ∧ bits ≤ 16 then .ok (bitMask bits) else .error (.widthOutside bits)

/-- The width every filter derives from its bits per key, the ceiling of `bits_per_key *
0.6931471805599453` clamped to `1..16`.  The product is a `double`; wherever its ceiling is not
clamped to 16 it lies more than a hundredth away from the nearest integer (13 bits per key come
closest, with 9.0109), so its ceiling is that of the exact product. -/
def packedWidth (bitsPerKey : ℕ) : ℕ :=
  let bits := (bitsPerKey * 6931471805599453 + 9999999999999999) / 10000000000000000
  let bits := if bits < 1 then 1 else bits
  if 16 < bits then 16 else bits

/-- `PackedByteSize`: the bytes that so many values of this width take, the last one rounded
up. -/
def packedByteSize (valueCount bitsPerValue : ℕ) : ℕ := (valueCount * bitsPerValue + 7) / 8

/-- The variables of `AppendPackedValues`: the accumulator, the number of bits in
it, and the output. -/
structure PackState where
  pending : UInt64
  pendingBits : ℕ
  dst : Bytes

/-- The loop `while (pending_bits >= 8)`.  Each round removes eight bits, so
`pending_bits` rounds are more than enough. -/
def drainPending : ℕ → PackState → PackState
  | 0, s => s
  | rounds + 1, s =>
    if 8 ≤ s.pendingBits then
      drainPending rounds
        { pending := shr64 s.pending 8
          pendingBits := s.pendingBits - 8
          dst := s.dst ++ [(s.pending &&& 0xff).toUInt8] }
    else s

/-- One value of `AppendPackedValues`. -/
def packValue (bitsPerValue : ℕ) (s : PackState) (value : UInt32) : PackState :=
  drainPending (s.pendingBits + bitsPerValue)
    { pending := s.pending ||| shl64 (value &&& bitMask bitsPerValue).toUInt64 s.pendingBits
      pendingBits := s.pendingBits + bitsPerValue
      dst := s.dst }

/-- `AppendPackedValues`: the values one behind the other, each cut to its low bits, and one
more byte for the bits that are left pending. -/
def appendPackedValues (values : List UInt32) (bitsPerValue : ℕ) (dst : Bytes) : Bytes :=
  let s := values.foldl (packValue bitsPerValue) ⟨0, 0, dst⟩
  if 0 < s.pendingBits then s.dst ++ [(s.pending &&& 0xff).toUInt8] else s.dst

/-- The loop of `ReadPackedValue` that gathers the bytes of a value, with `i` the
loop counter and `remaining` the number of bytes still to come. -/
def gatherBytes (payload : Bytes) (byteOffset : ℕ) : ℕ → ℕ → UInt64 → Checked UInt64
  | 0, _, word => .ok word
  | remaining + 1, i, word => do
    let byte ← readByte payload (byteOffset + i)
    if 64 ≤ 8 * i then .error (.shiftOutside (8 * i))
    else gatherBytes payload byteOffset remaining (i + 1) (word ||| shl64 byte.toUInt64 (8 * i))

/-- The number of bytes `ReadPackedValue` needs: those up to the last bit of the
value, counted from the byte of its first bit. -/
def bytesNeeded (index bitsPerValue : ℕ) : ℕ := (index * bitsPerValue % 8 + bitsPerValue + 7) / 8

/-- `ReadPackedValue`; `none` is its result `false`.  `payload` is all the memory
behind the pointer, `payload_size` the part of it the caller vouches for. -/
def readPackedValue (payload : Bytes) (payloadSize index bitsPerValue : ℕ) :
    Checked (Option UInt32) :=
  let bitOffset := index * bitsPerValue
  let byteOffset := bitOffset / 8
  let shift := bitOffset % 8
  if payloadSize < byteOffset + bytesNeeded index bitsPerValue then .ok none
  else do
    let word ← gatherBytes payload byteOffset (bytesNeeded index bitsPerValue) 0 0
    let mask ← checkedBitMask bitsPerValue
    .ok (some (shr64 word shift &&& mask.toUInt64).toUInt32)

/-! ## The mask -/

theorem toNat_bitMask {bits : ℕ} (h : bits ≤ 16) : (bitMask bits).toNat = 2 ^ bits - 1 := by
  have hpow : 2 ^ bits < 2 ^ 32 := Nat.pow_lt_pow_right (by norm_num) (by omega)
  have hshift : ((1 : UInt32) <<< UInt32.ofNat bits).toNat = 2 ^ bits := by
    rw [UInt32.toNat_shiftLeft, UInt32.toNat_ofNat', Nat.mod_eq_of_lt (by omega : bits < 2 ^ 32),
      Nat.mod_eq_of_lt (by omega : bits < 32), UInt32.toNat_one, Nat.one_shiftLeft,
      Nat.mod_eq_of_lt hpow]
  have hone : (1 : UInt32) ≤ (1 : UInt32) <<< UInt32.ofNat bits := by
    rw [UInt32.le_iff_toNat_le, hshift]
    exact Nat.one_le_two_pow
  rw [bitMask, UInt32.toNat_sub_of_le _ _ hone, hshift]
  rfl

/-- Masking keeps the low bits. -/
theorem toNat_and_bitMask (v : UInt32) {bits : ℕ} (h : bits ≤ 16) :
    (v &&& bitMask bits).toNat = v.toNat % 2 ^ bits := by
  rw [UInt32.toNat_and, toNat_bitMask h, Nat.and_two_pow_sub_one_eq_mod]

theorem toNat_and_bitMask_lt (v : UInt32) {bits : ℕ} (h : bits ≤ 16) :
    (v &&& bitMask bits).toNat < 2 ^ bits := by
  rw [toNat_and_bitMask v h]
  exact Nat.mod_lt _ (Nat.two_pow_pos bits)

/-- Masking changes no value that has the width already. -/
theorem and_bitMask_of_lt {v : UInt32} {bits : ℕ} (h : bits ≤ 16) (hv : v.toNat < 2 ^ bits) :
    v &&& bitMask bits = v := by
  rw [← UInt32.toNat_inj, toNat_and_bitMask v h, Nat.mod_eq_of_lt hv]

theorem toNat_low_byte (w : UInt64) : (w &&& 0xff).toUInt8.toNat = w.toNat % 256 := by
  rw [UInt64.toNat_toUInt8, UInt64.toNat_and]
  exact (congrArg (· % 256) (Nat.and_two_pow_sub_one_eq_mod w.toNat 8)).trans (Nat.mod_mod _ _)

theorem packedWidth_pos (b : ℕ) : 1 ≤ packedWidth b := by
  simp only [packedWidth]
  split <;> split <;> omega

theorem packedWidth_le (b : ℕ) : packedWidth b ≤ 16 := by
  simp only [packedWidth]
  split <;> split <;> omega

/-! ## The writer -/

/-- The bytes written behind `dst` together with the pending bits spell the
number `n` in `bits` bits. -/
structure Packs (dst : Bytes) (n bits : ℕ) (s : PackState) : Prop where
  spelled : ∃ out, s.dst = dst ++ out ∧ value out + 256 ^ out.length * s.pending.toNat = n ∧
    8 * out.length + s.pendingBits = bits
  pending_lt : s.pending.toNat < 2 ^ s.pendingBits

theorem packs_start (dst : Bytes) : Packs dst 0 0 ⟨0, 0, dst⟩ :=
  ⟨⟨[], by simp⟩, by simp⟩

/-- Draining moves bits from the accumulator to the output and changes neither
the number nor its length. -/
theorem Packs.drain {dst : Bytes} {n bits : ℕ} (rounds : ℕ) : ∀ {s : PackState},
    Packs dst n bits s → Packs dst n bits (drainPending rounds s) := by
  induction rounds with
  | zero => exact fun h => h
  | succ rounds ih =>
    intro s h
    rw [drainPending]
    by_cases h8 : 8 ≤ s.pendingBits
    · rw [if_pos h8]
      refine ih ?_
      obtain ⟨⟨out, hdst, hval, hlen⟩, hlt⟩ := h
      have hsplit : s.pending.toNat = s.pending.toNat % 256 + 256 * (s.pending.toNat / 256) :=
        (Nat.mod_add_div _ _).symm
      have hshr : (shr64 s.pending 8).toNat = s.pending.toNat / 256 :=
        toNat_shr64 s.pending (by norm_num)
      refine ⟨⟨out ++ [(s.pending &&& 0xff).toUInt8], ?_, ?_, ?_⟩, ?_⟩
      · simp only [hdst, List.append_assoc]
      · rw [value_append, value_singleton, toNat_low_byte, List.length_append,
          List.length_singleton, pow_succ]
        simp only [hshr]
        calc value out + 256 ^ out.length * (s.pending.toNat % 256)
              + 256 ^ out.length * 256 * (s.pending.toNat / 256)
            = value out + 256 ^ out.length *
                (s.pending.toNat % 256 + 256 * (s.pending.toNat / 256)) := by ring
          _ = n := by rw [← hsplit, hval]
      · simp only [List.length_append, List.length_singleton]
        omega
      · rw [hshr, Nat.div_lt_iff_lt_mul (by norm_num)]
        refine hlt.trans_eq ?_
        rw [show (256 : ℕ) = 2 ^ 8 from rfl, ← pow_add, Nat.sub_add_cancel h8]
    · rw [if_neg h8]
      exact h

/-- Enough rounds leave less than a byte. -/
theorem pendingBits_drainPending_lt (rounds : ℕ) : ∀ {s : PackState}, s.pendingBits ≤ rounds →
    (drainPending rounds s).pendingBits < 8 := by
  induction rounds with
  | zero =>
    intro s hr
    simp only [drainPending]
    omega
  | succ rounds ih =>
    intro s hr
    rw [drainPending]
    by_cases h8 : 8 ≤ s.pendingBits
    · rw [if_pos h8]
      apply ih
      simp only
      omega
    · rw [if_neg h8]
      omega

/-- Placing a value above the pending bits adds it there: nothing overlaps, and
nothing is shifted out of the accumulator. -/
theorem toNat_or_shl64 {w v : UInt64} {k bits : ℕ} (hw : w.toNat < 2 ^ k)
    (hv : v.toNat < 2 ^ bits) (hk : k + bits ≤ 64) (hk64 : k < 64) :
    (w ||| shl64 v k).toNat = w.toNat + 2 ^ k * v.toNat := by
  have hfit : v.toNat * 2 ^ k < 2 ^ 64 := by
    calc v.toNat * 2 ^ k < 2 ^ bits * 2 ^ k := Nat.mul_lt_mul_of_pos_right hv (Nat.two_pow_pos k)
      _ = 2 ^ (k + bits) := by rw [← pow_add, add_comm]
      _ ≤ 2 ^ 64 := Nat.pow_le_pow_right (by norm_num) hk
  rw [UInt64.toNat_or, toNat_shl64 v hk64, Nat.mod_eq_of_lt hfit, Nat.or_comm, Nat.mul_comm,
    ← Nat.two_pow_add_eq_or_of_lt hw, Nat.add_comm]

/-- The accumulator with one more value, before it is drained. -/
def placeValue (bitsPerValue : ℕ) (s : PackState) (value : UInt32) : PackState where
  pending := s.pending ||| shl64 (value &&& bitMask bitsPerValue).toUInt64 s.pendingBits
  pendingBits := s.pendingBits + bitsPerValue
  dst := s.dst

theorem packValue_eq (w : ℕ) (s : PackState) (v : UInt32) :
    packValue w s v = drainPending (s.pendingBits + w) (placeValue w s v) := rfl

theorem Packs.place {dst : Bytes} {n bits w : ℕ} (hw : w ≤ 16) {s : PackState}
    (h : Packs dst n bits s) (h8 : s.pendingBits < 8) (v : UInt32) :
    Packs dst (n + 2 ^ bits * (v.toNat % 2 ^ w)) (bits + w) (placeValue w s v) := by
  obtain ⟨⟨out, hdst, hval, hlen⟩, hlt⟩ := h
  have hv : ((v &&& bitMask w).toUInt64).toNat = v.toNat % 2 ^ w := by
    rw [UInt32.toNat_toUInt64, toNat_and_bitMask v hw]
  have hvlt : ((v &&& bitMask w).toUInt64).toNat < 2 ^ w := by
    rw [hv]
    exact Nat.mod_lt _ (Nat.two_pow_pos w)
  have hsum := toNat_or_shl64 hlt hvlt (by omega) (by omega)
  rw [hv] at hsum
  refine ⟨⟨out, hdst, ?_, by simp only [placeValue]; omega⟩, ?_⟩
  · simp only [placeValue, hsum]
    rw [← hlen, ← hval, show (256 : ℕ) = 2 ^ 8 from rfl, ← pow_mul, pow_add]
    ring
  · simp only [placeValue, hsum]
    have hmod : v.toNat % 2 ^ w < 2 ^ w := Nat.mod_lt _ (Nat.two_pow_pos w)
    calc s.pending.toNat + 2 ^ s.pendingBits * (v.toNat % 2 ^ w)
        < 2 ^ s.pendingBits + 2 ^ s.pendingBits * (v.toNat % 2 ^ w) := by omega
      _ = 2 ^ s.pendingBits * (v.toNat % 2 ^ w + 1) := by ring
      _ ≤ 2 ^ s.pendingBits * 2 ^ w := Nat.mul_le_mul_left _ hmod
      _ = 2 ^ (s.pendingBits + w) := (pow_add _ _ _).symm

theorem packs_packValue {dst : Bytes} {n bits w : ℕ} (hw : w ≤ 16) {s : PackState}
    (h : Packs dst n bits s) (h8 : s.pendingBits < 8) (v : UInt32) :
    Packs dst (n + 2 ^ bits * (v.toNat % 2 ^ w)) (bits + w) (packValue w s v) ∧
      (packValue w s v).pendingBits < 8 := by
  rw [packValue_eq]
  exact ⟨(h.place hw h8 v).drain _, pendingBits_drainPending_lt _ le_rfl⟩

/-- The fields a vector of values is packed into. -/
def fields (values : List UInt32) (bitsPerValue : ℕ) : List ℕ :=
  values.map fun v => v.toNat % 2 ^ bitsPerValue

theorem fields_lt (values : List UInt32) (w : ℕ) : ∀ d ∈ fields values w, d < 2 ^ w := by
  intro d hd
  obtain ⟨v, -, rfl⟩ := List.mem_map.1 hd
  exact Nat.mod_lt _ (Nat.two_pow_pos w)

/-- The invariant of the writer's loop over the whole prefix of the vector. -/
theorem packs_foldl {dst : Bytes} {w : ℕ} (hw : w ≤ 16) (values : List UInt32) :
    ∀ {s : PackState} {n bits : ℕ}, Packs dst n bits s → s.pendingBits < 8 →
      Packs dst (n + 2 ^ bits * Nat.ofDigits (2 ^ w) (fields values w)) (bits + values.length * w)
        (values.foldl (packValue w) s) ∧ (values.foldl (packValue w) s).pendingBits < 8 := by
  induction values with
  | nil =>
    intro s n bits h h8
    simpa [fields] using ⟨h, h8⟩
  | cons v values ih =>
    intro s n bits h h8
    obtain ⟨h', h8'⟩ := packs_packValue hw h h8 v
    obtain ⟨h'', h8''⟩ := ih h' h8'
    rw [List.foldl_cons]
    refine ⟨?_, h8''⟩
    convert! h'' using 1
    · rw [fields, List.map_cons, Nat.ofDigits_cons, ← fields, pow_add]
      ring
    · rw [List.length_cons]
      ring

/-- `AppendPackedValues` keeps the bytes already there and appends
`PackedByteSize` more, which spell the fields in base `2 ^ bits`. -/
theorem appendPackedValues_eq {w : ℕ} (hw : w ≤ 16) (values : List UInt32)
    (dst : Bytes) :
    ∃ out, appendPackedValues values w dst = dst ++ out ∧
      out.length = packedByteSize values.length w ∧
      value out = Nat.ofDigits (2 ^ w) (fields values w) := by
  obtain ⟨⟨⟨out, hdst, hval, hlen⟩, hlt⟩, h8⟩ :=
    packs_foldl hw values (packs_start dst) (by norm_num)
  rw [zero_add, pow_zero, one_mul] at hval
  rw [zero_add] at hlen
  simp only [appendPackedValues, packedByteSize]
  set s := values.foldl (packValue w) ⟨0, 0, dst⟩
  by_cases hpos : 0 < s.pendingBits
  · refine ⟨out ++ [(s.pending &&& 0xff).toUInt8], ?_, ?_, ?_⟩
    · rw [if_pos hpos, hdst, List.append_assoc]
    · rw [List.length_append, List.length_singleton]
      omega
    · have hbyte : s.pending.toNat < 256 :=
        hlt.trans_le (Nat.pow_le_pow_right (by norm_num) h8.le)
      rw [value_append, value_singleton, toNat_low_byte, Nat.mod_eq_of_lt hbyte, hval]
  · have hzero : s.pendingBits = 0 := by omega
    have hpend : s.pending.toNat = 0 := by
      rw [hzero] at hlt
      omega
    refine ⟨out, by rw [if_neg hpos, hdst], by omega, ?_⟩
    rw [← hval, hpend, mul_zero, add_zero]

/-! ## The reader -/

/-- Gathering bytes that are all there spells the slice. -/
theorem gatherBytes_ok (payload : Bytes) (byteOffset : ℕ) : ∀ (remaining i : ℕ) (word : UInt64),
    word.toNat < 2 ^ (8 * i) → i + remaining ≤ 8 →
    byteOffset + i + remaining ≤ payload.length →
    ∃ r, gatherBytes payload byteOffset remaining i word = .ok r ∧
      r.toNat = word.toNat + 2 ^ (8 * i) *
        value ((payload.drop (byteOffset + i)).take remaining) := by
  intro remaining
  induction remaining with
  | zero => exact fun i word _ _ _ => ⟨word, rfl, by simp⟩
  | succ remaining ih =>
    intro i word hword hi hlen
    have hin : byteOffset + i < payload.length := by omega
    set b : UInt8 := payload.getD (byteOffset + i) 0 with hb
    have hbval : b.toUInt64.toNat < 2 ^ 8 := by
      rw [UInt8.toNat_toUInt64]
      exact b.toNat_lt
    have hsum := toNat_or_shl64 hword hbval (by omega) (by omega)
    rw [UInt8.toNat_toUInt64] at hsum
    have hnext : (word ||| shl64 b.toUInt64 (8 * i)).toNat < 2 ^ (8 * (i + 1)) := by
      have hb' : b.toNat < 256 := b.toNat_lt
      rw [hsum]
      calc word.toNat + 2 ^ (8 * i) * b.toNat
          < 2 ^ (8 * i) * (b.toNat + 1) := by rw [mul_add, mul_one]; omega
        _ ≤ 2 ^ (8 * i) * 256 := Nat.mul_le_mul_left _ hb'
        _ = 2 ^ (8 * (i + 1)) := by rw [mul_add, pow_add, mul_one]; norm_num
    obtain ⟨r, hr, hval⟩ := ih (i + 1) _ hnext (by omega) (by omega)
    refine ⟨r, ?_, ?_⟩
    · rw [gatherBytes, readByte_of_lt hin, ok_bind, if_neg (by omega)]
      exact hr
    · have hdrop : payload.drop (byteOffset + i) = b :: payload.drop (byteOffset + (i + 1)) := by
        rw [List.drop_eq_getElem_cons hin, hb, List.getD_eq_getElem?_getD,
          List.getElem?_eq_getElem hin]
        rfl
      rw [hval, hsum, hdrop, List.take_succ_cons, value_cons, mul_add, pow_add]
      ring

theorem bytesNeeded_le (index : ℕ) {w : ℕ} (hw : w ≤ 16) : bytesNeeded index w ≤ 3 := by
  rw [bytesNeeded]
  omega

/-- The reader gives up exactly when the value ends behind the payload. -/
theorem readPackedValue_eq_none {payload : Bytes} {payloadSize index w : ℕ}
    (h : payloadSize < index * w / 8 + bytesNeeded index w) :
    readPackedValue payload payloadSize index w = .ok none := if_pos h

/-- Otherwise it returns the value at its bit offset, and reads only bytes of the
payload to get it. -/
theorem readPackedValue_ok (payload : Bytes) {payloadSize index w : ℕ} (hw1 : 1 ≤ w)
    (hw : w ≤ 16) (hsize : payloadSize ≤ payload.length)
    (h : index * w / 8 + bytesNeeded index w ≤ payloadSize) :
    ∃ v, readPackedValue payload payloadSize index w = .ok (some v) ∧
      v.toNat = value ((payload.drop (index * w / 8)).take (bytesNeeded index w))
        / 2 ^ (index * w % 8) % 2 ^ w := by
  have hneed := bytesNeeded_le index hw
  obtain ⟨r, hr, hval⟩ := gatherBytes_ok payload (index * w / 8)
    (bytesNeeded index w) 0 0 (by simp) (by omega) (by omega)
  rw [UInt64.toNat_zero, zero_add, mul_zero, pow_zero, one_mul, add_zero] at hval
  refine ⟨(shr64 r (index * w % 8) &&& (bitMask w).toUInt64).toUInt32, ?_, ?_⟩
  · rw [readPackedValue, if_neg (by omega), hr, ok_bind, checkedBitMask, if_pos ⟨hw1, hw⟩, ok_bind]
  · have hlt : (2 : ℕ) ^ w ≤ 2 ^ 32 := Nat.pow_le_pow_right (by norm_num) (by omega)
    rw [UInt64.toNat_toUInt32, UInt64.toNat_and, UInt32.toNat_toUInt64, toNat_bitMask hw,
      Nat.and_two_pow_sub_one_eq_mod, toNat_shr64 r (by omega), hval]
    exact Nat.mod_eq_of_lt ((Nat.mod_lt _ (Nat.two_pow_pos w)).trans_le hlt)

/-- On any payload the reader returns, whatever the value. -/
theorem readPackedValue_isOk {payload : Bytes} {payloadSize index w : ℕ} (hw1 : 1 ≤ w)
    (hw : w ≤ 16) (hsize : payloadSize ≤ payload.length) :
    ∃ v, readPackedValue payload payloadSize index w = .ok v := by
  by_cases h : payloadSize < index * w / 8 + bytesNeeded index w
  · exact ⟨none, readPackedValue_eq_none h⟩
  · obtain ⟨v, hv, -⟩ := readPackedValue_ok payload hw1 hw hsize (not_lt.1 h)
    exact ⟨some v, hv⟩

/-- A width that `BitMask` does not take faults, unless the reader gives up first. -/
theorem readPackedValue_fault (payload : Bytes) {payloadSize index w : ℕ}
    (hw : ¬ (1 ≤ w ∧ w ≤ 16)) (h : index * w / 8 + bytesNeeded index w ≤ payloadSize) :
    ∃ e, readPackedValue payload payloadSize index w = .error e := by
  unfold readPackedValue
  simp only
  rw [if_neg (not_lt.2 h)]
  cases gatherBytes payload (index * w / 8) (bytesNeeded index w) 0 0 with
  | error e => exact ⟨e, rfl⟩
  | ok word => exact ⟨.widthOutside w, by rw [ok_bind, checkedBitMask, if_neg hw, error_bind]⟩

/-- The last byte of a value of the vector is a byte of the packed vector. -/
theorem lastByte_le {index count w : ℕ} (h : index < count) :
    index * w / 8 + bytesNeeded index w ≤ packedByteSize count w := by
  have hmul : index * w + w ≤ count * w := by
    calc index * w + w = (index + 1) * w := by ring
      _ ≤ count * w := Nat.mul_le_mul_right w h
  rw [bytesNeeded, packedByteSize]
  omega

/-- **Round trip.**  Whatever follows the payload, reading value `index` of a
packed vector returns that value's low bits. -/
theorem readPackedValue_packed {w : ℕ} (hw1 : 1 ≤ w) (hw : w ≤ 16) {values : List UInt32}
    {out rest : Bytes} (hlen : out.length = packedByteSize values.length w)
    (hval : value out = Nat.ofDigits (2 ^ w) (fields values w)) {index : ℕ}
    (hi : index < values.length) :
    readPackedValue (out ++ rest) out.length index w
      = .ok (some (values.getD index 0 &&& bitMask w)) := by
  have hbytes : index * w / 8 + bytesNeeded index w ≤ out.length := hlen ▸ lastByte_le hi
  obtain ⟨v, hv, hnat⟩ := readPackedValue_ok (out ++ rest) hw1 hw
    (by rw [List.length_append]; omega) hbytes
  rw [hv]
  congr 2
  rw [← UInt32.toNat_inj, toNat_and_bitMask _ hw, hnat, value_slice_append _ _ _ _ hbytes, hval]
  -- cut the slice down to the field: first the bytes, then the bits inside them
  set N := Nat.ofDigits (2 ^ w) (fields values w)
  have hfield : N / (2 ^ w) ^ index % 2 ^ w = (values.getD index 0).toNat % 2 ^ w := by
    rw [ofDigits_div_pow_mod (Nat.two_pow_pos w) _ (fields_lt values w), fields,
      List.getD_eq_getElem?_getD, List.getElem?_map, List.getElem?_eq_getElem hi,
      List.getD_eq_getElem?_getD, List.getElem?_eq_getElem hi]
    rfl
  have hwidth : index * w % 8 + w ≤ 8 * bytesNeeded index w := by
    rw [bytesNeeded]
    omega
  have hbits : index * w = 8 * (index * w / 8) + index * w % 8 := by omega
  rw [← hfield, show (256 : ℕ) = 2 ^ 8 from rfl, ← pow_mul, ← pow_mul, ← pow_mul,
    show w * index = 8 * (index * w / 8) + index * w % 8 by rw [mul_comm]; exact hbits,
    pow_add, ← Nat.div_div_eq_div_mul]
  set M := N / 2 ^ (8 * (index * w / 8))
  have hsplit : 8 * bytesNeeded index w
      = index * w % 8 + w + (8 * bytesNeeded index w - (index * w % 8 + w)) := by omega
  rw [hsplit, add_assoc, pow_add, Nat.mod_mul_right_div_self, pow_add,
    Nat.mod_mul_right_mod]

end PackedFilters
