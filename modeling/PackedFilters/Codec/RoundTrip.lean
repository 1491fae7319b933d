import PackedFilters.Codec.Packed

/-!
# The round trip of the packed value codec

The codec as a whole: what `AppendPackedValues` writes, `ReadPackedValue` reads back, and on
no payload does it read a byte that is not there.

The writer is a loop within a loop: values are or-ed into a 64-bit accumulator, and whole
bytes are drained from it.  That no bit is lost is a statement about every state of both
loops, not about the bytes at the end only, because the accumulator is shifted by as many
bits as are pending and would drop the top of a value if they were too many.  The states are
those of `writerState`: some values done, one more placed, and some rounds of draining since.

* `writerState_packs` — in every state of the writer's loops the bytes written and the
  pending bits together spell the values placed so far, so no pending bit is lost;
* `readPackedValue_append` — what lies behind the payload does not reach the reader;
* `readPackedValue_none_iff` — it gives up when the byte of the value's last bit lies behind
  the payload, and only then;
* `packedByteSize_eq_ceil` — the size of the payload, as a ceiling;
* `packedValues_roundTrip` — the codec as a whole.
-/

namespace PackedFilters

open LittleEndian

/-! ## The writer's states -/

/-- The state of the writer after the values `done` and one more value `v`, with the
accumulator drained `rounds` times since. -/
def writerState (bitsPerValue : ℕ) (dst : Bytes) (done : List UInt32) (v : UInt32) (rounds : ℕ) :
    PackState :=
  drainPending rounds
    (placeValue bitsPerValue (done.foldl (packValue bitsPerValue) ⟨0, 0, dst⟩) v)

theorem pendingBits_drainPending_le (rounds : ℕ) : ∀ s : PackState,
    (drainPending rounds s).pendingBits ≤ s.pendingBits := by
  induction rounds with
  | zero => exact fun s => le_rfl
  | succ rounds ih =>
    intro s
    rw [drainPending]
    split
    · exact (ih _).trans (Nat.sub_le ..)
    · exact le_rfl

/-- **No pending bit is lost.**  In every state of the loops the accumulator has room,
and output and accumulator spell all the fields placed so far. -/
theorem writerState_packs {w : ℕ} (hw : w ≤ 16) (dst : Bytes) (done : List UInt32) (v : UInt32)
    (rounds : ℕ) :
    Packs dst (Nat.ofDigits (2 ^ w) (fields (done ++ [v]) w)) ((done.length + 1) * w)
        (writerState w dst done v rounds) ∧
      (writerState w dst done v rounds).pendingBits < 24 := by
  obtain ⟨hpacks, h8⟩ := packs_foldl hw done (packs_start dst) (by norm_num)
  have hplace := (hpacks.place hw h8 v).drain rounds
  have hnumber : Nat.ofDigits (2 ^ w) (fields (done ++ [v]) w)
      = 0 + 2 ^ 0 * Nat.ofDigits (2 ^ w) (fields done w)
        + 2 ^ (0 + done.length * w) * (v.toNat % 2 ^ w) := by
    simp [fields, Nat.ofDigits_append, Nat.mul_comm done.length w, pow_mul]
  have hbits : (done.length + 1) * w = 0 + done.length * w + w := by ring
  rw [hnumber, hbits]
  refine ⟨hplace, ?_⟩
  have hle := pendingBits_drainPending_le rounds
    (placeValue w (done.foldl (packValue w) ⟨0, 0, dst⟩) v)
  simp only [writerState, placeValue] at hle ⊢
  omega

/-! ## The reader on any payload -/

section Reader

variable {payload : Bytes} {index w : ℕ}

/-- The byte behind the last one the reader needs. -/
theorem bytesNeeded_end (index : ℕ) (hw1 : 1 ≤ w) :
    index * w / 8 + bytesNeeded index w = (index * w + w - 1) / 8 + 1 := by
  rw [bytesNeeded]
  omega

/-- The reader gives up exactly when the byte of the value's last bit lies behind the
payload. -/
theorem readPackedValue_none_iff (hw1 : 1 ≤ w) (hw : w ≤ 16) :
    readPackedValue payload payload.length index w = .ok none ↔
      payload.length ≤ (index * w + w - 1) / 8 := by
  have hend := bytesNeeded_end index hw1
  by_cases h : payload.length < index * w / 8 + bytesNeeded index w
  · exact iff_of_true (readPackedValue_eq_none h) (by omega)
  · obtain ⟨v, hv, -⟩ := readPackedValue_ok payload hw1 hw le_rfl (not_lt.1 h)
    refine iff_of_false ?_ (by omega)
    simp [hv]

/-- What follows the payload in memory does not reach the reader. -/
theorem readPackedValue_append (hw1 : 1 ≤ w) (hw : w ≤ 16) (rest : Bytes) :
    readPackedValue (payload ++ rest) payload.length index w
      = readPackedValue payload payload.length index w := by
  by_cases h : payload.length < index * w / 8 + bytesNeeded index w
  · rw [readPackedValue_eq_none h, readPackedValue_eq_none h]
  · obtain ⟨v, hv, hval⟩ := readPackedValue_ok payload hw1 hw le_rfl (not_lt.1 h)
    obtain ⟨v', hv', hval'⟩ := readPackedValue_ok (payload ++ rest) hw1 hw (by simp) (not_lt.1 h)
    have hsame : v' = v := by
      apply UInt32.toNat_inj.1
      rw [hval, hval', value_slice_append _ _ _ _ (not_lt.1 h), value_slice]
    rw [hv, hv', hsame]

end Reader

/-! ## The codec -/

theorem packedByteSize_eq_ceil (count w : ℕ) :
    packedByteSize count w = ⌈((count * w : ℕ) : ℚ) / 8⌉₊ := by
  have h := ceil_div (count * w) (by norm_num : 0 < 8)
  rw [packedByteSize]
  exact_mod_cast h.symm

/-- **The round trip of the codec.**  The writer appends the bytes of
`PackedByteSize`, and the reader gets every value back from them; on any payload the
reader gives up exactly when the last byte it needs lies behind it, and reads nothing
behind it; and the writer's accumulator holds every bit that is not written yet. -/
theorem packedValues_roundTrip {w : ℕ} (hw1 : 1 ≤ w) (hw : w ≤ 16) :
    (∀ (values : List UInt32) (dst : Bytes), ∃ out,
        appendPackedValues values w dst = dst ++ out ∧
        out.length = packedByteSize values.length w ∧
        out.length = ⌈((values.length * w : ℕ) : ℚ) / 8⌉₊ ∧
        ∀ i (hi : i < values.length), ∃ v,
          readPackedValue out out.length i w = .ok (some v) ∧
            v.toNat = values[i].toNat % 2 ^ w) ∧
      (∀ (payload : Bytes) (index : ℕ),
        (readPackedValue payload payload.length index w = .ok none ↔
          payload.length ≤ (index * w + w - 1) / 8) ∧
        (∃ r, readPackedValue payload payload.length index w = .ok r) ∧
        ∀ rest, readPackedValue (payload ++ rest) payload.length index w
          = readPackedValue payload payload.length index w) ∧
      ∀ (dst : Bytes) (done : List UInt32) (v : UInt32) (rounds : ℕ),
        (writerState w dst done v rounds).pendingBits < 24 ∧
        (writerState w dst done v rounds).pending.toNat
          < 2 ^ (writerState w dst done v rounds).pendingBits ∧
        ∃ out, (writerState w dst done v rounds).dst = dst ++ out ∧
          8 * out.length + (writerState w dst done v rounds).pendingBits = (done.length + 1) * w ∧
          value out + 256 ^ out.length * (writerState w dst done v rounds).pending.toNat
            = Nat.ofDigits (2 ^ w) (fields (done ++ [v]) w) := by
  refine ⟨fun values dst => ?_, fun payload index => ?_, fun dst done v rounds => ?_⟩
  · obtain ⟨out, hout, hlen, hval⟩ := appendPackedValues_eq hw values dst
    refine ⟨out, hout, hlen, hlen.trans (packedByteSize_eq_ceil ..), fun i hi => ?_⟩
    have hread : readPackedValue (out ++ []) out.length i w
        = .ok (some (values.getD i 0 &&& bitMask w)) := readPackedValue_packed hw1 hw hlen hval hi
    rw [List.append_nil, List.getD_eq_getElem _ _ hi] at hread
    exact ⟨_, hread, toNat_and_bitMask _ hw⟩
  · exact ⟨readPackedValue_none_iff hw1 hw, readPackedValue_isOk hw1 hw le_rfl,
      readPackedValue_append hw1 hw⟩
  · obtain ⟨⟨⟨out, hdst, hval, hlen⟩, hlt⟩, h24⟩ := writerState_packs hw dst done v rounds
    exact ⟨h24, hlt, out, hdst, hlen, hval⟩

theorem packedValues_roundTrip_eleven :
    ∃ out, appendPackedValues [2047, 5] 11 [1] = [1] ++ out ∧
      out.length = packedByteSize 2 11 ∧ out.length = ⌈((2 * 11 : ℕ) : ℚ) / 8⌉₊ ∧
      ∀ i (hi : i < [(2047 : UInt32), 5].length), ∃ v,
        readPackedValue out out.length i 11 = .ok (some v) ∧
          v.toNat = [(2047 : UInt32), 5][i].toNat % 2 ^ 11 :=
  (packedValues_roundTrip (by norm_num) (by norm_num)).1 [2047, 5] [1]

example : appendPackedValues [2047, 5] 11 [1] = [1, 255, 47, 0] := by decide

end PackedFilters
