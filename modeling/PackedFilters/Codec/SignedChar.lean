import PackedFilters.Codec.Hash

/-!
# Where the two hashes agree

LevelDB reads the bytes behind the last group of four as `uint8_t`, PebblesDB as `char`.  On
a byte below 128 that is the same; from 128 on the `char` is negative, and as a `uint32_t` it
has its upper 24 bits set.  So the two hashes of a key add different numbers as soon as one
of the one to three remaining bytes is such a byte, and the question is whether the rest of
the function can hide it.

It cannot: the fillings that were added are shifted to different places, their sum is never
zero modulo `2 ^ 32`, and what comes after the sum (a product with an odd constant, an
exclusive or with a shift) keeps distinct words distinct.  Since both start from the same
seed and read the groups of four alike, they agree under every seed or under none.

* `toNat_charToUInt32` — the sign of a byte from 128 on fills the upper 24 bits;
* `hashFinish_injective` — the steps behind the sum can be undone;
* `hashTail_eq_iff` — the two sums are equal only if no byte is negative;
* `SignFree`, `leveldbHash_eq_iff` — so the hashes of a key agree when no byte left over is
  above 127, and under no seed otherwise.
-/

namespace PackedFilters

/-! ## The last steps -/

/-- The xor-shift of the last step undoes itself. -/
theorem xorShift24_involutive : Function.Involutive fun w : UInt32 => w ^^^ (w >>> 24) := by
  intro w
  have hshift (v : UInt32) (i : ℕ) : (v >>> 24).toNat.testBit i = v.toNat.testBit (24 + i) := by
    rw [UInt32.toNat_shiftRight, Nat.testBit_shiftRight]
    rfl
  have hhigh (i : ℕ) : w.toNat.testBit (24 + (24 + i)) = false :=
    Nat.testBit_lt_two_pow (w.toNat_lt.trans_le (Nat.pow_le_pow_right (by norm_num) (by omega)))
  rw [← UInt32.toNat_inj]
  refine Nat.eq_of_testBit_eq fun i => ?_
  simp only [UInt32.toNat_xor, Nat.testBit_xor, hshift, hhigh]
  simp

theorem hashFinish_injective : Function.Injective hashFinish := by
  have hmul : Function.Injective fun h : UInt32 => h * hashMultiplier :=
    Function.LeftInverse.injective (g := fun h => h * 0xd8198e9b) fun h => by
      have hone : hashMultiplier * 0xd8198e9b = 1 := by decide
      simp only [UInt32.mul_assoc, hone, UInt32.mul_one]
  exact xorShift24_involutive.injective.comp hmul

/-! ## The remaining bytes -/

/-- The sign of a `char` fills the upper 24 bits. -/
theorem toNat_charToUInt32 (b : UInt8) :
    (charToUInt32 b).toNat = b.toNat + if b.toNat < 128 then 0 else 4294967040 := by
  have hall : ∀ n : Fin 256, (charToUInt32 (UInt8.ofFin n)).toNat
      = n.val + if n.val < 128 then 0 else 4294967040 := by decide +kernel
  exact hall b.toFin

/-- The bytes the loop over groups of four leaves to the `switch`. -/
def hashRemaining (data : Bytes) : Bytes := data.drop (4 * (data.length / 4))

theorem length_hashRemaining (data : Bytes) : (hashRemaining data).length < 4 := by
  rw [hashRemaining, List.length_drop]
  omega

/-- One round of the loop over groups of four. -/
theorem hashBytes_succ (widen : UInt8 → UInt32) (words : ℕ) :
    hashBytes widen (words + 1) = fun (data : Bytes) (h : UInt32) =>
      let w := (data.getD 0 0).toUInt32 ||| ((data.getD 1 0).toUInt32 <<< 8) |||
        ((data.getD 2 0).toUInt32 <<< 16) ||| ((data.getD 3 0).toUInt32 <<< 24)
      hashBytes widen words (data.drop 4) (hashWord h w) := rfl

/-- The loop ends in one word and the remaining bytes, whatever the `switch` does. -/
theorem hashBytes_eq_hashTail : ∀ (words : ℕ) (data : Bytes) (h : UInt32),
    ∃ h', ∀ widen, hashBytes widen words data h = hashTail widen (data.drop (4 * words)) h' := by
  intro words
  induction words with
  | zero => exact fun data h => ⟨h, fun widen => rfl⟩
  | succ words ih =>
    intro data h
    obtain ⟨h', hh'⟩ := ih (data.drop 4) (hashWord h ((data.getD 0 0).toUInt32 |||
      ((data.getD 1 0).toUInt32 <<< 8) ||| ((data.getD 2 0).toUInt32 <<< 16) |||
      ((data.getD 3 0).toUInt32 <<< 24)))
    refine ⟨h', fun widen => ?_⟩
    have hdrop : (data.drop 4).drop (4 * words) = data.drop (4 * (words + 1)) := by
      rw [List.drop_drop, Nat.mul_succ, Nat.add_comm]
    have hround := congrFun (congrFun (hashBytes_succ widen words) data) h
    exact hround.trans ((hh' widen).trans (by rw [hdrop]))

/-- The `switch` gives the same word just when no byte is negative as a `char`. -/
theorem hashTail_eq_iff {tail : Bytes} (hlen : tail.length < 4) (h : UInt32) :
    hashTail UInt8.toUInt32 tail h = hashTail charToUInt32 tail h ↔ ∀ b ∈ tail, b.toNat < 128 := by
  have hshl8 (v : UInt32) : (v <<< 8).toNat = v.toNat * 256 % 4294967296 := by
    rw [UInt32.toNat_shiftLeft, Nat.shiftLeft_eq]
    rfl
  have hshl16 (v : UInt32) : (v <<< 16).toNat = v.toNat * 65536 % 4294967296 := by
    rw [UInt32.toNat_shiftLeft, Nat.shiftLeft_eq]
    rfl
  match tail, hlen with
  | [], _ => simp [hashTail]
  | [b0], _ =>
    have h0 := b0.toNat_lt
    rw [hashTail, hashTail, hashFinish_injective.eq_iff, ← UInt32.toNat_inj]
    simp only [UInt32.toNat_add, UInt8.toNat_toUInt32, toNat_charToUInt32, List.mem_singleton,
      forall_eq]
    split <;> omega
  | [b0, b1], _ =>
    have h0 := b0.toNat_lt
    have h1 := b1.toNat_lt
    rw [hashTail, hashTail, hashFinish_injective.eq_iff, ← UInt32.toNat_inj]
    simp only [UInt32.toNat_add, hshl8, UInt8.toNat_toUInt32, toNat_charToUInt32, List.mem_cons,
      List.not_mem_nil, or_false, forall_eq_or_imp, forall_eq]
    split <;> split <;> omega
  | [b0, b1, b2], _ =>
    have h0 := b0.toNat_lt
    have h1 := b1.toNat_lt
    have h2 := b2.toNat_lt
    rw [hashTail, hashTail, hashFinish_injective.eq_iff, ← UInt32.toNat_inj]
    simp only [UInt32.toNat_add, hshl8, hshl16, UInt8.toNat_toUInt32, toNat_charToUInt32,
      List.mem_cons, List.not_mem_nil, or_false, forall_eq_or_imp, forall_eq]
    split <;> split <;> split <;> omega

/-- No byte left to the `switch` is negative as a `char`. -/
def SignFree (key : Bytes) : Prop := ∀ b ∈ hashRemaining key, b.toNat < 128

instance : DecidablePred SignFree := fun key =>
  inferInstanceAs (Decidable (∀ b ∈ hashRemaining key, b.toNat < 128))

/-- **Where the hashes agree**: under every seed or under none. -/
theorem leveldbHash_eq_iff (key : Bytes) (seed : UInt32) :
    leveldbHash key seed = pebblesdbHash key seed ↔ SignFree key := by
  obtain ⟨h, hh⟩ := hashBytes_eq_hashTail (key.length / 4) key
    (seed ^^^ (UInt32.ofNat key.length * hashMultiplier))
  rw [leveldbHash, pebblesdbHash, hh, hh]
  exact hashTail_eq_iff (length_hashRemaining key) h

end PackedFilters
