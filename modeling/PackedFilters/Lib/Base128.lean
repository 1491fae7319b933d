import Mathlib

/-!
# Numbers in groups of seven bits

`Base128.encode` writes a number in groups of seven bits, least significant group first, with
the high bit set on every byte but the last; `decode` reads one number off the front of a
byte string.  Small numbers take one byte, and the code says by itself where it ends, so that
numbers can be written one behind the other.

The numbers here have no bound, and a code is accepted at any length.  A program that reads
such codes into a machine word stops after so many bytes; with `length_encode_le_iff` the
codes it stops at are those of numbers that do not fit.  Decoding also accepts codes that
`encode` never writes, with groups of zeros at the end: the code of a number is not unique,
and only the round trip from numbers is claimed.

* `decode_append` — the number comes back, and what follows it is left alone;
* `decode_of_prefix` — a code that is cut short does not decode;
* `length_encode_le_iff` — the number of bytes a number takes;
* `decode_eq_some` — what decodes is a run of bytes with the high bit, one without, and
  whatever follows it.
-/

namespace Base128

/-- The groups of a number. -/
def encode (n : ℕ) : List UInt8 :=
  if n < 128 then [UInt8.ofNat n] else UInt8.ofNat (n % 128 + 128) :: encode (n / 128)

/-- The number at the front of a byte string, and the bytes behind it. -/
def decode : List UInt8 → Option (ℕ × List UInt8)
  | [] => none
  | b :: rest =>
    if b.toNat < 128 then some (b.toNat, rest)
    else (decode rest).map fun r => (b.toNat - 128 + 128 * r.1, r.2)

theorem encode_of_lt {n : ℕ} (h : n < 128) : encode n = [UInt8.ofNat n] := by
  rw [encode, if_pos h]

theorem encode_of_le {n : ℕ} (h : 128 ≤ n) :
    encode n = UInt8.ofNat (n % 128 + 128) :: encode (n / 128) := by
  rw [encode, if_neg (not_lt.2 h)]

theorem toNat_ofNat_of_lt {n : ℕ} (h : n < 256) : (UInt8.ofNat n).toNat = n :=
  UInt8.toNat_ofNat'.trans (Nat.mod_eq_of_lt h)

/-- **Round trip:** in front of anything the code of a number decodes to that number, and leaves
what follows. -/
theorem decode_append (n : ℕ) (rest : List UInt8) : decode (encode n ++ rest) = some (n, rest) := by
  induction n using encode.induct with
  | case1 n h =>
    rw [encode_of_lt h, List.singleton_append, decode, toNat_ofNat_of_lt (by omega), if_pos h]
  | case2 n h ih =>
    rw [encode_of_le (not_lt.1 h), List.cons_append, decode, toNat_ofNat_of_lt (by omega),
      if_neg (by omega), ih]
    simp
    omega

theorem encode_ne_nil (n : ℕ) : encode n ≠ [] := by
  rw [encode]
  split <;> simp

theorem length_encode_pos (n : ℕ) : 0 < (encode n).length :=
  List.length_pos_iff.2 (encode_ne_nil n)

/-- A number takes at most `k + 1` bytes when it has at most that many groups. -/
theorem length_encode_le_iff (k n : ℕ) : (encode n).length ≤ k + 1 ↔ n < 128 ^ (k + 1) := by
  induction k generalizing n with
  | zero =>
    by_cases h : n < 128
    · simp [encode_of_lt h, h]
    · have := length_encode_pos (n / 128)
      rw [encode_of_le (not_lt.1 h), List.length_cons]
      omega
  | succ k ih =>
    by_cases h : n < 128
    · have : 128 ^ 1 ≤ 128 ^ (k + 1 + 1) := Nat.pow_le_pow_right (by norm_num) (by omega)
      simp only [encode_of_lt h, List.length_singleton]
      omega
    · rw [encode_of_le (not_lt.1 h), List.length_cons, Nat.add_le_add_iff_right, ih,
        Nat.div_lt_iff_lt_mul (by norm_num), pow_succ 128 (k + 1)]

theorem length_encode_le {k n : ℕ} (h : n < 128 ^ (k + 1)) : (encode n).length ≤ k + 1 :=
  (length_encode_le_iff k n).2 h

/-- **A code that is cut short does not decode.** -/
theorem decode_of_prefix (n : ℕ) {l : List UInt8} (hl : l <+: encode n)
    (hne : l.length < (encode n).length) : decode l = none := by
  induction n using encode.induct generalizing l with
  | case1 n h =>
    rw [encode_of_lt h, List.length_singleton, Nat.lt_one_iff, List.length_eq_zero_iff] at hne
    rw [hne, decode]
  | case2 n h ih =>
    rw [encode_of_le (not_lt.1 h)] at hl hne
    cases l with
    | nil => rfl
    | cons b l =>
      obtain ⟨rfl, hl'⟩ := List.cons_prefix_cons.1 hl
      rw [decode, toNat_ofNat_of_lt (by omega), if_neg (by omega),
        ih hl' (Nat.lt_of_succ_lt_succ hne)]
      rfl

/-- **What decodes** is a run of bytes with the high bit, one without, and the rest. -/
theorem decode_eq_some {l rest : List UInt8} {n : ℕ} (h : decode l = some (n, rest)) :
    ∃ init last, l = init ++ last :: rest ∧ (∀ b ∈ init, 128 ≤ b.toNat) ∧ last.toNat < 128 ∧
      n = Nat.ofDigits 128 (init.map fun b => b.toNat - 128) + 128 ^ init.length * last.toNat := by
  induction l generalizing n with
  | nil => cases h
  | cons b l ih =>
    rw [decode] at h
    split at h
    · rename_i hb
      obtain ⟨rfl, rfl⟩ := Prod.mk.injEq .. ▸ Option.some.inj h
      exact ⟨[], b, rfl, by simp, hb, by simp⟩
    · rename_i hb
      obtain ⟨⟨m, rest'⟩, hdecode, hr⟩ := Option.map_eq_some_iff.1 h
      obtain ⟨rfl, rfl⟩ := Prod.mk.injEq .. ▸ hr
      obtain ⟨init, last, rfl, hinit, hlast, rfl⟩ := ih hdecode
      refine ⟨b :: init, last, rfl, List.forall_mem_cons.2 ⟨not_lt.1 hb, hinit⟩, hlast, ?_⟩
      simp only [List.map_cons, Nat.ofDigits_cons, List.length_cons]
      ring

end Base128
