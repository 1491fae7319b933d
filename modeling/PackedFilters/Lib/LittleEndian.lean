import Mathlib

/-!
# Little-endian byte strings

`LittleEndian.value` reads a byte string as a number, least significant byte first.  A
fixed-width field of a file format is the value of a few bytes, and a stream into which
fields of any width are packed one behind the other is the value of all of them, so both are
read with the same lemmas.

Nothing is assumed of the length of the string: the value of `n` bytes is below `256 ^ n`
because its digits in base 256 are bytes (`digits_lt`), and there is no word size in it.  A
program that collects such a number in a machine word has to show on its own that the word is
wide enough; here the number is exact.

* `ofDigits_div_pow_mod` — one digit of a number in any base: a packed field, when the base
  is a power of two;
* `value_append` — a string behind another one counts from the end of that one;
* `value_slice` — the bytes between two positions are a quotient and a remainder of the
  whole;
* `value_slice_append` — a slice that ends inside the first of two strings does not see the
  second one, so that what is appended later leaves earlier fields alone.
-/

namespace LittleEndian

/-! ## Digits in any base -/

/-- The digit at `i` of a number written in base `b`. -/
theorem ofDigits_div_pow_mod {b : ℕ} (hb : 0 < b) (l : List ℕ) (hl : ∀ d ∈ l, d < b) (i : ℕ) :
    Nat.ofDigits b l / b ^ i % b = l.getD i 0 := by
  rw [Nat.ofDigits_div_pow_eq_ofDigits_drop i hb l hl, List.getD_eq_getElem?_getD,
    ← List.head?_drop]
  cases h : l.drop i with
  | nil => simp
  | cons d ds =>
    have hd : d < b := hl d (List.mem_of_mem_drop (h ▸ List.mem_cons_self ..))
    rw [Nat.ofDigits_cons, Nat.add_mul_mod_self_left, Nat.mod_eq_of_lt hd]
    rfl

/-! ## Bytes -/

/-- The number a byte string spells, least significant byte first. -/
def value (bytes : List UInt8) : ℕ := Nat.ofDigits 256 (bytes.map UInt8.toNat)

@[simp] theorem value_nil : value [] = 0 := rfl

theorem value_cons (b : UInt8) (bytes : List UInt8) :
    value (b :: bytes) = b.toNat + 256 * value bytes := Nat.ofDigits_cons ..

theorem digits_lt (bytes : List UInt8) : ∀ d ∈ bytes.map UInt8.toNat, d < 256 := by
  intro d hd
  obtain ⟨b, -, rfl⟩ := List.mem_map.1 hd
  exact b.toNat_lt

theorem value_append (x y : List UInt8) :
    value (x ++ y) = value x + 256 ^ x.length * value y := by
  rw [value, List.map_append, Nat.ofDigits_append, List.length_map]
  rfl

theorem value_singleton (b : UInt8) : value [b] = b.toNat := by
  rw [value_cons, value_nil, Nat.mul_zero, Nat.add_zero]

/-- A slice of the string is a slice of the number's digits. -/
theorem value_slice (bytes : List UInt8) (i k : ℕ) :
    value ((bytes.drop i).take k) = value bytes / 256 ^ i % 256 ^ k := by
  rw [value, value, Nat.ofDigits_div_pow_eq_ofDigits_drop i (by norm_num) _ (digits_lt bytes),
    ← List.map_drop, Nat.ofDigits_mod_pow_eq_ofDigits_take k (by norm_num) _
      (digits_lt (bytes.drop i)), ← List.map_take]

/-- Bytes behind the slice do not matter to it. -/
theorem value_slice_append (x y : List UInt8) (i k : ℕ) (h : i + k ≤ x.length) :
    value (((x ++ y).drop i).take k) = value x / 256 ^ i % 256 ^ k := by
  rw [List.drop_append_of_le_length (by omega), List.take_append_of_le_length, value_slice]
  rw [List.length_drop]
  omega

end LittleEndian
