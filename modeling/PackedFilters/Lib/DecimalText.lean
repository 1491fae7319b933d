import Mathlib

/-!
# Numbers as decimal text

What a program prints of an integer, and what it reads of decimal text, exactly: numbers are
integers and rationals, and no digit is lost on the way.  A text is a list of characters.

Reading is partial: a text that is no number has no value.  An integer is a run of digits,
which may not be empty, behind an optional minus sign.  A decimal number may have a point
among its digits, and what stands behind it counts for tenths, hundredths and so on; a point
with digits on one side only is a number too.

* `intText` — the digits of an integer, behind a minus sign if it is negative;
* `readInt`, `readDecimal` — an integer, and a number with digits behind a point;
* `not_mem_intText` — a printed integer has no character besides digits and the sign, so a
  separator behind it can be found;
* `readInt_intText` — an integer that was printed is read back;
* `readDecimal_toDigits`, `readDecimal_point` — so is a whole number, and one with any digits
  behind its point.

The printing of numbers with a fixed number of decimals is not here: it rounds, and is then
no inverse of reading.
-/

namespace PackedFilters.DecimalText

/-! ## Integers -/

/-- The text of an integer. -/
def intText (n : ℤ) : List Char :=
  if n < 0 then '-' :: Nat.toDigits 10 n.natAbs else Nat.toDigits 10 n.natAbs

/-- A number without a sign; every character has to be a digit. -/
def readNat (text : List Char) : Option ℕ :=
  if text ≠ [] ∧ text.all Char.isDigit then some (Nat.ofDigitChars 10 text 0) else none

/-- A number with an optional minus sign. -/
def readInt : List Char → Option ℤ
  | '-' :: rest => (readNat rest).map fun n : ℕ => -(n : ℤ)
  | text => (readNat text).map fun n : ℕ => (n : ℤ)

theorem all_isDigit_toDigits (n : ℕ) : (Nat.toDigits 10 n).all Char.isDigit = true :=
  List.all_eq_true.2 fun _ hc => Nat.isDigit_of_mem_toDigits (by norm_num) le_rfl hc

theorem not_mem_of_all_isDigit {text : List Char} (h : text.all Char.isDigit = true) {c : Char}
    (hc : c.isDigit = false) : c ∉ text := fun hmem =>
  absurd (List.all_eq_true.1 h c hmem) (by rw [hc]; exact Bool.false_ne_true)

theorem intText_ne_nil (n : ℤ) : intText n ≠ [] := by
  unfold intText
  split
  · exact List.cons_ne_nil _ _
  · exact Nat.toDigits_ne_nil

/-- A character that is neither a digit nor the sign does not occur. -/
theorem not_mem_intText (n : ℤ) {c : Char} (hdigit : c.isDigit = false) (hsign : c ≠ '-') :
    c ∉ intText n := by
  have hdigits := not_mem_of_all_isDigit (all_isDigit_toDigits n.natAbs) hdigit
  unfold intText
  split
  · exact List.not_mem_cons_of_ne_of_not_mem hsign hdigits
  · exact hdigits

theorem readNat_toDigits (n : ℕ) : readNat (Nat.toDigits 10 n) = some n := by
  unfold readNat
  rw [if_pos ⟨Nat.toDigits_ne_nil, all_isDigit_toDigits n⟩, Nat.ofDigitChars_ten_toDigits]

/-- The digits of a number start with a digit. -/
theorem toDigits_eq_cons (n : ℕ) :
    ∃ c rest, Nat.toDigits 10 n = c :: rest ∧ c.isDigit = true ∧ c ≠ '-' := by
  cases h : Nat.toDigits 10 n with
  | nil => exact absurd h Nat.toDigits_ne_nil
  | cons c rest =>
    have hc : c.isDigit = true := Nat.isDigit_of_mem_toDigits (by norm_num) le_rfl
      (h ▸ List.mem_cons_self : c ∈ Nat.toDigits 10 n)
    refine ⟨c, rest, rfl, hc, ?_⟩
    rintro rfl
    exact absurd hc (by decide)

theorem readInt_of_ne {c : Char} (rest : List Char) (h : c ≠ '-') :
    readInt (c :: rest) = (readNat (c :: rest)).map fun n : ℕ => (n : ℤ) := by
  unfold readInt
  split
  · rename_i heq
    cases heq
    exact absurd rfl h
  · rfl

/-- **Integers** are read back. -/
theorem readInt_intText (n : ℤ) : readInt (intText n) = some n := by
  unfold intText
  split
  · rename_i hneg
    rw [readInt, readNat_toDigits, Option.map_some, Int.ofNat_natAbs_of_nonpos hneg.le, neg_neg]
  · rename_i hpos
    obtain ⟨c, rest, heq, -, hc⟩ := toDigits_eq_cons n.natAbs
    rw [heq, readInt_of_ne rest hc, ← heq, readNat_toDigits, Option.map_some,
      Int.natAbs_of_nonneg (not_lt.1 hpos)]

/-! ## Decimal fractions -/

/-- A number that is not negative: digits, or digits and a point among them. -/
def readUnsigned (text : List Char) : Option ℚ :=
  let whole := text.takeWhile Char.isDigit
  match text.dropWhile Char.isDigit with
  | [] => if whole = [] then none else some (Nat.ofDigitChars 10 whole 0)
  | '.' :: fraction =>
    if whole ++ fraction ≠ [] ∧ fraction.all Char.isDigit then
      some (Nat.ofDigitChars 10 (whole ++ fraction) 0 / 10 ^ fraction.length)
    else none
  | _ => none

/-- A number with an optional minus sign and an optional point. -/
def readDecimal : List Char → Option ℚ
  | '-' :: rest => (readUnsigned rest).map fun x => -x
  | text => readUnsigned text

theorem readDecimal_of_ne {c : Char} (rest : List Char) (h : c ≠ '-') :
    readDecimal (c :: rest) = readUnsigned (c :: rest) := by
  unfold readDecimal
  split
  · rename_i heq
    cases heq
    exact absurd rfl h
  · rfl

theorem takeWhile_toDigits_append (n : ℕ) (rest : List Char) :
    (Nat.toDigits 10 n ++ rest).takeWhile Char.isDigit
        = Nat.toDigits 10 n ++ rest.takeWhile Char.isDigit ∧
      (Nat.toDigits 10 n ++ rest).dropWhile Char.isDigit = rest.dropWhile Char.isDigit := by
  have hall : ∀ c ∈ Nat.toDigits 10 n, c.isDigit = true := List.all_eq_true.1 (all_isDigit_toDigits n)
  exact ⟨List.takeWhile_append_of_pos hall, List.dropWhile_append_of_pos hall⟩

/-- **Whole numbers** are read back. -/
theorem readDecimal_toDigits (n : ℕ) : readDecimal (Nat.toDigits 10 n) = some (n : ℚ) := by
  obtain ⟨c, rest, heq, -, hc⟩ := toDigits_eq_cons n
  obtain ⟨htake, hdrop⟩ := takeWhile_toDigits_append n []
  rw [List.append_nil, List.takeWhile_nil, List.append_nil] at htake
  rw [List.append_nil, List.dropWhile_nil] at hdrop
  rw [heq, readDecimal_of_ne rest hc, ← heq]
  simp only [readUnsigned, htake, hdrop, if_neg Nat.toDigits_ne_nil, Nat.ofDigitChars_ten_toDigits]

/-- **Numbers with digits behind the point** are read back, each digit a tenth of the
one before it. -/
theorem readDecimal_point (n : ℕ) {fraction : List Char} (h : fraction.all Char.isDigit = true) :
    readDecimal (Nat.toDigits 10 n ++ '.' :: fraction)
      = some ((Nat.ofDigitChars 10 fraction n : ℕ) / 10 ^ fraction.length : ℚ) := by
  obtain ⟨c, rest, heq, -, hc⟩ := toDigits_eq_cons n
  obtain ⟨htake, hdrop⟩ := takeWhile_toDigits_append n ('.' :: fraction)
  have hpoint : ¬ Char.isDigit '.' = true := by decide
  rw [List.takeWhile_cons_of_neg hpoint, List.append_nil] at htake
  rw [List.dropWhile_cons_of_neg hpoint] at hdrop
  have hne : Nat.toDigits 10 n ++ fraction ≠ [] :=
    List.append_ne_nil_of_left_ne_nil Nat.toDigits_ne_nil _
  rw [heq, List.cons_append, readDecimal_of_ne _ hc, ← List.cons_append, ← heq]
  simp only [readUnsigned, htake, hdrop]
  rw [if_pos ⟨hne, h⟩, Nat.ofDigitChars_append, Nat.ofDigitChars_ten_toDigits]

end PackedFilters.DecimalText
