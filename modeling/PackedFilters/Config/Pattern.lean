import PackedFilters.Lib.DecimalText

/-!
# Object patterns

`ObjectLibrary::PatternEntry` of `utilities/object_registry.cc`, the same code in RocksDB and
Speedb: an entry matches a target that starts with one of its names and goes on with its
separators, each followed by what its quantifier allows.  A `std::string` is a list of
characters, and `std::string::npos` is `none`.

The matcher is not a regular expression.  It walks the separators from left to right, finds
the next one by its first occurrence, and asks of the text in between what the quantifier of
the separator before it says; what is behind the last separator is checked at the end.  An
entry whose names are optional also matches a name alone, and an entry without separators
nothing else.

* `PatternEntry`, `addSuffix`, `addNumber`, `anotherName` — how a pattern is put together;
* `matchSeparatorAt`, `matchesTarget`, `isMatch` — the matcher;
* `matchesTarget_numbers` — a name, a decimal number and an integer match the entry that asks
  for them, and not the one that asks for the number only;
* `matchesTarget_of_diverges` — an entry does not match where all its names differ from the
  start of the target.
-/

namespace PackedFilters.Config

open DecimalText

/-! ## Numbers in a target -/

/-- The loop of `MatchesInteger`. -/
def integerLoop : List Char → ℕ → Bool
  | [], digits => decide (0 < digits)
  | c :: rest, digits => if ¬ c.isDigit then false else integerLoop rest (digits + 1)

/-- `MatchesInteger`: between two positions there are digits only, at least one, behind an
optional minus sign. -/
def matchesInteger (target : List Char) (start pos : ℕ) : Bool :=
  let start := if target[start]? = some '-' then start + 1 else start
  integerLoop ((target.take pos).drop start) 0

/-- The loop of `MatchesDecimal`. -/
def decimalLoop : List Char → Bool → ℕ → Bool
  | [], _, digits => decide (0 < digits)
  | c :: rest, point, digits =>
    if c = '.' then if point then false else decimalLoop rest true digits
    else if ¬ c.isDigit then false
    else decimalLoop rest point (digits + 1)

/-- `MatchesDecimal`: the same with at most one point among the digits. -/
def matchesDecimal (target : List Char) (start pos : ℕ) : Bool :=
  let start := if target[start]? = some '-' then start + 1 else start
  decimalLoop ((target.take pos).drop start) false 0

/-! ## Entries -/

/-- `Quantifier`: what may follow a separator. -/
inductive Quantifier where
  | zeroOrMore
  | atLeastOne
  | exact
  | integer
  | decimal
  deriving DecidableEq

/-- `PatternEntry`: the names, whether one of them may stand alone, and the separators with what
may follow each; `slength` is the least length of a text for them. -/
structure PatternEntry where
  name : List Char
  names : List (List Char)
  optional : Bool
  slength : ℕ
  separators : List (List Char × Quantifier)

namespace PatternEntry

/-- The constructor: one name and nothing behind it. -/
def new (name : List Char) (optional : Bool) : PatternEntry where
  name := name
  names := []
  optional := optional
  slength := 0
  separators := []

/-- `AddSuffix`: a text that has to follow exactly. -/
def addSuffix (e : PatternEntry) (suffix : List Char) : PatternEntry :=
  { e with
    separators := e.separators ++ [(suffix, .exact)]
    slength := e.slength + suffix.length }

/-- `AddNumber`: a separator, and an integer or a decimal number behind it. -/
def addNumber (e : PatternEntry) (separator : List Char) (isInt : Bool) : PatternEntry :=
  { e with
    separators := e.separators ++ [(separator, if isInt then .integer else .decimal)]
    slength := e.slength + (separator.length + 1) }

/-- `AnotherName`: one more name that a target may start with. -/
def anotherName (e : PatternEntry) (alt : List Char) : PatternEntry :=
  { e with names := e.names ++ [alt] }

end PatternEntry

/-! ## Matching -/

/-- `target.find(separator, pos)`: the first occurrence at `pos` or behind it. -/
def findFrom (target separator : List Char) (pos : ℕ) : Option ℕ :=
  (List.range (target.length + 1)).find? fun i =>
    decide (pos ≤ i) && decide ((target.drop i).take separator.length = separator)

/-- `MatchSeparatorAt`: where the text goes on behind the next occurrence of the separator, if
what is in front of it is what the quantifier asks for. -/
def matchSeparatorAt (start : ℕ) (mode : Quantifier) (target : List Char) (tlen : ℕ)
    (separator : List Char) : Option ℕ :=
  let slen := separator.length
  if tlen < start + slen then none
  else if mode = .exact then
    if (target.drop start).take slen ≠ separator then none else some (start + slen)
  else
    let pos := if separator = [] then some (start + 1) else findFrom target separator (start + 1)
    match pos with
    | none => none
    | some pos =>
      if mode = .integer ∧ matchesInteger target start pos = false then none
      else if mode = .decimal ∧ matchesDecimal target start pos = false then none
      else some (pos + slen)

/-- The loop over the separators: where it ends, and the quantifier of the last one. -/
def matchSeparators (target : List Char) (tlen : ℕ) :
    List (List Char × Quantifier) → ℕ → Quantifier → Option (ℕ × Quantifier)
  | [], start, mode => some (start, mode)
  | (separator, quantifier) :: rest, start, mode =>
    match matchSeparatorAt start mode target tlen separator with
    | none => none
    | some start => matchSeparators target tlen rest start quantifier

/-- The checks behind that loop: whether what is left of the target is acceptable. -/
def matchRest (target : List Char) (tlen : ℕ) : Option (ℕ × Quantifier) → Bool
  | none => false
  | some (start, mode) =>
    if mode = .exact then decide (start = tlen)
    else if tlen < start ∨ (start = tlen ∧ mode ≠ .zeroOrMore) then false
    else if mode = .integer then matchesInteger target start tlen
    else if mode = .decimal then matchesDecimal target start tlen
    else true

namespace PatternEntry

/-- `MatchesTarget`: the target is the name with its separators and what follows them, or the
name alone where that is allowed. -/
def matchesTarget (e : PatternEntry) (name target : List Char) : Bool :=
  let nlen := name.length
  let tlen := target.length
  if e.separators = [] then decide (nlen = tlen ∧ name = target)
  else if nlen = tlen then e.optional && decide (name = target)
  else if tlen < nlen + e.slength then false
  else if target.take nlen ≠ name then false
  else matchRest target tlen (matchSeparators target tlen e.separators nlen .exact)

/-- `Matches`: the target matches under one of the names. -/
def isMatch (e : PatternEntry) (target : List Char) : Bool :=
  e.matchesTarget e.name target || e.names.any fun alt => e.matchesTarget alt target

end PatternEntry

/-! ## Names that differ -/

/-- The two texts differ where both have a character. -/
def diverges : List Char → List Char → Bool
  | c :: cs, d :: ds => if c = d then diverges cs ds else true
  | _, _ => false

/-- A name that differs from the start of the target is not its prefix. -/
theorem take_ne_of_diverges : ∀ {name front : List Char} (rest : List Char),
    diverges name front = true →
      (front ++ rest).take name.length ≠ name ∧ name ≠ front ++ rest := by
  intro name
  induction name with
  | nil =>
    intro front rest h
    exact absurd h (by simp [diverges])
  | cons c cs ih =>
    intro front rest h
    cases front with
    | nil => exact absurd h (by simp [diverges])
    | cons d ds =>
      rw [diverges] at h
      split at h
      · obtain ⟨htake, hne⟩ := ih rest h
        simp [htake, hne]
      · rename_i hcd
        constructor
        · simp [Ne.symm hcd]
        · simp [hcd]

theorem matchesTarget_of_diverges (e : PatternEntry) {name front : List Char} (rest : List Char)
    (h : diverges name front = true) : e.matchesTarget name (front ++ rest) = false := by
  obtain ⟨htake, hne⟩ := take_ne_of_diverges rest h
  unfold PatternEntry.matchesTarget
  simp [htake, hne]

/-- An entry all of whose names differ from the start of the target does not match it. -/
theorem isMatch_of_diverges {e : PatternEntry} {front : List Char} (rest : List Char)
    (h : (e.name :: e.names).all (diverges · front) = true) : e.isMatch (front ++ rest) = false := by
  rw [List.all_cons, Bool.and_eq_true] at h
  unfold PatternEntry.isMatch
  rw [matchesTarget_of_diverges e rest h.1, Bool.false_or, List.any_eq_false]
  intro alt halt
  rw [matchesTarget_of_diverges e rest (List.all_eq_true.1 h.2 alt halt)]
  exact Bool.false_ne_true

/-! ## Numbers that match -/

theorem integerLoop_of_all : ∀ {text : List Char} (digits : ℕ), text.all Char.isDigit = true →
    integerLoop text digits = decide (0 < digits + text.length) := by
  intro text
  induction text with
  | nil => exact fun digits _ => rfl
  | cons c text ih =>
    intro digits h
    rw [List.all_cons, Bool.and_eq_true] at h
    rw [integerLoop, if_neg (not_not.2 h.1), ih _ h.2, List.length_cons]
    congr 2
    omega

/-- Digits before the point are counted. -/
theorem decimalLoop_append : ∀ {text : List Char} (rest : List Char) (point : Bool) (digits : ℕ),
    text.all Char.isDigit = true →
      decimalLoop (text ++ rest) point digits = decimalLoop rest point (digits + text.length) := by
  intro text
  induction text with
  | nil => exact fun rest point digits _ => rfl
  | cons c text ih =>
    intro rest point digits h
    rw [List.all_cons, Bool.and_eq_true] at h
    have hpoint : c ≠ '.' := by
      rintro rfl
      exact absurd h.1 (by decide)
    rw [List.cons_append, decimalLoop, if_neg hpoint, if_neg (not_not.2 h.1), ih _ _ _ h.2,
      List.length_cons]
    congr 1
    omega

/-- A character that is neither a digit nor the point ends the loop. -/
theorem decimalLoop_of_mem {c : Char} (hpoint : c ≠ '.') (hdigit : c.isDigit = false) :
    ∀ {text : List Char} (point : Bool) (digits : ℕ), c ∈ text →
      decimalLoop text point digits = false := by
  intro text
  induction text with
  | nil => exact fun point digits h => absurd h List.not_mem_nil
  | cons d text ih =>
    intro point digits h
    unfold decimalLoop
    cases List.mem_cons.1 h with
    | inl heq =>
      subst heq
      simp [hpoint, hdigit]
    | inr hmem =>
      have hall (p : Bool) (n : ℕ) := ih p n hmem
      simp [hall]

/-- Digits, and perhaps a point and more digits behind them. -/
inductive IsDecimal : List Char → Prop
  | whole (n : ℕ) : IsDecimal (Nat.toDigits 10 n)
  | point (n : ℕ) {fraction : List Char} (h : fraction.all Char.isDigit = true) :
      IsDecimal (Nat.toDigits 10 n ++ '.' :: fraction)

variable {text : List Char}

theorem IsDecimal.eq_cons (h : IsDecimal text) : ∃ c rest, text = c :: rest ∧ c ≠ '-' := by
  cases h with
  | whole n =>
    obtain ⟨c, rest, heq, -, hc⟩ := toDigits_eq_cons n
    exact ⟨c, rest, heq, hc⟩
  | point n =>
    obtain ⟨c, rest, heq, -, hc⟩ := toDigits_eq_cons n
    exact ⟨c, _, by rw [heq, List.cons_append], hc⟩

theorem IsDecimal.length_pos (h : IsDecimal text) : 0 < text.length := by
  obtain ⟨c, rest, rfl, -⟩ := h.eq_cons
  exact Nat.succ_pos _

/-- A character that is neither a digit nor the point does not occur. -/
theorem IsDecimal.not_mem (h : IsDecimal text) {c : Char} (hdigit : c.isDigit = false)
    (hpoint : c ≠ '.') : c ∉ text := by
  cases h with
  | whole n => exact not_mem_of_all_isDigit (all_isDigit_toDigits n) hdigit
  | point n hfraction =>
    rw [List.mem_append, List.mem_cons, not_or, not_or]
    exact ⟨not_mem_of_all_isDigit (all_isDigit_toDigits n) hdigit, hpoint,
      not_mem_of_all_isDigit hfraction hdigit⟩

theorem IsDecimal.decimalLoop (h : IsDecimal text) : decimalLoop text false 0 = true := by
  have hpos (n : ℕ) : 0 < (Nat.toDigits 10 n).length := Nat.length_toDigits_pos
  cases h with
  | whole n =>
    have hrun := decimalLoop_append [] false 0 (all_isDigit_toDigits n)
    rw [List.append_nil] at hrun
    rw [hrun, Config.decimalLoop]
    simpa using hpos n
  | @point n fraction hfraction =>
    have hrun := decimalLoop_append [] true (0 + (Nat.toDigits 10 n).length) hfraction
    rw [List.append_nil] at hrun
    rw [decimalLoop_append _ _ _ (all_isDigit_toDigits n), Config.decimalLoop, if_pos rfl,
      if_neg Bool.false_ne_true, hrun, Config.decimalLoop]
    simpa using Or.inl (hpos n)

/-- Where no sign stands at `start`, the loops run from there. -/
theorem not_sign {target : List Char} {start : ℕ} {c : Char} (h : target[start]? = some c)
    (hc : c ≠ '-') : ¬ target[start]? = some '-' := fun hsign =>
  hc (Option.some.inj (h.symm.trans hsign))

theorem matchesDecimal_of_head {target : List Char} {start : ℕ} {c : Char}
    (h : target[start]? = some c) (hc : c ≠ '-') (pos : ℕ) :
    matchesDecimal target start pos = decimalLoop ((target.take pos).drop start) false 0 := by
  simp only [matchesDecimal, if_neg (not_sign h hc)]

theorem matchesInteger_of_head {target : List Char} {start : ℕ} {c : Char}
    (h : target[start]? = some c) (hc : c ≠ '-') (pos : ℕ) :
    matchesInteger target start pos = integerLoop ((target.take pos).drop start) 0 := by
  simp only [matchesInteger, if_neg (not_sign h hc)]

/-- The part of a target between two positions. -/
theorem segment (front text back : List Char) :
    ((front ++ (text ++ back)).take (front.length + text.length)).drop front.length = text := by
  rw [← List.append_assoc, ← List.length_append, List.take_left, List.drop_left]

/-- A decimal number between two positions matches. -/
theorem matchesDecimal_segment (front back : List Char) (h : IsDecimal text) :
    matchesDecimal (front ++ (text ++ back)) front.length (front.length + text.length) = true := by
  obtain ⟨c, rest, heq, hc⟩ := h.eq_cons
  have hhead : (front ++ (text ++ back))[front.length]? = some c := by
    simp [heq]
  rw [matchesDecimal_of_head hhead hc, segment]
  exact h.decimalLoop

/-- A separator inside the number does not. -/
theorem matchesDecimal_colon (front rest : List Char) (h : IsDecimal text) :
    matchesDecimal (front ++ (text ++ ':' :: rest)) front.length
      (front ++ (text ++ ':' :: rest)).length = false := by
  obtain ⟨c, tail, heq, hc⟩ := h.eq_cons
  have hhead : (front ++ (text ++ ':' :: rest))[front.length]? = some c := by
    simp [heq]
  rw [matchesDecimal_of_head hhead hc, List.take_length, List.drop_left]
  have hmem : ':' ∈ text ++ ':' :: rest := by simp
  exact decimalLoop_of_mem (by decide) (by decide) false 0 hmem

/-- An integer at the end of a target matches. -/
theorem matchesInteger_intText (front : List Char) (n : ℤ) :
    matchesInteger (front ++ intText n) front.length (front ++ intText n).length = true := by
  have hpos : 0 < (Nat.toDigits 10 n.natAbs).length := Nat.length_toDigits_pos
  have hdigits := integerLoop_of_all 0 (all_isDigit_toDigits n.natAbs)
  unfold intText
  split
  · have hsign : (front ++ '-' :: Nat.toDigits 10 n.natAbs)[front.length]? = some '-' := by simp
    have hdrop : (front ++ '-' :: Nat.toDigits 10 n.natAbs).drop (front.length + 1)
        = Nat.toDigits 10 n.natAbs := by
      rw [List.drop_append, List.drop_of_length_le (Nat.le_succ _)]
      simp
    simp only [matchesInteger, if_pos hsign, List.take_length, hdrop, hdigits]
    simpa using hpos
  · obtain ⟨c, rest, heq, -, hc⟩ := toDigits_eq_cons n.natAbs
    have hhead : (front ++ Nat.toDigits 10 n.natAbs)[front.length]? = some c := by
      simp [heq]
    rw [matchesInteger_of_head hhead hc, List.take_length, List.drop_left, hdigits]
    simpa using hpos

/-- The next separator behind a text that has none. -/
theorem findFrom_separator (front back : List Char) {c : Char} (hc : c ∉ text)
    (hpos : 0 < text.length) :
    findFrom (front ++ (text ++ c :: back)) [c] (front.length + 1)
      = some (front.length + text.length) := by
  unfold findFrom
  rw [List.find?_range_eq_some]
  refine ⟨?_, ?_, fun j hj => ?_⟩
  · have hdrop : (front ++ (text ++ c :: back)).drop (front.length + text.length) = c :: back := by
      rw [← List.append_assoc, ← List.length_append, List.drop_left]
    rw [hdrop]
    simp
    omega
  · rw [List.mem_range]
    simp
  · by_cases hlow : front.length + 1 ≤ j
    · have hget : (front ++ (text ++ c :: back)).drop j
          = text.drop (j - front.length) ++ c :: back := by
        rw [List.drop_append, List.drop_of_length_le (by omega), List.nil_append,
          List.drop_append_of_le_length (by omega)]
      obtain ⟨d, rest, hd⟩ : ∃ d rest, text.drop (j - front.length) = d :: rest :=
        List.exists_cons_of_length_pos (by rw [List.length_drop]; omega)
      have hne : d ≠ c := by
        rintro rfl
        exact hc (List.mem_of_mem_drop (hd ▸ List.mem_cons_self))
      rw [hget, hd]
      simp [hne]
    · simp [hlow]

/-! ## Entries with numbers -/

theorem matchSeparatorAt_exact (name rest : List Char) :
    matchSeparatorAt name.length .exact (name ++ ':' :: rest) (name ++ ':' :: rest).length [':']
      = some (name.length + 1) := by
  unfold matchSeparatorAt
  simp

/-- The separator behind a decimal number. -/
theorem matchSeparatorAt_decimal (front back : List Char) (h : IsDecimal text) :
    matchSeparatorAt front.length .decimal (front ++ (text ++ ':' :: back))
        (front ++ (text ++ ':' :: back)).length [':']
      = some (front.length + text.length + 1) := by
  have hcolon : ':' ∉ text := h.not_mem (by decide) (by decide)
  have hfind := findFrom_separator front back hcolon h.length_pos
  have hmatch := matchesDecimal_segment front (':' :: back) h
  unfold matchSeparatorAt
  simp [hfind, hmatch]

/-- A target that starts with the name, its first separator and enough characters is
decided by the loop over the separators. -/
theorem matchesTarget_eq (e : PatternEntry) (hne : e.separators ≠ []) (name rest : List Char)
    (hlen : e.slength ≤ rest.length + 1) :
    e.matchesTarget name (name ++ ':' :: rest)
      = matchRest (name ++ ':' :: rest) (name ++ ':' :: rest).length
          (matchSeparators (name ++ ':' :: rest) (name ++ ':' :: rest).length e.separators
            name.length .exact) := by
  have hlonger : name.length ≠ (name ++ ':' :: rest).length := by simp
  have henough : ¬ (name ++ ':' :: rest).length < name.length + e.slength := by
    rw [List.length_append, List.length_cons]
    omega
  have hname : ¬ (name ++ ':' :: rest).take name.length ≠ name := by simp
  unfold PatternEntry.matchesTarget
  simp only [if_neg hne, if_neg hlonger, if_neg henough, if_neg hname]

/-- An entry that asks for a decimal number does not match one with an integer behind it. -/
theorem matchesTarget_number (e : PatternEntry) (hseparators : e.separators = [([':'], .decimal)])
    (hslength : e.slength = 2) (name rest : List Char) (h : IsDecimal text) :
    e.matchesTarget name (name ++ ':' :: (text ++ ':' :: rest)) = false := by
  have hcolon := matchesDecimal_colon (name ++ [':']) rest h
  rw [List.append_assoc, List.singleton_append, List.length_append, List.length_singleton] at hcolon
  rw [matchesTarget_eq e (by rw [hseparators]; simp) name _ (by rw [hslength]; simp; omega),
    hseparators, matchSeparators, matchSeparatorAt_exact]
  simp only [matchSeparators, matchRest, hcolon]
  simp

/-- An entry that asks for a decimal number and an integer matches them. -/
theorem matchesTarget_numbers (e : PatternEntry)
    (hseparators : e.separators = [([':'], .decimal), ([':'], .integer)]) (hslength : e.slength = 4)
    (name : List Char) (h : IsDecimal text) (n : ℤ) :
    e.matchesTarget name (name ++ ':' :: (text ++ ':' :: intText n)) = true := by
  have hint := matchesInteger_intText (name ++ ':' :: (text ++ [':'])) n
  have hdecimal := matchSeparatorAt_decimal (name ++ [':']) (intText n) h
  have htext := h.length_pos
  have hintText := List.length_pos_iff.2 (intText_ne_nil n)
  rw [List.append_assoc, List.singleton_append, List.length_append, List.length_singleton]
    at hdecimal
  have hfront : name ++ ':' :: (text ++ [':']) ++ intText n
      = name ++ ':' :: (text ++ ':' :: intText n) := by simp
  have hlength : (name ++ ':' :: (text ++ [':'])).length = name.length + 1 + text.length + 1 := by
    simp
    omega
  rw [hfront, hlength] at hint
  rw [matchesTarget_eq e (by rw [hseparators]; simp) name _ (by rw [hslength]; simp; omega),
    hseparators, matchSeparators, matchSeparatorAt_exact]
  simp only [matchSeparators, hdecimal, matchRest, hint]
  simp
  omega

end PackedFilters.Config
