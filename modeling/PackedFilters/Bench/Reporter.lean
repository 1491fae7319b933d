import PackedFilters.Bench.Stats
import PackedFilters.Lib.DecimalText
import PackedFilters.Lib.Regex

/-!
# The reporter

`parse_log` of `benchmarks/reporter.py`: it searches every line of a log for the result of a
benchmark, with one regular expression for RocksDB, whose lines print operations per second,
and one for LevelDB, whose lines do not, so that they are computed from the latency.

The expressions are run by the backtracking matcher of `Lib.Regex`.  A line that an engine
prints is cut into the pieces of the expression, and each piece takes its own part of the line
at the first try (`Regex.First`), so that no backtracking decides what is captured.  What
stands behind the semicolon is a rate of bytes, a message, both or neither; whatever it is,
the groups of the rate and of the found keys hold numbers (`RateGroups`, `FoundGroups`), so
`float` and `int` do not fail.  A line of LevelDB lacks "ops/sec", which the expression for
RocksDB cannot do without, and the lines a message adds lack "micros/op", which both need.

* `parseLine_report`, `parseLine_reportRocksDb` — the operations per second that are read
  from a line of LevelDB and of RocksDB, whatever rate and message stand behind them;
* `parseLog_report`, `parseLog_reportRocksDb` — the same for a log with this line.
-/

namespace PackedFilters.Bench

open DecimalText

/-! ## The regular expressions -/

/-- `\w`; an integer is a run of digits. -/
def isWord : LogChar → Bool
  | .char c => isWordChar c
  | .number x => decide (x.den = 1)

/-- `\s`, in ASCII (Python also takes the blanks of other scripts). -/
def isSpace : LogChar → Bool
  | .char c =>
    decide (c = ' ') || decide (9 ≤ c.toNat ∧ c.toNat ≤ 13) ||
      decide (28 ≤ c.toNat ∧ c.toNat ≤ 31)
  | .number _ => false

/-- `\d`, in ASCII (Python also takes the digits of other scripts); an integer is a run of
digits. -/
def isDigit : LogChar → Bool
  | .char c => c.isDigit
  | .number x => decide (x.den = 1)

/-- `[\d\.]`; every number is a run of digits and points. -/
def isDigitOrPoint : LogChar → Bool
  | .char c => c.isDigit || decide (c = '.')
  | .number _ => true

def word (s : String) : Regex LogChar := .text (chars s.toList)

/-- The rate of bytes, `(?:\s*([\d\.]+)\s*MB/s)?`, as group `i`. -/
def rateRegex (i : ℕ) : Regex LogChar :=
  .optional (.seq (.many isSpace 0) (.seq (.group i (.many isDigitOrPoint 1))
    (.seq (.many isSpace 0) (word "MB/s"))))

/-- The found keys, `(?:\s*\((\d+)\s+of\s+(\d+)\s+found\))?`, as groups `i` and `i + 1`. -/
def foundRegex (i : ℕ) : Regex LogChar :=
  .optional (.seq (.many isSpace 0) (.seq (word "(") (.seq (.group i (.many isDigit 1))
    (.seq (.many isSpace 1) (.seq (word "of") (.seq (.many isSpace 1)
      (.seq (.group (i + 1) (.many isDigit 1)) (.seq (.many isSpace 1)
        (.seq (word "found") (word ")"))))))))))

/-- The end of both: the semicolon, the rate and the found keys. -/
def endRegex (i : ℕ) : Regex LogChar :=
  .seq (.optional (word ";")) (.seq (rateRegex i) (foundRegex (i + 1)))

/-- The start of both, `(\w+)\s*:\s*([\d\.]+)\s*micros/op`. -/
def startRegex (r : Regex LogChar) : Regex LogChar :=
  .seq (.group 1 (.many isWord 1)) (.seq (.many isSpace 0) (.seq (word ":")
    (.seq (.many isSpace 0) (.seq (.group 2 (.many isDigitOrPoint 1))
      (.seq (.many isSpace 0) (.seq (word "micros/op") r))))))

/-- The expression `p_rocks`: the line of RocksDB, with operations per second, seconds and
operations. -/
def pRocks : Regex LogChar :=
  startRegex (.seq (.many isSpace 1) (.seq (.group 3 (.many isDigitOrPoint 1))
    (.seq (.many isSpace 0) (.seq (word "ops/sec") (.seq (.many isSpace 1)
      (.seq (.many isDigitOrPoint 1) (.seq (.many isSpace 0) (.seq (word "seconds")
        (.seq (.many isSpace 1) (.seq (.many isDigit 1) (.seq (.many isSpace 1)
          (.seq (word "operations") (endRegex 4)))))))))))))

/-- The expression `p_level`: the line of LevelDB, with the latency only. -/
def pLevel : Regex LogChar := startRegex (endRegex 3)

/-! ## Numbers -/

/-- How the reporter fails on a line that matched. -/
inductive ReportError where
  /-- `ValueError` of `float` or `int`. -/
  | valueError

/-- A text without numbers in one piece. -/
def charsOf : List LogChar → Option (List Char)
  | [] => some []
  | .char c :: rest => (charsOf rest).map (c :: ·)
  | .number _ :: _ => none

def orValueError {α : Type} : Option α → Except ReportError α
  | some x => .ok x
  | none => .error .valueError

/-- `float` of digits and points. -/
def float : List LogChar → Except ReportError ℚ
  | [.number x] => .ok x
  | text => orValueError ((charsOf text).bind readUnsigned)

/-- The function `int` on a group of digits. -/
def int : List LogChar → Except ReportError ℕ
  | [.number x] => .ok ⌊x⌋₊
  | text => orValueError ((charsOf text).bind readNat)

/-- `round`: to the nearest, and to the even one of two. -/
def roundHalfEven (x : ℚ) : ℕ :=
  let q := ⌊x⌋₊
  if x - q < 1 / 2 then q
  else if 1 / 2 < x - q then q + 1
  else if Even q then q
  else q + 1

/-! ## `parse_log` -/

/-- The dictionary of a result. -/
structure LogResult where
  microsOp : ℚ
  opsSec : ℕ
  mbS : Option ℚ
  found : Option ℕ
  total : Option ℕ

/-- A group that takes part in every match. -/
def captured (groups : List (ℕ × List LogChar)) (i : ℕ) : List LogChar :=
  (groups.lookup i).getD []

/-- What a group that may be missing is read as. -/
def readGroup {α : Type} (read : List LogChar → Except ReportError α) :
    Option (List LogChar) → Except ReportError (Option α)
  | some text => do return some (← read text)
  | none => .ok none

/-- The dictionary, with the groups of the rate and the found keys. -/
def logResult (groups : List (ℕ × List LogChar)) (i : ℕ) (microsOp : ℚ) (opsSec : ℕ) :
    Except ReportError LogResult := do
  let mbS ← readGroup float ((groups.lookup i).filter (· ≠ []))
  let found ← readGroup int (groups.lookup (i + 1))
  let total ← readGroup int (groups.lookup (i + 2))
  return ⟨microsOp, opsSec, mbS, found, total⟩

/-- The body of the loop over the lines: the operation and its result. -/
def parseLine (line : List LogChar) : Except ReportError (Option (List LogChar × LogResult)) :=
  match pRocks.search line with
  | some groups => do
    let microsOp ← float (captured groups 2)
    let opsSec ← float (captured groups 3)
    let result ← logResult groups 4 microsOp ⌊opsSec⌋₊
    return some (captured groups 1, result)
  | none =>
    match pLevel.search line with
    | some groups => do
      let microsOp ← float (captured groups 2)
      let opsSec := if 0 < microsOp then roundHalfEven (1000000 / microsOp) else 0
      let result ← logResult groups 3 microsOp opsSec
      return some (captured groups 1, result)
    | none => .ok none

/-- The lines of a file, read so far; every end of a line is read as `\n`. -/
def splitLines : List LogChar → List LogChar → List (List LogChar)
  | [], line => if line = [] then [] else [line]
  | c :: rest, line =>
    if c = .char '\n' then (line ++ [c]) :: splitLines rest []
    else if c = .char '\r' then
      -- before `\n` it is part of the same end
      if rest.head? = some (.char '\n') then splitLines rest line
      else (line ++ [.char '\n']) :: splitLines rest []
    else splitLines rest (line ++ [c])

/-- `results[op] = ...`: a key that is there keeps its place. -/
def setResult (results : List (List LogChar × LogResult)) (op : List LogChar)
    (result : LogResult) : List (List LogChar × LogResult) :=
  if (results.lookup op).isSome then
    results.map fun entry => if entry.1 = op then (op, result) else entry
  else results ++ [(op, result)]

/-- The loop over the lines. -/
def parseLines : List (List LogChar) → List (List LogChar × LogResult) →
    Except ReportError (List (List LogChar × LogResult))
  | [], results => .ok results
  | line :: lines, results => do
    match ← parseLine line with
    | some (op, result) => parseLines lines (setResult results op result)
    | none => parseLines lines results

/-- The method `lower`: names are compared in lower case. -/
def lower (text : List LogChar) : List LogChar :=
  text.map fun c => match c with
    | .char c => .char c.toLower
    | .number x => .number x

/-- The result of the operation, or of the first one that has its name in its own. -/
def findResult (results : List (List LogChar × LogResult)) (targetOp : List Char) :
    Option LogResult :=
  match results.lookup (chars targetOp) with
  | some result => some result
  | none =>
    (results.find? fun entry => decide (lower (chars targetOp) <:+: lower entry.1)).map Prod.snd

/-- `parse_log` on the content of a log, if there is one. -/
def parseLog (log : Option (List LogChar)) (targetOp : List Char) :
    Except ReportError (Option LogResult) :=
  match log with
  | none => .ok none
  | some content => do
    let results ← parseLines (splitLines content []) []
    return findResult results targetOp

/-! ## Rounding -/

/-- Where a number is rounded to a given number or above. -/
theorem le_roundHalfEven_iff {x : ℚ} (hx : 0 ≤ x) (n : ℕ) :
    n ≤ roundHalfEven x ↔ (2 * n - 1 : ℚ) < 2 * x ∨ (2 * n - 1 : ℚ) = 2 * x ∧ Even n := by
  have hlow : (⌊x⌋₊ : ℚ) ≤ x := Nat.floor_le hx
  have hhigh : x < ⌊x⌋₊ + 1 := Nat.lt_floor_add_one x
  unfold roundHalfEven
  generalize ⌊x⌋₊ = q at hlow hhigh ⊢
  -- the number is at most the floor, one more, or beyond
  rcases lt_trichotomy n (q + 1) with hn | rfl | hn
  · have hle : (n : ℚ) ≤ q := by exact_mod_cast Nat.lt_succ_iff.1 hn
    have hle' : n ≤ q := Nat.lt_succ_iff.1 hn
    refine iff_of_true ?_ (Or.inl (by linarith))
    simp only
    split_ifs <;> omega
  · have hcast : (2 * ((q + 1 : ℕ) : ℚ) - 1) = 2 * q + 1 := by push_cast; ring
    rw [hcast]
    simp only
    split_ifs with h1 h2 h3
    · refine iff_of_false (by omega) ?_
      rintro (h | ⟨h, -⟩) <;> linarith
    · exact iff_of_true le_rfl (Or.inl (by linarith))
    · refine iff_of_false (by omega) ?_
      rintro (h | ⟨-, h⟩)
      · linarith
      · exact (Nat.even_add_one.1 h) h3
    · exact iff_of_true le_rfl (Or.inr ⟨by linarith, Nat.even_add_one.2 h3⟩)
  · have hge : (q : ℚ) + 2 ≤ n := by exact_mod_cast hn
    refine iff_of_false ?_ ?_
    · simp only
      split_ifs <;> omega
    · rintro (h | ⟨h, -⟩) <;> linarith

/-- Where a number is rounded to a given number or below. -/
theorem roundHalfEven_le_iff {x : ℚ} (hx : 0 ≤ x) (n : ℕ) :
    roundHalfEven x ≤ n ↔ 2 * x < (2 * n + 1 : ℚ) ∨ 2 * x = (2 * n + 1 : ℚ) ∧ Even n := by
  rw [← Nat.lt_succ_iff, ← not_le, le_roundHalfEven_iff hx, Nat.succ_eq_add_one, Nat.even_add_one]
  have hcast : (2 * ((n + 1 : ℕ) : ℚ) - 1) = 2 * n + 1 := by push_cast; ring
  rw [hcast]
  constructor
  · intro h
    rw [not_or, not_lt, not_and, not_not] at h
    cases h.1.lt_or_eq with
    | inl hlt => exact Or.inl hlt
    | inr heq => exact Or.inr ⟨heq, h.2 heq.symm⟩
  · rintro (h | ⟨heq, heven⟩) (h' | ⟨heq', hodd⟩)
    · linarith
    · linarith
    · linarith
    · exact hodd heven

/-! ## The start of a line -/

theorem spaces_first {least n : ℕ} {rest : List LogChar} (hleast : least ≤ n)
    (hrest : ∀ c ∈ rest.head?, isSpace c = false) :
    (Regex.many isSpace least).First (blanks n ++ rest) ⟨[], rest⟩ := by
  have hall : (blanks n).all isSpace = true :=
    List.all_eq_true.2 fun c hc => by rw [List.eq_of_mem_replicate hc]; rfl
  have hlength : least ≤ (blanks n).length := by
    unfold blanks
    rwa [List.length_replicate]
  exact .many hall hrest hlength

theorem word_first (s : String) (rest : List LogChar) :
    (word s).First (chars s.toList ++ rest) ⟨[], rest⟩ := .text _ _

/-- A number is a repetition of its own. -/
theorem number_first {p : LogChar → Bool} {x : ℚ} {rest : List LogChar}
    (hx : p (.number x) = true) (hrest : ∀ c ∈ rest.head?, p c = false) :
    (Regex.many p 1).First ([.number x] ++ rest) ⟨[], rest⟩ := by
  have hall : [LogChar.number x].all p = true := by simp [hx]
  exact .many hall hrest le_rfl

theorem name_first {name : List Char} {rest : List LogChar} (hne : name ≠ [])
    (hword : name.all isWordChar = true) (hrest : ∀ c ∈ rest.head?, isWord c = false) :
    (Regex.group 1 (.many isWord 1)).First (chars name ++ rest) ⟨[(1, chars name)], rest⟩ := by
  have hall : (chars name).all isWord = true := by
    rw [chars, List.all_map]
    exact hword
  have hlength : 1 ≤ (chars name).length := by
    rw [chars, List.length_map]
    exact List.length_pos_iff.2 hne
  exact .group 1 (.many hall hrest hlength)

/-- The start of a line gives the name and the latency. -/
theorem startRegex_first {name : List Char} (hne : name ≠ []) (hword : name.all isWordChar = true)
    (m n : ℕ) (x : ℚ) {r : Regex LogChar} {rest : List LogChar} {a : Regex.Match LogChar}
    (h : r.First rest a) :
    (startRegex r).First
      (chars name ++ (blanks (m + 1) ++ (chars [':'] ++ (blanks (n + 1) ++ ([.number x] ++
        (blanks 1 ++ (chars "micros/op".toList ++ rest)))))))
      ⟨(1, chars name) :: (2, [.number x]) :: a.groups, a.rest⟩ := by
  have hmicros := (word_first "micros/op" rest).seq h
  have hspace1 := (spaces_first (Nat.zero_le 1) (by rintro c ⟨⟩; rfl)).seq hmicros
  have hnumber := (Regex.First.group 2 (number_first (p := isDigitOrPoint) (x := x) rfl
    (by rintro c ⟨⟩; rfl))).seq hspace1
  have hspace2 := (spaces_first (Nat.zero_le (n + 1)) (by rintro c ⟨⟩; rfl)).seq hnumber
  have hcolon := (word_first ":" _).seq hspace2
  have hspace3 := (spaces_first (Nat.zero_le (m + 1)) (by rintro c ⟨⟩; rfl)).seq hcolon
  exact (name_first hne hword (by rintro c ⟨⟩; rfl)).seq hspace3

/-! ## The end of a line -/

theorem isSpace_of_isDigitOrPoint (c : LogChar) (h : isDigitOrPoint c = true) :
    isSpace c = false := by
  cases c with
  | number x => rfl
  | char c =>
    unfold isDigitOrPoint at h
    rw [Bool.or_eq_true, decide_eq_true_eq] at h
    cases h with
    | inl hdigit =>
      rw [Char.isDigit, Bool.and_eq_true, decide_eq_true_eq, decide_eq_true_eq] at hdigit
      have hlow : 48 ≤ c.toNat := UInt32.le_iff_toNat_le.1 hdigit.1
      have hblank : c ≠ ' ' := by
        rintro rfl
        exact absurd hlow (by decide)
      unfold isSpace
      simp [hblank]
      omega
    | inr hpoint =>
      rw [hpoint]
      rfl

variable {s : Stats}

/-- A rate of bytes is found where it was printed. -/
theorem rate_printed (hbytes : 0 < s.bytes) (i : ℕ) :
    (rateRegex i).First s.lineEnd
      ⟨[(i, [.number (s.bytes / 1048576 / s.elapsed)])], chars s.messageEnd⟩ := by
  obtain ⟨n, hline⟩ := s.lineEnd_of_bytes.2 hbytes
  have hword := word_first "MB/s" (chars s.messageEnd)
  have hspace := (spaces_first (Nat.zero_le 1) (by rintro c ⟨⟩; rfl)).seq hword
  have hnumber := (Regex.First.group i (number_first (p := isDigitOrPoint)
    (x := s.bytes / 1048576 / s.elapsed) rfl (by rintro c ⟨⟩; rfl))).seq hspace
  rw [hline]
  exact ((spaces_first (Nat.zero_le (n + 1)) (by rintro c ⟨⟩; rfl)).seq hnumber).optional

theorem not_isSpace_of_remark {c : Char} (h : c = '(' ∨ c.isAlpha = true) :
    isSpace (.char c) = false ∧ isDigitOrPoint (.char c) = false := by
  cases h with
  | inl hparen =>
    rw [hparen]
    exact ⟨rfl, rfl⟩
  | inr halpha =>
    have hrange : 65 ≤ c.toNat := by
      simp only [Char.isAlpha, Char.isUpper, Char.isLower, Bool.or_eq_true, Bool.and_eq_true,
        decide_eq_true_eq] at halpha
      cases halpha with
      | inl hupper => exact UInt32.le_iff_toNat_le.1 hupper.1
      | inr hlower => exact le_trans (by decide) (UInt32.le_iff_toNat_le.1 hlower.1)
    have hblank : c ≠ ' ' := by
      rintro rfl
      exact absurd hrange (by decide)
    have hpoint : c ≠ '.' := by
      rintro rfl
      exact absurd hrange (by decide)
    have hdigit : c.isDigit = false := by
      rw [Char.isDigit, Bool.and_eq_false_iff, decide_eq_false_iff_not, decide_eq_false_iff_not]
      refine Or.inr fun hle => ?_
      have : c.toNat ≤ 57 := UInt32.le_iff_toNat_le.1 hle
      omega
    unfold isSpace isDigitOrPoint
    simp [hblank, hpoint, hdigit]
    omega

/-- A message is no rate. -/
theorem rate_missing (hplain : PlainMessage s.message) (hbytes : ¬ 0 < s.bytes) (i : ℕ) :
    (rateRegex i).First s.lineEnd ⟨[], chars s.messageEnd⟩ := by
  rw [s.lineEnd_of_bytes.1 hbytes]
  apply Regex.First.skip
  apply Regex.results_many_seq_eq_nil isSpace_of_isDigitOrPoint
  unfold Stats.messageEnd
  cases hmessage : s.message with
  | nil => rintro c ⟨⟩
  | cons d rest =>
    obtain ⟨hspace, hdigit⟩ := not_isSpace_of_remark (hplain.remark d (by rw [hmessage]; rfl))
    have hblank : isSpace (.char ' ') = true := rfl
    have hdrop : (chars ((if d :: rest = [] then [] else ' ' :: d :: rest) ++ ['\n'])).dropWhile
        isSpace = .char d :: chars (rest ++ ['\n']) := by
      rw [if_neg (List.cons_ne_nil d rest)]
      simp [chars, hblank, hspace]
    rw [hdrop]
    rintro c ⟨⟩
    exact hdigit

/-- What the group of the rate may have captured. -/
def RateGroups (i : ℕ) (groups : List (ℕ × List LogChar)) : Prop :=
  groups = [] ∨ ∃ x, groups = [(i, [.number x])]

/-- What the groups of the found keys may have captured. -/
def FoundGroups (i : ℕ) (groups : List (ℕ × List LogChar)) : Prop :=
  groups = [] ∨ ∃ found total : List Char,
    found ≠ [] ∧ found.all Char.isDigit = true ∧ total ≠ [] ∧ total.all Char.isDigit = true ∧
      groups = [(i, chars found), (i + 1, chars total)]

/-- A repetition of digits in plain text. -/
theorem digits_of_mem_results {i : ℕ} {text : List Char} {l : List LogChar}
    {a : Regex.Match LogChar} (hl : l <:+ chars text)
    (h : a ∈ (Regex.group i (.many isDigit 1)).results l) :
    ∃ digits : List Char,
      digits ≠ [] ∧ digits.all Char.isDigit = true ∧ a.groups = [(i, chars digits)] := by
  obtain ⟨w, heq, hall, hlength, hgroups⟩ := Regex.mem_results_group_many h
  have hinfix : w <:+: chars text :=
    (heq ▸ List.prefix_append w a.rest).isInfix.trans hl.isInfix
  obtain ⟨digits, -, rfl⟩ := List.infix_map_iff.1 hinfix
  refine ⟨digits, ?_, ?_, hgroups⟩
  · rintro rfl
    exact absurd hlength (Nat.not_succ_le_zero 0)
  · rw [List.all_map] at hall
    exact hall

/-- Whatever the message is, the found keys are digits. -/
theorem found_first (i : ℕ) (text : List Char) :
    ∃ a, (foundRegex i).First (chars text) a ∧ FoundGroups i a.groups := by
  obtain ⟨a, hfirst, hmatch⟩ := Regex.exists_first_optional _ (chars text)
  refine ⟨a, hfirst, ?_⟩
  cases hmatch with
  | inr heq => exact Or.inl (by rw [heq])
  | inl h =>
    obtain ⟨l1, hl1, b1, h1, e1⟩ := Regex.mem_results_many_seq h
    obtain ⟨l2, hl2, b2, h2, e2⟩ := Regex.mem_results_text_seq h1
    obtain ⟨a3, hfound, b3, h3, rfl⟩ := Regex.mem_results_seq h2
    obtain ⟨l4, hl4, b4, h4, e4⟩ := Regex.mem_results_many_seq h3
    obtain ⟨l5, hl5, b5, h5, e5⟩ := Regex.mem_results_text_seq h4
    obtain ⟨l6, hl6, b6, h6, e6⟩ := Regex.mem_results_many_seq h5
    obtain ⟨a7, htotal, b7, h7, rfl⟩ := Regex.mem_results_seq h6
    obtain ⟨l8, -, b8, h8, e8⟩ := Regex.mem_results_many_seq h7
    obtain ⟨l9, -, b9, h9, e9⟩ := Regex.mem_results_text_seq h8
    have hl3 := Regex.suffix_of_mem_results hfound
    obtain ⟨found, hne, hall, hgroups⟩ := digits_of_mem_results (hl2.trans hl1) hfound
    obtain ⟨total, hne', hall', hgroups'⟩ := digits_of_mem_results
      (hl6.trans (hl5.trans (hl4.trans (hl3.trans (hl2.trans hl1))))) htotal
    refine Or.inr ⟨found, total, hne, hall, hne', hall', ?_⟩
    rw [e1, e2, hgroups, e4, e5, e6, hgroups', e8, e9, (Regex.mem_results_text h9).2]
    rfl

/-- The end of a line captures at most a rate and the found keys. -/
theorem endRegex_first (hplain : PlainMessage s.message) (i : ℕ) :
    ∃ a, (endRegex i).First (chars [';'] ++ s.lineEnd) a ∧
      ∃ rate found, RateGroups i rate ∧ FoundGroups (i + 1) found ∧ a.groups = rate ++ found := by
  obtain ⟨b, hb, hfound⟩ := found_first (i + 1) s.messageEnd
  have hsemicolon := (word_first ";" s.lineEnd).optional
  by_cases hbytes : 0 < s.bytes
  · exact ⟨_, hsemicolon.seq ((rate_printed hbytes i).seq hb), _, _, Or.inr ⟨_, rfl⟩, hfound, rfl⟩
  · exact ⟨_, hsemicolon.seq ((rate_missing hplain hbytes i).seq hb), _, _, Or.inl rfl, hfound,
      rfl⟩

/-! ## Reading the groups -/

theorem bind_eq_of_ok {α β : Type} {r : Except ReportError α} {x : α} (h : r = .ok x)
    (f : α → Except ReportError β) : (r >>= f) = f x := by
  rw [h]
  rfl

theorem charsOf_chars : ∀ text : List Char, charsOf (chars text) = some text := by
  intro text
  induction text with
  | nil => rfl
  | cons c text ih =>
    show (charsOf (chars text)).map (c :: ·) = some (c :: text)
    rw [ih]
    rfl

/-- Digits are a number. -/
theorem int_chars {text : List Char} (hne : text ≠ []) (hall : text.all Char.isDigit = true) :
    int (chars text) = .ok (Nat.ofDigitChars 10 text 0) := by
  have hread : (charsOf (chars text)).bind readNat = some (Nat.ofDigitChars 10 text 0) := by
    rw [charsOf_chars, Option.bind_some, readNat, if_pos ⟨hne, hall⟩]
  unfold int
  split
  · rename_i heq
    cases text with
    | nil => exact absurd rfl hne
    | cons c text => cases heq
  · rw [hread]
    rfl

/-- The digits of a group that takes part, or nothing, are read as an integer. -/
theorem readGroup_int {group : Option (List LogChar)}
    (h : ∀ text, group = some text →
      ∃ digits : List Char, digits ≠ [] ∧ digits.all Char.isDigit = true ∧ text = chars digits) :
    ∃ value, readGroup int group = .ok value := by
  cases group with
  | none => exact ⟨none, rfl⟩
  | some text =>
    obtain ⟨digits, hne, hall, rfl⟩ := h text rfl
    refine ⟨some (Nat.ofDigitChars 10 digits 0), ?_⟩
    rw [readGroup, int_chars hne hall]
    rfl

theorem RateGroups.lookup_of_lt {i j : ℕ} {rate : List (ℕ × List LogChar)} (h : RateGroups i rate)
    (hj : i < j) : rate.lookup j = none := by
  cases h with
  | inl hnil => rw [hnil]; rfl
  | inr hrate =>
    obtain ⟨x, rfl⟩ := hrate
    simp [hj.ne']

theorem FoundGroups.lookup {i : ℕ} {found : List (ℕ × List LogChar)} (h : FoundGroups i found)
    (j : ℕ) (text : List LogChar) (htext : found.lookup j = some text) :
    i ≤ j ∧ ∃ digits : List Char,
      digits ≠ [] ∧ digits.all Char.isDigit = true ∧ text = chars digits := by
  rcases h with rfl | ⟨a, b, ha, ha', hb, hb', rfl⟩
  · cases htext
  · rw [List.lookup_cons] at htext
    split at htext
    · rename_i hj
      cases htext
      exact ⟨(beq_iff_eq.1 hj).ge, a, ha, ha', rfl⟩
    · rw [List.lookup_cons] at htext
      split at htext
      · rename_i hj
        cases htext
        exact ⟨by rw [beq_iff_eq.1 hj]; exact Nat.le_succ i, b, hb, hb', rfl⟩
      · cases htext

/-- No `ValueError` comes from the end of a line. -/
theorem logResult_eq {start rate found : List (ℕ × List LogChar)} {i : ℕ}
    (hbelow : ∀ group ∈ start, group.1 < i) (hrate : RateGroups i rate)
    (hfound : FoundGroups (i + 1) found) (microsOp : ℚ) (opsSec : ℕ) :
    ∃ result, logResult (start ++ (rate ++ found)) i microsOp opsSec = .ok result ∧
      result.opsSec = opsSec := by
  have hstart (j : ℕ) (hj : i ≤ j) : start.lookup j = none := by
    rw [List.lookup_eq_none_iff]
    intro group hgroup
    have hlt := hbelow group hgroup
    simp
    omega
  have hlookup (j : ℕ) (hj : i < j) : (start ++ (rate ++ found)).lookup j = found.lookup j := by
    rw [List.lookup_append, hstart j hj.le, Option.none_or, List.lookup_append,
      hrate.lookup_of_lt hj, Option.none_or]
  have hrateValue : ∃ value,
      readGroup float (((start ++ (rate ++ found)).lookup i).filter (· ≠ [])) = .ok value := by
    rw [List.lookup_append, hstart i le_rfl, Option.none_or]
    rcases hrate with rfl | ⟨x, rfl⟩
    · have hnone : found.lookup i = none :=
        Option.eq_none_iff_forall_ne_some.2 fun text htext =>
          absurd (hfound.lookup i text htext).1 (Nat.not_succ_le_self i)
      rw [List.nil_append, hnone]
      exact ⟨none, rfl⟩
    · rw [List.singleton_append, List.lookup_cons_self]
      exact ⟨some x, rfl⟩
  obtain ⟨mbS, hmbS⟩ := hrateValue
  obtain ⟨foundKeys, hfoundKeys⟩ :=
    readGroup_int fun text htext => (hfound.lookup (i + 1) text htext).2
  obtain ⟨total, htotal⟩ := readGroup_int fun text htext => (hfound.lookup (i + 2) text htext).2
  refine ⟨⟨microsOp, opsSec, mbS, foundKeys, total⟩, ?_, rfl⟩
  unfold logResult
  rw [hmbS, hlookup (i + 1) (by omega), hfoundKeys, hlookup (i + 2) (by omega), htotal]
  rfl

/-! ## Results of a line -/

variable {name : List Char}

/-- What is found in a line of RocksDB. -/
theorem search_reportRocksDb (hne : name ≠ []) (hword : name.all isWordChar = true)
    (hplain : PlainMessage s.message) :
    ∃ rate found, RateGroups 4 rate ∧ FoundGroups 5 found ∧
      pRocks.search (s.reportRocksDb name)
        = some ([(1, chars name), (2, [.number s.microsPerOp]),
            (3, [.number (⌊(s.reportedDone / s.elapsed : ℚ)⌋₊ : ℚ)])] ++ (rate ++ found)) := by
  obtain ⟨m, n, k, hline⟩ := s.reportRocksDb_eq name
  obtain ⟨a, hend, rate, found, hrate, hfound, hgroups⟩ := endRegex_first hplain 4
  have hoperations := (word_first "operations" _).seq hend
  have hspace1 := (spaces_first (le_refl 1) (by rintro c ⟨⟩; rfl)).seq hoperations
  have hdone := (number_first (p := isDigit) (x := s.reportedDone) (by simp [isDigit])
    (by rintro c ⟨⟩; rfl)).seq hspace1
  have hspace2 := (spaces_first (le_refl 1) (by rintro c ⟨⟩; rfl)).seq hdone
  have hseconds := (word_first "seconds" _).seq hspace2
  have hspace3 := (spaces_first (Nat.zero_le 1) (by rintro c ⟨⟩; rfl)).seq hseconds
  have helapsed := (number_first (p := isDigitOrPoint) (x := s.elapsed) rfl
    (by rintro c ⟨⟩; rfl)).seq hspace3
  have hspace4 := (spaces_first (Nat.le_add_left 1 k) (by rintro c ⟨⟩; rfl)).seq helapsed
  have hops := (word_first "ops/sec" _).seq hspace4
  have hspace5 := (spaces_first (Nat.zero_le 1) (by rintro c ⟨⟩; rfl)).seq hops
  have hthroughput := (Regex.First.group 3 (number_first (p := isDigitOrPoint)
    (x := (⌊(s.reportedDone / s.elapsed : ℚ)⌋₊ : ℚ)) rfl (by rintro c ⟨⟩; rfl))).seq hspace5
  have hspace6 := (spaces_first (le_refl 1) (by rintro c ⟨⟩; rfl)).seq hthroughput
  refine ⟨rate, found, hrate, hfound, ?_⟩
  rw [hline, ← hgroups]
  exact (startRegex_first hne hword m n s.microsPerOp hspace6).search

/-- A line of RocksDB gives the operations per second that it prints. -/
theorem parseLine_reportRocksDb (hne : name ≠ []) (hword : name.all isWordChar = true)
    (hplain : PlainMessage s.message) :
    ∃ result, parseLine (s.reportRocksDb name) = .ok (some (chars name, result)) ∧
      result.opsSec = ⌊(s.reportedDone / s.elapsed : ℚ)⌋₊ := by
  obtain ⟨rate, found, hrate, hfound, hsearch⟩ := search_reportRocksDb hne hword hplain
  have hbelow : ∀ group ∈ [(1, chars name), (2, [.number s.microsPerOp]),
      (3, [.number (⌊(s.reportedDone / s.elapsed : ℚ)⌋₊ : ℚ)])], group.1 < 4 := by simp
  obtain ⟨result, hresult, hopsSec⟩ := logResult_eq hbelow hrate hfound s.microsPerOp
    ⌊((⌊(s.reportedDone / s.elapsed : ℚ)⌋₊ : ℕ) : ℚ)⌋₊
  rw [Nat.floor_natCast] at hopsSec
  refine ⟨result, ?_, hopsSec⟩
  unfold parseLine
  rw [hsearch]
  exact bind_eq_of_ok hresult _

/-- A text without "ops/sec". -/
def LacksRate (l : List LogChar) : Prop := ¬ chars "ops/sec".toList <:+: l

theorem lacksRate_nil : LacksRate [] := by
  unfold LacksRate
  decide

variable {l l' : List LogChar}

/-- A character that is not in it keeps two texts apart. -/
theorem LacksRate.append {c : LogChar} (hc : c ∉ chars "ops/sec".toList) (hl : LacksRate l)
    (hl' : LacksRate l') : LacksRate (l ++ ([c] ++ l')) := by
  refine not_infix_append_separators (List.cons_ne_nil c []) (fun d hd => ?_) hl hl'
  rw [List.mem_singleton.1 hd]
  exact hc

theorem LacksRate.append_blanks (n : ℕ) (hl : LacksRate l) (hl' : LacksRate l') :
    LacksRate (l ++ (blanks (n + 1) ++ l')) := by
  refine not_infix_append_separators (List.cons_ne_nil _ _) (fun c hc => ?_) hl hl'
  rw [List.eq_of_mem_replicate hc]
  decide

theorem lacksRate_number (x : ℚ) (hl : LacksRate l) : LacksRate ([.number x] ++ l) :=
  lacksRate_nil.append (by simp [chars]) hl

theorem lacksRate_blanks (n : ℕ) (hl : LacksRate l) : LacksRate (blanks (n + 1) ++ l) :=
  lacksRate_nil.append_blanks n hl

theorem LacksRate.append_messageEnd (hplain : PlainMessage s.message) (hl : LacksRate l) :
    LacksRate (l ++ chars s.messageEnd) := by
  have hnewline {l : List LogChar} (hl : LacksRate l) : LacksRate (l ++ ([.char '\n'] ++ [])) :=
    hl.append (by decide) lacksRate_nil
  have hmessage : LacksRate (chars s.message) := by
    intro h
    obtain ⟨w, hw, heq⟩ := List.infix_map_iff.1 h
    have hinj : Function.Injective LogChar.char := fun _ _ h => LogChar.char.inj h
    rw [← List.map_injective_iff.2 hinj heq] at hw
    exact hplain.noRate hw
  unfold Stats.messageEnd
  split
  · exact hnewline hl
  · have hblank := hl.append_blanks 0 (hnewline hmessage)
    simpa [chars, blanks] using hblank

theorem lacksRate_lineEnd (hplain : PlainMessage s.message) : LacksRate s.lineEnd := by
  by_cases hbytes : 0 < s.bytes
  · obtain ⟨n, hline⟩ := s.lineEnd_of_bytes.2 hbytes
    have hmb : LacksRate (chars "MB/s".toList) := by
      unfold LacksRate
      decide
    rw [hline]
    exact lacksRate_blanks n (lacksRate_number _ (lacksRate_blanks 0 (hmb.append_messageEnd hplain)))
  · rw [s.lineEnd_of_bytes.1 hbytes]
    exact lacksRate_nil.append_messageEnd hplain

/-- "ops/sec" is in no line of LevelDB. -/
theorem lacksRate_report (hword : name.all isWordChar = true) (hplain : PlainMessage s.message) :
    LacksRate (s.report name) := by
  obtain ⟨m, n, hline⟩ := s.report_eq name
  have hname : LacksRate (chars name) := by
    intro h
    have hslash : LogChar.char '/' ∈ chars name := h.subset (by decide)
    obtain ⟨c, hc, heq⟩ := List.mem_map.1 hslash
    cases heq
    exact absurd (List.all_eq_true.1 hword '/' hc) (by decide)
  have hmicros : LacksRate (chars "micros/op".toList) := by
    unfold LacksRate
    decide
  have hsemicolon := hmicros.append (c := .char ';') (by decide) (lacksRate_lineEnd hplain)
  have hnumber := lacksRate_blanks n (lacksRate_number s.microsPerOp (lacksRate_blanks 0 hsemicolon))
  have hcolon := lacksRate_nil.append (c := .char ':') (by decide) hnumber
  rw [hline]
  exact hname.append_blanks m hcolon

/-- What is found in a line of LevelDB. -/
theorem search_report (hne : name ≠ []) (hword : name.all isWordChar = true)
    (hplain : PlainMessage s.message) :
    pRocks.search (s.report name) = none ∧
      ∃ rate found, RateGroups 3 rate ∧ FoundGroups 4 found ∧
        pLevel.search (s.report name)
          = some ([(1, chars name), (2, [.number s.microsPerOp])] ++ (rate ++ found)) := by
  obtain ⟨m, n, hline⟩ := s.report_eq name
  obtain ⟨a, hend, rate, found, hrate, hfound, hgroups⟩ := endRegex_first hplain 3
  refine ⟨Regex.search_eq_none (by decide) (lacksRate_report hword hplain), rate, found, hrate,
    hfound, ?_⟩
  rw [hline, ← hgroups]
  exact (startRegex_first hne hword m n s.microsPerOp hend).search

/-- A line of LevelDB gives the operations per second of its latency. -/
theorem parseLine_report (hne : name ≠ []) (hword : name.all isWordChar = true)
    (hplain : PlainMessage s.message) :
    ∃ result, parseLine (s.report name) = .ok (some (chars name, result)) ∧
      result.opsSec = if 0 < s.microsPerOp then roundHalfEven (1000000 / s.microsPerOp) else 0 := by
  obtain ⟨hrocks, rate, found, hrate, hfound, hlevel⟩ := search_report hne hword hplain
  have hbelow : ∀ group ∈ [(1, chars name), (2, [LogChar.number s.microsPerOp])], group.1 < 3 := by
    simp
  obtain ⟨result, hresult, hopsSec⟩ := logResult_eq hbelow hrate hfound s.microsPerOp
    (if 0 < s.microsPerOp then roundHalfEven (1000000 / s.microsPerOp) else 0)
  refine ⟨result, ?_, hopsSec⟩
  unfold parseLine
  rw [hrocks, hlevel]
  exact bind_eq_of_ok hresult _

/-! ## Lines -/

/-- A text of one line is the first line of what follows it. -/
theorem splitLines_oneLine (rest : List LogChar) : ∀ {l line : List LogChar}, OneLine l →
    splitLines (l ++ (chars ['\n'] ++ rest)) line
      = (line ++ l ++ chars ['\n']) :: splitLines rest [] := by
  intro l
  induction l with
  | nil =>
    intro line _
    simp [chars, splitLines]
  | cons c l ih =>
    intro line h
    unfold OneLine at h
    rw [List.all_cons, Bool.and_eq_true, Bool.and_eq_true, decide_eq_true_eq, decide_eq_true_eq]
      at h
    rw [List.cons_append, splitLines, if_neg h.1.1, if_neg h.1.2, ih h.2]
    simp

/-- Without a carriage return the lines of a text make up the text. -/
theorem flatten_splitLines : ∀ {l line : List LogChar}, .char '\r' ∉ l →
    (splitLines l line).flatten = line ++ l := by
  intro l
  induction l with
  | nil =>
    intro line _
    rw [splitLines]
    split
    · rename_i hnil
      rw [hnil]
      rfl
    · simp
  | cons c l ih =>
    intro line h
    have hc : c ≠ .char '\r' := fun heq => h (heq ▸ List.mem_cons_self)
    have hrest : LogChar.char '\r' ∉ l := fun hmem => h (List.mem_cons_of_mem _ hmem)
    rw [splitLines, if_neg hc]
    split
    · rw [List.flatten_cons, ih hrest]
      simp
    · rw [ih hrest]
      simp

theorem OneLine.append {l l' : List LogChar} (h : OneLine l) (h' : OneLine l') :
    OneLine (l ++ l') := by
  unfold OneLine at h h' ⊢
  rw [List.all_append, h, h', Bool.and_self]

theorem oneLine_blanks (n : ℕ) : OneLine (blanks n) := by
  unfold OneLine blanks
  rw [List.all_eq_true]
  intro c hc
  rw [List.eq_of_mem_replicate hc]
  decide

theorem oneLine_number (x : ℚ) : OneLine [.number x] := by
  unfold OneLine
  simp

theorem oneLine_field (width decimals : ℕ) (x : ℚ) : OneLine (field width decimals x) := by
  obtain ⟨n, hfield⟩ := field_eq width decimals x
  rw [hfield]
  exact (oneLine_blanks n).append (oneLine_number x)

theorem oneLine_name (hword : name.all isWordChar = true) : OneLine (chars name) := by
  unfold OneLine chars
  rw [List.all_map, List.all_eq_true]
  intro c hc
  have hc := List.all_eq_true.1 hword c hc
  have hn : c ≠ '\n' := by
    rintro rfl
    exact absurd hc (by decide)
  have hr : c ≠ '\r' := by
    rintro rfl
    exact absurd hc (by decide)
  simp [hn, hr]

/-- A line without "micros/op" has no result. -/
theorem parseLine_none {line : List LogChar} (h : ¬ chars "micros/op".toList <:+: line) :
    parseLine line = .ok none := by
  unfold parseLine
  rw [Regex.search_eq_none (r := pRocks) (by decide) h,
    Regex.search_eq_none (r := pLevel) (by decide) h]

/-- Lines without a result leave the results as they are. -/
theorem parseLines_none : ∀ {lines : List (List LogChar)},
    (∀ line ∈ lines, parseLine line = .ok none) → ∀ results, parseLines lines results = .ok results := by
  intro lines
  induction lines with
  | nil => exact fun _ results => rfl
  | cons line lines ih =>
    intro h results
    rw [parseLines, h line List.mem_cons_self]
    exact ih (fun l hl => h l (List.mem_cons_of_mem _ hl)) results

/-- The lines that a message adds have no result. -/
theorem parseLine_furtherLines (hplain : PlainMessage s.message) :
    ∀ line ∈ splitLines (chars s.furtherLines) [], parseLine line = .ok none := by
  intro line hline
  refine parseLine_none fun h => ?_
  unfold Stats.furtherLines at hline
  cases hrest : s.message.dropWhile (· ≠ '\n') with
  | nil =>
    rw [hrest] at hline
    cases hline
  | cons c rest =>
    simp only [hrest] at hline
    have hsuffix : rest <:+ s.message :=
      (List.suffix_cons c rest).trans (hrest ▸ List.dropWhile_suffix _)
    have hreturn : LogChar.char '\r' ∉ chars (rest ++ ['\n']) := by
      intro hmem
      obtain ⟨d, hd, heq⟩ := List.mem_map.1 hmem
      cases heq
      rcases List.mem_append.1 hd with hd | hd
      · exact hplain.noReturn (hsuffix.subset hd)
      · exact absurd hd (by decide)
    have hinfix : line <:+: chars (rest ++ ['\n']) := by
      have := List.infix_of_mem_flatten hline
      rwa [flatten_splitLines hreturn, List.nil_append] at this
    -- the word is in the rest of the message, or it would hold a line end
    obtain ⟨w, hw, heq⟩ := List.infix_map_iff.1 (h.trans hinfix)
    have hinj : Function.Injective LogChar.char := fun _ _ h => LogChar.char.inj h
    rw [← List.map_injective_iff.2 hinj heq] at hw
    have hend : '\n' ∉ "micros/op".toList := by decide
    have hempty : ¬ "micros/op".toList <:+: [] := by decide
    exact not_infix_append_separators (List.cons_ne_nil '\n' [])
      (fun d hd => by rwa [List.mem_singleton.1 hd])
      (fun h => hplain.noLatency (h.trans hsuffix.isInfix)) hempty hw

/-- A log whose first line has a result, and whose other lines have none, gives this
result. -/
theorem parseLog_oneLine {body rest : List LogChar} (hbody : OneLine body) {result : LogResult}
    (hline : parseLine (body ++ chars ['\n']) = .ok (some (chars name, result)))
    (hrest : ∀ line ∈ splitLines rest [], parseLine line = .ok none) :
    parseLog (some (body ++ (chars ['\n'] ++ rest))) name = .ok (some result) := by
  have hlines : parseLines (splitLines (body ++ (chars ['\n'] ++ rest)) []) []
      = .ok [(chars name, result)] := by
    rw [splitLines_oneLine rest hbody, List.nil_append, parseLines, hline]
    exact parseLines_none hrest _
  have hfind : findResult [(chars name, result)] name = some result := by
    unfold findResult
    rw [List.lookup_cons_self]
  exact (bind_eq_of_ok hlines _).trans (congrArg Except.ok hfind)

theorem lineEnd_oneLine (hmessage : OneLine (chars s.message)) :
    ∃ body, OneLine body ∧ s.lineEnd = body ++ chars ['\n'] := by
  have hend : ∃ text, OneLine text ∧ chars s.messageEnd = text ++ chars ['\n'] := by
    unfold Stats.messageEnd
    split
    · exact ⟨[], rfl, rfl⟩
    · refine ⟨blanks 1 ++ chars s.message, (oneLine_blanks 1).append hmessage, ?_⟩
      simp [chars, blanks]
  obtain ⟨text, htext, hend⟩ := hend
  by_cases hbytes : 0 < s.bytes
  · obtain ⟨n, hline⟩ := s.lineEnd_of_bytes.2 hbytes
    have hmb : OneLine (chars "MB/s".toList) := rfl
    refine ⟨blanks (n + 1) ++ ([.number (s.bytes / 1048576 / s.elapsed)] ++ (blanks 1 ++
      (chars "MB/s".toList ++ text))), ?_, ?_⟩
    · exact (oneLine_blanks _).append ((oneLine_number _).append ((oneLine_blanks _).append
        (hmb.append htext)))
    · rw [hline, hend]
      simp only [List.append_assoc]
  · exact ⟨text, htext, by rw [s.lineEnd_of_bytes.1 hbytes, hend]⟩

/-- A line of LevelDB whose message is of one line is one line. -/
theorem report_oneLine (hword : name.all isWordChar = true)
    (hmessage : OneLine (chars s.message)) :
    ∃ body, OneLine body ∧ s.report name = body ++ chars ['\n'] := by
  obtain ⟨body, hbody, hend⟩ := lineEnd_oneLine hmessage
  have hcolon : OneLine (chars " : ".toList) := rfl
  have hmicros : OneLine (chars " micros/op;".toList) := rfl
  have hstart := ((((oneLine_name hword).append (oneLine_blanks (12 - name.length))).append
    hcolon).append (oneLine_field 11 3 s.microsPerOp)).append hmicros
  refine ⟨_, hstart.append hbody, ?_⟩
  rw [Stats.report, hend, List.append_assoc _ body]

/-- A line of RocksDB whose message is of one line is one line. -/
theorem reportRocksDb_oneLine (hword : name.all isWordChar = true)
    (hmessage : OneLine (chars s.message)) :
    ∃ body, OneLine body ∧ s.reportRocksDb name = body ++ chars ['\n'] := by
  obtain ⟨body, hbody, hend⟩ := lineEnd_oneLine hmessage
  have hcolon : OneLine (chars " : ".toList) := rfl
  have hmicros : OneLine (chars " micros/op ".toList) := rfl
  have hops : OneLine (chars " ops/sec ".toList) := rfl
  have hseconds : OneLine (chars " seconds ".toList) := rfl
  have hoperations : OneLine (chars " operations;".toList) := rfl
  have hlatency := ((((oneLine_name hword).append (oneLine_blanks (12 - name.length))).append
    hcolon).append (oneLine_field 11 3 s.microsPerOp)).append hmicros
  have hrate := (hlatency.append (oneLine_number (⌊(s.reportedDone / s.elapsed : ℚ)⌋₊ : ℚ))).append
    hops
  have hstart := (((hrate.append (oneLine_field 0 3 s.elapsed)).append hseconds).append
    (oneLine_number s.reportedDone)).append hoperations
  refine ⟨_, hstart.append hbody, ?_⟩
  rw [Stats.reportRocksDb, hend, List.append_assoc _ body]

/-- **A log of LevelDB** gives the operations per second of its latency. -/
theorem parseLog_report (hne : name ≠ []) (hword : name.all isWordChar = true)
    (hplain : PlainMessage s.message) :
    ∃ result, parseLog (some (s.report name)) name = .ok (some result) ∧
      result.opsSec = if 0 < s.microsPerOp then roundHalfEven (1000000 / s.microsPerOp) else 0 := by
  obtain ⟨result, hresult, hopsSec⟩ := parseLine_report hne hword (Stats.head_plain hplain)
  obtain ⟨body, hbody, hline⟩ := report_oneLine hword (Stats.head_oneLine hplain)
  rw [hline] at hresult
  rw [Stats.report_head name hplain, hline, List.append_assoc]
  exact ⟨result, parseLog_oneLine hbody hresult (parseLine_furtherLines hplain), hopsSec⟩

/-- **A log of RocksDB** gives the operations per second that it prints. -/
theorem parseLog_reportRocksDb (hne : name ≠ []) (hword : name.all isWordChar = true)
    (hplain : PlainMessage s.message) :
    ∃ result, parseLog (some (s.reportRocksDb name)) name = .ok (some result) ∧
      result.opsSec = ⌊(s.reportedDone / s.elapsed : ℚ)⌋₊ := by
  obtain ⟨result, hresult, hopsSec⟩ := parseLine_reportRocksDb hne hword (Stats.head_plain hplain)
  obtain ⟨body, hbody, hline⟩ := reportRocksDb_oneLine hword (Stats.head_oneLine hplain)
  rw [hline] at hresult
  rw [Stats.reportRocksDb_head name hplain, hline, List.append_assoc]
  exact ⟨result, parseLog_oneLine hbody hresult (parseLine_furtherLines hplain), hopsSec⟩

end PackedFilters.Bench
