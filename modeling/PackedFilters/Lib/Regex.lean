import Mathlib

/-!
# Regular expressions with groups

Regular expressions over any alphabet in the backtracking reading: the matches at the start
of a text in the order in which they are tried, a repetition longest first, with what their
groups captured.  The match that a search returns is the first of them at the first position
that has one, and not the longest, so the order is part of what is computed.

Expressions are words, runs of characters of a class, optional parts, numbered groups and
sequences: enough for the patterns by which a line of a log is taken apart, and without
nested repetitions, so that the list of matches is finite and found by recursion on the
expression.

* `Regex.results`, `Regex.search` — all matches at the start, and the first one anywhere;
* `Regex.First` — the match that is tried first, with a rule for each constructor, by which a
  match of a concrete text is put together from the matches of its pieces;
* `Regex.mandatory`, `Regex.infix_of_mem_results` — a match contains every word it cannot do
  without, and so `Regex.search_eq_none`: a text without such a word has no match;
* `Regex.results_many_seq_eq_nil` — a run of one class is not followed by what another class,
  disjoint from it, asks for;
* `infix_or_of_infix_append_cons`, `not_infix_append_separators` — words that do not reach
  across a character they do not have.
-/

namespace PackedFilters

/-- A regular expression over an alphabet: a word, a run of characters of a class, an optional
part, a numbered group whose text is captured, or one expression behind another. -/
inductive Regex (α : Type*) where
  /-- This word. -/
  | text (w : List α)
  /-- At least so many characters of a class. -/
  | many (p : α → Bool) (least : ℕ)
  | optional (r : Regex α)
  /-- A numbered group. -/
  | group (i : ℕ) (r : Regex α)
  | seq (r s : Regex α)

namespace Regex

variable {α : Type*}

/-- A match: what the groups captured, and the text behind it. -/
structure Match (α : Type*) where
  groups : List (ℕ × List α)
  rest : List α

variable [DecidableEq α]

/-- The matches at the start of a text, in the order in which they are tried. -/
def results : Regex α → List α → List (Match α)
  | text w, l => if w <+: l then [⟨[], l.drop w.length⟩] else []
  | many p least, l =>
    let longest := (l.takeWhile p).length
    (List.range (longest + 1 - least)).map fun k => ⟨[], l.drop (longest - k)⟩
  | optional r, l => r.results l ++ [⟨[], l⟩]
  | group i r, l =>
    (r.results l).map fun m => ⟨(i, l.take (l.length - m.rest.length)) :: m.groups, m.rest⟩
  | seq r s, l =>
    (r.results l).flatMap fun m =>
      (s.results m.rest).map fun m' => ⟨m.groups ++ m'.groups, m'.rest⟩

/-- The groups of the first match at the first position that has one. -/
def search (r : Regex α) : List α → Option (List (ℕ × List α))
  | [] => (r.results []).head?.map Match.groups
  | c :: l =>
    match (r.results (c :: l)).head? with
    | some m => some m.groups
    | none => search r l

/-! ## The first match -/

/-- The match that is tried first. -/
def First (r : Regex α) (l : List α) (m : Match α) : Prop := (r.results l).head? = some m

variable {r s : Regex α} {l : List α} {m m' : Match α}

theorem First.eq_cons (h : r.First l m) : ∃ more, r.results l = m :: more :=
  List.head?_eq_some_iff.1 h

theorem First.text (w rest : List α) : (text w).First (w ++ rest) ⟨[], rest⟩ := by
  simp [First, results]

/-- A repetition takes every character of its class. -/
theorem First.many {p : α → Bool} {w rest : List α} {least : ℕ} (hw : w.all p = true)
    (hrest : ∀ c ∈ rest.head?, p c = false) (hleast : least ≤ w.length) :
    (many p least).First (w ++ rest) ⟨[], rest⟩ := by
  have hstop : rest.takeWhile p = [] := by
    cases rest with
    | nil => rfl
    | cons c rest => exact List.takeWhile_cons_of_neg (by rw [hrest c rfl]; exact Bool.false_ne_true)
  have hlongest : (w ++ rest).takeWhile p = w := by
    rw [List.takeWhile_append_of_pos (List.all_eq_true.1 hw), hstop, List.append_nil]
  obtain ⟨n, hn⟩ : ∃ n, w.length + 1 - least = n + 1 := ⟨w.length - least, by omega⟩
  unfold First
  rw [results, hlongest, hn, List.range_succ_eq_map]
  simp

theorem First.group (i : ℕ) {w rest : List α} {groups : List (ℕ × List α)}
    (h : r.First (w ++ rest) ⟨groups, rest⟩) :
    (group i r).First (w ++ rest) ⟨(i, w) :: groups, rest⟩ := by
  obtain ⟨more, heq⟩ := h.eq_cons
  unfold First
  rw [results, heq]
  simp

theorem First.optional (h : r.First l m) : (optional r).First l m := by
  obtain ⟨more, heq⟩ := h.eq_cons
  unfold First
  rw [results, heq]
  rfl

theorem First.skip (h : r.results l = []) : (Regex.optional r).First l ⟨[], l⟩ := by
  unfold First
  rw [results, h]
  rfl

/-- An option is skipped if it has no match. -/
theorem exists_first_optional (r : Regex α) (l : List α) :
    ∃ m, (Regex.optional r).First l m ∧ (m ∈ r.results l ∨ m = ⟨[], l⟩) := by
  cases h : r.results l with
  | nil => exact ⟨_, .skip h, Or.inr rfl⟩
  | cons m more => exact ⟨m, .optional (by rw [First, h]; rfl), Or.inl List.mem_cons_self⟩

/-- Where the first match of one part goes on with a match of the other, no backtracking is
needed. -/
theorem First.seq (hr : r.First l m) (hs : s.First m.rest m') :
    (seq r s).First l ⟨m.groups ++ m'.groups, m'.rest⟩ := by
  obtain ⟨more, heq⟩ := hr.eq_cons
  obtain ⟨more', heq'⟩ := hs.eq_cons
  unfold First
  rw [results, heq, List.flatMap_cons, heq']
  rfl

theorem First.search (h : r.First l m) : r.search l = some m.groups := by
  cases l with
  | nil => rw [Regex.search, h, Option.map_some]
  | cons c l => rw [Regex.search, h]

/-! ## All matches -/

theorem mem_results_text {w : List α} (h : m ∈ (Regex.text w).results l) :
    l = w ++ m.rest ∧ m.groups = [] := by
  rw [results] at h
  split at h
  · rename_i hprefix
    obtain ⟨rest, rfl⟩ := hprefix
    cases List.mem_singleton.1 h
    simp
  · cases h

/-- A repetition gives back characters from its end. -/
theorem mem_results_many {p : α → Bool} {least : ℕ} (h : m ∈ (Regex.many p least).results l) :
    ∃ w, l = w ++ m.rest ∧ w.all p = true ∧ least ≤ w.length ∧ m.groups = [] := by
  obtain ⟨k, hk, rfl⟩ := List.mem_map.1 h
  rw [List.mem_range] at hk
  obtain ⟨tail, htail⟩ := List.takeWhile_prefix p (l := l)
  have hle : (l.takeWhile p).length - k ≤ (l.takeWhile p).length := Nat.sub_le _ _
  have htake : (l.takeWhile p ++ tail).take ((l.takeWhile p).length - k)
      = (l.takeWhile p).take ((l.takeWhile p).length - k) := List.take_append_of_le_length hle
  rw [htail] at htake
  refine ⟨l.take ((l.takeWhile p).length - k), (List.take_append_drop _ l).symm, ?_, ?_, rfl⟩
  · rw [htake, List.all_eq_true]
    exact fun c hc => List.mem_takeWhile_imp (List.mem_of_mem_take hc)
  · rw [htake, List.length_take]
    omega

theorem mem_results_group {i : ℕ} (h : m ∈ (Regex.group i r).results l) :
    ∃ a ∈ r.results l, m = ⟨(i, l.take (l.length - a.rest.length)) :: a.groups, a.rest⟩ := by
  obtain ⟨a, ha, rfl⟩ := List.mem_map.1 h
  exact ⟨a, ha, rfl⟩

theorem mem_results_seq (h : m ∈ (Regex.seq r s).results l) :
    ∃ a ∈ r.results l, ∃ b ∈ s.results a.rest, m = ⟨a.groups ++ b.groups, b.rest⟩ := by
  obtain ⟨a, ha, hmap⟩ := List.mem_flatMap.1 h
  obtain ⟨b, hb, rfl⟩ := List.mem_map.1 hmap
  exact ⟨a, ha, b, hb, rfl⟩

/-- A group around a repetition captures characters of its class. -/
theorem mem_results_group_many {p : α → Bool} {least i : ℕ}
    (h : m ∈ (Regex.group i (Regex.many p least)).results l) :
    ∃ w, l = w ++ m.rest ∧ w.all p = true ∧ least ≤ w.length ∧ m.groups = [(i, w)] := by
  obtain ⟨a, ha, rfl⟩ := mem_results_group h
  obtain ⟨w, heq, hall, hleast, hgroups⟩ := mem_results_many ha
  refine ⟨w, heq, hall, hleast, ?_⟩
  have hlength : l.length - a.rest.length = w.length := by
    rw [heq, List.length_append, Nat.add_sub_cancel]
  rw [hgroups, hlength, heq, List.take_left]

/-- What is left of a text is its end. -/
theorem suffix_of_mem_results : ∀ {r : Regex α} {l : List α} {m : Match α},
    m ∈ r.results l → m.rest <:+ l := by
  intro r
  induction r with
  | text w =>
    intro l m h
    exact ⟨w, (mem_results_text h).1.symm⟩
  | many p least =>
    intro l m h
    obtain ⟨w, heq, -⟩ := mem_results_many h
    exact ⟨w, heq.symm⟩
  | optional r ih =>
    intro l m h
    rw [results, List.mem_append, List.mem_singleton] at h
    cases h with
    | inl hr => exact ih hr
    | inr heq => rw [heq]
  | group i r ih =>
    intro l m h
    obtain ⟨a, ha, rfl⟩ := mem_results_group h
    show a.rest <:+ l
    exact ih ha
  | seq r s ihr ihs =>
    intro l m h
    obtain ⟨a, ha, b, hb, rfl⟩ := mem_results_seq h
    exact (ihs hb).trans (ihr ha)

/-- A part that captures nothing leaves the groups to what follows. -/
theorem mem_results_seq_of_groups (hr : ∀ a ∈ r.results l, a.groups = [])
    (h : m ∈ (Regex.seq r s).results l) :
    ∃ l', l' <:+ l ∧ ∃ b ∈ s.results l', m.groups = b.groups := by
  obtain ⟨a, ha, b, hb, rfl⟩ := mem_results_seq h
  refine ⟨a.rest, suffix_of_mem_results ha, b, hb, ?_⟩
  rw [hr a ha, List.nil_append]

theorem mem_results_text_seq {w : List α} (h : m ∈ (Regex.seq (text w) s).results l) :
    ∃ l', l' <:+ l ∧ ∃ b ∈ s.results l', m.groups = b.groups :=
  mem_results_seq_of_groups (fun _ ha => (mem_results_text ha).2) h

theorem mem_results_many_seq {p : α → Bool} {least : ℕ}
    (h : m ∈ (Regex.seq (many p least) s).results l) :
    ∃ l', l' <:+ l ∧ ∃ b ∈ s.results l', m.groups = b.groups := by
  refine mem_results_seq_of_groups (fun a ha => ?_) h
  obtain ⟨w, -, -, -, hgroups⟩ := mem_results_many ha
  exact hgroups

/-- The words that every match has to contain. -/
def mandatory : Regex α → List (List α)
  | text w => [w]
  | many _ _ => []
  | optional _ => []
  | group _ r => r.mandatory
  | seq r s => r.mandatory ++ s.mandatory

theorem infix_of_mem_results : ∀ {r : Regex α} {l w : List α} {m : Match α},
    w ∈ r.mandatory → m ∈ r.results l → w <:+: l := by
  intro r
  induction r with
  | text v =>
    intro l w m hw h
    rw [List.mem_singleton.1 hw, (mem_results_text h).1]
    exact (List.prefix_append _ _).isInfix
  | many p least => exact fun hw => absurd hw List.not_mem_nil
  | optional r => exact fun hw => absurd hw List.not_mem_nil
  | group i r ih =>
    intro l w m hw h
    obtain ⟨a, ha, -⟩ := mem_results_group h
    exact ih hw ha
  | seq r s ihr ihs =>
    intro l w m hw h
    obtain ⟨a, ha, b, hb, -⟩ := mem_results_seq h
    cases List.mem_append.1 hw with
    | inl hr => exact ihr hr ha
    | inr hs => exact (ihs hs hb).trans (suffix_of_mem_results ha).isInfix

/-- **A missing word**: there is no match in a text without a word that every match
contains. -/
theorem search_eq_none {w : List α} (hw : w ∈ r.mandatory) :
    ∀ {l : List α}, ¬ w <:+: l → r.search l = none := by
  have hresults {l : List α} (h : ¬ w <:+: l) : r.results l = [] :=
    List.eq_nil_iff_forall_not_mem.2 fun m hm => h (infix_of_mem_results hw hm)
  intro l
  induction l with
  | nil =>
    intro h
    rw [search, hresults h]
    rfl
  | cons c l ih =>
    intro h
    rw [search, hresults h]
    exact ih fun hl => h (hl.trans (List.suffix_cons c l).isInfix)

/-- Behind a repetition nothing of another class can follow but what follows all of it. -/
theorem results_many_seq_eq_nil {p q : α → Bool} (hdisjoint : ∀ c, q c = true → p c = false)
    {l : List α} (h : ∀ c ∈ (l.dropWhile p).head?, q c = false) (i : ℕ) (s : Regex α) :
    (Regex.seq (many p 0) (Regex.seq (group i (many q 1)) s)).results l = [] := by
  refine List.eq_nil_iff_forall_not_mem.2 fun m hm => ?_
  obtain ⟨a, ha, b, hb, -⟩ := mem_results_seq hm
  obtain ⟨c, hc, d, hd, -⟩ := mem_results_seq hb
  obtain ⟨w, heq, hw, -⟩ := mem_results_many ha
  obtain ⟨v, heq', hv, hlength, -⟩ := mem_results_group_many hc
  cases v with
  | nil => exact absurd hlength (Nat.not_succ_le_zero 0)
  | cons x v =>
    have hx : q x = true := List.all_eq_true.1 hv x List.mem_cons_self
    have hdrop : l.dropWhile p = x :: (v ++ c.rest) := by
      rw [heq, heq', List.dropWhile_append_of_pos (List.all_eq_true.1 hw), List.cons_append,
        List.dropWhile_cons_of_neg (by rw [hdisjoint x hx]; exact Bool.false_ne_true)]
    rw [hdrop] at h
    exact absurd hx (by rw [h x rfl]; exact Bool.false_ne_true)

end Regex

/-! ## Words that do not occur -/

section Infix

variable {α : Type*} {w l l' : List α}

/-- A word without a character is on one side of it. -/
theorem infix_or_of_infix_append_cons {c : α} (hc : c ∉ w) (h : w <:+: l ++ c :: l') :
    w <:+: l ∨ w <:+: l' := by
  obtain ⟨front, back, heq⟩ := h
  rcases List.append_eq_append_iff.1 heq with ⟨rest, hl, -⟩ | ⟨rest, hfront, hback⟩
  · exact Or.inl ⟨front, rest, hl.symm⟩
  · cases rest with
    | nil =>
      rw [List.append_nil] at hfront
      exact Or.inl (hfront ▸ (List.suffix_append front w).isInfix)
    | cons d rest =>
      obtain ⟨rfl, rfl⟩ := List.cons.inj hback
      rcases List.append_eq_append_iff.1 hfront with ⟨rest', -, hw⟩ | ⟨rest', -, hrest⟩
      · exact absurd (by rw [hw]; simp) hc
      · cases rest' with
        | nil => exact absurd (by rw [← List.nil_append w, ← hrest]; simp) hc
        | cons e rest' =>
          obtain ⟨-, rfl⟩ := List.cons.inj hrest
          exact Or.inr ⟨rest', back, rfl⟩

/-- A word without separators is not spread over them. -/
theorem not_infix_append_separators : ∀ {separators l : List α}, separators ≠ [] →
    (∀ c ∈ separators, c ∉ w) → ¬ w <:+: l → ¬ w <:+: l' → ¬ w <:+: l ++ (separators ++ l') := by
  intro separators
  induction separators with
  | nil => exact fun h => absurd rfl h
  | cons c separators ih =>
    intro l _ hc hl hl' h
    cases infix_or_of_infix_append_cons (hc c List.mem_cons_self) h with
    | inl hleft => exact hl hleft
    | inr hright =>
      by_cases hnil : separators = []
      · rw [hnil] at hright
        exact hl' hright
      · have hnone : ¬ w <:+: [] := fun hempty => hl (hempty.trans (List.nil_prefix.isInfix))
        exact ih hnil (fun d hd => hc d (List.mem_cons_of_mem _ hd)) hnone hl' hright

end Infix

end PackedFilters
