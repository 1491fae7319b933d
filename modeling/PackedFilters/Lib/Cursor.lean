import Mathlib

/-!
# Cursors on sorted lists

What an iterator over pairs of a key and a value does, said once: it walks a list.  It has a
position in the list, or behind its end, where it shows nothing; it seeks a key, goes to
either end, and steps from where it is.  A block, a file with an index, a merge of several
files and a view that leaves entries out are all read through such an iterator, and a proof
about one of them is a relation between its states and positions in a list.

* `Op`, `move` — the operations, and where they lead on a list; `Allowed` — a step needs a
  position to start from;
* `Iterator` — an implementation: what a state shows, and the operations, which may fail;
* `Refines` — every operation that is allowed leads where `move` does, and states show what
  is at their position; `Refines.run` — and so does every run of allowed operations;
* `lowerBound_eq`, `lowerBound_append` — where a seek lands, in a list and in two lists
  behind each other; `lowerBound_mono` — a later key is not found earlier;
* `Part`, `Indexed`, `lowerBound_joined` — many lists behind each other, with an index that
  has one key for each of them: a seek in all of them is a seek in the index and one in the
  list it leads to.

An order is a function to `Ordering`, and what is needed of it is said where it is needed
(`Std.TransCmp`); keys that it holds equal need not be the same.
-/

namespace Cursor

variable {κ ν ε σ : Type*}

/-- The operations of an iterator. -/
inductive Op (κ : Type*) where
  | seek (target : κ)
  | seekToFirst
  | seekToLast
  | next
  | prev

/-- The keys of the entries ascend strictly in the order of `cmp`; no two of them are equal in
it. -/
def Sorted (cmp : κ → κ → Ordering) (entries : List (κ × ν)) : Prop :=
  entries.Pairwise fun a b => cmp a.1 b.1 = .lt

/-- The first position whose key is at or behind `target`; the length of the list when
there is none. -/
def lowerBound (cmp : κ → κ → Ordering) (entries : List (κ × ν)) (target : κ) : ℕ :=
  entries.findIdx fun e => (cmp e.1 target).isGE

/-- Where an operation leads.  The length of the list stands for no position. -/
def move (cmp : κ → κ → Ordering) (entries : List (κ × ν)) : Op κ → ℕ → ℕ
  | .seek target, _ => lowerBound cmp entries target
  | .seekToFirst, _ => 0
  | .seekToLast, _ => entries.length - 1
  | .next, i => i + 1
  | .prev, i => if i = 0 then entries.length else i - 1

/-- Steps need a position to start from. -/
def Allowed (entries : List (κ × ν)) : Op κ → ℕ → Prop
  | .next, i | .prev, i => i < entries.length
  | .seek _, _ | .seekToFirst, _ | .seekToLast, _ => True

instance instDecidableAllowed (entries : List (κ × ν)) (op : Op κ) (i : ℕ) :
    Decidable (Allowed entries op i) :=
  match op with
  | .next | .prev => inferInstanceAs (Decidable (i < entries.length))
  | .seek _ | .seekToFirst | .seekToLast => .isTrue trivial

/-- An implementation of an iterator: what a state shows, and the operations, which may fail
with an error. -/
structure Iterator (ε σ κ ν : Type*) where
  valid : σ → Bool
  key : σ → κ
  value : σ → ν
  step : Op κ → σ → Except ε σ

/-- The states `At` a position show its entry, and allowed operations lead where `move`
does. -/
structure Refines (it : Iterator ε σ κ ν) (cmp : κ → κ → Ordering) (entries : List (κ × ν))
    (At : σ → ℕ → Prop) : Prop where
  valid_iff {s i} : At s i → (it.valid s = true ↔ i < entries.length)
  shows {s i} : At s i → ∀ h : i < entries.length, (it.key s, it.value s) = entries[i]
  step {s i op} : At s i → Allowed entries op i →
    ∃ s', it.step op s = .ok s' ∧ At s' (move cmp entries op i)

theorem Refines.seek {it : Iterator ε σ κ ν} {cmp : κ → κ → Ordering} {entries : List (κ × ν)}
    {At : σ → ℕ → Prop} (h : Refines it cmp entries At) {s : σ} {i : ℕ} (hs : At s i)
    (target : κ) : ∃ s', it.step (.seek target) s = .ok s' ∧ At s' (lowerBound cmp entries target) :=
  h.step hs trivial

/-! ## Runs -/

/-- A run of the implementation. -/
def run (it : Iterator ε σ κ ν) (ops : List (Op κ)) (s : σ) : Except ε σ :=
  ops.foldlM (fun s op => it.step op s) s

/-- The same run on the list. -/
def moves (cmp : κ → κ → Ordering) (entries : List (κ × ν)) (ops : List (Op κ)) (i : ℕ) : ℕ :=
  ops.foldl (fun i op => move cmp entries op i) i

/-- Every step of the run has a position to start from. -/
def AllAllowed (cmp : κ → κ → Ordering) (entries : List (κ × ν)) : List (Op κ) → ℕ → Prop
  | [], _ => True
  | op :: ops, i => Allowed entries op i ∧ AllAllowed cmp entries ops (move cmp entries op i)

instance instDecidableAllAllowed (cmp : κ → κ → Ordering) (entries : List (κ × ν)) :
    (ops : List (Op κ)) → (i : ℕ) → Decidable (AllAllowed cmp entries ops i)
  | [], _ => .isTrue trivial
  | op :: ops, i =>
    have := instDecidableAllAllowed cmp entries ops (move cmp entries op i)
    inferInstanceAs (Decidable (Allowed entries op i ∧ _))

/-- **Every run** of allowed operations leads where it does on the list. -/
theorem Refines.run {it : Iterator ε σ κ ν} {cmp : κ → κ → Ordering} {entries : List (κ × ν)}
    {At : σ → ℕ → Prop} (h : Refines it cmp entries At) (ops : List (Op κ)) :
    ∀ {s : σ} {i : ℕ}, At s i → AllAllowed cmp entries ops i →
      ∃ s', run it ops s = .ok s' ∧ At s' (moves cmp entries ops i) := by
  induction ops with
  | nil => exact fun hat _ => ⟨_, rfl, hat⟩
  | cons op ops ih =>
    intro s i hat hall
    obtain ⟨s', hs', hat'⟩ := h.step hat hall.1
    obtain ⟨s'', hs'', hat''⟩ := ih hat' hall.2
    refine ⟨s'', ?_, hat''⟩
    rw [Cursor.run, List.foldlM_cons, hs']
    exact hs''

/-! ## Seeks -/

section Seek

variable {cmp : κ → κ → Ordering} {entries : List (κ × ν)} {target : κ}

theorem lowerBound_le (cmp : κ → κ → Ordering) (entries : List (κ × ν)) (target : κ) :
    lowerBound cmp entries target ≤ entries.length := List.findIdx_le_length

theorem lt_of_lt_lowerBound {i : ℕ} (h : i < lowerBound cmp entries target)
    (hi : i < entries.length := h.trans_le (lowerBound_le ..)) :
    cmp entries[i].1 target = .lt := by
  have := List.not_of_lt_findIdx h
  revert this
  cases cmp entries[i].1 target <;> simp

theorem isGE_lowerBound (cmp : κ → κ → Ordering) (entries : List (κ × ν)) (target : κ)
    (h : lowerBound cmp entries target < entries.length) :
    (cmp entries[lowerBound cmp entries target].1 target).isGE :=
  List.findIdx_getElem (w := h)

/-- **Where a seek lands:** everything before is below the target, and what is there is
not. -/
theorem lowerBound_eq {i : ℕ} (hi : i ≤ entries.length)
    (hbefore : ∀ (j : ℕ) (_ : j < i) (hj : j < entries.length), cmp entries[j].1 target = .lt)
    (hat : ∀ h : i < entries.length, (cmp entries[i].1 target).isGE) :
    lowerBound cmp entries target = i := by
  rcases lt_trichotomy (lowerBound cmp entries target) i with h | h | h
  · have hge := isGE_lowerBound cmp entries target (h.trans_le hi)
    rw [hbefore _ h _] at hge
    cases hge
  · exact h
  · have hlt := lt_of_lt_lowerBound h
    have hge := hat (h.trans_le (lowerBound_le ..))
    rw [hlt] at hge
    cases hge

theorem Sorted.lt (h : Sorted cmp entries) {i j : ℕ} (hij : i < j) (hj : j < entries.length)
    (hi : i < entries.length := hij.trans hj) : cmp entries[i].1 entries[j].1 = .lt :=
  List.pairwise_iff_getElem.1 h i j hi hj hij

theorem Sorted.le [Std.TransCmp cmp] (h : Sorted cmp entries) {i j : ℕ} (hij : i ≤ j)
    (hj : j < entries.length) (hi : i < entries.length := hij.trans_lt hj) :
    (cmp entries[i].1 entries[j].1).isLE := by
  rcases hij.lt_or_eq with hlt | rfl
  · exact Ordering.isLE_of_eq_lt (h.lt hlt hj)
  · exact Ordering.isLE_of_eq_eq Std.ReflCmp.compare_self

/-- In an ascending list whatever lies before a key below the target is below it. -/
theorem Sorted.lt_target [Std.TransCmp cmp] (h : Sorted cmp entries) (target : κ) {i j : ℕ}
    (hij : i ≤ j) (hj : j < entries.length) (ht : cmp entries[j].1 target = .lt)
    (hi : i < entries.length := hij.trans_lt hj) : cmp entries[i].1 target = .lt :=
  Std.TransCmp.lt_of_isLE_of_lt (h.le hij hj) ht

/-- A key below the target lies before the place where a seek lands. -/
theorem Sorted.lt_lowerBound [Std.TransCmp cmp] (h : Sorted cmp entries) {j : ℕ}
    (hj : j < entries.length) (ht : cmp entries[j].1 target = .lt) :
    j < lowerBound cmp entries target := by
  by_contra hle
  have hge := isGE_lowerBound cmp entries target ((not_lt.1 hle).trans_lt hj)
  rw [h.lt_target target (not_lt.1 hle) hj ht] at hge
  cases hge

/-- A seek to a key that is there lands on it. -/
theorem Sorted.lowerBound_of_eq [Std.TransCmp cmp] (h : Sorted cmp entries) {i : ℕ}
    (hi : i < entries.length) (ht : cmp entries[i].1 target = .eq) :
    lowerBound cmp entries target = i := by
  refine lowerBound_eq hi.le (fun j hj _ => ?_) fun _ => by rw [ht]; rfl
  exact Std.TransCmp.lt_of_lt_of_isLE (h.lt hj hi) (Ordering.isLE_of_eq_eq ht)

/-- Later targets are found later. -/
theorem lowerBound_mono [Std.TransCmp cmp] {a b : κ} (hab : (cmp a b).isLE)
    (entries : List (κ × ν)) : lowerBound cmp entries a ≤ lowerBound cmp entries b := by
  by_contra hlt
  have hlt := not_le.1 hlt
  have hge := isGE_lowerBound cmp entries b (hlt.trans_le (lowerBound_le ..))
  rw [Std.TransCmp.lt_of_lt_of_isLE (lt_of_lt_lowerBound hlt) hab] at hge
  cases hge

/-- A seek in two lists behind each other. -/
theorem lowerBound_append (front back : List (κ × ν)) :
    lowerBound cmp (front ++ back) target
      = if lowerBound cmp front target < front.length then lowerBound cmp front target
        else front.length + lowerBound cmp back target := by
  rw [lowerBound, List.findIdx_append, Nat.add_comm]
  rfl

/-- The front list is passed over when all of it is below the target. -/
theorem lowerBound_append_of_lt {front : List (κ × ν)}
    (h : ∀ e ∈ front, cmp e.1 target = .lt) (back : List (κ × ν)) :
    lowerBound cmp (front ++ back) target = front.length + lowerBound cmp back target := by
  rw [lowerBound_append, if_neg]
  intro hlt
  have hge := isGE_lowerBound cmp front target hlt
  rw [h _ (List.getElem_mem hlt)] at hge
  cases hge

end Seek

/-! ## Lists behind each other -/

/-- A list, with its key in an index and what the index has there. -/
structure Part (κ ω ν : Type*) where
  key : κ
  handle : ω
  entries : List (κ × ν)

section Parts

variable {ω : Type*} {cmp : κ → κ → Ordering} {parts : List (Part κ ω ν)} {p : Part κ ω ν}
  {i j : ℕ} {target : κ}

/-- The index of the parts. -/
def indexOf (parts : List (Part κ ω ν)) : List (κ × ω) := parts.map fun p => (p.key, p.handle)

/-- The parts behind each other. -/
def joined (parts : List (Part κ ω ν)) : List (κ × ν) := parts.flatMap Part.entries

/-- Where a part begins. -/
def start (parts : List (Part κ ω ν)) (i : ℕ) : ℕ := (joined (parts.take i)).length

@[simp] theorem joined_nil : joined ([] : List (Part κ ω ν)) = [] := rfl

@[simp] theorem joined_cons (p : Part κ ω ν) (parts : List (Part κ ω ν)) :
    joined (p :: parts) = p.entries ++ joined parts := rfl

@[simp] theorem start_zero : start parts 0 = 0 := rfl

@[simp] theorem start_cons (p : Part κ ω ν) (parts : List (Part κ ω ν)) (i : ℕ) :
    start (p :: parts) (i + 1) = p.entries.length + start parts i := List.length_append

theorem start_of_le (h : parts.length ≤ i) : start parts i = (joined parts).length := by
  rw [start, List.take_of_length_le h]

theorem start_succ (h : parts[i]? = some p) :
    start parts (i + 1) = start parts i + p.entries.length := by
  rw [start, List.take_add_one, h, joined, List.flatMap_append, List.length_append]
  simp [start, joined]

theorem joined_split (h : parts[i]? = some p) :
    joined parts = joined (parts.take i) ++ (p.entries ++ joined (parts.drop (i + 1))) := by
  obtain ⟨hlt, rfl⟩ := List.getElem?_eq_some_iff.1 h
  rw [← joined_cons, ← List.drop_eq_getElem_cons hlt, joined, joined, joined, ← List.flatMap_append,
    List.take_append_drop]

theorem getElem?_joined (h : parts[i]? = some p) (hj : j < p.entries.length) :
    (joined parts)[start parts i + j]? = p.entries[j]? := by
  rw [joined_split h, start, List.getElem?_append_right (Nat.le_add_right ..),
    Nat.add_sub_cancel_left, List.getElem?_append_left hj]

theorem start_add_lt (h : parts[i]? = some p) (hj : j < p.entries.length) :
    start parts i + j < (joined parts).length := by
  rw [joined_split h, start, List.length_append, List.length_append]
  omega

/-- The key of a part is at or behind its own keys, and not behind those of later parts. -/
structure Indexed (cmp : κ → κ → Ordering) (parts : List (Part κ ω ν)) : Prop where
  le : ∀ p ∈ parts, ∀ e ∈ p.entries, (cmp e.1 p.key).isLE
  later : parts.Pairwise fun p p' => ∀ e ∈ p'.entries, (cmp p.key e.1).isLE

theorem lowerBound_eq_zero {entries : List (κ × ν)}
    (h : ∀ e ∈ entries, (cmp e.1 target).isGE) : lowerBound cmp entries target = 0 :=
  lowerBound_eq (Nat.zero_le _) (fun _ hj => absurd hj (Nat.not_lt_zero _))
    fun hlt => h _ (List.getElem_mem hlt)

/-- **A seek in the parts** is a seek in their index and one in the part it leads to. -/
theorem lowerBound_joined [Std.TransCmp cmp] (h : Indexed cmp parts) (target : κ) :
    lowerBound cmp (joined parts) target = start parts (lowerBound cmp (indexOf parts) target) +
      (parts[lowerBound cmp (indexOf parts) target]?.elim 0 fun p =>
        lowerBound cmp p.entries target) := by
  induction parts with
  | nil => rfl
  | cons p parts ih =>
    have hle := h.le p List.mem_cons_self
    have hlater := List.pairwise_cons.1 h.later
    have ih := ih ⟨fun p' hp' => h.le p' (List.mem_cons_of_mem _ hp'), hlater.2⟩
    rw [joined_cons]
    cases hcmp : (cmp p.key target).isGE with
    | true =>
      have hzero : lowerBound cmp (indexOf (p :: parts)) target = 0 := by
        rw [lowerBound, indexOf, List.map_cons, List.findIdx_cons, hcmp]
        rfl
      have hbehind : lowerBound cmp (joined parts) target = 0 := by
        refine lowerBound_eq_zero fun e he => ?_
        obtain ⟨p', hp', he⟩ := List.mem_flatMap.1 he
        exact Std.OrientedCmp.isGE_of_isLE (Std.TransCmp.isLE_trans
          (Std.OrientedCmp.isLE_of_isGE hcmp) (hlater.1 p' hp' e he))
      rw [hzero, start_zero, lowerBound_append, hbehind, Nat.zero_add]
      split
      · rfl
      · rename_i hnot
        exact le_antisymm (not_lt.1 hnot) (lowerBound_le ..)
    | false =>
      have hlt : cmp p.key target = .lt := by
        revert hcmp
        cases cmp p.key target <;> simp
      have hsucc : lowerBound cmp (indexOf (p :: parts)) target
          = lowerBound cmp (indexOf parts) target + 1 := by
        rw [lowerBound, indexOf, List.map_cons, List.findIdx_cons, hcmp]
        rfl
      rw [hsucc, start_cons, List.getElem?_cons_succ, lowerBound_append_of_lt fun e he =>
        Std.TransCmp.lt_of_isLE_of_lt (hle e he) hlt, ih, Nat.add_assoc]

end Parts

end Cursor
