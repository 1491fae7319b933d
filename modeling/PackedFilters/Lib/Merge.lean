import PackedFilters.Lib.Cursor

/-!
# Sorted lists merged

Several sorted lists, and the sorted list of all their entries.  A merge that is read from
several cursors never builds that list: it keeps a position in each of the lists and shows
the least, or the greatest, of what it finds there.  So positions in the lists and a position
in the merged list have to be compared, and they are when one line through the keys runs
through all of them: before it, in every list, are the entries that were passed.

A line is a predicate on keys that is closed downwards (`IsCut`): the keys below a target, or
the keys up to it.  It cuts every list in two (`cut`), and in a sorted list the entries
before it are exactly those before the cut (`Sorted.lt_cut_iff`).

* `below`, `upTo` — the two lines through a key: where a seek lands, and one behind;
* `Merges` — a sorted list has the entries of several others;
* `Merges.apart` — no key is in two of them;
* `Merges.first`, `Merges.last` — behind a line the merged list goes on with the least of
  what the lists have there, and before it ends with the greatest;
* `Merges.cut_below_first`, `Merges.cut_upTo_last` — the line can then be moved up to that
  entry, in either direction, without cutting any list elsewhere.
-/

namespace Cursor

variable {κ ν : Type*}

/-! ## Lines through the keys -/

/-- Whatever is not behind a key before the line is before it too. -/
def IsCut (cmp : κ → κ → Ordering) (before : κ → Bool) : Prop :=
  ∀ a b, (cmp a b).isLE → before b = true → before a = true

/-- The number of entries before the line. -/
def cut (before : κ → Bool) (entries : List (κ × ν)) : ℕ := entries.findIdx fun e => !before e.1

/-- The keys below `target`. -/
def below (cmp : κ → κ → Ordering) (target : κ) : κ → Bool := fun k => cmp k target = .lt

/-- The keys not above `target`. -/
def upTo (cmp : κ → κ → Ordering) (target : κ) : κ → Bool := fun k => (cmp k target).isLE

section Cut

variable {cmp : κ → κ → Ordering} {before : κ → Bool} {entries : List (κ × ν)} {target : κ} {i : ℕ}

theorem cut_le (before : κ → Bool) (entries : List (κ × ν)) : cut before entries ≤ entries.length :=
  List.findIdx_le_length

theorem lowerBound_eq_cut (cmp : κ → κ → Ordering) (entries : List (κ × ν)) (target : κ) :
    lowerBound cmp entries target = cut (below cmp target) entries := by
  rw [lowerBound, cut]
  congr 1
  funext e
  rw [below]
  cases cmp e.1 target <;> rfl

theorem cut_false (entries : List (κ × ν)) : cut (fun _ => false) entries = 0 := by
  cases entries <;> rfl

theorem cut_true (entries : List (κ × ν)) : cut (fun _ => true) entries = entries.length :=
  List.findIdx_eq_length_of_false fun _ _ => rfl

/-- Only what the line does with the keys of the list matters. -/
theorem cut_congr {before' : κ → Bool} (h : ∀ e ∈ entries, before e.1 = before' e.1) :
    cut before entries = cut before' entries := by
  induction entries with
  | nil => rfl
  | cons e entries ih =>
    have ih := ih fun e' he' => h e' (List.mem_cons_of_mem _ he')
    rw [cut, cut] at ih ⊢
    rw [List.findIdx_cons, List.findIdx_cons, h e List.mem_cons_self, ih]

theorem isCut_const (cmp : κ → κ → Ordering) (b : Bool) : IsCut cmp fun _ => b :=
  fun _ _ _ hb => hb

theorem before_of_lt_cut (h : i < cut before entries)
    (hi : i < entries.length := h.trans_le (cut_le ..)) : before entries[i].1 = true := by
  simpa using List.not_of_lt_findIdx h

theorem not_before_cut (h : cut before entries < entries.length) :
    before entries[cut before entries].1 = false := by
  have hget : (!before entries[cut before entries].1) = true := List.findIdx_getElem (w := h)
  simpa using hget

variable [Std.TransCmp cmp]

theorem isCut_below (target : κ) : IsCut cmp (below cmp target) := by
  intro a b hab hb
  rw [below, decide_eq_true_eq] at hb ⊢
  exact Std.TransCmp.lt_of_isLE_of_lt hab hb

theorem isCut_upTo (target : κ) : IsCut cmp (upTo cmp target) := by
  intro a b hab hb
  rw [upTo] at hb ⊢
  exact Std.TransCmp.isLE_trans hab hb

theorem Sorted.lt_cut_iff (h : Sorted cmp entries) (hcut : IsCut cmp before)
    (hi : i < entries.length) : i < cut before entries ↔ before entries[i].1 = true := by
  refine ⟨fun hlt => before_of_lt_cut hlt, fun hbefore => not_le.1 fun hle => ?_⟩
  have hnot := not_before_cut (hle.trans_lt hi)
  rw [hcut _ _ (h.le hle hi) hbefore] at hnot
  cases hnot

/-- The entry at a position lies behind what is below it. -/
theorem Sorted.cut_below_of_get (h : Sorted cmp entries) (hi : i < entries.length) :
    cut (below cmp entries[i].1) entries = i := by
  rw [← lowerBound_eq_cut]
  exact h.lowerBound_of_eq hi Std.ReflCmp.compare_self

/-- And is the last of what is not above it. -/
theorem Sorted.cut_upTo_of_get (h : Sorted cmp entries) (hi : i < entries.length) :
    cut (upTo cmp entries[i].1) entries = i + 1 := by
  have hlt : i < cut (upTo cmp entries[i].1) entries := by
    rw [h.lt_cut_iff (isCut_upTo _) hi, upTo]
    exact Ordering.isLE_of_eq_eq Std.ReflCmp.compare_self
  refine le_antisymm (not_lt.1 fun hgt => ?_) hlt
  have hbefore := before_of_lt_cut hgt
  have hle := cut_le (upTo cmp entries[i].1) entries
  exact Std.OrientedCmp.not_isLE_of_lt (h.lt (Nat.lt_succ_self i) (hgt.trans_le hle)) hbefore

omit [Std.TransCmp cmp] in
/-- The two lines differ only in the key itself. -/
theorem cut_upTo_of_ne (h : ∀ e ∈ entries, cmp e.1 target ≠ .eq) :
    cut (upTo cmp target) entries = cut (below cmp target) entries := by
  refine cut_congr fun e he => ?_
  have hne := h e he
  rw [upTo, below]
  revert hne
  cases cmp e.1 target <;> simp

end Cut

/-! ## Merging -/

/-- `entries` has the entries of all `lists`, in order. -/
structure Merges (cmp : κ → κ → Ordering) (lists : List (List (κ × ν))) (entries : List (κ × ν)) :
    Prop where
  sorted : Sorted cmp entries
  perm : entries.Perm lists.flatten
  each : ∀ l ∈ lists, Sorted cmp l

namespace Merges

variable {cmp : κ → κ → Ordering} {lists : List (List (κ × ν))} {entries : List (κ × ν)}
  {before : κ → Bool} {e : κ × ν}

theorem mem_iff (h : Merges cmp lists entries) : e ∈ entries ↔ ∃ l ∈ lists, e ∈ l := by
  rw [h.perm.mem_iff, List.mem_flatten]

variable [Std.TransCmp cmp]

/-- There is only one way to merge. -/
theorem eq (h : Merges cmp lists entries) {entries' : List (κ × ν)}
    (h' : Merges cmp lists entries') : entries = entries' :=
  List.Perm.eq_of_pairwise
    (fun a b _ _ (hab : cmp a.1 b.1 = .lt) (hba : cmp b.1 a.1 = .lt) =>
      absurd hba (Std.OrientedCmp.not_lt_of_lt hab)) h.sorted h'.sorted (h.perm.trans h'.perm.symm)

/-- No key is in two of the lists. -/
theorem apart (h : Merges cmp lists entries) {i j : ℕ} {l l' : List (κ × ν)}
    (hl : lists[i]? = some l) (hl' : lists[j]? = some l') (hij : i ≠ j) {e' : κ × ν} (he : e ∈ l)
    (he' : e' ∈ l') : cmp e.1 e'.1 ≠ .eq := by
  have hne : entries.Pairwise fun a b => cmp a.1 b.1 ≠ .eq :=
    h.sorted.imp fun hlt heq => by
      rw [hlt] at heq
      cases heq
  rw [h.perm.pairwise_iff fun hne heq => hne (Std.OrientedCmp.eq_symm heq),
    List.pairwise_flatten] at hne
  obtain ⟨hi, rfl⟩ := List.getElem?_eq_some_iff.1 hl
  obtain ⟨hj, rfl⟩ := List.getElem?_eq_some_iff.1 hl'
  rcases lt_or_gt_of_ne hij with hlt | hlt
  · exact List.pairwise_iff_getElem.1 hne.2 i j hi hj hlt e he e' he'
  · intro heq
    exact List.pairwise_iff_getElem.1 hne.2 j i hj hi hlt e' he' e he (Std.OrientedCmp.eq_symm heq)

/-- **Behind a line** comes the least of what the lists have there. -/
theorem first (h : Merges cmp lists entries) (he : e ∈ entries)
    (hnot : before e.1 = false)
    (hleast : ∀ l ∈ lists, ∀ hi : cut before l < l.length, (cmp e.1 l[cut before l].1).isLE) :
    entries[cut before entries]? = some e := by
  obtain ⟨n, hn, rfl⟩ := List.mem_iff_getElem.1 he
  have hle : cut before entries ≤ n := not_lt.1 fun hlt => by
    rw [before_of_lt_cut hlt] at hnot
    cases hnot
  have hlt := hle.trans_lt hn
  obtain ⟨l, hl, hmem⟩ := h.mem_iff.1 (List.getElem_mem hlt)
  obtain ⟨j, hj, hget⟩ := List.mem_iff_getElem.1 hmem
  have hbehind : cut before l ≤ j := not_lt.1 fun hlt' => by
    have hbefore := before_of_lt_cut hlt'
    rw [hget, not_before_cut hlt] at hbefore
    cases hbefore
  have hfirst := Std.TransCmp.isLE_trans (hleast l hl (hbehind.trans_lt hj))
    ((h.each l hl).le hbehind hj)
  rw [hget] at hfirst
  rcases hle.lt_or_eq with hlt' | heq
  · exact absurd hfirst (Std.OrientedCmp.not_isLE_of_lt (h.sorted.lt hlt' hn))
  · rw [List.getElem?_eq_getElem hlt]
    simp only [heq]

/-- **Before a line** comes the greatest of what the lists have there. -/
theorem last (h : Merges cmp lists entries) (hcut : IsCut cmp before) (he : e ∈ entries)
    (hbefore : before e.1 = true)
    (hgreatest : ∀ l ∈ lists, ∀ (_ : 0 < cut before l)
      (hi : cut before l - 1 < l.length), (cmp l[cut before l - 1].1 e.1).isLE) :
    0 < cut before entries ∧ entries[cut before entries - 1]? = some e := by
  obtain ⟨n, hn, rfl⟩ := List.mem_iff_getElem.1 he
  have hlt := (h.sorted.lt_cut_iff hcut hn).2 hbefore
  have hle := cut_le before entries
  have hlast : cut before entries - 1 < entries.length := by omega
  refine ⟨by omega, ?_⟩
  obtain ⟨l, hl, hmem⟩ := h.mem_iff.1 (List.getElem_mem hlast)
  obtain ⟨j, hj, hget⟩ := List.mem_iff_getElem.1 hmem
  have hjlt : j < cut before l := by
    rw [(h.each l hl).lt_cut_iff hcut hj, hget]
    exact before_of_lt_cut (by omega)
  have hle' := cut_le before l
  have hgreatest := Std.TransCmp.isLE_trans
    ((h.each l hl).le (show j ≤ cut before l - 1 by omega) (by omega))
    (hgreatest l hl (by omega) (by omega))
  rw [hget] at hgreatest
  rcases (show n ≤ cut before entries - 1 by omega).lt_or_eq with hlt' | heq
  · exact absurd hgreatest (Std.OrientedCmp.not_isLE_of_lt (h.sorted.lt hlt' hlast))
  · rw [List.getElem?_eq_getElem hlast]
    simp only [heq]

/-- A line is as good as the one below the first entry behind it. -/
theorem cut_below_first (h : Merges cmp lists entries) (hcut : IsCut cmp before)
    (hlt : cut before entries < entries.length) {l : List (κ × ν)} (hl : l ∈ lists) :
    cut (below cmp entries[cut before entries].1) l = cut before l := by
  refine cut_congr fun e he => ?_
  obtain ⟨j, hj, rfl⟩ := List.mem_iff_getElem.1 (h.mem_iff.2 ⟨l, hl, he⟩)
  rw [Bool.eq_iff_iff, ← h.sorted.lt_cut_iff hcut hj, ← h.sorted.lt_cut_iff (isCut_below _) hj,
    h.sorted.cut_below_of_get hlt]

/-- And as the one above the last entry before it. -/
theorem cut_upTo_last (h : Merges cmp lists entries) (hcut : IsCut cmp before)
    (hpos : 0 < cut before entries) (hlt : cut before entries - 1 < entries.length)
    {l : List (κ × ν)} (hl : l ∈ lists) :
    cut (upTo cmp entries[cut before entries - 1].1) l = cut before l := by
  refine cut_congr fun e he => ?_
  obtain ⟨j, hj, rfl⟩ := List.mem_iff_getElem.1 (h.mem_iff.2 ⟨l, hl, he⟩)
  rw [Bool.eq_iff_iff, ← h.sorted.lt_cut_iff hcut hj, ← h.sorted.lt_cut_iff (isCut_upTo _) hj,
    h.sorted.cut_upTo_of_get hlt, Nat.sub_add_cancel hpos]

omit [Std.TransCmp cmp] in
/-- Where the lists end, the merged one does. -/
theorem cut_eq_length (h : Merges cmp lists entries)
    (hall : ∀ l ∈ lists, cut before l = l.length) : cut before entries = entries.length := by
  refine List.findIdx_eq_length_of_false fun e he => ?_
  obtain ⟨l, hl, he⟩ := h.mem_iff.1 he
  obtain ⟨j, hj, rfl⟩ := List.mem_iff_getElem.1 he
  have hbefore : before l[j].1 = true := before_of_lt_cut ((hall l hl).symm ▸ hj)
  rw [hbefore]
  rfl

/-- Where they begin, it does. -/
theorem cut_eq_zero (h : Merges cmp lists entries) (hcut : IsCut cmp before)
    (hall : ∀ l ∈ lists, cut before l = 0) : cut before entries = 0 := by
  by_contra hne
  have hpos := Nat.pos_of_ne_zero hne
  have hlt := hpos.trans_le (cut_le before entries)
  obtain ⟨l, hl, hmem⟩ := h.mem_iff.1 (List.getElem_mem hlt)
  obtain ⟨j, hj, hget⟩ := List.mem_iff_getElem.1 hmem
  have hbefore := before_of_lt_cut hpos
  rw [← hget, ← (h.each l hl).lt_cut_iff hcut hj, hall l hl] at hbefore
  exact absurd hbefore (Nat.not_lt_zero j)

end Merges

end Cursor
