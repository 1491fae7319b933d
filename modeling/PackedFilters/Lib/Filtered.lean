import PackedFilters.Lib.Cursor

/-!
# Cursors on a part of a list

Some entries of a list are shown and the others passed over: a reader walks the whole list
and stops only where `shown` says so.  What it shows is then a cursor on the filtered list,
and its position there is counted, not stored: the number of shown entries before the
position in the whole list (`rank`).

That count is what ties the two lists together.  It grows by one at a shown entry
(`rank_succ`), stays where an entry is passed over (`rank_succ_of_not`, `rank_eq` for a
stretch of such entries), and is the length of the filtered list at the end, so that moving
to the next shown entry is one step of the cursor on what is shown.

* `rank` — how many are shown before a position;
* `filter_split` — the filtered list, cut where the whole list is;
* `getElem?_filter_rank`, `rank_lt` — the place of a shown entry among the shown ones;
* `lowerBound_filter` — a seek among the shown ones ends at the rank of a position before
  which all of them are below the target, and from which on none is.

The entries may be shown under other names: `image` gives the key and the value under which
one is shown, and the order asked for is the order of those.
-/

namespace Cursor

variable {α : Type*} {shown : α → Bool} {l : List α} {a : α} {i j : ℕ}

/-- The number of shown entries before a position. -/
def rank (shown : α → Bool) (l : List α) (i : ℕ) : ℕ := (l.take i).countP shown

@[simp] theorem rank_zero : rank shown l 0 = 0 := rfl

theorem rank_of_le (h : l.length ≤ i) : rank shown l i = (l.filter shown).length := by
  rw [rank, List.take_of_length_le h, List.countP_eq_length_filter]

theorem rank_succ (h : l[i]? = some a) :
    rank shown l (i + 1) = rank shown l i + if shown a then 1 else 0 := by
  rw [rank, List.take_add_one, h, List.countP_append, rank]
  simp [List.countP_singleton]

theorem rank_succ_of_not (h : l[i]? = some a) (ha : shown a = false) :
    rank shown l (i + 1) = rank shown l i := by
  rw [rank_succ h, ha]
  simp

/-- Where nothing is shown the rank stays. -/
theorem rank_eq (hij : i ≤ j)
    (h : ∀ k a, i ≤ k → k < j → l[k]? = some a → shown a = false) :
    rank shown l j = rank shown l i := by
  induction hij with
  | refl => rfl
  | @step k hik ih =>
    rw [← ih fun k' a hk hk' => h k' a hk (hk'.trans (Nat.lt_succ_self _))]
    cases hk : l[k]? with
    | some a => exact rank_succ_of_not hk (h k a hik (Nat.lt_succ_self k) hk)
    | none =>
      have hlen := List.getElem?_eq_none_iff.1 hk
      rw [rank_of_le hlen, rank_of_le (hlen.trans (Nat.le_succ k))]

/-- The shown entries before a position, and those from it on. -/
theorem filter_split (i : ℕ) :
    l.filter shown = (l.take i).filter shown ++ (l.drop i).filter shown := by
  rw [← List.filter_append, List.take_append_drop]

/-- **The place of a shown entry** among the shown ones. -/
theorem getElem?_filter_rank (h : l[i]? = some a) (ha : shown a = true) :
    (l.filter shown)[rank shown l i]? = some a := by
  obtain ⟨hi, rfl⟩ := List.getElem?_eq_some_iff.1 h
  rw [filter_split i, rank, List.countP_eq_length_filter,
    List.getElem?_append_right le_rfl, Nat.sub_self, List.drop_eq_getElem_cons hi,
    List.filter_cons_of_pos ha]
  rfl

theorem rank_lt (h : l[i]? = some a) (ha : shown a = true) :
    rank shown l i < (l.filter shown).length :=
  (List.getElem?_eq_some_iff.1 (getElem?_filter_rank h ha)).1

/-- **A seek among the shown entries** ends at the position from which on they are not
below the target. -/
theorem lowerBound_filter {κ ν : Type*} {cmp : κ → κ → Ordering} {image : α → κ × ν} {target : κ}
    (hbefore : ∀ k a, k < i → l[k]? = some a → shown a = true → cmp (image a).1 target = .lt)
    (hbehind : ∀ k a, i ≤ k → l[k]? = some a → shown a = true → (cmp (image a).1 target).isGE) :
    lowerBound cmp ((l.filter shown).map image) target = rank shown l i := by
  rw [filter_split i, List.map_append, lowerBound_append_of_lt, lowerBound_eq_zero,
    List.length_map, rank, List.countP_eq_length_filter, Nat.add_zero]
  · intro e he
    obtain ⟨a, ha, rfl⟩ := List.mem_map.1 he
    obtain ⟨hmem, ha⟩ := List.mem_filter.1 ha
    obtain ⟨k, hk⟩ := List.mem_iff_getElem?.1 hmem
    rw [List.getElem?_drop] at hk
    exact hbehind (i + k) a (Nat.le_add_right i k) hk ha
  · intro e he
    obtain ⟨a, ha, rfl⟩ := List.mem_map.1 he
    obtain ⟨hmem, ha⟩ := List.mem_filter.1 ha
    obtain ⟨k, hk⟩ := List.mem_iff_getElem?.1 hmem
    rw [List.getElem?_take] at hk
    split at hk
    · rename_i hlt
      exact hbefore k a hlt hk ha
    · cases hk

end Cursor
