import PackedFilters.Ribbon.Elimination

/-!
# Back substitution

The table of pivots is solved from the last slot down.  A pivot at a position says what the
slot there has to be when the slots behind it are known, so the loop meets every pivot with
everything it needs; slots without a pivot stay zero.  A vector of slots is an assignment
over `XorNat` (`assignment`); `Substituted` is the invariant of the loop: the pivots from a
position on are satisfied, everything else is still zero.

The solution with free slots zero is one of many, but it is determined by the system of the
rows alone, not by the pivots that the elimination happened to store.  That is where the
order of the rows drops out: two orders end in different tables with the same solution.

* `backSubstitute_substituted` — the result satisfies every pivot, its free slots are zero,
  and its values keep the result's width;
* `Solution` — a vector of slots solves the rows, with free slots zero;
* `solveRows_spec` — elimination and back substitution together: a solution of the rows, or
  `none` when they have none;
* `solveRows_perm` — the outcome does not depend on the order of the rows.

The number of slots is below 2^31 in all of this, so that the counter of the loop holds it.
-/

namespace PackedFilters.Ribbon

open Gf2System

/-! ## Dot products with slots -/

/-- Split the slots of a word at its lowest bit. -/
theorem dot_slotsOf_step (position : ℕ) (c : UInt64) (x : ℕ → XorNat) :
    dot (slotsOf position c) x
      = (if c.toNat.testBit 0 = true then x position else 0)
        + dot (slotsOf (position + 1) (shr64 c 1)) x := by
  have hnot : position ∉ slotsOf (position + 1) (shr64 c 1) := by
    rw [mem_slotsOf]
    omega
  have hmem (i : ℕ) (hi : i ≠ position) :
      i ∈ slotsOf (position + 1) (shr64 c 1) ↔ i ∈ slotsOf position c := by
    refine ⟨fun h => slotsOf_shr64_one_subset position c h, fun h => ?_⟩
    obtain ⟨hle, hbit⟩ := mem_slotsOf.1 h
    have hlt : position < i := lt_of_le_of_ne hle hi.symm
    rw [mem_slotsOf, testBit_shr64 c (by norm_num)]
    exact ⟨hlt, by rwa [show 1 + (i - (position + 1)) = i - position by omega]⟩
  by_cases hbit : c.toNat.testBit 0 = true
  · have hin : position ∈ slotsOf position c :=
      mem_slotsOf.2 ⟨le_rfl, by rwa [Nat.sub_self]⟩
    have herase : (slotsOf position c).erase position = slotsOf (position + 1) (shr64 c 1) := by
      ext i
      rw [Finset.mem_erase]
      by_cases hi : i = position
      · subst hi
        simp [hnot]
      · simp [hi, hmem i hi]
    rw [if_pos hbit, dot_eq_add_erase hin, herase]
  · have hsame : slotsOf position c = slotsOf (position + 1) (shr64 c 1) := by
      ext i
      by_cases hi : i = position
      · subst hi
        rw [iff_false_right hnot, mem_slotsOf, Nat.sub_self]
        exact fun h => hbit h.2
      · exact (hmem i hi).symm
    rw [if_neg hbit, zero_add, hsame]

/-- Values of one width add up to a value of that width. -/
theorem toNat_dot_lt {slots : List UInt32} {width : ℕ}
    (h : ∀ i, (slots.getD i 0).toNat < 2 ^ width) (s : Finset ℕ) :
    (dot s (assignment slots)).toNat < 2 ^ width :=
  XorNat.toNat_sum_lt s _ fun i _ => h i

/-- Writing a slot changes no sum over the slots behind it. -/
theorem dot_set_of_lt {slots : List UInt32} {position : ℕ} {s : Finset ℕ}
    (h : ∀ i ∈ s, position < i) (v : UInt32) :
    dot s (assignment (slots.set position v)) = dot s (assignment slots) := by
  refine dot_congr fun i hi => ?_
  rw [assignment, assignment, getD_set_ne _ (h i hi).ne]

/-! ## The loops -/

/-- The inner loop adds the slots of the remaining coefficients; its bound on the
position never cuts one off. -/
theorem substituteLoop_eq {slots : List UInt32} {slotCount position : ℕ} :
    ∀ (rounds : ℕ) (remaining : UInt64) (relative : ℕ) (value : UInt32),
      remaining.toNat < 2 ^ rounds →
      (∀ i ∈ slotsOf (position + relative) remaining, i < slotCount) →
      XorNat.ofNat
          (substituteLoop slots slotCount position rounds remaining relative value).toNat
        = XorNat.ofNat value.toNat
          + dot (slotsOf (position + relative) remaining) (assignment slots) := by
  intro rounds
  induction rounds with
  | zero =>
    intro remaining relative value hlt _
    have hzero : remaining = 0 := UInt64.toNat_inj.1 (by
      rw [pow_zero] at hlt
      rw [UInt64.toNat_zero]
      omega)
    rw [substituteLoop, hzero, slotsOf_zero, dot_empty, add_zero]
  | succ rounds ih =>
    intro remaining relative value hlt hbelow
    rw [substituteLoop]
    by_cases hzero : remaining = 0
    · rw [if_neg fun h => h.1 hzero, hzero, slotsOf_zero, dot_empty, add_zero]
    · have hbound : position + relative < slotCount := by
        have := hbelow _ (lowest_mem_slotsOf (position + relative) hzero)
        omega
      have hstep := dot_slotsOf_step (position + relative) remaining (assignment slots)
      have hsub : ∀ i ∈ slotsOf (position + (relative + 1)) (shr64 remaining 1),
          i < slotCount := fun i hi => hbelow i (slotsOf_shr64_one_subset _ _ hi)
      have hhalf : (shr64 remaining 1).toNat < 2 ^ rounds := by
        rw [toNat_shr64 remaining (by norm_num)]
        omega
      rw [if_pos ⟨hzero, by omega⟩, ih _ _ _ hhalf hsub, hstep]
      rw [show position + (relative + 1) = position + relative + 1 by omega, ← add_assoc]
      congr 1
      by_cases hbit : remaining &&& 1 = 0
      · rw [if_neg (not_not.2 hbit), if_neg, add_zero]
        rw [(and_one_eq_zero_iff remaining).1 hbit]
        simp
      · have hset : remaining.toNat.testBit 0 = true := by
          rw [and_one_eq_zero_iff] at hbit
          simpa using hbit
        rw [if_pos hbit, if_pos hset, UInt32.toNat_xor, XorNat.ofNat_xor]
        rfl

/-- The invariant of the outer loop, with `bound` the last position done. -/
structure Substituted (t : PivotTable) (slotCount resultBits bound : ℕ) (slots : List UInt32) :
    Prop where
  length : slots.length = slotCount
  width : ∀ i, (slots.getD i 0).toNat < 2 ^ resultBits
  holds : ∀ p, bound ≤ p → t.pivots.getD p 0 ≠ 0 → (t.equation p).Holds (assignment slots)
  zero : ∀ p, p < bound ∨ t.pivots.getD p 0 = 0 → slots.getD p 0 = 0

variable {t : PivotTable} {slotCount resultBits : ℕ}

theorem substituted_start (h : t.Fits slotCount resultBits) :
    Substituted t slotCount resultBits slotCount (List.replicate slotCount 0) where
  length := List.length_replicate ..
  width i := by
    rw [getD_replicate]
    exact Nat.two_pow_pos resultBits
  holds p hp hpivot := by
    rw [List.getD_eq_default _ _ (h.pivots_length ▸ hp)] at hpivot
    exact absurd rfl hpivot
  zero p _ := getD_replicate ..

/-- The value the inner loop computes for a pivot: its result less the slots behind
its own, in the width of the results. -/
theorem PivotTable.Fits.substituteLoop_spec (h : t.Fits slotCount resultBits)
    {slots : List UInt32} (hwidth : ∀ i, (slots.getD i 0).toNat < 2 ^ resultBits)
    (position : ℕ) {value : UInt32}
    (hvalue : value = substituteLoop slots slotCount position 64
      (shr64 (t.pivots.getD position 0) 1) 1 (t.pivotResults.getD position 0)) :
    XorNat.ofNat value.toNat = XorNat.ofNat (t.pivotResults.getD position 0).toNat
        + dot (slotsOf (position + 1) (shr64 (t.pivots.getD position 0) 1)) (assignment slots) ∧
      value.toNat < 2 ^ resultBits := by
  set rest := slotsOf (position + 1) (shr64 (t.pivots.getD position 0) 1) with hrest
  have hbelow : ∀ i ∈ rest, i < slotCount := fun i hi =>
    h.below position i (slotsOf_shr64_one_subset _ _ hi)
  have hsum : XorNat.ofNat value.toNat
      = XorNat.ofNat (t.pivotResults.getD position 0).toNat + dot rest (assignment slots) := by
    rw [hvalue]
    exact substituteLoop_eq 64 _ 1 _ (UInt64.toNat_lt _) hbelow
  refine ⟨hsum, ?_⟩
  have hlt := Nat.xor_lt_two_pow (h.result_lt position) (toNat_dot_lt hwidth rest)
  exact (congrArg XorNat.toNat hsum).trans_lt hlt

/-- Writing that value satisfies the pivot of its position; the pivots behind it do
not mention the slot. -/
theorem Substituted.set (h : t.Fits slotCount resultBits) {position : ℕ}
    (hp : position < slotCount) (hpivot : t.pivots.getD position 0 ≠ 0) {slots : List UInt32}
    (hs : Substituted t slotCount resultBits (position + 1) slots) {value : UInt32}
    (hsum : XorNat.ofNat value.toNat = XorNat.ofNat (t.pivotResults.getD position 0).toNat
      + dot (slotsOf (position + 1) (shr64 (t.pivots.getD position 0) 1)) (assignment slots))
    (hwidth : value.toNat < 2 ^ resultBits) :
    Substituted t slotCount resultBits position (slots.set position value) := by
  have hself : (slots.set position value).getD position 0 = value :=
    getD_set_self (hs.length ▸ hp) ..
  have hother (i : ℕ) (hi : position ≠ i) :
      (slots.set position value).getD i 0 = slots.getD i 0 := getD_set_ne _ hi ..
  refine ⟨(List.length_set ..).trans hs.length, fun i => ?_, fun p hle hpp => ?_,
    fun p hor => ?_⟩
  · by_cases hi : position = i
    · subst hi
      rwa [hself]
    · rw [hother i hi]
      exact hs.width i
  · by_cases hi : position = p
    · -- the pivot just substituted
      subst hi
      have hval : assignment (slots.set position value) position = XorNat.ofNat value.toNat := by
        rw [assignment, hself]
      rw [Equation.Holds, PivotTable.equation, rowEquation, dot_slotsOf_step,
        if_pos (h.odd position hpivot), dot_set_of_lt fun i hi => (mem_slotsOf.1 hi).1, hval, hsum,
        add_assoc, XorNat.add_self, add_zero]
    · have hlt : position < p := lt_of_le_of_ne hle hi
      have hbehind : ∀ i ∈ (t.equation p).support, position < i := fun i hi =>
        hlt.trans_le (mem_slotsOf.1 hi).1
      rw [Equation.Holds, dot_set_of_lt hbehind]
      exact hs.holds p hlt hpp
  · have hne : position ≠ p := by
      rintro rfl
      exact hor.elim (lt_irrefl _) hpivot
    rw [hother p hne]
    exact hs.zero p (hor.imp_left fun hlt => by omega)

/-- One position of the outer loop. -/
theorem Substituted.step (h : t.Fits slotCount resultBits) (hslots : slotCount < 2147483648)
    (hbits : resultBits ≤ 16) {position : ℕ} (hp : position < slotCount) {slots : List UInt32}
    (hs : Substituted t slotCount resultBits (position + 1) slots) :
    Substituted t slotCount resultBits position
      (substituteSlot t slotCount resultBits position slots) := by
  rw [substituteSlot]
  by_cases hfree : t.pivots.getD position 0 = 0
  · rw [if_pos hfree]
    refine ⟨hs.length, hs.width, fun p hle hpivot => ?_, fun p hor => ?_⟩
    · exact hs.holds p (lt_of_le_of_ne hle fun hc => hpivot (hc ▸ hfree)) hpivot
    · exact hs.zero p (hor.imp_left fun hlt => by omega)
  · rw [if_neg hfree, intOfU32_of_lt hslots]
    set value := substituteLoop slots slotCount position 64 (shr64 (t.pivots.getD position 0) 1) 1
      (t.pivotResults.getD position 0) with hvalue
    obtain ⟨hsum, hwidth⟩ := h.substituteLoop_spec hs.width position hvalue
    show Substituted t slotCount resultBits position
      (slots.set position (value &&& bitMask resultBits))
    rw [and_bitMask_of_lt hbits hwidth]
    exact hs.set h hp hfree hsum hwidth

theorem substituteBelow_substituted (h : t.Fits slotCount resultBits)
    (hslots : slotCount < 2147483648) (hbits : resultBits ≤ 16) :
    ∀ (bound : ℕ) (slots : List UInt32), bound ≤ slotCount →
      Substituted t slotCount resultBits bound slots →
      Substituted t slotCount resultBits 0
        (substituteBelow t slotCount resultBits bound slots) := by
  intro bound
  induction bound with
  | zero => exact fun slots _ hs => hs
  | succ position ih =>
    intro slots hle hs
    exact ih _ (by omega) (hs.step h hslots hbits (by omega))

/-- **Back substitution.**  Below 2^31 slots it returns, its result satisfies every pivot
of the table, and the free slots are zero. -/
theorem backSubstitute_substituted (h : t.Fits slotCount resultBits)
    (hslots : slotCount < 2147483648) (hbits : resultBits ≤ 16) :
    ∃ slots, backSubstitute t slotCount resultBits = .ok slots ∧
      Substituted t slotCount resultBits 0 slots := by
  have hstart : ¬ (slotCount : ℤ) - 1 < -2147483648 := by omega
  rw [backSubstitute, intOfU32_of_lt hslots, Int.toNat_natCast, if_neg hstart]
  exact ⟨_, rfl,
    substituteBelow_substituted h hslots hbits slotCount _ le_rfl (substituted_start h)⟩

/-! ## Solving rows -/

/-- A vector of slots solves the rows, and is the one solution whose free slots
are zero. -/
structure Solution (slotCount resultBits : ℕ) (rows : List RibbonRow) (slots : List UInt32) :
    Prop where
  length : slots.length = slotCount
  width : ∀ i, (slots.getD i 0).toNat < 2 ^ resultBits
  holds : RowsHold rows (assignment slots)
  free_zero : ∃ (t : PivotTable) (h : t.Fits slotCount resultBits),
    (∀ x, (t.echelon h).Solves x ↔ RowsHold rows x) ∧
      ∀ i ∉ (t.echelon h).pivots, assignment slots i = 0

/-- **Solving the rows.**  The loops end with a solution, or with `none` when the
rows have no solution at all. -/
theorem solveRows_spec (hslots : slotCount < 2147483648) (hbits : resultBits ≤ 16)
    {rows : List RibbonRow} (hrows : ∀ row ∈ rows, row.Fits slotCount resultBits) :
    (∃ slots, solveRows slotCount resultBits rows = .ok (some slots) ∧
        Solution slotCount resultBits rows slots) ∨
      (solveRows slotCount resultBits rows = .ok none ∧ ¬ ∃ x, RowsHold rows x) := by
  obtain ⟨out, hout, habs⟩ := eliminateRows_absorbs resultBits
    (by omega : slotCount < 4294967296) rows _ (PivotTable.fits_empty slotCount resultBits) hrows
  rw [solveRows, hout, ok_bind]
  cases out with
  | none =>
    refine Or.inr ⟨rfl, ?_⟩
    rintro ⟨x, hx⟩
    exact habs x (PivotTable.solves_empty slotCount x) hx
  | some t =>
    obtain ⟨hfits, hsolves⟩ := habs
    have hrows' (x : ℕ → XorNat) : (t.echelon hfits).Solves x ↔ RowsHold rows x := by
      rw [PivotTable.solves_echelon, hsolves,
        and_iff_right (PivotTable.solves_empty slotCount x)]
    obtain ⟨slots, hslots, hsub⟩ := backSubstitute_substituted hfits hslots hbits
    refine Or.inl ⟨slots, ?_, hsub.length, hsub.width, ?_, t, hfits, hrows', fun i hi => ?_⟩
    · simp only [hslots, ok_bind]
    · rw [← hrows', PivotTable.solves_echelon]
      exact fun p hp => hsub.holds p (Nat.zero_le p) hp
    · rw [PivotTable.mem_echelon_pivots, not_not] at hi
      rw [assignment, hsub.zero i (Or.inr hi)]
      rfl

/-- Rows with the same solutions have the same solution with free slots zero. -/
theorem Solution.unique {rows rows' : List RibbonRow} {slots slots' : List UInt32}
    (hs : Solution slotCount resultBits rows slots)
    (hs' : Solution slotCount resultBits rows' slots')
    (hsame : ∀ x, RowsHold rows x ↔ RowsHold rows' x) : slots = slots' := by
  obtain ⟨t, ht, hsolves, hfree⟩ := hs.free_zero
  obtain ⟨t', ht', hsolves', hfree'⟩ := hs'.free_zero
  have heq : assignment slots = assignment slots' :=
    Echelon.eq_of_same_solutions
      (fun x => (hsolves x).trans ((hsame x).trans (hsolves' x).symm))
      ((hsolves _).2 hs.holds) ((hsolves' _).2 hs'.holds) hfree hfree'
  refine List.ext_getElem (hs.length.trans hs'.length.symm) fun i hi hi' => ?_
  have hval := UInt32.toNat_inj.1 (XorNat.ofNat_injective (congrFun heq i))
  rwa [List.getD_eq_getElem _ _ hi, List.getD_eq_getElem _ _ hi'] at hval

/-- **Order independence.**  Solving the rows in another order gives the same
verdict and the same slots, although the pivots stored on the way differ. -/
theorem solveRows_perm (hslots : slotCount < 2147483648) (hbits : resultBits ≤ 16)
    {rows rows' : List RibbonRow} (hperm : rows.Perm rows')
    (hrows : ∀ row ∈ rows, row.Fits slotCount resultBits) :
    solveRows slotCount resultBits rows = solveRows slotCount resultBits rows' := by
  have hrows' : ∀ row ∈ rows', row.Fits slotCount resultBits :=
    fun row hrow => hrows row (hperm.mem_iff.2 hrow)
  have hsame := rowsHold_perm hperm
  rcases solveRows_spec hslots hbits hrows with ⟨slots, he, hs⟩ | ⟨he, hno⟩
  · rcases solveRows_spec hslots hbits hrows' with ⟨slots', he', hs'⟩ | ⟨he', hno'⟩
    · rw [he, he', hs.unique hs' hsame]
    · exact absurd ⟨_, (hsame _).1 hs.holds⟩ hno'
  · rcases solveRows_spec hslots hbits hrows' with ⟨slots', he', hs'⟩ | ⟨he', hno'⟩
    · exact absurd ⟨_, (hsame _).2 hs'.holds⟩ hno
    · rw [he, he']

end PackedFilters.Ribbon
