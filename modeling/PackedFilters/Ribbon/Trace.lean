import PackedFilters.Ribbon.Solution

/-!
# The iterations of the builder's loops

`eliminateLoop` says what the elimination of a row returns; here its iterations are listed
(`rowTrace`), and so are the tests of the back substitution (`substituteTests`) and the
positions that its counter takes (`backSubstitutePositions`), so that their number and their
order can be spoken of.

The bands of a table end below a `bound` (`PivotTable.BandsBelow`), which survives the
exclusive or of rows that start at different places.  With `slot_count` as the bound it keeps
every position inside the vectors, whatever the order of the rows; with the end of the last
row's band it leaves a row of a sorted list no more than 64 iterations.  In another order
there can be more: `rowChain` is a list of rows each of which hands the next row on by one
slot.

The back substitution counts in an `int`.  Below 2^31 slots that is the slot count minus one
to begin with, and its bound test never cuts a coefficient off; at 2^31 slots the start of
the counter overflows, and nothing is said of what comes then.

* `eliminateTrace_spec` — the iterations of one row under a bound;
* `elimination_iterations` — the loops of `TryBuildRibbon` on any list of rows;
* `rowChain_sixtyEight` — a row of an unsorted list that takes 68 iterations.
-/

namespace PackedFilters.Ribbon

deriving instance DecidableEq for PivotTable

/-! ## The loops, iteration by iteration -/

/-- One iteration on a row: where it starts, and how many zeros it counts there. -/
structure Iteration where
  position : ℕ
  leadingZeroes : ℕ
  deriving DecidableEq, Repr

/-- The position an iteration reaches, as a number that is not wrapped. -/
def Iteration.reached (it : Iteration) : ℕ := it.position + it.leadingZeroes

/-- The iterations of `eliminateLoop`. -/
def eliminateTrace (slotCount : ℕ) (t : PivotTable) : ℕ → UInt64 → ℕ → List Iteration
  | 0, _, _ => []
  | rounds + 1, coefficients, position =>
    if coefficients = 0 then []
    else
      let leadingZeroes := countTrailingZeros64 coefficients
      let reached := u32 (position + leadingZeroes)
      let rest :=
        if slotCount ≤ reached then []
        else if t.pivots.getD reached 0 = 0 then []
        else eliminateTrace slotCount t rounds
          (shr64 coefficients leadingZeroes ^^^ t.pivots.getD reached 0) reached
      ⟨position, leadingZeroes⟩ :: rest

/-- The iterations of `eliminateRow`. -/
def rowTrace (slotCount : ℕ) (t : PivotTable) (row : RibbonRow) : List Iteration :=
  eliminateTrace slotCount t (slotCount + 2) row.coefficients row.start

/-- The evaluations of the condition of `substituteLoop`: the value of `remaining` and
that of `position + relative`. -/
def substituteTests (slots : ℤ) (position : ℕ) : ℕ → UInt64 → ℕ → List (UInt64 × ℕ)
  | 0, _, _ => []
  | rounds + 1, remaining, relative =>
    let rest :=
      if remaining ≠ 0 ∧ (position + relative : ℤ) < slots then
        substituteTests slots position rounds (shr64 remaining 1) (relative + 1)
      else []
    (remaining, position + relative) :: rest

/-- The tests made for the pivot of one position; 63 coefficients are behind its leading
one. -/
def slotTests (t : PivotTable) (slotCount position : ℕ) : List (UInt64 × ℕ) :=
  substituteTests (intOfU32 slotCount) position 64 (shr64 (t.pivots.getD position 0) 1) 1

/-- The values of the counter of the outer loop, an `int`. -/
def positionsDown : ℕ → ℤ → List ℤ
  | 0, _ => []
  | rounds + 1, position =>
    if 0 ≤ position then position :: positionsDown rounds (position - 1) else []

/-- The positions the back substitution visits; none is at or above `slot_count`.  The start
of the counter is taken as a number without bounds, and `backSubstitute` faults where that is
no `int`. -/
def backSubstitutePositions (slotCount : ℕ) : List ℤ :=
  positionsDown (slotCount + 1) (intOfU32 slotCount - 1)

/-! ## One row -/

section Row

variable {slotCount bound : ℕ} {t : PivotTable}

/-- The next iteration starts where the last one got to, and moves on from there. -/
def Iteration.Next (a b : Iteration) : Prop := b.position = a.reached ∧ 0 < b.leadingZeroes

@[simp] theorem eliminateTrace_zero (rounds position : ℕ) :
    eliminateTrace slotCount t rounds 0 position = [] := by
  cases rounds with
  | zero => rfl
  | succ rounds =>
    unfold eliminateTrace
    exact if_pos rfl

theorem eliminateTrace_head {rounds position : ℕ} {c : UInt64} {it : Iteration}
    (h : it ∈ (eliminateTrace slotCount t rounds c position).head?) :
    c ≠ 0 ∧ it = ⟨position, countTrailingZeros64 c⟩ := by
  cases rounds with
  | zero => exact absurd h (by simp [eliminateTrace])
  | succ rounds =>
    unfold eliminateTrace at h
    by_cases hc : c = 0
    · rw [if_pos hc] at h
      exact absurd h (by simp)
    · rw [if_neg hc] at h
      exact ⟨hc, by simpa using h.symm⟩

theorem countTrailingZeros64_odd {c : UInt64} (hodd : c.toNat.testBit 0 = true) :
    c ≠ 0 ∧ countTrailingZeros64 c = 0 := by
  have hc : c ≠ 0 := by
    rintro rfl
    exact absurd hodd (by simp)
  refine ⟨hc, ?_⟩
  by_contra hz
  have hclear := (countTrailingZeros64_spec hc).2.2 0 (Nat.pos_of_ne_zero hz)
  rw [hodd] at hclear
  exact absurd hclear (by simp)

/-- A loop with more rounds than iterations ends. -/
theorem eliminateLoop_ends :
    ∀ (rounds : ℕ) (c : UInt64) (r : UInt32) (position : ℕ),
      (eliminateTrace slotCount t rounds c position).length < rounds →
      ∃ out, eliminateLoop slotCount t rounds c r position = .ok out := by
  have hstop (reason : Prop) [Decidable reason] : ∃ out : Option PivotTable,
      (if reason then .ok none else .ok (some t) : Checked (Option PivotTable)) = .ok out := by
    by_cases h : reason
    · exact ⟨none, if_pos h⟩
    · exact ⟨some t, if_neg h⟩
  intro rounds
  induction rounds with
  | zero => exact fun c r position h => absurd h (Nat.not_lt_zero _)
  | succ rounds ih =>
    intro c r position h
    unfold eliminateLoop
    unfold eliminateTrace at h
    by_cases hc : c = 0
    · rw [if_pos hc]
      exact hstop _
    · rw [if_neg hc] at h ⊢
      dsimp only at h ⊢
      by_cases hbehind : slotCount ≤ u32 (position + countTrailingZeros64 c)
      · rw [if_pos hbehind]
        exact hstop _
      · rw [if_neg hbehind] at h ⊢
        split
        · exact ⟨_, rfl⟩
        · rename_i hpivot
          rw [if_neg hpivot, List.length_cons, Nat.add_lt_add_iff_right] at h
          exact ih _ _ _ h

/-- What the iterations of a row are like: they stay below the bound, every one of them
but the first moves on, and there are no more than positions left. -/
structure TraceSpec (bound : ℕ) (c : UInt64) (position : ℕ) (trace : List Iteration) : Prop where
  reached_lt : ∀ it ∈ trace, it.reached < bound
  chain : trace.IsChain Iteration.Next
  length_le : trace.length ≤ bound - (position + countTrailingZeros64 c)

/-- **The iterations of one row.**  The lowest coefficient cancels against an odd
pivot, so the next one is higher; the pivot's own band ends below the bound too. -/
theorem eliminateTrace_spec (ht : t.BandsBelow bound) (hbound : bound ≤ slotCount)
    (hslots : slotCount < 4294967296) :
    ∀ (rounds : ℕ) (c : UInt64) (position : ℕ), (∀ i ∈ slotsOf position c, i < bound) →
      TraceSpec bound c position (eliminateTrace slotCount t rounds c position) := by
  intro rounds
  induction rounds with
  | zero => exact fun c position _ => ⟨by simp [eliminateTrace], .nil, Nat.zero_le _⟩
  | succ rounds ih =>
    intro c position hbelow
    unfold eliminateTrace
    by_cases hc : c = 0
    · rw [if_pos hc]
      exact ⟨by simp, .nil, Nat.zero_le _⟩
    · have hlt : position + countTrailingZeros64 c < bound :=
        hbelow _ (lowest_mem_slotsOf position hc)
      have hone : TraceSpec bound c position [⟨position, countTrailingZeros64 c⟩] :=
        ⟨by simpa [Iteration.reached] using hlt, .singleton _, by
          rw [List.length_singleton]
          omega⟩
      rw [if_neg hc]
      simp only [u32_of_lt (by omega : position + countTrailingZeros64 c < 4294967296),
        if_neg (by omega : ¬ slotCount ≤ position + countTrailingZeros64 c)]
      by_cases hfree : t.pivots.getD (position + countTrailingZeros64 c) 0 = 0
      · rw [if_pos hfree]
        exact hone
      · rw [if_neg hfree]
        set reached := position + countTrailingZeros64 c with hreached
        set d := shr64 c (countTrailingZeros64 c) ^^^ t.pivots.getD reached 0 with hd
        have hrest := ih d reached (ht.xor (by rwa [hreached, slotsOf_shr64 position hc]))
        have heven : d.toNat.testBit 0 = false := even_xor (odd_shr64 hc) (ht.odd reached hfree)
        refine ⟨List.forall_mem_cons.2 ⟨hlt, hrest.reached_lt⟩,
          List.isChain_cons.2 ⟨fun it hit => ?_, hrest.chain⟩, ?_⟩
        · obtain ⟨hne, rfl⟩ := eliminateTrace_head hit
          exact ⟨rfl, countTrailingZeros64_pos hne heven⟩
        · rw [List.length_cons]
          by_cases hne : d = 0
          · rw [hne, eliminateTrace_zero, List.length_nil]
            omega
          · have hpos := countTrailingZeros64_pos hne heven
            have hle := hrest.length_le
            omega

/-- A row that is stored keeps the bands of the table below the bound. -/
theorem eliminateLoop_bandsBelow (ht : t.BandsBelow bound) (hbound : bound ≤ slotCount)
    (hslots : slotCount < 4294967296) :
    ∀ (rounds : ℕ) (c : UInt64) (r : UInt32) (position : ℕ),
      (∀ i ∈ slotsOf position c, i < bound) → ∀ t',
      eliminateLoop slotCount t rounds c r position = .ok (some t') → t'.BandsBelow bound := by
  intro rounds
  induction rounds with
  | zero =>
    intro c r position _ t' h
    exact absurd h (by simp [eliminateLoop])
  | succ rounds ih =>
    intro c r position hbelow t' h
    unfold eliminateLoop at h
    by_cases hc : c = 0
    · rw [if_pos hc] at h
      split at h
      · cases h
      · cases h
        exact ht
    · have hlt : position + countTrailingZeros64 c < bound :=
        hbelow _ (lowest_mem_slotsOf position hc)
      rw [← slotsOf_shr64 position hc] at hbelow
      rw [if_neg hc] at h
      simp only [u32_of_lt (by omega : position + countTrailingZeros64 c < 4294967296),
        if_neg (by omega : ¬ slotCount ≤ position + countTrailingZeros64 c)] at h
      split at h
      · cases h
        exact ht.store (odd_shr64 hc) hbelow r
      · exact ih _ _ _ (ht.xor hbelow) t' h

end Row

/-! ## All rows -/

theorem eliminateRows_bandsBelow {slotCount bound : ℕ} (hbound : bound ≤ slotCount)
    (hslots : slotCount < 4294967296) :
    ∀ (rows : List RibbonRow) (t : PivotTable), t.BandsBelow bound →
      (∀ row ∈ rows, ∀ i ∈ slotsOf row.start row.coefficients, i < bound) → ∀ t',
      eliminateRows slotCount rows t = .ok (some t') → t'.BandsBelow bound := by
  intro rows
  induction rows with
  | nil =>
    intro t ht _ t' h
    cases h
    exact ht
  | cons row rows ih =>
    intro t ht hrows t' h
    obtain ⟨hrow, hrest⟩ := List.forall_mem_cons.1 hrows
    rw [eliminateRows] at h
    cases hout : eliminateRow slotCount t row with
    | error e =>
      rw [hout, error_bind] at h
      cases h
    | ok out =>
      rw [hout, ok_bind] at h
      cases out with
      | none => cases h
      | some t₁ =>
        exact ih t₁ (eliminateLoop_bandsBelow ht hbound hslots _ _ _ _ hrow t₁ hout) hrest t' h

/-- Rows as `TryBuildRibbon` draws them: a whole band fits behind `start`, and the
coefficients are odd. -/
def RibbonRow.Drawn (slotCount : ℕ) (row : RibbonRow) : Prop :=
  row.start + 64 ≤ slotCount ∧ row.coefficients.toNat.testBit 0 = true

/-- A row whose loop ends as it should. -/
structure RowEnds (slotCount : ℕ) (t : PivotTable) (row : RibbonRow) : Prop where
  /-- The loop ends, with a table or with `return false`. -/
  ends : ∃ out, eliminateRow slotCount t row = .ok out
  /-- The test `position >= slot_count` fails in every iteration. -/
  reached_lt : ∀ it ∈ rowTrace slotCount t row, it.reached < slotCount
  /-- Every iteration but the first moves on. -/
  chain : (rowTrace slotCount t row).IsChain Iteration.Next
  length_le : (rowTrace slotCount t row).length ≤ slotCount - row.start

/-- The invariant of the stored pivots, with their highest bits. -/
def PivotTable.PivotsFit (t : PivotTable) (slotCount : ℕ) : Prop :=
  ∀ p, t.pivots.getD p 0 ≠ 0 → (t.pivots.getD p 0).toNat.testBit 0 = true ∧
    p + (t.pivots.getD p 0).toNat.log2 < slotCount

theorem PivotTable.BandsBelow.pivotsFit {t : PivotTable} {slotCount : ℕ}
    (h : t.BandsBelow slotCount) : t.PivotsFit slotCount := by
  intro p hp
  refine ⟨h.odd p hp, h.below p _ (mem_slotsOf.2 ⟨Nat.le_add_right .., ?_⟩)⟩
  rw [Nat.add_sub_cancel_left]
  exact Nat.testBit_log2 (toNat_ne_zero hp)

/-! ## Back substitution -/

theorem positionsDown_eq : ∀ (n rounds : ℕ), n < rounds →
    positionsDown rounds ((n : ℤ) - 1) = (List.range n).reverse.map fun p : ℕ => (p : ℤ) := by
  intro n
  induction n with
  | zero =>
    intro rounds hrounds
    obtain ⟨rounds, rfl⟩ := Nat.exists_eq_succ_of_ne_zero hrounds.ne'
    rfl
  | succ n ih =>
    intro rounds hrounds
    obtain ⟨rounds, rfl⟩ := Nat.exists_eq_succ_of_ne_zero (Nat.ne_of_gt (Nat.zero_lt_of_lt hrounds))
    have hself : ((n + 1 : ℕ) : ℤ) - 1 = n := by omega
    rw [hself, positionsDown, if_pos (Int.natCast_nonneg n), ih rounds (by omega),
      List.range_succ, List.reverse_append, List.reverse_singleton, List.singleton_append,
      List.map_cons]

theorem backSubstitutePositions_eq {slotCount : ℕ} (hslots : slotCount < 4294967296) :
    backSubstitutePositions slotCount
      = (List.range (intOfU32 slotCount).toNat).reverse.map fun p : ℕ => (p : ℤ) := by
  unfold backSubstitutePositions intOfU32
  split
  · rw [Int.toNat_natCast]
    exact positionsDown_eq slotCount _ (Nat.lt_succ_self _)
  · have hneg : (slotCount : ℤ) - 4294967296 - 1 < 0 := by omega
    rw [positionsDown, if_neg (by omega), Int.toNat_of_nonpos (by omega)]
    rfl

theorem substituteBelow_eq_foldl (t : PivotTable) (slotCount resultBits : ℕ) :
    ∀ (bound : ℕ) (solution : List UInt32),
      substituteBelow t slotCount resultBits bound solution
        = (List.range bound).reverse.foldl
            (fun solution position => substituteSlot t slotCount resultBits position solution)
            solution := by
  intro bound
  induction bound with
  | zero => exact fun solution => rfl
  | succ position ih =>
    intro solution
    rw [substituteBelow, ih, List.range_succ, List.reverse_append, List.reverse_singleton,
      List.singleton_append, List.foldl_cons]

/-- Unless the start of its counter overflows, the back substitution solves the positions
it visits, one after the other. -/
theorem backSubstitute_eq_foldl (t : PivotTable) {slotCount : ℕ}
    (hslots : slotCount < 4294967296) (hint : slotCount ≠ 2147483648) (resultBits : ℕ) :
    backSubstitute t slotCount resultBits
      = .ok ((backSubstitutePositions slotCount).foldl
          (fun solution position =>
            substituteSlot t slotCount resultBits position.toNat solution)
          (List.replicate slotCount 0)) := by
  have hstart : ¬ intOfU32 slotCount - 1 < -2147483648 := by
    unfold intOfU32
    split <;> omega
  rw [backSubstitute, if_neg hstart, substituteBelow_eq_foldl, backSubstitutePositions_eq hslots,
    List.foldl_map]
  simp only [Int.toNat_natCast]

/-- The loop reads the slots at which a test succeeds on an odd `remaining`. -/
theorem substituteLoop_eq_foldl (solution : List UInt32) (slots : ℤ) (position : ℕ) :
    ∀ (rounds : ℕ) (remaining : UInt64) (relative : ℕ) (value : UInt32),
      substituteLoop solution slots position rounds remaining relative value
        = (substituteTests slots position rounds remaining relative).foldl
            (fun value test =>
              if (test.1 ≠ 0 ∧ (test.2 : ℤ) < slots) ∧ test.1 &&& 1 ≠ 0 then
                value ^^^ solution.getD test.2 0
              else value) value := by
  intro rounds
  induction rounds with
  | zero => exact fun remaining relative value => rfl
  | succ rounds ih =>
    intro remaining relative value
    unfold substituteLoop substituteTests
    by_cases htest : remaining ≠ 0 ∧ (position + relative : ℤ) < slots
    · have htest' : remaining ≠ 0 ∧ ((position + relative : ℕ) : ℤ) < slots :=
        ⟨htest.1, by exact_mod_cast htest.2⟩
      rw [if_pos htest, if_pos htest, List.foldl_cons, ih]
      congr 1
      by_cases hbit : remaining &&& 1 ≠ 0
      · rw [if_pos hbit]
        exact (if_pos ⟨htest', hbit⟩).symm
      · rw [if_neg hbit]
        exact (if_neg fun h => hbit h.2).symm
    · have htest' : ¬ (remaining ≠ 0 ∧ ((position + relative : ℕ) : ℤ) < slots) := fun h =>
        htest ⟨h.1, by exact_mod_cast h.2⟩
      rw [if_neg htest, if_neg htest, List.foldl_cons, List.foldl_nil]
      exact (if_neg fun h => htest' h.1).symm

/-- The tests of one pivot: the bound on the position holds as long as coefficients
remain, so that the loop ends with none left. -/
theorem substituteTests_spec {slotCount position : ℕ} :
    ∀ (rounds : ℕ) (remaining : UInt64) (relative : ℕ), remaining.toNat < 2 ^ rounds →
      (∀ i ∈ slotsOf (position + relative) remaining, i < slotCount) →
      (∀ test ∈ substituteTests slotCount position (rounds + 1) remaining relative,
          test.1 ≠ 0 → test.2 < slotCount) ∧
        ∃ n, (substituteTests slotCount position (rounds + 1) remaining relative).getLast?
          = some (0, n) := by
  have hend (rounds relative : ℕ) : substituteTests slotCount position (rounds + 1) 0 relative
      = [(0, position + relative)] := by
    unfold substituteTests
    simp
  intro rounds
  induction rounds with
  | zero =>
    intro remaining relative hlt _
    have hzero : remaining = 0 := UInt64.toNat_inj.1 (by
      rw [pow_zero] at hlt
      rw [UInt64.toNat_zero]
      omega)
    rw [hzero, hend]
    exact ⟨by simp, position + relative, rfl⟩
  | succ rounds ih =>
    intro remaining relative hlt hbelow
    by_cases hzero : remaining = 0
    · rw [hzero, hend]
      exact ⟨by simp, position + relative, rfl⟩
    · have hbound : position + relative < slotCount := by
        have := hbelow _ (lowest_mem_slotsOf (position + relative) hzero)
        omega
      have hhalf : (shr64 remaining 1).toNat < 2 ^ rounds := by
        rw [toNat_shr64 remaining (by norm_num)]
        omega
      obtain ⟨htests, n, hlast⟩ := ih (shr64 remaining 1) (relative + 1) hhalf
        fun i hi => hbelow i (slotsOf_shr64_one_subset _ _ hi)
      rw [substituteTests, if_pos ⟨hzero, by omega⟩]
      refine ⟨List.forall_mem_cons.2 ⟨fun _ => hbound, htests⟩, n, ?_⟩
      rw [List.getLast?_cons, hlast, Option.getD_some]

theorem slotTests_spec {slotCount : ℕ} {t : PivotTable} (ht : t.BandsBelow slotCount)
    (hint : slotCount < 2147483648) (position : ℕ) :
    (∀ test ∈ slotTests t slotCount position, test.1 ≠ 0 → (test.2 : ℤ) < intOfU32 slotCount) ∧
      ∃ n, (slotTests t slotCount position).getLast? = some (0, n) := by
  have hhalf : (shr64 (t.pivots.getD position 0) 1).toNat < 2 ^ 63 := by
    have := (t.pivots.getD position 0).toNat_lt
    rw [toNat_shr64 _ (by norm_num)]
    omega
  have h := substituteTests_spec 63 _ 1 hhalf fun i hi =>
    ht.below position i (slotsOf_shr64_one_subset _ _ hi)
  rw [slotTests, intOfU32_of_lt hint]
  exact ⟨fun test htest hne => by exact_mod_cast h.1 test htest hne, h.2⟩

/-! ## The loops of the builder -/

/-- The loops of `TryBuildRibbon` on rows in the order given: `done` are the rows that
were processed when the table is `t`. -/
structure LoopsFit (slotCount : ℕ) (rows : List RibbonRow) : Prop where
  pivots : ∀ done rest t, rows = done ++ rest →
    eliminateRows slotCount done (PivotTable.empty slotCount) = .ok (some t) →
      t.PivotsFit slotCount
  rowEnds : ∀ done row rest t, rows = done ++ row :: rest →
    eliminateRows slotCount done (PivotTable.empty slotCount) = .ok (some t) →
      RowEnds slotCount t row
  /-- In the order `std::sort` leaves, 64 iterations are enough. -/
  sorted : rows.Pairwise (fun a b => a.start ≤ b.start) →
    ∀ done row rest t, rows = done ++ row :: rest →
      eliminateRows slotCount done (PivotTable.empty slotCount) = .ok (some t) →
        (rowTrace slotCount t row).length ≤ 64
  ends : ∃ out, eliminateRows slotCount rows (PivotTable.empty slotCount) = .ok out
  /-- Below 2^31 slots, where `static_cast<int>` keeps the slot count, the back substitution
  visits every position from the last one down; it ends every pivot with no coefficient left,
  and its bound on the position holds until then. -/
  tests : slotCount < 2147483648 →
    backSubstitutePositions slotCount = (List.range slotCount).reverse.map (fun p : ℕ => (p : ℤ)) ∧
      ∀ t, eliminateRows slotCount rows (PivotTable.empty slotCount) = .ok (some t) →
        ∀ position < slotCount, t.pivots.getD position 0 ≠ 0 →
          (∀ test ∈ slotTests t slotCount position, test.1 ≠ 0 → test.2 < slotCount) ∧
            ∃ n, (slotTests t slotCount position).getLast? = some (0, n)

theorem RibbonRow.Drawn.slots_lt {slotCount : ℕ} {row : RibbonRow} (h : row.Drawn slotCount) :
    ∀ i ∈ slotsOf row.start row.coefficients, i < slotCount := fun _ hi =>
  (slotsOf_lt hi).trans_le h.1

/-- The table after any rows that were drawn. -/
theorem bandsBelow_of_drawn {slotCount : ℕ} (hslots : slotCount < 4294967296)
    {rows : List RibbonRow} (hrows : ∀ row ∈ rows, row.Drawn slotCount) {t : PivotTable}
    (h : eliminateRows slotCount rows (PivotTable.empty slotCount) = .ok (some t)) :
    t.BandsBelow slotCount :=
  eliminateRows_bandsBelow le_rfl hslots rows _ (PivotTable.bandsBelow_empty ..)
    (fun row hrow => (hrows row hrow).slots_lt) t h

theorem RibbonRow.Drawn.fits {slotCount : ℕ} {row : RibbonRow} (h : row.Drawn slotCount) :
    row.Fits slotCount 32 where
  below := h.slots_lt
  result_lt := row.result.toNat_lt

/-- **The elimination loop.**  For rows in any order it keeps its pivots odd and inside
the vectors, never takes the branch behind the last slot, and ends every row after at
most `slot_count - start` iterations, or 64 when the rows are sorted.  Below 2^31 slots the
bound test of the back substitution cuts off no coefficient. -/
theorem elimination_iterations (slotCount : ℕ) (hslots : slotCount < 4294967296)
    (rows : List RibbonRow) (hrows : ∀ row ∈ rows, row.Drawn slotCount) :
    LoopsFit slotCount rows where
  pivots done rest t hsplit h := by
    subst hsplit
    exact (bandsBelow_of_drawn hslots (List.forall_mem_append.1 hrows).1 h).pivotsFit
  rowEnds done row rest t hsplit h := by
    subst hsplit
    obtain ⟨hdone, hrest⟩ := List.forall_mem_append.1 hrows
    have hrow : row.Drawn slotCount := (List.forall_mem_cons.1 hrest).1
    have htrace := eliminateTrace_spec (bandsBelow_of_drawn hslots hdone h) le_rfl hslots
      (slotCount + 2) _ _ hrow.slots_lt
    have hle := htrace.length_le
    rw [(countTrailingZeros64_odd hrow.2).2, Nat.add_zero] at hle
    exact ⟨eliminateLoop_ends _ _ _ _ (by omega), htrace.reached_lt, htrace.chain, hle⟩
  sorted hsorted done row rest t hsplit h := by
    subst hsplit
    obtain ⟨hdone, hrest⟩ := List.forall_mem_append.1 hrows
    have hrow : row.Drawn slotCount := (List.forall_mem_cons.1 hrest).1
    -- the rows before this one start no later, so no band ends behind its own
    have hbefore : ∀ r ∈ done, ∀ i ∈ slotsOf r.start r.coefficients, i < row.start + 64 := by
      intro r hr i hi
      have hstart := (List.pairwise_append.1 hsorted).2.2 r hr row List.mem_cons_self
      have := slotsOf_lt hi
      omega
    have ht := eliminateRows_bandsBelow hrow.1 hslots done _
      (PivotTable.bandsBelow_empty ..) hbefore t h
    have hle := (eliminateTrace_spec ht hrow.1 hslots (slotCount + 2) row.coefficients row.start
      fun i hi => slotsOf_lt hi).length_le
    rw [(countTrailingZeros64_odd hrow.2).2] at hle
    rw [rowTrace]
    omega
  ends := by
    obtain ⟨out, hout, -⟩ := eliminateRows_absorbs 32 hslots rows _
      (PivotTable.fits_empty slotCount 32) fun r hr => (hrows r hr).fits
    exact ⟨out, hout⟩
  tests hint := by
    have hcast := intOfU32_of_lt hint
    refine ⟨?_, fun t h position _ _ => ?_⟩
    · rw [backSubstitutePositions_eq hslots, hcast, Int.toNat_natCast]
    · obtain ⟨htests, hlast⟩ := slotTests_spec (bandsBelow_of_drawn hslots hrows h) hint position
      refine ⟨fun test htest hne => ?_, hlast⟩
      have hlt := htests test htest hne
      rw [hcast] at hlt
      exact_mod_cast hlt

/-- Sixty-seven rows of two slots each, one behind the other. -/
def rowChain : List RibbonRow := (List.range 67).map fun position => ⟨position, 3, 0⟩

/-- The table after these rows: every one of them is the pivot of its own first slot. -/
def rowChainTable : PivotTable where
  pivots := List.replicate 67 3 ++ List.replicate 64 0
  pivotResults := List.replicate 131 0

/-- A row at the first slot, processed behind the chain, walks it to the end.  And in 2^31
slots the back substitution does not get as far as its bound test. -/
theorem rowChain_sixtyEight :
    (∀ row ∈ rowChain ++ [⟨0, 1, 0⟩], row.Drawn 131) ∧
      eliminateRows 131 rowChain (PivotTable.empty 131) = .ok (some rowChainTable) ∧
      (rowTrace 131 rowChainTable ⟨0, 1, 0⟩).length = 68 ∧
      ∀ t resultBits, backSubstitute t 2147483648 resultBits = .error .signedOverflow := by
  refine ⟨?_, ?_, ?_, fun t resultBits => rfl⟩
  · unfold RibbonRow.Drawn
    decide
  · decide +kernel
  · decide +kernel

/-- Two rows at the first of 64 slots. -/
theorem elimination_iterations_two : LoopsFit 64 [⟨0, 3, 1⟩, ⟨0, 1, 0⟩] :=
  elimination_iterations 64 (by norm_num) _ (by
    unfold RibbonRow.Drawn
    decide)

end PackedFilters.Ribbon
