import PackedFilters.Lib.Gf2System
import PackedFilters.Ribbon.Model

/-!
# Elimination refines a GF(2) system

A coefficient word at a position stands for a set of slots (`slotsOf`), a row for an equation
over `XorNat` (`rowEquation`), and the table of pivots for an echelon form
(`PivotTable.echelon`).  The builder's loop then adds pivot equations to the row's equation,
which changes nothing for assignments that solve the table.

A row is finished in one of three ways: its leading position has no pivot yet, and the row is
stored there; its coefficients are used up and its result is zero, and the table says it
already; or its result is not zero, and no assignment satisfies the table and the row.  Until
then its lowest coefficient cancels against the pivot of its position, which is odd, so that
it moves up.

* `PivotTable.Fits` — the invariant of the table: every stored pivot is odd, stays below
  `slot_count`, and its result has `result_bits` bits;
* `roundsLeft` — the variant: the slots that are left above the row's position;
* `Absorbs` — what a step may return: a table that says what the old one and the rows say, or
  `none` when no assignment satisfies both;
* `eliminateLoop_absorbs`, `eliminateRows_absorbs` — the loops end, and return just that.
-/

namespace PackedFilters.Ribbon

open Gf2System
open scoped symmDiff

/-! ## Trailing zeros -/

/-- The lowest bit of a word. -/
theorem and_one_eq_zero_iff (v : UInt64) : v &&& 1 = 0 ↔ v.toNat.testBit 0 = false := by
  rw [← UInt64.toNat_inj, UInt64.toNat_and, UInt64.toNat_one, UInt64.toNat_zero, Nat.testBit_zero,
    Nat.and_one_is_mod, decide_eq_false_iff_not]
  omega

theorem toNat_ne_zero {v : UInt64} (h : v ≠ 0) : v.toNat ≠ 0 := fun hc =>
  h (UInt64.toNat_inj.1 hc)

theorem trailingZerosLoop_spec : ∀ (bits : ℕ) (v : UInt64), v ≠ 0 → v.toNat < 2 ^ bits →
    trailingZerosLoop bits v < bits ∧ v.toNat.testBit (trailingZerosLoop bits v) = true ∧
      ∀ j < trailingZerosLoop bits v, v.toNat.testBit j = false := by
  intro bits
  induction bits with
  | zero =>
    intro v hv hlt
    have := toNat_ne_zero hv
    rw [pow_zero] at hlt
    omega
  | succ bits ih =>
    intro v hv hlt
    rw [trailingZerosLoop]
    by_cases hlow : v &&& 1 = 0
    · rw [if_pos hlow]
      rw [and_one_eq_zero_iff] at hlow
      have hhalf : (shr64 v 1).toNat = v.toNat / 2 := toNat_shr64 v (by norm_num)
      have hne : shr64 v 1 ≠ 0 := by
        intro hc
        have h0 : v.toNat / 2 = 0 := by rw [← hhalf, hc, UInt64.toNat_zero]
        rw [Nat.testBit_zero, decide_eq_false_iff_not] at hlow
        have := toNat_ne_zero hv
        omega
      obtain ⟨hz, hset, hclear⟩ := ih (shr64 v 1) hne (by rw [hhalf]; omega)
      rw [testBit_shr64 v (by norm_num), Nat.add_comm] at hset
      refine ⟨by omega, hset, fun j hj => ?_⟩
      cases j with
      | zero => exact hlow
      | succ j =>
        have := hclear j (by omega)
        rwa [testBit_shr64 v (by norm_num), Nat.add_comm] at this
    · rw [if_neg hlow]
      rw [and_one_eq_zero_iff] at hlow
      exact ⟨by omega, by simpa using hlow, by simp⟩

/-- `CountTrailingZeros64` finds the lowest set bit. -/
theorem countTrailingZeros64_spec {v : UInt64} (h : v ≠ 0) :
    countTrailingZeros64 v < 64 ∧ v.toNat.testBit (countTrailingZeros64 v) = true ∧
      ∀ j < countTrailingZeros64 v, v.toNat.testBit j = false :=
  trailingZerosLoop_spec 64 v h v.toNat_lt

/-! ## Coefficient words as sets of slots -/

/-- The slots a coefficient word selects when its lowest bit stands for
`position`. -/
def slotsOf (position : ℕ) (coefficients : UInt64) : Finset ℕ :=
  ((Finset.range 64).filter fun j => coefficients.toNat.testBit j = true).image (position + ·)

theorem mem_slotsOf {position i : ℕ} {c : UInt64} :
    i ∈ slotsOf position c ↔ position ≤ i ∧ c.toNat.testBit (i - position) = true := by
  simp only [slotsOf, Finset.mem_image, Finset.mem_filter, Finset.mem_range]
  constructor
  · rintro ⟨j, ⟨-, hj⟩, rfl⟩
    exact ⟨by omega, by rwa [Nat.add_sub_cancel_left]⟩
  · rintro ⟨hle, hbit⟩
    refine ⟨i - position, ⟨?_, hbit⟩, by omega⟩
    by_contra h
    rw [testBit_of_ge c (not_lt.1 h)] at hbit
    exact absurd hbit (by simp)

/-- The band of a row is 64 slots wide. -/
theorem slotsOf_lt {position i : ℕ} {c : UInt64} (h : i ∈ slotsOf position c) :
    i < position + 64 := by
  obtain ⟨hle, hbit⟩ := mem_slotsOf.1 h
  by_contra hge
  rw [testBit_of_ge c (by omega)] at hbit
  exact absurd hbit (by simp)

@[simp] theorem slotsOf_zero (position : ℕ) : slotsOf position 0 = ∅ := by
  ext i
  simp [mem_slotsOf]

theorem slotsOf_xor (position : ℕ) (a b : UInt64) :
    slotsOf position (a ^^^ b) = slotsOf position a ∆ slotsOf position b := by
  ext i
  rw [Finset.mem_symmDiff, mem_slotsOf, mem_slotsOf, mem_slotsOf, UInt64.toNat_xor,
    Nat.testBit_xor]
  cases a.toNat.testBit (i - position) <;> cases b.toNat.testBit (i - position) <;> simp

/-- Shifting out the lowest bit drops the first slot. -/
theorem slotsOf_shr64_one_subset (position : ℕ) (c : UInt64) :
    slotsOf (position + 1) (shr64 c 1) ⊆ slotsOf position c := by
  intro i hi
  rw [mem_slotsOf, testBit_shr64 c (by norm_num)] at hi
  refine mem_slotsOf.2 ⟨by omega, ?_⟩
  rw [show i - position = 1 + (i - (position + 1)) by omega]
  exact hi.2

/-- Normalizing a row moves its position to its lowest slot and selects the same
slots. -/
theorem slotsOf_shr64 (position : ℕ) {c : UInt64} (h : c ≠ 0) :
    slotsOf (position + countTrailingZeros64 c) (shr64 c (countTrailingZeros64 c))
      = slotsOf position c := by
  obtain ⟨hlt, -, hclear⟩ := countTrailingZeros64_spec h
  ext i
  rw [mem_slotsOf, mem_slotsOf, testBit_shr64 c hlt]
  constructor
  · rintro ⟨hle, hbit⟩
    refine ⟨by omega, ?_⟩
    rwa [show countTrailingZeros64 c + (i - (position + countTrailingZeros64 c)) = i - position
      by omega] at hbit
  · rintro ⟨hle, hbit⟩
    have hge : countTrailingZeros64 c ≤ i - position := by
      by_contra hc
      rw [hclear _ (not_le.1 hc)] at hbit
      exact absurd hbit (by simp)
    refine ⟨by omega, ?_⟩
    rwa [show countTrailingZeros64 c + (i - (position + countTrailingZeros64 c)) = i - position
      by omega]

theorem lowest_mem_slotsOf (position : ℕ) {c : UInt64} (h : c ≠ 0) :
    position + countTrailingZeros64 c ∈ slotsOf position c :=
  mem_slotsOf.2 ⟨by omega, by
    rw [Nat.add_sub_cancel_left]
    exact (countTrailingZeros64_spec h).2.1⟩

/-- An even word that is not zero has a trailing zero. -/
theorem countTrailingZeros64_pos {c : UInt64} (hc : c ≠ 0) (heven : c.toNat.testBit 0 = false) :
    0 < countTrailingZeros64 c := by
  by_contra hz
  have hset := (countTrailingZeros64_spec hc).2.1
  rw [Nat.eq_zero_of_not_pos hz, heven] at hset
  exact absurd hset (by simp)

/-- A normalized row is odd. -/
theorem odd_shr64 {c : UInt64} (h : c ≠ 0) :
    (shr64 c (countTrailingZeros64 c)).toNat.testBit 0 = true := by
  obtain ⟨hlt, hset, -⟩ := countTrailingZeros64_spec h
  rw [testBit_shr64 c hlt, Nat.add_zero]
  exact hset

/-- The exclusive or of two odd words is even. -/
theorem even_xor {a b : UInt64} (ha : a.toNat.testBit 0 = true) (hb : b.toNat.testBit 0 = true) :
    (a ^^^ b).toNat.testBit 0 = false := by
  rw [UInt64.toNat_xor, Nat.testBit_xor, ha, hb]
  rfl

/-! ## Rows and tables as equations -/

/-- The equation of a row that starts at `position`. -/
def rowEquation (position : ℕ) (coefficients : UInt64) (result : UInt32) : Equation ℕ XorNat where
  support := slotsOf position coefficients
  value := XorNat.ofNat result.toNat

/-- The equation of a row of the builder. -/
def RibbonRow.equation (row : RibbonRow) : Equation ℕ XorNat :=
  rowEquation row.start row.coefficients row.result

theorem rowEquation_xor (position : ℕ) (a b : UInt64) (r s : UInt32) :
    rowEquation position (a ^^^ b) (r ^^^ s) = rowEquation position a r + rowEquation position b s := by
  have hvalue : XorNat.ofNat (r ^^^ s).toNat = XorNat.ofNat r.toNat + XorNat.ofNat s.toNat := by
    rw [UInt32.toNat_xor, XorNat.ofNat_xor]
  rw [rowEquation, slotsOf_xor, hvalue]
  rfl

theorem rowEquation_shr64 (position : ℕ) {c : UInt64} (h : c ≠ 0) (r : UInt32) :
    rowEquation (position + countTrailingZeros64 c) (shr64 c (countTrailingZeros64 c)) r
      = rowEquation position c r := by
  rw [rowEquation, slotsOf_shr64 position h]
  rfl

theorem rowEquation_zero_holds (position : ℕ) (r : UInt32) (x : ℕ → XorNat) :
    (rowEquation position 0 r).Holds x ↔ r = 0 := by
  rw [Equation.holds_of_support_empty (slotsOf_zero position), rowEquation, XorNat.ofNat_eq_zero,
    ← UInt32.toNat_inj, UInt32.toNat_zero]

namespace PivotTable

/-- The equation stored at a position. -/
def equation (t : PivotTable) (position : ℕ) : Equation ℕ XorNat :=
  rowEquation position (t.pivots.getD position 0) (t.pivotResults.getD position 0)

/-- The assignment satisfies every stored pivot. -/
def Solves (t : PivotTable) (x : ℕ → XorNat) : Prop :=
  ∀ p, t.pivots.getD p 0 ≠ 0 → (t.equation p).Holds x

/-- Every band of the table ends below `bound`, and every pivot is odd. -/
structure BandsBelow (t : PivotTable) (bound : ℕ) : Prop where
  odd : ∀ p, t.pivots.getD p 0 ≠ 0 → (t.pivots.getD p 0).toNat.testBit 0 = true
  below : ∀ p, ∀ i ∈ slotsOf p (t.pivots.getD p 0), i < bound

theorem bandsBelow_empty (slotCount bound : ℕ) :
    (empty slotCount).BandsBelow bound where
  odd p h := absurd (getD_replicate slotCount p 0) h
  below p i hi := by
    rw [empty, getD_replicate, slotsOf_zero] at hi
    exact absurd hi (Finset.notMem_empty i)

variable {t : PivotTable} {slotCount resultBits position bound : ℕ}

/-- Adding the pivot at the position it reached, a row keeps its slots below the bound. -/
theorem BandsBelow.xor (h : t.BandsBelow bound)
    {c : UInt64} (hc : ∀ i ∈ slotsOf position c, i < bound) :
    ∀ i ∈ slotsOf position (c ^^^ t.pivots.getD position 0), i < bound := by
  intro i hi
  rw [slotsOf_xor, Finset.mem_symmDiff] at hi
  cases hi with
  | inl hrow => exact hc i hrow.1
  | inr hpivot => exact h.below position i hpivot.1

theorem BandsBelow.store (h : t.BandsBelow bound) {c : UInt64} (hodd : c.toNat.testBit 0 = true)
    (hc : ∀ i ∈ slotsOf position c, i < bound) (r : UInt32) :
    (t.store position c r).BandsBelow bound where
  odd p hp := by
    rw [PivotTable.store, getD_set] at hp ⊢
    split at hp
    · rename_i hself
      rwa [if_pos hself]
    · rename_i hself
      rw [if_neg hself]
      exact h.odd p hp
  below p i hi := by
    rw [PivotTable.store, getD_set] at hi
    split at hi
    · rename_i hself
      exact hc i (hself.1 ▸ hi)
    · exact h.below p i hi

/-- The invariant of the table. -/
structure Fits (t : PivotTable) (slotCount resultBits : ℕ) : Prop where
  pivots_length : t.pivots.length = slotCount
  results_length : t.pivotResults.length = slotCount
  odd : ∀ p, t.pivots.getD p 0 ≠ 0 → (t.pivots.getD p 0).toNat.testBit 0 = true
  below : ∀ p, ∀ i ∈ slotsOf p (t.pivots.getD p 0), i < slotCount
  result_lt : ∀ p, (t.pivotResults.getD p 0).toNat < 2 ^ resultBits

/-- A table that fits has its bands below `slot_count`. -/
theorem Fits.bands (h : t.Fits slotCount resultBits) : t.BandsBelow slotCount := ⟨h.odd, h.below⟩

theorem fits_empty (slotCount resultBits : ℕ) : (empty slotCount).Fits slotCount resultBits where
  pivots_length := List.length_replicate ..
  results_length := List.length_replicate ..
  odd := (bandsBelow_empty slotCount slotCount).odd
  below := (bandsBelow_empty slotCount slotCount).below
  result_lt p := by
    rw [empty, getD_replicate]
    exact Nat.two_pow_pos resultBits

theorem solves_empty (slotCount : ℕ) (x : ℕ → XorNat) : (empty slotCount).Solves x :=
  fun p h => absurd (getD_replicate slotCount p 0) h

/-- Storing an odd row that ends below `slot_count` keeps the invariant. -/
theorem Fits.store (h : t.Fits slotCount resultBits) {c : UInt64} {r : UInt32}
    (hodd : c.toNat.testBit 0 = true) (hbelow : ∀ i ∈ slotsOf position c, i < slotCount)
    (hr : r.toNat < 2 ^ resultBits) : (t.store position c r).Fits slotCount resultBits where
  pivots_length := (List.length_set ..).trans h.pivots_length
  results_length := (List.length_set ..).trans h.results_length
  odd := (h.bands.store hodd hbelow r).odd
  below := (h.bands.store hodd hbelow r).below
  result_lt p := by
    rw [PivotTable.store, getD_set]
    split
    · exact hr
    · exact h.result_lt p

/-- A table with one more pivot says one more equation. -/
theorem solves_store (h : t.Fits slotCount resultBits) (hp : position < slotCount)
    (hfree : t.pivots.getD position 0 = 0) {c : UInt64} (hc : c ≠ 0) (r : UInt32)
    (x : ℕ → XorNat) :
    (t.store position c r).Solves x ↔ t.Solves x ∧ (rowEquation position c r).Holds x := by
  have hself : (t.store position c r).equation position = rowEquation position c r := by
    rw [equation, PivotTable.store, getD_set_self (h.pivots_length ▸ hp),
      getD_set_self (h.results_length ▸ hp)]
  have hother (p : ℕ) (hne : position ≠ p) : (t.store position c r).equation p = t.equation p := by
    rw [equation, equation, PivotTable.store, getD_set_ne _ hne, getD_set_ne _ hne]
  have hpivot (p : ℕ) (hne : position ≠ p) :
      (t.store position c r).pivots.getD p 0 = t.pivots.getD p 0 := getD_set_ne _ hne ..
  constructor
  · intro hs
    refine ⟨fun p hpp => ?_, ?_⟩
    · have hne : position ≠ p := fun hc => hpp (hc ▸ hfree)
      rw [← hother p hne]
      exact hs p (by rwa [hpivot p hne])
    · rw [← hself]
      refine hs position ?_
      rw [PivotTable.store, getD_set_self (h.pivots_length ▸ hp)]
      exact hc
  · rintro ⟨ht, hrow⟩ p hpp
    by_cases hne : position = p
    · subst hne
      rwa [hself]
    · rw [hother p hne]
      exact ht p (by rwa [hpivot p hne] at hpp)

/-- A table that fits is an echelon form: an odd word leads at its position. -/
def echelon (t : PivotTable) (h : t.Fits slotCount resultBits) : Echelon ℕ XorNat where
  pivots := (Finset.range slotCount).filter fun p => t.pivots.getD p 0 ≠ 0
  row := t.equation
  lead_mem p hp := mem_slotsOf.2 ⟨le_rfl, by
    rw [Nat.sub_self]
    exact h.odd p (Finset.mem_filter.1 hp).2⟩
  lead_le p _ i hi := (mem_slotsOf.1 hi).1

theorem mem_echelon_pivots (h : t.Fits slotCount resultBits) {p : ℕ} :
    p ∈ (t.echelon h).pivots ↔ t.pivots.getD p 0 ≠ 0 := by
  rw [echelon, Finset.mem_filter, Finset.mem_range, and_iff_right_iff_imp]
  intro hp
  by_contra hlt
  exact hp (List.getD_eq_default _ _ (h.pivots_length ▸ not_lt.1 hlt))

theorem solves_echelon (h : t.Fits slotCount resultBits) (x : ℕ → XorNat) :
    (t.echelon h).Solves x ↔ t.Solves x := by
  simp only [Echelon.Solves, mem_echelon_pivots]
  exact Iff.rfl

end PivotTable

/-! ## One row -/

/-- What a step of the elimination may return for rows that hold of `rows`: a
table that adds them to `t`, or `none` when nothing satisfies both. -/
def Absorbs (slotCount resultBits : ℕ) (t : PivotTable) (rows : (ℕ → XorNat) → Prop) :
    Option PivotTable → Prop
  | none => ∀ x, t.Solves x → ¬ rows x
  | some t' => t'.Fits slotCount resultBits ∧ ∀ x, t'.Solves x ↔ t.Solves x ∧ rows x

/-- Rows that say the same to the solutions of the table are absorbed alike. -/
theorem Absorbs.congr {slotCount resultBits : ℕ} {t : PivotTable} {rows rows' : (ℕ → XorNat) → Prop}
    {out : Option PivotTable} (habs : Absorbs slotCount resultBits t rows out)
    (h : ∀ x, t.Solves x → (rows x ↔ rows' x)) : Absorbs slotCount resultBits t rows' out := by
  cases out with
  | none => exact fun x hx => mt (h x hx).2 (habs x hx)
  | some t' => exact ⟨habs.1, fun x => (habs.2 x).trans (and_congr_right (h x))⟩

/-- A row that has cancelled says nothing, or what cannot be. -/
theorem absorbs_zero {slotCount resultBits : ℕ} {t : PivotTable} (ht : t.Fits slotCount resultBits)
    (position : ℕ) (r : UInt32) :
    Absorbs slotCount resultBits t (rowEquation position 0 r).Holds
      (if r ≠ 0 then none else some t) := by
  split
  · rename_i hr
    intro x _
    rwa [rowEquation_zero_holds]
  · rename_i hr
    refine ⟨ht, fun x => ?_⟩
    rw [rowEquation_zero_holds, and_iff_left (not_not.1 hr)]

/-- The rounds a row still needs: its next position is behind the current one,
unless its lowest coefficient is set. -/
def roundsLeft (slotCount position : ℕ) (coefficients : UInt64) : ℕ :=
  if coefficients = 0 then 0
  else if coefficients.toNat.testBit 0 = true then slotCount - position + 1
  else slotCount - position

/-- Moving on to the position of the lowest coefficient and cancelling it there
leaves fewer rounds. -/
theorem roundsLeft_lt {slotCount position : ℕ} {c d : UInt64} (hc : c ≠ 0)
    (hd : d.toNat.testBit 0 = false) (hlt : position + countTrailingZeros64 c < slotCount) :
    roundsLeft slotCount (position + countTrailingZeros64 c) d < roundsLeft slotCount position c := by
  rw [roundsLeft, roundsLeft, if_neg hc, hd]
  by_cases hodd : c.toNat.testBit 0 = true
  · rw [if_pos hodd]
    split
    · omega
    · rw [if_neg Bool.false_ne_true]
      omega
  · have hz := countTrailingZeros64_pos hc (Bool.eq_false_iff.2 hodd)
    rw [if_neg hodd]
    split
    · omega
    · rw [if_neg Bool.false_ne_true]
      omega

/-- **The elimination loop.**  It ends, and what it returns says exactly what the
table and the row say.  Each round adds the pivot equation of the row's leading
position, which every solution of the table satisfies. -/
theorem eliminateLoop_absorbs {slotCount resultBits : ℕ} {t : PivotTable}
    (ht : t.Fits slotCount resultBits) (hslots : slotCount < 4294967296) :
    ∀ (rounds : ℕ) (c : UInt64) (r : UInt32) (position : ℕ),
      (∀ i ∈ slotsOf position c, i < slotCount) → r.toNat < 2 ^ resultBits →
      roundsLeft slotCount position c < rounds →
      ∃ out, eliminateLoop slotCount t rounds c r position = .ok out ∧
        Absorbs slotCount resultBits t (rowEquation position c r).Holds out := by
  intro rounds
  induction rounds with
  | zero => exact fun c r position _ _ h => absurd h (Nat.not_lt_zero _)
  | succ rounds ih =>
    intro c r position hbelow hr hrounds
    rw [eliminateLoop]
    by_cases hc : c = 0
    · -- the row has cancelled
      subst hc
      refine ⟨_, ?_, absorbs_zero ht position r⟩
      rw [if_pos rfl]
      split
      · rfl
      · rfl
    · have hlt : position + countTrailingZeros64 c < slotCount :=
        hbelow _ (lowest_mem_slotsOf position hc)
      have hsame := slotsOf_shr64 position hc
      have hodd := odd_shr64 hc
      rw [if_neg hc]
      simp only [u32_of_lt (hlt.trans hslots), if_neg (not_le.2 hlt)]
      rw [← rowEquation_shr64 position hc]
      rw [← hsame] at hbelow
      by_cases hfree : t.pivots.getD (position + countTrailingZeros64 c) 0 = 0
      · -- the row becomes the pivot of its position
        have hne : shr64 c (countTrailingZeros64 c) ≠ 0 := by
          intro hzero
          rw [hzero, UInt64.toNat_zero, Nat.zero_testBit] at hodd
          exact absurd hodd (by simp)
        rw [if_pos hfree]
        exact ⟨_, rfl, ht.store hodd hbelow hr, PivotTable.solves_store ht hlt hfree hne r⟩
      · -- the pivot of its position is added to the row
        rw [if_neg hfree]
        have hpodd := ht.odd _ hfree
        obtain ⟨out, hout, habs⟩ := ih
          (shr64 c (countTrailingZeros64 c) ^^^ t.pivots.getD (position + countTrailingZeros64 c) 0)
          (r ^^^ t.pivotResults.getD (position + countTrailingZeros64 c) 0)
          (position + countTrailingZeros64 c)
          (ht.bands.xor hbelow)
          (by rw [UInt32.toNat_xor]; exact Nat.xor_lt_two_pow hr (ht.result_lt _))
          (by have := roundsLeft_lt hc (even_xor hodd hpodd) hlt; omega)
        rw [rowEquation_xor] at habs
        exact ⟨out, hout, habs.congr fun x hx => Equation.holds_add_iff (hx _ hfree)⟩

/-- One row of the builder, whose band of slots ends below `slot_count`. -/
structure RibbonRow.Fits (row : RibbonRow) (slotCount resultBits : ℕ) : Prop where
  below : ∀ i ∈ slotsOf row.start row.coefficients, i < slotCount
  result_lt : row.result.toNat < 2 ^ resultBits

theorem eliminateRow_absorbs {slotCount resultBits : ℕ} {t : PivotTable}
    (ht : t.Fits slotCount resultBits) (hslots : slotCount < 4294967296) {row : RibbonRow}
    (hrow : row.Fits slotCount resultBits) :
    ∃ out, eliminateRow slotCount t row = .ok out ∧
      Absorbs slotCount resultBits t row.equation.Holds out := by
  refine eliminateLoop_absorbs ht hslots _ _ _ _ hrow.below hrow.result_lt ?_
  rw [roundsLeft]
  split
  · omega
  · split <;> omega

/-! ## All rows -/

/-- The assignment satisfies every row. -/
def RowsHold (rows : List RibbonRow) (x : ℕ → XorNat) : Prop :=
  ∀ row ∈ rows, row.equation.Holds x

theorem rowsHold_cons {row : RibbonRow} {rows : List RibbonRow} {x : ℕ → XorNat} :
    RowsHold (row :: rows) x ↔ row.equation.Holds x ∧ RowsHold rows x := List.forall_mem_cons

theorem rowsHold_perm {rows rows' : List RibbonRow} (h : rows.Perm rows') (x : ℕ → XorNat) :
    RowsHold rows x ↔ RowsHold rows' x := by
  simp only [RowsHold, h.mem_iff]

/-- **All rows.**  The elimination of a list of rows ends with a table that says
what they say, or with `none` when they contradict one another. -/
theorem eliminateRows_absorbs {slotCount : ℕ} (resultBits : ℕ) (hslots : slotCount < 4294967296) :
    ∀ (rows : List RibbonRow) (t : PivotTable), t.Fits slotCount resultBits →
      (∀ row ∈ rows, row.Fits slotCount resultBits) →
      ∃ out, eliminateRows slotCount rows t = .ok out ∧
        Absorbs slotCount resultBits t (RowsHold rows) out := by
  intro rows
  induction rows with
  | nil =>
    intro t ht _
    exact ⟨some t, rfl, ht, fun x => (and_iff_left (List.forall_mem_nil _)).symm⟩
  | cons row rows ih =>
    intro t ht hrows
    obtain ⟨hrow, hrest⟩ := List.forall_mem_cons.1 hrows
    obtain ⟨out, hout, habs⟩ := eliminateRow_absorbs ht hslots hrow
    rw [eliminateRows, hout, ok_bind]
    cases out with
    | none => exact ⟨none, rfl, fun x hx h => habs x hx (rowsHold_cons.1 h).1⟩
    | some t' =>
      obtain ⟨out', hout', habs'⟩ := ih t' habs.1 hrest
      refine ⟨out', hout', ?_⟩
      cases out' with
      | none =>
        intro x hx h
        obtain ⟨h1, h2⟩ := rowsHold_cons.1 h
        exact habs' x ((habs.2 x).2 ⟨hx, h1⟩) h2
      | some t'' =>
        refine ⟨habs'.1, fun x => ?_⟩
        rw [habs'.2 x, habs.2 x, rowsHold_cons, and_assoc]

end PackedFilters.Ribbon
