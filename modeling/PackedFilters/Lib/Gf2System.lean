import Mathlib

/-!
# Linear systems over GF(2)

Unknowns are indexed by a linear order `ι` and take values in a vector space `V` over `ZMod
2`.  An equation asks that the unknowns of a finite set add up to a given value; adding two
equations takes the symmetric difference of their supports.  Elimination turns a system into
one whose rows each lead at a position of their own, and back substitution reads off the
solution from the last position to the first.

* `Equation.holds_add_iff` — adding an equation that holds changes nothing, the one fact
  behind elimination;
* `Echelon` — a set of pivot rows, each leading at its own position, and
  `Echelon.exists_solves`: whatever the free unknowns are set to, the pivot unknowns can be
  chosen to solve the rows;
* `Echelon.eq_of_solves` — back substitution is forced: two solutions that agree on the free
  unknowns agree;
* `Echelon.mem_pivots_iff` — a position carries a pivot exactly when the solution set
  determines that unknown from the later ones.  So two echelon forms of one system have the
  same pivot positions (`Echelon.pivots_eq`) and the same solution with free unknowns zero
  (`Echelon.eq_of_same_solutions`).

The last of these is what makes a result independent of the order in which the equations were
taken: elimination in another order ends with other rows, but with the same solution.
-/

namespace Gf2System

open scoped symmDiff

variable {ι V : Type*} [AddCommGroup V]

/-! ## Equations -/

/-- The sum of the unknowns of a set. -/
def dot (s : Finset ι) (x : ι → V) : V := ∑ i ∈ s, x i

@[simp] theorem dot_empty (x : ι → V) : dot ∅ x = 0 := Finset.sum_empty

theorem dot_congr {s : Finset ι} {x y : ι → V} (h : ∀ i ∈ s, x i = y i) : dot s x = dot s y :=
  Finset.sum_congr rfl h

/-- One equation: the unknowns of `support` add up to `value`. -/
structure Equation (ι V : Type*) where
  support : Finset ι
  value : V

/-- The assignment `x` satisfies the equation. -/
def Equation.Holds (e : Equation ι V) (x : ι → V) : Prop := dot e.support x = e.value

/-- An equation without unknowns holds exactly when its value is zero. -/
theorem Equation.holds_of_support_empty {e : Equation ι V} (he : e.support = ∅) (x : ι → V) :
    e.Holds x ↔ e.value = 0 := by
  rw [Equation.Holds, he, dot_empty, eq_comm]

/-! ## Elimination -/

variable [LinearOrder ι]

/-- Unknowns occurring twice cancel. -/
theorem dot_symmDiff [Module (ZMod 2) V] (s t : Finset ι) (x : ι → V) :
    dot (s ∆ t) x = dot s x + dot t x := by
  have hs : dot s x = dot (s \ t) x + dot (s ∩ t) x := by
    rw [dot, dot, dot, ← Finset.sum_union (Finset.disjoint_sdiff_inter s t),
      Finset.sdiff_union_inter]
  have ht : dot t x = dot (t \ s) x + dot (s ∩ t) x := by
    rw [dot, dot, dot, Finset.inter_comm, ← Finset.sum_union (Finset.disjoint_sdiff_inter t s),
      Finset.sdiff_union_inter]
  have hst : dot (s ∆ t) x = dot (s \ t) x + dot (t \ s) x := by
    rw [dot, dot, dot, ← Finset.sum_union disjoint_sdiff_sdiff]
    rfl
  calc dot (s ∆ t) x
      = dot (s \ t) x + dot (t \ s) x + (dot (s ∩ t) x + dot (s ∩ t) x) := by
        rw [ZModModule.add_self, add_zero, hst]
    _ = dot s x + dot t x := by rw [hs, ht]; abel

/-- Split the sum at one unknown of the set. -/
theorem dot_eq_add_erase {s : Finset ι} {p : ι} (hp : p ∈ s) (x : ι → V) :
    dot s x = x p + dot (s.erase p) x := (Finset.add_sum_erase s x hp).symm

namespace Equation

instance : Add (Equation ι V) := ⟨fun e f => ⟨e.support ∆ f.support, e.value + f.value⟩⟩

@[simp] theorem add_support (e f : Equation ι V) : (e + f).support = e.support ∆ f.support := rfl

@[simp] theorem add_value (e f : Equation ι V) : (e + f).value = e.value + f.value := rfl

/-- Adding an equation that holds does not change whether the other one does. -/
theorem holds_add_iff [Module (ZMod 2) V] {e f : Equation ι V} {x : ι → V} (hf : f.Holds x) :
    (e + f).Holds x ↔ e.Holds x := by
  rw [Holds, add_support, add_value, dot_symmDiff, hf]
  exact add_left_inj f.value

end Equation

/-! ## Echelon forms -/

/-- Pivot rows, each leading at its own position. -/
structure Echelon (ι V : Type*) [LinearOrder ι] where
  /-- The positions that carry a pivot. -/
  pivots : Finset ι
  /-- The row stored at a position. -/
  row : ι → Equation ι V
  lead_mem : ∀ p ∈ pivots, p ∈ (row p).support
  lead_le : ∀ p ∈ pivots, ∀ i ∈ (row p).support, p ≤ i

namespace Echelon

/-- The assignment satisfies every pivot row. -/
def Solves (E : Echelon ι V) (x : ι → V) : Prop := ∀ p ∈ E.pivots, (E.row p).Holds x

/-- Back substitution exists: the free unknowns may be set at will.  The
induction adds the pivots from the last one down, so a new pivot never occurs in
the rows already solved. -/
theorem exists_solves (E : Echelon ι V) (f : ι → V) :
    ∃ x, E.Solves x ∧ ∀ i ∉ E.pivots, x i = f i := by
  suffices h : ∀ P : Finset ι, P ⊆ E.pivots →
      ∃ x : ι → V, (∀ p ∈ P, (E.row p).Holds x) ∧ ∀ i ∉ P, x i = f i from h E.pivots subset_rfl
  intro P
  induction P using Finset.induction_on_min with
  | empty => exact fun _ => ⟨f, by simp, fun _ _ => rfl⟩
  | insert a P ha ih =>
    intro hsub
    obtain ⟨x, hx, hfree⟩ := ih ((Finset.subset_insert a P).trans hsub)
    have haE : a ∈ E.pivots := hsub (Finset.mem_insert_self a P)
    refine ⟨Function.update x a ((E.row a).value - dot ((E.row a).support.erase a) x), ?_, ?_⟩
    · intro p hp
      rcases Finset.mem_insert.1 hp with rfl | hp
      · have hrest : dot ((E.row p).support.erase p)
            (Function.update x p ((E.row p).value - dot ((E.row p).support.erase p) x))
            = dot ((E.row p).support.erase p) x :=
          dot_congr fun i hi => Function.update_of_ne (Finset.ne_of_mem_erase hi) _ _
        rw [Equation.Holds, dot_eq_add_erase (E.lead_mem p haE), Function.update_self, hrest]
        abel
      · have hpE : p ∈ E.pivots := hsub (Finset.mem_insert_of_mem hp)
        have hsame : dot (E.row p).support
            (Function.update x a ((E.row a).value - dot ((E.row a).support.erase a) x))
            = dot (E.row p).support x :=
          dot_congr fun i hi =>
            Function.update_of_ne ((ha p hp).trans_le (E.lead_le p hpE i hi)).ne' _ _
        rw [Equation.Holds, hsame]
        exact hx p hp
    · intro i hi
      rw [Finset.mem_insert, not_or] at hi
      rw [Function.update_of_ne hi.1, hfree i hi.2]

/-- Two solutions that agree on the free unknowns from `q` on agree from `q` on.
Otherwise look at the last unknown where they differ: its own row decides it. -/
theorem eq_of_solves {E : Echelon ι V} {x y : ι → V} (hx : E.Solves x) (hy : E.Solves y) {q : ι}
    (hfree : ∀ i ∉ E.pivots, q ≤ i → x i = y i) : ∀ i, q ≤ i → x i = y i := by
  classical
  by_contra hne
  push Not at hne
  obtain ⟨i₀, hq₀, hne₀⟩ := hne
  set D : Finset ι := E.pivots.filter fun i => q ≤ i ∧ x i ≠ y i with hD
  have hmem : i₀ ∈ D := by
    refine Finset.mem_filter.2 ⟨?_, hq₀, hne₀⟩
    by_contra hi
    exact hne₀ (hfree i₀ hi hq₀)
  obtain ⟨m, hmD, hmax⟩ := D.exists_max_image id ⟨i₀, hmem⟩
  obtain ⟨hmE, hqm, hxy⟩ := Finset.mem_filter.1 hmD
  have hrest : dot ((E.row m).support.erase m) x = dot ((E.row m).support.erase m) y := by
    refine dot_congr fun i hi => ?_
    have hmi : m < i := lt_of_le_of_ne (E.lead_le m hmE i (Finset.mem_of_mem_erase hi))
      (Finset.ne_of_mem_erase hi).symm
    by_contra hne
    have hiE : i ∈ E.pivots := by
      by_contra hi'
      exact hne (hfree i hi' (hqm.trans hmi.le))
    exact absurd (hmax i (Finset.mem_filter.2 ⟨hiE, hqm.trans hmi.le, hne⟩)) (not_le.2 hmi)
  have hrow : dot (E.row m).support x = dot (E.row m).support y := (hx m hmE).trans (hy m hmE).symm
  rw [dot_eq_add_erase (E.lead_mem m hmE), dot_eq_add_erase (E.lead_mem m hmE), hrest] at hrow
  exact hxy (add_right_cancel hrow)

/-- A position carries a pivot exactly when the solutions determine that unknown
from the later ones. -/
theorem mem_pivots_iff [Nontrivial V] (E : Echelon ι V) (p : ι) :
    p ∈ E.pivots ↔
      ∀ x y, E.Solves x → E.Solves y → (∀ i, p < i → x i = y i) → x p = y p := by
  constructor
  · intro hp x y hx hy hlater
    refine eq_of_solves hx hy (q := p) ?_ p le_rfl
    intro i hi hpi
    exact hlater i (lt_of_le_of_ne hpi fun h => hi (h ▸ hp))
  · intro hdet
    by_contra hp
    obtain ⟨v, hv⟩ := exists_ne (0 : V)
    obtain ⟨x, hx, hfx⟩ := E.exists_solves fun _ => 0
    obtain ⟨y, hy, hfy⟩ := E.exists_solves (Pi.single p v)
    have hlater : ∀ i, p < i → x i = y i := by
      intro i hpi
      refine eq_of_solves hx hy (q := i) ?_ i le_rfl
      intro j hj hij
      rw [hfx j hj, hfy j hj, Pi.single_eq_of_ne (hpi.trans_le hij).ne']
    have := hdet x y hx hy hlater
    rw [hfx p hp, hfy p hp, Pi.single_eq_same] at this
    exact hv this.symm

/-- The pivot positions depend on the solution set alone. -/
theorem pivots_eq [Nontrivial V] {E F : Echelon ι V} (h : ∀ x, E.Solves x ↔ F.Solves x) :
    E.pivots = F.pivots := by
  ext p
  simp only [mem_pivots_iff, h]

/-- So does the solution whose free unknowns are all zero. -/
theorem eq_of_same_solutions [Nontrivial V] {E F : Echelon ι V}
    (h : ∀ x, E.Solves x ↔ F.Solves x) {x y : ι → V} (hx : E.Solves x) (hy : F.Solves y)
    (hx0 : ∀ i ∉ E.pivots, x i = 0) (hy0 : ∀ i ∉ F.pivots, y i = 0) : x = y := by
  funext i
  refine eq_of_solves hx ((h y).2 hy) (q := i) ?_ i le_rfl
  intro j hj _
  rw [hx0 j hj, hy0 j (pivots_eq h ▸ hj)]

end Echelon

end Gf2System
