import Mathlib

/-!
# Peeling a hypergraph

Every edge `e` touches a finite set `touch e` of positions.  Peeling removes, as long as it
can, an edge that has a position to itself.  Whether everything can be peeled does not depend
on the order in which it is done, and if it can, the removed edges taken backwards tell how
to give every edge a prescribed sum of the values at its positions: when the position that an
edge had to itself is set, all edges that were peeled after it are right already and do not
touch it.

* `IsCore` — a nonempty set of edges no position of which is touched just once;
* `Peels H order R` — peeling `H` in the order `order` leaves `R`;
* `Peels.core_subset` — no order of peeling ever removes an edge of a core, and
  `isCore_of_no_private` — what is left when nothing can be peeled is a core: so peeling
  empties `H` exactly when `H` contains no core, whatever the order
  (`Peels.empty_iff_no_core`);
* `exists_core_of_card_lt` — more edges than positions force a core;
* `fill` — values assigned to the chosen positions in reverse peel order, and `sum_fill`:
  every peeled edge then gets its prescribed sum.

Edges, positions and values are of any type; values form an additive group, in which a sum
over a finite set needs no order.  Nothing is said here about counters, queues or the time it
takes: an implementation is tied to these results by showing that what it does is a `Peels`.
-/

namespace Peeling

variable {E P : Type*} [DecidableEq E] [DecidableEq P] {touch : E → Finset P}

/-! ## Cores -/

/-- The edges of `R` that touch `p`. -/
def incident (touch : E → Finset P) (R : Finset E) (p : P) : Finset E :=
  R.filter fun e => p ∈ touch e

omit [DecidableEq E] in
@[simp] theorem mem_incident {R : Finset E} {p : P} {e : E} :
    e ∈ incident touch R p ↔ e ∈ R ∧ p ∈ touch e := Finset.mem_filter

omit [DecidableEq E] in
/-- The one edge touching `p` is an edge, and touches it. -/
theorem mem_of_incident_eq {R : Finset E} {p : P} {e : E} (h : incident touch R p = {e}) :
    e ∈ R ∧ p ∈ touch e :=
  mem_incident.1 (h ▸ Finset.mem_singleton_self e)

theorem incident_erase (R : Finset E) (p : P) (e : E) :
    incident touch (R.erase e) p = (incident touch R p).erase e := by
  ext f
  simp only [mem_incident, Finset.mem_erase, and_assoc]

/-- A nonempty set of edges no position of which is touched by just one of them. -/
def IsCore (touch : E → Finset P) (S : Finset E) : Prop :=
  S.Nonempty ∧ ∀ p, ∀ e ∈ S, p ∈ touch e → ∃ f ∈ S, f ≠ e ∧ p ∈ touch f

omit [DecidableEq E] in
/-- In a core, whatever is touched is touched by at least two edges. -/
theorem isCore_iff_two_le_card {S : Finset E} : IsCore touch S ↔
    S.Nonempty ∧ ∀ p, (∃ e ∈ S, p ∈ touch e) → 2 ≤ (incident touch S p).card := by
  refine and_congr_right fun _ => forall_congr' fun p => ⟨?_, ?_⟩
  · rintro h ⟨e, he, hpe⟩
    obtain ⟨f, hf, hfe, hpf⟩ := h e he hpe
    exact Finset.one_lt_card.2 ⟨f, mem_incident.2 ⟨hf, hpf⟩, e, mem_incident.2 ⟨he, hpe⟩, hfe⟩
  · intro h e he hpe
    obtain ⟨f, hf, hfe⟩ := Finset.exists_mem_ne (h ⟨e, he, hpe⟩) e
    exact ⟨f, (mem_incident.1 hf).1, hfe, (mem_incident.1 hf).2⟩

/-- An edge with a position to itself belongs to no core. -/
theorem core_subset_erase {R S : Finset E} {e : E} {p : P} (hS : IsCore touch S) (hSR : S ⊆ R)
    (hp : incident touch R p = {e}) : S ⊆ R.erase e := by
  intro f hf
  refine Finset.mem_erase.2 ⟨?_, hSR hf⟩
  rintro rfl
  obtain ⟨g, hg, hgf, hpg⟩ := hS.2 p f hf (mem_of_incident_eq hp).2
  have : g ∈ incident touch R p := mem_incident.2 ⟨hSR hg, hpg⟩
  rw [hp, Finset.mem_singleton] at this
  exact hgf this

/-- What is left when no edge has a position to itself is a core. -/
theorem isCore_of_no_private {R : Finset E} (hR : R.Nonempty)
    (h : ∀ p, (incident touch R p).card ≠ 1) : IsCore touch R := by
  refine ⟨hR, fun p e he hpe => ?_⟩
  by_contra hnone
  push Not at hnone
  refine h p (Finset.card_eq_one.2 ⟨e, Finset.eq_singleton_iff_unique_mem.2 ⟨?_, ?_⟩⟩)
  · exact mem_incident.2 ⟨he, hpe⟩
  · intro f hf
    by_contra hfe
    exact hnone f (mem_incident.1 hf).1 hfe (mem_incident.1 hf).2

/-- More edges than touched positions force a core: each peeled edge uses up a
position of its own. -/
theorem exists_core_of_card_lt (H : Finset E) (h : (H.biUnion touch).card < H.card) :
    ∃ S ⊆ H, IsCore touch S := by
  induction H using Finset.strongInduction with
  | H H ih =>
    have hH : H.Nonempty := Finset.card_pos.1 (by omega)
    by_cases hpriv : ∀ p, (incident touch H p).card ≠ 1
    · exact ⟨H, subset_rfl, isCore_of_no_private hH hpriv⟩
    · push Not at hpriv
      obtain ⟨p, hp⟩ := hpriv
      obtain ⟨e, he⟩ := Finset.card_eq_one.1 hp
      obtain ⟨heH, hpe⟩ := mem_of_incident_eq he
      have hsub : (H.erase e).biUnion touch ⊆ (H.biUnion touch).erase p := by
        intro q hq
        obtain ⟨f, hf, hqf⟩ := Finset.mem_biUnion.1 hq
        refine Finset.mem_erase.2 ⟨?_, Finset.mem_biUnion.2 ⟨f, Finset.mem_of_mem_erase hf, hqf⟩⟩
        rintro rfl
        have : f ∈ incident touch H q := mem_incident.2 ⟨Finset.mem_of_mem_erase hf, hqf⟩
        rw [he, Finset.mem_singleton] at this
        exact Finset.ne_of_mem_erase hf this
      have hcard : ((H.erase e).biUnion touch).card < (H.erase e).card := by
        have h1 := Finset.card_le_card hsub
        rw [Finset.card_erase_of_mem (Finset.mem_biUnion.2 ⟨e, heH, hpe⟩)] at h1
        have h2 : 0 < (H.biUnion touch).card :=
          Finset.card_pos.2 ⟨p, Finset.mem_biUnion.2 ⟨e, heH, hpe⟩⟩
        rw [Finset.card_erase_of_mem heH]
        omega
      obtain ⟨S, hS, hcore⟩ := ih (H.erase e) (Finset.erase_ssubset heH) hcard
      exact ⟨S, hS.trans (Finset.erase_subset e H), hcore⟩

/-! ## Peel orders -/

/-- Peeling `H` along a list of edges, each with the position it has to itself at
that moment, leaves the set `R`. -/
inductive Peels (touch : E → Finset P) (H : Finset E) : List (E × P) → Finset E → Prop
  /-- Nothing peeled yet. -/
  | start : Peels touch H [] H
  /-- Peel one more edge. -/
  | snoc {order R e p} : Peels touch H order R → incident touch R p = {e} →
      Peels touch H (order ++ [(e, p)]) (R.erase e)

namespace Peels

variable {H R : Finset E} {order : List (E × P)}

theorem remaining_subset (h : Peels touch H order R) : R ⊆ H := by
  induction h with
  | start => exact subset_rfl
  | snoc _ _ ih => exact (Finset.erase_subset _ _).trans ih

/-- No order of peeling removes an edge of a core. -/
theorem core_subset (h : Peels touch H order R) {S : Finset E} (hS : IsCore touch S)
    (hSH : S ⊆ H) : S ⊆ R := by
  induction h with
  | start => exact hSH
  | snoc _ hp ih => exact core_subset_erase hS ih hp

/-- The peeled edges and the remaining ones partition `H`. -/
theorem mem_order_or_remaining (h : Peels touch H order R) :
    ∀ e, e ∈ H ↔ e ∈ order.map Prod.fst ∨ e ∈ R := by
  induction h with
  | start => simp
  | snoc _ hp ih =>
    rename_i order R f p _
    intro e
    have hf : f ∈ R := (mem_of_incident_eq hp).1
    rw [ih e, List.map_append, List.mem_append, Finset.mem_erase]
    by_cases hef : e = f
    · simp [hef, hf]
    · simp [hef]

theorem not_mem_order_of_remaining (h : Peels touch H order R) :
    ∀ e ∈ R, e ∉ order.map Prod.fst := by
  induction h with
  | start => simp
  | snoc _ _ ih =>
    intro e he
    rw [Finset.mem_erase] at he
    simp only [List.map_append, List.map_cons, List.map_nil, List.mem_append,
      List.mem_singleton, not_or]
    exact ⟨ih e he.2, he.1⟩

theorem nodup (h : Peels touch H order R) : (order.map Prod.fst).Nodup := by
  induction h with
  | start => simp
  | snoc hprev hp ih =>
    rename_i order R f p
    have hf : f ∈ R := (mem_of_incident_eq hp).1
    rw [List.map_append, List.nodup_append]
    refine ⟨ih, by simp, fun a ha b hb => ?_⟩
    rw [List.map_cons, List.map_nil, List.mem_singleton] at hb
    rintro rfl
    exact hprev.not_mem_order_of_remaining a (hb ▸ hf) ha

/-- The position an edge was peeled at is touched by no edge left after it. -/
theorem private_of_remaining (h : Peels touch H order R) :
    ∀ a ∈ order, a.2 ∈ touch a.1 ∧ ∀ e ∈ R, a.2 ∉ touch e := by
  induction h with
  | start => simp
  | snoc _ hp ih =>
    rename_i order R f p _
    intro a ha
    rcases List.mem_append.1 ha with ha | ha
    · exact ⟨(ih a ha).1, fun e he => (ih a ha).2 e (Finset.mem_of_mem_erase he)⟩
    · rw [List.mem_singleton] at ha
      subst ha
      refine ⟨(mem_of_incident_eq hp).2, fun e he hpe => ?_⟩
      have : e ∈ incident touch R p := mem_incident.2 ⟨Finset.mem_of_mem_erase he, hpe⟩
      rw [hp, Finset.mem_singleton] at this
      exact Finset.ne_of_mem_erase he this

/-- Nor by an edge peeled after it. -/
theorem pairwise_private (h : Peels touch H order R) :
    order.Pairwise fun a b => a.2 ∉ touch b.1 := by
  induction h with
  | start => exact List.Pairwise.nil
  | snoc hprev hp ih =>
    rename_i order R f p
    have hf : f ∈ R := (mem_of_incident_eq hp).1
    rw [List.pairwise_append]
    refine ⟨ih, List.pairwise_singleton _ _, fun a ha b hb => ?_⟩
    rw [List.mem_singleton] at hb
    subst hb
    exact (hprev.private_of_remaining a ha).2 f hf

theorem length_add_card (h : Peels touch H order R) : order.length + R.card = H.card := by
  induction h with
  | start => simp
  | snoc _ hp ih =>
    rename_i order R f p _
    have hf : f ∈ R := (mem_of_incident_eq hp).1
    have hpos : 0 < R.card := Finset.card_pos.2 ⟨f, hf⟩
    rw [List.length_append, List.length_singleton, Finset.card_erase_of_mem hf]
    omega

/-- **Exactness of peeling.**  When no edge left has a position to itself,
everything has been peeled exactly when `H` contains no core. -/
theorem empty_iff_no_core (h : Peels touch H order R)
    (hstuck : ∀ p, (incident touch R p).card ≠ 1) :
    R = ∅ ↔ ¬ ∃ S ⊆ H, IsCore touch S := by
  constructor
  · rintro rfl ⟨S, hSH, hS⟩
    exact hS.1.ne_empty (Finset.subset_empty.1 (h.core_subset hS hSH))
  · intro hno
    by_contra hR
    exact hno ⟨R, h.remaining_subset,
      isCore_of_no_private (Finset.nonempty_iff_ne_empty.2 hR) hstuck⟩

end Peels

/-! ## Assigning values in reverse peel order -/

variable {V : Type*} [AddCommGroup V] [Module (ZMod 2) V]

/-- Walk the peel order backwards; at each edge set its own position so that the
edge gets its target. -/
def fill (touch : E → Finset P) (target : E → V) : List (E × P) → P → V
  | [] => fun _ => 0
  | (e, p) :: rest =>
      Function.update (fill touch target rest) p
        (target e + ∑ q ∈ touch e, fill touch target rest q)

omit [DecidableEq E] [Module (ZMod 2) V] in
theorem fill_cons_of_ne (target : E → V) (e : E) {p q : P} (rest : List (E × P)) (h : q ≠ p) :
    fill touch target ((e, p) :: rest) q = fill touch target rest q :=
  Function.update_of_ne h _ _

omit [DecidableEq E] [Module (ZMod 2) V] in
/-- Positions that were never chosen keep the value zero. -/
theorem fill_of_not_mem (target : E → V) {order : List (E × P)} {q : P}
    (h : q ∉ order.map Prod.snd) : fill touch target order q = 0 := by
  induction order with
  | nil => rfl
  | cons a rest ih =>
    obtain ⟨e, p⟩ := a
    simp only [List.map_cons, List.mem_cons, not_or] at h
    rw [fill_cons_of_ne target e rest h.1, ih h.2]

omit [DecidableEq E] in
/-- **Every peeled edge gets its target.**  A position chosen for an earlier
edge is touched by no later one, so setting it disturbs none of the sums already
made right. -/
theorem sum_fill (target : E → V) {order : List (E × P)}
    (hpriv : order.Pairwise fun a b => a.2 ∉ touch b.1) (hmem : ∀ a ∈ order, a.2 ∈ touch a.1) :
    ∀ a ∈ order, ∑ q ∈ touch a.1, fill touch target order q = target a.1 := by
  induction order with
  | nil => simp
  | cons a rest ih =>
    obtain ⟨e, p⟩ := a
    rw [List.pairwise_cons] at hpriv
    have hzero : fill touch target rest p = 0 := by
      refine fill_of_not_mem target fun hp => ?_
      obtain ⟨b, hb, hbp⟩ := List.mem_map.1 hp
      exact hpriv.1 b hb (hbp ▸ hmem b (List.mem_cons_of_mem _ hb))
    intro b hb
    rcases List.mem_cons.1 hb with rfl | hb
    · have hpe : p ∈ touch e := hmem (e, p) (List.mem_cons_self ..)
      have hrest : ∑ q ∈ (touch e).erase p, fill touch target ((e, p) :: rest) q
          = ∑ q ∈ touch e, fill touch target rest q := by
        rw [← Finset.add_sum_erase _ _ hpe, hzero, zero_add]
        exact Finset.sum_congr rfl fun q hq =>
          fill_cons_of_ne target e rest (Finset.ne_of_mem_erase hq)
      rw [← Finset.add_sum_erase _ _ hpe, hrest, fill, Function.update_self, add_assoc,
        ZModModule.add_self, add_zero]
    · have hpb : p ∉ touch b.1 := hpriv.1 b hb
      calc ∑ q ∈ touch b.1, fill touch target ((e, p) :: rest) q
          = ∑ q ∈ touch b.1, fill touch target rest q :=
            Finset.sum_congr rfl fun q hq =>
              fill_cons_of_ne target e rest fun h => hpb (h ▸ hq)
        _ = target b.1 := ih hpriv.2 (fun a ha => hmem a (List.mem_cons_of_mem _ ha)) b hb

end Peeling
