import PackedFilters.Xor.Peel

/-!
# Distinct hashes and the assigned table

What goes into the peeling loop and what is made of its outcome.

In front of the loop stand `std::sort` and `std::unique`, whose result depends on the hashes
that occur and on nothing else.  Behind it the table is assigned in the reverse of the peel
order: a hash is given its fingerprint through the position it had to itself, which no hash
that is assigned earlier touches, so that what was made right stays right.

* `sortUnique` gives the strictly sorted list of the hashes that occur, so it is determined
  by them (`sortUnique_eq_of_mem_iff`);
* `Assigned`, `assigned_assignFingerprints` — the assignment loop refines `Peeling.fill`;
* `XorTable` — a table in which the three values of every hash add up to its fingerprint;
  `xorTable_of_peeled` builds it from a complete peel order, and `XorTable.read` is the
  reader on its packed form, whatever stands behind it;
* `readFingerprint_cases` — the reader on any payload: three values, or `none` when one of
  them ends behind the payload, and no read outside it.
-/

namespace PackedFilters.Xor

open Peeling LittleEndian

/-! ## Distinct hashes -/

theorem mem_unique (x : UInt64) : ∀ l : List UInt64, x ∈ unique l ↔ x ∈ l := by
  intro l
  induction l using unique.induct with
  | case1 => rfl
  | case2 a => rfl
  | case3 b rest ih =>
    rw [unique, if_pos rfl, ih]
    simp
  | case4 a b rest hab ih =>
    rw [unique, if_neg hab, List.mem_cons, ih, List.mem_cons (a := x) (b := a)]

/-- Dropping repetitions from a sorted list leaves it strictly sorted. -/
theorem pairwise_unique : ∀ l : List UInt64, l.Pairwise (· ≤ ·) → (unique l).Pairwise (· < ·) := by
  intro l
  induction l using unique.induct with
  | case1 => exact fun _ => List.Pairwise.nil
  | case2 a => exact fun _ => List.pairwise_singleton _ _
  | case3 b rest ih =>
    intro h
    rw [unique, if_pos rfl]
    exact ih (List.pairwise_cons.1 h).2
  | case4 a b rest hab ih =>
    intro h
    obtain ⟨ha, hrest⟩ := List.pairwise_cons.1 h
    rw [unique, if_neg hab, List.pairwise_cons]
    refine ⟨fun x hx => ?_, ih hrest⟩
    have hlt : a < b := UInt64.lt_of_le_of_ne (ha b (List.mem_cons_self ..)) hab
    rcases List.mem_cons.1 ((mem_unique x _).1 hx) with rfl | hx
    · exact hlt
    · exact UInt64.lt_of_lt_of_le hlt ((List.pairwise_cons.1 hrest).1 x hx)

theorem pairwise_sortUnique (hashes : List UInt64) : (sortUnique hashes).Pairwise (· < ·) := by
  have htrans : ∀ a b c : UInt64, decide (a ≤ b) = true → decide (b ≤ c) = true →
      decide (a ≤ c) = true := fun a b c hab hbc =>
    decide_eq_true (UInt64.le_trans (of_decide_eq_true hab) (of_decide_eq_true hbc))
  have htotal : ∀ a b : UInt64, (decide (a ≤ b) || decide (b ≤ a)) = true := fun a b => by
    simpa using UInt64.le_total a b
  refine pairwise_unique _ ((List.pairwise_mergeSort htrans htotal hashes).imp fun h => ?_)
  exact of_decide_eq_true h

@[simp] theorem mem_sortUnique {x : UInt64} {hashes : List UInt64} :
    x ∈ sortUnique hashes ↔ x ∈ hashes := by
  rw [sortUnique, mem_unique, List.mem_mergeSort]

theorem sortUnique_nodup (hashes : List UInt64) : (sortUnique hashes).Nodup :=
  (pairwise_sortUnique hashes).imp fun h => UInt64.ne_of_lt h

/-- The same hashes, in any order and number, give the same list. -/
theorem sortUnique_eq_of_mem_iff {l l' : List UInt64} (h : ∀ x, x ∈ l ↔ x ∈ l') :
    sortUnique l = sortUnique l' :=
  List.Pairwise.eq_of_mem_iff (pairwise_sortUnique l) (pairwise_sortUnique l') fun x => by
    rw [mem_sortUnique, mem_sortUnique, h]

theorem sortUnique_eq_nil_iff {hashes : List UInt64} : sortUnique hashes = [] ↔ hashes = [] := by
  simp only [List.eq_nil_iff_forall_not_mem, mem_sortUnique]

theorem sortUnique_singleton (h : UInt64) : sortUnique [h] = [h] := by
  rw [sortUnique, List.mergeSort_singleton, unique]

theorem length_sortUnique (hashes : List UInt64) :
    (sortUnique hashes).length = hashes.toFinset.card := by
  rw [← List.toFinset_card_of_nodup (sortUnique_nodup hashes)]
  congr 1
  ext x
  simp

/-- The first `count` numbers as hashes: a list that can be of any length without being
written out. -/
def countedHashes (count : ℕ) : List UInt64 := (List.range count).map UInt64.ofNat

@[simp] theorem length_countedHashes (count : ℕ) : (countedHashes count).length = count := by
  rw [countedHashes, List.length_map, List.length_range]

theorem countedHashes_nodup {count : ℕ} (h : count ≤ 18446744073709551616) :
    (countedHashes count).Nodup := by
  refine List.Nodup.map_on (fun a ha b hb hab => ?_) List.nodup_range
  rw [List.mem_range] at ha hb
  have := congrArg UInt64.toNat hab
  rwa [UInt64.toNat_ofNat', UInt64.toNat_ofNat', Nat.mod_eq_of_lt (by omega),
    Nat.mod_eq_of_lt (by omega)] at this

/-! ## Assignment -/

variable {L bits : ℕ}

/-- A sum over the positions of a hash. -/
theorem sum_touch (hL : 0 < L) (h3 : 3 * L ≤ 4294967295) (h : UInt64) (x : ℕ → XorNat) :
    ∑ q ∈ touch L h, x q = x (position0 h L) + x (position1 h L) + x (position2 h L) := by
  rw [touch, List.sum_toFinset x (getPositions_nodup hL h3 h)]
  simp only [getPositions, List.map_cons, List.map_nil, List.sum_cons, List.sum_nil, add_zero,
    add_assoc]

theorem ofNat_xor_three (a b c : UInt32) :
    XorNat.ofNat (a ^^^ b ^^^ c).toNat
      = XorNat.ofNat a.toNat + XorNat.ofNat b.toNat + XorNat.ofNat c.toNat := by
  rw [UInt32.toNat_xor, XorNat.ofNat_xor, UInt32.toNat_xor, XorNat.ofNat_xor]

theorem toNat_xor_lt {a b : UInt32} {n : ℕ} (ha : a.toNat < 2 ^ n) (hb : b.toNat < 2 ^ n) :
    (a ^^^ b).toNat < 2 ^ n := by
  rw [UInt32.toNat_xor]
  exact Nat.xor_lt_two_pow ha hb

/-- The value a hash is to get. -/
def target (bits : ℕ) (h : UInt64) : XorNat := XorNat.ofNat (fingerprint h bits).toNat

/-- The table of the assignment loop is the assignment of the peel order so far. -/
structure Assigned (L bits : ℕ) (order : List PeelEntry) (table : List UInt32) : Prop where
  length : table.length = 3 * L
  width : ∀ i, (table.getD i 0).toNat < 2 ^ bits
  eq_fill : ∀ q, assignment table q = fill (touch L) (target bits) order q

theorem Assigned.step (hL : 0 < L) (h3 : 3 * L ≤ 4294967295) (hbits : bits ≤ 16) {h : UInt64}
    {p : ℕ} (hp : p < 3 * L) {order : List PeelEntry} {table : List UInt32}
    (ht : Assigned L bits order table) :
    Assigned L bits ((h, p) :: order) (assignEntry L bits (h, p) table) := by
  obtain ⟨hlen, hwidth, hfill⟩ := ht
  set v0 := table.getD (position0 h L) 0 with hv0
  set v1 := table.getD (position1 h L) 0 with hv1
  set v2 := table.getD (position2 h L) 0 with hv2
  set value := fingerprint h bits ^^^ v0 ^^^ v1 ^^^ v2 with hvalue
  have hfp : (fingerprint h bits).toNat < 2 ^ bits := toNat_and_bitMask_lt _ hbits
  have hlt : value.toNat < 2 ^ bits :=
    toNat_xor_lt (toNat_xor_lt (toNat_xor_lt hfp (hwidth _)) (hwidth _)) (hwidth _)
  have hentry : assignEntry L bits (h, p) table = table.set p value := by
    show table.set p (value &&& bitMask bits) = _
    rw [and_bitMask_of_lt hbits hlt]
  rw [hentry]
  refine ⟨(List.length_set ..).trans hlen, fun i => ?_, fun q => ?_⟩
  · rw [getD_set]
    split
    · exact hlt
    · exact hwidth i
  · by_cases hq : q = p
    · subst hq
      have hsum : XorNat.ofNat value.toNat
          = target bits h + ∑ r ∈ touch L h, fill (touch L) (target bits) order r := by
        rw [sum_touch hL h3, ← hfill, ← hfill, ← hfill, hvalue, ofNat_xor_three, UInt32.toNat_xor,
          XorNat.ofNat_xor, add_assoc, add_assoc, add_assoc]
        rfl
      rw [fill, Function.update_self, assignment, getD_set_self (hlen ▸ hp), hsum]
    · rw [fill_cons_of_ne _ _ _ hq, assignment, getD_set_ne _ (Ne.symm hq)]
      exact hfill q

/-- **The assignment loop** refines the assignment in reverse peel order. -/
theorem assigned_assignFingerprints (hL : 0 < L) (h3 : 3 * L ≤ 4294967295) (hbits : bits ≤ 16) :
    ∀ order : List PeelEntry, (∀ a ∈ order, a.2 < 3 * L) →
      Assigned L bits order (assignFingerprints L bits order) := by
  intro order
  induction order with
  | nil =>
    refine fun _ => ⟨?_, fun i => ?_, fun q => assignment_replicate _ q⟩
    · rw [assignFingerprints, List.foldr_nil, List.length_replicate, tableLength_eq h3]
    · rw [assignFingerprints, List.foldr_nil, getD_replicate]
      exact Nat.two_pow_pos bits
  | cons a order ih =>
    intro hlt
    obtain ⟨ha, hlt⟩ := List.forall_mem_cons.1 hlt
    exact (ih hlt).step hL h3 hbits ha

/-! ## The table and its reader -/

/-- A table in which every hash's three values add up to its fingerprint. -/
structure XorTable (L bits : ℕ) (hashes : List UInt64) (table : List UInt32) : Prop where
  length : table.length = 3 * L
  width : ∀ i, (table.getD i 0).toNat < 2 ^ bits
  sum : ∀ h ∈ hashes, ∑ q ∈ touch L h, assignment table q = target bits h

/-- A complete peel order gives such a table. -/
theorem xorTable_of_peeled (hL : 0 < L) (h3 : 3 * L ≤ 4294967295) (hbits : bits ≤ 16)
    {hashes : List UInt64} (hnodup : hashes.Nodup) {s : PeelState} (hrun : PeelRun L hashes s)
    (hall : s.peelOrder.length = hashes.length) :
    XorTable L bits hashes (assignFingerprints L bits s.peelOrder) := by
  obtain ⟨hperm, R, hpeels⟩ := hrun.perm hL h3 hnodup hall
  have hmem : ∀ a ∈ s.peelOrder, a.2 ∈ touch L a.1 := fun a ha =>
    (hpeels.private_of_remaining a ha).1
  obtain ⟨hlen, hwidth, hfill⟩ := assigned_assignFingerprints hL h3 hbits s.peelOrder fun a ha =>
    getPositions_lt hL h3 a.1 a.2 (mem_touch.1 (hmem a ha))
  refine ⟨hlen, hwidth, fun h hh => ?_⟩
  obtain ⟨a, ha, rfl⟩ := List.mem_map.1 (hperm.mem_iff.2 hh)
  rw [Finset.sum_congr rfl fun q _ => hfill q]
  exact sum_fill (target bits) hpeels.pairwise_private hmem a ha

/-- **The reader on the packed table** finds the fingerprint of every hash. -/
theorem XorTable.read (hL : 0 < L) (h3 : 3 * L ≤ 4294967295) (hb1 : 1 ≤ bits) (hbits : bits ≤ 16)
    {hashes : List UInt64} {table : List UInt32} (ht : XorTable L bits hashes table) {out : Bytes}
    (rest : Bytes) (hlen : out.length = packedByteSize table.length bits)
    (hval : value out = Nat.ofDigits (2 ^ bits) (fields table bits)) {h : UInt64}
    (hh : h ∈ hashes) :
    readFingerprint (out ++ rest) out.length L bits h = .ok (some (fingerprint h bits)) := by
  have hread {p : ℕ} (hp : p < 3 * L) : readPackedValue (out ++ rest) out.length p bits
      = .ok (some (table.getD p 0)) := by
    rw [readPackedValue_packed hb1 hbits hlen hval (ht.length.symm ▸ hp),
      and_bitMask_of_lt hbits (ht.width p)]
  have hsum := ht.sum h hh
  rw [sum_touch hL h3, assignment, assignment, assignment, ← ofNat_xor_three, target] at hsum
  have hp0 := position0_lt hL h
  have hp1 := position1_range hL h3 h
  have hp2 := position2_range hL h3 h
  rw [readFingerprint, hread (by omega), ok_bind]
  simp only [hread (by omega : position1 h L < 3 * L), hread hp2.2, ok_bind,
    UInt32.toNat_inj.1 (XorNat.ofNat_injective hsum)]

/-- **The reader on any payload** gives up when one of the three values ends behind it,
and otherwise returns their sum. -/
theorem readFingerprint_cases {payload : Bytes} {size : ℕ} (hb1 : 1 ≤ bits) (hbits : bits ≤ 16)
    (hsize : size ≤ payload.length) (L : ℕ) (h : UInt64) :
    ((∃ p ∈ getPositions h L, size < p * bits / 8 + bytesNeeded p bits) ∧
        readFingerprint payload size L bits h = .ok none) ∨
      ((∀ p ∈ getPositions h L, p * bits / 8 + bytesNeeded p bits ≤ size) ∧
        ∃ v, readFingerprint payload size L bits h = .ok (some v)) := by
  have hread (p : ℕ) : (size < p * bits / 8 + bytesNeeded p bits ∧
        readPackedValue payload size p bits = .ok none) ∨
      (p * bits / 8 + bytesNeeded p bits ≤ size ∧
        ∃ v, readPackedValue payload size p bits = .ok (some v)) := by
    by_cases hp : size < p * bits / 8 + bytesNeeded p bits
    · exact Or.inl ⟨hp, readPackedValue_eq_none hp⟩
    · obtain ⟨v, hv, -⟩ := readPackedValue_ok payload hb1 hbits hsize (not_lt.1 hp)
      exact Or.inr ⟨not_lt.1 hp, v, hv⟩
  unfold readFingerprint
  simp only [getPositions, List.mem_cons, List.not_mem_nil, or_false, exists_eq_or_imp,
    exists_eq_left, forall_eq_or_imp, forall_eq]
  rcases hread (position0 h L) with ⟨hp0, e0⟩ | ⟨hp0, v0, e0⟩
  · exact Or.inl ⟨Or.inl hp0, by rw [e0, ok_bind]⟩
  rw [e0, ok_bind]
  rcases hread (position1 h L) with ⟨hp1, e1⟩ | ⟨hp1, v1, e1⟩
  · exact Or.inl ⟨Or.inr (Or.inl hp1), by simp only [e1, ok_bind]⟩
  simp only [e1, ok_bind]
  rcases hread (position2 h L) with ⟨hp2, e2⟩ | ⟨hp2, v2, e2⟩
  · exact Or.inl ⟨Or.inr (Or.inr hp2), by rw [e2, ok_bind]⟩
  · exact Or.inr ⟨⟨hp0, hp1, hp2⟩, v0 ^^^ v1 ^^^ v2, by rw [e2, ok_bind]⟩

end PackedFilters.Xor
