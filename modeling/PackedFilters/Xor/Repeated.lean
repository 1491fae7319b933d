import PackedFilters.Xor.Peel

/-!
# Repeated hashes are never peeled

The peeling loop takes the exclusive or at a position counted once for the one hash left
there.  On a list with repetitions the remaining hashes are a multiset, and that is still
right: a repeated hash counts twice at each of its positions, so a position counted once
holds a hash that occurs once.

But then a repeated hash is never peeled, because no position ever has it to itself, and the
loop ends with something left.  Its copies are not even seen in `hash_xors`, where two of
them cancel.  This is why the builders drop repetitions before they peel, and why the mixing
of a seed must not make new ones.

* `RepeatInv` — counters and sums are those of the remaining multiset, in which every
  repeated hash still has all its copies;
* `RepeatInv.step` — one round keeps it;
* `peelHashes_repeated` — the loop ends without having peeled a repeated hash, so it does not
  peel everything;
* `hashXors_repeated` — the two copies of a hash cancel in `hash_xors`: the vector of a list
  with the hash twice is that of the list without it.
-/

namespace PackedFilters.Xor

variable {L : ℕ} {hashes : List UInt64}

/-- The remaining hashes that touch a position. -/
def touchingM (L : ℕ) (R : Multiset UInt64) (q : ℕ) : Multiset UInt64 :=
  R.filter fun h => q ∈ getPositions h L

theorem touchingM_cons (L : ℕ) (R : Multiset UInt64) (h : UInt64) (q : ℕ) :
    touchingM L (h ::ₘ R) q
      = if q ∈ getPositions h L then h ::ₘ touchingM L R q else touchingM L R q := by
  unfold touchingM
  split
  · next hq => exact Multiset.filter_cons_of_pos _ hq
  · next hq => exact Multiset.filter_cons_of_neg _ hq

theorem touchingM_coe (L : ℕ) (hashes : List UInt64) (q : ℕ) :
    touchingM L hashes q = touching L hashes q := Multiset.filter_coe ..

/-- The vectors of the loop, over the multiset `R` of remaining hashes. -/
structure RepeatInv (L : ℕ) (hashes : List UInt64) (s : PeelState) (R : Multiset UInt64) :
    Prop where
  split : ((s.peelOrder.map Prod.fst : List UInt64) : Multiset UInt64) + R = hashes
  count : ∀ q, s.counts.getD q 0 = (touchingM L R q).card
  xor : ∀ q, XorNat.ofNat (s.hashXors.getD q 0).toNat
    = ((touchingM L R q).map fun h => XorNat.ofNat h.toNat).sum
  kept : ∀ x, 2 ≤ hashes.count x → R.count x = hashes.count x

theorem repeatInv_start (hL : 0 < L) (h3 : 3 * L ≤ 4294967295) (hlen : hashes.length < 4294967296) :
    RepeatInv L hashes (startPeeling L hashes) hashes := by
  have hc := counted_countHashes hL h3 hashes
  refine ⟨?_, fun q => ?_, fun q => ?_, fun x _ => Multiset.coe_count x hashes⟩
  · show ((((countHashes L hashes).peelOrder).map Prod.fst : List UInt64) : Multiset UInt64) + _ = _
    simp [hc.frame.2.2]
  · have hle : (touching L hashes q).length ≤ hashes.length := List.length_filter_le ..
    have hcount := hc.count q
    rw [u32_of_lt (by omega)] at hcount
    rw [touchingM_coe, Multiset.coe_card]
    exact hcount
  · rw [touchingM_coe, Multiset.map_coe, Multiset.sum_coe]
    exact hc.xor q

/-- Releasing the one hash left at a position: it was not a repeated one. -/
theorem RepeatInv.release {s s' : PeelState} {R : Multiset UInt64} {p : ℕ} {h : UInt64}
    (hinv : RepeatInv L hashes s (h ::ₘ R)) (hp : p ∈ getPositions h L)
    (hone : s.counts.getD p 0 = 1)
    (hr : Released h (getPositions h L)
      { s with queueIndex := s.queueIndex + 1, peelOrder := s.peelOrder ++ [(h, p)] } s') :
    RepeatInv L hashes s' R := by
  obtain ⟨hsplit, hcount, hxor, hkept⟩ := hinv
  -- no other copy of `h` touches its own position
  have hself : touchingM L R p = 0 := by
    have := hcount p
    rw [hone, touchingM_cons, if_pos hp, Multiset.card_cons] at this
    exact Multiset.card_eq_zero.1 (by omega)
  have habsent : h ∉ R := by
    intro hR
    have : h ∈ touchingM L R p := Multiset.mem_filter.2 ⟨hR, hp⟩
    simp [hself] at this
  refine ⟨?_, fun q => ?_, fun q => ?_, fun x hx => ?_⟩
  · rw [hr.frame.2, ← hsplit, List.map_append, ← Multiset.coe_add, add_assoc]
    rfl
  · rw [hr.count]
    have hq := hcount q
    rw [touchingM_cons] at hq
    split
    · next hmem =>
      rw [if_pos hmem, Multiset.card_cons] at hq
      exact Nat.sub_eq_of_eq_add hq
    · next hmem => rwa [if_neg hmem] at hq
  · rw [hr.xor]
    have hcq := hcount q
    have hq := hxor q
    rw [touchingM_cons] at hcq hq
    by_cases hmem : q ∈ getPositions h L
    · rw [if_pos hmem, Multiset.card_cons] at hcq
      rw [if_pos hmem, Multiset.map_cons, Multiset.sum_cons] at hq
      have hne : s.counts.getD q 0 ≠ 0 := by omega
      rw [if_pos ⟨hmem, hne⟩, UInt64.toNat_xor, XorNat.ofNat_xor, hq, add_comm, ← add_assoc,
        XorNat.add_self, zero_add]
    · rw [if_neg hmem] at hq
      rw [if_neg fun hc => hmem hc.1]
      exact hq
  · have hold := hkept x hx
    by_cases hxh : x = h
    · subst hxh
      rw [Multiset.count_cons_self, Multiset.count_eq_zero_of_notMem habsent] at hold
      omega
    · rwa [Multiset.count_cons_of_ne hxh] at hold

/-- **One step** keeps the invariant. -/
theorem RepeatInv.step (hL : 0 < L) (h3 : 3 * L ≤ 4294967295) {s : PeelState}
    {R : Multiset UInt64} (hinv : RepeatInv L hashes s R) (hqueue : QueueInv L s) :
    ∃ R', RepeatInv L hashes (peelStep L s) R' := by
  rcases peelStep_cases hL h3 hqueue.counts_length hqueue.xors_length _ rfl
    with ⟨-, he⟩ | ⟨hone, hr⟩
  · rw [he]
    exact ⟨R, hinv.split, hinv.count, hinv.xor, hinv.kept⟩
  · set p := s.queue.getD s.queueIndex 0
    obtain ⟨h, hh⟩ := Multiset.card_eq_one.1 ((hinv.count p).symm.trans hone)
    have hhash : s.hashXors.getD p 0 = h := by
      refine word_ext ?_
      rw [hinv.xor, hh, Multiset.map_singleton, Multiset.sum_singleton]
    have hmem : h ∈ touchingM L R p := by simp [hh]
    obtain ⟨hR, hp⟩ := Multiset.mem_filter.1 hmem
    obtain ⟨R', rfl⟩ := Multiset.exists_cons_of_mem hR
    rw [hhash] at hr
    exact ⟨R', hinv.release hp hone hr⟩

/-- In every state of a run the repeated hashes remain. -/
theorem PeelRun.repeatInv (hL : 0 < L) (h3 : 3 * L ≤ 4294967295)
    (hlen : hashes.length < 4294967296) {s : PeelState} (h : PeelRun L hashes s) :
    ∃ R, RepeatInv L hashes s R := by
  have hboth : QueueInv L s ∧ ∃ R, RepeatInv L hashes s R := by
    refine WhileLoop.Run.invariant (I := fun s => QueueInv L s ∧ ∃ R, RepeatInv L hashes s R)
      ⟨queueInv_start hL h3 hashes, _, repeatInv_start hL h3 hlen⟩ ?_ h
    rintro s ⟨hq, R, hR⟩ hp
    exact ⟨hq.step hL h3 hp, hR.step hL h3 hq⟩
  exact hboth.2

/-- **A repeated hash is never peeled**, and so the loop leaves the list unpeeled. -/
theorem peelHashes_repeated (hL : 0 < L) (h3 : 3 * L ≤ 4294967295)
    (hlen : hashes.length < 4294967296) {x : UInt64} (hx : 2 ≤ hashes.count x) :
    ∃ s, peelHashes L hashes = .ok s ∧ x ∉ s.peelOrder.map Prod.fst ∧
      s.peelOrder.length < hashes.length := by
  obtain ⟨s, hs, hrun, -⟩ := peelHashes_ok hL h3 hashes
  obtain ⟨R, hsplit, -, -, hkept⟩ := hrun.repeatInv hL h3 hlen
  have hcount := congrArg (Multiset.count x) hsplit
  have hcard := congrArg Multiset.card hsplit
  have hle := Multiset.count_le_card x R
  simp only [Multiset.count_add, Multiset.coe_count, hkept x hx] at hcount
  simp only [Multiset.card_add, Multiset.coe_card, List.length_map] at hcard
  rw [hkept x hx] at hle
  refine ⟨s, hs, List.count_eq_zero.1 (by omega), by omega⟩

/-- **Two equal hashes cancel** in `hash_xors`. -/
theorem hashXors_repeated (hL : 0 < L) (h3 : 3 * L ≤ 4294967295) (hashes : List UInt64)
    (x : UInt64) (q : ℕ) :
    (countHashes L (x :: x :: hashes)).hashXors.getD q 0
      = (countHashes L hashes).hashXors.getD q 0 := by
  refine word_ext ?_
  rw [(counted_countHashes hL h3 _).xor, (counted_countHashes hL h3 _).xor]
  by_cases hq : q ∈ getPositions x L
  · simp [touching, hq, ← add_assoc, XorNat.add_self]
  · simp [touching, hq]

end PackedFilters.Xor
