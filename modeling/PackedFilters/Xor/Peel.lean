import PackedFilters.Lib.Peeling
import PackedFilters.Xor.Model

/-!
# The peeling loop refines peeling of a hypergraph

The hashes are the edges of a hypergraph, each touching its three positions (`touch`).  The
abstract peeling knows which edges are left; the loop does not.  It keeps only a counter and
an exclusive or for each position, takes the exclusive or at a position counted once for the
hash that is left there, and has a queue in which entries go stale: a position may be queued
and, by the time its turn comes, have lost its last hash.

So there are two invariants.  One holds whatever the hashes are, and is enough for the loop
to end and to stay inside its vectors; the other needs the hashes to be distinct, and says
that the vectors are the number and the sum of the edges that are left.

* `QueueInv` — the queue never holds a position twice and never one outside the table,
  whatever the hashes; so the loop ends (`peelHashes_ok`);
* `PeelInv` — `counts` and `hash_xors` are the number and the sum of the remaining edges at
  each position, and every position with one edge left is still queued;
* `peelStep_cases`, `PeelInv.step` — one round: a stale entry is dropped, or the hash at the
  selected position is peeled;
* `peelHashes_exact` — the loop peels everything exactly when the hashes contain no core, and
  then the peel order is a permutation of them.
-/

namespace PackedFilters.Xor

open Peeling

/-! ## Positions -/

section Positions

variable {L : ℕ} (hL : 0 < L) (h3 : 3 * L ≤ 4294967295) (h : UInt64)

theorem tableLength_eq (h3 : 3 * L ≤ 4294967295) : tableLength L = 3 * L := u32_of_lt (by omega)

include hL

theorem position0_lt : position0 h L < L := fastRange32_lt _ hL

include h3

theorem position1_range : L ≤ position1 h L ∧ position1 h L < 2 * L := by
  have hlt := fastRange32_lt (rotateLeft64 h 21).toUInt32 hL
  rw [position1, u32_of_lt (by omega)]
  omega

theorem position2_range : 2 * L ≤ position2 h L ∧ position2 h L < 3 * L := by
  have hlt := fastRange32_lt (rotateLeft64 h 42).toUInt32 hL
  rw [position2, u32_of_lt (by omega : 2 * L < 4294967296), u32_of_lt (by omega)]
  omega

theorem getPositions_lt : ∀ p ∈ getPositions h L, p < 3 * L := by
  have h0 := position0_lt hL h
  have h1 := position1_range hL h3 h
  have h2 := position2_range hL h3 h
  simp only [getPositions, List.forall_mem_cons, List.not_mem_nil]
  exact ⟨by omega, by omega, h2.2, fun _ hf => hf.elim⟩

/-- The three thirds of the table keep the positions apart. -/
theorem getPositions_nodup : (getPositions h L).Nodup := by
  have h0 := position0_lt hL h
  have h1 := position1_range hL h3 h
  have h2 := position2_range hL h3 h
  simp only [getPositions, List.nodup_cons, List.mem_cons, List.not_mem_nil, or_false, not_or]
  exact ⟨⟨by omega, by omega⟩, by omega, not_false, List.nodup_nil⟩

end Positions

/-- The positions of a hash, as an edge. -/
def touch (L : ℕ) (h : UInt64) : Finset ℕ := (getPositions h L).toFinset

@[simp] theorem mem_touch {L p : ℕ} {h : UInt64} : p ∈ touch L h ↔ p ∈ getPositions h L :=
  List.mem_toFinset

/-! ## Entering and releasing the positions of one hash -/

/-- What entering a hash at the positions `l` changes. -/
structure Touched (h : UInt64) (l : List ℕ) (s s' : PeelState) : Prop where
  counts_length : s'.counts.length = s.counts.length
  xors_length : s'.hashXors.length = s.hashXors.length
  count : ∀ q, s'.counts.getD q 0
    = if q ∈ l then u32 (s.counts.getD q 0 + 1) else s.counts.getD q 0
  xor : ∀ q, s'.hashXors.getD q 0
    = if q ∈ l then s.hashXors.getD q 0 ^^^ h else s.hashXors.getD q 0
  frame : s'.queue = s.queue ∧ s'.queueIndex = s.queueIndex ∧ s'.peelOrder = s.peelOrder

theorem touched_foldl (h : UInt64) : ∀ (l : List ℕ) (s : PeelState), l.Nodup →
    (∀ p ∈ l, p < s.counts.length) → s.hashXors.length = s.counts.length →
    Touched h l s (l.foldl (PeelState.touchPosition h) s) := by
  intro l
  induction l with
  | nil => exact fun s _ _ _ => ⟨rfl, rfl, fun q => by simp, fun q => by simp, rfl, rfl, rfl⟩
  | cons p l ih =>
    intro s hnodup hlt hlen
    obtain ⟨hp, hnodup⟩ := List.nodup_cons.1 hnodup
    obtain ⟨hplt, hlt⟩ := List.forall_mem_cons.1 hlt
    have hcl : (s.touchPosition h p).counts.length = s.counts.length := List.length_set ..
    have hxl : (s.touchPosition h p).hashXors.length = s.hashXors.length := List.length_set ..
    obtain ⟨ihc, ihx, ihcount, ihxor, ihq⟩ := ih (s.touchPosition h p) hnodup (by rwa [hcl])
      (by rw [hcl, hxl, hlen])
    refine ⟨ihc.trans hcl, ihx.trans hxl, fun q => ?_, fun q => ?_, ihq⟩
    · rw [List.foldl_cons, ihcount]
      by_cases hqp : p = q
      · subst hqp
        rw [if_neg hp, if_pos (List.mem_cons_self ..), PeelState.touchPosition, getD_set_self hplt]
      · rw [PeelState.touchPosition, getD_set_ne _ hqp]
        simp [List.mem_cons, Ne.symm hqp]
    · rw [List.foldl_cons, ihxor]
      by_cases hqp : p = q
      · subst hqp
        rw [if_neg hp, if_pos (List.mem_cons_self ..), PeelState.touchPosition,
          getD_set_self (by rwa [hlen])]
      · rw [PeelState.touchPosition, getD_set_ne _ hqp]
        simp [List.mem_cons, Ne.symm hqp]

/-- What releasing a hash at the positions `l` changes. -/
structure Released (h : UInt64) (l : List ℕ) (s s' : PeelState) : Prop where
  counts_length : s'.counts.length = s.counts.length
  xors_length : s'.hashXors.length = s.hashXors.length
  count : ∀ q, s'.counts.getD q 0
    = if q ∈ l then s.counts.getD q 0 - 1 else s.counts.getD q 0
  xor : ∀ q, s'.hashXors.getD q 0
    = if q ∈ l ∧ s.counts.getD q 0 ≠ 0 then s.hashXors.getD q 0 ^^^ h else s.hashXors.getD q 0
  queue : s'.queue = s.queue ++ l.filter fun q => s.counts.getD q 0 = 2
  frame : s'.queueIndex = s.queueIndex ∧ s'.peelOrder = s.peelOrder

/-- One position. -/
theorem released_one (h : UInt64) {s : PeelState} {p : ℕ} (hp : p < s.counts.length)
    (hlen : s.hashXors.length = s.counts.length) :
    Released h [p] s (s.releasePosition h p) := by
  rw [PeelState.releasePosition]
  by_cases hzero : s.counts.getD p 0 = 0
  · rw [if_pos hzero]
    refine ⟨rfl, rfl, fun q => ?_, fun q => ?_, ?_, rfl, rfl⟩
    · by_cases hq : q = p
      · subst hq
        rw [hzero, ite_self]
      · rw [if_neg (by simpa using hq)]
    · refine (if_neg ?_).symm
      rintro ⟨hq, hne⟩
      rw [List.mem_singleton.1 hq] at hne
      exact hne hzero
    · rw [List.filter_cons_of_neg (by rw [hzero]; decide), List.filter_nil, List.append_nil]
  · rw [if_neg hzero]
    refine ⟨List.length_set .., List.length_set .., fun q => ?_, fun q => ?_, ?_, rfl, rfl⟩
    · by_cases hq : q = p
      · subst hq
        rw [if_pos (List.mem_singleton_self _), getD_set_self hp]
      · rw [if_neg (by simpa using hq), getD_set_ne _ (Ne.symm hq)]
    · by_cases hq : q = p
      · subst hq
        rw [if_pos ⟨List.mem_singleton_self _, hzero⟩, getD_set_self (by rwa [hlen])]
      · rw [if_neg (by simp [hq]), getD_set_ne _ (Ne.symm hq)]
    · have hiff : s.counts.getD p 0 - 1 = 1 ↔ s.counts.getD p 0 = 2 := by omega
      by_cases htwo : s.counts.getD p 0 = 2
      · rw [List.filter_cons_of_pos (by rwa [decide_eq_true_eq]), List.filter_nil]
        exact if_pos (hiff.2 htwo)
      · rw [List.filter_cons_of_neg (by rwa [decide_eq_true_eq]), List.filter_nil, List.append_nil]
        exact if_neg (mt hiff.1 htwo)

theorem released_foldl (h : UInt64) : ∀ (l : List ℕ) (s : PeelState), l.Nodup →
    (∀ p ∈ l, p < s.counts.length) → s.hashXors.length = s.counts.length →
    Released h l s (l.foldl (PeelState.releasePosition h) s) := by
  intro l
  induction l with
  | nil =>
    exact fun s _ _ _ => ⟨rfl, rfl, fun q => by simp, fun q => by simp, by simp, rfl, rfl⟩
  | cons p l ih =>
    intro s hnodup hlt hlen
    obtain ⟨hp, hnodup⟩ := List.nodup_cons.1 hnodup
    obtain ⟨hplt, hlt⟩ := List.forall_mem_cons.1 hlt
    obtain ⟨hcl, hxl, hcount, hxor, hqueue, hframe⟩ := released_one h hplt hlen
    obtain ⟨ihc, ihx, ihcount, ihxor, ihqueue, ihframe⟩ := ih (s.releasePosition h p) hnodup
      (by rwa [hcl]) (by rw [hcl, hxl, hlen])
    -- the positions still to come are not the one just released
    have hsame (q : ℕ) (hq : q ≠ p) :
        (s.releasePosition h p).counts.getD q 0 = s.counts.getD q 0 := by
      rw [hcount, if_neg (by simpa using hq)]
    have hsamex (q : ℕ) (hq : q ≠ p) :
        (s.releasePosition h p).hashXors.getD q 0 = s.hashXors.getD q 0 := by
      rw [hxor, if_neg (by simp [hq])]
    refine ⟨ihc.trans hcl, ihx.trans hxl, fun q => ?_, fun q => ?_, ?_,
      ihframe.1.trans hframe.1, ihframe.2.trans hframe.2⟩
    · rw [List.foldl_cons, ihcount]
      by_cases hqp : q = p
      · subst hqp
        rw [if_neg hp, hcount, if_pos (List.mem_singleton_self _), if_pos (List.mem_cons_self ..)]
      · rw [hsame q hqp]
        simp [hqp]
    · rw [List.foldl_cons, ihxor]
      by_cases hqp : q = p
      · subst hqp
        rw [if_neg (by simp [hp]), hxor]
        simp
      · rw [hsame q hqp, hsamex q hqp]
        simp [hqp]
    · have hfilter : l.filter (fun q => (s.releasePosition h p).counts.getD q 0 = 2)
          = l.filter fun q => s.counts.getD q 0 = 2 := by
        refine List.filter_congr fun q hq => ?_
        rw [hsame q fun hc => hp (hc ▸ hq)]
      rw [List.foldl_cons, ihqueue, hqueue, hfilter, List.append_assoc]
      congr 1
      exact (List.filter_append [p] l).symm

/-! ## The counted table -/

/-- The hashes of a list that touch a position. -/
def touching (L : ℕ) (hashes : List UInt64) (q : ℕ) : List UInt64 :=
  hashes.filter fun h => q ∈ getPositions h L

theorem touching_concat (L : ℕ) (hashes : List UInt64) (h : UInt64) (q : ℕ) :
    touching L (hashes ++ [h]) q
      = touching L hashes q ++ if q ∈ getPositions h L then [h] else [] := by
  rw [touching, List.filter_append, List.filter_cons, List.filter_nil]
  simp only [decide_eq_true_eq]
  rfl

/-- The table after a list of hashes was entered. -/
structure Counted (L : ℕ) (hashes : List UInt64) (s : PeelState) : Prop where
  counts_length : s.counts.length = 3 * L
  xors_length : s.hashXors.length = 3 * L
  count : ∀ q, s.counts.getD q 0 = u32 (touching L hashes q).length
  xor : ∀ q, XorNat.ofNat (s.hashXors.getD q 0).toNat
    = ((touching L hashes q).map fun h => XorNat.ofNat h.toNat).sum
  frame : s.queue = [] ∧ s.queueIndex = 0 ∧ s.peelOrder = []

variable {L : ℕ}

theorem counted_countHashes (hL : 0 < L) (h3 : 3 * L ≤ 4294967295) (hashes : List UInt64) :
    Counted L hashes (countHashes L hashes) := by
  induction hashes using List.reverseRecOn with
  | nil =>
    have hlen : (List.replicate (tableLength L) (0 : ℕ)).length = 3 * L := by
      rw [List.length_replicate, tableLength_eq h3]
    have hlen' : (List.replicate (tableLength L) (0 : UInt64)).length = 3 * L := by
      rw [List.length_replicate, tableLength_eq h3]
    refine ⟨hlen, hlen', fun q => ?_, fun q => ?_, rfl, rfl, rfl⟩
    · rw [countHashes, List.foldl_nil, getD_replicate]
      rfl
    · rw [countHashes, List.foldl_nil, getD_replicate]
      rfl
  | append_singleton hashes h ih =>
    have hstep : countHashes L (hashes ++ [h])
        = (getPositions h L).foldl (PeelState.touchPosition h) (countHashes L hashes) := by
      rw [countHashes, List.foldl_append]
      rfl
    have htouch := touched_foldl h (getPositions h L) (countHashes L hashes)
      (getPositions_nodup hL h3 h) (by rw [ih.counts_length]; exact getPositions_lt hL h3 h)
      (by rw [ih.xors_length, ih.counts_length])
    rw [← hstep] at htouch
    refine ⟨htouch.counts_length.trans ih.counts_length, htouch.xors_length.trans ih.xors_length,
      fun q => ?_, fun q => ?_, htouch.frame.1.trans ih.frame.1, htouch.frame.2.1.trans ih.frame.2.1,
      htouch.frame.2.2.trans ih.frame.2.2⟩
    · rw [htouch.count, ih.count, touching_concat, List.length_append]
      split
      · rw [List.length_singleton, u32, u32, u32, Nat.mod_add_mod]
      · rfl
    · rw [htouch.xor, touching_concat, List.map_append, List.sum_append, ← ih.xor]
      split
      · rw [UInt64.toNat_xor, XorNat.ofNat_xor, List.map_singleton, List.sum_singleton]
      · rw [List.map_nil, List.sum_nil, add_zero]

/-! ## The queue -/

/-- What holds of the queue whatever the hashes are. -/
structure QueueInv (L : ℕ) (s : PeelState) : Prop where
  counts_length : s.counts.length = 3 * L
  xors_length : s.hashXors.length = 3 * L
  nodup : s.queue.Nodup
  lt : ∀ p ∈ s.queue, p < 3 * L
  le_one : ∀ p ∈ s.queue, s.counts.getD p 0 ≤ 1
  index_le : s.queueIndex ≤ s.queue.length
  order_le : s.peelOrder.length ≤ s.queueIndex

theorem QueueInv.length_le {s : PeelState} (h : QueueInv L s) : s.queue.length ≤ 3 * L := by
  have hsub : s.queue.toFinset ⊆ Finset.range (3 * L) := fun p hp =>
    Finset.mem_range.2 (h.lt p (List.mem_toFinset.1 hp))
  have := Finset.card_le_card hsub
  rwa [List.toFinset_card_of_nodup h.nodup, Finset.card_range] at this

/-- **One step of the loop**: a stale entry is dropped, or the one hash left at the
selected position is recorded and released. -/
theorem peelStep_cases (hL : 0 < L) (h3 : 3 * L ≤ 4294967295) {s : PeelState}
    (hc : s.counts.length = 3 * L) (hx : s.hashXors.length = 3 * L) (p : ℕ)
    (hp : s.queue.getD s.queueIndex 0 = p) :
    (s.counts.getD p 0 ≠ 1 ∧ peelStep L s = { s with queueIndex := s.queueIndex + 1 }) ∨
      (s.counts.getD p 0 = 1 ∧
        Released (s.hashXors.getD p 0) (getPositions (s.hashXors.getD p 0) L)
          { s with
            queueIndex := s.queueIndex + 1
            peelOrder := s.peelOrder ++ [(s.hashXors.getD p 0, p)] } (peelStep L s)) := by
  rw [peelStep]
  simp only [hp]
  by_cases hone : s.counts.getD p 0 = 1
  · rw [if_neg (not_not.2 hone)]
    exact Or.inr ⟨hone, released_foldl _ _ _ (getPositions_nodup hL h3 _)
      (by rw [hc]; exact getPositions_lt hL h3 _) (by rw [hc, hx])⟩
  · exact Or.inl ⟨hone, if_pos hone⟩

/-- Releasing a hash queues positions that were not in the queue yet. -/
theorem QueueInv.release (hL : 0 < L) (h3 : 3 * L ≤ 4294967295) {s s' : PeelState}
    (h : QueueInv L s) (hpending : s.Pending) {hash : UInt64} {entry : PeelEntry}
    (hr : Released hash (getPositions hash L)
      { s with queueIndex := s.queueIndex + 1, peelOrder := s.peelOrder ++ [entry] } s') :
    QueueInv L s' := by
  obtain ⟨hc, hx, hnodup, hlt, hle, hindex, horder⟩ := h
  unfold PeelState.Pending at hpending
  have hnew {q : ℕ} (hq : q ∈ (getPositions hash L).filter fun q => s.counts.getD q 0 = 2) :
      q ∈ getPositions hash L ∧ s.counts.getD q 0 = 2 := by
    obtain ⟨hq, htwo⟩ := List.mem_filter.1 hq
    exact ⟨hq, of_decide_eq_true htwo⟩
  refine ⟨hr.counts_length.trans hc, hr.xors_length.trans hx, ?_, ?_, ?_, ?_, ?_⟩
  · rw [hr.queue]
    refine List.Nodup.append hnodup ((getPositions_nodup hL h3 _).filter _) fun q hq hq' => ?_
    -- a queued position has at most one hash left, so it does not fall to one again
    have := hle q hq
    have := (hnew hq').2
    omega
  · rw [hr.queue]
    intro q hq
    rcases List.mem_append.1 hq with hq | hq
    · exact hlt q hq
    · exact getPositions_lt hL h3 _ q (hnew hq).1
  · rw [hr.queue]
    intro q hq
    rw [hr.count]
    rcases List.mem_append.1 hq with hq | hq
    · have := hle q hq
      simp only
      split <;> omega
    · obtain ⟨hmem, htwo⟩ := hnew hq
      simp only [if_pos hmem, htwo]
      norm_num
  · rw [hr.frame.1, hr.queue, List.length_append]
    simp only
    omega
  · rw [hr.frame.1, hr.frame.2, List.length_append, List.length_singleton]
    simp only
    omega

theorem QueueInv.step (hL : 0 < L) (h3 : 3 * L ≤ 4294967295) {s : PeelState} (h : QueueInv L s)
    (hpending : s.Pending) : QueueInv L (peelStep L s) := by
  rcases peelStep_cases hL h3 h.counts_length h.xors_length _ rfl with ⟨-, he⟩ | ⟨-, hr⟩
  · rw [he]
    exact ⟨h.counts_length, h.xors_length, h.nodup, h.lt, h.le_one, hpending,
      h.order_le.trans (Nat.le_succ _)⟩
  · exact h.release hL h3 hpending hr

/-- The states the head of the peeling loop sees. -/
abbrev PeelRun (L : ℕ) (hashes : List UInt64) : PeelState → Prop :=
  WhileLoop.Run PeelState.Pending (peelStep L) (startPeeling L hashes)

variable {hashes : List UInt64}

theorem queueInv_start (hL : 0 < L) (h3 : 3 * L ≤ 4294967295) (hashes : List UInt64) :
    QueueInv L (startPeeling L hashes) := by
  obtain ⟨hc, hx, -, -, -, hindex, horder⟩ := counted_countHashes hL h3 hashes
  have hmem {p : ℕ} (hp : p ∈ (startPeeling L hashes).queue) :
      p < 3 * L ∧ (countHashes L hashes).counts.getD p 0 = 1 := by
    obtain ⟨hp, hone⟩ := List.mem_filter.1 hp
    rw [List.mem_range, tableLength_eq h3] at hp
    exact ⟨hp, of_decide_eq_true hone⟩
  refine ⟨hc, hx, List.nodup_range.filter _, fun p hp => (hmem hp).1, fun p hp => (hmem hp).2.le,
    ?_, ?_⟩
  · show (countHashes L hashes).queueIndex ≤ _
    rw [hindex]
    exact Nat.zero_le _
  · show (countHashes L hashes).peelOrder.length ≤ (countHashes L hashes).queueIndex
    rw [hindex, horder]
    exact le_rfl

/-- In every state of a run no position was queued twice. -/
theorem PeelRun.queueInv (hL : 0 < L) (h3 : 3 * L ≤ 4294967295) {s : PeelState}
    (h : PeelRun L hashes s) : QueueInv L s :=
  h.invariant (queueInv_start hL h3 hashes) fun _ hs hp => hs.step hL h3 hp

/-- **The loop ends**, whatever the hashes are. -/
theorem peelHashes_ok (hL : 0 < L) (h3 : 3 * L ≤ 4294967295) (hashes : List UInt64) :
    ∃ s, peelHashes L hashes = .ok s ∧ PeelRun L hashes s ∧ ¬ s.Pending := by
  obtain ⟨s, hs, hrun, hend⟩ := WhileLoop.exists_iterate (fun s => 3 * L - s.queueIndex)
    (fun s hrun hp => by
      have hlen := (PeelRun.queueInv hL h3 hrun).length_le
      have hinv := PeelRun.queueInv hL h3 hrun
      have hnext : (peelStep L s).queueIndex = s.queueIndex + 1 := by
        rcases peelStep_cases hL h3 hinv.counts_length hinv.xors_length _ rfl with ⟨-, he⟩ | ⟨-, hr⟩
        · rw [he]
        · exact hr.frame.1
      unfold PeelState.Pending at hp
      simp only [hnext]
      omega)
    (tableLength L + 1) (startPeeling L hashes) WhileLoop.Run.start
    (by rw [tableLength_eq h3]; omega)
  exact ⟨s, by rw [peelHashes, hs], hrun, hend⟩

/-! ## The hypergraph -/

/-- What the loop's vectors say about the remaining edges `R`. -/
structure PeelInv (L : ℕ) (hashes : List UInt64) (s : PeelState) (R : Finset UInt64) : Prop where
  peels : Peels (touch L) hashes.toFinset s.peelOrder R
  count : ∀ q, s.counts.getD q 0 = (incident (touch L) R q).card
  xor : ∀ q, XorNat.ofNat (s.hashXors.getD q 0).toNat
    = ∑ h ∈ incident (touch L) R q, XorNat.ofNat h.toNat
  waiting : ∀ q, (incident (touch L) R q).card = 1 → q ∈ s.queue.drop s.queueIndex

theorem incident_toFinset (L : ℕ) (hashes : List UInt64) (q : ℕ) :
    incident (touch L) hashes.toFinset q = (touching L hashes q).toFinset := by
  ext h
  rw [mem_incident, List.mem_toFinset, List.mem_toFinset, touching, List.mem_filter, mem_touch,
    decide_eq_true_eq]

/-- Distinct hashes, few enough for the counters, are counted exactly. -/
theorem peelInv_start (hL : 0 < L) (h3 : 3 * L ≤ 4294967295) (hnodup : hashes.Nodup)
    (hlen : hashes.length < 4294967296) :
    PeelInv L hashes (startPeeling L hashes) hashes.toFinset := by
  have hc := counted_countHashes hL h3 hashes
  have hsub (q : ℕ) : (touching L hashes q).Nodup := hnodup.filter _
  have hcount (q : ℕ) :
      (countHashes L hashes).counts.getD q 0
        = (incident (touch L) hashes.toFinset q).card := by
    have hle : (touching L hashes q).length ≤ hashes.length := List.length_filter_le ..
    rw [hc.count, incident_toFinset, List.toFinset_card_of_nodup (hsub q), u32_of_lt (by omega)]
  refine ⟨?_, hcount, fun q => ?_, fun q hq => ?_⟩
  · show Peels (touch L) hashes.toFinset (countHashes L hashes).peelOrder hashes.toFinset
    rw [hc.frame.2.2]
    exact Peels.start
  · rw [incident_toFinset, List.sum_toFinset _ (hsub q)]
    exact hc.xor q
  · obtain ⟨h, hh⟩ := Finset.card_pos.1 (hq.symm ▸ Nat.one_pos)
    have hlt := getPositions_lt hL h3 h q (mem_touch.1 (mem_incident.1 hh).2)
    show q ∈ ((List.range (tableLength L)).filter _).drop (countHashes L hashes).queueIndex
    rw [hc.frame.2.1, List.drop_zero, List.mem_filter, List.mem_range, tableLength_eq h3,
      decide_eq_true_eq, hcount]
    exact ⟨hlt, hq⟩

/-- The entry at the head of the queue. -/
theorem drop_queue {s : PeelState} (hpending : s.Pending) :
    s.queue.drop s.queueIndex
      = s.queue.getD s.queueIndex 0 :: s.queue.drop (s.queueIndex + 1) := by
  unfold PeelState.Pending at hpending
  rw [List.drop_eq_getElem_cons hpending, List.getD_eq_getElem _ _ hpending]

/-- Dropping a stale entry: its position is not waiting. -/
theorem PeelInv.dropStale {s : PeelState} {R : Finset UInt64} (hinv : PeelInv L hashes s R)
    {p : ℕ} (hdrop : s.queue.drop s.queueIndex = p :: s.queue.drop (s.queueIndex + 1))
    (hstale : s.counts.getD p 0 ≠ 1) :
    PeelInv L hashes { s with queueIndex := s.queueIndex + 1 } R := by
  refine ⟨hinv.peels, hinv.count, hinv.xor, fun q hq => ?_⟩
  have hmem := hinv.waiting q hq
  rw [hdrop, List.mem_cons] at hmem
  refine hmem.resolve_left ?_
  rintro rfl
  exact hstale ((hinv.count q).trans hq)

theorem mem_incident_touch {R : Finset UInt64} {h : UInt64} (hR : h ∈ R) {q : ℕ} :
    h ∈ incident (touch L) R q ↔ q ∈ getPositions h L := by
  rw [mem_incident, mem_touch]
  exact and_iff_right hR

/-- Behind a release a position with one hash left is waiting: it was, or it had two. -/
theorem PeelInv.waiting_release {s s' : PeelState} {R : Finset UInt64}
    (hinv : PeelInv L hashes s R) (hpending : s.Pending) {p : ℕ} {h : UInt64}
    (hdrop : s.queue.drop s.queueIndex = p :: s.queue.drop (s.queueIndex + 1))
    (hR : h ∈ R) (hp : p ∈ getPositions h L)
    (hr : Released h (getPositions h L)
      { s with queueIndex := s.queueIndex + 1, peelOrder := s.peelOrder ++ [(h, p)] } s')
    {q : ℕ} (hq : ((incident (touch L) R q).erase h).card = 1) :
    q ∈ s'.queue.drop s'.queueIndex := by
  have hle : s.queueIndex + 1 ≤ s.queue.length := hpending
  rw [hr.queue, hr.frame.1]
  show q ∈ (s.queue ++ _).drop (s.queueIndex + 1)
  rw [List.drop_append_of_le_length hle, List.mem_append]
  by_cases hmem : q ∈ getPositions h L
  · -- one of the two hashes left at `q` was the peeled one
    have hin := (mem_incident_touch hR).2 hmem
    rw [Finset.card_erase_of_mem hin] at hq
    have hpos : 0 < (incident (touch L) R q).card := Finset.card_pos.2 ⟨h, hin⟩
    have hcount := hinv.count q
    refine Or.inr (List.mem_filter.2 ⟨hmem, ?_⟩)
    rw [decide_eq_true_eq]
    show s.counts.getD q 0 = 2
    omega
  · rw [Finset.erase_eq_of_notMem (mt (mem_incident_touch hR).1 hmem)] at hq
    have hold := hinv.waiting q hq
    rw [hdrop, List.mem_cons] at hold
    refine Or.inl (hold.resolve_left ?_)
    rintro rfl
    exact hmem hp

/-- Releasing the one hash left at a position keeps the counters and the sums exact. -/
theorem PeelInv.release {s s' : PeelState} {R : Finset UInt64} (hinv : PeelInv L hashes s R)
    (hpending : s.Pending) {p : ℕ} {h : UInt64}
    (hdrop : s.queue.drop s.queueIndex = p :: s.queue.drop (s.queueIndex + 1))
    (hh : incident (touch L) R p = {h})
    (hr : Released h (getPositions h L)
      { s with queueIndex := s.queueIndex + 1, peelOrder := s.peelOrder ++ [(h, p)] } s') :
    PeelInv L hashes s' (R.erase h) := by
  obtain ⟨hR, hph⟩ := mem_of_incident_eq hh
  have herase (q : ℕ) : incident (touch L) (R.erase h) q = (incident (touch L) R q).erase h :=
    incident_erase R q h
  refine ⟨?_, fun q => ?_, fun q => ?_, fun q hq => ?_⟩
  · rw [hr.frame.2]
    exact hinv.peels.snoc hh
  · rw [hr.count, herase]
    by_cases hq : q ∈ getPositions h L
    · rw [if_pos hq, Finset.card_erase_of_mem ((mem_incident_touch hR).2 hq)]
      exact congrArg (· - 1) (hinv.count q)
    · rw [if_neg hq, Finset.erase_eq_of_notMem (mt (mem_incident_touch hR).1 hq)]
      exact hinv.count q
  · rw [hr.xor, herase]
    by_cases hq : q ∈ getPositions h L
    · have hin := (mem_incident_touch hR).2 hq
      have hne : s.counts.getD q 0 ≠ 0 := by
        rw [hinv.count]
        exact Finset.card_ne_zero_of_mem hin
      rw [if_pos ⟨hq, hne⟩, UInt64.toNat_xor, XorNat.ofNat_xor]
      have hsum := Finset.add_sum_erase _ (fun h : UInt64 => XorNat.ofNat h.toNat) hin
      rw [hinv.xor q, ← hsum, add_comm, ← add_assoc, XorNat.add_self, zero_add]
    · rw [if_neg fun hc => hq hc.1, Finset.erase_eq_of_notMem (mt (mem_incident_touch hR).1 hq)]
      exact hinv.xor q
  · rw [herase] at hq
    exact hinv.waiting_release hpending hdrop hR (mem_touch.1 hph) hr hq

/-- **The peeling step.**  A position counted once holds the one remaining hash that
touches it. -/
theorem PeelInv.step (hL : 0 < L) (h3 : 3 * L ≤ 4294967295) {s : PeelState} {R : Finset UInt64}
    (hinv : PeelInv L hashes s R) (hqueue : QueueInv L s) (hpending : s.Pending) :
    ∃ R', PeelInv L hashes (peelStep L s) R' := by
  obtain ⟨p, hp⟩ : ∃ p, s.queue.getD s.queueIndex 0 = p := ⟨_, rfl⟩
  have hdrop := drop_queue hpending
  rw [hp] at hdrop
  rcases peelStep_cases hL h3 hqueue.counts_length hqueue.xors_length p hp
    with ⟨hstale, he⟩ | ⟨hone, hr⟩
  · rw [he]
    exact ⟨R, hinv.dropStale hdrop hstale⟩
  · -- the sum over the one hash left is that hash
    obtain ⟨h, hh⟩ := Finset.card_eq_one.1 ((hinv.count p).symm.trans hone)
    have hhash : s.hashXors.getD p 0 = h := by
      refine word_ext ?_
      rw [hinv.xor, hh, Finset.sum_singleton]
    rw [hhash] at hr
    exact ⟨R.erase h, hinv.release hpending hdrop hh hr⟩

/-- In every state of a run on distinct hashes the vectors are exact. -/
theorem PeelRun.peelInv (hL : 0 < L) (h3 : 3 * L ≤ 4294967295) (hnodup : hashes.Nodup)
    (hlen : hashes.length < 4294967296) {s : PeelState} (h : PeelRun L hashes s) :
    ∃ R, PeelInv L hashes s R := by
  have hboth : QueueInv L s ∧ ∃ R, PeelInv L hashes s R := by
    refine WhileLoop.Run.invariant (I := fun s => QueueInv L s ∧ ∃ R, PeelInv L hashes s R)
      ⟨queueInv_start hL h3 hashes, _, peelInv_start hL h3 hnodup hlen⟩ ?_ h
    rintro s ⟨hq, R, hR⟩ hp
    exact ⟨hq.step hL h3 hp, hR.step hL h3 hq hp⟩
  exact hboth.2

/-! ## Exactness -/

/-- Some of the hashes leave none of their positions to a single one of them. -/
def HasCore (L : ℕ) (hashes : List UInt64) : Prop :=
  ∃ S : Finset UInt64, S.Nonempty ∧ (∀ h ∈ S, h ∈ hashes) ∧
    ∀ p, (∃ h ∈ S, p ∈ getPositions h L) → 2 ≤ (S.filter fun h => p ∈ getPositions h L).card

theorem hasCore_iff (L : ℕ) (hashes : List UInt64) :
    HasCore L hashes ↔ ∃ S ⊆ hashes.toFinset, IsCore (touch L) S := by
  have hinc (S : Finset UInt64) (p : ℕ) :
      incident (touch L) S p = S.filter fun h => p ∈ getPositions h L := by
    ext h
    rw [mem_incident, Finset.mem_filter, mem_touch]
  constructor
  · rintro ⟨S, hne, hsub, htwo⟩
    refine ⟨S, fun h hh => List.mem_toFinset.2 (hsub h hh), isCore_iff_two_le_card.2 ⟨hne, ?_⟩⟩
    simpa only [mem_touch, hinc] using htwo
  · rintro ⟨S, hsub, hcore⟩
    obtain ⟨hne, htwo⟩ := isCore_iff_two_le_card.1 hcore
    refine ⟨S, hne, fun h hh => List.mem_toFinset.1 (hsub hh), ?_⟩
    simpa only [mem_touch, hinc] using htwo

/-- More hashes than positions contain a core. -/
theorem hasCore_of_length (hL : 0 < L) (h3 : 3 * L ≤ 4294967295) (hnodup : hashes.Nodup)
    (hlen : 3 * L < hashes.length) : HasCore L hashes := by
  rw [hasCore_iff]
  refine exists_core_of_card_lt _ ?_
  have hsub : hashes.toFinset.biUnion (touch L) ⊆ Finset.range (3 * L) := by
    intro p hp
    obtain ⟨h, -, hp⟩ := Finset.mem_biUnion.1 hp
    exact Finset.mem_range.2 (getPositions_lt hL h3 h p (mem_touch.1 hp))
  have := Finset.card_le_card hsub
  rw [Finset.card_range] at this
  rw [List.toFinset_card_of_nodup hnodup]
  omega

/-- **Exactness of the loop.**  It ends with everything peeled exactly when the
distinct hashes contain no core. -/
theorem peelHashes_exact (hL : 0 < L) (h3 : 3 * L ≤ 4294967295) (hnodup : hashes.Nodup) :
    ∃ s, peelHashes L hashes = .ok s ∧ PeelRun L hashes s ∧
      (s.peelOrder.length = hashes.length ↔ ¬ HasCore L hashes) := by
  obtain ⟨s, hs, hrun, hend⟩ := peelHashes_ok hL h3 hashes
  refine ⟨s, hs, hrun, ?_⟩
  have hq := hrun.queueInv hL h3
  by_cases hlen : hashes.length < 4294967296
  · obtain ⟨R, hpeels, hcount, -, hwaiting⟩ := hrun.peelInv hL h3 hnodup hlen
    have hstuck : ∀ p, (incident (touch L) R p).card ≠ 1 := by
      intro p hp
      have hmem := hwaiting p hp
      rw [List.drop_eq_nil_of_le (not_lt.1 hend)] at hmem
      exact absurd hmem List.not_mem_nil
    have hlength := hpeels.length_add_card
    rw [List.toFinset_card_of_nodup hnodup] at hlength
    rw [hasCore_iff, ← hpeels.empty_iff_no_core hstuck, ← Finset.card_eq_zero]
    omega
  · -- too many hashes for the counters, and for the table
    have hcore : HasCore L hashes := hasCore_of_length hL h3 hnodup (by omega)
    refine iff_of_false ?_ (not_not.2 hcore)
    have h1 := hq.order_le
    have h2 := hq.index_le
    have h3' := hq.length_le
    omega

/-- When everything was peeled, the peel order lists every hash once. -/
theorem PeelRun.perm (hL : 0 < L) (h3 : 3 * L ≤ 4294967295) (hnodup : hashes.Nodup)
    {s : PeelState} (h : PeelRun L hashes s) (hall : s.peelOrder.length = hashes.length) :
    (s.peelOrder.map Prod.fst).Perm hashes ∧
      ∃ R, Peels (touch L) hashes.toFinset s.peelOrder R := by
  have hq := h.queueInv hL h3
  have hlen : hashes.length < 4294967296 := by
    have h1 := hq.order_le
    have h2 := hq.index_le
    have h3' := hq.length_le
    omega
  obtain ⟨R, hpeels, -⟩ := h.peelInv hL h3 hnodup hlen
  refine ⟨?_, R, hpeels⟩
  refine (List.subperm_of_subset hpeels.nodup fun e he => ?_).perm_of_length_le ?_
  · exact List.mem_toFinset.1 ((hpeels.mem_order_or_remaining e).2 (Or.inl he))
  · rw [List.length_map, hall]

end PackedFilters.Xor
