import PackedFilters.RocksDb.Builder

/-!
# Exactness of peeling in all four engines

The four engines share the peeling loop and differ in what they feed it: LevelDB and
PebblesDB the hashes of the keys under one seed, RocksDB and Speedb the hashes of all keys
mixed with a seed.  Both are lists of distinct hashes, and what is shown of such lists holds
for all four.

Here the loop is spoken of without the hypergraph, in the terms of its own vectors.  What is
left at some moment are the hashes that are not in the peel order yet; a counter is the
number of them at its position, modulo nothing as long as 32 bits hold the number of hashes,
and `hash_xors` is their exclusive or.

* `remaining` — the hashes a state of the loop has not peeled yet;
* `ExactVectors`, `ExactPeeling` — what the loop's vectors say of them throughout a run, and
  how the run ends;
* `exactPeeling` — it holds of distinct hashes, the counters as long as they can count them;
* `peeling_exact` — `TryBuildXor` of LevelDB and PebblesDB, and one seed of `Finish` in
  RocksDB and Speedb, succeed exactly when the hashes contain no core.
-/

namespace PackedFilters.Xor

open Peeling

/-! ## The remaining hashes -/

/-- The hashes not peeled yet. -/
def remaining (hashes : List UInt64) (s : PeelState) : List UInt64 :=
  hashes.filter fun h => h ∉ s.peelOrder.map Prod.fst

variable {L : ℕ} {hashes : List UInt64} {s : PeelState}

theorem toFinset_remaining {R : Finset UInt64}
    (h : Peels (touch L) hashes.toFinset s.peelOrder R) : R = (remaining hashes s).toFinset := by
  ext x
  rw [List.mem_toFinset, remaining, List.mem_filter, decide_eq_true_eq]
  have hsplit := h.mem_order_or_remaining x
  rw [List.mem_toFinset] at hsplit
  constructor
  · exact fun hx => ⟨hsplit.2 (Or.inr hx), h.not_mem_order_of_remaining x hx⟩
  · rintro ⟨hx, hnot⟩
    exact (hsplit.1 hx).resolve_left hnot

/-- The loop's vectors, in terms of the remaining hashes. -/
structure ExactVectors (L : ℕ) (hashes : List UInt64) (s : PeelState) : Prop where
  counts : ∀ p, s.counts.getD p 0 = (touching L (remaining hashes s) p).length
  hashXors : ∀ p, s.hashXors.getD p 0 = xorAll (touching L (remaining hashes s) p)

theorem PeelInv.exactVectors {R : Finset UInt64} (h : PeelInv L hashes s R)
    (hnodup : hashes.Nodup) : ExactVectors L hashes s := by
  have hsub (p : ℕ) : (touching L (remaining hashes s) p).Nodup := (hnodup.filter _).filter _
  have hinc (p : ℕ) : incident (touch L) R p = (touching L (remaining hashes s) p).toFinset := by
    rw [toFinset_remaining h.peels, incident_toFinset]
  refine ⟨fun p => ?_, fun p => word_ext ?_⟩
  · rw [h.count, hinc, List.toFinset_card_of_nodup (hsub p)]
  · rw [h.xor, hinc, List.sum_toFinset _ (hsub p), ofNat_toNat_xorAll]

/-! ## Runs -/

/-- How peeling goes on a list of hashes: throughout, the vectors are exact if the 32-bit
counters can count the hashes, and no position is queued twice; at the end all the hashes
are peeled exactly when they contain no core, and then the order is a permutation. -/
structure ExactPeeling (L : ℕ) (hashes : List UInt64) : Prop where
  vectors : hashes.length < 4294967296 → ∀ s, PeelRun L hashes s → ExactVectors L hashes s
  queue : ∀ s, PeelRun L hashes s → s.queue.Nodup
  ends : ∃ s, peelHashes L hashes = .ok s ∧ PeelRun L hashes s ∧
    (s.peelOrder.length = hashes.length ↔ ¬ HasCore L hashes) ∧
    (s.peelOrder.length = hashes.length → (s.peelOrder.map Prod.fst).Perm hashes)

theorem exactPeeling (hL : 0 < L) (h3 : 3 * L ≤ 4294967295) (hnodup : hashes.Nodup) :
    ExactPeeling L hashes where
  vectors hlen s hrun := by
    obtain ⟨R, hR⟩ := hrun.peelInv hL h3 hnodup hlen
    exact hR.exactVectors hnodup
  queue s hrun := (hrun.queueInv hL h3).nodup
  ends := by
    obtain ⟨s, hs, hrun, hexact⟩ := peelHashes_exact hL h3 hnodup
    exact ⟨s, hs, hrun, hexact, fun hall => (hrun.perm hL h3 hnodup hall).1⟩

/-- `TryBuildXor` succeeds exactly when there is no core, whatever the width. -/
theorem tryBuildXor_exact (hL : 0 < L) (h3 : 3 * L ≤ 4294967295) (hne : hashes ≠ [])
    (hnodup : hashes.Nodup) (bits : ℕ) (encoded : Bytes) (seed : UInt32) :
    ∃ built out, tryBuildXor hashes L bits encoded seed = .ok (built, out) ∧
      (built = true ↔ ¬ HasCore L hashes) := by
  obtain ⟨s, hs, -, hexact⟩ := peelHashes_exact hL h3 hnodup
  rw [tryBuildXor, if_neg (not_or.2 ⟨hne, hL.ne'⟩), hs, ok_bind]
  by_cases hall : s.peelOrder.length = hashes.length
  · rw [if_neg (not_not.2 hall)]
    exact ⟨true, _, rfl, iff_of_true rfl (hexact.1 hall)⟩
  · rw [if_pos hall]
    exact ⟨false, _, rfl, iff_of_false (by simp) (mt hexact.2 hall)⟩

/-- **Exactness of peeling.**  For distinct hashes and a table whose size fits in 32 bits,
`TryBuildXor` succeeds exactly when the hashes contain no core, one seed of `Finish`
exactly when the mixed hashes contain none, and both peel exactly on the way. -/
theorem peeling_exact (hashes : List UInt64) (L : ℕ) (hne : hashes ≠ []) (hnodup : hashes.Nodup)
    (hL : 1 ≤ L) (h3 : 3 * L ≤ 4294967295) :
    (ExactPeeling L hashes ∧ ∀ bits encoded seed,
      ∃ built out, tryBuildXor hashes L bits encoded seed = .ok (built, out) ∧
        (built = true ↔ ¬ HasCore L hashes)) ∧
    ∀ seed, ExactPeeling L (RocksDb.mixedHashes hashes seed) ∧
      ∃ s, RocksDb.peelSeed L hashes seed = .ok s ∧
        (s.peelOrder.length = hashes.length ↔ ¬ HasCore L (RocksDb.mixedHashes hashes seed)) := by
  refine ⟨⟨exactPeeling hL h3 hnodup, tryBuildXor_exact hL h3 hne hnodup⟩, fun seed => ?_⟩
  obtain ⟨s, hs, -, hexact⟩ := RocksDb.peelSeed_exact hL h3 hnodup seed
  exact ⟨exactPeeling hL h3 (RocksDb.mixedHashes_nodup hnodup seed), s, hs, hexact⟩

theorem peeling_exact_two :
    (ExactPeeling 11 [5, 6] ∧ ∀ bits encoded seed,
      ∃ built out, tryBuildXor [5, 6] 11 bits encoded seed = .ok (built, out) ∧
        (built = true ↔ ¬ HasCore 11 [5, 6])) ∧
    ∀ seed, ExactPeeling 11 (RocksDb.mixedHashes [5, 6] seed) ∧
      ∃ s, RocksDb.peelSeed 11 [5, 6] seed = .ok s ∧
        (s.peelOrder.length = 2 ↔ ¬ HasCore 11 (RocksDb.mixedHashes [5, 6] seed)) :=
  peeling_exact [5, 6] 11 (by decide) (by decide) (by norm_num) (by norm_num)

/-! ## The limit of the counters -/

/-- In a table of one position per third every hash touches position 0. -/
theorem touching_one (hashes : List UInt64) : touching 1 hashes 0 = hashes := by
  refine List.filter_eq_self.2 fun h _ => ?_
  have hzero : position0 h 1 = 0 := Nat.lt_one_iff.1 (position0_lt Nat.one_pos h)
  simp [getPositions, hzero]

theorem remaining_startPeeling (hL : 0 < L) (h3 : 3 * L ≤ 4294967295) (hashes : List UInt64) :
    remaining hashes (startPeeling L hashes) = hashes := by
  have horder : (startPeeling L hashes).peelOrder = [] := (counted_countHashes hL h3 hashes).frame.2.2
  rw [remaining, horder]
  simp

/-- There its counter holds their number as far as 32 bits go. -/
theorem counts_startPeeling_one (hashes : List UInt64) :
    (startPeeling 1 hashes).counts.getD 0 0 = u32 hashes.length := by
  have hcount := (counted_countHashes Nat.one_pos (by norm_num) hashes).count 0
  rwa [touching_one] at hcount

/-- With 2³² distinct hashes in such a table its first counter is back at zero. -/
theorem counts_wrap : (countedHashes 4294967296).Nodup ∧
    ∃ s, PeelRun 1 (countedHashes 4294967296) s ∧ s.counts.getD 0 0 = 0 ∧
      (touching 1 (remaining (countedHashes 4294967296) s) 0).length = 4294967296 := by
  have hzero : u32 4294967296 = 0 := by decide
  refine ⟨countedHashes_nodup (by norm_num), _, WhileLoop.Run.start, ?_, ?_⟩
  · rw [counts_startPeeling_one, length_countedHashes, hzero]
  · rw [remaining_startPeeling Nat.one_pos (by norm_num), touching_one, length_countedHashes]

end PackedFilters.Xor
