import PackedFilters.RocksDb.Builder
import PackedFilters.Xor.Repeated

/-!
# Mixing keeps hashes apart

RocksDB and Speedb keep a 64-bit hash of every key and mix a seed into it before each attempt
to peel; LevelDB and PebblesDB take two 32-bit hashes of a key under every seed, join them to
a 64-bit one and run a finalizer over it.  Both mixers are a chain of steps that can be
undone: an exclusive or with a constant or with a shift of the word itself, and a product
with an odd constant, modulo `2 ^ 64`.

So two hashes that differ stay different under every seed.  That is what the seed loop of
`Finish` rests on, which sorts the hashes and drops repetitions once, before it mixes: a
repetition that mixing made would never be peeled, since the two copies cancel in `hash_xors`
and neither has a position to itself.

* `xorFinalize` — the finalizer of `XorHash64`, as a function of the two 32-bit hashes;
* `xorFinalize_injective` — each of its steps can be undone;
* `exists_two_le_count` — a list with a repetition has a value at least twice;
* `mixing_injective` — the same of `MixHash`, what it means for the hashes that `Finish`
  peels, and what the peeling loop does with a repetition.
-/

namespace PackedFilters

open PackedFilters.Xor PackedFilters.RocksDb

/-! ## The finalizer of `XorHash64` -/

/-- `XorHash64` behind its two calls of `Hash`. -/
def xorFinalize (high low : UInt32) : UInt64 :=
  let hash := shl64 high.toUInt64 32 ||| low.toUInt64
  let hash := hash ^^^ shr64 hash 33
  let hash := hash * 0xff51afd7ed558ccd
  let hash := hash ^^^ shr64 hash 33
  let hash := hash * 0xc4ceb9fe1a85ec53
  hash ^^^ shr64 hash 33

theorem xorHash64_eq (hash : HashFunction) (data : Bytes) (seed : UInt32) :
    xorHash64 hash data seed
      = xorFinalize (hash data seed) (hash data (seed + Xor.kSecondHashDelta)) := rfl

/-- The word of two 32-bit halves. -/
theorem toNat_joinHalves (high low : UInt32) :
    (shl64 high.toUInt64 32 ||| low.toUInt64).toNat = low.toNat + 2 ^ 32 * high.toNat := by
  have hlow : low.toUInt64.toNat < 2 ^ 32 := by
    rw [UInt32.toNat_toUInt64]
    exact low.toNat_lt
  have hhigh : high.toUInt64.toNat < 2 ^ 32 := by
    rw [UInt32.toNat_toUInt64]
    exact high.toNat_lt
  have hsum := toNat_or_shl64 hlow hhigh (by norm_num) (by norm_num)
  rw [UInt32.toNat_toUInt64, UInt32.toNat_toUInt64] at hsum
  rw [← hsum, UInt64.toNat_or, UInt64.toNat_or, Nat.or_comm]

theorem joinHalves_injective : Function.Injective fun p : UInt32 × UInt32 =>
    shl64 p.1.toUInt64 32 ||| p.2.toUInt64 := by
  rintro ⟨high, low⟩ ⟨high', low'⟩ h
  have hnat := congrArg UInt64.toNat h
  simp only [toNat_joinHalves] at hnat
  have hlow := low.toNat_lt
  have hlow' := low'.toNat_lt
  have h1 : high = high' := UInt32.toNat_inj.1 (by omega)
  have h2 : low = low' := UInt32.toNat_inj.1 (by omega)
  rw [h1, h2]

/-- **The finalizer keeps distinct pairs distinct.** -/
theorem xorFinalize_injective : Function.Injective fun p : UInt32 × UInt32 =>
    xorFinalize p.1 p.2 := by
  have hfirst := mul_injective (by decide : (0xff51afd7ed558ccd : UInt64) * 0x4f74430c22a54005 = 1)
  have hsecond := mul_injective (by decide : (0xc4ceb9fe1a85ec53 : UInt64) * 0x9cb4b2f8129337db = 1)
  have hshift := xorShift_involutive.injective
  exact hshift.comp (hsecond.comp (hshift.comp (hfirst.comp (hshift.comp joinHalves_injective))))

/-! ## Repetitions -/

/-- A list with a repetition has an element that occurs twice. -/
theorem exists_two_le_count {hashes : List UInt64} (h : ¬ hashes.Nodup) :
    ∃ x, 2 ≤ hashes.count x := by
  by_contra hno
  push Not at hno
  exact h (List.nodup_iff_count_le_one.2 fun x => Nat.le_of_lt_succ (hno x))

/-- **Seeded mixing is injective.**  Under every seed `MixHash` maps distinct hashes to
distinct ones, and so does the finalizer of `XorHash64` with the pairs it is applied to.
So the hashes that `Finish` has sorted and freed of repetitions are distinct under every
seed of its loop.  The loop needs that: the copies of a repeated hash cancel in
`hash_xors`, no copy is ever peeled, and so not everything is. -/
theorem mixing_injective :
    (∀ seed, Function.Injective fun hash => RocksDb.mixHash hash seed) ∧
      (Function.Injective fun p : UInt32 × UInt32 => xorFinalize p.1 p.2) ∧
      (∀ hash data seed, xorHash64 hash data seed
        = xorFinalize (hash data seed) (hash data (seed + Xor.kSecondHashDelta))) ∧
      (∀ (b : XorFilterBitsBuilder) (seed : UInt32),
        (mixedHashes b.finish.1.hashEntries seed).Nodup) ∧
      ∀ (L : ℕ) (hashes : List UInt64), 0 < L → 3 * L ≤ 4294967295 →
        (∀ x q, (countHashes L (x :: x :: hashes)).hashXors.getD q 0
          = (countHashes L hashes).hashXors.getD q 0) ∧
        (hashes.length < 4294967296 → ∀ x, 2 ≤ hashes.count x →
          ∃ s, peelHashes L hashes = .ok s ∧ x ∉ s.peelOrder.map Prod.fst) ∧
        (¬ hashes.Nodup →
          ∃ s, peelHashes L hashes = .ok s ∧ s.peelOrder.length < hashes.length) := by
  refine ⟨mixHash_injective, xorFinalize_injective, xorHash64_eq, fun b seed => ?_,
    fun L hashes hL h3 => ⟨hashXors_repeated hL h3 hashes, fun hlen x hx => ?_, fun hdup => ?_⟩⟩
  · exact mixedHashes_nodup (sortUnique_nodup b.hashEntries) seed
  · obtain ⟨s, hs, hnot, -⟩ := peelHashes_repeated hL h3 hlen hx
    exact ⟨s, hs, hnot⟩
  · by_cases hlen : hashes.length < 4294967296
    · obtain ⟨x, hx⟩ := exists_two_le_count hdup
      obtain ⟨s, hs, -, hlt⟩ := peelHashes_repeated hL h3 hlen hx
      exact ⟨s, hs, hlt⟩
    · -- more hashes than the table has positions
      obtain ⟨s, hs, hrun, -⟩ := peelHashes_ok hL h3 hashes
      have hqueue := hrun.queueInv hL h3
      have horder := hqueue.order_le
      have hindex := hqueue.index_le
      have hlength := hqueue.length_le
      exact ⟨s, hs, by omega⟩

theorem mixing_injective_five :
    ∃ s, peelHashes 11 [5, 6, 5] = .ok s ∧ (5 : UInt64) ∉ s.peelOrder.map Prod.fst :=
  (mixing_injective.2.2.2.2 11 [5, 6, 5] (by norm_num) (by norm_num)).2.1 (by decide) 5 (by decide)

end PackedFilters
