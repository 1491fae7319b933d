import PackedFilters.Ribbon.Trace
import PackedFilters.Ribbon.Policy

/-!
# The widths of slot indices

A slot index is an `int`, a `uint64_t`, a `uint32_t` and an `int` again on its way
through the builder.  The model's numbers wrap where the outcome can depend on it;
here every operation is repeated in its own width, and `IndicesExact` says that none of
them loses anything.

The one step that can lose something is the cast of the slot count to `int` in front of the
back substitution.  Up to 2^31 - 1 slots it is exact, and the counter runs from the last slot
down.  In 2^31 slots it gives the least `int`, from which one cannot be subtracted: what the
loop does then is undefined.  Beyond, the counter starts below zero and no slot is visited.

* `slotCount_exact` — `RibbonSlotCount` is the exact bound for every `int`;
* `indicesExact_iff` — the builder's own arithmetic is exact up to 2045222520 keys;
* `backSubstitute_overflow`, `backSubstitute_of_gt` — in 2^31 slots the counter of the back
  substitution overflows; in more it starts below zero, and every slot of the filter is zero.
-/

namespace PackedFilters.Ribbon

/-! ## Every operation in its width -/

/-- `RibbonSlotCount` on a key count above zero. -/
def ribbonSlotCountWords (keyCount : ℕ) : ℕ :=
  if keyCount = 0 then 0
  else
    let slotCount :=
      if keyCount < kRibbonWidth then u32 (kRibbonWidth + u32 keyCount)
      else
        u64 (u64 (u64 (u64 keyCount * kOverheadNumerator) + kOverheadDenominator)
          + 18446744073709551615) / kOverheadDenominator
    let slotCount := if slotCount < kRibbonWidth then kRibbonWidth else slotCount
    if 4294967295 < slotCount then 0 else u32 slotCount

/-- `slot_count - kRibbonWidth + 1u`. -/
def startCountWords (slotCount : ℕ) : ℕ :=
  u32 (u32 (slotCount + 4294967296 - kRibbonWidth) + 1)

/-- `FastRange32` in its own widths: the product in 64 bits, its upper half in 32. -/
def fastRange32Words (hash : UInt32) (range : ℕ) : ℕ :=
  if range = 0 then 0 else u32 (u64 (hash.toNat * range) / 4294967296)

/-- The exact bound on the number of slots: a band and the keys, or 105 slots for 100
keys, rounded up. -/
def exactSlotCount (keyCount : ℕ) : ℕ :=
  if keyCount < kRibbonWidth then kRibbonWidth + keyCount else ⌈(105 * keyCount : ℚ) / 100⌉₊

/-- The rows of `TryBuildRibbon` for some hash, keys and seed, and what `std::sort` made
of them. -/
def SortedRows (keyCount resultBits : ℕ) (rows : List RibbonRow) : Prop :=
  ∃ (hash : HashFunction) (sort : RowSort) (keys : List Bytes) (seed : UInt32),
    keys.length = keyCount ∧
      rows = sort.run (keys.map (ribbonRow hash (ribbonSlotCount keyCount) resultBits seed))

/-- No conversion or addition on a slot index changes the value it carries. -/
structure IndicesExact (keyCount resultBits : ℕ) : Prop where
  slotCount : ribbonSlotCountWords keyCount = ribbonSlotCount keyCount ∧
    ribbonSlotCount keyCount = exactSlotCount keyCount
  startCount : (startCountWords (ribbonSlotCount keyCount) : ℤ)
    = ribbonSlotCount keyCount - 64 + 1
  range : ∀ hash : UInt32, fastRange32Words hash (startCountWords (ribbonSlotCount keyCount))
    = fastRange32 hash (startCountWords (ribbonSlotCount keyCount))
  start : ∀ rows, SortedRows keyCount resultBits rows →
    ∀ row ∈ rows, row.start + 63 < ribbonSlotCount keyCount
  /-- `position += leading_zeroes`. -/
  elimination : ∀ rows, SortedRows keyCount resultBits rows →
    ∀ done row rest t, rows = done ++ row :: rest →
      eliminateRows (ribbonSlotCount keyCount) done
          (PivotTable.empty (ribbonSlotCount keyCount)) = .ok (some t) →
        ∀ it ∈ rowTrace (ribbonSlotCount keyCount) t row, u32 it.reached = it.reached
  /-- `static_cast<int>(slot_count)`. -/
  cast : intOfU32 (ribbonSlotCount keyCount) = ribbonSlotCount keyCount
  /-- The counter of the back substitution. -/
  counter : backSubstitutePositions (ribbonSlotCount keyCount)
    = (List.range (ribbonSlotCount keyCount)).reverse.map fun p : ℕ => (p : ℤ)
  /-- `position + relative` stays an `int`, wherever it is evaluated. -/
  addition : ∀ rows, SortedRows keyCount resultBits rows →
    ∀ t, eliminateRows (ribbonSlotCount keyCount) rows
        (PivotTable.empty (ribbonSlotCount keyCount)) = .ok (some t) →
      ∀ position < ribbonSlotCount keyCount,
        ∀ test ∈ slotTests t (ribbonSlotCount keyCount) position, test.1 ≠ 0 →
          test.2 < 2147483648

/-! ## The number of slots -/

section SlotCount

variable {n : ℕ} (hn : 1 ≤ n) (hint : n ≤ 2147483647)

include hn hint

/-- The bound the division leaves is at least a band, and fits in 32 bits. -/
theorem slotCount_bounds :
    64 ≤ (if n < 64 then 64 + n else (n * 105 + 100 - 1) / 100) ∧
      (if n < 64 then 64 + n else (n * 105 + 100 - 1) / 100) ≤ 2254857830 := by
  split <;> omega

/-- `RibbonSlotCount` on an `int` above zero: neither test behind the division changes
anything. -/
theorem ribbonSlotCount_eq :
    ribbonSlotCount n = if n < 64 then 64 + n else (n * 105 + 100 - 1) / 100 := by
  obtain ⟨h64, hle⟩ := slotCount_bounds hn hint
  have htests (s : ℕ) (hs : 64 ≤ s) (hs' : s ≤ 2254857830) :
      (if 4294967295 < (if s < 64 then 64 else s) then 0 else if s < 64 then 64 else s) = s := by
    rw [if_neg (not_lt.2 hs), if_neg (by omega)]
  exact (if_neg (Nat.ne_of_gt hn)).trans (htests _ h64 hle)

theorem ribbonSlotCountWords_eq :
    ribbonSlotCountWords n = if n < 64 then 64 + n else (n * 105 + 100 - 1) / 100 := by
  obtain ⟨h64, hle⟩ := slotCount_bounds hn hint
  have htests (s : ℕ) (hs : 64 ≤ s) (hs' : s ≤ 2254857830) :
      (if 4294967295 < (if s < 64 then 64 else s) then 0 else u32 (if s < 64 then 64 else s)) = s := by
    rw [if_neg (not_lt.2 hs), if_neg (by omega), u32_of_lt (by omega)]
  have hsub : u64 (n * 105 + 100 + 18446744073709551615) = n * 105 + 100 - 1 := by
    unfold u64
    omega
  have hfirst : (if n < 64 then u32 (64 + u32 n) else
      u64 (u64 (u64 (u64 n * 105) + 100) + 18446744073709551615) / 100)
      = if n < 64 then 64 + n else (n * 105 + 100 - 1) / 100 := by
    rw [u32_of_lt (by omega : n < 4294967296), u64_of_lt (by omega : n < 18446744073709551616),
      u64_of_lt (by omega : n * 105 < 18446744073709551616),
      u64_of_lt (by omega : n * 105 + 100 < 18446744073709551616), hsub]
    split
    · exact u32_of_lt (by omega)
    · rfl
  rw [← hfirst] at h64 hle ⊢
  exact (if_neg (Nat.ne_of_gt hn)).trans (htests _ h64 hle)

/-- For every `int` the number of slots is the exact bound, and fits in 32 bits. -/
theorem slotCount_exact :
    (ribbonSlotCountWords n = ribbonSlotCount n ∧ ribbonSlotCount n = exactSlotCount n) ∧
      64 ≤ ribbonSlotCount n ∧ ribbonSlotCount n ≤ 2254857830 := by
  rw [ribbonSlotCountWords_eq hn hint, ribbonSlotCount_eq hn hint]
  refine ⟨⟨rfl, ?_⟩, by split <;> omega, by split <;> omega⟩
  have hceil : ⌈(105 * n : ℚ) / 100⌉₊ = (n * 105 + 100 - 1) / 100 := by
    have h := ceil_div (n * 105) (by norm_num : 0 < 100)
    rw [← h, Nat.cast_mul, mul_comm]
    norm_num
  rw [exactSlotCount, hceil]
  rfl

/-- The slot count is an `int` up to this many keys. -/
theorem slotCount_lt_iff : ribbonSlotCount n < 2147483648 ↔ n ≤ 2045222520 := by
  rw [ribbonSlotCount_eq hn hint]
  split <;> omega

end SlotCount

/-! ## The rows -/

theorem startCountWords_eq {slotCount : ℕ} (h64 : 64 ≤ slotCount)
    (hslots : slotCount < 4294967296) : startCountWords slotCount = slotCount - 64 + 1 := by
  have hsub : u32 (slotCount + 4294967296 - 64) = slotCount - 64 := by
    unfold u32
    omega
  rw [startCountWords, kRibbonWidth, hsub, u32_of_lt (by omega)]

/-- The product of two 32-bit factors fits in 64 bits. -/
theorem fastRange32Words_eq (hash : UInt32) {range : ℕ} (hrange : range < 4294967296) :
    fastRange32Words hash range = fastRange32 hash range := by
  have hhash := hash.toNat_lt
  have hprod : hash.toNat * range < 18446744073709551616 :=
    (Nat.mul_lt_mul'' hhash hrange).trans_eq (by norm_num)
  unfold fastRange32Words fastRange32
  split
  · rfl
  · rw [u64_of_lt hprod, u32_of_lt]
    rw [Nat.div_lt_iff_lt_mul (by norm_num)]
    omega

/-- The coefficient word of every key is odd. -/
theorem deriveCoefficient_odd (hash : UInt64) :
    (deriveCoefficient hash).toNat.testBit 0 = true := by
  rw [deriveCoefficient, UInt64.toNat_or, Nat.testBit_or, UInt64.toNat_one]
  simp

/-- The rows of `TryBuildRibbon` are drawn as its loops need them. -/
theorem SortedRows.drawn {n resultBits : ℕ} (h64 : 64 ≤ ribbonSlotCount n)
    {rows : List RibbonRow} (hrows : SortedRows n resultBits rows) :
    ∀ row ∈ rows, row.Drawn (ribbonSlotCount n) := by
  obtain ⟨hash, sort, keys, seed, -, rfl⟩ := hrows
  intro row hrow
  obtain ⟨key, -, rfl⟩ := List.mem_map.1 ((sort.perm _).mem_iff.1 hrow)
  exact ⟨ribbonRow_start_add_le hash resultBits h64 seed key, deriveCoefficient_odd _⟩

/-! ## Main results -/

/-- In 2^31 slots the start of the counter is no `int`. -/
theorem backSubstitute_overflow (t : PivotTable) (resultBits : ℕ) :
    backSubstitute t 2147483648 resultBits = .error .signedOverflow := rfl

/-- In more slots the back substitution visits no position. -/
theorem backSubstitutePositions_of_gt {slotCount : ℕ} (hgt : 2147483648 < slotCount)
    (hslots : slotCount < 4294967296) : backSubstitutePositions slotCount = [] := by
  rw [backSubstitutePositions_eq hslots, intOfU32, if_neg (not_lt.2 hgt.le),
    Int.toNat_of_nonpos (by omega)]
  rfl

/-- Its slots are then all zero, whatever the pivots are. -/
theorem backSubstitute_of_gt (t : PivotTable) {slotCount : ℕ} (hgt : 2147483648 < slotCount)
    (hslots : slotCount < 4294967296) (resultBits : ℕ) :
    backSubstitute t slotCount resultBits = .ok (List.replicate slotCount 0) := by
  rw [backSubstitute_eq_foldl t hslots hgt.ne', backSubstitutePositions_of_gt hgt hslots,
    List.foldl_nil]

/-- A slot count from 2^31 on is negative as an `int`. -/
theorem IndicesExact.lt {keyCount resultBits : ℕ} (h : IndicesExact keyCount resultBits) :
    ribbonSlotCount keyCount < 2147483648 := by
  have hcast := h.cast
  unfold intOfU32 at hcast
  split at hcast <;> omega

/-- **The index arithmetic of the builder** is exact for just these key counts. -/
theorem indicesExact_iff (p : RibbonFilterPolicy) (keyCount : ℕ) (hpos : 1 ≤ keyCount)
    (hint : keyCount ≤ 2147483647) :
    IndicesExact keyCount p.resultBits ↔ keyCount ≤ 2045222520 := by
  obtain ⟨hexact, h64, hle⟩ := slotCount_exact hpos hint
  rw [← slotCount_lt_iff hpos hint]
  constructor
  · exact fun h => h.lt
  · intro hslots
    have hslots' : ribbonSlotCount keyCount < 4294967296 := by omega
    have hstart := startCountWords_eq h64 hslots'
    have hcast := intOfU32_of_lt hslots
    refine ⟨hexact, by omega, fun hash => fastRange32Words_eq hash (by omega),
      fun rows hrows row hrow => ?_, fun rows hrows done row rest t hsplit ht it hit => ?_, hcast,
      ?_, fun rows hrows t ht position hposition test htest hne => ?_⟩
    · have := (hrows.drawn h64 row hrow).1
      omega
    · have hdrawn := hrows.drawn h64
      subst hsplit
      obtain ⟨hdone, hrest⟩ := List.forall_mem_append.1 hdrawn
      have htrace := eliminateTrace_spec (bandsBelow_of_drawn hslots' hdone ht) le_rfl hslots'
        (ribbonSlotCount keyCount + 2) _ _ (List.forall_mem_cons.1 hrest).1.slots_lt
      exact u32_of_lt ((htrace.reached_lt it hit).trans hslots')
    · rw [backSubstitutePositions_eq hslots', hcast, Int.toNat_natCast]
    · have htests := slotTests_spec (bandsBelow_of_drawn hslots' (hrows.drawn h64) ht) hslots
        position
      have hlt := htests.1 test htest hne
      rw [hcast] at hlt
      omega

theorem indicesExact_iff_thousand : IndicesExact 1000 7 ↔ 1000 ≤ 2045222520 :=
  indicesExact_iff ⟨10, 7, by decide, by decide, by decide⟩ 1000 (by norm_num) (by norm_num)

/-- With ten bits per key and 2045222522 keys the Bloom estimate overflows, a Ribbon filter
is attempted in 2147483649 slots, and the back substitution visits none of them. -/
theorem indices_not_exact : ∃ p, newRibbonFilterPolicy 10 = some p ∧
    p.AttemptsRibbon 2045222522 ∧ ribbonSlotCount 2045222522 = 2147483649 ∧
      backSubstitutePositions 2147483649 = [] ∧ ¬ IndicesExact 2045222522 p.resultBits := by
  have hslots : ribbonSlotCount 2045222522 = 2147483649 := by decide
  refine ⟨_, rfl, ⟨by decide, ?_⟩, hslots, ?_, fun h => ?_⟩
  · decide
  · exact backSubstitutePositions_of_gt (by norm_num) (by norm_num)
  · have := h.lt
    omega

end PackedFilters.Ribbon
