import PackedFilters.Codec.Hash
import PackedFilters.Ribbon.Solution

/-!
# Ribbon encodings

`TryBuildRibbon` against the system of its keys, and the two encodings against the reader's
walk.

The builder and the reader do not compute the same thing in the same way.  The builder sees
one row for each key and solves all of them; the reader gets a payload, derives the row of
one key from the trailer's fields, and adds up the slots of the row by reading them from the
packed bytes, one for each set bit of the coefficients.  They meet in `xorOfSlots`, the
exclusive or of the slots that a row selects.

* `xorOfSlots`, `Solvable` — the system as its readers see it: the exclusive or of the slots
  `start + j` over the set coefficient bits `j`;
* `tryBuildRibbon_cases` — it returns a packed solution, or `false` when the system has none,
  and then leaves `encoded` as it was;
* `walkRow_packed` — the reader's walk adds up the same slots, whatever stands behind the
  payload;
* `solvable_of_solution`, `rowsHold_of_solvable` — the two views of a system, as rows and as
  sums of slots, have the same solutions.
-/

namespace PackedFilters.Ribbon

open Gf2System LittleEndian

/-! ## The system of the keys -/

/-- The exclusive or of the slots a coefficient word selects. -/
def xorOfSlots (slots : List UInt32) (start : ℕ) (coefficients : UInt64) : UInt32 :=
  (List.range 64).foldl
    (fun acc j => if coefficients.toNat.testBit j then acc ^^^ slots.getD (start + j) 0 else acc) 0

/-- Slots of `result_bits` bits can be chosen so that every key's row gives the key's
result. -/
def Solvable (hash : HashFunction) (keys : List Bytes) (slotCount resultBits : ℕ)
    (seed : UInt32) : Prop :=
  ∃ slots : List UInt32, slots.length = slotCount ∧ (∀ v ∈ slots, v.toNat < 2 ^ resultBits) ∧
    ∀ key ∈ keys,
      xorOfSlots slots (ribbonRow hash slotCount resultBits seed key).start
          (ribbonRow hash slotCount resultBits seed key).coefficients
        = (ribbonRow hash slotCount resultBits seed key).result

/-- A dot product over the bits of a coefficient word. -/
theorem dot_slotsOf_eq_sum (position : ℕ) (c : UInt64) (x : ℕ → XorNat) :
    dot (slotsOf position c) x
      = ∑ j ∈ Finset.range 64, if c.toNat.testBit j = true then x (position + j) else 0 := by
  rw [dot, slotsOf, Finset.sum_image fun a _ b _ h => Nat.add_left_cancel h, Finset.sum_filter]

/-- `xorOfSlots` is the dot product of the row with the slots. -/
theorem ofNat_xorOfSlots (slots : List UInt32) (start : ℕ) (c : UInt64) :
    XorNat.ofNat (xorOfSlots slots start c).toNat = dot (slotsOf start c) (assignment slots) := by
  have hrun (n : ℕ) : XorNat.ofNat ((List.range n).foldl (fun acc j =>
      if c.toNat.testBit j then acc ^^^ slots.getD (start + j) 0 else acc) (0 : UInt32)).toNat
      = ∑ j ∈ Finset.range n, if c.toNat.testBit j = true then assignment slots (start + j) else 0
      := by
    induction n with
    | zero => rfl
    | succ n ih =>
      rw [List.range_succ, List.foldl_append, Finset.sum_range_succ, ← ih, List.foldl_cons,
        List.foldl_nil]
      split
      · rw [UInt32.toNat_xor, XorNat.ofNat_xor]
        rfl
      · rw [add_zero]
  rw [dot_slotsOf_eq_sum]
  exact hrun 64

/-- A row holds of the slots exactly when their exclusive or is the row's result. -/
theorem RibbonRow.holds_iff (row : RibbonRow) (slots : List UInt32) :
    row.equation.Holds (assignment slots) ↔
      xorOfSlots slots row.start row.coefficients = row.result := by
  have hdot := ofNat_xorOfSlots slots row.start row.coefficients
  constructor
  · intro h
    exact UInt32.toNat_inj.1 (XorNat.ofNat_injective (hdot.trans h))
  · intro h
    show dot (slotsOf row.start row.coefficients) (assignment slots)
      = XorNat.ofNat row.result.toNat
    rw [← hdot, h]

/-- A whole band fits behind the start of a key's row. -/
theorem ribbonRow_start_add_le (hash : HashFunction) {slotCount : ℕ} (resultBits : ℕ)
    (h64 : 64 ≤ slotCount) (seed : UInt32) (key : Bytes) :
    (ribbonRow hash slotCount resultBits seed key).start + 64 ≤ slotCount := by
  have hstart : (ribbonRow hash slotCount resultBits seed key).start
      < slotCount - kRibbonWidth + 1 := fastRange32_lt _ (Nat.succ_pos _)
  rw [kRibbonWidth] at hstart
  omega

/-- The band of a key's row ends below `slot_count`. -/
theorem ribbonRow_fits (hash : HashFunction) {slotCount resultBits : ℕ} (h64 : 64 ≤ slotCount)
    (hbits : resultBits ≤ 16) (seed : UInt32) (key : Bytes) :
    (ribbonRow hash slotCount resultBits seed key).Fits slotCount resultBits where
  below _ hi := (slotsOf_lt hi).trans_le (ribbonRow_start_add_le hash resultBits h64 seed key)
  result_lt := toNat_and_bitMask_lt _ hbits

section Rows

variable {hash : HashFunction} {slotCount resultBits : ℕ} {seed : UInt32}

variable (hash seed) in
theorem forall_ribbonRow_fits (h64 : 64 ≤ slotCount) (hbits : resultBits ≤ 16)
    (keys : List Bytes) :
    ∀ row ∈ keys.map (ribbonRow hash slotCount resultBits seed), row.Fits slotCount resultBits := by
  intro row hrow
  obtain ⟨key, -, rfl⟩ := List.mem_map.1 hrow
  exact ribbonRow_fits hash h64 hbits seed key

/-- A solution of the rows of the keys, as slots. -/
theorem solvable_of_solution {keys : List Bytes} {slots : List UInt32}
    (hs : Solution slotCount resultBits (keys.map (ribbonRow hash slotCount resultBits seed))
      slots) : Solvable hash keys slotCount resultBits seed := by
  refine ⟨slots, hs.length, fun v hv => ?_, fun key hkey => ?_⟩
  · obtain ⟨i, hi, rfl⟩ := List.getElem_of_mem hv
    rw [← List.getD_eq_getElem slots 0 hi]
    exact hs.width i
  · exact (RibbonRow.holds_iff _ slots).1 (hs.holds _ (List.mem_map_of_mem hkey))

theorem rowsHold_of_solvable {keys : List Bytes}
    (h : Solvable hash keys slotCount resultBits seed) :
    ∃ x, RowsHold (keys.map (ribbonRow hash slotCount resultBits seed)) x := by
  obtain ⟨slots, -, -, hslots⟩ := h
  refine ⟨assignment slots, fun row hrow => ?_⟩
  obtain ⟨key, hkey, rfl⟩ := List.mem_map.1 hrow
  exact (RibbonRow.holds_iff _ slots).2 (hslots key hkey)

end Rows

/-! ## `TryBuildRibbon` -/

section Build

variable {slotCount resultBits : ℕ} (hash : HashFunction) (sort : RowSort)
  (h64 : 64 ≤ slotCount) (hslots : slotCount < 2147483648) (hbits : resultBits ≤ 16)

include h64 hslots hbits

/-- The rows are sorted before they are solved, which changes nothing. -/
theorem tryBuildRibbon_eq (keys : List Bytes) (seed : UInt32) (encoded : Bytes) :
    tryBuildRibbon hash sort keys slotCount resultBits seed encoded = (do
      match ← solveRows slotCount resultBits
          (keys.map (ribbonRow hash slotCount resultBits seed)) with
      | none => .ok (false, encoded)
      | some solution =>
        .ok (true, appendTrailer (appendPackedValues solution resultBits encoded) seed
          (UInt32.ofNat slotCount) (UInt8.ofNat resultBits) kEncodingRibbon)) := by
  have hfits := forall_ribbonRow_fits hash seed h64 hbits keys
  have hsorted : ∀ row ∈ sort.run (keys.map (ribbonRow hash slotCount resultBits seed)),
      row.Fits slotCount resultBits := fun row hrow => hfits row ((sort.perm _).mem_iff.1 hrow)
  rw [← solveRows_perm hslots hbits (sort.perm _) hsorted, tryBuildRibbon]
  exact if_neg (by rw [kRibbonWidth]; omega)

/-- **What `TryBuildRibbon` returns**: a solution of the keys' system, packed and
framed, or `false` and the old `encoded` when there is none. -/
theorem tryBuildRibbon_cases (keys : List Bytes) (seed : UInt32) (encoded : Bytes) :
    (∃ slots, Solution slotCount resultBits
          (keys.map (ribbonRow hash slotCount resultBits seed)) slots ∧
        tryBuildRibbon hash sort keys slotCount resultBits seed encoded
          = .ok (true, appendTrailer (appendPackedValues slots resultBits encoded) seed
              (UInt32.ofNat slotCount) (UInt8.ofNat resultBits) kEncodingRibbon)) ∨
      (¬ Solvable hash keys slotCount resultBits seed ∧
        tryBuildRibbon hash sort keys slotCount resultBits seed encoded = .ok (false, encoded)) := by
  rw [tryBuildRibbon_eq hash sort h64 hslots hbits]
  rcases solveRows_spec hslots hbits
      (forall_ribbonRow_fits hash seed h64 hbits keys)
    with ⟨slots, he, hs⟩ | ⟨he, hno⟩
  · exact Or.inl ⟨slots, hs, by rw [he, ok_bind]⟩
  · exact Or.inr ⟨fun h => hno (rowsHold_of_solvable h), by rw [he, ok_bind]⟩

/-- The keys in another order, sorted by another sort, give the same outcome. -/
theorem tryBuildRibbon_perm (sort' : RowSort) {keys keys' : List Bytes} (hperm : keys.Perm keys')
    (seed : UInt32) (encoded : Bytes) :
    tryBuildRibbon hash sort keys slotCount resultBits seed encoded
      = tryBuildRibbon hash sort' keys' slotCount resultBits seed encoded := by
  rw [tryBuildRibbon_eq hash sort h64 hslots hbits, tryBuildRibbon_eq hash sort' h64 hslots hbits,
    solveRows_perm hslots hbits (hperm.map _) (forall_ribbonRow_fits hash seed h64 hbits keys)]

end Build

/-! ## The reader's walk -/

/-- Over a packed vector of slots the walk returns the exclusive or of the row's
slots.  Each round moves to the next selected slot and reads it. -/
theorem walkRow_packed {slots : List UInt32} {resultBits : ℕ} (hb1 : 1 ≤ resultBits)
    (hbits : resultBits ≤ 16) (hwidth : ∀ i, (slots.getD i 0).toNat < 2 ^ resultBits)
    (hslots : slots.length < 4294967296) {out : Bytes} (rest : Bytes)
    (hlen : out.length = packedByteSize slots.length resultBits)
    (hval : value out = Nat.ofDigits (2 ^ resultBits) (fields slots resultBits)) :
    ∀ (rounds position : ℕ) (c : UInt64) (actual : UInt32), c.toNat < 2 ^ rounds →
      (∀ i ∈ slotsOf position c, i < slots.length) →
      ∃ v, RibbonFilterPolicy.walkRow (out ++ rest) out.length slots.length resultBits
          (rounds + 1) position c actual = .ok (some v) ∧
        XorNat.ofNat v.toNat
          = XorNat.ofNat actual.toNat + dot (slotsOf position c) (assignment slots) := by
  intro rounds
  induction rounds with
  | zero =>
    intro position c actual hc _
    have hzero : c = 0 := UInt64.toNat_inj.1 (by
      rw [pow_zero] at hc
      rw [UInt64.toNat_zero]
      omega)
    refine ⟨actual, ?_, by rw [hzero, slotsOf_zero, dot_empty, add_zero]⟩
    rw [RibbonFilterPolicy.walkRow, if_pos hzero]
  | succ rounds ih =>
    intro position c actual hc hbelow
    rw [RibbonFilterPolicy.walkRow]
    by_cases hzero : c = 0
    · exact ⟨actual, if_pos hzero, by rw [hzero, slotsOf_zero, dot_empty, add_zero]⟩
    · have hz : countTrailingZeros64 c < 64 := (countTrailingZeros64_spec hzero).1
      set p := position + countTrailingZeros64 c with hp
      set d := shr64 c (countTrailingZeros64 c) with hd
      have hlt : p < slots.length := hbelow _ (lowest_mem_slotsOf position hzero)
      have hread : readPackedValue (out ++ rest) out.length p resultBits
          = .ok (some (slots.getD p 0)) := by
        rw [readPackedValue_packed hb1 hbits hlen hval hlt, and_bitMask_of_lt hbits (hwidth p)]
      have hstep := dot_slotsOf_step p d (assignment slots)
      rw [if_pos (odd_shr64 hzero), slotsOf_shr64 position hzero] at hstep
      have hhalf : (shr64 d 1).toNat < 2 ^ rounds := by
        rw [toNat_shr64 d (by norm_num), hd, toNat_shr64 c hz]
        have := Nat.div_le_self c.toNat (2 ^ countTrailingZeros64 c)
        omega
      have hnext : ∀ i ∈ slotsOf (p + 1) (shr64 d 1), i < slots.length := by
        intro i hi
        refine hbelow i ?_
        rw [← slotsOf_shr64 position hzero, ← hp, ← hd]
        exact slotsOf_shr64_one_subset p d hi
      obtain ⟨v, hv, hsum⟩ := ih (p + 1) (shr64 d 1) (actual ^^^ slots.getD p 0) hhalf hnext
      refine ⟨v, ?_, ?_⟩
      · rw [if_neg hzero]
        simp only [← hp, ← hd, u32_of_lt (hlt.trans hslots), if_neg (not_le.2 hlt), hread, ok_bind,
          u32_of_lt (by omega : p + 1 < 4294967296)]
        exact hv
      · rw [hsum, hstep, UInt32.toNat_xor, XorNat.ofNat_xor, add_assoc]
        rfl

/-- The reader accepts a key whose row the packed slots satisfy. -/
theorem ribbonMayMatch_packed {hash : HashFunction} {slots : List UInt32} {slotCount resultBits : ℕ}
    (h64 : 64 ≤ slotCount) (hslots : slotCount < 2147483648) (hb1 : 1 ≤ resultBits)
    (hbits : resultBits ≤ 16) {keys : List Bytes} {seed : UInt32}
    (hs : Solution slotCount resultBits (keys.map (ribbonRow hash slotCount resultBits seed)) slots)
    {out rest : Bytes} (hlen : out.length = packedByteSize slots.length resultBits)
    (hval : value out = Nat.ofDigits (2 ^ resultBits) (fields slots resultBits))
    {key : Bytes} (hkey : key ∈ keys) :
    RibbonFilterPolicy.ribbonMayMatch hash key (out ++ rest) out.length slotCount resultBits seed
      = .ok true := by
  set row := ribbonRow hash slotCount resultBits seed key with hrow
  have hfits : row.Fits slotCount resultBits := ribbonRow_fits hash h64 hbits seed key
  have hlength : slots.length = slotCount := hs.length
  obtain ⟨v, hv, hsum⟩ := walkRow_packed hb1 hbits hs.width (by omega) rest hlen hval 64
    row.start row.coefficients 0 row.coefficients.toNat_lt (hlength ▸ hfits.below)
  have hholds : dot (slotsOf row.start row.coefficients) (assignment slots)
      = XorNat.ofNat row.result.toNat := hs.holds row (List.mem_map_of_mem hkey)
  have hresult : v = row.result := by
    refine UInt32.toNat_inj.1 (XorNat.ofNat_injective ?_)
    rw [hsum, hholds]
    exact zero_add _
  rw [hlength, hresult] at hv
  -- the reader derives from the key what the builder put into its row
  have hwalk : RibbonFilterPolicy.walkRow (out ++ rest) out.length slotCount resultBits 65
      (deriveStart (ribbonHash64 hash key seed) (slotCount - kRibbonWidth + 1))
      (deriveCoefficient (ribbonHash64 hash key (seed + kCoefficientSeedDelta))) 0
      = .ok (some row.result) := hv
  have hexpected : row.result &&& bitMask resultBits
      = deriveResult (ribbonHash64 hash key seed) resultBits :=
    and_bitMask_of_lt hbits hfits.result_lt
  unfold RibbonFilterPolicy.ribbonMayMatch
  simp only [hwalk, ok_bind, hexpected, beq_self_eq_true]

end PackedFilters.Ribbon
