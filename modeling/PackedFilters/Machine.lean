import PackedFilters.Lib.XorNat

/-!
# The machine the filters run on

Byte strings, fixed-width words and the ways a C++ run can leave the language.

A computation that can go wrong is a value of `Checked`: it ends in a result, or in the
`Fault` that the language leaves undefined, such as a read outside the buffer, a remainder by
zero, a shift by too much, a signed overflow, or in not ending at all.  Nothing is assumed of
what happens behind a fault; that a function has none is something to prove, and the theorems
about arbitrary bytes say it of every read.

Words of 8, 32 and 64 bits are Lean's own where the code computes with their bits.  Sizes and
indices are natural numbers, wrapped by `u32` or `u64` where the code's own width can matter,
so that arithmetic on them stays readable where it cannot.

* `Fault` and `Checked` — a computation that may fault, with the lemmas that take a bind
  apart;
* `u32`, `u64`, `intOfU32` — what a variable of that type keeps of a number;
* `shl64`, `shr64` — shifts of a 64-bit word, with their values in `ℕ`;
* `readByte` — a read of the filter's memory;
* `HashFunction`, `StdSort` — what the code is linked with: a hash, and a sort that leaves
  the order of equal elements open;
* `xorAll`, `assignment` — exclusive ors of words, as sums in `XorNat`.
-/

namespace PackedFilters

/-! ## Checked computations -/

/-- What a C++ program can do that the language does not define, or that never
comes back. -/
inductive Fault where
  /-- A read at this index, outside the buffer. -/
  | readOutside (index : ℕ)
  /-- A write at this index, outside the buffer. -/
  | writeOutside (index : ℕ)
  /-- A bit width outside `1..16`: the `assert` of `BitMask` fails. -/
  | widthOutside (bits : ℕ)
  /-- A shift count at or above the width of the shifted word. -/
  | shiftOutside (count : ℕ)
  /-- A remainder by zero. -/
  | remainderByZero
  /-- A signed addition or subtraction whose result is no `int`. -/
  | signedOverflow
  /-- A loop still running after the number of iterations allowed for it. -/
  | loopUnfinished
  deriving DecidableEq, Repr

/-- A computation that may fault. -/
abbrev Checked := Except Fault

@[simp] theorem ok_bind {α β : Type} (a : α) (f : α → Checked β) :
    ((Except.ok a : Checked α) >>= f) = f a := rfl

@[simp] theorem error_bind {α β : Type} (e : Fault) (f : α → Checked β) :
    ((Except.error e : Checked α) >>= f) = Except.error e := rfl

/-- A sequence of two computations that returned: each of them did. -/
theorem bind_eq_ok {α β : Type} {x : Checked α} {f : α → Checked β} {b : β}
    (h : (x >>= f) = .ok b) : ∃ a, x = .ok a ∧ f a = .ok b := by
  cases x with
  | error e => cases h
  | ok a => exact ⟨a, rfl, h⟩

/-! ## Words -/

/-- What a `uint32_t` keeps of a number. -/
def u32 (n : ℕ) : ℕ := n % 4294967296

/-- What a `uint64_t` keeps of a number. -/
def u64 (n : ℕ) : ℕ := n % 18446744073709551616

theorem u32_lt (n : ℕ) : u32 n < 4294967296 := Nat.mod_lt _ (by norm_num)

@[simp] theorem u32_of_lt {n : ℕ} (h : n < 4294967296) : u32 n = n := Nat.mod_eq_of_lt h

@[simp] theorem u64_of_lt {n : ℕ} (h : n < 18446744073709551616) : u64 n = n :=
  Nat.mod_eq_of_lt h

theorem toNat_ofNat32 {n : ℕ} (h : n < 4294967296) : (UInt32.ofNat n).toNat = n :=
  (UInt32.toNat_ofNat').trans (u32_of_lt h)

theorem toNat_ofNat8 {n : ℕ} (h : n < 256) : (UInt8.ofNat n).toNat = n :=
  (UInt8.toNat_ofNat').trans (Nat.mod_eq_of_lt h)

/-- The value a `static_cast<int>` gives a 32-bit number. -/
def intOfU32 (n : ℕ) : ℤ := if n < 2147483648 then n else n - 4294967296

theorem intOfU32_of_lt {n : ℕ} (h : n < 2147483648) : intOfU32 n = n := if_pos h

/-- A factory that got past `bits_per_key <= 0` has at least one bit per key. -/
theorem one_le_toNat {bits : ℤ} (h : ¬ bits ≤ 0) : 1 ≤ bits.toNat := by omega

/-- `value << count` on a 64-bit word, for a count below 64. -/
def shl64 (value : UInt64) (count : ℕ) : UInt64 := value <<< UInt64.ofNat count

/-- `value >> count` on a 64-bit word, for a count below 64. -/
def shr64 (value : UInt64) (count : ℕ) : UInt64 := value >>> UInt64.ofNat count

private theorem toNat_count {k : ℕ} (h : k < 64) : (UInt64.ofNat k).toNat % 64 = k := by
  rw [UInt64.toNat_ofNat', Nat.mod_eq_of_lt (by omega : k < 2 ^ 64), Nat.mod_eq_of_lt h]

theorem toNat_shl64 (v : UInt64) {k : ℕ} (h : k < 64) :
    (shl64 v k).toNat = v.toNat * 2 ^ k % 2 ^ 64 := by
  rw [shl64, UInt64.toNat_shiftLeft, toNat_count h, Nat.shiftLeft_eq]

theorem toNat_shr64 (v : UInt64) {k : ℕ} (h : k < 64) :
    (shr64 v k).toNat = v.toNat / 2 ^ k := by
  rw [shr64, UInt64.toNat_shiftRight, toNat_count h, Nat.shiftRight_eq_div_pow]

theorem testBit_shr64 (v : UInt64) {k : ℕ} (h : k < 64) (i : ℕ) :
    (shr64 v k).toNat.testBit i = v.toNat.testBit (k + i) := by
  rw [shr64, UInt64.toNat_shiftRight, toNat_count h, Nat.testBit_shiftRight]

theorem testBit_of_ge (v : UInt64) {i : ℕ} (h : 64 ≤ i) : v.toNat.testBit i = false :=
  Nat.testBit_lt_two_pow (v.toNat_lt.trans_le (Nat.pow_le_pow_right (by norm_num) h))

/-- `FastRange32`: the high half of a 64-bit product of 32-bit factors. -/
def fastRange32 (hash : UInt32) (range : ℕ) : ℕ :=
  if range = 0 then 0 else hash.toNat * range / 4294967296

theorem fastRange32_lt (hash : UInt32) {range : ℕ} (h : 0 < range) :
    fastRange32 hash range < range := by
  rw [fastRange32, if_neg h.ne', Nat.div_lt_iff_lt_mul (by norm_num), Nat.mul_comm range]
  exact Nat.mul_lt_mul_of_pos_right hash.toNat_lt h

/-- The integer division that rounds up. -/
theorem ceil_div (n : ℕ) {d : ℕ} (hd : 0 < d) : ⌈(n : ℚ) / d⌉₊ = (n + d - 1) / d := by
  have hd' : (0 : ℚ) < d := by exact_mod_cast hd
  refine eq_of_forall_ge_iff fun c => ?_
  rw [Nat.ceil_le, div_le_iff₀ hd', Nat.div_le_iff_le_mul_add_pred hd]
  constructor
  · intro h
    have : n ≤ c * d := by exact_mod_cast h
    rw [Nat.mul_comm] at this
    omega
  · intro h
    have : n ≤ c * d := by
      rw [Nat.mul_comm]
      omega
    exact_mod_cast this

/-! ## Exclusive or of a list of words -/

/-- The exclusive or of a list of words. -/
def xorAll (words : List UInt64) : UInt64 := words.foldr (· ^^^ ·) 0

theorem ofNat_toNat_xorAll (words : List UInt64) :
    XorNat.ofNat (xorAll words).toNat = (words.map fun w => XorNat.ofNat w.toNat).sum := by
  induction words with
  | nil => rfl
  | cons w words ih =>
    rw [List.map_cons, List.sum_cons, ← ih, ← XorNat.ofNat_xor, ← UInt64.toNat_xor]
    rfl

/-- Words with the same sum in `XorNat` are equal. -/
theorem word_ext {a b : UInt64} (h : XorNat.ofNat a.toNat = XorNat.ofNat b.toNat) : a = b :=
  UInt64.toNat_inj.1 (XorNat.ofNat_injective h)

/-! ## Memory -/

/-- A byte string: the contents of a `Slice` or a `std::string`. -/
abbrev Bytes := List UInt8

/-- Read one byte of a filter. -/
def readByte (data : Bytes) (index : ℕ) : Checked UInt8 :=
  match data[index]? with
  | some b => .ok b
  | none => .error (.readOutside index)

theorem readByte_of_lt {data : Bytes} {i : ℕ} (h : i < data.length) :
    readByte data i = .ok (data.getD i 0) := by
  rw [readByte, List.getElem?_eq_getElem h, List.getD_eq_getElem?_getD,
    List.getElem?_eq_getElem h]
  rfl

theorem readByte_of_le {data : Bytes} {i : ℕ} (h : data.length ≤ i) :
    readByte data i = .error (.readOutside i) := by
  rw [readByte, List.getElem?_eq_none h]

/-- The 32-bit `Hash(data, size, seed)` a filter is linked with. -/
abbrev HashFunction := Bytes → UInt32 → UInt32

/-! ## Sorting -/

/-- What `std::sort` promises for the order `key a < key b`: the same elements,
sorted.  The order it leaves elements of equal key in is left open. -/
structure StdSort (α : Type) (key : α → ℕ) where
  run : List α → List α
  perm : ∀ l, (run l).Perm l
  sorted : ∀ l, (run l).Pairwise fun a b => key a ≤ key b

/-- A stable sort is one of them. -/
def StdSort.stable {α : Type} (key : α → ℕ) : StdSort α key where
  run l := l.mergeSort fun a b => decide (key a ≤ key b)
  perm l := List.mergeSort_perm l _
  sorted l := by
    have htrans : ∀ a b c : α, decide (key a ≤ key b) = true → decide (key b ≤ key c) = true →
        decide (key a ≤ key c) = true := fun a b c hab hbc => by
      simp only [decide_eq_true_eq] at *
      omega
    have htotal : ∀ a b : α, (decide (key a ≤ key b) || decide (key b ≤ key a)) = true :=
      fun a b => by
        simp only [Bool.or_eq_true, decide_eq_true_eq]
        omega
    have h := List.pairwise_mergeSort htrans htotal l
    exact h.imp fun hab => of_decide_eq_true hab

/-! ## Vectors -/

theorem getD_set {α : Type} (l : List α) (i j : ℕ) (a d : α) :
    (l.set i a).getD j d = if i = j ∧ j < l.length then a else l.getD j d := by
  rw [List.getD_eq_getElem?_getD, List.getD_eq_getElem?_getD, List.getElem?_set]
  by_cases hij : i = j
  · subst hij
    by_cases hi : i < l.length
    · simp [hi]
    · simp [hi]
  · simp [hij]

theorem getD_set_self {α : Type} {l : List α} {i : ℕ} (h : i < l.length) (a d : α) :
    (l.set i a).getD i d = a := by
  rw [getD_set, if_pos ⟨rfl, h⟩]

theorem getD_set_ne {α : Type} (l : List α) {i j : ℕ} (h : i ≠ j) (a d : α) :
    (l.set i a).getD j d = l.getD j d := by
  rw [getD_set, if_neg fun hc => h hc.1]

@[simp] theorem getD_replicate {α : Type} (n i : ℕ) (a : α) :
    (List.replicate n a).getD i a = a := by
  rw [List.getD_eq_getElem?_getD, List.getElem?_replicate]
  split <;> rfl

/-- The assignment over `XorNat` that a vector of slots stands for. -/
def assignment (slots : List UInt32) (i : ℕ) : XorNat := XorNat.ofNat (slots.getD i 0).toNat

theorem assignment_replicate (n i : ℕ) : assignment (List.replicate n 0) i = 0 := by
  rw [assignment, getD_replicate]
  rfl

end PackedFilters
