import Mathlib

/-!
# Natural numbers under exclusive or

`XorNat` is `ℕ` with bitwise exclusive or as its addition: an abelian group in which every
element is its own inverse, hence a vector space over `ZMod 2`.  Machine words of any width
embed in it through their value, so one theory of exclusive-or sums serves all of them: a sum
over a finite set, in any order, and the linear algebra of systems of such sums, are those of
any module.

The type is `ℕ` under another name, so that the order and the usual addition of natural
numbers do not get in the way; `ofNat` and `toNat` go from one to the other and change
nothing.

* `add_self` — twice the same is nothing, and with it the module over `ZMod 2`;
* `ofNat_xor`, `toNat_add` — the two names of the operation;
* `toNat_sum_lt` — a sum of words of so many bits has no more bits, so that a sum taken in
  `XorNat` is again the value of a machine word of that width.

A program that keeps such sums in words never carries from one bit to another, and there is
nothing to say about overflow: that is what sets them apart from sums of numbers.
-/

/-- A natural number read as a word under exclusive or. -/
def XorNat : Type := ℕ

namespace XorNat

/-- Read a natural number as a word. -/
def ofNat (n : ℕ) : XorNat := n

/-- The value of a word. -/
def toNat (v : XorNat) : ℕ := v

@[simp] theorem ofNat_toNat (v : XorNat) : ofNat v.toNat = v := rfl

theorem ofNat_injective : Function.Injective ofNat := fun _ _ h => h

instance : DecidableEq XorNat := inferInstanceAs (DecidableEq ℕ)

instance : Zero XorNat := ⟨ofNat 0⟩

instance : Add XorNat := ⟨fun a b => ofNat (a.toNat ^^^ b.toNat)⟩

instance : Neg XorNat := ⟨id⟩

theorem add_self (a : XorNat) : a + a = 0 := Nat.xor_self a.toNat

instance : AddCommGroup XorNat where
  toAddGroup := AddGroup.ofLeftAxioms (fun a b c => Nat.xor_assoc a.toNat b.toNat c.toNat)
    (fun a => Nat.zero_xor a.toNat) add_self
  add_comm a b := Nat.xor_comm a.toNat b.toNat

@[simp] theorem toNat_zero : (0 : XorNat).toNat = 0 := rfl

theorem ofNat_xor (a b : ℕ) : ofNat (a ^^^ b) = ofNat a + ofNat b := rfl

theorem toNat_add (a b : XorNat) : (a + b).toNat = a.toNat ^^^ b.toNat := rfl

instance : Module (ZMod 2) XorNat :=
  AddCommGroup.zmodModule (n := 2) fun a => by rw [two_nsmul, add_self]

instance : Nontrivial XorNat := ⟨⟨ofNat 0, ofNat 1, Nat.zero_ne_one⟩⟩

theorem ofNat_eq_zero {n : ℕ} : ofNat n = 0 ↔ n = 0 := Iff.rfl

/-- A sum of words below `2 ^ k` is below `2 ^ k`. -/
theorem toNat_sum_lt {ι : Type*} {k : ℕ} (s : Finset ι) (f : ι → XorNat)
    (h : ∀ i ∈ s, (f i).toNat < 2 ^ k) : (∑ i ∈ s, f i).toNat < 2 ^ k := by
  classical
  induction s using Finset.induction_on with
  | empty => simp
  | insert a s ha ih =>
    rw [Finset.sum_insert ha, toNat_add]
    exact Nat.xor_lt_two_pow (h a (by simp)) (ih fun i hi => h i (by simp [hi]))

end XorNat
