import Mathlib

/-!
# While loops

A loop `while (guard s) s = step s` over states of any type.  It is run for a bounded number
of rounds, so that it is a total function: `none` says that it was still running when the
rounds were used up, which is not an answer of the loop.

What is known of a loop is known of the states that its head sees, before each test of the
guard (`Run`).  An invariant is proved by induction on them, once for all loops; termination
is a natural number that falls in every round *of the run*, so that the invariant may be used
for it.  With enough rounds the loop then ends in a state of the run whose guard is false,
and that is how a caller reads the result: the invariant and the negation of the guard.

* `Run` — the states the head of the loop sees;
* `Run.invariant` — what holds at the start and survives a round holds in all of them;
* `iterate` — the loop with a bound on its rounds;
* `exists_iterate` — a variant that falls in every round bounds the rounds needed, and every
  larger bound gives the same result.

Several results about one loop share its `Run`: they may be proved one after the other, each
with the help of those before it.
-/

namespace WhileLoop

variable {σ : Type*} {guard : σ → Prop} {step : σ → σ} {start : σ}

/-- The states at the head of the loop, from `start` on. -/
inductive Run (guard : σ → Prop) (step : σ → σ) (start : σ) : σ → Prop
  /-- The first time. -/
  | start : Run guard step start start
  /-- One more round. -/
  | next {s} : Run guard step start s → guard s → Run guard step start (step s)

/-- **The loop invariant:** what holds at the start and is kept by a round holds of every state
that the head of the loop sees. -/
theorem Run.invariant {I : σ → Prop} (hstart : I start) (hstep : ∀ s, I s → guard s → I (step s))
    {s : σ} (h : Run guard step start s) : I s := by
  induction h with
  | start => exact hstart
  | next _ hg ih => exact hstep _ ih hg

/-- At most `rounds` tests of the guard; `none` when the loop is still running. -/
def iterate (guard : σ → Prop) [DecidablePred guard] (step : σ → σ) : ℕ → σ → Option σ
  | 0, _ => none
  | rounds + 1, s => if guard s then iterate guard step rounds (step s) else some s

/-- **Termination.**  When a variant falls in every round of a run, more rounds than
its value end the loop, in a state of the run whose guard is false. -/
theorem exists_iterate [DecidablePred guard] (variant : σ → ℕ)
    (hfall : ∀ s, Run guard step start s → guard s → variant (step s) < variant s) :
    ∀ (rounds : ℕ) (s : σ), Run guard step start s → variant s < rounds →
      ∃ s', iterate guard step rounds s = some s' ∧ Run guard step start s' ∧ ¬ guard s' := by
  intro rounds
  induction rounds with
  | zero => exact fun s _ h => absurd h (Nat.not_lt_zero _)
  | succ rounds ih =>
    intro s hs hlt
    rw [iterate]
    by_cases hg : guard s
    · rw [if_pos hg]
      have := hfall s hs hg
      exact ih (step s) (hs.next hg) (by omega)
    · exact ⟨s, if_neg hg, hs, hg⟩

end WhileLoop
