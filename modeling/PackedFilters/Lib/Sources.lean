import Mathlib

/-!
# Reading the newest version

Versions of a key are kept in several sources, each with a rank, and a read asks one source
after the other until one of them has an answer.  A read counts some of the versions only,
those of its key that are old enough for it to see, and wants the one of the highest rank.

To stop at the first answer is right when sources are read newest first: no version that
counts in a later source has a higher rank than one that counts in an earlier source
(`NewestFirst`).  Then a source that answers with the best it has answers for all sources
behind it, and one without an answer can be left out.

* `Newest` — the answer to a read: a version of the highest rank that counts, or that there
  is none;
* `Newest.congr` — it depends on the versions that count, not on where they are kept;
* `NewestFirst` — no version in a later source is above one in an earlier source;
* `Newest.append_of_some`, `Newest.append_of_none` — one source before another: its answer
  stands, or the other's does;
* `newest_findSome?` — the first answer is the answer of all sources together.

Nothing is said of how a source finds its answer: it is a function from sources to answers,
and may be a different search for each of them.
-/

namespace Sources

variable {α : Type*} {counts : α → Prop} {rank : α → ℕ}

/-- The answer to a read of `items`. -/
def Newest (counts : α → Prop) (rank : α → ℕ) (items : List α) : Option α → Prop
  | none => ∀ a ∈ items, ¬ counts a
  | some a => a ∈ items ∧ counts a ∧ ∀ b ∈ items, counts b → rank b ≤ rank a

/-- A version of an earlier source is not below one of a later source. -/
def NewestFirst (counts : α → Prop) (rank : α → ℕ) (sources : List (List α)) : Prop :=
  sources.Pairwise fun front back =>
    ∀ a ∈ front, counts a → ∀ b ∈ back, counts b → rank b ≤ rank a

theorem newest_nil : Newest counts rank [] none := nofun

/-- Only what counts matters. -/
theorem Newest.congr {items items' : List α} {r : Option α} (h : Newest counts rank items r)
    (hmem : ∀ a, counts a → (a ∈ items ↔ a ∈ items')) : Newest counts rank items' r := by
  cases r with
  | none => exact fun a ha hcounts => h a ((hmem a hcounts).2 ha) hcounts
  | some a =>
    obtain ⟨ha, hcounts, hmax⟩ := h
    exact ⟨(hmem a hcounts).1 ha, hcounts, fun b hb hb' => hmax b ((hmem b hb').2 hb) hb'⟩

/-- A source that has an answer answers for those behind it. -/
theorem Newest.append_of_some {front back : List α} {a : α}
    (h : Newest counts rank front (some a))
    (hback : ∀ b ∈ back, counts b → rank b ≤ rank a) :
    Newest counts rank (front ++ back) (some a) := by
  obtain ⟨hmem, hcounts, hmax⟩ := h
  refine ⟨List.mem_append_left _ hmem, hcounts, fun b hb hb' => ?_⟩
  rcases List.mem_append.1 hb with hb | hb
  · exact hmax b hb hb'
  · exact hback b hb hb'

/-- A source that has none leaves the answer to those behind it. -/
theorem Newest.append_of_none {front back : List α} {r : Option α}
    (h : Newest counts rank front none) (hback : Newest counts rank back r) :
    Newest counts rank (front ++ back) r := by
  cases r with
  | none =>
    intro a ha
    rcases List.mem_append.1 ha with ha | ha
    · exact h a ha
    · exact hback a ha
  | some a =>
    obtain ⟨hmem, hcounts, hmax⟩ := hback
    refine ⟨List.mem_append_right _ hmem, hcounts, fun b hb hb' => ?_⟩
    rcases List.mem_append.1 hb with hb | hb
    · exact absurd hb' (h b hb)
    · exact hmax b hb hb'

/-- **The first answer is the newest version** of all sources together. -/
theorem newest_findSome? {sources : List (List α)} (h : NewestFirst counts rank sources)
    {ask : List α → Option α} (hask : ∀ s ∈ sources, Newest counts rank s (ask s)) :
    Newest counts rank sources.flatten (sources.findSome? ask) := by
  induction sources with
  | nil => exact newest_nil
  | cons s sources ih =>
    obtain ⟨hs, hrest⟩ := List.pairwise_cons.1 h
    have hnewest := hask s List.mem_cons_self
    rw [List.flatten_cons, List.findSome?_cons]
    cases hcase : ask s with
    | none =>
      rw [hcase] at hnewest
      exact hnewest.append_of_none (ih hrest fun t ht => hask t (List.mem_cons_of_mem _ ht))
    | some a =>
      rw [hcase] at hnewest
      refine hnewest.append_of_some fun b hb hb' => ?_
      obtain ⟨t, ht, hb⟩ := List.mem_flatten.1 hb
      exact hs t ht a hnewest.1 hnewest.2.1 b hb hb'

end Sources
