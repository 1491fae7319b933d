import PackedFilters.Lib.Merge
import PackedFilters.LevelDb.Block
import PackedFilters.LevelDb.InternalKey

/-!
# The merging iterator

`table/merger.cc`: one iterator over the entries of several others, its children.  It shows
what the child shows whose key comes first, and moves that child on; the others wait.

Going forward, every child but the current one is at the first of its entries behind the
current key; going backward, at the last one before it.  When the direction changes, all
children have to be moved across the current key, by a seek and perhaps one step.  Both are
positions at a line through the keys, as `Lib.Merge` has them, on the one side of it or on
the other, so one relation says where the children stand in either direction (`Lined`).

No two children have the same key: the order in which equal keys would be shown is not fixed,
and in the store internal keys differ by their numbers.

* `MergingIterator` — the iterator, with the direction it moves in;
* `Each` — what holds of every child;
* `findSmallest_spec`, `findLargest_spec` — the searches among the children;
* `turn_spec` — all children stand at the line of the current entry, the other way round;
* `MergingIterator.walks` — it is a cursor on the merged list, also where it turns round;
* `MergedIterator.walks`, `MergedIterator.fresh` — and so is whatever `NewMergingIterator`
  returns, which for no child or one is another iterator.
-/

namespace PackedFilters.LevelDb

open Cursor

/-- `MergingIterator::Direction`: the way the children were moved last. -/
inductive Direction where
  | forward
  | reverse
  deriving DecidableEq

/-- `MergingIterator`; `current_` points to a child. -/
structure MergingIterator (δ : Type) where
  children : List δ
  current : Option ℕ := none
  direction : Direction := .forward

namespace MergingIterator

variable {δ : Type} (child : DbIterator δ) (comparator : Comparator)

/-- `current_`, if it points to a child. -/
def currentChild (it : MergingIterator δ) : Option δ := it.current.bind fun i => it.children[i]?

/-- `Valid`: there is a current child. -/
def valid (it : MergingIterator δ) : Bool := it.current.isSome

/-- `key`: that of the current child. -/
def key (it : MergingIterator δ) : Bytes := (it.currentChild.map child.key).getD []

/-- `value`: that of the current child. -/
def value (it : MergingIterator δ) : Bytes := (it.currentChild.map child.value).getD []

/-- `status`: the first that is not `ok`. -/
def status (it : MergingIterator δ) : Status :=
  ((it.children.map child.status).find? fun s => s ≠ .ok).getD .ok

/-- The loop of `FindSmallest` and `FindLargest`. -/
def findChild (better : Bytes → Bytes → Bool) (children : List (δ × ℕ)) : Option (δ × ℕ) :=
  children.foldl (fun best c =>
    if child.valid c.1 then
      match best with
      | none => some c
      | some b => if better (child.key c.1) (child.key b.1) then some c else best
    else best) none

/-- `FindSmallest`: the first child among those with the smallest key becomes the current
one. -/
def findSmallest (it : MergingIterator δ) : MergingIterator δ :=
  { it with
    current := (findChild child (fun a b => comparator.compare a b = .lt)
      it.children.zipIdx).map Prod.snd }

/-- `FindLargest`: the last child among those with the largest key becomes the current one. -/
def findLargest (it : MergingIterator δ) : MergingIterator δ :=
  { it with
    current := (findChild child (fun a b => comparator.compare a b = .gt)
      it.children.zipIdx.reverse).map Prod.snd }

/-- A loop over the children from index `i` on that passes over one of them. -/
def eachChild (skip : Option ℕ) (f : δ → Checked δ) : ℕ → List δ → Checked (List δ)
  | _, [] => .ok []
  | i, c :: children => do
    let c ← (if some i = skip then .ok c else f c)
    let children ← eachChild skip f (i + 1) children
    .ok (c :: children)

/-- An operation of every child. -/
def stepAll (op : Op Bytes) (it : MergingIterator δ) : Checked (MergingIterator δ) := do
  let children ← eachChild none (child.step op) 0 it.children
  .ok { it with children }

/-- An operation of `current_`. -/
def stepCurrent (op : Op Bytes) (it : MergingIterator δ) : Checked (MergingIterator δ) :=
  match it.current with
  | none => .ok it
  | some i =>
    match it.children[i]? with
    | none => .error (.readOutside i)
    | some c => do
      let c ← child.step op c
      .ok { it with children := it.children.set i c }

/-- What `Next` does with a child other than `current_` when it turns round. -/
def turnForward (key : Bytes) (c : δ) : Checked δ := do
  let c ← child.step (.seek key) c
  if child.valid c && comparator.compare key (child.key c) = .eq then child.step .next c else .ok c

/-- What `Prev` does with a child other than `current_` when it turns round. -/
def turnBackward (key : Bytes) (c : δ) : Checked δ := do
  let c ← child.step (.seek key) c
  if child.valid c then child.step .prev c else child.step .seekToLast c

/-- What the one or the other does with it. -/
def turnChild (key : Bytes) : Direction → δ → Checked δ
  | .forward => turnForward child comparator key
  | .reverse => turnBackward child key

/-- The loop of `Next` and `Prev` over the children when the iterator turns round. -/
def turn (direction : Direction) (it : MergingIterator δ) : Checked (MergingIterator δ) :=
  if it.direction = direction then .ok it
  else do
    let children ←
      eachChild it.current (turnChild child comparator (it.key child) direction) 0 it.children
    .ok { it with children, direction }

/-- The operations: seeks move all children, and steps the current one, behind a turn where the
direction changes. -/
def step (op : Op Bytes) (it : MergingIterator δ) : Checked (MergingIterator δ) :=
  match op with
  | .seek _ | .seekToFirst => do
    let it ← it.stepAll child op
    .ok { it.findSmallest child comparator with direction := .forward }
  | .seekToLast => do
    let it ← it.stepAll child op
    .ok { it.findLargest child comparator with direction := .reverse }
  | .next => do
    let it ← it.turn child comparator .forward
    let it ← it.stepCurrent child op
    .ok (it.findSmallest child comparator)
  | .prev => do
    let it ← it.turn child comparator .reverse
    let it ← it.stepCurrent child op
    .ok (it.findLargest child comparator)

/-- `MergingIterator` as an iterator. -/
def iterator : DbIterator (MergingIterator δ) where
  valid := valid
  key := key child
  value := value child
  step := step child comparator
  status := status child

@[simp] theorem iterator_step (op : Op Bytes) (it : MergingIterator δ) :
    (iterator child comparator).step op it = it.step child comparator op := rfl

/-! ## The children -/

/-- What a child walks, and where it stands. -/
structure Source (δ : Type) where
  entries : List (Bytes × Bytes)
  At : δ → ℕ → Prop

variable {child} {comparator} {sources : List (Source δ)} {children : List δ}
  {Q Q' : ℕ → Source δ → δ → Prop}

/-- What holds of every child. -/
def Each (sources : List (Source δ)) (children : List δ) (Q : ℕ → Source δ → δ → Prop) : Prop :=
  children.length = sources.length ∧
    ∀ i s c, sources[i]? = some s → children[i]? = some c → Q i s c

theorem Each.imp (h : Each sources children Q)
    (hQ : ∀ i s c, sources[i]? = some s → Q i s c → Q' i s c) : Each sources children Q' :=
  ⟨h.1, fun i s c hs hc => hQ i s c hs (h.2 i s c hs hc)⟩

theorem Each.exists_child (h : Each sources children Q) {i : ℕ} {s : Source δ}
    (hs : sources[i]? = some s) : ∃ c, children[i]? = some c ∧ Q i s c := by
  obtain ⟨hi, -⟩ := List.getElem?_eq_some_iff.1 hs
  have hget := List.getElem?_eq_getElem (h.1.symm ▸ hi)
  exact ⟨_, hget, h.2 i s _ hs hget⟩

theorem Each.exists_source (h : Each sources children Q) {i : ℕ} {c : δ}
    (hc : children[i]? = some c) : ∃ s, sources[i]? = some s ∧ Q i s c := by
  obtain ⟨hi, -⟩ := List.getElem?_eq_some_iff.1 hc
  have hget := List.getElem?_eq_getElem (h.1 ▸ hi)
  exact ⟨_, hget, h.2 i _ c hget hc⟩

theorem Each.set (h : Each sources children Q) {i : ℕ} {s : Source δ} {c : δ}
    (hs : sources[i]? = some s) (hc : Q' i s c)
    (hothers : ∀ j s c, j ≠ i → sources[j]? = some s → Q j s c → Q' j s c) :
    Each sources (children.set i c) Q' := by
  refine ⟨by rw [List.length_set, h.1], fun j s' c' hs' hc' => ?_⟩
  rcases eq_or_ne i j with rfl | hne
  · obtain ⟨d, hd, -⟩ := h.exists_child hs
    obtain ⟨hi, -⟩ := List.getElem?_eq_some_iff.1 hd
    rw [List.getElem?_set_self hi, Option.some.injEq] at hc'
    rw [hs, Option.some.injEq] at hs'
    exact hs' ▸ hc' ▸ hc
  · rw [List.getElem?_set_ne hne] at hc'
    exact hothers j s' c' hne.symm hs' (h.2 j s' c' hs' hc')

theorem Each.cons {s : Source δ} {c : δ} {Q : Source δ → δ → Prop} (hc : Q s c)
    (h : Each sources children fun _ => Q) : Each (s :: sources) (c :: children) fun _ => Q := by
  refine ⟨congrArg Nat.succ h.1, fun i s' c' hs' hc' => ?_⟩
  cases i with
  | zero =>
    obtain rfl : s = s' := Option.some.inj hs'
    obtain rfl : c = c' := Option.some.inj hc'
    exact hc
  | succ i => exact h.2 i s' c' hs' hc'

/-- A loop over the children does what it does with each of them. -/
theorem eachChild_spec {skip : Option ℕ} {f : δ → Checked δ} :
    ∀ {children : List δ} {sources : List (Source δ)} {Q Q' : ℕ → Source δ → δ → Prop} {k : ℕ},
      Each sources children Q →
      (∀ i s c, sources[i]? = some s → Q i s c →
        ∃ c', (if some (k + i) = skip then .ok c else f c) = .ok c' ∧ Q' i s c') →
      ∃ children', eachChild skip f k children = .ok children' ∧ Each sources children' Q' := by
  intro children
  induction children with
  | nil =>
    intro sources Q Q' k h _
    exact ⟨[], rfl, h.1, fun i s c _ hc => by cases hc⟩
  | cons c children ih =>
    intro sources Q Q' k h hf
    cases sources with
    | nil => exact absurd h.1 (Nat.succ_ne_zero _)
    | cons s sources =>
      obtain ⟨c', hc', hQ⟩ := hf 0 s c rfl (h.2 0 s c rfl rfl)
      have hrest : Each sources children fun i => Q (i + 1) :=
        ⟨Nat.succ.inj h.1, fun i s c => h.2 (i + 1) s c⟩
      obtain ⟨children', hrun, hchildren'⟩ := ih (k := k + 1) hrest fun i s c hs hQ => by
        have := hf (i + 1) s c hs hQ
        rwa [← Nat.add_assoc, Nat.add_right_comm] at this
      refine ⟨c' :: children', ?_, congrArg Nat.succ hchildren'.1, ?_⟩
      · rw [Nat.add_zero] at hc'
        rw [eachChild, hc', ok_bind, hrun]
        rfl
      · intro i s' d hs' hd
        cases i with
        | zero =>
          cases hs'
          cases hd
          exact hQ
        | succ i => exact hchildren'.2 i s' d hs' hd

/-- What a search found among these children. -/
def Best (child : DbIterator δ) (r : Bytes → Bytes → Ordering) (children : List (δ × ℕ)) :
    Option (δ × ℕ) → Prop
  | none => ∀ c ∈ children, child.valid c.1 = false
  | some b => b ∈ children ∧ child.valid b.1 = true ∧
      ∀ c ∈ children, child.valid c.1 = true → (r (child.key b.1) (child.key c.1)).isLE

/-- **The search** finds the valid child whose key comes first. -/
theorem findChild_spec (child : DbIterator δ) (r : Bytes → Bytes → Ordering) [Std.TransCmp r]
    (better : Bytes → Bytes → Bool) (hbetter : ∀ a b, better a b = true ↔ r a b = .lt)
    (children : List (δ × ℕ)) : Best child r children (findChild child better children) := by
  induction children using List.reverseRecOn with
  | nil => exact nofun
  | append_singleton children c ih =>
    rw [findChild, List.foldl_append, List.foldl_cons, List.foldl_nil]
    change Best child r _ (if child.valid c.1 = true then
      match findChild child better children with
      | none => some c
      | some b => if better (child.key c.1) (child.key b.1) = true then some c
          else findChild child better children
      else findChild child better children)
    cases hvalid : child.valid c.1 with
    | false =>
      rw [if_neg Bool.false_ne_true]
      cases hfind : findChild child better children with
      | none =>
        rw [hfind] at ih
        intro d hd
        rcases List.mem_append.1 hd with hd | hd
        · exact ih d hd
        · rwa [List.mem_singleton.1 hd]
      | some b =>
        rw [hfind] at ih
        refine ⟨List.mem_append_left _ ih.1, ih.2.1, fun d hd hd' => ?_⟩
        rcases List.mem_append.1 hd with hd | hd
        · exact ih.2.2 d hd hd'
        · rw [List.mem_singleton.1 hd, hvalid] at hd'
          cases hd'
    | true =>
      rw [if_pos rfl]
      have hself : (r (child.key c.1) (child.key c.1)).isLE :=
        Ordering.isLE_of_eq_eq Std.ReflCmp.compare_self
      cases hfind : findChild child better children with
      | none =>
        rw [hfind] at ih
        refine ⟨List.mem_append_right _ List.mem_cons_self, hvalid, fun d hd hd' => ?_⟩
        rcases List.mem_append.1 hd with hd | hd
        · rw [ih d hd] at hd'
          cases hd'
        · rwa [List.mem_singleton.1 hd]
      | some b =>
        rw [hfind] at ih
        simp only
        split
        · rename_i hlt
          refine ⟨List.mem_append_right _ List.mem_cons_self, hvalid, fun d hd hd' => ?_⟩
          rcases List.mem_append.1 hd with hd | hd
          · exact Std.TransCmp.isLE_trans (Ordering.isLE_of_eq_lt ((hbetter _ _).1 hlt))
              (ih.2.2 d hd hd')
          · rwa [List.mem_singleton.1 hd]
        · rename_i hnot
          refine ⟨List.mem_append_left _ ih.1, ih.2.1, fun d hd hd' => ?_⟩
          rcases List.mem_append.1 hd with hd | hd
          · exact ih.2.2 d hd hd'
          · rw [List.mem_singleton.1 hd]
            refine Std.OrientedCmp.isLE_of_isGE ?_
            rw [hbetter] at hnot
            revert hnot
            cases r (child.key c.1) (child.key b.1) <;> simp

/-! ## Where they stand -/

/-- Where a child stands that has the entries before a line behind it. -/
def position (direction : Direction) (before : Bytes → Bool) (l : List (Bytes × Bytes)) : ℕ :=
  match direction with
  | .forward => cut before l
  | .reverse => if cut before l = 0 then l.length else cut before l - 1

/-- The line at a key: the key itself comes next, also on the way back. -/
def line (cmp : Bytes → Bytes → Ordering) : Direction → Bytes → Bytes → Bool
  | .forward => below cmp
  | .reverse => upTo cmp

/-- All children stand at a line. -/
def Lined (sources : List (Source δ)) (direction : Direction) (before : Bytes → Bool)
    (children : List δ) : Prop :=
  Each sources children fun _ s c => s.At c (position direction before s.entries)

/-- All children stand somewhere. -/
def Somewhere (sources : List (Source δ)) (children : List δ) : Prop :=
  Each sources children fun _ s c => ∃ i, s.At c i

/-- Where the iterator stands in the merged list. -/
def At (cmp : Bytes → Bytes → Ordering) (sources : List (Source δ))
    (entries : List (Bytes × Bytes)) (it : MergingIterator δ) (n : ℕ) : Prop :=
  (∃ (hn : n < entries.length) (i : ℕ) (s : Source δ), it.current = some i ∧
      sources[i]? = some s ∧ entries[n] ∈ s.entries ∧
      Lined sources it.direction (line cmp it.direction entries[n].1) it.children) ∨
    it.current = none ∧ n = entries.length ∧ Somewhere sources it.children

/-- The children walk their lists, and these are merged. -/
structure Children (child : DbIterator δ) (cmp : Bytes → Bytes → Ordering)
    (sources : List (Source δ)) (entries : List (Bytes × Bytes)) : Prop where
  merges : Merges cmp (sources.map Source.entries) entries
  walks : ∀ s ∈ sources, child.Walks cmp s.entries s.At

section Walk

variable {cmp : Bytes → Bytes → Ordering} {entries : List (Bytes × Bytes)}
  {it : MergingIterator δ} {before : Bytes → Bool} {n i : ℕ} {s : Source δ} {c : δ}

theorem Children.mem_lists (hs : sources[i]? = some s) :
    s.entries ∈ sources.map Source.entries := List.mem_map_of_mem (List.mem_of_getElem? hs)

theorem Children.walks_get (h : Children child cmp sources entries) (hs : sources[i]? = some s) :
    child.Walks cmp s.entries s.At := h.walks s (List.mem_of_getElem? hs)

theorem Children.sorted (h : Children child cmp sources entries) (hs : sources[i]? = some s) :
    Sorted cmp s.entries := h.merges.each _ (mem_lists hs)

theorem Lined.somewhere {direction : Direction} (h : Lined sources direction before children) :
    Somewhere sources children := h.imp fun _ _ _ _ hc => ⟨_, hc⟩

/-- An entry of a list is next on the way to it, in both directions. -/
theorem position_line [Std.TransCmp cmp] {l : List (Bytes × Bytes)} (hl : Sorted cmp l) {j : ℕ}
    (hj : j < l.length) (direction : Direction) :
    position direction (line cmp direction l[j].1) l = j := by
  cases direction with
  | forward => exact hl.cut_below_of_get hj
  | reverse =>
    rw [position, line, hl.cut_upTo_of_get hj, if_neg (Nat.succ_ne_zero j), Nat.add_sub_cancel]

/-- The child of the current entry stands at it. -/
theorem Children.at_current [Std.TransCmp cmp] (h : Children child cmp sources entries)
    (hs : sources[i]? = some s) {direction : Direction} {e : Bytes × Bytes} (he : e ∈ s.entries)
    (hat : s.At c (position direction (line cmp direction e.1) s.entries)) :
    ∃ (j : ℕ) (hj : j < s.entries.length), s.entries[j] = e ∧ s.At c j := by
  obtain ⟨j, hj, rfl⟩ := List.mem_iff_getElem.1 he
  rw [position_line (h.sorted hs) hj] at hat
  exact ⟨j, hj, rfl, hat⟩

/-- A list without the key has the same place for both lines. -/
theorem position_of_ne (direction : Direction) {l : List (Bytes × Bytes)} {key : Bytes}
    (h : ∀ e ∈ l, cmp e.1 key ≠ .eq) :
    position direction (upTo cmp key) l = position direction (below cmp key) l := by
  simp only [position, cut_upTo_of_ne h]

theorem mem_zipIdx_iff {cs : List δ} : (c, i) ∈ cs.zipIdx ↔ cs[i]? = some c :=
  List.mem_zipIdx_iff_getElem?

variable [Std.TransCmp comparator.compare]

/-- **Forward:** when all children stand at a line, `FindSmallest` leads to the first entry
behind it. -/
theorem findSmallest_spec (it : MergingIterator δ)
    (h : Children child comparator.compare sources entries)
    (hcut : IsCut comparator.compare before)
    (hlined : Lined sources .forward before it.children) :
    At comparator.compare sources entries
      { it.findSmallest child comparator with direction := .forward } (cut before entries) := by
  have hbest := findChild_spec child comparator.compare
    (fun a b => comparator.compare a b = .lt) (fun a b => decide_eq_true_iff)
    it.children.zipIdx
  cases hfind : findChild child (fun a b => comparator.compare a b = .lt) it.children.zipIdx with
  | none =>
    rw [hfind] at hbest
    refine Or.inr ⟨by rw [findSmallest, hfind]; rfl, h.merges.cut_eq_length fun l hl => ?_,
      hlined.somewhere⟩
    obtain ⟨s, hs, rfl⟩ := List.mem_map.1 hl
    obtain ⟨i, hi⟩ := List.mem_iff_getElem?.1 hs
    obtain ⟨c, hc, hat⟩ := hlined.exists_child hi
    refine le_antisymm (cut_le _ _) (not_lt.1 fun hlt => ?_)
    have hinvalid := hbest (c, i) (mem_zipIdx_iff.2 hc)
    rw [((h.walks s hs).refines.valid_iff hat).2 hlt] at hinvalid
    cases hinvalid
  | some b =>
    rw [hfind] at hbest
    obtain ⟨hmem, hvalid, hleast⟩ := hbest
    have hb := mem_zipIdx_iff.1 hmem
    obtain ⟨s, hs, hat⟩ := hlined.exists_source hb
    have hwalks := h.walks_get hs
    have hlt := (hwalks.refines.valid_iff hat).1 hvalid
    simp only [position] at hat hlt
    have hkey := congrArg Prod.fst (hwalks.refines.shows hat hlt)
    simp only at hkey
    have hin : s.entries[cut before s.entries] ∈ entries :=
      h.merges.mem_iff.2 ⟨_, Children.mem_lists hs, List.getElem_mem hlt⟩
    have hfirst := h.merges.first hin (not_before_cut hlt) fun l hl (hi : cut before l < _) => by
      obtain ⟨s', hs', rfl⟩ := List.mem_map.1 hl
      obtain ⟨i', hi'⟩ := List.mem_iff_getElem?.1 hs'
      obtain ⟨c, hc, hat'⟩ := hlined.exists_child hi'
      have hwalks' := h.walks s' hs'
      have hkey' := congrArg Prod.fst (hwalks'.refines.shows hat' hi)
      simp only at hkey'
      have hle := hleast (c, i') (mem_zipIdx_iff.2 hc) ((hwalks'.refines.valid_iff hat').2 hi)
      rw [hkey] at hle
      exact hkey' ▸ hle
    obtain ⟨hn, hget⟩ := List.getElem?_eq_some_iff.1 hfirst
    refine Or.inl ⟨hn, b.2, s, by rw [findSmallest, hfind]; rfl, hs, ?_, ?_⟩
    · rw [hget]
      exact List.getElem_mem hlt
    · refine hlined.imp fun j s' c hs' hc => ?_
      show s'.At c (cut (below comparator.compare entries[cut before entries].1) s'.entries)
      rw [h.merges.cut_below_first hcut hn (Children.mem_lists hs')]
      exact hc

/-- **Backward:** when all children stand before a line, `FindLargest` leads to the last
entry before it. -/
theorem findLargest_spec (it : MergingIterator δ)
    (h : Children child comparator.compare sources entries)
    (hcut : IsCut comparator.compare before)
    (hlined : Lined sources .reverse before it.children) :
    At comparator.compare sources entries
      { it.findLargest child comparator with direction := .reverse }
      (if cut before entries = 0 then entries.length else cut before entries - 1) := by
  have hswap := transCmp_swap comparator.compare
  have hbest := findChild_spec child (fun a b => comparator.compare b a)
    (fun a b => comparator.compare a b = .gt)
    (fun a b => decide_eq_true_iff.trans Std.OrientedCmp.gt_iff_lt) it.children.zipIdx.reverse
  cases hfind : findChild child (fun a b => comparator.compare a b = .gt)
      it.children.zipIdx.reverse with
  | none =>
    rw [hfind] at hbest
    have hzero : cut before entries = 0 := h.merges.cut_eq_zero hcut fun l hl => by
      obtain ⟨s, hs, rfl⟩ := List.mem_map.1 hl
      obtain ⟨i, hi⟩ := List.mem_iff_getElem?.1 hs
      obtain ⟨c, hc, hat⟩ := hlined.exists_child hi
      by_contra hne
      simp only [position, if_neg hne] at hat
      have hinvalid := hbest (c, i) (List.mem_reverse.2 (mem_zipIdx_iff.2 hc))
      have hle := cut_le before s.entries
      rw [((h.walks s hs).refines.valid_iff hat).2 (by omega)] at hinvalid
      cases hinvalid
    rw [if_pos hzero]
    exact Or.inr ⟨by rw [findLargest, hfind]; rfl, rfl, hlined.somewhere⟩
  | some b =>
    rw [hfind] at hbest
    obtain ⟨hmem, hvalid, hgreatest⟩ := hbest
    have hb := mem_zipIdx_iff.1 (List.mem_reverse.1 hmem)
    obtain ⟨s, hs, hat⟩ := hlined.exists_source hb
    have hwalks := h.walks_get hs
    have hlt := (hwalks.refines.valid_iff hat).1 hvalid
    have hpos : 0 < cut before s.entries := Nat.pos_of_ne_zero fun hzero => by
      simp only [position, if_pos hzero] at hlt
      exact lt_irrefl _ hlt
    simp only [position, if_neg hpos.ne'] at hat hlt
    have hkey := congrArg Prod.fst (hwalks.refines.shows hat hlt)
    simp only at hkey
    have hin : s.entries[cut before s.entries - 1] ∈ entries :=
      h.merges.mem_iff.2 ⟨_, Children.mem_lists hs, List.getElem_mem hlt⟩
    obtain ⟨hcutpos, hlast⟩ := h.merges.last hcut hin (before_of_lt_cut (by omega))
      fun l hl hpos' hi => by
        obtain ⟨s', hs', rfl⟩ := List.mem_map.1 hl
        obtain ⟨i', hi'⟩ := List.mem_iff_getElem?.1 hs'
        obtain ⟨c, hc, hat'⟩ := hlined.exists_child hi'
        simp only [position, if_neg hpos'.ne'] at hat'
        have hwalks' := h.walks s' hs'
        have hkey' := congrArg Prod.fst (hwalks'.refines.shows hat' hi)
        simp only at hkey'
        have hle := hgreatest (c, i') (List.mem_reverse.2 (mem_zipIdx_iff.2 hc))
          ((hwalks'.refines.valid_iff hat').2 hi)
        rw [hkey] at hle
        exact hkey' ▸ hle
    obtain ⟨hn, hget⟩ := List.getElem?_eq_some_iff.1 hlast
    rw [if_neg hcutpos.ne']
    refine Or.inl ⟨hn, b.2, s, by rw [findLargest, hfind]; rfl, hs, ?_, ?_⟩
    · rw [hget]
      exact List.getElem_mem hlt
    · refine hlined.imp fun j s' c hs' hc => ?_
      have heq := h.merges.cut_upTo_last hcut hcutpos hn (Children.mem_lists hs')
      simp only [line, position, heq] at hc ⊢
      exact hc

/-! ## The operations -/

omit [Std.TransCmp comparator.compare] in
/-- An operation of all children. -/
theorem stepAll_spec (h : Children child comparator.compare sources entries)
    (hsome : Somewhere sources it.children) (op : Op Bytes) (before : Bytes → Bool)
    (direction : Direction)
    (hop : ∀ (l : List (Bytes × Bytes)) (i : ℕ), Allowed l op i ∧
      move comparator.compare l op i = position direction before l) :
    ∃ children, it.stepAll child op = .ok { it with children } ∧
      Lined sources direction before children := by
  have heach : ∃ children, eachChild none (child.step op) 0 it.children = .ok children ∧
      Lined sources direction before children :=
    eachChild_spec hsome fun i s c hs hat => by
      obtain ⟨j, hat⟩ := hat
      obtain ⟨hallowed, hmove⟩ := hop s.entries j
      obtain ⟨c', hc', hat'⟩ := (h.walks_get hs).refines.step hat hallowed
      exact ⟨c', by rw [if_neg nofun, hc'], hmove ▸ hat'⟩
  obtain ⟨children, hrun, hlined⟩ := heach
  exact ⟨children, by rw [stepAll, hrun]; rfl, hlined⟩

/-- The key of the iterator is the one of the current entry. -/
theorem key_at (h : Children child comparator.compare sources entries) (hs : sources[i]? = some s)
    (hcurrent : it.current = some i) {e : Bytes × Bytes} (he : e ∈ s.entries)
    (hlined : Lined sources it.direction (line comparator.compare it.direction e.1) it.children) :
    ∃ c, it.children[i]? = some c ∧ it.key child = e.1 ∧ it.value child = e.2 := by
  obtain ⟨c, hc, hat⟩ := hlined.exists_child hs
  obtain ⟨j, hj, rfl, hat'⟩ := h.at_current hs he hat
  have hshows := (h.walks_get hs).refines.shows hat' hj
  have hchild : it.currentChild = some c := by
    rw [currentChild, hcurrent, Option.bind_some, hc]
  refine ⟨c, hc, ?_, ?_⟩
  · rw [key, hchild, ← hshows]
    rfl
  · rw [value, hchild, ← hshows]
    rfl

/-- A child that turns forward stands at the line of the current key. -/
theorem turnForward_spec (h : Children child comparator.compare sources entries)
    (hs : sources[i]? = some s) {key : Bytes} (hne : ∀ e ∈ s.entries, comparator.compare e.1 key ≠ .eq)
    (hat : ∃ j, s.At c j) :
    ∃ c', turnForward child comparator key c = .ok c' ∧
      s.At c' (position .forward (below comparator.compare key) s.entries) := by
  obtain ⟨j, hat⟩ := hat
  have hwalks := h.walks_get hs
  obtain ⟨c', hc', hat'⟩ := hwalks.refines.seek hat key
  rw [lowerBound_eq_cut] at hat'
  refine ⟨c', ?_, hat'⟩
  rw [turnForward, hc', ok_bind, if_neg]
  intro hturn
  rw [Bool.and_eq_true, decide_eq_true_eq] at hturn
  have hlt := (hwalks.refines.valid_iff hat').1 hturn.1
  have hkey := congrArg Prod.fst (hwalks.refines.shows hat' hlt)
  simp only at hkey
  rw [hkey] at hturn
  exact hne _ (List.getElem_mem hlt) (Std.OrientedCmp.eq_symm hturn.2)

omit [Std.TransCmp comparator.compare] in
/-- And one that turns backward. -/
theorem turnBackward_spec (h : Children child comparator.compare sources entries)
    (hs : sources[i]? = some s) (key : Bytes) (hat : ∃ j, s.At c j) :
    ∃ c', turnBackward child key c = .ok c' ∧
      s.At c' (position .reverse (below comparator.compare key) s.entries) := by
  obtain ⟨j, hat⟩ := hat
  have hwalks := h.walks_get hs
  obtain ⟨c₁, hc₁, hat₁⟩ := hwalks.refines.seek hat key
  have hle := cut_le (below comparator.compare key) s.entries
  rw [lowerBound_eq_cut] at hat₁
  rw [turnBackward, hc₁, ok_bind]
  by_cases hlt : cut (below comparator.compare key) s.entries < s.entries.length
  · rw [if_pos ((hwalks.refines.valid_iff hat₁).2 hlt)]
    have hallowed : Allowed s.entries (.prev : Op Bytes) _ := hlt
    exact hwalks.refines.step hat₁ hallowed
  · rw [if_neg (mt (hwalks.refines.valid_iff hat₁).1 hlt)]
    have hallowed : Allowed s.entries (.seekToLast : Op Bytes)
      (cut (below comparator.compare key) s.entries) := trivial
    obtain ⟨c₂, hc₂, hat₂⟩ := hwalks.refines.step hat₁ hallowed
    refine ⟨c₂, hc₂, ?_⟩
    have heq : move comparator.compare s.entries .seekToLast
        (cut (below comparator.compare key) s.entries)
        = position .reverse (below comparator.compare key) s.entries := by
      simp only [move, position]
      split <;> omega
    rwa [heq] at hat₂

/-- **The turn:** all children stand at the line of the current entry in the new direction. -/
theorem turn_spec (h : Children child comparator.compare sources entries) {e : Bytes × Bytes}
    (hs : sources[i]? = some s) (hcurrent : it.current = some i) (he : e ∈ s.entries)
    (hlined : Lined sources it.direction (line comparator.compare it.direction e.1) it.children)
    (direction : Direction) :
    ∃ children, it.turn child comparator direction = .ok { it with children, direction } ∧
      Lined sources direction (line comparator.compare direction e.1) children := by
  by_cases hsame : it.direction = direction
  · refine ⟨it.children, by rw [turn, if_pos hsame, ← hsame], ?_⟩
    rwa [hsame] at hlined
  · obtain ⟨c, -, hkey, -⟩ := key_at h hs hcurrent he hlined
    have hturn : ∀ j s' c, sources[j]? = some s' →
        s'.At c (position it.direction (line comparator.compare it.direction e.1) s'.entries) →
        ∃ c', (if some (0 + j) = it.current then .ok c
            else turnChild child comparator (it.key child) direction c) = .ok c' ∧
          s'.At c' (position direction (line comparator.compare direction e.1) s'.entries) := by
      intro j s' c hs' hat
      rw [Nat.zero_add, hcurrent, hkey]
      by_cases hj : j = i
      · subst hj
        cases hs.symm.trans hs'
        obtain ⟨k, hk, rfl, hat'⟩ := h.at_current hs he hat
        exact ⟨c, if_pos rfl, by rwa [position_line (h.sorted hs) hk]⟩
      · rw [if_neg (fun heq => hj (Option.some.inj heq))]
        have hne : ∀ e' ∈ s'.entries, comparator.compare e'.1 e.1 ≠ .eq := fun e' he' =>
          h.merges.apart (by rw [List.getElem?_map, hs']; rfl) (by rw [List.getElem?_map, hs]; rfl)
            hj he' he
        cases direction with
        | forward => exact turnForward_spec h hs' hne ⟨_, hat⟩
        | reverse =>
          rw [line, position_of_ne _ hne]
          exact turnBackward_spec h hs' e.1 ⟨_, hat⟩
    obtain ⟨children, hrun, hlined'⟩ := eachChild_spec hlined hturn
    exact ⟨children, by rw [turn, if_neg hsame, hrun]; rfl, hlined'⟩

/-- A step of the child of the current entry takes the line over the entry. -/
theorem stepCurrent_spec (it : MergingIterator δ)
    (h : Children child comparator.compare sources entries)
    {e : Bytes × Bytes} (hs : sources[i]? = some s) (hcurrent : it.current = some i)
    (he : e ∈ s.entries) {direction : Direction}
    (hlined : Lined sources direction (line comparator.compare direction e.1) it.children)
    (op : Op Bytes) (after : Bytes → Bool)
    (hop : ∀ (j : ℕ) (hj : j < s.entries.length), s.entries[j] = e → Allowed s.entries op j ∧
      move comparator.compare s.entries op j = position direction after s.entries)
    (hothers : ∀ l, (∀ e' ∈ l, comparator.compare e'.1 e.1 ≠ .eq) →
      position direction (line comparator.compare direction e.1) l = position direction after l) :
    ∃ children, it.stepCurrent child op = .ok { it with children } ∧
      Lined sources direction after children := by
  obtain ⟨c, hc, hat⟩ := hlined.exists_child hs
  obtain ⟨j, hj, hget, hat'⟩ := h.at_current hs he hat
  obtain ⟨hallowed, hmove⟩ := hop j hj hget
  obtain ⟨c', hc', hat''⟩ := (h.walks_get hs).refines.step hat' hallowed
  rw [hmove] at hat''
  refine ⟨it.children.set i c', ?_, hlined.set hs hat'' fun k s' c hk hs' hat => ?_⟩
  · simp only [stepCurrent, hcurrent, hc, hc', ok_bind]
  · have hne : ∀ e' ∈ s'.entries, comparator.compare e'.1 e.1 ≠ .eq := fun e' he' =>
      h.merges.apart (by rw [List.getElem?_map, hs']; rfl) (by rw [List.getElem?_map, hs]; rfl)
        hk he' he
    rwa [← hothers _ hne]

theorem At.somewhere {cmp : Bytes → Bytes → Ordering} (h : At cmp sources entries it n) :
    Somewhere sources it.children := by
  rcases h with ⟨_, _, _, _, _, _, hlined⟩ | ⟨_, _, hsome⟩
  · exact hlined.somewhere
  · exact hsome

theorem At.valid_iff {cmp : Bytes → Bytes → Ordering} (h : At cmp sources entries it n) :
    it.valid = true ↔ n < entries.length := by
  rcases h with ⟨hn, i, s, hcurrent, -⟩ | ⟨hcurrent, rfl, -⟩
  · rw [valid, hcurrent]
    exact iff_of_true rfl hn
  · rw [valid, hcurrent]
    exact iff_of_false Bool.false_ne_true (lt_irrefl _)

omit [Std.TransCmp comparator.compare] in
theorem status_of_somewhere (h : Children child comparator.compare sources entries)
    (hsome : Somewhere sources it.children) : it.status child = .ok := by
  have hnone : (it.children.map child.status).find? (fun s => s ≠ .ok) = none := by
    rw [List.find?_eq_none]
    intro status hstatus
    obtain ⟨c, hc, rfl⟩ := List.mem_map.1 hstatus
    obtain ⟨i, hi⟩ := List.mem_iff_getElem?.1 hc
    obtain ⟨s, hs, j, hat⟩ := hsome.exists_source hi
    simp [(h.walks_get hs).status hat]
  rw [status, hnone]
  rfl

/-- A step forward. -/
theorem next_spec (h : Children child comparator.compare sources entries)
    (hat : At comparator.compare sources entries it n) (hn : n < entries.length) :
    ∃ it', it.step child comparator .next = .ok it' ∧
      At comparator.compare sources entries it' (n + 1) := by
  rcases hat with ⟨_, i, s, hcurrent, hs, he, hlined⟩ | ⟨_, rfl, _⟩
  · obtain ⟨children₁, hturn, hlined₁⟩ := turn_spec h hs hcurrent he hlined .forward
    obtain ⟨children₂, hcur, hlined₂⟩ := stepCurrent_spec
      { it with children := children₁, direction := .forward } h hs hcurrent he hlined₁ .next
      (upTo comparator.compare entries[n].1)
      (fun j hj hget => ⟨hj, by
        rw [← hget]
        exact ((h.sorted hs).cut_upTo_of_get hj).symm⟩)
      fun l hne => (position_of_ne .forward hne).symm
    have hat' := findSmallest_spec
      { it with children := children₂, direction := .forward } h (isCut_upTo _) hlined₂
    rw [h.merges.sorted.cut_upTo_of_get hn] at hat'
    refine ⟨_, ?_, hat'⟩
    rw [step, hturn, ok_bind, hcur, ok_bind]
    rfl
  · exact absurd hn (lt_irrefl _)

/-- A step backward. -/
theorem prev_spec (h : Children child comparator.compare sources entries)
    (hat : At comparator.compare sources entries it n) (hn : n < entries.length) :
    ∃ it', it.step child comparator .prev = .ok it' ∧
      At comparator.compare sources entries it' (if n = 0 then entries.length else n - 1) := by
  rcases hat with ⟨_, i, s, hcurrent, hs, he, hlined⟩ | ⟨_, rfl, _⟩
  · obtain ⟨children₁, hturn, hlined₁⟩ := turn_spec h hs hcurrent he hlined .reverse
    obtain ⟨children₂, hcur, hlined₂⟩ := stepCurrent_spec
      { it with children := children₁, direction := .reverse } h hs hcurrent he hlined₁ .prev
      (below comparator.compare entries[n].1)
      (fun j hj hget => ⟨hj, by
        simp only [← hget, move, position, (h.sorted hs).cut_below_of_get hj]⟩)
      fun l hne => position_of_ne .reverse hne
    have hat' := findLargest_spec
      { it with children := children₂, direction := .reverse } h (isCut_below _) hlined₂
    rw [h.merges.sorted.cut_below_of_get hn] at hat'
    refine ⟨_, ?_, hat'⟩
    rw [step, hturn, ok_bind, hcur, ok_bind]
    rfl
  · exact absurd hn (lt_irrefl _)

/-- **A merging iterator is a cursor** on the merged list, also where it turns round. -/
theorem walks (h : Children child comparator.compare sources entries) :
    (iterator child comparator).Walks comparator.compare entries
      (At comparator.compare sources entries) where
  status hat := status_of_somewhere h hat.somewhere
  refines :=
    { valid_iff := fun hat => hat.valid_iff
      shows := fun {it n} hat hn => by
        rcases hat with ⟨_, i, s, hcurrent, hs, he, hlined⟩ | ⟨_, rfl, _⟩
        · obtain ⟨-, -, hkey, hvalue⟩ := key_at h hs hcurrent he hlined
          exact Prod.ext hkey hvalue
        · exact absurd hn (lt_irrefl _)
      step := fun {it n op} hat hallowed => by
        cases op with
        | seek target =>
          obtain ⟨children, hrun, hlined⟩ := stepAll_spec h hat.somewhere (.seek target)
            (below comparator.compare target) .forward
            fun l i => ⟨trivial, lowerBound_eq_cut ..⟩
          have hat' := findSmallest_spec { it with children } h (isCut_below _) hlined
          rw [← lowerBound_eq_cut] at hat'
          refine ⟨_, ?_, hat'⟩
          rw [iterator_step, step, hrun, ok_bind]
        | seekToFirst =>
          obtain ⟨children, hrun, hlined⟩ := stepAll_spec h hat.somewhere .seekToFirst
            (fun _ => false) .forward
            fun l i => ⟨trivial, (cut_false l).symm⟩
          have hat' := findSmallest_spec { it with children } h (isCut_const _ _) hlined
          rw [cut_false] at hat'
          refine ⟨_, ?_, hat'⟩
          rw [iterator_step, step, hrun, ok_bind]
        | seekToLast =>
          have hmove (l : List (Bytes × Bytes)) :
              l.length - 1 = if l.length = 0 then l.length else l.length - 1 := by
            split <;> omega
          obtain ⟨children, hrun, hlined⟩ := stepAll_spec h hat.somewhere .seekToLast
            (fun _ => true) .reverse
            fun l i => ⟨trivial, by
              simp only [position, cut_true]
              exact hmove l⟩
          have hat' := findLargest_spec { it with children } h (isCut_const _ _) hlined
          rw [cut_true, ← hmove] at hat'
          refine ⟨_, ?_, hat'⟩
          rw [iterator_step, step, hrun, ok_bind]
        | next => exact next_spec h hat hallowed
        | prev => exact prev_spec h hat hallowed }

end Walk

end MergingIterator

/-! ## `NewMergingIterator` -/

/-- What `NewMergingIterator` returns: an `EmptyIterator`, the only child, or a
`MergingIterator`. -/
inductive MergedIterator (δ : Type) where
  | empty
  | only (c : δ)
  | merging (it : MergingIterator δ)

/-- `NewMergingIterator`: an empty iterator for no child, the child itself for one, and a
merging iterator for more. -/
def newMergingIterator {δ : Type} : List δ → MergedIterator δ
  | [] => .empty
  | [c] => .only c
  | children => .merging { children }

namespace MergedIterator

variable {δ : Type} (child : DbIterator δ) (comparator : Comparator)

/-- The operations; an `EmptyIterator` ignores the seeks, and its steps are not called. -/
def step (op : Op Bytes) : MergedIterator δ → Checked (MergedIterator δ)
  | empty => .ok empty
  | only c => (child.step op c).map only
  | merging it => (it.step child comparator op).map merging

def valid : MergedIterator δ → Bool
  | empty => false
  | only c => child.valid c
  | merging it => it.valid

def key : MergedIterator δ → Bytes
  | empty => []
  | only c => child.key c
  | merging it => it.key child

def value : MergedIterator δ → Bytes
  | empty => []
  | only c => child.value c
  | merging it => it.value child

def status : MergedIterator δ → Status
  | empty => .ok
  | only c => child.status c
  | merging it => it.status child

/-- What `NewMergingIterator` returns, as an iterator. -/
def iterator : DbIterator (MergedIterator δ) where
  valid := valid child
  key := key child
  value := value child
  step := step child comparator
  status := status child

variable {child} {comparator} {sources : List (MergingIterator.Source δ)} {children : List δ}
  {entries : List (Bytes × Bytes)}

/-- Where it stands in the merged list. -/
def At (cmp : Bytes → Bytes → Ordering) (sources : List (MergingIterator.Source δ))
    (entries : List (Bytes × Bytes)) : MergedIterator δ → ℕ → Prop
  | empty, n => entries = [] ∧ n = 0
  | only c, n => ∃ s, sources = [s] ∧ entries = s.entries ∧ s.At c n
  | merging it, n => it.At cmp sources entries n

/-- **Whatever `NewMergingIterator` returns** is a cursor on the merged list. -/
theorem walks [Std.TransCmp comparator.compare]
    (h : MergingIterator.Children child comparator.compare sources entries) :
    (iterator child comparator).Walks comparator.compare entries
      (At comparator.compare sources entries) where
  status {it n} hat := by
    cases it with
    | empty => rfl
    | only c =>
      obtain ⟨s, rfl, rfl, hat⟩ := hat
      exact (h.walks s List.mem_cons_self).status hat
    | merging it => exact (MergingIterator.walks h).status hat
  refines :=
    { valid_iff := fun {it n} hat => by
        cases it with
        | empty =>
          obtain ⟨rfl, rfl⟩ := hat
          exact iff_of_false Bool.false_ne_true (lt_irrefl 0)
        | only c =>
          obtain ⟨s, rfl, rfl, hat⟩ := hat
          exact (h.walks s List.mem_cons_self).refines.valid_iff hat
        | merging it => exact (MergingIterator.walks h).refines.valid_iff hat
      shows := fun {it n} hat hn => by
        cases it with
        | empty =>
          obtain ⟨rfl, rfl⟩ := hat
          exact absurd hn (lt_irrefl 0)
        | only c =>
          obtain ⟨s, rfl, rfl, hat⟩ := hat
          exact (h.walks s List.mem_cons_self).refines.shows hat hn
        | merging it => exact (MergingIterator.walks h).refines.shows hat hn
      step := fun {it n op} hat hallowed => by
        cases it with
        | empty =>
          obtain ⟨rfl, rfl⟩ := hat
          refine ⟨empty, rfl, rfl, ?_⟩
          cases op with
          | next | prev => exact absurd hallowed (lt_irrefl 0)
          | _ => rfl
        | only c =>
          obtain ⟨s, rfl, rfl, hat⟩ := hat
          obtain ⟨c', hc', hat'⟩ := (h.walks s List.mem_cons_self).refines.step hat hallowed
          exact ⟨only c', congrArg (Except.map only) hc', s, rfl, rfl, hat'⟩
        | merging it =>
          obtain ⟨it', hit', hat'⟩ := (MergingIterator.walks h).refines.step hat hallowed
          exact ⟨merging it', congrArg (Except.map merging) hit', hat'⟩ }

/-- A new iterator stands nowhere. -/
theorem at_new [Std.TransCmp comparator.compare]
    (h : MergingIterator.Children child comparator.compare sources entries)
    (hnew : MergingIterator.Each sources children fun _ s c => s.At c s.entries.length) :
    At comparator.compare sources entries (newMergingIterator children) entries.length := by
  match children with
  | [] =>
    obtain rfl : sources = [] := List.eq_nil_of_length_eq_zero hnew.1.symm
    have hnil : entries = [] := h.merges.perm.eq_nil
    exact ⟨hnil, by rw [hnil]; rfl⟩
  | [c] =>
    obtain ⟨s, rfl⟩ := List.length_eq_one_iff.1 hnew.1.symm
    have heq : entries = s.entries := h.merges.eq
      ⟨h.sorted (i := 0) rfl, by simp, fun l hl => List.mem_singleton.1 hl ▸ h.sorted (i := 0) rfl⟩
    exact ⟨s, rfl, heq, heq ▸ hnew.2 0 s c rfl rfl⟩
  | _ :: _ :: _ => exact Or.inr ⟨rfl, rfl, hnew.imp fun _ _ _ _ hat => ⟨_, hat⟩⟩

/-- New children are sources that stand nowhere. -/
theorem exists_sources {child : ℕ → DbIterator δ} {cmp : Bytes → Bytes → Ordering}
    {lists : List (List (Bytes × Bytes))}
    (h : List.Forall₂ (DbIterator.Fresh child cmp) lists children) :
    ∃ sources : List (MergingIterator.Source δ), sources.map MergingIterator.Source.entries = lists ∧
      (MergingIterator.Each sources children fun _ s c => s.At c s.entries.length) ∧
      ∃ n, ∀ rounds, n ≤ rounds → ∀ s ∈ sources, (child rounds).Walks cmp s.entries s.At := by
  induction h with
  | nil => exact ⟨[], rfl, ⟨rfl, fun _ _ _ hs => by cases hs⟩, 0, fun _ _ _ hs => by cases hs⟩
  | cons hfresh _ ih =>
    obtain ⟨At, hat, n, hwalks⟩ := hfresh
    obtain ⟨sources, rfl, heach, n', hwalks'⟩ := ih
    refine ⟨⟨_, At⟩ :: sources, rfl, heach.cons hat, n + n', fun rounds hrounds s hs => ?_⟩
    rcases List.mem_cons.1 hs with rfl | hs
    · exact hwalks rounds (by omega)
    · exact hwalks' rounds (by omega) s hs

/-- **New children make a new iterator** on what their lists are when they are merged. -/
theorem fresh [Std.TransCmp comparator.compare] {child : ℕ → DbIterator δ}
    {lists : List (List (Bytes × Bytes))} (hmerges : Merges comparator.compare lists entries)
    (hchildren : List.Forall₂ (DbIterator.Fresh child comparator.compare) lists children) :
    DbIterator.Fresh (fun rounds => iterator (child rounds) comparator) comparator.compare entries
      (newMergingIterator children) := by
  obtain ⟨sources, rfl, heach, n, hwalks⟩ := exists_sources hchildren
  exact ⟨At comparator.compare sources entries, at_new ⟨hmerges, hwalks n le_rfl⟩ heach, n,
    fun rounds hrounds => walks ⟨hmerges, hwalks rounds hrounds⟩⟩

end MergedIterator

end PackedFilters.LevelDb
