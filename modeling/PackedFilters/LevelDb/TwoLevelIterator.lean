import PackedFilters.LevelDb.Lookup

/-!
# The two-level iterator

`table/two_level_iterator.cc`: an iterator over an index, and behind each of its entries an
iterator over a block.  It is used twice, for the blocks of a table and for the files of a
level, and knows of either only a function that opens an iterator for the value of an index
entry; so it is modelled over any two iterators and any such function.

The data iterator is replaced when the index moves to another entry, and loops skip what has
no entries in the direction of the step.  An iterator that has run off one end can stand
behind its index and in front of it, with a data iterator or without one; which of these it
is does not show, and all of them are the position behind the list (`Outside`).

* `TwoLevelIterator` — the iterator, over any two others;
* `TwoLevel` — what it asks of them: an index of some parts, and that each handle opens an
  iterator over its part;
* `InPart`, `Outside` — where it may stand, and what each of its steps does there;
* `skipForward_spec`, `skipBackward_spec` — the loops end, at the next entry there is;
* `TwoLevel.walks`, `TwoLevel.fresh` — it is a cursor on the blocks behind each other;
* `table_fresh`, `table_run` — and so `Table::NewIterator` is one on the entries of the
  table.
-/

namespace PackedFilters.LevelDb

open Cursor

/-- `TwoLevelIterator`: the index iterator, the data iterator if there is one, the handle it was
opened for, and the first error that was met. -/
structure TwoLevelIterator (ι δ : Type) where
  savedStatus : Status := .ok
  indexIter : ι
  dataIter : Option δ := none
  dataBlockHandle : Bytes := []

namespace TwoLevelIterator

variable {ι δ : Type} (index : DbIterator ι) (data : DbIterator δ)
  (blockFunction : Bytes → Checked δ)

/-- `SaveError`: the first error is kept. -/
def saveError (it : TwoLevelIterator ι δ) (s : Status) : TwoLevelIterator ι δ :=
  if it.savedStatus = .ok ∧ s ≠ .ok then { it with savedStatus := s } else it

/-- `SetDataIterator`: the data iterator is replaced, and the status of the old one saved. -/
def setDataIterator (it : TwoLevelIterator ι δ) (dataIter : Option δ) : TwoLevelIterator ι δ :=
  let it := match it.dataIter with
    | none => it
    | some d => it.saveError (data.status d)
  { it with dataIter }

/-- `InitDataBlock`: the data iterator becomes one of the block that the index is at, unless it
is that already; there is none where the index is at no entry. -/
def initDataBlock (it : TwoLevelIterator ι δ) : Checked (TwoLevelIterator ι δ) :=
  if !index.valid it.indexIter then .ok (it.setDataIterator data none)
  else
    let handle := index.value it.indexIter
    if it.dataIter.isSome && decide (handle = it.dataBlockHandle) then .ok it
    else do
      let iter ← blockFunction handle
      .ok ({ it with dataBlockHandle := handle }.setDataIterator data (some iter))

/-- An operation of `index_iter_`, and `InitDataBlock` behind it. -/
def moveIndex (op : Op Bytes) (it : TwoLevelIterator ι δ) : Checked (TwoLevelIterator ι δ) := do
  let indexIter ← index.step op it.indexIter
  initDataBlock index data blockFunction { it with indexIter }

/-- An operation of `data_iter_`, if there is one. -/
def moveData (op : Op Bytes) (it : TwoLevelIterator ι δ) : Checked (TwoLevelIterator ι δ) :=
  match it.dataIter with
  | none => .ok it
  | some d => do
    let d ← data.step op d
    .ok { it with dataIter := some d }

/-- `Valid`: there is a data iterator, and it is at an entry. -/
def valid (it : TwoLevelIterator ι δ) : Bool := it.dataIter.any data.valid

/-- The loop of `SkipEmptyDataBlocksForward` and `SkipEmptyDataBlocksBackward`. -/
def skipEmptyDataBlocks (indexOp dataOp : Op Bytes) :
    ℕ → TwoLevelIterator ι δ → Checked (TwoLevelIterator ι δ)
  | 0, _ => .error .loopUnfinished
  | rounds + 1, it =>
    if it.valid data then .ok it
    else if !index.valid it.indexIter then .ok (it.setDataIterator data none)
    else do
      let it ← moveIndex index data blockFunction indexOp it
      let it ← moveData data dataOp it
      skipEmptyDataBlocks indexOp dataOp rounds it

/-- `SkipEmptyDataBlocksForward`: on to the first entry of the next block that has one. -/
def skipEmptyDataBlocksForward : ℕ → TwoLevelIterator ι δ → Checked (TwoLevelIterator ι δ) :=
  skipEmptyDataBlocks index data blockFunction .next .seekToFirst

/-- `SkipEmptyDataBlocksBackward`: back to the last entry of the block before that has one. -/
def skipEmptyDataBlocksBackward : ℕ → TwoLevelIterator ι δ → Checked (TwoLevelIterator ι δ) :=
  skipEmptyDataBlocks index data blockFunction .prev .seekToLast

/-- The operations; the loops end after `rounds` rounds. -/
def step (rounds : ℕ) (op : Op Bytes) (it : TwoLevelIterator ι δ) :
    Checked (TwoLevelIterator ι δ) :=
  match op with
  | .seek _ | .seekToFirst => do
    let it ← moveIndex index data blockFunction op it
    let it ← moveData data op it
    skipEmptyDataBlocksForward index data blockFunction rounds it
  | .seekToLast => do
    let it ← moveIndex index data blockFunction op it
    let it ← moveData data op it
    skipEmptyDataBlocksBackward index data blockFunction rounds it
  | .next => do
    let it ← moveData data op it
    skipEmptyDataBlocksForward index data blockFunction rounds it
  | .prev => do
    let it ← moveData data op it
    skipEmptyDataBlocksBackward index data blockFunction rounds it

/-- `status`: that of the index, that of the data iterator, and the one that was saved, in this
order. -/
def status (it : TwoLevelIterator ι δ) : Status :=
  if index.status it.indexIter ≠ .ok then index.status it.indexIter
  else
    match it.dataIter with
    | none => it.savedStatus
    | some d => if data.status d ≠ .ok then data.status d else it.savedStatus

/-- `TwoLevelIterator` as an iterator. -/
def iterator (rounds : ℕ) : DbIterator (TwoLevelIterator ι δ) where
  valid := valid data
  key it := (it.dataIter.map data.key).getD []
  value it := (it.dataIter.map data.value).getD []
  step := step index data blockFunction rounds
  status := status index data

end TwoLevelIterator

/-! ## Where it may stand -/

/-- What a two-level iterator asks: an index of these parts, and that each of their handles
opens an iterator over the part. -/
structure TwoLevel {ι δ : Type} (index : DbIterator ι) (data : DbIterator δ)
    (blockFunction : Bytes → Checked δ) (cmp : Bytes → Bytes → Ordering)
    (parts : List (Part Bytes Bytes Bytes)) (IndexAt : ι → ℕ → Prop)
    (DataAt : Bytes → δ → ℕ → Prop) : Prop where
  indexed : Indexed cmp parts
  index : index.Walks cmp (indexOf parts) IndexAt
  data : ∀ p ∈ parts, data.Walks cmp p.entries (DataAt p.handle)
  opens : ∀ p ∈ parts, ∃ d, blockFunction p.handle = .ok d ∧ DataAt p.handle d p.entries.length

namespace TwoLevel

variable {ι δ : Type} {index : DbIterator ι} {data : DbIterator δ}
  {blockFunction : Bytes → Checked δ} {cmp : Bytes → Bytes → Ordering}
  {parts : List (Part Bytes Bytes Bytes)} {IndexAt : ι → ℕ → Prop} {DataAt : Bytes → δ → ℕ → Prop}
  {it : TwoLevelIterator ι δ} {p : Part Bytes Bytes Bytes} {i j : ℕ} {rounds : ℕ}

/-- The iterator is at position `j` of the part `i`, or behind its end. -/
structure InPart (parts : List (Part Bytes Bytes Bytes)) (IndexAt : ι → ℕ → Prop)
    (DataAt : Bytes → δ → ℕ → Prop) (i : ℕ) (p : Part Bytes Bytes Bytes) (j : ℕ)
    (it : TwoLevelIterator ι δ) : Prop where
  part : parts[i]? = some p
  index : IndexAt it.indexIter i
  data : ∃ d, it.dataIter = some d ∧ DataAt p.handle d j
  handle : it.dataBlockHandle = p.handle
  status : it.savedStatus = .ok

/-- The iterator is at no part. -/
structure Outside (parts : List (Part Bytes Bytes Bytes)) (IndexAt : ι → ℕ → Prop)
    (it : TwoLevelIterator ι δ) : Prop where
  index : ∃ i, IndexAt it.indexIter i ∧ parts.length ≤ i
  data : it.dataIter = none
  status : it.savedStatus = .ok

/-- Where the iterator stands in the parts behind each other. -/
def At (parts : List (Part Bytes Bytes Bytes)) (IndexAt : ι → ℕ → Prop)
    (DataAt : Bytes → δ → ℕ → Prop) (it : TwoLevelIterator ι δ) (n : ℕ) : Prop :=
  (∃ i p j, InPart parts IndexAt DataAt i p j it ∧ j < p.entries.length ∧ n = start parts i + j) ∨
    Outside parts IndexAt it ∧ n = (joined parts).length

/-- Its data iterator is one of a part, or there is none. -/
structure Clean (parts : List (Part Bytes Bytes Bytes)) (DataAt : Bytes → δ → ℕ → Prop)
    (it : TwoLevelIterator ι δ) : Prop where
  data : ∀ d, it.dataIter = some d → ∃ p ∈ parts, it.dataBlockHandle = p.handle ∧
    ∃ j, DataAt p.handle d j
  status : it.savedStatus = .ok

theorem InPart.mem (h : InPart parts IndexAt DataAt i p j it) : p ∈ parts :=
  List.mem_of_getElem? h.part

theorem InPart.lt (h : InPart parts IndexAt DataAt i p j it) : i < parts.length :=
  (List.getElem?_eq_some_iff.1 h.part).1

theorem InPart.clean (h : InPart parts IndexAt DataAt i p j it) : Clean parts DataAt it where
  data d hd := by
    obtain ⟨d', hd', hat⟩ := h.data
    cases hd'.symm.trans hd
    exact ⟨p, h.mem, h.handle, j, hat⟩
  status := h.status

theorem Outside.clean (h : Outside parts IndexAt it) : Clean parts DataAt it where
  data d hd := by
    rw [h.data] at hd
    cases hd
  status := h.status

theorem At.clean {n : ℕ} (h : At parts IndexAt DataAt it n) : Clean parts DataAt it := by
  rcases h with ⟨i, p, j, h, -⟩ | ⟨h, -⟩
  · exact h.clean
  · exact h.clean

theorem At.exists_index {n : ℕ} (h : At parts IndexAt DataAt it n) : ∃ i, IndexAt it.indexIter i := by
  rcases h with ⟨i, p, j, h, -⟩ | ⟨h, -⟩
  · exact ⟨i, h.index⟩
  · obtain ⟨i, hi, -⟩ := h.index
    exact ⟨i, hi⟩

theorem length_indexOf (parts : List (Part Bytes Bytes Bytes)) :
    (indexOf parts).length = parts.length := List.length_map _

/-- No error is saved when there is none. -/
theorem setDataIterator_eq (hstatus : ∀ d, it.dataIter = some d → data.status d = .ok)
    (dataIter : Option δ) : it.setDataIterator data dataIter = { it with dataIter } := by
  rw [TwoLevelIterator.setDataIterator]
  cases hd : it.dataIter with
  | none => rfl
  | some d =>
    simp only [TwoLevelIterator.saveError, hstatus d hd, ne_eq, not_true_eq_false, and_false,
      if_false]

section Steps

variable (h : TwoLevel index data blockFunction cmp parts IndexAt DataAt)
include h

theorem Clean.status_ok (hclean : Clean parts DataAt it) {d : δ} (hd : it.dataIter = some d) :
    data.status d = .ok := by
  obtain ⟨p, hp, -, j, hat⟩ := hclean.data d hd
  exact (h.data p hp).status hat

/-- `InitDataBlock` at an entry of the index opens its part. -/
theorem initDataBlock_part (hclean : Clean parts DataAt it) (hindex : IndexAt it.indexIter i)
    (hp : parts[i]? = some p) :
    ∃ it' j, it.initDataBlock index data blockFunction = .ok it' ∧
      InPart parts IndexAt DataAt i p j it' := by
  obtain ⟨hlt, rfl⟩ := List.getElem?_eq_some_iff.1 hp
  have hlt' : i < (indexOf parts).length := by rwa [length_indexOf]
  have hvalid := (h.index.refines.valid_iff hindex).2 hlt'
  have hvalue : index.value it.indexIter = parts[i].handle := by
    have := (Prod.ext_iff.1 (h.index.refines.shows hindex hlt')).2
    simpa only [indexOf, List.getElem_map] using this
  rw [TwoLevelIterator.initDataBlock, hvalid, hvalue]
  simp only [Bool.not_true, Bool.false_eq_true, if_false, Bool.and_eq_true, decide_eq_true_eq]
  split
  · rename_i hsame
    obtain ⟨d, hd⟩ := Option.isSome_iff_exists.1 hsame.1
    obtain ⟨p', -, hhandle, j, hat⟩ := hclean.data d hd
    rw [← hhandle, ← hsame.2] at hat
    exact ⟨it, j, rfl, hp, hindex, ⟨d, hd, hat⟩, hsame.2.symm, hclean.status⟩
  · obtain ⟨d, hopen, hat⟩ := h.opens _ (List.getElem_mem hlt)
    have hset : ({ it with dataBlockHandle := parts[i].handle } :
        TwoLevelIterator ι δ).setDataIterator data (some d)
          = { it with dataBlockHandle := parts[i].handle, dataIter := some d } :=
      setDataIterator_eq (by intro d hd; exact Clean.status_ok h hclean hd) _
    rw [hopen, ok_bind, hset]
    exact ⟨_, _, rfl, hp, hindex, ⟨d, rfl, hat⟩, rfl, hclean.status⟩

/-- And behind the entries of the index there is no part. -/
theorem initDataBlock_outside (hclean : Clean parts DataAt it) (hindex : IndexAt it.indexIter i)
    (hi : parts.length ≤ i) :
    ∃ it', it.initDataBlock index data blockFunction = .ok it' ∧ Outside parts IndexAt it' := by
  have hinvalid : index.valid it.indexIter = false := by
    rw [Bool.eq_false_iff, Ne, h.index.refines.valid_iff hindex, length_indexOf]
    exact not_lt.2 hi
  rw [TwoLevelIterator.initDataBlock, hinvalid,
    setDataIterator_eq fun d hd => Clean.status_ok h hclean hd]
  exact ⟨_, rfl, ⟨i, hindex, hi⟩, rfl, hclean.status⟩

/-- A move of the index. -/
theorem moveIndex_spec (hclean : Clean parts DataAt it) (hindex : IndexAt it.indexIter i)
    {op : Op Bytes} (hallowed : Allowed (indexOf parts) op i) :
    ∃ it', it.moveIndex index data blockFunction op = .ok it' ∧
      match parts[move cmp (indexOf parts) op i]? with
      | some p => ∃ j, InPart parts IndexAt DataAt (move cmp (indexOf parts) op i) p j it'
      | none => Outside parts IndexAt it' := by
  obtain ⟨indexIter, hstep, hindex'⟩ := h.index.refines.step hindex hallowed
  have hclean' : Clean parts DataAt { it with indexIter } := ⟨hclean.data, hclean.status⟩
  rw [TwoLevelIterator.moveIndex, hstep, ok_bind]
  cases hp : parts[move cmp (indexOf parts) op i]? with
  | some p =>
    obtain ⟨it', j, hinit, hpart⟩ := initDataBlock_part h hclean' hindex' hp
    exact ⟨it', hinit, j, hpart⟩
  | none =>
    exact initDataBlock_outside h hclean' hindex' (List.getElem?_eq_none_iff.1 hp)

/-- A move of the data iterator. -/
theorem moveData_spec (hin : InPart parts IndexAt DataAt i p j it) {op : Op Bytes}
    (hallowed : Allowed p.entries op j) :
    ∃ it', it.moveData data op = .ok it' ∧
      InPart parts IndexAt DataAt i p (move cmp p.entries op j) it' := by
  obtain ⟨d, hd, hat⟩ := hin.data
  obtain ⟨d', hstep, hat'⟩ := (h.data p hin.mem).refines.step hat hallowed
  rw [TwoLevelIterator.moveData, hd]
  simp only
  rw [hstep, ok_bind]
  exact ⟨_, rfl, hin.part, hin.index, ⟨d', rfl, hat'⟩, hin.handle, hin.status⟩

omit h in
theorem moveData_outside (hout : Outside parts IndexAt it) (op : Op Bytes) :
    it.moveData data op = .ok it := by
  rw [TwoLevelIterator.moveData, hout.data]

theorem InPart.valid_iff (hin : InPart parts IndexAt DataAt i p j it) :
    it.valid data = true ↔ j < p.entries.length := by
  obtain ⟨d, hd, hat⟩ := hin.data
  rw [TwoLevelIterator.valid, hd]
  exact (h.data p hin.mem).refines.valid_iff hat

omit h in
theorem Outside.valid_eq (hout : Outside parts IndexAt it) : it.valid data = false := by
  rw [TwoLevelIterator.valid, hout.data]
  rfl

/-- The loop ends at once when there is no part. -/
theorem skip_outside (hout : Outside parts IndexAt it) (indexOp dataOp : Op Bytes) (n : ℕ) :
    ∃ it', it.skipEmptyDataBlocks index data blockFunction indexOp dataOp (n + 1) = .ok it' ∧
      At parts IndexAt DataAt it' (joined parts).length := by
  obtain ⟨i, hindex, hi⟩ := hout.index
  have hinvalid : index.valid it.indexIter = false := by
    rw [Bool.eq_false_iff, Ne, h.index.refines.valid_iff hindex, length_indexOf]
    exact not_lt.2 hi
  rw [TwoLevelIterator.skipEmptyDataBlocks, hout.valid_eq, hinvalid,
    setDataIterator_eq fun d hd => Clean.status_ok h hout.clean hd]
  exact ⟨_, rfl, Or.inr ⟨⟨⟨i, hindex, hi⟩, rfl, hout.status⟩, rfl⟩⟩

/-- The next round of the loop, behind the end of a part. -/
theorem skip_round (hin : InPart parts IndexAt DataAt i p j it) (hj : p.entries.length ≤ j)
    (indexOp dataOp : Op Bytes) (hindexOp : Allowed (indexOf parts) indexOp i)
    (hdataOp : ∀ (p : Part Bytes Bytes Bytes) j, Allowed p.entries dataOp j) (n : ℕ) :
    ∃ it', it.skipEmptyDataBlocks index data blockFunction indexOp dataOp (n + 1)
        = it'.skipEmptyDataBlocks index data blockFunction indexOp dataOp n ∧
      match parts[move cmp (indexOf parts) indexOp i]? with
      | some p' => ∃ j, InPart parts IndexAt DataAt (move cmp (indexOf parts) indexOp i) p'
          (move cmp p'.entries dataOp j) it'
      | none => Outside parts IndexAt it' := by
  have hinvalid : it.valid data = false := by
    rw [Bool.eq_false_iff, Ne, hin.valid_iff h]
    exact not_lt.2 hj
  have hvalid := (h.index.refines.valid_iff hin.index).2 (by rw [length_indexOf]; exact hin.lt)
  obtain ⟨it', hmove, hit'⟩ := moveIndex_spec h hin.clean hin.index hindexOp
  rw [TwoLevelIterator.skipEmptyDataBlocks, hinvalid, hvalid]
  simp only [Bool.false_eq_true, if_false, Bool.not_true]
  rw [hmove, ok_bind]
  cases hp : parts[move cmp (indexOf parts) indexOp i]? with
  | some p' =>
    rw [hp] at hit'
    obtain ⟨j', hin'⟩ := hit'
    obtain ⟨it'', hmove', hin''⟩ := moveData_spec h hin' (hdataOp p' j')
    rw [hmove', ok_bind]
    exact ⟨it'', rfl, j', hin''⟩
  | none =>
    rw [hp] at hit'
    rw [moveData_outside hit', ok_bind]
    exact ⟨it', rfl, hit'⟩

/-- **Forward** the loop ends at the first position at or behind this one. -/
theorem skipForward_spec (n : ℕ) :
    ∀ {i j : ℕ} {p : Part Bytes Bytes Bytes} {it : TwoLevelIterator ι δ},
      InPart parts IndexAt DataAt i p j it → j ≤ p.entries.length → parts.length < n + i →
      ∃ it', it.skipEmptyDataBlocksForward index data blockFunction (n + 1) = .ok it' ∧
        At parts IndexAt DataAt it' (start parts i + j) := by
  induction n with
  | zero => exact fun hin _ hn => absurd hin.lt (by omega)
  | succ n ih =>
    intro i j p it hin hj hn
    rw [TwoLevelIterator.skipEmptyDataBlocksForward]
    rcases hj.lt_or_eq with hj | rfl
    · rw [TwoLevelIterator.skipEmptyDataBlocks, (hin.valid_iff h).2 hj]
      exact ⟨it, rfl, Or.inl ⟨i, p, j, hin, hj, rfl⟩⟩
    · obtain ⟨it', hround, hit'⟩ := skip_round h hin le_rfl .next .seekToFirst
        (by rw [Allowed, length_indexOf]; exact hin.lt) (fun _ _ => trivial) (n + 1)
      rw [hround, ← start_succ hin.part]
      simp only [move] at hit'
      cases hp : parts[i + 1]? with
      | some p' =>
        rw [hp] at hit'
        obtain ⟨-, hin'⟩ := hit'
        exact ih hin' (Nat.zero_le _) (by omega)
      | none =>
        rw [hp] at hit'
        rw [start_of_le (List.getElem?_eq_none_iff.1 hp)]
        exact skip_outside h hit' _ _ n

/-- **Backward** it ends at the last position before the part. -/
theorem skipBackward_spec (n : ℕ) :
    ∀ {i j : ℕ} {p : Part Bytes Bytes Bytes} {it : TwoLevelIterator ι δ},
      InPart parts IndexAt DataAt i p j it → i < n →
      ∃ it', it.skipEmptyDataBlocksBackward index data blockFunction (n + 1) = .ok it' ∧
        At parts IndexAt DataAt it'
          (if j < p.entries.length then start parts i + j
            else if start parts i = 0 then (joined parts).length else start parts i - 1) := by
  induction n with
  | zero => exact fun _ hn => absurd hn (Nat.not_lt_zero _)
  | succ n ih =>
    intro i j p it hin hn
    rw [TwoLevelIterator.skipEmptyDataBlocksBackward]
    split
    · rename_i hj
      rw [TwoLevelIterator.skipEmptyDataBlocks, (hin.valid_iff h).2 hj]
      exact ⟨it, rfl, Or.inl ⟨i, p, j, hin, hj, rfl⟩⟩
    · rename_i hj
      obtain ⟨it', hround, hit'⟩ := skip_round h hin (not_lt.1 hj) .prev .seekToLast
        (by rw [Allowed, length_indexOf]; exact hin.lt) (fun _ _ => trivial) (n + 1)
      rw [hround]
      simp only [move] at hit'
      cases i with
      | zero =>
        rw [if_pos rfl, length_indexOf, List.getElem?_eq_none le_rfl] at hit'
        rw [start_zero, if_pos rfl]
        exact skip_outside h hit' _ _ n
      | succ i =>
        rw [if_neg (Nat.succ_ne_zero i), Nat.add_sub_cancel] at hit'
        obtain ⟨p', hp'⟩ : ∃ p', parts[i]? = some p' :=
          ⟨_, List.getElem?_eq_getElem (Nat.lt_of_succ_lt hin.lt)⟩
        rw [hp'] at hit'
        obtain ⟨-, hin'⟩ := hit'
        obtain ⟨it'', hskip, hat⟩ := ih hin' (by omega)
        refine ⟨it'', hskip, ?_⟩
        rw [start_succ hp']
        split at hat
        · rename_i hpos
          rw [if_neg (by omega)]
          exact (show start parts i + (p'.entries.length - 1)
            = start parts i + p'.entries.length - 1 by omega) ▸ hat
        · rename_i hpos
          rwa [show p'.entries.length = 0 by omega, Nat.add_zero]

/-- A seek of both iterators, forward. -/
theorem seekForward_spec (hclean : Clean parts DataAt it) (hindex : IndexAt it.indexIter i)
    {op : Op Bytes} (hallowed : Allowed (indexOf parts) op i)
    (hdata : ∀ (p : Part Bytes Bytes Bytes) j, Allowed p.entries op j ∧
      move cmp p.entries op j ≤ p.entries.length) {n : ℕ} (hn : parts.length < n) :
    ∃ it', (do
        let it ← it.moveIndex index data blockFunction op
        let it ← it.moveData data op
        it.skipEmptyDataBlocksForward index data blockFunction (n + 1)) = .ok it' ∧
      ∃ j, At parts IndexAt DataAt it' (start parts (move cmp (indexOf parts) op i) +
        (parts[move cmp (indexOf parts) op i]?.elim 0 fun p => move cmp p.entries op j)) := by
  obtain ⟨it₁, hmove, hit⟩ := moveIndex_spec h hclean hindex hallowed
  rw [hmove, ok_bind]
  cases hp : parts[move cmp (indexOf parts) op i]? with
  | some p =>
    rw [hp] at hit
    obtain ⟨j, hin⟩ := hit
    obtain ⟨it₂, hmove', hin'⟩ := moveData_spec h hin (hdata p j).1
    obtain ⟨it₃, hskip, hat⟩ := skipForward_spec h n hin' (hdata p j).2 (by omega)
    rw [hmove', ok_bind]
    exact ⟨it₃, hskip, j, hat⟩
  | none =>
    rw [hp] at hit
    obtain ⟨it₂, hskip, hat⟩ := skip_outside h hit .next .seekToFirst n
    rw [moveData_outside hit, ok_bind]
    refine ⟨it₂, hskip, 0, ?_⟩
    rw [start_of_le (List.getElem?_eq_none_iff.1 hp)]
    exact hat

/-- A seek of both iterators to the end. -/
theorem seekToLast_spec (hclean : Clean parts DataAt it) (hindex : IndexAt it.indexIter i)
    {n : ℕ} (hn : parts.length < n) :
    ∃ it', (do
        let it ← it.moveIndex index data blockFunction .seekToLast
        let it ← it.moveData data .seekToLast
        it.skipEmptyDataBlocksBackward index data blockFunction (n + 1)) = .ok it' ∧
      At parts IndexAt DataAt it' ((joined parts).length - 1) := by
  have hallowed : Allowed (indexOf parts) (.seekToLast : Op Bytes) i := trivial
  obtain ⟨it₁, hmove, hit⟩ := moveIndex_spec h hclean hindex hallowed
  simp only [move, length_indexOf] at hit
  rw [hmove, ok_bind]
  cases hp : parts[parts.length - 1]? with
  | some p =>
    rw [hp] at hit
    obtain ⟨j, hin⟩ := hit
    have hallowed' : Allowed p.entries (.seekToLast : Op Bytes) j := trivial
    obtain ⟨it₂, hmove', hin'⟩ := moveData_spec h hin hallowed'
    obtain ⟨it₃, hskip, hat⟩ := skipBackward_spec h n hin' (by omega)
    rw [hmove', ok_bind]
    refine ⟨it₃, hskip, ?_⟩
    have hlength := start_succ hp
    rw [Nat.sub_add_cancel (Nat.one_le_of_lt hin.lt), start_of_le le_rfl] at hlength
    have heq : (joined parts).length - 1
        = if move cmp p.entries .seekToLast j < p.entries.length then
            start parts (parts.length - 1) + move cmp p.entries .seekToLast j
          else if start parts (parts.length - 1) = 0 then (joined parts).length
          else start parts (parts.length - 1) - 1 := by
      by_cases hpos : move cmp p.entries .seekToLast j < p.entries.length
      · rw [if_pos hpos]
        simp only [move] at hpos ⊢
        omega
      · rw [if_neg hpos]
        simp only [move] at hpos
        split <;> omega
    rw [heq]
    exact hat
  | none =>
    rw [hp] at hit
    have hempty : parts = [] := by
      rw [List.getElem?_eq_none_iff] at hp
      exact List.eq_nil_of_length_eq_zero (by omega)
    obtain ⟨it₂, hskip, hat⟩ := skip_outside h hit .prev .seekToLast n
    rw [moveData_outside hit, ok_bind]
    refine ⟨it₂, hskip, ?_⟩
    rw [hempty] at hat ⊢
    exact hat

/-- A step on within a part, and over the empty ones behind it. -/
theorem next_spec {m : ℕ} (hm : parts.length < m) (hin : InPart parts IndexAt DataAt i p j it)
    (hj : j < p.entries.length) :
    ∃ it', (TwoLevelIterator.iterator index data blockFunction (m + 1)).step .next it = .ok it' ∧
      At parts IndexAt DataAt it' (start parts i + j + 1) := by
  have hop : Allowed p.entries (.next : Op Bytes) j := hj
  obtain ⟨it₁, hmove, hin'⟩ := moveData_spec h hin hop
  obtain ⟨it₂, hskip, hat'⟩ := skipForward_spec h m hin' hj (by omega)
  refine ⟨it₂, ?_, hat'⟩
  show (do
    let it ← it.moveData data .next
    it.skipEmptyDataBlocksForward index data blockFunction (m + 1)) = _
  rw [hmove, ok_bind, hskip]

/-- A step back, at the first entry of a part to the last of a part before it. -/
theorem prev_spec {m : ℕ} (hm : parts.length < m) (hin : InPart parts IndexAt DataAt i p j it)
    (hj : j < p.entries.length) :
    ∃ it', (TwoLevelIterator.iterator index data blockFunction (m + 1)).step .prev it = .ok it' ∧
      At parts IndexAt DataAt it' (if start parts i + j = 0 then (joined parts).length
        else start parts i + j - 1) := by
  have hop : Allowed p.entries (.prev : Op Bytes) j := hj
  obtain ⟨it₁, hmove, hin'⟩ := moveData_spec h hin hop
  obtain ⟨it₂, hskip, hat'⟩ := skipBackward_spec h m hin' (hin.lt.trans hm)
  refine ⟨it₂, ?_, ?_⟩
  · show (do
      let it ← it.moveData data .prev
      it.skipEmptyDataBlocksBackward index data blockFunction (m + 1)) = _
    rw [hmove, ok_bind, hskip]
  · have heq : (if start parts i + j = 0 then (joined parts).length else start parts i + j - 1)
        = if move cmp p.entries .prev j < p.entries.length then
            start parts i + move cmp p.entries .prev j
          else if start parts i = 0 then (joined parts).length
          else start parts i - 1 := by
      simp only [move]
      split_ifs <;> omega
    rw [heq]
    exact hat'

/-- **A two-level iterator is a cursor** on the parts behind each other. -/
theorem walks [Std.TransCmp cmp] (hrounds : parts.length + 2 ≤ rounds) :
    (TwoLevelIterator.iterator index data blockFunction rounds).Walks cmp (joined parts)
      (At parts IndexAt DataAt) where
  status {it n} hat := by
    obtain ⟨i, hindex⟩ := hat.exists_index
    show TwoLevelIterator.status index data it = .ok
    rw [TwoLevelIterator.status, if_neg (not_not.2 (h.index.status hindex))]
    cases hd : it.dataIter with
    | none => exact hat.clean.status
    | some d =>
      simp only
      rw [if_neg (not_not.2 (Clean.status_ok h hat.clean hd)), hat.clean.status]
  refines :=
    { valid_iff := fun {it n} hat => by
        show it.valid data = true ↔ _
        rcases hat with ⟨i, p, j, hin, hj, rfl⟩ | ⟨hout, rfl⟩
        · exact iff_of_true ((hin.valid_iff h).2 hj) (start_add_lt hin.part hj)
        · rw [hout.valid_eq]
          exact iff_of_false Bool.false_ne_true (lt_irrefl _)
      shows := fun {it n} hat hn => by
        rcases hat with ⟨i, p, j, hin, hj, rfl⟩ | ⟨hout, rfl⟩
        · obtain ⟨d, hd, hdata⟩ := hin.data
          have hshows := (h.data p hin.mem).refines.shows hdata hj
          have hentry := getElem?_joined hin.part hj
          rw [List.getElem?_eq_getElem hn, List.getElem?_eq_getElem hj, Option.some.injEq] at hentry
          rw [hentry, ← hshows]
          show ((it.dataIter.map data.key).getD [], (it.dataIter.map data.value).getD []) = _
          rw [hd]
          rfl
        · exact absurd hn (lt_irrefl _)
      step := fun {it n op} hat hallowed => by
        obtain ⟨m, rfl⟩ : ∃ m, rounds = m + 1 := ⟨rounds - 1, by omega⟩
        obtain ⟨i, hindex⟩ := hat.exists_index
        have hclean := hat.clean
        have hm : parts.length < m := by omega
        cases op with
        | seek target =>
          have hindexOp : Allowed (indexOf parts) (.seek target) i := trivial
          obtain ⟨it', hstep, j, hat'⟩ := seekForward_spec h hclean hindex hindexOp
            (fun p _ => ⟨trivial, lowerBound_le ..⟩) hm
          refine ⟨it', hstep, ?_⟩
          rw [move, lowerBound_joined h.indexed]
          exact hat'
        | seekToFirst =>
          have hindexOp : Allowed (indexOf parts) (.seekToFirst : Op Bytes) i := trivial
          obtain ⟨it', hstep, j, hat'⟩ := seekForward_spec h hclean hindex hindexOp
            (fun p _ => ⟨trivial, Nat.zero_le _⟩) hm
          refine ⟨it', hstep, ?_⟩
          simp only [move, start_zero, Nat.zero_add] at hat' ⊢
          cases hp : parts[0]? with
          | none =>
            rw [hp] at hat'
            exact hat'
          | some p =>
            rw [hp] at hat'
            exact hat'
        | seekToLast => exact seekToLast_spec h hclean hindex hm
        | next =>
          rcases hat with ⟨i, p, j, hin, hj, rfl⟩ | ⟨-, rfl⟩
          · exact next_spec h hm hin hj
          · exact absurd hallowed (lt_irrefl _)
        | prev =>
          rcases hat with ⟨i, p, j, hin, hj, rfl⟩ | ⟨-, rfl⟩
          · exact prev_spec h hm hin hj
          · exact absurd hallowed (lt_irrefl _) }

end Steps

/-- **A new two-level iterator:** its index is new and names the parts apart, and each name
opens a new iterator on its part. -/
theorem fresh [Std.TransCmp cmp] {data : ℕ → DbIterator δ} {indexIter : ι}
    (hindexed : Indexed cmp parts)
    (hindex : DbIterator.Fresh (fun _ => index) cmp (indexOf parts) indexIter)
    (hopens : ∀ p ∈ parts, ∃ d, blockFunction p.handle = .ok d ∧
      DbIterator.Fresh data cmp p.entries d)
    (hapart : ∀ p ∈ parts, ∀ p' ∈ parts, p.handle = p'.handle → p = p') :
    DbIterator.Fresh (fun rounds =>
        TwoLevelIterator.iterator index (data rounds) blockFunction rounds) cmp (joined parts)
      { indexIter } := by
  obtain ⟨IndexAt, hat, m, hindex⟩ := hindex
  choose d hopen At hnew n hwalks using hopens
  set DataAt : Bytes → δ → ℕ → Prop := fun handle s j =>
    ∃ p hp, p.handle = handle ∧ At p hp s j
  have hDataAt {p : Part Bytes Bytes Bytes} (hp : p ∈ parts) : DataAt p.handle = At p hp := by
    funext s j
    refine propext ⟨?_, fun hs => ⟨p, hp, rfl, hs⟩⟩
    rintro ⟨p', hp', heq, hs⟩
    obtain rfl := hapart p' hp' p hp heq
    exact hs
  rw [length_indexOf] at hat
  refine ⟨TwoLevel.At parts IndexAt DataAt, Or.inr ⟨⟨⟨parts.length, hat, le_rfl⟩, rfl, rfl⟩, rfl⟩,
    parts.length + 2 + (parts.attach.map fun p => n p.1 p.2).sum, fun rounds hrounds => ?_⟩
  have htwo : TwoLevel index (data rounds) blockFunction cmp parts IndexAt DataAt := by
    refine ⟨hindexed, hindex m le_rfl, fun p hp => ?_, fun p hp => ?_⟩
    · have hle : n p hp ≤ (parts.attach.map fun p => n p.1 p.2).sum :=
        List.le_sum_of_mem (List.mem_map_of_mem (List.mem_attach parts ⟨p, hp⟩))
      rw [hDataAt hp]
      exact hwalks p hp rounds (by omega)
    · rw [hDataAt hp]
      exact ⟨d p hp, hopen p hp, hnew p hp⟩
  exact htwo.walks (by omega)

end TwoLevel

/-! ## The iterator of a table -/

/-- `Table::NewIterator`: a two-level iterator over the index block; no data block is read
yet. -/
def Table.newIterator (t : Table) : Checked (TwoLevelIterator BlockIterator BlockIterator) := do
  let indexIter ← t.indexBlock.newIterator t.options.comparator
  .ok { indexIter }

/-- The operations of the iterator of a table, whose data iterators are opened by
`BlockReader`. -/
def Table.iterator (crc : Crc32c) (snappy : Snappy) (t : Table) (verifyChecksums : Bool)
    (rounds : ℕ) : DbIterator (TwoLevelIterator BlockIterator BlockIterator) :=
  TwoLevelIterator.iterator blockIterator blockIterator (t.blockReader crc snappy verifyChecksums)
    rounds

section Table

variable {crc : Crc32c} {snappy : Snappy} {options : Options} [options.comparator.Lawful]
  {view : Bytes → Bytes} {entries : List (Bytes × Bytes)} {file : Bytes}
  {blocks : List TableBlock} {footer : Footer} {t : Table}

/-- A data block as a part of its table. -/
def TableBlock.part (block : TableBlock) : Part Bytes Bytes Bytes where
  key := block.separator
  handle := block.handle.encodeTo []
  entries := block.entries

omit [options.comparator.Lawful] in
/-- Different blocks have different handles. -/
theorem TableLayout.eq_of_handle (h : TableLayout crc snappy options entries file blocks footer)
    (hfile : file.length < 4294967296) {block block' : TableBlock} (hblock : block ∈ blocks)
    (hblock' : block' ∈ blocks)
    (heq : block.handle.encodeTo [] = block'.handle.encodeTo []) : block = block' := by
  have hdecode := BlockHandle.decodeFrom_encodeTo ((h.stored block hblock).fits (by omega)) []
  rw [heq, BlockHandle.decodeFrom_encodeTo ((h.stored block' hblock').fits (by omega))] at hdecode
  have hhandle : block'.handle = block.handle := by
    simpa only [Except.ok.injEq, Prod.mk.injEq, and_true] using hdecode
  have hoffsets := h.offsets
  rw [List.pairwise_map] at hoffsets
  obtain ⟨i, hi, rfl⟩ := List.mem_iff_getElem.1 hblock
  obtain ⟨j, hj, rfl⟩ := List.mem_iff_getElem.1 hblock'
  rcases lt_trichotomy i j with hij | rfl | hij
  · have hlt := List.pairwise_iff_getElem.1 hoffsets i j hi hj hij
    exact absurd hlt (by rw [hhandle]; exact lt_irrefl _)
  · rfl
  · have hlt := List.pairwise_iff_getElem.1 hoffsets j i hj hi hij
    exact absurd hlt (by rw [hhandle]; exact lt_irrefl _)

/-- The index of a table is one of its parts. -/
theorem TableLayout.indexed (h : TableLayout crc snappy options entries file blocks footer)
    (hsorted : Cursor.Sorted options.comparator.compare entries) :
    Indexed options.comparator.compare (blocks.map TableBlock.part) where
  le p hp e he := by
    obtain ⟨block, hblock, rfl⟩ := List.mem_map.1 hp
    exact h.le_separator_of_mem hsorted hblock he
  later := by
    rw [List.pairwise_map]
    refine h.separated.imp fun hsep e he => ?_
    refine Std.TransCmp.isLE_trans (Ordering.isLE_of_eq_lt ?_) (hsep.2 e he)
    show options.comparator.compare _ _ = .lt
    rw [TableBlock.part, hsep.1.separator_eq]
    exact Comparator.Lawful.separator_lt hsep.1.lt

/-- **The iterator of a table** is a new iterator on its entries. -/
theorem table_fresh (h : TableLayout crc snappy options entries file blocks footer)
    (hinterval : 1 ≤ options.blockRestartInterval) (hfile : file.length < 4294967296)
    (hfit : TableFits options entries)
    (hsorted : Cursor.Sorted options.comparator.compare entries)
    (ht : t.Reads options view file blocks) (verifyChecksums : Bool) :
    ∃ it, t.newIterator = .ok it ∧ DbIterator.Fresh (t.iterator crc snappy verifyChecksums)
      options.comparator.compare entries it := by
  obtain ⟨IndexAt, hindex, s₀, hnew, hs₀⟩ := ht.index
  have hjoined : joined (blocks.map TableBlock.part) = entries := by
    rw [joined, List.flatMap_map]
    exact h.entries_eq
  have hindexOf : indexOf (blocks.map TableBlock.part) = blocks.map TableBlock.indexEntry := by
    rw [indexOf, List.map_map]
    rfl
  refine ⟨{ indexIter := s₀ }, by rw [Table.newIterator, ht.options_eq, hnew, ok_bind], ?_⟩
  rw [← hjoined]
  refine TwoLevel.fresh (h.indexed hsorted) ?_ (fun p hp => ?_) fun p hp p' hp' heq => ?_
  · rw [hindexOf]
    exact ⟨IndexAt, by rwa [List.length_map], 0, fun _ _ => hindex⟩
  · obtain ⟨block, hblock, rfl⟩ := List.mem_map.1 hp
    obtain ⟨At, hwalks, s, hread, hs⟩ :=
      blockReader_layout h hinterval hfile hfit hsorted ht hblock verifyChecksums
    exact ⟨s, hread, At, hs, 0, fun _ _ => hwalks⟩
  · obtain ⟨block, hblock, rfl⟩ := List.mem_map.1 hp
    obtain ⟨block', hblock', rfl⟩ := List.mem_map.1 hp'
    rw [h.eq_of_handle hfile hblock hblock' heq]

end Table

/-- **A table is read as it was written:** after every run of operations from a fresh
iterator, in which steps are taken from valid positions only, the iterator reports no error
and shows what a cursor on the entries shows. -/
theorem table_run (crc : Crc32c) (snappy : Snappy) (options : Options)
    [options.comparator.Lawful] [options.comparator.Short] {view : Bytes → Bytes}
    {entries : List (Bytes × Bytes)} (hinterval : 1 ≤ options.blockRestartInterval)
    (hsorted : Cursor.Sorted options.comparator.compare entries)
    (hfits : FilterFits options view entries.length)
    (hfit : TableFits options entries) :
    ∃ file, buildTable crc snappy options entries = .ok file ∧ (file.length < 4294967296 →
      ∃ t, Table.openTable crc snappy options file file.length = .ok (.ok t) ∧
        ∃ it, t.newIterator = .ok it ∧
          ∃ n, ∀ rounds, n ≤ rounds → ∀ verifyChecksums (ops : List (Op Bytes)),
            AllAllowed options.comparator.compare entries ops entries.length →
            ∃ it', run (t.iterator crc snappy verifyChecksums rounds).toIterator ops it = .ok it' ∧
              (t.iterator crc snappy verifyChecksums rounds).status it' = .ok ∧
              (t.iterator crc snappy verifyChecksums rounds).entry it'
                = entries[moves options.comparator.compare entries ops entries.length]?) := by
  obtain ⟨file, hbuild, hlayout⟩ := buildTable_layout crc snappy options hfits hsorted hfit
  refine ⟨file, hbuild, fun hfile => ?_⟩
  obtain ⟨blocks, footer, h⟩ := hlayout hfile
  obtain ⟨t, hopen, ht, -⟩ := open_layout h hinterval hfile hfit hsorted hfits
  obtain ⟨it, hnew, hfresh⟩ := table_fresh h hinterval hfile hfit hsorted ht false
  obtain ⟨_, hnew', hfresh'⟩ := table_fresh h hinterval hfile hfit hsorted ht true
  obtain rfl := Except.ok.inj (hnew.symm.trans hnew')
  obtain ⟨n, hrun⟩ := hfresh.run
  obtain ⟨n', hrun'⟩ := hfresh'.run
  refine ⟨t, hopen, it, hnew, n + n', fun rounds hrounds verifyChecksums => ?_⟩
  cases verifyChecksums with
  | false => exact hrun rounds (by omega)
  | true => exact hrun' rounds (by omega)

/-- Two entries of a table. -/
def twoEntries : List (Bytes × Bytes) := [([1], [9]), ([1, 2], [])]

theorem table_run_two :
    ∃ file, buildTable castagnoli .missing xorOptions twoEntries = .ok file ∧
      (file.length < 4294967296 →
        ∃ t, Table.openTable castagnoli .missing xorOptions file file.length = .ok (.ok t) ∧
          ∃ it, t.newIterator = .ok it ∧
            ∃ n, ∀ rounds, n ≤ rounds → ∀ verifyChecksums (ops : List (Op Bytes)),
              AllAllowed sliceCompare twoEntries ops 2 →
              ∃ it', run (t.iterator castagnoli .missing verifyChecksums rounds).toIterator ops it
                  = .ok it' ∧
                (t.iterator castagnoli .missing verifyChecksums rounds).status it' = .ok ∧
                (t.iterator castagnoli .missing verifyChecksums rounds).entry it'
                  = twoEntries[moves sliceCompare twoEntries ops 2]?) :=
  have hsorted : Sorted sliceCompare twoEntries := by
    unfold Sorted
    decide
  table_run castagnoli .missing xorOptions (by decide) hsorted
    (filterFits_xorOptions (by decide)) (.of_weight (by decide))

end PackedFilters.LevelDb
