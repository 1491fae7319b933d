import PackedFilters.Lib.Cursor
import PackedFilters.LevelDb.BlockBuilder

/-!
# The reader of a block

`table/block.cc`: the constructor, which finds the restart points, and `Block::Iter`, which
seeks by a binary search among them and then entry by entry.

The reader is given bytes that may come from a damaged file, so all of it is partial: offsets
and lengths are the 32-bit words that the code computes with, a read outside the contents is
a fault, an entry that cannot be decoded sets a status, and every loop has a bound on its
rounds.  An entry is decoded on top of the key before it, and there is no way back but to the
restart point in front of it; that makes `Prev` and `Seek` loops over `ParseNextKey`.

The module also has what every iterator of the store shares.

* `Status`, `DbIterator` — the interface `Iterator`: what a state shows, and its status;
* `DbIterator.Walks` — an iterator is a cursor on a list and reports no error;
* `DbIterator.Fresh` — so is a new one, once its loops are given rounds enough; this is the
  form in which the layers of the store rest on each other, and `Embeds` and `sum` take it
  from one type of states to another;
* `Block`, `Iter` — a block and its iterator;
* `openBlock` — from the contents of a block to its iterator.
-/

namespace PackedFilters.LevelDb

open Cursor (Op)

/-! ## Iterators -/

/-- `Status`, with its message. -/
inductive Status where
  | ok
  | notFound (msg : Bytes)
  | corruption (msg : Bytes)
  | ioError (msg : Bytes)
  deriving DecidableEq

/-- The `Iterator` interface: the operations of a cursor, which may fault, and a status. -/
structure DbIterator (σ : Type) extends Cursor.Iterator Fault σ Bytes Bytes where
  status : σ → Status

/-- An iterator that is a cursor on these entries and reports no error. -/
structure DbIterator.Walks {σ : Type} (it : DbIterator σ) (cmp : Bytes → Bytes → Ordering)
    (entries : List (Bytes × Bytes)) (At : σ → ℕ → Prop) : Prop where
  refines : Cursor.Refines it.toIterator cmp entries At
  status {s i} : At s i → it.status s = .ok

/-- What an iterator shows. -/
def DbIterator.entry {σ : Type} (it : DbIterator σ) (s : σ) : Option (Bytes × Bytes) :=
  if it.valid s then some (it.key s, it.value s) else none

section Walks

variable {σ : Type} {it : DbIterator σ} {cmp : Bytes → Bytes → Ordering}
  {entries : List (Bytes × Bytes)} {At : σ → ℕ → Prop} {s : σ} {i : ℕ}

theorem DbIterator.Walks.entry_eq (h : it.Walks cmp entries At) (hs : At s i) :
    it.entry s = entries[i]? := by
  rw [DbIterator.entry]
  by_cases hi : i < entries.length
  · rw [if_pos ((h.refines.valid_iff hs).2 hi), List.getElem?_eq_getElem hi]
    exact congrArg some (h.refines.shows hs hi)
  · rw [if_neg (mt (h.refines.valid_iff hs).1 hi), List.getElem?_eq_none (not_lt.1 hi)]

/-- After every run of allowed operations an iterator shows what the list has there. -/
theorem DbIterator.Walks.run (h : it.Walks cmp entries At) (hs : At s i)
    (ops : List (Op Bytes)) (hallowed : Cursor.AllAllowed cmp entries ops i) :
    ∃ s', Cursor.run it.toIterator ops s = .ok s' ∧ it.status s' = .ok ∧
      it.entry s' = entries[Cursor.moves cmp entries ops i]? := by
  obtain ⟨s', hrun, hs'⟩ := h.refines.run ops hs hallowed
  exact ⟨s', hrun, h.status hs', h.entry_eq hs'⟩

end Walks

/-- A new iterator on these entries.  It stands at none of them, and it walks them once its
loops are given rounds enough. -/
def DbIterator.Fresh {σ : Type} (it : ℕ → DbIterator σ) (cmp : Bytes → Bytes → Ordering)
    (entries : List (Bytes × Bytes)) (s : σ) : Prop :=
  ∃ At : σ → ℕ → Prop, At s entries.length ∧
    ∃ n, ∀ rounds, n ≤ rounds → (it rounds).Walks cmp entries At

/-- The states `f s` of one iterator do what the states `s` of another do. -/
structure DbIterator.Embeds {σ τ : Type} (a : DbIterator σ) (b : DbIterator τ) (f : σ → τ) :
    Prop where
  valid s : b.valid (f s) = a.valid s
  key s : b.key (f s) = a.key s
  value s : b.value (f s) = a.value s
  status s : b.status (f s) = a.status s
  step op s : b.step op (f s) = (a.step op s).map f

/-- A pointer to an iterator of one of two classes. -/
def DbIterator.sum {σ τ : Type} (a : DbIterator σ) (b : DbIterator τ) : DbIterator (σ ⊕ τ) where
  valid := Sum.elim a.valid b.valid
  key := Sum.elim a.key b.key
  value := Sum.elim a.value b.value
  step op := Sum.elim (fun s => (a.step op s).map .inl) fun s => (b.step op s).map .inr
  status := Sum.elim a.status b.status

/-- The cursor on a list, as an iterator. -/
def DbIterator.ofList (cmp : Bytes → Bytes → Ordering) (entries : List (Bytes × Bytes)) :
    DbIterator ℕ where
  valid i := i < entries.length
  key i := (entries[i]?.map Prod.fst).getD []
  value i := (entries[i]?.map Prod.snd).getD []
  step op i := .ok (Cursor.move cmp entries op i)
  status _ := .ok

section Fresh

variable {σ τ : Type} {cmp : Bytes → Bytes → Ordering} {entries : List (Bytes × Bytes)}

theorem DbIterator.ofList_fresh (cmp : Bytes → Bytes → Ordering) (entries : List (Bytes × Bytes)) :
    DbIterator.Fresh (fun _ => ofList cmp entries) cmp entries entries.length := by
  refine ⟨fun s i => s = i, rfl, 0, fun _ _ => ⟨?_, fun _ => rfl⟩⟩
  constructor
  · rintro _ i rfl
    exact decide_eq_true_iff
  · rintro _ i rfl hi
    simp only [ofList, List.getElem?_eq_getElem hi, Option.map_some, Option.getD_some]
  · rintro _ i op rfl -
    exact ⟨_, rfl, rfl⟩

theorem DbIterator.embeds_inl (a : DbIterator σ) (b : DbIterator τ) : a.Embeds (a.sum b) .inl :=
  ⟨fun _ => rfl, fun _ => rfl, fun _ => rfl, fun _ => rfl, fun _ _ => rfl⟩

theorem DbIterator.embeds_inr (a : DbIterator σ) (b : DbIterator τ) : b.Embeds (a.sum b) .inr :=
  ⟨fun _ => rfl, fun _ => rfl, fun _ => rfl, fun _ => rfl, fun _ _ => rfl⟩

/-- What embeds an iterator walks what it walks. -/
theorem DbIterator.Walks.embed {a : DbIterator σ} {b : DbIterator τ} {f : σ → τ}
    {At : σ → ℕ → Prop} (h : a.Walks cmp entries At) (hf : a.Embeds b f) :
    b.Walks cmp entries fun t i => ∃ s, t = f s ∧ At s i where
  status := by
    rintro _ i ⟨s, rfl, hs⟩
    rw [hf.status, h.status hs]
  refines :=
    { valid_iff := by
        rintro _ i ⟨s, rfl, hs⟩
        rw [hf.valid, h.refines.valid_iff hs]
      shows := by
        rintro _ i ⟨s, rfl, hs⟩ hi
        rw [hf.key, hf.value]
        exact h.refines.shows hs hi
      step := by
        rintro _ i op ⟨s, rfl, hs⟩ hallowed
        obtain ⟨s', hstep, hs'⟩ := h.refines.step hs hallowed
        rw [hf.step, hstep]
        exact ⟨f s', rfl, s', rfl, hs'⟩ }

theorem DbIterator.Fresh.embed {a : ℕ → DbIterator σ} {b : ℕ → DbIterator τ} {f : σ → τ} {s : σ}
    (h : DbIterator.Fresh a cmp entries s) (hf : ∀ rounds, (a rounds).Embeds (b rounds) f) :
    DbIterator.Fresh b cmp entries (f s) := by
  obtain ⟨At, hat, n, hwalks⟩ := h
  exact ⟨_, ⟨s, rfl, hat⟩, n, fun rounds hrounds => (hwalks rounds hrounds).embed (hf rounds)⟩

/-- After every run of allowed operations a new iterator shows what the list has there. -/
theorem DbIterator.Fresh.run {it : ℕ → DbIterator σ} {s : σ}
    (h : DbIterator.Fresh it cmp entries s) :
    ∃ n, ∀ rounds, n ≤ rounds → ∀ ops : List (Op Bytes),
      Cursor.AllAllowed cmp entries ops entries.length →
      ∃ s', Cursor.run (it rounds).toIterator ops s = .ok s' ∧ (it rounds).status s' = .ok ∧
        (it rounds).entry s' = entries[Cursor.moves cmp entries ops entries.length]? := by
  obtain ⟨At, hat, n, hwalks⟩ := h
  exact ⟨n, fun rounds hrounds ops hops => (hwalks rounds hrounds).run hat ops hops⟩

end Fresh

/-! ## The block -/

/-- `Block`: the contents, and where the restart points begin in them. -/
structure Block where
  data : Bytes
  /-- Zero for contents that are no block. -/
  size : ℕ
  restartOffset : ℕ

/-- `NumRestarts`: the last four bytes of the contents. -/
def Block.numRestarts (data : Bytes) (size : ℕ) : Checked ℕ := do
  let n ← decodeFixed32 data (size - 4)
  .ok n.toNat

/-- The constructor: contents that are too short for the restart points they say they have are
marked as bad by size zero. -/
def Block.new (contents : Bytes) : Checked Block :=
  let size := contents.length
  let bad : Block := { data := contents, size := 0, restartOffset := 0 }
  if size < 4 then .ok bad
  else do
    let maxRestartsAllowed := (size - 4) / 4
    let numRestarts ← Block.numRestarts contents size
    if maxRestartsAllowed < numRestarts then .ok bad
    else
      let restartOffset := u32 (size - u32 (1 + numRestarts) * 4)
      .ok { data := contents, size, restartOffset }

/-- The numbers in front of an entry, and where its key goes on. -/
structure EntryHeader where
  keyPtr : ℕ
  shared : ℕ
  nonShared : ℕ
  valueLength : ℕ

/-- The slow path of `DecodeEntry`. -/
def decodeHeader (data : Bytes) (p limit : ℕ) : Checked (Option EntryHeader) := do
  match ← getVarint32Ptr data p limit with
  | none => .ok none
  | some (p, shared) =>
    match ← getVarint32Ptr data p limit with
    | none => .ok none
    | some (p, nonShared) =>
      match ← getVarint32Ptr data p limit with
      | none => .ok none
      | some (p, valueLength) => .ok (some ⟨p, shared, nonShared, valueLength⟩)

/-- `DecodeEntry`.  The sum of the two lengths is one of 32-bit words. -/
def decodeEntry (data : Bytes) (p limit : ℕ) : Checked (Option EntryHeader) :=
  if limit < p + 3 then .ok none
  else do
    let shared ← readByte data p
    let nonShared ← readByte data (p + 1)
    let valueLength ← readByte data (p + 2)
    let header ←
      if shared.toNat ||| nonShared.toNat ||| valueLength.toNat < 128 then
        .ok (some ⟨p + 3, shared.toNat, nonShared.toNat, valueLength.toNat⟩)
      else decodeHeader data p limit
    match header with
    | none => .ok none
    | some h =>
      if u32 (limit - h.keyPtr) < u32 (h.nonShared + h.valueLength) then .ok none
      else .ok (some h)

/-! ## The iterator -/

/-- `Block::Iter`; `value_` lies at `valueOffset` in the block. -/
structure Iter where
  comparator : Comparator
  data : Bytes
  restarts : ℕ
  numRestarts : ℕ
  current : ℕ
  restartIndex : ℕ
  key : Bytes := []
  valueOffset : ℕ := 0
  valueLength : ℕ := 0
  status : Status := .ok

namespace Iter

/-- The constructor: at no entry, behind the last one. -/
def new (comparator : Comparator) (data : Bytes) (restarts numRestarts : ℕ) : Iter :=
  { comparator, data, restarts, numRestarts, current := restarts, restartIndex := numRestarts }

/-- `Valid`: there is an entry at the current offset, which is that of the restart points
otherwise. -/
def valid (it : Iter) : Bool := decide (it.current < it.restarts)

/-- `value`: the bytes of the value in the contents of the block. -/
def value (it : Iter) : Bytes := (it.data.drop it.valueOffset).take it.valueLength

/-- `NextEntryOffset`: the end of the value, where the next entry begins. -/
def nextEntryOffset (it : Iter) : ℕ := u32 (it.valueOffset + it.valueLength)

/-- `GetRestartPoint`: the offset of a restart point. -/
def getRestartPoint (it : Iter) (index : ℕ) : Checked ℕ := do
  let point ← decodeFixed32 it.data (it.restarts + index * 4)
  .ok point.toNat

/-- `SeekToRestartPoint`: an empty key and an empty value in front of the restart point, so that
`ParseNextKey` comes to its entry. -/
def seekToRestartPoint (it : Iter) (index : ℕ) : Checked Iter := do
  let offset ← it.getRestartPoint index
  .ok { it with key := [], restartIndex := index, valueOffset := offset, valueLength := 0 }

/-- `CorruptionError`: the iterator is at no entry any more and says so in its status. -/
def corruptionError (it : Iter) : Iter :=
  { it with
    current := it.restarts
    restartIndex := it.numRestarts
    status := .corruption (literal "bad entry in block")
    key := []
    valueOffset := 0
    valueLength := 0 }

/-- The loop at the end of `ParseNextKey`: `left` restart points are behind `index`. -/
def advanceRestart (it : Iter) : ℕ → ℕ → Checked ℕ
  | 0, index => .ok index
  | left + 1, index => do
    let point ← it.getRestartPoint (index + 1)
    if point < it.current then advanceRestart it left (index + 1) else .ok index

/-- `ParseNextKey`: the entry behind the current one is decoded on top of its key; `false` at
the end of the entries and for an entry that is bad. -/
def parseNextKey (it : Iter) : Checked (Bool × Iter) :=
  let it := { it with current := it.nextEntryOffset }
  if it.restarts ≤ it.current then
    .ok (false, { it with current := it.restarts, restartIndex := it.numRestarts })
  else do
    match ← decodeEntry it.data it.current it.restarts with
    | none => .ok (false, it.corruptionError)
    | some h =>
      if it.key.length < h.shared then .ok (false, it.corruptionError)
      else
        let delta ← readSlice it.data h.keyPtr h.nonShared
        let it := { it with
          key := it.key.take h.shared ++ delta
          valueOffset := h.keyPtr + h.nonShared
          valueLength := h.valueLength }
        let index ← it.advanceRestart (it.numRestarts - 1 - it.restartIndex) it.restartIndex
        .ok (true, { it with restartIndex := index })

/-- `while (ParseNextKey() && NextEntryOffset() < bound)`. -/
def skipTo (bound : ℕ) : ℕ → Iter → Checked Iter
  | 0, _ => .error .loopUnfinished
  | rounds + 1, it => do
    let (more, it) ← it.parseNextKey
    if more && decide (it.nextEntryOffset < bound) then skipTo bound rounds it else .ok it

/-- The rounds of a loop of calls of `ParseNextKey`: each of them takes a byte at least. -/
def rounds (it : Iter) : ℕ := it.restarts + 1

/-- `SeekToFirst`: the entry of the first restart point. -/
def seekToFirst (it : Iter) : Checked Iter := do
  let it ← it.seekToRestartPoint 0
  let (_, it) ← it.parseNextKey
  .ok it

/-- `SeekToLast`: from the last restart point on as far as there are entries. -/
def seekToLast (it : Iter) : Checked Iter := do
  let it ← it.seekToRestartPoint (it.numRestarts - 1)
  skipTo it.restarts it.rounds it

/-- `Next`: the entry behind the current one. -/
def next (it : Iter) : Checked Iter := do
  let (_, it) ← it.parseNextKey
  .ok it

/-- The first loop of `Prev`: the last restart point before `original`, from `index` down. -/
def restartBefore (it : Iter) (original : ℕ) : ℕ → Checked (Option ℕ)
  | 0 => do
    let point ← it.getRestartPoint 0
    if original ≤ point then .ok none else .ok (some 0)
  | index + 1 => do
    let point ← it.getRestartPoint (index + 1)
    if original ≤ point then restartBefore it original index else .ok (some (index + 1))

/-- `Prev`: back to the last restart point in front of the current entry, and from there on up
to the entry before it. -/
def prev (it : Iter) : Checked Iter := do
  let original := it.current
  match ← it.restartBefore original it.restartIndex with
  | none => .ok { it with current := it.restarts, restartIndex := it.numRestarts }
  | some index =>
    let it ← it.seekToRestartPoint index
    skipTo original it.rounds it

/-- The binary search of `Seek`; `none` for an error. -/
def searchRestart (it : Iter) (target : Bytes) : ℕ → ℕ → ℕ → Checked (Option ℕ)
  | 0, _, _ => .error .loopUnfinished
  | rounds + 1, left, right =>
    if left < right then do
      let mid := u32 (left + right + 1) / 2
      let regionOffset ← it.getRestartPoint mid
      match ← decodeEntry it.data regionOffset it.restarts with
      | none => .ok none
      | some h =>
        if h.shared ≠ 0 then .ok none
        else
          let midKey ← readSlice it.data h.keyPtr h.nonShared
          if it.comparator.compare midKey target = .lt then searchRestart it target rounds mid right
          else searchRestart it target rounds left (mid - 1)
    else .ok (some left)

/-- The linear search of `Seek`. -/
def scanTo (target : Bytes) : ℕ → Iter → Checked Iter
  | 0, _ => .error .loopUnfinished
  | rounds + 1, it => do
    let (more, it) ← it.parseNextKey
    if more && decide (it.comparator.compare it.key target = .lt) then scanTo target rounds it
    else .ok it

/-- `Seek` behind the comparison with the current key, `order`, when there is one. -/
def seekFrom (it : Iter) (target : Bytes) (left right : ℕ) (order : Ordering) : Checked Iter := do
  match ← it.searchRestart target it.numRestarts left right with
  | none => .ok it.corruptionError
  | some left =>
    let skipSeek := decide (left = it.restartIndex) && decide (order = .lt)
    let it ← if skipSeek then .ok it else it.seekToRestartPoint left
    scanTo target it.rounds it

/-- `Seek`: a binary search for the last restart point with a key below the target, started on
the side of the current key on which the target lies, and from there a search entry by entry. -/
def seek (it : Iter) (target : Bytes) : Checked Iter :=
  let right := it.numRestarts - 1
  if it.valid then
    match it.comparator.compare it.key target with
    | .lt => it.seekFrom target it.restartIndex right .lt
    | .gt => it.seekFrom target 0 it.restartIndex .gt
    | .eq => .ok it
  else it.seekFrom target 0 right .eq

/-- The operations of the `Iterator` interface. -/
def step : Op Bytes → Iter → Checked Iter
  | .seek target, it => it.seek target
  | .seekToFirst, it => it.seekToFirst
  | .seekToLast, it => it.seekToLast
  | .next, it => it.next
  | .prev, it => it.prev

/-- `Block::Iter` as an iterator. -/
def iterator : DbIterator Iter where
  valid := valid
  key := key
  value := value
  step := step
  status := status

end Iter

/-- What `NewIterator` returns: a `Block::Iter`, or an `EmptyIterator` with a status. -/
inductive BlockIterator where
  | iter (it : Iter)
  | empty (status : Status)

namespace BlockIterator

/-- The operations; an `EmptyIterator` ignores the seeks, and its steps are not called. -/
def step (op : Op Bytes) : BlockIterator → Checked BlockIterator
  | iter it => (it.step op).map iter
  | empty status => .ok (empty status)

def valid : BlockIterator → Bool
  | iter it => it.valid
  | empty _ => false

def key : BlockIterator → Bytes
  | iter it => it.key
  | empty _ => []

def value : BlockIterator → Bytes
  | iter it => it.value
  | empty _ => []

def status : BlockIterator → Status
  | iter it => it.status
  | empty status => status

end BlockIterator

/-- The iterator of a block. -/
def blockIterator : DbIterator BlockIterator where
  valid := BlockIterator.valid
  key := BlockIterator.key
  value := BlockIterator.value
  step := BlockIterator.step
  status := BlockIterator.status

/-- `Block::NewIterator`: an iterator over the entries, or an empty one for contents that are
bad or have no restart point. -/
def Block.newIterator (b : Block) (comparator : Comparator) : Checked BlockIterator :=
  if b.size < 4 then .ok (.empty (.corruption (literal "bad block contents")))
  else do
    let numRestarts ← Block.numRestarts b.data b.size
    if numRestarts = 0 then .ok (.empty .ok)
    else .ok (.iter (Iter.new comparator b.data b.restartOffset numRestarts))

/-- The iterator over the block with these contents. -/
def openBlock (comparator : Comparator) (contents : Bytes) : Checked BlockIterator := do
  let b ← Block.new contents
  b.newIterator comparator

end PackedFilters.LevelDb
