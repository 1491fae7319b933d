import PackedFilters.Config.Pattern

/-!
# Filter policies as configuration strings

`GetId` prints a policy for the OPTIONS file of a database, and
`FilterPolicy::CreateFromString` makes a policy of such a string: it looks for the factory
whose pattern matches, in `table/block_based/filter_policy.cc` of RocksDB and of Speedb.  A
database that is opened with the options it wrote should get the policy it had.

Bits per key are exact rational numbers, and printed as thousandths, without the zeros at
their end.  Of a policy the model has what its id shows: the class, the thousandths, and the
level up to which a Ribbon or Xor policy builds Bloom filters.  The factories are a list for
each engine, in the order in which they are searched; RocksDB has none for the Xor policy,
and the policy has another name there.

* `newXorFilterPolicy`, `FilterPolicy.getId` — a policy, and its id;
* `Engine.factories`, `createFromString` — the factories, and what is made of an id;
* `getBitsPerKeySuffix_readDecimal` — the printed number is read back;
* `roundTrips_iff` — a Xor policy comes back from its own id in Speedb, and nothing does in
  RocksDB, which registers no factory for it.
-/

namespace PackedFilters.Config

open DecimalText

/-! ## Policies -/

/-- The engines that share this code. -/
inductive Engine where
  | rocksdb
  | speedb
  deriving DecidableEq

/-- The classes of policies that have a factory, and the Xor policy. -/
inductive PolicyClass where
  | readOnlyBuiltin
  | bloom
  | ribbon
  | xor
  | legacyBloom
  | fastLocalBloom
  | standard128Ribbon
  | spdbPairedBloom
  deriving DecidableEq

/-- The fields a policy is identified by. -/
structure FilterPolicy where
  policyClass : PolicyClass
  millibitsPerKey : ℕ
  bloomBeforeLevel : ℤ
  deriving DecidableEq

/-- `kBuiltinFilterMetadataName`: the name that all built-in filters are stored under. -/
def kBuiltinFilterMetadataName : List Char := "rocksdb.BuiltinBloomFilter".toList

/-- `kNullptrString`: the text that stands for no policy. -/
def kNullptrString : List Char := "nullptr".toList

/-- `kClassName`, and `kNickName` where the class has one. -/
def PolicyClass.names : PolicyClass → List Char × Option (List Char)
  | .readOnlyBuiltin => (kBuiltinFilterMetadataName, none)
  | .bloom => ("bloomfilter".toList, some "rocksdb.BloomFilter".toList)
  | .ribbon => ("ribbonfilter".toList, some "rocksdb.RibbonFilter".toList)
  | .xor => ("xorfilter".toList, some "rocksdb.XorFilter".toList)
  | .legacyBloom => ("rocksdb.internal.LegacyBloomFilter".toList, none)
  | .fastLocalBloom => ("rocksdb.internal.FastLocalBloomFilter".toList, none)
  | .standard128Ribbon => ("rocksdb.internal.Standard128RibbonFilter".toList, none)
  | .spdbPairedBloom =>
    ("speedb_paired_bloom_filter".toList, some "speedb.PairedBloomFilter".toList)

/-- `Name()`.  The Xor policy of RocksDB is a local class of `NewXorFilterPolicy`, which
returns another name than Speedb's. -/
def FilterPolicy.name (engine : Engine) (p : FilterPolicy) : List Char :=
  match engine, p.policyClass with
  | .rocksdb, .xor => "rocksdb.XorFilter".toList
  | _, policyClass => policyClass.names.1

/-- The constructor of `BloomLikeFilterPolicy` and of `SpdbPairedBloomFilterPolicy` clears up
its argument. -/
def sanitizeBitsPerKey (bitsPerKey : ℚ) : ℚ :=
  if bitsPerKey < 1 / 2 then 0
  else if bitsPerKey < 1 then 1
  else if ¬ bitsPerKey < 100 then 100
  else bitsPerKey

/-- `millibits_per_key_`: the bits per key as thousandths, rounded by half of one and a little
more. -/
def millibitsPerKey (bitsPerKey : ℚ) : ℕ :=
  ⌊sanitizeBitsPerKey bitsPerKey * 1000 + 500001 / 1000000⌋₊

/-- A policy of a class without a level. -/
def newFilterPolicy (policyClass : PolicyClass) (bitsPerKey : ℚ) : FilterPolicy where
  policyClass := policyClass
  millibitsPerKey := millibitsPerKey bitsPerKey
  bloomBeforeLevel := 0

/-- `NewRibbonFilterPolicy`: a Ribbon policy that builds Bloom filters before a level. -/
def newRibbonFilterPolicy (bitsPerKey : ℚ) (bloomBeforeLevel : ℤ) : FilterPolicy :=
  { newFilterPolicy .ribbon bitsPerKey with bloomBeforeLevel := bloomBeforeLevel }

/-- `NewXorFilterPolicy`; RocksDB ignores the level. -/
def newXorFilterPolicy (engine : Engine) (bitsPerKey : ℚ) (bloomBeforeLevel : ℤ) : FilterPolicy :=
  match engine with
  | .rocksdb => newFilterPolicy .xor bitsPerKey
  | .speedb => { newFilterPolicy .xor bitsPerKey with bloomBeforeLevel := bloomBeforeLevel }

/-! ## Ids -/

/-- `GetBitsPerKeySuffix`: a colon, the whole bits, and up to three decimals, of which zeros at
the end are not printed. -/
def getBitsPerKeySuffix (millibitsPerKey : ℕ) : List Char :=
  let rv := ':' :: Nat.toDigits 10 (millibitsPerKey / 1000)
  let frac := millibitsPerKey % 1000
  if 0 < frac then
    let rv := rv ++ ['.'] ++ [Nat.digitChar (frac / 100)]
    let frac := frac % 100
    if 0 < frac then
      let rv := rv ++ [Nat.digitChar (frac / 10)]
      let frac := frac % 10
      if 0 < frac then rv ++ [Nat.digitChar frac] else rv
    else rv
  else rv

/-- `GetId`: the name and the bits per key, and behind them what the class of the policy
adds. -/
def FilterPolicy.getId (engine : Engine) (p : FilterPolicy) : List Char :=
  let bloomLikeId := p.name engine ++ getBitsPerKeySuffix p.millibitsPerKey
  match p.policyClass with
  | .readOnlyBuiltin => p.name engine
  | .bloom => bloomLikeId ++ ":false".toList
  | .ribbon => bloomLikeId ++ ':' :: intText p.bloomBeforeLevel
  | .xor =>
    match engine with
    | .rocksdb => bloomLikeId
    | .speedb => bloomLikeId ++ ':' :: intText p.bloomBeforeLevel
  | _ => bloomLikeId

/-! ## Factories -/

/-- `StringSplit`, with the piece read so far; an empty piece at the end is dropped. -/
def stringSplitLoop (delim : Char) : List Char → List Char → List (List Char)
  | [], item => if item = [] then [] else [item]
  | c :: rest, item =>
    if c = delim then item :: stringSplitLoop delim rest []
    else stringSplitLoop delim rest (item ++ [c])

/-- `StringSplit`: the pieces between the delimiters. -/
def stringSplit (arg : List Char) (delim : Char) : List (List Char) := stringSplitLoop delim arg []

/-- A registered factory: its pattern, and what it makes of an id.  `none` is an exception
of `ParseDouble` or `ParseInt`. -/
structure Factory where
  entry : PatternEntry
  create : List Char → Option FilterPolicy

/-- `ParseDouble(vals[1])`: the second piece of an id, as a number of bits. -/
def parseBits (uri : List Char) : Option ℚ :=
  ((stringSplit uri ':')[1]?).bind readDecimal

/-- `ParseInt(vals[2])`: the third piece of an id, as a level. -/
def parseLevel (uri : List Char) : Option ℤ :=
  ((stringSplit uri ':')[2]?).bind readInt

/-- `FilterPatternEntryWithBits` on the class name, and `AnotherName` on the nick name. -/
def filterPatternEntryWithBits (policyClass : PolicyClass) : PatternEntry :=
  let entry := (PatternEntry.new policyClass.names.1 false).addNumber [':'] false
  match policyClass.names.2 with
  | some nickName => entry.anotherName nickName
  | none => entry

/-- A factory that takes the bits per key from the id. -/
def factoryWithBits (policyClass : PolicyClass) : Factory where
  entry := filterPatternEntryWithBits policyClass
  create uri := (parseBits uri).map (newFilterPolicy policyClass)

/-- The same with a suffix that says nothing any more. -/
def factoryWithSuffix (policyClass : PolicyClass) (suffix : List Char) : Factory where
  entry := (filterPatternEntryWithBits policyClass).addSuffix suffix
  create uri := (parseBits uri).map (newFilterPolicy policyClass)

/-- A factory that takes the bits per key and the level from the id. -/
def factoryWithLevel (policyClass : PolicyClass) (create : ℚ → ℤ → FilterPolicy) : Factory where
  entry := (filterPatternEntryWithBits policyClass).addNumber [':'] true
  create uri := do
    let bitsPerKey ← parseBits uri
    let bloomBeforeLevel ← parseLevel uri
    return create bitsPerKey bloomBeforeLevel

/-- The factory of `ReadOnlyBuiltinFilterPolicy`, under its name alone. -/
def readOnlyFactory : Factory where
  entry := PatternEntry.new kBuiltinFilterMetadataName true
  create _ := some ⟨.readOnlyBuiltin, 0, 0⟩

/-- What `RegisterBuiltinFilterPolicies` of both engines adds first. -/
def leadingFactories : List Factory :=
  [readOnlyFactory, factoryWithBits .bloom, factoryWithSuffix .bloom ":false".toList,
    factoryWithSuffix .bloom ":true".toList, factoryWithBits .ribbon,
    factoryWithLevel .ribbon newRibbonFilterPolicy]

/-- What it adds last. -/
def testFactories : List Factory :=
  [factoryWithBits .legacyBloom, factoryWithBits .fastLocalBloom,
    factoryWithBits .standard128Ribbon]

/-- The factories in the order `FindFactory` searches them: Speedb's plugin library comes
before the default one, and its default library has the Xor policy. -/
def Engine.factories : Engine → List Factory
  | .rocksdb => leadingFactories ++ testFactories
  | .speedb =>
    factoryWithBits .spdbPairedBloom ::
      (leadingFactories ++
        [factoryWithBits .xor, factoryWithLevel .xor (newXorFilterPolicy .speedb)] ++
        testFactories)

/-! ## `CreateFromString` -/

/-- How the making of a policy fails: no factory matches, or a piece of the id is no number. -/
inductive CreateError where
  /-- `Status::NotSupported`. -/
  | notSupported (message target : List Char)
  /-- An exception of `ParseDouble` or `ParseInt`. -/
  | badNumber

/-- `ObjectRegistry::NewSharedObject`: the first factory whose pattern matches the id makes the
policy. -/
def newSharedObject (engine : Engine) (target : List Char) : Except CreateError FilterPolicy :=
  match engine.factories.find? fun factory => factory.entry.isMatch target with
  | none => .error (.notSupported "Could not load FilterPolicy".toList target)
  | some factory =>
    match factory.create target with
    | none => .error .badNumber
    | some policy => .ok policy

/-- `FilterPolicy::CreateFromString` on a value without `=`, which is an id without options;
`none` is a pointer left null. -/
def createFromString (engine : Engine) (ignoreUnsupportedOptions : Bool) (value : List Char) :
    Except CreateError (Option FilterPolicy) :=
  if value = kNullptrString ∨ value = [] then .ok none
  else if value = kBuiltinFilterMetadataName then .ok (some ⟨.readOnlyBuiltin, 0, 0⟩)
  else
    match newSharedObject engine value with
    | .ok policy => .ok (some policy)
    | .error (.notSupported message target) =>
      if ignoreUnsupportedOptions then .ok none else .error (.notSupported message target)
    | .error .badNumber => .error .badNumber

/-! ## Numbers -/

theorem isDigit_digitChar : ∀ d < 10, (Nat.digitChar d).isDigit = true := by decide

/-- A number of thousandths, printed with the digits behind the point that it needs. -/
theorem readDecimal_thousandths {q m : ℕ} {fraction : List Char}
    (hdigits : fraction.all Char.isDigit = true)
    (hvalue : Nat.ofDigitChars 10 fraction q * 1000 = m * 10 ^ fraction.length) :
    readDecimal (Nat.toDigits 10 q ++ '.' :: fraction) = some (m / 1000 : ℚ) := by
  have hpow : (0 : ℚ) < 10 ^ fraction.length := by positivity
  rw [readDecimal_point q hdigits]
  congr 1
  rw [div_eq_div_iff hpow.ne' (by norm_num)]
  exact_mod_cast hvalue

/-- Each digit weighs a tenth of the one before it. -/
theorem ofDigitChars_map_digitChar : ∀ {digits : List ℕ} (q : ℕ), (∀ d ∈ digits, d < 10) →
    Nat.ofDigitChars 10 (digits.map Nat.digitChar) q = digits.foldl (fun v d => 10 * v + d) q := by
  intro digits
  induction digits with
  | nil => exact fun q _ => Nat.ofDigitChars_nil
  | cons d digits ih =>
    intro q h
    obtain ⟨hd, hdigits⟩ := List.forall_mem_cons.1 h
    rw [List.map_cons, Nat.ofDigitChars_cons_digitChar_of_lt_ten hd, ih _ hdigits, List.foldl_cons]

/-- The suffix with its point, as decimal text. -/
theorem suffix_point (m : ℕ) (digits : List ℕ) (h : ∀ d ∈ digits, d < 10)
    (hvalue : digits.foldl (fun v d => 10 * v + d) (m / 1000) * 1000 = m * 10 ^ digits.length) :
    ∃ text, ':' :: (Nat.toDigits 10 (m / 1000) ++ '.' :: digits.map Nat.digitChar) = ':' :: text ∧
      IsDecimal text ∧ readDecimal text = some (m / 1000 : ℚ) := by
  have hdigits : (digits.map Nat.digitChar).all Char.isDigit = true := by
    rw [List.all_map, List.all_eq_true]
    exact fun d hd => isDigit_digitChar d (h d hd)
  refine ⟨_, rfl, .point _ hdigits, readDecimal_thousandths hdigits ?_⟩
  rw [ofDigitChars_map_digitChar _ h, List.length_map]
  exact hvalue

/-- **The printed number** is decimal text, and is read back as the thousandths it was
printed from, whatever trailing zeros were dropped. -/
theorem getBitsPerKeySuffix_readDecimal (m : ℕ) :
    ∃ text, getBitsPerKeySuffix m = ':' :: text ∧ IsDecimal text ∧
      readDecimal text = some (m / 1000 : ℚ) := by
  have hnil : ∀ d ∈ ([] : List ℕ), d < 10 := fun d hd => absurd hd List.not_mem_nil
  have hlt1 : m % 1000 / 100 < 10 := by omega
  have hlt2 : m % 1000 % 100 / 10 < 10 := by omega
  have hlt3 : m % 1000 % 100 % 10 < 10 := by omega
  unfold getBitsPerKeySuffix
  by_cases h1 : 0 < m % 1000
  · by_cases h2 : 0 < m % 1000 % 100
    · by_cases h3 : 0 < m % 1000 % 100 % 10
      · simp only [if_pos h1, if_pos h2, if_pos h3, List.cons_append, List.append_assoc,
          List.nil_append]
        apply suffix_point m [m % 1000 / 100, m % 1000 % 100 / 10, m % 1000 % 100 % 10]
        · exact List.forall_mem_cons.2 ⟨hlt1, List.forall_mem_cons.2
            ⟨hlt2, List.forall_mem_cons.2 ⟨hlt3, hnil⟩⟩⟩
        · simp only [List.foldl_cons, List.foldl_nil, List.length_cons, List.length_nil]
          omega
      · simp only [if_pos h1, if_pos h2, if_neg h3, List.cons_append, List.append_assoc,
          List.nil_append]
        apply suffix_point m [m % 1000 / 100, m % 1000 % 100 / 10]
        · exact List.forall_mem_cons.2 ⟨hlt1, List.forall_mem_cons.2 ⟨hlt2, hnil⟩⟩
        · simp only [List.foldl_cons, List.foldl_nil, List.length_cons, List.length_nil]
          omega
    · simp only [if_pos h1, if_neg h2, List.cons_append, List.append_assoc, List.nil_append]
      apply suffix_point m [m % 1000 / 100]
      · exact List.forall_mem_cons.2 ⟨hlt1, hnil⟩
      · simp only [List.foldl_cons, List.foldl_nil, List.length_cons, List.length_nil]
        omega
  · simp only [if_neg h1]
    refine ⟨_, rfl, .whole _, ?_⟩
    have hwhole : (m : ℚ) = (m / 1000 : ℕ) * 1000 := by
      exact_mod_cast (by omega : m = m / 1000 * 1000)
    rw [readDecimal_toDigits, hwhole]
    congr 1
    rw [mul_div_assoc]
    norm_num

/-! ## Bits per key -/

theorem sanitizeBitsPerKey_range (bitsPerKey : ℚ) :
    sanitizeBitsPerKey bitsPerKey = 0 ∨
      1 ≤ sanitizeBitsPerKey bitsPerKey ∧ sanitizeBitsPerKey bitsPerKey ≤ 100 := by
  unfold sanitizeBitsPerKey
  split
  · exact Or.inl rfl
  · split
    · norm_num
    · rename_i hone
      split
      · norm_num
      · rename_i hhundred
        exact Or.inr ⟨not_lt.1 hone, (not_not.1 hhundred).le⟩

theorem sanitizeBitsPerKey_of_range {x : ℚ} (h : x = 0 ∨ 1 ≤ x ∧ x ≤ 100) :
    sanitizeBitsPerKey x = x := by
  unfold sanitizeBitsPerKey
  cases h with
  | inl hzero => norm_num [hzero]
  | inr hrange =>
    rw [if_neg (by linarith), if_neg (by linarith)]
    split
    · linarith
    · rfl

theorem millibitsPerKey_range (bitsPerKey : ℚ) :
    millibitsPerKey bitsPerKey = 0 ∨
      1000 ≤ millibitsPerKey bitsPerKey ∧ millibitsPerKey bitsPerKey ≤ 100000 := by
  unfold millibitsPerKey
  cases sanitizeBitsPerKey_range bitsPerKey with
  | inl hzero => exact Or.inl (Nat.floor_eq_zero.2 (by norm_num [hzero]))
  | inr hrange =>
    obtain ⟨hlow, hhigh⟩ := hrange
    refine Or.inr ⟨Nat.le_floor (by norm_num; linarith), ?_⟩
    have hlt : ⌊sanitizeBitsPerKey bitsPerKey * 1000 + 500001 / 1000000⌋₊ < 100001 :=
      (Nat.floor_lt' (by norm_num)).2 (by norm_num; linarith)
    omega

/-- Thousandths of what the constructor keeps are kept by the constructor. -/
theorem millibitsPerKey_thousandths {m : ℕ} (h : m = 0 ∨ 1000 ≤ m ∧ m ≤ 100000) :
    millibitsPerKey (m / 1000 : ℚ) = m := by
  have hrange : (m / 1000 : ℚ) = 0 ∨ 1 ≤ (m / 1000 : ℚ) ∧ (m / 1000 : ℚ) ≤ 100 := by
    cases h with
    | inl hzero => simp [hzero]
    | inr hm =>
      have hlow : (1000 : ℚ) ≤ m := by exact_mod_cast hm.1
      have hhigh : (m : ℚ) ≤ 100000 := by exact_mod_cast hm.2
      exact Or.inr ⟨by linarith, by linarith⟩
  unfold millibitsPerKey
  rw [sanitizeBitsPerKey_of_range hrange, div_mul_cancel₀ _ (by norm_num), add_comm,
    Nat.floor_add_natCast (by norm_num)]
  norm_num

/-! ## Pieces of an id -/

theorem stringSplitLoop_piece {delim : Char} : ∀ {piece : List Char} (rest item : List Char),
    delim ∉ piece →
      stringSplitLoop delim (piece ++ delim :: rest) item
        = (item ++ piece) :: stringSplitLoop delim rest [] := by
  intro piece
  induction piece with
  | nil => simp [stringSplitLoop]
  | cons c piece ih =>
    intro rest item h
    rw [List.mem_cons, not_or] at h
    rw [List.cons_append, stringSplitLoop, if_neg (Ne.symm h.1), ih _ _ h.2]
    simp

theorem stringSplitLoop_last {delim : Char} : ∀ {piece : List Char} (item : List Char),
    delim ∉ piece → item ++ piece ≠ [] → stringSplitLoop delim piece item = [item ++ piece] := by
  intro piece
  induction piece with
  | nil =>
    intro item _ hne
    rw [List.append_nil] at hne
    simp [stringSplitLoop, hne]
  | cons c piece ih =>
    intro item h hne
    rw [List.mem_cons, not_or] at h
    rw [stringSplitLoop, if_neg (Ne.symm h.1), ih _ h.2 (by simp)]
    simp

theorem stringSplit_three {delim : Char} {front middle back : List Char} (hfront : delim ∉ front)
    (hmiddle : delim ∉ middle) (hback : delim ∉ back) (hne : back ≠ []) :
    stringSplit (front ++ delim :: (middle ++ delim :: back)) delim = [front, middle, back] := by
  unfold stringSplit
  rw [stringSplitLoop_piece _ _ hfront, stringSplitLoop_piece _ _ hmiddle,
    stringSplitLoop_last _ hback (by simpa using hne)]
  simp

/-! ## Reading an id back -/

/-- The names of a factory all differ from the start of the target. -/
def Factory.diverges (front : List Char) (factory : Factory) : Bool :=
  (factory.entry.name :: factory.entry.names).all (Config.diverges · front)

/-- Such factories are passed over. -/
theorem find?_of_diverges {front : List Char} (rest : List Char) {factories : List Factory}
    (h : factories.all (Factory.diverges front) = true) (more : List Factory) :
    (factories ++ more).find? (fun factory => factory.entry.isMatch (front ++ rest))
      = more.find? fun factory => factory.entry.isMatch (front ++ rest) := by
  rw [List.find?_append, List.find?_eq_none.2, Option.none_or]
  intro factory hfactory
  rw [isMatch_of_diverges rest (List.all_eq_true.1 h factory hfactory)]
  exact Bool.false_ne_true

/-- A value that differs from the reserved ones goes to the registry. -/
theorem createFromString_of_diverges {front : List Char} (rest : List Char)
    (h : [kNullptrString, kBuiltinFilterMetadataName].all (diverges · front) = true)
    (engine : Engine) (ignoreUnsupportedOptions : Bool) :
    createFromString engine ignoreUnsupportedOptions (front ++ rest)
      = match newSharedObject engine (front ++ rest) with
        | .ok policy => .ok (some policy)
        | .error (.notSupported message target) =>
          if ignoreUnsupportedOptions then .ok none else .error (.notSupported message target)
        | .error .badNumber => .error .badNumber := by
  rw [List.all_cons, List.all_cons, List.all_nil, Bool.and_true, Bool.and_eq_true] at h
  have hnull := (take_ne_of_diverges rest h.1).2
  have hbuiltin := (take_ne_of_diverges rest h.2).2
  have hempty : front ++ rest ≠ [] := by
    cases front with
    | nil => exact absurd h.1 (by decide)
    | cons c front => exact List.cons_ne_nil _ _
  unfold createFromString
  rw [if_neg (not_or.2 ⟨Ne.symm hnull, hempty⟩), if_neg (Ne.symm hbuiltin)]

/-- The id of the Xor policy of RocksDB ends with the bits per key, that of Speedb with the
level. -/
theorem getId_xor {p : FilterPolicy} (h : p.policyClass = .xor) :
    p.getId .rocksdb = "rocksdb.XorFilter".toList ++ getBitsPerKeySuffix p.millibitsPerKey ∧
      p.getId .speedb = "xorfilter".toList ++
        (getBitsPerKeySuffix p.millibitsPerKey ++ ':' :: intText p.bloomBeforeLevel) := by
  cases p with
  | mk policyClass m level =>
    subst h
    exact ⟨rfl, List.append_assoc _ _ _⟩

theorem getId_speedb {bitsPerKey : ℚ} {text : List Char} (bloomBeforeLevel : ℤ)
    (h : getBitsPerKeySuffix (millibitsPerKey bitsPerKey) = ':' :: text) :
    (newXorFilterPolicy .speedb bitsPerKey bloomBeforeLevel).getId .speedb
      = "xorfilter".toList ++ ':' :: (text ++ ':' :: intText bloomBeforeLevel) := by
  rw [(getId_xor rfl).2, ← List.cons_append, ← h]
  rfl

theorem getId_rocksdb (bitsPerKey : ℚ) (bloomBeforeLevel : ℤ) :
    (newXorFilterPolicy .rocksdb bitsPerKey bloomBeforeLevel).getId .rocksdb
      = "rocksdb.XorFilter".toList ++ getBitsPerKeySuffix (millibitsPerKey bitsPerKey) :=
  (getId_xor rfl).1

/-- Speedb finds the factory with a number and a level, behind one that asks for the number
only. -/
theorem find?_speedb {text : List Char} (h : IsDecimal text) (bloomBeforeLevel : ℤ) :
    (Engine.factories .speedb).find? (fun factory => factory.entry.isMatch
        ("xorfilter".toList ++ ':' :: (text ++ ':' :: intText bloomBeforeLevel)))
      = some (factoryWithLevel .xor (newXorFilterPolicy .speedb)) := by
  have hbefore : (factoryWithBits .spdbPairedBloom :: leadingFactories).all
      (Factory.diverges "xorfilter".toList) = true := by decide
  have hnick : diverges "rocksdb.XorFilter".toList "xorfilter".toList = true := by decide
  have hbits : (factoryWithBits .xor).entry.isMatch
      ("xorfilter".toList ++ ':' :: (text ++ ':' :: intText bloomBeforeLevel)) = false := by
    have hname := matchesTarget_number (factoryWithBits .xor).entry rfl rfl "xorfilter".toList
      (intText bloomBeforeLevel) h
    have hnames := matchesTarget_of_diverges (factoryWithBits .xor).entry
      (':' :: (text ++ ':' :: intText bloomBeforeLevel)) hnick
    exact Bool.or_eq_false_iff.2 ⟨hname, Bool.or_eq_false_iff.2 ⟨hnames, rfl⟩⟩
  have hlevel : (factoryWithLevel .xor (newXorFilterPolicy .speedb)).entry.isMatch
      ("xorfilter".toList ++ ':' :: (text ++ ':' :: intText bloomBeforeLevel)) = true :=
    Bool.or_eq_true_iff.2 (Or.inl (matchesTarget_numbers _ rfl rfl _ h bloomBeforeLevel))
  have hskip := find?_of_diverges (':' :: (text ++ ':' :: intText bloomBeforeLevel)) hbefore
    ([factoryWithBits .xor, factoryWithLevel .xor (newXorFilterPolicy .speedb)] ++ testFactories)
  refine Eq.trans ?_ (hskip.trans ?_)
  · rfl
  · rw [List.cons_append, List.find?_cons_of_neg (by rw [hbits]; exact Bool.false_ne_true)]
    exact List.find?_cons_of_pos hlevel

/-- That factory reads the two numbers. -/
theorem create_speedb {text : List Char} {bitsPerKey : ℚ} (h : IsDecimal text)
    (hread : readDecimal text = some bitsPerKey) (bloomBeforeLevel : ℤ) :
    (factoryWithLevel .xor (newXorFilterPolicy .speedb)).create
        ("xorfilter".toList ++ ':' :: (text ++ ':' :: intText bloomBeforeLevel))
      = some (newXorFilterPolicy .speedb bitsPerKey bloomBeforeLevel) := by
  have hname : ':' ∉ "xorfilter".toList := by decide
  have htext : ':' ∉ text := h.not_mem (by decide) (by decide)
  have hlast : ':' ∉ intText bloomBeforeLevel := not_mem_intText _ (by decide) (by decide)
  have hpieces := stringSplit_three hname htext hlast (intText_ne_nil bloomBeforeLevel)
  have hbits : parseBits ("xorfilter".toList ++ ':' :: (text ++ ':' :: intText bloomBeforeLevel))
      = some bitsPerKey := by
    rw [parseBits, hpieces]
    exact hread
  have hlevel : parseLevel ("xorfilter".toList ++ ':' :: (text ++ ':' :: intText bloomBeforeLevel))
      = some bloomBeforeLevel := by
    rw [parseLevel, hpieces]
    exact readInt_intText bloomBeforeLevel
  unfold factoryWithLevel
  simp only [hbits, hlevel, Option.bind_eq_bind, Option.bind_some, Option.pure_def]

/-! ## The round trip -/

/-- The policy of `NewXorFilterPolicy` comes back from its id: the id has no `=`, and
`CreateFromString` makes of it a Xor policy with the same thousandths and the same id. -/
def RoundTrips (engine : Engine) (bitsPerKey : ℚ) (bloomBeforeLevel : ℤ) : Prop :=
  let p := newXorFilterPolicy engine bitsPerKey bloomBeforeLevel
  '=' ∉ p.getId engine ∧
    ∀ ignoreUnsupportedOptions : Bool, ∃ q : FilterPolicy,
      createFromString engine ignoreUnsupportedOptions (p.getId engine) = .ok (some q) ∧
        q.policyClass = .xor ∧ q.millibitsPerKey = p.millibitsPerKey ∧
        q.getId engine = p.getId engine

/-- Printing and reading the bits per key gives the same policy. -/
theorem newXorFilterPolicy_thousandths (bitsPerKey : ℚ) (bloomBeforeLevel : ℤ) :
    newXorFilterPolicy .speedb (millibitsPerKey bitsPerKey / 1000) bloomBeforeLevel
      = newXorFilterPolicy .speedb bitsPerKey bloomBeforeLevel := by
  have hm := millibitsPerKey_thousandths (millibitsPerKey_range bitsPerKey)
  simp only [newXorFilterPolicy, newFilterPolicy, hm]

theorem createFromString_speedb (bitsPerKey : ℚ) (bloomBeforeLevel : ℤ)
    (ignoreUnsupportedOptions : Bool) :
    let p := newXorFilterPolicy .speedb bitsPerKey bloomBeforeLevel
    createFromString .speedb ignoreUnsupportedOptions (p.getId .speedb) = .ok (some p) := by
  obtain ⟨text, hsuffix, htext, hread⟩ := getBitsPerKeySuffix_readDecimal (millibitsPerKey bitsPerKey)
  have hcreate := create_speedb htext hread bloomBeforeLevel
  rw [newXorFilterPolicy_thousandths] at hcreate
  intro p
  rw [getId_speedb bloomBeforeLevel hsuffix, createFromString_of_diverges _ (by decide)]
  simp only [newSharedObject, find?_speedb htext bloomBeforeLevel, hcreate]
  rfl

/-- No factory of RocksDB has the name of its Xor policy. -/
theorem newSharedObject_rocksdb (rest : List Char) :
    newSharedObject .rocksdb ("rocksdb.XorFilter".toList ++ rest)
      = .error (.notSupported "Could not load FilterPolicy".toList
          ("rocksdb.XorFilter".toList ++ rest)) := by
  have hall : (Engine.factories .rocksdb).all (Factory.diverges "rocksdb.XorFilter".toList)
      = true := by decide
  have hfind := find?_of_diverges rest hall []
  rw [List.append_nil, List.find?_nil] at hfind
  simp only [newSharedObject, hfind]

theorem createFromString_rocksdb (bitsPerKey : ℚ) (bloomBeforeLevel : ℤ) :
    let id := (newXorFilterPolicy .rocksdb bitsPerKey bloomBeforeLevel).getId .rocksdb
    createFromString .rocksdb false id
        = .error (.notSupported "Could not load FilterPolicy".toList id) ∧
      createFromString .rocksdb true id = .ok none := by
  intro id
  have hid : id = "rocksdb.XorFilter".toList ++ getBitsPerKeySuffix (millibitsPerKey bitsPerKey) :=
    getId_rocksdb bitsPerKey bloomBeforeLevel
  rw [hid]
  constructor
  · rw [createFromString_of_diverges _ (by decide), newSharedObject_rocksdb]
    rfl
  · rw [createFromString_of_diverges _ (by decide), newSharedObject_rocksdb]
    rfl

/-- **The round trip**: a Xor policy comes back from its id exactly in Speedb.  RocksDB
registers no factory for it. -/
theorem roundTrips_iff (engine : Engine) (bitsPerKey : ℚ) (bloomBeforeLevel : ℤ) :
    RoundTrips engine bitsPerKey bloomBeforeLevel ↔ engine = .speedb := by
  cases engine with
  | rocksdb =>
    refine ⟨fun h => ?_, fun h => by cases h⟩
    obtain ⟨-, hcreate⟩ := h
    obtain ⟨q, hq, -⟩ := hcreate true
    rw [(createFromString_rocksdb bitsPerKey bloomBeforeLevel).2] at hq
    cases hq
  | speedb =>
    refine ⟨fun _ => rfl, fun _ => ⟨?_, fun ignoreUnsupportedOptions => ?_⟩⟩
    · obtain ⟨text, hsuffix, htext, -⟩ :=
        getBitsPerKeySuffix_readDecimal (millibitsPerKey bitsPerKey)
      rw [getId_speedb bloomBeforeLevel hsuffix]
      have hlevel := not_mem_intText bloomBeforeLevel (c := '=') (by decide) (by decide)
      have hbits := htext.not_mem (c := '=') (by decide) (by decide)
      simp [hlevel, hbits]
    · exact ⟨_, createFromString_speedb bitsPerKey bloomBeforeLevel ignoreUnsupportedOptions, rfl,
        rfl, rfl⟩

/-- At ten bits per key and level zero RocksDB prints `rocksdb.XorFilter:10`, and does not
support it; with `ignore_unsupported_options` the pointer stays null. -/
theorem xorFilter_ten_unsupported :
    (newXorFilterPolicy .rocksdb 10 0).getId .rocksdb = "rocksdb.XorFilter:10".toList ∧
      createFromString .rocksdb false "rocksdb.XorFilter:10".toList
        = .error (.notSupported "Could not load FilterPolicy".toList
            "rocksdb.XorFilter:10".toList) ∧
      createFromString .rocksdb true "rocksdb.XorFilter:10".toList = .ok none ∧
      ¬ RoundTrips .rocksdb 10 0 := by
  have hid : (newXorFilterPolicy .rocksdb 10 0).getId .rocksdb
      = "rocksdb.XorFilter:10".toList := by
    have hm : millibitsPerKey 10 = 10000 := by
      unfold millibitsPerKey sanitizeBitsPerKey
      norm_num
    rw [getId_rocksdb, hm]
    decide
  have hcreate := createFromString_rocksdb 10 0
  rw [hid] at hcreate
  refine ⟨hid, hcreate.1, hcreate.2, fun h => ?_⟩
  obtain ⟨q, hq, -⟩ := h.2 true
  rw [hid, hcreate.2] at hq
  cases hq

end PackedFilters.Config
