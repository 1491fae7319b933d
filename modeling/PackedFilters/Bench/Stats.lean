import Mathlib

/-!
# Benchmark statistics

The `Stats` that `benchmarks/db_bench.cc` of LevelDB and `tools/db_bench_tool.cc` of RocksDB
keep for every thread, merge when the threads are done, and print as a line.  Clock readings
are in microseconds.  Numbers are exact: a printed one is a single character of the log, with
all the decimals that `printf` drops.

A benchmark may add a message to its `Stats`, which is printed behind the numbers.  The
engines do not add the same one (RocksDB's `ReadRandom` ends its message with a line end of
its own, LevelDB's does not), so a thread has a message for either; all that is asked of them
is that they are not taken for a result of their own (`PlainMessage`).

`ReadWhileWriting` has one thread that writes in the background.  LevelDB starts the
statistics of that thread anew when the writing is over, so they hold no operation and a
short time at the end; RocksDB excludes them from the merge.  Such a thread is marked
`background`, and a run without one is a run in which no thread is.

* `BenchmarkRun.leveldbStats`, `BenchmarkRun.rocksdbStats` — what the engines merge, and
  `leveldbStats_eq`, `rocksdbStats_eq` what it amounts to;
* `report_eq`, `reportRocksDb_eq` — the pieces of the printed lines;
* `report_head`, `reportRocksDb_head` — a line whose message goes on behind its first line
  end is the line without the rest of the message, and that rest.
-/

namespace PackedFilters.Bench

/-! ## Text with numbers -/

/-- A character of a log; a number stands for its digits. -/
inductive LogChar where
  | char (c : Char)
  | number (x : ℚ)
  deriving DecidableEq

def chars (text : List Char) : List LogChar := text.map .char

def blanks (n : ℕ) : List LogChar := List.replicate n (.char ' ')

/-- A text without an end of a line. -/
def OneLine (l : List LogChar) : Prop :=
  (l.all fun c => decide (c ≠ .char '\n') && decide (c ≠ .char '\r')) = true

/-- A number with so many decimals, at the right of a field. -/
def field (width decimals : ℕ) (x : ℚ) : List LogChar :=
  blanks (width - ((Nat.toDigits 10 ⌊x⌋₊).length + 1 + decimals)) ++ [.number x]

/-- `AppendWithSpace`: `msg` behind `str`, with a space between them if `str` has text; an
empty `msg` changes nothing. -/
def appendWithSpace {α : Type} [DecidableEq α] (space : α) (str msg : List α) : List α :=
  if msg = [] then str else (if str = [] then str else str ++ [space]) ++ msg

/-! ## `Stats` -/

/-- `Stats`, as far as `Report` prints it.  LevelDB counts operations in an `int` and has no
`exclude_from_merge_`; a run whose operations do not fit in that `int` is not a finished run
(`FinishedRun.done_lt`). -/
structure Stats where
  start : ℚ
  finish : ℚ
  seconds : ℚ
  done : ℕ
  bytes : ℕ
  message : List Char
  excludeFromMerge : Bool

namespace Stats

/-- `Start`: nothing counted, and the clock read. -/
def startAt (now : ℚ) : Stats where
  start := now
  finish := now
  seconds := 0
  done := 0
  bytes := 0
  message := []
  excludeFromMerge := false

/-- `FinishedSingleOp`, so many times, or `FinishedOps`. -/
def finishedOps (s : Stats) (numOps : ℕ) : Stats := { s with done := s.done + numOps }

/-- `AddBytes`: so many bytes more were read or written. -/
def addBytes (s : Stats) (n : ℕ) : Stats := { s with bytes := s.bytes + n }

/-- `AddMessage`: one more message behind those added so far. -/
def addMessage (s : Stats) (msg : List Char) : Stats :=
  { s with message := appendWithSpace ' ' s.message msg }

/-- `SetExcludeFromMerge` of RocksDB, which `BGWriter` calls. -/
def setExcludeFromMerge (s : Stats) : Stats := { s with excludeFromMerge := true }

/-- `Stop`: the clock is read again, and the seconds since the start are kept. -/
def stop (s : Stats) (now : ℚ) : Stats :=
  { s with finish := now, seconds := (now - s.start) / 1000000 }

/-- `Merge` of LevelDB: counts and seconds are added up, the start is the earlier and the
finish the later one, and the first message stays. -/
def merge (s other : Stats) : Stats :=
  { s with
    done := s.done + other.done
    bytes := s.bytes + other.bytes
    seconds := s.seconds + other.seconds
    start := if other.start < s.start then other.start else s.start
    finish := if other.finish > s.finish then other.finish else s.finish
    message := if s.message = [] then other.message else s.message }

/-- `Merge` of RocksDB: the same, unless the other thread is excluded. -/
def mergeRocksDb (s other : Stats) : Stats :=
  if other.excludeFromMerge then s else s.merge other

/-! ## `Report` -/

/-- The count that `Report` divides by: at least one operation is pretended. -/
def reportedDone (s : Stats) : ℕ := if s.done < 1 then 1 else s.done

/-- The time on the clock between the first start and the last finish, in seconds. -/
def elapsed (s : Stats) : ℚ := (s.finish - s.start) / 1000000

def microsPerOp (s : Stats) : ℚ := s.seconds * 1000000 / s.reportedDone

/-- The rate of bytes. -/
def rate (s : Stats) : List LogChar :=
  if 0 < s.bytes then field 6 1 (s.bytes / 1048576 / s.elapsed) ++ chars " MB/s".toList else []

/-- The rate and the message. -/
def extra (s : Stats) : List LogChar := appendWithSpace (.char ' ') s.rate (chars s.message)

/-- The end of a line. -/
def lineEnd (s : Stats) : List LogChar :=
  (if s.extra = [] then [] else blanks 1) ++ s.extra ++ chars ['\n']

/-- The line that `Report` of LevelDB prints: the name, the latency, the rate of bytes and
the message. -/
def report (s : Stats) (name : List Char) : List LogChar :=
  chars name ++ blanks (12 - name.length) ++ chars " : ".toList ++ field 11 3 s.microsPerOp ++
    chars " micros/op;".toList ++ s.lineEnd

/-- The line that `Report` of RocksDB prints, with the throughput and the time on the clock
between the latency and the rest. -/
def reportRocksDb (s : Stats) (name : List Char) : List LogChar :=
  let throughput : ℚ := s.reportedDone / s.elapsed
  chars name ++ blanks (12 - name.length) ++ chars " : ".toList ++ field 11 3 s.microsPerOp ++
    chars " micros/op ".toList ++ [.number ⌊throughput⌋₊] ++ chars " ops/sec ".toList ++
    field 0 3 s.elapsed ++ chars " seconds ".toList ++ [.number s.reportedDone] ++
    chars " operations;".toList ++ s.lineEnd

end Stats

/-! ## Runs -/

/-- `\w` of the regular expressions, in ASCII.  In Python it takes the letters and digits of
every script; what `Report` prints as a name is ASCII. -/
def isWordChar (c : Char) : Bool := c.isAlphanum || decide (c = '_')

/-- What `AddMessage` is given: nothing, or a remark that starts with a parenthesis or a
letter, of one line or more, and mentions neither a latency nor a rate of its own. -/
structure PlainMessage (text : List Char) : Prop where
  remark : ∀ c ∈ text.head?, c = '(' ∨ c.isAlpha = true
  noReturn : '\r' ∉ text
  noLatency : ¬ "micros/op".toList <:+: text
  noRate : ¬ "ops/sec".toList <:+: text

/-- What a thread has done between two readings of the clock, and the message that either
engine's benchmark adds for it.  A `background` thread is the writer of `ReadWhileWriting`. -/
structure ThreadRun where
  start : ℚ
  finish : ℚ
  done : ℕ
  bytes : ℕ
  message : List Char
  messageRocksDb : List Char
  background : Bool
  ordered : start ≤ finish
  plain : PlainMessage message
  plainRocksDb : PlainMessage messageRocksDb

/-- The `Stats` of a thread at the end of LevelDB's `ThreadBody`. -/
def ThreadRun.stats (t : ThreadRun) : Stats :=
  ((((Stats.startAt t.start).finishedOps t.done).addBytes t.bytes).addMessage t.message).stop
    t.finish

/-- The `Stats` of a thread at the end of RocksDB's `ThreadBody`. -/
def ThreadRun.statsRocksDb (t : ThreadRun) : Stats :=
  let started :=
    if t.background then (Stats.startAt t.start).setExcludeFromMerge else Stats.startAt t.start
  (((started.finishedOps t.done).addBytes t.bytes).addMessage t.messageRocksDb).stop t.finish

/-- A benchmark, its threads, and the clock when RocksDB makes `merge_stats`. -/
structure BenchmarkRun where
  name : List Char
  first : ThreadRun
  others : List ThreadRun
  mergedAt : ℚ

namespace BenchmarkRun

def threads (run : BenchmarkRun) : List ThreadRun := run.first :: run.others

def totalDone (run : BenchmarkRun) : ℕ := (run.threads.map ThreadRun.done).sum

/-- The times of the threads, added up. -/
def threadSeconds (run : BenchmarkRun) : ℚ :=
  (run.threads.map fun t => (t.finish - t.start) / 1000000).sum

def firstStart (run : BenchmarkRun) : ℚ := (run.others.map ThreadRun.start).foldl min run.first.start

def lastFinish (run : BenchmarkRun) : ℚ :=
  (run.others.map ThreadRun.finish).foldl max run.first.finish

/-- The time on the clock, in seconds. -/
def elapsed (run : BenchmarkRun) : ℚ := (run.lastFinish - run.firstStart) / 1000000

/-- The throughput of a run: the operations of all threads over the time on the clock. -/
def throughput (run : BenchmarkRun) : ℚ := run.totalDone / run.elapsed

/-- What `RunBenchmark` of LevelDB reports: the first thread's `Stats`, merged with the rest. -/
def leveldbStats (run : BenchmarkRun) : Stats :=
  run.others.foldl (fun s t => s.merge t.stats) run.first.stats

/-- What `RunBenchmark` of RocksDB reports: a new `Stats`, merged with all of them. -/
def rocksdbStats (run : BenchmarkRun) : Stats :=
  run.threads.foldl (fun s t => s.mergeRocksDb t.statsRocksDb) (Stats.startAt run.mergedAt)

/-- The log of LevelDB. -/
def leveldbLog (run : BenchmarkRun) : List LogChar := run.leveldbStats.report run.name

/-- The log of RocksDB. -/
def rocksdbLog (run : BenchmarkRun) : List LogChar := run.rocksdbStats.reportRocksDb run.name

end BenchmarkRun

/-- A run that is over: the statistics are merged behind the last thread, something was done
and time has passed.  The name of a benchmark is a word.  LevelDB adds up the operations in
an `int` and the bytes in an `int64_t`, and both hold them.  A thread in the background has no
operations in its statistics, and they start no earlier than those of the other threads. -/
structure FinishedRun extends BenchmarkRun where
  name_ne : name ≠ []
  name_word : name.all isWordChar = true
  finished : ∀ t ∈ toBenchmarkRun.threads, t.finish ≤ mergedAt
  done_pos : 0 < toBenchmarkRun.totalDone
  done_lt : toBenchmarkRun.totalDone < 2147483648
  bytes_lt : (toBenchmarkRun.threads.map ThreadRun.bytes).sum < 9223372036854775808
  background_done : ∀ t ∈ toBenchmarkRun.threads, t.background = true → t.done = 0
  background_start : ∀ t ∈ toBenchmarkRun.threads, t.background = true →
    ∀ u ∈ toBenchmarkRun.threads, u.background = false → u.start ≤ t.start
  elapsed_pos : 0 < toBenchmarkRun.elapsed

/-! ## Merging -/

@[simp] theorem ThreadRun.stats_start (t : ThreadRun) : t.stats.start = t.start := rfl

@[simp] theorem ThreadRun.stats_finish (t : ThreadRun) : t.stats.finish = t.finish := rfl

@[simp] theorem ThreadRun.stats_seconds (t : ThreadRun) :
    t.stats.seconds = (t.finish - t.start) / 1000000 := rfl

@[simp] theorem ThreadRun.stats_done (t : ThreadRun) : t.stats.done = t.done := Nat.zero_add _

theorem appendWithSpace_nil {α : Type} [DecidableEq α] (space : α) (msg : List α) :
    appendWithSpace space [] msg = msg := by
  unfold appendWithSpace
  split
  · rename_i h
    exact h.symm
  · rfl

@[simp] theorem ThreadRun.stats_message (t : ThreadRun) : t.stats.message = t.message :=
  appendWithSpace_nil ' ' t.message

namespace Stats

@[simp] theorem merge_start (s other : Stats) : (s.merge other).start = min s.start other.start := by
  unfold merge
  rw [min_comm, min_def_lt]

@[simp] theorem merge_finish (s other : Stats) :
    (s.merge other).finish = max s.finish other.finish := by
  unfold merge
  rw [max_def_lt]

/-- What a run of merges adds to a `Stats`. -/
theorem foldl_merge : ∀ (l : List Stats) (s : Stats),
    (l.foldl merge s).done = s.done + (l.map Stats.done).sum ∧
      (l.foldl merge s).seconds = s.seconds + (l.map Stats.seconds).sum ∧
      (l.foldl merge s).start = (l.map Stats.start).foldl min s.start ∧
      (l.foldl merge s).finish = (l.map Stats.finish).foldl max s.finish := by
  intro l
  induction l with
  | nil => simp
  | cons other l ih =>
    intro s
    obtain ⟨hdone, hseconds, hstart, hfinish⟩ := ih (s.merge other)
    refine ⟨?_, ?_, ?_, ?_⟩
    · rw [List.foldl_cons, hdone]
      simp [merge, Nat.add_assoc]
    · rw [List.foldl_cons, hseconds]
      simp [merge, add_assoc]
    · rw [List.foldl_cons, hstart]
      simp
    · rw [List.foldl_cons, hfinish]
      simp

/-- The message is one of those that were merged. -/
theorem foldl_merge_plain : ∀ (l : List Stats) (s : Stats), PlainMessage s.message →
    (∀ other ∈ l, PlainMessage other.message) → PlainMessage (l.foldl merge s).message := by
  intro l
  induction l with
  | nil => exact fun s h _ => h
  | cons other l ih =>
    intro s h hl
    refine ih _ ?_ fun x hx => hl x (List.mem_cons_of_mem _ hx)
    show PlainMessage (if s.message = [] then other.message else s.message)
    split
    · exact hl other List.mem_cons_self
    · exact h

/-- RocksDB merges what is left when the excluded ones are taken out. -/
theorem foldl_mergeRocksDb : ∀ (l : List Stats) (s : Stats),
    l.foldl mergeRocksDb s = (l.filter fun other => !other.excludeFromMerge).foldl merge s := by
  intro l
  induction l with
  | nil => exact fun s => rfl
  | cons other l ih =>
    intro s
    rw [List.foldl_cons, ih, mergeRocksDb]
    cases h : other.excludeFromMerge with
    | true => rw [if_pos rfl, List.filter_cons_of_neg (by simp [h])]
    | false => rw [if_neg Bool.false_ne_true, List.filter_cons_of_pos (by simp [h]), List.foldl_cons]

end Stats

/-! ## The statistics of RocksDB's threads -/

namespace ThreadRun

variable (t : ThreadRun)

@[simp] theorem statsRocksDb_start : t.statsRocksDb.start = t.start := by
  unfold statsRocksDb
  cases t.background <;> rfl

@[simp] theorem statsRocksDb_finish : t.statsRocksDb.finish = t.finish := rfl

@[simp] theorem statsRocksDb_done : t.statsRocksDb.done = t.done := by
  unfold statsRocksDb
  cases t.background <;> exact Nat.zero_add _

@[simp] theorem statsRocksDb_message : t.statsRocksDb.message = t.messageRocksDb := by
  unfold statsRocksDb
  cases t.background <;> exact appendWithSpace_nil ' ' _

@[simp] theorem statsRocksDb_excludeFromMerge :
    t.statsRocksDb.excludeFromMerge = t.background := by
  unfold statsRocksDb
  cases t.background <;> rfl

end ThreadRun

/-! ## Sums and extrema -/

theorem foldl_max_of_le : ∀ {l : List ℚ} {x : ℚ}, (∀ y ∈ l, y ≤ x) → l.foldl max x = x := by
  intro l
  induction l with
  | nil => exact fun _ => rfl
  | cons y l ih =>
    intro x h
    rw [List.foldl_cons, max_eq_left (h y List.mem_cons_self)]
    exact ih fun z hz => h z (List.mem_cons_of_mem _ hz)

theorem le_foldl_min_iff {z : ℚ} : ∀ {l : List ℚ} {x : ℚ},
    z ≤ l.foldl min x ↔ z ≤ x ∧ ∀ y ∈ l, z ≤ y := by
  intro l
  induction l with
  | nil => simp
  | cons y l ih =>
    intro x
    rw [List.foldl_cons, ih, le_min_iff, List.forall_mem_cons, and_assoc]

/-- A sum without terms that are zero. -/
theorem sum_map_filter {α : Type} {p : α → Bool} {f : α → ℕ} : ∀ {l : List α},
    (∀ a ∈ l, p a = false → f a = 0) → ((l.filter p).map f).sum = (l.map f).sum := by
  intro l
  induction l with
  | nil => exact fun _ => rfl
  | cons a l ih =>
    intro h
    have hrest := ih fun b hb => h b (List.mem_cons_of_mem _ hb)
    rw [List.map_cons, List.sum_cons]
    cases ha : p a with
    | true => rw [List.filter_cons_of_pos ha, List.map_cons, List.sum_cons, hrest]
    | false =>
      rw [List.filter_cons_of_neg (by simp [ha]), hrest, h a List.mem_cons_self ha, Nat.zero_add]

/-! ## The merged statistics -/

namespace BenchmarkRun

variable (run : BenchmarkRun)

/-- LevelDB merges to the totals of the run. -/
theorem leveldbStats_eq :
    run.leveldbStats.done = run.totalDone ∧ run.leveldbStats.seconds = run.threadSeconds ∧
      run.leveldbStats.elapsed = run.elapsed := by
  obtain ⟨hdone, hseconds, hstart, hfinish⟩ :=
    Stats.foldl_merge (run.others.map ThreadRun.stats) run.first.stats
  rw [List.foldl_map] at hdone hseconds hstart hfinish
  rw [List.map_map] at hdone hseconds hstart hfinish
  have hdoneEach : Stats.done ∘ ThreadRun.stats = ThreadRun.done := funext ThreadRun.stats_done
  refine ⟨?_, ?_, ?_⟩
  · rw [run.first.stats_done, hdoneEach] at hdone
    exact hdone
  · exact hseconds
  · unfold Stats.elapsed elapsed
    exact congrArg₂ (fun x y : ℚ => (x - y) / 1000000) hfinish hstart

theorem leveldbStats_plain : PlainMessage run.leveldbStats.message := by
  have hplain (t : ThreadRun) : PlainMessage t.stats.message := by
    rw [t.stats_message]
    exact t.plain
  have hmerged := Stats.foldl_merge_plain (run.others.map ThreadRun.stats) run.first.stats
    (hplain run.first) fun s hs => by
      obtain ⟨t, -, rfl⟩ := List.mem_map.1 hs
      exact hplain t
  rw [List.foldl_map] at hmerged
  exact hmerged

/-- The threads whose statistics RocksDB merges. -/
def mergedThreads (run : BenchmarkRun) : List ThreadRun := run.threads.filter fun t => !t.background

theorem rocksdbStats_eq_foldl :
    run.rocksdbStats = (run.mergedThreads.map ThreadRun.statsRocksDb).foldl Stats.merge
      (Stats.startAt run.mergedAt) := by
  have hfilter : (run.threads.map ThreadRun.statsRocksDb).filter
      (fun other => !other.excludeFromMerge) = run.mergedThreads.map ThreadRun.statsRocksDb := by
    rw [List.filter_map, mergedThreads]
    congr 2
    funext t
    exact congrArg not t.statsRocksDb_excludeFromMerge
  rw [rocksdbStats, ← List.foldl_map, Stats.foldl_mergeRocksDb, hfilter]

/-- The time on the clock when RocksDB merges. -/
def mergedElapsed : ℚ := (run.mergedAt - run.firstStart) / 1000000

end BenchmarkRun

theorem plainMessage_nil : PlainMessage [] where
  remark := by
    rintro c ⟨⟩
  noReturn := List.not_mem_nil
  noLatency := by decide
  noRate := by decide

-- what `ReadRandom` of RocksDB adds
example : PlainMessage "(63 of 100 found)\n".toList where
  remark := by
    rintro c ⟨⟩
    exact Or.inl rfl
  noReturn := by decide
  noLatency := by decide
  noRate := by decide

namespace FinishedRun

variable (run : FinishedRun)

/-- Something was done by a thread that is not in the background. -/
theorem exists_merged : ∃ t ∈ run.threads, t.background = false := by
  by_contra hnone
  have hzero : run.totalDone = 0 := by
    refine List.sum_eq_zero fun n hn => ?_
    obtain ⟨t, ht, rfl⟩ := List.mem_map.1 hn
    refine run.background_done t ht ?_
    cases hback : t.background with
    | true => rfl
    | false => exact absurd ⟨t, ht, hback⟩ hnone
  exact absurd run.done_pos (by omega)

/-- The first start is that of a thread which RocksDB merges. -/
theorem foldl_min_merged :
    (run.mergedThreads.map ThreadRun.start).foldl min run.mergedAt = run.firstStart := by
  refine eq_of_forall_le_iff fun z => ?_
  have hfirst : z ≤ run.firstStart ↔ ∀ t ∈ run.threads, z ≤ t.start := by
    rw [BenchmarkRun.firstStart, le_foldl_min_iff, BenchmarkRun.threads, List.forall_mem_cons,
      List.forall_mem_map]
  rw [le_foldl_min_iff, hfirst, List.forall_mem_map]
  obtain ⟨u, hu, huback⟩ := run.exists_merged
  constructor
  · rintro ⟨-, hmerged⟩ t ht
    have hkept (t : ThreadRun) (ht : t ∈ run.threads) (h : t.background = false) : z ≤ t.start :=
      hmerged t (List.mem_filter.2 ⟨ht, by rw [h]; rfl⟩)
    cases hback : t.background with
    | true => exact (hkept u hu huback).trans (run.background_start t ht hback u hu huback)
    | false => exact hkept t ht hback
  · intro h
    exact ⟨(h u hu).trans (u.ordered.trans (run.finished u hu)),
      fun t ht => h t (List.mem_filter.1 ht).1⟩

/-- RocksDB merges to the operations of the run, and to the time until it merges. -/
theorem rocksdbStats_eq :
    run.rocksdbStats.done = run.totalDone ∧ run.rocksdbStats.elapsed = run.mergedElapsed := by
  obtain ⟨hdone, -, hstart, hfinish⟩ := Stats.foldl_merge
    (run.mergedThreads.map ThreadRun.statsRocksDb) (Stats.startAt run.mergedAt)
  rw [← run.rocksdbStats_eq_foldl, List.map_map] at hdone hstart hfinish
  have hdoneEach : Stats.done ∘ ThreadRun.statsRocksDb = ThreadRun.done :=
    funext ThreadRun.statsRocksDb_done
  have hstartEach : Stats.start ∘ ThreadRun.statsRocksDb = ThreadRun.start :=
    funext ThreadRun.statsRocksDb_start
  have hsum : (run.mergedThreads.map ThreadRun.done).sum = run.totalDone :=
    sum_map_filter fun t ht hback => run.background_done t ht (by simpa using hback)
  have hmax : (run.mergedThreads.map ThreadRun.finish).foldl max run.mergedAt = run.mergedAt := by
    apply foldl_max_of_le
    intro y hy
    obtain ⟨t, ht, rfl⟩ := List.mem_map.1 hy
    exact run.finished t (List.mem_filter.1 ht).1
  refine ⟨?_, ?_⟩
  · rw [hdoneEach, hsum] at hdone
    exact hdone.trans (Nat.zero_add _)
  · rw [hstartEach] at hstart
    unfold Stats.elapsed BenchmarkRun.mergedElapsed
    exact congrArg₂ (fun x y : ℚ => (x - y) / 1000000) (hfinish.trans hmax)
      (hstart.trans run.foldl_min_merged)

theorem rocksdbStats_plain : PlainMessage run.rocksdbStats.message := by
  rw [run.rocksdbStats_eq_foldl]
  refine Stats.foldl_merge_plain _ _ plainMessage_nil fun s hs => ?_
  obtain ⟨t, -, rfl⟩ := List.mem_map.1 hs
  rw [t.statsRocksDb_message]
  exact t.plainRocksDb

end FinishedRun

/-! ## Lines -/

/-- A number behind some blanks. -/
theorem field_eq (width decimals : ℕ) (x : ℚ) :
    ∃ n, field width decimals x = blanks n ++ [.number x] := ⟨_, rfl⟩

theorem blanks_succ (n : ℕ) : blanks (n + 1) = blanks 1 ++ blanks n := rfl

theorem blanks_succ' (n : ℕ) : blanks (n + 1) = blanks n ++ blanks 1 := List.replicate_succ'

namespace Stats

variable (s : Stats) (name : List Char)

/-- The message, behind a blank, and the end of the line. -/
def messageEnd : List Char := (if s.message = [] then [] else ' ' :: s.message) ++ ['\n']

theorem lineEnd_eq :
    s.lineEnd = (if s.rate = [] then [] else blanks 1 ++ s.rate) ++ chars s.messageEnd := by
  unfold lineEnd extra appendWithSpace messageEnd
  by_cases hmessage : s.message = []
  · by_cases hrate : s.rate = []
    · simp [hmessage, hrate, chars]
    · simp [hmessage, hrate, chars]
  · by_cases hrate : s.rate = []
    · simp [hmessage, hrate, chars, blanks]
    · simp [hmessage, hrate, chars, blanks]

/-- A rate that is printed. -/
theorem rate_eq (hbytes : 0 < s.bytes) : ∃ n, s.rate
    = blanks n ++ ([.number (s.bytes / 1048576 / s.elapsed)] ++ (blanks 1 ++
        chars "MB/s".toList)) := by
  obtain ⟨n, hfield⟩ := field_eq 6 1 (s.bytes / 1048576 / s.elapsed)
  have hmb : chars " MB/s".toList = blanks 1 ++ chars "MB/s".toList := by simp [chars, blanks]
  refine ⟨n, ?_⟩
  rw [rate, if_pos hbytes, hfield, hmb, List.append_assoc]

/-- The end of a line without a rate, and of one with a rate. -/
theorem lineEnd_of_bytes :
    (¬ 0 < s.bytes → s.lineEnd = chars s.messageEnd) ∧
      (0 < s.bytes → ∃ n, s.lineEnd = blanks (n + 1) ++ ([.number (s.bytes / 1048576 / s.elapsed)] ++
        (blanks 1 ++ (chars "MB/s".toList ++ chars s.messageEnd)))) := by
  constructor
  · intro hbytes
    have hrate : s.rate = [] := if_neg hbytes
    rw [s.lineEnd_eq, if_pos hrate, List.nil_append]
  · intro hbytes
    obtain ⟨n, hrate⟩ := s.rate_eq hbytes
    have hne : s.rate ≠ [] := by
      rw [hrate]
      simp
    refine ⟨n, ?_⟩
    rw [s.lineEnd_eq, if_neg hne, hrate, blanks_succ n]
    simp only [List.append_assoc]

/-- A line of LevelDB: the name, the number and the end, with blanks between them. -/
theorem report_eq : ∃ m n, s.report name
    = chars name ++ (blanks (m + 1) ++ (chars [':'] ++ (blanks (n + 1) ++
        ([.number s.microsPerOp] ++ (blanks 1 ++ (chars "micros/op".toList ++ (chars [';'] ++
          s.lineEnd))))))) := by
  obtain ⟨n, hfield⟩ := field_eq 11 3 s.microsPerOp
  refine ⟨12 - name.length, n, ?_⟩
  have hcolon : chars " : ".toList = blanks 1 ++ (chars [':'] ++ blanks 1) := by
    simp [chars, blanks]
  have hmicros : chars " micros/op;".toList
      = blanks 1 ++ (chars "micros/op".toList ++ chars [';']) := by simp [chars, blanks]
  rw [report, hfield, hcolon, hmicros, blanks_succ' (12 - name.length), blanks_succ n]
  simp only [List.append_assoc]

/-- A line of RocksDB. -/
theorem reportRocksDb_eq : ∃ m n k, s.reportRocksDb name
    = chars name ++ (blanks (m + 1) ++ (chars [':'] ++ (blanks (n + 1) ++
        ([.number s.microsPerOp] ++ (blanks 1 ++ (chars "micros/op".toList ++ (blanks 1 ++
          ([.number (⌊(s.reportedDone / s.elapsed : ℚ)⌋₊ : ℚ)] ++ (blanks 1 ++
            (chars "ops/sec".toList ++ (blanks (k + 1) ++ ([.number s.elapsed] ++ (blanks 1 ++
              (chars "seconds".toList ++ (blanks 1 ++ ([.number s.reportedDone] ++ (blanks 1 ++
                (chars "operations".toList ++ (chars [';'] ++ s.lineEnd))))))))))))))))))) := by
  obtain ⟨n, hmicrosField⟩ := field_eq 11 3 s.microsPerOp
  obtain ⟨k, helapsedField⟩ := field_eq 0 3 s.elapsed
  refine ⟨12 - name.length, n, k, ?_⟩
  have hcolon : chars " : ".toList = blanks 1 ++ (chars [':'] ++ blanks 1) := by
    simp [chars, blanks]
  have hmicros : chars " micros/op ".toList
      = blanks 1 ++ (chars "micros/op".toList ++ blanks 1) := by simp [chars, blanks]
  have hops : chars " ops/sec ".toList = blanks 1 ++ (chars "ops/sec".toList ++ blanks 1) := by
    simp [chars, blanks]
  have hseconds : chars " seconds ".toList
      = blanks 1 ++ (chars "seconds".toList ++ blanks 1) := by simp [chars, blanks]
  have hoperations : chars " operations;".toList
      = blanks 1 ++ (chars "operations".toList ++ chars [';']) := by simp [chars, blanks]
  rw [reportRocksDb, hmicrosField, helapsedField, hcolon, hmicros, hops, hseconds, hoperations,
    blanks_succ' (12 - name.length), blanks_succ n, blanks_succ k]
  simp only [List.append_assoc]

/-! ## Messages of several lines -/

/-- The statistics with the first line of the message alone. -/
def head : Stats := { s with message := s.message.takeWhile (· ≠ '\n') }

/-- What is printed behind the first line: the rest of the message and the line end of
`Report`, if the message has a line end of its own. -/
def furtherLines : List Char :=
  match s.message.dropWhile (· ≠ '\n') with
  | [] => []
  | _ :: rest => rest ++ ['\n']

variable {s}

theorem head_plain (hplain : PlainMessage s.message) : PlainMessage s.head.message where
  remark := by
    intro c hc
    refine hplain.remark c ?_
    unfold head at hc
    cases hmessage : s.message with
    | nil =>
      rw [hmessage] at hc
      exact hc
    | cons d rest =>
      simp only [hmessage, List.takeWhile_cons] at hc
      split at hc
      · exact hc
      · cases hc
  noReturn := fun h => hplain.noReturn ((List.takeWhile_sublist _).subset h)
  noLatency := fun h => hplain.noLatency (h.trans (List.takeWhile_prefix _).isInfix)
  noRate := fun h => hplain.noRate (h.trans (List.takeWhile_prefix _).isInfix)

theorem head_oneLine (hplain : PlainMessage s.message) : OneLine (chars s.head.message) := by
  unfold OneLine chars
  rw [List.all_map, List.all_eq_true]
  intro c hc
  have hline : c ≠ '\n' := by simpa using List.mem_takeWhile_imp hc
  have hreturn : c ≠ '\r' := by
    rintro rfl
    exact (head_plain hplain).noReturn hc
  simp [hline, hreturn]

theorem messageEnd_head (hplain : PlainMessage s.message) :
    s.messageEnd = s.head.messageEnd ++ s.furtherLines := by
  have hsplit : s.message.takeWhile (· ≠ '\n') ++ s.message.dropWhile (· ≠ '\n') = s.message :=
    List.takeWhile_append_dropWhile
  unfold furtherLines
  cases hrest : s.message.dropWhile (· ≠ '\n') with
  | nil =>
    rw [hrest, List.append_nil] at hsplit
    show s.messageEnd = s.head.messageEnd ++ []
    rw [List.append_nil, messageEnd, messageEnd, head, hsplit]
  | cons c rest =>
    have hc : c = '\n' := by
      have := List.head?_dropWhile_not (· ≠ '\n') s.message
      rw [hrest] at this
      simpa using this
    have hne : s.message ≠ [] := by
      intro hnil
      rw [hnil] at hrest
      cases hrest
    obtain ⟨line, hline⟩ : ∃ line, s.message.takeWhile (· ≠ '\n') = line := ⟨_, rfl⟩
    rw [hline, hrest, hc] at hsplit
    -- a message does not start with a line end, so its first line has text
    have hhead : line ≠ [] := by
      intro hnil
      rw [hnil, List.nil_append] at hsplit
      have := hplain.remark '\n' (by rw [← hsplit]; rfl)
      revert this
      decide
    show s.messageEnd = s.head.messageEnd ++ (rest ++ ['\n'])
    rw [messageEnd, messageEnd, if_neg hne, head, hline, if_neg hhead, ← hsplit]
    simp

theorem lineEnd_head (hplain : PlainMessage s.message) :
    s.lineEnd = s.head.lineEnd ++ chars s.furtherLines := by
  have hrate : s.head.rate = s.rate := rfl
  rw [s.lineEnd_eq, s.head.lineEnd_eq, hrate, messageEnd_head hplain, chars, List.map_append,
    List.append_assoc]
  rfl

/-- A line of LevelDB is the line with the first line of its message, and the rest. -/
theorem report_head (hplain : PlainMessage s.message) :
    s.report name = s.head.report name ++ chars s.furtherLines := by
  rw [report, lineEnd_head hplain, ← List.append_assoc]
  rfl

/-- A line of RocksDB is the line with the first line of its message, and the rest. -/
theorem reportRocksDb_head (hplain : PlainMessage s.message) :
    s.reportRocksDb name = s.head.reportRocksDb name ++ chars s.furtherLines := by
  rw [reportRocksDb, lineEnd_head hplain, ← List.append_assoc]
  rfl

end Stats

end PackedFilters.Bench
