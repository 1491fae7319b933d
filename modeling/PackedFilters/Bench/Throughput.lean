import PackedFilters.Bench.Reporter

/-!
# The throughput of a run

One finished run, printed by LevelDB and by RocksDB and read back by `parse_log`.  RocksDB
divides by the time on the clock until it merges the statistics; from a line of LevelDB the
reporter gets a division by the times of all threads added up.

The two readings are numbers of operations per second, so they are compared with the
operations over the time on the clock up to the rounding to an integer (`IsRounded`).  With
threads side by side the times add up to more than the time on the clock, and LevelDB's
reading falls short by the number of threads that run at once; RocksDB's falls short by what
passes between the last thread and the merge.  Both conditions are on the run alone, on its
threads' readings of the clock and their counts.

* `parseLog_leveldb`, `parseLog_rocksdb` — the two quotients;
* `sameThroughput_iff` — when both are the throughput of the run;
* `levelDbAgrees_of_single`, `not_levelDbAgrees_of_parallel` — one thread, and threads that
  run side by side.
-/

namespace PackedFilters.Bench

/-! ## Sums and extrema -/

theorem ThreadRun.seconds_nonneg (t : ThreadRun) : 0 ≤ (t.finish - t.start) / 1000000 :=
  div_nonneg (sub_nonneg.2 t.ordered) (by norm_num)

theorem BenchmarkRun.threadSeconds_nonneg (run : BenchmarkRun) : 0 ≤ run.threadSeconds := by
  apply List.sum_nonneg
  intro x hx
  obtain ⟨t, -, rfl⟩ := List.mem_map.1 hx
  exact t.seconds_nonneg

theorem foldl_max_le : ∀ {l : List ℚ} {x y : ℚ}, x ≤ y → (∀ z ∈ l, z ≤ y) →
    l.foldl max x ≤ y := by
  intro l
  induction l with
  | nil => exact fun h _ => h
  | cons z l ih =>
    intro x y hx hl
    exact ih (max_le hx (hl z List.mem_cons_self)) fun w hw => hl w (List.mem_cons_of_mem _ hw)

namespace FinishedRun

variable (run : FinishedRun)

/-- RocksDB stops the clock behind the last thread. -/
theorem elapsed_le_mergedElapsed : run.elapsed ≤ run.mergedElapsed := by
  have hlast : run.lastFinish ≤ run.mergedAt := by
    apply foldl_max_le (run.finished run.first List.mem_cons_self)
    intro z hz
    obtain ⟨t, ht, rfl⟩ := List.mem_map.1 hz
    exact run.finished t (List.mem_cons_of_mem _ ht)
  unfold BenchmarkRun.elapsed BenchmarkRun.mergedElapsed
  gcongr

theorem mergedElapsed_pos : 0 < run.mergedElapsed :=
  run.elapsed_pos.trans_le run.elapsed_le_mergedElapsed

/-! ## The two readings -/

theorem reportedDone_eq {s : Stats} (h : s.done = run.totalDone) :
    s.reportedDone = run.totalDone := by
  have hpos := run.done_pos
  rw [Stats.reportedDone, h, if_neg (by omega)]

/-- What is read from LevelDB: operations over the times of all threads. -/
theorem parseLog_leveldb :
    ∃ result, parseLog (some run.leveldbLog) run.name = .ok (some result) ∧
      result.opsSec
        = if 0 < run.threadSeconds then roundHalfEven (run.totalDone / run.threadSeconds) else 0 := by
  obtain ⟨hdone, hseconds, -⟩ := run.leveldbStats_eq
  obtain ⟨result, hresult, hopsSec⟩ :=
    parseLog_report run.name_ne run.name_word run.leveldbStats_plain
  have hD : (0 : ℚ) < run.totalDone := by exact_mod_cast run.done_pos
  have hmicros : run.leveldbStats.microsPerOp = run.threadSeconds * 1000000 / run.totalDone := by
    rw [Stats.microsPerOp, hseconds, run.reportedDone_eq hdone]
  refine ⟨result, hresult, ?_⟩
  rw [hopsSec, hmicros]
  by_cases hS : 0 < run.threadSeconds
  · have hquotient : 1000000 / (run.threadSeconds * 1000000 / run.totalDone)
        = run.totalDone / run.threadSeconds := by
      field_simp
    rw [if_pos hS, if_pos (by positivity), hquotient]
  · have hzero : run.threadSeconds = 0 := le_antisymm (not_lt.1 hS) run.threadSeconds_nonneg
    rw [if_neg hS, hzero, zero_mul, zero_div, if_neg (lt_irrefl 0)]

/-- What is read from RocksDB: operations over the time on the clock. -/
theorem parseLog_rocksdb :
    ∃ result, parseLog (some run.rocksdbLog) run.name = .ok (some result) ∧
      result.opsSec = ⌊run.totalDone / run.mergedElapsed⌋₊ := by
  obtain ⟨hdone, helapsed⟩ := run.rocksdbStats_eq
  obtain ⟨result, hresult, hopsSec⟩ :=
    parseLog_reportRocksDb run.name_ne run.name_word run.rocksdbStats_plain
  rw [run.reportedDone_eq hdone, helapsed] at hopsSec
  exact ⟨result, hresult, hopsSec⟩

end FinishedRun

/-! ## When they agree -/

/-- A number is an integer next to a quotient. -/
def IsRounded (n : ℕ) (x : ℚ) : Prop := n = ⌊x⌋₊ ∨ n = ⌈x⌉₊

/-- **The same throughput**: what `parse_log` reads from both logs is the operations over the
time on the clock, rounded. -/
def SameThroughput (run : FinishedRun) : Prop :=
  ∃ leveldb rocksdb : LogResult,
    parseLog (some run.leveldbLog) run.name = .ok (some leveldb) ∧
      parseLog (some run.rocksdbLog) run.name = .ok (some rocksdb) ∧
      IsRounded leveldb.opsSec run.throughput ∧ IsRounded rocksdb.opsSec run.throughput

/-- Below, or equal at an even number. -/
def BelowHalf (n : ℕ) (x y : ℚ) : Prop := x < y ∨ x = y ∧ Even n

/-- Operations over the times of all threads are rounded to a number next to the throughput:
the quotient lies between half below the one and half above the other. -/
def LevelDbAgrees (run : BenchmarkRun) : Prop :=
  let below := ⌊run.throughput⌋₊
  let above := ⌈run.throughput⌉₊
  if run.threadSeconds = 0 then run.totalDone < run.elapsed
  else
    BelowHalf below ((2 * below - 1) * run.threadSeconds) (2 * run.totalDone) ∧
      BelowHalf above (2 * run.totalDone) ((2 * above + 1) * run.threadSeconds)

/-- The statistics are merged so soon that the rounded throughput is not missed. -/
def RocksDbAgrees (run : BenchmarkRun) : Prop :=
  ⌊run.throughput⌋₊ * run.mergedElapsed ≤ run.totalDone

/-- The rounded numbers are those between them. -/
theorem isRounded_iff (n : ℕ) (x : ℚ) : IsRounded n x ↔ ⌊x⌋₊ ≤ n ∧ n ≤ ⌈x⌉₊ := by
  have hle := Nat.floor_le_ceil x
  have hstep := Nat.ceil_le_floor_add_one x
  unfold IsRounded
  omega

namespace FinishedRun

variable (run : FinishedRun)

theorem throughput_nonneg : 0 ≤ run.throughput :=
  div_nonneg (Nat.cast_nonneg _) run.elapsed_pos.le

/-- LevelDB's reading is rounded exactly if the times are near enough. -/
theorem isRounded_leveldb_iff :
    IsRounded (if 0 < run.threadSeconds then roundHalfEven (run.totalDone / run.threadSeconds)
      else 0) run.throughput ↔ LevelDbAgrees run.toBenchmarkRun := by
  have hD : (0 : ℚ) < run.totalDone := by exact_mod_cast run.done_pos
  have hE := run.elapsed_pos
  unfold LevelDbAgrees
  by_cases hS : run.threadSeconds = 0
  · have hzero : IsRounded 0 run.throughput ↔ run.throughput < 1 := by
      rw [isRounded_iff, Nat.le_zero, Nat.floor_eq_zero]
      exact and_iff_left (Nat.zero_le _)
    simp only [if_pos hS]
    rw [hS, if_neg (lt_irrefl 0), hzero, BenchmarkRun.throughput, div_lt_one hE]
  · have hpos : 0 < run.threadSeconds := run.threadSeconds_nonneg.lt_of_ne (Ne.symm hS)
    have hnonneg : (0 : ℚ) ≤ run.totalDone / run.threadSeconds := div_nonneg hD.le hpos.le
    have hmul : 2 * (run.totalDone / run.threadSeconds : ℚ) = 2 * run.totalDone / run.threadSeconds :=
      (mul_div_assoc _ _ _).symm
    simp only [if_neg hS]
    rw [if_pos hpos, isRounded_iff, le_roundHalfEven_iff hnonneg, roundHalfEven_le_iff hnonneg, hmul,
      lt_div_iff₀ hpos, eq_div_iff hpos.ne', div_lt_iff₀ hpos, div_eq_iff hpos.ne']
    rfl

/-- RocksDB's reading is never above, and rounded exactly if it is soon enough. -/
theorem isRounded_rocksdb_iff :
    IsRounded ⌊run.totalDone / run.mergedElapsed⌋₊ run.throughput
      ↔ RocksDbAgrees run.toBenchmarkRun := by
  have hM := run.mergedElapsed_pos
  have hle : (run.totalDone / run.mergedElapsed : ℚ) ≤ run.throughput :=
    div_le_div_of_nonneg_left (Nat.cast_nonneg _) run.elapsed_pos run.elapsed_le_mergedElapsed
  have hceil : ⌊(run.totalDone / run.mergedElapsed : ℚ)⌋₊ ≤ ⌈run.throughput⌉₊ :=
    (Nat.floor_mono hle).trans (Nat.floor_le_ceil _)
  unfold RocksDbAgrees
  rw [isRounded_iff, and_iff_left hceil,
    Nat.le_floor_iff (div_nonneg (Nat.cast_nonneg _) hM.le), le_div_iff₀ hM]

end FinishedRun

/-- **The throughput**: both logs give it exactly if the threads' times are near enough to the
time on the clock, and the statistics are merged soon enough. -/
theorem sameThroughput_iff (run : FinishedRun) :
    SameThroughput run ↔ LevelDbAgrees run.toBenchmarkRun ∧ RocksDbAgrees run.toBenchmarkRun := by
  obtain ⟨leveldb, hleveldb, hlevel⟩ := run.parseLog_leveldb
  obtain ⟨rocksdb, hrocksdb, hrocks⟩ := run.parseLog_rocksdb
  rw [← run.isRounded_leveldb_iff, ← run.isRounded_rocksdb_iff, ← hlevel, ← hrocks]
  constructor
  · rintro ⟨a, b, ha, hb, hrounded, hrounded'⟩
    rw [hleveldb] at ha
    rw [hrocksdb] at hb
    cases ha
    cases hb
    exact ⟨hrounded, hrounded'⟩
  · rintro ⟨hrounded, hrounded'⟩
    exact ⟨leveldb, rocksdb, hleveldb, hrocksdb, hrounded, hrounded'⟩

/-! ## One thread and many -/

/-- The throughput is between the numbers next to it. -/
theorem FinishedRun.throughput_bounds (run : FinishedRun) :
    ⌊run.throughput⌋₊ * run.elapsed ≤ run.totalDone ∧
      run.totalDone < (⌊run.throughput⌋₊ + 1) * run.elapsed ∧
      run.totalDone ≤ ⌈run.throughput⌉₊ * run.elapsed := by
  have hE := run.elapsed_pos
  refine ⟨?_, ?_, ?_⟩
  · exact (le_div_iff₀ hE).1 (Nat.floor_le run.throughput_nonneg)
  · exact (div_lt_iff₀ hE).1 (Nat.lt_floor_add_one _)
  · exact (div_le_iff₀ hE).1 (Nat.le_ceil _)

/-- With one thread its time is the time on the clock. -/
theorem levelDbAgrees_of_single (run : FinishedRun) (h : run.others = []) :
    LevelDbAgrees run.toBenchmarkRun := by
  have hE := run.elapsed_pos
  have hseconds : run.threadSeconds = run.elapsed := by
    unfold BenchmarkRun.threadSeconds BenchmarkRun.elapsed BenchmarkRun.threads
      BenchmarkRun.lastFinish BenchmarkRun.firstStart
    rw [h]
    simp
  obtain ⟨hbelow, -, habove⟩ := run.throughput_bounds
  unfold LevelDbAgrees
  simp only [hseconds, if_neg hE.ne']
  exact ⟨Or.inl (by linarith), Or.inl (by linarith)⟩

/-- Threads that run side by side, with at least two operations in a second, are not read
right from LevelDB. -/
theorem not_levelDbAgrees_of_parallel (run : FinishedRun)
    (hparallel : 2 * run.elapsed ≤ run.threadSeconds) (hdone : 2 * run.elapsed ≤ run.totalDone) :
    ¬ LevelDbAgrees run.toBenchmarkRun := by
  have hE := run.elapsed_pos
  have hS : run.threadSeconds ≠ 0 := by linarith
  obtain ⟨-, habove, -⟩ := run.throughput_bounds
  have htwo : 2 ≤ ⌊run.throughput⌋₊ :=
    Nat.le_floor ((le_div_iff₀ hE).2 (by exact_mod_cast hdone))
  have hq : (2 : ℚ) ≤ ⌊run.throughput⌋₊ := by exact_mod_cast htwo
  -- half of the throughput is below the lower number by more than a half
  have hbelow : (2 * run.totalDone : ℚ) < (2 * ⌊run.throughput⌋₊ - 1) * run.threadSeconds :=
    calc (2 * run.totalDone : ℚ)
        < 2 * ((⌊run.throughput⌋₊ + 1) * run.elapsed) := by linarith
      _ ≤ (2 * ⌊run.throughput⌋₊ - 1) * (2 * run.elapsed) := by nlinarith
      _ ≤ (2 * ⌊run.throughput⌋₊ - 1) * run.threadSeconds := by
        apply mul_le_mul_of_nonneg_left hparallel
        linarith
  unfold LevelDbAgrees
  simp only [if_neg hS]
  rintro ⟨hlt | ⟨heq, -⟩, -⟩
  · exact absurd hlt hbelow.not_gt
  · exact absurd heq hbelow.ne'

/-- A reader that runs for so many microseconds, without a message. -/
def threadRun (micros : ℚ) (h : 0 ≤ micros) (done : ℕ) : ThreadRun where
  start := 0
  finish := micros
  done := done
  bytes := 0
  message := []
  messageRocksDb := []
  background := false
  ordered := h
  plain := plainMessage_nil
  plainRocksDb := plainMessage_nil

/-- Two of them in the same time, merged at once. -/
def sideBySide (micros : ℚ) (h : 0 ≤ micros) (done : ℕ) : BenchmarkRun where
  name := "readwhilewriting".toList
  first := threadRun micros h done
  others := [threadRun micros h done]
  mergedAt := micros

theorem sideBySide_totals (micros : ℚ) (h : 0 ≤ micros) (done : ℕ) :
    (sideBySide micros h done).totalDone = 2 * done ∧
      (sideBySide micros h done).threadSeconds = 2 * (micros / 1000000) ∧
      (sideBySide micros h done).elapsed = micros / 1000000 ∧
      (sideBySide micros h done).mergedElapsed = micros / 1000000 := by
  refine ⟨?_, ?_, ?_, ?_⟩
  · show done + (done + 0) = 2 * done
    omega
  · show (micros - 0) / 1000000 + ((micros - 0) / 1000000 + 0) = 2 * (micros / 1000000)
    ring
  · show (max micros micros - min 0 0) / 1000000 = micros / 1000000
    simp
  · show (micros - min 0 0) / 1000000 = micros / 1000000
    simp

theorem sideBySide_finished (micros : ℚ) (h : 0 ≤ micros) (done : ℕ) :
    ∀ t ∈ (sideBySide micros h done).threads, t.finish ≤ (sideBySide micros h done).mergedAt := by
  show ∀ t ∈ [threadRun micros h done, threadRun micros h done], t.finish ≤ micros
  intro t ht
  have hsame : t = threadRun micros h done := by simpa using ht
  rw [hsame]
  exact le_refl micros

theorem sideBySide_done_pos (micros : ℚ) (h : 0 ≤ micros) {done : ℕ} (hdone : 0 < done) :
    0 < (sideBySide micros h done).totalDone := by
  rw [(sideBySide_totals micros h done).1]
  omega

theorem sideBySide_elapsed_pos {micros : ℚ} (h : 0 < micros) (done : ℕ) :
    0 < (sideBySide micros h.le done).elapsed := by
  rw [(sideBySide_totals micros h.le done).2.2.1]
  positivity

theorem sideBySide_background (micros : ℚ) (h : 0 ≤ micros) (done : ℕ) :
    ∀ t ∈ (sideBySide micros h done).threads, t.background ≠ true := by
  show ∀ t ∈ [threadRun micros h done, threadRun micros h done], t.background ≠ true
  intro t ht
  have hsame : t = threadRun micros h done := by simpa using ht
  rw [hsame]
  exact Bool.false_ne_true

/-- Such a run, with something done. -/
def sideBySideRun (micros : ℚ) (h : 0 < micros) (done : ℕ) (hdone : 0 < done)
    (hint : 2 * done < 2147483648) : FinishedRun where
  toBenchmarkRun := sideBySide micros h.le done
  name_ne := List.cons_ne_nil _ _
  name_word := rfl
  finished := sideBySide_finished micros h.le done
  done_pos := sideBySide_done_pos micros h.le hdone
  done_lt := (sideBySide_totals micros h.le done).1.trans_lt hint
  bytes_lt := by
    show 0 + (0 + 0) < 9223372036854775808
    norm_num
  background_done := fun t ht hback => absurd hback (sideBySide_background micros h.le done t ht)
  background_start := fun t ht hback => absurd hback (sideBySide_background micros h.le done t ht)
  elapsed_pos := sideBySide_elapsed_pos h done

theorem second_pos : (0 : ℚ) < 1000000 := by norm_num

theorem hundred_pos : 0 < 100 := by norm_num

theorem twoHundred_lt : 2 * 100 < 2147483648 := by norm_num

/-- A hundred operations each in the same second: RocksDB's line is read as 200 operations
per second, which is right, and LevelDB's as 100. -/
theorem sideBySide_differ :
    let run := sideBySideRun 1000000 second_pos 100 hundred_pos twoHundred_lt
    (∃ leveldb, parseLog (some run.leveldbLog) run.name = .ok (some leveldb) ∧
        leveldb.opsSec = 100) ∧
      (∃ rocksdb, parseLog (some run.rocksdbLog) run.name = .ok (some rocksdb) ∧
        rocksdb.opsSec = 200) ∧
      run.throughput = 200 ∧ ¬ SameThroughput run := by
  intro run
  have htotals := sideBySide_totals 1000000 second_pos.le 100
  rw [div_self second_pos.ne'] at htotals
  obtain ⟨hdone, hseconds, helapsed, hmerged⟩ :
    run.totalDone = 2 * 100 ∧ run.threadSeconds = 2 * 1 ∧ run.elapsed = 1 ∧
      run.mergedElapsed = 1 := htotals
  obtain ⟨leveldb, hleveldb, hlevel⟩ := run.parseLog_leveldb
  obtain ⟨rocksdb, hrocksdb, hrocks⟩ := run.parseLog_rocksdb
  rw [hdone, hseconds] at hlevel
  rw [hdone, hmerged] at hrocks
  have hthroughput : run.throughput = 200 := by
    rw [BenchmarkRun.throughput, hdone, helapsed]
    norm_num
  have hlevel100 : leveldb.opsSec = 100 := by
    rw [hlevel]
    norm_num [roundHalfEven]
  have hrocks200 : rocksdb.opsSec = 200 := by
    rw [hrocks]
    norm_num
  refine ⟨⟨leveldb, hleveldb, hlevel100⟩, ⟨rocksdb, hrocksdb, hrocks200⟩, hthroughput, ?_⟩
  rintro ⟨a, b, ha, -, hrounded, -⟩
  rw [hleveldb] at ha
  cases ha
  rw [hthroughput, hlevel100, isRounded_iff] at hrounded
  norm_num at hrounded

end PackedFilters.Bench
