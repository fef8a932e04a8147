import ModelServing.Lib.OrderStatistics

/-! The metrics: `metrics.py`. A window of recent latency records in the order in which they were
    appended, counters, gauges, and the report over them. Floats are exact; what the monotonic clock
    shows is an argument. A reported percentile is an order statistic of the window, rounded. -/

namespace ModelServing

open OrderStatistics

/-- A number of milliseconds, which the handlers record as a float, or as the int 0. -/
inductive Millis where
  | int (n : ℤ)
  | float (x : ℚ)
  deriving DecidableEq

namespace Millis

def value : Millis → ℚ
  | int n => n
  | float x => x

/-- The order in which `sorted` puts them. -/
def le (a b : Millis) : Prop := a.value ≤ b.value

instance : DecidableRel le := fun a b => inferInstanceAs (Decidable (a.value ≤ b.value))

theorem map_sort (xs : List Millis) :
    (xs.insertionSort le).map value = (xs.map value).insertionSort (· ≤ ·) :=
  List.map_insertionSort le (· ≤ ·) value xs fun _ _ _ _ => Iff.rfl

end Millis

/-- A single latency measurement. -/
structure LatencyRecord where
  timestamp : ℚ
  totalMs : Millis
  ttftMs : Millis
  tokensGenerated : ℕ
  tokensPerSecond : ℚ
  deriving DecidableEq

structure MetricsCollector where
  windowSeconds : ℚ := 300
  records : List LatencyRecord := []
  totalRequests : ℕ := 0
  totalTokensGenerated : ℕ := 0
  totalErrors : ℕ := 0
  startTime : ℚ
  currentBatchSize : ℕ := 0
  currentQueueDepth : ℕ := 0
  cacheUtilization : ℚ := 0
  deriving DecidableEq

namespace MetricsCollector

/-- `_prune_old_records`: from the front, as long as what stands there is too old. -/
def pruneOldRecords (now : ℚ) (m : MetricsCollector) : MetricsCollector :=
  let cutoff := now - m.windowSeconds
  { m with records := m.records.dropWhile fun r => r.timestamp < cutoff }

/-- What `record_request` does under the lock. -/
def appendRecord (record : LatencyRecord) (now : ℚ) (m : MetricsCollector) : MetricsCollector :=
  pruneOldRecords now { m with
    records := m.records ++ [record]
    totalRequests := m.totalRequests + 1
    totalTokensGenerated := m.totalTokensGenerated + record.tokensGenerated }

/-- `record_request`: `timestamp` is when the record is made, `now` when the lock is held. -/
def recordRequest (totalMs ttftMs : Millis) (tokensGenerated : ℕ) (tokensPerSecond timestamp now : ℚ)
    (m : MetricsCollector) : MetricsCollector :=
  appendRecord { timestamp, totalMs, ttftMs, tokensGenerated, tokensPerSecond } now m

def recordError (m : MetricsCollector) : MetricsCollector := { m with totalErrors := m.totalErrors + 1 }

def updateGauges (batchSize queueDepth : Option ℕ) (cacheUtilization : Option ℚ)
    (m : MetricsCollector) : MetricsCollector :=
  { m with
    currentBatchSize := batchSize.getD m.currentBatchSize
    currentQueueDepth := queueDepth.getD m.currentQueueDepth
    cacheUtilization := cacheUtilization.getD m.cacheUtilization }

/-- The nearest integer, the even one of two. -/
def nearest (x : ℚ) : ℤ :=
  if x - ⌊x⌋ < 1 / 2 ∨ x - ⌊x⌋ = 1 / 2 ∧ Even ⌊x⌋ then ⌊x⌋ else ⌊x⌋ + 1

/-- `round(x, digits)`. -/
def round (digits : ℕ) (x : ℚ) : ℚ := nearest (x * 10 ^ digits) / 10 ^ digits

/-- `round` of a number of milliseconds, where an int stays one. -/
def roundMillis (digits : ℕ) : Millis → Millis
  | .int n => .int n
  | .float x => .float (round digits x)

/-- The value `_percentile` selects. -/
def select (sortedValues : List Millis) (p : ℚ) : Millis :=
  let idx := ⌊sortedValues.length * p⌋₊
  sortedValues.getD (min idx (sortedValues.length - 1)) (.float 0)

def percentile (sortedValues : List Millis) (p : ℚ) : Millis :=
  if sortedValues = [] then .float 0 else roundMillis 2 (select sortedValues p)

/-- What `get_metrics` returns. -/
structure Report where
  totalRequests : ℕ
  totalTokensGenerated : ℕ
  totalErrors : ℕ
  uptimeSeconds : ℚ
  requestsPerSecond : ℚ
  latencyP50Ms : Millis
  latencyP95Ms : Millis
  latencyP99Ms : Millis
  ttftP50Ms : Millis
  ttftP95Ms : Millis
  avgTokensPerSecond : ℚ
  currentBatchSize : ℕ
  currentQueueDepth : ℕ
  cacheUtilization : ℚ
  windowSeconds : ℚ
  samplesInWindow : ℕ

/-- The report on the copied records, `now` being when the uptime is taken. -/
def report (records : List LatencyRecord) (now : ℚ) (m : MetricsCollector) : Report :=
  let uptime := now - m.startTime
  let latencies := (records.map LatencyRecord.totalMs).insertionSort Millis.le
  let ttfts := (records.map LatencyRecord.ttftMs).insertionSort Millis.le
  let tpsValues := records.map LatencyRecord.tokensPerSecond
  { totalRequests := m.totalRequests
    totalTokensGenerated := m.totalTokensGenerated
    totalErrors := m.totalErrors
    uptimeSeconds := round 1 uptime
    requestsPerSecond := round 2 (if uptime > 0 then m.totalRequests / uptime else 0)
    latencyP50Ms := percentile latencies (1 / 2)
    latencyP95Ms := percentile latencies (19 / 20)
    latencyP99Ms := percentile latencies (99 / 100)
    ttftP50Ms := percentile ttfts (1 / 2)
    ttftP95Ms := percentile ttfts (19 / 20)
    avgTokensPerSecond :=
      round 1 (if tpsValues = [] then 0 else tpsValues.sum / tpsValues.length)
    currentBatchSize := m.currentBatchSize
    currentQueueDepth := m.currentQueueDepth
    cacheUtilization := round 3 m.cacheUtilization
    windowSeconds := m.windowSeconds
    samplesInWindow := records.length }

/-- `get_metrics`, which reads the clock under the lock and again after it. -/
def getMetrics (locked after : ℚ) (m : MetricsCollector) : Report × MetricsCollector :=
  let m := pruneOldRecords locked m
  (report m.records after m, m)

/-! ### Rounding -/

theorem floor_le_nearest (x : ℚ) : ⌊x⌋ ≤ nearest x := by
  rw [nearest]
  split <;> omega

theorem nearest_le_floor_add_one (x : ℚ) : nearest x ≤ ⌊x⌋ + 1 := by
  rw [nearest]
  split <;> omega

theorem nearest_mono : Monotone nearest := by
  intro x y hxy
  rcases (Int.floor_mono hxy).lt_or_eq with hlt | heq
  · exact (nearest_le_floor_add_one x).trans ((Int.add_one_le_iff.mpr hlt).trans (floor_le_nearest y))
  · -- between two integers the larger number is the first to be rounded up
    rw [nearest, nearest, heq]
    split_ifs with hx hy hy
    · exact le_rfl
    · omega
    · refine absurd ?_ hx
      rcases hy with hy | ⟨hy, heven⟩
      · exact Or.inl (by linarith)
      · rcases hxy.lt_or_eq with hlt | rfl
        · exact Or.inl (by linarith)
        · exact Or.inr ⟨hy, heven⟩
    · exact le_rfl

theorem round_mono (digits : ℕ) : Monotone (round digits) := by
  intro x y hxy
  have hpow : (0 : ℚ) < 10 ^ digits := by positivity
  have hint := nearest_mono (mul_le_mul_of_nonneg_right hxy hpow.le)
  exact div_le_div_of_nonneg_right (Int.cast_le.mpr hint) hpow.le

/-- An int has nothing to round. -/
theorem value_roundMillis (digits : ℕ) (x : Millis) :
    (roundMillis digits x).value = round digits x.value := by
  cases x with
  | float x => rfl
  | int n =>
    have hpow : (10 : ℚ) ^ digits ≠ 0 := by positivity
    have hint : (n : ℚ) * 10 ^ digits = (n * 10 ^ digits : ℤ) := by push_cast; rfl
    have hnearest : nearest ((n * 10 ^ digits : ℤ) : ℚ) = n * 10 ^ digits := by
      rw [nearest, Int.floor_intCast, sub_self, if_pos (Or.inl (by norm_num))]
    change (n : ℚ) = nearest ((n : ℚ) * 10 ^ digits) / 10 ^ digits
    rw [hint, hnearest, Int.cast_mul, Int.cast_pow, Int.cast_ofNat, mul_div_cancel_right₀ _ hpow]

/-! ### Percentiles -/

variable {values : List Millis} {p q : ℚ}

/-- The clamp has no effect. -/
theorem select_eq (hne : values ≠ []) (h₀ : 0 ≤ p) (h₁ : p < 1) :
    values[⌊values.length * p⌋₊]? = some (select values p) := by
  have hlt := floor_mul_lt (List.length_pos_of_ne_nil hne) h₀ h₁
  have hmin : min ⌊values.length * p⌋₊ (values.length - 1) = ⌊values.length * p⌋₊ := by omega
  simp only [select, hmin, List.getD_eq_getElem?_getD, List.getElem?_eq_getElem hlt, Option.getD_some]

/-- The value selected has the same place among the numbers. -/
theorem select_sorted (hne : values ≠ []) (h₀ : 0 ≤ p) (h₁ : p < 1) :
    ((values.map Millis.value).insertionSort (· ≤ ·))[⌊values.length * p⌋₊]? =
      some (select (values.insertionSort Millis.le) p).value := by
  have hlen : (values.insertionSort Millis.le).length = values.length := List.length_insertionSort _ _
  have hsorted : values.insertionSort Millis.le ≠ [] :=
    List.ne_nil_of_length_pos (hlen ▸ List.length_pos_of_ne_nil hne)
  have hv := select_eq hsorted h₀ h₁
  rw [hlen] at hv
  rw [← Millis.map_sort, List.getElem?_map, hv, Option.map_some]

theorem select_isQuantile (hne : values ≠ []) (h₀ : 0 ≤ p) (h₁ : p < 1) :
    IsQuantile p (values.map Millis.value) (select (values.insertionSort Millis.le) p).value := by
  have hv := select_sorted hne h₀ h₁
  rw [← List.length_map Millis.value] at hv
  exact isQuantile_floor h₀ (List.perm_insertionSort _ _) (List.pairwise_insertionSort _ _) hv

theorem select_mono (hne : values ≠ []) (h₀ : 0 ≤ p) (hpq : p ≤ q) (h₁ : q < 1) :
    (select (values.insertionSort Millis.le) p).value ≤ (select (values.insertionSort Millis.le) q).value := by
  have hlen : ((values.map Millis.value).insertionSort (· ≤ ·)).length = values.length := by
    rw [List.length_insertionSort, List.length_map]
  have hv := select_sorted hne h₀ (hpq.trans_lt h₁)
  have hw := select_sorted hne (h₀.trans hpq) h₁
  rw [← hlen] at hv hw
  exact getElem?_floor_mono hpq (List.pairwise_insertionSort _ _) hv hw

theorem percentile_eq (hne : values ≠ []) :
    percentile (values.insertionSort Millis.le) p =
      roundMillis 2 (select (values.insertionSort Millis.le) p) := by
  refine if_neg fun h => hne ?_
  exact (h ▸ List.perm_insertionSort Millis.le values).nil_eq.symm

/-- The percentiles that are reported. -/
def shares : List ℚ := [1 / 2, 19 / 20, 99 / 100]

theorem shares_spec (h : p ∈ shares) : 0 ≤ p ∧ p < 1 := by
  simp only [shares, List.mem_cons, List.not_mem_nil, or_false] at h
  rcases h with rfl | rfl | rfl <;> norm_num

/-- Every reported percentile is a recorded value and a quantile of the window, at an index that needs
    no clamp, and the percentiles are in order, before and after rounding. -/
theorem percentiles_are_order_statistics (m : MetricsCollector) (locked after : ℚ)
    (h : (pruneOldRecords locked m).records ≠ []) :
    let records := (pruneOldRecords locked m).records
    let report := (getMetrics locked after m).1
    let sorted (f : LatencyRecord → Millis) := (records.map f).insertionSort Millis.le
    (∀ f, ∀ p ∈ shares, ⌊records.length * p⌋₊ < records.length ∧
      (sorted f)[⌊records.length * p⌋₊]? = some (select (sorted f) p) ∧
      select (sorted f) p ∈ records.map f ∧
      IsQuantile p (records.map fun r => (f r).value) (select (sorted f) p).value) ∧
    report.latencyP50Ms = roundMillis 2 (select (sorted LatencyRecord.totalMs) (1 / 2)) ∧
    report.latencyP95Ms = roundMillis 2 (select (sorted LatencyRecord.totalMs) (19 / 20)) ∧
    report.latencyP99Ms = roundMillis 2 (select (sorted LatencyRecord.totalMs) (99 / 100)) ∧
    report.ttftP50Ms = roundMillis 2 (select (sorted LatencyRecord.ttftMs) (1 / 2)) ∧
    report.ttftP95Ms = roundMillis 2 (select (sorted LatencyRecord.ttftMs) (19 / 20)) ∧
    (∀ f, (select (sorted f) (1 / 2)).value ≤ (select (sorted f) (19 / 20)).value ∧
      (select (sorted f) (19 / 20)).value ≤ (select (sorted f) (99 / 100)).value) ∧
    report.latencyP50Ms.value ≤ report.latencyP95Ms.value ∧
    report.latencyP95Ms.value ≤ report.latencyP99Ms.value ∧
    report.ttftP50Ms.value ≤ report.ttftP95Ms.value := by
  intro records report sorted
  have hne : ∀ f : LatencyRecord → Millis, records.map f ≠ [] := fun f => by simpa [records] using h
  have hround : ∀ (f : LatencyRecord → Millis) (p : ℚ),
      percentile (sorted f) p = roundMillis 2 (select (sorted f) p) := fun f p => percentile_eq (hne f)
  have hlow : ∀ f, (select (sorted f) (1 / 2)).value ≤ (select (sorted f) (19 / 20)).value := fun f =>
    select_mono (hne f) (by norm_num) (by norm_num) (by norm_num)
  have hhigh : ∀ f, (select (sorted f) (19 / 20)).value ≤ (select (sorted f) (99 / 100)).value := fun f =>
    select_mono (hne f) (by norm_num) (by norm_num) (by norm_num)
  have hmono : ∀ {f : LatencyRecord → Millis} {p q : ℚ},
      (select (sorted f) p).value ≤ (select (sorted f) q).value →
      (percentile (sorted f) p).value ≤ (percentile (sorted f) q).value := by
    intro f p q hle
    rw [hround, hround, value_roundMillis, value_roundMillis]
    exact round_mono 2 hle
  refine ⟨fun f p hp => ?_, hround _ _, hround _ _, hround _ _, hround _ _, hround _ _,
    fun f => ⟨hlow f, hhigh f⟩, hmono (hlow _), hmono (hhigh _), hmono (hlow _)⟩
  obtain ⟨h₀, h₁⟩ := shares_spec hp
  have hlen : (sorted f).length = records.length := by
    rw [List.length_insertionSort, List.length_map]
  have hindex := select_eq (List.ne_nil_of_length_pos (hlen ▸ List.length_pos_of_ne_nil h)) h₀ h₁
  have hquantile := select_isQuantile (hne f) h₀ h₁
  rw [List.map_map] at hquantile
  exact ⟨floor_mul_lt (List.length_pos_of_ne_nil h) h₀ h₁, hlen ▸ hindex,
    (List.mem_insertionSort Millis.le).mp (List.mem_of_getElem? hindex), hquantile⟩

/-- Five records in a window, out of order and three of them the same, behind one that is too old. -/
theorem percentiles_are_order_statistics_five :
    let record (total : ℚ) (ttft : Millis) : LatencyRecord := ⟨300, .float total, ttft, 20, 133⟩
    let records := [record 150 (.float 50), record 20 (.int 0), record 90 (.float 7), record 20 (.int 0),
      record 20 (.int 0)]
    let m : MetricsCollector := { startTime := 0, records := { record 999 (.int 0) with timestamp := 0 } :: records }
    let report := (getMetrics 301 301 m).1
    (report.latencyP50Ms = .float 20 ∧ report.latencyP95Ms = .float 150 ∧ report.ttftP50Ms = .int 0 ∧
      report.ttftP95Ms = .float 50) ∧
    IsQuantile (1 / 2) [150, 20, 90, 20, 20] (20 : ℚ) ∧ IsQuantile (19 / 20) [150, 20, 90, 20, 20] (150 : ℚ) ∧
    IsQuantile (1 / 2) [50, 0, 7, 0, 0] (0 : ℚ) ∧ report.latencyP50Ms.value ≤ report.latencyP95Ms.value := by
  intro record records m report
  obtain ⟨hquantile, h50, h95, -, t50, t95, -, hmono, -⟩ :=
    percentiles_are_order_statistics m 301 301 (by decide +kernel)
  have hwindow : (pruneOldRecords 301 m).records = records := by decide +kernel
  simp only [hwindow] at hquantile h50 h95 t50 t95
  have s50 : select ((records.map LatencyRecord.totalMs).insertionSort Millis.le) (1 / 2) = .float 20 := by
    decide +kernel
  have s95 : select ((records.map LatencyRecord.totalMs).insertionSort Millis.le) (19 / 20) = .float 150 := by
    decide +kernel
  have f50 : select ((records.map LatencyRecord.ttftMs).insertionSort Millis.le) (1 / 2) = .int 0 := by
    decide +kernel
  have f95 : select ((records.map LatencyRecord.ttftMs).insertionSort Millis.le) (19 / 20) = .float 50 := by
    decide +kernel
  have q50 := (hquantile LatencyRecord.totalMs (1 / 2) List.mem_cons_self).2.2.2
  have q95 := (hquantile LatencyRecord.totalMs (19 / 20) (List.mem_cons_of_mem _ List.mem_cons_self)).2.2.2
  have r50 := (hquantile LatencyRecord.ttftMs (1 / 2) List.mem_cons_self).2.2.2
  rw [s50] at q50 h50
  rw [s95] at q95 h95
  rw [f50] at r50 t50
  rw [f95] at t95
  refine ⟨⟨h50.trans (by decide +kernel), h95.trans (by decide +kernel), t50, t95.trans (by decide +kernel)⟩,
    q50, q95, ?_, hmono⟩
  simpa [records, record, Millis.value] using r50

example : percentile ((List.range 100).map fun i => .float i) (19 / 20) = .float 95 := by decide +kernel

end MetricsCollector

end ModelServing
