import ModelServing.Api.Handlers
import ModelServing.Lib.Exposition

/-! The endpoint `/metrics`. A scraper that reads the exposition text finds the report in it, family by
    family. -/

namespace ModelServing

namespace MetricsCollector

open Exposition
open Decimal (Number)

/-- An integer in an f-string. -/
def str (n : ℕ) : String := String.ofList (Number.int n).write

/-- A float that has been rounded to so many digits. -/
def rounded (digits : ℕ) (x : ℚ) : Number := .float digits ⌊x * 10 ^ digits⌋

def strRounded (digits : ℕ) (x : ℚ) : String := String.ofList (rounded digits x).write

/-- A percentile: an int, or a float that has been rounded to two digits. -/
def spelled : Millis → Number
  | .int n => .int n
  | .float x => rounded 2 x

def strMillis (x : Millis) : String := String.ofList (spelled x).write

example : strMillis (.int 0) = "0" ∧ strMillis (.float 0) = "0.0" := by decide +kernel

/-- The lines of `format_prometheus`. -/
def expositionLines (m : Report) : List String :=
  [
    "# HELP inference_requests_total Total number of inference requests",
    "# TYPE inference_requests_total counter",
    "inference_requests_total " ++ str m.totalRequests,
    "",
    "# HELP inference_errors_total Total number of failed requests",
    "# TYPE inference_errors_total counter",
    "inference_errors_total " ++ str m.totalErrors,
    "",
    "# HELP inference_tokens_total Total tokens generated",
    "# TYPE inference_tokens_total counter",
    "inference_tokens_total " ++ str m.totalTokensGenerated,
    "",
    "# HELP inference_latency_ms Request latency in milliseconds",
    "# TYPE inference_latency_ms summary",
    "inference_latency_ms\x7bquantile=\"0.5\"\x7d " ++ strMillis m.latencyP50Ms,
    "inference_latency_ms\x7bquantile=\"0.95\"\x7d " ++ strMillis m.latencyP95Ms,
    "inference_latency_ms\x7bquantile=\"0.99\"\x7d " ++ strMillis m.latencyP99Ms,
    "",
    "# HELP inference_ttft_ms Time to first token in milliseconds",
    "# TYPE inference_ttft_ms summary",
    "inference_ttft_ms\x7bquantile=\"0.5\"\x7d " ++ strMillis m.ttftP50Ms,
    "inference_ttft_ms\x7bquantile=\"0.95\"\x7d " ++ strMillis m.ttftP95Ms,
    "",
    "# HELP inference_batch_size Current active batch size",
    "# TYPE inference_batch_size gauge",
    "inference_batch_size " ++ str m.currentBatchSize,
    "",
    "# HELP inference_queue_depth Current pending request count",
    "# TYPE inference_queue_depth gauge",
    "inference_queue_depth " ++ str m.currentQueueDepth,
    "",
    "# HELP inference_cache_utilization KV-cache memory utilization ratio",
    "# TYPE inference_cache_utilization gauge",
    "inference_cache_utilization " ++ strRounded 3 m.cacheUtilization]

/-- The text of a report. -/
def exposition (m : Report) : String := "\n".intercalate (expositionLines m) ++ "\n"

/-- `format_prometheus`. -/
def formatPrometheus (locked after : ℚ) (m : MetricsCollector) : String × MetricsCollector :=
  let (report, m) := m.getMetrics locked after
  (exposition report, m)

/-! ### What is exposed -/

section Families

variable {α : Type}

def single (name help : String) (kind : Kind) (x : α) : Family α where
  name := name
  help := some help
  kind := some kind
  samples := [{ value := x }]

/-- A summary: the quantiles, with what they are called. -/
def quantiles (name help : String) (xs : List (String × α)) : Family α where
  name := name
  help := some help
  kind := some .summary
  samples := xs.map fun x => { labels := [("quantile", x.1)], value := x.2 }

/-- A report as metric families; `int`, `float` and `millis` say what becomes of a number. -/
def families (int : ℕ → α) (float : ℕ → ℚ → α) (millis : Millis → α) (m : Report) : List (Family α) :=
  [single "inference_requests_total" "Total number of inference requests" .counter (int m.totalRequests),
    single "inference_errors_total" "Total number of failed requests" .counter (int m.totalErrors),
    single "inference_tokens_total" "Total tokens generated" .counter (int m.totalTokensGenerated),
    quantiles "inference_latency_ms" "Request latency in milliseconds"
      [("0.5", millis m.latencyP50Ms), ("0.95", millis m.latencyP95Ms), ("0.99", millis m.latencyP99Ms)],
    quantiles "inference_ttft_ms" "Time to first token in milliseconds"
      [("0.5", millis m.ttftP50Ms), ("0.95", millis m.ttftP95Ms)],
    single "inference_batch_size" "Current active batch size" .gauge (int m.currentBatchSize),
    single "inference_queue_depth" "Current pending request count" .gauge (int m.currentQueueDepth),
    single "inference_cache_utilization" "KV-cache memory utilization ratio" .gauge (float 3 m.cacheUtilization)]

/-- What a scraper is to find. -/
def exposed (m : Report) : List (Family ℚ) := families (fun n => n) (fun _ x => x) Millis.value m

end Families

/-- What is written. -/
def written (m : Report) : List (Family Number) := families (fun n => .int n) rounded spelled m

theorem toList_joined : ∀ {lines : List String}, lines ≠ [] →
    ("\n".intercalate lines ++ "\n").toList = (lines.map String.toList).flatMap (· ++ ['\n'])
  | [l], _ => by simp
  | l :: l' :: ls, _ => by
      have ih := toList_joined (List.cons_ne_nil l' ls)
      rw [String.toList_append, String.toList_intercalate] at ih ⊢
      rw [List.map_cons, List.map_cons, List.intercalate_cons_cons, List.flatMap_cons, ← List.map_cons, ← ih]
      simp

theorem toList_sample {start name : String} {labels : List (String × String)} (x : Number)
    (h : start.toList = name.toList ++ writeLabels labels ++ [' ']) :
    (start ++ String.ofList x.write).toList = (Entry.sample name { labels := labels, value := x }).write := by
  rw [String.toList_append, String.toList_ofList, h, Entry.write, List.append_assoc, List.singleton_append]

theorem expositionLines_eq (m : Report) :
    (expositionLines m).map String.toList = (entries (written m)).map Entry.write := by
  simp only [expositionLines, written, families, entries, single, quantiles, Family.entries, List.map_cons, List.map_nil,
    Option.map_some, Option.toList_some, List.cons_append, List.nil_append, List.intercalate_cons_cons,
    List.intercalate_singleton, List.cons.injEq]
  have hint : ∀ {start name : String}, start.toList = name.toList ++ writeLabels [] ++ [' '] → ∀ n : ℕ,
      (start ++ str n).toList = (Entry.sample name { value := .int n }).write := fun h n => toList_sample _ h
  have hfloat : ∀ {start name : String} {labels : List (String × String)},
      start.toList = name.toList ++ writeLabels labels ++ [' '] → ∀ (digits : ℕ) (x : ℚ),
      (start ++ strRounded digits x).toList = (Entry.sample name { labels, value := rounded digits x }).write :=
    fun h digits x => toList_sample _ h
  have hmillis : ∀ {start name : String} {labels : List (String × String)},
      start.toList = name.toList ++ writeLabels labels ++ [' '] → ∀ x : Millis,
      (start ++ strMillis x).toList = (Entry.sample name { labels, value := spelled x }).write :=
    fun h x => toList_sample _ h
  refine ⟨?_, ?_, hint ?_ _, rfl, ?_, ?_, hint ?_ _, rfl, ?_, ?_, hint ?_ _, rfl,
    ?_, ?_, hmillis ?_ _, hmillis ?_ _, hmillis ?_ _, rfl, ?_, ?_, hmillis ?_ _, hmillis ?_ _, rfl,
    ?_, ?_, hint ?_ _, rfl, ?_, ?_, hint ?_ _, rfl, ?_, ?_, hfloat ?_ _ _, trivial⟩
  all_goals decide +kernel

theorem value_rounded (digits : ℕ) (x : ℚ) : (rounded digits (round digits x)).value = round digits x := by
  have hpow : (10 : ℚ) ^ digits ≠ 0 := by positivity
  rw [rounded, Number.value, round, div_mul_cancel₀ _ hpow, Int.floor_intCast]

theorem value_percentile (values : List Millis) (p : ℚ) :
    (spelled (percentile values p)).value = (percentile values p).value := by
  rw [percentile]
  split
  · simp [spelled, rounded, Number.value, Millis.value]
  · cases select values p with
    | int n => rfl
    | float x => exact value_rounded 2 x

theorem valid_single {name help : String} {kind : Kind} (x : Number) (hname : validName isNameChar name.toList = true)
    (hhelp : help.toList.head?.any isBlank = false) : (single name help kind x).Valid := by
  refine ⟨hname, fun t ht c cs hc => ?_, fun s hs l hl => ?_, List.cons_ne_nil _ _⟩
  · cases ht
    rwa [hc, List.head?_cons, Option.any_some] at hhelp
  · rw [List.mem_singleton.mp hs] at hl
    cases hl

theorem valid_quantiles {name help : String} (x : String × Number) (xs : List (String × Number))
    (hname : validName isNameChar name.toList = true) (hhelp : help.toList.head?.any isBlank = false) :
    (quantiles name help (x :: xs)).Valid := by
  refine ⟨hname, fun t ht c cs hc => ?_, fun s hs l hl => ?_, List.cons_ne_nil _ _⟩
  · cases ht
    rwa [hc, List.head?_cons, Option.any_some] at hhelp
  · obtain ⟨y, -, rfl⟩ := List.mem_map.mp hs
    rw [List.mem_singleton.mp hl]
    exact (by decide : validName isLabelChar "quantile".toList = true)

theorem valid_written (m : Report) : ∀ g ∈ written m, g.Valid := by
  simp only [written, families, List.forall_mem_cons]
  refine ⟨valid_single _ ?_ ?_, valid_single _ ?_ ?_, valid_single _ ?_ ?_, valid_quantiles _ _ ?_ ?_,
    valid_quantiles _ _ ?_ ?_, valid_single _ ?_ ?_, valid_single _ ?_ ?_, valid_single _ ?_ ?_,
    fun _ h => absurd h List.not_mem_nil⟩
  all_goals decide +kernel

theorem nodup_written (m : Report) : ((written m).map Family.name).Nodup := by
  change ["inference_requests_total", "inference_errors_total", "inference_tokens_total", "inference_latency_ms",
    "inference_ttft_ms", "inference_batch_size", "inference_queue_depth", "inference_cache_utilization"].Nodup
  decide

/-- Nothing is lost in the text: a report has no more digits than are written. -/
theorem value_written (records : List LatencyRecord) (now : ℚ) (m : MetricsCollector) :
    (written (report records now m)).map (Family.map Number.value) = exposed (report records now m) := by
  have hint : ∀ n : ℕ, (Number.int n).value = n := fun n => Int.cast_natCast n
  simp only [written, exposed, families, report, List.map_cons, List.map_nil, single, quantiles, Family.map,
    Sample.map, hint, value_percentile, value_rounded]

/-- CORRECT: a scraper that reads the text finds the report, to the last digit. -/
theorem read_formatPrometheus (m : MetricsCollector) (locked after : ℚ) :
    Exposition.read (m.formatPrometheus locked after).1.toList = some (exposed (m.getMetrics locked after).1) := by
  have htext : (m.formatPrometheus locked after).1.toList = write (written (m.getMetrics locked after).1) := by
    have hne : expositionLines (m.getMetrics locked after).1 ≠ [] := List.cons_ne_nil _ _
    change (exposition (m.getMetrics locked after).1).toList = _
    rw [exposition, toList_joined hne, expositionLines_eq, List.flatMap_map]
    rfl
  rw [htext, Exposition.read_write (valid_written _) (nodup_written _)]
  exact congrArg some (value_written _ _ _)

end MetricsCollector

end ModelServing
