import ModelServing.Api.Metrics
import ModelServing.Lib.Run

/-! The window under concurrent recording. A call of `record_request` reads the clock for its record
    and takes the lock later, so records reach the deque in the order of the lock and not of their
    timestamps. A call of `get_metrics` drops what is too old from the front only. What it copies is
    the window exactly when no record that is too old was appended after one that is not. -/

namespace ModelServing

open Trace

namespace MetricsCollector

/-- The calls in flight, and all records that have been appended so far. -/
structure Recorders where
  clock : ℚ
  waiting : List LatencyRecord := []
  collector : MetricsCollector
  log : List LatencyRecord := []

/-- What a call does at once. -/
inductive Section where
  /-- `record_request` makes its record. -/
  | stamp (record : LatencyRecord)
  /-- `record_request` has the lock. -/
  | append (record : LatencyRecord) (now : ℚ)
  | error
  /-- `get_metrics` has the lock and copies the records. -/
  | copy (now : ℚ) (records : List LatencyRecord)

/-- The calls take their sections in any order; the clock never goes back. -/
inductive Interleave : Recorders → Section → Recorders → Prop
  | stamp {s : Recorders} {record : LatencyRecord} : s.clock ≤ record.timestamp →
      Interleave s (.stamp record)
        { s with clock := record.timestamp, waiting := record :: s.waiting }
  | append {s : Recorders} {record : LatencyRecord} {now : ℚ} : record ∈ s.waiting → s.clock ≤ now →
      Interleave s (.append record now)
        { clock := now
          waiting := s.waiting.erase record
          collector := s.collector.appendRecord record now
          log := s.log ++ [record] }
  | error {s : Recorders} : Interleave s .error { s with collector := s.collector.recordError }
  | copy {s : Recorders} {now : ℚ} : s.clock ≤ now →
      Interleave s (.copy now (s.collector.pruneOldRecords now).records)
        { s with clock := now, collector := s.collector.pruneOldRecords now }

/-- No call has been made yet. -/
def Recorders.new (windowSeconds startTime : ℚ) : Recorders where
  clock := startTime
  collector := { windowSeconds, startTime }

/-- The records of the window at `now`. -/
def inWindow (windowSeconds now : ℚ) (log : List LatencyRecord) : List LatencyRecord :=
  log.filter fun r => now - windowSeconds ≤ r.timestamp

/-- A record is appended that is no older than those in the deque. -/
def InTurn (s : Recorders) : Section → Prop
  | .append record _ => ∀ r ∈ s.collector.records, r.timestamp ≤ record.timestamp
  | _ => True

instance (s : Recorders) : DecidablePred (InTurn s)
  | .append record _ =>
    inferInstanceAs (Decidable (∀ r ∈ s.collector.records, r.timestamp ≤ record.timestamp))
  | .stamp _ | .error | .copy _ _ => inferInstanceAs (Decidable True)

variable {s s' : Recorders} {a : Section} {as : List Section} {windowSeconds startTime now : ℚ}
  {records log : List LatencyRecord} {record : LatencyRecord}

/-! ### Dropping from the front -/

/-- Dropping from the front is filtering when what is to go stands in front of what is to stay. -/
theorem dropWhile_eq_filter_iff {α : Type*} {P : α → Prop} [DecidablePred P] {l : List α} :
    (l.dropWhile fun a => decide (P a)) = l.filter (fun a => decide (¬ P a)) ↔
      l.Pairwise fun a b => P b → P a := by
  induction l with
  | nil => simp
  | cons a l ih =>
    rw [List.pairwise_cons]
    by_cases ha : P a
    · rw [List.dropWhile_cons_of_pos (by simpa using ha), List.filter_cons_of_neg (by simpa using ha),
        ih]
      exact (and_iff_right fun _ _ _ => ha).symm
    · rw [List.dropWhile_cons_of_neg (by simpa using ha), List.filter_cons_of_pos (by simpa using ha),
        List.cons_inj_right, eq_comm, List.filter_eq_self]
      constructor
      · intro h
        have hnot : ∀ b ∈ l, ¬ P b := fun b hb => by simpa using h b hb
        refine ⟨fun b hb hPb => absurd hPb (hnot b hb), ?_⟩
        exact List.pairwise_of_forall_mem_list fun _ _ b hb hPb => absurd hPb (hnot b hb)
      · rintro ⟨h, -⟩ b hb
        simpa using fun hPb => ha (h b hb hPb)

/-! ### What has been dropped -/

/-- What has left the deque was appended before what is in it, and is too old for good. -/
structure Dropped (windowSeconds : ℚ) (s : Recorders) : Prop where
  window : s.collector.windowSeconds = windowSeconds
  old : ∃ dropped, s.log = dropped ++ s.collector.records ∧
    ∀ r ∈ dropped, r.timestamp < s.clock - windowSeconds

/-- Pruning the deque is pruning everything that was ever appended. -/
theorem Dropped.prune (D : Dropped windowSeconds s) (h : s.clock ≤ now) :
    (s.collector.pruneOldRecords now).records =
      s.log.dropWhile fun r => decide (r.timestamp < now - windowSeconds) := by
  obtain ⟨dropped, hlog, hold⟩ := D.old
  rw [hlog, List.dropWhile_append_of_pos, pruneOldRecords, D.window]
  intro r hr
  exact decide_eq_true ((hold r hr).trans_le (sub_le_sub_right h _))

/-- Pruning drops what is too old, and what is too old stays too old. -/
theorem Dropped.pruned (D : Dropped windowSeconds s) (h : s.clock ≤ now) :
    Dropped windowSeconds
      { s with clock := now, collector := s.collector.pruneOldRecords now } := by
  obtain ⟨dropped, hlog, hold⟩ := D.old
  let old : LatencyRecord → Bool := fun r => decide (r.timestamp < now - s.collector.windowSeconds)
  refine ⟨D.window, dropped ++ s.collector.records.takeWhile old, ?_, fun r hr => ?_⟩
  · rw [List.append_assoc, hlog]
    exact congrArg _ List.takeWhile_append_dropWhile.symm
  · rcases List.mem_append.mp hr with hr | hr
    · exact (hold r hr).trans_le (sub_le_sub_right h _)
    · have hmem : old r = true := List.mem_takeWhile_imp hr
      exact D.window ▸ of_decide_eq_true hmem

theorem Dropped.step (D : Dropped windowSeconds s) (h : Interleave s a s') :
    Dropped windowSeconds s' := by
  cases h with
  | stamp hclock =>
    obtain ⟨dropped, hlog, hold⟩ := D.old
    exact ⟨D.window, dropped, hlog, fun r hr => (hold r hr).trans_le (sub_le_sub_right hclock _)⟩
  | @append record now _ hclock =>
    obtain ⟨dropped, hlog, hold⟩ := D.old
    let s₁ : Recorders :=
      { s with
        waiting := s.waiting.erase record
        collector := { s.collector with
          records := s.collector.records ++ [record]
          totalRequests := s.collector.totalRequests + 1
          totalTokensGenerated := s.collector.totalTokensGenerated + record.tokensGenerated }
        log := s.log ++ [record] }
    have D₁ : Dropped windowSeconds s₁ :=
      ⟨D.window, dropped, by rw [← List.append_assoc, ← hlog], hold⟩
    exact D₁.pruned hclock
  | error => exact ⟨D.window, D.old⟩
  | copy hclock => exact D.pruned hclock

theorem Dropped.run (h : Run Interleave (.new windowSeconds startTime) as s) :
    Dropped windowSeconds s :=
  h.always ⟨rfl, [], rfl, fun _ hr => absurd hr List.not_mem_nil⟩ fun _ _ _ D hs => D.step hs

/-! ### Recorders that take turns -/

/-- The deque is in the order of the timestamps. -/
def Sorted (s : Recorders) : Prop :=
  s.collector.records.Pairwise fun a b => a.timestamp ≤ b.timestamp

theorem Sorted.step (S : Sorted s) (h : Interleave s a s') (hturn : InTurn s a) : Sorted s' := by
  cases h with
  | stamp _ => exact S
  | append _ _ =>
    refine List.Pairwise.sublist (List.dropWhile_sublist _) ?_
    rw [List.pairwise_append]
    refine ⟨S, List.pairwise_singleton _ _, fun r hr r' hr' => ?_⟩
    exact List.mem_singleton.mp hr' ▸ hturn r hr
  | error => exact S
  | copy _ => exact List.Pairwise.sublist (List.dropWhile_sublist _) S

theorem Sorted.run
    (h : Run (fun s a s' => Interleave s a s' ∧ InTurn s a) (.new windowSeconds startTime) as s) :
    Sorted s :=
  h.always (show Sorted (.new windowSeconds startTime) from List.Pairwise.nil)
    fun _ _ _ S hs => S.step hs.1 hs.2

/-! ### The window -/

theorem inWindow_eq : inWindow windowSeconds now log =
    log.filter fun r => decide (¬ r.timestamp < now - windowSeconds) := by
  simp only [inWindow, not_lt]

theorem Dropped.inWindow_eq (D : Dropped windowSeconds s) (h : s.clock ≤ now) :
    inWindow windowSeconds now s.log = inWindow windowSeconds now s.collector.records := by
  obtain ⟨dropped, hlog, hold⟩ := D.old
  rw [hlog, inWindow, List.filter_append, List.filter_eq_nil_iff.mpr, List.nil_append, inWindow]
  intro r hr
  simpa using lt_sub_iff_add_lt.mp ((hold r hr).trans_le (sub_le_sub_right h _))

/-- A copy is the window exactly when no record older than its cutoff was appended after one that is
    not. In particular it is when the recorders take turns. -/
theorem window_exact_iff (windowSeconds startTime : ℚ) :
    (∀ as s now records s', Run Interleave (.new windowSeconds startTime) as s →
      Interleave s (.copy now records) s' →
      (records = inWindow windowSeconds now s.log ↔ s.log.Pairwise fun a b =>
        b.timestamp < now - windowSeconds → a.timestamp < now - windowSeconds)) ∧
    ∀ as s, Run (fun s a s' => Interleave s a s' ∧ InTurn s a) (.new windowSeconds startTime) as s →
      ∀ now records s', Interleave s (.copy now records) s' →
        records = inWindow windowSeconds now s.log := by
  constructor
  · intro as s now records s' hrun hcopy
    cases hcopy with
    | copy hclock =>
      rw [(Dropped.run hrun).prune hclock, MetricsCollector.inWindow_eq]
      exact dropWhile_eq_filter_iff
  · intro as s hrun now records s' hcopy
    cases hcopy with
    | copy hclock =>
      have D := Dropped.run (hrun.mono fun _ _ _ h => h.1)
      rw [D.inWindow_eq hclock, MetricsCollector.inWindow_eq, pruneOldRecords, D.window]
      refine dropWhile_eq_filter_iff.mpr ((Sorted.run hrun).imp fun hle hlt => ?_)
      exact hle.trans_lt hlt

/-- Two calls that get the lock in the order in which they read the clock. -/
theorem window_exact_iff_in_turn : ∃ s records s', Interleave s (.copy 305 records) s' ∧
    records = inWindow 300 305 s.log ∧ records = [⟨10, .float 1, .float 1, 1, 1⟩] := by
  have hrun : Run (fun s a s' => Interleave s a s' ∧ InTurn s a) (.new 300 0)
      [.stamp ⟨0, .float 1, .float 1, 1, 1⟩, .stamp ⟨10, .float 1, .float 1, 1, 1⟩,
        .append ⟨0, .float 1, .float 1, 1, 1⟩ 11, .append ⟨10, .float 1, .float 1, 1, 1⟩ 12] _ :=
    .snoc (.snoc (.snoc (.snoc .nil ⟨.stamp (by decide), trivial⟩) ⟨.stamp (by decide), trivial⟩)
      ⟨.append (by decide) (by decide), by decide +kernel⟩)
      ⟨.append (by decide) (by decide), by decide +kernel⟩
  exact ⟨_, _, _, .copy (by decide), (window_exact_iff 300 0).2 _ _ hrun _ _ _ (.copy (by decide)),
    by decide +kernel⟩

/-- Where the second call to read the clock is the first to get the lock, a record older than the
    cutoff hides behind a younger one. -/
theorem not_window_exact : ∃ as s records s', Run Interleave (.new 300 0) as s ∧
    Interleave s (.copy 305 records) s' ∧ records ≠ inWindow 300 305 s.log ∧
    records = [⟨10, .float 1, .float 1, 1, 1⟩, ⟨0, .float 1, .float 1, 1, 1⟩] := by
  have hrun : Run Interleave (.new 300 0)
      [.stamp ⟨0, .float 1, .float 1, 1, 1⟩, .stamp ⟨10, .float 1, .float 1, 1, 1⟩,
        .append ⟨10, .float 1, .float 1, 1, 1⟩ 11, .append ⟨0, .float 1, .float 1, 1, 1⟩ 12] _ :=
    .snoc (.snoc (.snoc (.snoc .nil (.stamp (by decide))) (.stamp (by decide)))
      (.append (by decide) (by decide))) (.append (by decide) (by decide))
  exact ⟨_, _, _, _, hrun, .copy (by decide), by decide +kernel, by decide +kernel⟩

end MetricsCollector

end ModelServing
