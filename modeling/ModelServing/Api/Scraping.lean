import ModelServing.Api.Prometheus

/-! The server between scrapes: `/generate` and `/metrics` in any order. A scrape sets the gauges and
    drops records that are too old, and nobody notices: with the scrapes left out the same calls get
    the same answers, and a scrape at the end finds the same. -/

namespace ModelServing

namespace Server

open Trace

variable {κ : Type} {o : Outside κ} {s s' t t' : State} {c : Call}

/-- What `/metrics` answers. -/
inductive MetricsReply where
  | json (report : MetricsCollector.Report)
  | plainText (content : String)

/-- `metrics`; the clock shows `locked` under the lock and `after` when the uptime is taken. -/
def metrics (format : String) (locked after : ℚ) (s : State) : MetricsReply × State :=
  let m :=
    match s.batchingEngine with
    | none => s.metrics
    | some e =>
      s.metrics.updateGauges (some e.batchSize) (some e.scheduler.pendingCount) (some e.cacheManager.utilization)
  if format = "prometheus" then
    let (text, m) := m.formatPrometheus locked after
    (.plainText text, { s with metrics := m })
  else
    let (report, m) := m.getMetrics locked after
    (.json report, { s with metrics := m })

/-! ### What a call does to the metrics -/

/-- What is recorded of a call. -/
inductive Recording where
  | nothing
  | error
  | request (totalMs ttftMs : Millis) (tokensGenerated : ℕ) (tokensPerSecond : ℚ)

def Recording.apply (c : Call) : Recording → MetricsCollector → MetricsCollector
  | .nothing, m => m
  | .error, m => m.recordError
  | .request totalMs ttftMs n tps, m => m.recordRequest totalMs ttftMs n tps c.timestamp c.now

/-- A handler never looks at the metrics. -/
def Blind (c : Call) (s : State) (handler : State → Reply × State) : Prop :=
  ∃ w : Recording, ∀ m, handler { s with metrics := m } =
    ((handler s).1, { (handler s).2 with metrics := w.apply c m })

theorem blind_naive (o : Outside κ) (s : State) (c : Call) : Blind c s fun s => s.generateNaive o c := by
  obtain ⟨mode, naive, batching, streaming, m₀⟩ := s
  unfold Blind State.generateNaive
  cases naive with
  | none => exact ⟨.nothing, fun m => rfl⟩
  | some engine =>
    rcases hgen : engine.generate o.env o.modelGenerate (engineRequest c.request c.requestId) c.calls c.clock with
      ⟨err | result, engine'⟩
    · exact ⟨.error, fun m => by simp only [hgen]; rfl⟩
    · exact ⟨.request (.float (result.totalTime * 1000)) (.float (result.timeToFirstToken * 1000))
        result.numGeneratedTokens result.tokensPerSecond, fun m => by simp only [hgen]; rfl⟩

theorem blind_stream (o : Outside κ) (s : State) (c : Call) : Blind c s fun s => s.generateStream o c := by
  obtain ⟨mode, naive, batching, streaming, m₀⟩ := s
  unfold Blind State.generateStream
  cases streaming <;> exact ⟨.nothing, fun m => rfl⟩

theorem blind_batching (o : Outside κ) (s : State) (c : Call) : Blind c s fun s => s.generateBatching o c := by
  obtain ⟨mode, naive, batching, streaming, m₀⟩ := s
  unfold Blind State.generateBatching
  cases batching with
  | none => exact ⟨.nothing, fun m => rfl⟩
  | some e =>
    rcases hsub : State.submitted o c e with ⟨_ | _, e₁⟩
    · exact ⟨.nothing, fun m => by simp only [hsub]; rfl⟩
    · rcases hloop : e₁.runUntilEmpty o.env with ⟨err | completed, e₂⟩
      · exact ⟨.nothing, fun m => by simp only [hsub, hloop]; rfl⟩
      · rcases hans : answer e₂ (completed.map SequenceState.request) c.requestId with result | ⟨code, detail⟩ | err
        · set elapsed := c.clock.finish - c.clock.start with helapsed
          exact ⟨.request (.float (elapsed * 1000)) (.int 0) result.usage.generatedTokens
            (if elapsed > 0 then result.usage.generatedTokens / elapsed else 0),
            fun m => by simp only [hsub, hloop, hans]; rfl⟩
        · exact ⟨.error, fun m => by simp only [hsub, hloop, hans]; rfl⟩
        · exact ⟨.error, fun m => by simp only [hsub, hloop, hans]; rfl⟩

theorem blind_generate (o : Outside κ) (s : State) (c : Call) : Blind c s fun s => s.generate o c := by
  unfold Blind State.generate
  by_cases hbatch : s.engineMode = "batching" ∧ ¬ c.request.stream
  · simp only [if_pos hbatch]
    exact blind_batching o s c
  · by_cases hstream : c.request.stream
    · simp only [if_neg hbatch, if_pos hstream]
      exact blind_stream o s c
    · simp only [if_neg hbatch, if_neg hstream]
      exact blind_naive o s c

/-- An engine that is there stays there. -/
theorem engine_generate (h : (s.generate o c).2.batchingEngine = none) : s.batchingEngine = none := by
  have hbatching : (s.generateBatching o c).2.batchingEngine = none → s.batchingEngine = none := fun h => by
    have heq : (s.generateBatching o c).2.batchingEngine =
        (Server.generateBatching o.env s.batchingEngine c.request c.requestId).2 :=
      congrArg Prod.snd (State.generateBatching_eq o s c)
    rw [heq] at h
    cases hs : s.batchingEngine with
    | none => rfl
    | some e =>
      rw [hs] at h
      cases h
  have hstream : (s.generateStream o c).2.batchingEngine = s.batchingEngine := by
    unfold State.generateStream
    split <;> rfl
  have hnaive : (s.generateNaive o c).2.batchingEngine = s.batchingEngine := by
    unfold State.generateNaive
    split
    · rfl
    · split <;> rfl
  rw [State.generate] at h
  split_ifs at h with h₁ h₂
  · exact hbatching h
  · exact hstream ▸ h
  · exact hnaive ▸ h

/-! ### What a scrape shows -/

/-- The metrics with the gauges of the engine. -/
def gauged (engine : Option Engine) (m : MetricsCollector) : MetricsCollector :=
  match engine with
  | none => m
  | some e => m.updateGauges (some e.batchSize) (some e.scheduler.pendingCount) (some e.cacheManager.utilization)

/-- What a scrape makes of the metrics. -/
def shown (now : ℚ) (s : State) : MetricsCollector := (gauged s.batchingEngine s.metrics).pruneOldRecords now

theorem metrics_eq (format : String) (locked after : ℚ) (s : State) :
    metrics format locked after s =
      (if format = "prometheus" then
        .plainText (MetricsCollector.exposition (MetricsCollector.report (shown locked s).records after (shown locked s)))
      else .json (MetricsCollector.report (shown locked s).records after (shown locked s)),
      { s with metrics := shown locked s }) := by
  unfold metrics
  split_ifs <;> rfl

/-- From `now` on no scrape can tell the states apart, and neither can a call. -/
structure Alike (now : ℚ) (s t : State) : Prop where
  rest : s = { t with metrics := s.metrics }
  shown : ∀ now', now ≤ now' → shown now' s = Server.shown now' t

theorem dropWhile_dropWhile {α : Type*} {p q : α → Bool} (h : ∀ a, p a = true → q a = true) (l : List α) :
    (l.dropWhile p).dropWhile q = l.dropWhile q := by
  induction l with
  | nil => rfl
  | cons a l ih =>
    by_cases ha : p a = true
    · rw [List.dropWhile_cons_of_pos ha, List.dropWhile_cons_of_pos (h a ha), ih]
    · rw [List.dropWhile_cons_of_neg ha]

/-- Pruning twice is pruning at the later time. -/
theorem prune_prune {now now' : ℚ} (h : now ≤ now') (m : MetricsCollector) :
    (m.pruneOldRecords now).pruneOldRecords now' = m.pruneOldRecords now' := by
  have hold : ∀ r : LatencyRecord, decide (r.timestamp < now - m.windowSeconds) = true →
      decide (r.timestamp < now' - m.windowSeconds) = true := fun r hr =>
    decide_eq_true ((of_decide_eq_true hr).trans_le (sub_le_sub_right h _))
  exact congrArg (fun rs => { m with records := rs }) (dropWhile_dropWhile hold m.records)

theorem prune_gauged (now : ℚ) (engine : Option Engine) (m : MetricsCollector) :
    (gauged engine m).pruneOldRecords now = gauged engine (m.pruneOldRecords now) := by
  cases engine <;> rfl

/-- What has been pruned would have been pruned later as well. -/
theorem prune_apply {now : ℚ} (w : Recording) (h : c.now ≤ now) (m : MetricsCollector) :
    (w.apply c (m.pruneOldRecords now)).pruneOldRecords now = (w.apply c m).pruneOldRecords now := by
  cases w with
  | nothing => exact prune_prune le_rfl m
  | error => exact congrArg MetricsCollector.recordError (prune_prune le_rfl m)
  | request totalMs ttftMs n tps =>
    have hdrop : ∀ (p : LatencyRecord → Bool) (l l' : List LatencyRecord),
        (l.dropWhile p ++ l').dropWhile p = (l ++ l').dropWhile p := fun p l l' => by
      rw [List.dropWhile_append, List.dropWhile_append, dropWhile_dropWhile fun _ => id]
    rw [Recording.apply, Recording.apply, MetricsCollector.recordRequest, MetricsCollector.recordRequest,
      MetricsCollector.appendRecord, MetricsCollector.appendRecord, prune_prune h, prune_prune h]
    exact congrArg (fun rs => { m with
      records := rs
      totalRequests := m.totalRequests + 1
      totalTokensGenerated := m.totalTokensGenerated + n }) (hdrop _ m.records _)

/-- What a call leaves to be shown depends on what there was to be shown. -/
theorem prune_gauged_apply {now : ℚ} (w : Recording) (h : c.now ≤ now) {e e' : Option Engine}
    (he : e' = none → e = none) (m : MetricsCollector) : (gauged e' (w.apply c m)).pruneOldRecords now =
      (gauged e' (w.apply c ((gauged e m).pruneOldRecords now))).pruneOldRecords now := by
  have hgauge : ∀ m, gauged e' (w.apply c (gauged e m)) = gauged e' (w.apply c m) := by
    intro m
    cases e' with
    | none => rw [he rfl]; rfl
    | some x => cases e <;> cases w <;> rfl
  rw [prune_gauged now e' (w.apply c ((gauged e m).pruneOldRecords now)), prune_apply w h, ← prune_gauged, hgauge]

/-- A scrape makes no difference. -/
theorem Alike.scrape {now locked : ℚ} (A : Alike now s t) (h : now ≤ locked) :
    Alike locked { s with metrics := Server.shown locked s } t := by
  have hrest := congrArg (fun x : State => { x with metrics := Server.shown locked s }) A.rest
  refine ⟨hrest, fun now' hle => ?_⟩
  have hgauge : gauged s.batchingEngine (Server.shown locked s) = Server.shown locked s := by
    rw [Server.shown]
    cases s.batchingEngine <;> rfl
  rw [← A.shown now' (h.trans hle), Server.shown]
  change (gauged s.batchingEngine (Server.shown locked s)).pruneOldRecords now' = _
  rw [hgauge, Server.shown, prune_prune hle]
  rfl

/-- A call makes the same difference to both. -/
theorem Alike.generate {now : ℚ} (A : Alike now s t) (h : now ≤ c.now) :
    (s.generate o c).1 = (t.generate o c).1 ∧ Alike c.now (s.generate o c).2 (t.generate o c).2 := by
  obtain ⟨w, hw⟩ := blind_generate o t c
  have hs : s.generate o c = ((t.generate o c).1, { (t.generate o c).2 with metrics := w.apply c s.metrics }) := by
    rw [← hw s.metrics, ← A.rest]
  have ht : (t.generate o c).2.metrics = w.apply c t.metrics := congrArg (fun x => x.2.metrics) (hw t.metrics)
  have hengine : s.batchingEngine = t.batchingEngine := by rw [A.rest]
  rw [hs]
  refine ⟨rfl, rfl, fun now' hle => ?_⟩
  have hsame := A.shown now' (h.trans hle)
  rw [Server.shown, Server.shown, hengine] at hsame
  rw [Server.shown, Server.shown, ht, prune_gauged_apply w hle (engine_generate (o := o) (c := c)) s.metrics, hsame,
    ← prune_gauged_apply w hle (engine_generate (o := o) (c := c)) t.metrics]

/-! ### Runs -/

/-- The server, and what the clock has shown last. -/
structure Monitored where
  state : State
  clock : ℚ

inductive Exchange where
  | generate (c : Call) (reply : Reply)
  | metrics (format : String) (locked after : ℚ) (reply : MetricsReply)

def Exchange.isGenerate : Exchange → Bool
  | .generate _ _ => true
  | .metrics _ _ _ _ => false

/-- One exchange; the clock never goes back. -/
def Serving (o : Outside κ) (s : Monitored) : Exchange → Monitored → Prop
  | .generate c reply, s' => s.clock ≤ c.now ∧ s'.clock = c.now ∧ s.state.generate o c = (reply, s'.state)
  | .metrics format locked after reply, s' =>
    s.clock ≤ locked ∧ s'.clock = locked ∧ metrics format locked after s.state = (reply, s'.state)

theorem serving_generate (o : Outside κ) (s : Monitored) (c : Call) (h : s.clock ≤ c.now) :
    Serving o s (.generate c (s.state.generate o c).1) ⟨(s.state.generate o c).2, c.now⟩ := ⟨h, rfl, rfl⟩

theorem serving_metrics (o : Outside κ) (s : Monitored) (format : String) {locked : ℚ} (after : ℚ)
    (h : s.clock ≤ locked) : Serving o s (.metrics format locked after (metrics format locked after s.state).1)
      ⟨(metrics format locked after s.state).2, locked⟩ := ⟨h, rfl, rfl⟩

/-- CORRECT: scraping is passive. Leave the scrapes out of any history of calls and scrapes: the calls
    are answered as before, and whatever is scraped in the end is the same. -/
theorem scraping_passive {s₀ s : Monitored} {evs : List Exchange} (hrun : Run (Serving o) s₀ evs s) :
    ∃ t, Run (Serving o) s₀ (evs.filter Exchange.isGenerate) t ∧
      t.state = { s.state with metrics := t.state.metrics } ∧
      ∀ format locked after, s.clock ≤ locked →
        (metrics format locked after t.state).1 = (metrics format locked after s.state).1 := by
  have hend := hrun.invariant (I := fun evs s => ∃ t, Run (Serving o) s₀ (evs.filter Exchange.isGenerate) t ∧
    t.clock ≤ s.clock ∧ Alike s.clock s.state t.state) ⟨s₀, .nil, le_rfl, rfl, fun _ _ => rfl⟩ ?_
  · obtain ⟨t, ht, -, A⟩ := hend
    refine ⟨t, ht, ?_, fun format locked after hle => ?_⟩
    · rw [A.rest]
    · rw [metrics_eq, metrics_eq, A.shown locked hle]
  · rintro evs s ev s' - ⟨t, ht, hle, A⟩ hst
    cases ev with
    | generate c reply =>
      obtain ⟨hclock, hclock', heq⟩ := hst
      obtain ⟨hreply, A'⟩ := A.generate (o := o) hclock
      rw [heq] at hreply A'
      refine ⟨⟨(t.state.generate o c).2, c.now⟩, ?_, hclock'.ge, hclock' ▸ A'⟩
      rw [List.filter_append]
      exact .snoc ht ⟨hle.trans hclock, rfl, Prod.ext hreply.symm rfl⟩
    | metrics format locked after reply =>
      obtain ⟨hclock, hclock', heq⟩ := hst
      rw [metrics_eq] at heq
      have hstate := (Prod.mk.inj heq).2
      refine ⟨t, ?_, ?_, ?_⟩
      · rwa [List.filter_append, show [Exchange.metrics format locked after reply].filter Exchange.isGenerate = [] from rfl,
          List.append_nil]
      · exact hle.trans (hclock'.symm ▸ hclock)
      · rw [← hstate, hclock']
        exact A.scrape hclock

/-- A call and a scrape after it: without the scrape the engine is the same. -/
theorem scraping_passive_json :
    let o := Outside.around (Env.rowwise fun _ => [.fin 0])
    let s₀ : Monitored := ⟨State.lifespan "batching" .fcfs 16 8 0, 0⟩
    let c := Call.still { prompt := "p", prompt_bounds := by decide }
    let s := (s₀.state.generate o c).2
    ∃ t, Run (Serving o) s₀ [.generate c (s₀.state.generate o c).1] t ∧
      t.state = { (metrics "json" 1 1 s).2 with metrics := t.state.metrics } := by
  intro o s₀ c s
  have hcall := serving_generate o s₀ c le_rfl
  have hscrape := serving_metrics o ⟨s, c.now⟩ "json" 1 zero_le_one
  obtain ⟨t, ht, hsame, -⟩ := scraping_passive (.snoc (.snoc .nil hcall) hscrape)
  exact ⟨t, ht, hsame⟩

end Server

end ModelServing
