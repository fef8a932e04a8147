import ModelServing.Api.Deployment
import ModelServing.Api.Scraping
import ModelServing.Engine.Solo

/-! The two endpoints that watch the server: `/engine/stats` shows what the engine has counted, and
    `/metrics` what the handlers have. A handler waits until the engine is empty, so the batch never has
    more than one sequence, and both have counted the same. -/

namespace ModelServing

/-- What `NaiveEngine.stats` returns. -/
structure NaiveStats where
  engine : String := "naive"
  totalRequestsServed : ℕ
  batching : Bool := false
  kvCacheReuse : Bool := false
  deriving DecidableEq

namespace NaiveEngine

def stats (engine : NaiveEngine) : NaiveStats where
  totalRequestsServed := engine.requestCount

theorem generate_requestCount (env : Env) (modelGenerate : ModelGenerate) (engine : NaiveEngine)
    (request : GenerationRequest) (calls : ℕ) (clock : Readings) :
    (engine.generate env modelGenerate request calls clock).2.requestCount = engine.requestCount + 1 := by
  unfold generate
  repeat' split
  all_goals rfl

end NaiveEngine

namespace Server

open Engine

variable {κ : Type} {o : Outside κ} {c : Call} {e e₁ e₂ : Engine} {acc : List Ref} {qs done : List SequenceState}
  {numBlocks blockSize : ℕ} {maxBatchSize : ℤ} {policy : SchedulingPolicy} {startTime : ℚ} {mode : String}
  {s s' : State} {evs : List (Call × Reply)}

/-- What `/engine/stats` answers. -/
inductive StatsReply where
  | batching (stats : EngineStats)
  | naive (stats : NaiveStats)
  | httpException (statusCode : ℕ) (detail : String)
  deriving DecidableEq

/-- `engine_stats`. -/
def engineStats (s : State) : StatsReply :=
  match if s.engineMode = "batching" then s.batchingEngine else none, s.naiveEngine with
  | some e, _ => .batching e.getStats
  | none, some engine => .naive engine.stats
  | none, none => .httpException 503 "Engine not initialized"

/-! ### One call -/

/-- A call that is not turned away and raises nothing: its request is accepted, and the loop returns. -/
theorem handle_returns (hfull : e.scheduler.queueFull = false)
    (hans : ∀ err, (handle o.env e c.request c.requestId).1 ≠ .raised err) :
    ∃ e₁ done e₂, State.submitted o c e = (true, e₁) ∧ e₁.runUntilEmpty o.env = (.ok done, e₂) ∧
      handle o.env e c.request c.requestId = (answer e₂ (done.map SequenceState.request) c.requestId, e₂) := by
  have hsub := State.submitted_fst (o := o) (c := c) e
  rcases hs : State.submitted o c e with ⟨b, e₁⟩
  rw [hs, hfull] at hsub
  obtain rfl : b = true := hsub
  have hsubmit : e.ticked.submitRequest (schedRequest c.request c.requestId (o.env.clock e.scheduler.ticks)) =
    (true, e₁) := hs
  simp only [handle, serve, hsubmit] at hans ⊢
  rcases hl : e₁.runUntilEmpty o.env with ⟨err | done, e₂⟩
  · simp only [hl] at hans
    exact absurd rfl (hans err)
  · exact ⟨e₁, done, e₂, rfl, hl, rfl⟩

/-- The books after a call: its request was finished and answered with as many tokens as it got, or
    nobody was finished. -/
theorem books_call (K : Books numBlocks blockSize acc qs e) (R : AtRest e) (hmax : 0 ≤ e.maxBatchSize)
    (hid : NewId e c.requestId) (hs : State.submitted o c e = (true, e₁))
    (hl : e₁.runUntilEmpty o.env = (.ok done, e₂)) :
    Books numBlocks blockSize (acc ++ [e.scheduler.requests.next]) (qs ++ done) e₂ ∧
    ((done = [] ∧ answer e₂ (done.map SequenceState.request) c.requestId = .httpException 500 "Request not found") ∨
      ∃ q resp, done = [q] ∧ answer e₂ (done.map SequenceState.request) c.requestId = .ok resp ∧
        resp.usage.generatedTokens = tokenCount q) := by
  have hid' : NewId e.ticked c.requestId := ⟨hid.ne_empty, hid.unused⟩
  obtain ⟨T, L⟩ : _ ∧ Lone o.env numBlocks blockSize _ _ _ qs [] .idle e₁ := K.ticked.submit R.ticked hmax
    (fresh_schedRequest c.request hid' (o.env.clock e.scheduler.ticks)) hid.ne_empty rfl hs
  have L' := L.loop 10000 hl
  have T' := Straight.loop 10000 T hl
  rw [List.nil_append] at L'
  refine ⟨L'.books T', ?_⟩
  have hload := L'.load
  have hlen : done.length ≤ 1 := by omega
  rcases done with _ | ⟨q, _ | ⟨q', rest⟩⟩
  · exact Or.inl ⟨rfl, rfl⟩
  · obtain ⟨hr, S⟩ := L'.settled q List.mem_cons_self
    have hcount := T'.reported q.request
    have hpos : 0 < ([q].map SequenceState.request).count q.request :=
      List.count_pos_iff.mpr List.mem_cons_self
    rw [List.count_append] at hcount
    split at hcount
    · rename_i hdone
      obtain ⟨hacc, hst⟩ := hdone
      have herr : (e₂.request q.request).error = none := by
        by_contra he
        rcases T'.errors _ hacc he with h | h <;> cases hst.symm.trans h
      have hans : answer e₂ [q.request] (e₂.scheduler.idOf q.request) = _ := answer_completed L'.batch
        (fun x hx => List.mem_singleton.mp hx ▸ hacc) List.mem_cons_self hst herr
      rw [show e₂.scheduler.idOf q.request = c.requestId from hr ▸ L'.named, outcome,
        if_pos (show (e₂.request q.request).status = .COMPLETED from hst)] at hans
      refine Or.inr ⟨q, _, rfl, hans, ?_⟩
      rcases S.outcome with D | hc
      · exact D.generatedTokens
      · cases hst.symm.trans hc
    · omega
  · simp at hlen

/-! ### Both counts -/

/-- The engine has finished `qs`, and the handlers have counted them. -/
structure Reconciled (blockSize : ℕ) (acc : List Ref) (qs : List SequenceState) (e : Engine) (s : State) : Prop where
  mode : s.engineMode = "batching"
  engine : s.batchingEngine = some e
  books : Books 256 blockSize acc qs e
  requests : s.metrics.totalRequests = qs.length
  calls : s.metrics.totalRequests + s.metrics.totalErrors = acc.length
  tokens : s.metrics.totalTokensGenerated = tokensOf qs

theorem Reconciled.call (C : Reconciled blockSize acc qs e s) (R : AtRest e)
    (K : Kept (new maxBatchSize 128 60 policy 256 blockSize) e) (hmax : 0 < maxBatchSize)
    (hid : NewId e c.requestId) (hplain : c.request.stream = false)
    (hreply : ∀ err, (s.generate o c).1 ≠ .answer (.raised err)) :
    ∃ acc' qs' e', Reconciled blockSize acc' qs' e' (s.generate o c).2 := by
  obtain ⟨hreq, hengine⟩ := State.generate_batching (o := o) C.mode hplain C.engine
  have hsize : e.maxBatchSize = maxBatchSize := congrArg Prod.fst K.settings
  have hfull : e.scheduler.queueFull = false := by
    have hqueue : e.scheduler.maxQueueSize = 128 := congrArg (fun x => x.2.1.1) K.settings
    simp [RequestScheduler.queueFull, hqueue, RequestScheduler.pendingCount, R.pending]
  obtain ⟨e₁, done, e₂, hs, hl, hans⟩ := handle_returns (o := o) (c := c) hfull
    fun err herr => hreply err (by rw [hreq, herr])
  rw [hans] at hreq hengine
  have hmax' : 0 ≤ e.maxBatchSize := hsize ▸ hmax.le
  obtain ⟨B, hdone⟩ := books_call C.books R hmax' hid hs hl
  have hrec : s.Recorded o c := by
    refine ⟨hplain, ?_⟩
    rw [if_pos C.mode]
    refine ⟨e, C.engine, hfull, fun err herr => ?_⟩
    rw [hs, hl] at herr
    cases herr
  have hcounts := hrec.counts
  have hrequests := C.requests
  have hcalls := C.calls
  have htokens := C.tokens
  have hmode := (State.engineMode_generate o s c).trans C.mode
  rw [hreq] at hcounts
  suffices hbook : (s.generate o c).2.metrics.totalRequests = qs.length + done.length ∧
      (s.generate o c).2.metrics.totalRequests + (s.generate o c).2.metrics.totalErrors = acc.length + 1 ∧
      (s.generate o c).2.metrics.totalTokensGenerated = tokensOf qs + tokensOf done by
    obtain ⟨hr, hc, ht⟩ := hbook
    refine ⟨_, _, e₂, hmode, hengine, B, ?_, ?_, ?_⟩
    · rw [hr, List.length_append]
    · rw [hc, List.length_append, List.length_singleton]
    · rw [ht, tokensOf_append]
  rcases hdone with ⟨rfl, hfail⟩ | ⟨q, resp, rfl, hok, hgen⟩
  · rw [hfail] at hcounts
    rcases hcounts with ⟨n, hn, -⟩ | ⟨-, hr, he, ht⟩
    · cases hn
    · rw [hr, he, ht, List.length_nil]
      exact ⟨hrequests, by omega, htokens⟩
  · rw [hok] at hcounts
    rcases hcounts with ⟨n, hn, hr, he, ht⟩ | ⟨hn, -⟩
    · obtain rfl : resp.usage.generatedTokens = n := Option.some.inj hn
      rw [hr, he, ht, hgen, List.length_singleton, show tokensOf [q] = tokenCount q from List.sum_singleton]
      exact ⟨by omega, by omega, by omega⟩
    · cases hn

/-- Calls that raise nothing leave the engine at rest. -/
theorem atRest_of_calls (hbs : 0 < blockSize) (hmax : 0 < maxBatchSize) (hrun : Trace.Run (Numbered o)
      (State.lifespan "batching" policy blockSize maxBatchSize startTime) evs s)
    (hquiet : ∀ ev ∈ evs, ∀ err, ev.2 ≠ .answer (.raised err)) :
    ∃ e, s.batchingEngine = some e ∧ AtRest e ∧ Kept (new maxBatchSize 128 60 policy 256 blockSize) e := by
  obtain ⟨-, e, hs, he, hist, hold⟩ := engine_of_calls hrun
  refine ⟨e, he, atRest_of_history hist hbs hmax fun h hh err herr => ?_, kept_of_history hist hbs⟩
  obtain ⟨ev, hev, heq⟩ := hold h hh
  exact hquiet ev hev err (by rw [heq, herr])

theorem reconciled_of_calls (hbs : 0 < blockSize) (hmax : 0 < maxBatchSize) (hrun : Trace.Run (Numbered o)
      (State.lifespan "batching" policy blockSize maxBatchSize startTime) evs s)
    (hquiet : ∀ ev ∈ evs, ∀ err, ev.2 ≠ .answer (.raised err)) :
    ∃ acc qs e, Reconciled blockSize acc qs e s ∧ AtRest e := by
  have hinv := hrun.invariant (I := fun evs s => (∀ ev ∈ evs, ∀ err, ev.2 ≠ .answer (.raised err)) →
    ∃ acc qs e, Reconciled blockSize acc qs e s) ?_ ?_
  · obtain ⟨acc, qs, e, C⟩ := hinv hquiet
    obtain ⟨e', he', R, -⟩ := atRest_of_calls hbs hmax hrun hquiet
    obtain rfl := Option.some.inj (C.engine.symm.trans he')
    exact ⟨acc, qs, e, C, R⟩
  · exact fun _ => ⟨[], [], _, rfl, rfl, Books.new hbs, rfl, rfl, rfl⟩
  · rintro evs s ⟨c, reply⟩ s' hr hi ⟨hst, hid⟩ hquiet
    have hst : s.generate o c = (reply, s') := hst
    have hbefore : ∀ ev ∈ evs, ∀ err, ev.2 ≠ .answer (.raised err) := fun ev hev =>
      hquiet ev (List.mem_append_left _ hev)
    obtain ⟨acc, qs, e, C⟩ := hi hbefore
    cases hstream : c.request.stream with
    | true =>
      have hsame := (State.generate_stream (o := o) (s := s) hstream).1
      rw [hst] at hsame
      obtain rfl : s' = s := hsame
      exact ⟨acc, qs, e, C⟩
    | false =>
      obtain ⟨e', he', R, K⟩ := atRest_of_calls hbs hmax hr hbefore
      obtain rfl := Option.some.inj (C.engine.symm.trans he')
      have hnext := C.call (o := o) R K hmax (hid e C.engine) hstream fun err herr =>
        hquiet (c, reply) (List.mem_append_right _ List.mem_cons_self) err (by rw [← herr, hst])
      rwa [hst] at hnext

/-- In naive mode the engine counts the calls that are not streams, like the handler. -/
theorem served_of_calls (hmode : mode ≠ "batching") (hrun : Trace.Run (Handling o)
      (State.lifespan mode policy blockSize maxBatchSize startTime) evs s) :
    s.engineMode ≠ "batching" ∧ ∃ engine, s.naiveEngine = some engine ∧
      engine.requestCount = s.metrics.totalRequests + s.metrics.totalErrors := by
  refine hrun.invariant (I := fun _ s => s.engineMode ≠ "batching" ∧ ∃ engine, s.naiveEngine = some engine ∧
    engine.requestCount = s.metrics.totalRequests + s.metrics.totalErrors) ⟨hmode, _, rfl, rfl⟩ ?_
  rintro evs s ⟨c, reply⟩ s' - ⟨hmode, engine, he, hcount⟩ hst
  have hst : s.generate o c = (reply, s') := hst
  obtain rfl : (s.generate o c).2 = s' := congrArg Prod.snd hst
  refine ⟨(State.engineMode_generate o s c).symm ▸ hmode, ?_⟩
  cases hstream : c.request.stream with
  | true =>
    rw [(State.generate_stream (o := o) (s := s) hstream).1]
    exact ⟨engine, he, hcount⟩
  | false =>
    have hgen : s.generate o c = s.generateNaive o c := by simp [State.generate, hstream, hmode]
    have hcounts := State.counts_naive (o := o) (c := c) (s := s) (by rw [he]; exact Option.some_ne_none engine)
    have hrequests := engine.generate_requestCount o.env o.modelGenerate (engineRequest c.request c.requestId) c.calls
      c.clock
    rw [hgen]
    have hengine : (s.generateNaive o c).2.naiveEngine = some (engine.generate o.env o.modelGenerate
        (engineRequest c.request c.requestId) c.calls c.clock).2 := by
      unfold State.generateNaive
      simp only [he]
      rcases engine.generate o.env o.modelGenerate (engineRequest c.request c.requestId) c.calls c.clock with
        ⟨err | result, engine'⟩ <;> rfl
    refine ⟨_, hengine, ?_⟩
    rcases hcounts with ⟨n, -, hr, herr, -⟩ | ⟨-, hr, herr, -⟩ <;> omega

/-- A report has the counters of the handlers and the gauges of the engine. -/
theorem report_of_scrape (locked after : ℚ) (s : State) : ∃ report,
    (metrics "json" locked after s).1 = .json report ∧
    (report.totalRequests = s.metrics.totalRequests ∧ report.totalTokensGenerated = s.metrics.totalTokensGenerated ∧
      report.totalErrors = s.metrics.totalErrors) ∧
    ∀ e, s.batchingEngine = some e → report.currentBatchSize = e.batchSize ∧
      report.currentQueueDepth = e.scheduler.pendingCount ∧
      report.cacheUtilization = MetricsCollector.round 3 e.cacheManager.utilization := by
  refine ⟨MetricsCollector.report (shown locked s).records after (shown locked s), ?_, ?_, fun e he => ?_⟩
  · rw [metrics_eq]
    rfl
  · rw [shown, gauged.eq_def]
    split <;> exact ⟨rfl, rfl, rfl⟩
  · rw [shown, he]
    exact ⟨rfl, rfl, rfl⟩

/-- CORRECT: the two endpoints agree. In batching mode, after any calls under new ids that raised
    nothing, the engine has served as many requests and made as many tokens as the handlers counted, and
    has accepted as many requests as they counted with the errors; each iteration made one token, as the
    batch never had two sequences, nobody was evicted, and both show an idle engine. In naive mode they
    agree after any calls, whatever was raised. -/
theorem dashboards_agree (hbs : 0 < blockSize) (hmax : 0 < maxBatchSize) (locked after : ℚ) :
    (∀ evs s, Trace.Run (Numbered o) (State.lifespan "batching" policy blockSize maxBatchSize startTime) evs s →
      (∀ ev ∈ evs, ∀ err, ev.2 ≠ .answer (.raised err)) →
      ∃ stats report, engineStats s = .batching stats ∧ (metrics "json" locked after s).1 = .json report ∧
        (stats.totalRequests = report.totalRequests ∧ stats.totalTokensGenerated = report.totalTokensGenerated ∧
          stats.scheduler.totalSubmitted = report.totalRequests + report.totalErrors) ∧
        (stats.totalIterations = stats.totalTokensGenerated ∧ stats.cache.totalEvictions = 0) ∧
        (stats.activeBatchSize = 0 ∧ stats.scheduler.pending = 0 ∧ stats.cache.allocatedBlocks = 0) ∧
        report.currentBatchSize = 0 ∧ report.currentQueueDepth = 0 ∧ report.cacheUtilization = 0) ∧
    (∀ mode evs s, mode ≠ "batching" →
      Trace.Run (Handling o) (State.lifespan mode policy blockSize maxBatchSize startTime) evs s →
      ∃ stats report, engineStats s = .naive stats ∧ (metrics "json" locked after s).1 = .json report ∧
        stats.totalRequestsServed = report.totalRequests + report.totalErrors) := by
  refine ⟨fun evs s hrun hquiet => ?_, fun mode evs s hmode hrun => ?_⟩
  · obtain ⟨acc, qs, e, C, R⟩ := reconciled_of_calls hbs hmax hrun hquiet
    have hempty : e.batchSize = 0 := batchSize_eq_zero_iff.mpr R.active
    have hheld : tokensHeld e = 0 := by
      rw [tokensHeld, eq_nil_of_keys R.active]
      rfl
    have hexact := C.books.tallied.exact trivial Point.noConfusion C.books.unevicted
    have hfree : e.cacheManager.numAllocatedBlocks = 0 := by rw [CacheManager.numAllocatedBlocks, R.free, Nat.sub_self]
    have hunused : e.cacheManager.utilization = 0 := by simp [CacheManager.utilization, hfree]
    have hnobody : e.scheduler.pendingCount = 0 := by rw [RequestScheduler.pendingCount, R.pending, List.length_nil]
    obtain ⟨report, hreport, hm, hg⟩ := report_of_scrape locked after s
    obtain ⟨hbatch, hqueue, hcache⟩ := hg e C.engine
    refine ⟨e.getStats, report, ?_, hreport, ⟨?_, ?_, ?_⟩, ⟨C.books.paced, C.books.unevicted⟩,
      ⟨hempty, hnobody, hfree⟩, hbatch.trans hempty, hqueue.trans hnobody, ?_⟩
    · rw [engineStats, if_pos C.mode, C.engine]
    · exact (C.books.tallied.reported trivial Point.noConfusion).trans (C.requests.symm.trans hm.1.symm)
    · change e.totalTokensGenerated = _
      rw [hm.2.1, C.tokens, hexact, hheld, Nat.zero_add]
    · change e.scheduler.totalSubmitted = _
      rw [hm.1, hm.2.2, C.calls, C.books.submitted]
    · rw [hcache, hunused]
      decide +kernel
  · obtain ⟨hmode', engine, he, hcount⟩ := served_of_calls hmode hrun
    obtain ⟨report, hreport, hm, -⟩ := report_of_scrape locked after s
    refine ⟨engine.stats, report, ?_, hreport, ?_⟩
    · rw [engineStats, if_neg hmode', he]
    · rw [hm.1, hm.2.2]
      exact hcount

/-- Three tokens for one call, a stream, and two tokens for another call: the stream passes both by. -/
theorem dashboards_agree_three :
    let o := Outside.around (Env.rowwise fun _ => [.negInf, .fin 0])
    let s := State.lifespan "batching" .fcfs 16 32 0
    let c₁ := Call.still { prompt := "p", maxTokens := 3, prompt_bounds := by decide }
    let c₂ := { Call.still { prompt := "p", stream := true, prompt_bounds := by decide } with requestId := "b" }
    let c₃ := { Call.still { prompt := "q", maxTokens := 2, prompt_bounds := by decide } with requestId := "c" }
    let s₁ := (s.generate o c₁).2
    let s₂ := (s₁.generate o c₂).2
    let s₃ := (s₂.generate o c₃).2
    s₃.metrics.totalRequests = 2 ∧ ∃ stats report,
      engineStats s₃ = .batching stats ∧ (metrics "json" 0 0 s₃).1 = .json report ∧
      stats.totalRequests = report.totalRequests ∧
      stats.totalTokensGenerated = report.totalTokensGenerated ∧
      stats.scheduler.totalSubmitted = report.totalRequests + report.totalErrors ∧
      stats.totalIterations = stats.totalTokensGenerated := by
  intro o s c₁ c₂ c₃ s₁ s₂ s₃
  have hrun := ((Trace.Run.single (numbered_generate o s c₁ (by decide) (by decide +kernel))).snoc
    (numbered_generate o s₁ c₂ (by decide) (by decide +kernel))).snoc
      (numbered_generate o s₂ c₃ (by decide) (by decide +kernel))
  have hdelivered : (s.generate o c₁).1.delivered = some 3 ∧
      (s₁.generate o c₂).1.delivered = some 1 ∧ (s₂.generate o c₃).1.delivered = some 2 := by
    decide +kernel
  have hquiet : ∀ ev ∈ [(c₁, (s.generate o c₁).1), (c₂, (s₁.generate o c₂).1),
      (c₃, (s₂.generate o c₃).1)], ∀ err, ev.2 ≠ .answer (.raised err) := by
    simp only [List.forall_mem_cons]
    exact ⟨fun _ => Reply.ne_raised hdelivered.1, fun _ => Reply.ne_raised hdelivered.2.1,
      fun _ => Reply.ne_raised hdelivered.2.2, fun _ h => absurd h List.not_mem_nil⟩
  obtain ⟨stats, report, hstats, hreport, ⟨hreq, htok, hsub⟩, ⟨hpaced, -⟩, -⟩ :=
    (dashboards_agree (by decide) (by decide) 0 0).1 _ _ hrun hquiet
  exact ⟨by decide +kernel, stats, report, hstats, hreport, hreq, htok, hsub, hpaced⟩

end Server

end ModelServing
