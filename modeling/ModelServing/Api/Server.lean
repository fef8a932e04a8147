import ModelServing.Engine.Reporting

/-! The server's handler for the batching mode, `_generate_batching`, and what its callers are told.
    The handler submits the request, runs the engine until it is empty and looks for the request
    among those returned. Timings and metrics are left out. -/

namespace ModelServing

open Engine

/-- The request body, with the bounds the schema checks. -/
structure GenerateRequest where
  prompt : String
  maxTokens : ℕ := 256
  temperature : ℚ := 1
  topK : ℤ := 50
  topP : ℚ := 1
  repetitionPenalty : ℚ := 1
  stream : Bool := false
  prompt_bounds : 1 ≤ prompt.length
  maxTokens_bounds : 1 ≤ maxTokens ∧ maxTokens ≤ 2048 := by decide
  temperature_bounds : 0 ≤ temperature ∧ temperature ≤ 2 := by decide
  topK_bounds : 1 ≤ topK := by decide
  topP_bounds : 0 ≤ topP ∧ topP ≤ 1 := by decide
  repetitionPenalty_bounds : 1 ≤ repetitionPenalty ∧ repetitionPenalty ≤ 2 := by decide

structure UsageInfo where
  promptTokens : ℕ
  generatedTokens : ℕ
  totalTokens : ℕ
  deriving DecidableEq

structure GenerateResponse where
  requestId : String
  generatedText : String
  prompt : String
  usage : UsageInfo
  deriving DecidableEq

/-- A response with status 200, an `HTTPException`, or an exception the handler does not catch. -/
inductive Answer where
  | ok (response : GenerateResponse)
  | httpException (statusCode : ℕ) (detail : String)
  | raised (err : StepError)
  deriving DecidableEq

namespace Server

variable (env : Env)

def schedRequest (request : GenerateRequest) (requestId : String) (createdAt : ℚ) :
    ScheduledRequest where
  requestId := requestId
  prompt := request.prompt
  maxTokens := request.maxTokens
  temperature := request.temperature
  topK := request.topK
  topP := request.topP
  repetitionPenalty := request.repetitionPenalty
  createdAt := createdAt

def response (q : ScheduledRequest) : GenerateResponse where
  requestId := q.requestId
  generatedText := q.outputText
  prompt := q.prompt
  usage :=
    { promptTokens := q.promptTokens
      generatedTokens := q.generatedTokens
      totalTokens := q.promptTokens + q.generatedTokens }

/-- The lookup among the completed requests, and the answer made from it. -/
def answer (e : Engine) (completed : List Ref) (requestId : String) : Answer :=
  match completed.find? fun r => (e.request r).requestId = requestId with
  | none => .httpException 500 "Request not found"
  | some r =>
    match (e.request r).error with
    | none => .ok (response (e.request r))
    | some error =>
      if error = "" then .ok (response (e.request r)) else .httpException 500 error

/-- `_generate_batching` from the submission on, for a request object created at `now`. -/
def serve (e : Engine) (request : GenerateRequest) (requestId : String) (now : ℚ) :
    Answer × Engine :=
  match e.submitRequest (schedRequest request requestId now) with
  | (false, e) => (.httpException 429 "Request queue is full", e)
  | (true, e) =>
    match e.runUntilEmpty env with
    | (.error err, e) => (.raised err, e)
    | (.ok completed, e) => (answer e (completed.map SequenceState.request) requestId, e)

/-- `_generate_batching` on an engine. Creating the request object reads the clock. -/
def handle (e : Engine) (request : GenerateRequest) (requestId : String) : Answer × Engine :=
  serve env e.ticked request requestId (env.clock e.scheduler.ticks)

def generateBatching (engine : Option Engine) (request : GenerateRequest) (requestId : String) :
    Answer × Option Engine :=
  match engine with
  | none => (.httpException 503 "Batching engine not initialized", none)
  | some e => ((handle env e request requestId).1, some (handle env e request requestId).2)

/-! ### What is reported -/

variable {env} {e e' : Engine} {acc : List Ref} {r : Ref} {numBlocks blockSize : ℕ}
  {maxBatchSize maxQueueSize : ℤ} {defaultTimeout : ℚ} {policy : SchedulingPolicy}
  {evs : List Event} {done : List SequenceState}

/-- What the client of a request should be told: its result, or its own error. -/
def outcome (q : ScheduledRequest) : Answer :=
  if q.status = .COMPLETED then .ok (response q) else .httpException 500 (q.error.getD "")

/-- `r` is returned exactly once, in a terminal status, with an error if it is not completed, and the
    handler's lookup tells its client so. -/
structure ReportedBack (e : Engine) (done : List SequenceState) (r : Ref) : Prop where
  once : (done.map SequenceState.request).count r = 1
  terminal : (e.scheduler.statusOf r).terminal = true
  error : e.scheduler.statusOf r ≠ .COMPLETED → ∃ msg, (e.request r).error = some msg ∧ msg ≠ ""
  answer : Server.answer e (done.map SequenceState.request) (e.scheduler.idOf r) =
    outcome (e.request r)

/-- The lookup by id finds the request itself. -/
theorem find?_returned {rs : List Ref} (B : Batch acc .idle e) (hsub : ∀ x ∈ rs, x ∈ acc)
    (hr : r ∈ rs) :
    rs.find? (fun x => (e.request x).requestId = e.scheduler.idOf r) = some r := by
  cases hfind : rs.find? fun x => (e.request x).requestId = e.scheduler.idOf r with
  | none =>
    have hne : ¬ (e.request r).requestId = e.scheduler.idOf r := by
      simpa using List.find?_eq_none.mp hfind r hr
    exact absurd rfl hne
  | some x =>
    have hx := List.mem_of_find?_eq_some hfind
    have hid : (e.request x).requestId = e.scheduler.idOf r := by
      simpa using List.find?_some hfind
    rw [B.eq_of_id (hsub x hx) (hsub r hr) hid]

theorem answer_completed {rs : List Ref} (B : Batch acc .idle e) (hsub : ∀ x ∈ rs, x ∈ acc)
    (hr : r ∈ rs) (hst : e.scheduler.statusOf r = .COMPLETED) (herr : (e.request r).error = none) :
    answer e rs (e.scheduler.idOf r) = outcome (e.request r) := by
  rw [answer, find?_returned B hsub hr, outcome,
    if_pos (show (e.request r).status = .COMPLETED from hst)]
  simp only [herr]

/-- An engine that has drained without losing anybody has reported everybody. -/
theorem reportedBack_of_healthy {before : List Ref}
    (T : Straight (before ++ done.map SequenceState.request) acc e)
    (H : Healthy env acc .idle e) (hd : Drained e) (hr : r ∈ acc) (hnew : r ∉ before) :
    ReportedBack e done r := by
  have hst : e.scheduler.statusOf r = .COMPLETED := by
    cases hst : e.scheduler.statusOf r with
    | PENDING =>
      have hp := T.batch.ledger.pending_of_status hr hst
      rw [List.length_eq_zero_iff.mp hd.1] at hp
      exact absurd hp List.not_mem_nil
    | RUNNING =>
      obtain ⟨k, q, hq, -⟩ := (H.lossless.running r hr hst).resolve_left List.not_mem_nil
      have hk := OrderedDict.mem_keys_of_get? hq
      rw [batchSize_eq_zero_iff.mp hd.2] at hk
      exact absurd hk List.not_mem_nil
    | COMPLETED => rfl
    | CANCELLED => exact absurd hst (H.alive r hr).1
    | FAILED => exact absurd hst (H.alive r hr).2
  have hcount := T.reported r
  rw [List.count_append, List.count_eq_zero_of_not_mem hnew, Nat.zero_add,
    if_pos ⟨hr, hst⟩] at hcount
  have hmem : r ∈ done.map SequenceState.request := List.count_pos_iff.mp (by omega)
  have hsub : ∀ x ∈ done.map SequenceState.request, x ∈ acc := by
    intro x hx
    by_contra hnot
    have := T.reported x
    rw [List.count_append, if_neg fun h => hnot h.1] at this
    have := List.count_pos_iff.mpr hx
    omega
  have herr : (e.request r).error = none := by
    by_contra he
    rcases T.errors r hr he with h | h <;> cases hst.symm.trans h
  exact ⟨hcount, by rw [hst]; rfl, fun h => absurd hst h, answer_completed T.batch hsub hmem hst herr⟩

/-- What has been returned is completed, so a lost request never was. -/
theorem not_returned_of_lost {rs : List Ref} (T : Straight rs acc e) (hl : Lost e r) :
    rs.count r = 0 := by
  rw [T.reported r, if_neg]
  rintro ⟨-, hst⟩
  rcases hl with h | h <;> cases h.symm.trans hst

/-- CORRECT: in every run without cancellations and exceptions that drains the engine, every request
    not reported before is returned exactly once and its client told its outcome, provided that every
    step began with room: nobody past the timeout in the queue, and free blocks for the prompts of all
    requests selected. Without it somebody is not reported. -/
theorem reported_back (hbs : 0 < blockSize) (hrun : Trace.Run (Step env)
      (new maxBatchSize maxQueueSize defaultTimeout policy numBlocks blockSize) evs e)
    (hplain : ∀ ev ∈ evs, Plain ev) (hloop : e.runUntilEmpty env = (.ok done, e'))
    (hd : Drained e') :
    (Trace.Run (Tidy env)
        (new maxBatchSize maxQueueSize defaultTimeout policy numBlocks blockSize) evs e ∧
      Throughout env (Roomy env) 10000 e → ∀ r ∈ accepted evs,
        r ∉ (returned evs).map SequenceState.request → ReportedBack e' done r) ∧
    (Named evs → (∀ r ∈ accepted evs, r ∉ (returned evs).map SequenceState.request →
        ReportedBack e' done r) → Trace.Run (Tidy env)
          (new maxBatchSize maxQueueSize defaultTimeout policy numBlocks blockSize) evs e ∧
        Throughout env (Roomy env) 10000 e) := by
  have T := straight_of_run hrun hplain
  have T' := Straight.loop 10000 T hloop
  refine ⟨fun ⟨htidy, hroom⟩ r hr hnew => ?_, fun hname hall => ?_⟩
  · have H := healthy_of_run hbs htidy hplain
    exact reportedBack_of_healthy T' (Healthy.loop 10000 H T.batch hroom hloop) hd hr hnew
  · have hdec : Decoded evs := fun h => by
      obtain ⟨done, hdone⟩ := hplain _ h
      cases hdone
    have hnobody : ¬ ∃ r ∈ accepted evs, Lost e' r := by
      rintro ⟨r, hr, hl⟩
      have hcount := not_returned_of_lost T' hl
      rw [List.count_append] at hcount
      have hnew : r ∉ (returned evs).map SequenceState.request :=
        List.count_eq_zero.mp (by omega)
      have := (hall r hr hnew).once
      omega
    have S := synced_of_run hbs hrun hname hdec
    have htidy : Trace.Run (Tidy env)
        (new maxBatchSize maxQueueSize defaultTimeout policy numBlocks blockSize) evs e := by
      by_contra hnot
      exact hnobody (lost_of_loop 10000 T.batch S T.uncancelled
        (Or.inl (lost_of_run hbs hrun hplain hname hnot)) hloop)
    refine ⟨htidy, ?_⟩
    by_contra hnot
    exact hnobody (lost_of_loop 10000 T.batch S T.uncancelled (Or.inr hnot) hloop)

/-- In a batch of one, "a" ends with an EOS token and then "b" after three tokens. -/
theorem reported_back_both :
    let env := Env.rowwise fun ids => if 97 ∈ ids then [.fin 0] else [.negInf, .fin 0]
    let req : String → String → ScheduledRequest := fun k prompt =>
      { requestId := k, prompt := prompt, maxTokens := 3, temperature := 0, createdAt := 0 }
    let e₁ := ((new 1 8 60 .fcfs 4 2).submitRequest (req "a" "a")).2
    let e := (e₁.submitRequest (req "b" "b")).2
    let q : SequenceState :=
      { request := 0, inputIds := [97, 0], generatedIds := [0], isFinished := true,
        finishReason := "eos" }
    let q' : SequenceState :=
      { request := 1, inputIds := [98, 1, 1, 1], generatedIds := [1, 1, 1], isFinished := true,
        finishReason := "length" }
    ReportedBack (e.runUntilEmpty env).2 [q, q'] 0 ∧ ReportedBack (e.runUntilEmpty env).2 [q, q'] 1 := by
  intro env req e₁ e q q'
  have hf₁ : RequestScheduler.Fresh (new 1 8 60 .fcfs 4 2).scheduler (req "a" "a") :=
    ⟨rfl, fun r hr => absurd hr (Nat.not_lt_zero r)⟩
  have hf₂ : RequestScheduler.Fresh e₁.scheduler (req "b" "b") := ⟨rfl, by decide +kernel⟩
  have htidy : Trace.Run (Tidy env) (new 1 8 60 .fcfs 4 2)
      [.submitRequest 0 (req "a" "a") true, .submitRequest 1 (req "b" "b") true] e :=
    (Trace.Run.single ⟨step_submitRequest env _ _ hf₁, fun _ h => by cases h⟩).snoc
      ⟨step_submitRequest env _ _ hf₂, fun _ h => by cases h⟩
  have hplain : ∀ ev ∈ [Event.submitRequest 0 (req "a" "a") true, .submitRequest 1 (req "b" "b") true],
      Plain ev := by
    simp [Plain, req]
  have hloop : e.runUntilEmpty env = (.ok [q, q'], (e.runUntilEmpty env).2) :=
    Prod.ext (by decide +kernel) rfl
  have hdrained : Drained (e.runUntilEmpty env).2 ∧
      Drained ((((e.step env).2.step env).2.step env).2.step env).2 := by
    unfold Drained
    decide +kernel
  have hroomy : ∀ x : Engine, x.maxBatchSize = 1 ∧ x.scheduler.timedOut env.clock = [] ∧
      demand env x x.calls (x.scheduler.getNextBatch env.clock 1).1 ≤ x.cacheManager.numFreeBlocks →
      Roomy env x := by
    rintro x ⟨hmax, hlate, hdemand⟩ n hn hpos
    obtain rfl : n = 1 := by omega
    exact ⟨hlate, hdemand⟩
  have hthrough : Throughout env (Roomy env) 10000 e :=
    ⟨hroomy _ (by decide +kernel), fun _ _ _ => ⟨hroomy _ (by decide +kernel), fun _ _ _ =>
      ⟨hroomy _ (by decide +kernel), fun _ _ _ => ⟨hroomy _ (by decide +kernel), fun _ _ hnot =>
        absurd hdrained.2 hnot⟩⟩⟩⟩
  have hall := (reported_back (by decide) (htidy.mono fun _ _ _ h => h.1) hplain hloop hdrained.1).1
    ⟨htidy, hthrough⟩
  exact ⟨hall 0 (by decide) List.not_mem_nil, hall 1 (by decide) List.not_mem_nil⟩

/-- Four tokens do not fit into one block of two: the request fails, is not returned, and its client
    is told that there is no such request. -/
theorem not_reported_back :
    let env := Env.rowwise fun _ => [.fin 0]
    let request : GenerateRequest := { prompt := "pppp", prompt_bounds := by decide }
    let e := ((new 1 8 60 .fcfs 1 2).submitRequest (schedRequest request "a" 0)).2
    let e' := (e.runUntilEmpty env).2
    Trace.Run (Step env) (new 1 8 60 .fcfs 1 2)
      [.submitRequest 0 (schedRequest request "a" 0) true] e ∧
    e.runUntilEmpty env = (.ok [], e') ∧ Drained e' ∧
    (e'.request 0).error = some "Insufficient KV-cache memory" ∧ ¬ ReportedBack e' [] 0 ∧
    (handle env (new 1 8 60 .fcfs 1 2) request "a").1 = .httpException 500 "Request not found" := by
  intro env request e e'
  refine ⟨.snoc .nil ⟨⟨rfl, fun r hr => absurd hr (Nat.not_lt_zero r)⟩, rfl, rfl⟩,
    Prod.ext (by decide +kernel) rfl, ?_, by decide +kernel, fun h => ?_, by decide +kernel⟩
  · unfold Drained
    decide +kernel
  · cases h.once

end Server

end ModelServing
