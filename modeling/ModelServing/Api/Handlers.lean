import ModelServing.Api.Metrics
import ModelServing.Api.Server
import ModelServing.Api.Streaming
import ModelServing.Engine.Naive

/-! The endpoint `/generate` with its three handlers and the counters they feed. A call is counted once
    unless it leaves by an exit that records nothing: the stream, a full queue, an exception out of the
    batching engine, an engine that is not there. The handlers do not wait for anything in between, so
    calls are handled one after another; a stream goes on afterwards and records nothing. -/

namespace ModelServing

namespace Server

open Engine

/-- What the server runs on. -/
structure Outside (κ : Type) where
  env : Env
  modelGenerate : ModelGenerate
  forward : Streaming.Forward κ
  /-- `str(e)`. -/
  message : StepError → String

/-- The global state. -/
structure State where
  engineMode : String := "naive"
  naiveEngine : Option NaiveEngine
  batchingEngine : Option Engine
  /-- `_streaming_gen is not None`. -/
  streamingGen : Bool
  metrics : MetricsCollector

/-- A call: its body, the ids drawn for it, how many external calls were made before, what
    `perf_counter` shows while it is handled, and what `monotonic` shows when its record is made and
    when it is appended. -/
structure Call where
  request : GenerateRequest
  requestId : String
  streamId : String
  calls : ℕ
  clock : Readings
  timestamp : ℚ
  now : ℚ

/-- What the client gets. A stream may break off. -/
inductive Reply where
  | answer (a : Answer)
  | stream (turns : List Streaming.Turn) (result : Except StepError Streaming.DoneEvent)

def engineRequest (request : GenerateRequest) (requestId : String) : GenerationRequest where
  requestId := requestId
  prompt := request.prompt
  maxTokens := request.maxTokens
  temperature := request.temperature
  topK := request.topK
  topP := request.topP
  repetitionPenalty := request.repetitionPenalty

def streamRequest (request : GenerateRequest) : Streaming.StreamRequest where
  prompt := request.prompt
  maxTokens := request.maxTokens
  temperature := request.temperature
  topK := request.topK
  topP := request.topP

def naiveResponse (result : GenerationResponse) : GenerateResponse where
  requestId := result.requestId
  generatedText := result.generatedText
  prompt := result.prompt
  usage :=
    { promptTokens := result.numPromptTokens
      generatedTokens := result.numGeneratedTokens
      totalTokens := result.numPromptTokens + result.numGeneratedTokens }

namespace State

/-- `lifespan`, with a loaded model. -/
def lifespan (engineMode : String) (policy : SchedulingPolicy) (blockSize : ℕ) (maxBatchSize : ℤ)
    (startTime : ℚ) : State where
  engineMode := engineMode
  naiveEngine := some {}
  batchingEngine := some (new maxBatchSize 128 60 policy 256 blockSize)
  streamingGen := true
  metrics := { startTime }

variable {κ : Type} (o : Outside κ) (s : State) (c : Call)

def generateNaive : Reply × State :=
  match s.naiveEngine with
  | none => (.answer (.httpException 503 "Engine not initialized"), s)
  | some engine =>
    match engine.generate o.env o.modelGenerate (engineRequest c.request c.requestId) c.calls
        c.clock with
    | (.error err, engine) =>
      (.answer (.httpException 500 ("Generation failed: " ++ o.message err)), { s with
        naiveEngine := some engine
        metrics := s.metrics.recordError })
    | (.ok result, engine) =>
      (.answer (.ok (naiveResponse result)), { s with
        naiveEngine := some engine
        metrics := s.metrics.recordRequest (.float (result.totalTime * 1000)) (.float (result.timeToFirstToken * 1000))
          result.numGeneratedTokens result.tokensPerSecond c.timestamp c.now })

/-- The request object is created, which reads the clock, and submitted. -/
def submitted (e : Engine) : Bool × Engine :=
  e.ticked.submitRequest (schedRequest c.request c.requestId (o.env.clock e.scheduler.ticks))

def generateBatching : Reply × State :=
  match s.batchingEngine with
  | none => (.answer (.httpException 503 "Batching engine not initialized"), s)
  | some e =>
    match submitted o c e with
    | (false, e) =>
      (.answer (.httpException 429 "Request queue is full"), { s with batchingEngine := some e })
    | (true, e) =>
      match e.runUntilEmpty o.env with
      | (.error err, e) => (.answer (.raised err), { s with batchingEngine := some e })
      | (.ok completed, e) =>
        let elapsed := c.clock.finish - c.clock.start
        match answer e (completed.map SequenceState.request) c.requestId with
        | .ok result =>
          let tps := if elapsed > 0 then result.usage.generatedTokens / elapsed else 0
          (.answer (.ok result), { s with
            batchingEngine := some e
            metrics := s.metrics.recordRequest (.float (elapsed * 1000)) (.int 0) result.usage.generatedTokens tps
              c.timestamp c.now })
        | failure => (.answer failure, { s with
            batchingEngine := some e
            metrics := s.metrics.recordError })

def generateStream : Reply × State :=
  if s.streamingGen then
    let stream := Streaming.generateStream o.env o.forward (streamRequest c.request) c.streamId c.calls
    (.stream stream.1 stream.2, s)
  else (.answer (.httpException 503 "Streaming not initialized"), s)

/-- `generate`. -/
def generate : Reply × State :=
  if s.engineMode = "batching" ∧ ¬ c.request.stream then s.generateBatching o c
  else if c.request.stream then s.generateStream o c
  else s.generateNaive o c

/-- The answer and the engine are those of the handler without its counters. -/
theorem generateBatching_eq :
    ((s.generateBatching o c).1, (s.generateBatching o c).2.batchingEngine) =
      (Reply.answer (Server.generateBatching o.env s.batchingEngine c.request c.requestId).1,
        (Server.generateBatching o.env s.batchingEngine c.request c.requestId).2) := by
  unfold State.generateBatching Server.generateBatching
  cases he : s.batchingEngine with
  | none => exact Prod.ext rfl he
  | some e =>
    have hsubmit : e.ticked.submitRequest (schedRequest c.request c.requestId
        (o.env.clock e.scheduler.ticks)) = submitted o c e := rfl
    simp only [handle, serve, hsubmit]
    rcases submitted o c e with ⟨_ | _, e⟩
    · rfl
    · rcases hrun : e.runUntilEmpty o.env with ⟨err | completed, e⟩
      · simp only [hrun]
      · rcases hans : answer e (completed.map SequenceState.request) c.requestId with _ | _ | _ <;>
          simp only [hrun, hans]

/-! ### Counting -/

/-- The call does not leave by an exit that records nothing. -/
def Recorded : Prop :=
  c.request.stream = false ∧
    if s.engineMode = "batching" then
      ∃ e, s.batchingEngine = some e ∧ e.scheduler.queueFull = false ∧
        ∀ err, ((submitted o c e).2.runUntilEmpty o.env).1 ≠ .error err
    else s.naiveEngine ≠ none

end State

/-- The tokens of a generation that was delivered to its end. -/
def Reply.delivered : Reply → Option ℕ
  | .answer (.ok result) => some result.usage.generatedTokens
  | .stream turns (.ok _) => some turns.length
  | _ => none

/-- The counters agree with what the clients got. -/
structure CountedOnce (replies : List Reply) (m : MetricsCollector) : Prop where
  all : m.totalRequests + m.totalErrors = replies.length
  delivered : m.totalRequests = (replies.filterMap Reply.delivered).length
  tokens : m.totalTokensGenerated = (replies.filterMap Reply.delivered).sum

/-- The counters after one more call: a request with its tokens, or an error. -/
def Counts (m : MetricsCollector) (r : Reply) (m' : MetricsCollector) : Prop :=
  (∃ n, r.delivered = some n ∧ m'.totalRequests = m.totalRequests + 1 ∧
    m'.totalErrors = m.totalErrors ∧ m'.totalTokensGenerated = m.totalTokensGenerated + n) ∨
  (r.delivered = none ∧ m'.totalRequests = m.totalRequests ∧
    m'.totalErrors = m.totalErrors + 1 ∧ m'.totalTokensGenerated = m.totalTokensGenerated)

namespace State

variable {κ : Type} {o : Outside κ} {s : State} {c : Call}

theorem submitted_fst (e : Engine) : (submitted o c e).1 = !e.scheduler.queueFull := by
  have hsame : ({ e.ticked.scheduler with
      requests := e.ticked.scheduler.requests.alloc (schedRequest c.request c.requestId
        (o.env.clock e.scheduler.ticks)) } : RequestScheduler).queueFull = e.scheduler.queueFull := rfl
  rw [submitted, submitRequest, RequestScheduler.submitNew, RequestScheduler.submit, hsame]
  cases e.scheduler.queueFull <;> rfl

theorem counts_naive (h : s.naiveEngine ≠ none) :
    Counts s.metrics (s.generateNaive o c).1 (s.generateNaive o c).2.metrics := by
  unfold generateNaive
  cases he : s.naiveEngine with
  | none => exact absurd he h
  | some engine =>
    rcases hgen : engine.generate o.env o.modelGenerate (engineRequest c.request c.requestId) c.calls
      c.clock with ⟨err | result, engine⟩
    · simp only [hgen]
      exact Or.inr ⟨rfl, rfl, rfl, rfl⟩
    · simp only [hgen]
      exact Or.inl ⟨_, rfl, rfl, rfl, rfl⟩

theorem counts_batching {e : Engine} (he : s.batchingEngine = some e)
    (hfull : e.scheduler.queueFull = false)
    (hrun : ∀ err, ((submitted o c e).2.runUntilEmpty o.env).1 ≠ .error err) :
    Counts s.metrics (s.generateBatching o c).1 (s.generateBatching o c).2.metrics := by
  have hsub := submitted_fst (o := o) (c := c) e
  unfold generateBatching
  simp only [he]
  rcases hs : submitted o c e with ⟨b, e₁⟩
  rw [hs] at hsub hrun
  obtain rfl : b = true := by simpa [hfull] using hsub
  rcases hloop : e₁.runUntilEmpty o.env with ⟨err | completed, e₂⟩
  · exact absurd (congrArg Prod.fst hloop) (hrun err)
  · rcases hans : answer e₂ (completed.map SequenceState.request) c.requestId with result | _ | _
    · simp only [hloop, hans]
      exact Or.inl ⟨_, rfl, rfl, rfl, rfl⟩
    · simp only [hloop, hans]
      exact Or.inr ⟨rfl, rfl, rfl, rfl⟩
    · simp only [hloop, hans]
      exact Or.inr ⟨rfl, rfl, rfl, rfl⟩

theorem metrics_generateBatching (h : ¬ ∃ e, s.batchingEngine = some e ∧
    e.scheduler.queueFull = false ∧
    ∀ err, ((submitted o c e).2.runUntilEmpty o.env).1 ≠ .error err) :
    (s.generateBatching o c).2.metrics = s.metrics := by
  unfold generateBatching
  cases he : s.batchingEngine with
  | none => rfl
  | some e =>
    have hsub := submitted_fst (o := o) (c := c) e
    simp only
    rcases hs : submitted o c e with ⟨_ | _, e₁⟩
    · rfl
    · rw [hs] at hsub
      rcases hloop : e₁.runUntilEmpty o.env with ⟨err | completed, e₂⟩
      · simp only [hloop]
      · refine absurd ⟨e, he, by simpa using hsub.symm, fun err herr => ?_⟩ h
        rw [hs, hloop] at herr
        cases herr

theorem metrics_generateStream : (s.generateStream o c).2.metrics = s.metrics := by
  unfold generateStream
  split <;> rfl

/-- A recorded call counts once. -/
theorem Recorded.counts (h : s.Recorded o c) :
    Counts s.metrics (s.generate o c).1 (s.generate o c).2.metrics := by
  obtain ⟨hstream, h⟩ := h
  unfold generate
  split at h
  · rename_i hmode
    obtain ⟨e, he, hfull, hrun⟩ := h
    rw [if_pos ⟨hmode, by simp [hstream]⟩]
    exact counts_batching he hfull hrun
  · rename_i hmode
    rw [if_neg fun h => hmode h.1, if_neg (by simp [hstream])]
    exact counts_naive h

/-- Any other call does not count. -/
theorem metrics_of_not_recorded (h : ¬ s.Recorded o c) : (s.generate o c).2.metrics = s.metrics := by
  unfold generate
  cases hstream : c.request.stream with
  | true => simpa using metrics_generateStream
  | false =>
    by_cases hmode : s.engineMode = "batching"
    · simp only [Recorded, hstream, hmode, if_true, true_and] at h
      simpa [hmode] using metrics_generateBatching h
    · simp only [Recorded, hstream, hmode, if_false, true_and, not_not] at h
      simp [hmode, generateNaive, h]

end State

/-! ### Runs -/

section Runs

open Trace

variable {κ : Type} {o : Outside κ} {s₀ s : State} {evs : List (Call × Reply)}

/-- A call is handled, and answered. -/
def Handling (o : Outside κ) (s : State) (ev : Call × Reply) (s' : State) : Prop :=
  s.generate o ev.1 = (ev.2, s')

/-- There has been no call before. -/
def State.Fresh (s : State) : Prop :=
  s.metrics.totalRequests = 0 ∧ s.metrics.totalErrors = 0 ∧ s.metrics.totalTokensGenerated = 0

variable {s' : State} {ev : Call × Reply}

theorem Handling.counts (h : Handling o s ev s') (hrec : s.Recorded o ev.1) :
    Counts s.metrics ev.2 s'.metrics := by
  have hc := hrec.counts
  rwa [h] at hc

theorem Handling.metrics_eq (h : Handling o s ev s') (hrec : ¬ s.Recorded o ev.1) :
    s'.metrics = s.metrics := by
  have hsame := State.metrics_of_not_recorded hrec
  rwa [h] at hsame

/-- No call counts twice. -/
theorem counted_le (h₀ : s₀.Fresh) (h : Run (Handling o) s₀ evs s) :
    s.metrics.totalRequests + s.metrics.totalErrors ≤ evs.length := by
  induction h with
  | nil => simp [h₀.1, h₀.2.1]
  | @snoc evs s ev s' _ hst ih =>
    rw [List.length_append, List.length_singleton]
    by_cases hrec : s.Recorded o ev.1
    · rcases hst.counts hrec with ⟨n, -, hreq, herr, -⟩ | ⟨-, hreq, herr, -⟩ <;> omega
    · rw [hst.metrics_eq hrec]
      omega

/-- If all calls are counted, then each of them was recorded. -/
theorem recorded_of_all (h₀ : s₀.Fresh) (h : Run (Handling o) s₀ evs s)
    (hall : s.metrics.totalRequests + s.metrics.totalErrors = evs.length) :
    Run (fun s ev s' => Handling o s ev s' ∧ s.Recorded o ev.1) s₀ evs s := by
  induction h with
  | nil => exact .nil
  | @snoc evs s ev s' hr hst ih =>
    rw [List.length_append, List.length_singleton] at hall
    have hle := counted_le h₀ hr
    by_cases hrec : s.Recorded o ev.1
    · refine .snoc (ih ?_) ⟨hst, hrec⟩
      rcases hst.counts hrec with ⟨n, -, hreq, herr, -⟩ | ⟨-, hreq, herr, -⟩ <;> omega
    · rw [hst.metrics_eq hrec] at hall
      omega

theorem CountedOnce.snoc {replies : List Reply} {r : Reply} {m m' : MetricsCollector}
    (C : CountedOnce replies m) (h : Counts m r m') : CountedOnce (replies ++ [r]) m' := by
  obtain ⟨hall, hdel, htok⟩ := C
  rcases h with ⟨n, hr, hreq, herr, hn⟩ | ⟨hr, hreq, herr, hn⟩
  · constructor <;> simp [hr] <;> omega
  · constructor <;> simp [hr] <;> omega

/-- CORRECT: the counters agree with what the clients got exactly when every call was recorded. -/
theorem counted_once_iff (h₀ : s₀.Fresh) (h : Run (Handling o) s₀ evs s) :
    CountedOnce (evs.map Prod.snd) s.metrics ↔
      Run (fun s ev s' => Handling o s ev s' ∧ s.Recorded o ev.1) s₀ evs s := by
  refine ⟨fun C => recorded_of_all h₀ h (by simpa using C.all), fun hrec => ?_⟩
  refine hrec.invariant (I := fun evs s => CountedOnce (evs.map Prod.snd) s.metrics) ?_ ?_
  · exact ⟨by simp [h₀.1, h₀.2.1], by simp [h₀.1], by simp [h₀.2.2]⟩
  · rintro evs s ev s' - C ⟨hst, hr⟩
    rw [List.map_append]
    exact C.snoc (hst.counts hr)

/-- A small world around `env`: `model.generate` adds the token `a` to the prompt. -/
def Outside.around (env : Env) : Outside (List ℕ) where
  env := env
  modelGenerate _ args := some (args.inputIds ++ [97])
  forward := Streaming.remembering fun _ => [.fin 0]
  message _ := "failed"

/-- A call whose clocks stand still. -/
def Call.still (request : GenerateRequest) : Call where
  request := request
  requestId := "a"
  streamId := "s"
  calls := 0
  clock := ⟨0, 0, 0, 0⟩
  timestamp := 0
  now := 0

/-- In naive mode, a call that is answered and one on which `model.generate` raises. -/
theorem counted_once_iff_mixed :
    let o := { Outside.around (Env.rowwise fun _ => [.fin 0]) with
      modelGenerate := fun i args => if i < 2 then some (args.inputIds ++ [97]) else none }
    let s := State.lifespan "naive" .fcfs 16 8 0
    let c := Call.still { prompt := "p", prompt_bounds := by decide }
    let c' := { c with calls := 3 }
    let s' := (s.generate o c).2
    (s.generate o c).1.delivered = some 1 ∧ (s'.generate o c').1.delivered = none ∧
    CountedOnce [(s.generate o c).1, (s'.generate o c').1] (s'.generate o c').2.metrics := by
  intro o s c c' s'
  have hrec : s.Recorded o c := ⟨rfl, by simp [s, State.lifespan]⟩
  have hmode : s'.engineMode = "naive" ∧ s'.naiveEngine.isSome := by decide +kernel
  have hrec' : s'.Recorded o c' := ⟨rfl, by simp [hmode.1, Option.ne_none_iff_isSome.mpr hmode.2]⟩
  have hcall : Handling o s (c, (s.generate o c).1) s' := rfl
  have hcall' : Handling o s' (c', (s'.generate o c').1) (s'.generate o c').2 := rfl
  exact ⟨by decide +kernel, by decide +kernel, (counted_once_iff ⟨rfl, rfl, rfl⟩
    ((Run.single hcall).snoc hcall')).mpr ((Run.single ⟨hcall, hrec⟩).snoc ⟨hcall', hrec'⟩)⟩

/-- A stream is delivered to its end, and a model raises in batching mode: neither is counted. -/
theorem not_counted_once :
    let s (mode : String) := State.lifespan mode .fcfs 16 8 0
    let streamed := Call.still { prompt := "p", stream := true, prompt_bounds := by decide }
    let plain := Call.still { prompt := "p", prompt_bounds := by decide }
    let o := Outside.around (Env.rowwise fun _ => [.fin 0])
    let raising := Outside.around { Env.rowwise fun _ => [.fin 0] with model := fun _ _ => none }
    ((s "naive").generate o streamed).1.delivered = some 1 ∧
    ¬ CountedOnce [((s "naive").generate o streamed).1] ((s "naive").generate o streamed).2.metrics ∧
    ((s "batching").generate raising plain).1.delivered = none ∧
    ¬ CountedOnce [((s "batching").generate raising plain).1]
      ((s "batching").generate raising plain).2.metrics := by
  intro s streamed plain o raising
  refine ⟨by decide +kernel, fun C => ?_, by decide +kernel, fun C => ?_⟩
  · exact absurd C.all (by decide +kernel)
  · exact absurd C.all (by decide +kernel)

end Runs

end Server

end ModelServing
