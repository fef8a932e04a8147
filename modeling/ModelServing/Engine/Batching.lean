import ModelServing.Engine.Sampling
import ModelServing.Cache.Manager

/-! The continuous batching engine: `batching.py`.

    What the engine calls outside the repository may answer anything, also raise, and need not answer
    twice the same: each external function takes the number of the call. An operation that raises
    returns the error next to the state it leaves behind. Device placement and logging are left
    out. -/

namespace ModelServing

/-- What the engine calls: the clock, the tokenizer, the model and the sampling library. The first
    argument counts the calls, `none` is an exception. -/
structure Env where
  clock : ℕ → ℚ
  /-- `tokenizer(prompt, truncation=True, max_length=..)["input_ids"]`. -/
  tokenizer : ℕ → String → ℕ → Option (List ℕ)
  /-- The logits `[batch, position, vocabulary]` of the model on a padded batch. -/
  model : ℕ → List (List ℕ) → Option (List (List (List Logit)))
  multinomial : ℕ → Option (List ℚ) → Option ℕ
  /-- `tokenizer.decode(ids, skip_special_tokens=..)`. -/
  decode : ℕ → List ℕ → Bool → Option String
  eosTokenId : Option ℕ
  padTokenId : Option ℕ
  torch : Torch

/-- Where an exception that leaves the engine came from. -/
inductive StepError where
  | tokenizer
  | model
  | sampler
  | decode
  | cache (e : CacheError)
  | key (sequenceId : String)
  deriving DecidableEq

structure SequenceState where
  request : Ref
  inputIds : List ℕ
  generatedIds : List ℕ := []
  isFinished : Bool := false
  finishReason : String := ""
  deriving DecidableEq

structure Engine where
  scheduler : RequestScheduler
  cacheManager : CacheManager
  maxBatchSize : ℤ := 8
  activeSequences : OrderedDict String SequenceState := .empty
  totalRequests : ℕ := 0
  totalTokensGenerated : ℕ := 0
  totalIterations : ℕ := 0
  /-- How many external calls were made. -/
  calls : ℕ := 0

/-- Append a sampled token and check completion. -/
def SequenceState.append (eosTokenId : Option ℕ) (maxTokens : ℕ) (tokenId : ℕ) (q : SequenceState) :
    SequenceState :=
  let q := { q with
    generatedIds := q.generatedIds ++ [tokenId]
    inputIds := q.inputIds ++ [tokenId] }
  if some tokenId = eosTokenId then { q with isFinished := true, finishReason := "eos" }
  else if q.generatedIds.length ≥ maxTokens then
    { q with isFinished := true, finishReason := "length" }
  else q

namespace Engine

variable (env : Env)

def batchSize (e : Engine) : ℕ := e.activeSequences.size

def request (e : Engine) (r : Ref) : ScheduledRequest := e.scheduler.request r

/-- One more external call. -/
def called (e : Engine) : Engine := { e with calls := e.calls + 1 }

/-- One more reading of the clock, by the caller. -/
def ticked (e : Engine) : Engine :=
  { e with scheduler := { e.scheduler with ticks := e.scheduler.ticks + 1 } }

/-- A submission by the caller, who has just created the request. -/
def submitRequest (e : Engine) (req : ScheduledRequest) : Bool × Engine :=
  ((e.scheduler.submitNew req).1, { e with scheduler := (e.scheduler.submitNew req).2 })

/-- `engine.scheduler.cancel_request`. -/
def cancelRequest (e : Engine) (requestId : String) : Bool × Engine :=
  ((e.scheduler.cancelRequest env.clock requestId).1,
    { e with scheduler := (e.scheduler.cancelRequest env.clock requestId).2 })

/-! ### Admission -/

/-- `request.fail(error)`. -/
def fail (e : Engine) (r : Ref) (error : String) : Engine :=
  { e with scheduler := e.scheduler.call env.clock r (.fail error) }

/-- The tokenizer's answer for `r` is recorded. -/
def tokenized (e : Engine) (r : Ref) (inputIds : List ℕ) : Engine :=
  { e with
    calls := e.calls + 1
    scheduler := e.scheduler.set r fun q => { q with promptTokens := inputIds.length } }

/-- The evicted sequence leaves the batch, unless its id is empty (`if evicted and ..`). -/
def dropEvicted (e : Engine) (evicted : Option String) : Engine :=
  match evicted with
  | none => e
  | some victimId =>
    if victimId = "" then e
    else
      match e.activeSequences.get? victimId with
      | none => e
      | some q =>
        fail env { e with activeSequences := e.activeSequences.erase victimId } q.request
          "Evicted due to memory pressure"

def activate (e : Engine) (r : Ref) (inputIds : List ℕ) : Engine :=
  let q : SequenceState := { request := r, inputIds := inputIds }
  { e with activeSequences := e.activeSequences.insert (e.request r).requestId q }

/-- The second half of the loop body of `_admit_new_sequences`: `inputIds` are known. -/
def place (e : Engine) (r : Ref) (inputIds : List ℕ) : Except StepError Unit × Engine :=
  match e.cacheManager.allocateSequence (e.request r).requestId inputIds.length with
  | (.ok _, cache) => (.ok (), { e with cacheManager := cache }.activate r inputIds)
  | (.error (.keyError k), cache) =>
    (.error (.cache (.keyError k)), { e with cacheManager := cache })
  | (.error (.memoryError _), cache) =>
    match cache.evictLru with
    | (.error err, cache) => (.error (.cache err), { e with cacheManager := cache })
    | (.ok evicted, cache) =>
      let e := { e with cacheManager := cache }.dropEvicted env evicted
      match e.cacheManager.allocateSequence (e.request r).requestId inputIds.length with
      | (.ok _, cache) => (.ok (), { e with cacheManager := cache }.activate r inputIds)
      | (.error (.keyError k), cache) =>
        (.error (.cache (.keyError k)), { e with cacheManager := cache })
      | (.error (.memoryError _), cache) =>
        (.ok (), { e with cacheManager := cache }.fail env r "Insufficient KV-cache memory")

/-- The loop body of `_admit_new_sequences`. -/
def admitRequest (e : Engine) (r : Ref) : Except StepError Unit × Engine :=
  match env.tokenizer e.calls (e.request r).prompt 1024 with
  | none => (.error .tokenizer, e.called)
  | some inputIds => (e.tokenized r inputIds).place env r inputIds

def admitAll : List Ref → Engine → Except StepError Unit × Engine
  | [], e => (.ok (), e)
  | r :: rs, e =>
    match e.admitRequest env r with
    | (.error err, e) => (.error err, e)
    | (.ok (), e) => admitAll rs e

def admitNewSequences (e : Engine) : Except StepError Unit × Engine :=
  let availableSlots := e.maxBatchSize - e.batchSize
  if availableSlots ≤ 0 then (.ok (), e)
  else
    let (batch, scheduler) := e.scheduler.getNextBatch env.clock availableSlots.toNat
    admitAll env batch { e with scheduler := scheduler }

/-! ### One forward pass -/

def padId : ℕ := env.padTokenId.getD 0

/-- Right-pad the active sequences to one length. -/
def prepareBatchInputs (e : Engine) : List (List ℕ) :=
  let allInputIds := e.activeSequences.values.map SequenceState.inputIds
  let maxLen := (allInputIds.map List.length).foldl max 0
  allInputIds.map fun ids => ids ++ List.replicate (maxLen - ids.length) (padId env)

/-- `logits[i, seq_len - 1, :]`, where index -1 is the last one. -/
def lastLogits (logits : List (List (List Logit))) (i seqLen : ℕ) : Option (List Logit) :=
  (logits[i]?).bind fun row => if seqLen = 0 then row.getLast? else row[seqLen - 1]?

/-- One token, and the number of external calls made by then. -/
def sampleToken (q : ScheduledRequest) (last : Option (List Logit)) (calls : ℕ) :
    Except StepError ℕ × ℕ :=
  match last with
  | none => (.error .sampler, calls)
  | some last =>
    if Sampling.isGreedy q then
      match Sampling.greedyToken env.torch q last with
      | none => (.error .sampler, calls)
      | some token => (.ok token, calls)
    else
      match env.multinomial calls (Sampling.probs env.torch q last) with
      | none => (.error .sampler, calls + 1)
      | some token => (.ok token, calls + 1)

/-- The loop of `_sample_tokens` from row `i` on. -/
def sampleFrom (e : Engine) (logits : List (List (List Logit))) :
    ℕ → List SequenceState → ℕ → Except StepError (List ℕ) × ℕ
  | _, [], calls => (.ok [], calls)
  | i, q :: qs, calls =>
    match sampleToken env (e.request q.request) (lastLogits logits i q.inputIds.length) calls with
    | (.error err, calls) => (.error err, calls)
    | (.ok token, calls) =>
      match sampleFrom e logits (i + 1) qs calls with
      | (.error err, calls) => (.error err, calls)
      | (.ok tokens, calls) => (.ok (token :: tokens), calls)

def sampleTokens (e : Engine) (logits : List (List (List Logit))) :
    Except StepError (List ℕ) × Engine :=
  let r := e.sampleFrom env logits 0 e.activeSequences.values e.calls
  (r.1, { e with calls := r.2 })

/-- The loop body that appends one token. -/
def appendToken (e : Engine) (p : String × ℕ) : Engine :=
  { e with
    activeSequences := e.activeSequences.modify p.1 fun q =>
      q.append env.eosTokenId (e.request q.request).maxTokens p.2
    totalTokensGenerated := e.totalTokensGenerated + 1 }

/-! ### Finished sequences -/

def finishedIds (e : Engine) : List String :=
  (e.activeSequences.entries.filter fun p => p.2.isFinished).map Prod.fst

/-- The loop body that removes a finished sequence, with the state it removed. -/
def finish (e : Engine) (sequenceId : String) : Except StepError SequenceState × Engine :=
  match e.activeSequences.get? sequenceId with
  | none => (.error (.key sequenceId), e)
  | some q =>
    let e := { e with activeSequences := e.activeSequences.erase sequenceId }
    match env.decode e.calls q.generatedIds true with
    | none => (.error .decode, e.called)
    | some outputText =>
      let e := e.called
      (.ok q, { e with
        scheduler :=
          e.scheduler.completeRequest env.clock sequenceId outputText q.generatedIds.length
        cacheManager := e.cacheManager.freeSequence sequenceId
        totalRequests := e.totalRequests + 1 })

def finishAll : List String → Engine → Except StepError (List SequenceState) × Engine
  | [], e => (.ok [], e)
  | id :: ids, e =>
    match e.finish env id with
    | (.error err, e) => (.error err, e)
    | (.ok q, e) =>
      match finishAll ids e with
      | (.error err, e) => (.error err, e)
      | (.ok qs, e) => (.ok (q :: qs), e)

/-! ### The engine's loop -/

/-- One iteration. The source's list of completed requests is the `request` of each state returned
    here. -/
def step (e : Engine) : Except StepError (List SequenceState) × Engine :=
  match e.admitNewSequences env with
  | (.error err, e) => (.error err, e)
  | (.ok (), e) =>
    if e.activeSequences.keys = [] then (.ok [], e)
    else
      let e := { e with totalIterations := e.totalIterations + 1 }
      match env.model e.calls (e.prepareBatchInputs env) with
      | none => (.error .model, e.called)
      | some logits =>
        match e.called.sampleTokens env logits with
        | (.error err, e) => (.error err, e)
        | (.ok nextTokens, e) =>
          let e := (e.activeSequences.keys.zip nextTokens).foldl (appendToken env) e
          finishAll env e.finishedIds e

/-- The loop of `run_until_empty` with `n` iterations to go. -/
def runLoop : ℕ → Engine → Except StepError (List SequenceState) × Engine
  | 0, e => (.ok [], e)
  | n + 1, e =>
    match e.step env with
    | (.error err, e) => (.error err, e)
    | (.ok completed, e) =>
      if e.scheduler.pendingCount = 0 ∧ e.batchSize = 0 then (.ok completed, e)
      else
        match runLoop n e with
        | (.error err, e) => (.error err, e)
        | (.ok rest, e) => (.ok (completed ++ rest), e)

def runUntilEmpty (e : Engine) : Except StepError (List SequenceState) × Engine :=
  runLoop env 10000 e

/-- The loop with `n` iterations to go calls `step` once for each entry of the list, which is what
    the call returned. -/
inductive Iterates (env : Env) : ℕ → Engine → List (List SequenceState) → Engine → Prop
  | limit {e : Engine} : Iterates env 0 e [] e
  | last {n : ℕ} {e e' : Engine} {completed : List SequenceState}
      (h : e.step env = (.ok completed, e'))
      (hempty : e'.scheduler.pendingCount = 0 ∧ e'.batchSize = 0) :
      Iterates env (n + 1) e [completed] e'
  | more {n : ℕ} {e e₁ e' : Engine} {completed : List SequenceState}
      {rest : List (List SequenceState)} (h : e.step env = (.ok completed, e₁))
      (hleft : ¬ (e₁.scheduler.pendingCount = 0 ∧ e₁.batchSize = 0))
      (hrest : Iterates env n e₁ rest e') : Iterates env (n + 1) e (completed :: rest) e'

/-! ### Runs -/

/-- The calls of a run and how they ended. -/
inductive Event where
  | submitRequest (r : Ref) (req : ScheduledRequest) (accepted : Bool)
  | cancelRequest (requestId : String) (found : Bool)
  | step (result : Except StepError (List SequenceState))

/-- Each submission brings a new request under a new id. -/
def Step (e : Engine) : Event → Engine → Prop
  | .submitRequest r req accepted, e' => RequestScheduler.Fresh e.scheduler req ∧
    r = e.scheduler.requests.next ∧ e.submitRequest req = (accepted, e')
  | .cancelRequest k found, e' => e.cancelRequest env k = (found, e')
  | .step result, e' => e.step env = (result, e')

/-- The same calls by callers who may use an id again. -/
def Call (e : Engine) : Event → Engine → Prop
  | .submitRequest r req accepted, e' => req.status = .PENDING ∧
    r = e.scheduler.requests.next ∧ e.submitRequest req = (accepted, e')
  | .cancelRequest k found, e' => e.cancelRequest env k = (found, e')
  | .step result, e' => e.step env = (result, e')

theorem step_call {env : Env} {e e' : Engine} {ev : Event} (h : Step env e ev e') : Call env e ev e' := by
  cases ev with
  | submitRequest r req accepted => exact ⟨h.1.status, h.2⟩
  | cancelRequest _ _ | step _ => exact h

theorem step_submitRequest (e : Engine) (req : ScheduledRequest)
    (hf : RequestScheduler.Fresh e.scheduler req) :
    Step env e (.submitRequest e.scheduler.requests.next req (e.submitRequest req).1)
      (e.submitRequest req).2 := ⟨hf, rfl, rfl⟩

theorem step_unique (e : Engine) (ev : Event) (e₁ e₂ : Engine) (h₁ : Step env e ev e₁)
    (h₂ : Step env e ev e₂) : e₁ = e₂ := by
  cases ev with
  | submitRequest r req b => exact congrArg Prod.snd (h₁.2.2.symm.trans h₂.2.2)
  | cancelRequest k b => exact congrArg Prod.snd (Eq.trans (Eq.symm h₁) h₂)
  | step res => exact congrArg Prod.snd (Eq.trans (Eq.symm h₁) h₂)

theorem call_submitRequest (e : Engine) (req : ScheduledRequest) (h : req.status = .PENDING) :
    Call env e (.submitRequest e.scheduler.requests.next req (e.submitRequest req).1)
      (e.submitRequest req).2 := ⟨h, rfl, rfl⟩

theorem call_step (e : Engine) : Call env e (.step (e.step env).1) (e.step env).2 := rfl

theorem step_step (e : Engine) : Step env e (.step (e.step env).1) (e.step env).2 := rfl

/-- A new engine on a new scheduler and a new cache manager. -/
def new (maxBatchSize maxQueueSize : ℤ) (defaultTimeout : ℚ) (policy : SchedulingPolicy)
    (numBlocks blockSize : ℕ) : Engine where
  scheduler := .new maxQueueSize defaultTimeout policy
  cacheManager := .new numBlocks blockSize
  maxBatchSize := maxBatchSize

end Engine

/-- A small world: a token for each character, and a model whose logits at a position are `f` of the
    row up to there. -/
def Env.rowwise (f : List ℕ → List Logit) : Env where
  clock _ := 0
  tokenizer _ prompt maxLength := some ((prompt.toList.map Char.toNat).take maxLength)
  model _ batch := some (batch.map fun row =>
    (List.range row.length).map fun p => f (row.take (p + 1)))
  multinomial _ ps := ps.bind fun ps => ps.findIdx? fun p => 0 < p
  decode _ ids _ := some (String.ofList (ids.map Char.ofNat))
  eosTokenId := some 0
  padTokenId := none
  torch := .reference

end ModelServing
