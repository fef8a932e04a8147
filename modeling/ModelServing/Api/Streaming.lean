import ModelServing.Engine.Batching
import ModelServing.Lib.Autoregressive

/-! The streaming endpoint: `streaming.py`. `generate_stream` decodes one prompt by itself, feeds the
    model the last token and the keys and values it got back, and yields an event for every token.
    Events are the data that goes into their JSON; device placement, timings and the pauses for the
    event loop are left out. -/

namespace ModelServing

namespace Streaming

/-- `self.model(input_ids, past_key_values, use_cache=True)` on one row: the logits of the positions
    it is fed and the keys and values to go on with. The first argument counts the calls, `none` is an
    exception. -/
abbrev Forward (κ : Type) := ℕ → List ℕ → Option κ → Option (List (List Logit) × Option κ)

/-- The arguments of `generate_stream`. -/
structure StreamRequest where
  prompt : String
  maxTokens : ℕ := 256
  temperature : ℚ := 1
  topK : ℤ := 50
  topP : ℚ := 1

/-- The data of an SSE event. -/
structure StreamEvent where
  requestId : String
  token : String
  index : ℕ
  finishReason : Option String
  deriving DecidableEq

/-- The data of the final event. -/
structure DoneEvent where
  requestId : String
  generatedTokens : ℕ
  deriving DecidableEq

/-- An iteration: the token it sampled and the event it yielded. -/
structure Turn where
  tokenId : ℕ
  event : StreamEvent
  deriving DecidableEq

/-- The local variables of `generate_stream`, and how many external calls were made. -/
structure Locals (κ : Type) where
  inputIds : List ℕ
  pastKeyValues : Option κ := none
  generatedCount : ℕ := 0
  calls : ℕ

/-- How an iteration leaves the loop, or goes on. -/
inductive Outcome (κ : Type) where
  | raised (err : StepError)
  | broke (t : Turn) (d : Locals κ)
  | continued (t : Turn) (d : Locals κ)

variable {κ : Type} (env : Env) (forward : Forward κ) (request : StreamRequest) (requestId : String)

/-- What a pass is fed: the whole text, or with keys and values `input_ids[:, -1:]`. -/
def Locals.modelInput (d : Locals κ) : List ℕ :=
  match d.pastKeyValues with
  | some _ => d.inputIds.drop (d.inputIds.length - 1)
  | none => d.inputIds

/-- The distribution in `_sample`. -/
def probs (logits : List Logit) : Option (List ℚ) :=
  let temp := max request.temperature (1 / 10000000)
  let scaled := logits.map (env.torch.div temp)
  env.torch.softmax
    (Sampling.topPFilter env.torch request.topP (Sampling.topKFilter env.torch request.topK scaled))

/-- `_sample`, and the number of external calls made by then. -/
def sample (logits : List Logit) (calls : ℕ) : Option ℕ × ℕ :=
  if request.temperature < 1 / 100 then (Torch.argmax (probs env request logits), calls)
  else (env.multinomial calls (probs env request logits), calls + 1)

/-- The forward pass and the sampling of iteration `i`. -/
def nextToken (d : Locals κ) : Except StepError (ℕ × Locals κ) :=
  match forward d.calls d.modelInput d.pastKeyValues with
  | none => .error .model
  | some (logits, pastKeyValues) =>
    match logits.getLast? with
    | none => .error .sampler
    | some last =>
      match sample env request last (d.calls + 1) with
      | (none, _) => .error .sampler
      | (some tokenId, calls) =>
        .ok (tokenId, { d with pastKeyValues := pastKeyValues, calls := calls })

/-- The loop body. -/
def iteration (i : ℕ) (d : Locals κ) : Outcome κ :=
  match nextToken env forward request d with
  | .error err => .raised err
  | .ok (tokenId, d) =>
    if some tokenId = env.eosTokenId then
      .broke ⟨tokenId, { requestId, token := "", index := i, finishReason := some "eos" }⟩ d
    else
      match env.decode d.calls [tokenId] false with
      | none => .raised .decode
      | some tokenText =>
        let finishReason := if i = request.maxTokens - 1 then some "length" else none
        .continued ⟨tokenId, { requestId, token := tokenText, index := i, finishReason }⟩ { d with
          inputIds := d.inputIds ++ [tokenId]
          generatedCount := d.generatedCount + 1
          calls := d.calls + 1 }

/-- The loop from iteration `i` on, with `n` iterations to go. -/
def streamFrom : ℕ → ℕ → Locals κ → List Turn × Except StepError (Locals κ)
  | 0, _, d => ([], .ok d)
  | n + 1, i, d =>
    match iteration env forward request requestId i d with
    | .raised err => ([], .error err)
    | .broke t d => ([t], .ok d)
    | .continued t d =>
      let rest := streamFrom n (i + 1) d
      (t :: rest.1, rest.2)

/-- Where the loop starts: the prompt is tokenized. -/
def start (calls : ℕ) : Option (Locals κ) :=
  (env.tokenizer calls request.prompt 1024).map fun inputIds => { inputIds, calls := calls + 1 }

/-- The iterations, whose events it yields one by one, and the final event or the exception. -/
def generateStream (calls : ℕ) : List Turn × Except StepError DoneEvent :=
  match (start env request calls : Option (Locals κ)) with
  | none => ([], .error .tokenizer)
  | some d =>
    match streamFrom env forward request requestId request.maxTokens 0 d with
    | (turns, .error err) => (turns, .error err)
    | (turns, .ok d) => (turns, .ok { requestId, generatedTokens := d.generatedCount })

/-- The states in which that loop calls the model. -/
def passes : ℕ → ℕ → Locals κ → List (Locals κ)
  | 0, _, _ => []
  | n + 1, i, d =>
    d :: match iteration env forward request requestId i d with
      | .continued _ d => passes n (i + 1) d
      | .raised _ | .broke _ _ => []

/-- A model whose keys and values are the tokens they come from. -/
def remembering (f : List ℕ → List Logit) : Forward (List ℕ) := fun _ ids past =>
  let seen := past.getD []
  some ((List.range ids.length).map fun p => f (seen ++ ids.take (p + 1)), some (seen ++ ids))

/-! ### The loop body -/

variable {env forward request requestId} {d d' : Locals κ} {i : ℕ} {t : Turn}

theorem nextToken_ok {tokenId : ℕ} (h : nextToken env forward request d = .ok (tokenId, d')) :
    d'.inputIds = d.inputIds ∧ d'.generatedCount = d.generatedCount ∧
      ∃ logits last calls, forward d.calls d.modelInput d.pastKeyValues = some (logits, d'.pastKeyValues) ∧
        logits.getLast? = some last ∧
        sample env request last (d.calls + 1) = (some tokenId, calls) := by
  unfold nextToken at h
  split at h
  · cases h
  · rename_i logits past hf
    split at h
    · cases h
    · rename_i last hl
      split at h
      · cases h
      · rename_i t calls hs
        cases h
        exact ⟨rfl, rfl, logits, last, calls, hf, hl, hs⟩

/-- An iteration that goes on has appended its token, which is not EOS. -/
theorem iteration_continued
    (h : iteration env forward request requestId i d = .continued t d') :
    some t.tokenId ≠ env.eosTokenId ∧ d'.inputIds = d.inputIds ++ [t.tokenId] ∧
      d'.generatedCount = d.generatedCount + 1 ∧
      ∃ d₁ text, nextToken env forward request d = .ok (t.tokenId, d₁) ∧
        d'.pastKeyValues = d₁.pastKeyValues ∧ env.decode d₁.calls [t.tokenId] false = some text ∧
        t.event = ⟨requestId, text, i, if i = request.maxTokens - 1 then some "length" else none⟩ := by
  unfold iteration at h
  split at h
  · cases h
  · rename_i tokenId d₁ hn
    obtain ⟨hin, hcount, -⟩ := nextToken_ok hn
    split at h
    · cases h
    · rename_i hne
      split at h
      · cases h
      · rename_i text ht
        cases h
        exact ⟨hne, by rw [hin], by rw [hcount], d₁, text, hn, rfl, ht, rfl⟩

/-- An iteration that leaves the loop has sampled EOS. -/
theorem iteration_broke (h : iteration env forward request requestId i d = .broke t d') :
    some t.tokenId = env.eosTokenId ∧ d'.generatedCount = d.generatedCount ∧
      t.event = { requestId, token := "", index := i, finishReason := some "eos" } := by
  unfold iteration at h
  split at h
  · cases h
  · rename_i tokenId d₁ hn
    obtain ⟨-, hcount, -⟩ := nextToken_ok hn
    split at h
    · rename_i heos
      cases h
      exact ⟨heos, hcount, rfl⟩
    · split at h <;> cases h

/-! ### Runs that end -/

variable {turns : List Turn}

theorem streamFrom_cases {n : ℕ}
    (h : streamFrom env forward request requestId (n + 1) i d = (turns, .ok d')) :
    (∃ t, iteration env forward request requestId i d = .broke t d' ∧ turns = [t]) ∨
      ∃ t d₁ rest, iteration env forward request requestId i d = .continued t d₁ ∧
        streamFrom env forward request requestId n (i + 1) d₁ = (rest, .ok d') ∧ turns = t :: rest := by
  unfold streamFrom at h
  cases hit : iteration env forward request requestId i d with
  | raised err => simp [hit] at h
  | broke t d₁ =>
    simp only [hit, Prod.mk.injEq, Except.ok.injEq] at h
    exact Or.inl ⟨t, by rw [h.2], h.1.symm⟩
  | continued t d₁ =>
    simp only [hit, Prod.mk.injEq] at h
    exact Or.inr ⟨t, d₁, _, rfl, Prod.ext rfl h.2, h.1.symm⟩

theorem generateStream_cases {calls : ℕ} {done : DoneEvent}
    (h : generateStream env forward request requestId calls = (turns, .ok done)) :
    ∃ inputIds d', streamFrom env forward request requestId request.maxTokens 0
        { inputIds, calls := calls + 1 } = (turns, .ok d') ∧
      done = { requestId, generatedTokens := d'.generatedCount } := by
  unfold generateStream at h
  cases hs : (start env request calls : Option (Locals κ)) with
  | none => simp [hs] at h
  | some d =>
    obtain ⟨inputIds, -, rfl⟩ := Option.map_eq_some_iff.mp hs
    rcases hfrom : streamFrom env forward request requestId request.maxTokens 0
      { inputIds, calls := calls + 1 } with ⟨turns', err | d'⟩
    · simp [hs, hfrom] at h
    · simp only [hs, hfrom, Prod.mk.injEq, Except.ok.injEq] at h
      obtain ⟨rfl, rfl⟩ := h
      exact ⟨inputIds, d', hfrom, rfl⟩

end Streaming

end ModelServing
