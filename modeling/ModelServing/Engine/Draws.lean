import ModelServing.Engine.Sequences

/-! Continuous batching at any temperature. With a causal, row-wise model every token of a sequence is
    drawn from the distribution that its own prompt and its own tokens so far determine: neither the
    padding nor the other rows, nor who joins or leaves the batch meanwhile, has a part in it. And a
    returned sequence stops where its own request says. -/

namespace ModelServing

namespace Engine

open Autoregressive

/-- What may follow a text, for each request. -/
abbrev Choice := ScheduledRequest → List ℕ → ℕ → Prop

/-- The prompt of a sequence, and a property of the tokens generated after it. -/
def FromPrompt (env : Env) (req : ScheduledRequest) (q : SequenceState)
    (P : List ℕ → List ℕ → Prop) : Prop :=
  ∃ i ids, env.tokenizer i req.prompt 1024 = some ids ∧ q.inputIds = ids ++ q.generatedIds ∧
    P ids q.generatedIds

/-- A sequence under way to its own end. -/
def InProgress (env : Env) (may : Choice) (req : ScheduledRequest) (q : SequenceState) : Prop :=
  q.isFinished = false ∧ FromPrompt env req q fun ids out =>
    1 ≤ req.maxTokens → Drawing (may req) (Stops env) req.maxTokens ids out

/-- A sequence that has come to its own end, and says why. -/
def Sampled (env : Env) (may : Choice) (req : ScheduledRequest) (q : SequenceState) : Prop :=
  q.generatedIds.getLast?.map (endReason env) = some q.finishReason ∧
    FromPrompt env req q fun ids out =>
      1 ≤ req.maxTokens → Drawn (may req) (Stops env) req.maxTokens ids out

variable {env : Env} {e : Engine} {q : SequenceState} {req : ScheduledRequest} {may : Choice} {c t : ℕ}

/-- One more token that may follow. -/
theorem InProgress.append (S : InProgress env may req q) (ht : may req q.inputIds t) :
    let q' := q.append env.eosTokenId req.maxTokens t
    (q'.isFinished = true → Sampled env may req q') ∧
      (q'.isFinished = false → InProgress env may req q') := by
  intro q'
  obtain ⟨hq, i, ids, hi, hin, hdraw⟩ := S
  have hfin := SequenceState.append_isFinished env.eosTokenId req.maxTokens t q
  have hgen : q'.generatedIds = q.generatedIds ++ [t] := SequenceState.append_generatedIds ..
  have hids : q'.inputIds = ids ++ q'.generatedIds := by
    rw [hgen, ← List.append_assoc, ← hin]
    exact SequenceState.append_inputIds ..
  rw [hin] at ht
  refine ⟨fun hf => ⟨?_, i, ids, hi, hids, fun hpos => ?_⟩,
    fun hf => ⟨hf, i, ids, hi, hids, fun hpos => ?_⟩⟩
  · rw [hgen, List.getLast?_concat, SequenceState.append_finishReason _ _ _ _ hf hq]
    rfl
  · have hend := (hfin.mp hf).resolve_left (by rw [hq]; exact Bool.false_ne_true)
    exact hgen ▸ (hdraw hpos).close ht hend
  · have hnot := mt hfin.mpr (by rw [show q'.isFinished = false from hf]; exact Bool.false_ne_true)
    simp only [not_or, not_le] at hnot
    exact hgen ▸ (hdraw hpos).grow ht hnot.2.1 hnot.2.2

/-- Whatever limits the tokens drawn for a sequence, its path keeps to it. -/
theorem sampling_rule (h : RequestScheduler.Stable may)
    (hdraw : ∀ e q t, Draw env e q t → InProgress env may (e.request q.request) q →
      may (e.request q.request) q.inputIds t) :
    Rule env (InProgress env may) (Sampled env may) where
  stable_going q := by
    constructor <;> intros <;> simp only [InProgress, FromPrompt, h.start, h.cancel, h.complete, h.fail,
      h.error, h.timeout, h.promptTokens] <;> rfl
  stable_ended q := by
    constructor <;> intros <;> simp only [Sampled, FromPrompt, h.start, h.cancel, h.complete, h.fail,
      h.error, h.timeout, h.promptTokens] <;> rfl
  unfinished _ _ S := S.1
  admitted i req r ids hi := ⟨rfl, i, ids, hi, (List.append_nil ids).symm, .nil⟩
  drawn e q t hd S := S.append (hdraw e q t hd S)

/-! ### A causal model -/

variable {logits : List ℕ → List Logit} {last : List Logit}

/-- The logits at a position depend on the tokens up to there in the same row and on nothing else,
    whenever the model answers. -/
def Rowwise (env : Env) (logits : List ℕ → List Logit) : Prop :=
  ∀ i batch out, env.model i batch = some out →
    out = batch.map fun row => (List.range row.length).map fun p => logits (row.take (p + 1))

/-- `t` may follow `ids`: it is the largest of the filtered logits there, or drawn from the
    distribution they give. -/
def MayFollow (env : Env) (logits : List ℕ → List Logit) : Choice := fun req ids t =>
  if Sampling.isGreedy req = true then Sampling.greedyToken env.torch req (logits ids) = some t
  else ∃ i, env.multinomial i (Sampling.probs env.torch req (logits ids)) = some t

/-- A token is chosen from the row it is given. -/
theorem sampleToken_mayFollow {ids : List ℕ}
    (h : (sampleToken env req (some (logits ids)) c).1 = .ok t) : MayFollow env logits req ids t := by
  rw [MayFollow]
  cases hg : Sampling.isGreedy req with
  | true => exact sampleToken_greedy hg h
  | false =>
    simp only [sampleToken, hg, Bool.false_eq_true, if_false] at h ⊢
    split at h
    · cases h
    · rename_i token htoken
      cases h
      exact ⟨c, htoken⟩

/-- The row a sequence draws from is that of its own tokens. -/
theorem Draw.mayFollow (h : Draw env e q t) (hmodel : Rowwise env logits) (hne : q.inputIds ≠ []) :
    MayFollow env logits (e.request q.request) q.inputIds t := by
  obtain ⟨k, j, c, out, hm, hent, ht⟩ := h
  let total : ℕ → List (List ℕ) → Option (List (List (List Logit))) := fun _ batch =>
    some (batch.map fun row => (List.range row.length).map fun p => logits (row.take (p + 1)))
  let env' : Env := { env with model := total }
  have hbatch : e.prepareBatchInputs env' = e.prepareBatchInputs env := rfl
  have hm' : env'.model e.calls (e.prepareBatchInputs env') = some out := by
    rw [hmodel _ _ _ hm, hbatch]
  rw [lastLogits_rowwise (fun _ _ => rfl) hm' hent hne] at ht
  exact sampleToken_mayFollow ht

theorem mayFollow_rule (hmodel : Rowwise env logits)
    (htok : ∀ i prompt ids, env.tokenizer i prompt 1024 = some ids → ids ≠ []) :
    Rule env (InProgress env (MayFollow env logits)) (Sampled env (MayFollow env logits)) := by
  refine sampling_rule ?_ fun e q t hd S => hd.mayFollow hmodel ?_
  · constructor <;> intros <;> rfl
  · obtain ⟨-, i, ids, hi, hin, -⟩ := S
    rw [hin]
    exact List.append_ne_nil_of_left_ne_nil (htok _ _ _ hi) _

/-! ### Runs -/

variable {maxBatchSize maxQueueSize : ℤ} {defaultTimeout : ℚ} {policy : SchedulingPolicy}
  {numBlocks blockSize : ℕ} {evs : List Event}

/-- Batching is transparent to sampling: in every run, whatever is cancelled, whichever ids repeat and
    whatever raises besides the decoder, the tokens of every sequence in the batch are drawn one after
    another from what its own prompt gives, and a returned sequence has been drawn to its own first
    EOS or its own `max_tokens`, and says which. -/
theorem samples_own_prompt (hmodel : Rowwise env logits)
    (htok : ∀ i prompt ids, env.tokenizer i prompt 1024 = some ids → ids ≠ [])
    (hrun : Trace.Run (Call env)
      (new maxBatchSize maxQueueSize defaultTimeout policy numBlocks blockSize) evs e)
    (hdec : Decoded evs) :
    (∀ k q, e.activeSequences.get? k = some q →
      InProgress env (MayFollow env logits) (e.request q.request) q) ∧
    ∀ q ∈ returned evs, ∃ req, .submitRequest q.request req true ∈ evs ∧
      Sampled env (MayFollow env logits) req q := by
  obtain ⟨I, hret⟩ := (mayFollow_rule hmodel htok).of_calls hrun hdec
  exact ⟨fun k q hq => I.staying k q hq List.not_mem_nil, hret⟩

/-- Two requests at temperature 1: the longer prompt is at its end after one draw, the other goes on. -/
theorem samples_own_prompt_two :
    let logits : List ℕ → List Logit :=
      fun ids => if ids.length < 4 then [.negInf, .fin 0] else [.fin 0, .negInf]
    let env := { Env.rowwise logits with
      tokenizer := fun _ prompt n => some ((2 :: prompt.toList.map Char.toNat).take n) }
    let a : ScheduledRequest := { requestId := "a", prompt := "x", maxTokens := 8, createdAt := 0 }
    let e₁ := ((new 2 8 60 .fcfs 8 2).submitRequest a).2
    let e₂ := (e₁.submitRequest { a with requestId := "b", prompt := "yyy" }).2
    let q : SequenceState := { request := 0, inputIds := [2, 120, 1], generatedIds := [1] }
    (e₂.step env).2.activeSequences.get? "a" = some q ∧
      InProgress env (MayFollow env logits) ((e₂.step env).2.request 0) q := by
  intro logits env a e₁ e₂ q
  have hmodel : Rowwise env logits := fun i batch out h => (Option.some.inj h).symm
  have hrun := Trace.Run.snoc (.snoc (.snoc .nil
    (call_submitRequest env (new 2 8 60 .fcfs 8 2) a rfl))
    (call_submitRequest env e₁ { a with requestId := "b", prompt := "yyy" } rfl))
    (call_step env e₂)
  have hq : (e₂.step env).2.activeSequences.get? "a" = some q := by decide +kernel
  have hdec : (e₂.step env).1 ≠ .error .decode := fun h => by
    have hok : (e₂.step env).1.isOk := by decide +kernel
    rw [h] at hok
    cases hok
  refine ⟨hq, (samples_own_prompt hmodel (fun i prompt ids h => ?_) hrun ?_).1 "a" q hq⟩
  · obtain rfl := Option.some.inj h
    simp
  · simpa [Decoded] using hdec.symm

end Engine

end ModelServing
