import ModelServing.Api.Positions
import ModelServing.Engine.Decoding

/-! Streaming and batching decode the same tokens. The stream recomputes nothing, the batching engine
    everything and with padding, and each has its own loop and its own sampler: but both end with a
    closed decoding of the prompt, and there is only one. -/

namespace ModelServing

/-- The same request to the stream. -/
def ScheduledRequest.streamed (req : ScheduledRequest) : Streaming.StreamRequest where
  prompt := req.prompt
  maxTokens := req.maxTokens
  temperature := req.temperature
  topK := req.topK
  topP := req.topP

namespace Streaming

open Autoregressive

variable {κ : Type} {env : Env} {forward : Forward κ} {req : ScheduledRequest}
  {logits : List ℕ → List Logit} {Covers : κ → List ℕ → Prop} {d : Locals κ} {text out full : List ℕ}
  {t : ℕ}

/-- With the keys and values that cover a text, the model answers for one more token as it does for all
    of them in full. -/
structure Incremental (forward : Forward κ) (logits : List ℕ → List Logit)
    (Covers : κ → List ℕ → Prop) : Prop where
  full : ∀ i ids, ids ≠ [] → ∃ out past, forward i ids none = some (out, past) ∧
    out.getLast? = some (logits ids) ∧ ∀ c, past = some c → Covers c ids
  extend : ∀ i ids t c, Covers c ids → ∃ out past, forward i [t] (some c) = some (out, past) ∧
    out.getLast? = some (logits (ids ++ [t])) ∧ ∀ c', past = some c' → Covers c' (ids ++ [t])

/-- The keys and values cover all tokens but the last. -/
def Behind (Covers : κ → List ℕ → Prop) (d : Locals κ) : Prop :=
  ∃ ids t, d.inputIds = ids ++ [t] ∧ ∀ c, d.pastKeyValues = some c → Covers c ids

/-- The two samplers agree. -/
theorem sample_greedy (hg : req.temperature < 1 / 100) (last : List Logit) (calls : ℕ) :
    sample env req.streamed last calls = (Sampling.greedyToken env.torch req last, calls) := by
  rw [sample, if_pos (show req.streamed.temperature < 1 / 100 from hg)]
  rfl

/-- A pass gets the logits of the whole text, whatever it is fed. -/
theorem Behind.pass (h : Behind Covers d) (I : Incremental forward logits Covers) :
    ∃ out past, forward d.calls d.modelInput d.pastKeyValues = some (out, past) ∧
      out.getLast? = some (logits d.inputIds) ∧ ∀ c, past = some c → Covers c d.inputIds := by
  obtain ⟨ids, t, hin, hcov⟩ := h
  unfold Locals.modelInput
  rw [hin]
  cases hp : d.pastKeyValues with
  | none => exact I.full _ _ (by simp)
  | some c =>
    have hfed : (ids ++ [t]).drop ((ids ++ [t]).length - 1) = [t] := by simp
    simp only [hfed]
    exact I.extend _ ids t c (hcov c hp)

theorem Behind.nextToken (h : Behind Covers d) (I : Incremental forward logits Covers)
    (hg : req.temperature < 1 / 100) (ht : Engine.next env logits req d.inputIds = some t) :
    ∃ d', nextToken env forward req.streamed d = .ok (t, d') ∧ d'.inputIds = d.inputIds ∧
      ∀ c, d'.pastKeyValues = some c → Covers c d.inputIds := by
  obtain ⟨out, past, hf, hlast, hcov⟩ := h.pass I
  refine ⟨{ d with pastKeyValues := past, calls := d.calls + 1 }, ?_, rfl, hcov⟩
  have hs : sample env req.streamed (logits d.inputIds) (d.calls + 1) = (some t, d.calls + 1) := by
    rw [sample_greedy hg]
    exact congrArg (·, d.calls + 1) ht
  simp only [Streaming.nextToken, hf, hlast, hs]

/-- An iteration that samples EOS leaves the loop. -/
theorem Behind.iteration_eos (h : Behind Covers d) (I : Incremental forward logits Covers)
    (hg : req.temperature < 1 / 100) (ht : Engine.next env logits req d.inputIds = some t)
    (hstop : some t = env.eosTokenId) (requestId : String) (i : ℕ) :
    ∃ turn d', iteration env forward req.streamed requestId i d = .broke turn d' ∧ turn.tokenId = t ∧
      turn.event.finishReason = some "eos" := by
  obtain ⟨d', hnext, -, -⟩ := h.nextToken I hg ht
  simp only [iteration, hnext, if_pos hstop]
  exact ⟨_, _, rfl, rfl, rfl⟩

/-- Any other iteration goes on with its token on top of the text. -/
theorem Behind.iteration_other (h : Behind Covers d) (I : Incremental forward logits Covers)
    (hdec : ∀ i ids skip, env.decode i ids skip ≠ none) (hg : req.temperature < 1 / 100)
    (ht : Engine.next env logits req d.inputIds = some t) (hstop : ¬ some t = env.eosTokenId)
    (requestId : String) (i : ℕ) :
    ∃ turn d', iteration env forward req.streamed requestId i d = .continued turn d' ∧
      turn.tokenId = t ∧ d'.inputIds = d.inputIds ++ [t] ∧ Behind Covers d' ∧
      turn.event.finishReason = if i = req.maxTokens - 1 then some "length" else none := by
  obtain ⟨d₁, hnext, hin, hcov⟩ := h.nextToken I hg ht
  obtain ⟨text, htext⟩ := Option.ne_none_iff_exists'.mp (hdec d₁.calls [t] false)
  simp only [iteration, hnext, if_neg hstop, htext, hin]
  exact ⟨_, _, rfl, rfl, rfl, ⟨_, _, rfl, hcov⟩, rfl⟩

/-- From what is open the loop gets to what is complete, if anything is. -/
theorem streamFrom_complete (requestId : String) (I : Incremental forward logits Covers)
    (hdec : ∀ i ids skip, env.decode i ids skip ≠ none) (hg : req.temperature < 1 / 100)
    (hfull : Closed (Engine.next env logits req) (Engine.Stops env) req.maxTokens text full) (n : ℕ)
    (hn : n + out.length = req.maxTokens)
    (h : Open (Engine.next env logits req) (Engine.Stops env) req.maxTokens text out)
    (hin : d.inputIds = text ++ out) (hd : Behind Covers d) :
    ∃ turns d' reason, streamFrom env forward req.streamed requestId n out.length d = (turns, .ok d') ∧
      Engine.Complete env (Engine.next env logits req) req.maxTokens text
        (out ++ turns.map Turn.tokenId) reason ∧
      turns.getLast?.bind (fun t => t.event.finishReason) = some reason := by
  induction n generalizing out d with
  | zero =>
    have hlt := h.length_lt
    omega
  | succ n ih =>
    obtain ⟨t, ht⟩ := h.next_of_closed hfull
    have hreason : (out ++ [t]).getLast?.map (Engine.endReason env) =
        some (Engine.endReason env t) := by rw [List.getLast?_concat]; rfl
    by_cases hstop : some t = env.eosTokenId
    · obtain ⟨turn, d', hit, rfl, hfin⟩ := hd.iteration_eos I hg (hin ▸ ht) hstop requestId out.length
      refine ⟨[turn], d', Engine.endReason env turn.tokenId, by simp only [streamFrom, hit],
        ⟨h.close ht (Or.inl hstop), hreason⟩, ?_⟩
      rw [Engine.endReason, if_pos hstop]
      exact hfin
    · obtain ⟨turn, d', hit, rfl, hin', hd', hfin⟩ :=
        hd.iteration_other I hdec hg (hin ▸ ht) hstop requestId out.length
      by_cases hlt : out.length + 1 < req.maxTokens
      · have hleft : n + (out ++ [turn.tokenId]).length = req.maxTokens := by
          rw [List.length_append, List.length_singleton]
          omega
        obtain ⟨turns, d₂, reason, hrest, hc, hr⟩ := ih hleft (h.grow ht hstop hlt)
          (by rw [hin', hin, List.append_assoc]) hd'
        rw [List.length_append, List.length_singleton] at hrest
        refine ⟨turn :: turns, d₂, reason, by simp only [streamFrom, hit, hrest], ?_, ?_⟩
        · rwa [List.append_assoc] at hc
        · cases turns with
          | nil => cases hr
          | cons u turns => rwa [List.getLast?_cons_cons]
      · -- the last token allowed
        obtain rfl : n = 0 := by omega
        refine ⟨[turn], d', Engine.endReason env turn.tokenId, by simp only [streamFrom, hit],
          ⟨h.close ht (Or.inr (not_lt.mp hlt)), hreason⟩, ?_⟩
        rw [if_pos (by omega)] at hfin
        rw [Engine.endReason, if_neg hstop]
        exact hfin

theorem remembering_incremental (f : List ℕ → List Logit) : Incremental (remembering f) f Eq := by
  constructor
  · intro i ids hne
    have hpos := List.length_pos_iff.mpr hne
    refine ⟨_, _, rfl, ?_, by simp⟩
    simp only [List.getLast?_map, List.getLast?_range, if_neg hpos.ne', Option.map_some,
      Option.getD_none, List.nil_append, Nat.sub_add_cancel hpos, List.take_length]
  · rintro i ids t c rfl
    exact ⟨_, _, rfl, by simp, by simp⟩

end Streaming

variable {κ : Type} {env : Env} {e : Engine} {maxBatchSize maxQueueSize : ℤ} {defaultTimeout : ℚ}
  {policy : SchedulingPolicy} {numBlocks blockSize : ℕ} {evs : List Engine.Event}
  {logits : List ℕ → List Logit} {tokenize : String → List ℕ} {forward : Streaming.Forward κ}
  {Covers : κ → List ℕ → Prop}

/-- CORRECT: in every run, with any ids and whatever else is served, the tokens of a greedy request that
    the batching engine returns are those its stream samples, and both report why they end. -/
theorem streaming_agrees (S : Engine.Answers env logits tokenize)
    (I : Streaming.Incremental forward logits Covers) (hrun : Trace.Run (Engine.Call env)
      (.new maxBatchSize maxQueueSize defaultTimeout policy numBlocks blockSize) evs e)
    {q : SequenceState} {req : ScheduledRequest} (hq : q ∈ Engine.returned evs)
    (hsub : .submitRequest q.request req true ∈ evs) (hgreedy : req.temperature < 1 / 100)
    (hmax : 1 ≤ req.maxTokens) (hprompt : tokenize req.prompt ≠ []) (requestId : String) (calls : ℕ) :
    ∃ turns done, Streaming.generateStream env forward req.streamed requestId calls = (turns, .ok done) ∧
      turns.map Streaming.Turn.tokenId = q.generatedIds ∧
      turns.getLast?.bind (fun t => t.event.finishReason) = some q.finishReason := by
  have hcomplete := Engine.complete_of_calls S hrun hq hsub
    ⟨Sampling.isGreedy_iff.mpr hgreedy, hmax, hprompt⟩
  obtain ⟨ids, t, hids⟩ := (List.eq_nil_or_concat' _).resolve_left hprompt
  have hstart : (Streaming.start env req.streamed calls : Option (Streaming.Locals κ)) =
      some { inputIds := tokenize req.prompt, calls := calls + 1 } := by
    rw [Streaming.start, show req.streamed.prompt = req.prompt from rfl, S.tokenizer]
    rfl
  have hleft : req.maxTokens + ([] : List ℕ).length = req.maxTokens := rfl
  obtain ⟨turns, d, reason, hstream, hturns, hreason⟩ := Streaming.streamFrom_complete requestId I
    S.decode hgreedy hcomplete.closed req.maxTokens hleft (.nil hmax)
    (d := { inputIds := tokenize req.prompt, calls := calls + 1 }) (List.append_nil _).symm
    ⟨ids, t, hids, fun _ h => by cases h⟩
  obtain ⟨hout, rfl⟩ := hturns.unique hcomplete
  refine ⟨turns, { requestId, generatedTokens := d.generatedCount }, ?_, hout, hreason⟩
  change Streaming.streamFrom env forward req.streamed requestId req.streamed.maxTokens 0 _ = _ at hstream
  simp only [Streaming.generateStream, hstart, hstream]

/-- EOS is the last of two tokens allowed. -/
theorem streaming_agrees_last :
    let f : List ℕ → List Logit := fun ids =>
      if ids.length < 3 then [.negInf, .fin 0] else [.fin 0, .negInf]
    let req : ScheduledRequest :=
      { requestId := "a", prompt := "pp", maxTokens := 2, temperature := 0, createdAt := 0 }
    ∃ turns done, Streaming.generateStream (Env.rowwise f) (Streaming.remembering f) req.streamed "s" 0 =
        (turns, .ok done) ∧
      turns.map Streaming.Turn.tokenId = [1, 0] ∧
      turns.getLast?.bind (fun t => t.event.finishReason) = some "eos" := by
  intro f req
  let env := Env.rowwise f
  let e₀ := ((Engine.new 1 8 60 .fcfs 4 2).submitRequest req).2
  let e₁ := (e₀.step env).2
  let q : SequenceState :=
    { request := 0, inputIds := [112, 112, 1, 0], generatedIds := [1, 0], isFinished := true,
      finishReason := "eos" }
  have h₀ : Engine.Call env (.new 1 8 60 .fcfs 4 2) (.submitRequest 0 req true) e₀ := ⟨rfl, rfl, rfl⟩
  have h₁ : Engine.Call env e₀ (.step (.ok [])) e₁ := Prod.ext (by decide +kernel) rfl
  have h₂ : Engine.Call env e₁ (.step (.ok [q])) (e₁.step env).2 := Prod.ext (by decide +kernel) rfl
  have S : Engine.Answers env f fun prompt => (prompt.toList.map Char.toNat).take 1024 :=
    ⟨fun _ _ => rfl, fun _ _ => rfl, fun _ _ _ => Option.some_ne_none _⟩
  have hsub : Engine.Event.submitRequest q.request req true ∈
      [.submitRequest 0 req true, .step (.ok []), .step (.ok [q])] := List.mem_cons_self
  exact streaming_agrees S (Streaming.remembering_incremental f) (.snoc (.snoc (.snoc .nil h₀) h₁) h₂)
    List.mem_cons_self hsub (by norm_num [req]) (by decide) (by decide) "s" 0

end ModelServing
