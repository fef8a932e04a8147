import ModelServing.Engine.Cancellation
import ModelServing.Engine.ExceptionSafety

/-! Batching is transparent. With a causal, row-wise model and greedy requests, whatever shares the
    batch with a request, joins it, leaves it or is evicted from it: a completed request has got the
    tokens that its own prompt gives alone. -/

namespace ModelServing

namespace Engine

/-! ### Decoding alone -/

/-- Greedy decoding of one sequence alone, for at most `n` more tokens: the token of the last logits is
    appended until it is EOS. `none` if some logits are empty. -/
def solo (env : Env) (logits : List ℕ → List Logit) (req : ScheduledRequest) :
    ℕ → List ℕ → Option (List ℕ)
  | 0, _ => some []
  | n + 1, ids =>
    match Sampling.greedyToken env.torch req (logits ids) with
    | none => none
    | some token =>
      if some token = env.eosTokenId then some [token]
      else (solo env logits req n (ids ++ [token])).map (token :: ·)

/-- What is assumed outside: the logits at a position depend on the tokens up to there in the same row
    and on nothing else, and the tokenizer and the decoder are functions that answer. -/
structure Causal (env : Env) (logits : List ℕ → List Logit) (tokenize : String → List ℕ)
    (text : List ℕ → String) : Prop where
  model : ∀ i batch, env.model i batch =
    some (batch.map fun row => (List.range row.length).map fun p => logits (row.take (p + 1)))
  tokenizer : ∀ i prompt, env.tokenizer i prompt 1024 = some (tokenize prompt)
  tokenize_ne_nil : ∀ prompt, tokenize prompt ≠ []
  decode : ∀ i ids, env.decode i ids true = some (text ids)

variable {env : Env} {e e' : Engine} {acc : List Ref} {p p' : Point}
  {logits : List ℕ → List Logit} {tokenize : String → List ℕ} {text : List ℕ → String}

/-- Only the sampling parameters of the request matter. -/
theorem solo_congr {req req' : ScheduledRequest} (ht : req'.temperature = req.temperature)
    (hk : req'.topK = req.topK) (hp : req'.topP = req.topP) :
    ∀ (n : ℕ) (ids : List ℕ), solo env logits req' n ids = solo env logits req n ids
  | 0, _ => rfl
  | n + 1, ids => by
      have hg : Sampling.greedyToken env.torch req' (logits ids) =
          Sampling.greedyToken env.torch req (logits ids) := by
        simp only [Sampling.greedyToken, Sampling.probs, Sampling.temp, ht, hk, hp]
      simp only [solo, hg, solo_congr ht hk hp n]

/-- A token on top of what has been generated. -/
theorem solo_succ {req : ScheduledRequest} {n token : ℕ} {ids : List ℕ}
    (h : Sampling.greedyToken env.torch req (logits ids) = some token) :
    solo env logits req (n + 1) ids = if some token = env.eosTokenId then some [token]
      else (solo env logits req n (ids ++ [token])).map (token :: ·) := by
  simp only [solo, h]

/-- The row of a sequence in the padded batch starts with its tokens. -/
theorem prepareBatchInputs_row (env : Env) {j : ℕ} {k : String} {q : SequenceState}
    (h : e.activeSequences.entries[j]? = some (k, q)) :
    ∃ pad, (e.prepareBatchInputs env)[j]? = some (q.inputIds ++ pad) := by
  simp only [prepareBatchInputs, OrderedDict.values, List.getElem?_map, h, Option.map_some]
  exact ⟨_, rfl⟩

/-- Padding does not reach the logits a sequence is sampled from. -/
theorem lastLogits_rowwise (hmodel : ∀ i batch, env.model i batch =
      some (batch.map fun row => (List.range row.length).map fun p => logits (row.take (p + 1))))
    {i j : ℕ} {k : String} {q : SequenceState} {out : List (List (List Logit))}
    (hm : env.model i (e.prepareBatchInputs env) = some out)
    (h : e.activeSequences.entries[j]? = some (k, q)) (hne : q.inputIds ≠ []) :
    lastLogits out j q.inputIds.length = some (logits q.inputIds) := by
  obtain ⟨pad, hrow⟩ := prepareBatchInputs_row env h
  rw [hmodel, Option.some.injEq] at hm
  have hpos : 0 < q.inputIds.length := List.length_pos_iff.mpr hne
  have hlt : q.inputIds.length - 1 < (q.inputIds ++ pad).length := by
    rw [List.length_append]; omega
  rw [lastLogits, ← hm, List.getElem?_map, hrow]
  simp only [Option.map_some, Option.bind_some, if_neg (Nat.ne_of_gt hpos), List.getElem?_map,
    List.getElem?_range hlt]
  rw [Nat.sub_add_cancel hpos, List.take_left]

theorem sampleToken_greedy {req : ScheduledRequest} {last : List Logit} {c token : ℕ}
    (hg : Sampling.isGreedy req = true)
    (h : (sampleToken env req (some last) c).1 = .ok token) :
    Sampling.greedyToken env.torch req last = some token := by
  simp only [sampleToken, hg, if_true] at h
  split at h
  · cases h
  · rename_i hg'
    cases h
    exact hg'

/-! ### In the batch -/

/-- What decoding the prompt of `r` alone gives. -/
def soloOf (env : Env) (logits : List ℕ → List Logit) (tokenize : String → List ℕ)
    (req : ScheduledRequest) : Option (List ℕ) :=
  solo env logits req req.maxTokens (tokenize req.prompt)

theorem soloOf_congr {req req' : ScheduledRequest} (h : ∀ {β : Type} (g : ScheduledRequest → β),
    RequestScheduler.Stable g → g req' = g req) :
    soloOf env logits tokenize req' = soloOf env logits tokenize req := by
  rw [soloOf, soloOf, h _ RequestScheduler.stable_maxTokens, h _ RequestScheduler.stable_prompt]
  exact solo_congr (h _ RequestScheduler.stable_temperature) (h _ RequestScheduler.stable_topK)
    (h _ RequestScheduler.stable_topP) _ _

/-- Every sequence has got the tokens it would have got alone so far: all of them if it is finished,
    and otherwise decoding it alone from here on gives the rest. -/
structure Alone (env : Env) (logits : List ℕ → List Logit) (tokenize : String → List ℕ) (p : Point)
    (e : Engine) : Prop where
  finished : ∀ k q, e.activeSequences.get? k = some q → q.isFinished = true →
    k ∈ p.toFinish ∧ soloOf env logits tokenize (e.request q.request) = some q.generatedIds
  unfinished : ∀ k q, e.activeSequences.get? k = some q → q.isFinished = false →
    q.generatedIds.length < (e.request q.request).maxTokens ∧
    soloOf env logits tokenize (e.request q.request) =
      (solo env logits (e.request q.request)
        ((e.request q.request).maxTokens - q.generatedIds.length) q.inputIds).map (q.generatedIds ++ ·)
  toFinish : ∀ k q, k ∈ p.toFinish → e.activeSequences.get? k = some q → q.isFinished = true

/-- The accepted requests decode greedily and may generate a token. -/
def AllGreedy (acc : List Ref) (e : Engine) : Prop :=
  ∀ r ∈ acc, Sampling.isGreedy (e.request r) = true ∧ 1 ≤ (e.request r).maxTokens

namespace Alone

/-- One more token, drawn from the sequence's own logits. -/
theorem grow {req : ScheduledRequest} {q : SequenceState} {token : ℕ} (hq : q.isFinished = false)
    (hlt : q.generatedIds.length < req.maxTokens)
    (h : soloOf env logits tokenize req =
      (solo env logits req (req.maxTokens - q.generatedIds.length) q.inputIds).map
        (q.generatedIds ++ ·))
    (ht : Sampling.greedyToken env.torch req (logits q.inputIds) = some token) :
    let q' := q.append env.eosTokenId req.maxTokens token
    (q'.isFinished = true → soloOf env logits tokenize req = some q'.generatedIds) ∧
    (q'.isFinished = false → q'.generatedIds.length < req.maxTokens ∧
      soloOf env logits tokenize req =
        (solo env logits req (req.maxTokens - q'.generatedIds.length) q'.inputIds).map
          (q'.generatedIds ++ ·)) := by
  intro q'
  obtain ⟨n, hn⟩ : ∃ n, req.maxTokens - q.generatedIds.length = n + 1 :=
    ⟨req.maxTokens - q.generatedIds.length - 1, by omega⟩
  rw [hn, solo_succ ht] at h
  have hfin := SequenceState.append_isFinished env.eosTokenId req.maxTokens token q
  have hgen : q'.generatedIds = q.generatedIds ++ [token] := SequenceState.append_generatedIds ..
  have hin : q'.inputIds = q.inputIds ++ [token] := SequenceState.append_inputIds ..
  refine ⟨fun hf => ?_, fun hf => ?_⟩
  · rw [hgen, h]
    rcases hfin.mp hf with hq' | heos | hmax
    · rw [hq] at hq'; cases hq'
    · rw [if_pos heos]; rfl
    · -- the limit is reached, so nothing follows the token either way
      have h0 : n = 0 := by omega
      subst h0
      split <;> rfl
  · have hnot := mt hfin.mpr (by rw [show q'.isFinished = false from hf]; decide)
    push Not at hnot
    obtain ⟨-, heos, hmax⟩ := hnot
    have hlen : q'.generatedIds.length = q.generatedIds.length + 1 := by simp [hgen]
    refine ⟨by omega, ?_⟩
    rw [hlen, show req.maxTokens - (q.generatedIds.length + 1) = n by omega, h, if_neg heos, hin,
      hgen, Option.map_map]
    congr 1
    funext rest
    simp

/-- A sequence that gets a token is not finished and gets its own next one. -/
theorem drawn (A : Alone env logits tokenize (.admitting []) e) (C : Causal env logits tokenize text)
    (G : AllGreedy acc e) (B : Batch acc (.admitting []) e) (T : Tokenized env (.admitting []) e)
    {k : String} {q : SequenceState} {out : List (List (List Logit))} {j c t : ℕ}
    (hm : env.model e.calls (e.prepareBatchInputs env) = some out)
    (hent : e.activeSequences.entries[j]? = some (k, q))
    (ht : (sampleToken env (e.request q.request) (lastLogits out j q.inputIds.length) c).1 = .ok t) :
    let q' := q.append env.eosTokenId (e.request q.request).maxTokens t
    (q'.isFinished = true →
      soloOf env logits tokenize (e.request q.request) = some q'.generatedIds) ∧
    (q'.isFinished = false → q'.generatedIds.length < (e.request q.request).maxTokens ∧
      soloOf env logits tokenize (e.request q.request) =
        (solo env logits (e.request q.request)
          ((e.request q.request).maxTokens - q'.generatedIds.length) q'.inputIds).map
            (q'.generatedIds ++ ·)) := by
  have hq := OrderedDict.get?_eq_some_iff.mpr (List.mem_of_getElem? hent)
  have hunfinished : q.isFinished = false := by
    by_contra hf
    exact absurd (A.finished k q hq (by simpa using hf)).1 List.not_mem_nil
  obtain ⟨i, ids, hi, hin⟩ := T.active k q hq
  have hne : q.inputIds ≠ [] := by
    rw [C.tokenizer, Option.some.injEq] at hi
    rw [hin, ← hi]
    exact List.append_ne_nil_of_left_ne_nil (C.tokenize_ne_nil _) _
  rw [lastLogits_rowwise C.model hm hent hne] at ht
  obtain ⟨hlt, hs⟩ := A.unfinished k q hq hunfinished
  exact grow hunfinished hlt hs (sampleToken_greedy (G _ (B.active k q hq).1).1 ht)

theorem micro {a : Action} (A : Alone env logits tokenize p e) (C : Causal env logits tokenize text)
    (G : AllGreedy acc e) (B : Batch acc p e) (T : Tokenized env p e)
    (h : Micro env (p, e) a (p', e')) (hp' : ∀ err, p' ≠ .ended (some err)) :
    Alone env logits tokenize p' e' := by
  have hstable : ∀ x {β : Type} (g : ScheduledRequest → β), RequestScheduler.Stable g →
      g (e'.request x) = g (e.request x) := fun x _ g hg => h.stable g hg x
  have hof : ∀ x, soloOf env logits tokenize (e'.request x) =
      soloOf env logits tokenize (e.request x) := fun x => soloOf_congr (hstable x)
  have hsolo : ∀ x n ids, solo env logits (e'.request x) n ids = solo env logits (e.request x) n ids :=
    fun x n ids => solo_congr (hstable x _ RequestScheduler.stable_temperature)
      (hstable x _ RequestScheduler.stable_topK) (hstable x _ RequestScheduler.stable_topP) n ids
  have hmax : ∀ x, (e'.request x).maxTokens = (e.request x).maxTokens :=
    fun x => hstable x _ RequestScheduler.stable_maxTokens
  constructor
  · intro k q' hq' hf
    rw [hof]
    cases h.origin hq' with
    | kept hq =>
      obtain ⟨hk, hs⟩ := A.finished k q' hq hf
      refine ⟨?_, hs⟩
      cases h with
      | @finish _ _ id ids _ hfin =>
        refine (List.mem_cons.mp hk).resolve_left fun heq => ?_
        obtain ⟨-, text, -, rfl⟩ := finish_ok hfin
        exact (OrderedDict.mem_keys_erase.mp (OrderedDict.mem_keys_of_get? hq')).1 heq
      | raiseFinish _ => exact absurd rfl (hp' _)
      | _ => exact absurd hk List.not_mem_nil
    | admitted _ => cases hf
    | grown hm hent ht =>
      rw [SequenceState.append_request]
      exact ⟨mem_finishedIds.mpr ⟨_, hq', hf⟩, (A.drawn C G B T hm hent ht).1 hf⟩
  · intro k q' hq' hf
    rw [hof, hsolo, hmax]
    cases h.origin hq' with
    | kept hq => exact A.unfinished k q' hq hf
    | @admitted _ _ r rs ids _ _ =>
      obtain ⟨i, hi⟩ := T.placing r ids rs rfl
      rw [C.tokenizer, Option.some.injEq] at hi
      refine ⟨(G r (B.todo r List.mem_cons_self).1).2, ?_⟩
      simp [soloOf, hi]
    | grown hm hent ht =>
      rw [SequenceState.append_request]
      exact (A.drawn C G B T hm hent ht).2 hf
  · intro k q' hk hq'
    cases h with
    | append _ _ _ =>
      obtain ⟨q, hq, hf⟩ := mem_finishedIds.mp hk
      cases hq'.symm.trans hq
      exact hf
    | @finish _ _ id _ _ hfin =>
      obtain ⟨-, text, -, rfl⟩ := finish_ok hfin
      have hne := (OrderedDict.mem_keys_erase.mp (OrderedDict.mem_keys_of_get? hq')).1
      exact A.toFinish k q' (List.mem_cons_of_mem _ hk)
        ((OrderedDict.get?_erase_of_ne _ hne).symm.trans hq')
    | raiseSampler _ _ _ | raiseFinish _ => exact absurd hk List.not_mem_nil
    | _ => exact absurd hk List.not_mem_nil

/-- Between steps only the sequences and the stable parts of their requests matter. -/
theorem idle (A : Alone env logits tokenize p e) (hp : p.toFinish = [])
    (hact : e'.activeSequences = e.activeSequences)
    (hstable : ∀ k q, e.activeSequences.get? k = some q → ∀ {β : Type} (g : ScheduledRequest → β),
      RequestScheduler.Stable g → g (e'.request q.request) = g (e.request q.request)) :
    Alone env logits tokenize .idle e' := by
  refine ⟨fun k q hq hf => ?_, fun k q hq hf => ?_, fun _ _ h => absurd h List.not_mem_nil⟩
  · have := (A.finished k q (hact ▸ hq) hf).1
    rw [hp] at this
    exact absurd this List.not_mem_nil
  · have hs : ∀ {β : Type} (g : ScheduledRequest → β), RequestScheduler.Stable g →
        g (e'.request q.request) = g (e.request q.request) := hstable k q (hact ▸ hq)
    rw [soloOf_congr hs, hs _ RequestScheduler.stable_maxTokens,
      solo_congr (hs _ RequestScheduler.stable_temperature) (hs _ RequestScheduler.stable_topK)
        (hs _ RequestScheduler.stable_topP)]
    exact A.unfinished k q (hact ▸ hq) hf

end Alone

/-- What holds inside a step that began in `e`, after the changes `as`: the finished sequences have
    the tokens of their solo runs, and the requests completed meanwhile are theirs. -/
structure Along (env : Env) (logits : List ℕ → List Logit) (tokenize : String → List ℕ)
    (acc : List Ref) (e : Engine) (as : List Action) (c : Point × Engine) : Prop where
  batch : Batch acc c.1 c.2
  tokenized : Tokenized env c.1 c.2
  greedy : AllGreedy acc c.2
  alone : (∀ err, c.1 ≠ .ended (some err)) → Alone env logits tokenize c.1 c.2
  finished : ∀ q ∈ Action.finished as, q.request ∈ acc ∧
    soloOf env logits tokenize (c.2.request q.request) = some q.generatedIds
  completed : ∀ r ∈ acc, c.2.scheduler.statusOf r = .COMPLETED →
    e.scheduler.statusOf r = .COMPLETED ∨
      ∃ q ∈ Action.finished as, q.request = r ∧ Delivered env c.2 q

namespace Along

variable {as : List Action} {c c' : Point × Engine} {a : Action}

/-- The requests completed by a change are those of the sequence it finishes. -/
theorem completed_snoc (H : Along env logits tokenize acc e as c) (hm : Micro env c a c') (r : Ref)
    (hr : r ∈ acc) (hst : c'.2.scheduler.statusOf r = .COMPLETED) :
    e.scheduler.statusOf r = .COMPLETED ∨
      ∃ q ∈ Action.finished (as ++ [a]), q.request = r ∧ Delivered env c'.2 q := by
  rw [Action.finished_append]
  rcases H.batch.status_cases hm r with hsame | ⟨-, hr'⟩ | ⟨-, hr', -⟩ | ⟨hf, -⟩ | ⟨-, q, rfl, rfl⟩
  · have hc := hsame.symm.trans hst
    refine (H.completed r hr hc).imp id ?_
    rintro ⟨q, hq, rfl, D⟩
    have hfrozen := (H.batch.frozen hm (by rw [hc]; rfl) (H.batch.out_of_completed hc)).1
    exact ⟨q, List.mem_append_left _ hq, rfl, D.congr hfrozen⟩
  · cases hst.symm.trans hr'
  · cases hst.symm.trans hr'
  · cases hst.symm.trans hf
  · refine Or.inr ⟨q, List.mem_append_right _ List.mem_cons_self, rfl, ?_⟩
    cases hm with
    | finish hf =>
      obtain ⟨-, -, -, ⟨-, D, -⟩ | ⟨hc, hs⟩⟩ := H.batch.finish_cases hf
      · exact D
      · have hst' := (congrArg (fun s => s.statusOf q.request) hs).symm.trans hst
        cases hst'.symm.trans hc

theorem snoc (H : Along env logits tokenize acc e as c) (C : Causal env logits tokenize text)
    (hm : Micro env c a c') : Along env logits tokenize acc e (as ++ [a]) c' := by
  have A := H.alone fun err => hm.not_ended _
  have hstable : ∀ x {β : Type} (g : ScheduledRequest → β), RequestScheduler.Stable g →
      g (c'.2.request x) = g (c.2.request x) := fun x _ g hg => hm.stable g hg x
  refine ⟨H.batch.micro hm, H.tokenized.micro hm, fun r hr => ?_,
    A.micro C H.greedy H.batch H.tokenized hm, fun q hq => ?_, H.completed_snoc hm⟩
  · have hg := H.greedy r hr
    rw [Sampling.isGreedy, Sampling.temp] at hg ⊢
    rw [hstable r _ RequestScheduler.stable_temperature,
      hstable r _ RequestScheduler.stable_maxTokens]
    exact hg
  · rw [soloOf_congr (hstable q.request)]
    rw [Action.finished_append] at hq
    rcases List.mem_append.mp hq with hq | hq
    · exact H.finished q hq
    · cases hm with
      | finish hf =>
        cases List.mem_singleton.mp hq
        obtain ⟨hacc, hget, -, -⟩ := H.batch.finish_cases hf
        have hfin := A.toFinish _ q List.mem_cons_self hget
        exact ⟨hacc, (A.finished _ q hget hfin).2⟩
      | _ => exact absurd hq List.not_mem_nil

theorem run (C : Causal env logits tokenize text) (A : Alone env logits tokenize .idle e)
    (G : AllGreedy acc e) (B : Batch acc .idle e) (T : Tokenized env .idle e)
    (h : Trace.Run (Micro env) (.idle, e) as c) : Along env logits tokenize acc e as c := by
  refine h.invariant (I := fun as c => Along env logits tokenize acc e as c) ?_ ?_
  · exact ⟨B, T, G, fun _ => A, fun _ h => absurd h List.not_mem_nil, fun _ _ h => Or.inl h⟩
  · intro as c a c' _ H hm
    exact H.snoc C hm

end Along

/-! ### Runs -/

variable {maxBatchSize maxQueueSize : ℤ} {defaultTimeout : ℚ} {policy : SchedulingPolicy}
  {numBlocks blockSize : ℕ} {evs : List Event}

/-- After a run every returned sequence has the tokens of its solo run, and every completed request
    has been returned. -/
structure Matched (env : Env) (logits : List ℕ → List Logit) (tokenize : String → List ℕ)
    (evs : List Event) (e : Engine) : Prop where
  alone : Alone env logits tokenize .idle e
  returned : ∀ q ∈ returned evs, q.request ∈ accepted evs ∧
    soloOf env logits tokenize (e.request q.request) = some q.generatedIds
  completed : ∀ r ∈ accepted evs, e.scheduler.statusOf r = .COMPLETED →
    ∃ q ∈ Engine.returned evs, q.request = r ∧ Delivered env e q

/-- An event that returns nothing and completes nothing. -/
theorem Matched.quiet {ev : Event} (M : Matched env logits tokenize evs e) (hrun : Trace.Run (Step env)
      (new maxBatchSize maxQueueSize defaultTimeout policy numBlocks blockSize) evs e)
    (hst : Step env e ev e') (hret : Engine.returned [ev] = [])
    (hact : e'.activeSequences = e.activeSequences)
    (hcomp : ∀ r ∈ accepted (evs ++ [ev]), e'.scheduler.statusOf r = .COMPLETED →
      r ∈ accepted evs ∧ e.scheduler.statusOf r = .COMPLETED) :
    Matched env logits tokenize (evs ++ [ev]) e' := by
  have B := batch_of_run hrun
  have hreturned : Engine.returned (evs ++ [ev]) = Engine.returned evs := by
    rw [returned_append, hret, List.append_nil]
  refine ⟨M.alone.idle rfl hact fun k q hq => stable_of_step hrun hst (B.active k q hq).1, ?_, ?_⟩
  · intro q hq
    rw [hreturned] at hq
    obtain ⟨hacc, hs⟩ := M.returned q hq
    rw [soloOf_congr (stable_of_step hrun hst hacc), accepted_append]
    exact ⟨List.mem_append_left _ hacc, hs⟩
  · intro r hr hst'
    obtain ⟨hacc, hc⟩ := hcomp r hr hst'
    obtain ⟨q, hq, rfl, D⟩ := M.completed r hacc hc
    exact ⟨q, hreturned ▸ hq, rfl, D.congr (completed_step B hst hacc hc)⟩

theorem Matched.step {ev : Event} (M : Matched env logits tokenize evs e)
    (C : Causal env logits tokenize text) (G : AllGreedy (accepted evs) e)
    (hrun : Trace.Run (Step env)
      (new maxBatchSize maxQueueSize defaultTimeout policy numBlocks blockSize) evs e)
    (hst : Step env e ev e') (hquiet : ∀ err, ev ≠ .step (.error err)) :
    Matched env logits tokenize (evs ++ [ev]) e' := by
  have B := batch_of_run hrun
  cases ev with
  | submitRequest r req b =>
    obtain ⟨hf, rfl, heq⟩ := id hst
    have A := RequestScheduler.submitNew_added e.scheduler req
    obtain ⟨rfl, rfl⟩ := Prod.mk.inj heq
    refine M.quiet hrun hst rfl rfl fun r hr hc => ?_
    rw [accepted_append, accepted_submitRequest] at hr
    rcases List.mem_append.mp hr with hr | hr
    · exact ⟨hr, (A.statusOf_old (B.ledger.lt_next r hr)).symm.trans hc⟩
    · rw [RequestScheduler.eq_of_mem_queued hr] at hc
      cases (A.statusOf_next.trans hf.status).symm.trans hc
  | cancelRequest k b =>
    have hacc : accepted (evs ++ [Event.cancelRequest k b]) = accepted evs := by
      rw [accepted_append]; exact List.append_nil _
    obtain rfl : (e.cancelRequest env k).2 = e' := congrArg Prod.snd hst
    refine M.quiet hrun hst rfl rfl fun r hr hc => ⟨hacc ▸ hr, ?_⟩
    rcases B.cancelRequest_cases env k with ⟨heq, -⟩ | ⟨x, -, -, -, -, -, hcan, T, -⟩
    · rwa [heq] at hc
    · have hne : r ≠ x := fun h => by
        subst h
        cases hc.symm.trans hcan
      exact (T.status hne).symm.trans hc
  | step res =>
    cases res with
    | error err => exact absurd rfl (hquiet err)
    | ok done =>
      obtain ⟨qs, ⟨as, hmicro, hqs⟩, hdone⟩ := step_leads hst
      have H := Along.run C M.alone G B (tokenized_of_run hrun) hmicro
      have hfin : Action.finished as = Engine.returned [.step (.ok done)] := by
        rw [hqs, hdone done rfl]
        exact (List.append_nil done).symm
      have hacc : accepted (evs ++ [Event.step (.ok done)]) = accepted evs := by
        rw [accepted_append]; exact List.append_nil _
      refine ⟨(H.alone fun err h => by cases h).idle rfl rfl fun _ _ _ _ _ _ => rfl, ?_, ?_⟩
      · intro q hq
        rw [returned_append] at hq
        rw [hacc]
        rcases List.mem_append.mp hq with hq | hq
        · obtain ⟨hacc', hs⟩ := M.returned q hq
          rw [soloOf_congr (stable_of_step hrun hst hacc')]
          exact ⟨hacc', hs⟩
        · exact H.finished q (hfin.symm ▸ hq)
      · intro r hr hc
        rw [hacc] at hr
        rw [returned_append]
        rcases H.completed r hr hc with hc' | ⟨q, hq, rfl, D⟩
        · obtain ⟨q, hq, rfl, D⟩ := M.completed r hr hc'
          exact ⟨q, List.mem_append_left _ hq, rfl, D.congr (completed_step B hst hr hc')⟩
        · exact ⟨q, List.mem_append_right _ (hfin ▸ hq), rfl, D⟩

theorem matched_of_run (C : Causal env logits tokenize text) (hrun : Trace.Run (Step env)
      (new maxBatchSize maxQueueSize defaultTimeout policy numBlocks blockSize) evs e)
    (hgreedy : ∀ r req, .submitRequest r req true ∈ evs →
      Sampling.isGreedy req = true ∧ 1 ≤ req.maxTokens) (hquiet : Quiet evs) :
    Matched env logits tokenize evs e := by
  have hinv : (∀ r req, .submitRequest r req true ∈ evs →
      Sampling.isGreedy req = true ∧ 1 ≤ req.maxTokens) → Quiet evs →
      Matched env logits tokenize evs e := by
    refine hrun.invariant (I := fun evs e => (∀ r req, .submitRequest r req true ∈ evs →
      Sampling.isGreedy req = true ∧ 1 ≤ req.maxTokens) → Quiet evs →
      Matched env logits tokenize evs e) (fun _ _ => ?_) ?_
    · exact ⟨⟨fun _ _ h => (nomatch h), fun _ _ h => (nomatch h), fun _ _ _ h => (nomatch h)⟩,
        fun _ h => absurd h List.not_mem_nil, fun _ h => absurd h List.not_mem_nil⟩
    · intro evs e ev e' hr hi hst hgreedy hquiet
      have hleft : ∀ x ∈ evs, x ∈ evs ++ [ev] := fun _ => List.mem_append_left _
      refine (hi (fun r req h => hgreedy r req (hleft _ h)) fun err h => hquiet err (hleft _ h)).step
        C (fun r hacc => ?_) hr hst fun err heq =>
          hquiet err (List.mem_append_right _ (heq ▸ List.mem_cons_self))
      obtain ⟨req, hmem⟩ := mem_accepted.mp hacc
      have hg := hgreedy r req (hleft _ hmem)
      rw [Sampling.isGreedy, Sampling.temp] at hg ⊢
      rw [(submitted_of_run hr hmem _ RequestScheduler.stable_temperature).1,
        (submitted_of_run hr hmem _ RequestScheduler.stable_maxTokens).1]
      exact hg
  exact hinv hgreedy hquiet

/-- CORRECT: with a causal, row-wise model, greedy requests that may generate a token, and nothing that
    raises, after any run each completed request has been returned with the tokens that decoding its
    own prompt alone gives, and carries their number and their text. -/
theorem batching_transparent (C : Causal env logits tokenize text) (hrun : Trace.Run (Step env)
      (new maxBatchSize maxQueueSize defaultTimeout policy numBlocks blockSize) evs e)
    (hgreedy : ∀ r req, .submitRequest r req true ∈ evs →
      req.temperature < 1 / 100 ∧ 1 ≤ req.maxTokens) (hquiet : Quiet evs) :
    (∀ q ∈ returned evs, ∃ req, .submitRequest q.request req true ∈ evs ∧
      solo env logits req req.maxTokens (tokenize req.prompt) = some q.generatedIds) ∧
    ∀ r req, .submitRequest r req true ∈ evs → e.scheduler.statusOf r = .COMPLETED →
      ∃ q ∈ returned evs, q.request = r ∧
        solo env logits req req.maxTokens (tokenize req.prompt) = some q.generatedIds ∧
        (e.request r).generatedTokens = q.generatedIds.length ∧
        (e.request r).outputText = text q.generatedIds := by
  have M := matched_of_run C hrun (fun r req hmem =>
    (hgreedy r req hmem).imp Sampling.isGreedy_iff.mpr id) hquiet
  have hsolo : ∀ r req, .submitRequest r req true ∈ evs →
      soloOf env logits tokenize (e.request r) = soloOf env logits tokenize req :=
    fun r req hmem => soloOf_congr fun g hg => (submitted_of_run hrun hmem g hg).1
  refine ⟨fun q hq => ?_, fun r req hmem hc => ?_⟩
  · obtain ⟨hacc, hs⟩ := M.returned q hq
    obtain ⟨req, hmem⟩ := mem_accepted.mp hacc
    exact ⟨req, hmem, (hsolo _ req hmem).symm.trans hs⟩
  · obtain ⟨q, hq, rfl, D⟩ := M.completed r (mem_accepted.mpr ⟨req, hmem⟩) hc
    obtain ⟨i, hi⟩ := D.outputText
    rw [C.decode, Option.some.injEq] at hi
    exact ⟨q, hq, rfl, (hsolo _ req hmem).symm.trans (M.returned q hq).2, D.generatedTokens, hi.symm⟩

/-- A batch of two: the longer prompt ends at once, the shorter one goes on alone until its own EOS. -/
theorem batching_transparent_two :
    let logits : List ℕ → List Logit :=
      fun ids => if ids.length < 4 then [.negInf, .fin 0] else [.fin 0, .negInf]
    let tokenize : String → List ℕ := fun prompt => (2 :: prompt.toList.map Char.toNat).take 1024
    let text : List ℕ → String := fun ids => String.ofList (ids.map Char.ofNat)
    let env := { Env.rowwise logits with
      tokenizer := fun _ prompt n => some ((2 :: prompt.toList.map Char.toNat).take n) }
    let a : ScheduledRequest :=
      { requestId := "a", prompt := "x", maxTokens := 8, temperature := 0, createdAt := 0 }
    let e₁ := ((new 2 8 60 .fcfs 8 2).submitRequest a).2
    let e₂ := (e₁.submitRequest { a with requestId := "b", prompt := "yyy" }).2
    let e := (((e₂.step env).2.step env).2.step env).2
    (e₂.step env).2.activeSequences.keys = ["a"] ∧ ∃ q : SequenceState, q.request = 0 ∧
      solo env logits a 8 (tokenize "x") = some q.generatedIds ∧
      (e.request 0).outputText = text q.generatedIds := by
  intro logits tokenize text env a e₁ e₂ e
  have C : Causal env logits tokenize text :=
    ⟨fun _ _ => rfl, fun _ _ => rfl, fun prompt => by simp [tokenize], fun _ _ => rfl⟩
  have hrun := Trace.Run.snoc (.snoc (.snoc (.snoc (.snoc .nil
    (step_submitRequest env (new 2 8 60 .fcfs 8 2) a
      ⟨rfl, fun r hr => absurd hr (Nat.not_lt_zero r)⟩))
    (step_submitRequest env e₁ { a with requestId := "b", prompt := "yyy" }
      ⟨rfl, by decide +kernel⟩))
    (step_step env e₂)) (step_step env (e₂.step env).2)) (step_step env ((e₂.step env).2.step env).2)
  have hok : ∀ err, (e₂.step env).1 ≠ .error err ∧ ((e₂.step env).2.step env).1 ≠ .error err ∧
      (((e₂.step env).2.step env).2.step env).1 ≠ .error err := by
    have h : (e₂.step env).1.isOk ∧ ((e₂.step env).2.step env).1.isOk ∧
      (((e₂.step env).2.step env).2.step env).1.isOk := by decide +kernel
    refine fun err => ⟨fun heq => ?_, fun heq => ?_, fun heq => ?_⟩ <;> rw [heq] at h
    · cases h.1
    · cases h.2.1
    · cases h.2.2
  have h := (batching_transparent C hrun (fun r req h => ?_) fun err h => ?_).2 0 a ?_
    (by decide +kernel)
  · obtain ⟨q, -, hq, hs, -, ht⟩ := h
    exact ⟨by decide +kernel, q, hq, hs, ht⟩
  · simp only [List.nil_append, List.cons_append, List.mem_cons, Event.submitRequest.injEq,
      reduceCtorEq, List.not_mem_nil, or_false] at h
    rcases h with ⟨-, rfl, -⟩ | ⟨-, rfl, -⟩ <;> decide +kernel
  · simp only [List.nil_append, List.cons_append, List.mem_cons, Event.step.injEq, reduceCtorEq,
      List.not_mem_nil, or_false, false_or] at h
    rcases h with h | h | h
    · exact (hok err).1 h.symm
    · exact (hok err).2.1 h.symm
    · exact (hok err).2.2 h.symm
  · simp only [List.nil_append, List.cons_append, List.mem_cons]
    exact Or.inl rfl

end Engine

end ModelServing
