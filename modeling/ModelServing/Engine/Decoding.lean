import ModelServing.Engine.Growth
import ModelServing.Engine.Transparency
import ModelServing.Lib.Autoregressive

/-! The batching engine is a greedy decoder. With a causal, row-wise model, whatever ids are used, what
    else is in the batch and what raises in between: the tokens of a returned sequence are the closed
    decoding of its own prompt, and its finish reason says what closed it. -/

namespace ModelServing

namespace Engine

open Autoregressive

/-- The token that greedy decoding puts after a text. -/
def next (env : Env) (logits : List ℕ → List Logit) (req : ScheduledRequest) (ids : List ℕ) : Option ℕ :=
  Sampling.greedyToken env.torch req (logits ids)

def Stops (env : Env) (t : ℕ) : Prop := some t = env.eosTokenId

instance (env : Env) : DecidablePred (Stops env) := fun _ => inferInstanceAs (Decidable (_ = _))

/-- Why a decoding with the last token `t` has ended. -/
def endReason (env : Env) (t : ℕ) : String := if some t = env.eosTokenId then "eos" else "length"

/-- A greedy request that may generate a token, and whose prompt has one. -/
def Decodes (tokenize : String → List ℕ) (req : ScheduledRequest) : Prop :=
  Sampling.isGreedy req = true ∧ 1 ≤ req.maxTokens ∧ tokenize req.prompt ≠ []

/-- `out` is all that decoding `text` gives, and `reason` why it ends. -/
structure Complete (env : Env) (next : List ℕ → Option ℕ) (n : ℕ) (text out : List ℕ)
    (reason : String) : Prop where
  closed : Closed next (Stops env) n text out
  reason : out.getLast?.map (endReason env) = some reason

variable {env : Env} {e e' : Engine} {p p' : Point} {q : SequenceState} {req : ScheduledRequest}
  {logits : List ℕ → List Logit} {tokenize : String → List ℕ} {out out' : List ℕ}
  {reason reason' : String}

/-- Two decoders that complete one text agree. -/
theorem Complete.unique {next : List ℕ → Option ℕ} {n : ℕ} {text : List ℕ}
    (h : Complete env next n text out reason) (h' : Complete env next n text out' reason') :
    out = out' ∧ reason = reason' := by
  obtain rfl := h.closed.unique h'.closed
  exact ⟨rfl, Option.some.inj (h.reason.symm.trans h'.reason)⟩

/-- A sequence that may go on. -/
def Opened (env : Env) (logits : List ℕ → List Logit) (tokenize : String → List ℕ)
    (q : SequenceState) (req : ScheduledRequest) : Prop :=
  Decodes tokenize req → q.isFinished = false ∧
    Open (next env logits req) (Stops env) req.maxTokens (tokenize req.prompt) q.generatedIds

/-- A sequence that is complete. -/
def Completed (env : Env) (logits : List ℕ → List Logit) (tokenize : String → List ℕ)
    (q : SequenceState) (req : ScheduledRequest) : Prop :=
  Decodes tokenize req → Complete env (next env logits req) req.maxTokens (tokenize req.prompt)
    q.generatedIds q.finishReason

theorem stable_opened (q : SequenceState) :
    RequestScheduler.Stable fun req => Opened env logits tokenize q req := by
  constructor <;> intros <;> rfl

theorem stable_completed (q : SequenceState) :
    RequestScheduler.Stable fun req => Completed env logits tokenize q req := by
  constructor <;> intros <;> rfl

/-- One more token, drawn from the sequence's own logits. -/
theorem Opened.append {t : ℕ} (O : Opened env logits tokenize q req)
    (hin : q.inputIds = tokenize req.prompt ++ q.generatedIds)
    (ht : Decodes tokenize req → next env logits req q.inputIds = some t) :
    let q' := q.append env.eosTokenId req.maxTokens t
    (q'.isFinished = true → Completed env logits tokenize q' req) ∧
      (q'.isFinished = false → Opened env logits tokenize q' req) := by
  intro q'
  have hfin := SequenceState.append_isFinished env.eosTokenId req.maxTokens t q
  have hgen : q'.generatedIds = q.generatedIds ++ [t] := SequenceState.append_generatedIds ..
  refine ⟨fun hf hd => ?_, fun hf hd => ⟨hf, ?_⟩⟩
  · obtain ⟨hq, hopen⟩ := O hd
    have hend := (hfin.mp hf).resolve_left (by rw [hq]; exact Bool.false_ne_true)
    refine ⟨hgen ▸ hopen.close (hin ▸ ht hd) hend, ?_⟩
    rw [hgen, List.getLast?_concat, SequenceState.append_finishReason _ _ _ _ hf hq]
    rfl
  · obtain ⟨-, hopen⟩ := O hd
    have hnot := mt hfin.mpr (by rw [show q'.isFinished = false from hf]; exact Bool.false_ne_true)
    simp only [not_or, not_le] at hnot
    exact hgen ▸ hopen.grow (hin ▸ ht hd) hnot.2.1 hnot.2.2

/-! ### Inside a step -/

/-- What is known of the sequences of the batch. -/
structure Decoding (env : Env) (logits : List ℕ → List Logit) (tokenize : String → List ℕ) (p : Point)
    (e : Engine) : Prop where
  staying : ∀ k q, e.activeSequences.get? k = some q → k ∉ p.toFinish →
    Opened env logits tokenize q (e.request q.request)
  leaving : ∀ k q, e.activeSequences.get? k = some q → k ∈ p.toFinish →
    Completed env logits tokenize q (e.request q.request)

/-- What is assumed outside: the logits at a position depend on the tokens up to there in the same row
    and on nothing else, and the tokenizer and the decoder are functions that answer. -/
structure Answers (env : Env) (logits : List ℕ → List Logit) (tokenize : String → List ℕ) : Prop where
  model : ∀ i batch, env.model i batch =
    some (batch.map fun row => (List.range row.length).map fun p => logits (row.take (p + 1)))
  tokenizer : ∀ i prompt, env.tokenizer i prompt 1024 = some (tokenize prompt)
  decode : ∀ i ids skip, env.decode i ids skip ≠ none

theorem Answers.micro_ne {c : Point × Engine} {a : Action} (S : Answers env logits tokenize)
    (h : Micro env c a (p', e')) : p' ≠ .ended (some .decode) := by
  rintro rfl
  cases h with
  | raiseSampler _ _ hs => cases sampleTokens_error hs
  | raiseFinish hf =>
    rcases finish_error hf with ⟨-, herr, -⟩ | ⟨q, -, hnone, -, -⟩
    · cases herr
    · exact S.decode _ _ _ hnone

/-- A sequence that gets a token was open and gets its own next one. -/
theorem Decoding.drawn (D : Decoding env logits tokenize (.admitting []) e)
    (S : Answers env logits tokenize) (T : Tokenized env (.admitting []) e) {k : String}
    {out : List (List (List Logit))} {j c t : ℕ}
    (hm : env.model e.calls (e.prepareBatchInputs env) = some out)
    (hent : e.activeSequences.entries[j]? = some (k, q))
    (ht : (sampleToken env (e.request q.request) (lastLogits out j q.inputIds.length) c).1 = .ok t) :
    let q' := q.append env.eosTokenId (e.request q.request).maxTokens t
    (q'.isFinished = true → Completed env logits tokenize q' (e.request q.request)) ∧
      (q'.isFinished = false → Opened env logits tokenize q' (e.request q.request)) := by
  have hq := OrderedDict.get?_eq_some_iff.mpr (List.mem_of_getElem? hent)
  obtain ⟨i, ids, hi, hin⟩ := T.active k q hq
  obtain rfl : tokenize (e.request q.request).prompt = ids :=
    Option.some.inj ((S.tokenizer _ _).symm.trans hi)
  refine (D.staying k q hq List.not_mem_nil).append hin fun hd => ?_
  have hne : q.inputIds ≠ [] := by
    rw [hin]
    exact List.append_ne_nil_of_left_ne_nil hd.2.2 _
  rw [lastLogits_rowwise S.model hm hent hne] at ht
  exact sampleToken_greedy hd.1 ht

theorem Decoding.micro {a : Action} (D : Decoding env logits tokenize p e)
    (S : Answers env logits tokenize) (T : Tokenized env p e) (N : Leaving p e)
    (h : Micro env (p, e) a (p', e')) : Decoding env logits tokenize p' e' := by
  constructor
  · intro k q' hq' hk
    refine (h.stable _ (stable_opened q') _).mpr ?_
    cases h.origin hq' with
    | kept hq =>
      exact D.staying k q' hq (N.stays h (S.micro_ne h) (OrderedDict.mem_keys_of_get? hq') hk)
    | admitted _ => exact fun hd => ⟨rfl, .nil hd.2.1⟩
    | grown hm hent ht =>
      have hf := mt (fun hf => mem_finishedIds.mpr ⟨_, hq', hf⟩) hk
      rw [SequenceState.append_request]
      exact (D.drawn S T hm hent ht).2 (Bool.not_eq_true _ ▸ hf)
  · intro k q' hq' hk
    refine (h.stable _ (stable_completed q') _).mpr ?_
    cases h.origin hq' with
    | kept hq =>
      cases h with
      | append _ _ _ =>
        -- what is finished now was not before
        obtain ⟨x, hx, hf⟩ := mem_finishedIds.mp hk
        cases hq'.symm.trans hx
        intro hd
        cases hf.symm.trans (D.staying k q' hq List.not_mem_nil hd).1
      | finish _ => exact D.leaving k q' hq (List.mem_cons_of_mem _ hk)
      | _ => exact absurd hk List.not_mem_nil
    | admitted _ => exact absurd hk List.not_mem_nil
    | grown hm hent ht =>
      obtain ⟨x, hx, hf⟩ := mem_finishedIds.mp hk
      cases hq'.symm.trans hx
      rw [SequenceState.append_request]
      exact (D.drawn S T hm hent ht).1 hf

/-- What holds inside a step that began in `e`, after the changes `as`. -/
structure Underway (env : Env) (logits : List ℕ → List Logit) (tokenize : String → List ℕ) (e : Engine)
    (as : List Action) (c : Point × Engine) : Prop where
  tokenized : Tokenized env c.1 c.2
  leaving : Leaving c.1 c.2
  decoding : Decoding env logits tokenize c.1 c.2
  finished : ∀ q ∈ Action.finished as, Holds .idle e q.request ∧
    Completed env logits tokenize q (e.request q.request)

theorem Underway.snoc {as : List Action} {a : Action} {c c' : Point × Engine}
    (U : Underway env logits tokenize e as c) (S : Answers env logits tokenize)
    (hrun : Trace.Run (Micro env) (.idle, e) as c) (hm : Micro env c a c') :
    Underway env logits tokenize e (as ++ [a]) c' := by
  refine ⟨U.tokenized.micro hm, U.leaving.micro hm, U.decoding.micro S U.tokenized U.leaving hm, ?_⟩
  intro q hq
  rw [Action.finished_append] at hq
  rcases List.mem_append.mp hq with hq | hq
  · exact U.finished q hq
  · obtain ⟨hheld, -, hstable⟩ := Micro.run_frame hrun
    cases hm with
    | @finish x x' id ids q' hf =>
      obtain rfl := List.mem_singleton.mp hq
      obtain ⟨hget, -⟩ := finish_ok hf
      exact ⟨hheld _ (.of_active hget), (hstable _ (stable_completed q) _).mp
        (U.decoding.leaving id q hget List.mem_cons_self)⟩
    | _ => exact absurd hq List.not_mem_nil

/-! ### Runs -/

variable {maxBatchSize maxQueueSize : ℤ} {defaultTimeout : ℚ} {policy : SchedulingPolicy}
  {numBlocks blockSize : ℕ} {evs : List Event}

theorem Decoding.idle (D : Decoding env logits tokenize p e) (hp : p.toFinish = [])
    (hact : e'.activeSequences = e.activeSequences)
    (hsame : ∀ k q, e.activeSequences.get? k = some q → Opened env logits tokenize q
      (e'.request q.request) = Opened env logits tokenize q (e.request q.request)) :
    Decoding env logits tokenize .idle e' := by
  refine ⟨fun k q hq _ => ?_, fun _ _ _ h => absurd h List.not_mem_nil⟩
  rw [hact] at hq
  rw [hsame k q hq]
  exact D.staying k q hq (hp ▸ List.not_mem_nil)

/-- Every returned sequence is complete for the request it was submitted with. -/
theorem completed_of_calls (S : Answers env logits tokenize) (hrun : Trace.Run (Call env)
      (new maxBatchSize maxQueueSize defaultTimeout policy numBlocks blockSize) evs e) :
    Decoding env logits tokenize .idle e ∧ ∀ q ∈ returned evs, ∃ req,
      .submitRequest q.request req true ∈ evs ∧ Completed env logits tokenize q req := by
  refine hrun.invariant (I := fun evs e => Decoding env logits tokenize .idle e ∧
    ∀ q ∈ returned evs, ∃ req, .submitRequest q.request req true ∈ evs ∧
      Completed env logits tokenize q req) ?_ ?_
  · exact ⟨⟨fun _ _ h => (nomatch h), fun _ _ h => (nomatch h)⟩, fun _ h => absurd h List.not_mem_nil⟩
  · rintro evs e ev e' hr ⟨D, hret⟩ hst
    have hold : ∀ q ∈ returned evs, ∃ req, .submitRequest q.request req true ∈ evs ++ [ev] ∧
        Completed env logits tokenize q req := fun q hq =>
      (hret q hq).imp fun req h => ⟨List.mem_append_left _ h.1, h.2⟩
    rw [returned_append]
    by_cases hev : ∃ res, ev = .step res
    · obtain ⟨res, rfl⟩ := hev
      obtain ⟨qs, ⟨as, hmicro, hqs⟩, hdone⟩ := step_leads hst
      have U₀ : Underway env logits tokenize e [] (.idle, e) :=
        ⟨tokenized_of_calls hr, ⟨List.nodup_nil, fun _ h => absurd h List.not_mem_nil⟩, D,
          fun _ h => absurd h List.not_mem_nil⟩
      have U := hmicro.invariant (I := fun as c => Underway env logits tokenize e as c) U₀
        fun as c a c' hrun U hm => U.snoc S hrun hm
      refine ⟨U.decoding.idle (by cases res <;> rfl) rfl fun _ _ _ => rfl, fun q hq => ?_⟩
      rcases List.mem_append.mp hq with hq | hq
      · exact hold q hq
      · cases res with
        | error err => exact absurd hq List.not_mem_nil
        | ok done =>
          have hfin : q ∈ Action.finished as := by
            rw [hqs, hdone done rfl]
            simpa [returned] using hq
          obtain ⟨hheld, hc⟩ := U.finished q hfin
          obtain ⟨req, hmem, -, hstable⟩ := held_submitted hr hheld
          exact ⟨req, List.mem_append_left _ hmem, (hstable _ (stable_completed q)).mp hc⟩
    · obtain ⟨hact, hstable⟩ := call_frame hr hst (not_exists.mp hev)
      refine ⟨D.idle rfl hact fun k q hq => hstable _ (stable_opened q) k q hq, fun q hq => hold q ?_⟩
      cases ev with
      | step res => exact absurd ⟨res, rfl⟩ hev
      | submitRequest _ _ _ | cancelRequest _ _ => simpa [returned] using hq

/-- A returned sequence is complete for any request it was submitted with. -/
theorem complete_of_calls (S : Answers env logits tokenize) (hrun : Trace.Run (Call env)
      (new maxBatchSize maxQueueSize defaultTimeout policy numBlocks blockSize) evs e)
    (hq : q ∈ returned evs) (hsub : .submitRequest q.request req true ∈ evs)
    (hd : Decodes tokenize req) :
    Complete env (next env logits req) req.maxTokens (tokenize req.prompt) q.generatedIds
      q.finishReason := by
  obtain ⟨req', hsub', hc⟩ := (completed_of_calls S hrun).2 q hq
  have hsame : Completed env logits tokenize q req :=
    ((submitted_of_calls hrun hsub _ (stable_completed q)).1.symm.trans
      (submitted_of_calls hrun hsub' _ (stable_completed q)).1).mpr hc
  exact hsame hd

end Engine

end ModelServing
