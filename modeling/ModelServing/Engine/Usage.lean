import ModelServing.Engine.Cancellation
import ModelServing.Engine.Draws

/-! The token counts that a request is answered with. Its prompt tokens are counted when it is
    tokenized, its generated tokens when it completes; in between it may wait, be batched with others,
    be cancelled while it runs. A returned request's counts are those of the sequence it was returned
    for, and nothing that happens later changes them. -/

namespace ModelServing

namespace Engine

variable {env : Env} {e e' : Engine} {acc : List Ref} {p p' : Point} {r : Ref} {k : String}
  {q : SequenceState}

/-- The prompt tokens of the request are those that the sequence did not generate. -/
def Accounted (e : Engine) (q : SequenceState) : Prop :=
  (e.request q.request).promptTokens + q.generatedIds.length = q.inputIds.length

theorem Accounted.congr (A : Accounted e q)
    (h : (e'.request q.request).promptTokens = (e.request q.request).promptTokens) :
    Accounted e' q := by
  rwa [Accounted, h]

/-- While a sequence stays in the batch, a step leaves its request alone. -/
theorem Batch.request_active {a : Action} (B : Batch acc p e) (h : Micro env (p, e) a (p', e'))
    {q q' : SequenceState} (hq : e.activeSequences.get? k = some q)
    (hq' : e'.activeSequences.get? k = some q') : e'.request q.request = e.request q.request := by
  have hother : ∀ {id : String} {text : String} {n : ℕ}, k ≠ id →
      (e.scheduler.completeRequest env.clock id text n).request q.request =
        e.scheduler.request q.request := fun {id text n} hne => by
    rcases B.ledger.completeRequest_cases B.counted env.clock id text n with
      ⟨-, heq⟩ | ⟨x, hx, -, -, -, hframe, -⟩
    · rw [heq]
    · refine hframe _ fun heq => hne ?_
      rw [← (B.active k q hq).2.1, heq, (B.ledger.running id x hx).2.1]
  cases h with
  | full _ | rest _ | done | place _ | raiseTokenizer _ | raiseEvict _ | raiseModel _ _ => rfl
  | select _ _ =>
    exact (RequestScheduler.getNextBatch_selected B.ledger B.counted _ _).touches.frame _
      (B.not_pending hq)
  | tokenize _ =>
    exact (RequestScheduler.touches_promptTokens _ _ _).frame _
      (B.todo_ne_active List.mem_cons_self hq)
  | evict _ _ =>
    rcases dropEvicted_cases env (e.withCache _) _ with ⟨heq, -⟩ | ⟨x, -, hx, heq⟩
    · rw [heq]; rfl
    · rw [heq] at hq' ⊢
      obtain ⟨hne, -⟩ := OrderedDict.mem_keys_erase.mp (OrderedDict.mem_keys_of_get? hq')
      exact (RequestScheduler.touches_fail _ _ _ _).frame _ fun heq => hne (B.key_eq hx hq heq)
  | reject _ =>
    exact (RequestScheduler.touches_fail _ _ _ _).frame _ (B.todo_ne_active List.mem_cons_self hq)
  | append _ _ hs => rw [request, (appendAll_appended hs).scheduler]; rfl
  | raiseSampler _ _ hs => obtain rfl := (Prod.mk.inj hs).2; rfl
  | finish hf | raiseFinish hf =>
    rcases Engine.finish_cases hf with ⟨-, -, rfl⟩ | ⟨x, hx, ⟨-, -, rfl⟩ | ⟨text, -, -, rfl⟩⟩
    · rfl
    · rfl
    · exact hother (OrderedDict.mem_keys_erase.mp (OrderedDict.mem_keys_of_get? hq')).1

/-- The batch is accounted for, and so is a request that waits for its blocks. -/
structure Counting (p : Point) (e : Engine) : Prop where
  active : ∀ k q, e.activeSequences.get? k = some q → Accounted e q
  placing : ∀ r ids rs, p = .placing r ids rs → (e.request r).promptTokens = ids.length

theorem Counting.micro {a : Action} (C : Counting p e) (B : Batch acc p e)
    (h : Micro env (p, e) a (p', e')) : Counting p' e' := by
  constructor
  · intro k q' hq'
    cases h.origin hq' with
    | kept hq =>
      exact (C.active k q' hq).congr (congrArg ScheduledRequest.promptTokens (B.request_active h hq hq'))
    | @admitted _ _ r rs ids _ _ =>
      cases h with
      | place _ => exact C.placing r ids rs rfl
      | reject _ =>
        have hkeys := (B.todo r List.mem_cons_self).2.2
        exact absurd (OrderedDict.mem_keys_of_get? hq') hkeys
    | @grown _ _ _ q _ _ _ t _ hent _ =>
      have hq := OrderedDict.get?_eq_some_iff.mpr (List.mem_of_getElem? hent)
      have hcount := (C.active k q hq).congr
        (congrArg ScheduledRequest.promptTokens (B.request_active h hq hq'))
      simp only [Accounted, SequenceState.append_request, SequenceState.append_generatedIds,
        SequenceState.append_inputIds, List.length_append] at hcount ⊢
      omega
  · rintro r ids rs rfl
    cases h with
    | tokenize _ =>
      have hself := ObjectHeap.get_modify_self e.scheduler.requests r
        fun q => { q with promptTokens := ids.length }
      exact congrArg ScheduledRequest.promptTokens hself
    | evict _ _ =>
      have hplacing := C.placing r ids rs rfl
      rcases dropEvicted_cases env (e.withCache _) _ with ⟨heq, -⟩ | ⟨x, -, hx, heq⟩ <;> rw [heq]
      · exact hplacing
      · have hne : r ≠ x.request := (B.todo_ne_active List.mem_cons_self hx).symm
        have hframe := (RequestScheduler.touches_fail env.clock "Evicted due to memory pressure"
          e.scheduler x.request).frame r hne
        exact (congrArg ScheduledRequest.promptTokens hframe).trans hplacing

/-- A request keeps its count when its sequence finishes. -/
theorem Batch.accounted_finish {id : String} {ids : List String}
    (B : Batch acc (.finishing (id :: ids)) e) (hf : e.finish env id = (.ok q, e'))
    (C : Counting (.finishing (id :: ids)) e) : Accounted e' q := by
  obtain ⟨hq, text, -, rfl⟩ := finish_ok hf
  refine (C.active id q hq).congr ?_
  rcases B.ledger.completeRequest_cases B.counted env.clock id text q.generatedIds.length with
    ⟨-, heq⟩ | ⟨x, hx, -, -, hreq, -, -⟩
  · exact congrArg (fun s => (RequestScheduler.request s q.request).promptTokens) heq
  · have hxq : x = q.request := B.eq_of_id (B.ledger.running id x hx).1 (B.active id q hq).1
      ((B.ledger.running id x hx).2.1.trans (B.active id q hq).2.1.symm)
    subst hxq
    have hcount := congrArg ScheduledRequest.promptTokens hreq
    exact hcount

/-- A settled sequence and its request's counts stay as they are. -/
theorem Settled.accounted {a : Action} (S : Settled env e q) (A : Accounted e q) (B : Batch acc p e)
    (h : Micro env (p, e) a (p', e')) : Settled env e' q ∧ Accounted e' q := by
  have hend : (e.scheduler.statusOf q.request).terminal = true := by
    rcases S.outcome with D | hc
    · rw [D.status]; rfl
    · rw [hc]; rfl
  exact ⟨S.micro B h, A.congr (congrArg ScheduledRequest.promptTokens (B.frozen h hend S.out).1)⟩

/-- A step keeps the accounts, and adds those of the sequences it finishes. -/
theorem Counting.run {c c' : Point × Engine} {as : List Action} {qs : List SequenceState}
    (C : Counting c.1 c.2) (B : Batch acc c.1 c.2) (h : Trace.Run (Micro env) c as c')
    (hqs : ∀ q ∈ qs, Settled env c.2 q ∧ Accounted c.2 q) :
    Counting c'.1 c'.2 ∧ ∀ q ∈ qs ++ Action.finished as, Settled env c'.2 q ∧ Accounted c'.2 q := by
  have hinv := h.invariant (I := fun as c' => Batch acc c'.1 c'.2 ∧ Counting c'.1 c'.2 ∧
    ∀ q ∈ qs ++ Action.finished as, Settled env c'.2 q ∧ Accounted c'.2 q)
    ⟨B, C, by simpa [Action.finished] using hqs⟩ ?_
  · exact hinv.2
  rintro as ⟨p, e⟩ a ⟨p', e'⟩ - ⟨B, C, hdone⟩ hm
  refine ⟨B.micro hm, C.micro B hm, fun q hq => ?_⟩
  rw [Action.finished_append, ← List.append_assoc] at hq
  rcases List.mem_append.mp hq with hq | hq
  · exact (hdone q hq).1.accounted (hdone q hq).2 B hm
  · cases hm with
    | finish hf =>
      cases List.mem_singleton.mp hq
      exact ⟨(B.settled hf).2, B.accounted_finish hf C⟩
    | _ => exact absurd hq List.not_mem_nil

/-! ### Runs -/

variable {maxBatchSize maxQueueSize : ℤ} {defaultTimeout : ℚ} {policy : SchedulingPolicy}
  {numBlocks blockSize : ℕ} {evs : List Event}

/-- Nobody but the engine counts tokens. -/
theorem promptTokens_cancel (env : Env) (e : Engine) (k : String) (x : Ref) :
    ((e.cancelRequest env k).2.request x).promptTokens = (e.request x).promptTokens := by
  have hcall : ∀ r, ((e.scheduler.call env.clock r .cancel).request x).promptTokens =
      (e.request x).promptTokens := fun r =>
    ObjectHeap.map_get_modify ScheduledRequest.promptTokens e.scheduler.requests r x
      (f := ScheduledRequest.cancel (env.clock e.scheduler.ticks)) fun _ => rfl
  simp only [cancelRequest, RequestScheduler.cancelRequest, request]
  split
  · exact hcall _
  · split
    · exact hcall _
    · rfl

theorem counting_of_run (hrun : Trace.Run (Step env)
    (new maxBatchSize maxQueueSize defaultTimeout policy numBlocks blockSize) evs e) :
    Counting .idle e ∧ ∀ q ∈ returned evs, Accounted e q := by
  refine hrun.invariant (I := fun evs e => Counting .idle e ∧ ∀ q ∈ returned evs, Accounted e q)
    ⟨⟨fun _ _ h => (by cases h), fun _ _ _ h => (by cases h)⟩, fun _ h => absurd h List.not_mem_nil⟩ ?_
  rintro evs e ev e' hr ⟨C, hret⟩ hst
  have B := batch_of_run hr
  have hsettled := settled_of_run hr
  have hbetween : (∀ q : SequenceState, q.request ∈ accepted evs →
      (e'.request q.request).promptTokens = (e.request q.request).promptTokens) →
      e'.activeSequences = e.activeSequences → returned [ev] = [] →
      Counting .idle e' ∧ ∀ q ∈ returned (evs ++ [ev]), Accounted e' q := fun hsame hact hnil => by
    refine ⟨⟨fun k q hq => ?_, fun _ _ _ h => by cases h⟩, fun q hq => ?_⟩
    · rw [hact] at hq
      exact (C.active k q hq).congr (hsame q (B.active k q hq).1)
    · rw [returned_append, hnil, List.append_nil] at hq
      exact (hret q hq).congr (hsame q (hsettled q hq).1)
  cases ev with
  | submitRequest r req b =>
    obtain ⟨-, -, heq⟩ := hst
    have A := RequestScheduler.submitNew_added e.scheduler req
    obtain ⟨rfl, rfl⟩ := Prod.mk.inj heq
    exact hbetween (fun q hacc => congrArg ScheduledRequest.promptTokens
      (A.old _ (B.ledger.lt_next _ hacc))) rfl (by simp [returned])
  | cancelRequest k b =>
    obtain rfl : (e.cancelRequest env k).2 = e' := congrArg Prod.snd hst
    exact hbetween (fun q _ => promptTokens_cancel env e k q.request) rfl (by simp [returned])
  | step res =>
    obtain ⟨qs, ⟨as, hmicro, hqs⟩, hdone⟩ := step_leads hst
    obtain ⟨C', hdone'⟩ := C.run B hmicro fun q hq => ⟨(hsettled q hq).2, hret q hq⟩
    refine ⟨⟨C'.active, fun _ _ _ h => by cases h⟩, fun q hq => ?_⟩
    rw [returned_append] at hq
    refine (hdone' q (List.mem_append.mpr ((List.mem_append.mp hq).imp id fun hq => ?_))).2
    cases res with
    | error err => exact absurd hq List.not_mem_nil
    | ok done =>
      rw [hqs, hdone done rfl]
      simpa [returned] using hq

/-- A returned sequence has at least one token, and no more than its request allows. -/
theorem Sampled.bounds {may : Choice} {req : ScheduledRequest} (S : Sampled env may req q)
    (hpos : 1 ≤ req.maxTokens) :
    1 ≤ q.generatedIds.length ∧ q.generatedIds.length ≤ req.maxTokens := by
  obtain ⟨hreason, i, ids, -, -, hdrawn⟩ := S
  refine ⟨List.length_pos_iff.mpr fun hnil => ?_, (hdrawn hpos).length_le⟩
  rw [hnil] at hreason
  cases hreason

/-- The counts a client is answered with are exact: a completed request carries the number of ids the
    tokenizer gave for its prompt, the number of tokens generated after them, which its `max_tokens`
    bounds, and the text that decodes them. -/
theorem usage_exact (hrun : Trace.Run (Step env)
      (new maxBatchSize maxQueueSize defaultTimeout policy numBlocks blockSize) evs e)
    (hdec : Decoded evs) :
    ∀ q ∈ returned evs, e.scheduler.statusOf q.request = .COMPLETED →
      ∃ i j ids, env.tokenizer i (e.request q.request).prompt 1024 = some ids ∧
        q.inputIds = ids ++ q.generatedIds ∧
        (e.request q.request).promptTokens = ids.length ∧
        (e.request q.request).generatedTokens = q.generatedIds.length ∧
        env.decode j q.generatedIds true = some (e.request q.request).outputText ∧
        (1 ≤ (e.request q.request).maxTokens → 1 ≤ q.generatedIds.length ∧
          q.generatedIds.length ≤ (e.request q.request).maxTokens) := by
  intro q hq hst
  have hany : Rule env (InProgress env fun _ _ _ => True) (Sampled env fun _ _ _ => True) :=
    sampling_rule (by constructor <;> intros <;> rfl) fun _ _ _ _ _ => trivial
  obtain ⟨req, hsub, S⟩ := (hany.of_calls (calls_of_run hrun) hdec).2 q hq
  have hprompt := (submitted_of_run hrun hsub _ RequestScheduler.stable_prompt).1
  have hmax := (submitted_of_run hrun hsub _ RequestScheduler.stable_maxTokens).1
  have hcount := (counting_of_run hrun).2 q hq
  obtain ⟨hgen, j, htext⟩ : (e.request q.request).generatedTokens = q.generatedIds.length ∧
      ∃ j, env.decode j q.generatedIds true = some (e.request q.request).outputText := by
    rcases (settled_of_run hrun q hq).2.outcome with D | hc
    · exact ⟨D.generatedTokens, D.outputText⟩
    · cases hc.symm.trans hst
  obtain ⟨-, i, ids, hids, hin, -⟩ := id S
  refine ⟨i, j, ids, hprompt.symm ▸ hids, hin, ?_, hgen, htext, fun hpos => ?_⟩
  · rw [Accounted, hin, List.length_append] at hcount
    omega
  · rw [hmax] at hpos ⊢
    exact S.bounds hpos

/-- A prompt of two characters and an EOS at once, counted while another request waits. -/
theorem usage_exact_eos :
    let env := Env.rowwise fun _ => [.fin 0]
    let a : ScheduledRequest := { requestId := "a", prompt := "pq", temperature := 0, createdAt := 0 }
    let e₁ := ((new 1 8 60 .fcfs 4 2).submitRequest a).2
    let e₂ := (e₁.submitRequest { a with requestId := "b" }).2
    let q : SequenceState :=
      { request := 0, inputIds := [112, 113, 0], generatedIds := [0], isFinished := true,
        finishReason := "eos" }
    (e₂.step env).1 = .ok [q] ∧ ∃ ids : List ℕ,
      q.inputIds = ids ++ q.generatedIds ∧ ((e₂.step env).2.request 0).promptTokens = ids.length := by
  intro env a e₁ e₂ q
  have hrun := Trace.Run.snoc (.snoc (.snoc .nil
    (step_submitRequest env (new 1 8 60 .fcfs 4 2) a
      ⟨rfl, fun r hr => absurd hr (Nat.not_lt_zero r)⟩))
    (step_submitRequest env e₁ { a with requestId := "b" } ⟨rfl, by decide +kernel⟩))
    (step_step env e₂)
  have hres : (e₂.step env).1 = .ok [q] := by decide +kernel
  obtain ⟨i, j, ids, -, hin, hcount, -⟩ := usage_exact hrun (by rw [hres]; simp [Decoded]) q
    (by rw [returned_append, hres]; simp [returned]) (by decide +kernel)
  exact ⟨hres, ids, hin, hcount⟩

end Engine

end ModelServing
