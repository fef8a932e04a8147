import ModelServing.Engine.Batch

/-! Cancelling while a request runs. The scheduler marks the request, but the engine does not look at
    the mark: the sequence stays in the batch, generates on, and is returned as cancelled in the end.
    Without such a cancellation every returned request is completed, with its output. -/

namespace ModelServing

namespace Engine

variable {env : Env} {e e' : Engine} {acc : List Ref} {p p' : Point} {r : Ref}

/-- The outcome of a finished sequence stands on its request. -/
structure Delivered (env : Env) (e : Engine) (q : SequenceState) : Prop where
  status : e.scheduler.statusOf q.request = .COMPLETED
  generatedTokens : (e.request q.request).generatedTokens = q.generatedIds.length
  outputText : ∃ i, env.decode i q.generatedIds true = some (e.request q.request).outputText

theorem Delivered.congr {q : SequenceState} (D : Delivered env e q)
    (h : e'.request q.request = e.request q.request) : Delivered env e' q := by
  refine ⟨?_, h ▸ D.generatedTokens, h ▸ D.outputText⟩
  exact (congrArg ScheduledRequest.status h).trans D.status

/-- A sequence that finishes delivers its outcome, unless its request was cancelled; then nothing
    changes for the scheduler. -/
theorem Batch.finish_cases {id : String} {ids : List String} {q : SequenceState}
    (B : Batch acc (.finishing (id :: ids)) e) (hf : e.finish env id = (.ok q, e')) :
    q.request ∈ acc ∧ e.activeSequences.get? id = some q ∧
    e'.totalRequests = e.totalRequests + 1 ∧
    ((e.scheduler.statusOf q.request = .RUNNING ∧ Delivered env e' q ∧
        e'.scheduler.totalCompleted = e.scheduler.totalCompleted + 1) ∨
      (e.scheduler.statusOf q.request = .CANCELLED ∧ e'.scheduler = e.scheduler)) := by
  rcases Engine.finish_cases hf with ⟨-, hres, -⟩ | ⟨q', hq, ⟨-, hres, -⟩ | ⟨text, hd, hres, rfl⟩⟩ <;>
    cases hres
  obtain ⟨hacc, hid, hst⟩ := B.active id q hq
  refine ⟨hacc, hq, rfl, ?_⟩
  rcases B.ledger.completeRequest_cases B.counted env.clock id text q.generatedIds.length with
    ⟨hnone, heq⟩ | ⟨x, hx, -, -, hreq, -, htotal, -⟩
  · refine Or.inr ⟨hst.resolve_left fun h => ?_, heq⟩
    have := B.ledger.running_of_status hacc h
    rw [hid, hnone] at this
    cases this
  · obtain ⟨hacc', hid', hst'⟩ := B.ledger.running id x hx
    obtain rfl : x = q.request := B.eq_of_id hacc' hacc (hid'.trans hid.symm)
    refine Or.inl ⟨hst.resolve_right fun h => ?_, ⟨?_, ?_, e.calls, ?_⟩, htotal⟩
    · rcases hst' with h' | h' <;> cases h.symm.trans h'
    · exact congrArg ScheduledRequest.status hreq
    · exact congrArg ScheduledRequest.generatedTokens hreq
    · exact hd.trans (congrArg some (congrArg ScheduledRequest.outputText hreq).symm)

/-- A sequence that was removed has delivered, unless its request was cancelled, and nothing changes
    that any more. -/
structure Settled (env : Env) (e : Engine) (q : SequenceState) : Prop where
  outcome : Delivered env e q ∨ e.scheduler.statusOf q.request = .CANCELLED
  out : ∀ k x, e.activeSequences.get? k = some x → x.request ≠ q.request

theorem Settled.congr {q : SequenceState} (S : Settled env e q)
    (h : e'.request q.request = e.request q.request)
    (hout : ∀ k x, e'.activeSequences.get? k = some x → x.request ≠ q.request) : Settled env e' q :=
  ⟨S.outcome.imp (fun D => D.congr h) fun hc => (congrArg ScheduledRequest.status h).trans hc, hout⟩

theorem Settled.micro {a : Action} {q : SequenceState} (S : Settled env e q) (B : Batch acc p e)
    (h : Micro env (p, e) a (p', e')) : Settled env e' q := by
  have hend : (e.scheduler.statusOf q.request).terminal = true := by
    rcases S.outcome with D | hc
    · rw [D.status]; rfl
    · rw [hc]; rfl
  obtain ⟨hsame, hout⟩ := B.frozen h hend S.out
  exact S.congr hsame hout

theorem Batch.settled {id : String} {ids : List String} {q : SequenceState}
    (B : Batch acc (.finishing (id :: ids)) e) (hf : e.finish env id = (.ok q, e')) :
    q.request ∈ acc ∧ Settled env e' q := by
  obtain ⟨hacc, hq, -, hcases⟩ := B.finish_cases hf
  refine ⟨hacc, ?_, fun k x hx heq => ?_⟩
  · rcases hcases with ⟨-, D, -⟩ | ⟨hc, hsame⟩
    · exact Or.inl D
    · exact Or.inr (hsame ▸ hc)
  · rcases Engine.finish_cases hf with ⟨-, hres, -⟩ | ⟨q', -, ⟨-, hres, -⟩ | ⟨text, -, -, rfl⟩⟩
    · cases hres
    · cases hres
    · obtain ⟨hne, -⟩ := OrderedDict.mem_keys_erase.mp (OrderedDict.mem_keys_of_get? hx)
      exact hne (B.key_eq hq ((OrderedDict.get?_erase_of_ne _ hne).symm.trans hx) heq)

/-- Inside a step a request becomes cancelled in the queue only. -/
theorem Batch.cancelled_before {a : Action} (B : Batch acc p e) (h : Micro env (p, e) a (p', e'))
    (hp : r ∉ e.scheduler.pending) (hst : e'.scheduler.statusOf r = .CANCELLED) :
    e.scheduler.statusOf r = .CANCELLED := by
  rcases B.status_cases h r with hsame | ⟨hp', -⟩ | ⟨ht, -⟩ | ⟨hf, -⟩ | ⟨hc, -⟩
  · exact hsame.symm.trans hst
  · exact absurd hp' hp
  · exact absurd ((RequestScheduler.timedOut_sublist env.clock e.scheduler).subset ht) hp
  · cases hst.symm.trans hf
  · cases hst.symm.trans hc

/-- Nobody in the batch has been cancelled, and the engine and the scheduler count alike. -/
structure Uncancelled (e : Engine) : Prop where
  running : ∀ k q, e.activeSequences.get? k = some q → e.scheduler.statusOf q.request = .RUNNING
  tally : e.totalRequests = e.scheduler.totalCompleted

theorem Uncancelled.micro {a : Action} (U : Uncancelled e) (B : Batch acc p e)
    (h : Micro env (p, e) a (p', e')) : Uncancelled e' := by
  constructor
  · intro k q' hq'
    refine ((B.micro h).active k q' hq').2.2.resolve_right fun hc => ?_
    cases h.origin hq' with
    | kept hq =>
      cases (U.running k q' hq).symm.trans (B.cancelled_before h (B.not_pending hq) hc)
    | admitted _ =>
      have hr := B.todo _ List.mem_cons_self
      cases hr.2.1.symm.trans (B.cancelled_before h (B.todo_not_pending List.mem_cons_self) hc)
    | @grown _ _ _ q _ _ _ _ _ hent _ =>
      have hq := OrderedDict.get?_eq_some_iff.mpr (List.mem_of_getElem? hent)
      rw [SequenceState.append_request] at hc
      cases (U.running k q hq).symm.trans (B.cancelled_before h (B.not_pending hq) hc)
  · cases h with
    | full _ | rest _ | done | place _ | raiseTokenizer _ | raiseEvict _ | raiseModel _ _
    | tokenize _ | reject _ => exact U.tally
    | select _ _ =>
      have S := RequestScheduler.getNextBatch_selected B.ledger B.counted env.clock
      exact U.tally.trans (S _).touches.totalCompleted.symm
    | evict _ _ =>
      rcases dropEvicted_cases env (e.withCache _) _ with ⟨heq, -⟩ | ⟨q, -, -, heq⟩ <;>
        rw [heq] <;> exact U.tally
    | append _ _ hs =>
      have A := appendAll_appended hs
      rw [A.totalRequests, A.scheduler]
      exact U.tally
    | raiseSampler _ _ hs =>
      obtain rfl := (Prod.mk.inj hs).2
      exact U.tally
    | finish hf =>
      obtain ⟨-, hq, htotal, ⟨-, -, hcomp⟩ | ⟨hc, -⟩⟩ := B.finish_cases hf
      · rw [htotal, hcomp, U.tally]
      · cases (U.running _ _ hq).symm.trans hc
    | raiseFinish hf =>
      rcases Engine.finish_cases hf with ⟨-, -, rfl⟩ | ⟨q, -, ⟨-, -, rfl⟩ | ⟨text, -, hres, -⟩⟩
      · exact U.tally
      · exact U.tally
      · cases hres

/-- Whatever a step has finished by some point is delivered at that point. -/
theorem Uncancelled.run {c c' : Point × Engine} {as : List Action} (U : Uncancelled c.2)
    (B : Batch acc c.1 c.2) (h : Trace.Run (Micro env) c as c') :
    Batch acc c'.1 c'.2 ∧ Uncancelled c'.2 ∧
      ∀ q ∈ Action.finished as, q.request ∈ acc ∧ Delivered env c'.2 q := by
  refine h.invariant (I := fun as c' => Batch acc c'.1 c'.2 ∧ Uncancelled c'.2 ∧
    ∀ q ∈ Action.finished as, q.request ∈ acc ∧ Delivered env c'.2 q)
    ⟨B, U, fun _ h => absurd h List.not_mem_nil⟩ ?_
  rintro as ⟨p, e⟩ a ⟨p', e'⟩ - ⟨B, U, hdone⟩ hm
  refine ⟨B.micro hm, U.micro B hm, fun q hq => ?_⟩
  rw [Action.finished_append] at hq
  rcases List.mem_append.mp hq with hq | hq
  · obtain ⟨hacc, D⟩ := hdone q hq
    have hsame := (B.frozen hm (by rw [D.status]; rfl) (B.out_of_completed D.status)).1
    exact ⟨hacc, D.congr hsame⟩
  · cases hm with
    | finish hf =>
      cases List.mem_singleton.mp hq
      obtain ⟨hacc, hget, -, ⟨-, D, -⟩ | ⟨hc, -⟩⟩ := B.finish_cases hf
      · exact ⟨hacc, D⟩
      · cases (U.running _ _ hget).symm.trans hc
    | _ => exact absurd hq List.not_mem_nil

/-! ### Runs -/

variable {maxBatchSize maxQueueSize : ℤ} {defaultTimeout : ℚ} {policy : SchedulingPolicy}
  {numBlocks blockSize : ℕ} {evs : List Event}

/-- A call that does not cancel a request of the batch. -/
def Undisturbed (env : Env) (e : Engine) (ev : Event) (e' : Engine) : Prop :=
  Step env e ev e' ∧ ∀ k, ev = .cancelRequest k true → k ∉ e.activeSequences.keys

theorem Uncancelled.submit (U : Uncancelled e) (B : Batch acc .idle e) (req : ScheduledRequest) :
    Uncancelled (e.submitRequest req).2 := by
  have A := RequestScheduler.submitNew_added e.scheduler req
  refine ⟨fun k q hq => ?_, U.tally.trans A.rest.2.2.1.symm⟩
  exact (A.statusOf_old (B.ledger.lt_next _ (B.active k q hq).1)).trans (U.running k q hq)

/-- Nothing a caller does between two steps undoes a delivery. -/
theorem Uncancelled.step {ev : Event} (U : Uncancelled e) (B : Batch (accepted evs) .idle e)
    (hst : Undisturbed env e ev e')
    (hdone : ∀ q ∈ returned evs, q.request ∈ accepted evs ∧ Delivered env e q) :
    Uncancelled e' ∧ ∀ q ∈ returned (evs ++ [ev]), q.request ∈ accepted (evs ++ [ev]) ∧
      Delivered env e' q := by
  have hold : ∀ q ∈ returned evs, q.request ∈ accepted (evs ++ [ev]) ∧ Delivered env e' q := by
    intro q hq
    obtain ⟨hacc, D⟩ := hdone q hq
    rw [accepted_append]
    exact ⟨List.mem_append_left _ hacc, D.congr (completed_step B hst.1 hacc D.status)⟩
  rw [returned_append]
  cases ev with
  | submitRequest r req b =>
    obtain ⟨-, -, heq⟩ := hst.1
    refine ⟨?_, fun q hq => hold q (by simpa [returned] using hq)⟩
    obtain ⟨rfl, rfl⟩ := Prod.mk.inj heq
    exact U.submit B req
  | cancelRequest k b =>
    refine ⟨?_, fun q hq => hold q (by simpa [returned] using hq)⟩
    obtain ⟨hst, hnot⟩ := hst
    obtain rfl : (e.cancelRequest env k).2 = e' := congrArg Prod.snd hst
    rcases B.cancelRequest_cases env k with ⟨heq, -⟩ | ⟨x, -, -, hid, htrue, -, -, T, -⟩
    · rw [heq]; exact U
    · have hb : b = true := (congrArg Prod.fst hst).symm.trans htrue
      refine ⟨fun k' q hq => ?_, U.tally.trans T.totalCompleted.symm⟩
      refine (T.status fun hx => hnot k (hb ▸ rfl) ?_).trans (U.running k' q hq)
      rw [← hid, ← hx, (B.active k' q hq).2.1]
      exact OrderedDict.mem_keys_of_get? hq
  | step res =>
    obtain ⟨qs, ⟨as, hrun, hqs⟩, hres⟩ := step_leads hst.1
    obtain ⟨-, U', hnew⟩ := U.run B hrun
    refine ⟨U', fun q hq => (List.mem_append.mp hq).elim (hold q) fun hq => ?_⟩
    cases res with
    | error err => exact absurd hq List.not_mem_nil
    | ok done =>
      have hq : q ∈ Action.finished as := by
        rw [hqs, hres done rfl]
        simpa [returned] using hq
      rw [accepted_append]
      exact ⟨List.mem_append_left _ (hnew q hq).1, (hnew q hq).2⟩

/-- Whatever is cancelled and whatever raises, a returned sequence is settled. -/
theorem settled_of_run (hrun : Trace.Run (Step env)
    (new maxBatchSize maxQueueSize defaultTimeout policy numBlocks blockSize) evs e) :
    ∀ q ∈ returned evs, q.request ∈ accepted evs ∧ Settled env e q := by
  refine hrun.invariant (I := fun evs e => ∀ q ∈ returned evs, q.request ∈ accepted evs ∧
    Settled env e q) (fun _ h => absurd h List.not_mem_nil) ?_
  intro evs e ev e' hr hi hst q hq
  have B := batch_of_run hr
  rw [accepted_append]
  rw [returned_append] at hq
  cases ev with
  | submitRequest r req b =>
    obtain ⟨hacc, S⟩ := hi q (by simpa [returned] using hq)
    obtain ⟨-, -, heq⟩ := hst
    have A := RequestScheduler.submitNew_added e.scheduler req
    obtain ⟨rfl, rfl⟩ := Prod.mk.inj heq
    exact ⟨List.mem_append_left _ hacc, S.congr (A.old _ (B.ledger.lt_next _ hacc)) S.out⟩
  | cancelRequest k b =>
    obtain ⟨hacc, S⟩ := hi q (by simpa [returned] using hq)
    obtain rfl : (e.cancelRequest env k).2 = e' := congrArg Prod.snd hst
    refine ⟨List.mem_append_left _ hacc, ?_⟩
    rcases B.cancelRequest_cases env k with ⟨heq, -⟩ | ⟨r, hr, -, -, -, -, -, T, -⟩
    · exact heq ▸ S
    · refine S.congr (T.frame _ fun heq => ?_) S.out
      -- what can be cancelled waits, runs or has failed
      have hlive : e.scheduler.statusOf r = .PENDING ∨ e.scheduler.statusOf r = .RUNNING ∨
          e.scheduler.statusOf r = .FAILED :=
        hr.imp (fun h => (B.ledger.pending r h).2) fun h => (B.ledger.running k r h).2.2
      subst heq
      rcases S.outcome with D | hc
      · rcases hlive with h | h | h <;> cases D.status.symm.trans h
      · rcases hlive with h | h | h <;> cases hc.symm.trans h
  | step res =>
    obtain ⟨qs, ⟨as, hmicro, hqs⟩, hdone⟩ := step_leads hst
    have hend := hmicro.invariant (I := fun as c => Batch (accepted evs) c.1 c.2 ∧
      ∀ q ∈ returned evs ++ Action.finished as, q.request ∈ accepted evs ∧ Settled env c.2 q)
      ⟨B, by simpa [Action.finished] using hi⟩ ?_
    · refine (hend.2 q ?_).imp_left (List.mem_append_left _)
      refine List.mem_append.mpr ((List.mem_append.mp hq).imp_right fun hq => ?_)
      cases res with
      | error err => exact absurd hq List.not_mem_nil
      | ok done =>
        rw [hqs, hdone done rfl]
        simpa [returned] using hq
    · rintro as ⟨p, e⟩ a ⟨p', e'⟩ - ⟨B, hi⟩ hm
      refine ⟨B.micro hm, fun q hq => ?_⟩
      rw [Action.finished_append, ← List.append_assoc] at hq
      rcases List.mem_append.mp hq with hq | hq
      · exact ⟨(hi q hq).1, (hi q hq).2.micro B hm⟩
      · cases hm with
        | finish hf =>
          cases List.mem_singleton.mp hq
          exact B.settled hf
        | _ => exact absurd hq List.not_mem_nil

/-- CORRECT: in every run that cancels no request while it is in the batch, whatever raises, every
    request a step has returned is completed, with its text and its number of tokens set, and the
    engine has counted as many requests as the scheduler has completed. -/
theorem returned_completed (hrun : Trace.Run (Undisturbed env)
    (new maxBatchSize maxQueueSize defaultTimeout policy numBlocks blockSize) evs e) :
    (∀ q ∈ returned evs, e.scheduler.statusOf q.request = .COMPLETED ∧
      (e.request q.request).generatedTokens = q.generatedIds.length ∧
      ∃ i, env.decode i q.generatedIds true = some (e.request q.request).outputText) ∧
    e.totalRequests = e.scheduler.totalCompleted := by
  have h : Uncancelled e ∧
      ∀ q ∈ returned evs, q.request ∈ accepted evs ∧ Delivered env e q := by
    refine hrun.invariant (I := fun evs e => Uncancelled e ∧
      ∀ q ∈ returned evs, q.request ∈ accepted evs ∧ Delivered env e q) ?_ ?_
    · exact ⟨⟨fun _ _ h => (nomatch h), rfl⟩, fun _ h => absurd h List.not_mem_nil⟩
    · rintro evs e ev e' hr ⟨U, hdone⟩ hst
      exact U.step (batch_of_run (hr.mono fun _ _ _ h => h.1)) hst hdone
  exact ⟨fun q hq => ⟨(h.2 q hq).2.status, (h.2 q hq).2.generatedTokens, (h.2 q hq).2.outputText⟩,
    h.1.tally⟩

/-- Cancelled after it has been returned: the request stays completed. -/
theorem returned_completed_cancelled_late :
    let env := Env.rowwise fun _ => [.negInf, .fin 0]
    let req : ScheduledRequest :=
      { requestId := "a", prompt := "p", maxTokens := 1, temperature := 0, createdAt := 0 }
    let e := (((new 1 8 60 .fcfs 4 2).submitRequest req).2.step env).2
    (e.cancelRequest env "a").2.scheduler.statusOf 0 = .COMPLETED := by
  intro env req e
  have h₀ := step_submitRequest env (new 1 8 60 .fcfs 4 2) req
    ⟨rfl, fun r hr => absurd hr (Nat.not_lt_zero r)⟩
  have h₁ := step_step env ((new 1 8 60 .fcfs 4 2).submitRequest req).2
  have h₂ : Step env e (.cancelRequest "a" false) (e.cancelRequest env "a").2 :=
    Prod.ext (by decide +kernel) rfl
  have hrun : Trace.Run (Undisturbed env) (new 1 8 60 .fcfs 4 2) _ (e.cancelRequest env "a").2 :=
    .snoc (.snoc (.snoc .nil ⟨h₀, fun k h => by cases h⟩) ⟨h₁, fun k h => by cases h⟩)
      ⟨h₂, fun k h => by cases h⟩
  refine ((returned_completed hrun).1
    { request := 0, inputIds := [112, 1], generatedIds := [1], isFinished := true,
      finishReason := "length" } ?_).1
  have hok : (((new 1 8 60 .fcfs 4 2).submitRequest req).2.step env).1 = .ok
      [{ request := 0, inputIds := [112, 1], generatedIds := [1], isFinished := true,
         finishReason := "length" }] := by decide +kernel
  simp [returned, hok]

/-- A running request is cancelled: it generates two more tokens and is returned as cancelled, and
    the counts differ. -/
theorem cancelled_runs_on :
    let env := Env.rowwise fun _ => [.negInf, .fin 0]
    let req : ScheduledRequest :=
      { requestId := "a", prompt := "p", maxTokens := 3, temperature := 0, createdAt := 0 }
    let e := (((new 1 8 60 .fcfs 4 2).submitRequest req).2.step env).2
    let e₁ := (e.cancelRequest env "a").2
    let e₂ := (e₁.step env).2
    let e₃ := (e₂.step env).2
    let q : SequenceState :=
      { request := 0, inputIds := [112, 1, 1, 1], generatedIds := [1, 1, 1], isFinished := true,
        finishReason := "length" }
    Trace.Run (Step env) (new 1 8 60 .fcfs 4 2) [.submitRequest 0 req true, .step (.ok []),
      .cancelRequest "a" true, .step (.ok []), .step (.ok [q])] e₃ ∧
    e.activeSequences.keys = ["a"] ∧ e₂.activeSequences.keys = ["a"] ∧
    e₃.scheduler.statusOf 0 = .CANCELLED ∧ e₃.totalRequests = 1 ∧
    e₃.scheduler.totalCompleted = 0 := by
  intro env req e e₁ e₂ e₃ q
  have h₀ : Step env (new 1 8 60 .fcfs 4 2) (.submitRequest 0 req true)
      ((new 1 8 60 .fcfs 4 2).submitRequest req).2 :=
    ⟨⟨rfl, fun r hr => absurd hr (Nat.not_lt_zero r)⟩, rfl, rfl⟩
  have h₁ : Step env ((new 1 8 60 .fcfs 4 2).submitRequest req).2 (.step (.ok [])) e :=
    Prod.ext (by decide +kernel) rfl
  have h₂ : Step env e (.cancelRequest "a" true) e₁ := Prod.ext (by decide +kernel) rfl
  have h₃ : Step env e₁ (.step (.ok [])) e₂ := Prod.ext (by decide +kernel) rfl
  have h₄ : Step env e₂ (.step (.ok [q])) e₃ := Prod.ext (by decide +kernel) rfl
  exact ⟨.snoc (.snoc (.snoc (.snoc (.snoc .nil h₀) h₁) h₂) h₃) h₄, by decide +kernel,
    by decide +kernel, by decide +kernel, by decide +kernel, by decide +kernel⟩

end Engine

end ModelServing
