import ModelServing.Engine.Reporting

/-! What the scheduler counts as running. A request is entered when it is selected and taken out when
    it completes, but `fail` takes nothing out: an evicted or rejected request stays among the running
    ones for good. Until that happens the running dictionary is the batch, and it happens in the first
    step that starts without blocks for all it selects. -/

namespace ModelServing

namespace RequestScheduler

variable {clock : ℕ → ℚ} {k : String}

theorem foldl_expire_running (rs : List Ref) (s : RequestScheduler) :
    (rs.foldl (expire clock) s).running = s.running := by
  induction rs generalizing s with
  | nil => rfl
  | cons r rs ih => exact ih (s.expire clock r)

theorem foldl_startRunning_running (rs : List Ref) (s : RequestScheduler) (hk : k ∈ s.running.keys) :
    k ∈ (rs.foldl (startRunning clock) s).running.keys := by
  induction rs generalizing s with
  | nil => exact hk
  | cons r rs ih => exact ih (s.startRunning clock r) (OrderedDict.mem_keys_insert.mpr (Or.inr hk))

/-- A selection takes nobody out of the running dictionary. -/
theorem getNextBatch_running (s : RequestScheduler) (n : ℕ) (hk : k ∈ s.running.keys) :
    k ∈ (s.getNextBatch clock n).2.running.keys := by
  obtain ⟨queue, -, -, heq⟩ := getNextBatch_eq clock s n
  have h₁ : (s.enforceTimeouts clock).running = s.running := foldl_expire_running _ _
  rw [heq]
  exact foldl_startRunning_running _ _ (h₁ ▸ hk)

end RequestScheduler

namespace Engine

variable {env : Env} {e e' : Engine} {acc : List Ref} {p p' : Point} {r : Ref} {k : String}
  {numBlocks blockSize : ℕ}

/-- The running dictionary holds the requests of the batch under the ids of their sequences, and they
    are running. -/
structure RunsBatch (e : Engine) : Prop where
  same : ∀ k r, e.scheduler.running.get? k = some r ↔
    ∃ q, e.activeSequences.get? k = some q ∧ q.request = r
  status : ∀ k r, e.scheduler.running.get? k = some r → e.scheduler.statusOf r = .RUNNING
  count : e.scheduler.runningCount = e.batchSize

/-- Failed requests are still counted as running. -/
def Stuck (acc : List Ref) (e : Engine) : Prop :=
  ∀ r ∈ acc, e.scheduler.statusOf r = .FAILED → e.scheduler.running.get? (e.scheduler.idOf r) = some r

/-- Inside a step an id leaves the running dictionary when its sequence finishes. -/
theorem running_micro {a : Action} (h : Micro env (p, e) a (p', e'))
    (hk : k ∈ e.scheduler.running.keys) : k ∈ e'.scheduler.running.keys ∨
      ∃ q, a = .finish q ∧ e.activeSequences.get? k = some q := by
  cases h with
  | full _ | rest _ | done | tokenize _ | place _ | reject _ | raiseTokenizer _ | raiseEvict _
  | raiseModel _ _ => exact Or.inl hk
  | select _ _ => exact Or.inl (RequestScheduler.getNextBatch_running _ _ hk)
  | evict _ _ =>
    rcases dropEvicted_cases env (e.withCache _) _ with ⟨heq, -⟩ | ⟨q, -, -, heq⟩ <;>
      rw [heq] <;> exact Or.inl hk
  | append _ _ hs => rw [(appendAll_appended hs).scheduler]; exact Or.inl hk
  | raiseSampler _ _ hs => obtain rfl := (Prod.mk.inj hs).2; exact Or.inl hk
  | raiseFinish hf =>
    rcases finish_error hf with ⟨-, -, rfl⟩ | ⟨q, -, -, -, rfl⟩
    · exact Or.inl hk
    · exact Or.inl hk
  | @finish _ _ id _ _ hf =>
    obtain ⟨hq, text, -, rfl⟩ := finish_ok hf
    by_cases hid : k = id
    · exact Or.inr ⟨_, rfl, hid ▸ hq⟩
    · refine Or.inl ?_
      change k ∈ (RequestScheduler.completeRequest ..).running.keys
      unfold RequestScheduler.completeRequest
      split
      · exact hk
      · exact OrderedDict.mem_keys_erase.mpr ⟨hid, hk⟩

/-- Whoever fails inside a step was running. -/
theorem Uncancelled.running_of_failed {a : Action} (U : Uncancelled e) (B : Batch acc p e)
    (h : Micro env (p, e) a (p', e')) (hst : e'.scheduler.statusOf r = .FAILED) :
    e.scheduler.statusOf r = .FAILED ∨
      (e.scheduler.statusOf r = .RUNNING ∧ ∀ q, a ≠ .finish q) := by
  rcases B.status_cases h r with hsame | ⟨-, hr⟩ | ⟨-, hr, -⟩ | ⟨-, ⟨v, rfl⟩ | rfl⟩ | ⟨hr, -⟩
  · exact Or.inl (hsame.symm.trans hst)
  · cases hst.symm.trans hr
  · cases hst.symm.trans hr
  · cases h with
    | evict _ _ =>
      rcases dropEvicted_cases env (e.withCache _) v with ⟨heq, -⟩ | ⟨q, -, hq, heq⟩ <;>
        rw [heq] at hst
      · exact Or.inl hst
      · by_cases hrq : r = q.request
        · exact Or.inr ⟨hrq ▸ U.running v q hq, fun _ => Action.noConfusion⟩
        · exact Or.inl (((RequestScheduler.touches_fail _ _ _ _).status hrq).symm.trans hst)
  · cases h with
    | reject _ => exact Or.inr ⟨(B.todo r List.mem_cons_self).2.1, fun _ => Action.noConfusion⟩
  · cases hst.symm.trans hr

theorem Stuck.micro {a : Action} (S : Stuck acc e) (U : Uncancelled e) (B : Batch acc p e)
    (h : Micro env (p, e) a (p', e')) : Stuck acc e' := by
  intro r hr hst
  have hid : e'.scheduler.idOf r = e.scheduler.idOf r :=
    h.stable _ RequestScheduler.stable_requestId r
  have hkept : e.scheduler.idOf r ∈ e'.scheduler.running.keys →
      e'.scheduler.running.get? (e'.scheduler.idOf r) = some r := by
    intro hk
    rw [← hid] at hk
    obtain ⟨x, hx⟩ := OrderedDict.mem_keys_iff.mp hk
    rwa [(B.micro h).ledger.running_eq hr hx] at hx
  rcases U.running_of_failed B h hst with hf | ⟨hrun, hnot⟩
  · rcases running_micro h (OrderedDict.mem_keys_of_get? (S r hr hf)) with hk | ⟨q, -, hq⟩
    · exact hkept hk
    · -- a failed request is not in the batch
      obtain ⟨hacc, hid', -⟩ := B.active _ q hq
      obtain rfl := B.eq_of_id hacc hr hid'
      cases hf.symm.trans (U.running _ q hq)
  · have hk := OrderedDict.mem_keys_of_get? (B.ledger.running_of_status hr hrun)
    rcases running_micro h hk with hk | ⟨q, hq, -⟩
    · exact hkept hk
    · exact absurd hq (hnot q)

/-- Between steps that lose nothing, the running dictionary is the batch if nobody has failed. -/
theorem runsBatch_iff (B : Batch acc .idle e) (L : Lossless env acc .idle e) (U : Uncancelled e)
    (S : Stuck acc e) : RunsBatch e ↔ ∀ r ∈ acc, e.scheduler.statusOf r ≠ .FAILED := by
  constructor
  · intro R r hr hf
    cases hf.symm.trans (R.status _ r (S r hr hf))
  · intro hnone
    have hrunning : ∀ k r, e.scheduler.running.get? k = some r → e.scheduler.statusOf r = .RUNNING := by
      intro k r hr
      obtain ⟨hacc, -, hst⟩ := B.ledger.running k r hr
      exact hst.resolve_right (hnone r hacc)
    have hsame : ∀ k r, e.scheduler.running.get? k = some r ↔
        ∃ q, e.activeSequences.get? k = some q ∧ q.request = r := by
      intro k r
      constructor
      · intro hr
        obtain ⟨hacc, rfl, -⟩ := B.ledger.running k r hr
        obtain ⟨k', q, hq, rfl⟩ :=
          (L.running r hacc (hrunning _ r hr)).resolve_left List.not_mem_nil
        exact ⟨q, by rw [(B.active k' q hq).2.1]; exact hq, rfl⟩
      · rintro ⟨q, hq, rfl⟩
        obtain ⟨hacc, rfl, -⟩ := B.active k q hq
        exact B.ledger.running_of_status hacc (U.running _ q hq)
    refine ⟨hsame, hrunning, ?_⟩
    have hkeys : e.scheduler.running.keys.Perm e.activeSequences.keys := by
      refine (List.perm_ext_iff_of_nodup (OrderedDict.keys_nodup _) (OrderedDict.keys_nodup _)).mpr ?_
      intro k
      rw [OrderedDict.mem_keys_iff, OrderedDict.mem_keys_iff]
      constructor
      · rintro ⟨r, hr⟩
        obtain ⟨q, hq, -⟩ := (hsame k r).mp hr
        exact ⟨q, hq⟩
      · rintro ⟨q, hq⟩
        exact ⟨q.request, (hsame k _).mpr ⟨q, hq, rfl⟩⟩
    rw [RequestScheduler.runningCount, batchSize, ← OrderedDict.length_keys,
      ← OrderedDict.length_keys, hkeys.length_eq]

/-! ### Whole steps -/

/-- With room for all it selects, a step fails nobody. -/
theorem failed_of_spacious {done : List SequenceState} (B : Batch acc .idle e)
    (O : e.cacheManager.Owned) (R : Spacious env e) (h : e.step env = (.ok done, e'))
    (hst : e'.scheduler.statusOf r = .FAILED) : e.scheduler.statusOf r = .FAILED := by
  obtain ⟨qs, ⟨as, hrun, -⟩, -⟩ := step_leads h
  have hend := hrun.always (I := fun c : Point × Engine => Batch acc c.1 c.2 ∧
    c.2.cacheManager.Owned ∧ (c = (.idle, e) ∨ c.1 ≠ .idle ∧ Ample env c.1 c.2) ∧
      (c.2.scheduler.statusOf r = .FAILED → e.scheduler.statusOf r = .FAILED))
    ⟨B, O, Or.inl rfl, id⟩ ?_
  · exact hend.2.2.2 hst
  · rintro ⟨p, x⟩ a ⟨p', x'⟩ ⟨B, O, hroom, hback⟩ hm
    have hp' : p' ≠ .idle := by rintro rfl; cases hm
    have hnext : Ample env p' x' ∧ (∀ v, a ≠ .evict v) ∧ ∀ r, a ≠ .reject r := by
      rcases hroom with heq | ⟨hp, hA⟩
      · cases heq
        refine ⟨R.micro hm, ?_⟩
        cases hm <;> exact ⟨fun _ => Action.noConfusion, fun _ => Action.noConfusion⟩
      · exact ⟨hA.micro hp O hm, hA.quiet O hm⟩
    refine ⟨B.micro hm, owned_micro O hm, Or.inr ⟨hp', hnext.1⟩, fun hf => hback ?_⟩
    rcases B.status_cases hm r with hsame | ⟨-, hr⟩ | ⟨-, hr, -⟩ | ⟨-, ⟨v, hv⟩ | hv⟩ | ⟨hr, -⟩
    · exact hsame.symm.trans hf
    · cases hf.symm.trans hr
    · cases hf.symm.trans hr
    · exact absurd hv (hnext.2.1 v)
    · exact absurd hv (hnext.2.2 r)
    · cases hf.symm.trans hr

/-- Without it, somebody fails. -/
theorem failed_of_not_spacious {done : List SequenceState} (B : Batch acc .idle e)
    (S : Synced numBlocks blockSize acc e) (U : Uncancelled e) (hR : ¬ Spacious env e)
    (h : e.step env = (.ok done, e')) : ∃ r ∈ acc, e'.scheduler.statusOf r = .FAILED := by
  obtain ⟨qs, ⟨as, hrun, -⟩, -⟩ := step_leads h
  have hend := Micro.run_of (G := fun p => ∀ err, p ≠ .ended (some err))
    (I := fun c => Batch acc c.1 c.2 ∧ Synced numBlocks blockSize acc c.2 ∧ Uncancelled c.2 ∧
      (c = (.idle, e) ∨ c.1 ≠ .idle ∧
        ((∃ r ∈ acc, c.2.scheduler.statusOf r = .FAILED) ∨ Short env c.1 c.2)))
    (fun p hp err => hp _) ?_ hrun ⟨B, S, U, Or.inl rfl⟩ fun err h => by cases h
  · obtain ⟨-, -, -, hend | ⟨-, hf | hs⟩⟩ := hend
    · cases hend
    · exact hf
    · exact absurd hs (Nat.not_lt_zero _)
  · rintro ⟨p, x⟩ a ⟨p', x'⟩ ⟨B, S, U, hl⟩ hm hg
    have hp' : p' ≠ .idle := by rintro rfl; cases hm
    refine ⟨B.micro hm, S.micro B hm (hg _), U.micro B hm, Or.inr ⟨hp', ?_⟩⟩
    rcases hl with heq | ⟨hp, ⟨r, hr, hf⟩ | hs⟩
    · cases heq
      exact Or.inr (short_of_not_spacious hR hm)
    · have hlost : Lost x r := Or.inr hf
      have hsame := (B.frozen hm hlost.terminal (hlost.out U)).1
      exact Or.inl ⟨r, hr, (congrArg ScheduledRequest.status hsame).trans hf⟩
    · exact hs.micro hp B S hm hg

theorem Stuck.step {done : List SequenceState} (S : Stuck acc e) (U : Uncancelled e)
    (B : Batch acc .idle e) (h : e.step env = (.ok done, e')) :
    Stuck acc e' ∧ Uncancelled e' ∧
      ∀ r ∈ acc, e.scheduler.statusOf r = .FAILED → e'.scheduler.statusOf r = .FAILED := by
  obtain ⟨qs, ⟨as, hrun, -⟩, -⟩ := step_leads h
  have hend := hrun.always (I := fun c : Point × Engine => Batch acc c.1 c.2 ∧ Uncancelled c.2 ∧
    Stuck acc c.2 ∧
      ∀ r ∈ acc, e.scheduler.statusOf r = .FAILED → c.2.scheduler.statusOf r = .FAILED)
    ⟨B, U, S, fun _ _ => id⟩ ?_
  · exact ⟨hend.2.2.1, hend.2.1, hend.2.2.2⟩
  · rintro c a c' ⟨B, U, S, hf⟩ hm
    refine ⟨B.micro hm, U.micro B hm, S.micro U B hm, fun r hr hr' => ?_⟩
    have hlost : Lost c.2 r := Or.inr (hf r hr hr')
    have hsame := (B.frozen hm hlost.terminal (hlost.out U)).1
    exact (congrArg ScheduledRequest.status hsame).trans (hf r hr hr')

/-! ### Runs -/

variable {maxBatchSize maxQueueSize : ℤ} {defaultTimeout : ℚ} {policy : SchedulingPolicy}
  {evs : List Event}

/-- Submissions, and steps that return. -/
def Calm : Event → Prop
  | .submitRequest _ _ _ => True
  | .cancelRequest _ _ => False
  | .step res => ∃ done, res = .ok done

theorem quiet_of_calm (h : ∀ ev ∈ evs, Calm ev) : Quiet evs := fun err hmem => by
  obtain ⟨done, hd⟩ := h _ hmem
  cases hd

/-- A step begins with blocks for all it selects. -/
def Fed (env : Env) (e : Engine) (ev : Event) (e' : Engine) : Prop :=
  Step env e ev e' ∧ ∀ res, ev = .step res → Spacious env e

theorem Stuck.submit (S : Stuck acc e) (B : Batch acc .idle e) {req : ScheduledRequest}
    (hf : RequestScheduler.Fresh e.scheduler req) :
    Stuck (acc ++ e.scheduler.queued (e.submitRequest req).1) (e.submitRequest req).2 ∧
    ∀ r ∈ acc ++ e.scheduler.queued (e.submitRequest req).1,
      (e.submitRequest req).2.scheduler.statusOf r = .FAILED →
        r ∈ acc ∧ e.scheduler.statusOf r = .FAILED := by
  have A := RequestScheduler.submitNew_added e.scheduler req
  have hold : ∀ r ∈ acc ++ e.scheduler.queued (e.submitRequest req).1,
      (e.submitRequest req).2.scheduler.statusOf r = .FAILED →
        r ∈ acc ∧ e.scheduler.statusOf r = .FAILED := by
    intro r hr hst
    rcases List.mem_append.mp hr with hr | hr
    · exact ⟨hr, (A.statusOf_old (B.ledger.lt_next r hr)).symm.trans hst⟩
    · rw [RequestScheduler.eq_of_mem_queued hr] at hst
      cases (A.statusOf_next.trans hf.status).symm.trans hst
  refine ⟨fun r hr hst => ?_, hold⟩
  obtain ⟨hacc, hst⟩ := hold r hr hst
  have hid : (e.submitRequest req).2.scheduler.idOf r = e.scheduler.idOf r :=
    A.idOf_old (B.ledger.lt_next r hacc)
  have hrun : (e.submitRequest req).2.scheduler.running = e.scheduler.running := A.rest.1
  rw [hid, hrun]
  exact S r hacc hst

theorem fed_snoc {ev : Event} (hrun : Trace.Run (Step env)
      (new maxBatchSize maxQueueSize defaultTimeout policy numBlocks blockSize) evs e)
    (hst : Step env e ev e') : Trace.Run (Fed env)
      (new maxBatchSize maxQueueSize defaultTimeout policy numBlocks blockSize) (evs ++ [ev]) e' ↔
    Trace.Run (Fed env)
      (new maxBatchSize maxQueueSize defaultTimeout policy numBlocks blockSize) evs e ∧
    ∀ res, ev = .step res → Spacious env e := by
  constructor
  · intro h
    obtain ⟨m, hm, -, hfed⟩ := Trace.Run.snoc_iff.mp h
    obtain rfl := hrun.unique (step_unique env) (hm.mono fun _ _ _ h => h.1)
    exact ⟨hm, hfed⟩
  · rintro ⟨h, hfed⟩
    exact h.snoc ⟨hst, hfed⟩

/-- Nobody has failed exactly when every step has begun with room, and failed requests are stuck. -/
theorem stuck_of_run (hbs : 0 < blockSize) (hrun : Trace.Run (Step env)
      (new maxBatchSize maxQueueSize defaultTimeout policy numBlocks blockSize) evs e)
    (hname : Named evs) (hcalm : ∀ ev ∈ evs, Calm ev) :
    Uncancelled e ∧ Stuck (accepted evs) e ∧
      ((∀ r ∈ accepted evs, e.scheduler.statusOf r ≠ .FAILED) ↔ Trace.Run (Fed env)
        (new maxBatchSize maxQueueSize defaultTimeout policy numBlocks blockSize) evs e) := by
  have hres := hrun.restrict (P := fun ev => Calm ev ∧ Named [ev]) fun ev hev =>
    ⟨hcalm ev hev, fun r req b h => hname r req b (List.mem_singleton.mp h ▸ hev)⟩
  refine hres.invariant (I := fun evs e => Uncancelled e ∧ Stuck (accepted evs) e ∧
    ((∀ r ∈ accepted evs, e.scheduler.statusOf r ≠ .FAILED) ↔ Trace.Run (Fed env)
      (new maxBatchSize maxQueueSize defaultTimeout policy numBlocks blockSize) evs e)) ?_ ?_
  · exact ⟨⟨fun _ _ h => (nomatch h), rfl⟩, fun _ h => absurd h List.not_mem_nil,
      fun _ => .nil, fun _ _ h => absurd h List.not_mem_nil⟩
  · rintro evs e ev e' hr ⟨U, S, hiff⟩ ⟨hst, hev, hname⟩
    have hrun := hr.mono fun _ _ _ h => h.1
    have hall := hr.events (P := fun ev => Calm ev ∧ Named [ev]) fun _ _ _ h => h.2
    have hquiet : Quiet evs := quiet_of_calm fun ev h => (hall ev h).1
    have B := batch_of_run hrun
    have Y := synced_of_run hbs hrun (fun r req b h => (hall _ h).2 r req b List.mem_cons_self)
      hquiet.benign.decoded
    rw [accepted_append, fed_snoc hrun hst, ← hiff]
    cases ev with
    | submitRequest r req b =>
      obtain ⟨hf, rfl, heq⟩ := hst
      obtain ⟨S', hback⟩ := S.submit B hf
      have U' := U.submit B req
      have A := RequestScheduler.submitNew_added e.scheduler req
      obtain ⟨rfl, rfl⟩ := Prod.mk.inj heq
      rw [accepted_submitRequest]
      refine ⟨U', S', fun hnone => ⟨fun r hr hf => ?_, fun _ h => by cases h⟩, ?_⟩
      · exact hnone r (List.mem_append_left _ hr)
          ((A.statusOf_old (B.ledger.lt_next r hr)).trans hf)
      · rintro ⟨h, -⟩ r hr hf
        obtain ⟨hacc, hf⟩ := hback r hr hf
        exact h r hacc hf
    | cancelRequest k b => exact absurd hev id
    | step res =>
      obtain ⟨done, rfl⟩ := hev
      obtain ⟨S', U', hkept⟩ := S.step U B hst
      rw [show accepted [Event.step (.ok done)] = [] from rfl, List.append_nil]
      refine ⟨U', S', fun hnone => ⟨fun r hr hf => hnone r hr (hkept r hr hf), fun _ _ => ?_⟩, ?_⟩
      · by_contra hR
        obtain ⟨r, hr, hf⟩ := failed_of_not_spacious B Y U hR hst
        exact hnone r hr hf
      · rintro ⟨h, hR⟩ r hr hf
        exact h r hr (failed_of_spacious B Y.owned (hR _ rfl) hst hf)

/-- CORRECT: after any submissions and steps with distinct non-empty ids in which nothing raises, the
    running dictionary is the batch, all of it running, if and only if every step has begun with blocks
    for all it selected. -/
theorem runs_batch_iff (hbs : 0 < blockSize) (hrun : Trace.Run (Step env)
      (new maxBatchSize maxQueueSize defaultTimeout policy numBlocks blockSize) evs e)
    (hname : Named evs) (hcalm : ∀ ev ∈ evs, Calm ev) :
    RunsBatch e ↔ Trace.Run (Fed env)
      (new maxBatchSize maxQueueSize defaultTimeout policy numBlocks blockSize) evs e := by
  obtain ⟨U, S, hiff⟩ := stuck_of_run hbs hrun hname hcalm
  have L := lossless_of_run hbs hrun hname (quiet_of_calm hcalm).benign
  exact (runsBatch_iff (batch_of_run hrun) L U S).trans hiff

/-- One request with blocks for its prompt. -/
theorem runs_batch_iff_fed :
    let env := Env.rowwise fun _ => [.negInf, .fin 0]
    let req : ScheduledRequest :=
      { requestId := "a", prompt := "pp", maxTokens := 2, temperature := 0, createdAt := 0 }
    RunsBatch (((new 1 8 60 .fcfs 2 1).submitRequest req).2.step env).2 := by
  intro env req
  have hok : (((new 1 8 60 .fcfs 2 1).submitRequest req).2.step env).1 = .ok [] := by
    decide +kernel
  have h₀ := step_submitRequest env (new 1 8 60 .fcfs 2 1) req
    ⟨rfl, fun r hr => absurd hr (Nat.not_lt_zero r)⟩
  have h₁ := step_step env ((new 1 8 60 .fcfs 2 1).submitRequest req).2
  rw [hok] at h₁
  refine (runs_batch_iff (by decide) (.snoc (.snoc .nil h₀) h₁) ?_ ?_).mpr
    (.snoc (.snoc .nil ⟨h₀, fun _ h => by cases h⟩) ⟨h₁, fun _ _ n hslots hn => ?_⟩)
  · intro r req' b h
    simp only [List.nil_append, List.cons_append, List.mem_cons, Event.submitRequest.injEq,
      reduceCtorEq, List.not_mem_nil, or_false] at h
    rw [h.2.1]
    decide
  · intro ev h
    simp only [List.nil_append, List.cons_append, List.mem_cons, List.not_mem_nil, or_false] at h
    rcases h with rfl | rfl
    · trivial
    · exact ⟨[], rfl⟩
  · have hbatch : ((new 1 8 60 .fcfs 2 1).submitRequest req).2.batchSize = 0 := by decide +kernel
    have hmax : ((new 1 8 60 .fcfs 2 1).submitRequest req).2.maxBatchSize = 1 := by decide +kernel
    obtain rfl : n = 1 := by omega
    decide +kernel

/-- A prompt of two blocks for a pool of one: the request has failed, the engine is idle, and one request
    is counted as running. -/
theorem not_runs_batch :
    let env := Env.rowwise fun _ => [.negInf, .fin 0]
    let req : ScheduledRequest :=
      { requestId := "a", prompt := "pp", maxTokens := 2, temperature := 0, createdAt := 0 }
    let e := (((new 1 8 60 .fcfs 1 1).submitRequest req).2.step env).2
    Trace.Run (Step env) (new 1 8 60 .fcfs 1 1)
      [.submitRequest 0 req true, .step (.ok [])] e ∧
    e.scheduler.statusOf 0 = .FAILED ∧ e.scheduler.pendingCount = 0 ∧ e.batchSize = 0 ∧
    e.scheduler.runningCount = 1 ∧ ¬ RunsBatch e := by
  intro env req e
  have hcount : e.scheduler.runningCount = 1 ∧ e.batchSize = 0 := by decide +kernel
  refine ⟨.snoc (.snoc .nil ⟨⟨rfl, fun r hr => absurd hr (Nat.not_lt_zero r)⟩, rfl, rfl⟩)
    (Prod.ext (by decide +kernel) rfl), by decide +kernel, by decide +kernel, hcount.2, hcount.1,
    fun R => ?_⟩
  have := R.count
  omega

end Engine

end ModelServing
