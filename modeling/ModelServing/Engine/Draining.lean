import ModelServing.Engine.Reporting

/-! `run_until_empty` drains the engine. Once the queue is empty, every iteration gives each sequence of
    the batch one more token and removes those that have as many as their requests allow, so the batch
    is empty after as many iterations as the largest allowance, and the safety limit on the
    iterations is never reached. -/

namespace ModelServing

namespace Engine

variable {env : Env} {e e₀ e' : Engine} {acc : List Ref} {p p' : Point} {numBlocks blockSize : ℕ}

/-! ### The queue -/

/-- There is room in the batch for the whole queue. -/
def Fitting (e : Engine) : Prop :=
  e.scheduler.pending = [] ∨ (e.scheduler.pending.length : ℤ) + e.batchSize ≤ e.maxBatchSize

theorem pending_step {res : Except StepError (List SequenceState)} (B : Batch acc .idle e)
    (hfit : Fitting e) (h : e.step env = (res, e')) : e'.scheduler.pending = [] := by
  obtain ⟨qs, ⟨as, hrun, -⟩, -⟩ := step_leads h
  have hend := hrun.always (I := fun c : Point × Engine =>
    c = (.idle, e) ∨ c.1 ≠ .idle ∧ c.2.scheduler.pending = []) (Or.inl rfl) fun c a c' hc hm => ?_
  · rcases hend with hend | hend
    · cases res <;> cases hend
    · exact hend.2
  · rcases hc with rfl | ⟨hp, hnil⟩
    · cases hm with
      | full hfull =>
        refine Or.inr ⟨Point.noConfusion, hfit.elim id fun hle => ?_⟩
        have hzero : e.scheduler.pending.length = 0 := by omega
        exact List.length_eq_zero_iff.mp hzero
      | @select _ n hslots hn =>
        have S := RequestScheduler.getNextBatch_selected B.ledger B.counted env.clock n
        refine Or.inr ⟨Point.noConfusion, S.emptied ?_⟩
        rcases hfit with hnil | hle
        · rw [hnil]; exact Nat.zero_le n
        · omega
    · obtain ⟨p, x⟩ := c
      obtain ⟨p', x'⟩ := c'
      refine Or.inr ⟨?_, (pending_micro hp hm).trans hnil⟩
      rintro rfl
      cases hm

/-! ### The batch -/

/-- Every sequence of the batch was in that of `e₀`, with one token fewer. -/
def Aged (e₀ e : Engine) : Prop :=
  ∀ k q, e.activeSequences.get? k = some q → ∃ q₀, e₀.activeSequences.get? k = some q₀ ∧
    q.generatedIds.length = q₀.generatedIds.length + 1

/-- Inside a step that starts at `e₀` with an empty queue: nobody is admitted, and after the forward
    pass everybody has one more token. -/
def Aging (e₀ : Engine) (p : Point) (e : Engine) : Prop :=
  match p with
  | .idle => e = e₀
  | .admitting todo => todo = [] ∧ e.activeSequences = e₀.activeSequences
  | .placing _ _ _ => False
  | .finishing _ | .ended none => Aged e₀ e
  | .ended (some _) => True

theorem Aged.erase (A : Aged e₀ e) {k : String}
    (hact : e'.activeSequences = e.activeSequences.erase k) : Aged e₀ e' := fun k' q hq => by
  rw [hact, OrderedDict.get?_erase] at hq
  split at hq
  · cases hq
  · exact A k' q hq

theorem Aging.micro {a : Action} (A : Aging e₀ p e) (B : Batch acc p e)
    (hnil : e₀.scheduler.pending = []) (h : Micro env (p, e) a (p', e')) : Aging e₀ p' e' := by
  cases h with
  | full _ => exact ⟨rfl, congrArg activeSequences A⟩
  | @select _ n _ _ =>
    obtain rfl : e = e₀ := A
    have S := RequestScheduler.getNextBatch_selected B.ledger B.counted env.clock n
    refine ⟨List.eq_nil_iff_forall_not_mem.mpr fun r hr => ?_, rfl⟩
    have hp := (S.started r hr).1
    rw [hnil] at hp
    exact List.not_mem_nil hp
  | tokenize _ => exact absurd A.1 (List.cons_ne_nil _ _)
  | place _ | evict _ _ | reject _ => exact A.elim
  | rest hkeys =>
    intro k q hq
    have hk := OrderedDict.mem_keys_of_get? hq
    rw [hkeys] at hk
    exact absurd hk List.not_mem_nil
  | append _ _ hs =>
    intro k q hq
    obtain ⟨q₀, t, hq₀, rfl⟩ := (appendAll_appended hs).get_old hq
    refine ⟨q₀, A.2 ▸ hq₀, ?_⟩
    rw [SequenceState.append_generatedIds, List.length_append, List.length_singleton]
  | finish hf =>
    obtain ⟨-, text, -, rfl⟩ := finish_ok hf
    exact Aged.erase A rfl
  | done => exact A
  | raiseTokenizer _ | raiseEvict _ | raiseModel _ _ | raiseSampler _ _ _ | raiseFinish _ => trivial

theorem aged_step {done : List SequenceState} (B : Batch acc .idle e)
    (hnil : e.scheduler.pending = []) (h : e.step env = (.ok done, e')) : Aged e e' := by
  obtain ⟨qs, ⟨as, hrun, -⟩, -⟩ := step_leads h
  have hend := hrun.always (I := fun c : Point × Engine => Batch acc c.1 c.2 ∧ Aging e c.1 c.2)
    ⟨B, show Aging e .idle e from rfl⟩ fun c a c' ⟨B, A⟩ hm => ⟨B.micro hm, A.micro B hnil hm⟩
  exact hend.2

/-! ### The loop -/

/-- A loop that returns is a run of steps that return, and returns what they do. -/
theorem loop_run : ∀ (n : ℕ) {e e' : Engine} {done : List SequenceState},
    runLoop env n e = (.ok done, e') → ∃ dss : List (List SequenceState),
      Trace.Run (Step env) e (dss.map fun ds => .step (.ok ds)) e' ∧ dss.flatten = done
  | 0, e, e', done, h => by
      cases h
      exact ⟨[], .nil, rfl⟩
  | n + 1, e, e', done, h => by
      obtain ⟨d, e₁, hs, ⟨-, rfl, rfl⟩ | ⟨-, rest, hl, rfl⟩⟩ := runLoop_succ h
      · have hfirst : Trace.Run (Step env) e [.step (.ok done)] e' :=
          .single (show Step env e (.step (.ok done)) e' from hs)
        exact ⟨[done], hfirst, List.append_nil done⟩
      · obtain ⟨dss, hrun, rfl⟩ := loop_run n hl
        have hfirst : Trace.Run (Step env) e [.step (.ok d)] e₁ :=
          .single (show Step env e (.step (.ok d)) e₁ from hs)
        exact ⟨d :: dss, hfirst.append hrun, rfl⟩

/-- What a loop returns is what its steps return. -/
theorem returned_steps (dss : List (List SequenceState)) :
    returned (dss.map fun ds => .step (.ok ds)) = dss.flatten := by
  induction dss with
  | nil => rfl
  | cons ds dss ih => exact congrArg (ds ++ ·) ih

/-- What is known between the iterations of a loop that returns. -/
structure Smooth (env : Env) (numBlocks blockSize : ℕ) (acc : List Ref) (e : Engine) : Prop where
  batch : Batch acc .idle e
  synced : Synced numBlocks blockSize acc e
  lossless : Lossless env acc .idle e

theorem Smooth.step {done : List SequenceState} (T : Smooth env numBlocks blockSize acc e)
    (h : e.step env = (.ok done, e')) : Smooth env numBlocks blockSize acc e' :=
  ⟨T.batch.step h, T.synced.step T.batch h (by simp),
    T.lossless.step T.batch T.synced h fun err herr => by cases herr⟩

theorem maxTokens_step {res : Except StepError (List SequenceState)} (B : Batch acc .idle e)
    (h : e.step env = (res, e')) (r : Ref) : (e'.request r).maxTokens = (e.request r).maxTokens := by
  obtain ⟨qs, ⟨as, hrun, -⟩, -⟩ := step_leads h
  have hend := hrun.always (I := fun c : Point × Engine =>
    Batch acc c.1 c.2 ∧ (c.2.request r).maxTokens = (e.request r).maxTokens) ⟨B, rfl⟩
    fun c a c' ⟨B, heq⟩ hm => ⟨B.micro hm, (hm.stable _ RequestScheduler.stable_maxTokens r).trans heq⟩
  exact hend.2

/-- No sequence between two steps has more tokens than its request allows. -/
theorem Smooth.length_lt (T : Smooth env numBlocks blockSize acc e) {k : String} {q : SequenceState}
    (hq : e.activeSequences.get? k = some q) :
    q.generatedIds = [] ∨ q.generatedIds.length < (e.request q.request).maxTokens := by
  have hf : q.isFinished = false := by
    by_contra hne
    exact absurd (T.lossless.finished k q hq (by simpa using hne)) List.not_mem_nil
  exact (T.lossless.unspent k q hq hf).2

/-- With an empty queue, when every sequence has `b` tokens, the batch is empty after `limit + 1 - b`
    iterations. -/
theorem drained_of_empty (limit : ℕ) : ∀ (n b : ℕ) {e e' : Engine} {done : List SequenceState},
    Smooth env numBlocks blockSize acc e → (∀ r ∈ acc, (e.request r).maxTokens ≤ limit) →
    e.scheduler.pending = [] →
    (∀ k q, e.activeSequences.get? k = some q → b ≤ q.generatedIds.length) → limit < b + n →
    runLoop env n e = (.ok done, e') → Drained e' ∧ Smooth env numBlocks blockSize acc e'
  | 0, b, e, e', done, T, hmax, hnil, hold, hb, h => by
      cases h
      refine ⟨⟨List.length_eq_zero_iff.mpr hnil, ?_⟩, T⟩
      rw [batchSize_eq_zero_iff]
      refine List.eq_nil_iff_forall_not_mem.mpr fun k hk => ?_
      obtain ⟨q, hq⟩ := OrderedDict.mem_keys_iff.mp hk
      have hle := hold k q hq
      have hcap := hmax q.request (T.batch.active k q hq).1
      rcases T.length_lt hq with hgen | hlt
      · rw [hgen, List.length_nil] at hle
        omega
      · omega
  | n + 1, b, e, e', done, T, hmax, hnil, hold, hb, h => by
      obtain ⟨d, e₁, hs, ⟨hd, -, rfl⟩ | ⟨-, rest, hl, -⟩⟩ := runLoop_succ h
      · exact ⟨hd, T.step hs⟩
      · have hA := aged_step T.batch hnil hs
        refine drained_of_empty limit n (b + 1) (T.step hs) (fun r hr => ?_)
          (pending_step T.batch (Or.inl hnil) hs) (fun k q hq => ?_) (by omega) hl
        · rw [maxTokens_step T.batch hs]
          exact hmax r hr
        · obtain ⟨q₀, hq₀, hlen⟩ := hA k q hq
          have := hold k q₀ hq₀
          omega

/-- When the batch has room for the whole queue, a loop of more than `limit + 1` iterations that
    returns has drained the engine. -/
theorem drained_of_fitting (limit : ℕ) {n : ℕ} {done : List SequenceState}
    (T : Smooth env numBlocks blockSize acc e) (hmax : ∀ r ∈ acc, (e.request r).maxTokens ≤ limit)
    (hfit : Fitting e) (hn : limit + 1 < n) (h : runLoop env n e = (.ok done, e')) :
    Drained e' ∧ Smooth env numBlocks blockSize acc e' := by
  obtain ⟨n, rfl⟩ : ∃ m, n = m + 1 := ⟨n - 1, by omega⟩
  obtain ⟨d, e₁, hs, ⟨hd, -, rfl⟩ | ⟨-, rest, hl, -⟩⟩ := runLoop_succ h
  · exact ⟨hd, T.step hs⟩
  · refine drained_of_empty limit n 0 (T.step hs) (fun r hr => ?_) (pending_step T.batch hfit hs)
      (fun _ _ _ => Nat.zero_le _) (by omega) hl
    rw [maxTokens_step T.batch hs]
    exact hmax r hr

end Engine

end ModelServing
