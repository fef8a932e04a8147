import ModelServing.Api.Metrics
import ModelServing.Engine.Bound
import ModelServing.Engine.Decoding

/-! The statistics: `get_stats` of the engine, the scheduler and the cache manager. Every token that was
    ever counted is in the batch or was returned, as long as nothing was evicted and every output
    could be decoded; and the counters bound each other. -/

namespace ModelServing

/-- `CacheManager.get_stats`. -/
structure CacheStats where
  totalBlocks : ℕ
  freeBlocks : ℕ
  allocatedBlocks : ℕ
  utilization : ℚ
  activeSequences : ℕ
  totalAllocatedLifetime : ℕ
  totalEvictions : ℕ
  blockSize : ℕ
  deriving DecidableEq

def CacheManager.getStats (m : CacheManager) : CacheStats where
  totalBlocks := m.numBlocks
  freeBlocks := m.numFreeBlocks
  allocatedBlocks := m.numAllocatedBlocks
  utilization := MetricsCollector.round 3 m.utilization
  activeSequences := m.blockTables.size
  totalAllocatedLifetime := m.totalAllocated
  totalEvictions := m.totalEvicted
  blockSize := m.blockSize

/-- `RequestScheduler.get_stats`. -/
structure SchedulerStats where
  pending : ℕ
  running : ℕ
  completed : ℕ
  cancelled : ℕ
  timedOut : ℕ
  totalSubmitted : ℕ
  avgWaitTimeMs : ℚ
  schedulingPolicy : SchedulingPolicy
  queueCapacity : ℤ
  deriving DecidableEq

namespace RequestScheduler

/-- The waiting times of the requests that have ended and were started before. -/
def waitTimes (s : RequestScheduler) : List ℚ :=
  s.completed.values.filterMap fun r => (s.request r).startedAt.map (· - (s.request r).createdAt)

def getStats (s : RequestScheduler) : SchedulerStats where
  pending := s.pendingCount
  running := s.runningCount
  completed := s.totalCompleted
  cancelled := s.totalCancelled
  timedOut := s.totalTimedOut
  totalSubmitted := s.totalSubmitted
  avgWaitTimeMs := if s.waitTimes = [] then 0 else s.waitTimes.sum / s.waitTimes.length * 1000
  schedulingPolicy := s.schedulingPolicy
  queueCapacity := s.maxQueueSize

end RequestScheduler

/-- `ContinuousBatchingEngine.get_stats`. -/
structure EngineStats where
  activeBatchSize : ℕ
  maxBatchSize : ℤ
  totalRequests : ℕ
  totalTokensGenerated : ℕ
  totalIterations : ℕ
  tokensPerIteration : ℚ
  scheduler : SchedulerStats
  cache : CacheStats
  deriving DecidableEq

namespace Engine

def getStats (e : Engine) : EngineStats where
  activeBatchSize := e.batchSize
  maxBatchSize := e.maxBatchSize
  totalRequests := e.totalRequests
  totalTokensGenerated := e.totalTokensGenerated
  totalIterations := e.totalIterations
  tokensPerIteration := if e.totalIterations > 0 then e.totalTokensGenerated / e.totalIterations else 0
  scheduler := e.scheduler.getStats
  cache := e.cacheManager.getStats

end Engine

/-! ### Evictions are counted -/

namespace CacheManager

theorem foldl_takeBlock_totalEvicted (tokens : ℕ) : ∀ (l : List ℕ) (st : CacheManager × BlockTable),
    (l.foldl (takeBlock tokens) st).1.totalEvicted = st.1.totalEvicted
  | [], _ => rfl
  | i :: l, st => by
      rw [List.foldl_cons, foldl_takeBlock_totalEvicted tokens l, takeBlock]
      split <;> rfl

theorem allocateSequence_totalEvicted (m : CacheManager) (s : String) (n : ℕ) :
    (m.allocateSequence s n).2.totalEvicted = m.totalEvicted := by
  rw [allocateSequence]
  split
  · rfl
  · exact foldl_takeBlock_totalEvicted n _ _

theorem foldl_releaseBlock_totalEvicted : ∀ (l : List ℕ) (m : CacheManager),
    (l.foldl releaseBlock m).totalEvicted = m.totalEvicted
  | [], _ => rfl
  | id :: l, m => by
      rw [List.foldl_cons, foldl_releaseBlock_totalEvicted l, releaseBlock]
      split <;> rfl

theorem freeSequence_totalEvicted (m : CacheManager) (s : String) :
    (m.freeSequence s).totalEvicted = m.totalEvicted := by
  rw [freeSequence]
  split
  · rfl
  · exact foldl_releaseBlock_totalEvicted _ m

end CacheManager

namespace Engine

variable {env : Env} {e e' : Engine} {acc : List Ref} {p p' : Point} {calm clean : Prop}
  {qs : List SequenceState}

/-! ### Tokens -/

def tokenCount (q : SequenceState) : ℕ := q.generatedIds.length

/-- The tokens of the batch. -/
def tokensHeld (e : Engine) : ℕ := e.activeSequences.total tokenCount

def tokensOf (qs : List SequenceState) : ℕ := (qs.map tokenCount).sum

theorem tokensOf_append (qs qs' : List SequenceState) : tokensOf (qs ++ qs') = tokensOf qs + tokensOf qs' := by
  rw [tokensOf, List.map_append, List.sum_append]
  rfl

theorem foldl_appendToken_totals (env : Env) : ∀ (ps : List (String × ℕ)) (e : Engine),
    (ps.foldl (appendToken env) e).totalTokensGenerated = e.totalTokensGenerated + ps.length ∧
    (ps.foldl (appendToken env) e).totalIterations = e.totalIterations
  | [], _ => ⟨rfl, rfl⟩
  | p :: ps, e => by
      obtain ⟨htokens, hiter⟩ := foldl_appendToken_totals env ps (e.appendToken env p)
      refine ⟨?_, hiter⟩
      rw [List.foldl_cons, htokens, List.length_cons]
      change e.totalTokensGenerated + 1 + ps.length = _
      omega

/-- One iteration gives every sequence of the batch a token. -/
theorem appendAll_totals {logits : List (List (List Logit))} {tokens : List ℕ}
    (hs : e.iterated.called.sampleTokens env logits = (.ok tokens, e')) :
    (e'.appendAll env tokens).totalTokensGenerated = e.totalTokensGenerated + e.batchSize ∧
    (e'.appendAll env tokens).totalIterations = e.totalIterations + 1 ∧
    tokensHeld (e'.appendAll env tokens) = tokensHeld e + e.batchSize := by
  have happ := appendAll_appended hs
  obtain ⟨hok, rfl⟩ := Prod.mk.inj hs
  obtain ⟨hlen, -⟩ := sampleFrom_ok e.activeSequences.values 0 _ (Prod.ext hok rfl)
  have hzip : (e.activeSequences.keys.zip tokens).length = e.batchSize := by
    rw [List.length_zip, hlen, OrderedDict.values, List.length_map, OrderedDict.length_keys]
    exact Nat.min_self _
  obtain ⟨htokens, hiter⟩ := foldl_appendToken_totals env (e.activeSequences.keys.zip tokens)
    { e.iterated.called with calls := (e.iterated.called.sampleFrom env logits 0 e.activeSequences.values (e.calls + 1)).2 }
  rw [hzip] at htokens
  refine ⟨htokens, hiter, OrderedDict.total_succ happ.keys fun k q q' hq hq' => ?_⟩
  obtain ⟨q₀, t, hq₀, rfl⟩ := happ.get_old hq'
  obtain rfl : q = q₀ := Option.some.inj (hq.symm.trans hq₀)
  rw [tokenCount, SequenceState.append_generatedIds, List.length_append]
  rfl

/-! ### The tally -/

/-- What the counters say of the sequences `qs` that have been finished. `clean` is that every output
    could be decoded before, `calm` that nothing was raised at all. -/
structure Tallied (calm clean : Prop) (qs : List SequenceState) (p : Point) (e : Engine) : Prop where
  covered : tokensHeld e + tokensOf qs ≤ e.totalTokensGenerated
  exact : clean → p ≠ .ended (some .decode) → e.cacheManager.totalEvicted = 0 →
    e.totalTokensGenerated = tokensHeld e + tokensOf qs
  served : qs.length ≤ e.totalRequests
  reported : clean → p ≠ .ended (some .decode) → e.totalRequests = qs.length
  work : (e.totalTokensGenerated : ℤ) ≤ e.maxBatchSize * e.totalIterations
  busy : calm → (∀ err, p ≠ .ended (some err)) → e.totalIterations ≤ e.totalTokensGenerated

/-- What leaves the counters and the batch alone. -/
theorem Tallied.same (T : Tallied calm clean qs p e) (hp : ∀ err, p ≠ .ended err)
    (hact : tokensHeld e' = tokensHeld e) (htokens : e'.totalTokensGenerated = e.totalTokensGenerated)
    (hiter : e'.totalIterations = e.totalIterations) (hreq : e'.totalRequests = e.totalRequests)
    (hmax : e'.maxBatchSize = e.maxBatchSize)
    (hevicted : e'.cacheManager.totalEvicted = 0 → e.cacheManager.totalEvicted = 0) :
    Tallied calm clean qs p' e' := by
  constructor
  · rw [hact, htokens]
    exact T.covered
  · intro hclean _ hzero
    rw [hact, htokens]
    exact T.exact hclean (hp _) (hevicted hzero)
  · rw [hreq]
    exact T.served
  · intro hclean _
    rw [hreq]
    exact T.reported hclean (hp _)
  · rw [htokens, hmax, hiter]
    exact T.work
  · intro hcalm _
    rw [htokens, hiter]
    exact T.busy hcalm fun err => hp _

theorem Tallied.imp {calm' clean' : Prop} (T : Tallied calm clean qs p e) (hcalm : calm' → calm)
    (hclean : clean' → clean) : Tallied calm' clean' qs p e :=
  ⟨T.covered, fun h => T.exact (hclean h), T.served, fun h => T.reported (hclean h), T.work, fun h => T.busy (hcalm h)⟩

/-- A step that has not raised leaves the tally of its last change. -/
theorem Tallied.landed (T : Tallied calm clean qs (.ended none) e) : Tallied calm clean qs .idle e :=
  ⟨T.covered, fun h _ => T.exact h (by simp), T.served, fun h _ => T.reported h (by simp), T.work,
    fun h _ => T.busy h (by simp)⟩

/-- An iteration that raises before any token is appended. -/
theorem Tallied.wasted {err : StepError} (T : Tallied calm clean qs p e) (F : Fits p e) (hp : ∀ err, p ≠ .ended err)
    (hact : e'.activeSequences = e.activeSequences) (htokens : e'.totalTokensGenerated = e.totalTokensGenerated)
    (hiter : e'.totalIterations = e.totalIterations + 1) (hreq : e'.totalRequests = e.totalRequests)
    (hmax : e'.maxBatchSize = e.maxBatchSize) (hcache : e'.cacheManager = e.cacheManager) :
    Tallied calm clean qs (.ended (some err)) e' := by
  constructor
  · rw [tokensHeld, hact, htokens]
    exact T.covered
  · intro hclean _ hzero
    rw [tokensHeld, hact, htokens]
    exact T.exact hclean (hp _) (hcache ▸ hzero)
  · rw [hreq]
    exact T.served
  · intro hclean _
    rw [hreq]
    exact T.reported hclean (hp _)
  · have hwork := T.work
    have hseats : 0 ≤ e.maxBatchSize := by
      rw [Fits] at F
      omega
    rw [htokens, hmax, hiter]
    push_cast
    linarith
  · exact fun _ h => absurd rfl (h err)

theorem Tallied.micro {a : Action} (T : Tallied calm clean qs p e) (B : Batch acc p e) (F : Fits p e)
    (N : Leaving p e) (h : Micro env (p, e) a (p', e')) :
    Tallied calm clean (qs ++ Action.finished [a]) p' e' := by
  have hnil : ∀ {a : Action}, Action.finished [a] = [] → qs ++ Action.finished [a] = qs := fun h => by
    rw [h, List.append_nil]
  cases h with
  | full _ | select _ _ | tokenize _ | rest _ | done | raiseTokenizer _ | reject _ =>
    rw [hnil rfl]
    exact T.same (fun _ => Point.noConfusion) rfl rfl rfl rfl rfl id
  | @raiseEvict _ _ _ _ err cache hv =>
    rw [hnil rfl]
    refine T.same (fun _ => Point.noConfusion) rfl rfl rfl rfl rfl fun hzero => ?_
    rcases e.cacheManager.evictLru_cases with ⟨-, heq⟩ | ⟨w, -, -, ⟨-, heq⟩ | ⟨t, -, heq⟩⟩ <;> cases hv.symm.trans heq
    exact hzero
  | @place _ r rs inputIds t cache ha =>
    rw [hnil rfl]
    have hfresh := (B.todo r List.mem_cons_self).2.2
    refine T.same (fun _ => Point.noConfusion) ?_ rfl rfl rfl rfl fun hzero => ?_
    · exact OrderedDict.total_insert_of_not_mem { request := r, inputIds := inputIds } tokenCount hfresh
    · have hcache := e.cacheManager.allocateSequence_totalEvicted (e.request r).requestId inputIds.length
      rw [show e.cacheManager.allocateSequence _ _ = _ from ha] at hcache
      exact hcache ▸ hzero
  | @evict _ r rs inputIds _ v cache _ hv =>
    rw [hnil rfl]
    obtain ⟨-, -, rfl⟩ := CacheManager.evictLru_ok hv
    rcases dropEvicted_cases env (e.withCache _) v with ⟨heq, -⟩ | ⟨x, -, hx, heq⟩ <;> rw [heq]
    · refine ⟨T.covered, fun _ _ hzero => ?_, T.served, fun hclean _ => T.reported hclean Point.noConfusion, T.work,
        fun hcalm _ => T.busy hcalm fun _ => Point.noConfusion⟩
      exact absurd hzero (Nat.succ_ne_zero _)
    · refine ⟨?_, fun _ _ hzero => ?_, T.served, fun hclean _ => T.reported hclean Point.noConfusion, T.work,
        fun hcalm _ => T.busy hcalm fun _ => Point.noConfusion⟩
      · have hheld : tokensHeld e = tokenCount x + (e.activeSequences.erase v).total tokenCount :=
          OrderedDict.total_erase tokenCount hx
        have hcovered := T.covered
        change (e.activeSequences.erase v).total tokenCount + _ ≤ e.totalTokensGenerated
        omega
      · exact absurd hzero (Nat.succ_ne_zero _)
  | append hne _ hs =>
    rw [hnil rfl]
    obtain ⟨htokens, hiter, hheld⟩ := appendAll_totals hs
    have happ := appendAll_appended hs
    have hpos : 0 < e.batchSize := batchSize_pos_iff.mpr hne
    have hseats : (e.batchSize : ℤ) ≤ e.maxBatchSize := by simpa [Fits, Point.todo] using F
    have hwork := T.work
    constructor
    · have hcovered := T.covered
      omega
    · intro hclean _ hzero
      rw [happ.cacheManager] at hzero
      have hexact := T.exact hclean Point.noConfusion hzero
      omega
    · exact happ.totalRequests ▸ T.served
    · intro hclean _
      rw [happ.totalRequests]
      exact T.reported hclean Point.noConfusion
    · rw [htokens, hiter, happ.maxBatchSize]
      push_cast
      linarith
    · intro hcalm _
      have hbusy := T.busy hcalm fun _ => Point.noConfusion
      omega
  | raiseModel _ _ =>
    rw [hnil rfl]
    exact T.wasted F (fun _ => Point.noConfusion) rfl rfl rfl rfl rfl rfl
  | raiseSampler _ _ hs =>
    rw [hnil rfl]
    obtain rfl := (Prod.mk.inj hs).2
    exact T.wasted F (fun _ => Point.noConfusion) rfl rfl rfl rfl rfl rfl
  | @finish _ _ id ids q hf =>
    obtain ⟨hq, text, -, rfl⟩ := finish_ok hf
    have hheld : tokensHeld e = tokenCount q + (e.activeSequences.erase id).total tokenCount :=
      OrderedDict.total_erase tokenCount hq
    have hevicted : (e.completed env id text q).cacheManager.totalEvicted = e.cacheManager.totalEvicted :=
      CacheManager.freeSequence_totalEvicted _ _
    have hqs : tokensOf (qs ++ [q]) = tokensOf qs + tokenCount q := by
      rw [tokensOf_append, tokensOf, tokensOf, List.map_singleton, List.sum_singleton]
    change Tallied calm clean (qs ++ [q]) _ _
    constructor
    · have hcovered := T.covered
      change (e.activeSequences.erase id).total tokenCount + _ ≤ e.totalTokensGenerated
      omega
    · intro hclean _ hzero
      have hexact := T.exact hclean Point.noConfusion (hevicted ▸ hzero)
      change e.totalTokensGenerated = (e.activeSequences.erase id).total tokenCount + _
      omega
    · rw [List.length_append]
      exact Nat.succ_le_succ T.served
    · intro hclean _
      rw [List.length_append]
      exact congrArg Nat.succ (T.reported hclean Point.noConfusion)
    · exact T.work
    · exact fun hcalm _ => T.busy hcalm fun _ => Point.noConfusion
  | @raiseFinish _ _ id ids err hf =>
    rw [hnil rfl]
    rcases finish_error hf with ⟨hnone, -, -⟩ | ⟨q, hq, -, rfl, rfl⟩
    · exact absurd (N.present id List.mem_cons_self) (OrderedDict.get?_eq_none_iff.mp hnone)
    · have hheld : tokensHeld e = tokenCount q + (e.activeSequences.erase id).total tokenCount :=
        OrderedDict.total_erase tokenCount hq
      refine ⟨?_, fun _ h => absurd rfl h, T.served, fun _ h => absurd rfl h, T.work, fun _ h => absurd rfl (h _)⟩
      have hcovered := T.covered
      change (e.activeSequences.erase id).total tokenCount + _ ≤ e.totalTokensGenerated
      omega

/-- Nothing is finished in a step that raises, unless the decoder does. -/
theorem finished_eq_nil {c c' : Point × Engine} {as : List Action} (hrun : Trace.Run (Micro env) c as c')
    (N : Leaving c.1 c.2) : Leaving c'.1 c'.2 ∧
      ∀ err, c'.1 = .ended (some err) → err ≠ .decode → Action.finished as = [] := by
  have hinv := hrun.invariant (I := fun as c' => Leaving c'.1 c'.2 ∧
    ((∃ ids, c'.1 = .finishing ids) ∨ c'.1 = .ended none ∨ c'.1 = .ended (some .decode) ∨ Action.finished as = [])) ?_ ?_
  · refine ⟨hinv.1, fun err herr hne => ?_⟩
    rcases hinv.2 with ⟨ids, h⟩ | h | h | h
    · cases herr.symm.trans h
    · cases herr.symm.trans h
    · cases herr.symm.trans h
      exact absurd rfl hne
    · exact h
  · exact ⟨N, Or.inr (Or.inr (Or.inr rfl))⟩
  · rintro as ⟨p, e⟩ a ⟨p', e'⟩ - ⟨N, hcases⟩ hm
    refine ⟨N.micro hm, ?_⟩
    have hkeep : (∀ ids, p ≠ .finishing ids) → (∀ q, a ≠ .finish q) → Action.finished (as ++ [a]) = [] := by
      intro hp ha
      rcases hcases with ⟨ids, h⟩ | h | h | h
      · exact absurd h (hp ids)
      · exact absurd h (hm.not_ended _)
      · exact absurd h (hm.not_ended _)
      · rw [Action.finished_append, h]
        cases a with
        | finish q => exact absurd rfl (ha q)
        | quiet | evict _ | reject _ => rfl
    cases hm with
    | append _ _ _ => exact Or.inl ⟨_, rfl⟩
    | finish _ => exact Or.inl ⟨_, rfl⟩
    | done | rest _ => exact Or.inr (Or.inl rfl)
    | raiseFinish hf =>
      rcases finish_error hf with ⟨hnone, -, -⟩ | ⟨q, -, -, rfl, -⟩
      · exact absurd (N.present _ List.mem_cons_self) (OrderedDict.get?_eq_none_iff.mp hnone)
      · exact Or.inr (Or.inr (Or.inl rfl))
    | _ => exact Or.inr (Or.inr (Or.inr (hkeep (fun _ => Point.noConfusion) fun _ => Action.noConfusion)))

/-! ### Runs -/

variable {maxBatchSize maxQueueSize : ℤ} {defaultTimeout : ℚ} {policy : SchedulingPolicy}
  {numBlocks blockSize : ℕ} {evs : List Event}

theorem leaving_idle (e : Engine) : Leaving .idle e :=
  ⟨List.nodup_nil, fun _ h => absurd h List.not_mem_nil⟩

theorem Tallied.step {res : Except StepError (List SequenceState)} {calm' clean' : Prop}
    (T : Tallied calm clean qs .idle e) (B : Batch acc .idle e) (F : Fits .idle e) (h : e.step env = (res, e'))
    (hcalm : calm' → calm ∧ ∀ err, res ≠ .error err) (hclean : clean' → clean ∧ res ≠ .error .decode) :
    Tallied calm' clean' (qs ++ returned [.step res]) .idle e' := by
  obtain ⟨fs, ⟨as, hmicro, hfs⟩, hdone⟩ := step_leads h
  obtain ⟨-, hnone⟩ := finished_eq_nil hmicro (leaving_idle e)
  have hinv := hmicro.invariant (I := fun as c => Tallied calm clean (qs ++ Action.finished as) c.1 c.2 ∧
    Batch acc c.1 c.2 ∧ Fits c.1 c.2 ∧ Leaving c.1 c.2)
    ⟨by simpa [Action.finished] using T, B, F, leaving_idle e⟩ ?_
  · have T' : Tallied calm clean (qs ++ Action.finished as) (land (.ended none) res) e' := hinv.1
    cases res with
    | ok done =>
      rw [hfs, hdone done rfl] at T'
      have hret : returned [.step (.ok done)] = done := by simp [returned]
      rw [hret]
      exact (T'.imp (fun h => (hcalm h).1) fun h => (hclean h).1).landed
    | error err =>
      have hret : returned [.step (.error err)] = [] := rfl
      have hearly : clean' → qs ++ Action.finished as = qs ∧ clean ∧ land (.ended none) (.error err : Except StepError
          (List SequenceState)) ≠ .ended (some .decode) := by
        intro hc
        obtain ⟨hcl, hne⟩ := hclean hc
        have hdecode : err ≠ .decode := fun heq => hne (heq ▸ rfl)
        refine ⟨by rw [hnone err rfl hdecode, List.append_nil], hcl, fun heq => hdecode ?_⟩
        exact Option.some.inj (Point.ended.inj heq)
      have hcovered := T'.covered
      have hserved := T'.served
      rw [tokensOf_append] at hcovered
      rw [List.length_append] at hserved
      rw [hret, List.append_nil]
      refine ⟨by omega, fun hc _ hzero => ?_, by omega, fun hc _ => ?_, T'.work, fun hc _ => absurd rfl ((hcalm hc).2 err)⟩
      · obtain ⟨hnil, hcl, hne⟩ := hearly hc
        exact hnil ▸ T'.exact hcl hne hzero
      · obtain ⟨hnil, hcl, hne⟩ := hearly hc
        exact hnil ▸ T'.reported hcl hne
  · rintro as ⟨p, e⟩ a ⟨p', e'⟩ - ⟨T, B, F, N⟩ hm
    refine ⟨?_, B.micro hm, (F.micro B hm).1, N.micro hm⟩
    rw [Action.finished_append, ← List.append_assoc]
    exact T.micro B F N hm

theorem new_tallied : Tallied calm clean [] .idle
    (new maxBatchSize maxQueueSize defaultTimeout policy numBlocks blockSize) :=
  ⟨le_rfl, fun _ _ _ => rfl, le_rfl, fun _ _ => rfl, by simp [new], fun _ _ => le_rfl⟩

theorem tallied_of_run (hbs : 0 < blockSize) (hmax : 0 ≤ maxBatchSize) (hrun : Trace.Run (Step env)
    (new maxBatchSize maxQueueSize defaultTimeout policy numBlocks blockSize) evs e) :
    Tallied (Quiet evs) (Decoded evs) (returned evs) .idle e := by
  have hinv := hrun.invariant (I := fun evs e => Tallied (Quiet evs) (Decoded evs) (returned evs) .idle e) ?_ ?_
  · exact hinv
  · exact new_tallied
  · intro evs e ev e' hr T hst
    have B := batch_of_run hr
    have hleft : ∀ x ∈ evs, x ∈ evs ++ [ev] := fun _ => List.mem_append_left _
    have hcalm : Quiet (evs ++ [ev]) → Quiet evs := fun h err hmem => h err (hleft _ hmem)
    have hclean : Decoded (evs ++ [ev]) → Decoded evs := fun h hmem => h (hleft _ hmem)
    have hsame : returned [ev] = [] → e'.activeSequences = e.activeSequences →
        e'.totalTokensGenerated = e.totalTokensGenerated → e'.totalIterations = e.totalIterations →
        e'.totalRequests = e.totalRequests → e'.maxBatchSize = e.maxBatchSize →
        e'.cacheManager = e.cacheManager → Tallied (Quiet (evs ++ [ev])) (Decoded (evs ++ [ev]))
          (returned (evs ++ [ev])) .idle e' := fun hnil hact ht hi hr hm hc => by
      have T' : Tallied (Quiet evs) (Decoded evs) (returned evs) .idle e' :=
        T.same (fun _ => Point.noConfusion) (by rw [tokensHeld, hact]; rfl) ht hi hr hm fun h => hc ▸ h
      rw [returned_append, hnil, List.append_nil]
      exact T'.imp hcalm hclean
    cases ev with
    | submitRequest r req b =>
      obtain ⟨-, -, heq⟩ := hst
      obtain rfl := (Prod.mk.inj heq).2
      exact hsame rfl rfl rfl rfl rfl rfl rfl
    | cancelRequest k b =>
      obtain rfl := (Prod.mk.inj hst).2
      exact hsame rfl rfl rfl rfl rfl rfl rfl
    | step res =>
      have F : Fits .idle e := by
        have hfits := fits_of_run hmax hr
        have hsize := (consistent_of_calls hbs (calls_of_run hr)).2.2
        rw [Fits, hsize]
        simpa [Point.todo] using hfits
      rw [returned_append]
      refine T.step B F hst (fun h => ⟨hcalm h, ?_⟩) fun h => ⟨hclean h, ?_⟩
      · rintro err rfl
        exact h err (List.mem_append_right _ List.mem_cons_self)
      · rintro rfl
        exact h (List.mem_append_right _ List.mem_cons_self)

/-- CORRECT: the statistics add up. After any run, whatever was raised, cancelled or evicted, an
    iteration has made at most as many tokens as the batch has seats, and at least one if nothing was
    raised; no token of the batch or of a returned request is missing from the count, and the count has
    no other as long as nothing was evicted and every output could be decoded; then the requests
    counted are those that were returned. Every submission is in one place. -/
theorem stats_add_up (hbs : 0 < blockSize) (hmax : 0 ≤ maxBatchSize) (hrun : Trace.Run (Step env)
      (new maxBatchSize maxQueueSize defaultTimeout policy numBlocks blockSize) evs e) :
    let stats := e.getStats
    ((stats.activeBatchSize : ℤ) ≤ stats.maxBatchSize ∧ stats.tokensPerIteration ≤ stats.maxBatchSize ∧
      (Quiet evs → 0 < stats.totalIterations → 1 ≤ stats.tokensPerIteration)) ∧
    (tokensHeld e + tokensOf (returned evs) ≤ stats.totalTokensGenerated ∧
      (Decoded evs → stats.cache.totalEvictions = 0 →
        stats.totalTokensGenerated = tokensHeld e + tokensOf (returned evs))) ∧
    ((returned evs).length ≤ stats.totalRequests ∧
      (Decoded evs → stats.totalRequests = (returned evs).length)) ∧
    stats.scheduler.totalSubmitted = stats.scheduler.pending + stats.scheduler.running + stats.scheduler.completed +
      stats.scheduler.cancelled + stats.scheduler.timedOut := by
  intro stats
  have T := tallied_of_run hbs hmax hrun
  have hsize : e.maxBatchSize = maxBatchSize := (consistent_of_calls hbs (calls_of_run hrun)).2.2
  have hrate : stats.tokensPerIteration =
    if e.totalIterations > 0 then (e.totalTokensGenerated : ℚ) / e.totalIterations else 0 := rfl
  refine ⟨⟨(fits_of_run hmax hrun).trans hsize.ge, ?_, fun hcalm hpos => ?_⟩,
    ⟨T.covered, fun hclean => T.exact hclean Point.noConfusion⟩,
    ⟨T.served, fun hclean => T.reported hclean Point.noConfusion⟩, (batch_of_run hrun).counted.submitted⟩
  · rw [hrate]
    split
    · rename_i hpos
      have hwork : (e.totalTokensGenerated : ℚ) ≤ e.maxBatchSize * e.totalIterations := by exact_mod_cast T.work
      exact (div_le_iff₀ (Nat.cast_pos.mpr hpos)).mpr hwork
    · exact Int.cast_nonneg (hmax.trans hsize.ge)
  · have hbusy : (e.totalIterations : ℚ) ≤ e.totalTokensGenerated :=
      Nat.cast_le.mpr (T.busy hcalm fun _ => Point.noConfusion)
    rw [hrate, if_pos (show e.totalIterations > 0 from hpos)]
    exact (one_le_div (Nat.cast_pos.mpr hpos)).mpr hbusy

/-- Two seats, three requests and two steps: one request has been returned with its token, and the two
    in the batch have three of the four tokens. -/
theorem stats_add_up_two :
    let env := Env.rowwise fun _ => [.negInf, .fin 0]
    let req : ScheduledRequest :=
      { requestId := "a", prompt := "p", maxTokens := 3, temperature := 0, createdAt := 0 }
    let e₁ := ((new 2 8 60 .fcfs 8 2).submitRequest req).2
    let e₂ := (e₁.submitRequest { req with requestId := "b", maxTokens := 1 }).2
    let e₃ := (e₂.submitRequest { req with requestId := "c", maxTokens := 2 }).2
    let e := ((e₃.step env).2.step env).2
    tokensHeld e = 3 ∧ e.getStats.totalTokensGenerated = tokensHeld e + 1 := by
  intro env req e₁ e₂ e₃ e
  have hrun := Trace.Run.snoc (.snoc (.snoc (.snoc (.snoc .nil
    (step_submitRequest env (new 2 8 60 .fcfs 8 2) req ⟨rfl, fun r hr => absurd hr (Nat.not_lt_zero r)⟩))
    (step_submitRequest env e₁ { req with requestId := "b", maxTokens := 1 } ⟨rfl, by decide +kernel⟩))
    (step_submitRequest env e₂ { req with requestId := "c", maxTokens := 2 } ⟨rfl, by decide +kernel⟩))
    (step_step env e₃)) (step_step env (e₃.step env).2)
  have hok : (e₃.step env).1.toBool = true ∧ ((e₃.step env).2.step env).1.toBool = true := by decide +kernel
  have hdecoded : ∀ {x : Except StepError (List SequenceState)}, x.toBool = true → x ≠ .error .decode := by
    rintro _ h rfl
    cases h
  refine ⟨by decide +kernel, ((stats_add_up (by decide) (by decide) hrun).2.1.2 (fun h => ?_) ?_).trans ?_⟩
  · simp only [List.nil_append, List.cons_append, List.mem_cons, Event.step.injEq, reduceCtorEq,
      List.not_mem_nil, false_or, or_false] at h
    obtain h | h := h
    · exact hdecoded hok.1 h.symm
    · exact hdecoded hok.2 h.symm
  · decide +kernel
  · decide +kernel

end Engine

end ModelServing
