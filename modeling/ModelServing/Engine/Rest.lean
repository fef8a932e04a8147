import ModelServing.Engine.Draining
import ModelServing.Engine.Mirror

/-! An engine at rest is as good as new. Whatever its past, an engine with an empty queue, an empty
    batch and an untouched pool mirrors a new engine with the same settings; and a loop that drains
    the engine without raising leaves it at rest. -/

namespace ModelServing

namespace Engine

variable {env : Env} {e e' : Engine} {acc : List Ref} {p p' : Point} {numBlocks blockSize : ℕ}
  {maxBatchSize maxQueueSize : ℤ} {defaultTimeout : ℚ} {policy : SchedulingPolicy}

/-! ### What no call changes -/

/-- What the constructors were given. -/
def settings (e : Engine) : ℤ × (ℤ × ℚ × SchedulingPolicy) × ℕ × ℕ :=
  (e.maxBatchSize, e.scheduler.settings, e.cacheManager.numBlocks, e.cacheManager.blockSize)

theorem settings_eq (hmax : e'.maxBatchSize = e.maxBatchSize)
    (hsched : e'.scheduler.settings = e.scheduler.settings)
    (hcache : e'.cacheManager.numBlocks = e.cacheManager.numBlocks ∧
      e'.cacheManager.blockSize = e.cacheManager.blockSize) : e'.settings = e.settings := by
  rw [settings, settings, hmax, hsched, hcache.1, hcache.2]

theorem settings_micro {a : Action} (h : e.cacheManager.Owned)
    (hm : Micro env (p, e) a (p', e')) : e'.settings = e.settings := by
  cases hm with
  | full _ | rest _ | done | tokenize _ | reject _ | raiseTokenizer _ | raiseModel _ _ => rfl
  | select _ _ =>
    exact settings_eq rfl (RequestScheduler.getNextBatch_split _ _ _).1.settings ⟨rfl, rfl⟩
  | place ha =>
    have A := h.allocated ha
    exact settings_eq rfl rfl ⟨A.numBlocks, A.blockSize⟩
  | evict _ hv =>
    have F := (h.evicted hv).2.2
    rcases dropEvicted_cases env (e.withCache _) _ with ⟨heq, -⟩ | ⟨q, -, -, heq⟩ <;>
      rw [heq] <;> exact settings_eq rfl rfl ⟨F.numBlocks, F.blockSize⟩
  | raiseEvict hv =>
    have hdims := h.perform_dims .evictLru
    refine settings_eq rfl rfl ?_
    rwa [CacheManager.perform, hv] at hdims
  | append _ _ hs =>
    have A := appendAll_appended hs
    exact settings_eq A.maxBatchSize (by rw [A.scheduler]) (by rw [A.cacheManager]; exact ⟨rfl, rfl⟩)
  | raiseSampler _ _ hs => obtain rfl := (Prod.mk.inj hs).2; rfl
  | finish hf | raiseFinish hf =>
    rcases finish_cases hf with ⟨-, -, rfl⟩ | ⟨q, -, ⟨-, -, rfl⟩ | ⟨text, -, -, rfl⟩⟩
    · rfl
    · rfl
    · exact settings_eq rfl (RequestScheduler.completeRequest_frame ..).2.1 (h.freeSequence_dims _)

/-- What holds of an engine after every history, whatever was raised. -/
structure Kept (e₀ : Engine) (e : Engine) : Prop where
  batch : ∃ acc, Batch acc .idle e
  owned : e.cacheManager.Owned
  settings : e.settings = e₀.settings

variable {e₀ : Engine}

theorem new_kept (hbs : 0 < blockSize) :
    Kept (new maxBatchSize maxQueueSize defaultTimeout policy numBlocks blockSize)
      (new maxBatchSize maxQueueSize defaultTimeout policy numBlocks blockSize) :=
  ⟨⟨[], new_batch⟩, CacheManager.new_owned numBlocks hbs, rfl⟩

theorem Kept.step (K : Kept e₀ e) (env : Env) : Kept e₀ (e.step env).2 := by
  obtain ⟨acc, B⟩ := K.batch
  obtain ⟨qs, ⟨as, hrun, -⟩, -⟩ := step_leads (rfl : e.step env = _)
  have hend := hrun.always (I := fun c : Point × Engine =>
    Batch acc c.1 c.2 ∧ c.2.cacheManager.Owned ∧ c.2.settings = e₀.settings)
    ⟨B, K.owned, K.settings⟩ fun c a c' ⟨B, O, hs⟩ hm =>
      ⟨B.micro hm, owned_micro O hm, (settings_micro O hm).trans hs⟩
  exact ⟨⟨acc, B.step rfl⟩, hend.2.1, hend.2.2⟩

theorem Kept.runLoop (env : Env) : ∀ (n : ℕ) {e : Engine}, Kept e₀ e →
    Kept e₀ (Engine.runLoop env n e).2
  | 0, _, K => K
  | n + 1, e, K => by
      have K₁ := K.step env
      unfold Engine.runLoop
      rcases hs : e.step env with ⟨err | d, e₁⟩
      · rwa [hs] at K₁
      · rw [hs] at K₁
        simp only
        split
        · exact K₁
        · have K₂ := Kept.runLoop env n K₁
          rcases hl : Engine.runLoop env n e₁ with ⟨err | rest, e₂⟩ <;> rwa [hl] at K₂

theorem Batch.ticked (B : Batch acc .idle e) : Batch acc .idle e.ticked :=
  ⟨B.ledger.of_eq rfl (.refl _) rfl rfl, ⟨B.counted.submitted, B.counted.done⟩, B.active, B.todo_nodup, B.todo⟩

theorem Kept.ticked (K : Kept e₀ e) : Kept e₀ e.ticked := by
  obtain ⟨acc, B⟩ := K.batch
  exact ⟨⟨acc, B.ticked⟩, K.owned, K.settings⟩

theorem Kept.submit (K : Kept e₀ e) {req : ScheduledRequest}
    (hf : RequestScheduler.Fresh e.scheduler req) : Kept e₀ (e.submitRequest req).2 := by
  obtain ⟨acc, B⟩ := K.batch
  have hsettings : (e.submitRequest req).2.settings = e.settings := by
    refine settings_eq rfl ?_ ⟨rfl, rfl⟩
    rcases RequestScheduler.submitNew_cases e.scheduler req with ⟨-, heq⟩ | ⟨-, t, heq⟩
    · exact congrArg (fun x => x.2.settings) heq
    · exact congrArg (fun x => x.2.settings) heq
  exact ⟨⟨_, B.submit hf⟩, K.owned, hsettings.trans K.settings⟩

/-! ### An engine at rest -/

/-- Nothing queued, nothing in the batch, and the pool untouched. -/
structure AtRest (e : Engine) : Prop where
  pending : e.scheduler.pending = []
  active : e.activeSequences.keys = []
  tables : e.cacheManager.blockTables.keys = []
  order : e.cacheManager.accessOrder.keys = []
  free : e.cacheManager.numFreeBlocks = e.cacheManager.numBlocks

theorem AtRest.ticked (R : AtRest e) : AtRest e.ticked := ⟨R.pending, R.active, R.tables, R.order, R.free⟩

theorem new_atRest :
    AtRest (new maxBatchSize maxQueueSize defaultTimeout policy numBlocks blockSize) := by
  refine ⟨rfl, rfl, rfl, rfl, ?_⟩
  change ((List.range numBlocks).reverse).length = numBlocks
  rw [List.length_reverse, List.length_range]

/-- A loop that has drained the engine leaves it at rest. -/
theorem Smooth.atRest (T : Smooth env numBlocks blockSize acc e) (hd : Drained e) : AtRest e := by
  have hact : e.activeSequences.keys = [] := batchSize_eq_zero_iff.mp hd.2
  have htab : e.cacheManager.blockTables.keys = [] := List.eq_nil_iff_forall_not_mem.mpr fun k hk => by
    have := (T.synced.tables k).mp hk
    rw [hact] at this
    exact List.not_mem_nil this
  refine ⟨List.length_eq_zero_iff.mp hd.1, hact, htab, ?_, T.synced.complete.numFreeBlocks_eq htab⟩
  refine List.eq_nil_iff_forall_not_mem.mpr fun k hk => ?_
  have := (T.synced.order k).mp hk
  rw [hact] at this
  exact List.not_mem_nil this

theorem AtRest.rejected (R : AtRest e) {req : ScheduledRequest}
    (hs : e.submitRequest req = (false, e')) : AtRest e' := by
  obtain ⟨hb, rfl⟩ := Prod.mk.inj hs
  rcases RequestScheduler.submitNew_cases e.scheduler req with ⟨-, heq⟩ | ⟨-, t, heq⟩
  · have hsched : (e.scheduler.submitNew req).2 = _ := congrArg Prod.snd heq
    exact ⟨by rw [hsched]; exact R.pending, R.active, R.tables, R.order, R.free⟩
  · have htrue : (e.scheduler.submitNew req).1 = true := congrArg Prod.fst heq
    cases htrue.symm.trans hb

/-- A new engine that has worked off its first request is at rest again. -/
theorem atRest_of_submit (limit : ℕ) {n : ℕ} {req : ScheduledRequest} {done : List SequenceState}
    (hbs : 0 < blockSize) (hmax : 0 < maxBatchSize) (hst : req.status = .PENDING)
    (hid : req.requestId ≠ "") (hlimit : req.maxTokens ≤ limit) (hn : limit + 1 < n)
    (hs : (new maxBatchSize maxQueueSize defaultTimeout policy numBlocks blockSize).submitRequest req =
      (true, e)) (hl : runLoop env n e = (.ok done, e')) : AtRest e' := by
  have hrun : Trace.Run (Step env)
      (new maxBatchSize maxQueueSize defaultTimeout policy numBlocks blockSize)
      [.submitRequest 0 req true] e :=
    .snoc .nil ⟨⟨hst, fun r hr => absurd hr (Nat.not_lt_zero r)⟩, rfl, hs⟩
  have hname : Named [.submitRequest 0 req true] := fun r req' b h => by
    simp only [List.mem_singleton, Event.submitRequest.injEq] at h
    rw [h.2.1]
    exact hid
  have T : Smooth env numBlocks blockSize (accepted [.submitRequest 0 req true]) e :=
    ⟨batch_of_run hrun, synced_of_run hbs hrun hname fun h => by simp at h,
      lossless_of_run hbs hrun hname fun err h => by simp at h⟩
  have hle : ∀ r ∈ accepted [.submitRequest 0 req true], (e.request r).maxTokens ≤ limit := by
    intro r hr
    obtain ⟨req', hmem⟩ := mem_accepted.mp hr
    have heq := (submitted_of_run hrun hmem _ RequestScheduler.stable_maxTokens).1
    simp only [List.mem_singleton, Event.submitRequest.injEq] at hmem
    rw [heq, hmem.2.1]
    exact hlimit
  have hfit : Fitting e := by
    obtain ⟨hb, rfl⟩ := Prod.mk.inj hs
    rcases RequestScheduler.submitNew_cases (RequestScheduler.new maxQueueSize defaultTimeout policy) req
      with ⟨-, heq⟩ | ⟨-, t, heq⟩
    · cases (congrArg Prod.fst heq).symm.trans hb
    · refine Or.inr ?_
      have hlen : (((RequestScheduler.new maxQueueSize defaultTimeout policy).submitNew req).2.pending).length
          = 1 := by rw [heq]; rfl
      change ((((RequestScheduler.new maxQueueSize defaultTimeout policy).submitNew req).2.pending).length
        : ℤ) + ((0 : ℕ) : ℤ) ≤ maxBatchSize
      rw [hlen]
      omega
  obtain ⟨hd, T'⟩ := drained_of_fitting limit T hle hfit hn hl
  exact T'.atRest hd

/-- What lies behind an engine whose clock is counted from the reading `ticks` on. -/
def past (e : Engine) (ticks : ℕ) : Past where
  requests := e.scheduler.requests.next
  calls := e.calls
  ticks := ticks
  stale := { k | k ∈ e.scheduler.running.keys }

/-- A new engine after `ticks` readings of the clock. -/
def started (e₀ : Engine) (ticks : ℕ) : Engine :=
  { e₀ with scheduler := { e₀.scheduler with ticks := ticks } }

theorem eq_nil_of_keys {ν : Type} {d : OrderedDict String ν} (h : d.keys = []) : d = .empty :=
  OrderedDict.ext_entries (List.map_eq_nil_iff.mp h)

/-- An engine at rest mirrors a new one. -/
theorem AtRest.mirrors (R : AtRest e)
    (K : Kept (new maxBatchSize maxQueueSize defaultTimeout policy numBlocks blockSize) e)
    (hbs : 0 < blockSize) {ticks t : ℕ} (ht : e.scheduler.ticks = ticks + t) :
    Mirrors (e.past ticks) 0 e
      ((new maxBatchSize maxQueueSize defaultTimeout policy numBlocks blockSize).started t) := by
  have N : AtRest (new maxBatchSize maxQueueSize defaultTimeout policy numBlocks blockSize) :=
    new_atRest
  obtain ⟨hmax, hsched, hnum, hsize⟩ : _ ∧ _ ∧ _ ∧ _ := by
    have h := K.settings
    simp only [settings, Prod.mk.injEq] at h
    exact h
  obtain ⟨hqueue, htimeout, hpolicy⟩ : _ ∧ _ ∧ _ := by
    simp only [RequestScheduler.settings, Prod.mk.injEq] at hsched
    exact hsched
  refine ⟨⟨hqueue, htimeout, hpolicy, rfl, rfl, ht, fun r hr => absurd hr (Nat.not_lt_zero r),
    fun r hr => absurd hr (Nat.not_lt_zero r), R.pending, fun r hr => absurd hr List.not_mem_nil,
    fun k hk => ?_, fun k r hr => ?_⟩,
    ⟨K.owned, CacheManager.new_owned numBlocks hbs, hsize, ?_, ?_, fun s => ?_⟩,
    hmax, ?_, fun k q hq => ?_, rfl⟩
  · rw [OrderedDict.get?_eq_none_iff.mpr hk]
    rfl
  · cases hr
  · rw [R.free, hnum]
    exact N.free.symm
  · rw [eq_nil_of_keys R.order]
    rfl
  · rw [OrderedDict.get?_eq_none_iff.mpr (R.tables ▸ List.not_mem_nil)]
    rfl
  · rw [eq_nil_of_keys R.active]
    rfl
  · cases hq

/-- An engine that mirrors one at rest is at rest. -/
theorem AtRest.of_mirrors {P : Past} {n : ℕ} {f : Engine} (R : AtRest f) (M : Mirrors P n e f)
    (hnum : e.cacheManager.numBlocks = f.cacheManager.numBlocks) : AtRest e where
  pending := by rw [M.scheduler.pending, R.pending]; rfl
  active := by rw [M.keys, R.active]
  tables := List.eq_nil_iff_forall_not_mem.mpr fun k hk => by
    obtain ⟨t, ht⟩ := OrderedDict.mem_keys_iff.mp hk
    obtain ⟨t', ht', -⟩ := M.cacheManager.table ht
    have := OrderedDict.mem_keys_of_get? ht'
    rw [R.tables] at this
    exact List.not_mem_nil this
  order := by rw [M.cacheManager.accessOrder, R.order]
  free := by rw [M.cacheManager.free, R.free, hnum]

end Engine

end ModelServing
