import ModelServing.Engine.Batch
import ModelServing.Cache.Effects

/-! The engine and the cache manager agree on which sequences are alive. As long as decoding does not
    raise, the active sequences, the block tables and the recency order have the same keys at every
    point inside a step, nothing of the pool is lost, and the batch keeps to its size. -/

namespace ModelServing

open RequestScheduler (Stable)
open CacheManager (Allocated Freed)

namespace Engine

variable {env : Env} {e e' : Engine} {acc : List Ref} {p p' : Point} {numBlocks blockSize : ℕ}

/-- The cache manager is sound and has a table exactly for the active sequences. Ids are not empty:
    a sequence under the empty id would stay in the batch when its blocks are evicted. -/
structure Synced (numBlocks blockSize : ℕ) (acc : List Ref) (e : Engine) : Prop where
  named : ∀ r ∈ acc, e.scheduler.idOf r ≠ ""
  owned : e.cacheManager.Owned
  complete : e.cacheManager.Complete
  tables : ∀ k, k ∈ e.cacheManager.blockTables.keys ↔ k ∈ e.activeSequences.keys
  order : ∀ k, k ∈ e.cacheManager.accessOrder.keys ↔ k ∈ e.activeSequences.keys
  numBlocks : e.cacheManager.numBlocks = numBlocks
  blockSize : e.cacheManager.blockSize = blockSize

namespace Synced

/-- Only the keys of the batch matter. -/
theorem congr (S : Synced numBlocks blockSize acc e)
    (hid : ∀ x, e'.scheduler.idOf x = e.scheduler.idOf x)
    (hcache : e'.cacheManager = e.cacheManager)
    (hkeys : ∀ k, k ∈ e'.activeSequences.keys ↔ k ∈ e.activeSequences.keys) :
    Synced numBlocks blockSize acc e' where
  named := fun r hr => hid r ▸ S.named r hr
  owned := hcache ▸ S.owned
  complete := hcache ▸ S.complete
  tables := fun k => by rw [hcache, hkeys]; exact S.tables k
  order := fun k => by rw [hcache, hkeys]; exact S.order k
  numBlocks := hcache ▸ S.numBlocks
  blockSize := hcache ▸ S.blockSize

theorem table_of_active (S : Synced numBlocks blockSize acc e) {k : String} {q : SequenceState}
    (hq : e.activeSequences.get? k = some q) : ∃ t, e.cacheManager.blockTables.get? k = some t :=
  OrderedDict.mem_keys_iff.mp ((S.tables k).mpr (OrderedDict.mem_keys_of_get? hq))

/-- A request gets its blocks and joins the batch. -/
theorem place (S : Synced numBlocks blockSize acc e) {r : Ref} {inputIds : List ℕ} {t : BlockTable}
    {cache : CacheManager} (hnew : e.scheduler.idOf r ∉ e.activeSequences.keys)
    (h : e.allocate r inputIds.length = (.ok t, cache)) :
    Synced numBlocks blockSize acc ((e.withCache cache).activate r inputIds) := by
  have A := S.owned.allocated h
  have hdead : e.cacheManager.blockTables.get? (e.scheduler.idOf r) = none :=
    OrderedDict.get?_eq_none_iff.mpr fun hm => hnew ((S.tables _).mp hm)
  have hkeys : ∀ k, k ∈ ((e.withCache cache).activate r inputIds).activeSequences.keys ↔
      k = e.scheduler.idOf r ∨ k ∈ e.activeSequences.keys := fun k => OrderedDict.mem_keys_insert
  refine ⟨S.named, A.owned, A.complete hdead S.complete, fun k => ?_, fun k => ?_,
    A.numBlocks.trans S.numBlocks, A.blockSize.trans S.blockSize⟩
  · rw [hkeys, ← S.tables k, OrderedDict.mem_keys_iff, OrderedDict.mem_keys_iff]
    change (∃ v, cache.blockTables.get? k = some v) ↔ _
    rw [A.tables k]
    by_cases hk : k = e.scheduler.idOf r
    · simp [hk, RequestScheduler.idOf, request]
    · have hk' : k ≠ (e.request r).requestId := hk
      simp [hk, hk']
  · rw [hkeys, ← S.order k]
    exact A.order k

/-- A sequence gives its blocks back and leaves the batch. -/
theorem free (S : Synced numBlocks blockSize acc e) {k : String}
    (F : Freed e.cacheManager k e'.cacheManager)
    (hid : ∀ x, e'.scheduler.idOf x = e.scheduler.idOf x)
    (hact : e'.activeSequences = e.activeSequences.erase k) :
    Synced numBlocks blockSize acc e' := by
  have hkeys : ∀ k', k' ∈ e'.activeSequences.keys ↔ k' ≠ k ∧ k' ∈ e.activeSequences.keys := by
    intro k'
    rw [hact]
    exact OrderedDict.mem_keys_erase
  refine ⟨fun r hr => hid r ▸ S.named r hr, F.owned, F.complete S.complete, fun k' => ?_,
    fun k' => ?_, F.numBlocks.trans S.numBlocks, F.blockSize.trans S.blockSize⟩
  · rw [hkeys, ← S.tables k', OrderedDict.mem_keys_iff, OrderedDict.mem_keys_iff, F.tables k']
    by_cases hk : k' = k <;> simp [hk]
  · rw [hkeys, ← S.order k']
    exact F.order k'

/-- The evicted sequence is active, so it leaves the batch as its blocks are freed. -/
theorem evict_cases (S : Synced numBlocks blockSize acc e) (B : Batch acc p e) (env : Env) {v : String}
    {cache : CacheManager} (h : e.cacheManager.evictLru = (.ok (some v), cache)) :
    ∃ q, e.activeSequences.get? v = some q ∧
      (e.withCache cache).dropEvicted env (some v) =
        Engine.fail env { e.withCache cache with activeSequences := e.activeSequences.erase v }
          q.request "Evicted due to memory pressure" ∧
      Freed e.cacheManager v cache := by
  obtain ⟨hv, -, F⟩ := S.owned.evicted h
  obtain ⟨q, hq⟩ := OrderedDict.mem_keys_iff.mp ((S.order v).mp hv)
  have hne : v ≠ "" := (B.active v q hq).2.1 ▸ S.named _ (B.active v q hq).1
  rcases dropEvicted_cases env (e.withCache cache) v with ⟨-, hor⟩ | ⟨q', -, hq', heq⟩
  · exact (hor.elim hne fun hn => hn (OrderedDict.mem_keys_of_get? hq)).elim
  · cases hq.symm.trans hq'
    exact ⟨q, hq, heq, F⟩

/-- Every change inside a step keeps the agreement, unless decoding raises. -/
theorem micro {a : Action} (S : Synced numBlocks blockSize acc e) (B : Batch acc p e)
    (h : Micro env (p, e) a (p', e')) (hp : p' ≠ .ended (some .decode)) :
    Synced numBlocks blockSize acc e' := by
  have hid : ∀ x, e'.scheduler.idOf x = e.scheduler.idOf x :=
    h.stable _ RequestScheduler.stable_requestId
  cases h with
  | full _ | rest _ | done | select _ _ | tokenize _ | reject _ | raiseTokenizer _
  | raiseModel _ _ => exact S.congr hid rfl fun _ => Iff.rfl
  | raiseSampler _ _ hs =>
    obtain rfl := (Prod.mk.inj hs).2
    exact S.congr hid rfl fun _ => Iff.rfl
  | place ha => exact S.place (B.todo _ List.mem_cons_self).2.2 ha
  | evict _ hv =>
    obtain ⟨q, -, heq, F⟩ := S.evict_cases B env hv
    exact S.free (by rw [heq]; exact F) hid (by rw [heq]; rfl)
  | append _ _ hs =>
    have A := appendAll_appended hs
    exact S.congr hid A.cacheManager fun _ => by rw [A.keys]
  | raiseEvict hv =>
    obtain ⟨v, hv, hdead⟩ := CacheManager.evictLru_error hv
    have := (S.tables v).mpr ((S.order v).mp hv)
    exact absurd this (OrderedDict.get?_eq_none_iff.mp hdead)
  | finish hf =>
    obtain ⟨hq, text, -, rfl⟩ := finish_ok hf
    obtain ⟨t, ht⟩ := S.table_of_active hq
    exact S.free (S.owned.freed ht) hid rfl
  | raiseFinish hf =>
    rcases finish_error hf with ⟨-, -, rfl⟩ | ⟨q, -, -, rfl, -⟩
    · exact S
    · exact absurd rfl hp

/-- A step keeps the agreement, unless decoding raises. -/
theorem step {res : Except StepError (List SequenceState)} (S : Synced numBlocks blockSize acc e)
    (B : Batch acc .idle e) (h : e.step env = (res, e')) (hres : res ≠ .error .decode) :
    Synced numBlocks blockSize acc e' := by
  obtain ⟨qs, ⟨as, hrun, -⟩, -⟩ := step_leads h
  refine (Micro.run_of (G := fun p => p ≠ .ended (some .decode))
    (I := fun c => Batch acc c.1 c.2 ∧ Synced numBlocks blockSize acc c.2)
    (fun p hp => hp _) (fun c a c' hI hm hg => ⟨hI.1.micro hm, hI.2.micro hI.1 hm hg⟩) hrun
    ⟨B, S⟩ fun hend => ?_).2
  cases res with
  | ok _ => cases hend
  | error err =>
    cases hend
    exact hres rfl

end Synced

/-! ### The size of the batch -/

/-- The batch has room for all selected requests. -/
def Fits (p : Point) (e : Engine) : Prop := (e.batchSize : ℤ) + p.todo.length ≤ e.maxBatchSize

theorem dropEvicted_batchSize_le (env : Env) (e : Engine) (v : String) :
    (e.dropEvicted env (some v)).batchSize ≤ e.batchSize ∧
      (e.dropEvicted env (some v)).maxBatchSize = e.maxBatchSize := by
  rcases dropEvicted_cases env e v with ⟨heq, -⟩ | ⟨q, -, -, heq⟩
  · rw [heq]; exact ⟨Nat.le_refl _, rfl⟩
  · rw [heq]; exact ⟨OrderedDict.size_erase_le _ _, rfl⟩

theorem Fits.micro {a : Action} (F : Fits p e) (B : Batch acc p e)
    (h : Micro env (p, e) a (p', e')) : Fits p' e' ∧ e'.maxBatchSize = e.maxBatchSize := by
  cases h with
  | full _ | rest _ | done | tokenize _ => exact ⟨F, rfl⟩
  | raiseTokenizer _ | raiseEvict _ | raiseModel _ _ =>
    refine ⟨?_, rfl⟩
    change (e.batchSize : ℤ) + _ ≤ _ at F
    change (e.batchSize : ℤ) + (0 : ℕ) ≤ e.maxBatchSize
    omega
  | raiseSampler _ _ hs =>
    obtain rfl := (Prod.mk.inj hs).2
    exact ⟨F, rfl⟩
  | @select _ n h hn =>
    have hle := (RequestScheduler.getNextBatch_selected B.ledger B.counted env.clock n).length_le
    refine ⟨?_, rfl⟩
    change (e.batchSize : ℤ) + (e.scheduler.getNextBatch env.clock n).1.length ≤ e.maxBatchSize
    omega
  | @place _ r rs inputIds t cache _ =>
    have hsize : ((e.withCache cache).activate r inputIds).batchSize = e.batchSize + 1 :=
      OrderedDict.size_insert_of_not_mem _ (B.todo r List.mem_cons_self).2.2
    refine ⟨?_, rfl⟩
    change (e.batchSize : ℤ) + (rs.length + 1 : ℕ) ≤ e.maxBatchSize at F
    change (((e.withCache cache).activate r inputIds).batchSize : ℤ) + rs.length ≤ e.maxBatchSize
    omega
  | @evict _ r rs inputIds _ v cache _ _ =>
    obtain ⟨hle, hmax⟩ := dropEvicted_batchSize_le env (e.withCache cache) v
    refine ⟨?_, hmax⟩
    rw [Fits, hmax]
    change (e.batchSize : ℤ) + _ ≤ e.maxBatchSize at F
    change _ ≤ e.batchSize at hle
    change _ ≤ e.maxBatchSize
    omega
  | @reject _ r rs _ _ _ =>
    refine ⟨?_, rfl⟩
    change (e.batchSize : ℤ) + (rs.length + 1 : ℕ) ≤ e.maxBatchSize at F
    change (e.batchSize : ℤ) + rs.length ≤ e.maxBatchSize
    omega
  | append _ _ hs =>
    have A := appendAll_appended hs
    refine ⟨?_, A.maxBatchSize⟩
    rw [Fits, A.maxBatchSize, batchSize, ← OrderedDict.length_keys, A.keys,
      OrderedDict.length_keys]
    exact F
  | @finish _ _ id _ _ hf | @raiseFinish _ _ id _ _ hf =>
    change (e.batchSize : ℤ) + (0 : ℕ) ≤ e.maxBatchSize at F
    rcases finish_cases hf with ⟨-, -, rfl⟩ | ⟨q, -, ⟨-, -, rfl⟩ | ⟨text, -, -, rfl⟩⟩
    · exact ⟨F, rfl⟩
    all_goals
      have hle := OrderedDict.size_erase_le e.activeSequences id
      refine ⟨?_, rfl⟩
      change ((e.activeSequences.erase _).size : ℤ) + (0 : ℕ) ≤ e.maxBatchSize
      change _ ≤ e.batchSize at hle
      omega

/-! ### Runs -/

variable {maxBatchSize maxQueueSize : ℤ} {defaultTimeout : ℚ} {policy : SchedulingPolicy}
  {evs : List Event}

/-- Every submitted request has a non-empty id. -/
def Named (evs : List Event) : Prop :=
  ∀ r req b, .submitRequest r req b ∈ evs → req.requestId ≠ ""

/-- No step failed to decode its output. -/
def Decoded (evs : List Event) : Prop := .step (.error .decode) ∉ evs

theorem Synced.submit (S : Synced numBlocks blockSize acc e) (B : Batch acc .idle e) {req : ScheduledRequest}
    (hname : req.requestId ≠ "") :
    Synced numBlocks blockSize (acc ++ e.scheduler.queued (e.submitRequest req).1) (e.submitRequest req).2 := by
  have A := RequestScheduler.submitNew_added e.scheduler req
  refine ⟨fun x hx => ?_, S.owned, S.complete, S.tables, S.order, S.numBlocks, S.blockSize⟩
  rcases List.mem_append.mp hx with hx | hx
  · exact (A.idOf_old (B.ledger.lt_next x hx)).symm ▸ S.named x hx
  · rw [RequestScheduler.eq_of_mem_queued hx]
    exact A.idOf_next.symm ▸ hname

theorem synced_step {ev : Event} (S : Synced numBlocks blockSize (accepted evs) e)
    (B : Batch (accepted evs) .idle e) (hst : Step env e ev e') (hname : Named [ev])
    (hdec : Decoded [ev]) : Synced numBlocks blockSize (accepted (evs ++ [ev])) e' := by
  rw [accepted_append]
  cases ev with
  | submitRequest r req b =>
    obtain ⟨-, rfl, heq⟩ := hst
    obtain ⟨rfl, rfl⟩ := Prod.mk.inj heq
    rw [accepted_submitRequest]
    exact S.submit B (hname _ req _ List.mem_cons_self)
  | cancelRequest k b =>
    rw [show accepted [Event.cancelRequest k b] = [] from rfl, List.append_nil]
    obtain rfl := (Prod.mk.inj hst).2
    refine S.congr (fun x => ?_) rfl fun _ => Iff.rfl
    rcases B.cancelRequest_cases env k with ⟨heq, -⟩ | ⟨r, -, -, -, -, -, -, T, -⟩
    · exact congrArg (fun e => e.scheduler.idOf x) (congrArg Prod.snd heq)
    · exact T.id_eq x
  | step res =>
    rw [show accepted [Event.step res] = [] from rfl, List.append_nil]
    refine S.step B hst fun hres => hdec ?_
    rw [hres]
    exact List.mem_cons_self

theorem new_synced (hbs : 0 < blockSize) : Synced numBlocks blockSize []
    (new maxBatchSize maxQueueSize defaultTimeout policy numBlocks blockSize) :=
  ⟨fun _ h => absurd h List.not_mem_nil, CacheManager.new_owned numBlocks hbs,
    CacheManager.new_complete numBlocks blockSize, fun _ => Iff.rfl, fun _ => Iff.rfl, rfl, rfl⟩

/-- The agreement holds after every run in which ids are not empty and decoding does not raise. -/
theorem synced_of_run (hbs : 0 < blockSize) (hrun : Trace.Run (Step env)
    (new maxBatchSize maxQueueSize defaultTimeout policy numBlocks blockSize) evs e)
    (hname : Named evs) (hdec : Decoded evs) : Synced numBlocks blockSize (accepted evs) e := by
  have hinv : Named evs → Decoded evs → Synced numBlocks blockSize (accepted evs) e := by
    refine hrun.invariant (I := fun evs e =>
      Named evs → Decoded evs → Synced numBlocks blockSize (accepted evs) e)
      (fun _ _ => new_synced hbs) ?_
    intro evs e ev e' hr hi hst hname hdec
    have hleft : ∀ x ∈ evs, x ∈ evs ++ [ev] := fun _ => List.mem_append_left _
    have hright : ∀ x ∈ [ev], x ∈ evs ++ [ev] := fun _ => List.mem_append_right _
    exact synced_step (hi (fun r req b h => hname r req b (hleft _ h)) fun h => hdec (hleft _ h))
      (batch_of_run hr) hst (fun r req b h => hname r req b (hright _ h)) fun h => hdec (hright _ h)
  exact hinv hname hdec

theorem fits_of_run (hmax : 0 ≤ maxBatchSize) (hrun : Trace.Run (Step env)
    (new maxBatchSize maxQueueSize defaultTimeout policy numBlocks blockSize) evs e) :
    (e.batchSize : ℤ) ≤ maxBatchSize := by
  have hinv : Fits .idle e ∧ e.maxBatchSize = maxBatchSize := by
    refine hrun.invariant (I := fun _ e => Fits .idle e ∧ e.maxBatchSize = maxBatchSize)
      ⟨by simpa [Fits, batchSize, new, Point.todo] using hmax, rfl⟩ ?_
    rintro evs e ev e' hr ⟨F, hm⟩ hst
    cases ev with
    | submitRequest r req b =>
      obtain ⟨-, -, heq⟩ := hst
      obtain rfl := (Prod.mk.inj heq).2
      exact ⟨F, hm⟩
    | cancelRequest k b =>
      obtain rfl := (Prod.mk.inj hst).2
      exact ⟨F, hm⟩
    | step res =>
      obtain ⟨qs, ⟨as, hrun, -⟩, -⟩ := step_leads hst
      have h : Batch (accepted evs) (land (.ended none) res) e' ∧
          Fits (land (.ended none) res) e' ∧ e'.maxBatchSize = maxBatchSize :=
        hrun.always (I := fun c : Point × Engine => Batch (accepted evs) c.1 c.2 ∧ Fits c.1 c.2 ∧
          c.2.maxBatchSize = maxBatchSize) ⟨batch_of_run hr, F, hm⟩
          fun c a c' hI hst => ⟨hI.1.micro hst, (hI.2.1.micro hI.1 hst).1,
            (hI.2.1.micro hI.1 hst).2.trans hI.2.2⟩
      cases res <;> exact ⟨h.2.1, h.2.2⟩
  have hF := hinv.1
  rw [Fits, hinv.2] at hF
  simpa [Point.todo] using hF

/-- Only a decoder that raises makes a step fail so. -/
theorem step_error_decode (h : e.step env = (.error .decode, e')) :
    ∃ i ids, env.decode i ids true = none := by
  obtain ⟨qs, ⟨as, hrun, -⟩, -⟩ := step_leads h
  cases hrun with
  | snoc _ hst =>
    cases hst with
    | raiseSampler _ _ hs => exact absurd (sampleTokens_error hs) (by decide)
    | raiseFinish hf =>
      rcases finish_error hf with ⟨-, herr, -⟩ | ⟨q, -, hd, -, -⟩
      · cases herr
      · exact ⟨_, _, hd⟩

/-- CORRECT: after any run with distinct non-empty ids and a decoder that does not raise, whatever
    else raises and whatever is cancelled, evicted or rejected: the batch, the block tables and the
    recency order have the same keys, the batch keeps to its size, free and mapped blocks partition
    the pool, and an idle engine holds no block. -/
theorem cache_follows_batch (hbs : 0 < blockSize) (hmax : 0 ≤ maxBatchSize)
    (hdec : ∀ i ids, env.decode i ids true ≠ none)
    (hrun : Trace.Run (Step env)
      (new maxBatchSize maxQueueSize defaultTimeout policy numBlocks blockSize) evs e)
    (hname : Named evs) :
    (∀ k, k ∈ e.activeSequences.keys ↔ k ∈ e.cacheManager.blockTables.keys) ∧
    (∀ k, k ∈ e.activeSequences.keys ↔ k ∈ e.cacheManager.accessOrder.keys) ∧
    (e.batchSize : ℤ) ≤ maxBatchSize ∧
    (e.cacheManager.freeBlockIds ++ e.cacheManager.mapped).Perm (List.range numBlocks) ∧
    (e.batchSize = 0 → e.cacheManager.numFreeBlocks = numBlocks) := by
  have hdecoded : Decoded evs := by
    intro hmem
    have hne := hrun.events (P := fun ev => ev ≠ .step (.error .decode)) (fun e ev e' hst => ?_)
    · exact hne _ hmem rfl
    · rintro rfl
      obtain ⟨i, ids, h⟩ := step_error_decode hst
      exact hdec i ids h
  have S := synced_of_run hbs hrun hname hdecoded
  refine ⟨fun k => (S.tables k).symm, fun k => (S.order k).symm, fits_of_run hmax hrun,
    S.numBlocks ▸ S.complete, fun hzero => ?_⟩
  rw [← S.numBlocks]
  refine S.complete.numFreeBlocks_eq (List.eq_nil_iff_forall_not_mem.mpr fun k hk => ?_)
  rw [batchSize_eq_zero_iff] at hzero
  have := (S.tables k).mp hk
  rw [hzero] at this
  exact absurd this List.not_mem_nil

/-- Two requests and a pool for one of them: admitting the second evicts the first, and after the
    second has finished the pool is whole again. -/
theorem cache_follows_batch_evicted :
    let env := Env.rowwise fun _ => [.fin 0]
    let a : ScheduledRequest :=
      { requestId := "a", prompt := "pp", maxTokens := 2, temperature := 0, createdAt := 0 }
    let e := ((new 2 8 60 .fcfs 1 2).submitRequest a).2
    let e' := (e.submitRequest { a with requestId := "b" }).2
    (e'.step env).2.scheduler.statusOf 0 = .FAILED ∧
      (e'.step env).2.cacheManager.numFreeBlocks = 1 := by
  intro env a e e'
  have hrun := Trace.Run.snoc (.snoc (.snoc .nil
    (step_submitRequest env (new 2 8 60 .fcfs 1 2) a
      ⟨rfl, fun r hr => absurd hr (Nat.not_lt_zero r)⟩))
    (step_submitRequest env e { a with requestId := "b" } ⟨rfl, by decide +kernel⟩))
    (step_step env e')
  refine ⟨by decide +kernel, (cache_follows_batch (by decide) (by decide)
    (fun _ _ h => by cases h) hrun fun r req b h => ?_).2.2.2.2 (by decide +kernel)⟩
  simp only [List.nil_append, List.cons_append, List.mem_cons, Event.submitRequest.injEq,
    reduceCtorEq, List.not_mem_nil, or_false] at h
  rcases h with ⟨-, rfl, -⟩ | ⟨-, rfl, -⟩ <;> decide

end Engine

end ModelServing
