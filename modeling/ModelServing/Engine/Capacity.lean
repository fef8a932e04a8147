import ModelServing.Cache.Accounting
import ModelServing.Cache.TokenMap
import ModelServing.Engine.Load
import ModelServing.Engine.Stats

/-! How large the pool has to be. A seat of the batch takes the blocks of one prompt, and a sequence
    whose output could not be decoded keeps its blocks for good. With blocks for all of these nobody is
    evicted or rejected, whatever is submitted, cancelled or raised; with fewer than the seats need,
    a batch of long prompts is enough. -/

namespace ModelServing

/-- The blocks of a table are at most `need` on average. -/
theorem CacheManager.length_mapped_le {m : CacheManager} {need : ℕ}
    (h : ∀ k t, m.blockTables.get? k = some t → t.numBlocks ≤ need) :
    m.mapped.length ≤ m.blockTables.keys.length * need := by
  have hsum : (m.blockTables.values.map BlockTable.numBlocks).sum ≤ m.blockTables.values.length * need := by
    have hle := List.sum_le_card_nsmul (m.blockTables.values.map BlockTable.numBlocks) need fun x hx => ?_
    · rwa [List.length_map, smul_eq_mul] at hle
    · obtain ⟨t, ht, rfl⟩ := List.mem_map.mp hx
      obtain ⟨k, hk⟩ := OrderedDict.mem_values_iff.mp ht
      exact h k t hk
  rw [m.length_mapped]
  simpa [OrderedDict.values, OrderedDict.keys] using hsum

/-- A sequence that could not be decoded has left its blocks behind. -/
def Point.leaked : Point → ℕ
  | .ended (some .decode) => 1
  | _ => 0

namespace Engine

variable {env : Env} {e e' : Engine} {acc lost : List Ref} {p p' : Point} {limit numBlocks blockSize : ℕ}

/-- No prompt has more ids. -/
def PromptBound (env : Env) (limit : ℕ) : Prop :=
  ∀ i prompt ids, env.tokenizer i prompt 1024 = some ids → ids.length ≤ limit

/-! ### Inside a step -/

/-- The pool has only been used for the batch and for the requests of `lost`, which have left it without
    giving their blocks back. -/
structure Provided (limit numBlocks blockSize : ℕ) (acc lost : List Ref) (p : Point) (e : Engine) : Prop where
  owned : e.cacheManager.Owned
  complete : e.cacheManager.Complete
  unevicted : e.cacheManager.totalEvicted = 0
  small : ∀ k t, e.cacheManager.blockTables.get? k = some t → t.numBlocks ≤ limit ⌈/⌉ blockSize
  placed : ∀ k ∈ e.cacheManager.blockTables.keys, k ∈ e.activeSequences.keys ∨ ∃ r ∈ lost, e.scheduler.idOf r = k
  left : ∀ r ∈ lost, r ∈ acc ∧ r ∉ e.scheduler.pending ∧ r ∉ p.todo
  input : ∀ r ids todo, p = .placing r ids todo → ids.length ≤ limit
  numBlocks : e.cacheManager.numBlocks = numBlocks
  blockSize : e.cacheManager.blockSize = blockSize

namespace Provided

/-- The batch and the leaks say how many blocks are taken. -/
theorem mapped_le (P : Provided limit numBlocks blockSize acc lost p e) :
    e.cacheManager.mapped.length ≤ (e.batchSize + lost.length) * (limit ⌈/⌉ blockSize) := by
  have hsub : e.cacheManager.blockTables.keys.Subperm (e.activeSequences.keys ++ lost.map e.scheduler.idOf) := by
    refine (OrderedDict.keys_nodup _).subperm fun k hk => ?_
    rcases P.placed k hk with h | ⟨r, hr, rfl⟩
    · exact List.mem_append_left _ h
    · exact List.mem_append_right _ (List.mem_map_of_mem hr)
  have hlen := hsub.length_le
  rw [List.length_append, List.length_map, OrderedDict.length_keys e.activeSequences] at hlen
  exact (CacheManager.length_mapped_le P.small).trans (Nat.mul_le_mul_right _ hlen)

/-- With blocks for every seat an allocation succeeds. -/
theorem allocates (P : Provided limit numBlocks blockSize acc lost p e) (F : Fits p e)
    (hroom : (e.maxBatchSize.toNat + lost.length) * (limit ⌈/⌉ blockSize) ≤ numBlocks) {r : Ref} {todo : List Ref}
    {ids : List ℕ} (hp : p = .placing r ids todo) {err : CacheError} {cache : CacheManager} :
    e.allocate r ids.length ≠ (.error err, cache) := by
  intro ha
  have hneed : ids.length ⌈/⌉ blockSize ≤ limit ⌈/⌉ blockSize := by
    have hlen := P.input r ids todo hp
    simp only [Chunks.ceilDiv_eq]
    exact Nat.div_le_div_right (by omega)
  have hseat : e.batchSize + 1 + lost.length ≤ e.maxBatchSize.toNat + lost.length := by
    rw [Fits, hp] at F
    simp only [Point.todo, List.length_cons] at F
    omega
  have htotal := P.complete.free_add_mapped
  have hmapped := P.mapped_le
  have hall := (Nat.mul_le_mul_right (limit ⌈/⌉ blockSize) hseat).trans hroom
  rw [P.numBlocks] at htotal
  rw [Nat.add_right_comm, Nat.succ_mul] at hall
  obtain ⟨t, m, hok⟩ := (P.owned.allocateSequence_ok_iff (e.request r).requestId ids.length).mpr
    (by rw [P.blockSize]; omega)
  cases hok.symm.trans ha

/-- The cache and the batch are as before. -/
theorem same (P : Provided limit numBlocks blockSize acc lost p e) (hcache : e'.cacheManager = e.cacheManager)
    (hact : e'.activeSequences.keys = e.activeSequences.keys)
    (hid : ∀ x, e'.scheduler.idOf x = e.scheduler.idOf x)
    (hpend : ∀ r ∈ e'.scheduler.pending, r ∈ e.scheduler.pending)
    (htodo : ∀ r ∈ p'.todo, r ∈ e.scheduler.pending ∨ r ∈ p.todo)
    (hinput : ∀ r ids todo, p' = .placing r ids todo → ids.length ≤ limit) :
    Provided limit numBlocks blockSize acc lost p' e' where
  owned := hcache ▸ P.owned
  complete := hcache ▸ P.complete
  numBlocks := hcache ▸ P.numBlocks
  blockSize := hcache ▸ P.blockSize
  unevicted := hcache ▸ P.unevicted
  small := hcache ▸ P.small
  placed k hk := by
    rw [hcache] at hk
    rw [hact]
    exact (P.placed k hk).imp_right fun ⟨r, hr, h⟩ => ⟨r, hr, (hid r).trans h⟩
  left r hr := by
    obtain ⟨hacc, hp, ht⟩ := P.left r hr
    exact ⟨hacc, fun h => hp (hpend r h), fun h => (htodo r h).elim hp ht⟩
  input := hinput

/-- A request gets its blocks; none of the sequences in the pool has its id. -/
theorem place {r : Ref} {rs : List Ref} {ids : List ℕ} {t : BlockTable} {cache : CacheManager}
    (P : Provided limit numBlocks blockSize acc lost (.placing r ids rs) e) (B : Batch acc (.placing r ids rs) e)
    (ha : e.allocate r ids.length = (.ok t, cache)) :
    Provided limit numBlocks blockSize acc lost (.admitting rs) ((e.withCache cache).activate r ids) := by
  have A := P.owned.allocated ha
  obtain ⟨hacc, -, hkey⟩ := B.todo r List.mem_cons_self
  have hdead : e.cacheManager.blockTables.get? (e.scheduler.idOf r) = none := by
    refine OrderedDict.get?_eq_none_iff.mpr fun hk => ?_
    rcases P.placed _ hk with h | ⟨x, hx, hid⟩
    · exact hkey h
    · obtain ⟨hxacc, -, hxtodo⟩ := P.left x hx
      exact hxtodo (B.eq_of_id hxacc hacc hid ▸ List.mem_cons_self)
  have hcounted := e.cacheManager.allocateSequence_totalEvicted (e.request r).requestId ids.length
  rw [show e.cacheManager.allocateSequence _ _ = _ from ha] at hcounted
  refine ⟨A.owned, A.complete hdead P.complete, hcounted.trans P.unevicted, fun k t' ht => ?_, fun k hk => ?_,
    fun x hx => ?_, fun _ _ _ => Point.noConfusion, A.numBlocks.trans P.numBlocks, A.blockSize.trans P.blockSize⟩
  · change cache.blockTables.get? k = some t' at ht
    rw [A.tables] at ht
    split at ht
    · obtain rfl := Option.some.inj ht
      rw [A.numBlocks_table, P.blockSize]
      have hlen := P.input r ids rs rfl
      simp only [Chunks.ceilDiv_eq]
      exact Nat.div_le_div_right (by omega)
    · exact P.small k t' ht
  · obtain ⟨t', ht⟩ := OrderedDict.mem_keys_iff.mp hk
    change cache.blockTables.get? k = some t' at ht
    rw [A.tables] at ht
    by_cases hkr : k = e.scheduler.idOf r
    · exact Or.inl (mem_keys_activate.mpr (Or.inl hkr))
    · rw [if_neg (show k ≠ (e.request r).requestId from hkr)] at ht
      exact (P.placed k (OrderedDict.mem_keys_of_get? ht)).imp_left fun h => mem_keys_activate.mpr (Or.inr h)
  · obtain ⟨hxacc, hpend, htodo⟩ := P.left x hx
    exact ⟨hxacc, hpend, fun h => htodo (List.mem_cons_of_mem _ h)⟩

/-- A finished sequence gives its blocks back. -/
theorem finish {id text : String} {ids : List String} {q : SequenceState}
    (P : Provided limit numBlocks blockSize acc lost (.finishing (id :: ids)) e)
    (hid : ∀ x, (e.completed env id text q).scheduler.idOf x = e.scheduler.idOf x)
    (hpend : (e.completed env id text q).scheduler.pending = e.scheduler.pending) :
    Provided limit numBlocks blockSize acc lost (.finishing ids) (e.completed env id text q) := by
  obtain ⟨hnum, hsize⟩ := P.owned.freeSequence_dims id
  refine ⟨P.owned.freeSequence id, P.owned.complete_freeSequence P.complete id,
    (e.cacheManager.freeSequence_totalEvicted id).trans P.unevicted, fun k t ht => ?_, fun k hk => ?_,
    fun r hr => ?_, fun _ _ _ => Point.noConfusion, hnum.trans P.numBlocks, hsize.trans P.blockSize⟩
  · change (e.cacheManager.freeSequence id).blockTables.get? k = some t at ht
    rw [P.owned.get?_freeSequence] at ht
    split at ht
    · cases ht
    · exact P.small k t ht
  · obtain ⟨t, ht⟩ := OrderedDict.mem_keys_iff.mp hk
    change (e.cacheManager.freeSequence id).blockTables.get? k = some t at ht
    rw [P.owned.get?_freeSequence] at ht
    split at ht
    · cases ht
    · rename_i hne
      rcases P.placed k (OrderedDict.mem_keys_of_get? ht) with h | ⟨r, hr, h⟩
      · exact Or.inl (OrderedDict.mem_keys_erase.mpr ⟨hne, h⟩)
      · exact Or.inr ⟨r, hr, (hid r).trans h⟩
  · obtain ⟨hacc, hp, -⟩ := P.left r hr
    exact ⟨hacc, fun h => hp (hpend ▸ h), List.not_mem_nil⟩

/-- A sequence that cannot be decoded joins the lost. -/
theorem pop {id : String} {ids : List String} {q : SequenceState} {p' : Point} (hp' : p'.todo = [])
    (hplain : ∀ r ids todo, p' ≠ .placing r ids todo)
    (P : Provided limit numBlocks blockSize acc lost (.finishing (id :: ids)) e)
    (B : Batch acc (.finishing (id :: ids)) e) (hq : e.activeSequences.get? id = some q) :
    Provided limit numBlocks blockSize acc (q.request :: lost) p' (e.popped id) := by
  obtain ⟨hacc, hid, -⟩ := B.active id q hq
  refine ⟨P.owned, P.complete, P.unevicted, P.small, fun k hk => ?_, fun r hr => ?_,
    fun r ids todo h => absurd h (hplain r ids todo), P.numBlocks, P.blockSize⟩
  · by_cases hk' : k = id
    · exact Or.inr ⟨q.request, List.mem_cons_self, hid.trans hk'.symm⟩
    · rcases P.placed k hk with h | ⟨r, hr, h⟩
      · exact Or.inl (OrderedDict.mem_keys_erase.mpr ⟨hk', h⟩)
      · exact Or.inr ⟨r, List.mem_cons_of_mem _ hr, h⟩
  · rw [hp']
    rcases List.mem_cons.mp hr with rfl | hr
    · exact ⟨hacc, B.not_pending hq, List.not_mem_nil⟩
    · exact ⟨(P.left r hr).1, (P.left r hr).2.1, List.not_mem_nil⟩

/-- With blocks for every seat a change neither evicts nor rejects, and loses at most the sequence that
    cannot be decoded. -/
theorem micro {a : Action} (P : Provided limit numBlocks blockSize acc lost p e) (B : Batch acc p e) (F : Fits p e)
    (N : Leaving p e) (hbound : PromptBound env limit)
    (hroom : (e.maxBatchSize.toNat + lost.length) * (limit ⌈/⌉ blockSize) ≤ numBlocks)
    (h : Micro env (p, e) a (p', e')) :
    (∃ lost', lost'.length ≤ lost.length + p'.leaked ∧ Provided limit numBlocks blockSize acc lost' p' e') ∧
      (∀ v, a ≠ .evict v) ∧ ∀ r, a ≠ .reject r := by
  have hid : ∀ x, e'.scheduler.idOf x = e.scheduler.idOf x := h.stable _ RequestScheduler.stable_requestId
  have hpend : p ≠ .idle → e'.scheduler.pending = e.scheduler.pending := fun hp => pending_micro hp h
  have hquiet : (∀ v, (Action.quiet : Action) ≠ .evict v) ∧ ∀ r, (Action.quiet : Action) ≠ .reject r :=
    ⟨fun _ => Action.noConfusion, fun _ => Action.noConfusion⟩
  have hkeep : Provided limit numBlocks blockSize acc lost p' e' →
      ∃ lost', lost'.length ≤ lost.length + p'.leaked ∧ Provided limit numBlocks blockSize acc lost' p' e' :=
    fun P' => ⟨lost, Nat.le_add_right _ _, P'⟩
  cases h with
  | full _ | rest _ | done | raiseTokenizer _ | raiseModel _ _ =>
    exact ⟨hkeep (P.same rfl rfl hid (fun _ => id) (fun _ => by simp [Point.todo]) fun _ _ _ h => by cases h), hquiet⟩
  | raiseSampler _ _ hs =>
    obtain rfl := (Prod.mk.inj hs).2
    exact ⟨hkeep (P.same rfl rfl hid (fun _ => id) (fun _ => by simp [Point.todo]) fun _ _ _ h => by cases h), hquiet⟩
  | select _ _ =>
    have S := RequestScheduler.getNextBatch_selected B.ledger B.counted env.clock
    exact ⟨hkeep (P.same rfl rfl hid (S _).pending (fun r hr => Or.inl ((S _).started r hr).1)
      fun _ _ _ h => by cases h), hquiet⟩
  | @tokenize _ r rs inputIds ht =>
    refine ⟨hkeep (P.same rfl rfl hid (fun _ => id) (fun _ => Or.inr) fun r' ids todo heq => ?_), hquiet⟩
    cases heq
    exact hbound _ _ _ ht
  | place ha => exact ⟨hkeep (P.place B ha), hquiet⟩
  | evict ha _ | reject ha => exact absurd ha (P.allocates F hroom rfl)
  | append _ _ hs =>
    have A := appendAll_appended hs
    exact ⟨hkeep (P.same A.cacheManager A.keys hid (fun r hr => A.scheduler ▸ hr) (fun _ => Or.inr)
      fun _ _ _ h => by cases h), hquiet⟩
  | @raiseEvict _ _ _ _ err cache hv =>
    refine ⟨hkeep ?_, hquiet⟩
    rcases e.cacheManager.evictLru_cases with ⟨-, heq⟩ | ⟨w, -, -, ⟨-, heq⟩ | ⟨t, -, heq⟩⟩ <;> cases hv.symm.trans heq
    refine ⟨P.owned.of_eq rfl rfl rfl rfl rfl, P.complete, P.unevicted, P.small, P.placed, fun r hr => ?_,
      fun _ _ _ => Point.noConfusion, P.numBlocks, P.blockSize⟩
    exact ⟨(P.left r hr).1, (P.left r hr).2.1, List.not_mem_nil⟩
  | finish hf =>
    obtain ⟨-, text, -, rfl⟩ := finish_ok hf
    exact ⟨hkeep (P.finish hid (hpend Point.noConfusion)), fun _ => Action.noConfusion, fun _ => Action.noConfusion⟩
  | raiseFinish hf =>
    refine ⟨?_, hquiet⟩
    rcases finish_error hf with ⟨hnone, -, -⟩ | ⟨q, hq, -, rfl, rfl⟩
    · exact absurd (N.present _ List.mem_cons_self) (OrderedDict.get?_eq_none_iff.mp hnone)
    · exact ⟨q.request :: lost, le_rfl, P.pop rfl (fun _ _ _ => Point.noConfusion) B hq⟩

theorem step {res : Except StepError (List SequenceState)} (P : Provided limit numBlocks blockSize acc lost .idle e)
    (B : Batch acc .idle e) (F : Fits .idle e) (hbound : PromptBound env limit)
    (hroom : (e.maxBatchSize.toNat + lost.length) * (limit ⌈/⌉ blockSize) ≤ numBlocks)
    (halive : ∀ r ∈ acc, e.scheduler.statusOf r ≠ .FAILED) (h : e.step env = (res, e')) :
    (∃ lost', lost'.length ≤ lost.length + (land (.ended none) res).leaked ∧
      Provided limit numBlocks blockSize acc lost' .idle e') ∧
    ∀ r ∈ acc, e'.scheduler.statusOf r ≠ .FAILED := by
  obtain ⟨qs, ⟨as, hrun, -⟩, -⟩ := step_leads h
  have hend := hrun.always (I := fun c : Point × Engine => (∃ lost', lost'.length ≤ lost.length + c.1.leaked ∧
    Provided limit numBlocks blockSize acc lost' c.1 c.2) ∧ (Batch acc c.1 c.2 ∧ Fits c.1 c.2 ∧ Leaving c.1 c.2) ∧
    c.2.maxBatchSize = e.maxBatchSize ∧ ∀ r ∈ acc, c.2.scheduler.statusOf r ≠ .FAILED)
    ⟨⟨lost, le_rfl, P⟩, ⟨B, F, leaving_idle e⟩, rfl, halive⟩ ?_
  · obtain ⟨⟨lost', hlen, P'⟩, -, -, halive'⟩ := hend
    exact ⟨⟨lost', hlen, P'.same rfl rfl (fun _ => rfl) (fun _ => id) (fun _ h => absurd h List.not_mem_nil)
      fun _ _ _ => Point.noConfusion⟩, halive'⟩
  · rintro ⟨p, x⟩ a ⟨p', x'⟩ ⟨⟨lost', hlen, P⟩, ⟨B, F, N⟩, hmax, halive⟩ hm
    have hnone : p.leaked = 0 := by
      cases p with
      | ended err => exact absurd rfl (hm.not_ended err)
      | _ => rfl
    obtain ⟨F', hmax'⟩ := F.micro B hm
    have hlen' : lost'.length ≤ lost.length := by
      rw [hnone] at hlen
      exact hlen
    have hroom' : (x.maxBatchSize.toNat + lost'.length) * (limit ⌈/⌉ blockSize) ≤ numBlocks := by
      rw [show x.maxBatchSize = e.maxBatchSize from hmax]
      exact (Nat.mul_le_mul_right _ (Nat.add_le_add_left hlen' _)).trans hroom
    obtain ⟨⟨lost₁, hlen₁, P'⟩, hevict, hreject⟩ := P.micro B F N hbound hroom' hm
    refine ⟨⟨lost₁, hlen₁.trans (Nat.add_le_add_right hlen' _), P'⟩, ⟨B.micro hm, F', N.micro hm⟩, hmax'.trans hmax,
      fun r hr hf => ?_⟩
    rcases B.status_cases hm r with hsame | ⟨-, hr'⟩ | ⟨-, hr', -⟩ | ⟨-, ⟨v, hv⟩ | hv⟩ | ⟨hr', -⟩
    · exact halive r hr (hsame.symm.trans hf)
    · cases hf.symm.trans hr'
    · cases hf.symm.trans hr'
    · exact hevict v hv
    · exact hreject r hv
    · cases hf.symm.trans hr'

theorem submit (P : Provided limit numBlocks blockSize acc lost .idle e) (B : Batch acc .idle e)
    (req : ScheduledRequest) : Provided limit numBlocks blockSize
      (acc ++ e.scheduler.queued (e.submitRequest req).1) lost .idle (e.submitRequest req).2 := by
  have A := RequestScheduler.submitNew_added e.scheduler req
  refine ⟨P.owned, P.complete, P.unevicted, P.small, fun k hk => ?_, fun r hr => ?_,
    fun _ _ _ => Point.noConfusion, P.numBlocks, P.blockSize⟩
  · refine (P.placed k hk).imp_right fun ⟨r, hr, hid⟩ => ⟨r, hr, ?_⟩
    exact (A.idOf_old (B.ledger.lt_next r (P.left r hr).1)).trans hid
  · obtain ⟨hacc, hpend, -⟩ := P.left r hr
    refine ⟨List.mem_append_left _ hacc, fun h => ?_, List.not_mem_nil⟩
    have hp : r ∈ e.scheduler.pending ++ e.scheduler.queued (e.submitRequest req).1 := A.pending ▸ h
    rcases List.mem_append.mp hp with hp | hp
    · exact hpend hp
    · exact absurd (B.ledger.lt_next r hacc) (RequestScheduler.eq_of_mem_queued hp ▸ Nat.lt_irrefl _)

end Provided

/-! ### Runs -/

variable {maxQueueSize : ℤ} {defaultTimeout : ℚ} {policy : SchedulingPolicy} {evs : List Event}

/-- The step could not decode an output. -/
def Event.leaks : Event → Bool
  | .step (.error .decode) => true
  | _ => false

theorem Event.leaks_iff {ev : Event} : ev.leaks = true ↔ ev = .step (.error .decode) := by
  constructor
  · intro h
    unfold Event.leaks at h
    split at h
    · rfl
    · cases h
  · rintro rfl
    rfl

/-- No leak, no output that could not be decoded. -/
theorem leaks_eq_zero_iff : evs.countP Event.leaks = 0 ↔ Decoded evs := by
  rw [List.countP_eq_zero]
  exact ⟨fun h hmem => h _ hmem rfl, fun h ev hev hl => h (Event.leaks_iff.mp hl ▸ hev)⟩

theorem leaked_land (res : Except StepError (List SequenceState)) :
    (land (.ended none) res).leaked = [Event.step res].countP Event.leaks := by
  rcases res with (_ | _ | _ | _ | _ | _) | _ <;> rfl

/-- With blocks for every seat and for every leak, only the batch and the leaks hold blocks, and nobody
    has failed. -/
theorem provided_of_run (hbs : 0 < blockSize) {B : ℕ} (hbound : PromptBound env limit) (hrun : Trace.Run (Step env)
      (new B maxQueueSize defaultTimeout policy numBlocks blockSize) evs e)
    (hroom : (B + evs.countP Event.leaks) * (limit ⌈/⌉ blockSize) ≤ numBlocks) :
    (∃ lost, lost.length ≤ evs.countP Event.leaks ∧
      Provided limit numBlocks blockSize (accepted evs) lost .idle e) ∧
    ∀ r ∈ accepted evs, e.scheduler.statusOf r ≠ .FAILED := by
  have hinv := hrun.invariant (I := fun evs e => (B + evs.countP Event.leaks) * (limit ⌈/⌉ blockSize) ≤ numBlocks →
    (∃ lost, lost.length ≤ evs.countP Event.leaks ∧
      Provided limit numBlocks blockSize (accepted evs) lost .idle e) ∧
    ∀ r ∈ accepted evs, e.scheduler.statusOf r ≠ .FAILED) ?_ ?_
  · exact hinv hroom
  · refine fun _ => ⟨⟨[], le_rfl, ?_⟩, fun _ h => absurd h List.not_mem_nil⟩
    exact ⟨CacheManager.new_owned numBlocks hbs, CacheManager.new_complete numBlocks blockSize, rfl,
      fun _ _ h => (nomatch h), fun _ h => absurd h List.not_mem_nil, fun _ h => absurd h List.not_mem_nil,
      fun _ _ _ => Point.noConfusion, rfl, rfl⟩
  · intro evs e ev e' hr hi hst hroom
    have T := batch_of_run hr
    rw [List.countP_append] at hroom
    have hbefore : (B + evs.countP Event.leaks) * (limit ⌈/⌉ blockSize) ≤ numBlocks :=
      (Nat.mul_le_mul_right _ (by omega)).trans hroom
    obtain ⟨⟨lost, hlen, P⟩, halive⟩ := hi hbefore
    rw [accepted_append, List.countP_append]
    cases ev with
    | submitRequest r req b =>
      obtain ⟨hf, rfl, heq⟩ := hst
      obtain ⟨rfl, rfl⟩ := Prod.mk.inj heq
      have A := RequestScheduler.submitNew_added e.scheduler req
      rw [accepted_submitRequest]
      refine ⟨⟨lost, hlen, P.submit T req⟩, fun r hr hfail => ?_⟩
      rcases List.mem_append.mp hr with hr | hr
      · exact halive r hr ((A.statusOf_old (T.ledger.lt_next r hr)).symm.trans hfail)
      · rw [RequestScheduler.eq_of_mem_queued hr] at hfail
        cases (A.statusOf_next.trans hf.status).symm.trans hfail
    | cancelRequest k b =>
      obtain rfl := (Prod.mk.inj hst).2
      have K := T.ledger.kept_cancelRequest T.counted env.clock k
      rw [show accepted [Event.cancelRequest k b] = [] from rfl, List.append_nil]
      refine ⟨⟨lost, hlen, P.same rfl rfl K.ids ?_ (fun _ => Or.inr) fun _ _ _ => Point.noConfusion⟩,
        K.unfailed halive⟩
      exact (RequestScheduler.cancelRequest_frame env.clock e.scheduler k).1.subset
    | step res =>
      have hmax : e.maxBatchSize = B := (consistent_of_calls hbs (calls_of_run hr)).2.2
      have F : Fits .idle e := by
        have hfits := fits_of_run (Int.natCast_nonneg B) hr
        rw [Fits, hmax]
        simpa [Point.todo] using hfits
      rw [show accepted [Event.step res] = [] from rfl, List.append_nil]
      have hend := P.step T F hbound (by
        rw [hmax, Int.toNat_natCast]
        exact (Nat.mul_le_mul_right _ (Nat.add_le_add_left hlen B)).trans hbefore) halive hst
      obtain ⟨⟨lost', hlen', P'⟩, halive'⟩ := hend
      rw [leaked_land] at hlen'
      exact ⟨⟨lost', hlen'.trans (Nat.add_le_add_right hlen _), P'⟩, halive'⟩

/-! ### A pool that is too small -/

/-- Every prompt has `limit` ids. -/
def Env.lengthy (limit : ℕ) : Env :=
  { Env.rowwise fun _ => [.fin 0] with tokenizer := fun _ _ maxLength => some ((List.replicate limit 0).take maxLength) }

/-- A request whose id nobody with another number has. -/
def numbered (k : ℕ) : ScheduledRequest :=
  { requestId := String.ofList (List.replicate (k + 1) 'a'), prompt := "p", maxTokens := 1, temperature := 0, createdAt := 0 }

theorem numbered_inj {i j : ℕ} (h : (numbered i).requestId = (numbered j).requestId) : i = j := by
  have hlist := congrArg (fun s => s.toList.length) h
  simpa [numbered] using hlist

theorem numbered_ne_empty (k : ℕ) : (numbered k).requestId ≠ "" := fun h => by
  have hlist := congrArg (fun s => s.toList.length) h
  simp [numbered] at hlist

/-- A request with a timeout of its own is stored as it is. -/
theorem request_submitNew (s : RequestScheduler) {req : ScheduledRequest} (h : req.timeoutSeconds ≠ 0) :
    (s.submitNew req).2.request s.requests.next = req := by
  have hself : (s.requests.alloc req).get s.requests.next = req := ObjectHeap.get_alloc_self s.requests req
  rw [RequestScheduler.submitNew, RequestScheduler.submit]
  split
  · exact hself
  · have hmodify := ObjectHeap.get_modify_self (s.requests.alloc req) s.requests.next fun q => { q with
      timeoutSeconds := if q.timeoutSeconds ≠ 0 then q.timeoutSeconds else s.defaultTimeout }
    rw [hself, if_pos h] at hmodify
    exact hmodify

/-- The first `k` numbered requests wait, and nothing else has happened. -/
structure Waiting (B maxQueueSize : ℤ) (numBlocks blockSize k : ℕ) (e : Engine) : Prop where
  pending : e.scheduler.pending.length = k
  next : e.scheduler.requests.next = k
  request : ∀ r < k, e.request r = numbered r
  active : e.activeSequences.keys = []
  cacheManager : e.cacheManager = .new numBlocks blockSize
  maxBatchSize : e.maxBatchSize = B
  maxQueueSize : e.scheduler.maxQueueSize = maxQueueSize

/-- What is submitted has a name. -/
def Event.submission : Event → Prop
  | .submitRequest _ req _ => req.requestId ≠ ""
  | .cancelRequest _ _ | .step _ => False

theorem waiting_of_room (env : Env) (B : ℤ) : ∀ k : ℕ, (k : ℤ) ≤ maxQueueSize → ∃ evs e,
    Trace.Run (Step env) (new B maxQueueSize defaultTimeout policy numBlocks blockSize) evs e ∧
    (∀ ev ∈ evs, Event.submission ev) ∧ Waiting B maxQueueSize numBlocks blockSize k e
  | 0, _ => ⟨[], _, .nil, fun _ h => absurd h List.not_mem_nil, rfl, rfl, fun _ h => absurd h (Nat.not_lt_zero _),
      rfl, rfl, rfl, rfl⟩
  | k + 1, hk => by
      obtain ⟨evs, e, hrun, hsub, W⟩ := waiting_of_room env B k (by push_cast at hk; omega)
      have hf : RequestScheduler.Fresh e.scheduler (numbered k) := by
        refine ⟨rfl, fun r hr heq => ?_⟩
        rw [W.next] at hr
        have hid := W.request r hr
        rw [show e.scheduler.request r = numbered r from hid] at heq
        exact absurd (numbered_inj heq) (by omega)
      have A := RequestScheduler.submitNew_added e.scheduler (numbered k)
      have hlast : (e.submitRequest (numbered k)).2.request e.scheduler.requests.next = numbered k :=
        request_submitNew e.scheduler (by norm_num [numbered])
      refine ⟨_, _, hrun.snoc (step_submitRequest env e (numbered k) hf), fun ev hev => ?_, ?_, ?_, fun r hr => ?_,
        W.active, W.cacheManager, W.maxBatchSize, ?_⟩
      · rcases List.mem_append.mp hev with h | h
        · exact hsub ev h
        · rw [List.mem_singleton.mp h]
          exact numbered_ne_empty k
      · rcases RequestScheduler.submitNew_cases e.scheduler (numbered k) with ⟨hfull, -⟩ | ⟨-, t, heq⟩
        · rw [W.maxQueueSize, RequestScheduler.pendingCount, W.pending] at hfull
          push_cast at hk
          omega
        · change (e.scheduler.submitNew (numbered k)).2.pending.length = k + 1
          rw [heq]
          simp [W.pending]
      · exact A.next.trans (congrArg Nat.succ W.next)
      · rcases Nat.lt_succ_iff_lt_or_eq.mp hr with hr | rfl
        · exact (A.old r (W.next.symm ▸ hr)).trans (W.request r hr)
        · rw [W.next] at hlast
          exact hlast
      · exact A.rest.2.2.2.2.2.trans W.maxQueueSize

/-- Prompts of one length need so many blocks each. -/
theorem demand_of_length (h : ∀ i prompt, ∃ ids, env.tokenizer i prompt 1024 = some ids ∧ ids.length = limit)
    (e : Engine) : ∀ (rs : List Ref) (calls : ℕ),
    demand env e calls rs = rs.length * (limit ⌈/⌉ e.cacheManager.blockSize)
  | [], _ => by rw [demand, List.length_nil, Nat.zero_mul]
  | r :: rs, calls => by
      obtain ⟨ids, hids, hlen⟩ := h calls (e.request r).prompt
      rw [demand_cons hids, hlen, demand_of_length h e rs, List.length_cons, Nat.succ_mul, Nat.add_comm]

/-- If nobody times out, a selection takes as many as it may. -/
theorem length_selected {s : RequestScheduler} (L : RequestScheduler.Ledger acc s) (C : RequestScheduler.Counted s)
    {clock : ℕ → ℚ} (htimed : s.timedOut clock = []) (n : ℕ) :
    (s.getNextBatch clock n).1.length = min n s.pending.length := by
  have S := RequestScheduler.getNextBatch_selected L C clock n
  obtain ⟨-, live, hsub, hperm, hlen⟩ := RequestScheduler.getNextBatch_split clock s n
  have hall : s.pending.Subperm live := by
    refine L.pending_nodup.subperm fun r hr => hperm.mem_iff.mp (List.mem_append.mpr ?_)
    rcases S.outcome r hr with h | h | h
    · exact Or.inl h
    · exact Or.inr h
    · rw [htimed] at h
      exact absurd h List.not_mem_nil
  rw [hlen, Nat.le_antisymm hsub.length_le hall.length_le]

/-- A full batch of long prompts has no room. -/
theorem Waiting.not_spacious {B : ℕ} (W : Waiting B maxQueueSize numBlocks blockSize B e) (T : Batch acc .idle e)
    (hB : 0 < B) (hlimit : limit ≤ 1024) (hsmall : numBlocks < B * (limit ⌈/⌉ blockSize)) :
    ¬ Spacious (Env.lengthy limit) e := by
  intro hspacious
  have hempty : e.batchSize = 0 := batchSize_eq_zero_iff.mpr W.active
  have htimed : e.scheduler.timedOut (Env.lengthy limit).clock = [] := by
    rw [RequestScheduler.timedOut, List.map_eq_nil_iff, List.filter_eq_nil_iff]
    rintro ⟨r, i⟩ hr
    have hlt := T.ledger.lt_next r (T.ledger.pending r (List.fst_mem_of_mem_zipIdx hr)).1
    rw [show e.scheduler.request r = numbered r from W.request r (W.next ▸ hlt)]
    simp [ScheduledRequest.isTimedOut, numbered, Env.lengthy, Env.rowwise]
  have hlen := length_selected T.ledger T.counted htimed B
  have hroom := hspacious B (by rw [W.maxBatchSize, hempty]; simp) hB
  rw [demand_of_length (fun i prompt => ⟨_, rfl, ?_⟩), hlen, W.pending, Nat.min_self, W.cacheManager] at hroom
  · change B * (limit ⌈/⌉ blockSize) ≤ ((List.range numBlocks).reverse).length at hroom
    rw [List.length_reverse, List.length_range] at hroom
    omega
  · rw [List.length_take, List.length_replicate]
    exact Nat.min_eq_right hlimit

/-- A step that starts without room fails somebody, also if the model raises in it. -/
theorem failed_of_short {logits : List ℕ → List Logit} {tokenize : String → List ℕ}
    {res : Except StepError (List SequenceState)} (S : Answers env logits tokenize) (B : Batch acc .idle e)
    (Y : Synced numBlocks blockSize acc e) (U : Uncancelled e) (hR : ¬ Spacious env e) (h : e.step env = (res, e')) :
    (∃ r ∈ acc, e'.scheduler.statusOf r = .FAILED) ∧ res ≠ .error .decode := by
  obtain ⟨qs, ⟨as, hrun, -⟩, -⟩ := step_leads h
  have hend := hrun.always (I := fun c : Point × Engine => (Batch acc c.1 c.2 ∧
    Synced numBlocks blockSize acc c.2 ∧ Uncancelled c.2) ∧ c.1 ≠ .ended (some .decode) ∧
    (c = (.idle, e) ∨ c.1 ≠ .idle ∧ ((∃ r ∈ acc, c.2.scheduler.statusOf r = .FAILED) ∨ Short env c.1 c.2)))
    ⟨⟨B, Y, U⟩, Point.noConfusion, Or.inl rfl⟩ ?_
  · obtain ⟨-, hdecode, hend | ⟨-, hshort⟩⟩ := hend
    · cases res <;> cases hend
    · refine ⟨hshort.resolve_right fun h => ?_, fun hres => hdecode (by rw [hres]; rfl)⟩
      cases res <;> exact absurd h (Nat.not_lt_zero _)
  · rintro ⟨p, x⟩ a ⟨p', x'⟩ ⟨⟨B, Y, U⟩, -, hl⟩ hm
    have hne := S.micro_ne hm
    have hp' : p' ≠ .idle := by rintro rfl; cases hm
    refine ⟨⟨B.micro hm, Y.micro B hm hne, U.micro B hm⟩, hne, Or.inr ⟨hp', ?_⟩⟩
    rcases hl with heq | ⟨hp, ⟨r, hr, hf⟩ | hs⟩
    · cases heq
      exact Or.inr (short_of_not_spacious hR hm)
    · have hlost : Lost x r := Or.inr hf
      have hsame := (B.frozen hm hlost.terminal (hlost.out U)).1
      exact Or.inl ⟨r, hr, (congrArg ScheduledRequest.status hsame).trans hf⟩
    · refine hs.micro hp B Y hm fun err herr => ?_
      subst herr
      cases hm with
      | raiseTokenizer ht => cases ht.symm.trans (S.tokenizer _ _)
      | raiseEvict hv =>
        obtain ⟨v, hv, hdead⟩ := CacheManager.evictLru_error hv
        exact absurd ((Y.tables v).mpr ((Y.order v).mp hv)) (OrderedDict.get?_eq_none_iff.mp hdead)
      | raiseModel _ _ | raiseSampler _ _ _ | raiseFinish _ => exact absurd hs (Nat.not_lt_zero _)

theorem promptBound_lengthy (limit : ℕ) : PromptBound (Env.lengthy limit) limit := by
  intro i prompt ids h
  obtain rfl := Option.some.inj h
  exact (List.length_take_le' _ _).trans (List.length_replicate ..).le

theorem answers_lengthy (limit : ℕ) : Answers (Env.lengthy limit) (fun _ => [.fin 0])
    fun _ => (List.replicate limit 0).take 1024 :=
  ⟨fun _ _ => rfl, fun _ _ => rfl, fun _ _ _ => Option.some_ne_none _⟩

/-- CORRECT: `B` seats need the blocks of `B` longest prompts, no more and no less. With these, and those
    of one more prompt for every output that could not be decoded, nobody is ever evicted or fails for
    lack of memory, whatever is submitted under new ids, cancelled or raised, and only the batch and the
    undecoded outputs hold blocks. With fewer, somebody fails when `B` longest prompts arrive at once. -/
theorem pool_suffices {B : ℕ} (hbs : 0 < blockSize) :
    (∀ env evs e, PromptBound env limit → Trace.Run (Step env)
        (new B maxQueueSize defaultTimeout policy numBlocks blockSize) evs e →
      (B + evs.countP Event.leaks) * (limit ⌈/⌉ blockSize) ≤ numBlocks →
      e.getStats.cache.totalEvictions = 0 ∧ (∀ r ∈ accepted evs, e.scheduler.statusOf r ≠ .FAILED) ∧
      e.getStats.cache.allocatedBlocks ≤
        (e.getStats.activeBatchSize + evs.countP Event.leaks) * (limit ⌈/⌉ blockSize)) ∧
    (limit ≤ 1024 → (B : ℤ) ≤ maxQueueSize → numBlocks < B * (limit ⌈/⌉ blockSize) →
      ∃ env evs e, PromptBound env limit ∧ Trace.Run (Step env)
        (new B maxQueueSize defaultTimeout policy numBlocks blockSize) evs e ∧ evs.countP Event.leaks = 0 ∧
      ∃ r ∈ accepted evs, e.scheduler.statusOf r = .FAILED) := by
  refine ⟨fun env evs e hbound hrun hroom => ?_, fun hlimit hqueue hsmall => ?_⟩
  · obtain ⟨⟨lost, hlen, P⟩, halive⟩ := provided_of_run hbs hbound hrun hroom
    refine ⟨P.unevicted, halive, ?_⟩
    have htotal := P.complete.free_add_mapped
    have hmapped := P.mapped_le.trans (Nat.mul_le_mul_right _ (Nat.add_le_add_left hlen e.batchSize))
    change e.cacheManager.numBlocks - e.cacheManager.numFreeBlocks ≤
      (e.batchSize + evs.countP Event.leaks) * (limit ⌈/⌉ blockSize)
    omega
  · obtain ⟨evs, e, hrun, hsub, W⟩ : ∃ evs e, Trace.Run (Step (Env.lengthy limit))
        (new B maxQueueSize defaultTimeout policy numBlocks blockSize) evs e ∧
        (∀ ev ∈ evs, Event.submission ev) ∧ Waiting B maxQueueSize numBlocks blockSize B e :=
      waiting_of_room (Env.lengthy limit) B B hqueue
    have hname : Named evs := fun r req b h => hsub _ h
    have hcalm : ∀ ev ∈ evs, Calm ev := fun ev hev => by
      have hev := hsub ev hev
      cases ev with
      | submitRequest _ _ _ => trivial
      | cancelRequest _ _ | step _ => exact absurd hev id
    have hdec : Decoded evs := (quiet_of_calm hcalm).benign.decoded
    have T := batch_of_run hrun
    have hB : 0 < B := Nat.pos_of_ne_zero fun h => by simp [h] at hsmall
    obtain ⟨hfail, hdecode⟩ := failed_of_short (answers_lengthy limit) T (synced_of_run hbs hrun hname hdec)
      (stuck_of_run hbs hrun hname hcalm).1 (W.not_spacious T hB hlimit hsmall) rfl
    refine ⟨Env.lengthy limit, _, _, promptBound_lengthy limit, hrun.snoc (step_step (Env.lengthy limit) e), ?_, ?_⟩
    · refine leaks_eq_zero_iff.mpr fun h => ?_
      rcases List.mem_append.mp h with h | h
      · exact hdec h
      · exact hdecode (Event.step.inj (List.mem_singleton.mp h)).symm
    · rw [accepted_append, show accepted [Event.step (e.step (Env.lengthy limit)).1] = [] from rfl, List.append_nil]
      exact hfail

/-- Two seats and prompts of two blocks each: four blocks are enough, and three are not. -/
theorem pool_suffices_two :
    let env := Env.lengthy 3
    let e₁ := ((new (2 : ℕ) 8 60 .fcfs 4 2).submitRequest (numbered 0)).2
    let e₂ := (e₁.submitRequest (numbered 1)).2
    ((e₂.step env).2.getStats.cache.totalEvictions = 0 ∧ (e₂.step env).2.scheduler.statusOf 1 ≠ .FAILED) ∧
    ∃ env evs e, PromptBound env 3 ∧ Trace.Run (Step env) (new (2 : ℕ) 8 60 .fcfs 3 2) evs e ∧
      evs.countP Event.leaks = 0 ∧ ∃ r ∈ accepted evs, e.scheduler.statusOf r = .FAILED := by
  intro env e₁ e₂
  have hrun := Trace.Run.snoc (.snoc (.snoc .nil
    (step_submitRequest env (new (2 : ℕ) 8 60 .fcfs 4 2) (numbered 0) ⟨rfl, fun r hr => absurd hr (Nat.not_lt_zero r)⟩))
    (step_submitRequest env e₁ (numbered 1) ⟨rfl, by decide +kernel⟩)) (step_step env e₂)
  obtain ⟨hunevicted, halive, -⟩ := (pool_suffices (by decide)).1 env _ _ (promptBound_lengthy 3) hrun
    (by decide +kernel)
  exact ⟨⟨hunevicted, halive 1 (by decide +kernel)⟩,
    (pool_suffices (by decide)).2 (by decide) (by decide) (by decide)⟩

end Engine

end ModelServing
