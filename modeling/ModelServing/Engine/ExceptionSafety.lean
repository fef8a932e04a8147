import ModelServing.Engine.CacheAgreement

/-! What an exception inside a step leaves behind. As long as only the model or the sampler raises, no
    running request is lost, a sequence has blocks exactly while it is in the batch, and no finished
    sequence stays there. An exception of the tokenizer loses the request it was called for, one of
    the decoder leaves blocks without a sequence. -/

namespace ModelServing

/-- The exceptions that lose nothing. -/
def StepError.Benign (err : StepError) : Prop := err = .model ∨ err = .sampler

namespace Engine

variable {env : Env} {e e' : Engine} {acc : List Ref} {p p' : Point} {numBlocks blockSize : ℕ}
  {k : String}

/-- The tokens of a sequence so far end neither in EOS nor at the limit. -/
def Unspent (env : Env) (maxTokens : ℕ) (q : SequenceState) : Prop :=
  (∀ t ∈ q.generatedIds, some t ≠ env.eosTokenId) ∧
    (q.generatedIds = [] ∨ q.generatedIds.length < maxTokens)

theorem Unspent.append {n t : ℕ} {q : SequenceState} (h : Unspent env n q)
    (hf : (q.append env.eosTokenId n t).isFinished = false) :
    Unspent env n (q.append env.eosTokenId n t) := by
  have hnot := mt (SequenceState.append_isFinished env.eosTokenId n t q).mpr (by simp [hf])
  push Not at hnot
  obtain ⟨-, ht, hlen⟩ := hnot
  rw [Unspent, SequenceState.append_generatedIds]
  refine ⟨fun x hx => ?_, Or.inr (by simpa using hlen)⟩
  rcases List.mem_append.mp hx with hx | hx
  · exact h.1 x hx
  · rw [List.mem_singleton.mp hx]; exact ht

/-- While `r` runs it is selected or in the batch. -/
def Aboard (r : Ref) (p : Point) (e : Engine) : Prop :=
  e.scheduler.statusOf r = .RUNNING →
    r ∈ p.todo ∨ ∃ k q, e.activeSequences.get? k = some q ∧ q.request = r

/-- Running requests are selected or active, and finished sequences are about to be removed. -/
structure Lossless (env : Env) (acc : List Ref) (p : Point) (e : Engine) : Prop where
  running : ∀ r ∈ acc, Aboard r p e
  finished : ∀ k q, e.activeSequences.get? k = some q → q.isFinished = true → k ∈ p.toFinish
  unspent : ∀ k q, e.activeSequences.get? k = some q → q.isFinished = false →
    Unspent env (e.request q.request).maxTokens q
  toFinish_nodup : p.toFinish.Nodup
  toFinish : ∀ k ∈ p.toFinish, k ∈ e.activeSequences.keys

/-! ### One request -/

namespace Aboard

variable {r : Ref}

/-- A sequence leaves the batch, and its request does not run any more. -/
theorem erase (R : Aboard r p e) {q : SequenceState} (hq : e.activeSequences.get? k = some q)
    (hact : e'.activeSequences = e.activeSequences.erase k)
    (hgone : e'.scheduler.statusOf q.request ≠ .RUNNING)
    (hrun : ∀ x, x ≠ q.request → e'.scheduler.statusOf x = e.scheduler.statusOf x)
    (htodo : p'.todo = p.todo) : Aboard r p' e' := by
  intro hst
  have hne : r ≠ q.request := fun h => hgone (h ▸ hst)
  rw [hrun r hne] at hst
  rcases R hst with h | ⟨k', q', hq', rfl⟩
  · exact Or.inl (htodo ▸ h)
  · refine Or.inr ⟨k', q', ?_, rfl⟩
    have hk : k' ≠ k := fun h => by
      subst h
      cases hq.symm.trans hq'
      exact hne rfl
    rw [hact, OrderedDict.get?_erase_of_ne _ hk, hq']

theorem select (R : Aboard r .idle e) (B : Batch acc .idle e) (n : ℕ) :
    Aboard r (.admitting (e.scheduler.getNextBatch env.clock n).1)
      { e with scheduler := (e.scheduler.getNextBatch env.clock n).2 } := by
  intro hst
  have S := RequestScheduler.getNextBatch_selected B.ledger B.counted env.clock n
  by_cases hp : r ∈ e.scheduler.pending
  · rcases S.outcome r hp with hb | hp' | ht
    · exact Or.inl hb
    · have := (S.ledger.pending r hp').2
      exact absurd (hst.symm.trans this) (by decide)
    · exact absurd (hst.symm.trans (S.expired r ht).2.1) (by decide)
  · have hst' : e.scheduler.statusOf r = .RUNNING := (S.touches.status hp).symm.trans hst
    exact Or.inr ((R hst').resolve_left List.not_mem_nil)

theorem place {x : Ref} {rs : List Ref} {inputIds : List ℕ} (R : Aboard r (.placing x inputIds rs) e)
    (B : Batch acc (.placing x inputIds rs) e) (cache : CacheManager) :
    Aboard r (.admitting rs) ((e.withCache cache).activate x inputIds) := by
  intro hst
  have hnew := (B.todo x List.mem_cons_self).2.2
  have hget := get?_activate e cache x inputIds
  rcases R hst with h | ⟨k, q, hq, rfl⟩
  · rcases List.mem_cons.mp h with rfl | h
    · exact Or.inr ⟨e.scheduler.idOf r, { request := r, inputIds := inputIds },
        by rw [hget, if_pos rfl], rfl⟩
    · exact Or.inl h
  · refine Or.inr ⟨k, q, ?_, rfl⟩
    have hk : k ≠ e.scheduler.idOf x := fun h => hnew (h ▸ OrderedDict.mem_keys_of_get? hq)
    rw [hget, if_neg hk, hq]

theorem append {logits : List (List (List Logit))} (R : Aboard r (.admitting []) e)
    (A : Appended env logits e e') : Aboard r (.finishing e'.finishedIds) e' := by
  intro hst
  rw [A.scheduler] at hst
  obtain ⟨k, q, hq, rfl⟩ := (R hst).resolve_left List.not_mem_nil
  have hk : k ∈ e'.activeSequences.keys := A.keys ▸ OrderedDict.mem_keys_of_get? hq
  obtain ⟨q', hq'⟩ := OrderedDict.mem_keys_iff.mp hk
  obtain ⟨q₀, t, hq₀, rfl⟩ := A.get_old hq'
  cases hq.symm.trans hq₀
  exact Or.inr ⟨k, _, hq', SequenceState.append_request ..⟩

/-- Whoever is failed does not run. -/
theorem fail (R : Aboard r p e) (env : Env) (x : Ref) (error : String)
    (htodo : ∀ y ∈ p.todo, y ≠ x → y ∈ p'.todo) : Aboard r p' (e.fail env x error) := by
  intro hst
  have hne : r ≠ x := fun h => by
    subst h
    exact absurd (hst.symm.trans (RequestScheduler.statusOf_fail env.clock error e.scheduler r)) (by decide)
  have T := RequestScheduler.touches_fail env.clock error e.scheduler x
  exact (R ((T.status hne).symm.trans hst)).imp (fun h => htodo r h hne) id

/-- The request of a finished sequence does not run any more. -/
theorem finished {id : String} {q : SequenceState} (B : Batch acc p e)
    (hq : e.activeSequences.get? id = some q) (text : String) :
    (e.completed env id text q).scheduler.statusOf q.request ≠ .RUNNING ∧
      ∀ x, x ≠ q.request → (e.completed env id text q).scheduler.statusOf x = e.scheduler.statusOf x := by
  obtain ⟨hacc, hid, -⟩ := B.active id q hq
  rcases B.ledger.completeRequest_cases B.counted env.clock id text q.generatedIds.length with
    ⟨hnone, heq⟩ | ⟨r, hr, M, -⟩
  · -- the request was cancelled meanwhile
    refine ⟨fun h => ?_, fun x _ => congrArg (fun s => RequestScheduler.statusOf s x) heq⟩
    have h' : e.scheduler.statusOf q.request = .RUNNING :=
      (congrArg (fun s => RequestScheduler.statusOf s q.request) heq).symm.trans h
    have := B.ledger.running_of_status hacc h'
    rw [hid, hnone] at this
    cases this
  · obtain ⟨hacc', hid', -⟩ := B.ledger.running id r hr
    obtain rfl : r = q.request := B.eq_of_id hacc' hacc (hid'.trans hid.symm)
    refine ⟨fun h => ?_, fun x hx => M.others x hx⟩
    rcases M.status with hst | hst <;> exact absurd (hst.symm.trans h) (by decide)

/-- A change that does not raise loses nobody; nor does an exception of the model or the sampler. -/
theorem micro {a : Action} (R : Aboard r p e) (B : Batch acc p e) (h : Micro env (p, e) a (p', e'))
    (ht : p' ≠ .ended (some .tokenizer)) (hd : p' ≠ .ended (some .decode))
    (hc : ∀ err, p' ≠ .ended (some (.cache err))) : Aboard r p' e' := by
  cases h with
  | full _ | rest _ | done | raiseModel _ _ => exact R
  | raiseSampler _ _ hs =>
    obtain rfl := (Prod.mk.inj hs).2
    exact R
  | select _ _ => exact R.select B _
  | tokenize _ => exact fun hst => R ((statusOf_tokenized ..).symm.trans hst)
  | place _ => exact R.place B _
  | @evict _ _ _ _ _ v cache _ _ =>
    rcases dropEvicted_cases env (e.withCache cache) v with ⟨heq, -⟩ | ⟨q, -, hq, heq⟩ <;> rw [heq]
    · exact R
    · have hfail := RequestScheduler.statusOf_fail env.clock "Evicted due to memory pressure"
        e.scheduler q.request
      have T := RequestScheduler.touches_fail env.clock "Evicted due to memory pressure"
        e.scheduler q.request
      exact R.erase hq rfl (fun h => absurd (hfail.symm.trans h) (by decide)) (fun x hx => T.status hx) rfl
  | reject _ => exact R.fail env _ _ fun y hy hne => (List.mem_cons.mp hy).resolve_left hne
  | append _ _ hs => exact R.append (appendAll_appended hs)
  | finish hf =>
    obtain ⟨hq, text, -, rfl⟩ := finish_ok hf
    obtain ⟨hgone, hrun⟩ := finished B hq text
    exact R.erase hq rfl hgone hrun rfl
  | raiseTokenizer _ => exact absurd rfl ht
  | raiseEvict _ => exact absurd rfl (hc _)
  | raiseFinish hf =>
    rcases finish_error hf with ⟨-, -, rfl⟩ | ⟨q, -, -, rfl, -⟩
    · exact R
    · exact absurd rfl hd

/-- Between steps it is enough that `r` does not start running. -/
theorem idle (R : Aboard r .idle e) (hact : e'.activeSequences = e.activeSequences)
    (hrun : e'.scheduler.statusOf r = .RUNNING → e.scheduler.statusOf r = .RUNNING) :
    Aboard r .idle e' := fun hst => hact ▸ R (hrun hst)

theorem submit (R : Aboard r .idle e) (hlt : r < e.scheduler.requests.next) (req : ScheduledRequest) :
    Aboard r .idle (e.submitRequest req).2 :=
  R.idle rfl fun hst => ((RequestScheduler.submitNew_added e.scheduler req).statusOf_old hlt).symm.trans hst

theorem cancel (R : Aboard r .idle e) (B : Batch acc .idle e) (env : Env) (k : String) :
    Aboard r .idle (e.cancelRequest env k).2 := by
  rcases B.cancelRequest_cases env k with ⟨heq, -⟩ | ⟨x, -, -, -, -, -, hcan, T, -⟩
  · rw [show (e.cancelRequest env k).2 = e from congrArg Prod.snd heq]
    exact R
  · refine R.idle rfl fun hst => ?_
    have hne : r ≠ x := fun h => absurd (hst.symm.trans (h ▸ hcan)) (by decide)
    exact (T.status hne).symm.trans hst

theorem step {done : List SequenceState} (R : Aboard r .idle e) (B : Batch acc .idle e)
    (h : e.step env = (.ok done, e')) : Aboard r .idle e' := by
  obtain ⟨qs, ⟨as, hrun, -⟩, -⟩ := step_leads h
  have hend := Micro.run_of (G := fun p => ∀ err, p ≠ .ended (some err))
    (I := fun c => Batch acc c.1 c.2 ∧ Aboard r c.1 c.2) (fun p hp err => hp (some err))
    (fun c a c' ⟨B, R⟩ hm hg => ⟨B.micro hm, R.micro B hm (hg _) (hg _) fun err => hg _⟩) hrun
    ⟨B, R⟩ fun err => by rintro ⟨⟩
  exact hend.2

end Aboard

/-! ### The batch -/

namespace Lossless

/-- Nothing is lost while the batch is the same and nobody is lost. -/
theorem congr (L : Lossless env acc p e) (hrun : ∀ r ∈ acc, Aboard r p' e')
    (hact : e'.activeSequences = e.activeSequences)
    (hmax : ∀ x, (e'.request x).maxTokens = (e.request x).maxTokens)
    (hfinish : p'.toFinish = p.toFinish) : Lossless env acc p' e' where
  running := hrun
  finished := by rw [hact, hfinish]; exact L.finished
  unspent := fun k q hq hf => hmax _ ▸ L.unspent k q (hact ▸ hq) hf
  toFinish_nodup := hfinish ▸ L.toFinish_nodup
  toFinish := by rw [hact, hfinish]; exact L.toFinish

/-- A sequence leaves the batch. -/
theorem erase (L : Lossless env acc p e) (hrun : ∀ r ∈ acc, Aboard r p' e')
    (hact : e'.activeSequences = e.activeSequences.erase k)
    (hmax : ∀ x, (e'.request x).maxTokens = (e.request x).maxTokens)
    (hfinish : p'.toFinish = p.toFinish.erase k) : Lossless env acc p' e' where
  running := hrun
  finished := by
    intro k' q' hq' hf
    rw [hact, OrderedDict.get?_erase] at hq'
    split at hq'
    · cases hq'
    · rw [hfinish, L.toFinish_nodup.mem_erase_iff]
      exact ⟨‹_›, L.finished k' q' hq' hf⟩
  unspent := by
    intro k' q' hq' hf
    rw [hact, OrderedDict.get?_erase] at hq'
    split at hq'
    · cases hq'
    · exact hmax _ ▸ L.unspent k' q' hq' hf
  toFinish_nodup := hfinish ▸ L.toFinish_nodup.erase k
  toFinish := by
    intro k' hk'
    rw [hfinish, L.toFinish_nodup.mem_erase_iff] at hk'
    rw [hact]
    exact OrderedDict.mem_keys_erase.mpr ⟨hk'.1, L.toFinish k' hk'.2⟩

theorem place {r : Ref} {rs : List Ref} {inputIds : List ℕ} (L : Lossless env acc (.placing r inputIds rs) e)
    (B : Batch acc (.placing r inputIds rs) e) (cache : CacheManager) :
    Lossless env acc (.admitting rs) ((e.withCache cache).activate r inputIds) := by
  have hget := get?_activate e cache r inputIds
  refine ⟨fun x hx => (L.running x hx).place B cache, fun k q hq hf => ?_, fun k q hq hf => ?_,
    List.nodup_nil, fun _ h => absurd h List.not_mem_nil⟩
  · rw [hget] at hq
    split at hq
    · cases hq; cases hf
    · exact L.finished k q hq hf
  · rw [hget] at hq
    split at hq
    · cases hq
      exact ⟨fun _ h => absurd h List.not_mem_nil, Or.inl rfl⟩
    · exact L.unspent k q hq hf

theorem append {logits : List (List (List Logit))} (L : Lossless env acc (.admitting []) e)
    (A : Appended env logits e e') : Lossless env acc (.finishing e'.finishedIds) e' := by
  have hreq : ∀ x, e'.request x = e.request x := fun x => by rw [request, request, A.scheduler]
  refine ⟨fun r hr => (L.running r hr).append A, fun k q hq hf => mem_finishedIds.mpr ⟨q, hq, hf⟩,
    fun k q' hq' hf => ?_, finishedIds_nodup e', fun k hk => ?_⟩
  · obtain ⟨q, t, hq, rfl⟩ := A.get_old hq'
    have hq_f : q.isFinished = false := by
      by_contra hne
      exact absurd (L.finished k q hq (by simpa using hne)) List.not_mem_nil
    rw [hreq, SequenceState.append_request]
    exact (L.unspent k q hq hq_f).append hf
  · obtain ⟨q, hq, -⟩ := mem_finishedIds.mp hk
    exact OrderedDict.mem_keys_of_get? hq

/-- Without evictions, a change loses nothing unless the tokenizer, the decoder or the cache manager
    raises. -/
theorem micro_of {a : Action} (L : Lossless env acc p e) (B : Batch acc p e)
    (h : Micro env (p, e) a (p', e')) (hevict : ∀ v, a ≠ .evict v)
    (ht : p' ≠ .ended (some .tokenizer)) (hd : p' ≠ .ended (some .decode))
    (hc : ∀ err, p' ≠ .ended (some (.cache err))) : Lossless env acc p' e' := by
  have hmax : ∀ x, (e'.request x).maxTokens = (e.request x).maxTokens :=
    h.stable _ RequestScheduler.stable_maxTokens
  have hrun : ∀ r ∈ acc, Aboard r p' e' := fun r hr => (L.running r hr).micro B h ht hd hc
  cases h with
  | full _ | rest _ | done | raiseModel _ _ | select _ _ | tokenize _ | reject _ =>
    exact L.congr hrun rfl hmax rfl
  | raiseSampler _ _ hs =>
    obtain rfl := (Prod.mk.inj hs).2
    exact L.congr hrun rfl hmax rfl
  | place _ => exact L.place B _
  | evict _ _ => exact absurd rfl (hevict _)
  | append _ _ hs => exact L.append (appendAll_appended hs)
  | @finish _ _ id ids q hf =>
    obtain ⟨-, text, -, rfl⟩ := finish_ok hf
    exact L.erase hrun rfl hmax (List.erase_cons_head id ids).symm
  | raiseTokenizer _ => exact absurd rfl ht
  | raiseEvict _ => exact absurd rfl (hc _)
  | @raiseFinish _ _ id ids _ hf =>
    rcases finish_error hf with ⟨hnone, -, -⟩ | ⟨q, -, -, rfl, -⟩
    · exact absurd (L.toFinish id List.mem_cons_self) (OrderedDict.get?_eq_none_iff.mp hnone)
    · exact absurd rfl hd

/-- Every change inside a step loses nothing, unless the tokenizer or the decoder raises. -/
theorem micro {a : Action} (L : Lossless env acc p e) (B : Batch acc p e)
    (S : Synced numBlocks blockSize acc e) (h : Micro env (p, e) a (p', e'))
    (ht : p' ≠ .ended (some .tokenizer)) (hd : p' ≠ .ended (some .decode)) :
    Lossless env acc p' e' := by
  have hmax : ∀ x, (e'.request x).maxTokens = (e.request x).maxTokens :=
    h.stable _ RequestScheduler.stable_maxTokens
  have hother := L.micro_of B h
  have hrun : (∀ err, p' ≠ .ended (some (.cache err))) → ∀ r ∈ acc, Aboard r p' e' :=
    fun hc r hr => (L.running r hr).micro B h ht hd hc
  cases h with
  | evict _ hv =>
    replace hrun := hrun fun err => Point.noConfusion
    obtain ⟨q, -, heq, -⟩ := S.evict_cases B env hv
    rw [heq] at hmax hrun ⊢
    exact L.erase hrun rfl hmax rfl
  | raiseEvict hv =>
    obtain ⟨v, hv, hdead⟩ := CacheManager.evictLru_error hv
    exact absurd ((S.tables v).mpr ((S.order v).mp hv)) (OrderedDict.get?_eq_none_iff.mp hdead)
  | raiseSampler _ _ hs =>
    refine hother (fun v h => by cases h) ht hd fun err h => ?_
    cases h
    cases sampleTokens_error hs
  | raiseFinish hf =>
    refine hother (fun v h => by cases h) ht hd fun err h => ?_
    cases h
    rcases finish_error hf with ⟨-, herr, -⟩ | ⟨q, -, -, herr, -⟩ <;> cases herr
  | _ => exact hother (fun v h => by cases h) ht hd fun err h => by cases h

/-- Between steps it is enough that nobody is lost. -/
theorem idle (L : Lossless env acc .idle e) {acc' : List Ref} (hrun : ∀ r ∈ acc', Aboard r .idle e')
    (hact : e'.activeSequences = e.activeSequences)
    (hmax : ∀ k q, e.activeSequences.get? k = some q →
      (e'.request q.request).maxTokens = (e.request q.request).maxTokens) : Lossless env acc' .idle e' where
  running := hrun
  finished := hact ▸ L.finished
  unspent := fun k q hq hf => hmax k q (hact ▸ hq) ▸ L.unspent k q (hact ▸ hq) hf
  toFinish_nodup := L.toFinish_nodup
  toFinish := fun _ h => absurd h List.not_mem_nil

theorem submit (L : Lossless env acc .idle e) (B : Batch acc .idle e) {req : ScheduledRequest}
    (hf : RequestScheduler.Fresh e.scheduler req) :
    Lossless env (acc ++ e.scheduler.queued (e.submitRequest req).1) .idle
      (e.submitRequest req).2 := by
  have A := RequestScheduler.submitNew_added e.scheduler req
  refine L.idle (fun x hx => ?_) rfl fun k q hq => ?_
  · rcases List.mem_append.mp hx with hx | hx
    · exact (L.running x hx).submit (B.ledger.lt_next x hx) req
    · intro hst
      rw [RequestScheduler.eq_of_mem_queued hx] at hst
      exact absurd ((A.statusOf_next.trans hf.status).symm.trans hst) (by decide)
  · exact congrArg _ (A.old _ (B.ledger.lt_next _ (B.active k q hq).1))

/-- The next step starts where this one ended. -/
theorem ended {err : Option StepError} (L : Lossless env acc (.ended err) e) :
    Lossless env acc .idle e := L.congr L.running rfl (fun _ => rfl) rfl

/-- A step that returns, or raises in the model or the sampler, loses nothing. -/
theorem step {res : Except StepError (List SequenceState)} (L : Lossless env acc .idle e)
    (B : Batch acc .idle e) (S : Synced numBlocks blockSize acc e) (h : e.step env = (res, e'))
    (hres : ∀ err, res = .error err → err.Benign) : Lossless env acc .idle e' := by
  obtain ⟨qs, ⟨as, hrun, -⟩, -⟩ := step_leads h
  have hend := Micro.run_of (G := fun p => p ≠ .ended (some .tokenizer) ∧ p ≠ .ended (some .decode))
    (I := fun c => Batch acc c.1 c.2 ∧ Synced numBlocks blockSize acc c.2 ∧ Lossless env acc c.1 c.2)
    (fun p hp => ⟨hp _, hp _⟩) (fun c a c' ⟨B, S, L⟩ hm hg =>
      ⟨B.micro hm, S.micro B hm hg.2, L.micro B S hm hg.1 hg.2⟩) hrun ⟨B, S, L⟩ ?_
  · cases res <;> exact hend.2.2.ended
  · cases res with
    | ok _ => constructor <;> intro hend <;> cases hend
    | error err =>
      rcases hres err rfl with rfl | rfl <;> constructor <;> intro hend <;> cases hend

end Lossless

/-! ### Runs -/

variable {maxBatchSize maxQueueSize : ℤ} {defaultTimeout : ℚ} {policy : SchedulingPolicy}
  {evs : List Event}

/-- No step of the run has raised, unless in the model or the sampler. -/
def Benign (evs : List Event) : Prop := ∀ err, .step (.error err) ∈ evs → err.Benign

theorem Benign.decoded (h : Benign evs) : Decoded evs := fun hmem => by
  rcases h _ hmem with h | h <;> cases h

/-- No step of the run has raised. -/
def Quiet (evs : List Event) : Prop := ∀ err, .step (.error err) ∉ evs

theorem Quiet.benign (h : Quiet evs) : Benign evs := fun err hmem => absurd hmem (h err)

theorem lossless_step {ev : Event} (L : Lossless env (accepted evs) .idle e)
    (B : Batch (accepted evs) .idle e) (S : Synced numBlocks blockSize (accepted evs) e)
    (hst : Step env e ev e') (hben : Benign [ev]) :
    Lossless env (accepted (evs ++ [ev])) .idle e' := by
  rw [accepted_append]
  cases ev with
  | submitRequest r req b =>
    obtain ⟨hf, rfl, heq⟩ := hst
    obtain ⟨rfl, rfl⟩ := Prod.mk.inj heq
    rw [accepted_submitRequest]
    exact L.submit B hf
  | cancelRequest k b =>
    rw [show accepted [Event.cancelRequest k b] = [] from rfl, List.append_nil]
    obtain rfl : (e.cancelRequest env k).2 = e' := congrArg Prod.snd hst
    obtain ⟨-, -, hstable⟩ := RequestScheduler.cancelRequest_frame env.clock e.scheduler k
    exact L.idle (fun x hx => (L.running x hx).cancel B env k) rfl
      fun _ q _ => hstable _ RequestScheduler.stable_maxTokens q.request
  | step res =>
    rw [show accepted [Event.step res] = [] from rfl, List.append_nil]
    exact L.step B S hst fun err herr => hben err (herr ▸ List.mem_cons_self)

/-- Nothing is lost in runs in which at most the model and the sampler raise. -/
theorem lossless_of_run (hbs : 0 < blockSize) (hrun : Trace.Run (Step env)
    (new maxBatchSize maxQueueSize defaultTimeout policy numBlocks blockSize) evs e)
    (hname : Named evs) (hben : Benign evs) : Lossless env (accepted evs) .idle e := by
  have hinv : Named evs → Benign evs → Lossless env (accepted evs) .idle e := by
    refine hrun.invariant (I := fun evs e =>
      Named evs → Benign evs → Lossless env (accepted evs) .idle e) (fun _ _ => ?_) ?_
    · exact ⟨fun _ h => absurd h List.not_mem_nil, fun _ _ h => (nomatch h), fun _ _ h => (nomatch h),
        List.nodup_nil, fun _ h => absurd h List.not_mem_nil⟩
    · intro evs e ev e' hr hi hst hname hben
      have hleft : ∀ x ∈ evs, x ∈ evs ++ [ev] := fun _ => List.mem_append_left _
      have hname' : Named evs := fun r req b h => hname r req b (hleft _ h)
      have hben' : Benign evs := fun err h => hben err (hleft _ h)
      exact lossless_step (hi hname' hben') (batch_of_run hr)
        (synced_of_run hbs hr hname' hben'.decoded) hst
        fun err h => hben err (List.mem_append_right _ h)
  exact hinv hname hben

/-! ### After an exception -/

/-- What a step should leave behind that raises: every accepted request is accounted for, a sequence
    has blocks exactly while it is in the batch, and nothing in the batch has ended. -/
structure Safe (env : Env) (acc : List Ref) (e : Engine) : Prop where
  accounted : ∀ r ∈ acc, (e.scheduler.statusOf r).terminal = true ∨ r ∈ e.scheduler.pending ∨
    ∃ k q, e.activeSequences.get? k = some q ∧ q.request = r
  blocks : ∀ k, k ∈ e.cacheManager.blockTables.keys ↔ k ∈ e.activeSequences.keys
  unfinished : ∀ k q, e.activeSequences.get? k = some q →
    q.isFinished = false ∧ Unspent env (e.request q.request).maxTokens q

theorem Lossless.safe (L : Lossless env acc .idle e) (B : Batch acc .idle e)
    (S : Synced numBlocks blockSize acc e) : Safe env acc e := by
  refine ⟨fun r hr => ?_, S.tables, fun k q hq => ?_⟩
  · cases hst : e.scheduler.statusOf r with
    | PENDING => exact Or.inr (Or.inl (B.ledger.pending_of_status hr hst))
    | RUNNING => exact Or.inr (Or.inr ((L.running r hr hst).resolve_left List.not_mem_nil))
    | COMPLETED | CANCELLED | FAILED => exact Or.inl rfl
  · have hf : q.isFinished = false := by
      by_contra hne
      exact absurd (L.finished k q hq (by simpa using hne)) List.not_mem_nil
    exact ⟨hf, L.unspent k q hq hf⟩

/-- A request whose tokenizer call raised is neither queued nor in the batch, and one whose output
    could not be decoded leaves its blocks behind. -/
theorem benign_of_safe {c : Point × Engine} {a : Action} {err : StepError} (B : Batch acc c.1 c.2)
    (S : Synced numBlocks blockSize acc c.2) (L : Lossless env acc c.1 c.2)
    (hm : Micro env c a (.ended (some err), e')) (h : Safe env acc e') : err.Benign := by
  cases hm with
  | raiseTokenizer ht =>
    obtain ⟨hacc, hst, -⟩ := B.todo _ List.mem_cons_self
    rcases h.accounted _ hacc with hterm | hp | ⟨k, q, hq, hreq⟩
    · exact absurd (hst ▸ hterm : RequestStatus.RUNNING.terminal = true) (by decide)
    · exact absurd hp (B.todo_not_pending List.mem_cons_self)
    · exact absurd hreq (B.todo_ne_active List.mem_cons_self hq)
  | raiseEvict hv =>
    obtain ⟨v, hv, hdead⟩ := CacheManager.evictLru_error hv
    exact absurd ((S.tables v).mpr ((S.order v).mp hv)) (OrderedDict.get?_eq_none_iff.mp hdead)
  | raiseModel _ _ => exact Or.inl rfl
  | raiseSampler _ _ hs => exact Or.inr (sampleTokens_error hs)
  | @raiseFinish _ _ id ids _ hf =>
    rcases finish_error hf with ⟨hnone, -, -⟩ | ⟨q, hq, -, -, rfl⟩
    · exact absurd (L.toFinish id List.mem_cons_self) (OrderedDict.get?_eq_none_iff.mp hnone)
    · have hmem := (h.blocks id).mp ((S.tables id).mpr (OrderedDict.mem_keys_of_get? hq))
      exact absurd rfl (OrderedDict.mem_keys_erase.mp hmem).1

/-- CORRECT: after any run with distinct non-empty ids in which at most the model and the sampler
    have raised, a step that raises leaves a safe state if and only if it is the model or the sampler
    again that raises. -/
theorem exception_safe_iff (hbs : 0 < blockSize) (hrun : Trace.Run (Step env)
      (new maxBatchSize maxQueueSize defaultTimeout policy numBlocks blockSize) evs e)
    (hname : Named evs) (hben : Benign evs) {err : StepError}
    (hstep : e.step env = (.error err, e')) :
    Safe env (accepted evs) e' ↔ err = .model ∨ err = .sampler := by
  have B := batch_of_run hrun
  have S := synced_of_run hbs hrun hname hben.decoded
  have L := lossless_of_run hbs hrun hname hben
  have hst : Step env e (.step (.error err)) e' := hstep
  constructor
  · intro hsafe
    obtain ⟨qs, ⟨as, hmicro, -⟩, -⟩ := step_leads hstep
    cases hmicro with
    | snoc hr hm =>
      have h := Micro.run_of (G := fun p => ∀ err, p ≠ .ended err)
        (I := fun c => Batch (accepted evs) c.1 c.2 ∧
          Synced numBlocks blockSize (accepted evs) c.2 ∧ Lossless env (accepted evs) c.1 c.2)
        (fun p hp => hp) (fun c a c' ⟨B, S, L⟩ hm hg =>
          ⟨B.micro hm, S.micro B hm (hg _), L.micro B S hm (hg _) (hg _)⟩) hr ⟨B, S, L⟩ hm.not_ended
      exact benign_of_safe h.1 h.2.1 h.2.2 hm hsafe
  · intro hb
    have hben' : Benign [.step (.error err)] := fun err' h => by
      cases List.mem_singleton.mp h
      exact hb
    have hacc : accepted (evs ++ [.step (.error err)]) = accepted evs := by
      rw [accepted_append]; exact List.append_nil _
    have L' := lossless_step L B S hst hben'
    have B' := batch_step B hst
    have S' := synced_step S B hst (fun r req b h => by simp at h) hben'.decoded
    rw [hacc] at L' B' S'
    exact L'.safe B' S'

/-- The model raises in the first step: the request stays in the batch with its blocks. -/
theorem exception_safe_iff_model :
    let env := { Env.rowwise (fun _ => [.fin 0]) with model := fun _ _ => none }
    let req : ScheduledRequest := { requestId := "a", prompt := "p", createdAt := 0 }
    let e := ((new 1 8 60 .fcfs 4 2).submitRequest req).2
    (e.step env).2.activeSequences.keys = ["a"] ∧ Safe env [0] (e.step env).2 := by
  intro env req e
  have hrun : Trace.Run (Step env) (new 1 8 60 .fcfs 4 2) [.submitRequest 0 req true] e :=
    .snoc .nil ⟨⟨rfl, fun r hr => absurd hr (Nat.not_lt_zero r)⟩, rfl, rfl⟩
  have hstep : e.step env = (.error .model, (e.step env).2) :=
    Prod.ext (by decide +kernel) rfl
  refine ⟨by decide +kernel, (exception_safe_iff (by decide) hrun (fun r req' b h => ?_)
    (fun err h => by simp at h) hstep).mpr (Or.inl rfl)⟩
  simp only [List.mem_singleton, Event.submitRequest.injEq] at h
  rw [h.2.1]
  decide

/-- A tokenizer that raises loses the request, a decoder that raises leaks its blocks. -/
theorem not_exception_safe :
    let tokenizerRaises := { Env.rowwise (fun _ => [.fin 0]) with tokenizer := fun _ _ _ => none }
    let decodeRaises := { Env.rowwise (fun _ => [.fin 0]) with decode := fun _ _ _ => none }
    let req : ScheduledRequest :=
      { requestId := "a", prompt := "p", maxTokens := 1, temperature := 0, createdAt := 0 }
    let e := ((new 1 8 60 .fcfs 4 2).submitRequest req).2
    (∀ env, Trace.Run (Step env) (new 1 8 60 .fcfs 4 2) [.submitRequest 0 req true] e) ∧
    ((e.step tokenizerRaises).1 = .error .tokenizer ∧
      ¬ Safe tokenizerRaises [0] (e.step tokenizerRaises).2) ∧
    ((e.step decodeRaises).1 = .error .decode ∧
      ¬ Safe decodeRaises [0] (e.step decodeRaises).2) := by
  intro envT envD req e
  refine ⟨fun env => .snoc .nil ⟨⟨rfl, fun r hr => absurd hr (Nat.not_lt_zero r)⟩, rfl, rfl⟩,
    ⟨by decide +kernel, fun h => ?_⟩, ⟨by decide +kernel, fun h => ?_⟩⟩
  · rcases h.accounted 0 List.mem_cons_self with h | h | ⟨k, q, hq, -⟩
    · exact absurd h (by decide +kernel)
    · exact absurd h (by decide +kernel)
    · have hnil : (e.step envT).2.activeSequences.keys = [] := by decide +kernel
      exact absurd (hnil ▸ OrderedDict.mem_keys_of_get? hq) List.not_mem_nil
  · exact absurd ((h.blocks "a").mp (by decide +kernel)) (by decide +kernel)

end Engine

end ModelServing
