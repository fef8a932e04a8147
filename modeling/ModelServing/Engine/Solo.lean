import ModelServing.Engine.Rest
import ModelServing.Engine.Stats

/-! One request at a time. A step never adds to the load of the engine, so after a submission to an idle
    engine the batch never has more than one sequence: nothing is evicted, and every iteration makes
    exactly one token. -/

namespace ModelServing

namespace RequestScheduler

variable {clock : ℕ → ℚ}

theorem foldl_expire_totalSubmitted (rs : List Ref) (s : RequestScheduler) :
    (rs.foldl (expire clock) s).totalSubmitted = s.totalSubmitted := by
  induction rs generalizing s with
  | nil => rfl
  | cons r rs ih => exact ih (s.expire clock r)

theorem foldl_startRunning_totalSubmitted (rs : List Ref) (s : RequestScheduler) :
    (rs.foldl (startRunning clock) s).totalSubmitted = s.totalSubmitted := by
  induction rs generalizing s with
  | nil => rfl
  | cons r rs ih => exact ih (s.startRunning clock r)

theorem getNextBatch_totalSubmitted (s : RequestScheduler) (n : ℕ) :
    (s.getNextBatch clock n).2.totalSubmitted = s.totalSubmitted := by
  obtain ⟨queue, -, -, heq⟩ := getNextBatch_eq clock s n
  rw [heq]
  exact (foldl_startRunning_totalSubmitted _ _).trans (foldl_expire_totalSubmitted _ _)

theorem completeRequest_totalSubmitted (s : RequestScheduler) (k text : String) (n : ℕ) :
    (s.completeRequest clock k text n).totalSubmitted = s.totalSubmitted := by
  unfold completeRequest
  split <;> rfl

end RequestScheduler

namespace Engine

variable {env : Env} {e e₁ e' : Engine} {acc : List Ref} {p p' : Point} {r r₁ : Ref} {name : String}
  {qs done d : List SequenceState} {numBlocks blockSize : ℕ}

/-! ### The load -/

/-- How many requests are queued, selected or in the batch. -/
def load (p : Point) (e : Engine) : ℕ := e.scheduler.pending.length + p.todo.length + e.batchSize

/-- No change adds to the load, and finishing a sequence takes from it. -/
theorem load_micro {a : Action} (B : Batch acc p e) (h : Micro env (p, e) a (p', e')) :
    load p' e' + (Action.finished [a]).length ≤ load p e := by
  have hpend : p ≠ .idle → e'.scheduler.pending = e.scheduler.pending := fun hp => pending_micro hp h
  have hleave : ∀ id, (e.activeSequences.erase id).size ≤ e.batchSize := fun id => OrderedDict.size_erase_le _ _
  cases h with
  | full _ | rest _ | done | tokenize _ => exact le_rfl
  | raiseModel _ _ => exact le_rfl
  | @raiseTokenizer _ _ rs _ | @raiseEvict _ _ rs _ _ _ _ =>
    change e.scheduler.pending.length + 0 + e.batchSize + 0 ≤ e.scheduler.pending.length + (rs.length + 1) + e.batchSize
    omega
  | raiseSampler _ _ hs =>
    obtain rfl := (Prod.mk.inj hs).2
    exact le_rfl
  | @select _ n _ _ =>
    obtain ⟨-, live, hsub, hperm, -⟩ := RequestScheduler.getNextBatch_split env.clock e.scheduler n
    have hlen := hperm.length_eq
    have hle := hsub.length_le
    rw [List.length_append] at hlen
    change (e.scheduler.getNextBatch env.clock n).2.pending.length +
      (e.scheduler.getNextBatch env.clock n).1.length + e.batchSize + 0 ≤ e.scheduler.pending.length + 0 + e.batchSize
    omega
  | @place _ r rs inputIds t cache _ =>
    have hsize : ((e.withCache cache).activate r inputIds).batchSize ≤ e.batchSize + 1 :=
      OrderedDict.size_insert_le _ _ _
    change e.scheduler.pending.length + rs.length + ((e.withCache cache).activate r inputIds).batchSize + 0 ≤
      e.scheduler.pending.length + (rs.length + 1) + e.batchSize
    omega
  | @evict _ r rs _ _ v cache _ _ =>
    have hsize := (dropEvicted_batchSize_le env (e.withCache cache) v).1
    change _ ≤ e.batchSize at hsize
    rw [load, load, hpend Point.noConfusion]
    exact Nat.add_le_add_left hsize _
  | @reject _ _ rs _ _ _ =>
    change e.scheduler.pending.length + rs.length + e.batchSize + 0 ≤
      e.scheduler.pending.length + (rs.length + 1) + e.batchSize
    omega
  | append _ _ hs =>
    have A := appendAll_appended hs
    rw [load, load, A.scheduler, batchSize, ← OrderedDict.length_keys, A.keys, OrderedDict.length_keys]
    exact le_rfl
  | @finish _ _ id _ q hf =>
    obtain ⟨hq, text, -, rfl⟩ := finish_ok hf
    have hsize := OrderedDict.size_erase_of_get? hq
    rw [load, load, hpend Point.noConfusion]
    change e.scheduler.pending.length + 0 + (e.activeSequences.erase id).size + 1 ≤
      e.scheduler.pending.length + 0 + e.activeSequences.size
    omega
  | @raiseFinish _ _ id _ _ hf =>
    rcases finish_error hf with ⟨-, -, rfl⟩ | ⟨q, -, -, -, rfl⟩
    · exact le_rfl
    · exact Nat.add_le_add_left (hleave id) _

theorem totalSubmitted_micro {a : Action} (h : Micro env (p, e) a (p', e')) :
    e'.scheduler.totalSubmitted = e.scheduler.totalSubmitted := by
  cases h with
  | full _ | rest _ | done | tokenize _ | place _ | reject _ | raiseTokenizer _ | raiseEvict _ | raiseModel _ _ => rfl
  | raiseSampler _ _ hs =>
    obtain rfl := (Prod.mk.inj hs).2
    rfl
  | select _ _ => exact RequestScheduler.getNextBatch_totalSubmitted _ _
  | evict _ _ =>
    rcases dropEvicted_cases env (e.withCache _) _ with ⟨heq, -⟩ | ⟨q, -, -, heq⟩ <;> rw [heq] <;> rfl
  | append _ _ hs => rw [(appendAll_appended hs).scheduler]
  | finish hf | raiseFinish hf =>
    rcases finish_cases hf with ⟨-, -, rfl⟩ | ⟨q, -, ⟨-, -, rfl⟩ | ⟨text, -, -, rfl⟩⟩
    · rfl
    · rfl
    · exact RequestScheduler.completeRequest_totalSubmitted _ _ _ _

/-! ### A single request -/

/-- What is known inside a loop that began with the one request `r`, called `name`, as long as nothing is
    raised: `qs` were finished before the loop, and `done` in it. -/
structure Lone (env : Env) (numBlocks blockSize : ℕ) (acc : List Ref) (r : Ref) (name : String)
    (qs done : List SequenceState) (p : Point) (e : Engine) : Prop where
  batch : Batch acc p e
  synced : Synced numBlocks blockSize acc e
  tallied : Tallied True True (qs ++ done) p e
  fits : Fits p e
  leaving : Leaving p e
  load : Engine.load p e + done.length ≤ 1
  only : ∀ x, Holds p e x → x = r
  named : e.scheduler.idOf r = name
  paced : e.totalIterations = e.totalTokensGenerated
  unevicted : e.cacheManager.totalEvicted = 0
  submitted : e.scheduler.totalSubmitted = acc.length
  settled : ∀ q ∈ done, q.request = r ∧ Settled env e q

namespace Lone

/-- Nobody can be evicted to make room for the only request. -/
theorem not_evict {ids : List ℕ} {rs : List Ref} {v : String} {cache : CacheManager}
    (L : Lone env numBlocks blockSize acc r name qs done (.placing r₁ ids rs) e) :
    e.cacheManager.evictLru ≠ (.ok (some v), cache) := by
  intro hv
  have hload := L.load
  rw [Engine.load, show (Point.placing r₁ ids rs).todo = r₁ :: rs from rfl, List.length_cons] at hload
  have hkeys : e.activeSequences.keys = [] := batchSize_eq_zero_iff.mp (by omega)
  have hmem := (L.synced.order v).mp (L.synced.owned.evicted hv).1
  rw [hkeys] at hmem
  exact List.not_mem_nil hmem

/-- A change either leaves the counters of tokens and iterations alone, or it is the iteration of a
    batch of one. -/
theorem counters {a : Action} (L : Lone env numBlocks blockSize acc r name qs done p e)
    (h : Micro env (p, e) a (p', e')) (hp' : ∀ err, p' ≠ .ended (some err)) :
    e'.totalIterations = e'.totalTokensGenerated ∧ e'.cacheManager.totalEvicted = 0 := by
  cases h with
  | full _ | select _ _ | tokenize _ | reject _ | rest _ | done => exact ⟨L.paced, L.unevicted⟩
  | @place _ r rs inputIds t cache ha =>
    have hcache := e.cacheManager.allocateSequence_totalEvicted (e.request r).requestId inputIds.length
    rw [show e.cacheManager.allocateSequence _ _ = _ from ha] at hcache
    exact ⟨L.paced, hcache.trans L.unevicted⟩
  | evict _ hv => exact absurd hv L.not_evict
  | append hne _ hs =>
    obtain ⟨htokens, hiter, -⟩ := appendAll_totals hs
    have hpos : 0 < e.batchSize := batchSize_pos_iff.mpr hne
    have hload := L.load
    rw [Engine.load] at hload
    have hpaced := L.paced
    refine ⟨by omega, ?_⟩
    rw [(appendAll_appended hs).cacheManager]
    exact L.unevicted
  | finish hf =>
    obtain ⟨-, text, -, rfl⟩ := finish_ok hf
    exact ⟨L.paced, (CacheManager.freeSequence_totalEvicted _ _).trans L.unevicted⟩
  | raiseTokenizer _ | raiseEvict _ | raiseModel _ _ | raiseSampler _ _ _ | raiseFinish _ => exact absurd rfl (hp' _)

theorem micro {a : Action} (L : Lone env numBlocks blockSize acc r name qs done p e)
    (h : Micro env (p, e) a (p', e')) (hp' : ∀ err, p' ≠ .ended (some err)) :
    Lone env numBlocks blockSize acc r name qs (done ++ Action.finished [a]) p' e' := by
  obtain ⟨hpaced, hevicted⟩ := L.counters h hp'
  refine ⟨L.batch.micro h, L.synced.micro L.batch h (hp' _), ?_, (L.fits.micro L.batch h).1, L.leaving.micro h, ?_,
    fun x hx => L.only x (hx.micro h), (h.stable _ RequestScheduler.stable_requestId r).trans L.named, hpaced,
    hevicted, (totalSubmitted_micro h).trans L.submitted, fun q hq => ?_⟩
  · rw [← List.append_assoc]
    exact L.tallied.micro L.batch L.fits L.leaving h
  · have hload := load_micro L.batch h
    have hbefore := L.load
    rw [List.length_append]
    omega
  · rcases List.mem_append.mp hq with hq | hq
    · exact (L.settled q hq).imp_right fun S => S.micro L.batch h
    · cases h with
      | finish hf =>
        obtain rfl := List.mem_singleton.mp hq
        exact ⟨L.only _ (Holds.of_active (finish_ok hf).1), (L.batch.settled hf).2⟩
      | _ => exact absurd hq List.not_mem_nil

theorem step (L : Lone env numBlocks blockSize acc r name qs done .idle e) (h : e.step env = (.ok d, e')) :
    Lone env numBlocks blockSize acc r name qs (done ++ d) .idle e' := by
  obtain ⟨fs, ⟨as, hmicro, rfl⟩, hdone⟩ := step_leads h
  have hinv := hmicro.invariant (I := fun as c => (∀ err, c.1 ≠ .ended (some err)) →
    Lone env numBlocks blockSize acc r name qs (done ++ Action.finished as) c.1 c.2) ?_ ?_
  · have L' : Lone env numBlocks blockSize acc r name qs (done ++ Action.finished as) (.ended none) e' :=
      hinv fun err h => by cases h
    rw [hdone d rfl] at L'
    exact ⟨L.batch.step h, L'.synced, L'.tallied.landed, L'.fits, leaving_idle e', L'.load,
      fun x hx => L'.only x (hx.of_idle _), L'.named, L'.paced, L'.unevicted, L'.submitted, L'.settled⟩
  · intro _
    rwa [show done ++ Action.finished [] = done from List.append_nil done]
  · rintro as ⟨p, e⟩ a ⟨p', e'⟩ - hi hm hp'
    rw [Action.finished_append, ← List.append_assoc]
    exact (hi fun err => hm.not_ended _).micro hm hp'

theorem loop : ∀ (n : ℕ) {e e' : Engine} {done d : List SequenceState},
    Lone env numBlocks blockSize acc r name qs done .idle e → runLoop env n e = (.ok d, e') →
    Lone env numBlocks blockSize acc r name qs (done ++ d) .idle e'
  | 0, e, e', done, d, L, h => by
      cases h
      rwa [List.append_nil]
  | n + 1, e, e', done, d, L, h => by
      obtain ⟨d, e₁, hs, ⟨-, rfl, rfl⟩ | ⟨-, rest, hl, rfl⟩⟩ := runLoop_succ h
      · exact L.step hs
      · rw [← List.append_assoc]
        exact Lone.loop n (L.step hs) hl

end Lone

/-! ### One after another -/

/-- What is known of an engine between the requests, if none has raised: `qs` were finished. -/
structure Books (numBlocks blockSize : ℕ) (acc : List Ref) (qs : List SequenceState) (e : Engine) : Prop where
  straight : Straight (qs.map SequenceState.request) acc e
  synced : Synced numBlocks blockSize acc e
  tallied : Tallied True True qs .idle e
  paced : e.totalIterations = e.totalTokensGenerated
  unevicted : e.cacheManager.totalEvicted = 0
  submitted : e.scheduler.totalSubmitted = acc.length

namespace Books

variable {maxBatchSize maxQueueSize : ℤ} {defaultTimeout : ℚ} {policy : SchedulingPolicy} {req : ScheduledRequest}

theorem new (hbs : 0 < blockSize) :
    Books numBlocks blockSize [] [] (new maxBatchSize maxQueueSize defaultTimeout policy numBlocks blockSize) :=
  ⟨new_straight, new_synced hbs, new_tallied, rfl, rfl, rfl⟩

theorem ticked (K : Books numBlocks blockSize acc qs e) : Books numBlocks blockSize acc qs e.ticked := by
  have T := K.straight
  refine ⟨⟨T.batch.ticked, ⟨T.uncancelled.running, T.uncancelled.tally⟩, T.reported, T.errors⟩,
    K.synced.congr (fun _ => rfl) rfl fun _ => Iff.rfl, ?_, K.paced, K.unevicted, K.submitted⟩
  exact K.tallied.same (fun _ => Point.noConfusion) rfl rfl rfl rfl rfl id

/-- A request that is accepted by an engine at rest is alone in it. -/
theorem submit (K : Books numBlocks blockSize acc qs e) (R : AtRest e) (hmax : 0 ≤ e.maxBatchSize)
    (hf : RequestScheduler.Fresh e.scheduler req) (hname : req.requestId ≠ "") (herr : req.error = none)
    (hs : e.submitRequest req = (true, e₁)) :
    Straight (qs.map SequenceState.request) (acc ++ [e.scheduler.requests.next]) e₁ ∧
    Lone env numBlocks blockSize (acc ++ [e.scheduler.requests.next]) e.scheduler.requests.next req.requestId qs []
      .idle e₁ := by
  have A := RequestScheduler.submitNew_added e.scheduler req
  have T := K.straight.submit hf herr
  have S := K.synced.submit K.straight.batch hname
  have hqueued : e.scheduler.queued (e.submitRequest req).1 = [e.scheduler.requests.next] := by
    rw [hs]
    rfl
  have hsched : (e.submitRequest req).2 = { e with scheduler := (e.scheduler.submitNew req).2 } := rfl
  rw [hqueued] at T S
  rw [show e.scheduler.queued (e.scheduler.submitNew req).1 = [e.scheduler.requests.next] from hqueued] at A
  rw [hs] at T S hsched
  subst hsched
  have hempty : e.batchSize = 0 := batchSize_eq_zero_iff.mpr R.active
  have hpending : (e.scheduler.submitNew req).2.pending = [e.scheduler.requests.next] := by
    rw [A.pending, R.pending, List.nil_append]
  refine ⟨T, T.batch, S, ?_, ?_, leaving_idle _, ?_, ?_, A.idOf_next, K.paced, K.unevicted, ?_,
    fun q hq => absurd hq List.not_mem_nil⟩
  · rw [List.append_nil]
    exact K.tallied.same (fun _ => Point.noConfusion) rfl rfl rfl rfl rfl id
  · change (e.batchSize : ℤ) + 0 ≤ e.maxBatchSize
    rwa [hempty]
  · change (e.scheduler.submitNew req).2.pending.length + 0 + e.batchSize + 0 ≤ 1
    rw [hpending, hempty, List.length_singleton]
  · rintro x (hx | hx | ⟨k, q, hq, -⟩)
    · change x ∈ (e.scheduler.submitNew req).2.pending at hx
      rw [hpending] at hx
      exact List.mem_singleton.mp hx
    · exact absurd hx List.not_mem_nil
    · have hk := OrderedDict.mem_keys_of_get? (show e.activeSequences.get? k = some q from hq)
      rw [R.active] at hk
      exact absurd hk List.not_mem_nil
  · change (e.scheduler.submitNew req).2.totalSubmitted = _
    rw [A.totalSubmitted, K.submitted, List.length_append]

end Books

theorem Lone.books (L : Lone env numBlocks blockSize acc r name qs done .idle e)
    (T : Straight (qs.map SequenceState.request ++ done.map SequenceState.request) acc e) :
    Books numBlocks blockSize acc (qs ++ done) e := by
  refine ⟨?_, L.synced, L.tallied, L.paced, L.unevicted, L.submitted⟩
  rwa [List.map_append]

end Engine

end ModelServing
