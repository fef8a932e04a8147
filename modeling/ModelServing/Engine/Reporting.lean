import ModelServing.Engine.Cancellation
import ModelServing.Engine.ExceptionSafety

/-! Which requests `run_until_empty` reports. A step returns the completed requests only, so a request
    that is evicted, rejected for lack of blocks, or timed out in the queue is never returned. Nothing
    of the kind happens in a step exactly when it starts with enough room: no queued request is past
    its timeout, and the prompts of the requests it selects fit into the free blocks together. -/

namespace ModelServing

namespace Engine

variable {env : Env} {e e' : Engine} {acc : List Ref} {p p' : Point} {r : Ref}
  {numBlocks blockSize : ℕ}

/-! ### Room for a step -/

/-- The blocks that the prompts of the selected requests need, tokenized one after another from the
    `calls`-th external call on. -/
def demand (env : Env) (e : Engine) : ℕ → List Ref → ℕ
  | _, [] => 0
  | calls, r :: rs =>
    (match env.tokenizer calls (e.request r).prompt 1024 with
      | none => 0
      | some inputIds => inputIds.length ⌈/⌉ e.cacheManager.blockSize) + demand env e (calls + 1) rs

/-- A step that starts here and may admit requests finds nobody past the timeout, and enough free
    blocks for all it selects. -/
def Roomy (env : Env) (e : Engine) : Prop :=
  ∀ n : ℕ, e.maxBatchSize = e.batchSize + n → 0 < n →
    e.scheduler.timedOut env.clock = [] ∧
      demand env e e.calls (e.scheduler.getNextBatch env.clock n).1 ≤ e.cacheManager.numFreeBlocks

/-- A step that starts here finds enough free blocks for all it selects, whoever is past the timeout. -/
def Spacious (env : Env) (e : Engine) : Prop :=
  ∀ n : ℕ, e.maxBatchSize = e.batchSize + n → 0 < n →
    demand env e e.calls (e.scheduler.getNextBatch env.clock n).1 ≤ e.cacheManager.numFreeBlocks

theorem Roomy.spacious (h : Roomy env e) : Spacious env e := fun n hslots hn => (h n hslots hn).2

theorem demand_congr (e e' : Engine) (hprompt : ∀ x, (e'.request x).prompt = (e.request x).prompt)
    (hsize : e'.cacheManager.blockSize = e.cacheManager.blockSize) :
    ∀ (rs : List Ref) (calls : ℕ), demand env e' calls rs = demand env e calls rs
  | [], _ => rfl
  | r :: rs, calls => by rw [demand, demand, hprompt, hsize, demand_congr e e' hprompt hsize rs]

theorem demand_cons {calls : ℕ} {rs : List Ref} {inputIds : List ℕ}
    (h : env.tokenizer calls (e.request r).prompt 1024 = some inputIds) :
    demand env e calls (r :: rs) =
      inputIds.length ⌈/⌉ e.cacheManager.blockSize + demand env e (calls + 1) rs := by
  rw [demand, h]

/-- The blocks that the requests still to be placed need. -/
def pendingDemand (env : Env) : Point → Engine → ℕ
  | .admitting rs, e => demand env e e.calls rs
  | .placing _ inputIds rs, e =>
    inputIds.length ⌈/⌉ e.cacheManager.blockSize + demand env e e.calls rs
  | _, _ => 0

/-- The room that is left while a step admits requests. -/
def Ample (env : Env) (p : Point) (e : Engine) : Prop :=
  match p with
  | .idle => Roomy env e
  | _ => pendingDemand env p e ≤ e.cacheManager.numFreeBlocks

/-- The room that is missing. -/
def Short (env : Env) (p : Point) (e : Engine) : Prop :=
  match p with
  | .idle => ¬ Roomy env e
  | _ => e.cacheManager.numFreeBlocks < pendingDemand env p e

/-- Placing a request takes as many blocks as it was counted for. -/
theorem pendingDemand_place (env : Env) (rs : List Ref) {inputIds : List ℕ} {t : BlockTable}
    {cache : CacheManager} (h : e.cacheManager.Owned)
    (ha : e.allocate r inputIds.length = (.ok t, cache)) :
    pendingDemand env (.placing r inputIds rs) e + cache.numFreeBlocks =
      pendingDemand env (.admitting rs) ((e.withCache cache).activate r inputIds) +
        e.cacheManager.numFreeBlocks := by
  have A := h.allocated ha
  have hd : demand env ((e.withCache cache).activate r inputIds) e.calls rs =
      demand env e e.calls rs := demand_congr e ((e.withCache cache).activate r inputIds) (fun _ => rfl) A.blockSize rs _
  change inputIds.length ⌈/⌉ e.cacheManager.blockSize + demand env e e.calls rs + _ =
    demand env ((e.withCache cache).activate r inputIds) e.calls rs + _
  rw [hd, ← A.free]
  omega

theorem pendingDemand_tokenize {rs : List Ref} {inputIds : List ℕ}
    (h : env.tokenizer e.calls (e.request r).prompt 1024 = some inputIds) :
    pendingDemand env (.placing r inputIds rs) (e.tokenized r inputIds) =
      pendingDemand env (.admitting (r :: rs)) e := by
  change _ + demand env (e.tokenized r inputIds) (e.calls + 1) rs = demand env e e.calls (r :: rs)
  rw [demand_cons h, demand_congr e (e.tokenized r inputIds) (fun x => ?_) rfl]
  · rfl
  · exact (RequestScheduler.touches_promptTokens e.scheduler r inputIds.length).stable _
      RequestScheduler.stable_prompt x

theorem pendingDemand_select (env : Env) (e : Engine) (n : ℕ) :
    pendingDemand env (.admitting (e.scheduler.getNextBatch env.clock n).1)
      { e with scheduler := (e.scheduler.getNextBatch env.clock n).2 } =
      demand env e e.calls (e.scheduler.getNextBatch env.clock n).1 := by
  have T := (RequestScheduler.getNextBatch_split env.clock e.scheduler n).1
  exact demand_congr e { e with scheduler := (e.scheduler.getNextBatch env.clock n).2 }
    (fun x => T.stable _ RequestScheduler.stable_prompt x) rfl _ _

/-! ### Steps with room -/

/-- Nobody has been failed or timed out, and nobody is lost. -/
structure Healthy (env : Env) (acc : List Ref) (p : Point) (e : Engine) : Prop where
  lossless : Lossless env acc p e
  owned : e.cacheManager.Owned
  alive : ∀ r ∈ acc, e.scheduler.statusOf r ≠ .CANCELLED ∧ e.scheduler.statusOf r ≠ .FAILED

theorem owned_micro {a : Action} (h : e.cacheManager.Owned) (hm : Micro env (p, e) a (p', e')) :
    e'.cacheManager.Owned := by
  cases hm with
  | full _ | rest _ | done | select _ _ | tokenize _ | reject _ | raiseTokenizer _
  | raiseModel _ _ => exact h
  | raiseSampler _ _ hs => obtain rfl := (Prod.mk.inj hs).2; exact h
  | append _ _ hs => rw [(appendAll_appended hs).cacheManager]; exact h
  | place ha => exact (h.allocated ha).owned
  | @evict _ _ _ _ _ v cache _ hv =>
    have hc : cache.Owned := by have := h.evictLru; rwa [hv] at this
    rcases dropEvicted_cases env (e.withCache cache) v with ⟨heq, -⟩ | ⟨q, -, -, heq⟩ <;>
      rw [heq] <;> exact hc
  | raiseEvict hv => have := h.evictLru; rwa [hv] at this
  | finish hf | raiseFinish hf =>
    rcases finish_cases hf with ⟨-, -, rfl⟩ | ⟨q, -, ⟨-, -, rfl⟩ | ⟨text, -, -, rfl⟩⟩
    · exact h
    · exact h
    · exact h.freeSequence _

/-- With room for the request there is neither an eviction nor a rejection. -/
theorem Ample.allocates {rs : List Ref} {inputIds : List ℕ} {err : CacheError}
    {cache : CacheManager} (h : e.cacheManager.Owned) (R : Ample env (.placing r inputIds rs) e) :
    e.allocate r inputIds.length ≠ (.error err, cache) := by
  intro ha
  change inputIds.length ⌈/⌉ e.cacheManager.blockSize + _ ≤ e.cacheManager.numFreeBlocks at R
  obtain ⟨t, m, hok⟩ := (h.allocateSequence_ok_iff (e.request r).requestId inputIds.length).mpr
    (by omega)
  cases hok.symm.trans ha

theorem Ample.quiet {a : Action} (R : Ample env p e) (O : e.cacheManager.Owned)
    (h : Micro env (p, e) a (p', e')) : (∀ v, a ≠ .evict v) ∧ ∀ r, a ≠ .reject r := by
  cases h with
  | evict ha _ | reject ha => exact absurd ha (R.allocates O)
  | _ => constructor <;> intro _ heq <;> cases heq

/-- The room for the selected requests lasts until they are placed. -/
theorem Ample.micro {a : Action} (R : Ample env p e) (hp : p ≠ .idle) (O : e.cacheManager.Owned)
    (h : Micro env (p, e) a (p', e')) : Ample env p' e' := by
  cases h with
  | full _ | select _ _ => exact absurd rfl hp
  | tokenize ht =>
    change pendingDemand env _ _ ≤ _
    rw [pendingDemand_tokenize ht]
    exact R
  | @place _ r rs ids _ cache ha =>
    have heq := pendingDemand_place env rs O ha
    change pendingDemand env (.placing r ids rs) e ≤ e.cacheManager.numFreeBlocks at R
    change pendingDemand env _ _ ≤ cache.numFreeBlocks
    omega
  | evict ha _ | reject ha => exact absurd ha (R.allocates O)
  | _ => exact Nat.zero_le _

/-- A step that starts with room has it for all it selects. -/
theorem Spacious.micro {a : Action} (R : Spacious env e) (h : Micro env (.idle, e) a (p', e')) :
    Ample env p' e' := by
  cases h with
  | full _ => exact Nat.zero_le _
  | select hslots hn =>
    change pendingDemand env _ _ ≤ _
    rw [pendingDemand_select]
    exact R _ hslots hn

theorem Healthy.micro {a : Action} (H : Healthy env acc p e) (R : Ample env p e)
    (B : Batch acc p e) (h : Micro env (p, e) a (p', e')) (hp' : ∀ err, p' ≠ .ended (some err)) :
    Healthy env acc p' e' ∧ Ample env p' e' := by
  have hnone := R.quiet H.owned h
  refine ⟨⟨H.lossless.micro_of B h hnone.1 (hp' _) (hp' _) fun _ => hp' _, owned_micro H.owned h,
    fun r hr => ?_⟩, ?_⟩
  · obtain ⟨hc, hf⟩ := H.alive r hr
    rcases B.status_cases h r with
      hsame | ⟨-, hr'⟩ | ⟨ht, -, rfl, hlt⟩ | ⟨-, ⟨v, hv⟩ | hv⟩ | ⟨hc', -⟩
    · rw [hsame]; exact ⟨hc, hf⟩
    · rw [hr']; exact ⟨by decide, by decide⟩
    · rw [(R (e.maxBatchSize - e.batchSize).toNat (by omega) (by omega)).1] at ht
      exact absurd ht List.not_mem_nil
    · exact absurd hv (hnone.1 v)
    · exact absurd hv (hnone.2 r)
    · rw [hc']; exact ⟨by decide, by decide⟩
  · by_cases hp : p = .idle
    · subst hp
      exact Roomy.spacious R |>.micro h
    · exact R.micro hp H.owned h

/-! ### Steps without room -/

/-- Cancelled or failed: such a request is never returned. -/
def Lost (e : Engine) (r : Ref) : Prop :=
  e.scheduler.statusOf r = .CANCELLED ∨ e.scheduler.statusOf r = .FAILED

theorem Lost.terminal (h : Lost e r) : (e.scheduler.statusOf r).terminal = true := by
  rcases h with h | h <;> rw [h] <;> rfl

theorem Lost.congr (h : Lost e r) (hreq : e'.request r = e.request r) : Lost e' r := by
  have hst : e'.scheduler.statusOf r = e.scheduler.statusOf r :=
    congrArg ScheduledRequest.status hreq
  rw [Lost, hst]
  exact h

/-- Nobody in the batch is lost, as long as nobody in it is cancelled. -/
theorem Lost.out (h : Lost e r) (U : Uncancelled e) (k : String) (q : SequenceState)
    (hq : e.activeSequences.get? k = some q) : q.request ≠ r := by
  rintro rfl
  have hrun := U.running k q hq
  rcases h with h | h <;> cases hrun.symm.trans h

theorem Lost.micro {a : Action} (h : Lost e r) (U : Uncancelled e) (B : Batch acc p e)
    (hm : Micro env (p, e) a (p', e')) : Lost e' r :=
  h.congr (B.frozen hm h.terminal (h.out U)).1

/-- The missing room stays missing until somebody fails. -/
theorem Short.micro {a : Action} (hs : Short env p e) (hp : p ≠ .idle) (B : Batch acc p e)
    (S : Synced numBlocks blockSize acc e) (h : Micro env (p, e) a (p', e'))
    (hp' : ∀ err, p' ≠ .ended (some err)) :
    (∃ r ∈ acc, e'.scheduler.statusOf r = .FAILED) ∨ Short env p' e' := by
  have hzero : ¬ (e.cacheManager.numFreeBlocks < 0) := Nat.not_lt_zero _
  cases h with
  | full _ | select _ _ => exact absurd rfl hp
  | tokenize ht =>
    refine Or.inr ?_
    change _ < pendingDemand env _ _
    rw [pendingDemand_tokenize ht]
    exact hs
  | @place _ r rs ids _ cache ha =>
    have heq := pendingDemand_place env rs S.owned ha
    refine Or.inr ?_
    change e.cacheManager.numFreeBlocks < pendingDemand env (.placing r ids rs) e at hs
    change cache.numFreeBlocks < pendingDemand env _ _
    omega
  | evict _ hv =>
    obtain ⟨q, hq, heq, -⟩ := S.evict_cases B env hv
    refine Or.inl ⟨q.request, (B.active _ q hq).1, ?_⟩
    rw [heq]
    exact RequestScheduler.statusOf_fail env.clock _ e.scheduler q.request
  | @reject _ r _ _ _ _ =>
    exact Or.inl ⟨r, (B.todo r List.mem_cons_self).1,
      RequestScheduler.statusOf_fail env.clock _ e.scheduler r⟩
  | rest _ | append _ _ _ | finish _ | done => exact absurd hs hzero
  | raiseTokenizer _ | raiseEvict _ | raiseModel _ _ | raiseSampler _ _ _ | raiseFinish _ =>
    exact absurd rfl (hp' _)

/-- A step that starts without room is short of it for what it selects. -/
theorem short_of_not_spacious {a : Action} (hs : ¬ Spacious env e)
    (h : Micro env (.idle, e) a (p', e')) : Short env p' e' := by
  cases h with
  | full hfull => exact absurd (fun n hslots hn => by omega) hs
  | @select _ n hslots hn =>
    change _ < pendingDemand env _ _
    rw [pendingDemand_select]
    by_contra hle
    refine hs fun n' hslots' hn' => ?_
    obtain rfl : n' = n := by omega
    exact Nat.le_of_not_lt hle

/-- A step that does not start with room times somebody out or is short of blocks. -/
theorem lost_or_short {a : Action} (hs : ¬ Roomy env e) (B : Batch acc .idle e)
    (h : Micro env (.idle, e) a (p', e')) : (∃ r ∈ acc, Lost e' r) ∨ Short env p' e' := by
  by_cases hR : Spacious env e
  · cases h with
    | full hfull => exact absurd (fun n hslots hn => by omega) hs
    | @select _ n hslots hn =>
      have T := RequestScheduler.getNextBatch_selected B.ledger B.counted env.clock n
      cases hto : e.scheduler.timedOut env.clock with
      | cons r rs =>
        obtain ⟨hp, hc, -⟩ := T.expired r (hto ▸ List.mem_cons_self)
        exact Or.inl ⟨r, (B.ledger.pending r hp).1, Or.inl hc⟩
      | nil => exact absurd (fun n' hslots' hn' => ⟨hto, hR n' hslots' hn'⟩) hs
  · exact Or.inr (short_of_not_spacious hR h)

/-! ### Whole steps -/

theorem Healthy.step {done : List SequenceState} (H : Healthy env acc .idle e)
    (B : Batch acc .idle e) (R : Roomy env e) (h : e.step env = (.ok done, e')) :
    Healthy env acc .idle e' := by
  obtain ⟨qs, ⟨as, hrun, -⟩, -⟩ := step_leads h
  have hend := Micro.run_of (G := fun p => ∀ err, p ≠ .ended (some err))
    (I := fun c => Batch acc c.1 c.2 ∧ Healthy env acc c.1 c.2 ∧ Ample env c.1 c.2)
    (fun p hp err => hp _) (fun c a c' ⟨B, H, R⟩ hm hg => ⟨B.micro hm, H.micro R B hm hg⟩) hrun
    ⟨B, H, R⟩ fun err h => by cases h
  exact ⟨hend.2.1.lossless.ended, hend.2.1.owned, hend.2.1.alive⟩

theorem lost_of_step {done : List SequenceState} (B : Batch acc .idle e)
    (S : Synced numBlocks blockSize acc e) (U : Uncancelled e) (hR : ¬ Roomy env e)
    (h : e.step env = (.ok done, e')) : ∃ r ∈ acc, Lost e' r := by
  obtain ⟨qs, ⟨as, hrun, -⟩, -⟩ := step_leads h
  have hend := Micro.run_of (G := fun p => ∀ err, p ≠ .ended (some err))
    (I := fun c => Batch acc c.1 c.2 ∧ Synced numBlocks blockSize acc c.2 ∧ Uncancelled c.2 ∧
      ((∃ r ∈ acc, Lost c.2 r) ∨ Short env c.1 c.2))
    (fun p hp err => hp _) (fun c a c' ⟨B, S, U, hl⟩ hm hg => ?_) hrun
    ⟨B, S, U, Or.inr hR⟩ fun err h => by cases h
  · exact hend.2.2.2.resolve_right (Nat.not_lt_zero _)
  · refine ⟨B.micro hm, S.micro B hm (hg _), U.micro B hm, ?_⟩
    rcases hl with ⟨r, hr, hl⟩ | hs
    · exact Or.inl ⟨r, hr, hl.micro U B hm⟩
    · obtain ⟨p, x⟩ := c
      by_cases hp : p = .idle
      · subst hp
        exact lost_or_short hs B hm
      · exact (hs.micro hp B S hm hg).imp (fun ⟨r, hr, hf⟩ => ⟨r, hr, Or.inr hf⟩) id

/-- `rs` lists each accepted completed request once, and nobody else. -/
def Reported (rs acc : List Ref) (e : Engine) : Prop :=
  ∀ r, rs.count r = if r ∈ acc ∧ e.scheduler.statusOf r = .COMPLETED then 1 else 0

/-- A change completes the request of the sequence it finishes, and no other. -/
theorem completed_iff {a : Action} (U : Uncancelled e) (B : Batch acc p e)
    (h : Micro env (p, e) a (p', e')) (r : Ref) : e'.scheduler.statusOf r = .COMPLETED ↔
      e.scheduler.statusOf r = .COMPLETED ∨ ∃ q, a = .finish q ∧ q.request = r := by
  constructor
  · intro hst
    rcases B.status_cases h r with hsame | ⟨-, hr'⟩ | ⟨-, hr', -⟩ | ⟨hf, -⟩ | ⟨-, hq⟩
    · exact Or.inl (hsame.symm.trans hst)
    · cases hr'.symm.trans hst
    · cases hr'.symm.trans hst
    · cases hf.symm.trans hst
    · exact Or.inr hq
  · rintro (hst | ⟨q, rfl, rfl⟩)
    · have hfrozen := (B.frozen h (by rw [hst]; rfl) (B.out_of_completed hst)).1
      exact (congrArg ScheduledRequest.status hfrozen).trans hst
    · cases h with
      | finish hf =>
        obtain ⟨-, hq, -, ⟨-, D, -⟩ | ⟨hc, -⟩⟩ := B.finish_cases hf
        · exact D.status
        · cases (U.running _ _ hq).symm.trans hc

theorem Reported.micro {a : Action} {rs : List Ref} (N : Reported rs acc e) (U : Uncancelled e)
    (B : Batch acc p e) (h : Micro env (p, e) a (p', e')) :
    Reported (rs ++ (Action.finished [a]).map SequenceState.request) acc e' := by
  intro r
  have hiff := completed_iff U B h r
  cases a with
  | finish q =>
    have hq : q.request ∈ acc ∧ e.scheduler.statusOf q.request = .RUNNING := by
      cases h with
      | finish hf =>
        obtain ⟨hacc, hget, -⟩ := B.finish_cases hf
        exact ⟨hacc, U.running _ _ hget⟩
    have hcount : (rs ++ [q.request]).count r = rs.count r + if q.request = r then 1 else 0 := by
      rw [List.count_append, List.count_singleton]
      simp
    refine hcount.trans ?_
    rw [N r]
    by_cases hr : q.request = r
    · subst hr
      have hst := hiff.mpr (Or.inr ⟨q, rfl, rfl⟩)
      simp [hq.1, hq.2, hst]
    · have hsame : e'.scheduler.statusOf r = .COMPLETED ↔ e.scheduler.statusOf r = .COMPLETED :=
        hiff.trans (or_iff_left fun ⟨q', heq, hq'⟩ => by cases heq; exact hr hq')
      simp [hr, hsame]
  | _ =>
    have hsame : e'.scheduler.statusOf r = .COMPLETED ↔ e.scheduler.statusOf r = .COMPLETED :=
      hiff.trans (or_iff_left fun ⟨q', heq, _⟩ => by cases heq)
    change (rs ++ []).count r = _
    rw [List.append_nil, N r]
    simp [hsame]

/-- An error is set on lost requests only. -/
theorem error_cases {a : Action} (B : Batch acc p e) (h : Micro env (p, e) a (p', e')) (r : Ref) :
    (e'.request r).error = (e.request r).error ∨ Lost e' r := by
  have hfail : ∀ (x : Ref) (msg : String),
      ((e.scheduler.call env.clock x (.fail msg)).request r).error = (e.request r).error ∨
      (e.scheduler.call env.clock x (.fail msg)).statusOf r = .FAILED := by
    intro x msg
    by_cases hx : r = x
    · exact Or.inr (hx ▸ RequestScheduler.statusOf_fail env.clock msg e.scheduler r)
    · have := (RequestScheduler.touches_fail env.clock msg e.scheduler x).frame r hx
      exact Or.inl (congrArg ScheduledRequest.error this)
  cases h with
  | full _ | rest _ | done | place _ | raiseTokenizer _ | raiseEvict _ | raiseModel _ _ =>
    exact Or.inl rfl
  | select _ _ =>
    have S := RequestScheduler.getNextBatch_selected B.ledger B.counted env.clock
    by_cases ht : r ∈ e.scheduler.timedOut env.clock
    · exact Or.inr (Or.inl ((S _).expired r ht).2.1)
    · exact Or.inl ((S _).error r ht)
  | @tokenize _ x _ ids _ =>
    exact Or.inl (ObjectHeap.map_get_modify ScheduledRequest.error e.scheduler.requests x r
      (f := fun q => { q with promptTokens := ids.length }) fun _ => rfl)
  | evict _ _ =>
    rcases dropEvicted_cases env (e.withCache _) _ with ⟨heq, -⟩ | ⟨q, -, -, heq⟩ <;>
      rw [heq]
    · exact Or.inl rfl
    · exact (hfail q.request _).imp id Or.inr
  | @reject _ x _ _ _ _ => exact (hfail x _).imp id Or.inr
  | append _ _ hs => exact Or.inl (by rw [request, (appendAll_appended hs).scheduler]; rfl)
  | raiseSampler _ _ hs => obtain rfl := (Prod.mk.inj hs).2; exact Or.inl rfl
  | @finish _ _ id _ _ hf | @raiseFinish _ _ id _ _ hf =>
    rcases finish_cases hf with ⟨-, -, rfl⟩ | ⟨q, -, ⟨-, -, rfl⟩ | ⟨text, -, -, rfl⟩⟩
    · exact Or.inl rfl
    · exact Or.inl rfl
    · rcases B.ledger.completeRequest_cases B.counted env.clock id text q.generatedIds.length with
        ⟨-, heq⟩ | ⟨x, -, -, -, hreq, hframe, -⟩
      · exact Or.inl (congrArg (fun s => (RequestScheduler.request s r).error) heq)
      · by_cases hx : r = x
        · subst hx
          have herr := congrArg ScheduledRequest.error hreq
          exact Or.inl herr
        · exact Or.inl (congrArg ScheduledRequest.error (hframe r hx))

/-- Between steps, when nothing has been cancelled: `rs` are the requests returned so far, and only
    lost requests carry an error. -/
structure Straight (rs acc : List Ref) (e : Engine) : Prop where
  batch : Batch acc .idle e
  uncancelled : Uncancelled e
  reported : Reported rs acc e
  errors : ∀ r ∈ acc, (e.request r).error ≠ none → Lost e r

theorem Straight.step {done : List SequenceState} {rs : List Ref} (T : Straight rs acc e)
    (h : e.step env = (.ok done, e')) : Straight (rs ++ done.map SequenceState.request) acc e' := by
  obtain ⟨qs, ⟨as, hrun, hqs⟩, hdone⟩ := step_leads h
  have hinv : Batch acc (.ended none) e' ∧ Uncancelled e' ∧
      Reported (rs ++ (Action.finished as).map SequenceState.request) acc e' ∧
      ∀ r ∈ acc, (e'.request r).error ≠ none → Lost e' r := by
    refine hrun.invariant (I := fun as c => Batch acc c.1 c.2 ∧ Uncancelled c.2 ∧
      Reported (rs ++ (Action.finished as).map SequenceState.request) acc c.2 ∧
      ∀ r ∈ acc, (c.2.request r).error ≠ none → Lost c.2 r) ?_ ?_
    · exact ⟨T.batch, T.uncancelled, by simpa [Action.finished] using T.reported, T.errors⟩
    · rintro as c a c' _ ⟨B, U, N, E⟩ hm
      refine ⟨B.micro hm, U.micro B hm, ?_, fun r hr herr => ?_⟩
      · rw [Action.finished_append, List.map_append, ← List.append_assoc]
        exact N.micro U B hm
      · rcases error_cases B hm r with hsame | hl
        · exact (E r hr (hsame ▸ herr)).micro U B hm
        · exact hl
  rw [hqs, hdone done rfl] at hinv
  exact ⟨T.batch.step h, hinv.2.1, hinv.2.2.1, hinv.2.2.2⟩

theorem Lost.step {res : Except StepError (List SequenceState)} (h : Lost e r)
    (B : Batch acc .idle e) (U : Uncancelled e) (hst : e.step env = (res, e')) : Lost e' r := by
  obtain ⟨qs, ⟨as, hrun, -⟩, -⟩ := step_leads hst
  have hinv := hrun.always (I := fun c : Point × Engine => Batch acc c.1 c.2 ∧ Uncancelled c.2 ∧
    Lost c.2 r) ⟨B, U, h⟩ fun c a c' ⟨B, U, h⟩ hm => ⟨B.micro hm, U.micro B hm, h.micro U B hm⟩
  exact hinv.2.2

/-! ### Submissions -/

theorem Lost.submit (h : Lost e r) (B : Batch acc .idle e) (hr : r ∈ acc) (req : ScheduledRequest) :
    Lost (e.submitRequest req).2 r :=
  h.congr ((RequestScheduler.submitNew_added e.scheduler req).old r (B.ledger.lt_next r hr))

theorem Straight.submit {rs : List Ref} (T : Straight rs acc e) {req : ScheduledRequest}
    (hf : RequestScheduler.Fresh e.scheduler req) (herr : req.error = none) :
    Straight rs (acc ++ e.scheduler.queued (e.submitRequest req).1) (e.submitRequest req).2 := by
  have A := RequestScheduler.submitNew_added e.scheduler req
  have hlt := T.batch.ledger.lt_next
  refine ⟨T.batch.submit hf, T.uncancelled.submit T.batch req, fun r => ?_, fun r hr he => ?_⟩
  · rw [T.reported r]
    by_cases hr : r ∈ acc
    · have hst : (e.submitRequest req).2.scheduler.statusOf r = e.scheduler.statusOf r :=
        A.statusOf_old (hlt r hr)
      simp [hr, hst]
    · by_cases hq : r ∈ e.scheduler.queued (e.submitRequest req).1
      · have hst : (e.submitRequest req).2.scheduler.statusOf r = .PENDING :=
          RequestScheduler.eq_of_mem_queued hq ▸ A.statusOf_next.trans hf.status
        simp [hr, hst]
      · simp [hr, hq]
  · rcases List.mem_append.mp hr with hr | hr
    · have hreq : (e.submitRequest req).2.request r = e.request r := A.old r (hlt r hr)
      exact (T.errors r hr (hreq ▸ he)).submit T.batch hr req
    · obtain ⟨t, ht⟩ := A.request
      have hreq : (e.submitRequest req).2.request r = { req with timeoutSeconds := t } :=
        RequestScheduler.eq_of_mem_queued hr ▸ ht
      rw [hreq] at he
      exact absurd herr he

theorem Healthy.submit (H : Healthy env acc .idle e) (B : Batch acc .idle e) {req : ScheduledRequest}
    (hf : RequestScheduler.Fresh e.scheduler req) :
    Healthy env (acc ++ e.scheduler.queued (e.submitRequest req).1) .idle
      (e.submitRequest req).2 := by
  have A := RequestScheduler.submitNew_added e.scheduler req
  refine ⟨H.lossless.submit B hf, H.owned, fun r hr => ?_⟩
  rcases List.mem_append.mp hr with hr | hr
  · have hst : (e.submitRequest req).2.scheduler.statusOf r = e.scheduler.statusOf r :=
      A.statusOf_old (B.ledger.lt_next r hr)
    rw [hst]
    exact H.alive r hr
  · have hst : (e.submitRequest req).2.scheduler.statusOf r = .PENDING :=
      RequestScheduler.eq_of_mem_queued hr ▸ A.statusOf_next.trans hf.status
    rw [hst]
    exact ⟨by decide, by decide⟩

/-! ### The loop of `run_until_empty` -/

/-- Nothing queued and nothing in the batch. -/
def Drained (e : Engine) : Prop := e.scheduler.pendingCount = 0 ∧ e.batchSize = 0

/-- `P` holds before each of the at most `n` iterations of the loop. -/
def Throughout (env : Env) (P : Engine → Prop) : ℕ → Engine → Prop
  | 0, _ => True
  | n + 1, e => P e ∧ ∀ done, (e.step env).1 = .ok done → ¬ Drained (e.step env).2 →
      Throughout env P n (e.step env).2

/-- The first iteration of a loop that returns. -/
theorem runLoop_succ {n : ℕ} {done : List SequenceState}
    (h : runLoop env (n + 1) e = (.ok done, e')) : ∃ d e₁, e.step env = (.ok d, e₁) ∧
      ((Drained e₁ ∧ done = d ∧ e' = e₁) ∨
        (¬ Drained e₁ ∧ ∃ rest, runLoop env n e₁ = (.ok rest, e') ∧ done = d ++ rest)) := by
  unfold runLoop at h
  rcases hs : e.step env with ⟨err | d, e₁⟩
  · simp only [hs, Prod.mk.injEq, reduceCtorEq, false_and] at h
  · refine ⟨d, e₁, rfl, ?_⟩
    simp only [hs] at h
    by_cases hd : e₁.scheduler.pendingCount = 0 ∧ e₁.batchSize = 0
    · rw [if_pos hd] at h
      cases h
      exact Or.inl ⟨hd, rfl, rfl⟩
    · rw [if_neg hd] at h
      rcases hl : runLoop env n e₁ with ⟨err | rest, e₂⟩
      · simp only [hl, Prod.mk.injEq, reduceCtorEq, false_and] at h
      · simp only [hl, Prod.mk.injEq, Except.ok.injEq] at h
        obtain ⟨rfl, rfl⟩ := h
        exact Or.inr ⟨hd, rest, rfl, rfl⟩

theorem Straight.loop : ∀ (n : ℕ) {e e' : Engine} {rs : List Ref} {done : List SequenceState},
    Straight rs acc e → runLoop env n e = (.ok done, e') →
    Straight (rs ++ done.map SequenceState.request) acc e'
  | 0, e, e', rs, done, T, h => by
      cases h
      simpa using T
  | n + 1, e, e', rs, done, T, h => by
      obtain ⟨d, e₁, hs, ⟨-, rfl, rfl⟩ | ⟨-, rest, hl, rfl⟩⟩ := runLoop_succ h
      · exact T.step hs
      · rw [List.map_append, ← List.append_assoc]
        exact Straight.loop n (T.step hs) hl

/-- With room before each iteration nobody is lost. -/
theorem Healthy.loop : ∀ (n : ℕ) {e e' : Engine} {done : List SequenceState},
    Healthy env acc .idle e → Batch acc .idle e → Throughout env (Roomy env) n e →
    runLoop env n e = (.ok done, e') → Healthy env acc .idle e'
  | 0, e, e', done, H, _, _, h => by
      cases h
      exact H
  | n + 1, e, e', done, H, B, R, h => by
      obtain ⟨d, e₁, hs, ⟨-, -, rfl⟩ | ⟨hd, rest, hl, -⟩⟩ := runLoop_succ h
      · exact H.step B R.1 hs
      · have hrest := R.2 d
        rw [hs] at hrest
        exact Healthy.loop n (H.step B R.1 hs) (B.step hs) (hrest rfl hd) hl

/-- Without room before some iteration somebody is. -/
theorem lost_of_loop : ∀ (n : ℕ) {e e' : Engine} {done : List SequenceState},
    Batch acc .idle e → Synced numBlocks blockSize acc e → Uncancelled e →
    (∃ r ∈ acc, Lost e r) ∨ ¬ Throughout env (Roomy env) n e →
    runLoop env n e = (.ok done, e') → ∃ r ∈ acc, Lost e' r
  | 0, e, e', done, _, _, _, hl, h => by
      cases h
      exact hl.resolve_right fun hn => hn trivial
  | n + 1, e, e', done, B, S, U, hl, h => by
      obtain ⟨d, e₁, hs, hend⟩ := runLoop_succ h
      have hnext : (∃ r ∈ acc, Lost e₁ r) ∨ (¬ Drained e₁ ∧ ¬ Throughout env (Roomy env) n e₁) := by
        rcases hl with ⟨r, hr, hl⟩ | hn
        · exact Or.inl ⟨r, hr, hl.step B U hs⟩
        · by_cases hR : Roomy env e
          · refine Or.inr ⟨fun hd => hn ⟨hR, fun _ _ hnd => ?_⟩, fun ht => hn ⟨hR, fun _ _ _ => ?_⟩⟩
            · rw [hs] at hnd
              exact absurd hd hnd
            · rw [hs]
              exact ht
          · exact Or.inl (lost_of_step B S U hR hs)
      rcases hend with ⟨hd, -, rfl⟩ | ⟨-, rest, hrest, -⟩
      · exact hnext.resolve_right fun h => h.1 hd
      · obtain ⟨qs, ⟨as, hrun, -⟩, -⟩ := step_leads hs
        exact lost_of_loop n (B.step hs) (S.step B hs (by simp)) (U.run B hrun).2.1
          (hnext.imp id And.right) hrest

/-! ### Runs -/

variable {maxBatchSize maxQueueSize : ℤ} {defaultTimeout : ℚ} {policy : SchedulingPolicy}
  {evs : List Event}

/-- Submissions of new requests and steps that return: nothing is cancelled and nothing raises. -/
def Plain : Event → Prop
  | .submitRequest _ req _ => req.error = none
  | .cancelRequest _ _ => False
  | .step res => ∃ done, res = .ok done

/-- A step begins with room. -/
def Tidy (env : Env) (e : Engine) (ev : Event) (e' : Engine) : Prop :=
  Step env e ev e' ∧ ∀ res, ev = .step res → Roomy env e

theorem plain_left {ev : Event} (h : ∀ x ∈ evs ++ [ev], Plain x) :
    (∀ x ∈ evs, Plain x) ∧ Plain ev :=
  ⟨fun x hx => h x (List.mem_append_left _ hx), h ev (List.mem_append_right _ List.mem_cons_self)⟩

theorem new_straight :
    Straight [] [] (new maxBatchSize maxQueueSize defaultTimeout policy numBlocks blockSize) :=
  ⟨new_batch, ⟨fun _ _ h => (nomatch h), rfl⟩, fun r => by simp, fun _ h => absurd h List.not_mem_nil⟩

theorem straight_of_run (hrun : Trace.Run (Step env)
      (new maxBatchSize maxQueueSize defaultTimeout policy numBlocks blockSize) evs e)
    (hplain : ∀ ev ∈ evs, Plain ev) :
    Straight ((returned evs).map SequenceState.request) (accepted evs) e := by
  have hinv : (∀ ev ∈ evs, Plain ev) →
      Straight ((returned evs).map SequenceState.request) (accepted evs) e := by
    refine hrun.invariant (I := fun evs e => (∀ ev ∈ evs, Plain ev) →
      Straight ((returned evs).map SequenceState.request) (accepted evs) e) (fun _ => ?_) ?_
    · exact new_straight
    · intro evs e ev e' _ hi hst hplain
      obtain ⟨hleft, hev⟩ := plain_left hplain
      have T := hi hleft
      rw [returned_append, accepted_append, List.map_append]
      cases ev with
      | submitRequest r req b =>
        obtain ⟨hf, rfl, heq⟩ := hst
        have T' := T.submit hf hev
        rw [heq] at T'
        rw [accepted_submitRequest]
        simpa [returned] using T'
      | cancelRequest k b => exact absurd hev id
      | step res =>
        obtain ⟨done, rfl⟩ := hev
        have T' := T.step hst
        simpa [returned, accepted] using T'
  exact hinv hplain

theorem healthy_of_run (hbs : 0 < blockSize) (hrun : Trace.Run (Tidy env)
      (new maxBatchSize maxQueueSize defaultTimeout policy numBlocks blockSize) evs e)
    (hplain : ∀ ev ∈ evs, Plain ev) : Healthy env (accepted evs) .idle e := by
  have hinv : (∀ ev ∈ evs, Plain ev) → Healthy env (accepted evs) .idle e := by
    refine hrun.invariant (I := fun evs e => (∀ ev ∈ evs, Plain ev) →
      Healthy env (accepted evs) .idle e) (fun _ => ?_) ?_
    · refine ⟨⟨fun _ h => absurd h List.not_mem_nil, fun _ _ h => (nomatch h),
        fun _ _ h => (nomatch h), List.nodup_nil, fun _ h => absurd h List.not_mem_nil⟩,
        CacheManager.new_owned numBlocks hbs, fun _ h => absurd h List.not_mem_nil⟩
    · intro evs e ev e' hr hi hst hplain
      obtain ⟨hleft, hev⟩ := plain_left hplain
      have H := hi hleft
      have B := batch_of_run (hr.mono fun _ _ _ h => h.1)
      rw [accepted_append]
      cases ev with
      | submitRequest r req b =>
        obtain ⟨⟨hf, rfl, heq⟩, -⟩ := hst
        have H' := H.submit B hf
        rw [heq] at H'
        rwa [accepted_submitRequest]
      | cancelRequest k b => exact absurd hev id
      | step res =>
        obtain ⟨done, rfl⟩ := hev
        rw [show accepted [Event.step (.ok done)] = [] from rfl, List.append_nil]
        exact H.step B (hst.2 _ rfl) hst.1
  exact hinv hplain

theorem lost_of_run (hbs : 0 < blockSize) (hrun : Trace.Run (Step env)
      (new maxBatchSize maxQueueSize defaultTimeout policy numBlocks blockSize) evs e)
    (hplain : ∀ ev ∈ evs, Plain ev) (hname : Named evs)
    (hnot : ¬ Trace.Run (Tidy env)
      (new maxBatchSize maxQueueSize defaultTimeout policy numBlocks blockSize) evs e) :
    ∃ r ∈ accepted evs, Lost e r := by
  have hinv : (∀ ev ∈ evs, Plain ev) → Named evs → Trace.Run (Tidy env)
        (new maxBatchSize maxQueueSize defaultTimeout policy numBlocks blockSize) evs e ∨
      ∃ r ∈ accepted evs, Lost e r := by
    refine hrun.invariant (I := fun evs e => (∀ ev ∈ evs, Plain ev) → Named evs →
      Trace.Run (Tidy env)
        (new maxBatchSize maxQueueSize defaultTimeout policy numBlocks blockSize) evs e ∨
      ∃ r ∈ accepted evs, Lost e r) (fun _ _ => Or.inl .nil) ?_
    intro evs e ev e' hr hi hst hplain hname
    obtain ⟨hleft, hev⟩ := plain_left hplain
    have hname' : Named evs := fun r req b h => hname r req b (List.mem_append_left _ h)
    have T := straight_of_run hr hleft
    rw [accepted_append]
    cases ev with
    | submitRequest r req b =>
      refine (hi hleft hname').imp (fun hrun => hrun.snoc ⟨hst, fun _ h => by cases h⟩) ?_
      rintro ⟨x, hx, hl⟩
      obtain ⟨-, -, heq⟩ := hst
      have hl' := hl.submit T.batch hx req
      rw [heq] at hl'
      exact ⟨x, List.mem_append_left _ hx, hl'⟩
    | cancelRequest k b => exact absurd hev id
    | step res =>
      obtain ⟨done, rfl⟩ := hev
      rw [show accepted [Event.step (.ok done)] = [] from rfl, List.append_nil]
      rcases hi hleft hname' with hrun | ⟨x, hx, hl⟩
      · by_cases hR : Roomy env e
        · exact Or.inl (hrun.snoc ⟨hst, fun _ _ => hR⟩)
        · have hdec : Decoded evs := fun h => by
            obtain ⟨done, hd⟩ := hleft _ h
            cases hd
          exact Or.inr (lost_of_step T.batch (synced_of_run hbs hr hname' hdec) T.uncancelled hR hst)
      · exact Or.inr ⟨x, hx, hl.step T.batch T.uncancelled hst⟩
  exact (hinv hplain hname).resolve_left hnot

end Engine

end ModelServing
