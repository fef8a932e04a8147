import ModelServing.Engine.Batching
import ModelServing.Cache.Calls

/-! The inside of `step()` as a transition system. A step admits the selected requests one by one,
    appends a token to every sequence, and removes the finished sequences one by one; `Micro` has one
    rule for each of these changes and one for each place an exception can leave from. `step_run`
    shows that a step is a run of it, so an invariant is checked rule by rule and holds at every
    intermediate point, exceptions included. -/

namespace ModelServing

/-- Where the engine is: before a step, with selected requests still to admit, with one of them
    tokenized and waiting for blocks, with finished sequences still to remove, or after a step that
    returned or raised. -/
inductive Point where
  | idle
  | admitting (todo : List Ref)
  | placing (r : Ref) (inputIds : List ℕ) (todo : List Ref)
  | finishing (ids : List String)
  | ended (err : Option StepError)

namespace Point

/-- The requests selected but not yet admitted. -/
def todo : Point → List Ref
  | .admitting todo => todo
  | .placing r _ todo => r :: todo
  | .idle | .finishing _ | .ended _ => []

/-- The finished sequences not yet removed. -/
def toFinish : Point → List String
  | .finishing ids => ids
  | _ => []

end Point

/-- What a change inside a step is reported as. -/
inductive Action where
  | quiet
  | evict (victimId : String)
  | reject (r : Ref)
  | finish (q : SequenceState)

namespace Action

/-- The sequences a step finished, in order. -/
def finished (as : List Action) : List SequenceState :=
  as.filterMap fun | .finish q => some q | _ => none

theorem finished_append (as bs : List Action) : finished (as ++ bs) = finished as ++ finished bs :=
  List.filterMap_append

end Action

namespace Engine

variable (env : Env)

/-- An iteration is counted. -/
def iterated (e : Engine) : Engine := { e with totalIterations := e.totalIterations + 1 }

/-- All tokens appended. -/
def appendAll (e : Engine) (nextTokens : List ℕ) : Engine :=
  (e.activeSequences.keys.zip nextTokens).foldl (appendToken env) e

def withCache (e : Engine) (cache : CacheManager) : Engine := { e with cacheManager := cache }

/-- Room for `n` tokens of `r` in the cache. -/
def allocate (e : Engine) (r : Ref) (n : ℕ) : Except CacheError BlockTable × CacheManager :=
  e.cacheManager.allocateSequence (e.request r).requestId n

variable {env} {e e' : Engine} {r : Ref} {rs : List Ref} {inputIds : List ℕ} {id : String}
  {ids : List String} {cache : CacheManager}

/-- One change inside a step. -/
inductive Micro (env : Env) : Point × Engine → Action → Point × Engine → Prop
  | full {e : Engine} (h : e.maxBatchSize ≤ e.batchSize) :
      Micro env (.idle, e) .quiet (.admitting [], e)
  | select {e : Engine} {n : ℕ} (h : e.maxBatchSize = e.batchSize + n) (hn : 0 < n) :
      Micro env (.idle, e) .quiet (.admitting (e.scheduler.getNextBatch env.clock n).1,
        { e with scheduler := (e.scheduler.getNextBatch env.clock n).2 })
  | tokenize {e : Engine} {r : Ref} {rs : List Ref} {inputIds : List ℕ}
      (h : env.tokenizer e.calls (e.request r).prompt 1024 = some inputIds) :
      Micro env (.admitting (r :: rs), e) .quiet (.placing r inputIds rs, e.tokenized r inputIds)
  | place {e : Engine} {r : Ref} {rs : List Ref} {inputIds : List ℕ} {t : BlockTable}
      {cache : CacheManager} (h : e.allocate r inputIds.length = (.ok t, cache)) :
      Micro env (.placing r inputIds rs, e) .quiet
        (.admitting rs, (e.withCache cache).activate r inputIds)
  | evict {e : Engine} {r : Ref} {rs : List Ref} {inputIds : List ℕ} {err : CacheError}
      {victimId : String} {cache : CacheManager}
      (hfull : e.allocate r inputIds.length = (.error err, e.cacheManager))
      (h : e.cacheManager.evictLru = (.ok (some victimId), cache)) :
      Micro env (.placing r inputIds rs, e) (.evict victimId)
        (.placing r inputIds rs, (e.withCache cache).dropEvicted env (some victimId))
  | reject {e : Engine} {r : Ref} {rs : List Ref} {inputIds : List ℕ} {err : CacheError}
      (hfull : e.allocate r inputIds.length = (.error err, e.cacheManager)) :
      Micro env (.placing r inputIds rs, e) (.reject r)
        (.admitting rs, e.fail env r "Insufficient KV-cache memory")
  | rest {e : Engine} (h : e.activeSequences.keys = []) :
      Micro env (.admitting [], e) .quiet (.ended none, e)
  | append {e e' : Engine} {logits : List (List (List Logit))} {nextTokens : List ℕ}
      (hne : e.activeSequences.keys ≠ [])
      (hm : env.model e.calls (e.prepareBatchInputs env) = some logits)
      (hs : e.iterated.called.sampleTokens env logits = (.ok nextTokens, e')) :
      Micro env (.admitting [], e) .quiet
        (.finishing (e'.appendAll env nextTokens).finishedIds, e'.appendAll env nextTokens)
  | finish {e e' : Engine} {id : String} {ids : List String} {q : SequenceState}
      (h : e.finish env id = (.ok q, e')) :
      Micro env (.finishing (id :: ids), e) (.finish q) (.finishing ids, e')
  | done {e : Engine} : Micro env (.finishing [], e) .quiet (.ended none, e)
  | raiseTokenizer {e : Engine} {r : Ref} {rs : List Ref}
      (h : env.tokenizer e.calls (e.request r).prompt 1024 = none) :
      Micro env (.admitting (r :: rs), e) .quiet (.ended (some .tokenizer), e.called)
  | raiseEvict {e : Engine} {r : Ref} {rs : List Ref} {inputIds : List ℕ} {err : CacheError}
      {cache : CacheManager} (h : e.cacheManager.evictLru = (.error err, cache)) :
      Micro env (.placing r inputIds rs, e) .quiet
        (.ended (some (.cache err)), e.withCache cache)
  | raiseModel {e : Engine} (hne : e.activeSequences.keys ≠ [])
      (h : env.model e.calls (e.prepareBatchInputs env) = none) :
      Micro env (.admitting [], e) .quiet (.ended (some .model), e.iterated.called)
  | raiseSampler {e e' : Engine} {logits : List (List (List Logit))} {err : StepError}
      (hne : e.activeSequences.keys ≠ [])
      (hm : env.model e.calls (e.prepareBatchInputs env) = some logits)
      (hs : e.iterated.called.sampleTokens env logits = (.error err, e')) :
      Micro env (.admitting [], e) .quiet (.ended (some err), e')
  | raiseFinish {e e' : Engine} {id : String} {ids : List String} {err : StepError}
      (h : e.finish env id = (.error err, e')) :
      Micro env (.finishing (id :: ids), e) .quiet (.ended (some err), e')

/-- A step that has ended changes nothing any more. -/
theorem Micro.not_ended {c c' : Point × Engine} {a : Action} (h : Micro env c a c')
    (err : Option StepError) : c.1 ≠ .ended err := by
  cases h <;> exact Point.noConfusion

/-- Rule for invariants that only certain exceptions break: `G` says which endings are harmless. -/
theorem Micro.run_of {G : Point → Prop} {I : Point × Engine → Prop}
    (hG : ∀ p, (∀ err, p ≠ .ended err) → G p)
    (hs : ∀ c a c', I c → Micro env c a c' → G c'.1 → I c') {c c' : Point × Engine}
    {as : List Action} (h : Trace.Run (Micro env) c as c') (hc : I c) (hc' : G c'.1) : I c' := by
  have hrun : G c'.1 → I c' := h.always (I := fun c : Point × Engine => G c.1 → I c) (fun _ => hc)
    fun c a c' hi hst hg => hs c a c' (hi (hG c.1 hst.not_ended)) hst hg
  exact hrun hc'

/-! ### A step is a run -/

/-- Allocation fails only for lack of blocks, and then changes nothing. -/
theorem allocateSequence_error {m m' : CacheManager} {s : String} {n : ℕ} {err : CacheError}
    (h : m.allocateSequence s n = (.error err, m')) : (∃ msg, err = .memoryError msg) ∧ m' = m := by
  by_cases hc : m.tokensToBlocks n > m.numFreeBlocks
  · simp only [CacheManager.allocateSequence, if_pos hc, Prod.mk.injEq, Except.error.injEq] at h
    exact ⟨⟨_, h.1.symm⟩, h.2.symm⟩
  · simp only [CacheManager.allocateSequence, if_neg hc, Prod.mk.injEq, reduceCtorEq, false_and] at h

/-- A run from `c` to `c'` that finishes `qs`. -/
def Leads (env : Env) (c : Point × Engine) (qs : List SequenceState) (c' : Point × Engine) : Prop :=
  ∃ as, Trace.Run (Micro env) c as c' ∧ Action.finished as = qs

/-- Where an operation that should arrive at `p` ends up. -/
def land {α : Type} (p : Point) : Except StepError α → Point
  | .ok _ => p
  | .error err => .ended (some err)

theorem Leads.refl (c : Point × Engine) : Leads env c [] c := ⟨[], .nil, rfl⟩

theorem Leads.trans {c₁ c₂ c₃ : Point × Engine} {qs qs' : List SequenceState}
    (h : Leads env c₁ qs c₂) (h' : Leads env c₂ qs' c₃) : Leads env c₁ (qs ++ qs') c₃ := by
  obtain ⟨as, hrun, hq⟩ := h
  obtain ⟨as', hrun', hq'⟩ := h'
  exact ⟨as ++ as', hrun.append hrun', by rw [Action.finished_append, hq, hq']⟩

theorem Leads.single {c c' : Point × Engine} {a : Action} (h : Micro env c a c') :
    Leads env c (Action.finished [a]) c' := ⟨[a], .single h, rfl⟩

/-- Placing a request succeeds, or needs an eviction: that raises, or a second attempt succeeds or not. -/
theorem place_cases {res : Except StepError Unit} (h : e.place env r inputIds = (res, e')) :
    (∃ t cache, e.allocate r inputIds.length = (.ok t, cache) ∧ res = .ok () ∧
      e' = (e.withCache cache).activate r inputIds) ∨
    ∃ err, e.allocate r inputIds.length = (.error err, e.cacheManager) ∧
      ((∃ err' cache, e.cacheManager.evictLru = (.error err', cache) ∧ res = .error (.cache err') ∧
        e' = e.withCache cache) ∨
      ∃ v cache e₂, e.cacheManager.evictLru = (.ok v, cache) ∧
        e₂ = (e.withCache cache).dropEvicted env v ∧ res = .ok () ∧
        ((∃ t cache', e₂.allocate r inputIds.length = (.ok t, cache') ∧
          e' = (e₂.withCache cache').activate r inputIds) ∨
        ∃ err', e₂.allocate r inputIds.length = (.error err', e₂.cacheManager) ∧
          e' = e₂.fail env r "Insufficient KV-cache memory")) := by
  unfold place at h
  rcases h₁ : e.cacheManager.allocateSequence (e.request r).requestId inputIds.length with
    ⟨_ | t, cache₁⟩
  · obtain ⟨⟨msg, rfl⟩, rfl⟩ := allocateSequence_error h₁
    simp only [h₁] at h
    refine Or.inr ⟨_, h₁, ?_⟩
    rcases h₂ : e.cacheManager.evictLru with ⟨err | v, cache₂⟩
    · simp only [h₂, Prod.mk.injEq] at h
      exact Or.inl ⟨err, cache₂, rfl, h.1.symm, h.2.symm⟩
    · simp only [h₂] at h
      set e₂ := ({ e with cacheManager := cache₂ } : Engine).dropEvicted env v with he₂
      refine Or.inr ⟨v, cache₂, e₂, rfl, he₂, ?_⟩
      rcases h₃ : e₂.cacheManager.allocateSequence (e₂.request r).requestId inputIds.length with
        ⟨_ | t, cache₃⟩
      · obtain ⟨⟨msg, rfl⟩, rfl⟩ := allocateSequence_error h₃
        simp only [h₃, Prod.mk.injEq] at h
        exact ⟨h.1.symm, Or.inr ⟨_, h₃, h.2.symm⟩⟩
      · simp only [h₃, Prod.mk.injEq] at h
        exact ⟨h.1.symm, Or.inl ⟨t, cache₃, h₃, h.2.symm⟩⟩
  · simp only [h₁, Prod.mk.injEq] at h
    exact Or.inl ⟨t, cache₁, h₁, h.1.symm, h.2.symm⟩

theorem admitRequest_cases {res : Except StepError Unit} (h : e.admitRequest env r = (res, e')) :
    (env.tokenizer e.calls (e.request r).prompt 1024 = none ∧ res = .error .tokenizer ∧ e' = e.called) ∨
      ∃ inputIds, env.tokenizer e.calls (e.request r).prompt 1024 = some inputIds ∧
        (e.tokenized r inputIds).place env r inputIds = (res, e') := by
  unfold admitRequest at h
  cases ht : env.tokenizer e.calls (e.request r).prompt 1024 with
  | none =>
    simp only [ht, Prod.mk.injEq] at h
    exact Or.inl ⟨rfl, h.1.symm, h.2.symm⟩
  | some inputIds =>
    simp only [ht] at h
    exact Or.inr ⟨inputIds, rfl, h⟩

theorem place_leads {res : Except StepError Unit} (h : e.place env r inputIds = (res, e')) :
    Leads env (.placing r inputIds rs, e) [] (land (.admitting rs) res, e') := by
  rcases place_cases h with ⟨t, cache, h₁, rfl, rfl⟩ |
    ⟨err, h₁, ⟨err', cache, h₂, rfl, rfl⟩ | ⟨v, cache, e₂, h₂, he₂, rfl, h₃⟩⟩
  · exact .single (.place h₁)
  · exact .single (.raiseEvict h₂)
  · have hevict : Leads env (.placing r inputIds rs, e) [] (.placing r inputIds rs, e₂) := by
      cases v with
      | some v => exact he₂ ▸ .single (.evict h₁ h₂)
      | none =>
        obtain ⟨-, rfl⟩ := CacheManager.evictLru_none h₂
        exact he₂ ▸ .refl _
    rcases h₃ with ⟨t, cache', h₃, rfl⟩ | ⟨err', h₃, rfl⟩
    · exact hevict.trans (.single (.place h₃))
    · exact hevict.trans (.single (.reject h₃))

theorem admit_leads {res : Except StepError Unit} (h : e.admitRequest env r = (res, e')) :
    Leads env (.admitting (r :: rs), e) [] (land (.admitting rs) res, e') := by
  rcases admitRequest_cases h with ⟨ht, rfl, rfl⟩ | ⟨inputIds, ht, hplace⟩
  · exact .single (.raiseTokenizer ht)
  · exact (Leads.single (.tokenize ht)).trans (place_leads hplace)

theorem admitAll_leads : ∀ (rs : List Ref) (e : Engine) {res : Except StepError Unit} {e' : Engine},
    admitAll env rs e = (res, e') →
    Leads env (.admitting rs, e) [] (land (.admitting []) res, e')
  | [], e, res, e', h => by
      obtain ⟨rfl, rfl⟩ := Prod.mk.inj h
      exact .refl _
  | r :: rs, e, res, e', h => by
      unfold admitAll at h
      rcases hr : e.admitRequest env r with ⟨err | ⟨⟩, e₁⟩
      · simp only [hr, Prod.mk.injEq] at h
        obtain ⟨rfl, rfl⟩ := h
        exact admit_leads hr
      · simp only [hr] at h
        exact (admit_leads hr).trans (admitAll_leads rs e₁ h)

theorem admitNewSequences_leads {res : Except StepError Unit}
    (h : e.admitNewSequences env = (res, e')) :
    Leads env (.idle, e) [] (land (.admitting []) res, e') := by
  unfold admitNewSequences at h
  by_cases hfull : e.maxBatchSize - e.batchSize ≤ 0
  · simp only [if_pos hfull, Prod.mk.injEq] at h
    obtain ⟨rfl, rfl⟩ := h
    exact .single (.full (by omega))
  · simp only [if_neg hfull] at h
    have hslots : e.maxBatchSize = e.batchSize + (e.maxBatchSize - e.batchSize).toNat := by omega
    exact (Leads.single (.select hslots (by omega))).trans (admitAll_leads _ _ h)

theorem finishAll_leads : ∀ (ids : List String) (e : Engine)
    {res : Except StepError (List SequenceState)} {e' : Engine}, finishAll env ids e = (res, e') →
    ∃ qs, Leads env (.finishing ids, e) qs (land (.finishing []) res, e') ∧
      ∀ done, res = .ok done → qs = done
  | [], e, res, e', h => by
      obtain ⟨rfl, rfl⟩ := Prod.mk.inj h
      exact ⟨[], .refl _, fun _ hd => by cases hd; rfl⟩
  | id :: ids, e, res, e', h => by
      unfold finishAll at h
      rcases hf : e.finish env id with ⟨err | q, e₁⟩
      · simp only [hf, Prod.mk.injEq] at h
        obtain ⟨rfl, rfl⟩ := h
        exact ⟨[], .single (.raiseFinish hf), fun _ hd => by cases hd⟩
      · simp only [hf] at h
        have h₁ : Leads env (.finishing (id :: ids), e) [q] (.finishing ids, e₁) :=
          .single (.finish hf)
        rcases hr : finishAll env ids e₁ with ⟨err | done, e₂⟩
        all_goals
          simp only [hr, Prod.mk.injEq] at h
          obtain ⟨rfl, rfl⟩ := h
          obtain ⟨qs, hrest, hdone⟩ := finishAll_leads ids e₁ hr
          refine ⟨q :: qs, h₁.trans hrest, fun _ hd => ?_⟩
          cases hd
        rw [hdone done rfl]

/-- A step from where its requests have been admitted. -/
theorem step_admitted {e₁ : Engine} (ha : e.admitNewSequences env = (.ok (), e₁))
    (hne : e₁.activeSequences.keys ≠ []) :
    e.step env = match env.model e₁.calls (e₁.prepareBatchInputs env) with
      | none => (.error .model, e₁.iterated.called)
      | some logits =>
        match e₁.iterated.called.sampleTokens env logits with
        | (.error err, e₂) => (.error err, e₂)
        | (.ok tokens, e₂) =>
          finishAll env (e₂.appendAll env tokens).finishedIds (e₂.appendAll env tokens) := by
  simp only [step, ha, if_neg hne]
  rfl

/-- So is the rest of a step whose requests have been admitted. -/
theorem admitted_leads {e₁ : Engine} {res : Except StepError (List SequenceState)}
    (ha : e.admitNewSequences env = (.ok (), e₁)) (h : e.step env = (res, e')) :
    ∃ qs, Leads env (.admitting [], e₁) qs (land (.ended none) res, e') ∧
      ∀ done, res = .ok done → qs = done := by
  by_cases hnil : e₁.activeSequences.keys = []
  · simp only [step, ha, if_pos hnil, Prod.mk.injEq] at h
    obtain ⟨rfl, rfl⟩ := h
    exact ⟨[], .single (.rest hnil), fun _ hd => by cases hd; rfl⟩
  · rw [step_admitted ha hnil] at h
    cases hm : env.model e₁.calls (e₁.prepareBatchInputs env) with
    | none =>
      simp only [hm, Prod.mk.injEq] at h
      obtain ⟨rfl, rfl⟩ := h
      exact ⟨[], .single (.raiseModel hnil hm), fun _ hd => by cases hd⟩
    | some logits =>
      simp only [hm] at h
      rcases hs : e₁.iterated.called.sampleTokens env logits with ⟨err | tokens, e₂⟩
      · simp only [hs, Prod.mk.injEq] at h
        obtain ⟨rfl, rfl⟩ := h
        exact ⟨[], .single (.raiseSampler hnil hm hs), fun _ hd => by cases hd⟩
      · simp only [hs] at h
        obtain ⟨qs, hf, hdone⟩ := finishAll_leads _ _ h
        have h₂ := Leads.single (.append hnil hm hs)
        refine ⟨qs, ?_, hdone⟩
        cases res with
        | error err => exact h₂.trans hf
        | ok done =>
          have := (h₂.trans hf).trans (.single .done)
          simpa [Action.finished, land] using this

/-- A step is a run, which finishes what the step returns. -/
theorem step_leads {res : Except StepError (List SequenceState)} (h : e.step env = (res, e')) :
    ∃ qs, Leads env (.idle, e) qs (land (.ended none) res, e') ∧ ∀ done, res = .ok done → qs = done := by
  rcases ha : e.admitNewSequences env with ⟨err | ⟨⟩, e₁⟩
  · simp only [step, ha, Prod.mk.injEq] at h
    obtain ⟨rfl, rfl⟩ := h
    exact ⟨[], admitNewSequences_leads ha, fun _ hd => by cases hd⟩
  · obtain ⟨qs, hrest, hdone⟩ := admitted_leads ha h
    exact ⟨qs, (admitNewSequences_leads ha).trans hrest, hdone⟩

end Engine

end ModelServing
