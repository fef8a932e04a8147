import ModelServing.Engine.Cancellation

/-! The lifecycle of a request. The transition methods check nothing, so a status moves one way only as
    long as the request is found in the container that fits it. Two paths find it elsewhere: the engine
    evicts a sequence whose request has been cancelled, and the scheduler cancels a request that has
    failed and is still among the running ones. Every other change, whatever raises, is one-way. -/

namespace ModelServing

open Relation (ReflTransGen)

/-- The moves of the lifecycle. -/
inductive RequestStatus.Next : RequestStatus → RequestStatus → Prop
  | start : Next .PENDING .RUNNING
  | timeOut : Next .PENDING .CANCELLED
  | complete : Next .RUNNING .COMPLETED
  | cancel : Next .RUNNING .CANCELLED
  | fail : Next .RUNNING .FAILED

/-- A request that has ended stays where it is. -/
theorem RequestStatus.eq_of_path {s s' : RequestStatus} (h : ReflTransGen Next s s')
    (ht : s.terminal = true) : s' = s := by
  induction h with
  | refl => rfl
  | tail _ hn ih =>
    subst ih
    cases hn <;> cases ht

namespace RequestScheduler

variable {acc : List Ref} {s s' s'' : RequestScheduler} {r : Ref}

/-- Each of these requests moves along the lifecycle, and one that has ended is left alone. -/
structure OneWay (acc : List Ref) (s s' : RequestScheduler) : Prop where
  path : ∀ r ∈ acc, ReflTransGen RequestStatus.Next (s.statusOf r) (s'.statusOf r)
  ended : ∀ r ∈ acc, (s.statusOf r).terminal = true → s'.request r = s.request r

namespace OneWay

theorem refl (acc : List Ref) (s : RequestScheduler) : OneWay acc s s :=
  ⟨fun _ _ => .refl, fun _ _ _ => rfl⟩

theorem trans (h : OneWay acc s s') (h' : OneWay acc s' s'') : OneWay acc s s'' where
  path := fun r hr => (h.path r hr).trans (h'.path r hr)
  ended := fun r hr ht => by
    have heq := h.ended r hr ht
    rw [h'.ended r hr (by rwa [statusOf, heq]), heq]

theorem mono {acc' : List Ref} (h : OneWay acc s s') (hsub : acc' ⊆ acc) : OneWay acc' s s' :=
  ⟨fun r hr => h.path r (hsub hr), fun r hr => h.ended r (hsub hr)⟩

/-- The others may be left out of it where they stay as they are. -/
theorem extend_iff {acc' : List Ref} (hsub : acc ⊆ acc')
    (hsame : ∀ r ∈ acc', r ∉ acc → s'.request r = s.request r) : OneWay acc' s s' ↔ OneWay acc s s' := by
  refine ⟨fun h => h.mono hsub, fun h => ⟨fun r hr => ?_, fun r hr ht => ?_⟩⟩
  · by_cases hacc : r ∈ acc
    · exact h.path r hacc
    · rw [statusOf, statusOf, hsame r hr hacc]
  · by_cases hacc : r ∈ acc
    · exact h.ended r hacc ht
    · exact hsame r hr hacc

/-- One request moves, which has not ended. -/
theorem of_touches (T : Touches (· = r) s s')
    (hn : s'.statusOf r = s.statusOf r ∨ RequestStatus.Next (s.statusOf r) (s'.statusOf r))
    (ht : (s.statusOf r).terminal = false) : OneWay acc s s' where
  path := fun x _ => by
    by_cases hx : x = r
    · subst hx
      rcases hn with hsame | hn
      · rw [hsame]
      · exact .single hn
    · rw [T.status hx]
  ended := fun x _ hx => T.frame x (by rintro rfl; cases ht.symm.trans hx)

theorem fail (hr : s.statusOf r = .RUNNING) (clock : ℕ → ℚ) (msg : String) :
    OneWay acc s (s.call clock r (.fail msg)) := by
  refine .of_touches (touches_fail clock msg s r) (Or.inr ?_) (by rw [hr]; rfl)
  rw [hr, statusOf_fail]
  exact .fail

theorem promptTokens (hr : s.statusOf r = .RUNNING) (n : ℕ) :
    OneWay acc s (s.set r fun q => { q with promptTokens := n }) :=
  .of_touches (touches_promptTokens s r n) (Or.inl (statusOf_promptTokens s r r n)) (by rw [hr]; rfl)

/-- Requests are selected or time out. -/
theorem getNextBatch (L : Ledger acc s) (C : Counted s) (clock : ℕ → ℚ) (n : ℕ) :
    OneWay acc s (s.getNextBatch clock n).2 := by
  have S := getNextBatch_selected L C clock n
  constructor
  · intro r hr
    by_cases hp : r ∈ s.pending
    · have hpend := (L.pending r hp).2
      rcases S.outcome r hp with hb | hp' | ht
      · rw [hpend, (S.started r hb).2]
        exact .single .start
      · rw [hpend, (S.ledger.pending r hp').2]
      · rw [hpend, (S.expired r ht).2.1]
        exact .single .timeOut
    · rw [S.touches.status hp]
  · intro r _ ht
    refine S.touches.frame r fun hp => ?_
    rw [(L.pending r hp).2] at ht
    cases ht

end OneWay

end RequestScheduler

namespace Engine

open RequestScheduler (OneWay)

variable {env : Env} {e e₀ e' : Engine} {acc : List Ref} {p p' : Point} {r : Ref} {rs : List Ref}
  {inputIds : List ℕ}

/-! ### After the admissions -/

/-- After the admissions every change is one-way. -/
theorem Batch.oneWay_micro {a : Action} (B : Batch acc p e) (hp : p ≠ .idle) (htodo : p.todo = [])
    (h : Micro env (p, e) a (p', e')) :
    (p' ≠ .idle ∧ p'.todo = []) ∧ OneWay acc e.scheduler e'.scheduler := by
  refine ⟨?_, ?_⟩
  · cases h with
    | full _ | select _ _ => exact absurd rfl hp
    | tokenize _ | place _ | evict _ _ | reject _ => cases htodo
    | _ => exact ⟨Point.noConfusion, rfl⟩
  · cases h with
    | full _ | select _ _ => exact absurd rfl hp
    | tokenize _ | place _ | evict _ _ | reject _ => cases htodo
    | rest _ | done | raiseTokenizer _ | raiseEvict _ | raiseModel _ _ => exact .refl _ _
    | raiseSampler _ _ hs => obtain rfl := (Prod.mk.inj hs).2; exact .refl _ _
    | append _ _ hs => rw [(appendAll_appended hs).scheduler]; exact .refl _ _
    | @finish _ _ id _ q hf =>
      obtain ⟨hacc, hq, -, ⟨hrun, D, -⟩ | ⟨-, hsame⟩⟩ := B.finish_cases hf
      · have hframe : ∀ x ∈ acc, x ≠ q.request → e'.request x = e.request x := by
          intro x hx hne
          rcases Engine.finish_cases hf with ⟨-, hres, -⟩ | ⟨q', hq', ⟨-, hres, -⟩ | ⟨text, -, hres, rfl⟩⟩ <;>
            cases hres
          refine (RequestScheduler.completeRequest_frame ..).2.2.2.1 x fun hget => hne ?_
          obtain ⟨hacc', hid', -⟩ := B.ledger.running id x hget
          exact B.eq_of_id hacc' hacc (hid'.trans (B.active id q hq).2.1.symm)
        constructor
        · intro x hx
          by_cases hxq : x = q.request
          · rw [hxq, hrun, D.status]
            exact .single .complete
          · rw [show e'.scheduler.statusOf x = _ from congrArg ScheduledRequest.status (hframe x hx hxq)]
            exact .refl
        · intro x hx ht
          refine hframe x hx ?_
          rintro rfl
          rw [hrun] at ht
          cases ht
      · rw [hsame]
        exact .refl _ _
    | raiseFinish hf =>
      rcases Engine.finish_cases hf with ⟨-, -, rfl⟩ | ⟨q, -, ⟨-, -, rfl⟩ | ⟨text, -, hres, -⟩⟩
      · exact .refl _ _
      · exact .refl _ _
      · cases hres

theorem Batch.oneWay_rest {c : Point × Engine} {as : List Action} (B : Batch acc (.admitting []) e)
    (h : Trace.Run (Micro env) (.admitting [], e) as c) : OneWay acc e.scheduler c.2.scheduler := by
  have hend := h.always (I := fun c : Point × Engine => Batch acc c.1 c.2 ∧
    (c.1 ≠ .idle ∧ c.1.todo = []) ∧ OneWay acc e.scheduler c.2.scheduler)
    ⟨B, ⟨Point.noConfusion, rfl⟩, .refl _ _⟩ ?_
  · exact hend.2.2
  · rintro c a c' ⟨B, ⟨hp, htodo⟩, hway⟩ hm
    obtain ⟨hp', hway'⟩ := B.oneWay_micro hp htodo hm
    exact ⟨B.micro hm, hp', hway.trans hway'⟩

/-! ### Admissions -/

/-- Room for `n` tokens of `r` is made here by evicting the sequence of a cancelled request. -/
def EvictsCancelled (e : Engine) (r : Ref) (n : ℕ) : Prop :=
  (∃ err, (e.allocate r n).1 = .error err) ∧ ∃ v q, e.cacheManager.evictLru.1 = .ok (some v) ∧
    v ≠ "" ∧ e.activeSequences.get? v = some q ∧ e.scheduler.statusOf q.request = .CANCELLED

/-- Admitting these requests one by one evicts no sequence of a cancelled request. -/
def Spares (env : Env) : List Ref → Engine → Prop
  | [], _ => True
  | r :: rs, e =>
    (∀ inputIds, env.tokenizer e.calls (e.request r).prompt 1024 = some inputIds →
      ¬ EvictsCancelled (e.tokenized r inputIds) r inputIds.length) ∧
    ∀ e', e.admitRequest env r = (.ok (), e') → Spares env rs e'

/-- Without room, and with something to evict, the eviction is all that happens before the second
    attempt. -/
theorem place_evicts {res : Except StepError Unit} (h : e.place env r inputIds = (res, e')) :
    (e'.scheduler = e.scheduler ∧ ∀ err, (e.allocate r inputIds.length).1 = .error err →
      ∀ v, e.cacheManager.evictLru.1 ≠ .ok v) ∨
    ∃ err v cache, (e.allocate r inputIds.length).1 = .error err ∧
      e.cacheManager.evictLru = (.ok v, cache) ∧
      (e'.scheduler = ((e.withCache cache).dropEvicted env v).scheduler ∨
        e'.scheduler = (((e.withCache cache).dropEvicted env v).fail env r
          "Insufficient KV-cache memory").scheduler) := by
  rcases place_cases h with ⟨t, cache, h₁, -, rfl⟩ |
    ⟨err, h₁, ⟨err', cache, h₂, -, rfl⟩ | ⟨v, cache, e₂, h₂, rfl, -, h₃⟩⟩
  · refine Or.inl ⟨rfl, fun err herr => ?_⟩
    cases (congrArg Prod.fst h₁).symm.trans herr
  · refine Or.inl ⟨rfl, fun _ _ v hv => ?_⟩
    cases (congrArg Prod.fst h₂).symm.trans hv
  · refine Or.inr ⟨err, v, cache, congrArg Prod.fst h₁, h₂, ?_⟩
    rcases h₃ with ⟨t, cache', -, rfl⟩ | ⟨err', -, rfl⟩
    · exact Or.inl rfl
    · exact Or.inr rfl

/-- An eviction that spares the cancelled requests is one-way. -/
theorem Batch.oneWay_evict (B : Batch acc p e) (env : Env) (cache : CacheManager) (v : Option String)
    (hspare : ∀ w q, v = some w → w ≠ "" → e.activeSequences.get? w = some q →
      e.scheduler.statusOf q.request ≠ .CANCELLED) :
    Batch acc p ((e.withCache cache).dropEvicted env v) ∧
      OneWay acc e.scheduler ((e.withCache cache).dropEvicted env v).scheduler := by
  cases v with
  | none => exact ⟨B.same rfl rfl (.refl _), .refl _ _⟩
  | some w =>
    refine ⟨B.evict cache w, ?_⟩
    rcases dropEvicted_cases env (e.withCache cache) w with ⟨heq, -⟩ | ⟨q, hw, hq, heq⟩ <;> rw [heq]
    · exact .refl _ _
    · exact .fail ((B.active w q hq).2.2.resolve_right (hspare w q rfl hw hq)) _ _

theorem Batch.oneWay_place {res : Except StepError Unit} (B : Batch acc (.placing r inputIds rs) e)
    (hn : ¬ EvictsCancelled e r inputIds.length) (h : e.place env r inputIds = (res, e')) :
    OneWay acc e.scheduler e'.scheduler := by
  rcases place_evicts h with ⟨hsame, -⟩ | ⟨err, v, cache, herr, hv, hsched⟩
  · rw [hsame]
    exact .refl _ _
  · have hspare : ∀ w q, v = some w → w ≠ "" → e.activeSequences.get? w = some q →
        e.scheduler.statusOf q.request ≠ .CANCELLED := by
      rintro w q rfl hw hq hc
      exact hn ⟨⟨err, herr⟩, w, q, congrArg Prod.fst hv, hw, hq, hc⟩
    obtain ⟨B₂, hway⟩ := B.oneWay_evict env cache v hspare
    rcases hsched with hsched | hsched <;> rw [hsched]
    · exact hway
    · exact hway.trans (.fail (B₂.todo r List.mem_cons_self).2.1 _ _)

theorem Batch.oneWay_admit {res : Except StepError Unit} (B : Batch acc (.admitting (r :: rs)) e)
    (hn : ∀ inputIds, env.tokenizer e.calls (e.request r).prompt 1024 = some inputIds →
      ¬ EvictsCancelled (e.tokenized r inputIds) r inputIds.length)
    (h : e.admitRequest env r = (res, e')) : OneWay acc e.scheduler e'.scheduler := by
  rcases admitRequest_cases h with ⟨-, -, rfl⟩ | ⟨inputIds, ht, hplace⟩
  · exact .refl _ _
  · exact (OneWay.promptTokens (B.todo r List.mem_cons_self).2.1 _).trans
      ((B.tokenize inputIds).oneWay_place (hn inputIds ht) hplace)

/-- The next request finds the batch in order. -/
theorem Batch.admitted (B : Batch acc (.admitting (r :: rs)) e)
    (h : e.admitRequest env r = (.ok (), e')) : Batch acc (.admitting rs) e' := by
  obtain ⟨as, hrun, -⟩ : Leads env (.admitting (r :: rs), e) [] (.admitting rs, e') := admit_leads h
  exact Batch.run B hrun

theorem Batch.oneWay_admitAll : ∀ (rs : List Ref) {e e' : Engine} {res : Except StepError Unit},
    Batch acc (.admitting rs) e → Spares env rs e → admitAll env rs e = (res, e') →
    OneWay acc e.scheduler e'.scheduler
  | [], e, e', res, _, _, h => by
      obtain ⟨-, rfl⟩ := Prod.mk.inj h
      exact .refl _ _
  | r :: rs, e, e', res, B, ⟨hn, hrest⟩, h => by
      unfold admitAll at h
      rcases hr : e.admitRequest env r with ⟨err | ⟨⟩, e₁⟩
      · simp only [hr, Prod.mk.injEq] at h
        obtain ⟨-, rfl⟩ := h
        exact B.oneWay_admit hn hr
      · simp only [hr] at h
        exact (B.oneWay_admit hn hr).trans
          (Batch.oneWay_admitAll rs (B.admitted hr) (hrest e₁ hr) h)

/-! ### Evictions of cancelled requests -/

theorem Batch.failed_run {c c' : Point × Engine} {as : List Action} (B : Batch acc c.1 c.2)
    (h : Trace.Run (Micro env) c as c') (hf : c.2.scheduler.statusOf r = .FAILED) :
    c'.2.scheduler.statusOf r = .FAILED := by
  have hend := h.always (I := fun c : Point × Engine => Batch acc c.1 c.2 ∧
    c.2.scheduler.statusOf r = .FAILED) ⟨B, hf⟩ ?_
  · exact hend.2
  · rintro c a c' ⟨B, hf⟩ hm
    have hout : ∀ k q, c.2.activeSequences.get? k = some q → q.request ≠ r := by
      rintro k q hq rfl
      rcases (B.active k q hq).2.2 with h | h <;> cases hf.symm.trans h
    have hsame := (B.frozen hm (by rw [hf]; rfl) hout).1
    exact ⟨B.micro hm, (congrArg ScheduledRequest.status hsame).trans hf⟩

/-- Whoever is cancelled in the batch was so before the step, which began at `e₀`. -/
def CancelledBefore (e₀ e : Engine) : Prop :=
  ∀ k q, e.activeSequences.get? k = some q → e.scheduler.statusOf q.request = .CANCELLED →
    e₀.scheduler.statusOf q.request = .CANCELLED

theorem CancelledBefore.micro {a : Action} (C : CancelledBefore e₀ e) (B : Batch acc p e)
    (h : Micro env (p, e) a (p', e')) : CancelledBefore e₀ e' := by
  intro k q' hq' hc
  cases h.origin hq' with
  | kept hq => exact C k q' hq (B.cancelled_before h (B.not_pending hq) hc)
  | admitted _ =>
    have hr := (B.todo _ List.mem_cons_self).2.1
    cases hr.symm.trans (B.cancelled_before h (B.todo_not_pending List.mem_cons_self) hc)
  | @grown _ _ _ q _ _ _ _ _ hent _ =>
    have hq := OrderedDict.get?_eq_some_iff.mpr (List.mem_of_getElem? hent)
    rw [SequenceState.append_request] at hc ⊢
    exact C k q hq (B.cancelled_before h (B.not_pending hq) hc)

theorem CancelledBefore.run {c c' : Point × Engine} {as : List Action}
    (C : CancelledBefore e₀ c.2) (B : Batch acc c.1 c.2) (h : Trace.Run (Micro env) c as c') :
    CancelledBefore e₀ c'.2 := by
  have hend := h.always (I := fun c : Point × Engine => Batch acc c.1 c.2 ∧ CancelledBefore e₀ c.2)
    ⟨B, C⟩ fun c a c' ⟨B, C⟩ hm => ⟨B.micro hm, C.micro B hm⟩
  exact hend.2

/-- Such an eviction fails a cancelled request. -/
theorem Batch.failed_of_place {res : Except StepError Unit} (B : Batch acc p e)
    (hE : EvictsCancelled e r inputIds.length) (h : e.place env r inputIds = (res, e')) :
    ∃ k q, e.activeSequences.get? k = some q ∧ q.request ∈ acc ∧
      e.scheduler.statusOf q.request = .CANCELLED ∧ e'.scheduler.statusOf q.request = .FAILED := by
  obtain ⟨⟨err, herr⟩, w, q, hw, hne, hq, hc⟩ := hE
  refine ⟨w, q, hq, (B.active w q hq).1, hc, ?_⟩
  rcases place_evicts h with ⟨-, hno⟩ | ⟨-, v, cache, -, hv, hsched⟩
  · exact absurd hw (hno err herr _)
  · obtain rfl : v = some w := Except.ok.inj ((congrArg Prod.fst hv).symm.trans hw)
    have hfail : ((e.withCache cache).dropEvicted env (some w)).scheduler.statusOf q.request =
        .FAILED := by
      rcases dropEvicted_cases env (e.withCache cache) w with ⟨-, h | h⟩ | ⟨q', -, hq', heq⟩
      · exact absurd h hne
      · exact absurd (OrderedDict.mem_keys_of_get? hq) h
      · cases hq.symm.trans hq'
        rw [heq]
        exact RequestScheduler.statusOf_fail _ _ _ _
    rcases hsched with hsched | hsched <;> rw [hsched]
    · exact hfail
    · by_cases hqr : q.request = r
      · rw [hqr]
        exact RequestScheduler.statusOf_fail _ _ _ _
      · exact ((RequestScheduler.touches_fail _ _ _ _).status hqr).trans hfail

theorem Batch.failed_of_admitAll : ∀ (rs : List Ref) {e e' : Engine} {res : Except StepError Unit},
    Batch acc (.admitting rs) e → CancelledBefore e₀ e → ¬ Spares env rs e →
    admitAll env rs e = (res, e') →
    ∃ x ∈ acc, e₀.scheduler.statusOf x = .CANCELLED ∧ e'.scheduler.statusOf x = .FAILED
  | [], _, _, _, _, _, hn, _ => absurd trivial hn
  | r :: rs, e, e', res, B, C, hn, h => by
      rcases hr : e.admitRequest env r with ⟨res₁, e₁⟩
      have hnext : (∃ x ∈ acc, e₀.scheduler.statusOf x = .CANCELLED ∧
          e₁.scheduler.statusOf x = .FAILED) ∨ (res₁ = .ok () ∧ ¬ Spares env rs e₁) := by
        by_cases hhere : ∀ inputIds, env.tokenizer e.calls (e.request r).prompt 1024 = some inputIds →
            ¬ EvictsCancelled (e.tokenized r inputIds) r inputIds.length
        · refine Or.inr ?_
          by_contra hnot
          refine hn ⟨hhere, fun e₂ he₂ => ?_⟩
          obtain ⟨rfl, rfl⟩ := Prod.mk.inj (hr.symm.trans he₂)
          exact not_not.mp fun hs => hnot ⟨rfl, hs⟩
        · push Not at hhere
          obtain ⟨inputIds, ht, hE⟩ := hhere
          have hplace : (e.tokenized r inputIds).place env r inputIds = (res₁, e₁) := by
            simpa only [admitRequest, ht] using hr
          have hm : Micro env (.admitting (r :: rs), e) .quiet (.placing r inputIds rs, e.tokenized r inputIds) :=
            .tokenize ht
          obtain ⟨k, q, hq, hacc, hc, hf⟩ := (B.micro hm).failed_of_place hE hplace
          exact Or.inl ⟨q.request, hacc, C.micro B hm k q hq hc, hf⟩
      unfold admitAll at h
      rw [hr] at h
      obtain ⟨as, hrun, -⟩ : Leads env (.admitting (r :: rs), e) [] (land (.admitting rs) res₁, e₁) :=
        admit_leads hr
      cases res₁ with
      | error err =>
        obtain ⟨-, rfl⟩ := Prod.mk.inj h
        exact hnext.resolve_right fun hn => by cases hn.1
      | ok u =>
        rcases hnext with ⟨x, hx, hc, hf⟩ | ⟨-, hs⟩
        · obtain ⟨as', hrun', -⟩ := admitAll_leads rs e₁ h
          exact ⟨x, hx, hc, (Batch.run B hrun).failed_run hrun' hf⟩
        · exact Batch.failed_of_admitAll rs (Batch.run B hrun) (C.run B hrun) hs h

/-! ### Whole steps -/

/-- The next step evicts no sequence of a cancelled request. -/
def SparesNext (env : Env) (e : Engine) : Prop :=
  ∀ n : ℕ, e.maxBatchSize = e.batchSize + n → 0 < n →
    Spares env (e.scheduler.getNextBatch env.clock n).1
      { e with scheduler := (e.scheduler.getNextBatch env.clock n).2 }

/-- The two halves of a step: its admissions, and a run from there. -/
theorem step_halves {res : Except StepError (List SequenceState)} (h : e.step env = (res, e')) :
    (e.maxBatchSize ≤ e.batchSize ∧
      ∃ as c, Trace.Run (Micro env) (.admitting [], e) as c ∧ c.2 = e') ∨
    ∃ n : ℕ, e.maxBatchSize = e.batchSize + n ∧ 0 < n ∧ ∃ res₁ e₁,
      admitAll env (e.scheduler.getNextBatch env.clock n).1
        { e with scheduler := (e.scheduler.getNextBatch env.clock n).2 } = (res₁, e₁) ∧
      (e' = e₁ ∨ ∃ as c, res₁ = .ok () ∧
        Trace.Run (Micro env) (.admitting [], e₁) as c ∧ c.2 = e') := by
  by_cases hfull : e.maxBatchSize - e.batchSize ≤ 0
  · have ha : e.admitNewSequences env = (.ok (), e) := by
      simp only [admitNewSequences, if_pos hfull]
    obtain ⟨qs, ⟨as, hrun, -⟩, -⟩ := admitted_leads ha h
    exact Or.inl ⟨by omega, as, _, hrun, rfl⟩
  · refine Or.inr ⟨(e.maxBatchSize - e.batchSize).toNat, by omega, by omega, ?_⟩
    rcases ha : e.admitNewSequences env with ⟨res₁, e₁⟩
    have hall := ha
    simp only [admitNewSequences, if_neg hfull] at hall
    refine ⟨res₁, e₁, hall, ?_⟩
    cases res₁ with
    | error err =>
      simp only [step, ha, Prod.mk.injEq] at h
      exact Or.inl h.2.symm
    | ok u =>
      obtain ⟨qs, ⟨as, hrun, -⟩, -⟩ := admitted_leads ha h
      exact Or.inr ⟨as, _, rfl, hrun, rfl⟩

/-- A step is one-way if and only if it spares the cancelled requests. -/
theorem Batch.oneWay_step_iff {res : Except StepError (List SequenceState)} (B : Batch acc .idle e)
    (h : e.step env = (res, e')) : OneWay acc e.scheduler e'.scheduler ↔ SparesNext env e := by
  rcases step_halves h with ⟨hfull, as, c, hrun, rfl⟩ | ⟨n, hslots, hn, res₁, e₁, hall, hend⟩
  · have B₁ : Batch acc (.admitting []) e := B.same rfl rfl (.refl _)
    exact iff_of_true (B₁.oneWay_rest hrun) fun n hslots hn => by omega
  · have B₁ : Batch acc (.admitting (e.scheduler.getNextBatch env.clock n).1)
        { e with scheduler := (e.scheduler.getNextBatch env.clock n).2 } := B.select n
    have hsel : Micro env (.idle, e) .quiet (.admitting (e.scheduler.getNextBatch env.clock n).1,
        { e with scheduler := (e.scheduler.getNextBatch env.clock n).2 }) := .select hslots hn
    have C₁ : CancelledBefore e { e with scheduler := (e.scheduler.getNextBatch env.clock n).2 } :=
      CancelledBefore.micro (fun _ _ _ => id) B hsel
    obtain ⟨as₁, hrun₁, -⟩ := admitAll_leads _ _ hall
    constructor
    · intro hway n' hslots' hn'
      obtain rfl : n' = n := by omega
      by_contra hs
      obtain ⟨x, hx, hc, hf⟩ := Batch.failed_of_admitAll _ B₁ C₁ hs hall
      have hf' : e'.scheduler.statusOf x = .FAILED := by
        rcases hend with rfl | ⟨as, c, rfl, hrun, rfl⟩
        · exact hf
        · exact Batch.failed_run (c := (.admitting [], e₁)) (Batch.run B₁ hrun₁) hrun hf
      have heq := RequestStatus.eq_of_path (hway.path x hx) (by rw [hc]; rfl)
      rw [hf', hc] at heq
      cases heq
    · intro hs
      have hway := (OneWay.getNextBatch B.ledger B.counted env.clock n).trans
        (B₁.oneWay_admitAll _ (hs n hslots hn) hall)
      rcases hend with rfl | ⟨as, c, rfl, hrun, rfl⟩
      · exact hway
      · exact hway.trans (Batch.oneWay_rest (Batch.run B₁ hrun₁) hrun)

/-! ### Runs -/

variable {maxBatchSize maxQueueSize : ℤ} {defaultTimeout : ℚ} {policy : SchedulingPolicy}
  {numBlocks blockSize : ℕ} {evs : List Event} {ev : Event}

/-- A call that neither cancels a request that has failed nor evicts a cancelled one. -/
def Harmless (env : Env) (e : Engine) : Event → Prop
  | .submitRequest _ _ _ => True
  | .cancelRequest k _ =>
    ∀ r, e.scheduler.running.get? k = some r → e.scheduler.statusOf r ≠ .FAILED
  | .step _ => SparesNext env e

theorem Batch.cancel_iff {k : String} {b : Bool} (B : Batch acc .idle e)
    (h : e.cancelRequest env k = (b, e')) :
    (OneWay acc e.scheduler e'.scheduler ∧ (b = true → ∃ r ∈ acc, e.scheduler.idOf r = k ∧
      (e.scheduler.statusOf r = .PENDING ∨ e.scheduler.statusOf r = .RUNNING))) ↔
    ∀ r, e.scheduler.running.get? k = some r → e.scheduler.statusOf r ≠ .FAILED := by
  rcases B.cancelRequest_cases env k with ⟨heq, -, hnone⟩ | ⟨r, hr, hacc, hid, htrue, -, hst, T, -⟩
  · obtain ⟨rfl, rfl⟩ := Prod.mk.inj (h.symm.trans heq)
    refine iff_of_true ⟨.refl _ _, fun hb => by cases hb⟩ fun r hr => ?_
    cases hnone.symm.trans hr
  · obtain rfl : (e.cancelRequest env k).2 = e' := congrArg Prod.snd h
    have hone : ∀ x, e.scheduler.running.get? k = some x → x = r := fun x hx => by
      obtain ⟨hx', hid', -⟩ := B.ledger.running k x hx
      exact B.eq_of_id hx' hacc (hid'.trans hid.symm)
    constructor
    · rintro ⟨hway, -⟩ x hx hf
      obtain rfl := hone x hx
      have heq := RequestStatus.eq_of_path (hway.path x hacc) (by rw [hf]; rfl)
      rw [hst, hf] at heq
      cases heq
    · intro hn
      have hlive : e.scheduler.statusOf r = .PENDING ∨ e.scheduler.statusOf r = .RUNNING := by
        rcases hr with hp | hrun
        · exact Or.inl (B.ledger.pending r hp).2
        · exact Or.inr ((B.ledger.running k r hrun).2.2.resolve_right (hn r hrun))
      refine ⟨.of_touches T (Or.inr ?_) ?_, fun _ => ⟨r, hacc, hid, hlive⟩⟩
      · rw [hst]
        rcases hlive with h | h <;> rw [h]
        · exact .timeOut
        · exact .cancel
      · rcases hlive with h | h <;> rw [h] <;> rfl

/-- The requests that have been submitted, accepted or not. -/
def submittedRefs (e : Engine) : List Ref := List.range e.scheduler.requests.next

/-- A call leaves alone what has been rejected. -/
theorem Batch.outside_event (B : Batch acc .idle e) (hst : Step env e ev e') (hr : r ∉ acc)
    (hlt : r < e.scheduler.requests.next) : e'.request r = e.request r := by
  cases ev with
  | submitRequest x req b =>
    obtain ⟨-, -, heq⟩ := hst
    obtain rfl : (e.submitRequest req).2 = e' := congrArg Prod.snd heq
    exact (RequestScheduler.submitNew_added e.scheduler req).old r hlt
  | cancelRequest k b =>
    obtain rfl : (e.cancelRequest env k).2 = e' := congrArg Prod.snd hst
    rcases B.cancelRequest_cases env k with ⟨heq, -⟩ | ⟨x, -, hacc, -, -, -, -, T, -⟩
    · rw [show (e.cancelRequest env k).2 = e from congrArg Prod.snd heq]
    · exact T.frame r fun h => hr (h ▸ hacc)
  | step res =>
    obtain ⟨qs, ⟨as, hrun, -⟩, -⟩ := step_leads hst
    have hend := hrun.always (I := fun c : Point × Engine => Batch acc c.1 c.2 ∧ c.2.request r = e.request r)
      ⟨B, rfl⟩ fun c a c' ⟨B, heq⟩ hm => ⟨B.micro hm, (B.outside hr hm).trans heq⟩
    exact hend.2

theorem Batch.oneWay_event_iff (B : Batch acc .idle e) (hst : Step env e ev e') :
    (OneWay e.submittedRefs e.scheduler e'.scheduler ∧
      ∀ k, ev = .cancelRequest k true → ∃ r ∈ acc, e.scheduler.idOf r = k ∧
        (e.scheduler.statusOf r = .PENDING ∨ e.scheduler.statusOf r = .RUNNING)) ↔
    Harmless env e ev := by
  have hall : OneWay e.submittedRefs e.scheduler e'.scheduler ↔ OneWay acc e.scheduler e'.scheduler :=
    OneWay.extend_iff (fun r hr => List.mem_range.mpr (B.ledger.lt_next r hr)) fun r hr hacc =>
      B.outside_event hst hacc (List.mem_range.mp hr)
  rw [hall]
  cases ev with
  | submitRequest r req b =>
    obtain ⟨-, -, heq⟩ := hst
    have A := RequestScheduler.submitNew_added e.scheduler req
    obtain rfl : (e.submitRequest req).2 = e' := congrArg Prod.snd heq
    have hold : ∀ r ∈ acc, (e.submitRequest req).2.scheduler.request r = e.request r :=
      fun r hr => A.old r (B.ledger.lt_next r hr)
    refine iff_of_true ⟨⟨fun r hr => ?_, fun r hr _ => hold r hr⟩, fun k h => by cases h⟩ trivial
    rw [RequestScheduler.statusOf, RequestScheduler.statusOf, hold r hr]
    exact .refl
  | cancelRequest k b =>
    refine Iff.trans (and_congr_right fun _ => ?_) (B.cancel_iff hst)
    constructor
    · rintro h rfl
      exact h k rfl
    · rintro h _ ⟨⟩
      exact h rfl
  | step res =>
    refine Iff.trans (and_iff_left ?_) (B.oneWay_step_iff hst)
    rintro k ⟨⟩

/-- No call forgets a request. -/
theorem submittedRefs_event (hst : Step env e ev e') : e.submittedRefs ⊆ e'.submittedRefs := by
  suffices h : e.scheduler.requests.next ≤ e'.scheduler.requests.next from
    fun r hr => List.mem_range.mpr ((List.mem_range.mp hr).trans_le h)
  cases ev with
  | submitRequest x req b =>
    obtain ⟨-, -, heq⟩ := hst
    obtain rfl : (e.submitRequest req).2 = e' := congrArg Prod.snd heq
    exact (Nat.le_succ _).trans_eq (RequestScheduler.submitNew_added e.scheduler req).next.symm
  | cancelRequest k b =>
    obtain rfl : (e.cancelRequest env k).2 = e' := congrArg Prod.snd hst
    exact (RequestScheduler.cancelRequest_frame env.clock e.scheduler k).2.1.ge
  | step res =>
    obtain ⟨qs, ⟨as, hrun, -⟩, -⟩ := step_leads hst
    have hnext := hrun.always (I := fun c : Point × Engine =>
      c.2.scheduler.requests.next = e.scheduler.requests.next) rfl
      fun c a c' heq hm => hm.next.trans heq
    exact hnext.ge

/-- CORRECT: after any run with distinct ids, whatever has been raised, the next call moves every request
    that has been submitted, accepted or not, along the lifecycle, leaves those that have ended as they
    are, and reports a cancellation only for a pending or running request, if and only if it neither
    cancels a request that has failed nor evicts the sequence of a cancelled one. -/
theorem one_way_iff (hrun : Trace.Run (Step env)
      (new maxBatchSize maxQueueSize defaultTimeout policy numBlocks blockSize) evs e)
    (hst : Step env e ev e') :
    (OneWay e.submittedRefs e.scheduler e'.scheduler ∧
      ∀ k, ev = .cancelRequest k true → ∃ r ∈ accepted evs, e.scheduler.idOf r = k ∧
        (e.scheduler.statusOf r = .PENDING ∨ e.scheduler.statusOf r = .RUNNING)) ↔
    Harmless env e ev := (batch_of_run hrun).oneWay_event_iff hst

/-- From any moment on, as long as the calls are harmless, every request moves along the lifecycle. -/
theorem one_way_of_run {evs' : List Event} (hrun : Trace.Run (Step env)
      (new maxBatchSize maxQueueSize defaultTimeout policy numBlocks blockSize) evs e)
    (hlater : Trace.Run (fun x ev y => Step env x ev y ∧ Harmless env x ev) e evs' e') :
    OneWay e.submittedRefs e.scheduler e'.scheduler := by
  have hend := hlater.invariant (I := fun _ x => e.submittedRefs ⊆ x.submittedRefs ∧
    OneWay e.submittedRefs e.scheduler x.scheduler) ⟨fun _ => id, .refl _ _⟩ ?_
  · exact hend.2
  · rintro evs₁ x ev y hr ⟨hsub, hway⟩ ⟨hst, hharm⟩
    have B := batch_of_run (hrun.append (hr.mono fun _ _ _ h => h.1))
    have hnext := ((B.oneWay_event_iff hst).mpr hharm).1
    exact ⟨fun _ h => submittedRefs_event hst (hsub h), hway.trans (hnext.mono hsub)⟩

/-- A running request is cancelled. -/
theorem one_way_iff_cancel :
    let env := Env.rowwise fun _ => [.negInf, .fin 0]
    let req : ScheduledRequest :=
      { requestId := "a", prompt := "p", maxTokens := 3, temperature := 0, createdAt := 0 }
    let e := (((new 1 8 60 .fcfs 4 2).submitRequest req).2.step env).2
    (e.cancelRequest env "a").1 = true ∧
      OneWay e.submittedRefs e.scheduler (e.cancelRequest env "a").2.scheduler := by
  intro env req e
  have h₀ := step_submitRequest env (new 1 8 60 .fcfs 4 2) req
    ⟨rfl, fun r hr => absurd hr (Nat.not_lt_zero r)⟩
  have h₁ := step_step env ((new 1 8 60 .fcfs 4 2).submitRequest req).2
  have hst : Step env e (.cancelRequest "a" true) (e.cancelRequest env "a").2 :=
    Prod.ext (by decide +kernel) rfl
  have hrunning : e.scheduler.running.get? "a" = some 0 ∧ e.scheduler.statusOf 0 = .RUNNING := by
    decide +kernel
  refine ⟨by decide +kernel, ((one_way_iff (.snoc (.snoc .nil h₀) h₁) hst).mpr ?_).1⟩
  rintro r hr hf
  cases hrunning.1.symm.trans hr
  cases hrunning.2.symm.trans hf

/-- A running request is cancelled and then evicted for another one: it has failed. And a request that has
    failed for lack of blocks is cancelled afterwards, successfully. -/
theorem not_one_way :
    let env := Env.rowwise fun _ => [.negInf, .fin 0]
    let a : ScheduledRequest :=
      { requestId := "a", prompt := "p", maxTokens := 3, temperature := 0, createdAt := 0 }
    let b : ScheduledRequest :=
      { requestId := "b", prompt := "p", maxTokens := 3, temperature := 0, createdAt := 0 }
    let c : ScheduledRequest :=
      { requestId := "c", prompt := "pp", maxTokens := 3, temperature := 0, createdAt := 0 }
    let e₁ := (((new 2 8 60 .fcfs 1 1).submitRequest a).2.step env).2
    let e₂ := ((e₁.cancelRequest env "a").2.submitRequest b).2
    let f := (((new 1 8 60 .fcfs 1 1).submitRequest c).2.step env).2
    (Trace.Run (Step env) (new 2 8 60 .fcfs 1 1) [.submitRequest 0 a true, .step (.ok []),
        .cancelRequest "a" true, .submitRequest 1 b true] e₂ ∧
      e₂.scheduler.statusOf 0 = .CANCELLED ∧ (e₂.step env).1 = .ok [] ∧
      (e₂.step env).2.scheduler.statusOf 0 = .FAILED) ∧
    Trace.Run (Step env) (new 1 8 60 .fcfs 1 1) [.submitRequest 0 c true, .step (.ok [])] f ∧
      f.scheduler.statusOf 0 = .FAILED ∧ (f.cancelRequest env "c").1 = true ∧
      (f.cancelRequest env "c").2.scheduler.statusOf 0 = .CANCELLED := by
  intro env a b c e₁ e₂ f
  have hfresh : ∀ {m q : ℤ} {n k : ℕ} {req : ScheduledRequest}, req.status = .PENDING →
      RequestScheduler.Fresh (new m q 60 .fcfs n k).scheduler req :=
    fun h => ⟨h, fun r hr => absurd hr (Nat.not_lt_zero r)⟩
  have h₀ : Step env (new 2 8 60 .fcfs 1 1) (.submitRequest 0 a true)
      ((new 2 8 60 .fcfs 1 1).submitRequest a).2 := ⟨hfresh rfl, rfl, rfl⟩
  have h₁ : Step env ((new 2 8 60 .fcfs 1 1).submitRequest a).2 (.step (.ok [])) e₁ :=
    Prod.ext (by decide +kernel) rfl
  have h₂ : Step env e₁ (.cancelRequest "a" true) (e₁.cancelRequest env "a").2 :=
    Prod.ext (by decide +kernel) rfl
  have hid : ∀ r < (e₁.cancelRequest env "a").2.scheduler.requests.next,
      ((e₁.cancelRequest env "a").2.scheduler.request r).requestId ≠ b.requestId := by decide +kernel
  have h₃ : Step env (e₁.cancelRequest env "a").2 (.submitRequest 1 b true) e₂ :=
    ⟨⟨rfl, hid⟩, by decide +kernel, Prod.ext (by decide +kernel) rfl⟩
  have g₀ : Step env (new 1 8 60 .fcfs 1 1) (.submitRequest 0 c true)
      ((new 1 8 60 .fcfs 1 1).submitRequest c).2 := ⟨hfresh rfl, rfl, rfl⟩
  have g₁ : Step env ((new 1 8 60 .fcfs 1 1).submitRequest c).2 (.step (.ok [])) f :=
    Prod.ext (by decide +kernel) rfl
  exact ⟨⟨.snoc (.snoc (.snoc (.snoc .nil h₀) h₁) h₂) h₃, by decide +kernel, by decide +kernel,
    by decide +kernel⟩, .snoc (.snoc .nil g₀) g₁, by decide +kernel, by decide +kernel,
    by decide +kernel⟩

end Engine

end ModelServing
