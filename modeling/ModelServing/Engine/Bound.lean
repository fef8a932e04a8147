import ModelServing.Lib.Rounds
import ModelServing.Cache.Recency
import ModelServing.Engine.Filters
import ModelServing.Engine.Rest

/-! How long `run_until_empty` takes. A step seats requests while the batch has room, gives every
    sequence one more token and removes those that have enough, so steps are rounds of a list schedule.
    Rejected and evicted requests only make a round shorter. Nothing here needs the ids to be
    distinct. -/

namespace ModelServing

namespace Engine

variable {env : Env} {e e₀ e' : Engine} {p p' : Point} {seats limit : ℕ}

/-- The queue, and the sequences of the batch with fewer than `j` tokens. -/
def young (j : ℕ) (e : Engine) : ℕ :=
  e.scheduler.pendingCount + e.activeSequences.countP fun q => decide (q.generatedIds.length < j)

theorem young_le (hpend : e'.scheduler.pendingCount ≤ e.scheduler.pendingCount) {i j : ℕ}
    (hact : ∀ k q', e'.activeSequences.get? k = some q' → q'.generatedIds.length < i →
      ∃ q, e.activeSequences.get? k = some q ∧ q.generatedIds.length < j) :
    young i e' ≤ young j e := by
  refine Nat.add_le_add hpend (OrderedDict.countP_le fun k q' hq' hlt => ?_)
  obtain ⟨q, hq, hlt'⟩ := hact k q' hq' (by simpa using hlt)
  exact ⟨q, hq, by simpa using hlt'⟩

theorem young_zero (e : Engine) : young 0 e = e.scheduler.pendingCount := by
  simp [young, OrderedDict.countP]

theorem young_of_lt {j : ℕ}
    (h : ∀ k q, e.activeSequences.get? k = some q → q.generatedIds.length < j) :
    young j e = e.scheduler.pendingCount + e.batchSize := by
  rw [young, OrderedDict.countP_eq_size fun k q hq => by simpa using h k q hq]
  rfl

theorem young_activate (j : ℕ) (e : Engine) (r : Ref) (inputIds : List ℕ) :
    young j (e.activate r inputIds) ≤ young j e + 1 := by
  rw [young, young, Nat.add_assoc]
  exact Nat.add_le_add le_rfl (e.activeSequences.countP_insert_le _ _ _)

/-! ### One step -/

/-- An exception of something the engine calls. -/
def External : StepError → Prop
  | .tokenizer | .model | .sampler | .decode => True
  | .cache _ | .key _ => False

/-- `n` requests have been selected and not placed yet. -/
structure Boarding (seats : ℕ) (e₀ : Engine) (n : ℕ) (e : Engine) : Prop where
  seated : e.batchSize + n ≤ seats
  waiting : e.scheduler.pendingCount ≤ e₀.scheduler.pendingCount + e₀.batchSize - seats
  young : ∀ j, young j e + n ≤ young j e₀

/-- Everybody has had the token of this step. -/
structure Served (seats : ℕ) (e₀ e : Engine) : Prop where
  seated : e.batchSize ≤ seats
  waiting : young 1 e ≤ e₀.scheduler.pendingCount + e₀.batchSize - seats
  young : ∀ j, young (j + 1) e ≤ young j e₀

/-- The sequences still to remove are there. -/
structure Leaving (p : Point) (e : Engine) : Prop where
  nodup : p.toFinish.Nodup
  present : ∀ id ∈ p.toFinish, id ∈ e.activeSequences.keys

/-- Those that stay have tokens left. -/
def Unspoiled (ids : List String) (e : Engine) : Prop :=
  ∀ k q, e.activeSequences.get? k = some q → k ∉ ids →
    q.generatedIds.length < (e.request q.request).maxTokens

/-- Inside a step that starts at `e₀`. -/
def Serving (seats : ℕ) (e₀ : Engine) (p : Point) (e : Engine) : Prop :=
  match p with
  | .idle => e = e₀
  | .admitting _ | .placing _ _ _ => Boarding seats e₀ p.todo.length e
  | .finishing ids => Served seats e₀ e ∧ Unspoiled ids e
  | .ended none => Served seats e₀ e ∧ Unspoiled [] e
  | .ended (some _) => True

theorem Boarding.mono {n n' : ℕ} (S : Boarding seats e₀ n e)
    (hsize : e'.batchSize + n' ≤ e.batchSize + n)
    (hpend : e'.scheduler.pendingCount ≤ e.scheduler.pendingCount)
    (hy : ∀ j, Engine.young j e' + n' ≤ Engine.young j e + n) : Boarding seats e₀ n' e' :=
  ⟨hsize.trans S.seated, hpend.trans S.waiting, fun j => (hy j).trans (S.young j)⟩

theorem Boarding.fewer {n n' : ℕ} (S : Boarding seats e₀ n e) (hn : n' ≤ n)
    (hsize : e'.batchSize ≤ e.batchSize) (hpend : e'.scheduler.pending = e.scheduler.pending)
    (hact : ∀ k q, e'.activeSequences.get? k = some q → e.activeSequences.get? k = some q) :
    Boarding seats e₀ n' e' := by
  have hle : e'.scheduler.pendingCount ≤ e.scheduler.pendingCount := (congrArg List.length hpend).le
  exact S.mono (Nat.add_le_add hsize hn) hle fun j =>
    Nat.add_le_add (young_le hle fun k q hq hlt => ⟨q, hact k q hq, hlt⟩) hn

theorem Boarding.select (hmax : e.maxBatchSize = seats) {n : ℕ} (hslots : e.maxBatchSize = e.batchSize + n) :
    Boarding seats e (e.scheduler.getNextBatch env.clock n).1.length
      { e with scheduler := (e.scheduler.getNextBatch env.clock n).2 } := by
  obtain ⟨-, live, hsub, hperm, hlen⟩ := RequestScheduler.getNextBatch_split env.clock e.scheduler n
  have hle : live.length ≤ e.scheduler.pendingCount := hsub.length_le
  have hsum := hperm.length_eq
  rw [List.length_append] at hsum
  constructor
  · change e.batchSize + _ ≤ seats
    omega
  · change (e.scheduler.getNextBatch env.clock n).2.pending.length ≤ _
    omega
  · intro j
    rw [Engine.young, Engine.young, Nat.add_right_comm]
    refine Nat.add_le_add ?_ le_rfl
    change (e.scheduler.getNextBatch env.clock n).2.pending.length + _ ≤ _
    omega

/-- The forward pass: everybody in the batch gets a token. -/
theorem Boarding.served {n : ℕ} {logits : List (List (List Logit))} (S : Boarding seats e₀ n e)
    (A : Appended env logits e e') : Served seats e₀ e' := by
  have hstep : ∀ j, Engine.young (j + 1) e' ≤ Engine.young j e := by
    intro j
    refine young_le (by rw [A.scheduler]) fun k q' hq' hlt => ?_
    obtain ⟨q, t, hq, rfl⟩ := A.get_old hq'
    rw [SequenceState.append_generatedIds, List.length_append, List.length_singleton] at hlt
    exact ⟨q, hq, by omega⟩
  have hsize : e'.batchSize = e.batchSize := by
    rw [batchSize, batchSize, ← OrderedDict.length_keys, ← OrderedDict.length_keys, A.keys]
  constructor
  · have := S.seated
    omega
  · exact ((hstep 0).trans (young_zero e).le).trans S.waiting
  · intro j
    have := S.young j
    exact (hstep j).trans (by omega)

theorem Boarding.rest {n : ℕ} (S : Boarding seats e₀ n e) (h : e.activeSequences.keys = []) :
    Served seats e₀ e := by
  have hnone : ∀ k q, e.activeSequences.get? k ≠ some q := fun k q hq => by
    have hk := OrderedDict.mem_keys_of_get? hq
    rw [h] at hk
    exact List.not_mem_nil hk
  have hy : ∀ i j, Engine.young i e ≤ Engine.young j e := fun i j =>
    young_le le_rfl fun k q hq => absurd hq (hnone k q)
  constructor
  · have := S.seated
    omega
  · exact ((hy 1 0).trans (young_zero e).le).trans S.waiting
  · intro j
    have := S.young j
    exact (hy (j + 1) j).trans (by omega)

theorem Served.erase (S : Served seats e₀ e)
    (hpend : e'.scheduler.pendingCount ≤ e.scheduler.pendingCount) {k : String}
    (hact : e'.activeSequences = e.activeSequences.erase k) : Served seats e₀ e' := by
  have hy : ∀ j, Engine.young j e' ≤ Engine.young j e := fun j =>
    young_le hpend fun k' q hq hlt => by
      rw [hact, OrderedDict.get?_erase] at hq
      split at hq
      · cases hq
      · exact ⟨q, hq, hlt⟩
  refine ⟨?_, (hy 1).trans S.waiting, fun j => (hy _).trans (S.young j)⟩
  rw [batchSize, hact]
  exact (OrderedDict.size_erase_le _ _).trans S.seated

theorem unspoiled_appended {logits : List (List (List Logit))} (A : Appended env logits e e') :
    Unspoiled e'.finishedIds e' := by
  intro k q' hq' hk
  have hf : q'.isFinished ≠ true := fun hf => hk (mem_finishedIds.mpr ⟨q', hq', hf⟩)
  obtain ⟨q, t, hq, rfl⟩ := A.get_old hq'
  rw [Ne, SequenceState.append_isFinished] at hf
  simp only [not_or, not_le] at hf
  rw [SequenceState.append_request, SequenceState.append_generatedIds, List.length_append,
    List.length_singleton, request, A.scheduler]
  exact hf.2.2

theorem Unspoiled.finish {id : String} {ids : List String} (N : Unspoiled (id :: ids) e)
    (hreq : ∀ x, (e'.request x).maxTokens = (e.request x).maxTokens)
    (hact : e'.activeSequences = e.activeSequences.erase id) : Unspoiled ids e' := by
  intro k q hq hk
  rw [hact, OrderedDict.get?_erase] at hq
  rw [hreq]
  split at hq
  · cases hq
  · rename_i hne
    exact N k q hq fun h => (List.mem_cons.mp h).elim hne hk

theorem Leaving.micro {a : Action} (N : Leaving p e) (h : Micro env (p, e) a (p', e')) :
    Leaving p' e' := by
  cases h with
  | append _ _ _ =>
    refine ⟨finishedIds_nodup _, fun id hid => ?_⟩
    obtain ⟨q, hq, -⟩ := mem_finishedIds.mp hid
    exact OrderedDict.mem_keys_of_get? hq
  | @finish _ _ id ids _ hf =>
    obtain ⟨hid, hnd⟩ := List.nodup_cons.mp N.nodup
    refine ⟨hnd, fun k hk => ?_⟩
    have hkey := N.present k (List.mem_cons_of_mem _ hk)
    obtain ⟨-, text, -, rfl⟩ := finish_ok hf
    exact OrderedDict.mem_keys_erase.mpr ⟨fun h => hid (h ▸ hk), hkey⟩
  | _ => exact ⟨List.nodup_nil, fun _ h => absurd h List.not_mem_nil⟩

/-- What stays in the batch was not about to leave it, unless the decoder raises. -/
theorem Leaving.stays {a : Action} {k : String} (N : Leaving p e) (h : Micro env (p, e) a (p', e'))
    (hdec : p' ≠ .ended (some .decode)) (hk : k ∈ e'.activeSequences.keys) (hstay : k ∉ p'.toFinish) :
    k ∉ p.toFinish := by
  intro hmem
  cases h with
  | @finish _ _ id ids _ hf =>
    obtain ⟨-, text, -, rfl⟩ := finish_ok hf
    rcases List.mem_cons.mp hmem with rfl | hmem
    · exact (OrderedDict.mem_keys_erase.mp hk).1 rfl
    · exact hstay hmem
  | @raiseFinish _ _ id _ _ hf =>
    rcases finish_error hf with ⟨hnone, -, -⟩ | ⟨q, -, -, rfl, -⟩
    · exact OrderedDict.get?_eq_none_iff.mp hnone (N.present id List.mem_cons_self)
    · exact hdec rfl
  | _ => cases hmem

/-- Nothing in the engine itself raises. -/
theorem Leaving.external {a : Action} {err : StepError} (N : Leaving p e) (K : e.cacheManager.Keyed)
    (h : Micro env (p, e) a (.ended (some err), e')) : External err := by
  cases h with
  | raiseTokenizer _ | raiseModel _ _ => trivial
  | raiseEvict hv => exact absurd (congrArg Prod.fst hv) (K.evictLru_ne_error _)
  | raiseSampler _ _ hs =>
    rw [sampleTokens_error hs]
    trivial
  | @raiseFinish _ _ id _ _ hf =>
    rcases finish_error hf with ⟨hnone, -, -⟩ | ⟨q, -, -, rfl, -⟩
    · exact absurd (N.present id List.mem_cons_self) (OrderedDict.get?_eq_none_iff.mp hnone)
    · trivial

theorem Serving.micro {a : Action} (S : Serving seats e₀ p e) (hmax : e₀.maxBatchSize = seats)
    (hbatch : e₀.batchSize ≤ seats) (h : Micro env (p, e) a (p', e')) :
    Serving seats e₀ p' e' := by
  have hpend : p ≠ .idle → e'.scheduler.pending = e.scheduler.pending := fun hp => pending_micro hp h
  have horigin : ∀ k q, e'.activeSequences.get? k = some q → Origin env (p, e) (p', e') k q :=
    fun _ _ hq => h.origin hq
  have hreq := h.stable _ RequestScheduler.stable_maxTokens
  cases h with
  | full hfull =>
    obtain rfl : e = e₀ := S
    exact ⟨hbatch, by omega, fun j => le_rfl⟩
  | select hslots hn =>
    obtain rfl : e = e₀ := S
    exact Boarding.select hmax hslots
  | tokenize _ => exact Boarding.fewer S le_rfl le_rfl rfl fun _ _ => id
  | reject _ => exact Boarding.fewer S (Nat.le_succ _) le_rfl rfl fun _ _ => id
  | @place _ r rs inputIds _ cache _ =>
    have hsize : ((e.withCache cache).activate r inputIds).batchSize ≤ e.batchSize + 1 :=
      OrderedDict.size_insert_le _ _ _
    have hlen : (Point.placing r inputIds rs).todo.length = (Point.admitting rs).todo.length + 1 := rfl
    refine Boarding.mono S (by omega) le_rfl fun j => ?_
    have hyoung : young j ((e.withCache cache).activate r inputIds) ≤ young j e + 1 :=
      young_activate j (e.withCache cache) r inputIds
    omega
  | @evict _ _ _ _ _ v cache _ _ =>
    have hsize := (dropEvicted_batchSize_le env (e.withCache cache) v).1
    refine Boarding.fewer S le_rfl hsize (hpend Point.noConfusion) fun k q hq => ?_
    cases horigin k q hq with
    | kept h => exact h
  | rest hkeys =>
    refine ⟨Boarding.rest S hkeys, fun k q hq => ?_⟩
    have hk := OrderedDict.mem_keys_of_get? hq
    rw [hkeys] at hk
    exact absurd hk List.not_mem_nil
  | append _ _ hs =>
    have A := appendAll_appended hs
    exact ⟨Boarding.served S A, unspoiled_appended A⟩
  | finish hf =>
    obtain ⟨-, text, -, rfl⟩ := finish_ok hf
    exact ⟨S.1.erase (congrArg List.length (hpend Point.noConfusion)).le rfl, S.2.finish hreq rfl⟩
  | done => exact S
  | raiseTokenizer _ | raiseEvict _ | raiseModel _ _ | raiseSampler _ _ _ | raiseFinish _ => trivial

theorem keyed_micro {a : Action} (O : e.cacheManager.Owned) (K : e.cacheManager.Keyed)
    (hm : Micro env (p, e) a (p', e')) : e'.cacheManager.Keyed := by
  cases hm with
  | full _ | rest _ | done | select _ _ | tokenize _ | reject _ | raiseTokenizer _
  | raiseModel _ _ => exact K
  | raiseSampler _ _ hs => obtain rfl := (Prod.mk.inj hs).2; exact K
  | append _ _ hs => rw [(appendAll_appended hs).cacheManager]; exact K
  | @place _ r _ inputIds _ cache ha =>
    have hc : (e.allocate r inputIds.length).2 = cache := congrArg Prod.snd ha
    exact hc ▸ K.allocateSequence O _ _
  | @evict _ _ _ _ _ v cache _ hv =>
    have hc : cache.Keyed := by have := K.evictLru O; rwa [hv] at this
    rcases dropEvicted_cases env (e.withCache cache) v with ⟨heq, -⟩ | ⟨q, -, -, heq⟩ <;>
      rw [heq] <;> exact hc
  | raiseEvict hv => have := K.evictLru O; rwa [hv] at this
  | finish hf | raiseFinish hf =>
    rcases finish_cases hf with ⟨-, -, rfl⟩ | ⟨q, -, ⟨-, -, rfl⟩ | ⟨text, -, -, rfl⟩⟩
    · exact K
    · exact K
    · exact K.freeSequence O _

/-- A step raises only what something it calls raises. -/
theorem external_of_step {err : StepError} (O : e.cacheManager.Owned) (K : e.cacheManager.Keyed)
    (h : e.step env = (.error err, e')) : External err := by
  obtain ⟨qs, ⟨as, hrun, -⟩, -⟩ := step_leads h
  have hidle : Leaving .idle e := ⟨List.nodup_nil, fun _ h => absurd h List.not_mem_nil⟩
  have hend := hrun.always (I := fun c : Point × Engine => Leaving c.1 c.2 ∧
    c.2.cacheManager.Owned ∧ c.2.cacheManager.Keyed ∧ ∀ err, c.1 = .ended (some err) → External err)
    ⟨hidle, O, K, fun _ h => Point.noConfusion h⟩ ?_
  · exact hend.2.2.2 err rfl
  · rintro ⟨p, x⟩ a ⟨p', x'⟩ ⟨N, O, K, -⟩ hm
    refine ⟨N.micro hm, owned_micro O hm, keyed_micro O K hm, ?_⟩
    rintro err rfl
    exact N.external K hm

/-- Nobody the engine holds asks for more than `limit` tokens. -/
def Capped (limit : ℕ) (p : Point) (e : Engine) : Prop :=
  ∀ r, Holds p e r → (e.request r).maxTokens ≤ limit

theorem Capped.micro {a : Action} (C : Capped limit p e) (h : Micro env (p, e) a (p', e')) :
    Capped limit p' e' := by
  intro r hr
  rw [h.stable _ RequestScheduler.stable_maxTokens]
  exact C r (hr.micro h)

/-! ### Steps are rounds -/

/-- Between two steps. -/
structure Seated (seats limit : ℕ) (e : Engine) : Prop where
  owned : e.cacheManager.Owned
  keyed : e.cacheManager.Keyed
  maxBatchSize : e.maxBatchSize = seats
  batchSize : e.batchSize ≤ seats
  capped : Capped limit .idle e
  unspent : ∀ k q, e.activeSequences.get? k = some q →
    q.generatedIds.length < (e.request q.request).maxTokens

theorem Seated.young_eq (T : Seated seats limit e) {j : ℕ} (hj : limit ≤ j) :
    young j e = e.scheduler.pendingCount + e.batchSize :=
  young_of_lt fun k q hq => (T.unspent k q hq).trans_le ((T.capped _ (.of_active hq)).trans hj)

theorem Seated.drained (T : Seated seats limit e) {j : ℕ} (hj : limit ≤ j) (h : young j e = 0) :
    Drained e := by
  rw [T.young_eq hj] at h
  exact Nat.add_eq_zero_iff.mp h

/-- A step that returns is a round. -/
theorem Seated.step {done : List SequenceState} (T : Seated seats limit e)
    (h : e.step env = (.ok done, e')) :
    Seated seats limit e' ∧ Rounds.Round young seats limit e e' := by
  obtain ⟨qs, ⟨as, hrun, -⟩, -⟩ := step_leads h
  have hidle : Serving seats e .idle e := by rw [Serving]
  have hend := hrun.always (I := fun c : Point × Engine =>
    Serving seats e c.1 c.2 ∧ Capped limit c.1 c.2 ∧ c.2.settings = e.settings ∧
      c.2.cacheManager.Owned ∧ c.2.cacheManager.Keyed)
    ⟨hidle, T.capped, rfl, T.owned, T.keyed⟩ fun c a c' ⟨S, C, hs, O, K⟩ hm =>
      ⟨S.micro T.maxBatchSize T.batchSize hm, C.micro hm, (settings_micro O hm).trans hs,
        owned_micro O hm, keyed_micro O K hm⟩
  obtain ⟨S, C, hs, O, K⟩ := hend
  obtain ⟨S, N⟩ : Served seats e e' ∧ Unspoiled [] e' := S
  have hunspent : ∀ k q, e'.activeSequences.get? k = some q →
      q.generatedIds.length < (e'.request q.request).maxTokens :=
    fun k q hq => N k q hq List.not_mem_nil
  have hwait := S.waiting
  rw [← T.young_eq le_rfl] at hwait
  exact ⟨⟨O, K, (congrArg Prod.fst hs).trans T.maxBatchSize, S.seated, fun r hr => C r (hr.of_idle _),
    hunspent⟩, S.young, hwait⟩

/-! ### When nothing raises -/

/-- The tokenizer answers for each of these requests when its turn comes. -/
def TokenizerAnswers (env : Env) : List Ref → Engine → Prop
  | [], _ => True
  | r :: rs, e => env.tokenizer e.calls (e.request r).prompt 1024 ≠ none ∧
      TokenizerAnswers env rs (e.admitRequest env r).2

/-- The decoder answers for each of these sequences when its turn comes. -/
def DecoderAnswers (env : Env) : List String → Engine → Prop
  | [], _ => True
  | id :: ids, e =>
    (∀ q, e.activeSequences.get? id = some q → env.decode e.calls q.generatedIds true ≠ none) ∧
      DecoderAnswers env ids (e.finish env id).2

/-- The model answers for the batch, the sampler gets a token out of every row of the answer, and the
    decoder answers for the sequences this finishes. -/
def ModelAnswers (env : Env) (e : Engine) : Prop :=
  e.activeSequences.keys ≠ [] → ∃ logits nextTokens e',
    env.model e.calls (e.prepareBatchInputs env) = some logits ∧
    e.iterated.called.sampleTokens env logits = (.ok nextTokens, e') ∧
    DecoderAnswers env (e'.appendAll env nextTokens).finishedIds (e'.appendAll env nextTokens)

/-- No external call of a step from here raises. -/
def CallsAnswer (env : Env) (e : Engine) : Prop :=
  let availableSlots := (e.maxBatchSize - e.batchSize).toNat
  (0 < availableSlots →
    TokenizerAnswers env (e.scheduler.getNextBatch env.clock availableSlots).1
      { e with scheduler := (e.scheduler.getNextBatch env.clock availableSlots).2 }) ∧
  ModelAnswers env (e.admitNewSequences env).2

theorem consistent_leads {c c' : Point × Engine} {qs : List SequenceState}
    (h : Leads env c qs c') (O : c.2.cacheManager.Owned) (K : c.2.cacheManager.Keyed) :
    c'.2.cacheManager.Owned ∧ c'.2.cacheManager.Keyed := by
  obtain ⟨as, hrun, -⟩ := h
  exact hrun.always (I := fun c : Point × Engine => c.2.cacheManager.Owned ∧ c.2.cacheManager.Keyed)
    ⟨O, K⟩ fun c a c' ⟨O, K⟩ hm => ⟨owned_micro O hm, keyed_micro O K hm⟩

theorem admitAll_returns {rs : List Ref} (O : e.cacheManager.Owned) (K : e.cacheManager.Keyed)
    (hans : TokenizerAnswers env rs e) : (admitAll env rs e).1 = .ok () := by
  induction rs generalizing e with
  | nil => rfl
  | cons r rs ih =>
    obtain ⟨htok, hrest⟩ := hans
    unfold admitAll
    rcases h : e.admitRequest env r with ⟨err | ⟨⟩, e₁⟩
    · -- only the tokenizer could raise: an eviction never does
      rcases admitRequest_cases h with ⟨hnone, -, -⟩ | ⟨inputIds, -, hplace⟩
      · exact absurd hnone htok
      · rcases place_cases hplace with ⟨t, cache, -, hres, -⟩ |
          ⟨err', -, ⟨err', cache, hv, -, -⟩ | ⟨v, cache, e₂, -, -, hres, -⟩⟩
        · cases hres
        · exact absurd (congrArg Prod.fst hv) (K.evictLru_ne_error err')
        · cases hres
    · rw [h] at hrest
      have hlead : Leads env (.admitting (r :: rs), e) [] (.admitting rs, e₁) := admit_leads h
      obtain ⟨O₁, K₁⟩ := consistent_leads hlead O K
      exact ih O₁ K₁ hrest

theorem finishAll_returns {ids : List String} (hnd : ids.Nodup)
    (hpresent : ∀ id ∈ ids, id ∈ e.activeSequences.keys) (hans : DecoderAnswers env ids e) :
    ∃ done, (finishAll env ids e).1 = .ok done := by
  induction ids generalizing e with
  | nil => exact ⟨[], rfl⟩
  | cons id ids ih =>
    obtain ⟨hdec, hrest⟩ := hans
    obtain ⟨hid, hnd⟩ := List.nodup_cons.mp hnd
    unfold finishAll
    rcases h : e.finish env id with ⟨err | q, e₁⟩
    · rcases finish_error h with ⟨hnone, -, -⟩ | ⟨q, hq, hnone, -, -⟩
      · exact absurd (hpresent id List.mem_cons_self) (OrderedDict.get?_eq_none_iff.mp hnone)
      · exact absurd hnone (hdec q hq)
    · rw [h] at hrest
      obtain ⟨-, text, -, rfl⟩ := finish_ok h
      have hleft : ∀ k ∈ ids, k ∈ (e.completed env id text q).activeSequences.keys := fun k hk =>
        OrderedDict.mem_keys_erase.mpr
          ⟨fun h => hid (h ▸ hk), hpresent k (List.mem_cons_of_mem _ hk)⟩
      obtain ⟨done, hdone⟩ := ih hnd hleft hrest
      rcases hl : finishAll env ids (e.completed env id text q) with ⟨err | qs, e₂⟩
      · rw [hl] at hdone
        cases hdone
      · exact ⟨q :: qs, by simp only [hl]⟩

/-- A step returns when what it calls answers. -/
theorem step_returns (O : e.cacheManager.Owned) (K : e.cacheManager.Keyed)
    (hans : CallsAnswer env e) : ∃ done, (e.step env).1 = .ok done := by
  obtain ⟨htok, hmodel⟩ := hans
  have hadmit : (e.admitNewSequences env).1 = .ok () := by
    unfold admitNewSequences
    by_cases hfull : e.maxBatchSize - e.batchSize ≤ 0
    · simp only [if_pos hfull]
    · simp only [if_neg hfull]
      exact admitAll_returns O K (htok (by omega))
  rcases ha : e.admitNewSequences env with ⟨err | ⟨⟩, e₁⟩
  · rw [ha] at hadmit
    cases hadmit
  · rw [ha] at hmodel
    by_cases hnil : e₁.activeSequences.keys = []
    · exact ⟨[], by simp only [step, ha, if_pos hnil]⟩
    · obtain ⟨logits, tokens, e₂, hm, hs, hdec⟩ := hmodel hnil
      obtain ⟨done, hdone⟩ := finishAll_returns (finishedIds_nodup _) (fun id hid => by
        obtain ⟨q, hq, -⟩ := mem_finishedIds.mp hid
        exact OrderedDict.mem_keys_of_get? hq) hdec
      exact ⟨done, by simp only [step_admitted ha hnil, hm, hs, hdone]⟩

/-- Calls that answer whatever they are asked, the model with as many positions as the row has, and one
    at least. -/
structure Answering (env : Env) : Prop where
  tokenizer : ∀ i prompt n, env.tokenizer i prompt n ≠ none
  model : ∀ i batch, ∃ logits, env.model i batch = some logits ∧
    ∀ (j : ℕ) (row : List ℕ), batch[j]? = some row → ∃ out, logits[j]? = some out ∧
      row.length ≤ out.length ∧ out ≠ [] ∧ ∀ last ∈ out, last ≠ []
  multinomial : ∀ i ps, env.multinomial i ps ≠ none
  decode : ∀ i ids skip, env.decode i ids skip ≠ none

theorem Answering.sampleToken (A : Answering env) {last : List Logit} (h : last ≠ [])
    (q : ScheduledRequest) (c : ℕ) : ∃ token, (Engine.sampleToken env q (some last) c).1 = .ok token := by
  rw [Engine.sampleToken]
  split
  · cases hg : Sampling.greedyToken env.torch q last with
    | none => exact absurd hg (Sampling.greedyToken_ne_none h)
    | some token => exact ⟨token, rfl⟩
  · cases hd : env.multinomial c (Sampling.probs env.torch q last) with
    | none => exact absurd hd (A.multinomial _ _)
    | some token => exact ⟨token, rfl⟩

theorem Answering.sampleFrom (A : Answering env) {logits : List (List (List Logit))}
    {qs : List SequenceState} {i c : ℕ} (h : ∀ j q, qs[j]? = some q →
      ∃ last, lastLogits logits (i + j) q.inputIds.length = some last ∧ last ≠ []) :
    ∃ tokens, (Engine.sampleFrom env e logits i qs c).1 = .ok tokens := by
  induction qs generalizing i c with
  | nil => exact ⟨[], rfl⟩
  | cons q qs ih =>
    obtain ⟨last, hlast, hne⟩ := h 0 q rfl
    rw [Nat.add_zero] at hlast
    obtain ⟨token, htoken⟩ := A.sampleToken hne (e.request q.request) c
    have hrest : ∀ j q', qs[j]? = some q' →
        ∃ last, lastLogits logits (i + 1 + j) q'.inputIds.length = some last ∧ last ≠ [] := by
      intro j q' hq'
      rw [Nat.add_right_comm, Nat.add_assoc]
      exact h (j + 1) q' hq'
    unfold Engine.sampleFrom
    rw [hlast]
    rcases ht : Engine.sampleToken env (e.request q.request) (some last) c with ⟨err | t, c₁⟩
    · rw [ht] at htoken
      cases htoken
    · obtain ⟨tokens, htokens⟩ := ih (i := i + 1) (c := c₁) hrest
      simp only
      rcases hr : Engine.sampleFrom env e logits (i + 1) qs c₁ with ⟨err | ts, c₂⟩
      · rw [hr] at htokens
        cases htokens
      · exact ⟨t :: ts, rfl⟩

theorem Answering.decoder (A : Answering env) (ids : List String) (e : Engine) :
    DecoderAnswers env ids e := by
  induction ids generalizing e with
  | nil => trivial
  | cons id ids ih => exact ⟨fun q _ => A.decode _ _ _, ih _⟩

theorem Answering.calls (A : Answering env) (e : Engine) : CallsAnswer env e := by
  have htok : ∀ (rs : List Ref) (e : Engine), TokenizerAnswers env rs e := by
    intro rs
    induction rs with
    | nil => exact fun _ => trivial
    | cons r rs ih => exact fun e => ⟨A.tokenizer _ _ _, ih _⟩
  refine ⟨fun _ => htok _ _, fun _ => ?_⟩
  set e₁ := (e.admitNewSequences env).2
  obtain ⟨logits, hm, hrows⟩ := A.model e₁.calls (e₁.prepareBatchInputs env)
  have hlast : ∀ j q, e₁.activeSequences.values[j]? = some q →
      ∃ last, lastLogits logits (0 + j) q.inputIds.length = some last ∧ last ≠ [] := by
    intro j q hq
    obtain ⟨pad, hrow⟩ : ∃ pad, (e₁.prepareBatchInputs env)[j]? = some (q.inputIds ++ pad) := by
      simp only [prepareBatchInputs, List.getElem?_map, hq, Option.map_some]
      exact ⟨_, rfl⟩
    obtain ⟨out, hout, hlen, hne, hall⟩ := hrows j _ hrow
    rw [List.length_append] at hlen
    rw [lastLogits, Nat.zero_add, hout, Option.bind_some]
    split
    · exact ⟨out.getLast hne, List.getLast?_eq_some_getLast hne, hall _ (List.getLast_mem hne)⟩
    · have hlt : q.inputIds.length - 1 < out.length := by omega
      exact ⟨out[q.inputIds.length - 1], List.getElem?_eq_getElem hlt, hall _ (List.getElem_mem hlt)⟩
  obtain ⟨tokens, htokens⟩ := A.sampleFrom (e := e₁.iterated.called) (i := 0)
    (c := e₁.iterated.called.calls) hlast
  exact ⟨logits, tokens, _, hm, Prod.ext htokens rfl, A.decoder _ _⟩

/-! ### The loop -/

/-- The calls of the loop determine what it returns. -/
theorem Iterates.loop {n : ℕ} {dss : List (List SequenceState)} (h : Iterates env n e dss e') :
    runLoop env n e = (.ok dss.flatten, e') := by
  induction h with
  | limit => rfl
  | last hs hempty => simp only [runLoop, hs, if_pos hempty, List.flatten_singleton]
  | more hs hleft _ ih => simp only [runLoop, hs, if_neg hleft, ih, List.flatten_cons]

/-- A loop that may run `r` more rounds makes at most `max 1 r` steps and drains the engine, where
    nothing it calls raises. -/
theorem Seated.loop (env : Env) (hs : 0 < seats) (hl : 0 < limit) (n r : ℕ) {e : Engine}
    (T : Seated seats limit e) (D : Rounds.Due young seats limit e r)
    (hans : ∀ k < n, CallsAnswer env (runLoop env k e).2) :
    ∃ dss e', Iterates env n e dss e' ∧ dss.length ≤ max 1 r ∧ (max 1 r ≤ n → Drained e') := by
  induction n generalizing r e with
  | zero => exact ⟨[], e, .limit, Nat.zero_le _, fun h => by omega⟩
  | succ n ih =>
    obtain ⟨done, hdone⟩ := step_returns T.owned T.keyed (hans 0 n.succ_pos)
    obtain ⟨e₁, h⟩ : ∃ e₁, e.step env = (.ok done, e₁) := ⟨(e.step env).2, Prod.ext hdone rfl⟩
    obtain ⟨T₁, R⟩ := T.step h
    by_cases hd : e₁.scheduler.pendingCount = 0 ∧ e₁.batchSize = 0
    · exact ⟨[done], e₁, .last h hd, Nat.le_max_left _ _, fun _ => hd⟩
    · have hr : 2 ≤ r := by
        by_contra hlt
        refine hd ?_
        rcases Nat.lt_or_ge 0 r with hpos | hzero
        · obtain rfl : r = 1 := by omega
          exact T₁.drained le_rfl ((D.round hs R).done hs hl)
        · obtain rfl : r = 0 := by omega
          have h₀ := D.done hs hl
          exact T₁.drained (Nat.le_succ _) (Nat.le_zero.mp ((R.turn limit).trans h₀.le))
      obtain ⟨r, rfl⟩ : ∃ m, r = m + 1 := ⟨r - 1, by omega⟩
      have hans₁ : ∀ k < n, CallsAnswer env (runLoop env k e₁).2 := by
        intro k hk
        have hlater := hans (k + 1) (by omega)
        unfold runLoop at hlater
        simp only [h, if_neg hd] at hlater
        rcases hrest : runLoop env k e₁ with ⟨err | rest, e₂⟩ <;> rw [hrest] at hlater <;> exact hlater
      obtain ⟨dss, e', hit, hcalls, hdrained⟩ := ih r T₁ (D.round hs R) hans₁
      refine ⟨done :: dss, e', .more h hd hit, ?_, fun hn => hdrained (by omega)⟩
      rw [List.length_cons]
      omega

/-! ### Runs -/

variable {maxBatchSize maxQueueSize : ℤ} {defaultTimeout : ℚ} {policy : SchedulingPolicy}
  {numBlocks blockSize : ℕ} {evs : List Event}

theorem consistent_of_calls (hbs : 0 < blockSize) (hrun : Trace.Run (Call env)
      (new maxBatchSize maxQueueSize defaultTimeout policy numBlocks blockSize) evs e) :
    e.cacheManager.Owned ∧ e.cacheManager.Keyed ∧ e.maxBatchSize = maxBatchSize := by
  refine hrun.always (I := fun e => e.cacheManager.Owned ∧ e.cacheManager.Keyed ∧
    e.maxBatchSize = maxBatchSize)
    ⟨CacheManager.new_owned numBlocks hbs, fun k => Iff.rfl, rfl⟩ ?_
  rintro e ev e' ⟨O, K, hmax⟩ hst
  cases ev with
  | submitRequest r req b =>
    obtain ⟨-, -, heq⟩ := hst
    obtain rfl := (Prod.mk.inj heq).2
    exact ⟨O, K, hmax⟩
  | cancelRequest k b =>
    obtain rfl := (Prod.mk.inj hst).2
    exact ⟨O, K, hmax⟩
  | step res =>
    obtain ⟨qs, ⟨as, hmicro, -⟩, -⟩ := step_leads hst
    exact hmicro.always (I := fun c : Point × Engine => c.2.cacheManager.Owned ∧
      c.2.cacheManager.Keyed ∧ c.2.maxBatchSize = maxBatchSize) ⟨O, K, hmax⟩
      fun c a c' ⟨O, K, hmax⟩ hm => ⟨owned_micro O hm, keyed_micro O K hm,
        (congrArg Prod.fst (settings_micro O hm)).trans hmax⟩

/-- CORRECT: after any calls, with repeated ids, cancellations and exceptions, `run_until_empty`
    returns unless something it calls raises. It calls `step` at most `max 1 (⌈N / B⌉ * M)` times, and
    the engine is drained when that bound is within its safety limit: so for the queue of 128, the
    batch of 32 and the 2048 tokens of the server. -/
theorem runUntilEmpty_drains (hbs : 0 < blockSize) {B M : ℕ} (hB : 1 ≤ B)
    (hrun : Trace.Run (Call env)
      (new B maxQueueSize defaultTimeout policy numBlocks blockSize) evs e)
    (hbatch : e.batchSize ≤ B)
    (hqueued : ∀ r ∈ e.scheduler.pending,
      1 ≤ (e.request r).maxTokens ∧ (e.request r).maxTokens ≤ M)
    (hactive : ∀ k q, e.activeSequences.get? k = some q →
      q.generatedIds.length < (e.request q.request).maxTokens ∧
        (e.request q.request).maxTokens ≤ M)
    (hans : ∀ k < 10000, CallsAnswer env (runLoop env k e).2) :
    let bound := max 1 ((e.scheduler.pendingCount + e.batchSize) ⌈/⌉ B * M)
    (∃ dss e', e.runUntilEmpty env = (.ok dss.flatten, e') ∧ Iterates env 10000 e dss e' ∧
      dss.length ≤ bound ∧
      (bound ≤ 10000 → e'.scheduler.pendingCount = 0 ∧ e'.batchSize = 0)) ∧
    (e.scheduler.pendingCount ≤ 128 → e.batchSize = 0 → B = 32 → M ≤ 2048 → bound ≤ 10000) := by
  intro bound
  obtain ⟨O, K, hmax⟩ := consistent_of_calls hbs hrun
  have hunspent := fun k q hq => (hactive k q hq).1
  have hcap : ∀ {m}, M ≤ m → Capped m .idle e := by
    rintro m hm r (hr | hr | ⟨k, q, hq, rfl⟩)
    · exact (hqueued r hr).2.trans hm
    · cases hr
    · exact (hactive k q hq).2.trans hm
  have T : Seated B M e := ⟨O, K, hmax, hbatch, hcap le_rfl, hunspent⟩
  refine ⟨?_, ?_⟩
  · rcases Nat.eq_zero_or_pos M with rfl | hM
    · -- nobody may ask for no token at all, so there is nobody
      have hnil : e.scheduler.pendingCount + e.batchSize = 0 := by
        rw [← T.young_eq (Nat.zero_le 0), young_zero]
        refine List.length_eq_zero_iff.mpr (List.eq_nil_iff_forall_not_mem.mpr fun r hr => ?_)
        have := hqueued r hr
        omega
      have T₁ : Seated B 1 e := ⟨O, K, hmax, hbatch, hcap (Nat.zero_le 1), hunspent⟩
      have hdue : Rounds.Due young B 1 e 0 := by
        have := Rounds.due_start young B 1 e
        rwa [T₁.young_eq le_rfl, hnil, Chunks.ceilDiv_eq, Nat.div_eq_of_lt (by omega)] at this
      have hbound : bound = max 1 0 := by simp [bound]
      obtain ⟨dss, e', hit, hcalls, hdrained⟩ := Seated.loop env hB Nat.one_pos 10000 0 T₁ hdue hans
      exact ⟨dss, e', hit.loop, hit, hbound ▸ hcalls, fun hb => hdrained (hbound ▸ hb)⟩
    · have hdue := Rounds.due_start young B M e
      rw [T.young_eq le_rfl] at hdue
      obtain ⟨dss, e', hit, hcalls, hdrained⟩ := Seated.loop env hB hM 10000 _ T hdue hans
      exact ⟨dss, e', hit.loop, hit, hcalls, hdrained⟩
  · rintro hq hb rfl hM
    have hchunks : (e.scheduler.pendingCount + e.batchSize) ⌈/⌉ 32 ≤ 4 := by
      rw [Chunks.ceilDiv_eq]
      omega
    have := Nat.mul_le_mul hchunks hM
    omega

/-- Two requests of one id, one seat and two tokens each: at most four steps. -/
theorem runUntilEmpty_drains_two :
    let env := { Env.rowwise fun _ => [] with
      model := fun _ batch => some (batch.map fun row => .replicate (row.length + 1) [.negInf, .fin 0])
      multinomial := fun _ _ => some 1 }
    let req : ScheduledRequest :=
      { requestId := "a", prompt := "p", maxTokens := 2, temperature := 0, createdAt := 0 }
    let e := (((new (1 : ℕ) 8 60 .fcfs 4 2).submitRequest req).2.submitRequest req).2
    ∃ dss e', e.runUntilEmpty env = (.ok dss.flatten, e') ∧ Iterates env 10000 e dss e' ∧
      dss.length ≤ 4 ∧ e'.scheduler.pendingCount = 0 ∧ e'.batchSize = 0 := by
  intro env req e
  have hrun : Trace.Run (Call env) (new (1 : ℕ) 8 60 .fcfs 4 2)
      [.submitRequest 0 req true, .submitRequest 1 req true] e :=
    .snoc (.snoc .nil ⟨rfl, rfl, rfl⟩) ⟨rfl, rfl, rfl⟩
  have hreq : ∀ r ∈ e.scheduler.pending, (e.request r).maxTokens = 2 := by decide +kernel
  have hans : Answering env := by
    refine ⟨fun _ _ _ => Option.some_ne_none _, fun i batch => ⟨_, rfl, fun j row hrow => ?_⟩,
      fun _ _ => Option.some_ne_none _, fun _ _ _ => Option.some_ne_none _⟩
    refine ⟨.replicate (row.length + 1) [.negInf, .fin 0], by rw [List.getElem?_map, hrow]; rfl,
      by simp, by simp, fun last hlast => ?_⟩
    rw [List.eq_of_mem_replicate hlast]
    exact List.cons_ne_nil _ _
  obtain ⟨⟨dss, e', hloop, hit, hcalls, hdrained⟩, -⟩ := runUntilEmpty_drains (M := 2) (by decide)
    le_rfl hrun (by decide +kernel) (fun r hr => by rw [hreq r hr]; decide)
    (fun k q hq => by cases hq) fun k _ => hans.calls _
  have hbound : max 1 ((e.scheduler.pendingCount + e.batchSize) ⌈/⌉ 1 * 2) = 4 := by decide +kernel
  rw [hbound] at hcalls hdrained
  exact ⟨dss, e', hloop, hit, hcalls, hdrained (by decide)⟩

end Engine

end ModelServing
