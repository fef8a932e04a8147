import ModelServing.Engine.ExceptionSafety

/-! Whether the blocks of a sequence cover its tokens. A step appends tokens but never extends a block
    table, so a sequence keeps the blocks of its prompt: it is covered exactly as long as what it has
    generated fits into the slots that the prompt leaves free in its last block. -/

namespace ModelServing

namespace Engine

variable {env : Env} {e e' : Engine} {acc : List Ref} {p p' : Point} {numBlocks blockSize : ℕ}

/-- The table of `k` has room for all tokens of `q`. -/
def Covered (e : Engine) (k : String) (q : SequenceState) : Prop :=
  ∃ t, e.cacheManager.blockTables.get? k = some t ∧ q.inputIds.length ≤ t.maxTokens

/-- The slots that `n` tokens leave free in their last block. -/
def spareSlots (blockSize n : ℕ) : ℕ := n ⌈/⌉ blockSize * blockSize - n

theorem le_ceilDiv_mul (hbs : 0 < blockSize) (n : ℕ) : n ≤ n ⌈/⌉ blockSize * blockSize := by
  rw [Nat.mul_comm]
  exact (ceilDiv_le_iff_le_mul hbs).mp (Nat.le_refl _)

/-- Every table is the one its sequence's prompt was given. -/
def Sized (blockSize : ℕ) (e : Engine) : Prop :=
  ∀ k q, e.activeSequences.get? k = some q → ∃ t, e.cacheManager.blockTables.get? k = some t ∧
    t.blockSize = blockSize ∧
      t.numBlocks = (q.inputIds.length - q.generatedIds.length) ⌈/⌉ blockSize

namespace Synced

/-- Only the table of an admitted sequence is new. -/
theorem table_eq {a : Action} (S : Synced numBlocks blockSize acc e) (B : Batch acc p e)
    (h : Micro env (p, e) a (p', e')) {k : String} (hk : k ∈ e.activeSequences.keys)
    (hk' : k ∈ e'.activeSequences.keys) :
    e'.cacheManager.blockTables.get? k = e.cacheManager.blockTables.get? k := by
  cases h with
  | full _ | rest _ | done | select _ _ | tokenize _ | reject _ | raiseTokenizer _
  | raiseModel _ _ => rfl
  | raiseSampler _ _ hs => obtain rfl := (Prod.mk.inj hs).2; rfl
  | append _ _ hs => rw [(appendAll_appended hs).cacheManager]
  | @place _ r _ _ _ _ ha =>
    have hne : k ≠ e.scheduler.idOf r := fun heq =>
      (B.todo r List.mem_cons_self).2.2 (heq ▸ hk)
    exact ((S.owned.allocated ha).tables k).trans (if_neg hne)
  | evict _ hv =>
    obtain ⟨q, -, heq, F⟩ := S.evict_cases B env hv
    rw [heq] at hk' ⊢
    exact (F.tables k).trans (if_neg (OrderedDict.mem_keys_erase.mp hk').1)
  | raiseEvict hv =>
    obtain ⟨v, hv, hdead⟩ := CacheManager.evictLru_error hv
    exact absurd ((S.tables v).mpr ((S.order v).mp hv)) (OrderedDict.get?_eq_none_iff.mp hdead)
  | finish hf | raiseFinish hf =>
    rcases finish_cases hf with ⟨-, -, rfl⟩ | ⟨q, -, ⟨-, -, rfl⟩ | ⟨text, -, -, rfl⟩⟩
    · rfl
    · rfl
    · exact (S.owned.get?_freeSequence _ k).trans
        (if_neg (OrderedDict.mem_keys_erase.mp hk').1)

end Synced

theorem Sized.micro {a : Action} (Z : Sized blockSize e) (B : Batch acc p e)
    (S : Synced numBlocks blockSize acc e) (h : Micro env (p, e) a (p', e')) :
    Sized blockSize e' := by
  intro k q' hq'
  have hk' := OrderedDict.mem_keys_of_get? hq'
  cases h.origin hq' with
  | kept hq =>
    rw [S.table_eq B h (OrderedDict.mem_keys_of_get? hq) hk']
    exact Z k q' hq
  | @admitted _ _ r rs ids t ha =>
    have A := S.owned.allocated ha
    exact ⟨t, (A.tables _).trans (if_pos rfl), A.blockSize_table.trans S.blockSize,
      S.blockSize ▸ A.numBlocks_table⟩
  | @grown _ _ _ q _ _ _ _ _ hent _ =>
    have hq := OrderedDict.get?_eq_some_iff.mpr (List.mem_of_getElem? hent)
    obtain ⟨t, ht, hsize, hnum⟩ := Z k q hq
    rw [S.table_eq B h (OrderedDict.mem_keys_of_get? hq) hk']
    refine ⟨t, ht, hsize, ?_⟩
    simpa using hnum

/-- A sequence of a known prompt length is covered while it has not outgrown its last block. -/
theorem Sized.covered_iff (Z : Sized blockSize e) (hbs : 0 < blockSize) {k : String}
    {q : SequenceState} {ids : List ℕ} (hq : e.activeSequences.get? k = some q)
    (hin : q.inputIds = ids ++ q.generatedIds) :
    Covered e k q ↔ q.generatedIds.length ≤ spareSlots blockSize ids.length := by
  obtain ⟨t, ht, hsize, hnum⟩ := Z k q hq
  have hlen : q.inputIds.length = ids.length + q.generatedIds.length := by
    rw [hin, List.length_append]
  have hle := le_ceilDiv_mul hbs ids.length
  rw [hlen, Nat.add_sub_cancel_right] at hnum
  have hmax : t.maxTokens = ids.length ⌈/⌉ blockSize * blockSize := by
    rw [BlockTable.maxTokens, hnum, hsize]
  constructor
  · rintro ⟨t', ht', hcov⟩
    cases ht.symm.trans ht'
    rw [spareSlots]
    omega
  · intro hgen
    rw [spareSlots] at hgen
    exact ⟨t, ht, by omega⟩

/-! ### Runs -/

variable {maxBatchSize maxQueueSize : ℤ} {defaultTimeout : ℚ} {policy : SchedulingPolicy}
  {evs : List Event}

theorem sized_of_run (hbs : 0 < blockSize) (hrun : Trace.Run (Step env)
    (new maxBatchSize maxQueueSize defaultTimeout policy numBlocks blockSize) evs e)
    (hname : Named evs) (hdec : Decoded evs) : Sized blockSize e := by
  have hinv : Named evs → Decoded evs → Sized blockSize e := by
    refine hrun.invariant (I := fun evs e => Named evs → Decoded evs → Sized blockSize e)
      (fun _ _ _ _ h => by cases h) ?_
    intro evs e ev e' hr hi hst hname hdec
    have hleft : ∀ x ∈ evs, x ∈ evs ++ [ev] := fun _ => List.mem_append_left _
    have hname' : Named evs := fun r req b h => hname r req b (hleft _ h)
    have hdec' : Decoded evs := fun h => hdec (hleft _ h)
    have Z := hi hname' hdec'
    cases ev with
    | submitRequest r req b =>
      obtain ⟨-, -, heq⟩ := hst
      obtain rfl := (Prod.mk.inj heq).2
      exact Z
    | cancelRequest k b =>
      obtain rfl := (Prod.mk.inj hst).2
      exact Z
    | step res =>
      obtain ⟨qs, ⟨as, hmicro, -⟩, -⟩ := step_leads hst
      have hend : land (.ended none) res ≠ .ended (some .decode) := by
        intro hend
        cases res with
        | ok _ => cases hend
        | error err =>
          cases hend
          exact hdec (List.mem_append_right _ List.mem_cons_self)
      have h := Micro.run_of (G := fun p => p ≠ .ended (some .decode))
        (I := fun c => Batch (accepted evs) c.1 c.2 ∧
          Synced numBlocks blockSize (accepted evs) c.2 ∧ Sized blockSize c.2)
        (fun p hp => hp _) (fun c a c' ⟨B, S, Z⟩ hm hg =>
          ⟨B.micro hm, S.micro B hm hg, Z.micro B S hm⟩) hmicro
        ⟨batch_of_run hr, synced_of_run hbs hr hname' hdec', Z⟩ hend
      exact h.2.2
  exact hinv hname hdec

/-- CORRECT: after any run with distinct non-empty ids in which nothing raises, a sequence of the batch
    has blocks for all its tokens if and only if the generated ones fit into the slots its prompt
    leaves free in its last block; so all are covered when no request may generate more than one
    token beyond these. -/
theorem covered_of_run (hbs : 0 < blockSize) (hrun : Trace.Run (Step env)
      (new maxBatchSize maxQueueSize defaultTimeout policy numBlocks blockSize) evs e)
    (hname : Named evs) (hquiet : Quiet evs) :
    (∀ k q, e.activeSequences.get? k = some q → ∃ i ids,
      env.tokenizer i (e.request q.request).prompt 1024 = some ids ∧
      q.inputIds = ids ++ q.generatedIds ∧
      (Covered e k q ↔ q.generatedIds.length ≤ spareSlots blockSize ids.length)) ∧
    ((∀ r req, .submitRequest r req true ∈ evs → ∀ i ids,
        env.tokenizer i req.prompt 1024 = some ids →
        req.maxTokens ≤ spareSlots blockSize ids.length + 1) →
      ∀ k q, e.activeSequences.get? k = some q → Covered e k q) := by
  have Z := sized_of_run hbs hrun hname hquiet.benign.decoded
  have L := lossless_of_run hbs hrun hname hquiet.benign
  have T := tokenized_of_run hrun
  refine ⟨fun k q hq => ?_, fun hfit k q hq => ?_⟩
  · obtain ⟨i, ids, hi, hin⟩ := T.active k q hq
    exact ⟨i, ids, hi, hin, Z.covered_iff hbs hq hin⟩
  · obtain ⟨i, ids, hi, hin⟩ := T.active k q hq
    obtain ⟨req, hmem⟩ := mem_accepted.mp ((batch_of_run hrun).active k q hq).1
    have hmax := (submitted_of_run hrun hmem _ RequestScheduler.stable_maxTokens).1
    have hprompt := (submitted_of_run hrun hmem _ RequestScheduler.stable_prompt).1
    have hle := hfit _ req hmem i ids (hprompt ▸ hi)
    have hf : q.isFinished = false := by
      by_contra hne
      exact absurd (L.finished k q hq (by simpa using hne)) List.not_mem_nil
    rw [Z.covered_iff hbs hq hin]
    rcases (L.unspent k q hq hf).2 with hnil | hlt
    · simp [hnil]
    · omega

/-- A prompt of one token in blocks of two leaves room for the one token that is not the last. -/
theorem covered_of_run_fits :
    let env := Env.rowwise fun _ => [.negInf, .fin 0]
    let req : ScheduledRequest :=
      { requestId := "a", prompt := "p", maxTokens := 2, temperature := 0, createdAt := 0 }
    let e := ((((new 1 8 60 .fcfs 4 2).submitRequest req).2).step env).2
    e.activeSequences.keys = ["a"] ∧ ∀ k q, e.activeSequences.get? k = some q → Covered e k q := by
  intro env req e
  have hrun := Trace.Run.snoc (.snoc .nil
    (step_submitRequest env (new 1 8 60 .fcfs 4 2) req
      ⟨rfl, fun r hr => absurd hr (Nat.not_lt_zero r)⟩))
    (step_step env ((new 1 8 60 .fcfs 4 2).submitRequest req).2)
  have hok : (((new 1 8 60 .fcfs 4 2).submitRequest req).2.step env).1 = .ok [] := by
    decide +kernel
  refine ⟨by decide +kernel, (covered_of_run (by decide) hrun (fun r req' b h => ?_)
    (fun err h => ?_)).2 fun r req' h i ids hi => ?_⟩
  · simp only [List.nil_append, List.cons_append, List.mem_cons, Event.submitRequest.injEq,
      reduceCtorEq, List.not_mem_nil, or_false] at h
    rw [h.2.1]
    decide
  · simp only [List.nil_append, List.cons_append, List.mem_cons, Event.step.injEq, reduceCtorEq,
      List.not_mem_nil, or_false, hok] at h
  · simp only [List.nil_append, List.cons_append, List.mem_cons, Event.submitRequest.injEq,
      reduceCtorEq, List.not_mem_nil, or_false] at h
    rw [h.2.1] at hi ⊢
    cases hi
    decide +kernel

/-- Blocks of one token: after the first step the sequence has two tokens and one block. -/
theorem not_covered :
    let env := Env.rowwise fun _ => [.negInf, .fin 0]
    let req : ScheduledRequest :=
      { requestId := "a", prompt := "p", maxTokens := 3, temperature := 0, createdAt := 0 }
    let e := ((new 1 8 60 .fcfs 4 1).submitRequest req).2
    Trace.Run (Step env) (new 1 8 60 .fcfs 4 1)
      [.submitRequest 0 req true, .step (.ok [])] (e.step env).2 ∧
    ∃ q, (e.step env).2.activeSequences.get? "a" = some q ∧ ¬ Covered (e.step env).2 "a" q := by
  intro env req e
  refine ⟨.snoc (.snoc .nil ⟨⟨rfl, fun r hr => absurd hr (Nat.not_lt_zero r)⟩, rfl, rfl⟩)
    (Prod.ext (by decide +kernel) rfl), { request := 0, inputIds := [112, 1], generatedIds := [1] },
    by decide +kernel, ?_⟩
  rintro ⟨t, ht, hle⟩
  have htab : (e.step env).2.cacheManager.blockTables.get? "a" =
      some { sequenceId := "a", blockSize := 1, physicalBlockIds := [3] } := by decide +kernel
  cases htab.symm.trans ht
  exact absurd hle (by decide)

end Engine

end ModelServing
