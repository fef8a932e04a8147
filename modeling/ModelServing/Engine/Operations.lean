import ModelServing.Engine.Conservation
import ModelServing.Engine.Transitions

/-! What the operations inside a step do, said once: failing a request and recording its prompt,
    evicting, finishing, and appending one token to every sequence. Nothing after this module
    unfolds them. -/

namespace ModelServing

open RequestScheduler (Touches)

namespace RequestScheduler

variable {acc : List Ref} {s : RequestScheduler} {r : Ref}

theorem touches_fail (clock : ℕ → ℚ) (msg : String) (s : RequestScheduler) (r : Ref) :
    Touches (· = r) s (s.call clock r (.fail msg)) :=
  touches_call clock (.fail msg) (fun _ hg => hg.fail msg) s r

theorem statusOf_fail (clock : ℕ → ℚ) (msg : String) (s : RequestScheduler) (r : Ref) :
    (s.call clock r (.fail msg)).statusOf r = .FAILED :=
  congrArg ScheduledRequest.status (request_call_self clock (.fail msg) s r)

/-- A request that is not pending may fail wherever it is. -/
theorem Ledger.fail (L : Ledger acc s) (hr : r ∉ s.pending) (clock : ℕ → ℚ) (msg : String) :
    Ledger acc (s.call clock r (.fail msg)) := by
  have T := touches_fail clock msg s r
  have hf := statusOf_fail clock msg s r
  have hst : ∀ x, (s.call clock r (.fail msg)).statusOf x = s.statusOf x ∨
      (s.call clock r (.fail msg)).statusOf x = .FAILED := fun x => by
    by_cases hx : x = r
    · exact Or.inr (hx ▸ hf)
    · exact Or.inl (T.status hx)
  constructor
  · exact L.lt_next
  · intro x y hx hy h
    rw [T.id_eq, T.id_eq] at h
    exact L.ids_inj x y hx hy h
  · exact L.pending_nodup
  · intro x hx
    have hne : x ≠ r := fun h => hr (h ▸ hx)
    rw [T.status hne]
    exact L.pending x hx
  · intro k x hx
    obtain ⟨hacc, hid, h⟩ := L.running k x hx
    refine ⟨hacc, (T.id_eq x).trans hid, ?_⟩
    rcases hst x with h' | h'
    · exact h' ▸ h
    · exact Or.inr h'
  · intro k x hx
    obtain ⟨hacc, hid, h⟩ := L.completed k x hx
    refine ⟨hacc, (T.id_eq x).trans hid, ?_⟩
    rcases hst x with h' | h'
    · exact h' ▸ h
    · exact Or.inr (Or.inr h')
  · exact L.disjoint
  · intro x hx
    rw [T.id_eq]
    exact L.located x hx

theorem touches_promptTokens (s : RequestScheduler) (r : Ref) (n : ℕ) :
    Touches (· = r) s (s.set r fun q => { q with promptTokens := n }) :=
  touches_set _ (fun _ hg => hg.promptTokens n) s r

theorem statusOf_promptTokens (s : RequestScheduler) (r x : Ref) (n : ℕ) :
    (s.set r fun q => { q with promptTokens := n }).statusOf x = s.statusOf x :=
  ObjectHeap.map_get_modify ScheduledRequest.status s.requests r x
    (f := fun q => { q with promptTokens := n }) fun _ => rfl

/-- Assigning to a field that is neither id nor status. -/
theorem Ledger.promptTokens (L : Ledger acc s) (r : Ref) (n : ℕ) :
    Ledger acc (s.set r fun q => { q with promptTokens := n }) := by
  have T := touches_promptTokens s r n
  have hst := fun x => statusOf_promptTokens s r x n
  refine ⟨L.lt_next, fun x y hx hy h => L.ids_inj x y hx hy ?_, L.pending_nodup, fun x hx => ?_,
    fun k x hx => ?_, fun k x hx => ?_, L.disjoint, fun x hx => ?_⟩
  · rwa [T.id_eq, T.id_eq] at h
  · rw [hst]; exact L.pending x hx
  · rw [hst, T.id_eq]; exact L.running k x hx
  · rw [hst, T.id_eq]; exact L.completed k x hx
  · rw [T.id_eq]; exact L.located x hx

end RequestScheduler

namespace RequestScheduler

/-- Completing an id touches the request running under it. -/
theorem completeRequest_frame (clock : ℕ → ℚ) (s : RequestScheduler) (k text : String) (n : ℕ) :
    (s.completeRequest clock k text n).pending = s.pending ∧
    (s.completeRequest clock k text n).settings = s.settings ∧
    (s.completeRequest clock k text n).requests.next = s.requests.next ∧
    (∀ x, s.running.get? k ≠ some x → (s.completeRequest clock k text n).request x = s.request x) ∧
    ∀ {β : Type} (g : ScheduledRequest → β), Stable g →
      ∀ x, g ((s.completeRequest clock k text n).request x) = g (s.request x) := by
  unfold completeRequest
  cases hr : s.running.get? k with
  | none => exact ⟨rfl, rfl, rfl, fun _ _ => rfl, fun _ _ _ => rfl⟩
  | some r =>
    refine ⟨rfl, rfl, rfl, fun x hx => ?_, fun g hg x => ?_⟩
    · have hne : x ≠ r := fun h => hx (by rw [h])
      exact request_call_of_ne clock (.complete text n) { s with running := s.running.erase k } hne
    · exact ObjectHeap.map_get_modify g s.requests r x (hg.complete text n _)

/-- A cancellation takes nothing but the cancelled request out of the queue. -/
theorem cancelRequest_frame (clock : ℕ → ℚ) (s : RequestScheduler) (k : String) :
    (s.cancelRequest clock k).2.pending.Sublist s.pending ∧
    (s.cancelRequest clock k).2.requests.next = s.requests.next ∧
    ∀ {β : Type} (g : ScheduledRequest → β), Stable g →
      ∀ x, g ((s.cancelRequest clock k).2.request x) = g (s.request x) := by
  unfold cancelRequest
  split
  · exact ⟨List.eraseP_sublist, rfl, fun g hg => (touches_call clock _ (fun _ h => h.cancel) s _).stable g hg⟩
  · split
    · exact ⟨.refl _, rfl, fun g hg => (touches_call clock _ (fun _ h => h.cancel) s _).stable g hg⟩
    · exact ⟨.refl _, rfl, fun _ _ _ => rfl⟩

end RequestScheduler

namespace SequenceState

variable (eos : Option ℕ) (n t : ℕ) (q : SequenceState)

@[simp] theorem append_request : (q.append eos n t).request = q.request := by
  simp only [append]
  split
  · rfl
  · split <;> rfl

@[simp] theorem append_inputIds : (q.append eos n t).inputIds = q.inputIds ++ [t] := by
  simp only [append]
  split
  · rfl
  · split <;> rfl

@[simp] theorem append_generatedIds : (q.append eos n t).generatedIds = q.generatedIds ++ [t] := by
  simp only [append]
  split
  · rfl
  · split <;> rfl

theorem append_isFinished : (q.append eos n t).isFinished = true ↔
    q.isFinished = true ∨ some t = eos ∨ n ≤ q.generatedIds.length + 1 := by
  simp only [append]
  split
  · simp [*]
  · split
    · rename_i h
      simpa using Or.inr (Or.inr h)
    · rename_i h₁ h₂
      simp only [List.length_append, List.length_singleton, ge_iff_le] at h₂
      simp [h₁, h₂]

theorem append_finishReason (h : (q.append eos n t).isFinished = true) (hq : q.isFinished = false) :
    (q.append eos n t).finishReason = if some t = eos then "eos" else "length" := by
  simp only [append] at h ⊢
  split
  · rfl
  · rw [if_neg ‹_›] at h
    split
    · rfl
    · rw [if_neg ‹_›] at h
      cases hq.symm.trans h

end SequenceState

namespace Engine

variable {env : Env} {e e' : Engine} {acc : List Ref} {r : Ref} {k : String}

theorem idOf_tokenized (e : Engine) (r : Ref) (inputIds : List ℕ) (x : Ref) :
    (e.tokenized r inputIds).scheduler.idOf x = e.scheduler.idOf x :=
  (RequestScheduler.touches_promptTokens e.scheduler r inputIds.length).id_eq x

theorem statusOf_tokenized (e : Engine) (r : Ref) (inputIds : List ℕ) (x : Ref) :
    (e.tokenized r inputIds).scheduler.statusOf x = e.scheduler.statusOf x :=
  RequestScheduler.statusOf_promptTokens e.scheduler r x inputIds.length

/-- A request joins the batch under its id. -/
theorem get?_activate (e : Engine) (cache : CacheManager) (r : Ref) (inputIds : List ℕ) (k : String) :
    ((e.withCache cache).activate r inputIds).activeSequences.get? k =
      if k = e.scheduler.idOf r then some { request := r, inputIds := inputIds }
      else e.activeSequences.get? k := OrderedDict.get?_insert ..

theorem mem_keys_activate {cache : CacheManager} {inputIds : List ℕ} :
    k ∈ ((e.withCache cache).activate r inputIds).activeSequences.keys ↔
      k = e.scheduler.idOf r ∨ k ∈ e.activeSequences.keys := OrderedDict.mem_keys_insert

/-! ### The operations of a step -/

/-- An eviction hits a sequence with a non-empty id, which leaves the batch and fails, or nothing. -/
theorem dropEvicted_cases (env : Env) (e : Engine) (v : String) :
    (e.dropEvicted env (some v) = e ∧ (v = "" ∨ v ∉ e.activeSequences.keys)) ∨
    (∃ q, v ≠ "" ∧ e.activeSequences.get? v = some q ∧ e.dropEvicted env (some v) =
      fail env { e with activeSequences := e.activeSequences.erase v } q.request
        "Evicted due to memory pressure") := by
  by_cases hv : v = ""
  · exact Or.inl ⟨by simp only [dropEvicted, if_pos hv], Or.inl hv⟩
  · cases hq : e.activeSequences.get? v with
    | none =>
      exact Or.inl ⟨by simp only [dropEvicted, if_neg hv, hq],
        Or.inr (OrderedDict.get?_eq_none_iff.mp hq)⟩
    | some q => exact Or.inr ⟨q, hv, rfl, by simp only [dropEvicted, if_neg hv, hq]⟩

/-- The engine after `sequenceId` has left the batch as `q` and is reported as completed. -/
def completed (env : Env) (e : Engine) (sequenceId text : String) (q : SequenceState) : Engine :=
  { e with
    activeSequences := e.activeSequences.erase sequenceId
    calls := e.calls + 1
    scheduler := e.scheduler.completeRequest env.clock sequenceId text q.generatedIds.length
    cacheManager := e.cacheManager.freeSequence sequenceId
    totalRequests := e.totalRequests + 1 }

/-- The engine after `sequenceId` has left the batch and its tokens could not be decoded. -/
def popped (e : Engine) (sequenceId : String) : Engine :=
  { e with activeSequences := e.activeSequences.erase sequenceId, calls := e.calls + 1 }

theorem finish_cases {res : Except StepError SequenceState} {id : String}
    (h : e.finish env id = (res, e')) :
    (e.activeSequences.get? id = none ∧ res = .error (.key id) ∧ e' = e) ∨
    ∃ q, e.activeSequences.get? id = some q ∧
      ((env.decode e.calls q.generatedIds true = none ∧ res = .error .decode ∧ e' = e.popped id) ∨
      ∃ text, env.decode e.calls q.generatedIds true = some text ∧ res = .ok q ∧
        e' = e.completed env id text q) := by
  unfold finish at h
  cases hq : e.activeSequences.get? id with
  | none =>
    simp only [hq, Prod.mk.injEq] at h
    exact Or.inl ⟨rfl, h.1.symm, h.2.symm⟩
  | some q =>
    refine Or.inr ⟨q, rfl, ?_⟩
    simp only [hq] at h
    cases ht : env.decode e.calls q.generatedIds true with
    | none =>
      simp only [ht, Prod.mk.injEq] at h
      exact Or.inl ⟨rfl, h.1.symm, h.2.symm⟩
    | some text =>
      simp only [ht, Prod.mk.injEq] at h
      exact Or.inr ⟨text, rfl, h.1.symm, h.2.symm⟩

theorem finish_ok {id : String} (h : e.finish env id = (.ok q, e')) :
    e.activeSequences.get? id = some q ∧ ∃ text, env.decode e.calls q.generatedIds true = some text ∧
      e' = e.completed env id text q := by
  rcases finish_cases h with ⟨-, hres, -⟩ | ⟨q', hq, ⟨-, hres, -⟩ | ⟨text, htext, hres, he⟩⟩
  · cases hres
  · cases hres
  · cases hres
    exact ⟨hq, text, htext, he⟩

theorem finish_error {id : String} {err : StepError} (h : e.finish env id = (.error err, e')) :
    (e.activeSequences.get? id = none ∧ err = .key id ∧ e' = e) ∨
      ∃ q, e.activeSequences.get? id = some q ∧ env.decode e.calls q.generatedIds true = none ∧
        err = .decode ∧ e' = e.popped id := by
  rcases finish_cases h with ⟨hnone, hres, he⟩ | ⟨q, hq, ⟨hdec, hres, he⟩ | ⟨text, -, hres, -⟩⟩
  · cases hres
    exact Or.inl ⟨hnone, rfl, he⟩
  · cases hres
    exact Or.inr ⟨q, hq, hdec, rfl, he⟩
  · cases hres

/-- Appending along a list of pairs without repeated keys gives each key its own token. -/
theorem foldl_appendToken (env : Env) : ∀ (ps : List (String × ℕ)) (e : Engine), (ps.map Prod.fst).Nodup →
    let e' := ps.foldl (appendToken env) e
    e' = { e with
      activeSequences := e'.activeSequences, totalTokensGenerated := e'.totalTokensGenerated } ∧
    e'.activeSequences.keys = e.activeSequences.keys ∧
    ∀ k, e'.activeSequences.get? k = match ps.lookup k with
      | none => e.activeSequences.get? k
      | some t => (e.activeSequences.get? k).map fun q =>
          q.append env.eosTokenId (e.request q.request).maxTokens t
  | [], e, _ => ⟨rfl, rfl, fun _ => rfl⟩
  | (id, t) :: ps, e, hnd => by
      obtain ⟨hid, hps⟩ := List.nodup_cons.mp hnd
      obtain ⟨heq, hkeys, hget⟩ := foldl_appendToken env ps (e.appendToken env (id, t)) hps
      refine ⟨?_, hkeys.trans (OrderedDict.keys_modify _ _ _), fun k => ?_⟩
      · rw [List.foldl_cons, heq]; rfl
      · rw [List.foldl_cons, hget k]
        have hmod : (e.appendToken env (id, t)).activeSequences.get? k =
            if k = id then (e.activeSequences.get? k).map fun q =>
              q.append env.eosTokenId (e.request q.request).maxTokens t
            else e.activeSequences.get? k := OrderedDict.get?_modify _ _ _ _
        by_cases hk : k = id
        · subst hk
          have hnone : ps.lookup k = none :=
            OrderedDict.get?_eq_none_iff (d := ⟨ps, hps⟩).mpr hid
          simp only [hnone, hmod, if_pos, List.lookup_cons_self]
        · have hbeq : (k == id) = false := by simpa using hk
          simp only [hmod, if_neg hk, List.lookup_cons, hbeq]
          rfl

/-- A completed sampling loop has one token for each sequence, drawn from its row. -/
theorem sampleFrom_ok {logits : List (List (List Logit))} : ∀ (qs : List SequenceState) (i c : ℕ)
    {tokens : List ℕ} {c' : ℕ}, e.sampleFrom env logits i qs c = (.ok tokens, c') →
    tokens.length = qs.length ∧ ∀ (j : ℕ) q t, qs[j]? = some q → tokens[j]? = some t → ∃ c,
      (sampleToken env (e.request q.request) (lastLogits logits (i + j) q.inputIds.length) c).1 =
        .ok t
  | [], _, _, _, _, h => by
      cases (Prod.mk.inj h).1
      exact ⟨rfl, fun j q t hq => by simp at hq⟩
  | q :: qs, i, c, tokens, c', h => by
      unfold sampleFrom at h
      rcases ht : sampleToken env (e.request q.request) (lastLogits logits i q.inputIds.length) c with
        ⟨err | t, c₁⟩
      · simp only [ht, Prod.mk.injEq, reduceCtorEq, false_and] at h
      · simp only [ht] at h
        rcases hr : e.sampleFrom env logits (i + 1) qs c₁ with ⟨err | ts, c₂⟩
        · simp only [hr, Prod.mk.injEq, reduceCtorEq, false_and] at h
        · simp only [hr, Prod.mk.injEq, Except.ok.injEq] at h
          obtain ⟨rfl, rfl⟩ := h
          obtain ⟨hlen, hget⟩ := sampleFrom_ok qs (i + 1) c₁ hr
          refine ⟨by simp [hlen], fun j q' t' hq' ht' => ?_⟩
          cases j with
          | zero =>
            simp only [List.getElem?_cons_zero, Option.some.injEq] at hq' ht'
            subst hq' ht'
            exact ⟨c, by rw [Nat.add_zero, ht]⟩
          | succ j =>
            rw [show i + (j + 1) = i + 1 + j by omega]
            exact hget j q' t' hq' ht'

/-- The sampling loop raises in the sampler only. -/
theorem sampleFrom_error {logits : List (List (List Logit))} : ∀ (qs : List SequenceState) (i c : ℕ)
    {err : StepError} {c' : ℕ}, e.sampleFrom env logits i qs c = (.error err, c') → err = .sampler
  | [], _, _, _, _, h => by cases (Prod.mk.inj h).1
  | q :: qs, i, c, err, c', h => by
      unfold sampleFrom at h
      rcases ht : sampleToken env (e.request q.request) (lastLogits logits i q.inputIds.length) c with
        ⟨err₁ | t, c₁⟩
      · simp only [ht, Prod.mk.injEq, Except.error.injEq] at h
        rw [← h.1]
        unfold sampleToken at ht
        repeat' split at ht
        all_goals cases ht
        all_goals rfl
      · simp only [ht] at h
        rcases hr : e.sampleFrom env logits (i + 1) qs c₁ with ⟨err₂ | ts, c₂⟩
        · simp only [hr, Prod.mk.injEq, Except.error.injEq] at h
          rw [← h.1]
          exact sampleFrom_error qs (i + 1) c₁ hr
        · simp only [hr, Prod.mk.injEq, reduceCtorEq, false_and] at h

theorem sampleTokens_error {logits : List (List (List Logit))} {err : StepError}
    (hs : e.sampleTokens env logits = (.error err, e')) : err = .sampler :=
  sampleFrom_error _ _ _ (Prod.ext (Prod.mk.inj hs).1 rfl)

/-- `e'` is `e` with one token, drawn from its row of `logits`, appended to every sequence. -/
structure Appended (env : Env) (logits : List (List (List Logit))) (e e' : Engine) : Prop where
  scheduler : e'.scheduler = e.scheduler
  cacheManager : e'.cacheManager = e.cacheManager
  maxBatchSize : e'.maxBatchSize = e.maxBatchSize
  totalRequests : e'.totalRequests = e.totalRequests
  keys : e'.activeSequences.keys = e.activeSequences.keys
  get : ∀ k q', e'.activeSequences.get? k = some q' → ∃ q t, ∃ j c : ℕ,
    e.activeSequences.entries[j]? = some (k, q) ∧
    (sampleToken env (e.request q.request) (lastLogits logits j q.inputIds.length) c).1 = .ok t ∧
    q' = q.append env.eosTokenId (e.request q.request).maxTokens t

theorem appendAll_appended {logits : List (List (List Logit))} {tokens : List ℕ} {e₁ : Engine}
    (hs : e.iterated.called.sampleTokens env logits = (.ok tokens, e₁)) :
    Appended env logits e (e₁.appendAll env tokens) := by
  obtain ⟨hok, he₁⟩ := Prod.mk.inj hs
  have hsched : e₁.scheduler = e.scheduler := by rw [← he₁]; rfl
  have hact : e₁.activeSequences = e.activeSequences := by rw [← he₁]; rfl
  obtain ⟨hlen, htok⟩ := sampleFrom_ok e.activeSequences.values 0 _ (Prod.ext hok rfl)
  have hlen' : tokens.length = e.activeSequences.keys.length := by
    rw [hlen, OrderedDict.values, OrderedDict.keys, List.length_map, List.length_map]
  have hfst : (e.activeSequences.keys.zip tokens).map Prod.fst = e.activeSequences.keys :=
    List.map_fst_zip hlen'.ge
  have hnd : ((e.activeSequences.keys.zip tokens).map Prod.fst).Nodup := by
    rw [hfst]; exact e.activeSequences.keys_nodup
  obtain ⟨heq, hkeys, hget⟩ := foldl_appendToken env _ e₁ hnd
  have happ : e₁.appendAll env tokens =
      (e.activeSequences.keys.zip tokens).foldl (appendToken env) e₁ := by rw [appendAll, hact]
  rw [happ]
  refine ⟨(congrArg Engine.scheduler heq).trans hsched, ?_, ?_, ?_, hkeys.trans (by rw [hact]),
    fun k q' hq' => ?_⟩
  · exact (congrArg Engine.cacheManager heq).trans (by rw [← he₁]; rfl)
  · exact (congrArg Engine.maxBatchSize heq).trans (by rw [← he₁]; rfl)
  · exact (congrArg Engine.totalRequests heq).trans (by rw [← he₁]; rfl)
  · have hq' := (hget k).symm.trans hq'
    rw [hact] at hq'
    cases hlook : (e.activeSequences.keys.zip tokens).lookup k with
    | none =>
      -- every key has a token
      simp only [hlook] at hq'
      have hnot := OrderedDict.get?_eq_none_iff
        (d := ⟨e.activeSequences.keys.zip tokens, hnd⟩).mp hlook
      rw [OrderedDict.keys, hfst] at hnot
      exact absurd (OrderedDict.mem_keys_of_get? hq') hnot
    | some t =>
      simp only [hlook, request, hsched] at hq'
      obtain ⟨q, hq, rfl⟩ := Option.map_eq_some_iff.mp hq'
      have hmem := (OrderedDict.lookup_eq_some_iff hnd).mp hlook
      obtain ⟨j, hj⟩ := List.mem_iff_getElem?.mp hmem
      rw [List.getElem?_zip_eq_some] at hj
      obtain ⟨hk, ht⟩ := hj
      rw [OrderedDict.keys, List.getElem?_map] at hk
      obtain ⟨⟨k', q₁⟩, hent, rfl⟩ := Option.map_eq_some_iff.mp hk
      have hq₁ : q₁ = q := by
        have := OrderedDict.get?_eq_some_iff.mpr (List.mem_of_getElem? hent)
        exact Option.some.inj (this.symm.trans hq)
      subst hq₁
      have hval : e.activeSequences.values[j]? = some q₁ := by
        rw [OrderedDict.values, List.getElem?_map, hent]; rfl
      obtain ⟨c, hc⟩ := htok j q₁ t hval ht
      exact ⟨q₁, t, j, c, hent, by rwa [Nat.zero_add] at hc, rfl⟩

theorem Appended.get_old {logits : List (List (List Logit))} (A : Appended env logits e e') {k : String}
    {q' : SequenceState} (h : e'.activeSequences.get? k = some q') :
    ∃ q t, e.activeSequences.get? k = some q ∧
      q' = q.append env.eosTokenId (e.request q.request).maxTokens t := by
  obtain ⟨q, t, j, c, hent, -, hq'⟩ := A.get k q' h
  exact ⟨q, t, OrderedDict.get?_eq_some_iff.mpr (List.mem_of_getElem? hent), hq'⟩

theorem mem_finishedIds : k ∈ e.finishedIds ↔
    ∃ q, e.activeSequences.get? k = some q ∧ q.isFinished = true := by
  simp only [finishedIds, List.mem_map, List.mem_filter, Prod.exists, exists_and_right,
    exists_eq_right, OrderedDict.get?_eq_some_iff]

theorem finishedIds_nodup (e : Engine) : e.finishedIds.Nodup :=
  e.activeSequences.keys_nodup.sublist (List.filter_sublist.map _)

/-- Where a sequence of the batch comes from after a change: it was there, it has just been admitted,
    or it has got one more token. -/
inductive Origin (env : Env) : Point × Engine → Point × Engine → String → SequenceState → Prop
  | kept {p p' : Point} {e e' : Engine} {k : String} {q : SequenceState}
      (h : e.activeSequences.get? k = some q) : Origin env (p, e) (p', e') k q
  | admitted {e e' : Engine} {r : Ref} {rs : List Ref} {inputIds : List ℕ} {t : BlockTable}
      (h : e.allocate r inputIds.length = (.ok t, e'.cacheManager)) :
      Origin env (.placing r inputIds rs, e) (.admitting rs, e') (e.scheduler.idOf r)
        { request := r, inputIds := inputIds }
  | grown {e e' : Engine} {k : String} {q : SequenceState}
      {logits : List (List (List Logit))} {j c t : ℕ}
      (hm : env.model e.calls (e.prepareBatchInputs env) = some logits)
      (h : e.activeSequences.entries[j]? = some (k, q))
      (ht : (sampleToken env (e.request q.request)
        (lastLogits logits j q.inputIds.length) c).1 = .ok t) :
      Origin env (.admitting [], e) (.finishing e'.finishedIds, e') k
        (q.append env.eosTokenId (e.request q.request).maxTokens t)

theorem Micro.origin {p p' : Point} {a : Action} {k : String} {q' : SequenceState}
    (h : Micro env (p, e) a (p', e')) (hq' : e'.activeSequences.get? k = some q') :
    Origin env (p, e) (p', e') k q' := by
  have herase : ∀ {v : String}, (e.activeSequences.erase v).get? k = some q' →
      Origin env (p, e) (p', e') k q' := fun {v} h => by
    rw [OrderedDict.get?_erase] at h
    split at h
    · cases h
    · exact .kept h
  cases h with
  | full _ | rest _ | done | select _ _ | tokenize _ | reject _ | raiseTokenizer _ | raiseEvict _
  | raiseModel _ _ => exact .kept hq'
  | raiseSampler _ _ hs =>
    obtain rfl := (Prod.mk.inj hs).2
    exact .kept hq'
  | @place _ r rs inputIds t cache ha =>
    rw [get?_activate] at hq'
    split at hq'
    · rename_i hk
      cases hq'
      exact hk ▸ .admitted ha
    · exact .kept hq'
  | evict _ _ =>
    rcases dropEvicted_cases env (e.withCache _) _ with ⟨heq, -⟩ | ⟨q, -, -, heq⟩ <;>
      rw [heq] at hq'
    · exact .kept hq'
    · exact herase hq'
  | append _ hm hs =>
    obtain ⟨q, t, j, c, hent, ht, rfl⟩ := (appendAll_appended hs).get k q' hq'
    exact .grown hm hent ht
  | finish hf | raiseFinish hf =>
    rcases finish_cases hf with ⟨-, -, rfl⟩ | ⟨q, -, ⟨-, -, rfl⟩ | ⟨text, -, -, rfl⟩⟩
    · exact .kept hq'
    · exact herase hq'
    · exact herase hq'

/-- No change inside a step creates an object or assigns to what is stable. -/
theorem Micro.frame {p p' : Point} {a : Action} (h : Micro env (p, e) a (p', e')) :
    e'.scheduler.requests.next = e.scheduler.requests.next ∧
      ∀ {β : Type} (g : ScheduledRequest → β), RequestScheduler.Stable g →
        ∀ x, g (e'.request x) = g (e.request x) := by
  have htouched : ∀ {P : Ref → Prop}, Touches P e.scheduler e'.scheduler →
      e'.scheduler.requests.next = e.scheduler.requests.next ∧
        ∀ {β : Type} (g : ScheduledRequest → β), RequestScheduler.Stable g →
          ∀ x, g (e'.request x) = g (e.request x) := fun T => ⟨T.next, T.stable⟩
  cases h with
  | full _ | rest _ | done | place _ | raiseTokenizer _ | raiseEvict _ | raiseModel _ _ =>
    exact ⟨rfl, fun _ _ _ => rfl⟩
  | select _ _ => exact htouched (RequestScheduler.getNextBatch_split _ _ _).1
  | tokenize _ => exact htouched (RequestScheduler.touches_promptTokens _ _ _)
  | evict _ _ =>
    rcases dropEvicted_cases env (e.withCache _) _ with ⟨heq, -⟩ | ⟨q, -, -, heq⟩
    · rw [heq]
      exact ⟨rfl, fun _ _ _ => rfl⟩
    · rw [heq] at htouched ⊢
      exact htouched (RequestScheduler.touches_fail _ _ _ _)
  | reject _ => exact htouched (RequestScheduler.touches_fail _ _ _ _)
  | append _ _ hs =>
    have hsame := (appendAll_appended hs).scheduler
    exact ⟨by rw [hsame], fun g _ x => by rw [request, hsame]; rfl⟩
  | raiseSampler _ _ hs =>
    obtain rfl := (Prod.mk.inj hs).2
    exact ⟨rfl, fun _ _ _ => rfl⟩
  | finish hf | raiseFinish hf =>
    rcases finish_cases hf with ⟨-, -, rfl⟩ | ⟨q, -, ⟨-, -, rfl⟩ | ⟨text, -, -, rfl⟩⟩
    · exact ⟨rfl, fun _ _ _ => rfl⟩
    · exact ⟨rfl, fun _ _ _ => rfl⟩
    · obtain ⟨-, -, hnext, -, hstable⟩ := RequestScheduler.completeRequest_frame env.clock e.scheduler
        _ text q.generatedIds.length
      exact ⟨hnext, hstable⟩

theorem Micro.next {p p' : Point} {a : Action} (h : Micro env (p, e) a (p', e')) :
    e'.scheduler.requests.next = e.scheduler.requests.next := h.frame.1

theorem Micro.stable {p p' : Point} {a : Action} (h : Micro env (p, e) a (p', e')) {β : Type}
    (g : ScheduledRequest → β) (hg : RequestScheduler.Stable g) (x : Ref) :
    g (e'.request x) = g (e.request x) := h.frame.2 g hg x

/-- After the selection a step leaves the queue alone. -/
theorem pending_micro {p p' : Point} {a : Action} (hp : p ≠ .idle) (h : Micro env (p, e) a (p', e')) :
    e'.scheduler.pending = e.scheduler.pending := by
  cases h with
  | full _ | select _ _ => exact absurd rfl hp
  | rest _ | done | tokenize _ | place _ | reject _ | raiseTokenizer _ | raiseEvict _
  | raiseModel _ _ => rfl
  | raiseSampler _ _ hs => obtain rfl := (Prod.mk.inj hs).2; rfl
  | evict _ _ =>
    rcases dropEvicted_cases env (e.withCache _) _ with ⟨heq, -⟩ | ⟨q, -, -, heq⟩ <;>
      rw [heq] <;> rfl
  | append _ _ hs => rw [(appendAll_appended hs).scheduler]
  | finish hf | raiseFinish hf =>
    rcases finish_cases hf with ⟨-, -, rfl⟩ | ⟨q, -, ⟨-, -, rfl⟩ | ⟨text, -, -, rfl⟩⟩
    · rfl
    · rfl
    · exact (RequestScheduler.completeRequest_frame ..).1

/-- `r` is queued, selected or in the batch. -/
def Holds (p : Point) (e : Engine) (r : Ref) : Prop :=
  r ∈ e.scheduler.pending ∨ r ∈ p.todo ∨ ∃ k q, e.activeSequences.get? k = some q ∧ q.request = r

theorem Holds.of_active {p : Point} {q : SequenceState} (h : e.activeSequences.get? k = some q) :
    Holds p e q.request := Or.inr (Or.inr ⟨k, q, h, rfl⟩)

/-- Between steps nothing is selected. -/
theorem Holds.of_idle (h : Holds .idle e r) (p : Point) : Holds p e r := by
  rcases h with h | h | h
  · exact Or.inl h
  · cases h
  · exact Or.inr (Or.inr h)

/-- Inside a step the engine gets hold of nothing new. -/
theorem Holds.micro {p p' : Point} {a : Action} (h : Micro env (p, e) a (p', e'))
    (hr : Holds p' e' r) : Holds p e r := by
  rcases hr with hr | hr | ⟨k, q', hq', rfl⟩
  · by_cases hp : p = .idle
    · subst hp
      cases h with
      | full _ => exact Or.inl hr
      | @select _ n _ _ =>
        obtain ⟨-, live, hsub, hperm, -⟩ := RequestScheduler.getNextBatch_split env.clock e.scheduler n
        exact Or.inl (hsub.subset (hperm.mem_iff.mp (List.mem_append_right _ hr)))
    · exact Or.inl (pending_micro hp h ▸ hr)
  · cases h with
    | @select _ n _ _ =>
      obtain ⟨-, live, hsub, hperm, -⟩ := RequestScheduler.getNextBatch_split env.clock e.scheduler n
      exact Or.inl (hsub.subset (hperm.mem_iff.mp (List.mem_append_left _ hr)))
    | place _ | reject _ => exact Or.inr (Or.inl (List.mem_cons_of_mem _ hr))
    | tokenize _ | evict _ _ => exact Or.inr (Or.inl hr)
    | _ => cases hr
  · cases h.origin hq' with
    | kept hq => exact .of_active hq
    | admitted _ => exact Or.inr (Or.inl List.mem_cons_self)
    | @grown _ _ _ q _ _ _ _ _ hent _ =>
      rw [SequenceState.append_request]
      exact .of_active (OrderedDict.get?_eq_some_iff.mpr (List.mem_of_getElem? hent))

/-- The same of any number of changes. -/
theorem Micro.run_frame {p : Point} {c : Point × Engine} {as : List Action}
    (h : Trace.Run (Micro env) (p, e) as c) : (∀ r, Holds c.1 c.2 r → Holds p e r) ∧
      c.2.scheduler.requests.next = e.scheduler.requests.next ∧
      ∀ {β : Type} (g : ScheduledRequest → β), RequestScheduler.Stable g →
        ∀ x, g (c.2.request x) = g (e.request x) := by
  refine h.always (I := fun c => (∀ r, Holds c.1 c.2 r → Holds p e r) ∧
    c.2.scheduler.requests.next = e.scheduler.requests.next ∧
    ∀ {β : Type} (g : ScheduledRequest → β), RequestScheduler.Stable g →
      ∀ x, g (c.2.request x) = g (e.request x)) ⟨fun _ => id, rfl, fun _ _ _ => rfl⟩ ?_
  rintro ⟨p₁, e₁⟩ a ⟨p₂, e₂⟩ ⟨hheld, hnext, hstable⟩ hm
  exact ⟨fun r hr => hheld r (hr.micro hm), hm.next.trans hnext,
    fun g hg x => (hm.stable g hg x).trans (hstable g hg x)⟩

end Engine

end ModelServing
