import ModelServing.Engine.Operations

/-! Who is in the batch. `Batch` ties the active sequences and the selected requests to the
    scheduler's ledger at every point inside a step, whatever raises and whatever is cancelled. -/

namespace ModelServing

open RequestScheduler (Ledger Counted Touches)

namespace Engine

variable {env : Env} {e e' : Engine} {acc : List Ref} {r : Ref} {k : String}

theorem batchSize_eq_zero_iff : e.batchSize = 0 ↔ e.activeSequences.keys = [] := by
  rw [batchSize, ← OrderedDict.length_keys, List.length_eq_zero_iff]

theorem batchSize_pos_iff : 0 < e.batchSize ↔ e.activeSequences.keys ≠ [] := by
  rw [Nat.pos_iff_ne_zero]
  exact batchSize_eq_zero_iff.not

/-- The scheduler's books are in order, every active sequence stands for an accepted request under
    its id, running unless cancelled meanwhile, and the selected requests are running and not active
    yet. -/
structure Batch (acc : List Ref) (p : Point) (e : Engine) : Prop where
  ledger : Ledger acc e.scheduler
  counted : Counted e.scheduler
  active : ∀ k q, e.activeSequences.get? k = some q →
    q.request ∈ acc ∧ e.scheduler.idOf q.request = k ∧
      (e.scheduler.statusOf q.request = .RUNNING ∨ e.scheduler.statusOf q.request = .CANCELLED)
  todo_nodup : p.todo.Nodup
  todo : ∀ r ∈ p.todo, r ∈ acc ∧ e.scheduler.statusOf r = .RUNNING ∧
    e.scheduler.idOf r ∉ e.activeSequences.keys

namespace Batch

variable {p p' : Point}

/-- A request of the batch is not in the queue. -/
theorem not_pending (B : Batch acc p e) {q : SequenceState}
    (hq : e.activeSequences.get? k = some q) : q.request ∉ e.scheduler.pending := by
  intro hp
  have h := (B.ledger.pending _ hp).2
  rcases (B.active k q hq).2.2 with h' | h' <;> (rw [h] at h'; cases h')

theorem todo_not_pending (B : Batch acc p e) (hr : r ∈ p.todo) : r ∉ e.scheduler.pending := by
  intro hp
  have h := (B.todo r hr).2.1
  rw [(B.ledger.pending _ hp).2] at h
  cases h

/-- Accepted requests with one id are one request. -/
theorem eq_of_id (B : Batch acc p e) {x y : Ref} (hx : x ∈ acc) (hy : y ∈ acc)
    (h : e.scheduler.idOf x = e.scheduler.idOf y) : x = y :=
  B.ledger.ids_inj x y (B.ledger.lt_next x hx) (B.ledger.lt_next y hy) h

theorem key_eq (B : Batch acc p e) {k' : String} {q q' : SequenceState}
    (hq : e.activeSequences.get? k = some q) (hq' : e.activeSequences.get? k' = some q')
    (h : q'.request = q.request) : k' = k := by
  rw [← (B.active k q hq).2.1, ← (B.active k' q' hq').2.1, h]

theorem todo_ne_active (B : Batch acc p e) (hr : r ∈ p.todo) {q : SequenceState}
    (hq : e.activeSequences.get? k = some q) : q.request ≠ r := by
  rintro rfl
  have := (B.todo _ hr).2.2
  rw [(B.active k q hq).2.1] at this
  exact this (OrderedDict.mem_keys_of_get? hq)

/-- Nothing changes for the batch when the scheduler is the same and no sequence is new. -/
theorem congr (B : Batch acc p e) (hs : e'.scheduler = e.scheduler)
    (hact : ∀ k q', e'.activeSequences.get? k = some q' →
      ∃ q, e.activeSequences.get? k = some q ∧ q'.request = q.request)
    (htodo : p'.todo.Sublist p.todo) : Batch acc p' e' where
  ledger := hs ▸ B.ledger
  counted := hs ▸ B.counted
  active := by
    intro k q' hq'
    obtain ⟨q, hq, hreq⟩ := hact k q' hq'
    rw [hreq, hs]
    exact B.active k q hq
  todo_nodup := B.todo_nodup.sublist htodo
  todo := by
    intro r hr
    obtain ⟨hacc, hst, hkey⟩ := B.todo r (htodo.subset hr)
    rw [hs]
    refine ⟨hacc, hst, fun hm => hkey ?_⟩
    obtain ⟨q', hq'⟩ := OrderedDict.mem_keys_iff.mp hm
    obtain ⟨q, hq, -⟩ := hact _ q' hq'
    exact OrderedDict.mem_keys_of_get? hq

/-- The same scheduler and the same sequences. -/
theorem same (B : Batch acc p e) (hs : e'.scheduler = e.scheduler)
    (hact : e'.activeSequences = e.activeSequences) (htodo : p'.todo.Sublist p.todo) :
    Batch acc p' e' :=
  B.congr hs (fun _ q' hq' => ⟨q', hact ▸ hq', rfl⟩) htodo

theorem select (B : Batch acc .idle e) (n : ℕ) :
    Batch acc (.admitting (e.scheduler.getNextBatch env.clock n).1)
      { e with scheduler := (e.scheduler.getNextBatch env.clock n).2 } := by
  have S := RequestScheduler.getNextBatch_selected B.ledger B.counted env.clock n
  refine ⟨S.ledger, S.counted, fun k q hq => ?_, S.nodup, fun r hr => ?_⟩
  · obtain ⟨hacc, hid, hst⟩ := B.active k q hq
    have hnot := B.not_pending hq
    exact ⟨hacc, (S.touches.id_eq _).trans hid, by rw [S.touches.status hnot]; exact hst⟩
  · obtain ⟨hp, hst⟩ := S.started r hr
    have hacc := (B.ledger.pending r hp).1
    refine ⟨hacc, hst, fun hm => ?_⟩
    obtain ⟨q, hq⟩ := OrderedDict.mem_keys_iff.mp hm
    have hid := (B.active _ q hq).2.1
    rw [S.touches.id_eq] at hid
    exact B.not_pending hq (B.eq_of_id (B.active _ q hq).1 hacc hid ▸ hp)

theorem tokenize {rs : List Ref} (B : Batch acc (.admitting (r :: rs)) e) (inputIds : List ℕ) :
    Batch acc (.placing r inputIds rs) (e.tokenized r inputIds) := by
  refine ⟨B.ledger.promptTokens r inputIds.length, ⟨B.counted.submitted, B.counted.done⟩,
    fun k q hq => ?_, B.todo_nodup, fun x hx => ?_⟩
  · rw [idOf_tokenized, statusOf_tokenized]
    exact B.active k q hq
  · rw [idOf_tokenized, statusOf_tokenized]
    exact B.todo x hx

theorem place {rs : List Ref} {inputIds : List ℕ} (B : Batch acc (.placing r inputIds rs) e)
    (cache : CacheManager) : Batch acc (.admitting rs) ((e.withCache cache).activate r inputIds) := by
  have hr : r ∈ (Point.placing r inputIds rs).todo := List.mem_cons_self
  obtain ⟨hacc, hst, hkey⟩ := B.todo r hr
  obtain ⟨hnot, hnd⟩ := List.nodup_cons.mp B.todo_nodup
  refine ⟨B.ledger, B.counted, fun k q hq => ?_, hnd, fun x hx => ?_⟩
  · rw [get?_activate] at hq
    split at hq
    · rename_i hk
      cases hq
      exact ⟨hacc, hk.symm, Or.inl hst⟩
    · exact B.active k q hq
  · obtain ⟨hacc', hst', hkey'⟩ := B.todo x (List.mem_cons_of_mem _ hx)
    refine ⟨hacc', hst', fun hm => ?_⟩
    rcases mem_keys_activate.mp hm with hid | hm
    · exact hnot (B.eq_of_id hacc' hacc hid ▸ hx)
    · exact hkey' hm

/-- Failing a request that is selected, or whose sequence has just left the batch. -/
theorem fail (B : Batch acc p e) (hpend : r ∉ e.scheduler.pending)
    (hact : ∀ k q, e.activeSequences.get? k = some q → q.request ≠ r)
    (htodo : p'.todo.Sublist p.todo) (hne : r ∉ p'.todo) (msg : String) :
    Batch acc p' (e.fail env r msg) := by
  have T : Touches (· = r) e.scheduler (e.fail env r msg).scheduler :=
    RequestScheduler.touches_fail env.clock msg e.scheduler r
  refine ⟨B.ledger.fail hpend env.clock msg, ⟨B.counted.submitted, B.counted.done⟩,
    fun k q hq => ?_, B.todo_nodup.sublist htodo, fun x hx => ?_⟩
  · rw [T.id_eq, T.status (hact k q hq)]
    exact B.active k q hq
  · have hxr : x ≠ r := fun h => hne (h ▸ hx)
    rw [T.id_eq, T.status hxr]
    exact B.todo x (htodo.subset hx)

theorem evict (B : Batch acc p e) (cache : CacheManager) (v : String) :
    Batch acc p ((e.withCache cache).dropEvicted env (some v)) := by
  have B₁ : Batch acc p (e.withCache cache) := B.same rfl rfl (.refl _)
  rcases dropEvicted_cases env (e.withCache cache) v with ⟨heq, -⟩ | ⟨q, -, hq, heq⟩
  · rw [heq]; exact B₁
  · rw [heq]
    have hne : ∀ k q', (e.activeSequences.erase v).get? k = some q' → q'.request ≠ q.request := by
      intro k q' hq' h
      rw [OrderedDict.get?_erase] at hq'
      split at hq'
      · cases hq'
      · rename_i hk
        exact hk (B.key_eq hq hq' h)
    have B₂ : Batch acc p { e.withCache cache with
        activeSequences := (e.withCache cache).activeSequences.erase v } := by
      refine B₁.congr rfl (fun k q' hq' => ?_) (.refl _)
      change (e.activeSequences.erase v).get? k = some q' at hq'
      rw [OrderedDict.get?_erase] at hq'
      split at hq'
      · cases hq'
      · exact ⟨q', hq', rfl⟩
    exact B₂.fail (B.not_pending hq) hne (.refl _)
      (fun h => B.todo_ne_active h hq rfl) _

theorem popped (B : Batch acc p e) (k : String) (err : Option StepError) :
    Batch acc (.ended err) (e.popped k) := by
  refine B.congr rfl (fun k' q' hq' => ?_) (List.nil_sublist _)
  change (e.activeSequences.erase k).get? k' = some q' at hq'
  rw [OrderedDict.get?_erase] at hq'
  split at hq'
  · cases hq'
  · exact ⟨q', hq', rfl⟩

theorem completed (B : Batch acc p e) (q : SequenceState) (ids : List String) (k text : String) :
    Batch acc (.finishing ids) (e.completed env k text q) := by
  have hmove := B.ledger.completeRequest_cases B.counted env.clock k text q.generatedIds.length
  have herase : ∀ k' q', (e.activeSequences.erase k).get? k' = some q' →
      k' ≠ k ∧ e.activeSequences.get? k' = some q' := by
    intro k' q' hq'
    rw [OrderedDict.get?_erase] at hq'
    split at hq'
    · cases hq'
    · exact ⟨‹_›, hq'⟩
  rcases hmove with ⟨-, heq⟩ | ⟨r, hr, M, C, -, hframe, -⟩
  · exact B.congr heq (fun k' q' hq' => ⟨q', (herase k' q' hq').2, rfl⟩) (List.nil_sublist _)
  · obtain ⟨hacc, hid, -⟩ := B.ledger.running k r hr
    refine ⟨B.ledger.move hacc M, C, fun k' q' hq' => ?_, List.nodup_nil,
      fun _ h => absurd h List.not_mem_nil⟩
    obtain ⟨hk, hq'⟩ := herase k' q' hq'
    obtain ⟨hacc', hid', hst⟩ := B.active k' q' hq'
    have hne : q'.request ≠ r := fun h => hk (by rw [← hid', h, hid])
    have hst' : (e.completed env k text q).scheduler.statusOf q'.request = _ := M.others _ hne
    exact ⟨hacc', (M.ids _).trans hid', hst' ▸ hst⟩

/-- Every change inside a step keeps the batch in order. -/
theorem micro {a : Action} (B : Batch acc p e) (h : Micro env (p, e) a (p', e')) :
    Batch acc p' e' := by
  cases h with
  | full _ | rest _ | done => exact B.same rfl rfl (.refl _)
  | select _ _ => exact B.select _
  | tokenize _ => exact B.tokenize _
  | place _ => exact B.place _
  | evict _ _ => exact B.evict _ _
  | @reject _ r rs _ _ _ =>
    have hnot : r ∉ (Point.admitting rs).todo := (List.nodup_cons.mp B.todo_nodup).1
    refine B.fail (B.todo_not_pending List.mem_cons_self) (fun k q hq => ?_)
      (List.sublist_cons_self _ _) hnot _
    exact B.todo_ne_active List.mem_cons_self hq
  | append _ _ hs =>
    have A := appendAll_appended hs
    refine B.congr A.scheduler (fun k q' hq' => ?_) (.refl _)
    obtain ⟨q, t, hq, rfl⟩ := A.get_old hq'
    exact ⟨q, hq, SequenceState.append_request ..⟩
  | finish hf =>
    obtain ⟨-, text, -, rfl⟩ := finish_ok hf
    exact B.completed _ _ _ text
  | raiseTokenizer _ | raiseEvict _ | raiseModel _ _ => exact B.same rfl rfl (List.nil_sublist _)
  | raiseSampler _ _ hs =>
    obtain rfl := (Prod.mk.inj hs).2
    exact B.same rfl rfl (.refl _)
  | raiseFinish hf =>
    rcases finish_error hf with ⟨-, -, rfl⟩ | ⟨q, -, -, -, rfl⟩
    · exact B.same rfl rfl (List.nil_sublist _)
    · exact B.popped _ _

/-- A change inside a step leaves alone what is neither queued nor selected nor in the batch. -/
theorem untouched {a : Action} (B : Batch acc p e) (h : Micro env (p, e) a (p', e'))
    (hpend : r ∉ e.scheduler.pending) (htodo : ∀ x ∈ p.todo, r ≠ x)
    (hout : ∀ k q, e.activeSequences.get? k = some q → q.request ≠ r) :
    e'.request r = e.request r := by
  cases h with
  | full _ | rest _ | done | place _ | raiseTokenizer _ | raiseEvict _ | raiseModel _ _ => rfl
  | select _ _ =>
    exact (RequestScheduler.getNextBatch_selected B.ledger B.counted _ _).touches.frame r hpend
  | tokenize _ =>
    exact (RequestScheduler.touches_promptTokens _ _ _).frame r (htodo _ List.mem_cons_self)
  | evict _ _ =>
    rcases dropEvicted_cases env (e.withCache _) _ with ⟨heq, -⟩ | ⟨q, -, hq, heq⟩ <;>
      rw [heq]
    · rfl
    · exact (RequestScheduler.touches_fail _ _ _ _).frame r (hout _ q hq).symm
  | reject _ =>
    exact (RequestScheduler.touches_fail _ _ _ _).frame r (htodo _ List.mem_cons_self)
  | append _ _ hs => rw [request, (appendAll_appended hs).scheduler]; rfl
  | raiseSampler _ _ hs => obtain rfl := (Prod.mk.inj hs).2; rfl
  | @finish _ _ id _ _ hf | @raiseFinish _ _ id _ _ hf =>
    rcases finish_cases hf with ⟨-, -, rfl⟩ | ⟨q, hq, ⟨-, -, rfl⟩ | ⟨text, -, -, rfl⟩⟩
    · rfl
    · rfl
    · rcases B.ledger.completeRequest_cases B.counted env.clock id text q.generatedIds.length with
        ⟨-, heq⟩ | ⟨x, hx, -, -, -, hframe, -⟩
      · exact congrArg (fun s => RequestScheduler.request s r) heq
      · obtain ⟨hacc, hid, -⟩ := B.ledger.running id x hx
        obtain ⟨hacc', hid', -⟩ := B.active id q hq
        have hxq : x = q.request := B.eq_of_id hacc hacc' (hid.trans hid'.symm)
        exact hframe r fun heq => hout id q hq (hxq.symm.trans heq.symm)

/-- So it leaves alone what was never accepted. -/
theorem outside {a : Action} (B : Batch acc p e) (hr : r ∉ acc) (h : Micro env (p, e) a (p', e')) :
    e'.request r = e.request r := by
  refine B.untouched h (fun hp => hr (B.ledger.pending r hp).1) (fun x hx => ?_) fun k q hq => ?_
  · rintro rfl
    exact hr (B.todo r hx).1
  · rintro rfl
    exact hr (B.active k q hq).1

/-- A request that has ended and is not in the batch stays as it is, and stays out. -/
theorem frozen {a : Action} (B : Batch acc p e) (h : Micro env (p, e) a (p', e'))
    (hst : (e.scheduler.statusOf r).terminal = true)
    (hout : ∀ k q, e.activeSequences.get? k = some q → q.request ≠ r) :
    e'.request r = e.request r ∧ ∀ k q, e'.activeSequences.get? k = some q → q.request ≠ r := by
  have htodo : ∀ x ∈ p.todo, r ≠ x := fun x hx heq => by
    rw [heq, (B.todo x hx).2.1] at hst
    cases hst
  have hpend : r ∉ e.scheduler.pending := fun hp => by
    rw [(B.ledger.pending r hp).2] at hst
    cases hst
  refine ⟨B.untouched h hpend htodo hout, fun k q' hq' => ?_⟩
  cases h.origin hq' with
  | kept hq => exact hout k q' hq
  | admitted _ => exact fun heq => htodo _ List.mem_cons_self heq.symm
  | @grown _ _ _ q _ _ _ _ _ hent _ =>
    rw [SequenceState.append_request]
    exact hout k q (OrderedDict.get?_eq_some_iff.mpr (List.mem_of_getElem? hent))

/-- How a status may change inside a step: a request is selected, times out at the selection, fails
    by an eviction or a rejection, or its sequence finishes. -/
theorem status_cases {a : Action} (B : Batch acc p e) (h : Micro env (p, e) a (p', e')) (r : Ref) :
    e'.scheduler.statusOf r = e.scheduler.statusOf r ∨
    (r ∈ e.scheduler.pending ∧ e'.scheduler.statusOf r = .RUNNING) ∨
    (r ∈ e.scheduler.timedOut env.clock ∧ e'.scheduler.statusOf r = .CANCELLED ∧ p = .idle ∧
      e.batchSize < e.maxBatchSize) ∨
    (e'.scheduler.statusOf r = .FAILED ∧ ((∃ v, a = .evict v) ∨ a = .reject r)) ∨
    (e'.scheduler.statusOf r = .COMPLETED ∧ ∃ q, a = .finish q ∧ q.request = r) := by
  have hfail : ∀ (x : Ref) (msg : String),
      (e.scheduler.call env.clock x (.fail msg)).statusOf r = e.scheduler.statusOf r ∨
      (r = x ∧ (e.scheduler.call env.clock x (.fail msg)).statusOf r = .FAILED) := by
    intro x msg
    by_cases hx : r = x
    · exact Or.inr ⟨hx, hx ▸ RequestScheduler.statusOf_fail env.clock msg e.scheduler r⟩
    · exact Or.inl ((RequestScheduler.touches_fail env.clock msg e.scheduler x).status hx)
  cases h with
  | full _ | rest _ | done | place _ | raiseTokenizer _ | raiseEvict _ | raiseModel _ _ =>
    exact Or.inl rfl
  | select hslots hn =>
    have S := RequestScheduler.getNextBatch_selected B.ledger B.counted env.clock
    by_cases hp : r ∈ e.scheduler.pending
    · rcases (S _).outcome r hp with hb | hp' | ht
      · exact Or.inr (Or.inl ⟨hp, ((S _).started r hb).2⟩)
      · exact Or.inl (((S _).ledger.pending r hp').2.trans (B.ledger.pending r hp).2.symm)
      · exact Or.inr (Or.inr (Or.inl ⟨ht, ((S _).expired r ht).2.1, rfl, by omega⟩))
    · exact Or.inl ((S _).touches.status hp)
  | tokenize _ => exact Or.inl (statusOf_tokenized ..)
  | @evict _ _ _ _ _ v _ _ _ =>
    rcases dropEvicted_cases env (e.withCache _) _ with ⟨heq, -⟩ | ⟨q, -, -, heq⟩ <;>
      rw [heq]
    · exact Or.inl rfl
    · rcases hfail q.request "Evicted due to memory pressure" with hsame | ⟨-, hf⟩
      · exact Or.inl hsame
      · exact Or.inr (Or.inr (Or.inr (Or.inl ⟨hf, Or.inl ⟨v, rfl⟩⟩)))
  | @reject _ x _ _ _ _ =>
    rcases hfail x "Insufficient KV-cache memory" with hsame | ⟨rfl, hf⟩
    · exact Or.inl hsame
    · exact Or.inr (Or.inr (Or.inr (Or.inl ⟨hf, Or.inr rfl⟩)))
  | append _ _ hs => exact Or.inl (by rw [(appendAll_appended hs).scheduler])
  | raiseSampler _ _ hs => obtain rfl := (Prod.mk.inj hs).2; exact Or.inl rfl
  | raiseFinish hf =>
    rcases finish_error hf with ⟨-, -, rfl⟩ | ⟨q, -, -, -, rfl⟩
    · exact Or.inl rfl
    · exact Or.inl rfl
  | @finish _ _ id _ q hf =>
    obtain ⟨hq, text, -, rfl⟩ := finish_ok hf
    rcases B.ledger.completeRequest_cases B.counted env.clock id text q.generatedIds.length with
      ⟨-, heq⟩ | ⟨x, hx, M, -, hreq, -⟩
    · exact Or.inl (congrArg (fun s => RequestScheduler.statusOf s r) heq)
    · by_cases hrx : r = x
      · subst hrx
        obtain ⟨hacc, hid, -⟩ := B.ledger.running id r hx
        obtain ⟨hacc', hid', -⟩ := B.active id q hq
        exact Or.inr (Or.inr (Or.inr (Or.inr ⟨congrArg ScheduledRequest.status hreq, q, rfl,
          B.eq_of_id hacc' hacc (hid'.trans hid.symm)⟩)))
      · exact Or.inl (M.others r hrx)

/-- A completed request is not in the batch. -/
theorem out_of_completed (B : Batch acc p e) (hst : e.scheduler.statusOf r = .COMPLETED) (k : String)
    (q : SequenceState) (hq : e.activeSequences.get? k = some q) : q.request ≠ r := by
  rintro rfl
  rcases (B.active k q hq).2.2 with h | h <;> cases hst.symm.trans h

/-- The next step starts where this one ended. -/
theorem idle {err : Option StepError} (B : Batch acc (.ended err) e) : Batch acc .idle e :=
  B.same rfl rfl (.refl _)

/-- So does a whole run of changes. -/
theorem run {c c' : Point × Engine} {as : List Action} (B : Batch acc c.1 c.2)
    (h : Trace.Run (Micro env) c as c') : Batch acc c'.1 c'.2 :=
  h.always (I := fun c : Point × Engine => Batch acc c.1 c.2) B fun _ _ _ B hst => B.micro hst

theorem step {res : Except StepError (List SequenceState)} (B : Batch acc .idle e)
    (h : e.step env = (res, e')) : Batch acc .idle e' := by
  obtain ⟨qs, ⟨as, hrun, -⟩, -⟩ := step_leads h
  have B' := Batch.run B hrun
  cases res <;> exact B'.idle

/-! ### Between steps -/

theorem submit (B : Batch acc .idle e) {req : ScheduledRequest}
    (hf : RequestScheduler.Fresh e.scheduler req) :
    Batch (acc ++ e.scheduler.queued (e.submitRequest req).1) .idle (e.submitRequest req).2 := by
  have A := RequestScheduler.submitNew_added e.scheduler req
  refine ⟨B.ledger.added hf A, B.counted.added A, fun k q hq => ?_, List.nodup_nil,
    fun _ h => absurd h List.not_mem_nil⟩
  obtain ⟨hacc, hid, hst⟩ := B.active k q hq
  have hlt := B.ledger.lt_next _ hacc
  have hst' : (e.submitRequest req).2.scheduler.statusOf q.request = _ := A.statusOf_old hlt
  exact ⟨List.mem_append_left _ hacc, (A.idOf_old hlt).trans hid, hst' ▸ hst⟩

/-- What a cancellation does: nothing, or one request that is pending or running is cancelled. -/
theorem cancelRequest_cases (B : Batch acc .idle e) (env : Env) (k : String) :
    ((e.cancelRequest env k) = (false, e) ∧ (∀ r ∈ e.scheduler.pending, e.scheduler.idOf r ≠ k) ∧
      e.scheduler.running.get? k = none) ∨
    (∃ r, (r ∈ e.scheduler.pending ∨ e.scheduler.running.get? k = some r) ∧ r ∈ acc ∧
      e.scheduler.idOf r = k ∧ (e.cancelRequest env k).1 = true ∧
      Batch acc .idle (e.cancelRequest env k).2 ∧
      (e.cancelRequest env k).2.scheduler.statusOf r = .CANCELLED ∧
      Touches (· = r) e.scheduler (e.cancelRequest env k).2.scheduler ∧
      RequestScheduler.Ledger.Moved .completed r e.scheduler
        (e.cancelRequest env k).2.scheduler) := by
  rcases B.ledger.cancelRequest_cases B.counted env.clock k with
    ⟨hpend, hrun, heq⟩ | ⟨r, hr, hid, htrue, M, C, hst, T⟩
  · exact Or.inl ⟨by simp only [cancelRequest, heq], hpend, hrun⟩
  · have hacc : r ∈ acc := hr.elim (fun h => (B.ledger.pending r h).1)
      fun h => (B.ledger.running k r h).1
    refine Or.inr ⟨r, hr, hacc, hid, htrue, ⟨B.ledger.move hacc M, C, fun k' q hq => ?_,
      List.nodup_nil, fun _ h => absurd h List.not_mem_nil⟩, hst, T, M⟩
    obtain ⟨hacc', hid', hst'⟩ := B.active k' q hq
    refine ⟨hacc', (T.id_eq _).trans hid', ?_⟩
    by_cases hqr : q.request = r
    · rw [hqr]; exact Or.inr hst
    · have : (e.cancelRequest env k).2.scheduler.statusOf q.request = _ := T.status hqr
      rw [this]; exact hst'

theorem cancel (B : Batch acc .idle e) (env : Env) (k : String) : Batch acc .idle (e.cancelRequest env k).2 := by
  rcases B.cancelRequest_cases env k with ⟨heq, -⟩ | ⟨r, -, -, -, -, B', -⟩
  · rw [heq]; exact B
  · exact B'

end Batch

/-! ### What the sequences of the batch consist of -/

/-- Every sequence is a tokenized prompt followed by what was generated. -/
structure Tokenized (env : Env) (p : Point) (e : Engine) : Prop where
  active : ∀ k q, e.activeSequences.get? k = some q → ∃ i ids,
    env.tokenizer i (e.request q.request).prompt 1024 = some ids ∧
      q.inputIds = ids ++ q.generatedIds
  placing : ∀ r ids rs, p = .placing r ids rs →
    ∃ i, env.tokenizer i (e.request r).prompt 1024 = some ids

namespace Tokenized

variable {p p' : Point}

theorem micro {a : Action} (T : Tokenized env p e)
    (h : Micro env (p, e) a (p', e')) : Tokenized env p' e' := by
  have hprompt : ∀ x, (e'.request x).prompt = (e.request x).prompt :=
    h.stable _ RequestScheduler.stable_prompt
  constructor
  · intro k q' hq'
    rw [hprompt]
    cases h.origin hq' with
    | kept hq => exact T.active k q' hq
    | @admitted _ _ r rs ids _ _ =>
      obtain ⟨i, hi⟩ := T.placing r ids rs rfl
      exact ⟨i, ids, hi, (List.append_nil _).symm⟩
    | @grown _ _ _ q _ _ _ _ _ hent _ =>
      obtain ⟨i, ids, hi, hin⟩ :=
        T.active k q (OrderedDict.get?_eq_some_iff.mpr (List.mem_of_getElem? hent))
      refine ⟨i, ids, by rwa [SequenceState.append_request], ?_⟩
      rw [SequenceState.append_inputIds, SequenceState.append_generatedIds, hin, List.append_assoc]
  · intro r ids rs hp
    rw [hprompt]
    cases h with
    | tokenize ht => cases hp; exact ⟨_, ht⟩
    | evict _ _ => cases hp; exact T.placing r ids rs rfl
    | _ => cases hp

/-- Between steps only the sequences and the prompts matter. -/
theorem idle (T : Tokenized env p e) (hact : e'.activeSequences = e.activeSequences)
    (hprompt : ∀ k q, e.activeSequences.get? k = some q →
      (e'.request q.request).prompt = (e.request q.request).prompt) : Tokenized env .idle e' where
  active := fun k q hq => by
    rw [hact] at hq
    rw [hprompt k q hq]
    exact T.active k q hq
  placing := fun _ _ _ hp => by cases hp

end Tokenized

/-! ### Runs of the engine -/

/-- The accepted requests of a run, oldest first. -/
def accepted (evs : List Event) : List Ref :=
  evs.filterMap fun
    | .submitRequest r _ true => some r
    | _ => none

variable {maxBatchSize maxQueueSize : ℤ} {defaultTimeout : ℚ} {policy : SchedulingPolicy}
  {numBlocks blockSize : ℕ} {evs : List Event}

theorem new_batch : Batch [] .idle
    (new maxBatchSize maxQueueSize defaultTimeout policy numBlocks blockSize) :=
  ⟨RequestScheduler.new_ledger .., ⟨rfl, rfl⟩, fun _ _ h => (nomatch h), List.nodup_nil,
    fun _ h => absurd h List.not_mem_nil⟩

theorem accepted_append (evs : List Event) (ev : Event) :
    accepted (evs ++ [ev]) = accepted evs ++ accepted [ev] := List.filterMap_append

theorem accepted_submitRequest (s : RequestScheduler) (req : ScheduledRequest) (b : Bool) :
    accepted [.submitRequest s.requests.next req b] = s.queued b := by cases b <;> rfl

theorem batch_step {ev : Event} (B : Batch (accepted evs) .idle e) (hst : Step env e ev e') :
    Batch (accepted (evs ++ [ev])) .idle e' := by
  rw [accepted_append]
  cases ev with
  | submitRequest r req b =>
    obtain ⟨hf, rfl, heq⟩ := hst
    have B' := B.submit hf
    rw [heq] at B'
    rw [accepted_submitRequest]
    exact B'
  | cancelRequest k b =>
    have B' := B.cancel env k
    rw [show e.cancelRequest env k = (b, e') from hst] at B'
    exact (List.append_nil (accepted evs)).symm ▸ B'
  | step res =>
    rw [show accepted [Event.step res] = [] from rfl, List.append_nil]
    exact B.step hst

/-- The batch and the books are in order after every run. -/
theorem batch_of_run (hrun : Trace.Run (Step env)
    (new maxBatchSize maxQueueSize defaultTimeout policy numBlocks blockSize) evs e) :
    Batch (accepted evs) .idle e :=
  hrun.invariant (I := fun evs e => Batch (accepted evs) .idle e) new_batch
    fun _ _ _ _ _ B hst => batch_step B hst

/-- The sequences that the steps of a run have returned. -/
def returned (evs : List Event) : List SequenceState :=
  evs.flatMap fun
    | .step (.ok qs) => qs
    | _ => []

theorem returned_append (evs : List Event) (ev : Event) :
    returned (evs ++ [ev]) = returned evs ++ returned [ev] := List.flatMap_append

/-- Completed requests stay as they are, whatever happens. -/
theorem completed_step {ev : Event} (B : Batch acc .idle e) (hst : Step env e ev e') {r : Ref}
    (hr : r ∈ acc) (hc : e.scheduler.statusOf r = .COMPLETED) : e'.request r = e.request r := by
  cases ev with
  | submitRequest x req b =>
    obtain ⟨-, -, heq⟩ := hst
    have A := RequestScheduler.submitNew_added e.scheduler req
    obtain ⟨rfl, rfl⟩ := Prod.mk.inj heq
    exact A.old r (B.ledger.lt_next r hr)
  | cancelRequest k b =>
    obtain rfl : (e.cancelRequest env k).2 = e' := congrArg Prod.snd hst
    rcases B.cancelRequest_cases env k with ⟨heq, -⟩ | ⟨x, hx, -, -, -, -, -, T, -⟩
    · rw [heq]
    · refine T.frame r fun heq => ?_
      subst heq
      rcases hx with hp | hrun
      · cases hc.symm.trans (B.ledger.pending r hp).2
      · rcases (B.ledger.running k r hrun).2.2 with h | h <;> cases hc.symm.trans h
  | step res =>
    obtain ⟨qs, ⟨as, hrun, -⟩, -⟩ := step_leads hst
    have h := hrun.always (I := fun c : Point × Engine => Batch acc c.1 c.2 ∧
      c.2.request r = e.request r) ⟨B, rfl⟩ fun c a c' ⟨B, hreq⟩ hm => by
        have hst : c.2.scheduler.statusOf r = .COMPLETED :=
          (congrArg ScheduledRequest.status hreq).trans hc
        exact ⟨B.micro hm, (B.frozen hm (by rw [hst]; rfl) (B.out_of_completed hst)).1.trans hreq⟩
    exact h.2

theorem mem_accepted {r : Ref} : r ∈ accepted evs ↔ ∃ req, .submitRequest r req true ∈ evs := by
  simp only [accepted, List.mem_filterMap]
  constructor
  · rintro ⟨ev, hev, h⟩
    split at h
    · cases h; exact ⟨_, hev⟩
    · cases h
  · rintro ⟨req, h⟩
    exact ⟨_, h, rfl⟩

/-- What nothing assigns to is, for every submitted request, as it was submitted. -/
theorem submitted_of_calls (hrun : Trace.Run (Call env)
    (new maxBatchSize maxQueueSize defaultTimeout policy numBlocks blockSize) evs e) {r : Ref}
    {req : ScheduledRequest} {b : Bool} (h : .submitRequest r req b ∈ evs) {β : Type}
    (g : ScheduledRequest → β) (hg : RequestScheduler.Stable g) :
    g (e.request r) = g req ∧ r < e.scheduler.requests.next := by
  refine hrun.invariant (I := fun evs e => ∀ r req b, .submitRequest r req b ∈ evs →
    g (e.request r) = g req ∧ r < e.scheduler.requests.next)
    (fun _ _ _ h => absurd h List.not_mem_nil) ?_ r req b h
  intro evs e ev e' _ hi hst r req b h
  rcases List.mem_append.mp h with h | h
  · obtain ⟨hreq, hlt⟩ := hi r req b h
    cases ev with
    | submitRequest r' req' b' =>
      obtain ⟨-, -, heq⟩ := hst
      have A := RequestScheduler.submitNew_added e.scheduler req'
      obtain ⟨rfl, rfl⟩ := Prod.mk.inj heq
      exact ⟨(congrArg g (A.old r hlt)).trans hreq, A.next.symm ▸ Nat.lt_succ_of_lt hlt⟩
    | cancelRequest k b' =>
      obtain rfl : (e.cancelRequest env k).2 = e' := congrArg Prod.snd hst
      obtain ⟨-, hnext, hstable⟩ := RequestScheduler.cancelRequest_frame env.clock e.scheduler k
      exact ⟨(hstable g hg r).trans hreq, hlt.trans_eq hnext.symm⟩
    | step res =>
      obtain ⟨qs, ⟨as, hmicro, -⟩, -⟩ := step_leads hst
      obtain ⟨-, hnext, hstable⟩ := Micro.run_frame hmicro
      exact ⟨(hstable g hg r).trans hreq, hlt.trans_eq hnext.symm⟩
  · cases List.mem_singleton.mp h
    obtain ⟨-, rfl, heq⟩ := hst
    have A := RequestScheduler.submitNew_added e.scheduler req
    obtain ⟨rfl, rfl⟩ := Prod.mk.inj heq
    obtain ⟨t, ht⟩ := A.request
    exact ⟨(congrArg g ht).trans (hg.timeout t req), A.next.symm ▸ Nat.lt_succ_self _⟩

/-- The engine holds accepted requests only. -/
theorem held_of_calls (hrun : Trace.Run (Call env)
    (new maxBatchSize maxQueueSize defaultTimeout policy numBlocks blockSize) evs e) {r : Ref}
    (h : Holds .idle e r) : r ∈ accepted evs := by
  refine hrun.invariant (I := fun evs e => ∀ r, Holds .idle e r → r ∈ accepted evs) ?_ ?_ r h
  · rintro r (h | h | ⟨k, q, h, -⟩)
    · cases h
    · cases h
    · exact nomatch h
  · intro evs e ev e' _ hi hst r h
    rw [accepted_append]
    cases ev with
    | submitRequest r' req b =>
      obtain ⟨-, rfl, heq⟩ := hst
      have A := RequestScheduler.submitNew_added e.scheduler req
      obtain ⟨rfl, rfl⟩ := Prod.mk.inj heq
      rw [accepted_submitRequest]
      rcases h with hp | ht | hq
      · rw [A.pending] at hp
        exact List.mem_append.mpr ((List.mem_append.mp hp).imp (fun h => hi r (Or.inl h)) id)
      · cases ht
      · exact List.mem_append_left _ (hi r (Or.inr (Or.inr hq)))
    | cancelRequest k b =>
      obtain rfl : (e.cancelRequest env k).2 = e' := congrArg Prod.snd hst
      refine List.mem_append_left _ (hi r (h.imp_left fun hp => ?_))
      exact (RequestScheduler.cancelRequest_frame env.clock e.scheduler k).1.subset hp
    | step res =>
      obtain ⟨qs, ⟨as, hmicro, -⟩, -⟩ := step_leads hst
      exact List.mem_append_left _ (hi r ((Micro.run_frame hmicro).1 r (h.of_idle _)))

theorem held_submitted (hrun : Trace.Run (Call env)
    (new maxBatchSize maxQueueSize defaultTimeout policy numBlocks blockSize) evs e) {r : Ref}
    (h : Holds .idle e r) : ∃ req, .submitRequest r req true ∈ evs ∧
      r < e.scheduler.requests.next ∧ ∀ {β : Type} (g : ScheduledRequest → β),
        RequestScheduler.Stable g → g (e.request r) = g req := by
  obtain ⟨req, hmem⟩ := mem_accepted.mp (held_of_calls hrun h)
  exact ⟨req, hmem, (submitted_of_calls hrun hmem _ RequestScheduler.stable_prompt).2,
    fun g hg => (submitted_of_calls hrun hmem g hg).1⟩

/-- Between two steps nothing happens to the sequences of the batch. -/
theorem call_frame {ev : Event} (hrun : Trace.Run (Call env)
      (new maxBatchSize maxQueueSize defaultTimeout policy numBlocks blockSize) evs e)
    (hst : Call env e ev e') (hev : ∀ res, ev ≠ .step res) :
    e'.activeSequences = e.activeSequences ∧
      ∀ {β : Type} (g : ScheduledRequest → β), RequestScheduler.Stable g →
        ∀ k q, e.activeSequences.get? k = some q → g (e'.request q.request) = g (e.request q.request) := by
  cases ev with
  | submitRequest r req b =>
    obtain ⟨-, -, heq⟩ := hst
    have A := RequestScheduler.submitNew_added e.scheduler req
    obtain ⟨rfl, rfl⟩ := Prod.mk.inj heq
    refine ⟨rfl, fun g _ k q hq => congrArg g ?_⟩
    obtain ⟨-, -, hlt, -⟩ := held_submitted hrun (.of_active hq)
    exact A.old _ hlt
  | cancelRequest k b =>
    obtain rfl : (e.cancelRequest env k).2 = e' := congrArg Prod.snd hst
    obtain ⟨-, -, hstable⟩ := RequestScheduler.cancelRequest_frame env.clock e.scheduler k
    exact ⟨rfl, fun g hg _ q _ => hstable g hg q.request⟩
  | step res => exact absurd rfl (hev res)

theorem tokenized_of_calls (hrun : Trace.Run (Call env)
    (new maxBatchSize maxQueueSize defaultTimeout policy numBlocks blockSize) evs e) :
    Tokenized env .idle e := by
  refine hrun.invariant (I := fun _ e => Tokenized env .idle e) ?_ ?_
  · exact ⟨fun _ _ h => (nomatch h), fun _ _ _ h => by cases h⟩
  intro evs e ev e' hr T hst
  by_cases hev : ∃ res, ev = .step res
  · obtain ⟨res, rfl⟩ := hev
    obtain ⟨qs, ⟨as, hmicro, -⟩, -⟩ := step_leads hst
    exact (hmicro.always (I := fun c : Point × Engine => Tokenized env c.1 c.2) T
      fun c a c' T hm => T.micro hm).idle rfl fun _ _ _ => rfl
  · obtain ⟨hact, hstable⟩ := call_frame hr hst (not_exists.mp hev)
    exact T.idle hact fun k q hq => hstable _ RequestScheduler.stable_prompt k q hq

theorem calls_of_run (hrun : Trace.Run (Step env)
    (new maxBatchSize maxQueueSize defaultTimeout policy numBlocks blockSize) evs e) :
    Trace.Run (Call env)
      (new maxBatchSize maxQueueSize defaultTimeout policy numBlocks blockSize) evs e :=
  hrun.mono fun _ _ _ h => step_call h

theorem tokenized_of_run (hrun : Trace.Run (Step env)
    (new maxBatchSize maxQueueSize defaultTimeout policy numBlocks blockSize) evs e) :
    Tokenized env .idle e := tokenized_of_calls (calls_of_run hrun)

theorem submitted_of_run (hrun : Trace.Run (Step env)
    (new maxBatchSize maxQueueSize defaultTimeout policy numBlocks blockSize) evs e) {r : Ref}
    {req : ScheduledRequest} {b : Bool} (h : .submitRequest r req b ∈ evs) {β : Type}
    (g : ScheduledRequest → β) (hg : RequestScheduler.Stable g) :
    g (e.request r) = g req ∧ r < e.scheduler.requests.next :=
  submitted_of_calls (calls_of_run hrun) h g hg

theorem stable_of_step {ev : Event} {r : Ref} (hrun : Trace.Run (Step env)
      (new maxBatchSize maxQueueSize defaultTimeout policy numBlocks blockSize) evs e)
    (hst : Step env e ev e') (hr : r ∈ accepted evs) {β : Type} (g : ScheduledRequest → β)
    (hg : RequestScheduler.Stable g) : g (e'.request r) = g (e.request r) := by
  obtain ⟨req, hmem⟩ := mem_accepted.mp hr
  rw [(submitted_of_run hrun hmem g hg).1]
  exact (submitted_of_run (hrun.snoc hst) (List.mem_append_left _ hmem) g hg).1

end Engine

end ModelServing
