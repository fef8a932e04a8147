import ModelServing.Engine.Bound
import ModelServing.Engine.Load

/-! Requests that share an id. The batch and the running dictionary are keyed by id, so of two requests
    of one id that are in progress at once the later entry replaces the earlier one. As long as no
    selection brings two such requests together, every accepted request ends, whatever the ids. -/

namespace ModelServing

open RequestScheduler (Touches)

namespace RequestScheduler

variable {clock : ℕ → ℚ} {s : RequestScheduler} {r : Ref} {k : String}

/-! ### Selections, whatever the ids -/

/-- The queue holds distinct requests that wait. -/
structure Waits (s : RequestScheduler) : Prop where
  nodup : s.pending.Nodup
  status : ∀ r ∈ s.pending, s.statusOf r = .PENDING

/-- Among requests that wait, only the cancelled object itself equals the cancelled object. -/
theorem expire_pending (clock : ℕ → ℚ) (hst : ∀ x ∈ s.pending, s.statusOf x = .PENDING)
    (r : Ref) :
    (s.expire clock r).pending = s.pending.erase r := by
  refine eraseP_eq_erase fun x hx => ?_
  rw [decide_eq_true_iff]
  refine ⟨fun h => ?_, Or.inl⟩
  rcases h with rfl | heq
  · rfl
  · by_contra hne
    have hxr : (s.expire clock r).statusOf x = (s.expire clock r).statusOf r :=
      congrArg ScheduledRequest.status heq
    rw [expire_status, (touches_expire clock s r).status hne, hst x hx] at hxr
    cases hxr

theorem Waits.expire (W : Waits s) (clock : ℕ → ℚ) (r : Ref) : Waits (s.expire clock r) := by
  have hpend := expire_pending clock W.status r
  refine ⟨?_, fun x hx => ?_⟩
  · rw [hpend]
    exact W.nodup.erase r
  · rw [hpend, W.nodup.mem_erase_iff] at hx
    rw [(touches_expire clock s r).status hx.1]
    exact W.status x hx.2

theorem foldl_expire_waits (clock : ℕ → ℚ) (rs : List Ref) (s : RequestScheduler) (W : Waits s) :
    Waits (rs.foldl (expire clock) s) ∧
      (rs.foldl (expire clock) s).pending = rs.foldl List.erase s.pending := by
  induction rs generalizing s with
  | nil => exact ⟨W, rfl⟩
  | cons r rs ih =>
    obtain ⟨W', hpend⟩ := ih _ (W.expire clock r)
    rw [expire_pending clock W.status r] at hpend
    exact ⟨W', hpend⟩

theorem foldl_expire_status (rs : List Ref) (s : RequestScheduler) (hr : r ∈ rs) :
    (rs.foldl (expire clock) s).statusOf r = .CANCELLED := by
  induction rs generalizing s with
  | nil => cases hr
  | cons x rs ih =>
    by_cases hrs : r ∈ rs
    · exact ih _ hrs
    · obtain rfl := (List.mem_cons.mp hr).resolve_right hrs
      rw [List.foldl_cons, (Touches.foldl (touches_expire clock) rs _).status hrs]
      exact expire_status s r

theorem startRunning_status (s : RequestScheduler) (r : Ref) :
    (s.startRunning clock r).statusOf r = .RUNNING :=
  congrArg ScheduledRequest.status (request_call_self clock .start s r)

theorem startRunning_running (s : RequestScheduler) (r : Ref) :
    (s.startRunning clock r).running = s.running.insert (s.idOf r) r :=
  congrArg (s.running.insert · r) (idOf_call clock .start (fun _ _ => rfl) s r r)

theorem foldl_startRunning_status (rs : List Ref) (s : RequestScheduler) (hr : r ∈ rs) :
    (rs.foldl (startRunning clock) s).statusOf r = .RUNNING := by
  induction rs generalizing s with
  | nil => cases hr
  | cons x rs ih =>
    by_cases hrs : r ∈ rs
    · exact ih _ hrs
    · obtain rfl := (List.mem_cons.mp hr).resolve_right hrs
      rw [List.foldl_cons, (Touches.foldl (touches_startRunning clock) rs _).status hrs]
      exact startRunning_status s r

/-- Entries under other ids stay. -/
theorem foldl_startRunning_get?_of_not_mem (rs : List Ref) (s : RequestScheduler)
    (hk : k ∉ rs.map s.idOf) :
    (rs.foldl (startRunning clock) s).running.get? k = s.running.get? k := by
  induction rs generalizing s with
  | nil => rfl
  | cons r rs ih =>
    have hids : rs.map (s.startRunning clock r).idOf = rs.map s.idOf :=
      List.map_congr_left fun x _ => (touches_startRunning clock s r).id_eq x
    simp only [List.map_cons, List.mem_cons, not_or] at hk
    rw [List.foldl_cons, ih _ (hids ▸ hk.2), startRunning_running,
      OrderedDict.get?_insert_of_ne _ _ hk.1]

/-- Requests with distinct ids do not overwrite each other. -/
theorem foldl_startRunning_get? (rs : List Ref) (s : RequestScheduler)
    (hnd : (rs.map s.idOf).Nodup) (hr : r ∈ rs) :
    (rs.foldl (startRunning clock) s).running.get? (s.idOf r) = some r := by
  induction rs generalizing s with
  | nil => cases hr
  | cons x rs ih =>
    have hid := (touches_startRunning clock s x).id_eq
    have hids : rs.map (s.startRunning clock x).idOf = rs.map s.idOf :=
      List.map_congr_left fun y _ => hid y
    obtain ⟨hx, hrs⟩ := List.nodup_cons.mp hnd
    rcases List.mem_cons.mp hr with rfl | hr
    · rw [List.foldl_cons, foldl_startRunning_get?_of_not_mem rs _ (hids ▸ hx), startRunning_running,
        OrderedDict.get?_insert, if_pos rfl]
    · rw [← hid]
      exact ih _ (hids ▸ hrs) hr

/-- What a selection does to the queue and to the running dictionary. -/
structure Drawn (s : RequestScheduler) (batch : List Ref) (s' : RequestScheduler) : Prop where
  waits : Waits s'
  pending : ∀ r ∈ s'.pending, r ∈ s.pending ∧ r ∉ batch
  started : ∀ r ∈ batch, r ∈ s.pending ∧ s'.statusOf r = .RUNNING
  expired : ∀ r ∈ s.pending, r ∈ batch ∨ r ∈ s'.pending ∨ s'.statusOf r = .CANCELLED
  kept : ∀ k, k ∉ batch.map s.idOf → s'.running.get? k = s.running.get? k
  entered : (batch.map s.idOf).Nodup → ∀ r ∈ batch, s'.running.get? (s.idOf r) = some r

theorem Waits.enforceTimeouts (W : Waits s) (clock : ℕ → ℚ) : Waits (s.enforceTimeouts clock) ∧
    ∀ x, x ∈ (s.enforceTimeouts clock).pending ↔ x ∈ s.pending ∧ x ∉ s.timedOut clock := by
  have W₀ : Waits { s with ticks := s.ticks + s.pending.length } := ⟨W.nodup, W.status⟩
  obtain ⟨W₁, hpend⟩ := foldl_expire_waits clock (s.timedOut clock) _ W₀
  refine ⟨W₁, fun x => ?_⟩
  rw [RequestScheduler.enforceTimeouts, hpend, ← List.diff_eq_foldl, W.nodup.mem_sdiff_iff]

theorem Waits.getNextBatch (W : Waits s) (clock : ℕ → ℚ) (n : ℕ) :
    Drawn s (s.getNextBatch clock n).1 (s.getNextBatch clock n).2 := by
  obtain ⟨W₁, hmem₁⟩ := W.enforceTimeouts clock
  obtain ⟨queue, -, hperm, heq⟩ := getNextBatch_eq clock s n
  have hrun₁ : (s.enforceTimeouts clock).running = s.running := foldl_expire_running _ _
  have hid₁ := (touches_enforceTimeouts clock s).id_eq
  have hout₁ : ∀ x ∈ s.timedOut clock, (s.enforceTimeouts clock).statusOf x = .CANCELLED :=
    fun x hx => foldl_expire_status _ _ hx
  set s₁ := s.enforceTimeouts clock
  set batch := queue.take n
  set rest := queue.drop n
  set s₂ : RequestScheduler := { s₁ with pending := rest }
  have hsplit : batch ++ rest = queue := List.take_append_drop _ _
  have hnd : (batch ++ rest).Nodup := by
    rw [hsplit]
    exact hperm.nodup_iff.mpr W₁.nodup
  have hmem : ∀ x, x ∈ batch ++ rest ↔ x ∈ s.pending ∧ x ∉ s.timedOut clock := fun x => by
    rw [hsplit, hperm.mem_iff, hmem₁]
  have hids : batch.map s₂.idOf = batch.map s.idOf := List.map_congr_left fun x _ => hid₁ x
  have hpend : (batch.foldl (startRunning clock) s₂).pending = rest := foldl_startRunning_pending batch s₂
  have T := Touches.foldl (touches_startRunning clock) batch s₂
  have hdisj : ∀ x ∈ rest, x ∉ batch := fun x hx hb => List.disjoint_of_nodup_append hnd hb hx
  rw [heq]
  refine ⟨⟨?_, fun x hx => ?_⟩, fun x hx => ?_, fun x hx => ?_, fun x hx => ?_, fun k hk => ?_,
    fun hbatch x hx => ?_⟩
  · rw [hpend]
    exact (List.nodup_append.mp hnd).2.1
  · rw [hpend] at hx
    exact (T.status (hdisj x hx)).trans
      (W₁.status x (hperm.mem_iff.mp (hsplit ▸ List.mem_append_right _ hx)))
  · rw [hpend] at hx
    exact ⟨((hmem x).mp (List.mem_append_right _ hx)).1, hdisj x hx⟩
  · exact ⟨((hmem x).mp (List.mem_append_left _ hx)).1, foldl_startRunning_status batch s₂ hx⟩
  · by_cases hout : x ∈ s.timedOut clock
    · refine Or.inr (Or.inr ?_)
      have hnot : x ∉ batch := fun hb => ((hmem x).mp (List.mem_append_left _ hb)).2 hout
      exact (T.status hnot).trans (hout₁ x hout)
    · rw [hpend]
      exact (List.mem_append.mp ((hmem x).mpr ⟨hx, hout⟩)).imp id Or.inl
  · rw [foldl_startRunning_get?_of_not_mem batch s₂ (hids ▸ hk)]
    exact congrArg (·.get? k) hrun₁
  · rw [← hid₁]
    exact foldl_startRunning_get? batch s₂ (hids ▸ hbatch) hx

/-- `r` has ended; only its object and the running entry under its id may differ. -/
structure Ended (r : Ref) (s s' : RequestScheduler) : Prop where
  next : s'.requests.next = s.requests.next
  id_eq : ∀ x, s'.idOf x = s.idOf x
  others : ∀ x, x ≠ r → s'.statusOf x = s.statusOf x
  status : (s'.statusOf r).terminal = true
  pending : s'.pending = s.pending
  running : ∀ k, k ≠ s.idOf r → s'.running.get? k = s.running.get? k

theorem ended_fail (clock : ℕ → ℚ) (msg : String) (s : RequestScheduler) (r : Ref) :
    Ended r s (s.call clock r (.fail msg)) := by
  have T := touches_fail clock msg s r
  refine ⟨rfl, T.id_eq, fun x hx => T.status hx, ?_, rfl, fun _ _ => rfl⟩
  rw [statusOf_fail]
  rfl

theorem completeRequest_status (clock : ℕ → ℚ) (text : String) (n : ℕ)
    (h : s.running.get? k = some r) :
    (s.completeRequest clock k text n).statusOf r = .COMPLETED := by
  simp only [completeRequest, h]
  exact congrArg ScheduledRequest.status
    (request_call_self clock (.complete text n) { s with running := s.running.erase k } r)

theorem ended_complete (clock : ℕ → ℚ) (text : String) (n : ℕ)
    (h : s.running.get? (s.idOf r) = some r) :
    Ended r s (s.completeRequest clock (s.idOf r) text n) := by
  obtain ⟨hpend, -, hnext, hframe, hstable⟩ := completeRequest_frame clock s (s.idOf r) text n
  refine ⟨hnext, hstable _ stable_requestId, fun x hx => ?_, ?_, hpend, fun k hk => ?_⟩
  · refine congrArg ScheduledRequest.status (hframe x ?_)
    rw [h]
    exact fun heq => hx (Option.some.inj heq).symm
  · rw [completeRequest_status clock text n h]
    rfl
  · simp only [completeRequest, h]
    exact OrderedDict.get?_erase_of_ne _ hk

end RequestScheduler

namespace Engine

open RequestScheduler (Waits Ended)

variable {env : Env} {e e' : Engine} {acc rs : List Ref} {p p' : Point} {r : Ref} {k : String}

/-- What the next selection takes has distinct ids, none of them active. -/
def ApartNext (env : Env) (e : Engine) : Prop :=
  ∀ n : ℕ, e.maxBatchSize = e.batchSize + n → 0 < n →
    ((e.scheduler.getNextBatch env.clock n).1.map e.scheduler.idOf).Nodup ∧
    ∀ r ∈ (e.scheduler.getNextBatch env.clock n).1, e.scheduler.idOf r ∉ e.activeSequences.keys

/-- Every accepted request is queued, selected or active under its id, or it has ended. -/
structure Apart (acc : List Ref) (p : Point) (e : Engine) : Prop where
  lt_next : ∀ r ∈ acc, r < e.scheduler.requests.next
  waits : Waits e.scheduler
  pending : ∀ r ∈ e.scheduler.pending, r ∈ acc
  todo_nodup : (p.todo.map e.scheduler.idOf).Nodup
  todo : ∀ r ∈ p.todo, r ∈ acc ∧ e.scheduler.statusOf r = .RUNNING ∧
    e.scheduler.idOf r ∉ e.activeSequences.keys ∧
    e.scheduler.running.get? (e.scheduler.idOf r) = some r
  active : ∀ k q, e.activeSequences.get? k = some q →
    q.request ∈ acc ∧ e.scheduler.idOf q.request = k ∧
      e.scheduler.statusOf q.request = .RUNNING ∧ e.scheduler.running.get? k = some q.request
  located : ∀ r ∈ acc, (e.scheduler.statusOf r).terminal = true ∨ r ∈ e.scheduler.pending ∨
    r ∈ p.todo ∨ ∃ k q, e.activeSequences.get? k = some q ∧ q.request = r

namespace Apart

theorem key_eq (A : Apart acc p e) {k' : String} {q q' : SequenceState}
    (hq : e.activeSequences.get? k = some q) (hq' : e.activeSequences.get? k' = some q')
    (h : q'.request = q.request) : k' = k := by
  rw [← (A.active k q hq).2.1, ← (A.active k' q' hq').2.1, h]

theorem todo_ne_active (A : Apart acc p e) (hr : r ∈ p.todo) {q : SequenceState}
    (hq : e.activeSequences.get? k = some q) : q.request ≠ r := by
  rintro rfl
  have hkey := (A.todo _ hr).2.2.1
  rw [(A.active k q hq).2.1] at hkey
  exact hkey (OrderedDict.mem_keys_of_get? hq)

theorem not_pending (A : Apart acc p e) (h : e.scheduler.statusOf r = .RUNNING) :
    r ∉ e.scheduler.pending := fun hp => by cases h.symm.trans (A.waits.status r hp)

/-- Nothing changes when the scheduler is the same and the same requests are active and selected. -/
theorem congr (A : Apart acc p e) (hs : e'.scheduler = e.scheduler) (htodo : p'.todo = p.todo)
    (hnew : ∀ k q', e'.activeSequences.get? k = some q' →
      ∃ q, e.activeSequences.get? k = some q ∧ q'.request = q.request)
    (hold : ∀ k q, e.activeSequences.get? k = some q →
      ∃ q', e'.activeSequences.get? k = some q' ∧ q'.request = q.request) : Apart acc p' e' where
  lt_next := hs ▸ A.lt_next
  waits := hs ▸ A.waits
  pending := hs ▸ A.pending
  todo_nodup := by
    rw [hs, htodo]
    exact A.todo_nodup
  todo := by
    intro r hr
    rw [htodo] at hr
    obtain ⟨hacc, hst, hkey, hrun⟩ := A.todo r hr
    rw [hs]
    refine ⟨hacc, hst, fun hm => hkey ?_, hrun⟩
    obtain ⟨q', hq'⟩ := OrderedDict.mem_keys_iff.mp hm
    obtain ⟨q, hq, -⟩ := hnew _ q' hq'
    exact OrderedDict.mem_keys_of_get? hq
  active := by
    intro k q' hq'
    obtain ⟨q, hq, hreq⟩ := hnew k q' hq'
    rw [hreq, hs]
    exact A.active k q hq
  located := by
    intro r hr
    rw [hs, htodo]
    refine (A.located r hr).imp id (Or.imp id (Or.imp id ?_))
    rintro ⟨k, q, hq, rfl⟩
    obtain ⟨q', hq', hreq⟩ := hold k q hq
    exact ⟨k, q', hq', hreq⟩

theorem same (A : Apart acc p e) (hs : e'.scheduler = e.scheduler)
    (hact : e'.activeSequences = e.activeSequences) (htodo : p'.todo = p.todo) : Apart acc p' e' :=
  A.congr hs htodo (fun _ q' hq' => ⟨q', hact ▸ hq', rfl⟩) fun _ q hq => ⟨q, hact ▸ hq, rfl⟩

theorem select (A : Apart acc .idle e) {n : ℕ}
    (hnd : ((e.scheduler.getNextBatch env.clock n).1.map e.scheduler.idOf).Nodup)
    (hnew : ∀ r ∈ (e.scheduler.getNextBatch env.clock n).1,
      e.scheduler.idOf r ∉ e.activeSequences.keys) :
    Apart acc (.admitting (e.scheduler.getNextBatch env.clock n).1)
      { e with scheduler := (e.scheduler.getNextBatch env.clock n).2 } := by
  have D := A.waits.getNextBatch env.clock n
  have T := (RequestScheduler.getNextBatch_split env.clock e.scheduler n).1
  set batch := (e.scheduler.getNextBatch env.clock n).1
  set s' := (e.scheduler.getNextBatch env.clock n).2
  constructor
  · exact fun r hr => T.next.symm ▸ A.lt_next r hr
  · exact D.waits
  · exact fun r hr => A.pending r (D.pending r hr).1
  · change (batch.map s'.idOf).Nodup
    rwa [List.map_congr_left fun x _ => T.id_eq x]
  · intro r hr
    obtain ⟨hp, hst⟩ := D.started r hr
    change r ∈ acc ∧ s'.statusOf r = .RUNNING ∧ s'.idOf r ∉ _ ∧ s'.running.get? (s'.idOf r) = some r
    rw [T.id_eq]
    exact ⟨A.pending r hp, hst, hnew r hr, D.entered hnd r hr⟩
  · intro k q hq
    obtain ⟨hacc, rfl, hst, hrun⟩ := A.active k q hq
    have hk : e.scheduler.idOf q.request ∉ batch.map e.scheduler.idOf := by
      intro hm
      obtain ⟨x, hx, hid⟩ := List.mem_map.mp hm
      exact hnew x hx (hid ▸ OrderedDict.mem_keys_of_get? hq)
    exact ⟨hacc, T.id_eq _, (T.status (A.not_pending hst)).trans hst, (D.kept _ hk).trans hrun⟩
  · intro r hr
    rcases A.located r hr with hst | hp | ht | hq
    · have hnot : r ∉ e.scheduler.pending := fun hp => by
        rw [A.waits.status r hp] at hst
        cases hst
      exact Or.inl ((congrArg _ (T.status hnot)).trans hst)
    · rcases D.expired r hp with hb | hp' | hst
      · exact Or.inr (Or.inr (Or.inl hb))
      · exact Or.inr (Or.inl hp')
      · exact Or.inl (congrArg RequestStatus.terminal hst)
    · cases ht
    · exact Or.inr (Or.inr (Or.inr hq))

theorem tokenize {rs : List Ref} (A : Apart acc (.admitting (r :: rs)) e) (inputIds : List ℕ) :
    Apart acc (.placing r inputIds rs) (e.tokenized r inputIds) := by
  refine ⟨A.lt_next, ⟨A.waits.nodup, fun x hx => ?_⟩, A.pending, ?_, fun x hx => ?_, fun k q hq => ?_,
    fun x hx => ?_⟩
  · rw [statusOf_tokenized]
    exact A.waits.status x hx
  · rw [List.map_congr_left fun x _ => idOf_tokenized e r inputIds x]
    exact A.todo_nodup
  · rw [idOf_tokenized, statusOf_tokenized]
    exact A.todo x hx
  · rw [idOf_tokenized, statusOf_tokenized]
    exact A.active k q hq
  · rw [statusOf_tokenized]
    exact A.located x hx

theorem place {rs : List Ref} {inputIds : List ℕ} (A : Apart acc (.placing r inputIds rs) e)
    (cache : CacheManager) : Apart acc (.admitting rs) ((e.withCache cache).activate r inputIds) := by
  have hr : r ∈ (Point.placing r inputIds rs).todo := List.mem_cons_self
  obtain ⟨hacc, hst, hkey, hrun⟩ := A.todo r hr
  obtain ⟨hnot, hnd⟩ := List.nodup_cons.mp A.todo_nodup
  have hget := get?_activate e cache r inputIds
  refine ⟨A.lt_next, A.waits, A.pending, hnd, fun x hx => ?_, fun k q hq => ?_, fun x hx => ?_⟩
  · obtain ⟨hacc', hst', hkey', hrun'⟩ := A.todo x (List.mem_cons_of_mem _ hx)
    refine ⟨hacc', hst', fun hm => ?_, hrun'⟩
    rcases mem_keys_activate.mp hm with hid | hm
    · exact hnot (List.mem_map.mpr ⟨x, hx, hid⟩)
    · exact hkey' hm
  · rw [hget] at hq
    split at hq
    · rename_i hk
      cases hq
      exact ⟨hacc, hk.symm, hst, hk ▸ hrun⟩
    · exact A.active k q hq
  · rcases A.located x hx with hend | hp | ht | ⟨k, q, hq, rfl⟩
    · exact Or.inl hend
    · exact Or.inr (Or.inl hp)
    · rcases List.mem_cons.mp ht with rfl | ht
      · exact Or.inr (Or.inr (Or.inr ⟨e.scheduler.idOf x, _, (hget _).trans (if_pos rfl), rfl⟩))
      · exact Or.inr (Or.inr (Or.inl ht))
    · have hne : k ≠ e.scheduler.idOf r := fun h => hkey (h ▸ OrderedDict.mem_keys_of_get? hq)
      exact Or.inr (Or.inr (Or.inr ⟨k, q, (hget k).trans ((if_neg hne).trans hq), rfl⟩))

/-- One request ends: it is no longer selected or active, and nobody else has its id. -/
theorem ends (A : Apart acc p e) (E : Ended r e.scheduler e'.scheduler)
    (hact : ∀ k q, e'.activeSequences.get? k = some q ↔
      e.activeSequences.get? k = some q ∧ k ≠ e.scheduler.idOf r)
    (hown : ∀ q, e.activeSequences.get? (e.scheduler.idOf r) = some q → q.request = r)
    (hnot : r ∉ e.scheduler.pending) (hsub : p'.todo.Sublist p.todo)
    (htodo : ∀ x ∈ p'.todo, e.scheduler.idOf x ≠ e.scheduler.idOf r)
    (hkeep : ∀ x ∈ p.todo, x ≠ r → x ∈ p'.todo) : Apart acc p' e' := by
  have hother : ∀ {x}, e.scheduler.idOf x ≠ e.scheduler.idOf r →
      e'.scheduler.statusOf x = e.scheduler.statusOf x := fun hne =>
    E.others _ fun h => hne (h ▸ rfl)
  constructor
  · exact fun x hx => E.next.symm ▸ A.lt_next x hx
  · refine ⟨E.pending.symm ▸ A.waits.nodup, fun x hx => ?_⟩
    rw [E.pending] at hx
    rw [E.others x fun h => hnot (h ▸ hx)]
    exact A.waits.status x hx
  · exact fun x hx => A.pending x (E.pending ▸ hx)
  · rw [List.map_congr_left fun x _ => E.id_eq x]
    exact A.todo_nodup.sublist (hsub.map _)
  · intro x hx
    obtain ⟨hacc, hst, hkey, hrun⟩ := A.todo x (hsub.subset hx)
    have hne := htodo x hx
    rw [E.id_eq, hother hne, E.running _ hne]
    refine ⟨hacc, hst, fun hm => hkey ?_, hrun⟩
    obtain ⟨q, hq⟩ := OrderedDict.mem_keys_iff.mp hm
    exact OrderedDict.mem_keys_of_get? ((hact _ q).mp hq).1
  · intro k q hq
    obtain ⟨hq, hne⟩ := (hact k q).mp hq
    obtain ⟨hacc, hid, hst, hrun⟩ := A.active k q hq
    rw [E.id_eq, hother (hid.symm ▸ hne), E.running _ hne]
    exact ⟨hacc, hid, hst, hrun⟩
  · intro x hx
    by_cases hxr : x = r
    · exact Or.inl (hxr ▸ E.status)
    · rw [E.others x hxr, E.pending]
      refine (A.located x hx).imp id (Or.imp id (Or.imp (fun h => hkeep x h hxr) ?_))
      rintro ⟨k, q, hq, rfl⟩
      refine ⟨k, q, (hact k q).mpr ⟨hq, ?_⟩, rfl⟩
      rintro rfl
      exact hxr (hown q hq)

/-- An active sequence leaves the batch and its request ends. -/
theorem leaves {q : SequenceState} (A : Apart acc p e) (hq : e.activeSequences.get? k = some q)
    (E : Ended q.request e.scheduler e'.scheduler)
    (hact : e'.activeSequences = e.activeSequences.erase k) (htodo : p'.todo = p.todo) :
    Apart acc p' e' := by
  obtain ⟨-, rfl, hst, -⟩ := A.active k q hq
  refine A.ends E (fun k' q' => ?_) (fun q' hq' => ?_) (A.not_pending hst) (htodo ▸ .refl _)
    (fun x hx hid => ?_) fun x hx _ => htodo ▸ hx
  · rw [hact, OrderedDict.get?_erase]
    split
    · simp [*]
    · simp [*]
  · rw [Option.some.inj (hq'.symm.trans hq)]
  · refine (A.todo x (htodo ▸ hx)).2.2.1 ?_
    rw [hid]
    exact OrderedDict.mem_keys_of_get? hq

theorem micro {a : Action} (A : Apart acc p e) (hA : p = .idle → ApartNext env e)
    (h : Micro env (p, e) a (p', e')) (hend : ∀ err, p' ≠ .ended (some err)) : Apart acc p' e' := by
  cases h with
  | full _ | rest _ | done => exact A.same rfl rfl rfl
  | @select _ n hslots hn =>
    obtain ⟨hnd, hnew⟩ := hA rfl n hslots hn
    exact A.select hnd hnew
  | tokenize _ => exact A.tokenize _
  | place _ => exact A.place _
  | @evict _ r rs inputIds _ v cache _ _ =>
    rcases dropEvicted_cases env (e.withCache cache) v with ⟨heq, -⟩ | ⟨q, -, hq, heq⟩ <;> rw [heq]
    · exact A.same rfl rfl rfl
    · exact A.leaves hq
        (RequestScheduler.ended_fail env.clock _ e.scheduler q.request) rfl rfl
  | @reject _ r rs inputIds _ _ =>
    have hr : r ∈ (Point.placing r inputIds rs).todo := List.mem_cons_self
    obtain ⟨-, hst, hkey, -⟩ := A.todo r hr
    obtain ⟨hnot, -⟩ := List.nodup_cons.mp A.todo_nodup
    refine A.ends (RequestScheduler.ended_fail env.clock _ e.scheduler r) (fun k q => ?_)
      (fun q hq => absurd (OrderedDict.mem_keys_of_get? hq) hkey) (A.not_pending hst)
      (List.sublist_cons_self _ _) (fun x hx hid => hnot (List.mem_map.mpr ⟨x, hx, hid⟩))
      fun x hx hne => (List.mem_cons.mp hx).resolve_left hne
    refine ⟨fun hq => ⟨hq, ?_⟩, And.left⟩
    rintro rfl
    exact hkey (OrderedDict.mem_keys_of_get? hq)
  | append _ _ hs =>
    have P := appendAll_appended hs
    refine A.congr P.scheduler rfl (fun k q' hq' => ?_) fun k q hq => ?_
    · obtain ⟨q, t, hq, rfl⟩ := P.get_old hq'
      exact ⟨q, hq, SequenceState.append_request ..⟩
    · have hk := OrderedDict.mem_keys_of_get? hq
      rw [← P.keys] at hk
      obtain ⟨q', hq'⟩ := OrderedDict.mem_keys_iff.mp hk
      obtain ⟨q₁, t, hq₁, rfl⟩ := P.get_old hq'
      obtain rfl := Option.some.inj (hq₁.symm.trans hq)
      exact ⟨_, hq', SequenceState.append_request ..⟩
  | @finish _ _ id ids q hf =>
    obtain ⟨hq, text, -, rfl⟩ := finish_ok hf
    obtain ⟨-, hid, -, hrun⟩ := A.active id q hq
    subst hid
    exact A.leaves hq (RequestScheduler.ended_complete env.clock text _ hrun) rfl rfl
  | raiseTokenizer _ | raiseEvict _ | raiseModel _ _ | raiseSampler _ _ _ | raiseFinish _ =>
    exact absurd rfl (hend _)

/-- A request that has ended keeps its status. -/
theorem frozen {a : Action} (A : Apart acc p e) (h : Micro env (p, e) a (p', e'))
    (hr : (e.scheduler.statusOf r).terminal = true) :
    e'.scheduler.statusOf r = e.scheduler.statusOf r := by
  have hrunning : ∀ {x}, e.scheduler.statusOf x = .RUNNING → r ≠ x := by
    rintro x hx rfl
    rw [hx] at hr
    cases hr
  cases h with
  | full _ | rest _ | done | place _ | raiseTokenizer _ | raiseEvict _ | raiseModel _ _ => rfl
  | select _ _ =>
    refine (RequestScheduler.getNextBatch_split _ _ _).1.status fun hp => ?_
    rw [A.waits.status r hp] at hr
    cases hr
  | tokenize _ => exact statusOf_tokenized ..
  | evict _ _ =>
    rcases dropEvicted_cases env (e.withCache _) _ with ⟨heq, -⟩ | ⟨q, -, hq, heq⟩ <;> rw [heq]
    · rfl
    · exact (RequestScheduler.touches_fail ..).status (hrunning (A.active _ q hq).2.2.1)
  | reject _ =>
    exact (RequestScheduler.touches_fail ..).status (hrunning (A.todo _ List.mem_cons_self).2.1)
  | append _ _ hs => rw [(appendAll_appended hs).scheduler]
  | raiseSampler _ _ hs => obtain rfl := (Prod.mk.inj hs).2; rfl
  | @finish _ _ id _ _ hf | @raiseFinish _ _ id _ _ hf =>
    rcases finish_cases hf with ⟨-, -, rfl⟩ | ⟨q, hq, ⟨-, -, rfl⟩ | ⟨text, -, -, rfl⟩⟩
    · rfl
    · rfl
    · obtain ⟨-, -, hst, hrun⟩ := A.active id q hq
      obtain ⟨-, -, -, hframe, -⟩ := RequestScheduler.completeRequest_frame env.clock e.scheduler id
        text q.generatedIds.length
      refine congrArg ScheduledRequest.status (hframe r ?_)
      rw [hrun]
      exact fun heq => hrunning hst (Option.some.inj heq).symm

end Apart

/-- The requests returned so far: each once, all completed. -/
structure Once (acc rs : List Ref) (e : Engine) : Prop where
  nodup : rs.Nodup
  completed : ∀ r ∈ rs, r ∈ acc ∧ e.scheduler.statusOf r = .COMPLETED

theorem Once.micro {a : Action} (N : Once acc rs e) (A : Apart acc p e)
    (h : Micro env (p, e) a (p', e')) :
    Once acc (rs ++ (Action.finished [a]).map SequenceState.request) e' := by
  have hkept : ∀ r ∈ rs, r ∈ acc ∧ e'.scheduler.statusOf r = .COMPLETED := fun r hr => by
    obtain ⟨hacc, hst⟩ := N.completed r hr
    exact ⟨hacc, (A.frozen h (by rw [hst]; rfl)).trans hst⟩
  cases a with
  | quiet | evict _ | reject _ =>
    simp only [Action.finished, List.filterMap_cons, List.filterMap_nil, List.map_nil, List.append_nil]
    exact ⟨N.nodup, hkept⟩
  | finish q =>
    cases h with
    | @finish _ _ id _ _ hf =>
      obtain ⟨hq, text, -, rfl⟩ := finish_ok hf
      obtain ⟨hacc, -, hst, hrun⟩ := A.active id q hq
      have hdone := RequestScheduler.completeRequest_status env.clock text q.generatedIds.length hrun
      refine ⟨?_, fun r hr => ?_⟩
      · refine N.nodup.append (List.nodup_singleton _) ?_
        rintro x hx hxq
        rw [List.mem_singleton.mp hxq] at hx
        cases hst.symm.trans (N.completed _ hx).2
      · rcases List.mem_append.mp hr with hr | hr
        · exact hkept r hr
        · exact List.mem_singleton.mp hr ▸ ⟨hacc, hdone⟩

theorem Apart.step {done : List SequenceState} (A : Apart acc .idle e) (N : Once acc rs e)
    (hA : ApartNext env e) (h : e.step env = (.ok done, e')) :
    Apart acc .idle e' ∧ Once acc (rs ++ done.map SequenceState.request) e' := by
  obtain ⟨qs, ⟨as, hrun, hqs⟩, hdone⟩ := step_leads h
  have hend := hrun.invariant (I := fun as c => (∀ err, c.1 ≠ .ended (some err)) →
    Apart acc c.1 c.2 ∧ (c.1 = .idle → ApartNext env c.2) ∧
      Once acc (rs ++ (Action.finished as).map SequenceState.request) c.2) ?_ ?_
  · obtain ⟨A', -, N'⟩ := hend fun err h => by cases h
    rw [hqs, hdone done rfl] at N'
    exact ⟨A'.same rfl rfl rfl, N'⟩
  · exact fun _ => ⟨A, fun _ => hA, by simpa [Action.finished] using N⟩
  · rintro as ⟨p, x⟩ a ⟨p', x'⟩ - hi hm hg
    obtain ⟨A, hA, N⟩ := hi fun err => hm.not_ended _
    refine ⟨A.micro hA hm hg, ?_, ?_⟩
    · rintro rfl
      cases hm
    · rw [Action.finished_append, List.map_append, ← List.append_assoc]
      exact N.micro A hm

/-! ### Runs -/

theorem Apart.submit (A : Apart acc .idle e) {req : ScheduledRequest} (hst : req.status = .PENDING) :
    Apart (acc ++ e.scheduler.queued (e.submitRequest req).1) .idle (e.submitRequest req).2 := by
  have D := RequestScheduler.submitNew_added e.scheduler req
  change Apart (acc ++ e.scheduler.queued (e.scheduler.submitNew req).1) _ _
  set new := e.scheduler.queued (e.scheduler.submitNew req).1 with hnew
  have hnext : ∀ r ∈ new, r = e.scheduler.requests.next := fun r hr =>
    RequestScheduler.eq_of_mem_queued hr
  have hlt : ∀ r ∈ e.scheduler.pending, r < e.scheduler.requests.next := fun r hr =>
    A.lt_next r (A.pending r hr)
  have hnd : new.Nodup := by
    rw [hnew, RequestScheduler.queued]
    split <;> simp
  constructor
  · intro r hr
    refine (Nat.lt_succ_of_le ?_).trans_eq D.next.symm
    rcases List.mem_append.mp hr with hr | hr
    · exact (A.lt_next r hr).le
    · exact (hnext r hr).le
  · refine ⟨?_, fun r hr => ?_⟩
    · change (e.scheduler.submitNew req).2.pending.Nodup
      rw [D.pending]
      refine A.waits.nodup.append hnd fun r hr hr' => ?_
      exact absurd (hlt r hr) ((hnext r hr').symm ▸ Nat.lt_irrefl _)
    · change r ∈ (e.scheduler.submitNew req).2.pending at hr
      rw [D.pending] at hr
      rcases List.mem_append.mp hr with hr | hr
      · exact (D.statusOf_old (hlt r hr)).trans (A.waits.status r hr)
      · exact hnext r hr ▸ D.statusOf_next.trans hst
  · intro r hr
    change r ∈ (e.scheduler.submitNew req).2.pending at hr
    rw [D.pending] at hr
    exact List.mem_append.mpr ((List.mem_append.mp hr).imp (A.pending r) id)
  · exact List.nodup_nil
  · exact fun r hr => absurd hr List.not_mem_nil
  · intro k q hq
    obtain ⟨hacc, hid, hrunning, hrun⟩ := A.active k q hq
    have hlt := A.lt_next _ hacc
    refine ⟨List.mem_append_left _ hacc, (D.idOf_old hlt).trans hid,
      (D.statusOf_old hlt).trans hrunning, ?_⟩
    change (e.scheduler.submitNew req).2.running.get? k = _
    rw [D.rest.1]
    exact hrun
  · intro r hr
    change _ ∨ r ∈ (e.scheduler.submitNew req).2.pending ∨ _
    rw [D.pending]
    rcases List.mem_append.mp hr with hr | hr
    · have hsame : (e.submitRequest req).2.scheduler.statusOf r = e.scheduler.statusOf r :=
        D.statusOf_old (A.lt_next r hr)
      rw [hsame]
      exact (A.located r hr).imp id (Or.imp (List.mem_append_left _) id)
    · exact Or.inr (Or.inl (List.mem_append_right _ hr))

theorem Once.submit (N : Once acc rs e) (A : Apart acc .idle e) (req : ScheduledRequest) :
    Once (acc ++ e.scheduler.queued (e.submitRequest req).1) rs (e.submitRequest req).2 := by
  have D := RequestScheduler.submitNew_added e.scheduler req
  refine ⟨N.nodup, fun r hr => ?_⟩
  obtain ⟨hacc, hst⟩ := N.completed r hr
  exact ⟨List.mem_append_left _ hacc, (D.statusOf_old (A.lt_next r hacc)).trans hst⟩

variable {maxBatchSize maxQueueSize : ℤ} {defaultTimeout : ℚ} {policy : SchedulingPolicy}
  {numBlocks blockSize : ℕ} {evs : List Event}

/-- A call by callers who may use an id again; a step keeps requests of one id apart. -/
def Spaced (env : Env) (e : Engine) (ev : Event) (e' : Engine) : Prop :=
  Call env e ev e' ∧ ∀ res, ev = .step res → ApartNext env e

theorem spaced_submit (env : Env) (e : Engine) {req : ScheduledRequest} (h : req.status = .PENDING) :
    Spaced env e (.submitRequest e.scheduler.requests.next req (e.submitRequest req).1)
      (e.submitRequest req).2 := ⟨⟨h, rfl, rfl⟩, fun _ h => by cases h⟩

theorem spaced_step (h : ApartNext env e) : Spaced env e (.step (e.step env).1) (e.step env).2 :=
  ⟨rfl, fun _ _ => h⟩

/-- Submissions, and steps at which nothing outside raises. -/
def Unraised : Event → Prop
  | .submitRequest _ _ _ => True
  | .cancelRequest _ _ => False
  | .step res => ∀ err, res = .error err → ¬ External err

theorem apart_of_run (hbs : 0 < blockSize) (hrun : Trace.Run (Spaced env)
      (new maxBatchSize maxQueueSize defaultTimeout policy numBlocks blockSize) evs e)
    (hcalm : ∀ ev ∈ evs, Unraised ev) :
    Apart (accepted evs) .idle e ∧
      Once (accepted evs) ((returned evs).map SequenceState.request) e := by
  refine (hrun.restrict hcalm).invariant (I := fun evs e => Apart (accepted evs) .idle e ∧
    Once (accepted evs) ((returned evs).map SequenceState.request) e) ?_ ?_
  · refine ⟨⟨fun _ h => absurd h List.not_mem_nil, ⟨List.nodup_nil, fun _ h => absurd h List.not_mem_nil⟩,
      fun _ h => absurd h List.not_mem_nil, List.nodup_nil, fun _ h => absurd h List.not_mem_nil,
      fun _ _ h => (nomatch h), fun _ h => absurd h List.not_mem_nil⟩, List.nodup_nil,
      fun _ h => absurd h List.not_mem_nil⟩
  · rintro evs e ev e' hr ⟨A, N⟩ ⟨⟨hst, hA⟩, hev⟩
    rw [accepted_append, returned_append, List.map_append]
    cases ev with
    | submitRequest r req b =>
      obtain ⟨hpend, rfl, heq⟩ := hst
      obtain ⟨rfl, rfl⟩ := Prod.mk.inj heq
      rw [accepted_submitRequest]
      have hnone : ∀ b, returned [.submitRequest e.scheduler.requests.next req b] = [] := fun _ => rfl
      rw [hnone, List.map_nil, List.append_nil]
      exact ⟨A.submit hpend, N.submit A req⟩
    | cancelRequest k b => exact absurd hev id
    | step res =>
      obtain ⟨O, K, -⟩ := consistent_of_calls hbs (hr.mono fun _ _ _ h => h.1.1)
      rcases res with err | done
      · exact absurd (external_of_step O K hst) (hev err rfl)
      · simpa [returned, accepted] using A.step N (hA _ rfl) hst

/-- CORRECT: after any submissions and steps, with any ids, in which nothing outside raises and no
    selection brings requests of one id together, no request has been returned twice, and when the
    engine is idle every accepted request has ended. -/
theorem ends_once (hbs : 0 < blockSize) (hrun : Trace.Run (Spaced env)
      (new maxBatchSize maxQueueSize defaultTimeout policy numBlocks blockSize) evs e)
    (hcalm : ∀ ev ∈ evs, Unraised ev) :
    ((returned evs).map SequenceState.request).Nodup ∧
    (e.scheduler.pendingCount = 0 → e.batchSize = 0 →
      ∀ r ∈ accepted evs, (e.scheduler.statusOf r).terminal = true) := by
  obtain ⟨A, N⟩ := apart_of_run hbs hrun hcalm
  refine ⟨N.nodup, fun hpend hbatch r hr => ?_⟩
  rcases A.located r hr with hend | hp | ht | ⟨k, q, hq, -⟩
  · exact hend
  · rw [List.length_eq_zero_iff.mp hpend] at hp
    cases hp
  · cases ht
  · have hk := OrderedDict.mem_keys_of_get? hq
    rw [batchSize_eq_zero_iff.mp hbatch] at hk
    cases hk

/-- One seat: two requests of one id run one after the other. -/
theorem ends_once_in_turn :
    let env := Env.rowwise fun _ => [.negInf, .fin 0]
    let req : ScheduledRequest :=
      { requestId := "a", prompt := "p", maxTokens := 1, temperature := 0, createdAt := 0 }
    let e₀ := (((new 1 8 60 .fcfs 4 2).submitRequest req).2.submitRequest req).2
    let e := ((e₀.step env).2.step env).2
    (e.scheduler.statusOf 0).terminal = true ∧ (e.scheduler.statusOf 1).terminal = true := by
  intro env req e₀ e
  have hapart : ∀ x : Engine, x.maxBatchSize = 1 → x.batchSize = 0 →
      ((x.scheduler.getNextBatch env.clock 1).1.map x.scheduler.idOf).Nodup →
      x.activeSequences.keys = [] → ApartNext env x := by
    intro x hmax hsize hnd hkeys n hslots hn
    obtain rfl : n = 1 := by omega
    exact ⟨hnd, fun r _ => hkeys ▸ List.not_mem_nil⟩
  have h₁ := spaced_step (hapart e₀ (by decide +kernel) (by decide +kernel) (by decide +kernel)
    (by decide +kernel))
  have h₂ := spaced_step (hapart (e₀.step env).2 (by decide +kernel) (by decide +kernel)
    (by decide +kernel) (by decide +kernel))
  have hrun := (((Trace.Run.nil.snoc (spaced_submit env (new 1 8 60 .fcfs 4 2) rfl)).snoc
    (spaced_submit env _ rfl)).snoc h₁).snoc h₂
  have hok₁ : (e₀.step env).1.isOk = true := by decide +kernel
  have hok₂ : ((e₀.step env).2.step env).1.isOk = true := by decide +kernel
  have h := ends_once (by decide) hrun ?_
  · have hidle : e.scheduler.pendingCount = 0 ∧ e.batchSize = 0 := by decide +kernel
    exact ⟨h.2 hidle.1 hidle.2 0 (by decide), h.2 hidle.1 hidle.2 1 (by decide)⟩
  · simp only [List.nil_append, List.cons_append, List.mem_cons, List.not_mem_nil, or_false]
    rintro _ (rfl | rfl | rfl | rfl)
    · trivial
    · trivial
    · rintro err herr
      rw [herr] at hok₁
      cases hok₁
    · rintro err herr
      rw [herr] at hok₂
      cases hok₂

/-- Two seats: both requests are selected under one id, and the first one never ends. -/
theorem not_ends_once :
    let env := Env.rowwise fun _ => [.negInf, .fin 0]
    let req : ScheduledRequest :=
      { requestId := "a", prompt := "p", maxTokens := 1, temperature := 0, createdAt := 0 }
    let e₀ := (((new 2 8 60 .fcfs 4 2).submitRequest req).2.submitRequest req).2
    let e := (e₀.step env).2
    let q : SequenceState :=
      { request := 1, inputIds := [112, 1], generatedIds := [1], isFinished := true,
        finishReason := "length" }
    Trace.Run (Call env) (new 2 8 60 .fcfs 4 2)
      [.submitRequest 0 req true, .submitRequest 1 req true, .step (.ok [q])] e ∧
    e.scheduler.pendingCount = 0 ∧ e.batchSize = 0 ∧ e.scheduler.statusOf 0 = .RUNNING := by
  intro env req e₀ e q
  have hok : (e₀.step env).1 = .ok [q] := by decide +kernel
  have hidle : e.scheduler.pendingCount = 0 ∧ e.batchSize = 0 ∧ e.scheduler.statusOf 0 = .RUNNING := by
    decide +kernel
  exact ⟨.snoc (.snoc (.snoc .nil ⟨rfl, rfl, rfl⟩) ⟨rfl, rfl, rfl⟩) (Prod.ext hok rfl), hidle⟩

end Engine

end ModelServing
