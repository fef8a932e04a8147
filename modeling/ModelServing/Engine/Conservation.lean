import ModelServing.Engine.Selection

/-! The scheduler loses and duplicates nothing. The remaining transitions (submission, completion,
    cancellation) are added to the selection of a batch, and a run of all four keeps the ledger, the
    statistics and the bound on the queue. -/

namespace ModelServing

namespace RequestScheduler

variable {acc : List Ref} {s s' : RequestScheduler} {r : Ref} {clock : ℕ → ℚ}

/-! ### Submission -/

theorem submitNew_cases (s : RequestScheduler) (req : ScheduledRequest) :
    (s.maxQueueSize ≤ s.pendingCount ∧
      s.submitNew req = (false, { s with requests := s.requests.alloc req })) ∨
    (s.pendingCount < s.maxQueueSize ∧ ∃ t : ScheduledRequest → ℚ, s.submitNew req = (true, { s with
      requests := (s.requests.alloc req).modify s.requests.next fun q => { q with timeoutSeconds := t q }
      pending := s.pending ++ [s.requests.next]
      totalSubmitted := s.totalSubmitted + 1 })) := by
  by_cases h : s.queueFull = true
  · exact Or.inl ⟨by simpa [queueFull] using h, if_pos h⟩
  · exact Or.inr ⟨by simpa [queueFull] using h,
      fun q => if q.timeoutSeconds ≠ 0 then q.timeoutSeconds else s.defaultTimeout, if_neg h⟩

/-- After a submission: a new object, the request up to its timeout, which is queued if `new` says
    so; everything else as before. -/
structure Added (s : RequestScheduler) (req : ScheduledRequest) (new : List Ref)
    (s' : RequestScheduler) : Prop where
  next : s'.requests.next = s.requests.next + 1
  old : ∀ x < s.requests.next, s'.request x = s.request x
  request : ∃ t, s'.request s.requests.next = { req with timeoutSeconds := t }
  pending : s'.pending = s.pending ++ new
  totalSubmitted : s'.totalSubmitted = s.totalSubmitted + new.length
  rest : s'.running = s.running ∧ s'.completed = s.completed ∧
    s'.totalCompleted = s.totalCompleted ∧ s'.totalCancelled = s.totalCancelled ∧
    s'.totalTimedOut = s.totalTimedOut ∧ s'.maxQueueSize = s.maxQueueSize

/-- What a submission queues. -/
def queued (s : RequestScheduler) (accepted : Bool) : List Ref :=
  if accepted then [s.requests.next] else []

theorem eq_of_mem_queued {b : Bool} (h : r ∈ s.queued b) : r = s.requests.next := by
  cases b
  · exact absurd h List.not_mem_nil
  · exact List.mem_singleton.mp h

theorem submitNew_added (s : RequestScheduler) (req : ScheduledRequest) :
    Added s req (s.queued (s.submitNew req).1) (s.submitNew req).2 := by
  rcases submitNew_cases s req with ⟨_, heq⟩ | ⟨_, t, heq⟩
  · rw [heq]
    exact ⟨rfl, fun x hx => ObjectHeap.get_alloc_of_lt _ _ hx,
      ⟨req.timeoutSeconds, ObjectHeap.get_alloc_self _ _⟩, (List.append_nil _).symm, rfl,
      rfl, rfl, rfl, rfl, rfl, rfl⟩
  · rw [heq]
    refine ⟨rfl, fun x hx => ?_, ⟨t req, ?_⟩, rfl, rfl, rfl, rfl, rfl, rfl, rfl, rfl⟩
    · simp only [RequestScheduler.request]
      rw [ObjectHeap.get_modify_of_ne _ _ (Nat.ne_of_lt hx), ObjectHeap.get_alloc_of_lt _ _ hx]
    · simp only [RequestScheduler.request]
      rw [ObjectHeap.get_modify_self, ObjectHeap.get_alloc_self]

namespace Added

variable {req : ScheduledRequest} {new : List Ref}

theorem idOf_old (A : Added s req new s') {x : Ref} (hx : x < s.requests.next) :
    s'.idOf x = s.idOf x := congrArg ScheduledRequest.requestId (A.old x hx)

theorem statusOf_old (A : Added s req new s') {x : Ref} (hx : x < s.requests.next) :
    s'.statusOf x = s.statusOf x := congrArg ScheduledRequest.status (A.old x hx)

theorem idOf_next (A : Added s req new s') : s'.idOf s.requests.next = req.requestId := by
  obtain ⟨t, ht⟩ := A.request
  rw [idOf, ht]

theorem statusOf_next (A : Added s req new s') : s'.statusOf s.requests.next = req.status := by
  obtain ⟨t, ht⟩ := A.request
  rw [statusOf, ht]

/-- Two objects with one id are one object, also with the new one. -/
theorem ids_inj (A : Added s req new s') (hf : Fresh s req)
    (hinj : ∀ r r', r < s.requests.next → r' < s.requests.next → s.idOf r = s.idOf r' → r = r')
    (r r' : Ref) (hr : r < s'.requests.next) (hr' : r' < s'.requests.next)
    (h : s'.idOf r = s'.idOf r') : r = r' := by
  rw [A.next] at hr hr'
  rcases Nat.lt_succ_iff_lt_or_eq.mp hr with hr | rfl <;>
    rcases Nat.lt_succ_iff_lt_or_eq.mp hr' with hr' | rfl
  · rw [A.idOf_old hr, A.idOf_old hr'] at h
    exact hinj r r' hr hr' h
  · rw [A.idOf_old hr, A.idOf_next] at h
    exact absurd h (hf.id r hr)
  · rw [A.idOf_old hr', A.idOf_next] at h
    exact absurd h.symm (hf.id r' hr')
  · rfl

end Added

theorem Ledger.added (L : Ledger acc s) {req : ScheduledRequest} (hf : Fresh s req) {b : Bool}
    (A : Added s req (s.queued b) s') : Ledger (acc ++ s.queued b) s' := by
  obtain ⟨hrun, hcomp, -⟩ := A.rest
  have hnew : ∀ x ∈ s.queued b, x = s.requests.next := by
    intro x hx
    cases b with
    | false => exact absurd hx List.not_mem_nil
    | true => exact List.mem_singleton.mp hx
  constructor
  · intro x hx
    rw [A.next]
    rcases List.mem_append.mp hx with hx | hx
    · exact Nat.lt_succ_of_lt (L.lt_next x hx)
    · exact hnew x hx ▸ Nat.lt_succ_self _
  · exact A.ids_inj hf L.ids_inj
  · rw [A.pending]
    refine L.pending_nodup.append ?_ fun x hx hx' => ?_
    · cases b with
      | false => exact List.nodup_nil
      | true => exact List.nodup_singleton _
    · exact Nat.lt_irrefl _ (hnew x hx' ▸ L.lt_next x (L.pending x hx).1)
  · intro x hx
    rw [A.pending] at hx
    rcases List.mem_append.mp hx with hx | hx
    · obtain ⟨hacc, hst⟩ := L.pending x hx
      exact ⟨List.mem_append_left _ hacc, (A.statusOf_old (L.lt_next x hacc)).trans hst⟩
    · refine ⟨List.mem_append_right _ hx, ?_⟩
      rw [hnew x hx, A.statusOf_next, hf.status]
  · intro k x hx
    obtain ⟨hacc, hid, hst⟩ := L.running k x (hrun ▸ hx)
    have hlt := L.lt_next x hacc
    rw [A.idOf_old hlt, A.statusOf_old hlt]
    exact ⟨List.mem_append_left _ hacc, hid, hst⟩
  · intro k x hx
    obtain ⟨hacc, hid, hst⟩ := L.completed k x (hcomp ▸ hx)
    have hlt := L.lt_next x hacc
    rw [A.idOf_old hlt, A.statusOf_old hlt]
    exact ⟨List.mem_append_left _ hacc, hid, hst⟩
  · rw [hrun, hcomp]
    exact L.disjoint
  · intro x hx
    rw [A.pending, hrun, hcomp, List.mem_append]
    rcases List.mem_append.mp hx with hx | hx
    · rw [A.idOf_old (L.lt_next x hx)]
      exact (L.located x hx).imp Or.inl id
    · exact Or.inl (Or.inr hx)

theorem Counted.added (C : Counted s) {req : ScheduledRequest} {new : List Ref}
    (A : Added s req new s') : Counted s' := by
  obtain ⟨hrun, hcomp, h1, h2, h3, -⟩ := A.rest
  have hsub := C.submitted
  refine ⟨?_, by rw [hcomp, h1, h2, h3, C.done]⟩
  simp only [pendingCount, runningCount, A.pending, A.totalSubmitted, hrun, h1, h2, h3,
    List.length_append] at hsub ⊢
  omega

/-! ### Completion and cancellation -/

/-- A move out of the running dictionary that raises the counter it belongs to. -/
theorem Counted.moved_running (C : Counted s) (L : Ledger acc s) {k : String}
    (hr : s.running.get? k = some r) (hpend : s'.pending = s.pending)
    (hrun : s'.running = s.running.erase k) (hcomp : s'.completed = s.completed.insert k r)
    (hsub : s'.totalSubmitted = s.totalSubmitted)
    (hsum : s'.totalCompleted + s'.totalCancelled + s'.totalTimedOut =
      s.totalCompleted + s.totalCancelled + s.totalTimedOut + 1) : Counted s' := by
  have hsize := OrderedDict.size_erase_of_get? hr
  have hins := OrderedDict.size_insert_of_not_mem (v := r) (L.not_completed_of_running hr)
  obtain ⟨h1, h2⟩ := C
  constructor
  · simp only [pendingCount, runningCount, hpend, hrun, hsub] at h1 ⊢
    omega
  · rw [hcomp, hins]
    omega

/-- Completing an id that is not running changes nothing. Otherwise the running request moves, with
    its output set. -/
theorem Ledger.completeRequest_cases (L : Ledger acc s) (C : Counted s) (clock : ℕ → ℚ)
    (k text : String) (n : ℕ) :
    (s.running.get? k = none ∧ s.completeRequest clock k text n = s) ∨
    (∃ r, s.running.get? k = some r ∧ Moved .completed r s (s.completeRequest clock k text n) ∧
      Counted (s.completeRequest clock k text n) ∧
      (s.completeRequest clock k text n).request r =
        (s.request r).complete text n (clock s.ticks) ∧
      (∀ x, x ≠ r → (s.completeRequest clock k text n).request x = s.request x) ∧
      (s.completeRequest clock k text n).totalCompleted = s.totalCompleted + 1 ∧
      (s.completeRequest clock k text n).settings = s.settings) := by
  cases hr : s.running.get? k with
  | none => exact Or.inl ⟨rfl, by simp only [completeRequest, hr]⟩
  | some r =>
    have M := L.moved_completeRequest clock hr text n
    have heq : s.completeRequest clock k text n =
        { s.call clock r (.complete text n) with
          running := s.running.erase k
          completed := s.completed.insert k r
          totalCompleted := s.totalCompleted + 1 } := by
      simp only [completeRequest, hr]
      rfl
    refine Or.inr ⟨r, rfl, M, ?_, ?_, ?_, ?_, ?_⟩
    · refine C.moved_running L hr ?_ ?_ ?_ ?_ ?_ <;> rw [heq]
      all_goals simp only [call]
      omega
    · rw [heq]; exact request_call_self clock (.complete text n) s r
    · intro x hx
      rw [heq]; exact request_call_of_ne clock (.complete text n) s hx
    · rw [heq]
    · rw [heq]; rfl

/-- Cancelling an id that is neither pending nor running changes nothing. Otherwise that request
    moves. -/
theorem Ledger.cancelRequest_cases (L : Ledger acc s) (C : Counted s) (clock : ℕ → ℚ) (k : String) :
    ((∀ r ∈ s.pending, s.idOf r ≠ k) ∧ s.running.get? k = none ∧
      s.cancelRequest clock k = (false, s)) ∨
    (∃ r, (r ∈ s.pending ∨ s.running.get? k = some r) ∧ s.idOf r = k ∧
      (s.cancelRequest clock k).1 = true ∧ Moved .completed r s (s.cancelRequest clock k).2 ∧
      Counted (s.cancelRequest clock k).2 ∧ (s.cancelRequest clock k).2.statusOf r = .CANCELLED ∧
      Touches (· = r) s (s.cancelRequest clock k).2) := by
  cases hfind : s.pending.find? fun r => (s.request r).requestId = k with
  | some r =>
    obtain ⟨M, hr, hid⟩ := L.moved_cancel_pending clock hfind
    have T := touches_call clock .cancel (fun _ hg => hg.cancel) s r
    have heq : s.cancelRequest clock k = (true, { s.call clock r .cancel with
        pending := s.pending.eraseP fun r => (s.request r).requestId = k
        completed := s.completed.insert k r
        totalCancelled := s.totalCancelled + 1 }) := by
      simp only [cancelRequest, hfind]
    refine Or.inr ⟨r, Or.inl hr, hid, by rw [heq], M, ?_, ?_, ?_⟩
    · refine C.moved_pending L hr M.pending ?_ ?_ ?_ ?_ <;> rw [heq]
      all_goals simp only [call, hid]
      omega
    · rw [heq]
      exact congrArg ScheduledRequest.status (request_call_self clock .cancel s r)
    · rw [heq]
      exact ⟨T.next, T.frame, T.stable, T.totalCompleted, T.settings⟩
  | none =>
    cases hr : s.running.get? k with
    | none =>
      refine Or.inl ⟨fun r hr hid => ?_, rfl, by simp only [cancelRequest, hfind, hr]⟩
      have := List.find?_eq_none.mp hfind r hr
      exact this (by simpa [idOf] using hid)
    | some r =>
      have M := L.moved_cancel_running clock hfind hr
      have T := touches_call clock .cancel (fun _ hg => hg.cancel) s r
      have heq : s.cancelRequest clock k = (true, { s.call clock r .cancel with
          running := s.running.erase k
          completed := s.completed.insert k r
          totalCancelled := s.totalCancelled + 1 }) := by
        simp only [cancelRequest, hfind, hr]
      refine Or.inr ⟨r, Or.inr rfl, (L.running k r hr).2.1, by rw [heq], M, ?_, ?_, ?_⟩
      · refine C.moved_running L hr ?_ ?_ ?_ ?_ ?_ <;> rw [heq]
        all_goals simp only [call]
        omega
      · rw [heq]
        exact congrArg ScheduledRequest.status (request_call_self clock .cancel s r)
      · rw [heq]
        exact ⟨T.next, T.frame, T.stable, T.totalCompleted, T.settings⟩

/-! ### Runs -/

/-- The calls of a run. A submission creates the object it submits; which one, and whether it was
    accepted, stands on the event. -/
inductive Event where
  | submit (r : Ref) (req : ScheduledRequest) (accepted : Bool)
  | getNextBatch (maxBatchSize : ℕ)
  | completeRequest (requestId outputText : String) (generatedTokens : ℕ)
  | cancelRequest (requestId : String)

def Step (clock : ℕ → ℚ) (s : RequestScheduler) : Event → RequestScheduler → Prop
  | .submit r req accepted, s' =>
    Fresh s req ∧ r = s.requests.next ∧ s.submitNew req = (accepted, s')
  | .getNextBatch n, s' => (s.getNextBatch clock n).2 = s'
  | .completeRequest k text n, s' => s.completeRequest clock k text n = s'
  | .cancelRequest k, s' => (s.cancelRequest clock k).2 = s'

/-- The accepted requests of a run, oldest first. -/
def accepted (evs : List Event) : List Ref :=
  evs.filterMap fun
    | .submit r _ true => some r
    | _ => none

theorem mem_accepted {evs : List Event} : r ∈ accepted evs ↔ ∃ req, .submit r req true ∈ evs := by
  simp only [accepted, List.mem_filterMap]
  constructor
  · rintro ⟨ev, hev, h⟩
    split at h
    · cases h; exact ⟨_, hev⟩
    · cases h
  · rintro ⟨req, h⟩
    exact ⟨_, h, rfl⟩

/-- In how many places of the containers a request stands. -/
def places (s : RequestScheduler) (r : Ref) : ℕ :=
  s.pending.count r + s.running.values.count r + s.completed.values.count r

/-- What every call but a submission keeps. -/
structure Kept (acc : List Ref) (s s' : RequestScheduler) : Prop where
  ledger : Ledger acc s'
  counted : Counted s'
  next : s'.requests.next = s.requests.next
  ids : ∀ x, s'.idOf x = s.idOf x
  pending_le : s'.pending.length ≤ s.pending.length
  maxQueueSize : s'.maxQueueSize = s.maxQueueSize
  unfailed : (∀ x ∈ acc, s.statusOf x ≠ .FAILED) → ∀ x ∈ acc, s'.statusOf x ≠ .FAILED

theorem Kept.refl (L : Ledger acc s) (C : Counted s) : Kept acc s s :=
  ⟨L, C, rfl, fun _ => rfl, Nat.le_refl _, rfl, id⟩

/-- A move is kept whatever counter it raises. -/
theorem Ledger.kept_of_moved (L : Ledger acc s) (hr : r ∈ acc) (M : Moved .completed r s s')
    (C : Counted s') (hmax : s'.maxQueueSize = s.maxQueueSize) : Kept acc s s' where
  ledger := L.move hr M
  counted := C
  next := M.next
  ids := M.ids
  pending_le := M.pending ▸ List.length_erase_le
  maxQueueSize := hmax
  unfailed := by
    intro h x hx hfail
    by_cases hxr : x = r
    · rcases M.status with hst | hst <;> (rw [← hxr, hfail] at hst; cases hst)
    · exact h x hx ((M.others x hxr).symm.trans hfail)

theorem Ledger.kept_getNextBatch (L : Ledger acc s) (C : Counted s) (clock : ℕ → ℚ) (n : ℕ) :
    Kept acc s (s.getNextBatch clock n).2 := by
  have S := getNextBatch_selected L C clock n
  refine ⟨S.ledger, S.counted, S.touches.next, S.touches.id_eq, ?_, S.touches.maxQueueSize, ?_⟩
  · exact (S.ledger.pending_nodup.subperm S.pending).length_le
  · intro h x hx hfail
    by_cases hp : x ∈ s.pending
    · rcases S.outcome x hp with hb | hp' | ht
      · have := (S.started x hb).2; rw [hfail] at this; cases this
      · have := (S.ledger.pending x hp').2; rw [hfail] at this; cases this
      · have := (S.expired x ht).2.1; rw [hfail] at this; cases this
    · exact h x hx ((S.touches.status hp).symm.trans hfail)

theorem Ledger.kept_completeRequest (L : Ledger acc s) (C : Counted s) (clock : ℕ → ℚ)
    (k text : String) (n : ℕ) : Kept acc s (s.completeRequest clock k text n) := by
  rcases L.completeRequest_cases C clock k text n with
    ⟨-, heq⟩ | ⟨r, hr, M, hC, -, -, -, hsettings⟩
  · rw [heq]; exact Kept.refl L C
  · exact L.kept_of_moved (L.running k r hr).1 M hC (congrArg Prod.fst hsettings)

theorem Ledger.kept_cancelRequest (L : Ledger acc s) (C : Counted s) (clock : ℕ → ℚ) (k : String) :
    Kept acc s (s.cancelRequest clock k).2 := by
  rcases L.cancelRequest_cases C clock k with
    ⟨-, -, heq⟩ | ⟨r, hr, -, -, M, hC, -, T⟩
  · rw [heq]; exact Kept.refl L C
  · have hacc : r ∈ acc := hr.elim (fun h => (L.pending r h).1) fun h => (L.running k r h).1
    exact L.kept_of_moved hacc M hC T.maxQueueSize

/-- What holds after the events `evs` of a scheduler for at most `maxQueueSize` requests. -/
structure Sound (maxQueueSize : ℤ) (evs : List Event) (s : RequestScheduler) : Prop where
  ledger : Ledger (accepted evs) s
  counted : Counted s
  unfailed : ∀ r ∈ accepted evs, s.statusOf r ≠ .FAILED
  known : ∀ r req b, Event.submit r req b ∈ evs → r < s.requests.next ∧ s.idOf r = req.requestId
  rejected : ∀ r req, Event.submit r req false ∈ evs → r ∉ accepted evs
  size : s.maxQueueSize = maxQueueSize
  bounded : (s.pendingCount : ℤ) ≤ max 0 maxQueueSize

variable {maxQueueSize : ℤ} {evs : List Event}

theorem Sound.kept (h : Sound maxQueueSize evs s) {ev : Event} (hacc : accepted [ev] = [])
    (hev : ∀ r req b, ev ≠ .submit r req b) (K : Kept (accepted evs) s s') :
    Sound maxQueueSize (evs ++ [ev]) s' := by
  have heq : accepted (evs ++ [ev]) = accepted evs := by
    rw [accepted, List.filterMap_append]
    exact (congrArg _ hacc).trans (List.append_nil _)
  have hmem : ∀ r req b, Event.submit r req b ∈ evs ++ [ev] → Event.submit r req b ∈ evs := by
    intro r req b hr
    exact (List.mem_append.mp hr).resolve_right fun he => hev r req b (List.mem_singleton.mp he).symm
  refine ⟨heq ▸ K.ledger, K.counted, heq ▸ K.unfailed h.unfailed, fun r req b hr => ?_,
    fun r req hr => heq ▸ h.rejected r req (hmem r req false hr), K.maxQueueSize.trans h.size, ?_⟩
  · rw [K.next, K.ids]
    exact h.known r req b (hmem r req b hr)
  · have hle := K.pending_le
    have hb := h.bounded
    simp only [pendingCount] at hb ⊢
    omega

theorem Sound.submit (h : Sound maxQueueSize evs s) {req : ScheduledRequest} (hf : Fresh s req) :
    Sound maxQueueSize (evs ++ [.submit s.requests.next req (s.submitNew req).1])
      (s.submitNew req).2 := by
  have A := submitNew_added s req
  have L := h.ledger.added hf A
  have hpend := submitNew_cases s req
  set b := (s.submitNew req).1 with hb
  set s' := (s.submitNew req).2
  have heq : accepted (evs ++ [.submit s.requests.next req b]) = accepted evs ++ s.queued b := by
    rw [accepted, List.filterMap_append]
    cases b <;> rfl
  have hlt : ∀ r ∈ accepted evs, r < s.requests.next := h.ledger.lt_next
  refine ⟨heq ▸ L, h.counted.added A, ?_, ?_, ?_, A.rest.2.2.2.2.2.trans h.size, ?_⟩
  · intro r hr hfail
    rw [heq] at hr
    rcases List.mem_append.mp hr with hr | hr
    · exact h.unfailed r hr ((A.statusOf_old (hlt r hr)).symm.trans hfail)
    · have := (L.pending r (A.pending ▸ List.mem_append_right _ hr)).2
      rw [hfail] at this; cases this
  · intro r req' b' hr
    rw [A.next]
    rcases List.mem_append.mp hr with hr | hr
    · obtain ⟨hr, hid⟩ := h.known r req' b' hr
      exact ⟨Nat.lt_succ_of_lt hr, (A.idOf_old hr).trans hid⟩
    · obtain ⟨rfl, rfl, -⟩ := Event.submit.inj (List.mem_singleton.mp hr)
      exact ⟨Nat.lt_succ_self _, A.idOf_next⟩
  · intro r req' hr hacc
    rw [heq] at hacc
    rcases List.mem_append.mp hr with hr | hr <;> rcases List.mem_append.mp hacc with hacc | hacc
    · exact h.rejected r req' hr hacc
    · have hlt' := (h.known r req' false hr).1
      cases hb' : b with
      | false => rw [hb'] at hacc; exact absurd hacc List.not_mem_nil
      | true =>
        rw [hb'] at hacc
        exact absurd (List.mem_singleton.mp hacc) (Nat.ne_of_lt hlt')
    · obtain ⟨rfl, -, -⟩ := Event.submit.inj (List.mem_singleton.mp hr)
      exact Nat.lt_irrefl _ (hlt _ hacc)
    · obtain ⟨-, -, hfalse⟩ := Event.submit.inj (List.mem_singleton.mp hr)
      rw [← hfalse] at hacc
      exact absurd hacc List.not_mem_nil
  · have hold := h.bounded
    rw [pendingCount, A.pending, List.length_append]
    rcases hpend with ⟨_, heq'⟩ | ⟨hlt', t, heq'⟩
    · have hb' : b = false := by rw [hb, heq']
      rw [hb']
      simpa [queued, pendingCount] using hold
    · rw [h.size] at hlt'
      have : (s.queued b).length ≤ 1 := by cases b <;> simp [queued]
      simp only [pendingCount] at hlt'
      omega

theorem new_ledger (maxQueueSize : ℤ) (defaultTimeout : ℚ) (policy : SchedulingPolicy) :
    Ledger [] (new maxQueueSize defaultTimeout policy) where
  lt_next := fun _ h => absurd h List.not_mem_nil
  ids_inj := fun r _ h => absurd h (Nat.not_lt_zero r)
  pending_nodup := List.nodup_nil
  pending := fun _ h => absurd h List.not_mem_nil
  running := fun _ _ h => nomatch h
  completed := fun _ _ h => nomatch h
  disjoint := fun _ h => absurd h List.not_mem_nil
  located := fun _ h => absurd h List.not_mem_nil

theorem sound_of_run {defaultTimeout : ℚ} {policy : SchedulingPolicy}
    (hrun : Trace.Run (Step clock) (new maxQueueSize defaultTimeout policy) evs s) :
    Sound maxQueueSize evs s := by
  refine hrun.invariant (I := fun evs s => Sound maxQueueSize evs s) ?_ ?_
  · exact ⟨new_ledger .., ⟨rfl, rfl⟩, fun _ h => absurd h List.not_mem_nil,
      fun _ _ _ h => absurd h List.not_mem_nil, fun _ _ h => absurd h List.not_mem_nil, rfl,
      Int.le_max_left 0 maxQueueSize⟩
  · rintro evs s ev s' - h hst
    cases ev with
    | submit r req b =>
      obtain ⟨hf, rfl, heq⟩ := hst
      have := h.submit hf
      rwa [heq] at this
    | getNextBatch n =>
      obtain rfl := hst
      exact h.kept rfl (fun _ _ _ h => by cases h) (h.ledger.kept_getNextBatch h.counted clock n)
    | completeRequest k text n =>
      obtain rfl := hst
      exact h.kept rfl (fun _ _ _ h => by cases h)
        (h.ledger.kept_completeRequest h.counted clock k text n)
    | cancelRequest k =>
      obtain rfl := hst
      exact h.kept rfl (fun _ _ _ h => by cases h) (h.ledger.kept_cancelRequest h.counted clock k)

/-! ### One place each -/

/-- A dictionary keyed by the ids of its values holds each value once. -/
theorem count_values_le_one {d : OrderedDict String Ref}
    (hid : ∀ k r, d.get? k = some r → s.idOf r = k) (r : Ref) : d.values.count r ≤ 1 := by
  refine List.nodup_iff_count_le_one.mp ?_ r
  refine d.entries_nodup.map_on fun p hp q hq h => ?_
  have hp' := hid p.1 p.2 (OrderedDict.get?_eq_some_iff.mpr hp)
  have hq' := hid q.1 q.2 (OrderedDict.get?_eq_some_iff.mpr hq)
  exact Prod.ext (hp'.symm.trans ((congrArg s.idOf h).trans hq')) h

namespace Ledger

theorem places_eq_zero (L : Ledger acc s) (hr : r ∉ acc) : s.places r = 0 := by
  have h₁ : r ∉ s.pending := fun h => hr (L.pending r h).1
  have h₂ : r ∉ s.running.values := fun h => by
    obtain ⟨k, hk⟩ := OrderedDict.mem_values_iff.mp h
    exact hr (L.running k r hk).1
  have h₃ : r ∉ s.completed.values := fun h => by
    obtain ⟨k, hk⟩ := OrderedDict.mem_values_iff.mp h
    exact hr (L.completed k r hk).1
  rw [places, List.count_eq_zero.mpr h₁, List.count_eq_zero.mpr h₂, List.count_eq_zero.mpr h₃]

/-- The queue and the two dictionaries are disjoint. -/
theorem places_eq_one (L : Ledger acc s) (hr : r ∈ acc) : s.places r = 1 := by
  have hvalue : ∀ {d : OrderedDict String Ref}, (∀ k x, d.get? k = some x → s.idOf x = k) →
      (r ∈ d.values ↔ d.get? (s.idOf r) = some r) := fun hid =>
    ⟨fun h => by
      obtain ⟨k, hk⟩ := OrderedDict.mem_values_iff.mp h
      rwa [hid k r hk], fun h => OrderedDict.mem_values_iff.mpr ⟨_, h⟩⟩
  have hidr : ∀ k x, s.running.get? k = some x → s.idOf x = k := fun k x h => (L.running k x h).2.1
  have hidc : ∀ k x, s.completed.get? k = some x → s.idOf x = k := fun k x h =>
    (L.completed k x h).2.1
  have hp := List.nodup_iff_count_le_one.mp L.pending_nodup r
  have hrun := count_values_le_one hidr r
  have hcomp := count_values_le_one hidc r
  have hloc := L.located r hr
  rw [← hvalue hidr, ← hvalue hidc] at hloc
  have h₁ : r ∈ s.pending → r ∉ s.running.values := fun h hm =>
    L.not_running_of_pending h (OrderedDict.mem_keys_of_get? ((hvalue hidr).mp hm))
  have h₂ : r ∈ s.pending → r ∉ s.completed.values := fun h hm =>
    L.not_completed_of_pending h (OrderedDict.mem_keys_of_get? ((hvalue hidc).mp hm))
  have h₃ : r ∈ s.running.values → r ∉ s.completed.values := fun h hm =>
    L.not_completed_of_running ((hvalue hidr).mp h)
      (OrderedDict.mem_keys_of_get? ((hvalue hidc).mp hm))
  simp only [← List.count_pos_iff] at hloc h₁ h₂ h₃
  rw [places]
  omega

theorem find?_pending (L : Ledger acc s) (hr : r ∈ acc) :
    s.pending.find? (fun x => (s.request x).requestId = s.idOf r) =
      if r ∈ s.pending then some r else none := by
  have heq : ∀ x ∈ s.pending, (s.request x).requestId = s.idOf r → x = r := fun x hx h =>
    L.ids_inj x r (L.lt_next x (L.pending x hx).1) (L.lt_next r hr) h
  cases hfind : s.pending.find? fun x => (s.request x).requestId = s.idOf r with
  | none =>
    rw [if_neg fun hp => ?_]
    simpa [idOf] using List.find?_eq_none.mp hfind r hp
  | some x =>
    have hx := List.mem_of_find?_eq_some hfind
    obtain rfl := heq x hx (by simpa using List.find?_some hfind)
    rw [if_pos hx]

theorem getRequestStatus_eq (L : Ledger acc s) (hr : r ∈ acc) :
    s.getRequestStatus (s.idOf r) = some r := by
  rw [getRequestStatus, L.find?_pending hr]
  rcases L.located r hr with hp | hrun | hc
  · rw [if_pos hp]
  · have hnot : r ∉ s.pending := fun hp =>
      L.not_running_of_pending hp (OrderedDict.mem_keys_of_get? hrun)
    rw [if_neg hnot]
    simp only [hrun]
  · have hnot : r ∉ s.pending := fun hp =>
      L.not_completed_of_pending hp (OrderedDict.mem_keys_of_get? hc)
    rw [if_neg hnot]
    cases hrun : s.running.get? (s.idOf r) with
    | none => exact hc
    | some x => exact absurd (OrderedDict.mem_keys_of_get? hc) (L.not_completed_of_running hrun)

end Ledger

/-- CORRECT: after any run each accepted request stands in exactly one place and each rejected one in
    none, with the status of the place; the queue keeps to its bound, the statistics add up, and
    looking up the id of an accepted request finds that request. -/
theorem nothing_lost {defaultTimeout : ℚ} {policy : SchedulingPolicy}
    (hrun : Trace.Run (Step clock) (new maxQueueSize defaultTimeout policy) evs s) :
    (∀ r req, .submit r req true ∈ evs →
      s.places r = 1 ∧ s.getRequestStatus req.requestId = some r) ∧
    (∀ r req, .submit r req false ∈ evs → s.places r = 0) ∧
    (∀ r ∈ s.pending, s.statusOf r = .PENDING) ∧
    (∀ r ∈ s.running.values, s.statusOf r = .RUNNING) ∧
    (∀ r ∈ s.completed.values, s.statusOf r = .COMPLETED ∨ s.statusOf r = .CANCELLED) ∧
    (s.pendingCount : ℤ) ≤ max 0 maxQueueSize ∧
    s.totalSubmitted = s.pendingCount + s.runningCount + s.totalCompleted + s.totalCancelled +
      s.totalTimedOut ∧
    s.completed.size = s.totalCompleted + s.totalCancelled + s.totalTimedOut := by
  have h := sound_of_run hrun
  have L := h.ledger
  refine ⟨fun r req hr => ?_, fun r req hr => L.places_eq_zero (h.rejected r req hr),
    fun r hr => (L.pending r hr).2, fun r hr => ?_, fun r hr => ?_, h.bounded, h.counted.submitted,
    h.counted.done⟩
  · have hacc : r ∈ accepted evs := mem_accepted.mpr ⟨req, hr⟩
    have := L.getRequestStatus_eq hacc
    rw [(h.known r req true hr).2] at this
    exact ⟨L.places_eq_one hacc, this⟩
  · obtain ⟨k, hk⟩ := OrderedDict.mem_values_iff.mp hr
    obtain ⟨hacc, -, hst⟩ := L.running k r hk
    exact hst.resolve_right (h.unfailed r hacc)
  · obtain ⟨k, hk⟩ := OrderedDict.mem_values_iff.mp hr
    obtain ⟨hacc, -, hst⟩ := L.completed k r hk
    exact hst.imp id fun hc => hc.resolve_right (h.unfailed r hacc)

/-- A queue of one: the second request is rejected, the first one runs. -/
theorem nothing_lost_full_queue :
    let a : ScheduledRequest := { requestId := "a", prompt := "p", createdAt := 0 }
    let b : ScheduledRequest := { requestId := "b", prompt := "p", createdAt := 0 }
    let s := ((((new 1 60 .fcfs).submitNew a).2.submitNew b).2.getNextBatch (fun _ => 0) 1).2
    s.places 0 = 1 ∧ s.getRequestStatus "a" = some 0 ∧ s.places 1 = 0 := by
  intro a b s
  have hrun : Trace.Run (Step fun _ => 0) (new 1 60 .fcfs)
      [.submit 0 a true, .submit 1 b false, .getNextBatch 1] s := by
    refine .snoc (.snoc (.snoc .nil ⟨⟨rfl, ?_⟩, rfl, rfl⟩) ⟨⟨rfl, ?_⟩, rfl, rfl⟩) rfl
    · exact fun r hr => absurd hr (Nat.not_lt_zero r)
    · decide
  have h := nothing_lost hrun
  obtain ⟨h₁, h₂⟩ := h.1 0 a (by simp)
  exact ⟨h₁, h₂, h.2.1 1 b (by simp)⟩

end RequestScheduler

end ModelServing
