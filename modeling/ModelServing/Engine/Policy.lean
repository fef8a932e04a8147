import ModelServing.Engine.Conservation
import ModelServing.Lib.StableSort

/-! Which requests a selection takes. The pending requests within their timeout are ranked by the
    policy, ties by acceptance, and `get_next_batch` takes the first of that ranking. References are
    numbered as the requests come in, so the order of acceptance is the order of the references. -/

namespace ModelServing

open StableSort

theorem RequestPriority.value_inj {p p' : RequestPriority} : p.value = p'.value ↔ p = p' := by
  cases p <;> cases p' <;> simp [value]

theorem ScheduledRequest.keyLe_iff {a b : ScheduledRequest} :
    a.keyLe b ↔ a.priority.value < b.priority.value ∨
      (a.priority.value = b.priority.value ∧ a.createdAt ≤ b.createdAt) := by
  rw [keyLe, RequestPriority.value_inj]

theorem ScheduledRequest.keyLe_total (a b : ScheduledRequest) : a.keyLe b ∨ b.keyLe a := by
  simp only [keyLe_iff]
  rcases Nat.lt_trichotomy a.priority.value b.priority.value with h | h | h
  · exact Or.inl (Or.inl h)
  · exact (le_total a.createdAt b.createdAt).imp (fun h' => Or.inr ⟨h, h'⟩) fun h' => Or.inr ⟨h.symm, h'⟩
  · exact Or.inr (Or.inl h)

theorem ScheduledRequest.keyLe_trans {a b c : ScheduledRequest} (h : a.keyLe b) (h' : b.keyLe c) :
    a.keyLe c := by
  simp only [keyLe_iff] at h h' ⊢
  rcases h with h | ⟨h, ht⟩ <;> rcases h' with h' | ⟨h', ht'⟩
  · exact Or.inl (h.trans h')
  · exact Or.inl (h' ▸ h)
  · exact Or.inl (h ▸ h')
  · exact Or.inr ⟨h.trans h', ht.trans ht'⟩

namespace RequestScheduler

variable {acc : List Ref} {s s' : RequestScheduler} {r : Ref} {clock : ℕ → ℚ}

theorem Ledger.completed_of_cancelled (L : Ledger acc s) (hr : r ∈ acc)
    (h : s.statusOf r = .CANCELLED) : s.completed.get? (s.idOf r) = some r := by
  rcases L.located r hr with hp | hrun | hc
  · cases h.symm.trans (L.pending r hp).2
  · rcases (L.running _ r hrun).2.2 with h' | h' <;> cases h.symm.trans h'
  · exact hc

/-! ### The ranking -/

/-- What the policy orders by: nothing under `fcfs`, `(priority, created_at)` under `priority`. -/
def policyLe (s : RequestScheduler) (a b : Ref) : Prop :=
  s.schedulingPolicy = .priority → (s.request a).keyLe (s.request b)

instance (s : RequestScheduler) : DecidableRel s.policyLe :=
  fun _ _ => inferInstanceAs (Decidable (_ → _))

instance (s : RequestScheduler) : Std.Total s.policyLe where
  total a b := (ScheduledRequest.keyLe_total (s.request a) (s.request b)).imp
    (fun h _ => h) fun h _ => h

instance (s : RequestScheduler) : IsTrans Ref s.policyLe where
  trans _ _ _ h h' hp := ScheduledRequest.keyLe_trans (h hp) (h' hp)

/-- The pending requests within their timeout, in the order of the policy, ties in the order of
    acceptance. -/
def ranked (clock : ℕ → ℚ) (s : RequestScheduler) : List Ref :=
  (s.pending.filter fun r => decide (r ∉ s.timedOut clock)).insertionSort (Tiebreak s.policyLe (· ≤ ·))

/-- Requests tied under the policy are queued in the order of acceptance. -/
def InOrder (s : RequestScheduler) : Prop := TiesInOrder s.policyLe (· ≤ ·) s.pending

theorem policyLe_congr (hpolicy : s'.schedulingPolicy = s.schedulingPolicy) {a b : Ref}
    (ha : (s'.request a).keyLe (s'.request b) ↔ (s.request a).keyLe (s.request b)) :
    s'.policyLe a b ↔ s.policyLe a b := by
  rw [policyLe, policyLe, hpolicy, ha]

/-- Nothing assigns to what the sort key is made of. -/
theorem keyLe_congr (h : ∀ {β : Type} (g : ScheduledRequest → β), Stable g →
      ∀ x, g (s'.request x) = g (s.request x)) (a b : Ref) :
    (s'.request a).keyLe (s'.request b) ↔ (s.request a).keyLe (s.request b) := by
  have hprio := h ScheduledRequest.priority (by constructor <;> intros <;> rfl)
  have hcreated := h ScheduledRequest.createdAt (by constructor <;> intros <;> rfl)
  simp only [ScheduledRequest.keyLe, hprio, hcreated]

theorem Touches.policyLe {P : Ref → Prop} (T : Touches P s s') (a b : Ref) :
    s'.policyLe a b ↔ s.policyLe a b :=
  policyLe_congr (congrArg (fun x => x.2.2) T.settings) (keyLe_congr T.stable a b)

theorem InOrder.of_policyLe (h : InOrder s) (hle : ∀ a b, s'.policyLe a b ↔ s.policyLe a b)
    (hsub : s'.pending.Sublist s.pending) : InOrder s' := by
  refine (h.sublist hsub).imp fun hab => ?_
  rwa [hle, hle]

/-- Sorting ranks the queue. -/
theorem sortPending_ranked (hnd : s.pending.Nodup) (h : InOrder s) :
    s.sortPending.pending = s.pending.insertionSort (Tiebreak s.policyLe (· ≤ ·)) := by
  have hsort : s.sortPending.pending.Pairwise (Tiebreak s.policyLe (· ≤ ·)) := by
    unfold sortPending
    split
    · rename_i hp
      have : Std.Total fun a b => (s.request a).keyLe (s.request b) :=
        ⟨fun _ _ => ScheduledRequest.keyLe_total _ _⟩
      have : IsTrans Ref fun a b => (s.request a).keyLe (s.request b) :=
        ⟨fun _ _ _ => ScheduledRequest.keyLe_trans⟩
      have hties : TiesInOrder (fun a b => (s.request a).keyLe (s.request b)) (· ≤ ·) s.pending :=
        h.imp fun hab hle hge => hab (fun _ => hle) fun _ => hge
      exact (pairwise_tiebreak hnd hties).imp fun hab => ⟨fun _ => hab.1, fun hba => hab.2 (hba hp)⟩
    · rename_i hp
      have hle : ∀ a b, s.policyLe a b := fun a b hp' => by cases hp.symm.trans hp'
      exact h.imp fun hab => ⟨hle _ _, fun _ => hab (hle _ _) (hle _ _)⟩
  exact eq_insertionSort (sortPending_spec s).1 hsort

theorem enforceTimeouts_pending (L : Ledger acc s) (C : Counted s) (clock : ℕ → ℚ) :
    (s.enforceTimeouts clock).pending =
      s.pending.filter fun r => decide (r ∉ s.timedOut clock) := by
  have hsub := timedOut_sublist clock s
  have h := (foldl_expire clock (s.timedOut clock)
    { s with ticks := s.ticks + s.pending.length } (L.pending_nodup.sublist hsub)
    (fun _ hr => hsub.subset hr) (L.of_eq rfl (.refl _) rfl rfl) ⟨C.submitted, C.done⟩).2.2.1
  rw [enforceTimeouts, h, ← List.diff_eq_foldl, L.pending_nodup.sdiff_eq_filter]

/-- A selection takes the first of the ranking and leaves the rest of it queued. -/
theorem getNextBatch_ranked (L : Ledger acc s) (C : Counted s) (h : InOrder s) (clock : ℕ → ℚ)
    (n : ℕ) : (s.getNextBatch clock n).1 = (s.ranked clock).take n ∧
      (s.getNextBatch clock n).2.pending = (s.ranked clock).drop n := by
  obtain ⟨L₁, -, -, -, T₁⟩ := enforceTimeouts_spec L C clock
  have hpend := enforceTimeouts_pending L C clock
  obtain ⟨queue, hqueue, -, heq⟩ := getNextBatch_eq clock s n
  set s₁ := s.enforceTimeouts clock
  have h₁ : InOrder s₁ := h.of_policyLe T₁.policyLe (hpend ▸ List.filter_sublist)
  have hrank : s.ranked clock = s₁.pending.insertionSort (Tiebreak s₁.policyLe (· ≤ ·)) := by
    refine eq_insertionSort ?_ ?_
    · rw [ranked, ← hpend]
      exact List.perm_insertionSort _ _
    · refine (List.pairwise_insertionSort _ _).imp fun hab => ?_
      rwa [Tiebreak, T₁.policyLe, T₁.policyLe]
  rw [heq, hrank, ← sortPending_ranked L₁.pending_nodup h₁, ← hqueue]
  exact ⟨rfl, foldl_startRunning_pending _ _⟩

/-! ### Runs -/

/-- A call with the batch it returned and the requests it found past their timeout. -/
structure Shown where
  event : Event
  batch : List Ref := []
  timedOut : List Ref := []

def Shows (clock : ℕ → ℚ) (s : RequestScheduler) (o : Shown) (s' : RequestScheduler) : Prop :=
  Step clock s o.event s' ∧
  match o.event with
  | .getNextBatch n => o.batch = (s.getNextBatch clock n).1 ∧ o.timedOut = s.timedOut clock
  | _ => o.batch = [] ∧ o.timedOut = []

def calls (os : List Shown) : List Event := os.map Shown.event

/-- All batches of a run, one after another. -/
def started (os : List Shown) : List Ref := os.flatMap Shown.batch

def expired (os : List Shown) : List Ref := os.flatMap Shown.timedOut

/-- What holds after the calls `os`: the queue and the acceptances are in order, what has left the
    queue stays out of it, and under `fcfs` nothing overtakes. -/
structure Orderly (policy : SchedulingPolicy) (os : List Shown) (s : RequestScheduler) : Prop where
  setting : s.schedulingPolicy = policy
  ties : InOrder s
  increasing : (accepted (calls os)).Pairwise (· < ·)
  gone : ∀ r ∈ started os, r ∈ accepted (calls os) ∧ r ∉ s.pending
  cancelled : ∀ r ∈ expired os, r ∈ accepted (calls os) ∧ s.statusOf r = .CANCELLED ∧
    (s.request r).error = some "Request timed out in queue"
  once : (started os ++ expired os).Nodup
  inTurn : policy = .fcfs → (started os ++ s.pending).Sublist (accepted (calls os))

variable {os : List Shown} {o : Shown} {policy : SchedulingPolicy}

theorem calls_snoc : calls (os ++ [o]) = calls os ++ [o.event] := by simp [calls]
theorem started_snoc : started (os ++ [o]) = started os ++ o.batch := by simp [started]
theorem expired_snoc : expired (os ++ [o]) = expired os ++ o.timedOut := by simp [expired]

/-- Calls that only take requests out of the queue, and leave cancelled requests alone. -/
theorem Orderly.quiet (O : Orderly policy os s) (hle : ∀ a b, s'.policyLe a b ↔ s.policyLe a b)
    (hpolicy : s'.schedulingPolicy = s.schedulingPolicy)
    (hframe : ∀ r, s.statusOf r = .CANCELLED → s'.request r = s.request r)
    (hsub : s'.pending.Sublist s.pending)
    (hb : o.batch = []) (ht : o.timedOut = []) (hacc : accepted [o.event] = []) :
    Orderly policy (os ++ [o]) s' := by
  have heq : accepted (calls (os ++ [o])) = accepted (calls os) := by
    rw [calls_snoc, accepted, List.filterMap_append]
    exact (congrArg _ hacc).trans (List.append_nil _)
  have hst : started (os ++ [o]) = started os := by
    rw [started_snoc, hb, List.append_nil]
  have hex : expired (os ++ [o]) = expired os := by
    rw [expired_snoc, ht, List.append_nil]
  refine ⟨hpolicy.trans O.setting, O.ties.of_policyLe hle hsub, heq ▸ O.increasing, ?_, ?_,
    by rw [hst, hex]; exact O.once, ?_⟩
  · rw [hst, heq]
    exact fun r hr => ⟨(O.gone r hr).1, fun hp => (O.gone r hr).2 (hsub.subset hp)⟩
  · rw [hex, heq]
    intro r hr
    obtain ⟨hacc, hcan, herr⟩ := O.cancelled r hr
    rw [statusOf, hframe r hcan]
    exact ⟨hacc, hcan, herr⟩
  · intro hp
    rw [hst, heq]
    exact (List.Sublist.append_left hsub _).trans (O.inTurn hp)

theorem Orderly.submit (O : Orderly policy os s) (L : Ledger (accepted (calls os)) s)
    {req : ScheduledRequest} (ho : o.event = .submit s.requests.next req (s.submitNew req).1)
    (hb : o.batch = []) (ht : o.timedOut = []) : Orderly policy (os ++ [o]) (s.submitNew req).2 := by
  have A := submitNew_added s req
  have hpolicy : (s.submitNew req).2.schedulingPolicy = s.schedulingPolicy := by
    rcases submitNew_cases s req with ⟨-, heq⟩ | ⟨-, t, heq⟩ <;> rw [heq]
  set b := (s.submitNew req).1
  set s' := (s.submitNew req).2
  have heq : accepted (calls (os ++ [o])) =
      accepted (calls os) ++ s.queued b := by
    rw [calls_snoc, accepted, List.filterMap_append, ho]
    cases b <;> rfl
  have hst : started (os ++ [o]) = started os := by
    rw [started_snoc, hb, List.append_nil]
  have hex : expired (os ++ [o]) = expired os := by
    rw [expired_snoc, ht, List.append_nil]
  have hlt : ∀ r ∈ accepted (calls os), ∀ x ∈ s.queued b, r < x :=
    fun r hr x hx => eq_of_mem_queued hx ▸ L.lt_next r hr
  have hone : (s.queued b).Pairwise (· < ·) ∧
      TiesInOrder s'.policyLe (· ≤ ·) (s.queued b) := by
    cases b <;> simp [queued, TiesInOrder]
  refine ⟨hpolicy.trans O.setting, ?_, ?_, ?_, ?_, by rw [hst, hex]; exact O.once, fun hp => ?_⟩
  · rw [InOrder, A.pending]
    refine List.pairwise_append.mpr ⟨?_, hone.2, fun a ha x hx _ _ => ?_⟩
    · refine O.ties.imp_of_mem fun {a b} ha hb hab => ?_
      have hreq : ∀ x ∈ s.pending, s'.request x = s.request x := fun x hx =>
        A.old x (L.lt_next x (L.pending x hx).1)
      rwa [policyLe_congr hpolicy (by rw [hreq a ha, hreq b hb]),
        policyLe_congr hpolicy (by rw [hreq a ha, hreq b hb])]
    · exact (hlt a (L.pending a ha).1 x hx).le
  · rw [heq]
    exact List.pairwise_append.mpr ⟨O.increasing, hone.1, hlt⟩
  · rw [hst, heq, A.pending]
    intro r hr
    obtain ⟨hacc, hnot⟩ := O.gone r hr
    refine ⟨List.mem_append_left _ hacc, fun hp => ?_⟩
    rcases List.mem_append.mp hp with hp | hp
    · exact hnot hp
    · exact Nat.lt_irrefl r (hlt r hacc r hp)
  · rw [hex, heq]
    intro r hr
    obtain ⟨hacc, hcan, herr⟩ := O.cancelled r hr
    rw [A.statusOf_old (L.lt_next r hacc), A.old r (L.lt_next r hacc)]
    exact ⟨List.mem_append_left _ hacc, hcan, herr⟩
  · rw [hst, heq, A.pending, ← List.append_assoc]
    exact (O.inTurn hp).append (List.Sublist.refl _)

/-- Under `fcfs` the ranking is the queue itself. -/
theorem ranked_fcfs (h : InOrder s) (hp : s.schedulingPolicy = .fcfs) :
    s.ranked clock = s.pending.filter fun r => decide (r ∉ s.timedOut clock) := by
  have hle : ∀ a b, s.policyLe a b := fun a b hp' => by cases hp.symm.trans hp'
  exact List.Pairwise.insertionSort_eq ((h.sublist List.filter_sublist).imp fun hab =>
    ⟨hle _ _, fun _ => hab (hle _ _) (hle _ _)⟩)

theorem Orderly.select {n : ℕ} (O : Orderly policy os s) (L : Ledger (accepted (calls os)) s) (C : Counted s)
    (ho : o.event = .getNextBatch n) (hb : o.batch = (s.getNextBatch clock n).1)
    (ht : o.timedOut = s.timedOut clock) : Orderly policy (os ++ [o]) (s.getNextBatch clock n).2 := by
  have S := getNextBatch_selected L C clock n
  obtain ⟨hbatch, hpend⟩ := getNextBatch_ranked L C O.ties clock n
  rw [← hb] at S hbatch
  set s' := (s.getNextBatch clock n).2
  have heq : accepted (calls (os ++ [o])) = accepted (calls os) := by
    rw [calls_snoc, accepted, List.filterMap_append, ho]
    exact List.append_nil _
  have hwaiting : ∀ r ∈ expired os, r ∉ s.pending := by
    intro r hr hp
    have := (L.pending r hp).2
    rw [(O.cancelled r hr).2.1] at this
    cases this
  refine ⟨(congrArg (fun x => x.2.2) S.touches.settings).trans O.setting, ?_, heq ▸ O.increasing,
    ?_, ?_, ?_, fun hp => ?_⟩
  · rw [InOrder, hpend]
    refine ((List.pairwise_insertionSort _ _).sublist (List.drop_sublist n _)).imp fun hab => ?_
    rw [S.touches.policyLe, S.touches.policyLe]
    exact fun _ => hab.2
  · rw [started_snoc, heq]
    intro r hr
    rcases List.mem_append.mp hr with hr | hr
    · exact ⟨(O.gone r hr).1, fun hp => (O.gone r hr).2 (S.pending r hp)⟩
    · refine ⟨(L.pending r (S.started r hr).1).1, fun hp => ?_⟩
      have := (S.ledger.pending r hp).2
      rw [(S.started r hr).2] at this
      cases this
  · rw [expired_snoc, heq, ht]
    intro r hr
    rcases List.mem_append.mp hr with hr | hr
    · have hnot := hwaiting r hr
      rw [S.touches.status hnot, S.touches.frame r hnot]
      exact O.cancelled r hr
    · obtain ⟨hp, hcan, herr⟩ := S.expired r hr
      exact ⟨(L.pending r hp).1, hcan, herr⟩
  · rw [started_snoc, expired_snoc, ht]
    have hperm : (started os ++ o.batch ++ (expired os ++ s.timedOut clock)).Perm
        (started os ++ expired os ++ (o.batch ++ s.timedOut clock)) := by
      rw [List.append_assoc, List.append_assoc]
      refine List.Perm.append_left _ ?_
      rw [← List.append_assoc, ← List.append_assoc]
      exact List.Perm.append_right _ List.perm_append_comm
    refine hperm.nodup_iff.mpr (O.once.append (S.nodup.append
      (L.pending_nodup.sublist (timedOut_sublist clock s)) fun r hr hr' => ?_) fun r hr hr' => ?_)
    · have := (S.started r hr).2
      rw [(S.expired r hr').2.1] at this
      cases this
    · have hnew : r ∈ s.pending := (List.mem_append.mp hr').elim (fun h => (S.started r h).1)
        fun h => (S.expired r h).1
      exact (List.mem_append.mp hr).elim (fun h => (O.gone r h).2 hnew) fun h => hwaiting r h hnew
  · rw [started_snoc, heq, List.append_assoc, hbatch, hpend, List.take_append_drop,
      ranked_fcfs O.ties (O.setting.trans hp)]
    exact (List.Sublist.append_left List.filter_sublist _).trans (O.inTurn hp)

theorem Orderly.complete {k text : String} {n : ℕ} (O : Orderly policy os s)
    (L : Ledger (accepted (calls os)) s) (C : Counted s) (hacc : accepted [o.event] = [])
    (hb : o.batch = []) (ht : o.timedOut = []) :
    Orderly policy (os ++ [o]) (s.completeRequest clock k text n) := by
  rcases L.completeRequest_cases C clock k text n with
    ⟨-, heq⟩ | ⟨r, hrun, M, -, hreq, hothers, htot, hset⟩
  · rw [heq]
    exact O.quiet (fun _ _ => Iff.rfl) rfl (fun _ _ => rfl) (List.Sublist.refl _) hb ht hacc
  · have hpolicy : (s.completeRequest clock k text n).schedulingPolicy = s.schedulingPolicy :=
      congrArg (fun x => x.2.2) hset
    have hframe : ∀ {β : Type} (g : ScheduledRequest → β), Stable g → ∀ x,
        g ((s.completeRequest clock k text n).request x) = g (s.request x) := by
      intro β g hg x
      by_cases hx : x = r
      · rw [hx, hreq, hg.complete]
      · rw [hothers x hx]
    refine O.quiet (fun a b => policyLe_congr hpolicy (keyLe_congr hframe a b)) hpolicy
      (fun x hcan => hothers x ?_) (M.pending ▸ List.erase_sublist) hb ht hacc
    rintro rfl
    rcases (L.running k x hrun).2.2 with h | h <;> cases hcan.symm.trans h

theorem Orderly.cancel {k : String} (O : Orderly policy os s) (L : Ledger (accepted (calls os)) s)
    (C : Counted s) (hacc : accepted [o.event] = []) (hb : o.batch = []) (ht : o.timedOut = []) :
    Orderly policy (os ++ [o]) (s.cancelRequest clock k).2 := by
  rcases L.cancelRequest_cases C clock k with ⟨-, -, heq⟩ | ⟨r, hr, -, -, M, -, -, T⟩
  · rw [heq]
    exact O.quiet (fun _ _ => Iff.rfl) rfl (fun _ _ => rfl) (List.Sublist.refl _) hb ht hacc
  · refine O.quiet T.policyLe (congrArg (fun x => x.2.2) T.settings) (fun x hcan => T.frame x ?_)
      (M.pending ▸ List.erase_sublist) hb ht hacc
    rintro rfl
    rcases hr with hp | hrun
    · have := (L.pending x hp).2
      rw [hcan] at this
      cases this
    · rcases (L.running k x hrun).2.2 with h | h <;> cases hcan.symm.trans h

variable {maxQueueSize : ℤ} {defaultTimeout : ℚ}

theorem sound_of_shown (hrun : Trace.Run (Shows clock) (new maxQueueSize defaultTimeout policy) os s) :
    Sound maxQueueSize (calls os) s := sound_of_run (hrun.map Shown.event fun _ _ _ h => h.1)

theorem orderly_of_run
    (hrun : Trace.Run (Shows clock) (new maxQueueSize defaultTimeout policy) os s) :
    Orderly policy os s := by
  refine hrun.invariant (I := Orderly policy) ?_ ?_
  · exact ⟨rfl, List.Pairwise.nil, List.Pairwise.nil, fun _ h => absurd h List.not_mem_nil,
      fun _ h => absurd h List.not_mem_nil, List.nodup_nil, fun _ => List.Sublist.refl _⟩
  · rintro os s o s' hr O ⟨hst, hshow⟩
    have L := (sound_of_shown hr).ledger
    have C := (sound_of_shown hr).counted
    cases ho : o.event with
    | submit r req b =>
      rw [ho] at hst hshow
      obtain ⟨hf, rfl, heq⟩ := hst
      have h : Orderly policy (os ++ [o]) (s.submitNew req).2 :=
        O.submit L (by rw [ho, heq]) hshow.1 hshow.2
      rwa [heq] at h
    | getNextBatch n =>
      rw [ho] at hst hshow
      obtain rfl := hst
      exact O.select L C ho hshow.1 hshow.2
    | completeRequest k text n =>
      rw [ho] at hst hshow
      obtain rfl := hst
      exact O.complete L C (by rw [ho]; rfl) hshow.1 hshow.2
    | cancelRequest k =>
      rw [ho] at hst hshow
      obtain rfl := hst
      exact O.cancel L C (by rw [ho]; rfl) hshow.1 hshow.2

/-- CORRECT: after any run, a selection returns the first `n` of the requests within their timeout, in
    the order of the policy with ties in the order of acceptance, and leaves the rest of them queued;
    the others are done, cancelled with an error. Over the whole run each request is started at most
    once or cancelled at most once for its timeout, never both; under `fcfs` the batches follow the
    order of acceptance, and under `priority` nobody with a smaller key is left behind. -/
theorem selects_policy_least
    (hrun : Trace.Run (Shows clock) (new maxQueueSize defaultTimeout policy) os s) (n : ℕ) :
    let batch := (s.getNextBatch clock n).1
    let s' := (s.getNextBatch clock n).2
    (batch = (s.ranked clock).take n ∧ s'.pending = (s.ranked clock).drop n) ∧
    (∀ r ∈ s.timedOut clock, s'.completed.get? (s'.idOf r) = some r ∧
      s'.statusOf r = .CANCELLED ∧ (s'.request r).error = some "Request timed out in queue") ∧
    (policy = .priority →
      ∀ r ∈ batch, ∀ r' ∈ s'.pending, (s.request r).keyLe (s.request r')) ∧
    (started os ++ expired os).Nodup ∧
    (∀ r ∈ expired os, s.completed.get? (s.idOf r) = some r ∧ s.statusOf r = .CANCELLED) ∧
    (accepted (calls os)).Pairwise (· < ·) ∧
    (policy = .fcfs → (started os).Sublist (accepted (calls os))) := by
  intro batch s'
  have O := orderly_of_run hrun
  have L := (sound_of_shown hrun).ledger
  have S := getNextBatch_selected L (sound_of_shown hrun).counted clock n
  obtain ⟨hbatch, hpend⟩ := getNextBatch_ranked L (sound_of_shown hrun).counted O.ties clock n
  refine ⟨⟨hbatch, hpend⟩, fun r hr => ?_, fun hp r hr r' hr' => ?_, O.once, fun r hr => ?_,
    O.increasing, fun hp => (List.sublist_append_left _ _).trans (O.inTurn hp)⟩
  · obtain ⟨hp, hcan, herr⟩ := S.expired r hr
    exact ⟨S.ledger.completed_of_cancelled (L.pending r hp).1 hcan, hcan, herr⟩
  · have hsorted : ((s.ranked clock).take n ++ (s.ranked clock).drop n).Pairwise
        (Tiebreak s.policyLe (· ≤ ·)) := by
      rw [List.take_append_drop]
      exact List.pairwise_insertionSort _ _
    have h := (List.pairwise_append.mp hsorted).2.2 r (hbatch ▸ hr) r' (hpend ▸ hr')
    exact h.1 (O.setting.trans hp)
  · obtain ⟨hacc, hcan, -⟩ := O.cancelled r hr
    exact ⟨L.completed_of_cancelled hacc hcan, hcan⟩

/-- A request of high priority overtakes one of normal priority. -/
theorem selects_policy_least_priority :
    let clock : ℕ → ℚ := fun _ => 0
    let a : ScheduledRequest := { requestId := "a", prompt := "p", createdAt := 0 }
    let b : ScheduledRequest := { requestId := "b", prompt := "p", createdAt := 0, priority := .HIGH }
    let s := (((new 8 60 .priority).submitNew a).2.submitNew b).2
    (s.getNextBatch clock 1).1 = [1] ∧ (s.getNextBatch clock 1).2.pending = [0] := by
  intro clock a b s
  have hfa : Fresh (new 8 60 .priority) a := ⟨rfl, fun r hr => absurd hr (Nat.not_lt_zero r)⟩
  have hfb : Fresh ((new 8 60 .priority).submitNew a).2 b := ⟨rfl, by decide⟩
  have hrun : Trace.Run (Shows clock) (new 8 60 .priority)
      [{ event := .submit 0 a true }, { event := .submit 1 b true }] s :=
    .snoc (.snoc .nil ⟨⟨hfa, rfl, rfl⟩, rfl, rfl⟩) ⟨⟨hfb, rfl, rfl⟩, rfl, rfl⟩
  obtain ⟨hbatch, hpend⟩ := (selects_policy_least hrun 1).1
  rw [hbatch, hpend]
  decide +kernel

end RequestScheduler

end ModelServing
