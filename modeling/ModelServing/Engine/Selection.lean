import ModelServing.Engine.Ledger

/-! What one selection does to the requests. `Touches` bounds what an operation changes; `Selected`
    is the whole effect of `get_next_batch` as its callers need it: the ledger and the statistics
    still hold, the batch is running, and what left the queue otherwise was cancelled with an
    error. -/

namespace ModelServing

namespace RequestScheduler

variable {acc : List Ref} {s s' : RequestScheduler} {r : Ref}

/-! ### Loops over requests -/

/-- A reading of a request that nothing in the scheduler or the engine assigns to. -/
structure Stable {β : Type*} (g : ScheduledRequest → β) : Prop where
  start : ∀ t q, g (ScheduledRequest.start t q) = g q
  cancel : ∀ t q, g (ScheduledRequest.cancel t q) = g q
  complete : ∀ o n t q, g (ScheduledRequest.complete o n t q) = g q
  fail : ∀ e t q, g (ScheduledRequest.fail e t q) = g q
  error : ∀ e (q : ScheduledRequest), g { q with error := e } = g q
  timeout : ∀ t (q : ScheduledRequest), g { q with timeoutSeconds := t } = g q
  promptTokens : ∀ n (q : ScheduledRequest), g { q with promptTokens := n } = g q

theorem stable_requestId : Stable ScheduledRequest.requestId := by constructor <;> intros <;> rfl
theorem stable_prompt : Stable ScheduledRequest.prompt := by constructor <;> intros <;> rfl
theorem stable_maxTokens : Stable ScheduledRequest.maxTokens := by constructor <;> intros <;> rfl
theorem stable_temperature : Stable ScheduledRequest.temperature := by
  constructor <;> intros <;> rfl
theorem stable_topK : Stable ScheduledRequest.topK := by constructor <;> intros <;> rfl
theorem stable_topP : Stable ScheduledRequest.topP := by constructor <;> intros <;> rfl

/-- What the constructor was given. -/
def settings (s : RequestScheduler) : ℤ × ℚ × SchedulingPolicy :=
  (s.maxQueueSize, s.defaultTimeout, s.schedulingPolicy)

/-- `s'` comes from `s` by changes to the objects in `touched` only; stable readings, the number of
    objects, the number of completions and the settings are as they were. -/
structure Touches (touched : Ref → Prop) (s s' : RequestScheduler) : Prop where
  next : s'.requests.next = s.requests.next
  frame : ∀ x, ¬ touched x → s'.request x = s.request x
  stable : ∀ {β : Type} (g : ScheduledRequest → β), Stable g →
    ∀ x, g (s'.request x) = g (s.request x)
  totalCompleted : s'.totalCompleted = s.totalCompleted
  settings : s'.settings = s.settings

namespace Touches

variable {P Q : Ref → Prop} {s₁ s₂ s₃ : RequestScheduler}

theorem refl (P : Ref → Prop) (s : RequestScheduler) : Touches P s s :=
  ⟨rfl, fun _ _ => rfl, fun _ _ _ => rfl, rfl, rfl⟩

theorem trans (h : Touches P s₁ s₂) (h' : Touches P s₂ s₃) : Touches P s₁ s₃ where
  next := h'.next.trans h.next
  frame := fun x hx => (h'.frame x hx).trans (h.frame x hx)
  stable := fun g hg x => (h'.stable g hg x).trans (h.stable g hg x)
  totalCompleted := h'.totalCompleted.trans h.totalCompleted
  settings := h'.settings.trans h.settings

theorem mono (hPQ : ∀ x, P x → Q x) (h : Touches P s₁ s₂) : Touches Q s₁ s₂ :=
  ⟨h.next, fun x hx => h.frame x fun hp => hx (hPQ x hp), h.stable, h.totalCompleted, h.settings⟩

/-- A loop touches what its rounds touch. -/
theorem foldl {f : RequestScheduler → Ref → RequestScheduler}
    (hf : ∀ s r, Touches (· = r) s (f s r)) : ∀ (rs : List Ref) (s : RequestScheduler),
    Touches (· ∈ rs) s (rs.foldl f s)
  | [], s => refl _ s
  | r :: rs, s =>
    ((hf s r).mono fun _ hx => hx ▸ List.mem_cons_self).trans
      ((foldl hf rs (f s r)).mono fun _ hx => List.mem_cons_of_mem _ hx)

theorem status (h : Touches P s₁ s₂) {x : Ref} (hx : ¬ P x) : s₂.statusOf x = s₁.statusOf x :=
  congrArg ScheduledRequest.status (h.frame x hx)

theorem maxQueueSize (h : Touches P s₁ s₂) : s₂.maxQueueSize = s₁.maxQueueSize :=
  congrArg Prod.fst h.settings

theorem id_eq (h : Touches P s₁ s₂) (x : Ref) : s₂.idOf x = s₁.idOf x :=
  h.stable _ stable_requestId x

end Touches

theorem touches_call (clock : ℕ → ℚ) (f : ℚ → ScheduledRequest → ScheduledRequest)
    (hf : ∀ {β : Type} (g : ScheduledRequest → β), Stable g → ∀ t q, g (f t q) = g q)
    (s : RequestScheduler) (r : Ref) : Touches (· = r) s (s.call clock r f) :=
  ⟨rfl, fun _ hx => request_call_of_ne clock f s hx,
    fun g hg x => ObjectHeap.map_get_modify g s.requests r x (hf g hg _), rfl, rfl⟩

theorem touches_set (g : ScheduledRequest → ScheduledRequest)
    (hg : ∀ {β : Type} (h : ScheduledRequest → β), Stable h → ∀ q, h (g q) = h q)
    (s : RequestScheduler) (r : Ref) : Touches (· = r) s (s.set r g) :=
  ⟨rfl, fun _ hx => request_set_of_ne g s hx,
    fun h hh x => ObjectHeap.map_get_modify h s.requests r x (hg h hh), rfl, rfl⟩

variable (clock : ℕ → ℚ)

theorem touches_expire (s : RequestScheduler) (r : Ref) :
    Touches (· = r) s (s.expire clock r) := by
  have h := (touches_call clock .cancel (fun _ hg => hg.cancel) s r).trans
    (touches_set (fun q => { q with error := some "Request timed out in queue" })
      (fun _ hg => hg.error _) (s.call clock r .cancel) r)
  exact ⟨h.next, h.frame, h.stable, h.totalCompleted, h.settings⟩

theorem touches_startRunning (s : RequestScheduler) (r : Ref) :
    Touches (· = r) s (s.startRunning clock r) := by
  have h := touches_call clock .start (fun _ hg => hg.start) s r
  exact ⟨h.next, h.frame, h.stable, h.totalCompleted, h.settings⟩

/-! ### Selecting a batch -/

variable {clock}

theorem expire_completed (s : RequestScheduler) (r : Ref) :
    (s.expire clock r).completed = s.completed.insert (s.idOf r) r := by
  have h := (touches_call clock .cancel (fun _ hg => hg.cancel) s r).trans
    (touches_set (fun q => { q with error := some "Request timed out in queue" })
      (fun _ hg => hg.error _) (s.call clock r .cancel) r)
  exact congrArg (s.completed.insert · r) (h.id_eq r)

theorem expire_status (s : RequestScheduler) (r : Ref) :
    (s.expire clock r).statusOf r = .CANCELLED := by
  have h₁ := request_set_self (fun q => { q with error := some "Request timed out in queue" })
    (s.call clock r .cancel) r
  rw [request_call_self] at h₁
  exact congrArg ScheduledRequest.status h₁

theorem expire_error (s : RequestScheduler) (r : Ref) :
    ((s.expire clock r).request r).error = some "Request timed out in queue" :=
  congrArg ScheduledRequest.error (request_set_self
    (fun q => { q with error := some "Request timed out in queue" }) (s.call clock r .cancel) r)

/-- A move out of the queue that raises the counter it belongs to. -/
theorem Counted.moved_pending (C : Counted s) (L : Ledger acc s) (hr : r ∈ s.pending)
    (hpend : s'.pending = s.pending.erase r) (hrun : s'.running = s.running)
    (hcomp : s'.completed = s.completed.insert (s.idOf r) r)
    (hsub : s'.totalSubmitted = s.totalSubmitted)
    (hsum : s'.totalCompleted + s'.totalCancelled + s'.totalTimedOut =
      s.totalCompleted + s.totalCancelled + s.totalTimedOut + 1) : Counted s' := by
  have hlen := List.length_erase_of_mem hr
  have hpos := List.length_pos_of_mem hr
  have hins := OrderedDict.size_insert_of_not_mem (v := r) (L.not_completed_of_pending hr)
  obtain ⟨h1, h2⟩ := C
  constructor
  · simp only [pendingCount, runningCount, hpend, hrun, hsub] at h1 ⊢
    omega
  · rw [hcomp, hins]
    omega

theorem Counted.expire (C : Counted s) (L : Ledger acc s) (hr : r ∈ s.pending) :
    Counted (s.expire clock r) := by
  refine C.moved_pending L hr (L.moved_expire _ hr).pending rfl (expire_completed s r) rfl ?_
  change s.totalCompleted + s.totalCancelled + (s.totalTimedOut + 1) = _
  omega

/-- Expiring distinct pending requests: they leave the queue, cancelled with an error. -/
theorem foldl_expire (clock : ℕ → ℚ) : ∀ (rs : List Ref) (s : RequestScheduler), rs.Nodup → (∀ r ∈ rs, r ∈ s.pending) →
    Ledger acc s → Counted s →
    Ledger acc (rs.foldl (expire clock) s) ∧ Counted (rs.foldl (expire clock) s) ∧
      (rs.foldl (expire clock) s).pending = rs.foldl List.erase s.pending ∧
      ∀ r ∈ rs, (rs.foldl (expire clock) s).statusOf r = .CANCELLED ∧
        ((rs.foldl (expire clock) s).request r).error = some "Request timed out in queue"
  | [], _, _, _, L, C => ⟨L, C, rfl, fun _ h => absurd h List.not_mem_nil⟩
  | r :: rs, s, hnd, hmem, L, C => by
      obtain ⟨hr, hrs⟩ := List.nodup_cons.mp hnd
      have hp := hmem r List.mem_cons_self
      have M := L.moved_expire clock hp
      have hmem' : ∀ x ∈ rs, x ∈ (s.expire clock r).pending := by
        intro x hx
        rw [M.pending, L.pending_nodup.mem_erase_iff]
        exact ⟨fun h => hr (h ▸ hx), hmem x (List.mem_cons_of_mem _ hx)⟩
      obtain ⟨L', C', hpend, hst⟩ := foldl_expire clock rs (s.expire clock r) hrs hmem'
        (L.move (L.pending r hp).1 M) (C.expire L hp)
      refine ⟨L', C', ?_, ?_⟩
      · rw [List.foldl_cons, hpend, M.pending, List.foldl_cons]
      · intro x hx
        rcases List.mem_cons.mp hx with rfl | hx
        · have hfr := (Touches.foldl (touches_expire clock) rs (s.expire clock x)).frame x hr
          rw [List.foldl_cons, statusOf, hfr]
          exact ⟨expire_status s x, expire_error s x⟩
        · exact hst x hx

theorem timedOut_sublist (clock : ℕ → ℚ) (s : RequestScheduler) :
    (s.timedOut clock).Sublist s.pending := by
  have h := (List.filter_sublist (l := s.pending.zipIdx s.ticks)
    (p := fun p => (s.request p.1).isTimedOut (clock p.2))).map Prod.fst
  rwa [List.zipIdx_map_fst] at h

theorem Ledger.of_eq (L : Ledger acc s) (hreq : s'.requests = s.requests)
    (hpend : s'.pending.Perm s.pending) (hrun : s'.running = s.running)
    (hcomp : s'.completed = s.completed) : Ledger acc s' where
  lt_next := hreq ▸ L.lt_next
  ids_inj := by
    simp only [idOf, request, hreq]
    exact L.ids_inj
  pending_nodup := hpend.nodup_iff.mpr L.pending_nodup
  pending := fun r hr => by
    simp only [statusOf, request, hreq]
    exact L.pending r (hpend.mem_iff.mp hr)
  running := by
    simp only [idOf, statusOf, request, hreq, hrun]
    exact L.running
  completed := by
    simp only [idOf, statusOf, request, hreq, hcomp]
    exact L.completed
  disjoint := hrun ▸ hcomp ▸ L.disjoint
  located := fun r hr => by
    simp only [idOf, request, hreq, hrun, hcomp, hpend.mem_iff]
    exact L.located r hr

theorem touches_enforceTimeouts (clock : ℕ → ℚ) (s : RequestScheduler) :
    Touches (· ∈ s.timedOut clock) s (s.enforceTimeouts clock) := by
  have T := Touches.foldl (touches_expire clock) (s.timedOut clock)
    { s with ticks := s.ticks + s.pending.length }
  exact ⟨T.next, T.frame, T.stable, T.totalCompleted, T.settings⟩

theorem foldl_expire_pending_sublist (clock : ℕ → ℚ) (rs : List Ref) (s : RequestScheduler) :
    (rs.foldl (expire clock) s).pending.Sublist s.pending := by
  induction rs generalizing s with
  | nil => exact .refl _
  | cons r rs ih => exact (ih (s.expire clock r)).trans List.eraseP_sublist

/-- Timed-out requests leave the queue cancelled, the others stay as they are. -/
theorem enforceTimeouts_spec (L : Ledger acc s) (C : Counted s) (clock : ℕ → ℚ) :
    Ledger acc (s.enforceTimeouts clock) ∧ Counted (s.enforceTimeouts clock) ∧
      (∀ x, x ∈ (s.enforceTimeouts clock).pending ↔ x ∈ s.pending ∧ x ∉ s.timedOut clock) ∧
      (∀ x ∈ s.timedOut clock, (s.enforceTimeouts clock).statusOf x = .CANCELLED ∧
        ((s.enforceTimeouts clock).request x).error = some "Request timed out in queue") ∧
      Touches (· ∈ s.timedOut clock) s (s.enforceTimeouts clock) := by
  set s₀ : RequestScheduler := { s with ticks := s.ticks + s.pending.length } with hs₀
  have hsub := timedOut_sublist clock s
  have L₀ : Ledger acc s₀ := L.of_eq rfl (.refl _) rfl rfl
  have C₀ : Counted s₀ := ⟨C.submitted, C.done⟩
  obtain ⟨L', C', hpend, hst⟩ := foldl_expire clock (s.timedOut clock) s₀
    (L.pending_nodup.sublist hsub) (fun _ hr => hsub.subset hr) L₀ C₀
  refine ⟨L', C', fun x => ?_, hst, touches_enforceTimeouts clock s⟩
  change x ∈ ((s.timedOut clock).foldl (expire clock) s₀).pending ↔ _
  rw [hpend, ← List.diff_eq_foldl, L.pending_nodup.mem_sdiff_iff]

theorem sortPending_spec (s : RequestScheduler) :
    s.sortPending.pending.Perm s.pending ∧
      s.sortPending = { s with pending := s.sortPending.pending } := by
  have hcases : s.sortPending = s ∨ s.sortPending = { s with
      pending := s.pending.insertionSort fun a b => (s.request a).keyLe (s.request b) } := by
    unfold sortPending
    split
    · exact Or.inr rfl
    · exact Or.inl rfl
  rcases hcases with heq | heq <;> rw [heq]
  · exact ⟨.refl _, rfl⟩
  · exact ⟨List.perm_insertionSort _ _, rfl⟩

theorem foldl_startRunning_error (x : Ref) : ∀ (rs : List Ref) (s : RequestScheduler),
    ((rs.foldl (startRunning clock) s).request x).error = (s.request x).error
  | [], _ => rfl
  | r :: rs, s => by
      rw [List.foldl_cons, foldl_startRunning_error x rs]
      exact ObjectHeap.map_get_modify ScheduledRequest.error s.requests r x
        (f := ScheduledRequest.start (clock s.ticks)) fun _ => rfl

theorem foldl_startRunning_pending : ∀ (rs : List Ref) (s : RequestScheduler),
    (rs.foldl (startRunning clock) s).pending = s.pending
  | [], _ => rfl
  | r :: rs, s => foldl_startRunning_pending rs (s.startRunning clock r)

/-- A selection in one line: of the queue that the timeouts leave, sorted, the first are started. -/
theorem getNextBatch_eq (clock : ℕ → ℚ) (s : RequestScheduler) (n : ℕ) :
    ∃ queue, queue = (s.enforceTimeouts clock).sortPending.pending ∧
      queue.Perm (s.enforceTimeouts clock).pending ∧
      s.getNextBatch clock n = (queue.take n, (queue.take n).foldl (startRunning clock)
        { s.enforceTimeouts clock with pending := queue.drop n }) := by
  obtain ⟨hperm, hsort⟩ := sortPending_spec (s.enforceTimeouts clock)
  refine ⟨_, rfl, hperm, ?_⟩
  set s₁ := s.enforceTimeouts clock
  by_cases hnil : s₁.pending = []
  · have heq : s.getNextBatch clock n = ([], s₁) := if_pos hnil
    have heta : ({ s₁ with pending := [] } : RequestScheduler) = s₁ := by rw [← hnil]
    rw [hnil] at hperm
    rw [heq, hperm.eq_nil, List.take_nil, List.drop_nil, List.foldl_nil, heta]
  · set queue := s₁.sortPending.pending
    have heq : s.getNextBatch clock n = (queue.take (min n queue.length),
        (queue.take (min n queue.length)).foldl (startRunning clock)
          { s₁.sortPending with pending := queue.drop (min n queue.length) }) := if_neg hnil
    rw [heq, ← List.take_eq_take_min, ← List.drop_eq_drop_min, hsort]

/-- A selection in any state: what it touches was queued, and it splits what the timeouts leave. -/
theorem getNextBatch_split (clock : ℕ → ℚ) (s : RequestScheduler) (n : ℕ) :
    Touches (· ∈ s.pending) s (s.getNextBatch clock n).2 ∧
    ∃ live : List Ref, live.Sublist s.pending ∧
      ((s.getNextBatch clock n).1 ++ (s.getNextBatch clock n).2.pending).Perm live ∧
      (s.getNextBatch clock n).1.length = min n live.length := by
  obtain ⟨queue, -, hperm, heq⟩ := getNextBatch_eq clock s n
  have T₁ := (touches_enforceTimeouts clock s).mono (Q := (· ∈ s.pending))
    fun _ hx => (timedOut_sublist clock s).subset hx
  have hsub : (s.enforceTimeouts clock).pending.Sublist s.pending :=
    foldl_expire_pending_sublist clock (s.timedOut clock) _
  set s₁ := s.enforceTimeouts clock
  have T₂ : Touches (· ∈ s.pending) s₁ { s₁ with pending := queue.drop n } :=
    ⟨rfl, fun _ _ => rfl, fun _ _ _ => rfl, rfl, rfl⟩
  have T₃ := (Touches.foldl (touches_startRunning clock) (queue.take n)
    { s₁ with pending := queue.drop n }).mono (Q := (· ∈ s.pending))
    fun _ hx => hsub.subset (hperm.mem_iff.mp (List.mem_of_mem_take hx))
  rw [heq]
  refine ⟨(T₁.trans T₂).trans T₃, s₁.pending, hsub, ?_, ?_⟩
  · rw [foldl_startRunning_pending, List.take_append_drop]
    exact hperm
  · rw [List.length_take, hperm.length_eq]

/-- Starting a selected batch whose rest of the queue is `rest`. -/
theorem foldl_startRunning : ∀ (batch : List Ref) (s : RequestScheduler) (rest : List Ref),
    Ledger acc { s with pending := batch ++ rest } → Counted { s with pending := batch ++ rest } →
    Ledger acc { batch.foldl (startRunning clock) s with pending := rest } ∧
      Counted { batch.foldl (startRunning clock) s with pending := rest } ∧
      ∀ r ∈ batch, (batch.foldl (startRunning clock) s).statusOf r = .RUNNING
  | [], _, _, L, C => ⟨L, C, fun _ h => absurd h List.not_mem_nil⟩
  | r :: batch, s, rest, L, C => by
      have M := L.moved_startRunning clock
      have hmem : r ∈ ({ s with pending := r :: (batch ++ rest) } : RequestScheduler).pending :=
        List.mem_cons_self
      have L' := L.move (L.pending r hmem).1 M
      have C' : Counted { s.startRunning clock r with pending := batch ++ rest } := by
        have hid : (s.call clock r .start).idOf r = s.idOf r :=
          idOf_call clock .start (fun _ _ => rfl) s r r
        have hsize : (s.startRunning clock r).running.size = s.running.size + 1 := by
          change (s.running.insert ((s.call clock r .start).idOf r) r).size = _
          rw [hid]
          exact OrderedDict.size_insert_of_not_mem _ (L.not_running_of_pending hmem)
        have h := C.submitted
        simp only [pendingCount, runningCount, List.cons_append, List.length_cons] at h
        refine ⟨?_, C.done⟩
        simp only [pendingCount, runningCount, hsize]
        change s.totalSubmitted = _ + s.totalCompleted + s.totalCancelled + s.totalTimedOut
        omega
      obtain ⟨L'', C'', hst⟩ := foldl_startRunning batch (s.startRunning clock r) rest L' C'
      refine ⟨L'', C'', fun x hx => ?_⟩
      rcases List.mem_cons.mp hx with rfl | hx
      · have hnot : x ∉ batch := fun hm =>
          (List.nodup_cons.mp L.pending_nodup).1 (List.mem_append_left _ hm)
        have hfr := (Touches.foldl (touches_startRunning clock) batch (s.startRunning clock x)).status
          hnot
        rw [List.foldl_cons, hfr]
        exact congrArg ScheduledRequest.status (request_call_self clock .start s x)
      · exact hst x hx

/-- What `get_next_batch` does: the batch is taken from the queue and running, and whatever else
    left the queue was cancelled with an error. -/
structure Selected (acc : List Ref) (clock : ℕ → ℚ) (s : RequestScheduler) (n : ℕ) (batch : List Ref)
    (s' : RequestScheduler) : Prop where
  ledger : Ledger acc s'
  counted : Counted s'
  touches : Touches (· ∈ s.pending) s s'
  nodup : batch.Nodup
  length_le : batch.length ≤ n
  started : ∀ r ∈ batch, r ∈ s.pending ∧ s'.statusOf r = .RUNNING
  pending : ∀ r ∈ s'.pending, r ∈ s.pending
  outcome : ∀ r ∈ s.pending, r ∈ batch ∨ r ∈ s'.pending ∨ r ∈ s.timedOut clock
  expired : ∀ r ∈ s.timedOut clock, r ∈ s.pending ∧ s'.statusOf r = .CANCELLED ∧
    (s'.request r).error = some "Request timed out in queue"
  error : ∀ r, r ∉ s.timedOut clock → (s'.request r).error = (s.request r).error
  emptied : s.pending.length ≤ n → s'.pending = []

theorem getNextBatch_selected (L : Ledger acc s) (C : Counted s) (clock : ℕ → ℚ) (n : ℕ) :
    Selected acc clock s n (s.getNextBatch clock n).1 (s.getNextBatch clock n).2 := by
  obtain ⟨L₁, C₁, hpend₁, hst₁, T₁⟩ := enforceTimeouts_spec L C clock
  obtain ⟨queue, -, hperm, heq⟩ := getNextBatch_eq clock s n
  set s₁ := s.enforceTimeouts clock
  set batch := queue.take n
  set rest := queue.drop n
  set s₃ := batch.foldl (startRunning clock) { s₁ with pending := rest }
  have hsplit : batch ++ rest = queue := List.take_append_drop n queue
  have hto : ∀ x ∈ s.timedOut clock, x ∈ s.pending := fun _ hx =>
    (timedOut_sublist clock s).subset hx
  have hmem : ∀ x, x ∈ queue ↔ x ∈ s.pending ∧ x ∉ s.timedOut clock := fun x =>
    hperm.mem_iff.trans (hpend₁ x)
  have hbatch : ∀ x ∈ batch, x ∈ queue := fun x hx => List.mem_of_mem_take hx
  have L₂ : Ledger acc { s₁ with pending := batch ++ rest } := by
    rw [hsplit]; exact L₁.of_eq rfl hperm rfl rfl
  have C₂ : Counted { s₁ with pending := batch ++ rest } := by
    rw [hsplit]
    refine ⟨?_, C₁.done⟩
    have := C₁.submitted
    simp only [pendingCount, runningCount, hperm.length_eq] at this ⊢
    exact this
  obtain ⟨L₃, C₃, hrun⟩ := foldl_startRunning batch { s₁ with pending := rest } rest L₂ C₂
  have hpend₃ : s₃.pending = rest := foldl_startRunning_pending batch _
  have heta : ({ s₃ with pending := rest } : RequestScheduler) = s₃ := by rw [← hpend₃]
  have T₃ : Touches (· ∈ batch) s₁ s₃ := by
    have h : Touches (· ∈ batch) s₁ { s₁ with pending := rest } :=
      ⟨rfl, fun _ _ => rfl, fun _ _ _ => rfl, rfl, rfl⟩
    exact h.trans (Touches.foldl (touches_startRunning clock) batch { s₁ with pending := rest })
  rw [heq]
  refine ⟨heta ▸ L₃, heta ▸ C₃,
    (T₁.mono hto).trans (T₃.mono fun x hx => ((hmem x).mp (hbatch x hx)).1), ?_, ?_, ?_, ?_, ?_, ?_,
    ?_, ?_⟩
  · exact (hperm.nodup_iff.mpr L₁.pending_nodup).sublist (List.take_sublist _ _)
  · exact List.length_take_le _ _
  · exact fun r hr => ⟨((hmem r).mp (hbatch r hr)).1, hrun r hr⟩
  · intro r hr
    rw [hpend₃] at hr
    exact ((hmem r).mp (List.mem_of_mem_drop hr)).1
  · intro r hr
    by_cases hout : r ∈ s.timedOut clock
    · exact Or.inr (Or.inr hout)
    · have : r ∈ batch ++ rest := hsplit ▸ (hmem r).mpr ⟨hr, hout⟩
      rw [hpend₃]
      exact (List.mem_append.mp this).imp id Or.inl
  · intro r hr
    have hnot : r ∉ batch := fun hb => ((hmem r).mp (hbatch r hb)).2 hr
    rw [statusOf, T₃.frame r hnot]
    exact ⟨hto r hr, hst₁ r hr⟩
  · intro r hr
    refine (foldl_startRunning_error r batch _).trans ?_
    rw [← T₁.frame r hr]
    rfl
  · intro hle
    have hlen : queue.length ≤ s.pending.length := by
      rw [hperm.length_eq]
      exact (L₁.pending_nodup.subperm fun x hx => ((hpend₁ x).mp hx).1).length_le
    rw [hpend₃]
    exact List.drop_eq_nil_of_le (by omega)

end RequestScheduler

end ModelServing
