import ModelServing.Lib.ListSchedule
import ModelServing.Engine.Policy
import ModelServing.Engine.Bound

/-! `run_until_empty` is a list schedule. The seats of the batch are the machines, the queue in the order
    of its policy is the list of jobs, and a job is as long as the request turns out to have tokens. How
    many tokens that is shows only at the end, so `f` stands for the engine when the loop has returned,
    and what is still to do at each point is read off it. Then what remains of the schedule shrinks by
    one exactly when an iteration is counted. -/

namespace ModelServing

open StableSort ListSchedule

namespace RequestScheduler

variable {acc : List Ref} {s s' : RequestScheduler} {clock : ℕ → ℚ} {n : ℕ}

/-- The queue in the order of the policy, ties in the order of acceptance. -/
def ordered (s : RequestScheduler) : List Ref := s.pending.insertionSort (Tiebreak s.policyLe (· ≤ ·))

theorem ordered_congr (hpend : s'.pending = s.pending)
    (hle : ∀ a b, s'.policyLe a b ↔ s.policyLe a b) : s'.ordered = s.ordered := by
  refine eq_insertionSort (hpend ▸ List.perm_insertionSort _ _) ?_
  refine (List.pairwise_insertionSort _ s'.pending).imp fun hab => ?_
  rwa [Tiebreak, hle, hle] at hab

theorem ranked_eq_filter (clock : ℕ → ℚ) (s : RequestScheduler) :
    s.ranked clock = s.ordered.filter fun r => decide (r ∉ s.timedOut clock) :=
  (eq_insertionSort ((List.perm_insertionSort _ _).filter _)
    ((List.pairwise_insertionSort _ _).sublist List.filter_sublist)).symm

/-- A selection takes the first of the queue and leaves the rest in order. -/
theorem getNextBatch_ordered (L : Ledger acc s) (C : Counted s) (h : InOrder s) (clock : ℕ → ℚ) (n : ℕ) :
    (s.getNextBatch clock n).1 = (s.ranked clock).take n ∧
      (s.getNextBatch clock n).2.ordered = (s.ranked clock).drop n ∧
      InOrder (s.getNextBatch clock n).2 := by
  obtain ⟨hbatch, hpend⟩ := getNextBatch_ranked L C h clock n
  have hle := (getNextBatch_selected L C clock n).touches.policyLe
  have hsort : (s.getNextBatch clock n).2.pending.Pairwise
      (Tiebreak (s.getNextBatch clock n).2.policyLe (· ≤ ·)) := by
    rw [hpend]
    refine ((List.pairwise_insertionSort _ _).sublist (List.drop_sublist n _)).imp fun hab => ?_
    rwa [Tiebreak, hle, hle]
  refine ⟨hbatch, ?_, hsort.imp fun hab _ => hab.2⟩
  rw [ordered, List.Pairwise.insertionSort_eq hsort, hpend]

theorem InOrder.submit (h : InOrder s) (L : Ledger acc s) (req : ScheduledRequest) :
    InOrder (s.submitNew req).2 := by
  have A := submitNew_added s req
  have hpolicy : (s.submitNew req).2.schedulingPolicy = s.schedulingPolicy := by
    rcases submitNew_cases s req with ⟨-, heq⟩ | ⟨-, t, heq⟩ <;> rw [heq]
  have hreq : ∀ x ∈ s.pending, (s.submitNew req).2.request x = s.request x := fun x hx =>
    A.old x (L.lt_next x (L.pending x hx).1)
  have hone : TiesInOrder (s.submitNew req).2.policyLe (· ≤ ·) (s.queued (s.submitNew req).1) := by
    cases (s.submitNew req).1 <;> simp [queued, TiesInOrder]
  rw [InOrder, A.pending]
  refine List.pairwise_append.mpr ⟨?_, hone, fun a ha x hx _ _ => ?_⟩
  · refine List.Pairwise.imp_of_mem (fun {a b} ha hb hab => ?_) h
    rwa [policyLe_congr hpolicy (by rw [hreq a ha, hreq b hb]),
      policyLe_congr hpolicy (by rw [hreq a ha, hreq b hb])]
  · rw [eq_of_mem_queued hx]
    exact (L.lt_next a (L.pending a ha).1).le

theorem InOrder.cancel (h : InOrder s) (clock : ℕ → ℚ) (k : String) :
    InOrder (s.cancelRequest clock k).2 := by
  obtain ⟨hsub, -, hstable⟩ := cancelRequest_frame clock s k
  have hpolicy : (s.cancelRequest clock k).2.schedulingPolicy = s.schedulingPolicy := by
    unfold cancelRequest
    split
    · rfl
    · split <;> rfl
  exact h.of_policyLe (fun a b => policyLe_congr hpolicy (keyLe_congr hstable a b)) hsub

end RequestScheduler

namespace Engine

open RequestScheduler

variable {env : Env} {e e' f : Engine} {acc : List Ref} {p p' : Point} {seats : ℕ}

/-! ### What remains to be done -/

/-- The tokens `r` was completed with, none if it was not completed. -/
def tokensServed (f : Engine) (r : Ref) : ℕ :=
  if f.scheduler.statusOf r = .COMPLETED then (f.request r).generatedTokens else 0

/-- The tokens each sequence of the batch still has to get. -/
def busy (f e : Engine) : List ℕ :=
  e.activeSequences.values.map fun q => f.tokensServed q.request - q.generatedIds.length

/-- How long the batch, the selected requests and the queue are going to take. -/
def outlook (f : Engine) (seats : ℕ) (p : Point) (e : Engine) : ℕ :=
  makespan (seated seats (busy f e ++ p.todo.map f.tokensServed)) (e.scheduler.ordered.map f.tokensServed)

/-- `f` is what `e` comes to: what has ended stays as it is, and every sequence is going to complete. -/
structure Advances (e f : Engine) : Prop where
  ended : ∀ r, (e.scheduler.statusOf r).terminal = true → f.request r = e.request r
  active : ∀ k q, e.activeSequences.get? k = some q → q.generatedIds.length ≤ f.tokensServed q.request

theorem Advances.status (A : Advances e f) {r : Ref} (h : (e.scheduler.statusOf r).terminal = true) :
    f.scheduler.statusOf r = e.scheduler.statusOf r :=
  congrArg ScheduledRequest.status (A.ended r h)

theorem Advances.completed (A : Advances e f) {q : SequenceState} (D : Delivered env e q) :
    f.tokensServed q.request = q.generatedIds.length := by
  have hst := (A.status (by rw [D.status]; rfl)).trans D.status
  rw [tokensServed, if_pos hst, A.ended q.request (by rw [D.status]; rfl), D.generatedTokens]

theorem Advances.unserved (A : Advances e f) {r : Ref} (h : Lost e r) : f.tokensServed r = 0 := by
  refine if_neg ?_
  rw [A.status h.terminal]
  rcases h with h | h <;> rw [h] <;> decide

/-- A seat is free only when nobody waits. -/
def Full (seats : ℕ) (p : Point) (e : Engine) : Prop :=
  match p with
  | .admitting _ | .placing _ _ _ => e.scheduler.pending = [] ∨ e.batchSize + p.todo.length = seats
  | _ => True

/-- Inside a step of a loop that ends as `f`, where nobody the engine holds is going to fail. -/
structure Scheduling (f : Engine) (seats : ℕ) (acc : List Ref) (p : Point) (e : Engine) : Prop where
  batch : Batch acc p e
  running : ∀ k q, e.activeSequences.get? k = some q → e.scheduler.statusOf q.request = .RUNNING
  owned : e.cacheManager.Owned
  order : InOrder e.scheduler
  fits : Fits p e
  maxBatchSize : e.maxBatchSize = seats
  alive : ∀ r, Holds p e r → f.scheduler.statusOf r ≠ .FAILED

theorem policyLe_micro {a : Action} (O : e.cacheManager.Owned) (h : Micro env (p, e) a (p', e')) (x y : Ref) :
    e'.scheduler.policyLe x y ↔ e.scheduler.policyLe x y :=
  policyLe_congr (congrArg (fun s => s.2.1.2.2) (settings_micro O h)) (keyLe_congr h.stable x y)

theorem ordered_micro {a : Action} (O : e.cacheManager.Owned) (hp : p ≠ .idle)
    (h : Micro env (p, e) a (p', e')) : e'.scheduler.ordered = e.scheduler.ordered :=
  ordered_congr (pending_micro hp h) (policyLe_micro O h)

theorem inOrder_micro {a : Action} (B : Batch acc p e) (O : e.cacheManager.Owned)
    (h : InOrder e.scheduler) (hm : Micro env (p, e) a (p', e')) : InOrder e'.scheduler := by
  by_cases hp : p = .idle
  · subst hp
    cases hm with
    | full _ => exact h
    | select _ _ => exact (getNextBatch_ordered B.ledger B.counted h _ _).2.2
  · exact h.of_policyLe (policyLe_micro O hm) (pending_micro hp hm ▸ List.Sublist.refl _)

theorem Scheduling.micro {a : Action} (T : Scheduling f seats acc p e)
    (h : Micro env (p, e) a (p', e')) : Scheduling f seats acc p' e' := by
  refine ⟨T.batch.micro h, fun k q' hq' => ?_, owned_micro T.owned h, inOrder_micro T.batch T.owned T.order h,
    (T.fits.micro T.batch h).1, (T.fits.micro T.batch h).2.trans T.maxBatchSize,
    fun r hr => T.alive r (hr.micro h)⟩
  refine ((T.batch.micro h).active k q' hq').2.2.resolve_right fun hc => ?_
  cases h.origin hq' with
  | kept hq => cases (T.running k q' hq).symm.trans (T.batch.cancelled_before h (T.batch.not_pending hq) hc)
  | admitted _ =>
    have hpend := T.batch.todo_not_pending List.mem_cons_self
    cases (T.batch.todo _ List.mem_cons_self).2.1.symm.trans (T.batch.cancelled_before h hpend hc)
  | @grown _ _ _ q _ _ _ _ _ hent _ =>
    have hq := OrderedDict.get?_eq_some_iff.mpr (List.mem_of_getElem? hent)
    rw [SequenceState.append_request] at hc
    cases (T.running k q hq).symm.trans (T.batch.cancelled_before h (T.batch.not_pending hq) hc)

/-- Nobody in the batch has ended. -/
theorem Scheduling.out (T : Scheduling f seats acc p e) {r : Ref}
    (h : (e.scheduler.statusOf r).terminal = true) (k : String) (q : SequenceState)
    (hq : e.activeSequences.get? k = some q) : q.request ≠ r := by
  rintro rfl
  rw [T.running k q hq] at h
  cases h

/-! ### Back from the end -/

/-- An eviction that hits somebody makes them fail. -/
theorem Scheduling.no_victim {r : Ref} {rs : List Ref} {inputIds : List ℕ} {v : String} {cache : CacheManager}
    (T : Scheduling f seats acc (.placing r inputIds rs) e)
    (A : Advances ((e.withCache cache).dropEvicted env (some v)) f) :
    (e.withCache cache).dropEvicted env (some v) = e.withCache cache := by
  rcases dropEvicted_cases env (e.withCache cache) v with ⟨heq, -⟩ | ⟨q, -, hq, heq⟩
  · exact heq
  · rw [heq] at A
    have hfail := statusOf_fail env.clock "Evicted due to memory pressure" e.scheduler q.request
    refine absurd ((A.status (r := q.request) ?_).trans hfail) (T.alive _ (.of_active hq))
    exact congrArg RequestStatus.terminal hfail

theorem Scheduling.advances {a : Action} (T : Scheduling f seats acc p e)
    (h : Micro env (p, e) a (p', e')) (hp' : ∀ err, p' ≠ .ended (some err)) (A : Advances e' f) :
    Advances e f := by
  refine ⟨fun r hr => ?_, fun k q hq => ?_⟩
  · have hsame := (T.batch.frozen h hr (T.out hr)).1
    have hst : e'.scheduler.statusOf r = e.scheduler.statusOf r := congrArg ScheduledRequest.status hsame
    exact (A.ended r (by rw [hst]; exact hr)).trans hsame
  · have hkept : e'.activeSequences.get? k = some q →
        q.generatedIds.length ≤ f.tokensServed q.request := A.active k q
    cases h with
    | full _ | rest _ | done | select _ _ | tokenize _ | reject _ => exact hkept hq
    | @place _ r _ inputIds _ cache _ =>
      refine hkept ?_
      rw [get?_activate, if_neg]
      · exact hq
      · rintro rfl
        exact (T.batch.todo r List.mem_cons_self).2.2 (OrderedDict.mem_keys_of_get? hq)
    | evict _ _ =>
      refine hkept ?_
      rw [T.no_victim A]
      exact hq
    | append _ _ hs =>
      have happ := appendAll_appended hs
      obtain ⟨q', hq'⟩ := OrderedDict.mem_keys_iff.mp (happ.keys ▸ OrderedDict.mem_keys_of_get? hq)
      obtain ⟨q₀, t, hq₀, rfl⟩ := happ.get_old hq'
      obtain rfl := Option.some.inj (hq.symm.trans hq₀)
      have hle := A.active k _ hq'
      rw [SequenceState.append_request, SequenceState.append_generatedIds, List.length_append] at hle
      exact (Nat.le_add_right _ _).trans hle
    | @finish _ _ id _ q₀ hf =>
      obtain ⟨-, hget, -, ⟨-, D, -⟩ | ⟨hc, -⟩⟩ := T.batch.finish_cases hf
      · by_cases hk : k = id
        · subst hk
          obtain rfl := Option.some.inj (hq.symm.trans hget)
          exact (A.completed D).ge
        · refine hkept ?_
          obtain ⟨-, text, -, rfl⟩ := finish_ok hf
          exact (OrderedDict.get?_erase_of_ne _ hk).trans hq
      · cases (T.running _ _ hget).symm.trans hc
    | raiseTokenizer _ | raiseEvict _ | raiseModel _ _ | raiseSampler _ _ _ | raiseFinish _ =>
      exact absurd rfl (hp' _)

/-! ### One change -/

theorem foldl_appendToken_totalIterations (env : Env) : ∀ (ps : List (String × ℕ)) (e : Engine),
    (ps.foldl (appendToken env) e).totalIterations = e.totalIterations
  | [], _ => rfl
  | p :: ps, e => foldl_appendToken_totalIterations env ps (e.appendToken env p)

theorem length_busy (f e : Engine) : (busy f e).length = e.batchSize := by
  rw [busy, List.length_map, OrderedDict.values, List.length_map]
  rfl

/-- The first of the queue are seated. -/
theorem Scheduling.select {n : ℕ} (T : Scheduling f seats acc .idle e)
    (hslots : e.maxBatchSize = e.batchSize + n)
    (A : Advances { e with scheduler := (e.scheduler.getNextBatch env.clock n).2 } f) :
    Full seats (.admitting (e.scheduler.getNextBatch env.clock n).1)
        { e with scheduler := (e.scheduler.getNextBatch env.clock n).2 } ∧
      outlook f seats (.admitting (e.scheduler.getNextBatch env.clock n).1)
        { e with scheduler := (e.scheduler.getNextBatch env.clock n).2 } = outlook f seats .idle e := by
  obtain ⟨L, C⟩ := (⟨T.batch.ledger, T.batch.counted⟩ : _ ∧ _)
  obtain ⟨hbatch, hrest, -⟩ := getNextBatch_ordered L C T.order env.clock n
  have hpend := (getNextBatch_ranked L C T.order env.clock n).2
  have S := getNextBatch_selected L C env.clock n
  have hseats : e.batchSize + n = seats := by
    have := T.maxBatchSize
    omega
  constructor
  · change (e.scheduler.getNextBatch env.clock n).2.pending = [] ∨
      e.batchSize + (e.scheduler.getNextBatch env.clock n).1.length = seats
    rw [hpend, hbatch, List.length_take]
    rcases Nat.le_total (e.scheduler.ranked env.clock).length n with hle | hle
    · exact Or.inl (List.drop_eq_nil_of_le hle)
    · exact Or.inr (by rw [Nat.min_eq_left hle, hseats])
  · have hlost : ∀ r ∈ e.scheduler.ordered, decide (r ∉ e.scheduler.timedOut env.clock) = false →
        f.tokensServed r = 0 := fun r _ hr =>
      A.unserved (Or.inl (S.expired r (by simpa using hr)).2.1)
    have hlen : (busy f e).length + (((e.scheduler.ranked env.clock).take n).map f.tokensServed).length ≤
        seats := by
      rw [length_busy, List.length_map, List.length_take]
      omega
    rw [outlook, outlook, Point.todo, Point.todo, hbatch, hrest, List.map_nil, List.append_nil,
      ← makespan_filter f.tokensServed _ e.scheduler.ordered (seated_sorted _ _) hlost,
      ← ranked_eq_filter env.clock e.scheduler]
    have hsplit := makespan_append _ (((e.scheduler.ranked env.clock).drop n).map f.tokensServed) hlen
    rw [← List.map_append, List.take_append_drop] at hsplit
    exact hsplit.symm

/-- One token for everybody. -/
theorem Scheduling.tick {logits : List (List (List Logit))} (T : Scheduling f seats acc (.admitting []) e)
    (hfull : Full seats (.admitting []) e) (hne : e.activeSequences.keys ≠ [])
    (happ : Appended env logits e e') (A : Advances e' f) (hord : e'.scheduler.ordered = e.scheduler.ordered)
    (ids : List String) : outlook f seats (.admitting []) e = outlook f seats (.finishing ids) e' + 1 := by
  have hget : ∀ k q q', e.activeSequences.get? k = some q → e'.activeSequences.get? k = some q' →
      q'.request = q.request ∧ q'.generatedIds.length = q.generatedIds.length + 1 ∧
        q'.generatedIds.length ≤ f.tokensServed q'.request := by
    intro k q q' hq hq'
    obtain ⟨q₀, t, hq₀, rfl⟩ := happ.get_old hq'
    obtain rfl := Option.some.inj (hq.symm.trans hq₀)
    exact ⟨SequenceState.append_request .., by simp, A.active k _ hq'⟩
  have hpos : ∀ d ∈ busy f e, 0 < d := by
    intro d hd
    obtain ⟨q, hq, rfl⟩ := List.mem_map.mp hd
    obtain ⟨k, hk⟩ := OrderedDict.mem_values_iff.mp hq
    obtain ⟨q', hq'⟩ := OrderedDict.mem_keys_iff.mp (happ.keys ▸ OrderedDict.mem_keys_of_get? hk)
    obtain ⟨hreq, hlen, hle⟩ := hget k q q' hk hq'
    rw [hreq] at hle
    omega
  have hbusy : busy f e' = (busy f e).map (· - 1) := by
    rw [busy, busy, List.map_map]
    refine OrderedDict.map_values_of_keys happ.keys fun k q q' hq hq' => ?_
    obtain ⟨hreq, hlen, -⟩ := hget k q q' hq hq'
    rw [hreq, hlen, Function.comp_apply]
    omega
  have hcount : (busy f e).length ≤ seats := by
    have := T.fits
    rw [Fits, T.maxBatchSize] at this
    rw [length_busy]
    simp only [Point.todo, List.length_nil] at this
    omega
  have hbusy_ne : busy f e ≠ [] := by
    rw [← List.length_pos_iff, length_busy]
    exact batchSize_pos_iff.mpr hne
  have hwait : e.scheduler.ordered.map f.tokensServed = [] ∨ (busy f e).length = seats := by
    rcases hfull with hnil | hlen
    · exact Or.inl (by rw [ordered, hnil]; rfl)
    · exact Or.inr (by simpa [length_busy, Point.todo] using hlen)
  rw [outlook, outlook, Point.todo, Point.todo, List.map_nil, List.append_nil, List.append_nil, hord,
    hbusy]
  exact makespan_tick hbusy_ne hpos hcount hwait

/-- A sequence that leaves has nothing left to do. -/
theorem Scheduling.leave {id : String} {ids : List String} {q : SequenceState}
    (T : Scheduling f seats acc (.finishing (id :: ids)) e) (hf : e.finish env id = (.ok q, e'))
    (A : Advances e' f) (hord : e'.scheduler.ordered = e.scheduler.ordered) :
    outlook f seats (.finishing ids) e' = outlook f seats (.finishing (id :: ids)) e := by
  obtain ⟨-, hget, -, ⟨-, D, -⟩ | ⟨hc, -⟩⟩ := T.batch.finish_cases hf
  · have hzero : f.tokensServed q.request - q.generatedIds.length = 0 := by
      rw [A.completed D, Nat.sub_self]
    have hact : e'.activeSequences = e.activeSequences.erase id := by
      obtain ⟨-, text, -, rfl⟩ := finish_ok hf
      rfl
    have hperm : (busy f e).Perm (0 :: busy f e') := by
      have h := ((OrderedDict.entries_perm_erase hget).map Prod.snd).map fun q =>
        f.tokensServed q.request - q.generatedIds.length
      rw [List.map_cons, List.map_cons, hzero, ← hact] at h
      exact h
    have hlen : (busy f e').length < seats := by
      have hfit := T.fits
      have hlen := hperm.length_eq
      rw [Fits, T.maxBatchSize] at hfit
      rw [length_busy, List.length_cons] at hlen
      omega
    rw [outlook, outlook, Point.todo, Point.todo, List.map_nil, List.append_nil, List.append_nil, hord,
      seated_perm hperm, seated_zero hlen]
  · cases (T.running _ _ hget).symm.trans hc

/-- What remains shrinks by one when an iteration is counted, and otherwise stays. -/
theorem Scheduling.outlook_micro {a : Action} (T : Scheduling f seats acc p e) (hfull : Full seats p e)
    (h : Micro env (p, e) a (p', e')) (hp' : ∀ err, p' ≠ .ended (some err)) (A : Advances e' f) :
    Full seats p' e' ∧ e'.totalIterations + outlook f seats p' e' =
      e.totalIterations + outlook f seats p e := by
  have hord : p ≠ .idle → e'.scheduler.ordered = e.scheduler.ordered := fun hp =>
    ordered_micro T.owned hp h
  cases h with
  | full hmax =>
    have hfit := T.fits
    rw [Fits] at hfit
    have hlen : e.batchSize = seats := by
      have := T.maxBatchSize
      simp only [Point.todo, List.length_nil] at hfit
      omega
    exact ⟨Or.inr hlen, rfl⟩
  | select hslots hn =>
    obtain ⟨hfull', hout⟩ := T.select hslots A
    exact ⟨hfull', congrArg (e.totalIterations + ·) hout⟩
  | tokenize _ =>
    refine ⟨hfull, ?_⟩
    rw [outlook, hord Point.noConfusion]
    rfl
  | @place _ r rs inputIds _ cache _ =>
    have hnew := (T.batch.todo r List.mem_cons_self).2.2
    have hvalues : ((e.withCache cache).activate r inputIds).activeSequences.values =
        e.activeSequences.values ++ [{ request := r, inputIds := inputIds }] :=
      OrderedDict.values_insert_of_not_mem _ hnew
    have hsize : ((e.withCache cache).activate r inputIds).batchSize = e.batchSize + 1 :=
      OrderedDict.size_insert_of_not_mem _ hnew
    refine ⟨hfull.imp id fun hlen => ?_, ?_⟩
    · change e.batchSize + (rs.length + 1) = seats at hlen
      change _ + rs.length = seats
      omega
    · rw [outlook, hord Point.noConfusion, busy, hvalues, List.map_append, List.append_assoc]
      rfl
  | evict _ _ =>
    rw [T.no_victim A]
    exact ⟨hfull, rfl⟩
  | @reject _ r _ _ _ _ =>
    have hfail := statusOf_fail env.clock "Insufficient KV-cache memory" e.scheduler r
    refine absurd ((A.status (r := r) ?_).trans hfail) (T.alive r (Or.inr (Or.inl List.mem_cons_self)))
    exact congrArg RequestStatus.terminal hfail
  | rest _ => exact ⟨trivial, rfl⟩
  | done => exact ⟨trivial, rfl⟩
  | @append _ e₁ logits tokens hne _ hs =>
    have happ := appendAll_appended hs
    have hiter : (e₁.appendAll env tokens).totalIterations = e.totalIterations + 1 := by
      obtain rfl := (Prod.mk.inj hs).2
      exact foldl_appendToken_totalIterations env _ _
    have htick := T.tick hfull hne happ A (hord Point.noConfusion) (e₁.appendAll env tokens).finishedIds
    exact ⟨trivial, by omega⟩
  | finish hf =>
    refine ⟨trivial, ?_⟩
    rw [T.leave hf A (hord Point.noConfusion)]
    obtain ⟨-, text, -, rfl⟩ := finish_ok hf
    rfl
  | raiseTokenizer _ | raiseEvict _ | raiseModel _ _ | raiseSampler _ _ _ | raiseFinish _ =>
    exact absurd rfl (hp' _)

/-! ### Steps and loops -/

theorem Scheduling.step {done : List SequenceState} (T : Scheduling f seats acc .idle e)
    (h : e.step env = (.ok done, e')) : Scheduling f seats acc .idle e' ∧ (Advances e' f →
      Advances e f ∧ e'.totalIterations + outlook f seats .idle e' =
        e.totalIterations + outlook f seats .idle e) := by
  obtain ⟨qs, ⟨as, hrun, -⟩, -⟩ := step_leads h
  have hend := Micro.run_of (G := fun p => ∀ err, p ≠ .ended (some err))
    (I := fun c => Scheduling f seats acc c.1 c.2 ∧ (Advances c.2 f → Advances e f ∧
      Full seats c.1 c.2 ∧ c.2.totalIterations + outlook f seats c.1 c.2 =
        e.totalIterations + outlook f seats .idle e))
    (fun p hp err => hp _) (fun c a c' ⟨T, hi⟩ hm hg => ?_) hrun
    ⟨T, fun A => ⟨A, trivial, rfl⟩⟩ fun err h => by cases h
  · obtain ⟨T', hi⟩ := hend
    exact ⟨⟨T'.batch.idle, T'.running, T'.owned, T'.order, T'.fits, T'.maxBatchSize, T'.alive⟩,
      fun A => ⟨(hi A).1, (hi A).2.2⟩⟩
  · refine ⟨T.micro hm, fun A => ?_⟩
    obtain ⟨A₀, hfull, heq⟩ := hi (T.advances hm hg A)
    obtain ⟨hfull', heq'⟩ := T.outlook_micro hfull hm hg A
    exact ⟨A₀, hfull', heq'.trans heq⟩

theorem Drained.nil (hd : Drained f) : f.scheduler.pending = [] ∧ f.activeSequences.entries = [] :=
  ⟨List.length_eq_zero_iff.mp hd.1, List.length_eq_zero_iff.mp hd.2⟩

/-- A drained engine has arrived. -/
theorem Drained.advances (hd : Drained f) : Advances f f := by
  refine ⟨fun _ _ => rfl, fun k q hq => ?_⟩
  have hmem := OrderedDict.get?_eq_some_iff.mp hq
  rw [hd.nil.2] at hmem
  exact absurd hmem List.not_mem_nil

theorem Drained.outlook (hd : Drained f) (seats : ℕ) : outlook f seats .idle f = 0 := by
  have hbusy : busy f f = [] := by rw [busy, OrderedDict.values, hd.nil.2]; rfl
  have hord : f.scheduler.ordered = [] := by rw [ordered, hd.nil.1]; rfl
  rw [Engine.outlook, hbusy, hord]
  refine Nat.le_zero.mp (latest_le fun m hm => ?_)
  have hzero : m ∈ List.replicate seats 0 := seated_nil seats ▸ hm
  exact (List.eq_of_mem_replicate hzero).le

/-- A loop that returns with the engine drained has counted as many iterations as there were to do. -/
theorem Scheduling.loop (hd : Drained f) : ∀ (n : ℕ) {e : Engine} {done : List SequenceState},
    Scheduling f seats acc .idle e → runLoop env n e = (.ok done, f) →
    Advances e f ∧ f.totalIterations = e.totalIterations + outlook f seats .idle e
  | 0, e, done, _, h => by
      obtain rfl : e = f := (Prod.mk.inj h).2
      exact ⟨hd.advances, by rw [hd.outlook, Nat.add_zero]⟩
  | n + 1, e, done, T, h => by
      obtain ⟨d, e₁, hs, hcase⟩ := runLoop_succ h
      obtain ⟨T₁, hstep⟩ := T.step hs
      obtain ⟨A₁, heq₁⟩ : Advances e₁ f ∧ f.totalIterations = e₁.totalIterations + outlook f seats .idle e₁ := by
        rcases hcase with ⟨-, -, rfl⟩ | ⟨-, rest, hl, -⟩
        · exact ⟨hd.advances, by rw [hd.outlook, Nat.add_zero]⟩
        · exact Scheduling.loop hd n T₁ hl
      obtain ⟨A, heq⟩ := hstep A₁
      exact ⟨A, heq₁.trans heq⟩

/-! ### Runs -/

variable {maxBatchSize maxQueueSize : ℤ} {defaultTimeout : ℚ} {policy : SchedulingPolicy}
  {numBlocks blockSize : ℕ} {evs : List Event}

theorem inOrder_of_run (hbs : 0 < blockSize) (hrun : Trace.Run (Step env)
      (new maxBatchSize maxQueueSize defaultTimeout policy numBlocks blockSize) evs e) :
    InOrder e.scheduler := by
  have hnew : InOrder (RequestScheduler.new maxQueueSize defaultTimeout policy) := List.Pairwise.nil
  refine hrun.invariant (I := fun _ e => InOrder e.scheduler) hnew ?_
  intro evs e ev e' hr h hst
  have B := batch_of_run hr
  cases ev with
  | submitRequest r req b =>
    obtain ⟨-, -, heq⟩ := hst
    obtain rfl := (Prod.mk.inj heq).2
    exact h.submit B.ledger req
  | cancelRequest k b =>
    obtain rfl := (Prod.mk.inj hst).2
    exact h.cancel env.clock k
  | step res =>
    obtain ⟨qs, ⟨as, hmicro, -⟩, -⟩ := step_leads hst
    have hend := hmicro.always (I := fun c : Point × Engine =>
      Batch (accepted evs) c.1 c.2 ∧ c.2.cacheManager.Owned ∧ InOrder c.2.scheduler)
      ⟨B, (consistent_of_calls hbs (calls_of_run hr)).1, h⟩
      fun c a c' ⟨B, O, h⟩ hm => ⟨B.micro hm, owned_micro O hm, inOrder_micro B O h hm⟩
    exact hend.2.2

/-- CORRECT: in a loop that drains the engine with nobody failing for lack of memory, the number of
    iterations is the makespan of the list schedule of the queue, in the order of its policy, on the
    seats of the batch, where a job is as long as the tokens the request completes with (none if it
    times out). From an empty batch this is at most what static batches take, and less than twice
    what any other assignment of the requests to the seats takes. -/
theorem iterations_eq_makespan (hbs : 0 < blockSize) {B : ℕ} (hB : 1 ≤ B)
    (hrun : Trace.Run (Step env) (new B maxQueueSize defaultTimeout policy numBlocks blockSize) evs e)
    (hrunning : ∀ k q, e.activeSequences.get? k = some q → e.scheduler.statusOf q.request = .RUNNING)
    {done : List SequenceState} (h : e.runUntilEmpty env = (.ok done, e')) (hd : Drained e')
    (halive : ∀ r, Holds .idle e r → e'.scheduler.statusOf r ≠ .FAILED) :
    let jobs := e.scheduler.sortPending.pending.map e'.tokensServed
    let n := makespan (seated B (busy e' e)) jobs
    e'.totalIterations = e.totalIterations + n ∧
    (e.batchSize = 0 → n ≤ batched B jobs ∧ jobs.sum ≤ B * n ∧
      ∀ parts : List (List ℕ), parts.length ≤ B → parts.flatten.Perm jobs →
        B * n ≤ (2 * B - 1) * latest (parts.map List.sum)) := by
  intro jobs n
  have hbatch := batch_of_run hrun
  obtain ⟨O, -, hmax⟩ := consistent_of_calls hbs (calls_of_run hrun)
  have hord := inOrder_of_run hbs hrun
  have hfits : Fits .idle e := by
    have := fits_of_run (Int.natCast_nonneg B) hrun
    rw [Fits, hmax]
    simpa [Point.todo] using this
  have hsort : e.scheduler.sortPending.pending = e.scheduler.ordered :=
    sortPending_ranked hbatch.ledger.pending_nodup hord
  have T : Scheduling e' B (accepted evs) .idle e := ⟨hbatch, hrunning, O, hord, hfits, hmax, halive⟩
  have hout : outlook e' B .idle e = n := by
    rw [outlook, Point.todo, List.map_nil, List.append_nil, ← hsort]
  refine ⟨hout ▸ (T.loop hd 10000 h).2, fun hzero => ?_⟩
  have hidle : seated B (busy e' e) = List.replicate B 0 := by
    rw [List.length_eq_zero_iff.mp ((length_busy e' e).trans hzero), seated_nil]
  have hn : n = makespan (List.replicate B 0) jobs := congrArg (makespan · jobs) hidle
  rw [hn]
  exact ⟨makespan_le_batched hB jobs, sum_le_mul_makespan hB jobs, fun parts => mul_makespan_le hB⟩

/-- Two seats and requests of three, one and two tokens: three iterations, where batches take five. -/
theorem iterations_eq_makespan_three :
    let env := Env.rowwise fun _ => [.negInf, .fin 0]
    let req : ScheduledRequest :=
      { requestId := "a", prompt := "p", maxTokens := 3, temperature := 0, createdAt := 0 }
    let e₁ := ((new (2 : ℕ) 8 60 .fcfs 8 2).submitRequest req).2
    let e₂ := (e₁.submitRequest { req with requestId := "b", maxTokens := 1 }).2
    let e₃ := (e₂.submitRequest { req with requestId := "c", maxTokens := 2 }).2
    (e₃.runUntilEmpty env).2.totalIterations = 3 ∧ batched 2 [3, 1, 2] = 5 := by
  intro env req e₁ e₂ e₃
  have hrun := Trace.Run.snoc (.snoc (.snoc .nil
    (step_submitRequest env (new (2 : ℕ) 8 60 .fcfs 8 2) req
      ⟨rfl, fun r hr => absurd hr (Nat.not_lt_zero r)⟩))
    (step_submitRequest env e₁ { req with requestId := "b", maxTokens := 1 } ⟨rfl, by decide +kernel⟩))
    (step_submitRequest env e₂ { req with requestId := "c", maxTokens := 2 } ⟨rfl, by decide +kernel⟩)
  have hheld : ∀ r, Holds .idle e₃ r → r ∈ [0, 1, 2] := by
    rintro r (hr | hr | ⟨k, q, hq, -⟩)
    · exact hr
    · cases hr
    · cases hq
  have hok : (e₃.runUntilEmpty env).1.toBool = true := by decide +kernel
  have hd : (e₃.runUntilEmpty env).2.scheduler.pendingCount = 0 ∧ (e₃.runUntilEmpty env).2.batchSize = 0 := by
    decide +kernel
  have halive : ∀ r ∈ [0, 1, 2], (e₃.runUntilEmpty env).2.scheduler.statusOf r ≠ .FAILED := by
    decide +kernel
  have hspan : makespan (seated 2 (busy (e₃.runUntilEmpty env).2 e₃))
      (e₃.scheduler.sortPending.pending.map (e₃.runUntilEmpty env).2.tokensServed) = 3 := by
    decide +kernel
  have hzero : e₃.totalIterations = 0 := rfl
  rcases hres : e₃.runUntilEmpty env with ⟨err | done, f⟩ <;> rw [hres] at hok hd halive hspan
  · cases hok
  · obtain ⟨heq, -⟩ := iterations_eq_makespan (by decide) (by decide) hrun (fun k q hq => by cases hq) hres hd
      fun r hr => halive r (hheld r hr)
    rw [hspan, hzero] at heq
    exact ⟨heq, by decide +kernel⟩

end Engine

end ModelServing
