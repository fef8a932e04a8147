import ModelServing.Engine.Schedule

/-! Bounded waiting. `A` is a set of requests that rank before all others: the batch at some moment and
    the queue up to some request. While they wait nobody else is seated, so counted over `A` alone the
    steps are rounds of a list schedule, however many others come and go. -/

namespace ModelServing

open StableSort

namespace Engine

open RequestScheduler

variable {env : Env} {e e₀ e' : Engine} {acc A : List Ref} {p p' : Point} {seats limit : ℕ} {top : ScheduledRequest}

/-- Those of `A` that wait, and the sequences of `A` with fewer than `j` tokens. -/
def youngOf (A : List Ref) (j : ℕ) (e : Engine) : ℕ :=
  e.scheduler.pending.countP (· ∈ A) +
    e.activeSequences.countP fun q => decide (q.request ∈ A ∧ q.generatedIds.length < j)

theorem youngOf_le (hpend : e'.scheduler.pending.countP (· ∈ A) ≤ e.scheduler.pending.countP (· ∈ A))
    {i j : ℕ} (hact : ∀ k q', e'.activeSequences.get? k = some q' → q'.request ∈ A →
      q'.generatedIds.length < i → ∃ q, e.activeSequences.get? k = some q ∧ q.request ∈ A ∧
        q.generatedIds.length < j) : youngOf A i e' ≤ youngOf A j e := by
  refine Nat.add_le_add hpend (OrderedDict.countP_le fun k q' hq' hlt => ?_)
  obtain ⟨hA, hlt⟩ := of_decide_eq_true hlt
  obtain ⟨q, hq, hqA, hlt'⟩ := hact k q' hq' hA hlt
  exact ⟨q, hq, decide_eq_true ⟨hqA, hlt'⟩⟩

theorem youngOf_zero (A : List Ref) (e : Engine) :
    youngOf A 0 e = e.scheduler.pending.countP (· ∈ A) := by
  simp [youngOf, OrderedDict.countP]

theorem youngOf_mono (A : List Ref) (e : Engine) {i j : ℕ} (h : i ≤ j) : youngOf A i e ≤ youngOf A j e :=
  youngOf_le le_rfl fun _ q hq hA hlt => ⟨q, hq, hA, hlt.trans_le h⟩

/-- The requests of `A` rank before all others, and while one of them waits the others get no seat. -/
structure Ahead (A : List Ref) (p : Point) (e : Engine) : Prop where
  order : ∀ a ∈ e.scheduler.pending, a ∈ A → ∀ b ∈ e.scheduler.pending, b ∉ A →
    Tiebreak e.scheduler.policyLe (· ≤ ·) a b
  seated : (∃ a ∈ e.scheduler.pending, a ∈ A) →
    (∀ r ∈ p.todo, r ∈ A) ∧ ∀ k q, e.activeSequences.get? k = some q → q.request ∈ A

theorem Ahead.same (H : Ahead A p e) (hpend : e'.scheduler.pending = e.scheduler.pending)
    (hle : ∀ a b, e'.scheduler.policyLe a b ↔ e.scheduler.policyLe a b)
    (hheld : (∀ r ∈ p.todo, r ∈ A) → (∀ k q, e.activeSequences.get? k = some q → q.request ∈ A) →
      (∀ r ∈ p'.todo, r ∈ A) ∧ ∀ k q, e'.activeSequences.get? k = some q → q.request ∈ A) :
    Ahead A p' e' := by
  refine ⟨fun a ha haA b hb hbA => ?_, fun hwait => ?_⟩
  · rw [hpend] at ha hb
    rw [Tiebreak, hle, hle]
    exact H.order a ha haA b hb hbA
  · rw [hpend] at hwait
    exact hheld (H.seated hwait).1 (H.seated hwait).2

/-- When some of `A` are left in the queue, all who are selected are of `A`. -/
theorem Ahead.selected (H : Ahead A .idle e) (L : Ledger acc e.scheduler) (C : Counted e.scheduler)
    (hord : InOrder e.scheduler) (clock : ℕ → ℚ) (n : ℕ)
    (hwait : ∃ a ∈ (e.scheduler.getNextBatch clock n).2.pending, a ∈ A) :
    ∀ r ∈ (e.scheduler.getNextBatch clock n).1, r ∈ A := by
  obtain ⟨hbatch, hpend⟩ := getNextBatch_ranked L C hord clock n
  have hmem : ∀ x ∈ e.scheduler.ranked clock, x ∈ e.scheduler.pending := fun x hx =>
    List.mem_of_mem_filter ((List.mem_insertionSort _).mp hx)
  obtain ⟨a, ha, haA⟩ := hwait
  rw [hpend] at ha
  intro b hb
  rw [hbatch] at hb
  by_contra hbA
  have hsort : ((e.scheduler.ranked clock).take n ++ (e.scheduler.ranked clock).drop n).Pairwise
      (Tiebreak e.scheduler.policyLe (· ≤ ·)) := by
    rw [List.take_append_drop]
    exact List.pairwise_insertionSort _ _
  have hba := (List.pairwise_append.mp hsort).2.2 b hb a ha
  have hab := H.order a (hmem a (List.mem_of_mem_drop ha)) haA b (hmem b (List.mem_of_mem_take hb)) hbA
  exact hbA (antisymm_of (Tiebreak e.scheduler.policyLe (· ≤ ·)) hab hba ▸ haA)

theorem Ahead.micro {a : Action} (H : Ahead A p e) (B : Batch acc p e) (O : e.cacheManager.Owned)
    (hord : InOrder e.scheduler) (h : Micro env (p, e) a (p', e')) : Ahead A p' e' := by
  have hle := policyLe_micro O h
  have horigin : ∀ k q', e'.activeSequences.get? k = some q' → Origin env (p, e) (p', e') k q' :=
    fun k q' hq' => h.origin hq'
  by_cases hp : p = .idle
  · subst hp
    cases h with
    | full _ => exact ⟨H.order, H.seated⟩
    | @select _ n _ _ =>
      have S := getNextBatch_selected B.ledger B.counted env.clock n
      refine ⟨fun a ha haA b hb hbA => ?_, fun hwait => ⟨?_, ?_⟩⟩
      · rw [Tiebreak, hle, hle]
        exact H.order a (S.pending a ha) haA b (S.pending b hb) hbA
      · exact H.selected B.ledger B.counted hord env.clock n hwait
      · obtain ⟨a, ha, haA⟩ := hwait
        exact (H.seated ⟨a, S.pending a ha, haA⟩).2
  · refine H.same (pending_micro hp h) hle fun htodo hact => ⟨fun r hr => ?_, fun k q' hq' => ?_⟩
    · cases h with
      | full _ | select _ _ => exact absurd rfl hp
      | tokenize _ | evict _ _ => exact htodo r hr
      | place _ | reject _ => exact htodo r (List.mem_cons_of_mem _ hr)
      | _ => cases hr
    · cases horigin k q' hq' with
      | kept hq => exact hact k q' hq
      | admitted _ => exact htodo _ List.mem_cons_self
      | @grown _ _ _ q _ _ _ _ _ hent _ =>
        rw [SequenceState.append_request]
        exact hact k q (OrderedDict.get?_eq_some_iff.mpr (List.mem_of_getElem? hent))

/-! ### One step -/

/-- The selected requests of `A` have not all been placed yet. -/
structure Boards (A : List Ref) (seats limit : ℕ) (e₀ : Engine) (todo : List Ref) (e : Engine) : Prop where
  waiting : e.scheduler.pending.countP (· ∈ A) ≤ youngOf A limit e₀ - seats
  young : ∀ j, youngOf A j e + todo.countP (· ∈ A) ≤ youngOf A j e₀

/-- Inside a step that starts at `e₀`. -/
def InTurn (A : List Ref) (seats limit : ℕ) (e₀ : Engine) (p : Point) (e : Engine) : Prop :=
  match p with
  | .idle => e = e₀
  | .admitting _ | .placing _ _ _ => Boards A seats limit e₀ p.todo e
  | .finishing ids => Rounds.Round (youngOf A) seats limit e₀ e ∧ Unspoiled ids e
  | .ended none => Rounds.Round (youngOf A) seats limit e₀ e ∧ Unspoiled [] e
  | .ended (some _) => True

/-- Between two steps: those of `A` come first, those of them in the queue before any request ranked
    like `top`, all have tokens left, and none of them is lost. -/
structure Queued (A : List Ref) (seats limit : ℕ) (top : ScheduledRequest) (acc : List Ref) (e : Engine) :
    Prop where
  batch : Batch acc .idle e
  owned : e.cacheManager.Owned
  order : InOrder e.scheduler
  maxBatchSize : e.maxBatchSize = seats
  ahead : Ahead A .idle e
  known : ∀ r ∈ A, r ∈ acc
  key : ∀ r ∈ e.scheduler.pending, r ∈ A → e.scheduler.schedulingPolicy = .priority →
    (e.request r).keyLe top
  capped : ∀ r ∈ A, (e.request r).maxTokens ≤ limit
  unspent : ∀ k q, e.activeSequences.get? k = some q → q.request ∈ A → q.generatedIds.length < limit
  aboard : ∀ r ∈ A, Aboard r .idle e

/-- While some of `A` wait, they fill the batch. -/
theorem Queued.youngOf_eq (T : Queued A seats limit top acc e) (h : ∃ a ∈ e.scheduler.pending, a ∈ A) :
    youngOf A limit e = e.scheduler.pending.countP (· ∈ A) + e.batchSize := by
  rw [youngOf, OrderedDict.countP_eq_size fun k q hq => ?_]
  · rfl
  · have hA := (T.ahead.seated h).2 k q hq
    exact decide_eq_true ⟨hA, T.unspent k q hq hA⟩

theorem exists_of_countP {l : List Ref} (h : 0 < l.countP (· ∈ A)) : ∃ a ∈ l, a ∈ A := by
  obtain ⟨a, ha, hA⟩ := List.countP_pos_iff.mp h
  exact ⟨a, ha, of_decide_eq_true hA⟩

theorem Queued.select {n : ℕ} (T : Queued A seats limit top acc e) (hslots : e.maxBatchSize = e.batchSize + n) :
    Boards A seats limit e (e.scheduler.getNextBatch env.clock n).1
      { e with scheduler := (e.scheduler.getNextBatch env.clock n).2 } := by
  obtain ⟨hbatch, hpend⟩ := getNextBatch_ranked T.batch.ledger T.batch.counted T.order env.clock n
  have hmax := T.maxBatchSize
  have hlive : (e.scheduler.ranked env.clock).countP (· ∈ A) ≤ e.scheduler.pending.countP (· ∈ A) := by
    rw [ranked, (List.perm_insertionSort _ _).countP_eq]
    exact List.filter_sublist.countP_le
  have hsplit : (e.scheduler.getNextBatch env.clock n).1.countP (· ∈ A) +
      (e.scheduler.getNextBatch env.clock n).2.pending.countP (· ∈ A) =
        (e.scheduler.ranked env.clock).countP (· ∈ A) := by
    rw [hbatch, hpend, ← List.countP_append, List.take_append_drop]
  constructor
  · change (e.scheduler.getNextBatch env.clock n).2.pending.countP (· ∈ A) ≤ _
    rcases Nat.eq_zero_or_pos ((e.scheduler.getNextBatch env.clock n).2.pending.countP (· ∈ A)) with
      hzero | hpos
    · omega
    · have hwait := exists_of_countP hpos
      have hall := T.ahead.selected T.batch.ledger T.batch.counted T.order env.clock n hwait
      have hcount : (e.scheduler.getNextBatch env.clock n).1.countP (· ∈ A) = n := by
        rw [List.countP_eq_length.mpr fun r hr => decide_eq_true (hall r hr), hbatch, List.length_take]
        obtain ⟨a, ha, -⟩ := hwait
        rw [hpend] at ha
        have := List.length_pos_of_mem ha
        rw [List.length_drop] at this
        omega
      have hyoung := T.youngOf_eq (exists_of_countP (by omega))
      omega
  · intro j
    rw [youngOf, youngOf, Nat.add_right_comm]
    refine Nat.add_le_add ?_ le_rfl
    change (e.scheduler.getNextBatch env.clock n).2.pending.countP (· ∈ A) + _ ≤ _
    omega

theorem Boards.mono {todo todo' : List Ref} (S : Boards A seats limit e₀ todo e)
    (hpend : e'.scheduler.pending = e.scheduler.pending)
    (hy : ∀ j, youngOf A j e' + todo'.countP (· ∈ A) ≤ youngOf A j e + todo.countP (· ∈ A)) :
    Boards A seats limit e₀ todo' e' :=
  ⟨hpend ▸ S.waiting, fun j => (hy j).trans (S.young j)⟩

theorem Boards.fewer {todo todo' : List Ref} (S : Boards A seats limit e₀ todo e)
    (htodo : todo'.Sublist todo) (hpend : e'.scheduler.pending = e.scheduler.pending)
    (hact : ∀ k q, e'.activeSequences.get? k = some q → e.activeSequences.get? k = some q) :
    Boards A seats limit e₀ todo' e' :=
  S.mono hpend fun _ => Nat.add_le_add (youngOf_le (hpend ▸ le_rfl)
    fun k q hq hA hlt => ⟨q, hact k q hq, hA, hlt⟩) htodo.countP_le

/-- When everybody has had a token, or nobody is there to have one. -/
theorem Boards.round {todo : List Ref} (S : Boards A seats limit e₀ todo e)
    (hy : ∀ j, youngOf A (j + 1) e' ≤ youngOf A j e) : Rounds.Round (youngOf A) seats limit e₀ e' :=
  ⟨fun j => (hy j).trans ((Nat.le_add_right _ _).trans (S.young j)),
    (hy 0).trans ((youngOf_zero A e).le.trans S.waiting)⟩

theorem InTurn.micro {a : Action} (S : InTurn A seats limit e₀ p e) (T : Queued A seats limit top acc e₀)
    (h : Micro env (p, e) a (p', e')) : InTurn A seats limit e₀ p' e' := by
  have hpend : p ≠ .idle → e'.scheduler.pending = e.scheduler.pending := fun hp => pending_micro hp h
  have horigin : ∀ k q, e'.activeSequences.get? k = some q → Origin env (p, e) (p', e') k q :=
    fun _ _ hq => h.origin hq
  have hreq := h.stable _ RequestScheduler.stable_maxTokens
  cases h with
  | full hfull =>
    obtain rfl : e = e₀ := S
    refine ⟨?_, fun j => le_rfl⟩
    have hmax := T.maxBatchSize
    rcases Nat.eq_zero_or_pos (e.scheduler.pending.countP (· ∈ A)) with hzero | hpos
    · omega
    · have := T.youngOf_eq (exists_of_countP hpos)
      omega
  | select hslots hn =>
    obtain rfl : e = e₀ := S
    exact T.select hslots
  | tokenize _ => exact Boards.fewer S (.refl _) rfl fun _ _ => id
  | reject _ => exact Boards.fewer S (List.sublist_cons_self _ _) rfl fun _ _ => id
  | @place _ r rs inputIds _ cache _ =>
    refine Boards.mono S rfl fun j => ?_
    have hins := e.activeSequences.countP_insert_le (e.request r).requestId
      { request := r, inputIds := inputIds } fun q => decide (q.request ∈ A ∧ q.generatedIds.length < j)
    by_cases hA : r ∈ A
    · have hcons : (Point.placing r inputIds rs).todo.countP (· ∈ A) = rs.countP (· ∈ A) + 1 :=
        List.countP_cons_of_pos (decide_eq_true hA)
      have hyoung : youngOf A j ((e.withCache cache).activate r inputIds) ≤ youngOf A j e + 1 := by
        rw [youngOf, youngOf, Nat.add_assoc]
        exact Nat.add_le_add le_rfl hins
      change _ + rs.countP (· ∈ A) ≤ _
      omega
    · have hle : ((e.withCache cache).activate r inputIds).scheduler.pending.countP (· ∈ A) ≤
          e.scheduler.pending.countP (· ∈ A) := le_rfl
      refine Nat.add_le_add (youngOf_le hle fun k q hq hqA hlt => ?_)
        (List.sublist_cons_self _ _).countP_le
      rw [get?_activate] at hq
      split at hq
      · cases hq
        exact absurd hqA hA
      · exact ⟨q, hq, hqA, hlt⟩
  | evict _ _ =>
    refine Boards.fewer S (.refl _) (hpend Point.noConfusion) fun k q hq => ?_
    cases horigin k q hq with
    | kept h => exact h
  | rest hkeys =>
    have hnone : ∀ k q, e.activeSequences.get? k ≠ some q := fun k q hq => by
      have hk := OrderedDict.mem_keys_of_get? hq
      rw [hkeys] at hk
      exact List.not_mem_nil hk
    exact ⟨Boards.round S fun j => youngOf_le le_rfl fun k q hq => absurd hq (hnone k q),
      fun k q hq => absurd hq (hnone k q)⟩
  | append _ _ hs =>
    have happ := appendAll_appended hs
    refine ⟨Boards.round S fun j => youngOf_le (by rw [happ.scheduler]) fun k q' hq' hA hlt => ?_,
      unspoiled_appended happ⟩
    obtain ⟨q, t, hq, rfl⟩ := happ.get_old hq'
    rw [SequenceState.append_generatedIds, List.length_append, List.length_singleton] at hlt
    rw [SequenceState.append_request] at hA
    exact ⟨q, hq, hA, by omega⟩
  | finish hf =>
    obtain ⟨R, N⟩ := S
    obtain ⟨-, text, -, rfl⟩ := finish_ok hf
    refine ⟨?_, N.finish hreq rfl⟩
    have hy : ∀ j, youngOf A j _ ≤ youngOf A j e := fun j => by
      refine youngOf_le (by rw [hpend Point.noConfusion]) fun k q hq hA hlt => ?_
      cases horigin k q hq with
      | kept h => exact ⟨q, h, hA, hlt⟩
    exact ⟨fun j => (hy _).trans (R.turn j), (hy 1).trans R.waiting⟩
  | done => exact S
  | raiseTokenizer _ | raiseEvict _ | raiseModel _ _ | raiseSampler _ _ _ | raiseFinish _ => trivial

/-! ### What happens between the steps -/

/-- Nothing assigns to what a request is ranked by. -/
theorem keyLe_stable {q q' : ScheduledRequest}
    (h : ∀ {β : Type} (g : ScheduledRequest → β), Stable g → g q' = g q) : q'.keyLe top ↔ q.keyLe top := by
  have hprio := h ScheduledRequest.priority (by constructor <;> intros <;> rfl)
  have hcreated := h ScheduledRequest.createdAt (by constructor <;> intros <;> rfl)
  rw [ScheduledRequest.keyLe, ScheduledRequest.keyLe, hprio, hcreated]

/-- A step that returns is a round. -/
theorem Queued.step {done : List SequenceState} (T : Queued A seats limit top acc e)
    (h : e.step env = (.ok done, e')) :
    Queued A seats limit top acc e' ∧ Rounds.Round (youngOf A) seats limit e e' := by
  obtain ⟨qs, ⟨as, hrun, -⟩, -⟩ := step_leads h
  have hend := hrun.always (I := fun c : Point × Engine => InTurn A seats limit e c.1 c.2 ∧
    (Batch acc c.1 c.2 ∧ c.2.cacheManager.Owned ∧ InOrder c.2.scheduler ∧ Ahead A c.1 c.2) ∧
    c.2.settings = e.settings ∧ (∀ r ∈ c.2.scheduler.pending, r ∈ e.scheduler.pending) ∧
    ∀ r, (c.2.request r).maxTokens = (e.request r).maxTokens ∧
      ((c.2.request r).keyLe top ↔ (e.request r).keyLe top))
    ⟨show InTurn A seats limit e .idle e from rfl, ⟨T.batch, T.owned, T.order, T.ahead⟩, rfl,
      fun _ => id, fun _ => ⟨rfl, Iff.rfl⟩⟩ ?_
  · obtain ⟨⟨R, N⟩, ⟨B, O, hord, H⟩, hset, hpend, hreq⟩ := hend
    have hpolicy := congrArg (fun s => s.2.1.2.2) hset
    refine ⟨⟨B.idle, O, hord, (congrArg Prod.fst hset).trans T.maxBatchSize, ⟨H.order, H.seated⟩, T.known,
      fun r hr hA hp => ?_, fun r hA => ?_, fun k q hq hA => ?_, fun r hr => (T.aboard r hr).step T.batch h⟩, R⟩
    · exact (hreq r).2.mpr (T.key r (hpend r hr) hA (hpolicy.symm.trans hp))
    · exact (hreq r).1.trans_le (T.capped r hA)
    · have hlt := N k q hq List.not_mem_nil
      rw [(hreq q.request).1] at hlt
      exact hlt.trans_le (T.capped _ hA)
  · rintro ⟨p, x⟩ a ⟨p', x'⟩ ⟨S, ⟨B, O, hord, H⟩, hset, hpend, hreq⟩ hm
    refine ⟨S.micro T hm, ⟨B.micro hm, owned_micro O hm, inOrder_micro B O hord hm, H.micro B O hord hm⟩,
      (settings_micro O hm).trans hset, fun r hr => ?_, fun r => ⟨?_, ?_⟩⟩
    · by_cases hp : p = .idle
      · subst hp
        cases hm with
        | full _ => exact hpend r hr
        | @select _ n _ _ =>
          exact hpend r ((getNextBatch_selected B.ledger B.counted env.clock n).pending r hr)
      · exact hpend r (pending_micro hp hm ▸ hr)
    · exact (hm.stable _ stable_maxTokens r).trans (hreq r).1
    · exact (keyLe_stable fun g hg => hm.stable g hg r).trans (hreq r).2

theorem policy_submit (e : Engine) (req : ScheduledRequest) :
    (e.submitRequest req).2.scheduler.schedulingPolicy = e.scheduler.schedulingPolicy := by
  change (e.scheduler.submitNew req).2.schedulingPolicy = _
  rcases submitNew_cases e.scheduler req with ⟨-, heq⟩ | ⟨-, t, heq⟩ <;> rw [heq]

theorem policy_cancel (env : Env) (e : Engine) (k : String) :
    (e.cancelRequest env k).2.scheduler.schedulingPolicy = e.scheduler.schedulingPolicy := by
  change (e.scheduler.cancelRequest env.clock k).2.schedulingPolicy = _
  unfold RequestScheduler.cancelRequest
  split
  · rfl
  · split <;> rfl

theorem policy_step {ev : Event} (O : e.cacheManager.Owned) (h : Step env e ev e') :
    e'.scheduler.schedulingPolicy = e.scheduler.schedulingPolicy := by
  cases ev with
  | submitRequest r req b =>
    obtain ⟨-, -, heq⟩ := h
    obtain rfl := (Prod.mk.inj heq).2
    exact policy_submit e req
  | cancelRequest k b =>
    obtain rfl := (Prod.mk.inj h).2
    exact policy_cancel env e k
  | step res =>
    obtain ⟨qs, ⟨as, hrun, -⟩, -⟩ := step_leads h
    have hend := hrun.always (I := fun c : Point × Engine => c.2.cacheManager.Owned ∧ c.2.settings = e.settings)
      ⟨O, rfl⟩ fun c a c' ⟨O, hs⟩ hm => ⟨owned_micro O hm, (settings_micro O hm).trans hs⟩
    exact congrArg (fun s => s.2.1.2.2) hend.2

theorem Queued.submit (T : Queued A seats limit top acc e) {req : ScheduledRequest}
    (hf : Fresh e.scheduler req)
    (htop : e.scheduler.schedulingPolicy = .priority → top.keyLe req) :
    Queued A seats limit top (acc ++ e.scheduler.queued (e.submitRequest req).1) (e.submitRequest req).2 ∧
      ∀ j, youngOf A j (e.submitRequest req).2 ≤ youngOf A j e := by
  have D := submitNew_added e.scheduler req
  have hpend : (e.submitRequest req).2.scheduler.pending =
      e.scheduler.pending ++ e.scheduler.queued (e.submitRequest req).1 := D.pending
  have hpolicy := policy_submit e req
  have hlt : ∀ a ∈ A, a < e.scheduler.requests.next := fun a ha => T.batch.ledger.lt_next a (T.known a ha)
  have hold : ∀ x, x < e.scheduler.requests.next → (e.submitRequest req).2.request x = e.request x := D.old
  have hqueue : ∀ a, a ∈ (e.submitRequest req).2.scheduler.pending → a ∈ A → a ∈ e.scheduler.pending := by
    intro a ha hA
    rw [hpend] at ha
    refine (List.mem_append.mp ha).resolve_right fun hnew => ?_
    exact absurd (hlt a hA) (eq_of_mem_queued hnew ▸ Nat.lt_irrefl _)
  refine ⟨⟨T.batch.submit hf, T.owned, T.order.submit T.batch.ledger req, T.maxBatchSize, ⟨?_, ?_⟩, ?_, ?_, ?_,
    T.unspent, fun r hA => (T.aboard r hA).submit (hlt r hA) req⟩, fun j => Nat.add_le_add ?_ le_rfl⟩
  · intro a ha haA b hb hbA
    have hap := hqueue a ha haA
    have hkey : ∀ x, x < e.scheduler.requests.next → ∀ y, y < e.scheduler.requests.next →
        ((e.submitRequest req).2.scheduler.policyLe x y ↔ e.scheduler.policyLe x y) := by
      intro x hx y hy
      exact policyLe_congr hpolicy (by rw [← request, ← request, hold x hx, hold y hy]; rfl)
    rw [hpend] at hb
    rcases List.mem_append.mp hb with hb | hb
    · have hblt := T.batch.ledger.lt_next b (T.batch.ledger.pending b hb).1
      rw [Tiebreak, hkey a (hlt a haA) b hblt, hkey b hblt a (hlt a haA)]
      exact T.ahead.order a hap haA b hb hbA
    · obtain rfl := eq_of_mem_queued hb
      refine ⟨fun hp => ?_, fun _ => (hlt a haA).le⟩
      obtain ⟨t, ht⟩ := D.request
      rw [hpolicy] at hp
      have hle := ScheduledRequest.keyLe_trans (T.key a hap haA hp) (htop hp)
      change ((e.submitRequest req).2.request a).keyLe ((e.scheduler.submitNew req).2.request _)
      rw [hold a (hlt a haA), ht]
      exact hle
  · rintro ⟨a, ha, haA⟩
    exact T.ahead.seated ⟨a, hqueue a ha haA, haA⟩
  · exact fun r hr => List.mem_append_left _ (T.known r hr)
  · intro r hr hA hp
    rw [hold r (hlt r hA)]
    exact T.key r (hqueue r hr hA) hA (hpolicy ▸ hp)
  · intro r hA
    rw [hold r (hlt r hA)]
    exact T.capped r hA
  · rw [hpend, List.countP_append]
    have hnone : (e.scheduler.queued (e.submitRequest req).1).countP (· ∈ A) = 0 := by
      refine List.countP_eq_zero.mpr fun x hx hA => ?_
      exact absurd (hlt x (of_decide_eq_true hA)) (eq_of_mem_queued hx ▸ Nat.lt_irrefl _)
    omega

theorem Queued.cancel (T : Queued A seats limit top acc e) (env : Env) (k : String) :
    Queued A seats limit top acc (e.cancelRequest env k).2 ∧
      ∀ j, youngOf A j (e.cancelRequest env k).2 ≤ youngOf A j e := by
  obtain ⟨hsub, -, hstable⟩ := cancelRequest_frame env.clock e.scheduler k
  have hpolicy := policy_cancel env e k
  have hle : ∀ a b, (e.cancelRequest env k).2.scheduler.policyLe a b ↔ e.scheduler.policyLe a b :=
    fun a b => policyLe_congr hpolicy (keyLe_congr hstable a b)
  have hprio : ∀ r, ((e.cancelRequest env k).2.request r).keyLe top ↔ (e.request r).keyLe top :=
    fun r => keyLe_stable fun g hg => hstable g hg r
  refine ⟨⟨T.batch.cancel env k, T.owned, T.order.cancel env.clock k, T.maxBatchSize, ⟨?_, ?_⟩, T.known, ?_, ?_,
    T.unspent, fun r hA => (T.aboard r hA).cancel T.batch env k⟩, fun j => Nat.add_le_add hsub.countP_le le_rfl⟩
  · intro a ha haA b hb hbA
    rw [Tiebreak, hle, hle]
    exact T.ahead.order a (hsub.subset ha) haA b (hsub.subset hb) hbA
  · rintro ⟨a, ha, haA⟩
    exact T.ahead.seated ⟨a, hsub.subset ha, haA⟩
  · exact fun r hr hA hp => (hprio r).mpr (T.key r (hsub.subset hr) hA (hpolicy ▸ hp))
  · exact fun r hA => (hstable _ stable_maxTokens r).trans_le (T.capped r hA)

/-! ### Runs -/

def Event.isStep : Event → Bool
  | .step _ => true
  | .submitRequest _ _ _ | .cancelRequest _ _ => false

variable {maxQueueSize : ℤ} {defaultTimeout : ℚ} {policy : SchedulingPolicy} {numBlocks blockSize : ℕ}
  {evs evs' : List Event}

/-- Every call keeps those of `A` in front, and every step is one round less to wait. -/
theorem Queued.event {ev : Event} {m : ℕ} (T : Queued A seats limit top (accepted evs) e) (hs : 0 < seats)
    (hl : 0 < limit) (hst : Step env e ev e') (hquiet : ∀ err, ev ≠ .step (.error err))
    (htop : ∀ x req b, ev = .submitRequest x req b → e.scheduler.schedulingPolicy = .priority → top.keyLe req)
    (D : Rounds.Due (youngOf A) seats limit e m) :
    Queued A seats limit top (accepted (evs ++ [ev])) e' ∧
      Rounds.Due (youngOf A) seats limit e' (m - [ev].countP Event.isStep) := by
  rw [accepted_append]
  cases ev with
  | submitRequest r req b =>
    obtain ⟨hf, rfl, heq⟩ := hst
    obtain ⟨rfl, rfl⟩ := Prod.mk.inj heq
    obtain ⟨T', hle⟩ := T.submit hf (htop _ req _ rfl)
    rw [accepted_submitRequest]
    exact ⟨T', D.mono hle⟩
  | cancelRequest k b =>
    obtain rfl := (Prod.mk.inj hst).2
    obtain ⟨T', hle⟩ := T.cancel env k
    rw [show accepted [Event.cancelRequest k b] = [] from rfl, List.append_nil]
    exact ⟨T', D.mono hle⟩
  | step res =>
    rw [show accepted [Event.step res] = [] from rfl, List.append_nil]
    cases res with
    | error err => exact absurd rfl (hquiet err)
    | ok done =>
      obtain ⟨T', R⟩ := T.step hst
      exact ⟨T', D.pred hs hl (youngOf_mono A e' (Nat.le_succ limit)) R⟩

theorem Queued.run {m : ℕ} (T : Queued A seats limit top (accepted evs) e) (hs : 0 < seats) (hl : 0 < limit)
    (hrun : Trace.Run (Step env) e evs' e') (hquiet : Quiet evs')
    (htop : ∀ x req b, .submitRequest x req b ∈ evs' → e.scheduler.schedulingPolicy = .priority → top.keyLe req)
    (D : Rounds.Due (youngOf A) seats limit e m) : Queued A seats limit top (accepted (evs ++ evs')) e' ∧
      Rounds.Due (youngOf A) seats limit e' (m - evs'.countP Event.isStep) := by
  have hinv := hrun.invariant (I := fun evs' e' => Quiet evs' →
    (∀ x req b, .submitRequest x req b ∈ evs' → e.scheduler.schedulingPolicy = .priority → top.keyLe req) →
    Queued A seats limit top (accepted (evs ++ evs')) e' ∧
    e'.scheduler.schedulingPolicy = e.scheduler.schedulingPolicy ∧
    Rounds.Due (youngOf A) seats limit e' (m - evs'.countP Event.isStep)) ?_ ?_
  · exact ⟨(hinv hquiet htop).1, (hinv hquiet htop).2.2⟩
  · exact fun _ _ => ⟨by rwa [List.append_nil], rfl, D⟩
  · intro evs₁ e₁ ev e₂ _ hi hst hquiet htop
    have hleft : ∀ x ∈ evs₁, x ∈ evs₁ ++ [ev] := fun _ => List.mem_append_left _
    have hlast : ev ∈ evs₁ ++ [ev] := List.mem_append_right _ List.mem_cons_self
    obtain ⟨T₁, hpolicy, D₁⟩ := hi (fun err h => hquiet err (hleft _ h))
      fun x req b h => htop x req b (hleft _ h)
    have hend := T₁.event hs hl hst (fun err h => hquiet err (h ▸ hlast))
      (fun x req b h hp => htop x req b (h ▸ hlast) (hpolicy ▸ hp)) D₁
    refine ⟨?_, (policy_step T₁.owned hst).trans hpolicy, ?_⟩
    · rw [← List.append_assoc]
      exact hend.1
    · rw [List.countP_append, Nat.sub_add_eq]
      exact hend.2

theorem policy_of_run {maxBatchSize : ℤ} (hbs : 0 < blockSize) (hrun : Trace.Run (Step env)
      (new maxBatchSize maxQueueSize defaultTimeout policy numBlocks blockSize) evs e) :
    e.scheduler.schedulingPolicy = policy := by
  refine hrun.invariant (I := fun _ e => e.scheduler.schedulingPolicy = policy) rfl ?_
  exact fun evs e ev e' hr h hst => (policy_step (consistent_of_calls hbs (calls_of_run hr)).1 hst).trans h

/-- The requests before `r`, and `r`, where the queue is `front ++ r :: rest`. -/
def upTo (e : Engine) (front : List Ref) (r : Ref) : List Ref :=
  e.activeSequences.values.map SequenceState.request ++ (front ++ [r])

theorem mem_upTo {front : List Ref} {r x : Ref} (h : x ∈ upTo e front r) :
    (∃ k q, e.activeSequences.get? k = some q ∧ q.request = x) ∨ x ∈ front ++ [r] := by
  refine (List.mem_append.mp h).imp (fun hact => ?_) id
  obtain ⟨q, hq, rfl⟩ := List.mem_map.mp hact
  obtain ⟨k, hk⟩ := OrderedDict.mem_values_iff.mp hq
  exact ⟨k, q, hk, rfl⟩

/-- They are queued as they should be, and not more than are in front of `r` or in the batch. -/
theorem Queued.start (hbs : 0 < blockSize) {B M : ℕ}
    (hrun : Trace.Run (Step env) (new B maxQueueSize defaultTimeout policy numBlocks blockSize) evs e)
    {front rest : List Ref} {r : Ref} (hqueue : e.scheduler.sortPending.pending = front ++ r :: rest)
    (hcap : ∀ x ∈ front ++ [r], (e.request x).maxTokens ≤ M)
    (hactive : ∀ k q, e.activeSequences.get? k = some q →
      q.generatedIds.length < M ∧ (e.request q.request).maxTokens ≤ M) :
    Queued (upTo e front r) B M (e.request r) (accepted evs) e ∧
      youngOf (upTo e front r) M e ≤ front.length + 1 + e.batchSize := by
  have hbatch := batch_of_run hrun
  obtain ⟨O, -, hmax⟩ := consistent_of_calls hbs (calls_of_run hrun)
  have hord := inOrder_of_run hbs hrun
  have hsort : e.scheduler.sortPending.pending = e.scheduler.ordered :=
    sortPending_ranked hbatch.ledger.pending_nodup hord
  have hsplit : e.scheduler.ordered = front ++ [r] ++ rest := by
    rw [← hsort, hqueue, List.append_assoc]
    rfl
  have hperm : e.scheduler.pending.Perm (front ++ [r] ++ rest) := by
    rw [← hsplit]
    exact (List.perm_insertionSort _ _).symm
  have hranked : (front ++ [r] ++ rest).Pairwise (Tiebreak e.scheduler.policyLe (· ≤ ·)) := by
    rw [← hsplit]
    exact List.pairwise_insertionSort _ _
  obtain ⟨hahead, -, hcross⟩ := List.pairwise_append.mp hranked
  have hdisjoint := List.disjoint_of_nodup_append (hperm.nodup_iff.mp hbatch.ledger.pending_nodup)
  have hwaiting : ∀ a ∈ e.scheduler.pending, a ∈ upTo e front r → a ∈ front ++ [r] := by
    intro a ha haA
    refine (mem_upTo haA).resolve_left ?_
    rintro ⟨k, q, hk, rfl⟩
    exact hbatch.not_pending hk ha
  have hbefore : ∀ a ∈ front ++ [r], e.scheduler.policyLe a r := by
    intro a ha
    rcases List.mem_append.mp ha with ha | ha
    · exact ((List.pairwise_append.mp hahead).2.2 a ha r List.mem_cons_self).1
    · rw [List.mem_singleton.mp ha]
      exact refl_of e.scheduler.policyLe r
  have hrest : rest.countP (· ∈ upTo e front r) = 0 := by
    refine List.countP_eq_zero.mpr fun x hx hxA => ?_
    have hpend := hperm.mem_iff.mpr (List.mem_append_right (front ++ [r]) hx)
    exact hdisjoint (hwaiting x hpend (of_decide_eq_true hxA)) hx
  refine ⟨⟨hbatch, O, hord, hmax, ⟨fun a ha haA b hb hbA => ?_, fun _ => ⟨?_, fun k q hq => ?_⟩⟩, fun x hx => ?_,
    fun a ha haA hp => hbefore a (hwaiting a ha haA) hp, fun x hx => ?_, fun k q hq _ => (hactive k q hq).1, fun x hx hst => ?_⟩, ?_⟩
  · refine hcross a (hwaiting a ha haA) b ?_
    exact (List.mem_append.mp (hperm.mem_iff.mp hb)).resolve_left fun h => hbA (List.mem_append_right _ h)
  · exact fun x hx => absurd hx List.not_mem_nil
  · exact List.mem_append_left _ (List.mem_map_of_mem (OrderedDict.mem_values_iff.mpr ⟨k, hq⟩))
  · rcases mem_upTo hx with ⟨k, q, hq, rfl⟩ | hx
    · exact (hbatch.active k q hq).1
    · exact (hbatch.ledger.pending x (hperm.mem_iff.mpr (List.mem_append_left _ hx))).1
  · rcases mem_upTo hx with ⟨k, q, hq, rfl⟩ | hx
    · exact (hactive k q hq).2
    · exact hcap x hx
  · -- in the batch, or still waiting
    rcases mem_upTo hx with ⟨k, q, hq, rfl⟩ | hx
    · exact Or.inr ⟨k, q, hq, rfl⟩
    · have hpend := (hbatch.ledger.pending x (hperm.mem_iff.mpr (List.mem_append_left _ hx))).2
      exact absurd (hpend.symm.trans hst) (by decide)
  · refine Nat.add_le_add ?_ (List.countP_le_length.trans (List.length_map _).le)
    rw [hperm.countP_eq, List.countP_append, hrest, Nat.add_zero]
    exact List.countP_le_length.trans List.length_append.le

/-- Whoever is neither queued nor in the batch has ended. -/
theorem Queued.ended {r : Ref} (T : Queued A seats limit top acc e) (hr : r ∈ A)
    (hnone : youngOf A limit e = 0) : (e.scheduler.statusOf r).terminal = true := by
  obtain ⟨hqueued, hbusy⟩ : e.scheduler.pending.countP (· ∈ A) = 0 ∧
    e.activeSequences.countP (fun q => decide (q.request ∈ A ∧ q.generatedIds.length < limit)) = 0 :=
    Nat.add_eq_zero_iff.mp hnone
  cases hst : e.scheduler.statusOf r with
  | PENDING =>
    have hpend := T.batch.ledger.pending_of_status (T.known r hr) hst
    exact absurd (decide_eq_true hr) (List.countP_eq_zero.mp hqueued r hpend)
  | RUNNING =>
    rcases T.aboard r hr hst with h | ⟨k, q, hq, rfl⟩
    · cases h
    · have hmem := OrderedDict.mem_values_iff.mpr ⟨k, hq⟩
      have hyoung := decide_eq_true (And.intro hr (T.unspent k q hq hr))
      exact absurd hyoung (List.countP_eq_zero.mp hbusy q hmem)
  | COMPLETED | CANCELLED | FAILED => rfl

/-- CORRECT: nobody waits for ever. After any run, take a request of the queue, at any place in the
    order of the policy. Whatever is submitted and cancelled from then on (under `priority`, as long as
    nobody submitted later ranks before it), once as many steps have returned as `M` for each batch that
    those before it and itself fill, where none of them asks for more than `M` tokens, it has ended. -/
theorem served_in_turn (hbs : 0 < blockSize) {B M : ℕ} (hB : 1 ≤ B) (hM : 1 ≤ M)
    (hrun : Trace.Run (Step env) (new B maxQueueSize defaultTimeout policy numBlocks blockSize) evs e)
    {front rest : List Ref} {r : Ref} (hqueue : e.scheduler.sortPending.pending = front ++ r :: rest)
    (hcap : ∀ x ∈ front ++ [r], (e.request x).maxTokens ≤ M)
    (hactive : ∀ k q, e.activeSequences.get? k = some q →
      q.generatedIds.length < M ∧ (e.request q.request).maxTokens ≤ M)
    (hlater : Trace.Run (Step env) e evs' e') (hquiet : Quiet evs')
    (hbehind : ∀ x req b, .submitRequest x req b ∈ evs' → policy = .priority → (e.request r).keyLe req)
    (hsteps : (front.length + 1 + e.batchSize) ⌈/⌉ B * M ≤ evs'.countP Event.isStep) :
    (e'.scheduler.statusOf r).terminal = true := by
  obtain ⟨T, hcount⟩ := Queued.start hbs hrun hqueue hcap hactive
  have hdue : Rounds.Due (youngOf (upTo e front r)) B M e ((front.length + 1 + e.batchSize) ⌈/⌉ B * M) :=
    ⟨M, _, le_rfl, hcount, by omega⟩
  obtain ⟨T', hend⟩ := T.run hB hM hlater hquiet
    (fun x req b h hp => hbehind x req b h (policy_of_run hbs hrun ▸ hp)) hdue
  rw [Nat.sub_eq_zero_of_le hsteps] at hend
  have hr : r ∈ upTo e front r := List.mem_append_right _ (List.mem_append_right _ List.mem_cons_self)
  exact T'.ended hr (hend.done hB hM)

/-- A request is lost because the tokenizer raises. Of the next two, of two tokens each and for one seat,
    the second has ended after four steps, although another was submitted meanwhile. -/
theorem served_in_turn_two :
    let rowwise := Env.rowwise fun _ => [.negInf, .fin 0]
    let env := { rowwise with
      tokenizer := fun i prompt n => if i = 0 then none else rowwise.tokenizer i prompt n }
    let req : ScheduledRequest :=
      { requestId := "lost", prompt := "p", maxTokens := 2, temperature := 0, createdAt := 0 }
    let e₁ := ((new (1 : ℕ) 8 60 .fcfs 8 2).submitRequest req).2
    let e₂ := (e₁.step env).2
    let e₃ := (e₂.submitRequest { req with requestId := "a" }).2
    let e := (e₃.submitRequest { req with requestId := "b" }).2
    let f₁ := (e.step env).2
    let f₂ := (f₁.submitRequest { req with requestId := "c" }).2
    (e₁.step env).1.toBool = false ∧
      (((((f₂.step env).2.step env).2.step env).2).scheduler.statusOf 2).terminal = true := by
  intro rowwise env req e₁ e₂ e₃ e f₁ f₂
  have hrun := Trace.Run.snoc (.snoc (.snoc (.snoc .nil
    (step_submitRequest env (new (1 : ℕ) 8 60 .fcfs 8 2) req
      ⟨rfl, fun r hr => absurd hr (Nat.not_lt_zero r)⟩))
    (step_step env e₁))
    (step_submitRequest env e₂ { req with requestId := "a" } ⟨rfl, by decide +kernel⟩))
    (step_submitRequest env e₃ { req with requestId := "b" } ⟨rfl, by decide +kernel⟩)
  have hlater := Trace.Run.snoc (.snoc (.snoc (.snoc (.snoc .nil (step_step env e))
    (step_submitRequest env f₁ { req with requestId := "c" } ⟨rfl, by decide +kernel⟩))
    (step_step env f₂)) (step_step env (f₂.step env).2)) (step_step env ((f₂.step env).2.step env).2)
  have hok : (e.step env).1.toBool = true ∧ (f₂.step env).1.toBool = true ∧
      ((f₂.step env).2.step env).1.toBool = true ∧
      (((f₂.step env).2.step env).2.step env).1.toBool = true := by
    decide +kernel
  have hraise : ∀ {x : Except StepError (List SequenceState)} {err}, x.toBool = true → x ≠ .error err := by
    rintro _ err h rfl
    cases h
  have hqueue : e.scheduler.sortPending.pending = [1] ++ 2 :: [] := by decide +kernel
  have hidle : e.activeSequences.keys = [] := by decide +kernel
  refine ⟨by decide +kernel, ?_⟩
  refine served_in_turn (by decide) (by decide) (by decide : 1 ≤ 2) hrun hqueue (by decide +kernel)
    (fun k q hq => absurd (OrderedDict.mem_keys_of_get? hq) (hidle ▸ List.not_mem_nil)) hlater
    (fun err h => ?_) (fun _ _ _ _ h => by cases h) (by decide +kernel)
  simp only [List.nil_append, List.cons_append, List.mem_cons, Event.step.injEq, reduceCtorEq,
    List.not_mem_nil, false_or, or_false] at h
  obtain h | h | h | h := h
  · exact hraise hok.1 h.symm
  · exact hraise hok.2.1 h.symm
  · exact hraise hok.2.2.1 h.symm
  · exact hraise hok.2.2.2 h.symm

end Engine

end ModelServing
