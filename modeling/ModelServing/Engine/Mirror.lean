import ModelServing.Engine.Operations
import ModelServing.Cache.Effects

/-! An engine with a past behaves like one without. `Mirrors P n e f` relates an engine `e` to an
    engine `f` that knows nothing of what `e` has behind it: both have the same queue, batch and pool,
    up to the numbers of request objects, external calls and clock readings, and up to entries that
    were never removed from `_running`. Every operation returns the same in both and keeps the
    relation. -/

namespace ModelServing

/-- What an engine has behind it: how many request objects, external calls and clock readings, and
    which ids were left in `_running`. -/
structure Past where
  requests : ℕ
  calls : ℕ
  ticks : ℕ
  stale : Set String

namespace Past

variable (P : Past)

def ref (r : Ref) : Ref := P.requests + r

def state (q : SequenceState) : SequenceState := { q with request := P.ref q.request }

theorem state_append (eos : Option ℕ) (n t : ℕ) (q : SequenceState) :
    P.state (q.append eos n t) = (P.state q).append eos n t := by
  simp only [SequenceState.append, state]
  by_cases h : some t = eos
  · simp only [if_pos h]
  · by_cases h' : (q.generatedIds ++ [t]).length ≥ n
    · simp only [if_neg h, if_pos h']
      exact (if_pos h').symm
    · simp only [if_neg h, if_neg h']
      exact (if_neg h').symm

theorem ref_inj {r r' : Ref} : P.ref r = P.ref r' ↔ r = r' := Nat.add_left_cancel_iff

/-- The clock from now on. -/
def clock (clock : ℕ → ℚ) (i : ℕ) : ℚ := clock (P.ticks + i)

end Past

/-- The world from now on. -/
def Env.after (env : Env) (P : Past) : Env :=
  { env with
    clock := P.clock env.clock
    tokenizer := fun i => env.tokenizer (P.calls + i)
    model := fun i => env.model (P.calls + i)
    multinomial := fun i => env.multinomial (P.calls + i)
    decode := fun i => env.decode (P.calls + i) }

/-- Only what the predicate says of the members matters. -/
theorem eraseP_congr {α : Type*} {p p' : α → Bool} : ∀ {l : List α}, (∀ a ∈ l, p a = p' a) →
    l.eraseP p = l.eraseP p'
  | [], _ => rfl
  | a :: l, h => by
      have ih := eraseP_congr fun b hb => h b (List.mem_cons_of_mem a hb)
      simp only [List.eraseP_cons, h a List.mem_cons_self, ih]

/-! ### The scheduler -/

namespace RequestScheduler

/-- `u` has `n` request objects; `s` has the same ones after those of the past, the same queue and,
    stale ids apart, the same running requests. -/
structure Mirrors (P : Past) (n : ℕ) (s u : RequestScheduler) : Prop where
  maxQueueSize : s.maxQueueSize = u.maxQueueSize
  defaultTimeout : s.defaultTimeout = u.defaultTimeout
  schedulingPolicy : s.schedulingPolicy = u.schedulingPolicy
  next : s.requests.next = P.ref n
  next' : u.requests.next = n
  ticks : s.ticks = P.ticks + u.ticks
  request : ∀ r < n, s.request (P.ref r) = u.request r
  ids : ∀ r < n, u.idOf r ∉ P.stale
  pending : s.pending = u.pending.map P.ref
  queued : ∀ r ∈ u.pending, r < n
  running : ∀ k, k ∉ P.stale → s.running.get? k = (u.running.get? k).map P.ref
  started : ∀ k r, u.running.get? k = some r → r < n

namespace Mirrors

variable {P : Past} {n : ℕ} {s u : RequestScheduler} {r : Ref}

/-- The same change to the same object. -/
theorem set (M : Mirrors P n s u) (hr : r < n) (f : ScheduledRequest → ScheduledRequest)
    (hid : ∀ q, (f q).requestId = q.requestId) : Mirrors P n (s.set (P.ref r) f) (u.set r f) :=
  { M with
    request := fun x hx => by
      by_cases hxr : x = r
      · subst hxr
        exact (ObjectHeap.get_modify_self _ _ _).trans ((congrArg f (M.request x hx)).trans
          (ObjectHeap.get_modify_self _ _ _).symm)
      · exact (ObjectHeap.get_modify_of_ne _ _ (mt P.ref_inj.mp hxr)).trans ((M.request x hx).trans
          (ObjectHeap.get_modify_of_ne _ _ hxr).symm)
    ids := fun x hx => by
      have h : (u.set r f).idOf x = u.idOf x :=
        ObjectHeap.map_get_modify ScheduledRequest.requestId u.requests r x hid
      rw [h]
      exact M.ids x hx }

theorem call (M : Mirrors P n s u) (clock : ℕ → ℚ) (hr : r < n)
    (f : ℚ → ScheduledRequest → ScheduledRequest) (hid : ∀ t q, (f t q).requestId = q.requestId) :
    Mirrors P n (s.call clock (P.ref r) f) (u.call (P.clock clock) r f) := by
  have M₁ := M.set hr (f (clock s.ticks)) (hid _)
  have hnow : P.clock clock u.ticks = clock s.ticks := congrArg clock M.ticks.symm
  have hcall : u.call (P.clock clock) r f = { u.set r (f (clock s.ticks)) with ticks := u.ticks + 1 } :=
    by rw [RequestScheduler.call, hnow]; rfl
  rw [hcall]
  exact { M₁ with ticks := congrArg (· + 1) M.ticks }

/-! Timeouts -/

theorem timedOut (M : Mirrors P n s u) (clock : ℕ → ℚ) :
    s.timedOut clock = (u.timedOut (P.clock clock)).map P.ref := by
  have key : ∀ (l : List Ref) (t : ℕ), (∀ r ∈ l, r < n) →
      (((l.map P.ref).zipIdx (P.ticks + t)).filter fun p =>
        (s.request p.1).isTimedOut (clock p.2)).map Prod.fst =
      (((l.zipIdx t).filter fun p =>
        (u.request p.1).isTimedOut (P.clock clock p.2)).map Prod.fst).map P.ref := by
    intro l
    induction l with
    | nil => exact fun _ _ => rfl
    | cons r l ih =>
      intro t hl
      have hr : (s.request (P.ref r)).isTimedOut (clock (P.ticks + t)) =
          (u.request r).isTimedOut (P.clock clock t) := by
        rw [M.request r (hl r List.mem_cons_self)]
        rfl
      have ih := ih (t + 1) fun x hx => hl x (List.mem_cons_of_mem r hx)
      simp only [List.map_cons, List.zipIdx_cons, List.filter_cons, hr]
      split
      · simp only [List.map_cons, List.cons.injEq, true_and]
        exact ih
      · exact ih
  rw [RequestScheduler.timedOut, M.ticks, M.pending]
  exact key u.pending u.ticks M.queued

theorem expire (M : Mirrors P n s u) (clock : ℕ → ℚ) (hr : r < n) :
    Mirrors P n (s.expire clock (P.ref r)) (u.expire (P.clock clock) r) := by
  have M₁ := (M.call clock hr .cancel fun _ _ => rfl).set hr
    (fun q => { q with error := some "Request timed out in queue" }) fun _ => rfl
  refine { M₁ with pending := ?_, queued := fun x hx => M₁.queued x (List.eraseP_subset hx) }
  refine (congrArg (List.eraseP _) M₁.pending).trans ?_
  rw [List.eraseP_map]
  refine congrArg (List.map P.ref) (eraseP_congr fun x hx => ?_)
  simp only [Function.comp_apply, P.ref_inj, M₁.request x (M₁.queued x hx), M₁.request r hr]

/-- The same loop over the same objects. -/
theorem foldl {f g : RequestScheduler → Ref → RequestScheduler}
    (hfg : ∀ s u r, Mirrors P n s u → r < n → Mirrors P n (f s (P.ref r)) (g u r)) :
    ∀ (rs : List Ref) {s u : RequestScheduler}, Mirrors P n s u → (∀ r ∈ rs, r < n) →
    Mirrors P n ((rs.map P.ref).foldl f s) (rs.foldl g u)
  | [], _, _, M, _ => M
  | r :: rs, _, _, M, h =>
    foldl hfg rs (hfg _ _ r M (h r List.mem_cons_self)) fun x hx =>
      h x (List.mem_cons_of_mem r hx)

theorem enforceTimeouts (M : Mirrors P n s u) (clock : ℕ → ℚ) :
    Mirrors P n (s.enforceTimeouts clock) (u.enforceTimeouts (P.clock clock)) := by
  have hlen : s.pending.length = u.pending.length := by rw [M.pending, List.length_map]
  have M₁ : Mirrors P n { s with ticks := s.ticks + s.pending.length }
      { u with ticks := u.ticks + u.pending.length } :=
    { M with ticks := by rw [M.ticks, hlen, Nat.add_assoc] }
  rw [RequestScheduler.enforceTimeouts, M.timedOut]
  refine foldl (fun s u r M hr => M.expire clock hr) _ M₁ fun r hr => M.queued r ?_
  exact (timedOut_sublist _ u).subset hr

/-! Selection -/

theorem sortPending (M : Mirrors P n s u) : Mirrors P n s.sortPending u.sortPending := by
  cases hp : u.schedulingPolicy with
  | fcfs =>
    simp only [RequestScheduler.sortPending, M.schedulingPolicy.trans hp, hp]
    exact M
  | priority =>
    simp only [RequestScheduler.sortPending, M.schedulingPolicy.trans hp, hp]
    refine { M with
      schedulingPolicy := rfl, pending := ?_, queued := fun r hr => M.queued r ?_ }
    · refine (congrArg _ M.pending).trans (List.map_insertionSort _ _ P.ref u.pending ?_).symm
      intro a ha b hb
      rw [M.request a (M.queued a ha), M.request b (M.queued b hb)]
    · exact (List.perm_insertionSort _ _).mem_iff.mp hr

theorem startRunning (M : Mirrors P n s u) (clock : ℕ → ℚ) (hr : r < n) :
    Mirrors P n (s.startRunning clock (P.ref r)) (u.startRunning (P.clock clock) r) := by
  have M₁ := M.call clock hr .start fun _ _ => rfl
  refine { M₁ with running := fun k hk => ?_, started := fun k x hx => ?_ }
  · refine (OrderedDict.get?_insert _ _ _ _).trans ?_
    rw [M₁.request r hr]
    refine Eq.trans ?_ (congrArg (Option.map P.ref) (OrderedDict.get?_insert _ _ _ _)).symm
    split
    · rfl
    · exact M₁.running k hk
  · refine (OrderedDict.get?_insert _ _ _ _).symm.trans hx |> fun h => ?_
    split at h
    · cases h; exact hr
    · exact M₁.started k x h

theorem getNextBatch (M : Mirrors P n s u) (clock : ℕ → ℚ) (m : ℕ) :
    (s.getNextBatch clock m).1 = (u.getNextBatch (P.clock clock) m).1.map P.ref ∧
    Mirrors P n (s.getNextBatch clock m).2 (u.getNextBatch (P.clock clock) m).2 ∧
    ∀ r ∈ (u.getNextBatch (P.clock clock) m).1, r < n := by
  have M₁ := M.enforceTimeouts clock
  have M₂ := M₁.sortPending
  obtain ⟨queue, hqueue, -, hs⟩ := RequestScheduler.getNextBatch_eq clock s m
  obtain ⟨queue', hqueue', -, hu⟩ := RequestScheduler.getNextBatch_eq (P.clock clock) u m
  have hmap : queue = queue'.map P.ref := by rw [hqueue, hqueue', M₂.pending]
  have hqueued : ∀ r ∈ queue', r < n := fun r hr => M₂.queued r (hqueue' ▸ hr)
  have hbatch : ∀ r ∈ queue'.take m, r < n := fun r hr => hqueued r (List.mem_of_mem_take hr)
  have htake : (queue'.take m).map P.ref = queue.take m := by rw [hmap, List.map_take]
  have M₃ : Mirrors P n { s.enforceTimeouts clock with pending := queue.drop m }
      { u.enforceTimeouts (P.clock clock) with pending := queue'.drop m } :=
    { M₁ with
      pending := by rw [hmap, List.map_drop]
      queued := fun r hr => hqueued r (List.mem_of_mem_drop hr) }
  have M₄ := foldl (fun s u r M hr => M.startRunning clock hr) _ M₃ hbatch
  rw [htake] at M₄
  rw [hs, hu]
  exact ⟨htake.symm, M₄, hbatch⟩

/-! Completion and submission -/

theorem completeRequest (M : Mirrors P n s u) (clock : ℕ → ℚ) {k : String} (hk : k ∉ P.stale)
    (text : String) (count : ℕ) :
    Mirrors P n (s.completeRequest clock k text count)
      (u.completeRequest (P.clock clock) k text count) := by
  have hget := M.running k hk
  cases hr : u.running.get? k with
  | none =>
    rw [hr] at hget
    simp only [RequestScheduler.completeRequest, hr, hget, Option.map_none]
    exact M
  | some r =>
    rw [hr] at hget
    simp only [RequestScheduler.completeRequest, hr, hget, Option.map_some]
    have M₁ : Mirrors P n { s with running := s.running.erase k }
        { u with running := u.running.erase k } :=
      { M with
        running := fun k' hk' => by
          rw [OrderedDict.get?_erase, OrderedDict.get?_erase, M.running k' hk']
          split <;> rfl
        started := fun k' x hx => by
          rw [OrderedDict.get?_erase] at hx
          split at hx
          · cases hx
          · exact M.started k' x hx }
    have M₂ := M₁.call clock (M.started k r hr) (.complete text count) fun _ _ => rfl
    exact { M₂ with }

theorem submit (M : Mirrors P n s u) (hr : r < n) :
    (s.submit (P.ref r)).1 = (u.submit r).1 ∧ Mirrors P n (s.submit (P.ref r)).2 (u.submit r).2 := by
  have hfull : s.queueFull = u.queueFull := by
    rw [queueFull, queueFull, pendingCount, pendingCount, M.maxQueueSize, M.pending, List.length_map]
  by_cases hq : u.queueFull
  · rw [show s.submit (P.ref r) = (false, s) from if_pos (hfull.trans hq),
      show u.submit r = (false, u) from if_pos hq]
    exact ⟨rfl, M⟩
  · have M₁ := M.set hr (fun q => { q with timeoutSeconds :=
      if q.timeoutSeconds ≠ 0 then q.timeoutSeconds else s.defaultTimeout }) fun _ => rfl
    rw [show s.submit (P.ref r) = (true, _) from if_neg (hfull ▸ hq),
      show u.submit r = (true, _) from if_neg hq, ← M.defaultTimeout]
    refine ⟨rfl, { M₁ with pending := ?_, queued := fun x hx => ?_ }⟩
    · change s.pending ++ [P.ref r] = (u.pending ++ [r]).map P.ref
      rw [M.pending, List.map_append]
      rfl
    · rcases List.mem_append.mp hx with hx | hx
      · exact M₁.queued x hx
      · rw [List.mem_singleton.mp hx]; exact hr

theorem submitNew (M : Mirrors P n s u) {req : ScheduledRequest} (hid : req.requestId ∉ P.stale) :
    (s.submitNew req).1 = (u.submitNew req).1 ∧
      Mirrors P (n + 1) (s.submitNew req).2 (u.submitNew req).2 := by
  have hnew : ∀ r < n + 1, r ≠ n → r < n := fun r hr hne => by omega
  have M₁ : Mirrors P (n + 1) { s with requests := s.requests.alloc req }
      { u with requests := u.requests.alloc req } :=
    { M with
      next := congrArg (· + 1) M.next
      next' := congrArg (· + 1) M.next'
      request := fun r hr => by
        by_cases hrn : r = n
        · subst hrn
          have hs : (s.requests.alloc req).get (P.ref r) = req := by
            rw [← M.next, ObjectHeap.get_alloc_self]
          have hu : (u.requests.alloc req).get r = req := by
            rw [← M.next', ObjectHeap.get_alloc_self]
          exact hs.trans hu.symm
        · have hr := hnew r hr hrn
          have hs : P.ref r < s.requests.next := by rw [M.next]; exact Nat.add_lt_add_left hr _
          exact (ObjectHeap.get_alloc_of_lt _ _ hs).trans ((M.request r hr).trans
            (ObjectHeap.get_alloc_of_lt _ _ (M.next'.symm ▸ hr)).symm)
      ids := fun r hr => by
        by_cases hrn : r = n
        · subst hrn
          have hu : (u.requests.alloc req).get r = req := by
            rw [← M.next', ObjectHeap.get_alloc_self]
          change ((u.requests.alloc req).get r).requestId ∉ P.stale
          rwa [hu]
        · have hr := hnew r hr hrn
          have hu : (u.requests.alloc req).get r = u.requests.get r :=
            ObjectHeap.get_alloc_of_lt _ _ (M.next'.symm ▸ hr)
          change ((u.requests.alloc req).get r).requestId ∉ P.stale
          rw [hu]
          exact M.ids r hr
      queued := fun r hr => Nat.lt_succ_of_lt (M.queued r hr)
      started := fun k r hr => Nat.lt_succ_of_lt (M.started k r hr) }
  rw [RequestScheduler.submitNew, RequestScheduler.submitNew, M.next, M.next']
  exact M₁.submit (Nat.lt_succ_self n)

end Mirrors

end RequestScheduler

/-! ### The engine -/

namespace Engine

/-- The same queue, batch and pool, up to what `P` lies behind. -/
structure Mirrors (P : Past) (n : ℕ) (e f : Engine) : Prop where
  scheduler : RequestScheduler.Mirrors P n e.scheduler f.scheduler
  cacheManager : e.cacheManager.Alike f.cacheManager
  maxBatchSize : e.maxBatchSize = f.maxBatchSize
  active : e.activeSequences = f.activeSequences.map P.state
  live : ∀ k q, f.activeSequences.get? k = some q → q.request < n ∧ k ∉ P.stale
  calls : e.calls = P.calls + f.calls

/-- Two operations that return the same, up to `g`, and leave mirrored engines; `Q` holds of what the
    second returns. -/
def Alike {α : Type} (P : Past) (n : ℕ) (g : α → α) (Q : α → Prop)
    (x y : Except StepError α × Engine) : Prop :=
  (∃ err e f, x = (.error err, e) ∧ y = (.error err, f) ∧ Mirrors P n e f) ∨
    ∃ a e f, x = (.ok (g a), e) ∧ y = (.ok a, f) ∧ Q a ∧ Mirrors P n e f

/-- Both return nothing but the engine. -/
abbrev AlikeUnit (P : Past) (n : ℕ) (x y : Except StepError Unit × Engine) : Prop :=
  Alike P n id (fun _ => True) x y

/-- Both return the same sequences. -/
abbrev AlikeDone (P : Past) (n : ℕ) (x y : Except StepError (List SequenceState) × Engine) : Prop :=
  Alike P n (List.map P.state) (fun qs => ∀ q ∈ qs, q.request < n) x y

namespace Mirrors

variable {P : Past} {n : ℕ} {e f : Engine} {r : Ref}

theorem request (M : Mirrors P n e f) (hr : r < n) : e.request (P.ref r) = f.request r :=
  M.scheduler.request r hr

theorem keys (M : Mirrors P n e f) : e.activeSequences.keys = f.activeSequences.keys := by
  rw [M.active, OrderedDict.keys_map]

theorem values (M : Mirrors P n e f) :
    e.activeSequences.values = f.activeSequences.values.map P.state := by
  rw [M.active, OrderedDict.values_map]

theorem get? (M : Mirrors P n e f) (k : String) :
    e.activeSequences.get? k = (f.activeSequences.get? k).map P.state := by
  rw [M.active, OrderedDict.get?_map]

theorem live_values (M : Mirrors P n e f) : ∀ q ∈ f.activeSequences.values, q.request < n := fun q hq => by
  obtain ⟨k, hk⟩ := OrderedDict.mem_values_iff.mp hq
  exact (M.live k q hk).1

variable (env : Env)

/-! Admission -/

theorem fail (M : Mirrors P n e f) (hr : r < n) (error : String) :
    Mirrors P n (e.fail env (P.ref r) error) (f.fail (env.after P) r error) :=
  { M with scheduler := M.scheduler.call env.clock hr (.fail error) fun _ _ => rfl }

theorem tokenized (M : Mirrors P n e f) (hr : r < n) (inputIds : List ℕ) :
    Mirrors P n (e.tokenized (P.ref r) inputIds) (f.tokenized r inputIds) :=
  { M with
    scheduler := M.scheduler.set hr (fun q => { q with promptTokens := inputIds.length }) fun _ => rfl
    calls := congrArg (· + 1) M.calls }

theorem erase (M : Mirrors P n e f) (k : String) :
    Mirrors P n { e with activeSequences := e.activeSequences.erase k }
      { f with activeSequences := f.activeSequences.erase k } :=
  { M with
    active := by rw [OrderedDict.map_erase, M.active]
    live := fun k' q hq => by
      rw [OrderedDict.get?_erase] at hq
      split at hq
      · cases hq
      · exact M.live k' q hq }

theorem dropEvicted (M : Mirrors P n e f) (evicted : Option String) :
    Mirrors P n (e.dropEvicted env evicted) (f.dropEvicted (env.after P) evicted) := by
  cases evicted with
  | none => exact M
  | some v =>
    by_cases hv : v = ""
    · simp only [Engine.dropEvicted, if_pos hv]
      exact M
    · cases hq : f.activeSequences.get? v with
      | none =>
        simp only [Engine.dropEvicted, if_neg hv, M.get?, hq, Option.map_none]
        exact M
      | some q =>
        simp only [Engine.dropEvicted, if_neg hv, M.get?, hq, Option.map_some]
        exact (M.erase v).fail env (M.live v q hq).1 _

theorem activate (M : Mirrors P n e f) (hr : r < n) (inputIds : List ℕ) :
    Mirrors P n (e.activate (P.ref r) inputIds) (f.activate r inputIds) :=
  { M with
    active := by
      change e.activeSequences.insert _ _ = (f.activeSequences.insert _ _).map P.state
      rw [M.request hr, OrderedDict.map_insert, M.active]
      rfl
    live := fun k q hq => by
      change (f.activeSequences.insert _ _).get? k = some q at hq
      rw [OrderedDict.get?_insert] at hq
      split at hq
      · cases hq
        subst_vars
        exact ⟨hr, M.scheduler.ids r hr⟩
      · exact M.live k q hq }

theorem place (M : Mirrors P n e f) (hr : r < n) (inputIds : List ℕ) :
    AlikeUnit P n (e.place env (P.ref r) inputIds) (f.place (env.after P) r inputIds) := by
  rcases M.cacheManager.allocateSequence (f.request r).requestId inputIds.length with
    ⟨t, t', m, m', h, h', A⟩ | ⟨msg, msg', h, h'⟩
  · have M₁ : Mirrors P n { e with cacheManager := m } { f with cacheManager := m' } :=
      { M with cacheManager := A }
    refine Or.inr ⟨(), _, _, ?_, ?_, trivial, M₁.activate hr inputIds⟩
    · simp only [Engine.place, M.request hr, h, id]
    · simp only [Engine.place, h']
  · obtain ⟨hres, A⟩ := M.cacheManager.evictLru
    rcases hv : e.cacheManager.evictLru with ⟨err | v, m⟩ <;>
    rcases hv' : f.cacheManager.evictLru with ⟨err' | v', m'⟩ <;>
    simp only [hv, hv', Except.error.injEq, Except.ok.injEq, reduceCtorEq] at hres A <;> subst hres
    · refine Or.inl ⟨.cache err, _, _, ?_, ?_,
        ({ M with cacheManager := A } : Mirrors P n { e with cacheManager := m }
          { f with cacheManager := m' })⟩
      · simp only [Engine.place, M.request hr, h, hv]
      · simp only [Engine.place, h', hv']
    · have M₁ : Mirrors P n { e with cacheManager := m } { f with cacheManager := m' } :=
        { M with cacheManager := A }
      have M₂ := M₁.dropEvicted env v
      set f₂ := ({ f with cacheManager := m' } : Engine).dropEvicted (env.after P) v with hf₂
      set e₂ := ({ e with cacheManager := m } : Engine).dropEvicted env v with he₂
      rcases M₂.cacheManager.allocateSequence (f₂.request r).requestId inputIds.length with
        ⟨t, t', m₁, m₁', h₁, h₁', A₁⟩ | ⟨msg₁, msg₁', h₁, h₁'⟩
      · have M₃ : Mirrors P n { e₂ with cacheManager := m₁ } { f₂ with cacheManager := m₁' } :=
          { M₂ with cacheManager := A₁ }
        refine Or.inr ⟨(), _, _, ?_, ?_, trivial, M₃.activate hr inputIds⟩
        · simp only [Engine.place, M.request hr, h, hv, ← he₂, M₂.request hr, h₁, id]
        · simp only [Engine.place, h', hv', ← hf₂, h₁']
      · refine Or.inr ⟨(), _, _, ?_, ?_, trivial, M₂.fail env hr "Insufficient KV-cache memory"⟩
        · simp only [Engine.place, M.request hr, h, hv, ← he₂, M₂.request hr, h₁, id]
        · simp only [Engine.place, h', hv', ← hf₂, h₁']

theorem admitRequest (M : Mirrors P n e f) (hr : r < n) :
    AlikeUnit P n (e.admitRequest env (P.ref r)) (f.admitRequest (env.after P) r) := by
  have htok : env.tokenizer e.calls (e.request (P.ref r)).prompt 1024 =
      (env.after P).tokenizer f.calls (f.request r).prompt 1024 := by
    rw [M.calls, M.request hr]
    rfl
  cases ht : (env.after P).tokenizer f.calls (f.request r).prompt 1024 with
  | none =>
    refine Or.inl ⟨.tokenizer, e.called, f.called, ?_, ?_,
      { M with calls := congrArg (· + 1) M.calls }⟩
    · simp only [Engine.admitRequest, htok, ht]
    · simp only [Engine.admitRequest, ht]
  | some inputIds =>
    have h := (M.tokenized hr inputIds).place env hr inputIds
    simpa only [Engine.admitRequest, htok, ht] using h

theorem admitAll : ∀ (rs : List Ref) {e f : Engine}, Mirrors P n e f → (∀ r ∈ rs, r < n) →
    AlikeUnit P n (Engine.admitAll env (rs.map P.ref) e) (Engine.admitAll (env.after P) rs f)
  | [], _, _, M, _ => Or.inr ⟨(), _, _, rfl, rfl, trivial, M⟩
  | r :: rs, e, f, M, hrs => by
      rcases M.admitRequest env (hrs r List.mem_cons_self) with
        ⟨err, e₁, f₁, he, hf, M₁⟩ | ⟨⟨⟩, e₁, f₁, he, hf, -, M₁⟩
      · refine Or.inl ⟨err, e₁, f₁, ?_, ?_, M₁⟩
        · simp only [List.map_cons, Engine.admitAll, he]
        · simp only [Engine.admitAll, hf]
      · have h := admitAll rs M₁ fun x hx => hrs x (List.mem_cons_of_mem r hx)
        simpa only [List.map_cons, Engine.admitAll, he, hf, id] using h

theorem batchSize (M : Mirrors P n e f) : e.batchSize = f.batchSize := by
  rw [Engine.batchSize, M.active, OrderedDict.size_map]
  rfl

theorem admitNewSequences (M : Mirrors P n e f) :
    AlikeUnit P n (e.admitNewSequences env) (f.admitNewSequences (env.after P)) := by
  have hslots : e.maxBatchSize - e.batchSize = f.maxBatchSize - f.batchSize := by
    rw [M.maxBatchSize, M.batchSize]
  simp only [Engine.admitNewSequences, hslots]
  by_cases hfull : f.maxBatchSize - f.batchSize ≤ 0
  · rw [if_pos hfull, if_pos hfull]
    exact Or.inr ⟨(), e, f, rfl, rfl, trivial, M⟩
  · rw [if_neg hfull, if_neg hfull]
    obtain ⟨hbatch, S, hlive⟩ :=
      M.scheduler.getNextBatch env.clock (f.maxBatchSize - f.batchSize).toNat
    rw [hbatch]
    exact admitAll env _ { M with scheduler := S } hlive

/-! One forward pass -/

theorem prepareBatchInputs (M : Mirrors P n e f) :
    e.prepareBatchInputs env = f.prepareBatchInputs (env.after P) := by
  have hids : e.activeSequences.values.map SequenceState.inputIds =
      f.activeSequences.values.map SequenceState.inputIds := by
    rw [M.values, List.map_map]
    rfl
  rw [Engine.prepareBatchInputs, Engine.prepareBatchInputs, hids]
  rfl

theorem sampleToken_after (P : Past) (q : ScheduledRequest) (last : Option (List Logit)) (c : ℕ) :
    sampleToken env q last (P.calls + c) = ((sampleToken (env.after P) q last c).1,
      P.calls + (sampleToken (env.after P) q last c).2) := by
  cases last with
  | none => rfl
  | some last =>
    simp only [sampleToken]
    split
    · split <;> simp_all [Env.after]
    · split <;> simp_all [Env.after, Nat.add_assoc]

theorem sampleFrom (M : Mirrors P n e f) (logits : List (List (List Logit))) :
    ∀ (qs : List SequenceState) (i c : ℕ), (∀ q ∈ qs, q.request < n) →
    e.sampleFrom env logits i (qs.map P.state) (P.calls + c) =
      ((f.sampleFrom (env.after P) logits i qs c).1,
        P.calls + (f.sampleFrom (env.after P) logits i qs c).2)
  | [], _, _, _ => rfl
  | q :: qs, i, c, hqs => by
      have hq : e.request (P.state q).request = f.request q.request :=
        M.request (hqs q List.mem_cons_self)
      have htok := sampleToken_after env P (f.request q.request)
        (lastLogits logits i q.inputIds.length) c
      have hin : (P.state q).inputIds = q.inputIds := rfl
      simp only [List.map_cons, Engine.sampleFrom, hq, hin, htok]
      rcases sampleToken (env.after P) (f.request q.request)
        (lastLogits logits i q.inputIds.length) c with ⟨err | token, c₁⟩
      · rfl
      · have ih := sampleFrom M logits qs (i + 1) c₁ fun x hx => hqs x (List.mem_cons_of_mem q hx)
        simp only [ih]
        rcases f.sampleFrom (env.after P) logits (i + 1) qs c₁ with ⟨err | tokens, c₂⟩ <;> rfl

theorem sampleTokens (M : Mirrors P n e f) (logits : List (List (List Logit))) :
    Alike P n id (fun _ => True) (e.sampleTokens env logits)
      (f.sampleTokens (env.after P) logits) := by
  have h := sampleFrom env M logits f.activeSequences.values 0 f.calls M.live_values
  rw [← M.values, ← M.calls] at h
  rw [Engine.sampleTokens, Engine.sampleTokens, h]
  rcases hf : f.sampleFrom (env.after P) logits 0 f.activeSequences.values f.calls with
    ⟨err | tokens, c⟩
  · exact Or.inl ⟨err, _, _, rfl, rfl, { M with calls := rfl }⟩
  · exact Or.inr ⟨tokens, _, _, rfl, rfl, trivial, { M with calls := rfl }⟩

theorem appendToken (M : Mirrors P n e f) (p : String × ℕ) :
    Mirrors P n (e.appendToken env p) (f.appendToken (env.after P) p) :=
  { M with
    active := by
      change e.activeSequences.modify p.1 (fun q =>
          q.append env.eosTokenId (e.request q.request).maxTokens p.2) =
        (f.activeSequences.modify p.1 fun q =>
          q.append env.eosTokenId (f.request q.request).maxTokens p.2).map P.state
      rw [M.active]
      refine (OrderedDict.map_modify _ _ _ fun q hq => ?_).symm
      have hreq : e.request (P.state q).request = f.request q.request := M.request (M.live _ q hq).1
      rw [hreq, P.state_append]
    live := fun k q hq => by
      have hget := OrderedDict.get?_modify f.activeSequences p.1 k fun q =>
        q.append env.eosTokenId (f.request q.request).maxTokens p.2
      have hq := hget.symm.trans hq
      split at hq
      · obtain ⟨q₀, hq₀, rfl⟩ := Option.map_eq_some_iff.mp hq
        rw [SequenceState.append_request]
        exact M.live k q₀ hq₀
      · exact M.live k q hq }

theorem appendTokens : ∀ (ps : List (String × ℕ)) {e f : Engine}, Mirrors P n e f →
    Mirrors P n (ps.foldl (Engine.appendToken env) e) (ps.foldl (Engine.appendToken (env.after P)) f)
  | [], _, _, M => M
  | p :: ps, _, _, M => appendTokens ps (M.appendToken env p)

/-! Finished sequences -/

theorem finishedIds (M : Mirrors P n e f) : e.finishedIds = f.finishedIds := by
  rw [Engine.finishedIds, M.active, OrderedDict.map, List.filter_map, List.map_map]
  rfl

theorem finish (M : Mirrors P n e f) (k : String) :
    Alike P n P.state (fun q => q.request < n) (e.finish env k) (f.finish (env.after P) k) := by
  have hget := M.get? k
  cases hq : f.activeSequences.get? k with
  | none =>
    rw [hq] at hget
    refine Or.inl ⟨.key k, e, f, ?_, ?_, M⟩
    · simp only [Engine.finish, hget, Option.map_none]
    · simp only [Engine.finish, hq]
  | some q =>
    rw [hq] at hget
    have hdec : env.decode e.calls q.generatedIds true =
        (env.after P).decode f.calls q.generatedIds true := by rw [M.calls]; rfl
    cases ht : (env.after P).decode f.calls q.generatedIds true with
    | none =>
      refine Or.inl ⟨.decode, e.popped k, f.popped k, ?_, ?_,
        { M.erase k with calls := congrArg (· + 1) M.calls }⟩
      · simp only [Engine.finish, hget, Option.map_some, Past.state, hdec, ht]
        rfl
      · simp only [Engine.finish, hq, ht]
        rfl
    | some text =>
      have S := M.scheduler.completeRequest env.clock (M.live k q hq).2 text q.generatedIds.length
      refine Or.inr ⟨q, e.completed env k text (P.state q), f.completed (env.after P) k text q, ?_, ?_,
        (M.live k q hq).1, { M.erase k with
          scheduler := S
          cacheManager := M.cacheManager.freeSequence k
          calls := congrArg (· + 1) M.calls }⟩
      · simp only [Engine.finish, hget, Option.map_some, Past.state, hdec, ht]
        rfl
      · simp only [Engine.finish, hq, ht]
        rfl

theorem finishAll : ∀ (ks : List String) {e f : Engine}, Mirrors P n e f →
    AlikeDone P n (Engine.finishAll env ks e) (Engine.finishAll (env.after P) ks f)
  | [], _, _, M => Or.inr ⟨[], _, _, rfl, rfl, fun _ h => absurd h List.not_mem_nil, M⟩
  | k :: ks, e, f, M => by
      rcases M.finish env k with ⟨err, e₁, f₁, he, hf, M₁⟩ | ⟨q, e₁, f₁, he, hf, hq, M₁⟩
      · refine Or.inl ⟨err, e₁, f₁, ?_, ?_, M₁⟩
        · simp only [Engine.finishAll, he]
        · simp only [Engine.finishAll, hf]
      · rcases finishAll ks M₁ with ⟨err, e₂, f₂, he', hf', M₂⟩ | ⟨qs, e₂, f₂, he', hf', hqs, M₂⟩
        · refine Or.inl ⟨err, e₂, f₂, ?_, ?_, M₂⟩
          · simp only [Engine.finishAll, he, he']
          · simp only [Engine.finishAll, hf, hf']
        · refine Or.inr ⟨q :: qs, e₂, f₂, ?_, ?_, List.forall_mem_cons.mpr ⟨hq, hqs⟩, M₂⟩
          · simp only [Engine.finishAll, he, he', List.map_cons]
          · simp only [Engine.finishAll, hf, hf']

/-! Steps -/

theorem step (M : Mirrors P n e f) :
    AlikeDone P n (e.step env) (f.step (env.after P)) := by
  rcases M.admitNewSequences env with ⟨err, e₁, f₁, he, hf, M₁⟩ | ⟨⟨⟩, e₁, f₁, he, hf, -, M₁⟩
  · exact Or.inl ⟨err, e₁, f₁, by simp only [Engine.step, he], by simp only [Engine.step, hf], M₁⟩
  · by_cases hnil : f₁.activeSequences.keys = []
    · refine Or.inr ⟨[], e₁, f₁, ?_, ?_, fun _ h => absurd h List.not_mem_nil, M₁⟩
      · simp only [Engine.step, he, M₁.keys, hnil, if_pos]
        rfl
      · simp only [Engine.step, hf, hnil, if_pos]
    · have hmodel : env.model e₁.calls (e₁.prepareBatchInputs env) =
          (env.after P).model f₁.calls (f₁.prepareBatchInputs (env.after P)) := by
        rw [M₁.calls, M₁.prepareBatchInputs]
        rfl
      have M₂ : Mirrors P n e₁.iterated.called f₁.iterated.called :=
        { M₁ with calls := congrArg (· + 1) M₁.calls }
      rw [step_admitted he (M₁.keys ▸ hnil), step_admitted hf hnil, hmodel]
      cases (env.after P).model f₁.calls (f₁.prepareBatchInputs (env.after P)) with
      | none => exact Or.inl ⟨.model, _, _, rfl, rfl, M₂⟩
      | some logits =>
        rcases M₂.sampleTokens env logits with
          ⟨err, e₂, f₂, he', hf', M₃⟩ | ⟨tokens, e₂, f₂, he', hf', -, M₃⟩
        · exact Or.inl ⟨err, e₂, f₂, by simp only [he'], by simp only [hf'], M₃⟩
        · have M₄ : Mirrors P n (e₂.appendAll env tokens) (f₂.appendAll (env.after P) tokens) := by
            rw [appendAll, M₃.keys]
            exact appendTokens env _ M₃
          simp only [he', hf', id, M₄.finishedIds]
          exact finishAll env _ M₄

theorem runLoop : ∀ (m : ℕ) {e f : Engine}, Mirrors P n e f →
    AlikeDone P n (Engine.runLoop env m e) (Engine.runLoop (env.after P) m f)
  | 0, _, _, M => Or.inr ⟨[], _, _, rfl, rfl, fun _ h => absurd h List.not_mem_nil, M⟩
  | m + 1, e, f, M => by
      rcases M.step env with ⟨err, e₁, f₁, he, hf, M₁⟩ | ⟨qs, e₁, f₁, he, hf, hqs, M₁⟩
      · refine Or.inl ⟨err, e₁, f₁, ?_, ?_, M₁⟩
        · simp only [Engine.runLoop, he]
        · simp only [Engine.runLoop, hf]
      · have hpend : e₁.scheduler.pendingCount = f₁.scheduler.pendingCount := by
          rw [RequestScheduler.pendingCount, M₁.scheduler.pending, List.length_map]
          rfl
        simp only [Engine.runLoop, he, hf, hpend, M₁.batchSize]
        by_cases hd : f₁.scheduler.pendingCount = 0 ∧ f₁.batchSize = 0
        · rw [if_pos hd, if_pos hd]
          exact Or.inr ⟨qs, e₁, f₁, rfl, rfl, hqs, M₁⟩
        · rw [if_neg hd, if_neg hd]
          rcases runLoop m M₁ with ⟨err, e₂, f₂, he', hf', M₂⟩ | ⟨qs', e₂, f₂, he', hf', hqs', M₂⟩
          · exact Or.inl ⟨err, e₂, f₂, by simp only [he'], by simp only [hf'], M₂⟩
          · refine Or.inr ⟨qs ++ qs', e₂, f₂, ?_, by simp only [hf'],
              List.forall_mem_append.mpr ⟨hqs, hqs'⟩, M₂⟩
            simp only [he', List.map_append]

theorem submitRequest (M : Mirrors P n e f) (req : ScheduledRequest) (hid : req.requestId ∉ P.stale) :
    (e.submitRequest req).1 = (f.submitRequest req).1 ∧
      Mirrors P (n + 1) (e.submitRequest req).2 (f.submitRequest req).2 := by
  obtain ⟨hacc, S⟩ := M.scheduler.submitNew hid
  exact ⟨hacc, { M with
    scheduler := S
    live := fun k q hq => ⟨Nat.lt_succ_of_lt (M.live k q hq).1, (M.live k q hq).2⟩ }⟩

end Mirrors

end Engine

end ModelServing
