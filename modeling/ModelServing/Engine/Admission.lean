import ModelServing.Engine.Repeated

/-! Admitting a request for which there is no room. The engine evicts the least recently used sequence
    before it knows whether that makes enough room, so a request that fails for lack of memory may
    have cost another one its progress. -/

namespace ModelServing

namespace RequestScheduler

variable {clock : ℕ → ℚ} {s s' : RequestScheduler} {r : Ref} {k : String}

/-- Whoever waits still waits when the queue and the status of its requests are as before. -/
theorem Waits.sublist (W : Waits s) (hpend : s'.pending.Sublist s.pending)
    (hst : ∀ x ∈ s'.pending, s'.statusOf x = s.statusOf x) : Waits s' :=
  ⟨W.nodup.sublist hpend, fun x hx => (hst x hx).trans (W.status x (hpend.subset hx))⟩

/-- A selection enters the requests it selects. -/
theorem foldl_startRunning_running_cases (rs : List Ref) (s : RequestScheduler)
    (h : (rs.foldl (startRunning clock) s).running.get? k = some r) :
    r ∈ rs ∨ s.running.get? k = some r := by
  induction rs generalizing s with
  | nil => exact Or.inr h
  | cons x rs ih =>
    rcases ih (s.startRunning clock x) h with hr | hr
    · exact Or.inl (List.mem_cons_of_mem x hr)
    · rw [startRunning_running, OrderedDict.get?_insert] at hr
      split at hr
      · cases hr
        exact Or.inl List.mem_cons_self
      · exact Or.inr hr

theorem not_mem_eraseP_of_find? {l : List Ref} {p : Ref → Bool} (h : l.find? p = some r)
    (hnd : l.Nodup) : r ∉ l.eraseP p := by
  induction l with
  | nil => cases h
  | cons x l ih =>
    obtain ⟨hx, hl⟩ := List.nodup_cons.mp hnd
    by_cases hp : p x = true
    · rw [List.find?_cons_of_pos hp] at h
      cases h
      rwa [List.eraseP_cons_of_pos hp]
    · rw [List.find?_cons_of_neg hp] at h
      rw [List.eraseP_cons_of_neg hp, List.mem_cons, not_or]
      refine ⟨?_, ih h hl⟩
      rintro rfl
      exact hx (List.mem_of_find?_eq_some h)

end RequestScheduler

namespace Engine

open RequestScheduler (Waits)

variable {env : Env} {e e' : Engine} {p p' : Point} {r : Ref} {rs : List Ref} {k : String}
  {inputIds : List ℕ}

/-! ### From the queue to the batch -/

/-- Whatever their ids, request objects go from the queue to the selection and on to the batch, and
    none of them goes back. -/
structure Onward (p : Point) (e : Engine) : Prop where
  waits : Waits e.scheduler
  pending : ∀ r ∈ e.scheduler.pending, r < e.scheduler.requests.next
  running : ∀ k r, e.scheduler.running.get? k = some r →
    r < e.scheduler.requests.next ∧ r ∉ e.scheduler.pending
  active : ∀ k q, e.activeSequences.get? k = some q →
    q.request < e.scheduler.requests.next ∧ q.request ∉ e.scheduler.pending ∧ q.request ∉ p.todo
  todo_nodup : p.todo.Nodup
  todo : ∀ r ∈ p.todo, r < e.scheduler.requests.next ∧ r ∉ e.scheduler.pending ∧
    e.scheduler.statusOf r = .RUNNING

namespace Onward

/-- A change that selects nobody. -/
theorem shrink (O : Onward p e) (hpend : e'.scheduler.pending = e.scheduler.pending)
    (hnext : e'.scheduler.requests.next = e.scheduler.requests.next)
    (hrun : ∀ k r, e'.scheduler.running.get? k = some r → e.scheduler.running.get? k = some r)
    (hact : ∀ k q', e'.activeSequences.get? k = some q' →
      (∃ q, e.activeSequences.get? k = some q ∧ q'.request = q.request) ∨
      (q'.request ∈ p.todo ∧ q'.request ∉ p'.todo))
    (htodo : p'.todo.Sublist p.todo)
    (hst : ∀ x, x ∈ e.scheduler.pending ∨ x ∈ p'.todo →
      e'.scheduler.statusOf x = e.scheduler.statusOf x) : Onward p' e' where
  waits := O.waits.sublist (hpend ▸ .refl _) fun x hx => hst x (Or.inl (hpend ▸ hx))
  pending := by rw [hpend, hnext]; exact O.pending
  running := by
    intro k r hr
    rw [hpend, hnext]
    exact O.running k r (hrun k r hr)
  active := by
    intro k q' hq'
    rw [hpend, hnext]
    rcases hact k q' hq' with ⟨q, hq, hreq⟩ | ⟨hmem, hnot⟩
    · obtain ⟨hlt, hp, ht⟩ := O.active k q hq
      rw [hreq]
      exact ⟨hlt, hp, fun hm => ht (htodo.subset hm)⟩
    · obtain ⟨hlt, hp, -⟩ := O.todo _ hmem
      exact ⟨hlt, hp, hnot⟩
  todo_nodup := O.todo_nodup.sublist htodo
  todo := by
    intro r hr
    obtain ⟨hlt, hp, hrun⟩ := O.todo r (htodo.subset hr)
    rw [hpend, hnext, hst r (Or.inr hr)]
    exact ⟨hlt, hp, hrun⟩

/-- The scheduler and the requests in the batch stay. -/
theorem same (O : Onward p e) (hs : e'.scheduler = e.scheduler)
    (hact : e'.activeSequences = e.activeSequences) (htodo : p'.todo.Sublist p.todo) :
    Onward p' e' :=
  O.shrink (by rw [hs]) (by rw [hs]) (fun k r hr => hs ▸ hr)
    (fun k q' hq' => Or.inl ⟨q', hact ▸ hq', rfl⟩) htodo fun x _ => by rw [hs]

theorem select (O : Onward .idle e) (n : ℕ) :
    Onward (.admitting (e.scheduler.getNextBatch env.clock n).1)
      { e with scheduler := (e.scheduler.getNextBatch env.clock n).2 } := by
  have D := O.waits.getNextBatch env.clock n
  obtain ⟨T, live, hsub, hperm, -⟩ := RequestScheduler.getNextBatch_split env.clock e.scheduler n
  have hnd := (hperm.nodup_iff.mpr (O.waits.nodup.sublist hsub)).of_append_left
  have hrun : ∀ k r, (e.scheduler.getNextBatch env.clock n).2.running.get? k = some r →
      r ∈ (e.scheduler.getNextBatch env.clock n).1 ∨ e.scheduler.running.get? k = some r := by
    intro k r hr
    obtain ⟨queue, -, -, heq⟩ := RequestScheduler.getNextBatch_eq env.clock e.scheduler n
    have hkept : (e.scheduler.enforceTimeouts env.clock).running = e.scheduler.running :=
      RequestScheduler.foldl_expire_running _ _
    rw [heq] at hr ⊢
    exact (RequestScheduler.foldl_startRunning_running_cases _ _ hr).imp id (hkept ▸ ·)
  have hnext : (e.scheduler.getNextBatch env.clock n).2.requests.next = e.scheduler.requests.next :=
    T.next
  refine ⟨D.waits, fun r hr => ?_, fun k r hr => ?_, fun k q hq => ?_, hnd, fun r hr => ?_⟩
  · exact hnext ▸ O.pending r (D.pending r hr).1
  · change r < (e.scheduler.getNextBatch env.clock n).2.requests.next ∧
      r ∉ (e.scheduler.getNextBatch env.clock n).2.pending
    rw [hnext]
    rcases hrun k r hr with hr | hr
    · exact ⟨O.pending r (D.started r hr).1, fun hp => (D.pending r hp).2 hr⟩
    · exact ⟨(O.running k r hr).1, fun hp => (O.running k r hr).2 (D.pending r hp).1⟩
  · obtain ⟨hlt, hp, -⟩ := O.active k q hq
    exact ⟨hnext.symm ▸ hlt, fun hm => hp (D.pending _ hm).1, fun hm => hp (D.started _ hm).1⟩
  · obtain ⟨hp, hst⟩ := D.started r hr
    exact ⟨hnext.symm ▸ O.pending r hp, fun hm => (D.pending r hm).2 hr, hst⟩

/-- A request fails that is neither queued nor still to admit. -/
theorem fail (O : Onward p e) {act : OrderedDict String SequenceState} {cache : CacheManager}
    (hact : ∀ k q, act.get? k = some q → e.activeSequences.get? k = some q)
    (htodo : p'.todo.Sublist p.todo) (hp : r ∉ e.scheduler.pending) (hr : r ∉ p'.todo) (env : Env)
    (msg : String) :
    Onward p' (Engine.fail env { e with cacheManager := cache, activeSequences := act } r msg) := by
  have T := RequestScheduler.touches_fail env.clock msg e.scheduler r
  refine O.shrink rfl rfl (fun _ _ h => h) (fun k q hq => Or.inl ⟨q, hact k q hq, rfl⟩) htodo ?_
  rintro x (hx | hx)
  · exact T.status fun h : x = r => hp (h ▸ hx)
  · exact T.status fun h : x = r => hr (h ▸ hx)

theorem micro {a : Action} (O : Onward p e) (h : Micro env (p, e) a (p', e')) : Onward p' e' := by
  cases h with
  | full _ | rest _ | done | raiseTokenizer _ | raiseEvict _ | raiseModel _ _ =>
    exact O.same rfl rfl (List.nil_sublist _)
  | raiseSampler _ _ hs =>
    obtain rfl := (Prod.mk.inj hs).2
    exact O.same rfl rfl (List.nil_sublist _)
  | select _ _ => exact O.select _
  | @tokenize _ r rs inputIds _ =>
    refine O.shrink rfl rfl (fun _ _ h => h) (fun k q hq => Or.inl ⟨q, hq, rfl⟩) (.refl _) ?_
    exact fun x _ => statusOf_tokenized e r inputIds x
  | @place _ r rs inputIds t cache _ =>
    refine O.shrink rfl rfl (fun _ _ h => h) (fun k q' hq' => ?_) (List.sublist_cons_self _ _)
      fun _ _ => rfl
    rw [get?_activate] at hq'
    split at hq'
    · cases hq'
      exact Or.inr ⟨List.mem_cons_self, (List.nodup_cons.mp O.todo_nodup).1⟩
    · exact Or.inl ⟨q', hq', rfl⟩
  | @evict _ r rs inputIds _ v cache _ _ =>
    rcases dropEvicted_cases env (e.withCache cache) v with ⟨heq, -⟩ | ⟨q, -, hq, heq⟩ <;> rw [heq]
    · exact O.same rfl rfl (.refl _)
    · obtain ⟨-, hp, ht⟩ := O.active v q hq
      exact O.fail (fun k q' hq' => OrderedDict.get?_of_erase hq') (.refl _) hp ht env _
  | @reject _ r rs _ _ _ =>
    obtain ⟨-, hp, -⟩ := O.todo r List.mem_cons_self
    have hr : r ∉ (Point.admitting rs).todo := (List.nodup_cons.mp O.todo_nodup).1
    have htodo : (Point.admitting rs).todo.Sublist (r :: rs) := List.sublist_cons_self _ _
    exact O.fail (fun _ _ h => h) htodo hp hr env _
  | append _ _ hs =>
    have P := appendAll_appended hs
    refine O.shrink (by rw [P.scheduler]) (by rw [P.scheduler]) (fun k r hr => P.scheduler ▸ hr)
      (fun k q' hq' => ?_) (.refl _) fun x _ => by rw [P.scheduler]
    obtain ⟨q, t, hq, rfl⟩ := P.get_old hq'
    exact Or.inl ⟨q, hq, SequenceState.append_request ..⟩
  | @finish _ _ id _ _ hf | @raiseFinish _ _ id _ _ hf =>
    have herase : ∀ k q, (e.activeSequences.erase id).get? k = some q →
        e.activeSequences.get? k = some q := fun _ _ hq => OrderedDict.get?_of_erase hq
    rcases finish_cases hf with ⟨-, -, rfl⟩ | ⟨q, -, ⟨-, -, rfl⟩ | ⟨text, -, -, rfl⟩⟩
    · exact O.same rfl rfl (List.nil_sublist _)
    · exact O.shrink rfl rfl (fun _ _ h => h) (fun k q hq => Or.inl ⟨q, herase k q hq, rfl⟩)
        (List.nil_sublist _) fun _ _ => rfl
    · obtain ⟨hpend, -, hnext, hframe, -⟩ := RequestScheduler.completeRequest_frame env.clock
        e.scheduler id text q.generatedIds.length
      refine O.shrink hpend hnext (fun k r hr => ?_) (fun k q hq => Or.inl ⟨q, herase k q hq, rfl⟩)
        (List.nil_sublist _) ?_
      · change (RequestScheduler.completeRequest ..).running.get? k = some r at hr
        unfold RequestScheduler.completeRequest at hr
        split at hr
        · exact hr
        · exact OrderedDict.get?_of_erase hr
      · rintro x (hx | hx)
        · exact congrArg ScheduledRequest.status (hframe x fun hr => (O.running id x hr).2 hx)
        · cases hx

theorem submit (O : Onward .idle e) {req : ScheduledRequest} (hst : req.status = .PENDING) :
    Onward .idle (e.submitRequest req).2 := by
  have D := RequestScheduler.submitNew_added e.scheduler req
  change RequestScheduler.Added e.scheduler req _ (e.submitRequest req).2.scheduler at D
  set new := e.scheduler.queued (e.scheduler.submitNew req).1 with hnew
  have hnext : ∀ r ∈ new, r = e.scheduler.requests.next := fun r hr =>
    RequestScheduler.eq_of_mem_queued hr
  have hnd : new.Nodup := by
    rw [hnew, RequestScheduler.queued]
    split <;> simp
  have hlt : ∀ {r}, r < e.scheduler.requests.next →
      r < (e.submitRequest req).2.scheduler.requests.next := fun h => by
    rw [D.next]
    exact Nat.lt_succ_of_lt h
  have hout : ∀ {r}, r < e.scheduler.requests.next → r ∉ e.scheduler.pending →
      r ∉ (e.submitRequest req).2.scheduler.pending := by
    intro r hr hp hm
    rw [D.pending] at hm
    exact (List.mem_append.mp hm).elim hp fun hm => absurd (hnext r hm) (Nat.ne_of_lt hr)
  refine ⟨⟨?_, fun r hr => ?_⟩, fun r hr => ?_, fun k r hr => ?_, fun k q hq => ?_, List.nodup_nil,
    fun r hr => absurd hr List.not_mem_nil⟩
  · rw [D.pending]
    refine O.waits.nodup.append hnd fun r hr hr' => ?_
    exact absurd (O.pending r hr) ((hnext r hr').symm ▸ Nat.lt_irrefl _)
  · rw [D.pending] at hr
    rcases List.mem_append.mp hr with hr | hr
    · exact (D.statusOf_old (O.pending r hr)).trans (O.waits.status r hr)
    · exact hnext r hr ▸ D.statusOf_next.trans hst
  · rw [D.pending] at hr
    rcases List.mem_append.mp hr with hr | hr
    · exact hlt (O.pending r hr)
    · rw [hnext r hr, D.next]
      exact Nat.lt_succ_self _
  · rw [D.rest.1] at hr
    obtain ⟨h, hp⟩ := O.running k r hr
    exact ⟨hlt h, hout h hp⟩
  · obtain ⟨h, hp, -⟩ := O.active k q hq
    exact ⟨hlt h, hout h hp, List.not_mem_nil⟩

theorem cancel (O : Onward .idle e) (env : Env) (k : String) :
    Onward .idle (e.cancelRequest env k).2 := by
  -- the cancelled request leaves the queue, or was not in it
  have hcancel : ∀ (r : Ref) (pending : List Ref) (running completed : OrderedDict String Ref) (n : ℕ),
      pending.Sublist e.scheduler.pending → r ∉ pending →
      (∀ k x, running.get? k = some x → e.scheduler.running.get? k = some x) →
      Onward .idle { e with scheduler := { e.scheduler.call env.clock r .cancel with
        pending := pending, running := running, completed := completed, totalCancelled := n } } := by
    intro r pending running completed n hsub hr hrun
    have T := RequestScheduler.touches_call env.clock .cancel (fun _ h => h.cancel) e.scheduler r
    refine ⟨O.waits.sublist hsub fun x hx => ?_, fun x hx => O.pending x (hsub.subset hx),
      fun k x hx => ?_, fun k q hq => ?_, List.nodup_nil, fun x hx => absurd hx List.not_mem_nil⟩
    · exact T.status fun h : x = r => hr (h ▸ hx)
    · obtain ⟨hlt, hp⟩ := O.running k x (hrun k x hx)
      exact ⟨hlt, fun hm => hp (hsub.subset hm)⟩
    · obtain ⟨hlt, hp, -⟩ := O.active k q hq
      exact ⟨hlt, fun hm => hp (hsub.subset hm), List.not_mem_nil⟩
  simp only [cancelRequest, RequestScheduler.cancelRequest]
  split
  · rename_i r hfind
    refine hcancel r _ _ _ _ List.eraseP_sublist ?_ fun _ _ h => h
    exact RequestScheduler.not_mem_eraseP_of_find? hfind O.waits.nodup
  · split
    · rename_i r hr
      exact hcancel r _ _ _ _ (.refl _) (O.running k r hr).2 fun _ _ h => OrderedDict.get?_of_erase h
    · exact O

end Onward

/-! ### Runs -/

variable {maxBatchSize maxQueueSize : ℤ} {defaultTimeout : ℚ} {policy : SchedulingPolicy}
  {numBlocks blockSize : ℕ} {evs : List Event} {as : List Action}

theorem onward_of_calls (hrun : Trace.Run (Call env)
      (new maxBatchSize maxQueueSize defaultTimeout policy numBlocks blockSize) evs e) :
    Onward .idle e := by
  refine hrun.always (I := Onward .idle) ⟨⟨List.nodup_nil, fun _ h => absurd h List.not_mem_nil⟩,
    fun _ h => absurd h List.not_mem_nil, fun _ _ h => absurd h (by simp [new, RequestScheduler.new]),
    fun _ _ h => absurd h (by simp [new]),
    List.nodup_nil, fun _ h => absurd h List.not_mem_nil⟩ ?_
  rintro e ev e' O hst
  cases ev with
  | submitRequest r req b =>
    obtain ⟨hpend, -, heq⟩ := hst
    obtain rfl := (Prod.mk.inj heq).2
    exact O.submit hpend
  | cancelRequest k b =>
    obtain rfl := (Prod.mk.inj hst).2
    exact O.cancel env k
  | step res =>
    obtain ⟨qs, ⟨as, hmicro, -⟩, -⟩ := step_leads hst
    have O' : Onward (land (.ended none) res) e' :=
      hmicro.always (I := fun c : Point × Engine => Onward c.1 c.2) O fun _ _ _ O hm => O.micro hm
    exact O'.same rfl rfl (List.nil_sublist _)

/-! ### Admitting one request -/

/-- The table of the sequence that an eviction would take. -/
def lruTable (e : Engine) : Option BlockTable :=
  e.cacheManager.accessOrder.keys.head?.bind e.cacheManager.blockTables.get?

/-- There is no room for `n` tokens, not even in the place of the least recently used sequence. -/
def Starved (e : Engine) (n : ℕ) : Prop :=
  e.cacheManager.numFreeBlocks + e.lruTable.elim 0 BlockTable.numBlocks <
    n ⌈/⌉ e.cacheManager.blockSize

/-- `r` has failed for lack of memory. -/
def Rejected (e : Engine) (r : Ref) : Prop :=
  e.scheduler.statusOf r = .FAILED ∧ (e.request r).error = some "Insufficient KV-cache memory"

/-- Every sequence of the batch has its tokens and its table and is running. -/
def GoesOn (e e' : Engine) : Prop := ∀ k q, e.activeSequences.get? k = some q →
  e'.activeSequences.get? k = some q ∧
  e'.cacheManager.blockTables.get? k = e.cacheManager.blockTables.get? k ∧
  e'.scheduler.statusOf q.request = .RUNNING

/-- If admitting `r` ends with `r` rejected, the batch has been left alone. -/
def DisturbsNobody (env : Env) (e : Engine) (r : Ref) : Prop :=
  ∀ e', e.admitRequest env r = (.ok (), e') → Rejected e' r → GoesOn e e'

theorem dropEvicted_cacheManager (env : Env) (e : Engine) (v : Option String) :
    (e.dropEvicted env v).cacheManager = e.cacheManager := by
  cases v with
  | none => rfl
  | some v =>
    rcases dropEvicted_cases env e v with ⟨heq, -⟩ | ⟨q, -, -, heq⟩ <;> rw [heq]
    rfl

/-- An eviction frees the blocks of the least recently used sequence. -/
theorem evicted_room (O : e.cacheManager.Owned) {v : Option String} {cache : CacheManager}
    (h : e.cacheManager.evictLru = (.ok v, cache)) :
    cache.blockSize = e.cacheManager.blockSize ∧
      cache.numFreeBlocks = e.cacheManager.numFreeBlocks + e.lruTable.elim 0 BlockTable.numBlocks := by
  cases v with
  | none =>
    obtain ⟨hnil, rfl⟩ := CacheManager.evictLru_none h
    simp [lruTable, hnil]
  | some v =>
    obtain ⟨hhead, ⟨t, ht⟩, -⟩ := CacheManager.evictLru_ok h
    have F := (O.evicted h).2.2
    exact ⟨F.blockSize, by simp [lruTable, hhead, ht, F.free t ht]⟩

/-- Placing a request: with room it joins the batch, perhaps in the place of another, and without it
    is rejected after an eviction. -/
theorem place_iff_starved (O : e.cacheManager.Owned) (K : e.cacheManager.Keyed) (env : Env) (r : Ref)
    (inputIds : List ℕ) :
    (¬ Starved e inputIds.length ∧ ∃ e₂ cache,
      e.place env r inputIds = (.ok (), (e₂.withCache cache).activate r inputIds) ∧
      (e₂ = e ∨ ∃ v cache, e₂ = (e.withCache cache).dropEvicted env v)) ∨
    (Starved e inputIds.length ∧ ∃ v cache, e.cacheManager.evictLru = (.ok v, cache) ∧
      e.place env r inputIds = (.ok (), ((e.withCache cache).dropEvicted env v).fail env r
        "Insufficient KV-cache memory")) := by
  rcases place_cases (Prod.eta (e.place env r inputIds)).symm with ⟨t, cache, h₁, hres, he⟩ |
    ⟨err, -, ⟨err', cache, h₂, -, -⟩ | ⟨v, cache, e₂, h₂, he₂, hres, h₃⟩⟩
  · have hle := (O.allocateSequence_ok_iff _ _).mp ⟨t, cache, h₁⟩
    exact Or.inl ⟨not_lt.mpr (hle.trans (Nat.le_add_right _ _)), e, cache, Prod.ext hres he, Or.inl rfl⟩
  · exact absurd (congrArg Prod.fst h₂) (K.evictLru_ne_error err')
  · have hcache : e₂.cacheManager = cache := he₂ ▸ dropEvicted_cacheManager env _ v
    have hown : e₂.cacheManager.Owned := by simpa only [h₂, hcache] using O.evictLru
    obtain ⟨hsize, hfree⟩ := evicted_room O h₂
    have hroom : (∃ t m, e₂.allocate r inputIds.length = (.ok t, m)) ↔ ¬ Starved e inputIds.length := by
      rw [Starved, not_lt, ← hfree, ← hsize, ← hcache]
      exact hown.allocateSequence_ok_iff _ _
    rcases h₃ with ⟨t, cache', h₃, he⟩ | ⟨err', h₃, he⟩
    · exact Or.inl ⟨hroom.mp ⟨t, cache', h₃⟩, e₂, cache', Prod.ext hres he, Or.inr ⟨v, cache, he₂⟩⟩
    · refine Or.inr ⟨not_not.mp fun hs => ?_, v, cache, h₂, Prod.ext hres (he₂ ▸ he)⟩
      obtain ⟨t, m, h⟩ := hroom.mpr hs
      cases h₃.symm.trans h

/-- Up to the admission of `r`, in any run. -/
structure Admitting (e : Engine) (r : Ref) (rs : List Ref) : Prop where
  owned : e.cacheManager.Owned
  keyed : e.cacheManager.Keyed
  onward : Onward (.admitting (r :: rs)) e

theorem admitting_of_run {e₀ : Engine} (hbs : 0 < blockSize) (hrun : Trace.Run (Call env)
      (new maxBatchSize maxQueueSize defaultTimeout policy numBlocks blockSize) evs e₀)
    (hstep : Trace.Run (Micro env) (.idle, e₀) as (.admitting (r :: rs), e)) :
    Admitting e r rs := by
  obtain ⟨O, K, -⟩ := consistent_of_calls hbs hrun
  have h := hstep.always (I := fun c : Point × Engine => c.2.cacheManager.Owned ∧
    c.2.cacheManager.Keyed ∧ Onward c.1 c.2) ⟨O, K, onward_of_calls hrun⟩
    fun c a c' ⟨O, K, N⟩ hm => ⟨owned_micro O hm, keyed_micro O K hm, N.micro hm⟩
  exact ⟨h.1, h.2.1, h.2.2⟩

namespace Admitting

variable {q : SequenceState} {e₂ : Engine}

theorem ne_active (A : Admitting e r rs) (hq : e.activeSequences.get? k = some q) : q.request ≠ r := by
  rintro rfl
  exact (A.onward.active k q hq).2.2 List.mem_cons_self

/-- The engine when the prompt of `r` has been tokenized. -/
theorem tokenized (A : Admitting e r rs) (inputIds : List ℕ) :
    (e.tokenized r inputIds).cacheManager.Owned ∧ (e.tokenized r inputIds).cacheManager.Keyed ∧
    ∀ x, (e.tokenized r inputIds).scheduler.statusOf x = e.scheduler.statusOf x :=
  ⟨A.owned, A.keyed, statusOf_tokenized e r inputIds⟩

/-- An eviction does not touch `r`. -/
theorem statusOf_dropEvicted (A : Admitting e r rs) (env : Env) (inputIds : List ℕ)
    (cache : CacheManager) (v : Option String) :
    (((e.tokenized r inputIds).withCache cache).dropEvicted env v).scheduler.statusOf r = .RUNNING := by
  have hr := (A.onward.todo r List.mem_cons_self).2.2
  rw [← (A.tokenized inputIds).2.2 r] at hr
  cases v with
  | none => exact hr
  | some v =>
    rcases dropEvicted_cases env ((e.tokenized r inputIds).withCache cache) v with
      ⟨heq, -⟩ | ⟨q, -, hq, heq⟩ <;> rw [heq]
    · exact hr
    · exact ((RequestScheduler.touches_fail ..).status fun h : r = q.request =>
        A.ne_active hq h.symm).trans hr

/-- With room for it, `r` is not rejected. -/
theorem not_rejected (A : Admitting e r rs) {inputIds : List ℕ}
    (ht : env.tokenizer e.calls (e.request r).prompt 1024 = some inputIds)
    (hroom : ¬ Starved e inputIds.length) (h : e.admitRequest env r = (.ok (), e')) :
    ¬ Rejected e' r := by
  rintro ⟨hf, -⟩
  obtain ⟨O, K, hst⟩ := A.tokenized inputIds
  simp only [admitRequest, ht] at h
  rcases place_iff_starved O K env r inputIds with ⟨-, e₂, cache, heq, hor⟩ | ⟨hs, -⟩
  · rw [heq] at h
    cases h
    change e₂.scheduler.statusOf r = .FAILED at hf
    rcases hor with rfl | ⟨v, cache', rfl⟩
    · rw [hst, (A.onward.todo r List.mem_cons_self).2.2] at hf
      cases hf
    · rw [A.statusOf_dropEvicted] at hf
      cases hf
  · exact hroom hs

/-- A rejection that loses no sequence of the batch leaves it alone if it was running. -/
theorem goesOn_fail_iff (A : Admitting e r rs) (hact : e₂.activeSequences = e.activeSequences)
    (hst : ∀ x, e₂.scheduler.statusOf x = e.scheduler.statusOf x)
    (htab : ∀ k q, e.activeSequences.get? k = some q →
      e₂.cacheManager.blockTables.get? k = e.cacheManager.blockTables.get? k) :
    GoesOn e (e₂.fail env r "Insufficient KV-cache memory") ↔ ∀ k q,
      e.activeSequences.get? k = some q → e.scheduler.statusOf q.request = .RUNNING := by
  have hsame : ∀ k q, e.activeSequences.get? k = some q →
      (e₂.fail env r "Insufficient KV-cache memory").scheduler.statusOf q.request =
        e.scheduler.statusOf q.request := fun k q hq =>
    ((RequestScheduler.touches_fail ..).status (A.ne_active hq)).trans (hst _)
  constructor
  · intro hgo k q hq
    exact hsame k q hq ▸ (hgo k q hq).2.2
  · intro hrun k q hq
    exact ⟨hact.symm ▸ hq, htab k q hq, (hsame k q hq).trans (hrun k q hq)⟩

/-- Without room for it, `r` is rejected, and the batch is left alone exactly where the sequence that
    was evicted did not belong to it. -/
theorem rejected (A : Admitting e r rs) {inputIds : List ℕ}
    (ht : env.tokenizer e.calls (e.request r).prompt 1024 = some inputIds)
    (hs : Starved e inputIds.length) : ∃ e', e.admitRequest env r = (.ok (), e') ∧ Rejected e' r ∧
      (GoesOn e e' ↔
        (∀ v, e.cacheManager.accessOrder.keys.head? = some v → v ∉ e.activeSequences.keys) ∧
        ∀ k q, e.activeSequences.get? k = some q → e.scheduler.statusOf q.request = .RUNNING) := by
  obtain ⟨O, K, hst⟩ := A.tokenized inputIds
  rcases place_iff_starved O K env r inputIds with ⟨hroom, -⟩ | ⟨-, v, cache, hv, heq⟩
  · exact absurd hs hroom
  · set e₁ := e.tokenized r inputIds
    set e₂ := (e₁.withCache cache).dropEvicted env v with he₂
    have hcache : e₂.cacheManager = cache := dropEvicted_cacheManager env _ v
    refine ⟨e₂.fail env r "Insufficient KV-cache memory", ?_, ⟨?_, ?_⟩, ?_⟩
    · simp only [admitRequest, ht]
      exact heq
    · exact RequestScheduler.statusOf_fail ..
    · exact congrArg ScheduledRequest.error
        (RequestScheduler.request_call_self env.clock (.fail "Insufficient KV-cache memory")
          e₂.scheduler r)
    · change e.cacheManager.evictLru = (.ok v, cache) at hv
      cases v with
      | none =>
        obtain ⟨hnil, rfl⟩ := CacheManager.evictLru_none hv
        have hact : e₂.activeSequences = e.activeSequences := rfl
        rw [A.goesOn_fail_iff hact hst fun _ _ _ => rfl, hnil]
        refine ⟨fun h => ⟨fun v hv => ?_, h⟩, And.right⟩
        cases hv
      | some w =>
        obtain ⟨hhead, ⟨t, htable⟩, -⟩ := CacheManager.evictLru_ok hv
        have F := (A.owned.evicted hv).2.2
        simp only [hhead, Option.some.injEq, forall_eq']
        by_cases hw : w ∈ e.activeSequences.keys
        · obtain ⟨q, hq⟩ := OrderedDict.mem_keys_iff.mp hw
          refine iff_of_false (fun hgo => ?_) fun h => h.1 hw
          have hlost : cache.blockTables.get? w = _ := hcache ▸ (hgo w q hq).2.1
          rw [F.tables w, if_pos rfl, htable] at hlost
          cases hlost
        · have hsame : e₂ = e₁.withCache cache := by
            rcases dropEvicted_cases env (e₁.withCache _) w with ⟨heq, -⟩ | ⟨q, -, hq, -⟩
            · exact heq
            · exact absurd (OrderedDict.mem_keys_of_get? hq) hw
          rw [A.goesOn_fail_iff (by rw [hsame]; rfl) (by rw [hsame]; exact hst) fun k q hq => ?_]
          · exact ⟨fun h => ⟨hw, h⟩, And.right⟩
          · have hne : k ≠ w := by
              rintro rfl
              exact hw (OrderedDict.mem_keys_of_get? hq)
            rw [hcache, F.tables k, if_neg hne]

end Admitting

/-- CORRECT: in every reachable state, at every place in a selection: admitting a request that ends up
    rejected leaves the batch alone if and only if, should the request lack room even in the place of
    the least recently used sequence, that sequence is not in the batch (and the batch is running). -/
theorem disturbs_nobody_iff {e₀ : Engine} (hbs : 0 < blockSize) (hrun : Trace.Run (Call env)
      (new maxBatchSize maxQueueSize defaultTimeout policy numBlocks blockSize) evs e₀)
    (hstep : Trace.Run (Micro env) (.idle, e₀) as (.admitting (r :: rs), e)) :
    DisturbsNobody env e r ↔
      ∀ inputIds, env.tokenizer e.calls (e.request r).prompt 1024 = some inputIds →
        Starved e inputIds.length →
        (∀ v, e.cacheManager.accessOrder.keys.head? = some v → v ∉ e.activeSequences.keys) ∧
        ∀ k q, e.activeSequences.get? k = some q → e.scheduler.statusOf q.request = .RUNNING := by
  have A := admitting_of_run hbs hrun hstep
  constructor
  · intro hD inputIds ht hs
    obtain ⟨e', heq, hrej, hiff⟩ := A.rejected ht hs
    exact hiff.mp (hD e' heq hrej)
  · intro hcond e' heq hrej
    cases ht : env.tokenizer e.calls (e.request r).prompt 1024 with
    | none =>
      simp only [admitRequest, ht, Prod.mk.injEq, reduceCtorEq, false_and] at heq
    | some inputIds =>
      by_cases hs : Starved e inputIds.length
      · obtain ⟨e'', heq', -, hiff⟩ := A.rejected ht hs
        obtain rfl := (Prod.mk.inj (heq.symm.trans heq')).2
        exact hiff.mpr (hcond inputIds ht hs)
      · exact absurd hrej (A.not_rejected ht hs heq)

/-- A pool of three blocks of one token, of which "a" keeps one after the decoding of its output has
    raised: "c" does not fit even in its place and is rejected, and "b" goes on. -/
theorem disturbs_nobody_iff_left :
    let env := { Env.rowwise (fun _ => [.negInf, .fin 0]) with decode := fun _ _ _ => none }
    let req : String → String → ℕ → ScheduledRequest := fun k prompt maxTokens =>
      { requestId := k, prompt := prompt, maxTokens := maxTokens, temperature := 0, createdAt := 0 }
    let e₁ := (((new 3 8 60 .fcfs 3 1).submitRequest (req "a" "p" 1)).2.submitRequest (req "b" "p" 3)).2
    let e₀ := ((e₁.step env).2.submitRequest (req "c" "pqr" 1)).2
    let e : Engine := { e₀ with scheduler := (e₀.scheduler.getNextBatch env.clock 2).2 }
    let e' := (e.admitRequest env 2).2
    (e₁.step env).1 = .error .decode ∧ e.cacheManager.accessOrder.keys = ["a", "b"] ∧
    e.activeSequences.keys = ["b"] ∧ DisturbsNobody env e 2 ∧ Rejected e' 2 ∧ GoesOn e e' := by
  intro env req e₁ e₀ e e'
  have hrun := (((Trace.Run.single (call_submitRequest env (new 3 8 60 .fcfs 3 1)
    (req "a" "p" 1) rfl)).snoc (call_submitRequest env _ (req "b" "p" 3) rfl)).snoc
      (call_step env _)).snoc (call_submitRequest env _ (req "c" "pqr" 1) rfl)
  have hbatch : (e₀.scheduler.getNextBatch env.clock 2).1 = [2] := by decide +kernel
  have hstep : Trace.Run (Micro env) (.idle, e₀) [.quiet] (.admitting [2], e) :=
    hbatch ▸ .single (.select (n := 2) (by decide +kernel) two_pos)
  have hrej : (e.admitRequest env 2).1 = .ok () ∧ Rejected e' 2 := by
    unfold Rejected
    decide +kernel
  have hlru : e.cacheManager.accessOrder.keys = ["a", "b"] := by decide +kernel
  have hkeys : e.activeSequences.keys = ["b"] := by decide +kernel
  have hD : DisturbsNobody env e 2 := by
    refine (disturbs_nobody_iff (by decide) hrun hstep).mpr fun _ _ _ => ⟨fun v hv => ?_, fun k q hq => ?_⟩
    · rw [hlru] at hv
      obtain rfl : "a" = v := Option.some.inj hv
      rw [hkeys]
      decide
    · obtain rfl : k = "b" := List.mem_singleton.mp (hkeys ▸ OrderedDict.mem_keys_of_get? hq)
      have hreq : (e.activeSequences.get? "b").map SequenceState.request = some 1 := by decide +kernel
      rw [hq] at hreq
      rw [show q.request = 1 from Option.some.inj hreq]
      decide +kernel
  exact ⟨by decide +kernel, hlru, hkeys, hD, hrej.2, hD e' (Prod.ext hrej.1 rfl) hrej.2⟩

/-- A pool of two blocks: "b" would need three, and "a" has been evicted for nothing. -/
theorem not_disturbs_nobody :
    let env := Env.rowwise fun _ => [.negInf, .fin 0]
    let req : String → String → ScheduledRequest := fun k prompt =>
      { requestId := k, prompt := prompt, maxTokens := 3, temperature := 0, createdAt := 0 }
    let e₀ := ((((new 2 8 60 .fcfs 2 1).submitRequest (req "a" "p")).2.step env).2.submitRequest
      (req "b" "pqr")).2
    let e : Engine := { e₀ with scheduler := (e₀.scheduler.getNextBatch env.clock 1).2 }
    let e' := (e.admitRequest env 1).2
    (∃ evs, Trace.Run (Step env) (new 2 8 60 .fcfs 2 1) evs e₀) ∧
    Micro env (.idle, e₀) .quiet (.admitting [1], e) ∧ ¬ DisturbsNobody env e 1 ∧
    e.scheduler.statusOf 0 = .RUNNING ∧ e'.scheduler.statusOf 0 = .FAILED ∧
    e'.scheduler.statusOf 1 = .FAILED ∧ e'.batchSize = 0 := by
  intro env req e₀ e e'
  have hbatch : (e₀.scheduler.getNextBatch env.clock 1).1 = [1] := by decide +kernel
  have hf₁ : RequestScheduler.Fresh (new 2 8 60 .fcfs 2 1).scheduler (req "a" "p") :=
    ⟨rfl, fun r hr => absurd hr (Nat.not_lt_zero r)⟩
  have hf₂ : RequestScheduler.Fresh
      (((new 2 8 60 .fcfs 2 1).submitRequest (req "a" "p")).2.step env).2.scheduler (req "b" "pqr") := by
    refine ⟨rfl, fun r hr => ?_⟩
    have hnext : (((new 2 8 60 .fcfs 2 1).submitRequest (req "a" "p")).2.step
      env).2.scheduler.requests.next = 1 := by decide +kernel
    obtain rfl : r = 0 := by omega
    decide +kernel
  have hrun := ((Trace.Run.single (step_submitRequest env _ _ hf₁)).snoc (step_step env _)).snoc
    (step_submitRequest env _ _ hf₂)
  refine ⟨⟨_, hrun⟩, hbatch ▸ .select (n := 1) (by decide +kernel) one_pos, fun hD => ?_,
    by decide +kernel, by decide +kernel, by decide +kernel, by decide +kernel⟩
  have hok : (e.admitRequest env 1).1 = .ok () := by decide +kernel
  have hgo := hD e' (Prod.ext hok rfl) ⟨by decide +kernel, by decide +kernel⟩
  obtain ⟨q, hq⟩ : ∃ q, e.activeSequences.get? "a" = some q :=
    OrderedDict.mem_keys_iff.mp (by decide +kernel)
  have hkey := OrderedDict.mem_keys_of_get? (hgo "a" q hq).1
  exact absurd hkey (by decide +kernel)

end Engine

end ModelServing
