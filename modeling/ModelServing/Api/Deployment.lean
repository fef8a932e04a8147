import ModelServing.Api.Handlers
import ModelServing.Api.Isolation
import ModelServing.Engine.Usage

/-! The batching server as it is deployed. One request is handled at a time, so each finds an engine
    at rest; the pool is then empty, the queue has room, and the only thing that can still go wrong
    without an exception is that the clock passes the request's timeout before its first step. -/

namespace ModelServing

namespace Engine

variable {env : Env} {e e' : Engine} {acc : List Ref}

/-- The most ids a prompt is tokenized to. -/
def Truncates (env : Env) : Prop :=
  ∀ i prompt ids, env.tokenizer i prompt 1024 = some ids → ids.length ≤ 1024

/-- Truncated prompts need so many blocks each, and no more. -/
theorem demand_le (htok : Truncates env) (e : Engine) : ∀ (rs : List Ref) (calls : ℕ),
    demand env e calls rs ≤ rs.length * (1024 ⌈/⌉ e.cacheManager.blockSize)
  | [], _ => Nat.zero_le _
  | r :: rs, calls => by
      have hrest := demand_le htok e rs (calls + 1)
      rw [demand, List.length_cons, Nat.succ_mul, Nat.add_comm]
      refine Nat.add_le_add hrest ?_
      cases hids : env.tokenizer calls (e.request r).prompt 1024 with
      | none => exact Nat.zero_le _
      | some ids =>
        have hlen := htok _ _ _ hids
        simp only [Chunks.ceilDiv_eq]
        exact Nat.div_le_div_right (by omega)

/-- With nobody queued a step has all the room it needs. -/
theorem roomy_of_empty (B : Batch acc .idle e) (hnil : e.scheduler.pending = []) : Roomy env e := by
  intro n _ _
  have S := RequestScheduler.getNextBatch_selected B.ledger B.counted env.clock n
  have hnobody : (e.scheduler.getNextBatch env.clock n).1 = [] :=
    List.eq_nil_iff_forall_not_mem.mpr fun r hr => by
      have hp := (S.started r hr).1
      rw [hnil] at hp
      exact List.not_mem_nil hp
  have hsub := RequestScheduler.timedOut_sublist env.clock e.scheduler
  rw [hnil] at hsub
  rw [hnobody]
  exact ⟨List.sublist_nil.mp hsub, Nat.zero_le _⟩

/-- Nobody joins the queue during the loop, so room is a matter of its first iteration. -/
theorem throughout_of_empty : ∀ (n : ℕ) {e : Engine}, Batch acc .idle e → e.scheduler.pending = [] →
    Throughout env (Roomy env) n e
  | 0, _, _, _ => trivial
  | n + 1, e, B, hnil => ⟨roomy_of_empty B hnil, fun done hdone _ => by
      have hs : e.step env = (.ok done, (e.step env).2) := Prod.ext hdone rfl
      exact throughout_of_empty n (B.step hs) (pending_step B (Or.inl hnil) hs)⟩

theorem throughout_of_fitting (n : ℕ) (B : Batch acc .idle e) (hfit : Fitting e)
    (hroom : Roomy env e) : Throughout env (Roomy env) (n + 1) e :=
  ⟨hroom, fun done hdone _ => by
    have hs : e.step env = (.ok done, (e.step env).2) := Prod.ext hdone rfl
    exact throughout_of_empty n (B.step hs) (pending_step B hfit hs)⟩

/-! ### One request on a new engine -/

variable {numBlocks blockSize : ℕ} {maxBatchSize maxQueueSize : ℤ} {defaultTimeout : ℚ}
  {policy : SchedulingPolicy} {req : ScheduledRequest}

/-- The first submission to a new engine: `req` waits alone. -/
structure Single (numBlocks blockSize : ℕ) (maxBatchSize : ℤ) (req : ScheduledRequest) (e : Engine) : Prop where
  pending : e.scheduler.pending = [0]
  timesOut : ∀ now, (e.request 0).isTimedOut now = req.isTimedOut now
  ticks : e.scheduler.ticks = 0
  batch : e.batchSize = 0
  free : e.cacheManager.numFreeBlocks = numBlocks
  blockSize : e.cacheManager.blockSize = blockSize
  maxBatchSize : e.maxBatchSize = maxBatchSize

theorem submit_new (hqueue : 0 < maxQueueSize) (htimeout : req.timeoutSeconds ≠ 0) : ∃ e,
    (new maxBatchSize maxQueueSize defaultTimeout policy numBlocks blockSize).submitRequest req =
      (true, e) ∧ Single numBlocks blockSize maxBatchSize req e := by
  set s := RequestScheduler.new maxQueueSize defaultTimeout policy
  have heq : s.submitNew req = (true, { s with
      requests := (s.requests.alloc req).modify 0 fun q => { q with
        timeoutSeconds := if q.timeoutSeconds ≠ 0 then q.timeoutSeconds else s.defaultTimeout }
      pending := [0]
      totalSubmitted := 1 }) := by
    have hroom : ¬ ({ s with requests := s.requests.alloc req } : RequestScheduler).queueFull := by
      change ¬ decide (maxQueueSize ≤ 0) = true
      simpa using hqueue
    exact if_neg hroom
  refine ⟨_, Prod.ext (show (s.submitNew req).1 = true from congrArg Prod.fst heq) rfl, ?_⟩
  refine ⟨congrArg (fun x => x.2.pending) heq, fun now => ?_, congrArg (fun x => x.2.ticks) heq, rfl,
    ?_, rfl, rfl⟩
  · have hreq : (s.submitNew req).2.request 0 = req := by
      rw [heq]
      have hself := ObjectHeap.get_modify_self (s.requests.alloc req) 0 fun q => { q with
        timeoutSeconds := if q.timeoutSeconds ≠ 0 then q.timeoutSeconds else s.defaultTimeout }
      refine hself.trans ?_
      rw [show (s.requests.alloc req).get 0 = req from ObjectHeap.get_alloc_self s.requests req,
        if_pos htimeout]
    exact congrArg (ScheduledRequest.isTimedOut now) hreq
  · change ((List.range numBlocks).reverse).length = numBlocks
    rw [List.length_reverse, List.length_range]

/-- Whether a request that waits alone gets its step is up to the clock. -/
theorem Single.roomy_iff (S : Single numBlocks blockSize maxBatchSize req e) (htok : Truncates env)
    (hfit : 1024 ⌈/⌉ blockSize ≤ numBlocks) (hmax : 0 < maxBatchSize) (B : Batch acc .idle e) :
    Roomy env e ↔ req.isTimedOut (env.clock 0) = false := by
  have htimed : e.scheduler.timedOut env.clock = [] ↔ req.isTimedOut (env.clock 0) = false := by
    have hreq : (e.scheduler.request 0).isTimedOut (env.clock 0) = req.isTimedOut (env.clock 0) :=
      S.timesOut _
    simp [RequestScheduler.timedOut, S.pending, S.ticks, hreq]
  have hbatch := S.batch
  have hsize := S.maxBatchSize
  constructor
  · intro h
    exact htimed.mp (h maxBatchSize.toNat (by omega) (by omega)).1
  · intro h n _ _
    have D := RequestScheduler.getNextBatch_selected B.ledger B.counted env.clock n
    have hsub : (e.scheduler.getNextBatch env.clock n).1 ⊆ [0] := fun r hr => by
      have hp := (D.started r hr).1
      rwa [S.pending] at hp
    have hlen := (D.nodup.subperm hsub).length_le
    have hneed := demand_le htok e (e.scheduler.getNextBatch env.clock n).1 e.calls
    rw [S.blockSize] at hneed
    rw [S.free]
    refine ⟨htimed.mpr h, hneed.trans (le_trans (Nat.mul_le_mul_right _ hlen) ?_)⟩
    simpa using hfit

end Engine

namespace Server

open Engine

variable {env : Env} {e e' : Engine} {numBlocks blockSize : ℕ} {maxBatchSize maxQueueSize : ℤ}
  {defaultTimeout : ℚ} {policy : SchedulingPolicy} {request : GenerateRequest} {requestId : String}

/-- The answer made of the sequence `q`: the request's own id and prompt, the exact counts, and the text
    of the tokens that `q` has after its prompt. -/
structure Served (env : Env) (request : GenerateRequest) (requestId : String) (q : SequenceState)
    (resp : GenerateResponse) : Prop where
  requestId : resp.requestId = requestId
  prompt : resp.prompt = request.prompt
  promptTokens : ∃ i ids, env.tokenizer i request.prompt 1024 = some ids ∧
    q.inputIds = ids ++ q.generatedIds ∧ resp.usage.promptTokens = ids.length
  generatedText : ∃ i, env.decode i q.generatedIds true = some resp.generatedText
  generatedTokens : resp.usage.generatedTokens = q.generatedIds.length
  bounds : 1 ≤ q.generatedIds.length ∧ q.generatedIds.length ≤ request.maxTokens
  total : resp.usage.totalTokens = resp.usage.promptTokens + resp.usage.generatedTokens

theorem served_of_returned {evs : List Event} {q : SequenceState} {now : ℚ} (hrun : Trace.Run (Step env)
      (new maxBatchSize maxQueueSize defaultTimeout policy numBlocks blockSize) evs e)
    (hdec : Decoded evs) (hq : q ∈ returned evs) (hst : e.scheduler.statusOf q.request = .COMPLETED)
    (hsub : .submitRequest q.request (schedRequest request requestId now) true ∈ evs) :
    Served env request requestId q (response (e.request q.request)) := by
  obtain ⟨i, j, ids, hids, hinput, hprompt, hgen, htext, hbounds⟩ := usage_exact hrun hdec q hq hst
  have hp := (submitted_of_run hrun hsub _ RequestScheduler.stable_prompt).1
  have hm := (submitted_of_run hrun hsub _ RequestScheduler.stable_maxTokens).1
  have hid := (submitted_of_run hrun hsub _ RequestScheduler.stable_requestId).1
  rw [hp] at hids
  rw [hm] at hbounds
  exact ⟨hid, hp, ⟨i, ids, hids, hinput, hprompt⟩, ⟨j, htext⟩, hgen,
    hbounds request.maxTokens_bounds.1, rfl⟩

/-- A new engine serves its first request, unless the clock has passed the timeout when it is looked at
    for the first time. -/
theorem serve_new (hbs : 0 < blockSize) (hmax : 0 < maxBatchSize) (hqueue : 0 < maxQueueSize)
    (hfit : 1024 ⌈/⌉ blockSize ≤ numBlocks) (htok : Truncates env) (hid : requestId ≠ "") {now : ℚ}
    (hans : ∀ err, (serve env (new maxBatchSize maxQueueSize defaultTimeout policy numBlocks blockSize)
      request requestId now).1 ≠ .raised err) :
    (env.clock 0 - now ≤ 60 → ∃ q resp, returns env (new maxBatchSize maxQueueSize defaultTimeout policy
      numBlocks blockSize) request requestId now = .ok [q] ∧ (serve env (new maxBatchSize maxQueueSize
      defaultTimeout policy numBlocks blockSize) request requestId now).1 = .ok resp ∧
      Served env request requestId q resp) ∧
    (60 < env.clock 0 - now → (serve env (new maxBatchSize maxQueueSize defaultTimeout policy numBlocks
      blockSize) request requestId now).1 = .httpException 500 "Request not found") := by
  set req := schedRequest request requestId now with hreq
  obtain ⟨e, hs, S⟩ : ∃ e, (new maxBatchSize maxQueueSize defaultTimeout policy numBlocks
      blockSize).submitRequest req = (true, e) ∧ Single numBlocks blockSize maxBatchSize req e :=
    submit_new hqueue (show (60 : ℚ) ≠ 0 by norm_num)
  have hstep : Step env (new maxBatchSize maxQueueSize defaultTimeout policy numBlocks blockSize)
      (.submitRequest 0 req true) e := ⟨⟨rfl, fun r hr => absurd hr (Nat.not_lt_zero r)⟩, rfl, hs⟩
  have hrun := Trace.Run.single hstep
  have hplain : ∀ ev ∈ [Event.submitRequest 0 req true], Plain ev := fun ev hev => by
    rw [List.mem_singleton.mp hev]
    rfl
  have hname : Named [.submitRequest 0 req true] := fun r req' b hev => by
    simp only [List.mem_singleton, Event.submitRequest.injEq] at hev
    rw [hev.2.1]
    exact hid
  have hdec : Decoded [.submitRequest 0 req true] := by simp [Decoded]
  have B := batch_of_run hrun
  have T := straight_of_run hrun hplain
  have hroomy := S.roomy_iff htok hfit hmax B
  have htimed : req.isTimedOut (env.clock 0) = false ↔ env.clock 0 - now ≤ 60 := by
    rw [ScheduledRequest.isTimedOut, decide_eq_false_iff_not, not_lt]
    rfl
  have hfitting : Fitting e := by
    have hbatch := S.batch
    have hsize := S.maxBatchSize
    refine Or.inr ?_
    rw [S.pending, List.length_singleton]
    omega
  unfold serve at hans ⊢
  rw [returns, ← hreq]
  rw [hs] at hans ⊢
  simp only at hans ⊢
  rcases hl : e.runUntilEmpty env with ⟨err | done, e'⟩
  · rw [hl] at hans
    exact absurd rfl (hans err)
  have hloop : runLoop env 10000 e = (.ok done, e') := hl
  have T' := Straight.loop 10000 T hloop
  refine ⟨fun hin => ?_, fun hout => ?_⟩
  · have hR := throughout_of_fitting 9999 B hfitting (hroomy.mpr (htimed.mpr hin))
    have H := healthy_of_run hbs (.single ⟨hstep, fun _ h => by cases h⟩) hplain
    have H' := Healthy.loop 10000 H B hR hloop
    have R := atRest_of_submit 2048 hbs hmax rfl hid request.maxTokens_bounds.2 (by decide) hs hloop
    have hd : Drained e' := ⟨List.length_eq_zero_iff.mpr R.pending, batchSize_eq_zero_iff.mpr R.active⟩
    have hback := reportedBack_of_healthy T' H' hd (r := 0) List.mem_cons_self List.not_mem_nil
    have hst : e'.scheduler.statusOf 0 = .COMPLETED := by
      by_contra hne
      obtain ⟨msg, hmsg, -⟩ := hback.error hne
      rcases T'.errors 0 List.mem_cons_self (by rw [hmsg]; exact Option.some_ne_none msg) with h | h
      · exact (H'.alive 0 List.mem_cons_self).1 h
      · exact (H'.alive 0 List.mem_cons_self).2 h
    obtain ⟨q, hdone, hq0⟩ : ∃ q, done = [q] ∧ q.request = 0 := by
      have hall : ∀ x ∈ done.map SequenceState.request, x = 0 := by
        intro x hx
        have hcount := T'.reported x
        rw [show (returned [Event.submitRequest 0 req true]).map SequenceState.request = [] from rfl,
          List.nil_append] at hcount
        split at hcount
        · rename_i hx'
          exact List.mem_singleton.mp hx'.1
        · exact absurd hx (List.count_eq_zero.mp hcount)
      have hlen : done.length = 1 := by
        rw [← List.length_map SequenceState.request, ← hback.once]
        exact (List.count_eq_length.mpr fun x hx => (hall x hx).symm).symm
      obtain ⟨q, rfl⟩ := List.length_eq_one_iff.mp hlen
      exact ⟨q, rfl, hall _ List.mem_cons_self⟩
    have hq : q ∈ done := hdone ▸ List.mem_cons_self
    obtain ⟨dss, hsteps, rfl⟩ := loop_run 10000 hloop
    have hall := hrun.append hsteps
    have hsub : .submitRequest q.request (schedRequest request requestId now) true ∈
        [Event.submitRequest 0 req true] ++ dss.map fun ds => .step (.ok ds) := by
      rw [hq0]
      exact List.mem_append_left _ List.mem_cons_self
    have hserved := served_of_returned hall (fun h => ?_) (q := q) ?_ (hq0.symm ▸ hst) hsub
    · have hidq : e'.scheduler.idOf 0 = requestId := hq0 ▸ hserved.requestId
      have hans := hback.answer
      rw [hidq, outcome, if_pos (show (e'.request 0).status = .COMPLETED from hst)] at hans
      rw [hq0] at hserved
      exact ⟨q, _, congrArg Except.ok hdone, hans, hserved⟩
    · rcases List.mem_append.mp h with h | h
      · exact hdec h
      · simp at h
    · rw [returned, List.flatMap_append, ← returned, ← returned, returned_steps]
      exact List.mem_append_right _ hq
  · have hnot : ¬ Throughout env (Roomy env) 10000 e := fun h =>
      absurd (htimed.mp (hroomy.mp h.1)) (not_le.mpr hout)
    have Y := synced_of_run hbs hrun hname hdec
    obtain ⟨r, hr, hlost⟩ := lost_of_loop 10000 B Y T.uncancelled (Or.inr hnot) hloop
    obtain rfl : r = 0 := List.mem_singleton.mp hr
    have hnil : done.map SequenceState.request = [] := List.eq_nil_iff_forall_not_mem.mpr fun x hx => by
      have hcount := T'.reported x
      rw [show (returned [Event.submitRequest 0 req true]).map SequenceState.request = [] from rfl,
        List.nil_append] at hcount
      split at hcount
      · rename_i hx'
        obtain rfl : x = 0 := List.mem_singleton.mp hx'.1
        rcases hlost with h | h <;> cases h.symm.trans hx'.2
      · exact absurd hx (List.count_eq_zero.mp hcount)
    simp only [hnil, answer, List.find?_nil]

/-! ### After any history -/

theorem Served.of_after {P : Past} {q : SequenceState} {resp : GenerateResponse}
    (S : Served (env.after P) request requestId q resp) :
    Served env request requestId (P.state q) resp := by
  obtain ⟨i, ids, hids⟩ := S.promptTokens
  obtain ⟨j, htext⟩ := S.generatedText
  exact ⟨S.requestId, S.prompt, ⟨_, ids, hids⟩, ⟨_, htext⟩, S.generatedTokens, S.bounds, S.total⟩

/-- After any history without exceptions a request is served like the first one. The clock was read when
    it was created, and is read again when the queue is looked at. -/
theorem served_after_history {hs : List Handled} (hbs : 0 < blockSize) (hmax : 0 < maxBatchSize)
    (hqueue : 0 < maxQueueSize) (hfit : 1024 ⌈/⌉ blockSize ≤ numBlocks) (htok : Truncates env)
    (hist : Trace.Run (Handles env)
      (new maxBatchSize maxQueueSize defaultTimeout policy numBlocks blockSize) hs e)
    (hquiet : ∀ h ∈ hs, ∀ err, h.answer ≠ .raised err) (hid : NewId e requestId)
    (hans : ∀ err, (handle env e request requestId).1 ≠ .raised err) :
    (env.clock (e.scheduler.ticks + 1) - env.clock e.scheduler.ticks ≤ 60 →
      ∃ q resp, returns env e.ticked request requestId (env.clock e.scheduler.ticks) = .ok [q] ∧
        (handle env e request requestId).1 = .ok resp ∧ Served env request requestId q resp) ∧
    (60 < env.clock (e.scheduler.ticks + 1) - env.clock e.scheduler.ticks →
      (handle env e request requestId).1 = .httpException 500 "Request not found") := by
  have K := kept_of_history hist hbs
  have R := atRest_of_history hist hbs hmax hquiet
  set P := e.past (e.scheduler.ticks + 1) with hP
  have M : Mirrors P 0 e.ticked
      (new maxBatchSize maxQueueSize defaultTimeout policy numBlocks blockSize) :=
    R.ticked.mirrors K.ticked hbs (t := 0) rfl
  have heq : (handle env e request requestId).1 = (serve (env.after P) (new maxBatchSize maxQueueSize
      defaultTimeout policy numBlocks blockSize) request requestId (env.clock e.scheduler.ticks)).1 :=
    (serve_mirrors M (not_stale K hid _) (env.clock e.scheduler.ticks)).1
  have htok' : Truncates (env.after P) := fun i prompt ids h => htok _ prompt ids h
  have hnew := serve_new hbs hmax hqueue hfit htok' hid.ne_empty
    fun err herr => hans err (heq.trans herr)
  have hclock : (env.after P).clock 0 = env.clock (e.scheduler.ticks + 1) := rfl
  rw [hclock] at hnew
  refine ⟨fun hin => ?_, fun hout => heq.trans (hnew.2 hout)⟩
  obtain ⟨q, resp, hq, hresp, S⟩ := hnew.1 hin
  exact ⟨P.state q, resp, returns_mirrors M (not_stale K hid _) hq, heq.trans hresp, S.of_after⟩

/-! ### The server -/

variable {κ : Type} {o : Outside κ} {s s' : State} {evs : List (Call × Reply)} {startTime : ℚ}

/-- A call is handled under an id that no earlier call had. -/
def Numbered (o : Outside κ) (s : State) (ev : Call × Reply) (s' : State) : Prop :=
  Handling o s ev s' ∧ ∀ e, s.batchingEngine = some e → NewId e ev.1.requestId

theorem handling_generate (o : Outside κ) (s : State) (c : Call) :
    Handling o s (c, (s.generate o c).1) (s.generate o c).2 := rfl

theorem numbered_generate (o : Outside κ) (s : State) (c : Call) (hne : c.requestId ≠ "")
    (hids : ∀ e ∈ s.batchingEngine, ∀ r < e.scheduler.requests.next, e.scheduler.idOf r ≠ c.requestId) :
    Numbered o s (c, (s.generate o c).1) (s.generate o c).2 :=
  ⟨handling_generate o s c, fun e he => ⟨hne, hids e he⟩⟩

/-- What was delivered to its end was no exception. -/
theorem Reply.ne_raised {reply : Reply} {n : ℕ} {err : StepError} (h : reply.delivered = some n) :
    reply ≠ .answer (.raised err) := by
  rintro rfl
  cases h

/-- A call that is not a stream goes through the engine in batching mode. -/
theorem State.generate_batching {c : Call} (hmode : s.engineMode = "batching")
    (hplain : c.request.stream = false) (he : s.batchingEngine = some e) :
    (s.generate o c).1 = .answer (handle o.env e c.request c.requestId).1 ∧
      (s.generate o c).2.batchingEngine = some (handle o.env e c.request c.requestId).2 := by
  have heq := State.generateBatching_eq o s c
  rw [he] at heq
  obtain ⟨hreply, hengine⟩ := Prod.mk.inj heq
  rw [State.generate, if_pos ⟨hmode, by simp [hplain]⟩]
  exact ⟨hreply, hengine⟩

/-- No call switches the mode. -/
theorem State.engineMode_generate (o : Outside κ) (s : State) (c : Call) :
    (s.generate o c).2.engineMode = s.engineMode := by
  unfold State.generate
  split
  · unfold State.generateBatching
    repeat' split
    all_goals rfl
  · split
    · unfold State.generateStream
      split <;> rfl
    · unfold State.generateNaive
      repeat' split
      all_goals rfl

theorem State.generate_stream {c : Call} (hstream : c.request.stream = true) :
    (s.generate o c).2 = s ∧ ∀ a, (s.generate o c).1 = .answer a → ∃ d, a = .httpException 503 d := by
  have hgen : s.generate o c = s.generateStream o c := by simp [State.generate, hstream]
  rw [hgen, State.generateStream]
  split
  · exact ⟨rfl, fun a h => by cases h⟩
  · exact ⟨rfl, fun a h => ⟨_, (Reply.answer.inj h).symm⟩⟩

/-- In batching mode the engine sees the calls that are not streams, one after another. -/
theorem engine_of_calls (hrun : Trace.Run (Numbered o)
      (State.lifespan "batching" policy blockSize maxBatchSize startTime) evs s) :
    s.engineMode = "batching" ∧ ∃ e hs, s.batchingEngine = some e ∧
      Trace.Run (Handles o.env) (new maxBatchSize 128 60 policy 256 blockSize) hs e ∧
      ∀ h ∈ hs, ∃ ev ∈ evs, ev.2 = .answer h.answer := by
  refine hrun.invariant (I := fun evs s => s.engineMode = "batching" ∧ ∃ e hs,
    s.batchingEngine = some e ∧ Trace.Run (Handles o.env)
      (new maxBatchSize 128 60 policy 256 blockSize) hs e ∧
    ∀ h ∈ hs, ∃ ev ∈ evs, ev.2 = .answer h.answer) ?_ ?_
  · exact ⟨rfl, _, [], rfl, .nil, fun h hh => absurd hh List.not_mem_nil⟩
  rintro evs s ⟨c, reply⟩ s' - ⟨hmode, e, hs, he, hist, hold⟩ ⟨hst, hid⟩
  have hst : s.generate o c = (reply, s') := hst
  have hold' : ∀ h ∈ hs, ∃ ev ∈ evs ++ [(c, reply)], ev.2 = .answer h.answer := fun h hh =>
    (hold h hh).imp fun ev hev => ⟨List.mem_append_left _ hev.1, hev.2⟩
  cases hstream : c.request.stream with
  | true =>
    have hsame := (State.generate_stream (o := o) (s := s) hstream).1
    rw [hst] at hsame
    obtain rfl : s' = s := hsame
    exact ⟨hmode, e, hs, he, hist, hold'⟩
  | false =>
    obtain ⟨hreply, hengine⟩ := State.generate_batching (o := o) hmode hstream he
    rw [hst] at hreply hengine
    refine ⟨?_, _, hs ++ [⟨c.request, c.requestId, (handle o.env e c.request c.requestId).1⟩], hengine,
      hist.snoc (handles_handle o.env c.request (hid e he)), fun h hh => ?_⟩
    · have hsame : (s.generate o c).2.engineMode = s.engineMode := State.engineMode_generate o s c
      rw [hst] at hsame
      exact hsame.trans hmode
    · rcases List.mem_append.mp hh with hh | hh
      · exact hold' h hh
      · refine ⟨(c, reply), List.mem_append_right _ List.mem_cons_self, ?_⟩
        rw [List.mem_singleton.mp hh]
        exact hreply

/-- The deployed server in batching mode, with any policy, any batch size and blocks of at least four
    tokens: after any calls under new ids that raised nothing, a call under a new id that is not a stream
    and raises nothing makes the engine return one sequence and is answered with it, if the clock shows
    at most the timeout of 60 seconds between the creation of the request and its first step; otherwise
    with status 500. It never meets a full queue or a pool without room. -/
theorem serves_within_timeout {c : Call} {reply : Reply} (hbs : 4 ≤ blockSize) (hmax : 0 < maxBatchSize)
    (htok : Truncates o.env) (hrun : Trace.Run (Numbered o)
      (State.lifespan "batching" policy blockSize maxBatchSize startTime) evs s)
    (hquiet : ∀ ev ∈ evs, ∀ err, ev.2 ≠ .answer (.raised err))
    (hcall : Numbered o s (c, reply) s') (hplain : c.request.stream = false)
    (hreply : ∀ err, reply ≠ .answer (.raised err)) :
    ∃ e, s.batchingEngine = some e ∧
      (o.env.clock (e.scheduler.ticks + 1) - o.env.clock e.scheduler.ticks ≤ 60 →
        ∃ q resp, ((State.submitted o c e).2.runUntilEmpty o.env).1 = .ok [q] ∧
          reply = .answer (.ok resp) ∧ Served o.env c.request c.requestId q resp) ∧
      (60 < o.env.clock (e.scheduler.ticks + 1) - o.env.clock e.scheduler.ticks →
        reply = .answer (.httpException 500 "Request not found")) := by
  obtain ⟨hmode, e, hs, he, hist, hold⟩ := engine_of_calls hrun
  obtain ⟨hst, hid⟩ := hcall
  have hans := (State.generate_batching (o := o) hmode hplain he).1
  rw [show s.generate o c = (reply, s') from hst] at hans
  obtain rfl : reply = .answer (handle o.env e c.request c.requestId).1 := hans
  have hfit : 1024 ⌈/⌉ blockSize ≤ 256 := by
    rw [Chunks.ceilDiv_eq, Nat.div_le_iff_le_mul_add_pred (by omega)]
    omega
  have hserved := served_after_history (by omega) hmax (by decide) hfit htok hist
    (fun h hh err herr => ?_) (hid e he) fun err herr => hreply err (by rw [herr])
  · refine ⟨e, he, fun hin => ?_, fun hout => by rw [hserved.2 hout]⟩
    obtain ⟨q, resp, hq, hresp, S⟩ := hserved.1 hin
    exact ⟨q, resp, hq, by rw [hresp], S⟩
  · obtain ⟨ev, hev, heq⟩ := hold h hh
    exact hquiet ev hev err (by rw [heq, herr])

/-- The second call of a server with the default configuration, on clocks that stand still. -/
theorem serves_within_timeout_second :
    let o := Outside.around (Env.rowwise fun _ => [.negInf, .fin 0])
    let s := State.lifespan "batching" .fcfs 16 32 0
    let c₁ := { Call.still { prompt := "first", maxTokens := 3, prompt_bounds := by decide } with requestId := "z" }
    let c := Call.still { prompt := "p", maxTokens := 2, prompt_bounds := by decide }
    let s₁ := (s.generate o c₁).2
    ∃ q resp, (s₁.generate o c).1 = .answer (.ok resp) ∧ Served o.env c.request "a" q resp := by
  intro o s c₁ c s₁
  have hfirst := numbered_generate o s c₁ (by decide) (by decide +kernel)
  have hsecond := numbered_generate o s₁ c (by decide) (by decide +kernel)
  have hdelivered : (s.generate o c₁).1.delivered = some 3 ∧ (s₁.generate o c).1.delivered = some 2 := by
    decide +kernel
  have htok : Truncates o.env := fun i prompt ids h => by
    obtain rfl := Option.some.inj h
    exact List.length_take_le _ _
  have hquiet : ∀ ev ∈ [(c₁, (s.generate o c₁).1)], ∀ err, ev.2 ≠ .answer (.raised err) := by
    intro ev hev err
    rw [List.mem_singleton.mp hev]
    exact Reply.ne_raised hdelivered.1
  obtain ⟨e, -, hin, -⟩ := serves_within_timeout (by decide) (by decide) htok (.single hfirst) hquiet hsecond rfl
    fun _ => Reply.ne_raised hdelivered.2
  obtain ⟨q, resp, -, hresp, S⟩ := hin (by norm_num [o, Outside.around, Env.rowwise])
  exact ⟨q, resp, hresp, S⟩

end Server

end ModelServing
