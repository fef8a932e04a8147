import ModelServing.Api.Server
import ModelServing.Engine.Rest

/-! What earlier requests leave behind for later ones. A request handled without an exception leaves
    the engine at rest, and an engine at rest answers a request as a fresh one would. A request that
    ends in an exception stays in the batch, where the next one runs into the same exception. -/

namespace ModelServing

open Engine

namespace Server

variable {env : Env} {e e' : Engine} {numBlocks blockSize : ℕ} {maxBatchSize maxQueueSize : ℤ}
  {defaultTimeout : ℚ} {policy : SchedulingPolicy} {request : GenerateRequest} {requestId : String}

/-- The server gives each request an id that is new and not empty. -/
structure NewId (e : Engine) (requestId : String) : Prop where
  ne_empty : requestId ≠ ""
  unused : ∀ r < e.scheduler.requests.next, e.scheduler.idOf r ≠ requestId

/-- A request that was handled, its id and its answer. -/
structure Handled where
  request : GenerateRequest
  requestId : String
  answer : Answer

/-- The requests are handled one after another. -/
def Handles (env : Env) (e : Engine) (h : Handled) (e' : Engine) : Prop :=
  NewId e h.requestId ∧ handle env e h.request h.requestId = (h.answer, e')

theorem handles_handle (env : Env) (request : GenerateRequest) (hid : NewId e requestId) :
    Handles env e ⟨request, requestId, (handle env e request requestId).1⟩
      (handle env e request requestId).2 := ⟨hid, rfl⟩

theorem fresh_schedRequest (request : GenerateRequest) (hid : NewId e requestId) (now : ℚ) :
    RequestScheduler.Fresh e.scheduler (schedRequest request requestId now) := ⟨rfl, hid.unused⟩

theorem kept_serve (env : Env) (request : GenerateRequest) {e₀ : Engine} (K : Kept e₀ e)
    (hid : NewId e requestId) (now : ℚ) :
    Kept e₀ (serve env e request requestId now).2 := by
  have K₁ := K.submit (fresh_schedRequest request hid now)
  unfold serve
  rcases hs : e.submitRequest (schedRequest request requestId now) with ⟨_ | _, e₁⟩
  · rwa [hs] at K₁
  · rw [hs] at K₁
    have K₂ := K₁.runLoop env 10000
    simp only
    rcases hl : e₁.runUntilEmpty env with ⟨err | completed, e₂⟩ <;>
      rwa [← runUntilEmpty, hl] at K₂

theorem kept_handle (env : Env) (request : GenerateRequest) {e₀ : Engine} (K : Kept e₀ e)
    (hid : NewId e requestId) : Kept e₀ (handle env e request requestId).2 :=
  kept_serve env request K.ticked ⟨hid.ne_empty, hid.unused⟩ _

/-! ### Mirrored engines give mirrored answers -/

section Mirrored

variable {P : Past} {n : ℕ} {f : Engine}

theorem answer_mirrors (M : Mirrors P n e f) (rs : List Ref) (hrs : ∀ r ∈ rs, r < n)
    (requestId : String) : answer e (rs.map P.ref) requestId = answer f rs requestId := by
  have hfind : (rs.map P.ref).find? (fun r => (e.request r).requestId = requestId) =
      (rs.find? fun r => (f.request r).requestId = requestId).map P.ref := by
    rw [List.find?_map]
    refine congrArg (Option.map P.ref) (List.find?_congr fun r hr => ?_)
    rw [Function.comp_apply, M.request (hrs r hr)]
  rw [answer, answer, hfind]
  cases hr : rs.find? fun r => (f.request r).requestId = requestId with
  | none => rfl
  | some r => simp only [Option.map_some, M.request (hrs r (List.mem_of_find?_eq_some hr))]

theorem serve_mirrors (M : Mirrors P n e f) (hid : requestId ∉ P.stale) (now : ℚ) :
    (serve env e request requestId now).1 = (serve (env.after P) f request requestId now).1 ∧
    Mirrors P (n + 1) (serve env e request requestId now).2
      (serve (env.after P) f request requestId now).2 := by
  obtain ⟨hacc, M₁⟩ := M.submitRequest (schedRequest request requestId now) hid
  unfold serve
  rcases he : e.submitRequest (schedRequest request requestId now) with ⟨b, e₁⟩
  rcases hf : f.submitRequest (schedRequest request requestId now) with ⟨b', f₁⟩
  rw [he, hf] at hacc M₁
  obtain rfl : b = b' := hacc
  cases b with
  | false => exact ⟨rfl, M₁⟩
  | true =>
    rcases M₁.runLoop env 10000 with ⟨err, e₂, f₂, he', hf', M₂⟩ | ⟨qs, e₂, f₂, he', hf', hqs, M₂⟩
    · simp only [runUntilEmpty, he', hf']
      exact ⟨trivial, M₂⟩
    · have hans := answer_mirrors M₂ (qs.map SequenceState.request)
        (fun r hr => by
          obtain ⟨q, hq, rfl⟩ := List.mem_map.mp hr
          exact hqs q hq) requestId
      rw [List.map_map] at hans
      simp only [runUntilEmpty, he', hf', List.map_map]
      exact ⟨hans, M₂⟩

/-- What a request submitted to the engine makes its loop return. -/
def returns (env : Env) (e : Engine) (request : GenerateRequest) (requestId : String) (now : ℚ) :
    Except StepError (List SequenceState) :=
  ((e.submitRequest (schedRequest request requestId now)).2.runUntilEmpty env).1

/-- The loops of mirrored engines return the same sequences. -/
theorem returns_mirrors (M : Mirrors P n e f) (hid : requestId ∉ P.stale) {now : ℚ}
    {qs : List SequenceState} (h : returns (env.after P) f request requestId now = .ok qs) :
    returns env e request requestId now = .ok (qs.map P.state) := by
  obtain ⟨-, M₁⟩ := M.submitRequest (schedRequest request requestId now) hid
  unfold returns runUntilEmpty at h ⊢
  rcases M₁.runLoop env 10000 with ⟨err, e₂, f₂, -, hf, -⟩ | ⟨qs', e₂, f₂, he, hf, -, -⟩
  · rw [hf] at h
    cases h
  · rw [hf] at h
    cases h
    rw [he]

end Mirrored

/-! ### At rest -/

theorem not_stale {e₀ : Engine} (K : Kept e₀ e) (hid : NewId e requestId) (ticks : ℕ) :
    requestId ∉ (e.past ticks).stale := by
  intro hk
  obtain ⟨acc, B⟩ := K.batch
  obtain ⟨r, hr⟩ := OrderedDict.mem_keys_iff.mp hk
  obtain ⟨hacc, hidr, -⟩ := B.ledger.running _ r hr
  exact hid.unused r (B.ledger.lt_next r hacc) hidr

/-- An engine at rest answers as a new one would from now on. -/
theorem handle_atRest (R : AtRest e)
    (K : Kept (new maxBatchSize maxQueueSize defaultTimeout policy numBlocks blockSize) e)
    (hbs : 0 < blockSize) (hid : NewId e requestId) :
    (handle env e request requestId).1 =
      (handle (env.after (e.past e.scheduler.ticks))
        (new maxBatchSize maxQueueSize defaultTimeout policy numBlocks blockSize)
        request requestId).1 := by
  have M : Mirrors (e.past e.scheduler.ticks) 0 e.ticked ((new maxBatchSize maxQueueSize
      defaultTimeout policy numBlocks blockSize).started 1) := R.ticked.mirrors K.ticked hbs rfl
  exact (serve_mirrors M (not_stale K hid _) (env.clock e.scheduler.ticks)).1

/-- A new engine that has served a request without an exception is at rest. -/
theorem atRest_serve_new (hbs : 0 < blockSize) (hmax : 0 < maxBatchSize) (hid : requestId ≠ "")
    (now : ℚ) (hans : ∀ err, (serve env (new maxBatchSize maxQueueSize defaultTimeout policy numBlocks
      blockSize) request requestId now).1 ≠ .raised err) :
    AtRest (serve env (new maxBatchSize maxQueueSize defaultTimeout policy numBlocks blockSize)
      request requestId now).2 := by
  unfold serve at hans ⊢
  rcases hs : (new maxBatchSize maxQueueSize defaultTimeout policy numBlocks blockSize).submitRequest
    (schedRequest request requestId now) with ⟨_ | _, e₁⟩
  · exact new_atRest.rejected hs
  · rw [hs] at hans
    simp only at hans ⊢
    rcases hl : e₁.runUntilEmpty env with ⟨err | completed, e₂⟩
    · rw [hl] at hans
      exact absurd rfl (hans err)
    · exact atRest_of_submit 2048 hbs hmax rfl hid request.maxTokens_bounds.2 (by decide) hs hl

/-- A request handled without an exception leaves an engine at rest at rest. -/
theorem atRest_handle (env : Env) (request : GenerateRequest) (R : AtRest e)
    (K : Kept (new maxBatchSize maxQueueSize defaultTimeout policy numBlocks blockSize) e)
    (hbs : 0 < blockSize) (hmax : 0 < maxBatchSize) (hid : NewId e requestId)
    (hans : ∀ err, (handle env e request requestId).1 ≠ .raised err) :
    AtRest (handle env e request requestId).2 := by
  have M : Mirrors (e.past (e.scheduler.ticks + 1)) 0 e.ticked
      (new maxBatchSize maxQueueSize defaultTimeout policy numBlocks blockSize) :=
    R.ticked.mirrors K.ticked hbs (t := 0) rfl
  have N : NewId (new maxBatchSize maxQueueSize defaultTimeout policy numBlocks blockSize) requestId :=
    ⟨hid.ne_empty, fun r hr => absurd hr (Nat.not_lt_zero r)⟩
  obtain ⟨heq, M'⟩ := serve_mirrors M (not_stale K hid _) (env.clock e.scheduler.ticks)
  have R' := atRest_serve_new hbs hmax hid.ne_empty (env.clock e.scheduler.ticks)
    fun err herr => hans err (heq.trans herr)
  refine R'.of_mirrors M' ?_
  have hs := (kept_handle env request K hid).settings
  have hs' := (kept_serve (env.after (e.past (e.scheduler.ticks + 1))) request (new_kept hbs) N
    (env.clock e.scheduler.ticks)).settings
  exact congrArg (fun x => x.2.2.1) (hs.trans hs'.symm)

/-! ### Histories -/

theorem kept_of_history {hs : List Handled} (hist : Trace.Run (Handles env)
      (new maxBatchSize maxQueueSize defaultTimeout policy numBlocks blockSize) hs e)
    (hbs : 0 < blockSize) :
    Kept (new maxBatchSize maxQueueSize defaultTimeout policy numBlocks blockSize) e := by
  refine hist.always (I := Kept _) (new_kept hbs) ?_
  rintro e h e' K ⟨hid, heq⟩
  have K' := kept_handle env h.request K hid
  rwa [heq] at K'

theorem atRest_of_history {hs : List Handled} (hist : Trace.Run (Handles env)
      (new maxBatchSize maxQueueSize defaultTimeout policy numBlocks blockSize) hs e)
    (hbs : 0 < blockSize) (hmax : 0 < maxBatchSize)
    (hquiet : ∀ h ∈ hs, ∀ err, h.answer ≠ .raised err) : AtRest e := by
  have hinv : (∀ h ∈ hs, ∀ err, h.answer ≠ .raised err) → AtRest e := by
    refine hist.invariant (I := fun hs e => (∀ h ∈ hs, ∀ err, h.answer ≠ .raised err) → AtRest e)
      (fun _ => new_atRest) ?_
    rintro hs e h e' hr hi ⟨hid, heq⟩ hquiet
    have R := hi fun x hx => hquiet x (List.mem_append_left _ hx)
    have R' := atRest_handle env h.request R (kept_of_history hr hbs) hbs hmax
      hid fun err herr => ?_
    · rwa [heq] at R'
    · rw [heq] at herr
      exact hquiet h (List.mem_append_right _ List.mem_cons_self) err herr
  exact hinv hquiet

/-- Without room in the batch no request is ever answered with a result. -/
theorem serve_ne_ok (hmax : e.maxBatchSize ≤ 0) (hact : e.activeSequences.keys = []) (now : ℚ)
    (resp : GenerateResponse) : (serve env e request requestId now).1 ≠ .ok resp := by
  have hloop : ∀ (n : ℕ) (e : Engine), e.maxBatchSize ≤ 0 → e.activeSequences.keys = [] →
      ∃ e', runLoop env n e = (.ok [], e') := by
    intro n e hmax hact
    have hstep : e.step env = (.ok [], e) := by
      have hfull : e.maxBatchSize - e.batchSize ≤ 0 := by omega
      simp only [step, admitNewSequences, if_pos hfull, hact, if_pos]
    induction n with
    | zero => exact ⟨e, rfl⟩
    | succ n ih =>
      obtain ⟨e', he'⟩ := ih
      simp only [runLoop, hstep, he']
      split <;> exact ⟨_, rfl⟩
  unfold serve
  rcases hs : e.submitRequest (schedRequest request requestId now) with ⟨_ | _, e₁⟩
  · intro h; cases h
  · have he₁ : (e.submitRequest (schedRequest request requestId now)).2 = e₁ :=
      congrArg Prod.snd hs
    obtain ⟨e', he'⟩ := hloop 10000 e₁ (he₁ ▸ hmax) (he₁ ▸ hact)
    intro hans
    simp only [runUntilEmpty, he'] at hans
    cases hans

/-- CORRECT: after any history, a request that a fresh engine would answer with its result gets that
    result from an engine at rest; and the engine is at rest after every history without exceptions. -/
theorem answered_as_alone {hs : List Handled} {resp : GenerateResponse} (hbs : 0 < blockSize)
    (hist : Trace.Run (Handles env)
      (new maxBatchSize maxQueueSize defaultTimeout policy numBlocks blockSize) hs e)
    (hid : NewId e requestId)
    (halone : (handle (env.after (e.past e.scheduler.ticks))
      (new maxBatchSize maxQueueSize defaultTimeout policy numBlocks blockSize)
      request requestId).1 = .ok resp) :
    (AtRest e → (handle env e request requestId).1 = .ok resp) ∧
    ((∀ h ∈ hs, ∀ err, h.answer ≠ .raised err) → AtRest e) := by
  refine ⟨fun R => ?_, fun hquiet => ?_⟩
  · rw [handle_atRest R (kept_of_history hist hbs) hbs hid]
    exact halone
  · refine atRest_of_history hist hbs ?_ hquiet
    by_contra hmax
    exact serve_ne_ok (e := (new maxBatchSize maxQueueSize defaultTimeout policy numBlocks
      blockSize).ticked) (not_lt.mp hmax) rfl _ resp halone

/-- A second request on an engine that has answered a first one. -/
theorem answered_as_alone_second :
    let env := Env.rowwise fun _ => [.fin 0]
    let request : GenerateRequest := { prompt := "p", prompt_bounds := by decide }
    let h := handle env (new 1 8 60 .fcfs 4 2) request "a"
    let resp : GenerateResponse :=
      { requestId := "b", generatedText := String.ofList [Char.ofNat 0], prompt := "p"
        usage := { promptTokens := 1, generatedTokens := 1, totalTokens := 2 } }
    (handle env h.2 request "b").1 = .ok resp := by
  intro env request h resp
  have hok : ∃ r, h.1 = .ok r := ⟨{ resp with requestId := "a" }, by decide +kernel⟩
  have halone : (handle (env.after (h.2.past h.2.scheduler.ticks)) (new 1 8 60 .fcfs 4 2) request
    "b").1 = .ok resp := by decide +kernel
  have hid : NewId h.2 "b" := ⟨by decide, by decide +kernel⟩
  have hist : Trace.Run (Handles env) (new 1 8 60 .fcfs 4 2) [⟨request, "a", h.1⟩] h.2 :=
    .snoc .nil (handles_handle env request ⟨by decide, fun r hr => absurd hr (Nat.not_lt_zero r)⟩)
  clear_value h
  have hres := answered_as_alone (by decide) hist hid halone
  refine hres.1 (hres.2 fun x hx err herr => ?_)
  obtain ⟨r, hr⟩ := hok
  rw [List.mem_singleton.mp hx] at herr
  cases hr.symm.trans herr

/-- A request with `top_p = 0` leaves the distribution without a token, and drawing from it raises.
    It stays in the batch, so the harmless request behind it ends in the same exception. -/
theorem not_answered_as_alone :
    let env := Env.rowwise fun _ => [.fin 0]
    let bad : GenerateRequest := { prompt := "p", topP := 0, prompt_bounds := by decide }
    let good : GenerateRequest := { prompt := "p", temperature := 0, prompt_bounds := by decide }
    let h := handle env (new 2 8 60 .fcfs 4 2) bad "a"
    let resp : GenerateResponse :=
      { requestId := "b", generatedText := String.ofList [Char.ofNat 0], prompt := "p"
        usage := { promptTokens := 1, generatedTokens := 1, totalTokens := 2 } }
    Trace.Run (Handles env) (new 2 8 60 .fcfs 4 2) [⟨bad, "a", .raised .sampler⟩] h.2 ∧
    NewId h.2 "b" ∧ ¬ AtRest h.2 ∧
    (handle (env.after (h.2.past h.2.scheduler.ticks)) (new 2 8 60 .fcfs 4 2) good "b").1 =
      .ok resp ∧
    (handle env h.2 good "b").1 = .raised .sampler := by
  intro env bad good h resp
  refine ⟨.snoc .nil ⟨⟨by decide, fun r hr => absurd hr (Nat.not_lt_zero r)⟩,
    Prod.ext (by decide +kernel) rfl⟩, ⟨by decide, by decide +kernel⟩, fun R => ?_,
    by decide +kernel, by decide +kernel⟩
  have : h.2.activeSequences.keys ≠ [] := by decide +kernel
  exact this R.active

end Server

end ModelServing
