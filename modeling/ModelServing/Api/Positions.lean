import ModelServing.Api.Streaming
import ModelServing.Engine.Growth

/-! How many positions a forward pass covers. Only prompts are cut to the model's length: generated
    tokens are appended to them without looking, by the batching engine and by the stream, so a pass
    stays within it for sure exactly when prompt and allowance do. -/

namespace ModelServing

namespace Streaming

variable {κ : Type} {env : Env} {forward : Forward κ} {request : StreamRequest} {requestId : String}
  {size : κ → ℕ} {d d' : Locals κ}

/-- The keys and values that come back cover the cached positions and those just fed. -/
def Grows (forward : Forward κ) (size : κ → ℕ) : Prop :=
  ∀ i ids past logits c, forward i ids past = some (logits, some c) →
    size c = past.elim 0 size + ids.length

/-- The positions of a pass: those in the cache and those it is fed. -/
def positions (size : κ → ℕ) (d : Locals κ) : ℕ := d.pastKeyValues.elim 0 size + d.modelInput.length

/-- The keys and values cover all tokens but the last. -/
def Cached (size : κ → ℕ) (d : Locals κ) : Prop :=
  ∀ c, d.pastKeyValues = some c → size c + 1 = d.inputIds.length

theorem Cached.positions_eq (h : Cached size d) : positions size d = d.inputIds.length := by
  unfold positions Locals.modelInput
  cases hp : d.pastKeyValues with
  | none => simp
  | some c =>
    have hc := h c hp
    simp only [Option.elim_some, List.length_drop]
    omega

theorem Cached.iteration {i : ℕ} {t : Turn} (h : Cached size d) (G : Grows forward size)
    (hit : iteration env forward request requestId i d = .continued t d') : Cached size d' := by
  intro c hc
  obtain ⟨-, hin, -, d₁, -, hn, hpast, -⟩ := iteration_continued hit
  obtain ⟨-, -, logits, -, -, hf, -⟩ := nextToken_ok hn
  rw [← hpast, hc] at hf
  have hsize : size c = positions size d := G _ _ _ _ c hf
  rw [hsize, h.positions_eq, hin, List.length_append, List.length_singleton]

/-- Every pass covers the prompt and what has been generated, one token more each time. -/
theorem passes_cached (G : Grows forward size) (n i : ℕ) {d : Locals κ} (h : Cached size d) :
    ∀ x ∈ passes env forward request requestId n i d,
      Cached size x ∧ x.inputIds.length < d.inputIds.length + n := by
  induction n generalizing i d with
  | zero => exact fun _ h => absurd h List.not_mem_nil
  | succ n ih =>
    intro x hx
    unfold passes at hx
    rcases List.mem_cons.mp hx with rfl | hx
    · exact ⟨h, by omega⟩
    · cases hit : Streaming.iteration env forward request requestId i d with
      | raised err => simp [hit] at hx
      | broke t d' => simp [hit] at hx
      | continued t d' =>
        simp only [hit] at hx
        obtain ⟨hcached, hlt⟩ := ih (i + 1) (h.iteration G hit) x hx
        rw [(iteration_continued hit).2.1, List.length_append, List.length_singleton] at hlt
        exact ⟨hcached, by omega⟩

theorem start_cached {calls : ℕ} (h : start env request calls = some d) : Cached size d := by
  obtain ⟨inputIds, -, rfl⟩ := Option.map_eq_some_iff.mp h
  rintro c ⟨⟩

/-! ### A model that never ends -/

/-- A world without EOS, in which every prompt has `n` tokens. -/
def endless (n : ℕ) : Env :=
  { Env.rowwise fun _ => [.negInf, .fin 0] with
    tokenizer := fun _ _ _ => some (List.replicate n 1)
    eosTokenId := none }

/-- A model that answers token 1 everywhere and counts what it has cached. -/
def counting : Forward ℕ := fun _ ids past =>
  some (ids.map fun _ => [.negInf, .fin 0], some (past.getD 0 + ids.length))

theorem counting_grows : Grows counting id := by
  rintro i ids past logits c h
  cases h
  cases past <;> simp

theorem endless_iteration (n m i : ℕ) (requestId : String) {d : Locals ℕ} (hne : d.inputIds ≠ []) :
    ∃ t d', iteration (endless n) counting { prompt := "p", maxTokens := m, temperature := 0 } requestId
      i d = .continued t d' ∧ d'.inputIds = d.inputIds ++ [1] := by
  have hinput : d.modelInput ≠ [] := by
    have hpos := List.length_pos_iff.mpr hne
    unfold Locals.modelInput
    split
    · rw [← List.length_pos_iff, List.length_drop]
      omega
    · exact hne
  have hlast : (d.modelInput.map fun _ => [Logit.negInf, .fin 0]).getLast? = some [.negInf, .fin 0] := by
    rw [List.getLast?_map, List.getLast?_eq_getLast_of_ne_nil hinput]
    rfl
  have hargmax : Torch.argmax (probs (endless n)
      { prompt := "p", maxTokens := m, temperature := 0 } [.negInf, .fin 0]) = some 1 := by
    have : Torch.argmax (probs (Env.rowwise fun _ => []) { prompt := "p", temperature := 0 }
        [.negInf, .fin 0]) = some 1 := by decide +kernel
    exact this
  have hsample : ∀ c, sample (endless n) { prompt := "p", maxTokens := m, temperature := 0 }
      [.negInf, .fin 0] c = (some 1, c) := fun c => by
    rw [sample, if_pos (by norm_num), hargmax]
  have hnext : nextToken (endless n) counting { prompt := "p", maxTokens := m, temperature := 0 } d =
      .ok (1, { d with
        pastKeyValues := some (d.pastKeyValues.getD 0 + d.modelInput.length)
        calls := d.calls + 1 }) := by
    simp only [nextToken, counting, hlast, hsample]
  rw [iteration, hnext]
  exact ⟨_, _, rfl, rfl⟩

/-- It goes on until the allowance is used up. -/
theorem endless_passes (n m k i : ℕ) (requestId : String) {d : Locals ℕ} (hne : d.inputIds ≠ []) :
    ∃ x ∈ passes (endless n) counting { prompt := "p", maxTokens := m, temperature := 0 } requestId
      (k + 1) i d, x.inputIds.length = d.inputIds.length + k := by
  induction k generalizing i d with
  | zero => exact ⟨d, List.mem_cons_self, rfl⟩
  | succ k ih =>
    obtain ⟨t, d', hit, hin⟩ := endless_iteration n m i requestId hne
    obtain ⟨x, hx, hlen⟩ := ih (i + 1) (d := d') (by simp [hin])
    refine ⟨x, ?_, ?_⟩
    · unfold passes
      simp only [hit]
      exact List.mem_cons_of_mem _ hx
    · rw [hlen, hin, List.length_append, List.length_singleton]
      omega

/-- No stream for a prompt of `n` tokens and an allowance of `m` makes a pass of more than `limit`
    positions, whatever the model answers. -/
def Within (limit n m : ℕ) : Prop :=
  ∀ (κ : Type) (size : κ → ℕ) (env : Env) (forward : Forward κ) (request : StreamRequest)
    (requestId : String) (calls : ℕ) (d : Locals κ), Grows forward size →
    start env request calls = some d → d.inputIds.length = n → request.maxTokens = m →
    ∀ x ∈ passes env forward request requestId request.maxTokens 0 d, positions size x ≤ limit

theorem within_iff {limit n m : ℕ} (hn : 1 ≤ n) (hm : 1 ≤ m) : Within limit n m ↔ n + m ≤ limit + 1 := by
  constructor
  · intro h
    obtain ⟨m, rfl⟩ : ∃ k, m = k + 1 := ⟨m - 1, by omega⟩
    have hne : ({ inputIds := List.replicate n 1, calls := 1 } : Locals ℕ).inputIds ≠ [] := by
      simp only [ne_eq, List.replicate_eq_nil_iff]
      omega
    obtain ⟨x, hx, hlen⟩ := endless_passes n (m + 1) m 0 "s" hne
    have hempty : Cached id ({ inputIds := List.replicate n 1, calls := 1 } : Locals ℕ) := fun c h => by
      cases h
    have hcached := (passes_cached counting_grows (m + 1) 0 hempty x hx).1
    have hle := h ℕ id (endless n) counting { prompt := "p", maxTokens := m + 1, temperature := 0 } "s" 0
      _ counting_grows rfl (List.length_replicate ..) rfl x hx
    rw [hcached.positions_eq, hlen, List.length_replicate] at hle
    omega
  · rintro hle κ size env forward request requestId calls d G hstart rfl rfl x hx
    obtain ⟨hcached, hlt⟩ := passes_cached G request.maxTokens 0 (start_cached hstart) x hx
    rw [hcached.positions_eq]
    omega

end Streaming

variable {env : Env} {e : Engine} {maxBatchSize maxQueueSize : ℤ} {defaultTimeout : ℚ}
  {policy : SchedulingPolicy} {numBlocks blockSize : ℕ} {evs : List Engine.Event}

/-- CORRECT: in every run, with any ids, whose prompts fit the 1024 positions together with their
    allowances and in which no decoding raises, no step feeds the model more than 1024 positions; and
    a stream never does, whatever the model answers, exactly when its prompt and its allowance fit. -/
theorem positions_fit (hrun : Trace.Run (Engine.Call env)
      (.new maxBatchSize maxQueueSize defaultTimeout policy numBlocks blockSize) evs e)
    (hdec : .step (.error .decode) ∉ evs)
    (hfit : ∀ r req, .submitRequest r req true ∈ evs → 1 ≤ req.maxTokens ∧
      ∀ i ids, env.tokenizer i req.prompt 1024 = some ids → ids.length + req.maxTokens ≤ 1025) :
    (∀ row ∈ e.fed env, row.length ≤ 1024) ∧
    ∀ n m, 1 ≤ n → 1 ≤ m → (Streaming.Within 1024 n m ↔ n + m ≤ 1025) := by
  refine ⟨?_, fun n m => Streaming.within_iff⟩
  have G := Engine.growing_of_calls hrun (fun r req h => (hfit r req h).1) hdec
  refine Engine.fed_le G fun r hr i ids htok => ?_
  obtain ⟨req, hmem, -, hstable⟩ := Engine.held_submitted hrun hr
  rw [hstable _ RequestScheduler.stable_prompt] at htok
  rw [hstable _ RequestScheduler.stable_maxTokens]
  exact (hfit r req hmem).2 i ids htok

/-- A prompt of 1023 tokens with an allowance of two. -/
theorem positions_fit_last :
    let env := Streaming.endless 1023
    let req : ScheduledRequest :=
      { requestId := "a", prompt := "p", maxTokens := 2, temperature := 0, createdAt := 0 }
    let e := (((Engine.new 1 8 60 .fcfs 64 16).submitRequest req).2.step env).2
    ∀ row ∈ e.fed env, row.length ≤ 1024 := by
  intro env req e
  have h₀ : Engine.Call env (.new 1 8 60 .fcfs 64 16) (.submitRequest 0 req true)
      ((Engine.new 1 8 60 .fcfs 64 16).submitRequest req).2 := ⟨rfl, rfl, rfl⟩
  have h₁ : Engine.Call env ((Engine.new 1 8 60 .fcfs 64 16).submitRequest req).2
      (.step (.ok [])) e := Prod.ext (by decide +kernel) rfl
  refine (positions_fit (.snoc (.snoc .nil h₀) h₁) ?_ ?_).1
  · simp
  · intro r req' h
    simp only [List.nil_append, List.cons_append, List.mem_cons, Engine.Event.submitRequest.injEq,
      reduceCtorEq, List.not_mem_nil, or_false] at h
    obtain ⟨-, rfl, -⟩ := h
    refine ⟨by decide, fun i ids htok => ?_⟩
    obtain rfl : List.replicate 1023 1 = ids := Option.some.inj htok
    rw [List.length_replicate]
    exact le_rfl

/-- A prompt of 1024 tokens with an allowance of two: the second pass covers 1025 positions, in the
    batch and in the stream. -/
theorem not_positions_fit :
    let env := Streaming.endless 1024
    let req : ScheduledRequest :=
      { requestId := "a", prompt := "p", maxTokens := 2, temperature := 0, createdAt := 0 }
    let e := (((Engine.new 1 8 60 .fcfs 64 16).submitRequest req).2.step env).2
    Trace.Run (Engine.Step env) (.new 1 8 60 .fcfs 64 16)
      [.submitRequest 0 req true, .step (.ok [])] e ∧
    (e.fed env).map List.length = [1025] ∧ ¬ Streaming.Within 1024 1024 2 := by
  intro env req e
  refine ⟨.snoc (.snoc .nil ⟨⟨rfl, fun r hr => absurd hr (Nat.not_lt_zero r)⟩, rfl, rfl⟩)
    (Prod.ext (by decide +kernel) rfl), by decide +kernel, fun h => ?_⟩
  have := (Streaming.within_iff (by decide) (by decide)).mp h
  omega

end ModelServing
