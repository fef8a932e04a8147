import ModelServing.Api.Streaming
import ModelServing.Engine.Cancellation
import ModelServing.Lib.Utf8

/-! What a client reads. The stream decodes every token by itself, special or not, and does not count
    EOS; the batching engine decodes all tokens at once, without the special ones, and counts them all.
    So a streamed answer reads like one that is not only if nothing tells these apart. -/

namespace ModelServing

/-- `tokenizer.decode(ids, skip_special_tokens=..)` of a tokenizer whose tokens are byte strings. -/
def byteDecode (special : ℕ → Bool) (bytes : ℕ → List UInt8) (ids : List ℕ) (skip : Bool) : String :=
  String.ofList (Utf8.decode ((ids.filter fun t => !(skip && special t)).flatMap bytes))

variable {special : ℕ → Bool} {bytes : ℕ → List UInt8}

/-- The special tokens may be left out only if there is nothing to them. -/
theorem length_filter_flatMap (special : ℕ → Bool) (ids : List ℕ) (f : ℕ → List Char) :
    ((ids.filter fun t => !special t).flatMap f).length ≤ (ids.flatMap f).length ∧
    ((ids.flatMap f).length ≤ ((ids.filter fun t => !special t).flatMap f).length →
      ∀ t ∈ ids, special t = true → f t = []) := by
  induction ids with
  | nil => simp
  | cons t ids ih =>
    obtain ⟨hle, hnil⟩ := ih
    cases ht : special t with
    | false =>
      simp only [List.filter_cons, ht, Bool.not_false, if_true, List.flatMap_cons, List.length_append,
        List.mem_cons, forall_eq_or_imp, Bool.false_eq_true, false_imp_iff, true_and]
      exact ⟨by omega, fun h => hnil (by omega)⟩
    | true =>
      simp only [List.filter_cons, ht, Bool.not_true, Bool.false_eq_true, if_false, List.flatMap_cons,
        List.length_append, List.mem_cons, forall_eq_or_imp, true_imp_iff]
      exact ⟨by omega, fun h => ⟨List.length_eq_zero_iff.mp (by omega), hnil (by omega)⟩⟩

theorem filter_flatMap_of_nil {ids : List ℕ} (h : ∀ t ∈ ids, special t = true → bytes t = []) :
    (ids.filter fun t => !special t).flatMap bytes = ids.flatMap bytes := by
  induction ids with
  | nil => rfl
  | cons t ids ih =>
    have ih := ih fun x hx => h x (List.mem_cons_of_mem _ hx)
    cases ht : special t with
    | false => simp [ht, ih]
    | true => simp [ht, ih, h t List.mem_cons_self ht]

/-- Tokens decoded one by one read like the whole exactly when no special token has bytes and no token
    ends inside a character that the next one goes on with. -/
theorem join_byteDecode_iff (ids : List ℕ) :
    String.join (ids.map fun t => byteDecode special bytes [t] false) = byteDecode special bytes ids true ↔
      (∀ t ∈ ids, special t = true → bytes t = []) ∧ Utf8.Whole (ids.map bytes) := by
  have hparts : ((ids.map fun t => byteDecode special bytes [t] false).map String.toList).flatten =
      (ids.map bytes).flatMap Utf8.decode := by
    simp [byteDecode, List.flatMap_def, Function.comp_def]
  rw [String.join_eq, hparts, byteDecode, String.ofList_inj]
  simp only [Bool.true_and]
  constructor
  · intro h
    have hspecial : ∀ t ∈ ids, special t = true → bytes t = [] := by
      obtain ⟨-, hnil⟩ := length_filter_flatMap special ids fun t => Utf8.decode (bytes t)
      intro t ht hs
      refine Utf8.decode_eq_nil_iff.mp (hnil ?_ t ht hs)
      have hle := Utf8.length_decode_flatten_le ((ids.filter fun t => !special t).map bytes)
      rw [← List.flatMap_def, ← h, List.flatMap_map, List.flatMap_map] at hle
      exact hle
    rw [filter_flatMap_of_nil hspecial] at h
    exact ⟨hspecial, Utf8.decode_flatten_iff.mp h.symm⟩
  · rintro ⟨hspecial, hwhole⟩
    rw [filter_flatMap_of_nil hspecial]
    exact (Utf8.decode_flatten_iff.mpr hwhole).symm

namespace Streaming

variable {κ : Type} {env : Env} {forward : Forward κ} {request : StreamRequest} {requestId : String}
  {d d' : Locals κ} {turns : List Turn} {text : ℕ → String}

/-- Each event carries the text of its token, EOS has none and is not counted. -/
theorem streamFrom_ok (hdec : ∀ i t, env.decode i [t] false = some (text t)) (n i : ℕ)
    (h : streamFrom env forward request requestId n i d = (turns, .ok d')) :
    (turns.map fun t => t.event.token) = (turns.map Turn.tokenId).map
      (fun t => if some t = env.eosTokenId then "" else text t) ∧
    d'.generatedCount =
      d.generatedCount + (turns.map Turn.tokenId).countP fun t => some t != env.eosTokenId := by
  induction n generalizing i d turns with
  | zero =>
    cases h
    exact ⟨rfl, rfl⟩
  | succ n ih =>
    rcases streamFrom_cases h with ⟨t, hit, rfl⟩ | ⟨t, d₁, rest, hit, hfrom, rfl⟩
    · obtain ⟨heos, hcount, hev⟩ := iteration_broke hit
      simp [heos, hcount, hev]
    · obtain ⟨hne, -, hcount, d₂, token, -, -, htext, hev⟩ := iteration_continued hit
      obtain rfl := Option.some.inj ((hdec _ _).symm.trans htext)
      obtain ⟨htokens, htotal⟩ := ih (i + 1) hfrom
      refine ⟨?_, ?_⟩
      · simp only [List.map_cons, htokens, if_neg hne, hev]
      · rw [htotal, hcount, List.map_cons, List.countP_cons_of_pos (by simpa using hne)]
        omega

theorem generateStream_ok {calls : ℕ} {done : DoneEvent}
    (hdec : ∀ i t, env.decode i [t] false = some (text t))
    (h : generateStream env forward request requestId calls = (turns, .ok done)) :
    (turns.map fun t => t.event.token) = (turns.map Turn.tokenId).map
      (fun t => if some t = env.eosTokenId then "" else text t) ∧
    done.generatedTokens = (turns.map Turn.tokenId).countP fun t => some t != env.eosTokenId := by
  obtain ⟨inputIds, d', hfrom, rfl⟩ := generateStream_cases h
  simpa using streamFrom_ok hdec _ _ hfrom

end Streaming

variable {κ : Type} {env : Env} {e : Engine} {maxBatchSize maxQueueSize : ℤ} {defaultTimeout : ℚ}
  {policy : SchedulingPolicy} {numBlocks blockSize : ℕ} {evs : List Engine.Event}
  {forward : Streaming.Forward κ} {request : Streaming.StreamRequest} {requestId : String} {calls : ℕ}
  {turns : List Streaming.Turn} {done : Streaming.DoneEvent} {q : SequenceState}

/-- CORRECT: a stream and a completed request of any run that got the same tokens read alike, with the
    same count, exactly when EOS is not among them, no special one has bytes, and none ends inside a
    character that the next one goes on with. -/
theorem rendered_alike (hdec : ∀ i ids skip, env.decode i ids skip = some (byteDecode special bytes ids skip))
    (hrun : Trace.Run (Engine.Step env)
      (.new maxBatchSize maxQueueSize defaultTimeout policy numBlocks blockSize) evs e)
    (hq : q ∈ Engine.returned evs) (hcompleted : e.scheduler.statusOf q.request = .COMPLETED)
    (hstream : Streaming.generateStream env forward request requestId calls = (turns, .ok done))
    (hids : turns.map Streaming.Turn.tokenId = q.generatedIds) :
    String.join (turns.map fun t => t.event.token) = (e.request q.request).outputText ∧
        done.generatedTokens = (e.request q.request).generatedTokens ↔
      (∀ t ∈ q.generatedIds, some t ≠ env.eosTokenId) ∧
      (∀ t ∈ q.generatedIds, special t = true → bytes t = []) ∧
      Utf8.Whole (q.generatedIds.map bytes) := by
  obtain ⟨-, S⟩ := Engine.settled_of_run hrun q hq
  have D := S.outcome.resolve_right fun hc => by cases hc.symm.trans hcompleted
  obtain ⟨i, hi⟩ := D.outputText
  have htext := Option.some.inj ((hdec _ _ _).symm.trans hi)
  obtain ⟨htokens, hcount⟩ := Streaming.generateStream_ok (fun i t => hdec i [t] false) hstream
  rw [hids] at htokens hcount
  have hcount_iff : done.generatedTokens = (e.request q.request).generatedTokens ↔
      ∀ t ∈ q.generatedIds, some t ≠ env.eosTokenId := by
    rw [hcount, D.generatedTokens, List.countP_eq_length]
    simp only [bne_iff_ne]
  rw [hcount_iff, and_comm]
  refine and_congr_right fun hne => ?_
  have hplain : (q.generatedIds.map fun t => if some t = env.eosTokenId then "" else
      byteDecode special bytes [t] false) =
      q.generatedIds.map fun t => byteDecode special bytes [t] false :=
    List.map_congr_left fun t ht => if_neg (hne t ht)
  rw [htokens, hplain, ← htext]
  exact join_byteDecode_iff q.generatedIds

/-- A whole character for each of two tokens. -/
theorem rendered_alike_whole :
    let bytes : ℕ → List UInt8 := fun t => if t = 1 then [0xC3, 0xA9] else [0x3C, 0x2F, 0x73, 0x3E]
    let f : List ℕ → List Logit := fun _ => [.negInf, .fin 0]
    let env := { Env.rowwise f with
      decode := fun _ ids skip => some (byteDecode (· == 0) bytes ids skip) }
    let req : ScheduledRequest :=
      { requestId := "a", prompt := "p", maxTokens := 2, temperature := 0, createdAt := 0 }
    let e := ((((Engine.new 1 8 60 .fcfs 4 2).submitRequest req).2.step env).2.step env).2
    let stream := Streaming.generateStream env (Streaming.remembering f)
      { prompt := "p", maxTokens := 2, temperature := 0 } "s" 0
    String.join (stream.1.map fun t => t.event.token) = (e.request 0).outputText := by
  intro bytes f env req e stream
  let e₀ := ((Engine.new 1 8 60 .fcfs 4 2).submitRequest req).2
  let q : SequenceState :=
    { request := 0, inputIds := [112, 1, 1], generatedIds := [1, 1], isFinished := true,
      finishReason := "length" }
  have h₀ : Engine.Step env (.new 1 8 60 .fcfs 4 2) (.submitRequest 0 req true) e₀ :=
    ⟨⟨rfl, fun r hr => absurd hr (Nat.not_lt_zero r)⟩, rfl, rfl⟩
  have h₁ : Engine.Step env e₀ (.step (.ok [])) (e₀.step env).2 := Prod.ext (by decide +kernel) rfl
  have h₂ : Engine.Step env (e₀.step env).2 (.step (.ok [q])) e := Prod.ext (by decide +kernel) rfl
  have hdone : stream.2 = .ok { requestId := "s", generatedTokens := 2 } := by decide +kernel
  exact ((rendered_alike (fun _ _ _ => rfl) (.snoc (.snoc (.snoc .nil h₀) h₁) h₂) (q := q)
    List.mem_cons_self (by decide +kernel) (Prod.ext rfl hdone) (by decide +kernel)).mpr
      ⟨by decide, by decide, Utf8.decode_flatten_iff.mp (by decide)⟩).1

/-- Two tokens for one character, and EOS: the stream shows two replacements and counts two tokens, the
    response shows the character and counts three. -/
theorem not_rendered_alike :
    let bytes : ℕ → List UInt8 := fun t =>
      if t = 1 then [0xC3] else if t = 2 then [0xA9] else [0x3C, 0x2F, 0x73, 0x3E]
    let f : List ℕ → List Logit := fun ids =>
      if ids.length = 1 then [.negInf, .fin 0, .negInf]
      else if ids.length = 2 then [.negInf, .negInf, .fin 0] else [.fin 0, .negInf, .negInf]
    let env := { Env.rowwise f with
      decode := fun _ ids skip => some (byteDecode (· == 0) bytes ids skip) }
    let req : ScheduledRequest :=
      { requestId := "a", prompt := "p", maxTokens := 8, temperature := 0, createdAt := 0 }
    let e := (((((Engine.new 1 8 60 .fcfs 4 2).submitRequest req).2.step env).2.step env).2.step env).2
    let q : SequenceState :=
      { request := 0, inputIds := [112, 1, 2, 0], generatedIds := [1, 2, 0], isFinished := true,
        finishReason := "eos" }
    let stream := Streaming.generateStream env (Streaming.remembering f)
      { prompt := "p", maxTokens := 8, temperature := 0 } "s" 0
    Trace.Run (Engine.Step env) (.new 1 8 60 .fcfs 4 2)
      [.submitRequest 0 req true, .step (.ok []), .step (.ok []), .step (.ok [q])] e ∧
    stream.1.map Streaming.Turn.tokenId = q.generatedIds ∧
    stream.2 = .ok { requestId := "s", generatedTokens := 2 } ∧
    String.join (stream.1.map fun t => t.event.token) = String.ofList [Utf8.replacement, Utf8.replacement] ∧
    (e.request 0).outputText = "é" ∧ (e.request 0).generatedTokens = 3 := by
  intro bytes f env req e q stream
  let e₀ := ((Engine.new 1 8 60 .fcfs 4 2).submitRequest req).2
  let e₁ := (e₀.step env).2
  have h₀ : Engine.Step env (.new 1 8 60 .fcfs 4 2) (.submitRequest 0 req true) e₀ :=
    ⟨⟨rfl, fun r hr => absurd hr (Nat.not_lt_zero r)⟩, rfl, rfl⟩
  have h₁ : Engine.Step env e₀ (.step (.ok [])) e₁ := Prod.ext (by decide +kernel) rfl
  have h₂ : Engine.Step env e₁ (.step (.ok [])) (e₁.step env).2 := Prod.ext (by decide +kernel) rfl
  have h₃ : Engine.Step env (e₁.step env).2 (.step (.ok [q])) e := Prod.ext (by decide +kernel) rfl
  exact ⟨.snoc (.snoc (.snoc (.snoc .nil h₀) h₁) h₂) h₃, by decide +kernel, by decide +kernel,
    by decide +kernel, by decide +kernel, by decide +kernel⟩

end ModelServing
