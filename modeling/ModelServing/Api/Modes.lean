import ModelServing.Api.Agreement
import ModelServing.Api.Filters
import ModelServing.Api.Handlers

/-! Switching the engine. In naive mode the library decodes, and greedy decoding there penalizes the
    tokens it has seen and filters nothing; in batching mode the sampler filters and never looks at the
    penalty. Both get the same tokens exactly when, wherever penalized decoding passes, its token is the
    one that the sampler takes. -/

namespace ModelServing

open Autoregressive Sampling

/-- The logits with those of the tokens seen divided by the penalty, or multiplied where negative. -/
def penalize (penalty : ℚ) (seen : List ℕ) (xs : List ℚ) : List ℚ :=
  xs.mapIdx fun i x => if i ∈ seen then if x < 0 then x * penalty else x / penalty else x

/-- The token that greedy decoding with a penalty puts after a text. -/
def penalizedNext (logits : List ℕ → List ℚ) (penalty : ℚ) (ids : List ℕ) : Option ℕ :=
  Torch.argmax (some (penalize penalty ids (logits ids)))

/-- What is assumed of `model.generate`: without sampling it decodes greedily under the penalty, until
    EOS or as many tokens as allowed. -/
def DecodesGreedily (env : Env) (logits : List ℕ → List ℚ) (modelGenerate : ModelGenerate) : Prop :=
  ∀ i args, args.doSample = false → 1 ≤ args.maxNewTokens → args.inputIds ≠ [] → ∃ out,
    modelGenerate i args = some (args.inputIds ++ out) ∧
    Closed (penalizedNext logits args.repetitionPenalty) (Engine.Stops env) args.maxNewTokens
      args.inputIds out

/-- A library that decodes as assumed. -/
def greedyGenerate (env : Env) (logits : List ℕ → List ℚ) : ModelGenerate := fun _ args =>
  some (args.inputIds ++ decode (penalizedNext logits args.repetitionPenalty) (Engine.Stops env)
    args.maxNewTokens args.inputIds)

/-- Dividing by the temperature keeps these logits finite and in their order. -/
structure Scales (t : Torch) (temperature : ℚ) (xs : List ℚ) : Prop where
  finite : ∀ x ∈ xs, ∃ y, t.div (max temperature (1 / 10000000)) (.fin x) = .fin y
  increasing : ∀ x ∈ xs, ∀ x' ∈ xs, x < x' →
    (t.div (max temperature (1 / 10000000)) (.fin x)).lt
      (t.div (max temperature (1 / 10000000)) (.fin x')) = true

/-- The sampler takes token `i`. Of the tokens with the largest scaled logit it is the first that top-p
    keeps, which are those whose place in the descending order is below `top_p` times what softmax
    divides by. Token 0 is taken where there is no such order, because a quotient has overflowed to
    `inf` or all to `-inf`, and for a `top_p` of 0, which keeps nothing. -/
def FirstKept (t : Torch) (q : ScheduledRequest) (xs : List ℚ) (i : ℕ) : Prop :=
  let ls := scaled t q.temperature xs
  let left := topKFilter t q.topK ls
  (0 < q.topP ∧ Logit.Clean ls → IsLeast {i | ls[i]? = some (.fin (Torch.finiteMax ls)) ∧
    (t.argsort left).idxOf i < q.topP * Torch.total t left} i) ∧
  (¬ (0 < q.topP ∧ Logit.Clean ls) → i = 0)

variable {env : Env} {t : Torch} {q : ScheduledRequest} {xs : List ℚ} {i : ℕ}
  {logits : List ℕ → List ℚ} {modelGenerate : ModelGenerate} {tokenize : String → List ℕ}

theorem penalize_one (seen : List ℕ) (xs : List ℚ) : penalize 1 seen xs = xs :=
  List.ext_getElem (by simp [penalize]) fun i _ _ => by simp [penalize]

theorem decodesGreedily_greedyGenerate (hvocab : ∀ ids, logits ids ≠ []) :
    DecodesGreedily env logits (greedyGenerate env logits) := by
  intro i args _ _ _
  refine ⟨_, rfl, closed_decode fun ids => ?_⟩
  have hne : penalize args.repetitionPenalty ids (logits ids) ≠ [] := by simpa [penalize] using hvocab ids
  exact exists_argmax hne

/-- The most likely of the tokens left are the largest that top-p keeps. -/
theorem largest_left_iff {f g : Logit → ℚ} {ls : List Logit} {topP : ℚ} (C : Logit.Clean ls)
    (N : Torch.Normalizes t f ls) (h₀ : 0 < topP) (h₁ : topP ≤ 1)
    (G : Torch.Normalizes t g (topPFilter t topP ls)) :
    Largest ((topPFilter t topP ls).map g) i ↔ ls[i]? = some (.fin (Torch.finiteMax ls)) ∧
      ((t.argsort ls).idxOf i : ℚ) < topP * Torch.total t ls := by
  have hrank : ∀ {x}, ls[i]? = some (.fin x) → (t.argsort ls)[(t.argsort ls).idxOf i]? = some i :=
    fun hi => List.getElem?_idxOf (Torch.mem_argsort.mpr (List.getElem?_eq_some_iff.mp hi).1)
  obtain ⟨hmem, hle⟩ := Torch.finiteMax_spec C.some_fin
  refine (largest_map_iff (topPFilter_clean C N h₀ h₁) G).trans ⟨?_, ?_⟩
  · rintro ⟨x, hx, hbest⟩
    obtain ⟨hi, hkept⟩ := (topPFilter_fin_iff C N).mp hx
    obtain ⟨k, hk⟩ := List.mem_iff_getElem?.mp hmem
    obtain rfl : x = Torch.finiteMax ls := by
      refine (hle x (List.mem_of_getElem? hi)).eq_of_not_lt fun hlt => ?_
      have hlater := mem_take_of_lt hkept hi hk hlt
      exact absurd (hbest k _ ((topPFilter_fin_iff C N).mpr ⟨hk, hlater⟩)) (not_le.mpr hlt)
    exact ⟨hi, (lt_cut_iff C N (hrank hi) hi).mp ((mem_take_argsort (hrank hi)).mp hkept)⟩
  · rintro ⟨hi, hlt⟩
    have hkept := (mem_take_argsort (hrank hi)).mpr ((lt_cut_iff C N (hrank hi) hi).mpr hlt)
    refine ⟨_, (topPFilter_fin_iff C N).mpr ⟨hi, hkept⟩, fun j y hy => hle y ?_⟩
    exact List.mem_of_getElem? ((topPFilter_fin_iff C N).mp hy).1

/-- Whatever division does, the token is the one described. -/
theorem greedyToken_iff (hexp : StrictMono t.exp) (hk : 1 ≤ q.topK) (h₁ : q.topP ≤ 1) (hxs : xs ≠ []) :
    greedyToken t q (xs.map .fin) = some i ↔ FirstKept t q xs i := by
  set ls := scaled t q.temperature xs with hls
  set left := topKFilter t q.topK ls with hleft
  have hprobs : probs t q (xs.map .fin) = t.softmax (topPFilter t q.topP left) := rfl
  have hne : left ≠ [] := by
    rw [← List.length_pos_iff, hleft, length_topKFilter, hls, scaled, List.length_map, List.length_map]
    exact List.length_pos_of_ne_nil hxs
  by_cases h : 0 < q.topP ∧ Logit.Clean ls
  · have C : Logit.Clean left := (topKFilter_clean_iff hk).mpr h.2
    obtain ⟨f, N⟩ := Torch.exists_normalizes hexp C
    obtain ⟨g, G⟩ := Torch.exists_normalizes hexp (topPFilter_clean C N h.1 h₁)
    have hset := Set.ext fun k => (largest_left_iff (i := k) C N h.1 h₁ G).trans
      (and_congr_left' (topKFilter_largest_iff hk h.2))
    rw [greedyToken, hprobs, G.softmax _ (.refl _), argmax_iff]
    exact hset ▸ ⟨fun hi => ⟨fun _ => hi, fun hnot => absurd h hnot⟩, fun hi => hi.1 h⟩
  · have hnone : t.softmax (topPFilter t q.topP left) = none := by
      by_cases C : Logit.Clean left
      · obtain ⟨f, N⟩ := Torch.exists_normalizes hexp C
        refine softmax_topPFilter_zero C N (not_lt.mp fun h₀ => h ⟨h₀, ?_⟩)
        exact (topKFilter_clean_iff hk).mp C
      · rw [topPFilter_of_not_clean hne C]
        exact (Torch.softmax_eq_none_iff hne).mpr C
    rw [greedyToken, hprobs, hnone, Torch.argmax, Option.some_inj]
    exact ⟨fun hi => ⟨fun hyes => absurd hyes h, fun _ => hi.symm⟩, fun hi => (hi.2 h).symm⟩

theorem scaled_getElem? {temperature : ℚ} : (scaled t temperature xs)[i]? =
    xs[i]?.map fun x => t.div (max temperature (1 / 10000000)) (.fin x) := by
  rw [scaled, List.map_map, List.getElem?_map]
  rfl

theorem Scales.clean {temperature : ℚ} (S : Scales t temperature xs) (hxs : xs ≠ []) :
    Logit.Clean (scaled t temperature xs) := by
  have hfin : ∀ l ∈ scaled t temperature xs, ∃ y, l = .fin y := by
    intro l hl
    obtain ⟨l', hl', rfl⟩ := List.mem_map.mp hl
    obtain ⟨x, hx, rfl⟩ := List.mem_map.mp hl'
    exact S.finite x hx
  refine ⟨fun l hl => Or.inr (hfin l hl), ?_⟩
  obtain ⟨l, hl⟩ := List.exists_mem_of_ne_nil (scaled t temperature xs) (by simpa [scaled] using hxs)
  obtain ⟨y, rfl⟩ := hfin l hl
  exact ⟨y, hl⟩

/-- The largest quotient is that of the largest logit. -/
theorem Scales.largest_iff {temperature : ℚ} (S : Scales t temperature xs) (hxs : xs ≠ []) :
    (scaled t temperature xs)[i]? = some (.fin (Torch.finiteMax (scaled t temperature xs))) ↔
      Largest xs i := by
  obtain ⟨hmem, hle⟩ := Torch.finiteMax_spec (S.clean hxs).some_fin
  -- a larger logit has a larger quotient
  have hless : ∀ {x x' : ℚ} {y : ℚ}, x ∈ xs → x' ∈ xs → x < x' →
      t.div (max temperature (1 / 10000000)) (.fin x) = .fin y → y < Torch.finiteMax (scaled t temperature xs) := by
    intro x x' y hx hx' hlt hy
    obtain ⟨y', hy'⟩ := S.finite x' hx'
    have hdiv := S.increasing x hx x' hx' hlt
    rw [hy, hy'] at hdiv
    refine (of_decide_eq_true hdiv).trans_le (hle y' ?_)
    exact hy' ▸ List.mem_map_of_mem (List.mem_map_of_mem hx')
  rw [scaled_getElem?]
  constructor
  · intro hi
    obtain ⟨x, hx, hquot⟩ := Option.map_eq_some_iff.mp hi
    refine ⟨x, hx, fun y hy => not_lt.mp fun hlt => ?_⟩
    exact lt_irrefl _ (hless (List.mem_of_getElem? hx) hy hlt hquot)
  · rintro ⟨x, hx, hmax⟩
    obtain ⟨j, hj⟩ := List.mem_iff_getElem?.mp hmem
    rw [scaled_getElem?] at hj
    obtain ⟨z, hz, hquot⟩ := Option.map_eq_some_iff.mp hj
    have hzx := hmax z (List.mem_of_getElem? hz)
    obtain rfl : z = x := hzx.eq_of_not_lt fun hlt =>
      lt_irrefl _ (hless (List.mem_of_getElem? hz) (List.mem_of_getElem? hx) hlt hquot)
    rw [hx, Option.map_some, hquot]

theorem scales_of_exact (hdiv : t.div = Logit.div) (temperature : ℚ) (xs : List ℚ) :
    Scales t temperature xs := by
  refine ⟨fun x _ => ⟨_, by rw [hdiv, Logit.div]⟩, fun x _ x' _ hlt => ?_⟩
  rw [hdiv]
  exact decide_eq_true (div_strictMono hlt)

/-- Without top-p the sampler takes the first of the largest, where scaling keeps the order. -/
theorem firstKept_iff (hexp : StrictMono t.exp) (hk : 1 ≤ q.topK) (hp : q.topP = 1) (hxs : xs ≠ [])
    (S : Scales t q.temperature xs) : FirstKept t q xs i ↔ IsLeast {i | Largest xs i} i := by
  have hclean := S.clean hxs
  have C := (topKFilter_clean_iff (t := t) hk).mpr hclean
  obtain ⟨f, N⟩ := Torch.exists_normalizes hexp C
  -- nothing is masked, so every one of the largest is kept
  have hall : ∀ k, Largest xs k → ((t.argsort (topKFilter t q.topK (scaled t q.temperature xs))).idxOf k : ℚ) <
      q.topP * Torch.total t (topKFilter t q.topK (scaled t q.temperature xs)) := by
    intro k hmax
    have hkept := (topKFilter_largest_iff (t := t) hk hclean).mpr ((S.largest_iff hxs).mpr hmax)
    have hrank := List.getElem?_idxOf (Torch.mem_argsort (t := t).mpr (List.getElem?_eq_some_iff.mp hkept).1)
    have hsame : topPFilter t q.topP (topKFilter t q.topK (scaled t q.temperature xs)) =
        topKFilter t q.topK (scaled t q.temperature xs) := by
      rw [topPFilter, if_neg (by rw [hp]; exact lt_irrefl 1)]
    have hmem := ((topPFilter_fin_iff C N).mp (hsame.symm ▸ hkept)).2
    exact (lt_cut_iff C N hrank hkept).mp ((mem_take_argsort hrank).mp hmem)
  have hset : ∀ k, Largest xs k ∧ _ ↔ Largest xs k := fun k => and_iff_left_of_imp (hall k)
  have hyes : 0 < q.topP ∧ Logit.Clean (scaled t q.temperature xs) := ⟨by rw [hp]; exact one_pos, hclean⟩
  simp only [FirstKept, S.largest_iff hxs, hset]
  exact ⟨fun h => h.1 hyes, fun h => ⟨fun _ => h, fun hnot => absurd hyes hnot⟩⟩

/-! ### The two modes -/

variable {e : Engine} {maxBatchSize maxQueueSize : ℤ} {defaultTimeout : ℚ}
  {policy : SchedulingPolicy} {numBlocks blockSize : ℕ} {evs : List Engine.Event}

/-- What the naive engine generates for a request of temperature 0. -/
theorem generatedIds_closed (htok : ∀ i prompt, env.tokenizer i prompt 1024 = some (tokenize prompt))
    (G : DecodesGreedily env logits modelGenerate) (request : GenerateRequest)
    (hzero : request.temperature = 0) (hprompt : tokenize request.prompt ≠ []) (requestId : String)
    (calls : ℕ) :
    ∃ out, NaiveEngine.generatedIds env modelGenerate (Server.engineRequest request requestId) calls =
        .ok (tokenize request.prompt, out) ∧
      Closed (penalizedNext logits request.repetitionPenalty) (Engine.Stops env) request.maxTokens
        (tokenize request.prompt) out := by
  let args := NaiveEngine.args env (Server.engineRequest request requestId) (tokenize request.prompt)
  have hgreedy : args.doSample = false := by
    simp [args, NaiveEngine.args, Server.engineRequest, hzero]
  obtain ⟨out, hout, hclosed⟩ := G (calls + 1) args hgreedy request.maxTokens_bounds.1 hprompt
  refine ⟨out, ?_, hclosed⟩
  have hout' : modelGenerate (calls + 1) (NaiveEngine.args env (Server.engineRequest request requestId)
      (tokenize (Server.engineRequest request requestId).prompt)) =
        some (tokenize request.prompt ++ out) := hout
  simp only [NaiveEngine.generatedIds, htok, hout']
  exact congrArg (fun ids => Except.ok (tokenize request.prompt, ids)) List.drop_left

/-- The answers to one request: a greedy decoding under the penalty, and one by the sampler. They are the
    same exactly when the sampler takes, wherever the first passes, the same token. -/
theorem decodings_agree_iff (hexp : StrictMono env.torch.exp) (hvocab : ∀ ids, logits ids ≠ [])
    (request : GenerateRequest) (requestId : String) (now : ℚ) {prompt out out' : List ℕ}
    (hnaive : Closed (penalizedNext logits request.repetitionPenalty) (Engine.Stops env)
      request.maxTokens prompt out)
    (hbatch : Closed (Engine.next env (fun ids => (logits ids).map .fin)
      (Server.schedRequest request requestId now)) (Engine.Stops env) request.maxTokens prompt out') :
    (out = out' ↔ ∀ pre token,
      Open (penalizedNext logits request.repetitionPenalty) (Engine.Stops env) request.maxTokens
        prompt pre →
      penalizedNext logits request.repetitionPenalty (prompt ++ pre) = some token →
      FirstKept env.torch (Server.schedRequest request requestId now) (logits (prompt ++ pre)) token) ∧
    (request.repetitionPenalty = 1 → request.topP = 1 →
      (∀ pre, Open (penalizedNext logits request.repetitionPenalty) (Engine.Stops env)
        request.maxTokens prompt pre →
        Scales env.torch request.temperature (logits (prompt ++ pre))) → out = out') := by
  have hnext : ∀ ids token, Engine.next env (fun ids => (logits ids).map .fin)
      (Server.schedRequest request requestId now) ids = some token ↔
        FirstKept env.torch (Server.schedRequest request requestId now) (logits ids) token :=
    fun ids token => greedyToken_iff hexp request.topK_bounds request.topP_bounds.2 (hvocab ids)
  have hiff := hnaive.eq_iff hbatch
  simp only [hnext] at hiff
  refine ⟨hiff, fun hpenalty htopP hscales => hiff.mpr fun pre token ho ht => ?_⟩
  rw [penalizedNext, hpenalty, penalize_one, argmax_iff] at ht
  exact (firstKept_iff hexp request.topK_bounds htopP (hvocab _) (hscales pre ho)).mpr ht

/-- CORRECT: for a request of temperature 0 that the batching engine returns in any run, whatever else is
    served, the naive engine generates the same tokens exactly when, at every text that greedy decoding
    under the penalty passes, its token is the one the sampler takes. Without a penalty and without
    top-p it does wherever division by the temperature keeps the logits finite and in order. -/
theorem modes_agree_iff (hexp : StrictMono env.torch.exp) (hvocab : ∀ ids, logits ids ≠ [])
    (S : Engine.Answers env (fun ids => (logits ids).map .fin) tokenize)
    (G : DecodesGreedily env logits modelGenerate) (hrun : Trace.Run (Engine.Call env)
      (.new maxBatchSize maxQueueSize defaultTimeout policy numBlocks blockSize) evs e)
    {q : SequenceState} {request : GenerateRequest} {requestId : String} {now : ℚ}
    (hq : q ∈ Engine.returned evs)
    (hsub : .submitRequest q.request (Server.schedRequest request requestId now) true ∈ evs)
    (hzero : request.temperature = 0) (hprompt : tokenize request.prompt ≠ []) (naiveId : String)
    (calls : ℕ) :
    ∃ out, NaiveEngine.generatedIds env modelGenerate (Server.engineRequest request naiveId) calls =
        .ok (tokenize request.prompt, out) ∧
      (out = q.generatedIds ↔ ∀ pre token,
        Open (penalizedNext logits request.repetitionPenalty) (Engine.Stops env) request.maxTokens
          (tokenize request.prompt) pre →
        penalizedNext logits request.repetitionPenalty (tokenize request.prompt ++ pre) = some token →
        FirstKept env.torch (Server.schedRequest request requestId now)
          (logits (tokenize request.prompt ++ pre)) token) ∧
      (request.repetitionPenalty = 1 → request.topP = 1 →
        (∀ pre, Open (penalizedNext logits request.repetitionPenalty) (Engine.Stops env)
          request.maxTokens (tokenize request.prompt) pre →
          Scales env.torch request.temperature (logits (tokenize request.prompt ++ pre))) →
        out = q.generatedIds) := by
  obtain ⟨out, hout, hnaive⟩ := generatedIds_closed S.tokenizer G request hzero hprompt naiveId calls
  have hcold : (Server.schedRequest request requestId now).temperature < 1 / 100 := by
    rw [show (Server.schedRequest request requestId now).temperature = 0 from hzero]
    norm_num
  have hbatch := (Engine.complete_of_calls S hrun hq hsub
    ⟨isGreedy_iff.mpr hcold, request.maxTokens_bounds.1, hprompt⟩).closed
  exact ⟨out, hout, decodings_agree_iff hexp hvocab request requestId now hnaive hbatch⟩

/-- Without a penalty the modes agree. -/
theorem modes_agree_iff_last :
    let logits : List ℕ → List ℚ := fun ids => if ids.length < 3 then [0, 3, 2] else [2, 0, 2]
    let env := { Env.rowwise fun ids => (logits ids).map .fin with torch := Torch.rational }
    let request : GenerateRequest :=
      { prompt := "pp", maxTokens := 3, temperature := 0, prompt_bounds := by decide }
    NaiveEngine.generatedIds env (greedyGenerate env logits) (Server.engineRequest request "n") 0 =
      .ok ([112, 112], [1, 0]) := by
  intro logits env request
  let e₀ := ((Engine.new 1 8 60 .fcfs 4 2).submitRequest (Server.schedRequest request "a" 0)).2
  let e₁ := (e₀.step env).2
  let q : SequenceState :=
    { request := 0, inputIds := [112, 112, 1, 0], generatedIds := [1, 0], isFinished := true,
      finishReason := "eos" }
  have h₀ : Engine.Call env (.new 1 8 60 .fcfs 4 2)
    (.submitRequest 0 (Server.schedRequest request "a" 0) true) e₀ := ⟨rfl, rfl, rfl⟩
  have h₁ : Engine.Call env e₀ (.step (.ok [])) e₁ := Prod.ext (by decide +kernel) rfl
  have h₂ : Engine.Call env e₁ (.step (.ok [q])) (e₁.step env).2 := Prod.ext (by decide +kernel) rfl
  have S : Engine.Answers env (fun ids => (logits ids).map .fin)
      fun prompt => (prompt.toList.map Char.toNat).take 1024 :=
    ⟨fun _ _ => rfl, fun _ _ => rfl, fun _ _ _ => Option.some_ne_none _⟩
  have hvocab : ∀ ids, logits ids ≠ [] := by
    intro ids
    by_cases h : ids.length < 3 <;> simp [logits, h]
  have hexp : StrictMono env.torch.exp := Torch.rational_strictMono
  have hsub : Engine.Event.submitRequest q.request (Server.schedRequest request "a" 0) true ∈
      [.submitRequest 0 (Server.schedRequest request "a" 0) true, .step (.ok []), .step (.ok [q])] :=
    List.mem_cons_self
  obtain ⟨out, hout, -, hsame⟩ := modes_agree_iff hexp hvocab S
    (decodesGreedily_greedyGenerate hvocab) (.snoc (.snoc (.snoc .nil h₀) h₁) h₂) List.mem_cons_self hsub
    rfl (by decide) "n" 0
  rw [hout, hsame rfl rfl fun _ _ => scales_of_exact rfl _ _]
  decide +kernel

/-- The batching engine repeats a token that the penalty rules out. -/
theorem not_modes_agree :
    let logits : List ℕ → List ℚ := fun _ => [0, 3, 2]
    let env := { Env.rowwise fun ids => (logits ids).map .fin with torch := Torch.rational }
    let request : GenerateRequest :=
      { prompt := "pp", maxTokens := 2, temperature := 0, repetitionPenalty := 2,
        prompt_bounds := by decide, repetitionPenalty_bounds := by norm_num }
    let e := ((Engine.new 1 8 60 .fcfs 4 2).submitRequest (Server.schedRequest request "a" 0)).2
    Engine.Answers env (fun ids => (logits ids).map .fin)
        (fun prompt => (prompt.toList.map Char.toNat).take 1024) ∧
      DecodesGreedily env logits (greedyGenerate env logits) ∧
      NaiveEngine.generatedIds env (greedyGenerate env logits) (Server.engineRequest request "n") 0 =
        .ok ([112, 112], [1, 2]) ∧
      (e.runUntilEmpty env).1.toOption.map (fun qs => qs.map SequenceState.generatedIds) =
        some [[1, 1]] := by
  intro logits env request e
  exact ⟨⟨fun _ _ => rfl, fun _ _ => rfl, fun _ _ _ => Option.some_ne_none _⟩,
    decodesGreedily_greedyGenerate fun _ => by simp [logits], by decide +kernel, by decide +kernel⟩

end ModelServing
