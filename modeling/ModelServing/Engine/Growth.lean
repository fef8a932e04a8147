import ModelServing.Engine.Bound

/-! How sequences grow. A sequence is its prompt and what has been generated, and while it is in the
    batch it has a token left to generate, whatever the ids and whatever raises, unless the decoder
    does: then the other finished sequences stay and grow on. -/

namespace ModelServing

namespace Engine

variable {env : Env} {e e' : Engine} {p p' : Point} {r : Ref} {k : String} {limit : ℕ}

/-! ### The forward pass of a step -/

/-- What the next step feeds the model, one row for each sequence. -/
def fed (env : Env) (e : Engine) : List (List ℕ) :=
  match e.admitNewSequences env with
  | (.error _, _) => []
  | (.ok (), e) => if e.activeSequences.keys = [] then [] else e.prepareBatchInputs env

/-- The rows of the padded batch are as long as its longest sequence. -/
theorem prepareBatchInputs_length_le
    (h : ∀ k q, e.activeSequences.get? k = some q → q.inputIds.length ≤ limit) :
    ∀ row ∈ e.prepareBatchInputs env, row.length ≤ limit := by
  have hids : ∀ ids ∈ e.activeSequences.values.map SequenceState.inputIds, ids.length ≤ limit := by
    intro ids hids
    obtain ⟨q, hq, rfl⟩ := List.mem_map.mp hids
    obtain ⟨k, hk⟩ := OrderedDict.mem_values_iff.mp hq
    exact h k q hk
  have hmax : ∀ (ns : List ℕ) (a : ℕ), (∀ n ∈ ns, n ≤ limit) → a ≤ limit → ns.foldl max a ≤ limit := by
    intro ns
    induction ns with
    | nil => exact fun _ _ ha => ha
    | cons n ns ih =>
      intro a hns ha
      exact ih _ (fun m hm => hns m (List.mem_cons_of_mem _ hm))
        (max_le ha (hns n List.mem_cons_self))
  intro row hrow
  obtain ⟨ids, hmem, rfl⟩ := List.mem_map.mp hrow
  have hlen := hids ids hmem
  have hpad : ((e.activeSequences.values.map SequenceState.inputIds).map List.length).foldl max 0 ≤ limit :=
    hmax _ 0 (by simpa using hids) (Nat.zero_le _)
  rw [List.length_append, List.length_replicate]
  omega

/-! ### Tokens left -/

/-- A sequence that is not about to be removed has tokens left, as long as everybody may have one and
    the decoder answers. -/
theorem Unspoiled.micro {a : Action} (U : Unspoiled p.toFinish e) (N : Leaving p e)
    (hpos : ∀ r, Holds p e r → 1 ≤ (e.request r).maxTokens) (h : Micro env (p, e) a (p', e'))
    (hdec : p' ≠ .ended (some .decode)) : Unspoiled p'.toFinish e' := by
  intro k q' hq' hk
  rw [h.stable _ RequestScheduler.stable_maxTokens]
  cases h.origin hq' with
  | kept hq =>
    exact U k q' hq (N.stays h hdec (OrderedDict.mem_keys_of_get? hq') hk)
  | admitted _ => exact hpos _ (Or.inr (Or.inl List.mem_cons_self))
  | grown _ _ _ =>
    have hf := mt (fun hf => mem_finishedIds.mpr ⟨_, hq', hf⟩) hk
    rw [SequenceState.append_isFinished] at hf
    simp only [not_or, not_le] at hf
    rw [SequenceState.append_request, SequenceState.append_generatedIds, List.length_append,
      List.length_singleton]
    exact hf.2.2

/-- Inside a step: what is known of every sequence. -/
structure Growing (env : Env) (p : Point) (e : Engine) : Prop where
  tokenized : Tokenized env p e
  unspoiled : Unspoiled p.toFinish e
  leaving : Leaving p e
  positive : ∀ r, Holds p e r → 1 ≤ (e.request r).maxTokens

theorem Growing.micro {a : Action} (G : Growing env p e) (h : Micro env (p, e) a (p', e'))
    (hdec : p' ≠ .ended (some .decode)) : Growing env p' e' := by
  refine ⟨G.tokenized.micro h, G.unspoiled.micro G.leaving G.positive h hdec, G.leaving.micro h,
    fun r hr => ?_⟩
  rw [h.stable _ RequestScheduler.stable_maxTokens]
  exact G.positive r (hr.micro h)

theorem Growing.run {c c' : Point × Engine} {as : List Action} (G : Growing env c.1 c.2)
    (h : Trace.Run (Micro env) c as c') (hdec : c'.1 ≠ .ended (some .decode)) :
    Growing env c'.1 c'.2 :=
  Micro.run_of (G := fun p => p ≠ .ended (some .decode)) (I := fun c => Growing env c.1 c.2)
    (fun _ hp => hp _) (fun _ _ _ G hm hdec => G.micro hm hdec) h G hdec

/-! ### Runs -/

variable {maxBatchSize maxQueueSize : ℤ} {defaultTimeout : ℚ} {policy : SchedulingPolicy}
  {numBlocks blockSize : ℕ} {evs : List Event}

theorem growing_of_calls (hrun : Trace.Run (Call env)
      (new maxBatchSize maxQueueSize defaultTimeout policy numBlocks blockSize) evs e)
    (hpos : ∀ r req, .submitRequest r req true ∈ evs → 1 ≤ req.maxTokens)
    (hdec : .step (.error .decode) ∉ evs) : Growing env .idle e := by
  have hevs := hrun.restrict (P := fun ev => ev ≠ .step (.error .decode) ∧
    ∀ r req, ev = .submitRequest r req true → 1 ≤ req.maxTokens) fun ev hev =>
      ⟨fun h => hdec (h ▸ hev), fun r req h => hpos r req (h ▸ hev)⟩
  have hidle : ∀ {evs e}, Trace.Run (Call env)
      (new maxBatchSize maxQueueSize defaultTimeout policy numBlocks blockSize) evs e →
      (∀ r req, .submitRequest r req true ∈ evs → 1 ≤ req.maxTokens) → Unspoiled [] e →
      Growing env .idle e := by
    intro evs e hrun hpos U
    refine ⟨tokenized_of_calls hrun, U, ⟨List.nodup_nil, fun _ h => absurd h List.not_mem_nil⟩, ?_⟩
    intro r hr
    obtain ⟨req, hmem, -, hstable⟩ := held_submitted hrun hr
    rw [hstable _ RequestScheduler.stable_maxTokens]
    exact hpos r req hmem
  refine hidle hrun hpos (hevs.invariant (I := fun _ e => Unspoiled [] e) ?_ ?_)
  · exact fun _ _ h => (nomatch h)
  · rintro evs e ev e' hr U ⟨hst, hne, -⟩
    have hpos := hr.events (P := fun ev => ev ≠ .step (.error .decode) ∧
      ∀ r req, ev = .submitRequest r req true → 1 ≤ req.maxTokens) fun _ _ _ h => h.2
    have hcalls := hr.mono fun _ _ _ h => h.1
    have G := hidle hcalls (fun r req hmem => (hpos _ hmem).2 r req rfl) U
    by_cases hev : ∃ res, ev = .step res
    · obtain ⟨res, rfl⟩ := hev
      obtain ⟨qs, ⟨as, hmicro, -⟩, -⟩ := step_leads hst
      have hdec : land (.ended none) res ≠ .ended (some .decode) := by
        cases res with
        | error err =>
          rintro ⟨⟩
          exact hne rfl
        | ok done => rintro ⟨⟩
      have hend := (G.run hmicro hdec).unspoiled
      cases res <;> exact hend
    · obtain ⟨hact, hstable⟩ := call_frame hcalls hst (not_exists.mp hev)
      intro k q hq hk
      rw [hact] at hq
      exact (U k q hq hk).trans_eq (hstable _ RequestScheduler.stable_maxTokens k q hq).symm

/-- If every prompt fits with its allowance, so does everything a step is fed. -/
theorem fed_le (G : Growing env .idle e)
    (hfit : ∀ r, Holds .idle e r → ∀ i ids, env.tokenizer i (e.request r).prompt 1024 = some ids →
      ids.length + (e.request r).maxTokens ≤ limit + 1) :
    ∀ row ∈ e.fed env, row.length ≤ limit := by
  unfold fed
  rcases ha : e.admitNewSequences env with ⟨err | ⟨⟩, e₁⟩
  · exact fun _ h => absurd h List.not_mem_nil
  · obtain ⟨as, hmicro, -⟩ := admitNewSequences_leads ha
    have G₁ := G.run hmicro Point.noConfusion
    obtain ⟨hheld, -, hstable⟩ := Micro.run_frame hmicro
    simp only
    split
    · exact fun _ h => absurd h List.not_mem_nil
    · refine prepareBatchInputs_length_le fun k q hq => ?_
      obtain ⟨i, ids, htok, hin⟩ := G₁.tokenized.active k q hq
      have hlt := G₁.unspoiled k q hq List.not_mem_nil
      change env.tokenizer i (e₁.request q.request).prompt 1024 = some ids at htok
      rw [hstable _ RequestScheduler.stable_prompt] at htok
      rw [hstable _ RequestScheduler.stable_maxTokens] at hlt
      have hle := hfit _ (hheld _ (.of_active hq)) i ids htok
      rw [hin, List.length_append]
      change q.generatedIds.length < (e.request q.request).maxTokens at hlt
      omega

end Engine

end ModelServing
