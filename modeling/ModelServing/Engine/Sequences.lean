import ModelServing.Engine.Decoding

/-! An invariant rule for single sequences. What a tokenized prompt satisfies and every token drawn from
    the sequence's own row of the logits preserves, holds of all sequences in the batch; what the last
    token makes of it holds of all that are returned. Ids may repeat, requests may be cancelled, and
    everything but the decoder may have raised. -/

namespace ModelServing

namespace Engine

variable {env : Env} {e e' : Engine} {p p' : Point} {q : SequenceState}
  {going ended : ScheduledRequest → SequenceState → Prop}

/-- Token `t` is drawn for `q` from its row of the logits that the model gives for the batch. -/
structure Draw (env : Env) (e : Engine) (q : SequenceState) (t : ℕ) : Prop where
  drawn : ∃ (k : String) (j c : ℕ) (out : List (List (List Logit))),
    env.model e.calls (e.prepareBatchInputs env) = some out ∧
    e.activeSequences.entries[j]? = some (k, q) ∧
    (sampleToken env (e.request q.request) (lastLogits out j q.inputIds.length) c).1 = .ok t

/-- `going` holds of a sequence as long as tokens are missing, `ended` after its last token. -/
structure Rule (env : Env) (going ended : ScheduledRequest → SequenceState → Prop) : Prop where
  stable_going : ∀ q, RequestScheduler.Stable fun req => going req q
  stable_ended : ∀ q, RequestScheduler.Stable fun req => ended req q
  unfinished : ∀ req q, going req q → q.isFinished = false
  admitted : ∀ (i : ℕ) (req : ScheduledRequest) (r : Ref) (ids : List ℕ),
    env.tokenizer i req.prompt 1024 = some ids → going req { request := r, inputIds := ids }
  drawn : ∀ (e : Engine) (q : SequenceState) (t : ℕ), Draw env e q t → going (e.request q.request) q →
    let q' := q.append env.eosTokenId (e.request q.request).maxTokens t
    (q'.isFinished = true → ended (e.request q.request) q') ∧
      (q'.isFinished = false → going (e.request q.request) q')

/-- What is known inside a step. -/
structure Ruled (going ended : ScheduledRequest → SequenceState → Prop) (p : Point) (e : Engine) :
    Prop where
  staying : ∀ k q, e.activeSequences.get? k = some q → k ∉ p.toFinish → going (e.request q.request) q
  leaving : ∀ k q, e.activeSequences.get? k = some q → k ∈ p.toFinish → ended (e.request q.request) q

theorem Ruled.micro {a : Action} (I : Ruled going ended p e) (R : Rule env going ended)
    (T : Tokenized env p e) (N : Leaving p e) (h : Micro env (p, e) a (p', e'))
    (hdec : p' ≠ .ended (some .decode)) : Ruled going ended p' e' := by
  constructor
  · intro k q' hq' hk
    refine (h.stable _ (R.stable_going q') _).mpr ?_
    cases h.origin hq' with
    | kept hq =>
      exact I.staying k q' hq (N.stays h hdec (OrderedDict.mem_keys_of_get? hq') hk)
    | @admitted _ _ r rs ids _ _ =>
      obtain ⟨i, hi⟩ := T.placing r ids rs rfl
      exact R.admitted i _ r ids hi
    | @grown _ _ _ q out j c t hm hent ht =>
      have hq := OrderedDict.get?_eq_some_iff.mpr (List.mem_of_getElem? hent)
      have hf := mt (fun hf => mem_finishedIds.mpr ⟨_, hq', hf⟩) hk
      rw [SequenceState.append_request]
      exact (R.drawn e q t ⟨k, j, c, out, hm, hent, ht⟩ (I.staying k q hq List.not_mem_nil)).2
        (Bool.not_eq_true _ ▸ hf)
  · intro k q' hq' hk
    refine (h.stable _ (R.stable_ended q') _).mpr ?_
    cases h.origin hq' with
    | kept hq =>
      cases h with
      | append _ _ _ =>
        -- what is finished now was not before
        obtain ⟨x, hx, hf⟩ := mem_finishedIds.mp hk
        cases hq'.symm.trans hx
        cases hf.symm.trans (R.unfinished _ _ (I.staying k q' hq List.not_mem_nil))
      | finish _ => exact I.leaving k q' hq (List.mem_cons_of_mem _ hk)
      | _ => exact absurd hk List.not_mem_nil
    | admitted _ => exact absurd hk List.not_mem_nil
    | @grown _ _ _ q out j c t hm hent ht =>
      have hq := OrderedDict.get?_eq_some_iff.mpr (List.mem_of_getElem? hent)
      obtain ⟨x, hx, hf⟩ := mem_finishedIds.mp hk
      cases hq'.symm.trans hx
      rw [SequenceState.append_request]
      exact (R.drawn e q t ⟨k, j, c, out, hm, hent, ht⟩ (I.staying k q hq List.not_mem_nil)).1 hf

/-- What holds inside a step that began in `e`, after the changes `as`. -/
structure RuledUntil (env : Env) (going ended : ScheduledRequest → SequenceState → Prop) (e : Engine)
    (as : List Action) (c : Point × Engine) : Prop where
  tokenized : Tokenized env c.1 c.2
  leaving : Leaving c.1 c.2
  ruled : Ruled going ended c.1 c.2
  finished : ∀ q ∈ Action.finished as, Holds .idle e q.request ∧ ended (e.request q.request) q

theorem RuledUntil.snoc {as : List Action} {a : Action} {c c' : Point × Engine}
    (U : RuledUntil env going ended e as c) (R : Rule env going ended)
    (hrun : Trace.Run (Micro env) (.idle, e) as c) (hm : Micro env c a c')
    (hdec : c'.1 ≠ .ended (some .decode)) : RuledUntil env going ended e (as ++ [a]) c' := by
  refine ⟨U.tokenized.micro hm, U.leaving.micro hm,
    U.ruled.micro R U.tokenized U.leaving hm hdec, ?_⟩
  intro q hq
  rw [Action.finished_append] at hq
  rcases List.mem_append.mp hq with hq | hq
  · exact U.finished q hq
  · obtain ⟨hheld, -, hstable⟩ := Micro.run_frame hrun
    cases hm with
    | @finish x x' id ids q' hf =>
      obtain rfl := List.mem_singleton.mp hq
      obtain ⟨hget, -⟩ := finish_ok hf
      exact ⟨hheld _ (.of_active hget), (hstable _ (R.stable_ended q) _).mp
        (U.ruled.leaving id q hget List.mem_cons_self)⟩
    | _ => exact absurd hq List.not_mem_nil

/-! ### Runs -/

variable {maxBatchSize maxQueueSize : ℤ} {defaultTimeout : ℚ} {policy : SchedulingPolicy}
  {numBlocks blockSize : ℕ} {evs : List Event}

theorem Ruled.idle (I : Ruled going ended p e) (hp : p.toFinish = [])
    (hact : e'.activeSequences = e.activeSequences)
    (hsame : ∀ k q, e.activeSequences.get? k = some q →
      going (e'.request q.request) q = going (e.request q.request) q) : Ruled going ended .idle e' := by
  refine ⟨fun k q hq _ => ?_, fun _ _ _ h => absurd h List.not_mem_nil⟩
  rw [hact] at hq
  rw [hsame k q hq]
  exact I.staying k q hq (hp ▸ List.not_mem_nil)

/-- The rule: as long as no step has failed to decode, `going` for the batch, `ended` for what has been
    returned, each for the request as it was submitted. -/
theorem Rule.of_calls (R : Rule env going ended) (hrun : Trace.Run (Call env)
      (new maxBatchSize maxQueueSize defaultTimeout policy numBlocks blockSize) evs e)
    (hdec : Decoded evs) :
    Ruled going ended .idle e ∧ ∀ q ∈ returned evs, ∃ req,
      .submitRequest q.request req true ∈ evs ∧ ended req q := by
  refine hrun.invariant (I := fun evs e => Decoded evs → Ruled going ended .idle e ∧
    ∀ q ∈ returned evs, ∃ req, .submitRequest q.request req true ∈ evs ∧ ended req q) ?_ ?_ hdec
  · exact fun _ =>
      ⟨⟨fun _ _ h => (nomatch h), fun _ _ h => (nomatch h)⟩, fun _ h => absurd h List.not_mem_nil⟩
  · rintro evs e ev e' hr hi hst hdec
    obtain ⟨I, hret⟩ := hi fun h => hdec (List.mem_append_left _ h)
    have hold : ∀ q ∈ returned evs, ∃ req, .submitRequest q.request req true ∈ evs ++ [ev] ∧
        ended req q := fun q hq => (hret q hq).imp fun req h => ⟨List.mem_append_left _ h.1, h.2⟩
    rw [returned_append]
    by_cases hev : ∃ res, ev = .step res
    · obtain ⟨res, rfl⟩ := hev
      obtain ⟨qs, ⟨as, hmicro, hqs⟩, hdone⟩ := step_leads hst
      have U₀ : RuledUntil env going ended e [] (.idle, e) :=
        ⟨tokenized_of_calls hr, ⟨List.nodup_nil, fun _ h => absurd h List.not_mem_nil⟩, I,
          fun _ h => absurd h List.not_mem_nil⟩
      have hland : land (.ended none) res ≠ .ended (some .decode) := by
        cases res with
        | ok done => simp [land]
        | error err =>
          intro heq
          obtain rfl : err = .decode := by simpa [land] using heq
          exact hdec (List.mem_append_right _ List.mem_cons_self)
      have U := hmicro.invariant (I := fun as c => c.1 ≠ .ended (some .decode) →
        RuledUntil env going ended e as c) (fun _ => U₀)
        (fun as c a c' hrun U hm hne => (U (hm.not_ended _)).snoc R hrun hm hne) hland
      refine ⟨U.ruled.idle (by cases res <;> rfl) rfl fun _ _ _ => rfl, fun q hq => ?_⟩
      rcases List.mem_append.mp hq with hq | hq
      · exact hold q hq
      · cases res with
        | error err => exact absurd hq List.not_mem_nil
        | ok done =>
          have hfin : q ∈ Action.finished as := by
            rw [hqs, hdone done rfl]
            simpa [returned] using hq
          obtain ⟨hheld, hc⟩ := U.finished q hfin
          obtain ⟨req, hmem, -, hstable⟩ := held_submitted hr hheld
          exact ⟨req, List.mem_append_left _ hmem, (hstable _ (R.stable_ended q)).mp hc⟩
    · obtain ⟨hact, hstable⟩ := call_frame hr hst (not_exists.mp hev)
      refine ⟨I.idle rfl hact fun k q hq => hstable _ (R.stable_going q) k q hq, fun q hq => hold q ?_⟩
      cases ev with
      | step res => exact absurd ⟨res, rfl⟩ hev
      | submitRequest _ _ _ | cancelRequest _ _ => simpa [returned] using hq

end Engine

end ModelServing
