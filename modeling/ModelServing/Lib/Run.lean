import Mathlib

/-! Runs of a labelled transition system, with the rule every history argument uses: an invariant
    over the events so far and the state reached. The others take runs apart and carry them from one
    system to another.

    A deterministic component that reports an outcome per call is the instance
    `step s e s' := (perform s e.op = (e.outcome, s'))`. -/

namespace Trace

variable {σ ε : Type*}

/-- `Run step s₀ es s`: the events `es`, oldest first, lead from `s₀` to `s`. -/
inductive Run (step : σ → ε → σ → Prop) (s₀ : σ) : List ε → σ → Prop
  | nil : Run step s₀ [] s₀
  | snoc {es : List ε} {s : σ} {e : ε} {s' : σ} :
      Run step s₀ es s → step s e s' → Run step s₀ (es ++ [e]) s'

variable {step step' : σ → ε → σ → Prop} {s₀ s s' : σ} {es es' : List ε}

/-- Invariant rule: what holds at the start and is kept by each event holds after every run. The
    step may use the run that led to it. -/
theorem Run.invariant {I : List ε → σ → Prop} (h₀ : I [] s₀)
    (hs : ∀ es s e s', Run step s₀ es s → I es s → step s e s' → I (es ++ [e]) s')
    (h : Run step s₀ es s) : I es s := by
  induction h with
  | nil => exact h₀
  | snoc hr hst ih => exact hs _ _ _ _ hr ih hst

/-- Invariants of the state alone. -/
theorem Run.always {I : σ → Prop} (h₀ : I s₀) (hs : ∀ s e s', I s → step s e s' → I s')
    (h : Run step s₀ es s) : I s :=
  h.invariant (I := fun _ s => I s) h₀ fun _ s e s' _ hi hst => hs s e s' hi hst

/-- What every step says of its event holds of all events of a run. -/
theorem Run.events {P : ε → Prop} (hs : ∀ s e s', step s e s' → P e) (h : Run step s₀ es s) :
    ∀ e ∈ es, P e := by
  induction h with
  | nil => exact fun _ h => absurd h List.not_mem_nil
  | snoc _ hst ih =>
    intro e he
    rcases List.mem_append.mp he with he | he
    · exact ih e he
    · exact List.mem_singleton.mp he ▸ hs _ _ _ hst

theorem Run.mono (hst : ∀ s e s', step s e s' → step' s e s') (h : Run step s₀ es s) :
    Run step' s₀ es s := by
  induction h with
  | nil => exact .nil
  | snoc _ hs ih => exact .snoc ih (hst _ _ _ hs)

/-- A run of events that all satisfy `P` is a run of the system that has no others. -/
theorem Run.restrict {P : ε → Prop} (h : Run step s₀ es s) (hP : ∀ e ∈ es, P e) :
    Run (fun s e s' => step s e s' ∧ P e) s₀ es s := by
  induction h with
  | nil => exact .nil
  | snoc _ hs ih =>
    exact .snoc (ih fun e he => hP e (List.mem_append_left _ he))
      ⟨hs, hP _ (List.mem_append_right _ List.mem_cons_self)⟩

/-- Reading the events differently. -/
theorem Run.map {ε' : Type*} {step' : σ → ε' → σ → Prop} (f : ε → ε')
    (hst : ∀ s e s', step s e s' → step' s (f e) s') (h : Run step s₀ es s) :
    Run step' s₀ (es.map f) s := by
  induction h with
  | nil => exact .nil
  | snoc _ hs ih => simpa using ih.snoc (hst _ _ _ hs)

theorem Run.append (h : Run step s₀ es s) (h' : Run step s es' s') :
    Run step s₀ (es ++ es') s' := by
  induction h' with
  | nil => simpa using h
  | snoc _ hs ih => rw [← List.append_assoc]; exact .snoc ih hs

theorem Run.single {e : ε} (h : step s₀ e s) : Run step s₀ [e] s := .snoc .nil h

/-- A run of a prefix of the events leads to the state in which the rest starts. -/
theorem Run.split (h : Run step s₀ es s) : ∀ {pre post : List ε}, es = pre ++ post →
    ∃ m, Run step s₀ pre m ∧ Run step m post s := by
  induction h with
  | nil =>
    intro pre post he
    obtain ⟨rfl, rfl⟩ := List.append_eq_nil_iff.mp he.symm
    exact ⟨s₀, .nil, .nil⟩
  | @snoc es s e s' hr hs ih =>
    intro pre post he
    rcases List.eq_nil_or_concat post with rfl | ⟨post', e', rfl⟩
    · rw [List.append_nil] at he
      exact ⟨s', he ▸ hr.snoc hs, .nil⟩
    · rw [List.concat_eq_append, ← List.append_assoc] at he
      obtain ⟨he, hee⟩ := List.append_inj' he rfl
      obtain ⟨m, hpre, hpost⟩ := ih he
      cases hee
      exact ⟨m, hpre, by rw [List.concat_eq_append]; exact hpost.snoc hs⟩

theorem Run.snoc_iff {e : ε} : Run step s₀ (es ++ [e]) s' ↔ ∃ s, Run step s₀ es s ∧ step s e s' := by
  constructor
  · intro h
    obtain ⟨s, hpre, hpost⟩ := h.split rfl
    refine ⟨s, hpre, ?_⟩
    generalize hone : [e] = post at hpost
    cases hpost with
    | nil => cases hone
    | @snoc es' m e' _ hm hs =>
      have hone : [] ++ [e] = es' ++ [e'] := hone
      obtain ⟨rfl, heq⟩ := List.append_inj' hone rfl
      cases heq
      generalize hnil : [] = pre at hm
      cases hm with
      | nil => exact hs
      | snoc _ _ => simp at hnil
  · rintro ⟨s, h, hs⟩
    exact h.snoc hs

/-- The events of a deterministic system determine where it ends. -/
theorem Run.unique (hdet : ∀ s e s₁ s₂, step s e s₁ → step s e s₂ → s₁ = s₂)
    (h : Run step s₀ es s) : ∀ {s'}, Run step s₀ es s' → s = s' := by
  induction h with
  | nil =>
    intro s' h'
    generalize hnil : [] = es at h'
    cases h' with
    | nil => rfl
    | snoc _ _ => simp at hnil
  | snoc _ hs ih =>
    intro s' h'
    obtain ⟨m, hm, hs'⟩ := Run.snoc_iff.mp h'
    obtain rfl := ih hm
    exact hdet _ _ _ _ hs hs'

end Trace
