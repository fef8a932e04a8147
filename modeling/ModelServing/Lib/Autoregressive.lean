import Mathlib

/-! Decoding one token at a time. `next` is the token that follows a text, `stop` says which tokens end
    it, and it may grow by `n` tokens. A decoder keeps `Open` until it reaches `Closed`, and there is
    only one list that is `Closed`: two decoders that get there agree, however they are written. -/

namespace Autoregressive

variable {τ : Type*} {next : List τ → Option τ} {stop : τ → Prop} {n : ℕ} {text out out' : List τ} {t : τ}

/-- Each token is the one that follows what stands before it. -/
def Follows (next : List τ → Option τ) (text : List τ) : List τ → Prop
  | [] => True
  | t :: out => next text = some t ∧ Follows next (text ++ [t]) out

theorem follows_append {text rest : List τ} :
    Follows next text (out ++ rest) ↔ Follows next text out ∧ Follows next (text ++ out) rest := by
  induction out generalizing text with
  | nil => simp [Follows]
  | cons a out ih =>
    simp only [List.cons_append, Follows, ih, and_assoc, List.append_assoc, List.nil_append]

theorem follows_concat :
    Follows next text (out ++ [t]) ↔ Follows next text out ∧ next (text ++ out) = some t := by
  simp [follows_append, Follows]

/-- Of two continuations of one text the longer extends the shorter. -/
theorem Follows.extends {text : List τ} (h : Follows next text out) (h' : Follows next text out')
    (hle : out.length ≤ out'.length) : ∃ rest, out' = out ++ rest := by
  induction out generalizing text out' with
  | nil => exact ⟨out', rfl⟩
  | cons a out ih =>
    cases out' with
    | nil => simp at hle
    | cons b out' =>
      obtain ⟨ha, h⟩ := h
      obtain ⟨hb, h'⟩ := h'
      obtain rfl : a = b := Option.some.inj (ha.symm.trans hb)
      obtain ⟨rest, rfl⟩ := ih h h' (by simpa using hle)
      exact ⟨rest, rfl⟩

/-- So far nothing has ended it. -/
structure Open (next : List τ → Option τ) (stop : τ → Prop) (n : ℕ) (text out : List τ) : Prop where
  follows : Follows next text out
  unstopped : ∀ t ∈ out, ¬ stop t
  length_lt : out.length < n

/-- The last token has ended it, by itself or because the tokens are used up. -/
structure Closed (next : List τ → Option τ) (stop : τ → Prop) (n : ℕ) (text out : List τ) : Prop where
  follows : Follows next text out
  unstopped : ∀ t ∈ out.dropLast, ¬ stop t
  length_le : out.length ≤ n
  ended : (∃ t, out.getLast? = some t ∧ stop t) ∨ out.length = n

theorem Open.nil (hn : 0 < n) : Open next stop n text [] :=
  ⟨trivial, fun _ h => absurd h List.not_mem_nil, hn⟩

theorem Open.grow (h : Open next stop n text out) (ht : next (text ++ out) = some t)
    (hstop : ¬ stop t) (hlt : out.length + 1 < n) : Open next stop n text (out ++ [t]) := by
  refine ⟨follows_concat.mpr ⟨h.follows, ht⟩, fun x hx => ?_, by simpa using hlt⟩
  rcases List.mem_append.mp hx with hx | hx
  · exact h.unstopped x hx
  · exact List.mem_singleton.mp hx ▸ hstop

theorem Open.close (h : Open next stop n text out) (ht : next (text ++ out) = some t)
    (hend : stop t ∨ n ≤ out.length + 1) : Closed next stop n text (out ++ [t]) := by
  have hlt := h.length_lt
  refine ⟨follows_concat.mpr ⟨h.follows, ht⟩, by simpa using h.unstopped, by simpa using hlt, ?_⟩
  rcases hend with hstop | hle
  · exact Or.inl ⟨t, List.getLast?_concat, hstop⟩
  · refine Or.inr ?_
    rw [List.length_append, List.length_singleton]
    omega

/-- Nothing open goes on after what is closed. -/
theorem Open.length_lt_of_closed (h : Open next stop n text out) (h' : Closed next stop n text out') :
    out.length < out'.length := by
  by_contra hle
  obtain ⟨rest, rfl⟩ := h'.follows.extends h.follows (not_lt.mp hle)
  rcases h'.ended with ⟨t, ht, hstop⟩ | hlen
  · exact h.unstopped t (List.mem_append_left _ (List.mem_of_getLast? ht)) hstop
  · have hlt := h.length_lt
    rw [List.length_append] at hlt
    omega

/-- What is open goes on if it can be closed at all. -/
theorem Open.next_of_closed (h : Open next stop n text out) (h' : Closed next stop n text out') :
    ∃ t, next (text ++ out) = some t := by
  have hlt := h.length_lt_of_closed h'
  obtain ⟨rest, rfl⟩ := h.follows.extends h'.follows hlt.le
  cases rest with
  | nil => simp at hlt
  | cons t rest => exact ⟨t, (follows_append.mp h'.follows).2.1⟩

/-- Nothing closed goes on after what is closed. -/
theorem Closed.eq_of_le (h : Closed next stop n text out) (h' : Closed next stop n text out')
    (hle : out.length ≤ out'.length) : out = out' := by
  obtain ⟨rest, rfl⟩ := h.follows.extends h'.follows hle
  rcases List.eq_nil_or_concat rest with rfl | ⟨rest, x, rfl⟩
  · rw [List.append_nil]
  · exfalso
    have hle := h'.length_le
    simp only [List.concat_eq_append, List.length_append, List.length_singleton] at hle
    rcases h.ended with ⟨t, ht, hstop⟩ | hlen
    · refine h'.unstopped t ?_ hstop
      rw [List.concat_eq_append, ← List.append_assoc, List.dropLast_concat]
      exact List.mem_append_left _ (List.mem_of_getLast? ht)
    · omega

theorem Closed.unique (h : Closed next stop n text out) (h' : Closed next stop n text out') :
    out = out' := by
  rcases Nat.le_total out.length out'.length with hle | hle
  · exact h.eq_of_le h' hle
  · exact (h'.eq_of_le h hle).symm

/-- Two decoders get the same from one text exactly when, wherever the first passes, the second goes on
    with the same token. -/
theorem Closed.eq_iff {next' : List τ → Option τ} (h : Closed next stop n text out)
    (h' : Closed next' stop n text out') :
    out = out' ↔ ∀ pre t, Open next stop n text pre → next (text ++ pre) = some t →
      next' (text ++ pre) = some t := by
  constructor
  · rintro rfl pre t ho ht
    have hlt := ho.length_lt_of_closed h
    obtain ⟨rest, rfl⟩ := ho.follows.extends h.follows hlt.le
    cases rest with
    | nil => simp at hlt
    | cons x rest =>
      have hx := (follows_append.mp h.follows).2.1
      obtain rfl : x = t := Option.some.inj (hx.symm.trans ht)
      exact (follows_append.mp h'.follows).2.1
  · intro hall
    have hfollows : ∀ pre rest, out = pre ++ rest → Follows next' text pre := by
      intro pre
      induction pre using List.reverseRecOn with
      | nil => exact fun _ _ => trivial
      | append_singleton pre t ih =>
        rintro rest rfl
        obtain ⟨hpre, ht⟩ := follows_concat.mp (follows_append.mp h.follows).1
        have ho : Open next stop n text pre := by
          refine ⟨hpre, fun x hx => h.unstopped x ?_, ?_⟩
          · rw [List.append_assoc, List.dropLast_append_of_ne_nil (by simp)]
            exact List.mem_append_left _ hx
          · have hle := h.length_le
            simp only [List.length_append, List.length_singleton] at hle
            omega
        exact follows_concat.mpr ⟨ih _ (List.append_assoc ..), hall pre t ho ht⟩
    have hclosed : Closed next' stop n text out :=
      ⟨hfollows out [] (List.append_nil _).symm, h.unstopped, h.length_le, h.ended⟩
    exact hclosed.unique h'

/-! ### A decoder -/

/-- The decoder that asks for one token after the other. -/
def decode (next : List τ → Option τ) (stop : τ → Prop) [DecidablePred stop] : ℕ → List τ → List τ
  | 0, _ => []
  | n + 1, text =>
    match next text with
    | none => []
    | some t => if stop t then [t] else t :: decode next stop n (text ++ [t])

theorem Closed.cons (ht : next text = some t) (hstop : ¬ stop t)
    (h : Closed next stop n (text ++ [t]) out) : Closed next stop (n + 1) text (t :: out) := by
  refine ⟨⟨ht, h.follows⟩, ?_, Nat.succ_le_succ h.length_le, ?_⟩
  · cases out with
    | nil => simp
    | cons a out => simpa [hstop] using h.unstopped
  · rcases h.ended with ⟨a, ha, hstop⟩ | hlen
    · cases out with
      | nil => cases ha
      | cons b out => exact Or.inl ⟨a, by rwa [List.getLast?_cons_cons], hstop⟩
    · exact Or.inr (congrArg Nat.succ hlen)

/-- It gets to what is closed if it never lacks a token. -/
theorem closed_decode [DecidablePred stop] (hnext : ∀ text, ∃ t, next text = some t) :
    Closed next stop n text (decode next stop n text) := by
  induction n generalizing text with
  | zero => exact ⟨trivial, by simp [decode], le_rfl, Or.inr rfl⟩
  | succ n ih =>
    obtain ⟨t, ht⟩ := hnext text
    simp only [decode, ht]
    split
    · rename_i hstop
      exact ⟨⟨ht, trivial⟩, by simp, by simp, Or.inl ⟨t, rfl, hstop⟩⟩
    · rename_i hstop
      exact ih.cons ht hstop

/-! ### Decoders that draw -/

variable {may : List τ → τ → Prop}

/-- Each token is one that may follow what stands before it. -/
def Path (may : List τ → τ → Prop) (text : List τ) : List τ → Prop
  | [] => True
  | t :: out => may text t ∧ Path may (text ++ [t]) out

theorem path_concat : Path may text (out ++ [t]) ↔ Path may text out ∧ may (text ++ out) t := by
  induction out generalizing text with
  | nil => simp [Path]
  | cons a out ih => simp only [List.cons_append, Path, ih, and_assoc, List.append_assoc, List.nil_append]

/-- A path that nothing has ended yet. -/
structure Drawing (may : List τ → τ → Prop) (stop : τ → Prop) (n : ℕ) (text out : List τ) : Prop where
  path : Path may text out
  unstopped : ∀ t ∈ out, ¬ stop t
  length_lt : out.length < n

/-- A path that its last token has ended, by itself or because the tokens are used up. -/
structure Drawn (may : List τ → τ → Prop) (stop : τ → Prop) (n : ℕ) (text out : List τ) : Prop where
  path : Path may text out
  unstopped : ∀ t ∈ out.dropLast, ¬ stop t
  length_le : out.length ≤ n
  ended : (∃ t, out.getLast? = some t ∧ stop t) ∨ out.length = n

theorem Drawing.nil (hn : 0 < n) : Drawing may stop n text [] :=
  ⟨trivial, fun _ h => absurd h List.not_mem_nil, hn⟩

theorem Drawing.grow (h : Drawing may stop n text out) (ht : may (text ++ out) t) (hstop : ¬ stop t)
    (hlt : out.length + 1 < n) : Drawing may stop n text (out ++ [t]) := by
  refine ⟨path_concat.mpr ⟨h.path, ht⟩, fun x hx => ?_, by simpa using hlt⟩
  rcases List.mem_append.mp hx with hx | hx
  · exact h.unstopped x hx
  · exact List.mem_singleton.mp hx ▸ hstop

theorem Drawing.close (h : Drawing may stop n text out) (ht : may (text ++ out) t)
    (hend : stop t ∨ n ≤ out.length + 1) : Drawn may stop n text (out ++ [t]) := by
  have hlt := h.length_lt
  refine ⟨path_concat.mpr ⟨h.path, ht⟩, by simpa using h.unstopped, by simpa using hlt, ?_⟩
  rcases hend with hstop | hle
  · exact Or.inl ⟨t, List.getLast?_concat, hstop⟩
  · refine Or.inr ?_
    rw [List.length_append, List.length_singleton]
    omega

end Autoregressive
