import ModelServing.Engine.Scheduler

/-! The sampler of `batching.py`: temperature, top-k, top-p, and the choice of a token from the
    probabilities. Probabilities are exact, and logits have the special values of floats, which the
    filters produce and the choice trips over. What the tensor library decides for itself (how a
    quotient is rounded and when it overflows, the exponential, the order among equal logits) is a
    parameter. -/

namespace ModelServing

/-- A float as the filters see it. -/
inductive Logit where | nan | negInf | fin (x : ℚ) | posInf
  deriving DecidableEq

namespace Logit

/-- Exact division by a positive number. -/
def div (t : ℚ) : Logit → Logit
  | fin x => fin (x / t)
  | l => l

/-- `<` on floats: false as soon as NaN takes part. -/
def lt : Logit → Logit → Bool
  | fin x, fin y => decide (x < y)
  | negInf, fin _ | negInf, posInf | fin _, posInf => true
  | _, _ => false

/-- At most, in the order that sorting uses: NaN is the largest value. -/
def le : Logit → Logit → Prop
  | _, nan => True
  | nan, _ => False
  | a, b => b.lt a = false

instance : DecidableRel le := fun a b => by
  cases a <;> cases b <;> unfold le <;> infer_instance

theorem le_or_le (a b : Logit) : a.le b ∨ b.le a := by
  cases a <;> cases b <;>
    simp only [le, lt, or_true, true_or, or_false, decide_eq_false_iff_not, not_lt]
  · exact Rat.le_total

protected theorem le_trans {a b c : Logit} (h : a.le b) (h' : b.le c) : a.le c := by
  cases a <;> cases b <;> cases c <;>
    simp_all only [le, lt, decide_eq_false_iff_not, not_lt, reduceCtorEq]
  · exact h.trans h'

end Logit

/-- The numerical library. -/
structure Torch where
  /-- The quotient of a logit by a number, in the float type of the model. -/
  div : ℚ → Logit → Logit
  exp : ℚ → ℚ
  exp_nonneg : ∀ x, 0 ≤ exp x
  exp_zero : exp 0 = 1
  /-- The indices `torch.sort(descending=True)` returns. -/
  argsort : List Logit → List ℕ
  argsort_perm : ∀ ls, (argsort ls).Perm (List.range ls.length)
  argsort_descending : ∀ ls, (argsort ls).Pairwise fun i j => (ls.getD j .nan).le (ls.getD i .nan)

namespace Torch

/-- Index `i` may stand before `j` in descending order. -/
def Before (ls : List Logit) (i j : ℕ) : Prop := (ls.getD j .nan).le (ls.getD i .nan)

instance (ls : List Logit) : DecidableRel (Before ls) :=
  fun _ _ => inferInstanceAs (Decidable (Logit.le _ _))

instance (ls : List Logit) : Std.Total (Before ls) := ⟨fun _ _ => Logit.le_or_le _ _⟩

instance (ls : List Logit) : IsTrans ℕ (Before ls) := ⟨fun _ _ _ h h' => Logit.le_trans h' h⟩

/-- A library that divides exactly and sorts by insertion. Its exponential rounds down to a power of
    two. -/
def reference : Torch where
  div := Logit.div
  exp x := 2 ^ ⌊x⌋
  exp_nonneg _ := by positivity
  exp_zero := by simp
  argsort ls := (List.range ls.length).insertionSort (Before ls)
  argsort_perm ls := List.perm_insertionSort _ _
  argsort_descending ls := List.pairwise_insertionSort (Before ls) _

def sort (t : Torch) (ls : List Logit) : List Logit := (t.argsort ls).map fun i => ls.getD i .nan

/-- The largest finite value, which `softmax` subtracts. -/
def finiteMax (ls : List Logit) : ℚ :=
  let xs := ls.filterMap fun | .fin x => some x | _ => none
  xs.foldl max (xs.headD 0)

/-- Probabilities, or `none` where the library returns NaN throughout: a NaN or `inf` among the
    logits, or nothing but `-inf`. -/
def softmax (t : Torch) (ls : List Logit) : Option (List ℚ) :=
  if Logit.nan ∈ ls ∨ Logit.posInf ∈ ls ∨ (ls ≠ [] ∧ ∀ l ∈ ls, l = .negInf) then none
  else
    let m := finiteMax ls
    let weights := ls.map fun | .fin x => t.exp (x - m) | _ => 0
    some (weights.map (· / weights.sum))

def cumsum (ps : List ℚ) : List ℚ := (List.range ps.length).map fun i => (ps.take (i + 1)).sum

/-- `zeros_like(values).scatter(0, indices, values)`. -/
def scatter (indices : List ℕ) (values : List Logit) : List Logit :=
  (indices.zip values).foldl (fun out p => out.set p.1 p.2)
    (List.replicate values.length (.fin 0))

/-- The first index of the largest probability; NaN counts as the largest value. -/
def argmax : Option (List ℚ) → Option ℕ
  | none => some 0
  | some ps => (List.range ps.length).argmax fun i => ps.getD i 0

end Torch

namespace Sampling

variable (t : Torch)

def topKFilter (topK : ℤ) (scaled : List Logit) : List Logit :=
  if topK > 0 ∧ topK < scaled.length then
    let threshold := ((t.sort scaled).take topK.toNat).getLastD .nan
    scaled.map fun l => if l.lt threshold then .negInf else l
  else scaled

/-- `cumulative_probs - softmax(sorted_logits) >= top_p`, which is false throughout for NaN. -/
def nucleusMask (topP : ℚ) (sorted : List Logit) : List Bool :=
  match t.softmax sorted with
  | none => sorted.map fun _ => false
  | some ps => (Torch.cumsum ps).zipWith (fun c p => decide (c - p ≥ topP)) ps

def topPFilter (topP : ℚ) (scaled : List Logit) : List Logit :=
  if topP < 1 then
    let sorted := t.sort scaled
    let masked := sorted.zipWith (fun l out => if out then .negInf else l) (nucleusMask t topP sorted)
    Torch.scatter (t.argsort scaled) masked
  else scaled

def temp (q : ScheduledRequest) : ℚ := max q.temperature (1 / 10000000)

/-- The distribution a token is drawn from, `none` for NaN. -/
def probs (q : ScheduledRequest) (lastLogits : List Logit) : Option (List ℚ) :=
  let scaled := lastLogits.map (t.div (temp q))
  t.softmax (topPFilter t q.topP (topKFilter t q.topK scaled))

/-- `temp < 0.01`. -/
def isGreedy (q : ScheduledRequest) : Bool := decide (temp q < 1 / 100)

theorem isGreedy_iff {q : ScheduledRequest} : isGreedy q = true ↔ q.temperature < 1 / 100 := by
  rw [isGreedy, temp, decide_eq_true_iff, max_lt_iff]
  exact and_iff_left (by norm_num)

/-- The token greedy decoding takes; `none` where `argmax` has nothing to choose from. -/
def greedyToken (q : ScheduledRequest) (lastLogits : List Logit) : Option ℕ :=
  Torch.argmax (probs t q lastLogits)

end Sampling

end ModelServing
