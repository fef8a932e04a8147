import ModelServing.Engine.Sampling
import ModelServing.Lib.Nucleus
import ModelServing.Lib.OrderStatistics

/-! What the filters keep. Top-k compares with the `k`-th largest logit. Top-p keeps a prefix of the
    descending order and scatters it back. All that is used of the exponential is that it is strictly
    increasing: softmax is then one order-preserving map for all arrangements of the same logits. -/

namespace ModelServing

open OrderStatistics Nucleus

/-- An order-preserving map from logits to weights. -/
structure Logit.OrderPreserving (f : Logit → ℚ) : Prop where
  negInf : f .negInf = 0
  pos : ∀ x, 0 < f (.fin x)
  lt : ∀ x y, x < y → f (.fin x) < f (.fin y)

/-- Finite logits and `-inf`, not all of them `-inf`. -/
structure Logit.Clean (ls : List Logit) : Prop where
  cases : ∀ l ∈ ls, l = .negInf ∨ ∃ x, l = .fin x
  some_fin : ∃ x, Logit.fin x ∈ ls

namespace Logit

variable {f : Logit → ℚ} {ls ls' : List Logit}

theorem OrderPreserving.nonneg (F : OrderPreserving f) {l : Logit} (h : l = .negInf ∨ ∃ x, l = .fin x) :
    0 ≤ f l := by
  rcases h with rfl | ⟨x, rfl⟩
  · rw [F.negInf]
  · exact (F.pos x).le

theorem OrderPreserving.pos_iff (F : OrderPreserving f) {l : Logit}
    (h : l = .negInf ∨ ∃ x, l = .fin x) : 0 < f l ↔ ∃ x, l = .fin x := by
  rcases h with rfl | ⟨x, rfl⟩
  · simp [F.negInf]
  · simp [F.pos x]

/-- Softmax keeps the order that sorting uses. -/
theorem OrderPreserving.mono (F : OrderPreserving f) {a b : Logit}
    (ha : a = .negInf ∨ ∃ x, a = .fin x) (hb : b = .negInf ∨ ∃ x, b = .fin x) (h : a.le b) :
    f a ≤ f b := by
  rcases ha with rfl | ⟨x, rfl⟩
  · exact F.negInf ▸ F.nonneg hb
  · rcases hb with rfl | ⟨y, rfl⟩
    · cases h
    · have hxy : x ≤ y := not_lt.mp (of_decide_eq_false h)
      rcases hxy.lt_or_eq with hlt | rfl
      · exact (F.lt x y hlt).le
      · exact le_rfl

theorem Clean.ne_nil (C : Clean ls) : ls ≠ [] := by
  obtain ⟨x, hx⟩ := C.some_fin
  exact List.ne_nil_of_mem hx

theorem Clean.perm (C : Clean ls) (h : ls'.Perm ls) : Clean ls' where
  cases l hl := C.cases l (h.subset hl)
  some_fin := C.some_fin.imp fun _ hx => h.symm.subset hx

end Logit

namespace Torch

variable {t : Torch} {ls ls' : List Logit} {m x : ℚ}

/-! ### Softmax -/

theorem foldl_max_spec {xs : List ℚ} (h : xs ≠ []) :
    xs.foldl max (xs.headD 0) ∈ xs ∧ ∀ x ∈ xs, x ≤ xs.foldl max (xs.headD 0) := by
  cases xs with
  | nil => exact absurd rfl h
  | cons a as =>
    rw [List.headD_cons, List.foldl_cons, max_self]
    exact List.max?_eq_some_iff.mp List.max?_cons'

theorem foldl_max_filterMap {g : Logit → Option ℚ} (hg : ∀ l x, g l = some x ↔ l = .fin x)
    (h : ∃ x, Logit.fin x ∈ ls) :
    Logit.fin ((ls.filterMap g).foldl max ((ls.filterMap g).headD 0)) ∈ ls ∧
      ∀ x, Logit.fin x ∈ ls → x ≤ (ls.filterMap g).foldl max ((ls.filterMap g).headD 0) := by
  have hmem : ∀ x, x ∈ ls.filterMap g ↔ Logit.fin x ∈ ls := by
    intro x
    simp [List.mem_filterMap, hg]
  simp only [← hmem] at h ⊢
  obtain ⟨x, hx⟩ := h
  exact foldl_max_spec (List.ne_nil_of_mem hx)

theorem finiteMax_spec (h : ∃ x, Logit.fin x ∈ ls) :
    Logit.fin (finiteMax ls) ∈ ls ∧ ∀ x, Logit.fin x ∈ ls → x ≤ finiteMax ls :=
  foldl_max_filterMap (fun l x => by cases l <;> simp) h

/-- The maximum does not depend on the arrangement. -/
theorem finiteMax_perm (h : ∃ x, Logit.fin x ∈ ls) (hp : ls'.Perm ls) : finiteMax ls' = finiteMax ls := by
  obtain ⟨hmem, hle⟩ := finiteMax_spec h
  obtain ⟨hmem', hle'⟩ := finiteMax_spec (h.imp fun _ hx => hp.symm.subset hx)
  exact le_antisymm (hle _ (hp.subset hmem')) (hle' _ (hp.symm.subset hmem))

/-- The weight of a logit before normalization, with `m` subtracted. -/
def weight (t : Torch) (m : ℚ) : Logit → ℚ
  | .fin x => t.exp (x - m)
  | _ => 0

theorem length_softmax {ps : List ℚ} (h : t.softmax ls = some ps) : ps.length = ls.length := by
  rw [softmax] at h
  split at h
  · cases h
  · obtain rfl := Option.some.inj h
    simp

theorem softmax_eq (C : Logit.Clean ls) :
    t.softmax ls = some ((ls.map (weight t (finiteMax ls))).map
      (· / (ls.map (weight t (finiteMax ls))).sum)) := by
  rw [softmax, if_neg]
  · rfl
  · rintro (hnan | hinf | ⟨-, hall⟩)
    · simpa using C.cases _ hnan
    · simpa using C.cases _ hinf
    · obtain ⟨x, hx⟩ := C.some_fin
      cases hall _ hx

/-- Softmax fails on all other lists. -/
theorem softmax_eq_none_iff (h : ls ≠ []) : t.softmax ls = none ↔ ¬ Logit.Clean ls := by
  constructor
  · intro hnone C
    cases hnone.symm.trans (softmax_eq C)
  · intro hC
    rw [softmax, if_pos]
    by_contra hnot
    rw [not_or, not_or, not_and] at hnot
    obtain ⟨hnan, hinf, hall⟩ := hnot
    have hcases : ∀ l ∈ ls, l = .negInf ∨ ∃ x, l = .fin x := by
      intro l hl
      cases l with
      | negInf => exact Or.inl rfl
      | fin x => exact Or.inr ⟨x, rfl⟩
      | nan => exact absurd hl hnan
      | posInf => exact absurd hl hinf
    refine hall h fun l hl => (hcases l hl).resolve_right ?_
    rintro ⟨x, rfl⟩
    exact hC ⟨hcases, x, hl⟩

/-- `f` normalizes all arrangements of the logits `ls`. -/
structure Normalizes (t : Torch) (f : Logit → ℚ) (ls : List Logit) : Prop where
  preserving : Logit.OrderPreserving f
  sum_one : (ls.map f).sum = 1
  softmax : ∀ ls', ls'.Perm ls → t.softmax ls' = some (ls'.map f)

theorem exists_normalizes (hexp : StrictMono t.exp) (C : Logit.Clean ls) :
    ∃ f, Normalizes t f ls := by
  set m := finiteMax ls with hm
  set total := (ls.map (weight t m)).sum with htotal
  have hpos : ∀ x, 0 < t.exp x := fun x =>
    (t.exp_nonneg (x - 1)).trans_lt (hexp (sub_one_lt x))
  have hweight : ∀ l, 0 ≤ weight t m l := by
    rintro (_ | _ | x | _)
    · exact le_rfl
    · exact le_rfl
    · exact (hpos _).le
    · exact le_rfl
  have htotal₀ : 0 < total := by
    obtain ⟨x, hx⟩ := C.some_fin
    have hle := List.single_le_sum (by simpa using fun l _ => hweight l) _
      (List.mem_map_of_mem (f := weight t m) hx)
    exact (hpos (x - m)).trans_le hle
  refine ⟨fun l => weight t m l / total, ⟨by simp [weight], fun x => ?_, fun x y hxy => ?_⟩, ?_, ?_⟩
  · exact div_pos (hpos _) htotal₀
  · exact div_lt_div_of_pos_right (hexp (sub_lt_sub_right hxy m)) htotal₀
  · simp only [div_eq_mul_inv, List.sum_map_mul_right]
    exact mul_inv_cancel₀ htotal₀.ne'
  · intro ls' hp
    rw [softmax_eq (C.perm hp), finiteMax_perm C.some_fin hp, List.map_map,
      ((hp.map (weight t m)).sum_eq)]
    rfl

/-- What softmax divides by. -/
def total (t : Torch) (ls : List Logit) : ℚ := (ls.map (weight t (finiteMax ls))).sum

/-- The largest logit weighs one before normalization. -/
theorem Normalizes.largest {f : Logit → ℚ} (N : Normalizes t f ls) (C : Logit.Clean ls) :
    f (.fin (finiteMax ls)) = (total t ls)⁻¹ := by
  have heq := (N.softmax ls (.refl ls)).symm.trans (softmax_eq C)
  rw [Option.some_inj, List.map_map, List.map_inj_left] at heq
  rw [heq _ (finiteMax_spec C.some_fin).1, Function.comp_apply, weight, sub_self, t.exp_zero, total,
    one_div]

/-- The insertion-sorting library with a strictly increasing exponential. -/
def rational : Torch := { reference with
  exp := fun x => if 0 ≤ x then 1 + x else 1 / (1 - x)
  exp_nonneg := fun x => by
    split
    · positivity
    · exact div_nonneg zero_le_one (by linarith)
  exp_zero := by simp }

theorem rational_strictMono : StrictMono rational.exp := by
  intro x y hxy
  change (if 0 ≤ x then 1 + x else 1 / (1 - x)) < if 0 ≤ y then 1 + y else 1 / (1 - y)
  split_ifs with hx hy hy
  · exact add_lt_add_right hxy 1
  · exact absurd (hx.trans hxy.le) hy
  · exact ((div_lt_one (by linarith)).mpr (by linarith)).trans_le (by linarith)
  · exact one_div_lt_one_div_of_lt (by linarith) (by linarith)

/-! ### Sorting -/

theorem length_argsort : (t.argsort ls).length = ls.length := by
  rw [(t.argsort_perm ls).length_eq, List.length_range]

theorem mem_argsort {i : ℕ} : i ∈ t.argsort ls ↔ i < ls.length := by
  rw [(t.argsort_perm ls).mem_iff, List.mem_range]

theorem argsort_nodup : (t.argsort ls).Nodup :=
  (t.argsort_perm ls).nodup_iff.mpr List.nodup_range

theorem map_argsort_perm {α : Type*} {xs : List α} (h : xs.length = ls.length) (d : α) :
    ((t.argsort ls).map fun i => xs.getD i d).Perm xs := by
  have hmap : (List.range xs.length).map (fun i => xs.getD i d) = xs := by
    refine List.ext_getElem (by simp) fun i _ hi => ?_
    simp [hi]
  have hperm := (t.argsort_perm ls).map fun i => xs.getD i d
  rwa [← h, hmap] at hperm

theorem sort_perm : (t.sort ls).Perm ls := map_argsort_perm rfl _

theorem sort_descending : (t.sort ls).Pairwise fun a b => b.le a :=
  List.pairwise_map.mpr (t.argsort_descending ls)

/-- Finite logits sort like the numbers they are. -/
theorem sort_map_fin (xs : List ℚ) :
    t.sort (xs.map .fin) = (xs.insertionSort (· ≥ ·)).map .fin := by
  set order := t.argsort (xs.map .fin) with horder
  have hsort : t.sort (xs.map .fin) = (order.map fun i => xs.getD i 0).map .fin := by
    rw [sort, List.map_map]
    refine List.map_congr_left fun i hi => ?_
    have hlt : i < xs.length := by simpa [horder, mem_argsort] using hi
    simp [hlt]
  have hdesc : (t.sort (xs.map .fin)).Pairwise fun a b => b.le a := sort_descending
  rw [hsort, List.pairwise_map] at hdesc
  have hperm : (order.map fun i => xs.getD i 0).Perm xs := map_argsort_perm (by simp) 0
  rw [hsort, insertionSort_eq_of_perm hperm]
  exact hdesc.imp fun h => not_lt.mp (of_decide_eq_false h)

end Torch

namespace Sampling

variable {t : Torch} {topK : ℤ} {xs : List ℚ}

/-! ### Top-k -/

/-- What survives top-k. -/
theorem topKFilter_spec (hk : 1 ≤ topK) (hxs : xs ≠ []) :
    ∃ v, kthLargest topK.toNat xs = some v ∧
      topKFilter t topK (xs.map .fin) = xs.map fun x => if v ≤ x then .fin x else .negInf := by
  obtain ⟨v, hv⟩ := exists_kthLargest topK.toNat hxs
  refine ⟨v, hv, ?_⟩
  rw [topKFilter]
  split
  · rename_i hlt
    rw [List.length_map] at hlt
    have hthreshold : ((t.sort (xs.map .fin)).take topK.toNat).getLastD .nan = .fin v := by
      have hmin : min topK.toNat xs.length = topK.toNat := by omega
      rw [kthLargest, hmin] at hv
      rw [List.getLastD_eq_getLast?, List.getLast?_take, if_neg (by omega), Torch.sort_map_fin,
        List.getElem?_map, hv]
      rfl
    rw [hthreshold, List.map_map]
    refine List.map_congr_left fun x _ => ?_
    by_cases hx : v ≤ x <;> simp [Logit.lt, hx]
  · rename_i hge
    rw [List.length_map] at hge
    refine List.map_congr_left fun x hx => ?_
    rw [if_pos (kthLargest_le (by omega) hv hx)]

variable {ls : List Logit} {l : Logit} {i : ℕ}

/-- Top-k keeps what nothing exceeds. -/
theorem topKFilter_keeps (hk : 1 ≤ topK) (hl : ls[i]? = some l) (hmax : ∀ l' ∈ ls, l.lt l' = false) :
    (topKFilter t topK ls)[i]? = some l := by
  rw [topKFilter]
  split
  · have hne : (t.sort ls).take topK.toNat ≠ [] := by
      have hlen : (t.sort ls).length = ls.length := Torch.sort_perm.length_eq
      have hi := (List.getElem?_eq_some_iff.mp hl).1
      rw [← List.length_pos_iff, List.length_take]
      omega
    have hthreshold : ((t.sort ls).take topK.toNat).getLastD .nan ∈ ls := by
      rw [List.getLastD_eq_getLast?, List.getLast?_eq_some_getLast hne, Option.getD_some]
      exact Torch.sort_perm.subset (List.mem_of_mem_take (List.getLast_mem hne))
    rw [List.getElem?_map, hl, Option.map_some, hmax _ hthreshold]
    rfl
  · exact hl

/-- It changes nothing else than to mask. -/
theorem topKFilter_getElem? (h : (topKFilter t topK ls)[i]? = some l) (hl : l ≠ .negInf) :
    ls[i]? = some l := by
  rw [topKFilter] at h
  split at h
  · rw [List.getElem?_map, Option.map_eq_some_iff] at h
    obtain ⟨l', hl', heq⟩ := h
    split at heq
    · exact absurd heq.symm hl
    · exact heq ▸ hl'
  · exact h

theorem finiteMax_not_lt (C : Logit.Clean ls) : ∀ l ∈ ls, (Logit.fin (Torch.finiteMax ls)).lt l = false := by
  intro l hl
  rcases C.cases l hl with rfl | ⟨x, rfl⟩
  · rfl
  · exact decide_eq_false (not_lt.mpr ((Torch.finiteMax_spec C.some_fin).2 x hl))

theorem topKFilter_clean_iff (hk : 1 ≤ topK) : Logit.Clean (topKFilter t topK ls) ↔ Logit.Clean ls := by
  constructor
  · rintro ⟨hcases, x, hx⟩
    refine ⟨fun l hl => ?_, x, ?_⟩
    · obtain ⟨i, hi⟩ := List.mem_iff_getElem?.mp hl
      cases l with
      | negInf => exact Or.inl rfl
      | fin x => exact Or.inr ⟨x, rfl⟩
      | nan | posInf =>
        have hkept := topKFilter_keeps (t := t) hk hi fun l' _ => by cases l' <;> rfl
        exact hcases _ (List.mem_of_getElem? hkept)
    · obtain ⟨i, hi⟩ := List.mem_iff_getElem?.mp hx
      exact List.mem_of_getElem? (topKFilter_getElem? hi Logit.noConfusion)
  · intro C
    refine ⟨fun l hl => ?_, Torch.finiteMax ls, ?_⟩
    · by_cases hneg : l = .negInf
      · exact Or.inl hneg
      · obtain ⟨i, hi⟩ := List.mem_iff_getElem?.mp hl
        exact C.cases l (List.mem_of_getElem? (topKFilter_getElem? hi hneg))
    · obtain ⟨i, hi⟩ := List.mem_iff_getElem?.mp (Torch.finiteMax_spec C.some_fin).1
      exact List.mem_of_getElem? (topKFilter_keeps hk hi (finiteMax_not_lt C))

/-- The largest logit is the same before and after top-k, and in the same places. -/
theorem topKFilter_largest_iff (hk : 1 ≤ topK) (C : Logit.Clean ls) :
    (topKFilter t topK ls)[i]? = some (.fin (Torch.finiteMax (topKFilter t topK ls))) ↔
      ls[i]? = some (.fin (Torch.finiteMax ls)) := by
  have hsame : Torch.finiteMax (topKFilter t topK ls) = Torch.finiteMax ls := by
    obtain ⟨hmem, hle⟩ := Torch.finiteMax_spec C.some_fin
    obtain ⟨hmem', hle'⟩ := Torch.finiteMax_spec ((topKFilter_clean_iff (t := t) hk).mpr C).some_fin
    obtain ⟨i, hi⟩ := List.mem_iff_getElem?.mp hmem
    obtain ⟨j, hj⟩ := List.mem_iff_getElem?.mp hmem'
    exact le_antisymm (hle _ (List.mem_of_getElem? (topKFilter_getElem? hj Logit.noConfusion)))
      (hle' _ (List.mem_of_getElem? (topKFilter_keeps hk hi (finiteMax_not_lt C))))
  rw [hsame]
  exact ⟨fun h => topKFilter_getElem? h Logit.noConfusion,
    fun h => topKFilter_keeps hk h (finiteMax_not_lt C)⟩

end Sampling

namespace Torch

/-! ### Scattering -/

theorem foldl_set_of_notMem {ps : List (ℕ × Logit)} {out : List Logit} {i : ℕ}
    (h : i ∉ ps.map Prod.fst) : (ps.foldl (fun out p => out.set p.1 p.2) out)[i]? = out[i]? := by
  induction ps generalizing out with
  | nil => rfl
  | cons p ps ih =>
    rw [List.map_cons, List.mem_cons, not_or] at h
    rw [List.foldl_cons, ih h.2, List.getElem?_set_ne (Ne.symm h.1)]

theorem foldl_set_of_mem {ps : List (ℕ × Logit)} {out : List Logit} {p : ℕ × Logit}
    (hnd : (ps.map Prod.fst).Nodup) (hp : p ∈ ps) (hlt : p.1 < out.length) :
    (ps.foldl (fun out p => out.set p.1 p.2) out)[p.1]? = some p.2 := by
  induction ps generalizing out with
  | nil => cases hp
  | cons p' ps ih =>
    rw [List.map_cons, List.nodup_cons] at hnd
    rw [List.foldl_cons]
    rcases List.mem_cons.mp hp with rfl | hp
    · rw [foldl_set_of_notMem hnd.1, List.getElem?_set_self hlt]
    · exact ih hnd.2 hp (by rwa [List.length_set])

/-- Scattering puts every value at its index. -/
theorem scatter_getElem? {indices : List ℕ} {values : List Logit} (hnd : indices.Nodup)
    (hlen : indices.length = values.length) (hlt : ∀ i ∈ indices, i < values.length) {i j : ℕ}
    (hj : indices[j]? = some i) : (scatter indices values)[i]? = values[j]? := by
  obtain ⟨hi, rfl⟩ := List.getElem?_eq_some_iff.mp hj
  have hv : j < values.length := hlen ▸ hi
  have hmem : (indices[j], values[j]) ∈ indices.zip values := by
    rw [List.mem_iff_getElem]
    exact ⟨j, by rw [List.length_zip]; omega, List.getElem_zip⟩
  rw [List.getElem?_eq_getElem hv]
  refine foldl_set_of_mem ?_ hmem ?_
  · rwa [List.map_fst_zip hlen.le]
  · simpa using hlt _ (List.getElem_mem hi)

theorem length_foldl_set (ps : List (ℕ × Logit)) (out : List Logit) :
    (ps.foldl (fun out p => out.set p.1 p.2) out).length = out.length := by
  induction ps generalizing out with
  | nil => rfl
  | cons p ps ih => exact (ih _).trans List.length_set

theorem length_scatter {indices : List ℕ} {values : List Logit} :
    (scatter indices values).length = values.length := by
  rw [scatter, length_foldl_set, List.length_replicate]

end Torch

namespace Sampling

/-! ### Top-p -/

variable {t : Torch} {ls : List Logit} {f : Logit → ℚ} {topP : ℚ} {i j : ℕ}

/-- A position is masked when the probabilities before it reach `top_p`. -/
theorem nucleusMask_getElem? {sorted : List Logit} {ps : List ℚ} (hps : t.softmax sorted = some ps)
    (hw : ∀ p ∈ ps, 0 ≤ p) {j : ℕ} (hj : j < ps.length) :
    (nucleusMask t topP sorted)[j]? = some (decide (¬ j < reach topP ps)) := by
  have hc : (Torch.cumsum ps)[j]? = some (ps.take (j + 1)).sum := by simp [Torch.cumsum, hj]
  rw [nucleusMask, hps, List.getElem?_zipWith', hc, List.getElem?_eq_getElem hj, Option.map_some,
    Option.bind_some, Option.map_some, List.sum_take_succ _ _ hj, add_sub_cancel_right]
  exact congrArg some (decide_eq_decide.mpr (by rw [lt_reach_iff hw hj, not_lt]))

/-- The probabilities in descending order. -/
def masses (t : Torch) (f : Logit → ℚ) (ls : List Logit) : List ℚ := (t.sort ls).map f

/-- How many tokens nucleus sampling keeps. -/
def cut (t : Torch) (f : Logit → ℚ) (topP : ℚ) (ls : List Logit) : ℕ := reach topP (masses t f ls)

theorem length_masses : (masses t f ls).length = ls.length := by
  rw [masses, List.length_map, Torch.sort_perm.length_eq]

theorem masses_getElem? (hj : (t.argsort ls)[j]? = some i) :
    (masses t f ls)[j]? = some (f (ls.getD i .nan)) := by
  rw [masses, Torch.sort, List.map_map, List.getElem?_map, hj]
  rfl

theorem masses_nonneg (C : Logit.Clean ls) (F : Logit.OrderPreserving f) :
    ∀ p ∈ masses t f ls, 0 ≤ p := by
  intro p hp
  obtain ⟨l, hl, rfl⟩ := List.mem_map.mp hp
  exact F.nonneg (C.cases l (Torch.sort_perm.subset hl))

theorem masses_descending (C : Logit.Clean ls) (F : Logit.OrderPreserving f) :
    (masses t f ls).Pairwise (· ≥ ·) := by
  refine List.pairwise_map.mpr (Torch.sort_descending.imp_of_mem fun ha hb h => ?_)
  exact F.mono (C.cases _ (Torch.sort_perm.subset hb)) (C.cases _ (Torch.sort_perm.subset ha)) h

theorem sum_masses (N : Torch.Normalizes t f ls) : (masses t f ls).sum = 1 := by
  rw [masses, (Torch.sort_perm.map f).sum_eq, N.sum_one]

theorem length_masked (t : Torch) (topP : ℚ) (ls : List Logit) :
    ((t.sort ls).zipWith (fun l out => if out then Logit.negInf else l)
      (nucleusMask t topP (t.sort ls))).length = ls.length := by
  rw [List.length_zipWith, nucleusMask]
  cases hps : t.softmax (t.sort ls) with
  | none => simp [Torch.sort_perm.length_eq]
  | some ps => simp [Torch.cumsum, Torch.length_softmax hps, Torch.sort_perm.length_eq]

theorem length_topPFilter : (topPFilter t topP ls).length = ls.length := by
  rw [topPFilter]
  split
  · exact Torch.length_scatter.trans (length_masked t topP ls)
  · rfl

/-- What survives top-p, and where it is put. -/
theorem topPFilter_getElem? (C : Logit.Clean ls) (N : Torch.Normalizes t f ls)
    (hj : (t.argsort ls)[j]? = some i) :
    (topPFilter t topP ls)[i]? =
      some (if j < cut t f topP ls then ls.getD i .nan else .negInf) := by
  obtain ⟨hlt, hget⟩ := List.getElem?_eq_some_iff.mp hj
  have hi : i < ls.length := Torch.mem_argsort.mp (hget ▸ List.getElem_mem hlt)
  have hjlen : j < (masses t f ls).length := by rwa [length_masses, ← Torch.length_argsort]
  have hw := masses_nonneg (t := t) C N.preserving
  rw [topPFilter]
  split
  · have hps := N.softmax _ (Torch.sort_perm (t := t))
    have hsort : (t.sort ls)[j]? = some (ls.getD i .nan) := by
      rw [Torch.sort, List.getElem?_map, hj]
      rfl
    have hlen := length_masked t topP ls
    rw [Torch.scatter_getElem? Torch.argsort_nodup (Torch.length_argsort.trans hlen.symm)
        (fun i hi => hlen ▸ Torch.mem_argsort.mp hi) hj, List.getElem?_zipWith', hsort,
      nucleusMask_getElem? hps hw hjlen]
    change some (if decide (¬ j < cut t f topP ls) = true then .negInf else ls.getD i .nan) = _
    by_cases hcut : j < cut t f topP ls <;> simp [hcut]
  · rename_i hge
    have hself : ls[i]? = some (ls.getD i .nan) := by simp [hi]
    rw [hself]
    by_cases hcut : j < cut t f topP ls
    · rw [if_pos hcut]
    · -- beyond the cut nothing is left of the mass, so there are only masked tokens
      have hsum : (masses t f ls).sum ≤ ((masses t f ls).take j).sum := by
        rw [sum_masses N]
        exact (not_lt.mp hge).trans (not_lt.mp (mt (lt_reach_iff hw hjlen).mpr hcut))
      have hzero := eq_zero_of_sum_le hw (masses_getElem? hj) hsum
      rw [if_neg hcut]
      rcases C.cases _ (List.mem_of_getElem? hself) with hneg | ⟨x, hx⟩
      · rw [hneg]
      · rw [hx] at hzero
        exact absurd hzero (N.preserving.pos x).ne'

/-- Nothing that top-k has masked is kept. -/
theorem fin_of_lt_cut (C : Logit.Clean ls) (N : Torch.Normalizes t f ls) (h₁ : topP ≤ 1)
    (hj : (t.argsort ls)[j]? = some i) (hcut : j < cut t f topP ls) : ∃ x, ls[i]? = some (.fin x) := by
  have hw := masses_nonneg (t := t) C N.preserving
  have hshort : ((masses t f ls).take j).sum < (masses t f ls).sum := by
    rw [sum_masses N]
    exact (sum_take_lt hw hcut).trans_le h₁
  have hpos := pos_of_sum_take_lt hw (masses_descending C N.preserving) (masses_getElem? hj) hshort
  have hself : ls[i]? = some (ls.getD i .nan) := by
    have hi := Torch.mem_argsort.mp (List.mem_of_getElem? hj)
    simp [hi]
  obtain ⟨x, hx⟩ := (N.preserving.pos_iff (C.cases _ (List.mem_of_getElem? hself))).mp hpos
  exact ⟨x, hself.trans (congrArg some hx)⟩

/-- How many of the tokens with the largest logit are kept. -/
theorem lt_cut_iff (C : Logit.Clean ls) (N : Torch.Normalizes t f ls)
    (hj : (t.argsort ls)[j]? = some i) (hi : ls[i]? = some (.fin (Torch.finiteMax ls))) :
    j < cut t f topP ls ↔ (j : ℚ) < topP * Torch.total t ls := by
  have hw := masses_nonneg (t := t) C N.preserving
  have hlt := (List.getElem?_eq_some_iff.mp hj).1
  have hjlen : j < (masses t f ls).length := by rwa [length_masses, ← Torch.length_argsort]
  have hmax : (masses t f ls)[j]? = some (Torch.total t ls)⁻¹ := by
    rw [masses_getElem? hj, List.getD_eq_getElem?_getD, hi, Option.getD_some, N.largest C]
  -- all that stands before it is as large
  have hsame : ∀ p ∈ (masses t f ls).take j, p = (Torch.total t ls)⁻¹ := by
    intro p hp
    refine le_antisymm ?_ ?_
    · obtain ⟨l, hl, rfl⟩ := List.mem_map.mp (List.mem_of_mem_take hp)
      have hmem := Torch.sort_perm.subset hl
      rw [← N.largest C]
      rcases C.cases l hmem with rfl | ⟨x, rfl⟩
      · exact N.preserving.negInf.trans_le (N.preserving.pos _).le
      · rcases ((Torch.finiteMax_spec C.some_fin).2 x hmem).lt_or_eq with hx | rfl
        · exact (N.preserving.lt _ _ hx).le
        · exact le_rfl
    · obtain ⟨k, hk, rfl⟩ := List.mem_iff_getElem.mp hp
      rw [List.length_take] at hk
      obtain ⟨hj', hget⟩ := List.getElem?_eq_some_iff.mp hmax
      rw [← hget, List.getElem_take]
      exact List.pairwise_iff_getElem.mp (masses_descending C N.preserving) k j _ hj' (by omega)
  have hpos : 0 < Torch.total t ls := inv_pos.mp (N.largest C ▸ N.preserving.pos _)
  rw [cut, lt_reach_iff hw hjlen, List.sum_eq_card_nsmul _ _ hsame, List.length_take,
    min_eq_left hjlen.le, nsmul_eq_mul, ← div_eq_mul_inv, div_lt_iff₀ hpos]

/-- Every token has one place in the descending order. -/
theorem exists_rank (hi : i < ls.length) : ∃ j : ℕ, (t.argsort ls)[j]? = some i :=
  List.mem_iff_getElem?.mp (Torch.mem_argsort.mpr hi)

theorem mem_take_argsort {c : ℕ} (hj : (t.argsort ls)[j]? = some i) :
    i ∈ (t.argsort ls).take c ↔ j < c := by
  constructor
  · intro hmem
    obtain ⟨j', hj'⟩ := List.mem_iff_getElem?.mp hmem
    rw [List.getElem?_take] at hj'
    split at hj'
    · rename_i hlt
      have hlen := (List.getElem?_eq_some_iff.mp hj').1
      rwa [← (List.getElem?_inj hlen Torch.argsort_nodup).mp (hj'.trans hj.symm)]
    · cases hj'
  · intro hlt
    exact List.mem_of_getElem? ((List.getElem?_take_of_lt hlt).trans hj)

/-- Top-p as a whole: it masks all but a prefix of the descending order. -/
theorem topPFilter_eq (C : Logit.Clean ls) (N : Torch.Normalizes t f ls) :
    topPFilter t topP ls = (List.range ls.length).map fun i =>
      if i ∈ (t.argsort ls).take (cut t f topP ls) then ls.getD i .nan else .negInf := by
  refine List.ext_getElem? fun i => ?_
  rcases Nat.lt_or_ge i ls.length with hi | hi
  · obtain ⟨j, hj⟩ := exists_rank (t := t) hi
    simp only [topPFilter_getElem? C N hj, List.getElem?_map, List.getElem?_range hi, Option.map_some,
      mem_take_argsort hj]
  · rw [List.getElem?_eq_none (by rwa [length_topPFilter]), List.getElem?_eq_none (by simpa using hi)]

/-- A survivor keeps its own logit. -/
theorem topPFilter_fin_iff (C : Logit.Clean ls) (N : Torch.Normalizes t f ls) {x : ℚ} :
    (topPFilter t topP ls)[i]? = some (.fin x) ↔
      ls[i]? = some (.fin x) ∧ i ∈ (t.argsort ls).take (cut t f topP ls) := by
  rcases Nat.lt_or_ge i ls.length with hi | hi
  · rw [topPFilter_eq C N, List.getElem?_map, List.getElem?_range hi, Option.map_some]
    have hself : ls[i]? = some (ls.getD i .nan) := by simp [hi]
    split
    · rename_i hmem
      rw [hself, and_iff_left hmem]
    · rename_i hmem
      simp [hmem]
  · simp [length_topPFilter, hi]

/-- A token that is more likely than a survivor survives. -/
theorem mem_take_of_lt {x y : ℚ} (hi : i ∈ (t.argsort ls).take (cut t f topP ls))
    (hx : ls[i]? = some (.fin x)) (hy : ls[j]? = some (.fin y)) (hlt : x < y) :
    j ∈ (t.argsort ls).take (cut t f topP ls) := by
  obtain ⟨a, ha⟩ := exists_rank (t := t) (List.getElem?_eq_some_iff.mp hx).1
  obtain ⟨b, hb⟩ := exists_rank (t := t) (List.getElem?_eq_some_iff.mp hy).1
  rw [mem_take_argsort ha] at hi
  rw [mem_take_argsort hb]
  by_contra hnot
  -- otherwise `j` stands behind `i` in the descending order
  obtain ⟨ha', rfl⟩ := List.getElem?_eq_some_iff.mp ha
  obtain ⟨hb', rfl⟩ := List.getElem?_eq_some_iff.mp hb
  have hle := List.pairwise_iff_getElem.mp (t.argsort_descending ls) a b ha' hb' (by omega)
  rw [List.getD_eq_getElem?_getD, List.getD_eq_getElem?_getD, hx, hy] at hle
  exact absurd hlt (not_lt.mpr (not_lt.mp (of_decide_eq_false hle)))

/-- With a positive `top_p` something survives. -/
theorem topPFilter_clean (C : Logit.Clean ls) (N : Torch.Normalizes t f ls) (h₀ : 0 < topP)
    (h₁ : topP ≤ 1) : Logit.Clean (topPFilter t topP ls) := by
  constructor
  · intro l hl
    rw [topPFilter_eq C N] at hl
    obtain ⟨i, hi, rfl⟩ := List.mem_map.mp hl
    have hself : ls[i]? = some (ls.getD i .nan) := by simp [List.mem_range.mp hi]
    split
    · exact C.cases _ (List.mem_of_getElem? hself)
    · exact Or.inl rfl
  · have hne : masses t f ls ≠ [] := List.ne_nil_of_length_pos
      (length_masses (t := t) ▸ List.length_pos_of_ne_nil C.ne_nil)
    have hcut : 0 < cut t f topP ls :=
      Nat.pos_of_ne_zero (mt (reach_eq_zero_iff hne).mp (not_le.mpr h₀))
    have hlen : 0 < (t.argsort ls).length :=
      Torch.length_argsort ▸ List.length_pos_of_ne_nil C.ne_nil
    have hj := List.getElem?_eq_getElem hlen
    obtain ⟨x, hx⟩ := fin_of_lt_cut C N h₁ hj hcut
    have hmem := (mem_take_argsort hj).mpr hcut
    exact ⟨x, List.mem_of_getElem? ((topPFilter_fin_iff C N).mpr ⟨hx, hmem⟩)⟩

/-- With a `top_p` of 0 nothing does. -/
theorem softmax_topPFilter_zero (C : Logit.Clean ls) (N : Torch.Normalizes t f ls) (h₀ : topP ≤ 0) :
    t.softmax (topPFilter t topP ls) = none := by
  have hcut : cut t f topP ls = 0 :=
    (reach_eq_zero_iff (List.ne_nil_of_length_pos
      (length_masses (t := t) ▸ List.length_pos_of_ne_nil C.ne_nil))).mpr h₀
  have hne : topPFilter t topP ls ≠ [] := by
    rw [← List.length_pos_iff, length_topPFilter]
    exact List.length_pos_of_ne_nil C.ne_nil
  refine if_pos (Or.inr (Or.inr ⟨hne, fun l hl => ?_⟩))
  rw [topPFilter_eq C N, hcut] at hl
  obtain ⟨i, -, rfl⟩ := List.mem_map.mp hl
  simp

/-- Logits that softmax fails on are left as they are. -/
theorem topPFilter_of_not_clean (hne : ls ≠ []) (hC : ¬ Logit.Clean ls) : topPFilter t topP ls = ls := by
  rw [topPFilter]
  split
  · have hlen : (t.sort ls).length = ls.length := Torch.sort_perm.length_eq
    have hsort : t.sort ls ≠ [] := by
      rw [← List.length_pos_iff, hlen]
      exact List.length_pos_of_ne_nil hne
    have hnone : t.softmax (t.sort ls) = none :=
      (Torch.softmax_eq_none_iff hsort).mpr fun C => hC (C.perm Torch.sort_perm.symm)
    have hmask : (t.sort ls).zipWith (fun l out => if out then Logit.negInf else l)
        (nucleusMask t topP (t.sort ls)) = t.sort ls := by
      rw [nucleusMask, hnone, List.zipWith_map_right, List.zipWith_self]
      exact List.map_id _
    simp only [hmask]
    refine List.ext_getElem? fun i => ?_
    rcases Nat.lt_or_ge i ls.length with hi | hi
    · obtain ⟨j, hj⟩ := exists_rank (t := t) hi
      rw [Torch.scatter_getElem? Torch.argsort_nodup (Torch.length_argsort.trans hlen.symm)
        (fun i hi => hlen ▸ Torch.mem_argsort.mp hi) hj, Torch.sort, List.getElem?_map, hj]
      simp [hi]
    · rw [List.getElem?_eq_none (by rw [Torch.length_scatter]; omega), List.getElem?_eq_none hi]
  · rfl

/-! ### A token for every row -/

theorem length_topKFilter (t : Torch) (topK : ℤ) (ls : List Logit) :
    (topKFilter t topK ls).length = ls.length := by
  rw [topKFilter]
  split
  · exact List.length_map _
  · rfl

/-- Greedy decoding takes a token wherever there is a logit. -/
theorem greedyToken_ne_none {q : ScheduledRequest} (h : ls ≠ []) : greedyToken t q ls ≠ none := by
  rw [greedyToken]
  cases hps : probs t q ls with
  | none => exact Option.some_ne_none 0
  | some ps =>
    have hlen := Torch.length_softmax hps
    rw [length_topPFilter, length_topKFilter, List.length_map] at hlen
    intro hnone
    rw [Torch.argmax, List.argmax_eq_none, List.range_eq_nil, hlen] at hnone
    exact h (List.length_eq_zero_iff.mp hnone)

end Sampling

end ModelServing
