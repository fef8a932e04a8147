import ModelServing.Api.Streaming
import ModelServing.Engine.Filters

/-! What either sampler draws from. Both filter alike, so both keep the right set of tokens, and both
    keep nothing at all for a `top_p` of 0: every probability is then masked, the most likely one
    included, and what is left is NaN. -/

namespace ModelServing

open OrderStatistics Nucleus

namespace Sampling

/-- Token `i` can be drawn. -/
def Drawable (dist : Option (List ℚ)) (i : ℕ) : Prop := ∃ ps, dist = some ps ∧ 0 < ps.getD i 0

/-- Token `i` has the largest logit. -/
def Largest (xs : List ℚ) (i : ℕ) : Prop := ∃ x, xs[i]? = some x ∧ ∀ y ∈ xs, y ≤ x

/-- `logits / max(temperature, 1e-7)`. -/
def scaled (t : Torch) (temperature : ℚ) (xs : List ℚ) : List Logit :=
  (xs.map Logit.fin).map (t.div (max temperature (1 / 10000000)))

def afterTopK (t : Torch) (temperature : ℚ) (topK : ℤ) (xs : List ℚ) : List Logit :=
  topKFilter t topK (scaled t temperature xs)

def afterTopP (t : Torch) (temperature : ℚ) (topK : ℤ) (topP : ℚ) (xs : List ℚ) : List Logit :=
  topPFilter t topP (afterTopK t temperature topK xs)

/-- What sampling from the logits `xs` should do: `dist` is the distribution it draws from, `chosen`
    the token it returns. -/
structure RightSet (t : Torch) (temperature : ℚ) (topK : ℤ) (topP : ℚ) (xs : List ℚ)
    (dist : Option (List ℚ)) (chosen : Option ℕ) : Prop where
  threshold : ∃ v, kthLargest topK.toNat xs = some v ∧ afterTopK t temperature topK xs =
    xs.map fun x => if v ≤ x then .fin (x / max temperature (1 / 10000000)) else .negInf
  nucleus : ∃ ps c,
    let ls := afterTopK t temperature topK xs
    let order := t.argsort ls
    t.softmax ls = some ps ∧ Shortest topP (order.map fun i => ps.getD i 0) c ∧
      (∀ i ∈ order.take c, ∃ x, ls[i]? = some (.fin x)) ∧
      afterTopP t temperature topK topP xs =
        (List.range ls.length).map fun i => if i ∈ order.take c then ls.getD i .nan else .negInf
  scatter : ∀ i, Drawable dist i ↔ ∃ x, xs[i]? = some x ∧
    (afterTopP t temperature topK topP xs)[i]? = some (.fin (x / max temperature (1 / 10000000)))
  mostLikely : ∃ i, Drawable dist i ∧ Largest xs i
  upward : ∀ i j x y, Drawable dist i → xs[i]? = some x → xs[j]? = some y → x < y → Drawable dist j
  greedy : temperature < 1 / 100 → ∃ i, chosen = some i ∧ Largest xs i

variable {t : Torch} {temperature topP : ℚ} {topK : ℤ} {xs : List ℚ} {dist : Option (List ℚ)}
  {chosen : Option ℕ}

/-- Dividing by the temperature keeps the order. -/
theorem div_strictMono : StrictMono fun x : ℚ => x / max temperature (1 / 10000000) := by
  intro x y hxy
  exact div_lt_div_of_pos_right hxy (lt_max_of_lt_right (by norm_num))

theorem scaled_eq (hdiv : t.div = Logit.div) : scaled t temperature xs =
    (xs.map fun x => x / max temperature (1 / 10000000)).map .fin := by
  rw [scaled, hdiv, List.map_map, List.map_map]
  rfl

theorem afterTopK_eq (hdiv : t.div = Logit.div) (temperature : ℚ) (hk : 1 ≤ topK) (hxs : xs ≠ []) :
    ∃ v, kthLargest topK.toNat xs = some v ∧ afterTopK t temperature topK xs =
      xs.map fun x => if v ≤ x then .fin (x / max temperature (1 / 10000000)) else .negInf := by
  have hne : xs.map (fun x => x / max temperature (1 / 10000000)) ≠ [] := by simpa using hxs
  obtain ⟨v', hv', hfilter⟩ := topKFilter_spec (t := t) hk hne
  rw [kthLargest_map div_strictMono, Option.map_eq_some_iff] at hv'
  obtain ⟨v, hv, rfl⟩ := hv'
  refine ⟨v, hv, ?_⟩
  rw [afterTopK, scaled_eq hdiv, hfilter, List.map_map]
  refine List.map_congr_left fun x _ => ?_
  simp only [Function.comp_apply, div_strictMono.le_iff_le]

/-- A logit that top-k leaves is the token's own, divided by the temperature. -/
theorem afterTopK_fin {i : ℕ} {y : ℚ} (hdiv : t.div = Logit.div) (hk : 1 ≤ topK) (hxs : xs ≠ [])
    (h : (afterTopK t temperature topK xs)[i]? = some (.fin y)) :
    ∃ x, xs[i]? = some x ∧ y = x / max temperature (1 / 10000000) := by
  obtain ⟨v, -, heq⟩ := afterTopK_eq hdiv temperature hk hxs
  rw [heq, List.getElem?_map, Option.map_eq_some_iff] at h
  obtain ⟨x, hx, hfin⟩ := h
  split at hfin
  · cases hfin
    exact ⟨x, hx, rfl⟩
  · cases hfin

theorem afterTopK_clean (hdiv : t.div = Logit.div) (temperature : ℚ) (hk : 1 ≤ topK) (hxs : xs ≠ []) :
    Logit.Clean (afterTopK t temperature topK xs) := by
  obtain ⟨v, hv, heq⟩ := afterTopK_eq hdiv temperature hk hxs
  rw [heq]
  constructor
  · intro l hl
    obtain ⟨x, -, rfl⟩ := List.mem_map.mp hl
    split
    · exact Or.inr ⟨_, rfl⟩
    · exact Or.inl rfl
  · exact ⟨_, List.mem_map.mpr ⟨v, kthLargest_mem hv, if_pos le_rfl⟩⟩

/-- What is at least as large as a survivor of top-k survives it. -/
theorem afterTopK_upward {i j : ℕ} {x y : ℚ} (hdiv : t.div = Logit.div) (hk : 1 ≤ topK) (hxs : xs ≠ [])
    (h : (afterTopK t temperature topK xs)[i]? = some (.fin (x / max temperature (1 / 10000000))))
    (hx : xs[i]? = some x) (hy : xs[j]? = some y) (hle : x ≤ y) :
    (afterTopK t temperature topK xs)[j]? = some (.fin (y / max temperature (1 / 10000000))) := by
  obtain ⟨v, -, heq⟩ := afterTopK_eq hdiv temperature hk hxs
  rw [heq, List.getElem?_map, hx, Option.map_some, Option.some_inj] at h
  rw [heq, List.getElem?_map, hy, Option.map_some]
  split at h
  · rename_i hv
    rw [if_pos (hv.trans hle)]
  · cases h

theorem exists_largest (hxs : xs ≠ []) : ∃ i, Largest xs i := by
  obtain ⟨x, hx⟩ := Option.isSome_iff_exists.mp (List.isSome_max?_of_ne_nil hxs)
  obtain ⟨hmem, hmax⟩ := List.max?_eq_some_iff.mp hx
  obtain ⟨i, hi⟩ := List.mem_iff_getElem?.mp hmem
  exact ⟨i, x, hi, hmax⟩

/-- What can be drawn are the tokens that softmax gives a finite logit. -/
theorem drawable_softmax {ls : List Logit} {f : Logit → ℚ} {i : ℕ} (C : Logit.Clean ls)
    (N : Torch.Normalizes t f ls) :
    Drawable (t.softmax ls) i ↔ ∃ y, ls[i]? = some (.fin y) := by
  rw [Drawable, N.softmax ls (.refl ls)]
  rcases hi : ls[i]? with _ | l
  · simp [List.getD_eq_getElem?_getD, hi]
  · have hpos := N.preserving.pos_iff (C.cases l (List.mem_of_getElem? hi))
    simpa [List.getD_eq_getElem?_getD, hi] using hpos

/-- The survivors are drawn from, each with its own logit. -/
theorem drawable_iff {i : ℕ} {f : Logit → ℚ} (hk : 1 ≤ topK) (h₀ : 0 < topP) (h₁ : topP ≤ 1)
    (hxs : xs ≠ []) (hdiv : t.div = Logit.div) (hexp : StrictMono t.exp)
    (N : Torch.Normalizes t f (afterTopK t temperature topK xs)) :
    Drawable (t.softmax (afterTopP t temperature topK topP xs)) i ↔ ∃ x, xs[i]? = some x ∧
      (afterTopP t temperature topK topP xs)[i]? =
        some (.fin (x / max temperature (1 / 10000000))) := by
  have C := afterTopK_clean hdiv temperature hk hxs
  have C' := topPFilter_clean C N h₀ h₁
  obtain ⟨g, G⟩ := Torch.exists_normalizes hexp C'
  refine (drawable_softmax C' G).trans ⟨?_, ?_⟩
  · rintro ⟨y, hy⟩
    obtain ⟨x, hx, rfl⟩ := afterTopK_fin hdiv hk hxs ((topPFilter_fin_iff C N).mp hy).1
    exact ⟨x, hx, hy⟩
  · rintro ⟨x, -, hx⟩
    exact ⟨_, hx⟩

/-- The prefix that top-p keeps is the right one. -/
theorem nucleus_spec {f : Logit → ℚ} {ls : List Logit} (C : Logit.Clean ls)
    (N : Torch.Normalizes t f ls) (h₀ : 0 < topP) (h₁ : topP ≤ 1) :
    Shortest topP ((t.argsort ls).map fun i => (ls.map f).getD i 0) (cut t f topP ls) ∧
      ∀ i ∈ (t.argsort ls).take (cut t f topP ls), ∃ x, ls[i]? = some (.fin x) := by
  have hmasses : masses t f ls = (t.argsort ls).map fun i => (ls.map f).getD i 0 := by
    rw [masses, Torch.sort, List.map_map]
    refine List.map_congr_left fun i hi => ?_
    simp [Torch.mem_argsort.mp hi]
  have hw := masses_nonneg (t := t) C N.preserving
  have hne : masses t f ls ≠ [] := List.ne_nil_of_length_pos
    (length_masses (t := t) ▸ List.length_pos_of_ne_nil C.ne_nil)
  refine ⟨hmasses ▸ shortest_reach hw hne h₀ (sum_masses N ▸ h₁), fun i hi => ?_⟩
  obtain ⟨j, hj⟩ := List.mem_iff_getElem?.mp hi
  rw [List.getElem?_take] at hj
  split at hj
  · rename_i hlt
    exact fin_of_lt_cut C N h₁ hj hlt
  · cases hj

/-- `argmax` is the first of the largest. -/
theorem argmax_iff {ps : List ℚ} {i : ℕ} :
    Torch.argmax (some ps) = some i ↔ IsLeast {i | Largest ps i} i := by
  have hidx : ∀ {k}, k < ps.length → (List.range ps.length).idxOf k = k := by
    intro k hk
    have hself := List.nodup_range.idxOf_getElem k (by simpa using hk)
    rwa [List.getElem_range] at hself
  have hlargest : ∀ k, Largest ps k ↔ k < ps.length ∧ ∀ a < ps.length, ps.getD a 0 ≤ ps.getD k 0 := by
    intro k
    constructor
    · rintro ⟨x, hx, hmax⟩
      refine ⟨(List.getElem?_eq_some_iff.mp hx).1, fun a ha => ?_⟩
      simpa [List.getD_eq_getElem?_getD, hx, ha] using hmax _ (List.getElem_mem ha)
    · rintro ⟨hk, hmax⟩
      refine ⟨ps[k], List.getElem?_eq_getElem hk, fun y hy => ?_⟩
      obtain ⟨a, ha, rfl⟩ := List.mem_iff_getElem.mp hy
      simpa [List.getD_eq_getElem?_getD, hk, ha] using hmax a ha
  rw [Torch.argmax, List.argmax_eq_some_iff]
  simp only [List.mem_range]
  constructor
  · rintro ⟨hi, hmax, hfirst⟩
    refine ⟨(hlargest i).mpr ⟨hi, hmax⟩, fun k hk => ?_⟩
    obtain ⟨hk, hkmax⟩ := (hlargest k).mp hk
    have hle := hfirst k hk (hkmax i hi)
    rwa [hidx hi, hidx hk] at hle
  · rintro ⟨hi, hfirst⟩
    obtain ⟨hi, hmax⟩ := (hlargest i).mp hi
    refine ⟨hi, hmax, fun k hk hle => ?_⟩
    rw [hidx hi, hidx hk]
    exact hfirst ((hlargest k).mpr ⟨hk, fun a ha => (hmax a ha).trans hle⟩)

theorem exists_argmax {ps : List ℚ} (h : ps ≠ []) : ∃ i, Torch.argmax (some ps) = some i := by
  rw [Torch.argmax]
  refine Option.ne_none_iff_exists'.mp fun hnone => h ?_
  rw [List.argmax_eq_none, List.range_eq_nil] at hnone
  exact List.length_eq_zero_iff.mp hnone

/-- The most likely tokens are those with the largest logit of those that are left. -/
theorem largest_map_iff {f : Logit → ℚ} {ls : List Logit} {i : ℕ} (C : Logit.Clean ls)
    (N : Torch.Normalizes t f ls) : Largest (ls.map f) i ↔
      ∃ x, ls[i]? = some (Logit.fin x) ∧ ∀ (j : ℕ) y, ls[j]? = some (Logit.fin y) → y ≤ x := by
  constructor
  · rintro ⟨p, hp, hmax⟩
    rw [List.getElem?_map, Option.map_eq_some_iff] at hp
    obtain ⟨l, hl, rfl⟩ := hp
    obtain ⟨a, ha⟩ := C.some_fin
    have hpos := (N.preserving.pos a).trans_le (hmax _ (List.mem_map_of_mem ha))
    obtain ⟨x, rfl⟩ := (N.preserving.pos_iff (C.cases l (List.mem_of_getElem? hl))).mp hpos
    refine ⟨x, hl, fun j y hy => ?_⟩
    by_contra hxy
    have hle := hmax _ (List.mem_map_of_mem (List.mem_of_getElem? hy))
    exact absurd (N.preserving.lt x y (not_le.mp hxy)) (not_lt.mpr hle)
  · rintro ⟨x, hx, hmax⟩
    refine ⟨f (.fin x), by rw [List.getElem?_map, hx]; rfl, fun p hp => ?_⟩
    obtain ⟨l, hl, rfl⟩ := List.mem_map.mp hp
    rcases C.cases l hl with rfl | ⟨y, rfl⟩
    · exact N.preserving.negInf.trans_le (N.preserving.pos x).le
    · obtain ⟨j, hj⟩ := List.mem_iff_getElem?.mp hl
      rcases (hmax j y hj).lt_or_eq with hlt | rfl
      · exact (N.preserving.lt y x hlt).le
      · exact le_rfl

/-- Greedy decoding takes a token with the largest logit of those that are left. -/
theorem argmax_spec {f : Logit → ℚ} {ls : List Logit} (C : Logit.Clean ls)
    (N : Torch.Normalizes t f ls) : ∃ i x, Torch.argmax (t.softmax ls) = some i ∧
      ls[i]? = some (Logit.fin x) ∧ ∀ (j : ℕ) y, ls[j]? = some (Logit.fin y) → y ≤ x := by
  obtain ⟨i, hi⟩ := exists_argmax (by simpa using C.ne_nil : ls.map f ≠ [])
  obtain ⟨x, hx, hmax⟩ := (largest_map_iff C N).mp (argmax_iff.mp hi).1
  exact ⟨i, x, by rw [N.softmax ls (.refl ls), hi], hx, hmax⟩

/-- With a positive `top_p` the right set is kept. -/
theorem rightSet_of_pos (hdiv : t.div = Logit.div) (hexp : StrictMono t.exp) (hk : 1 ≤ topK)
    (h₀ : 0 < topP) (h₁ : topP ≤ 1) (hxs : xs ≠ [])
    (hdist : dist = t.softmax (afterTopP t temperature topK topP xs))
    (hchosen : temperature < 1 / 100 → chosen = Torch.argmax dist) :
    RightSet t temperature topK topP xs dist chosen := by
  have C := afterTopK_clean hdiv temperature hk hxs
  obtain ⟨f, N⟩ := Torch.exists_normalizes hexp C
  have C' := topPFilter_clean C N h₀ h₁
  obtain ⟨g, G⟩ := Torch.exists_normalizes hexp C'
  have hdraw : ∀ i, Drawable dist i ↔ _ := fun i => hdist ▸ drawable_iff hk h₀ h₁ hxs hdiv hexp N
  have hupward : ∀ i j x y, Drawable dist i → xs[i]? = some x → xs[j]? = some y → x < y →
      Drawable dist j := by
    intro i j x y hi hx hy hlt
    obtain ⟨x', hx', hkept⟩ := (hdraw i).mp hi
    obtain rfl : x' = x := Option.some.inj (hx'.symm.trans hx)
    obtain ⟨hi, hmem⟩ := (topPFilter_fin_iff C N).mp hkept
    have hj := afterTopK_upward hdiv hk hxs hi hx hy hlt.le
    refine (hdraw j).mpr ⟨y, hy, (topPFilter_fin_iff C N).mpr ⟨hj, ?_⟩⟩
    exact mem_take_of_lt hmem hi hj (div_strictMono hlt)
  have hlikely : ∃ i, Drawable dist i ∧ Largest xs i := by
    obtain ⟨y, hy⟩ := C'.some_fin
    obtain ⟨i, hi⟩ := List.mem_iff_getElem?.mp hy
    obtain ⟨x, hx, -⟩ := afterTopK_fin hdiv hk hxs ((topPFilter_fin_iff C N).mp hi).1
    have hdrawn : Drawable dist i := hdist ▸ (drawable_softmax C' G).mpr ⟨y, hi⟩
    obtain ⟨m, z, hz, hmax⟩ := exists_largest hxs
    rcases lt_or_ge x z with hlt | hge
    · exact ⟨m, hupward i m x z hdrawn hx hz hlt, z, hz, hmax⟩
    · exact ⟨i, hdrawn, x, hx, fun w hw => (hmax w hw).trans hge⟩
  refine ⟨afterTopK_eq hdiv temperature hk hxs, ?_, hdraw, hlikely, hupward, fun hcold => ?_⟩
  · obtain ⟨hshort, hfin⟩ := nucleus_spec C N h₀ h₁
    exact ⟨_, _, N.softmax _ (.refl _), hshort, hfin, topPFilter_eq C N⟩
  · obtain ⟨i, y, hi, hy, hbest⟩ := argmax_spec C' G
    obtain ⟨x, hx, rfl⟩ := afterTopK_fin hdiv hk hxs ((topPFilter_fin_iff C N).mp hy).1
    obtain ⟨m, hm, z, hz, hmax⟩ := hlikely
    obtain ⟨z', hz', hkept⟩ := (hdraw m).mp hm
    obtain rfl : z' = z := Option.some.inj (hz'.symm.trans hz)
    have hzx : z' ≤ x := div_strictMono.le_iff_le.mp (hbest m _ hkept)
    exact ⟨i, (hchosen hcold).trans (hdist ▸ hi), x, hx, fun w hw => (hmax w hw).trans hzx⟩

/-- Either sampler, whatever the temperature. -/
theorem rightSet_iff (hdiv : t.div = Logit.div) (hexp : StrictMono t.exp) (hk : 1 ≤ topK) (h₁ : topP ≤ 1)
    (hxs : xs ≠ []) (hdist : dist = t.softmax (afterTopP t temperature topK topP xs))
    (hchosen : temperature < 1 / 100 → chosen = Torch.argmax dist) :
    RightSet t temperature topK topP xs dist chosen ↔ 0 < topP := by
  refine ⟨fun R => ?_, fun h₀ => rightSet_of_pos hdiv hexp hk h₀ h₁ hxs hdist hchosen⟩
  by_contra hneg
  have C := afterTopK_clean hdiv temperature hk hxs
  obtain ⟨f, N⟩ := Torch.exists_normalizes hexp C
  obtain ⟨i, ⟨ps, hps, -⟩, -⟩ := R.mostLikely
  rw [hdist, afterTopP, softmax_topPFilter_zero C N (not_lt.mp hneg)] at hps
  cases hps

end Sampling

open Sampling

/-- With exact division a request to the batching engine keeps the right set, and so does a streamed one,
    exactly for a positive `top_p`. -/
theorem keeps_right_set_iff (env : Env) (hdiv : env.torch.div = Logit.div)
    (hexp : StrictMono env.torch.exp) (xs : List ℚ) (hxs : xs ≠ []) (calls : ℕ) :
    (∀ q : ScheduledRequest, 1 ≤ q.topK → 0 ≤ q.topP → q.topP ≤ 1 →
      (RightSet env.torch q.temperature q.topK q.topP xs (probs env.torch q (xs.map .fin))
        (Engine.sampleToken env q (some (xs.map .fin)) calls).1.toOption ↔ 0 < q.topP)) ∧
    ∀ request : Streaming.StreamRequest, 1 ≤ request.topK → 0 ≤ request.topP → request.topP ≤ 1 →
      (RightSet env.torch request.temperature request.topK request.topP xs
        (Streaming.probs env request (xs.map .fin))
        (Streaming.sample env request (xs.map .fin) calls).1 ↔ 0 < request.topP) := by
  refine ⟨fun q hk _ h₁ => ?_, fun request hk _ h₁ => ?_⟩
  · refine rightSet_iff hdiv hexp hk h₁ hxs rfl fun hcold => ?_
    rw [Engine.sampleToken, if_pos (isGreedy_iff.mpr hcold), greedyToken]
    cases Torch.argmax (probs env.torch q (xs.map .fin)) <;> rfl
  · refine rightSet_iff hdiv hexp hk h₁ hxs rfl fun hcold => ?_
    rw [Streaming.sample, if_pos hcold]

/-- A library whose exponential is strictly increasing, and three tokens. -/
theorem keeps_right_set_iff_three :
    let env := { Env.rowwise fun _ => [] with torch := Torch.rational }
    let request : Streaming.StreamRequest := { prompt := "p", topK := 2, topP := 1 / 2 }
    let logits := [0, 3, 1].map Logit.fin
    RightSet env.torch request.temperature request.topK request.topP [0, 3, 1]
      (Streaming.probs env request logits) (Streaming.sample env request logits 0).1 := by
  intro env request logits
  have hiff := (keeps_right_set_iff env rfl Torch.rational_strictMono [0, 3, 1] (by simp) 0).2 request
    (by decide) (by norm_num [request]) (by norm_num [request])
  exact hiff.mpr (by norm_num [request])

/-- With a `top_p` of 0 no token can be drawn, and greedy decoding takes the first one. -/
theorem not_keeps_right_set :
    let env := { Env.rowwise fun _ => [] with torch := Torch.rational }
    let q : ScheduledRequest := { requestId := "r", prompt := "p", temperature := 0, topP := 0, createdAt := 0 }
    let request : Streaming.StreamRequest := { prompt := "p", temperature := 0, topP := 0 }
    probs Torch.rational q [.fin 0, .fin 1] = none ∧
      (Engine.sampleToken env q (some [.fin 0, .fin 1]) 0).1.toOption = some 0 ∧
      Streaming.probs env request [.fin 0, .fin 1] = none ∧
      (Streaming.sample env request [.fin 0, .fin 1] 0).1 = some 0 ∧
      ¬ RightSet Torch.rational 0 50 0 [0, 1] (probs Torch.rational q [.fin 0, .fin 1])
        (Engine.sampleToken env q (some [.fin 0, .fin 1]) 0).1.toOption ∧
      ¬ RightSet Torch.rational 0 50 0 [0, 1] (Streaming.probs env request [.fin 0, .fin 1])
        (Streaming.sample env request [.fin 0, .fin 1] 0).1 := by
  intro env q request
  have hprobs : probs Torch.rational q [.fin 0, .fin 1] = none := by decide +kernel
  refine ⟨hprobs, by decide +kernel, hprobs, by decide +kernel, fun R => ?_, fun R => ?_⟩
  · obtain ⟨i, ⟨ps, hps, -⟩, -⟩ := R.mostLikely
    exact absurd (hprobs.symm.trans hps) (by simp)
  · obtain ⟨i, ⟨ps, hps, -⟩, -⟩ := R.mostLikely
    exact absurd (hprobs.symm.trans hps) (by simp)

end ModelServing
