import Mathlib

/-! Positions in a sorted list: how many entries lie on either side of the entry at a given index. -/

namespace OrderStatistics

variable {α β : Type*} [LinearOrder α] [LinearOrder β] {xs ys : List α} {i : ℕ} {v : α}

/-- Up to its index no entry is larger. -/
theorem succ_le_countP_le (hs : xs.Pairwise (· ≤ ·)) (hv : xs[i]? = some v) :
    i + 1 ≤ xs.countP (· ≤ v) := by
  obtain ⟨hi, rfl⟩ := List.getElem?_eq_some_iff.mp hv
  have hpre : (xs.take (i + 1)).countP (· ≤ xs[i]) = i + 1 := by
    rw [List.countP_eq_length.mpr, List.length_take_of_le hi]
    intro a ha
    obtain ⟨j, hj, rfl⟩ := List.mem_take_iff_getElem.mp ha
    exact decide_eq_true (hs.rel_get_of_le (a := ⟨j, by omega⟩) (b := ⟨i, hi⟩) (by
      change j ≤ i
      omega))
  exact hpre ▸ (List.take_sublist _ xs).countP_le

/-- From its index on no entry is smaller. -/
theorem length_sub_le_countP_ge (hs : xs.Pairwise (· ≤ ·)) (hv : xs[i]? = some v) :
    xs.length - i ≤ xs.countP (v ≤ ·) := by
  obtain ⟨hi, rfl⟩ := List.getElem?_eq_some_iff.mp hv
  have hpost : (xs.drop i).countP (xs[i] ≤ ·) = xs.length - i := by
    rw [List.countP_eq_length.mpr, List.length_drop]
    intro a ha
    obtain ⟨j, hj, rfl⟩ := List.mem_iff_getElem.mp ha
    rw [List.length_drop] at hj
    rw [List.getElem_drop]
    exact decide_eq_true (hs.rel_get_of_le (a := ⟨i, hi⟩) (b := ⟨i + j, by omega⟩) (by
      change i ≤ i + j
      omega))
  exact hpost ▸ (List.drop_sublist _ xs).countP_le

/-! ### Quantiles -/

/-- Of the entries a share of at least `p` is at most `v`, and one of at least `1 - p` at least `v`. -/
structure IsQuantile (p : ℚ) (xs : List α) (v : α) : Prop where
  mem : v ∈ xs
  below : p * xs.length ≤ xs.countP (· ≤ v)
  above : (1 - p) * xs.length ≤ xs.countP (v ≤ ·)

theorem floor_mul_lt {n : ℕ} {p : ℚ} (hn : 0 < n) (h₀ : 0 ≤ p) (h₁ : p < 1) : ⌊n * p⌋₊ < n := by
  have hpos : (0 : ℚ) < n := Nat.cast_pos.mpr hn
  rw [Nat.floor_lt (mul_nonneg hpos.le h₀)]
  exact (mul_lt_iff_lt_one_right hpos).mpr h₁

/-- In a sorted list of `n` entries the one at index `⌊n * p⌋` is a quantile. -/
theorem isQuantile_floor {p : ℚ} (h₀ : 0 ≤ p) (hp : ys.Perm xs) (hs : ys.Pairwise (· ≤ ·))
    (hv : ys[⌊xs.length * p⌋₊]? = some v) : IsQuantile p xs v := by
  have hnonneg : 0 ≤ (xs.length : ℚ) * p := mul_nonneg (Nat.cast_nonneg _) h₀
  constructor
  · exact hp.subset (List.mem_of_getElem? hv)
  · have hcount := hp.countP_eq _ ▸ succ_le_countP_le hs hv
    calc p * xs.length = xs.length * p := mul_comm ..
      _ ≤ (⌊xs.length * p⌋₊ : ℚ) + 1 := (Nat.lt_floor_add_one _).le
      _ ≤ xs.countP (· ≤ v) := by exact_mod_cast hcount
  · have hcount := hp.countP_eq _ ▸ length_sub_le_countP_ge hs hv
    rw [hp.length_eq, tsub_le_iff_right] at hcount
    have hcast : (xs.length : ℚ) ≤ xs.countP (v ≤ ·) + ⌊xs.length * p⌋₊ := by exact_mod_cast hcount
    linarith [Nat.floor_le hnonneg]

/-- A larger share has a larger quantile. -/
theorem getElem?_floor_mono {p q : ℚ} {w : α} (hpq : p ≤ q) (hs : ys.Pairwise (· ≤ ·))
    (hv : ys[⌊ys.length * p⌋₊]? = some v) (hw : ys[⌊ys.length * q⌋₊]? = some w) : v ≤ w := by
  obtain ⟨hi, rfl⟩ := List.getElem?_eq_some_iff.mp hv
  obtain ⟨hj, rfl⟩ := List.getElem?_eq_some_iff.mp hw
  exact hs.rel_get_of_le (a := ⟨_, hi⟩) (b := ⟨_, hj⟩)
    (Nat.floor_mono (mul_le_mul_of_nonneg_left hpq (Nat.cast_nonneg _)))

/-! ### The `k`-th largest -/

/-- The `k`-th largest entry, the smallest one where there are fewer. -/
def kthLargest (k : ℕ) (xs : List α) : Option α :=
  (xs.insertionSort (· ≥ ·))[min k xs.length - 1]?

theorem exists_kthLargest (k : ℕ) (h : xs ≠ []) : ∃ v, kthLargest k xs = some v := by
  have hlen := List.length_pos_of_ne_nil h
  exact ⟨_, List.getElem?_eq_getElem (by rw [List.length_insertionSort]; omega)⟩

theorem kthLargest_mem {k : ℕ} (hv : kthLargest k xs = some v) : v ∈ xs :=
  (List.mem_insertionSort (· ≥ ·)).mp (List.mem_of_getElem? hv)

/-- With no more than `k` entries it is the smallest one. -/
theorem kthLargest_le {k : ℕ} (hk : xs.length ≤ k) (hv : kthLargest k xs = some v) {x : α}
    (hx : x ∈ xs) : v ≤ x := by
  obtain ⟨hlast, rfl⟩ := List.getElem?_eq_some_iff.mp hv
  obtain ⟨j, hj, rfl⟩ := List.mem_iff_getElem.mp ((List.mem_insertionSort (· ≥ ·)).mpr hx)
  have hlen := List.length_insertionSort (· ≥ ·) xs
  exact (List.pairwise_insertionSort (· ≥ ·) xs).rel_get_of_le (a := ⟨j, hj⟩) (b := ⟨_, hlast⟩) (by
    change j ≤ min k xs.length - 1
    omega)

/-- A list in descending order is how its entries sort. -/
theorem insertionSort_eq_of_perm (hp : ys.Perm xs) (hs : ys.Pairwise (· ≥ ·)) :
    xs.insertionSort (· ≥ ·) = ys :=
  ((List.perm_insertionSort _ xs).trans hp.symm).eq_of_pairwise'
    (List.pairwise_insertionSort _ xs) hs

/-- The `k`-th largest entry moves along with the entries. -/
theorem kthLargest_map {f : α → β} (hf : StrictMono f) (k : ℕ) (xs : List α) :
    kthLargest k (xs.map f) = (kthLargest k xs).map f := by
  have hsort : (xs.map f).insertionSort (· ≥ ·) = (xs.insertionSort (· ≥ ·)).map f := by
    refine insertionSort_eq_of_perm ((List.perm_insertionSort _ xs).map f) ?_
    exact (List.pairwise_insertionSort (· ≥ ·) xs).map f fun a b h => hf.monotone h
  rw [kthLargest, kthLargest, hsort, List.getElem?_map, List.length_map]

end OrderStatistics
