import Mathlib

/-! The shortest prefix of a list of weights that reaches a given mass, and the same read off the sums
    of what comes before each weight: a position belongs to it as long as the sum before it falls
    short. Weights are non-negative; nothing is assumed about their order. -/

namespace Nucleus

variable {α : Type*} [AddCommGroup α] [LinearOrder α] [IsOrderedAddMonoid α]

/-- How many weights it takes, from the front, to reach `p`; all of them where they fall short. -/
def reach : α → List α → ℕ
  | _, [] => 0
  | p, w :: ws => if p ≤ 0 then 0 else reach (p - w) ws + 1

variable {p : α} {ws : List α}

omit [IsOrderedAddMonoid α] in
theorem reach_eq_zero_iff (h : ws ≠ []) : reach p ws = 0 ↔ p ≤ 0 := by
  cases ws with
  | nil => exact absurd rfl h
  | cons w ws => simp [reach]

omit [IsOrderedAddMonoid α] in
theorem reach_le_length (p : α) (ws : List α) : reach p ws ≤ ws.length := by
  induction ws generalizing p with
  | nil => simp [reach]
  | cons w ws ih =>
    rw [reach]
    split
    · exact Nat.zero_le _
    · exact Nat.succ_le_succ (ih _)

theorem sum_take_nonneg (hw : ∀ w ∈ ws, 0 ≤ w) (i : ℕ) : 0 ≤ (ws.take i).sum :=
  List.sum_nonneg fun w hm => hw w (List.mem_of_mem_take hm)

/-- A position belongs to the prefix exactly when the weights before it fall short. -/
theorem lt_reach_iff (hw : ∀ w ∈ ws, 0 ≤ w) {i : ℕ} (hi : i < ws.length) :
    i < reach p ws ↔ (ws.take i).sum < p := by
  induction ws generalizing p i with
  | nil => cases hi
  | cons w ws ih =>
    obtain ⟨hw₀, hws⟩ := List.forall_mem_cons.mp hw
    rw [reach]
    cases i with
    | zero =>
      rw [List.take_zero, List.sum_nil]
      split
      · rename_i hp
        exact iff_of_false (Nat.lt_irrefl _) (not_lt.mpr hp)
      · rename_i hp
        exact iff_of_true (Nat.succ_pos _) (not_le.mp hp)
    | succ i =>
      have hrest := ih (p := p - w) hws (Nat.lt_of_succ_lt_succ hi)
      rw [List.take_succ_cons, List.sum_cons]
      split
      · rename_i hp
        have hnonneg := add_nonneg hw₀ (sum_take_nonneg hws i)
        exact iff_of_false (Nat.not_lt_zero _) (not_lt.mpr (hp.trans hnonneg))
      · rw [Nat.succ_lt_succ_iff, hrest, lt_sub_iff_add_lt, add_comm]

/-- No shorter prefix reaches the mass. -/
theorem sum_take_lt (hw : ∀ w ∈ ws, 0 ≤ w) {i : ℕ} (hi : i < reach p ws) : (ws.take i).sum < p :=
  (lt_reach_iff hw (hi.trans_le (reach_le_length p ws))).mp hi

/-- The prefix reaches the mass, if all the weights together do. -/
theorem le_sum_reach (hw : ∀ w ∈ ws, 0 ≤ w) (hp : p ≤ ws.sum) : p ≤ (ws.take (reach p ws)).sum := by
  rcases (reach_le_length p ws).lt_or_eq with hlt | heq
  · exact not_lt.mp fun h => Nat.lt_irrefl _ ((lt_reach_iff hw hlt).mpr h)
  · rwa [heq, List.take_length]

/-- The shortest non-empty prefix that reaches the mass has `c` weights. -/
structure Shortest (p : α) (ws : List α) (c : ℕ) : Prop where
  pos : 0 < c
  le_length : c ≤ ws.length
  reaches : p ≤ (ws.take c).sum
  least : ∀ i, 0 < i → i < c → (ws.take i).sum < p

theorem shortest_reach (hw : ∀ w ∈ ws, 0 ≤ w) (hne : ws ≠ []) (hp : 0 < p) (hsum : p ≤ ws.sum) :
    Shortest p ws (reach p ws) where
  pos := Nat.pos_of_ne_zero (mt (reach_eq_zero_iff hne).mp (not_le.mpr hp))
  le_length := reach_le_length p ws
  reaches := le_sum_reach hw hsum
  least _ _ hi := sum_take_lt hw hi

/-- What lies beyond a prefix that reaches the whole sum weighs nothing. -/
theorem eq_zero_of_sum_le (hw : ∀ w ∈ ws, 0 ≤ w) {i : ℕ} {w : α} (hi : ws[i]? = some w)
    (hsum : ws.sum ≤ (ws.take i).sum) : w = 0 := by
  obtain ⟨hlt, rfl⟩ := List.getElem?_eq_some_iff.mp hi
  have hrest : 0 ≤ (ws.drop (i + 1)).sum :=
    List.sum_nonneg fun w hm => hw w (List.mem_of_mem_drop hm)
  have hsplit : ws.sum = (ws.take i).sum + (ws[i] + (ws.drop (i + 1)).sum) := by
    rw [← List.sum_cons, List.getElem_cons_drop, List.sum_take_add_sum_drop]
  have hle : ws[i] + (ws.drop (i + 1)).sum ≤ 0 := by
    rw [hsplit] at hsum
    exact (add_le_iff_nonpos_right _).mp hsum
  exact le_antisymm ((le_add_of_nonneg_right hrest).trans hle) (hw _ (List.getElem_mem hlt))

/-- In descending order every weight of a prefix that falls short of the whole sum is positive. -/
theorem pos_of_sum_take_lt (hw : ∀ w ∈ ws, 0 ≤ w) (hs : ws.Pairwise (· ≥ ·)) {i : ℕ} {w : α}
    (hi : ws[i]? = some w) (hlt : (ws.take i).sum < ws.sum) : 0 < w := by
  obtain ⟨hlen, rfl⟩ := List.getElem?_eq_some_iff.mp hi
  refine (hw _ (List.getElem_mem hlen)).lt_of_ne fun h₀ => ?_
  have hrest : ∀ w ∈ ws.drop i, w ≤ 0 := by
    intro w hm
    obtain ⟨j, hj, rfl⟩ := List.mem_iff_getElem.mp hm
    rw [List.length_drop] at hj
    rw [List.getElem_drop, h₀]
    exact hs.rel_get_of_le (a := ⟨i, hlen⟩) (b := ⟨i + j, by omega⟩) (by
      change i ≤ i + j
      omega)
  have hsum : (ws.drop i).sum ≤ 0 := by simpa using List.sum_le_card_nsmul _ _ hrest
  rw [← List.sum_take_add_sum_drop ws i] at hlt
  exact absurd hsum (not_le.mpr ((lt_add_iff_pos_right _).mp hlt))

end Nucleus
