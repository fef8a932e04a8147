import Mathlib

/-! Cutting `n` items into chunks of at most `b`: every chunk but the last is full, and `n ⌈/⌉ b`
    chunks are needed. The two facts a paged allocator lives on are the recursion that peels off one
    full chunk and the law for growing: `m` more items first top up the last chunk, then open new
    ones exactly as a fresh cut of what is left over. -/

namespace Chunks

/-- The sizes of the chunks, in order. -/
def chunks (b n : ℕ) : List ℕ := (List.range (n ⌈/⌉ b)).map fun j => min (n - j * b) b

@[simp] theorem length_chunks (b n : ℕ) : (chunks b n).length = n ⌈/⌉ b := by simp [chunks]

theorem chunks_zero (b : ℕ) : chunks b 0 = [] := by
  simp [chunks]

variable {b : ℕ}

theorem ceilDiv_eq (b n : ℕ) : n ⌈/⌉ b = (n + b - 1) / b := Nat.ceilDiv_eq_add_pred_div n b

theorem ceilDiv_of_pos (hb : 0 < b) {n : ℕ} (hn : 0 < n) : n ⌈/⌉ b = (n - b) ⌈/⌉ b + 1 := by
  rw [ceilDiv_eq, ceilDiv_eq]
  rcases Nat.le_total n b with h | h
  · have h1 : (n + b - 1) / b = 1 := by
      rw [Nat.div_eq_iff hb]; omega
    have h0 : (n - b + b - 1) / b = 0 := Nat.div_eq_of_lt (by omega)
    rw [h1, h0]
  · have : n + b - 1 = n - b + b - 1 + b := by omega
    rw [this, Nat.add_div_right _ hb]

/-- The first chunk takes what it can hold, the rest is a cut of what is left. -/
theorem chunks_of_pos (hb : 0 < b) {n : ℕ} (hn : 0 < n) :
    chunks b n = min n b :: chunks b (n - b) := by
  rw [chunks, ceilDiv_of_pos hb hn, List.range_succ_eq_map, List.map_cons, List.map_map]
  congr 1
  · simp
  · apply List.map_congr_left
    intro j _
    simp only [Function.comp_apply, Nat.succ_eq_add_one]
    congr 1
    rw [Nat.add_mul, one_mul]; omega

/-- A chunk opened is a chunk used: index `j` exists only while items are left for it. -/
theorem mul_lt_of_lt_ceilDiv (hb : 0 < b) {n j : ℕ} (hj : j < n ⌈/⌉ b) : j * b < n := by
  rw [ceilDiv_eq] at hj
  have := (Nat.le_div_iff_mul_le hb).mp (Nat.succ_le_of_lt hj)
  rw [Nat.succ_mul] at this
  omega

theorem le_ceilDiv_mul (hb : 0 < b) (n : ℕ) : n ≤ n ⌈/⌉ b * b := by
  have := Nat.div_add_mod (n + b - 1) b
  have hm := Nat.mod_lt (n + b - 1) hb
  rw [ceilDiv_eq, Nat.mul_comm]
  omega

theorem chunks_eq_nil_iff (hb : 0 < b) {n : ℕ} : chunks b n = [] ↔ n = 0 := by
  constructor
  · intro h
    by_contra hn
    simp [chunks_of_pos hb (Nat.pos_of_ne_zero hn)] at h
  · rintro rfl; exact chunks_zero b

/-- Growing law: the last chunk is topped up first, then new chunks are opened for the rest. -/
theorem chunks_add (hb : 0 < b) (m : ℕ) : ∀ (n : ℕ) {init : List ℕ} {l : ℕ},
    chunks b n = init ++ [l] →
    chunks b (n + m) = init ++ (l + min (b - l) m) :: chunks b (m - min (b - l) m) := by
  intro n
  induction n using Nat.strong_induction_on with
  | _ n ih =>
    intro init l h
    have hn : 0 < n := by
      rcases Nat.eq_zero_or_pos n with rfl | hn
      · simp [chunks_zero] at h
      · exact hn
    rw [chunks_of_pos hb hn] at h
    rw [chunks_of_pos hb (by omega : 0 < n + m)]
    rcases Nat.lt_or_ge b n with hbn | hnb
    · -- a full chunk in front: peel it off both sides
      have hne : chunks b (n - b) ≠ [] := fun h0 => by
        have := (chunks_eq_nil_iff hb).mp h0; omega
      obtain ⟨c, cs, hcs⟩ := List.exists_cons_of_ne_nil hne
      cases init with
      | nil => rw [hcs] at h; simp at h
      | cons i init =>
        obtain ⟨hi, ht⟩ := List.cons.inj h
        have hrec := ih (n - b) (by omega) ht
        rw [List.cons_append, ← hi, show n + m - b = n - b + m by omega, hrec]
        simp only [List.cons.injEq, and_true]
        omega
    · -- the only chunk is the last one
      rw [show n - b = 0 by omega, chunks_zero] at h
      have hlen := congrArg List.length h
      simp only [List.length_cons, List.length_nil, List.length_append] at hlen
      obtain rfl : init = [] := List.eq_nil_of_length_eq_zero (by omega)
      simp only [List.nil_append, List.cons.injEq, and_true] at h
      have hl : l = n := by omega
      subst hl
      rw [List.nil_append]
      congr 1
      · omega
      · congr 1; omega

/-- The number of chunks grows by what the leftover needs. -/
theorem ceilDiv_add (hb : 0 < b) (m : ℕ) {n : ℕ} {init : List ℕ} {l : ℕ}
    (h : chunks b n = init ++ [l]) :
    (n + m) ⌈/⌉ b = n ⌈/⌉ b + (m - min (b - l) m) ⌈/⌉ b := by
  have hadd := congrArg List.length (chunks_add hb m n h)
  have hn := congrArg List.length h
  simp only [length_chunks, List.length_append, List.length_cons, List.length_nil] at hadd hn
  omega

/-! ### Growing, chunk by chunk -/

/-- What the last chunk has room for. -/
def slack (b n : ℕ) : ℕ := n ⌈/⌉ b * b - n

@[simp] theorem slack_zero (b : ℕ) : slack b 0 = 0 := by simp [slack]

theorem slack_eq (hb : 0 < b) {n j : ℕ} (hj : j + 1 = n ⌈/⌉ b) : slack b n = b - (n - j * b) := by
  have hlt : j * b < n := mul_lt_of_lt_ceilDiv hb (by omega)
  rw [slack, ← hj, Nat.succ_mul]
  omega

/-- Of the chunks there are, more items fill up the last. -/
theorem share_add (hb : 0 < b) (k : ℕ) {n j : ℕ} (hj : j < n ⌈/⌉ b) :
    min (n + k - j * b) b =
      min (n - j * b) b + if j + 1 = n ⌈/⌉ b then min (slack b n) k else 0 := by
  have hlt : j * b < n := mul_lt_of_lt_ceilDiv hb hj
  have hle := le_ceilDiv_mul hb n
  split
  · rename_i hlast
    rw [slack_eq hb hlast]
    rw [← hlast, Nat.succ_mul] at hle
    omega
  · have hfull : (j + 1) * b < n := mul_lt_of_lt_ceilDiv hb (by omega)
    rw [Nat.succ_mul] at hfull
    omega

/-- The chunks that are opened are a cut of what did not fit. -/
theorem share_rest (hb : 0 < b) (n k i : ℕ) :
    min (n + k - (n ⌈/⌉ b + i) * b) b = min (k - slack b n - i * b) b := by
  have hle := le_ceilDiv_mul hb n
  rw [slack, Nat.add_mul]
  congr 1
  omega

theorem ceilDiv_slack (hb : 0 < b) (n k : ℕ) :
    (n + k) ⌈/⌉ b = n ⌈/⌉ b + (k - slack b n) ⌈/⌉ b := by
  have hle := le_ceilDiv_mul hb n
  refine eq_of_forall_ge_iff fun c => ?_
  rw [ceilDiv_le_iff_le_mul hb, slack]
  rcases Nat.lt_or_ge c (n ⌈/⌉ b) with hc | hc
  · have hlt : c * b < n := mul_lt_of_lt_ceilDiv hb hc
    rw [Nat.mul_comm] at hlt
    omega
  · obtain ⟨d, rfl⟩ := Nat.exists_eq_add_of_le hc
    rw [Nat.add_le_add_iff_left, ceilDiv_le_iff_le_mul hb, Nat.mul_add, Nat.mul_comm b (n ⌈/⌉ b)]
    omega

end Chunks
