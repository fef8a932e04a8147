import ModelServing.Lib.Chunks

/-! Serving items in rounds, a bounded number of seats at a time. An item keeps its seat until it is
    done, so the argument is Graham's for list scheduling: every `limit` rounds either the items with a
    seat are all done, or all seats were taken when the last of them sat down. `left j s` stands for the
    number of unfinished items of `s` that have had fewer than `j` turns. -/

namespace Rounds

variable {σ : Type*}

/-- One round: everybody who stays has had a turn, and only what exceeds the seats has had none. -/
structure Round (left : ℕ → σ → ℕ) (seats limit : ℕ) (s s' : σ) : Prop where
  turn : ∀ j, left (j + 1) s' ≤ left j s
  waiting : left 1 s' ≤ left limit s - seats

/-- At most `r` more rounds: `limit - j` until the items with `j` turns or more are done, then `limit` for
    each chunk of the others. -/
def Due (left : ℕ → σ → ℕ) (seats limit : ℕ) (s : σ) (r : ℕ) : Prop :=
  ∃ j n, j ≤ limit ∧ left j s ≤ n ∧ r = limit - j + n ⌈/⌉ seats * limit

variable {left : ℕ → σ → ℕ} {seats limit : ℕ} {s s' : σ} {r : ℕ}

theorem due_start (left : ℕ → σ → ℕ) (seats limit : ℕ) (s : σ) :
    Due left seats limit s (left limit s ⌈/⌉ seats * limit) :=
  ⟨limit, left limit s, le_rfl, le_rfl, by omega⟩

theorem Due.round (hs : 0 < seats) (h : Due left seats limit s (r + 1))
    (hr : Round left seats limit s s') : Due left seats limit s' r := by
  obtain ⟨j, n, hj, hn, hrem⟩ := h
  rcases Nat.lt_or_ge j limit with hlt | hge
  · exact ⟨j + 1, n, hlt, (hr.turn j).trans hn, by omega⟩
  · -- a new chunk has sat down
    obtain rfl : j = limit := Nat.le_antisymm hj hge
    rw [Nat.sub_self, Nat.zero_add] at hrem
    have hpos : 0 < n ∧ 0 < j := by
      constructor
      · refine Nat.pos_of_ne_zero fun hzero => ?_
        rw [hzero, Chunks.ceilDiv_eq, Nat.div_eq_of_lt (by omega), Nat.zero_mul] at hrem
        omega
      · refine Nat.pos_of_ne_zero fun hzero => ?_
        rw [hzero, Nat.mul_zero] at hrem
        omega
    rw [Chunks.ceilDiv_of_pos hs hpos.1, Nat.add_mul, Nat.one_mul] at hrem
    have hwait := hr.waiting
    exact ⟨1, n - seats, hpos.2, by omega, by omega⟩

theorem Due.done (hs : 0 < seats) (hl : 0 < limit) (h : Due left seats limit s 0) :
    left limit s = 0 := by
  obtain ⟨j, n, hj, hn, hrem⟩ := h
  obtain rfl : j = limit := by omega
  have hzero : n ⌈/⌉ seats = 0 := by
    rcases Nat.mul_eq_zero.mp (show n ⌈/⌉ seats * j = 0 by omega) with h | h
    · exact h
    · omega
  have := Chunks.le_ceilDiv_mul hs n
  rw [hzero, Nat.zero_mul] at this
  omega

/-- What falls due later is due a round earlier after a round, also when there is nothing left. -/
theorem Due.pred (hs : 0 < seats) (hl : 0 < limit) (hmono : left limit s' ≤ left (limit + 1) s')
    (h : Due left seats limit s r) (hr : Round left seats limit s s') : Due left seats limit s' (r - 1) := by
  rcases r with - | r
  · have hzero : left limit s' ≤ 0 := hmono.trans ((hr.turn limit).trans (h.done hs hl).le)
    exact ⟨limit, 0, le_rfl, hzero, by rw [Chunks.ceilDiv_eq, Nat.div_eq_of_lt (by omega)]; omega⟩
  · exact h.round hs hr

theorem Due.mono (h : Due left seats limit s r) (hle : ∀ j, left j s' ≤ left j s) :
    Due left seats limit s' r := by
  obtain ⟨j, n, hj, hn, hrem⟩ := h
  exact ⟨j, n, hj, (hle j).trans hn, hrem⟩

end Rounds
