import ModelServing.Lib.Chunks

/-! List scheduling: the jobs of a list go in turn to the machine that is free first. Seen from any
    moment, what matters is how long each machine is still busy, so a schedule can be followed one time
    unit at a time (`makespan_append`, `makespan_tick`). It takes no longer than running the jobs in
    batches, and less than twice as long as any other assignment of them (Graham's bound). -/

namespace ListSchedule

/-- `loads` says when each machine is free, the first one first. A job of length `d` goes to that one. -/
def assign : List ℕ → ℕ → List ℕ
  | [], _ => []
  | m :: loads, d => loads.orderedInsert (· ≤ ·) (m + d)

def latest (loads : List ℕ) : ℕ := loads.foldr max 0

/-- When the last machine is done with all jobs. -/
def makespan (loads jobs : List ℕ) : ℕ := latest (jobs.foldl assign loads)

/-- `seats` machines, some of which are busy for as long as `busy` says. -/
def seated (seats : ℕ) (busy : List ℕ) : List ℕ :=
  (busy ++ List.replicate (seats - busy.length) 0).insertionSort (· ≤ ·)

/-- How long the jobs take in batches of `seats`, each of which is as long as its longest job. -/
def batched (seats : ℕ) (jobs : List ℕ) : ℕ :=
  ((List.range (jobs.length ⌈/⌉ seats)).map fun i => latest ((jobs.drop (i * seats)).take seats)).sum

variable {seats : ℕ} {loads busy busy' jobs : List ℕ} {d m b : ℕ}

/-! ### The last machine -/

theorem le_latest (hm : m ∈ loads) : m ≤ latest loads := List.le_max_of_le hm le_rfl

theorem latest_le (h : ∀ m ∈ loads, m ≤ b) : latest loads ≤ b := List.max_le_of_forall_le loads b h

theorem latest_mem : ∀ loads : List ℕ, latest loads ∈ loads ∨ latest loads = 0
  | [] => Or.inr rfl
  | m :: loads => by
      change max m (latest loads) ∈ _ ∨ max m (latest loads) = 0
      rcases max_choice m (latest loads) with h | h <;> rw [h]
      · exact Or.inl List.mem_cons_self
      · exact (latest_mem loads).imp (List.mem_cons_of_mem m) id

theorem latest_congr {loads' : List ℕ} (h : ∀ m ∈ loads, ∃ m' ∈ loads', m ≤ m')
    (h' : ∀ m ∈ loads', ∃ m' ∈ loads, m ≤ m') : latest loads = latest loads' := by
  refine le_antisymm (latest_le fun m hm => ?_) (latest_le fun m hm => ?_)
  · obtain ⟨m', hm', hle⟩ := h m hm
    exact hle.trans (le_latest hm')
  · obtain ⟨m', hm', hle⟩ := h' m hm
    exact hle.trans (le_latest hm')

theorem latest_map_succ (h : loads ≠ []) : latest (loads.map (· + 1)) = latest loads + 1 := by
  induction loads with
  | nil => exact absurd rfl h
  | cons m loads ih =>
    cases loads with
    | nil => simp [latest]
    | cons m' loads =>
      have := ih (List.cons_ne_nil _ _)
      simp only [latest, List.map_cons, List.foldr_cons] at this ⊢
      omega

/-! ### One job -/

theorem assign_perm (m d : ℕ) (loads : List ℕ) : (assign (m :: loads) d).Perm ((m + d) :: loads) :=
  List.perm_orderedInsert _ _ _

theorem assign_sorted (h : loads.Pairwise (· ≤ ·)) (d : ℕ) : (assign loads d).Pairwise (· ≤ ·) := by
  cases loads with
  | nil => exact h
  | cons m loads => exact (List.pairwise_cons.mp h).2.orderedInsert (m + d) loads

theorem assign_length (loads : List ℕ) (d : ℕ) : (assign loads d).length = loads.length := by
  cases loads with
  | nil => rfl
  | cons m loads => exact (assign_perm m d loads).length_eq

theorem assign_sum (h : loads ≠ []) (d : ℕ) : (assign loads d).sum = loads.sum + d := by
  cases loads with
  | nil => exact absurd rfl h
  | cons m loads =>
    rw [(assign_perm m d loads).sum_eq, List.sum_cons, List.sum_cons]
    omega

theorem assign_zero (h : loads.Pairwise (· ≤ ·)) : assign loads 0 = loads := by
  cases loads with
  | nil => rfl
  | cons m loads => exact (assign_perm m 0 loads).eq_of_pairwise' (assign_sorted h 0) h

theorem assign_map_succ (loads : List ℕ) (d : ℕ) :
    assign (loads.map (· + 1)) d = (assign loads d).map (· + 1) := by
  cases loads with
  | nil => rfl
  | cons m loads =>
    change (loads.map (· + 1)).orderedInsert (· ≤ ·) (m + 1 + d) = _
    rw [Nat.add_right_comm m 1 d]
    refine (List.map_orderedInsert (r := (· ≤ ·)) (s := (· ≤ ·)) (· + 1) loads (m + d) ?_ ?_).symm <;>
      simp

/-! ### All jobs -/

theorem foldl_assign_sorted (h : loads.Pairwise (· ≤ ·)) (jobs : List ℕ) :
    (jobs.foldl assign loads).Pairwise (· ≤ ·) := by
  induction jobs generalizing loads with
  | nil => exact h
  | cons d jobs ih => exact ih (assign_sorted h d)

theorem foldl_assign_length (loads jobs : List ℕ) :
    (jobs.foldl assign loads).length = loads.length := by
  induction jobs generalizing loads with
  | nil => rfl
  | cons d jobs ih => exact (ih (assign loads d)).trans (assign_length loads d)

theorem foldl_assign_sum {loads : List ℕ} (h : loads ≠ []) (jobs : List ℕ) :
    (jobs.foldl assign loads).sum = loads.sum + jobs.sum := by
  induction jobs generalizing loads with
  | nil => rfl
  | cons d jobs ih =>
    have hne : assign loads d ≠ [] := by
      rw [← List.length_pos_iff, assign_length]
      exact List.length_pos_of_ne_nil h
    rw [List.foldl_cons, ih hne, assign_sum h, List.sum_cons, Nat.add_assoc]

/-- Machines that are all free at first. -/
theorem foldl_assign_free_sum (hs : 0 < seats) (jobs : List ℕ) :
    (jobs.foldl assign (List.replicate seats 0)).sum = jobs.sum := by
  have hne : List.replicate seats 0 ≠ [] := by simpa using hs.ne'
  rw [foldl_assign_sum hne, List.sum_replicate, smul_eq_mul, Nat.mul_zero, Nat.zero_add]

theorem free_sorted (seats : ℕ) : (List.replicate seats 0).Pairwise (· ≤ ·) := by
  simp [List.pairwise_replicate]

/-- Jobs of length zero take no machine. -/
theorem makespan_filter {α : Type*} (cost : α → ℕ) (p : α → Bool) : ∀ {loads : List ℕ} (xs : List α),
    loads.Pairwise (· ≤ ·) → (∀ x ∈ xs, p x = false → cost x = 0) →
    makespan loads ((xs.filter p).map cost) = makespan loads (xs.map cost)
  | _, [], _, _ => rfl
  | loads, x :: xs, hs, h => by
      have hxs : ∀ y ∈ xs, p y = false → cost y = 0 := fun y hy => h y (List.mem_cons_of_mem x hy)
      cases hp : p x with
      | true =>
        rw [List.filter_cons_of_pos hp]
        exact makespan_filter cost p xs (assign_sorted hs (cost x)) hxs
      | false =>
        rw [List.filter_cons_of_neg (by simp [hp]), makespan_filter cost p xs hs hxs, List.map_cons,
          h x List.mem_cons_self hp, makespan, makespan, List.foldl_cons, assign_zero hs]

/-! ### As time goes by -/

theorem seated_sorted (seats : ℕ) (busy : List ℕ) : (seated seats busy).Pairwise (· ≤ ·) :=
  List.pairwise_insertionSort _ _

theorem seated_perm (h : busy.Perm busy') : seated seats busy = seated seats busy' := by
  refine List.Perm.eq_of_pairwise' (seated_sorted _ _) (seated_sorted _ _) ?_
  have hlen := h.length_eq
  refine (List.perm_insertionSort _ _).trans (List.Perm.trans ?_ (List.perm_insertionSort _ _).symm)
  rw [hlen]
  exact h.append_right _

theorem seated_nil (seats : ℕ) : seated seats [] = List.replicate seats 0 :=
  List.Pairwise.insertionSort_eq (free_sorted seats)

/-- A machine that is busy no longer. -/
theorem seated_zero (h : busy.length < seats) : seated seats (0 :: busy) = seated seats busy := by
  obtain ⟨n, hn⟩ : ∃ n, seats - busy.length = n + 1 := ⟨seats - busy.length - 1, by omega⟩
  have hn' : seats - (0 :: busy).length = n := by
    rw [List.length_cons]
    omega
  refine List.Perm.eq_of_pairwise' (seated_sorted _ _) (seated_sorted _ _) ?_
  refine (List.perm_insertionSort _ _).trans (List.Perm.trans ?_ (List.perm_insertionSort _ _).symm)
  rw [hn, hn', List.replicate_succ]
  exact List.perm_middle.symm

/-- A free machine takes the next job. -/
theorem assign_seated (h : busy.length < seats) (d : ℕ) :
    assign (seated seats busy) d = seated seats (d :: busy) := by
  have hzero : seated seats (0 :: busy) =
      0 :: (busy ++ List.replicate (seats - (0 :: busy).length) 0).insertionSort (· ≤ ·) :=
    List.insertionSort_cons_of_forall_rel (· ≤ ·) fun _ _ => Nat.zero_le _
  rw [← seated_zero h, hzero, assign, Nat.zero_add]
  rfl

/-- As many jobs as there are free machines start at once. -/
theorem makespan_append : ∀ (now rest : List ℕ) {busy : List ℕ}, busy.length + now.length ≤ seats →
    makespan (seated seats busy) (now ++ rest) = makespan (seated seats (busy ++ now)) rest
  | [], rest, busy, _ => by rw [List.append_nil, List.nil_append]
  | d :: now, rest, busy, h => by
      rw [List.length_cons] at h
      have hassign : makespan (seated seats busy) (d :: now ++ rest) =
          makespan (seated seats (d :: busy)) (now ++ rest) := by
        rw [makespan, List.cons_append, List.foldl_cons, assign_seated (by omega)]
        rfl
      rw [hassign, makespan_append now rest (by rw [List.length_cons]; omega)]
      exact congrArg (makespan · rest) (seated_perm List.perm_middle.symm)

theorem makespan_map_succ (h : loads ≠ []) (jobs : List ℕ) :
    makespan (loads.map (· + 1)) jobs = makespan loads jobs + 1 := by
  have hmap : jobs.foldl assign (loads.map (· + 1)) = (jobs.foldl assign loads).map (· + 1) := by
    induction jobs generalizing loads with
    | nil => rfl
    | cons d jobs ih =>
      have hne : assign loads d ≠ [] := by
        rw [← List.length_pos_iff, assign_length]
        exact List.length_pos_of_ne_nil h
      rw [List.foldl_cons, List.foldl_cons, assign_map_succ, ih hne]
  rw [makespan, makespan, hmap, latest_map_succ]
  rw [← List.length_pos_iff, foldl_assign_length]
  exact List.length_pos_of_ne_nil h

/-- One unit of time, when no job waits for a free machine. -/
theorem makespan_tick (hne : busy ≠ []) (hpos : ∀ d ∈ busy, 0 < d) (hlen : busy.length ≤ seats)
    (hfull : jobs = [] ∨ busy.length = seats) : makespan (seated seats busy) jobs =
      makespan (seated seats (busy.map (· - 1))) jobs + 1 := by
  have hback : (busy.map (· - 1)).map (· + 1) = busy := by
    rw [List.map_map]
    exact (List.map_congr_left fun d hd => Nat.sub_add_cancel (hpos d hd)).trans (List.map_id busy)
  have hne' : busy.map (· - 1) ≠ [] := by simpa using hne
  rcases hfull with rfl | hfull
  · -- only the busy machines count
    have hbusy : ∀ busy : List ℕ, busy ≠ [] → makespan (seated seats busy) [] = latest busy := by
      intro busy hne
      refine latest_congr (fun m hm => ?_) fun m hm => ⟨m, ?_, le_rfl⟩
      · rcases List.mem_append.mp ((List.mem_insertionSort _).mp hm) with hm | hm
        · exact ⟨m, hm, le_rfl⟩
        · obtain ⟨m', hm'⟩ := List.exists_mem_of_ne_nil busy hne
          exact ⟨m', hm', (List.eq_of_mem_replicate hm).le.trans (Nat.zero_le _)⟩
      · exact (List.mem_insertionSort _).mpr (List.mem_append_left _ hm)
    rw [hbusy busy hne, hbusy _ hne', ← latest_map_succ hne', hback]
  · have hsort : ∀ busy : List ℕ, busy.length = seats →
        seated seats busy = busy.insertionSort (· ≤ ·) := by
      rintro busy rfl
      rw [seated, Nat.sub_self, List.replicate_zero, List.append_nil]
    have hmap : (busy.map (· - 1)).insertionSort (· ≤ ·) ≠ [] := by
      rw [← List.length_pos_iff, List.length_insertionSort]
      exact List.length_pos_of_ne_nil hne'
    rw [hsort busy hfull, hsort _ ((List.length_map _).trans hfull), ← makespan_map_succ hmap,
      List.map_insertionSort (· ≤ ·) (· ≤ ·) (· + 1) _ (by simp), hback]

/-! ### Compared with batches -/

theorem batched_of_ne_nil (hs : 0 < seats) (h : jobs ≠ []) :
    batched seats jobs = latest (jobs.take seats) + batched seats (jobs.drop seats) := by
  rw [batched, Chunks.ceilDiv_of_pos hs (List.length_pos_of_ne_nil h), List.range_succ_eq_map,
    List.map_cons, List.sum_cons, Nat.zero_mul, List.drop_zero, batched, List.length_drop,
    List.map_map]
  refine congrArg (latest (jobs.take seats) + List.sum ·) (List.map_congr_left fun i _ => ?_)
  rw [Function.comp_apply, Nat.succ_mul, List.drop_drop, Nat.add_comm]

/-- Machines that are free by `b` take no more jobs than there are machines until `b + d`, if no job
    is longer than `d`. -/
theorem foldl_assign_le : ∀ (jobs : List ℕ) {loads : List ℕ}, loads.Pairwise (· ≤ ·) →
    loads.countP (b < ·) + jobs.length ≤ loads.length → (∀ m ∈ loads, m ≤ b + d) →
    (∀ x ∈ jobs, x ≤ d) → ∀ m ∈ jobs.foldl assign loads, m ≤ b + d
  | [], _, _, _, hle, _ => hle
  | x :: jobs, loads, hs, hcount, hle, hjobs => by
      rw [List.length_cons] at hcount
      cases loads with
      | nil => exact absurd hcount (by simp)
      | cons m loads =>
        have hm : m ≤ b := by
          by_contra hlt
          have hall : (m :: loads).countP (b < ·) = (m :: loads).length := by
            refine List.countP_eq_length.mpr fun y hy => ?_
            rcases List.mem_cons.mp hy with rfl | hy
            · simpa using hlt
            · have := (List.pairwise_cons.mp hs).1 y hy
              simp only [decide_eq_true_eq]
              omega
          omega
        refine foldl_assign_le jobs (assign_sorted hs x) ?_ ?_ fun y hy => hjobs y (List.mem_cons_of_mem _ hy)
        · rw [assign_length, (assign_perm m x loads).countP_eq]
          have hold : (m :: loads).countP (b < ·) = loads.countP (b < ·) :=
            List.countP_cons_of_neg (by simpa using hm)
          have hnew : ((m + x) :: loads).countP (b < ·) ≤ loads.countP (b < ·) + 1 := by
            rw [List.countP_cons]
            split <;> omega
          omega
        · intro y hy
          rcases List.mem_cons.mp ((assign_perm m x loads).mem_iff.mp hy) with rfl | hy
          · exact Nat.add_le_add hm (hjobs x List.mem_cons_self)
          · exact hle y (List.mem_cons_of_mem _ hy)

theorem makespan_le_batched_of_le (hs : 0 < seats) : ∀ (n : ℕ) {loads jobs : List ℕ} {b : ℕ},
    jobs.length ≤ n → loads.Pairwise (· ≤ ·) → loads.length = seats → (∀ m ∈ loads, m ≤ b) →
    makespan loads jobs ≤ b + batched seats jobs := by
  intro n
  induction n with
  | zero =>
    intro loads jobs b hn _ _ hle
    obtain rfl := List.length_eq_zero_iff.mp (Nat.le_zero.mp hn)
    exact (latest_le hle).trans (Nat.le_add_right _ _)
  | succ n ih =>
    intro loads jobs b hn hsort hlen hle
    by_cases hnil : jobs = []
    · rw [hnil]
      exact (latest_le hle).trans (Nat.le_add_right _ _)
    · have hcount : loads.countP (b < ·) = 0 := List.countP_eq_zero.mpr fun m hm => by
        simpa using hle m hm
      have hfirst := foldl_assign_le (b := b) (d := latest (jobs.take seats)) (jobs.take seats) hsort
        (by rw [hcount, List.length_take]; omega)
        (fun m hm => (hle m hm).trans (Nat.le_add_right _ _)) fun x hx => le_latest hx
      have hpos := List.length_pos_of_ne_nil hnil
      have hshort : (jobs.drop seats).length ≤ n := by
        rw [List.length_drop]
        omega
      have hrest := ih hshort (foldl_assign_sorted hsort _) ((foldl_assign_length _ _).trans hlen) hfirst
      rw [makespan, ← List.foldl_append, List.take_append_drop] at hrest
      rw [batched_of_ne_nil hs hnil, ← Nat.add_assoc]
      exact hrest

/-- Not longer than in batches. -/
theorem makespan_le_batched (hs : 0 < seats) (jobs : List ℕ) :
    makespan (List.replicate seats 0) jobs ≤ batched seats jobs := by
  have h := makespan_le_batched_of_le hs jobs.length le_rfl (free_sorted seats) List.length_replicate
    fun m hm => (List.eq_of_mem_replicate hm).le
  rwa [Nat.zero_add] at h

/-! ### Compared with any assignment -/

/-- No machine is busy for longer than the average and the longest job allow. -/
theorem mul_le_of_mem : ∀ (jobs : List ℕ) {loads : List ℕ}, loads.Pairwise (· ≤ ·) →
    loads.length = seats + 1 → (∀ m ∈ loads, (seats + 1) * m ≤ loads.sum + seats * d) →
    (∀ x ∈ jobs, x ≤ d) → ∀ m ∈ jobs.foldl assign loads,
    (seats + 1) * m ≤ (jobs.foldl assign loads).sum + seats * d
  | [], _, _, _, hle, _ => hle
  | x :: jobs, loads, hs, hlen, hle, hjobs => by
      refine mul_le_of_mem jobs (assign_sorted hs x) ((assign_length _ _).trans hlen) ?_
        fun y hy => hjobs y (List.mem_cons_of_mem _ hy)
      cases loads with
      | nil => exact fun y hy => absurd hy List.not_mem_nil
      | cons m loads =>
        have hleast : (seats + 1) * m ≤ (m :: loads).sum := by
          have h := List.card_nsmul_le_sum (m :: loads) m fun y hy => by
            rcases List.mem_cons.mp hy with rfl | hy
            · exact le_rfl
            · exact (List.pairwise_cons.mp hs).1 y hy
          rwa [hlen, smul_eq_mul] at h
        intro y hy
        rw [assign_sum (List.cons_ne_nil _ _)]
        rcases List.mem_cons.mp ((assign_perm m x loads).mem_iff.mp hy) with rfl | hy
        · have hx : seats * x ≤ seats * d := Nat.mul_le_mul_left seats (hjobs x List.mem_cons_self)
          calc (seats + 1) * (m + x) = (seats + 1) * m + (seats * x + x) := by ring
            _ ≤ (m :: loads).sum + x + seats * d := by omega
        · have := hle y (List.mem_cons_of_mem _ hy)
          omega

/-- No machine idles while a job waits, so the machines' time covers the jobs. -/
theorem sum_le_mul_makespan (hs : 0 < seats) (jobs : List ℕ) :
    jobs.sum ≤ seats * makespan (List.replicate seats 0) jobs := by
  have hcard := List.sum_le_card_nsmul (jobs.foldl assign (List.replicate seats 0)) _ fun m hm => le_latest hm
  rw [foldl_assign_free_sum hs, foldl_assign_length, List.length_replicate, smul_eq_mul] at hcard
  exact hcard

/-- Graham's bound: with `parts` the jobs of each machine under any other assignment. -/
theorem mul_makespan_le (hs : 0 < seats) {parts : List (List ℕ)} (hlen : parts.length ≤ seats)
    (hparts : parts.flatten.Perm jobs) : seats * makespan (List.replicate seats 0) jobs ≤
      (2 * seats - 1) * latest (parts.map List.sum) := by
  obtain ⟨k, rfl⟩ : ∃ k, seats = k + 1 := ⟨seats - 1, by omega⟩
  set other := latest (parts.map List.sum)
  have hpart : ∀ p ∈ parts, p.sum ≤ other := fun p hp => le_latest (List.mem_map_of_mem hp)
  have hjob : ∀ x ∈ jobs, x ≤ other := by
    intro x hx
    obtain ⟨p, hp, hxp⟩ := List.mem_flatten.mp (hparts.mem_iff.mpr hx)
    exact (List.single_le_sum (fun _ _ => Nat.zero_le _) x hxp).trans (hpart p hp)
  have hwork : jobs.sum ≤ (k + 1) * other := by
    have hcard := List.sum_le_card_nsmul (parts.map List.sum) other fun s hs => le_latest hs
    rw [List.length_map, smul_eq_mul, ← List.sum_flatten, hparts.sum_eq] at hcard
    exact hcard.trans (Nat.mul_le_mul_right other hlen)
  have hfree : ∀ m ∈ List.replicate (k + 1) 0, (k + 1) * m ≤ (List.replicate (k + 1) 0).sum + k * other := by
    intro m hm
    rw [List.eq_of_mem_replicate hm]
    exact Nat.zero_le _
  have hmul := mul_le_of_mem jobs (free_sorted (k + 1)) List.length_replicate hfree hjob
  rw [foldl_assign_free_sum hs] at hmul
  have hbound : ∀ m ∈ jobs.foldl assign (List.replicate (k + 1) 0), (k + 1) * m ≤ (2 * k + 1) * other := by
    intro m hm
    calc (k + 1) * m ≤ jobs.sum + k * other := hmul m hm
      _ ≤ (k + 1) * other + k * other := Nat.add_le_add_right hwork _
      _ = (2 * k + 1) * other := by ring
  rcases latest_mem (jobs.foldl assign (List.replicate (k + 1) 0)) with h | h
  · exact hbound _ h
  · rw [makespan, h]
    exact Nat.zero_le _

end ListSchedule
