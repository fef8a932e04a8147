import ModelServing.Engine.Scheduler

/-! Where every accepted request is. `Ledger` says that the queue, the running and the completed
    dictionary hold each accepted request in exactly one place, with the status of that place, and
    `Counted` ties the statistics to the sizes. Every transition of the scheduler takes one request
    from one place to the next, so both are derived from one lemma about such a move. -/

namespace ModelServing

/-- The statuses a request ends in. -/
def RequestStatus.terminal : RequestStatus → Bool
  | .PENDING | .RUNNING => false
  | .COMPLETED | .CANCELLED | .FAILED => true

namespace RequestScheduler

def idOf (s : RequestScheduler) (r : Ref) : String := (s.request r).requestId

def statusOf (s : RequestScheduler) (r : Ref) : RequestStatus := (s.request r).status

/-- Each accepted request is pending, running or done, under its own id, with a status to match.
    `fail` changes a status without moving the request, so a failed one may be in either
    dictionary. -/
structure Ledger (acc : List Ref) (s : RequestScheduler) : Prop where
  lt_next : ∀ r ∈ acc, r < s.requests.next
  ids_inj : ∀ r r', r < s.requests.next → r' < s.requests.next → s.idOf r = s.idOf r' → r = r'
  pending_nodup : s.pending.Nodup
  pending : ∀ r ∈ s.pending, r ∈ acc ∧ s.statusOf r = .PENDING
  running : ∀ k r, s.running.get? k = some r →
    r ∈ acc ∧ s.idOf r = k ∧ (s.statusOf r = .RUNNING ∨ s.statusOf r = .FAILED)
  completed : ∀ k r, s.completed.get? k = some r →
    r ∈ acc ∧ s.idOf r = k ∧
      (s.statusOf r = .COMPLETED ∨ s.statusOf r = .CANCELLED ∨ s.statusOf r = .FAILED)
  disjoint : ∀ k, k ∈ s.running.keys → k ∉ s.completed.keys
  located : ∀ r ∈ acc, r ∈ s.pending ∨ s.running.get? (s.idOf r) = some r ∨
    s.completed.get? (s.idOf r) = some r

/-- The statistics count what the containers hold. -/
structure Counted (s : RequestScheduler) : Prop where
  submitted : s.totalSubmitted = s.pendingCount + s.runningCount + s.totalCompleted +
    s.totalCancelled + s.totalTimedOut
  done : s.completed.size = s.totalCompleted + s.totalCancelled + s.totalTimedOut

variable {acc : List Ref} {s s' : RequestScheduler} {r : Ref}

namespace Ledger

theorem running_of_status (L : Ledger acc s) (hr : r ∈ acc) (h : s.statusOf r = .RUNNING) :
    s.running.get? (s.idOf r) = some r := by
  rcases L.located r hr with hp | hrun | hc
  · have := (L.pending r hp).2; rw [h] at this; cases this
  · exact hrun
  · rcases (L.completed _ r hc).2.2 with h' | h' | h' <;> (rw [h] at h'; cases h')

theorem pending_of_status (L : Ledger acc s) (hr : r ∈ acc) (h : s.statusOf r = .PENDING) :
    r ∈ s.pending := by
  rcases L.located r hr with hp | hrun | hc
  · exact hp
  · rcases (L.running _ r hrun).2.2 with h' | h' <;> (rw [h] at h'; cases h')
  · rcases (L.completed _ r hc).2.2 with h' | h' | h' <;> (rw [h] at h'; cases h')

/-- A running entry under `r`'s id is `r`. -/
theorem running_eq (L : Ledger acc s) (hr : r ∈ acc) {x : Ref}
    (h : s.running.get? (s.idOf r) = some x) : x = r :=
  L.ids_inj x r (L.lt_next x (L.running _ x h).1) (L.lt_next r hr) (L.running _ x h).2.1

theorem completed_eq (L : Ledger acc s) (hr : r ∈ acc) {x : Ref}
    (h : s.completed.get? (s.idOf r) = some x) : x = r :=
  L.ids_inj x r (L.lt_next x (L.completed _ x h).1) (L.lt_next r hr) (L.completed _ x h).2.1

theorem not_running_of_pending (L : Ledger acc s) (hr : r ∈ s.pending) :
    s.idOf r ∉ s.running.keys := by
  intro hm
  obtain ⟨x, hx⟩ := OrderedDict.mem_keys_iff.mp hm
  obtain rfl := L.running_eq (L.pending r hr).1 hx
  rcases (L.running _ x hx).2.2 with h | h <;> (rw [(L.pending x hr).2] at h; cases h)

theorem not_completed_of_pending (L : Ledger acc s) (hr : r ∈ s.pending) :
    s.idOf r ∉ s.completed.keys := by
  intro hm
  obtain ⟨x, hx⟩ := OrderedDict.mem_keys_iff.mp hm
  obtain rfl := L.completed_eq (L.pending r hr).1 hx
  rcases (L.completed _ x hx).2.2 with h | h | h <;> (rw [(L.pending x hr).2] at h; cases h)

theorem not_completed_of_running (L : Ledger acc s) {k : String}
    (hr : s.running.get? k = some r) : k ∉ s.completed.keys :=
  L.disjoint k (OrderedDict.mem_keys_of_get? hr)

/-! ### One request moves -/

/-- Where a request goes when it leaves its place. -/
inductive Exit where | running | completed

/-- `s'` is `s` with `r` taken from its place to `e`: the lists lose `r` and one dictionary gains it
    under its id, the other requests are the same, and the status fits the new place. -/
structure Moved (e : Exit) (r : Ref) (s s' : RequestScheduler) : Prop where
  next : s'.requests.next = s.requests.next
  ids : ∀ x, s'.idOf x = s.idOf x
  others : ∀ x, x ≠ r → s'.statusOf x = s.statusOf x
  pending : s'.pending = s.pending.erase r
  running : ∀ k x, s'.running.get? k = some x ↔
    (s.running.get? k = some x ∧ x ≠ r) ∨ (e = .running ∧ k = s.idOf r ∧ x = r)
  completed : ∀ k x, s'.completed.get? k = some x ↔
    (s.completed.get? k = some x ∧ x ≠ r) ∨ (e = .completed ∧ k = s.idOf r ∧ x = r)
  status : match e with
    | .running => s'.statusOf r = .RUNNING
    | .completed => s'.statusOf r = .COMPLETED ∨ s'.statusOf r = .CANCELLED

/-- A moved request is in one dictionary only. -/
theorem Moved.disjoint {e : Exit} (M : Moved e r s s') (L : Ledger acc s) (hr : r ∈ acc) (k : String)
    (hk : k ∈ s'.running.keys) : k ∉ s'.completed.keys := by
  intro hk'
  obtain ⟨x, hx⟩ := OrderedDict.mem_keys_iff.mp hk
  obtain ⟨y, hy⟩ := OrderedDict.mem_keys_iff.mp hk'
  rcases (M.running k x).mp hx with ⟨hx, hne⟩ | ⟨rfl, rfl, rfl⟩ <;>
    rcases (M.completed _ y).mp hy with ⟨hy, hne'⟩ | ⟨he, hk, hyr⟩
  · exact L.disjoint _ (OrderedDict.mem_keys_of_get? hx) (OrderedDict.mem_keys_of_get? hy)
  · exact hne (L.running_eq hr (hk ▸ hx))
  · exact hne' (L.completed_eq hr hy)
  · cases he

theorem move {e : Exit} (L : Ledger acc s) (hr : r ∈ acc) (M : Moved e r s s') : Ledger acc s' where
  lt_next := fun x hx => M.next ▸ L.lt_next x hx
  ids_inj := fun x x' hx hx' h => L.ids_inj x x' (M.next ▸ hx) (M.next ▸ hx')
    (by rwa [M.ids, M.ids] at h)
  pending_nodup := M.pending ▸ L.pending_nodup.erase r
  pending := by
    intro x hx
    rw [M.pending, L.pending_nodup.mem_erase_iff] at hx
    rw [M.others x hx.1]
    exact L.pending x hx.2
  running := by
    intro k x hx
    rcases (M.running k x).mp hx with ⟨hx, hne⟩ | ⟨rfl, rfl, rfl⟩
    · rw [M.ids, M.others x hne]; exact L.running k x hx
    · exact ⟨hr, M.ids x, Or.inl M.status⟩
  completed := by
    intro k x hx
    rcases (M.completed k x).mp hx with ⟨hx, hne⟩ | ⟨rfl, rfl, rfl⟩
    · rw [M.ids, M.others x hne]; exact L.completed k x hx
    · exact ⟨hr, M.ids x, M.status.imp id Or.inl⟩
  disjoint := M.disjoint L hr
  located := by
    intro x hx
    rw [M.ids]
    by_cases hxr : x = r
    · subst hxr
      cases e with
      | running => exact Or.inr (Or.inl ((M.running _ _).mpr (Or.inr ⟨rfl, rfl, rfl⟩)))
      | completed => exact Or.inr (Or.inr ((M.completed _ _).mpr (Or.inr ⟨rfl, rfl, rfl⟩)))
    · rcases L.located x hx with h | h | h
      · rw [M.pending, L.pending_nodup.mem_erase_iff]; exact Or.inl ⟨hxr, h⟩
      · exact Or.inr (Or.inl ((M.running _ _).mpr (Or.inl ⟨h, hxr⟩)))
      · exact Or.inr (Or.inr ((M.completed _ _).mpr (Or.inl ⟨h, hxr⟩)))

/-! The three shapes a dictionary keyed by request ids takes in a move. -/

theorem get?_insert_iff {d : OrderedDict String Ref} (k : String) (x : Ref)
    (hkey : ∀ y, d.get? (s.idOf r) = some y → y = r)
    (hid : ∀ k y, d.get? k = some y → s.idOf y = k) :
    (d.insert (s.idOf r) r).get? k = some x ↔
      (d.get? k = some x ∧ x ≠ r) ∨ (k = s.idOf r ∧ x = r) := by
  rw [OrderedDict.get?_insert]
  by_cases hk : k = s.idOf r
  · subst hk
    rw [if_pos rfl]
    constructor
    · intro h; exact Or.inr ⟨rfl, (Option.some.inj h).symm⟩
    · rintro (⟨h, hne⟩ | ⟨-, rfl⟩)
      · exact absurd (hkey x h) hne
      · rfl
  · rw [if_neg hk]
    constructor
    · intro h
      exact Or.inl ⟨h, fun hx => hk ((hid k x h).symm.trans (congrArg _ hx))⟩
    · rintro (⟨h, -⟩ | ⟨h, -⟩)
      · exact h
      · exact absurd h hk

theorem get?_erase_iff {d : OrderedDict String Ref} (k : String) (x : Ref)
    (hkey : ∀ y, d.get? (s.idOf r) = some y → y = r)
    (hid : ∀ k y, d.get? k = some y → s.idOf y = k) :
    (d.erase (s.idOf r)).get? k = some x ↔ d.get? k = some x ∧ x ≠ r := by
  rw [OrderedDict.get?_erase]
  by_cases hk : k = s.idOf r
  · subst hk
    rw [if_pos rfl]
    exact ⟨fun h => (by cases h), fun ⟨h, hne⟩ => absurd (hkey x h) hne⟩
  · rw [if_neg hk]
    exact ⟨fun h => ⟨h, fun hx => hk ((hid k x h).symm.trans (congrArg _ hx))⟩, fun h => h.1⟩

theorem get?_same_iff {d : OrderedDict String Ref} (k : String) (x : Ref)
    (hnot : s.idOf r ∉ d.keys) (hid : ∀ k y, d.get? k = some y → s.idOf y = k) :
    d.get? k = some x ↔ d.get? k = some x ∧ x ≠ r :=
  ⟨fun h => ⟨h, fun hx => hnot (by rw [← hx, hid k x h]; exact OrderedDict.mem_keys_of_get? h)⟩,
    fun h => h.1⟩

end Ledger

/-! ### What a call on an object leaves alone -/

section objects

variable (clock : ℕ → ℚ) (f : ℚ → ScheduledRequest → ScheduledRequest)

theorem idOf_call (hf : ∀ t q, (f t q).requestId = q.requestId) (s : RequestScheduler) (r x : Ref) :
    (s.call clock r f).idOf x = s.idOf x :=
  ObjectHeap.map_get_modify ScheduledRequest.requestId s.requests r x (hf _)

theorem request_call_self (s : RequestScheduler) (r : Ref) :
    (s.call clock r f).request r = f (clock s.ticks) (s.request r) :=
  ObjectHeap.get_modify_self ..

theorem request_call_of_ne (s : RequestScheduler) {r x : Ref} (h : x ≠ r) :
    (s.call clock r f).request x = s.request x :=
  ObjectHeap.get_modify_of_ne _ _ h

theorem statusOf_call_of_ne (s : RequestScheduler) {r x : Ref} (h : x ≠ r) :
    (s.call clock r f).statusOf x = s.statusOf x :=
  congrArg ScheduledRequest.status (request_call_of_ne clock f s h)

theorem request_set_of_ne (g : ScheduledRequest → ScheduledRequest) (s : RequestScheduler)
    {r x : Ref} (h : x ≠ r) : (s.set r g).request x = s.request x :=
  ObjectHeap.get_modify_of_ne _ _ h

theorem request_set_self (g : ScheduledRequest → ScheduledRequest) (s : RequestScheduler) (r : Ref) :
    (s.set r g).request r = g (s.request r) :=
  ObjectHeap.get_modify_self ..

theorem idOf_set {g : ScheduledRequest → ScheduledRequest} (hg : ∀ q, (g q).requestId = q.requestId)
    (s : RequestScheduler) (r x : Ref) : (s.set r g).idOf x = s.idOf x :=
  ObjectHeap.map_get_modify ScheduledRequest.requestId s.requests r x hg

end objects

theorem eraseP_eq_erase {l : List Ref} {p : Ref → Bool} (h : ∀ x ∈ l, p x = true ↔ x = r) :
    l.eraseP p = l.erase r := by
  induction l with
  | nil => rfl
  | cons a l ih =>
    have ha := h a List.mem_cons_self
    have ih := ih fun x hx => h x (List.mem_cons_of_mem _ hx)
    by_cases har : a = r
    · rw [List.eraseP_cons_of_pos (ha.mpr har), har, List.erase_cons_head]
    · rw [List.eraseP_cons_of_neg (by simpa using mt ha.mp har),
        List.erase_cons_tail (by simpa using har), ih]

namespace Ledger

variable {clock : ℕ → ℚ}

/-- Leaving the queue or the running dictionary for `completed`. -/
theorem moved_completed (L : Ledger acc s) (hr : r ∈ acc) (hnot : s.idOf r ∉ s.completed.keys)
    (hnext : s'.requests.next = s.requests.next) (hids : ∀ x, s'.idOf x = s.idOf x)
    (hothers : ∀ x, x ≠ r → s'.statusOf x = s.statusOf x)
    (hpending : s'.pending = s.pending.erase r) (hrunning : s'.running = s.running.erase (s.idOf r))
    (hcompleted : s'.completed = s.completed.insert (s.idOf r) r)
    (hstatus : s'.statusOf r = .COMPLETED ∨ s'.statusOf r = .CANCELLED) :
    Moved .completed r s s' where
  next := hnext
  ids := hids
  others := hothers
  pending := hpending
  running := by
    intro k x
    rw [hrunning, get?_erase_iff k x (fun y hy => L.running_eq hr hy)
      fun k y hy => (L.running k y hy).2.1]
    simp
  completed := by
    intro k x
    rw [hcompleted, get?_insert_iff k x
      (fun y hy => absurd (OrderedDict.mem_keys_of_get? hy) hnot)
      fun k y hy => (L.completed k y hy).2.1]
    simp
  status := hstatus

theorem moved_expire (L : Ledger acc s) (clock : ℕ → ℚ) (hr : r ∈ s.pending) :
    Moved .completed r s (s.expire clock r) := by
  set s₁ := s.call clock r .cancel
  set g : ScheduledRequest → ScheduledRequest := fun q =>
    { q with error := some "Request timed out in queue" }
  set s₂ := s₁.set r g
  have hid₁ : ∀ x, s₁.idOf x = s.idOf x := idOf_call clock .cancel (fun _ _ => rfl) s r
  have hid₂ : ∀ x, s₂.idOf x = s.idOf x := fun x =>
    (idOf_set (g := g) (fun _ => rfl) s₁ r x).trans (hid₁ x)
  have hnotrun := L.not_running_of_pending hr
  refine L.moved_completed (L.pending r hr).1 (L.not_completed_of_pending hr) rfl hid₂ ?_ ?_ ?_ ?_ ?_
  · intro x hx
    exact (congrArg ScheduledRequest.status (request_set_of_ne g s₁ hx)).trans
      (statusOf_call_of_ne clock _ s hx)
  · -- equal objects have equal ids, so `list.remove` finds the object itself
    refine eraseP_eq_erase fun x hx => ?_
    rw [decide_eq_true_iff]
    refine ⟨fun h => h.elim id fun h => ?_, Or.inl⟩
    have hidx : s₂.idOf x = s₂.idOf r := congrArg ScheduledRequest.requestId h
    rw [hid₂, hid₂] at hidx
    exact L.ids_inj x r (L.lt_next x (L.pending x hx).1) (L.lt_next r (L.pending r hr).1) hidx
  · exact (OrderedDict.erase_of_not_mem hnotrun).symm
  · change s.completed.insert (s₂.idOf r) r = _
    rw [hid₂]
  · right
    exact (congrArg ScheduledRequest.status (request_set_self g s₁ r)).trans
      (congrArg ScheduledRequest.status (request_call_self clock .cancel s r))

theorem moved_completeRequest (L : Ledger acc s) (clock : ℕ → ℚ) {k : String} (hr : s.running.get? k = some r)
    (text : String) (n : ℕ) : Moved .completed r s (s.completeRequest clock k text n) := by
  obtain ⟨hacc, rfl, -⟩ := L.running k r hr
  have heq : s.completeRequest clock (s.idOf r) text n =
      { s.call clock r (.complete text n) with
        running := s.running.erase (s.idOf r)
        completed := s.completed.insert (s.idOf r) r
        totalCompleted := s.totalCompleted + 1 } := by
    simp only [completeRequest, hr]
    rfl
  have hpend : r ∉ s.pending := fun hp =>
    L.not_running_of_pending hp (OrderedDict.mem_keys_of_get? hr)
  rw [heq]
  refine L.moved_completed hacc (L.not_completed_of_running hr) rfl
    (idOf_call clock (.complete text n) (fun _ _ => rfl) s r)
    (fun x hx => statusOf_call_of_ne clock _ s hx) ?_ rfl rfl ?_
  · exact (List.erase_of_not_mem hpend).symm
  · exact Or.inl (congrArg ScheduledRequest.status (request_call_self clock _ s r))

/-- Cancelling a pending request. -/
theorem moved_cancel_pending (L : Ledger acc s) (clock : ℕ → ℚ) {k : String}
    (hfind : s.pending.find? (fun r => (s.request r).requestId = k) = some r) :
    Moved .completed r s (s.cancelRequest clock k).2 ∧ r ∈ s.pending ∧ s.idOf r = k := by
  have hr : r ∈ s.pending := List.mem_of_find?_eq_some hfind
  have hid : s.idOf r = k := by simpa [idOf] using List.find?_some hfind
  refine ⟨?_, hr, hid⟩
  subst hid
  have heq : (s.cancelRequest clock (s.idOf r)).2 =
      { s.call clock r .cancel with
        pending := s.pending.eraseP fun x => (s.request x).requestId = s.idOf r
        completed := s.completed.insert (s.idOf r) r
        totalCancelled := s.totalCancelled + 1 } := by
    simp only [cancelRequest, hfind]
  rw [heq]
  refine L.moved_completed (L.pending r hr).1 (L.not_completed_of_pending hr) rfl
    (idOf_call clock .cancel (fun _ _ => rfl) s r)
    (fun x hx => statusOf_call_of_ne clock _ s hx) ?_ ?_ rfl ?_
  · refine eraseP_eq_erase fun x hx => ?_
    rw [decide_eq_true_iff]
    exact ⟨L.ids_inj x r (L.lt_next x (L.pending x hx).1) (L.lt_next r (L.pending r hr).1),
      fun h => congrArg s.idOf h⟩
  · exact (OrderedDict.erase_of_not_mem (L.not_running_of_pending hr)).symm
  · exact Or.inr (congrArg ScheduledRequest.status (request_call_self clock _ s r))

/-- Cancelling a running request. -/
theorem moved_cancel_running (L : Ledger acc s) (clock : ℕ → ℚ) {k : String}
    (hfind : s.pending.find? (fun r => (s.request r).requestId = k) = none)
    (hr : s.running.get? k = some r) : Moved .completed r s (s.cancelRequest clock k).2 := by
  obtain ⟨hacc, rfl, -⟩ := L.running k r hr
  have heq : (s.cancelRequest clock (s.idOf r)).2 =
      { s.call clock r .cancel with
        running := s.running.erase (s.idOf r)
        completed := s.completed.insert (s.idOf r) r
        totalCancelled := s.totalCancelled + 1 } := by
    simp only [cancelRequest, hfind, hr]
  have hpend : r ∉ s.pending := fun hp =>
    L.not_running_of_pending hp (OrderedDict.mem_keys_of_get? hr)
  rw [heq]
  refine L.moved_completed hacc (L.not_completed_of_running hr) rfl
    (idOf_call clock .cancel (fun _ _ => rfl) s r)
    (fun x hx => statusOf_call_of_ne clock _ s hx) ?_ rfl rfl ?_
  · exact (List.erase_of_not_mem hpend).symm
  · exact Or.inr (congrArg ScheduledRequest.status (request_call_self clock _ s r))

/-- Starting a request that has just been taken off the queue, whose rest is `rest`: the move is
    from the queue as it was with `r` in front. -/
theorem moved_startRunning (clock : ℕ → ℚ) {rest : List Ref}
    (L : Ledger acc { s with pending := r :: rest }) :
    Moved .running r { s with pending := r :: rest }
      { s.startRunning clock r with pending := rest } := by
  have hr : r ∈ ({ s with pending := r :: rest } : RequestScheduler).pending := List.mem_cons_self
  have hid : (s.call clock r .start).idOf r = s.idOf r :=
    idOf_call clock .start (fun _ _ => rfl) s r r
  refine ⟨rfl, idOf_call clock .start (fun _ _ => rfl) s r,
    fun x hx => statusOf_call_of_ne clock .start s hx, ?_, ?_, ?_, ?_⟩
  · exact (List.erase_cons_head r rest).symm
  · intro k x
    change (s.running.insert ((s.call clock r .start).idOf r) r).get? k = some x ↔ _
    rw [hid]
    refine (get?_insert_iff (s := { s with pending := r :: rest }) k x
      (fun y hy => L.running_eq (L.pending r hr).1 hy)
      fun k y hy => (L.running k y hy).2.1).trans ?_
    simp [idOf, request]
  · intro k x
    refine (get?_same_iff (s := { s with pending := r :: rest }) k x (L.not_completed_of_pending hr)
      fun k y hy => (L.completed k y hy).2.1).trans ?_
    simp
  · exact congrArg ScheduledRequest.status (request_call_self clock _ s r)

end Ledger

end RequestScheduler

end ModelServing
