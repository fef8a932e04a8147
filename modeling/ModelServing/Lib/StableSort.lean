import Mathlib

/-! Stable sorting. A stable sort by `le` leaves tied elements in the order of the list. If the list
    has its ties in the order `old`, the result is the list sorted by `le` with ties broken by `old`,
    of which there is only one. -/

namespace StableSort

variable {α : Type*} {le old : α → α → Prop}

/-- `le`, with ties broken by `old`. -/
def Tiebreak (le old : α → α → Prop) (a b : α) : Prop := le a b ∧ (le b a → old a b)

/-- Elements tied under `le` stand in the order `old`. -/
def TiesInOrder (le old : α → α → Prop) (l : List α) : Prop :=
  l.Pairwise fun a b => le a b → le b a → old a b

instance [DecidableRel le] [DecidableRel old] : DecidableRel (Tiebreak le old) :=
  fun _ _ => inferInstanceAs (Decidable (_ ∧ _))

instance [Std.Total le] [Std.Total old] : Std.Total (Tiebreak le old) where
  total a b := by
    by_cases hab : le a b <;> by_cases hba : le b a
    · exact (Std.Total.total (r := old) a b).imp (fun h => ⟨hab, fun _ => h⟩) fun h => ⟨hba, fun _ => h⟩
    · exact Or.inl ⟨hab, fun h => absurd h hba⟩
    · exact Or.inr ⟨hba, fun h => absurd h hab⟩
    · exact absurd (Std.Total.total (r := le) a b) (by simp [hab, hba])

instance [IsTrans α le] [IsTrans α old] : IsTrans α (Tiebreak le old) where
  trans _ _ _ h h' := ⟨trans_of le h.1 h'.1, fun hca =>
    trans_of old (h.2 (trans_of le h'.1 hca)) (h'.2 (trans_of le hca h.1))⟩

instance [Std.Antisymm old] : Std.Antisymm (Tiebreak le old) where
  antisymm _ _ h h' := Std.Antisymm.antisymm (r := old) _ _ (h.2 h'.1) (h'.2 h.1)

theorem TiesInOrder.sublist {l l' : List α} (h : TiesInOrder le old l) (hs : l'.Sublist l) :
    TiesInOrder le old l' := List.Pairwise.sublist hs h

/-- Two elements of a list stand in one order or the other. -/
theorem pair_sublist {a b : α} (hne : a ≠ b) : ∀ {l : List α}, a ∈ l → b ∈ l →
    [a, b].Sublist l ∨ [b, a].Sublist l
  | x :: l, ha, hb => by
      rcases List.mem_cons.mp ha with rfl | hal <;> rcases List.mem_cons.mp hb with rfl | hbl
      · exact absurd rfl hne
      · exact Or.inl (List.cons_sublist_cons.mpr (List.singleton_sublist.mpr hbl))
      · exact Or.inr (List.cons_sublist_cons.mpr (List.singleton_sublist.mpr hal))
      · exact (pair_sublist hne hal hbl).imp (·.cons x) (·.cons x)

/-- Without duplicates they stand in only one. -/
theorem not_both_sublist {a b : α} : ∀ {l : List α}, l.Nodup → [a, b].Sublist l →
    ¬ [b, a].Sublist l
  | [], _, h, _ => by simp at h
  | x :: l, hnd, h, h' => by
      obtain ⟨hx, hl⟩ := List.nodup_cons.mp hnd
      cases h with
      | cons _ h =>
        cases h' with
        | cons _ h' => exact not_both_sublist hl h h'
        | cons_cons _ h' => exact hx (h.subset (by simp))
      | cons_cons _ h =>
        cases h' with
        | cons _ h' => exact hx (h'.subset (by simp))
        | cons_cons _ h' => exact hx (h.subset (by simp))

/-- The result of a stable sort is sorted by `Tiebreak`. -/
theorem pairwise_tiebreak [DecidableRel le] [Std.Total le] [IsTrans α le] {l : List α} (hnd : l.Nodup)
    (h : TiesInOrder le old l) : (l.insertionSort le).Pairwise (Tiebreak le old) := by
  rw [List.pairwise_iff_forall_sublist]
  intro a b hab
  have hle : le a b :=
    List.pairwise_iff_forall_sublist.mp (List.pairwise_insertionSort le l) hab
  refine ⟨hle, fun hba => ?_⟩
  have hnd' : (l.insertionSort le).Nodup := (List.perm_insertionSort le l).nodup_iff.mpr hnd
  have hne : a ≠ b := by simpa using hnd'.sublist hab
  have hmem : ∀ x ∈ [a, b], x ∈ l := fun x hx =>
    (List.mem_insertionSort le).mp (hab.subset hx)
  rcases pair_sublist hne (hmem a (by simp)) (hmem b (by simp)) with hl | hl
  · exact List.pairwise_iff_forall_sublist.mp h hl hle hba
  · exact absurd (List.pair_sublist_insertionSort hba hl) (not_both_sublist hnd' hab)

/-- There is one list sorted by `Tiebreak`. -/
theorem eq_insertionSort [DecidableRel le] [DecidableRel old] [Std.Total le] [IsTrans α le]
    [Std.Total old] [IsTrans α old] [Std.Antisymm old] {l l' : List α} (hp : l'.Perm l)
    (h : l'.Pairwise (Tiebreak le old)) : l' = l.insertionSort (Tiebreak le old) :=
  (hp.trans (List.perm_insertionSort _ l).symm).eq_of_pairwise' h (List.pairwise_insertionSort _ l)

end StableSort
