import Mathlib

/-! Insertion-ordered dictionaries: a list of key/value pairs in the order the keys were first
    inserted, with the proof that no key occurs twice carried as a field.

    Assigning to a present key keeps its place, assigning to a new key appends it, `moveToEnd` and
    `popFirst` are the two extra moves of an ordered dictionary used as a recency queue. Everything
    is read off `get?`; the order itself is read off `keys`, `values` and `entries`. -/

structure OrderedDict (κ ν : Type*) where
  entries : List (κ × ν)
  nodup : (entries.map Prod.fst).Nodup

namespace OrderedDict

variable {κ ν α : Type*}

/-- Keeping or rewriting pairs without touching keys keeps the keys distinct. -/
theorem nodup_keys_filter {l : List (κ × ν)} (h : (l.map Prod.fst).Nodup) (p : κ × ν → Bool) :
    ((l.filter p).map Prod.fst).Nodup :=
  h.sublist (List.filter_sublist.map _)

def empty : OrderedDict κ ν := ⟨[], List.nodup_nil⟩

def keys (d : OrderedDict κ ν) : List κ := d.entries.map Prod.fst

def values (d : OrderedDict κ ν) : List ν := d.entries.map Prod.snd

def size (d : OrderedDict κ ν) : ℕ := d.entries.length

theorem keys_nodup (d : OrderedDict κ ν) : d.keys.Nodup := d.nodup

theorem entries_nodup (d : OrderedDict κ ν) : d.entries.Nodup := d.nodup.of_map

theorem length_keys (d : OrderedDict κ ν) : d.keys.length = d.size := by simp [keys, size]

theorem ext_entries {d d' : OrderedDict κ ν} (h : d.entries = d'.entries) : d = d' := by
  cases d; cases d'; simp_all

/-- The oldest pair and the rest, when there is one. -/
def popFirst : OrderedDict κ ν → Option ((κ × ν) × OrderedDict κ ν)
  | ⟨[], _⟩ => none
  | ⟨p :: rest, h⟩ => some (p, ⟨rest, (List.nodup_cons.mp h).2⟩)

@[simp] theorem keys_empty : (empty : OrderedDict κ ν).keys = [] := rfl
@[simp] theorem size_empty : (empty : OrderedDict κ ν).size = 0 := rfl

theorem popFirst_eq_none_iff {d : OrderedDict κ ν} : d.popFirst = none ↔ d.keys = [] := by
  obtain ⟨l, h⟩ := d
  cases l <;> simp [popFirst, keys]

theorem head?_keys_of_popFirst {d d' : OrderedDict κ ν} {p : κ × ν} (h : d.popFirst = some (p, d')) :
    d.keys.head? = some p.1 := by
  obtain ⟨l, hl⟩ := d
  cases l <;> simp_all [popFirst, keys]

variable [DecidableEq κ]

def get? (d : OrderedDict κ ν) (k : κ) : Option ν := d.entries.lookup k

def insert (d : OrderedDict κ ν) (k : κ) (v : ν) : OrderedDict κ ν where
  entries := if k ∈ d.keys then d.entries.map (fun p => if p.1 = k then (k, v) else p)
    else d.entries ++ [(k, v)]
  nodup := by
    split
    · have : (fun p : κ × ν => (if p.1 = k then (k, v) else p).1) = Prod.fst := by
        funext p; split <;> simp_all
      simpa [Function.comp_def, this] using d.nodup
    · rename_i h
      rw [List.map_append]
      exact d.nodup.append (List.nodup_singleton _) (by simpa [keys] using h)

def erase (d : OrderedDict κ ν) (k : κ) : OrderedDict κ ν :=
  ⟨d.entries.filter (fun p => p.1 ≠ k), nodup_keys_filter d.nodup _⟩

def modify (d : OrderedDict κ ν) (k : κ) (f : ν → ν) : OrderedDict κ ν where
  entries := d.entries.map (fun p => if p.1 = k then (p.1, f p.2) else p)
  nodup := by
    have : (fun p : κ × ν => (if p.1 = k then (p.1, f p.2) else p).1) = Prod.fst := by
      funext p; split <;> rfl
    simpa [Function.comp_def, this] using d.nodup

/-- Make `k` the newest key, if it is there at all. -/
def moveToEnd (d : OrderedDict κ ν) (k : κ) : OrderedDict κ ν :=
  match d.get? k with
  | none => d
  | some v => (d.erase k).insert k v

/-! ### Reading -/

theorem lookup_eq_some_iff {l : List (κ × ν)} (h : (l.map Prod.fst).Nodup) {k : κ} {v : ν} :
    l.lookup k = some v ↔ (k, v) ∈ l := by
  induction l with
  | nil => simp
  | cons p l ih =>
    obtain ⟨k', v'⟩ := p
    obtain ⟨hk, hl⟩ := List.nodup_cons.mp h
    by_cases hkk : k = k'
    · have hnot : (k, v) ∉ l := fun hm => hk (List.mem_map.mpr ⟨_, hm, hkk⟩)
      simp [hkk, hkk ▸ hnot, eq_comm]
    · have : (k == k') = false := by simpa using hkk
      simp [List.lookup_cons, this, hkk, ih hl]

theorem get?_eq_some_iff {d : OrderedDict κ ν} {k : κ} {v : ν} :
    d.get? k = some v ↔ (k, v) ∈ d.entries := lookup_eq_some_iff d.nodup

theorem mem_keys_iff {d : OrderedDict κ ν} {k : κ} : k ∈ d.keys ↔ ∃ v, d.get? k = some v := by
  simp [keys, get?_eq_some_iff]

theorem mem_keys_of_get? {d : OrderedDict κ ν} {k : κ} {v : ν} (h : d.get? k = some v) :
    k ∈ d.keys := mem_keys_iff.mpr ⟨v, h⟩

theorem get?_eq_none_iff {d : OrderedDict κ ν} {k : κ} : d.get? k = none ↔ k ∉ d.keys := by
  rw [mem_keys_iff, Option.eq_none_iff_forall_ne_some]; simp

theorem mem_values_iff {d : OrderedDict κ ν} {v : ν} :
    v ∈ d.values ↔ ∃ k, d.get? k = some v := by
  simp [values, get?_eq_some_iff]

@[simp] theorem get?_empty (k : κ) : (empty : OrderedDict κ ν).get? k = none := rfl

/-! ### Membership after each operation, from which the rest follows -/

theorem mem_entries_insert {d : OrderedDict κ ν} {k : κ} {v : ν} {p : κ × ν} :
    p ∈ (d.insert k v).entries ↔ p = (k, v) ∨ (p ∈ d.entries ∧ p.1 ≠ k) := by
  by_cases hk : k ∈ d.keys
  · simp only [insert, if_pos hk, List.mem_map]
    constructor
    · rintro ⟨q, hq, rfl⟩
      by_cases hqk : q.1 = k
      · exact Or.inl (by rw [if_pos hqk])
      · exact Or.inr (by rw [if_neg hqk]; exact ⟨hq, hqk⟩)
    · rintro (rfl | ⟨hp, hpk⟩)
      · obtain ⟨q, hq, hqk⟩ := List.mem_map.mp hk
        exact ⟨q, hq, if_pos hqk⟩
      · exact ⟨p, hp, if_neg hpk⟩
  · have hne : p ∈ d.entries → p.1 ≠ k := fun hp h => hk (h ▸ List.mem_map_of_mem hp)
    simp only [insert, if_neg hk, List.mem_append, List.mem_singleton]
    tauto

theorem mem_entries_erase {d : OrderedDict κ ν} {k : κ} {p : κ × ν} :
    p ∈ (d.erase k).entries ↔ p ∈ d.entries ∧ p.1 ≠ k := by
  simp [erase]

theorem get?_insert (d : OrderedDict κ ν) (k k' : κ) (v : ν) :
    (d.insert k v).get? k' = if k' = k then some v else d.get? k' := by
  ext w
  rw [get?_eq_some_iff, mem_entries_insert]
  by_cases h : k' = k
  · subst h; simp [eq_comm]
  · simp [h, get?_eq_some_iff]

theorem get?_erase (d : OrderedDict κ ν) (k k' : κ) :
    (d.erase k).get? k' = if k' = k then none else d.get? k' := by
  ext w
  rw [get?_eq_some_iff, mem_entries_erase]
  by_cases h : k' = k <;> simp [h, get?_eq_some_iff]

theorem get?_modify (d : OrderedDict κ ν) (k k' : κ) (f : ν → ν) :
    (d.modify k f).get? k' = if k' = k then (d.get? k').map f else d.get? k' := by
  ext w
  rw [get?_eq_some_iff]
  simp only [modify, List.mem_map]
  constructor
  · rintro ⟨⟨k₁, v₁⟩, hq, hqe⟩
    split at hqe
    · rename_i hk
      cases hqe; subst hk
      simp [get?_eq_some_iff.mpr hq]
    · rename_i hk
      cases hqe
      simp [show k' ≠ k from hk, get?_eq_some_iff.mpr hq]
  · intro h
    by_cases hk : k' = k
    · rw [if_pos hk, Option.map_eq_some_iff] at h
      obtain ⟨v, hv, rfl⟩ := h
      exact ⟨(k', v), get?_eq_some_iff.mp hv, by simp [hk]⟩
    · rw [if_neg hk] at h
      exact ⟨(k', w), get?_eq_some_iff.mp h, by simp [hk]⟩

theorem get?_of_erase {d : OrderedDict κ ν} {k k' : κ} {v : ν}
    (h : (d.erase k).get? k' = some v) : d.get? k' = some v := by
  rw [get?_erase] at h
  split at h
  · cases h
  · exact h

@[simp] theorem get?_insert_self (d : OrderedDict κ ν) (k : κ) (v : ν) :
    (d.insert k v).get? k = some v := by simp [get?_insert]

theorem get?_insert_of_ne (d : OrderedDict κ ν) {k k' : κ} (v : ν) (h : k' ≠ k) :
    (d.insert k v).get? k' = d.get? k' := by simp [get?_insert, h]

@[simp] theorem get?_erase_self (d : OrderedDict κ ν) (k : κ) : (d.erase k).get? k = none := by
  simp [get?_erase]

theorem get?_erase_of_ne (d : OrderedDict κ ν) {k k' : κ} (h : k' ≠ k) :
    (d.erase k).get? k' = d.get? k' := by simp [get?_erase, h]

/-! ### Keys and sizes -/

theorem mem_keys_insert {d : OrderedDict κ ν} {k k' : κ} {v : ν} :
    k' ∈ (d.insert k v).keys ↔ k' = k ∨ k' ∈ d.keys := by
  rw [mem_keys_iff, get?_insert]
  by_cases h : k' = k <;> simp [h, mem_keys_iff]

theorem mem_keys_erase {d : OrderedDict κ ν} {k k' : κ} :
    k' ∈ (d.erase k).keys ↔ k' ≠ k ∧ k' ∈ d.keys := by
  rw [mem_keys_iff, get?_erase]
  by_cases h : k' = k <;> simp [h, mem_keys_iff]

@[simp] theorem keys_modify (d : OrderedDict κ ν) (k : κ) (f : ν → ν) :
    (d.modify k f).keys = d.keys := by
  have : (fun p : κ × ν => (if p.1 = k then (p.1, f p.2) else p).1) = Prod.fst := by
    funext p; split <;> rfl
  simp [keys, modify, Function.comp_def, this]

@[simp] theorem size_modify (d : OrderedDict κ ν) (k : κ) (f : ν → ν) :
    (d.modify k f).size = d.size := by simp [size, modify]

theorem entries_insert_of_mem {d : OrderedDict κ ν} {k : κ} (v : ν) (h : k ∈ d.keys) :
    (d.insert k v).entries = d.entries.map fun p => if p.1 = k then (k, v) else p := by
  simp [insert, h]

theorem entries_insert_of_not_mem {d : OrderedDict κ ν} {k : κ} (v : ν) (h : k ∉ d.keys) :
    (d.insert k v).entries = d.entries ++ [(k, v)] := by simp [insert, h]

theorem size_insert_of_not_mem {d : OrderedDict κ ν} {k : κ} (v : ν) (h : k ∉ d.keys) :
    (d.insert k v).size = d.size + 1 := by simp [size, insert, h]

theorem size_insert_of_mem {d : OrderedDict κ ν} {k : κ} (v : ν) (h : k ∈ d.keys) :
    (d.insert k v).size = d.size := by simp [size, insert, h]

theorem size_insert_le (d : OrderedDict κ ν) (k : κ) (v : ν) : (d.insert k v).size ≤ d.size + 1 := by
  by_cases hk : k ∈ d.keys
  · rw [size_insert_of_mem _ hk]
    exact Nat.le_succ _
  · exact (size_insert_of_not_mem _ hk).le

theorem erase_of_not_mem {d : OrderedDict κ ν} {k : κ} (h : k ∉ d.keys) : d.erase k = d := by
  apply ext_entries
  refine List.filter_eq_self.mpr fun p hp => ?_
  have : p.1 ≠ k := fun hk => h (hk ▸ List.mem_map_of_mem hp)
  simpa using this

/-- Taking a key out and putting it in front rearranges the pairs. -/
theorem entries_perm_erase {d : OrderedDict κ ν} {k : κ} {v : ν} (h : d.get? k = some v) :
    d.entries.Perm ((k, v) :: (d.erase k).entries) := by
  have hnot : (k, v) ∉ (d.erase k).entries := fun hm => (mem_entries_erase.mp hm).2 rfl
  refine (List.perm_ext_iff_of_nodup d.entries_nodup
    (List.nodup_cons.mpr ⟨hnot, (d.erase k).entries_nodup⟩)).mpr fun p => ?_
  rw [List.mem_cons, mem_entries_erase]
  constructor
  · intro hp
    by_cases hk : p.1 = k
    · left
      have := (get?_eq_some_iff (d := d) (k := k) (v := p.2)).mpr (hk ▸ hp)
      rw [h] at this
      exact Prod.ext hk (Option.some.inj this).symm
    · exact Or.inr ⟨hp, hk⟩
  · rintro (rfl | ⟨hp, _⟩)
    · exact get?_eq_some_iff.mp h
    · exact hp

theorem entries_perm_insert (d : OrderedDict κ ν) (k : κ) (v : ν) :
    (d.insert k v).entries.Perm ((k, v) :: (d.erase k).entries) := by
  have hnot : (k, v) ∉ (d.erase k).entries := fun hm => (mem_entries_erase.mp hm).2 rfl
  refine (List.perm_ext_iff_of_nodup (d.insert k v).entries_nodup
    (List.nodup_cons.mpr ⟨hnot, (d.erase k).entries_nodup⟩)).mpr fun p => ?_
  rw [List.mem_cons, mem_entries_erase, mem_entries_insert]

theorem size_erase_of_get? {d : OrderedDict κ ν} {k : κ} {v : ν} (h : d.get? k = some v) :
    d.size = (d.erase k).size + 1 := by
  simpa [size] using (entries_perm_erase h).length_eq

theorem size_erase_le (d : OrderedDict κ ν) (k : κ) : (d.erase k).size ≤ d.size :=
  List.length_filter_le _ _

/-! ### Recency -/

theorem get?_moveToEnd (d : OrderedDict κ ν) (k k' : κ) :
    (d.moveToEnd k).get? k' = d.get? k' := by
  unfold moveToEnd
  cases h : d.get? k with
  | none => rfl
  | some v =>
    simp only [get?_insert, get?_erase]
    split
    · rename_i hk; rw [hk, h]
    · rfl

theorem mem_keys_moveToEnd {d : OrderedDict κ ν} {k k' : κ} :
    k' ∈ (d.moveToEnd k).keys ↔ k' ∈ d.keys := by
  rw [mem_keys_iff, mem_keys_iff, get?_moveToEnd]

theorem insert_insert (d : OrderedDict κ ν) (k : κ) (v w : ν) :
    (d.insert k v).insert k w = d.insert k w := by
  apply ext_entries
  rw [entries_insert_of_mem _ (mem_keys_insert.mpr (Or.inl rfl))]
  by_cases hk : k ∈ d.keys
  · rw [entries_insert_of_mem _ hk, entries_insert_of_mem _ hk, List.map_map]
    refine List.map_congr_left fun p _ => ?_
    by_cases hp : p.1 = k <;> simp [hp]
  · have hne : ∀ p ∈ d.entries, p.1 ≠ k := fun p hp h => hk (h ▸ List.mem_map_of_mem hp)
    rw [entries_insert_of_not_mem _ hk, entries_insert_of_not_mem _ hk, List.map_append]
    congr 1
    · exact (List.map_congr_left fun p hp => if_neg (hne p hp)).trans (List.map_id _)
    · simp

/-- Moved to the end and stored again, a key comes last whether it was there or not. -/
theorem entries_moveToEnd_insert (d : OrderedDict κ ν) (k : κ) (w : ν) :
    ((d.moveToEnd k).insert k w).entries = (d.erase k).entries ++ [(k, w)] := by
  have hnot : k ∉ (d.erase k).keys := fun h => (mem_keys_erase.mp h).1 rfl
  unfold moveToEnd
  cases h : d.get? k with
  | none =>
    have hk := get?_eq_none_iff.mp h
    rw [erase_of_not_mem hk]
    exact entries_insert_of_not_mem _ hk
  | some v =>
    simp only
    rw [insert_insert, entries_insert_of_not_mem _ hnot]

theorem erase_erase (d : OrderedDict κ ν) (k : κ) : (d.erase k).erase k = d.erase k :=
  erase_of_not_mem fun h => (mem_keys_erase.mp h).1 rfl

theorem moveToEnd_insert_twice (d : OrderedDict κ ν) (k : κ) (v w : ν) :
    ((((d.moveToEnd k).insert k v).moveToEnd k).insert k w) = (d.moveToEnd k).insert k w := by
  apply ext_entries
  have herase : (((d.moveToEnd k).insert k v).erase k).entries = (d.erase k).entries := by
    change ((d.moveToEnd k).insert k v).entries.filter _ = _
    rw [entries_moveToEnd_insert, List.filter_append]
    have hlast : [(k, v)].filter (fun p : κ × ν => decide (p.1 ≠ k)) = [] := by simp
    rw [hlast, List.append_nil]
    exact congrArg entries (erase_erase d k)
  rw [entries_moveToEnd_insert, entries_moveToEnd_insert, herase]

theorem popFirst_eq_some {d d' : OrderedDict κ ν} {k : κ} {v : ν}
    (h : d.popFirst = some ((k, v), d')) : d.get? k = some v ∧ d' = d.erase k := by
  obtain ⟨l, hl⟩ := d
  cases l with
  | nil => simp [popFirst] at h
  | cons p rest =>
    simp only [popFirst, Option.some.injEq, Prod.mk.injEq] at h
    obtain ⟨rfl, rfl⟩ := h
    refine ⟨get?_eq_some_iff.mpr List.mem_cons_self, ext_entries ?_⟩
    have hne : ∀ q ∈ rest, q.1 ≠ k := fun q hq hk =>
      (List.nodup_cons.mp hl).1 (List.mem_map.mpr ⟨q, hq, hk⟩)
    simp only [erase, ne_eq, decide_not]
    rw [List.filter_cons_of_neg (by simp)]
    exact (List.filter_eq_self.mpr fun q hq => by simpa using hne q hq).symm

/-! ### Lists stored under the keys -/

/-- Everything the dictionary stores, where each value stands for a list of items. -/
def items (d : OrderedDict κ ν) (f : ν → List α) : List α := d.values.flatMap f

theorem mem_items_iff {d : OrderedDict κ ν} {f : ν → List α} {a : α} :
    a ∈ d.items f ↔ ∃ k v, d.get? k = some v ∧ a ∈ f v := by
  simp only [items, List.mem_flatMap, mem_values_iff]
  constructor
  · rintro ⟨v, ⟨k, h⟩, ha⟩; exact ⟨k, v, h, ha⟩
  · rintro ⟨k, v, h, ha⟩; exact ⟨v, ⟨k, h⟩, ha⟩

theorem items_perm_erase {d : OrderedDict κ ν} {k : κ} {v : ν} (f : ν → List α)
    (h : d.get? k = some v) : (d.items f).Perm (f v ++ (d.erase k).items f) := by
  simpa [items, values] using ((entries_perm_erase h).map Prod.snd).flatMap_right f

theorem items_perm_insert (d : OrderedDict κ ν) (k : κ) (v : ν) (f : ν → List α) :
    ((d.insert k v).items f).Perm (f v ++ (d.erase k).items f) := by
  simpa [items, values] using ((entries_perm_insert d k v).map Prod.snd).flatMap_right f

theorem items_erase_sublist (d : OrderedDict κ ν) (k : κ) (f : ν → List α) :
    ((d.erase k).items f).Sublist (d.items f) :=
  (List.filter_sublist.map Prod.snd).flatMap f

/-! ### Counting the values -/

/-- How many values pass the test. -/
def countP (d : OrderedDict κ ν) (p : ν → Bool) : ℕ := d.values.countP p

omit [DecidableEq κ] in
theorem countP_eq (d : OrderedDict κ ν) (p : ν → Bool) :
    d.countP p = ((d.entries.filter fun x => p x.2).map Prod.fst).length := by
  rw [countP, values, List.countP_map, List.countP_eq_length_filter, List.length_map]
  rfl

theorem countP_eq_size {d : OrderedDict κ ν} {p : ν → Bool} (h : ∀ k v, d.get? k = some v → p v = true) :
    d.countP p = d.size := by
  have hall : ∀ v ∈ d.values, p v = true := fun v hv => by
    obtain ⟨k, hk⟩ := mem_values_iff.mp hv
    exact h k v hk
  rw [countP, List.countP_eq_length.mpr hall, values, List.length_map, size]

/-- Where each key that passes in `d'` passes in `d`, `d'` counts no more. -/
theorem countP_le {μ : Type*} {d : OrderedDict κ ν} {d' : OrderedDict κ μ} {p : ν → Bool} {p' : μ → Bool}
    (h : ∀ k v', d'.get? k = some v' → p' v' = true → ∃ v, d.get? k = some v ∧ p v = true) :
    d'.countP p' ≤ d.countP p := by
  rw [countP_eq, countP_eq]
  refine ((nodup_keys_filter d'.nodup fun x => p' x.2).subperm ?_).length_le
  rintro k hk
  obtain ⟨⟨k, v'⟩, hmem, rfl⟩ := List.mem_map.mp hk
  obtain ⟨hmem, hp'⟩ := List.mem_filter.mp hmem
  obtain ⟨v, hv, hp⟩ := h k v' (get?_eq_some_iff.mpr hmem) hp'
  exact List.mem_map.mpr ⟨(k, v), List.mem_filter.mpr ⟨get?_eq_some_iff.mp hv, hp⟩, rfl⟩

theorem countP_insert_le (d : OrderedDict κ ν) (k : κ) (v : ν) (p : ν → Bool) :
    (d.insert k v).countP p ≤ d.countP p + 1 := by
  have hperm := ((entries_perm_insert d k v).map Prod.snd).countP_eq p
  have hle : (d.erase k).countP p ≤ d.countP p := countP_le fun k' v' hv' hp => by
    rw [get?_erase] at hv'
    split at hv'
    · cases hv'
    · exact ⟨v', hv', hp⟩
  have hcons : ((d.insert k v).countP p) = (v :: (d.erase k).values).countP p := hperm
  rw [hcons, List.countP_cons]
  rw [countP] at hle
  split <;> omega

/-! ### Mapping the values -/

theorem map_get?_keys {α : Type*} (d : OrderedDict κ ν) (f : ν → α) :
    (d.keys.map fun k => (d.get? k).map f) = (d.values.map f).map some := by
  rw [keys, values, List.map_map, List.map_map, List.map_map]
  refine List.map_congr_left fun p hp => ?_
  simp [get?_eq_some_iff.mpr hp]

/-- Two dicts with the same keys, compared value by value. -/
theorem map_values_of_keys {μ α : Type*} {d : OrderedDict κ ν} {d' : OrderedDict κ μ} {f : ν → α}
    {f' : μ → α} (hkeys : d'.keys = d.keys)
    (h : ∀ k v v', d.get? k = some v → d'.get? k = some v' → f' v' = f v) :
    d'.values.map f' = d.values.map f := by
  refine List.map_injective_iff.mpr (Option.some_injective α) ?_
  rw [← map_get?_keys, ← map_get?_keys, hkeys]
  refine List.map_congr_left fun k hk => ?_
  obtain ⟨v, hv⟩ := mem_keys_iff.mp hk
  obtain ⟨v', hv'⟩ := mem_keys_iff.mp (hkeys ▸ hk)
  rw [hv, hv', Option.map_some, Option.map_some, h k v v' hv hv']

theorem values_insert_of_not_mem {d : OrderedDict κ ν} {k : κ} (v : ν) (h : k ∉ d.keys) :
    (d.insert k v).values = d.values ++ [v] := by
  rw [values, entries_insert_of_not_mem v h, List.map_append]
  rfl

/-! ### Sums over the values -/

/-- The sum of `f` over the values. -/
def total (d : OrderedDict κ ν) (f : ν → ℕ) : ℕ := (d.values.map f).sum

theorem total_erase {d : OrderedDict κ ν} {k : κ} {v : ν} (f : ν → ℕ) (h : d.get? k = some v) :
    d.total f = f v + (d.erase k).total f := by
  have hperm := ((entries_perm_erase h).map Prod.snd).map f
  rw [total, values, hperm.sum_eq, List.map_cons, List.map_cons, List.sum_cons]
  rfl

theorem total_insert_of_not_mem {d : OrderedDict κ ν} {k : κ} (v : ν) (f : ν → ℕ) (h : k ∉ d.keys) :
    (d.insert k v).total f = d.total f + f v := by
  rw [total, values_insert_of_not_mem v h, List.map_append, List.sum_append, List.map_singleton,
    List.sum_singleton, total]

/-- Every value grows by one. -/
theorem total_succ {d d' : OrderedDict κ ν} {f : ν → ℕ} (hkeys : d'.keys = d.keys)
    (h : ∀ k v v', d.get? k = some v → d'.get? k = some v' → f v' = f v + 1) :
    d'.total f = d.total f + d.size := by
  have hsum : ∀ l : List ν, (l.map fun v => f v + 1).sum = (l.map f).sum + l.length := fun l => by
    rw [List.sum_map_add, List.map_const', List.sum_replicate, smul_eq_mul, mul_one]
  rw [total, map_values_of_keys (f := fun v => f v + 1) hkeys h, hsum, total, values, List.length_map, size]

section Map

variable {μ : Type*} (g : ν → μ)

/-- The same keys, with `g` of each value. -/
def map (d : OrderedDict κ ν) : OrderedDict κ μ :=
  ⟨d.entries.map fun p => (p.1, g p.2), by simpa [Function.comp_def] using d.nodup⟩

omit [DecidableEq κ] in
@[simp] theorem keys_map (d : OrderedDict κ ν) : (d.map g).keys = d.keys := by simp [map, keys]

omit [DecidableEq κ] in
@[simp] theorem values_map (d : OrderedDict κ ν) : (d.map g).values = d.values.map g := by
  simp [map, values]

omit [DecidableEq κ] in
@[simp] theorem size_map (d : OrderedDict κ ν) : (d.map g).size = d.size := by simp [map, size]

@[simp] theorem get?_map (d : OrderedDict κ ν) (k : κ) : (d.map g).get? k = (d.get? k).map g := by
  ext w
  simp [get?_eq_some_iff, map]

theorem map_insert (d : OrderedDict κ ν) (k : κ) (v : ν) :
    (d.insert k v).map g = (d.map g).insert k (g v) := by
  apply ext_entries
  by_cases hk : k ∈ d.keys
  · have hk' : k ∈ (d.map g).keys := by rwa [keys_map]
    rw [entries_insert_of_mem _ hk']
    simp only [map, entries_insert_of_mem _ hk, List.map_map]
    refine List.map_congr_left fun p _ => ?_
    by_cases hp : p.1 = k <;> simp [hp]
  · have hk' : k ∉ (d.map g).keys := by rwa [keys_map]
    rw [entries_insert_of_not_mem _ hk']
    simp [map, entries_insert_of_not_mem _ hk]

theorem map_erase (d : OrderedDict κ ν) (k : κ) : (d.erase k).map g = (d.map g).erase k := by
  apply ext_entries
  simp [erase, map, List.filter_map, Function.comp_def]

theorem map_modify (d : OrderedDict κ ν) (k : κ) {f : ν → ν} {f' : μ → μ}
    (h : ∀ v, d.get? k = some v → g (f v) = f' (g v)) :
    (d.modify k f).map g = (d.map g).modify k f' := by
  apply ext_entries
  simp only [modify, map, List.map_map]
  refine List.map_congr_left fun p hp => ?_
  by_cases hk : p.1 = k
  · simp [hk, h p.2 (get?_eq_some_iff.mpr (hk ▸ hp))]
  · simp [hk]

end Map

end OrderedDict
