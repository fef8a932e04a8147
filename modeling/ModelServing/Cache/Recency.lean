import ModelServing.Cache.Effects

/-! The recency order lists the live sequences, unless somebody has looked up a dead id: `_touch`
    inserts it, and the eviction that comes to it raises. -/

namespace ModelServing

namespace CacheManager

variable {m m' : CacheManager} {numBlocks blockSize : ℕ} {evs : List Event} {s : String}

/-- `_access_order` and `_block_tables` have the same keys. -/
def Keyed (m : CacheManager) : Prop := ∀ k, k ∈ m.accessOrder.keys ↔ k ∈ m.blockTables.keys

/-- Only live sequences are looked up. -/
def Known (m : CacheManager) : Call → Prop
  | .getBlockTable s => s ∈ m.blockTables.keys
  | _ => True

theorem mem_keys_touch (m : CacheManager) (s k : String) :
    k ∈ (m.touch s).accessOrder.keys ↔ k = s ∨ k ∈ m.accessOrder.keys := by
  rw [touch, OrderedDict.mem_keys_insert, OrderedDict.mem_keys_moveToEnd]

/-! ### One call -/

theorem Keyed.allocateSequence (K : m.Keyed) (h : m.Owned) (s : String) (n : ℕ) :
    (m.allocateSequence s n).2.Keyed := by
  rcases ha : m.allocateSequence s n with ⟨err | t, m'⟩
  · rcases allocateSequence_cases m s n h.free_nodup with ⟨_, _, heq⟩ | ⟨_, _, _, _, heq⟩
    · rw [ha] at heq
      obtain ⟨-, rfl⟩ := Prod.mk.inj heq
      exact K
    · rw [ha] at heq; cases heq
  · have A := h.allocated ha
    intro k
    rw [A.order, K k, OrderedDict.mem_keys_iff, OrderedDict.mem_keys_iff]
    simp only [A.tables]
    by_cases hk : k = s <;> simp [hk]

theorem Keyed.extendSequence (K : m.Keyed) (h : m.Owned) (s : String) (n : ℕ) :
    (m.extendSequence s n).2.Keyed := by
  cases ht : m.blockTables.get? s with
  | none => rw [extendSequence_of_dead n ht]; exact K
  | some t =>
    have hlive := OrderedDict.mem_keys_of_get? ht
    have htab := fillLastBlock_blockTables (m.touch s) t n
    have hord : ((m.touch s).fillLastBlock t n).1.accessOrder = (m.touch s).accessOrder := by
      rcases (h.touch s).fillLastBlock_cases n ht with ⟨_, heq⟩ | ⟨_, _, _, _, _, _, heq⟩ <;> rw [heq]
    have K₁ : ∀ k, k ∈ (m.touch s).accessOrder.keys ↔ k ∈ m.blockTables.keys := by
      intro k
      rw [mem_keys_touch, K k]
      exact ⟨fun hk => hk.elim (fun hk => hk ▸ hlive) id, Or.inr⟩
    rcases extendSequence_cases n h.blockSize_pos h.free_nodup ht with
      ⟨_, _, heq⟩ | ⟨_, m₂, t', T, heq⟩
    · rw [heq]
      intro k
      change k ∈ ((m.touch s).fillLastBlock t n).1.accessOrder.keys ↔
        k ∈ ((m.touch s).fillLastBlock t n).1.blockTables.keys
      rw [hord, htab]
      exact K₁ k
    · rw [heq]
      intro k
      change k ∈ m₂.accessOrder.keys ↔ k ∈ (m₂.blockTables.insert s t').keys
      rw [T.manager, OrderedDict.mem_keys_insert]
      change k ∈ ((m.touch s).fillLastBlock t n).1.accessOrder.keys ↔
        k = s ∨ k ∈ ((m.touch s).fillLastBlock t n).1.blockTables.keys
      rw [hord, htab, K₁ k]
      exact ⟨Or.inr, fun hk => hk.elim (fun hk => hk ▸ hlive) id⟩

theorem Keyed.of_freed (K : m.Keyed) (F : Freed m s m') : m'.Keyed := by
  intro k
  rw [F.order, K k, OrderedDict.mem_keys_iff, OrderedDict.mem_keys_iff]
  simp only [F.tables]
  by_cases hk : k = s <;> simp [hk]

theorem Keyed.freeSequence (K : m.Keyed) (h : m.Owned) (s : String) : (m.freeSequence s).Keyed := by
  cases ht : m.blockTables.get? s with
  | none => rw [freeSequence_of_dead ht]; exact K
  | some t => exact K.of_freed (h.freed ht)

theorem Keyed.evictLru_ne_error (K : m.Keyed) (err : CacheError) : m.evictLru.1 ≠ .error err := by
  intro he
  obtain ⟨v, hv, hnone⟩ := evictLru_error (Prod.ext he rfl)
  exact OrderedDict.get?_eq_none_iff.mp hnone ((K v).mp hv)

/-- Eviction comes back empty-handed exactly when no sequence is live. -/
theorem Keyed.evictLru_eq_none_iff (K : m.Keyed) :
    m.evictLru.1 = .ok none ↔ m.blockTables.keys = [] := by
  have hnil : m.accessOrder.keys = [] ↔ m.blockTables.keys = [] := by
    simp only [List.eq_nil_iff_forall_not_mem, K _]
  rw [← hnil]
  rcases evictLru_cases m with ⟨hk, heq⟩ | ⟨v, hv, _, ⟨_, heq⟩ | ⟨_, _, heq⟩⟩
  · simp [hk, heq]
  · have hne : m.accessOrder.keys ≠ [] := List.ne_nil_of_mem (OrderedDict.mem_keys_of_get? hv)
    simp [hne, heq]
  · have hne : m.accessOrder.keys ≠ [] := List.ne_nil_of_mem (OrderedDict.mem_keys_of_get? hv)
    simp [hne, heq]

theorem Keyed.evictLru (K : m.Keyed) (h : m.Owned) : m.evictLru.2.Keyed := by
  rcases he : m.evictLru with ⟨err | v, m'⟩
  · exact absurd (congrArg Prod.fst he) (K.evictLru_ne_error err)
  · cases v with
    | some v => exact K.of_freed (h.evicted he).2.2
    | none =>
      obtain ⟨-, rfl⟩ := evictLru_none he
      exact K

/-- Only the lookup of a dead id makes the two maps differ. -/
theorem Keyed.perform_iff (K : m.Keyed) (h : m.Owned) (c : Call) :
    (m.perform c).2.Keyed ↔ Known m c := by
  cases c with
  | allocateSequence s n => exact iff_of_true (K.allocateSequence h s n) trivial
  | extendSequence s n => exact iff_of_true (K.extendSequence h s n) trivial
  | freeSequence s => exact iff_of_true (K.freeSequence h s) trivial
  | evictLru => exact iff_of_true (K.evictLru h) trivial
  | getBlockTable s =>
    constructor
    · intro K'
      exact (K' s).mp ((mem_keys_touch m s s).mpr (Or.inl rfl))
    · intro hs k
      change k ∈ (m.touch s).accessOrder.keys ↔ k ∈ m.blockTables.keys
      rw [mem_keys_touch, K k]
      exact ⟨fun hk => hk.elim (fun hk => hk ▸ hs) id, Or.inr⟩

/-! ### Runs -/

/-- A call that looks up no dead id. -/
def KnownStep (m : CacheManager) (ev : Event) (m' : CacheManager) : Prop :=
  Step m ev m' ∧ Known m ev.1

theorem keyed_of_run (hbs : 0 < blockSize)
    (hrun : Trace.Run KnownStep (new numBlocks blockSize) evs m) : m.Owned ∧ m.Keyed := by
  refine hrun.always (I := fun m => m.Owned ∧ m.Keyed) ⟨new_owned numBlocks hbs, fun k => Iff.rfl⟩ ?_
  rintro m ev m' ⟨h, K⟩ ⟨hst, hknown⟩
  have hm : (m.perform ev.1).2 = m' := congrArg Prod.snd hst
  exact ⟨hm ▸ h.perform ev.1, hm ▸ (K.perform_iff h ev.1).mpr hknown⟩

/-- What the eviction of `v` leaves. -/
theorem Owned.evictLru_some (h : m.Owned) {v : String} (he : m.evictLru.1 = .ok (some v)) :
    ∃ t, m.blockTables.get? v = some t ∧ m.evictLru.2.blockTables = m.blockTables.erase v ∧
      m.evictLru.2.freeBlockIds = t.physicalBlockIds.reverse ++ m.freeBlockIds := by
  rcases hm : m.evictLru with ⟨res, m'⟩
  obtain rfl : res = .ok (some v) := (congrArg Prod.fst hm).symm.trans he
  obtain ⟨-, ⟨t, ht⟩, rfl⟩ := evictLru_ok hm
  set m₁ : CacheManager := { m with accessOrder := m.accessOrder.erase v }
  have R := (h.of_eq rfl rfl rfl rfl rfl : m₁.Owned).released (s := v) ht
  have hfree := freeSequence_of_live (m := m₁) (s := v) ht
  refine ⟨t, ht, ?_, ?_⟩
  · change (m₁.freeSequence v).blockTables = _
    rw [hfree, R.manager]
  · change (m₁.freeSequence v).freeBlockIds = _
    rw [hfree, R.manager]

/-- CORRECT: after any run that looks up live sequences only, the recency order lists exactly the live
    sequences, and a call changes that only by looking up a dead id. An eviction then never raises,
    finds nothing exactly when no sequence is live, and otherwise takes out one live sequence and
    returns its blocks. -/
theorem eviction_never_fails (hbs : 0 < blockSize)
    (hrun : Trace.Run KnownStep (new numBlocks blockSize) evs m) :
    m.Keyed ∧ (∀ c, (m.perform c).2.Keyed ↔ Known m c) ∧
    (∀ err, m.evictLru.1 ≠ .error err) ∧
    (m.evictLru.1 = .ok none ↔ m.blockTables.keys = []) ∧
    (∀ v, m.evictLru.1 = .ok (some v) → ∃ t, m.blockTables.get? v = some t ∧
      m.evictLru.2.blockTables = m.blockTables.erase v ∧
      m.evictLru.2.freeBlockIds = t.physicalBlockIds.reverse ++ m.freeBlockIds) := by
  obtain ⟨h, K⟩ := keyed_of_run hbs hrun
  exact ⟨K, K.perform_iff h, K.evictLru_ne_error, K.evictLru_eq_none_iff, fun v hv => h.evictLru_some hv⟩

/-- A live sequence is looked up and then evicted. -/
theorem eviction_never_fails_lookup :
    let m := (((new 4 2).allocateSequence "a" 3).2.getBlockTable "a").2
    m.Keyed ∧ m.evictLru.1 ≠ .ok none := by
  intro m
  have h₁ := step_perform (new 4 2) (.allocateSequence "a" 3)
  have h₂ := step_perform ((new 4 2).allocateSequence "a" 3).2 (.getBlockTable "a")
  have hlive : "a" ∈ ((new 4 2).allocateSequence "a" 3).2.blockTables.keys := by decide +kernel
  have h := eviction_never_fails (by decide) (.snoc (.snoc .nil ⟨h₁, trivial⟩) ⟨h₂, hlive⟩)
  exact ⟨h.1, fun hnone => absurd (h.2.2.2.1.mp hnone) (by decide +kernel)⟩

/-- An id that was never allocated is looked up: the next eviction raises although another sequence is live. -/
theorem eviction_fails :
    let m := (((new 4 2).getBlockTable "a").2.allocateSequence "b" 3).2
    (∃ evs, Trace.Run Step (new 4 2) evs m) ∧ ¬ m.Keyed ∧ m.blockTables.keys = ["b"] ∧
    m.evictLru.1 = .error (.keyError "a") := by
  intro m
  have h₁ := step_perform (new 4 2) (.getBlockTable "a")
  have h₂ := step_perform ((new 4 2).getBlockTable "a").2 (.allocateSequence "b" 3)
  refine ⟨⟨_, .snoc (.snoc .nil h₁) h₂⟩, fun K => ?_, by decide +kernel, by decide +kernel⟩
  exact absurd ((K "a").mp (by decide +kernel)) (by decide +kernel)

end CacheManager

end ModelServing
