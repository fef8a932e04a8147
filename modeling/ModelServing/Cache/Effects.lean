import ModelServing.Cache.Ownership

/-! What an allocation, a release and an eviction come to for a caller that only looks at which
    sequences have tables, in which order they would be evicted, and how many blocks are free. -/

namespace ModelServing

namespace CacheManager

variable {m m' : CacheManager} {s : String} {n : ℕ} {t : BlockTable}

/-- `s` was given the table `t` for `n` tokens. -/
structure Allocated (m : CacheManager) (s : String) (n : ℕ) (t : BlockTable) (m' : CacheManager) :
    Prop where
  owned : m'.Owned
  complete : m.blockTables.get? s = none → m.Complete → m'.Complete
  tables : ∀ b, m'.blockTables.get? b = if b = s then some t else m.blockTables.get? b
  accessOrder : m'.accessOrder = (m.touch s).accessOrder
  numBlocks_table : t.numBlocks = n ⌈/⌉ m.blockSize
  blockSize_table : t.blockSize = m.blockSize
  free : m'.numFreeBlocks + n ⌈/⌉ m.blockSize = m.numFreeBlocks
  numBlocks : m'.numBlocks = m.numBlocks
  blockSize : m'.blockSize = m.blockSize

theorem Allocated.order (A : Allocated m s n t m') (b : String) :
    b ∈ m'.accessOrder.keys ↔ b = s ∨ b ∈ m.accessOrder.keys := by
  rw [A.accessOrder, touch, OrderedDict.mem_keys_insert, OrderedDict.mem_keys_moveToEnd]

theorem Owned.allocated (h : m.Owned) (heq : m.allocateSequence s n = (.ok t, m')) :
    Allocated m s n t m' := by
  have howned := h.allocateSequence s n
  have hcomp := fun hdead hc => h.complete_allocateSequence (s := s) hc hdead n
  rw [heq] at howned hcomp
  rcases allocateSequence_cases m s n h.free_nodup with ⟨_, _, heq'⟩ | ⟨hle, m₁, t', T, heq'⟩
  · rw [heq] at heq'; cases heq'
  · rw [heq] at heq'
    obtain ⟨rfl, rfl⟩ : t = t' ∧ m' = _ := by
      simpa only [Prod.mk.injEq, Except.ok.injEq] using heq'
    have htab : m₁.blockTables = m.blockTables := by rw [T.manager]
    have hord : m₁.accessOrder = m.accessOrder := by rw [T.manager]
    have hlen : (m.freeBlockIds.take (n ⌈/⌉ m.blockSize)).length = n ⌈/⌉ m.blockSize :=
      List.length_take_of_le hle
    refine ⟨howned, hcomp, fun b => ?_, ?_, ?_, by rw [T.table]; rfl, ?_,
      by change m₁.numBlocks = _; rw [T.manager], by change m₁.blockSize = _; rw [T.manager]⟩
    · change (m₁.blockTables.insert s t).get? b = _
      rw [OrderedDict.get?_insert, htab]
    · change (m₁.accessOrder.moveToEnd s).insert s () = _
      rw [hord]
      rfl
    · rw [T.table]; exact hlen
    · change m₁.freeBlockIds.length + _ = _
      rw [T.manager, List.length_drop]
      exact Nat.sub_add_cancel hle

/-- Whether an allocation succeeds is a matter of free blocks. -/
theorem Owned.allocateSequence_ok_iff (h : m.Owned) (s : String) (n : ℕ) :
    (∃ t m', m.allocateSequence s n = (.ok t, m')) ↔ n ⌈/⌉ m.blockSize ≤ m.numFreeBlocks := by
  rcases allocateSequence_cases m s n h.free_nodup with ⟨hlt, _, heq⟩ | ⟨hle, _, _, _, heq⟩
  · simp [heq, Nat.not_le.mpr hlt]
  · simp [heq, hle]

/-- `s` gave its blocks back. -/
structure Freed (m : CacheManager) (s : String) (m' : CacheManager) : Prop where
  owned : m'.Owned
  complete : m.Complete → m'.Complete
  tables : ∀ b, m'.blockTables.get? b = if b = s then none else m.blockTables.get? b
  accessOrder : m'.accessOrder = m.accessOrder.erase s
  free : ∀ t, m.blockTables.get? s = some t → m'.numFreeBlocks = m.numFreeBlocks + t.numBlocks
  numBlocks : m'.numBlocks = m.numBlocks
  blockSize : m'.blockSize = m.blockSize

theorem Freed.order (F : Freed m s m') (b : String) :
    b ∈ m'.accessOrder.keys ↔ b ≠ s ∧ b ∈ m.accessOrder.keys := by
  rw [F.accessOrder, OrderedDict.mem_keys_erase]

/-- Freeing takes out its own entry only. -/
theorem Owned.get?_freeSequence (h : m.Owned) (s b : String) :
    (m.freeSequence s).blockTables.get? b = if b = s then none else m.blockTables.get? b := by
  by_cases hb : b = s
  · subst hb
    cases ht : m.blockTables.get? b with
    | none => rw [freeSequence_of_dead ht]; simp [ht]
    | some t => rw [freeSequence_of_live ht]; simp
  · rw [if_neg hb]; exact (h.undisturbed_freeSequence hb).table

theorem Owned.freed (h : m.Owned) (ht : m.blockTables.get? s = some t) :
    Freed m s (m.freeSequence s) := by
  obtain ⟨hnum, hsize⟩ := h.freeSequence_dims s
  refine ⟨h.freeSequence s, fun hc => h.complete_freeSequence hc s, h.get?_freeSequence s,
    ?_, fun t' ht' => ?_, hnum, hsize⟩
  · rw [freeSequence_of_live ht]
    change (t.physicalBlockIds.foldl releaseBlock m).accessOrder.erase s = _
    rw [(h.released ht).manager]
  · cases ht.symm.trans ht'
    rw [freeSequence_of_live ht]
    change (t.physicalBlockIds.foldl releaseBlock m).freeBlockIds.length = _
    rw [(h.released ht).manager, List.length_append, List.length_reverse, Nat.add_comm]
    rfl

/-- An eviction frees the least recently used sequence. -/
theorem Owned.evicted (h : m.Owned) {v : String} (heq : m.evictLru = (.ok (some v), m')) :
    v ∈ m.accessOrder.keys ∧ (∃ t, m.blockTables.get? v = some t) ∧ Freed m v m' := by
  obtain ⟨hhead, ⟨t, ht⟩, rfl⟩ := evictLru_ok heq
  refine ⟨List.mem_of_head? hhead, ⟨t, ht⟩, ?_⟩
  have h₀ : Owned { m with accessOrder := m.accessOrder.erase v } := h.of_eq rfl rfl rfl rfl rfl
  have F := h₀.freed (s := v) ht
  refine ⟨F.owned.of_eq rfl rfl rfl rfl rfl, fun hc => F.complete hc, F.tables, ?_, F.free,
    F.numBlocks, F.blockSize⟩
  refine F.accessOrder.trans (OrderedDict.erase_of_not_mem fun hv => ?_)
  exact (OrderedDict.mem_keys_erase.mp hv).1 rfl

/-- An eviction fails only for an id without a table. -/
theorem evictLru_error {err : CacheError} (heq : m.evictLru = (.error err, m')) :
    ∃ v ∈ m.accessOrder.keys, m.blockTables.get? v = none := by
  rcases evictLru_cases m with ⟨_, heq'⟩ | ⟨v, hv, _, ⟨ht, heq'⟩ | ⟨t, _, heq'⟩⟩
  · rw [heq] at heq'; cases heq'
  · exact ⟨v, OrderedDict.mem_keys_of_get? hv, ht⟩
  · rw [heq] at heq'; cases heq'

/-! ### Managers that look alike -/

/-- As many free blocks, the same recency order, and tables of the same sizes; which physical blocks
    they hold may differ. -/
structure Alike (m₁ m₂ : CacheManager) : Prop where
  owned₁ : m₁.Owned
  owned₂ : m₂.Owned
  blockSize : m₁.blockSize = m₂.blockSize
  free : m₁.numFreeBlocks = m₂.numFreeBlocks
  accessOrder : m₁.accessOrder = m₂.accessOrder
  sizes : ∀ s, (m₁.blockTables.get? s).map BlockTable.numBlocks =
    (m₂.blockTables.get? s).map BlockTable.numBlocks

namespace Alike

variable {m₁ m₂ : CacheManager}

/-- Allocation succeeds in both or in neither. -/
theorem allocateSequence (A : Alike m₁ m₂) (s : String) (n : ℕ) :
    (∃ t₁ t₂ m₁' m₂', m₁.allocateSequence s n = (.ok t₁, m₁') ∧
      m₂.allocateSequence s n = (.ok t₂, m₂') ∧ Alike m₁' m₂') ∨
    (∃ msg₁ msg₂, m₁.allocateSequence s n = (.error (.memoryError msg₁), m₁) ∧
      m₂.allocateSequence s n = (.error (.memoryError msg₂), m₂)) := by
  have hfree := A.free
  rcases allocateSequence_cases m₁ s n A.owned₁.free_nodup with
    ⟨hlt, msg₁, h₁⟩ | ⟨hle, m₁', t₁, -, h₁⟩ <;>
  rcases allocateSequence_cases m₂ s n A.owned₂.free_nodup with
    ⟨hlt', msg₂, h₂⟩ | ⟨hle', m₂', t₂, -, h₂⟩
  · exact Or.inr ⟨msg₁, msg₂, h₁, h₂⟩
  · rw [A.blockSize] at hlt; omega
  · rw [A.blockSize] at hle; omega
  · have A₁ := A.owned₁.allocated h₁
    have A₂ := A.owned₂.allocated h₂
    refine Or.inl ⟨t₁, t₂, _, _, h₁, h₂, A₁.owned, A₂.owned, ?_, ?_, ?_, fun b => ?_⟩
    · rw [A₁.blockSize, A₂.blockSize, A.blockSize]
    · have := A₁.free
      have := A₂.free
      rw [A.blockSize] at *
      omega
    · rw [A₁.accessOrder, A₂.accessOrder, touch, touch, A.accessOrder]
    · rw [A₁.tables, A₂.tables]
      by_cases hb : b = s
      · rw [if_pos hb, if_pos hb, Option.map_some, Option.map_some, A₁.numBlocks_table,
          A₂.numBlocks_table, A.blockSize]
      · rw [if_neg hb, if_neg hb, A.sizes b]

/-- A table of one has its counterpart in the other. -/
theorem table (A : Alike m₁ m₂) {s : String} {t₁ : BlockTable} (h : m₁.blockTables.get? s = some t₁) :
    ∃ t₂, m₂.blockTables.get? s = some t₂ ∧ t₂.numBlocks = t₁.numBlocks := by
  have hs := A.sizes s
  rw [h, Option.map_some] at hs
  exact Option.map_eq_some_iff.mp hs.symm

theorem no_table (A : Alike m₁ m₂) {s : String} (h : m₁.blockTables.get? s = none) :
    m₂.blockTables.get? s = none := by
  have hs := A.sizes s
  rw [h, Option.map_none] at hs
  exact Option.map_eq_none_iff.mp hs.symm

theorem freed (A : Alike m₁ m₂) {m₁' m₂' : CacheManager} {s : String} {t₁ : BlockTable}
    (ht : m₁.blockTables.get? s = some t₁) (F₁ : Freed m₁ s m₁') (F₂ : Freed m₂ s m₂') :
    Alike m₁' m₂' := by
  obtain ⟨t₂, ht₂, hsize⟩ := A.table ht
  refine ⟨F₁.owned, F₂.owned, ?_, ?_, ?_, fun b => ?_⟩
  · rw [F₁.blockSize, F₂.blockSize, A.blockSize]
  · rw [F₁.free t₁ ht, F₂.free t₂ ht₂, hsize, A.free]
  · rw [F₁.accessOrder, F₂.accessOrder, A.accessOrder]
  · rw [F₁.tables, F₂.tables]
    by_cases hb : b = s
    · rw [if_pos hb, if_pos hb]
    · rw [if_neg hb, if_neg hb, A.sizes b]

theorem freeSequence (A : Alike m₁ m₂) (s : String) :
    Alike (m₁.freeSequence s) (m₂.freeSequence s) := by
  cases ht : m₁.blockTables.get? s with
  | none => rwa [freeSequence_of_dead ht, freeSequence_of_dead (A.no_table ht)]
  | some t₁ =>
    obtain ⟨t₂, ht₂, -⟩ := A.table ht
    exact A.freed ht (A.owned₁.freed ht) (A.owned₂.freed ht₂)

/-- The same sequence is evicted from both. -/
theorem evictLru (A : Alike m₁ m₂) :
    m₁.evictLru.1 = m₂.evictLru.1 ∧ Alike m₁.evictLru.2 m₂.evictLru.2 := by
  rcases evictLru_cases m₁ with ⟨hnil, h₁⟩ | ⟨v, hv, hhead, h₁⟩ <;>
  rcases evictLru_cases m₂ with ⟨hnil', h₂⟩ | ⟨v', hv', hhead', h₂⟩
  · rw [h₁, h₂]
    exact ⟨rfl, A⟩
  · rw [← A.accessOrder, hnil] at hhead'
    cases hhead'
  · rw [A.accessOrder, hnil'] at hhead
    cases hhead
  · obtain rfl : v = v' := by
      rw [A.accessOrder] at hhead
      exact Option.some.inj (hhead.symm.trans hhead')
    rcases h₁ with ⟨ht, h₁⟩ | ⟨t₁, ht, h₁⟩
    · have ht₂ := A.no_table ht
      rcases h₂ with ⟨-, h₂⟩ | ⟨t₂, ht', -⟩
      · rw [h₁, h₂]
        exact ⟨rfl, A.owned₁.of_eq rfl rfl rfl rfl rfl, A.owned₂.of_eq rfl rfl rfl rfl rfl,
          A.blockSize, A.free, congrArg (OrderedDict.erase · v) A.accessOrder, A.sizes⟩
      · cases ht₂.symm.trans ht'
    · obtain ⟨t₂, ht₂, -⟩ := A.table ht
      rcases h₂ with ⟨ht', -⟩ | ⟨t₂', -, h₂⟩
      · cases ht₂.symm.trans ht'
      · have F₁ := (A.owned₁.evicted h₁).2.2
        have F₂ := (A.owned₂.evicted h₂).2.2
        rw [h₁, h₂]
        exact ⟨rfl, A.freed ht F₁ F₂⟩

end Alike

/-- Without any table the pool is wholly free. -/
theorem Complete.numFreeBlocks_eq (hc : m.Complete) (h : m.blockTables.keys = []) :
    m.numFreeBlocks = m.numBlocks := by
  have hnil : m.mapped = [] := by
    rw [mapped, OrderedDict.items, OrderedDict.values, List.map_eq_nil_iff.mp h]
    rfl
  have := hc.length_eq
  simpa [hnil, numFreeBlocks] using this

end CacheManager

end ModelServing
