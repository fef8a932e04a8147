import ModelServing.Cache.Effects

/-! Where the blocks have gone. The free list and the block tables account for every block except
    those that an allocation over a live id loses, and a lost block never comes back. -/

namespace ModelServing

namespace CacheManager

variable {m m' : CacheManager} {numBlocks blockSize : ℕ} {evs : List Event}

/-- The block ids in the free list and in block tables. -/
def pool (m : CacheManager) : List ℕ := m.freeBlockIds ++ m.mapped

/-- Every block is in the free list or in the table of a live sequence. -/
def Sealed (m : CacheManager) : Prop := ∀ id < m.numBlocks, id ∈ m.freeBlockIds ∨
  ∃ s t, m.blockTables.get? s = some t ∧ id ∈ t.physicalBlockIds

/-- How many blocks a call loses: those of the live table that an allocation replaces. -/
def lost (m : CacheManager) : Call → ℕ
  | .allocateSequence s n =>
    if m.canAllocate n then ((m.blockTables.get? s).map BlockTable.numBlocks).getD 0 else 0
  | _ => 0

/-! ### One call -/

theorem length_mapped (m : CacheManager) :
    m.mapped.length = (m.blockTables.values.map BlockTable.numBlocks).sum := by
  rw [mapped, OrderedDict.items, List.length_flatMap]
  rfl

theorem length_mapped_erase (m : CacheManager) (s : String) :
    ((m.blockTables.erase s).items BlockTable.physicalBlockIds).length +
      ((m.blockTables.get? s).map BlockTable.numBlocks).getD 0 = m.mapped.length := by
  cases ht : m.blockTables.get? s with
  | none => simp [mapped, OrderedDict.erase_of_not_mem (OrderedDict.get?_eq_none_iff.mp ht)]
  | some t =>
    have hp := OrderedDict.items_perm_erase BlockTable.physicalBlockIds ht
    simp [mapped, hp.length_eq, BlockTable.numBlocks, Nat.add_comm]

theorem Owned.length_pool_allocate (h : m.Owned) (s : String) (n : ℕ) :
    (m.allocateSequence s n).2.pool.length + m.lost (.allocateSequence s n) = m.pool.length := by
  rcases allocateSequence_cases m s n h.free_nodup with ⟨hlt, _, heq⟩ | ⟨hle, m₁, t, T, heq⟩
  · have hno : m.canAllocate n = false := by
      simpa [canAllocate, tokensToBlocks_eq] using hlt
    simp [heq, lost, hno]
  · have hyes : m.canAllocate n = true := by
      simpa [canAllocate, tokensToBlocks_eq] using hle
    have hperm := (T.pool_perm s (n ⌈/⌉ m.blockSize)).length_eq
    have hmap := m.length_mapped_erase s
    have hnil : (m.emptyTable s).physicalBlockIds = [] := rfl
    rw [heq]
    change (pool (m₁.bindTable s t (n ⌈/⌉ m.blockSize))).length + _ = _
    simp only [pool, lost, hyes, if_true, hnil, List.length_append, List.length_nil] at hperm hmap ⊢
    omega

theorem Owned.length_pool_extend (h : m.Owned) (s : String) (n : ℕ) :
    (m.extendSequence s n).2.pool.length = m.pool.length := by
  cases ht : m.blockTables.get? s with
  | none => rw [extendSequence_of_dead n ht]
  | some t =>
    have htab := fillLastBlock_blockTables (m.touch s) t n
    have hfree := fillLastBlock_free (m.touch s) t n
    have hpool : ((m.touch s).fillLastBlock t n).1.pool = m.pool := by
      rw [pool, pool, mapped, mapped, htab, hfree]
      rfl
    rcases extendSequence_cases n h.blockSize_pos h.free_nodup ht with
      ⟨_, _, heq⟩ | ⟨_, m₂, t', T, heq⟩
    · rw [heq]
      exact congrArg List.length hpool
    · rw [heq]
      have hperm := (T.pool_perm s (((m.touch s).fillLastBlock t n).2 ⌈/⌉ m.blockSize)).length_eq
      have hitems := (OrderedDict.items_perm_erase BlockTable.physicalBlockIds ht).length_eq
      have htouch : (m.touch s).freeBlockIds = m.freeBlockIds ∧
          (m.touch s).blockTables = m.blockTables := ⟨rfl, rfl⟩
      rw [htab, hfree, htouch.1, htouch.2] at hperm
      refine hperm.trans ?_
      simp only [pool, mapped, List.length_append] at hitems ⊢
      rw [hitems]

/-- What a call takes out of the pool is what it loses. -/
theorem Owned.length_pool (h : m.Owned) (c : Call) :
    (m.perform c).2.pool.length + m.lost c = m.pool.length := by
  cases c with
  | allocateSequence s n => exact h.length_pool_allocate s n
  | extendSequence s n => exact h.length_pool_extend s n
  | freeSequence s => exact (h.free_pool_perm s).length_eq
  | evictLru =>
    change m.evictLru.2.pool.length = _
    rcases evictLru_cases m with ⟨_, heq⟩ | ⟨v, _, _, ⟨_, heq⟩ | ⟨t, _, heq⟩⟩
    · rw [heq]
    · rw [heq]; rfl
    · have h₀ : Owned { m with accessOrder := m.accessOrder.erase v } :=
        h.of_eq rfl rfl rfl rfl rfl
      rw [heq]
      exact (h₀.free_pool_perm v).length_eq
  | getBlockTable s => rfl

/-! ### Sealed pools -/

theorem Owned.pool_subperm (h : m.Owned) : m.pool.Subperm (List.range m.numBlocks) :=
  h.nodup.subperm fun _ hid => List.mem_range.mpr (h.valid hid)

theorem Owned.length_pool_le (h : m.Owned) : m.pool.length ≤ m.numBlocks := by
  simpa using h.pool_subperm.length_le

theorem mem_pool {id : ℕ} : id ∈ m.pool ↔ id ∈ m.freeBlockIds ∨
    ∃ s t, m.blockTables.get? s = some t ∧ id ∈ t.physicalBlockIds := by
  rw [pool, List.mem_append, mapped, OrderedDict.mem_items_iff]

theorem Owned.sealed_iff (h : m.Owned) : m.Sealed ↔ m.pool.length = m.numBlocks := by
  constructor
  · intro hs
    have hsub : (List.range m.numBlocks).Subperm m.pool :=
      List.nodup_range.subperm fun id hid => mem_pool.mpr (hs id (List.mem_range.mp hid))
    exact Nat.le_antisymm h.length_pool_le (by simpa using hsub.length_le)
  · intro hlen id hid
    have hperm : m.pool.Perm (List.range m.numBlocks) :=
      h.pool_subperm.perm_of_length_le (by simp [hlen])
    exact mem_pool.mp (hperm.mem_iff.mpr (List.mem_range.mpr hid))

theorem Owned.sealed_iff_complete (h : m.Owned) : m.Sealed ↔ m.Complete := by
  rw [h.sealed_iff]
  exact ⟨fun hlen => h.pool_subperm.perm_of_length_le (by simp [hlen]),
    fun hc => by simpa [pool] using hc.length_eq⟩

/-- Freeing sequence after sequence. -/
theorem Owned.foldl_freeSequence : ∀ (ids : List String) {m : CacheManager}, m.Owned → m.Complete →
    (ids.foldl CacheManager.freeSequence m).Complete ∧
    (ids.foldl CacheManager.freeSequence m).numBlocks = m.numBlocks ∧
    ∀ b, (ids.foldl CacheManager.freeSequence m).blockTables.get? b =
      if b ∈ ids then none else m.blockTables.get? b
  | [], m, _, hc => ⟨hc, rfl, fun b => by simp⟩
  | s :: ids, m, h, hc => by
      obtain ⟨hc', hnum, htab⟩ := Owned.foldl_freeSequence ids (h.freeSequence s)
        (h.complete_freeSequence hc s)
      refine ⟨hc', hnum.trans (h.freeSequence_dims s).1, fun b => ?_⟩
      rw [List.foldl_cons, htab, h.get?_freeSequence]
      by_cases hb : b = s <;> simp [hb]

theorem Owned.free_all (h : m.Owned) (hc : m.Complete) :
    (m.blockTables.keys.foldl CacheManager.freeSequence m).numFreeBlocks = m.numBlocks := by
  obtain ⟨hc', hnum, htab⟩ := Owned.foldl_freeSequence m.blockTables.keys h hc
  rw [hc'.numFreeBlocks_eq, hnum]
  refine List.eq_nil_iff_forall_not_mem.mpr fun b hb => ?_
  obtain ⟨t, ht⟩ := OrderedDict.mem_keys_iff.mp hb
  rw [htab] at ht
  split at ht
  · cases ht
  · rename_i hnot
    exact hnot (OrderedDict.mem_keys_of_get? ht)

/-! ### Runs -/

/-- A call that replaces no table with blocks in it. -/
def Careful (m : CacheManager) (ev : Event) (m' : CacheManager) : Prop :=
  Step m ev m' ∧ m.lost ev.1 = 0

theorem sealed_of_careful (hbs : 0 < blockSize)
    (hrun : Trace.Run Careful (new numBlocks blockSize) evs m) : m.Sealed := by
  have hinv : m.Owned ∧ m.pool.length = m.numBlocks := by
    refine hrun.always (I := fun m => m.Owned ∧ m.pool.length = m.numBlocks) ?_ ?_
    · have h := new_owned numBlocks hbs
      exact ⟨h, h.sealed_iff.mp (h.sealed_iff_complete.mpr (new_complete numBlocks blockSize))⟩
    · rintro m ev m' ⟨h, hlen⟩ ⟨hst, hlost⟩
      have h' := h.perform ev.1
      have hpool := h.length_pool ev.1
      have hnum := (h.perform_dims ev.1).1
      rw [show (m.perform ev.1).2 = m' from congrArg Prod.snd hst] at h' hpool hnum
      exact ⟨h', by omega⟩
  exact hinv.1.sealed_iff.mpr hinv.2

/-- Lost blocks stay lost, so a sealed pool has a careful past. -/
theorem careful_of_sealed (hbs : 0 < blockSize)
    (hrun : Trace.Run Step (new numBlocks blockSize) evs m) (hs : m.Sealed) :
    Trace.Run Careful (new numBlocks blockSize) evs m := by
  have hinv : m.Sealed → Trace.Run Careful (new numBlocks blockSize) evs m := by
    refine hrun.invariant (I := fun evs m => m.Sealed →
      Trace.Run Careful (new numBlocks blockSize) evs m) (fun _ => .nil) ?_
    rintro evs m ev m' hr ih hst hs
    have h := owned_of_run hbs hr
    have h' := h.perform ev.1
    have hpool := h.length_pool ev.1
    have hnum := (h.perform_dims ev.1).1
    have hle := h.length_pool_le
    rw [show (m.perform ev.1).2 = m' from congrArg Prod.snd hst] at h' hpool hnum
    rw [h'.sealed_iff] at hs
    exact .snoc (ih (h.sealed_iff.mpr (by omega))) ⟨hst, by omega⟩
  exact hinv hs

/-- CORRECT: after any run every block is in the free list or in a live table if and only if no
    allocation of the run replaced a live table with blocks in it. This is the same as the number of
    allocated blocks being the sum over the live tables, and then freeing all sequences returns the
    whole pool. -/
theorem sealed_iff_careful (hbs : 0 < blockSize)
    (hrun : Trace.Run Step (new numBlocks blockSize) evs m) :
    (m.Sealed ↔ Trace.Run Careful (new numBlocks blockSize) evs m) ∧
    (m.Sealed ↔
      m.numAllocatedBlocks = (m.blockTables.values.map BlockTable.numBlocks).sum) ∧
    (m.Sealed → (m.blockTables.keys.foldl CacheManager.freeSequence m).numFreeBlocks = numBlocks) := by
  have h := owned_of_run hbs hrun
  refine ⟨⟨careful_of_sealed hbs hrun, sealed_of_careful hbs⟩, ?_, fun hs => ?_⟩
  · have hle := h.length_pool_le
    rw [h.sealed_iff, ← length_mapped, numAllocatedBlocks, numFreeBlocks]
    simp only [pool, List.length_append] at hle ⊢
    omega
  · rw [h.free_all (h.sealed_iff_complete.mp hs), (dims_of_run hbs hrun).1]

/-- A freed id may be allocated again. -/
theorem sealed_iff_careful_reused :
    let m := (((new 4 2).allocateSequence "a" 3).2.freeSequence "a").allocateSequence "a" 1
    m.2.Sealed := by
  intro m
  have h₁ := step_perform (new 4 2) (.allocateSequence "a" 3)
  have h₂ := step_perform ((new 4 2).allocateSequence "a" 3).2 (.freeSequence "a")
  have h₃ := step_perform (((new 4 2).allocateSequence "a" 3).2.freeSequence "a")
    (.allocateSequence "a" 1)
  have hrun := Trace.Run.snoc (.snoc (.snoc .nil h₁) h₂) h₃
  refine (sealed_iff_careful (by decide) hrun).1.mpr ?_
  exact .snoc (.snoc (.snoc .nil ⟨h₁, by decide +kernel⟩) ⟨h₂, by decide +kernel⟩)
    ⟨h₃, by decide +kernel⟩

/-- A live id is allocated again: the two blocks of its first table are in no table and not free. -/
theorem not_sealed :
    let m := (((new 4 2).allocateSequence "a" 3).2.allocateSequence "a" 1).2
    (∃ evs, Trace.Run Step (new 4 2) evs m) ∧ ¬ m.Sealed ∧ m.numAllocatedBlocks = 3 ∧
    (m.blockTables.values.map BlockTable.numBlocks).sum = 1 ∧
    (m.blockTables.keys.foldl CacheManager.freeSequence m).numFreeBlocks = 2 := by
  intro m
  have h₁ := step_perform (new 4 2) (.allocateSequence "a" 3)
  have h₂ := step_perform ((new 4 2).allocateSequence "a" 3).2 (.allocateSequence "a" 1)
  refine ⟨⟨_, .snoc (.snoc .nil h₁) h₂⟩, fun hs => ?_, by decide +kernel, by decide +kernel,
    by decide +kernel⟩
  rcases hs 3 (by decide +kernel) with hf | ⟨s, t, ht, hid⟩
  · exact absurd hf (by decide +kernel)
  · have hval : t ∈ m.blockTables.values := OrderedDict.mem_values_iff.mpr ⟨s, ht⟩
    have hall : ∀ t ∈ m.blockTables.values, 3 ∉ t.physicalBlockIds := by decide +kernel
    exact hall t hval hid

end CacheManager

end ModelServing
