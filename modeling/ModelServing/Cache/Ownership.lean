import ModelServing.Cache.Calls

/-! Who owns which physical block. `Owned` couples the free list, the per-block records and the
    block tables; every call keeps it, also a call that raises half-way or overwrites a live table,
    and it makes the calls of one sequence invisible to the others. -/

namespace ModelServing

open Chunks

/-- A block as the free list promises it. -/
structure PhysicalBlock.IsFree (b : PhysicalBlock) : Prop where
  status : b.status = .FREE
  refCount : b.refCount = 0
  filled : b.numTokensFilled = 0

/-- A block as a block table promises it. -/
structure PhysicalBlock.IsHeld (blockSize : ℕ) (b : PhysicalBlock) : Prop where
  status : b.status = .ALLOCATED
  refCount : b.refCount = 1
  filled_pos : 1 ≤ b.numTokensFilled
  filled_le : b.numTokensFilled ≤ blockSize

namespace CacheManager

/-- All block ids in block tables, table by table. -/
def mapped (m : CacheManager) : List ℕ := m.blockTables.items BlockTable.physicalBlockIds

/-- The free list, the block records and the block tables agree: no id is in two places, free blocks
    are clean, mapped blocks have one reference and hold between one token and a blockful. Blocks
    may be in neither place: allocating over a live id leaks the old table. -/
structure Owned (m : CacheManager) : Prop where
  blockSize_pos : 0 < m.blockSize
  length_blocks : m.blocks.length = m.numBlocks
  sizes : ∀ (id : ℕ) (b : PhysicalBlock), m.blocks[id]? = some b → b.blockSize = m.blockSize
  nodup : (m.freeBlockIds ++ m.mapped).Nodup
  free : ∀ id ∈ m.freeBlockIds, ∃ b, m.blocks[id]? = some b ∧ b.IsFree
  held : ∀ id ∈ m.mapped, ∃ b, m.blocks[id]? = some b ∧ b.IsHeld m.blockSize

namespace Owned

variable {m : CacheManager}

theorem free_nodup (h : m.Owned) : m.freeBlockIds.Nodup := (List.nodup_append.mp h.nodup).1

theorem not_mapped_of_free (h : m.Owned) {id : ℕ} (hid : id ∈ m.freeBlockIds) : id ∉ m.mapped :=
  fun hm => (List.nodup_append.mp h.nodup).2.2 id hid id hm rfl

theorem table_nodup (h : m.Owned) {s : String} {t : BlockTable}
    (ht : m.blockTables.get? s = some t) : t.physicalBlockIds.Nodup := by
  have hp := OrderedDict.items_perm_erase BlockTable.physicalBlockIds ht
  exact (List.nodup_append.mp (hp.nodup_iff.mp (List.nodup_append.mp h.nodup).2.1)).1

theorem mem_mapped {s : String} {t : BlockTable} (ht : m.blockTables.get? s = some t) {id : ℕ}
    (hid : id ∈ t.physicalBlockIds) : id ∈ m.mapped :=
  OrderedDict.mem_items_iff.mpr ⟨s, t, ht, hid⟩

/-- Two sequences never share a block. -/
theorem eq_of_mem (h : m.Owned) {s s' : String} {t t' : BlockTable} {id : ℕ}
    (ht : m.blockTables.get? s = some t) (hid : id ∈ t.physicalBlockIds)
    (ht' : m.blockTables.get? s' = some t') (hid' : id ∈ t'.physicalBlockIds) : s' = s := by
  by_contra hne
  have hp := OrderedDict.items_perm_erase BlockTable.physicalBlockIds ht
  have hdisj := (List.nodup_append.mp (hp.nodup_iff.mp (List.nodup_append.mp h.nodup).2.1)).2.2
  refine hdisj id hid id (OrderedDict.mem_items_iff.mpr ⟨s', t', ?_, hid'⟩) rfl
  rw [OrderedDict.get?_erase_of_ne _ hne, ht']

theorem valid (h : m.Owned) {id : ℕ} (hid : id ∈ m.freeBlockIds ++ m.mapped) :
    id < m.numBlocks := by
  have : ∃ b, m.blocks[id]? = some b := by
    rcases List.mem_append.mp hid with hid | hid
    · exact (h.free id hid).imp fun _ hb => hb.1
    · exact (h.held id hid).imp fun _ hb => hb.1
  obtain ⟨b, hb⟩ := this
  rw [← h.length_blocks]
  exact (List.getElem?_eq_some_iff.mp hb).1

/-- Ownership looks at the pool and the tables only, not at recency or statistics. -/
theorem of_eq {m' : CacheManager} (h : m.Owned) (hn : m'.numBlocks = m.numBlocks)
    (hs : m'.blockSize = m.blockSize) (hb : m'.blocks = m.blocks)
    (hf : m'.freeBlockIds = m.freeBlockIds) (ht : m'.blockTables = m.blockTables) : m'.Owned := by
  obtain ⟨h1, h2, h3, h4, h5, h6⟩ := h
  unfold mapped at h4 h6
  constructor <;> simp only [mapped, hn, hs, hb, hf, ht] <;> assumption

theorem touch (h : m.Owned) (s : String) : (m.touch s).Owned := h.of_eq rfl rfl rfl rfl rfl

end Owned

theorem new_owned (numBlocks : ℕ) {blockSize : ℕ} (hbs : 0 < blockSize) :
    (new numBlocks blockSize).Owned where
  blockSize_pos := hbs
  length_blocks := by simp [new]
  sizes := by
    intro id b hb
    simp only [new, List.getElem?_map, Option.map_eq_some_iff] at hb ⊢
    obtain ⟨i, _, rfl⟩ := hb
    rfl
  nodup := by
    simpa [new, mapped, OrderedDict.items, OrderedDict.values, OrderedDict.empty] using
      List.nodup_range
  free := by
    intro id hid
    have hlt : id < numBlocks := by simpa [new] using hid
    exact ⟨{ blockId := id, blockSize := blockSize }, by simp [new, hlt], ⟨rfl, rfl, rfl⟩⟩
  held := by
    intro id hid
    simp [new, mapped, OrderedDict.items, OrderedDict.values, OrderedDict.empty] at hid

section take

variable {m m₁ : CacheManager} {t t' : BlockTable} {tokens count : ℕ}

/-- Where the ids go when a table takes blocks: from the free list to the table, and what `s` had
    mapped before is gone unless the table still lists it. -/
theorem Taken.pool_perm (T : Taken m t tokens count m₁ t') (s : String) (k : ℕ) :
    ((m₁.bindTable s t' k).freeBlockIds ++ (m₁.bindTable s t' k).mapped).Perm
      (m.freeBlockIds ++
        (t.physicalBlockIds ++ (m.blockTables.erase s).items BlockTable.physicalBlockIds)) := by
  have hfree : m₁.freeBlockIds = m.freeBlockIds.drop count := by rw [T.manager]
  have htab : m₁.blockTables = m.blockTables := by rw [T.manager]
  have hins := OrderedDict.items_perm_insert m₁.blockTables s t' BlockTable.physicalBlockIds
  refine List.perm_iff_count.mpr fun a => ?_
  have hcount := hins.count_eq a
  have hsplit : m.freeBlockIds.count a =
      (m.freeBlockIds.take count).count a + (m.freeBlockIds.drop count).count a := by
    rw [← List.count_append, List.take_append_drop]
  rw [htab, T.table] at hcount
  simp only [bindTable, mapped, hfree, htab, T.table, List.count_append, hsplit] at hcount ⊢
  omega

/-- A mapped id of the new state was popped just now or was mapped before. -/
theorem Taken.mem_mapped (T : Taken m t tokens count m₁ t') (s : String) (k : ℕ) {id : ℕ}
    (hid : id ∈ (m₁.bindTable s t' k).mapped) :
    id ∈ m.freeBlockIds.take count ∨
      id ∈ t.physicalBlockIds ++ (m.blockTables.erase s).items BlockTable.physicalBlockIds := by
  have htab : m₁.blockTables = m.blockTables := by rw [T.manager]
  have hins := OrderedDict.items_perm_insert m₁.blockTables s t' BlockTable.physicalBlockIds
  have hmem := hins.mem_iff.mp hid
  rw [htab, T.table] at hmem
  simp only [List.mem_append] at hmem ⊢
  tauto

/-- Taking blocks keeps ownership, provided the table's old blocks were its own and every block
    taken gets at least one token. -/
theorem Owned.bindTable (h : m.Owned) (T : Taken m t tokens count m₁ t') {s : String} (k : ℕ)
    (hfit : ∀ j < count, j * m.blockSize < tokens)
    (hsub : (t.physicalBlockIds ++
      (m.blockTables.erase s).items BlockTable.physicalBlockIds).Subperm m.mapped) :
    (m₁.bindTable s t' k).Owned := by
  have hnum : m₁.numBlocks = m.numBlocks := by rw [T.manager]
  have hsize : m₁.blockSize = m.blockSize := by rw [T.manager]
  have hfree : m₁.freeBlockIds = m.freeBlockIds.drop count := by rw [T.manager]
  -- a block that was free turns into a held one, the others are as before
  have htaken : ∀ id ∈ m.freeBlockIds.take count, ∃ b, m.blocks[id]? = some b ∧ ∃ b',
      m₁.blocks[id]? = some b' ∧ b'.blockSize = b.blockSize ∧ b'.IsHeld m.blockSize := by
    intro id hid
    obtain ⟨j, hj, hget⟩ := List.mem_take_iff_getElem.mp hid
    obtain ⟨b, hb, hbf⟩ := h.free id (List.mem_of_mem_take hid)
    have hjc : j < count := by omega
    have hlt : j * m.blockSize < tokens := hfit j hjc
    have hb' := T.filled j id hjc (List.getElem?_eq_some_iff.mpr ⟨_, hget⟩)
    rw [hb, Option.map_some] at hb'
    refine ⟨b, hb, _, hb', rfl, rfl, by simp [PhysicalBlock.allocate, hbf.refCount], ?_, ?_⟩
    · exact Nat.le_min.mpr ⟨by omega, h.blockSize_pos⟩
    · exact Nat.min_le_right _ _
  have hsplit := h.free_nodup
  rw [← List.take_append_drop count m.freeBlockIds] at hsplit
  constructor
  · exact hsize ▸ h.blockSize_pos
  · exact (T.length.trans h.length_blocks).trans hnum.symm
  · intro id b' hb'
    change b'.blockSize = m₁.blockSize
    rw [hsize]
    by_cases hid : id ∈ m.freeBlockIds.take count
    · obtain ⟨b, hb, b'', hb'', hbs, _⟩ := htaken id hid
      cases hb'.symm.trans hb''
      exact hbs.trans (h.sizes id b hb)
    · exact h.sizes id b' ((T.frame id hid).symm.trans hb')
  · have hle : ((m₁.bindTable s t' k).freeBlockIds ++ (m₁.bindTable s t' k).mapped).Subperm
        (m.freeBlockIds ++ m.mapped) :=
      (T.pool_perm s k).subperm.trans ((List.subperm_append_left _).mpr hsub)
    refine List.nodup_iff_count_le_one.mpr fun a => ?_
    exact (hle.count_le a).trans (List.nodup_iff_count_le_one.mp h.nodup a)
  · intro id hid
    have hid' : id ∈ m.freeBlockIds.drop count := hfree ▸ hid
    have hnot : id ∉ m.freeBlockIds.take count := fun hm =>
      (List.nodup_append.mp hsplit).2.2 id hm id hid' rfl
    obtain ⟨b, hb, hbf⟩ := h.free id (List.mem_of_mem_drop hid')
    exact ⟨b, (T.frame id hnot).trans hb, hbf⟩
  · intro id hid
    change ∃ b, m₁.blocks[id]? = some b ∧ b.IsHeld m₁.blockSize
    rw [hsize]
    rcases T.mem_mapped s k hid with hid | hid
    · obtain ⟨_, _, b', hb', _, hheld⟩ := htaken id hid
      exact ⟨b', hb', hheld⟩
    · have hmap : id ∈ m.mapped := hsub.subset hid
      have hnot : id ∉ m.freeBlockIds.take count := fun hm =>
        h.not_mapped_of_free (List.mem_of_mem_take hm) hmap
      obtain ⟨b, hb, hheld⟩ := h.held id hmap
      exact ⟨b, (T.frame id hnot).trans hb, hheld⟩

end take

section calls

variable {m : CacheManager} {s : String}

/-- Topping up a live table: nothing to do for an empty one, else its last block, which it holds,
    takes what fits. -/
theorem Owned.fillLastBlock_cases (h : m.Owned) {t : BlockTable} (n : ℕ)
    (ht : m.blockTables.get? s = some t) :
    (t.physicalBlockIds = [] ∧ m.fillLastBlock t n = (m, n)) ∨
    ∃ init last b, t.physicalBlockIds = init ++ [last] ∧ m.blocks[last]? = some b ∧
      b.IsHeld m.blockSize ∧ m.fillLastBlock t n =
        ({ m with blocks := m.blocks.modify last (·.fill (min (m.blockSize - b.numTokensFilled) n)) },
          n - min (m.blockSize - b.numTokensFilled) n) := by
  rcases List.eq_nil_or_concat t.physicalBlockIds with hnil | ⟨init, last, hcat⟩
  · exact Or.inl ⟨hnil, fillLastBlock_nil n hnil⟩
  · rw [List.concat_eq_append] at hcat
    obtain ⟨b, hb, hheld⟩ := h.held last (mem_mapped ht (by simp [hcat]))
    have hslots : b.freeSlots = m.blockSize - b.numTokensFilled := by
      rw [PhysicalBlock.freeSlots, h.sizes last b hb]
    exact Or.inr ⟨init, last, b, hcat, hb, hheld, hslots ▸ fillLastBlock_concat n hcat hb⟩

theorem Owned.fillLastBlock (h : m.Owned) {t : BlockTable} (n : ℕ)
    (ht : m.blockTables.get? s = some t) : (m.fillLastBlock t n).1.Owned := by
  rcases h.fillLastBlock_cases n ht with ⟨_, heq⟩ | ⟨init, last, b, hcat, hb, hheld, heq⟩
  · rw [heq]; exact h
  · have hlast : last ∈ m.mapped := mem_mapped ht (by simp [hcat])
    rw [heq]
    constructor
    · exact h.blockSize_pos
    · simpa using h.length_blocks
    · intro id b' hb'
      simp only [List.getElem?_modify, Option.map_eq_map, Option.map_eq_some_iff] at hb'
      obtain ⟨b'', hb'', rfl⟩ := hb'
      have := h.sizes id b'' hb''
      split <;> exact this
    · exact h.nodup
    · intro id hid
      have hne : last ≠ id := fun he => h.not_mapped_of_free hid (he ▸ hlast)
      simpa only [List.getElem?_modify_ne _ _ hne] using h.free id hid
    · intro id hid
      by_cases hne : last = id
      · subst hne
        refine ⟨_, by rw [List.getElem?_modify_eq, hb]; rfl, ?_⟩
        obtain ⟨h1, h2, h3, h4⟩ := hheld
        refine ⟨h1, h2, ?_, ?_⟩ <;> simp only [PhysicalBlock.fill] <;> omega
      · simpa only [List.getElem?_modify_ne _ _ hne] using h.held id hid

theorem Owned.allocateSequence (h : m.Owned) (s : String) (n : ℕ) :
    (m.allocateSequence s n).2.Owned := by
  rcases allocateSequence_cases m s n h.free_nodup with ⟨_, msg, heq⟩ | ⟨hle, m₁, t, T, heq⟩
  · rw [heq]; exact h
  · rw [heq]
    refine (h.bindTable (s := s) T (n ⌈/⌉ m.blockSize)
      (fun j hj => mul_lt_of_lt_ceilDiv h.blockSize_pos hj) ?_).of_eq rfl rfl rfl rfl rfl
    exact (OrderedDict.items_erase_sublist _ _ _).subperm

theorem Owned.extendSequence (h : m.Owned) (s : String) (n : ℕ) :
    (m.extendSequence s n).2.Owned := by
  cases ht : m.blockTables.get? s with
  | none => rw [extendSequence_of_dead n ht]; exact h
  | some t =>
    have h₁ := (h.touch s).fillLastBlock n ht
    rcases extendSequence_cases n h.blockSize_pos h.free_nodup ht with
      ⟨_, msg, heq⟩ | ⟨hle, m₂, t', T, heq⟩
    · rw [heq]; exact h₁
    · rw [heq]
      have hsize := fillLastBlock_blockSize (m.touch s) t n
      have htab := fillLastBlock_blockTables (m.touch s) t n
      refine h₁.bindTable T _ (fun j hj => ?_) ?_
      · rw [hsize]; exact mul_lt_of_lt_ceilDiv h.blockSize_pos hj
      · rw [mapped, htab]
        exact (OrderedDict.items_perm_erase BlockTable.physicalBlockIds ht).symm.subperm

/-- Freeing a live sequence gives all its blocks back. -/
theorem Owned.released (h : m.Owned) {t : BlockTable} (ht : m.blockTables.get? s = some t) :
    Released m t.physicalBlockIds (t.physicalBlockIds.foldl releaseBlock m) :=
  foldl_releaseBlock_released _ m (h.table_nodup ht) fun id hid =>
    (h.held id (mem_mapped ht hid)).imp fun _ hb => ⟨hb.1, hb.2.refCount⟩

theorem release_isFree {b : PhysicalBlock} {n : ℕ} (hb : b.IsHeld n) : b.release.IsFree := by
  constructor <;> simp [PhysicalBlock.release, hb.refCount]

/-- Where the ids go when `s` is freed: from its table to the free list. -/
theorem Owned.free_pool_perm (h : m.Owned) (s : String) :
    ((m.freeSequence s).freeBlockIds ++ (m.freeSequence s).mapped).Perm
      (m.freeBlockIds ++ m.mapped) := by
  cases ht : m.blockTables.get? s with
  | none => rw [freeSequence_of_dead ht]
  | some t =>
    have R := h.released ht
    have hp := OrderedDict.items_perm_erase BlockTable.physicalBlockIds ht
    rw [freeSequence_of_live ht]
    refine List.perm_iff_count.mpr fun a => ?_
    have hcount := hp.count_eq a
    rw [mapped, mapped, R.manager]
    simp only [List.count_append, List.count_reverse] at hcount ⊢
    omega

theorem Owned.freeSequence (h : m.Owned) (s : String) : (m.freeSequence s).Owned := by
  cases ht : m.blockTables.get? s with
  | none => rw [freeSequence_of_dead ht]; exact h
  | some t =>
    have R := h.released ht
    have hperm := h.free_pool_perm s
    rw [freeSequence_of_live ht] at hperm ⊢
    set m₁ := t.physicalBlockIds.foldl releaseBlock m
    have hsize : m₁.blockSize = m.blockSize := by rw [R.manager]
    have htab : m₁.blockTables = m.blockTables := by rw [R.manager]
    have hsub : ((m.blockTables.erase s).items BlockTable.physicalBlockIds).Sublist m.mapped :=
      OrderedDict.items_erase_sublist _ _ _
    constructor
    · exact hsize ▸ h.blockSize_pos
    · exact (R.length.trans h.length_blocks).trans (by rw [R.manager])
    · intro id b' hb'
      change b'.blockSize = m₁.blockSize
      rw [hsize]
      by_cases hid : id ∈ t.physicalBlockIds
      · have hb' := (R.released id hid).symm.trans hb'
        obtain ⟨b, hb, rfl⟩ := Option.map_eq_some_iff.mp hb'
        rw [← h.sizes id b hb, PhysicalBlock.release]
        split <;> rfl
      · exact h.sizes id b' ((R.frame id hid).symm.trans hb')
    · exact hperm.nodup_iff.mpr h.nodup
    · intro id hid
      have hid' : id ∈ t.physicalBlockIds.reverse ++ m.freeBlockIds := by
        have : m₁.freeBlockIds = t.physicalBlockIds.reverse ++ m.freeBlockIds := by rw [R.manager]
        exact this ▸ hid
      by_cases hmem : id ∈ t.physicalBlockIds
      · obtain ⟨b, hb, hheld⟩ := h.held id (mem_mapped ht hmem)
        exact ⟨b.release, by rw [R.released id hmem, hb, Option.map_some], release_isFree hheld⟩
      · have hfree : id ∈ m.freeBlockIds := by simpa [hmem] using hid'
        obtain ⟨b, hb, hbf⟩ := h.free id hfree
        exact ⟨b, (R.frame id hmem).trans hb, hbf⟩
    · intro id hid
      change ∃ b, m₁.blocks[id]? = some b ∧ b.IsHeld m₁.blockSize
      have hid' : id ∈ (m.blockTables.erase s).items BlockTable.physicalBlockIds := htab ▸ hid
      have hnot : id ∉ t.physicalBlockIds := by
        intro hmem
        obtain ⟨s', t', ht', hid''⟩ := OrderedDict.mem_items_iff.mp hid'
        rw [OrderedDict.get?_erase] at ht'
        split at ht'
        · cases ht'
        · rename_i hne
          exact hne (h.eq_of_mem ht hmem ht' hid'')
      obtain ⟨b, hb, hheld⟩ := h.held id (hsub.subset hid')
      exact ⟨b, (R.frame id hnot).trans hb, hsize ▸ hheld⟩

theorem Owned.evictLru (h : m.Owned) : m.evictLru.2.Owned := by
  rcases evictLru_cases m with ⟨_, heq⟩ | ⟨v, _, _, ⟨_, heq⟩ | ⟨t, _, heq⟩⟩
  · rw [heq]; exact h
  · rw [heq]; exact h.of_eq rfl rfl rfl rfl rfl
  · rw [heq]
    have h₀ : Owned { m with accessOrder := m.accessOrder.erase v } := h.of_eq rfl rfl rfl rfl rfl
    exact (h₀.freeSequence v).of_eq rfl rfl rfl rfl rfl

/-- Every call keeps ownership, the calls that raise included. -/
theorem Owned.perform (h : m.Owned) (c : Call) : (m.perform c).2.Owned := by
  cases c with
  | allocateSequence s n => exact h.allocateSequence s n
  | extendSequence s n => exact h.extendSequence s n
  | freeSequence s => exact h.freeSequence s
  | evictLru => exact h.evictLru
  | getBlockTable s => exact h.touch s

theorem owned_of_run {numBlocks blockSize : ℕ} (hbs : 0 < blockSize) {evs : List Event}
    (hrun : Trace.Run Step (new numBlocks blockSize) evs m) : m.Owned :=
  hrun.always (new_owned numBlocks hbs) fun m ev m' h hst => by
    have := h.perform ev.1
    rwa [show m.perform ev.1 = (ev.2, m') from hst] at this

/-! ### Other sequences are undisturbed -/

/-- Sequence `b` kept its table, and every block in it its record. -/
structure Undisturbed (b : String) (m m' : CacheManager) : Prop where
  table : m'.blockTables.get? b = m.blockTables.get? b
  blocks : ∀ t, m.blockTables.get? b = some t → ∀ id ∈ t.physicalBlockIds,
    m'.blocks[id]? = m.blocks[id]?

variable {b : String}

theorem Undisturbed.refl (b : String) (m : CacheManager) : Undisturbed b m m :=
  ⟨rfl, fun _ _ _ _ => rfl⟩

theorem Undisturbed.trans {m₁ m₂ m₃ : CacheManager} (h : Undisturbed b m₁ m₂)
    (h' : Undisturbed b m₂ m₃) : Undisturbed b m₁ m₃ :=
  ⟨h'.table.trans h.table, fun t ht id hid =>
    (h'.blocks t (h.table.trans ht) id hid).trans (h.blocks t ht id hid)⟩

/-- Taking blocks for `s` leaves the other sequences alone: what is popped was free. -/
theorem Owned.undisturbed_bindTable (h : m.Owned) {m₁ : CacheManager} {t t' : BlockTable}
    {tokens count : ℕ} (T : Taken m t tokens count m₁ t') (k : ℕ) (hne : b ≠ s) :
    Undisturbed b m (m₁.bindTable s t' k) where
  table := by
    have htab : m₁.blockTables = m.blockTables := by rw [T.manager]
    rw [CacheManager.bindTable, OrderedDict.get?_insert_of_ne _ _ hne, htab]
  blocks := fun u hu id hid => T.frame id fun hm =>
    h.not_mapped_of_free (List.mem_of_mem_take hm) (mem_mapped hu hid)

theorem Owned.undisturbed_fillLastBlock (h : m.Owned) {t : BlockTable} (n : ℕ)
    (ht : m.blockTables.get? s = some t) (hne : b ≠ s) :
    Undisturbed b m (m.fillLastBlock t n).1 where
  table := by rw [fillLastBlock_blockTables]
  blocks := by
    intro u hu id hid
    rcases h.fillLastBlock_cases n ht with ⟨_, heq⟩ | ⟨init, last, _, hcat, _, _, heq⟩
    · rw [heq]
    · have hlast : last ≠ id := fun he =>
        hne (h.eq_of_mem ht (show last ∈ t.physicalBlockIds by simp [hcat]) hu (he ▸ hid))
      rw [heq]
      exact List.getElem?_modify_ne _ _ hlast

theorem Owned.undisturbed_freeSequence (h : m.Owned) (hne : b ≠ s) :
    Undisturbed b m (m.freeSequence s) := by
  cases ht : m.blockTables.get? s with
  | none => rw [freeSequence_of_dead ht]; exact .refl b m
  | some t =>
    have R := h.released ht
    have htab : (t.physicalBlockIds.foldl releaseBlock m).blockTables = m.blockTables := by
      rw [R.manager]
    rw [freeSequence_of_live ht]
    refine ⟨?_, fun u hu id hid => R.frame id fun hm => hne (h.eq_of_mem ht hm hu hid)⟩
    change ((t.physicalBlockIds.foldl releaseBlock m).blockTables.erase s).get? b = _
    rw [OrderedDict.get?_erase_of_ne _ hne, htab]

/-- The sequence a call names; eviction names none. -/
def Call.target : Call → Option String
  | .allocateSequence s _ | .extendSequence s _ | .freeSequence s | .getBlockTable s => some s
  | .evictLru => none

/-- A call disturbs at most the sequence it names and the one it evicts. -/
theorem Owned.undisturbed_perform (h : m.Owned) {c : Call} (htarget : c.target ≠ some b)
    (hvictim : (m.perform c).1 ≠ .ok (.victim (some b))) :
    Undisturbed b m (m.perform c).2 := by
  cases c with
  | allocateSequence s n =>
    have hne : b ≠ s := fun he => htarget (he ▸ rfl)
    rcases allocateSequence_cases m s n h.free_nodup with ⟨_, _, heq⟩ | ⟨_, m₁, t, T, heq⟩
    · simp only [CacheManager.perform, heq]; exact .refl b m
    · simp only [CacheManager.perform, heq]
      have := h.undisturbed_bindTable (s := s) T (n ⌈/⌉ m.blockSize) hne
      exact ⟨this.table, this.blocks⟩
  | extendSequence s n =>
    have hne : b ≠ s := fun he => htarget (he ▸ rfl)
    cases ht : m.blockTables.get? s with
    | none => simp only [CacheManager.perform, extendSequence_of_dead n ht]; exact .refl b m
    | some t =>
      have h₁ := (h.touch s).fillLastBlock n ht
      have hfill : Undisturbed b m ((m.touch s).fillLastBlock t n).1 :=
        have hu := (h.touch s).undisturbed_fillLastBlock n ht hne
        ⟨hu.table, hu.blocks⟩
      rcases extendSequence_cases n h.blockSize_pos h.free_nodup ht with
        ⟨_, _, heq⟩ | ⟨_, m₂, t', T, heq⟩
      · simp only [CacheManager.perform, heq]; exact hfill
      · simp only [CacheManager.perform, heq]
        exact hfill.trans (h₁.undisturbed_bindTable T _ hne)
  | freeSequence s => exact h.undisturbed_freeSequence fun he => htarget (he ▸ rfl)
  | evictLru =>
    rcases evictLru_cases m with ⟨_, heq⟩ | ⟨v, _, _, ⟨_, heq⟩ | ⟨t, _, heq⟩⟩
    · simp only [CacheManager.perform, heq]; exact .refl b m
    · simp only [CacheManager.perform, heq]; exact ⟨rfl, fun _ _ _ _ => rfl⟩
    · have hne : b ≠ v := by
        rintro rfl
        exact hvictim (by simp only [CacheManager.perform, heq]; rfl)
      have h₀ : Owned { m with accessOrder := m.accessOrder.erase v } :=
        h.of_eq rfl rfl rfl rfl rfl
      have := h₀.undisturbed_freeSequence hne
      simp only [CacheManager.perform, heq]
      exact ⟨this.table, this.blocks⟩
  | getBlockTable s => exact ⟨rfl, fun _ _ _ _ => rfl⟩

theorem Owned.freeSequence_dims (h : m.Owned) (s : String) :
    (m.freeSequence s).numBlocks = m.numBlocks ∧ (m.freeSequence s).blockSize = m.blockSize := by
  cases ht : m.blockTables.get? s with
  | none => rw [freeSequence_of_dead ht]; exact ⟨rfl, rfl⟩
  | some t => rw [freeSequence_of_live ht, (h.released ht).manager]; exact ⟨rfl, rfl⟩

/-- The pool's dimensions never change. -/
theorem Owned.perform_dims (h : m.Owned) (c : Call) :
    (m.perform c).2.numBlocks = m.numBlocks ∧ (m.perform c).2.blockSize = m.blockSize := by
  cases c with
  | allocateSequence s n =>
    change (m.allocateSequence s n).2.numBlocks = _ ∧ (m.allocateSequence s n).2.blockSize = _
    rcases allocateSequence_cases m s n h.free_nodup with ⟨_, _, heq⟩ | ⟨_, m₁, t, T, heq⟩
    · rw [heq]; exact ⟨rfl, rfl⟩
    · rw [heq, T.manager]; exact ⟨rfl, rfl⟩
  | extendSequence s n =>
    change (m.extendSequence s n).2.numBlocks = _ ∧ (m.extendSequence s n).2.blockSize = _
    cases ht : m.blockTables.get? s with
    | none => rw [extendSequence_of_dead n ht]; exact ⟨rfl, rfl⟩
    | some t =>
      have hsize := fillLastBlock_blockSize (m.touch s) t n
      have hnum : ((m.touch s).fillLastBlock t n).1.numBlocks = m.numBlocks := by
        rcases (h.touch s).fillLastBlock_cases n ht with ⟨_, heq⟩ | ⟨_, _, _, _, _, _, heq⟩ <;>
          (rw [heq]; rfl)
      rcases extendSequence_cases n h.blockSize_pos h.free_nodup ht with
        ⟨_, _, heq⟩ | ⟨_, m₂, t', T, heq⟩
      · rw [heq]; exact ⟨hnum, hsize⟩
      · rw [heq, T.manager]; exact ⟨hnum, hsize⟩
  | freeSequence s => exact h.freeSequence_dims s
  | evictLru =>
    change m.evictLru.2.numBlocks = _ ∧ m.evictLru.2.blockSize = _
    rcases evictLru_cases m with ⟨_, heq⟩ | ⟨v, _, _, ⟨_, heq⟩ | ⟨t, _, heq⟩⟩
    · rw [heq]; exact ⟨rfl, rfl⟩
    · rw [heq]; exact ⟨rfl, rfl⟩
    · have h₀ : Owned { m with accessOrder := m.accessOrder.erase v } :=
        h.of_eq rfl rfl rfl rfl rfl
      rw [heq]; exact h₀.freeSequence_dims v
  | getBlockTable s => exact ⟨rfl, rfl⟩

theorem dims_of_run {numBlocks blockSize : ℕ} (hbs : 0 < blockSize) {evs : List Event}
    (hrun : Trace.Run Step (new numBlocks blockSize) evs m) :
    m.numBlocks = numBlocks ∧ m.blockSize = blockSize := by
  refine hrun.invariant (I := fun _ m => m.numBlocks = numBlocks ∧ m.blockSize = blockSize)
    ⟨rfl, rfl⟩ fun evs m ev m' hr hi hst => ?_
  have := (owned_of_run hbs hr).perform_dims ev.1
  rw [show m.perform ev.1 = (ev.2, m') from hst] at this
  exact ⟨this.1.trans hi.1, this.2.trans hi.2⟩

/-! ### Nothing leaks as long as no live id is allocated again -/

/-- Every block is in the free list or in a table. -/
def Complete (m : CacheManager) : Prop :=
  (m.freeBlockIds ++ m.mapped).Perm (List.range m.numBlocks)

theorem new_complete (numBlocks blockSize : ℕ) : (new numBlocks blockSize).Complete := by
  have : (new numBlocks blockSize).mapped = [] := rfl
  rw [Complete, this, List.append_nil]
  exact List.reverse_perm _

theorem Owned.complete_allocateSequence (h : m.Owned) (hc : m.Complete)
    (hdead : m.blockTables.get? s = none) (n : ℕ) : (m.allocateSequence s n).2.Complete := by
  rcases allocateSequence_cases m s n h.free_nodup with ⟨_, _, heq⟩ | ⟨_, m₁, t, T, heq⟩
  · rw [heq]; exact hc
  · have hnum : m₁.numBlocks = m.numBlocks := by rw [T.manager]
    have hperm := T.pool_perm s (n ⌈/⌉ m.blockSize)
    rw [OrderedDict.erase_of_not_mem (OrderedDict.get?_eq_none_iff.mp hdead)] at hperm
    rw [heq]
    change (_ ++ _ : List ℕ).Perm (List.range m₁.numBlocks)
    rw [hnum]
    exact hperm.trans hc

theorem Owned.complete_extendSequence (h : m.Owned) (hc : m.Complete) (s : String) (n : ℕ) :
    (m.extendSequence s n).2.Complete := by
  cases ht : m.blockTables.get? s with
  | none => rw [extendSequence_of_dead n ht]; exact hc
  | some t =>
    have hc₁ : ((m.touch s).fillLastBlock t n).1.Complete := by
      rcases (h.touch s).fillLastBlock_cases n ht with ⟨_, heq⟩ | ⟨_, _, _, _, _, _, heq⟩ <;>
        (rw [heq]; exact hc)
    have htab := fillLastBlock_blockTables (m.touch s) t n
    rcases extendSequence_cases n h.blockSize_pos h.free_nodup ht with
      ⟨_, _, heq⟩ | ⟨_, m₂, t', T, heq⟩
    · rw [heq]; exact hc₁
    · rw [heq]
      have hnum : m₂.numBlocks = ((m.touch s).fillLastBlock t n).1.numBlocks := by rw [T.manager]
      have hperm := T.pool_perm s (((m.touch s).fillLastBlock t n).2 ⌈/⌉ m.blockSize)
      rw [htab] at hperm
      change (_ ++ _ : List ℕ).Perm (List.range m₂.numBlocks)
      rw [hnum]
      refine hperm.trans ((List.Perm.append_left _ ?_).trans hc₁)
      rw [mapped, htab]
      exact (OrderedDict.items_perm_erase BlockTable.physicalBlockIds ht).symm

theorem Owned.complete_freeSequence (h : m.Owned) (hc : m.Complete) (s : String) :
    (m.freeSequence s).Complete := by
  rw [Complete, (h.freeSequence_dims s).1]
  exact (h.free_pool_perm s).trans hc

theorem Owned.complete_evictLru (h : m.Owned) (hc : m.Complete) : m.evictLru.2.Complete := by
  rcases evictLru_cases m with ⟨_, heq⟩ | ⟨v, _, _, ⟨_, heq⟩ | ⟨t, _, heq⟩⟩
  · rw [heq]; exact hc
  · rw [heq]; exact hc
  · have h₀ : Owned { m with accessOrder := m.accessOrder.erase v } := h.of_eq rfl rfl rfl rfl rfl
    rw [heq]; exact h₀.complete_freeSequence hc v

/-- CORRECT: whatever is called on a fresh manager, with whatever ids, no block is mapped twice: the
    free list holds each valid id at most once and only clean blocks, the tables are duplicate-free,
    disjoint from each other and from the free list, and hold only blocks with one reference and at
    least one token; and no call touches the table or the fill of a live sequence that it neither
    names nor evicts. -/
theorem never_mapped_twice {numBlocks blockSize : ℕ} (hbs : 0 < blockSize) {evs : List Event}
    (hrun : Trace.Run Step (new numBlocks blockSize) evs m) :
    (m.freeBlockIds.Nodup ∧ ∀ id ∈ m.freeBlockIds, id < numBlocks) ∧
    (∀ s t, m.blockTables.get? s = some t → t.physicalBlockIds.Nodup ∧
      ∀ id ∈ t.physicalBlockIds, id ∉ m.freeBlockIds ∧
        ∀ s' t', m.blockTables.get? s' = some t' → id ∈ t'.physicalBlockIds → s' = s) ∧
    (∀ id ∈ m.freeBlockIds, ∃ b, m.blocks[id]? = some b ∧
      b.status = .FREE ∧ b.refCount = 0 ∧ b.numTokensFilled = 0) ∧
    (∀ s t, m.blockTables.get? s = some t → ∀ id ∈ t.physicalBlockIds,
      ∃ b, m.blocks[id]? = some b ∧ b.status = .ALLOCATED ∧ b.refCount = 1 ∧
        1 ≤ b.numTokensFilled ∧ b.numTokensFilled ≤ blockSize) ∧
    (∀ (c : Call) (b : String) (t : BlockTable), m.blockTables.get? b = some t →
      c.target ≠ some b → (m.perform c).1 ≠ .ok (.victim (some b)) →
      (m.perform c).2.blockTables.get? b = some t ∧ ∀ id ∈ t.physicalBlockIds,
        (m.perform c).2.blocks[id]?.map PhysicalBlock.numTokensFilled =
          m.blocks[id]?.map PhysicalBlock.numTokensFilled) := by
  have h := owned_of_run hbs hrun
  obtain ⟨hnum, hsize⟩ := dims_of_run hbs hrun
  refine ⟨⟨h.free_nodup, fun id hid => ?_⟩, fun s t ht => ⟨h.table_nodup ht, fun id hid =>
    ⟨fun hf => h.not_mapped_of_free hf (Owned.mem_mapped ht hid), fun s' t' ht' hid' =>
      h.eq_of_mem ht hid ht' hid'⟩⟩, fun id hid => ?_, fun s t ht id hid => ?_,
    fun c b t ht htarget hvictim => ?_⟩
  · exact hnum ▸ h.valid (List.mem_append_left _ hid)
  · obtain ⟨b, hb, hf⟩ := h.free id hid
    exact ⟨b, hb, hf.status, hf.refCount, hf.filled⟩
  · obtain ⟨b, hb, hh⟩ := h.held id (Owned.mem_mapped ht hid)
    exact ⟨b, hb, hh.status, hh.refCount, hh.filled_pos, hsize ▸ hh.filled_le⟩
  · have hu := h.undisturbed_perform htarget hvictim
    exact ⟨hu.table.trans ht, fun id hid => by rw [hu.blocks t ht id hid]⟩

/-- Allocating a live id again: the old table's blocks are lost, none is handed out twice. -/
theorem never_mapped_twice_relocated :
    let m := (((new 4 2).allocateSequence "a" 3).2.allocateSequence "a" 1).2
    m.freeBlockIds.Nodup ∧ 1 ∉ m.freeBlockIds := by
  intro m
  have h₁ := step_perform (new 4 2) (.allocateSequence "a" 3)
  have h₂ := step_perform ((new 4 2).allocateSequence "a" 3).2 (.allocateSequence "a" 1)
  have h := never_mapped_twice (by decide) (.snoc (.snoc .nil h₁) h₂)
  exact ⟨h.1.1, (h.2.1 "a" { sequenceId := "a", blockSize := 2, physicalBlockIds := [1] } rfl).2 1
    List.mem_cons_self |>.1⟩

end calls

end CacheManager

end ModelServing
