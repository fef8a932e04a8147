import ModelServing.Cache.Manager

/-! What each cache operation does, said once: `Taken` for the block loop of allocation and
    extension, `Released` for the loop of `free_sequence`, and one `_cases` lemma a call that lists
    every way it can end with the state it leaves. Nothing after this module unfolds a cache
    operation. -/

namespace ModelServing

open Chunks

/-- `n` more slots of the block are used. -/
def PhysicalBlock.fill (b : PhysicalBlock) (n : ℕ) : PhysicalBlock :=
  { b with numTokensFilled := b.numTokensFilled + n }

namespace CacheManager

theorem tokensToBlocks_eq (m : CacheManager) (n : ℕ) : m.tokensToBlocks n = n ⌈/⌉ m.blockSize :=
  (ceilDiv_eq m.blockSize n).symm

/-! ### What the loops do -/

/-- The block loop popped `count` ids off the free list, appended them to the table and filled the
    `j`-th of them with its share of `tokens`. -/
structure Taken (m : CacheManager) (t : BlockTable) (tokens count : ℕ)
    (m' : CacheManager) (t' : BlockTable) : Prop where
  manager : m' = { m with freeBlockIds := m.freeBlockIds.drop count, blocks := m'.blocks }
  table : t' = { t with physicalBlockIds := t.physicalBlockIds ++ m.freeBlockIds.take count }
  length : m'.blocks.length = m.blocks.length
  frame : ∀ id, id ∉ m.freeBlockIds.take count → m'.blocks[id]? = m.blocks[id]?
  filled : ∀ j id, j < count → m.freeBlockIds[j]? = some id →
    m'.blocks[id]? = m.blocks[id]?.map fun b =>
      { b.allocate with numTokensFilled := min (tokens - j * m.blockSize) m.blockSize }

theorem takeBlocks_taken (m : CacheManager) (t : BlockTable) (tokens : ℕ)
    (hnd : m.freeBlockIds.Nodup) : ∀ (count : ℕ), count ≤ m.freeBlockIds.length →
    Taken m t tokens count (m.takeBlocks t tokens count).1 (m.takeBlocks t tokens count).2
  | 0, _ => by
      refine ⟨?_, ?_, rfl, fun _ _ => rfl, fun _ _ h => absurd h (Nat.not_lt_zero _)⟩ <;>
        simp [takeBlocks]
  | count + 1, hc => by
      have ih := takeBlocks_taken m t tokens hnd count (by omega)
      have hlt : count < m.freeBlockIds.length := hc
      obtain ⟨id, hid⟩ : ∃ id, m.freeBlockIds[count]? = some id :=
        ⟨_, List.getElem?_eq_getElem hlt⟩
      have hdrop : m.freeBlockIds.drop count = id :: m.freeBlockIds.drop (count + 1) := by
        rw [List.drop_eq_getElem_cons hlt, ← (List.getElem?_eq_some_iff.mp hid).2]
      have htake : m.freeBlockIds.take (count + 1) = m.freeBlockIds.take count ++ [id] := by
        rw [List.take_add_one, hid]; rfl
      have hstep : m.takeBlocks t tokens (count + 1) =
          takeBlock tokens (m.takeBlocks t tokens count) count := by
        simp [takeBlocks, List.range_succ]
      set r := m.takeBlocks t tokens count
      have hfree : r.1.freeBlockIds = id :: m.freeBlockIds.drop (count + 1) := by
        rw [ih.manager]; exact hdrop
      have hbs : r.1.blockSize = m.blockSize := by rw [ih.manager]
      have hnot : id ∉ m.freeBlockIds.take count := by
        intro hmem
        have := (List.nodup_append.mp (htake ▸ hnd.sublist (List.take_sublist _ _))).2.2
        exact this id hmem id (List.mem_singleton_self _) rfl
      rw [hstep, takeBlock, hfree]
      refine ⟨?_, ?_, ?_, ?_, ?_⟩
      · rw [ih.manager]
      · simp only [BlockTable.appendBlock]
        rw [ih.table, htake, List.append_assoc]
      · simp only [List.length_modify]; exact ih.length
      · intro id' hid'
        rw [htake, List.mem_append, List.mem_singleton, not_or] at hid'
        rw [List.getElem?_modify_ne _ _ (Ne.symm hid'.2)]
        exact ih.frame id' hid'.1
      · intro j id' hj hjd
        rcases Nat.lt_succ_iff_lt_or_eq.mp hj with hj | rfl
        · have hne : id ≠ id' := by
            rintro rfl
            exact hnot (List.mem_take_iff_getElem.mpr ⟨j, by
              have := (List.getElem?_eq_some_iff.mp hjd).1; omega,
              (List.getElem?_eq_some_iff.mp hjd).2⟩)
          rw [List.getElem?_modify_ne _ _ hne]
          exact ih.filled j id' hj hjd
        · rw [hid] at hjd; cases hjd
          rw [List.getElem?_modify_eq, ih.frame id hnot, hbs]
          rfl

/-- The release loop returned every listed block to the free list. -/
structure Released (m : CacheManager) (ids : List ℕ) (m' : CacheManager) : Prop where
  manager : m' = { m with freeBlockIds := ids.reverse ++ m.freeBlockIds, blocks := m'.blocks }
  length : m'.blocks.length = m.blocks.length
  frame : ∀ id, id ∉ ids → m'.blocks[id]? = m.blocks[id]?
  released : ∀ id, id ∈ ids → m'.blocks[id]? = m.blocks[id]?.map PhysicalBlock.release

theorem release_status {b : PhysicalBlock} (h : b.refCount = 1) : b.release.status = .FREE := by
  simp [PhysicalBlock.release, h]

theorem releaseBlock_eq {m : CacheManager} {id : ℕ} {b : PhysicalBlock}
    (hb : m.blocks[id]? = some b) (hr : b.refCount = 1) :
    m.releaseBlock id = { m with
      freeBlockIds := id :: m.freeBlockIds, blocks := m.blocks.modify id PhysicalBlock.release } := by
  simp [releaseBlock, List.getElem?_modify_eq, hb, release_status hr]

/-- Blocks with one reference each, no block twice: the loop frees them all. -/
theorem foldl_releaseBlock_released : ∀ (ids : List ℕ) (m : CacheManager), ids.Nodup →
    (∀ id ∈ ids, ∃ b, m.blocks[id]? = some b ∧ b.refCount = 1) →
    Released m ids (ids.foldl releaseBlock m)
  | [], m, _, _ => ⟨rfl, rfl, fun _ _ => rfl, fun _ h => absurd h List.not_mem_nil⟩
  | id :: ids, m, hnd, hr => by
      obtain ⟨hid, hids⟩ := List.nodup_cons.mp hnd
      obtain ⟨b, hb, href⟩ := hr id List.mem_cons_self
      have heq := releaseBlock_eq hb href
      have hrest : ∀ id' ∈ ids, ∃ b, (m.releaseBlock id).blocks[id']? = some b ∧ b.refCount = 1 := by
        intro id' hid'
        have hne : id ≠ id' := fun h => hid (h ▸ hid')
        rw [heq]
        simp only [List.getElem?_modify_ne _ _ hne]
        exact hr id' (List.mem_cons_of_mem _ hid')
      have ih := foldl_releaseBlock_released ids (m.releaseBlock id) hids hrest
      rw [List.foldl_cons]
      refine ⟨?_, ?_, ?_, ?_⟩
      · rw [ih.manager, heq]; simp
      · rw [ih.length, heq]; simp
      · intro id' hid'
        rw [List.mem_cons, not_or] at hid'
        rw [ih.frame id' hid'.2, heq]
        exact List.getElem?_modify_ne _ _ (Ne.symm hid'.1)
      · intro id' hid'
        by_cases hmem : id' ∈ ids
        · have hne : id ≠ id' := fun h => hid (h ▸ hmem)
          rw [ih.released id' hmem, heq]
          simp only [List.getElem?_modify_ne _ _ hne]
        · obtain rfl : id' = id := (List.mem_cons.mp hid').resolve_right hmem
          rw [ih.frame id' hmem, heq]
          exact List.getElem?_modify_eq _ _ _

/-- Topping up touches only the fill of the table's last block. -/
theorem fillLastBlock_nil {m : CacheManager} {t : BlockTable} (tokens : ℕ)
    (h : t.physicalBlockIds = []) : m.fillLastBlock t tokens = (m, tokens) := by
  simp [fillLastBlock, h]

theorem fillLastBlock_concat {m : CacheManager} {t : BlockTable} (tokens : ℕ) {init : List ℕ}
    {last : ℕ} {b : PhysicalBlock} (h : t.physicalBlockIds = init ++ [last])
    (hb : m.blocks[last]? = some b) :
    m.fillLastBlock t tokens =
      ({ m with blocks := m.blocks.modify last (·.fill (min b.freeSlots tokens)) },
        tokens - min b.freeSlots tokens) := by
  simp only [fillLastBlock, h, List.getLast?_concat, hb]
  split
  · rfl
  · rename_i h0
    have h0 : b.freeSlots = 0 := by omega
    have hid : (fun b' : PhysicalBlock => b'.fill 0) = id := rfl
    simp [h0, hid, List.modify_id]

/-! ### What the calls do -/

/-- `s` now has the table `t`, for which `count` blocks were taken. -/
def bindTable (m : CacheManager) (s : String) (t : BlockTable) (count : ℕ) : CacheManager :=
  { m with blockTables := m.blockTables.insert s t, totalAllocated := m.totalAllocated + count }

/-- The table that `allocate_sequence` starts from. -/
def emptyTable (m : CacheManager) (s : String) : BlockTable :=
  { sequenceId := s, blockSize := m.blockSize }

theorem allocateSequence_cases (m : CacheManager) (s : String) (n : ℕ)
    (hnd : m.freeBlockIds.Nodup) :
    (m.numFreeBlocks < n ⌈/⌉ m.blockSize ∧
      ∃ msg, m.allocateSequence s n = (.error (.memoryError msg), m)) ∨
    (n ⌈/⌉ m.blockSize ≤ m.numFreeBlocks ∧ ∃ m₁ t,
      Taken m (m.emptyTable s) n (n ⌈/⌉ m.blockSize) m₁ t ∧
      m.allocateSequence s n = (.ok t, (m₁.touch s).bindTable s t (n ⌈/⌉ m.blockSize))) := by
  rw [← tokensToBlocks_eq]
  by_cases h : m.tokensToBlocks n > m.numFreeBlocks
  · exact Or.inl ⟨h, _, if_pos h⟩
  · refine Or.inr ⟨Nat.le_of_not_lt h, _, _, takeBlocks_taken m (m.emptyTable s) n hnd _
      (Nat.le_of_not_lt h), ?_⟩
    simp only [allocateSequence, if_neg h]
    rfl

theorem extendSequence_of_dead {m : CacheManager} {s : String} (n : ℕ)
    (h : m.blockTables.get? s = none) :
    m.extendSequence s n = (.error (.keyError s!"Sequence {s} not found"), m) := by
  simp only [extendSequence, h]

/-- Topping up changes block records only. -/
theorem fillLastBlock_eq (m : CacheManager) (t : BlockTable) (n : ℕ) :
    (m.fillLastBlock t n).1 = { m with blocks := (m.fillLastBlock t n).1.blocks } := by
  unfold fillLastBlock
  repeat' split
  all_goals rfl

theorem fillLastBlock_free (m : CacheManager) (t : BlockTable) (n : ℕ) :
    (m.fillLastBlock t n).1.freeBlockIds = m.freeBlockIds := by rw [fillLastBlock_eq]

theorem fillLastBlock_blockSize (m : CacheManager) (t : BlockTable) (n : ℕ) :
    (m.fillLastBlock t n).1.blockSize = m.blockSize := by rw [fillLastBlock_eq]

theorem fillLastBlock_blockTables (m : CacheManager) (t : BlockTable) (n : ℕ) :
    (m.fillLastBlock t n).1.blockTables = m.blockTables := by rw [fillLastBlock_eq]

/-- An extension of a live sequence tops up its last block, and then either has the blocks for the
    rest or raises with the top-up done. -/
theorem extendSequence_cases {m : CacheManager} {s : String} {t : BlockTable} (n : ℕ)
    (hbs : 0 < m.blockSize) (hnd : m.freeBlockIds.Nodup) (h : m.blockTables.get? s = some t) :
    let m₁ := ((m.touch s).fillLastBlock t n).1
    let rest := ((m.touch s).fillLastBlock t n).2
    (m.numFreeBlocks < rest ⌈/⌉ m.blockSize ∧
      ∃ msg, m.extendSequence s n = (.error (.memoryError msg), m₁)) ∨
    (rest ⌈/⌉ m.blockSize ≤ m.numFreeBlocks ∧ ∃ m₂ t',
      Taken m₁ t rest (rest ⌈/⌉ m.blockSize) m₂ t' ∧
      m.extendSequence s n =
        (.ok (rest ⌈/⌉ m.blockSize), m₂.bindTable s t' (rest ⌈/⌉ m.blockSize))) := by
  intro m₁ rest
  have hfree : m₁.freeBlockIds = m.freeBlockIds := fillLastBlock_free (m.touch s) t n
  have hsize : m₁.blockSize = m.blockSize := fillLastBlock_blockSize (m.touch s) t n
  have hneed : (if rest > 0 then m₁.tokensToBlocks rest else 0) = rest ⌈/⌉ m.blockSize := by
    rw [tokensToBlocks_eq, hsize]
    split
    · rfl
    · rw [show rest = 0 by omega, ceilDiv_eq, Nat.div_eq_of_lt (by omega)]
  have heq : m.extendSequence s n =
      if rest ⌈/⌉ m.blockSize > m₁.numFreeBlocks then
        (.error (.memoryError s!"Cannot extend seq {s} by {rest ⌈/⌉ m.blockSize} blocks"), m₁)
      else
        let r := m₁.takeBlocks t rest (rest ⌈/⌉ m.blockSize)
        (.ok (rest ⌈/⌉ m.blockSize), r.1.bindTable s r.2 (rest ⌈/⌉ m.blockSize)) := by
    simp only [extendSequence, h]
    rw [← hneed]
    rfl
  have hnum : m₁.numFreeBlocks = m.numFreeBlocks := congrArg List.length hfree
  rw [heq, hnum]
  by_cases hc : rest ⌈/⌉ m.blockSize > m.numFreeBlocks
  · exact Or.inl ⟨hc, _, if_pos hc⟩
  · refine Or.inr ⟨Nat.le_of_not_lt hc, _, _, takeBlocks_taken m₁ t rest (hfree ▸ hnd) _ ?_, ?_⟩
    · rw [hfree]; exact Nat.le_of_not_lt hc
    · rw [if_neg hc]

theorem freeSequence_of_dead {m : CacheManager} {s : String} (h : m.blockTables.get? s = none) :
    m.freeSequence s = m := by simp only [freeSequence, h]

theorem freeSequence_of_live {m : CacheManager} {s : String} {t : BlockTable}
    (h : m.blockTables.get? s = some t) :
    m.freeSequence s =
      { t.physicalBlockIds.foldl releaseBlock m with
        blockTables := (t.physicalBlockIds.foldl releaseBlock m).blockTables.erase s
        accessOrder := (t.physicalBlockIds.foldl releaseBlock m).accessOrder.erase s } := by
  simp only [freeSequence, h]

/-- Eviction finds nothing to evict, frees the sequence it popped, or has popped an id that has no
    table. -/
theorem evictLru_cases (m : CacheManager) :
    (m.accessOrder.keys = [] ∧ m.evictLru = (.ok none, m)) ∨
    (∃ v, m.accessOrder.get? v = some () ∧ m.accessOrder.keys.head? = some v ∧
      ((m.blockTables.get? v = none ∧ m.evictLru =
          (.error (.keyError v), { m with accessOrder := m.accessOrder.erase v })) ∨
        ∃ t, m.blockTables.get? v = some t ∧ m.evictLru = (.ok (some v),
          { { m with accessOrder := m.accessOrder.erase v }.freeSequence v with
            totalEvicted :=
              ({ m with accessOrder := m.accessOrder.erase v }.freeSequence v).totalEvicted + 1 }))) := by
  cases hp : m.accessOrder.popFirst with
  | none =>
    exact Or.inl ⟨OrderedDict.popFirst_eq_none_iff.mp hp, by simp only [evictLru, hp]⟩
  | some p =>
    obtain ⟨⟨v, u⟩, rest⟩ := p
    obtain ⟨hv, rfl⟩ := OrderedDict.popFirst_eq_some hp
    refine Or.inr ⟨v, hv, OrderedDict.head?_keys_of_popFirst hp, ?_⟩
    cases ht : m.blockTables.get? v with
    | none => exact Or.inl ⟨rfl, by simp only [evictLru, hp, ht]⟩
    | some t => exact Or.inr ⟨t, rfl, by simp only [evictLru, hp, ht]⟩

theorem evictLru_none {m m' : CacheManager} (h : m.evictLru = (.ok none, m')) :
    m.accessOrder.keys = [] ∧ m' = m := by
  rcases evictLru_cases m with ⟨hnil, heq⟩ | ⟨w, -, -, ⟨-, heq⟩ | ⟨t, -, heq⟩⟩ <;>
    cases h.symm.trans heq
  exact ⟨hnil, rfl⟩

theorem evictLru_ok {m m' : CacheManager} {v : String} (h : m.evictLru = (.ok (some v), m')) :
    m.accessOrder.keys.head? = some v ∧ (∃ t, m.blockTables.get? v = some t) ∧
      m' = { { m with accessOrder := m.accessOrder.erase v }.freeSequence v with
        totalEvicted :=
          ({ m with accessOrder := m.accessOrder.erase v }.freeSequence v).totalEvicted + 1 } := by
  rcases evictLru_cases m with ⟨-, heq⟩ | ⟨w, -, hhead, ⟨-, heq⟩ | ⟨t, ht, heq⟩⟩ <;>
    cases h.symm.trans heq
  exact ⟨hhead, ⟨t, ht⟩, rfl⟩

end CacheManager

end ModelServing
