import ModelServing.Cache.TokenMap

/-! Growing a sequence. `extend_sequence` tops up the last block before it knows whether the pool has
    the blocks for the rest, so an extension that runs out of blocks is clean only where there was
    nothing to top up. While no call raises, growing in steps is the same as allocating at once. -/

namespace ModelServing

open Chunks

namespace CacheManager

variable {m m' m₁ m₂ : CacheManager} {numBlocks blockSize : ℕ} {evs : List Event} {s : String}
  {t t' : BlockTable} {n k : ℕ}

/-- The free slots in the last block of `s`; none where `s` has no block. -/
def room (m : CacheManager) (s : String) : ℕ :=
  (((m.blockTables.get? s).bind fun t => t.physicalBlockIds.getLast?).bind fun id =>
    m.blocks[id]?).elim 0 PhysicalBlock.freeSlots

/-- The tokens in the blocks of `s`. -/
def heldTokens (m : CacheManager) (s : String) : ℕ :=
  (m.blockTables.get? s).elim 0 fun t => (t.physicalBlockIds.map fun id => (m.fill id).getD 0).sum

/-- The free list, every block record, every table and the allocation count are as before. -/
structure Untouched (m m' : CacheManager) : Prop where
  freeBlockIds : m'.freeBlockIds = m.freeBlockIds
  blocks : m'.blocks = m.blocks
  blockTables : m'.blockTables = m.blockTables
  totalAllocated : m'.totalAllocated = m.totalAllocated

/-- An extension that raises has changed nothing. -/
def AllOrNothing (m : CacheManager) (s : String) (n : ℕ) : Prop :=
  (∃ err, (m.extendSequence s n).1 = .error err) → Untouched m (m.extendSequence s n).2

/-! ### Failing extensions -/

theorem room_of_dead (h : m.blockTables.get? s = none) : m.room s = 0 := by simp [room, h]

theorem room_of_nil (ht : m.blockTables.get? s = some t) (hnil : t.physicalBlockIds = []) :
    m.room s = 0 := by simp [room, ht, hnil]

theorem Owned.room_concat (h : m.Owned) (ht : m.blockTables.get? s = some t) {init : List ℕ}
    {last : ℕ} {b : PhysicalBlock} (hcat : t.physicalBlockIds = init ++ [last])
    (hb : m.blocks[last]? = some b) : m.room s = m.blockSize - b.numTokensFilled := by
  simp [room, ht, hcat, hb, PhysicalBlock.freeSlots, h.sizes last b hb]

/-- The top-up takes what the last block has room for. -/
theorem Owned.fillLastBlock_rest (h : m.Owned) (ht : m.blockTables.get? s = some t) (n : ℕ) :
    ((m.touch s).fillLastBlock t n).2 = n - m.room s := by
  rcases (h.touch s).fillLastBlock_cases n ht with ⟨hnil, heq⟩ | ⟨init, last, b, hcat, hb, _, heq⟩
  · rw [heq, room_of_nil ht hnil]
    rfl
  · rw [heq, h.room_concat ht hcat hb]
    change n - min (m.blockSize - b.numTokensFilled) n = _
    omega

/-- Topping up leaves the block records alone only where there is no room or no token. -/
theorem Owned.fillLastBlock_blocks_iff (h : m.Owned) (ht : m.blockTables.get? s = some t) (n : ℕ) :
    ((m.touch s).fillLastBlock t n).1.blocks = m.blocks ↔ m.room s = 0 ∨ n = 0 := by
  rcases (h.touch s).fillLastBlock_cases n ht with ⟨hnil, heq⟩ | ⟨init, last, b, hcat, hb, _, heq⟩
  · rw [heq]
    exact iff_of_true rfl (Or.inl (room_of_nil ht hnil))
  · rw [heq, h.room_concat ht hcat hb]
    change m.blocks.modify last (·.fill (min (m.blockSize - b.numTokensFilled) n)) = m.blocks ↔ _
    have hb : m.blocks[last]? = some b := hb
    constructor
    · intro hsame
      have hlast := congrArg (·[last]?) hsame
      simp only [List.getElem?_modify_eq, hb, Option.map_eq_map, Option.map_some,
        Option.some.injEq] at hlast
      have hfill := congrArg PhysicalBlock.numTokensFilled hlast
      simp only [PhysicalBlock.fill] at hfill
      omega
    · intro hnone
      have hzero : min (m.blockSize - b.numTokensFilled) n = 0 := by omega
      have hid : (fun b : PhysicalBlock => b.fill 0) = id := rfl
      rw [hzero, hid, List.modify_id]

/-- A failing extension is clean exactly where the last block was full already. -/
theorem Owned.allOrNothing_iff (h : m.Owned) (s : String) (n : ℕ) :
    AllOrNothing m s n ↔ m.room s = 0 ∨ (n - m.room s) ⌈/⌉ m.blockSize ≤ m.numFreeBlocks := by
  cases ht : m.blockTables.get? s with
  | none =>
    refine iff_of_true (fun _ => ?_) (Or.inl (room_of_dead ht))
    rw [extendSequence_of_dead n ht]
    exact ⟨rfl, rfl, rfl, rfl⟩
  | some t =>
    have hrest := h.fillLastBlock_rest ht n
    rcases extendSequence_cases n h.blockSize_pos h.free_nodup ht with
      ⟨hlt, msg, heq⟩ | ⟨hle, m₂, t', T, heq⟩
    · rw [hrest] at hlt
      have hpos : n ≠ 0 := by
        rintro rfl
        simp at hlt
      have hblocks := h.fillLastBlock_blocks_iff ht n
      rw [AllOrNothing, heq]
      constructor
      · intro hclean
        exact Or.inl ((hblocks.mp (hclean ⟨_, rfl⟩).blocks).resolve_right hpos)
      · rintro (hroom | hfits) -
        · refine ⟨fillLastBlock_free _ t n, hblocks.mpr (Or.inl hroom),
            fillLastBlock_blockTables _ t n, ?_⟩
          rw [fillLastBlock_eq]
          rfl
        · omega
    · rw [hrest] at hle
      refine iff_of_true (fun ⟨err, herr⟩ => ?_) (Or.inr hle)
      rw [heq] at herr
      cases herr

/-! ### Retrying -/

theorem sum_chunks {b : ℕ} (hb : 0 < b) (n : ℕ) : (chunks b n).sum = n := by
  induction n using Nat.strong_induction_on with
  | _ n ih =>
    rcases Nat.eq_zero_or_pos n with rfl | hn
    · rw [chunks_zero, List.sum_nil]
    · rw [chunks_of_pos hb hn, List.sum_cons, ih (n - b) (by omega)]
      omega

theorem sum_fill (m : CacheManager) {ids : List ℕ} {fills : List ℕ}
    (h : ids.map m.fill = fills.map some) :
    (ids.map fun id => (m.fill id).getD 0).sum = fills.sum := by
  have hmap := congrArg (List.map (Option.getD · 0)) h
  rw [List.map_map, List.map_map] at hmap
  have hid : (Option.getD · 0) ∘ some = @id ℕ := rfl
  rw [hid, List.map_id] at hmap
  exact congrArg List.sum hmap

theorem heldTokens_bindTable (m : CacheManager) (s : String) (t : BlockTable) (count : ℕ) :
    (m.bindTable s t count).heldTokens s =
      (t.physicalBlockIds.map fun id => (m.fill id).getD 0).sum := by
  have ht : (m.bindTable s t count).blockTables.get? s = some t := by simp [bindTable]
  simp only [heldTokens, ht, Option.elim_some]
  rfl

/-- Topping up adds what it takes off the request. -/
theorem Owned.heldTokens_fillLastBlock (h : m.Owned) (ht : m.blockTables.get? s = some t) (n : ℕ) :
    (t.physicalBlockIds.map fun id => ((m.fillLastBlock t n).1.fill id).getD 0).sum +
      (m.fillLastBlock t n).2 = m.heldTokens s + n := by
  have hheld : m.heldTokens s = (t.physicalBlockIds.map fun id => (m.fill id).getD 0).sum := by
    simp [heldTokens, ht]
  rcases h.fillLastBlock_cases n ht with ⟨-, heq⟩ | ⟨init, last, b, hcat, hb, -, heq⟩
  · rw [heq, hheld]
  · have hlast : last ∉ init := by
      have hnd := h.table_nodup ht
      rw [hcat] at hnd
      exact fun hm => (List.nodup_append.mp hnd).2.2 last hm last (List.mem_singleton_self _) rfl
    have hinit : init.map (fun id => ((m.fillLastBlock t n).1.fill id).getD 0) =
        init.map fun id => (m.fill id).getD 0 := by
      refine List.map_congr_left fun id hid => ?_
      have hne : last ≠ id := fun he => hlast (he ▸ hid)
      rw [heq, fill, fill]
      simp only [List.getElem?_modify_ne _ _ hne]
    have hnew : (m.fillLastBlock t n).1.fill last =
        some (b.numTokensFilled + min (m.blockSize - b.numTokensFilled) n) := by
      rw [heq, fill, List.getElem?_modify_eq, hb]
      rfl
    have hold : m.fill last = some b.numTokensFilled := by rw [fill, hb]; rfl
    rw [hheld, hcat, List.map_append, List.map_append, hinit, List.sum_append, List.sum_append,
      List.map_singleton, List.map_singleton, hnew, hold, heq]
    simp only [Option.getD_some, List.sum_singleton]
    omega

/-- An extension that succeeds accounts for each token once. -/
theorem Owned.heldTokens_extendSequence (h : m.Owned) {r : ℕ}
    (heq : m.extendSequence s n = (.ok r, m')) : m'.heldTokens s = m.heldTokens s + n := by
  cases ht : m.blockTables.get? s with
  | none => rw [extendSequence_of_dead n ht] at heq; cases heq
  | some t =>
    rcases extendSequence_cases n h.blockSize_pos h.free_nodup ht with
      ⟨_, _, heq'⟩ | ⟨hle, m₂, t', T, heq'⟩
    · rw [heq] at heq'; cases heq'
    · rw [heq] at heq'
      have h₁ := (h.touch s).fillLastBlock n ht
      have hsize : ((m.touch s).fillLastBlock t n).1.blockSize = m.blockSize :=
        fillLastBlock_blockSize (m.touch s) t n
      have hfree := congrArg List.length (fillLastBlock_free (m.touch s) t n)
      have htop := (h.touch s).heldTokens_fillLastBlock ht n
      obtain ⟨-, rfl⟩ := Prod.mk.inj heq'
      rw [← hsize] at T hle
      have hold := congrArg (fun l => (l.map (Option.getD · 0)).sum)
        (h₁.map_fill_kept T (s := s) (by rw [fillLastBlock_blockTables]; exact ht))
      have hnew := sum_fill m₂ (h₁.map_fill_taken T (hle.trans_eq hfree.symm))
      rw [heldTokens_bindTable, T.table, List.map_append, List.sum_append, hnew, sum_chunks h₁.blockSize_pos]
      simp only [List.map_map, Function.comp_def] at hold
      rw [hold]
      exact htop

/-- A call that neither names `s` nor evicts it. -/
def SparingStep (s : String) (m : CacheManager) (ev : Event) (m' : CacheManager) : Prop :=
  Step m ev m' ∧ ev.1.target ≠ some s ∧ ev.2 ≠ .ok (.victim (some s))

/-- The tokens of `s` are what its own table and blocks say. -/
theorem Undisturbed.heldTokens_eq (h : Undisturbed s m m') : m'.heldTokens s = m.heldTokens s := by
  cases ht : m.blockTables.get? s with
  | none => simp only [heldTokens, h.table, ht, Option.elim_none]
  | some t =>
    simp only [heldTokens, h.table, ht, Option.elim_some]
    congr 1
    refine List.map_congr_left fun id hid => ?_
    rw [fill, fill, h.blocks t ht id hid]

theorem Owned.undisturbed_of_run (h : m.Owned) (hrun : Trace.Run (SparingStep s) m evs m') :
    m'.Owned ∧ Undisturbed s m m' := by
  refine hrun.always (I := fun m' => m'.Owned ∧ Undisturbed s m m') ⟨h, .refl s m⟩ ?_
  rintro m₁ ev m₂ ⟨h₁, hu⟩ ⟨hst, htarget, hvictim⟩
  obtain ⟨hres, rfl⟩ := Prod.mk.inj hst
  refine ⟨h₁.perform ev.1, hu.trans (h₁.undisturbed_perform htarget ?_)⟩
  exact hres ▸ hvictim

/-- CORRECT: in every reachable state an extension that raises has changed nothing if and only if the
    last block of the sequence is full (or there is none) or the blocks for what is left over are
    there. It may then be retried once the other sequences have made room: each token is accounted
    for once. -/
theorem extension_all_or_nothing_iff (hbs : 0 < blockSize)
    (hrun : Trace.Run Step (new numBlocks blockSize) evs m) (s : String) (n : ℕ) :
    (AllOrNothing m s n ↔ m.room s = 0 ∨ (n - m.room s) ⌈/⌉ blockSize ≤ m.numFreeBlocks) ∧
    ((m.room s = 0 ∨ (n - m.room s) ⌈/⌉ blockSize ≤ m.numFreeBlocks) →
      ∀ err m₁ evs' m₂ r m₃, m.extendSequence s n = (.error err, m₁) →
        Trace.Run (SparingStep s) m₁ evs' m₂ → m₂.extendSequence s n = (.ok r, m₃) →
        m₃.heldTokens s = m.heldTokens s + n) := by
  have h := owned_of_run hbs hrun
  have hiff := h.allOrNothing_iff s n
  rw [(dims_of_run hbs hrun).2] at hiff
  refine ⟨hiff, fun hroom err m₁ evs' m₂ r m₃ hfail hother hretry => ?_⟩
  have hclean : Untouched m m₁ := by simpa only [hfail] using hiff.mpr hroom ⟨err, by rw [hfail]⟩
  have h₁ : m₁.Owned := by simpa only [hfail] using h.extendSequence s n
  obtain ⟨h₂, hu⟩ := h₁.undisturbed_of_run hother
  have hsame : m₁.heldTokens s = m.heldTokens s := by
    simp only [heldTokens, fill, hclean.blockTables, hclean.blocks]
  rw [h₂.heldTokens_extendSequence hretry, hu.heldTokens_eq, hsame]

/-- Two blocks of two slots, both taken: a full last block, a failing extension by two tokens, and a
    retry after the other sequence has gone. -/
theorem extension_all_or_nothing_iff_full :
    let m := (((new 2 2).allocateSequence "b" 1).2.allocateSequence "a" 2).2
    let m₁ := (m.extendSequence "a" 2).2
    AllOrNothing m "a" 2 ∧ (∃ err, (m.extendSequence "a" 2).1 = .error err) ∧
    ((m₁.freeSequence "b").extendSequence "a" 2).2.heldTokens "a" = 4 := by
  intro m m₁
  have h₁ := step_perform (new 2 2) (.allocateSequence "b" 1)
  have h₂ := step_perform ((new 2 2).allocateSequence "b" 1).2 (.allocateSequence "a" 2)
  obtain ⟨hiff, hretry⟩ := extension_all_or_nothing_iff (by decide) (.snoc (.snoc .nil h₁) h₂) "a" 2
  have hroom : m.room "a" = 0 := by decide +kernel
  have hfree : Trace.Run (SparingStep "a") m₁ _ _ :=
    .single ⟨step_perform m₁ (.freeSequence "b"), by decide +kernel, by decide +kernel⟩
  have herr : (m.extendSequence "a" 2).1 =
      .error (.memoryError "Cannot extend seq a by 1 blocks") := by decide +kernel
  have hfail : m.extendSequence "a" 2 = (_, m₁) := Prod.ext herr rfl
  have hok : ((m₁.freeSequence "b").extendSequence "a" 2).1 = .ok 1 := by decide +kernel
  refine ⟨hiff.mpr (Or.inl hroom), ⟨_, herr⟩, ?_⟩
  exact hretry (Or.inl hroom) _ m₁ _ _ 1 _ hfail hfree (Prod.ext hok rfl)

/-- A last block with one slot free: the failing extension fills that slot, and the retry accounts for
    three tokens where two were asked for. -/
theorem extension_not_all_or_nothing :
    let m := (((new 2 2).allocateSequence "b" 1).2.allocateSequence "a" 1).2
    let m₁ := (m.extendSequence "a" 2).2
    (∃ evs, Trace.Run Step (new 2 2) evs m) ∧ ¬ AllOrNothing m "a" 2 ∧
    m.fill 0 = some 1 ∧ m₁.fill 0 = some 2 ∧ m.heldTokens "a" = 1 ∧
    ((m₁.freeSequence "b").extendSequence "a" 2).2.heldTokens "a" = 4 := by
  intro m m₁
  have h₁ := step_perform (new 2 2) (.allocateSequence "b" 1)
  have h₂ := step_perform ((new 2 2).allocateSequence "b" 1).2 (.allocateSequence "a" 1)
  have herr : (m.extendSequence "a" 2).1 =
      .error (.memoryError "Cannot extend seq a by 1 blocks") := by decide +kernel
  refine ⟨⟨_, .snoc (.snoc .nil h₁) h₂⟩, fun hclean => ?_, by decide +kernel, by decide +kernel,
    by decide +kernel, by decide +kernel⟩
  exact absurd (hclean ⟨_, herr⟩).blocks (by decide +kernel)

/-! ### Growing in steps -/

/-- Where a successful allocation leads. -/
def allocateOnce (m : CacheManager) (s : String) (n : ℕ) : Option CacheManager :=
  match m.allocateSequence s n with
  | (.ok _, m') => some m'
  | (.error _, _) => none

/-- Where extensions by these parts lead, one after the other, if all of them succeed. -/
def extendEach (m : CacheManager) (s : String) : List ℕ → Option CacheManager
  | [] => some m
  | k :: ks =>
    match m.extendSequence s k with
    | (.ok _, m') => m'.extendEach s ks
    | (.error _, _) => none

namespace Taken

variable {tokens count : ℕ}

/-- The block loop looks at the free list, the block records and the block size only. -/
theorem congr {x : CacheManager} (T : Taken m t tokens count m' t')
    (hfree : x.freeBlockIds = m.freeBlockIds) (hblocks : x.blocks = m.blocks)
    (hsize : x.blockSize = m.blockSize) :
    Taken x t tokens count
      { x with freeBlockIds := x.freeBlockIds.drop count, blocks := m'.blocks } t' where
  manager := rfl
  table := hfree ▸ T.table
  length := hblocks ▸ T.length
  frame := by rw [hfree, hblocks]; exact T.frame
  filled := by rw [hfree, hblocks, hsize]; exact T.filled

/-- What the loop leaves is determined. -/
theorem unique (T₁ : Taken m t tokens count m₁ t') {t'' : BlockTable}
    (T₂ : Taken m t tokens count m₂ t'') : m₁ = m₂ ∧ t' = t'' := by
  have hblocks : m₁.blocks = m₂.blocks := by
    refine List.ext_getElem? fun id => ?_
    by_cases hid : id ∈ m.freeBlockIds.take count
    · obtain ⟨j, hj, hget⟩ := List.mem_take_iff_getElem.mp hid
      have hj' : m.freeBlockIds[j]? = some id := List.getElem?_eq_some_iff.mpr ⟨_, hget⟩
      rw [T₁.filled j id (by omega) hj', T₂.filled j id (by omega) hj']
    · rw [T₁.frame id hid, T₂.frame id hid]
  rw [T₁.manager, T₂.manager, T₁.table, T₂.table, hblocks]
  exact ⟨rfl, rfl⟩

/-- A loop may be cut in two, where the second part counts its tokens anew. -/
theorem append {rest count' : ℕ} {t'' : BlockTable} (hnd : m.freeBlockIds.Nodup)
    (hle : count ≤ m.freeBlockIds.length) (T₁ : Taken m t tokens count m₁ t')
    (T₂ : Taken m₁ t' rest count' m₂ t'')
    (hshare : ∀ i, min (tokens - (count + i) * m.blockSize) m.blockSize =
      min (rest - i * m.blockSize) m.blockSize) :
    Taken m t tokens (count + count') m₂ t'' := by
  have hfree : m₁.freeBlockIds = m.freeBlockIds.drop count := by rw [T₁.manager]
  have hsize : m₁.blockSize = m.blockSize := by rw [T₁.manager]
  have hnd' := hnd
  rw [← List.take_append_drop count m.freeBlockIds] at hnd'
  have hapart : ∀ id ∈ m.freeBlockIds.take count, id ∉ m.freeBlockIds.drop count :=
    fun id hid hdrop => (List.nodup_append.mp hnd').2.2 id hid id hdrop rfl
  refine ⟨?_, ?_, T₂.length.trans T₁.length, fun id hid => ?_, fun j id hj hjd => ?_⟩
  · rw [T₂.manager, T₁.manager, List.drop_drop]
  · rw [T₂.table, T₁.table, hfree, List.take_add, List.append_assoc]
  · rw [List.take_add, List.mem_append, not_or] at hid
    rw [T₂.frame id (hfree ▸ hid.2), T₁.frame id hid.1]
  · rcases Nat.lt_or_ge j count with hjc | hjc
    · have hid : id ∈ m.freeBlockIds.take count :=
        List.mem_take_iff_getElem.mpr ⟨j, by omega, (List.getElem?_eq_some_iff.mp hjd).2⟩
      have hnot : id ∉ m₁.freeBlockIds.take count' := fun hm =>
        hapart id hid (hfree ▸ List.mem_of_mem_take hm)
      rw [T₂.frame id hnot, T₁.filled j id hjc hjd]
    · obtain ⟨i, rfl⟩ := Nat.exists_eq_add_of_le hjc
      have hi : m₁.freeBlockIds[i]? = some id := by rw [hfree, List.getElem?_drop, hjd]
      have hnot : id ∉ m.freeBlockIds.take count := fun hm =>
        hapart id hm (hfree ▸ List.mem_of_getElem? hi)
      rw [T₂.filled i id (by omega) hi, T₁.frame id hnot, hsize, hshare]

/-- Topping up the last of the blocks taken is taking them for more tokens. -/
theorem top_up (T : Taken m t tokens count m' t') (hpos : 0 < m.blockSize)
    (hcount : count = tokens ⌈/⌉ m.blockSize) (hnd : m.freeBlockIds.Nodup) {i last : ℕ}
    (hi : i + 1 = count) (hlast : m.freeBlockIds[i]? = some last) (k : ℕ) :
    Taken m t (tokens + k) count { m with
      freeBlockIds := m.freeBlockIds.drop count
      blocks := m'.blocks.modify last (·.fill (min (slack m.blockSize tokens) k)) } t' := by
  refine ⟨rfl, T.table, ?_, fun id hid => ?_, fun j id hj hjd => ?_⟩
  · change (m'.blocks.modify last _).length = _
    rw [List.length_modify, T.length]
  · obtain ⟨hlt, hget⟩ := List.getElem?_eq_some_iff.mp hlast
    have hne : last ≠ id := by
      rintro rfl
      exact hid (List.mem_take_iff_getElem.mpr ⟨i, by omega, hget⟩)
    change (m'.blocks.modify last _)[id]? = _
    rw [List.getElem?_modify_ne _ _ hne, T.frame id hid]
  · change (m'.blocks.modify last _)[id]? = _
    by_cases hji : j = i
    · obtain rfl : last = id := by
        rw [hji, hlast] at hjd
        exact Option.some.inj hjd
      rw [List.getElem?_modify_eq, T.filled j last hj hjd, Option.map_eq_map, Option.map_map,
        share_add hpos k (hcount ▸ hj), if_pos (by omega)]
      rfl
    · have hne : last ≠ id := by
        rintro rfl
        exact hji ((List.getElem?_inj (List.getElem?_eq_some_iff.mp hjd).1 hnd).mp
          (hjd.trans hlast.symm))
      rw [List.getElem?_modify_ne _ _ hne, T.filled j id hj hjd,
        share_add hpos k (hcount ▸ hj), if_neg (by omega), Nat.add_zero]

/-- The last block has as many free slots as the tokens leave. -/
theorem slack_last (T : Taken m t tokens count m' t') (hpos : 0 < m.blockSize)
    (hcount : count = tokens ⌈/⌉ m.blockSize) {i last : ℕ} {b : PhysicalBlock} (hi : i + 1 = count)
    (hlast : m.freeBlockIds[i]? = some last) (hb : m'.blocks[last]? = some b) :
    m.blockSize - b.numTokensFilled = slack m.blockSize tokens := by
  have hslots := slack_eq hpos (hi.trans hcount)
  have hlt : i * m.blockSize < tokens := mul_lt_of_lt_ceilDiv hpos (by omega)
  have hfilled := T.filled i last (by omega) hlast
  rw [hb] at hfilled
  obtain ⟨b₀, -, rfl⟩ := Option.map_eq_some_iff.mp hfilled.symm
  simp only
  omega

end Taken

/-- An allocation whose last block was topped up for `k` more tokens: as far as its blocks go, that
    many blocks of an allocation of all the tokens. -/
theorem Owned.topped_up (h : m.Owned) {c : ℕ} (hc : c = n ⌈/⌉ m.blockSize) (hle : c ≤ m.numFreeBlocks)
    (T : Taken m (m.emptyTable s) n c m₁ t) (k : ℕ) :
    let r := (((m₁.touch s).bindTable s t c).touch s).fillLastBlock t k
    r.2 = k - slack m.blockSize n ∧
    Taken m (m.emptyTable s) (n + k) c
      { m with freeBlockIds := m.freeBlockIds.drop c, blocks := r.1.blocks } t := by
  have hids : t.physicalBlockIds = m.freeBlockIds.take c := by rw [T.table]; rfl
  have hsize : m₁.blockSize = m.blockSize := by rw [T.manager]
  have hown : ((m₁.touch s).bindTable s t c).Owned := by
    refine (h.bindTable (s := s) T c (fun j hj => ?_) ?_).of_eq rfl rfl rfl rfl rfl
    · exact mul_lt_of_lt_ceilDiv h.blockSize_pos (hc ▸ hj)
    · exact (OrderedDict.items_erase_sublist _ _ _).subperm
  have ht : (((m₁.touch s).bindTable s t c).touch s).blockTables.get? s = some t :=
    OrderedDict.get?_insert_self _ _ _
  rcases (hown.touch s).fillLastBlock_cases k ht with
    ⟨hnil, heq⟩ | ⟨init, last, b, hcat, hb, -, heq⟩
  · -- no blocks, so no tokens
    have hc0 : c = 0 := by
      rw [← List.length_take_of_le hle, ← hids, hnil]
      rfl
    have hn := le_ceilDiv_mul h.blockSize_pos n
    rw [← hc, hc0, Nat.zero_mul] at hn
    obtain rfl : n = 0 := by omega
    subst hc0
    rw [heq, slack_zero]
    exact ⟨rfl, rfl, T.table, T.length, T.frame, fun j _ hj => absurd hj (Nat.not_lt_zero j)⟩
  · have hlen : init.length + 1 = c := by
      rw [← List.length_take_of_le hle, ← hids, hcat, List.length_append, List.length_singleton]
    have hlast : m.freeBlockIds[init.length]? = some last := by
      have hget := congrArg (·[init.length]?) (hids.symm.trans hcat)
      simpa [List.getElem?_take, ← hlen] using hget
    have hb₁ : m₁.blocks[last]? = some b := hb
    have hsize' : (((m₁.touch s).bindTable s t c).touch s).blockSize = m.blockSize := hsize
    rw [heq, hsize', T.slack_last h.blockSize_pos hc hlen hlast hb₁]
    refine ⟨?_, T.top_up h.blockSize_pos hc h.free_nodup hlen hlast k⟩
    change k - min (slack m.blockSize n) k = _
    omega

/-- One extension of a fresh allocation is an allocation of all the tokens. -/
theorem Owned.extendSequence_allocated (h : m.Owned) (hal : m.allocateOnce s n = some m') (k : ℕ) :
    (∃ r m'', m'.extendSequence s k = (.ok r, m'') ∧ m.allocateOnce s (n + k) = some m'') ∨
    (∃ err m'', m'.extendSequence s k = (.error err, m'') ∧ m.allocateOnce s (n + k) = none) := by
  rcases allocateSequence_cases m s n h.free_nodup with ⟨_, _, heq⟩ | ⟨hle, m₁, t, T, heq⟩
  · simp only [allocateOnce, heq] at hal
    cases hal
  · simp only [allocateOnce, heq, Option.some.injEq] at hal
    set c := n ⌈/⌉ m.blockSize with hc
    obtain ⟨hrest, T₁⟩ := h.topped_up hc hle T k
    have hown : m'.Owned := by
      have := h.allocateSequence s n
      rw [heq] at this
      exact hal ▸ this
    have ht : m'.blockTables.get? s = some t := hal ▸ OrderedDict.get?_insert_self _ _ _
    have hsize : m'.blockSize = m.blockSize := by rw [← hal, T.manager]; rfl
    have hfree : m'.freeBlockIds = m.freeBlockIds.drop c := by rw [← hal, T.manager]; rfl
    have hnum : m'.numFreeBlocks + c = m.numFreeBlocks := by
      rw [numFreeBlocks, hfree, List.length_drop]
      exact Nat.sub_add_cancel hle
    have hsum := ceilDiv_slack h.blockSize_pos n k
    rw [← hc] at hsum
    rw [hal] at hrest T₁
    have hcases := extendSequence_cases k hown.blockSize_pos hown.free_nodup ht
    simp only [hrest, hsize] at hcases
    set c' := (k - slack m.blockSize n) ⌈/⌉ m.blockSize
    rcases hcases with ⟨hlt, msg, hext⟩ | ⟨hle', m₂, t', T₂, hext⟩
    · refine Or.inr ⟨_, _, hext, ?_⟩
      rcases allocateSequence_cases m s (n + k) h.free_nodup with ⟨_, _, heq'⟩ | ⟨hle', _⟩
      · simp only [allocateOnce, heq']
      · omega
    · refine Or.inl ⟨_, _, hext, ?_⟩
      rcases allocateSequence_cases m s (n + k) h.free_nodup with ⟨hlt, _⟩ | ⟨_, m₃, t'', T₃, heq'⟩
      · omega
      · have hfill := fillLastBlock_eq (m'.touch s) t k
        have T₂' := T₂.congr (x := { m with
            freeBlockIds := m.freeBlockIds.drop c
            blocks := ((m'.touch s).fillLastBlock t k).1.blocks })
          (by rw [hfill]; exact hfree.symm) rfl (by rw [hfill]; exact hsize.symm)
        have hall := T₁.append h.free_nodup hle T₂' fun i => share_rest h.blockSize_pos n k i
        rw [← hsum] at hall
        obtain ⟨rfl, rfl⟩ := T₃.unique hall
        simp only [allocateOnce, heq', Option.some.injEq]
        rw [T₂.manager, hfill, ← hal, hsum, T.manager]
        simp only [CacheManager.bindTable, CacheManager.touch, OrderedDict.moveToEnd_insert_twice, OrderedDict.insert_insert,
          Nat.add_assoc]

theorem Owned.allocateOnce_eq_none (h : m.Owned) (hal : m.allocateOnce s n = none) (k : ℕ) :
    m.allocateOnce s (n + k) = none := by
  have hmono := ceilDiv_slack h.blockSize_pos n k
  rcases allocateSequence_cases m s n h.free_nodup with ⟨hlt, _⟩ | ⟨_, _, _, _, heq⟩
  · rcases allocateSequence_cases m s (n + k) h.free_nodup with ⟨_, _, heq'⟩ | ⟨hle, _⟩
    · simp only [allocateOnce, heq']
    · omega
  · simp only [allocateOnce, heq] at hal
    cases hal

/-- CORRECT: in every reachable state, allocating for `n₀` tokens and extending by the parts `ks` one
    after the other succeeds exactly when allocating for all the tokens at once does, and leads to the
    same state. -/
theorem stepwise_eq_at_once (hbs : 0 < blockSize)
    (hrun : Trace.Run Step (new numBlocks blockSize) evs m) (s : String) (n₀ : ℕ) (ks : List ℕ) :
    (m.allocateOnce s n₀).bind (·.extendEach s ks) = m.allocateOnce s (n₀ + ks.sum) := by
  have h := owned_of_run hbs hrun
  induction ks generalizing n₀ with
  | nil => cases hal : m.allocateOnce s n₀ <;> simp [extendEach, hal]
  | cons k ks ih =>
    rw [List.sum_cons, ← Nat.add_assoc, ← ih]
    cases hal : m.allocateOnce s n₀ with
    | none => rw [h.allocateOnce_eq_none hal k]; rfl
    | some m' =>
      rcases h.extendSequence_allocated hal k with ⟨r, m'', hext, hal'⟩ | ⟨err, m'', hext, hal'⟩
      · simp [extendEach, hext, hal']
      · simp [extendEach, hext, hal']

/-- An empty table first, a part of no tokens, and parts that end on a block boundary: all fit. -/
theorem stepwise_eq_at_once_boundary :
    let m := ((new 4 2).allocateSequence "b" 3).2
    ∃ m', (m.allocateOnce "a" 0).bind (·.extendEach "a" [1, 0, 1, 2]) = some m' ∧
      m.allocateOnce "a" 4 = some m' := by
  intro m
  have heq := stepwise_eq_at_once (by decide) (.single (step_perform (new 4 2) (.allocateSequence "b" 3))) "a" 0
    [1, 0, 1, 2]
  obtain ⟨m', hm'⟩ := Option.isSome_iff_exists.mp (by decide +kernel : (m.allocateOnce "a" 4).isSome = true)
  exact ⟨m', heq.trans hm', hm'⟩

end CacheManager

end ModelServing
