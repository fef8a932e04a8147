import ModelServing.Cache.Effects
import ModelServing.Lib.Paging

/-! The block tables as page tables. A token position is translated to a block and an offset in it,
    the way `BlockTable` documents. Over all runs of cache calls the translation is defined exactly
    on the positions a live sequence has room for, never meets another sequence's and never moves a
    position before its sequence is freed, evicted or allocated again; so every sequence has, inside
    the shared pool, a memory of its own. -/

namespace ModelServing

theorem BlockTable.getPhysicalBlock_natCast (t : BlockTable) (i : ℕ) :
    t.getPhysicalBlock i = t.physicalBlockIds[i]? := by
  rw [getPhysicalBlock]
  split
  · rename_i h
    have hle : t.physicalBlockIds.length ≤ i := by unfold numBlocks at h; omega
    rw [List.getElem?_eq_none hle]
  · rw [Int.toNat_natCast]

namespace CacheManager

/-- Where the KV entries of a token live: the physical block of its logical block, and the offset in
    it. -/
def locate (m : CacheManager) (address : String × ℕ) : Option (ℕ × ℕ) :=
  (m.blockTables.get? address.1).bind fun t =>
    (t.getPhysicalBlock (address.2 / m.blockSize : ℕ)).map fun id => (id, address.2 % m.blockSize)

/-- The sequence that a call takes the blocks away from, or gives a new table. -/
def vacated : Event → Option String
  | (.allocateSequence s _, .ok _) => some s
  | (.freeSequence s, _) => some s
  | (.evictLru, .ok (.victim v)) => v
  | _ => none

variable {m m' : CacheManager} {s : String} {pos id off : ℕ}

theorem locate_eq_some_iff :
    m.locate (s, pos) = some (id, off) ↔ ∃ t, m.blockTables.get? s = some t ∧
      t.physicalBlockIds[pos / m.blockSize]? = some id ∧ pos % m.blockSize = off := by
  simp only [locate, Option.bind_eq_some_iff, BlockTable.getPhysicalBlock_natCast,
    Option.map_eq_some_iff, Prod.mk.injEq]
  grind

/-- Two positions in one slot are one position of one sequence: tables share no block, and a table
    lists none twice. -/
theorem Owned.separate (h : m.Owned) : Paging.Separate m.locate := by
  rintro ⟨s, pos⟩ ⟨s', pos'⟩ ⟨id, off⟩ hs hs'
  obtain ⟨t, ht, hid, hoff⟩ := locate_eq_some_iff.mp hs
  obtain ⟨t', ht', hid', hoff'⟩ := locate_eq_some_iff.mp hs'
  obtain rfl : s' = s := h.eq_of_mem ht (List.mem_of_getElem? hid) ht' (List.mem_of_getElem? hid')
  obtain rfl : t = t' := Option.some.inj (ht.symm.trans ht')
  have hblock : pos / m.blockSize = pos' / m.blockSize := by
    obtain ⟨hlt, -⟩ := List.getElem?_eq_some_iff.mp hid
    exact (List.getElem?_inj hlt (h.table_nodup ht)).mp (hid.trans hid'.symm)
  have hpos : pos = pos' := by
    rw [← Nat.div_add_mod pos m.blockSize, ← Nat.div_add_mod pos' m.blockSize, hblock, hoff, hoff']
  rw [hpos]

/-- A slot lies in the pool, in a block that is not on the free list. -/
theorem Owned.locate_valid (h : m.Owned) (hl : m.locate (s, pos) = some (id, off)) :
    id < m.numBlocks ∧ id ∉ m.freeBlockIds ∧ off < m.blockSize := by
  obtain ⟨t, ht, hid, rfl⟩ := locate_eq_some_iff.mp hl
  have hmap : id ∈ m.mapped := mem_mapped ht (List.mem_of_getElem? hid)
  exact ⟨h.valid (List.mem_append_right _ hmap), fun hf => h.not_mapped_of_free hf hmap,
    Nat.mod_lt _ h.blockSize_pos⟩

/-! ### One call -/

/-- The blocks of `s`, in order, are still where they were; there may be more of them. -/
def Stays (s : String) (m m' : CacheManager) : Prop :=
  ∀ t, m.blockTables.get? s = some t → ∃ t', m'.blockTables.get? s = some t' ∧
    t'.blockSize = t.blockSize ∧ t.physicalBlockIds <+: t'.physicalBlockIds

theorem Stays.of_get? (h : m'.blockTables.get? s = m.blockTables.get? s) : Stays s m m' :=
  fun t ht => ⟨t, h.trans ht, rfl, List.prefix_refl _⟩

theorem Owned.stays_extendSequence (h : m.Owned) (s : String) (n : ℕ) :
    Stays s m (m.extendSequence s n).2 := by
  intro t ht
  have htab : ((m.touch s).fillLastBlock t n).1.blockTables = m.blockTables :=
    fillLastBlock_blockTables (m.touch s) t n
  rcases extendSequence_cases n h.blockSize_pos h.free_nodup ht with
    ⟨_, _, heq⟩ | ⟨_, m₂, t', T, heq⟩
  · rw [heq]
    exact ⟨t, by rw [htab, ht], rfl, List.prefix_refl _⟩
  · rw [heq]
    refine ⟨t', OrderedDict.get?_insert_self .., by rw [T.table], ?_⟩
    rw [T.table]
    exact List.prefix_append _ _

/-- Only a call that vacates `s` moves what `s` has. -/
theorem Owned.stays_perform (h : m.Owned) {c : Call} (hv : vacated (c, (m.perform c).1) ≠ some s) :
    Stays s m (m.perform c).2 := by
  by_cases htarget : c.target = some s
  · cases c with
    | allocateSequence s' n =>
      obtain rfl : s' = s := Option.some.inj htarget
      rcases allocateSequence_cases m s' n h.free_nodup with ⟨_, _, heq⟩ | ⟨_, _, _, _, heq⟩
      · exact .of_get? (by simp only [CacheManager.perform, heq])
      · simp [CacheManager.perform, heq, vacated, Except.map] at hv
    | extendSequence s' n =>
      obtain rfl : s' = s := Option.some.inj htarget
      exact h.stays_extendSequence s' n
    | freeSequence s' => exact absurd htarget hv
    | evictLru => cases htarget
    | getBlockTable s' => exact .of_get? rfl
  · refine .of_get? (h.undisturbed_perform htarget fun hvictim => hv ?_).table
    cases c with
    | evictLru => rw [hvictim]; rfl
    | allocateSequence s' n => exact absurd hvictim (by
        simp only [CacheManager.perform]; cases (m.allocateSequence s' n).1 <;> simp [Except.map])
    | extendSequence s' n => exact absurd hvictim (by
        simp only [CacheManager.perform]; cases (m.extendSequence s' n).1 <;> simp [Except.map])
    | freeSequence s' => cases hvictim
    | getBlockTable s' => cases hvictim

theorem Owned.stays_step (h : m.Owned) {ev : Event} (hst : Step m ev m')
    (hv : vacated ev ≠ some s) : Stays s m m' := by
  obtain ⟨c, reply⟩ := ev
  have hst : m.perform c = (reply, m') := hst
  have hstay := h.stays_perform (s := s) (c := c)
  rw [hst] at hstay
  exact hstay hv

/-- Growing a table moves no position it already had. -/
theorem Stays.locate (S : Stays s m m') (hsize : m'.blockSize = m.blockSize)
    (hl : m.locate (s, pos) = some (id, off)) : m'.locate (s, pos) = some (id, off) := by
  obtain ⟨t, ht, hid, hoff⟩ := locate_eq_some_iff.mp hl
  obtain ⟨t', ht', -, suffix, hpre⟩ := S t ht
  obtain ⟨hlt, hget⟩ := List.getElem?_eq_some_iff.mp hid
  refine locate_eq_some_iff.mpr ⟨t', ht', ?_, by rw [hsize, hoff]⟩
  rw [hsize, ← hpre, List.getElem?_append_left hlt, hid]

/-! ### Runs -/

variable {numBlocks blockSize : ℕ} {evs : List Event}

/-- Every table is filed under its own sequence and cut for the pool's blocks. -/
def Labelled (m : CacheManager) : Prop :=
  ∀ s t, m.blockTables.get? s = some t → t.sequenceId = s ∧ t.blockSize = m.blockSize

/-- One table is new, the others were there before. -/
theorem Labelled.insert {t : BlockTable} (L : m.Labelled) (hsize : m'.blockSize = m.blockSize)
    (htab : m'.blockTables = m.blockTables.insert s t) (ht : t.sequenceId = s)
    (hbs : t.blockSize = m.blockSize) : m'.Labelled := by
  intro b u hu
  rw [htab, OrderedDict.get?_insert] at hu
  rw [hsize]
  split at hu
  · rename_i hb
    cases hu
    exact ⟨ht.trans hb.symm, hbs⟩
  · exact L b u hu

/-- No table is new. -/
theorem Labelled.fewer (L : m.Labelled) (hsize : m'.blockSize = m.blockSize)
    (hsub : ∀ s t, m'.blockTables.get? s = some t → m.blockTables.get? s = some t) :
    m'.Labelled := by
  intro s t ht
  rw [hsize]
  exact L s t (hsub s t ht)

theorem Owned.labelled_perform (h : m.Owned) (L : m.Labelled) (c : Call) :
    (m.perform c).2.Labelled := by
  have hsize := (h.perform_dims c).2
  cases c with
  | allocateSequence s n =>
    simp only [CacheManager.perform] at hsize ⊢
    rcases allocateSequence_cases m s n h.free_nodup with ⟨_, _, heq⟩ | ⟨_, m₁, t, T, heq⟩
    · rw [heq]; exact L
    · rw [heq] at hsize ⊢
      refine L.insert hsize (t := t) (s := s) ?_ (by rw [T.table]; rfl) (by rw [T.table]; rfl)
      rw [T.manager]
      rfl
  | extendSequence s n =>
    simp only [CacheManager.perform] at hsize ⊢
    cases ht : m.blockTables.get? s with
    | none => rw [extendSequence_of_dead n ht]; exact L
    | some t =>
      have htab : ((m.touch s).fillLastBlock t n).1.blockTables = m.blockTables :=
        fillLastBlock_blockTables (m.touch s) t n
      obtain ⟨hid, hbs⟩ := L s t ht
      rcases extendSequence_cases n h.blockSize_pos h.free_nodup ht with
        ⟨_, _, heq⟩ | ⟨_, m₂, t', T, heq⟩
      · rw [heq] at hsize ⊢
        exact L.fewer hsize fun b u hu => by rwa [htab] at hu
      · rw [heq] at hsize ⊢
        refine L.insert hsize (t := t') (s := s) ?_ (by rw [T.table, hid]) (by rw [T.table, hbs])
        change m₂.blockTables.insert s t' = _
        rw [T.manager, htab]
  | freeSequence s =>
    refine L.fewer hsize fun b u hu => ?_
    rw [CacheManager.perform, h.get?_freeSequence] at hu
    split at hu
    · cases hu
    · exact hu
  | evictLru =>
    simp only [CacheManager.perform] at hsize ⊢
    rcases evictLru_cases m with ⟨_, heq⟩ | ⟨v, _, _, ⟨_, heq⟩ | ⟨t, _, heq⟩⟩
    · rw [heq]; exact L
    · rw [heq]; exact L
    · have F := (h.evicted heq).2.2
      rw [heq] at hsize ⊢
      refine L.fewer hsize fun b u hu => ?_
      rw [F.tables b] at hu
      split at hu
      · cases hu
      · exact hu
  | getBlockTable s => exact L

theorem labelled_of_run (hbs : 0 < blockSize)
    (hrun : Trace.Run Step (new numBlocks blockSize) evs m) : m.Labelled := by
  refine hrun.invariant (I := fun _ m => m.Labelled) (fun s t ht => ?_)
    fun evs m ev m' hr L hst => ?_
  · simp [new, OrderedDict.empty, OrderedDict.get?] at ht
  · have hlab := (owned_of_run hbs hr).labelled_perform L ev.1
    rwa [show m.perform ev.1 = (ev.2, m') from hst] at hlab

/-- A position is mapped if and only if the table has room for it. -/
theorem Labelled.exists_locate_iff (L : m.Labelled) (hbs : 0 < m.blockSize) :
    (∃ slot, m.locate (s, pos) = some slot) ↔
      ∃ t, m.blockTables.get? s = some t ∧ pos < t.maxTokens := by
  have hroom : ∀ t, m.blockTables.get? s = some t →
      (pos < t.maxTokens ↔ pos / m.blockSize < t.physicalBlockIds.length) := fun t ht => by
    rw [BlockTable.maxTokens, (L s t ht).2, Nat.div_lt_iff_lt_mul hbs]
    rfl
  constructor
  · rintro ⟨⟨id, off⟩, hl⟩
    obtain ⟨t, ht, hid, -⟩ := locate_eq_some_iff.mp hl
    exact ⟨t, ht, (hroom t ht).mpr (List.getElem?_eq_some_iff.mp hid).1⟩
  · rintro ⟨t, ht, hlt⟩
    exact ⟨_, locate_eq_some_iff.mpr
      ⟨t, ht, List.getElem?_eq_getElem ((hroom t ht).mp hlt), rfl⟩⟩

/-- As long as nothing vacates `s`, its positions stay where they are. -/
theorem Owned.locate_run (h : m.Owned) (hrun : Trace.Run Step m evs m')
    (hv : ∀ ev ∈ evs, vacated ev ≠ some s) (hl : m.locate (s, pos) = some (id, off)) :
    m'.locate (s, pos) = some (id, off) := by
  have hall := (hrun.restrict hv).always (I := fun m' => m'.Owned ∧ m'.locate (s, pos) = some (id, off))
    ⟨h, hl⟩ fun m ev m' ⟨ho, hi⟩ ⟨hst, hev⟩ => by
      have hown := ho.perform ev.1
      have hsize := (ho.perform_dims ev.1).2
      rw [show m.perform ev.1 = (ev.2, m') from hst] at hown hsize
      exact ⟨hown, (ho.stays_step hst hev).locate hsize hi⟩
  exact hall.2

/-- The block tables translate addresses: after any calls a position has a slot if and only if its
    sequence is live with room for it, the slot is in the pool and not in a free block, no two
    positions share one, and whatever is called next, the slot is kept until the sequence is freed,
    evicted or allocated again. -/
theorem translates_addresses (hbs : 0 < blockSize)
    (hrun : Trace.Run Step (new numBlocks blockSize) evs m) :
    (∀ s pos, (∃ slot, m.locate (s, pos) = some slot) ↔
      ∃ t, m.blockTables.get? s = some t ∧ pos < t.maxTokens) ∧
    (∀ s pos id off, m.locate (s, pos) = some (id, off) →
      id < numBlocks ∧ id ∉ m.freeBlockIds ∧ off < blockSize) ∧
    Paging.Separate m.locate ∧
    ∀ evs' m', Trace.Run Step m evs' m' → ∀ s, (∀ ev ∈ evs', vacated ev ≠ some s) →
      ∀ pos slot, m.locate (s, pos) = some slot → m'.locate (s, pos) = some slot := by
  have h := owned_of_run hbs hrun
  obtain ⟨hnum, hsize⟩ := dims_of_run hbs hrun
  refine ⟨fun s pos => (labelled_of_run hbs hrun).exists_locate_iff h.blockSize_pos, ?_, h.separate,
    fun evs' m' hrun' s hv pos slot hl => h.locate_run hrun' hv hl⟩
  intro s pos id off hl
  rw [← hnum, ← hsize]
  exact h.locate_valid hl

/-- Two sequences whose blocks alternate: position 5 of the first is at offset 1 of block 1. -/
theorem translates_addresses_grown : ∃ m, Trace.Run Step (new 4 4)
    [(.allocateSequence "a" 4, .ok (.table (some ⟨"a", 4, [3]⟩))),
      (.allocateSequence "b" 3, .ok (.table (some ⟨"b", 4, [2]⟩))),
      (.extendSequence "a" 3, .ok (.newBlocks 1))] m ∧
    m.locate ("a", 5) = some (1, 1) ∧ Paging.Separate m.locate := by
  have hnil : Trace.Run Step (new 4 4) [] (new 4 4) := .nil
  have hrun := ((hnil.snoc (step_perform _ (.allocateSequence "a" 4))).snoc
    (step_perform _ (.allocateSequence "b" 3))).snoc (step_perform _ (.extendSequence "a" 3))
  exact ⟨_, hrun, by decide +kernel, (translates_addresses (by decide) hrun).2.2.1⟩

/-! ### A memory of its own -/

variable {γ : Type*}

/-- What the users of the pool do: calls, and stores of a token's entry to the slot the table gives. -/
inductive Access (γ : Type*) where
  | call (ev : Event)
  | store (address : String × ℕ) (v : γ)

/-- The pool and the contents of its slots. -/
abbrev Memory (γ : Type*) := CacheManager × (ℕ × ℕ → γ)

inductive AccessStep : Memory γ → Access γ → Memory γ → Prop
  | call {m m' : CacheManager} {mem : ℕ × ℕ → γ} {ev : Event} :
      Step m ev m' → AccessStep (m, mem) (.call ev) (m', mem)
  | store {m : CacheManager} {mem : ℕ × ℕ → γ} {a : String × ℕ} {slot : ℕ × ℕ} {v : γ} :
      m.locate a = some slot → AccessStep (m, mem) (.store a v) (m, Function.update mem slot v)

/-- What an access means for the entries that each sequence has stored. -/
def Access.apply (c : String × ℕ → Option γ) : Access γ → String × ℕ → Option γ
  | .call ev => fun a => if vacated ev = some a.1 then none else c a
  | .store a v => Function.update c a (some v)

/-- What each sequence has stored since it was given its table, as if it were alone. -/
def contents (accesses : List (Access γ)) : String × ℕ → Option γ :=
  accesses.foldl Access.apply fun _ => none

theorem contents_snoc (accesses : List (Access γ)) (access : Access γ) :
    contents (accesses ++ [access]) = access.apply (contents accesses) := by
  simp [contents, List.foldl_append]

/-- The shared pool gives every sequence a memory of its own: whatever the others allocate, extend,
    free or store in between, and whatever is evicted, an entry stored to a position is read back
    from it, until the sequence itself is freed, evicted or allocated again. -/
theorem reads_back (hbs : 0 < blockSize) {mem₀ mem : ℕ × ℕ → γ} {accesses : List (Access γ)}
    (hrun : Trace.Run AccessStep (new numBlocks blockSize, mem₀) accesses (m, mem)) :
    ∀ a v, contents accesses a = some v → (m.locate a).map mem = some v := by
  have hinv := hrun.invariant
    (I := fun accesses st => st.1.Owned ∧ Paging.Holds st.1.locate st.2 (contents accesses))
    ⟨new_owned numBlocks hbs, fun a v h => nomatch h⟩ ?_
  · exact hinv.2
  rintro accesses st access st' - ⟨h, hc⟩ hst
  rw [contents_snoc]
  cases hst with
  | @call m m' mem ev hcall =>
    have hown := h.perform ev.1
    have hsize := (h.perform_dims ev.1).2
    rw [show m.perform ev.1 = (ev.2, m') from hcall] at hown hsize
    refine ⟨hown, hc.remap fun a v hav => ?_⟩
    simp only [Access.apply] at hav
    split at hav
    · cases hav
    · rename_i hv
      exact ⟨hav, fun slot hl => (h.stays_step hcall hv).locate hsize hl⟩
  | store hslot => exact ⟨h, hc.store h.separate hslot _⟩

/-- `b` stores to its own position 0 after `a` has, and is then evicted. -/
theorem reads_back_interleaved : ∃ accesses m mem,
    Trace.Run AccessStep (new 4 2, fun _ => 0) accesses (m, mem) ∧ contents accesses ("b", 0) = none ∧
      (m.locate ("a", 0)).map mem = some 7 := by
  have hnil : Trace.Run AccessStep (new 4 2, fun _ => 0) [] (new 4 2, fun _ => 0) := .nil
  have hcalls := (hnil.snoc (.call (step_perform _ (.allocateSequence "b" 2)))).snoc
    (.call (step_perform _ (.allocateSequence "a" 2)))
  have hfirst := hcalls.snoc (.store (v := 7) (show locate _ ("a", 0) = some (2, 0) by decide +kernel))
  have hsecond := hfirst.snoc (.store (v := 8) (show locate _ ("b", 0) = some (3, 0) by decide +kernel))
  have hrun := hsecond.snoc (.call (step_perform _ .evictLru))
  exact ⟨_, _, _, hrun, by decide +kernel, reads_back (by decide) hrun ("a", 0) 7 (by decide +kernel)⟩

end CacheManager

end ModelServing
