import ModelServing.Cache.Recency

/-! Eviction takes the least recently used sequence. What "recently used" means is read off the
    calls made so far; the recency order of the manager keeps its keys sorted by it, the ids that
    have been looked up while dead included. -/

namespace ModelServing

namespace CacheManager

variable {m m' : CacheManager} {numBlocks blockSize : ℕ} {evs : List Event} {s v : String}

/-- The sequence a call touches: an allocation that succeeds, an extension of a live sequence (also
    one that runs out of blocks), a lookup. -/
def touched : Event → Option String
  | (.allocateSequence s _, .ok _) => some s
  | (.extendSequence s _, .ok _) => some s
  | (.extendSequence s _, .error (.memoryError _)) => some s
  | (.getBlockTable s, _) => some s
  | _ => none

/-- When `s` was last touched: the number of calls up to and including that one, `0` if never. -/
def lastTouch (evs : List Event) (s : String) : ℕ :=
  evs.length - evs.reverse.findIdx fun ev => touched ev = some s

@[simp] theorem lastTouch_snoc (evs : List Event) (ev : Event) (s : String) :
    lastTouch (evs ++ [ev]) s = if touched ev = some s then evs.length + 1 else lastTouch evs s := by
  simp only [lastTouch, List.reverse_append, List.reverse_singleton, List.singleton_append,
    List.findIdx_cons, List.length_append, List.length_singleton]
  by_cases h : touched ev = some s <;> simp [h]

theorem lastTouch_le (evs : List Event) (s : String) : lastTouch evs s ≤ evs.length :=
  Nat.sub_le _ _

/-! ### One call -/

theorem keys_touch (m : CacheManager) (s : String) :
    (m.touch s).accessOrder.keys = (m.accessOrder.erase s).keys ++ [s] := by
  simp only [touch, OrderedDict.keys, OrderedDict.entries_moveToEnd_insert, List.map_append,
    List.map_singleton]

/-- A call that touches `s` puts it last and makes no other sequence live. -/
structure Touches (s : String) (m m' : CacheManager) : Prop where
  order : m'.accessOrder = (m.touch s).accessOrder
  live : ∀ k ∈ m'.blockTables.keys, k = s ∨ k ∈ m.blockTables.keys

/-- A call that touches nothing takes out at most sequences it frees and ids that were not live. -/
structure Forgets (m m' : CacheManager) : Prop where
  order : m'.accessOrder.keys.Sublist m.accessOrder.keys
  live : ∀ k ∈ m'.blockTables.keys, k ∈ m.blockTables.keys
  kept : ∀ k ∈ m'.blockTables.keys, k ∈ m.accessOrder.keys → k ∈ m'.accessOrder.keys

theorem Forgets.refl (m : CacheManager) : Forgets m m :=
  ⟨.refl _, fun _ hk => hk, fun _ _ hk => hk⟩

theorem Forgets.of_freed (F : Freed m s m') : Forgets m m' where
  order := by
    rw [F.accessOrder]
    exact List.filter_sublist.map Prod.fst
  live := by
    intro k hk
    obtain ⟨t, ht⟩ := OrderedDict.mem_keys_iff.mp hk
    rw [F.tables] at ht
    split at ht
    · cases ht
    · exact OrderedDict.mem_keys_of_get? ht
  kept := by
    intro k hk hmem
    refine (F.order k).mpr ⟨?_, hmem⟩
    rintro rfl
    obtain ⟨t, ht⟩ := OrderedDict.mem_keys_iff.mp hk
    rw [F.tables, if_pos rfl] at ht
    cases ht

theorem Owned.touches_extendSequence (h : m.Owned) {t : BlockTable}
    (ht : m.blockTables.get? s = some t) (n : ℕ) : Touches s m (m.extendSequence s n).2 := by
  have hfill := fillLastBlock_eq (m.touch s) t n
  rcases extendSequence_cases n h.blockSize_pos h.free_nodup ht with
    ⟨_, _, heq⟩ | ⟨_, m₂, t', T, heq⟩
  · rw [heq, hfill]
    exact ⟨rfl, fun k hk => Or.inr hk⟩
  · rw [heq, T.manager, hfill]
    refine ⟨rfl, fun k hk => ?_⟩
    exact OrderedDict.mem_keys_insert.mp hk

/-- Every call touches what its outcome says, or nothing. -/
theorem Owned.perform_cases (h : m.Owned) (c : Call) :
    (∃ s, touched (c, (m.perform c).1) = some s ∧ Touches s m (m.perform c).2) ∨
    (touched (c, (m.perform c).1) = none ∧ Forgets m (m.perform c).2) := by
  cases c with
  | allocateSequence s n =>
    rcases allocateSequence_cases m s n h.free_nodup with ⟨_, _, heq⟩ | ⟨_, m₁, t, T, heq⟩
    · refine Or.inr ⟨by simp [CacheManager.perform, heq, touched, Except.map], ?_⟩
      simp only [CacheManager.perform, heq]
      exact .refl m
    · refine Or.inl ⟨s, by simp [CacheManager.perform, heq, touched, Except.map], ?_⟩
      simp only [CacheManager.perform, heq]
      rw [T.manager]
      exact ⟨rfl, fun k hk => OrderedDict.mem_keys_insert.mp hk⟩
  | extendSequence s n =>
    cases ht : m.blockTables.get? s with
    | none =>
      have heq := extendSequence_of_dead n ht
      refine Or.inr ⟨by simp [CacheManager.perform, heq, touched, Except.map], ?_⟩
      simp only [CacheManager.perform, heq]
      exact .refl m
    | some t =>
      refine Or.inl ⟨s, ?_, h.touches_extendSequence ht n⟩
      rcases extendSequence_cases n h.blockSize_pos h.free_nodup ht with
        ⟨_, _, heq⟩ | ⟨_, _, _, _, heq⟩ <;> simp [CacheManager.perform, heq, touched, Except.map]
  | freeSequence s =>
    refine Or.inr ⟨rfl, ?_⟩
    cases ht : m.blockTables.get? s with
    | none => simpa only [CacheManager.perform, freeSequence_of_dead ht] using Forgets.refl m
    | some t => exact .of_freed (h.freed ht)
  | evictLru =>
    refine Or.inr ⟨rfl, ?_⟩
    rcases evictLru_cases m with ⟨_, heq⟩ | ⟨v, _, _, ⟨hdead, heq⟩ | ⟨t, _, heq⟩⟩
    · simpa only [CacheManager.perform, heq] using Forgets.refl m
    · simp only [CacheManager.perform, heq]
      refine ⟨List.filter_sublist.map Prod.fst, fun k hk => hk, fun k hk hmem => ?_⟩
      refine OrderedDict.mem_keys_erase.mpr ⟨?_, hmem⟩
      rintro rfl
      exact OrderedDict.get?_eq_none_iff.mp hdead hk
    · have F := (h.evicted heq).2.2
      simp only [CacheManager.perform, heq]
      exact .of_freed F
  | getBlockTable s => exact Or.inl ⟨s, rfl, rfl, fun k hk => Or.inr hk⟩

/-! ### Runs -/

/-- The recency order lists every live sequence, in the order of their last touches. -/
structure ByLastTouch (evs : List Event) (m : CacheManager) : Prop where
  live : ∀ k ∈ m.blockTables.keys, k ∈ m.accessOrder.keys
  sorted : m.accessOrder.keys.Pairwise fun k k' => lastTouch evs k < lastTouch evs k'
  touched_once : ∀ k ∈ m.accessOrder.keys, 0 < lastTouch evs k

theorem ByLastTouch.touch (B : ByLastTouch evs m) {ev : Event} (hev : touched ev = some s)
    (T : Touches s m m') : ByLastTouch (evs ++ [ev]) m' where
  live := by
    intro k hk
    rw [T.order, mem_keys_touch]
    exact (T.live k hk).imp_right (B.live k)
  sorted := by
    have hold : ∀ k ∈ (m.accessOrder.erase s).keys, lastTouch (evs ++ [ev]) k = lastTouch evs k := by
      intro k hk
      have hne : some s ≠ some k := fun he =>
        (OrderedDict.mem_keys_erase.mp hk).1 (Option.some.inj he).symm
      rw [lastTouch_snoc, hev, if_neg hne]
    have hsub : (m.accessOrder.erase s).keys.Sublist m.accessOrder.keys :=
      List.filter_sublist.map Prod.fst
    rw [T.order, keys_touch]
    refine List.pairwise_append.mpr ⟨?_, List.pairwise_singleton _ _, ?_⟩
    · refine (B.sorted.sublist hsub).imp_of_mem fun hk hk' hlt => ?_
      rwa [hold _ hk, hold _ hk']
    · intro k hk k' hk'
      obtain rfl := List.mem_singleton.mp hk'
      rw [hold k hk, lastTouch_snoc, if_pos hev]
      exact Nat.lt_succ_of_le (lastTouch_le evs k)
  touched_once := by
    intro k hk
    rw [T.order, mem_keys_touch] at hk
    rw [lastTouch_snoc]
    split
    · exact Nat.succ_pos _
    · rename_i hne
      rcases hk with rfl | hk
      · exact absurd hev hne
      · exact B.touched_once k hk

theorem ByLastTouch.forget (B : ByLastTouch evs m) {ev : Event} (hev : touched ev = none)
    (F : Forgets m m') : ByLastTouch (evs ++ [ev]) m' where
  live k hk := F.kept k hk (B.live k (F.live k hk))
  sorted := by
    simp only [lastTouch_snoc, hev, reduceCtorEq, if_false]
    exact B.sorted.sublist F.order
  touched_once := by
    intro k hk
    simp only [lastTouch_snoc, hev, reduceCtorEq, if_false]
    exact B.touched_once k (F.order.subset hk)

theorem byLastTouch_of_run (hbs : 0 < blockSize)
    (hrun : Trace.Run Step (new numBlocks blockSize) evs m) : ByLastTouch evs m := by
  refine hrun.invariant (I := fun evs m => ByLastTouch evs m)
    ⟨fun k hk => hk, List.Pairwise.nil, fun k hk => absurd hk List.not_mem_nil⟩ ?_
  rintro evs m ⟨c, r⟩ m' hr B hst
  obtain rfl : (m.perform c).1 = r := congrArg Prod.fst hst
  obtain rfl : (m.perform c).2 = m' := congrArg Prod.snd hst
  rcases (owned_of_run hbs hr).perform_cases c with ⟨s, hev, T⟩ | ⟨hev, F⟩
  · exact B.touch hev T
  · exact B.forget hev F

/-- CORRECT: after any history of calls, an eviction that returns an id has taken out a live sequence
    whose last touch lies before those of all other live sequences, and leaves the order of the
    others as it was. -/
theorem evicts_least_recently_used (hbs : 0 < blockSize)
    (hrun : Trace.Run Step (new numBlocks blockSize) evs m)
    (hv : m.evictLru.1 = .ok (some v)) :
    v ∈ m.blockTables.keys ∧ 0 < lastTouch evs v ∧
    (∀ s ∈ m.blockTables.keys, s ≠ v → lastTouch evs v < lastTouch evs s) ∧
    m.evictLru.2.accessOrder.keys = m.accessOrder.keys.filter (· ≠ v) := by
  have h := owned_of_run hbs hrun
  have B := byLastTouch_of_run hbs hrun
  obtain ⟨hmem, ⟨t, ht⟩, F⟩ := h.evicted (Prod.ext hv rfl)
  refine ⟨OrderedDict.mem_keys_of_get? ht, B.touched_once v hmem, fun s hs hne => ?_, ?_⟩
  · -- the victim is the first key, and `s` is another
    have hhead : m.accessOrder.keys.head? = some v := (evictLru_ok (Prod.ext hv rfl)).1
    have hsorted := B.sorted
    have hs := B.live s hs
    obtain ⟨rest, hkeys⟩ := List.head?_eq_some_iff.mp hhead
    rw [hkeys] at hsorted hs
    exact (List.pairwise_cons.mp hsorted).1 s ((List.mem_cons.mp hs).resolve_left hne)
  · rw [F.accessOrder]
    simp only [OrderedDict.keys, OrderedDict.erase, List.filter_map]
    rfl

/-- A lookup of `a` makes `b` the victim; the id `c`, looked up before it lives, counts from its
    allocation. -/
theorem evicts_least_recently_used_lookup :
    let m := (((((new 4 2).getBlockTable "c").2.allocateSequence "a" 1).2.allocateSequence "b" 1
      ).2.allocateSequence "c" 1).2.getBlockTable "a"
    "b" ∈ m.2.blockTables.keys ∧ m.2.evictLru.2.accessOrder.keys = ["c", "a"] := by
  intro m
  have h₁ := step_perform (new 4 2) (.getBlockTable "c")
  have h₂ := step_perform ((new 4 2).getBlockTable "c").2 (.allocateSequence "a" 1)
  have h₃ := step_perform (((new 4 2).getBlockTable "c").2.allocateSequence "a" 1).2
    (.allocateSequence "b" 1)
  have h₄ := step_perform
    ((((new 4 2).getBlockTable "c").2.allocateSequence "a" 1).2.allocateSequence "b" 1).2
    (.allocateSequence "c" 1)
  have h₅ := step_perform
    (((((new 4 2).getBlockTable "c").2.allocateSequence "a" 1).2.allocateSequence "b" 1
      ).2.allocateSequence "c" 1).2 (.getBlockTable "a")
  have hrun := Trace.Run.snoc (.snoc (.snoc (.snoc (.snoc .nil h₁) h₂) h₃) h₄) h₅
  have hv : m.2.evictLru.1 = .ok (some "b") := by decide +kernel
  have h := evicts_least_recently_used (by decide) hrun hv
  exact ⟨h.1, h.2.2.2.trans (by decide +kernel)⟩

end CacheManager

end ModelServing
