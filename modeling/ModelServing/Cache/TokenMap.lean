import ModelServing.Cache.Recency

/-! What the paged manager is for: a map from live sequences to token counts. `tokens` reads the map
    off the calls made so far; the manager refines it, table lengths and block fills included, as
    long as no live id is allocated again and no extension has run out of blocks half-way. -/

namespace ModelServing

open Chunks

/-- Live sequences and the tokens each was given. -/
abbrev TokenMap := String → Option ℕ

/-- What a call that ended this way means for the map. -/
def TokenMap.apply (T : TokenMap) : CacheManager.Event → TokenMap
  | (.allocateSequence s n, .ok _) => Function.update T s (some n)
  | (.extendSequence s n, .ok _) => Function.update T s ((T s).map (· + n))
  | (.freeSequence s, .ok _) => Function.update T s none
  | (.evictLru, .ok (.victim (some v))) => Function.update T v none
  | _ => T

/-- The map after a history of calls. -/
def tokens (evs : List CacheManager.Event) : TokenMap := evs.foldl TokenMap.apply fun _ => none

namespace CacheManager

/-- The calls under which the manager is a plain map: allocation names a new id, lookups are not
    mixed in, and no extension raises `MemoryError`. -/
def Plain (m : CacheManager) : Event → Prop
  | (.allocateSequence s _, _) => m.blockTables.get? s = none
  | (.extendSequence _ _, .error (.memoryError _)) => False
  | (.getBlockTable _, _) => False
  | _ => True

def PlainStep (m : CacheManager) (ev : Event) (m' : CacheManager) : Prop :=
  m.Plain ev ∧ Step m ev m'

theorem PlainStep.known {m m' : CacheManager} {ev : Event} (h : PlainStep m ev m') : KnownStep m ev m' := by
  obtain ⟨hplain, hst⟩ := h
  obtain ⟨c, res⟩ := ev
  cases c with
  | getBlockTable s => exact hplain.elim
  | _ => exact ⟨hst, trivial⟩

/-- The tokens in a block. -/
def fill (m : CacheManager) (id : ℕ) : Option ℕ := (m.blocks[id]?).map PhysicalBlock.numTokensFilled

/-- The manager stores the map `T`: it has a table exactly for the live sequences, whose blocks hold
    the tokens cut into blockfuls. -/
structure Refines (T : TokenMap) (m : CacheManager) : Prop where
  dead : ∀ s, m.blockTables.get? s = none ↔ T s = none
  live : ∀ s t n, m.blockTables.get? s = some t → T s = some n →
    t.physicalBlockIds.map m.fill = (chunks m.blockSize n).map some

variable {m m₁ : CacheManager} {t t' : BlockTable} {T : TokenMap} {s : String}

theorem Refines.exists_tokens (R : Refines T m) (ht : m.blockTables.get? s = some t) :
    ∃ n, T s = some n := by
  cases hT : T s with
  | none => rw [(R.dead s).mpr hT] at ht; cases ht
  | some n => exact ⟨n, rfl⟩

theorem Refines.exists_table (R : Refines T m) {n : ℕ} (hT : T s = some n) :
    ∃ t, m.blockTables.get? s = some t := by
  cases ht : m.blockTables.get? s with
  | none => rw [(R.dead s).mp ht] at hT; cases hT
  | some t => exact ⟨t, rfl⟩

theorem Refines.numBlocks_eq (R : Refines T m) {n : ℕ} (ht : m.blockTables.get? s = some t)
    (hT : T s = some n) : t.numBlocks = n ⌈/⌉ m.blockSize := by
  simpa [BlockTable.numBlocks] using congrArg List.length (R.live s t n ht hT)

/-- A call that disturbs only `s` refines the map changed at `s` only, once `s` is right. -/
theorem Refines.update (R : Refines T m) {o : Option ℕ} (hsize : m₁.blockSize = m.blockSize)
    (hu : ∀ b, b ≠ s → Undisturbed b m m₁) (hdead : m₁.blockTables.get? s = none ↔ o = none)
    (hlive : ∀ t n, m₁.blockTables.get? s = some t → o = some n →
      t.physicalBlockIds.map m₁.fill = (chunks m.blockSize n).map some) :
    Refines (Function.update T s o) m₁ where
  dead := by
    intro b
    by_cases hb : b = s
    · subst hb; simpa using hdead
    · rw [Function.update_of_ne hb, (hu b hb).table]; exact R.dead b
  live := by
    intro b u n hu' hT
    rw [hsize]
    by_cases hb : b = s
    · subst hb
      exact hlive u n hu' (by simpa using hT)
    · rw [Function.update_of_ne hb] at hT
      rw [(hu b hb).table] at hu'
      rw [← R.live b u n hu' hT]
      refine List.map_congr_left fun id hid => ?_
      rw [fill, fill, (hu b hb).blocks u hu' id hid]

/-- The blocks taken in one loop hold the tokens cut into blockfuls. -/
theorem Owned.map_fill_taken (h : m.Owned) {n : ℕ}
    (K : Taken m t n (n ⌈/⌉ m.blockSize) m₁ t') (hle : n ⌈/⌉ m.blockSize ≤ m.numFreeBlocks) :
    (m.freeBlockIds.take (n ⌈/⌉ m.blockSize)).map m₁.fill = (chunks m.blockSize n).map some := by
  refine List.ext_getElem? fun j => ?_
  by_cases hj : j < n ⌈/⌉ m.blockSize
  · have hlt : j < m.freeBlockIds.length := hj.trans_le hle
    obtain ⟨id, hid⟩ : ∃ id, m.freeBlockIds[j]? = some id := ⟨_, List.getElem?_eq_getElem hlt⟩
    obtain ⟨b, hb, _⟩ := h.free id (List.mem_of_getElem? hid)
    have hfill : m₁.fill id = some (min (n - j * m.blockSize) m.blockSize) := by
      rw [fill, K.filled j id hj hid, hb]; rfl
    simp [hj, hid, hfill, chunks]
  · simp [hj]

/-- Blocks mapped before keep their fill when others are taken. -/
theorem Owned.map_fill_kept (h : m.Owned) {n count : ℕ} (K : Taken m t n count m₁ t')
    {u : BlockTable} (hu : m.blockTables.get? s = some u) :
    u.physicalBlockIds.map m₁.fill = u.physicalBlockIds.map m.fill :=
  List.map_congr_left fun id hid => by
    rw [fill, fill, K.frame id fun hm =>
      h.not_mapped_of_free (List.mem_of_mem_take hm) (Owned.mem_mapped hu hid)]

theorem Refines.allocateSequence (R : Refines T m) (h : m.Owned) {n : ℕ} {m' : CacheManager}
    {u : BlockTable} (heq : m.allocateSequence s n = (.ok u, m')) :
    Refines (Function.update T s (some n)) m' := by
  have hu : ∀ b, b ≠ s → Undisturbed b m m' := fun b hb => by
    have := h.undisturbed_perform (c := .allocateSequence s n) (b := b)
      (fun he => hb (Option.some.inj he).symm) (by simp [CacheManager.perform, heq, Except.map])
    simpa [CacheManager.perform, heq] using this
  rcases allocateSequence_cases m s n h.free_nodup with ⟨_, _, heq'⟩ | ⟨hle, m₁, t, K, heq'⟩
  · rw [heq] at heq'; cases heq'
  · rw [heq] at heq'
    obtain ⟨rfl, rfl⟩ : u = t ∧ m' = _ := by
      simpa only [Prod.mk.injEq, Except.ok.injEq] using heq'
    have hsize : m₁.blockSize = m.blockSize := by rw [K.manager]
    refine R.update hsize hu (by simp [bindTable]) fun t' n' ht' hn' => ?_
    have ht : t' = u := by simpa [bindTable, eq_comm] using ht'
    cases hn'
    subst ht
    rw [K.table]
    change ([] ++ m.freeBlockIds.take (n ⌈/⌉ m.blockSize)).map m₁.fill = _
    exact h.map_fill_taken K hle

/-- What topping up does to the fills, and how much is left for new blocks. -/
theorem Refines.fillLastBlock (R : Refines T m) (h : m.Owned) {n k : ℕ}
    (ht : m.blockTables.get? s = some t) (hT : T s = some n) :
    t.physicalBlockIds.map (m.fillLastBlock t k).1.fill ++
        (chunks m.blockSize (m.fillLastBlock t k).2).map some = (chunks m.blockSize (n + k)).map some ∧
      (n + k) ⌈/⌉ m.blockSize =
        n ⌈/⌉ m.blockSize + (m.fillLastBlock t k).2 ⌈/⌉ m.blockSize := by
  have hfills := R.live s t n ht hT
  rcases h.fillLastBlock_cases k ht with ⟨hnil, heq⟩ | ⟨init, last, b, hcat, hb, _, heq⟩
  · rw [hnil] at hfills
    have hn : n = 0 := (chunks_eq_nil_iff h.blockSize_pos).mp (List.map_eq_nil_iff.mp hfills.symm)
    subst hn
    rw [heq, hnil]
    have hzero : 0 ⌈/⌉ m.blockSize = 0 := by rw [← length_chunks, chunks_zero]; rfl
    simp [hzero]
  · set fit := min (m.blockSize - b.numTokensFilled) k
    have hlast : last ∉ init := by
      have := h.table_nodup ht
      rw [hcat] at this
      exact fun hm => (List.nodup_append.mp this).2.2 last hm last (List.mem_singleton_self _) rfl
    have hm₁ : (m.fillLastBlock t k).1.fill last = some (b.numTokensFilled + fit) := by
      rw [heq, fill, List.getElem?_modify_eq, hb]; rfl
    have hinit : init.map (m.fillLastBlock t k).1.fill = init.map m.fill := by
      refine List.map_congr_left fun id hid => ?_
      have hne : last ≠ id := fun he => hlast (he ▸ hid)
      rw [heq, fill, fill]
      exact congrArg _ (List.getElem?_modify_ne _ _ hne)
    have hfl : m.fill last = some b.numTokensFilled := by rw [fill, hb]; rfl
    -- the fills so far end in the last block's, so the growing law applies
    obtain ⟨cs, hcs, hinit'⟩ : ∃ cs, chunks m.blockSize n = cs ++ [b.numTokensFilled] ∧
        init.map m.fill = cs.map some := by
      rw [hcat, List.map_append, List.map_singleton, hfl] at hfills
      obtain ⟨cs, ds, hcd, h1, h2⟩ := List.map_eq_append_iff.mp hfills.symm
      obtain ⟨d, rfl, hd⟩ := List.map_eq_singleton_iff.mp h2
      cases hd
      exact ⟨cs, hcd, h1.symm⟩
    refine ⟨?_, ?_⟩
    · rw [chunks_add h.blockSize_pos k n hcs, hcat, List.map_append, hinit, List.map_singleton, hm₁,
        hinit', heq]
      simp [fit]
    · rw [ceilDiv_add h.blockSize_pos k hcs, heq]

theorem Refines.extendSequence (R : Refines T m) (h : m.Owned) {n : ℕ} {m' : CacheManager} {r : ℕ}
    (heq : m.extendSequence s n = (.ok r, m')) :
    Refines (Function.update T s ((T s).map (· + n))) m' := by
  have hu : ∀ b, b ≠ s → Undisturbed b m m' := fun b hb => by
    have := h.undisturbed_perform (c := .extendSequence s n) (b := b)
      (fun he => hb (Option.some.inj he).symm) (by simp [CacheManager.perform, heq, Except.map])
    simpa [CacheManager.perform, heq] using this
  cases ht : m.blockTables.get? s with
  | none => rw [extendSequence_of_dead n ht] at heq; cases heq
  | some t =>
    obtain ⟨n₀, hT⟩ := R.exists_tokens ht
    have R₀ : Refines T (m.touch s) := ⟨R.dead, R.live⟩
    have h₁ := (h.touch s).fillLastBlock n ht
    obtain ⟨hfills, _⟩ := R₀.fillLastBlock (h.touch s) (k := n) ht hT
    have hsize := fillLastBlock_blockSize (m.touch s) t n
    have hfree := fillLastBlock_free (m.touch s) t n
    have htab := fillLastBlock_blockTables (m.touch s) t n
    rcases extendSequence_cases n h.blockSize_pos h.free_nodup ht with
      ⟨_, _, heq'⟩ | ⟨hle, m₂, t', K, heq'⟩
    · rw [heq] at heq'; cases heq'
    · rw [heq] at heq'
      set m₁ := ((m.touch s).fillLastBlock t n).1
      set rest := ((m.touch s).fillLastBlock t n).2
      obtain ⟨-, rfl⟩ : r = _ ∧ m' = _ := by
        simpa only [Prod.mk.injEq, Except.ok.injEq] using heq'
      have hsize₂ : m₂.blockSize = m.blockSize := by rw [K.manager]; exact hsize
      refine R.update hsize₂ hu (by simp [bindTable, hT]) fun u n' hu' hn' => ?_
      have hu'' : u = t' := by simpa [bindTable, eq_comm] using hu'
      have hn'' : n' = n₀ + n := by simpa [hT, eq_comm] using hn'
      have hsize' : m₁.blockSize = m.blockSize := hsize
      rw [← hsize'] at K hle
      have htaken := h₁.map_fill_taken K (hle.trans_eq (congrArg List.length hfree).symm)
      rw [hu'', hn'', K.table, List.map_append]
      change List.map m₂.fill _ ++ List.map m₂.fill _ = _
      rw [htaken, h₁.map_fill_kept K (s := s) (htab ▸ ht)]
      exact hsize' ▸ hfills

theorem Refines.freeSequence (R : Refines T m) (h : m.Owned) (s : String) :
    Refines (Function.update T s none) (m.freeSequence s) :=
  R.update (h.freeSequence_dims s).2 (fun _ hb => h.undisturbed_freeSequence hb)
    (by simp [h.get?_freeSequence]) (fun _ _ _ hn => by cases hn)

theorem Refines.evictLru (R : Refines T m) (h : m.Owned) {v : String} {m' : CacheManager}
    (heq : m.evictLru = (.ok (some v), m')) : Refines (Function.update T v none) m' := by
  obtain ⟨-, -, rfl⟩ := evictLru_ok heq
  have h₀ : Owned { m with accessOrder := m.accessOrder.erase v } := h.of_eq rfl rfl rfl rfl rfl
  have R₀ : Refines T { m with accessOrder := m.accessOrder.erase v } := ⟨R.dead, R.live⟩
  have := R₀.freeSequence h₀ v
  exact ⟨this.dead, this.live⟩

/-- One plain call: the map changes as the outcome says, and the manager follows. -/
theorem Refines.step (R : Refines T m) (h : m.Owned) {ev : Event} {m' : CacheManager}
    (hst : PlainStep m ev m') : Refines (T.apply ev) m' := by
  obtain ⟨c, res⟩ := ev
  obtain ⟨hplain, hperf⟩ := hst
  cases c with
  | allocateSequence s n =>
    obtain ⟨rfl, rfl⟩ := Prod.mk.inj hperf
    rcases hres : m.allocateSequence s n with ⟨r, m₁⟩
    cases r with
    | ok u => exact R.allocateSequence h hres
    | error e =>
      rcases allocateSequence_cases m s n h.free_nodup with ⟨_, _, heq⟩ | ⟨_, _, _, _, heq⟩ <;>
        (rw [hres] at heq; cases heq)
      exact R
  | extendSequence s n =>
    obtain ⟨rfl, rfl⟩ := Prod.mk.inj hperf
    rcases hres : m.extendSequence s n with ⟨r, m₁⟩
    cases r with
    | ok u => exact R.extendSequence h hres
    | error e =>
      cases ht : m.blockTables.get? s with
      | none => rw [extendSequence_of_dead n ht] at hres; cases hres; exact R
      | some t =>
        rcases extendSequence_cases n h.blockSize_pos h.free_nodup ht with
          ⟨_, _, heq⟩ | ⟨_, _, _, _, heq⟩ <;> (rw [hres] at heq; cases heq)
        simp [Plain, hres, Except.map] at hplain
  | freeSequence s =>
    obtain ⟨rfl, rfl⟩ := Prod.mk.inj hperf
    exact R.freeSequence h s
  | evictLru =>
    obtain ⟨rfl, rfl⟩ := Prod.mk.inj hperf
    rcases evictLru_cases m with ⟨_, heq⟩ | ⟨v, _, _, ⟨_, heq⟩ | ⟨t, _, heq⟩⟩
    · rw [heq]; exact R
    · rw [heq]; exact ⟨R.dead, R.live⟩
    · have := R.evictLru h heq
      rw [heq]; exact this
  | getBlockTable s => exact absurd hplain id

theorem Complete.step (hc : m.Complete) (h : m.Owned) {ev : Event} {m' : CacheManager}
    (hst : PlainStep m ev m') : m'.Complete := by
  obtain ⟨c, res⟩ := ev
  obtain ⟨hplain, hperf⟩ := hst
  obtain ⟨-, rfl⟩ := Prod.mk.inj hperf
  cases c with
  | allocateSequence s n => exact h.complete_allocateSequence hc hplain n
  | extendSequence s n => exact h.complete_extendSequence hc s n
  | freeSequence s => exact h.complete_freeSequence hc s
  | evictLru => exact h.complete_evictLru hc
  | getBlockTable s => exact hc

variable {numBlocks blockSize : ℕ} {evs : List Event}

/-- Every plain run refines the map its outcomes spell out, and leaks nothing. -/
theorem refines_of_run (hbs : 0 < blockSize)
    (hrun : Trace.Run PlainStep (new numBlocks blockSize) evs m) :
    m.Owned ∧ m.Complete ∧ Refines (tokens evs) m := by
  refine hrun.invariant (I := fun evs m => m.Owned ∧ m.Complete ∧ Refines (tokens evs) m)
    ⟨new_owned numBlocks hbs, new_complete numBlocks blockSize, ⟨fun s => by simp [tokens, new],
      fun s t n ht => by simp [new] at ht⟩⟩ ?_
  rintro evs m ev m' - ⟨h, hc, R⟩ hst
  refine ⟨?_, hc.step h hst, ?_⟩
  · have := h.perform ev.1
    rwa [show m.perform ev.1 = (ev.2, m') from hst.2] at this
  · rw [tokens, List.foldl_append]
    exact R.step h hst

/-- Blocks the sequences in `live` need for their tokens. -/
def blocksUsed (blockSize : ℕ) (T : TokenMap) (live : List String) : ℕ :=
  (live.map fun s => (T s).getD 0 ⌈/⌉ blockSize).sum

theorem Refines.length_mapped (R : Refines T m) :
    m.mapped.length = blocksUsed m.blockSize T m.blockTables.keys := by
  rw [mapped, OrderedDict.items, OrderedDict.values, OrderedDict.keys, blocksUsed,
    List.length_flatMap, List.map_map, List.map_map]
  congr 1
  refine List.map_congr_left fun p hp => ?_
  have ht : m.blockTables.get? p.1 = some p.2 := OrderedDict.get?_eq_some_iff.mpr hp
  obtain ⟨n, hn⟩ := R.exists_tokens ht
  simpa [hn, BlockTable.numBlocks] using R.numBlocks_eq ht hn

theorem Complete.free_add_mapped (hc : m.Complete) :
    m.numFreeBlocks + m.mapped.length = m.numBlocks := by
  simpa [numFreeBlocks] using hc.length_eq

/-- CORRECT: in every state of a plain run the tables are the token map cut into blockfuls, the free
    count is the pool less what the map needs, allocation succeeds exactly when the blocks are there
    and otherwise changes nothing, extension succeeds exactly when the additional blocks are there
    and returns their number, freeing or evicting takes out one entry, and eviction finds nothing
    exactly when the map is empty. -/
theorem refines_token_map (hbs : 0 < blockSize)
    (hrun : Trace.Run PlainStep (new numBlocks blockSize) evs m) :
    (∀ s, m.blockTables.get? s = none ↔ tokens evs s = none) ∧
    (∀ s t n, m.blockTables.get? s = some t → tokens evs s = some n →
      t.numBlocks = n ⌈/⌉ blockSize ∧ ∀ j id, t.physicalBlockIds[j]? = some id →
        ∃ b, m.blocks[id]? = some b ∧ b.numTokensFilled = min blockSize (n - j * blockSize)) ∧
    m.numFreeBlocks + blocksUsed blockSize (tokens evs) m.blockTables.keys = numBlocks ∧
    (∀ s n, m.blockTables.get? s = none →
      ((∃ t, (m.allocateSequence s n).1 = .ok t) ↔ m.canAllocate n = true) ∧
      (m.canAllocate n = true ↔ n ⌈/⌉ blockSize ≤ m.numFreeBlocks) ∧
      ∀ e, (m.allocateSequence s n).1 = .error e → (m.allocateSequence s n).2 = m) ∧
    (∀ s n k, tokens evs s = some n →
      ((∃ r, (m.extendSequence s k).1 = .ok r) ↔
        (n + k) ⌈/⌉ blockSize - n ⌈/⌉ blockSize ≤ m.numFreeBlocks) ∧
      ∀ r, (m.extendSequence s k).1 = .ok r → r = (n + k) ⌈/⌉ blockSize - n ⌈/⌉ blockSize) ∧
    (∀ s b, (m.freeSequence s).blockTables.get? b =
      if b = s then none else m.blockTables.get? b) ∧
    (∀ v, m.evictLru.1 = .ok (some v) → m.blockTables.get? v ≠ none ∧
      ∀ b, m.evictLru.2.blockTables.get? b = if b = v then none else m.blockTables.get? b) ∧
    (m.evictLru.1 = .ok none ↔ ∀ s, tokens evs s = none) := by
  obtain ⟨h, hc, R⟩ := refines_of_run hbs hrun
  obtain ⟨hnum, hsize⟩ := dims_of_run hbs (hrun.mono fun _ _ _ hst => hst.2)
  refine ⟨R.dead, ?_, ?_, ?_, ?_, h.get?_freeSequence, ?_, ?_⟩
  · intro s t n ht hn
    refine ⟨hsize ▸ R.numBlocks_eq ht hn, fun j id hid => ?_⟩
    have hj := congrArg (·[j]?) (R.live s t n ht hn)
    simp only [List.getElem?_map, hid, Option.map_some, hsize] at hj
    obtain ⟨c, hc', hfc⟩ := Option.map_eq_some_iff.mp hj.symm
    obtain ⟨b, hb, hbf⟩ := Option.map_eq_some_iff.mp hfc.symm
    simp only [chunks, List.getElem?_map, Option.map_eq_some_iff] at hc'
    obtain ⟨j', hj', hcj⟩ := hc'
    obtain ⟨_, hjj⟩ := List.getElem?_eq_some_iff.mp hj'
    rw [List.getElem_range] at hjj
    exact ⟨b, hb, by rw [hbf, ← hcj, ← hjj, Nat.min_comm]⟩
  · rw [← hsize, ← R.length_mapped, ← hnum]
    exact hc.free_add_mapped
  · intro s n _
    have hcan : m.canAllocate n = true ↔ n ⌈/⌉ blockSize ≤ m.numFreeBlocks := by
      rw [canAllocate, decide_eq_true_iff, tokensToBlocks_eq, hsize]
    rw [hcan]
    rcases allocateSequence_cases m s n h.free_nodup with ⟨hlt, _, heq⟩ | ⟨hle, _, t, _, heq⟩
    · rw [hsize] at hlt
      exact ⟨by simp [heq, Nat.not_le.mpr hlt], Iff.rfl, fun _ _ => by rw [heq]⟩
    · rw [hsize] at hle
      exact ⟨by simp [heq, hle], Iff.rfl, fun e he => by rw [heq] at he; cases he⟩
  · intro s n k hn
    obtain ⟨t, ht⟩ := R.exists_table hn
    have R₀ : Refines (tokens evs) (m.touch s) := ⟨R.dead, R.live⟩
    have hneed := (R₀.fillLastBlock (h.touch s) (k := k) ht hn).2
    change (n + k) ⌈/⌉ m.blockSize = n ⌈/⌉ m.blockSize + _ ⌈/⌉ m.blockSize at hneed
    rw [← hsize, hneed, Nat.add_sub_cancel_left]
    rcases extendSequence_cases k h.blockSize_pos h.free_nodup ht with
      ⟨hlt, _, heq⟩ | ⟨hle, _, _, _, heq⟩
    · exact ⟨by simp [heq, Nat.not_le.mpr hlt], fun r hr => by rw [heq] at hr; cases hr⟩
    · refine ⟨by simp [heq, hle], fun r hr => ?_⟩
      rw [heq] at hr
      exact (Except.ok.inj hr).symm
  · intro v hv
    obtain ⟨-, ⟨t, ht⟩, F⟩ := h.evicted (Prod.ext hv rfl)
    exact ⟨by rw [ht]; simp, F.tables⟩
  · have K := (keyed_of_run hbs (hrun.mono fun _ _ _ hst => hst.known)).2
    rw [K.evictLru_eq_none_iff, List.eq_nil_iff_forall_not_mem]
    exact forall_congr' fun s => OrderedDict.get?_eq_none_iff.symm.trans (R.dead s)

/-- Three tokens and two more in blocks of two: three blocks, none of the pool is left. -/
theorem refines_token_map_extended :
    let m := (((new 3 2).allocateSequence "a" 3).2.extendSequence "a" 2).2
    m.numFreeBlocks = 0 ∧ ∀ t, m.blockTables.get? "a" = some t → t.numBlocks = 3 := by
  intro m
  have h₁ := step_perform (new 3 2) (.allocateSequence "a" 3)
  have h₂ := step_perform ((new 3 2).allocateSequence "a" 3).2 (.extendSequence "a" 2)
  have p₁ : PlainStep (new 3 2) _ _ := ⟨by rfl, h₁⟩
  have p₂ : PlainStep ((new 3 2).allocateSequence "a" 3).2 _ _ := ⟨by trivial, h₂⟩
  have h := refines_token_map (by decide) (.snoc (.snoc .nil p₁) p₂)
  refine ⟨?_, fun t ht => (h.2.1 "a" t 5 ht rfl).1⟩
  have hfree := h.2.2.1
  exact Nat.add_right_cancel hfree

end CacheManager

end ModelServing
