import ModelServing.Lib.OrderedDict
import ModelServing.Lib.Chunks
import ModelServing.Lib.Run

/-! The KV-cache block pool: `block.py` and `manager.py`.

    A pool of fixed-size physical blocks, a free list used as a stack, one block table per sequence
    and the recency order that picks the sequence to evict. Calls that raise keep whatever they had
    already changed, so every operation returns its result next to the state it leaves behind. Two
    things of the source are left out because nothing reads them back: the clock readings stored as
    the values of `_access_order`, and logging. -/

namespace ModelServing

/-! ### block.py -/

inductive BlockStatus where | FREE | ALLOCATED | RESERVED
  deriving DecidableEq

structure PhysicalBlock where
  blockId : ℕ
  blockSize : ℕ
  status : BlockStatus := .FREE
  refCount : ℕ := 0
  numTokensFilled : ℕ := 0
  deriving DecidableEq

namespace PhysicalBlock

def isFull (b : PhysicalBlock) : Bool := decide (b.blockSize ≤ b.numTokensFilled)

def freeSlots (b : PhysicalBlock) : ℕ := b.blockSize - b.numTokensFilled

def allocate (b : PhysicalBlock) : PhysicalBlock :=
  { b with status := .ALLOCATED, refCount := b.refCount + 1 }

/-- Drop one reference; the last one frees the block. -/
def release (b : PhysicalBlock) : PhysicalBlock :=
  let b := { b with refCount := b.refCount - 1 }
  if b.refCount = 0 then { b with status := .FREE, numTokensFilled := 0 } else b

end PhysicalBlock

structure BlockTable where
  sequenceId : String
  blockSize : ℕ
  physicalBlockIds : List ℕ := []
  deriving DecidableEq

namespace BlockTable

def numBlocks (t : BlockTable) : ℕ := t.physicalBlockIds.length

/-- The most tokens this table can hold. -/
def maxTokens (t : BlockTable) : ℕ := t.numBlocks * t.blockSize

def appendBlock (t : BlockTable) (id : ℕ) : BlockTable :=
  { t with physicalBlockIds := t.physicalBlockIds ++ [id] }

/-- `None` outside the table, a negative index included. -/
def getPhysicalBlock (t : BlockTable) (logicalIndex : ℤ) : Option ℕ :=
  if logicalIndex < 0 ∨ t.numBlocks ≤ logicalIndex then none
  else t.physicalBlockIds[logicalIndex.toNat]?

end BlockTable

/-! ### manager.py -/

inductive CacheError where
  | memoryError (message : String)
  | keyError (message : String)
  deriving DecidableEq

structure CacheManager where
  numBlocks : ℕ
  blockSize : ℕ
  blocks : List PhysicalBlock
  /-- `_free_block_ids` with the end that `pop` and `append` work on first. -/
  freeBlockIds : List ℕ
  blockTables : OrderedDict String BlockTable := .empty
  /-- The keys of `_access_order`, least recently used first. -/
  accessOrder : OrderedDict String Unit := .empty
  totalAllocated : ℕ := 0
  totalEvicted : ℕ := 0

namespace CacheManager

/-- `CacheManager(num_blocks, block_size)`. -/
def new (numBlocks blockSize : ℕ) : CacheManager where
  numBlocks := numBlocks
  blockSize := blockSize
  blocks := (List.range numBlocks).map fun i => { blockId := i, blockSize := blockSize }
  freeBlockIds := (List.range numBlocks).reverse

def numFreeBlocks (m : CacheManager) : ℕ := m.freeBlockIds.length

def numAllocatedBlocks (m : CacheManager) : ℕ := m.numBlocks - m.numFreeBlocks

/-- The fraction of the pool that is in use. -/
def utilization (m : CacheManager) : ℚ :=
  if m.numBlocks = 0 then 0 else m.numAllocatedBlocks / m.numBlocks

def tokensToBlocks (m : CacheManager) (numTokens : ℕ) : ℕ :=
  (numTokens + m.blockSize - 1) / m.blockSize

def canAllocate (m : CacheManager) (numTokens : ℕ) : Bool :=
  decide (m.tokensToBlocks numTokens ≤ m.numFreeBlocks)

def touch (m : CacheManager) (sequenceId : String) : CacheManager :=
  { m with accessOrder := (m.accessOrder.moveToEnd sequenceId).insert sequenceId () }

/-- One turn of the block loop of `allocate_sequence` and `extend_sequence` (the two loops are the
    same text): pop a free block, fill it with the `i`-th share of `tokens`, map it next. -/
def takeBlock (tokens : ℕ) (st : CacheManager × BlockTable) (i : ℕ) : CacheManager × BlockTable :=
  match st.1.freeBlockIds with
  | [] => st -- both callers have compared with the length of the free list
  | id :: free =>
    ({ st.1 with
        freeBlockIds := free
        blocks := st.1.blocks.modify id fun b =>
          { b.allocate with numTokensFilled := min (tokens - i * st.1.blockSize) st.1.blockSize } },
      st.2.appendBlock id)

def takeBlocks (m : CacheManager) (table : BlockTable) (tokens count : ℕ) :
    CacheManager × BlockTable :=
  (List.range count).foldl (takeBlock tokens) (m, table)

def allocateSequence (m : CacheManager) (sequenceId : String) (numTokens : ℕ) :
    Except CacheError BlockTable × CacheManager :=
  let blocksNeeded := m.tokensToBlocks numTokens
  let free := m.numFreeBlocks
  if blocksNeeded > free then
    (.error (.memoryError (s!"Cannot allocate {blocksNeeded} blocks for sequence " ++
      s!"{sequenceId}. Only {free} free blocks.")), m)
  else
    let (m', table) := m.takeBlocks { sequenceId := sequenceId, blockSize := m.blockSize }
      numTokens blocksNeeded
    let m' := { m' with blockTables := m'.blockTables.insert sequenceId table }
    let m' := m'.touch sequenceId
    (.ok table, { m' with totalAllocated := m'.totalAllocated + blocksNeeded })

/-- Top up the last block of a table; returns the tokens that still need a block. -/
def fillLastBlock (m : CacheManager) (table : BlockTable) (tokens : ℕ) : CacheManager × ℕ :=
  match table.physicalBlockIds.getLast? with
  | none => (m, tokens)
  | some lastBlockId =>
    match m.blocks[lastBlockId]? with
    | none => (m, tokens) -- block ids in tables are always in range
    | some lastBlock =>
      if lastBlock.freeSlots > 0 then
        let fit := min lastBlock.freeSlots tokens
        ({ m with blocks := m.blocks.modify lastBlockId fun b =>
            { b with numTokensFilled := b.numTokensFilled + fit } }, tokens - fit)
      else (m, tokens)

def extendSequence (m : CacheManager) (sequenceId : String) (numNewTokens : ℕ) :
    Except CacheError ℕ × CacheManager :=
  match m.blockTables.get? sequenceId with
  | none => (.error (.keyError s!"Sequence {sequenceId} not found"), m)
  | some table =>
    let m := m.touch sequenceId
    let (m, tokensRemaining) := m.fillLastBlock table numNewTokens
    let newBlocksNeeded := if tokensRemaining > 0 then m.tokensToBlocks tokensRemaining else 0
    if newBlocksNeeded > m.numFreeBlocks then
      -- the top-up above is not undone
      (.error (.memoryError s!"Cannot extend seq {sequenceId} by {newBlocksNeeded} blocks"), m)
    else
      let (m, table) := m.takeBlocks table tokensRemaining newBlocksNeeded
      (.ok newBlocksNeeded, { m with
        blockTables := m.blockTables.insert sequenceId table
        totalAllocated := m.totalAllocated + newBlocksNeeded })

def releaseBlock (m : CacheManager) (id : ℕ) : CacheManager :=
  let m := { m with blocks := m.blocks.modify id PhysicalBlock.release }
  if (m.blocks[id]?).map PhysicalBlock.status = some .FREE then
    { m with freeBlockIds := id :: m.freeBlockIds }
  else m

def freeSequence (m : CacheManager) (sequenceId : String) : CacheManager :=
  match m.blockTables.get? sequenceId with
  | none => m
  | some table =>
    let m := table.physicalBlockIds.foldl releaseBlock m
    { m with
      blockTables := m.blockTables.erase sequenceId
      accessOrder := m.accessOrder.erase sequenceId }

def evictLru (m : CacheManager) : Except CacheError (Option String) × CacheManager :=
  match m.accessOrder.popFirst with
  | none => (.ok none, m)
  | some ((victimId, _), rest) =>
    let m := { m with accessOrder := rest }
    match m.blockTables.get? victimId with
    | none => (.error (.keyError victimId), m) -- `self._block_tables[victim_id]`
    | some _ =>
      let m := m.freeSequence victimId
      (.ok (some victimId), { m with totalEvicted := m.totalEvicted + 1 })

def getBlockTable (m : CacheManager) (sequenceId : String) : Option BlockTable × CacheManager :=
  let m := m.touch sequenceId
  (m.blockTables.get? sequenceId, m)

/-! ### Calls and runs -/

inductive Call where
  | allocateSequence (sequenceId : String) (numTokens : ℕ)
  | extendSequence (sequenceId : String) (numNewTokens : ℕ)
  | freeSequence (sequenceId : String)
  | evictLru
  | getBlockTable (sequenceId : String)
  deriving DecidableEq

inductive Reply where
  | table (t : Option BlockTable)
  | newBlocks (n : ℕ)
  | victim (v : Option String)
  | done
  deriving DecidableEq

def perform (m : CacheManager) : Call → Except CacheError Reply × CacheManager
  | .allocateSequence s n => ((m.allocateSequence s n).1.map (.table ∘ some), (m.allocateSequence s n).2)
  | .extendSequence s n => ((m.extendSequence s n).1.map .newBlocks, (m.extendSequence s n).2)
  | .freeSequence s => (.ok .done, m.freeSequence s)
  | .evictLru => (m.evictLru.1.map .victim, m.evictLru.2)
  | .getBlockTable s => (.ok (.table (m.getBlockTable s).1), (m.getBlockTable s).2)

/-- A call together with how it ended. -/
abbrev Event := Call × Except CacheError Reply

def Step (m : CacheManager) (ev : Event) (m' : CacheManager) : Prop := m.perform ev.1 = (ev.2, m')

theorem step_perform (m : CacheManager) (c : Call) :
    Step m (c, (m.perform c).1) (m.perform c).2 := rfl

end CacheManager

end ModelServing
