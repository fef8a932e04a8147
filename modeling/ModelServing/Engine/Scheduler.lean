import ModelServing.Lib.OrderedDict
import ModelServing.Lib.ObjectHeap
import ModelServing.Lib.Run

/-! The request scheduler: `scheduler.py`.

    Requests are objects shared between the queue, the engine's batch and the caller, so they live
    in a heap and the containers hold references. `clock i` is the `i`-th reading of
    `time.monotonic()`; nothing is assumed about it. Times are rationals. Logging is left
    out, and with it the reading that the log line of a timed-out request takes. -/

namespace ModelServing

inductive RequestStatus where | PENDING | RUNNING | COMPLETED | CANCELLED | FAILED
  deriving DecidableEq

inductive RequestPriority where | HIGH | NORMAL | LOW
  deriving DecidableEq

/-- Lower number, higher priority. -/
def RequestPriority.value : RequestPriority → ℕ
  | .HIGH => 0
  | .NORMAL => 1
  | .LOW => 2

inductive SchedulingPolicy where | fcfs | priority
  deriving DecidableEq

structure ScheduledRequest where
  requestId : String
  prompt : String
  maxTokens : ℕ := 256
  temperature : ℚ := 1
  topK : ℤ := 50
  topP : ℚ := 1
  repetitionPenalty : ℚ := 1
  stream : Bool := false
  priority : RequestPriority := .NORMAL
  status : RequestStatus := .PENDING
  createdAt : ℚ
  startedAt : Option ℚ := none
  completedAt : Option ℚ := none
  timeoutSeconds : ℚ := 60
  promptTokens : ℕ := 0
  generatedTokens : ℕ := 0
  outputText : String := ""
  error : Option String := none
  deriving DecidableEq

namespace ScheduledRequest

def isTimedOut (now : ℚ) (q : ScheduledRequest) : Bool := decide (q.timeoutSeconds < now - q.createdAt)

def start (now : ℚ) (q : ScheduledRequest) : ScheduledRequest :=
  { q with status := .RUNNING, startedAt := some now }

def complete (outputText : String) (generatedTokens : ℕ) (now : ℚ) (q : ScheduledRequest) :
    ScheduledRequest :=
  { q with
    status := .COMPLETED
    completedAt := some now
    outputText := outputText
    generatedTokens := generatedTokens }

def cancel (now : ℚ) (q : ScheduledRequest) : ScheduledRequest :=
  { q with status := .CANCELLED, completedAt := some now }

def fail (error : String) (now : ℚ) (q : ScheduledRequest) : ScheduledRequest :=
  { q with status := .FAILED, completedAt := some now, error := some error }

/-- The sort key `(priority, created_at)` of `a` is at most that of `b`. -/
def keyLe (a b : ScheduledRequest) : Prop :=
  a.priority.value < b.priority.value ∨ (a.priority = b.priority ∧ a.createdAt ≤ b.createdAt)

instance : DecidableRel keyLe := fun _ _ => inferInstanceAs (Decidable (_ ∨ _))

end ScheduledRequest

/-- The identity of a request object. -/
abbrev Ref := ℕ

structure RequestScheduler where
  maxQueueSize : ℤ := 128
  defaultTimeout : ℚ := 60
  schedulingPolicy : SchedulingPolicy := .fcfs
  pending : List Ref := []
  running : OrderedDict String Ref := .empty
  completed : OrderedDict String Ref := .empty
  totalSubmitted : ℕ := 0
  totalCompleted : ℕ := 0
  totalCancelled : ℕ := 0
  totalTimedOut : ℕ := 0
  /-- The request objects that the references above, the engine's and the callers' point to. -/
  requests : ObjectHeap ScheduledRequest
  /-- How often the clock was read. -/
  ticks : ℕ := 0

namespace RequestScheduler

/-- `RequestScheduler(max_queue_size, default_timeout, scheduling_policy)`, before any request object
    exists. -/
def new (maxQueueSize : ℤ) (defaultTimeout : ℚ) (schedulingPolicy : SchedulingPolicy) :
    RequestScheduler where
  maxQueueSize := maxQueueSize
  defaultTimeout := defaultTimeout
  schedulingPolicy := schedulingPolicy
  requests := ⟨0, fun _ => { requestId := "", prompt := "", createdAt := 0 }⟩

def request (s : RequestScheduler) (r : Ref) : ScheduledRequest := s.requests.get r

def pendingCount (s : RequestScheduler) : ℕ := s.pending.length

def runningCount (s : RequestScheduler) : ℕ := s.running.size

def queueFull (s : RequestScheduler) : Bool := decide (s.maxQueueSize ≤ s.pendingCount)

/-- Assign to fields of the object `r`. -/
def set (s : RequestScheduler) (r : Ref) (f : ScheduledRequest → ScheduledRequest) :
    RequestScheduler :=
  { s with requests := s.requests.modify r f }

/-- Call a method of the object `r` that reads the clock once. -/
def call (clock : ℕ → ℚ) (s : RequestScheduler) (r : Ref)
    (f : ℚ → ScheduledRequest → ScheduledRequest) : RequestScheduler :=
  { s with requests := s.requests.modify r (f (clock s.ticks)), ticks := s.ticks + 1 }

/-- `submit`: `timeout_seconds or default_timeout` replaces a zero timeout. -/
def submit (s : RequestScheduler) (r : Ref) : Bool × RequestScheduler :=
  if s.queueFull then (false, s)
  else
    let s := s.set r fun q => { q with
      timeoutSeconds := if q.timeoutSeconds ≠ 0 then q.timeoutSeconds else s.defaultTimeout }
    (true, { s with pending := s.pending ++ [r], totalSubmitted := s.totalSubmitted + 1 })

/-- The caller creates the object and submits it. -/
def submitNew (s : RequestScheduler) (req : ScheduledRequest) : Bool × RequestScheduler :=
  { s with requests := s.requests.alloc req }.submit s.requests.next

/-- The comprehension `[r for r in self._pending if r.is_timed_out]`, one clock reading each. -/
def timedOut (clock : ℕ → ℚ) (s : RequestScheduler) : List Ref :=
  ((s.pending.zipIdx s.ticks).filter fun p => (s.request p.1).isTimedOut (clock p.2)).map Prod.fst

/-- The loop body of `_enforce_timeouts`. `list.remove` takes out the first element that is the
    object or equal to it field by field. -/
def expire (clock : ℕ → ℚ) (s : RequestScheduler) (r : Ref) : RequestScheduler :=
  let s := s.call clock r .cancel
  let s := s.set r fun q => { q with error := some "Request timed out in queue" }
  { s with
    pending := s.pending.eraseP fun r' => r' = r ∨ s.request r' = s.request r
    completed := s.completed.insert (s.request r).requestId r
    totalTimedOut := s.totalTimedOut + 1 }

def enforceTimeouts (clock : ℕ → ℚ) (s : RequestScheduler) : RequestScheduler :=
  (s.timedOut clock).foldl (expire clock) { s with ticks := s.ticks + s.pending.length }

/-- `self._pending.sort(key=lambda r: (r.priority, r.created_at))`, a stable sort. -/
def sortPending (s : RequestScheduler) : RequestScheduler :=
  match s.schedulingPolicy with
  | .priority => { s with
      pending := s.pending.insertionSort fun a b => (s.request a).keyLe (s.request b) }
  | .fcfs => s

/-- The loop body that marks a selected request as running. -/
def startRunning (clock : ℕ → ℚ) (s : RequestScheduler) (r : Ref) : RequestScheduler :=
  let s := s.call clock r .start
  { s with running := s.running.insert (s.request r).requestId r }

def getNextBatch (clock : ℕ → ℚ) (s : RequestScheduler) (maxBatchSize : ℕ) :
    List Ref × RequestScheduler :=
  let s := s.enforceTimeouts clock
  if s.pending = [] then ([], s)
  else
    let s := s.sortPending
    let batchSize := min maxBatchSize s.pending.length
    let batch := s.pending.take batchSize
    (batch, batch.foldl (startRunning clock) { s with pending := s.pending.drop batchSize })

def completeRequest (clock : ℕ → ℚ) (s : RequestScheduler) (requestId : String)
    (outputText : String) (generatedTokens : ℕ) : RequestScheduler :=
  match s.running.get? requestId with
  | none => s
  | some r =>
    let s := { s with running := s.running.erase requestId }
    let s := s.call clock r (.complete outputText generatedTokens)
    { s with
      completed := s.completed.insert requestId r
      totalCompleted := s.totalCompleted + 1 }

def cancelRequest (clock : ℕ → ℚ) (s : RequestScheduler) (requestId : String) :
    Bool × RequestScheduler :=
  match s.pending.find? fun r => (s.request r).requestId = requestId with
  | some r =>
    let s' := s.call clock r .cancel
    (true, { s' with
      pending := s.pending.eraseP fun r => (s.request r).requestId = requestId
      completed := s.completed.insert requestId r
      totalCancelled := s.totalCancelled + 1 })
  | none =>
    match s.running.get? requestId with
    | some r =>
      let s' := s.call clock r .cancel
      (true, { s' with
        running := s.running.erase requestId
        completed := s.completed.insert requestId r
        totalCancelled := s.totalCancelled + 1 })
    | none => (false, s)

def getRequestStatus (s : RequestScheduler) (requestId : String) : Option Ref :=
  match s.pending.find? fun r => (s.request r).requestId = requestId with
  | some r => some r
  | none =>
    match s.running.get? requestId with
    | some r => some r
    | none => s.completed.get? requestId

/-- A request as its constructor makes it, with an id no earlier one has. -/
structure Fresh (s : RequestScheduler) (req : ScheduledRequest) : Prop where
  status : req.status = .PENDING
  id : ∀ r < s.requests.next, (s.request r).requestId ≠ req.requestId

end RequestScheduler

end ModelServing
