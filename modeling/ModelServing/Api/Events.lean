import ModelServing.Api.Metrics
import ModelServing.Api.Streaming
import ModelServing.Lib.EventStream
import ModelServing.Lib.Json

/-! The text of a stream. Every event is a frame with a JSON object in it, and what is written there is
    printable ASCII, so no token can end a frame or start one: a client that takes the frames apart and
    reads the objects gets the events back, the summary, and then the end marker. -/

namespace ModelServing

namespace Streaming

/-! ### Writing -/

def eventData (e : StreamEvent) : Json.Object :=
  [("request_id", .str e.requestId), ("token", .str e.token), ("index", .int e.index),
    ("finish_reason", e.finishReason.elim .null .str)]

/-- `_format_event`. -/
def formatEvent (e : StreamEvent) : String :=
  "data: " ++ String.ofList (Json.dumps (eventData e)) ++ "\n\n"

/-- `round(elapsed_ms, 1)` in tenths. -/
def tenths (elapsedMs : ℚ) : ℤ := MetricsCollector.nearest (elapsedMs * 10)

def doneData (d : DoneEvent) (elapsedMs : ℚ) : Json.Object :=
  [("request_id", .str d.requestId), ("generated_tokens", .int d.generatedTokens),
    ("elapsed_ms", .float (tenths elapsedMs))]

/-- `_format_done_event`. -/
def formatDoneEvent (d : DoneEvent) (elapsedMs : ℚ) : String :=
  "data: " ++ String.ofList (Json.dumps (doneData d elapsedMs)) ++ "\n\ndata: [DONE]\n\n"

/-- The strings that `generate_stream` yields. -/
def yielded (stream : List Turn × Except StepError DoneEvent) (elapsedMs : ℚ) : List String :=
  stream.1.map (fun t => formatEvent t.event) ++
    match stream.2 with
    | .ok d => [formatDoneEvent d elapsedMs]
    | .error _ => []

/-! ### Reading -/

/-- What a client makes of an event. -/
inductive Received where
  | token (e : StreamEvent)
  | summary (d : DoneEvent) (tenths : ℤ)
  | done
  deriving DecidableEq

def tokenOf (o : Json.Object) : Option Received :=
  match o.lookup "request_id", o.lookup "token", o.lookup "index", o.lookup "finish_reason" with
  | some (.str requestId), some (.str token), some (.int index), some .null =>
    some (.token { requestId, token, index := index.toNat, finishReason := none })
  | some (.str requestId), some (.str token), some (.int index), some (.str reason) =>
    some (.token { requestId, token, index := index.toNat, finishReason := some reason })
  | _, _, _, _ => none

def summaryOf (o : Json.Object) : Option Received :=
  match o.lookup "request_id", o.lookup "generated_tokens", o.lookup "elapsed_ms" with
  | some (.str requestId), some (.int generatedTokens), some (.float elapsed) =>
    some (.summary { requestId, generatedTokens := generatedTokens.toNat } elapsed)
  | _, _, _ => none

def marker : List Char := ['[', 'D', 'O', 'N', 'E', ']']

def receive (payload : List Char) : Option Received :=
  if payload = marker then some .done
  else (Json.loads payload).bind fun o => (tokenOf o).or (summaryOf o)

/-- All events of a text, if each of them is one of these. -/
def receiveAll (text : String) : Option (List Received) :=
  (EventStream.read text.toList).mapM receive

variable {e : StreamEvent} {d : DoneEvent} {elapsedMs : ℚ}

theorem receive_dumps (o : Json.Object) :
    receive (Json.dumps o) = (tokenOf o).or (summaryOf o) := by
  have hne : Json.dumps o ≠ marker := fun h => by cases h
  rw [receive, if_neg hne, Json.loads_dumps, Option.bind_some]

theorem receive_event : receive (Json.dumps (eventData e)) = some (.token e) := by
  rw [receive_dumps]
  obtain ⟨requestId, token, index, _ | reason⟩ := e <;> simp [tokenOf, eventData, List.lookup]

theorem receive_summary :
    receive (Json.dumps (doneData d elapsedMs)) = some (.summary d (tenths elapsedMs)) := by
  rw [receive_dumps]
  simp [tokenOf, summaryOf, doneData, List.lookup]

theorem plain_dumps (o : Json.Object) : EventStream.Plain (Json.dumps o) := by
  rintro c hc
  obtain ⟨hlow, -⟩ := Json.printable_dumps o c hc
  constructor
  · rintro rfl
    exact absurd hlow (by decide)
  · rintro rfl
    exact absurd hlow (by decide)

theorem toList_formatEvent :
    (formatEvent e).toList = EventStream.frame (Json.dumps (eventData e)) := by
  rw [formatEvent, String.toList_append, String.toList_append, String.toList_ofList]
  simp [EventStream.frame]

theorem toList_formatDoneEvent : (formatDoneEvent d elapsedMs).toList =
    [Json.dumps (doneData d elapsedMs), marker].flatMap EventStream.frame := by
  rw [formatDoneEvent, String.toList_append, String.toList_append, String.toList_ofList]
  simp [EventStream.frame, marker]

/-- What is yielded is a frame for every event, one for the summary and one for the end marker. -/
theorem toList_yielded (turns : List Turn) (d : DoneEvent) (elapsedMs : ℚ) :
    (String.join (yielded (turns, .ok d) elapsedMs)).toList =
      (turns.map (fun t => Json.dumps (eventData t.event)) ++
        [Json.dumps (doneData d elapsedMs), marker]).flatMap EventStream.frame := by
  have hevents : (turns.map fun t => formatEvent t.event).map String.toList =
      turns.map fun t => EventStream.frame (Json.dumps (eventData t.event)) := by
    rw [List.map_map]
    exact List.map_congr_left fun t _ => toList_formatEvent
  rw [String.join_eq, String.toList_ofList, yielded, List.map_append, List.flatten_append, hevents,
    List.flatMap_append, List.flatMap_map, ← toList_formatDoneEvent]
  simp [List.flatMap_def]

theorem mapM_receive_events (turns : List Turn) :
    (turns.map fun t => Json.dumps (eventData t.event)).mapM receive =
      some (turns.map fun t => Received.token t.event) := by
  induction turns with
  | nil => rfl
  | cons t ts ih =>
    rw [List.map_cons, List.mapM_cons, ih, receive_event]
    rfl

/-- The client gets back what was yielded. -/
theorem receiveAll_yielded (turns : List Turn) (d : DoneEvent) (elapsedMs : ℚ) :
    receiveAll (String.join (yielded (turns, .ok d) elapsedMs)) =
      some (turns.map (fun t => .token t.event) ++ [.summary d (tenths elapsedMs), .done]) := by
  have hplain : ∀ p ∈ turns.map (fun t => Json.dumps (eventData t.event)) ++
      [Json.dumps (doneData d elapsedMs), marker], EventStream.Plain p := by
    rintro p hp
    simp only [List.mem_append, List.mem_map, List.mem_cons, List.not_mem_nil, or_false] at hp
    rcases hp with ⟨t, -, rfl⟩ | rfl | rfl
    · exact plain_dumps _
    · exact plain_dumps _
    · simp [EventStream.Plain, marker]
  have hlast : [Json.dumps (doneData d elapsedMs), marker].mapM receive =
      some [.summary d (tenths elapsedMs), .done] := by
    rw [List.mapM_cons, receive_summary]
    rfl
  rw [receiveAll, toList_yielded, EventStream.read_frames hplain, List.mapM_append,
    mapM_receive_events, hlast]
  rfl

/-! ### The events of a run -/

/-- The turns from iteration `i` on of a run that ends: an event for each token, without a finish
    reason except on the last. -/
inductive Chain (env : Env) (request : StreamRequest) (requestId : String) : ℕ → List Turn → Prop
  | eos {i : ℕ} {t : Turn} : some t.tokenId = env.eosTokenId →
      t.event = { requestId, token := "", index := i, finishReason := some "eos" } →
      Chain env request requestId i [t]
  | last {i : ℕ} {t : Turn} {text : String} (c : ℕ) : some t.tokenId ≠ env.eosTokenId →
      i + 1 = request.maxTokens → env.decode c [t.tokenId] false = some text →
      t.event = { requestId, token := text, index := i, finishReason := some "length" } →
      Chain env request requestId i [t]
  | more {i : ℕ} {t : Turn} {ts : List Turn} {text : String} (c : ℕ) :
      some t.tokenId ≠ env.eosTokenId → i + 1 < request.maxTokens →
      env.decode c [t.tokenId] false = some text →
      t.event = { requestId, token := text, index := i, finishReason := none } →
      Chain env request requestId (i + 1) ts → Chain env request requestId i (t :: ts)

variable {κ : Type} {env : Env} {forward : Forward κ} {request : StreamRequest} {requestId : String}
  {d₀ d' : Locals κ} {i n : ℕ} {t : Turn} {turns : List Turn}

/-- An iteration that leaves the loop has yielded the end of a chain. -/
theorem chain_of_broke (h : iteration env forward request requestId i d₀ = .broke t d') :
    Chain env request requestId i [t] ∧ d'.generatedCount =
      d₀.generatedCount + [t].countP fun t => some t.tokenId != env.eosTokenId := by
  obtain ⟨heos, hcount, hev⟩ := iteration_broke h
  exact ⟨.eos heos hev, by simp [hcount, heos]⟩

/-- The loop yields a chain, and counts the tokens other than EOS. -/
theorem streamFrom_chain (hn : i + (n + 1) = request.maxTokens)
    (h : streamFrom env forward request requestId (n + 1) i d₀ = (turns, .ok d')) :
    Chain env request requestId i turns ∧ d'.generatedCount =
      d₀.generatedCount + turns.countP fun t => some t.tokenId != env.eosTokenId := by
  induction n generalizing i d₀ turns with
  | zero =>
    rcases streamFrom_cases h with ⟨t, hit, rfl⟩ | ⟨t, d₁, rest, hit, hfrom, rfl⟩
    · exact chain_of_broke hit
    · obtain ⟨hne, -, hcount, d₂, text, -, -, htext, hev⟩ := iteration_continued hit
      cases hfrom
      rw [if_pos (by omega)] at hev
      exact ⟨.last _ hne hn htext hev, by simp [hcount, hne]⟩
  | succ n ih =>
    rcases streamFrom_cases h with ⟨t, hit, rfl⟩ | ⟨t, d₁, rest, hit, hfrom, rfl⟩
    · exact chain_of_broke hit
    · obtain ⟨hne, -, hcount, d₂, text, -, -, htext, hev⟩ := iteration_continued hit
      obtain ⟨hchain, htotal⟩ := ih (by omega) hfrom
      rw [if_neg (by omega)] at hev
      refine ⟨.more _ hne (by omega) htext hev hchain, ?_⟩
      rw [htotal, hcount, List.countP_cons_of_pos (by simpa using hne)]
      omega

namespace Chain

variable {j : ℕ}

theorem ne_nil (h : Chain env request requestId i turns) : turns ≠ [] := by
  cases h <;> exact List.cons_ne_nil _ _

/-- It starts below the allowance and stays within it. -/
theorem length_le (h : Chain env request requestId i turns) (hi : i < request.maxTokens) :
    i + turns.length ≤ request.maxTokens := by
  induction h with
  | eos _ _ => exact hi
  | last _ _ hlast _ _ => exact hlast.le
  | more _ _ hlt _ _ _ ih =>
    rw [List.length_cons]
    have hle := ih hlt
    omega

theorem indices (h : Chain env request requestId i turns) :
    turns.map (fun t => t.event.index) = List.range' i turns.length := by
  induction h with
  | eos _ hev => simp [hev]
  | last _ _ _ _ hev => simp [hev]
  | more _ _ _ _ hev _ ih => rw [List.map_cons, ih, hev, List.length_cons, List.range'_succ]

/-- The text of an event is that of its token, EOS has none. -/
theorem text (h : Chain env request requestId i turns) (ht : t ∈ turns) :
    t.event.requestId = requestId ∧
    (some t.tokenId = env.eosTokenId → t.event.token = "") ∧
    (some t.tokenId ≠ env.eosTokenId → ∃ c, env.decode c [t.tokenId] false = some t.event.token) := by
  induction h with
  | eos heos hev =>
    obtain rfl := List.mem_singleton.mp ht
    exact ⟨by rw [hev], fun _ => by rw [hev], fun hne => absurd heos hne⟩
  | last c hne _ htext hev =>
    obtain rfl := List.mem_singleton.mp ht
    exact ⟨by rw [hev], fun heos => absurd heos hne, fun _ => ⟨c, by rw [hev]; exact htext⟩⟩
  | more c hne _ htext hev _ ih =>
    rcases List.mem_cons.mp ht with rfl | ht
    · exact ⟨by rw [hev], fun heos => absurd heos hne, fun _ => ⟨c, by rw [hev]; exact htext⟩⟩
    · exact ih ht

/-- Only the last event has a finish reason: EOS, or the allowance is used up. -/
theorem finish (h : Chain env request requestId i turns) (ht : turns[j]? = some t) :
    (j + 1 < turns.length → some t.tokenId ≠ env.eosTokenId ∧ t.event.finishReason = none) ∧
    (j + 1 = turns.length → if some t.tokenId = env.eosTokenId then t.event.finishReason = some "eos"
      else t.event.finishReason = some "length" ∧ i + turns.length = request.maxTokens) := by
  induction h generalizing j with
  | eos heos hev =>
    cases j with
    | zero =>
      cases ht
      exact ⟨fun h => absurd h (Nat.lt_irrefl _), fun _ => by rw [if_pos heos, hev]⟩
    | succ j => cases ht
  | last _ hne hlast _ hev =>
    cases j with
    | zero =>
      cases ht
      exact ⟨fun h => absurd h (Nat.lt_irrefl _), fun _ => by rw [if_neg hne, hev]; exact ⟨rfl, hlast⟩⟩
    | succ j => cases ht
  | @more i t' ts text c hne _ _ hev hrest ih =>
    have hpos := List.length_pos_of_ne_nil hrest.ne_nil
    cases j with
    | zero =>
      cases ht
      refine ⟨fun _ => ⟨hne, by rw [hev]⟩, fun h => ?_⟩
      rw [List.length_cons] at h
      omega
    | succ j =>
      rw [List.getElem?_cons_succ] at ht
      obtain ⟨hmid, hlast⟩ := ih ht
      rw [List.length_cons]
      refine ⟨fun h => hmid (by omega), fun h => ?_⟩
      have hfin := hlast (by omega)
      by_cases heos : some t.tokenId = env.eosTokenId
      · rwa [if_pos heos] at hfin ⊢
      · rw [if_neg heos] at hfin ⊢
        exact ⟨hfin.1, by omega⟩

end Chain

theorem generateStream_chain {calls : ℕ} {done : DoneEvent} (hmax : 1 ≤ request.maxTokens)
    (h : generateStream env forward request requestId calls = (turns, .ok done)) :
    Chain env request requestId 0 turns ∧ done.requestId = requestId ∧
      done.generatedTokens = turns.countP fun t => some t.tokenId != env.eosTokenId := by
  obtain ⟨n, hn⟩ : ∃ n, request.maxTokens = n + 1 := ⟨request.maxTokens - 1, by omega⟩
  obtain ⟨inputIds, d', hfrom, rfl⟩ := generateStream_cases h
  rw [hn] at hfrom
  obtain ⟨hchain, hcount⟩ := streamFrom_chain (by omega) hfrom
  exact ⟨hchain, rfl, by rw [hcount, Nat.zero_add]⟩

/-- What a run tells its client: an event for every token with its index and its text, a finish reason
    on the last one, and how many tokens there were. -/
structure Told (env : Env) (request : StreamRequest) (requestId : String) (turns : List Turn)
    (done : DoneEvent) : Prop where
  length : 1 ≤ turns.length ∧ turns.length ≤ request.maxTokens
  indices : turns.map (fun t => t.event.index) = List.range turns.length
  texts : ∀ t ∈ turns, t.event.requestId = requestId ∧
    (some t.tokenId = env.eosTokenId → t.event.token = "") ∧
    (some t.tokenId ≠ env.eosTokenId → ∃ c, env.decode c [t.tokenId] false = some t.event.token)
  unfinished : ∀ j t, turns[j]? = some t → j + 1 < turns.length →
    some t.tokenId ≠ env.eosTokenId ∧ t.event.finishReason = none
  finished : ∀ j t, turns[j]? = some t → j + 1 = turns.length →
    if some t.tokenId = env.eosTokenId then t.event.finishReason = some "eos"
    else t.event.finishReason = some "length" ∧ turns.length = request.maxTokens
  summary : done.requestId = requestId ∧
    done.generatedTokens = turns.countP fun t => some t.tokenId != env.eosTokenId

/-- CORRECT: the events of every run that ends are read back from its text, with the summary and then
    the end marker after them. -/
theorem stream_decodes_back {calls : ℕ} {done : DoneEvent} (hmax : 1 ≤ request.maxTokens)
    (h : generateStream env forward request requestId calls = (turns, .ok done)) (elapsedMs : ℚ) :
    receiveAll (String.join (yielded (generateStream env forward request requestId calls) elapsedMs)) =
      some (turns.map (fun t => .token t.event) ++ [.summary done (tenths elapsedMs), .done]) ∧
    Told env request requestId turns done := by
  obtain ⟨hchain, hid, hcount⟩ := generateStream_chain hmax h
  refine ⟨h ▸ receiveAll_yielded turns done elapsedMs, ?_⟩
  constructor
  · refine ⟨List.length_pos_of_ne_nil hchain.ne_nil, ?_⟩
    simpa using hchain.length_le hmax
  · rw [hchain.indices, List.range_eq_range']
  · exact fun t ht => hchain.text ht
  · exact fun j t ht => (hchain.finish ht).1
  · intro j t ht hj
    simpa using (hchain.finish ht).2 hj
  · exact ⟨hid, hcount⟩

/-- Every token reads like the end of the stream. -/
theorem stream_decodes_back_marker :
    let env := { Env.rowwise fun _ => [] with decode := fun _ _ _ => some "\n\ndata: [DONE]\n\n" }
    let request : StreamRequest := { prompt := "p", maxTokens := 2, temperature := 0 }
    let stream := generateStream env (remembering fun _ => [.negInf, .fin 0]) request "s" 0
    receiveAll (String.join (yielded stream (1234 / 100))) = some
      [.token ⟨"s", "\n\ndata: [DONE]\n\n", 0, none⟩,
        .token ⟨"s", "\n\ndata: [DONE]\n\n", 1, some "length"⟩,
        .summary { requestId := "s", generatedTokens := 2 } 123, .done] := by
  intro env request stream
  have hdone : stream.2 = .ok { requestId := "s", generatedTokens := 2 } := by decide +kernel
  have hturns : stream.1.map (fun t => Received.token t.event) =
      [.token ⟨"s", "\n\ndata: [DONE]\n\n", 0, none⟩,
        .token ⟨"s", "\n\ndata: [DONE]\n\n", 1, some "length"⟩] := by decide +kernel
  have htenths : tenths (1234 / 100) = 123 := by decide +kernel
  have hread := (stream_decodes_back (by decide) (Prod.ext rfl hdone) (1234 / 100)).1
  rw [hturns, htenths] at hread
  exact hread

end Streaming

end ModelServing
