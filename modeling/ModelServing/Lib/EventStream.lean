import Mathlib

/-! Event streams. A line ends in LF, CR or CRLF; a blank line dispatches the event whose data the `data`
    lines before it hold. What has no blank line after it is discarded. A frame with one line of data
    is read back, whatever comes after it. -/

namespace EventStream

/-- The lines of a text; what is not terminated is not a line. `line` is what there is of the current
    one, `cr` whether a CR stands before the text. -/
def linesFrom (line : List Char) (cr : Bool) : List Char → List (List Char)
  | [] => []
  | c :: cs =>
    if c = '\n' then if cr then linesFrom [] false cs else line :: linesFrom [] false cs
    else if c = '\r' then line :: linesFrom [] true cs
    else linesFrom (line ++ [c]) false cs

/-- The value of a field, without the blank after the colon. -/
def value (cs : List Char) : List Char := if cs.head? = some ' ' then cs.tail else cs

/-- What a line adds to the data: only a `data` field does. -/
def dataOf (line : List Char) : Option (List Char) :=
  if line.takeWhile (· ≠ ':') = ['d', 'a', 't', 'a'] then
    some (value ((line.dropWhile (· ≠ ':')).tail))
  else none

/-- The events of the lines; `data` are the values gathered so far. -/
def events (data : List (List Char)) : List (List Char) → List (List Char)
  | [] => []
  | line :: rest =>
    if line = [] then
      if data = [] then events [] rest else ['\n'].intercalate data :: events [] rest
    else
      match dataOf line with
      | none => events data rest
      | some v => events (data ++ [v]) rest

/-- The data of the events of a stream. -/
def read (text : List Char) : List (List Char) := events [] (linesFrom [] false text)

/-- An event with one line of data. -/
def frame (payload : List Char) : List Char := ['d', 'a', 't', 'a', ':', ' '] ++ payload ++ ['\n', '\n']

/-- Neither LF nor CR. -/
def Plain (cs : List Char) : Prop := ∀ c ∈ cs, c ≠ '\n' ∧ c ≠ '\r'

variable {payload : List Char}

theorem linesFrom_plain {cs : List Char} (h : Plain cs) (line text : List Char) :
    linesFrom line false (cs ++ text) = linesFrom (line ++ cs) false text := by
  induction cs generalizing line with
  | nil => rw [List.append_nil, List.nil_append]
  | cons c cs ih =>
    obtain ⟨hlf, hcr⟩ := h c List.mem_cons_self
    rw [List.cons_append, linesFrom, if_neg hlf, if_neg hcr,
      ih fun x hx => h x (List.mem_cons_of_mem _ hx), List.append_assoc, List.singleton_append]

theorem dataOf_data (payload : List Char) :
    dataOf (['d', 'a', 't', 'a', ':', ' '] ++ payload) = some payload := by
  simp [dataOf, value]

/-- A frame is an event, and leaves nothing behind. -/
theorem read_frame (h : Plain payload) (text : List Char) :
    read (frame payload ++ text) = payload :: read text := by
  have hline : Plain (['d', 'a', 't', 'a', ':', ' '] ++ payload) := by
    rintro c hc
    rcases List.mem_append.mp hc with hc | hc
    · simp only [List.mem_cons, List.not_mem_nil, or_false] at hc
      rcases hc with rfl | rfl | rfl | rfl | rfl | rfl <;> decide
    · exact h c hc
  have hlines : linesFrom [] false (frame payload ++ text) =
      (['d', 'a', 't', 'a', ':', ' '] ++ payload) :: [] :: linesFrom [] false text := by
    rw [frame, List.append_assoc, linesFrom_plain hline]
    rfl
  rw [read, hlines, events, if_neg (by simp), dataOf_data]
  simp only [List.nil_append]
  rw [events, if_pos rfl, if_neg (by simp), read]
  simp

/-- A stream of frames is read back. -/
theorem read_frames {payloads : List (List Char)} (h : ∀ p ∈ payloads, Plain p) :
    read (payloads.flatMap frame) = payloads := by
  induction payloads with
  | nil => rfl
  | cons p ps ih =>
    rw [List.flatMap_cons, read_frame (h p List.mem_cons_self),
      ih fun x hx => h x (List.mem_cons_of_mem _ hx)]

/-- Another field, CRLF, two lines of data, and an event that never ends. -/
example : read "id: 1\r\ndata: a\r\ndata:b\r\n\r\ndata: c\n".toList = ["a\nb".toList] := by decide

end EventStream
