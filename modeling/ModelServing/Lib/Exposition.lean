import ModelServing.Lib.Decimal

/-! The text in which metrics are exposed. A line is blank, a comment with the help text or the kind of
    a family, any other comment, or a sample with its labels and its value; every line ends in LF. The
    reader gathers the lines of each family. What the writer writes is read back. -/

namespace Exposition

inductive Kind where
  | counter
  | gauge
  | histogram
  | summary
  | untyped
  deriving DecidableEq

structure Sample (α : Type) where
  labels : List (String × String) := []
  value : α
  deriving DecidableEq

/-- A family; its samples have its name. -/
structure Family (α : Type) where
  name : String
  help : Option String := none
  kind : Option Kind := none
  samples : List (Sample α) := []
  deriving DecidableEq

/-- What a line says. -/
inductive Entry (α : Type) where
  | blank
  | help (name text : String)
  | kind (name : String) (k : Kind)
  | sample (name : String) (s : Sample α)
  deriving DecidableEq

variable {α : Type}

def Sample.map {β : Type} (f : α → β) (s : Sample α) : Sample β := { s with value := f s.value }

def Family.map {β : Type} (f : α → β) (g : Family α) : Family β := { g with samples := g.samples.map (Sample.map f) }

def Entry.map {β : Type} (f : α → β) : Entry α → Entry β
  | .blank => .blank
  | .help name t => .help name t
  | .kind name k => .kind name k
  | .sample name s => .sample name (s.map f)

/-! ### Characters -/

def quote : Char := Char.ofNat 34

def backslash : Char := Char.ofNat 92

def isBlank (c : Char) : Bool := decide (c = ' ' ∨ c = '\t')

def isLabelChar (c : Char) : Bool := c.isAlphanum || decide (c = '_')

def isNameChar (c : Char) : Bool := isLabelChar c || decide (c = ':')

/-! ### Writing -/

def Kind.text : Kind → String
  | .counter => "counter"
  | .gauge => "gauge"
  | .histogram => "histogram"
  | .summary => "summary"
  | .untyped => "untyped"

/-- A character of a help text. -/
def escapeHelp (c : Char) : List Char :=
  if c = backslash then [backslash, backslash] else if c = '\n' then [backslash, 'n'] else [c]

/-- A character of the value of a label. -/
def escapeValue (c : Char) : List Char := if c = quote then [backslash, quote] else escapeHelp c

def writeLabel (l : String × String) : List Char :=
  l.1.toList ++ '=' :: quote :: (l.2.toList.flatMap escapeValue ++ [quote])

/-- The labels and the closing brace. -/
def writeLabelsTail : List (String × String) → List Char
  | [] => ['}']
  | [l] => writeLabel l ++ ['}']
  | l :: ls => writeLabel l ++ ',' :: writeLabelsTail ls

def writeLabels (ls : List (String × String)) : List Char := if ls = [] then [] else '{' :: writeLabelsTail ls

def Entry.write : Entry Decimal.Number → List Char
  | .blank => []
  | .help name t => ['#', ' ', 'H', 'E', 'L', 'P', ' '] ++ name.toList ++ ' ' :: t.toList.flatMap escapeHelp
  | .kind name k => ['#', ' ', 'T', 'Y', 'P', 'E', ' '] ++ name.toList ++ ' ' :: k.text.toList
  | .sample name s => name.toList ++ writeLabels s.labels ++ ' ' :: s.value.write

def Family.entries (g : Family α) : List (Entry α) :=
  (g.help.map (.help g.name)).toList ++ (g.kind.map (.kind g.name)).toList ++ g.samples.map (.sample g.name)

/-- The lines, with a blank one between two families. -/
def entries (gs : List (Family α)) : List (Entry α) := [.blank].intercalate (gs.map Family.entries)

def write (gs : List (Family Decimal.Number)) : List Char := (entries gs).flatMap fun e => e.write ++ ['\n']

/-! ### Reading a line -/

def skip (cs : List Char) : List Char := cs.dropWhile isBlank

def word (cs : List Char) : List Char := cs.takeWhile fun c => !isBlank c

def afterWord (cs : List Char) : List Char := skip (cs.dropWhile fun c => !isBlank c)

/-- Not empty and without a digit in front. -/
def validName (p : Char → Bool) (cs : List Char) : Bool :=
  cs.all p && cs.head?.any fun c => !c.isDigit

def Kind.read (cs : List Char) : Option Kind :=
  [Kind.counter, .gauge, .histogram, .summary, .untyped].find? fun k => k.text.toList = cs

def unescapeHelp : List Char → List Char
  | [] => []
  | [c] => [c]
  | c :: d :: cs =>
    if c = backslash ∧ d = backslash then backslash :: unescapeHelp cs
    else if c = backslash ∧ d = 'n' then '\n' :: unescapeHelp cs
    else c :: unescapeHelp (d :: cs)

def unescapeValue (c : Char) : Option Char :=
  if c = quote ∨ c = backslash then some c else if c = 'n' then some '\n' else none

/-- Up to the closing quote, and what comes after it. -/
def readQuoted : List Char → Option (List Char × List Char)
  | [] => none
  | c :: cs =>
    if c = quote then some ([], cs)
    else if c = backslash then
      match cs with
      | [] => none
      | d :: cs => (unescapeValue d).bind fun d => (readQuoted cs).map fun r => (d :: r.1, r.2)
    else (readQuoted cs).map fun r => (c :: r.1, r.2)

/-- At most `n` labels, and what comes after the closing brace. -/
def readLabels : ℕ → List Char → Option (List (String × String) × List Char)
  | 0, _ => none
  | n + 1, cs =>
    let cs := skip cs
    if cs.head? = some '}' then some ([], cs.tail)
    else
      let name := cs.takeWhile isLabelChar
      let cs := skip (cs.dropWhile isLabelChar)
      if validName isLabelChar name ∧ cs.head? = some '=' ∧ (skip cs.tail).head? = some quote then
        (readQuoted (skip cs.tail).tail).bind fun v =>
          let label := (String.ofList name, String.ofList v.1)
          let cs := skip v.2
          if cs.head? = some '}' then some ([label], cs.tail)
          else if cs.head? = some ',' then (readLabels n cs.tail).map fun r => (label :: r.1, r.2)
          else none
      else none

/-- A value, and nothing after it. -/
def readValue (name : List Char) (labels : List (String × String)) (cs : List Char) : Option (Entry ℚ) :=
  let cs := skip cs
  if afterWord cs = [] then (Decimal.read (word cs)).map fun x => .sample (String.ofList name) ⟨labels, x⟩ else none

def readSample (cs : List Char) : Option (Entry ℚ) :=
  let name := cs.takeWhile isNameChar
  let rest := skip (cs.dropWhile isNameChar)
  if validName isNameChar name then
    if rest.head? = some '{' then (readLabels cs.length rest.tail).bind fun r => readValue name r.1 r.2
    else readValue name [] rest
  else none

/-- After the `#`. -/
def readComment (cs : List Char) : Option (Entry ℚ) :=
  let key := word (skip cs)
  let cs := afterWord (skip cs)
  let name := word cs
  let cs := afterWord cs
  if key = ['H', 'E', 'L', 'P'] then
    if validName isNameChar name then some (.help (String.ofList name) (String.ofList (unescapeHelp cs))) else none
  else if key = ['T', 'Y', 'P', 'E'] then
    if validName isNameChar name then (Kind.read cs).map (.kind (String.ofList name)) else none
  else some .blank

def readLine (cs : List Char) : Option (Entry ℚ) :=
  let cs := skip cs
  if cs = [] then some .blank
  else if cs.head? = some '#' then readComment cs.tail
  else readSample cs

/-! ### Reading a text -/

/-- The lines of a text, if all of them are ended. -/
def lines (text : List Char) : Option (List (List Char)) :=
  if text.getLast? = some '\n' ∨ text = [] then some (text.splitOn '\n').dropLast else none

/-- The family `name` is changed, and opened before that if it is not there. -/
def update (name : String) (f : Family α → Option (Family α)) : List (Family α) → Option (List (Family α))
  | [] => (f { name }).map ([·])
  | g :: gs => if g.name = name then (f g).map (· :: gs) else (update name f gs).map (g :: ·)

/-- A family has one help text and one kind, and the kind before its samples. -/
def Entry.change : Entry α → Family α → Option (Family α)
  | .blank, g => some g
  | .help _ t, g => if g.help = none then some { g with help := some t } else none
  | .kind _ k, g => if g.kind = none ∧ g.samples = [] then some { g with kind := some k } else none
  | .sample _ s, g => some { g with samples := g.samples ++ [s] }

def Entry.apply (gs : List (Family α)) (e : Entry α) : Option (List (Family α)) :=
  match e with
  | .blank => some gs
  | .help name _ | .kind name _ | .sample name _ => update name e.change gs

def read (text : List Char) : Option (List (Family ℚ)) :=
  (lines text).bind fun ls => (ls.mapM readLine).bind fun es => es.foldlM Entry.apply []

example : read "# free text\n# TYPE a counter\na\x7bx=\"1\",y = \"\\\"\" \x7d 2.50\n\nb -1e3\n".toList =
    some [⟨"a", none, some .counter, [⟨[("x", "1"), ("y", "\"")], 5 / 2⟩]⟩, ⟨"b", none, none, [⟨[], -1000⟩]⟩] := by
  decide +kernel

/-! ### Escapes -/

variable {rest : List Char}

theorem unescapeHelp_cons {c : Char} (hc : c ≠ backslash) (cs : List Char) :
    unescapeHelp (c :: cs) = c :: unescapeHelp cs := by
  cases cs with
  | nil => rfl
  | cons d cs => rw [unescapeHelp, if_neg fun h => hc h.1, if_neg fun h => hc h.1]

theorem unescapeHelp_escapeHelp (t : List Char) : unescapeHelp (t.flatMap escapeHelp) = t := by
  induction t with
  | nil => rfl
  | cons c t ih =>
    rw [List.flatMap_cons, escapeHelp]
    split
    · rename_i hc
      rw [List.cons_append, List.singleton_append, unescapeHelp, if_pos ⟨rfl, rfl⟩, ih, hc]
    · rename_i hc
      split
      · rename_i hlf
        rw [List.cons_append, List.singleton_append, unescapeHelp, if_neg fun h => absurd h.2 (by decide),
          if_pos ⟨rfl, rfl⟩, ih, hlf]
      · rw [List.singleton_append, unescapeHelp_cons hc, ih]

theorem readQuoted_quote (cs : List Char) : readQuoted (quote :: cs) = some ([], cs) := by
  rw [readQuoted.eq_def]
  simp

theorem readQuoted_backslash {d e : Char} (h : unescapeValue d = some e) (cs : List Char) :
    readQuoted (backslash :: d :: cs) = (readQuoted cs).map fun r => (e :: r.1, r.2) := by
  rw [readQuoted.eq_def]
  simp [h, show backslash ≠ quote by decide]

theorem readQuoted_plain {c : Char} (hq : c ≠ quote) (hb : c ≠ backslash) (cs : List Char) :
    readQuoted (c :: cs) = (readQuoted cs).map fun r => (c :: r.1, r.2) := by
  rw [readQuoted.eq_def]
  simp [hq, hb]

/-- Reading a character takes back its escape. -/
theorem readQuoted_escape (c : Char) (cs : List Char) :
    readQuoted (escapeValue c ++ cs) = (readQuoted cs).map fun r => (c :: r.1, r.2) := by
  rw [escapeValue, escapeHelp]
  split_ifs with hq hb hlf
  · rw [hq]
    exact readQuoted_backslash (by decide) cs
  · rw [hb]
    exact readQuoted_backslash (by decide) cs
  · rw [hlf]
    exact readQuoted_backslash (by decide) cs
  · exact readQuoted_plain hq hb cs

theorem readQuoted_escapeValue (t rest : List Char) :
    readQuoted (t.flatMap escapeValue ++ quote :: rest) = some (t, rest) := by
  induction t with
  | nil => exact readQuoted_quote rest
  | cons c t ih => rw [List.flatMap_cons, List.append_assoc, readQuoted_escape, ih, Option.map_some]

/-! ### Words -/

theorem skip_cons {c : Char} (hc : isBlank c = false) (cs : List Char) : skip (c :: cs) = c :: cs := by
  simp [skip, hc]

theorem skip_blank (cs : List Char) : skip (' ' :: cs) = skip cs := by
  simp [skip, isBlank]

theorem word_append {w : List Char} (hw : ∀ c ∈ w, isBlank c = false) (rest : List Char) :
    word (w ++ ' ' :: rest) = w ∧ afterWord (w ++ ' ' :: rest) = skip rest := by
  obtain ⟨htake, hdrop⟩ := Decimal.span_append (p := fun c => !isBlank c) (' ' :: rest)
    (fun c hc => by rw [hw c hc]; rfl) (fun c cs h => by cases h; rfl)
  exact ⟨htake, by rw [afterWord, hdrop, skip_blank]⟩

theorem word_end {w : List Char} (hw : ∀ c ∈ w, isBlank c = false) : word w = w ∧ afterWord w = [] := by
  obtain ⟨htake, hdrop⟩ := Decimal.span_append (p := fun c => !isBlank c) []
    (fun c hc => by rw [hw c hc]; rfl) (fun c cs h => by cases h)
  rw [List.append_nil] at htake hdrop
  exact ⟨htake, by rw [afterWord, hdrop]; rfl⟩

/-! ### Lines -/

theorem validName_spec {p : Char → Bool} {cs : List Char} (h : validName p cs = true) :
    (∀ c ∈ cs, p c = true) ∧ ∃ c ds, cs = c :: ds := by
  obtain ⟨hall, hhead⟩ := Bool.and_eq_true_iff.mp h
  refine ⟨List.all_eq_true.mp hall, ?_⟩
  cases cs with
  | nil => cases hhead
  | cons c ds => exact ⟨c, ds, rfl⟩

theorem isBlank_of_isNameChar {c : Char} (h : isNameChar c = true) : isBlank c = false := by
  rw [isBlank, decide_eq_false_iff_not]
  rintro (rfl | rfl) <;> exact absurd h (by decide)

/-- The names of a family and of its labels, and a help text that does not start with a blank. -/
def Entry.Valid : Entry α → Prop
  | .blank => True
  | .help name t => validName isNameChar name.toList = true ∧ ∀ c cs, t.toList = c :: cs → isBlank c = false
  | .kind name _ => validName isNameChar name.toList = true
  | .sample name s => validName isNameChar name.toList = true ∧
      ∀ l ∈ s.labels, validName isLabelChar l.1.toList = true

/-- One label, and what comes after it. -/
theorem readLabels_label {n : ℕ} {l : String × String} (hl : validName isLabelChar l.1.toList = true)
    (rest : List Char) : readLabels (n + 1) (writeLabel l ++ rest) =
      if (skip rest).head? = some '}' then some ([l], (skip rest).tail)
      else if (skip rest).head? = some ',' then (readLabels n (skip rest).tail).map fun r => (l :: r.1, r.2)
      else none := by
  obtain ⟨hname, c, ds, hcons⟩ := validName_spec hl
  have hc : isLabelChar c = true := hname c (hcons ▸ List.mem_cons_self)
  have hnot : ∀ {d : Char}, isLabelChar d = false → c ≠ d := fun hd heq => by
    rw [heq, hd] at hc
    cases hc
  have hblank : isBlank c = false := by
    rw [isBlank, decide_eq_false_iff_not]
    exact fun h => h.elim (hnot (by decide)) (hnot (by decide))
  obtain ⟨htake, hdrop⟩ := Decimal.span_append
    ('=' :: quote :: (l.2.toList.flatMap escapeValue ++ quote :: rest)) hname
    (fun d cs h => by cases h; decide)
  have hskip : skip (writeLabel l ++ rest) =
      l.1.toList ++ '=' :: quote :: (l.2.toList.flatMap escapeValue ++ quote :: rest) := by
    rw [writeLabel, hcons, List.cons_append, List.cons_append, skip_cons hblank]
    simp
  have hhead : (l.1.toList ++ '=' :: quote :: (l.2.toList.flatMap escapeValue ++ quote :: rest)).head? ≠
      some '}' := by
    rw [hcons]
    exact fun h => hnot (by decide) (Option.some.inj h)
  rw [readLabels]
  simp only [hskip, if_neg hhead, htake, hdrop, skip_cons (by decide : isBlank '=' = false), List.head?_cons,
    List.tail_cons, skip_cons (by decide : isBlank quote = false), readQuoted_escapeValue, Option.bind_some,
    String.ofList_toList]
  rw [if_pos ⟨hl, trivial, trivial⟩]

theorem readLabels_tail (rest : List Char) : ∀ {ls : List (String × String)},
    (∀ l ∈ ls, validName isLabelChar l.1.toList = true) → ∀ {n : ℕ}, ls.length < n →
    readLabels n (writeLabelsTail ls ++ rest) = some (ls, rest)
  | [], _, n + 1, _ => by
      rw [writeLabelsTail, List.singleton_append, readLabels, skip_cons (by decide)]
      rfl
  | [l], hls, n + 1, _ => by
      rw [writeLabelsTail, List.append_assoc, readLabels_label (hls l List.mem_cons_self), List.singleton_append,
        skip_cons (by decide)]
      rfl
  | l :: m :: ls, hls, n + 1, hn => by
      have ih := readLabels_tail rest (fun l hl => hls l (List.mem_cons_of_mem _ hl)) (Nat.lt_of_succ_lt_succ hn)
      rw [writeLabelsTail, List.append_assoc, readLabels_label (hls l List.mem_cons_self), List.cons_append,
        skip_cons (by decide), List.head?_cons, if_neg (by decide), if_pos rfl, List.tail_cons, ih, Option.map_some]
      exact List.cons_ne_nil _ _

theorem length_lt_writeLabelsTail : ∀ ls : List (String × String), ls.length < (writeLabelsTail ls).length
  | [] => Nat.zero_lt_one
  | [l] => by
      simp only [writeLabelsTail, writeLabel, List.length_append, List.length_cons, List.length_nil]
      omega
  | l :: m :: ls => by
      have ih := length_lt_writeLabelsTail (m :: ls)
      have hcons : (l :: m :: ls).length = (m :: ls).length + 1 := List.length_cons
      have htail : (',' :: writeLabelsTail (m :: ls)).length = (writeLabelsTail (m :: ls)).length + 1 :=
        List.length_cons
      rw [writeLabelsTail, List.length_append, htail]
      · omega
      · exact List.cons_ne_nil _ _

theorem ne_of_mem_write {x : Decimal.Number} {c d : Char} (h : c ∈ x.write)
    (hd : Json.isDigit d = false ∧ d ∉ ['-', '.', 'e', '+']) : c ≠ d := by
  rintro rfl
  rcases Decimal.mem_write h with h | h
  · exact absurd (hd.1.symm.trans h) (by decide)
  · exact hd.2 h

theorem isBlank_of_mem_write {x : Decimal.Number} {c : Char} (h : c ∈ x.write) : isBlank c = false := by
  rw [isBlank, decide_eq_false_iff_not]
  exact fun hc => hc.elim (ne_of_mem_write h (by decide)) (ne_of_mem_write h (by decide))

theorem skip_write (x : Decimal.Number) : skip (' ' :: x.write) = x.write := by
  rw [skip_blank]
  cases hx : x.write with
  | nil => rfl
  | cons c cs => exact skip_cons (isBlank_of_mem_write (hx ▸ List.mem_cons_self)) cs

theorem readValue_write (name : List Char) (labels : List (String × String)) (x : Decimal.Number)
    {cs : List Char} (hcs : skip cs = x.write) :
    readValue name labels cs = some (.sample (String.ofList name) ⟨labels, x.value⟩) := by
  obtain ⟨hword, hafter⟩ := word_end fun c hc => isBlank_of_mem_write (x := x) hc
  rw [readValue, hcs, hafter, if_pos rfl, hword, Decimal.read_write, Option.map_some]

theorem readSample_write {name : String} (hname : validName isNameChar name.toList = true)
    {s : Sample Decimal.Number} (hlabels : ∀ l ∈ s.labels, validName isLabelChar l.1.toList = true) :
    readSample ((Entry.sample name s).write) = some (.sample name (s.map Decimal.Number.value)) := by
  obtain ⟨hall, -⟩ := validName_spec hname
  rw [Entry.write, List.append_assoc, readSample]
  by_cases hls : s.labels = []
  · obtain ⟨htake, hdrop⟩ := Decimal.span_append (' ' :: s.value.write) hall
      (fun c cs h => by cases h; decide)
    have hhead : s.value.write.head? ≠ some '{' := fun h =>
      ne_of_mem_write (List.mem_of_mem_head? h) (by decide) rfl
    have hskip : skip s.value.write = s.value.write := by rw [← skip_blank, skip_write]
    rw [writeLabels, if_pos hls, List.nil_append, htake, if_pos hname, hdrop, skip_write, if_neg hhead,
      readValue_write _ _ s.value hskip, String.ofList_toList, Sample.map, hls]
  · set rest := writeLabelsTail s.labels ++ ' ' :: s.value.write with hrest
    obtain ⟨htake, hdrop⟩ := Decimal.span_append ('{' :: rest) hall (fun c cs h => by cases h; decide)
    have hfuel : s.labels.length < (name.toList ++ '{' :: rest).length := by
      have := length_lt_writeLabelsTail s.labels
      rw [List.length_append, List.length_cons, hrest, List.length_append]
      omega
    rw [writeLabels, if_neg hls, List.cons_append, ← hrest, htake, if_pos hname, hdrop, skip_cons (by decide),
      List.head?_cons, if_pos rfl, List.tail_cons, hrest, readLabels_tail _ hlabels (hrest ▸ hfuel),
      Option.bind_some, readValue_write _ _ s.value (skip_write s.value), String.ofList_toList, Sample.map]

theorem Kind.read_text (k : Kind) : Kind.read k.text.toList = some k := by
  cases k <;> decide

theorem readComment_key (key : List Char) (hkey : key.any isBlank = false) (hne : key ≠ []) {name : String}
    (hname : validName isNameChar name.toList = true) (cs : List Char) :
    readComment (' ' :: (key ++ ' ' :: (name.toList ++ ' ' :: cs))) =
      if key = ['H', 'E', 'L', 'P'] then some (.help name (String.ofList (unescapeHelp (skip cs))))
      else if key = ['T', 'Y', 'P', 'E'] then (Kind.read (skip cs)).map (.kind name)
      else some .blank := by
  obtain ⟨hall, c, ds, hcons⟩ := validName_spec hname
  have hblank : ∀ c ∈ name.toList, isBlank c = false := fun c hc => isBlank_of_isNameChar (hall c hc)
  have hstart : skip (name.toList ++ ' ' :: cs) = name.toList ++ ' ' :: cs := by
    rw [hcons, List.cons_append]
    exact skip_cons (hblank c (hcons ▸ List.mem_cons_self)) _
  have hkey' : ∀ c ∈ key, isBlank c = false := fun c hc => by simpa using List.any_eq_false.mp hkey c hc
  obtain ⟨k, ks, hk⟩ := List.exists_cons_of_ne_nil hne
  have hskip : ∀ rest, skip (key ++ rest) = key ++ rest := fun rest => by
    rw [hk, List.cons_append]
    exact skip_cons (hkey' k (hk ▸ List.mem_cons_self)) _
  obtain ⟨hword, hafter⟩ := word_append hkey' (name.toList ++ ' ' :: cs)
  obtain ⟨hword', hafter'⟩ := word_append hblank cs
  rw [readComment, skip_blank, hskip]
  simp only [hword, hafter, hstart, hword', hafter', if_pos hname, String.ofList_toList]

theorem skip_escapeHelp {t : List Char} (ht : ∀ c cs, t = c :: cs → isBlank c = false) :
    skip (t.flatMap escapeHelp) = t.flatMap escapeHelp := by
  cases t with
  | nil => rfl
  | cons c cs =>
    have hc := ht c cs rfl
    rw [List.flatMap_cons, escapeHelp]
    split_ifs
    · exact skip_cons (by decide) _
    · exact skip_cons (by decide) _
    · exact skip_cons hc _

/-- A line says again what was written. -/
theorem readLine_write {e : Entry Decimal.Number} (h : e.Valid) :
    readLine e.write = some (e.map Decimal.Number.value) := by
  cases e with
  | blank => rfl
  | help name t =>
    obtain ⟨hname, ht⟩ := h
    have hkey := readComment_key ['H', 'E', 'L', 'P'] rfl (by decide) hname
      (t.toList.flatMap escapeHelp)
    have hskip := skip_escapeHelp ht
    rw [if_pos rfl, hskip, unescapeHelp_escapeHelp, String.ofList_toList] at hkey
    rw [readLine, Entry.write]
    simp only [List.cons_append, List.nil_append, skip_cons (by decide : isBlank '#' = false), reduceCtorEq, if_false,
      List.head?_cons, if_true, List.tail_cons] at hkey ⊢
    exact hkey
  | kind name k =>
    have hkey := readComment_key ['T', 'Y', 'P', 'E'] rfl (by decide) h k.text.toList
    have hskip : skip k.text.toList = k.text.toList := by
      cases k <;> decide
    rw [if_neg (by decide), if_pos rfl, hskip, Kind.read_text, Option.map_some] at hkey
    rw [readLine, Entry.write]
    simp only [List.cons_append, List.nil_append, skip_cons (by decide : isBlank '#' = false), reduceCtorEq, if_false,
      List.head?_cons, if_true, List.tail_cons] at hkey ⊢
    exact hkey
  | sample name s =>
    obtain ⟨hname, hlabels⟩ := h
    obtain ⟨hall, c, ds, hcons⟩ := validName_spec hname
    have hread := readSample_write hname hlabels
    have hc : isNameChar c = true := hall c (hcons ▸ List.mem_cons_self)
    have hhead : c ≠ '#' := fun heq => by
      rw [heq] at hc
      exact absurd hc (by decide)
    have hwrite : ∃ cs, (Entry.sample name s).write = c :: cs := by
      rw [Entry.write, hcons]
      exact ⟨_, rfl⟩
    obtain ⟨cs, hcs⟩ := hwrite
    rw [hcs] at hread ⊢
    rw [readLine, skip_cons (isBlank_of_isNameChar hc), if_neg (List.cons_ne_nil _ _), List.head?_cons,
      if_neg fun h => hhead (Option.some.inj h), hread]
    rfl

/-! ### Texts -/

theorem newline_not_mem_escapeHelp (c : Char) : '\n' ∉ escapeHelp c := by
  rw [escapeHelp]
  split_ifs with hb hlf
  · decide
  · decide
  · exact fun h => hlf (List.mem_singleton.mp h).symm

theorem newline_not_mem_escapeValue (c : Char) : '\n' ∉ escapeValue c := by
  rw [escapeValue]
  split
  · decide
  · exact newline_not_mem_escapeHelp c

theorem newline_not_mem_flatMap {f : Char → List Char} (hf : ∀ c, '\n' ∉ f c) (t : List Char) :
    '\n' ∉ t.flatMap f := fun h => by
  obtain ⟨c, -, hc⟩ := List.mem_flatMap.mp h
  exact hf c hc

theorem newline_not_mem_name {p : Char → Bool} (hp : p '\n' = false) {cs : List Char}
    (h : validName p cs = true) : '\n' ∉ cs := fun hmem => by
  rw [(validName_spec h).1 _ hmem] at hp
  cases hp

theorem newline_not_mem_label {l : String × String} (h : validName isLabelChar l.1.toList = true) :
    '\n' ∉ writeLabel l := by
  have hname := newline_not_mem_name (by decide) h
  have hvalue := newline_not_mem_flatMap newline_not_mem_escapeValue l.2.toList
  simp only [writeLabel, List.mem_append, List.mem_cons, List.not_mem_nil, or_false, not_or]
  exact ⟨hname, by decide, by decide, hvalue, by decide⟩

theorem newline_not_mem_labelsTail : ∀ {ls : List (String × String)},
    (∀ l ∈ ls, validName isLabelChar l.1.toList = true) → '\n' ∉ writeLabelsTail ls
  | [], _ => by decide
  | [l], h => by
      rw [writeLabelsTail, List.mem_append, not_or]
      exact ⟨newline_not_mem_label (h l List.mem_cons_self), by decide⟩
  | l :: m :: ls, h => by
      rw [writeLabelsTail, List.mem_append, List.mem_cons, not_or, not_or]
      · exact ⟨newline_not_mem_label (h l List.mem_cons_self), by decide,
          newline_not_mem_labelsTail fun x hx => h x (List.mem_cons_of_mem _ hx)⟩
      · exact List.cons_ne_nil _ _

/-- Nothing in a line ends it. -/
theorem newline_not_mem_write {e : Entry Decimal.Number} (h : e.Valid) : '\n' ∉ e.write := by
  cases e with
  | blank => exact List.not_mem_nil
  | help name t =>
    have hname := newline_not_mem_name (by decide) h.1
    have ht := newline_not_mem_flatMap newline_not_mem_escapeHelp t.toList
    simp only [Entry.write, List.mem_append, List.mem_cons, List.not_mem_nil, not_or]
    exact ⟨⟨by decide, hname⟩, by decide, ht⟩
  | kind name k =>
    have hname := newline_not_mem_name (by decide) h
    have hk : '\n' ∉ k.text.toList := by cases k <;> decide
    simp only [Entry.write, List.mem_append, List.mem_cons, not_or]
    exact ⟨⟨by decide, hname⟩, by decide, hk⟩
  | sample name s =>
    have hname := newline_not_mem_name (by decide) h.1
    have hvalue : '\n' ∉ s.value.write := fun hmem => ne_of_mem_write hmem (by decide) rfl
    have hlabels : '\n' ∉ writeLabels s.labels := by
      rw [writeLabels]
      split
      · exact List.not_mem_nil
      · exact fun hmem => (List.mem_cons.mp hmem).elim (by decide) (newline_not_mem_labelsTail h.2)
    simp only [Entry.write, List.mem_append, List.mem_cons, not_or]
    exact ⟨⟨hname, hlabels⟩, by decide, hvalue⟩

theorem splitOn_flatMap {ls : List (List Char)} (h : ∀ l ∈ ls, '\n' ∉ l) :
    (ls.flatMap (· ++ ['\n'])).splitOn '\n' = ls ++ [[]] := by
  induction ls with
  | nil => rfl
  | cons l ls ih =>
    rw [List.flatMap_cons, List.append_assoc, List.singleton_append,
      List.splitOn_append_cons_self_of_not_mem (h l List.mem_cons_self),
      ih fun x hx => h x (List.mem_cons_of_mem _ hx), List.cons_append]

theorem lines_flatMap {ls : List (List Char)} (h : ∀ l ∈ ls, '\n' ∉ l) :
    lines (ls.flatMap (· ++ ['\n'])) = some ls := by
  have hend : (ls.flatMap (· ++ ['\n'])).getLast? = some '\n' ∨ ls.flatMap (· ++ ['\n']) = [] := by
    rcases List.eq_nil_or_concat ls with rfl | ⟨ls, l, rfl⟩
    · exact Or.inr rfl
    · left
      simp [List.flatMap_append]
  rw [lines, if_pos hend, splitOn_flatMap h, List.dropLast_concat]

theorem mapM_readLine : ∀ {es : List (Entry Decimal.Number)}, (∀ e ∈ es, e.Valid) →
    (es.map Entry.write).mapM readLine = some (es.map (Entry.map Decimal.Number.value))
  | [], _ => rfl
  | e :: es, h => by
      rw [List.map_cons, List.mapM_cons, readLine_write (h e List.mem_cons_self),
        mapM_readLine fun x hx => h x (List.mem_cons_of_mem _ hx)]
      rfl

/-! ### Families -/

variable {gs : List (Family α)} {g : Family α} {name : String}

/-- The name of the family a line is about. -/
def Entry.family : Entry α → Option String
  | .blank => none
  | .help name _ | .kind name _ | .sample name _ => some name

theorem update_fresh {f : Family α → Option (Family α)} (h : ∀ g ∈ gs, g.name ≠ name) :
    update name f gs = (f { name }).map fun g => gs ++ [g] := by
  induction gs with
  | nil => rfl
  | cons g gs ih =>
    rw [update, if_neg (h g List.mem_cons_self), ih fun x hx => h x (List.mem_cons_of_mem _ hx), Option.map_map]
    rfl

theorem update_bind {f f' : Family α → Option (Family α)}
    (hf : ∀ g g', f g = some g' → g'.name = g.name) :
    (update name f gs).bind (update name f') = update name (fun g => (f g).bind f') gs := by
  induction gs with
  | nil =>
    rw [update, update]
    rcases hres : f { name } with - | g
    · rfl
    · rw [Option.map_some, Option.bind_some, update, if_pos (hf _ _ hres)]
      rfl
  | cons g gs ih =>
    rw [update, update]
    split
    · rename_i hname
      rcases hres : f g with - | g'
      · rfl
      · rw [Option.map_some, Option.bind_some, update, if_pos ((hf _ _ hres).trans hname)]
        rfl
    · rename_i hname
      rw [← ih]
      rcases update name f gs with - | gs'
      · rfl
      · rw [Option.map_some, Option.bind_some, update, if_neg hname]
        rfl

theorem name_change {e : Entry α} {g' : Family α} (h : e.change g = some g') : g'.name = g.name := by
  cases e with
  | blank => cases h; rfl
  | help _ _ | kind _ _ =>
    rw [Entry.change] at h
    split at h <;> cases h
    rfl
  | sample _ _ => cases h; rfl

theorem apply_eq {e : Entry α} (h : e.family = some name) (gs : List (Family α)) :
    Entry.apply gs e = update name e.change gs := by
  cases e with
  | blank => cases h
  | help _ _ | kind _ _ | sample _ _ => cases h; rfl

/-- Several lines about one family are one change of it. -/
theorem foldlM_apply {es : List (Entry α)} (hne : es ≠ []) (h : ∀ e ∈ es, e.family = some name)
    (gs : List (Family α)) : es.foldlM Entry.apply gs = update name (fun g => es.foldlM (fun g e => e.change g) g) gs := by
  induction es generalizing gs with
  | nil => exact absurd rfl hne
  | cons e es ih =>
    have he := apply_eq (h e List.mem_cons_self) gs
    rw [List.foldlM_cons, he]
    by_cases hes : es = []
    · subst hes
      simp only [List.foldlM_nil, List.foldlM_cons, bind_pure]
    · simp only [ih hes fun x hx => h x (List.mem_cons_of_mem _ hx), List.foldlM_cons]
      exact update_bind fun g g' => name_change

theorem foldlM_samples (name : String) : ∀ (ss : List (Sample α)) (g : Family α),
    (ss.map (Entry.sample name)).foldlM (fun g e => e.change g) g = some { g with samples := g.samples ++ ss }
  | [], g => by rw [List.append_nil]; rfl
  | s :: ss, g => by
      have hs := foldlM_samples name ss { g with samples := g.samples ++ [s] }
      rw [List.append_assoc, List.singleton_append] at hs
      rw [List.map_cons, List.foldlM_cons]
      exact hs

theorem foldlM_change (g : Family α) :
    g.entries.foldlM (fun g e => e.change g) { name := g.name } = some g := by
  obtain ⟨name, help, kind, samples⟩ := g
  have hss := fun help kind => foldlM_samples name samples ⟨name, help, kind, []⟩
  simp only [List.nil_append] at hss
  cases help <;> cases kind <;> exact hss _ _

theorem family_of_mem {e : Entry α} (h : e ∈ g.entries) : e.family = some g.name := by
  simp only [Family.entries, List.mem_append, Option.mem_toList, Option.map_eq_some_iff, List.mem_map] at h
  rcases h with (⟨_, -, rfl⟩ | ⟨_, -, rfl⟩) | ⟨_, -, rfl⟩ <;> rfl

/-- The lines of families open one after the other. -/
theorem foldlM_entries : ∀ {gs fs : List (Family α)}, (∀ g ∈ gs, g.entries ≠ []) →
    ((fs ++ gs).map Family.name).Nodup → (entries gs).foldlM Entry.apply fs = some (fs ++ gs)
  | [], fs, _, _ => by
      rw [List.append_nil]
      rfl
  | g :: gs, fs, hne, hnd => by
      have hfresh : ∀ f ∈ fs, f.name ≠ g.name := by
        intro f hf heq
        rw [List.map_append] at hnd
        exact List.disjoint_of_nodup_append hnd (List.mem_map_of_mem hf)
          (List.mem_map.mpr ⟨g, List.mem_cons_self, heq.symm⟩)
      have hg : g.entries.foldlM Entry.apply fs = some (fs ++ [g]) := by
        rw [foldlM_apply (hne g List.mem_cons_self) (fun e he => family_of_mem he), update_fresh hfresh, foldlM_change]
        rfl
      have hrest : (entries gs).foldlM Entry.apply (fs ++ [g]) = some (fs ++ [g] ++ gs) :=
        foldlM_entries (fun x hx => hne x (List.mem_cons_of_mem _ hx)) (by rwa [List.append_assoc])
      cases gs with
      | nil =>
        rw [entries, List.map_singleton, List.intercalate_singleton]
        exact hg
      | cons g' gs =>
        rw [entries, List.map_cons, List.map_cons, List.intercalate_cons_cons, List.append_assoc, List.foldlM_append, hg]
        rw [List.append_assoc] at hrest
        exact hrest

/-- A family whose lines can be read. -/
structure Family.Valid (g : Family α) : Prop where
  name : validName isNameChar g.name.toList = true
  help : ∀ t, g.help = some t → ∀ c cs, t.toList = c :: cs → isBlank c = false
  labels : ∀ s ∈ g.samples, ∀ l ∈ s.labels, validName isLabelChar l.1.toList = true
  samples : g.samples ≠ []

theorem Family.Valid.entry (h : g.Valid) {e : Entry α} (he : e ∈ g.entries) : e.Valid := by
  simp only [Family.entries, List.mem_append, Option.mem_toList, Option.map_eq_some_iff, List.mem_map] at he
  rcases he with (⟨t, ht, rfl⟩ | ⟨k, -, rfl⟩) | ⟨s, hs, rfl⟩
  · exact ⟨h.name, h.help t ht⟩
  · exact h.name
  · exact ⟨h.name, h.labels s hs⟩

theorem mem_entries {e : Entry α} : ∀ {gs : List (Family α)}, e ∈ entries gs →
    e = .blank ∨ ∃ g ∈ gs, e ∈ g.entries
  | [], h => absurd h List.not_mem_nil
  | [g], h => by
      rw [entries, List.map_singleton, List.intercalate_singleton] at h
      exact Or.inr ⟨g, List.mem_cons_self, h⟩
  | g :: g' :: gs, h => by
      rw [entries, List.map_cons, List.map_cons, List.intercalate_cons_cons, List.append_assoc] at h
      rcases List.mem_append.mp h with h | h
      · exact Or.inr ⟨g, List.mem_cons_self, h⟩
      · rcases List.mem_append.mp h with h | h
        · exact Or.inl (List.mem_singleton.mp h)
        · refine (mem_entries h).imp id fun ⟨f, hf, he⟩ => ⟨f, List.mem_cons_of_mem _ hf, he⟩

theorem map_entries {β : Type} (f : α → β) (gs : List (Family α)) :
    (entries gs).map (Entry.map f) = entries (gs.map (Family.map f)) := by
  have hfam : ∀ g : Family α, g.entries.map (Entry.map f) = (g.map f).entries := by
    rintro ⟨name, help, kind, samples⟩
    simp only [Family.entries, Family.map, List.map_append, List.map_map]
    cases help <;> cases kind <;> rfl
  induction gs with
  | nil => rfl
  | cons g gs ih =>
    cases gs with
    | nil => simpa [entries] using hfam g
    | cons g' gs =>
      simp only [entries, List.map_cons, List.intercalate_cons_cons, List.map_append] at ih ⊢
      rw [ih, hfam]
      rfl

/-- What is written is read back. -/
theorem read_write {gs : List (Family Decimal.Number)} (hvalid : ∀ g ∈ gs, g.Valid)
    (hnd : (gs.map Family.name).Nodup) : read (write gs) = some (gs.map (Family.map Decimal.Number.value)) := by
  have hentry : ∀ e ∈ entries gs, e.Valid := fun e he => by
    rcases mem_entries he with rfl | ⟨g, hg, he⟩
    · trivial
    · exact (hvalid g hg).entry he
  have hlines : lines (write gs) = some ((entries gs).map Entry.write) := by
    rw [← lines_flatMap, List.flatMap_map]
    · rfl
    · intro l hl
      obtain ⟨e, he, rfl⟩ := List.mem_map.mp hl
      exact newline_not_mem_write (hentry e he)
  rw [read, hlines, Option.bind_some, mapM_readLine hentry, Option.bind_some, map_entries]
  refine foldlM_entries (fun g' hg' => ?_) ?_
  · obtain ⟨g, hg, rfl⟩ := List.mem_map.mp hg'
    have hs := (hvalid g hg).samples
    simp [Family.entries, Family.map, hs]
  · rwa [List.nil_append, List.map_map]

end Exposition
