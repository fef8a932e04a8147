import Mathlib

/-! JSON objects without nesting, as `json.dumps` writes them and `json.loads` reads them. What is
    written is printable ASCII: a character outside it is escaped, one outside the basic plane as a
    surrogate pair. Reading takes back what was written. -/

namespace Json

/-- The value of a member. A float has one digit after the point. -/
inductive Value where
  | null
  | str (s : String)
  | int (n : ℤ)
  | float (tenths : ℤ)
  deriving DecidableEq

abbrev Object := List (String × Value)

def quote : Char := Char.ofNat 34

def backslash : Char := Char.ofNat 92

/-! ### UTF-16 -/

/-- The code units of a character. -/
def units (c : Char) : List ℕ :=
  if c.toNat < 0x10000 then [c.toNat]
  else [0xD800 + (c.toNat - 0x10000) / 0x400, 0xDC00 + (c.toNat - 0x10000) % 0x400]

/-- The characters of a text in code units, if every surrogate has its other half. -/
def chars : List ℕ → Option (List Char)
  | [] => some []
  | u :: us =>
    if 0xD800 ≤ u ∧ u < 0xDC00 then
      match us with
      | [] => none
      | v :: us =>
        if 0xDC00 ≤ v ∧ v < 0xE000 then
          (chars us).map (Char.ofNat (0x10000 + (u - 0xD800) * 0x400 + (v - 0xDC00)) :: ·)
        else none
    else if 0xDC00 ≤ u ∧ u < 0xE000 then none
    else (chars us).map (Char.ofNat u :: ·)

/-! ### Writing -/

def hexDigit (n : ℕ) : Char := if n < 10 then Char.ofNat (48 + n) else Char.ofNat (87 + n)

/-- A code unit between quotes. -/
def escape (u : ℕ) : List Char :=
  if u = 34 then [backslash, quote]
  else if u = 92 then [backslash, backslash]
  else if u = 10 then [backslash, 'n']
  else if u = 13 then [backslash, 'r']
  else if u = 9 then [backslash, 't']
  else if u = 12 then [backslash, 'f']
  else if u = 8 then [backslash, 'b']
  else if 32 ≤ u ∧ u < 127 then [Char.ofNat u]
  else [backslash, 'u', hexDigit (u / 4096), hexDigit (u / 256 % 16), hexDigit (u / 16 % 16),
    hexDigit (u % 16)]

def writeString (s : String) : List Char :=
  quote :: (s.toList.flatMap units).flatMap escape ++ [quote]

def digit (d : ℕ) : Char := Char.ofNat (48 + d)

def writeNat (n : ℕ) : List Char := if n = 0 then [digit 0] else (Nat.digits 10 n).reverse.map digit

def writeSign (n : ℤ) : List Char := if n < 0 then ['-'] else []

def writeValue : Value → List Char
  | .null => ['n', 'u', 'l', 'l']
  | .str s => writeString s
  | .int n => writeSign n ++ writeNat n.natAbs
  | .float n => writeSign n ++ writeNat (n.natAbs / 10) ++ ['.', digit (n.natAbs % 10)]

def writeMember (m : String × Value) : List Char := writeString m.1 ++ [':', ' '] ++ writeValue m.2

/-- The members, and the closing brace. -/
def writeMembers : Object → List Char
  | [] => ['}']
  | [m] => writeMember m ++ ['}']
  | m :: ms => writeMember m ++ [',', ' '] ++ writeMembers ms

/-- `json.dumps`. -/
def dumps (o : Object) : List Char := '{' :: writeMembers o

/-! ### Reading -/

def hexValue (c : Char) : Option ℕ :=
  if 48 ≤ c.toNat ∧ c.toNat ≤ 57 then some (c.toNat - 48)
  else if 97 ≤ c.toNat ∧ c.toNat ≤ 102 then some (c.toNat - 87)
  else if 65 ≤ c.toNat ∧ c.toNat ≤ 70 then some (c.toNat - 55)
  else none

/-- The code unit of a backslash and one more character. -/
def shortEscape (c : Char) : Option ℕ :=
  if c = quote then some 34
  else if c = backslash then some 92
  else if c = '/' then some 47
  else if c = 'n' then some 10
  else if c = 'r' then some 13
  else if c = 't' then some 9
  else if c = 'f' then some 12
  else if c = 'b' then some 8
  else none

/-- The code units up to the closing quote, and what comes after it. -/
def readUnits : List Char → Option (List ℕ × List Char)
  | [] => none
  | c :: cs =>
    if c = quote then some ([], cs)
    else if c = backslash then
      match cs with
      | [] => none
      | e :: cs =>
        if e = 'u' then
          match cs with
          | a :: b :: c :: d :: cs =>
            match hexValue a, hexValue b, hexValue c, hexValue d with
            | some a, some b, some c, some d =>
              (readUnits cs).map fun r => ((((a * 16 + b) * 16 + c) * 16 + d) :: r.1, r.2)
            | _, _, _, _ => none
          | _ => none
        else
          match shortEscape e with
          | none => none
          | some u => (readUnits cs).map fun r => (u :: r.1, r.2)
    else if c.toNat < 32 then none
    else (readUnits cs).map fun r => (units c ++ r.1, r.2)

def readString : List Char → Option (String × List Char)
  | [] => none
  | c :: cs =>
    if c = quote then
      (readUnits cs).bind fun r => (chars r.1).map fun s => (String.ofList s, r.2)
    else none

def isDigit (c : Char) : Bool := decide (48 ≤ c.toNat ∧ c.toNat ≤ 57)

def readDigits (n : ℕ) : List Char → ℕ × List Char
  | [] => (n, [])
  | c :: cs => if isDigit c then readDigits (n * 10 + (c.toNat - 48)) cs else (n, c :: cs)

/-- Without leading zeros. -/
def readNat : List Char → Option (ℕ × List Char)
  | [] => none
  | c :: cs =>
    if c = '0' then some (0, cs)
    else if isDigit c then some (readDigits (c.toNat - 48) cs)
    else none

/-- A number without its sign. -/
def readNumber (sign : ℤ) (cs : List Char) : Option (Value × List Char) :=
  (readNat cs).bind fun r =>
    match r.2 with
    | [] => some (.int (sign * r.1), [])
    | c :: cs =>
      if c = '.' then
        match cs with
        | [] => none
        | d :: cs =>
          if isDigit d then some (.float (sign * (r.1 * 10 + (d.toNat - 48) : ℕ)), cs) else none
      else some (.int (sign * r.1), c :: cs)

def readValue : List Char → Option (Value × List Char)
  | [] => none
  | c :: cs =>
    if c = quote then (readString (c :: cs)).map fun r => (.str r.1, r.2)
    else if c = 'n' then
      if cs.take 3 = ['u', 'l', 'l'] then some (.null, cs.drop 3) else none
    else if c = '-' then readNumber (-1) cs
    else readNumber 1 (c :: cs)

def skip (cs : List Char) : List Char := cs.dropWhile fun c => c ∈ [' ', '\t', '\n', '\r']

/-- At most `n` members, and what comes after the closing brace. -/
def readMembers : ℕ → List Char → Option (Object × List Char)
  | 0, _ => none
  | n + 1, cs =>
    (readString (skip cs)).bind fun key =>
      match skip key.2 with
      | [] => none
      | c :: cs =>
        if c = ':' then
          (readValue (skip cs)).bind fun value =>
            match skip value.2 with
            | [] => none
            | c :: cs =>
              if c = '}' then some ([(key.1, value.1)], cs)
              else if c = ',' then
                (readMembers n cs).map fun r => ((key.1, value.1) :: r.1, r.2)
              else none
        else none

/-- `json.loads`, for an object. -/
def loads (text : List Char) : Option Object :=
  match skip text with
  | [] => none
  | c :: cs =>
    if c = '{' then
      match skip cs with
      | [] => none
      | c :: cs =>
        let r := if c = '}' then some ([], cs) else readMembers text.length (c :: cs)
        r.bind fun r => if skip r.2 = [] then some r.1 else none
    else none

example : loads (dumps [("a", .str "\n😀"), ("b", .float (-305))]) =
    some [("a", .str "\n😀"), ("b", .float (-305))] := by decide +kernel

variable {c : Char} {u : ℕ} {us : List ℕ} {cs rest : List Char}

/-! ### Strings -/

theorem chars_units (c : Char) (us : List ℕ) :
    chars (units c ++ us) = (chars us).map (c :: ·) := by
  have hvalid : c.toNat < 0xD800 ∨ 0xDFFF < c.toNat ∧ c.toNat < 0x110000 := c.valid
  rw [units]
  split
  · rw [List.singleton_append, chars.eq_def]
    simp only
    rw [if_neg (by omega), if_neg (by omega), Char.ofNat_toNat]
  · rw [List.cons_append, List.singleton_append, chars.eq_def]
    simp only
    rw [if_pos (by omega), if_pos (by omega)]
    have hback : 0x10000 + (0xD800 + (c.toNat - 0x10000) / 0x400 - 0xD800) * 0x400 +
        (0xDC00 + (c.toNat - 0x10000) % 0x400 - 0xDC00) = c.toNat := by omega
    rw [hback, Char.ofNat_toNat]

theorem chars_flatMap_units (s : List Char) : chars (s.flatMap units) = some s := by
  induction s with
  | nil => rfl
  | cons c s ih => rw [List.flatMap_cons, chars_units, ih, Option.map_some]

theorem units_lt (h : u ∈ units c) : u < 0x10000 := by
  have hvalid : c.toNat < 0xD800 ∨ 0xDFFF < c.toNat ∧ c.toNat < 0x110000 := c.valid
  rw [units] at h
  split at h
  · rw [List.mem_singleton] at h
    omega
  · simp only [List.mem_cons, List.not_mem_nil, or_false] at h
    rcases h with h | h <;> omega

theorem hexValue_hexDigit {n : ℕ} (h : n < 16) : hexValue (hexDigit n) = some n := by
  have hall : ∀ n < 16, hexValue (hexDigit n) = some n := by decide +kernel
  exact hall n h

theorem toNat_ofNat_ascii {n : ℕ} (h : n < 128) : (Char.ofNat n).toNat = n := by
  rw [Char.toNat_ofNat, if_pos (Or.inl (by omega))]

theorem backslash_ne_quote : backslash ≠ quote := by decide

theorem readUnits_quote (cs : List Char) : readUnits (quote :: cs) = some ([], cs) := by
  rw [readUnits.eq_def]
  simp

theorem readUnits_short {e : Char} (he : e ≠ 'u') (hu : shortEscape e = some u) (cs : List Char) :
    readUnits (backslash :: e :: cs) = (readUnits cs).map fun r => (u :: r.1, r.2) := by
  rw [readUnits.eq_def]
  simp [backslash_ne_quote, he, hu]

theorem readUnits_hex {a b c d : Char} {i j k l : ℕ} (ha : hexValue a = some i)
    (hb : hexValue b = some j) (hc : hexValue c = some k) (hd : hexValue d = some l) (cs : List Char) :
    readUnits (backslash :: 'u' :: a :: b :: c :: d :: cs) =
      (readUnits cs).map fun r => ((((i * 16 + j) * 16 + k) * 16 + l) :: r.1, r.2) := by
  rw [readUnits.eq_def]
  simp [backslash_ne_quote, ha, hb, hc, hd]

theorem readUnits_plain (hq : c ≠ quote) (hb : c ≠ backslash) (hlow : 32 ≤ c.toNat)
    (cs : List Char) : readUnits (c :: cs) = (readUnits cs).map fun r => (units c ++ r.1, r.2) := by
  rw [readUnits.eq_def]
  simp [hq, hb, not_lt.mpr hlow]

/-- Reading a code unit takes back its escape. -/
theorem readUnits_escape (hu : u < 0x10000) (cs : List Char) :
    readUnits (escape u ++ cs) = (readUnits cs).map fun r => (u :: r.1, r.2) := by
  rw [escape]
  split_ifs with h₁ h₂ h₃ h₄ h₅ h₆ h₇ h₈
  · exact readUnits_short (by decide) (by rw [h₁]; decide) cs
  · exact readUnits_short (by decide) (by rw [h₂]; decide) cs
  · exact readUnits_short (by decide) (by rw [h₃]; decide) cs
  · exact readUnits_short (by decide) (by rw [h₄]; decide) cs
  · exact readUnits_short (by decide) (by rw [h₅]; decide) cs
  · exact readUnits_short (by decide) (by rw [h₆]; decide) cs
  · exact readUnits_short (by decide) (by rw [h₇]; decide) cs
  · have hchar := toNat_ofNat_ascii (n := u) (by omega)
    have hunits : units (Char.ofNat u) = [u] := by rw [units, hchar, if_pos hu]
    have hne : ∀ {k : ℕ}, k < 128 → u ≠ k → Char.ofNat u ≠ Char.ofNat k := by
      intro k hk huk h
      exact huk (by rw [← hchar, h, toNat_ofNat_ascii hk])
    rw [List.singleton_append, readUnits_plain (hne (by decide) h₁) (hne (by decide) h₂) (by omega),
      hunits]
    rfl
  · have hback : ((u / 4096 * 16 + u / 256 % 16) * 16 + u / 16 % 16) * 16 + u % 16 = u := by omega
    have hread := readUnits_hex (hexValue_hexDigit (n := u / 4096) (by omega))
      (hexValue_hexDigit (n := u / 256 % 16) (by omega)) (hexValue_hexDigit (n := u / 16 % 16) (by omega))
      (hexValue_hexDigit (n := u % 16) (by omega)) cs
    rwa [hback] at hread

theorem readUnits_flatMap (hus : ∀ u ∈ us, u < 0x10000) (rest : List Char) :
    readUnits (us.flatMap escape ++ quote :: rest) = some (us, rest) := by
  induction us with
  | nil => exact readUnits_quote rest
  | cons u us ih =>
    rw [List.flatMap_cons, List.append_assoc, readUnits_escape (hus u List.mem_cons_self),
      ih fun v hv => hus v (List.mem_cons_of_mem _ hv), Option.map_some]

theorem readString_writeString (s : String) (rest : List Char) :
    readString (writeString s ++ rest) = some (s, rest) := by
  have hlt : ∀ u ∈ s.toList.flatMap units, u < 0x10000 := fun u hu => by
    obtain ⟨c, -, hc⟩ := List.mem_flatMap.mp hu
    exact units_lt hc
  rw [writeString, List.append_assoc, List.cons_append, List.singleton_append, readString, if_pos rfl,
    readUnits_flatMap hlt, Option.bind_some, chars_flatMap_units, Option.map_some, String.ofList_toList]

/-! ### Numbers -/

/-- What comes after a value. -/
def Delimited (rest : List Char) : Prop := ∃ cs, rest = ',' :: cs ∨ rest = '}' :: cs

theorem toNat_digit {d : ℕ} (h : d < 10) : (digit d).toNat = 48 + d := toNat_ofNat_ascii (by omega)

theorem isDigit_digit {d : ℕ} (h : d < 10) : isDigit (digit d) = true := by
  rw [isDigit, toNat_digit h, decide_eq_true_iff]
  omega

/-- A text that no number goes on with. -/
def Ends (rest : List Char) : Prop := ∀ c cs, rest = c :: cs → isDigit c = false

theorem readDigits_map (n : ℕ) {ds : List ℕ} (hds : ∀ d ∈ ds, d < 10) (hrest : Ends rest) :
    readDigits n (ds.map digit ++ rest) = (ds.foldl (fun n d => n * 10 + d) n, rest) := by
  induction ds generalizing n with
  | nil =>
    cases rest with
    | nil => rfl
    | cons c cs => rw [List.map_nil, List.nil_append, readDigits, hrest c cs rfl]; rfl
  | cons d ds ih =>
    have hd := hds d List.mem_cons_self
    rw [List.map_cons, List.cons_append, readDigits, isDigit_digit hd, if_pos rfl, toNat_digit hd,
      Nat.add_sub_cancel_left, ih _ fun x hx => hds x (List.mem_cons_of_mem _ hx), List.foldl_cons]

theorem foldl_digits (n : ℕ) : (Nat.digits 10 n).reverse.foldl (fun n d => n * 10 + d) 0 = n := by
  rw [List.foldl_reverse]
  conv_rhs => rw [← Nat.ofDigits_digits 10 n, Nat.ofDigits_eq_foldr]
  congr 1
  funext d n
  simp
  omega

theorem readNat_writeNat (n : ℕ) (hrest : Ends rest) :
    readNat (writeNat n ++ rest) = some (n, rest) := by
  rw [writeNat]
  split
  · rename_i h
    subst h
    rfl
  · rename_i hn
    have hne : (Nat.digits 10 n).reverse ≠ [] := by simpa [Nat.digits_ne_nil_iff_ne_zero] using hn
    obtain ⟨d, ds, hds⟩ := List.exists_cons_of_ne_nil hne
    have hlt : ∀ x ∈ d :: ds, x < 10 := fun x hx =>
      Nat.digits_lt_base (by decide) (List.mem_reverse.mp (hds ▸ hx))
    have hd := hlt d List.mem_cons_self
    have hlead : d ≠ 0 := by
      have hdigits : Nat.digits 10 n = ds.reverse ++ [d] := by
        rw [← List.reverse_reverse (Nat.digits 10 n), hds, List.reverse_cons]
      simpa [hdigits] using Nat.getLast_digit_ne_zero 10 hn
    have hzero : digit d ≠ '0' := by
      intro h
      have hnat := congrArg Char.toNat h
      rw [toNat_digit hd, show '0'.toNat = 48 from rfl] at hnat
      omega
    have hfold := foldl_digits n
    rw [hds, List.foldl_cons, Nat.zero_mul, Nat.zero_add] at hfold
    rw [hds, List.map_cons, List.cons_append, readNat, if_neg hzero, isDigit_digit hd, if_pos rfl,
      toNat_digit hd, Nat.add_sub_cancel_left,
      readDigits_map d (fun x hx => hlt x (List.mem_cons_of_mem _ hx)) hrest, hfold]

theorem Delimited.ends (h : Delimited rest) : Ends rest := by
  rintro c cs rfl
  obtain ⟨cs', h | h⟩ := h <;> cases h <;> rfl

theorem readNumber_int (sign : ℤ) (n : ℕ) (h : Delimited rest) :
    readNumber sign (writeNat n ++ rest) = some (.int (sign * n), rest) := by
  rw [readNumber, readNat_writeNat n h.ends, Option.bind_some]
  obtain ⟨cs, rfl | rfl⟩ := h <;> rfl

theorem readNumber_float (sign : ℤ) (n : ℕ) (rest : List Char) :
    readNumber sign (writeNat (n / 10) ++ ['.', digit (n % 10)] ++ rest) =
      some (.float (sign * n), rest) := by
  have hd : n % 10 < 10 := Nat.mod_lt _ (by decide)
  have hends : Ends ('.' :: digit (n % 10) :: rest) := by
    rintro c cs h
    cases h
    rfl
  rw [List.append_assoc, List.cons_append, List.singleton_append, readNumber, readNat_writeNat _ hends,
    Option.bind_some]
  simp only [if_true]
  rw [isDigit_digit hd, if_pos rfl, toNat_digit hd, Nat.add_sub_cancel_left,
    Nat.div_add_mod']

/-- A number starts with a digit. -/
theorem writeNat_cons (n : ℕ) : ∃ c cs, writeNat n = c :: cs ∧ 48 ≤ c.toNat ∧ c.toNat ≤ 57 := by
  rw [writeNat]
  split
  · exact ⟨digit 0, [], rfl, by decide, by decide⟩
  · rename_i hn
    have hne : (Nat.digits 10 n).reverse ≠ [] := by simpa [Nat.digits_ne_nil_iff_ne_zero] using hn
    obtain ⟨d, ds, hds⟩ := List.exists_cons_of_ne_nil hne
    have hd : d < 10 := Nat.digits_lt_base (by decide)
      (List.mem_reverse.mp (hds ▸ List.mem_cons_self : d ∈ (Nat.digits 10 n).reverse))
    rw [hds]
    refine ⟨digit d, ds.map digit, rfl, ?_⟩
    rw [toNat_digit hd]
    omega

/-! ### Values -/

theorem ne_of_toNat_ne {c d : Char} (h : c.toNat ≠ d.toNat) : c ≠ d := fun he => h (he ▸ rfl)

/-- What does not start as a string, a `null` or a negative number is read as a number. -/
theorem readValue_number (h₀ : 48 ≤ c.toNat) (h₁ : c.toNat ≤ 57) (cs : List Char) :
    readValue (c :: cs) = readNumber 1 (c :: cs) := by
  have hquote : c ≠ quote := ne_of_toNat_ne (by rw [show quote.toNat = 34 from rfl]; omega)
  have hnull : c ≠ 'n' := ne_of_toNat_ne (by rw [show 'n'.toNat = 110 from rfl]; omega)
  have hminus : c ≠ '-' := ne_of_toNat_ne (by rw [show '-'.toNat = 45 from rfl]; omega)
  rw [readValue, if_neg hquote, if_neg hnull, if_neg hminus]

theorem readValue_signed (n : ℤ) (tail : List Char) (c : Char) (cs : List Char)
    (hc : tail = c :: cs) (h₀ : 48 ≤ c.toNat) (h₁ : c.toNat ≤ 57) :
    readValue (writeSign n ++ tail) = readNumber (if n < 0 then -1 else 1) tail := by
  rw [writeSign]
  split
  · rw [List.singleton_append, readValue, if_neg (by decide), if_neg (by decide), if_pos rfl]
  · rw [List.nil_append, hc, readValue_number h₀ h₁]

theorem writeString_cons (s : String) (rest : List Char) :
    ∃ cs, writeString s ++ rest = quote :: cs := ⟨_, rfl⟩

theorem readValue_writeValue (v : Value) (h : Delimited rest) :
    readValue (writeValue v ++ rest) = some (v, rest) := by
  have hsign : ∀ n : ℤ, (if n < 0 then -1 else 1) * (n.natAbs : ℤ) = n := by
    intro n
    split <;> omega
  cases v with
  | null =>
    rw [writeValue, List.cons_append, readValue, if_neg (by decide), if_pos rfl]
    rfl
  | str s =>
    obtain ⟨cs, hcs⟩ := writeString_cons s rest
    rw [writeValue, hcs, readValue, if_pos rfl, ← hcs, readString_writeString, Option.map_some]
  | int n =>
    obtain ⟨c, cs, hc, h₀, h₁⟩ := writeNat_cons n.natAbs
    rw [writeValue, List.append_assoc, readValue_signed n _ c (cs ++ rest) (by rw [hc]; rfl) h₀ h₁,
      readNumber_int _ _ h, hsign]
  | float n =>
    obtain ⟨c, cs, hc, h₀, h₁⟩ := writeNat_cons (n.natAbs / 10)
    rw [writeValue, List.append_assoc, List.append_assoc,
      readValue_signed n _ c (cs ++ (['.', digit (n.natAbs % 10)] ++ rest)) (by rw [hc]; rfl) h₀ h₁,
      ← List.append_assoc, readNumber_float, hsign]

/-! ### Objects -/

theorem skip_cons (h : c ∉ [' ', '\t', '\n', '\r']) (cs : List Char) : skip (c :: cs) = c :: cs :=
  List.dropWhile_cons_of_neg (by simpa using h)

theorem skip_space (cs : List Char) : skip (' ' :: cs) = skip cs :=
  List.dropWhile_cons_of_pos (by simp)

theorem skip_writeString (s : String) (rest : List Char) :
    skip (writeString s ++ rest) = writeString s ++ rest := skip_cons (by decide) _

theorem skip_writeNat (n : ℕ) (rest : List Char) : skip (writeNat n ++ rest) = writeNat n ++ rest := by
  obtain ⟨c, cs, hc, h₀, -⟩ := writeNat_cons n
  rw [hc]
  refine skip_cons (fun h => ?_) _
  simp only [List.mem_cons, List.not_mem_nil, or_false] at h
  rcases h with rfl | rfl | rfl | rfl <;> exact absurd h₀ (by decide)

theorem skip_writeValue (v : Value) (rest : List Char) :
    skip (writeValue v ++ rest) = writeValue v ++ rest := by
  have hnumber : ∀ (n : ℤ) k tail, skip (writeSign n ++ (writeNat k ++ tail)) =
      writeSign n ++ (writeNat k ++ tail) := by
    intro n k tail
    rw [writeSign]
    split
    · exact skip_cons (by decide) _
    · exact skip_writeNat k tail
  cases v with
  | null => exact skip_cons (by decide) _
  | str s => exact skip_writeString s rest
  | int n => simpa only [writeValue, List.append_assoc] using hnumber n _ rest
  | float n =>
    simpa only [writeValue, List.append_assoc] using hnumber n _ (['.', digit (n.natAbs % 10)] ++ rest)

/-- The key and the value of the next member are read; what follows decides how it goes on. -/
theorem readMembers_writeMember (m : String × Value) (h : Delimited rest) :
    (readString (skip (writeMember m ++ rest)) = some (m.1, [':', ' '] ++ writeValue m.2 ++ rest)) ∧
    skip ([':', ' '] ++ writeValue m.2 ++ rest) = ':' :: ' ' :: (writeValue m.2 ++ rest) ∧
    readValue (skip (' ' :: (writeValue m.2 ++ rest))) = some (m.2, rest) := by
  have hsplit : writeMember m ++ rest = writeString m.1 ++ ([':', ' '] ++ writeValue m.2 ++ rest) := by
    simp only [writeMember, List.append_assoc]
  refine ⟨?_, skip_cons (by decide) _, ?_⟩
  · rw [hsplit, skip_writeString, readString_writeString]
  · rw [skip_space, skip_writeValue, readValue_writeValue _ h]

theorem readMembers_last (n : ℕ) (m : String × Value) (rest : List Char) :
    readMembers (n + 1) (writeMember m ++ '}' :: rest) = some ([m], rest) := by
  have hend : Delimited ('}' :: rest) := ⟨rest, Or.inr rfl⟩
  obtain ⟨hkey, hcolon, hvalue⟩ := readMembers_writeMember m hend
  have hskip : skip ('}' :: rest) = '}' :: rest := skip_cons (by decide) _
  simp only [readMembers, hkey, Option.bind_some, hcolon, if_true, hvalue, hskip]

theorem readMembers_more (n : ℕ) (m : String × Value) (rest : List Char) :
    readMembers (n + 1) (writeMember m ++ ',' :: rest) =
      (readMembers n rest).map fun r => (m :: r.1, r.2) := by
  have hend : Delimited (',' :: rest) := ⟨rest, Or.inl rfl⟩
  obtain ⟨hkey, hcolon, hvalue⟩ := readMembers_writeMember m hend
  have hskip : skip (',' :: rest) = ',' :: rest := skip_cons (by decide) _
  have hbrace : ',' ≠ '}' := by decide
  simp only [readMembers, hkey, Option.bind_some, hcolon, if_true, hvalue, hskip, hbrace, if_false]

theorem readMembers_space (n : ℕ) (cs : List Char) : readMembers n (' ' :: cs) = readMembers n cs := by
  cases n with
  | zero => rfl
  | succ n => rw [readMembers, readMembers, skip_space]

/-- Reading members takes back what was written, given at least as much fuel as there are. -/
theorem readMembers_writeMembers {o : Object} (hne : o ≠ []) {n : ℕ} (hn : o.length ≤ n)
    (rest : List Char) : readMembers n (writeMembers o ++ rest) = some (o, rest) := by
  induction o generalizing n with
  | nil => exact absurd rfl hne
  | cons m ms ih =>
    rw [List.length_cons] at hn
    obtain ⟨n, rfl⟩ : ∃ k, n = k + 1 := ⟨n - 1, by omega⟩
    cases ms with
    | nil =>
      rw [writeMembers, List.append_assoc, List.singleton_append]
      exact readMembers_last n m rest
    | cons m' ms =>
      rw [writeMembers, List.append_assoc, List.append_assoc, List.cons_append, List.singleton_append,
        readMembers_more, readMembers_space, ih (by simp) (by omega), Option.map_some]
      simp

theorem length_le_writeMembers (o : Object) : o.length ≤ (writeMembers o).length := by
  induction o with
  | nil => exact Nat.zero_le _
  | cons m ms ih =>
    cases ms with
    | nil => simp [writeMembers]
    | cons m' ms =>
      simp only [writeMembers, List.length_append, List.length_cons] at ih ⊢
      omega

theorem writeMembers_cons (m : String × Value) (ms : Object) :
    ∃ cs, writeMembers (m :: ms) = quote :: cs := by
  cases ms with
  | nil => exact ⟨_, rfl⟩
  | cons m' ms => exact ⟨_, rfl⟩

/-- Reading takes back what was written. -/
theorem loads_dumps (o : Object) : loads (dumps o) = some o := by
  have hopen : skip (dumps o) = '{' :: writeMembers o := skip_cons (by decide) _
  rw [loads, hopen]
  simp only [if_true]
  cases o with
  | nil => rfl
  | cons m ms =>
    obtain ⟨cs, hcs⟩ := writeMembers_cons m ms
    have hread := readMembers_writeMembers (List.cons_ne_nil m ms)
      ((length_le_writeMembers (m :: ms)).trans (Nat.le_succ _)) []
    rw [List.append_nil, hcs] at hread
    have hskip : skip (quote :: cs) = quote :: cs := skip_cons (by decide) _
    have hbrace : quote ≠ '}' := by decide
    rw [List.length_cons] at hread
    simp only [dumps, hcs, hskip, hbrace, if_false, List.length_cons, hread, Option.bind_some]
    rfl

/-! ### Printable text -/

/-- A printable ASCII character. -/
def Printable (c : Char) : Prop := 32 ≤ c.toNat ∧ c.toNat < 127

instance : DecidablePred Printable := fun _ => inferInstanceAs (Decidable (_ ∧ _))

theorem printable_hexDigit {n : ℕ} (h : n < 16) : Printable (hexDigit n) := by
  have hall : ∀ n < 16, Printable (hexDigit n) := by decide +kernel
  exact hall n h

theorem printable_of_all {l : List Char} (h : (l.all fun c => decide (Printable c)) = true) :
    ∀ c ∈ l, Printable c := fun c hc => of_decide_eq_true (List.all_eq_true.mp h c hc)

theorem printable_escape (hu : u < 0x10000) : ∀ c ∈ escape u, Printable c := by
  rw [escape]
  split_ifs with h₁ h₂ h₃ h₄ h₅ h₆ h₇ h₈
  -- the escapes of one letter
  iterate 7 exact printable_of_all (by decide)
  · rintro c hc
    rw [List.mem_singleton.mp hc, Printable, toNat_ofNat_ascii (by omega)]
    exact h₈
  · rintro c hc
    simp only [List.mem_cons, List.not_mem_nil, or_false] at hc
    rcases hc with rfl | rfl | rfl | rfl | rfl | rfl
    · decide
    · decide
    · exact printable_hexDigit (by omega)
    · exact printable_hexDigit (by omega)
    · exact printable_hexDigit (by omega)
    · exact printable_hexDigit (by omega)

theorem printable_writeString (s : String) : ∀ c ∈ writeString s, Printable c := by
  rintro c hc
  simp only [writeString, List.cons_append, List.mem_cons, List.mem_append, List.mem_flatMap,
    List.not_mem_nil, or_false] at hc
  rcases hc with rfl | ⟨u, ⟨x, -, hu⟩, hc⟩ | rfl
  · decide
  · exact printable_escape (units_lt hu) c hc
  · decide

theorem printable_digit {d : ℕ} (h : d < 10) : Printable (digit d) := by
  rw [Printable, toNat_digit h]
  omega

theorem printable_writeNat (n : ℕ) : ∀ c ∈ writeNat n, Printable c := by
  rintro c hc
  rw [writeNat] at hc
  split at hc
  · exact List.mem_singleton.mp hc ▸ printable_digit (by decide)
  · obtain ⟨d, hd, rfl⟩ := List.mem_map.mp hc
    exact printable_digit (Nat.digits_lt_base (by decide) (List.mem_reverse.mp hd))

theorem printable_writeSign (n : ℤ) : ∀ c ∈ writeSign n, Printable c := by
  rw [writeSign]
  split <;> exact printable_of_all (by decide)

theorem printable_writeValue (v : Value) : ∀ c ∈ writeValue v, Printable c := by
  cases v with
  | null => exact printable_of_all (by decide)
  | str s => exact printable_writeString s
  | int n =>
    rintro c hc
    rcases List.mem_append.mp hc with hc | hc
    · exact printable_writeSign n c hc
    · exact printable_writeNat _ c hc
  | float n =>
    rintro c hc
    simp only [writeValue, List.mem_append, List.mem_cons, List.not_mem_nil, or_false] at hc
    rcases hc with (hc | hc) | rfl | rfl
    · exact printable_writeSign n c hc
    · exact printable_writeNat _ c hc
    · decide
    · exact printable_digit (Nat.mod_lt _ (by decide))

theorem printable_writeMember (m : String × Value) : ∀ c ∈ writeMember m, Printable c := by
  rintro c hc
  simp only [writeMember, List.mem_append, List.mem_cons, List.not_mem_nil, or_false] at hc
  rcases hc with (hc | rfl | rfl) | hc
  · exact printable_writeString _ c hc
  · decide
  · decide
  · exact printable_writeValue _ c hc

theorem printable_writeMembers (o : Object) : ∀ c ∈ writeMembers o, Printable c := by
  induction o with
  | nil => exact printable_of_all (by decide)
  | cons m ms ih =>
    cases ms with
    | nil =>
      rintro c hc
      rcases List.mem_append.mp hc with hc | hc
      · exact printable_writeMember m c hc
      · exact List.mem_singleton.mp hc ▸ by decide
    | cons m' ms =>
      rintro c hc
      simp only [writeMembers, List.mem_append, List.mem_cons, List.not_mem_nil, or_false] at hc ih
      rcases hc with (hc | rfl | rfl) | hc
      · exact printable_writeMember m c hc
      · decide
      · decide
      · exact ih c hc

/-- What is written is printable ASCII. -/
theorem printable_dumps (o : Object) : ∀ c ∈ dumps o, Printable c := by
  rintro c hc
  rcases List.mem_cons.mp hc with rfl | hc
  · decide
  · exact printable_writeMembers o c hc

end Json
