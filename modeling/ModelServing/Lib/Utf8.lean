import Mathlib

/-! UTF-8, with U+FFFD for what is not a character. The decoder reads byte by byte; a byte that cannot go
    on with a character, or the end of the input, ends it early. Two parts decoded separately give what
    they give together unless the first ends inside a character that the second goes on with; then
    they give more. -/

namespace Utf8

def replacement : Char := Char.ofNat 0xFFFD

/-- A character with bytes missing: its bits so far, the range of the next byte, and how many come after
    that one. -/
structure Pending where
  bits : ℕ
  lo : ℕ
  hi : ℕ
  more : ℕ
  lo_le : 0x80 ≤ lo
  hi_le : hi ≤ 0xBF

/-- `b` goes on with the character. -/
def Pending.takes (p : Pending) (b : UInt8) : Bool := decide (p.lo ≤ b.toNat ∧ b.toNat ≤ p.hi)

/-- A byte where a character starts: what it gives, and what is pending. -/
def lead (b : UInt8) : List Char × Option Pending :=
  let n := b.toNat
  if n < 0x80 then ([Char.ofNat n], none)
  else if 0xC2 ≤ n ∧ n ≤ 0xDF then ([], some ⟨n - 0xC0, 0x80, 0xBF, 0, le_rfl, le_rfl⟩)
  else if n = 0xE0 then ([], some ⟨0, 0xA0, 0xBF, 1, by decide, le_rfl⟩)
  else if n = 0xED then ([], some ⟨0xD, 0x80, 0x9F, 1, le_rfl, by decide⟩)
  else if 0xE1 ≤ n ∧ n ≤ 0xEF then ([], some ⟨n - 0xE0, 0x80, 0xBF, 1, le_rfl, le_rfl⟩)
  else if n = 0xF0 then ([], some ⟨0, 0x90, 0xBF, 2, by decide, le_rfl⟩)
  else if 0xF1 ≤ n ∧ n ≤ 0xF3 then ([], some ⟨n - 0xF0, 0x80, 0xBF, 2, le_rfl, le_rfl⟩)
  else if n = 0xF4 then ([], some ⟨4, 0x80, 0x8F, 2, le_rfl, by decide⟩)
  else ([replacement], none)

/-- The next byte of a character. -/
def Pending.read (p : Pending) (b : UInt8) : List Char × Option Pending :=
  let bits := p.bits * 0x40 + (b.toNat - 0x80)
  match p.more with
  | 0 => ([Char.ofNat bits], none)
  | more + 1 => ([], some ⟨bits, 0x80, 0xBF, more, le_rfl, le_rfl⟩)

def step : Option Pending → UInt8 → List Char × Option Pending
  | none, b => lead b
  | some p, b => if p.takes b then p.read b else (replacement :: (lead b).1, (lead b).2)

/-- The characters of `bs` when `s` is pending. -/
def decodeFrom : Option Pending → List UInt8 → List Char
  | none, [] => []
  | some _, [] => [replacement]
  | s, b :: bs => (step s b).1 ++ decodeFrom (step s b).2 bs

def decode (bs : List UInt8) : List Char := decodeFrom none bs

/-- What is pending after `bs`. -/
def after : Option Pending → List UInt8 → Option Pending
  | s, [] => s
  | s, b :: bs => after (step s b).2 bs

/-- `bs` ends inside a character that `cs` goes on with. -/
def continues (bs cs : List UInt8) : Bool :=
  match after none bs, cs with
  | some p, c :: _ => p.takes c
  | _, _ => false

example : decode [0x61, 0xC3, 0xA9, 0xE2, 0x82, 0xAC, 0xF0, 0x9F, 0x98, 0x80] = "aé€😀".toList := by
  decide

/-- Overlong, a surrogate, out of range, cut short. -/
example : decode [0xC0, 0x80, 0xED, 0xA0, 0x80, 0xF5, 0xF0, 0x9F, 0x98, 0x61] =
    List.replicate 7 replacement ++ ['a'] := by decide

variable {p : Pending} {s : Option Pending} {b : UInt8} {bs cs : List UInt8}

/-! ### One byte -/

theorem lead_of_takes (h : p.takes b) : lead b = ([replacement], none) := by
  have hlo := p.lo_le
  have hhi := p.hi_le
  obtain ⟨h₁, h₂⟩ := of_decide_eq_true h
  simp only [lead]
  repeat rw [if_neg (by omega)]

/-- A byte where a character starts gives one or leaves one pending. -/
theorem lead_cases (b : UInt8) : (∃ c, lead b = ([c], none)) ∨ ∃ p, lead b = ([], some p) := by
  simp only [lead]
  split_ifs <;> simp

theorem read_cases (p : Pending) (b : UInt8) :
    (∃ c, p.read b = ([c], none)) ∨ ∃ p', p.read b = ([], some p') := by
  simp only [Pending.read]
  split <;> simp

/-! ### All bytes -/

theorem decodeFrom_append (s : Option Pending) (bs cs : List UInt8) :
    ∃ out, decodeFrom s bs = out ++ decodeFrom (after s bs) [] ∧
      decodeFrom s (bs ++ cs) = out ++ decodeFrom (after s bs) cs := by
  induction bs generalizing s with
  | nil => exact ⟨[], rfl, rfl⟩
  | cons b bs ih =>
    obtain ⟨out, h₁, h₂⟩ := ih (step s b).2
    refine ⟨(step s b).1 ++ out, ?_, ?_⟩
    · cases s <;> simp only [decodeFrom, after, h₁, List.append_assoc]
    · cases s <;> simp only [decodeFrom, after, List.cons_append, h₂, List.append_assoc]

/-- What is pending and not gone on with is replaced. -/
theorem decodeFrom_some_cons (h : p.takes b = false) :
    decodeFrom (some p) (b :: bs) = replacement :: decodeFrom none (b :: bs) := by
  simp [decodeFrom, step, h]

theorem decodeFrom_some_ne_nil (p : Pending) (bs : List UInt8) : decodeFrom (some p) bs ≠ [] := by
  induction bs generalizing p with
  | nil => simp [decodeFrom]
  | cons b bs ih =>
    cases h : p.takes b with
    | false => simp [decodeFrom_some_cons h]
    | true => rcases read_cases p b with ⟨c, hc⟩ | ⟨p', hp⟩ <;> simp [decodeFrom, step, *]

theorem decode_eq_nil_iff : decode bs = [] ↔ bs = [] := by
  cases bs with
  | nil => simp [decode, decodeFrom]
  | cons b bs =>
    rcases lead_cases b with ⟨c, hc⟩ | ⟨p, hp⟩ <;>
      simp [decode, decodeFrom, step, decodeFrom_some_ne_nil, *]

/-- What goes on with a character makes one by itself where none is pending. -/
theorem decodeFrom_none_cons (h : p.takes b = true) :
    decodeFrom none (b :: bs) = replacement :: decodeFrom none bs := by
  simp [decodeFrom, step, lead_of_takes h]

theorem length_read_lt (h : p.takes b = true)
    (hle : ∀ p, (decodeFrom (some p) bs).length ≤ (decodeFrom none bs).length + 1) :
    (decodeFrom (some p) (b :: bs)).length < (decodeFrom none (b :: bs)).length + 1 := by
  rw [decodeFrom_none_cons h]
  rcases read_cases p b with ⟨c, hc⟩ | ⟨p', hp⟩
  · simp [decodeFrom, step, h, hc]
  · have := hle p'
    simp [decodeFrom, step, h, hp]
    omega

/-- A pending character makes one character at most, -/
theorem length_decodeFrom_some_le (p : Pending) (bs : List UInt8) :
    (decodeFrom (some p) bs).length ≤ (decodeFrom none bs).length + 1 := by
  induction bs generalizing p with
  | nil => simp [decodeFrom]
  | cons b bs ih =>
    cases h : p.takes b with
    | false => simp [decodeFrom_some_cons h]
    | true => exact (length_read_lt h ih).le

/-- and none if the bytes go on with it. -/
theorem length_decodeFrom_some_lt (h : p.takes b = true) (bs : List UInt8) :
    (decodeFrom (some p) (b :: bs)).length < (decodeFrom none (b :: bs)).length + 1 :=
  length_read_lt h fun p => length_decodeFrom_some_le p bs

/-! ### Two parts -/

theorem decode_append_of_not (h : continues bs cs = false) :
    decode (bs ++ cs) = decode bs ++ decode cs := by
  obtain ⟨out, h₁, h₂⟩ := decodeFrom_append none bs cs
  rw [decode, decode, decode, h₁, h₂]
  cases hp : after none bs with
  | none => simp [decodeFrom]
  | some p =>
    cases cs with
    | nil => simp [decodeFrom]
    | cons c cs =>
      have hc : p.takes c = false := by simpa [continues, hp] using h
      rw [decodeFrom_some_cons hc]
      simp [decodeFrom]

theorem length_decode_append_lt (h : continues bs cs = true) :
    (decode (bs ++ cs)).length < (decode bs).length + (decode cs).length := by
  obtain ⟨out, h₁, h₂⟩ := decodeFrom_append none bs cs
  rw [decode, decode, decode, h₁, h₂]
  cases hp : after none bs with
  | none => simp [continues, hp] at h
  | some p =>
    cases cs with
    | nil => simp [continues, hp] at h
    | cons c cs =>
      have hc : p.takes c = true := by simpa [continues, hp] using h
      have := length_decodeFrom_some_lt hc cs
      simp only [List.length_append, decodeFrom, List.length_singleton] at this ⊢
      omega

theorem length_decode_append_le (bs cs : List UInt8) :
    (decode (bs ++ cs)).length ≤ (decode bs).length + (decode cs).length := by
  cases h : continues bs cs with
  | false => rw [decode_append_of_not h, List.length_append]
  | true => exact (length_decode_append_lt h).le

/-! ### Any number of parts -/

/-- No part ends inside a character that the next one goes on with. -/
def Whole (parts : List (List UInt8)) : Prop :=
  ∀ pre bs post, parts = pre ++ bs :: post → continues pre.flatten bs = false

variable {parts : List (List UInt8)}

theorem whole_concat : Whole (parts ++ [bs]) ↔ Whole parts ∧ continues parts.flatten bs = false := by
  constructor
  · refine fun h => ⟨fun pre cs post heq => h pre cs (post ++ [bs]) ?_, h parts bs [] rfl⟩
    rw [heq, List.append_assoc, List.cons_append]
  · rintro ⟨h, hlast⟩ pre cs post heq
    rcases List.eq_nil_or_concat' post with rfl | ⟨post, x, rfl⟩
    · obtain ⟨rfl, hbs⟩ := List.append_inj' heq rfl
      exact (List.cons.inj hbs).1 ▸ hlast
    · rw [← List.cons_append, ← List.append_assoc] at heq
      exact h pre cs post (List.append_inj' heq rfl).1

theorem length_decode_flatten_le (parts : List (List UInt8)) :
    (decode parts.flatten).length ≤ (parts.flatMap decode).length := by
  induction parts using List.reverseRecOn with
  | nil => simp [decode, decodeFrom]
  | append_singleton parts bs ih =>
    have := length_decode_append_le parts.flatten bs
    simp only [List.flatten_append, List.flatten_singleton, List.flatMap_append, List.flatMap_singleton,
      List.length_append]
    omega

/-- Parts can be decoded one by one exactly when they are whole. -/
theorem decode_flatten_iff : decode parts.flatten = parts.flatMap decode ↔ Whole parts := by
  induction parts using List.reverseRecOn with
  | nil => simp [decode, decodeFrom, Whole]
  | append_singleton parts bs ih =>
    rw [whole_concat, ← ih, List.flatten_append, List.flatten_singleton, List.flatMap_append,
      List.flatMap_singleton]
    cases h : continues parts.flatten bs with
    | false => simp [decode_append_of_not h]
    | true =>
      refine iff_of_false (fun heq => ?_) (by simp)
      have hlt := length_decode_append_lt h
      have hle := length_decode_flatten_le parts
      rw [heq, List.length_append] at hlt
      omega

end Utf8
