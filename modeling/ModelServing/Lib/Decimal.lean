import ModelServing.Lib.Json

/-! Decimal numbers as text: integers, and floats as `repr` writes them, with the fewest digits and from
    10¹⁶ on with an exponent. The reader takes a sign, digits, a point and an exponent; it takes back
    what was written. -/

namespace Decimal

open Json

/-- An integer, or `n / 10 ^ places` as a float, for up to four places. -/
inductive Number where
  | int (n : ℤ)
  | float (places : ℕ) (n : ℤ)
  deriving DecidableEq

def Number.value : Number → ℚ
  | .int n => n
  | .float places n => n / 10 ^ places

/-! ### Writing -/

/-- The last `k` digits of `n`. -/
def padded : ℕ → ℕ → List ℕ
  | 0, _ => []
  | k + 1, n => padded k (n / 10) ++ [n % 10]

/-- The digits of `n / 10 ^ k` after the point: no zeros at the end, but at least one digit. -/
def fraction : ℕ → ℕ → List ℕ
  | 0, _ => [0]
  | k + 1, n => if n % 10 = 0 then fraction k (n / 10) else padded (k + 1) n

/-- All digits of `n`. -/
def whole (n : ℕ) : List ℕ := if n = 0 then [0] else (Nat.digits 10 n).reverse

def positional (places n : ℕ) : List Char :=
  (whole (n / 10 ^ places)).map digit ++ '.' :: (fraction places (n % 10 ^ places)).map digit

/-- One digit before the point, and no point after which there is nothing. -/
def scientific (places n : ℕ) : List Char :=
  let k := Nat.log 10 n
  (whole (n / 10 ^ k)).map digit ++
    (if n % 10 ^ k = 0 then [] else '.' :: (fraction k (n % 10 ^ k)).map digit) ++
    'e' :: '+' :: (whole (k - places)).map digit

def Number.write : Number → List Char
  | .int n => writeSign n ++ (whole n.natAbs).map digit
  | .float places n =>
    writeSign n ++ if n.natAbs < 10 ^ (16 + places) then positional places n.natAbs else scientific places n.natAbs

/-! ### Reading -/

def ofDigits (ds : List ℕ) : ℕ := ds.foldl (fun n d => n * 10 + d) 0

def number (cs : List Char) : ℕ := ofDigits (cs.map fun c => c.toNat - 48)

def readExponent : List Char → Option ℤ
  | [] => some 0
  | c :: cs =>
    let ds := if cs.head? = some '-' ∨ cs.head? = some '+' then cs.tail else cs
    if (c = 'e' ∨ c = 'E') ∧ ds ≠ [] ∧ ds.all isDigit then
      some (if cs.head? = some '-' then -number ds else number ds)
    else none

def readUnsigned (cs : List Char) : Option ℚ :=
  let before := cs.takeWhile isDigit
  let rest := cs.dropWhile isDigit
  let after := if rest.head? = some '.' then rest.tail.takeWhile isDigit else []
  let rest := if rest.head? = some '.' then rest.tail.dropWhile isDigit else rest
  if before ++ after = [] then none
  else (readExponent rest).map fun e : ℤ => number (before ++ after) * 10 ^ (e - after.length)

def read (cs : List Char) : Option ℚ :=
  if cs.head? = some '-' then (readUnsigned cs.tail).map (-·)
  else if cs.head? = some '+' then readUnsigned cs.tail
  else readUnsigned cs

example : [Number.float 2 (-1250), .float 3 5, .float 1 (12 * 10 ^ 18), .int 7].map
    (fun x => String.ofList x.write) = ["-12.5", "0.005", "1.2e+18", "7"] := by decide +kernel

/-! ### Digits -/

variable {ds : List ℕ} {k n places : ℕ} {rest : List Char}

theorem ofDigits_singleton (d : ℕ) : ofDigits [d] = d := by simp [ofDigits]

theorem ofDigits_append (ds es : List ℕ) : ofDigits (ds ++ es) = ofDigits ds * 10 ^ es.length + ofDigits es := by
  induction es using List.reverseRecOn with
  | nil => simp [ofDigits]
  | append_singleton es e ih =>
    have hlast : ∀ l : List ℕ, ofDigits (l ++ [e]) = ofDigits l * 10 + e := fun l => by simp [ofDigits]
    rw [← List.append_assoc, hlast, hlast, ih, List.length_append, List.length_singleton, pow_succ]
    ring

theorem number_map (h : ∀ d ∈ ds, d < 10) : number (ds.map digit) = ofDigits ds := by
  rw [number, List.map_map]
  congr 1
  refine (List.map_congr_left fun d hd => ?_).trans (List.map_id ds)
  rw [Function.comp_apply, toNat_digit (h d hd), Nat.add_sub_cancel_left, id]

theorem length_padded : ∀ k n, (padded k n).length = k
  | 0, _ => rfl
  | k + 1, n => by rw [padded, List.length_append, length_padded k, List.length_singleton]

theorem ofDigits_padded : ∀ {k n}, n < 10 ^ k → ofDigits (padded k n) = n
  | 0, n, h => by
      obtain rfl : n = 0 := by simpa using h
      rfl
  | k + 1, n, h => by
      have hdiv : n / 10 < 10 ^ k := Nat.div_lt_of_lt_mul (by rwa [pow_succ, Nat.mul_comm] at h)
      rw [padded, ofDigits_append, ofDigits_padded hdiv, ofDigits_singleton, List.length_singleton, pow_one,
        Nat.div_add_mod']

theorem lt_of_mem_padded {d : ℕ} : ∀ {k n}, d ∈ padded k n → d < 10
  | 0, _, h => absurd h List.not_mem_nil
  | k + 1, n, h => by
      rcases List.mem_append.mp h with h | h
      · exact lt_of_mem_padded h
      · rw [List.mem_singleton.mp h]
        exact Nat.mod_lt _ (by decide)

theorem lt_of_mem_fraction {d : ℕ} : ∀ {k n}, d ∈ fraction k n → d < 10
  | 0, _, h => by
      rw [List.mem_singleton.mp h]
      decide
  | k + 1, n, h => by
      rw [fraction] at h
      split at h
      · exact lt_of_mem_fraction h
      · exact lt_of_mem_padded h

/-- The zeros that are left out make no difference. -/
theorem ofDigits_fraction : ∀ {k n}, n < 10 ^ k →
    (ofDigits (fraction k n) : ℚ) / 10 ^ (fraction k n).length = n / 10 ^ k
  | 0, n, h => by
      obtain rfl : n = 0 := by simpa using h
      simp [fraction, ofDigits]
  | k + 1, n, h => by
      rw [fraction]
      split
      · rename_i hmod
        have hdiv : n / 10 < 10 ^ k := Nat.div_lt_of_lt_mul (by rwa [pow_succ, Nat.mul_comm] at h)
        have hn : (n : ℚ) = (n / 10 : ℕ) * 10 := by
          rw [Nat.cast_div_charZero (Nat.dvd_of_mod_eq_zero hmod)]
          norm_num
        rw [ofDigits_fraction hdiv, hn, pow_succ, mul_div_mul_right _ _ (by norm_num)]
      · rw [ofDigits_padded h, length_padded]

theorem whole_ne_nil (n : ℕ) : whole n ≠ [] := by
  rw [whole]
  split
  · exact List.cons_ne_nil _ _
  · rename_i h
    simpa [Nat.digits_ne_nil_iff_ne_zero] using h

theorem ofDigits_whole (n : ℕ) : ofDigits (whole n) = n := by
  rw [whole]
  split
  · rename_i h
    rw [h, ofDigits_singleton]
  · exact foldl_digits n

theorem lt_of_mem_whole {d : ℕ} (h : d ∈ whole n) : d < 10 := by
  rw [whole] at h
  split at h
  · rw [List.mem_singleton.mp h]
    decide
  · exact Nat.digits_lt_base (by decide) (List.mem_reverse.mp h)

/-! ### Reading back -/

/-- A word is taken off up to where it stops. -/
theorem span_append {p : Char → Bool} {w : List Char} (rest : List Char) (hw : ∀ c ∈ w, p c = true)
    (hrest : ∀ c cs, rest = c :: cs → p c = false) :
    (w ++ rest).takeWhile p = w ∧ (w ++ rest).dropWhile p = rest := by
  rw [List.takeWhile_append_of_pos hw, List.dropWhile_append_of_pos hw]
  cases rest with
  | nil => simp
  | cons c cs => simp [hrest c cs rfl]

theorem isDigit_of_mem {c : Char} (h : ∀ d ∈ ds, d < 10) (hc : c ∈ ds.map digit) : isDigit c = true := by
  obtain ⟨d, hd, rfl⟩ := List.mem_map.mp hc
  exact isDigit_digit (h d hd)

theorem takeWhile_digits (h : ∀ d ∈ ds, d < 10) (hrest : Ends rest) :
    (ds.map digit ++ rest).takeWhile isDigit = ds.map digit ∧ (ds.map digit ++ rest).dropWhile isDigit = rest :=
  span_append rest (fun _ hc => isDigit_of_mem h hc) hrest

theorem ends_nil : Ends [] := fun _ _ h => by cases h

theorem ends_of_head {c : Char} (cs : List Char) (h : isDigit c = false) : Ends (c :: cs) := by
  rintro d ds heq
  cases heq
  exact h

theorem readExponent_plus (n : ℕ) : readExponent ('e' :: '+' :: (whole n).map digit) = some (n : ℤ) := by
  have hall : ((whole n).map digit).all isDigit = true :=
    List.all_eq_true.mpr fun c hc => isDigit_of_mem (fun d hd => lt_of_mem_whole hd) hc
  have hne : (whole n).map digit ≠ [] := by simpa using whole_ne_nil n
  simp [readExponent, hall, hne, number_map fun d hd => lt_of_mem_whole hd, ofDigits_whole]

theorem readUnsigned_whole (n : ℕ) (hrest : Ends rest) (hpoint : rest.head? ≠ some '.') :
    readUnsigned ((whole n).map digit ++ rest) = (readExponent rest).map fun e : ℤ => (n : ℚ) * 10 ^ e := by
  obtain ⟨htake, hdrop⟩ := takeWhile_digits (fun d hd => lt_of_mem_whole (n := n) hd) hrest
  have hne : (whole n).map digit ++ [] ≠ [] := by simpa using whole_ne_nil n
  simp only [readUnsigned, htake, hdrop, if_neg hpoint, if_neg hne]
  rw [List.append_nil, number_map fun d hd => lt_of_mem_whole hd, ofDigits_whole]
  simp

theorem readUnsigned_point (n : ℕ) {k r : ℕ} (hr : r < 10 ^ k) (hrest : Ends rest) :
    readUnsigned ((whole n).map digit ++ '.' :: ((fraction k r).map digit ++ rest)) =
      (readExponent rest).map fun e : ℤ => ((n : ℚ) + r / 10 ^ k) * 10 ^ e := by
  obtain ⟨htake, hdrop⟩ := takeWhile_digits (fun d hd => lt_of_mem_whole (n := n) hd)
    (ends_of_head ((fraction k r).map digit ++ rest) (by decide : isDigit '.' = false))
  obtain ⟨htake', hdrop'⟩ := takeWhile_digits (fun d hd => lt_of_mem_fraction (k := k) (n := r) hd) hrest
  have hne : (whole n).map digit ++ (fraction k r).map digit ≠ [] := by simp [whole_ne_nil]
  have hlt : ∀ d ∈ whole n ++ fraction k r, d < 10 := fun d hd =>
    (List.mem_append.mp hd).elim lt_of_mem_whole lt_of_mem_fraction
  simp only [readUnsigned, htake, hdrop, List.head?_cons, if_true, List.tail_cons, htake', hdrop', if_neg hne]
  congr 1
  funext e
  have hten : (10 : ℚ) ^ (fraction k r).length ≠ 0 := by positivity
  rw [← List.map_append, number_map hlt, ofDigits_append, ofDigits_whole, List.length_map, zpow_sub₀ (by norm_num),
    zpow_natCast, ← ofDigits_fraction hr]
  push_cast
  field_simp

theorem div_add_mod_div {m : ℕ} (n : ℕ) (hm : 0 < m) : ((n / m : ℕ) : ℚ) + (n % m : ℕ) / m = n / m := by
  have hsplit : (m * (n / m : ℕ) + (n % m : ℕ) : ℚ) = n := by exact_mod_cast Nat.div_add_mod n m
  rw [eq_div_iff (by positivity), add_mul, div_mul_cancel₀ _ (by positivity), mul_comm, hsplit]

theorem readUnsigned_positional (places n : ℕ) :
    readUnsigned (positional places n) = some ((n : ℚ) / 10 ^ places) := by
  have hpos : 0 < 10 ^ places := by positivity
  have hread := readUnsigned_point (n / 10 ^ places) (Nat.mod_lt n hpos) ends_nil
  have hsum := div_add_mod_div n hpos
  push_cast at hsum
  rw [List.append_nil] at hread
  rw [positional, hread, readExponent, Option.map_some, zpow_zero, mul_one]
  exact_mod_cast congrArg some hsum

theorem readUnsigned_scientific (h : 10 ^ places ≤ n) :
    readUnsigned (scientific places n) = some ((n : ℚ) / 10 ^ places) := by
  have hpos : 0 < 10 ^ Nat.log 10 n := by positivity
  have hplaces : places ≤ Nat.log 10 n :=
    Nat.le_log_of_pow_le (by decide) h
  have hsum := div_add_mod_div n hpos
  have hends : Ends ('e' :: '+' :: (whole (Nat.log 10 n - places)).map digit) := ends_of_head _ (by decide)
  have hexp : ∀ x : ℚ, x * 10 ^ Nat.log 10 n = n →
      x * 10 ^ ((Nat.log 10 n - places : ℕ) : ℤ) = (n : ℚ) / 10 ^ places := by
    intro x hx
    rw [zpow_natCast, ← hx, ← pow_sub_mul_pow 10 hplaces, ← mul_assoc, mul_div_cancel_right₀ _ (by positivity)]
  rw [scientific]
  split
  · rename_i hmod
    rw [List.append_nil, readUnsigned_whole _ hends (by simp), readExponent_plus, Option.map_some]
    refine congrArg some (hexp _ ?_)
    exact_mod_cast Nat.div_mul_cancel (Nat.dvd_of_mod_eq_zero hmod)
  · have hread := readUnsigned_point (n / 10 ^ Nat.log 10 n) (Nat.mod_lt n hpos) hends
    rw [List.append_assoc, List.cons_append, hread, readExponent_plus, Option.map_some]
    refine congrArg some (hexp _ ?_)
    push_cast at hsum ⊢
    rw [hsum, div_mul_cancel₀ _ (by positivity)]

/-- What starts with a digit has no sign. -/
theorem read_sign {m : ℕ} {x : ℚ} (n : ℤ) (h : readUnsigned ((whole m).map digit ++ rest) = some x) :
    read (writeSign n ++ ((whole m).map digit ++ rest)) = some (if n < 0 then -x else x) := by
  obtain ⟨d, ds, hds⟩ := List.exists_cons_of_ne_nil (whole_ne_nil m)
  have hd : isDigit (digit d) = true := isDigit_digit (lt_of_mem_whole (n := m) (hds ▸ List.mem_cons_self))
  have hminus : digit d ≠ '-' := fun heq => by
    rw [heq] at hd
    exact absurd hd (by decide)
  have hplus : digit d ≠ '+' := fun heq => by
    rw [heq] at hd
    exact absurd hd (by decide)
  rw [writeSign]
  split
  · rw [List.singleton_append, read, List.head?_cons, if_pos rfl, List.tail_cons, h, Option.map_some]
  · rw [hds, List.map_cons, List.cons_append] at h
    rw [hds, List.nil_append, List.map_cons, List.cons_append, read, List.head?_cons,
      if_neg fun heq => hminus (Option.some.inj heq), if_neg fun heq => hplus (Option.some.inj heq), h]

theorem sign_natAbs (n : ℤ) (places : ℕ) :
    (if n < 0 then -((n.natAbs : ℚ) / 10 ^ places) else (n.natAbs : ℚ) / 10 ^ places) = n / 10 ^ places := by
  split
  · rename_i h
    rw [Nat.cast_natAbs, abs_of_neg h]
    push_cast
    ring
  · rename_i h
    rw [Nat.cast_natAbs, abs_of_nonneg (not_lt.mp h)]

/-- The reader takes back what was written. -/
theorem read_write (x : Number) : read x.write = some x.value := by
  cases x with
  | int n =>
    have hread := readUnsigned_whole n.natAbs ends_nil (by simp)
    have hsign := sign_natAbs n 0
    simp only [readExponent, Option.map_some, zpow_zero, mul_one] at hread
    simp only [pow_zero, div_one] at hsign
    have hall := read_sign n hread
    rw [List.append_nil, hsign] at hall
    exact hall
  | float places n =>
    rw [Number.write, Number.value, ← sign_natAbs]
    split
    · exact read_sign n (readUnsigned_positional places n.natAbs)
    · rename_i hlarge
      have hle : 10 ^ places ≤ n.natAbs :=
        (Nat.pow_le_pow_right (by decide) (Nat.le_add_left places 16)).trans (not_lt.mp hlarge)
      have hread := readUnsigned_scientific hle
      rw [scientific, List.append_assoc] at hread ⊢
      exact read_sign n hread

/-- The characters of a number. -/
theorem mem_write {x : Number} {c : Char} (h : c ∈ x.write) : isDigit c = true ∨ c ∈ ['-', '.', 'e', '+'] := by
  have hwhole : ∀ {n}, c ∈ (whole n).map digit → isDigit c = true :=
    isDigit_of_mem fun d hd => lt_of_mem_whole hd
  have hfraction : ∀ {k n}, c ∈ (fraction k n).map digit → isDigit c = true :=
    isDigit_of_mem fun d hd => lt_of_mem_fraction hd
  have hsign : ∀ {n}, c ∈ writeSign n → c ∈ ['-', '.', 'e', '+'] := by
    intro n hc
    rw [writeSign] at hc
    split at hc
    · rw [List.mem_singleton.mp hc]
      decide
    · cases hc
  cases x with
  | int n => exact (List.mem_append.mp h).elim (fun h => Or.inr (hsign h)) fun h => Or.inl (hwhole h)
  | float places n =>
    rcases List.mem_append.mp h with h | h
    · exact Or.inr (hsign h)
    · split at h
      · rcases List.mem_append.mp h with h | h
        · exact Or.inl (hwhole h)
        · rcases List.mem_cons.mp h with rfl | h
          · exact Or.inr (by decide)
          · exact Or.inl (hfraction h)
      · rcases List.mem_append.mp h with h | h
        · rcases List.mem_append.mp h with h | h
          · exact Or.inl (hwhole h)
          · split at h
            · cases h
            · rcases List.mem_cons.mp h with rfl | h
              · exact Or.inr (by decide)
              · exact Or.inl (hfraction h)
        · rcases List.mem_cons.mp h with rfl | h
          · exact Or.inr (by decide)
          · rcases List.mem_cons.mp h with rfl | h
            · exact Or.inr (by decide)
            · exact Or.inl (hwhole h)

end Decimal
