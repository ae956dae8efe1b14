import Aesd.Lib.CString
import Mathlib.Algebra.Order.Ring.Nat

/-!
# Tokens and numbers in a string

`strtok` with one delimiter and `strtoul` in base ten, at an offset of a region.
-/

namespace CString

/-- `strtok` at offset `p`: the token's offset, the region with the token's end cut off,
and the offset saved for the next call. -/
def strtok (delim : UInt8) (m : Region) (p : ℕ) : Option (Option ℕ × Region × ℕ) :=
  let start := p + ((m.drop p).takeWhile (· = delim)).length
  let stop := start + ((m.drop start).takeWhile fun b => b ≠ delim ∧ b ≠ 0).length
  match m[stop]? with
  | none => none
  | some b =>
    if stop = start then some (none, m, start)
    else if b = 0 then some (some start, m, stop)
    else some (some start, m.set stop 0, stop + 1)

def isSpace (b : UInt8) : Bool := b = 32 || (9 ≤ b && b ≤ 13)

def isDigit (b : UInt8) : Bool := 48 ≤ b && b ≤ 57

def decimal (digits : List UInt8) : ℕ := digits.foldl (fun n b => 10 * n + (b.toNat - 48)) 0

/-- `strtoul` after the spaces and the sign: a value that does not fit becomes the largest. -/
def unsigned (neg : Bool) (s : List UInt8) : Option UInt64 :=
  let digits := s.takeWhile isDigit
  let value := decimal digits
  if digits.length = s.length then none
  else if 2 ^ 64 ≤ value then some (-1)
  else some (if neg then -UInt64.ofNat value else UInt64.ofNat value)

def strtoul (m : Region) (p : ℕ) : Option UInt64 :=
  match (m.drop p).dropWhile isSpace with
  | 45 :: s => unsigned true s
  | 43 :: s => unsigned false s
  | s => unsigned false s

section Strtok

variable {delim : UInt8} (before : List UInt8) {token : List UInt8} (rest : List UInt8)

def Plain (delim : UInt8) (token : List UInt8) : Prop := ∀ b ∈ token, b ≠ delim ∧ b ≠ 0

/-- A token and the byte behind it, at the offset where `strtok` starts. -/
theorem strtok_token (hne : token ≠ []) (hp : Plain delim token) {b : UInt8}
    (hb : b = delim ∨ b = 0) :
    strtok delim (before ++ token ++ b :: rest) before.length =
      if b = 0 then
        some (some before.length, before ++ token ++ b :: rest, before.length + token.length)
      else
        some (some before.length, before ++ token ++ 0 :: rest, before.length + token.length + 1) := by
  have hdrop : (before ++ token ++ b :: rest).drop before.length = token ++ b :: rest := by
    rw [List.append_assoc, List.drop_left]
  have hstart : (token ++ b :: rest).takeWhile (· = delim) = [] := by
    obtain ⟨c, cs, rfl⟩ := List.exists_cons_of_ne_nil hne
    have := (hp c List.mem_cons_self).1
    simp [this]
  have hstop : (token ++ b :: rest).takeWhile (fun b => b ≠ delim ∧ b ≠ 0) = token := by
    rw [List.takeWhile_append_of_pos fun c hc => by simpa using hp c hc]
    rcases hb with rfl | rfl <;> simp
  have hlen : token.length ≠ 0 := by simpa using hne
  have hget : (before ++ token ++ b :: rest)[before.length + token.length]? = some b := by
    simp
  have hset : (before ++ token ++ b :: rest).set (before.length + token.length) 0 =
      before ++ token ++ 0 :: rest := by
    rw [List.set_append_right _ _ (by simp)]
    simp
  simp only [strtok, hdrop, hstart, hstop, List.length_nil, Nat.add_zero, hget, hset,
    Nat.add_eq_left, hlen, if_false]

theorem strtok_cut (hne : token ≠ []) (hp : Plain delim token) (hd : delim ≠ 0) :
    strtok delim (before ++ token ++ delim :: rest) before.length =
      some (some before.length, before ++ token ++ 0 :: rest, before.length + token.length + 1) := by
  rw [strtok_token before rest hne hp (.inl rfl), if_neg hd]

theorem strtok_last (hne : token ≠ []) (hp : Plain delim token) :
    strtok delim (before ++ token ++ 0 :: rest) before.length =
      some (some before.length, before ++ token ++ 0 :: rest, before.length + token.length) := by
  rw [strtok_token before rest hne hp (.inr rfl), if_pos rfl]

theorem strtok_end (hd : delim ≠ 0) :
    strtok delim (before ++ 0 :: rest) before.length =
      some (none, before ++ 0 :: rest, before.length) := by
  simp [strtok, Ne.symm hd]

end Strtok

/-- `strtok` writes at its offset or behind it, and saves such an offset. -/
theorem strtok_take {delim : UInt8} {m m' : Region} {p saved : ℕ} {token : Option ℕ}
    (h : strtok delim m p = some (token, m', saved)) : p ≤ saved ∧ m'.take p = m.take p := by
  simp only [strtok] at h
  split at h
  · cases h
  · split_ifs at h
    all_goals
      simp only [Option.some.injEq, Prod.mk.injEq] at h
      obtain ⟨-, rfl, rfl⟩ := h
    · exact ⟨by omega, rfl⟩
    · exact ⟨by omega, rfl⟩
    · exact ⟨by omega, List.take_set_of_le (by omega)⟩

theorem isDigit_plain {c : UInt8} (h : isDigit c = true) :
    isSpace c = false ∧ c ≠ 45 ∧ c ≠ 43 ∧ c ≠ 44 ∧ c ≠ 0 := by
  simp only [isDigit, Bool.and_eq_true, decide_eq_true_eq, UInt8.le_iff_toNat_le] at h
  obtain ⟨hlo, hhi⟩ := h
  change 48 ≤ c.toNat at hlo
  change c.toNat ≤ 57 at hhi
  have hne : ∀ d : UInt8, d.toNat < 48 → c ≠ d := by
    rintro d hd rfl
    omega
  refine ⟨?_, hne _ (by decide), hne _ (by decide), hne _ (by decide), hne _ (by decide)⟩
  have h13 : ¬ c ≤ 13 := by
    rw [UInt8.le_iff_toNat_le]
    change ¬ c.toNat ≤ 13
    omega
  simp [isSpace, hne 32 (by decide), h13]

theorem strtoul_digits (before : List UInt8) {digits : List UInt8} {b : UInt8} (rest : List UInt8)
    (hne : digits ≠ []) (hd : ∀ c ∈ digits, isDigit c = true) (hb : isDigit b = false)
    (hv : decimal digits < 2 ^ 64) :
    strtoul (before ++ digits ++ b :: rest) before.length = some (UInt64.ofNat (decimal digits)) := by
  have hdrop : (before ++ digits ++ b :: rest).drop before.length = digits ++ b :: rest := by
    rw [List.append_assoc, List.drop_left]
  obtain ⟨c, cs, rfl⟩ := List.exists_cons_of_ne_nil hne
  obtain ⟨hspace, hminus, hplus, _⟩ := isDigit_plain (hd c List.mem_cons_self)
  have htake : ((c :: cs) ++ b :: rest).takeWhile isDigit = c :: cs := by
    rw [List.takeWhile_append_of_pos hd]
    simp [hb]
  have hunsigned : unsigned false ((c :: cs) ++ b :: rest) =
      some (UInt64.ofNat (decimal (c :: cs))) := by
    have hlen : (c :: cs).length ≠ ((c :: cs) ++ b :: rest).length := by simp
    simp only [unsigned, htake, if_neg hlen, if_neg (Nat.not_le.mpr hv), Bool.false_eq_true, if_false]
  rw [strtoul, hdrop, List.cons_append, List.dropWhile_cons_of_neg (by simp [hspace])]
  rw [← hunsigned, List.cons_append]
  split
  · simp_all
  · simp_all
  · rfl

section Fields

variable {delim : UInt8}

/-- The first non-empty field of a string, empty when there is none. -/
def field (delim : UInt8) (s : List UInt8) : List UInt8 :=
  (s.dropWhile (· = delim)).takeWhile (· ≠ delim)

/-- What follows the first non-empty field, from its delimiter on. -/
def afterField (delim : UInt8) (s : List UInt8) : List UInt8 :=
  (s.dropWhile (· = delim)).dropWhile (· ≠ delim)

theorem field_append (delim : UInt8) (s : List UInt8) :
    s.takeWhile (· = delim) ++ field delim s ++ afterField delim s = s := by
  rw [List.append_assoc, field, afterField, List.takeWhile_append_dropWhile,
    List.takeWhile_append_dropWhile]

theorem field_cons_delim (s : List UInt8) : field delim (delim :: s) = field delim s := by
  simp [field]

theorem afterField_cases (delim : UInt8) (s : List UInt8) :
    afterField delim s = [] ∨ ∃ t, afterField delim s = delim :: t := by
  cases h : afterField delim s with
  | nil => exact .inl rfl
  | cons b t =>
    have hne : afterField delim s ≠ [] := by simp [h]
    have hb := List.head_dropWhile_not (fun b => decide (b ≠ delim)) hne
    rw [decide_eq_false_iff_not, not_not] at hb
    change (afterField delim s).head hne = delim at hb
    simp only [h, List.head_cons] at hb
    exact .inr ⟨t, by rw [hb]⟩

/-- Without a non-empty field the string is all delimiters. -/
theorem afterField_of_field_eq_nil {s : List UInt8} (h : field delim s = []) :
    afterField delim s = [] := by
  cases hd : s.dropWhile (· = delim) with
  | nil => simp [afterField, hd]
  | cons b t =>
    have hne : s.dropWhile (· = delim) ≠ [] := by simp [hd]
    have hb := List.head_dropWhile_not (fun b => decide (b = delim)) hne
    simp only [hd, List.head_cons, decide_eq_false_iff_not] at hb
    simp [field, hd, hb] at h

theorem field_token {token rest : List UInt8} (hne : token ≠ []) (hp : ∀ b ∈ token, b ≠ delim)
    (hr : ∀ b, rest.head? = some b → b = delim) :
    field delim (token ++ rest) = token ∧ afterField delim (token ++ rest) = rest := by
  have hskip : (token ++ rest).dropWhile (· = delim) = token ++ rest := by
    obtain ⟨c, cs, rfl⟩ := List.exists_cons_of_ne_nil hne
    rw [List.cons_append, List.dropWhile_cons_of_neg (by simpa using hp c List.mem_cons_self)]
  have htake : rest.takeWhile (· ≠ delim) = [] := by
    cases rest with
    | nil => rfl
    | cons b t => simp [hr b rfl]
  have hfield : field delim (token ++ rest) = token := by
    rw [field, hskip, List.takeWhile_append_of_pos (by simpa using hp), htake, List.append_nil]
  refine ⟨hfield, ?_⟩
  have happend := List.takeWhile_append_dropWhile (p := (· ≠ delim)) (l := token ++ rest)
  rw [field, hskip] at hfield
  rw [hfield] at happend
  rw [afterField, hskip]
  exact List.append_cancel_left happend

theorem field_plain {s : List UInt8} (h : 0 ∉ s) : Plain delim (field delim s) := by
  intro b hb
  refine ⟨by simpa using List.mem_takeWhile_imp hb, ?_⟩
  rintro rfl
  exact h ((List.dropWhile_suffix _).subset ((List.takeWhile_prefix _).subset hb))

theorem strtok_skip {m tail : Region} {p n : ℕ} (h : m.drop p = List.replicate n delim ++ tail)
    (ht : ∀ b, tail.head? = some b → b ≠ delim) : strtok delim m p = strtok delim m (p + n) := by
  have htail : tail.takeWhile (· = delim) = [] := by
    cases tail with
    | nil => rfl
    | cons b t => simp [ht b rfl]
  have hdrop : m.drop (p + n) = tail := by
    rw [← List.drop_drop, h, List.drop_left' (by simp)]
  have hskip : (List.replicate n delim ++ tail).takeWhile (· = delim) = List.replicate n delim := by
    rw [List.takeWhile_append_of_pos (by simp), htail, List.append_nil]
  simp only [strtok, h, hskip, hdrop, htail, List.length_replicate, List.length_nil, Nat.add_zero]

theorem takeWhile_eq_replicate (s : List UInt8) :
    s.takeWhile (· = delim) = List.replicate (s.takeWhile (· = delim)).length delim := by
  rw [List.eq_replicate_iff]
  exact ⟨rfl, fun b hb => by simpa using List.mem_takeWhile_imp hb⟩

section String

variable (before rest : List UInt8) {s : List UInt8}

/-- The first token of a string is its first field, behind the leading delimiters. -/
theorem strtok_string (h0 : 0 ∉ s) (hd : delim ≠ 0) :
    strtok delim (before ++ s ++ 0 :: rest) before.length =
      strtok delim ((before ++ s.takeWhile (· = delim)) ++ field delim s ++
        (afterField delim s ++ 0 :: rest)) (before ++ s.takeWhile (· = delim)).length := by
  have hs : s = s.takeWhile (· = delim) ++ (field delim s ++ afterField delim s) := by
    rw [← List.append_assoc, field_append]
  have hm : before ++ s ++ 0 :: rest =
      (before ++ s.takeWhile (· = delim)) ++ field delim s ++ (afterField delim s ++ 0 :: rest) := by
    conv_lhs => rw [hs]
    simp only [List.append_assoc]
  have hdrop : (before ++ s ++ 0 :: rest).drop before.length =
      List.replicate (s.takeWhile (· = delim)).length delim ++
        (field delim s ++ (afterField delim s ++ 0 :: rest)) := by
    rw [hm, ← takeWhile_eq_replicate]
    simp only [List.append_assoc, List.drop_left]
  rw [List.length_append, ← hm]
  apply strtok_skip hdrop
  intro b hb
  -- behind the leading delimiters stands a field or the end of the string
  by_cases hf : field delim s = []
  · rw [hf, afterField_of_field_eq_nil hf] at hb
    simp only [List.nil_append, List.head?_cons, Option.some.injEq] at hb
    rw [← hb]
    exact Ne.symm hd
  · obtain ⟨c, cs, hc⟩ := List.exists_cons_of_ne_nil hf
    simp only [hc, List.cons_append, List.head?_cons, Option.some.injEq] at hb
    rw [← hb]
    exact (field_plain h0 c (by rw [hc]; exact List.mem_cons_self)).1

theorem strtok_string_none (h0 : 0 ∉ s) (hd : delim ≠ 0) (hf : field delim s = []) :
    ∃ m saved, strtok delim (before ++ s ++ 0 :: rest) before.length = some (none, m, saved) := by
  rw [strtok_string before rest h0 hd, hf, afterField_of_field_eq_nil hf, List.append_nil,
    List.nil_append, strtok_end _ _ hd]
  exact ⟨_, _, rfl⟩

/-- The token is a field ended by a zero byte, and the saved offset is where the string of
what follows the field begins. -/
theorem strtok_string_some (h0 : 0 ∉ s) (hd : delim ≠ 0) (hf : field delim s ≠ []) :
    ∃ token m saved before₁ rest₁ before₂ rest₂ next,
      strtok delim (before ++ s ++ 0 :: rest) before.length = some (some token, m, saved) ∧
      (m = before₁ ++ field delim s ++ 0 :: rest₁ ∧ token = before₁.length) ∧
      (m = before₂ ++ next ++ 0 :: rest₂ ∧ saved = before₂.length) ∧
      0 ∉ next ∧ field delim next = field delim (afterField delim s) := by
  have hplain : Plain delim (field delim s) := field_plain h0
  rw [strtok_string before rest h0 hd]
  set front := before ++ s.takeWhile (· = delim)
  rcases afterField_cases delim s with ha | ⟨t, ha⟩
  · rw [ha, List.nil_append, strtok_last _ _ hf hplain]
    refine ⟨_, _, _, front, rest, front ++ field delim s, rest, [], rfl, ⟨rfl, rfl⟩, ⟨?_, ?_⟩,
      by simp, rfl⟩
    · rw [List.append_nil]
    · exact List.length_append.symm
  · have ht : 0 ∉ t := fun h =>
      h0 (field_append delim s ▸ List.mem_append_right _ (ha ▸ List.mem_cons_of_mem _ h))
    rw [ha, List.cons_append, strtok_cut _ _ hf hplain hd]
    refine ⟨_, _, _, front, t ++ 0 :: rest, front ++ field delim s ++ [0], rest, t, rfl, ⟨rfl, rfl⟩,
      ⟨?_, ?_⟩, ht, (field_cons_delim t).symm⟩
    · simp only [List.append_assoc, List.cons_append, List.nil_append]
    · simp only [List.length_append, List.length_singleton]

end String

end Fields

def number (s : List UInt8) : UInt64 := (strtoul (s ++ [0]) 0).getD 0

/-- The digits of a number: behind its leading spaces and its sign. -/
def digitsOf (s : List UInt8) : List UInt8 :=
  match s.dropWhile isSpace with
  | 45 :: t => t.takeWhile isDigit
  | 43 :: t => t.takeWhile isDigit
  | t => t.takeWhile isDigit

def isNegative (s : List UInt8) : Bool := (s.dropWhile isSpace).head? = some 45

/-- The value of digits: too large a one becomes the largest, and a minus sign negates. -/
def magnitude (neg : Bool) (digits : List UInt8) : UInt64 :=
  if 2 ^ 64 ≤ decimal digits then -1
  else if neg then -UInt64.ofNat (decimal digits) else UInt64.ofNat (decimal digits)

theorem unsigned_string (neg : Bool) (s rest : List UInt8) :
    unsigned neg (s ++ 0 :: rest) = some (magnitude neg (s.takeWhile isDigit)) := by
  have htake : (s ++ 0 :: rest).takeWhile isDigit = s.takeWhile isDigit := by
    induction s with
    | nil => rfl
    | cons b s ih => simp only [List.cons_append, List.takeWhile_cons, ih]
  have hlen : (s.takeWhile isDigit).length ≠ (s ++ 0 :: rest).length := by
    have := (List.takeWhile_prefix (p := isDigit) (l := s)).length_le
    simp only [List.length_append, List.length_cons]
    omega
  simp only [unsigned, htake, hlen, if_false, magnitude]
  split_ifs <;> rfl

theorem strtoul_value (before rest s : List UInt8) :
    strtoul (before ++ s ++ 0 :: rest) before.length =
      some (magnitude (isNegative s) (digitsOf s)) := by
  have hspace : (s ++ 0 :: rest).dropWhile isSpace = s.dropWhile isSpace ++ 0 :: rest := by
    induction s with
    | nil => rfl
    | cons b s ih =>
      simp only [List.cons_append, List.dropWhile_cons]
      split_ifs
      · exact ih
      · rfl
  have hdrop : (before ++ s ++ 0 :: rest).drop before.length = s ++ 0 :: rest := by
    rw [List.append_assoc, List.drop_left]
  rw [strtoul, hdrop, hspace, isNegative, digitsOf]
  -- the sign, if there is one, stands first behind the spaces
  cases hg : s.dropWhile isSpace with
  | nil => exact unsigned_string false [] rest
  | cons b g =>
    by_cases hm : b = 45
    · subst hm
      simpa using unsigned_string true g rest
    by_cases hp : b = 43
    · subst hp
      simpa using unsigned_string false g rest
    · have h := unsigned_string false (b :: g) rest
      rw [List.cons_append] at h ⊢
      simpa [hm, hp] using h

theorem number_eq (s : List UInt8) : number s = magnitude (isNegative s) (digitsOf s) := by
  have h := strtoul_value [] [] s
  rw [List.nil_append, List.length_nil] at h
  rw [number, h, Option.getD_some]

/-- `strtoul` reads the string at its offset and nothing behind it. -/
theorem strtoul_string (before rest : List UInt8) (s : List UInt8) :
    strtoul (before ++ s ++ 0 :: rest) before.length = some (number s) := by
  rw [strtoul_value, number_eq]

def numeral (s : List UInt8) : ℕ :=
  if 2 ^ 64 ≤ decimal (digitsOf s) then 2 ^ 64 - 1
  else if isNegative s then (2 ^ 64 - decimal (digitsOf s)) % 2 ^ 64
  else decimal (digitsOf s)

theorem number_toNat (s : List UInt8) : (number s).toNat = numeral s := by
  rw [number_eq, magnitude, numeral]
  split_ifs with hlarge hneg
  · rfl
  · rw [UInt64.toNat_neg, UInt64.toNat_ofNat_of_lt' (Nat.not_le.mp hlarge)]
    rfl
  · exact UInt64.toNat_ofNat_of_lt' (Nat.not_le.mp hlarge)

/-- A string of digits with something behind it that is no digit. -/
theorem numeral_digits {digits rest : List UInt8} (hne : digits ≠ [])
    (hd : ∀ c ∈ digits, isDigit c = true) (hr : ∀ b, rest.head? = some b → isDigit b = false)
    (hv : decimal digits < 2 ^ 64) : numeral (digits ++ rest) = decimal digits := by
  have htake : (digits ++ rest).takeWhile isDigit = digits := by
    have hrest : rest.takeWhile isDigit = [] := by
      cases rest with
      | nil => rfl
      | cons b t => simp [hr b rfl]
    rw [List.takeWhile_append_of_pos hd, hrest, List.append_nil]
  obtain ⟨c, cs, rfl⟩ := List.exists_cons_of_ne_nil hne
  obtain ⟨hspace, hminus, hplus, _⟩ := isDigit_plain (hd c List.mem_cons_self)
  have hdrop : ((c :: cs) ++ rest).dropWhile isSpace = (c :: cs) ++ rest := by
    rw [List.cons_append, List.dropWhile_cons_of_neg (by simp [hspace])]
  have hdigits : digitsOf ((c :: cs) ++ rest) = c :: cs := by
    rw [digitsOf, hdrop]
    refine Eq.trans ?_ htake
    simp [hminus, hplus]
  have hneg : isNegative ((c :: cs) ++ rest) = false := by
    rw [isNegative, hdrop]
    simp [hminus]
  rw [numeral, hdigits, hneg, if_neg (Nat.not_le.mpr hv)]
  rfl

end CString
