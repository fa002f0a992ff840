import PaymentSdk.Base.Numeral

/-!
# JSON numbers

A JSON number is an optional minus, digits without a needless zero in front, and optionally a
point with digits and an exponent. The parts of a text are unique, and reading finds them.
-/

namespace PaymentSdk.Json

inductive Sign where
  | plus
  | minus
  deriving DecidableEq

def Sign.chars : Option Sign → List Char
  | none => []
  | some .plus => ['+']
  | some .minus => ['-']

/-- The exponent as it is written. -/
structure Exponent where
  capital : Bool
  sign : Option Sign
  digits : List Char
  digits_ne : digits ≠ []
  digits_all : digits.all Char.isDigit = true

namespace Exponent

def chars (e : Exponent) : List Char :=
  (if e.capital then 'E' else 'e') :: (Sign.chars e.sign ++ e.digits)

def value (e : Exponent) : ℤ :=
  if e.sign = some .minus then -Nat.ofDigitChars 10 e.digits 0 else Nat.ofDigitChars 10 e.digits 0

end Exponent

/-- Digits without a needless zero in front. -/
structure Whole (digits : List Char) : Prop where
  ne : digits ≠ []
  all : digits.all Char.isDigit = true
  zero : digits.head? = some '0' → digits = ['0']

/-- A JSON number, cut into its parts. -/
structure Literal where
  negative : Bool
  whole : List Char
  fraction : Option (List Char)
  exponent : Option Exponent
  whole_valid : Whole whole
  fraction_ne : fraction ≠ some []
  fraction_all : (fraction.getD []).all Char.isDigit = true

namespace Literal

def fractionChars : Option (List Char) → List Char
  | none => []
  | some digits => '.' :: digits

def exponentChars : Option Exponent → List Char
  | none => []
  | some e => e.chars

def chars (n : Literal) : List Char :=
  (if n.negative then ['-'] else []) ++ (n.whole ++ (fractionChars n.fraction ++ exponentChars n.exponent))

def text (n : Literal) : String := String.ofList n.chars

/-- How many digits stand after the point. -/
def places (n : Literal) : Nat := (n.fraction.getD []).length

def magnitude (n : Literal) : Nat := Nat.ofDigitChars 10 (n.whole ++ n.fraction.getD []) 0

/-- The number that the text denotes. -/
def value (n : Literal) : ℚ :=
  (if n.negative then -1 else 1) * n.magnitude / 10 ^ n.places *
    10 ^ (n.exponent.elim 0 Exponent.value : ℤ)

/-! ## Reading a text -/

def splitMinus : List Char → Bool × List Char
  | '-' :: rest => (true, rest)
  | text => (false, text)

def splitFraction : List Char → Option (List Char) × List Char
  | '.' :: rest => (some (rest.takeWhile Char.isDigit), rest.dropWhile Char.isDigit)
  | text => (none, text)

def splitSign : List Char → Option Sign × List Char
  | '+' :: rest => (some .plus, rest)
  | '-' :: rest => (some .minus, rest)
  | text => (none, text)

def parseExponent : List Char → Option (Option Exponent)
  | [] => some none
  | marker :: rest =>
    let parts := splitSign rest
    if h : parts.2 ≠ [] ∧ parts.2.all Char.isDigit = true then
      if marker = 'e' then some (some ⟨false, parts.1, parts.2, h.1, h.2⟩)
      else if marker = 'E' then some (some ⟨true, parts.1, parts.2, h.1, h.2⟩)
      else none
    else none

/-- The number that a whole text is. -/
def fromStr (text : List Char) : Option Literal :=
  let unsigned := splitMinus text
  let whole := unsigned.2.takeWhile Char.isDigit
  let fraction := splitFraction (unsigned.2.dropWhile Char.isDigit)
  if h : (whole ≠ [] ∧ whole.all Char.isDigit = true ∧ (whole.head? = some '0' → whole = ['0'])) ∧
      fraction.1 ≠ some [] ∧ (fraction.1.getD []).all Char.isDigit = true then
    (parseExponent fraction.2).map fun exponent =>
      ⟨unsigned.1, whole, fraction.1, exponent, ⟨h.1.1, h.1.2.1, h.1.2.2⟩, h.2.1, h.2.2⟩
  else none

/-! ## The text of a number is read as that number -/

theorem takeWhile_digits {l rest : List Char} (hl : l.all Char.isDigit = true)
    (hrest : ∀ c ∈ rest.head?, c.isDigit = false) : (l ++ rest).takeWhile Char.isDigit = l := by
  rw [List.takeWhile_append_of_pos (List.all_eq_true.mp hl)]
  cases rest with
  | nil => simp
  | cons c rest => rw [List.takeWhile_cons_of_neg (by simp [hrest c rfl]), List.append_nil]

theorem dropWhile_digits {l rest : List Char} (hl : l.all Char.isDigit = true)
    (hrest : ∀ c ∈ rest.head?, c.isDigit = false) : (l ++ rest).dropWhile Char.isDigit = rest := by
  rw [List.dropWhile_append_of_pos (List.all_eq_true.mp hl)]
  cases rest with
  | nil => rfl
  | cons c rest => rw [List.dropWhile_cons_of_neg (by simp [hrest c rfl])]

theorem exponentChars_head (e : Option Exponent) :
    ∀ c ∈ (exponentChars e).head?, c.isDigit = false ∧ c ≠ '.' := by
  intro c hc
  cases e with
  | none => cases hc
  | some e =>
    cases hcap : e.capital with
    | false =>
      obtain rfl : 'e' = c := by simpa [exponentChars, Exponent.chars, hcap] using hc
      decide
    | true =>
      obtain rfl : 'E' = c := by simpa [exponentChars, Exponent.chars, hcap] using hc
      decide

theorem digit_ne {c d : Char} (hc : c.isDigit = true) (hd : d.isDigit = false) : c ≠ d := by
  rintro rfl
  rw [hc] at hd
  cases hd

theorem splitMinus_chars {rest : List Char} (negative : Bool) (h : ∀ c ∈ rest.head?, c ≠ '-') :
    splitMinus ((if negative then ['-'] else []) ++ rest) = (negative, rest) := by
  cases negative with
  | true => rfl
  | false =>
    cases rest with
    | nil => rfl
    | cons c rest =>
      have hne : c ≠ '-' := h c rfl
      simp [splitMinus, hne]

theorem splitFraction_chars {fraction : Option (List Char)} {rest : List Char}
    (hall : (fraction.getD []).all Char.isDigit = true)
    (h : ∀ c ∈ rest.head?, c.isDigit = false ∧ c ≠ '.') :
    splitFraction (fractionChars fraction ++ rest) = (fraction, rest) := by
  cases fraction with
  | none =>
    cases rest with
    | nil => rfl
    | cons c rest =>
      have hne : c ≠ '.' := (h c rfl).2
      simp [splitFraction, fractionChars, hne]
  | some digits =>
    have hdigit : ∀ c ∈ rest.head?, c.isDigit = false := fun c hc => (h c hc).1
    rw [Option.getD_some] at hall
    simp only [fractionChars, List.cons_append, splitFraction, takeWhile_digits hall hdigit,
      dropWhile_digits hall hdigit]

theorem splitSign_chars {sign : Option Sign} {digits : List Char}
    (hall : digits.all Char.isDigit = true) :
    splitSign (Sign.chars sign ++ digits) = (sign, digits) := by
  match sign with
  | some .plus => rfl
  | some .minus => rfl
  | none =>
    cases digits with
    | nil => rfl
    | cons c digits =>
      have hc : c.isDigit = true := List.all_eq_true.mp hall c List.mem_cons_self
      have hplus : c ≠ '+' := digit_ne hc rfl
      have hminus : c ≠ '-' := digit_ne hc rfl
      simp [Sign.chars, splitSign, hplus, hminus]

theorem parseExponent_chars (e : Option Exponent) : parseExponent (exponentChars e) = some e := by
  cases e with
  | none => rfl
  | some e =>
    simp only [exponentChars, Exponent.chars, parseExponent, splitSign_chars e.digits_all]
    rw [dif_pos ⟨e.digits_ne, e.digits_all⟩]
    obtain ⟨capital, sign, digits, hne, hall⟩ := e
    cases capital <;> rfl

theorem fractionChars_head {fraction : Option (List Char)} {rest : List Char}
    (h : ∀ c ∈ rest.head?, c.isDigit = false) :
    ∀ c ∈ (fractionChars fraction ++ rest).head?, c.isDigit = false := by
  cases fraction with
  | none => exact h
  | some digits =>
    intro c hc
    obtain rfl : '.' = c := by simpa [fractionChars] using hc
    rfl

theorem whole_head {whole rest : List Char} (h : Whole whole) :
    ∀ c ∈ (whole ++ rest).head?, c.isDigit = true := by
  intro c hc
  rw [List.head?_append_of_ne_nil _ h.ne] at hc
  exact List.all_eq_true.mp h.all c (List.mem_of_mem_head? hc)

theorem fromStr_chars (n : Literal) : fromStr n.chars = some n := by
  have hexponent := exponentChars_head n.exponent
  have hfraction := @fractionChars_head n.fraction _ fun c hc => (hexponent c hc).1
  have hminus : splitMinus n.chars = (n.negative, _) :=
    splitMinus_chars n.negative fun c hc => digit_ne (whole_head n.whole_valid c hc) rfl
  simp only [fromStr, hminus, takeWhile_digits n.whole_valid.all hfraction,
    dropWhile_digits n.whole_valid.all hfraction, splitFraction_chars n.fraction_all hexponent,
    parseExponent_chars, Option.map_some]
  rw [dif_pos ⟨⟨n.whole_valid.ne, n.whole_valid.all, n.whole_valid.zero⟩, n.fraction_ne,
    n.fraction_all⟩]

end Literal

end PaymentSdk.Json
