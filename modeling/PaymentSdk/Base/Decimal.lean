import Mathlib.Algebra.Group.Nat.Defs
import Mathlib.Tactic.Common

/-!
# Exact decimals and their text

A decimal is `coefficient / 10 ^ scale`, kept without trailing fractional zeros.
Parsing the text of a decimal gives the decimal back.
-/

namespace PaymentSdk

inductive DecimalErrorKind where
  | invalid
  | negativeAmount
  | excessPrecision
  | overflow
  deriving DecidableEq

structure DecimalError where
  kind : DecimalErrorKind
  message : String
  deriving DecidableEq

def DecimalError.invalid : DecimalError :=
  ⟨.invalid, "decimal must use canonical base-10 notation"⟩

/-- No trailing fractional zero, one zero, and a 32-bit scale. -/
structure Decimal.Normal (coefficient : Int) (scale : Nat) : Prop where
  scale_lt : scale < 2 ^ 32
  zero : coefficient = 0 → scale = 0
  last_digit : 0 < scale → coefficient % 10 ≠ 0

/-- A coefficient over a power of ten, without trailing zeros. -/
structure Decimal where
  coefficient : Int
  scale : Nat
  normal : Decimal.Normal coefficient scale
  deriving DecidableEq

namespace Decimal

/-- The loop of `normalize`. -/
def stripZeros (coefficient : Int) : Nat → Int × Nat
  | 0 => (coefficient, 0)
  | scale + 1 =>
    if coefficient % 10 = 0 then stripZeros (coefficient / 10) scale else (coefficient, scale + 1)

theorem stripZeros_normal (c : Int) (scale : Nat) (hc : c ≠ 0) (hs : scale < 2 ^ 32) :
    Normal (stripZeros c scale).1 (stripZeros c scale).2 := by
  induction scale generalizing c with
  | zero => exact ⟨hs, fun _ => rfl, fun h => absurd h (by simp [stripZeros])⟩
  | succ scale ih =>
    rw [stripZeros]
    split
    · rename_i h
      exact ih _ (by omega) (by omega)
    · rename_i h
      exact ⟨hs, fun h0 => absurd h0 hc, fun _ => h⟩

/-- Drops trailing zeros of the fraction. Zero has scale zero. -/
def normalize (coefficient : Int) (scale : Nat) (h : scale < 2 ^ 32) : Decimal :=
  if hc : coefficient = 0 then ⟨0, 0, ⟨by omega, fun _ => rfl, fun h => absurd h (by omega)⟩⟩
  else ⟨_, _, stripZeros_normal coefficient scale hc h⟩

theorem zero_lt_scale : 0 < 2 ^ 32 := by decide

theorem normalize_eq (d : Decimal) : normalize d.coefficient d.scale d.normal.scale_lt = d := by
  obtain ⟨c, scale, hn⟩ := d
  unfold normalize
  split
  · rename_i hc
    have hs := hn.zero hc
    simp only at hc hs
    subst hc hs
    rfl
  · cases scale with
    | zero => rfl
    | succ scale => simp [stripZeros, hn.last_digit (by omega)]

/-! ## Amounts -/

/-- An amount is not negative. -/
def validateAmount (d : Decimal) : Except DecimalError Unit :=
  if d.coefficient < 0 then .error ⟨.negativeAmount, "currency amount must not be negative"⟩
  else .ok ()

/-- Refuses a fraction finer than the asset's own unit. -/
def toAtomic (d : Decimal) (decimals : Nat) : Except DecimalError Nat := do
  d.validateAmount
  if d.scale ≤ decimals then pure (d.coefficient.natAbs * 10 ^ (decimals - d.scale))
  else
    let divisor := 10 ^ (d.scale - decimals)
    if d.coefficient.natAbs % divisor ≠ 0 then
      throw ⟨.excessPrecision, s!"amount has more than {decimals} fractional digits"⟩
    else pure (d.coefficient.natAbs / divisor)

/-! ## Text -/

/-- Puts the decimal point `scale` digits from the right, after enough leading zeros. -/
def withPoint (digits : List Char) (scale : Nat) : List Char :=
  if scale = 0 then digits
  else
    let padded := List.replicate (scale + 1 - digits.length) '0' ++ digits
    padded.take (padded.length - scale) ++ '.' :: padded.drop (padded.length - scale)

def chars (d : Decimal) : List Char :=
  let digits := withPoint (Nat.toDigits 10 d.coefficient.natAbs) d.scale
  if d.coefficient < 0 then '-' :: digits else digits

def toText (d : Decimal) : String := String.ofList d.chars

/-- Rust's `char::is_whitespace`. -/
def isWhitespace (c : Char) : Bool :=
  (0x09 ≤ c.toNat && c.toNat ≤ 0x0D) || c.toNat = 0x20 || c.toNat = 0x85 || c.toNat = 0xA0 ||
    c.toNat = 0x1680 || (0x2000 ≤ c.toNat && c.toNat ≤ 0x200A) || c.toNat = 0x2028 ||
    c.toNat = 0x2029 || c.toNat = 0x202F || c.toNat = 0x205F || c.toNat = 0x3000

/-- Whether trimming leaves the text as it is. -/
def isTrimmed (text : List Char) : Bool :=
  !text.head?.any isWhitespace && !text.getLast?.any isWhitespace

/-- The sign and the rest of a text. -/
def splitSign : List Char → Bool × List Char
  | '-' :: rest => (true, rest)
  | '+' :: rest => (false, rest)
  | text => (false, text)

/-- The whole and fractional digits of an unsigned text. -/
def splitPoint (text : List Char) : Option (List Char × List Char) :=
  let digits (part : List Char) := part ≠ [] ∧ part.all Char.isDigit
  match text.splitOn '.' with
  | [whole] => if digits whole then some (whole, []) else none
  | [whole, fraction] => if digits whole ∧ digits fraction then some (whole, fraction) else none
  | _ => none

def fromChars (text : List Char) : Except DecimalError Decimal :=
  if text = [] ∨ isTrimmed text = false then .error .invalid
  else
    let (negative, unsigned) := splitSign text
    match splitPoint unsigned with
    | none => .error .invalid
    | some (whole, fraction) =>
      if h : fraction.length < 2 ^ 32 then
        let magnitude : Int := Nat.ofDigitChars 10 (whole ++ fraction) 0
        .ok (normalize (if negative then -magnitude else magnitude) fraction.length h)
      else .error .invalid

def fromText (text : String) : Except DecimalError Decimal := fromChars text.toList

/-! ## Round trip -/

theorem toDigits_isDigit (n : Nat) : (Nat.toDigits 10 n).all Char.isDigit = true := by
  rw [List.all_eq_true]
  intro c hc
  exact Nat.isDigit_of_mem_toDigits (by omega) (by omega) hc

theorem replicate_isDigit (n : Nat) : (List.replicate n '0').all Char.isDigit = true := by
  rw [List.all_eq_true]
  intro c hc
  rw [List.eq_of_mem_replicate hc]
  rfl

theorem dot_not_mem {l : List Char} (h : l.all Char.isDigit = true) : '.' ∉ l := by
  intro hmem
  have := List.all_eq_true.mp h '.' hmem
  revert this
  decide

theorem splitOn_digits {l : List Char} (h : l.all Char.isDigit = true) : l.splitOn '.' = [l] := by
  have hpieces : ∀ piece ∈ [l], '.' ∉ piece := by simpa using dot_not_mem h
  simpa [List.intercalate] using List.splitOn_intercalate '.' hpieces (by simp)

theorem splitOn_point {l r : List Char} (hl : l.all Char.isDigit = true)
    (hr : r.all Char.isDigit = true) : (l ++ '.' :: r).splitOn '.' = [l, r] := by
  have hpieces : ∀ piece ∈ [l, r], '.' ∉ piece := by simpa using ⟨dot_not_mem hl, dot_not_mem hr⟩
  simpa [List.intercalate] using List.splitOn_intercalate '.' hpieces (by simp)

/-- What `withPoint` writes, `splitPoint` reads: digits of the same number, and
`scale` of them after the point. -/
theorem splitPoint_withPoint (n scale : Nat) :
    ∃ whole fraction, splitPoint (withPoint (Nat.toDigits 10 n) scale) = some (whole, fraction) ∧
      fraction.length = scale ∧ Nat.ofDigitChars 10 (whole ++ fraction) 0 = n := by
  have hd := toDigits_isDigit n
  have hpos : 0 < (Nat.toDigits 10 n).length := Nat.length_toDigits_pos
  unfold withPoint
  split
  · rename_i h
    refine ⟨Nat.toDigits 10 n, [], ?_, by simp [h], by simp⟩
    simp [splitPoint, splitOn_digits hd, hd]
  · rename_i h
    set padded := List.replicate (scale + 1 - (Nat.toDigits 10 n).length) '0' ++ Nat.toDigits 10 n
      with hp
    have hlen : scale < padded.length := by simp [hp]; omega
    have hall : padded.all Char.isDigit = true := by
      rw [hp, List.all_append, replicate_isDigit, hd]
      rfl
    have htake : (padded.take (padded.length - scale)).all Char.isDigit = true :=
      List.all_eq_true.mpr fun c hc => List.all_eq_true.mp hall c (List.mem_of_mem_take hc)
    have hdrop : (padded.drop (padded.length - scale)).all Char.isDigit = true :=
      List.all_eq_true.mpr fun c hc => List.all_eq_true.mp hall c (List.mem_of_mem_drop hc)
    refine ⟨padded.take (padded.length - scale), padded.drop (padded.length - scale), ?_, ?_, ?_⟩
    · have hne : padded.take (padded.length - scale) ≠ [] := by
        apply List.ne_nil_of_length_pos
        simp
        omega
      have hne' : padded.drop (padded.length - scale) ≠ [] := by
        apply List.ne_nil_of_length_pos
        simp
        omega
      simp only [splitPoint, splitOn_point htake hdrop]
      rw [if_pos ⟨⟨hne, htake⟩, hne', hdrop⟩]
    · simp
      omega
    · rw [List.take_append_drop, hp, Nat.ofDigitChars_append, Nat.ofDigitChars_replicate_zero,
        Nat.mul_zero, Nat.ofDigitChars_ten_toDigits]

theorem isWhitespace_digit {c : Char} (h : c.isDigit = true) : isWhitespace c = false := by
  simp only [Char.isDigit, Bool.and_eq_true, decide_eq_true_eq] at h
  obtain ⟨h1, h2⟩ := h
  have h1' : 48 ≤ c.toNat := h1
  have h2' : c.toNat ≤ 57 := h2
  simp [isWhitespace]
  omega

theorem withPoint_mem {n scale : Nat} {c : Char} (h : c ∈ withPoint (Nat.toDigits 10 n) scale) :
    c.isDigit = true ∨ c = '.' := by
  have hd := List.all_eq_true.mp (toDigits_isDigit n)
  unfold withPoint at h
  split at h
  · exact Or.inl (hd c h)
  · have hpad : ∀ x ∈ List.replicate (scale + 1 - (Nat.toDigits 10 n).length) '0' ++
        Nat.toDigits 10 n, x.isDigit = true := by
      intro x hx
      rcases List.mem_append.mp hx with hx | hx
      · exact List.all_eq_true.mp (replicate_isDigit _) x hx
      · exact hd x hx
    simp only [List.mem_append, List.mem_cons] at h
    rcases h with h | h | h
    · exact Or.inl (hpad c (List.mem_of_mem_take h))
    · exact Or.inr h
    · exact Or.inl (hpad c (List.mem_of_mem_drop h))

theorem withPoint_ne_nil (n scale : Nat) : withPoint (Nat.toDigits 10 n) scale ≠ [] := by
  have hpos : 0 < (Nat.toDigits 10 n).length := Nat.length_toDigits_pos
  unfold withPoint
  split
  · exact List.ne_nil_of_length_pos hpos
  · simp

theorem chars_mem {d : Decimal} {c : Char} (h : c ∈ d.chars) :
    c.isDigit = true ∨ c = '.' ∨ c = '-' := by
  unfold chars at h
  split at h
  · rcases List.mem_cons.mp h with h | h
    · exact Or.inr (Or.inr h)
    · rcases withPoint_mem h with h | h <;> simp [h]
  · rcases withPoint_mem h with h | h <;> simp [h]

theorem chars_not_whitespace {d : Decimal} {c : Char} (h : c ∈ d.chars) : isWhitespace c = false := by
  rcases chars_mem h with h | rfl | rfl
  · exact isWhitespace_digit h
  · decide
  · decide

theorem chars_isTrimmed (d : Decimal) : isTrimmed d.chars = true := by
  have hany : ∀ o : Option Char, (∀ c ∈ o, c ∈ d.chars) → o.any isWhitespace = false := by
    intro o ho
    cases o with
    | none => rfl
    | some c => exact chars_not_whitespace (ho c rfl)
  simp only [isTrimmed, Bool.and_eq_true, Bool.not_eq_true']
  exact ⟨hany _ fun c hc => List.mem_of_mem_head? hc, hany _ fun c hc => List.mem_of_mem_getLast? hc⟩

theorem chars_ne_nil (d : Decimal) : d.chars ≠ [] := by
  unfold chars
  split
  · simp
  · exact withPoint_ne_nil _ _

theorem splitSign_unsigned {n scale : Nat} :
    splitSign (withPoint (Nat.toDigits 10 n) scale) = (false, withPoint (Nat.toDigits 10 n) scale) := by
  cases hw : withPoint (Nat.toDigits 10 n) scale with
  | nil => rfl
  | cons c rest =>
    have hc : c.isDigit = true ∨ c = '.' := withPoint_mem (by rw [hw]; exact List.mem_cons_self)
    unfold splitSign
    split
    · rename_i heq
      cases heq
      exact absurd hc (by decide)
    · rename_i heq
      cases heq
      exact absurd hc (by decide)
    · rfl

theorem splitSign_chars (d : Decimal) :
    splitSign d.chars =
      (decide (d.coefficient < 0), withPoint (Nat.toDigits 10 d.coefficient.natAbs) d.scale) := by
  unfold chars
  split
  · rename_i h
    simp [splitSign, h]
  · rename_i h
    rw [splitSign_unsigned]
    simp [h]

/-- **Round trip.** The text of a decimal parses to that decimal. -/
theorem fromText_toText (d : Decimal) : fromText d.toText = .ok d := by
  obtain ⟨whole, fraction, hsplit, hlen, hval⟩ := splitPoint_withPoint d.coefficient.natAbs d.scale
  have hfits : fraction.length < 2 ^ 32 := by rw [hlen]; exact d.normal.scale_lt
  have hsign : (if decide (d.coefficient < 0) = true then -(d.coefficient.natAbs : Int)
      else (d.coefficient.natAbs : Int)) = d.coefficient := by
    simp only [decide_eq_true_eq]
    split <;> omega
  rw [fromText, toText, String.toList_ofList, fromChars,
    if_neg (by simp [chars_ne_nil, chars_isTrimmed]), splitSign_chars]
  simp only [hsplit, dif_pos hfits, hval]
  congr 1
  conv_rhs => rw [← normalize_eq d]
  congr 1

end Decimal

end PaymentSdk
