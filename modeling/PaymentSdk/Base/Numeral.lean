import Mathlib.Data.List.Induction
import PaymentSdk.Base.Rational

/-!
# The texts of decimals

The grammar that the parser accepts: an optional sign, digits, and optionally a point with more
digits. The text of a decimal is the shortest text of that grammar for its number.
-/

namespace PaymentSdk

/-- A text of the grammar, cut into its parts. -/
structure Numeral where
  sign : List Char
  whole : List Char
  fraction : Option (List Char)
  sign_mem : sign ∈ [[], ['+'], ['-']]
  whole_ne : whole ≠ []
  whole_digits : whole.all Char.isDigit = true
  fraction_ne : fraction ≠ some []
  fraction_digits : (fraction.getD []).all Char.isDigit = true

namespace Numeral

def chars (n : Numeral) : List Char :=
  n.sign ++ n.whole ++ match n.fraction with
    | none => []
    | some digits => '.' :: digits

/-- How many digits stand after the point. -/
def places (n : Numeral) : Nat := (n.fraction.getD []).length

def magnitude (n : Numeral) : Nat := Nat.ofDigitChars 10 (n.whole ++ n.fraction.getD []) 0

def coefficient (n : Numeral) : Int := if n.sign = ['-'] then -n.magnitude else n.magnitude

/-- The number that the text denotes. -/
def value (n : Numeral) : ℚ := n.coefficient / 10 ^ n.places

end Numeral

namespace Decimal

/-! ## Reading a text of the grammar -/

theorem numeral_mem {n : Numeral} {c : Char} (h : c ∈ n.chars) :
    c.isDigit = true ∨ c = '.' ∨ c = '-' ∨ c = '+' := by
  have hwhole := List.all_eq_true.mp n.whole_digits
  have hfraction := List.all_eq_true.mp n.fraction_digits
  have hsign := n.sign_mem
  simp only [Numeral.chars, List.mem_append] at h
  rcases h with (h | h) | h
  · simp only [List.mem_cons, List.not_mem_nil, or_false] at hsign
    rcases hsign with hs | hs | hs <;> rw [hs] at h <;> simp_all
  · exact .inl (hwhole c h)
  · cases hf : n.fraction with
    | none => simp [hf] at h
    | some digits =>
      rw [hf] at h hfraction
      rcases List.mem_cons.mp h with h | h
      · exact .inr (.inl h)
      · exact .inl (hfraction c h)

theorem numeral_isTrimmed (n : Numeral) : isTrimmed n.chars = true := by
  have hspace : ∀ c ∈ n.chars, isWhitespace c = false := by
    intro c hc
    rcases numeral_mem hc with h | rfl | rfl | rfl
    · exact isWhitespace_digit h
    all_goals decide
  have hany : ∀ o : Option Char, (∀ c ∈ o, c ∈ n.chars) → o.any isWhitespace = false := by
    intro o ho
    cases o with
    | none => rfl
    | some c => exact hspace c (ho c rfl)
  simp only [isTrimmed, Bool.and_eq_true, Bool.not_eq_true']
  exact ⟨hany _ fun c hc => List.mem_of_mem_head? hc, hany _ fun c hc => List.mem_of_mem_getLast? hc⟩

theorem numeral_ne_nil (n : Numeral) : n.chars ≠ [] := by
  have := n.whole_ne
  simp [Numeral.chars, this]

theorem splitSign_digit {text : List Char} (hne : text ≠ [])
    (h : ∀ c ∈ text.head?, c.isDigit = true) : splitSign text = (false, text) := by
  cases text with
  | nil => exact absurd rfl hne
  | cons c rest =>
    have hc := h c rfl
    unfold splitSign
    split
    · rename_i heq
      cases heq
      exact absurd hc (by decide)
    · rename_i heq
      cases heq
      exact absurd hc (by decide)
    · rfl

/-- The text after the sign. -/
def unsignedChars (n : Numeral) : List Char :=
  n.whole ++ match n.fraction with
    | none => []
    | some digits => '.' :: digits

theorem splitSign_numeral (n : Numeral) :
    splitSign n.chars = (decide (n.sign = ['-']), unsignedChars n) := by
  have hchars : n.chars = n.sign ++ unsignedChars n := by
    rw [Numeral.chars, unsignedChars, List.append_assoc]
  have hsign := n.sign_mem
  simp only [List.mem_cons, List.not_mem_nil, or_false] at hsign
  rw [hchars]
  rcases hsign with h | h | h
  · rw [h]
    apply splitSign_digit
    · simp [unsignedChars, n.whole_ne]
    · intro c hc
      rw [List.nil_append, unsignedChars, List.head?_append_of_ne_nil _ n.whole_ne] at hc
      exact List.all_eq_true.mp n.whole_digits c (List.mem_of_mem_head? hc)
  · rw [h]
    rfl
  · rw [h]
    rfl

theorem splitPoint_numeral (n : Numeral) :
    splitPoint (unsignedChars n) = some (n.whole, n.fraction.getD []) := by
  have hfraction := n.fraction_digits
  have hne := n.fraction_ne
  unfold splitPoint unsignedChars
  cases hf : n.fraction with
  | none =>
    rw [List.append_nil, splitOn_digits n.whole_digits]
    simp [n.whole_ne, n.whole_digits]
  | some digits =>
    rw [hf] at hfraction hne
    rw [Option.getD_some] at hfraction ⊢
    simp only [splitOn_point n.whole_digits hfraction]
    rw [if_pos ⟨⟨n.whole_ne, n.whole_digits⟩, by simpa using hne, hfraction⟩]

theorem fromChars_numeral (n : Numeral) :
    fromChars n.chars =
      if h : n.places < 2 ^ 32 then .ok (normalize n.coefficient n.places h) else .error .invalid := by
  rw [fromChars, if_neg (by simp [numeral_ne_nil, numeral_isTrimmed]), splitSign_numeral]
  simp only [splitPoint_numeral, decide_eq_true_eq]
  rfl

/-! ## Every accepted text is of the grammar -/

theorem splitSign_cases (text : List Char) :
    ∃ sign ∈ [[], ['+'], ['-']], text = sign ++ (splitSign text).2 := by
  unfold splitSign
  split
  · exact ⟨['-'], by simp, rfl⟩
  · exact ⟨['+'], by simp, rfl⟩
  · exact ⟨[], by simp, rfl⟩

theorem splitPoint_cases {text whole fraction : List Char}
    (h : splitPoint text = some (whole, fraction)) :
    whole ≠ [] ∧ whole.all Char.isDigit = true ∧ fraction.all Char.isDigit = true ∧
      ((text = whole ∧ fraction = []) ∨ (text = whole ++ '.' :: fraction ∧ fraction ≠ [])) := by
  have hjoin : ['.'].intercalate (text.splitOn '.') = text := List.intercalate_splitOn '.'
  unfold splitPoint at h
  dsimp only at h
  split at h
  · rename_i w hsplit
    split at h
    · rename_i hd
      cases h
      rw [hsplit] at hjoin
      exact ⟨hd.1, hd.2, rfl, .inl ⟨by simpa [List.intercalate] using hjoin.symm, rfl⟩⟩
    · cases h
  · rename_i w f hsplit
    split at h
    · rename_i hd
      cases h
      rw [hsplit] at hjoin
      exact ⟨hd.1.1, hd.1.2, hd.2.2,
        .inr ⟨by simpa [List.intercalate] using hjoin.symm, hd.2.1⟩⟩
    · cases h
  · cases h

theorem exists_numeral {text : List Char} {d : Decimal} (h : fromChars text = .ok d) :
    ∃ n : Numeral, n.chars = text := by
  obtain ⟨sign, hsign, htext⟩ := splitSign_cases text
  unfold fromChars at h
  split at h
  · cases h
  · dsimp only at h
    cases hpoint : splitPoint (splitSign text).2 with
    | none =>
      rw [hpoint] at h
      cases h
    | some parts =>
      obtain ⟨whole, fraction⟩ := parts
      obtain ⟨hne, hwhole, hfraction, hcases⟩ := splitPoint_cases hpoint
      rcases hcases with ⟨heq, rfl⟩ | ⟨heq, hf⟩
      · refine ⟨⟨sign, whole, none, hsign, hne, hwhole, by simp, rfl⟩, ?_⟩
        rw [htext, heq]
        simp [Numeral.chars]
      · refine ⟨⟨sign, whole, some fraction, hsign, hne, hwhole, by simpa using hf, hfraction⟩, ?_⟩
        rw [htext, heq]
        simp [Numeral.chars]

theorem fromChars_ok_iff {text : List Char} {d : Decimal} :
    fromChars text = .ok d ↔ ∃ n : Numeral, n.chars = text ∧ n.places < 2 ^ 32 ∧ d.value = n.value := by
  constructor
  · intro h
    obtain ⟨n, rfl⟩ := exists_numeral h
    rw [fromChars_numeral] at h
    split at h
    · rename_i hplaces
      cases h
      exact ⟨n, rfl, hplaces, value_normalize ..⟩
    · cases h
  · rintro ⟨n, rfl, hplaces, hvalue⟩
    rw [fromChars_numeral, dif_pos hplaces]
    congr 1
    apply value_injective
    rw [value_normalize, hvalue]
    rfl

/-! ## The shortest text -/

theorem ofDigitChars_lt {l : List Char} (h : l.all Char.isDigit = true) :
    Nat.ofDigitChars 10 l 0 < 10 ^ l.length := by
  induction l using List.reverseRecOn with
  | nil => simp
  | append_singleton l c ih =>
    rw [List.all_append, Bool.and_eq_true] at h
    have hc : c.isDigit = true := by simpa using h.2
    simp only [Char.isDigit, Bool.and_eq_true, decide_eq_true_eq] at hc
    have hc' : c.toNat ≤ 57 := hc.2
    have := ih h.1
    rw [Nat.ofDigitChars_append, Nat.ofDigitChars_cons, Nat.ofDigitChars_nil, List.length_append,
      List.length_singleton, pow_succ]
    have hzero : '0'.toNat = 48 := rfl
    omega

theorem magnitude_lt (n : Numeral) : n.magnitude < 10 ^ (n.whole.length + n.places) := by
  have hdigits : (n.whole ++ n.fraction.getD []).all Char.isDigit = true := by
    rw [List.all_append, n.whole_digits, n.fraction_digits]
    rfl
  simpa [Numeral.magnitude, Numeral.places] using ofDigitChars_lt hdigits

theorem natAbs_coefficient (n : Numeral) : n.coefficient.natAbs = n.magnitude := by
  unfold Numeral.coefficient
  split <;> omega

theorem coefficient_of_value {n : Numeral} {d : Decimal} (h : n.value = d.value) :
    d.scale ≤ n.places ∧ n.coefficient = d.coefficient * 10 ^ (n.places - d.scale) := by
  have hcross : n.coefficient * 10 ^ d.scale = d.coefficient * 10 ^ n.places := by
    rw [Numeral.value, value, div_eq_div_iff (pow_ne_zero _ (by norm_num))
      (pow_ne_zero _ (by norm_num))] at h
    exact_mod_cast h
  have hle : d.scale ≤ n.places := by
    by_contra hlt
    obtain ⟨k, hk⟩ : ∃ k, d.scale = n.places + (k + 1) := ⟨d.scale - n.places - 1, by omega⟩
    have hc : d.coefficient = n.coefficient * 10 ^ k * 10 := by
      apply mul_right_cancel₀ (pow_ne_zero n.places (by decide : (10 : Int) ≠ 0))
      rw [← hcross, hk]
      ring
    exact d.normal.last_digit (by omega) (by rw [hc, Int.mul_emod_left])
  refine ⟨hle, ?_⟩
  apply mul_right_cancel₀ (pow_ne_zero d.scale (by decide : (10 : Int) ≠ 0))
  rw [hcross, mul_assoc, ← pow_add, Nat.sub_add_cancel hle]

theorem length_withPoint (digits : List Char) (scale : Nat) :
    (withPoint digits scale).length =
      if scale = 0 then digits.length else max digits.length (scale + 1) + 1 := by
  unfold withPoint
  split
  · rfl
  · simp
    omega

theorem length_numeral (n : Numeral) :
    n.sign.length + n.whole.length + n.places + (if n.places = 0 then 0 else 1) ≤ n.chars.length := by
  unfold Numeral.chars Numeral.places
  cases n.fraction with
  | none => simp
  | some digits =>
    simp
    split_ifs <;> omega

theorem chars_shortest {n : Numeral} {d : Decimal} (h : n.value = d.value) :
    d.chars.length ≤ n.chars.length := by
  obtain ⟨hscale, hcoefficient⟩ := coefficient_of_value h
  have hpow : 0 < 10 ^ (n.places - d.scale) := Nat.pow_pos (by decide)
  have hwhole : 0 < n.whole.length := List.length_pos_of_ne_nil n.whole_ne
  have hmagnitude : d.coefficient.natAbs ≤ n.magnitude := by
    rw [← natAbs_coefficient, hcoefficient, Int.natAbs_mul, Int.natAbs_pow]
    exact Nat.le_mul_of_pos_right _ hpow
  have hdigits : (Nat.toDigits 10 d.coefficient.natAbs).length ≤ n.whole.length + n.places :=
    (Nat.length_toDigits_le_iff (by decide) (by omega)).mpr
      (lt_of_le_of_lt hmagnitude (magnitude_lt n))
  have hsign : d.coefficient < 0 → n.sign.length = 1 := by
    intro hneg
    have hn : n.coefficient < 0 := by
      rw [hcoefficient]
      exact mul_neg_of_neg_of_pos hneg (pow_pos (by decide) _)
    unfold Numeral.coefficient at hn
    split at hn
    · rename_i hs
      rw [hs]
      rfl
    · omega
  refine le_trans ?_ (length_numeral n)
  unfold chars
  dsimp only
  split_ifs <;> simp [length_withPoint] <;> split_ifs <;> omega

/-! ## The canonical text -/

theorem toDigits_getLast (n : Nat) : (Nat.toDigits 10 n).getLast? = some (Nat.digitChar (n % 10)) := by
  rw [Nat.toDigits_eq_if (by decide)]
  split
  · rename_i h
    rw [Nat.mod_eq_of_lt h]
    rfl
  · simp

theorem digitChar_eq_zero {n : Nat} (hn : n < 10) (h : Nat.digitChar n = '0') : n = 0 := by
  have hall : ∀ n : Fin 10, Nat.digitChar n = '0' → n.val = 0 := by decide
  exact hall ⟨n, hn⟩ h

theorem withPoint_getLast (n : Nat) {scale : Nat} (h : 0 < scale) :
    (withPoint (Nat.toDigits 10 n) scale).getLast? = some (Nat.digitChar (n % 10)) := by
  rw [withPoint, if_neg (by omega)]
  dsimp only
  set padded := List.replicate (scale + 1 - (Nat.toDigits 10 n).length) '0' ++ Nat.toDigits 10 n
    with hp
  have hlast : padded.getLast? = some (Nat.digitChar (n % 10)) := by
    rw [hp, List.getLast?_append, toDigits_getLast]
    rfl
  have hlen : scale < padded.length := by simp [hp]; omega
  have hdrop : padded.drop (padded.length - scale) ≠ [] := by
    apply List.ne_nil_of_length_pos
    simp
    omega
  rw [← List.take_append_drop (padded.length - scale) padded] at hlast
  obtain ⟨c, rest, hrest⟩ := List.exists_cons_of_ne_nil hdrop
  rw [hrest] at hlast ⊢
  rw [List.getLast?_append] at hlast ⊢
  rw [List.getLast?_cons_cons]
  exact hlast

theorem chars_getLast {d : Decimal} (h : '.' ∈ d.chars) : d.chars.getLast? ≠ some '0' := by
  have hscale : d.scale ≠ 0 := by
    intro hs
    unfold chars withPoint at h
    simp only [hs, if_true] at h
    have hdigits := dot_not_mem (toDigits_isDigit d.coefficient.natAbs)
    split_ifs at h
    · rcases List.mem_cons.mp h with h | h
      · cases h
      · exact hdigits h
    · exact hdigits h
  have hlast : d.coefficient.natAbs % 10 ≠ 0 := by
    have := d.normal.last_digit (by omega)
    omega
  have hend : ∀ c rest, (c :: rest : List Char).getLast? = some (Nat.digitChar (d.coefficient.natAbs % 10)) →
      (c :: rest : List Char).getLast? ≠ some '0' := by
    intro c rest hc
    rw [hc]
    exact fun heq => hlast (digitChar_eq_zero (Nat.mod_lt _ (by decide)) (Option.some.inj heq))
  unfold chars
  dsimp only
  have hpoint := withPoint_getLast d.coefficient.natAbs (Nat.pos_of_ne_zero hscale)
  cases hw : withPoint (Nat.toDigits 10 d.coefficient.natAbs) d.scale with
  | nil => exact absurd hw (withPoint_ne_nil _ _)
  | cons c rest =>
    rw [hw] at hpoint
    split
    · rw [List.getLast?_cons_cons]
      exact hend c rest hpoint
    · exact hend c rest hpoint

theorem chars_of_value_zero {d : Decimal} (h : d.value = 0) : d.chars = ['0'] := by
  have hc : d.coefficient = 0 := by
    rw [value, div_eq_zero_iff] at h
    rcases h with h | h
    · exact_mod_cast h
    · exact absurd h (pow_ne_zero _ (by norm_num))
  have hs := d.normal.zero hc
  simp [chars, withPoint, hc, hs]

end Decimal

end PaymentSdk
