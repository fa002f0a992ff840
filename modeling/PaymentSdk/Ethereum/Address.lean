import PaymentSdk.Ethereum.TransactionId

/-!
# Address texts

An address is parsed as a transaction id is, pair by pair, but nothing compares the text with the
result. So a pair may also be a plus sign and one digit.
-/

open Checked

namespace PaymentSdk.Ethereum

/-- Why a text is no address. -/
inductive AddressParseError where
  | missingPrefix
  | invalidLength
  | invalidHexadecimal
  | wrongChain
  deriving DecidableEq

/-- How a call can end without an address. -/
inductive AddressStop where
  | error (e : AddressParseError)
  | panic
  deriving DecidableEq

/-- Every error of the radix parser is the same one here. -/
def AddressStop.ofByte : Stop → AddressStop
  | .error _ => .error .invalidHexadecimal
  | .panic => .panic

def Address.text (a : Address) : String := String.ofList ('0' :: 'x' :: Hex.encode a)

def Address.fromStr (input : String) : Except AddressStop Address :=
  match input.toList with
  | '0' :: 'x' :: hexadecimal =>
    if Utf8.size hexadecimal ≠ 40 then .error (.error .invalidLength)
    else ((List.range 20).mapM (byteAt hexadecimal)).mapError .ofByte
  | _ => .error (.error .missingPrefix)

/-! ## Digits of either case -/

def Hexadecimal (c : Char) : Prop :=
  ('0' ≤ c ∧ c ≤ '9') ∨ ('a' ≤ c ∧ c ≤ 'f') ∨ ('A' ≤ c ∧ c ≤ 'F')

theorem toDigit_isSome {c : Char} : (toDigit c).isSome = true ↔ Hexadecimal c := by
  unfold toDigit Hexadecimal
  split_ifs with hdigit hlower hupper
  · simp [hdigit]
  · simp [hlower]
  · simp [hupper]
  · simp [hdigit, hlower, hupper]

theorem Hexadecimal.toNat_lt {c : Char} (h : Hexadecimal c) : c.toNat < 128 := by
  have hle : ∀ d : Char, c ≤ d → c.toNat ≤ d.toNat := fun d hd => hd
  rcases h with ⟨-, h⟩ | ⟨-, h⟩ | ⟨-, h⟩
  · exact Nat.lt_of_le_of_lt (hle _ h) (by decide)
  · exact Nat.lt_of_le_of_lt (hle _ h) (by decide)
  · exact Nat.lt_of_le_of_lt (hle _ h) (by decide)

theorem toDigit_some {c : Char} {d : Nat} (h : toDigit c = some d) :
    d < 16 ∧ c.toLower = Hex.digit d ∧ c.utf8Size = 1 := by
  have hall : ∀ n < 128, ((toDigit (Char.ofNat n)).all fun d =>
      d < 16 && (Char.ofNat n).toLower == Hex.digit d && (Char.ofNat n).utf8Size == 1) = true := by decide
  have hlt : c.toNat < 128 := (toDigit_isSome.mp (by rw [h]; rfl)).toNat_lt
  have hc := hall c.toNat hlt
  rw [Char.ofNat_toNat, h] at hc
  simpa [and_assoc] using hc

theorem not_hexadecimal_plus : ¬ Hexadecimal '+' := by
  rw [← toDigit_isSome]
  decide

/-! ## Pairs -/

theorem digitsValue_two (c d : Char) :
    digitsValue [c, d] = (toDigit c).bind fun m => (toDigit d).map fun n => m * 16 + n := by
  cases hc : toDigit c with
  | none => simp [digitsValue, hc]
  | some m =>
    have hm := (toDigit_some hc).1
    cases hd : toDigit d with
    | none => simp [digitsValue, hc, hd]
    | some n =>
      have hn := (toDigit_some hd).1
      simp [digitsValue, hc, hd, show m < 256 by omega, show m * 16 + n < 256 by omega]

theorem digitsValue_one (c : Char) : digitsValue [c] = toDigit c := by
  cases hc : toDigit c with
  | none => simp [digitsValue, hc]
  | some m =>
    have hm := (toDigit_some hc).1
    simp [digitsValue, hc, show m < 256 by omega]

theorem fromStrRadix_two {c d : Char} (h : c ≠ '+') : fromStrRadix [c, d] = digitsValue [c, d] := by
  unfold fromStrRadix
  split
  · rename_i heq
    cases heq
  · rename_i heq
    cases heq
  · rename_i heq
    cases heq
  · rename_i heq
    cases heq
    exact absurd rfl h
  · rfl

theorem fromStrRadix_plus (d : Char) : fromStrRadix ['+', d] = toDigit d := digitsValue_one d

/-- The pairs of two bytes that read as a byte. -/
theorem fromStrRadix_isSome {p : List Char} (hsize : Utf8.size p = 2) :
    (fromStrRadix p).isSome = true ↔
      (∃ c d, p = [c, d] ∧ Hexadecimal c ∧ Hexadecimal d) ∨ ∃ d, p = ['+', d] ∧ Hexadecimal d := by
  match p with
  | [] => simp at hsize
  | [c] =>
    have hnone : toDigit c = none := by
      cases hc : toDigit c with
      | none => rfl
      | some d =>
        have := (toDigit_some hc).2.2
        simp at hsize
        omega
    have hplus : c ≠ '+' := by
      rintro rfl
      exact absurd hsize (by decide)
    have hminus : c ≠ '-' := by
      rintro rfl
      exact absurd hsize (by decide)
    have hradix : fromStrRadix [c] = digitsValue [c] := by
      unfold fromStrRadix
      split <;> simp_all
    simp [hradix, digitsValue_one, hnone]
  | [c, d] =>
    by_cases hc : c = '+'
    · subst hc
      simp [fromStrRadix_plus, toDigit_isSome, not_hexadecimal_plus]
    · rw [fromStrRadix_two hc, digitsValue_two]
      have hboth : ((toDigit c).bind fun m => (toDigit d).map fun n => m * 16 + n).isSome = true ↔
          (toDigit c).isSome = true ∧ (toDigit d).isSome = true := by
        cases toDigit c <;> cases toDigit d <;> simp
      rw [hboth, toDigit_isSome, toDigit_isSome]
      simp [hc]
  | c :: d :: e :: rest =>
    have hc := c.utf8Size_pos
    have hd := d.utf8Size_pos
    have he := e.utf8Size_pos
    simp only [Utf8.size_cons] at hsize
    omega

theorem pairOf_two {c d : Char} (hc : Hexadecimal c) (hd : Hexadecimal d) :
    pairOf (.ofNat ((fromStrRadix [c, d]).getD 0)) = [c.toLower, d.toLower] := by
  obtain ⟨m, hm⟩ := Option.isSome_iff_exists.mp (toDigit_isSome.mpr hc)
  obtain ⟨n, hn⟩ := Option.isSome_iff_exists.mp (toDigit_isSome.mpr hd)
  obtain ⟨hm16, hmc, -⟩ := toDigit_some hm
  obtain ⟨hn16, hnd, -⟩ := toDigit_some hn
  have hplus : c ≠ '+' := by
    rintro rfl
    exact not_hexadecimal_plus hc
  have hvalue : fromStrRadix [c, d] = some (m * 16 + n) := by
    rw [fromStrRadix_two hplus, digitsValue_two, hm, hn]
    rfl
  have hnat : (UInt8.ofNat (m * 16 + n)).toNat = m * 16 + n :=
    UInt8.toNat_ofNat_of_lt' (by simp [UInt8.size]; omega)
  have hdiv : (m * 16 + n) / 16 = m := by omega
  have hmod : (m * 16 + n) % 16 = n := by omega
  rw [hvalue, Option.getD_some, pairOf, hnat, hdiv, hmod, hmc, hnd]

/-! ## Texts -/

/-- Pairs that read as bytes. -/
def Readable (pairs : List (List Char)) : Prop :=
  ∀ p ∈ pairs, Utf8.size p = 2 ∧ (fromStrRadix p).isSome = true

/-- After `0x` come 40 bytes: pairs that read as bytes, then a character that the next cut falls
into. -/
def SplitsAddress (input : String) : Prop :=
  ∃ (pairs : List (List Char)) (rest : List Char),
    input.toList = '0' :: 'x' :: (pairs.flatten ++ rest) ∧ Utf8.size (pairs.flatten ++ rest) = 40 ∧
      Readable pairs ∧ CutsInto rest

/-- After `0x` come 20 pairs that read as bytes, one of them with a plus sign. -/
def SignedAddress (input : String) : Prop :=
  ∃ pairs : List (List Char), input.toList = '0' :: 'x' :: pairs.flatten ∧ pairs.length = 20 ∧
    Readable pairs ∧ ∃ p ∈ pairs, ∃ d, p = ['+', d]

/-- A text of `0x` and 40 hexadecimal digits. -/
def HexAddress (input : String) : Prop :=
  ∃ digits : List Char, input.toList = '0' :: 'x' :: digits ∧ digits.length = 40 ∧ ∀ c ∈ digits, Hexadecimal c

theorem fromStr_of_size {input : String} {hexadecimal : List Char}
    (htext : input.toList = '0' :: 'x' :: hexadecimal) (hsize : Utf8.size hexadecimal = 40) :
    Address.fromStr input = ((List.range 20).mapM (byteAt hexadecimal)).mapError .ofByte := by
  unfold Address.fromStr
  rw [htext]
  simp only [hsize, ne_eq, not_true_eq_false, if_false]

theorem exists_of_fromStr {input : String} (h : ∀ e, Address.fromStr input ≠ .error (.error e)) :
    ∃ hexadecimal, input.toList = '0' :: 'x' :: hexadecimal ∧ Utf8.size hexadecimal = 40 := by
  unfold Address.fromStr at h
  split at h
  · rename_i hexadecimal htext
    refine ⟨hexadecimal, htext, ?_⟩
    by_contra hsize
    rw [if_pos hsize] at h
    exact h _ rfl
  · exact absurd rfl (h .missingPrefix)

theorem fromStr_splits_iff {input : String} :
    Address.fromStr input = .error .panic ↔ SplitsAddress input := by
  have hpanic : ∀ x : Except Stop (List UInt8),
      x.mapError AddressStop.ofByte = .error .panic ↔ x = .error .panic := by
    rintro ((e | _) | bytes) <;> simp [Except.mapError, AddressStop.ofByte]
  constructor
  · intro h
    obtain ⟨hexadecimal, htext, hsize⟩ := exists_of_fromStr fun e he => by
      rw [h] at he
      cases he
    rw [fromStr_of_size htext hsize, hpanic, mapM_panic (by omega)] at h
    obtain ⟨pairs, rest, rfl, hpairs, hcuts⟩ := h
    exact ⟨pairs, rest, htext, hsize, hpairs, hcuts⟩
  · rintro ⟨pairs, rest, htext, hsize, hpairs, hcuts⟩
    rw [fromStr_of_size htext hsize, hpanic, mapM_panic (by omega)]
    exact ⟨pairs, rest, rfl, hpairs, hcuts⟩

/-- What is accepted: 20 pairs that read as bytes. -/
theorem fromStr_ok_iff {input : String} {a : Address} :
    Address.fromStr input = .ok a ↔
      ∃ pairs : List (List Char), input.toList = '0' :: 'x' :: pairs.flatten ∧ pairs.length = 20 ∧
        Readable pairs ∧ a = pairs.map fun p => .ofNat ((fromStrRadix p).getD 0) := by
  have hok : ∀ (x : Except Stop (List UInt8)) bytes,
      x.mapError AddressStop.ofByte = .ok bytes ↔ x = .ok bytes := by
    rintro (e | bytes) bytes' <;> simp [Except.mapError]
  constructor
  · intro h
    obtain ⟨hexadecimal, htext, hsize⟩ := exists_of_fromStr fun e he => by
      rw [h] at he
      cases he
    rw [fromStr_of_size htext hsize, hok] at h
    have hall : ∀ i < 20, ∃ byte, byteAt hexadecimal i = .ok byte := by
      intro i hi
      obtain ⟨byte, -, hbyte⟩ := mem_of_mapM h (List.mem_range.mpr hi)
      exact ⟨byte, hbyte⟩
    obtain ⟨pairs, rest, rfl, hlen, hpairs⟩ := exists_pairs 20 hall
    have hflat := size_flatten fun p hp => (hpairs p hp).1
    have hrest : Utf8.size rest = 0 := by
      rw [Utf8.size_append, hflat, hlen] at hsize
      omega
    obtain rfl := Utf8.size_eq_zero hrest
    rw [List.append_nil] at h htext
    have hread := mapM_pairs hpairs
    rw [hlen, h] at hread
    cases hread
    exact ⟨pairs, htext, hlen, hpairs, rfl⟩
  · rintro ⟨pairs, htext, hlen, hpairs, rfl⟩
    have hsize : Utf8.size pairs.flatten = 40 := by
      rw [size_flatten fun p hp => (hpairs p hp).1, hlen]
    have hread := mapM_pairs hpairs
    rw [hlen] at hread
    rw [fromStr_of_size htext hsize, hok, hread]

theorem exists_digit_pairs {digits : List Char} {n : Nat} (hlen : digits.length = 2 * n)
    (h : ∀ c ∈ digits, Hexadecimal c) :
    ∃ pairs : List (List Char), digits = pairs.flatten ∧ pairs.length = n ∧
      ∀ p ∈ pairs, ∃ c d, p = [c, d] ∧ Hexadecimal c ∧ Hexadecimal d := by
  induction n generalizing digits with
  | zero => exact ⟨[], List.length_eq_zero_iff.mp hlen, rfl, by simp⟩
  | succ n ih =>
    match digits, hlen, h with
    | c :: d :: rest, hlen, h =>
      obtain ⟨pairs, rfl, hpairs, hall⟩ := ih (by simpa [Nat.mul_succ] using hlen)
        fun c hc => h c (by simp [hc])
      refine ⟨[c, d] :: pairs, rfl, by simp [hpairs], ?_⟩
      intro p hp
      rcases List.mem_cons.mp hp with rfl | hp
      · exact ⟨c, d, rfl, h c (by simp), h d (by simp)⟩
      · exact hall p hp

theorem readable_of_digits {pairs : List (List Char)}
    (h : ∀ p ∈ pairs, ∃ c d, p = [c, d] ∧ Hexadecimal c ∧ Hexadecimal d) : Readable pairs := by
  intro p hp
  obtain ⟨c, d, rfl, hc, hd⟩ := h p hp
  obtain ⟨m, hm⟩ := Option.isSome_iff_exists.mp (toDigit_isSome.mpr hc)
  obtain ⟨n, hn⟩ := Option.isSome_iff_exists.mp (toDigit_isSome.mpr hd)
  have hsize : Utf8.size [c, d] = 2 := by simp [(toDigit_some hm).2.2, (toDigit_some hn).2.2]
  exact ⟨hsize, (fromStrRadix_isSome hsize).mpr (.inl ⟨c, d, rfl, hc, hd⟩)⟩

theorem encode_of_digits {pairs : List (List Char)}
    (h : ∀ p ∈ pairs, ∃ c d, p = [c, d] ∧ Hexadecimal c ∧ Hexadecimal d) :
    Hex.encode (pairs.map fun p => .ofNat ((fromStrRadix p).getD 0)) = pairs.flatten.map Char.toLower := by
  rw [encode_eq, List.map_map, List.map_flatten]
  congr 1
  apply List.map_congr_left
  intro p hp
  obtain ⟨c, d, rfl, hc, hd⟩ := h p hp
  exact pairOf_two hc hd

/-- Parsing returns, accepts digits of either case only, and gives what the text says in lower
case. -/
structure ParsesAddress (input : String) : Prop where
  returns : Address.fromStr input ≠ .error .panic
  accepts : (∃ a, Address.fromStr input = .ok a) ↔ HexAddress input
  text : ∀ a, Address.fromStr input = .ok a → a.length = 20 ∧ a.text.toList = input.toList.map Char.toLower

theorem digits_of_unsigned {input : String} (h : ¬ SignedAddress input) {pairs : List (List Char)}
    (htext : input.toList = '0' :: 'x' :: pairs.flatten) (hlen : pairs.length = 20) (hpairs : Readable pairs) :
    ∀ p ∈ pairs, ∃ c d, p = [c, d] ∧ Hexadecimal c ∧ Hexadecimal d := by
  intro p hp
  obtain ⟨hsize, hradix⟩ := hpairs p hp
  rcases (fromStrRadix_isSome hsize).mp hradix with hdigits | ⟨d, rfl, -⟩
  · exact hdigits
  · exact absurd ⟨pairs, htext, hlen, hpairs, _, hp, d, rfl⟩ h

theorem Address.fromStr_text {a : Address} (ha : a.length = 20) : Address.fromStr a.text = .ok a := by
  have hsize : Utf8.size (Hex.encode a) = 40 := by
    rw [encode_eq, size_flatten fun p hp => size_pairs hp, List.length_map, ha]
  have hread : (List.range 20).mapM (byteAt (Hex.encode a)) = .ok a := ha ▸ mapM_encode a
  have htext : a.text.toList = '0' :: 'x' :: Hex.encode a := String.toList_ofList
  rw [fromStr_of_size htext hsize, hread]
  rfl

/-- **Parsing.** It is exact for every text but those with a character that a cut falls into and
those with a sign, and every address of 20 bytes is read back from its text. -/
theorem parses_address_iff (input : String) (a : Address) :
    (ParsesAddress input ↔ ¬ SplitsAddress input ∧ ¬ SignedAddress input) ∧
      (a.length = 20 → Address.fromStr a.text = .ok a) := by
  refine ⟨⟨?_, ?_⟩, ?_⟩
  · intro h
    refine ⟨fun hsplits => h.returns (fromStr_splits_iff.mpr hsplits), ?_⟩
    rintro ⟨pairs, htext, hlen, hpairs, p, hp, d, rfl⟩
    have hok := fromStr_ok_iff.mpr ⟨pairs, htext, hlen, hpairs, rfl⟩
    obtain ⟨digits, htext', -, hdigits⟩ := h.accepts.mp ⟨_, hok⟩
    rw [htext] at htext'
    cases htext'
    exact not_hexadecimal_plus (hdigits '+' (List.mem_flatten.mpr ⟨_, hp, by simp⟩))
  · rintro ⟨hsplits, hsigned⟩
    refine ⟨fun hpanic => hsplits (fromStr_splits_iff.mp hpanic), ⟨?_, ?_⟩, ?_⟩
    · rintro ⟨a, ha⟩
      obtain ⟨pairs, htext, hlen, hpairs, -⟩ := fromStr_ok_iff.mp ha
      have hdigits := digits_of_unsigned hsigned htext hlen hpairs
      refine ⟨pairs.flatten, htext, ?_, ?_⟩
      · have htwo : ∀ p ∈ pairs, p.length = 2 := by
          intro p hp
          obtain ⟨c, d, rfl, -, -⟩ := hdigits p hp
          rfl
        rw [List.length_flatten, List.map_congr_left htwo, List.map_const', List.sum_replicate_nat, hlen]
      · intro c hc
        obtain ⟨p, hp, hc⟩ := List.mem_flatten.mp hc
        obtain ⟨d, e, rfl, hd, he⟩ := hdigits p hp
        simp only [List.mem_cons, List.not_mem_nil, or_false] at hc
        rcases hc with rfl | rfl
        · exact hd
        · exact he
    · rintro ⟨digits, htext, hlen, hdigits⟩
      obtain ⟨pairs, rfl, hpairs, hall⟩ := exists_digit_pairs (by omega : digits.length = 2 * 20) hdigits
      exact ⟨_, fromStr_ok_iff.mpr ⟨pairs, htext, hpairs, readable_of_digits hall, rfl⟩⟩
    · intro a ha
      obtain ⟨pairs, htext, hlen, hpairs, rfl⟩ := fromStr_ok_iff.mp ha
      refine ⟨by rw [List.length_map, hlen], ?_⟩
      rw [Address.text, String.toList_ofList, htext,
        encode_of_digits (digits_of_unsigned hsigned htext hlen hpairs)]
      rfl
  · exact Address.fromStr_text

theorem parses_address_sample :
    Address.fromStr (Address.text (List.replicate 20 0xab)) = .ok (List.replicate 20 0xab) :=
  (parses_address_iff "" _).2 (by decide)

/-- A plus sign and 39 zeros after `0x`. -/
def signedText : String := String.ofList ('0' :: 'x' :: '+' :: List.replicate 39 '0')

/-- A euro sign, three bytes long, and 37 zeros after `0x`. -/
def euroAddress : String := String.ofList ('0' :: 'x' :: '€' :: List.replicate 37 '0')

theorem parses_address_fails :
    Address.fromStr euroAddress = .error .panic ∧ Address.fromStr signedText = .ok (List.replicate 20 0) ∧
      ¬ ParsesAddress euroAddress ∧ ¬ ParsesAddress signedText := by
  have hpanic : Address.fromStr euroAddress = .error .panic := by decide
  have hsigned : Address.fromStr signedText = .ok (List.replicate 20 0) := by decide
  refine ⟨hpanic, hsigned, fun h => h.returns hpanic, ?_⟩
  intro h
  have htext := (h.text _ hsigned).2
  exact absurd htext (by decide)

end PaymentSdk.Ethereum
