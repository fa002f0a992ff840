import Mathlib.Data.List.Induction
import PaymentSdk.Ethereum.Address

/-!
# Quantities and data on the wire

A quantity is `0x` and digits without a leading zero, data is `0x` and pairs of digits. The checks
count bytes of UTF-8, and the library that decodes data takes off a `0x` of its own.
-/

open Checked

namespace PaymentSdk.Ethereum.Wire

/-- The bytes of a text. -/
def utf8 (text : List Char) : List UInt8 := text.flatMap String.utf8EncodeChar

def isAsciiHexdigit (byte : UInt8) : Bool :=
  (48 ≤ byte && byte ≤ 57) || (65 ≤ byte && byte ≤ 70) || (97 ≤ byte && byte ≤ 102)

/-! ## The libraries -/

/-- At most one optional `0x` is taken off. -/
def stripPrefix : List UInt8 → List UInt8
  | 48 :: 120 :: rest => rest
  | bytes => bytes

/-- `hex::decode`. It takes bytes. -/
def decode (input : List UInt8) : Option (List UInt8) := Hex.decodePairs (stripPrefix input)

/-- `hex::decode_to_array`. -/
def decodeToArray (n : Nat) (input : List UInt8) : Option (Vector UInt8 n) :=
  (decode input).bind fun bytes => if h : bytes.length = n then some ⟨bytes.toArray, h⟩ else none

/-- The 256-bit integers: `from_str_radix` in base 16, and the format `{:#x}`. -/
structure U256Library where
  fromStrRadix : List Char → Option Wei
  lowerHex : Wei → List Char

/-- The number that digits stand for. -/
def value (digits : List Char) : Nat := digits.foldl (fun v c => 16 * v + (toDigit c).getD 0) 0

structure U256Library.Exact (lib : U256Library) : Prop where
  fromStrRadix : ∀ digits (h : value digits < 2 ^ 256), digits ≠ [] → (∀ c ∈ digits, Hexadecimal c) →
    lib.fromStrRadix digits = some ⟨value digits, h⟩
  lowerHex : ∀ w : Wei, lib.lowerHex w = '0' :: 'x' :: Nat.toDigits 16 w.val

/-- The digits of a 64-bit number, most significant first. -/
def digitsU64 (digits : List Char) : Option Nat :=
  digits.foldlM (fun v c => do
    let digit ← toDigit c
    if v * 16 < 2 ^ 64 ∧ v * 16 + digit < 2 ^ 64 then some (v * 16 + digit) else none) 0

/-- `u64::from_str_radix` in base 16. -/
def u64FromStrRadix (src : List Char) : Option UInt64 :=
  match src with
  | [] => none
  | ['+'] => none
  | ['-'] => none
  | '+' :: digits => (digitsU64 digits).map .ofNat
  | digits => (digitsU64 digits).map .ofNat

/-! ## The codecs -/

/-- The text after `0x`. -/
def strip0x (s : String) (message : String) : Except String (List Char) :=
  match s.toList with
  | '0' :: 'x' :: digits => .ok digits
  | _ => .error message

def quantityDigits (s : String) : Except String (List Char) := do
  let digits ← strip0x s "hex quantity has no 0x prefix"
  if digits.isEmpty then throw "hex quantity is empty"
  if Utf8.size digits > 1 ∧ digits.head? = some '0' then throw "hex quantity contains a leading zero"
  if !(utf8 digits).all isAsciiHexdigit then throw "hex quantity contains invalid data"
  return digits

def parseQuantityU64 (s : String) : Except String UInt64 := do
  let digits ← quantityDigits s
  (u64FromStrRadix digits).elim (throw "hex quantity exceeds u64") pure

def toQuantity (lib : U256Library) (w : Wei) : String := String.ofList (lib.lowerHex w)

def fromQuantity (lib : U256Library) (s : String) : Except String Wei := do
  let digits ← quantityDigits s
  if Utf8.size digits > 64 then throw "hex quantity exceeds 256 bits"
  (lib.fromStrRadix digits).elim (throw "hex data contains invalid data") pure

def parseFixedData (n : Nat) (s : String) : Except String (Vector UInt8 n) := do
  let digits ← strip0x s "hex data has no 0x prefix"
  if Utf8.size digits ≠ n * 2 then throw "hex data has an invalid length"
  (decodeToArray n (utf8 digits)).elim (throw "hex data contains invalid data") pure

/-- The whole text goes to the library, which takes the `0x` off. -/
def parseData (s : String) : Except String (List UInt8) := do
  let digits ← strip0x s "hex data has no 0x prefix"
  if Utf8.size digits % 2 ≠ 0 then throw "hex data has an invalid length"
  (decode (utf8 s.toList)).elim (throw "hex data contains invalid data") pure

/-! ## Bytes of digits -/

set_option maxRecDepth 4096 in
theorem isAsciiHexdigit_eq (byte : UInt8) : isAsciiHexdigit byte = (Hex.nibble byte).isSome := by
  have hall : ∀ n < 256, isAsciiHexdigit (.ofNat n) = (Hex.nibble (.ofNat n)).isSome := by decide
  have h := hall byte.toNat byte.toNat_lt
  rwa [UInt8.ofNat_toNat] at h

theorem nibble_ascii {c : Char} (h : c.toNat < 128) :
    String.utf8EncodeChar c = [.ofNat c.toNat] ∧ Hex.nibble (.ofNat c.toNat) = toDigit c := by
  have hall : ∀ n < 128, String.utf8EncodeChar (Char.ofNat n) = [.ofNat (Char.ofNat n).toNat] ∧
      Hex.nibble (.ofNat (Char.ofNat n).toNat) = toDigit (Char.ofNat n) := by decide
  have hc := hall c.toNat h
  rwa [Char.ofNat_toNat] at hc

theorem nibble_high {n : Nat} (h : 192 ≤ n) (hn : n < 256) : Hex.nibble (.ofNat n) = none := by
  have hnat : (UInt8.ofNat n).toNat = n := UInt8.toNat_ofNat_of_lt' hn
  have hle : ∀ b : UInt8, b.toNat < 192 → ¬ UInt8.ofNat n ≤ b := by
    intro b hb hle
    have := UInt8.le_iff_toNat_le.mp hle
    omega
  rw [Hex.nibble, if_neg (fun hand => hle 57 (by decide) hand.2), if_neg (fun hand => hle 102 (by decide) hand.2),
    if_neg (fun hand => hle 70 (by decide) hand.2)]

theorem nibble_wide {c : Char} (h : 128 ≤ c.toNat) :
    ∃ b ∈ String.utf8EncodeChar c, Hex.nibble b = none := by
  have hval : c.val.toNat = c.toNat := rfl
  unfold String.utf8EncodeChar
  dsimp only
  split_ifs with h1 h2 h3
  · omega
  · exact ⟨_, List.mem_cons_self, nibble_high (by omega) (by omega)⟩
  · exact ⟨_, List.mem_cons_self, nibble_high (by omega) (by omega)⟩
  · exact ⟨_, List.mem_cons_self, nibble_high (by omega) (by omega)⟩

theorem digits_of_char (c : Char) :
    (∀ b ∈ String.utf8EncodeChar c, (Hex.nibble b).isSome = true) ↔ Hexadecimal c := by
  rw [← toDigit_isSome]
  by_cases h : c.toNat < 128
  · obtain ⟨hbytes, hnibble⟩ := nibble_ascii h
    simp [hbytes, hnibble]
  · obtain ⟨b, hb, hnone⟩ := nibble_wide (Nat.not_lt.mp h)
    constructor
    · intro hall
      have := hall b hb
      simp [hnone] at this
    · intro hsome
      exact absurd (toDigit_isSome.mp hsome).toNat_lt h

theorem digits_of_text (text : List Char) :
    (∀ b ∈ utf8 text, (Hex.nibble b).isSome = true) ↔ ∀ c ∈ text, Hexadecimal c := by
  simp only [utf8, List.mem_flatMap]
  constructor
  · intro h c hc
    exact (digits_of_char c).mp fun b hb => h b ⟨c, hc, hb⟩
  · rintro h b ⟨c, hc, hb⟩
    exact (digits_of_char c).mpr (h c hc) b hb

theorem all_hexdigit (text : List Char) :
    (utf8 text).all isAsciiHexdigit = true ↔ ∀ c ∈ text, Hexadecimal c := by
  rw [List.all_eq_true, ← digits_of_text]
  simp only [isAsciiHexdigit_eq]

theorem length_utf8 (text : List Char) : (utf8 text).length = Utf8.size text := by
  induction text with
  | nil => rfl
  | cons c text ih =>
    rw [Utf8.size_cons, ← ih, utf8, List.flatMap_cons, List.length_append, String.length_utf8EncodeChar]
    rfl

theorem size_of_digits {digits : List Char} (h : ∀ c ∈ digits, Hexadecimal c) :
    Utf8.size digits = digits.length := by
  induction digits with
  | nil => rfl
  | cons c digits ih =>
    obtain ⟨d, hd⟩ := Option.isSome_iff_exists.mp (toDigit_isSome.mpr (h c List.mem_cons_self))
    rw [Utf8.size_cons, (toDigit_some hd).2.2, ih fun c hc => h c (List.mem_cons_of_mem _ hc),
      List.length_cons, Nat.add_comm]

theorem utf8_cons {c : Char} {d : Nat} (h : toDigit c = some d) (text : List Char) :
    ∃ b, utf8 (c :: text) = b :: utf8 text ∧ Hex.nibble b = some d := by
  have hlt : c.toNat < 128 := (toDigit_isSome.mp (by rw [h]; rfl)).toNat_lt
  obtain ⟨hbytes, hnibble⟩ := nibble_ascii hlt
  exact ⟨_, by rw [utf8, List.flatMap_cons, hbytes]; rfl, by rw [hnibble, h]⟩

/-! ## Data -/

theorem encode_decodePairs {digits : List Char} {bytes : List UInt8} (h : ∀ c ∈ digits, Hexadecimal c)
    (hread : Hex.decodePairs (utf8 digits) = some bytes) : Hex.encode bytes = digits.map Char.toLower := by
  match digits with
  | [] =>
    cases hread
    rfl
  | [c] =>
    have hlen := Hex.decodePairs_length hread
    rw [length_utf8, size_of_digits h, List.length_singleton] at hlen
    omega
  | c :: d :: rest =>
    obtain ⟨m, hm⟩ := Option.isSome_iff_exists.mp (toDigit_isSome.mpr (h c (by simp)))
    obtain ⟨n, hn⟩ := Option.isSome_iff_exists.mp (toDigit_isSome.mpr (h d (by simp)))
    obtain ⟨hm16, hmc, -⟩ := toDigit_some hm
    obtain ⟨hn16, hnd, -⟩ := toDigit_some hn
    obtain ⟨a, ha, hna⟩ := utf8_cons hm (d :: rest)
    obtain ⟨b, hb, hnb⟩ := utf8_cons hn rest
    rw [ha, hb, Hex.decodePairs, hna, hnb] at hread
    simp only [Option.bind_eq_bind, Option.bind_some, Option.bind_eq_some_iff, Option.pure_def,
      Option.some.injEq] at hread
    obtain ⟨tail, htail, rfl⟩ := hread
    have ih := encode_decodePairs (fun c hc => h c (by simp [hc])) htail
    have hnat : (UInt8.ofNat (16 * m + n)).toNat = 16 * m + n := UInt8.toNat_ofNat_of_lt' (by simp only [UInt8.size]; omega)
    have hdiv : (16 * m + n) / 16 = m := by omega
    have hmod : (16 * m + n) % 16 = n := by omega
    rw [Hex.encode, List.flatMap_cons, hnat, hdiv, hmod, ← Hex.encode, ih, List.map_cons, List.map_cons, hmc, hnd]
    rfl

/-- `0x` and pairs of digits. -/
def IsData (s : String) : Prop :=
  ∃ digits : List Char, s.toList = '0' :: 'x' :: digits ∧ digits.length % 2 = 0 ∧ ∀ c ∈ digits, Hexadecimal c

/-- The texts of so many bytes. -/
def IsFixedData (n : Nat) (s : String) : Prop :=
  ∃ digits : List Char, s.toList = '0' :: 'x' :: digits ∧ digits.length = 2 * n ∧ ∀ c ∈ digits, Hexadecimal c

theorem strip0x_ok {s message : String} {digits : List Char} :
    strip0x s message = .ok digits ↔ s.toList = '0' :: 'x' :: digits := by
  unfold strip0x
  split
  · rename_i rest htext
    simp [htext]
  · rename_i hne
    exact ⟨fun h => (nomatch h), fun h => (hne digits h).elim⟩

theorem utf8_0x (digits : List Char) : utf8 ('0' :: 'x' :: digits) = 48 :: 120 :: utf8 digits := rfl

theorem elim_ok {α : Type} {x : Option α} {message : String} {a : α} :
    x.elim (throw message : Except String α) pure = .ok a ↔ x = some a := by
  cases x <;> simp [throw, throwThe, MonadExceptOf.throw, pure, Except.pure]

theorem decodePairs_digits {digits : List Char} :
    (∃ bytes, Hex.decodePairs (utf8 digits) = some bytes) ↔
      digits.length % 2 = 0 ∧ ∀ c ∈ digits, Hexadecimal c := by
  rw [← Option.isSome_iff_exists, Hex.decodePairs_isSome, digits_of_text, length_utf8]
  refine and_congr_left fun h => ?_
  rw [size_of_digits h]

theorem parseData_ok {s : String} {bytes : List UInt8} :
    parseData s = .ok bytes ↔
      ∃ digits, s.toList = '0' :: 'x' :: digits ∧ Hex.decodePairs (utf8 digits) = some bytes := by
  have hread : ∀ digits, s.toList = '0' :: 'x' :: digits →
      decode (utf8 s.toList) = Hex.decodePairs (utf8 digits) := by
    intro digits htext
    rw [decode, htext, utf8_0x, stripPrefix]
  unfold parseData
  rw [bind_ok]
  refine exists_congr fun digits => ?_
  rw [strip0x_ok]
  refine and_congr_right fun htext => ?_
  rw [hread digits htext]
  by_cases hodd : Utf8.size digits % 2 = 0
  · rw [if_neg (not_not.mpr hodd)]
    exact elim_ok
  · rw [if_pos hodd]
    refine ⟨fun hthrow => (nomatch hthrow), fun hsome => absurd ?_ hodd⟩
    rw [← length_utf8, Hex.decodePairs_length hsome, Nat.mul_mod_right]

theorem toList_decodeToArray (n : Nat) (input : List UInt8) : (decodeToArray n input).map Vector.toList =
    (Hex.decodePairs (stripPrefix input)).filter fun bytes => bytes.length == n := by
  unfold decodeToArray decode
  cases Hex.decodePairs (stripPrefix input) with
  | none => rfl
  | some bytes =>
    rw [Option.filter_some]
    by_cases h : bytes.length = n
    · simp [h]
    · simp [h]

theorem decodePairs_stripPrefix {bytes : List UInt8} {n : Nat} (hlen : bytes.length = 2 * n) :
    (Hex.decodePairs (stripPrefix bytes)).filter (fun out => out.length == n) = Hex.decodePairs bytes := by
  unfold stripPrefix
  split
  · rename_i rest
    have hnone : Hex.decodePairs (48 :: 120 :: rest) = none := rfl
    rw [hnone]
    cases hrest : Hex.decodePairs rest with
    | none => rfl
    | some out =>
      have hout := Hex.decodePairs_length hrest
      have hne : out.length ≠ n := by
        simp only [List.length_cons] at hlen
        omega
      simp [hne]
  · cases hread : Hex.decodePairs bytes with
    | none => rfl
    | some out =>
      have hout := Hex.decodePairs_length hread
      have heq : out.length = n := by omega
      simp [heq]

theorem parseFixedData_ok {n : Nat} {s : String} {bytes : Vector UInt8 n} :
    parseFixedData n s = .ok bytes ↔
      ∃ digits, s.toList = '0' :: 'x' :: digits ∧ Hex.decodePairs (utf8 digits) = some bytes.toList := by
  unfold parseFixedData
  rw [bind_ok]
  refine exists_congr fun digits => ?_
  rw [strip0x_ok]
  refine and_congr_right fun _ => ?_
  by_cases hlen : Utf8.size digits = n * 2
  · have hbytes : (utf8 digits).length = 2 * n := by rw [length_utf8, hlen, Nat.mul_comm]
    have hread := toList_decodeToArray n (utf8 digits)
    rw [decodePairs_stripPrefix hbytes] at hread
    rw [if_neg (not_not.mpr hlen), ← hread, Option.map_eq_some_iff]
    refine elim_ok.trans ⟨fun hsome => ⟨bytes, hsome, rfl⟩, ?_⟩
    rintro ⟨bytes', hsome, heq⟩
    rw [hsome, Vector.toList_inj.mp heq]
  · rw [if_pos hlen]
    refine ⟨fun hthrow => (nomatch hthrow), fun hsome => absurd ?_ hlen⟩
    rw [← length_utf8, Hex.decodePairs_length hsome, Vector.length_toList, Nat.mul_comm]

/-! ## Numbers -/

theorem value_append (digits : List Char) {c : Char} {d : Nat} (h : toDigit c = some d) :
    value (digits ++ [c]) = 16 * value digits + d := by
  simp [value, h]

theorem value_lt {digits : List Char} (h : ∀ c ∈ digits, Hexadecimal c) : value digits < 16 ^ digits.length := by
  induction digits using List.reverseRecOn with
  | nil => decide
  | append_singleton digits c ih =>
    obtain ⟨d, hd⟩ := Option.isSome_iff_exists.mp (toDigit_isSome.mpr (h c (by simp)))
    have hd16 := (toDigit_some hd).1
    have hinit := ih fun c hc => h c (List.mem_append_left _ hc)
    rw [value_append digits hd, List.length_append, List.length_singleton, Nat.pow_succ]
    omega

theorem value_lt_of_length {digits : List Char} (h : ∀ c ∈ digits, Hexadecimal c) (hlen : digits.length ≤ 64) :
    value digits < 2 ^ 256 := calc
  value digits < 16 ^ digits.length := value_lt h
  _ ≤ 16 ^ 64 := Nat.pow_le_pow_right (by decide) hlen
  _ = 2 ^ 256 := by decide

theorem toDigit_eq_zero {c : Char} (h : toDigit c = some 0) : c = '0' := by
  have hall : ∀ n < 128, toDigit (Char.ofNat n) = some 0 → Char.ofNat n = '0' := by decide
  have hlt : c.toNat < 128 := (toDigit_isSome.mp (by rw [h]; rfl)).toNat_lt
  have hc := hall c.toNat hlt
  rw [Char.ofNat_toNat] at hc
  exact hc h

theorem le_value {digits : List Char} (hne : digits ≠ []) (h : ∀ c ∈ digits, Hexadecimal c)
    (hhead : digits.head? ≠ some '0') : 16 ^ (digits.length - 1) ≤ value digits := by
  induction digits using List.reverseRecOn with
  | nil => exact absurd rfl hne
  | append_singleton digits c ih =>
    obtain ⟨d, hd⟩ := Option.isSome_iff_exists.mp (toDigit_isSome.mpr (h c (by simp)))
    rw [value_append digits hd, List.length_append, List.length_singleton, Nat.add_sub_cancel]
    by_cases hnil : digits = []
    · subst hnil
      have hpos : d ≠ 0 := by
        rintro rfl
        exact hhead (by rw [toDigit_eq_zero hd]; rfl)
      simp only [List.length_nil, Nat.pow_zero]
      omega
    · have hinit := ih hnil (fun c hc => h c (List.mem_append_left _ hc))
        (by rwa [List.head?_append_of_ne_nil _ hnil] at hhead)
      have hlen : digits.length = digits.length - 1 + 1 := by
        have := List.length_pos_iff.mpr hnil
        omega
      rw [hlen, Nat.pow_succ]
      omega

/-! ## The digits of a number -/

theorem toDigit_digitChar {d : Nat} (h : d < 16) : toDigit (Nat.digitChar d) = some d := by
  have hall : ∀ d < 16, toDigit (Nat.digitChar d) = some d := by decide
  exact hall d h

theorem toDigits_digits (n : Nat) : (∀ c ∈ Nat.toDigits 16 n, Hexadecimal c) ∧ value (Nat.toDigits 16 n) = n := by
  induction n using Nat.strong_induction_on with
  | _ n ih =>
    rw [Nat.toDigits_eq_if (by decide)]
    split_ifs with hlt
    · have hd := toDigit_digitChar hlt
      refine ⟨?_, by simp [value, hd]⟩
      intro c hc
      rw [List.mem_singleton.mp hc, ← toDigit_isSome, hd]
      rfl
    · have hd := toDigit_digitChar (Nat.mod_lt n (by decide : 16 > 0))
      obtain ⟨hall, hvalue⟩ := ih (n / 16) (by omega)
      refine ⟨?_, ?_⟩
      · intro c hc
        rcases List.mem_append.mp hc with hc | hc
        · exact hall c hc
        · rw [List.mem_singleton.mp hc, ← toDigit_isSome, hd]
          rfl
      · rw [value_append _ hd, hvalue]
        omega

theorem head_toDigits {n : Nat} (h : n ≠ 0) : (Nat.toDigits 16 n).head? ≠ some '0' := by
  induction n using Nat.strong_induction_on with
  | _ n ih =>
    rw [Nat.toDigits_eq_if (by decide)]
    split_ifs with hlt
    · intro heq
      have hd := toDigit_digitChar hlt
      rw [Option.some.inj heq] at hd
      exact h (Option.some.inj hd).symm
    · rw [List.head?_append_of_ne_nil _ Nat.toDigits_ne_nil]
      exact ih (n / 16) (by omega) (by omega)

/-! ## Quantities -/

variable {uint : U256Library}

/-- `0x` and digits, without a leading zero unless zero is the only digit. -/
def QuantityDigits (digits : List Char) : Prop :=
  digits ≠ [] ∧ (∀ c ∈ digits, Hexadecimal c) ∧ (digits.head? = some '0' → digits = ['0'])

/-- The texts of the grammar that fit into 256 bits. -/
def IsQuantity (s : String) : Prop :=
  ∃ digits, s.toList = '0' :: 'x' :: digits ∧ QuantityDigits digits ∧ digits.length ≤ 64

theorem not_all_hexdigit {text : List Char} :
    (!(utf8 text).all isAsciiHexdigit) = true ↔ ¬ ∀ c ∈ text, Hexadecimal c := by
  rw [← all_hexdigit, Bool.not_eq_true', Bool.not_eq_true]

theorem quantityDigits_ok {s : String} {digits : List Char} :
    quantityDigits s = .ok digits ↔ s.toList = '0' :: 'x' :: digits ∧ QuantityDigits digits := by
  unfold quantityDigits
  rw [bind_ok]
  simp only [strip0x_ok, bind, Except.bind, throw, throwThe, MonadExceptOf.throw, pure, Except.pure,
    List.isEmpty_iff]
  constructor
  · rintro ⟨digits', htext, h⟩
    split_ifs at h with hempty hzero hdigits
    cases h
    have hall := not_not.mp fun hnot => hdigits (not_all_hexdigit.mpr hnot)
    refine ⟨htext, hempty, hall, ?_⟩
    intro hhead
    rw [size_of_digits hall] at hzero
    have hlen : digits.length ≤ 1 := Nat.not_lt.mp fun hlt => hzero ⟨hlt, hhead⟩
    obtain ⟨tail, rfl⟩ := List.head?_eq_some_iff.mp hhead
    rw [List.length_cons] at hlen
    rw [List.length_eq_zero_iff.mp (by omega : tail.length = 0)]
  · rintro ⟨htext, hne, hdigits, hzero⟩
    refine ⟨digits, htext, ?_⟩
    have hsize : ¬ (Utf8.size digits > 1 ∧ digits.head? = some '0') := by
      rintro ⟨hsize, hhead⟩
      rw [hzero hhead] at hsize
      exact absurd hsize (by decide)
    rw [if_neg hne, if_neg hsize, if_neg fun hnot => not_all_hexdigit.mp hnot hdigits]

theorem digitsU64_eq {digits : List Char} (h : ∀ c ∈ digits, Hexadecimal c) :
    digitsU64 digits = if value digits < 2 ^ 64 then some (value digits) else none := by
  induction digits using List.reverseRecOn with
  | nil => rfl
  | append_singleton digits c ih =>
    obtain ⟨d, hd⟩ := Option.isSome_iff_exists.mp (toDigit_isSome.mpr (h c (by simp)))
    have hinit := ih fun c hc => h c (List.mem_append_left _ hc)
    rw [digitsU64] at hinit ⊢
    rw [List.foldlM_append, hinit, value_append digits hd]
    by_cases hlt : value digits < 2 ^ 64
    · rw [if_pos hlt]
      simp only [List.foldlM_cons, List.foldlM_nil, hd, Option.bind_eq_bind, Option.bind_some, Option.pure_def,
        Option.bind_fun_some, Nat.mul_comm (value digits) 16]
      by_cases hnext : 16 * value digits + d < 2 ^ 64
      · rw [if_pos hnext, if_pos ⟨by omega, hnext⟩]
      · rw [if_neg hnext, if_neg fun hand => hnext hand.2]
    · rw [if_neg hlt, if_neg (by omega)]
      rfl

theorem u64FromStrRadix_digits {digits : List Char} (hne : digits ≠ []) (h : ∀ c ∈ digits, Hexadecimal c) :
    u64FromStrRadix digits = (digitsU64 digits).map .ofNat := by
  have hhead : ∀ c rest, digits = c :: rest → c ≠ '+' ∧ c ≠ '-' := by
    rintro c rest rfl
    have hc := h c List.mem_cons_self
    refine ⟨?_, ?_⟩
    · rintro rfl
      exact not_hexadecimal_plus hc
    · rintro rfl
      rw [← toDigit_isSome] at hc
      exact absurd hc (by decide)
  unfold u64FromStrRadix
  split
  · exact absurd rfl hne
  · exact absurd rfl (hhead _ _ rfl).1
  · exact absurd rfl (hhead _ _ rfl).2
  · exact absurd rfl (hhead _ _ rfl).1
  · rfl

theorem parseQuantityU64_ok {s : String} {n : UInt64} :
    parseQuantityU64 s = .ok n ↔
      ∃ digits, s.toList = '0' :: 'x' :: digits ∧ QuantityDigits digits ∧ value digits = n.toNat := by
  unfold parseQuantityU64
  rw [bind_ok]
  refine exists_congr fun digits => ?_
  rw [quantityDigits_ok, and_assoc]
  refine and_congr_right fun _ => and_congr_right fun hquantity => ?_
  rw [elim_ok, u64FromStrRadix_digits hquantity.1 hquantity.2.1, digitsU64_eq hquantity.2.1]
  have hn := n.toNat_lt
  split_ifs with hlt
  · rw [Option.map_some, Option.some.injEq, ← UInt64.toNat_inj, UInt64.toNat_ofNat_of_lt' hlt]
  · simp only [Option.map_none, reduceCtorEq, false_iff]
    omega

theorem fromQuantity_ok (h : uint.Exact) {s : String} {w : Wei} :
    fromQuantity uint s = .ok w ↔ ∃ digits, s.toList = '0' :: 'x' :: digits ∧ QuantityDigits digits ∧
      digits.length ≤ 64 ∧ value digits = w.val := by
  unfold fromQuantity
  rw [bind_ok]
  refine exists_congr fun digits => ?_
  rw [quantityDigits_ok, and_assoc]
  refine and_congr_right fun _ => and_congr_right fun hquantity => ?_
  rw [size_of_digits hquantity.2.1]
  by_cases hlen : digits.length ≤ 64
  · have hlt := value_lt_of_length hquantity.2.1 hlen
    rw [if_neg (Nat.not_lt.mpr hlen)]
    refine elim_ok.trans ?_
    rw [h.fromStrRadix digits hlt hquantity.1 hquantity.2.1, Option.some.injEq, Fin.ext_iff]
    exact ⟨fun heq => ⟨hlen, heq⟩, And.right⟩
  · rw [if_pos (by omega)]
    exact ⟨fun hthrow => (nomatch hthrow), fun hand => absurd hand.1 hlen⟩

theorem length_le_of_value_lt {digits : List Char} (h : QuantityDigits digits) (hlt : value digits < 2 ^ 64) :
    digits.length ≤ 64 := by
  by_cases hhead : digits.head? = some '0'
  · rw [h.2.2 hhead]
    decide
  · have hle := le_value h.1 h.2.1 hhead
    by_contra hlen
    have hpow : 16 ^ 64 ≤ 16 ^ (digits.length - 1) := Nat.pow_le_pow_right (by decide) (by omega)
    have hbig : 2 ^ 64 ≤ 16 ^ 64 := by decide
    omega

theorem fromQuantity_toQuantity (h : uint.Exact) (w : Wei) : fromQuantity uint (toQuantity uint w) = .ok w := by
  obtain ⟨hdigits, hvalue⟩ := toDigits_digits w.val
  rw [fromQuantity_ok h]
  refine ⟨Nat.toDigits 16 w.val, ?_, ⟨Nat.toDigits_ne_nil, hdigits, ?_⟩, ?_, hvalue⟩
  · rw [toQuantity, h.lowerHex, String.toList_ofList]
  · intro hhead
    have hzero : w.val = 0 := by
      by_contra hne
      exact head_toDigits hne hhead
    rw [hzero]
    decide
  · rw [Nat.length_toDigits_le_iff (by decide) (by decide)]
    calc w.val < 2 ^ 256 := w.isLt
      _ = 16 ^ 64 := by decide

/-! ## Exactness -/

theorem fromQuantity_accepts (h : uint.Exact) (s : String) :
    (∃ w, fromQuantity uint s = .ok w) ↔ IsQuantity s := by
  constructor
  · rintro ⟨w, hw⟩
    obtain ⟨digits, htext, hdigits, hlen, -⟩ := (fromQuantity_ok h).mp hw
    exact ⟨digits, htext, hdigits, hlen⟩
  · rintro ⟨digits, htext, hdigits, hlen⟩
    have hlt : value digits < 2 ^ 256 := value_lt_of_length hdigits.2.1 hlen
    exact ⟨⟨value digits, hlt⟩, (fromQuantity_ok h).mpr ⟨digits, htext, hdigits, hlen, rfl⟩⟩

theorem fromQuantity_value (h : uint.Exact) {s : String} {w : Wei} {digits : List Char}
    (hw : fromQuantity uint s = .ok w) (htext : s.toList = '0' :: 'x' :: digits) : w.val = value digits := by
  obtain ⟨digits', htext', -, -, hvalue⟩ := (fromQuantity_ok h).mp hw
  rw [htext] at htext'
  cases htext'
  exact hvalue.symm

theorem parseQuantityU64_iff (h : uint.Exact) {s : String} {n : UInt64} :
    parseQuantityU64 s = .ok n ↔ ∃ w, fromQuantity uint s = .ok w ∧ w.val = n.toNat := by
  rw [parseQuantityU64_ok]
  constructor
  · rintro ⟨digits, htext, hdigits, hvalue⟩
    have hn := n.toNat_lt
    have hlen := length_le_of_value_lt hdigits (by omega)
    have hlt := value_lt_of_length hdigits.2.1 hlen
    exact ⟨⟨value digits, hlt⟩, (fromQuantity_ok h).mpr ⟨digits, htext, hdigits, hlen, rfl⟩, hvalue⟩
  · rintro ⟨w, hw, hval⟩
    obtain ⟨digits, htext, hdigits, -, hvalue⟩ := (fromQuantity_ok h).mp hw
    exact ⟨digits, htext, hdigits, hvalue.trans hval⟩

theorem parseData_accepts (s : String) : (∃ bytes, parseData s = .ok bytes) ↔ IsData s := by
  simp only [parseData_ok]
  rw [exists_comm]
  refine exists_congr fun digits => ?_
  rw [exists_and_left, decodePairs_digits]

theorem parseFixedData_accepts (n : Nat) (s : String) :
    (∃ bytes, parseFixedData n s = .ok bytes) ↔ IsFixedData n s := by
  simp only [parseFixedData_ok]
  rw [exists_comm]
  refine exists_congr fun digits => ?_
  rw [exists_and_left]
  refine and_congr_right fun _ => ?_
  constructor
  · rintro ⟨bytes, hread⟩
    have hdigits := (decodePairs_digits.mp ⟨_, hread⟩).2
    have hlen := Hex.decodePairs_length hread
    rw [length_utf8, size_of_digits hdigits, Vector.length_toList] at hlen
    exact ⟨hlen, hdigits⟩
  · rintro ⟨hlen, hdigits⟩
    obtain ⟨bytes, hread⟩ := decodePairs_digits.mpr ⟨by omega, hdigits⟩
    have hsize := Hex.decodePairs_length hread
    rw [length_utf8, size_of_digits hdigits, hlen] at hsize
    obtain rfl : bytes.length = n := by omega
    exact ⟨⟨bytes.toArray, by simp⟩, by simpa using hread⟩

/-- **Wire texts.** The codecs accept exactly the texts of their grammar and give what these say. -/
theorem codecs_accept_exactly (huint : uint.Exact) :
    (∀ w, fromQuantity uint (toQuantity uint w) = .ok w) ∧
      (∀ s, (∃ w, fromQuantity uint s = .ok w) ↔ IsQuantity s) ∧
      (∀ s w digits, fromQuantity uint s = .ok w → s.toList = '0' :: 'x' :: digits → w.val = value digits) ∧
      (∀ s, (∃ n, parseQuantityU64 s = .ok n) ↔ ∃ w, fromQuantity uint s = .ok w ∧ w.val < 2 ^ 64) ∧
      (∀ s n w, parseQuantityU64 s = .ok n → fromQuantity uint s = .ok w → w.val = n.toNat) ∧
      (∀ s, (∃ bytes, parseData s = .ok bytes) ↔ IsData s) ∧
      (∀ n s, (∃ bytes, parseFixedData n s = .ok bytes) ↔ IsFixedData n s) ∧
      (∀ n s bytes, parseFixedData n s = .ok bytes → parseData s = .ok bytes.toList) ∧
      ∀ s bytes digits, parseData s = .ok bytes → s.toList = '0' :: 'x' :: digits →
        Hex.encode bytes = digits.map Char.toLower := by
  refine ⟨fromQuantity_toQuantity huint, fromQuantity_accepts huint, ?_, ?_, ?_, parseData_accepts,
    parseFixedData_accepts, ?_, ?_⟩
  · intro s w digits hw htext
    exact fromQuantity_value huint hw htext
  · intro s
    constructor
    · rintro ⟨n, hn⟩
      obtain ⟨w, hw, hval⟩ := (parseQuantityU64_iff huint).mp hn
      exact ⟨w, hw, hval ▸ n.toNat_lt⟩
    · rintro ⟨w, hw, hlt⟩
      exact ⟨.ofNat w.val, (parseQuantityU64_iff huint).mpr ⟨w, hw, (UInt64.toNat_ofNat_of_lt' hlt).symm⟩⟩
  · intro s n w hn hw
    obtain ⟨w', hw', hval⟩ := (parseQuantityU64_iff huint).mp hn
    rw [hw] at hw'
    cases hw'
    exact hval
  · intro n s bytes hbytes
    exact parseData_ok.mpr (parseFixedData_ok.mp hbytes)
  · intro s bytes digits hbytes htext
    obtain ⟨digits', htext', hread⟩ := parseData_ok.mp hbytes
    rw [htext] at htext'
    cases htext'
    exact encode_decodePairs (decodePairs_digits.mp ⟨bytes, hread⟩).2 hread

def referenceU256 : U256Library where
  fromStrRadix digits :=
    if h : value digits < 2 ^ 256 then
      if digits.all fun c => (toDigit c).isSome then some ⟨value digits, h⟩ else none
    else none
  lowerHex w := '0' :: 'x' :: Nat.toDigits 16 w.val

theorem referenceU256_exact : referenceU256.Exact where
  fromStrRadix digits h _ hdigits := by
    have hall : (digits.all fun c => (toDigit c).isSome) = true :=
      List.all_eq_true.mpr fun c hc => toDigit_isSome.mpr (hdigits c hc)
    simp only [referenceU256]
    rw [dif_pos h, if_pos hall]
  lowerHex _ := rfl

/-- A second `0x` is refused, though the library would take it off. -/
theorem codecs_accept_exactly_reference :
    fromQuantity referenceU256 (toQuantity referenceU256 2748) = .ok 2748 ∧
      (∃ bytes, parseFixedData 3 "0x000aBc" = .ok bytes) ∧
      ¬ ∃ bytes, parseFixedData 3 "0x0x000a" = .ok bytes := by
  obtain ⟨hround, -, -, -, -, -, hfixed, -, -⟩ := codecs_accept_exactly referenceU256_exact
  refine ⟨hround 2748, (hfixed 3 _).mpr ⟨"000aBc".toList, rfl, rfl, ?_⟩, fun h => ?_⟩
  · have hall : ("000aBc".toList.all fun c => (toDigit c).isSome) = true := by decide
    exact fun c hc => toDigit_isSome.mp (List.all_eq_true.mp hall c hc)
  · obtain ⟨digits, htext, -, hdigits⟩ := (hfixed 3 _).mp h
    have hx : 'x' ∈ digits := by
      have htail : digits = "0x000a".toList := by
        have := congrArg (List.drop 2) htext
        exact this.symm
      rw [htail]
      decide
    exact absurd (toDigit_isSome.mpr (hdigits 'x' hx)) (by decide)

end PaymentSdk.Ethereum.Wire
