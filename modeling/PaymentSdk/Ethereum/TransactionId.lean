import PaymentSdk.Ethereum.Transaction
import PaymentSdk.Lib.Checked
import PaymentSdk.Lib.Hex
import PaymentSdk.Lib.Utf8

/-!
# Transaction id texts

The parser counts bytes and cuts the text at byte offsets, two bytes for each byte of the id. It
panics where an offset falls inside a character.
-/

open Checked

namespace PaymentSdk.Ethereum

/-- Why a text is no transaction id. -/
inductive IdError where
  | missingPrefix
  | invalidLength
  | invalidHexadecimal
  | nonCanonical
  deriving DecidableEq

/-- How a call can end without an id. -/
inductive Stop where
  | error (e : IdError)
  | panic
  deriving DecidableEq

/-- `char::to_digit` in base 16. -/
def toDigit (c : Char) : Option Nat :=
  if '0' ≤ c ∧ c ≤ '9' then some (c.toNat - 48)
  else if 'a' ≤ c ∧ c ≤ 'f' then some (c.toNat - 87)
  else if 'A' ≤ c ∧ c ≤ 'F' then some (c.toNat - 55)
  else none

/-- The digits of a byte, most significant first. -/
def digitsValue (digits : List Char) : Option Nat :=
  digits.foldlM (fun value c => do
    let digit ← toDigit c
    if value * 16 + digit < 256 then some (value * 16 + digit) else none) 0

/-- `u8::from_str_radix` in base 16. It takes a plus sign before the digits. -/
def fromStrRadix (src : List Char) : Option Nat :=
  match src with
  | [] => none
  | ['+'] => none
  | ['-'] => none
  | '+' :: digits => digitsValue digits
  | digits => digitsValue digits

/-- The byte at an index of the text after `0x`. -/
def byteAt (hexadecimal : List Char) (index : Nat) : Except Stop UInt8 :=
  match Utf8.slice hexadecimal (index * 2) (index * 2 + 2) with
  | none => .error .panic
  | some pair =>
    match fromStrRadix pair with
    | none => .error (.error .invalidHexadecimal)
    | some byte => .ok (.ofNat byte)

def TransactionId.fromStr (input : String) : Except Stop TransactionId :=
  match input.toList with
  | '0' :: 'x' :: hexadecimal =>
    if Utf8.size hexadecimal ≠ 64 then .error (.error .invalidLength)
    else do
      let parsed ← (List.range 32).mapM (byteAt hexadecimal)
      if TransactionId.text parsed ≠ input then .error (.error .nonCanonical) else .ok parsed
  | _ => .error (.error .missingPrefix)

/-! ## Digits -/

/-- A text of `0x` and 64 lower-case hexadecimal digits. -/
def Canonical (input : String) : Prop :=
  ∃ digits : List Char, input.toList = '0' :: 'x' :: digits ∧ digits.length = 64 ∧
    ∀ c ∈ digits, c ∈ "0123456789abcdef".toList

theorem text_toList (id : TransactionId) : id.text.toList = '0' :: 'x' :: Hex.encode id :=
  String.toList_ofList

theorem digit_mem {n : Nat} (h : n < 16) : Hex.digit n ∈ "0123456789abcdef".toList := by
  have hall : ∀ n : Fin 16, Hex.digit n ∈ "0123456789abcdef".toList := by decide
  exact hall ⟨n, h⟩

theorem exists_digit {c : Char} (h : c ∈ "0123456789abcdef".toList) : ∃ n < 16, c = Hex.digit n := by
  have hall : ("0123456789abcdef".toList.all fun c => (List.range 16).any fun n => c == Hex.digit n) = true := by
    decide
  obtain ⟨n, hn, hc⟩ := List.any_eq_true.mp (List.all_eq_true.mp hall c h)
  exact ⟨n, List.mem_range.mp hn, eq_of_beq hc⟩

theorem digit_size {n : Nat} (h : n < 16) : (Hex.digit n).utf8Size = 1 := by
  have hall : ∀ n : Fin 16, (Hex.digit n).utf8Size = 1 := by decide
  exact hall ⟨n, h⟩

theorem fromStrRadix_digits {m n : Nat} (hm : m < 16) (hn : n < 16) :
    fromStrRadix [Hex.digit m, Hex.digit n] = some (m * 16 + n) := by
  have hall : ∀ m n : Fin 16, fromStrRadix [Hex.digit m, Hex.digit n] = some (m.val * 16 + n.val) := by
    decide
  exact hall ⟨m, hm⟩ ⟨n, hn⟩

/-- The two digits of a byte. -/
def pairOf (byte : UInt8) : List Char := [Hex.digit (byte.toNat / 16), Hex.digit (byte.toNat % 16)]

theorem encode_eq (bytes : List UInt8) : Hex.encode bytes = (bytes.map pairOf).flatten := by
  rw [Hex.encode, List.flatMap_def]
  rfl

theorem size_pairOf (byte : UInt8) : Utf8.size (pairOf byte) = 2 := by
  have := byte.toNat_lt
  simp [pairOf, digit_size (show byte.toNat / 16 < 16 by omega), digit_size (Nat.mod_lt byte.toNat (by decide))]

theorem fromStrRadix_pairOf (byte : UInt8) : fromStrRadix (pairOf byte) = some byte.toNat := by
  have := byte.toNat_lt
  rw [pairOf, fromStrRadix_digits (by omega) (by omega)]
  congr 1
  omega

theorem size_pairs {bytes : List UInt8} {p : List Char} (h : p ∈ bytes.map pairOf) :
    Utf8.size p = 2 := by
  obtain ⟨byte, -, rfl⟩ := List.mem_map.mp h
  exact size_pairOf byte

theorem size_flatten {pairs : List (List Char)} (h : ∀ p ∈ pairs, Utf8.size p = 2) :
    Utf8.size pairs.flatten = 2 * pairs.length := by
  induction pairs with
  | nil => rfl
  | cons p pairs ih =>
    rw [List.flatten_cons, Utf8.size_append, h p List.mem_cons_self,
      ih fun q hq => h q (List.mem_cons_of_mem _ hq), List.length_cons]
    omega

theorem exists_bytes {digits : List Char} {n : Nat} (hlen : digits.length = 2 * n)
    (h : ∀ c ∈ digits, c ∈ "0123456789abcdef".toList) :
    ∃ bytes : List UInt8, bytes.length = n ∧ Hex.encode bytes = digits := by
  induction n generalizing digits with
  | zero => exact ⟨[], rfl, (List.length_eq_zero_iff.mp hlen).symm⟩
  | succ n ih =>
    match digits, hlen, h with
    | high :: low :: rest, hlen, h =>
      obtain ⟨a, ha, rfl⟩ := exists_digit (h high (by simp))
      obtain ⟨b, hb, rfl⟩ := exists_digit (h low (by simp))
      obtain ⟨bytes, hbytes, rfl⟩ := ih (by simpa [Nat.mul_succ] using hlen)
        fun c hc => h c (by simp [hc])
      refine ⟨UInt8.ofNat (a * 16 + b) :: bytes, by simp [hbytes], ?_⟩
      have hnat : (UInt8.ofNat (a * 16 + b)).toNat = a * 16 + b :=
        UInt8.toNat_ofNat_of_lt' (by simp [UInt8.size]; omega)
      have hdiv : (a * 16 + b) / 16 = a := by omega
      have hmod : (a * 16 + b) % 16 = b := by omega
      rw [Hex.encode, List.flatMap_cons, hnat, hdiv, hmod]
      rfl

theorem canonical_iff {input : String} :
    Canonical input ↔ ∃ id : TransactionId, id.length = 32 ∧ id.text = input := by
  constructor
  · rintro ⟨digits, htext, hlen, hdigits⟩
    obtain ⟨bytes, hbytes, rfl⟩ := exists_bytes (by omega : digits.length = 2 * 32) hdigits
    refine ⟨bytes, hbytes, ?_⟩
    apply String.toList_inj.mp
    rw [text_toList, htext]
  · rintro ⟨id, hlen, rfl⟩
    refine ⟨Hex.encode id, text_toList id, by rw [Hex.length_encode, hlen], ?_⟩
    intro c hc
    obtain ⟨byte, -, hc⟩ := List.mem_flatMap.mp hc
    have := byte.toNat_lt
    simp only [List.mem_cons, List.not_mem_nil, or_false] at hc
    rcases hc with rfl | rfl
    · exact digit_mem (by omega)
    · exact digit_mem (by omega)

/-! ## Reading pairs -/

theorem byteAt_pair {pairs : List (List Char)} {p : List Char} (rest : List Char)
    (hpairs : ∀ q ∈ pairs, Utf8.size q = 2) (hp : Utf8.size p = 2) :
    byteAt (pairs.flatten ++ (p ++ rest)) pairs.length =
      match fromStrRadix p with
      | none => .error (.error .invalidHexadecimal)
      | some byte => .ok (.ofNat byte) := by
  have hslice : Utf8.slice (pairs.flatten ++ (p ++ rest)) (pairs.length * 2) (pairs.length * 2 + 2) =
      some p := Utf8.slice_of_append (by rw [size_flatten hpairs]; omega) (by omega)
  rw [byteAt, hslice]

/-- The pairs before an index that reads fine were fine. -/
theorem exists_pairs {hexadecimal : List Char} (n : Nat)
    (h : ∀ i < n, ∃ byte, byteAt hexadecimal i = .ok byte) :
    ∃ (pairs : List (List Char)) (rest : List Char), hexadecimal = pairs.flatten ++ rest ∧
      pairs.length = n ∧ ∀ p ∈ pairs, Utf8.size p = 2 ∧ (fromStrRadix p).isSome = true := by
  induction n with
  | zero => exact ⟨[], hexadecimal, rfl, rfl, by simp⟩
  | succ n ih =>
    obtain ⟨pairs, rest, rfl, hlen, hpairs⟩ := ih fun i hi => h i (by omega)
    have hsize : Utf8.size pairs.flatten = n * 2 := by
      rw [size_flatten fun p hp => (hpairs p hp).1, hlen]
      omega
    obtain ⟨byte, hbyte⟩ := h n (by omega)
    rw [byteAt, Utf8.slice_after hsize, Nat.add_sub_cancel_left] at hbyte
    cases hcut : Utf8.splitAt rest 2 with
    | none =>
      rw [hcut] at hbyte
      cases hbyte
    | some cut =>
      obtain ⟨p, rest'⟩ := cut
      obtain ⟨rfl, hp⟩ := Utf8.splitAt_some_iff.mp hcut
      rw [hcut] at hbyte
      simp only [Option.map_some] at hbyte
      have hradix : (fromStrRadix p).isSome = true := by
        cases hr : fromStrRadix p with
        | none =>
          rw [hr] at hbyte
          cases hbyte
        | some _ => rfl
      refine ⟨pairs ++ [p], rest', by simp, by simp [hlen], ?_⟩
      intro q hq
      rcases List.mem_append.mp hq with hq | hq
      · exact hpairs q hq
      · rw [List.mem_singleton.mp hq]
        exact ⟨hp, hradix⟩

theorem mapM_pairs {pairs : List (List Char)}
    (h : ∀ p ∈ pairs, Utf8.size p = 2 ∧ (fromStrRadix p).isSome = true) :
    (List.range pairs.length).mapM (byteAt pairs.flatten) =
      .ok (pairs.map fun p => .ofNat ((fromStrRadix p).getD 0)) := by
  rw [mapM_ok, List.forall₂_iff_get]
  refine ⟨by simp, ?_⟩
  intro i hi hmap
  rw [List.get_eq_getElem, List.get_eq_getElem, List.getElem_range, List.getElem_map]
  have hlt : i < pairs.length := by simpa using hmap
  have hsplit : pairs.flatten = (pairs.take i).flatten ++ (pairs[i] ++ (pairs.drop (i + 1)).flatten) := by
    rw [← List.flatten_cons, ← List.drop_eq_getElem_cons hlt, ← List.flatten_append, List.take_append_drop]
  have hfront : ∀ q ∈ pairs.take i, Utf8.size q = 2 := fun q hq => (h q (List.mem_of_mem_take hq)).1
  obtain ⟨hsize, hradix⟩ := h pairs[i] (List.getElem_mem hlt)
  obtain ⟨byte, hbyte⟩ := Option.isSome_iff_exists.mp hradix
  have hread := byteAt_pair (pairs.drop (i + 1)).flatten hfront hsize
  rw [List.length_take, Nat.min_eq_left hlt.le, ← hsplit, hbyte] at hread
  rw [hread, hbyte]
  rfl

theorem mapM_encode (bytes : List UInt8) :
    (List.range bytes.length).mapM (byteAt (Hex.encode bytes)) = .ok bytes := by
  have hpairs : ∀ p ∈ bytes.map pairOf, Utf8.size p = 2 ∧ (fromStrRadix p).isSome = true := by
    intro p hp
    obtain ⟨byte, -, rfl⟩ := List.mem_map.mp hp
    exact ⟨size_pairOf byte, by rw [fromStrRadix_pairOf]; rfl⟩
  have hread := mapM_pairs hpairs
  have hvalue : ((fun p => UInt8.ofNat ((fromStrRadix p).getD 0)) ∘ pairOf) = id := by
    funext byte
    simp [fromStrRadix_pairOf]
  rwa [List.length_map, ← encode_eq, List.map_map, hvalue, List.map_id] at hread

theorem fromStr_text {id : TransactionId} (h : id.length = 32) :
    TransactionId.fromStr id.text = .ok id := by
  have hsize : Utf8.size (Hex.encode id) = 64 := by
    rw [encode_eq, size_flatten fun p hp => size_pairs hp, List.length_map, h]
  have hbytes : (List.range 32).mapM (byteAt (Hex.encode id)) = .ok id := h ▸ mapM_encode id
  unfold TransactionId.fromStr
  rw [text_toList]
  simp only [hsize, ne_eq, not_true_eq_false, if_false, hbytes, bind, Except.bind]

/-! ## Panics -/

/-- The second byte of the text ends inside a character. -/
def CutsInto (text : List Char) : Prop :=
  (∃ c rest, text = c :: rest ∧ 2 < c.utf8Size) ∨
    ∃ c d rest, text = c :: d :: rest ∧ c.utf8Size = 1 ∧ 1 < d.utf8Size

/-- After `0x` come 64 bytes: pairs that read as bytes, then a character that the next cut falls
into. -/
def SplitsCharacter (input : String) : Prop :=
  ∃ (pairs : List (List Char)) (rest : List Char),
    input.toList = '0' :: 'x' :: (pairs.flatten ++ rest) ∧ Utf8.size (pairs.flatten ++ rest) = 64 ∧
      (∀ p ∈ pairs, Utf8.size p = 2 ∧ (fromStrRadix p).isSome = true) ∧ CutsInto rest

theorem splitAt_two {text : List Char} (h : 2 ≤ Utf8.size text) :
    Utf8.splitAt text 2 = none ↔ CutsInto text := by
  match text with
  | [] => simp at h
  | c :: rest =>
    have hc := c.utf8Size_pos
    by_cases hone : c.utf8Size = 1
    · match rest with
      | [] => simp [hone] at h
      | d :: tail =>
        have hd := d.utf8Size_pos
        have hcut : Utf8.splitAt (c :: d :: tail) 2 = none ↔ 1 < d.utf8Size := by
          by_cases hd1 : d.utf8Size = 1
          · simp [Utf8.splitAt, hone, hd1]
          · simp [Utf8.splitAt, hone, show ¬ d.utf8Size ≤ 1 by omega]
            omega
        rw [hcut]
        constructor
        · intro hd1
          exact .inr ⟨c, d, tail, rfl, hone, hd1⟩
        · rintro (⟨c', rest', heq, hlt⟩ | ⟨c', d', rest', heq, -, hlt⟩)
          · cases heq
            omega
          · cases heq
            exact hlt
    · by_cases htwo : c.utf8Size = 2
      · have hcut : Utf8.splitAt (c :: rest) 2 ≠ none := by simp [Utf8.splitAt, htwo]
        refine ⟨fun hnone => absurd hnone hcut, ?_⟩
        rintro (⟨c', rest', heq, hlt⟩ | ⟨c', d', rest', heq, hlt, -⟩)
        · cases heq
          omega
        · cases heq
          omega
      · have hcut : Utf8.splitAt (c :: rest) 2 = none := by
          simp [Utf8.splitAt, show ¬ c.utf8Size ≤ 2 by omega]
        exact ⟨fun _ => .inl ⟨c, rest, rfl, by omega⟩, fun _ => hcut⟩

theorem byteAt_panic {pairs : List (List Char)} {rest : List Char}
    (hpairs : ∀ p ∈ pairs, Utf8.size p = 2) (hsize : 2 ≤ Utf8.size rest) :
    byteAt (pairs.flatten ++ rest) pairs.length = .error .panic ↔ CutsInto rest := by
  have hflat : Utf8.size pairs.flatten = pairs.length * 2 := by
    rw [size_flatten hpairs]
    omega
  rw [byteAt, Utf8.slice_after hflat, Nat.add_sub_cancel_left, ← splitAt_two hsize]
  cases Utf8.splitAt rest 2 with
  | none => simp
  | some cut =>
    simp only [Option.map_some, reduceCtorEq, iff_false]
    split <;> rintro ⟨⟩

theorem mapM_panic {hexadecimal : List Char} {n : Nat} (hsize : Utf8.size hexadecimal = 2 * n) :
    (List.range n).mapM (byteAt hexadecimal) = .error .panic ↔
      ∃ (pairs : List (List Char)) (rest : List Char), hexadecimal = pairs.flatten ++ rest ∧
        (∀ p ∈ pairs, Utf8.size p = 2 ∧ (fromStrRadix p).isSome = true) ∧ CutsInto rest := by
  rw [mapM_range_error]
  constructor
  · rintro ⟨i, hlt, hpanic, hfront⟩
    obtain ⟨pairs, rest, rfl, rfl, hpairs⟩ := exists_pairs i hfront
    rw [Utf8.size_append, size_flatten fun p hp => (hpairs p hp).1] at hsize
    rw [byteAt_panic (fun p hp => (hpairs p hp).1) (by omega)] at hpanic
    exact ⟨pairs, rest, rfl, hpairs, hpanic⟩
  · rintro ⟨pairs, rest, rfl, hpairs, hcuts⟩
    have hrest : 0 < Utf8.size rest := by
      rcases hcuts with ⟨c, tail, rfl, hc⟩ | ⟨c, d, tail, rfl, hc, -⟩
      · rw [Utf8.size_cons]
        omega
      · rw [Utf8.size_cons]
        omega
    have hflat := size_flatten fun p hp => (hpairs p hp).1
    rw [Utf8.size_append, hflat] at hsize
    refine ⟨pairs.length, by omega,
      (byteAt_panic (fun p hp => (hpairs p hp).1) (by omega)).mpr hcuts, ?_⟩
    intro j hj
    -- The pair at `j` stands between the pairs before it and the rest.
    have hsplit : pairs = pairs.take j ++ pairs[j] :: pairs.drop (j + 1) := by
      rw [← List.drop_eq_getElem_cons hj, List.take_append_drop]
    have hfront : ∀ p ∈ pairs.take j, Utf8.size p = 2 :=
      fun p hp => (hpairs p (List.mem_of_mem_take hp)).1
    have htext : pairs.flatten ++ rest =
        (pairs.take j).flatten ++ (pairs[j] ++ ((pairs.drop (j + 1)).flatten ++ rest)) := by
      conv_lhs => rw [hsplit, List.flatten_append, List.flatten_cons]
      simp
    have hj' := hpairs pairs[j] (List.getElem_mem hj)
    have hbyte := byteAt_pair ((pairs.drop (j + 1)).flatten ++ rest) hfront hj'.1
    rw [List.length_take, Nat.min_eq_left hj.le, ← htext] at hbyte
    obtain ⟨byte, hradix⟩ := Option.isSome_iff_exists.mp hj'.2
    rw [hradix] at hbyte
    exact ⟨_, hbyte⟩

/-! ## Exactness -/

theorem fromStr_cases (input : String) :
    (∃ hexadecimal, input.toList = '0' :: 'x' :: hexadecimal ∧ Utf8.size hexadecimal = 64 ∧
      TransactionId.fromStr input = (do
        let parsed ← (List.range 32).mapM (byteAt hexadecimal)
        if TransactionId.text parsed ≠ input then .error (.error .nonCanonical) else .ok parsed)) ∨
      ((∀ hexadecimal, input.toList = '0' :: 'x' :: hexadecimal → Utf8.size hexadecimal ≠ 64) ∧
        ∃ e, TransactionId.fromStr input = .error (.error e)) := by
  unfold TransactionId.fromStr
  split
  · rename_i hexadecimal htext
    split_ifs with hsize
    · right
      refine ⟨?_, _, rfl⟩
      intro h heq
      rw [htext] at heq
      cases heq
      exact hsize
    · left
      exact ⟨hexadecimal, htext, not_not.mp hsize, rfl⟩
  · rename_i hne
    exact .inr ⟨fun h heq => absurd heq (hne h), _, rfl⟩

theorem fromStr_panic_iff {input : String} :
    TransactionId.fromStr input = .error .panic ↔ SplitsCharacter input := by
  rcases fromStr_cases input with ⟨hexadecimal, htext, hsize, heq⟩ | ⟨hno, e, heq⟩
  · have hpanic : TransactionId.fromStr input = .error .panic ↔
        (List.range 32).mapM (byteAt hexadecimal) = .error .panic := by
      rw [heq]
      cases (List.range 32).mapM (byteAt hexadecimal) with
      | error stop => simp [bind, Except.bind]
      | ok parsed =>
        simp only [bind, Except.bind, reduceCtorEq, iff_false]
        split_ifs <;> rintro ⟨⟩
    rw [hpanic, mapM_panic hsize]
    constructor
    · rintro ⟨pairs, rest, rfl, hpairs, hcuts⟩
      exact ⟨pairs, rest, htext, hsize, hpairs, hcuts⟩
    · rintro ⟨pairs, rest, htext', -, hpairs, hcuts⟩
      rw [htext] at htext'
      cases htext'
      exact ⟨pairs, rest, rfl, hpairs, hcuts⟩
  · rw [heq]
    constructor
    · rintro ⟨⟩
    · rintro ⟨pairs, rest, htext, hsize, -, -⟩
      exact absurd hsize (hno _ htext)

theorem fromStr_ok {input : String} {id : TransactionId} (h : TransactionId.fromStr input = .ok id) :
    id.length = 32 ∧ id.text = input := by
  rcases fromStr_cases input with ⟨hexadecimal, -, -, heq⟩ | ⟨-, e, heq⟩
  · rw [heq, bind_ok] at h
    obtain ⟨parsed, hparsed, h⟩ := h
    split_ifs at h with htext
    cases h
    refine ⟨?_, not_not.mp htext⟩
    have := (mapM_ok.mp hparsed).length_eq
    simpa using this.symm
  · rw [heq] at h
    cases h

/-- Parsing returns, accepts the canonical texts only, and gives what the text says. -/
structure ParsesExactly (input : String) : Prop where
  returns : TransactionId.fromStr input ≠ .error .panic
  accepts : (∃ id, TransactionId.fromStr input = .ok id) ↔ Canonical input
  text : ∀ id, TransactionId.fromStr input = .ok id → id.length = 32 ∧ id.text = input

/-- **Parsing.** It is exact for every text but those with a character that a cut falls into,
and every id of 32 bytes is read back from its text. -/
theorem parses_exactly_iff (input : String) (id : TransactionId) :
    (ParsesExactly input ↔ ¬ SplitsCharacter input) ∧
      (id.length = 32 → TransactionId.fromStr id.text = .ok id) := by
  refine ⟨?_, fun hid => fromStr_text hid⟩
  rw [← fromStr_panic_iff]
  refine ⟨fun h => h.returns, fun h => ⟨h, ?_, fun id hid => fromStr_ok hid⟩⟩
  rw [canonical_iff]
  constructor
  · rintro ⟨id, hid⟩
    exact ⟨id, fromStr_ok hid⟩
  · rintro ⟨id, hlen, rfl⟩
    exact ⟨id, fromStr_text hlen⟩

theorem parses_exactly_sample :
    TransactionId.fromStr (TransactionId.text (List.replicate 32 0xab)) = .ok (List.replicate 32 0xab) :=
  (parses_exactly_iff "" _).2 (by decide)

/-- A euro sign, three bytes long, and 61 zeros after `0x`. -/
def euroText : String := String.ofList ('0' :: 'x' :: '€' :: List.replicate 61 '0')

theorem parses_exactly_fails : ¬ ParsesExactly euroText := by
  intro h
  exact h.returns (by decide)

end PaymentSdk.Ethereum
