import PaymentSdk.Lib.BigEndian

/-!
# Base58 texts

A byte string is a big number in base 256. Its text is that number in base 58, after one
`1` for each leading zero byte.
-/

open BigEndian (head_digits digits_number)

namespace Base58

def alphabet : List Char :=
  ['1', '2', '3', '4', '5', '6', '7', '8', '9', 'A', 'B', 'C', 'D', 'E', 'F',
   'G', 'H', 'J', 'K', 'L', 'M', 'N', 'P', 'Q', 'R', 'S', 'T', 'U', 'V', 'W',
   'X', 'Y', 'Z', 'a', 'b', 'c', 'd', 'e', 'f', 'g', 'h', 'i', 'j', 'k', 'm',
   'n', 'o', 'p', 'q', 'r', 's', 't', 'u', 'v', 'w', 'x', 'y', 'z']

def digit (d : Nat) : Char := alphabet.getD d '1'

def value (c : Char) : Option Nat := alphabet.idxOf? c

/-- How many zeros the bytes start with. -/
def leading {α : Type} [DecidableEq α] (zero : α) (l : List α) : Nat := (l.takeWhile (· = zero)).length

def encode (bytes : List UInt8) : String :=
  let number := Nat.ofDigits 256 (bytes.map (·.toNat)).reverse
  String.ofList (List.replicate (leading 0 bytes) '1' ++ (Nat.digits 58 number).reverse.map digit)

def decode (text : String) : Option (List UInt8) := do
  let digits ← text.toList.mapM value
  let number := Nat.ofDigits 58 digits.reverse
  return List.replicate (leading 0 digits) 0 ++ (Nat.digits 256 number).reverse.map UInt8.ofNat

/-! ## Digits -/

theorem value_digit {d : Nat} (h : d < 58) : value (digit d) = some d := by
  have hall : ∀ d : Fin 58, value (digit d) = some d.val := by decide
  exact hall ⟨d, h⟩

theorem digit_mem (d : Nat) : digit d ∈ alphabet := by
  unfold digit
  rw [List.getD_eq_getElem?_getD]
  cases h : alphabet[d]? with
  | none => decide
  | some c => exact List.mem_of_getElem? h

theorem encode_mem {bytes : List UInt8} {c : Char} (h : c ∈ (encode bytes).toList) : c ∈ alphabet := by
  simp only [encode, String.toList_ofList, List.mem_append, List.mem_replicate, List.mem_map] at h
  rcases h with ⟨-, rfl⟩ | ⟨d, -, rfl⟩
  · decide
  · exact digit_mem d

theorem mapM_value {l : List Nat} (h : ∀ d ∈ l, d < 58) : (l.map digit).mapM value = some l := by
  induction l with
  | nil => rfl
  | cons d l ih =>
    rw [List.map_cons, List.mapM_cons, value_digit (h d List.mem_cons_self),
      ih fun x hx => h x (List.mem_cons_of_mem _ hx)]
    rfl

/-! ## Leading zeros -/

theorem leading_append {α : Type} [DecidableEq α] {zero : α} (k : Nat) {l : List α}
    (h : l.head? ≠ some zero) : leading zero (List.replicate k zero ++ l) = k := by
  induction k with
  | zero =>
    cases l with
    | nil => rfl
    | cons a l => simp_all [leading]
  | succ k ih => simpa [leading, List.replicate_succ] using ih

theorem exists_leading {α : Type} [DecidableEq α] (zero : α) (l : List α) :
    ∃ rest, l = List.replicate (leading zero l) zero ++ rest ∧ rest.head? ≠ some zero := by
  induction l with
  | nil => exact ⟨[], rfl, by simp⟩
  | cons a l ih =>
    by_cases ha : a = zero
    · obtain ⟨rest, hl, hrest⟩ := ih
      refine ⟨rest, ?_, hrest⟩
      subst ha
      simpa [leading, List.replicate_succ] using hl
    · exact ⟨a :: l, by simp [leading, ha], by simpa using ha⟩

/-! ## Round trip -/

theorem decode_encode (bytes : List UInt8) : decode (encode bytes) = some bytes := by
  obtain ⟨rest, hbytes, hrest⟩ := exists_leading 0 bytes
  -- The leading zeros add nothing to the number, so `rest` has its digits.
  have hnumber : Nat.ofDigits 256 (bytes.map (·.toNat)).reverse =
      Nat.ofDigits 256 (rest.map (·.toNat)).reverse := by
    rw [hbytes, List.map_append, List.reverse_append, List.map_replicate, List.reverse_replicate]
    exact Nat.ofDigits_append_replicate_zero _
  have hhead : (rest.map (·.toNat)).head? ≠ some 0 := by
    rw [List.head?_map]
    intro h
    obtain ⟨byte, hbyte, hzero⟩ := Option.map_eq_some_iff.mp h
    obtain rfl : byte = 0 := UInt8.toNat_inj.mp hzero
    exact hrest hbyte
  set number := Nat.ofDigits 256 (rest.map (·.toNat)).reverse with hrestnumber
  have hdigits : (List.replicate (leading 0 bytes) 0 ++ (Nat.digits 58 number).reverse).map digit =
      List.replicate (leading 0 bytes) '1' ++ (Nat.digits 58 number).reverse.map digit := by
    rw [List.map_append, List.map_replicate]
    rfl
  have hvalues : (encode bytes).toList.mapM value =
      some (List.replicate (leading 0 bytes) 0 ++ (Nat.digits 58 number).reverse) := by
    rw [encode, hnumber, String.toList_ofList, ← hdigits]
    apply mapM_value
    intro d hd
    rcases List.mem_append.mp hd with hd | hd
    · rw [List.eq_of_mem_replicate hd]
      decide
    · exact Nat.digits_lt_base (by decide) (List.mem_reverse.mp hd)
  have hback : Nat.ofDigits 58 (List.replicate (leading 0 bytes) 0 ++ (Nat.digits 58 number).reverse).reverse =
      number := by
    rw [List.reverse_append, List.reverse_reverse, List.reverse_replicate,
      Nat.ofDigits_append_replicate_zero, Nat.ofDigits_digits]
  have hrestdigits : (Nat.digits 256 number).reverse.map UInt8.ofNat = rest := by
    rw [hrestnumber, digits_number (by decide) ?_ hhead, List.map_map]
    · exact List.map_id'' (fun byte => UInt8.ofNat_toNat) rest
    · intro d hd
      obtain ⟨byte, -, rfl⟩ := List.mem_map.mp hd
      exact byte.toNat_lt
  rw [decode, hvalues]
  simp only [Option.bind_eq_bind, Option.bind_some, hback, hrestdigits,
    leading_append _ (head_digits 58 number)]
  exact congrArg some hbytes.symm

theorem length_encode (bytes : List UInt8) : (encode bytes).toList.length ≤ 3 * bytes.length := by
  have hnumber : Nat.ofDigits 256 (bytes.map (·.toNat)).reverse < 256 ^ bytes.length := by
    have hbyte : ∀ d ∈ (bytes.map (·.toNat)).reverse, d < 256 := by
      intro d hd
      obtain ⟨byte, -, rfl⟩ := List.mem_map.mp (List.mem_reverse.mp hd)
      exact byte.toNat_lt
    simpa using Nat.ofDigits_lt_base_pow_length (by decide) hbyte
  have hdigits : (Nat.digits 58 (Nat.ofDigits 256 (bytes.map (·.toNat)).reverse)).length ≤
      2 * bytes.length := by
    rw [Nat.digits_length_le_iff (by decide)]
    calc _ < 256 ^ bytes.length := hnumber
      _ ≤ (58 ^ 2) ^ bytes.length := Nat.pow_le_pow_left (by decide) _
      _ = 58 ^ (2 * bytes.length) := by rw [pow_mul]
  have hzeros : leading 0 bytes ≤ bytes.length := (List.takeWhile_sublist _).length_le
  simp only [encode, String.toList_ofList, List.length_append, List.length_replicate, List.length_map,
    List.length_reverse]
  omega

end Base58
