/-! Base64 with padding, over the two common alphabets. -/

namespace TptProto.Foundation.Base64

/-- The digit for six bits; the alphabets differ in the last two. -/
def digit (urlSafe : Bool) (n : Nat) : Char :=
  if n < 26 then Char.ofNat (65 + n)
  else if n < 52 then Char.ofNat (71 + n)
  else if n < 62 then Char.ofNat (n - 4)
  else if n = 62 then (if urlSafe then '-' else '+')
  else (if urlSafe then '_' else '/')

def value (urlSafe : Bool) (c : Char) : Option Nat :=
  (List.range 64).find? fun n => digit urlSafe n = c

def encodeChars (urlSafe : Bool) : List UInt8 → List Char
  | [] => []
  | [a] => [digit urlSafe (a.toNat / 4), digit urlSafe (a.toNat % 4 * 16), '=', '=']
  | [a, b] =>
    [digit urlSafe (a.toNat / 4), digit urlSafe (a.toNat % 4 * 16 + b.toNat / 16),
      digit urlSafe (b.toNat % 16 * 4), '=']
  | a :: b :: c :: rest =>
    digit urlSafe (a.toNat / 4) :: digit urlSafe (a.toNat % 4 * 16 + b.toNat / 16) ::
      digit urlSafe (b.toNat % 16 * 4 + c.toNat / 64) :: digit urlSafe (c.toNat % 64) ::
        encodeChars urlSafe rest

/-- The bits behind the last byte have to be zero. -/
def decodeChars (urlSafe : Bool) : List Char → Option (List UInt8)
  | [] => some []
  | w :: x :: y :: z :: rest => do
    let w ← value urlSafe w
    let x ← value urlSafe x
    if y = '=' then
      if z = '=' ∧ rest = [] ∧ x % 16 = 0 then some [UInt8.ofNat (w * 4 + x / 16)] else none
    else do
      let y ← value urlSafe y
      if z = '=' then
        if rest = [] ∧ y % 4 = 0 then
          some [UInt8.ofNat (w * 4 + x / 16), UInt8.ofNat (x % 16 * 16 + y / 4)]
        else none
      else do
        let z ← value urlSafe z
        let others ← decodeChars urlSafe rest
        some (UInt8.ofNat (w * 4 + x / 16) :: UInt8.ofNat (x % 16 * 16 + y / 4) ::
          UInt8.ofNat (y % 4 * 64 + z) :: others)
  | _ => none

def encode (urlSafe : Bool) (bytes : List UInt8) : String := String.ofList (encodeChars urlSafe bytes)

def decode (urlSafe : Bool) (text : String) : Option (List UInt8) := decodeChars urlSafe text.toList

private theorem value_digit (urlSafe : Bool) {n : Nat} (small : n < 64) :
    value urlSafe (digit urlSafe n) = some n := by
  revert n
  cases urlSafe <;> decide

private theorem digit_ne_pad (urlSafe : Bool) {n : Nat} (small : n < 64) :
    digit urlSafe n ≠ '=' := by
  revert n
  cases urlSafe <;> decide

private theorem ofNat_byte {n : Nat} {a : UInt8} (same : n = a.toNat) : UInt8.ofNat n = a := by
  rw [same]
  exact UInt8.ofNat_toNat

theorem decode_encode (urlSafe : Bool) (bytes : List UInt8) :
    decode urlSafe (encode urlSafe bytes) = some bytes := by
  rw [decode, encode, String.toList_ofList]
  induction bytes using encodeChars.induct with
  | case1 => rfl
  | case2 a =>
    have bound := a.toNat_lt
    simp only [encodeChars, decodeChars, value_digit urlSafe (by omega : a.toNat / 4 < 64),
      value_digit urlSafe (by omega : a.toNat % 4 * 16 < 64), Option.bind_eq_bind, Option.bind_some]
    rw [if_pos trivial, if_pos ⟨trivial, trivial, by omega⟩, ofNat_byte (a := a) (by omega)]
  | case3 a b =>
    have boundA := a.toNat_lt
    have boundB := b.toNat_lt
    have low : b.toNat % 16 * 4 < 64 := by omega
    simp only [encodeChars, decodeChars, value_digit urlSafe (by omega : a.toNat / 4 < 64),
      value_digit urlSafe (by omega : a.toNat % 4 * 16 + b.toNat / 16 < 64),
      value_digit urlSafe low, if_neg (digit_ne_pad urlSafe low), Option.bind_eq_bind,
      Option.bind_some]
    rw [if_pos trivial, if_pos ⟨trivial, by omega⟩, ofNat_byte (a := a) (by omega),
      ofNat_byte (a := b) (by omega)]
  | case4 a b c rest inductionHypothesis =>
    have boundA := a.toNat_lt
    have boundB := b.toNat_lt
    have boundC := c.toNat_lt
    have third : b.toNat % 16 * 4 + c.toNat / 64 < 64 := by omega
    have fourth : c.toNat % 64 < 64 := by omega
    simp only [encodeChars, decodeChars, value_digit urlSafe (by omega : a.toNat / 4 < 64),
      value_digit urlSafe (by omega : a.toNat % 4 * 16 + b.toNat / 16 < 64),
      value_digit urlSafe third, value_digit urlSafe fourth, if_neg (digit_ne_pad urlSafe third),
      if_neg (digit_ne_pad urlSafe fourth), inductionHypothesis, Option.bind_eq_bind,
      Option.bind_some]
    rw [ofNat_byte (a := a) (by omega), ofNat_byte (a := b) (by omega),
      ofNat_byte (a := c) (by omega)]

example : encode false [97] = "YQ==" := by decide

end TptProto.Foundation.Base64
