import TptProto.Core.Utf8
import TptProto.Foundation.Decimal
import TptProto.Language.Words
import Mathlib.Data.List.Induction

/-! The literals of the schema grammar and what they denote: whole numbers in three radices, and
strings, whose escapes may stand for single bytes. -/

namespace TptProto.Language

open TptProto.Foundation TptProto.Core

section Integers

def digitValue (c : Char) : Nat := (Hex.digit? c).getD 0

def isHexDigit (c : Char) : Bool := (Hex.digit? c).isSome

def isOctalDigit (c : Char) : Bool := c.isDigit && c.toNat < 56

/-- The number with these digits. -/
def ofDigits (base : Nat) (digits : List Char) : Nat :=
  digits.foldl (fun n c => base * n + digitValue c) 0

/-- A whole number as it may be written. The digits of an octal one stand behind a zero. -/
inductive IntLiteral where
  | decimal (first : Char) (rest : List Char) (leads : first.isDigit = true ∧ first ≠ '0')
      (digits : rest.all Char.isDigit = true)
  | octal (rest : List Char) (digits : rest.all isOctalDigit = true)
  | hex (upper : Bool) (rest : List Char) (nonempty : rest ≠ []) (digits : rest.all isHexDigit = true)

namespace IntLiteral

def spelling : IntLiteral → List Char
  | decimal first rest _ _ => first :: rest
  | octal rest _ => '0' :: rest
  | hex upper rest _ _ => '0' :: (if upper then 'X' else 'x') :: rest

def value : IntLiteral → Nat
  | decimal first rest _ _ => ofDigits 10 (first :: rest)
  | octal rest _ => ofDigits 8 rest
  | hex _ rest _ _ => ofDigits 16 rest

end IntLiteral

end Integers

section Strings

/-- The character an escape of one letter or sign stands for. -/
def simpleEscape? : Char → Option Char
  | 'a' => some '\x07'
  | 'b' => some '\x08'
  | 'f' => some '\x0c'
  | 'n' => some '\n'
  | 'r' => some '\r'
  | 't' => some '\t'
  | 'v' => some '\x0b'
  | '\\' => some '\\'
  | '\'' => some '\''
  | '"' => some '"'
  | '?' => some '?'
  | _ => none

/-- A character of a string as it may be written: itself, or one of the escapes. -/
inductive StrPiece where
  | char (c : Char)
  | letter (c : Char)
  | octal (digits : List Char)
  | hex (upper : Bool) (digits : List Char)
  | unicode (long : Bool) (digits : List Char)
  | surrogates (high low : List Char)
  deriving DecidableEq

namespace StrPiece

def spelling : StrPiece → List Char
  | char c => [c]
  | letter c => ['\\', c]
  | octal digits => '\\' :: digits
  | hex upper digits => '\\' :: (if upper then 'X' else 'x') :: digits
  | unicode long digits => '\\' :: (if long then 'U' else 'u') :: digits
  | surrogates high low => '\\' :: 'u' :: (high ++ '\\' :: 'u' :: low)

/-- The bytes that are denoted. -/
def bytes : StrPiece → List UInt8
  | char c => encode [c]
  | letter c => encode (simpleEscape? c).toList
  | octal digits => [UInt8.ofNat (ofDigits 8 digits)]
  | hex _ digits => [UInt8.ofNat (ofDigits 16 digits)]
  | unicode _ digits => encode [Char.ofNat (ofDigits 16 digits)]
  | surrogates high low => encode [Char.ofNat
      (0x10000 + (ofDigits 16 high - 0xD800) * 0x400 + (ofDigits 16 low - 0xDC00))]

/-- The piece may stand in a string with these quotes. -/
def Proper (quote : Char) : StrPiece → Prop
  | char c => c ≠ quote ∧ c ≠ '\\'
  | letter c => (simpleEscape? c).isSome
  | octal digits => digits ≠ [] ∧ digits.length ≤ 3 ∧ digits.all isOctalDigit
  | hex _ digits => digits ≠ [] ∧ digits.length ≤ 2 ∧ digits.all isHexDigit
  | unicode long digits => digits.length = (if long then 8 else 4) ∧ digits.all isHexDigit ∧
      (ofDigits 16 digits).isValidChar
  | surrogates high low => high.length = 4 ∧ high.all isHexDigit ∧ low.length = 4 ∧
      low.all isHexDigit ∧ (0xD800 ≤ ofDigits 16 high ∧ ofDigits 16 high < 0xDC00) ∧
      0xDC00 ≤ ofDigits 16 low ∧ ofDigits 16 low < 0xE000

/-- An escape takes as many digits as it can. -/
def Greedy (behind : List Char) : StrPiece → Prop
  | octal digits => digits.length < 3 → ∀ c ∈ behind.head?, isOctalDigit c = false
  | hex _ digits => digits.length < 2 → ∀ c ∈ behind.head?, isHexDigit c = false
  | _ => True

end StrPiece

def spellings (pieces : List StrPiece) : List Char := pieces.flatMap StrPiece.spelling

/-- The pieces are read as such between these quotes. -/
def WellFormed (quote : Char) : List StrPiece → Prop
  | [] => True
  | p :: rest => p.Proper quote ∧ p.Greedy (spellings rest) ∧ WellFormed quote rest

/-- A string in quotes. -/
structure StrLiteral where
  quote : Char
  pieces : List StrPiece
  quoted : quote = '"' ∨ quote = '\''
  wellFormed : WellFormed quote pieces

namespace StrLiteral

variable (l : StrLiteral)

def spelling : List Char := l.quote :: (spellings l.pieces ++ [l.quote])

/-- The bytes that a string denotes. -/
def bytes : List UInt8 := l.pieces.flatMap StrPiece.bytes

end StrLiteral

end Strings

end TptProto.Language

/-! What the lexer makes of whole numbers. It reads octal digits as decimal ones. -/

namespace TptProto.Language

open TptProto.Foundation TptProto.Core

section Characters

variable {c : Char} {chars : List Char}

theorem toNat_ascii (small : c.toNat < 128) : (ascii c).toNat = c.toNat := by
  rw [ascii, UInt8.toNat_ofNat', Nat.mod_eq_of_lt (by omega)]

theorem byteChar_ascii (small : c.toNat < 128) : byteChar (ascii c) = c := by
  rw [byteChar, toNat_ascii small, Char.ofNat_toNat]

theorem ascii_inj {d : Char} (small : c.toNat < 128) (small' : d.toNat < 128)
    (same : ascii c = ascii d) : c = d := by
  rw [← byteChar_ascii small, ← byteChar_ascii small', same]

theorem encode_ascii (small : ∀ c ∈ chars, c.toNat < 128) : encode chars = chars.map ascii := by
  induction chars with
  | nil => rfl
  | cons c rest ih =>
    rcases utf8EncodeChar_cases c with ⟨_, single⟩ | ⟨large, _⟩
    · rw [encode_cons, single, ih fun d member => small d (List.mem_cons_of_mem c member)]
      rfl
    · have short := small c List.mem_cons_self
      omega

theorem byteChars_ascii (small : ∀ c ∈ chars, c.toNat < 128) :
    (chars.map ascii).map byteChar = chars := by
  rw [List.map_map]
  calc chars.map (byteChar ∘ ascii)
      = chars.map id := List.map_congr_left fun c member => byteChar_ascii (small c member)
    _ = chars := List.map_id chars

end Characters

section Digits

variable {c : Char} {digits : List Char} {behind : List UInt8}

theorem digit_bounds (digit : c.isDigit = true) : 48 ≤ c.toNat ∧ c.toNat ≤ 57 := by
  simp only [Char.isDigit, Bool.and_eq_true, decide_eq_true_eq] at digit
  exact ⟨UInt32.le_iff_toNat_le.mp digit.1, UInt32.le_iff_toNat_le.mp digit.2⟩

private theorem hexDigit_bounds (digit : isHexDigit c = true) :
    48 ≤ c.toNat ∧ c.toNat ≤ 57 ∨ 65 ≤ c.toNat ∧ c.toNat ≤ 70 ∨ 97 ≤ c.toNat ∧ c.toNat ≤ 102 := by
  unfold isHexDigit Hex.digit? at digit
  split at digit
  · exact .inl (digit_bounds (by assumption))
  split at digit
  · rename_i lower
    exact .inr (.inr ⟨lower.1, lower.2⟩)
  split at digit
  · rename_i upper
    exact .inr (.inl ⟨upper.1, upper.2⟩)
  · cases digit

theorem isDigit_of_isOctalDigit (octal : isOctalDigit c = true) : c.isDigit = true := by
  simp only [isOctalDigit, Bool.and_eq_true] at octal
  exact octal.1

theorem small_of_isHexDigit (digit : isHexDigit c = true) : c.toNat < 128 := by
  rcases hexDigit_bounds digit with bounds | bounds | bounds
  · omega
  · omega
  · omega

theorem digitValue_lt (digit : isHexDigit c = true) : digitValue c < 16 := by
  have bounds := hexDigit_bounds digit
  unfold digitValue Hex.digit?
  split
  · have decimal := digit_bounds (by assumption)
    simp only [Option.getD_some]
    omega
  split
  · rename_i lower
    have low : 97 ≤ c.toNat := lower.1
    have high : c.toNat ≤ 102 := lower.2
    simp only [Option.getD_some]
    omega
  split
  · rename_i upper
    have low : 65 ≤ c.toNat := upper.1
    have high : c.toNat ≤ 70 := upper.2
    simp only [Option.getD_some]
    omega
  · simp

theorem isHexDigit_of_isDigit (digit : c.isDigit = true) : isHexDigit c = true := by
  unfold isHexDigit Hex.digit?
  rw [if_pos digit]
  rfl

theorem digitValue_of_isDigit (digit : c.isDigit = true) : digitValue c = c.toNat - 48 := by
  unfold digitValue Hex.digit?
  rw [if_pos digit]
  rfl

theorem isAsciiDigit_ascii (digit : c.isDigit = true) : isAsciiDigit (ascii c) = true := by
  obtain ⟨low, high⟩ := digit_bounds digit
  have small : c.toNat < 128 := by omega
  simp only [isAsciiDigit, Bool.and_eq_true, decide_eq_true_eq, UInt8.le_iff_toNat_le,
    toNat_ascii small]
  exact ⟨low, high⟩

private theorem isAsciiHexDigit_ascii (digit : isHexDigit c = true) :
    isAsciiHexDigit (ascii c) = true := by
  have small := small_of_isHexDigit digit
  simp only [isAsciiHexDigit, isAsciiDigit, Bool.or_eq_true, Bool.and_eq_true, decide_eq_true_eq,
    UInt8.le_iff_toNat_le, toNat_ascii small]
  rcases hexDigit_bounds digit with bounds | bounds | bounds
  · exact .inl (.inl bounds)
  · exact .inl (.inr bounds)
  · exact .inr bounds

/-- Digits are no underscores, which are left out of numerals. -/
private theorem withoutUnderscores_digits (digits' : ∀ c ∈ digits, isHexDigit c = true ∨ c = 'x' ∨ c = 'X') :
    withoutUnderscores (digits.map ascii) = digits := by
  have small : ∀ c ∈ digits, c.toNat < 128 := by
    intro c member
    rcases digits' c member with digit | rfl | rfl
    · exact small_of_isHexDigit digit
    · decide
    · decide
  have kept : (digits.map ascii).filter (· ≠ ascii '_') = digits.map ascii := by
    refine List.filter_eq_self.mpr fun b member => ?_
    obtain ⟨c, inside, rfl⟩ := List.mem_map.mp member
    refine decide_eq_true fun same => ?_
    have underscore := ascii_inj (small c inside) (by decide) same
    subst underscore
    rcases digits' _ inside with digit | other | other
    · exact absurd digit (by decide)
    · exact absurd other (by decide)
    · exact absurd other (by decide)
  rw [withoutUnderscores, kept, byteChars_ascii small]

theorem numberWord_digits (all : digits.all Char.isDigit = true) (ends : NumberEnds false behind) :
    numberWord false false false (digits.map ascii ++ behind) =
      (false, digits.map ascii, behind) := by
  induction digits with
  | nil => exact numberWord_stops ends
  | cons c rest ih =>
    rw [List.all_cons, Bool.and_eq_true] at all
    rw [List.map_cons, List.cons_append, numberWord]
    simp only [Bool.false_and, Bool.false_eq_true, if_false, isAsciiDigit_ascii all.1, Bool.true_or,
      if_true, ih all.2]

theorem ofDigits_decimal (all : digits.all Char.isDigit = true) :
    ofDigits 10 digits = digits.foldl Decimal.push 0 := by
  have agree (n : Nat) : digits.foldl (fun n c => 10 * n + digitValue c) n =
      digits.foldl Decimal.push n := by
    induction digits generalizing n with
    | nil => rfl
    | cons c rest ih =>
      rw [List.all_cons, Bool.and_eq_true] at all
      rw [List.foldl_cons, List.foldl_cons, ih all.2, digitValue_of_isDigit all.1]
      rfl
  exact agree 0

theorem push?_digits (all : digits.all isHexDigit = true) (n : Nat) :
    Hex.push? n digits = some (digits.foldl (fun n c => 16 * n + digitValue c) n) := by
  induction digits generalizing n with
  | nil => rfl
  | cons c rest ih =>
    rw [List.all_cons, Bool.and_eq_true] at all
    obtain ⟨d, digit⟩ := Option.isSome_iff_exists.mp all.1
    rw [Hex.push?, digit, Option.bind_some, ih all.2, List.foldl_cons, digitValue, digit]
    rfl

end Digits

section Octal

variable {digits : List Char} {c : Char}

private theorem ofDigits_concat (base : Nat) (digits : List Char) (c : Char) :
    ofDigits base (digits ++ [c]) = base * ofDigits base digits + digitValue c := by
  unfold ofDigits
  rw [List.foldl_append]
  rfl

/-- Digits read in the smaller radix are no larger, and the same only where just the last counts. -/
private theorem octal_le_decimal (digits : List Char) :
    ofDigits 8 digits ≤ ofDigits 10 digits ∧ (ofDigits 8 digits = 0 → ofDigits 10 digits = 0) := by
  induction digits using List.reverseRecOn with
  | nil => exact ⟨Nat.le_refl _, fun _ => rfl⟩
  | append_singleton digits c ih =>
    obtain ⟨less, zero⟩ := ih
    rw [ofDigits_concat, ofDigits_concat]
    refine ⟨by omega, fun none => ?_⟩
    have front := zero (by omega)
    omega

theorem octal_eq_decimal_iff (all : digits.all isOctalDigit = true) :
    ofDigits 8 digits = ofDigits 10 digits ↔ ofDigits 8 digits < 8 := by
  rcases List.eq_nil_or_concat digits with rfl | ⟨front, c, rfl⟩
  · exact iff_of_true rfl (by decide)
  · obtain ⟨less, zero⟩ := octal_le_decimal front
    rw [List.concat_eq_append] at all ⊢
    rw [ofDigits_concat, ofDigits_concat]
    have octal : isOctalDigit c = true := List.all_eq_true.mp all c (by simp)
    have small : digitValue c < 8 := by
      rw [digitValue_of_isDigit (isDigit_of_isOctalDigit octal)]
      simp only [isOctalDigit, Bool.and_eq_true, decide_eq_true_eq] at octal
      omega
    constructor
    · intro same
      omega
    · intro single
      have none := zero (by omega)
      omega

end Octal

section Lexing

variable {parseFloat : String → Option UInt64} {c : Char} {digits : List Char}
variable {behind : List UInt8} {pos : Position}

private theorem simple?_digit (digit : c.isDigit = true) : simple? (ascii c) = none := by
  have small := small_of_isHexDigit (isHexDigit_of_isDigit digit)
  unfold simple?
  rw [byteChar_ascii small]
  split
  case h_14 => rfl
  all_goals exact absurd digit (by decide)

/-- A token that begins with a digit is a number. -/
theorem nextToken_digit (digit : c.isDigit = true) (cursor : Cursor) :
    nextToken parseFloat (ascii c) cursor = lexNumber parseFloat cursor := by
  have isDigit := isAsciiDigit_ascii digit
  have other (b : UInt8) (no : isAsciiDigit b = false) : ascii c ≠ b := by
    rintro rfl
    rw [isDigit] at no
    cases no
  have letter : isWordStart (ascii c) = false := by
    have small := small_of_isHexDigit (isHexDigit_of_isDigit digit)
    obtain ⟨low, high⟩ := digit_bounds digit
    simp only [isWordStart, isAsciiAlphabetic, Bool.or_eq_false_iff, Bool.and_eq_false_iff,
      decide_eq_false_iff_not, UInt8.le_iff_toNat_le, toNat_ascii small]
    refine ⟨⟨.inl fun above => ?_, .inl fun above => ?_⟩, other _ (by decide)⟩
    · have bound : (65 : UInt8).toNat = 65 := rfl
      omega
    · have bound : (97 : UInt8).toNat = 97 := rfl
      omega
  unfold nextToken
  rw [simple?_digit digit]
  simp only
  rw [if_neg, if_neg (by rw [letter]; exact Bool.false_ne_true), if_pos isDigit]
  rintro (double | single)
  · exact other _ (by decide) double
  · exact other _ (by decide) single

private theorem hexWord?_digits (all : (c :: digits).all Char.isDigit = true)
    (ends : NumberEnds false behind) : hexWord? ((c :: digits).map ascii ++ behind) = none := by
  have noX (b : UInt8) (plain : isWordPart b = false ∨ isAsciiDigit b = true) :
      ¬ (b = ascii 'x' ∨ b = ascii 'X') := by
    rintro (rfl | rfl)
    · exact plain.elim (by decide) (by decide)
    · exact plain.elim (by decide) (by decide)
  cases digits with
  | nil =>
    cases behind with
    | nil => rfl
    | cons b rest =>
      simp only [List.map_cons, List.map_nil, List.cons_append, List.nil_append, hexWord?]
      exact if_neg fun hex => noX b (.inl (ends b rfl).1) hex.2
  | cons d rest =>
    simp only [List.all_cons, Bool.and_eq_true] at all
    simp only [List.map_cons, List.cons_append, hexWord?]
    exact if_neg fun hex => noX (ascii d) (.inr (isAsciiDigit_ascii all.2.1)) hex.2

private theorem parseInt_digits (all : (c :: digits).all Char.isDigit = true) :
    Decimal.parseInt (2 ^ 63) (String.ofList (c :: digits)) =
      if ofDigits 10 (c :: digits) < 2 ^ 63 then some (ofDigits 10 (c :: digits) : Int) else none := by
  have first : c.isDigit = true := by
    rw [List.all_cons, Bool.and_eq_true] at all
    exact all.1
  have plus : Decimal.withoutPlus (c :: digits) = c :: digits := by
    unfold Decimal.withoutPlus
    split
    · rename_i same
      cases same
      exact absurd first (by decide)
    · rfl
  have read : Decimal.digits? (c :: digits) = some (ofDigits 10 (c :: digits)) := by
    rw [Decimal.digits?, if_pos ⟨List.cons_ne_nil _ _, all⟩, ofDigits_decimal all]
  unfold Decimal.parseInt Decimal.parseNat
  rw [String.toList_ofList]
  split
  · rename_i same
    cases same
    exact absurd first (by decide)
  · rw [plus, read]
    by_cases fits : ofDigits 10 (c :: digits) < 2 ^ 63
    · rw [if_pos fits, Option.filter_some_pos (by simpa using fits)]
      rfl
    · rw [if_neg fits, Option.filter_some_neg (by simpa using fits)]
      rfl

/-- A run of digits is read in the decimal radix, if it fits. -/
theorem lexNumber_digits (all : (c :: digits).all Char.isDigit = true)
    (ends : NumberEnds false behind) :
    lexNumber parseFloat ⟨pos, (c :: digits).map ascii ++ behind⟩ =
      if ofDigits 10 (c :: digits) < 2 ^ 63 then
        .ok (.int (Int64.ofInt (ofDigits 10 (c :: digits))),
          ⟨pos.after ((c :: digits).map ascii), behind⟩)
      else .err ⟨.unexpectedToken, "invalid integer literal", pos⟩ := by
  have hexes : ∀ d ∈ c :: digits, isHexDigit d = true ∨ d = 'x' ∨ d = 'X' := fun d member =>
    .inl (isHexDigit_of_isDigit (List.all_eq_true.mp all d member))
  rw [lexNumber_decimal (hexWord?_digits all ends) (numberWord_digits all ends)]
  unfold numberKind
  simp only [withoutUnderscores_digits hexes, parseInt_digits all, Bool.false_eq_true, if_false]
  by_cases fits : ofDigits 10 (c :: digits) < 2 ^ 63
  · simp only [if_pos fits]
    rfl
  · simp only [if_neg fits]
    rfl

private theorem hexWord?_hex {upper : Bool} (all : digits.all isHexDigit = true)
    (ends : NumberEnds false behind) :
    hexWord? (('0' :: (if upper then 'X' else 'x') :: digits).map ascii ++ behind) =
      some (('0' :: (if upper then 'X' else 'x') :: digits).map ascii, behind) := by
  have letter : ascii (if upper then 'X' else 'x') = ascii 'x' ∨
      ascii (if upper then 'X' else 'x') = ascii 'X' := by
    cases upper with
    | false => exact .inl rfl
    | true => exact .inr rfl
  have spanned : (digits.map ascii ++ behind).span
      (fun b => isAsciiHexDigit b || decide (b = ascii '_')) = (digits.map ascii, behind) := by
    refine span_eq_iff.mpr ⟨fun b member => ?_, fun b first => ?_⟩
    · obtain ⟨d, inside, rfl⟩ := List.mem_map.mp member
      rw [isAsciiHexDigit_ascii (List.all_eq_true.mp all d inside)]
      rfl
    · exact hexDigit_wordPart (ends b first).1
  simp only [List.map_cons, List.cons_append, hexWord?]
  rw [if_pos ⟨trivial, letter⟩, spanned]

/-- A hexadecimal numeral is read as it is, if it fits. -/
private theorem lexNumber_hexDigits {upper : Bool} (nonempty : digits ≠ [])
    (all : digits.all isHexDigit = true) (ends : NumberEnds false behind) :
    lexNumber parseFloat
        ⟨pos, ('0' :: (if upper then 'X' else 'x') :: digits).map ascii ++ behind⟩ =
      if ofDigits 16 digits < 2 ^ 63 then
        .ok (.int (Int64.ofNat (ofDigits 16 digits)),
          ⟨pos.after (('0' :: (if upper then 'X' else 'x') :: digits).map ascii), behind⟩)
      else .err ⟨.unexpectedToken, "invalid hexadecimal literal", pos⟩ := by
  have marks : ∀ d ∈ '0' :: (if upper then 'X' else 'x') :: digits,
      isHexDigit d = true ∨ d = 'x' ∨ d = 'X' := by
    intro d member
    rcases List.mem_cons.mp member with rfl | member
    · exact .inl (by decide)
    rcases List.mem_cons.mp member with rfl | member
    · cases upper with
      | false => exact .inr (.inl rfl)
      | true => exact .inr (.inr rfl)
    · exact .inl (List.all_eq_true.mp all d member)
  have read : Hex.parse (2 ^ 63) digits =
      if ofDigits 16 digits < 2 ^ 63 then some (ofDigits 16 digits) else none := by
    cases digits with
    | nil => exact absurd rfl nonempty
    | cons d rest =>
      have plus : d ≠ '+' := by
        rintro rfl
        exact absurd (List.all_eq_true.mp all '+' List.mem_cons_self) (by decide)
      rw [Hex.parse_cons plus, push?_digits all]
      show Option.filter _ (some (ofDigits 16 (d :: rest))) = _
      by_cases fits : ofDigits 16 (d :: rest) < 2 ^ 63
      · rw [if_pos fits, Option.filter_some_pos (by simpa using fits)]
      · rw [if_neg fits, Option.filter_some_neg (by simpa using fits)]
  rw [lexNumber_hex (hexWord?_hex all ends)]
  unfold numberKind
  simp only [withoutUnderscores_digits marks, List.drop_succ_cons, List.drop_zero, read, if_true]
  by_cases fits : ofDigits 16 digits < 2 ^ 63
  · simp only [if_pos fits]
    rfl
  · simp only [if_neg fits]
    rfl

end Lexing

section Values

variable (parseFloat : String → Option UInt64) (l : IntLiteral) (pos : Position)
variable (behind : List UInt8)

/-- The first digit, which the lexer takes for the start of a number. -/
def IntLiteral.lead : IntLiteral → Char
  | decimal first _ _ _ => first
  | octal _ _ | hex _ _ _ _ => '0'

/-- The literal is rejected, or is the token of exactly the number that it denotes. -/
def IntLiteral.LexedExactly : Prop :=
  (∃ error, nextToken parseFloat (ascii l.lead) ⟨pos, encode l.spelling ++ behind⟩ = .err error) ∨
    ∃ v, nextToken parseFloat (ascii l.lead) ⟨pos, encode l.spelling ++ behind⟩ =
      .ok (.int v, ⟨pos.after (encode l.spelling), behind⟩) ∧ v.toInt = l.value

/-- An octal literal is below 8, or too large for its digits to be read as decimal ones. -/
def IntLiteral.Exact : IntLiteral → Prop
  | octal rest _ => ofDigits 8 rest < 8 ∨ 2 ^ 63 ≤ ofDigits 10 rest
  | decimal _ _ _ _ | hex _ _ _ _ => True

end Values

section Theorem

variable {parseFloat : String → Option UInt64} {pos : Position} {behind : List UInt8}

private theorem toInt_ofInt {n : Nat} (fits : n < 2 ^ 63) : (Int64.ofInt n).toInt = n :=
  Int64.toInt_ofInt_of_le (by omega) (by omega)

/-- The literal's number, when the lexer reads it as some number if it fits. -/
private theorem exactly_iff {l : IntLiteral} {n : Nat} {error : LexError}
    (lexed : nextToken parseFloat (ascii l.lead) ⟨pos, encode l.spelling ++ behind⟩ =
      if n < 2 ^ 63 then .ok (.int (Int64.ofInt n), ⟨pos.after (encode l.spelling), behind⟩)
      else .err error) :
    l.LexedExactly parseFloat pos behind ↔ 2 ^ 63 ≤ n ∨ l.value = n := by
  unfold IntLiteral.LexedExactly
  rw [lexed]
  by_cases fits : n < 2 ^ 63
  · rw [if_pos fits]
    constructor
    · rintro (⟨_, impossible⟩ | ⟨v, same, exact⟩)
      · cases impossible
      · cases same
        rw [toInt_ofInt fits] at exact
        exact .inr (Int.ofNat_inj.mp exact.symm)
    · rintro (large | same)
      · omega
      · exact .inr ⟨_, rfl, by rw [toInt_ofInt fits, same]⟩
  · rw [if_neg fits]
    exact iff_of_true (.inl ⟨error, rfl⟩) (.inl (Nat.not_lt.mp fits))

/-- A whole number is rejected or lexed exactly if it is not octal, or is but one octal digit, or too
large. -/
theorem intLiteral_lexed_iff (l : IntLiteral) (ends : NumberEnds false behind) :
    l.LexedExactly parseFloat pos behind ↔ l.Exact := by
  cases l with
  | decimal first rest leads digits =>
    have all : (first :: rest).all Char.isDigit = true := by rw [List.all_cons, leads.1, digits]; rfl
    have small : ∀ c ∈ first :: rest, c.toNat < 128 := fun c member =>
      small_of_isHexDigit (isHexDigit_of_isDigit (List.all_eq_true.mp all c member))
    have lexed := @lexNumber_digits parseFloat _ _ behind pos all ends
    rw [← encode_ascii small, ← nextToken_digit leads.1] at lexed
    exact (exactly_iff (l := .decimal first rest leads digits) lexed).trans
      (iff_of_true (.inr rfl) trivial)
  | octal rest digits =>
    have all : ('0' :: rest).all Char.isDigit = true := by
      rw [List.all_cons, Bool.and_eq_true]
      exact ⟨by decide, List.all_eq_true.mpr fun c member =>
        isDigit_of_isOctalDigit (List.all_eq_true.mp digits c member)⟩
    have small : ∀ c ∈ '0' :: rest, c.toNat < 128 := fun c member =>
      small_of_isHexDigit (isHexDigit_of_isDigit (List.all_eq_true.mp all c member))
    have lexed := @lexNumber_digits parseFloat _ _ behind pos all ends
    rw [← encode_ascii small, ← nextToken_digit (c := '0') (by decide)] at lexed
    rw [exactly_iff (l := .octal rest digits) lexed]
    show 2 ^ 63 ≤ ofDigits 10 rest ∨ ofDigits 8 rest = ofDigits 10 rest ↔ _
    rw [octal_eq_decimal_iff digits]
    exact or_comm
  | hex upper rest nonempty digits =>
    have small : ∀ c ∈ '0' :: (if upper then 'X' else 'x') :: rest, c.toNat < 128 := by
      intro c member
      rcases List.mem_cons.mp member with rfl | member
      · decide
      rcases List.mem_cons.mp member with rfl | member
      · cases upper with
        | false => decide
        | true => decide
      · exact small_of_isHexDigit (List.all_eq_true.mp digits c member)
    have lexed := @lexNumber_hexDigits parseFloat rest behind pos upper nonempty digits ends
    rw [← encode_ascii small, ← nextToken_digit (c := '0') (by decide)] at lexed
    exact (exactly_iff (l := .hex upper rest nonempty digits) lexed).trans
      (iff_of_true (.inr rfl) trivial)

end Theorem

end TptProto.Language
