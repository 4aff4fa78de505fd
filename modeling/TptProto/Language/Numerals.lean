import TptProto.Language.Lexemes

/-! Names, signs and decimal numerals as tokens. -/

namespace TptProto.Language

open TptProto.Foundation TptProto.Core

section Names

/-- A name: letters, digits and underscores, without a digit in front. -/
structure Name where
  first : Char
  rest : List Char
  starts : first.isAlpha = true ∨ first = '_'
  parts : rest.all (fun c => c.isAlphanum || c = '_') = true

def Name.chars (n : Name) : List Char := n.first :: n.rest

def Name.text (n : Name) : String := String.ofList n.chars

variable {parseFloat : String → Option UInt64} {c : Char} {behind : List UInt8}

private theorem isAsciiAlphabetic_ascii (letter : c.isAlpha = true) :
    c.toNat < 128 ∧ isAsciiAlphabetic (ascii c) = true := by
  have bounds := isAlpha_iff.mp letter
  have small : c.toNat < 128 := by omega
  refine ⟨small, ?_⟩
  simp only [isAsciiAlphabetic, Bool.or_eq_true, Bool.and_eq_true, decide_eq_true_eq,
    UInt8.le_iff_toNat_le, toNat_ascii small]
  exact bounds

theorem isWordStart_ascii (starts : c.isAlpha = true ∨ c = '_') :
    c.toNat < 128 ∧ isWordStart (ascii c) = true := by
  rcases starts with letter | rfl
  · obtain ⟨small, alphabetic⟩ := isAsciiAlphabetic_ascii letter
    exact ⟨small, by rw [isWordStart, alphabetic]; rfl⟩
  · decide

theorem isWordPart_ascii (part : c.isAlphanum = true ∨ c = '_') :
    c.toNat < 128 ∧ isWordPart (ascii c) = true := by
  rcases part with alphanumeric | rfl
  · rcases Bool.or_eq_true_iff.mp alphanumeric with letter | digit
    · obtain ⟨small, alphabetic⟩ := isAsciiAlphabetic_ascii letter
      exact ⟨small, by rw [isWordPart, alphabetic]; rfl⟩
    · obtain ⟨low, high⟩ := digit_bounds digit
      refine ⟨by omega, ?_⟩
      rw [isWordPart, isAsciiDigit_ascii digit, Bool.or_true, Bool.true_or]
  · decide

private theorem simple?_word (starts : c.isAlpha = true ∨ c = '_') : simple? (ascii c) = none := by
  unfold simple?
  rw [byteChar_ascii (isWordStart_ascii starts).1]
  split
  case h_14 => rfl
  all_goals exact absurd starts (by decide)

private theorem nextToken_word (starts : c.isAlpha = true ∨ c = '_') (cursor : Cursor) :
    nextToken parseFloat (ascii c) cursor =
      .ok (.ident (asciiText (cursor.rest.span isWordPart).1),
        cursor.skip (cursor.rest.span isWordPart)) := by
  have start := (isWordStart_ascii starts).2
  have other (d : UInt8) (no : isWordStart d = false) : ascii c ≠ d := by
    rintro rfl
    rw [no] at start
    cases start
  unfold nextToken
  rw [simple?_word starts]
  simp only
  rw [if_neg, if_pos start]
  rintro (double | single)
  · exact other _ (by decide) double
  · exact other _ (by decide) single

variable (n : Name)

theorem Name.parts_of_mem (member : c ∈ n.chars) : c.isAlphanum = true ∨ c = '_' := by
  rcases List.mem_cons.mp member with rfl | later
  · exact n.starts.imp_left fun letter => by rw [Char.isAlphanum, letter]; rfl
  · simpa using List.all_eq_true.mp n.parts c later

theorem Name.encode_chars : encode n.chars = n.chars.map ascii :=
  encode_ascii fun _ member => (isWordPart_ascii (n.parts_of_mem member)).1

/-- A name is the token of its own text. -/
theorem tokenAt_name (ends : ∀ b ∈ behind.head?, isWordPart b = false) :
    TokenAt parseFloat (.ident n.text) (encode n.chars) behind := by
  refine ⟨ascii n.first, n.rest.map ascii, n.encode_chars, fun pos => ?_⟩
  have spanned : (encode n.chars ++ behind).span isWordPart = (encode n.chars, behind) := by
    refine span_eq_iff.mpr ⟨fun b member => ?_, ends⟩
    rw [n.encode_chars] at member
    obtain ⟨c, inside, rfl⟩ := List.mem_map.mp member
    exact (isWordPart_ascii (n.parts_of_mem inside)).2
  have text : asciiText (encode n.chars) = n.text := by
    rw [asciiText, n.encode_chars,
      byteChars_ascii fun _ member => (isWordPart_ascii (n.parts_of_mem member)).1]
    rfl
  rw [nextToken_word n.starts]
  dsimp only
  rw [spanned, text]
  rfl

/-- A sign is a token whatever stands behind it. -/
theorem tokenAt_sign {kind : TokenKind} (sign : simple? (ascii c) = some kind)
    (single : encode [c] = [ascii c]) : TokenAt parseFloat kind (encode [c]) behind := by
  refine ⟨ascii c, [], single, fun pos => ?_⟩
  unfold nextToken
  rw [sign, single]
  rfl

end Names

section Whole

variable {parseFloat : String → Option UInt64} {behind : List UInt8} {n : Nat}

/-- A number is the token of its own value. -/
theorem tokenAt_nat (fits : n < 2 ^ 63) (ends : NumberEnds false behind) :
    TokenAt parseFloat (.int (Int64.ofInt n)) (encode (Nat.toDigits 10 n)) behind := by
  cases digits : Nat.toDigits 10 n with
  | nil => exact absurd digits Nat.toDigits_ne_nil
  | cons first rest =>
    have all : (first :: rest).all Char.isDigit = true := by
      rw [← digits]
      exact List.all_eq_true.mpr fun _ member =>
        Nat.isDigit_of_mem_toDigits (by decide) (by decide) member
    have value : ofDigits 10 (first :: rest) = n := by
      rw [ofDigits_decimal all, ← digits]
      exact Nat.ofDigitChars_ten_toDigits
    have small : ∀ c ∈ first :: rest, c.toNat < 128 := fun c member =>
      small_of_isHexDigit (isHexDigit_of_isDigit (List.all_eq_true.mp all c member))
    refine ⟨ascii first, rest.map ascii, encode_ascii small, fun pos => ?_⟩
    have lexed := @lexNumber_digits parseFloat _ _ behind pos all ends
    rw [value, if_pos fits] at lexed
    rw [List.all_cons, Bool.and_eq_true] at all
    rw [nextToken_digit all.1, encode_ascii small, lexed]

end Whole

section Fractions

/-- The exponent of a decimal fraction: a letter, a sign or none, and digits. -/
structure Exponent where
  upper : Bool
  sign : Option Bool
  digits : List Char
  nonempty : digits ≠ []
  all : digits.all Char.isDigit = true

def Exponent.chars (e : Exponent) : List Char :=
  (if e.upper then 'E' else 'e') ::
    ((match e.sign with
      | none => []
      | some true => ['-']
      | some false => ['+']) ++ e.digits)

/-- What goes on behind the digits in front of a point or an exponent. -/
structure FractionTail where
  point : Option (List Char)
  exponent : Option Exponent
  pointDigits : ∀ digits ∈ point, digits.all Char.isDigit = true

def FractionTail.chars (t : FractionTail) : List Char :=
  (match t.point with
    | none => []
    | some digits => '.' :: digits) ++
  match t.exponent with
  | none => []
  | some e => e.chars

variable {parseFloat : String → Option UInt64} {behind : List UInt8}
variable {sawDot sawExp : Bool} {digits : List Char} {rest : List UInt8}

/-- Digits belong to the numeral. -/
private theorem numberWord_through (all : digits.all Char.isDigit = true) :
    numberWord sawDot sawExp false (digits.map ascii ++ rest) =
      ((numberWord sawDot sawExp false rest).1,
        digits.map ascii ++ (numberWord sawDot sawExp false rest).2.1,
        (numberWord sawDot sawExp false rest).2.2) := by
  induction digits with
  | nil => rfl
  | cons c more ih =>
    rw [List.all_cons, Bool.and_eq_true] at all
    rw [List.map_cons, List.cons_append, numberWord]
    simp only [Bool.false_and, Bool.false_eq_true, if_false, isAsciiDigit_ascii all.1, Bool.true_or,
      if_true, ih all.2]
    rfl

/-- A step of a numeral that its first byte goes on with. -/
private theorem numberWord_cons {b : UInt8} {word : List UInt8} {sign float : Bool}
    (sawDot' sawExp' sign' : Bool) (step : numberWord sawDot sawExp sign (b :: rest) =
      ((numberWord sawDot' sawExp' sign' rest).1, b :: (numberWord sawDot' sawExp' sign' rest).2.1,
        (numberWord sawDot' sawExp' sign' rest).2.2))
    (later : numberWord sawDot' sawExp' sign' rest = (float, word, behind)) :
    numberWord sawDot sawExp sign (b :: rest) = (float, b :: word, behind) := by
  rw [step, later]

/-- The digits of an exponent, with or without a sign right in front of them. -/
private theorem numberWord_power {sign : Bool} (nonempty : digits ≠ [])
    (all : digits.all Char.isDigit = true) (ends : NumberEnds true behind) :
    numberWord sawDot true sign (digits.map ascii ++ behind) = (true, digits.map ascii, behind) := by
  have stops : numberWord sawDot true false behind = (true, [], behind) := by
    have ends' : NumberEnds (sawDot || true) behind := by rwa [Bool.or_true]
    rw [numberWord_stops ends', Bool.or_true]
  cases digits with
  | nil => exact absurd rfl nonempty
  | cons c more =>
    rw [List.all_cons, Bool.and_eq_true] at all
    have digit := isAsciiDigit_ascii all.1
    have noSign : (sign && (decide (ascii c = ascii '+') || decide (ascii c = ascii '-'))) = false := by
      have plus : ascii c ≠ ascii '+' := fun same => by rw [same] at digit; cases digit
      have minus : ascii c ≠ ascii '-' := fun same => by rw [same] at digit; cases digit
      simp [plus, minus]
    refine numberWord_cons sawDot true false ?_ ?_
    · rw [numberWord]
      simp only [noSign, digit, Bool.true_or, Bool.false_eq_true, if_false, if_true]
    · refine (numberWord_through all.2).trans ?_
      rw [stops, List.append_nil]

private theorem numberWord_exponent (e : Exponent) (ends : NumberEnds true behind) :
    numberWord sawDot false false (e.chars.map ascii ++ behind) =
      (true, e.chars.map ascii, behind) := by
  unfold Exponent.chars
  rw [List.map_cons, List.cons_append]
  refine numberWord_cons sawDot true true ?_ ?_
  · cases e.upper with
    | false => rfl
    | true => rfl
  · cases e.sign with
    | none => exact numberWord_power e.nonempty e.all ends
    | some minus =>
      rw [List.map_append]
      cases minus with
      | false =>
        exact numberWord_cons sawDot true false rfl
          (numberWord_power e.nonempty e.all ends)
      | true =>
        exact numberWord_cons sawDot true false rfl
          (numberWord_power e.nonempty e.all ends)

/-- Whether the tail makes a numeral a fraction. -/
def FractionTail.isFraction (t : FractionTail) : Bool := t.point.isSome || t.exponent.isSome

private theorem numberWord_tail (t : FractionTail) (ends : NumberEnds t.isFraction behind) :
    numberWord false false false (t.chars.map ascii ++ behind) =
      (t.isFraction, t.chars.map ascii, behind) := by
  obtain ⟨point, exponent, pointDigits⟩ := t
  unfold FractionTail.isFraction at ends ⊢
  unfold FractionTail.chars
  cases point with
  | none =>
    cases exponent with
    | none => exact numberWord_stops ends
    | some e => exact numberWord_exponent e ends
  | some digits =>
    have all := pointDigits digits rfl
    rw [List.cons_append, List.map_cons, List.map_append, List.cons_append, List.append_assoc]
    refine numberWord_cons true false false rfl ((numberWord_through all).trans ?_)
    cases exponent with
    | none =>
      have stops : numberWord true false false behind = (true, [], behind) := numberWord_stops ends
      simp only [List.map_nil, List.nil_append, stops]
      rfl
    | some e =>
      simp only [numberWord_exponent e ends]
      rfl

/-- A character that a decimal numeral may have. -/
private def IsNumeral (c : Char) : Prop := c.isDigit = true ∨ c ∈ ['.', 'e', 'E', '+', '-']

private theorem IsNumeral.small {c : Char} (numeral : IsNumeral c) : c.toNat < 128 := by
  rcases numeral with digit | other
  · exact small_of_isHexDigit (isHexDigit_of_isDigit digit)
  · have all : ['.', 'e', 'E', '+', '-'].all (fun c => decide (c.toNat < 128)) = true := by decide
    exact of_decide_eq_true (List.all_eq_true.mp all c other)

private theorem IsNumeral.other {c d : Char} (numeral : IsNumeral c) (no : d.isDigit = false)
    (absent : d ∉ ['.', 'e', 'E', '+', '-']) : c ≠ d := by
  rintro rfl
  rcases numeral with digit | member
  · rw [no] at digit
    cases digit
  · exact absent member

private theorem isNumeral_of_digits (all : digits.all Char.isDigit = true) :
    ∀ c ∈ digits, IsNumeral c :=
  fun c member => .inl (List.all_eq_true.mp all c member)

private theorem isNumeral_exponent (e : Exponent) : ∀ c ∈ e.chars, IsNumeral c := by
  unfold Exponent.chars
  intro c member
  rcases List.mem_cons.mp member with rfl | member
  · cases e.upper with
    | false => exact .inr (by decide)
    | true => exact .inr (by decide)
  rcases List.mem_append.mp member with sign | digit
  · cases same : e.sign with
    | none =>
      rw [same] at sign
      cases sign
    | some minus =>
      rw [same] at sign
      cases minus with
      | false =>
        obtain rfl := List.mem_singleton.mp sign
        exact .inr (by decide)
      | true =>
        obtain rfl := List.mem_singleton.mp sign
        exact .inr (by decide)
  · exact isNumeral_of_digits e.all c digit

private theorem isNumeral_tail (t : FractionTail) : ∀ c ∈ t.chars, IsNumeral c := by
  unfold FractionTail.chars
  intro c member
  rcases List.mem_append.mp member with point | exponent
  · cases same : t.point with
    | none =>
      rw [same] at point
      cases point
    | some digits =>
      rw [same] at point
      rcases List.mem_cons.mp point with rfl | digit
      · exact .inr (by decide)
      · exact isNumeral_of_digits (t.pointDigits digits same) c digit
  · cases same : t.exponent with
    | none =>
      rw [same] at exponent
      cases exponent
    | some e =>
      rw [same] at exponent
      exact isNumeral_exponent e c exponent

private theorem withoutUnderscores_numeral {chars : List Char} (numeral : ∀ c ∈ chars, IsNumeral c) :
    withoutUnderscores (chars.map ascii) = chars := by
  have kept : (chars.map ascii).filter (· ≠ ascii '_') = chars.map ascii := by
    refine List.filter_eq_self.mpr fun b member => ?_
    obtain ⟨c, inside, rfl⟩ := List.mem_map.mp member
    refine decide_eq_true fun same => ?_
    exact (numeral c inside).other (by decide) (by decide)
      (ascii_inj (numeral c inside).small (by decide) same)
  rw [withoutUnderscores, kept, byteChars_ascii fun c member => (numeral c member).small]

variable {first : Char} {more : List Char} {t : FractionTail}

/-- The value of a decimal numeral with this text. -/
def numeralKind (parseFloat : String → Option UInt64) (fraction : Bool) (text : List Char) :
    Option TokenKind :=
  if fraction then (parseFloat (String.ofList text)).map .float
  else (Decimal.parseInt (2 ^ 63) (String.ofList text)).map fun v => .int (Int64.ofInt v)

/-- Digits with what makes them a fraction, if anything does, are read as one numeral. -/
private theorem nextToken_numeral (all : (first :: more).all Char.isDigit = true)
    (ends : NumberEnds t.isFraction behind) (pos : Position) :
    match numeralKind parseFloat t.isFraction (first :: more ++ t.chars) with
    | some kind => nextToken parseFloat (ascii first) ⟨pos, encode (first :: more ++ t.chars) ++ behind⟩ =
        .ok (kind, ⟨pos.after (encode (first :: more ++ t.chars)), behind⟩)
    | none => ∃ error, nextToken parseFloat (ascii first)
        ⟨pos, encode (first :: more ++ t.chars) ++ behind⟩ = .err error := by
  have numeral : ∀ c ∈ first :: more ++ t.chars, IsNumeral c := fun c member =>
    (List.mem_append.mp member).elim (isNumeral_of_digits all c) (isNumeral_tail t c)
  have digit : first.isDigit = true := by
    rw [List.all_cons, Bool.and_eq_true] at all
    exact all.1
  rw [encode_ascii fun c member => (numeral c member).small, nextToken_digit digit]
  have noX (b : UInt8) (plain : isWordPart b = false ∨ ∃ c, IsNumeral c ∧ b = ascii c) :
      ¬ (b = ascii 'x' ∨ b = ascii 'X') := by
    rintro (rfl | rfl)
    · rcases plain with word | ⟨c, isNumeral, same⟩
      · exact absurd word (by decide)
      · exact isNumeral.other (by decide) (by decide)
          (ascii_inj isNumeral.small (by decide) same.symm)
    · rcases plain with word | ⟨c, isNumeral, same⟩
      · exact absurd word (by decide)
      · exact isNumeral.other (by decide) (by decide)
          (ascii_inj isNumeral.small (by decide) same.symm)
  have noHex : hexWord? ((first :: more ++ t.chars).map ascii ++ behind) = none := by
    rw [List.cons_append, List.map_cons, List.cons_append]
    cases ahead : (more ++ t.chars).map ascii ++ behind with
    | nil => rfl
    | cons b rest =>
      unfold hexWord?
      simp only
      refine if_neg fun hex => noX b ?_ hex.2
      cases chars : more ++ t.chars with
      | nil =>
        rw [chars] at ahead
        cases ahead
        exact .inl (ends b rfl).1
      | cons c others =>
        rw [chars] at ahead
        cases ahead
        exact .inr ⟨c, numeral c (by rw [List.cons_append, chars]; simp), rfl⟩
  have spanned : numberWord false false false ((first :: more ++ t.chars).map ascii ++ behind) =
      (t.isFraction, (first :: more ++ t.chars).map ascii, behind) := by
    rw [List.map_append, List.append_assoc]
    refine (numberWord_through all).trans ?_
    rw [numberWord_tail t ends]
  rw [lexNumber_decimal noHex spanned]
  unfold numeralKind numberKind
  simp only [withoutUnderscores_numeral numeral, Bool.false_eq_true, if_false]
  cases t.isFraction with
  | true =>
    cases parseFloat (String.ofList (first :: more ++ t.chars)) with
    | some bits => rfl
    | none => exact ⟨_, rfl⟩
  | false =>
    cases Decimal.parseInt (2 ^ 63) (String.ofList (first :: more ++ t.chars)) with
    | some v => rfl
    | none => exact ⟨_, rfl⟩

theorem tokenAt_numeral {kind : TokenKind} (all : (first :: more).all Char.isDigit = true)
    (ends : NumberEnds t.isFraction behind)
    (read : numeralKind parseFloat t.isFraction (first :: more ++ t.chars) = some kind) :
    TokenAt parseFloat kind (encode (first :: more ++ t.chars)) behind := by
  have numeral : ∀ c ∈ first :: more ++ t.chars, IsNumeral c := fun c member =>
    (List.mem_append.mp member).elim (isNumeral_of_digits all c) (isNumeral_tail t c)
  refine ⟨ascii first, (more ++ t.chars).map ascii,
    encode_ascii fun c member => (numeral c member).small, fun pos => ?_⟩
  have lexed := @nextToken_numeral parseFloat behind first more t all ends pos
  rw [read] at lexed
  exact lexed

private theorem digit_begins {b : UInt8} (digit : isAsciiDigit b = true) (rest : List UInt8) :
    isBlank b = false ∧ comment? (b :: rest) = none := by
  have other (d : UInt8) (no : isAsciiDigit d = false) : b ≠ d := by
    rintro rfl
    rw [no] at digit
    cases digit
  constructor
  · simp only [isBlank, Bool.or_eq_false_iff, decide_eq_false_iff_not]
    exact ⟨⟨⟨other _ (by decide), other _ (by decide)⟩, other _ (by decide)⟩, other _ (by decide)⟩
  · have noSlash := other (ascii '/') (by decide)
    cases rest with
    | nil => rfl
    | cons c behind => simp [comment?, noSlash]

/-- A numeral that is not read is no token. -/
theorem refused_numeral (all : (first :: more).all Char.isDigit = true)
    (ends : NumberEnds t.isFraction behind)
    (refused : numeralKind parseFloat t.isFraction (first :: more ++ t.chars) = none) :
    Refused parseFloat (encode (first :: more ++ t.chars) ++ behind) := by
  have numeral : ∀ c ∈ first :: more ++ t.chars, IsNumeral c := fun c member =>
    (List.mem_append.mp member).elim (isNumeral_of_digits all c) (isNumeral_tail t c)
  have digit : first.isDigit = true := by
    rw [List.all_cons, Bool.and_eq_true] at all
    exact all.1
  have split : encode (first :: more ++ t.chars) ++ behind =
      ascii first :: ((more ++ t.chars).map ascii ++ behind) := by
    rw [encode_ascii fun c member => (numeral c member).small]
    rfl
  obtain ⟨noBlank, noComment⟩ := digit_begins (isAsciiDigit_ascii digit)
    ((more ++ t.chars).map ascii ++ behind)
  refine ⟨_, _, split, noBlank, by rw [split]; exact noComment, fun pos => ?_⟩
  have lexed := @nextToken_numeral parseFloat behind first more t all ends pos
  rw [refused] at lexed
  exact lexed

/-- What is read of a numeral is a number. -/
theorem isNumber_numeralKind {fraction : Bool} {chars : List Char} {kind : TokenKind}
    (read : numeralKind parseFloat fraction chars = some kind) : kind.IsNumber := by
  unfold numeralKind at read
  split at read
  · obtain ⟨bits, _, rfl⟩ := Option.map_eq_some_iff.mp read
    exact trivial
  · obtain ⟨v, _, rfl⟩ := Option.map_eq_some_iff.mp read
    exact trivial

end Fractions

end TptProto.Language
