import TptProto.Compiler.Traverse
import TptProto.Language.Declarations

/-! Enum values and field defaults with a sign, from the text to the descriptor. The lexer knows no
sign in front of a number. -/

namespace TptProto.Compiler

open TptProto.Foundation TptProto.Core TptProto.Descriptor TptProto.Language

section Sources

/-- A decimal fraction as it may be written. -/
structure FloatLiteral where
  negative : Bool
  whole : List Char
  tail : FractionTail
  digits : whole.all Char.isDigit = true
  fraction : tail.isFraction = true
  nonempty : whole ≠ [] ∨ ∃ more ≠ [], tail.point = some more

namespace FloatLiteral

def unsigned (l : FloatLiteral) : List Char := l.whole ++ l.tail.chars

def chars (l : FloatLiteral) : List Char := if l.negative then '-' :: l.unsigned else l.unsigned

end FloatLiteral

/-- A constant that may have a sign. Of a fraction the host language reads the digits as a double. -/
inductive SignedConstant (parseFloat : String → Option UInt64) where
  | int (c : Int64)
  | float (l : FloatLiteral) (bits : UInt64)
      (read : parseFloat (String.ofList l.unsigned) = some bits)

namespace SignedConstant

variable {parseFloat : String → Option UInt64}

def chars : SignedConstant parseFloat → List Char
  | int c => (toString c.toInt).toList
  | float l _ _ => l.chars

/-- The constant's value as a text. A minus sign flips the double's own. -/
def text (displayFloat : UInt64 → String) : SignedConstant parseFloat → String
  | int c => toString c.toInt
  | float l bits _ => displayFloat (if l.negative then bits ^^^ 0x8000000000000000 else bits)

/-- No sign, and a digit in front. -/
def Plain : SignedConstant parseFloat → Prop
  | int c => 0 ≤ c.toInt
  | float l _ _ => l.negative = false ∧ l.whole ≠ []

end SignedConstant

/-- An enum value's declaration. Its name is no keyword of an enum's body. -/
structure ValueDeclaration where
  name : Name
  number : Int32
  noKeyword : name.text ≠ "option" ∧ name.text ≠ "reserved"

def ValueDeclaration.chars (v : ValueDeclaration) : List Char :=
  v.name.chars ++ " = ".toList ++ (toString v.number.toInt).toList ++ "; ".toList

/-- A field's declaration with a default. -/
structure DefaultDeclaration (parseFloat : String → Option UInt64) where
  ty : Name
  name : Name
  number : Nat
  fits : number < 2 ^ 63
  constant : SignedConstant parseFloat

def DefaultDeclaration.chars {parseFloat : String → Option UInt64}
    (f : DefaultDeclaration parseFloat) : List Char :=
  "optional ".toList ++ f.ty.chars ++ ' ' :: f.name.chars ++ " = ".toList ++ Nat.toDigits 10 f.number ++
    " [default = ".toList ++ f.constant.chars ++ "]; ".toList

/-- `enum E { A = 1; B = 2; }` -/
def enumSource (e : Name) (values : List ValueDeclaration) : String :=
  String.ofList ("enum ".toList ++ e.chars ++ " \x7b ".toList ++ values.flatMap ValueDeclaration.chars ++ ['}'])

/-- `message M { optional T a = 1 [default = 2]; }` -/
def messageSource {parseFloat : String → Option UInt64} (m : Name)
    (fields : List (DefaultDeclaration parseFloat)) : String :=
  String.ofList ("message ".toList ++ m.chars ++ " \x7b ".toList ++
    fields.flatMap DefaultDeclaration.chars ++ ['}'])

variable (parseFloat : String → Option UInt64) (text : DebugText) (displayFloat : UInt64 → String)
variable (fileName : String)

/-- The enum is lexed and parsed without a diagnostic, and its descriptor has the numbers. -/
def SignsKept (e : Name) (values : List ValueDeclaration) : Prop :=
  ∃ tokens, lex parseFloat (enumSource e values) = .ok tokens ∧
    ∃ least, ∀ fuel, least ≤ fuel → ∃ file q, parseTokens text fuel fileName tokens = .ok (file, q) ∧
      q.diagnostics = [] ∧ (compile displayFloat file).1.enumType =
        [{ name := some e.text
           value := values.map fun v => { name := some v.name.text, number := some v.number } }]

/-- The message is lexed and parsed without a diagnostic, and its descriptor has the defaults. -/
def DefaultsKept (m : Name) (fields : List (DefaultDeclaration parseFloat)) : Prop :=
  ∃ tokens, lex parseFloat (messageSource m fields) = .ok tokens ∧
    ∃ least, ∀ fuel, least ≤ fuel → ∃ file q, parseTokens text fuel fileName tokens = .ok (file, q) ∧
      q.diagnostics = [] ∧
      (compile displayFloat file).1.messageType.map
          (fun m => (m.name, m.field.map fun f => (f.name, f.defaultValue))) =
        [(some m.text, fields.map fun f => (some f.name.text, some (f.constant.text displayFloat)))]

end Sources

section Lexing

variable {parseFloat : String → Option UInt64}

private def word (n : Name) : Lexeme := .token (.ident n.text) n.chars

private theorem separate_word {n : Name} {rest : List Lexeme} {behind : List UInt8}
    (blank : (written rest).head? = some ' ') (later : Separate parseFloat rest behind) :
    Separate parseFloat (word n :: rest) behind := by
  refine ⟨tokenAt_name n fun b first => ?_, later⟩
  obtain ⟨chars, split⟩ := List.head?_eq_some_iff.mp blank
  rw [split] at first
  cases first
  rfl

private theorem separate_sign {c : Char} {kind : TokenKind} {rest : List Lexeme} {behind : List UInt8}
    (sign : simple? (ascii c) = some kind) (single : encode [c] = [ascii c])
    (later : Separate parseFloat rest behind) :
    Separate parseFloat (.token kind [c] :: rest) behind :=
  ⟨tokenAt_sign sign single, later⟩

private theorem separate_blank {rest : List Lexeme} {behind : List UInt8}
    (later : Separate parseFloat rest behind) : Separate parseFloat (.blank ' ' :: rest) behind :=
  ⟨.inl rfl, later⟩

private theorem separate_nat {n : Nat} {rest : List Lexeme} {behind : List UInt8} (fits : n < 2 ^ 63)
    (ends : NumberEnds false (encode (written rest) ++ behind))
    (later : Separate parseFloat rest behind) :
    Separate parseFloat (.token (.int (Int64.ofInt n)) (Nat.toDigits 10 n) :: rest) behind :=
  ⟨tokenAt_nat fits ends, later⟩

/-- A semicolon, a blank or a bracket ends a numeral. -/
private theorem numberEnds {c : Char} {pointed : Bool} {rest : List Char} {behind : List UInt8}
    (ends : c = ';' ∨ c = ' ' ∨ c = ']') : NumberEnds pointed (encode (c :: rest) ++ behind) := by
  intro b first
  rcases ends with rfl | rfl | rfl
  · cases first
    decide +revert
  · cases first
    decide +revert
  · cases first
    decide +revert

private def valueLexemes (v : ValueDeclaration) : List Lexeme :=
  [word v.name, .blank ' ', .token .equals ['='], .blank ' ',
    .token (.int (Int64.ofInt v.number.toInt.toNat)) (Nat.toDigits 10 v.number.toInt.toNat),
    .token .semicolon [';'], .blank ' ']

private theorem value_solid (v : ValueDeclaration) : Solid parseFloat (valueLexemes v) := by
  intro behind
  have bound := v.number.toInt_lt
  refine separate_word rfl (separate_blank (separate_sign rfl rfl (separate_blank ?_)))
  refine separate_nat (by omega) (numberEnds (.inl rfl)) ?_
  exact separate_sign rfl rfl (separate_blank trivial)

private theorem written_value {v : ValueDeclaration} (positive : 0 ≤ v.number.toInt) :
    written (valueLexemes v) = v.chars := by
  have digits : (toString v.number.toInt).toList = Nat.toDigits 10 v.number.toInt.toNat := by
    rw [← Decimal.toList_toString_natCast, Int.toNat_of_nonneg positive]
  unfold ValueDeclaration.chars
  rw [digits]
  simp [written, valueLexemes, word, Lexeme.text]

/-- A minus sign in front of a value's number is no token. -/
private theorem value_unlexable {v : ValueDeclaration} (negative : v.number.toInt < 0) :
    Unlexable parseFloat v.chars := by
  obtain ⟨n, positive, same⟩ : ∃ n : Nat, 0 < n ∧ v.number.toInt = -(n : Int) :=
    ⟨v.number.toInt.natAbs, by omega, by omega⟩
  refine ⟨[word v.name, .blank ' ', .token .equals ['='], .blank ' '],
    '-' :: (Nat.toDigits 10 n ++ "; ".toList), ?_, fun behind => ⟨?_, refused_minus _⟩⟩
  · unfold ValueDeclaration.chars
    rw [same, Decimal.toList_toString_neg positive]
    simp [written, word, Lexeme.text]
  · exact separate_word rfl (separate_blank (separate_sign rfl rfl (separate_blank trivial)))

/-- A declaration that stops the lexer stops it wherever it stands. -/
private theorem unlexable_flatMap {α : Type} {chars : α → List Char} {lexemes : α → List Lexeme}
    {items : List α} (Good : α → Prop) (solid : ∀ a, Good a → Solid parseFloat (lexemes a) ∧
      written (lexemes a) = chars a) (stuck : ∀ a ∈ items, ¬ Good a → Unlexable parseFloat (chars a))
    (bad : ¬ ∀ a ∈ items, Good a) : Unlexable parseFloat (items.flatMap chars) := by
  induction items with
  | nil => exact absurd (fun _ => nofun) bad
  | cons a rest ih =>
    rw [List.flatMap_cons]
    by_cases good : Good a
    · obtain ⟨solid, same⟩ := solid a good
      rw [← same]
      refine (ih (fun b member => stuck b (List.mem_cons_of_mem a member)) fun all => bad ?_).append_left
        solid
      exact List.forall_mem_cons.mpr ⟨good, all⟩
    · exact (stuck a List.mem_cons_self good).append_right _

private theorem written_flatMap {α : Type} {chars : α → List Char} {lexemes : α → List Lexeme}
    {items : List α} (same : ∀ a ∈ items, written (lexemes a) = chars a) :
    written (items.flatMap lexemes) = items.flatMap chars := by
  induction items with
  | nil => rfl
  | cons a rest ih =>
    rw [List.flatMap_cons, List.flatMap_cons, written_append, same a List.mem_cons_self,
      ih fun b member => same b (List.mem_cons_of_mem a member)]

private theorem solid_flatMap {α : Type} {lexemes : α → List Lexeme} {items : List α}
    (solid : ∀ a ∈ items, Solid parseFloat (lexemes a)) : Solid parseFloat (items.flatMap lexemes) := by
  induction items with
  | nil => exact fun _ => trivial
  | cons a rest ih =>
    exact (solid a List.mem_cons_self).append (ih fun b member => solid b (List.mem_cons_of_mem a member))

/-- The start of a declaration: a keyword, a name and an opening brace. -/
private def opening (keyword name : Name) : List Lexeme :=
  [word keyword, .blank ' ', word name, .blank ' ', .token .lBrace ['\x7b'], .blank ' ']

private theorem opening_solid (keyword name : Name) : Solid parseFloat (opening keyword name) :=
  fun _ => separate_word rfl (separate_blank (separate_word rfl (separate_blank
    (separate_sign rfl rfl (separate_blank trivial)))))

private def closing : List Lexeme := [.token .rBrace ['\x7d']]

private theorem closing_solid : Solid parseFloat closing := fun _ => separate_sign rfl rfl trivial

end Lexing

section Numbers

variable {parseFloat : String → Option UInt64} {text : DebugText} {displayFloat : UInt64 → String}
variable {fileName : String}

private def enumWord : Name := ⟨'e', ['n', 'u', 'm'], by decide, by decide⟩

private theorem kinds_values (values : List ValueDeclaration) :
    kindsOf (values.flatMap valueLexemes) =
      Parse.valuesKinds (values.map fun v => (v.name.text, Int64.ofInt v.number.toInt.toNat)) := by
  induction values with
  | nil => rfl
  | cons v rest ih =>
    rw [List.flatMap_cons, kindsOf_append, ih]
    rfl

/-- A number that is not negative is narrowed to what it was. -/
private theorem toInt32_number {n : Int32} (positive : 0 ≤ n.toInt) :
    (Int64.ofInt n.toInt.toNat).toInt32 = n := by
  rw [Int.toNat_of_nonneg positive, Int64.toInt32_ofInt, Int32.ofInt_toInt]

/-- The numbers of an enum's values are kept if and only if none of them is negative. -/
theorem signsKept_iff (e : Name) (values : List ValueDeclaration) :
    SignsKept parseFloat text displayFloat fileName e values ↔ ∀ v ∈ values, 0 ≤ v.number.toInt := by
  have source : enumSource e values =
      String.ofList (written (opening enumWord e) ++ (values.flatMap ValueDeclaration.chars ++ ['\x7d'])) := by
    unfold enumSource
    congr 1
    simp [written, opening, word, Lexeme.text, Name.chars, enumWord]
  constructor
  · rintro ⟨tokens, lexed, _⟩
    refine Classical.byContradiction fun bad => ?_
    rw [source] at lexed
    refine (Unlexable.append_left ?_ (opening_solid enumWord e)).not_lex lexed
    refine (unlexable_flatMap (fun v => 0 ≤ v.number.toInt)
      (fun v positive => ⟨value_solid v, written_value positive⟩)
      (fun v _ negative => value_unlexable (Int.not_le.mp negative)) bad).append_right _
  · intro positive
    let lexemes := opening enumWord e ++ (values.flatMap valueLexemes ++ closing)
    have solid : Solid parseFloat lexemes :=
      (opening_solid enumWord e).append ((solid_flatMap fun v _ => value_solid v).append closing_solid)
    have spelled : enumSource e values = String.ofList (written lexemes) := by
      rw [source, written_append, written_append, written_flatMap fun v member =>
        written_value (positive v member)]
      rfl
    refine ⟨tokensFrom ⟨1, 1, 0⟩ lexemes, by rw [spelled]; exact lex_written (solid []),
      values.length + 1, fun fuel enough => ?_⟩
    obtain ⟨fuel, rfl⟩ : ∃ less, fuel = less + 1 := ⟨fuel - 1, by omega⟩
    have kinds : (tokensFrom ⟨1, 1, 0⟩ lexemes).map (fun t => t.kind) = Parse.enumKinds e.text
        (values.map fun v => (v.name.text, Int64.ofInt v.number.toInt.toNat)) := by
      rw [kinds_tokensFrom, kindsOf_append, kindsOf_append, kinds_values]
      rfl
    obtain ⟨en, q, parsed, quiet, name, same, ranges, names⟩ :=
      @Parse.parseTokens_enum text fileName _ fuel _ _ (by
        intro v member
        obtain ⟨w, _, rfl⟩ := List.mem_map.mp member
        exact w.noKeyword) kinds (by rw [List.length_map]; omega)
    refine ⟨_, q, parsed, quiet, ?_⟩
    have stored : en.values.map (fun v => ({ name := some v.name.name, number := some v.number.toInt32 } :
        EnumValueDescriptorProto)) =
        values.map fun v => { name := some v.name.text, number := some v.number } := by
      have pairs := congrArg (List.map fun (x : String × Int64) =>
        ({ name := some x.1, number := some x.2.toInt32 } : EnumValueDescriptorProto)) same
      rw [List.map_map, List.map_map] at pairs
      refine pairs.trans (List.map_congr_left fun v member => ?_)
      simp only [Function.comp_apply, toInt32_number (positive v member)]
    show [(convertEnum en).1] = _
    unfold convertEnum
    rw [stored, ranges, names, name]
    rfl

end Numbers

section Constants

variable {parseFloat : String → Option UInt64}

/-- The exponent of a fraction whose point and digits are taken off. -/
private def FloatLiteral.rear (l : FloatLiteral) : FractionTail := ⟨none, l.tail.exponent, nofun⟩

private def FloatLiteral.behindPoint (l : FloatLiteral) : List Char :=
  l.tail.point.getD [] ++ l.rear.chars

/-- What the lexer makes of the number behind a point in front. -/
private def FloatLiteral.pointed (parseFloat : String → Option UInt64) (l : FloatLiteral) :
    Option TokenKind := numeralKind parseFloat l.rear.isFraction l.behindPoint

/-- The tokens of a constant; those of a fraction are other ones if it begins with a point. -/
private def lexemesOf : SignedConstant parseFloat → List Lexeme
  | .int c => [.token (.int c) (Nat.toDigits 10 c.toInt.toNat)]
  | .float l bits _ =>
    if l.whole = [] then
      [.token .dot ['.'], .token ((l.pointed parseFloat).getD .dot) l.behindPoint]
    else [.token (.float bits) l.unsigned]

/-- All of the constant's parts are tokens. -/
private def Lexes : SignedConstant parseFloat → Prop
  | .int c => 0 ≤ c.toInt
  | .float l _ _ => l.negative = false ∧ (l.whole = [] → (l.pointed parseFloat).isSome)

private def constantOf : SignedConstant parseFloat → Option Constant
  | .int c => some (.int c)
  | .float l bits _ => if l.whole = [] then none else some (.float bits)

private def ending : List Lexeme := [.token .rBracket [']'], .token .semicolon [';'], .blank ' ']

private theorem ending_solid : Solid parseFloat ending :=
  fun _ => separate_sign rfl rfl (separate_sign rfl rfl (separate_blank trivial))

private theorem unsigned_pointed {l : FloatLiteral} (noDigit : l.whole = []) :
    ∃ first more, l.tail.point = some (first :: more) ∧
      (first :: more).all Char.isDigit = true ∧ l.unsigned = '.' :: l.behindPoint ∧
      l.behindPoint = first :: more ++ l.rear.chars := by
  obtain ⟨digits, filled, point⟩ := l.nonempty.resolve_left (absurd noDigit)
  cases digits with
  | nil => exact absurd rfl filled
  | cons first more =>
    refine ⟨first, more, point, l.tail.pointDigits _ point, ?_, ?_⟩
    · unfold FloatLiteral.unsigned FloatLiteral.behindPoint FractionTail.chars FloatLiteral.rear
      rw [noDigit, point]
      rfl
    · unfold FloatLiteral.behindPoint
      rw [point]
      rfl

private theorem constant_solid {c : SignedConstant parseFloat} (lexes : Lexes c) :
    Solid parseFloat (lexemesOf c ++ ending) := by
  intro behind
  have ends : ∀ pointed, NumberEnds pointed (encode (written ending) ++ behind) :=
    fun _ => numberEnds (.inr (.inr rfl))
  cases c with
  | int c =>
    have bound := c.toInt_lt
    have same : Int64.ofInt c.toInt.toNat = c := by
      rw [Int.toNat_of_nonneg lexes, Int64.ofInt_toInt]
    refine ⟨?_, ending_solid behind⟩
    have token := @tokenAt_nat parseFloat _ c.toInt.toNat (by omega) (ends false)
    rwa [same] at token
  | float l bits read =>
    simp only [lexemesOf]
    by_cases noDigit : l.whole = []
    · rw [if_pos noDigit]
      obtain ⟨kind, found⟩ := Option.isSome_iff_exists.mp (lexes.2 noDigit)
      obtain ⟨first, more, _, all, _, split⟩ := unsigned_pointed noDigit
      refine separate_sign rfl rfl ⟨?_, ending_solid behind⟩
      rw [found, Option.getD_some, split]
      refine tokenAt_numeral all (ends _) ?_
      rw [← split]
      exact found
    · rw [if_neg noDigit]
      refine ⟨?_, ending_solid behind⟩
      cases whole : l.whole with
      | nil => exact absurd whole noDigit
      | cons first more =>
        have all := l.digits
        unfold FloatLiteral.unsigned at read ⊢
        rw [whole] at all read ⊢
        refine tokenAt_numeral all (ends _) ?_
        unfold numeralKind
        rw [if_pos l.fraction, read]
        rfl

private theorem written_constant {c : SignedConstant parseFloat} (lexes : Lexes c) :
    written (lexemesOf c) = c.chars := by
  cases c with
  | int c =>
    have digits : (toString c.toInt).toList = Nat.toDigits 10 c.toInt.toNat := by
      rw [← Decimal.toList_toString_natCast, Int.toNat_of_nonneg lexes]
    simp only [SignedConstant.chars, digits]
    simp [lexemesOf, written, Lexeme.text]
  | float l bits read =>
    simp only [lexemesOf, SignedConstant.chars, FloatLiteral.chars]
    rw [if_neg (show ¬ l.negative = true by simp [lexes.1])]
    by_cases noDigit : l.whole = []
    · obtain ⟨_, _, _, _, same, _⟩ := unsigned_pointed noDigit
      rw [if_pos noDigit, same]
      simp [written, Lexeme.text]
    · rw [if_neg noDigit]
      simp [written, Lexeme.text]

private theorem constant_unlexable {c : SignedConstant parseFloat} (stuck : ¬ Lexes c) :
    Unlexable parseFloat (c.chars ++ "]; ".toList) := by
  have minus (rest : List Char) : Unlexable parseFloat ('-' :: rest ++ "]; ".toList) :=
    Unlexable.append_right ⟨[], '-' :: rest, rfl, fun _ => ⟨trivial, refused_minus _⟩⟩ _
  cases c with
  | int c =>
    have negative : c.toInt < 0 := Int.not_le.mp stuck
    obtain ⟨n, positive, same⟩ : ∃ n : Nat, 0 < n ∧ c.toInt = -(n : Int) :=
      ⟨c.toInt.natAbs, by omega, by omega⟩
    simp only [SignedConstant.chars, same, Decimal.toList_toString_neg positive]
    exact minus _
  | float l bits read =>
    simp only [SignedConstant.chars, FloatLiteral.chars]
    cases negative : l.negative with
    | true => exact minus _
    | false =>
      have noDigit : l.whole = [] := Classical.byContradiction fun digit =>
        stuck ⟨negative, fun none => absurd none digit⟩
      obtain ⟨first, more, _, all, same, split⟩ := unsigned_pointed noDigit
      have refused : l.pointed parseFloat = none :=
        Option.not_isSome_iff_eq_none.mp fun some_ => stuck ⟨negative, fun _ => some_⟩
      rw [if_neg Bool.false_ne_true, same, split]
      refine ⟨[.token .dot ['.']], first :: more ++ l.rear.chars ++ "]; ".toList, rfl, fun behind =>
        ⟨separate_sign rfl rfl trivial, ?_⟩⟩
      rw [encode_append, List.append_assoc]
      refine refused_numeral all (numberEnds (.inr (.inr rfl))) ?_
      rw [← split]
      exact refused

private theorem kinds_constant {c : SignedConstant parseFloat} (lexes : Lexes c) :
    Parse.DefaultKinds (kindsOf (lexemesOf c)) (constantOf c) := by
  cases c with
  | int c => exact .int c
  | float l bits read =>
    simp only [lexemesOf, constantOf]
    by_cases noDigit : l.whole = []
    · obtain ⟨kind, found⟩ := Option.isSome_iff_exists.mp (lexes.2 noDigit)
      rw [if_pos noDigit, if_pos noDigit, found]
      exact .pointed kind (isNumber_numeralKind found)
    · rw [if_neg noDigit, if_neg noDigit]
      exact .float bits

/-- A constant is plain if all its parts are tokens, and they are read as one constant. -/
private theorem plain_iff {c : SignedConstant parseFloat} :
    c.Plain ↔ Lexes c ∧ (constantOf c).isSome = true := by
  cases c with
  | int c => exact ⟨fun positive => ⟨positive, rfl⟩, fun lexes => lexes.1⟩
  | float l bits read =>
    simp only [SignedConstant.Plain, Lexes, constantOf]
    by_cases noDigit : l.whole = []
    · simp [noDigit]
    · simp [noDigit]

private theorem constantToText_eq {c : SignedConstant parseFloat} {k : Constant} (plain : c.Plain)
    (read : constantOf c = some k) (cx : FileContext) :
    cx.constantToText k = c.text cx.displayFloat := by
  cases c with
  | int c =>
    cases read
    rfl
  | float l bits _ =>
    simp only [constantOf] at read
    rw [if_neg plain.2] at read
    cases read
    simp only [SignedConstant.text, plain.1, Bool.false_eq_true, if_false]
    rfl

end Constants

section Defaults

variable {parseFloat : String → Option UInt64} {text : DebugText} {displayFloat : UInt64 → String}
variable {fileName : String}

private def messageWord : Name := ⟨'m', "essage".toList, by decide, by decide⟩

private def optionalWord : Name := ⟨'o', "ptional".toList, by decide, by decide⟩

private def defaultWord : Name := ⟨'d', "efault".toList, by decide, by decide⟩

private def fieldLexemes (f : DefaultDeclaration parseFloat) : List Lexeme :=
  [word optionalWord, .blank ' ', word f.ty, .blank ' ', word f.name, .blank ' ', .token .equals ['='],
    .blank ' ', .token (.int (Int64.ofInt f.number)) (Nat.toDigits 10 f.number), .blank ' ',
    .token .lBracket ['['], word defaultWord, .blank ' ', .token .equals ['='], .blank ' '] ++
    (lexemesOf f.constant ++ ending)

private theorem field_solid {f : DefaultDeclaration parseFloat} (lexes : Lexes f.constant) :
    Solid parseFloat (fieldLexemes f) := by
  intro behind
  refine separate_word rfl (separate_blank (separate_word rfl (separate_blank (separate_word rfl
    (separate_blank (separate_sign rfl rfl (separate_blank ?_)))))))
  refine separate_nat f.fits (numberEnds (.inr (.inl rfl))) ?_
  exact separate_blank (separate_sign rfl rfl (separate_word rfl (separate_blank
    (separate_sign rfl rfl (separate_blank (constant_solid lexes behind))))))

private theorem written_front (f : DefaultDeclaration parseFloat) (constant : List Lexeme) :
    written ([word optionalWord, .blank ' ', word f.ty, .blank ' ', word f.name, .blank ' ',
      .token .equals ['='], .blank ' ', .token (.int (Int64.ofInt f.number)) (Nat.toDigits 10 f.number),
      .blank ' ', .token .lBracket ['['], word defaultWord, .blank ' ', .token .equals ['='],
      .blank ' '] ++ constant) =
    "optional ".toList ++ f.ty.chars ++ ' ' :: f.name.chars ++ " = ".toList ++
      Nat.toDigits 10 f.number ++ " [default = ".toList ++ written constant := by
  rw [written_append]
  simp [written, word, Lexeme.text, optionalWord, defaultWord, Name.chars]

private theorem written_field {f : DefaultDeclaration parseFloat} (lexes : Lexes f.constant) :
    written (fieldLexemes f) = f.chars := by
  unfold fieldLexemes
  rw [written_front, written_append, written_constant lexes]
  unfold DefaultDeclaration.chars
  rw [List.append_assoc _ f.constant.chars]
  rfl

private theorem field_unlexable {f : DefaultDeclaration parseFloat} (stuck : ¬ Lexes f.constant) :
    Unlexable parseFloat f.chars := by
  have front := written_front f []
  have split : f.chars = written ([word optionalWord, .blank ' ', word f.ty, .blank ' ', word f.name,
      .blank ' ', .token .equals ['='], .blank ' ',
      .token (.int (Int64.ofInt f.number)) (Nat.toDigits 10 f.number), .blank ' ',
      .token .lBracket ['['], word defaultWord, .blank ' ', .token .equals ['='], .blank ' ']) ++
        (f.constant.chars ++ "]; ".toList) := by
    rw [List.append_nil] at front
    rw [front]
    unfold DefaultDeclaration.chars
    rw [List.append_assoc _ f.constant.chars]
    simp [written]
  rw [split]
  refine (constant_unlexable stuck).append_left fun behind => ?_
  refine separate_word rfl (separate_blank (separate_word rfl (separate_blank (separate_word rfl
    (separate_blank (separate_sign rfl rfl (separate_blank ?_)))))))
  refine separate_nat f.fits (numberEnds (.inr (.inl rfl))) ?_
  exact separate_blank (separate_sign rfl rfl (separate_word rfl (separate_blank
    (separate_sign rfl rfl (separate_blank trivial)))))

/-- The fields as the parser sees them. -/
private theorem fields_declared {fields : List (DefaultDeclaration parseFloat)}
    (lexes : ∀ f ∈ fields, Lexes f.constant) : ∃ ds : List Parse.DeclaredField,
      ds.flatMap Parse.DeclaredField.tokens = kindsOf (fields.flatMap fieldLexemes) ∧
      ds.map (fun d => (d.name, d.constant)) = fields.map fun f => (f.name.text, constantOf f.constant) := by
  induction fields with
  | nil => exact ⟨[], rfl, rfl⟩
  | cons f rest ih =>
    rw [List.forall_mem_cons] at lexes
    obtain ⟨ds, kinds, same⟩ := ih lexes.2
    refine ⟨⟨f.ty.text, f.name.text, Int64.ofInt f.number, _, _, kinds_constant lexes.1⟩ :: ds, ?_, ?_⟩
    · rw [List.flatMap_cons, List.flatMap_cons, kindsOf_append, kinds]
      congr 1
      show Parse.fieldKinds _ _ _ (kindsOf (lexemesOf f.constant)) = _
      unfold fieldLexemes Parse.fieldKinds Parse.defaultKinds
      rw [kindsOf_append, kindsOf_append, List.cons_append, List.cons_append, List.cons_append,
        List.append_assoc]
      rfl
    · rw [List.map_cons, List.map_cons, same]

/-- The defaults of a message's fields are kept if and only if none has a sign or begins with a
point. -/
theorem defaultsKept_iff (m : Name) (fields : List (DefaultDeclaration parseFloat)) :
    DefaultsKept parseFloat text displayFloat fileName m fields ↔ ∀ f ∈ fields, f.constant.Plain := by
  have source : messageSource m fields = String.ofList (written (opening messageWord m) ++
      (fields.flatMap DefaultDeclaration.chars ++ ['\x7d'])) := by
    unfold messageSource
    congr 1
    simp [written, opening, word, Lexeme.text, Name.chars, messageWord]
  by_cases lexes : ∀ f ∈ fields, Lexes f.constant
  · let lexemes := opening messageWord m ++ (fields.flatMap fieldLexemes ++ closing)
    have solid : Solid parseFloat lexemes := (opening_solid messageWord m).append
      ((solid_flatMap fun f member => field_solid (lexes f member)).append closing_solid)
    have spelled : messageSource m fields = String.ofList (written lexemes) := by
      rw [source, written_append, written_append,
        written_flatMap fun f member => written_field (lexes f member)]
      rfl
    have lexed : lex parseFloat (messageSource m fields) = .ok (tokensFrom ⟨1, 1, 0⟩ lexemes) := by
      rw [spelled]
      exact lex_written (solid [])
    obtain ⟨ds, dsKinds, same⟩ := fields_declared lexes
    have kinds : (tokensFrom ⟨1, 1, 0⟩ lexemes).map (fun t => t.kind) = Parse.messageKinds m.text ds := by
      rw [kinds_tokensFrom, kindsOf_append, kindsOf_append, ← dsKinds]
      rfl
    have length : ds.length = fields.length := by
      have lengths := congrArg List.length same
      rwa [List.length_map, List.length_map] at lengths
    have constants : ds.map Parse.DeclaredField.constant = fields.map fun f => constantOf f.constant := by
      have seconds := congrArg (List.map Prod.snd) same
      rwa [List.map_map, List.map_map] at seconds
    have read (k : Option Constant) :
        (∃ d ∈ ds, d.constant = k) ↔ ∃ f ∈ fields, constantOf f.constant = k := by
      rw [← List.mem_map, ← List.mem_map, constants]
    by_cases plain : ∀ f ∈ fields, f.constant.Plain
    · refine iff_of_true ⟨_, lexed, fields.length + 5, fun fuel enough => ?_⟩ plain
      obtain ⟨fuel, rfl⟩ : ∃ less, fuel = less + 5 := ⟨fuel - 5, by omega⟩
      obtain ⟨m', q, parsed, name, noOneofs, noMaps, quiet, _⟩ :=
        @Parse.parseTokens_message text fileName _ fuel _ _ kinds (by omega)
      obtain ⟨silent, defaults⟩ := quiet fun d member => by
        obtain ⟨f, inside, constant⟩ := (read d.constant).mp ⟨d, member, rfl⟩
        rw [← constant]
        exact (plain_iff.mp (plain f inside)).2
      refine ⟨_, q, parsed, silent, ?_⟩
      let cx := fileContext displayFloat { name := fileName, messages := [m'] }
      have stored : m'.fields.map (fun g => (some g.name.name, g.default.map cx.constantToText)) =
          fields.map fun f => (some f.name.text, some (f.constant.text displayFloat)) := by
        have pairs := congrArg (List.map fun (x : String × Option Constant) =>
          (some x.1, x.2.map cx.constantToText)) (defaults.trans same)
        rw [List.map_map, List.map_map] at pairs
        refine pairs.trans (List.map_congr_left fun f member => ?_)
        obtain ⟨k, constant⟩ := Option.isSome_iff_exists.mp (plain_iff.mp (plain f member)).2
        simp only [Function.comp_apply, constant, Option.map_some,
          constantToText_eq (plain f member) constant cx]
        rfl
      have fieldsOnly : (cx.ownFields "" m').1 = m'.fields.map fun g => (cx.convertField g).1 := by
        simp only [FileContext.ownFields, noOneofs, noMaps, each, FileContext.convertOneofs]
        simp
      have converted : (cx.convertMessages "" [m']).1 = [(cx.convertMessage "" m').1] := by
        rw [FileContext.convertMessages_eq]
        rfl
      show (cx.convertMessages "" [m']).1.map _ = _
      rw [converted, List.map_cons, List.map_nil, FileContext.convertMessage_fst]
      show [(some m'.name.name, (cx.ownFields "" m').1.map _)] = _
      rw [fieldsOnly, List.map_map, name]
      exact congrArg (fun stored => [(some m.text, stored)]) stored
    · refine iff_of_false ?_ plain
      rintro ⟨tokens, lexed', least, parses⟩
      cases lexed.symm.trans lexed'
      obtain ⟨file, q, parsed, silent, _⟩ := parses (max least fields.length + 5) (by omega)
      obtain ⟨_, _, parsed', _, _, _, _, noisy⟩ :=
        @Parse.parseTokens_message text fileName _ (max least fields.length) _ _ kinds (by omega)
      cases parsed.symm.trans parsed'
      refine noisy ((read none).mpr ?_) silent
      refine Classical.byContradiction fun none => plain fun f member => plain_iff.mpr ⟨lexes f member, ?_⟩
      exact Option.isSome_iff_ne_none.mpr fun noConstant => none ⟨f, member, noConstant⟩
  · refine iff_of_false ?_ fun plain => lexes fun f member => (plain_iff.mp (plain f member)).1
    rintro ⟨tokens, lexed, _⟩
    rw [source] at lexed
    refine (Unlexable.append_left ?_ (opening_solid messageWord m)).not_lex lexed
    exact (unlexable_flatMap (fun f => Lexes f.constant)
      (fun f good => ⟨field_solid good, written_field good⟩)
      (fun f _ bad => field_unlexable bad) lexes).append_right _

end Defaults

/-- Numbers of enum values and defaults of fields are kept if and only if none has a sign or begins
with a point. -/
theorem signed_constants_iff (parseFloat : String → Option UInt64) (text : DebugText)
    (displayFloat : UInt64 → String) (fileName : String) (name : Name) :
    (∀ values, SignsKept parseFloat text displayFloat fileName name values ↔
      ∀ v ∈ values, 0 ≤ v.number.toInt) ∧
    ∀ fields, DefaultsKept parseFloat text displayFloat fileName name fields ↔
      ∀ f ∈ fields, f.constant.Plain :=
  ⟨signsKept_iff name, defaultsKept_iff name⟩

private def nameA : Name := ⟨'A', [], by decide, by decide⟩

/-- `enum A { A = -1; }` and `message A { optional A A = 1 [default = -1]; }` are not lexed. -/
theorem not_signed_constants :
    (¬ ∀ values, SignsKept (fun _ => none) ⟨id, fun _ => ""⟩ (fun _ => "") "a.proto" nameA values) ∧
      ¬ ∀ fields, DefaultsKept (fun _ => none) ⟨id, fun _ => ""⟩ (fun _ => "") "a.proto" nameA fields := by
  constructor
  · intro all
    obtain ⟨tokens, lexed, _⟩ := all [⟨nameA, -1, by decide⟩]
    cases lexed
  · intro all
    obtain ⟨tokens, lexed, _⟩ := all [⟨nameA, nameA, 1, by decide, .int (-1)⟩]
    cases lexed

end TptProto.Compiler
