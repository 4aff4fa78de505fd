import TptProto.Codegen.Default
import TptProto.Compiler.Convert
import TptProto.Language.StringValues
import TptProto.Reflect.Default

/-! Defaults written as string literals, on their way through the lexer and the compiler to the
generated code and to reflection, both of which unescape them once more. -/

namespace TptProto

open Foundation Core Descriptor Language

section Pieces

open Reflect (PassedOn)

variable {text bytes : List UInt8} {quote : Char} {p : StrPiece} {chars : List Char}

/-- What is passed on as bytes from 128 on has no escapes. -/
private theorem passed_wide {used denoted : List UInt8} (nonempty : used ≠ [])
    (wide : ∀ b ∈ used, 128 ≤ b) (longer : denoted.length ≤ used.length)
    (same : denoted.length = used.length → denoted = used) (rest : PassedOn text bytes) :
    PassedOn (used ++ text) (denoted ++ bytes) := by
  obtain ⟨first, more, rfl⟩ := List.exists_cons_of_ne_nil nonempty
  refine .other first more denoted ?_ ?_ longer same rest
  · intro small
    exact UInt8.not_lt.mpr (wide first List.mem_cons_self) small.2
  · intro member
    exact absurd (wide 0x5C member) (by decide)

/-- A character is passed on as itself. -/
private theorem passed_char (c : Char) (rest : PassedOn text bytes) :
    PassedOn (encode [c] ++ text) (encode [c] ++ bytes) := by
  rw [encode_cons, encode_nil, List.append_nil]
  rcases utf8EncodeChar_cases c with ⟨small, single⟩ | ⟨_, nonempty, wide⟩
  · rw [single]
    have code : (UInt8.ofNat c.toNat).toNat = c.toNat := by
      rw [UInt8.toNat_ofNat', Nat.mod_eq_of_lt (by omega)]
    by_cases zero : c.toNat = 0
    · rw [zero]
      exact .other 0 [] [0] (by decide) (by decide) (Nat.le_refl _) (fun _ => rfl) rest
    · refine .ascii _ ⟨?_, ?_⟩ rest
      · rw [UInt8.lt_iff_toNat_lt, code]
        exact Nat.pos_of_ne_zero zero
      · rw [UInt8.lt_iff_toNat_lt, code]
        exact small
  · exact passed_wide nonempty wide (Nat.le_refl _) (fun _ => rfl) rest

/-- Bytes from 128 on are passed on as a character each, which has two bytes. -/
private theorem passed_bytes {denoted : List UInt8} (nonempty : denoted ≠ [])
    (wide : ∀ b ∈ denoted, 128 ≤ b) (rest : PassedOn text bytes) :
    PassedOn (encode (denoted.map byteChar) ++ text) (denoted ++ bytes) := by
  obtain ⟨longer, short⟩ := length_encode_bytes denoted
  have positive := List.length_pos_iff.mpr nonempty
  refine passed_wide ?_ ?_ longer ?_ rest
  · exact List.length_pos_iff.mp (Nat.lt_of_lt_of_le positive longer)
  · intro b member
    obtain ⟨c, inside, member⟩ := List.mem_flatMap.mp member
    obtain ⟨d, denotes, rfl⟩ := List.mem_map.mp inside
    rcases utf8EncodeChar_cases (byteChar d) with ⟨small, _⟩ | ⟨_, _, above⟩
    · rw [toNat_byteChar] at small
      exact absurd (UInt8.lt_iff_toNat_lt.mpr small) (UInt8.not_lt.mpr (wide d denotes))
    · exact above b member
  · intro same
    obtain ⟨d, others, rfl⟩ := List.exists_cons_of_ne_nil nonempty
    have small := short same.symm d List.mem_cons_self
    exact absurd small (UInt8.not_lt.mpr (wide d List.mem_cons_self))

/-- An octal escape is read as a zero with digits behind it. -/
private theorem passed_octal {digits : List Char} (octal : ∀ c ∈ digits, isOctalDigit c = true)
    (rest : PassedOn text bytes) :
    PassedOn (encode ('\x00' :: digits) ++ text)
      (UInt8.ofNat (ofDigits 8 ('0' :: digits)) :: bytes) := by
  have small : ∀ c ∈ digits, c.toNat < 56 := by
    intro c member
    have digit := octal c member
    rw [isOctalDigit, Bool.and_eq_true, decide_eq_true_eq] at digit
    exact digit.2
  have ascii : encode digits = digits.map Language.ascii :=
    encode_ascii fun c member => Nat.lt_trans (small c member) (by decide)
  rw [encode_cons, ascii]
  refine .other 0 (digits.map Language.ascii) [_] (by decide) ?_ ?_ ?_ rest
  · intro member
    obtain ⟨c, inside, same⟩ := List.mem_map.mp ((List.mem_cons.mp member).resolve_left (by decide))
    have code := toNat_ascii (Nat.lt_trans (small c inside) (by decide))
    have below := small c inside
    rw [same] at code
    have value : (0x5C : UInt8).toNat = 92 := rfl
    omega
  · exact Nat.le_add_left 1 _
  · intro single
    have none : digits = [] := by
      simp only [List.length_cons, List.length_nil, List.length_map] at single
      exact List.length_eq_zero_iff.mp (by omega)
    rw [none]
    rfl

/-- A hexadecimal escape is read as the character with its number. -/
private theorem passed_hex {n : Nat} (small : n < 256) (rest : PassedOn text bytes) :
    PassedOn (encode [Char.ofNat n] ++ text) (UInt8.ofNat n :: bytes) := by
  have same : UInt8.ofNat n :: bytes = [UInt8.ofNat n] ++ bytes := rfl
  rw [same]
  by_cases low : n < 128
  · rw [← byte_char low]
    exact passed_char _ rest
  · have number : (UInt8.ofNat n).toNat = n := by rw [UInt8.toNat_ofNat', Nat.mod_eq_of_lt small]
    have char : [Char.ofNat n] = [UInt8.ofNat n].map byteChar := by
      rw [List.map_singleton, byteChar, number]
    rw [char]
    refine passed_bytes (List.cons_ne_nil _ _) ?_ rest
    intro b member
    rw [List.mem_singleton.mp member, UInt8.le_iff_toNat_le, number]
    exact Nat.le_of_not_lt low

/-- A piece is passed on as what the lexer makes of it. -/
private theorem passed_piece (proper : p.Proper quote) (lexed : p.lexed = some chars)
    (rest : PassedOn text bytes) : PassedOn (encode chars ++ text) (p.bytes ++ bytes) := by
  cases p with
  | char c =>
    cases lexed
    rcases utf8EncodeChar_cases c with ⟨small, _⟩ | ⟨_, nonempty, wide⟩
    · have short : ∀ d ∈ [c], d.toNat < 128 := by
        intro d member
        rw [List.mem_singleton.mp member]
        exact small
      have same : (encode [c]).map byteChar = [c] := by
        rw [encode_ascii short, byteChars_ascii short]
      rw [same]
      exact passed_char c rest
    · have single : StrPiece.bytes (.char c) = String.utf8EncodeChar c := List.append_nil _
      have made : encode [c] = String.utf8EncodeChar c := List.append_nil _
      rw [single, made]
      exact passed_bytes nonempty wide rest
  | letter c =>
    simp only [StrPiece.lexed] at lexed
    split at lexed
    · cases lexed
    · obtain ⟨v, known, rfl⟩ := Option.map_eq_some_iff.mp lexed
      rw [StrPiece.bytes, known]
      exact passed_char v rest
  | octal digits =>
    simp only [StrPiece.lexed] at lexed
    split at lexed
    · cases lexed
      have octal := List.all_eq_true.mp proper.2.2
      exact passed_octal (fun c member => octal c (List.mem_cons_of_mem _ member)) rest
    · cases lexed
  | hex upper digits =>
    simp only [StrPiece.lexed] at lexed
    split at lexed
    · rename_i form
      cases lexed
      exact passed_hex (two_digits_small proper.2.2 form.2) rest
    · cases lexed
  | unicode long digits =>
    cases lexed
    exact passed_char _ rest
  | surrogates high low => cases lexed

private theorem passed_pieces {pieces : List StrPiece} (wellFormed : WellFormed quote pieces)
    (lexed : lexedPieces pieces = some chars) :
    PassedOn (encode chars) (pieces.flatMap StrPiece.bytes) := by
  induction pieces generalizing chars with
  | nil =>
    cases lexed
    exact .nil
  | cons p rest ih =>
    obtain ⟨first, read, lexed⟩ := Option.bind_eq_some_iff.mp lexed
    obtain ⟨others, more, same⟩ := Option.bind_eq_some_iff.mp lexed
    cases same
    rw [encode_append, List.flatMap_cons]
    exact passed_piece wellFormed.1 read (ih wellFormed.2.2 more)

end Pieces

section Ends

variable {chars : List Char} {c : Char}

private theorem byteChar_code (small : c.toNat < 128) : ascii c < 128 ∧ byteChar (ascii c) = c := by
  refine ⟨?_, byteChar_ascii small⟩
  rw [UInt8.lt_iff_toNat_lt, toNat_ascii small]
  exact small

private theorem encode_single (small : c.toNat < 128) : String.utf8EncodeChar c = [ascii c] := by
  rcases utf8EncodeChar_cases c with ⟨_, single⟩ | ⟨large, _⟩
  · exact single
  · omega

private theorem head_encode_iff (small : c.toNat < 128) :
    (encode chars).head? = some (ascii c) ↔ chars.head? = some c := by
  obtain ⟨byte, char⟩ := byteChar_code small
  constructor
  · intro first
    obtain ⟨behind, same⟩ := List.head?_eq_some_iff.mp first
    obtain ⟨front, rest, rfl, empty, _⟩ := @encode_cut chars [] behind _ byte same
    rw [@encode_inj front [] empty, char]
    rfl
  · intro first
    obtain ⟨rest, rfl⟩ := List.head?_eq_some_iff.mp first
    rw [encode_cons, encode_single small]
    rfl

private theorem last_encode_iff (small : c.toNat < 128) :
    (encode chars).getLast? = some (ascii c) ↔ chars.getLast? = some c := by
  obtain ⟨byte, char⟩ := byteChar_code small
  constructor
  · intro last
    obtain ⟨before, same⟩ := List.getLast?_eq_some_iff.mp last
    obtain ⟨front, rest, rfl, _, empty⟩ := @encode_cut chars before [] _ byte same
    rw [@encode_inj rest [] empty, char]
    exact List.getLast?_concat
  · intro last
    obtain ⟨front, rfl⟩ := List.getLast?_eq_some_iff.mp last
    rw [encode_append, encode_cons, encode_nil, List.append_nil, encode_single small]
    exact List.getLast?_concat

private theorem mem_encode_iff (small : c.toNat < 128) : ascii c ∈ encode chars ↔ c ∈ chars := by
  obtain ⟨byte, char⟩ := byteChar_code small
  constructor
  · intro member
    obtain ⟨before, behind, same⟩ := List.append_of_mem member
    obtain ⟨front, rest, rfl, _⟩ := encode_cut byte same
    rw [char]
    simp
  · intro member
    refine List.mem_flatMap.mpr ⟨c, member, ?_⟩
    rw [encode_single small]
    exact List.mem_singleton_self _

end Ends

section Fields

/-- The types of fields whose defaults are string literals. -/
inductive TextType where
  | string
  | bytes
  deriving DecidableEq, Repr

def TextType.scalar : TextType → Language.ScalarType
  | string => .string
  | bytes => .bytes

/-- A field of a message with a string literal as its default, by itself or in one of the oneofs. -/
structure TextField where
  cx : Compiler.FileContext
  field : Field
  type : TextType
  literal : StrLiteral
  oneof : Option Nat

namespace TextField

variable (d : TextField)

/-- The field with the text that the lexer makes of the literal. -/
def declared (text : String) : Field :=
  { d.field with ty := .scalar d.type.scalar, default := some (.string text) }

def descriptor (text : String) : FieldDescriptorProto :=
  match d.oneof with
  | none => (d.cx.convertField (d.declared text)).1
  | some index => (d.cx.convertMember index (d.declared text)).1

/-- The lexer makes a text of the literal, and both the default in the generated code and the one that
reflection reports are the string or the bytes that the literal denotes. -/
def Kept (parseFloat parseDouble : String → Option UInt64) (typeMap : List (String × String))
    (schema : Codegen.Schema) (pool : Reflect.DescriptorPool) (pos : Position)
    (behind : List UInt8) : Prop :=
  ∃ text, nextToken parseFloat (ascii d.literal.quote) ⟨pos, encode d.literal.spelling ++ behind⟩ =
      .ok (.str text, ⟨pos.after (encode d.literal.spelling), behind⟩) ∧
    (Codegen.defaultInit typeMap schema (d.descriptor text)).bind Codegen.DefaultExpr.bytes? =
      some d.literal.bytes ∧
    (Reflect.defaultValueFor parseDouble pool (d.descriptor text)).bytes? = some d.literal.bytes

/-- The field stands by itself and holds one value; every piece of the literal is read as what it
denotes; what it denotes has no double quote at either end, and as bytes no backslash. -/
structure Plain : Prop where
  alone : d.oneof = none
  single : d.field.label ≠ .repeated
  exact : ∀ p ∈ d.literal.pieces, p.Exact
  first : d.literal.bytes.head? ≠ some 0x22
  last : d.literal.bytes.getLast? ≠ some 0x22
  noEscape : d.type = .bytes → 0x5C ∉ d.literal.bytes

end TextField

section Bodies

variable {d : TextField} {parseFloat parseDouble : String → Option UInt64}
  {typeMap : List (String × String)} {schema : Codegen.Schema} {pool : Reflect.DescriptorPool}
  {pos : Position} {behind : List UInt8} {text : String} {chars : List Char}

/-- The token of a literal has the characters that are made of its pieces. -/
private theorem nextToken_literal {l : StrLiteral} :
    nextToken parseFloat (ascii l.quote) ⟨pos, encode l.spelling ++ behind⟩ =
        .ok (.str text, ⟨pos.after (encode l.spelling), behind⟩) ↔
      ∃ chars, lexedPieces l.pieces = some chars ∧ text = String.ofList chars := by
  rw [nextToken_quote l.quoted]
  constructor
  · intro lexed
    obtain ⟨⟨text', after⟩, read, equal⟩ := Outcome.bind_eq_ok.mp lexed
    cases equal
    exact (lexString_literal.mp read).2
  · intro made
    exact Outcome.bind_eq_ok.mpr ⟨_, lexString_literal.mpr ⟨rfl, made⟩, rfl⟩

/-- What the generated code and reflection look at in the field's descriptor. -/
private theorem descriptor_alone (alone : d.oneof = none) (text : String) :
    (d.descriptor text).extendee = none ∧ (d.descriptor text).oneofIndex = none ∧
      (d.descriptor text).type = some (Compiler.scalarToFieldType d.type.scalar) ∧
      (d.descriptor text).defaultValue = some text ∧
      (d.descriptor text).label = some (Compiler.convertLabel d.field.label) := by
  rw [TextField.descriptor, alone]
  exact ⟨rfl, rfl, rfl, rfl, rfl⟩

private theorem generated_alone (alone : d.oneof = none) :
    (Codegen.defaultInit typeMap schema (d.descriptor (String.ofList chars))).bind
        Codegen.DefaultExpr.bytes? =
      some (match d.type with
        | .string => encode (Codegen.trimQuotes chars)
        | .bytes => Codegen.unescapeBytes (Codegen.trimQuotes chars)) := by
  obtain ⟨declared, noOneof, type, given, _⟩ := descriptor_alone alone (String.ofList chars)
  cases kind : d.type with
  | string =>
    rw [kind] at type
    rw [Codegen.defaultInit_string declared noOneof type given, String.toList_ofList]
    exact congrArg some (asBytes_ofList _)
  | bytes =>
    rw [kind] at type
    rw [Codegen.defaultInit_bytes declared noOneof type given, String.toList_ofList]
    rfl

private theorem generated_member {index : Nat} (member : d.oneof = some index) :
    (Codegen.defaultInit typeMap schema (d.descriptor text)).bind Codegen.DefaultExpr.bytes? =
      none := by
  rw [TextField.descriptor, member]
  rfl

private theorem reflected_single (alone : d.oneof = none) (single : d.field.label ≠ .repeated) :
    (Reflect.defaultValueFor parseDouble pool (d.descriptor (String.ofList chars))).bytes? =
      some (match d.type with
        | .string => encode chars
        | .bytes => Reflect.parseBytesDefault (encode chars)) := by
  obtain ⟨_, _, type, given, label⟩ := descriptor_alone alone (String.ofList chars)
  have one : (d.descriptor (String.ofList chars)).label ≠ some .repeated := by
    rw [label]
    cases kept : d.field.label with
    | repeated => exact absurd kept single
    | optional | required | singular => rintro ⟨⟩
  cases kind : d.type with
  | string =>
    rw [kind] at type
    rw [Reflect.defaultValueFor_single one type (.inl rfl), given]
    exact congrArg some (asBytes_ofList _)
  | bytes =>
    rw [kind] at type
    rw [Reflect.defaultValueFor_single one type (.inr rfl), given]
    exact congrArg (fun bytes => some (Reflect.parseBytesDefault bytes)) (asBytes_ofList _)

private theorem reflected_repeated (alone : d.oneof = none) (repeated : d.field.label = .repeated) :
    (Reflect.defaultValueFor parseDouble pool (d.descriptor text)).bytes? = none := by
  obtain ⟨_, _, _, _, label⟩ := descriptor_alone alone text
  rw [repeated] at label
  exact Reflect.defaultValueFor_repeated label

/-- The generated default is the text itself if and only if there is nothing to trim from it, nor to
unescape. -/
private theorem generated_text_iff {bytes : List UInt8} (same : encode chars = bytes)
    (type : TextType) :
    (match type with
      | .string => encode (Codegen.trimQuotes chars)
      | .bytes => Codegen.unescapeBytes (Codegen.trimQuotes chars)) = bytes ↔
      (bytes.head? ≠ some 0x22 ∧ bytes.getLast? ≠ some 0x22) ∧ (type = .bytes → 0x5C ∉ bytes) := by
  have first := not_congr (@head_encode_iff chars '"' (by decide))
  have last := not_congr (@last_encode_iff chars '"' (by decide))
  have escape := not_congr (@mem_encode_iff chars '\\' (by decide))
  subst same
  cases type with
  | string =>
    rw [Codegen.trimmed_eq_iff, ← and_congr first last]
    exact (and_iff_left nofun).symm
  | bytes =>
    rw [Codegen.unescaped_eq_iff, ← and_congr first last, ← escape]
    exact and_congr_right fun _ => ⟨fun plain _ => plain, fun plain => plain rfl⟩

end Bodies

section Theorem

variable (d : TextField) (parseFloat parseDouble : String → Option UInt64)
  (typeMap : List (String × String)) (schema : Codegen.Schema) (pool : Reflect.DescriptorPool)
  (pos : Position) (behind : List UInt8)

/-- `optional bytes f = 1 [default = "a\\b"]` -/
private def escapedField : TextField where
  cx := ⟨fun _ => "", [], [], "proto2"⟩
  field := ⟨{}, ⟨"f", {}⟩, 1, .scalar .bytes, .optional, none, none, []⟩
  type := .bytes
  literal := ⟨'"', [.char 'a', .letter '\\', .char 'b'], .inl rfl,
    ⟨by decide, by decide⟩, trivial, rfl, trivial, ⟨by decide, by decide⟩, trivial, trivial⟩
  oneof := none

end Theorem

end Fields

end TptProto
