import TptProto.Core.Bytes
import TptProto.Foundation.Decimal
import TptProto.Foundation.Loop
import TptProto.Language.Ast
import Mathlib.Data.List.DropRight

/-! Source bytes to tokens and comments. A position is kept with the bytes behind it. -/

namespace TptProto.Language

open TptProto.Foundation TptProto.Core

structure LexError where
  code : ErrorCode
  message : String
  pos : Position
  deriving DecidableEq, Repr

abbrev LexResult (α : Type) := Outcome LexError α

/-- A comment that is kept for tools, with its delimiters. -/
structure Comment where
  span : Span
  text : String
  deriving DecidableEq, Repr

section Bytes

/-- The byte of an ASCII character. -/
def ascii (c : Char) : UInt8 := UInt8.ofNat c.toNat

def isBlank (b : UInt8) : Bool := b = ascii ' ' || b = ascii '\t' || b = ascii '\r' || b = ascii '\n'

def isAsciiDigit (b : UInt8) : Bool := 48 ≤ b && b ≤ 57

def isAsciiAlphabetic (b : UInt8) : Bool := (65 ≤ b && b ≤ 90) || (97 ≤ b && b ≤ 122)

def isAsciiHexDigit (b : UInt8) : Bool :=
  isAsciiDigit b || (65 ≤ b && b ≤ 70) || (97 ≤ b && b ≤ 102)

def isWordStart (b : UInt8) : Bool := isAsciiAlphabetic b || b = ascii '_'

def isWordPart (b : UInt8) : Bool := isAsciiAlphabetic b || isAsciiDigit b || b = ascii '_'

/-- The position behind one more byte. -/
def Position.bump (p : Position) (b : UInt8) : Position :=
  if b = ascii '\n' then ⟨p.line + 1, 1, p.offset + 1⟩ else ⟨p.line, p.column + 1, p.offset + 1⟩

def Position.after (p : Position) (word : List UInt8) : Position := word.foldl Position.bump p

/-- The bytes ahead, and where they begin. -/
structure Cursor where
  pos : Position
  rest : List UInt8

namespace Cursor

def bump (cursor : Cursor) : Option (UInt8 × Cursor) :=
  match cursor.rest with
  | [] => none
  | b :: rest => some (b, ⟨cursor.pos.bump b, rest⟩)

/-- Move on to bytes further behind. -/
def skip (cursor : Cursor) (parts : List UInt8 × List UInt8) : Cursor :=
  ⟨cursor.pos.after parts.1, parts.2⟩

end Cursor

/-- ASCII bytes as the text they are. -/
def asciiText (word : List UInt8) : String := String.ofList (word.map byteChar)

/-- `&src[start..end]`, which panics where it would cut a character. -/
def sliceText (word : List UInt8) : LexResult String :=
  match fromUtf8 word with
  | some text => .ok text
  | none => .panic

end Bytes

section Comments

/-- The bytes up to the end of the line. -/
def lineComment (rest : List UInt8) : List UInt8 × List UInt8 := rest.span (· ≠ ascii '\n')

/-- The bytes up to where a block comment of this depth is closed, or all of them. -/
def blockComment : Nat → List UInt8 → List UInt8 × List UInt8
  | 0, rest => ([], rest)
  | _ + 1, [] => ([], [])
  | _ + 1, [b] => ([b], [])
  | depth + 1, b :: c :: rest =>
    if b = ascii '*' ∧ c = ascii '/' then
      let (word, behind) := blockComment depth rest
      (b :: c :: word, behind)
    else if b = ascii '/' ∧ c = ascii '*' then
      let (word, behind) := blockComment (depth + 2) rest
      (b :: c :: word, behind)
    else
      let (word, behind) := blockComment (depth + 1) (c :: rest)
      (b :: word, behind)

/-- The comment that begins here. -/
def comment? (rest : List UInt8) : Option (List UInt8 × List UInt8) :=
  match rest with
  | b :: c :: behind =>
    if b = ascii '/' ∧ c = ascii '/' then some (lineComment rest)
    else if b = ascii '/' ∧ c = ascii '*' then
      let (word, behind) := blockComment 1 behind
      some (b :: c :: word, behind)
    else none
  | _ => none

/-- `record_comment`'s text: without the line ends behind it. -/
def commentText (word : List UInt8) : LexResult String := do
  let text ← sliceText word
  .ok (String.ofList (text.toList.rdropWhile fun c => c = '\n' || c = '\r'))

end Comments

section Numbers

/-- A hexadecimal numeral: `0x` and the digits behind it. -/
def hexWord? (rest : List UInt8) : Option (List UInt8 × List UInt8) :=
  match rest with
  | b :: c :: behind =>
    if b = ascii '0' ∧ (c = ascii 'x' ∨ c = ascii 'X') then
      let (word, behind) := behind.span fun b => isAsciiHexDigit b || b = ascii '_'
      some (b :: c :: word, behind)
    else none
  | _ => none

/-- What a decimal numeral goes on with, and whether it has a point or an exponent by then. A
sign may stand right behind the letter of an exponent. -/
def numberWord (sawDot sawExp sign : Bool) : List UInt8 → Bool × List UInt8 × List UInt8
  | [] => (sawDot || sawExp, [], [])
  | b :: rest =>
    let goOn (sawDot sawExp sign : Bool) :=
      let (float, word, behind) := numberWord sawDot sawExp sign rest
      (float, b :: word, behind)
    if sign && (b = ascii '+' || b = ascii '-') then goOn sawDot sawExp false
    else if isAsciiDigit b || b = ascii '_' then goOn sawDot sawExp false
    else if b = ascii '.' && !sawDot && !sawExp then goOn true sawExp false
    else if (b = ascii 'e' || b = ascii 'E') && !sawExp then goOn sawDot true true
    else (sawDot || sawExp, [], b :: rest)

def withoutUnderscores (word : List UInt8) : List Char :=
  (word.filter (· ≠ ascii '_')).map byteChar

/-- The value of a numeral. Decimal fractions are read by the host language. -/
def numberKind (parseFloat : String → Option UInt64) (start : Position) (hex float : Bool)
    (word : List UInt8) : LexResult TokenKind :=
  let text := withoutUnderscores word
  if hex then
    match Hex.parse (2 ^ 63) (text.drop 2) with
    | some v => .ok (.int (Int64.ofNat v))
    | none => .err ⟨.unexpectedToken, "invalid hexadecimal literal", start⟩
  else if float then
    match parseFloat (String.ofList text) with
    | some bits => .ok (.float bits)
    | none => .err ⟨.unexpectedToken, "invalid floating-point literal", start⟩
  else
    match Decimal.parseInt (2 ^ 63) (String.ofList text) with
    | some v => .ok (.int (Int64.ofInt v))
    | none => .err ⟨.unexpectedToken, "invalid integer literal", start⟩

def lexNumber (parseFloat : String → Option UInt64) (cursor : Cursor) :
    LexResult (TokenKind × Cursor) := do
  let (hex, float, parts) := match hexWord? cursor.rest with
    | some parts => (true, false, parts)
    | none => (false, numberWord false false false cursor.rest)
  let kind ← numberKind parseFloat cursor.pos hex float parts.1
  .ok (kind, cursor.skip parts)

end Numbers

section Strings

def readHex (start : Position) : Nat → Nat → Cursor → LexResult (Nat × Cursor)
  | 0, v, cursor => .ok (v, cursor)
  | n + 1, v, cursor =>
    match cursor.bump with
    | none => .err ⟨.unexpectedEof, "truncated escape", start⟩
    | some (b, cursor) =>
      match Hex.digit? (byteChar b) with
      | none => .err ⟨.unexpectedToken, "invalid hex digit", start⟩
      | some d => readHex start n (v * 16 + d) cursor

/-- `char::from_u32`. -/
def charOf? (code : Nat) : Option Char :=
  if code.isValidChar then some (Char.ofNat code) else none

/-- The escapes of one letter. -/
def escape? : Char → Option Char
  | 'n' => some '\n'
  | 't' => some '\t'
  | 'r' => some '\r'
  | '\\' => some '\\'
  | '\'' => some '\''
  | '"' => some '"'
  | '0' => some '\x00'
  | 'a' => some '\x07'
  | 'b' => some '\x08'
  | 'f' => some '\x0c'
  | 'v' => some '\x0b'
  | _ => none

/-- The character that an escape stands for. -/
def unescape (start : Position) (esc : UInt8) (cursor : Cursor) : LexResult (Char × Cursor) :=
  let invalid : LexError := ⟨.unexpectedToken, "invalid unicode escape", start⟩
  match escape? (byteChar esc) with
  | some c => .ok (c, cursor)
  | none =>
    if esc = ascii 'x' then do
      let (h, cursor) ← readHex cursor.pos 2 0 cursor
      .ok ((charOf? h).getD '\uFFFD', cursor)
    else if esc = ascii 'u' then do
      let (h, cursor) ← readHex cursor.pos 4 0 cursor
      let c ← Outcome.ofOption invalid (charOf? h)
      .ok (c, cursor)
    else if esc = ascii 'U' then do
      let (h, cursor) ← readHex cursor.pos 8 0 cursor
      let c ← Outcome.ofOption invalid (charOf? h)
      .ok (c, cursor)
    else
      .err ⟨.unexpectedToken, "invalid escape '\\" ++ String.singleton (byteChar esc) ++ "'", start⟩

/-- Where the scan of a string is. -/
structure StrScan where
  out : List Char := []
  cursor : Cursor
  closed : Bool := false

/-- One pass over a string in quotes. -/
def strStep (quote : UInt8) (start : Position) (s : StrScan) : LexResult StrScan :=
  match s.cursor.bump with
  | none => .err ⟨.unexpectedEof, "unterminated string literal", start⟩
  | some (c, cursor) =>
    if c = quote then .ok { s with cursor, closed := true }
    else if c = ascii '\\' then
      match cursor.bump with
      | none => .err ⟨.unexpectedEof, "unterminated escape", start⟩
      | some (esc, cursor) => do
        let (c, cursor) ← unescape start esc cursor
        .ok { s with out := s.out ++ [c], cursor }
    else .ok { s with out := s.out ++ [byteChar c], cursor }

def lexString (quote : UInt8) (cursor : Cursor) : LexResult (String × Cursor) := do
  let s ← loop (fun s => !s.closed) (strStep quote cursor.pos) (cursor.rest.length + 1)
    { cursor := ⟨cursor.pos.bump quote, cursor.rest.drop 1⟩ }
  .ok (String.ofList s.out, s.cursor)

end Strings

section Tokens

def simple? (b : UInt8) : Option TokenKind :=
  match byteChar b with
  | '\x7b' => some .lBrace
  | '\x7d' => some .rBrace
  | '(' => some .lParen
  | ')' => some .rParen
  | '[' => some .lBracket
  | ']' => some .rBracket
  | '<' => some .lt
  | '>' => some .gt
  | ',' => some .comma
  | ';' => some .semicolon
  | '.' => some .dot
  | '=' => some .equals
  | ':' => some .colon
  | _ => none

variable (parseFloat : String → Option UInt64)

/-- The token that begins with this byte. -/
def nextToken (b : UInt8) (cursor : Cursor) : LexResult (TokenKind × Cursor) :=
  match simple? b with
  | some kind => .ok (kind, cursor.skip ([b], cursor.rest.drop 1))
  | none =>
    if b = ascii '"' ∨ b = ascii '\'' then do
      let (text, cursor) ← lexString b cursor
      .ok (.str text, cursor)
    else if isWordStart b then
      let parts := cursor.rest.span isWordPart
      .ok (.ident (asciiText parts.1), cursor.skip parts)
    else if isAsciiDigit b then lexNumber parseFloat cursor
    else
      .err ⟨.unexpectedToken, "unexpected character '" ++ String.singleton (byteChar b) ++ "'",
        cursor.pos⟩

structure Lexer where
  cursor : Cursor
  tokens : List Token := []
  comments : List Comment := []

def lexMore (s : Lexer) : Bool := !s.cursor.rest.isEmpty

/-- One pass: a blank, a comment, or a token. -/
def lexStep (s : Lexer) : LexResult Lexer :=
  match s.cursor.rest with
  | [] => .ok s
  | b :: _ =>
    if isBlank b then .ok { s with cursor := s.cursor.skip ([b], s.cursor.rest.drop 1) }
    else
      match comment? s.cursor.rest with
      | some parts => do
        let text ← commentText parts.1
        let cursor := s.cursor.skip parts
        .ok { s with cursor, comments := s.comments ++ [⟨⟨s.cursor.pos, cursor.pos⟩, text⟩] }
      | none => do
        let (kind, cursor) ← nextToken parseFloat b s.cursor
        .ok { s with cursor, tokens := s.tokens ++ [⟨kind, ⟨s.cursor.pos, cursor.pos⟩⟩] }

def lexWithComments (src : String) : LexResult (List Token × List Comment) := do
  let bytes := asBytes src
  let s ← loop lexMore (lexStep parseFloat) bytes.length { cursor := ⟨⟨1, 1, 0⟩, bytes⟩ }
  .ok (s.tokens, s.comments)

def lex (src : String) : LexResult (List Token) :=
  (lexWithComments parseFloat src).map (·.1)

end Tokens

end TptProto.Language
