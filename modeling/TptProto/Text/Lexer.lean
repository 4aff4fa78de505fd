import TptProto.Text.Print

/-! Text to tokens. A position is kept as the text behind it. -/

namespace TptProto.Text

open TptProto.Foundation

def isIdentStart (c : Char) : Bool := c.isAlpha || c = '_' || c = '.'

def isIdentPart (c : Char) : Bool := c.isAlpha || c.isDigit || c = '_' || c = '.'

def classifyIdent (word : List Char) : Tok :=
  let text := String.ofList word
  if text ∈ ["true", "false", "inf", "nan", "-inf"] then .raw text else .ident text

/-- The first byte of a character. -/
def firstByte (c : Char) : UInt8 := (String.utf8EncodeChar c).headD 0

section Strings

/-- Where the scan of a string is. -/
structure Scan where
  out : List Char := []
  rest : List Char
  closed : Bool := false

def Scan.more (s : Scan) : Bool := !s.closed && !s.rest.isEmpty

/-- What a backslash before a character adds, and the text behind. A character of several bytes is
cut behind its first byte, where the next slice panics. -/
def unescape (e : Char) (rest : List Char) : TextResult (List Char × List Char) :=
  if e = 'n' then .ok (['\n'], rest)
  else if e = 't' then .ok (['\t'], rest)
  else if e = 'r' then .ok (['\r'], rest)
  else if e = '\\' ∨ e = '\'' ∨ e = '"' then .ok ([e], rest)
  else if e = '0' then .ok (['\x00'], rest)
  else if e = '\n' then .ok ([], rest)
  else if e = 'x' then
    match Hex.parse (2 ^ 8) (rest.take 2) with
    | some v => .ok ([Char.ofNat v], rest.drop 2)
    | none => .ok ([], rest)
  else if e.toNat < 128 then .ok ([e], rest)
  else .panic

/-- One pass over a string in quotes. -/
def scanStep (quote : Char) (s : Scan) : TextResult Scan :=
  match s.rest with
  | [] => .ok s
  | c :: rest =>
    if c = quote then .ok { s with rest, closed := true }
    else
      match c, rest with
      | '\\', e :: behind => do
        let (added, rest) ← unescape e behind
        .ok { s with out := s.out ++ added, rest }
      | _, _ => .ok { s with out := s.out ++ [c], rest }

end Strings

section Numbers

/-- The characters that a number is cut out by. -/
def isNumberPart (c : Char) : Bool :=
  c.isDigit || c ∈ ['.', '-', '+', 'e', 'E', 'x', 'a', 'b', 'c', 'd', 'f', 'A', 'B', 'C', 'D', 'F']

def stripHex : List Char → Option (List Char)
  | '0' :: 'x' :: hex => some hex
  | '0' :: 'X' :: hex => some hex
  | _ => none

variable (fmt : Formatting)

/-- Hexadecimal first, then a double if there is a point or an exponent, else an integer. -/
def classifyNumber (word : List Char) : Option Tok :=
  let text := String.ofList word
  let hex := ((stripHex word).bind (Hex.parse (2 ^ 64))).map fun v => Tok.uint (UInt64.ofNat v)
  let float :=
    if word.any fun c => c = '.' || c = 'e' || c = 'E' then (fmt.parseFloat text).map Tok.float
    else none
  let uint := (Decimal.parseNat (2 ^ 64) text).map fun v => Tok.uint (UInt64.ofNat v)
  let int := (Decimal.parseInt (2 ^ 63) text).map fun v => Tok.int (Int64.ofInt v)
  hex.or (float.or (uint.or int))

end Numbers

section Tokens

variable (fmt : Formatting) (input : List Char)

/-- The byte at which the rest of the input begins. -/
def offsetOf (rest : List Char) : UInt32 :=
  UInt32.ofNat ((String.ofList input).utf8ByteSize - (String.ofList rest).utf8ByteSize)

def parseString (quote : Char) (start rest : List Char) : TextResult (String × List Char) := do
  let s ← loop Scan.more (scanStep quote) rest.length { rest }
  if s.closed then .ok (String.ofList s.out, s.rest)
  else .err (.lex (offsetOf input start) "unterminated string")

def parseNumber (start : List Char) : TextResult (Tok × List Char) :=
  let word := start.takeWhile isNumberPart
  match classifyNumber fmt word with
  | some tok => .ok (tok, start.dropWhile isNumberPart)
  | none =>
    .err (.lex (offsetOf input start)
      ("bad number " ++ String.ofList (debugStr fmt (String.ofList word))))

def delimiter? : Char → Option Tok
  | '\x7b' => some .lBrace
  | '\x7d' => some .rBrace
  | '<' => some .lAngle
  | '>' => some .rAngle
  | '[' => some .lBracket
  | ']' => some .rBracket
  | ':' => some .colon
  | ',' => some .comma
  | _ => none

/-- The rest of the input, and the tokens before it. -/
abbrev Lexed := List Char × List Tok

def lexMore (s : Lexed) : Bool := !s.1.isEmpty

/-- One pass: a blank, a comment, or a token. -/
def lexStep (s : Lexed) : TextResult Lexed :=
  match s.1 with
  | [] => .ok s
  | c :: rest =>
    if c ∈ [' ', '\t', '\r', '\n'] then .ok (rest, s.2)
    else if c = '#' then .ok (rest.dropWhile (· ≠ '\n'), s.2)
    else
      match delimiter? c with
      | some tok => .ok (rest, s.2 ++ [tok])
      | none =>
        if c = '"' ∨ c = '\'' then do
          let (text, rest) ← parseString input c s.1 rest
          .ok (rest, s.2 ++ [.str text])
        else if isIdentStart c then
          .ok (s.1.dropWhile isIdentPart, s.2 ++ [classifyIdent (s.1.takeWhile isIdentPart)])
        else if c = '-' ∨ c = '+' ∨ c.isDigit then do
          let (tok, rest) ← parseNumber fmt input s.1
          .ok (rest, s.2 ++ [tok])
        else
          .err (.lex (offsetOf input s.1) ("unexpected byte " ++
            String.ofList (debugChar fmt (Char.ofNat (firstByte c).toNat))))

end Tokens

def tokenize (fmt : Formatting) (input : String) : TextResult (List Tok) := do
  let chars := input.toList
  let lexed ← loop lexMore (lexStep fmt chars) chars.length (chars, [])
  .ok lexed.2

end TptProto.Text
