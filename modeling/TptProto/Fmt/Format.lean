import TptProto.Foundation.Trim
import TptProto.Language.Lexer

/-! `format_source`: tokens and comments in the order of the source, laid out anew. -/

namespace TptProto.Fmt

open TptProto.Core TptProto.Foundation TptProto.Language

inductive FmtError where
  | lex (error : LexError)
  deriving DecidableEq

abbrev FmtResult (α : Type) := Outcome FmtError α

/-- One event of the source. -/
inductive Ev where
  | tok (token : Token)
  | cmt (comment : Comment)

namespace Ev

def span : Ev → Span
  | tok token => token.span
  | cmt comment => comment.span

def startOffset (ev : Ev) : Nat := ev.span.start.offset

def startLine (ev : Ev) : Nat := ev.span.start.line

def endLine (ev : Ev) : Nat := ev.span.stop.line

def kind : Ev → Option TokenKind
  | tok token => some token.kind
  | cmt _ => none

end Ev

/-- Tokens and comments by where they start. -/
def events (tokens : List Token) (comments : List Comment) : List Ev :=
  (tokens.map Ev.tok ++ comments.map Ev.cmt).mergeSort fun a b => a.startOffset ≤ b.startOffset

/-- `str::lines`. -/
def lines : List Char → List (List Char)
  | [] => []
  | '\n' :: rest => [] :: lines rest
  | '\r' :: '\n' :: rest => [] :: lines rest
  | c :: rest =>
    match lines rest with
    | [] => [[c]]
    | first :: more => (c :: first) :: more

def isSpace (c : Char) : Bool := c = ' ' || c = '\t'

/-- The text so far and where it stands. -/
structure State where
  out : List Char := []
  indent : Nat := 0
  atBol : Bool := true
  braceOpenInline : Bool := false

namespace State

variable (s : State)

def push (text : List Char) : State := { s with out := s.out ++ text }

def newline : State := { s with out := s.out.rdropWhile isSpace ++ ['\n'], atBol := true }

def indentIfBol : State :=
  if s.atBol then s.push (List.replicate (2 * s.indent) ' ') else s

def ensureIndent : State := { s.indentIfBol with atBol := false }

/-- Leave room for the body of a brace that has just been opened. -/
def openBody : State :=
  if s.braceOpenInline then { s with indent := s.indent + 1, braceOpenInline := false } else s

end State

/-- A comment behind something on its line. -/
def trailingText (text : List Char) : List Char :=
  " //".toList ++ trim (text.dropWhile (· = '/'))

/-- The lines of a block comment, each on a line of its own. -/
def blockLines (s : State) (text : List Char) : State :=
  (lines text).foldl (fun s line =>
    ((if s.atBol then s else s.newline).ensureIndent).push (trimEnd line)) s

def formatComment (s : State) (trailing gap : Bool) (text : List Char) : State :=
  if trailing && !s.atBol then s.push (trailingText text)
  else
    let s := if !s.atBol || s.braceOpenInline then s.openBody.newline else s
    let s := if gap then s.push ['\n'] else s
    let s := s.ensureIndent
    if "/*".toList.isPrefixOf (trimStart text) then (blockLines s text).newline
    else (s.push (trim text)).newline

/-- Whether a blank stands between what comes before, if it is a token, and this token. -/
def needSpace (prev : Option TokenKind) (kind : TokenKind) : Bool :=
  match prev, kind with
  | _, .comma | _, .semicolon | _, .rParen | _, .rBracket | _, .gt | _, .dot => false
  | some .dot, _ | some .lParen, _ | _, .lParen | some .lBracket, _ | _, .lBracket
  | some .lt, _ | _, .lt => false
  | _, _ => true

/-- Where a token stands, before its text. -/
def placeToken (s : State) (gap : Bool) (prev : Option TokenKind) (kind : TokenKind) : State :=
  if kind = .rBrace then
    let s := if s.atBol then s else s.newline
    let s := if gap then s.push ['\n'] else s
    { s with indent := s.indent - 1 }
  else
    let s := if s.braceOpenInline then s.openBody.newline else s
    if gap && s.atBol then s.push ['\n']
    else if !s.atBol && needSpace prev kind then s.push [' ']
    else s

def formatToken (s : State) (gap : Bool) (prev : Option TokenKind) (kind : TokenKind)
    (text : List Char) : State :=
  if kind = .rBrace ∧ s.braceOpenInline then
    (({ s with braceOpenInline := false }.indentIfBol).push ['\x7d']).newline
  else
    let s := ((placeToken s gap prev kind).ensureIndent).push text
    if kind = .lBrace then { s with braceOpenInline := true }
    else if kind = .semicolon ∨ kind = .rBrace then s.newline
    else s

/-- `&src[start..end]`. -/
def slice (bytes : List UInt8) (start stop : Nat) : FmtResult (List Char) :=
  if start ≤ stop then
    match fromUtf8 ((bytes.drop start).take (stop - start)) with
    | some text => .ok text.toList
    | none => .panic
  else .panic

/-- One event, behind the one before it. -/
def formatEvent (bytes : List UInt8) (prev : Option Ev) (s : State) (ev : Ev) :
    FmtResult State :=
  let gap := prev.any fun p => ev.startLine > p.endLine + 1
  match ev with
  | .cmt comment =>
    let trailing := prev.any fun p => p.endLine = ev.startLine
    .ok (formatComment s trailing gap comment.text.toList)
  | .tok token => do
    let text ← slice bytes ev.startOffset (min token.span.stop.offset bytes.length)
    .ok (formatToken s gap (prev.bind Ev.kind) token.kind text)

def formatEvents (bytes : List UInt8) : Option Ev → State → List Ev → FmtResult State
  | _, s, [] => .ok s
  | prev, s, ev :: rest => do
    let s ← formatEvent bytes prev s ev
    formatEvents bytes (some ev) s rest

/-- The text with a line end behind it. -/
def finish (s : State) : List Char :=
  if s.out.getLast? = some '\n' then s.out else s.out.rdropWhile isSpace ++ ['\n']

def formatSource (parseFloat : String → Option UInt64) (src : String) : FmtResult String := do
  let (tokens, comments) ← (lexWithComments parseFloat src).mapErr .lex
  let s ← formatEvents (asBytes src) none {} (events tokens comments)
  .ok (String.ofList (finish s))

end TptProto.Fmt
