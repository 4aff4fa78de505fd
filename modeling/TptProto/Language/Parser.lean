import TptProto.Foundation.Loop
import TptProto.Language.Ast

/-! The recursive-descent parser over the lexer's tokens. A parsing function returns no
value where the source returns `None`; a diagnostic is recorded in the parser's state
either way. The budget bounds both the recursion and each loop; a loop that goes on for
ever exhausts every budget. -/

namespace TptProto.Language

open TptProto.Foundation

structure Parser where
  name : String
  tokens : List Token
  pos : Nat := 0
  diagnostics : Diagnostics := []
  depth : Nat := 0

def maxProtoNesting : Nat := 200

namespace Parser

variable (p : Parser)

def peek : Option Token := p.tokens[p.pos]?

def peekKind : Option TokenKind := p.peek.map fun t => t.kind

def peekSpan : Option Span := p.peek.map fun t => t.span

def identText : Option String :=
  match p.peekKind with
  | some (.ident s) => some s
  | _ => none

def atKeyword (keyword : String) : Bool := p.peekKind = some (.ident keyword)

def isScalarKeyword : Bool :=
  match p.peekKind with
  | some (.ident s) => (ScalarType.fromKeyword s).isSome
  | _ => false

/-- The next token's kind, if it is a string. -/
def peekStr : Option String :=
  match p.peekKind with
  | some (.str s) => some s
  | _ => none

/-- The next token's number, if it is one. -/
def peekInt : Option Int64 :=
  match p.peekKind with
  | some (.int n) => some n
  | _ => none

/-- The condition of a loop up to a closing token. -/
def before (closing : TokenKind) : Bool := p.peekKind ≠ some closing && p.peek.isSome

/-- From a start to the end of the token read last. -/
def spanFrom (start : Span) : Span where
  start := start.start
  stop := ((p.tokens[p.pos - 1]?.map fun t => t.span).getD start).stop

def pushError (code : ErrorCode) (message : String) (span : Option Span) : Parser :=
  { p with diagnostics := p.diagnostics ++ [.error code message span] }

end Parser

/-- A parsing function: it moves the parser and yields a value. -/
abbrev Parse (α : Type) := StateT Parser (Outcome Empty) α

namespace Parse

/-- Read off the parser's state. -/
def read {α : Type} (f : Parser → α) : Parse α := fun p => .ok (f p, p)

def advance : Parse (Option Token) := fun p =>
  match p.peek with
  | some t => .ok (some t, { p with pos := p.pos + 1 })
  | none => .ok (none, p)

def error (code : ErrorCode) (message : String) (span : Option Span) : Parse Unit := fun p =>
  .ok ((), p.pushError code message span)

/-- An error at the next token. -/
def errorHere (code : ErrorCode) (message : String) : Parse Unit := fun p =>
  .ok ((), p.pushError code message p.peekSpan)

/-- The span of the next token, which the source takes for granted. -/
def startSpan : Parse Span := fun p =>
  match p.peekSpan with
  | some span => .ok (span, p)
  | none => .panic

/-- A loop over an accumulator. -/
def repeatWhile {α : Type} (more : α → Parser → Bool) (body : α → Parse α) (fuel : Nat) (acc : α) :
    Parse α := fun p =>
  loop (fun s : α × Parser => more s.1 s.2) (fun s => body s.1 s.2) fuel (acc, p)

/-- A loop that the body may leave with `return None`. -/
def repeatSome {α : Type} (more : Parser → Bool) (body : α → Parse (Option α)) (fuel : Nat)
    (acc : α) : Parse (Option α) :=
  repeatWhile (fun acc p => acc.isSome && more p)
    (fun acc => match acc with
      | some acc => body acc
      | none => pure none) fuel (some acc)

/-- `if let Some(x) = … { items.push(x) }`. -/
def pushTo {α : Type} (items : List α) : Option α → List α
  | some item => items ++ [item]
  | none => items

section Basics

variable (text : DebugText)

def expect (kind : TokenKind) : Parse (Option Token) := do
  let next ← read Parser.peekKind
  if next = some kind then advance
  else
    errorHere .unexpectedToken
      ("expected " ++ text.kind kind ++ ", found " ++ text.found next)
    return none

def expectIdent : Parse (Option Ident) := do
  let some tok ← advance | return none
  match tok.kind with
  | .ident name => return some ⟨name, tok.span⟩
  | _ =>
    error .unexpectedToken "expected identifier" (some tok.span)
    return none

/-- Skip to the next `;` or `}`. -/
def recover (fuel : Nat) : Parse Unit :=
  repeatWhile (fun _ p => p.peek.isSome && p.peekKind ≠ some .semicolon && p.peekKind ≠ some .rBrace)
    (fun _ => discard advance) fuel ()

/-- Append the parts of a dotted name after the first. -/
def dottedRest (fuel : Nat) (name : String) : Parse String :=
  repeatWhile (fun _ p => p.peekKind = some .dot)
    (fun name => do
      let _ ← advance
      match ← expectIdent with
      | some i => return name ++ "." ++ i.name
      | none => return name ++ ".") fuel name

/-- The qualified name inside the parentheses of an extension option. -/
def extensionName (fuel : Nat) : Parse String := do
  let (name, _) ← repeatWhile (fun (acc : String × Bool) p => acc.2 && p.peek.isSome)
    (fun acc => do
      match ← read Parser.peekKind with
      | some (.ident s) =>
        let _ ← advance
        return (acc.1 ++ s, true)
      | some .dot =>
        let _ ← advance
        return (acc.1 ++ ".", true)
      | some .rParen =>
        let _ ← advance
        return (acc.1 ++ ")", false)
      | _ => return (acc.1, false)) fuel ("(", true)
  return name

def parseOptionName (fuel : Nat) : Parse (Option String) := do
  if (← read Parser.peekKind) = some .lParen then
    let _ ← advance
    let name ← extensionName fuel
    return some (← dottedRest fuel name)
  else
    let some first ← expectIdent | return none
    return some (← dottedRest fuel first.name)

def parseConstant : Nat → Parse (Option Constant)
  | 0 => fun _ => .outOfFuel
  | fuel + 1 => do
    let some tok ← read Parser.peek | return none
    match tok.kind with
    | .int v =>
      let _ ← advance
      return some (.int v)
    | .float v =>
      let _ ← advance
      return some (.float v)
    | .str s =>
      let _ ← advance
      return some (.string s)
    | .ident s =>
      let _ ← advance
      if s = "true" then return some (.bool true)
      else if s = "false" then return some (.bool false)
      else return some (.ident s)
    | .lBrace =>
      let _ ← advance
      let some fields ← repeatSome (fun p => p.before .rBrace) (fun fields => do
          let some key ← parseOptionName fuel | return none
          if (← read Parser.peekKind) = some .lBrace then
            let some val ← parseConstant fuel | return none
            return some (fields ++ [(key, val)])
          else
            let _ ← expect text .colon
            let some val ← parseConstant fuel | return none
            let _ ← expect text .semicolon
            return some (fields ++ [(key, val)])) fuel []
        | return none
      let _ ← expect text .rBrace
      return some (.aggregate fields)
    | .lBracket =>
      let _ ← advance
      let items ← repeatWhile (fun _ p => p.before .rBracket) (fun items => do
          let items := pushTo items (← parseConstant fuel)
          if (← read Parser.peekKind) = some .comma then
            let _ ← advance
          return items) fuel []
      let _ ← expect text .rBracket
      return some (.list items)
    | _ =>
      error .invalidOption "expected a constant value" (some tok.span)
      return none

def parseOptionStmt (fuel : Nat) : Parse (Option ProtoOption) := do
  let span ← startSpan
  let _ ← advance
  let some name ← parseOptionName fuel | return none
  let _ ← expect text .equals
  let some value ← parseConstant text fuel | return none
  let _ ← expect text .semicolon
  return some ⟨← read fun p => p.spanFrom span, name, value⟩

def parseTypeRef (fuel : Nat) : Parse (Option TypeRef) := do
  let some tok ← read Parser.peek | return none
  match tok.kind with
  | .ident s =>
    match ScalarType.fromKeyword s with
    | some type =>
      let _ ← advance
      return some (.scalar type)
    | none => named tok
  | _ => named tok
where
  named (tok : Token) : Parse (Option TypeRef) := do
    let rooted := (← read Parser.peekKind) = some .dot
    if rooted then
      let _ ← advance
    let some first ← expectIdent | return none
    let start := if rooted then "." ++ first.name else first.name
    let some name ← repeatSome (fun p => p.peekKind = some .dot) (fun name => do
        let _ ← advance
        let some i ← expectIdent | return none
        return some (name ++ "." ++ i.name)) fuel start
      | return none
    let next ← read Parser.peekSpan
    return some (.named ⟨name, ⟨tok.span.start, (next.getD tok.span).stop⟩⟩)

end Basics

section Fields

variable (text : DebugText)

def parseLabel : Parse Label := do
  if ← read (·.atKeyword "optional") then
    let _ ← advance
    return .optional
  else if ← read (·.atKeyword "required") then
    let _ ← advance
    return .required
  else if ← read (·.atKeyword "repeated") then
    let _ ← advance
    return .repeated
  else return .singular

/-- What a field's bracketed options set apart from the options themselves. -/
structure FieldOptions where
  jsonName : Option String := none
  default : Option Constant := none
  options : List ProtoOption := []

/-- `parse_field_option`, with the option pushed by its caller. -/
def parseFieldOption (fuel : Nat) (acc : FieldOptions) : Parse FieldOptions := do
  let some name ← parseOptionName fuel | return acc
  if name = "json_name" then
    let _ ← expect text .equals
    match ← read Parser.peekStr with
    | some s =>
      let _ ← advance
      return { acc with jsonName := some s }
    | none => return acc
  else if name = "default" then
    let _ ← expect text .equals
    match ← parseConstant text fuel with
    | some c => return { acc with default := some c }
    | none => return acc
  else
    let _ ← expect text .equals
    let some value ← parseConstant text fuel | return acc
    let span := (← read Parser.peekSpan).getD {}
    return { acc with options := acc.options ++ [⟨span, name, value⟩] }

/-- The options between brackets, where there are any. -/
def parseFieldOptions (fuel : Nat) : Parse FieldOptions := do
  if (← read Parser.peekKind) = some .lBracket then
    let _ ← advance
    let acc ← repeatWhile (fun _ p => p.before .rBracket) (fun acc => do
        let acc ← parseFieldOption text fuel acc
        if (← read Parser.peekKind) = some .comma then
          let _ ← advance
        return acc) fuel {}
    let _ ← expect text .rBracket
    return acc
  else return {}

/-- A number that must come next. -/
def parseNumber (message : String) : Parse (Option Int64) := do
  match ← read Parser.peekInt with
  | some n =>
    let _ ← advance
    return some n
  | none =>
    errorHere .unexpectedToken message
    return none

def parseField (fuel : Nat) : Parse (Option Field) := do
  let span ← startSpan
  let label ← parseLabel
  let some ty ← parseTypeRef fuel | return none
  let some name ← expectIdent | return none
  let _ ← expect text .equals
  let some number ← parseNumber "expected field number" | return none
  let opts ← parseFieldOptions text fuel
  let _ ← expect text .semicolon
  return some {
    span := ← read fun p => p.spanFrom span
    name, number, ty, label
    jsonName := opts.jsonName
    default := opts.default
    options := opts.options }

/-- A field of a oneof, which loses its `json_name` and `default`. -/
def parseOneofField (fuel : Nat) (span : Span) : Parse (Option Field) := do
  let label ← parseLabel
  let some ty ← parseTypeRef fuel | return none
  let some name ← expectIdent | return none
  let _ ← expect text .equals
  let some number ← parseNumber "expected field number" | return none
  let opts ← parseFieldOptions text fuel
  let _ ← expect text .semicolon
  return some {
    span := ← read fun p => p.spanFrom span
    name, number, ty, label
    jsonName := none
    default := none
    options := opts.options }

def parseOneof (fuel : Nat) : Parse (Option Oneof) := do
  let span ← startSpan
  let _ ← advance
  let some name ← expectIdent | return none
  let options ← if ← read (·.atKeyword "option") then
      pure (pushTo [] (← parseOptionStmt text fuel))
    else pure []
  let _ ← expect text .lBrace
  let some fields ← repeatSome (fun p => p.before .rBrace) (fun fields => do
      let some field ← parseOneofField text fuel span | return none
      return some (fields ++ [field])) fuel []
    | return none
  let _ ← expect text .rBrace
  return some ⟨← read fun p => p.spanFrom span, name, fields, options⟩

def parseMap (fuel : Nat) : Parse (Option MapField) := do
  let span ← startSpan
  let _ ← advance
  let _ ← expect text .lt
  let some key ← parseTypeRef fuel | return none
  let _ ← expect text .comma
  let some value ← parseTypeRef fuel | return none
  let _ ← expect text .gt
  let some name ← expectIdent | return none
  let _ ← expect text .equals
  let some number ← parseNumber "expected field number" | return none
  let opts ← parseFieldOptions text fuel
  let _ ← expect text .semicolon
  return some {
    span := ← read fun p => p.spanFrom span
    name, number, key, value
    options := opts.options }

def parseExtend (fuel : Nat) : Parse (Option Extension) := do
  let span ← startSpan
  let _ ← advance
  let some extendee ← expectIdent | return none
  let _ ← expect text .lBrace
  let (fields, options) ← repeatWhile (fun _ p => p.before .rBrace)
    (fun (acc : List Field × List ProtoOption) => do
      if ← read (·.atKeyword "option") then
        return (acc.1, pushTo acc.2 (← parseOptionStmt text fuel))
      else
        match ← parseField text fuel with
        | some f => return (acc.1 ++ [f], acc.2)
        | none =>
          recover fuel
          return acc) fuel ([], [])
  let _ ← expect text .rBrace
  return some ⟨← read fun p => p.spanFrom span, extendee, fields, options⟩

end Fields

section Ranges

variable (text : DebugText)

/-- The bound after `to`, if there is one. -/
def parseRangeEnd : Parse (Option Int64) := do
  if ← read (·.atKeyword "to") then
    let _ ← advance
    if ← read (·.atKeyword "max") then
      let _ ← advance
      return some 9223372036854775807
    else
      match ← read Parser.peekInt with
      | some n =>
        let _ ← advance
        return some n
      | none => return none
  else return none

/-- One pass of `parse_ranges`; the flag tells whether another one follows. -/
def parseRange (acc : List IntRange × Bool) : Parse (List IntRange × Bool) := do
  let some start ← parseNumber "expected integer range bound" | return (acc.1, false)
  let stop ← parseRangeEnd
  if (← read Parser.peekKind) = some .comma then
    let _ ← advance
    return (acc.1 ++ [⟨start, stop⟩], true)
  else return (acc.1 ++ [⟨start, stop⟩], false)

def parseRanges (fuel : Nat) : Parse (List IntRange) := do
  let (ranges, _) ← repeatWhile (fun acc _ => acc.2) parseRange fuel ([], true)
  return ranges

/-- The names of a `reserved` statement; a name's span is given by the source's caller. -/
def parseReservedNames (spanOf : Parser → Span) (fuel : Nat) (names : List Ident) :
    Parse (List Ident) := do
  let (names, _) ← repeatWhile (fun (acc : List Ident × Bool) p => acc.2 && p.peekStr.isSome)
    (fun acc => do
      match ← read Parser.peekStr with
      | some s =>
        let _ ← advance
        let names := acc.1 ++ [⟨s, ← read spanOf⟩]
        if (← read Parser.peekKind) = some .comma then
          let _ ← advance
          return (names, true)
        else return (names, false)
      | none => return acc) fuel (names, true)
  return names

def parseReserved (fuel : Nat) (msg : Message) : Parse Message := do
  let _ ← advance
  let msg ← if (← read Parser.peekStr).isSome then do
      let names ← parseReservedNames (fun p => p.peekSpan.getD {}) fuel msg.reservedNames
      pure { msg with reservedNames := names }
    else do
      let ranges ← parseRanges fuel
      pure { msg with reservedRanges := ranges }
  let _ ← expect text .semicolon
  return msg

def parseExtensions (fuel : Nat) (msg : Message) : Parse Message := do
  let _ ← advance
  let ranges ← parseRanges fuel
  let _ ← expect text .semicolon
  return { msg with extensionRanges := ranges }

end Ranges

section Enums

variable (text : DebugText)

def parseEnumReserved (fuel : Nat) (en : Enum) : Parse Enum := do
  let _ ← advance
  let en ← if (← read Parser.peekStr).isSome then do
      let names ← parseReservedNames (fun _ => {}) fuel en.reservedNames
      pure { en with reservedNames := names }
    else do
      let ranges ← parseRanges fuel
      pure { en with reservedRanges := ranges }
  let _ ← expect text .semicolon
  return en

def parseEnumValue (fuel : Nat) (span : Span) : Parse (Option EnumValue) := do
  let some name ← expectIdent | return none
  let _ ← expect text .equals
  let some number ← parseNumber "expected enum value number" | return none
  let opts ← parseFieldOptions text fuel
  let _ ← expect text .semicolon
  return some ⟨span, name, number, opts.options⟩

/-- One pass of the loop over an enum's body, whose values all have the span of the enum. -/
def enumItem (fuel : Nat) (en : Enum) : Parse (Option Enum) := do
  if ← read (·.atKeyword "option") then
    match ← parseOptionStmt text fuel with
    | some o =>
      let aliased := match o.value with
        | .bool true => o.name = "allow_alias"
        | _ => false
      return some { en with allowAlias := en.allowAlias || aliased, options := en.options ++ [o] }
    | none => return some en
  else if ← read (·.atKeyword "reserved") then
    return some (← parseEnumReserved text fuel en)
  else if (← read Parser.identText).isSome then
    let some value ← parseEnumValue text fuel en.span | return none
    return some { en with values := en.values ++ [value] }
  else
    let keyword := (← read Parser.identText).getD ""
    errorHere .unexpectedToken ("unexpected token in enum body: '" ++ keyword ++ "'")
    let _ ← advance
    return some en

/-- An enum before its body. -/
def newEnum (span : Span) (name : Ident) : Enum where
  span
  name
  values := []
  reservedRanges := []
  reservedNames := []
  options := []
  allowAlias := false

/-- `parse_enum` before the body. -/
def enumHeader : Parse (Option Enum) := do
  let span ← startSpan
  let _ ← advance
  let some name ← expectIdent | return none
  let _ ← expect text .lBrace
  return some (newEnum span name)

def parseEnum (fuel : Nat) : Parse (Option Enum) := do
  let some start ← enumHeader text | return none
  let some en ← repeatSome (fun p => p.before .rBrace) (enumItem text fuel) fuel start
    | return none
  let _ ← expect text .rBrace
  return some { en with span := ← read fun p => p.spanFrom start.span }

end Enums

section Messages

variable (text : DebugText)

/-- Skip a balanced `{ … }` from its opening brace. -/
def skipBalancedBlock (fuel : Nat) : Parse Unit := do
  let _ ← repeatWhile (fun (acc : Int × Bool) p => acc.2 && p.peek.isSome)
    (fun acc => do
      match ← read Parser.peekKind with
      | some .lBrace =>
        let _ ← advance
        return (acc.1 + 1, true)
      | some .rBrace =>
        let _ ← advance
        return (acc.1 - 1, 0 < acc.1 - 1)
      | _ =>
        let _ ← advance
        return acc) fuel (0, true)

/-- A message before its body; a group starts with a field of its own name. -/
def newMessage (span : Span) (name : Ident) (isGroup : Bool) (number : Int64) : Message where
  span
  name
  fields := if isGroup then [⟨span, name, number, .named name, .optional, none, none, []⟩] else []
  oneofs := []
  maps := []
  nestedMessages := []
  nestedEnums := []
  nestedExtends := []
  reservedRanges := []
  reservedNames := []
  extensionRanges := []
  options := []
  isGroup

/-- Recover where an item could not be parsed. -/
def orRecover {α β : Type} (fuel : Nat) (item : Parse (Option α)) (keep : β) (add : α → β) :
    Parse β := do
  match ← item with
  | some value => return add value
  | none =>
    recover fuel
    return keep

/-- One pass of the loop over a message's body. -/
def messageItem (parseMessage : Bool → Parse (Option Message)) (fuel : Nat) (msg : Message) :
    Parse Message := do
  if ← read (·.atKeyword "option") then
    return { msg with options := pushTo msg.options (← parseOptionStmt text fuel) }
  else if ← read (·.atKeyword "message") then
    orRecover fuel (parseMessage false) msg fun m =>
      { msg with nestedMessages := msg.nestedMessages ++ [m] }
  else if ← read (·.atKeyword "enum") then
    orRecover fuel (parseEnum text fuel) msg fun e =>
      { msg with nestedEnums := msg.nestedEnums ++ [e] }
  else if ← read (·.atKeyword "oneof") then
    orRecover fuel (parseOneof text fuel) msg fun o => { msg with oneofs := msg.oneofs ++ [o] }
  else if ← read (·.atKeyword "map") then
    orRecover fuel (parseMap text fuel) msg fun mf => { msg with maps := msg.maps ++ [mf] }
  else if ← read (·.atKeyword "reserved") then parseReserved text fuel msg
  else if ← read (·.atKeyword "extensions") then parseExtensions text fuel msg
  else if ← read (·.atKeyword "extend") then
    orRecover fuel (parseExtend text fuel) msg fun e =>
      { msg with nestedExtends := msg.nestedExtends ++ [e] }
  else if ← read (·.atKeyword "group") then
    orRecover fuel (parseMessage true) msg fun g =>
      { msg with nestedMessages := msg.nestedMessages ++ [g] }
  else if ← read fun p => p.isScalarKeyword || p.peekKind = some .dot || p.identText.isSome then
    orRecover fuel (parseField text fuel) msg fun f => { msg with fields := msg.fields ++ [f] }
  else
    let keyword := (← read Parser.identText).getD ""
    errorHere .unexpectedToken ("unexpected token in message body: '" ++ keyword ++ "'")
    let _ ← advance
    return msg

/-- The number of a group, which other messages do not have. -/
def groupNumber (isGroup : Bool) : Parse Int64 := do
  if isGroup then
    let _ ← expect text .equals
    return (← parseNumber "group requires a field number").getD 0
  else return 0

/-- `parse_message_inner` before the body. -/
def messageHeader (isGroup : Bool) : Parse (Option Message) := do
  let span ← startSpan
  let _ ← advance
  let some name ← expectIdent | return none
  let number ← groupNumber text isGroup
  let _ ← expect text .lBrace
  return some (newMessage span name isGroup number)

def parseMessageBody (parseMessage : Bool → Parse (Option Message)) (fuel : Nat) (msg : Message) :
    Parse Message := do
  let msg ← repeatWhile (fun _ p => p.before .rBrace) (messageItem text parseMessage fuel) fuel msg
  let _ ← expect text .rBrace
  return msg

def parseMessageInner (parseMessage : Bool → Parse (Option Message)) (fuel : Nat) (isGroup : Bool) :
    Parse (Option Message) := do
  let some msg ← messageHeader text isGroup | return none
  return some (← parseMessageBody text parseMessage fuel msg)

def parseMessage : Nat → Bool → Parse (Option Message)
  | 0, _ => fun _ => .outOfFuel
  | fuel + 1, isGroup => do
    if maxProtoNesting ≤ (← get).depth then
      errorHere .other
        ("`.proto` nesting exceeds maximum depth of " ++ toString maxProtoNesting)
      let _ ← advance
      if (← read Parser.peekKind) = some .lBrace then
        skipBalancedBlock fuel
      return none
    else
      modify fun p => { p with depth := p.depth + 1 }
      let result ← parseMessageInner text (parseMessage fuel) fuel isGroup
      modify fun p => { p with depth := p.depth - 1 }
      return result

end Messages

section Files

variable (text : DebugText)

def parseSyntax : Parse (Option Syntax) := do
  let start ← startSpan
  let _ ← advance
  let _ ← expect text .equals
  match ← read Parser.peekStr with
  | some value =>
    let _ ← advance
    let _ ← expect text .semicolon
    return some ⟨← read fun p => p.spanFrom start, value⟩
  | none =>
    errorHere .invalidSyntax "syntax value must be a string literal"
    return none

def parseImport : Parse (Option Import) := do
  let span ← startSpan
  let _ ← advance
  let kind ← if ← read (·.atKeyword "public") then do
      let _ ← advance
      pure ImportKind.«public»
    else if ← read (·.atKeyword "weak") then do
      let _ ← advance
      pure ImportKind.weak
    else pure ImportKind.default
  match ← read Parser.peekStr with
  | some path =>
    let _ ← advance
    let _ ← expect text .semicolon
    return some ⟨← read fun p => p.spanFrom span, path, kind⟩
  | none =>
    errorHere .unexpectedToken "import path must be a string literal"
    return none

def parseMethod (fuel : Nat) : Parse (Option Method) := do
  let span ← startSpan
  let _ ← advance
  let some name ← expectIdent | return none
  let _ ← expect text .lParen
  let clientStreaming ← read (·.atKeyword "stream")
  if clientStreaming then
    let _ ← advance
  let some input ← parseTypeRef fuel | return none
  let _ ← expect text .rParen
  if !(← read (·.atKeyword "returns")) then
    errorHere .unexpectedToken "expected 'returns'"
    return none
  else
    let _ ← advance
    let _ ← expect text .lParen
    let serverStreaming ← read (·.atKeyword "stream")
    if serverStreaming then
      let _ ← advance
    let some output ← parseTypeRef fuel | return none
    let _ ← expect text .rParen
    let options ← if (← read Parser.peekKind) = some .lBrace then do
        let _ ← advance
        let options ← repeatWhile (fun _ p => p.before .rBrace) (fun options => do
            match ← parseOptionStmt text fuel with
            | some o => return options ++ [o]
            | none =>
              let _ ← advance
              return options) fuel []
        let _ ← expect text .rBrace
        pure options
      else do
        let _ ← expect text .semicolon
        pure []
    return some ⟨← read fun p => p.spanFrom span, name, input, output, clientStreaming,
      serverStreaming, options⟩

def parseService (fuel : Nat) : Parse (Option Service) := do
  let span ← startSpan
  let _ ← advance
  let some name ← expectIdent | return none
  let _ ← expect text .lBrace
  let (methods, options) ← repeatWhile (fun _ p => p.before .rBrace)
    (fun (acc : List Method × List ProtoOption) => do
      if ← read (·.atKeyword "option") then
        return (acc.1, pushTo acc.2 (← parseOptionStmt text fuel))
      else if ← read (·.atKeyword "rpc") then
        orRecover fuel (parseMethod text fuel) acc fun m => (acc.1 ++ [m], acc.2)
      else
        let keyword := (← read Parser.identText).getD ""
        errorHere .unexpectedToken ("unexpected token in service body: '" ++ keyword ++ "'")
        let _ ← advance
        return acc) fuel ([], [])
  let _ ← expect text .rBrace
  return some ⟨← read fun p => p.spanFrom span, name, methods, options⟩

/-- The segments of a package's name after the first; a missing one ends it. -/
def packageRest (fuel : Nat) (name : Ident) : Parse Ident := do
  let (name, _) ← repeatWhile (fun (acc : Ident × Bool) p => acc.2 && p.peekKind = some .dot)
    (fun acc => do
      let _ ← advance
      match ← expectIdent with
      | some segment => return ({ acc.1 with name := acc.1.name ++ "." ++ segment.name }, true)
      | none => return ({ acc.1 with name := acc.1.name ++ "." }, false)) fuel (name, true)
  return name

/-- One pass of the loop over a file. -/
def fileItem (fuel : Nat) (file : File) : Parse File := do
  if ← read (·.atKeyword "syntax") then
    match ← parseSyntax text with
    | some s => return { file with syntaxDecl := some s }
    | none => return file
  else if ← read (·.atKeyword "edition") then
    let _ ← advance
    let _ ← expect text .equals
    let edition ← read Parser.peekStr
    if edition.isSome then
      let _ ← advance
    let _ ← expect text .semicolon
    return { file with edition := edition.or file.edition }
  else if ← read (·.atKeyword "package") then
    let _ ← advance
    let package ← match ← expectIdent with
      | some first => pure (some (← packageRest fuel first))
      | none => pure file.package
    let _ ← expect text .semicolon
    return { file with package }
  else if ← read (·.atKeyword "import") then
    return { file with imports := pushTo file.imports (← parseImport text) }
  else if ← read (·.atKeyword "option") then
    return { file with options := pushTo file.options (← parseOptionStmt text fuel) }
  else if ← read (·.atKeyword "message") then
    orRecover fuel (parseMessage text fuel false) file fun m =>
      { file with messages := file.messages ++ [m] }
  else if ← read (·.atKeyword "enum") then
    orRecover fuel (parseEnum text fuel) file fun e => { file with enums := file.enums ++ [e] }
  else if ← read (·.atKeyword "service") then
    orRecover fuel (parseService text fuel) file fun s =>
      { file with services := file.services ++ [s] }
  else if ← read (·.atKeyword "extend") then
    orRecover fuel (parseExtend text fuel) file fun e =>
      { file with extensions := file.extensions ++ [e] }
  else
    let keyword := (← read Parser.identText).getD ""
    errorHere .unexpectedToken ("unexpected top-level token '" ++ keyword ++ "'")
    let _ ← advance
    return file

/-- The parser's `parse_file`. -/
def parseFile (fuel : Nat) : Parse File := do
  let name ← read Parser.name
  repeatWhile (fun _ p => p.peek.isSome) (fileItem text fuel) fuel { name }

end Files

end Parse

/-- `parse_file` on the tokens of a source that lexes. -/
def parseTokens (text : DebugText) (fuel : Nat) (name : String) (tokens : List Token) :
    Outcome Empty (File × Parser) := Parse.parseFile text fuel { name, tokens }

end TptProto.Language
