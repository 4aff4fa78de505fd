import TptProto.Text.Lexer
import TptProto.Text.Print

/-! Tokens to dynamic messages. The rest of the tokens is the parser's state. -/

namespace TptProto.Text

open TptProto.Foundation TptProto.Core TptProto.Descriptor TptProto.Reflect

section Scalars

def intToScalar (t : FieldType) (n : Int64) (field : FieldDescriptorProto) :
    TextResult ScalarValue :=
  match t with
  | .int32 | .sint32 | .sfixed32 => .ok (.i64 n.toInt32.toInt64)
  | .int64 | .sint64 | .sfixed64 => .ok (.i64 n)
  | .uint32 | .fixed32 => .ok (.u64 n.toUInt64.toUInt32.toUInt64)
  | .uint64 | .fixed64 => .ok (.u64 n.toUInt64)
  | .bool => .ok (.bool (n ≠ 0))
  | .double | .float => .ok (.f64 (Ieee.ofInt n.toInt))
  | _ => .err (.value (field.name.getD "") "int not allowed")

def uintToScalar (t : FieldType) (n : UInt64) (field : FieldDescriptorProto) :
    TextResult ScalarValue :=
  match t with
  | .int32 | .sint32 | .sfixed32 => .ok (.i64 n.toInt64.toInt32.toInt64)
  | .int64 | .sint64 | .sfixed64 => .ok (.i64 n.toInt64)
  | .uint32 | .fixed32 => .ok (.u64 n.toUInt32.toUInt64)
  | .uint64 | .fixed64 => .ok (.u64 n)
  | .bool => .ok (.bool (n ≠ 0))
  | .double | .float => .ok (.f64 (Ieee.ofNat n.toNat))
  | _ => .err (.value (field.name.getD "") "uint not allowed")

/-- `trim_start_matches` with a text of two characters. -/
def trimPairs (a b : Char) : List Char → List Char
  | x :: y :: rest => if x = a ∧ y = b then trimPairs a b rest else x :: y :: rest
  | chars => chars

/-- Pairs are cut out by bytes, so that a character of several bytes can be cut: a panic. -/
def parseHex (s : String) : TextResult (List UInt8) :=
  let digits := trimPairs '0' 'X' (trimPairs '0' 'x' s.toList)
  let size := (String.ofList digits).utf8ByteSize
  let digits := if size % 2 = 0 then digits else '0' :: digits
  hexSlices digits
where
  /-- The slices of two bytes, of which none may end within a character. -/
  hexSlices : List Char → TextResult (List UInt8)
    | [] => .ok []
    | x :: rest =>
      if x.utf8Size = 1 then
        match rest with
        | y :: rest =>
          if y.utf8Size = 1 then
            (hexSlices rest).map fun bytes =>
              match Hex.parse (2 ^ 8) [x, y] with
              | some v => UInt8.ofNat v :: bytes
              | none => bytes
          else .panic
        | [] => .ok []
      else if x.utf8Size = 2 then hexSlices rest
      else .panic

/-- The scalar that a token stands for in a field of a type. -/
def scalarOfTok (t : FieldType) (field : FieldDescriptorProto) (tok : Tok) :
    TextResult ScalarValue :=
  let fname := field.name.getD ""
  match tok with
  | .str s =>
    match t with
    | .string => .ok (.string s)
    | .bytes => (parseHex s).map .bytes
    | _ => .err (.value fname "unexpected string")
  | .int n => intToScalar t n field
  | .uint n => uintToScalar t n field
  | .float bits => .ok (.f64 bits)
  | .raw s =>
    if s = "true" then .ok (.bool true)
    else if s = "false" then .ok (.bool false)
    else if s = "inf" then .ok (.f64 0x7FF0000000000000)
    else if s = "-inf" then .ok (.f64 0xFFF0000000000000)
    else if s = "nan" then .ok (.f64 0x7FF8000000000000)
    else .err (.value fname ("bad literal " ++ s))
  | _ => .err (.value fname "unexpected token")

/-- The enum value that a token stands for: a number, or a name of the declared enum. -/
def enumOfTok (pool : DescriptorPool) (field : FieldDescriptorProto) (tok : Tok) :
    TextResult Int32 :=
  let fname := field.name.getD ""
  match tok with
  | .int n => .ok n.toInt32
  | .uint n => .ok n.toUInt32.toInt32
  | .ident name | .raw name => do
    let edesc ← Outcome.ofOption (.unknown (field.typeName.getD ""))
      (pool.lookupEnum (field.typeName.getD ""))
    match edesc.value.find? fun v => v.name = some name with
    | some v => .ok (v.number.getD 0)
    | none =>
      Outcome.ofOption (.value fname ("unknown enum value " ++ name))
        ((Decimal.parseInt (2 ^ 31) name).map Int32.ofInt)
  | _ => .err (.value fname "expected enum")

end Scalars

section Fields

/-- The key and the value of a map entry that was parsed as a message. -/
def mapEntryToValue (v : Value) : Value :=
  match v with
  | .message dm =>
    .map [((dm.getField 1).getD (.scalar (.i64 0)), (dm.getField 2).getD (.scalar (.i64 0)))]
  | v => v

/-- Appends to the list of a repeated field. -/
def appendItem (value : Value) : Option Value → Value
  | none | some (.list []) =>
    match value with
    | .list inner => .list inner
    | other => .list [other]
  | some (.list items) =>
    match value with
    | .list inner => .list (items ++ inner)
    | other => .list (items ++ [other])
  | some _ => value

/-- Appends to the entries of a map field. -/
def appendEntry (entry : Value × Value) : Option Value → Value
  | none => .map [entry]
  | some (.map entries) => .map (entries ++ [entry])
  | some other => other

/-- Adds a parsed value to a message. -/
def storeField (pool : DescriptorPool) (msg : DynamicMessage) (field : FieldDescriptorProto)
    (value : Value) : DynamicMessage :=
  let num := field.number.getD 0
  if isMapField pool field then
    match mapEntryToValue value with
    | .map entries =>
      match entries.getLast? with
      | some entry => { msg with fields := SortedMap.upsert msg.fields num (appendEntry entry) }
      | none => msg
    | _ => msg
  else if field.label = some .repeated then
    { msg with fields := SortedMap.upsert msg.fields num (appendItem value) }
  else msg.setField num value

/-- The field with a name, or with the number that the name is a numeral of. -/
def fieldNamed (desc : DescriptorProto) (name : String) : Option FieldDescriptorProto :=
  let number := (Decimal.parseInt (2 ^ 31) name).map Int32.ofInt
  desc.field.find? fun f => f.name = some name || f.number = number

end Fields

section Bodies

variable (fmt : Formatting) (pool : DescriptorPool) (opts : TextOptions)

/-- The tokens left, and the message so far. -/
abbrev Body := List Tok × DynamicMessage

variable (recurse : Nat → DescriptorProto → List Tok → TextResult Body)

def closeDelim (toks : List Tok) : TextResult (List Tok) :=
  match toks with
  | .rBrace :: rest | .rAngle :: rest => .ok rest
  | _ => .err (.syntaxError ("expected closing delimiter, got " ++ debugRead fmt toks.head?))

/-- The body of a nested message behind its opening delimiter, and the closing one. -/
def parseNested (depth : Nat) (desc : DescriptorProto) (toks : List Tok) : TextResult Body := do
  let (rest, inner) ← recurse depth desc toks
  let rest ← closeDelim fmt rest
  .ok (rest, inner)

/-- What follows a colon. -/
def parseValue (field : FieldDescriptorProto) (depth : Nat) (toks : List Tok) :
    TextResult (List Tok × Value) :=
  match field.type.getD .string with
  | .message | .group =>
    match toks with
    | .lBrace :: rest | .lAngle :: rest => do
      let (rest, inner) ← parseNested fmt recurse (depth + 1) (subDescriptor pool field) rest
      .ok (rest, .message inner)
    | _ => .err (.syntaxError "expected message body")
  | .enum =>
    match toks with
    | [] => .err (.syntaxError "expected enum value")
    | tok :: rest => (enumOfTok pool field tok).map fun n => (rest, .enum n)
  | t =>
    match toks with
    | [] => .err (.syntaxError "expected value")
    | tok :: rest => (scalarOfTok t field tok).map fun s => (rest, .scalar s)

def parseField (desc : DescriptorProto) (depth : Nat) (name : String) (body : Body) :
    TextResult Body := do
  let field ← Outcome.ofOption (.unknown name) (fieldNamed desc name)
  let (rest, value) ← (match body.1 with
    | .lBrace :: rest | .lAngle :: rest => do
      let (rest, inner) ← parseNested fmt recurse (depth + 1) (subDescriptor pool field) rest
      .ok (rest, .message inner)
    | .colon :: rest => parseValue fmt pool recurse field (depth + 1) rest
    | toks =>
      .err (.syntaxError ("expected \x27:\x27 or \x27\x7b\x27 after field " ++ name ++ ", got " ++
        debugRead fmt toks.head?)) : TextResult (List Tok × Value))
  let msg := storeField pool body.2 field value
  match rest with
  | .comma :: rest => .ok (rest, msg)
  | rest => .ok (rest, msg)

/-- `[type_name] { .. }` sets the field of that type. -/
def parseTyped (desc : DescriptorProto) (depth : Nat) (body : Body) : TextResult Body := do
  let (typeName, rest) ← (match body.1 with
    | .ident s :: rest => .ok (s, rest)
    | _ => .err (.syntaxError "expected type name in [ ]") : TextResult (String × List Tok))
  let rest ← (match rest with
    | .rBracket :: rest => .ok rest
    | toks =>
      .err (.syntaxError ("expected RBracket, got " ++ debugRead fmt toks.head?)) :
        TextResult (List Tok))
  let sub ← Outcome.ofOption (.unknown typeName) (pool.lookupMessage typeName)
  let (rest, inner) ← match rest with
    | .lBrace :: rest | .lAngle :: rest => parseNested fmt recurse (depth + 1) sub rest
    | rest => .ok (rest, DynMsg.new sub pool)
  match desc.field.find? fun f =>
      f.typeName = some ("." ++ typeName) || f.typeName = some typeName with
  | some f => .ok (rest, body.2.setField (f.number.getD 0) (.message inner))
  | none => .ok (rest, body.2)

/-- A body goes on up to a closing delimiter or the end. -/
def bodyMore (body : Body) : Bool :=
  match body.1 with
  | [] | .rBrace :: _ | .rAngle :: _ => false
  | _ => true

/-- One pass over a body. -/
def bodyStep (desc : DescriptorProto) (depth : Nat) (body : Body) : TextResult Body :=
  match body.1 with
  | .lBracket :: rest => parseTyped fmt pool recurse desc depth (rest, body.2)
  | .ident name :: rest | .raw name :: rest =>
    parseField fmt pool recurse desc depth name (rest, body.2)
  | tok :: _ =>
    .err (.syntaxError ("unexpected token in message body: " ++ String.ofList (tok.debug fmt)))
  | [] => .ok body

def depthExceeded : TextError :=
  .recursionLimit ("text nesting exceeds max_depth " ++ toString opts.maxDepth)

/-- `parse_message_body` for a new message. -/
def parseBody (depth : Nat) (desc : DescriptorProto) (toks : List Tok) : TextResult Body :=
  if depth > opts.maxDepth then .err (depthExceeded opts)
  else loop bodyMore (bodyStep fmt pool recurse desc depth) toks.length (toks, DynMsg.new desc pool)

end Bodies

section Messages

variable (fmt : Formatting) (pool : DescriptorPool) (opts : TextOptions)

/-- Every nested body lies deeper, so that no more than `maxDepth + 1` are nested. -/
def parseMessageBody : Nat → Nat → DescriptorProto → List Tok → TextResult Body
  | 0 => fun _ _ _ => .err (depthExceeded opts)
  | left + 1 => parseBody fmt pool opts (parseMessageBody left)

/-- The delimiters of the whole message are optional, and nothing behind it is read. -/
def textToMessage (desc : DescriptorProto) (input : String) : TextResult DynamicMessage := do
  let toks ← tokenize fmt input
  let toks := match toks with
    | .lBrace :: rest | .lAngle :: rest => rest
    | toks => toks
  let (_, msg) ← parseMessageBody fmt pool opts (opts.maxDepth + 1) 0 desc toks
  .ok msg

end Messages

end TptProto.Text
