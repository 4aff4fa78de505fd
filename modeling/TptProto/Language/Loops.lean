import TptProto.Language.Statements

/-! The loops of the parser: when each goes on, and what one pass does. -/

namespace TptProto.Language

open TptProto.Foundation

namespace Parse

structure Loop (α : Type) where
  more : α → Parser → Bool
  pass : α → Parse α

namespace Loop

variable {α : Type}

def run (l : Loop α) (fuel : Nat) (acc : α) : Parse α := repeatWhile l.more l.pass fuel acc

/-- A loop that its pass may leave with `return None`. -/
def leaving (more : Parser → Bool) (pass : α → Parse (Option α)) : Loop (Option α) where
  more acc p := acc.isSome && more p
  pass acc := match acc with
    | some acc => pass acc
    | none => pure none

def recover : Loop Unit where
  more _ p := p.peek.isSome && p.peekKind ≠ some .semicolon && p.peekKind ≠ some .rBrace
  pass _ := discard advance

def dotted : Loop String where
  more _ p := p.peekKind = some .dot
  pass name := do
    let _ ← advance
    match ← expectIdent with
    | some i => return name ++ "." ++ i.name
    | none => return name ++ "."

def extensionName : Loop (String × Bool) where
  more acc p := acc.2 && p.peek.isSome
  pass acc := do
    match ← read Parser.peekKind with
    | some (.ident s) =>
      let _ ← advance
      return (acc.1 ++ s, true)
    | some .dot =>
      let _ ← advance
      return (acc.1 ++ ".", true)
    | some .rParen =>
      let _ ← advance
      return (acc.1 ++ ")", false)
    | _ => return (acc.1, false)

/-- The parts of a type's name after the first. -/
def typeName : Loop (Option String) :=
  leaving (fun p => p.peekKind = some .dot) fun name => do
    let _ ← advance
    let some i ← expectIdent | return none
    return some (name ++ "." ++ i.name)

def package : Loop (Ident × Bool) where
  more acc p := acc.2 && p.peekKind = some .dot
  pass acc := do
    let _ ← advance
    match ← expectIdent with
    | some segment => return ({ acc.1 with name := acc.1.name ++ "." ++ segment.name }, true)
    | none => return ({ acc.1 with name := acc.1.name ++ "." }, false)

def ranges : Loop (List IntRange × Bool) := ⟨fun acc _ => acc.2, parseRange⟩

def reservedNames (spanOf : Parser → Span) : Loop (List Ident × Bool) where
  more acc p := acc.2 && p.peekStr.isSome
  pass acc := do
    match ← read Parser.peekStr with
    | some s =>
      let _ ← advance
      let names := acc.1 ++ [⟨s, ← read spanOf⟩]
      if (← read Parser.peekKind) = some .comma then
        let _ ← advance
        return (names, true)
      else return (names, false)
    | none => return acc

def skipped : Loop (Int × Bool) where
  more acc p := acc.2 && p.peek.isSome
  pass acc := do
    match ← read Parser.peekKind with
    | some .lBrace =>
      let _ ← advance
      return (acc.1 + 1, true)
    | some .rBrace =>
      let _ ← advance
      return (acc.1 - 1, 0 < acc.1 - 1)
    | _ =>
      let _ ← advance
      return acc

section Calling

variable (text : DebugText) (fuel : Nat)

/-- The members of an aggregate constant. -/
def aggregate : Loop (Option (List (String × Constant))) :=
  leaving (fun p => p.before .rBrace) fun fields => do
    let some key ← parseOptionName fuel | return none
    if (← read Parser.peekKind) = some .lBrace then
      let some val ← parseConstant text fuel | return none
      return some (fields ++ [(key, val)])
    else
      let _ ← expect text .colon
      let some val ← parseConstant text fuel | return none
      let _ ← expect text .semicolon
      return some (fields ++ [(key, val)])

/-- The items of a list constant. -/
def list : Loop (List Constant) where
  more _ p := p.before .rBracket
  pass items := do
    let items := pushTo items (← parseConstant text fuel)
    if (← read Parser.peekKind) = some .comma then
      let _ ← advance
    return items

def fieldOptions : Loop FieldOptions where
  more _ p := p.before .rBracket
  pass acc := do
    let acc ← parseFieldOption text fuel acc
    if (← read Parser.peekKind) = some .comma then
      let _ ← advance
    return acc

def oneof (span : Span) : Loop (Option (List Field)) :=
  leaving (fun p => p.before .rBrace) fun fields => do
    let some field ← parseOneofField text fuel span | return none
    return some (fields ++ [field])

def extend : Loop (List Field × List ProtoOption) where
  more _ p := p.before .rBrace
  pass acc := do
    if ← read (·.atKeyword "option") then
      return (acc.1, pushTo acc.2 (← parseOptionStmt text fuel))
    else
      match ← parseField text fuel with
      | some f => return (acc.1 ++ [f], acc.2)
      | none =>
        Parse.recover fuel
        return acc

def enum : Loop (Option Enum) := leaving (fun p => p.before .rBrace) (enumItem text fuel)

def message (parseMessage : Bool → Parse (Option Message)) : Loop Message where
  more _ p := p.before .rBrace
  pass := messageItem text parseMessage fuel

def methodOptions : Loop (List ProtoOption) where
  more _ p := p.before .rBrace
  pass options := do
    match ← parseOptionStmt text fuel with
    | some o => return options ++ [o]
    | none =>
      let _ ← advance
      return options

def service : Loop (List Method × List ProtoOption) where
  more _ p := p.before .rBrace
  pass acc := do
    if ← read (·.atKeyword "option") then
      return (acc.1, pushTo acc.2 (← parseOptionStmt text fuel))
    else if ← read (·.atKeyword "rpc") then
      orRecover fuel (parseMethod text fuel) acc fun m => (acc.1 ++ [m], acc.2)
    else
      let keyword := (← read Parser.identText).getD ""
      errorHere .unexpectedToken ("unexpected token in service body: '" ++ keyword ++ "'")
      let _ ← advance
      return acc

def file : Loop File where
  more _ p := p.peek.isSome
  pass := fileItem text fuel

end Calling

end Loop

section Equations

variable (text : DebugText) (fuel : Nat)

theorem parseConstant_eq : parseConstant text (fuel + 1) = (do
    let some tok ← read Parser.peek | return none
    match tok.kind with
    | .int v =>
      let _ ← advance
      return some (.int v)
    | .float v =>
      let _ ← advance
      return some (.float v)
    | .str s =>
      let _ ← advance
      return some (.string s)
    | .ident s =>
      let _ ← advance
      if s = "true" then return some (.bool true)
      else if s = "false" then return some (.bool false)
      else return some (.ident s)
    | .lBrace =>
      let _ ← advance
      let some fields ← (Loop.aggregate text fuel).run fuel (some []) | return none
      let _ ← expect text .rBrace
      return some (.aggregate fields)
    | .lBracket =>
      let _ ← advance
      let items ← (Loop.list text fuel).run fuel []
      let _ ← expect text .rBracket
      return some (.list items)
    | _ =>
      error .invalidOption "expected a constant value" (some tok.span)
      return none) := rfl

theorem recover_eq : recover fuel = Loop.recover.run fuel () := rfl

theorem dottedRest_eq (name : String) : dottedRest fuel name = Loop.dotted.run fuel name := rfl

theorem extensionName_eq :
    extensionName fuel = (do return (← Loop.extensionName.run fuel ("(", true)).1) := rfl

theorem parseTypeRef_named_eq (tok : Token) : parseTypeRef.named fuel tok = (do
    let rooted := (← read Parser.peekKind) = some .dot
    if rooted then
      let _ ← advance
    let some first ← expectIdent | return none
    let some name ← Loop.typeName.run fuel (some (if rooted then "." ++ first.name else first.name))
      | return none
    let next ← read Parser.peekSpan
    return some (.named ⟨name, ⟨tok.span.start, (next.getD tok.span).stop⟩⟩)) := rfl

theorem packageRest_eq (name : Ident) :
    packageRest fuel name = (do return (← Loop.package.run fuel (name, true)).1) := rfl

theorem parseRanges_eq :
    parseRanges fuel = (do return (← Loop.ranges.run fuel ([], true)).1) := rfl

theorem parseReservedNames_eq (spanOf : Parser → Span) (names : List Ident) :
    parseReservedNames spanOf fuel names =
      (do return (← (Loop.reservedNames spanOf).run fuel (names, true)).1) := rfl

theorem skipBalancedBlock_eq :
    skipBalancedBlock fuel = discard (Loop.skipped.run fuel (0, true)) := rfl

end Equations

end Parse

end TptProto.Language
