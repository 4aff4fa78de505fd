import TptProto.Foundation.Reach
import TptProto.Language.Loops

/-! The calls of `parse_constant` that the parser makes, function by function. -/

namespace TptProto.Language

open TptProto.Foundation

/-- What a constant is parsed for. -/
inductive Caller where
  | option
  | aggregate
  | list
  deriving DecidableEq, Repr

/-- A call of `parse_constant`: how many others it is made from, and the parser at its start. -/
structure ConstantCall where
  caller : Caller
  level : Nat
  state : Parser

abbrev Calls := Parser → ConstantCall → Prop

namespace Parse

/-- A call of `parse_constant` and the calls that it makes itself. -/
def Called (caller : Caller) (level : Nat) (inner : Calls) : Calls :=
  fun p call => call = ⟨caller, level, p⟩ ∨ inner p call

/-- The calls of the passes of a loop. -/
def Loop.calls {α : Type} (l : Loop α) (passes : α → Language.Calls) (acc : α) : Language.Calls :=
  During l.more l.pass passes acc

section Constants

variable (text : DebugText)

def memberCalls (fuel : Nat) (value : Calls) : Calls :=
  After (parseOptionName fuel) (OnSome fun _ =>
    After (read Parser.peekKind) fun kind =>
      if kind = some .lBrace then value else After (expect text .colon) fun _ => value)

/-- The calls that `parse_constant` makes of itself. -/
def innerCalls : Nat → Nat → Calls
  | 0, _ => Silent
  | fuel + 1, level => After (read Parser.peek) (OnSome fun tok =>
    match tok.kind with
    | .lBrace => After advance fun _ => (Loop.aggregate text fuel).calls
        (OnSome fun _ => memberCalls text fuel
          (Called .aggregate (level + 1) (innerCalls fuel (level + 1)))) (some [])
    | .lBracket => After advance fun _ => (Loop.list text fuel).calls
        (fun _ => Called .list (level + 1) (innerCalls fuel (level + 1))) []
    | _ => Silent)

def valueCalls (fuel : Nat) : Calls := Called .option 0 (innerCalls text fuel 0)

def optionStmtCalls (fuel : Nat) : Calls :=
  After startSpan fun _ => After advance fun _ => After (parseOptionName fuel) (OnSome fun _ =>
    After (expect text .equals) fun _ => valueCalls text fuel)

def fieldOptionCalls (fuel : Nat) : Calls :=
  After (parseOptionName fuel) (OnSome fun name =>
    if name = "json_name" then Silent
    else After (expect text .equals) fun _ => valueCalls text fuel)

def fieldOptionsCalls (fuel : Nat) : Calls :=
  After (read Parser.peekKind) fun kind =>
    if kind = some .lBracket then
      After advance fun _ =>
        (Loop.fieldOptions text fuel).calls (fun _ => fieldOptionCalls text fuel) {}
    else Silent

end Constants

section Fields

variable (text : DebugText) (fuel : Nat)

def numberedCalls (message : String) : Calls :=
  After (expect text .equals) fun _ => After (parseNumber message) (OnSome fun _ =>
    fieldOptionsCalls text fuel)

def oneofFieldCalls : Calls :=
  After parseLabel fun _ => After (parseTypeRef fuel) (OnSome fun _ => After expectIdent (OnSome fun _ =>
    numberedCalls text fuel "expected field number"))

def fieldCalls : Calls := After startSpan fun _ => oneofFieldCalls text fuel

def oneofBodyCalls (span : Span) : Calls :=
  After (expect text .lBrace) fun _ =>
    (Loop.oneof text fuel span).calls (OnSome fun _ => oneofFieldCalls text fuel) (some [])

/-- One option may stand before the body of a oneof. -/
def oneofCalls : Calls :=
  After startSpan fun span => After advance fun _ => After expectIdent (OnSome fun _ =>
    After (read (·.atKeyword "option")) fun here =>
      if here then
        Then (optionStmtCalls text fuel) (parseOptionStmt text fuel) fun _ =>
          oneofBodyCalls text fuel span
      else oneofBodyCalls text fuel span)

def mapCalls : Calls :=
  After startSpan fun _ => After advance fun _ => After (expect text .lt) fun _ =>
    After (parseTypeRef fuel) (OnSome fun _ => After (expect text .comma) fun _ =>
      After (parseTypeRef fuel) (OnSome fun _ => After (expect text .gt) fun _ =>
        After expectIdent (OnSome fun _ => numberedCalls text fuel "expected field number")))

def extendCalls : Calls :=
  After startSpan fun _ => After advance fun _ => After expectIdent (OnSome fun _ =>
    After (expect text .lBrace) fun _ => (Loop.extend text fuel).calls (fun _ =>
      After (read (·.atKeyword "option")) fun here =>
        if here then optionStmtCalls text fuel else fieldCalls text fuel) ([], []))

def enumItemCalls : Calls :=
  After (read (·.atKeyword "option")) fun here =>
    if here then optionStmtCalls text fuel
    else After (read (·.atKeyword "reserved")) fun here =>
      if here then Silent
      else After (read Parser.identText) fun name =>
        if name.isSome then
          After expectIdent (OnSome fun _ => numberedCalls text fuel "expected enum value number")
        else Silent

def enumCalls : Calls :=
  After (enumHeader text) (OnSome fun start =>
    (Loop.enum text fuel).calls (OnSome fun _ => enumItemCalls text fuel) (some start))

end Fields

section Messages

variable (text : DebugText)

def messageItemCalls (nested : Bool → Calls) (fuel : Nat) : Calls :=
  After (read (·.atKeyword "option")) fun here => if here then optionStmtCalls text fuel else
  After (read (·.atKeyword "message")) fun here => if here then nested false else
  After (read (·.atKeyword "enum")) fun here => if here then enumCalls text fuel else
  After (read (·.atKeyword "oneof")) fun here => if here then oneofCalls text fuel else
  After (read (·.atKeyword "map")) fun here => if here then mapCalls text fuel else
  After (read (·.atKeyword "reserved")) fun here => if here then Silent else
  After (read (·.atKeyword "extensions")) fun here => if here then Silent else
  After (read (·.atKeyword "extend")) fun here => if here then extendCalls text fuel else
  After (read (·.atKeyword "group")) fun here => if here then nested true else
  After (read fun p => p.isScalarKeyword || p.peekKind = some .dot || p.identText.isSome) fun here =>
    if here then fieldCalls text fuel else Silent

def messageCalls : Nat → Bool → Calls
  | 0, _ => Silent
  | fuel + 1, isGroup => fun p =>
    if maxProtoNesting ≤ p.depth then Silent p
    else After (messageHeader text isGroup) (OnSome fun start =>
      (Loop.message text fuel (parseMessage text fuel)).calls (fun _ =>
        messageItemCalls text (messageCalls fuel) fuel) start) { p with depth := p.depth + 1 }

end Messages

section Files

variable (text : DebugText) (fuel : Nat)

/-- The calls after a keyword that may be left out. -/
def AfterWord (word : String) (next : Calls) : Calls :=
  After (read (·.atKeyword word)) fun here => if here then After advance fun _ => next else next

def methodCalls : Calls :=
  After startSpan fun _ => After advance fun _ => After expectIdent (OnSome fun _ =>
    After (expect text .lParen) fun _ => AfterWord "stream" <|
    After (parseTypeRef fuel) (OnSome fun _ => After (expect text .rParen) fun _ =>
      After (read (·.atKeyword "returns")) fun here => if !here then Silent else
      After advance fun _ => After (expect text .lParen) fun _ => AfterWord "stream" <|
      After (parseTypeRef fuel) (OnSome fun _ => After (expect text .rParen) fun _ =>
        After (read Parser.peekKind) fun kind =>
          if kind = some .lBrace then
            After advance fun _ =>
              (Loop.methodOptions text fuel).calls (fun _ => optionStmtCalls text fuel) []
          else Silent)))

def serviceItemCalls : Calls :=
  After (read (·.atKeyword "option")) fun here => if here then optionStmtCalls text fuel else
  After (read (·.atKeyword "rpc")) fun here => if here then methodCalls text fuel else Silent

def serviceCalls : Calls :=
  After startSpan fun _ => After advance fun _ => After expectIdent (OnSome fun _ =>
    After (expect text .lBrace) fun _ =>
      (Loop.service text fuel).calls (fun _ => serviceItemCalls text fuel) ([], []))

def fileItemCalls : Calls :=
  After (read (·.atKeyword "syntax")) fun here => if here then Silent else
  After (read (·.atKeyword "edition")) fun here => if here then Silent else
  After (read (·.atKeyword "package")) fun here => if here then Silent else
  After (read (·.atKeyword "import")) fun here => if here then Silent else
  After (read (·.atKeyword "option")) fun here => if here then optionStmtCalls text fuel else
  After (read (·.atKeyword "message")) fun here => if here then messageCalls text fuel false else
  After (read (·.atKeyword "enum")) fun here => if here then enumCalls text fuel else
  After (read (·.atKeyword "service")) fun here => if here then serviceCalls text fuel else
  After (read (·.atKeyword "extend")) fun here => if here then extendCalls text fuel else Silent

/-- The calls of `parse_constant` in parsing a file. -/
def fileCalls : Calls := fun p =>
  (Loop.file text fuel).calls (fun _ => fileItemCalls text fuel) { name := p.name } p

end Files

end Parse

end TptProto.Language
