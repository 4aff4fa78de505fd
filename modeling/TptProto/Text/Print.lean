import TptProto.Foundation.Decimal
import TptProto.Foundation.Ieee
import TptProto.Foundation.Loop
import TptProto.Foundation.SortedMap
import TptProto.Reflect.Value

/-! Tokens, options and errors of the text format, and what it takes from the host's formatting. -/

namespace TptProto.Text

open TptProto.Foundation TptProto.Core TptProto.Descriptor TptProto.Reflect

inductive TextError where
  | lex (offset : UInt32) (text : String)
  | syntaxError (text : String)
  | unknown (what : String)
  | value (field text : String)
  | recursionLimit (text : String)
  deriving DecidableEq, Repr

abbrev TextResult := Outcome TextError

structure TextOptions where
  useBraces : Bool := false
  useFieldNumbers : Bool := false
  deterministic : Bool := false
  maxDepth : Nat := 100
  deriving DecidableEq, Repr

/-- The host's tables and its conversion of doubles: the characters that `{:?}` writes by their
code points, `to_string`, `{:?}` and `parse` for `f64`. -/
structure Formatting where
  byCodePoint : Char → Bool
  showFloat : UInt64 → List Char
  debugFloat : UInt64 → List Char
  parseFloat : String → Option UInt64

/-- Formatting for closed instances: ASCII, and the doubles zero, one and one half. -/
def sampleFormatting : Formatting where
  byCodePoint c := c.toNat < 32 || c.toNat ≥ 127
  showFloat bits :=
    if bits = 0 then "0".toList else if bits = 0x3FF0000000000000 then "1".toList
    else "0.5".toList
  debugFloat bits :=
    if bits = 0 then "0.0".toList else if bits = 0x3FF0000000000000 then "1.0".toList
    else "0.5".toList
  parseFloat s := if s = "0.5" then some 0x3FE0000000000000 else none

inductive Tok where
  | ident (s : String)
  | str (s : String)
  | int (n : Int64)
  | uint (n : UInt64)
  | float (bits : UInt64)
  | raw (s : String)
  | colon
  | comma
  | lBrace
  | rBrace
  | lAngle
  | rAngle
  | lBracket
  | rBracket
  deriving DecidableEq, Repr

section Debug

variable (fmt : Formatting)

/-- `\u{..}` with the code point in hexadecimal. -/
def codePointEscape (c : Char) : List Char :=
  ['\\', 'u', '\x7b'] ++ Nat.toDigits 16 c.toNat ++ ['\x7d']

/-- How `{:?}` writes a character between quotes. -/
def escapeDebug (quote c : Char) : List Char :=
  if c = '\x00' then ['\\', '0']
  else if c = '\t' then ['\\', 't']
  else if c = '\r' then ['\\', 'r']
  else if c = '\n' then ['\\', 'n']
  else if c = '\\' ∨ c = quote then ['\\', c]
  else if fmt.byCodePoint c then codePointEscape c
  else [c]

def debugStr (s : String) : List Char := '"' :: s.toList.flatMap (escapeDebug fmt '"') ++ ['"']

def debugChar (c : Char) : List Char := '\'' :: escapeDebug fmt '\'' c ++ ['\'']

def Tok.debug : Tok → List Char
  | .ident s => "Ident(".toList ++ debugStr fmt s ++ [')']
  | .str s => "Str(".toList ++ debugStr fmt s ++ [')']
  | .int n => "Int(".toList ++ (toString n.toInt).toList ++ [')']
  | .uint n => "Uint(".toList ++ (toString n.toNat).toList ++ [')']
  | .float bits => "Float(".toList ++ fmt.debugFloat bits ++ [')']
  | .raw s => "Raw(".toList ++ debugStr fmt s ++ [')']
  | .colon => "Colon".toList
  | .comma => "Comma".toList
  | .lBrace => "LBrace".toList
  | .rBrace => "RBrace".toList
  | .lAngle => "LAngle".toList
  | .rAngle => "RAngle".toList
  | .lBracket => "LBracket".toList
  | .rBracket => "RBracket".toList

/-- `{:?}` of what was read, if anything was. -/
def debugRead : Option Tok → String
  | some tok => String.ofList ("Some(".toList ++ tok.debug fmt ++ [')'])
  | none => "None"

end Debug

/-- A repeated message field whose descriptor is flagged as a map entry. -/
def isMapField (pool : DescriptorPool) (field : FieldDescriptorProto) : Bool :=
  field.label = some .repeated && field.type = some .message &&
    ((field.typeName.bind pool.lookupMessage).map isMapEntry).getD false

/-- The descriptor of a nested message, empty if the pool has none. -/
def subDescriptor (pool : DescriptorPool) (field : FieldDescriptorProto) : DescriptorProto :=
  (pool.lookupMessage (field.typeName.getD "")).getD {}

end TptProto.Text

/-! Dynamic messages to text. -/

namespace TptProto.Text

open TptProto.Foundation TptProto.Core TptProto.Descriptor TptProto.Reflect

section Scalars

/-- The order of the doubles, in which NaNs compare with nothing. -/
def floatCmp (x y : UInt64) : Option Ordering :=
  let isNan (bits : UInt64) : Bool := bits.toNat % 2 ^ 63 > 0x7FF0000000000000
  let rank (bits : UInt64) : Int :=
    if bits.toNat < 2 ^ 63 then bits.toNat else -((bits.toNat - 2 ^ 63 : Nat) : Int)
  if isNan x || isNan y then none else some (compare (rank x) (rank y))

def keyRank : Value → Nat
  | .scalar (.string _) => 0
  | .scalar (.bytes _) => 1
  | .scalar (.bool _) => 2
  | .scalar (.i64 _) => 3
  | .scalar (.u64 _) => 4
  | .scalar (.f64 _) => 5
  | _ => 6

def bytesCmp : List UInt8 → List UInt8 → Ordering
  | [], [] => .eq
  | [], _ :: _ => .lt
  | _ :: _, [] => .gt
  | x :: xs, y :: ys => (compare x y).then (bytesCmp xs ys)

/-- Map keys compare by their kinds first, then by their values. -/
def mapKeyCmp (a b : Value) : Ordering :=
  if keyRank a ≠ keyRank b then compare (keyRank a) (keyRank b)
  else
    match a, b with
    | .scalar (.string x), .scalar (.string y) => compare x y
    | .scalar (.bytes x), .scalar (.bytes y) => bytesCmp x y
    | .scalar (.bool x), .scalar (.bool y) => compare x y
    | .scalar (.i64 x), .scalar (.i64 y) => compare x.toInt y.toInt
    | .scalar (.u64 x), .scalar (.u64 y) => compare x y
    | .scalar (.f64 x), .scalar (.f64 y) => (floatCmp x y).getD .eq
    | _, _ => .eq

variable (fmt : Formatting)

def printScalarInline : Value → List Char
  | .scalar (.string s) => debugStr fmt s
  | .scalar (.bytes b) => ['0', 'x'] ++ b.flatMap Hex.byteDigits
  | .scalar (.bool b) => (if b then "true" else "false").toList
  | .scalar (.f64 x) =>
    if Ieee.Finite x then fmt.showFloat x
    else if x.toNat % 2 ^ 52 ≠ 0 then "nan".toList
    else if x.toNat < 2 ^ 63 then "inf".toList
    else "-inf".toList
  | .scalar (.i64 x) => (toString x.toInt).toList
  | .scalar (.u64 x) => (toString x.toNat).toList
  | .enum n => (toString n.toInt).toList
  | .message _ | .list _ | .map _ => ['?']

end Scalars

section Messages

variable (fmt : Formatting) (pool : DescriptorPool) (opts : TextOptions)

/-- What prints a value: under the name of a field, and as a value of a map. -/
structure Printer where
  value : FieldDescriptorProto → List Char → Nat → List Char
  mapValue : FieldDescriptorProto → Nat → List Char

def pad (indent : Nat) : List Char := List.replicate (2 * indent) ' '

/-- The fields in the order in which they are printed. -/
def printedFields (desc : DescriptorProto) : List FieldDescriptorProto :=
  let fields := desc.field.filter fun f => f.extendee.isNone
  if opts.deterministic then fields.mergeSort fun f g => f.number.getD 0 ≤ g.number.getD 0
  else fields

def printedName (field : FieldDescriptorProto) : List Char :=
  if opts.useFieldNumbers then (toString (field.number.getD 0).toInt).toList
  else (field.name.getD "").toList

def printMessage (fields : List (Int32 × Printer)) (desc : DescriptorProto) (indent : Nat) :
    List Char :=
  [if opts.useBraces then '\x7b' else '<', '\n'] ++
    ((printedFields opts desc).flatMap fun field =>
      match SortedMap.get? fields (field.number.getD 0) with
      | some printer => printer.value field (printedName opts field) (indent + 1)
      | none => []) ++
    pad indent ++ [if opts.useBraces then '\x7d' else '>', '\n']

def sortedEntries (entries : List (Value × α)) : List (Value × α) :=
  if opts.deterministic then entries.mergeSort fun a b => (mapKeyCmp a.1 b.1).isLE else entries

def printEntry (field : FieldDescriptorProto) (name : List Char) (indent : Nat)
    (entry : Value × Printer) : List Char :=
  pad indent ++ name ++ [' ', '\x7b', '\n'] ++
    pad (indent + 1) ++ "key: ".toList ++ printScalarInline fmt entry.1 ++ ['\n'] ++
    pad (indent + 1) ++ "value: ".toList ++ entry.2.mapValue field (indent + 1) ++ ['\n'] ++
    pad indent ++ ['\x7d', '\n']

/-- The type of a map's messages; if that is missing, the type of its entries. -/
def mapValueDescriptor (field : FieldDescriptorProto) : DescriptorProto :=
  let declared : Option DescriptorProto := do
    let entry ← field.typeName.bind pool.lookupMessage
    let vf ← entry.findFieldByNumber 2
    vf.typeName.bind pool.lookupMessage
  declared.getD (subDescriptor pool field)

/-- A scalar or enum value; nothing follows the name of a message field. -/
def scalarPrinter (value : Value) : Printer where
  value field name indent :=
    let t := field.type.getD .string
    if t = .message ∨ t = .group then pad indent ++ name ++ [' ']
    else pad indent ++ name ++ [':', ' '] ++ printScalarInline fmt value ++ ['\n']
  mapValue _ _ := printScalarInline fmt value

mutual

/-- `print_value` and `print_map_value`, as functions of the value. -/
def printer : Value → Printer
  | .list items =>
    let printers := itemPrinters items
    { value := fun field name indent => printers.flatMap fun p => p.value field name indent
      mapValue := fun _ _ => ['?'] }
  | .map entries =>
    let printers := entryPrinters entries
    { value := fun field name indent =>
        (sortedEntries opts printers).flatMap (printEntry fmt field name indent)
      mapValue := fun _ _ => ['?'] }
  | .message dm =>
    let print := messagePrinter dm
    { value := fun field name indent =>
        pad indent ++ name ++ [' '] ++ print (subDescriptor pool field) indent
      mapValue := fun field indent => print (mapValueDescriptor pool field) indent }
  | .enum n => scalarPrinter fmt (.enum n)
  | .scalar s => scalarPrinter fmt (.scalar s)

def messagePrinter : DynMsg Value → DescriptorProto → Nat → List Char
  | ⟨_, fields, _, _, _⟩ => printMessage opts (fieldPrinters fields)

def fieldPrinters : List (Int32 × Value) → List (Int32 × Printer)
  | [] => []
  | (number, value) :: rest => (number, printer value) :: fieldPrinters rest

def itemPrinters : List Value → List Printer
  | [] => []
  | item :: rest => printer item :: itemPrinters rest

def entryPrinters : List (Value × Value) → List (Value × Printer)
  | [] => []
  | (key, value) :: rest => (key, printer value) :: entryPrinters rest

end

def messageToText (desc : DescriptorProto) (msg : DynamicMessage) : String :=
  String.ofList (messagePrinter fmt pool opts msg desc 0)

end Messages

end TptProto.Text
