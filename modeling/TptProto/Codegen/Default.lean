import Mathlib.Data.List.DropRight
import TptProto.Codegen.TypeMap

/-! The expressions that the generated `Default` gives to the fields of a message. -/

namespace TptProto.Codegen

open TptProto.Foundation TptProto.Core TptProto.Descriptor

section Unescape

/-- `str::trim_matches('"')`. -/
def trimQuotes (text : List Char) : List Char :=
  (text.dropWhile (· = '"')).rdropWhile (· = '"')

/-- What `unescape_bytes` makes of a character behind a backslash, apart from `x`. Any character
without a meaning of its own is cut down to a byte. -/
def unescapedByte (c : Char) : UInt8 :=
  if c = 'n' then 0x0A
  else if c = 't' then 0x09
  else if c = 'r' then 0x0D
  else if c = '0' then 0
  else UInt8.ofNat c.toNat

/-- `unescape_bytes`. Up to two characters behind `x` that are no number are dropped. -/
def unescapeBytes : List Char → List UInt8
  | [] => []
  | [c] => if c = '\\' then [] else encode [c]
  | c :: e :: rest =>
    if c = '\\' then
      if e = 'x' then
        ((Hex.parse 256 (rest.take 2)).map UInt8.ofNat).toList ++ unescapeBytes (rest.drop 2)
      else unescapedByte e :: unescapeBytes rest
    else encode [c] ++ unescapeBytes (e :: rest)
termination_by text => text.length

end Unescape

section Literal

/-- An expression for the value of a field: `Default::default()`, `None`, an empty map, the path of an
enum's variant, a string in the debug format, which is a literal for it, `vec![..]`, the default's
text itself, or that text parsed at run time, a double being cast to the type. -/
inductive DefaultExpr where
  | default
  | none
  | newMap
  | variant (path name : String)
  | str (text : String)
  | vec (bytes : List UInt8)
  | plain (text : String)
  | float (text : String) (type : Option Prim)
  | parsed (text : String) (type : Option Prim)
  deriving DecidableEq, Repr

/-- The bytes of the string or the vector that an expression is a literal for. -/
def DefaultExpr.bytes? : DefaultExpr → Option (List UInt8)
  | .str text => some (asBytes text)
  | .vec bytes => some bytes
  | _ => Option.none

variable (typeMap : List (String × String))

/-- `default_literal`. -/
def defaultLiteral (f : FieldDescriptorProto) (ty : TyRef) : DefaultExpr :=
  match f.defaultValue with
  | none => .default
  | some dv =>
    match ty with
    | .enum e =>
      .variant ((SortedMap.get? typeMap e).getD (toRustTypeName e))
        (String.ofList (toPascal dv.toList))
    | .message _ => .default
    | .scalar .string => .str (String.ofList (trimQuotes dv.toList))
    | .scalar .bytes => .vec (unescapeBytes (trimQuotes dv.toList))
    | .scalar .bool => .plain dv
    | .scalar .float => .float dv (scalarRust .float)
    | .scalar .double => .float dv (scalarRust .double)
    | .scalar t => .parsed dv (scalarRust t)

/-- What `gen_default_impl` writes for a field, if anything. -/
def defaultInit (schema : Schema) (f : FieldDescriptorProto) : Option DefaultExpr :=
  if f.extendee.isSome then none
  else if f.oneofIndex.isSome then some .none
  else if isMapField schema f then some .newMap
  else
    match TyRef.fromField f with
    | none => some .default
    | some ty => some (defaultLiteral typeMap f ty)

variable {typeMap} {schema : Schema} {f : FieldDescriptorProto} {text : String}

/-- A string field by itself gets the literal of its default. -/
theorem defaultInit_string (declared : f.extendee = none) (alone : f.oneofIndex = none)
    (type : f.type = some .string) (given : f.defaultValue = some text) :
    defaultInit typeMap schema f = some (.str (String.ofList (trimQuotes text.toList))) := by
  unfold defaultInit isMapField TyRef.fromField defaultLiteral
  simp [declared, alone, type, given]

theorem defaultInit_bytes (declared : f.extendee = none) (alone : f.oneofIndex = none)
    (type : f.type = some .bytes) (given : f.defaultValue = some text) :
    defaultInit typeMap schema f = some (.vec (unescapeBytes (trimQuotes text.toList))) := by
  unfold defaultInit isMapField TyRef.fromField defaultLiteral
  simp [declared, alone, type, given]

end Literal

section Lengths

variable {text : List Char}

theorem trimQuotes_split (text : List Char) :
    ∃ front back, text = front ++ trimQuotes text ++ back := by
  obtain ⟨front, same⟩ := List.dropWhile_suffix (l := text) fun c => decide (c = '"')
  obtain ⟨back, same'⟩ := List.rdropWhile_prefix (fun c => decide (c = '"'))
    (text.dropWhile fun c => decide (c = '"'))
  refine ⟨front, back, ?_⟩
  rw [List.append_assoc]
  exact (same.symm.trans (congrArg (front ++ ·) same'.symm))

/-- A text stays as it is if and only if it has no quotes at its ends. -/
theorem trimQuotes_eq_self_iff :
    trimQuotes text = text ↔ text.head? ≠ some '"' ∧ text.getLast? ≠ some '"' := by
  have first : text.dropWhile (fun c => decide (c = '"')) = text ↔ text.head? ≠ some '"' := by
    cases text with
    | nil => simp
    | cons c rest => simp [List.dropWhile_eq_self_iff]
  have last : text.rdropWhile (fun c => decide (c = '"')) = text ↔ text.getLast? ≠ some '"' := by
    rw [List.rdropWhile_eq_self_iff]
    constructor
    · intro plain quote
      have nonempty : text ≠ [] := by
        rintro rfl
        cases quote
      rw [List.getLast?_eq_some_getLast nonempty] at quote
      exact plain nonempty (decide_eq_true (Option.some.inj quote))
    · intro plain nonempty quote
      rw [List.getLast?_eq_some_getLast nonempty] at plain
      exact plain (congrArg some (of_decide_eq_true quote))
  constructor
  · intro same
    have behind := List.dropWhile_suffix (l := text) fun c => decide (c = '"')
    have within := List.rdropWhile_prefix (fun c => decide (c = '"'))
      (text.dropWhile fun c => decide (c = '"'))
    have front : text.dropWhile (fun c => decide (c = '"')) = text := by
      refine behind.eq_of_length_le ?_
      have shorter := within.length_le
      rw [trimQuotes] at same
      rwa [same] at shorter
    rw [trimQuotes, front] at same
    exact ⟨first.mp front, last.mp same⟩
  · rintro ⟨plain, plain'⟩
    rw [trimQuotes, first.mpr plain, last.mpr plain']

/-- Trimming shortens a text with a quote at one of its ends. -/
theorem trimQuotes_length (text : List Char) :
    (encode (trimQuotes text)).length ≤ (encode text).length ∧
      ((encode (trimQuotes text)).length = (encode text).length → trimQuotes text = text) := by
  obtain ⟨front, back, same⟩ := trimQuotes_split text
  have lengths := congrArg (fun text => (encode text).length) same
  simp only [encode_append, List.length_append] at lengths
  refine ⟨by omega, fun equal => ?_⟩
  have noFront : front = [] := @encode_inj front [] (List.length_eq_zero_iff.mp (by omega))
  have noBack : back = [] := @encode_inj back [] (List.length_eq_zero_iff.mp (by omega))
  rw [noFront, noBack, List.nil_append, List.append_nil] at same
  exact same.symm

private theorem one_le_utf8EncodeChar (c : Char) : 1 ≤ (String.utf8EncodeChar c).length := by
  rw [String.length_utf8EncodeChar]
  exact Char.utf8Size_pos c

theorem unescapeBytes_cons {c : Char} (plain : c ≠ '\\') (rest : List Char) :
    unescapeBytes (c :: rest) = encode [c] ++ unescapeBytes rest := by
  cases rest with
  | nil => simp [unescapeBytes, plain]
  | cons e rest => rw [unescapeBytes, if_neg plain]

theorem unescapeBytes_plain (plain : '\\' ∉ text) : unescapeBytes text = encode text := by
  induction text with
  | nil => simp [unescapeBytes]
  | cons c rest ih =>
    rw [List.mem_cons, not_or] at plain
    rw [unescapeBytes_cons (Ne.symm plain.1), ih plain.2, ← encode_append, List.singleton_append]

/-- What escapes stand for is no longer than they are, and shorter if there is one. -/
theorem unescapeBytes_length (text : List Char) :
    (unescapeBytes text).length ≤ (encode text).length ∧
      ('\\' ∈ text → (unescapeBytes text).length < (encode text).length) := by
  have backslash : (String.utf8EncodeChar '\\').length = 1 := rfl
  induction text using unescapeBytes.induct with
  | case1 => simp [unescapeBytes]
  | case2 => simp [unescapeBytes, backslash]
  | case3 c plain =>
    rw [unescapeBytes, if_neg plain]
    exact ⟨Nat.le_refl _, fun member => absurd (List.mem_singleton.mp member).symm plain⟩
  | case4 rest ih =>
    have letter : (String.utf8EncodeChar 'x').length = 1 := rfl
    have one : ((Hex.parse 256 (rest.take 2)).map UInt8.ofNat).toList.length ≤ 1 := by
      cases Hex.parse 256 (rest.take 2) with
      | none => exact Nat.zero_le 1
      | some v => exact Nat.le_refl 1
    have longer : (encode (rest.drop 2)).length ≤ (encode rest).length := by
      have split := congrArg (fun rest => (encode rest).length) (List.take_append_drop 2 rest)
      simp only [encode_append, List.length_append] at split
      omega
    rw [unescapeBytes, if_pos rfl, if_pos rfl, List.length_append, encode_cons, encode_cons,
      List.length_append, List.length_append, backslash, letter]
    have shorter := ih.1
    exact ⟨by omega, fun _ => by omega⟩
  | case5 c rest other ih =>
    have positive := one_le_utf8EncodeChar c
    have shorter := ih.1
    rw [unescapeBytes, if_pos rfl, if_neg other, List.length_cons, encode_cons, encode_cons,
      List.length_append, List.length_append, backslash]
    exact ⟨by omega, fun _ => by omega⟩
  | case6 c e rest plain ih =>
    rw [unescapeBytes_cons plain, encode_cons, encode_cons, encode_nil, List.append_nil,
      List.length_append, List.length_append]
    refine ⟨Nat.add_le_add_left ih.1 _, fun member => ?_⟩
    have later := (List.mem_cons.mp member).resolve_left (Ne.symm plain)
    exact Nat.add_lt_add_left (ih.2 later) _

/-- The literal of a string denotes the text if and only if there are no quotes to trim. -/
theorem trimmed_eq_iff :
    encode (trimQuotes text) = encode text ↔ text.head? ≠ some '"' ∧ text.getLast? ≠ some '"' := by
  rw [← trimQuotes_eq_self_iff]
  constructor
  · intro same
    exact encode_inj same
  · intro same
    rw [same]

/-- The literal of bytes denotes the text if and only if there are no quotes to trim and no escapes. -/
theorem unescaped_eq_iff :
    unescapeBytes (trimQuotes text) = encode text ↔
      (text.head? ≠ some '"' ∧ text.getLast? ≠ some '"') ∧ '\\' ∉ text := by
  rw [← trimQuotes_eq_self_iff]
  constructor
  · intro same
    obtain ⟨shorter, strict⟩ := unescapeBytes_length (trimQuotes text)
    obtain ⟨trimmed, whole⟩ := trimQuotes_length text
    rw [same] at shorter strict
    have untrimmed := whole (Nat.le_antisymm trimmed shorter)
    refine ⟨untrimmed, fun member => ?_⟩
    rw [untrimmed] at strict
    exact Nat.lt_irrefl _ (strict member)
  · rintro ⟨untrimmed, plain⟩
    rw [untrimmed, unescapeBytes_plain plain]

end Lengths

end TptProto.Codegen
