import TptProto.Compiler.Restrictions
import TptProto.Compiler.Unique
import TptProto.Json.Scalar
import TptProto.Language.Spelling

/-! The names in JSON of a compiled message's fields, against those written in its source. -/

namespace TptProto.Json

open TptProto.Foundation TptProto.Descriptor TptProto.Language TptProto.Compiler

section Statement

/-- The name in JSON of each field under the default options. -/
def jsonNames (m : DescriptorProto) : List String := m.field.map fun f => fieldJsonName f {}

/-- No two fields share a name, and a written `json_name` is the field's name. -/
structure FaithfulNames (spelled : List SpelledField) (m : DescriptorProto) : Prop where
  distinct : (jsonNames m).Nodup
  kept : List.Forall₂ (fun (s : SpelledField) name => ∀ x, s.jsonName = some x → name = x)
    spelled (jsonNames m)

/-- The name that stands where the first is empty. -/
def orName (name other : String) : String := if name = "" then other else name

/-- The name in JSON of a field as it is written: a oneof's field and a map field are not asked
for their `json_name`, and a map field's name is not derived. -/
def givenName (s : SpelledField) : String :=
  match s.kind with
  | .member => orName (toJsonName s.name) s.name
  | .plain => orName (s.jsonName.getD (toJsonName s.name)) s.name
  | .mapped => s.name

/-- The names the fields get differ, and a `json_name` is written only where it is not lost: on
an ordinary field, if it is not empty, or where it repeats the name the field gets anyway. -/
structure Unambiguous (spelled : List SpelledField) : Prop where
  distinct : (spelled.map givenName).Nodup
  written : ∀ s ∈ spelled, ∀ x, s.jsonName = some x → s.kind = .plain ∧ x ≠ "" ∨ givenName s = x

/-- A message of an accepted file and the descriptor it is compiled to. -/
structure CompilesTo (displayFloat : UInt64 → String) (files : List File) (m : Message)
    (compiled : DescriptorProto) : Prop where
  accepted : Accepted displayFloat files
  found : ∃ f ∈ files, ∃ scope path, (scope, m) ∈ fileMessages f ∧
    compiled = (resolveMessage (namesSeenBy displayFloat files f) f.name scope
      ((fileContext displayFloat f).convertMessage path m).1).1

end Statement

section Lowering

variable (cx : FileContext)

/-- The name in JSON of a field with this name and this kept `json_name`. -/
private def lowered (key : String × Option String) : String :=
  orName (key.2.getD (toJsonName key.1)) key.1

theorem fieldJsonName_default (f : FieldDescriptorProto) :
    fieldJsonName f {} = orName (f.jsonName.getD "") (f.name.getD "") := by
  cases json : f.jsonName <;> simp [fieldJsonName, json, orName]

private theorem convertField_name (f : Field) :
    fieldJsonName (cx.convertField f).1 {} = lowered (f.name.name, f.jsonName) := by
  rw [fieldJsonName_default, lowered]
  cases json : f.jsonName <;> simp [FileContext.convertField, json]

private theorem convertOneofs_names (index : Nat) (oneofs : List Oneof) :
    (cx.convertOneofs index oneofs).1.map (fun f => fieldJsonName f {}) =
      (oneofs.flatMap fun o => o.fields.map fun f => (f.name.name, f.jsonName)).map lowered := by
  induction oneofs generalizing index with
  | nil => rfl
  | cons o rest ih =>
    rw [FileContext.convertOneofs, List.map_append, ih, List.flatMap_cons, List.map_append]
    simp only [each, List.map_map]
    congr 1
    refine List.map_congr_left fun f _ => ?_
    exact convertField_name cx f

theorem convertMessage_jsonNames (path : String) (m : Message) :
    jsonNames (cx.convertMessage path m).1 =
      (memberKeys m).map lowered ++ (plainKeys m).map lowered ++ mapKeys m := by
  rw [FileContext.convertMessage_fst]
  simp only [jsonNames, FileContext.ownFields, List.map_append, convertOneofs_names, memberKeys,
    plainKeys, mapKeys, each, List.map_map]
  congr 2
  refine List.map_congr_left fun f _ => ?_
  exact convertField_name cx f

theorem resolveMessage_jsonNames {visible : List String} {fileName pathPrefix : String}
    {m : DescriptorProto} : jsonNames (resolveMessage visible fileName pathPrefix m).1 = jsonNames m := by
  have kept : ∀ f, fieldJsonName (resolveFieldType pathPrefix visible fileName f).1 {} =
      fieldJsonName f {} := by
    intro f
    unfold resolveFieldType
    repeat' split
    all_goals rfl
  rw [resolveMessage_fst, jsonNames, jsonNames, List.map_map]
  exact List.map_congr_left fun f _ => kept f

end Lowering

variable {text : DebugText} {fuel : Nat} {isGroup : Bool} {p p' : Parser} {m : Message}

/-- The fields of a parsed message get the names that their spelling gives. -/
theorem jsonNames_spelled (parsed : Parse.parseMessage text (fuel + 1) isGroup p = .ok (some m, p'))
    (cx : FileContext) (path : String) :
    jsonNames (cx.convertMessage path m).1 = (spelledFields text fuel isGroup p).map givenName := by
  obtain ⟨members, plain, mapped, spelled, ofMembers, ofPlain, ofMaps, memberKind, plainKind,
    mapKind⟩ := parseMessage_spelled parsed
  rw [convertMessage_jsonNames, spelled, ofMembers, ofPlain, ofMaps, List.map_append,
    List.map_append, List.map_map, List.map_map]
  congr 1
  · congr 1
    · refine List.map_congr_left fun s member => ?_
      rw [givenName, memberKind s member]
      rfl
    · refine List.map_congr_left fun s member => ?_
      rw [givenName, plainKind s member]
      rfl
  · refine List.map_congr_left fun s member => ?_
    rw [givenName, mapKind s member]

theorem faithfulNames_iff {spelled : List SpelledField} {compiled : DescriptorProto}
    (names : jsonNames compiled = spelled.map givenName) :
    FaithfulNames spelled compiled ↔ Unambiguous spelled := by
  have each : ∀ s : SpelledField, (∀ x, s.jsonName = some x → givenName s = x) ↔
      ∀ x, s.jsonName = some x → s.kind = .plain ∧ x ≠ "" ∨ givenName s = x := by
    intro s
    refine forall₂_congr fun x written => ⟨.inr, ?_⟩
    rintro (⟨plain, filled⟩ | same)
    · simp [givenName, plain, written, orName, filled]
    · exact same
  constructor
  · rintro ⟨distinct, kept⟩
    rw [names, List.forall₂_map_right_iff, List.forall₂_same] at kept
    exact ⟨names ▸ distinct, fun s member => (each s).mp (kept s member)⟩
  · rintro ⟨distinct, written⟩
    refine ⟨names ▸ distinct, ?_⟩
    rw [names, List.forall₂_map_right_iff, List.forall₂_same]
    exact fun s member => (each s).mpr (written s member)

/-- The names in JSON of a message that parses and is accepted are distinct and as written
exactly if its spelling is unambiguous. -/
theorem json_names_faithful_iff (text : DebugText) (displayFloat : UInt64 → String)
    (files : List File) (fuel : Nat) (isGroup : Bool) (p p' : Parser) (m : Message)
    (parsed : Parse.parseMessage text (fuel + 1) isGroup p = .ok (some m, p'))
    (_quiet : p'.diagnostics = []) (compiled : DescriptorProto)
    (compiles : CompilesTo displayFloat files m compiled) :
    FaithfulNames (spelledFields text fuel isGroup p) compiled ↔
      Unambiguous (spelledFields text fuel isGroup p) := by
  obtain ⟨f, _, scope, path, _, rfl⟩ := compiles.found
  refine faithfulNames_iff ?_
  rw [resolveMessage_jsonNames]
  exact jsonNames_spelled parsed _ path

section Dropped

/-- `message M { oneof o { int32 a = 1 [json_name = "b"]; } }`. -/
def renamedMember : Parser where
  name := "a.proto"
  tokens := [.ident "message", .ident "M", .lBrace, .ident "oneof", .ident "o", .lBrace,
    .ident "int32", .ident "a", .equals, .int 1, .lBracket, .ident "json_name", .equals, .str "b",
    .rBracket, .semicolon, .rBrace, .rBrace].map fun kind => ⟨kind, {}⟩

private def plainText : DebugText := ⟨id, fun _ => ""⟩

/-- The message those tokens parse to. -/
def renamedMessage : Message :=
  (yielded (Parse.parseMessage plainText 10 false) renamedMember).getD (emptyMessage "")

/-- A file in proto3 with that message. -/
def renamedFile : File where
  name := "a.proto"
  syntaxDecl := some ⟨{}, "proto3"⟩
  messages := [renamedMessage]

def renamedDescriptor : DescriptorProto :=
  (resolveMessage (namesSeenBy (fun _ => "") [renamedFile] renamedFile) "a.proto" ""
    ((fileContext (fun _ => "") renamedFile).convertMessage "" renamedMessage).1).1

private theorem renamed_parses :
    Parse.parseMessage plainText 10 false renamedMember =
      .ok (some renamedMessage, { renamedMember with pos := 18 }) := rfl

private theorem renamed_compiles :
    CompilesTo (fun _ => "") [renamedFile] renamedMessage renamedDescriptor where
  accepted := by decide +kernel
  found := ⟨renamedFile, List.mem_singleton_self _, "", "", List.mem_singleton_self _, rfl⟩

theorem json_names_faithful_renamed :
    FaithfulNames (spelledFields plainText 9 false renamedMember) renamedDescriptor ↔
      Unambiguous (spelledFields plainText 9 false renamedMember) :=
  json_names_faithful_iff plainText (fun _ => "") [renamedFile] 9 false renamedMember
    { renamedMember with pos := 18 } renamedMessage renamed_parses rfl renamedDescriptor
    renamed_compiles

theorem not_json_names_faithful :
    ¬ ∀ (text : DebugText) (displayFloat : UInt64 → String) (files : List File) (fuel : Nat)
      (isGroup : Bool) (p p' : Parser) (m : Message),
      Parse.parseMessage text (fuel + 1) isGroup p = .ok (some m, p') → p'.diagnostics = [] →
      ∀ compiled, CompilesTo displayFloat files m compiled →
        FaithfulNames (spelledFields text fuel isGroup p) compiled := by
  intro faithful
  have kept := (faithful plainText (fun _ => "") [renamedFile] 9 false renamedMember _ _
    renamed_parses rfl renamedDescriptor renamed_compiles).kept
  have names : jsonNames renamedDescriptor = ["a"] := by decide +kernel
  have spelled : spelledFields plainText 9 false renamedMember = [⟨.member, "a", some "b"⟩] := by
    decide +kernel
  rw [names, spelled] at kept
  cases kept with
  | cons same _ => exact absurd (same "b" rfl) (by decide)

end Dropped

end TptProto.Json
