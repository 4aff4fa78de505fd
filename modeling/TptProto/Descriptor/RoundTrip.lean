import TptProto.Core.TableWritten
import TptProto.Descriptor.Decode
import TptProto.Descriptor.Encode

/-! What the descriptor encoders write, the descriptor decoders read back: each part of an
encoder sets the part of the message that it writes. -/

namespace TptProto.Descriptor

open TptProto.Foundation TptProto.Core TptProto.Core.Table

section Parts

variable {limits : DecoderLimits} {depth : UInt32} {kind : Kind}
  {before middle after : descriptors.Data kind} {number : UInt32}

theorem writes_done : descriptors.Writes limits depth kind (inOrder []) before before := Table.Writes.nothing

theorem writes_then {part : Result (List UInt8)} {parts : List (Result (List UInt8))}
    (first : descriptors.Writes limits depth kind part before middle)
    (rest : descriptors.Writes limits depth kind (inOrder parts) middle after) :
    descriptors.Writes limits depth kind (inOrder (part :: parts)) before after :=
  first.append rest

/-- A value that may be absent is the step it takes when it is there. -/
private theorem writes_opt {α : Type} {encode : UInt32 → α → Result (List UInt8)}
    (into : Option α → descriptors.Data kind)
    (step : ∀ value, descriptors.Writes limits depth kind (encode number value) (into none) (into (some value)))
    (v : Option α) : descriptors.Writes limits depth kind (encodeOpt encode number v) (into none) (into v) := by
  cases v with
  | none => exact .nothing
  | some value => exact step value

variable (kind)

theorem writes_optStr (into : Option String → descriptors.Data kind) {set : String → descriptors.Data kind → descriptors.Data kind}
    (carried : Carried number) (found : descriptors.arms kind number .lengthDelimited = some (.string set))
    (sets : ∀ value, set value (into none) = into (some value)) (v : Option String) :
    descriptors.Writes limits depth kind (encodeOptStr number v) (into none) (into v) := by
  refine writes_opt into (fun value => ?_) v
  exact .string carried found value (sets value)

theorem writes_optI32 (into : Option Int32 → descriptors.Data kind) {set : Int32 → descriptors.Data kind → descriptors.Data kind}
    (carried : Carried number) (found : descriptors.arms kind number .varint = some (.int32 set))
    (sets : ∀ value, set value (into none) = into (some value)) (v : Option Int32) :
    descriptors.Writes limits depth kind (encodeOptI32 number v) (into none) (into v) := by
  refine writes_opt into (fun value => ?_) v
  exact .int32 carried found value (sets value)

/-- An enumeration is written as its number. -/
theorem writes_optCoded {α : Type} {code : α → Int32} (into : Option α → descriptors.Data kind)
    {set : Int32 → descriptors.Data kind → descriptors.Data kind} (carried : Carried number)
    (found : descriptors.arms kind number .varint = some (.int32 set))
    (sets : ∀ value, set (code value) (into none) = into (some value)) (v : Option α) :
    descriptors.Writes limits depth kind (encodeOptI32 number (v.map code)) (into none) (into v) := by
  cases v with
  | none => exact .nothing
  | some value =>
    exact .int32 carried found (code value) (sets value)

/-- A number that starts at zero is written unless it is zero. -/
theorem writes_nonzero (into : Int32 → descriptors.Data kind) {set : Int32 → descriptors.Data kind → descriptors.Data kind}
    (carried : Carried number) (found : descriptors.arms kind number .varint = some (.int32 set))
    (sets : ∀ value, set value (into 0) = into value) (v : Int32) :
    descriptors.Writes limits depth kind (encodeOptI32 number (if v ≠ 0 then some v else none)) (into 0)
      (into v) := by
  by_cases zero : v = 0
  · subst zero
    exact .nothing
  · rw [if_pos zero]
    exact .int32 carried found v (sets v)

theorem writes_optBool (into : Option Bool → descriptors.Data kind) {set : Bool → descriptors.Data kind → descriptors.Data kind}
    (carried : Carried number) (found : descriptors.arms kind number .varint = some (.bool set))
    (sets : ∀ value, set value (into none) = into (some value)) (v : Option Bool) :
    descriptors.Writes limits depth kind (encodeOptBool number v) (into none) (into v) := by
  refine writes_opt into (fun value => ?_) v
  exact .bool carried found value (sets value)

theorem writes_optBytes (into : Option (List UInt8) → descriptors.Data kind)
    {set : List UInt8 → descriptors.Data kind → descriptors.Data kind} (carried : Carried number)
    (found : descriptors.arms kind number .lengthDelimited = some (.bytes set))
    (sets : ∀ value, set value (into none) = into (some value)) (v : Option (List UInt8)) :
    descriptors.Writes limits depth kind (encodeOptBytes number v) (into none) (into v) := by
  refine writes_opt into (fun value => ?_) v
  rw [← sets]
  have asItem : encodeBytes number value =
      writeValue (ε := Error) number (.lengthDelimited value) := rfl
  rw [asItem]
  exact .item carried.1 carried.2 found fun _ => rfl

theorem writes_optMessage (child : Kind) {encode : descriptors.Data child → Result (List UInt8)}
    {opening : Opening} (into : Option (descriptors.Data child) → descriptors.Data kind)
    {set : descriptors.Data child → descriptors.Data kind → descriptors.Data kind}
    (carried : Carried number)
    (found : descriptors.arms kind number .lengthDelimited = some (.message opening child set))
    (sets : ∀ value, set value (into none) = into (some value))
    (inner : ∀ value, descriptors.Writes (opening.limits limits) (opening.depth depth) child
      (encode value) (descriptors.start child) value) (v : Option (descriptors.Data child)) :
    descriptors.Writes limits depth kind
      (encodeOpt (fun number value => writeMessage number (encode value)) number v) (into none)
      (into v) := by
  refine writes_opt into (fun value => ?_) v
  exact .message carried.1 carried.2 found (inner value) (sets value)

/-- Values of a repeated field are pushed one by one. -/
theorem writes_strings (into : List String → descriptors.Data kind) {set : String → descriptors.Data kind → descriptors.Data kind}
    (carried : Carried number) (found : descriptors.arms kind number .lengthDelimited = some (.string set))
    (sets : ∀ value done, set value (into done) = into (done ++ [value])) (items : List String) :
    descriptors.Writes limits depth kind (encodeRepeatedStr number items) (into []) (into items) := by
  refine .each into (fun value _ done => ?_) []
  exact .string carried found value (sets value done)

theorem writes_int32s (into : List Int32 → descriptors.Data kind) {set : Int32 → descriptors.Data kind → descriptors.Data kind}
    (carried : Carried number) (found : descriptors.arms kind number .varint = some (.int32 set))
    (sets : ∀ value done, set value (into done) = into (done ++ [value])) (items : List Int32) :
    descriptors.Writes limits depth kind (encodeRepeatedI32 number items) (into []) (into items) := by
  refine .each into (fun value _ done => ?_) []
  exact .int32 carried found value (sets value done)

theorem writes_messages (child : Kind) {encode : descriptors.Data child → Result (List UInt8)}
    {opening : Opening} (into : List (descriptors.Data child) → descriptors.Data kind)
    {set : descriptors.Data child → descriptors.Data kind → descriptors.Data kind}
    (carried : Carried number)
    (found : descriptors.arms kind number .lengthDelimited = some (.message opening child set))
    (sets : ∀ value done, set value (into done) = into (done ++ [value]))
    (items : List (descriptors.Data child))
    (inner : ∀ value ∈ items, descriptors.Writes (opening.limits limits) (opening.depth depth) child
      (encode value) (descriptors.start child) value) :
    descriptors.Writes limits depth kind (encodeRepeated encode number items) (into [])
      (into items) := by
  refine .each into (fun value member done => ?_) []
  exact .message carried.1 carried.2 found (inner value member) (sets value done)

end Parts

section Messages

variable {limits : DecoderLimits} {depth : UInt32}

theorem Location.writes (self : Location) :
    descriptors.Writes limits depth .location self.encode {} self := by
  refine writes_then (writes_int32s .location
    (fun path => { path })
    (by decide) rfl (fun _ _ => rfl) _) ?_
  refine writes_then (writes_int32s .location
    (fun span => { path := self.path, span })
    (by decide) rfl (fun _ _ => rfl) _) ?_
  refine writes_then (writes_optStr .location
    (fun leadingComments => { path := self.path, span := self.span, leadingComments })
    (by decide) rfl (fun _ => rfl) _) ?_
  refine writes_then (writes_optStr .location
    (fun trailingComments => { self with trailingComments, leadingDetachedComments := [] })
    (by decide) rfl (fun _ => rfl) _) ?_
  refine writes_then (writes_strings .location
    (fun leadingDetachedComments => { self with leadingDetachedComments })
    (by decide) rfl (fun _ _ => rfl) _) ?_
  exact writes_done

theorem SourceCodeInfo.writes (self : SourceCodeInfo) :
    descriptors.Writes limits depth .sourceCodeInfo self.encode {} self :=
  writes_messages .sourceCodeInfo .location (fun locations => { locations }) (by decide) rfl
    (fun _ _ => rfl) _ fun location _ => Location.writes location

theorem ReservedRange.writes (self : ReservedRange) :
    descriptors.Writes limits depth .reservedRange self.encode {} self := by
  refine writes_then (writes_nonzero .reservedRange
    (fun start => { start })
    (by decide) rfl (fun _ => rfl) _) ?_
  refine writes_then (writes_nonzero .reservedRange
    (fun stop => { self with stop })
    (by decide) rfl (fun _ => rfl) _) ?_
  exact writes_done

theorem ExtensionRange.writes (self : ExtensionRange) :
    descriptors.Writes limits depth .extensionRange self.encode {} self := by
  refine writes_then (writes_nonzero .extensionRange
    (fun start => { start })
    (by decide) rfl (fun _ => rfl) _) ?_
  refine writes_then (writes_nonzero .extensionRange
    (fun stop => { self with stop })
    (by decide) rfl (fun _ => rfl) _) ?_
  exact writes_done

theorem FieldDescriptorProto.writes (self : FieldDescriptorProto) :
    descriptors.Writes limits depth .field self.encode {} self := by
  refine writes_then (writes_optStr .field
    (fun name => { name })
    (by decide) rfl (fun _ => rfl) _) ?_
  refine writes_then (writes_optStr .field
    (fun extendee => { name := self.name, extendee })
    (by decide) rfl (fun _ => rfl) _) ?_
  refine writes_then (writes_optI32 .field
    (fun number => { name := self.name, extendee := self.extendee, number })
    (by decide) rfl (fun _ => rfl) _) ?_
  refine writes_then (writes_optCoded .field
    (fun label => { name := self.name, extendee := self.extendee, number := self.number, label })
    (by decide) rfl (fun value => by cases value <;> rfl) _) ?_
  refine writes_then (writes_optCoded .field
    (fun type => { name := self.name, extendee := self.extendee, number := self.number,
                   label := self.label, type })
    (by decide) rfl (fun value => by cases value <;> rfl) _) ?_
  refine writes_then (writes_optStr .field
    (fun typeName => { name := self.name, extendee := self.extendee, number := self.number,
                       label := self.label, type := self.type, typeName })
    (by decide) rfl (fun _ => rfl) _) ?_
  refine writes_then (writes_optStr .field
    (fun defaultValue => { self with
      defaultValue, oneofIndex := none, jsonName := none, options := none, proto3Optional := none })
    (by decide) rfl (fun _ => rfl) _) ?_
  refine writes_then (writes_optI32 .field
    (fun oneofIndex => { self with
      oneofIndex, jsonName := none, options := none, proto3Optional := none })
    (by decide) rfl (fun _ => rfl) _) ?_
  refine writes_then (writes_optStr .field
    (fun jsonName => { self with jsonName, options := none, proto3Optional := none })
    (by decide) rfl (fun _ => rfl) _) ?_
  refine writes_then (writes_optBytes .field
    (fun options => { self with options, proto3Optional := none })
    (by decide) rfl (fun _ => rfl) _) ?_
  refine writes_then (writes_optBool .field
    (fun proto3Optional => { self with proto3Optional })
    (by decide) rfl (fun _ => rfl) _) ?_
  exact writes_done

theorem EnumValueDescriptorProto.writes (self : EnumValueDescriptorProto) :
    descriptors.Writes limits depth .enumValue self.encode {} self := by
  refine writes_then (writes_optStr .enumValue
    (fun name => { name })
    (by decide) rfl (fun _ => rfl) _) ?_
  refine writes_then (writes_optI32 .enumValue
    (fun number => { name := self.name, number })
    (by decide) rfl (fun _ => rfl) _) ?_
  refine writes_then (writes_optBytes .enumValue
    (fun options => { self with options })
    (by decide) rfl (fun _ => rfl) _) ?_
  exact writes_done

theorem EnumDescriptorProto.writes (self : EnumDescriptorProto) :
    descriptors.Writes limits depth .enum self.encode {} self := by
  refine writes_then (writes_optStr .enum
    (fun name => { name })
    (by decide) rfl (fun _ => rfl) _) ?_
  refine writes_then (writes_messages .enum .enumValue
    (fun value => { name := self.name, value })
    (by decide) rfl (fun _ _ => rfl) _ (fun x _ => EnumValueDescriptorProto.writes x)) ?_
  refine writes_then (writes_optBytes .enum
    (fun options => { name := self.name, value := self.value, options })
    (by decide) rfl (fun _ => rfl) _) ?_
  refine writes_then (writes_messages .enum .reservedRange
    (fun reservedRange => { self with reservedRange, reservedName := [] })
    (by decide) rfl (fun _ _ => rfl) _ (fun x _ => ReservedRange.writes x)) ?_
  refine writes_then (writes_strings .enum
    (fun reservedName => { self with reservedName })
    (by decide) rfl (fun _ _ => rfl) _) ?_
  exact writes_done

theorem OneofDescriptorProto.writes (self : OneofDescriptorProto) :
    descriptors.Writes limits depth .oneof self.encode {} self := by
  refine writes_then (writes_optStr .oneof
    (fun name => { name })
    (by decide) rfl (fun _ => rfl) _) ?_
  refine writes_then (writes_optBytes .oneof
    (fun options => { self with options })
    (by decide) rfl (fun _ => rfl) _) ?_
  exact writes_done

/-- A message is written with the messages nested in it. -/
theorem DescriptorProto.writes (self : DescriptorProto) :
    descriptors.Writes limits depth .message self.encode {} self := by
  induction self using DescriptorProto.induction generalizing limits depth with
  | step self ih =>
  rw [DescriptorProto.encode_eq]
  refine writes_then (writes_optStr .message
    (fun name => { name })
    (by decide) rfl (fun _ => rfl) _) ?_
  refine writes_then (writes_messages .message .field
    (fun field => { name := self.name, field })
    (by decide) rfl (fun _ _ => rfl) _ (fun x _ => FieldDescriptorProto.writes x)) ?_
  refine writes_then (writes_messages .message .field
    (fun extension => { name := self.name, field := self.field, extension })
    (by decide) rfl (fun _ _ => rfl) _ (fun x _ => FieldDescriptorProto.writes x)) ?_
  refine writes_then (writes_messages .message .message
    (fun nestedType => { name := self.name, field := self.field, extension := self.extension,
                         nestedType })
    (by decide) rfl (fun _ _ => rfl) _ (fun nested member => ih nested member)) ?_
  refine writes_then (writes_messages .message .enum
    (fun enumType => { name := self.name, field := self.field, extension := self.extension,
                       nestedType := self.nestedType, enumType })
    (by decide) rfl (fun _ _ => rfl) _ (fun x _ => EnumDescriptorProto.writes x)) ?_
  refine writes_then (writes_messages .message .extensionRange
    (fun extensionRange => { self with
      extensionRange, oneofDecl := [], options := none, reservedRange := [], reservedName := [] })
    (by decide) rfl (fun _ _ => rfl) _ (fun x _ => ExtensionRange.writes x)) ?_
  refine writes_then (writes_messages .message .oneof
    (fun oneofDecl => { self with
      oneofDecl, options := none, reservedRange := [], reservedName := [] })
    (by decide) rfl (fun _ _ => rfl) _ (fun x _ => OneofDescriptorProto.writes x)) ?_
  refine writes_then (writes_optBytes .message
    (fun options => { self with options, reservedRange := [], reservedName := [] })
    (by decide) rfl (fun _ => rfl) _) ?_
  refine writes_then (writes_messages .message .reservedRange
    (fun reservedRange => { self with reservedRange, reservedName := [] })
    (by decide) rfl (fun _ _ => rfl) _ (fun x _ => ReservedRange.writes x)) ?_
  refine writes_then (writes_strings .message
    (fun reservedName => { self with reservedName })
    (by decide) rfl (fun _ _ => rfl) _) ?_
  cases self
  exact writes_done

theorem MethodDescriptorProto.writes (self : MethodDescriptorProto) :
    descriptors.Writes limits depth .method self.encode {} self := by
  refine writes_then (writes_optStr .method
    (fun name => { name })
    (by decide) rfl (fun _ => rfl) _) ?_
  refine writes_then (writes_optStr .method
    (fun inputType => { name := self.name, inputType })
    (by decide) rfl (fun _ => rfl) _) ?_
  refine writes_then (writes_optStr .method
    (fun outputType => { name := self.name, inputType := self.inputType, outputType })
    (by decide) rfl (fun _ => rfl) _) ?_
  refine writes_then (writes_optBytes .method
    (fun options => { self with options, clientStreaming := none, serverStreaming := none })
    (by decide) rfl (fun _ => rfl) _) ?_
  refine writes_then (writes_optBool .method
    (fun clientStreaming => { self with clientStreaming, serverStreaming := none })
    (by decide) rfl (fun _ => rfl) _) ?_
  refine writes_then (writes_optBool .method
    (fun serverStreaming => { self with serverStreaming })
    (by decide) rfl (fun _ => rfl) _) ?_
  exact writes_done

theorem ServiceDescriptorProto.writes (self : ServiceDescriptorProto) :
    descriptors.Writes limits depth .service self.encode {} self := by
  refine writes_then (writes_optStr .service
    (fun name => { name })
    (by decide) rfl (fun _ => rfl) _) ?_
  refine writes_then (writes_messages .service .method
    (fun method => { name := self.name, method })
    (by decide) rfl (fun _ _ => rfl) _ (fun x _ => MethodDescriptorProto.writes x)) ?_
  refine writes_then (writes_optBytes .service
    (fun options => { self with options })
    (by decide) rfl (fun _ => rfl) _) ?_
  exact writes_done

theorem FileDescriptorProto.writes (self : FileDescriptorProto) :
    descriptors.Writes limits depth .file self.encode {} self := by
  refine writes_then (writes_optStr .file
    (fun name => { name })
    (by decide) rfl (fun _ => rfl) _) ?_
  refine writes_then (writes_optStr .file
    (fun package => { name := self.name, package })
    (by decide) rfl (fun _ => rfl) _) ?_
  refine writes_then (writes_strings .file
    (fun dependency => { name := self.name, package := self.package, dependency })
    (by decide) rfl (fun _ _ => rfl) _) ?_
  refine writes_then (writes_int32s .file
    (fun publicDependency => { name := self.name, package := self.package,
                               dependency := self.dependency, publicDependency })
    (by decide) rfl (fun _ _ => rfl) _) ?_
  refine writes_then (writes_int32s .file
    (fun weakDependency => { name := self.name, package := self.package,
                             dependency := self.dependency,
                             publicDependency := self.publicDependency, weakDependency })
    (by decide) rfl (fun _ _ => rfl) _) ?_
  refine writes_then (writes_messages .file .message
    (fun messageType => { name := self.name, package := self.package, dependency := self.dependency,
                          publicDependency := self.publicDependency,
                          weakDependency := self.weakDependency, messageType })
    (by decide) rfl (fun _ _ => rfl) _ (fun x _ => DescriptorProto.writes x)) ?_
  refine writes_then (writes_messages .file .enum
    (fun enumType => { self with
      enumType, service := [], extension := [], options := none, sourceCodeInfo := none,
      syntaxName := none })
    (by decide) rfl (fun _ _ => rfl) _ (fun x _ => EnumDescriptorProto.writes x)) ?_
  refine writes_then (writes_messages .file .service
    (fun service => { self with
      service, extension := [], options := none, sourceCodeInfo := none, syntaxName := none })
    (by decide) rfl (fun _ _ => rfl) _ (fun x _ => ServiceDescriptorProto.writes x)) ?_
  refine writes_then (writes_messages .file .field
    (fun extension => { self with
      extension, options := none, sourceCodeInfo := none, syntaxName := none })
    (by decide) rfl (fun _ _ => rfl) _ (fun x _ => FieldDescriptorProto.writes x)) ?_
  refine writes_then (writes_optBytes .file
    (fun options => { self with options, sourceCodeInfo := none, syntaxName := none })
    (by decide) rfl (fun _ => rfl) _) ?_
  refine writes_then (writes_optMessage .file .sourceCodeInfo
    (fun sourceCodeInfo => { self with sourceCodeInfo, syntaxName := none })
    (by decide) rfl (fun _ => rfl) SourceCodeInfo.writes _) ?_
  refine writes_then (writes_optStr .file
    (fun syntaxName => { self with syntaxName })
    (by decide) rfl (fun _ => rfl) _) ?_
  exact writes_done

theorem FileDescriptorSet.writes (self : FileDescriptorSet) :
    descriptors.Writes limits depth .set self.encode {} self :=
  writes_messages .set .file (fun file => { file }) (by decide) rfl (fun _ _ => rfl) _
    fun file _ => FileDescriptorProto.writes file

/-- Every set is encoded, and decoding its encoding within the default limits gives it back. -/
theorem descriptor_round_trip (set : FileDescriptorSet) :
    ∃ bytes, set.encode = .ok bytes ∧
      (descriptors.WithinLimits .default 0 .set bytes →
        Table.decodeBytes (T := descriptors) .set (.ofBytes bytes) = .ok set) :=
  (FileDescriptorSet.writes set).decodeBytes

/-- A file `a` with an empty message. -/
private def oneMessage : FileDescriptorSet := { file := [{ name := some "a", messageType := [{}] }] }

private def oneMessageBytes : List UInt8 := [0x0a, 5, 0x0a, 1, 0x61, 0x22, 0]

private def delimited (number : UInt32) (nonzero : number ≠ 0) (body : List UInt8) : Item :=
  ⟨⟨number, .lengthDelimited, nonzero⟩, .lengthDelimited body⟩

private theorem delimited_writable {number : UInt32} {nonzero : number ≠ 0} {body : List UInt8}
    (small : number.toNat < 2 ^ 29) (short : body.length < 2 ^ 64) :
    (delimited number nonzero body).Writable Tag.wireType := ⟨small, rfl, short⟩

private theorem file_within :
    descriptors.WithinLimits .default 0 .file [0x0a, 1, 0x61, 0x22, 0] := by
  have name : (delimited 1 (by decide) [0x61]).Writable Tag.wireType :=
    delimited_writable (by decide) (by decide)
  have message : (delimited 4 (by decide) []).Writable Tag.wireType :=
    delimited_writable (by decide) (by decide)
  refine .intro _ (Sequence.cons name.bytes (.single message.bytes)) rfl rfl ?_ ?_ ?_ ?_
  all_goals simp only [List.mem_cons, List.not_mem_nil, or_false, forall_eq_or_imp, forall_eq]
  · exact ⟨rfl, rfl⟩
  · exact ⟨fun _ _ => rfl, fun _ found => by cases found⟩
  · exact ⟨fun _ _ found => (by cases found), fun _ _ _ => by decide⟩
  · refine ⟨fun _ _ _ found => (by cases found), fun opening child set found => ?_⟩
    cases found
    exact .intro [] .nil rfl rfl (by simp) (by simp) (by simp) (by simp)

private theorem oneMessage_within : descriptors.WithinLimits .default 0 .set oneMessageBytes := by
  have wire : Items Tag.wireType [delimited 1 (by decide) [0x0a, 1, 0x61, 0x22, 0]] oneMessageBytes :=
    .single (delimited_writable (by decide) (by decide)).bytes
  refine .intro _ wire rfl rfl ?_ ?_ ?_ ?_
  all_goals simp only [List.mem_singleton, forall_eq]
  · rfl
  · exact fun _ found => by cases found
  · exact fun _ _ found => by cases found
  · intro opening child set found
    cases found
    exact file_within

theorem descriptor_round_trip_message :
    Table.decodeBytes (T := descriptors) .set (.ofBytes oneMessageBytes) = .ok oneMessage := by
  obtain ⟨bytes, encoded, decodes⟩ := descriptor_round_trip oneMessage
  have same : oneMessage.encode = .ok oneMessageBytes := by rfl
  rw [same] at encoded
  cases encoded
  exact decodes oneMessage_within

end Messages

end TptProto.Descriptor
