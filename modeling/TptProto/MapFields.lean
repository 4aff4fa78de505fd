import TptProto.Codegen.MapEntries
import TptProto.Compiler.Convert
import TptProto.Reflect.MapEntries

/-! Map fields under both decoders: which inputs of entries become the map they denote. -/

namespace TptProto

open TptProto.Foundation TptProto.Core TptProto.Descriptor

section Example

/-- A map from `t` to `int32` under number 1. -/
private def mapField : FieldDescriptorProto :=
  { name := some "m", number := some 1, label := some .repeated, type := some .message,
    typeName := some ".E" }

private def mapKey (t : FieldType) : FieldDescriptorProto :=
  { name := some "key", number := some 1, label := some .optional, type := some t }

private def mapValue : FieldDescriptorProto :=
  { name := some "value", number := some 2, label := some .optional, type := some .int32 }

private def mapEntry (t : FieldType) : DescriptorProto :=
  { name := some "E", field := [mapKey t, mapValue], options := some [0x38, 0x01] }

private def mapDescriptor : DescriptorProto := { name := some "M", field := [mapField] }

private def mapPool (t : FieldType) : Reflect.DescriptorPool :=
  ⟨[("E", mapEntry t), ("M", mapDescriptor)], [], [], "proto3"⟩

private def mapSchema (t : FieldType) : Codegen.Schema :=
  ⟨[("M", ⟨mapDescriptor, .proto3⟩)], [], [(".E", (.scalar t, .scalar .int32))]⟩

private def mapTag : Tag := ⟨1, .lengthDelimited, Tag.nonzero_one⟩

private def mapHalves : List Item :=
  [⟨⟨1, .varint, Tag.nonzero_one⟩, .varint 7⟩, ⟨⟨2, .varint, Tag.nonzero_two⟩, .varint 5⟩]

private theorem mapHalves_written : Items Tag.wireType mapHalves (mapHalves.flatMap Item.written) :=
  items_written fun item member => by
    simp only [mapHalves, List.mem_cons, List.not_mem_nil, or_false] at member
    rcases member with rfl | rfl <;> exact ⟨by decide, rfl, trivial⟩

private def mapSource : EntrySource := ⟨_, _, EntryBody.ofItems mapHalves_written⟩

private def mapReader : Reader :=
  Reader.withLimits ⟨(entryItem mapTag mapSource).written, by decide⟩ .default

private theorem mapSource_items : mapSource.items = mapHalves := EntrySource.items_map mapHalves

private theorem mapSource_input : MapInput mapReader mapTag [mapSource] where
  solvent := Reader.withLimits_solvent _ _
  kind := rfl
  wire := by
    have written : Items Tag.wireType [entryItem mapTag mapSource]
        ([entryItem mapTag mapSource].flatMap Item.written) := items_written fun item member => by
      rw [List.mem_singleton.mp member]
      exact ⟨by decide, rfl, show List.length _ < _ by decide⟩
    simpa [mapReader] using written
  affords := by
    refine ⟨fun item member => ?_, by decide, by decide⟩
    rw [List.mem_singleton.mp member]
    change DecoderLimits.within mapReader.limits.maxLengthDelimited mapSource.body.length = true
    decide
  within := by
    simp only [List.mem_singleton, forall_eq]
    refine ⟨fun number member => ?_, fun item member => ?_, by decide, by decide⟩
    · simp [mapSource, mapHalves] at member
    · rw [mapSource_items] at member
      simp only [mapHalves, List.mem_cons, List.not_mem_nil, or_false] at member
      rcases member with rfl | rfl <;> trivial
  shallow := by decide

private def mapPair : Reflect.Value × Reflect.Value := (.scalar (.i64 7), .scalar (.i64 5))

end Example

end TptProto
