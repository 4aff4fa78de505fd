import TptProto.Core.Table
import TptProto.Descriptor.Decode
import TptProto.Reflect.Nesting
import TptProto.Wkt.Struct

/-! The recursion limit of the three recursive decoders. -/

namespace TptProto

open TptProto.Foundation TptProto.Core

namespace Descriptor

/-- Only a file set opens readers that start over. -/
theorem arms_opening {kind child : Kind} {number : UInt32} {wireType : WireType} {opening : Opening}
    {set : child.Data → kind.Data → kind.Data}
    (arm : descriptors.arms kind number wireType = some (.message opening child set)) :
    opening = .nested ↔ ¬ kind = .set := by
  cases kind <;>
    simp only [descriptors, FileDescriptorSet.arms, FileDescriptorProto.arms, DescriptorProto.arms,
      FieldDescriptorProto.arms, EnumDescriptorProto.arms, EnumValueDescriptorProto.arms,
      OneofDescriptorProto.arms, ServiceDescriptorProto.arms, MethodDescriptorProto.arms,
      SourceCodeInfo.arms, Location.arms, ReservedRange.arms, ExtensionRange.arms] at arm <;>
    split at arm <;> cases arm <;> simp

theorem depthBounded_iff (kind : Kind) (buf : Slice) (limits : DecoderLimits) :
    descriptors.nesting.DepthBounded ⟨kind, Reader.withLimits buf limits⟩ ↔
      descriptors.nesting.Avoids (fun kind => kind = Kind.set)
        ⟨kind, Reader.withLimits buf limits⟩ := by
  rw [Nesting.depthBounded_iff (Reader.withLimits_atStart buf limits)]
  refine Nesting.continues_iff_avoids ?_
  rintro parent opening r body child ⟨_, _, _, _, _, _, _, _, arm, _⟩
  exact arms_opening arm

end Descriptor

namespace Wkt

/-- Only a list opens readers that start over. -/
theorem arms_opening {kind child : Kind} {number : UInt32} {wireType : WireType} {opening : Opening}
    {set : child.Data → kind.Data → kind.Data}
    (arm : structs.arms kind number wireType = some (.message opening child set)) :
    opening = .nested ↔ ¬ kind = .list := by
  cases kind <;>
    simp only [structs, Struct.arms, Entry.arms, Value.arms, ListValue.arms] at arm <;>
    split at arm <;> cases arm <;> simp

theorem depthBounded_iff (kind : Kind) (buf : Slice) (limits : DecoderLimits) :
    structs.nesting.DepthBounded ⟨kind, Reader.withLimits buf limits⟩ ↔
      structs.nesting.Avoids (fun kind => kind = Kind.list) ⟨kind, Reader.withLimits buf limits⟩ := by
  rw [Nesting.depthBounded_iff (Reader.withLimits_atStart buf limits)]
  refine Nesting.continues_iff_avoids ?_
  rintro parent opening r body child ⟨_, _, _, _, _, _, _, _, arm, _⟩
  exact arms_opening arm

end Wkt

namespace Reflect

theorem depthBounded_iff (pool : DescriptorPool) (kind : NestKind) (buf : Slice)
    (limits : DecoderLimits) :
    (nesting pool).DepthBounded ⟨kind, Reader.withLimits buf limits⟩ ↔
      (nesting pool).Avoids (fun _ => False) ⟨kind, Reader.withLimits buf limits⟩ := by
  rw [Nesting.depthBounded_iff (Reader.withLimits_atStart buf limits)]
  refine Nesting.continues_iff_avoids ?_
  rintro parent opening r body child ⟨_, _, _, _, nested, _⟩
  simp [nested]

end Reflect

/-- The recursion limit holds over the whole nesting chain exactly where no file of a
descriptor set and no element of a list value is met, and no body at depth `2 ^ 32 - 1`. -/
theorem recursion_limit_iff (buf : Slice) (limits : DecoderLimits) :
    (∀ kind : Descriptor.Kind,
      Descriptor.descriptors.nesting.DepthBounded ⟨kind, Reader.withLimits buf limits⟩ ↔
        Descriptor.descriptors.nesting.Avoids (fun kind => kind = Descriptor.Kind.set)
          ⟨kind, Reader.withLimits buf limits⟩) ∧
    (∀ kind : Wkt.Kind,
      Wkt.structs.nesting.DepthBounded ⟨kind, Reader.withLimits buf limits⟩ ↔
        Wkt.structs.nesting.Avoids (fun kind => kind = Wkt.Kind.list)
          ⟨kind, Reader.withLimits buf limits⟩) ∧
    ∀ (pool : Reflect.DescriptorPool) (kind : Reflect.NestKind),
      (Reflect.nesting pool).DepthBounded ⟨kind, Reader.withLimits buf limits⟩ ↔
        (Reflect.nesting pool).Avoids (fun _ => False) ⟨kind, Reader.withLimits buf limits⟩ :=
  ⟨fun kind => Descriptor.depthBounded_iff kind buf limits,
    fun kind => Wkt.depthBounded_iff kind buf limits,
    fun pool kind => Reflect.depthBounded_iff pool kind buf limits⟩

/-- A descriptor set of one empty file, under a limit of no nesting at all. -/
theorem not_recursion_limit_file_set :
    ¬ Descriptor.descriptors.nesting.DepthBounded
      ⟨Descriptor.Kind.set,
        Reader.withLimits ⟨[0x0A, 0x00], by decide⟩ { DecoderLimits.default with maxDepth := 0 }⟩ := by
  intro bounded
  have fails := bounded.rejected _ .fresh _ ⟨[], by decide⟩ Descriptor.Kind.file .root
    ⟨[], _, .here, rfl, ⟨1, .lengthDelimited, by decide⟩, _, _, rfl, rfl, rfl⟩ rfl
  have accepted : (Descriptor.descriptors.decode Descriptor.Kind.set
      (Reader.withLimits ⟨[0x0A, 0x00], by decide⟩
        { DecoderLimits.default with maxDepth := 0 })) = .ok { file := [{}] } := by rfl
  cases accepted.symm.trans fails

end TptProto
