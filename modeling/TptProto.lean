import TptProto.Foundation.Outcome
import TptProto.Foundation.Logged
import TptProto.Foundation.Loop
import TptProto.Foundation.Reach
import TptProto.Foundation.Nesting
import TptProto.Foundation.SortedMap
import TptProto.Foundation.Sequence
import TptProto.Foundation.Ieee
import TptProto.Core.Bytes
import TptProto.Core.Error
import TptProto.Foundation.Base128
import TptProto.Core.Varint
import TptProto.Core.WireType
import TptProto.Core.Reader
import TptProto.Core.ReaderSpec
import TptProto.Core.Packed
import TptProto.Core.Unknown
import TptProto.Core.Frame
import TptProto.Core.FrameReader
import TptProto.Core.Chunks
import TptProto.Core.FieldLoop
import TptProto.Core.UnknownSpec
import TptProto.Core.PackedTrip
import TptProto.Core.Collect
import TptProto.Core.Reencode
import TptProto.Core.UnknownMerge
import TptProto.Core.UnknownRuns
import TptProto.Core.Progress
import TptProto.Core.Budget
import TptProto.Core.Groups
import TptProto.Core.ScalarTrip
import TptProto.Core.Nesting
import TptProto.Core.Twin
import TptProto.Core.Table
import TptProto.Core.TableWritten
import TptProto.Core.TableExtras
import TptProto.Core.MapEntry
import TptProto.Core.MapInput
import TptProto.Core.Occurrence
import TptProto.Descriptor.Types
import TptProto.Reflect.Value
import TptProto.Reflect.Codec
import TptProto.Reflect.DecodeSpec
import TptProto.Reflect.Resync
import TptProto.Reflect.Oneof
import TptProto.Foundation.Prim
import TptProto.Codegen.Types
import TptProto.Codegen.Packed
import TptProto.Codegen.Message
import TptProto.Codegen.MergeSpec
import TptProto.Codegen.Nesting
import TptProto.Codegen.Occurrences
import TptProto.Codegen.PackedSpec
import TptProto.Codegen.PackedTrip
import TptProto.PackedFields
import TptProto.Codegen.MapEntries
import TptProto.Descriptor.Decode
import TptProto.Descriptor.Encode
import TptProto.Descriptor.RoundTrip
import TptProto.Wkt.Struct
import TptProto.Reflect.Nesting
import TptProto.Reflect.MapEntries
import TptProto.Reflect.PackedFields
import TptProto.Descriptor.LocationFields
import TptProto.DepthLimit
import TptProto.Language.Ast
import TptProto.Language.Parser
import TptProto.Language.Ranges
import TptProto.Language.Statements
import TptProto.Language.Loops
import TptProto.Language.Calls
import TptProto.Language.Progress
import TptProto.Language.ConstantLists
import TptProto.Language.Terminates
import TptProto.Language.Depth
import TptProto.Compiler.Convert
import TptProto.Compiler.Pipeline
import TptProto.Foundation.DepthFirst
import TptProto.Compiler.Cycles
import TptProto.Compiler.Visibility
import TptProto.Compiler.Accepted
import TptProto.Compiler.Traverse
import TptProto.Compiler.Symbols
import TptProto.Compiler.Unique
import TptProto.Compiler.Scoping
import TptProto.Compiler.Kinds
import TptProto.Compiler.RangeLowering
import TptProto.Lint.Lint
import TptProto.Compiler.Restrictions
import TptProto.MapFields
import TptProto.Foundation.Base64
import TptProto.Foundation.Decimal
import TptProto.Foundation.Incremental
import TptProto.Foundation.Trace
import TptProto.Grpc.Codec
import TptProto.Grpc.Metadata
import TptProto.Grpc.Status
import TptProto.Grpc.Deframe
import TptProto.Grpc.RpcStatus
import TptProto.Grpc.MetadataWire
import TptProto.Grpc.StatusWire
import TptProto.Grpc.Client
import TptProto.Grpc.TerminalStatus
import TptProto.Grpc.Timeout
import TptProto.Grpc.Reflection
import TptProto.Grpc.Context
import TptProto.Grpc.RequestMetadata
import TptProto.Grpc.HandleRequest
import TptProto.Grpc.FrameSplit
import TptProto.Grpc.Integrity
import TptProto.Grpc.Recorded
import TptProto.Grpc.Deadline
import TptProto.Grpc.Authorization
import TptProto.Grpc.Health
import TptProto.Reflect.Pool
import TptProto.Reflect.Extensions
import TptProto.Reflect.Merge
import TptProto.Codegen.Merge
import TptProto.Concatenation
import TptProto.Json.Types
import TptProto.Json.Scalar
import TptProto.Json.WellKnown
import TptProto.Json.Print
import TptProto.Json.Parse
import TptProto.Json.Dispatch
import TptProto.Json.Integers
import TptProto.Json.Members
import TptProto.Json.Typed
import TptProto.Json.TypedMessages
import TptProto.Text.Print
import TptProto.Text.Lexer
import TptProto.Text.Parser
import TptProto.Text.Lexed
import TptProto.Text.Grammar
import TptProto.Text.Total
import TptProto.MapFlag
import TptProto.Grpc.Shutdown
import TptProto.Wkt.Messages
import TptProto.Codegen.Iteration
import TptProto.Codegen.Parts
import TptProto.Codegen.Deterministic
import TptProto.Foundation.Evolution
import TptProto.Lint.Rules
import TptProto.Lint.Transitive
import TptProto.Language.Spelling
import TptProto.Json.Names
import TptProto.Json.StructForms
import TptProto.Language.Lexer
import TptProto.Core.Utf8
import TptProto.Language.Words
import TptProto.Language.Lexed
import TptProto.Fmt.Format
import TptProto.Build.Resolve
import TptProto.Foundation.Trim
import TptProto.Build.Compile
import TptProto.Build.Incremental
import TptProto.Build.Loading
import TptProto.Foundation.JsonText
import TptProto.Lint.RenderJson
import TptProto.Lint.Reflexive
import TptProto.Language.Coverage
import TptProto.Language.Literals
import TptProto.Language.StringValues
import TptProto.Language.Numerals
import TptProto.Language.Declarations
import TptProto.Compiler.SignedConstants
import TptProto.Codegen.Names
import TptProto.Codegen.TypeMap
import TptProto.Codegen.Places
import TptProto.TypeNames
import TptProto.Grpc.Schedules
import TptProto.Grpc.RequestStream
import TptProto.Grpc.Retry
import TptProto.Grpc.Observability
import TptProto.Json.Durations
import TptProto.Json.Wrappers
import TptProto.Text.Deterministic
import TptProto.Language.Lexemes
import TptProto.Fmt.Layout
import TptProto.Json.DepthSymmetry
import TptProto.Codegen.Default
import TptProto.Reflect.Default
import TptProto.StringDefaults
import TptProto.Conformance.Testee
import TptProto.Grpc.Security
import TptProto.Fmt.Relexed
import TptProto.Json.RoundTrip
