import TptProto.Core.Table
import TptProto.Foundation.SortedMap
import TptProto.Core.TableWritten

/-! `google.protobuf.Struct`, `Value` and `ListValue`, and the map entries of a struct. -/

namespace TptProto.Wkt

open TptProto.Foundation TptProto.Core

/-- A value. Numbers are the bit patterns of doubles; the fields of a struct are a hash
map, kept as its entries in the order of their keys. -/
inductive Value where
  | null
  | number (bits : UInt64)
  | string (text : String)
  | bool (value : Bool)
  | struct (fields : List (String × Value))
  | list (values : List Value)

structure Struct where
  fields : List (String × Value) := []

structure ListValue where
  values : List Value := []

/-- The key and value read so far from an entry. -/
structure Entry where
  key : String := ""
  val : Value := .null

inductive Kind where
  | struct
  | entry
  | value
  | list
  deriving DecidableEq, Repr

abbrev Kind.Data : Kind → Type
  | struct => Struct
  | entry => Entry
  | value => Value
  | list => ListValue

def Kind.start : (kind : Kind) → kind.Data
  | struct => {}
  | entry => {}
  | value => .null
  | list => {}

/-- What an arm of these decoders may do. -/
abbrev WktArm (D : Type) := Arm Kind.Data D

def Struct.arms (number : UInt32) (wireType : WireType) : Option (WktArm Struct) :=
  match number.toNat, wireType with
  | 1, .lengthDelimited =>
    some (.message .nested .entry fun (entry : Entry) self =>
      { self with fields := SortedMap.insert self.fields entry.key entry.val })
  | _, _ => none

def Entry.arms (number : UInt32) (wireType : WireType) : Option (WktArm Entry) :=
  match number.toNat, wireType with
  | 1, .lengthDelimited => some (.string fun key self => { self with key })
  | 2, .lengthDelimited =>
    some (.message .nested .value fun (val : Value) self => { self with val })
  | _, _ => none

def Value.arms (number : UInt32) (wireType : WireType) : Option (WktArm Value) :=
  match number.toNat, wireType with
  | 1, .varint => some (.int32 fun _ _ => .null)
  | 2, .varint | 2, .fixed64 => some (.double fun bits _ => .number bits)
  | 3, .lengthDelimited => some (.string fun text _ => .string text)
  | 4, .varint => some (.bool fun value _ => .bool value)
  | 5, .lengthDelimited =>
    some (.message .nested .struct fun (s : Struct) _ => .struct s.fields)
  | 6, .lengthDelimited =>
    some (.message .nested .list fun (l : ListValue) _ => .list l.values)
  | _, _ => none

/-- An element is decoded by `Value::decode`, from a reader of its own. -/
def ListValue.arms (number : UInt32) (wireType : WireType) : Option (WktArm ListValue) :=
  match number.toNat, wireType with
  | 1, .lengthDelimited =>
    some (.message .fresh .value fun (value : Value) self =>
      { self with values := self.values ++ [value] })
  | _, _ => none

/-- The decoders of structured values. -/
def structs : Table where
  Kind := Kind
  Data := Kind.Data
  start := Kind.start
  arms
    | .struct => Struct.arms
    | .entry => Entry.arms
    | .value => Value.arms
    | .list => ListValue.arms

end TptProto.Wkt

/-! The encoders of structured values, and that the decoders read back what they write,
whatever order the field maps are iterated in. -/

namespace TptProto.Wkt

open TptProto.Foundation TptProto.Core TptProto.Core.Table

section Encoders

/-- `scalar::encode_double`, from the bit pattern. -/
def encodeDouble (field : UInt32) (bits : UInt64) : Result (List UInt8) :=
  writeValue field (.fixed64 bits)

mutual

def Value.encode : Value → Result (List UInt8)
  | .null => encodeInt32 1 0
  | .number bits => encodeDouble 2 bits
  | .string text => encodeString 3 text
  | .bool value => encodeBool 4 value
  | .struct fields => writeMessage 5 (encodeFields fields)
  | .list values => writeMessage 6 (encodeValues values)

/-- The loop of `Struct::encode` over the entries in the order they are iterated. -/
def encodeFields : List (String × Value) → Result (List UInt8)
  | [] => .ok []
  | (k, v) :: rest => do
    let entry ← writeMessage 1 (do
      let key ← encodeString 1 k
      let val ← writeMessage 2 v.encode
      .ok (key ++ val))
    let more ← encodeFields rest
    .ok (entry ++ more)

/-- The loop of `ListValue::encode`. -/
def encodeValues : List Value → Result (List UInt8)
  | [] => .ok []
  | v :: rest => do
    let item ← writeMessage 1 v.encode
    let more ← encodeValues rest
    .ok (item ++ more)

end

def Struct.encode (self : Struct) : Result (List UInt8) := encodeFields self.fields

def ListValue.encode (self : ListValue) : Result (List UInt8) := encodeValues self.values

end Encoders

section Orders

mutual

/-- Every map of the tree lists its entries once, in the order of their keys. -/
def Value.Canonical : Value → Prop
  | .struct fields => SortedMap.Sorted fields ∧ CanonicalFields fields
  | .list values => CanonicalValues values
  | _ => True

def CanonicalFields : List (String × Value) → Prop
  | [] => True
  | (_, v) :: rest => v.Canonical ∧ CanonicalFields rest

def CanonicalValues : List Value → Prop
  | [] => True
  | v :: rest => v.Canonical ∧ CanonicalValues rest

end

mutual

/-- The second tree is the first with the entries of each map in the order they are iterated. -/
inductive Iterated : Value → Value → Prop
  | null : Iterated .null .null
  | number (bits : UInt64) : Iterated (.number bits) (.number bits)
  | string (text : String) : Iterated (.string text) (.string text)
  | bool (value : Bool) : Iterated (.bool value) (.bool value)
  | struct {fields order : List (String × Value)} (walked : IteratedFields fields order) :
      Iterated (.struct fields) (.struct order)
  | list {values items : List Value} (walked : IteratedValues values items) :
      Iterated (.list values) (.list items)

/-- Any entry comes first, and the others follow in some order. -/
inductive IteratedFields : List (String × Value) → List (String × Value) → Prop
  | nil : IteratedFields [] []
  | next {key : String} {v w : Value} {before after order : List (String × Value)}
      (head : Iterated v w) (others : IteratedFields (before ++ after) order) :
      IteratedFields (before ++ (key, v) :: after) ((key, w) :: order)

inductive IteratedValues : List Value → List Value → Prop
  | nil : IteratedValues [] []
  | cons {v w : Value} {values items : List Value} (head : Iterated v w)
      (tail : IteratedValues values items) : IteratedValues (v :: values) (w :: items)

end

theorem canonicalFields_iff {fields : List (String × Value)} :
    CanonicalFields fields ↔ ∀ entry ∈ fields, entry.2.Canonical := by
  induction fields with
  | nil => simp [CanonicalFields]
  | cons entry rest ih => rw [CanonicalFields, ih, List.forall_mem_cons]

end Orders

section Trip

variable {limits : DecoderLimits} {depth : UInt32}

/-- What is written of the tree is read as the value, whatever was read before. -/
def Value.Reads (v w : Value) : Prop :=
  ∀ (limits : DecoderLimits) (depth : UInt32) (before : Value),
    structs.Writes limits depth .value w.encode before v

private theorem entry_writes {key : String} {v w : Value} (reads : v.Reads w) (done : Struct) :
    structs.Writes limits depth .struct (writeMessage 1 (do
      let key ← encodeString 1 key
      let val ← writeMessage 2 w.encode
      .ok (key ++ val))) done { fields := SortedMap.insert done.fields key v } := by
  have keyWrites : structs.Writes limits (depth + 1) .entry (encodeString 1 key) (structs.start .entry)
      (⟨key, .null⟩ : Entry) := .string (by decide) rfl key rfl
  have valWrites : structs.Writes limits (depth + 1) .entry (writeMessage 2 w.encode)
      (⟨key, .null⟩ : Entry) (⟨key, v⟩ : Entry) :=
    .message (by decide) (by decide) rfl (reads _ _ .null) rfl
  exact .message (by decide) (by decide) rfl (keyWrites.append valWrites) rfl

/-- A map is read back from its entries in any order. -/
private theorem map_of_perm {fields order : List (String × Value)} (sorted : SortedMap.Sorted fields)
    (permuted : order.Perm fields) :
    order.foldl (fun map entry => SortedMap.insert map entry.1 entry.2) [] = fields := by
  have distinct : ((order ++ []).map Prod.fst).Nodup := by
    rw [List.append_nil]
    exact (permuted.map Prod.fst).nodup_iff.mpr sorted.nodup
  have same := SortedMap.foldl_insert_perm distinct
  rw [List.append_nil] at same
  have again : SortedMap.Sorted
      (order.foldl (fun map entry => SortedMap.insert map entry.1 entry.2) []) :=
    SortedMap.foldl_insert_sorted SortedMap.sorted_nil
  refine SortedMap.ext_get? again sorted fun key => Option.ext fun value => ?_
  rw [SortedMap.get?_eq_some_iff again, SortedMap.get?_eq_some_iff sorted, same.mem_iff,
    permuted.mem_iff]

mutual

private theorem value_reads {v w : Value} (walked : Iterated v w) (canonical : v.Canonical) :
    v.Reads w := by
  intro limits depth before
  cases walked with
  | null =>
    have written : structs.Writes limits depth .value (encodeInt32 1 0) before Value.null :=
      .int32 (by decide) rfl 0 rfl
    exact written
  | number bits =>
    have written : structs.Writes limits depth .value (writeValue 2 (.fixed64 bits)) before
        (Value.number bits) := .double (by decide) rfl bits rfl
    exact written
  | string text =>
    have written : structs.Writes limits depth .value (encodeString 3 text) before
        (Value.string text) := .string (by decide) rfl text rfl
    exact written
  | bool value =>
    have written : structs.Writes limits depth .value (encodeBool 4 value) before
        (Value.bool value) := .bool (by decide) rfl value rfl
    exact written
  | @struct fields order walked =>
    obtain ⟨listed, permuted, reads⟩ := fields_read walked (canonicalFields_iff.mp canonical.2)
    have inner := reads limits (depth + 1) {}
    rw [map_of_perm canonical.1 permuted] at inner
    have written : structs.Writes limits depth .value (writeMessage 5 (encodeFields order)) before
        (Value.struct fields) := .message (by decide) (by decide) rfl inner rfl
    exact written
  | @list values items walked =>
    have inner := values_read walked canonical limits (depth + 1) {}
    have written : structs.Writes limits depth .value (writeMessage 6 (encodeValues items)) before
        (Value.list values) := .message (by decide) (by decide) rfl inner rfl
    exact written

/-- The entries are read in the order they are written. -/
private theorem fields_read {fields order : List (String × Value)} (walked : IteratedFields fields order)
    (canonical : ∀ entry ∈ fields, entry.2.Canonical) :
    ∃ listed : List (String × Value), listed.Perm fields ∧
      ∀ (limits : DecoderLimits) (depth : UInt32) (done : Struct),
        structs.Writes limits depth .struct (encodeFields order) done
          { fields := listed.foldl (fun map entry => SortedMap.insert map entry.1 entry.2)
              done.fields } := by
  cases walked with
  | nil => exact ⟨[], .nil, fun _ _ _ => .nothing⟩
  | @next key v w before after order head others =>
    have reads := value_reads head (canonical (key, v) (by simp))
    obtain ⟨listed, permuted, later⟩ := fields_read others fun entry member =>
      canonical entry (by rcases List.mem_append.mp member with first | last <;> simp [*])
    refine ⟨(key, v) :: listed, (permuted.cons _).trans List.perm_middle.symm, ?_⟩
    intro limits depth done
    exact (entry_writes reads done).append (later limits depth _)

private theorem values_read {values items : List Value} (walked : IteratedValues values items)
    (canonical : CanonicalValues values) (limits : DecoderLimits) (depth : UInt32) (done : ListValue) :
    structs.Writes limits depth .list (encodeValues items) done
      { values := done.values ++ values } := by
  cases walked with
  | nil =>
    simp only [List.append_nil]
    exact .nothing
  | @cons v w values items head tail =>
    have first : structs.Writes limits depth .list (writeMessage 1 w.encode) done
        ({ values := done.values ++ [v] } : ListValue) :=
      .message (by decide) (by decide) rfl (value_reads head canonical.1 _ _ .null) rfl
    have later := values_read tail canonical.2 limits depth { values := done.values ++ [v] }
    simp only [List.append_assoc, List.singleton_append] at later
    exact first.append later

end

/-- Structs, values and lists, in whatever order their maps are iterated, are encoded, and decoding
an encoding within the default limits gives back the entries of every map. -/
theorem structs_round_trip :
    (∀ (s order : Struct), Value.Canonical (.struct s.fields) → IteratedFields s.fields order.fields →
      ∃ bytes, order.encode = .ok bytes ∧ (structs.WithinLimits .default 0 .struct bytes →
        Table.decodeBytes (T := structs) .struct (.ofBytes bytes) = .ok s)) ∧
    (∀ v order : Value, v.Canonical → Iterated v order →
      ∃ bytes, order.encode = .ok bytes ∧ (structs.WithinLimits .default 0 .value bytes →
        Table.decodeBytes (T := structs) .value (.ofBytes bytes) = .ok v)) ∧
    ∀ l order : ListValue, CanonicalValues l.values → IteratedValues l.values order.values →
      ∃ bytes, order.encode = .ok bytes ∧ (structs.WithinLimits .default 0 .list bytes →
        Table.decodeBytes (T := structs) .list (.ofBytes bytes) = .ok l) := by
  refine ⟨fun s order canonical walked => ?_, fun v order canonical walked => ?_,
    fun l order canonical walked => ?_⟩
  · obtain ⟨listed, permuted, reads⟩ := fields_read walked (canonicalFields_iff.mp canonical.2)
    have writes := reads .default 0 {}
    rw [map_of_perm canonical.1 permuted] at writes
    exact writes.decodeBytes
  · exact (value_reads walked canonical .default 0 .null).decodeBytes
  · exact (values_read walked canonical .default 0 {}).decodeBytes

/-- A null `a` and a true `b`. -/
private def twoFields : Struct := { fields := [("a", .null), ("b", .bool true)] }

/-- The same map, iterated from `b` on. -/
private def twoFieldsReversed : Struct := { fields := [("b", .bool true), ("a", .null)] }

private def twoFieldsBytes : List UInt8 :=
  [0x0a, 7, 0x0a, 1, 0x62, 0x12, 2, 0x20, 1, 0x0a, 7, 0x0a, 1, 0x61, 0x12, 2, 0x08, 0]

private theorem twoFields_iterated : IteratedFields twoFields.fields twoFieldsReversed.fields :=
  @IteratedFields.next "b" _ _ [("a", .null)] [] _ (.bool true)
    (@IteratedFields.next "a" _ _ [] [] _ .null .nil)

private def field (number : UInt32) (nonzero : number ≠ 0) (value : UnknownValue) : Item :=
  ⟨⟨number, value.wireType, nonzero⟩, value⟩

private theorem field_writable {number : UInt32} {nonzero : number ≠ 0} {value : UnknownValue}
    (small : number.toNat < 2 ^ 29) (sized : value.Sized) :
    (field number nonzero value).Writable Tag.wireType := ⟨small, rfl, sized⟩

private theorem null_within : structs.WithinLimits .default 2 .value [0x08, 0] := by
  have wire : Items Tag.wireType [field 1 (by decide) (.varint 0)] [0x08, 0] :=
    .single (field_writable (by decide) trivial : (field _ _ (.varint _)).Writable _).bytes
  refine .intro _ wire rfl rfl ?_ ?_ ?_ ?_ <;> simp only [List.mem_singleton, forall_eq]
  · trivial
  · exact fun _ found => by cases found
  · exact fun _ _ found => by cases found
  · exact fun _ _ _ found => by cases found

private theorem true_within : structs.WithinLimits .default 2 .value [0x20, 1] := by
  have wire : Items Tag.wireType [field 4 (by decide) (.varint 1)] [0x20, 1] :=
    .single (field_writable (by decide) trivial : (field _ _ (.varint _)).Writable _).bytes
  refine .intro _ wire rfl rfl ?_ ?_ ?_ ?_ <;> simp only [List.mem_singleton, forall_eq]
  · trivial
  · exact fun _ found => by cases found
  · exact fun _ _ found => by cases found
  · exact fun _ _ _ found => by cases found

private theorem entry_within {letter low high : UInt8} {bytes : List UInt8}
    (wire : Items Tag.wireType [field 1 (by decide) (.lengthDelimited [letter]),
      field 2 (by decide) (.lengthDelimited [low, high])] bytes)
    (short : DecoderLimits.within DecoderLimits.default.maxBytes bytes.length = true)
    (value : structs.WithinLimits .default 2 .value [low, high]) :
    structs.WithinLimits .default 1 .entry bytes := by
  refine .intro _ wire short rfl ?_ ?_ ?_ ?_
  all_goals simp only [List.mem_cons, List.not_mem_nil, or_false, forall_eq_or_imp, forall_eq]
  · exact ⟨rfl, rfl⟩
  · exact ⟨fun _ _ => rfl, fun _ found => by cases found⟩
  · exact ⟨fun _ _ found => (by cases found), fun _ _ _ => by decide⟩
  · refine ⟨fun _ _ _ found => (by cases found), fun opening child set found => ?_⟩
    cases found
    exact value

private theorem twoFields_within : structs.WithinLimits .default 0 .struct twoFieldsBytes := by
  have entry (body : List UInt8) (short : body.length < 2 ^ 64) :
      (field 1 (by decide) (.lengthDelimited body)).Writable Tag.wireType :=
    field_writable (by decide) short
  have val (body : List UInt8) (short : body.length < 2 ^ 64) :
      (field 2 (by decide) (.lengthDelimited body)).Writable Tag.wireType :=
    field_writable (by decide) short
  have wire : Items Tag.wireType [field 1 (by decide) (.lengthDelimited [0x0a, 1, 0x62, 0x12, 2, 0x20, 1]),
      field 1 (by decide) (.lengthDelimited [0x0a, 1, 0x61, 0x12, 2, 0x08, 0])] twoFieldsBytes :=
    .cons (entry _ (by decide)).bytes (.single (entry _ (by decide)).bytes)
  refine .intro _ wire rfl rfl ?_ ?_ ?_ ?_
  all_goals simp only [List.mem_cons, List.not_mem_nil, or_false, forall_eq_or_imp, forall_eq]
  · exact ⟨rfl, rfl⟩
  · exact ⟨fun _ found => (by cases found), fun _ found => by cases found⟩
  · exact ⟨fun _ _ _ => (by decide), fun _ _ _ => by decide⟩
  · refine ⟨fun opening child set found => ?_, fun opening child set found => ?_⟩
    · cases found
      exact entry_within
        (.cons (entry [0x62] (by decide)).bytes (.single (val [0x20, 1] (by decide)).bytes)) rfl true_within
    · cases found
      exact entry_within
        (.cons (entry [0x61] (by decide)).bytes (.single (val [0x08, 0] (by decide)).bytes)) rfl null_within

theorem structs_round_trip_reversed :
    Table.decodeBytes (T := structs) .struct (.ofBytes twoFieldsBytes) = .ok twoFields := by
  have sorted : SortedMap.Sorted twoFields.fields := by decide
  obtain ⟨bytes, encoded, decodes⟩ := structs_round_trip.1 twoFields twoFieldsReversed
    ⟨sorted, trivial, trivial, trivial⟩ twoFields_iterated
  have same : twoFieldsReversed.encode = .ok twoFieldsBytes := by rfl
  rw [same] at encoded
  cases encoded
  exact decodes twoFields_within

end Trip

end TptProto.Wkt
