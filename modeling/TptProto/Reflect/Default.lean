import TptProto.Reflect.Value
import TptProto.Foundation.Decimal
import Mathlib.Data.List.TakeWhile

/-! The default value of a field, as its descriptor has it as a text. -/

namespace TptProto.Reflect

open TptProto.Foundation TptProto.Core TptProto.Descriptor

section Bytes

def isOctalByte (b : UInt8) : Bool := 0x30 ≤ b && b ≤ 0x37

/-- `is_ascii_hexdigit`. -/
def isHexByte (b : UInt8) : Bool :=
  (0x30 ≤ b && b ≤ 0x39) || (0x41 ≤ b && b ≤ 0x46) || (0x61 ≤ b && b ≤ 0x66)

/-- What the loop over hexadecimal digits adds for one. To the distance of a letter, in lower case,
from `0` it adds 87. -/
def hexTerm (b : UInt8) : Nat :=
  if 0x30 ≤ b ∧ b ≤ 0x39 then b.toNat - 48
  else (if b ≤ 0x46 then b.toNat + 32 else b.toNat) - 48 + 87

/-- The byte that `parse_bytes_default` makes of an escape, given what stands behind the backslash,
and what is left. -/
def defaultEscape (b : UInt8) (rest : List UInt8) : UInt8 × List UInt8 :=
  if b = 0x6E then (0x0A, rest)
  else if b = 0x72 then (0x0D, rest)
  else if b = 0x74 then (0x09, rest)
  else if isOctalByte b then
    let digits := ((b :: rest).take 3).takeWhile isOctalByte
    (UInt8.ofNat (digits.foldl (fun v d => v * 8 + (d.toNat - 48)) 0), (b :: rest).drop digits.length)
  else if b = 0x78 ∧ rest ≠ [] then
    let digits := (rest.take 2).takeWhile isHexByte
    (UInt8.ofNat (digits.foldl (fun v d => v * 16 + hexTerm d) 0), rest.drop digits.length)
  else (b, rest)

/-- What a run of digits takes. -/
private theorem digits_split (keep : UInt8 → Bool) (n : Nat) (bytes : List UInt8) :
    bytes = (bytes.take n).takeWhile keep ++ bytes.drop ((bytes.take n).takeWhile keep).length := by
  have front : (bytes.take n).takeWhile keep <+: bytes :=
    (List.takeWhile_prefix keep).trans (List.take_prefix n bytes)
  exact (List.prefix_iff_eq_append.mp front).symm

/-- The escape takes at least the byte behind the backslash. A byte that stands for itself is all it
takes, else it takes ASCII characters. -/
theorem defaultEscape_takes (b : UInt8) (rest : List UInt8) :
    ∃ used, used ≠ [] ∧ b :: rest = used ++ (defaultEscape b rest).2 ∧
      ((∀ c ∈ used, 0 < c ∧ c < 128) ∨ used = [b] ∧ (defaultEscape b rest).1 = b) := by
  have one (small : 0 < b ∧ b < 128) : ∀ c ∈ [b], 0 < c ∧ c < 128 := by
    intro c member
    rw [List.mem_singleton.mp member]
    exact small
  unfold defaultEscape
  split
  · rename_i letter
    exact ⟨[b], List.cons_ne_nil _ _, rfl, .inl (one (by rw [letter]; decide))⟩
  split
  · rename_i letter
    exact ⟨[b], List.cons_ne_nil _ _, rfl, .inl (one (by rw [letter]; decide))⟩
  split
  · rename_i letter
    exact ⟨[b], List.cons_ne_nil _ _, rfl, .inl (one (by rw [letter]; decide))⟩
  split
  · rename_i octal
    refine ⟨((b :: rest).take 3).takeWhile isOctalByte, ?_, digits_split isOctalByte 3 (b :: rest), .inl ?_⟩
    · simp [octal]
    · intro c member
      have digit := List.mem_takeWhile_imp member
      simp only [isOctalByte, Bool.and_eq_true, decide_eq_true_eq] at digit
      exact ⟨by grind, by grind⟩
  split
  · rename_i hex
    refine ⟨b :: (rest.take 2).takeWhile isHexByte, List.cons_ne_nil _ _, ?_, .inl ?_⟩
    · exact congrArg (b :: ·) (digits_split isHexByte 2 rest)
    · intro c member
      rcases List.mem_cons.mp member with rfl | member
      · rw [hex.1]
        decide
      · have digit := List.mem_takeWhile_imp member
        simp only [isHexByte, Bool.or_eq_true, Bool.and_eq_true, decide_eq_true_eq] at digit
        exact ⟨by grind, by grind⟩
  · exact ⟨[b], List.cons_ne_nil _ _, rfl, .inr ⟨rfl, rfl⟩⟩

theorem defaultEscape_shorter (b : UInt8) (rest : List UInt8) :
    (defaultEscape b rest).2.length ≤ rest.length := by
  obtain ⟨used, nonempty, split, _⟩ := defaultEscape_takes b rest
  have positive := List.length_pos_iff.mpr nonempty
  have lengths := congrArg List.length split
  rw [List.length_cons, List.length_append] at lengths
  omega

/-- `parse_bytes_default`. A backslash at the end stands for itself. -/
def parseBytesDefault : List UInt8 → List UInt8
  | [] => []
  | [b] => [b]
  | b :: c :: rest =>
    if b = 0x5C then (defaultEscape c rest).1 :: parseBytesDefault (defaultEscape c rest).2
    else b :: parseBytesDefault (c :: rest)
termination_by bytes => bytes.length
decreasing_by
  · have shorter := defaultEscape_shorter c rest
    simp only [List.length_cons]
    omega
  · simp

end Bytes

section Twice

/-- The text and the bytes of a literal, side by side: an ASCII character is passed on as itself, and
any other piece as bytes without a backslash, as itself or as more bytes than it denotes. -/
inductive PassedOn : List UInt8 → List UInt8 → Prop where
  | nil : PassedOn [] []
  | ascii {text bytes : List UInt8} (b : UInt8) (small : 0 < b ∧ b < 128)
      (rest : PassedOn text bytes) : PassedOn (b :: text) (b :: bytes)
  | other {text bytes : List UInt8} (first : UInt8) (more denoted : List UInt8)
      (large : ¬ (0 < first ∧ first < 128)) (noEscape : 0x5C ∉ first :: more)
      (longer : denoted.length ≤ (first :: more).length)
      (same : denoted.length = (first :: more).length → denoted = first :: more)
      (rest : PassedOn text bytes) : PassedOn (first :: more ++ text) (denoted ++ bytes)

variable {text bytes : List UInt8}

theorem parseBytesDefault_cons {b : UInt8} (plain : b ≠ 0x5C) (rest : List UInt8) :
    parseBytesDefault (b :: rest) = b :: parseBytesDefault rest := by
  cases rest with
  | nil => simp [parseBytesDefault]
  | cons c rest => rw [parseBytesDefault, if_neg plain]

theorem parseBytesDefault_escape (c : UInt8) (rest : List UInt8) :
    parseBytesDefault (0x5C :: c :: rest) =
      (defaultEscape c rest).1 :: parseBytesDefault (defaultEscape c rest).2 := by
  rw [parseBytesDefault, if_pos rfl]

theorem parseBytesDefault_plain {front : List UInt8} (plain : 0x5C ∉ front) (rest : List UInt8) :
    parseBytesDefault (front ++ rest) = front ++ parseBytesDefault rest := by
  induction front with
  | nil => rfl
  | cons b front ih =>
    rw [List.mem_cons, not_or] at plain
    rw [List.cons_append, parseBytesDefault_cons (Ne.symm plain.1), ih plain.2, List.cons_append]

namespace PassedOn

/-- ASCII characters in front are characters of the literal. -/
theorem split {used : List UInt8} (passed : PassedOn (used ++ text) bytes)
    (small : ∀ b ∈ used, 0 < b ∧ b < 128) : ∃ rest, bytes = used ++ rest ∧ PassedOn text rest := by
  induction used generalizing bytes with
  | nil => exact ⟨bytes, rfl, passed⟩
  | cons b used ih =>
    rw [List.forall_mem_cons] at small
    generalize whole : b :: used ++ text = front at passed
    cases passed with
    | nil => cases whole
    | ascii c _ rest =>
      obtain ⟨rfl, rfl⟩ := List.cons.inj whole
      obtain ⟨tail, rfl, later⟩ := ih rest small.2
      exact ⟨tail, rfl, later⟩
    | other first more denoted large _ _ _ _ =>
      obtain ⟨rfl, _⟩ := List.cons.inj whole
      exact absurd small.1 large

/-- Once the text runs ahead of the bytes, it stays ahead: only a backslash lets it fall back, and
where the next one stands the bytes have one too. -/
theorem ahead (passed : PassedOn text bytes) {front : List UInt8} (nonempty : front ≠ [])
    (plain : 0x5C ∉ front) : front ++ parseBytesDefault text ≠ bytes := by
  induction passed generalizing front with
  | nil => simp [nonempty]
  | @ascii text bytes b small rest ih =>
    intro same
    obtain ⟨a, front, rfl⟩ := List.exists_cons_of_ne_nil nonempty
    obtain ⟨rfl, same⟩ := List.cons.inj same
    rw [List.mem_cons, not_or] at plain
    rw [parseBytesDefault_cons (Ne.symm plain.1)] at same
    refine @ih (front ++ [a]) (by simp) ?_ (by simpa using same)
    simpa [plain.2] using plain.1
  | @other text bytes first more denoted large noEscape longer same rest ih =>
    intro equal
    rw [parseBytesDefault_plain noEscape, ← List.append_assoc] at equal
    have fits : denoted.length ≤ (front ++ first :: more).length := by
      rw [List.length_append]
      omega
    obtain ⟨left, split⟩ := List.prefix_of_prefix_length_le ⟨bytes, rfl⟩ ⟨_, equal⟩ fits
    have lengths := congrArg List.length split
    have positive := List.length_pos_iff.mpr nonempty
    rw [List.length_append, List.length_append] at lengths
    rw [← split, List.append_assoc] at equal
    refine @ih left ?_ ?_ (List.append_cancel_left equal)
    · rintro rfl
      simp only [List.length_nil] at lengths
      omega
    · intro member
      have inside : 0x5C ∈ front ++ first :: more := by
        rw [← split]
        exact List.mem_append_right _ member
      exact (List.mem_append.mp inside).elim plain noEscape

/-- Once the text falls behind by ASCII characters, it stays behind. -/
theorem behind (passed : PassedOn text bytes) {owed : List UInt8} (nonempty : owed ≠ [])
    (small : ∀ b ∈ owed, 0 < b ∧ b < 128) : parseBytesDefault text ≠ owed ++ bytes := by
  intro equal
  induction size : text.length using Nat.strong_induction_on generalizing text bytes owed with
  | _ size ih =>
  subst size
  obtain ⟨o, owed, rfl⟩ := List.exists_cons_of_ne_nil nonempty
  rw [List.forall_mem_cons] at small
  cases passed with
  | nil => simp [parseBytesDefault] at equal
  | @ascii text bytes b range rest =>
    by_cases plain : b = 0x5C
    · subst plain
      cases text with
      | nil =>
        have lengths := congrArg List.length equal
        simp [parseBytesDefault] at lengths
      | cons c text =>
        rw [parseBytesDefault_escape] at equal
        obtain ⟨byte, equal⟩ := List.cons.inj equal
        obtain ⟨used, _, taken, kind⟩ := defaultEscape_takes c text
        have ascii : ∀ c ∈ used, 0 < c ∧ c < 128 := by
          rcases kind with ascii | ⟨rfl, itself⟩
          · exact ascii
          · intro d member
            rw [List.mem_singleton.mp member, ← itself, byte]
            exact small.1
        have shorter := defaultEscape_shorter c text
        rw [taken] at rest
        obtain ⟨left, rfl, later⟩ := rest.split ascii
        refine @ih _ ?_ _ _ later (owed ++ 0x5C :: used) (by simp) ?_ (by simpa using equal) rfl
        · simp only [List.length_cons]
          omega
        intro d member
        rcases List.mem_append.mp member with member | member
        · exact small.2 d member
        · rcases List.mem_cons.mp member with rfl | member
          · exact range
          · exact ascii d member
    · rw [parseBytesDefault_cons plain] at equal
      obtain ⟨rfl, equal⟩ := List.cons.inj equal
      refine @ih _ ?_ _ _ rest (owed ++ [b]) (by simp) ?_ (by simpa using equal) rfl
      · simp
      intro d member
      rcases List.mem_append.mp member with member | member
      · exact small.2 d member
      · rw [List.mem_singleton.mp member]
        exact range
  | other first more denoted large noEscape longer same rest =>
    rw [parseBytesDefault_plain noEscape] at equal
    obtain ⟨rfl, _⟩ := List.cons.inj equal
    exact large small.1

/-- If reading the text's escapes gives the bytes, then the text is the bytes, and has a backslash at
most at its end. -/
theorem parsed (passed : PassedOn text bytes) (equal : parseBytesDefault text = bytes) :
    text = bytes ∧ ∃ front, 0x5C ∉ front ∧ (text = front ∨ text = front ++ [0x5C]) := by
  induction passed with
  | nil => exact ⟨rfl, [], List.not_mem_nil, .inl rfl⟩
  | @ascii text bytes b small rest ih =>
    by_cases plain : b = 0x5C
    · subst plain
      cases text with
      | nil =>
        cases rest
        exact ⟨rfl, [], List.not_mem_nil, .inr rfl⟩
      | cons c text =>
        rw [parseBytesDefault_escape] at equal
        obtain ⟨byte, equal⟩ := List.cons.inj equal
        obtain ⟨used, nonempty, taken, kind⟩ := defaultEscape_takes c text
        have ascii : ∀ c ∈ used, 0 < c ∧ c < 128 := by
          rcases kind with ascii | ⟨rfl, itself⟩
          · exact ascii
          · intro d member
            rw [List.mem_singleton.mp member, ← itself, byte]
            exact small
        rw [taken] at rest
        obtain ⟨left, rfl, later⟩ := rest.split ascii
        exact absurd equal (behind later nonempty ascii)
    · rw [parseBytesDefault_cons plain] at equal
      obtain ⟨rfl, front, noEscape, ends⟩ := ih (List.cons.inj equal).2
      refine ⟨rfl, b :: front, ?_, ?_⟩
      · rw [List.mem_cons, not_or]
        exact ⟨Ne.symm plain, noEscape⟩
      · rcases ends with rfl | rfl
        · exact .inl rfl
        · exact .inr rfl
  | @other text bytes first more denoted large noEscape longer same rest ih =>
    rw [parseBytesDefault_plain noEscape] at equal
    obtain ⟨left, split⟩ := List.prefix_of_prefix_length_le ⟨bytes, rfl⟩ ⟨_, equal⟩ longer
    cases left with
    | nil =>
      rw [List.append_nil] at split
      subst split
      obtain ⟨rfl, front, noEscape', ends⟩ := ih (List.append_cancel_left equal)
      refine ⟨rfl, first :: more ++ front, ?_, ?_⟩
      · intro member
        exact (List.mem_append.mp member).elim noEscape noEscape'
      · rcases ends with rfl | rfl
        · exact .inl rfl
        · exact .inr (List.append_assoc _ _ _).symm
    | cons l left =>
      rw [← split, List.append_assoc] at equal
      refine absurd (List.append_cancel_left equal) (rest.ahead (List.cons_ne_nil l left) ?_)
      intro member
      exact noEscape (split ▸ List.mem_append_right _ member)

end PassedOn

end Twice

section Defaults

variable (parseDouble : String → Option UInt64)

/-- `parse_float`, given how the host language reads a double. -/
def parseFloat (s : String) : UInt64 :=
  if s = "inf" ∨ s = "infinity" ∨ s = "+inf" ∨ s = "+infinity" then 0x7FF0000000000000
  else if s = "-inf" ∨ s = "-infinity" then 0xFFF0000000000000
  else if s = "nan" ∨ s = "+nan" ∨ s = "-nan" then 0x7FF8000000000000
  else (parseDouble s).getD 0

def parseScalarDefault (t : FieldType) (default : Option String) : ScalarValue :=
  let dv := default.getD ""
  match t with
  | .int32 | .int64 | .sint32 | .sint64 | .sfixed32 | .sfixed64 =>
    .i64 (Int64.ofInt ((Decimal.parseInt (2 ^ 63) dv).getD 0))
  | .uint32 | .uint64 | .fixed32 | .fixed64 =>
    .u64 (UInt64.ofNat ((Decimal.parseNat (2 ^ 64) dv).getD 0))
  | .bool => .bool (dv = "true")
  | .float | .double => .f64 (parseFloat parseDouble dv)
  | .string => .string dv
  | .bytes => .bytes (parseBytesDefault (asBytes dv))
  | .enum | .message | .group => .i64 0

/-- A name of the enum stands for its number, any other text for the number it is. -/
def parseEnumDefault (pool : DescriptorPool) (f : FieldDescriptorProto) : Int32 :=
  match f.defaultValue with
  | none => 0
  | some name =>
    match (f.typeName.bind pool.lookupEnum).bind fun e => e.value.find? fun v => v.name = some name with
    | some v => v.number.getD 0
    | none => Int32.ofInt ((Decimal.parseInt (2 ^ 31) name).getD 0)

/-- The value of a message-typed field, if the pool has its type. -/
def emptyMessage (pool : DescriptorPool) (f : FieldDescriptorProto) : Option Value :=
  if f.type = some .message ∨ f.type = some .group then
    (f.typeName.bind pool.lookupMessage).map fun d => .message (DynMsg.new d pool)
  else none

/-- `default_value_for`. -/
def defaultValueFor (pool : DescriptorPool) (f : FieldDescriptorProto) : Value :=
  if f.label = some .repeated then
    if isMapField pool f then .map [] else .list []
  else
    match emptyMessage pool f with
    | some empty => empty
    | none =>
      match f.type with
      | some .enum => .enum (parseEnumDefault pool f)
      | some t => .scalar (parseScalarDefault parseDouble t f.defaultValue)
      | none => .scalar (.i64 0)

variable {parseDouble} {pool : DescriptorPool} {f : FieldDescriptorProto}

/-- A field that holds one string or bytes reports the default that its text is parsed as. -/
theorem defaultValueFor_single {t : FieldType} (single : f.label ≠ some .repeated)
    (type : f.type = some t) (text : t = .string ∨ t = .bytes) :
    defaultValueFor parseDouble pool f = .scalar (parseScalarDefault parseDouble t f.defaultValue) := by
  unfold defaultValueFor emptyMessage
  rw [if_neg single, type]
  rcases text with rfl | rfl
  · rfl
  · rfl

end Defaults

/-- The bytes that a string or bytes value has. -/
def Value.bytes? : Value → Option (List UInt8)
  | .scalar (.string s) => some (asBytes s)
  | .scalar (.bytes bytes) => some bytes
  | _ => none

/-- A repeated field reports a list or a map. -/
theorem defaultValueFor_repeated {parseDouble : String → Option UInt64} {pool : DescriptorPool}
    {f : FieldDescriptorProto} (repeated : f.label = some .repeated) :
    (defaultValueFor parseDouble pool f).bytes? = none := by
  rw [defaultValueFor, if_pos repeated]
  split
  · rfl
  · rfl

end TptProto.Reflect
