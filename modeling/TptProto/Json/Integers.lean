import TptProto.Json.Parse
import TptProto.Reflect.Oneof

/-! Which integers the JSON conversion reads exactly. -/

namespace TptProto.Json

open TptProto.Foundation TptProto.Core TptProto.Descriptor TptProto.Reflect

/-- The least and the greatest integer of a type. -/
def intRange : FieldType → Option (Int × Int)
  | .int32 | .sint32 | .sfixed32 | .enum => some (-2 ^ 31, 2 ^ 31 - 1)
  | .int64 | .sint64 | .sfixed64 => some (-2 ^ 63, 2 ^ 63 - 1)
  | .uint32 | .fixed32 => some (0, 2 ^ 32 - 1)
  | .uint64 | .fixed64 => some (0, 2 ^ 64 - 1)
  | .double | .float | .bool | .string | .group | .message | .bytes => none

/-- The integer is representable in the type. -/
def Representable (t : FieldType) (n : Int) : Prop :=
  ∃ low high, intRange t = some (low, high) ∧ low ≤ n ∧ n ≤ high

/-- The exact value of a number is the integer. -/
def Number.Denotes (number : Number) (n : Int) : Prop :=
  match number with
  | .posInt value => n = value.toNat
  | .negInt value _ => n = value.toInt
  | .float bits _ => Ieee.Denotes bits n

/-- The integer that a text stands for: an enum value by its name, or a decimal numeral. -/
def textInteger (pool : DescriptorPool) (field : FieldDescriptorProto) (s : String) : Option Int :=
  match typeOf field with
  | .enum =>
    match enumValue? pool field fun v => v.name = some s with
    | some v => some (v.number.getD 0).toInt
    | none => Decimal.numeral? s
  | _ => Decimal.numeral? s

/-- What a JSON number or text denotes for a field. -/
def Denoted (pool : DescriptorPool) (field : FieldDescriptorProto) : Json → Int → Prop
  | .number n, z => n.Denotes z
  | .string s, z => textInteger pool field s = some z
  | _, _ => False

def integerOf : Value → Option Int
  | .scalar (.i64 x) => some x.toInt
  | .scalar (.u64 x) => some x.toNat
  | .enum n => some n.toInt
  | _ => none

/-- Accepted exactly if an integer is denoted that is representable, and stored as that integer. -/
structure Exact (denoted : Int → Prop) (t : FieldType) (stored : JsonResult (Option Value)) :
    Prop where
  sound : ∀ result, stored = .ok result →
    ∃ value n, result = some value ∧ denoted n ∧ Representable t n ∧ integerOf value = some n
  complete : ∀ n, denoted n → Representable t n →
    ∃ value, stored = .ok (some value) ∧ integerOf value = some n

/-- The type in which a text is read before it is narrowed. -/
def readAs : FieldType → FieldType
  | .int32 | .sint32 | .sfixed32 | .int64 | .sint64 | .sfixed64 => .int64
  | .uint32 | .fixed32 | .uint64 | .fixed64 => .uint64
  | t => t

/-- A numeral in the range of the wider type is in that of the type, and the numeral of an
unsigned type has no minus sign. -/
def TextFits (t : FieldType) (s : String) : Prop :=
  ∀ n, Decimal.numeral? s = some n →
    (Representable (readAs t) n → Representable t n) ∧
      (readAs t = .uint64 → n = 0 → s.toList.head? ≠ some '-')

/-- A number denotes a representable integer, for an enum in integer notation or zero; a text
fits its type. -/
def IntegerFits (t : FieldType) : Json → Prop
  | .number n => (∃ z, n.Denotes z ∧ Representable t z) ∧
      (t = .enum → n.asI64.isSome = true ∨ n.Denotes 0)
  | .string s => TextFits t s
  | _ => True

section Numbers

private theorem toInt_toInt64 {x : UInt64} (small : x.toNat < 2 ^ 63) :
    x.toInt64.toInt = x.toNat := by
  show x.toBitVec.toInt = x.toNat
  rw [BitVec.toInt_eq_toNat_of_lt (by
    have : x.toBitVec.toNat = x.toNat := rfl
    omega)]
  rfl

theorem Number.Denotes.unique {number : Number} {first second : Int}
    (one : number.Denotes first) (other : number.Denotes second) : first = second := by
  cases number with
  | posInt | negInt => exact Eq.trans one (Eq.symm other)
  | float => exact Ieee.Denotes.unique one other

private theorem asI64_denotes {number : Number} {x : Int64} (whole : number.asI64 = some x) :
    number.Denotes x.toInt := by
  cases number with
  | posInt value =>
    by_cases small : value.toNat < 2 ^ 63
    · rw [Number.asI64, if_pos small] at whole
      cases whole
      exact toInt_toInt64 small
    · rw [Number.asI64, if_neg small] at whole
      cases whole
  | negInt value =>
    cases whole
    rfl
  | float => cases whole

private theorem toI64_of_denotes {number : Number} {n : Int} (denotes : number.Denotes n)
    (low : -2 ^ 63 ≤ n) (high : n ≤ 2 ^ 63 - 1) :
    number.toI64.toInt = n := by
  unfold Number.toI64
  cases number with
  | posInt value =>
    have same : n = value.toNat := denotes
    have small : value.toNat < 2 ^ 63 := by omega
    rw [Number.asI64, if_pos small, Option.getD_some, toInt_toInt64 small, same]
  | negInt value => exact Eq.symm denotes
  | float bits finite =>
    rw [Number.asI64, Option.getD_none, Number.asF64,
      Ieee.truncate64_of_denotes denotes low high, Int64.toInt_ofInt_of_le low (by omega)]

private theorem toU64_of_denotes {number : Number} {n : Int} (denotes : number.Denotes n)
    (low : 0 ≤ n) (high : n ≤ 2 ^ 64 - 1) :
    (number.toU64.toNat : Int) = n := by
  unfold Number.toU64
  cases number with
  | posInt value => exact Eq.symm denotes
  | negInt value negative =>
    have same : n = value.toInt := denotes
    have below : value.toInt < 0 := Int64.lt_iff_toInt_lt.mp negative
    omega
  | float bits finite =>
    rw [Number.asU64, Option.getD_none, Number.asF64,
      Ieee.truncate64_of_denotes denotes low high, UInt64.toNat_ofNat']
    omega

/-- A result that is always accepted is exact if it is right. -/
private theorem exact_accepted {denoted : Int → Prop} {t : FieldType} {value : Value}
    (unique : ∀ first second, denoted first → denoted second → first = second) :
    Exact denoted t (.ok (some value)) ↔
      ∃ n, denoted n ∧ Representable t n ∧ integerOf value = some n := by
  constructor
  · intro exact
    obtain ⟨found, n, same, denotes, fits, right⟩ := exact.sound _ rfl
    cases same
    exact ⟨n, denotes, fits, right⟩
  · rintro ⟨n, denotes, fits, right⟩
    refine ⟨?_, ?_⟩
    · rintro result ⟨⟩
      exact ⟨value, n, rfl, denotes, fits, right⟩
    · intro other denotesOther _
      cases unique other n denotesOther denotes
      exact ⟨value, rfl, right⟩

end Numbers

section Texts

/-- A conversion that reads the admitted numerals and nothing else, and may narrow them. -/
private structure Reads (s : String) (admitted : Int → Prop) (narrow : Int → Int)
    (stored : JsonResult (Option Value)) : Prop where
  reads : ∀ n, Decimal.numeral? s = some n → admitted n →
    ∃ value, stored = .ok (some value) ∧ integerOf value = some (narrow n)
  rejects : ∀ result, stored = .ok result → ∃ n, Decimal.numeral? s = some n ∧ admitted n

private theorem exact_of_reads {s : String} {admitted : Int → Prop} {narrow : Int → Int}
    {stored : JsonResult (Option Value)} {t : FieldType} (reads : Reads s admitted narrow stored)
    (kept : ∀ n, Representable t n → narrow n = n) :
    Exact (fun n => Decimal.numeral? s = some n) t stored ↔
      ∀ n, Decimal.numeral? s = some n → (admitted n ↔ Representable t n) := by
  constructor
  · intro exact n numeral
    constructor
    · intro ok
      obtain ⟨value, accepted, _⟩ := reads.reads n numeral ok
      obtain ⟨_, m, _, same, fits, _⟩ := exact.sound _ accepted
      cases numeral.symm.trans same
      exact fits
    · intro fits
      obtain ⟨value, accepted, _⟩ := exact.complete n numeral fits
      obtain ⟨m, same, ok⟩ := reads.rejects _ accepted
      cases numeral.symm.trans same
      exact ok
  · intro agree
    refine ⟨?_, ?_⟩
    · intro result accepted
      obtain ⟨n, numeral, ok⟩ := reads.rejects result accepted
      have fits := (agree n numeral).mp ok
      obtain ⟨value, accepted', right⟩ := reads.reads n numeral ok
      cases accepted.symm.trans accepted'
      rw [kept n fits] at right
      exact ⟨value, n, rfl, numeral, fits, right⟩
    · intro n numeral fits
      obtain ⟨value, accepted, right⟩ := reads.reads n numeral ((agree n numeral).mpr fits)
      rw [kept n fits] at right
      exact ⟨value, accepted, right⟩

/-- A numeral with a minus sign is not positive. -/
private theorem numeral_nonpos {s : String} {n : Int} (numeral : Decimal.numeral? s = some n)
    (minus : s.toList.head? = some '-') : n ≤ 0 := by
  unfold Decimal.numeral? at numeral
  split at numeral
  · obtain ⟨m, _, rfl⟩ := Option.map_eq_some_iff.mp numeral
    omega
  · rename_i chars positive
    cases split : s.toList with
    | nil => simp [split] at minus
    | cons c rest =>
      rw [split] at minus
      cases minus
      exact (positive rest split).elim

/-- What the type in which a text is read admits. -/
private def Admitted (t : FieldType) (s : String) (n : Int) : Prop :=
  Representable (readAs t) n ∧ (readAs t = .uint64 → s.toList.head? ≠ some '-')

private theorem textFits_iff {t : FieldType} {s : String}
    (wider : ∀ n, Representable t n → Representable (readAs t) n)
    (unsigned : readAs t = .uint64 → Representable t 0) :
    TextFits t s ↔ ∀ n, Decimal.numeral? s = some n → (Admitted t s n ↔ Representable t n) := by
  constructor
  · intro fits n numeral
    obtain ⟨narrow, sign⟩ := fits n numeral
    refine ⟨fun admitted => narrow admitted.1, ?_⟩
    intro here
    refine ⟨wider n here, ?_⟩
    intro isUnsigned minus
    have low : 0 ≤ n := by
      obtain ⟨low, high, range, above, _⟩ := wider n here
      rw [isUnsigned] at range
      cases range
      exact above
    exact sign isUnsigned (Int.le_antisymm (numeral_nonpos numeral minus) low) minus
  · intro agree n numeral
    refine ⟨?_, ?_⟩
    · intro wide
      by_cases isUnsigned : readAs t = .uint64
      · by_cases minus : s.toList.head? = some '-'
        · have low : 0 ≤ n := by
            obtain ⟨low, high, range, above, _⟩ := wide
            rw [isUnsigned] at range
            cases range
            exact above
          cases Int.le_antisymm (numeral_nonpos numeral minus) low
          exact unsigned isUnsigned
        · exact (agree n numeral).mp ⟨wide, fun _ => minus⟩
      · exact (agree n numeral).mp ⟨wide, fun signed => (isUnsigned signed).elim⟩
    · intro isUnsigned zero
      subst zero
      exact ((agree 0 numeral).mpr (unsigned isUnsigned)).2 isUnsigned

/-- A conversion of what the signed type of 64 bits reads. -/
private theorem reads_signed {t : FieldType} (s : String) {narrow : Int → Int} {e : JsonError}
    {store : Int → Value} (signed : readAs t = .int64)
    (right : ∀ n, Representable .int64 n → integerOf (store n) = some (narrow n)) :
    Reads s (Admitted t s) narrow
      ((Outcome.ofOption e (Decimal.parseInt (2 ^ 63) s)).map fun n => some (store n)) := by
  have admitted (n : Int) : Admitted t s n ↔ -((2 ^ 63 : Nat) : Int) ≤ n ∧ n < (2 ^ 63 : Nat) := by
    constructor
    · rintro ⟨⟨low, high, range, above, below⟩, _⟩
      rw [signed] at range
      cases range
      omega
    · rintro ⟨above, below⟩
      refine ⟨⟨-2 ^ 63, 2 ^ 63 - 1, by rw [signed]; rfl, by omega, by omega⟩, ?_⟩
      rw [signed]
      nofun
  refine ⟨?_, ?_⟩
  · intro n numeral here
    have read := (Decimal.parseInt_eq_some (Nat.two_pow_pos 63)).mpr ⟨numeral, (admitted n).mp here⟩
    refine ⟨store n, by rw [read]; rfl, right n ?_⟩
    have wide := here.1
    rwa [signed] at wide
  · intro result accepted
    obtain ⟨n, read, _⟩ := Outcome.map_eq_ok.mp accepted
    have found := (Decimal.parseInt_eq_some (Nat.two_pow_pos 63)).mp (Outcome.ofOption_eq_ok.mp read)
    exact ⟨n, found.1, (admitted n).mpr found.2⟩

/-- A conversion of what the unsigned type of 64 bits reads. -/
private theorem reads_unsigned {t : FieldType} (s : String) {narrow : Int → Int} {e : JsonError}
    {store : Nat → Value} (unsigned : readAs t = .uint64)
    (right : ∀ n : Nat, Representable .uint64 n → integerOf (store n) = some (narrow n)) :
    Reads s (Admitted t s) narrow
      ((Outcome.ofOption e (Decimal.parseNat (2 ^ 64) s)).map fun n => some (store n)) := by
  refine ⟨?_, ?_⟩
  · rintro n numeral ⟨wide, sign⟩
    rw [unsigned] at wide
    obtain ⟨low, high, range, above, below⟩ := id wide
    cases range
    obtain ⟨m, rfl⟩ := Int.eq_ofNat_of_zero_le above
    have read := Decimal.parseNat_eq_some_iff.mpr ⟨numeral, (by omega : m < 2 ^ 64), sign unsigned⟩
    exact ⟨store m, by rw [read]; rfl, right m wide⟩
  · intro result accepted
    obtain ⟨n, read, _⟩ := Outcome.map_eq_ok.mp accepted
    obtain ⟨numeral, small, sign⟩ := Decimal.parseNat_eq_some_iff.mp (Outcome.ofOption_eq_ok.mp read)
    refine ⟨n, numeral, ⟨0, 2 ^ 64 - 1, by rw [unsigned]; rfl, by omega, by omega⟩, ?_⟩
    exact fun _ => sign

/-- Narrowing to 32 bits keeps what is representable. -/
private theorem bmod_representable {n : Int} (fits : Representable .int32 n) :
    n.bmod (2 ^ 32) = n := by
  obtain ⟨low, high, range, above, below⟩ := fits
  cases range
  exact Int.bmod_eq_of_le (by omega) (by omega)

private theorem emod_representable {n : Int} (fits : Representable .uint32 n) :
    n % 2 ^ 32 = n := by
  obtain ⟨low, high, range, above, below⟩ := fits
  cases range
  omega

end Texts

section Scalars

variable (libs : Libraries) (opts : JsonOptions) (fname : String)

/-- The shape of a conversion to a scalar, as what a message stores. -/
private def scalarStored (t : FieldType) (jv : Json) : JsonResult (Option Value) :=
  (jsonToScalar libs t jv fname opts).map fun s => some (.scalar s)

private theorem exact_text {t : FieldType} (integer : (intRange t).isSome) (notEnum : t ≠ .enum)
    (s : String) :
    Exact (fun n => Decimal.numeral? s = some n) t (scalarStored libs opts fname t (.string s)) ↔
      TextFits t s := by
  have assembled {narrow : Int → Int}
      (reads : Reads s (Admitted t s) narrow (scalarStored libs opts fname t (.string s)))
      (kept : ∀ n, Representable t n → narrow n = n)
      (wider : ∀ n, Representable t n → Representable (readAs t) n)
      (unsigned : readAs t = .uint64 → Representable t 0) :=
    (exact_of_reads reads kept).trans (textFits_iff wider unsigned).symm
  have exactInt (n : Int) (fits : Representable .int64 n) : (Int64.ofInt n).toInt = n := by
    obtain ⟨low, high, range, above, below⟩ := fits
    cases range
    exact Int64.toInt_ofInt_of_le above (by omega)
  have exactNat (n : Nat) (fits : Representable .uint64 n) : (UInt64.ofNat n).toNat = n := by
    obtain ⟨low, high, range, above, below⟩ := fits
    cases range
    rw [UInt64.toNat_ofNat']
    omega
  have wider32 (n : Int) (fits : Representable .int32 n) : Representable .int64 n := by
    obtain ⟨low, high, range, above, below⟩ := fits
    cases range
    exact ⟨_, _, rfl, by omega, by omega⟩
  have widerNat32 (n : Int) (fits : Representable .uint32 n) : Representable .uint64 n := by
    obtain ⟨low, high, range, above, below⟩ := fits
    cases range
    exact ⟨_, _, rfl, by omega, by omega⟩
  have zero32 : Representable .uint32 0 := ⟨_, _, rfl, by omega, by omega⟩
  cases t with
  | int32 | sint32 | sfixed32 =>
    refine @assembled (fun n => n.bmod (2 ^ 32)) ?_
      (fun n fits => bmod_representable fits) wider32 nofun
    simp only [scalarStored, jsonToScalar, parseI64, Outcome.map_map]
    refine reads_signed s (by rfl) fun n _ => ?_
    simp [integerOf]
  | int64 | sint64 | sfixed64 =>
    refine @assembled id ?_ (fun n _ => rfl) (fun n fits => fits) nofun
    simp only [scalarStored, jsonToScalar, parseI64, Outcome.map_map]
    refine reads_signed s (by rfl) fun n fits => ?_
    simp [integerOf, exactInt n fits]
  | uint32 | fixed32 =>
    refine @assembled (fun n => n % 2 ^ 32) ?_ (fun n fits => emod_representable fits)
      widerNat32 fun _ => zero32
    simp only [scalarStored, jsonToScalar, parseU64, Outcome.map_map]
    refine reads_unsigned s (by rfl) fun n _ => ?_
    simp [integerOf]
  | uint64 | fixed64 =>
    refine @assembled id ?_ (fun n _ => rfl) (fun n fits => fits)
      fun _ => widerNat32 0 zero32
    simp only [scalarStored, jsonToScalar, parseU64, Outcome.map_map]
    refine reads_unsigned s (by rfl) fun n fits => ?_
    simp [integerOf, exactNat n fits]
  | enum => exact (notEnum rfl).elim
  | double | float | bool | string | group | message | bytes => cases integer

private theorem exact_number {t : FieldType} (integer : (intRange t).isSome) (notEnum : t ≠ .enum)
    (n : Number) :
    Exact n.Denotes t (scalarStored libs opts fname t (.number n)) ↔
      ∃ z, n.Denotes z ∧ Representable t z := by
  have assembled {value : Value} (right : ∀ z, n.Denotes z → Representable t z →
      integerOf value = some z) :
      Exact n.Denotes t (.ok (some value)) ↔ ∃ z, n.Denotes z ∧ Representable t z := by
    refine (exact_accepted fun _ _ => Number.Denotes.unique).trans ?_
    constructor
    · rintro ⟨z, denotes, fits, _⟩
      exact ⟨z, denotes, fits⟩
    · rintro ⟨z, denotes, fits⟩
      exact ⟨z, denotes, fits, right z denotes fits⟩
  cases t with
  | int32 | sint32 | sfixed32 =>
    apply assembled
    intro z denotes fits
    have narrow := bmod_representable fits
    obtain ⟨low, high, range, above, below⟩ := fits
    cases range
    have read := toI64_of_denotes denotes (by omega) (by omega)
    simp only [integerOf, Int32.toInt_toInt64, Int64.toInt_toInt32, read, narrow]
  | int64 | sint64 | sfixed64 =>
    apply assembled
    rintro z denotes ⟨low, high, range, above, below⟩
    cases range
    have read := toI64_of_denotes denotes above below
    simp [integerOf, read]
  | uint32 | fixed32 =>
    apply assembled
    rintro z denotes ⟨low, high, range, above, below⟩
    cases range
    have read := toU64_of_denotes denotes above (by omega)
    simp only [integerOf, UInt32.toNat_toUInt64, UInt64.toNat_toUInt32, Option.some.injEq]
    omega
  | uint64 | fixed64 =>
    apply assembled
    rintro z denotes ⟨low, high, range, above, below⟩
    cases range
    have read := toU64_of_denotes denotes above below
    simp only [integerOf, Option.some.injEq]
    exact read
  | enum => exact (notEnum rfl).elim
  | double | float | bool | string | group | message | bytes => cases integer

end Scalars

section Enums

variable (pool : DescriptorPool) {field : FieldDescriptorProto}

/-- What a message stores for an enum. -/
private def enumStored (pool : DescriptorPool) (field : FieldDescriptorProto) (jv : Json) :
    JsonResult (Option Value) := (jsonToEnum pool field jv).map some

private theorem representable_enum (n : Int32) : Representable .enum n.toInt := by
  have low := n.le_toInt
  have high := n.toInt_lt
  exact ⟨_, _, rfl, by omega, by omega⟩

private theorem exact_enum_number (n : Number) :
    Exact n.Denotes .enum (enumStored pool field (.number n)) ↔
      (∃ z, n.Denotes z ∧ Representable .enum z) ∧ (n.asI64.isSome = true ∨ n.Denotes 0) := by
  refine (exact_accepted fun _ _ => Number.Denotes.unique).trans ?_
  have stored : ∀ z, integerOf (.enum (n.asI64.getD 0).toInt32) = some z ↔
      (n.asI64.getD 0).toInt.bmod (2 ^ 32) = z := by simp [integerOf]
  simp only [stored]
  cases whole : n.asI64 with
  | none =>
    simp only [Option.getD_none, Option.isSome_none, Bool.false_eq_true, false_or]
    constructor
    · rintro ⟨z, denotes, fits, same⟩
      have zero : z = 0 := by rw [← same]; decide
      subst zero
      exact ⟨⟨0, denotes, fits⟩, denotes⟩
    · rintro ⟨_, zero⟩
      exact ⟨0, zero, representable_enum 0, by decide⟩
  | some x =>
    simp only [Option.getD_some, Option.isSome_some, true_or, and_true]
    constructor
    · rintro ⟨z, denotes, fits, _⟩
      exact ⟨z, denotes, fits⟩
    · rintro ⟨z, denotes, fits⟩
      have same : x.toInt = z := (asI64_denotes whole).unique denotes
      exact ⟨z, denotes, fits, by rw [same]; exact bmod_representable fits⟩

private theorem exact_enum_text (isEnum : typeOf field = .enum) (s : String) :
    Exact (fun n => textInteger pool field s = some n) .enum (enumStored pool field (.string s)) := by
  simp only [textInteger, isEnum, enumStored, jsonToEnum]
  cases enumValue? pool field fun v => v.name = some s with
  | some v =>
    refine ⟨?_, ?_⟩
    · rintro result ⟨⟩
      exact ⟨_, _, rfl, rfl, representable_enum _, rfl⟩
    · rintro n ⟨⟩ _
      exact ⟨_, rfl, rfl⟩
  | none =>
    cases read : Decimal.parseInt (2 ^ 31) s with
    | some m =>
      obtain ⟨numeral, low, high⟩ := (Decimal.parseInt_eq_some (Nat.two_pow_pos 31)).mp read
      have same : (Int32.ofInt m).toInt = m := Int32.toInt_ofInt_of_le (by omega) (by omega)
      refine ⟨?_, ?_⟩
      · rintro result ⟨⟩
        refine ⟨_, m, rfl, numeral, ⟨_, _, rfl, by omega, by omega⟩, ?_⟩
        simp [integerOf, same]
      · intro n numeral' _
        cases numeral.symm.trans numeral'
        exact ⟨_, rfl, by simp [integerOf, same]⟩
    | none =>
      refine ⟨?_, ?_⟩
      · rintro result ⟨⟩
      rintro n numeral ⟨low, high, range, above, below⟩
      cases range
      have found := (Decimal.parseInt_eq_some (Nat.two_pow_pos 31)).mpr
        ⟨numeral, by omega, by omega⟩
      rw [read] at found
      cases found

end Enums

section Values

variable (libs : Libraries) (pool : DescriptorPool) (opts : JsonOptions)
  (recurse : Nat → DescriptorProto → Json → JsonResult DynamicMessage)
  {field : FieldDescriptorProto}

/-- A number or a text. -/
def IntegerJson : Json → Prop
  | .number _ | .string _ => True
  | _ => False

private theorem exact_value_iff (integer : (intRange (typeOf field)).isSome) {jv : Json}
    (kind : IntegerJson jv) (depth : Nat) :
    Exact (Denoted pool field jv) (typeOf field)
        ((jsonToValue libs pool opts recurse field jv depth).map some) ↔
      IntegerFits (typeOf field) jv := by
  by_cases isEnum : typeOf field = .enum
  · have stored : (jsonToValue libs pool opts recurse field jv depth).map some =
        enumStored pool field jv := by simp only [jsonToValue, isEnum, enumStored]
    rw [stored, isEnum]
    cases jv with
    | number n =>
      refine (exact_enum_number pool n).trans ?_
      simp [IntegerFits]
    | string s =>
      refine iff_of_true (exact_enum_text pool isEnum s) ?_
      intro n numeral
      exact ⟨id, nofun⟩
    | null | bool | array | object => cases kind
  · have stored : (jsonToValue libs pool opts recurse field jv depth).map some =
        scalarStored libs opts (field.name.getD "") (typeOf field) jv := by
      have single : ∀ arr, jv ≠ .array arr := by
        rintro arr rfl
        exact kind
      have scalar : IsScalar (typeOf field) := by
        refine ⟨?_, ?_, isEnum⟩ <;> intro same <;> rw [same] at integer <;> cases integer
      rw [jsonToValue_scalar libs pool opts recurse scalar single]
      exact Outcome.map_map _ _ _
    rw [stored]
    cases jv with
    | number n =>
      refine (exact_number libs opts _ integer isEnum n).trans ?_
      simp [IntegerFits, isEnum]
    | string s =>
      have same : Denoted pool field (.string s) = fun n => Decimal.numeral? s = some n := by
        funext n
        simp only [Denoted, textInteger]
      rw [same]
      exact exact_text libs opts _ integer isEnum s
    | null | bool | array | object => cases kind

end Values

section Keys

private theorem exact_key_iff {kf : FieldDescriptorProto} (integer : (intRange (typeOf kf)).isSome)
    (notEnum : typeOf kf ≠ .enum) (k : String) :
    Exact (fun n => Decimal.numeral? k = some n) (typeOf kf) ((jsonToMapKey kf k).map some) ↔
      TextFits (typeOf kf) k := by
  have assembled (reads : Reads k (Admitted (typeOf kf) k) id ((jsonToMapKey kf k).map some))
      (wider : ∀ n, Representable (typeOf kf) n → Representable (readAs (typeOf kf)) n)
      (unsigned : readAs (typeOf kf) = .uint64 → Representable (typeOf kf) 0) :=
    (exact_of_reads reads fun n _ => rfl).trans (textFits_iff wider unsigned).symm
  have signed (isSigned : readAs (typeOf kf) = .int64)
      (read : jsonToMapKey kf k =
        (Outcome.ofOption (.typeMismatch "map key" "not int") (Decimal.parseInt (2 ^ 63) k)).map
          fun x => .scalar (.i64 (Int64.ofInt x))) :
      Reads k (Admitted (typeOf kf) k) id ((jsonToMapKey kf k).map some) := by
    rw [read, Outcome.map_map]
    refine reads_signed k isSigned ?_
    rintro n ⟨low, high, range, above, below⟩
    cases range
    rw [integerOf, Int64.toInt_ofInt_of_le above (by omega)]
    rfl
  have unsigned (isUnsigned : readAs (typeOf kf) = .uint64)
      (read : jsonToMapKey kf k =
        (Outcome.ofOption (.typeMismatch "map key" "not uint") (Decimal.parseNat (2 ^ 64) k)).map
          fun x => .scalar (.u64 (UInt64.ofNat x))) :
      Reads k (Admitted (typeOf kf) k) id ((jsonToMapKey kf k).map some) := by
    rw [read, Outcome.map_map]
    refine reads_unsigned k isUnsigned ?_
    rintro n ⟨low, high, range, above, below⟩
    cases range
    simp only [integerOf, UInt64.toNat_ofNat', id_eq, Option.some.injEq]
    omega
  generalize type : typeOf kf = t at *
  cases t with
  | int32 | sint32 | sfixed32 =>
    refine assembled (signed rfl (by simp only [jsonToMapKey, type])) ?_ nofun
    rintro n ⟨low, high, range, above, below⟩
    cases range
    exact ⟨_, _, rfl, by omega, by omega⟩
  | int64 | sint64 | sfixed64 =>
    exact assembled (signed rfl (by simp only [jsonToMapKey, type])) (fun n fits => fits) nofun
  | uint32 | fixed32 =>
    refine assembled (unsigned rfl (by simp only [jsonToMapKey, type])) ?_
      fun _ => ⟨_, _, rfl, by omega, by omega⟩
    rintro n ⟨low, high, range, above, below⟩
    cases range
    exact ⟨_, _, rfl, by omega, by omega⟩
  | uint64 | fixed64 =>
    exact assembled (unsigned rfl (by simp only [jsonToMapKey, type])) (fun n fits => fits)
      fun _ => ⟨_, _, rfl, by omega, by omega⟩
  | enum => exact (notEnum rfl).elim
  | double | float | bool | string | group | message | bytes => cases integer

end Keys

section Members

variable (libs : Libraries) (pool : DescriptorPool) (opts : JsonOptions)

/-- No other field has the JSON name. -/
structure OwnName (opts : JsonOptions) (desc : DescriptorProto) (field : FieldDescriptorProto) :
    Prop where
  member : field ∈ desc.field
  plain : field.extendee = none
  only : ∀ other ∈ desc.field, other.extendee = none →
    fieldJsonName other opts = fieldJsonName field opts → other = field

variable {desc : DescriptorProto} {field : FieldDescriptorProto}

/-- What a message holds under a field after it is read. -/
def storedBy (desc : DescriptorProto) (field : FieldDescriptorProto) (json : Json) :
    JsonResult (Option Value) :=
  (jsonToMessage libs pool opts desc json).map fun msg => msg.getField (field.number.getD 0)

private theorem memberOf_single (own : OwnName opts desc field) {other : FieldDescriptorProto}
    (member : other ∈ desc.field) (jv : Json) :
    memberOf opts [(fieldJsonName field opts, jv)] other =
      if other = field then some jv else none := by
  unfold memberOf
  by_cases same : other = field
  · subst same
    rw [own.plain, if_neg (by simp), if_pos rfl, SortedMap.get?_cons, if_pos rfl]
  · rw [if_neg same]
    split
    · rfl
    · rename_i plain
      have noExtendee : other.extendee = none := by simpa using plain
      have different : ¬ fieldJsonName field opts = fieldJsonName other opts :=
        fun clash => same (own.only other member noExtendee clash.symm)
      rw [SortedMap.get?_cons, if_neg different, SortedMap.get?_nil]

variable (recurse : Nat → DescriptorProto → Json → JsonResult DynamicMessage)

/-- A field that is read to a value is stored, whatever else happens to be passed over. -/
private theorem fold_single (own : OwnName opts desc field) {jv : Json} (present : jv ≠ .null)
    {value : Value} (read : jsonToField libs pool opts recurse field jv 0 = .ok value)
    {fields : List FieldDescriptorProto} (inside : ∀ other ∈ fields, other ∈ desc.field)
    {msg : DynamicMessage} (ordered : msg.Ordered) :
    ∃ final, fields.foldlM
        (jsonToFieldStep libs pool opts recurse [(fieldJsonName field opts, jv)] 0) msg = .ok final ∧
      (field ∈ fields ∨ msg.getField (field.number.getD 0) = some value →
        final.getField (field.number.getD 0) = some value) := by
  induction fields generalizing msg with
  | nil => exact ⟨msg, rfl, fun held => held.resolve_left nofun⟩
  | cons other rest inductionHypothesis =>
    have later := fun o member => inside o (List.mem_cons_of_mem _ member)
    have here := memberOf_single opts own (inside other List.mem_cons_self) jv
    rw [List.foldlM_cons]
    by_cases same : other = field
    · subst same
      rw [if_pos rfl] at here
      have step : jsonToFieldStep libs pool opts recurse [(fieldJsonName other opts, jv)] 0 msg other =
          .ok (msg.setField (other.number.getD 0) value) := by
        unfold jsonToFieldStep
        rw [here]
        cases jv with
        | null => exact (present rfl).elim
        | bool | number | string | array | object => simp only [read, Outcome.ok_bind]
      obtain ⟨final, folded, held⟩ := inductionHypothesis later
        (DynMsg.setField_ordered ordered (other.number.getD 0) value)
      refine ⟨final, by rw [step]; exact folded, fun _ => held (.inr ?_)⟩
      exact DynMsg.getField_setField_self ordered _ _
    · rw [if_neg same] at here
      have step : jsonToFieldStep libs pool opts recurse [(fieldJsonName field opts, jv)] 0 msg other =
          .ok msg := by
        unfold jsonToFieldStep
        rw [here]
      obtain ⟨final, folded, held⟩ := inductionHypothesis later ordered
      refine ⟨final, by rw [step]; exact folded, fun before => held ?_⟩
      rcases before with member | already
      · exact .inl (List.mem_of_ne_of_mem (Ne.symm same) member)
      · exact .inr already

/-- A field that is not read fails the message. -/
private theorem fold_single_ok (own : OwnName opts desc field) {jv : Json} (present : jv ≠ .null)
    {fields : List FieldDescriptorProto} (inside : ∀ other ∈ fields, other ∈ desc.field)
    (member : field ∈ fields) {msg final : DynamicMessage}
    (folded : fields.foldlM
      (jsonToFieldStep libs pool opts recurse [(fieldJsonName field opts, jv)] 0) msg = .ok final) :
    ∃ value, jsonToField libs pool opts recurse field jv 0 = .ok value := by
  induction fields generalizing msg with
  | nil => cases member
  | cons other rest inductionHypothesis =>
    have here := memberOf_single opts own (inside other List.mem_cons_self) jv
    rw [List.foldlM_cons, Outcome.bind_eq_ok] at folded
    obtain ⟨next, step, folded⟩ := folded
    by_cases same : other = field
    · subst same
      rw [if_pos rfl] at here
      unfold jsonToFieldStep at step
      rw [here] at step
      cases jv with
      | null => exact (present rfl).elim
      | bool | number | string | array | object =>
        obtain ⟨value, read, _⟩ := Outcome.bind_eq_ok.mp step
        exact ⟨value, read⟩
    · exact inductionHypothesis (fun o inRest => inside o (List.mem_cons_of_mem _ inRest))
        (List.mem_of_ne_of_mem (Ne.symm same) member) folded

/-- An object with one member stores what the conversion of its field gives. -/
private theorem storedBy_single (plain : wellKnown? pool desc = none) (own : OwnName opts desc field)
    {jv : Json} (present : jv ≠ .null) (result : Option Value) :
    storedBy libs pool opts desc field (.object [(fieldJsonName field opts, jv)]) = .ok result ↔
      ∃ value, result = some value ∧
        jsonToField libs pool opts (jsonToMessageImpl libs pool opts opts.maxDepth) field jv 0 =
          .ok value := by
  have known : unknownKey opts desc [(fieldJsonName field opts, jv)] = none := by
    have used : (desc.field.any fun f =>
        f.extendee.isNone && fieldJsonName f opts = fieldJsonName field opts) = true := by
      rw [List.any_eq_true]
      exact ⟨field, own.member, by simp [own.plain]⟩
    simp only [unknownKey, List.map_cons, List.map_nil, List.find?_cons, used]
    rfl
  have body : jsonToMessage libs pool opts desc (.object [(fieldJsonName field opts, jv)]) =
      desc.field.foldlM (jsonToFieldStep libs pool opts
        (jsonToMessageImpl libs pool opts opts.maxDepth) [(fieldJsonName field opts, jv)] 0)
        (DynMsg.new desc pool) := by
    have whole (folded : JsonResult DynamicMessage) :
        (folded >>= fun msg => (.ok msg : JsonResult DynamicMessage)) = folded := by
      cases folded <;> rfl
    have deep : ¬ 0 > opts.maxDepth := by omega
    simp only [jsonToMessage, jsonToMessageImpl, if_neg deep, parseBody, wellKnownFromJson, plain,
      Outcome.ok_bind, known, whole]
  unfold storedBy
  rw [body]
  constructor
  · intro stored
    obtain ⟨final, folded, held⟩ := Outcome.map_eq_ok.mp stored
    obtain ⟨value, read⟩ := fold_single_ok libs pool opts _ own present (fun _ member => member)
      own.member folded
    obtain ⟨final', folded', isHeld⟩ := fold_single libs pool opts _ own present read
      (fun _ member => member) DynMsg.new_ordered
    cases folded.symm.trans folded'
    exact ⟨value, held.symm.trans (isHeld (.inl own.member)), read⟩
  · rintro ⟨value, rfl, read⟩
    obtain ⟨final, folded, isHeld⟩ := fold_single libs pool opts _ own present read
      (fun _ member => member) DynMsg.new_ordered
    exact Outcome.map_eq_ok.mpr ⟨final, folded, isHeld (.inl own.member)⟩

end Members

section Messages

variable (libs : Libraries) (pool : DescriptorPool) (opts : JsonOptions)
  {desc : DescriptorProto} {field : FieldDescriptorProto}

private theorem exact_congr {denoted : Int → Prop} {t : FieldType}
    {first second : JsonResult (Option Value)}
    (same : ∀ result, first = .ok result ↔ second = .ok result) :
    Exact denoted t first ↔ Exact denoted t second := by
  constructor
  · intro exact
    exact ⟨fun result accepted => exact.sound result ((same result).mpr accepted),
      fun n denotes fits => by
        obtain ⟨value, accepted, right⟩ := exact.complete n denotes fits
        exact ⟨value, (same _).mp accepted, right⟩⟩
  · intro exact
    exact ⟨fun result accepted => exact.sound result ((same result).mp accepted),
      fun n denotes fits => by
        obtain ⟨value, accepted, right⟩ := exact.complete n denotes fits
        exact ⟨value, (same _).mpr accepted, right⟩⟩

/-- The first key of a map that is stored. -/
def keyOf : Option Value → Option Value
  | some (.map ((key, _) :: _)) => some key
  | _ => none

private theorem storedBy_entry (plain : wellKnown? pool desc = none) (own : OwnName opts desc field)
    {kf vf : FieldDescriptorProto} (isMap : isMapField pool field = true)
    (entryFields : mapEntryFields pool field = some (kf, vf)) {key : String} {entry : Json}
    {value : Value} (read : jsonToValue libs pool opts
      (jsonToMessageImpl libs pool opts opts.maxDepth) vf entry 1 = .ok value)
    (result : Option Value) :
    (storedBy libs pool opts desc field
        (.object [(fieldJsonName field opts, .object [(key, entry)])])).map keyOf = .ok result ↔
      (jsonToMapKey kf key).map some = .ok result := by
  have present : Json.object [(key, entry)] ≠ .null := nofun
  have stored := storedBy_single libs pool opts plain own present
  have converted : jsonToField libs pool opts (jsonToMessageImpl libs pool opts opts.maxDepth) field
      (.object [(key, entry)]) 0 = (jsonToMapKey kf key).map fun k => .map [(k, value)] := by
    simp only [jsonToField, isMap, if_true, entryFields, jsonToEntries, List.mapM_cons,
      List.mapM_nil, Nat.zero_add, read]
    cases jsonToMapKey kf key <;> rfl
  constructor
  · intro accepted
    obtain ⟨held, isStored, same⟩ := Outcome.map_eq_ok.mp accepted
    obtain ⟨field', rfl, isRead⟩ := (stored held).mp isStored
    rw [converted] at isRead
    obtain ⟨k, isKey, rfl⟩ := Outcome.map_eq_ok.mp isRead
    rw [isKey, ← same]
    rfl
  · intro accepted
    obtain ⟨k, isKey, rfl⟩ := Outcome.map_eq_ok.mp accepted
    refine Outcome.map_eq_ok.mpr ⟨some (.map [(k, value)]), (stored _).mpr ⟨_, rfl, ?_⟩, rfl⟩
    rw [converted, isKey]
    rfl

/-- Numbers are read exactly when they denote a representable integer (for an enum, in integer
notation or as zero); texts and map keys, when their numeral does not need to be narrowed and has
no superfluous sign. -/
theorem integers_exact_iff (plain : wellKnown? pool desc = none) (own : OwnName opts desc field) :
    ((intRange (typeOf field)).isSome = true → ∀ jv, IntegerJson jv →
      (Exact (Denoted pool field jv) (typeOf field)
          (storedBy libs pool opts desc field (.object [(fieldJsonName field opts, jv)])) ↔
        IntegerFits (typeOf field) jv)) ∧
    ∀ kf vf, isMapField pool field = true → mapEntryFields pool field = some (kf, vf) →
      (intRange (typeOf kf)).isSome = true → typeOf kf ≠ .enum → ∀ key entry value,
        jsonToValue libs pool opts (jsonToMessageImpl libs pool opts opts.maxDepth) vf entry 1 =
          .ok value →
        (Exact (fun n => Decimal.numeral? key = some n) (typeOf kf)
            ((storedBy libs pool opts desc field
              (.object [(fieldJsonName field opts, .object [(key, entry)])])).map keyOf) ↔
          TextFits (typeOf kf) key) := by
  constructor
  · intro integer jv kind
    have present : jv ≠ .null := by
      rintro rfl
      exact kind
    have noMap : isMapField pool field = false := by
      have notMessage : field.type ≠ some .message := by
        intro same
        rw [typeOf, same] at integer
        cases integer
      simp [isMapField, notMessage]
    refine (exact_congr fun result => ?_).trans
      (exact_value_iff libs pool opts (jsonToMessageImpl libs pool opts opts.maxDepth) integer kind 1)
    rw [storedBy_single libs pool opts plain own present, Outcome.map_eq_ok]
    simp only [jsonToField, noMap, Bool.false_eq_true, if_false, Nat.zero_add]
    constructor
    · rintro ⟨value, rfl, read⟩
      exact ⟨value, read, rfl⟩
    · rintro ⟨value, read, rfl⟩
      exact ⟨value, rfl, read⟩
  · intro kf vf isMap entryFields integer notEnum key entry value read
    exact (exact_congr (storedBy_entry libs pool opts plain own isMap entryFields read)).trans
      (exact_key_iff integer notEnum key)

end Messages

/-- A message with one field, a 32-bit integer. -/
def countField : FieldDescriptorProto :=
  { name := some "n", number := some 1, label := some .optional, type := some .int32 }

def countMessage : DescriptorProto := { name := some "Count", field := [countField] }

private theorem countField_own : OwnName {} countMessage countField := by
  refine ⟨List.mem_cons_self, rfl, ?_⟩
  intro other member _ _
  exact List.mem_singleton.mp member

/-- The integer minus seven, and the text for it. -/
theorem integers_exact_count :
    Exact (Denoted noPool countField (.string "-7")) .int32
        (storedBy sampleLibraries noPool {} countMessage countField
          (.object [("n", .string "-7")])) ∧
      Exact (Denoted noPool countField (.number (.negInt (-7) (by decide)))) .int32
        (storedBy sampleLibraries noPool {} countMessage countField
          (.object [("n", .number (.negInt (-7) (by decide)))])) := by
  have plain : wellKnown? noPool countMessage = none := rfl
  have exact := (integers_exact_iff sampleLibraries noPool {} plain countField_own).1 rfl
  constructor
  · refine (exact (.string "-7") trivial).mpr ?_
    intro n numeral
    have same : n = -7 := by
      have read : Decimal.numeral? "-7" = some (-7) := by decide
      exact (Option.some.inj (read.symm.trans numeral)).symm
    subst same
    exact ⟨fun _ => ⟨_, _, rfl, by decide, by decide⟩, nofun⟩
  · refine (exact (.number (.negInt (-7) (by decide))) trivial).mpr ?_
    have denotes : (Number.negInt (-7) (by decide)).Denotes (-7) := show (-7 : Int) = (-7 : Int64).toInt by decide
    exact ⟨⟨-7, denotes, _, _, rfl, by decide, by decide⟩, nofun⟩

/-- The number `2 ^ 32 + 1` is accepted and stored as one. -/
theorem not_integers_exact_wrapped :
    storedBy sampleLibraries noPool {} countMessage countField
        (.object [("n", .number (.posInt 4294967297))]) = .ok (some (.scalar (.i64 1))) ∧
      ¬ Exact (Denoted noPool countField (.number (.posInt 4294967297))) .int32
        (storedBy sampleLibraries noPool {} countMessage countField
          (.object [("n", .number (.posInt 4294967297))])) := by
  have stored : storedBy sampleLibraries noPool {} countMessage countField
      (.object [("n", .number (.posInt 4294967297))]) = .ok (some (.scalar (.i64 1))) := rfl
  refine ⟨stored, ?_⟩
  intro exact
  obtain ⟨value, n, _, denotes, ⟨low, high, range, _, below⟩, _⟩ := exact.sound _ stored
  cases range
  have large : n = 4294967297 := denotes
  omega

end TptProto.Json
