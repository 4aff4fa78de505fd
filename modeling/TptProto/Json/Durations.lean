import Mathlib.Data.List.Basic
import Mathlib.Data.List.TakeDrop
import Mathlib.Data.List.TakeWhile
import TptProto.Foundation.Decimal
import TptProto.Json.Typed

/-! Which texts are read as durations, and what becomes of a duration that is written. -/

namespace TptProto.Json

open TptProto.Foundation TptProto.Descriptor TptProto.Reflect

/-- The seconds of a duration. -/
def secondsOf (msg : DynamicMessage) : Int64 := (getI64 msg 1).getD 0

/-- The nanoseconds of a duration. -/
def nanosOf (msg : DynamicMessage) : Int64 := (getI64 msg 2).getD 0

/-- A text that ends in `s`, cut behind a minus sign and at its first point. -/
structure DurationText where
  negative : Bool
  seconds : List Char
  fraction : Option (List Char)

/-- The first nine places without a sign in front of them. -/
def firstPlaces (fraction : List Char) : List Char := Decimal.withoutSign (fraction.take 9)

namespace DurationText

variable (parts : DurationText)

def body : List Char :=
  parts.seconds ++ match parts.fraction with
    | none => []
    | some fraction => '.' :: fraction

def text : List Char := (if parts.negative then ['-'] else []) ++ parts.body ++ ['s']

/-- Digits that fit into 64 bits with a sign, and behind a point one to nine of them. -/
structure Proper : Prop where
  seconds : ∃ n, Decimal.digits? parts.seconds = some n ∧ n < 2 ^ 63
  fraction : ∀ fraction, parts.fraction = some fraction →
    fraction ≠ [] ∧ fraction.length ≤ 9 ∧ fraction.all Char.isDigit = true

/-- The fraction in billionths. -/
def billionths : Nat :=
  match parts.fraction with
  | none => 0
  | some fraction => Decimal.value fraction * 10 ^ (9 - fraction.length)

/-- The value in nanoseconds. -/
def nanoseconds : Int :=
  (if parts.negative then -1 else 1) * (Decimal.value parts.seconds * 10 ^ 9 + parts.billionths : Nat)

/-- Seconds and nanoseconds of one sign that make up the value. -/
structure Denotes (secs nanos : Int64) : Prop where
  exact : secs.toInt * 10 ^ 9 + nanos.toInt = parts.nanoseconds
  small : nanos.toInt.natAbs < 10 ^ 9
  signs : 0 ≤ secs.toInt ∧ 0 ≤ nanos.toInt ∨ secs.toInt ≤ 0 ∧ nanos.toInt ≤ 0

/-- The parts are where the text is cut. -/
structure Apart : Prop where
  sign : parts.negative = false → parts.seconds.head? ≠ some '-'
  point : '.' ∉ parts.seconds

/-- An integer of 64 bits with a sign, and behind the point, up to the ninth place, digits behind
at most one sign. -/
structure Readable : Prop where
  seconds : ∃ n, Decimal.numeral? (String.ofList parts.seconds) = some n ∧ -2 ^ 63 ≤ n ∧ n < 2 ^ 63
  fraction : ∀ fraction, parts.fraction = some fraction →
    (firstPlaces fraction).all Char.isDigit = true

/-- A second sign, a sign behind the point, no places at all, or more than nine. -/
def Loose : Prop :=
  parts.seconds.head? = some '+' ∨ parts.seconds.head? = some '-' ∨
    ∃ fraction, parts.fraction = some fraction ∧
      (fraction = [] ∨ fraction.head? = some '+' ∨ fraction.head? = some '-' ∨ 9 < fraction.length)

end DurationText

/-- The kinds of text that are read although they are not the text of a duration. -/
def TakenLoosely (s : String) : Prop :=
  ∃ parts : DurationText, parts.Apart ∧ parts.Readable ∧ parts.Loose ∧ s.toList = parts.text

/-- A text is read exactly if it is that of a duration, as that duration. -/
structure ReadExactly (desc : DescriptorProto) (s : String) : Prop where
  accepted : (∃ msg, durationFromJson desc (.string s) = .ok msg) ↔
    ∃ parts : DurationText, parts.Proper ∧ s.toList = parts.text
  denoted : ∀ msg (parts : DurationText), durationFromJson desc (.string s) = .ok msg → parts.Proper →
    s.toList = parts.text → parts.Denotes (secondsOf msg) (nanosOf msg)

section Cutting

variable {parts : DurationText}

/-- How the text in front of the `s` is cut. -/
def partsOf : List Char → DurationText
  | '-' :: body => ⟨true, (splitPoint body).1, (splitPoint body).2⟩
  | body => ⟨false, (splitPoint body).1, (splitPoint body).2⟩

private theorem partsOf_unsigned {text : List Char} (unsigned : ∀ body, text ≠ '-' :: body) :
    partsOf text = ⟨false, (splitPoint text).1, (splitPoint text).2⟩ := by
  unfold partsOf
  split
  · rename_i body
    exact (unsigned body rfl).elim
  · rfl

private theorem splitPoint_eq (text : List Char) :
    splitPoint text = match text.dropWhile (· ≠ '.') with
      | [] => (text.takeWhile (· ≠ '.'), none)
      | _ :: behind => (text.takeWhile (· ≠ '.'), some behind) := by
  unfold splitPoint
  rw [List.span_eq_takeWhile_dropWhile]
  cases text.dropWhile (· ≠ '.') with
  | nil => rfl
  | cons _ _ => rfl

private theorem splitPoint_body (point : '.' ∉ parts.seconds) :
    splitPoint parts.body = (parts.seconds, parts.fraction) := by
  have free : ∀ c ∈ parts.seconds, decide (c ≠ '.') = true := fun c member =>
    decide_eq_true (ne_of_mem_of_not_mem member point)
  unfold DurationText.body
  rw [splitPoint_eq, List.takeWhile_append_of_pos free, List.dropWhile_append_of_pos free]
  cases parts.fraction with
  | none => simp
  | some fraction => simp

/-- Cutting puts the parts where they were. -/
private theorem partsOf_body (apart : parts.Apart) :
    partsOf ((if parts.negative then ['-'] else []) ++ parts.body) = parts := by
  have cut := splitPoint_body apart.point
  obtain ⟨negative, seconds, fraction⟩ := parts
  cases negative with
  | true =>
    simp only [if_true, List.cons_append, List.nil_append, partsOf]
    rw [cut]
  | false =>
    have unsigned := apart.sign rfl
    simp only [Bool.false_eq_true, if_false, List.nil_append]
    unfold partsOf
    split
    · rename_i rest same
      exfalso
      unfold DurationText.body at same
      cases seconds with
      | nil =>
        cases fraction with
        | none => cases same
        | some _ => cases same
      | cons first _ =>
        cases same
        exact unsigned rfl
    · rw [cut]

private theorem body_splitPoint (negative : Bool) (text : List Char) :
    (DurationText.mk negative (splitPoint text).1 (splitPoint text).2).body = text ∧
      '.' ∉ (splitPoint text).1 := by
  have whole := List.takeWhile_append_dropWhile (p := (· ≠ '.')) (l := text)
  have before : '.' ∉ text.takeWhile (· ≠ '.') := fun member => by
    simpa using List.all_eq_true.mp List.all_takeWhile _ member
  unfold DurationText.body
  rw [splitPoint_eq]
  cases behind : text.dropWhile (· ≠ '.') with
  | nil =>
    rw [behind] at whole
    exact ⟨whole, before⟩
  | cons point rest =>
    have isPoint : point = '.' := by
      have first := List.head?_dropWhile_not (· ≠ '.') text
      rw [behind] at first
      simpa using first
    rw [behind, isPoint] at whole
    exact ⟨whole, before⟩

private theorem partsOf_apart (front : List Char) :
    (partsOf front).Apart ∧ (partsOf front).text = front ++ ['s'] := by
  unfold partsOf
  split
  · rename_i body
    obtain ⟨same, point⟩ := body_splitPoint true body
    refine ⟨⟨fun unsigned => (by cases unsigned), point⟩, ?_⟩
    unfold DurationText.text
    rw [same]
    rfl
  · rename_i unsigned
    obtain ⟨same, point⟩ := body_splitPoint false front
    refine ⟨⟨fun _ first => ?_, point⟩, ?_⟩
    · obtain ⟨rest, start⟩ := List.head?_eq_some_iff.mp first
      rw [← same, DurationText.body] at unsigned
      exact unsigned _ (congrArg (· ++ _) start)
    · unfold DurationText.text
      rw [same]
      rfl

end Cutting

section Reading

variable {desc : DescriptorProto} {parts : DurationText}

private theorem ordered_setField (number : Int32) (value : Value) :
    ((DynMsg.new desc noPool : DynamicMessage).setField number value).Ordered :=
  DynMsg.setField_ordered DynMsg.new_ordered number value

private theorem nanosOf_secondsAndNanos (secs nanos : Int64) :
    nanosOf (secondsAndNanos desc secs nanos) = nanos := by
  unfold nanosOf getI64 secondsAndNanos
  rw [DynMsg.getField_setField_self (ordered_setField 1 _)]
  rfl

/-- The seconds stay unless the two fields are in one oneof. -/
private theorem secondsOf_secondsAndNanos (second : Declares desc 2 .int32) (secs nanos : Int64) :
    secondsOf (secondsAndNanos desc secs nanos) = secs := by
  obtain ⟨field, found, _, _, free⟩ := second
  have stays : displaces desc 2 1 = false := by simp [displaces, found, free]
  unfold secondsOf getI64 secondsAndNanos
  rw [DynMsg.getField_setField (ordered_setField 1 _), if_neg (by decide)]
  rw [DynMsg.setField_descriptor, show (DynMsg.new desc noPool : DynamicMessage).descriptor = desc from rfl,
    stays, if_neg Bool.false_ne_true]
  rw [DynMsg.getField_setField_self DynMsg.new_ordered]
  rfl

/-- What is made of the parts. -/
def readParts (desc : DescriptorProto) (parts : DurationText) : JsonResult DynamicMessage := do
  let secs ← Outcome.ofOption (.wellKnown "invalid duration seconds")
    (Decimal.parseInt (2 ^ 63) (String.ofList parts.seconds))
  let nanos ← durationNanos parts.fraction
  let sign : Int64 := if parts.negative then -1 else 1
  .ok (secondsAndNanos desc (sign * Int64.ofInt secs) (sign * Int64.ofInt nanos))

private theorem durationFromJson_front {s : String} {front : List Char}
    (same : s.toList = front ++ ['s']) :
    durationFromJson desc (.string s) = readParts desc (partsOf front) := by
  unfold durationFromJson
  dsimp only
  rw [List.isSuffixOf?_eq_some_iff_append_eq.mpr same.symm, Outcome.ofOption_some, Outcome.ok_bind]
  by_cases negative : ∃ body, front = '-' :: body
  · obtain ⟨body, rfl⟩ := negative
    rfl
  · have unsigned (body : List Char) : front ≠ '-' :: body := fun same => negative ⟨body, same⟩
    rw [partsOf_unsigned unsigned]
    split
    · exact (unsigned _ rfl).elim
    · rfl

/-- A text is read as its parts are. -/
private theorem durationFromJson_text {s : String} (apart : parts.Apart)
    (same : s.toList = parts.text) : durationFromJson desc (.string s) = readParts desc parts := by
  rw [durationFromJson_front same, partsOf_body apart]

/-- Only texts that end in `s` are read. -/
private theorem text_of_read {s : String} {msg : DynamicMessage}
    (read : durationFromJson desc (.string s) = .ok msg) :
    ∃ parts : DurationText, parts.Apart ∧ s.toList = parts.text := by
  obtain ⟨front, found, _⟩ := Outcome.bind_eq_ok.mp read
  obtain ⟨apart, same⟩ := partsOf_apart front
  have cut := List.isSuffixOf?_eq_some_iff_append_eq.mp (Outcome.ofOption_eq_ok.mp found)
  exact ⟨partsOf front, apart, cut.symm.trans same.symm⟩

/-- A text has one way to be cut. -/
private theorem apart_unique {other : DurationText} (apart : parts.Apart) (apart' : other.Apart)
    (same : parts.text = other.text) : parts = other := by
  rw [← partsOf_body apart, ← partsOf_body apart']
  exact congrArg partsOf (List.append_cancel_right same)

private theorem withoutSign_zeros (text : List Char) (places : Nat) :
    Decimal.withoutSign (text ++ List.replicate places '0') =
      Decimal.withoutSign text ++ List.replicate places '0' := by
  cases text with
  | nil =>
    cases places with
    | zero => rfl
    | succ places => rfl
  | cons first rest =>
    rw [List.cons_append]
    unfold Decimal.withoutSign
    split
    · rename_i same
      cases same
      rfl
    · rename_i same
      cases same
      rfl
    · rename_i notPlus notMinus
      split
      · rename_i same
        cases same
        exact (notPlus _ rfl).elim
      · rename_i same
        cases same
        exact (notMinus _ rfl).elim
      · rfl

private theorem length_withoutSign (text : List Char) :
    text.length ≤ (Decimal.withoutSign text).length + 1 := by
  unfold Decimal.withoutSign
  split
  · exact Nat.le_refl _
  · exact Nat.le_refl _
  · exact Nat.le_succ _

/-- Up to the ninth place there are digits exactly if there are behind the sign. -/
private theorem nineDigits_read {fraction : List Char} :
    (∃ n, durationNanos (some fraction) = .ok n) ↔
      (firstPlaces fraction).all Char.isDigit = true := by
  have ranged {n : Int} : durationNanos (some fraction) = .ok n ↔
      Decimal.numeral? (nineDigits fraction) = some n := by
    unfold durationNanos
    rw [Outcome.ofOption_eq_ok, Decimal.parseInt_eq_some (Nat.two_pow_pos 31)]
    refine ⟨And.left, fun read => ⟨read, ?_⟩⟩
    have small := @Decimal.numeral?_lt _ _ 9 read (by
      unfold nineDigits
      rw [String.toList_ofList, List.length_append, List.length_replicate, List.length_take]
      omega)
    omega
  simp only [ranged, nineDigits, Decimal.numeral?_isSome, withoutSign_zeros, List.all_append,
    Decimal.all_zeros, Bool.and_true]
  refine ⟨And.right, fun digits => ⟨fun empty => ?_, digits⟩⟩
  have none := congrArg List.length empty
  rw [List.length_append, List.length_replicate, List.length_nil] at none
  have long := length_withoutSign (fraction.take 9)
  rw [List.length_take] at long none
  omega

private theorem durationNanos_proper {fraction : List Char} (some' : fraction ≠ [])
    (short : fraction.length ≤ 9) (all : fraction.all Char.isDigit = true) :
    durationNanos (some fraction) =
      .ok ((Decimal.value fraction * 10 ^ (9 - fraction.length) : Nat) : Int) := by
  have digits : (fraction ++ List.replicate (9 - fraction.length) '0').all Char.isDigit = true := by
    rw [List.all_append, all, Decimal.all_zeros, Bool.and_self]
  have read : Decimal.digits? (fraction ++ List.replicate (9 - fraction.length) '0') =
      some (Decimal.value fraction * 10 ^ (9 - fraction.length)) := by
    rw [Decimal.digits?_eq_some]
    exact ⟨⟨by simp [some'], digits⟩, Decimal.value_append_zeros fraction _⟩
  have small := Decimal.digits?_lt read
  rw [List.length_append, List.length_replicate, Nat.add_sub_cancel' short] at small
  unfold durationNanos nineDigits
  rw [Outcome.ofOption_eq_ok, List.take_of_length_le short,
    Decimal.parseInt_eq_some (Nat.two_pow_pos 31), Decimal.numeral?_ofList]
  exact ⟨.inl ⟨_, read, rfl⟩, by omega, by omega⟩

private theorem readParts_ok : (∃ msg, readParts desc parts = .ok msg) ↔ parts.Readable := by
  unfold readParts
  constructor
  · rintro ⟨msg, read⟩
    obtain ⟨secs, isSecs, read⟩ := Outcome.bind_eq_ok.mp read
    obtain ⟨nanos, isNanos, _⟩ := Outcome.bind_eq_ok.mp read
    obtain ⟨numeral, least, most⟩ :=
      (Decimal.parseInt_eq_some (Nat.two_pow_pos 63)).mp (Outcome.ofOption_eq_ok.mp isSecs)
    refine ⟨⟨secs, numeral, least, most⟩, fun fraction here => ?_⟩
    rw [here] at isNanos
    exact nineDigits_read.mp ⟨nanos, isNanos⟩
  · rintro ⟨⟨secs, numeral, least, most⟩, places⟩
    rw [(Decimal.parseInt_eq_some (Nat.two_pow_pos 63)).mpr ⟨numeral, least, most⟩,
      Outcome.ofOption_some, Outcome.ok_bind]
    cases here : parts.fraction with
    | none => exact ⟨_, rfl⟩
    | some fraction =>
      obtain ⟨nanos, isNanos⟩ := nineDigits_read.mpr (places fraction here)
      rw [isNanos]
      exact ⟨_, rfl⟩

private theorem digits_apart {n : Nat} (read : Decimal.digits? parts.seconds = some n) :
    parts.Apart := by
  have all := (Decimal.digits?_eq_some.mp read).1.2
  exact ⟨fun _ => Decimal.head?_ne_of_digits all rfl, Decimal.not_mem_digits all rfl⟩

/-- Digits without a sign are what stands behind the sign. -/
private theorem withoutSign_digits {text : List Char} (plus : text.head? ≠ some '+')
    (minus : text.head? ≠ some '-') : Decimal.withoutSign text = text := by
  unfold Decimal.withoutSign
  split
  · exact (plus rfl).elim
  · exact (minus rfl).elim
  · rfl

/-- Parts that are read are those of a duration unless they are loose. -/
private theorem readable_proper (readable : parts.Readable) : parts.Proper ↔ ¬ parts.Loose := by
  constructor
  · rintro ⟨⟨n, digits, _⟩, places⟩ (plus | minus | ⟨fraction, here, loose⟩)
    · exact Decimal.head?_ne_of_digits (Decimal.digits?_eq_some.mp digits).1.2 rfl plus
    · exact Decimal.head?_ne_of_digits (Decimal.digits?_eq_some.mp digits).1.2 rfl minus
    · obtain ⟨nonempty, short, all⟩ := places fraction here
      rcases loose with empty | plus | minus | long
      · exact nonempty empty
      · exact Decimal.head?_ne_of_digits all rfl plus
      · exact Decimal.head?_ne_of_digits all rfl minus
      · omega
  · intro strict
    unfold DurationText.Loose at strict
    simp only [not_or, not_exists, not_and] at strict
    obtain ⟨plus, minus, tight⟩ := strict
    obtain ⟨⟨n, numeral, _, small⟩, places⟩ := readable
    refine ⟨?_, fun fraction here => ?_⟩
    · rcases Decimal.numeral?_ofList.mp numeral with ⟨m, digits, rfl⟩ | ⟨rest, m, same, _⟩ |
        ⟨rest, m, same, _⟩
      · exact ⟨m, digits, by omega⟩
      · rw [same] at plus
        exact (plus rfl).elim
      · rw [same] at minus
        exact (minus rfl).elim
    · obtain ⟨nonempty, noPlus, noMinus, short⟩ := tight fraction here
      have all := places fraction here
      rw [firstPlaces, List.take_of_length_le (Nat.le_of_not_lt short),
        withoutSign_digits noPlus noMinus] at all
      exact ⟨nonempty, Nat.le_of_not_lt short, all⟩

private theorem toInt_negative (negative : Bool) {n : Int} (nonneg : 0 ≤ n) (small : n < 2 ^ 63) :
    ((if negative then -1 else 1 : Int64) * Int64.ofInt n).toInt = (if negative then -1 else 1) * n := by
  cases negative with
  | true => exact toInt_signed (.inr rfl) (by omega)
  | false => exact toInt_signed (.inl rfl) (by omega)

private theorem durationNanos_billionths (proper : parts.Proper) :
    durationNanos parts.fraction = .ok (parts.billionths : Int) ∧ parts.billionths < 10 ^ 9 := by
  unfold DurationText.billionths
  cases here : parts.fraction with
  | none => exact ⟨rfl, by decide⟩
  | some fraction =>
    obtain ⟨nonempty, short, all⟩ := proper.fraction fraction here
    refine ⟨durationNanos_proper nonempty short all, ?_⟩
    have small := Decimal.digits?_lt (Decimal.digits?_eq_some.mpr ⟨⟨nonempty, all⟩, rfl⟩)
    calc Decimal.value fraction * 10 ^ (9 - fraction.length)
        < 10 ^ fraction.length * 10 ^ (9 - fraction.length) :=
          Nat.mul_lt_mul_of_pos_right small (Nat.pow_pos (by decide))
      _ = 10 ^ 9 := by rw [← Nat.pow_add, Nat.add_sub_cancel' short]

/-- The parts of a duration are read as what they denote. -/
private theorem readParts_proper (proper : parts.Proper) :
    ∃ secs nanos, readParts desc parts = .ok (secondsAndNanos desc secs nanos) ∧
      parts.Denotes secs nanos := by
  obtain ⟨n, digits, small⟩ := proper.seconds
  obtain ⟨isNanos, few⟩ := durationNanos_billionths proper
  have value := (Decimal.digits?_eq_some.mp digits).2
  have secs := toInt_negative parts.negative (Int.natCast_nonneg n) (by omega)
  have nanos := toInt_negative parts.negative (Int.natCast_nonneg parts.billionths) (by omega)
  refine ⟨(if parts.negative then -1 else 1) * Int64.ofInt n,
    (if parts.negative then -1 else 1) * Int64.ofInt parts.billionths, ?_, ?_⟩
  · unfold readParts
    rw [(Decimal.parseInt_eq_some (Nat.two_pow_pos 63)).mpr
      ⟨Decimal.numeral?_ofList.mpr (.inl ⟨n, digits, rfl⟩), by omega, by omega⟩,
      Outcome.ofOption_some, Outcome.ok_bind, isNanos]
    rfl
  · refine ⟨?_, ?_, ?_⟩
    · rw [secs, nanos, DurationText.nanoseconds, value]
      split
      · omega
      · omega
    · rw [nanos]
      split
      · omega
      · omega
    · rw [secs, nanos]
      split
      · omega
      · omega

/-- A text is read exactly unless it is of a kind that is taken although it is none of a duration. -/
private theorem readExactly_iff (second : Declares desc 2 .int32) (s : String) :
    ReadExactly desc s ↔ ¬ TakenLoosely s := by
  constructor
  · rintro ⟨accepted, _⟩ ⟨parts, apart, readable, loose, same⟩
    have read := (@readParts_ok desc parts).mpr readable
    rw [← durationFromJson_text apart same] at read
    obtain ⟨other, proper, same'⟩ := accepted.mp read
    obtain ⟨n, digits, _⟩ := proper.seconds
    rw [← apart_unique apart (digits_apart digits) (same.symm.trans same')] at proper
    exact (readable_proper readable).mp proper loose
  · intro strict
    have ofProper (parts : DurationText) (proper : parts.Proper) (same : s.toList = parts.text) :
        ∃ secs nanos, durationFromJson desc (.string s) = .ok (secondsAndNanos desc secs nanos) ∧
          parts.Denotes secs nanos := by
      obtain ⟨n, digits, _⟩ := proper.seconds
      rw [durationFromJson_text (digits_apart digits) same]
      exact readParts_proper proper
    refine ⟨⟨?_, ?_⟩, ?_⟩
    · rintro ⟨msg, read⟩
      obtain ⟨parts, apart, same⟩ := text_of_read read
      rw [durationFromJson_text apart same] at read
      have readable := readParts_ok.mp ⟨msg, read⟩
      exact ⟨parts, (readable_proper readable).mpr fun loose =>
        strict ⟨parts, apart, readable, loose, same⟩, same⟩
    · rintro ⟨parts, proper, same⟩
      obtain ⟨secs, nanos, read, _⟩ := ofProper parts proper same
      exact ⟨_, read⟩
    · intro msg parts read proper same
      obtain ⟨secs, nanos, read', denotes⟩ := ofProper parts proper same
      rw [read] at read'
      cases read'
      rw [secondsOf_secondsAndNanos second, nanosOf_secondsAndNanos]
      exact denotes

end Reading

section Writing

variable {desc : DescriptorProto} {secs : Int64} {nanos : Int32}

/-- Nanoseconds of less than a second, and of no other sign than the seconds. -/
structure DurationInRange (msg : DynamicMessage) : Prop where
  small : (nanosOf msg).toInt.natAbs < 10 ^ 9
  signs : 0 ≤ (secondsOf msg).toInt ∧ 0 ≤ (nanosOf msg).toInt ∨
    (secondsOf msg).toInt ≤ 0 ∧ (nanosOf msg).toInt ≤ 0

/-- What is written for a duration is read as one with its seconds and nanoseconds. -/
def ReadBack (desc : DescriptorProto) (msg : DynamicMessage) : Prop :=
  durationFromJson desc (durationToJson msg) =
    .ok (secondsAndNanos desc (secondsOf msg) (nanosOf msg))

/-- The nine digits of nanoseconds. -/
def places (nanos : Nat) : List Char :=
  List.replicate (9 - (Nat.toDigits 10 nanos).length) '0' ++ Nat.toDigits 10 nanos

/-- The parts of the text that is written. -/
def writtenParts (secs : Int64) (nanos : Int32) : DurationText where
  negative := decide (secs < 0 ∨ secs = 0 ∧ nanos < 0)
  seconds := Nat.toDigits 10 secs.toInt.natAbs
  fraction := if nanos = 0 then none else some (Decimal.trimmed (places nanos.toInt.natAbs))

private theorem toList_digits (n : Nat) : (toString n).toList = Nat.toDigits 10 n := Nat.toList_repr

private theorem trimZeros_zeroPadded (n : Nat) :
    (trimZeros (zeroPadded 9 n)).toList = Decimal.trimmed (places n) := by
  have nonneg : ¬ (n : Int) < 0 := by omega
  unfold trimZeros zeroPadded places Decimal.trimmed
  rw [String.toList_ofList, if_neg nonneg]
  simp only [Int.natAbs_natCast, String.empty_append, String.toList_append, String.toList_ofList,
    ← String.length_toList, toList_digits, String.toList_empty, List.length_nil, Nat.zero_add]

private theorem formatDuration_toList :
    (formatDuration secs nanos).toList = (writtenParts secs nanos).text := by
  unfold formatDuration writtenParts DurationText.text DurationText.body
  simp only [String.toList_append, toList_digits, decide_eq_true_eq]
  congr 1
  rw [List.append_assoc]
  congr 1
  · split
    · rfl
    · rfl
  · congr 1
    by_cases zero : nanos = 0
    · rw [if_pos zero, if_pos zero]
      rfl
    · rw [if_neg zero, if_neg zero]
      rw [← trimZeros_zeroPadded]
      exact String.toList_append

private theorem places_digits {n : Nat} (small : n < 10 ^ 9) :
    (places n).length = 9 ∧ Decimal.value (places n) = n ∧
      (places n).all Char.isDigit = true := by
  obtain ⟨⟨_, all⟩, value⟩ := Decimal.digits?_eq_some.mp (Decimal.digits?_toDigits n)
  have short := (Nat.length_toDigits_le_iff (b := 10) (by decide) (by decide)).mpr small
  unfold places
  refine ⟨?_, ?_, ?_⟩
  · rw [List.length_append, List.length_replicate]
    omega
  · rw [Decimal.value_zeros_append, value]
  · rw [List.all_append, Decimal.all_zeros, all, Bool.and_self]

private theorem writtenParts_proper (small : nanos.toInt.natAbs < 10 ^ 9) :
    (writtenParts secs nanos).Proper ↔ secs ≠ Int64.minValue := by
  have read := Decimal.digits?_toDigits secs.toInt.natAbs
  have least := Int64.le_toInt secs
  have most := Int64.toInt_lt secs
  have isLeast : secs = Int64.minValue ↔ secs.toInt = -2 ^ 63 := Int64.toInt_inj.symm
  constructor
  · rintro ⟨⟨n, digits, bound⟩, _⟩ minimal
    rw [writtenParts, read] at digits
    cases digits
    rw [isLeast.mp minimal] at bound
    exact absurd bound (by decide)
  · intro other
    rw [Ne, isLeast] at other
    refine ⟨⟨_, read, by omega⟩, fun fraction here => ?_⟩
    unfold writtenParts at here
    dsimp only at here
    split at here
    · cases here
    · rename_i nonzero
      cases here
      obtain ⟨length, value, all⟩ := places_digits small
      have some' : nanos.toInt ≠ 0 := fun zero => nonzero (Int32.toInt_inj.mp zero)
      refine ⟨Decimal.trimmed_ne_nil (by omega), ?_, Decimal.all_trimmed all⟩
      rw [← length]
      exact Decimal.trimmed_length_le _

private theorem writtenParts_nanoseconds (small : nanos.toInt.natAbs < 10 ^ 9)
    (signs : 0 ≤ secs.toInt ∧ 0 ≤ nanos.toInt ∨ secs.toInt ≤ 0 ∧ nanos.toInt ≤ 0) :
    (writtenParts secs nanos).nanoseconds = secs.toInt * 10 ^ 9 + nanos.toInt := by
  have billionths : (writtenParts secs nanos).billionths = nanos.toInt.natAbs := by
    unfold DurationText.billionths writtenParts
    dsimp only
    by_cases zero : nanos = 0
    · rw [if_pos zero, zero]
      rfl
    · rw [if_neg zero]
      obtain ⟨length, value, _⟩ := places_digits small
      have whole := Decimal.value_trimmed (places nanos.toInt.natAbs)
      rw [length, value] at whole
      exact whole
  have seconds : Decimal.value (writtenParts secs nanos).seconds = secs.toInt.natAbs :=
    (Decimal.digits?_eq_some.mp (Decimal.digits?_toDigits _)).2
  have negative : (writtenParts secs nanos).negative = true ↔
      secs.toInt < 0 ∨ secs.toInt = 0 ∧ nanos.toInt < 0 := by
    unfold writtenParts
    rw [decide_eq_true_eq, Int64.lt_iff_toInt_lt, Int32.lt_iff_toInt_lt, ← Int64.toInt_inj]
    rfl
  unfold DurationText.nanoseconds
  rw [billionths, seconds]
  split
  · rename_i isNegative
    have sign := negative.mp isNegative
    omega
  · rename_i isPositive
    have sign := mt negative.mpr isPositive
    omega

/-- A duration is read back unless its seconds are the least number, which has no digits in range. -/
private theorem readBack_iff {msg : DynamicMessage} (range : DurationInRange msg) :
    ReadBack desc msg ↔ secondsOf msg ≠ Int64.minValue := by
  have nanos32 : (nanosOf msg).toInt32.toInt = (nanosOf msg).toInt := by
    have small := range.small
    rw [Int64.toInt_toInt32, Int.bmod_eq_of_le (by omega) (by omega)]
  have small : (nanosOf msg).toInt32.toInt.natAbs < 10 ^ 9 := by
    rw [nanos32]
    exact range.small
  have signs := range.signs
  rw [← nanos32] at signs
  have text : durationFromJson desc (durationToJson msg) =
      readParts desc (writtenParts (secondsOf msg) (nanosOf msg).toInt32) :=
    durationFromJson_text (digits_apart (Decimal.digits?_toDigits _)) formatDuration_toList
  rw [ReadBack, text]
  constructor
  · intro read minimal
    obtain ⟨n, numeral, _, most⟩ := (readParts_ok.mp ⟨_, read⟩).seconds
    have digits : Decimal.numeral? (String.ofList (Nat.toDigits 10 (secondsOf msg).toInt.natAbs)) =
        some ((secondsOf msg).toInt.natAbs : Int) :=
      Decimal.numeral?_ofList.mpr (.inl ⟨_, Decimal.digits?_toDigits _, rfl⟩)
    rw [writtenParts, digits, minimal] at numeral
    cases numeral
    exact absurd most (by decide)
  · intro other
    have proper := (writtenParts_proper small).mpr other
    obtain ⟨secs, nanos, read, exact', little, signs'⟩ := @readParts_proper desc _ proper
    rw [writtenParts_nanoseconds small signs, nanos32] at exact'
    have sameSecs : secs = secondsOf msg := Int64.toInt_inj.mp (by omega)
    have sameNanos : nanos = nanosOf msg := Int64.toInt_inj.mp (by omega)
    rw [read, sameSecs, sameNanos]

end Writing

/-- Where texts are read exactly and durations read back. -/
theorem durations_iff {desc : DescriptorProto}
    (standard : Declares desc 1 .int64 ∧ Declares desc 2 .int32) :
    (∀ s, ReadExactly desc s ↔ ¬ TakenLoosely s) ∧
      ∀ msg, DurationInRange msg → (ReadBack desc msg ↔ secondsOf msg ≠ Int64.minValue) :=
  ⟨readExactly_iff standard.2, fun _ range => readBack_iff range⟩

/-- The descriptor of a duration. -/
private def durationDesc : DescriptorProto where
  name := some "Duration"
  field := [
    { name := some "seconds", number := some 1, label := some .optional, type := some .int64 },
    { name := some "nanos", number := some 2, label := some .optional, type := some .int32 }]

private theorem durationDesc_standard :
    Declares durationDesc 1 .int64 ∧ Declares durationDesc 2 .int32 :=
  ⟨⟨_, rfl, by decide, rfl, rfl⟩, ⟨_, rfl, by decide, rfl, rfl⟩⟩

/-- Between zero and minus one second the nanoseconds alone have the sign. -/
theorem durations_half : (∀ s, ReadExactly durationDesc s ↔ ¬ TakenLoosely s) ∧
    ReadBack durationDesc (secondsAndNanos durationDesc 0 (-500000000)) :=
  ⟨(durations_iff durationDesc_standard).1,
    ((durations_iff durationDesc_standard).2 _ ⟨by decide, by decide⟩).mpr (by decide)⟩

/-- A text with a sign of its own behind the place of the minus sign is read. -/
theorem not_durations : ¬ ∀ desc : DescriptorProto,
    Declares desc 1 .int64 ∧ Declares desc 2 .int32 → (∀ s, ReadExactly desc s) ∧
      ∀ msg, DurationInRange msg → ReadBack desc msg := by
  intro all
  apply (readExactly_iff durationDesc_standard.2 "--5s").mp ((all _ durationDesc_standard).1 _)
  refine ⟨⟨true, ['-', '5'], none⟩, ⟨fun unsigned => (by cases unsigned), by decide⟩,
    ⟨⟨-5, by decide, by decide, by decide⟩, fun _ here => (by cases here)⟩, .inr (.inl rfl), rfl⟩


end TptProto.Json
