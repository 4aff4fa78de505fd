import TptProto.Core.Utf8
import TptProto.Grpc.Context

/-! The `grpc-timeout` header: which durations come back from their own text, and which texts are
cut within a character. -/

namespace TptProto.Grpc

open TptProto.Core TptProto.Foundation

namespace Duration

/-- What the type holds: seconds of a `u64` and less than a second on top. -/
structure Proper (d : Duration) : Prop where
  secs : d.secs < 2 ^ 64
  nanos : d.nanos < 10 ^ 9

def asMillis (d : Duration) : Nat := d.secs * 1000 + d.nanos / 1000000

def asMicros (d : Duration) : Nat := d.secs * 1000000 + d.nanos / 1000

def asNanos (d : Duration) : Nat := d.secs * 1000000000 + d.nanos

/-- Whole seconds, or a whole number of a smaller unit that a `u64` holds. -/
def CountFits (d : Duration) : Prop :=
  d.nanos = 0 ∨ (d.nanos % 1000000 = 0 ∧ d.asMillis < 2 ^ 64) ∨
    (d.nanos % 1000 = 0 ∧ d.asMicros < 2 ^ 64) ∨ d.asNanos < 2 ^ 64

instance (d : Duration) : Decidable d.CountFits := by
  unfold CountFits
  infer_instance

end Duration

namespace Timeout

/-- `str::split_at`, which panics within a character. -/
def splitAt (text : String) (mid : Nat) : Outcome String (String × String) :=
  match fromUtf8 ((asBytes text).take mid), fromUtf8 ((asBytes text).drop mid) with
  | some front, some back => .ok (front, back)
  | _, _ => .panic

/-- The match on the unit in `parse_timeout`. -/
def inUnit (value : String) (n : Nat) (unit : String) : Outcome String Duration :=
  let overflows := s!"grpc-timeout `{value}` overflows"
  if unit = "H" then (checkedMul n 3600).elim (.err overflows) fun secs => .ok (.fromSecs secs)
  else if unit = "M" then (checkedMul n 60).elim (.err overflows) fun secs => .ok (.fromSecs secs)
  else if unit = "S" then .ok (.fromSecs n)
  else if unit = "m" then .ok (.fromMillis n)
  else if unit = "u" then .ok (.fromMicros n)
  else if unit = "n" then .ok (.fromNanos n)
  else .err s!"unknown grpc-timeout unit `{unit}`"

/-- `parse_timeout` of any text. -/
def parseTimeout (value : String) : Outcome String Duration :=
  if (asBytes value).length < 2 then .err s!"invalid grpc-timeout `{value}`"
  else do
    let (digits, unit) ← splitAt value ((asBytes value).length - 1)
    match Decimal.parseNat (2 ^ 64) digits with
    | none => .err s!"invalid grpc-timeout value `{value}`"
    | some n => inUnit value n unit

def formatTimeout (d : Duration) : String :=
  if d.asNanos % 1000000000 = 0 then
    if d.secs % 3600 = 0 then toString (d.secs / 3600) ++ "H"
    else if d.secs % 60 = 0 then toString (d.secs / 60) ++ "M"
    else toString d.secs ++ "S"
  else if d.asNanos % 1000000 = 0 then toString d.asMillis ++ "m"
  else if d.asNanos % 1000 = 0 then toString d.asMicros ++ "u"
  else toString d.asNanos ++ "n"

section Splitting

variable {chars : List Char} {last : Char}

private theorem bytes_concat : asBytes (String.ofList (chars ++ [last])) =
    encode chars ++ String.utf8EncodeChar last := by
  rw [asBytes_eq_encode, String.toList_ofList, encode_append, encode_cons, encode_nil, List.append_nil]

/-- An ASCII character is cut off the end. -/
private theorem splitAt_ascii (small : last.toNat < 128) :
    splitAt (String.ofList (chars ++ [last]))
        ((asBytes (String.ofList (chars ++ [last]))).length - 1) =
      .ok (String.ofList chars, String.ofList [last]) := by
  rcases utf8EncodeChar_cases last with ⟨_, single⟩ | ⟨large, _⟩
  · have whole : asBytes (String.ofList (chars ++ [last])) = encode chars ++ encode [last] := by
      rw [bytes_concat, encode_cons, encode_nil, List.append_nil]
    have one : (encode [last]).length = 1 := by
      rw [encode_cons, single]
      rfl
    have mid : (encode chars ++ encode [last]).length - 1 = (encode chars).length := by
      rw [List.length_append, one, Nat.add_sub_cancel]
    unfold splitAt
    rw [whole, mid, List.take_left, List.drop_left, fromUtf8_encode, fromUtf8_encode]
  · omega

/-- Of any other character, the last byte alone is no text. -/
private theorem splitAt_wide (large : 128 ≤ last.toNat) :
    splitAt (String.ofList (chars ++ [last]))
        ((asBytes (String.ofList (chars ++ [last]))).length - 1) = .panic := by
  rcases utf8EncodeChar_cases last with ⟨small, _⟩ | ⟨_, nonempty, wide⟩
  · omega
  obtain ⟨front, b, split⟩ := (List.eq_nil_or_concat _).resolve_left nonempty
  rw [List.concat_eq_append] at split
  have above : (128 : UInt8) ≤ b := wide b (by rw [split]; simp)
  have behind : (asBytes (String.ofList (chars ++ [last]))).drop
      ((asBytes (String.ofList (chars ++ [last]))).length - 1) = [b] := by
    rw [bytes_concat, split, ← List.append_assoc, List.length_append, List.length_singleton,
      Nat.add_sub_cancel, List.drop_left]
  have noText : fromUtf8 [b] = none := by
    rw [Option.eq_none_iff_forall_ne_some]
    intro text decoded
    have bytes := asBytes_of_fromUtf8 decoded
    rw [asBytes_eq_encode] at bytes
    cases spelled : text.toList with
    | nil =>
      rw [spelled] at bytes
      cases bytes
    | cons c rest =>
      rw [spelled, encode_cons] at bytes
      have short := congrArg List.length bytes
      rw [List.length_append, List.length_singleton] at short
      rcases utf8EncodeChar_cases c with ⟨small, single⟩ | ⟨large, _⟩
      · rw [single] at bytes
        have code := congrArg UInt8.toNat (List.cons.inj bytes).1
        rw [UInt8.toNat_ofNat', Nat.mod_eq_of_lt (by omega)] at code
        have bound := UInt8.le_iff_toNat_le.mp above
        have value : (128 : UInt8).toNat = 128 := rfl
        omega
      · have long := length_utf8EncodeChar_wide large
        omega
  unfold splitAt
  rw [behind, noText]
  split
  · rename_i front back _ impossible
    cases impossible
  · rfl

/-- What is read of a text with a last character. -/
private theorem parseTimeout_concat (nonempty : chars ≠ []) (small : last.toNat < 128) :
    parseTimeout (String.ofList (chars ++ [last])) =
      match Decimal.parseNat (2 ^ 64) (String.ofList chars) with
      | none => .err s!"invalid grpc-timeout value `{String.ofList (chars ++ [last])}`"
      | some n => inUnit (String.ofList (chars ++ [last])) n (String.ofList [last]) := by
  have long : ¬ (asBytes (String.ofList (chars ++ [last]))).length < 2 := by
    have front : encode chars ≠ [] := by
      obtain ⟨c, rest, rfl⟩ := List.exists_cons_of_ne_nil nonempty
      have positive := Char.utf8Size_pos c
      rw [← String.length_utf8EncodeChar] at positive
      rw [encode_cons]
      exact List.append_ne_nil_of_left_ne_nil (List.length_pos_iff.mp positive) _
    have first := List.length_pos_iff.mpr front
    have second := Char.utf8Size_pos last
    rw [bytes_concat, List.length_append, String.length_utf8EncodeChar]
    omega
  unfold parseTimeout
  rw [if_neg long, splitAt_ascii small]
  rfl

end Splitting

section Returning

private theorem inUnit_returns (value : String) (n : Nat) (unit : String) :
    (inUnit value n unit).Returns := by
  have product (factor : Nat) : ((checkedMul n factor).elim
      (.err s!"grpc-timeout `{value}` overflows") fun secs => .ok (.fromSecs secs) :
        Outcome String Duration).Returns := by
    cases checkedMul n factor with
    | none => exact .err _
    | some secs => exact .ok _
  unfold inUnit
  dsimp only
  split
  · exact product 3600
  split
  · exact product 60
  split
  · exact .ok _
  split
  · exact .ok _
  split
  · exact .ok _
  split
  · exact .ok _
  · exact .err _

/-- A text is answered unless its last character is no ASCII. -/
theorem parseTimeout_returns_iff (value : String) :
    (parseTimeout value).Returns ↔ ∀ c ∈ value.toList.getLast?, c.toNat < 128 := by
  rcases List.eq_nil_or_concat value.toList with empty | ⟨chars, last, spelled⟩
  · have same : value = "" := String.toList_inj.mp empty
    subst same
    exact iff_of_true (.err _) nofun
  · rw [List.concat_eq_append] at spelled
    have same : value = String.ofList (chars ++ [last]) := by rw [← spelled, String.ofList_toList]
    rw [spelled, List.getLast?_concat]
    simp only [Option.mem_some_iff, forall_eq']
    by_cases small : last.toNat < 128
    · refine iff_of_true ?_ small
      by_cases nonempty : chars = []
      · subst nonempty
        have short : (asBytes value).length < 2 := by
          rcases utf8EncodeChar_cases last with ⟨_, single⟩ | ⟨large, _⟩
          · rw [same, bytes_concat, single]
            exact Nat.lt_succ_self 1
          · omega
        unfold parseTimeout
        rw [if_pos short]
        exact .err _
      · rw [same, parseTimeout_concat nonempty small]
        cases Decimal.parseNat (2 ^ 64) (String.ofList chars) with
        | none => exact .err _
        | some n => exact inUnit_returns _ _ _
    · refine iff_of_false ?_ small
      have long : ¬ (asBytes value).length < 2 := by
        have several := length_utf8EncodeChar_wide (Nat.le_of_not_lt small)
        rw [same, bytes_concat, List.length_append]
        omega
      unfold parseTimeout
      rw [if_neg long, same, splitAt_wide (Nat.le_of_not_lt small)]
      exact id

end Returning

section RoundTrip

variable {d : Duration}

private theorem parseTimeout_numeral (n : Nat) {unit : Char} (small : unit.toNat < 128) :
    parseTimeout (toString n ++ String.ofList [unit]) =
      if n < 2 ^ 64 then inUnit (toString n ++ String.ofList [unit]) n (String.ofList [unit])
      else .err s!"invalid grpc-timeout value `{toString n ++ String.ofList [unit]}`" := by
  have spelled : toString n ++ String.ofList [unit] = String.ofList ((toString n).toList ++ [unit]) := by
    rw [String.ofList_append, String.ofList_toList]
  have nonempty : (toString n).toList ≠ [] := by
    rw [show (toString n).toList = Nat.toDigits 10 n from Nat.toList_repr]
    exact Nat.toDigits_ne_nil
  rw [spelled, parseTimeout_concat nonempty small, String.ofList_toList, Decimal.parseNat_toString]
  by_cases fits : n < 2 ^ 64
  · rw [if_pos fits, if_pos fits]
  · rw [if_neg fits, if_neg fits]

private theorem unit_trip {n : Nat} {unit : Char} (small : unit.toNat < 128)
    (read : ∀ value, inUnit value n (String.ofList [unit]) = .ok d) :
    parseTimeout (toString n ++ String.ofList [unit]) = .ok d ↔ n < 2 ^ 64 := by
  rw [parseTimeout_numeral n small, read]
  split
  · rename_i fits
    exact iff_of_true rfl fits
  · rename_i large
    refine iff_of_false ?_ large
    rintro ⟨⟩

/-- A duration comes back from its text if and only if a `u64` holds its count. -/
theorem formatTimeout_trip_iff (proper : d.Proper) :
    parseTimeout (formatTimeout d) = .ok d ↔ d.CountFits := by
  obtain ⟨bound, below⟩ := proper
  have total : d.asNanos = d.secs * 1000000000 + d.nanos := rfl
  have thousandths : d.asMillis = d.secs * 1000 + d.nanos / 1000000 := rfl
  have millionths : d.asMicros = d.secs * 1000000 + d.nanos / 1000 := rfl
  have same {span : Duration} (secs : span.secs = d.secs) (nanos : span.nanos = d.nanos) :
      (Outcome.ok span : Outcome String Duration) = .ok d := by
    cases span
    cases d
    cases secs
    cases nanos
    rfl
  unfold formatTimeout Duration.CountFits
  split
  · have zero : d.nanos = 0 := by omega
    refine iff_of_true ?_ (.inl zero)
    split
    · rename_i hours
      refine (@unit_trip d (d.secs / 3600) 'H' (by decide) fun value => ?_).mpr (by omega)
      have product : d.secs / 3600 * 3600 = d.secs := by omega
      have scaled : checkedMul (d.secs / 3600) 3600 = some d.secs := by
        rw [checkedMul, product, if_pos bound]
      show (checkedMul (d.secs / 3600) 3600).elim _ _ = _
      rw [scaled]
      exact same rfl zero.symm
    split
    · rename_i minutes
      refine (@unit_trip d (d.secs / 60) 'M' (by decide) fun value => ?_).mpr (by omega)
      have product : d.secs / 60 * 60 = d.secs := by omega
      have scaled : checkedMul (d.secs / 60) 60 = some d.secs := by
        rw [checkedMul, product, if_pos bound]
      show (checkedMul (d.secs / 60) 60).elim _ _ = _
      rw [scaled]
      exact same rfl zero.symm
    · exact (@unit_trip d d.secs 'S' (by decide) fun value => same rfl zero.symm).mpr bound
  split
  · refine (@unit_trip d d.asMillis 'm' (by decide) fun value => ?_).trans (by omega)
    have whole : d.asMillis / 1000 = d.secs := by omega
    have rest : d.asMillis % 1000 * 1000000 = d.nanos := by omega
    exact same whole rest
  split
  · refine (@unit_trip d d.asMicros 'u' (by decide) fun value => ?_).trans (by omega)
    have whole : d.asMicros / 1000000 = d.secs := by omega
    have rest : d.asMicros % 1000000 * 1000 = d.nanos := by omega
    exact same whole rest
  · refine (@unit_trip d d.asNanos 'n' (by decide) fun value => ?_).trans (by omega)
    have whole : d.asNanos / 1000000000 = d.secs := by omega
    have rest : d.asNanos % 1000000000 = d.nanos := by omega
    exact same whole rest

end RoundTrip

/-- A duration comes back from its header if and only if a `u64` holds its count of the unit, and a
text is answered if and only if its last character, if it has any, is ASCII. -/
theorem timeout_header_iff (d : Duration) (proper : d.Proper) (value : String) :
    (parseTimeout (formatTimeout d) = .ok d ↔ d.CountFits) ∧
      ((parseTimeout value).Returns ↔ ∀ c ∈ value.toList.getLast?, c.toNat < 128) :=
  ⟨formatTimeout_trip_iff proper, parseTimeout_returns_iff value⟩

/-- An hour comes back. -/
theorem timeout_header_hour : parseTimeout (formatTimeout ⟨3600, 0⟩) = .ok ⟨3600, 0⟩ :=
  (timeout_header_iff ⟨3600, 0⟩ ⟨by decide, by decide⟩ "1H").1.mpr (by decide)

/-- A millisecond beyond `u64::MAX` of them is refused, and a text that ends in `é` panics. -/
theorem not_timeout_header :
    (¬ ∀ d : Duration, d.Proper → parseTimeout (formatTimeout d) = .ok d) ∧
      ¬ ∀ value, (parseTimeout value).Returns := by
  constructor
  · intro all
    have trips := all ⟨18446744073709552, 1000000⟩ ⟨by decide, by decide⟩
    exact absurd ((formatTimeout_trip_iff ⟨by decide, by decide⟩).mp trips) (by decide)
  · intro all
    have ascii := (parseTimeout_returns_iff "1é").mp (all "1é") 'é' (by decide)
    exact absurd ascii (by decide)

end Timeout

end TptProto.Grpc
