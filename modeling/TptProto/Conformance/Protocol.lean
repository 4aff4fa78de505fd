import TptProto.Core.WireType
import TptProto.Foundation.ByteSource
import TptProto.Foundation.Logged

/-! Framing of the conformance protocol: a length of four bytes in front of each message. -/

namespace TptProto.Conformance

open TptProto.Foundation TptProto.Core

inductive IoError where
  | unexpectedEof (text : String)
  | invalidData (text : String)
  | other (text : String)
  deriving DecidableEq, Repr

def maxFrame : Nat := 64 * 1024 * 1024

/-- The loop that fills `len_buf`, with what it holds so far; `none` at a clean end. -/
def readLength : Nat → List UInt8 → ByteSource → Outcome IoError (Option (List UInt8) × ByteSource)
  | 0, _, _ => .outOfFuel
  | fuel + 1, got, reader =>
    let more := reader.read (4 - got.length)
    if more.1.isEmpty then
      if got.isEmpty then .ok (none, more.2) else .err (.unexpectedEof "truncated frame length")
    else if (got ++ more.1).length = 4 then .ok (some (got ++ more.1), more.2)
    else readLength fuel (got ++ more.1) more.2

def readFrame (reader : ByteSource) : Outcome IoError (Option (List UInt8) × ByteSource) := do
  let (lenBuf, reader) ← readLength 4 [] reader
  match lenBuf with
  | none => .ok (none, reader)
  | some lenBuf =>
    let len := (fromLeBytes32 lenBuf).toNat
    if len > maxFrame then .err (.invalidData "frame too large")
    else do
      let (buf, reader) ← Outcome.ofOption (.unexpectedEof "failed to fill whole buffer")
        (reader.readExact len len [])
      .ok (some buf, reader)

/-- The bytes of a frame. -/
def framed (data : List UInt8) : List UInt8 := writeFixed32 (UInt32.ofNat data.length) ++ data

def writeFrame (data : List UInt8) : Outcome IoError (List UInt8) :=
  if data.length < 2 ^ 32 then .ok (framed data)
  else .err (.invalidData "frame exceeds 4 GiB")

/-- Frame by frame, what is answered is written. A frame has at least four bytes. -/
def answerFrames (answer : List UInt8 → Outcome IoError (List UInt8)) :
    Nat → ByteSource → Logged IoError UInt8 Unit
  | 0, _ => Logged.lift .outOfFuel
  | fuel + 1, reader => do
    let (frame, reader) ← Logged.lift (readFrame reader)
    match frame with
    | none => pure ()
    | some frame =>
      let out ← Logged.lift (answer frame)
      let bytes ← Logged.lift (writeFrame out)
      (⟨.ok (), bytes⟩ : Logged IoError UInt8 Unit)
      answerFrames answer fuel reader

/-- How a run ends on the bytes that no answered frame accounts for. -/
inductive Ends (answer : List UInt8 → Outcome IoError (List UInt8)) :
    List UInt8 → Outcome IoError Unit → Prop where
  | clean : Ends answer [] (.ok ())
  | truncated {rest : List UInt8} (some : rest ≠ []) (short : rest.length < 4) :
      Ends answer rest (.err (.unexpectedEof "truncated frame length"))
  | large {len : UInt32} {rest : List UInt8} (high : maxFrame < len.toNat) :
      Ends answer (writeFixed32 len ++ rest) (.err (.invalidData "frame too large"))
  | cut {len : UInt32} {rest : List UInt8} (fits : len.toNat ≤ maxFrame)
      (short : rest.length < len.toNat) :
      Ends answer (writeFixed32 len ++ rest) (.err (.unexpectedEof "failed to fill whole buffer"))
  | unanswered {data rest : List UInt8} (fits : data.length ≤ maxFrame)
      (fails : ∀ out, answer data ≠ .ok out) :
      Ends answer (framed data ++ rest) ((answer data).map fun _ => ())
  | oversized {data rest out : List UInt8} (fits : data.length ≤ maxFrame)
      (answered : answer data = .ok out) (high : 2 ^ 32 ≤ out.length) :
      Ends answer (framed data ++ rest) (.err (.invalidData "frame exceeds 4 GiB"))

/-- Frames that were answered, one after another, in front of the rest. -/
inductive Answered (answer : List UInt8 → Outcome IoError (List UInt8)) :
    List UInt8 → List UInt8 → List UInt8 → Prop where
  | nil {rest : List UInt8} : Answered answer rest [] rest
  | cons {data out bytes log rest : List UInt8} (fits : data.length ≤ maxFrame)
      (answered : answer data = .ok out) (small : out.length < 2 ^ 32)
      (later : Answered answer bytes log rest) :
      Answered answer (framed data ++ bytes) (framed out ++ log) rest

section Reading

variable {reader : ByteSource}

theorem readLength_of_le {fuel : Nat} {got : List UInt8} (enough : 4 ≤ got.length + fuel)
    (few : got.length < 4) (long : 4 ≤ got.length + reader.bytes.length) :
    ∃ after : ByteSource,
      readLength fuel got reader = .ok (some (got ++ reader.bytes.take (4 - got.length)), after) ∧
      after.bytes = reader.bytes.drop (4 - got.length) := by
  induction fuel generalizing got reader with
  | zero => omega
  | succ fuel ih =>
    obtain ⟨count, small, inside, front, left, some⟩ := reader.read_spec (4 - got.length)
    have positive : 0 < count := some (by omega) (List.ne_nil_of_length_pos (by omega))
    have width : (reader.read (4 - got.length)).1.length = count := by
      rw [front, List.length_take]
      omega
    have filled : (reader.read (4 - got.length)).1.isEmpty = false := by
      rw [List.isEmpty_eq_false_iff]
      exact List.ne_nil_of_length_pos (by omega)
    rw [readLength, filled, if_neg Bool.false_ne_true]
    split
    · rename_i whole
      rw [List.length_append, width] at whole
      obtain rfl : count = 4 - got.length := by omega
      exact ⟨_, by rw [front], left⟩
    · rename_i partial'
      rw [List.length_append, width] at partial'
      have lengths : (got ++ (reader.read (4 - got.length)).1).length = got.length + count := by
        rw [List.length_append, width]
      have rest : (reader.read (4 - got.length)).2.bytes.length = reader.bytes.length - count := by
        rw [left, List.length_drop]
      obtain ⟨after, read, remaining⟩ := @ih (reader.read (4 - got.length)).2
        (got ++ (reader.read (4 - got.length)).1) (by omega) (by omega) (by omega)
      refine ⟨after, ?_, ?_⟩
      · rw [read, lengths, front, left, List.append_assoc, ← List.take_add]
        congr 5
        omega
      · rw [remaining, lengths, left, List.drop_drop]
        congr 1
        omega

private theorem readLength_again {fuel : Nat} {got : List UInt8}
    (some : (reader.read (4 - got.length)).1 ≠ [])
    (few : (got ++ (reader.read (4 - got.length)).1).length ≠ 4) :
    readLength (fuel + 1) got reader =
      readLength fuel (got ++ (reader.read (4 - got.length)).1) (reader.read (4 - got.length)).2 := by
  rw [readLength, List.isEmpty_eq_false_iff.mpr some, if_neg Bool.false_ne_true, if_neg few]

/-- Fewer than four bytes are a truncated length, and none at all a clean end. -/
theorem readLength_of_lt {fuel : Nat} {got : List UInt8} (enough : 4 ≤ got.length + fuel)
    (short : got.length + reader.bytes.length < 4) :
    if got ++ reader.bytes = [] then
      ∃ after : ByteSource, readLength fuel got reader = .ok (none, after)
    else readLength fuel got reader = .err (.unexpectedEof "truncated frame length") := by
  induction fuel generalizing got reader with
  | zero => omega
  | succ fuel ih =>
    obtain ⟨count, small, inside, front, left, some⟩ := reader.read_spec (4 - got.length)
    by_cases nothing : (reader.read (4 - got.length)).1 = []
    · have atEnd := ByteSource.read_eq_nil (by omega) nothing
      rw [readLength, nothing, List.isEmpty_nil, if_pos rfl, atEnd, List.append_nil]
      by_cases clean : got = []
      · rw [if_pos clean, clean, List.isEmpty_nil, if_pos rfl]
        exact ⟨_, rfl⟩
      · rw [if_neg clean, List.isEmpty_eq_false_iff.mpr clean, if_neg Bool.false_ne_true]
    · have positive := List.length_pos_iff.mpr nothing
      have width : (reader.read (4 - got.length)).1.length = count := by
        rw [front, List.length_take]
        omega
      have lengths : (got ++ (reader.read (4 - got.length)).1).length = got.length + count := by
        rw [List.length_append, width]
      have rest : (reader.read (4 - got.length)).2.bytes.length = reader.bytes.length - count := by
        rw [left, List.length_drop]
      have whole : got ++ (reader.read (4 - got.length)).1 ++ (reader.read (4 - got.length)).2.bytes =
          got ++ reader.bytes := by
        rw [front, left, List.append_assoc, List.take_append_drop]
      have later := @ih (reader.read (4 - got.length)).2
        (got ++ (reader.read (4 - got.length)).1) (by omega) (by omega)
      rw [whole] at later
      rw [readLength_again nothing (by omega)]
      exact later

/-- Four bytes are read as the length they spell. -/
theorem readFrame_len {len : UInt32} {rest : List UInt8}
    (held : reader.bytes = writeFixed32 len ++ rest) :
    ∃ after : ByteSource, after.bytes = rest ∧ readFrame reader =
      if len.toNat > maxFrame then .err (.invalidData "frame too large")
      else (do
        let (buf, reader) ← Outcome.ofOption (.unexpectedEof "failed to fill whole buffer")
          (after.readExact len.toNat len.toNat [])
        .ok (some buf, reader)) := by
  have long : 4 ≤ reader.bytes.length := by
    rw [held, List.length_append, writeFixed32_length]
    omega
  obtain ⟨after, read, left⟩ := @readLength_of_le reader 4 [] (by simp) (by simp) (by simpa using long)
  have front : reader.bytes.take 4 = writeFixed32 len := by
    rw [held, List.take_left' (writeFixed32_length len)]
  refine ⟨after, ?_, ?_⟩
  · rw [left, held, List.length_nil, Nat.sub_zero, List.drop_left' (writeFixed32_length len)]
  · rw [readFrame, read, Outcome.ok_bind]
    simp only [List.length_nil, Nat.sub_zero, front, List.nil_append, fromLeBytes32_writeFixed32]

theorem toNat_ofNat_length {data : List UInt8} (fits : data.length ≤ maxFrame) :
    (UInt32.ofNat data.length).toNat = data.length := by
  rw [UInt32.toNat_ofNat']
  exact Nat.mod_eq_of_lt (by unfold maxFrame at fits; omega)

/-- A frame within the limit is read, and what is behind it is left. -/
theorem readFrame_framed {data rest : List UInt8} (fits : data.length ≤ maxFrame)
    (held : reader.bytes = framed data ++ rest) :
    ∃ after : ByteSource, readFrame reader = .ok (some data, after) ∧ after.bytes = rest := by
  rw [framed, List.append_assoc] at held
  obtain ⟨middle, left, read⟩ := readFrame_len held
  have long : data.length ≤ middle.bytes.length := by
    rw [left, List.length_append]
    omega
  obtain ⟨after, filled, remaining⟩ := ByteSource.readExact_of_le (Nat.le_refl _) long []
  refine ⟨after, ?_, ?_⟩
  · rw [read, toNat_ofNat_length fits, if_neg (by omega), filled, left, List.take_left,
      List.nil_append]
    rfl
  · rw [remaining, left, List.drop_left]

/-- Bytes are at a clean end, or a frame is in front, or they cannot be read as one. -/
theorem readFrame_cases (reader : ByteSource) :
    (reader.bytes = [] ∧ ∃ after : ByteSource, readFrame reader = .ok (none, after)) ∨
    (∃ data rest, data.length ≤ maxFrame ∧ reader.bytes = framed data ++ rest) ∨
    ∃ error, readFrame reader = .err error ∧
      ∀ answer, Ends answer reader.bytes (.err error) := by
  by_cases short : reader.bytes.length < 4
  · have read := @readLength_of_lt reader 4 [] (by simp) (by simpa using short)
    rw [List.nil_append] at read
    by_cases atEnd : reader.bytes = []
    · rw [if_pos atEnd] at read
      obtain ⟨after, read⟩ := read
      exact .inl ⟨atEnd, after, by rw [readFrame, read, Outcome.ok_bind]⟩
    · rw [if_neg atEnd] at read
      refine .inr (.inr ⟨_, by rw [readFrame, read, Outcome.err_bind], fun answer => ?_⟩)
      exact .truncated atEnd short
  · have width : (reader.bytes.take 4).length = 4 := by
      rw [List.length_take]
      omega
    obtain ⟨len, spelled⟩ : ∃ len, reader.bytes.take 4 = writeFixed32 len :=
      ⟨fromLeBytes32 (reader.bytes.take 4), (writeFixed32_fromLeBytes32 width).symm⟩
    have held : reader.bytes = writeFixed32 len ++ reader.bytes.drop 4 := by
      rw [← spelled, List.take_append_drop]
    generalize reader.bytes.drop 4 = rest at held
    obtain ⟨after, left, read⟩ := readFrame_len held
    by_cases high : len.toNat > maxFrame
    · rw [if_pos high] at read
      refine .inr (.inr ⟨_, read, fun answer => ?_⟩)
      rw [held]
      exact .large high
    · rw [if_neg high] at read
      by_cases cut : rest.length < len.toNat
      · rw [ByteSource.readExact_of_lt (by rw [left]; exact cut)] at read
        refine .inr (.inr ⟨_, read, fun answer => ?_⟩)
        rw [held]
        exact .cut (by omega) cut
      · have taken : (rest.take len.toNat).length = len.toNat := by
          rw [List.length_take]
          omega
        refine .inr (.inl ⟨rest.take len.toNat, rest.drop len.toNat, by omega, ?_⟩)
        rw [held, framed, taken, List.append_assoc, List.take_append_drop]
        simp

end Reading

section Answering

variable {answer : List UInt8 → Outcome IoError (List UInt8)}

private theorem answerFrames_frame {fuel : Nat} {reader after : ByteSource} {data : List UInt8}
    (read : readFrame reader = .ok (some data, after)) :
    answerFrames answer (fuel + 1) reader = (do
      let out ← Logged.lift (answer data)
      let bytes ← Logged.lift (writeFrame out)
      ⟨(answerFrames answer fuel after).outcome, bytes ++ (answerFrames answer fuel after).log⟩) := by
  rw [answerFrames, read]
  rfl

/-- What a run does to the bytes of its input, in whatever pieces they arrive. -/
theorem answerFrames_spec (answer : List UInt8 → Outcome IoError (List UInt8)) (fuel : Nat) (reader : ByteSource) (enough : reader.bytes.length < fuel) :
    ∃ rest, Answered answer reader.bytes (answerFrames answer fuel reader).log rest ∧
      Ends answer rest (answerFrames answer fuel reader).outcome := by
  induction fuel generalizing reader with
  | zero => omega
  | succ fuel ih =>
    rcases readFrame_cases reader with ⟨atEnd, after, read⟩ | ⟨data, rest, fits, held⟩ | ⟨error, read, ends⟩
    · have ran : answerFrames answer (fuel + 1) reader = ⟨.ok (), []⟩ := by
        rw [answerFrames, read]
        rfl
      rw [ran, atEnd]
      exact ⟨[], .nil, .clean⟩
    · obtain ⟨after, read, left⟩ := readFrame_framed fits held
      rw [answerFrames_frame read, held]
      have unanswered (fails : ∀ out, answer data ≠ .ok out) :
          Ends answer (framed data ++ rest) ((answer data).map fun _ => ()) := .unanswered fits fails
      cases answered : answer data with
      | ok out =>
        by_cases small : out.length < 2 ^ 32
        · have shorter : after.bytes.length < fuel := by
            have whole := congrArg List.length held
            rw [framed, List.length_append, List.length_append, writeFixed32_length] at whole
            rw [left]
            omega
          obtain ⟨rest', before, ends⟩ := ih after shorter
          rw [left] at before
          have written : writeFrame out = .ok (framed out) := if_pos small
          simp only [Logged.lift_ok_bind, written]
          exact ⟨rest', .cons fits answered small before, ends⟩
        · have high : writeFrame out = .err (.invalidData "frame exceeds 4 GiB") := if_neg small
          simp only [Logged.lift_ok_bind, high]
          exact ⟨framed data ++ rest, .nil, .oversized fits answered (by omega)⟩
      | err | panic | outOfFuel =>
        rw [answered] at unanswered
        exact ⟨framed data ++ rest, .nil, unanswered (by simp)⟩
    · have ran : answerFrames answer (fuel + 1) reader = ⟨.err error, []⟩ := by
        rw [answerFrames, read]
        rfl
      rw [ran]
      exact ⟨reader.bytes, .nil, ends answer⟩

theorem writeFixed32_append {len len' : UInt32} {rest rest' : List UInt8}
    (same : writeFixed32 len ++ rest = writeFixed32 len' ++ rest') : len = len' ∧ rest = rest' := by
  obtain ⟨front, left⟩ := List.append_inj same (by simp)
  refine ⟨?_, left⟩
  rw [← fromLeBytes32_writeFixed32 len, front, fromLeBytes32_writeFixed32]

/-- Frames within the limit are told apart from what follows them. -/
theorem framed_append {data data' rest rest' : List UInt8} (fits : data.length ≤ maxFrame)
    (fits' : data'.length ≤ maxFrame) (same : framed data ++ rest = framed data' ++ rest') :
    data = data' ∧ rest = rest' := by
  simp only [framed, List.append_assoc] at same
  obtain ⟨lengths, bodies⟩ := writeFixed32_append same
  have width := congrArg UInt32.toNat lengths
  rw [toNat_ofNat_length fits, toNat_ofNat_length fits'] at width
  exact List.append_inj bodies width

/-- A frame in front is neither a truncated nor an oversized length. -/
private theorem Ends.of_framed {data rest : List UInt8} {outcome : Outcome IoError Unit}
    (fits : data.length ≤ maxFrame) (ends : Ends answer (framed data ++ rest) outcome) :
    ((∀ out, answer data ≠ .ok out) ∧ outcome = (answer data).map fun _ => ()) ∨
    ∃ out, answer data = .ok out ∧ 2 ^ 32 ≤ out.length ∧
      outcome = .err (.invalidData "frame exceeds 4 GiB") := by
  have width := toNat_ofNat_length fits
  have long : 4 ≤ (framed data ++ rest).length := by
    simp only [framed, List.length_append, writeFixed32_length]
    omega
  generalize whole : framed data ++ rest = bytes at ends long
  have split : writeFixed32 (UInt32.ofNat data.length) ++ (data ++ rest) = bytes := by
    rw [← whole, framed, List.append_assoc]
  cases ends with
  | clean => simp at long
  | truncated _ short => omega
  | large high =>
    obtain ⟨rfl, _⟩ := writeFixed32_append split
    omega
  | cut _ short =>
    obtain ⟨rfl, rfl⟩ := writeFixed32_append split
    rw [width, List.length_append] at short
    omega
  | unanswered fits' fails =>
    obtain ⟨rfl, _⟩ := framed_append fits fits' whole
    exact .inl ⟨fails, rfl⟩
  | oversized fits' answered high =>
    obtain ⟨rfl, _⟩ := framed_append fits fits' whole
    exact .inr ⟨_, answered, high, rfl⟩

theorem Ends.unique {bytes : List UInt8} {outcome outcome' : Outcome IoError Unit}
    (first : Ends answer bytes outcome) (second : Ends answer bytes outcome') :
    outcome = outcome' := by
  cases first with
  | clean =>
    generalize whole : ([] : List UInt8) = bytes at second
    cases second with
    | clean => rfl
    | truncated some => exact absurd whole.symm some
    | large | cut | unanswered | oversized =>
      have lengths := congrArg List.length whole
      simp only [framed, List.length_append, writeFixed32_length, List.length_nil] at lengths
      omega
  | truncated some short =>
    cases second with
    | clean => exact absurd rfl some
    | truncated => rfl
    | large | cut | unanswered | oversized =>
      simp only [framed, List.length_append, writeFixed32_length] at short
      omega
  | @large len rest high =>
    generalize whole : writeFixed32 len ++ rest = bytes at second
    cases second with
    | clean | truncated _ short =>
      have lengths := congrArg List.length whole
      simp only [List.length_append, writeFixed32_length, List.length_nil] at lengths
      omega
    | large => rfl
    | cut fits =>
      obtain ⟨rfl, _⟩ := writeFixed32_append whole
      omega
    | unanswered fits | oversized fits =>
      rw [framed, List.append_assoc] at whole
      obtain ⟨rfl, _⟩ := writeFixed32_append whole
      rw [toNat_ofNat_length fits] at high
      omega
  | @cut len rest fits short =>
    generalize whole : writeFixed32 len ++ rest = bytes at second
    cases second with
    | clean | truncated _ few =>
      have lengths := congrArg List.length whole
      simp only [List.length_append, writeFixed32_length, List.length_nil] at lengths
      omega
    | large high =>
      obtain ⟨rfl, _⟩ := writeFixed32_append whole
      omega
    | cut => rfl
    | unanswered fits' | oversized fits' =>
      rw [framed, List.append_assoc] at whole
      obtain ⟨rfl, rfl⟩ := writeFixed32_append whole
      rw [toNat_ofNat_length fits', List.length_append] at short
      omega
  | unanswered fits fails =>
    rcases second.of_framed fits with ⟨_, rfl⟩ | ⟨out, answered, _⟩
    · rfl
    · exact absurd answered (fails out)
  | oversized fits answered high =>
    rcases second.of_framed fits with ⟨fails, _⟩ | ⟨_, _, _, rfl⟩
    · exact absurd answered (fails _)
    · rfl

/-- The answered frames, and what follows them, are determined by the bytes. -/
theorem Answered.unique {bytes log log' rest rest' : List UInt8} {outcome outcome' : Outcome IoError Unit}
    (first : Answered answer bytes log rest) (ends : Ends answer rest outcome)
    (second : Answered answer bytes log' rest') (ends' : Ends answer rest' outcome') :
    log = log' ∧ outcome = outcome' := by
  induction first generalizing log' with
  | nil =>
    cases second with
    | nil => exact ⟨rfl, ends.unique ends'⟩
    | cons fits answered small _ =>
      rcases ends.of_framed fits with ⟨fails, _⟩ | ⟨_, same, high, _⟩
      · exact absurd answered (fails _)
      · obtain rfl := Outcome.ok.inj (answered.symm.trans same)
        omega
  | @cons data out bytes log rest fits answered small later ih =>
    generalize whole : framed data ++ bytes = held at second
    cases second with
    | nil =>
      subst whole
      rcases ends'.of_framed fits with ⟨fails, _⟩ | ⟨_, same, high, _⟩
      · exact absurd answered (fails _)
      · obtain rfl := Outcome.ok.inj (answered.symm.trans same)
        omega
    | cons fits' answered' _ later' =>
      obtain ⟨rfl, rfl⟩ := framed_append fits fits' whole
      obtain rfl := Outcome.ok.inj (answered.symm.trans answered')
      obtain ⟨rfl, same⟩ := ih ends later'
      exact ⟨rfl, same⟩

/-- The pieces in which the input arrives make no difference to a run. -/
theorem answerFrames_pieces {reader reader' : ByteSource} (same : reader.bytes = reader'.bytes)
    {fuel : Nat} (enough : reader.bytes.length < fuel) :
    answerFrames answer fuel reader = answerFrames answer fuel reader' := by
  obtain ⟨rest, before, ends⟩ := answerFrames_spec answer fuel reader enough
  obtain ⟨rest', before', ends'⟩ := answerFrames_spec answer fuel reader' (by rwa [← same])
  rw [← same] at before'
  obtain ⟨logs, outcomes⟩ := before.unique ends before' ends'
  generalize answerFrames answer fuel reader = run at *
  generalize answerFrames answer fuel reader' = run' at *
  cases run
  cases run'
  exact congrArg₂ Logged.mk outcomes logs

end Answering

end TptProto.Conformance
