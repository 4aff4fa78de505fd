import TptProto.Foundation.Outcome

/-! A source that hands out its bytes piece by piece, where one read gives at most one piece. -/

namespace TptProto.Foundation

/-- Bytes that arrive together. -/
structure BytePiece where
  bytes : List UInt8
  nonempty : bytes ≠ []

/-- The pieces that have not been read. -/
structure ByteSource where
  pieces : List BytePiece

namespace ByteSource

/-- All that is left to read. -/
def bytes (source : ByteSource) : List UInt8 := source.pieces.flatMap BytePiece.bytes

/-- A read into a buffer with some room: a piece or the front of one, and nothing at the end. -/
def read (source : ByteSource) (room : Nat) : List UInt8 × ByteSource :=
  match source.pieces with
  | [] => ([], source)
  | piece :: rest =>
    if short : room < piece.bytes.length then
      (piece.bytes.take room,
        ⟨⟨piece.bytes.drop room, List.ne_nil_of_length_pos (by rw [List.length_drop]; omega)⟩ :: rest⟩)
    else (piece.bytes, ⟨rest⟩)

/-- Reads until a buffer is full; `none` if the source ends before. -/
def readExact (source : ByteSource) : Nat → Nat → List UInt8 → Option (List UInt8 × ByteSource)
  | _, 0, got => some (got, source)
  | 0, _ + 1, _ => none
  | fuel + 1, room + 1, got =>
    let more := source.read (room + 1)
    if more.1.isEmpty then none
    else more.2.readExact fuel (room + 1 - more.1.length) (got ++ more.1)

/-- A read takes some bytes off the front, at least one if there are any and there is room. -/
theorem read_spec (source : ByteSource) (room : Nat) :
    ∃ count ≤ room, count ≤ source.bytes.length ∧ (source.read room).1 = source.bytes.take count ∧
      (source.read room).2.bytes = source.bytes.drop count ∧
      (0 < room → source.bytes ≠ [] → 0 < count) := by
  obtain ⟨pieces⟩ := source
  cases pieces with
  | nil => exact ⟨0, Nat.zero_le _, Nat.zero_le _, rfl, rfl, fun _ filled => absurd rfl filled⟩
  | cons piece rest =>
    have filled := List.length_pos_iff.mpr piece.nonempty
    simp only [read, bytes, List.flatMap_cons, List.length_append]
    by_cases short : room < piece.bytes.length
    · refine ⟨room, Nat.le_refl _, by omega, ?_, ?_, fun positive _ => positive⟩
      · rw [dif_pos short, List.take_append_of_le_length (by omega)]
      · rw [dif_pos short, List.flatMap_cons, List.drop_append_of_le_length (by omega)]
    · refine ⟨piece.bytes.length, by omega, by omega, ?_, ?_, fun _ _ => filled⟩
      · rw [dif_neg short, List.take_left]
      · rw [dif_neg short, List.drop_left]

/-- A read gives nothing only at the end. -/
theorem read_eq_nil {source : ByteSource} {room : Nat} (positive : 0 < room)
    (nothing : (source.read room).1 = []) : source.bytes = [] := by
  obtain ⟨count, _, inside, front, _, some⟩ := read_spec source room
  by_cases filled : source.bytes = []
  · exact filled
  · have := some positive filled
    rw [nothing, eq_comm, List.take_eq_nil_iff] at front
    rcases front with none | empty
    · omega
    · exact empty

/-- Reading until a buffer is full takes the front of the source, however it arrives. -/
theorem readExact_of_le {fuel room : Nat} (enough : room ≤ fuel) {source : ByteSource}
    (long : room ≤ source.bytes.length) (got : List UInt8) :
    ∃ after : ByteSource, source.readExact fuel room got = some (got ++ source.bytes.take room, after) ∧
      after.bytes = source.bytes.drop room := by
  induction fuel generalizing room source got with
  | zero =>
    obtain rfl : room = 0 := by omega
    exact ⟨source, by simp [readExact], by simp⟩
  | succ fuel ih =>
    cases room with
    | zero => exact ⟨source, by simp [readExact], by simp⟩
    | succ room =>
      obtain ⟨count, small, inside, front, left, some⟩ := read_spec source (room + 1)
      have positive : 0 < count := some (Nat.succ_pos _) (List.ne_nil_of_length_pos (by omega))
      have filled : (source.read (room + 1)).1.isEmpty = false := by
        rw [front, List.isEmpty_eq_false_iff]
        exact List.ne_nil_of_length_pos (by rw [List.length_take]; omega)
      have width : (source.read (room + 1)).1.length = count := by
        rw [front, List.length_take]
        omega
      have later : room + 1 - count ≤ (source.read (room + 1)).2.bytes.length := by
        rw [left, List.length_drop]
        omega
      obtain ⟨after, rest, remaining⟩ := ih (by omega) later (got ++ (source.read (room + 1)).1)
      refine ⟨after, ?_, ?_⟩
      · rw [readExact, filled, if_neg Bool.false_ne_true, width, rest, front, left]
        congr 2
        rw [List.append_assoc, ← List.take_add, Nat.add_sub_cancel' small]
      · rw [remaining, left, List.drop_drop, Nat.add_sub_cancel' small]

/-- A source that ends before the buffer is full does not fill it. -/
theorem readExact_of_lt {fuel room : Nat} {source : ByteSource} (short : source.bytes.length < room)
    (got : List UInt8) : source.readExact fuel room got = none := by
  induction fuel generalizing room source got with
  | zero =>
    cases room with
    | zero => omega
    | succ room => rfl
  | succ fuel ih =>
    cases room with
    | zero => omega
    | succ room =>
      obtain ⟨count, _, inside, front, left, _⟩ := read_spec source (room + 1)
      rw [readExact]
      split
      · rfl
      · apply ih
        rw [left, front, List.length_drop, List.length_take]
        omega

end ByteSource

end TptProto.Foundation
