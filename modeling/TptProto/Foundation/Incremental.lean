/-! Readers that take items off the front of a buffer which is filled chunk by
chunk. What such a reader yields does not depend on where the chunks end. -/

namespace TptProto.Foundation

universe u v w

variable {β : Type u} {ε : Type v} {α : Type w}

/-- How one item is taken off the front of a buffer: `none` asks for more input.
What has once been taken is taken whatever arrives behind it. -/
structure Framing (β : Type u) (ε : Type v) (α : Type w) where
  take : List β → Option (Except ε α × List β)
  stable : ∀ {buf item rest}, take buf = some (item, rest) → ∀ more,
    take (buf ++ more) = some (item, rest ++ more)
  shorter : ∀ {buf value rest}, take buf = some (.ok value, rest) → rest.length < buf.length

/-- A buffer with the chunks that are still to arrive. -/
structure Source (β : Type u) where
  buf : List β
  eof : Bool
  chunks : List (List β)

namespace Source

/-- All bytes that the source has not given out yet. -/
def remaining (source : Source β) : List β := source.buf ++ source.chunks.flatten

def ofChunks (chunks : List (List β)) : Source β := ⟨[], false, chunks⟩

@[simp] theorem remaining_ofChunks (chunks : List (List β)) :
    (ofChunks chunks).remaining = chunks.flatten := rfl

end Source

namespace Framing

variable (framing : Framing β ε α) (finish : List β → Option ε)

/-- One poll: take an item, else append the next chunk and look again. When no
chunk is left the same buffer is judged by `finish`. -/
def poll (eof : Bool) : List (List β) → List β → Option (Except ε α) × Source β
  | chunks, buf =>
    match framing.take buf with
    | some (item, rest) => (some item, ⟨rest, eof, chunks⟩)
    | none =>
      match chunks with
      | chunk :: more => poll eof more (buf ++ chunk)
      | [] => ((finish buf).map .error, ⟨buf, true, []⟩)

private theorem poll_spec (eof : Bool) (chunks : List (List β)) (buf : List β) :
    match framing.take (buf ++ chunks.flatten) with
    | some (item, rest) => ∃ source, framing.poll finish eof chunks buf = (some item, source) ∧
        source.remaining = rest
    | none => (framing.poll finish eof chunks buf).1 =
        (finish (buf ++ chunks.flatten)).map .error := by
  induction chunks generalizing buf with
  | nil =>
    rw [List.flatten_nil, List.append_nil, poll]
    cases taken : framing.take buf with
    | none => rfl
    | some found => exact ⟨_, rfl, List.append_nil _⟩
  | cons chunk chunks inductionHypothesis =>
    rw [poll]
    cases taken : framing.take buf with
    | none =>
      simp only
      rw [List.flatten_cons, ← List.append_assoc]
      exact inductionHypothesis (buf ++ chunk)
    | some found =>
      obtain ⟨item, rest⟩ := found
      rw [framing.stable taken]
      exact ⟨_, rfl, rfl⟩

/-- One poll of a source. -/
def pollNext (source : Source β) : Option (Except ε α) × Source β :=
  framing.poll finish source.eof source.chunks source.buf

/-- A poll sees the remaining bytes as one string. -/
theorem pollNext_spec (source : Source β) :
    match framing.take source.remaining with
    | some (item, rest) => ∃ source', framing.pollNext finish source = (some item, source') ∧
        source'.remaining = rest
    | none => (framing.pollNext finish source).1 = (finish source.remaining).map .error :=
  framing.poll_spec finish source.eof source.chunks source.buf

/-- A value is polled only when it can be taken off the remaining bytes. -/
theorem taken_of_pollNext {source source' : Source β} {value : α}
    (polled : framing.pollNext finish source = (some (.ok value), source')) :
    framing.take source.remaining = some (.ok value, source'.remaining) := by
  have spec := framing.pollNext_spec finish source
  cases taken : framing.take source.remaining with
  | none =>
    rw [taken, polled] at spec
    cases judged : finish source.remaining with
    | none => simp [judged] at spec
    | some error => simp [judged] at spec
  | some found =>
    obtain ⟨item, rest⟩ := found
    rw [taken] at spec
    obtain ⟨source'', same, left⟩ := spec
    rw [polled] at same
    cases same
    rw [← left]

/-- Poll until the first error or the end. -/
def drain (source : Source β) : List α × Option ε :=
  match _polled : framing.pollNext finish source with
  | (some (.ok value), source') =>
    let later := drain source'
    (value :: later.1, later.2)
  | (some (.error error), _) => ([], some error)
  | (none, _) => ([], none)
termination_by source.remaining.length
decreasing_by exact framing.shorter (framing.taken_of_pollNext finish _polled)

/-- The items of a whole string. -/
def parse (bytes : List β) : List α × Option ε :=
  match _taken : framing.take bytes with
  | some (.ok value, rest) =>
    let later := parse rest
    (value :: later.1, later.2)
  | some (.error error, _) => ([], some error)
  | none => ([], finish bytes)
termination_by bytes.length
decreasing_by exact framing.shorter _taken

theorem parse_ok {bytes rest : List β} {value : α}
    (taken : framing.take bytes = some (.ok value, rest)) :
    framing.parse finish bytes =
      (value :: (framing.parse finish rest).1, (framing.parse finish rest).2) := by
  rw [parse]
  split <;> simp_all

theorem parse_error {bytes rest : List β} {error : ε}
    (taken : framing.take bytes = some (.error error, rest)) :
    framing.parse finish bytes = ([], some error) := by
  rw [parse]
  split <;> simp_all

theorem parse_none {bytes : List β} (taken : framing.take bytes = none) :
    framing.parse finish bytes = ([], finish bytes) := by
  rw [parse]
  split <;> simp_all

/-- Judging the end differently changes the last error only. -/
theorem parse_finish (finish' : List β → Option ε) (bytes : List β) :
    (framing.parse finish' bytes).1 = (framing.parse finish bytes).1 ∧
      ((∃ error, (framing.parse finish bytes).2 = some error ∧
          (framing.parse finish' bytes).2 = some error) ∨
        ∃ left, (framing.parse finish bytes).2 = finish left ∧
          (framing.parse finish' bytes).2 = finish' left) := by
  induction length : bytes.length using Nat.strongRecOn generalizing bytes with
  | ind length' inductionHypothesis =>
    cases taken : framing.take bytes with
    | none =>
      rw [framing.parse_none finish taken, framing.parse_none finish' taken]
      exact ⟨rfl, .inr ⟨bytes, rfl, rfl⟩⟩
    | some found =>
      obtain ⟨item, rest⟩ := found
      cases item with
      | error error =>
        rw [framing.parse_error finish taken, framing.parse_error finish' taken]
        exact ⟨rfl, .inl ⟨error, rfl, rfl⟩⟩
      | ok value =>
        rw [framing.parse_ok finish taken, framing.parse_ok finish' taken]
        have fewer : rest.length < length' := by
          rw [← length]
          exact framing.shorter taken
        obtain ⟨values, endings⟩ := inductionHypothesis rest.length fewer rest rfl
        exact ⟨congrArg (value :: ·) values, endings⟩

theorem drain_ok {source source' : Source β} {value : α}
    (polled : framing.pollNext finish source = (some (.ok value), source')) :
    framing.drain finish source =
      (value :: (framing.drain finish source').1, (framing.drain finish source').2) := by
  rw [drain]
  split <;> simp_all

theorem drain_error {source : Source β} {error : ε}
    (polled : (framing.pollNext finish source).1 = some (.error error)) :
    framing.drain finish source = ([], some error) := by
  rw [drain]
  split <;> simp_all

theorem drain_none {source : Source β}
    (polled : (framing.pollNext finish source).1 = none) :
    framing.drain finish source = ([], none) := by
  rw [drain]
  split <;> simp_all

/-- Chunk boundaries do not show: a drained source gives the items of its bytes. -/
theorem drain_eq_parse (source : Source β) :
    framing.drain finish source = framing.parse finish source.remaining := by
  induction length : source.remaining.length using Nat.strongRecOn generalizing source with
  | ind size inductionHypothesis =>
    have spec := framing.pollNext_spec finish source
    cases taken : framing.take source.remaining with
    | none =>
      rw [taken] at spec
      rw [framing.parse_none finish taken]
      cases judged : finish source.remaining with
      | none => exact framing.drain_none finish (by rw [spec, judged]; rfl)
      | some error => exact framing.drain_error finish (by rw [spec, judged]; rfl)
    | some found =>
      obtain ⟨item, rest⟩ := found
      rw [taken] at spec
      obtain ⟨source', polled, left⟩ := spec
      cases item with
      | error error =>
        rw [framing.parse_error finish taken]
        exact framing.drain_error finish (by rw [polled])
      | ok value =>
        rw [framing.parse_ok finish taken, framing.drain_ok finish polled, ← left]
        have fewer : source'.remaining.length < size := by
          rw [left, ← length]
          exact framing.shorter taken
        rw [inductionHypothesis source'.remaining.length fewer source' rfl]

end Framing

end TptProto.Foundation
