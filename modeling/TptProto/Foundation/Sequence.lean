/-! Words split into chunks. A chunk relation says which words carry which value; a
sequence of values is carried by the concatenation of their chunks. -/

namespace TptProto.Foundation

universe u v

variable {α : Type u} {β : Type v}

inductive Sequence (Chunk : β → List α → Prop) : List β → List α → Prop where
  | nil : Sequence Chunk [] []
  | cons {value : β} {word rest : List α} {values : List β} (head : Chunk value word)
      (tail : Sequence Chunk values rest) : Sequence Chunk (value :: values) (word ++ rest)

/-- A chunk is never empty and ends where its own content says. -/
structure Delimited (Chunk : β → List α → Prop) : Prop where
  nonempty : ∀ {value word}, Chunk value word → 0 < word.length
  unique : ∀ {value value' word word' rest rest'}, Chunk value word → Chunk value' word' →
    word ++ rest = word' ++ rest' → value = value' ∧ word = word' ∧ rest = rest'

variable {Chunk : β → List α → Prop} {value : β} {values values' : List β} {word word' : List α}

theorem sequence_cons_iff :
    Sequence Chunk (value :: values) word ↔
      ∃ head tail, word = head ++ tail ∧ Chunk value head ∧ Sequence Chunk values tail := by
  constructor
  · intro whole
    cases whole with
    | cons head tail => exact ⟨_, _, rfl, head, tail⟩
  · rintro ⟨_, _, rfl, head, tail⟩
    exact .cons head tail

theorem sequence_nil_iff : Sequence Chunk [] word ↔ word = [] := by
  constructor
  · intro whole
    cases whole
    rfl
  · rintro rfl
    exact .nil

theorem Sequence.single (chunk : Chunk value word) : Sequence Chunk [value] word :=
  sequence_cons_iff.mpr ⟨word, [], by simp, chunk, .nil⟩

theorem Sequence.append (first : Sequence Chunk values word)
    (second : Sequence Chunk values' word') :
    Sequence Chunk (values ++ values') (word ++ word') := by
  induction first with
  | nil => exact second
  | cons head _ ih =>
    rw [List.append_assoc]
    exact .cons head ih

theorem Sequence.split (whole : Sequence Chunk (values ++ values') word) :
    ∃ first second, word = first ++ second ∧ Sequence Chunk values first ∧
      Sequence Chunk values' second := by
  induction values generalizing word with
  | nil => exact ⟨[], word, rfl, .nil, whole⟩
  | cons value rest ih =>
    obtain ⟨head, tail, rfl, here, there⟩ := sequence_cons_iff.mp whole
    obtain ⟨first, second, rfl, left, right⟩ := ih there
    exact ⟨head ++ first, second, by rw [List.append_assoc], .cons here left, right⟩

/-- A word splits into delimited chunks in at most one way. -/
theorem Sequence.unique (delimited : Delimited Chunk) (first : Sequence Chunk values word)
    (second : Sequence Chunk values' word) : values = values' := by
  induction values generalizing values' word with
  | nil =>
    rw [sequence_nil_iff] at first
    subst first
    cases values' with
    | nil => rfl
    | cons _ _ =>
      obtain ⟨_, _, split, head, _⟩ := sequence_cons_iff.mp second
      have := delimited.nonempty head
      simp [(List.nil_eq_append_iff.mp split).1] at this
  | cons _ _ ih =>
    obtain ⟨_, _, rfl, head, tail⟩ := sequence_cons_iff.mp first
    cases values' with
    | nil =>
      have := delimited.nonempty head
      simp [(List.append_eq_nil_iff.mp (sequence_nil_iff.mp second)).1] at this
    | cons _ _ =>
      obtain ⟨_, _, split, head', tail'⟩ := sequence_cons_iff.mp second
      obtain ⟨rfl, rfl, rfl⟩ := delimited.unique head head' split
      rw [ih tail tail']

/-- A property of all chunks of a sequence's values. -/
theorem Sequence.forall {Holds : β → Prop} (whole : Sequence Chunk values word)
    (each : ∀ value word, Chunk value word → Holds value) : ∀ value ∈ values, Holds value := by
  induction whole with
  | nil => simp
  | cons head _ ih => simpa using ⟨each _ _ head, ih⟩

theorem Sequence.length_eq {width : Nat} (whole : Sequence Chunk values word)
    (each : ∀ value word, Chunk value word → word.length = width) :
    word.length = values.length * width := by
  induction whole with
  | nil => simp
  | cons head _ ih =>
    rw [List.length_append, List.length_cons, each _ _ head, ih, Nat.succ_mul, Nat.add_comm]

end TptProto.Foundation
