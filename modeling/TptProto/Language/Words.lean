import TptProto.Core.Utf8
import TptProto.Language.Lexer
import Mathlib.Data.List.TakeDrop

/-! Where a token ends, and that it does not depend on what stands further behind. -/

namespace TptProto.Language

open TptProto.Foundation TptProto.Core

@[simp] theorem Position.after_nil (p : Position) : p.after [] = p := rfl

@[simp] theorem Position.after_cons (p : Position) (b : UInt8) (word : List UInt8) :
    p.after (b :: word) = (p.bump b).after word := rfl

theorem Position.after_append (p : Position) (first second : List UInt8) :
    p.after (first ++ second) = (p.after first).after second :=
  List.foldl_append

/-- The number of line ends in a text. -/
def lineEnds (bytes : List UInt8) : Nat := bytes.count (ascii '\n')

theorem Position.line_after (p : Position) (word : List UInt8) :
    (p.after word).line = p.line + lineEnds word := by
  induction word generalizing p with
  | nil => rfl
  | cons b rest ih =>
    rw [after_cons, ih, lineEnds, lineEnds, List.count_cons]
    unfold Position.bump
    by_cases same : b = ascii '\n'
    · rw [if_pos same, if_pos (by simp [same])]
      show p.line + 1 + _ = _
      omega
    · rw [if_neg same, if_neg (by simpa using same)]
      rfl

theorem Position.offset_after (p : Position) (word : List UInt8) :
    (p.after word).offset = p.offset + word.length := by
  induction word generalizing p with
  | nil => rfl
  | cons b rest ih =>
    rw [after_cons, ih, List.length_cons]
    unfold Position.bump
    split
    · show p.offset + 1 + _ = _
      omega
    · show p.offset + 1 + _ = _
      omega

section Spans

variable {keep : UInt8 → Bool} {word behind other : List UInt8}

/-- A span ends where the first byte behind it is not kept. -/
theorem span_eq_iff : (word ++ behind).span keep = (word, behind) ↔
    (∀ b ∈ word, keep b = true) ∧ ∀ b ∈ behind.head?, keep b = false := by
  rw [List.span_eq_takeWhile_dropWhile]
  constructor
  · intro same
    obtain ⟨taken, dropped⟩ := Prod.mk.inj same
    refine ⟨fun b member => ?_, fun b first => ?_⟩
    · rw [← taken] at member
      exact List.mem_takeWhile_imp member
    · rw [← dropped] at first
      have stops := List.head?_dropWhile_not keep (word ++ behind)
      rw [first] at stops
      simpa using stops
  · rintro ⟨kept, stops⟩
    have stop : behind.takeWhile keep = [] ∧ behind.dropWhile keep = behind := by
      cases behind with
      | nil => exact ⟨rfl, rfl⟩
      | cons b rest =>
        have no : ¬ keep b = true := by simp [stops b rfl]
        exact ⟨List.takeWhile_cons_of_neg no, List.dropWhile_cons_of_neg no⟩
    rw [List.takeWhile_append_of_pos kept, List.dropWhile_append_of_pos kept, stop.1, stop.2,
      List.append_nil]

theorem span_split {bytes : List UInt8} (same : bytes.span keep = (word, behind)) :
    bytes = word ++ behind := by
  rw [List.span_eq_takeWhile_dropWhile] at same
  obtain ⟨rfl, rfl⟩ := Prod.mk.inj same
  exact List.takeWhile_append_dropWhile.symm

end Spans

section Numbers

variable {sawDot sawExp sign float : Bool} {bytes word behind other : List UInt8}

/-- What may stand behind a numeral: nothing that it could go on with. A point may follow one that
takes no point any more. -/
def NumberEnds (pointed : Bool) (behind : List UInt8) : Prop :=
  ∀ b ∈ behind.head?, isWordPart b = false ∧ b ≠ ascii '+' ∧ b ≠ ascii '-' ∧
    (b = ascii '.' → pointed = true)

private theorem not_digit {b : UInt8} (plain : isWordPart b = false) :
    isAsciiDigit b = false ∧ b ≠ ascii '_' ∧ isAsciiAlphabetic b = false := by
  simp only [isWordPart, Bool.or_eq_false_iff, decide_eq_false_iff_not] at plain
  exact ⟨plain.1.2, plain.2, plain.1.1⟩

theorem numberWord_stops (ends : NumberEnds (sawDot || sawExp) behind) :
    numberWord sawDot sawExp sign behind = (sawDot || sawExp, [], behind) := by
  cases behind with
  | nil => rfl
  | cons b rest =>
    obtain ⟨plain, plus, minus, point⟩ := ends b rfl
    obtain ⟨digit, underscore, alphabetic⟩ := not_digit plain
    have letter : b ≠ ascii 'e' ∧ b ≠ ascii 'E' := by
      constructor
      · rintro rfl
        exact absurd alphabetic (by decide)
      · rintro rfl
        exact absurd alphabetic (by decide)
    unfold numberWord
    rw [if_neg (by simp [plus, minus]), if_neg (by simp [digit, underscore]), if_neg ?_,
      if_neg (by simp [letter.1, letter.2])]
    intro taken
    simp only [Bool.and_eq_true, decide_eq_true_eq, Bool.not_eq_true'] at taken
    obtain ⟨⟨rfl, noDot⟩, noExp⟩ := taken
    simp [noDot, noExp] at point

/-- A numeral with one byte more in front. -/
def putFirst (b : UInt8) (numeral : Bool × List UInt8 × List UInt8) : Bool × List UInt8 × List UInt8 :=
  (numeral.1, b :: numeral.2.1, numeral.2.2)

/-- A numeral is the same with something else behind it. -/
theorem numberWord_local
    (read : numberWord sawDot sawExp sign bytes = (float, word, behind)) :
    bytes = word ++ behind ∧ ∀ other, NumberEnds float other →
      numberWord sawDot sawExp sign (word ++ other) = (float, word, other) := by
  induction bytes generalizing sawDot sawExp sign word with
  | nil =>
    cases read
    refine ⟨rfl, fun other ends => ?_⟩
    rw [List.nil_append]
    exact numberWord_stops ends
  | cons b rest ih =>
    unfold numberWord at read
    have goesOn {sawDot' sawExp' sign' : Bool}
        (read : putFirst b (numberWord sawDot' sawExp' sign' rest) = (float, word, behind))
        (again : ∀ tail, numberWord sawDot sawExp sign (b :: tail) =
          putFirst b (numberWord sawDot' sawExp' sign' tail)) :
        b :: rest = word ++ behind ∧ ∀ other, NumberEnds float other →
          numberWord sawDot sawExp sign (word ++ other) = (float, word, other) := by
      cases inner : numberWord sawDot' sawExp' sign' rest with
      | mk float' parts =>
        rw [inner] at read
        cases read
        obtain ⟨split, stops⟩ := ih inner
        refine ⟨by rw [split]; rfl, fun other ends => ?_⟩
        rw [List.cons_append, again, stops other ends]
        rfl
    split at read
    · rename_i signed
      exact goesOn read fun tail => by rw [numberWord, if_pos signed]; rfl
    rename_i unsigned
    split at read
    · rename_i digit
      exact goesOn read fun tail => by
        rw [numberWord, if_neg unsigned, if_pos digit]
        rfl
    rename_i nonDigit
    split at read
    · rename_i point
      exact goesOn read fun tail => by
        rw [numberWord, if_neg unsigned, if_neg nonDigit, if_pos point]
        rfl
    rename_i noPoint
    split at read
    · rename_i exponent
      exact goesOn read fun tail => by
        rw [numberWord, if_neg unsigned, if_neg nonDigit, if_neg noPoint, if_pos exponent]
        rfl
    · cases read
      exact ⟨rfl, fun other ends => numberWord_stops ends⟩

private theorem digit_ascii {b : UInt8} (digit : isAsciiDigit b = true) : b < 128 := by
  simp only [isAsciiDigit, Bool.and_eq_true, decide_eq_true_eq] at digit
  exact UInt8.lt_of_le_of_lt digit.2 (by decide)

theorem numberWord_ascii (read : numberWord sawDot sawExp sign bytes = (float, word, behind)) :
    ∀ b ∈ word, b < 128 := by
  induction bytes generalizing sawDot sawExp sign word with
  | nil =>
    cases read
    exact fun _ member => by cases member
  | cons b rest ih =>
    unfold numberWord at read
    have goesOn {sawDot' sawExp' sign' : Bool}
        (read : putFirst b (numberWord sawDot' sawExp' sign' rest) = (float, word, behind))
        (small : b < 128) :
        ∀ b ∈ word, b < 128 := by
      cases inner : numberWord sawDot' sawExp' sign' rest with
      | mk float' parts =>
        rw [inner] at read
        cases read
        intro c member
        rcases List.mem_cons.mp member with rfl | member
        · exact small
        · exact ih inner c member
    split at read
    · rename_i signed
      simp only [Bool.and_eq_true, Bool.or_eq_true, decide_eq_true_eq] at signed
      rcases signed.2 with rfl | rfl
      · exact goesOn read (by decide)
      · exact goesOn read (by decide)
    split at read
    · rename_i digit
      simp only [Bool.or_eq_true, decide_eq_true_eq] at digit
      rcases digit with digit | rfl
      · exact goesOn read (digit_ascii digit)
      · exact goesOn read (by decide)
    split at read
    · rename_i point
      simp only [Bool.and_eq_true, decide_eq_true_eq] at point
      obtain ⟨⟨rfl, _⟩, _⟩ := point
      exact goesOn read (by decide)
    split at read
    · rename_i exponent
      simp only [Bool.and_eq_true, Bool.or_eq_true, decide_eq_true_eq] at exponent
      rcases exponent.1 with rfl | rfl
      · exact goesOn read (by decide)
      · exact goesOn read (by decide)
    · cases read
      exact fun _ member => by cases member

/-- A numeral of this kind takes no point any more. -/
def pointed (kind : TokenKind) (word : List UInt8) : Bool :=
  match kind with
  | .float _ => true
  | _ => (hexWord? word).isSome

theorem hexDigit_wordPart {b : UInt8} (plain : isWordPart b = false) :
    (isAsciiHexDigit b || decide (b = ascii '_')) = false := by
  obtain ⟨digit, underscore, alphabetic⟩ := not_digit plain
  simp only [isAsciiAlphabetic, Bool.or_eq_false_iff, Bool.and_eq_false_iff,
    decide_eq_false_iff_not] at alphabetic
  simp only [isAsciiHexDigit, digit, underscore, Bool.or_eq_false_iff, Bool.and_eq_false_iff,
    decide_eq_false_iff_not, Bool.false_or, decide_false, Bool.or_false]
  obtain ⟨upper, lower⟩ := alphabetic
  refine ⟨upper.imp_right fun high low => high ?_, lower.imp_right fun high low => high ?_⟩
  · exact UInt8.le_trans low (by decide)
  · exact UInt8.le_trans low (by decide)

theorem hexWord_local (read : hexWord? bytes = some (word, behind)) :
    bytes = word ++ behind ∧ ∀ other, (∀ b ∈ other.head?, isWordPart b = false) →
      hexWord? (word ++ other) = some (word, other) := by
  unfold hexWord? at read
  split at read
  · rename_i b c rest
    split at read
    · rename_i hex
      cases spanned : rest.span fun b => isAsciiHexDigit b || decide (b = ascii '_') with
      | mk digits tail =>
        rw [spanned] at read
        cases read
        have split := span_split spanned
        refine ⟨by rw [split]; rfl, fun other ends => ?_⟩
        rw [split] at spanned
        have again : (digits ++ other).span
            (fun b => isAsciiHexDigit b || decide (b = ascii '_')) = (digits, other) :=
          span_eq_iff.mpr ⟨(span_eq_iff.mp spanned).1, fun b first =>
            hexDigit_wordPart (ends b first)⟩
        unfold hexWord?
        rw [List.cons_append, List.cons_append]
        simp only
        rw [if_pos hex, again]
    · cases read
  · cases read

theorem hexWord_ascii (read : hexWord? bytes = some (word, behind)) : ∀ b ∈ word, b < 128 := by
  unfold hexWord? at read
  split at read
  · rename_i b c rest
    split at read
    · rename_i hex
      cases spanned : rest.span fun b => isAsciiHexDigit b || decide (b = ascii '_') with
      | mk digits tail =>
        rw [spanned] at read
        cases read
        rw [span_split spanned] at spanned
        have kept := (span_eq_iff.mp spanned).1
        intro d member
        rcases List.mem_cons.mp member with rfl | member
        · rw [hex.1]
          decide
        rcases List.mem_cons.mp member with rfl | member
        · rcases hex.2 with rfl | rfl
          · decide
          · decide
        have part := kept d member
        simp only [isAsciiHexDigit, Bool.or_eq_true, Bool.and_eq_true, decide_eq_true_eq] at part
        rcases part with ((digit | upper) | lower) | rfl
        · exact digit_ascii digit
        · exact UInt8.lt_of_le_of_lt upper.2 (by decide)
        · exact UInt8.lt_of_le_of_lt lower.2 (by decide)
        · decide
    · cases read
  · cases read

private theorem hexWord_none {b : UInt8} (read : hexWord? (b :: word ++ behind) = none)
    (ends : ∀ b ∈ other.head?, isWordPart b = false) : hexWord? (b :: word ++ other) = none := by
  cases word with
  | nil =>
    cases other with
    | nil => rfl
    | cons c rest =>
      have plain := ends c rfl
      unfold hexWord?
      simp only [List.cons_append, List.nil_append]
      refine if_neg ?_
      rintro ⟨_, rfl | rfl⟩
      · exact absurd plain (by decide)
      · exact absurd plain (by decide)
  | cons c rest =>
    unfold hexWord? at read ⊢
    simp only [List.cons_append] at read ⊢
    split at read
    · cases read
    · rename_i plain
      exact if_neg plain

private theorem numberKind_eq_ok {parseFloat : String → Option UInt64} {start : Position}
    {hex : Bool} {kind : TokenKind} (read : numberKind parseFloat start hex float word = .ok kind)
    (pos : Position) :
    numberKind parseFloat pos hex float word = .ok kind ∧
      ((∃ value, kind = .int value) ∧ float = false ∨ (∃ bits, kind = .float bits) ∧ hex = false ∧
        float = true ∨ (∃ value, kind = .int value) ∧ hex = true) := by
  unfold numberKind at read ⊢
  cases hex with
  | true =>
    simp only [if_true] at read ⊢
    split at read
    · cases read
      exact ⟨rfl, .inr (.inr ⟨⟨_, rfl⟩, trivial⟩)⟩
    · cases read
  | false =>
    cases float with
    | true =>
      simp only [Bool.false_eq_true, if_false, if_true] at read ⊢
      split at read
      · cases read
        exact ⟨rfl, .inr (.inl ⟨⟨_, rfl⟩, trivial, trivial⟩)⟩
      · cases read
    | false =>
      simp only [Bool.false_eq_true, if_false] at read ⊢
      split at read
      · cases read
        exact ⟨rfl, .inl ⟨⟨_, rfl⟩, trivial⟩⟩
      · cases read

/-- A kind that is lexed from a numeral. -/
def TokenKind.IsNumber : TokenKind → Prop
  | .int _ | .float _ => True
  | _ => False

theorem lexNumber_hex {parseFloat : String → Option UInt64} {cursor : Cursor}
    {parts : List UInt8 × List UInt8} (hex : hexWord? cursor.rest = some parts) :
    lexNumber parseFloat cursor = (do
      let kind ← numberKind parseFloat cursor.pos true false parts.1
      .ok (kind, cursor.skip parts)) := by
  unfold lexNumber
  rw [hex]

theorem lexNumber_decimal {parseFloat : String → Option UInt64} {cursor : Cursor}
    {parts : List UInt8 × List UInt8} (hex : hexWord? cursor.rest = none)
    (spanned : numberWord false false false cursor.rest = (float, parts)) :
    lexNumber parseFloat cursor = (do
      let kind ← numberKind parseFloat cursor.pos false float parts.1
      .ok (kind, cursor.skip parts)) := by
  unfold lexNumber
  rw [hex, spanned]

/-- A numeral is lexed as the same number, wherever it stands and whatever ends it. -/
theorem lexNumber_local {parseFloat : String → Option UInt64} {cursor after : Cursor}
    {kind : TokenKind} {b : UInt8} {rest : List UInt8} (begins : cursor.rest = b :: rest)
    (digit : isAsciiDigit b = true) (read : lexNumber parseFloat cursor = .ok (kind, after)) :
    ∃ tail, after = cursor.skip (b :: tail, after.rest) ∧ cursor.rest = b :: tail ++ after.rest ∧
      kind.IsNumber ∧ (∀ c ∈ b :: tail, c < 128) ∧
      ∀ pos other, (other = after.rest ∨ NumberEnds (pointed kind (b :: tail)) other) →
        lexNumber parseFloat ⟨pos, b :: tail ++ other⟩ =
          .ok (kind, ⟨pos.after (b :: tail), other⟩) := by
  cases hex : hexWord? cursor.rest with
  | some parts =>
    obtain ⟨word, behind⟩ := parts
    obtain ⟨split, again⟩ := hexWord_local hex
    rw [lexNumber_hex hex] at read
    obtain ⟨kind', valued, same⟩ := Outcome.bind_eq_ok.mp read
    cases same
    cases word with
    | nil =>
      unfold hexWord? at hex
      split at hex
      · split at hex
        · cases hex
        · cases hex
      · cases hex
    | cons c tail =>
      rw [begins] at split
      cases split
      refine ⟨tail, rfl, begins, ?_, hexWord_ascii hex, fun pos other fits => ?_⟩
      · rcases (numberKind_eq_ok valued cursor.pos).2 with
          ⟨⟨_, rfl⟩, _⟩ | ⟨⟨_, rfl⟩, _⟩ | ⟨⟨_, rfl⟩, _⟩
        · trivial
        · trivial
        · trivial
      · have hex' : hexWord? (b :: tail ++ other) = some (b :: tail, other) := by
          rcases fits with rfl | ends
          · rw [begins] at hex
            exact hex
          · exact again other fun b first => (ends b first).1
        rw [lexNumber_hex hex', (numberKind_eq_ok valued pos).1]
        rfl
  | none =>
    cases spanned : numberWord false false false cursor.rest with
    | mk float parts =>
      obtain ⟨word, behind⟩ := parts
      obtain ⟨split, again⟩ := numberWord_local spanned
      rw [lexNumber_decimal hex spanned] at read
      obtain ⟨kind', valued, same⟩ := Outcome.bind_eq_ok.mp read
      cases same
      rw [begins] at split hex spanned
      cases word with
      | nil =>
        unfold numberWord at spanned
        simp [digit] at spanned
      | cons c tail =>
        cases split
        have noHex := fun other ends => @hexWord_none tail behind other b hex ends
        have plain : hexWord? (b :: tail) = none := by
          have short := noHex [] (by simp)
          rwa [List.append_nil] at short
        obtain ⟨_, forms⟩ := numberKind_eq_ok valued cursor.pos
        have marks : pointed kind (b :: tail) = float := by
          rcases forms with ⟨⟨_, rfl⟩, rfl⟩ | ⟨⟨_, rfl⟩, _, rfl⟩ | ⟨_, impossible⟩
          · simp [pointed, plain]
          · rfl
          · cases impossible
        refine ⟨tail, rfl, begins, ?_, numberWord_ascii spanned, fun pos other fits => ?_⟩
        · rcases forms with ⟨⟨_, rfl⟩, _⟩ | ⟨⟨_, rfl⟩, _⟩ | ⟨⟨_, rfl⟩, _⟩
          · trivial
          · trivial
          · trivial
        · have here : hexWord? (b :: tail ++ other) = none ∧
              numberWord false false false (b :: tail ++ other) = (float, b :: tail, other) := by
            rcases fits with rfl | ends
            · exact ⟨hex, spanned⟩
            · rw [marks] at ends
              exact ⟨noHex other fun b first => (ends b first).1, again other ends⟩
          rw [lexNumber_decimal here.1 here.2, (numberKind_eq_ok valued pos).1]
          rfl

end Numbers

section Strings

variable {quote : UInt8} {start : Position} {cursor after : Cursor}

/-- The bytes between two cursors, which the reading between them does not look behind. -/
def Consumes (cursor after : Cursor) (used : List UInt8) : Prop :=
  cursor.rest = used ++ after.rest ∧ after.pos = cursor.pos.after used

theorem Consumes.trans {middle : Cursor} {first second : List UInt8}
    (here : Consumes cursor middle first) (there : Consumes middle after second) :
    Consumes cursor after (first ++ second) := by
  constructor
  · rw [here.1, there.1, List.append_assoc]
  · rw [there.2, here.2, Position.after_append]

private theorem bump_eq_some {b : UInt8} (read : cursor.bump = some (b, after)) :
    Consumes cursor after [b] := by
  unfold Cursor.bump at read
  split at read
  · cases read
  · rename_i same
    cases read
    exact ⟨same, rfl⟩

private theorem readHex_local {n v value : Nat}
    (read : readHex start n v cursor = .ok (value, after)) :
    ∃ used, Consumes cursor after used ∧ ∀ start' pos other,
      readHex start' n v ⟨pos, used ++ other⟩ = .ok (value, ⟨pos.after used, other⟩) := by
  induction n generalizing v cursor with
  | zero =>
    cases read
    exact ⟨[], ⟨rfl, rfl⟩, fun _ _ _ => rfl⟩
  | succ n ih =>
    unfold readHex at read
    split at read
    · cases read
    · rename_i b next bumped
      split at read
      · cases read
      · rename_i d digit
        obtain ⟨used, consumes, again⟩ := ih read
        refine ⟨b :: used, (bump_eq_some bumped).trans consumes, fun start' pos other => ?_⟩
        unfold readHex
        simp only [Cursor.bump, List.cons_append, digit]
        exact again start' _ other

private theorem unescape_local {esc : UInt8} {c : Char}
    (read : unescape start esc cursor = .ok (c, after)) :
    ∃ used, Consumes cursor after used ∧ ∀ start' pos other,
      unescape start' esc ⟨pos, used ++ other⟩ = .ok (c, ⟨pos.after used, other⟩) := by
  unfold unescape at read
  cases short : escape? (byteChar esc) with
  | some c' =>
    rw [short] at read
    cases read
    refine ⟨[], ⟨rfl, rfl⟩, fun start' pos other => ?_⟩
    unfold unescape
    rw [short]
    rfl
  | none =>
    simp only [short] at read
    split at read
    · rename_i isX
      obtain ⟨⟨h, next⟩, hex, same⟩ := Outcome.bind_eq_ok.mp read
      cases same
      obtain ⟨used, consumes, again⟩ := readHex_local hex
      refine ⟨used, consumes, fun start' pos other => ?_⟩
      unfold unescape
      simp only [short, if_pos isX, again, Outcome.ok_bind]
    split at read
    · rename_i notX isU
      obtain ⟨⟨h, next⟩, hex, read⟩ := Outcome.bind_eq_ok.mp read
      obtain ⟨c', valid, same⟩ := Outcome.bind_eq_ok.mp read
      cases same
      obtain ⟨used, consumes, again⟩ := readHex_local hex
      refine ⟨used, consumes, fun start' pos other => ?_⟩
      unfold unescape
      simp only [short, if_neg notX, if_pos isU, again, Outcome.ok_bind,
        Outcome.ofOption_eq_ok.mp valid, Outcome.ofOption_some]
    split at read
    · rename_i notX notU isLong
      obtain ⟨⟨h, next⟩, hex, read⟩ := Outcome.bind_eq_ok.mp read
      obtain ⟨c', valid, same⟩ := Outcome.bind_eq_ok.mp read
      cases same
      obtain ⟨used, consumes, again⟩ := readHex_local hex
      refine ⟨used, consumes, fun start' pos other => ?_⟩
      unfold unescape
      simp only [short, if_neg notX, if_neg notU, if_pos isLong, again, Outcome.ok_bind,
        Outcome.ofOption_eq_ok.mp valid, Outcome.ofOption_some]
    · cases read

theorem strStep_local {s next : StrScan} (read : strStep quote start s = .ok next) :
    ∃ used, used ≠ [] ∧ Consumes s.cursor next.cursor used ∧
      (next.closed = s.closed ∨ next.closed = true ∧ used = [quote]) ∧ ∀ start' pos other,
      strStep quote start' { s with cursor := ⟨pos, used ++ other⟩ } =
        .ok { next with cursor := ⟨pos.after used, other⟩ } := by
  unfold strStep at read
  split at read
  · cases read
  rename_i c rest bumped
  have first := bump_eq_some bumped
  split at read
  · rename_i closes
    cases read
    subst closes
    refine ⟨[c], by simp, first, .inr ⟨rfl, rfl⟩, fun start' pos other => ?_⟩
    simp [strStep, Cursor.bump]
  rename_i inside
  split at read
  · rename_i backslash
    split at read
    · cases read
    rename_i esc behind bumped'
    obtain ⟨⟨char, after⟩, escaped, same⟩ := Outcome.bind_eq_ok.mp read
    cases same
    obtain ⟨used, consumes, again⟩ := unescape_local escaped
    refine ⟨c :: esc :: used, by simp,
      (first.trans (bump_eq_some bumped')).trans consumes, .inl rfl, fun start' pos other => ?_⟩
    unfold strStep
    simp only [Cursor.bump, List.cons_append, if_neg inside, if_pos backslash, again,
      Outcome.ok_bind]
    rfl
  · rename_i plain
    cases read
    refine ⟨[c], by simp, first, .inl rfl, fun start' pos other => ?_⟩
    simp [strStep, Cursor.bump, inside, plain]

private theorem strRun_local {s final : StrScan} {visited : List StrScan}
    (run : Run (fun s => !s.closed) (strStep quote start) s visited final) :
    ∃ word, Consumes s.cursor final.cursor word ∧
      (if s.closed then word = [] else ∃ front, word = front ++ [quote]) ∧
      ∀ start' pos other, ∃ visited',
      Run (fun s => !s.closed) (strStep quote start') { s with cursor := ⟨pos, word ++ other⟩ }
        visited' { final with cursor := ⟨pos.after word, other⟩ } ∧
        visited'.length ≤ word.length := by
  induction run with
  | done finished =>
    refine ⟨[], ⟨rfl, rfl⟩, ?_, fun start' pos other => ⟨[], .done finished, Nat.le_refl _⟩⟩
    rw [if_pos (by simpa using finished)]
  | @step s next _ _ continues moved _ ih =>
    obtain ⟨used, nonempty, first, closing, again⟩ := strStep_local moved
    obtain ⟨word, rest, last, later⟩ := ih
    have isOpen : s.closed = false := by simpa using continues
    refine ⟨used ++ word, first.trans rest, ?_, fun start' pos other => ?_⟩
    · rw [isOpen, if_neg Bool.false_ne_true]
      rcases closing with same | ⟨closed, rfl⟩
      · rw [same, isOpen, if_neg Bool.false_ne_true] at last
        obtain ⟨front, rfl⟩ := last
        exact ⟨used ++ front, by rw [List.append_assoc]⟩
      · rw [if_pos closed] at last
        exact ⟨[], by rw [last]; rfl⟩
    obtain ⟨visited', run, short⟩ := later start' (pos.after used) other
    have moved' := again start' pos (word ++ other)
    rw [← List.append_assoc] at moved'
    rw [← Position.after_append] at run
    refine ⟨_ :: visited', .step continues moved' run, ?_⟩
    have positive := List.length_pos_iff.mpr nonempty
    simp only [List.length_cons, List.length_append]
    omega

/-- A string literal is lexed as the same string, wherever it stands and whatever is behind. -/
theorem lexString_local {text : String} {rest : List UInt8} (begins : cursor.rest = quote :: rest)
    (read : lexString quote cursor = .ok (text, after)) :
    ∃ front, Consumes cursor after (quote :: (front ++ [quote])) ∧ ∀ pos other,
      lexString quote ⟨pos, quote :: (front ++ [quote]) ++ other⟩ =
        .ok (text, ⟨pos.after (quote :: (front ++ [quote])), other⟩) := by
  obtain ⟨final, looped, same⟩ := Outcome.bind_eq_ok.mp read
  cases same
  obtain ⟨visited, run, _⟩ := loop_eq_ok_iff.mp looped
  obtain ⟨_, consumes, ⟨front, rfl⟩, again⟩ := strRun_local run
  rw [begins] at consumes
  refine ⟨front, ⟨?_, consumes.2⟩, fun pos other => ?_⟩
  · rw [begins, List.cons_append, ← consumes.1]
    rfl
  obtain ⟨visited', run', short⟩ := again pos (pos.bump quote) other
  refine Outcome.bind_eq_ok.mpr ⟨_, loop_eq_ok_iff.mpr ⟨visited', run', ?_⟩, rfl⟩
  simp only [List.length_append, List.length_cons] at short ⊢
  omega

end Strings

section Comments

variable {depth : Nat} {bytes word behind : List UInt8}

/-- A block comment ends behind a slash, or at the end of the text. -/
theorem blockComment_split (read : blockComment depth bytes = (word, behind)) :
    bytes = word ++ behind ∧
      (depth = 0 ∧ word = [] ∨ behind = [] ∨ ∃ front, word = front ++ [ascii '/']) := by
  fun_induction blockComment depth bytes generalizing word behind with
  | case1 rest =>
    cases read
    exact ⟨rfl, .inl ⟨rfl, rfl⟩⟩
  | case2 =>
    cases read
    exact ⟨rfl, .inr (.inl rfl)⟩
  | case3 =>
    cases read
    exact ⟨rfl, .inr (.inl rfl)⟩
  | case4 depth b c rest closes inner behind' spanned ih =>
    cases read
    obtain ⟨rfl, ends⟩ := ih spanned
    refine ⟨rfl, .inr ?_⟩
    rcases ends with ⟨_, rfl⟩ | rfl | ⟨front, rfl⟩
    · exact .inr ⟨[b], by rw [closes.2]; rfl⟩
    · exact .inl rfl
    · exact .inr ⟨b :: c :: front, rfl⟩
  | case5 depth b c rest closes opens inner behind' spanned ih =>
    cases read
    obtain ⟨rfl, ends⟩ := ih spanned
    refine ⟨rfl, .inr ?_⟩
    rcases ends with ⟨impossible, _⟩ | rfl | ⟨front, rfl⟩
    · omega
    · exact .inl rfl
    · exact .inr ⟨b :: c :: front, rfl⟩
  | case6 depth b c rest closes opens inner behind' spanned ih =>
    cases read
    obtain ⟨same, ends⟩ := ih spanned
    refine ⟨by rw [same]; rfl, .inr ?_⟩
    rcases ends with ⟨impossible, _⟩ | rfl | ⟨front, rfl⟩
    · omega
    · exact .inl rfl
    · exact .inr ⟨b :: front, rfl⟩

/-- A comment ends where the text can be cut. -/
theorem comment_split (read : comment? bytes = some (word, behind)) :
    bytes = word ++ behind ∧ word ≠ [] ∧ Edge word behind := by
  unfold comment? at read
  split at read
  · rename_i b c rest
    split at read
    · rename_i line
      have spanned := Option.some.inj read
      unfold lineComment at spanned
      have same := span_split spanned
      rw [same] at spanned
      refine ⟨same, ?_, ?_⟩
      · rintro rfl
        rw [List.nil_append] at same
        have stops := (span_eq_iff.mp spanned).2 b (by rw [← same]; rfl)
        rw [line.1] at stops
        exact absurd stops (by decide)
      · cases behind with
        | nil => exact .inl rfl
        | cons d tail =>
          have stops := (span_eq_iff.mp spanned).2 d rfl
          refine .inr (.inl ⟨d, tail, rfl, ?_⟩)
          have isEnd : d = ascii '\n' := by simpa using stops
          rw [isEnd]
          decide
    split at read
    · cases spanned : blockComment 1 rest with
      | mk inner behind' =>
        rw [spanned] at read
        cases read
        obtain ⟨rfl, ends⟩ := blockComment_split spanned
        refine ⟨rfl, by simp, ?_⟩
        rcases ends with ⟨impossible, _⟩ | rfl | ⟨front, rfl⟩
        · cases impossible
        · exact .inl rfl
        · exact .inr (.inr ⟨b :: c :: front, ascii '/', rfl, by decide⟩)
    · cases read
  · cases read

end Comments

end TptProto.Language
