import TptProto.Language.Coverage
import TptProto.Language.Literals

/-! Texts that are written token by token, and what they are lexed as. -/

namespace TptProto.Language

open TptProto.Foundation TptProto.Core

section Lexemes

/-- A part of a text: a blank, or a token as it is written. -/
inductive Lexeme where
  | blank (c : Char)
  | token (kind : TokenKind) (text : List Char)

namespace Lexeme

def text : Lexeme → List Char
  | blank c => [c]
  | token _ text => text

def kind? : Lexeme → Option TokenKind
  | blank _ => none
  | token kind _ => some kind

end Lexeme

def written (lexemes : List Lexeme) : List Char := lexemes.flatMap Lexeme.text

def kindsOf (lexemes : List Lexeme) : List TokenKind := lexemes.filterMap Lexeme.kind?

/-- The tokens of a text that begins at this position. -/
def tokensFrom : Position → List Lexeme → List Token
  | _, [] => []
  | p, .blank c :: rest => tokensFrom (p.after (encode [c])) rest
  | p, .token kind text :: rest =>
    ⟨kind, ⟨p, p.after (encode text)⟩⟩ :: tokensFrom (p.after (encode text)) rest

variable (parseFloat : String → Option UInt64)

/-- Each part is read as such, with the others and these bytes behind it. -/
def Separate : List Lexeme → List UInt8 → Prop
  | [], _ => True
  | .blank c :: rest, behind => (c = ' ' ∨ c = '\n') ∧ Separate rest behind
  | .token kind text :: rest, behind =>
    TokenAt parseFloat kind (encode text) (encode (written rest) ++ behind) ∧ Separate rest behind

variable {parseFloat} {lexemes : List Lexeme} {behind : List UInt8} {s final : Lexer}

theorem kinds_tokensFrom (p : Position) (lexemes : List Lexeme) :
    (tokensFrom p lexemes).map (fun t => t.kind) = kindsOf lexemes := by
  induction lexemes generalizing p with
  | nil => rfl
  | cons l rest ih =>
    cases l with
    | blank c => exact ih _
    | token kind text => exact congrArg (kind :: ·) (ih _)

theorem written_append (first second : List Lexeme) :
    written (first ++ second) = written first ++ written second :=
  List.flatMap_append

theorem kindsOf_append (first second : List Lexeme) :
    kindsOf (first ++ second) = kindsOf first ++ kindsOf second :=
  List.filterMap_append

theorem Separate.append {first second : List Lexeme}
    (front : Separate parseFloat first (encode (written second) ++ behind))
    (back : Separate parseFloat second behind) : Separate parseFloat (first ++ second) behind := by
  induction first with
  | nil => exact back
  | cons l rest ih =>
    cases l with
    | blank c => exact ⟨front.1, ih front.2⟩
    | token kind text =>
      obtain ⟨found, rest'⟩ := front
      refine ⟨?_, ih rest'⟩
      rw [← List.append_assoc, ← encode_append, ← written_append] at found
      exact found

end Lexemes

section Lexing

variable {parseFloat : String → Option UInt64} {lexemes : List Lexeme} {behind : List UInt8}
variable {s final : Lexer}

/-- The lexer gets from one state to the end of the text. -/
def LexesTo (parseFloat : String → Option UInt64) (s final : Lexer) : Prop :=
  Finishes lexMore (lexStep parseFloat) s final

theorem lexWithComments_eq_ok {src : String} {tokens : List Token} {comments : List Comment} :
    lexWithComments parseFloat src = .ok (tokens, comments) ↔
      ∃ final, LexesTo parseFloat { cursor := ⟨⟨1, 1, 0⟩, asBytes src⟩ } final ∧
        final.tokens = tokens ∧ final.comments = comments := by
  have looped {final : Lexer} :
      loop lexMore (lexStep parseFloat) (asBytes src).length { cursor := ⟨⟨1, 1, 0⟩, asBytes src⟩ } =
        .ok final ↔ LexesTo parseFloat { cursor := ⟨⟨1, 1, 0⟩, asBytes src⟩ } final := by
    refine loop_eq_ok_iff_finishes (fun s => s.cursor.rest.length) (fun s next more moved => ?_)
      (Nat.le_refl _)
    obtain ⟨used, nonempty, consumes, _⟩ := lexStep_consumes more moved
    have positive := List.length_pos_iff.mpr nonempty
    rw [consumes.1, List.length_append]
    omega
  constructor
  · intro lexed
    obtain ⟨final, ran, same⟩ := Outcome.bind_eq_ok.mp lexed
    cases same
    exact ⟨final, looped.mp ran, rfl, rfl⟩
  · rintro ⟨final, finishes, rfl, rfl⟩
    exact Outcome.bind_eq_ok.mpr ⟨final, looped.mpr finishes, rfl⟩

theorem lexesTo_done (empty : s.cursor.rest = []) : LexesTo parseFloat s final ↔ final = s :=
  finishes_done (by simp [lexMore, empty])

theorem lexesTo_blank {b : UInt8} {rest : List UInt8} (blank : isBlank b = true)
    (begins : s.cursor.rest = b :: rest) :
    LexesTo parseFloat s final ↔
      LexesTo parseFloat { s with cursor := ⟨s.cursor.pos.bump b, rest⟩ } final := by
  refine finishes_step (by simp [lexMore, begins]) ?_
  unfold lexStep
  rw [begins]
  simp only [if_pos blank]
  rfl

theorem lexesTo_token {kind : TokenKind} {word : List UInt8}
    (found : TokenAt parseFloat kind word behind) (begins : s.cursor.rest = word ++ behind) :
    LexesTo parseFloat s final ↔
      LexesTo parseFloat { s with
        cursor := ⟨s.cursor.pos.after word, behind⟩
        tokens := s.tokens ++ [⟨kind, ⟨s.cursor.pos, s.cursor.pos.after word⟩⟩] } final := by
  obtain ⟨b, tail, rfl, read⟩ := id found
  obtain ⟨noBlank, noComment⟩ := found.begins
  rw [List.cons_append] at begins
  refine finishes_step (by simp [lexMore, begins]) ?_
  have cursor : s.cursor = ⟨s.cursor.pos, b :: tail ++ behind⟩ := by
    rw [List.cons_append, ← begins]
  unfold lexStep
  rw [begins]
  simp only [if_neg (show ¬ isBlank b = true by simp [noBlank]), ← List.cons_append, noComment]
  rw [cursor, read]
  rfl

/-- The lexer reads what is written, and goes on behind it. -/
theorem lexesTo_written (separate : Separate parseFloat lexemes behind)
    (begins : s.cursor.rest = encode (written lexemes) ++ behind) :
    LexesTo parseFloat s final ↔
      LexesTo parseFloat { s with
        cursor := ⟨s.cursor.pos.after (encode (written lexemes)), behind⟩
        tokens := s.tokens ++ tokensFrom s.cursor.pos lexemes } final := by
  induction lexemes generalizing s with
  | nil =>
    have same : s = { s with cursor := ⟨s.cursor.pos, behind⟩, tokens := s.tokens ++ [] } := by
      rw [List.append_nil, ← show s.cursor.rest = behind from begins]
    exact iff_of_eq (congrArg (LexesTo parseFloat · final) same)
  | cons l rest ih =>
    cases l with
    | blank c =>
      obtain ⟨space, separate⟩ := separate
      obtain ⟨single, blank⟩ : encode [c] = [ascii c] ∧ isBlank (ascii c) = true := by
        rcases space with rfl | rfl
        · exact ⟨rfl, by decide⟩
        · exact ⟨rfl, by decide⟩
      have whole : encode (written (.blank c :: rest)) = ascii c :: encode (written rest) := by
        show encode ([c] ++ written rest) = _
        rw [encode_append, single]
        rfl
      rw [whole, List.cons_append] at begins
      rw [lexesTo_blank blank begins, ih separate rfl, whole]
      simp only [tokensFrom, single]
      rfl
    | token kind text =>
      obtain ⟨found, separate⟩ := separate
      have whole : encode (written (.token kind text :: rest)) = encode text ++ encode (written rest) :=
        encode_append text (written rest)
      rw [whole, List.append_assoc] at begins
      rw [lexesTo_token found begins, ih separate rfl, whole, Position.after_append]
      simp only [tokensFrom, List.append_assoc, List.singleton_append]

/-- A text of such parts is lexed as their tokens. -/
theorem lex_written (separate : Separate parseFloat lexemes []) :
    lex parseFloat (String.ofList (written lexemes)) = .ok (tokensFrom ⟨1, 1, 0⟩ lexemes) := by
  have lexed : lexWithComments parseFloat (String.ofList (written lexemes)) =
      .ok (tokensFrom ⟨1, 1, 0⟩ lexemes, []) := by
    refine lexWithComments_eq_ok.mpr ⟨_, (lexesTo_written separate ?_).mpr
      ((lexesTo_done rfl).mpr rfl), rfl, rfl⟩
    rw [asBytes_eq_encode, String.toList_ofList, List.append_nil]
  rw [lex, lexed]
  rfl

/-- No token begins here, nor white space or a comment. -/
def Refused (parseFloat : String → Option UInt64) (bytes : List UInt8) : Prop :=
  ∃ b rest, bytes = b :: rest ∧ isBlank b = false ∧ comment? bytes = none ∧
    ∀ pos, ∃ error, nextToken parseFloat b ⟨pos, bytes⟩ = .err error

theorem refused_minus (bytes : List UInt8) : Refused parseFloat (ascii '-' :: bytes) := by
  refine ⟨ascii '-', bytes, rfl, rfl, ?_, fun pos => ⟨_, rfl⟩⟩
  cases bytes with
  | nil => rfl
  | cons _ _ => rfl

/-- Parts that are read as such whatever stands behind them. -/
def Solid (parseFloat : String → Option UInt64) (lexemes : List Lexeme) : Prop :=
  ∀ behind, Separate parseFloat lexemes behind

theorem Solid.append {first second : List Lexeme} (front : Solid parseFloat first)
    (back : Solid parseFloat second) : Solid parseFloat (first ++ second) :=
  fun behind => (front _).append (back behind)

/-- A text in which the lexer gets stuck, whatever stands behind it. -/
def Unlexable (parseFloat : String → Option UInt64) (chars : List Char) : Prop :=
  ∃ lexemes rest, chars = written lexemes ++ rest ∧ ∀ behind,
    Separate parseFloat lexemes (encode rest ++ behind) ∧ Refused parseFloat (encode rest ++ behind)

theorem Unlexable.append_right {chars : List Char} (stuck : Unlexable parseFloat chars)
    (more : List Char) : Unlexable parseFloat (chars ++ more) := by
  obtain ⟨lexemes, rest, rfl, separate⟩ := stuck
  refine ⟨lexemes, rest ++ more, List.append_assoc _ _ _, fun behind => ?_⟩
  rw [encode_append, List.append_assoc]
  exact separate (encode more ++ behind)

theorem Unlexable.append_left {chars : List Char} (stuck : Unlexable parseFloat chars)
    (solid : Solid parseFloat lexemes) : Unlexable parseFloat (written lexemes ++ chars) := by
  obtain ⟨later, rest, rfl, separate⟩ := stuck
  refine ⟨lexemes ++ later, rest, ?_, fun behind => ⟨(solid _).append (separate behind).1,
    (separate behind).2⟩⟩
  rw [written_append, List.append_assoc]

/-- A text is not lexed if no token begins behind some of its parts. -/
theorem not_lex_refused {src : String} {tokens : List Token}
    (separate : Separate parseFloat lexemes behind) (refused : Refused parseFloat behind)
    (split : asBytes src = encode (written lexemes) ++ behind) : lex parseFloat src ≠ .ok tokens := by
  intro lexed
  obtain ⟨⟨_, comments⟩, read, rfl⟩ := Outcome.map_eq_ok.mp lexed
  obtain ⟨final, ran, _⟩ := lexWithComments_eq_ok.mp read
  rw [lexesTo_written separate split] at ran
  obtain ⟨b, rest, rfl, noBlank, noComment, rejected⟩ := refused
  refine not_finishes rfl (fun next moved => ?_) ran
  obtain ⟨error, rejected⟩ :=
    rejected ((⟨1, 1, 0⟩ : Position).after (encode (written lexemes)))
  unfold lexStep at moved
  simp only [if_neg (show ¬ isBlank b = true by simp [noBlank]), noComment, rejected] at moved
  cases moved

theorem Unlexable.not_lex {chars : List Char} {tokens : List Token}
    (stuck : Unlexable parseFloat chars) : lex parseFloat (String.ofList chars) ≠ .ok tokens := by
  obtain ⟨lexemes, rest, rfl, separate⟩ := stuck
  obtain ⟨separate, refused⟩ := separate []
  refine not_lex_refused separate refused ?_
  rw [asBytes_eq_encode, String.toList_ofList, encode_append, List.append_nil]

end Lexing

end TptProto.Language

/-! Lexing a text item by item, from the front. -/

namespace TptProto.Language

open TptProto.Foundation TptProto.Core

section Text

variable {parseFloat : String → Option UInt64}

private theorem lexesTo_comment {s final : Lexer} {whole : List Char} {behind : List UInt8}
    (found : comment? (encode whole ++ behind) = some (encode whole, behind))
    (begins : s.cursor.rest = encode whole ++ behind) :
    LexesTo parseFloat s final ↔
      LexesTo parseFloat { s with
        cursor := ⟨s.cursor.pos.after (encode whole), behind⟩
        comments := s.comments ++ [⟨⟨s.cursor.pos, s.cursor.pos.after (encode whole)⟩,
          String.ofList (withoutLineEnds whole)⟩] } final := by
  have filled : encode whole ++ behind ≠ [] := fun none => by
    rw [none] at found
    cases found
  obtain ⟨b, tail, bytes⟩ := List.exists_cons_of_ne_nil filled
  have noBlank : isBlank b = false := by
    rw [bytes] at found
    rw [comment_begins found]
    rfl
  refine finishes_step (by simp [lexMore, begins, bytes]) ?_
  unfold lexStep
  rw [begins, bytes]
  simp only [if_neg (show ¬ isBlank b = true by simp [noBlank]), ← bytes, found, commentText_encode]
  rfl

private theorem lexesTo_lexed {p : Position} {n : Nat} {bytes : List UInt8} {placed : List Placed}
    (lexed : Lexed parseFloat p n bytes placed) (tokens : List Token) (comments : List Comment) :
    ∃ cursor, LexesTo parseFloat ⟨⟨p, bytes⟩, tokens, comments⟩
      ⟨cursor, tokens ++ placed.filterMap Placed.token?, comments ++ placed.filterMap Placed.comment?⟩ := by
  induction lexed generalizing tokens comments with
  | @nil p =>
    rw [List.filterMap_nil, List.filterMap_nil, List.append_nil, List.append_nil]
    exact ⟨⟨p, []⟩, (lexesTo_done rfl).mpr rfl⟩
  | blank white _ ih =>
    obtain ⟨cursor, ran⟩ := ih tokens comments
    exact ⟨cursor, (lexesTo_blank white rfl).mpr ran⟩
  | comment found _ ih =>
    obtain ⟨cursor, ran⟩ := ih tokens (comments ++ [_])
    refine ⟨cursor, (lexesTo_comment found rfl).mpr ?_⟩
    rw [List.append_assoc] at ran
    exact ran
  | token found _ ih =>
    obtain ⟨cursor, ran⟩ := ih (tokens ++ [_]) comments
    refine ⟨cursor, (lexesTo_token found rfl).mpr ?_⟩
    rw [List.append_assoc] at ran
    exact ran

/-- A text is lexed to the tokens and comments among its items. -/
theorem lexWithComments_iff_lexed {src : String} {tokens : List Token} {comments : List Comment} :
    lexWithComments parseFloat src = .ok (tokens, comments) ↔
      ∃ placed, Lexed parseFloat ⟨1, 1, 0⟩ 0 (asBytes src) placed ∧
        placed.filterMap Placed.token? = tokens ∧ placed.filterMap Placed.comment? = comments := by
  constructor
  · intro lexed
    obtain ⟨final, looped, same⟩ := Outcome.bind_eq_ok.mp lexed
    obtain ⟨visited, run, _⟩ := loop_eq_ok_iff.mp looped
    obtain ⟨placed, found, ranTokens, ranComments⟩ := run_lexed run (asBytes_eq_encode src) 0
    cases same
    exact ⟨placed, found, by simpa using ranTokens.symm, by simpa using ranComments.symm⟩
  · rintro ⟨placed, lexed, rfl, rfl⟩
    obtain ⟨cursor, ran⟩ := lexesTo_lexed lexed [] []
    exact lexWithComments_eq_ok.mpr ⟨_, ran, by simp, by simp⟩

end Text

end TptProto.Language
