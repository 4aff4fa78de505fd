import TptProto.Core.Utf8
import TptProto.Language.Words

/-! What a text is lexed as: its tokens and comments, with the white space between them. -/

namespace TptProto.Language

open TptProto.Foundation TptProto.Core

section Tokens

variable {parseFloat : String → Option UInt64} {kind : TokenKind} {cursor after : Cursor}
variable {b : UInt8} {rest word behind : List UInt8}

/-- What may stand behind a token without becoming part of it. -/
def Ends (kind : TokenKind) (word behind : List UInt8) : Prop :=
  match kind with
  | .ident _ => ∀ b ∈ behind.head?, isWordPart b = false
  | .int _ | .float _ => NumberEnds (pointed kind word) behind
  | _ => True

/-- The word is a token of this kind, with these bytes behind it. -/
def TokenAt (parseFloat : String → Option UInt64) (kind : TokenKind) (word behind : List UInt8) :
    Prop :=
  ∃ b tail, word = b :: tail ∧
    ∀ pos, nextToken parseFloat b ⟨pos, word ++ behind⟩ = .ok (kind, ⟨pos.after word, behind⟩)

private theorem simple_ascii (read : simple? b = some kind) : b < 128 := by
  rw [UInt8.lt_iff_toNat_lt, ← toNat_byteChar b]
  unfold simple? at read
  split at read
  case h_14 => cases read
  all_goals
    rename_i same
    rw [same]
    decide

private theorem wordPart_ascii (part : isWordPart b = true) : b < 128 := by
  simp only [isWordPart, isAsciiAlphabetic, isAsciiDigit, Bool.or_eq_true, Bool.and_eq_true,
    decide_eq_true_eq] at part
  rcases part with (((upper | lower) | digit) | rfl)
  · exact UInt8.lt_of_le_of_lt upper.2 (by decide)
  · exact UInt8.lt_of_le_of_lt lower.2 (by decide)
  · exact UInt8.lt_of_le_of_lt digit.2 (by decide)
  · decide

private theorem cons_eq_concat (b : UInt8) (tail : List UInt8) :
    ∃ front last, b :: tail = front ++ [last] :=
  ⟨_, _, (List.dropLast_concat_getLast (List.cons_ne_nil b tail)).symm⟩

/-- A token is lexed as the same token, wherever it stands and whatever ends it. -/
theorem nextToken_local (begins : cursor.rest = b :: rest)
    (read : nextToken parseFloat b cursor = .ok (kind, after)) :
    ∃ front last, Consumes cursor after (front ++ [last]) ∧ last < 128 ∧
      ∀ other, (other = after.rest ∨ Ends kind (front ++ [last]) other) →
        TokenAt parseFloat kind (front ++ [last]) other := by
  unfold nextToken at read
  cases simple : simple? b with
  | some kind' =>
    rw [simple] at read
    cases read
    refine ⟨[], b, ⟨?_, rfl⟩, simple_ascii simple, fun other _ => ⟨b, [], rfl, fun pos => ?_⟩⟩
    · rw [begins]
      rfl
    · unfold nextToken
      rw [simple]
      rfl
  | none =>
    simp only [simple] at read
    split at read
    · rename_i quote
      obtain ⟨⟨text, next⟩, lexed, same⟩ := Outcome.bind_eq_ok.mp read
      cases same
      obtain ⟨front, consumes, again⟩ := lexString_local begins lexed
      refine ⟨b :: front, b, consumes, ?_, fun other _ => ⟨b, front ++ [b], rfl, fun pos => ?_⟩⟩
      · rcases quote with rfl | rfl
        · decide
        · decide
      · unfold nextToken
        simp only [simple, if_pos quote]
        exact Outcome.bind_eq_ok.mpr ⟨_, again pos other, rfl⟩
    rename_i noQuote
    split at read
    · rename_i starts
      have part : isWordPart b = true := by
        simp only [isWordStart, isWordPart, Bool.or_eq_true] at starts ⊢
        exact starts.imp_left .inl
      cases spanned : cursor.rest.span isWordPart with
      | mk word behind =>
        rw [spanned] at read
        cases read
        have split := span_split spanned
        rw [split] at spanned
        obtain ⟨kept, _⟩ := span_eq_iff.mp spanned
        cases word with
        | nil =>
          rw [begins, List.nil_append] at split
          have stops := (span_eq_iff.mp spanned).2 b (by rw [← split]; rfl)
          rw [part] at stops
          cases stops
        | cons c tail =>
          rw [begins] at split
          cases split
          obtain ⟨front, last, whole⟩ := cons_eq_concat b tail
          refine ⟨front, last, ⟨?_, ?_⟩, ?_, fun other fits => ⟨b, tail, whole.symm, fun pos => ?_⟩⟩
          · rw [begins, ← whole]
            rfl
          · rw [← whole]
            rfl
          · exact wordPart_ascii (kept last (by rw [whole]; simp))
          · rw [← whole]
            unfold nextToken
            simp only [simple, if_neg noQuote, if_pos starts]
            have stops : ∀ b ∈ other.head?, isWordPart b = false := by
              rcases fits with rfl | ends
              · exact (span_eq_iff.mp spanned).2
              · exact ends
            rw [span_eq_iff.mpr ⟨kept, stops⟩]
            rfl
    rename_i noWord
    split at read
    · rename_i digit
      obtain ⟨tail, same, split, number, ascii, again⟩ := lexNumber_local begins digit read
      obtain ⟨front, last, whole⟩ := cons_eq_concat b tail
      rw [whole] at same split ascii
      refine ⟨front, last, ⟨split, by rw [same]; rfl⟩, ascii last (by simp),
        fun other fits => ⟨b, tail, whole.symm, fun pos => ?_⟩⟩
      rw [← whole] at fits ⊢
      unfold nextToken
      simp only [simple, if_neg noQuote, if_neg noWord, if_pos digit]
      refine again pos other (fits.imp_right fun ends => ?_)
      cases kind with
      | int | float => exact ends
      | _ => cases number
    · cases read

end Tokens

section Texts

/-- A token with its text, or a comment with its own. -/
inductive Item where
  | tok (kind : TokenKind) (text : List Char)
  | cmt (text : List Char)
  deriving DecidableEq

/-- An item with the number of line ends in front of it, and where it stands. -/
structure Placed where
  lines : Nat
  item : Item
  span : Span

/-- A comment's text without the line ends behind it. -/
def withoutLineEnds (whole : List Char) : List Char :=
  whole.rdropWhile fun c => c = '\n' || c = '\r'

variable (parseFloat : String → Option UInt64)

/-- A text is lexed as items, from a position with so many line ends behind the last item. -/
inductive Lexed : Position → Nat → List UInt8 → List Placed → Prop where
  | nil {p : Position} {n : Nat} : Lexed p n [] []
  | blank {p : Position} {n : Nat} {b : UInt8} {rest : List UInt8} {placed : List Placed}
      (blank : isBlank b = true) (next : Lexed (p.bump b) (n + lineEnds [b]) rest placed) :
      Lexed p n (b :: rest) placed
  | comment {p : Position} {n : Nat} {whole : List Char} {behind : List UInt8}
      {placed : List Placed} (found : comment? (encode whole ++ behind) = some (encode whole, behind))
      (next : Lexed (p.after (encode whole)) 0 behind placed) :
      Lexed p n (encode whole ++ behind)
        (⟨n, .cmt (withoutLineEnds whole), ⟨p, p.after (encode whole)⟩⟩ :: placed)
  | token {p : Position} {n : Nat} {kind : TokenKind} {text : List Char} {behind : List UInt8}
      {placed : List Placed} (found : TokenAt parseFloat kind (encode text) behind)
      (next : Lexed (p.after (encode text)) 0 behind placed) :
      Lexed p n (encode text ++ behind) (⟨n, .tok kind text, ⟨p, p.after (encode text)⟩⟩ :: placed)

/-- The same without positions. -/
inductive Spaced : Nat → List UInt8 → List (Nat × Item) → Prop where
  | nil {n : Nat} : Spaced n [] []
  | blank {n : Nat} {b : UInt8} {rest : List UInt8} {items : List (Nat × Item)}
      (blank : isBlank b = true) (next : Spaced (n + lineEnds [b]) rest items) :
      Spaced n (b :: rest) items
  | comment {n : Nat} {whole : List Char} {behind : List UInt8} {items : List (Nat × Item)}
      (found : comment? (encode whole ++ behind) = some (encode whole, behind))
      (next : Spaced 0 behind items) :
      Spaced n (encode whole ++ behind) ((n, .cmt (withoutLineEnds whole)) :: items)
  | token {n : Nat} {kind : TokenKind} {text : List Char} {behind : List UInt8}
      {items : List (Nat × Item)} (found : TokenAt parseFloat kind (encode text) behind)
      (next : Spaced 0 behind items) :
      Spaced n (encode text ++ behind) ((n, .tok kind text) :: items)

variable {parseFloat} {p : Position} {n : Nat} {bytes : List UInt8} {placed : List Placed}
variable {items : List (Nat × Item)}

def Placed.spaced (q : Placed) : Nat × Item := (q.lines, q.item)

theorem Spaced.lexed (spaced : Spaced parseFloat n bytes items) (p : Position) :
    ∃ placed, Lexed parseFloat p n bytes placed ∧ placed.map Placed.spaced = items := by
  induction spaced generalizing p with
  | nil => exact ⟨[], .nil, rfl⟩
  | @blank n b _ _ white _ ih =>
    obtain ⟨placed, lexed, same⟩ := ih (p.bump b)
    exact ⟨placed, .blank white lexed, same⟩
  | @comment n whole _ _ found _ ih =>
    obtain ⟨placed, lexed, same⟩ := ih (p.after (encode whole))
    exact ⟨_, .comment found lexed, by rw [List.map_cons, same]; rfl⟩
  | @token n _ text _ _ found _ ih =>
    obtain ⟨placed, lexed, same⟩ := ih (p.after (encode text))
    exact ⟨_, .token found lexed, by rw [List.map_cons, same]; rfl⟩

def Placed.token? (q : Placed) : Option Token :=
  match q.item with
  | .tok kind _ => some ⟨kind, q.span⟩
  | .cmt _ => none

def Placed.comment? (q : Placed) : Option Comment :=
  match q.item with
  | .tok _ _ => none
  | .cmt text => some ⟨q.span, String.ofList text⟩

theorem comment_begins {b : UInt8} {rest : List UInt8} {parts : List UInt8 × List UInt8}
    (found : Language.comment? (b :: rest) = some parts) : b = ascii '/' := by
  unfold Language.comment? at found
  split at found
  · rename_i same
    cases same
    split at found
    · rename_i line
      exact line.1
    split at found
    · rename_i block
      exact block.1
    · cases found
  · cases found

/-- No token begins with a blank or a slash. -/
theorem TokenAt.begins {kind : TokenKind} {b : UInt8} {tail behind : List UInt8}
    (found : TokenAt parseFloat kind (b :: tail) behind) :
    isBlank b = false ∧ Language.comment? (b :: tail ++ behind) = none := by
  obtain ⟨_, _, same, read⟩ := found
  cases same
  have never (c : UInt8) (simple : simple? c = none) (quote : ¬ (c = ascii '"' ∨ c = ascii '\''))
      (word : isWordStart c = false) (digit : isAsciiDigit c = false) : b ≠ c := by
    rintro rfl
    have refused := read ⟨0, 0, 0⟩
    unfold nextToken at refused
    simp [simple, quote, word, digit] at refused
  constructor
  · refine Bool.eq_false_iff.mpr fun blank => ?_
    simp only [isBlank, Bool.or_eq_true, decide_eq_true_eq] at blank
    rcases blank with ((same | same) | same) | same
    · exact never _ (by decide) (by decide) (by decide) (by decide) same
    · exact never _ (by decide) (by decide) (by decide) (by decide) same
    · exact never _ (by decide) (by decide) (by decide) (by decide) same
    · exact never _ (by decide) (by decide) (by decide) (by decide) same
  · cases found : Language.comment? (b :: tail ++ behind) with
    | none => rfl
    | some parts =>
      exact (never _ (by decide) (by decide) (by decide) (by decide) (comment_begins found)).elim

variable {s next final : Lexer} {b : UInt8} {rest : List UInt8}

/-- The three ways a pass can go. -/
theorem lexStep_cases (begins : s.cursor.rest = b :: rest)
    (moved : lexStep parseFloat s = .ok next) :
    (isBlank b = true ∧ next = { s with cursor := ⟨s.cursor.pos.bump b, rest⟩ }) ∨
    (isBlank b = false ∧ ∃ parts text, Language.comment? s.cursor.rest = some parts ∧
      commentText parts.1 = .ok text ∧ next = { s with
        cursor := s.cursor.skip parts
        comments := s.comments ++ [⟨⟨s.cursor.pos, (s.cursor.skip parts).pos⟩, text⟩] }) ∨
    (isBlank b = false ∧ Language.comment? s.cursor.rest = none ∧ ∃ kind cursor,
      nextToken parseFloat b s.cursor = .ok (kind, cursor) ∧ next = { s with
        cursor
        tokens := s.tokens ++ [⟨kind, ⟨s.cursor.pos, cursor.pos⟩⟩] }) := by
  unfold lexStep at moved
  rw [begins] at moved
  simp only at moved
  cases blank : isBlank b with
  | true =>
    rw [blank, if_pos rfl] at moved
    cases moved
    exact .inl ⟨rfl, by simp [Cursor.skip]⟩
  | false =>
    rw [blank, if_neg Bool.false_ne_true, ← begins] at moved
    cases found : Language.comment? s.cursor.rest with
    | some parts =>
      rw [found] at moved
      obtain ⟨text, read, same⟩ := Outcome.bind_eq_ok.mp moved
      cases same
      exact .inr (.inl ⟨rfl, parts, text, rfl, read, rfl⟩)
    | none =>
      rw [found] at moved
      obtain ⟨⟨kind, cursor⟩, read, same⟩ := Outcome.bind_eq_ok.mp moved
      cases same
      exact .inr (.inr ⟨rfl, rfl, kind, cursor, read, rfl⟩)

theorem commentText_encode (whole : List Char) :
    commentText (encode whole) = .ok (String.ofList (withoutLineEnds whole)) := by
  unfold commentText sliceText withoutLineEnds
  rw [fromUtf8_encode]
  simp

theorem blank_ascii {b : UInt8} (blank : isBlank b = true) : b < 128 := by
  simp only [isBlank, Bool.or_eq_true, decide_eq_true_eq] at blank
  rcases blank with ((rfl | rfl) | rfl) | rfl
  · decide
  · decide
  · decide
  · decide

/-- A pass consumes bytes up to where the text may be cut. -/
theorem lexStep_consumes (more : lexMore s = true) (moved : lexStep parseFloat s = .ok next) :
    ∃ used, used ≠ [] ∧ Consumes s.cursor next.cursor used ∧ Edge used next.cursor.rest := by
  cases begins : s.cursor.rest with
  | nil => simp [lexMore, begins] at more
  | cons b rest =>
    rcases lexStep_cases begins moved with ⟨blank, rfl⟩ | ⟨_, ⟨word, behind⟩, text, found, _, rfl⟩ |
      ⟨_, _, kind, cursor, read, rfl⟩
    · exact ⟨[b], by simp, ⟨begins, rfl⟩, .inr (.inr ⟨[], b, rfl, blank_ascii blank⟩)⟩
    · obtain ⟨split, nonempty, edge⟩ := comment_split found
      exact ⟨word, nonempty, ⟨split, rfl⟩, edge⟩
    · obtain ⟨front, last, consumes, ascii, _⟩ := nextToken_local begins read
      exact ⟨front ++ [last], by simp, consumes, .inr (.inr ⟨front, last, rfl, ascii⟩)⟩

/-- A run over a text reads the items that it is lexed as. -/
theorem run_lexed {visited : List Lexer} {chars : List Char}
    (run : Run lexMore (lexStep parseFloat) s visited final)
    (valid : s.cursor.rest = encode chars) (n : Nat) :
    ∃ placed, Lexed parseFloat s.cursor.pos n s.cursor.rest placed ∧
      final.tokens = s.tokens ++ placed.filterMap Placed.token? ∧
      final.comments = s.comments ++ placed.filterMap Placed.comment? := by
  induction run generalizing chars n with
  | @done s finished =>
    have empty : s.cursor.rest = [] := by simpa [lexMore] using finished
    rw [empty]
    exact ⟨[], .nil, by simp, by simp⟩
  | @step s next _ _ continues moved _ ih =>
    cases begins : s.cursor.rest with
    | nil => simp [lexMore, begins] at continues
    | cons b rest =>
      rcases lexStep_cases begins moved with ⟨blank, rfl⟩ | ⟨_, ⟨word, behind⟩, text, found, read, rfl⟩ |
        ⟨_, _, kind, cursor, read, rfl⟩
      · have ascii := blank_ascii blank
        rw [begins] at valid
        obtain ⟨_, second, _, _, rest'⟩ := @encode_split chars [b] rest valid.symm
          (.inr (.inr ⟨[], b, rfl, ascii⟩))
        obtain ⟨placed, lexed, tokens, comments⟩ := ih rest'.symm (n + lineEnds [b])
        exact ⟨placed, .blank blank lexed, tokens, comments⟩
      · obtain ⟨split, _, edge⟩ := comment_split found
        rw [split] at valid found
        obtain ⟨whole, second, rfl, rfl, rest'⟩ := encode_split valid.symm edge
        obtain ⟨placed, lexed, tokens, comments⟩ := ih rest'.symm 0
        rw [commentText_encode] at read
        cases read
        rw [← begins, split]
        refine ⟨_, .comment found lexed, tokens, ?_⟩
        rw [comments, List.append_assoc]
        rfl
      · obtain ⟨front, last, consumes, ascii, again⟩ := nextToken_local begins read
        have split := consumes.1
        have edge : Edge (front ++ [last]) cursor.rest := .inr (.inr ⟨front, last, rfl, ascii⟩)
        rw [split] at valid
        obtain ⟨text, second, rfl, same, rest'⟩ := encode_split valid.symm edge
        obtain ⟨placed, lexed, tokens, comments⟩ := ih rest'.symm 0
        have here : TokenAt parseFloat kind (encode text) cursor.rest := by
          rw [same]
          exact again cursor.rest (.inl rfl)
        rw [← begins, split, ← same]
        have moved := consumes.2
        rw [← same] at moved
        rw [moved] at lexed tokens
        refine ⟨_, .token here lexed, ?_, comments⟩
        rw [tokens, List.append_assoc]
        rfl

end Texts

end TptProto.Language
