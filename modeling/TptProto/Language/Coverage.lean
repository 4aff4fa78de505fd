import TptProto.Language.Lexed
import Mathlib.Data.List.Pairwise

/-! Every source text is lexed to an end, and what is lexed covers the text but for white space. -/

namespace TptProto.Language

open TptProto.Foundation TptProto.Core

section Statement

/-- The first span ends where the second begins, or before. -/
def Span.Before (first second : Span) : Prop := first.stop.offset ≤ second.start.offset

def Span.Contains (span : Span) (offset : Nat) : Prop :=
  span.start.offset ≤ offset ∧ offset < span.stop.offset

/-- A whole number of the text's characters stands in front of this byte. -/
def OnBoundary (src : String) (offset : Nat) : Prop :=
  ∃ first second, src.toList = first ++ second ∧ (encode first).length = offset

/-- The spans of tokens and comments, in order and apart, on the boundaries of characters, with
white space between them. -/
structure Covers (src : String) (tokens : List Token) (comments : List Comment) : Prop where
  tokensInOrder : tokens.Pairwise fun first second => first.span.Before second.span
  commentsInOrder : comments.Pairwise fun first second => first.span.Before second.span
  apart : ∀ t ∈ tokens, ∀ c ∈ comments, t.span.Before c.span ∨ c.span.Before t.span
  bounds : ∀ span, (∃ t ∈ tokens, t.span = span) ∨ (∃ c ∈ comments, c.span = span) →
    OnBoundary src span.start.offset ∧ OnBoundary src span.stop.offset ∧
      span.start.offset < span.stop.offset
  blank : ∀ offset b, (asBytes src)[offset]? = some b → (∀ t ∈ tokens, ¬ t.span.Contains offset) →
    (∀ c ∈ comments, ¬ c.span.Contains offset) → isBlank b = true

end Statement

section Termination

variable {parseFloat : String → Option UInt64}

private theorem readHex_returns {start : Position} {n v : Nat} {cursor : Cursor} :
    (readHex start n v cursor).Returns := by
  induction n generalizing v cursor with
  | zero => exact .ok _
  | succ n ih =>
    unfold readHex
    split
    · exact .err _
    · split
      · exact .err _
      · exact ih

private theorem unescape_returns {start : Position} {esc : UInt8} {cursor : Cursor} :
    (unescape start esc cursor).Returns := by
  unfold unescape
  split
  · exact .ok _
  split
  · exact readHex_returns.bind fun _ _ => .ok _
  split
  · exact readHex_returns.bind fun _ _ => (Outcome.Returns.ofOption _ _).bind fun _ _ => .ok _
  split
  · exact readHex_returns.bind fun _ _ => (Outcome.Returns.ofOption _ _).bind fun _ _ => .ok _
  · exact .err _

private theorem strStep_returns {quote : UInt8} {start : Position} {s : StrScan} :
    (strStep quote start s).Returns := by
  unfold strStep
  split
  · exact .err _
  split
  · exact .ok _
  split
  · split
    · exact .err _
    · exact unescape_returns.bind fun _ _ => .ok _
  · exact .ok _

/-- Each pass over a string consumes a byte. -/
private theorem lexString_returns {quote : UInt8} {cursor : Cursor} :
    (lexString quote cursor).Returns := by
  unfold lexString
  refine Outcome.Returns.bind ?_ fun _ _ => .ok _
  refine loop_returns (fun s => s.cursor.rest.length + 1) (fun _ => True)
    (fun _ _ _ => Nat.succ_pos _) (fun _ _ _ => strStep_returns) (fun s s' _ _ moved => ?_) trivial ?_
  · obtain ⟨used, nonempty, consumes, _⟩ := strStep_local moved
    have positive := List.length_pos_iff.mpr nonempty
    refine ⟨trivial, ?_⟩
    rw [consumes.1, List.length_append]
    omega
  · show (cursor.rest.drop 1).length + 1 ≤ _
    rw [List.length_drop]
    omega

private theorem numberKind_returns {start : Position} {hex float : Bool} {word : List UInt8} :
    (numberKind parseFloat start hex float word).Returns := by
  unfold numberKind
  dsimp only
  repeat' split
  all_goals first | exact .ok _ | exact .err _

private theorem nextToken_returns {b : UInt8} {cursor : Cursor} :
    (nextToken parseFloat b cursor).Returns := by
  unfold nextToken
  split
  · exact .ok _
  split
  · exact lexString_returns.bind fun _ _ => .ok _
  split
  · exact .ok _
  split
  · exact numberKind_returns.bind fun _ _ => .ok _
  · exact .err _

variable {s next : Lexer}

/-- The bytes ahead are whole characters. -/
private def Whole (s : Lexer) : Prop := ∃ chars, s.cursor.rest = encode chars

private theorem lexStep_returns (whole : Whole s) : (lexStep parseFloat s).Returns := by
  obtain ⟨chars, valid⟩ := whole
  unfold lexStep
  split
  · exact .ok _
  split
  · exact .ok _
  split
  · rename_i parts found
    refine Outcome.Returns.bind ?_ fun _ _ => .ok _
    obtain ⟨split, _, edge⟩ := @comment_split _ parts.1 parts.2 found
    rw [valid] at split
    obtain ⟨first, _, _, same, _⟩ := encode_split split edge
    rw [← same, commentText_encode]
    exact .ok _
  · exact nextToken_returns.bind fun _ _ => .ok _

/-- A pass leaves whole characters, and fewer bytes. -/
private theorem lexStep_shrinks (whole : Whole s) (more : lexMore s = true)
    (moved : lexStep parseFloat s = .ok next) :
    Whole next ∧ next.cursor.rest.length < s.cursor.rest.length := by
  obtain ⟨used, nonempty, consumes, edge⟩ := lexStep_consumes more moved
  obtain ⟨chars, valid⟩ := whole
  have split := consumes.1
  rw [valid] at split
  obtain ⟨_, second, _, _, rest⟩ := encode_split split edge
  have positive := List.length_pos_iff.mpr nonempty
  refine ⟨⟨second, rest.symm⟩, ?_⟩
  rw [consumes.1, List.length_append]
  omega

/-- Lexing a text ends in its tokens and comments, or in an error. -/
private theorem lexWithComments_returns (src : String) :
    (lexWithComments parseFloat src).Returns := by
  unfold lexWithComments
  refine Outcome.Returns.bind ?_ fun _ _ => .ok _
  refine loop_returns (fun s => s.cursor.rest.length) Whole (fun s _ more => ?_)
    (fun s whole _ => lexStep_returns whole)
    (fun s next whole more moved => lexStep_shrinks whole more moved)
    ⟨src.toList, asBytes_eq_encode src⟩ (Nat.le_refl _)
  refine List.length_pos_iff.mpr fun empty => ?_
  simp [lexMore, empty] at more

end Termination

section Spans

variable {parseFloat : String → Option UInt64} {p : Position} {n : Nat} {bytes : List UInt8}
variable {placed : List Placed}

private theorem TokenAt.nonempty {kind : TokenKind} {word behind : List UInt8}
    (found : TokenAt parseFloat kind word behind) : 0 < word.length := by
  obtain ⟨b, tail, rfl, _⟩ := found
  exact Nat.succ_pos _

/-- The text may be cut behind a token. -/
theorem TokenAt.edge {kind : TokenKind} {word behind : List UInt8}
    (found : TokenAt parseFloat kind word behind) : Edge word behind := by
  obtain ⟨b, tail, rfl, read⟩ := found
  obtain ⟨front, last, consumes, ascii, _⟩ :=
    @nextToken_local _ _ ⟨⟨0, 0, 0⟩, b :: tail ++ behind⟩ _ _ _ rfl (read _)
  exact .inr (.inr ⟨front, last, List.append_cancel_right consumes.1, ascii⟩)

private theorem comment_nonempty {word behind rest : List UInt8}
    (found : comment? rest = some (word, behind)) : 0 < word.length :=
  List.length_pos_iff.mpr (comment_split found).2.1

private theorem offset_bump (b : UInt8) : (p.bump b).offset = p.offset + 1 :=
  Position.offset_after p [b]

/-- Every item begins where the text does, or behind, and ends with it, or in front. -/
theorem Lexed.within (lexed : Lexed parseFloat p n bytes placed) : ∀ q ∈ placed,
    p.offset ≤ q.span.start.offset ∧ q.span.start.offset < q.span.stop.offset ∧
      q.span.stop.offset ≤ p.offset + bytes.length := by
  induction lexed with
  | nil => nofun
  | @blank p _ b rest _ _ _ ih =>
    intro q member
    obtain ⟨low, inside, high⟩ := ih q member
    rw [offset_bump] at low high
    rw [List.length_cons]
    exact ⟨by omega, inside, by omega⟩
  | @comment p _ whole behind _ found _ ih =>
    have positive := comment_nonempty found
    have behind' := Position.offset_after p (encode whole)
    rw [List.length_append]
    intro q member
    rcases List.mem_cons.mp member with rfl | later
    · dsimp only
      exact ⟨Nat.le_refl _, by omega, by omega⟩
    · obtain ⟨low, inside, high⟩ := ih q later
      exact ⟨by omega, inside, by omega⟩
  | @token p _ _ text behind _ found _ ih =>
    have positive := found.nonempty
    have behind' := Position.offset_after p (encode text)
    rw [List.length_append]
    intro q member
    rcases List.mem_cons.mp member with rfl | later
    · dsimp only
      exact ⟨Nat.le_refl _, by omega, by omega⟩
    · obtain ⟨low, inside, high⟩ := ih q later
      exact ⟨by omega, inside, by omega⟩

theorem Lexed.inOrder (lexed : Lexed parseFloat p n bytes placed) :
    placed.Pairwise fun first second => first.span.Before second.span := by
  induction lexed with
  | nil => exact .nil
  | blank _ _ ih => exact ih
  | comment _ next ih => exact .cons (fun q member => (next.within q member).1) ih
  | token _ next ih => exact .cons (fun q member => (next.within q member).1) ih

/-- A place between two characters of a text that begins at this offset. -/
private def Between (start : Nat) (chars : List Char) (offset : Nat) : Prop :=
  ∃ first second, chars = first ++ second ∧ start + (encode first).length = offset

private theorem Between.behind {start offset : Nat} {first chars : List Char}
    (between : Between (start + (encode first).length) chars offset) :
    Between start (first ++ chars) offset := by
  obtain ⟨second, third, rfl, same⟩ := between
  refine ⟨first ++ second, third, by rw [List.append_assoc], ?_⟩
  rw [encode_append, List.length_append]
  omega

private theorem Between.here {start : Nat} {chars : List Char} : Between start chars start :=
  ⟨[], chars, rfl, rfl⟩

private theorem Between.after {start : Nat} {first chars : List Char} :
    Between start (first ++ chars) (start + (encode first).length) :=
  ⟨first, chars, rfl, rfl⟩

/-- Items begin and end between characters. -/
private theorem Lexed.between (lexed : Lexed parseFloat p n bytes placed) {chars : List Char}
    (valid : bytes = encode chars) : ∀ q ∈ placed,
      Between p.offset chars q.span.start.offset ∧ Between p.offset chars q.span.stop.offset := by
  induction lexed generalizing chars with
  | nil => nofun
  | @blank p _ b rest _ white _ ih =>
    obtain ⟨first, second, rfl, single, rest'⟩ := @encode_split chars [b] rest valid.symm
      (.inr (.inr ⟨[], b, rfl, blank_ascii white⟩))
    intro q member
    have shift : (p.bump b).offset = p.offset + (encode first).length := by
      rw [single, offset_bump]
      rfl
    obtain ⟨starts, stops⟩ := ih rest'.symm q member
    rw [shift] at starts stops
    exact ⟨starts.behind, stops.behind⟩
  | @comment p _ whole behind _ found _ ih =>
    obtain ⟨_, _, edge⟩ := comment_split found
    obtain ⟨first, second, rfl, same, rest'⟩ := encode_split valid.symm edge
    obtain rfl := encode_inj same
    have shift := Position.offset_after p (encode first)
    intro q member
    rcases List.mem_cons.mp member with rfl | later
    · dsimp only
      rw [shift]
      exact ⟨.here, .after⟩
    · obtain ⟨starts, stops⟩ := ih rest'.symm q later
      rw [shift] at starts stops
      exact ⟨starts.behind, stops.behind⟩
  | @token p _ _ text behind _ found _ ih =>
    obtain ⟨first, second, rfl, same, rest'⟩ := encode_split valid.symm found.edge
    obtain rfl := encode_inj same
    have shift := Position.offset_after p (encode first)
    intro q member
    rcases List.mem_cons.mp member with rfl | later
    · dsimp only
      rw [shift]
      exact ⟨.here, .after⟩
    · obtain ⟨starts, stops⟩ := ih rest'.symm q later
      rw [shift] at starts stops
      exact ⟨starts.behind, stops.behind⟩

/-- A byte outside of all items is white space. -/
private theorem Lexed.blanks (lexed : Lexed parseFloat p n bytes placed) {offset : Nat} {b : UInt8}
    (here : bytes[offset]? = some b) (outside : ∀ q ∈ placed, ¬ q.span.Contains (p.offset + offset)) :
    isBlank b = true := by
  induction lexed generalizing offset with
  | nil => cases here
  | @blank p _ c rest _ white _ ih =>
    cases offset with
    | zero =>
      cases here
      exact white
    | succ offset =>
      refine ih here fun q member => ?_
      rw [offset_bump, Nat.add_assoc, Nat.add_comm 1]
      exact outside q member
  | @comment p _ whole behind _ _ _ ih =>
    have shift := Position.offset_after p (encode whole)
    have past := outside _ List.mem_cons_self
    unfold Span.Contains at past
    dsimp only at past
    have far : (encode whole).length ≤ offset := by omega
    rw [List.getElem?_append_right far] at here
    refine ih here fun q member => ?_
    rw [shift, Nat.add_assoc, Nat.add_sub_cancel' far]
    exact outside q (List.mem_cons_of_mem _ member)
  | @token p _ _ text behind _ _ _ ih =>
    have shift := Position.offset_after p (encode text)
    have past := outside _ List.mem_cons_self
    unfold Span.Contains at past
    dsimp only at past
    have far : (encode text).length ≤ offset := by omega
    rw [List.getElem?_append_right far] at here
    refine ih here fun q member => ?_
    rw [shift, Nat.add_assoc, Nat.add_sub_cancel' far]
    exact outside q (List.mem_cons_of_mem _ member)

private theorem token?_eq_some {q : Placed} {t : Token} (same : q.token? = some t) :
    t.span = q.span := by
  unfold Placed.token? at same
  split at same
  · cases same
    rfl
  · cases same

private theorem comment?_eq_some {q : Placed} {c : Comment} (same : q.comment? = some c) :
    c.span = q.span := by
  unfold Placed.comment? at same
  split at same
  · cases same
  · cases same
    rfl

/-- Of two items in a list, one is in front of the other, or they are the same. -/
private theorem before_or {first second : Placed}
    (inOrder : placed.Pairwise fun first second => first.span.Before second.span)
    (left : first ∈ placed) (right : second ∈ placed) (differ : first ≠ second) :
    first.span.Before second.span ∨ second.span.Before first.span := by
  induction inOrder with
  | nil => cases left
  | cons ahead _ ih =>
    rcases List.mem_cons.mp left with rfl | later
    · rcases List.mem_cons.mp right with rfl | later'
      · exact absurd rfl differ
      · exact .inl (ahead second later')
    · rcases List.mem_cons.mp right with rfl | later'
      · exact .inr (ahead first later)
      · exact ih later later'

private theorem item_differs {q r : Placed} {t : Token} {c : Comment} (token : q.token? = some t)
    (comment : r.comment? = some c) : q ≠ r := by
  rintro rfl
  unfold Placed.token? at token
  unfold Placed.comment? at comment
  cases same : q.item with
  | tok kind text => simp [same] at comment
  | cmt text => simp [same] at token

private theorem Lexed.covers {src : String} (lexed : Lexed parseFloat ⟨1, 1, 0⟩ 0 (asBytes src) placed) :
    Covers src (placed.filterMap Placed.token?) (placed.filterMap Placed.comment?) := by
  have inOrder := lexed.inOrder
  constructor
  · refine inOrder.filterMap _ fun q r before t found t' found' => ?_
    rw [token?_eq_some found, token?_eq_some found']
    exact before
  · refine inOrder.filterMap _ fun q r before c found c' found' => ?_
    rw [comment?_eq_some found, comment?_eq_some found']
    exact before
  · intro t isToken c isComment
    obtain ⟨q, left, token⟩ := List.mem_filterMap.mp isToken
    obtain ⟨r, right, comment⟩ := List.mem_filterMap.mp isComment
    rw [token?_eq_some token, comment?_eq_some comment]
    exact before_or inOrder left right (item_differs token comment)
  · intro span found
    obtain ⟨q, member, rfl⟩ : ∃ q ∈ placed, q.span = span := by
      rcases found with ⟨t, isToken, rfl⟩ | ⟨c, isComment, rfl⟩
      · obtain ⟨q, member, token⟩ := List.mem_filterMap.mp isToken
        exact ⟨q, member, (token?_eq_some token).symm⟩
      · obtain ⟨q, member, comment⟩ := List.mem_filterMap.mp isComment
        exact ⟨q, member, (comment?_eq_some comment).symm⟩
    obtain ⟨⟨first, second, split, start⟩, ⟨first', second', split', stop⟩⟩ :=
      lexed.between (asBytes_eq_encode src) q member
    refine ⟨⟨first, second, split, ?_⟩, ⟨first', second', split', ?_⟩, (lexed.within q member).2.1⟩
    · exact (Nat.zero_add _).symm.trans start
    · exact (Nat.zero_add _).symm.trans stop
  · intro offset b here tokens comments
    refine lexed.blanks here fun q member inside => ?_
    rw [Nat.zero_add] at inside
    cases same : q.item with
    | tok kind text =>
      exact tokens ⟨kind, q.span⟩
        (List.mem_filterMap.mpr ⟨q, member, by rw [Placed.token?, same]⟩) inside
    | cmt text =>
      exact comments ⟨q.span, String.ofList text⟩
        (List.mem_filterMap.mpr ⟨q, member, by rw [Placed.comment?, same]⟩) inside

end Spans

/-- A text is lexed to an end without a panic, and the tokens and comments cover it. -/
theorem lexWithComments_covers (parseFloat : String → Option UInt64) (src : String) :
    lexWithComments parseFloat src ≠ .panic ∧ lexWithComments parseFloat src ≠ .outOfFuel ∧
      ∀ tokens comments, lexWithComments parseFloat src = .ok (tokens, comments) →
        Covers src tokens comments := by
  have returns := @lexWithComments_returns parseFloat src
  refine ⟨returns.ne_panic, returns.ne_outOfFuel, fun tokens comments lexed => ?_⟩
  obtain ⟨final, looped, same⟩ := Outcome.bind_eq_ok.mp lexed
  obtain ⟨visited, run, _⟩ := loop_eq_ok_iff.mp looped
  obtain ⟨placed, found, ranTokens, ranComments⟩ := run_lexed run (asBytes_eq_encode src) 0
  cases same
  rw [ranTokens, ranComments]
  exact found.covers

end TptProto.Language
