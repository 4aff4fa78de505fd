import TptProto.Fmt.Format
import TptProto.Language.Lexemes
import Mathlib.Data.List.Nodup

/-! The formatter over the items of a text, each with the line ends in front of it. -/

namespace TptProto.Fmt

open TptProto.Foundation TptProto.Language
open TptProto.Core (asBytes encode fromUtf8 fromUtf8_encode)

def kind? : Item → Option TokenKind
  | .tok kind _ => some kind
  | .cmt _ => none

/-- One item behind the one before it, with so many line ends between them. -/
def layItem (prev : Option Item) (s : State) (n : Nat) : Item → State
  | .cmt text => formatComment s (prev.isSome && n == 0) (prev.isSome && decide (1 < n)) text
  | .tok kind text =>
    formatToken s (prev.isSome && decide (1 < n)) (prev.bind kind?) kind text

def layItems : Option Item → State → List (Nat × Item) → State
  | _, s, [] => s
  | prev, s, (n, item) :: rest => layItems (some item) (layItem prev s n item) rest

section Events

/-- The event of an item. -/
def placedEv (q : Placed) : Ev :=
  match q.item with
  | .tok kind _ => .tok ⟨kind, q.span⟩
  | .cmt text => .cmt ⟨q.span, String.ofList text⟩

theorem placedEv_span (q : Placed) : (placedEv q).span = q.span := by
  unfold placedEv
  split
  · rfl
  · rfl

variable {parseFloat : String → Option UInt64} {p : Position} {n : Nat} {bytes : List UInt8}
variable {placed : List Placed}

private theorem events_perm (placed : List Placed) :
    ((placed.filterMap Placed.token?).map Ev.tok ++ (placed.filterMap Placed.comment?).map Ev.cmt).Perm
      (placed.map placedEv) := by
  induction placed with
  | nil => exact .refl _
  | cons q rest ih =>
    rw [List.map_cons]
    cases same : q.item with
    | tok kind text =>
      rw [List.filterMap_cons_some (show q.token? = some ⟨kind, q.span⟩ by rw [Placed.token?, same]),
        List.filterMap_cons_none (show q.comment? = none by rw [Placed.comment?, same]),
        show placedEv q = .tok ⟨kind, q.span⟩ by rw [placedEv, same]]
      exact ih.cons _
    | cmt text =>
      rw [List.filterMap_cons_none (show q.token? = none by rw [Placed.token?, same]),
        List.filterMap_cons_some
          (show q.comment? = some ⟨q.span, String.ofList text⟩ by rw [Placed.comment?, same]),
        show placedEv q = .cmt ⟨q.span, String.ofList text⟩ by rw [placedEv, same], List.map_cons]
      exact List.perm_middle.trans (ih.cons _)

/-- Sorted, the events are those of the items in their order. -/
theorem events_lexed (lexed : Lexed parseFloat p n bytes placed) :
    events (placed.filterMap Placed.token?) (placed.filterMap Placed.comment?) =
      placed.map placedEv := by
  have inOrder : (placed.map placedEv).Pairwise fun a b => a.startOffset < b.startOffset := by
    rw [List.pairwise_map]
    refine lexed.inOrder.imp_of_mem fun {q r} left right before => ?_
    rw [Ev.startOffset, Ev.startOffset, placedEv_span, placedEv_span]
    have inside := (lexed.within q left).2.1
    unfold Span.Before at before
    omega
  have distinct : ((placed.map placedEv).map Ev.startOffset).Nodup := by
    rw [List.Nodup, List.pairwise_map]
    exact inOrder.imp fun less => Nat.ne_of_lt less
  have shuffled : (events (placed.filterMap Placed.token?) (placed.filterMap Placed.comment?)).Perm
      (placed.map placedEv) := (List.mergeSort_perm _ _).trans (events_perm placed)
  have sorted : (events (placed.filterMap Placed.token?) (placed.filterMap Placed.comment?)).Pairwise
      fun a b => a.startOffset ≤ b.startOffset := by
    refine (List.pairwise_mergeSort (fun a b c first second => ?_) (fun a b => ?_) _).imp fun le => ?_
    · simp only [decide_eq_true_eq] at *
      omega
    · simp only [Bool.or_eq_true, decide_eq_true_eq]
      omega
    · simpa using le
  refine shuffled.eq_of_pairwise (fun a b left right low high => ?_) sorted
    (inOrder.imp fun less => Nat.le_of_lt less)
  exact List.inj_on_of_nodup_map distinct (shuffled.subset left) right (Nat.le_antisymm low high)

/-- The event before an item, as the item before it and the line ends since. -/
structure Follows (p : Position) (n : Nat) (prev : Option Ev) (item : Option Item) : Prop where
  some : prev.isSome = item.isSome
  kind : prev.bind Ev.kind = item.bind kind?
  line : ∀ e ∈ prev, e.endLine + n = p.line

private theorem Follows.gap {prev : Option Ev} {item : Option Item} {ev : Ev}
    (follows : Follows p n prev item) (starts : ev.startLine = p.line) :
    (prev.any fun e => decide (ev.startLine > e.endLine + 1)) = (item.isSome && decide (1 < n)) := by
  rw [← follows.some]
  cases prev with
  | none => rfl
  | some e =>
    have line := follows.line e rfl
    rw [Option.any_some, Option.isSome_some, Bool.true_and, decide_eq_decide, starts]
    omega

private theorem Follows.trailing {prev : Option Ev} {item : Option Item} {ev : Ev}
    (follows : Follows p n prev item) (starts : ev.startLine = p.line) :
    (prev.any fun e => decide (e.endLine = ev.startLine)) = (item.isSome && n == 0) := by
  rw [← follows.some]
  cases prev with
  | none => rfl
  | some e =>
    have line := follows.line e rfl
    rw [Option.any_some, Option.isSome_some, Bool.true_and, starts]
    exact decide_eq_decide.mpr (by omega)

/-- A token's text is what stands in the source in its place. -/
private theorem slice_eq {full front behind : List UInt8} {text : List Char} {start stop : Nat}
    (whole : full = front ++ (encode text ++ behind)) (starts : start = front.length)
    (stops : stop = start + (encode text).length) :
    slice full start (min stop full.length) = .ok text := by
  subst whole starts stops
  have inside : min (front.length + (encode text).length)
      (front ++ (encode text ++ behind)).length = front.length + (encode text).length := by
    rw [List.length_append, List.length_append]
    omega
  rw [inside, slice, if_pos (Nat.le_add_right _ _), List.drop_left, Nat.add_sub_cancel_left,
    List.take_left, fromUtf8_encode]
  simp

private theorem formatEvents_lexed {full front : List UInt8} {prev : Option Ev} {item : Option Item}
    (s : State) (lexed : Lexed parseFloat p n bytes placed) (whole : full = front ++ bytes)
    (offset : front.length = p.offset) (follows : Follows p n prev item) :
    formatEvents full prev s (placed.map placedEv) =
      .ok (layItems item s (placed.map Placed.spaced)) := by
  induction lexed generalizing front prev item s with
  | nil => rfl
  | @blank p n b rest placed white next ih =>
    refine @ih (front ++ [b]) prev item s ?_ ?_ ⟨follows.some, follows.kind, fun e member => ?_⟩
    · rw [whole, List.append_assoc]
      rfl
    · rw [List.length_append, offset]
      exact (Position.offset_after p [b]).symm
    · have line := follows.line e member
      have moved : (p.bump b).line = p.line + lineEnds [b] := Position.line_after p [b]
      rw [moved]
      omega
  | @comment p n text behind placed found next ih =>
    rw [List.map_cons, List.map_cons, formatEvents]
    have first : formatEvent full prev s (.cmt ⟨⟨p, p.after (encode text)⟩,
        String.ofList (withoutLineEnds text)⟩) = .ok (layItem item s n (.cmt (withoutLineEnds text))) := by
      have starts : (Ev.cmt ⟨⟨p, p.after (encode text)⟩,
        String.ofList (withoutLineEnds text)⟩).startLine = p.line := rfl
      simp only [formatEvent, follows.gap starts, follows.trailing starts, String.toList_ofList]
      rfl
    refine Outcome.bind_eq_ok.mpr ⟨_, first, ?_⟩
    refine @ih (front ++ encode text) _ _ _ (by rw [whole, List.append_assoc]) ?_ ⟨rfl, rfl, ?_⟩
    · rw [List.length_append, offset, Position.offset_after]
    · rintro e ⟨⟩
      rfl
  | @token p n kind text behind placed found next ih =>
    rw [List.map_cons, List.map_cons, formatEvents]
    have first : formatEvent full prev s (.tok ⟨kind, ⟨p, p.after (encode text)⟩⟩) =
        .ok (layItem item s n (.tok kind text)) := by
      have sliced : slice full (Ev.startOffset (.tok ⟨kind, ⟨p, p.after (encode text)⟩⟩))
          (min (p.after (encode text)).offset full.length) = .ok text :=
        slice_eq whole offset.symm (Position.offset_after p (encode text))
      have starts : (Ev.tok ⟨kind, ⟨p, p.after (encode text)⟩⟩).startLine = p.line := rfl
      simp only [formatEvent, follows.gap starts, follows.kind]
      rw [sliced]
      rfl
    refine Outcome.bind_eq_ok.mpr ⟨_, first, ?_⟩
    refine @ih (front ++ encode text) _ _ _ (by rw [whole, List.append_assoc]) ?_ ⟨rfl, rfl, ?_⟩
    · rw [List.length_append, offset, Position.offset_after]
    · rintro e ⟨⟩
      rfl

/-- The formatter lays out the items that the source is lexed as. -/
theorem formatSource_lexed {src : String}
    (lexed : Lexed parseFloat ⟨1, 1, 0⟩ 0 (asBytes src) placed) :
    formatSource parseFloat src =
      .ok (String.ofList (finish (layItems none {} (placed.map Placed.spaced)))) := by
  have read := lexWithComments_iff_lexed.mpr ⟨placed, lexed, rfl, rfl⟩
  have laid := formatEvents_lexed {} lexed (List.nil_append _).symm rfl
    (⟨rfl, rfl, by simp⟩ : Follows ⟨1, 1, 0⟩ 0 none none)
  rw [← events_lexed lexed] at laid
  rw [formatSource, read]
  exact Outcome.bind_eq_ok.mpr ⟨_, rfl, Outcome.bind_eq_ok.mpr ⟨_, laid, rfl⟩⟩

end Events

end TptProto.Fmt

/-! What the formatter writes for one item. -/

namespace TptProto.Fmt

open TptProto.Foundation TptProto.Language

section Tidy

/-- The text does not end in a blank. -/
def Tidy (text : List Char) : Prop := ∀ c ∈ text.getLast?, isSpace c = false

theorem tidy_concat {text : List Char} {c : Char} : Tidy (text ++ [c]) ↔ isSpace c = false := by
  simp [Tidy]

theorem Tidy.append {front text : List Char} (filled : text ≠ []) (tidy : Tidy text) :
    Tidy (front ++ text) := by
  unfold Tidy at *
  rwa [List.getLast?_append_of_ne_nil front filled]

theorem rdropWhile_tidy {text : List Char} (tidy : Tidy text) : text.rdropWhile isSpace = text := by
  rw [List.rdropWhile_eq_self_iff]
  intro filled blank
  rw [tidy _ (List.getLast?_eq_some_getLast filled)] at blank
  cases blank

/-- Blanks behind a tidy text are dropped. -/
theorem rdropWhile_blanks {front : List Char} (tidy : Tidy front) (n : Nat) :
    (front ++ List.replicate n ' ').rdropWhile isSpace = front := by
  induction n with
  | zero => rw [List.replicate_zero, List.append_nil, rdropWhile_tidy tidy]
  | succ n ih =>
    rw [List.replicate_succ', ← List.append_assoc, List.rdropWhile_concat_pos _ _ _ rfl, ih]

end Tidy

section Standing

/-- Where the formatter stands between two items: behind so much text, on a line that goes on
behind the last token, or at the begin of a line. -/
def standing (out : List Char) (line : Option TokenKind) (indent : Nat) : State :=
  ⟨out, indent, line.isNone, line = some .lBrace⟩

/-- The line behind a token. -/
def lineAfter (kind : TokenKind) : Option TokenKind :=
  if kind = .semicolon ∨ kind = .rBrace then none else some kind

def pad (indent : Nat) : List Char := List.replicate (2 * indent) ' '

def gapText (gap : Bool) : List Char := if gap then ['\n'] else []

/-- What is written in front of a token. -/
def tokenLead (line : Option TokenKind) (indent : Nat) (gap : Bool) (prev : Option TokenKind)
    (kind : TokenKind) : List Char :=
  match line with
  | none => gapText gap ++ pad (if kind = .rBrace then indent - 1 else indent)
  | some open' =>
    if open' = .lBrace then
      if kind = .rBrace then [] else '\n' :: (gapText gap ++ pad (indent + 1))
    else if kind = .rBrace then '\n' :: (gapText gap ++ pad (indent - 1))
    else if needSpace prev kind then [' '] else []

def tokenTail (kind : TokenKind) : List Char :=
  if kind = .semicolon ∨ kind = .rBrace then ['\n'] else []

/-- The indentation behind a token. -/
def indentAfter (line : Option TokenKind) (indent : Nat) (kind : TokenKind) : Nat :=
  if line = some .lBrace then (if kind = .rBrace then indent else indent + 1)
  else if kind = .rBrace then indent - 1 else indent

variable {out text : List Char} {line : Option TokenKind} {indent : Nat} {gap : Bool}
variable {prev : Option TokenKind} {kind : TokenKind} {bol brace : Bool}

private theorem newline_tidy (tidy : Tidy out) :
    (State.mk out indent bol brace).newline = ⟨out ++ ['\n'], indent, true, brace⟩ := by
  rw [State.newline, rdropWhile_tidy tidy]

private theorem push_gap : (if gap then (State.mk out indent bol brace).push ['\n']
    else ⟨out, indent, bol, brace⟩) = ⟨out ++ gapText gap, indent, bol, brace⟩ := by
  cases gap with
  | false => simp [gapText]
  | true => rfl

private theorem ensureIndent_bol :
    (State.mk out indent true brace).ensureIndent = ⟨out ++ pad indent, indent, false, brace⟩ := rfl

private theorem placeToken_standing (tidy : Tidy out)
    (apart : ¬ (kind = .rBrace ∧ line = some .lBrace)) :
    (placeToken (standing out line indent) gap prev kind).ensureIndent =
      ⟨out ++ tokenLead line indent gap prev kind, indentAfter line indent kind, false, false⟩ := by
  by_cases close : kind = .rBrace
  · subst close
    have noBrace : line ≠ some .lBrace := fun brace => apart ⟨rfl, brace⟩
    cases line with
    | none =>
      simp only [placeToken, standing, Option.isNone_none, if_true, push_gap]
      rw [ensureIndent_bol]
      simp [tokenLead, indentAfter]
    | some open' =>
      have other : open' ≠ .lBrace := fun brace => noBrace (by rw [brace])
      simp only [placeToken, standing, Option.isNone_some, Bool.false_eq_true, if_true, if_false,
        newline_tidy tidy, push_gap]
      rw [ensureIndent_bol]
      simp [tokenLead, indentAfter, other]
  · unfold placeToken
    rw [if_neg close]
    cases line with
    | none =>
      cases gap with
      | false => simp [standing, ensureIndent_bol, tokenLead, gapText, indentAfter, close]
      | true => simp [standing, ensureIndent_bol, State.push, tokenLead, gapText, indentAfter, close]
    | some open' =>
      by_cases brace : open' = .lBrace
      · subst brace
        have opened : (standing out (some .lBrace) indent).openBody.newline =
            ⟨out ++ ['\n'], indent + 1, true, false⟩ := newline_tidy tidy
        have inline : (standing out (some .lBrace) indent).braceOpenInline = true := rfl
        simp only [if_pos inline, opened]
        cases gap with
        | false => simp [ensureIndent_bol, tokenLead, gapText, indentAfter, close]
        | true => simp [ensureIndent_bol, State.push, tokenLead, gapText, indentAfter, close]
      · have noBrace : (standing out (some open') indent).braceOpenInline = false := by
          simp [standing, brace]
        simp only [noBrace, Bool.false_eq_true, if_false]
        cases spaced : needSpace prev kind with
        | false => simp [standing, State.ensureIndent, State.indentIfBol, tokenLead, indentAfter,
            close, brace, spaced]
        | true => simp [standing, State.ensureIndent, State.indentIfBol, State.push, tokenLead,
            indentAfter, close, brace, spaced]

theorem formatToken_standing (tidy : Tidy out) (closed : Tidy text) (filled : text ≠ [])
    (brace : kind = .rBrace → text = ['\x7d']) :
    formatToken (standing out line indent) gap prev kind text =
      standing (out ++ tokenLead line indent gap prev kind ++ text ++ tokenTail kind)
        (lineAfter kind) (indentAfter line indent kind) := by
  by_cases inside : kind = .rBrace ∧ line = some .lBrace
  · obtain ⟨rfl, rfl⟩ := inside
    obtain rfl := brace rfl
    rw [formatToken, if_pos ⟨rfl, by simp [standing]⟩]
    change (State.mk (out ++ ['\x7d']) indent false false).newline = _
    rw [newline_tidy (closed.append filled)]
    simp [standing, tokenLead, tokenTail, lineAfter, indentAfter]
  · rw [formatToken, if_neg (by simpa [standing] using inside), placeToken_standing tidy inside]
    by_cases ends : kind = .semicolon ∨ kind = .rBrace
    · have noBrace : kind ≠ .lBrace := by rcases ends with rfl | rfl <;> simp
      simp only [if_neg noBrace, if_pos ends, State.push]
      rw [newline_tidy (closed.append filled)]
      simp [standing, lineAfter, tokenTail, ends]
    · simp only [if_neg ends]
      by_cases opens : kind = .lBrace
      · subst opens
        simp [standing, State.push, lineAfter, tokenTail]
      · simp [standing, State.push, lineAfter, tokenTail, ends, opens]

/-- What is written in front of a comment that gets a line of its own. -/
def commentLead (line : Option TokenKind) (gap : Bool) : List Char :=
  (if line.isSome then ['\n'] else []) ++ gapText gap

/-- The indentation of and behind such a comment. -/
def commentIndent (line : Option TokenKind) (indent : Nat) : Nat :=
  if line = some .lBrace then indent + 1 else indent

/-- A line of a block comment, as it is written anew. -/
def row (indent : Nat) (text : List Char) : List Char :=
  if trimEnd text = [] then [] else pad indent ++ trimEnd text

private theorem trimEnd_tidy (text : List Char) : Tidy (trimEnd text) := by
  intro c last
  rw [Option.mem_def] at last
  by_contra blank
  rw [Bool.not_eq_false] at blank
  have white : isWhitespace c = true := by
    simp only [isSpace, Bool.or_eq_true, decide_eq_true_eq] at blank
    rcases blank with rfl | rfl
    · decide
    · decide
  have filled : trimEnd text ≠ [] := fun none => by simp [none] at last
  rw [List.getLast?_eq_some_getLast filled] at last
  have stops := List.rdropWhile_last_not isWhitespace text filled
  rw [← Option.some.inj last] at white
  exact stops white

private theorem row_written (tidy : Tidy out) (line : List Char) :
    (((State.mk out indent true brace).ensureIndent).push (trimEnd line)).newline =
      ⟨out ++ row indent line ++ ['\n'], indent, true, brace⟩ := by
  rw [ensureIndent_bol]
  by_cases empty : trimEnd line = []
  · rw [row, if_pos empty, empty, List.append_nil]
    simp only [State.push, List.append_nil, State.newline, pad, rdropWhile_blanks tidy]
  · rw [row, if_neg empty, State.push, newline_tidy ((trimEnd_tidy line).append empty)]
    simp

private theorem rows_written (all : List (List Char)) (s : State) (placed : s.atBol = false) :
    (all.foldl (fun s line => ((if s.atBol then s else s.newline).ensureIndent).push (trimEnd line))
      s).newline = all.foldl (fun s line => ((s.ensureIndent).push (trimEnd line)).newline) s.newline := by
  induction all generalizing s with
  | nil => rfl
  | cons line rest ih =>
    rw [List.foldl_cons, List.foldl_cons, ih _ rfl]
    simp [placed]

private theorem rows_flat (all : List (List Char)) (tidy : Tidy out) :
    all.foldl (fun s line => ((s.ensureIndent).push (trimEnd line)).newline)
        (State.mk out indent true brace) =
      ⟨out ++ all.flatMap fun line => row indent line ++ ['\n'], indent, true, brace⟩ := by
  induction all generalizing out with
  | nil => simp
  | cons line rest ih =>
    rw [List.foldl_cons, row_written tidy, ih (tidy_concat.mpr rfl)]
    simp

private theorem commentPlace (tidy : Tidy out) :
    (if gap then ((if !(standing out line indent).atBol || (standing out line indent).braceOpenInline
        then (standing out line indent).openBody.newline else standing out line indent)).push ['\n']
      else (if !(standing out line indent).atBol || (standing out line indent).braceOpenInline
        then (standing out line indent).openBody.newline else standing out line indent)) =
      ⟨out ++ commentLead line gap, commentIndent line indent, true, false⟩ := by
  cases line with
  | none => 
    rw [show standing out none indent = ⟨out, indent, true, false⟩ from rfl]
    simp only [Bool.not_true, Bool.or_false, Bool.false_eq_true, if_false, push_gap]
    simp [commentLead, commentIndent]
  | some open' => 
    have opened : (standing out (some open') indent).openBody.newline =
        ⟨out ++ ['\n'], commentIndent (some open') indent, true, false⟩ := by
      by_cases brace : open' = .lBrace
      · subst brace
        exact newline_tidy tidy
      · have same : (standing out (some open') indent).openBody = standing out (some open') indent := by
          simp [standing, State.openBody, brace]
        rw [same, standing, newline_tidy tidy]
        simp [commentIndent, brace]
    rw [if_pos (show (!(standing out (some open') indent).atBol || _) = true from rfl), opened, push_gap]
    simp [commentLead]

private theorem commentLead_tidy (tidy : Tidy out) : Tidy (out ++ commentLead line gap) := by
  have gapped {out : List Char} (tidy : Tidy out) : Tidy (out ++ gapText gap) := by
    cases gap with
    | false => simpa [gapText] using tidy
    | true => exact tidy_concat.mpr rfl
  rw [commentLead, ← List.append_assoc]
  refine gapped ?_
  cases line with
  | none => simpa using tidy
  | some open' => exact tidy_concat.mpr rfl

theorem formatComment_apart {trailing : Bool} (tidy : Tidy out) (apart : trailing = true → line = none) :
    formatComment (standing out line indent) trailing gap text =
      standing (out ++ commentLead line gap ++
        (if "/*".toList.isPrefixOf (trimStart text) then
          '\n' :: (lines text).flatMap fun l => row (commentIndent line indent) l ++ ['\n']
        else row (commentIndent line indent) (trimStart text) ++ ['\n'])) none (commentIndent line indent) := by
  have notBeside : (trailing && !(standing out line indent).atBol) = false := by
    cases trailing with
    | false => rfl
    | true =>
      rw [apart rfl]
      rfl
  have placed := @commentPlace out line indent gap tidy
  have tidy' := @commentLead_tidy out line gap tidy
  unfold formatComment
  rw [notBeside]
  simp only [Bool.false_eq_true, if_false, placed]
  split
  · rw [blockLines, rows_written _ _ rfl]
    have blank : ((State.mk (out ++ commentLead line gap) (commentIndent line indent) true
        false).ensureIndent).newline =
        ⟨out ++ commentLead line gap ++ ['\n'], commentIndent line indent, true, false⟩ := by
      rw [ensureIndent_bol]
      simp only [State.newline, pad, rdropWhile_blanks tidy']
    rw [blank, rows_flat _ (tidy_concat.mpr rfl)]
    simp [standing]
  · rw [trim, row_written tidy']
    simp [standing]

end Standing

end TptProto.Fmt
