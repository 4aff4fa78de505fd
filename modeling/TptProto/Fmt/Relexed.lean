import TptProto.Fmt.Layout

/-! What the formatter writes is lexed as what it has read. -/

namespace TptProto.Fmt

open TptProto.Foundation TptProto.Language
open TptProto.Core (asBytes asBytes_eq_encode encode encode_nil encode_cons encode_append encode_cut
  toNat_byteChar byteChar)

section Tokens

variable {parseFloat : String → Option UInt64} {kind : TokenKind} {word behind other : List UInt8}

/-- A kind of token that is one byte. -/
def isPunctuation : TokenKind → Bool
  | .ident _ | .int _ | .float _ | .str _ => false
  | _ => true

private theorem blank_ends {b : UInt8} (blank : isBlank b = true) (rest : List UInt8) (pointed : Bool) :
    NumberEnds pointed (b :: rest) := by
  rintro c ⟨⟩
  simp only [isBlank, Bool.or_eq_true, decide_eq_true_eq] at blank
  rcases blank with ((rfl | rfl) | rfl) | rfl <;>
    exact ⟨by decide, by decide, by decide, fun point => absurd point (by decide)⟩

private theorem wordPart_solid {b : UInt8} (part : isWordPart b = true) : isBlank b = false := by
  cases blank : isBlank b with
  | false => rfl
  | true =>
    have ends := (blank_ends blank [] true b rfl).1
    rw [part] at ends
    cases ends

/-- No blank is in a numeral. -/
private theorem numberWord_solid {sawDot sawExp sign float : Bool} {bytes : List UInt8}
    (read : numberWord sawDot sawExp sign bytes = (float, word, behind)) :
    ∀ b ∈ word, isBlank b = false := by
  induction bytes generalizing sawDot sawExp sign word with
  | nil =>
    cases read
    exact fun _ member => by cases member
  | cons b rest ih =>
    cases blank : isBlank b with
    | true =>
      rw [numberWord_stops (blank_ends blank rest _)] at read
      cases read
      exact fun _ member => by cases member
    | false =>
      have goesOn {sawDot' sawExp' sign' : Bool}
          (read : putFirst b (numberWord sawDot' sawExp' sign' rest) = (float, word, behind)) :
          ∀ b ∈ word, isBlank b = false := by
        cases inner : numberWord sawDot' sawExp' sign' rest with
        | mk float' parts =>
          rw [inner] at read
          cases read
          exact List.forall_mem_cons.mpr ⟨blank, ih inner⟩
      unfold numberWord at read
      split at read
      · exact goesOn read
      split at read
      · exact goesOn read
      split at read
      · exact goesOn read
      split at read
      · exact goesOn read
      · cases read
        exact fun _ member => by cases member

private theorem hexWord_solid {bytes : List UInt8} (read : hexWord? bytes = some (word, behind)) :
    ∀ b ∈ word, isBlank b = false := by
  unfold hexWord? at read
  split at read
  · rename_i b c rest
    split at read
    · rename_i hex
      rw [List.span_eq_takeWhile_dropWhile] at read
      cases read
      refine List.forall_mem_cons.mpr ⟨by rw [hex.1]; decide, List.forall_mem_cons.mpr ⟨?_, ?_⟩⟩
      · rcases hex.2 with rfl | rfl <;> decide
      · intro d member
        have digit := List.mem_takeWhile_imp member
        cases part : isWordPart d with
        | true => exact wordPart_solid part
        | false =>
          rw [hexDigit_wordPart part] at digit
          cases digit
    · cases read
  · cases read

private theorem lexNumber_solid {cursor after : Cursor}
    (read : lexNumber parseFloat cursor = .ok (kind, after)) :
    ∃ word, cursor.rest = word ++ after.rest ∧ ∀ b ∈ word, isBlank b = false := by
  cases hex : hexWord? cursor.rest with
  | some parts =>
    rw [lexNumber_hex hex] at read
    obtain ⟨_, _, same⟩ := Outcome.bind_eq_ok.mp read
    cases same
    exact ⟨parts.1, (hexWord_local hex).1, hexWord_solid hex⟩
  | none =>
    cases spanned : numberWord false false false cursor.rest with
    | mk float parts =>
      rw [lexNumber_decimal hex spanned] at read
      obtain ⟨_, _, same⟩ := Outcome.bind_eq_ok.mp read
      cases same
      exact ⟨parts.1, (numberWord_local spanned).1, numberWord_solid spanned⟩

/-- A token's text does not end in a blank, and a punctuation mark is its byte. -/
theorem TokenAt.shape (found : TokenAt parseFloat kind word behind) :
    (∃ front last, word = front ++ [last] ∧ isBlank last = false) ∧
      (isPunctuation kind = true → ∃ b, word = [b] ∧ simple? b = some kind) := by
  obtain ⟨b, tail, rfl, read⟩ := found
  have whole : ∃ front last, b :: tail = front ++ [last] :=
    ⟨_, _, (List.dropLast_concat_getLast (List.cons_ne_nil b tail)).symm⟩
  have solid (all : ∀ c ∈ b :: tail, isBlank c = false) :
      ∃ front last, b :: tail = front ++ [last] ∧ isBlank last = false := by
    obtain ⟨front, last, same⟩ := whole
    exact ⟨front, last, same, all last (by rw [same]; simp)⟩
  have here := read ⟨0, 0, 0⟩
  unfold nextToken at here
  split at here
  · rename_i kind' simple
    obtain ⟨rfl, moved⟩ := Prod.mk.inj (Outcome.ok.inj here)
    have empty : tail = [] := by
      have rest : tail ++ behind = [] ++ behind := congrArg Cursor.rest moved
      exact List.append_cancel_right rest
    subst empty
    refine ⟨⟨[], b, rfl, ?_⟩, fun _ => ⟨b, rfl, simple⟩⟩
    cases blank : isBlank b with
    | false => rfl
    | true =>
      simp only [isBlank, Bool.or_eq_true, decide_eq_true_eq] at blank
      rcases blank with ((rfl | rfl) | rfl) | rfl <;> cases simple
  split at here
  · rename_i quote
    obtain ⟨⟨text, after⟩, lexed, same⟩ := Outcome.bind_eq_ok.mp here
    obtain ⟨rfl, rfl⟩ := Prod.mk.inj (Outcome.ok.inj same)
    obtain ⟨front, consumes, _⟩ := lexString_local rfl lexed
    refine ⟨⟨b :: front, b, List.append_cancel_right consumes.1, ?_⟩, fun mark => by cases mark⟩
    rcases quote with rfl | rfl
    · decide
    · decide
  split at here
  · cases spanned : (b :: tail ++ behind).span isWordPart with
    | mk front rest =>
      rw [spanned] at here
      obtain ⟨rfl, moved⟩ := Prod.mk.inj (Outcome.ok.inj here)
      obtain rfl : rest = behind := congrArg Cursor.rest moved
      have split := span_split spanned
      obtain rfl : b :: tail = front := List.append_cancel_right split
      exact ⟨solid fun c member => wordPart_solid ((span_eq_iff.mp spanned).1 c member), fun mark => by cases mark⟩
  split at here
  · rename_i digit
    obtain ⟨_, _, _, number, _⟩ := lexNumber_local rfl digit here
    obtain ⟨front, split, plain⟩ := lexNumber_solid here
    refine ⟨solid ?_, ?_⟩
    · rwa [show b :: tail = front from List.append_cancel_right split]
    · intro mark
      cases kind with
      | int | float => cases mark
      | _ => cases number
  · cases here

end Tokens

section Ends

variable {kind next : TokenKind} {word rest : List UInt8}

private theorem ends_nothing : Ends kind word [] := by
  cases kind <;> first | trivial | (intro b none; cases none)

private theorem ends_blank {b : UInt8} (blank : isBlank b = true) : Ends kind word (b :: rest) := by
  cases kind with
  | ident _ =>
    rintro c ⟨⟩
    exact (blank_ends blank rest true b rfl).1
  | int _ | float _ => exact blank_ends blank rest _
  | _ => trivial

private theorem mark_plain {b : UInt8} (mark : simple? b = some next) :
    isWordPart b = false ∧ b ≠ ascii '+' ∧ b ≠ ascii '-' ∧ (b = ascii '.' → next = .dot) := by
  have byte {c : Char} (same : byteChar b = c) : b = ascii c := by
    rw [← same, ascii, toNat_byteChar, UInt8.ofNat_toNat]
  unfold simple? at mark
  split at mark
  case h_14 => cases mark
  all_goals
    rename_i same
    rw [byte same]
    cases mark
    exact ⟨by decide, by decide, by decide, by decide⟩

/-- A punctuation mark ends the token in front of it, unless it is the point behind an integer. -/
private theorem ends_mark {b : UInt8} (mark : simple? b = some next)
    (noPoint : ∀ v, kind = .int v → next ≠ .dot) : Ends kind word (b :: rest) := by
  obtain ⟨plain, plus, minus, point⟩ := mark_plain mark
  cases kind with
  | ident _ =>
    rintro c ⟨⟩
    exact plain
  | int v =>
    rintro c ⟨⟩
    exact ⟨plain, plus, minus, fun dot => (noPoint v rfl (point dot)).elim⟩
  | float _ =>
    rintro c ⟨⟩
    exact ⟨plain, plus, minus, fun _ => rfl⟩
  | _ => trivial

/-- Where no space is put between two tokens, the first is punctuation or the second is. -/
private theorem punctuation_of_close (close : needSpace (some kind) next = false) :
    isPunctuation kind = true ∨ isPunctuation next = true := by
  cases next with
  | ident | int | float | str =>
    cases kind with
    | ident | int | float | str => cases close
    | _ => exact .inl rfl
  | _ => exact .inr rfl

private theorem ends_punctuation (mark : isPunctuation kind = true) : Ends kind word rest := by
  cases kind with
  | ident | int | float | str => cases mark
  | _ => trivial

end Ends

section Texts

variable {parseFloat : String → Option UInt64} {kind : TokenKind} {text : List Char} {behind other : List UInt8}

private theorem TokenAt.relocate {word : List UInt8} (found : TokenAt parseFloat kind word behind)
    (ends : Ends kind word other) : TokenAt parseFloat kind word other := by
  obtain ⟨b, tail, rfl, read⟩ := found
  obtain ⟨front, last, consumes, _, again⟩ :=
    @nextToken_local _ _ ⟨⟨0, 0, 0⟩, b :: tail ++ behind⟩ _ _ _ rfl (read _)
  have same : b :: tail = front ++ [last] := List.append_cancel_right consumes.1
  rw [same] at ends ⊢
  exact again other (.inr ends)

private theorem encode_space {c : Char} (space : isSpace c = true) :
    encode [c] = [ascii c] ∧ isBlank (ascii c) = true := by
  simp only [isSpace, Bool.or_eq_true, decide_eq_true_eq] at space
  rcases space with rfl | rfl
  · exact ⟨rfl, by decide⟩
  · exact ⟨rfl, by decide⟩

/-- The text of a token is no blank line, and does not end in a blank. -/
private theorem TokenAt.tidy (found : TokenAt parseFloat kind (encode text) behind) :
    Tidy text ∧ text ≠ [] := by
  obtain ⟨⟨front, last, whole, solid⟩, _⟩ := TokenAt.shape found
  constructor
  · intro c ends
    obtain ⟨init, rfl⟩ := List.getLast?_eq_some_iff.mp ends
    cases space : isSpace c with
    | false => rfl
    | true =>
      obtain ⟨single, blank⟩ := encode_space space
      rw [encode_append, single] at whole
      obtain ⟨_, same⟩ := List.append_inj' whole rfl
      rw [← List.cons.inj same |>.1, blank] at solid
      cases solid
  · rintro rfl
    cases front <;> cases whole

private theorem TokenAt.brace (found : TokenAt parseFloat .rBrace (encode text) behind) : text = ['\x7d'] := by
  obtain ⟨_, mark⟩ := TokenAt.shape found
  obtain ⟨b, whole, simple⟩ := mark rfl
  have here : b = ascii '\x7d' := by
    have never : simple? b = some .rBrace → byteChar b = '\x7d' := by
      unfold simple?
      split
      all_goals first | (intro; assumption) | nofun
    rw [← never simple, ascii, toNat_byteChar, UInt8.ofNat_toNat]
  rw [here] at whole
  exact TptProto.Core.encode_inj whole

end Texts

section Comments

variable {text : List Char} {rest w w' x : List UInt8} {depth : Nat}

/-- The text without its white space. -/
def solidText (text : List Char) : List Char := text.filter fun c => !isWhitespace c

theorem solidText_append (first second : List Char) :
    solidText (first ++ second) = solidText first ++ solidText second :=
  List.filter_append first second

theorem solidText_white (white : ∀ c ∈ text, isWhitespace c = true) : solidText text = [] := by
  rw [solidText, List.filter_eq_nil_iff]
  intro c inside
  simp [white c inside]

theorem solidText_rdropWhile {drop : Char → Bool} (only : ∀ c, drop c = true → isWhitespace c = true) :
    solidText (text.rdropWhile drop) = solidText text := by
  have dropped : solidText (text.rtakeWhile drop) = [] :=
    solidText_white fun c inside => only c (List.mem_rtakeWhile_imp inside)
  have whole := congrArg solidText (@List.rdropWhile_append_rtakeWhile _ drop text)
  rwa [solidText_append, dropped, List.append_nil] at whole

/-- Nothing behind the comment belongs to it: it is a line comment, or a block comment that is closed. -/
def Ended (text : List Char) : Prop :=
  "//".toList <+: text ∨ ∀ behind, comment? (encode text ++ behind) = some (encode text, behind)

/-- A line comment goes on to the end of its line. -/
private theorem line_relexed (line : "//".toList <+: text) (single : ascii '\n' ∉ encode text) :
    comment? (encode text ++ ascii '\n' :: rest) = some (encode text, ascii '\n' :: rest) := by
  obtain ⟨tail, rfl⟩ := line
  have whole : encode ("//".toList ++ tail) = ascii '/' :: ascii '/' :: encode tail := by
    rw [encode_append]
    rfl
  have spanned : (encode ("//".toList ++ tail) ++ ascii '\n' :: rest).span (fun b => decide (b ≠ ascii '\n')) =
      (encode ("//".toList ++ tail), ascii '\n' :: rest) := by
    refine span_eq_iff.mpr ⟨fun b inside => ?_, ?_⟩
    · simp only [decide_eq_true_eq]
      rintro rfl
      exact single inside
    · rintro b ⟨⟩
      decide
  have lined : comment? (encode ("//".toList ++ tail) ++ ascii '\n' :: rest) =
      some (lineComment (encode ("//".toList ++ tail) ++ ascii '\n' :: rest)) := by
    rw [whole]
    rfl
  rw [lined, lineComment, spanned]

/-- The bytes close the comments that are open, and end there. -/
inductive Closes : Nat → List UInt8 → Prop where
  | done : Closes 0 []
  | close {depth : Nat} {w : List UInt8} (rest : Closes depth w) :
      Closes (depth + 1) (ascii '*' :: ascii '/' :: w)
  | opens {depth : Nat} {w : List UInt8} (rest : Closes (depth + 2) w) :
      Closes (depth + 1) (ascii '/' :: ascii '*' :: w)
  | other {depth : Nat} {b c : UInt8} {w : List UInt8} (noClose : ¬ (b = ascii '*' ∧ c = ascii '/'))
      (noOpen : ¬ (b = ascii '/' ∧ c = ascii '*')) (rest : Closes (depth + 1) (c :: w)) :
      Closes (depth + 1) (b :: c :: w)

theorem Closes.scanned (closes : Closes depth w) : blockComment depth (w ++ x) = (w, x) := by
  induction closes with
  | done => rw [List.nil_append, blockComment]
  | close _ ih =>
    rw [List.cons_append, List.cons_append, blockComment, if_pos ⟨rfl, rfl⟩, ih]
  | opens _ ih =>
    rw [List.cons_append, List.cons_append, blockComment, if_neg (by decide), if_pos ⟨rfl, rfl⟩, ih]
  | other noClose noOpen _ ih =>
    rw [List.cons_append] at ih
    rw [List.cons_append, List.cons_append, blockComment, if_neg noClose, if_neg noOpen, ih]

/-- A comment that is left behind has been closed. -/
theorem closes_of_scanned {bytes : List UInt8} (read : blockComment depth bytes = (w, x)) (more : x ≠ []) :
    Closes depth w := by
  fun_induction blockComment depth bytes generalizing w x with
  | case1 rest =>
    cases read
    exact .done
  | case2 | case3 =>
    cases read
    exact (more rfl).elim
  | case4 depth b c rest closes inner behind spanned ih =>
    cases read
    rw [closes.1, closes.2]
    exact .close (ih spanned more)
  | case5 depth b c rest _ opens inner behind spanned ih =>
    cases read
    rw [opens.1, opens.2]
    exact .opens (ih spanned more)
  | case6 depth b c rest noClose noOpen inner behind spanned ih =>
    cases read
    have closed := ih spanned more
    obtain ⟨whole, _⟩ := blockComment_split spanned
    cases inner with
    | nil => cases closed
    | cons d tail =>
      obtain ⟨rfl, _⟩ := List.cons.inj whole
      exact .other noClose noOpen closed

/-- A byte that neither opens nor closes a comment. -/
def Neutral (b : UInt8) : Prop := b ≠ ascii '*' ∧ b ≠ ascii '/'

/-- The bytes with other white space in the place of some. -/
inductive Reflow : List UInt8 → List UInt8 → Prop where
  | nil : Reflow [] []
  | keep (b : UInt8) {s t : List UInt8} (rest : Reflow s t) : Reflow (b :: s) (b :: t)
  | gap {g g' s t : List UInt8} (filled : g ≠ []) (filled' : g' ≠ []) (white : ∀ b ∈ g, Neutral b)
      (white' : ∀ b ∈ g', Neutral b) (rest : Reflow s t) : Reflow (g ++ s) (g' ++ t)

theorem Reflow.keepAll (word : List UInt8) (rest : Reflow w w') : Reflow (word ++ w) (word ++ w') := by
  induction word with
  | nil => exact rest
  | cons b tail ih => exact .keep b ih

private theorem special_star : ¬ Neutral (ascii '*') := fun neutral => neutral.1 rfl

private theorem special_slash : ¬ Neutral (ascii '/') := fun neutral => neutral.2 rfl

theorem Reflow.symm (reflow : Reflow w w') : Reflow w' w := by
  induction reflow with
  | nil => exact .nil
  | keep b _ ih => exact .keep b ih
  | gap filled filled' white white' _ ih => exact .gap filled' filled white' white ih

/-- A delimiter is kept. -/
private theorem Reflow.delimiter {b : UInt8} (reflow : Reflow (b :: w) w') (special : ¬ Neutral b) :
    ∃ tail, w' = b :: tail ∧ Reflow w tail := by
  generalize whole : b :: w = s at reflow
  cases reflow with
  | nil => cases whole
  | keep c rest =>
    cases whole
    exact ⟨_, rfl, rest⟩
  | @gap g g' s t filled _ white _ _ =>
    cases g with
    | nil => exact (filled rfl).elim
    | cons c tail =>
      obtain ⟨rfl, _⟩ := List.cons.inj whole
      exact (special (white b List.mem_cons_self)).elim

private theorem Closes.behind_gap {g : List UInt8} (white : ∀ b ∈ g, Neutral b)
    (closes : Closes (depth + 1) w) : Closes (depth + 1) (g ++ w) := by
  induction g with
  | nil => exact closes
  | cons b tail ih =>
    rw [List.forall_mem_cons] at white
    have rest := ih white.2
    rw [List.cons_append]
    generalize tail ++ w = s at rest
    cases s with
    | nil => cases rest
    | cons c s => exact .other (fun same => white.1.1 same.1) (fun same => white.1.2 same.1) rest

/-- White space does not matter for where a comment is closed. -/
theorem Closes.reflow (closes : Closes depth w) (reflow : Reflow w w') : Closes depth w' := by
  induction closes generalizing w' with
  | done =>
    generalize whole : ([] : List UInt8) = s at reflow
    cases reflow with
    | nil => exact .done
    | keep => cases whole
    | @gap g _ _ _ filled =>
      cases g with
      | nil => exact (filled rfl).elim
      | cons => cases whole
  | close _ ih =>
    obtain ⟨first, rfl, star⟩ := reflow.delimiter special_star
    obtain ⟨second, rfl, slash⟩ := star.delimiter special_slash
    exact .close (ih slash)
  | opens _ ih =>
    obtain ⟨first, rfl, slash⟩ := reflow.delimiter special_slash
    obtain ⟨second, rfl, star⟩ := slash.delimiter special_star
    exact .opens (ih star)
  | @other depth b c w noClose noOpen _ ih =>
    generalize whole : b :: c :: w = s at reflow
    cases reflow with
    | nil => cases whole
    | @keep _ _ t rest =>
      obtain ⟨rfl, rfl⟩ := List.cons.inj whole
      have closed := ih rest
      cases t with
      | nil => cases closed
      | cons e t =>
        have kept (special : ¬ Neutral e) : e = c := by
          obtain ⟨tail, same, _⟩ := rest.symm.delimiter special
          exact (List.cons.inj same).1.symm
        refine .other (fun same => ?_) (fun same => ?_) closed
        · exact noClose ⟨same.1, (kept (same.2 ▸ special_slash)) ▸ same.2⟩
        · exact noOpen ⟨same.1, (kept (same.2 ▸ special_star)) ▸ same.2⟩
    | @gap g g' s t filled filled' white white' rest =>
      cases g with
      | nil => exact (filled rfl).elim
      | cons d g =>
        rw [List.cons_append] at whole
        obtain ⟨rfl, tails⟩ := List.cons.inj whole
        cases g with
        | nil =>
          rw [List.nil_append] at tails
          rw [← tails] at rest
          exact (ih rest).behind_gap white'
        | cons d g =>
          rw [List.forall_mem_cons] at white
          refine ih ?_
          rw [tails]
          exact .gap (List.cons_ne_nil d g) filled' white.2 white' rest

end Comments

section Rows

variable {text : List Char} {indent : Nat} {line : Option TokenKind}

/-- The first line of a text, and the rest behind the end of the line. -/
theorem lines_cases (filled : text ≠ []) :
    lines text = [text] ∨ ∃ first ending rest, text = first ++ ending ++ rest ∧ ending ≠ [] ∧
      (∀ c ∈ ending, isWhitespace c = true) ∧ lines text = first :: lines rest := by
  fun_induction lines text with
  | case1 => exact (filled rfl).elim
  | case2 rest => exact .inr ⟨[], ['\n'], rest, rfl, by simp, List.all_eq_true.mp rfl, rfl⟩
  | case3 rest => exact .inr ⟨[], ['\r', '\n'], rest, rfl, by simp, List.all_eq_true.mp rfl, rfl⟩
  | case4 c rest notEnd notEnds none ih =>
    cases rest with
    | nil => exact .inl rfl
    | cons d rest =>
      rcases ih (List.cons_ne_nil d rest) with single | ⟨_, _, _, _, _, _, several⟩
      · rw [none] at single
        cases single
      · rw [none] at several
        cases several
  | case5 c rest notEnd notEnds first more several ih =>
    cases rest with
    | nil => cases several
    | cons d rest =>
      rcases ih (List.cons_ne_nil d rest) with single | ⟨first', ending, rest', whole, ends, white, split⟩
      · rw [several] at single
        obtain ⟨rfl, rfl⟩ := List.cons.inj single
        exact .inl rfl
      · rw [several] at split
        obtain ⟨rfl, rfl⟩ := List.cons.inj split
        exact .inr ⟨c :: first, ending, rest', by rw [whole]; rfl, ends, white, rfl⟩

/-- The lines of a block comment as they are written. -/
def rowsOf (indent : Nat) (text : List Char) : List Char :=
  (lines text).flatMap fun l => row indent l ++ ['\n']

private theorem neutral_white {gap : List Char} (white : ∀ c ∈ gap, isWhitespace c = true) :
    ∀ b ∈ encode gap, Neutral b := by
  intro b inside
  obtain ⟨before, behind, split⟩ := List.append_of_mem inside
  constructor
  · rintro rfl
    obtain ⟨_, _, whole, _, _⟩ := encode_cut (by decide) split
    have star := white (byteChar (ascii '*')) (by rw [whole]; simp)
    exact absurd star (by decide)
  · rintro rfl
    obtain ⟨_, _, whole, _, _⟩ := encode_cut (by decide) split
    have slash := white (byteChar (ascii '/')) (by rw [whole]; simp)
    exact absurd slash (by decide)

private theorem encode_filled (filled : text ≠ []) : encode text ≠ [] := by
  intro none
  exact filled (TptProto.Core.encode_inj none)

private theorem Reflow.white {gap gap' : List Char} {w w' : List UInt8} (filled : gap ≠ []) (filled' : gap' ≠ [])
    (white : ∀ c ∈ gap, isWhitespace c = true) (white' : ∀ c ∈ gap', isWhitespace c = true)
    (rest : Reflow w w') : Reflow (encode gap ++ w) (encode gap' ++ w') :=
  .gap (encode_filled filled) (encode_filled filled') (neutral_white white) (neutral_white white') rest

private theorem white_pad : ∀ c ∈ pad indent, isWhitespace c = true := by
  intro c inside
  rw [List.eq_of_mem_replicate inside]
  decide

private theorem solidText_row : solidText (row indent text) = solidText text := by
  have trimmed : solidText (trimEnd text) = solidText text := solidText_rdropWhile fun c white => white
  unfold row
  split
  · rename_i empty
    rw [← trimmed, empty]
  · rw [solidText_append, solidText_white white_pad, List.nil_append, trimmed]

private theorem trimEnd_solid {init : List Char} {last : Char} (solid : isWhitespace last = false) :
    trimEnd (init ++ [last]) = init ++ [last] :=
  List.rdropWhile_concat_neg _ _ _ (by simp [solid])

/-- What is written of a text that ends in a solid character, up to the end of its last line. -/
theorem rowsOf_reflows {init : List Char} {last : Char} (whole : text = init ++ [last])
    (solid : isWhitespace last = false) :
    ∃ out, rowsOf indent text = out ++ ['\n'] ∧ solidText out = solidText text ∧
      (∀ c tail, text = c :: tail → isWhitespace c = false →
        ∃ body, out = pad indent ++ body ∧ Reflow (encode text) (encode body)) ∧
      ∀ gap, gap ≠ [] → (∀ c ∈ gap, isWhitespace c = true) →
        Reflow (encode (gap ++ text)) (encode ('\n' :: out)) := by
  induction size : text.length using Nat.strong_induction_on generalizing text init with
  | h n ih =>
  have filled : text ≠ [] := by simp [whole]
  have untouched : trimEnd text = text := by rw [whole, trimEnd_solid solid]
  rcases lines_cases filled with single | ⟨first, ending, rest, split, ends, white, several⟩
  · have same : Reflow (encode text) (encode text) := by
      simpa using Reflow.keepAll (encode text) .nil
    refine ⟨pad indent ++ text, ?_, ?_, fun _ _ _ _ => ⟨text, rfl, same⟩, fun gap filled' white => ?_⟩
    · simp [rowsOf, single, row, untouched, filled]
    · rw [solidText_append, solidText_white white_pad, List.nil_append]
    · rw [← List.cons_append, encode_append, encode_append]
      exact Reflow.white filled' (List.cons_ne_nil _ _) white
        (List.forall_mem_cons.mpr ⟨by decide, white_pad⟩) same
  · obtain ⟨init', behind⟩ : ∃ init', rest = init' ++ [last] := by
      rcases List.eq_nil_or_concat rest with rfl | ⟨init', last', rfl⟩
      · obtain ⟨front, c, rfl⟩ := List.eq_nil_or_concat ending |>.resolve_left ends
        rw [whole, List.append_nil, List.concat_eq_append, ← List.append_assoc] at split
        obtain ⟨_, same⟩ := List.append_inj' split rfl
        have blank := white c (by simp)
        rw [← (List.cons.inj same).1, solid] at blank
        cases blank
      · rw [whole, List.concat_eq_append, ← List.append_assoc] at split
        obtain ⟨_, same⟩ := List.append_inj' split rfl
        exact ⟨init', by rw [List.concat_eq_append, (List.cons.inj same).1]⟩
    have shorter : rest.length < n := by
      have positive := List.length_pos_iff.mpr ends
      have total := congrArg List.length split
      simp only [List.length_append] at total
      omega
    obtain ⟨out, written, kept, _, reflows⟩ := ih rest.length shorter behind rfl
    have cut : trimEnd first ++ first.rtakeWhile isWhitespace = first := List.rdropWhile_append_rtakeWhile
    have blank : ∀ c ∈ first.rtakeWhile isWhitespace ++ ending, isWhitespace c = true :=
      List.forall_mem_append.mpr ⟨fun c inside => List.mem_rtakeWhile_imp inside, white⟩
    have line : Reflow (encode text) (encode (trimEnd first ++ '\n' :: out)) := by
      have spread := Reflow.keepAll (encode (trimEnd first)) (reflows _ (by simp [ends]) blank)
      rw [split]
      nth_rewrite 1 [← cut]
      simpa using spread
    refine ⟨row indent first ++ '\n' :: out, ?_, ?_, fun c tail begins solid' => ?_,
      fun gap filled' white' => ?_⟩
    · rw [rowsOf, several, List.flatMap_cons, ← rowsOf, written]
      simp
    · rw [solidText_append, solidText_row, split, solidText_append, solidText_append,
        solidText_white white, List.append_nil, ← kept]
      rfl
    · have solidLine : trimEnd first ≠ [] := by
        intro empty
        have white' := List.rdropWhile_eq_nil_iff.mp empty
        have inside : c ∈ first ++ ending := by
          rw [begins] at split
          cases front : first ++ ending with
          | nil => simp_all
          | cons d more =>
            rw [front] at split
            rw [(List.cons.inj split).1]
            exact List.mem_cons_self
        rcases List.mem_append.mp inside with here | here
        · rw [white' c here] at solid'
          cases solid'
        · rw [white c here] at solid'
          cases solid'
      exact ⟨trimEnd first ++ '\n' :: out, by rw [row, if_neg solidLine, List.append_assoc], line⟩
    · by_cases empty : trimEnd first = []
      · have blank : ∀ c ∈ gap ++ first, isWhitespace c = true :=
          List.forall_mem_append.mpr ⟨white', List.rdropWhile_eq_nil_iff.mp empty⟩
        have spread := @Reflow.white _ ['\n'] _ _ (by simp [filled']) (by simp) blank
          (List.all_eq_true.mp rfl)
          (reflows ending ends white)
        rw [row, if_pos empty, split]
        simpa using spread
      · have spread := @Reflow.white _ ('\n' :: pad indent) _ _ filled' (by simp) white'
          (List.forall_mem_cons.mpr ⟨by decide, white_pad⟩) line
        rw [row, if_neg empty]
        simpa using spread

/-- A comment as it is written on a line of its own. -/
def ownLine (indent : Nat) (text : List Char) : List Char :=
  if "/*".toList.isPrefixOf (trimStart text) then '\n' :: rowsOf indent text
  else row indent (trimStart text) ++ ['\n']

private theorem slash_of_encode {b : UInt8} {w : List UInt8} (ascii : b < 128) (whole : encode text = b :: w) :
    ∃ tail, text = byteChar b :: tail ∧ encode tail = w := by
  obtain ⟨first, second, rfl, none, same⟩ := @encode_cut text [] w b ascii whole
  obtain rfl : first = [] := TptProto.Core.encode_inj none
  exact ⟨second, rfl, same⟩

private theorem blank_pad : ∀ b ∈ encode (pad indent), isBlank b = true := by
  have spaces : encode (pad indent) = List.replicate (2 * indent) (ascii ' ') := by
    rw [pad]
    induction 2 * indent with
    | zero => rfl
    | succ n ih => rw [List.replicate_succ, List.replicate_succ, encode_cons, ih]; rfl
  intro b inside
  rw [spaces] at inside
  rw [List.eq_of_mem_replicate inside]
  decide

/-- The bytes of a block comment that is closed. -/
private theorem block_of_ended (closed : ∀ behind, comment? (encode text ++ behind) = some (encode text, behind)) :
    ∃ w, encode text = ascii '/' :: ascii '*' :: w ∧ Closes 1 w ∧ ∃ front, w = front ++ [ascii '/'] := by
  have alone := closed []
  rw [List.append_nil] at alone
  have spaced := closed [ascii ' ']
  unfold comment? at alone
  split at alone
  · rename_i b c w whole
    rw [whole] at spaced
    simp only [List.cons_append, comment?] at spaced
    split at spaced
    · have spanned : (b :: c :: w ++ [ascii ' ']).span (fun b => decide (b ≠ ascii '\n')) =
          (b :: c :: w, [ascii ' ']) := Option.some.inj spaced
      exact absurd ((span_eq_iff.mp spanned).2 _ rfl) (by decide)
    · split at spaced
      · rename_i block
        cases scanned : blockComment 1 (w ++ [ascii ' ']) with
        | mk inner behind =>
          rw [scanned] at spaced
          obtain ⟨same, rfl⟩ := Prod.mk.inj (Option.some.inj spaced)
          obtain rfl : inner = w := (List.cons.inj (List.cons.inj same).2).2
          refine ⟨inner, by rw [whole, block.1, block.2], closes_of_scanned scanned (by simp), ?_⟩
          rcases (blockComment_split scanned).2 with ⟨impossible, _⟩ | impossible | front
          · cases impossible
          · cases impossible
          · exact front
      · cases spaced
  · cases alone

/-- A comment on a line of its own is read as a comment that differs in white space only. -/
theorem ownLine_relexed (ended : Ended text)
    (single : "//".toList <+: text → ascii '\n' ∉ encode text) :
    ∃ lead body, ownLine indent text = lead ++ body ++ ['\n'] ∧ (∀ b ∈ encode lead, isBlank b = true) ∧
      solidText body = solidText text ∧
      ∀ x, comment? (encode body ++ ascii '\n' :: x) = some (encode body, ascii '\n' :: x) := by
  have begins {c d : Char} {tail : List Char} (whole : text = '/' :: d :: tail) : trimStart text = text := by
    rw [whole]
    exact List.dropWhile_cons_of_neg (by decide)
  by_cases line : "//".toList <+: text
  · obtain ⟨tail, whole⟩ := id line
    have start : trimStart text = text := @begins 'a' _ _ whole.symm
    have kept : solidText (trimEnd text) = solidText text := solidText_rdropWhile fun c white => white
    have long : 2 ≤ (trimEnd text).length := by
      have bound := List.length_filter_le (fun c => !isWhitespace c) (trimEnd text)
      have least : 2 ≤ (solidText text).length := by
        rw [← whole, solidText_append, List.length_append]
        exact Nat.le_add_right 2 _
      rw [← kept] at least
      exact Nat.le_trans least bound
    have front : trimEnd text <+: text := List.rdropWhile_prefix isWhitespace text
    have line' : "//".toList <+: trimEnd text := List.prefix_of_prefix_length_le line front long
    have filled : trimEnd text ≠ [] := by
      intro none
      rw [none] at long
      exact absurd long (by decide)
    refine ⟨pad indent, trimEnd text, ?_, blank_pad, kept, fun x => line_relexed line' fun inside => ?_⟩
    · have noBlock : ¬ "/*".toList.isPrefixOf text = true := by
        rw [← whole]
        nofun
      rw [ownLine, start, if_neg noBlock, row, if_neg filled]
    · obtain ⟨behind, split⟩ := front
      apply single line
      rw [← split, encode_append]
      exact List.mem_append_left _ inside
  · have closed := ended.resolve_left line
    obtain ⟨w, bytes, closes, front, rfl⟩ := block_of_ended closed
    obtain ⟨tail, whole, bytes'⟩ := slash_of_encode (by decide) bytes
    obtain ⟨tail', rfl, _⟩ := slash_of_encode (by decide) bytes'
    have start : trimStart text = text := @begins 'a' _ _ whole
    obtain ⟨init, none, split, _, empty⟩ :=
      @encode_cut text (ascii '/' :: ascii '*' :: front) [] (ascii '/') (by decide) bytes
    obtain rfl : none = [] := TptProto.Core.encode_inj empty
    obtain ⟨out, written, kept, opening, _⟩ := @rowsOf_reflows _ indent _ _ split (by decide)
    obtain ⟨body, rfl, reflow⟩ := opening _ _ whole (by decide)
    rw [bytes] at reflow
    obtain ⟨rest, bodyBytes, slash⟩ := reflow.delimiter special_slash
    obtain ⟨inner, rfl, star⟩ := slash.delimiter special_star
    have isBlock : "/*".toList.isPrefixOf text = true := by
      rw [whole]
      rfl
    refine ⟨'\n' :: pad indent, body, ?_, List.forall_mem_cons.mpr ⟨by decide, blank_pad⟩, ?_, fun x => ?_⟩
    · rw [ownLine, start, if_pos isBlock, written]
      simp
    · rw [← kept, solidText_append, solidText_white white_pad, List.nil_append]
    · have scanned : blockComment 1 (inner ++ ascii '\n' :: x) = (inner, ascii '\n' :: x) :=
        (closes.reflow star).scanned
      rw [bodyBytes, List.cons_append, List.cons_append, comment?, if_neg (by decide), if_pos ⟨rfl, rfl⟩, scanned]

end Rows

section Runs

variable {parseFloat : String → Option UInt64}

/-- An item without the white space of a comment. -/
def solidItem : Item → Item
  | .tok kind text => .tok kind text
  | .cmt text => .cmt (solidText text)

/-- The bytes are lexed as these items, but for white space in comments. -/
def RelexesAs (parseFloat : String → Option UInt64) (bytes : List UInt8) (items : List Item) : Prop :=
  ∀ n, ∃ found, Spaced parseFloat n bytes found ∧ (found.map fun q => solidItem q.2) = items

namespace RelexesAs

variable {rest : List UInt8} {items : List Item}

theorem blanks {blanks : List UInt8} (white : ∀ b ∈ blanks, isBlank b = true)
    (next : RelexesAs parseFloat rest items) : RelexesAs parseFloat (blanks ++ rest) items := by
  induction blanks with
  | nil => exact next
  | cons b tail ih =>
    rw [List.forall_mem_cons] at white
    intro n
    obtain ⟨found, spaced, same⟩ := ih white.2 (n + lineEnds [b])
    exact ⟨found, .blank white.1 spaced, same⟩

theorem token {kind : TokenKind} {text : List Char} (found : TokenAt parseFloat kind (encode text) rest)
    (next : RelexesAs parseFloat rest items) :
    RelexesAs parseFloat (encode text ++ rest) (.tok kind text :: items) := by
  intro n
  obtain ⟨others, spaced, same⟩ := next 0
  exact ⟨_, .token found spaced, by rw [List.map_cons, same]; rfl⟩

theorem comment {whole text : List Char} (kept : solidText whole = solidText text)
    (found : comment? (encode whole ++ rest) = some (encode whole, rest))
    (next : RelexesAs parseFloat rest items) :
    RelexesAs parseFloat (encode whole ++ rest) (.cmt (solidText text) :: items) := by
  intro n
  obtain ⟨others, spaced, same⟩ := next 0
  have trimmed : solidText (withoutLineEnds whole) = solidText whole := by
    refine solidText_rdropWhile fun c ending => ?_
    simp only [Bool.or_eq_true, decide_eq_true_eq] at ending
    rcases ending with rfl | rfl
    · decide
    · decide
  refine ⟨_, .comment found spaced, ?_⟩
  rw [List.map_cons, same, solidItem, trimmed, kept]

end RelexesAs

/-- Behind this, a line has been ended. -/
def endsLine (ev : Ev) : Bool := ev.kind.all fun kind => kind = .semicolon || kind = .rBrace

/-- What may come behind what: a comment behind the end of a line, and no point behind an integer. -/
structure Fits (first second : Ev) : Prop where
  apart : second.kind = none → first.endLine = second.startLine → endsLine first = true
  noPoint : ∀ v, first.kind = some (.int v) → second.kind ≠ some .dot

/-- The token that the line goes on behind. -/
def lineOf : Option Item → Option TokenKind
  | some (.tok kind _) => lineAfter kind
  | _ => none

private theorem lineOf_ended {q : Placed} (ends : endsLine (placedEv q) = true) :
    lineOf (some q.item) = none := by
  unfold endsLine placedEv at ends
  unfold lineOf lineAfter
  cases same : q.item with
  | cmt text => rfl
  | tok kind text =>
    rw [same] at ends
    simp only [Ev.kind, Option.all_some, Bool.or_eq_true, decide_eq_true_eq] at ends
    exact if_pos ends

private theorem blank_gap {gap : Bool} : ∀ b ∈ encode (gapText gap), isBlank b = true := by
  cases gap <;> exact List.all_eq_true.mp rfl

private theorem blank_tokenLead {line : Option TokenKind} {indent : Nat} {gap : Bool} {prev : Option TokenKind}
    {kind : TokenKind} : ∀ b ∈ encode (tokenLead line indent gap prev kind), isBlank b = true := by
  have row (k : Nat) : ∀ b ∈ encode ('\n' :: (gapText gap ++ pad k)), isBlank b = true := by
    rw [encode_cons, encode_append]
    exact List.forall_mem_append.mpr ⟨List.all_eq_true.mp rfl,
      List.forall_mem_append.mpr ⟨blank_gap, blank_pad⟩⟩
  unfold tokenLead
  split
  · rw [encode_append]
    exact List.forall_mem_append.mpr ⟨blank_gap, blank_pad⟩
  · split
    · split
      · exact List.all_eq_true.mp rfl
      · exact row _
    · split
      · exact row _
      · split
        · exact List.all_eq_true.mp rfl
        · exact List.all_eq_true.mp rfl

private theorem blank_commentLead {line : Option TokenKind} {gap : Bool} :
    ∀ b ∈ encode (commentLead line gap), isBlank b = true := by
  rw [commentLead, encode_append]
  refine List.forall_mem_append.mpr ⟨?_, blank_gap⟩
  cases line with
  | none => exact List.all_eq_true.mp rfl
  | some => exact fun b inside => by rw [List.mem_singleton.mp inside]; decide

private theorem ends_blanks {kind : TokenKind} {word rest : List UInt8} {lead : List Char} (filled : lead ≠ [])
    (blank : ∀ b ∈ encode lead, isBlank b = true) : Ends kind word (encode lead ++ rest) := by
  obtain ⟨b, tail, bytes⟩ := List.exists_cons_of_ne_nil (encode_filled filled)
  rw [bytes] at blank ⊢
  exact ends_blank (blank b List.mem_cons_self)

/-- A token ends where the formatter puts the next one. -/
private theorem ends_before_token {k kind : TokenKind} {word rest : List UInt8} {text : List Char} {indent : Nat}
    {gap : Bool} {behind : List UInt8} (found : TokenAt parseFloat kind (encode text) behind)
    (noPoint : ∀ v, k = .int v → kind ≠ .dot) :
    Ends k word (encode (tokenLead (lineAfter k) indent gap (some k) kind) ++ (encode text ++ rest)) := by
  by_cases mark : isPunctuation k = true
  · exact ends_punctuation mark
  by_cases lead : tokenLead (lineAfter k) indent gap (some k) kind = []
  · have goesOn : lineAfter k = some k := by
      rw [lineAfter, if_neg]
      rintro (rfl | rfl)
      · exact mark rfl
      · exact mark rfl
    have noBrace : k ≠ .lBrace := by
      rintro rfl
      exact mark rfl
    have close : needSpace (some k) kind = false := by
      rw [goesOn, tokenLead] at lead
      simp only [if_neg noBrace] at lead
      split at lead
      · cases lead
      · split at lead
        · cases lead
        · rename_i close
          exact Bool.eq_false_iff.mpr close
    obtain ⟨b, single, simple⟩ := (TokenAt.shape found).2 ((punctuation_of_close close).resolve_left mark)
    rw [lead, encode_nil, List.nil_append, single]
    exact ends_mark simple noPoint
  · exact ends_blanks lead blank_tokenLead

private theorem single_of_found {whole : List Char} {behind : List UInt8}
    (found : comment? (encode whole ++ behind) = some (encode whole, behind))
    (line : "//".toList <+: withoutLineEnds whole) : ascii '\n' ∉ encode (withoutLineEnds whole) := by
  obtain ⟨ending, split⟩ : withoutLineEnds whole <+: whole := List.rdropWhile_prefix _ whole
  obtain ⟨tail, begins⟩ := line
  have lined : comment? (encode whole ++ behind) = some (lineComment (encode whole ++ behind)) := by
    rw [← split, ← begins, encode_append, encode_append]
    rfl
  rw [lined] at found
  have kept := (span_eq_iff.mp (Option.some.inj found)).1
  intro inside
  have inWhole : ascii '\n' ∈ encode whole := by
    rw [← split, encode_append]
    exact List.mem_append_left _ inside
  exact absurd (kept _ inWhole) (by decide)

variable {p : Position} {n : Nat} {bytes : List UInt8} {placed : List Placed}

private theorem chain_tail {prev : Option Placed} {q : Placed}
    (chain : List.IsChain Fits ((prev.toList ++ q :: placed).map placedEv)) :
    (∀ q' ∈ prev, Fits (placedEv q') (placedEv q)) ∧
      List.IsChain Fits (((some q).toList ++ placed).map placedEv) := by
  cases prev with
  | none => exact ⟨by simp, chain⟩
  | some q' =>
    have both := List.isChain_cons_cons.mp chain
    refine ⟨?_, both.2⟩
    rintro q'' ⟨⟩
    exact both.1

/-- A comment that gets a line of its own is lexed as the comment, and ends what is in front of it. -/
private theorem comment_step {text out : List Char} {line : Option TokenKind} {indent : Nat}
    {trailing gap : Bool} (tidy : Tidy out) (apart : trailing = true → line = none) (ended : Ended text)
    (single : "//".toList <+: text → ascii '\n' ∉ encode text) :
    ∃ step, formatComment (standing out line indent) trailing gap text =
        standing (out ++ step) none (commentIndent line indent) ∧ Tidy (out ++ step) ∧
      ∀ rest, (∀ items, RelexesAs parseFloat rest items →
          RelexesAs parseFloat (encode step ++ rest) (.cmt (solidText text) :: items)) ∧
        ∀ k w, line = lineAfter k → Ends k w (encode step ++ rest) := by
  obtain ⟨lead, body, written, white, kept, again⟩ := @ownLine_relexed _ (commentIndent line indent) ended single
  have laid := @formatComment_apart out text line indent gap trailing tidy apart
  unfold ownLine rowsOf at written
  rw [written, List.append_assoc] at laid
  refine ⟨_, laid, ?_, fun rest => ⟨fun items next => ?_, fun k w same => ?_⟩⟩
  · rw [← List.append_assoc, ← List.append_assoc, ← List.append_assoc]
    exact tidy_concat.mpr rfl
  · have ending : encode ['\n'] = [ascii '\n'] := rfl
    simp only [encode_append, List.append_assoc, ending, List.singleton_append]
    refine .blanks blank_commentLead (.blanks white (.comment kept (again rest) ?_))
    exact @RelexesAs.blanks _ _ _ [ascii '\n'] (List.all_eq_true.mp rfl) next
  · by_cases mark : isPunctuation k = true
    · exact ends_punctuation mark
    · have goesOn : lineAfter k = some k := by
        rw [lineAfter, if_neg]
        rintro (rfl | rfl)
        · exact mark rfl
        · exact mark rfl
      rw [goesOn] at same
      rw [same, encode_append, List.append_assoc]
      exact ends_blanks (by simp [commentLead]) blank_commentLead

/-- A token is lexed as the token, where what comes behind it ends it. -/
private theorem token_step {kind : TokenKind} {text out : List Char} {line : Option TokenKind} {indent : Nat}
    {gap : Bool} {prev : Option TokenKind} {behind : List UInt8}
    (found : TokenAt parseFloat kind (encode text) behind) (tidy : Tidy out) :
    formatToken (standing out line indent) gap prev kind text =
        standing (out ++ (tokenLead line indent gap prev kind ++ text ++ tokenTail kind)) (lineAfter kind)
          (indentAfter line indent kind) ∧
      Tidy (out ++ (tokenLead line indent gap prev kind ++ text ++ tokenTail kind)) ∧
      ∀ rest items, Ends kind (encode text) rest → RelexesAs parseFloat rest items →
        RelexesAs parseFloat (encode (tokenLead line indent gap prev kind ++ text ++ tokenTail kind) ++ rest)
          (.tok kind text :: items) := by
  obtain ⟨closed, filled⟩ := TokenAt.tidy found
  refine ⟨?_, ?_, fun rest items ends next => ?_⟩
  · rw [formatToken_standing tidy closed filled fun same => by subst same; exact TokenAt.brace found]
    simp only [List.append_assoc]
  · rw [← List.append_assoc, ← List.append_assoc]
    unfold tokenTail
    split
    · exact tidy_concat.mpr rfl
    · rw [List.append_nil]
      exact closed.append filled
  · rw [encode_append, encode_append, List.append_assoc, List.append_assoc]
    refine .blanks blank_tokenLead ?_
    unfold tokenTail
    split
    · have ending : encode ['\n'] = [ascii '\n'] := rfl
      rw [ending, List.singleton_append]
      refine .token (TokenAt.relocate found (ends_blank (by decide))) ?_
      exact @RelexesAs.blanks _ _ _ [ascii '\n'] (List.all_eq_true.mp rfl) next
    · exact .token (TokenAt.relocate found ends) next

/-- What is written for the items behind one is lexed as these items. -/
theorem layItems_relexed (lexed : Lexed parseFloat p n bytes placed)
    (ended : ∀ q ∈ placed, ∀ text, q.item = .cmt text → Ended text) {prev : Option Placed}
    (follows : ∀ q ∈ prev, q.span.stop.line + n = p.line)
    (chain : List.IsChain Fits ((prev.toList ++ placed).map placedEv)) {out : List Char} {indent : Nat}
    (tidy : Tidy out) :
    ∃ text line indent', layItems (prev.map Placed.item) (standing out (lineOf (prev.map Placed.item)) indent)
        (placed.map Placed.spaced) = standing (out ++ text) line indent' ∧ Tidy (out ++ text) ∧
      ∀ fin : List UInt8, (∀ b ∈ fin, isBlank b = true) →
        (∀ k w, prev.map Placed.item = some (.tok k w) → Ends k (encode w) (encode text ++ fin)) ∧
        RelexesAs parseFloat (encode text ++ fin) (placed.map fun q => solidItem q.item) := by
  induction lexed generalizing prev out indent with
  | nil =>
    refine ⟨[], _, indent, by rw [List.append_nil]; rfl, by rwa [List.append_nil], fun fin white => ⟨?_, ?_⟩⟩
    · intro k w _
      cases fin with
      | nil => exact ends_nothing
      | cons b fin => exact ends_blank (white b List.mem_cons_self)
    · have nothing : RelexesAs parseFloat [] [] := fun n => ⟨[], .nil, rfl⟩
      simpa using nothing.blanks white
  | @blank p n b rest placed white next ih =>
    refine ih ended (fun q inside => ?_) chain tidy
    have moved : (p.bump b).line = p.line + lineEnds [b] := Position.line_after p [b]
    rw [moved, ← follows q inside, Nat.add_assoc]
  | @comment p n whole behind placed found next ih =>
    obtain ⟨fits, chain⟩ := chain_tail chain
    rw [List.forall_mem_cons] at ended
    have apart : ((prev.map Placed.item).isSome && n == 0) = true → lineOf (prev.map Placed.item) = none := by
      intro beside
      cases prev with
      | none => rfl
      | some q =>
        simp only [Option.map_some, Option.isSome_some, Bool.true_and, beq_iff_eq] at beside
        refine lineOf_ended ((fits q rfl).apart rfl ?_)
        have line := follows q rfl
        rw [beside, Nat.add_zero] at line
        rw [Ev.endLine, placedEv_span, Ev.startLine, placedEv_span]
        exact line
    obtain ⟨step, laid, tidy, lexed⟩ := @comment_step parseFloat (withoutLineEnds whole) out _ indent _
      ((prev.map Placed.item).isSome && decide (1 < n)) tidy apart (ended.1 _ rfl) (single_of_found found)
    obtain ⟨text, line, indent', rest, tidy, later⟩ := @ih ended.2 _ (by rintro q ⟨⟩; rfl) chain _ _ tidy
    refine ⟨step ++ text, line, indent', ?_, by rwa [← List.append_assoc], fun fin blank => ⟨?_, ?_⟩⟩
    · rw [List.map_cons, layItems, Placed.spaced, layItem, laid, ← List.append_assoc]
      exact rest
    · intro k w same
      rw [encode_append, List.append_assoc]
      refine (lexed _).2 k _ ?_
      rw [same]
      rfl
    · rw [encode_append, List.append_assoc]
      exact (lexed _).1 _ (later fin blank).2
  | @token p n kind text behind placed found next ih =>
    obtain ⟨fits, chain⟩ := chain_tail chain
    rw [List.forall_mem_cons] at ended
    obtain ⟨laid, tidy, lexed⟩ := @token_step parseFloat kind text out (lineOf (prev.map Placed.item)) indent
      ((prev.map Placed.item).isSome && decide (1 < n)) ((prev.map Placed.item).bind kind?) behind found tidy
    obtain ⟨more, line, indent', rest, tidy, later⟩ := @ih ended.2 _ (by rintro q ⟨⟩; rfl) chain _
      (indentAfter (lineOf (prev.map Placed.item)) indent kind) tidy
    refine ⟨(tokenLead (lineOf (prev.map Placed.item)) indent ((prev.map Placed.item).isSome && decide (1 < n))
      ((prev.map Placed.item).bind kind?) kind ++ text ++ tokenTail kind) ++ more, line, indent', ?_,
      by rwa [← List.append_assoc], fun fin blank => ⟨?_, ?_⟩⟩
    · rw [List.map_cons, layItems, Placed.spaced, layItem, laid]
      exact rest.trans (by rw [List.append_assoc out])
    · intro k w same
      rw [encode_append, encode_append, encode_append, List.append_assoc, List.append_assoc,
        List.append_assoc, same]
      refine ends_before_token found fun v isInt => ?_
      cases prev with
      | none => cases same
      | some q =>
        have held : q.item = .tok k w := Option.some.inj same
        refine fun dot => (fits q rfl).noPoint v ?_ ?_
        · rw [placedEv, held, ← isInt]
          rfl
        · rw [← dot]
          rfl
    · rw [encode_append, List.append_assoc]
      exact lexed _ _ ((later fin blank).1 kind text rfl) (later fin blank).2

end Runs

section Sources

variable {parseFloat : String → Option UInt64} {placed : List Placed}

/-- A source of which nothing is lost: block comments are closed, a comment behind something starts a
line of its own, and no point stands behind an integer. -/
structure Settled (tokens : List Token) (comments : List Comment) : Prop where
  ended : ∀ c ∈ comments, Ended c.text.toList
  fits : List.IsChain Fits (events tokens comments)

/-- A comment, if the item is one. -/
def cmtText? : Item → Option (List Char)
  | .tok _ _ => none
  | .cmt text => some text

private theorem kinds_placed : (placed.filterMap Placed.token?).map Token.kind =
    (placed.map fun q => solidItem q.item).filterMap kind? := by
  rw [List.map_filterMap, List.filterMap_map]
  refine List.filterMap_congr fun q _ => ?_
  cases same : q.item with
  | tok => simp [Placed.token?, solidItem, kind?, same]
  | cmt => simp [Placed.token?, solidItem, kind?, same]

private theorem comments_placed : (placed.filterMap Placed.comment?).map (fun c => solidText c.text.toList) =
    (placed.map fun q => solidItem q.item).filterMap cmtText? := by
  rw [List.map_filterMap, List.filterMap_map]
  refine List.filterMap_congr fun q _ => ?_
  cases same : q.item with
  | tok => simp [Placed.comment?, solidItem, cmtText?, same]
  | cmt => simp [Placed.comment?, solidItem, cmtText?, same]

/-- Such a source is formatted, and what is written has the tokens of the source and its comments, but
for white space in these. -/
theorem formatSource_keeps {src : String} {tokens : List Token} {comments : List Comment}
    (read : lexWithComments parseFloat src = .ok (tokens, comments)) (settled : Settled tokens comments) :
    ∃ out tokens' comments', formatSource parseFloat src = .ok out ∧
      lexWithComments parseFloat out = .ok (tokens', comments') ∧
      tokens'.map Token.kind = tokens.map Token.kind ∧
      (comments'.map fun c => solidText c.text.toList) = comments.map fun c => solidText c.text.toList := by
  obtain ⟨placed, lexed, rfl, rfl⟩ := lexWithComments_iff_lexed.mp read
  have chain := settled.fits
  rw [events_lexed lexed] at chain
  have ended : ∀ q ∈ placed, ∀ text, q.item = .cmt text → Ended text := by
    intro q inside text same
    have found : (⟨q.span, String.ofList text⟩ : Comment) ∈ placed.filterMap Placed.comment? :=
      List.mem_filterMap.mpr ⟨q, inside, by rw [Placed.comment?, same]⟩
    have holds := settled.ended _ found
    rwa [String.toList_ofList] at holds
  obtain ⟨text, line, indent, laid, tidy, relexed⟩ := @layItems_relexed parseFloat _ _ _ _ lexed ended none (by simp)
    chain [] 0 (by simp [Tidy])
  have formatted := formatSource_lexed lexed
  rw [show layItems none {} (placed.map Placed.spaced) = standing text line indent from laid] at formatted
  obtain ⟨fin, white, finished⟩ : ∃ fin : List Char, (∀ b ∈ encode fin, isBlank b = true) ∧
      finish (standing text line indent) = text ++ fin := by
    unfold finish
    split
    · exact ⟨[], by simp [encode_nil], (List.append_nil _).symm⟩
    · refine ⟨['\n'], List.all_eq_true.mp rfl, ?_⟩
      have kept : text.rdropWhile isSpace = text := rdropWhile_tidy tidy
      rw [standing, kept]
  obtain ⟨found, spaced, same⟩ := (relexed (encode fin) white).2 0
  obtain ⟨placed', lexed', items⟩ := spaced.lexed ⟨1, 1, 0⟩
  have whole : asBytes (String.ofList (finish (standing text line indent))) = encode text ++ encode fin := by
    rw [asBytes_eq_encode, String.toList_ofList, finished, encode_append]
  rw [← whole] at lexed'
  have alike : (placed'.map fun q => solidItem q.item) = placed.map fun q => solidItem q.item := by
    rw [← same, ← items, List.map_map]
    rfl
  refine ⟨_, _, _, formatted, lexWithComments_iff_lexed.mpr ⟨placed', lexed', rfl, rfl⟩, ?_, ?_⟩
  · rw [kinds_placed, alike, ← kinds_placed]
  · rw [comments_placed, alike, ← comments_placed]

/-- A block between a line comment and a comment of two lines. -/
def blockSource : String := "// n\nm { 1;}\n/* a\n b */\n"

def blockTokens : List Token :=
  [⟨.ident "m", ⟨2, 1, 5⟩, ⟨2, 2, 6⟩⟩, ⟨.lBrace, ⟨2, 3, 7⟩, ⟨2, 4, 8⟩⟩, ⟨.int 1, ⟨2, 5, 9⟩, ⟨2, 6, 10⟩⟩,
    ⟨.semicolon, ⟨2, 6, 10⟩, ⟨2, 7, 11⟩⟩, ⟨.rBrace, ⟨2, 7, 11⟩, ⟨2, 8, 12⟩⟩]

def blockComments : List Comment :=
  [⟨⟨⟨1, 1, 0⟩, ⟨1, 5, 4⟩⟩, "// n"⟩, ⟨⟨⟨3, 1, 13⟩, ⟨4, 6, 23⟩⟩, "/* a\n b */"⟩]

theorem formatSource_keeps_block :
    ∃ out tokens comments, formatSource (fun _ => none) blockSource = .ok out ∧
      lexWithComments (fun _ => none) out = .ok (tokens, comments) ∧
      tokens.map Token.kind = blockTokens.map Token.kind ∧
      (comments.map fun c => solidText c.text.toList) = blockComments.map fun c => solidText c.text.toList := by
  have read : lexWithComments (fun _ => none) blockSource = .ok (blockTokens, blockComments) := rfl
  have closed : Closes 1 (encode " a\n b */".toList) := by
    repeat' first | exact .close .done | refine .other (by decide) (by decide) ?_
  have block (behind : List UInt8) : comment? (encode "/* a\n b */".toList ++ behind) =
      some (encode "/* a\n b */".toList, behind) := by
    have bytes : encode "/* a\n b */".toList = ascii '/' :: ascii '*' :: encode " a\n b */".toList := by decide
    rw [bytes, List.cons_append, List.cons_append, comment?, if_neg (by decide), if_pos ⟨rfl, rfl⟩, closed.scanned]
  have apart {first second : Ev} (ends : second.kind = none → first.endLine = second.startLine →
      endsLine first = true) (noPoint : second.kind ≠ some .dot) : Fits first second :=
    ⟨ends, fun _ _ => noPoint⟩
  refine formatSource_keeps read
    ⟨List.forall_mem_cons.mpr ⟨.inl (by decide), List.forall_mem_cons.mpr ⟨.inr block, by simp⟩⟩, ?_⟩
  have ordered : events blockTokens blockComments =
      .cmt ⟨⟨⟨1, 1, 0⟩, ⟨1, 5, 4⟩⟩, "// n"⟩ :: blockTokens.map Ev.tok ++
        [.cmt ⟨⟨⟨3, 1, 13⟩, ⟨4, 6, 23⟩⟩, "/* a\n b */"⟩] := by
    simp [events, blockTokens, blockComments, List.mergeSort, List.MergeSort.Internal.splitInTwo,
      Ev.startOffset, Ev.span]
  rw [ordered]
  repeat' first | exact .singleton _ | refine List.isChain_cons_cons.mpr ⟨apart (by decide) (by decide), ?_⟩

end Sources

end TptProto.Fmt
