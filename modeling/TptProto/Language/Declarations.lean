import TptProto.Language.Terminates
import TptProto.Language.Statements
import TptProto.Language.Numerals

/-! What the parser makes of the declarations of an enum's values and of fields with a default. -/

namespace TptProto.Language

open TptProto.Foundation

namespace Parser

variable {p : Parser} {kind : TokenKind} {after : List TokenKind}

@[simp] theorem next_diagnostics (p : Parser) : p.next.diagnostics = p.diagnostics := rfl

@[simp] theorem next_depth (p : Parser) : p.next.depth = p.depth := rfl

theorem rest_next_of (ahead : p.rest = kind :: after) : p.next.rest = after := by
  rw [rest_next, ahead]
  rfl

theorem peek_of_rest (ahead : p.rest = kind :: after) : ∃ t, p.peek = some t ∧ t.kind = kind := by
  have same := p.peekKind_eq
  rw [ahead, peekKind] at same
  exact Option.map_eq_some_iff.mp same

theorem peekKind_of_rest (ahead : p.rest = kind :: after) : p.peekKind = some kind := by
  rw [peekKind_eq, ahead]
  rfl

theorem atKeyword_of_rest {name : String} (ahead : p.rest = .ident name :: after) (keyword : String) :
    p.atKeyword keyword = decide (name = keyword) := by
  rw [atKeyword, peekKind_of_rest ahead]
  simp

end Parser

namespace Parse

section Steps

variable {text : DebugText} {p : Parser} {kind : TokenKind} {after : List TokenKind} {fuel : Nat}

theorem advance_rest (ahead : p.rest = kind :: after) :
    ∃ t, advance p = .ok (some t, p.next) ∧ t.kind = kind := by
  obtain ⟨t, found, same⟩ := Parser.peek_of_rest ahead
  exact ⟨t, by rw [advance, found]; rfl, same⟩

theorem expect_rest (text : DebugText) (ahead : p.rest = kind :: after) :
    ∃ t, expect text kind p = .ok (some t, p.next) := by
  obtain ⟨t, moved, _⟩ := advance_rest ahead
  refine ⟨t, ?_⟩
  unfold expect
  rw [bind_run, read_run, Outcome.ok_bind, ite_run, if_pos (Parser.peekKind_of_rest ahead), moved]

theorem expectIdent_rest {name : String} (ahead : p.rest = .ident name :: after) :
    ∃ i, expectIdent p = .ok (some i, p.next) ∧ i.name = name := by
  obtain ⟨t, moved, same⟩ := advance_rest ahead
  refine ⟨⟨name, t.span⟩, ?_, rfl⟩
  unfold expectIdent
  rw [bind_run, moved, Outcome.ok_bind]
  simp only [same]
  rfl

theorem parseNumber_rest {n : Int64} {message : String} (ahead : p.rest = .int n :: after) :
    parseNumber message p = .ok (some n, p.next) := by
  obtain ⟨t, moved, _⟩ := advance_rest ahead
  have number : p.peekInt = some n := by rw [Parser.peekInt, Parser.peekKind_of_rest ahead]
  unfold parseNumber
  rw [bind_run, read_run, Outcome.ok_bind]
  simp only [number]
  rw [bind_run, moved, Outcome.ok_bind]
  rfl

theorem startSpan_rest (ahead : p.rest = kind :: after) : ∃ span, startSpan p = .ok (span, p) := by
  obtain ⟨t, found, _⟩ := Parser.peek_of_rest ahead
  exact ⟨t.span, by rw [startSpan, Parser.peekSpan, found]; rfl⟩

theorem parseFieldOptions_none (ahead : p.rest = .semicolon :: after) :
    parseFieldOptions text fuel p = .ok ({}, p) := by
  have other : p.peekKind ≠ some .lBracket := by
    rw [Parser.peekKind_of_rest ahead]
    decide
  unfold parseFieldOptions
  rw [bind_run, read_run, Outcome.ok_bind, ite_run, if_neg other]
  rfl

section Loops

variable {α : Type} {more : α → Parser → Bool} {body : α → Parse α} {acc acc' : α} {q : Parser}

theorem repeatWhile_done (finished : more acc p = false) :
    repeatWhile more body fuel acc p = .ok (acc, p) :=
  @loop_done Empty (α × Parser) (fun s => more s.1 s.2) (fun s => body s.1 s.2) (acc, p) finished fuel

theorem repeatWhile_step (continues : more acc p = true) (ran : body acc p = .ok (acc', q)) :
    repeatWhile more body (fuel + 1) acc p = repeatWhile more body fuel acc' q := by
  refine (@loop_step Empty (α × Parser) (fun s => more s.1 s.2) (fun s => body s.1 s.2) (acc, p)
    continues fuel).trans ?_
  rw [ran, Outcome.ok_bind]
  rfl

variable {more : Parser → Bool} {body : α → Parse (Option α)}

theorem repeatSome_done (finished : more p = false) :
    repeatSome more body fuel acc p = .ok (some acc, p) :=
  repeatWhile_done (by simp [finished])

theorem repeatSome_step (continues : more p = true) (ran : body acc p = .ok (some acc', q)) :
    repeatSome more body (fuel + 1) acc p = repeatSome more body fuel acc' q :=
  repeatWhile_step (by simp [continues]) ran

end Loops

end Steps

section Enums

variable {text : DebugText} {p : Parser} {after : List TokenKind} {fuel : Nat}

/-- The tokens of an enum value's declaration. -/
def valueKinds (name : String) (n : Int64) : List TokenKind := [.ident name, .equals, .int n, .semicolon]

theorem parseEnumValue_rest {name : String} {n : Int64} {span : Span}
    (ahead : p.rest = valueKinds name n ++ after) :
    ∃ i, parseEnumValue text fuel span p = .ok (some ⟨span, i, n, []⟩, p.next.next.next.next) ∧
      i.name = name ∧ p.next.next.next.next.rest = after := by
  have behindName := Parser.rest_next_of ahead
  have behindEquals := Parser.rest_next_of behindName
  have behindNumber := Parser.rest_next_of behindEquals
  obtain ⟨i, named, same⟩ := expectIdent_rest ahead
  obtain ⟨_, equals⟩ := expect_rest text behindName
  obtain ⟨_, ended⟩ := expect_rest text behindNumber
  refine ⟨i, ?_, same, Parser.rest_next_of behindNumber⟩
  unfold parseEnumValue
  rw [bind_run, named, Outcome.ok_bind]
  simp only
  rw [bind_run, equals, Outcome.ok_bind, bind_run, parseNumber_rest behindEquals, Outcome.ok_bind]
  simp only
  rw [bind_run, parseFieldOptions_none behindNumber, Outcome.ok_bind, bind_run, ended, Outcome.ok_bind]
  rfl

/-- A pass over an enum's body at a value, which is none of the keywords there. -/
theorem enumItem_rest {name : String} {n : Int64} {en : Enum} (noOption : name ≠ "option")
    (noReserved : name ≠ "reserved") (ahead : p.rest = valueKinds name n ++ after) :
    ∃ v, enumItem text fuel en p =
        .ok (some { en with values := en.values ++ [v] }, p.next.next.next.next) ∧
      v.name.name = name ∧ v.number = n ∧ p.next.next.next.next.rest = after := by
  obtain ⟨i, ran, same, behind⟩ := parseEnumValue_rest ahead
  refine ⟨⟨en.span, i, n, []⟩, ?_, same, rfl, behind⟩
  have ident : p.identText = some name := by
    rw [Parser.identText, Parser.peekKind_of_rest ahead]
  unfold enumItem
  rw [bind_run, read_run, Outcome.ok_bind, ite_run, Parser.atKeyword_of_rest ahead,
    if_neg (by simpa using noOption), bind_run, read_run, Outcome.ok_bind, ite_run,
    Parser.atKeyword_of_rest ahead, if_neg (by simpa using noReserved), bind_run, read_run,
    Outcome.ok_bind, ident]
  simp only [Option.isSome_some, if_true]
  rw [bind_run, ran, Outcome.ok_bind]
  rfl

/-- The declared values, in order. -/
def valuesKinds (values : List (String × Int64)) : List TokenKind :=
  values.flatMap fun v => valueKinds v.1 v.2

/-- Values are added to the enum as they are declared. -/
theorem enumLoop_rest {values : List (String × Int64)} {en : Enum} {budget : Nat}
    (noKeyword : ∀ v ∈ values, v.1 ≠ "option" ∧ v.1 ≠ "reserved")
    (ahead : p.rest = valuesKinds values ++ .rBrace :: after) (enough : values.length ≤ budget) :
    ∃ vs q, repeatSome (fun p => p.before .rBrace) (enumItem text fuel) budget en p =
        .ok (some { en with values := en.values ++ vs }, q) ∧
      vs.map (fun v => (v.name.name, v.number)) = values ∧ q.rest = .rBrace :: after ∧
      q.diagnostics = p.diagnostics ∧ q.depth = p.depth := by
  induction values generalizing p en budget with
  | nil =>
    have finished : p.before .rBrace = false := by
      rw [Parser.before, Parser.peekKind_of_rest ahead]
      rfl
    refine ⟨[], p, ?_, rfl, ahead, rfl, rfl⟩
    rw [repeatSome_done finished, List.append_nil]
  | cons v rest ih =>
    obtain ⟨budget, rfl⟩ : ∃ less, budget = less + 1 := ⟨budget - 1, by simp at enough; omega⟩
    have split : p.rest = valueKinds v.1 v.2 ++ (valuesKinds rest ++ .rBrace :: after) := by
      rw [ahead, valuesKinds, List.flatMap_cons, List.append_assoc]
      rfl
    obtain ⟨noOption, noReserved⟩ := noKeyword v List.mem_cons_self
    obtain ⟨w, ran, name, number, behind⟩ := @enumItem_rest text p _ fuel _ _ en noOption noReserved split
    obtain ⟨vs, q, looped, same, left, quiet, level⟩ :=
      @ih p.next.next.next.next { en with values := en.values ++ [w] } budget
        (fun v member => noKeyword v (List.mem_cons_of_mem _ member)) behind
        (Nat.le_of_succ_le_succ enough)
    refine ⟨w :: vs, q, ?_, by rw [List.map_cons, same, name, number], left, quiet, level⟩
    have continues : p.before .rBrace = true := by
      obtain ⟨t, found, _⟩ := Parser.peek_of_rest ahead
      rw [Parser.before, Parser.peekKind_of_rest split, found]
      rfl
    rw [repeatSome_step continues ran, looped, List.append_assoc]
    rfl

/-- The tokens of an enum. -/
def enumKinds (name : String) (values : List (String × Int64)) : List TokenKind :=
  .ident "enum" :: .ident name :: .lBrace :: (valuesKinds values ++ [.rBrace])

theorem parseEnum_rest {name : String} {values : List (String × Int64)}
    (noKeyword : ∀ v ∈ values, v.1 ≠ "option" ∧ v.1 ≠ "reserved")
    (ahead : p.rest = enumKinds name values ++ after) (enough : values.length ≤ fuel) :
    ∃ e q, parseEnum text fuel p = .ok (some e, q) ∧ e.name.name = name ∧
      e.values.map (fun v => (v.name.name, v.number)) = values ∧ e.reservedRanges = [] ∧
      e.reservedNames = [] ∧ q.rest = after ∧ q.diagnostics = p.diagnostics := by
  have behindEnum := Parser.rest_next_of ahead
  have behindName := Parser.rest_next_of behindEnum
  have behindBrace := Parser.rest_next_of behindName
  obtain ⟨span, started⟩ := startSpan_rest ahead
  obtain ⟨_, moved, _⟩ := advance_rest ahead
  obtain ⟨i, named, same⟩ := expectIdent_rest behindEnum
  obtain ⟨_, opened⟩ := expect_rest text behindName
  have header : enumHeader text p = .ok (some (newEnum span i), p.next.next.next) := by
    unfold enumHeader
    rw [bind_run, started, Outcome.ok_bind, bind_run, moved, Outcome.ok_bind, bind_run, named,
      Outcome.ok_bind]
    simp only
    rw [bind_run, opened, Outcome.ok_bind]
    rfl
  have body : p.next.next.next.rest = valuesKinds values ++ .rBrace :: after :=
    behindBrace.trans (List.append_assoc _ _ _)
  obtain ⟨vs, q, looped, valuesSame, left, quiet, _⟩ :=
    @enumLoop_rest text p.next.next.next _ fuel values (newEnum span i) fuel noKeyword body enough
  obtain ⟨_, closed⟩ := expect_rest text left
  refine ⟨{ newEnum span i with values := [] ++ vs, span := q.next.spanFrom span }, q.next, ?_, same,
    valuesSame, rfl, rfl, Parser.rest_next_of left, quiet⟩
  unfold parseEnum
  rw [bind_run, header, Outcome.ok_bind]
  simp only
  rw [bind_run, looped, Outcome.ok_bind]
  simp only
  rw [bind_run, closed, Outcome.ok_bind]
  rfl

end Enums

section Fields

variable {text : DebugText} {p : Parser} {after : List TokenKind} {fuel : Nat}

theorem parseLabel_optional (ahead : p.rest = .ident "optional" :: after) :
    parseLabel p = .ok (.optional, p.next) := by
  obtain ⟨_, moved, _⟩ := advance_rest ahead
  unfold parseLabel
  rw [bind_run, read_run, Outcome.ok_bind, ite_run, Parser.atKeyword_of_rest ahead,
    if_pos (decide_eq_true rfl), bind_run, moved, Outcome.ok_bind]
  rfl

/-- A type's name without dots. -/
theorem parseTypeRef_rest {ty : String} (ahead : p.rest = .ident ty :: after)
    (noDot : after.head? ≠ some .dot) : ∃ t, parseTypeRef fuel p = .ok (some t, p.next) := by
  obtain ⟨t, found, kind⟩ := Parser.peek_of_rest ahead
  unfold parseTypeRef
  rw [bind_run, read_run, Outcome.ok_bind]
  simp only [found, kind]
  cases ScalarType.fromKeyword ty with
  | some type =>
    obtain ⟨_, moved, _⟩ := advance_rest ahead
    exact ⟨.scalar type, by simp only; rw [bind_run, moved, Outcome.ok_bind]; rfl⟩
  | none =>
    obtain ⟨i, named, _⟩ := expectIdent_rest ahead
    have alone : p.next.peekKind ≠ some .dot := by
      rw [Parser.peekKind_eq, Parser.rest_next_of ahead]
      exact noDot
    refine ⟨.named ⟨i.name, ⟨t.span.start, (p.next.peekSpan.getD t.span).stop⟩⟩, ?_⟩
    have unrooted : ¬ p.peekKind = some .dot := by
      rw [Parser.peekKind_of_rest ahead]
      simp
    show parseTypeRef.named fuel t p = _
    unfold parseTypeRef.named
    rw [bind_run, read_run, Outcome.ok_bind]
    simp only [unrooted, if_false]
    rw [bind_run, named, Outcome.ok_bind]
    simp only
    rw [bind_run, repeatSome_done (by simp [alone]), Outcome.ok_bind]
    rfl

theorem parseOptionName_rest {name : String} (ahead : p.rest = .ident name :: .equals :: after) :
    parseOptionName fuel p = .ok (some name, p.next) := by
  obtain ⟨i, named, rfl⟩ := expectIdent_rest ahead
  have noParen : p.peekKind ≠ some .lParen := by
    rw [Parser.peekKind_of_rest ahead]
    simp
  have noDot : p.next.peekKind ≠ some .dot := by
    rw [Parser.peekKind_of_rest (Parser.rest_next_of ahead)]
    simp
  unfold parseOptionName
  rw [bind_run, read_run, Outcome.ok_bind, ite_run, if_neg noParen, bind_run, named, Outcome.ok_bind]
  simp only
  unfold dottedRest
  rw [bind_run, repeatWhile_done (by simp [noDot]), Outcome.ok_bind]
  rfl

/-- The tokens of a constant, and the constant that is read. Behind a point none is. -/
inductive DefaultKinds : List TokenKind → Option Constant → Prop where
  | int (v : Int64) : DefaultKinds [.int v] (some (.int v))
  | float (bits : UInt64) : DefaultKinds [.float bits] (some (.float bits))
  | pointed (kind : TokenKind) (number : kind.IsNumber) : DefaultKinds [.dot, kind] none

/-- Diagnostics have come, or there were some before. -/
def Noisy (p q : Parser) : Prop := Grows p q ∧ q.diagnostics ≠ []

theorem Noisy.of_grows {q r : Parser} (noisy : Noisy p q) (grows : Grows q r) : Noisy p r := by
  refine ⟨noisy.1.trans grows, fun none => noisy.2 ?_⟩
  unfold Grows at grows
  rwa [none, List.prefix_nil] at grows

theorem Grows.noisy {q r : Parser} (grows : Grows p q) (noisy : Noisy q r) : Noisy p r :=
  ⟨grows.trans noisy.1, noisy.2⟩

/-- What is kept of a field's options when the constant behind `default` is read. -/
def FieldOptions.withDefault (opts : FieldOptions) : Option Constant → FieldOptions
  | some c => { opts with default := some c }
  | none => opts

/-- What is made of a `default` option: the constant without a diagnostic, or diagnostics. -/
def Heard (p q : Parser) (default : Option Constant) : Option Constant → Prop
  | some c => default = some c ∧ q.diagnostics = p.diagnostics
  | none => Noisy p q

theorem parseFieldOption_default (ahead : p.rest = .ident "default" :: .equals :: after)
    (acc : FieldOptions) {c : Option Constant} {q : Parser}
    (constant : parseConstant text fuel p.next.next = .ok (c, q)) :
    parseFieldOption text fuel acc p =
      .ok (acc.withDefault c, q) := by
  obtain ⟨_, equals⟩ := expect_rest text (Parser.rest_next_of ahead)
  unfold parseFieldOption
  rw [bind_run, parseOptionName_rest ahead, Outcome.ok_bind]
  simp only
  rw [ite_run, if_neg (by decide), ite_run, if_pos trivial, bind_run, equals, Outcome.ok_bind, bind_run,
    constant, Outcome.ok_bind]
  cases c with
  | some c => rfl
  | none => rfl

/-- A number or a point is skipped where an option's name has to be. -/
theorem parseFieldOption_refused {kind : TokenKind} (other : kind = .dot ∨ kind.IsNumber)
    (ahead : p.rest = kind :: after) (acc : FieldOptions) :
    ∃ q, parseFieldOption text fuel acc p = .ok (acc, q) ∧ q.rest = after ∧ Noisy p q ∧
      q.depth = p.depth := by
  obtain ⟨t, moved, same⟩ := advance_rest ahead
  have noParen : p.peekKind ≠ some .lParen := by
    rw [Parser.peekKind_of_rest ahead]
    rintro ⟨⟩
    cases other with
    | inl same => cases same
    | inr number => cases number
  refine ⟨p.next.pushError .unexpectedToken "expected identifier" (some t.span), ?_,
    Parser.rest_next_of ahead, ⟨List.prefix_append _ _, by simp [Parser.pushError]⟩, rfl⟩
  have refused : expectIdent p =
      .ok (none, p.next.pushError .unexpectedToken "expected identifier" (some t.span)) := by
    unfold expectIdent
    rw [bind_run, moved, Outcome.ok_bind]
    simp only [same]
    cases kind with
    | ident name =>
      cases other with
      | inl same => cases same
      | inr number => cases number
    | _ => rfl
  unfold parseFieldOption parseOptionName
  rw [bind_run, bind_run, read_run, Outcome.ok_bind, ite_run, if_neg noParen, bind_run, refused,
    Outcome.ok_bind]
  rfl

theorem parseConstant_value {kinds : List TokenKind} {c : Constant} (kindsOf : DefaultKinds kinds (some c))
    (ahead : p.rest = kinds ++ after) :
    parseConstant text (fuel + 1) p = .ok (some c, p.next) ∧ p.next.rest = after := by
  cases kindsOf with
  | int v | float bits =>
    obtain ⟨t, found, kind⟩ := Parser.peek_of_rest ahead
    obtain ⟨_, moved, _⟩ := advance_rest ahead
    refine ⟨?_, Parser.rest_next_of ahead⟩
    rw [parseConstant_eq, bind_run, read_run, Outcome.ok_bind, found]
    dsimp only
    rw [kind]
    dsimp only
    rw [bind_run, moved, Outcome.ok_bind]
    rfl

theorem parseConstant_point (ahead : p.rest = .dot :: after) :
    ∃ span, parseConstant text (fuel + 1) p =
      .ok (none, p.pushError .invalidOption "expected a constant value" span) := by
  obtain ⟨t, found, kind⟩ := Parser.peek_of_rest ahead
  refine ⟨some t.span, ?_⟩
  rw [parseConstant_eq, bind_run, read_run, Outcome.ok_bind, found]
  dsimp only
  rw [kind]
  rfl

/-- A pass over the options between brackets at the `default` option. -/
private theorem optionsPass {acc acc' : FieldOptions} {q : Parser} {kind : TokenKind}
    (ran : parseFieldOption text fuel acc p = .ok (acc', q)) (ahead : q.rest = kind :: after)
    (noComma : kind ≠ .comma) :
    (do
      let acc ← parseFieldOption text fuel acc
      if (← read Parser.peekKind) = some .comma then
        let _ ← advance
      return acc : Parse FieldOptions) p = .ok (acc', q) := by
  have other : q.peekKind ≠ some .comma := by
    rw [Parser.peekKind_of_rest ahead]
    simpa using noComma
  rw [bind_run, ran, Outcome.ok_bind]
  simp only
  rw [bind_run, read_run, Outcome.ok_bind]
  simp only
  rw [if_neg other]
  rfl

private theorem before_bracket {kind : TokenKind} (ahead : p.rest = kind :: after)
    (other : kind ≠ .rBracket) : p.before .rBracket = true := by
  obtain ⟨t, found, _⟩ := Parser.peek_of_rest ahead
  rw [Parser.before, Parser.peekKind_of_rest ahead, found]
  simpa using other

private theorem not_before_bracket (ahead : p.rest = .rBracket :: after) :
    p.before .rBracket = false := by
  rw [Parser.before, Parser.peekKind_of_rest ahead]
  simp

/-- The tokens of a field's options with a default value. -/
def defaultKinds (constant : List TokenKind) : List TokenKind :=
  .lBracket :: .ident "default" :: .equals :: (constant ++ [.rBracket])

theorem parseFieldOptions_default {kinds : List TokenKind} {c : Option Constant}
    (kindsOf : DefaultKinds kinds c) (ahead : p.rest = defaultKinds kinds ++ after) :
    ∃ opts q, parseFieldOptions text (fuel + 4) p = .ok (opts, q) ∧ q.rest = after ∧
      q.depth = p.depth ∧ opts.jsonName = none ∧ Heard p q opts.default c := by
  have behindBracket := Parser.rest_next_of ahead
  have behindName := Parser.rest_next_of behindBracket
  have behindEquals : p.next.next.next.rest = kinds ++ .rBracket :: after :=
    (Parser.rest_next_of behindName).trans (List.append_assoc _ _ _)
  obtain ⟨_, moved, _⟩ := advance_rest ahead
  have opening : p.peekKind = some .lBracket := Parser.peekKind_of_rest ahead
  have begins : p.next.before .rBracket = true := before_bracket behindBracket (by simp)
  unfold parseFieldOptions
  rw [bind_run, read_run, Outcome.ok_bind, ite_run, if_pos opening, bind_run, moved, Outcome.ok_bind,
    bind_run]
  cases c with
  | some value =>
    obtain ⟨constant, behind⟩ := @parseConstant_value text _ _ (fuel + 3) _ _ kindsOf behindEquals
    obtain ⟨_, closed⟩ := expect_rest text behind
    have passed := optionsPass (parseFieldOption_default behindBracket {} constant) behind (by simp)
    rw [repeatWhile_step begins passed, repeatWhile_done (not_before_bracket behind), Outcome.ok_bind,
      bind_run, closed, Outcome.ok_bind]
    exact ⟨_, _, rfl, Parser.rest_next_of behind, rfl, rfl, rfl, rfl⟩
  | none =>
    -- the point, and then the number, are taken for further options
    cases kindsOf with
    | pointed kind number =>
      have noBracket : kind ≠ .rBracket := by rintro rfl; exact number
      have noComma : kind ≠ .comma := by rintro rfl; exact number
      obtain ⟨span, constant⟩ := @parseConstant_point text _ _ (fuel + 3) behindEquals
      have atPoint : (p.next.next.next.pushError .invalidOption "expected a constant value" span).rest =
        .dot :: kind :: .rBracket :: after := behindEquals
      have first := optionsPass (parseFieldOption_default behindBracket {} constant) atPoint (by simp)
      obtain ⟨q, pointed, atNumber, noisy, level⟩ :=
        @parseFieldOption_refused text _ _ (fuel + 4) _ (.inl rfl) atPoint {}
      have second := optionsPass pointed atNumber noComma
      obtain ⟨r, numbered, behind, noisy', level'⟩ :=
        @parseFieldOption_refused text _ _ (fuel + 4) _ (.inr number) atNumber {}
      have third := optionsPass numbered behind (by simp)
      obtain ⟨_, closed⟩ := expect_rest text behind
      have grows : Grows p (p.next.next.next.pushError .invalidOption "expected a constant value" span) :=
        List.prefix_append _ _
      rw [repeatWhile_step begins first, repeatWhile_step (before_bracket atPoint (by simp)) second,
        repeatWhile_step (before_bracket atNumber noBracket) third,
        repeatWhile_done (not_before_bracket behind), Outcome.ok_bind, bind_run, closed,
        Outcome.ok_bind]
      exact ⟨_, _, rfl, Parser.rest_next_of behind, level'.trans level, rfl,
        (grows.noisy noisy).of_grows noisy'.1⟩

/-- The tokens of a field with a default value. -/
def fieldKinds (ty name : String) (number : Int64) (constant : List TokenKind) : List TokenKind :=
  .ident "optional" :: .ident ty :: .ident name :: .equals :: .int number ::
    (defaultKinds constant ++ [.semicolon])

theorem parseField_default {ty name : String} {number : Int64} {kinds : List TokenKind}
    {c : Option Constant} (kindsOf : DefaultKinds kinds c)
    (ahead : p.rest = fieldKinds ty name number kinds ++ after) :
    ∃ f q, parseField text (fuel + 4) p = .ok (some f, q) ∧ f.name.name = name ∧ q.rest = after ∧
      q.depth = p.depth ∧ Heard p q f.default c := by
  have behindLabel := Parser.rest_next_of ahead
  have behindType := Parser.rest_next_of behindLabel
  have behindName := Parser.rest_next_of behindType
  have behindEquals := Parser.rest_next_of behindName
  have behindNumber : p.next.next.next.next.next.rest =
      defaultKinds kinds ++ .semicolon :: after :=
    (Parser.rest_next_of behindEquals).trans (List.append_assoc _ _ _)
  obtain ⟨span, started⟩ := startSpan_rest ahead
  obtain ⟨t, typed⟩ := @parseTypeRef_rest _ _ (fuel + 4) _ behindLabel (by simp)
  obtain ⟨i, named, same⟩ := expectIdent_rest behindType
  obtain ⟨_, equals⟩ := expect_rest text behindName
  obtain ⟨opts, q, options, behind, level, _, heard⟩ :=
    @parseFieldOptions_default text _ _ fuel _ _ kindsOf behindNumber
  obtain ⟨_, ended⟩ := expect_rest text behind
  refine ⟨⟨q.next.spanFrom span, i, number, t, .optional, opts.jsonName, opts.default, opts.options⟩,
    q.next, ?_, same, Parser.rest_next_of behind, level, ?_⟩
  · unfold parseField
    rw [bind_run, started, Outcome.ok_bind, bind_run, parseLabel_optional ahead, Outcome.ok_bind,
      bind_run, typed, Outcome.ok_bind]
    simp only
    rw [bind_run, named, Outcome.ok_bind]
    simp only
    rw [bind_run, equals, Outcome.ok_bind, bind_run, parseNumber_rest behindEquals, Outcome.ok_bind]
    simp only
    rw [bind_run, options, Outcome.ok_bind, bind_run, ended, Outcome.ok_bind]
    rfl
  · exact heard

/-- A field as it is declared, with the constant that is read for its default. -/
structure DeclaredField where
  ty : String
  name : String
  number : Int64
  kinds : List TokenKind
  constant : Option Constant
  reads : DefaultKinds kinds constant

def DeclaredField.tokens (f : DeclaredField) : List TokenKind := fieldKinds f.ty f.name f.number f.kinds

theorem messageItem_field {nested : Bool → Parse (Option Message)} {msg : Message} {f : DeclaredField}
    (ahead : p.rest = f.tokens ++ after) :
    ∃ g q, messageItem text nested (fuel + 4) msg p =
        .ok ({ msg with fields := msg.fields ++ [g] }, q) ∧ g.name.name = f.name ∧ q.rest = after ∧
      q.depth = p.depth ∧ Heard p q g.default f.constant := by
  obtain ⟨g, q, ran, name, behind, level, heard⟩ := @parseField_default text p _ fuel _ _ _ _ _ f.reads ahead
  refine ⟨g, q, ?_, name, behind, level, heard⟩
  have noKeyword (keyword : String) (other : "optional" ≠ keyword) : p.atKeyword keyword = false := by
    rw [Parser.atKeyword_of_rest ahead]
    simpa using other
  have ident : p.identText = some "optional" := by
    rw [Parser.identText, Parser.peekKind_of_rest ahead]
  unfold messageItem
  simp only [bind_run, read_run, Outcome.ok_bind, ite_run, noKeyword _ (by decide : "optional" ≠ "option"),
    noKeyword _ (by decide : "optional" ≠ "message"), noKeyword _ (by decide : "optional" ≠ "enum"),
    noKeyword _ (by decide : "optional" ≠ "oneof"), noKeyword _ (by decide : "optional" ≠ "map"),
    noKeyword _ (by decide : "optional" ≠ "reserved"),
    noKeyword _ (by decide : "optional" ≠ "extensions"),
    noKeyword _ (by decide : "optional" ≠ "extend"), noKeyword _ (by decide : "optional" ≠ "group"),
    ident, Option.isSome_some, Bool.or_true, Bool.false_eq_true, if_false, if_true]
  unfold orRecover
  rw [bind_run, ran, Outcome.ok_bind]
  rfl

/-- Fields are added to the message as they are declared. -/
theorem messageLoop_fields {nested : Bool → Parse (Option Message)} {fields : List DeclaredField}
    {msg : Message} {budget : Nat}
    (ahead : p.rest = fields.flatMap DeclaredField.tokens ++ .rBrace :: after)
    (enough : fields.length ≤ budget) :
    ∃ gs q, repeatWhile (fun _ p => p.before .rBrace) (messageItem text nested (fuel + 4)) budget msg p =
        .ok ({ msg with fields := msg.fields ++ gs }, q) ∧ q.rest = .rBrace :: after ∧
      q.depth = p.depth ∧ Grows p q ∧
      ((∀ f ∈ fields, f.constant.isSome = true) → q.diagnostics = p.diagnostics ∧
        gs.map (fun g => (g.name.name, g.default)) = fields.map fun f => (f.name, f.constant)) ∧
      ((∃ f ∈ fields, f.constant = none) → q.diagnostics ≠ []) := by
  induction fields generalizing p msg budget with
  | nil =>
    have finished : p.before .rBrace = false := by
      rw [Parser.before, Parser.peekKind_of_rest ahead]
      rfl
    refine ⟨[], p, ?_, ahead, rfl, List.prefix_refl _, fun _ => ⟨rfl, rfl⟩, ?_⟩
    · rw [repeatWhile_done finished, List.append_nil]
      cases msg
      rfl
    · rintro ⟨f, ⟨⟩, _⟩
  | cons f rest ih =>
    obtain ⟨budget, rfl⟩ : ∃ less, budget = less + 1 := ⟨budget - 1, by simp at enough; omega⟩
    have split : p.rest = f.tokens ++ (rest.flatMap DeclaredField.tokens ++ .rBrace :: after) := by
      rw [ahead, List.flatMap_cons, List.append_assoc]
    obtain ⟨g, r, ran, name, behind, level, heard⟩ := @messageItem_field text p _ fuel nested msg f split
    obtain ⟨gs, q, looped, left, level', grows, quiet, noisy⟩ :=
      @ih r { msg with fields := msg.fields ++ [g] } budget behind (Nat.le_of_succ_le_succ enough)
    have continues : p.before .rBrace = true := by
      obtain ⟨t, found, _⟩ := Parser.peek_of_rest split
      rw [Parser.before, Parser.peekKind_of_rest split, found]
      rfl
    refine ⟨g :: gs, q, ?_, left, level'.trans level, ?_, fun all => ?_, ?_⟩
    · rw [repeatWhile_step continues ran, looped, List.append_assoc]
      rfl
    · cases constant : f.constant with
      | some c =>
        rw [constant] at heard
        rw [Grows, ← heard.2]
        exact grows
      | none =>
        rw [constant] at heard
        exact heard.1.trans grows
    · rw [List.forall_mem_cons] at all
      obtain ⟨c, constant⟩ := Option.isSome_iff_exists.mp all.1
      obtain ⟨same, defaults⟩ := quiet all.2
      rw [constant] at heard
      refine ⟨same.trans heard.2, ?_⟩
      rw [List.map_cons, List.map_cons, defaults, name, heard.1, constant]
    · rintro ⟨h, member, none⟩
      rcases List.mem_cons.mp member with rfl | later
      · rw [none] at heard
        exact (heard.of_grows grows).2
      · exact noisy ⟨h, later, none⟩

/-- The tokens of a message. -/
def messageKinds (name : String) (fields : List DeclaredField) : List TokenKind :=
  .ident "message" :: .ident name :: .lBrace :: (fields.flatMap DeclaredField.tokens ++ [.rBrace])

theorem parseMessage_fields {name : String} {fields : List DeclaredField}
    (ahead : p.rest = messageKinds name fields ++ after) (shallow : p.depth = 0)
    (enough : fields.length ≤ fuel) :
    ∃ m q, parseMessage text (fuel + 5) false p = .ok (some m, q) ∧ q.rest = after ∧ Grows p q ∧
      m.name.name = name ∧ m.oneofs = [] ∧ m.maps = [] ∧
      ((∀ f ∈ fields, f.constant.isSome = true) → q.diagnostics = p.diagnostics ∧
        m.fields.map (fun g => (g.name.name, g.default)) = fields.map fun f => (f.name, f.constant)) ∧
      ((∃ f ∈ fields, f.constant = none) → q.diagnostics ≠ []) := by
  let entry : Parser := { p with depth := p.depth + 1 }
  have entered : entry.rest = messageKinds name fields ++ after := ahead
  have behindKeyword := Parser.rest_next_of entered
  have behindName := Parser.rest_next_of behindKeyword
  have body : entry.next.next.next.rest = fields.flatMap DeclaredField.tokens ++ .rBrace :: after :=
    (Parser.rest_next_of behindName).trans (List.append_assoc _ _ _)
  obtain ⟨span, started⟩ := startSpan_rest entered
  obtain ⟨_, moved, _⟩ := advance_rest entered
  obtain ⟨i, named, same⟩ := expectIdent_rest behindKeyword
  obtain ⟨_, opened⟩ := expect_rest text behindName
  have header : messageHeader text false entry =
      .ok (some (newMessage span i false 0), entry.next.next.next) := by
    unfold messageHeader
    rw [bind_run, started, Outcome.ok_bind, bind_run, moved, Outcome.ok_bind, bind_run, named,
      Outcome.ok_bind]
    simp only
    rw [bind_run]
    show expect text .lBrace entry.next.next >>= _ = _
    rw [opened, Outcome.ok_bind]
    rfl
  obtain ⟨gs, q, looped, left, level, grows, quiet, noisy⟩ :=
    @messageLoop_fields text _ _ fuel (parseMessage text (fuel + 4)) fields (newMessage span i false 0)
      (fuel + 4) body (Nat.le_add_right_of_le enough)
  obtain ⟨_, closed⟩ := expect_rest text left
  refine ⟨{ newMessage span i false 0 with fields := [] ++ gs },
    { q.next with depth := q.next.depth - 1 }, ?_, Parser.rest_next_of left, grows, same, rfl, rfl,
    quiet, noisy⟩
  have inner : parseMessageInner text (parseMessage text (fuel + 4)) (fuel + 4) false entry =
      .ok (some { newMessage span i false 0 with fields := [] ++ gs }, q.next) := by
    unfold parseMessageInner
    rw [bind_run, header, Outcome.ok_bind]
    simp only
    unfold parseMessageBody
    rw [bind_run, bind_run, looped, Outcome.ok_bind, bind_run, closed, Outcome.ok_bind]
    rfl
  have room : ¬ maxProtoNesting ≤ p.depth := by
    rw [shallow]
    decide
  have entering : parseMessage text (fuel + 5) false p =
      parseMessageInner text (parseMessage text (fuel + 4)) (fuel + 4) false entry >>= fun r =>
        .ok (r.1, { r.2 with depth := r.2.depth - 1 }) := by
    rw [parseMessage_run_eq, if_neg room]
    rfl
  rw [entering, inner, Outcome.ok_bind]

end Fields

section Files

variable {text : DebugText} {name : String} {tokens : List Token} {fuel : Nat}

/-- A file of one item is parsed as that item is. -/
private theorem parseFile_single {file : File} {q : Parser}
    (ran : fileItem text (fuel + 1) { name } { name, tokens } = .ok (file, q)) (filled : tokens ≠ [])
    (left : q.rest = []) : parseTokens text (fuel + 1) name tokens = .ok (file, q) := by
  have continues : (Parser.peek { name, tokens }).isSome = true := by
    cases tokens with
    | nil => exact absurd rfl filled
    | cons t rest => rfl
  have finished : q.peek.isSome = false := by
    have none := q.peekKind_eq
    rw [left, Parser.peekKind] at none
    rw [Option.map_eq_none_iff.mp none]
    rfl
  unfold parseTokens parseFile
  rw [bind_run, read_run, Outcome.ok_bind]
  simp only
  rw [repeatWhile_step continues ran, repeatWhile_done finished]

/-- A file of one enum. -/
theorem parseTokens_enum {enumName : String} {values : List (String × Int64)}
    (noKeyword : ∀ v ∈ values, v.1 ≠ "option" ∧ v.1 ≠ "reserved")
    (kinds : tokens.map (fun t => t.kind) = enumKinds enumName values) (enough : values.length ≤ fuel) :
    ∃ e q, parseTokens text (fuel + 1) name tokens = .ok ({ name, enums := [e] }, q) ∧
      q.diagnostics = [] ∧ e.name.name = enumName ∧
      e.values.map (fun v => (v.name.name, v.number)) = values ∧ e.reservedRanges = [] ∧
      e.reservedNames = [] := by
  have ahead : Parser.rest { name, tokens } = enumKinds enumName values ++ [] :=
    kinds.trans (List.append_nil _).symm
  obtain ⟨e, q, ran, same, valuesSame, ranges, names, left, quiet⟩ :=
    @parseEnum_rest text _ _ (fuel + 1) _ _ noKeyword ahead (Nat.le_add_right_of_le enough)
  refine ⟨e, q, parseFile_single ?_ ?_ left, quiet, same, valuesSame, ranges, names⟩
  · have noWord (keyword : String) (other : "enum" ≠ keyword) :
        Parser.atKeyword { name, tokens } keyword = false := by
      rw [Parser.atKeyword_of_rest ahead]
      simpa using other
    have here : Parser.atKeyword { name, tokens } "enum" = true := by
      rw [Parser.atKeyword_of_rest ahead]
      rfl
    unfold fileItem
    simp only [bind_run, read_run, Outcome.ok_bind, ite_run, noWord _ (by decide : "enum" ≠ "syntax"),
      noWord _ (by decide : "enum" ≠ "edition"), noWord _ (by decide : "enum" ≠ "package"),
      noWord _ (by decide : "enum" ≠ "import"), noWord _ (by decide : "enum" ≠ "option"),
      noWord _ (by decide : "enum" ≠ "message"), here, Bool.false_eq_true, if_false, if_true]
    unfold orRecover
    rw [bind_run, ran, Outcome.ok_bind]
    rfl
  · rintro rfl
    cases kinds

/-- A file of one message. -/
theorem parseTokens_message {messageName : String} {fields : List DeclaredField}
    (kinds : tokens.map (fun t => t.kind) = messageKinds messageName fields)
    (enough : fields.length ≤ fuel) :
    ∃ m q, parseTokens text (fuel + 5) name tokens = .ok ({ name, messages := [m] }, q) ∧
      m.name.name = messageName ∧ m.oneofs = [] ∧ m.maps = [] ∧
      ((∀ f ∈ fields, f.constant.isSome = true) → q.diagnostics = [] ∧
        m.fields.map (fun g => (g.name.name, g.default)) = fields.map fun f => (f.name, f.constant)) ∧
      ((∃ f ∈ fields, f.constant = none) → q.diagnostics ≠ []) := by
  have ahead : Parser.rest { name, tokens } = messageKinds messageName fields ++ [] :=
    kinds.trans (List.append_nil _).symm
  obtain ⟨m, q, ran, left, _, same, noOneofs, noMaps, quiet, noisy⟩ :=
    @parseMessage_fields text _ _ fuel _ _ ahead rfl enough
  refine ⟨m, q, parseFile_single ?_ ?_ left, same, noOneofs, noMaps, quiet, noisy⟩
  · have noWord (keyword : String) (other : "message" ≠ keyword) :
        Parser.atKeyword { name, tokens } keyword = false := by
      rw [Parser.atKeyword_of_rest ahead]
      simpa using other
    have here : Parser.atKeyword { name, tokens } "message" = true := by
      rw [Parser.atKeyword_of_rest ahead]
      rfl
    unfold fileItem
    simp only [bind_run, read_run, Outcome.ok_bind, ite_run, noWord _ (by decide : "message" ≠ "syntax"),
      noWord _ (by decide : "message" ≠ "edition"), noWord _ (by decide : "message" ≠ "package"),
      noWord _ (by decide : "message" ≠ "import"), noWord _ (by decide : "message" ≠ "option"), here,
      Bool.false_eq_true, if_false, if_true]
    unfold orRecover
    rw [bind_run, ran, Outcome.ok_bind]
    rfl
  · rintro rfl
    cases kinds

end Files

end Parse

end TptProto.Language
