import TptProto.Text.Grammar
import TptProto.Text.Lexed

/-! Which texts the parser panics on. -/

namespace TptProto.Text

open TptProto.Foundation TptProto.Core TptProto.Descriptor TptProto.Reflect

section Strings

/-- A backslash stands directly before a character of several bytes. -/
def CutsEscape (s : Scan) : Prop := ∃ e behind, s.rest = '\\' :: e :: behind ∧ 128 ≤ e.toNat

/-- The scan of a string in quotes comes to an escape that cuts a character. -/
def StringOffends (quote : Char) (rest : List Char) : Prop :=
  ∃ s, Visits Scan.more (scanStep quote) { rest } s ∧ CutsEscape s

private theorem unescape_returns_iff {e : Char} {rest : List Char} :
    (unescape e rest).Returns ↔ e.toNat < 128 := by
  unfold unescape
  split
  · rename_i same
    exact iff_of_true trivial (by rw [same]; decide)
  split
  · rename_i same
    exact iff_of_true trivial (by rw [same]; decide)
  split
  · rename_i same
    exact iff_of_true trivial (by rw [same]; decide)
  split
  · rename_i same
    refine iff_of_true trivial ?_
    rcases same with rfl | rfl | rfl <;> decide
  split
  · rename_i same
    exact iff_of_true trivial (by rw [same]; decide)
  split
  · rename_i same
    exact iff_of_true trivial (by rw [same]; decide)
  split
  · rename_i same
    refine iff_of_true ?_ (by rw [same]; decide)
    split <;> trivial
  split
  · exact iff_of_true trivial ‹_›
  · exact iff_of_false not_false ‹_›

private theorem scanStep_returns_iff {quote : Char} {s : Scan} (plain : quote ≠ '\\') :
    (scanStep quote s).Returns ↔ ¬ CutsEscape s := by
  unfold scanStep CutsEscape
  split
  · rename_i same
    simp [same, Outcome.Returns]
  · rename_i c rest same
    split
    · rename_i quoted
      refine iff_of_true trivial ?_
      rintro ⟨e, behind, cut, _⟩
      rw [same] at cut
      exact plain (quoted.symm.trans (List.cons.inj cut).1)
    · split
      · rename_i e behind
        rw [Outcome.returns_bind_iff, unescape_returns_iff, same]
        constructor
        · rintro ⟨single, _⟩ ⟨_, _, cut, wide⟩
          cases cut
          omega
        · intro whole
          refine ⟨?_, fun _ _ => trivial⟩
          exact Nat.lt_of_not_le fun wide => whole ⟨_, _, rfl, wide⟩
      · rename_i other
        refine iff_of_true trivial ?_
        rintro ⟨e, behind, cut, _⟩
        rw [same] at cut
        obtain ⟨rfl, rfl⟩ := List.cons.inj cut
        exact other e behind rfl rfl

private theorem parseString_returns_iff {quote : Char} {input start rest : List Char}
    (plain : quote ≠ '\\') :
    (parseString input quote start rest).Returns ↔ ¬ StringOffends quote rest := by
  unfold parseString
  have positive (s : Scan) (more : s.more = true) : 0 < s.rest.length := by
    cases same : s.rest with
    | nil => simp [Scan.more, same] at more
    | cons c rest => exact Nat.succ_pos _
  have looped : (loop Scan.more (scanStep quote) rest.length { rest }).Returns ↔ _ :=
    loop_returns_iff (fun s : Scan => s.rest.length) positive (fun _ _ => scanStep_shorter)
      (Nat.le_refl _)
  rw [Outcome.returns_bind_iff, looped]
  constructor
  · rintro ⟨all, _⟩ ⟨s, visits, cut⟩
    exact (scanStep_returns_iff plain).mp (all s visits) cut
  · intro whole
    refine ⟨fun s visits => (scanStep_returns_iff plain).mpr fun cut => whole ⟨s, visits, cut⟩, ?_⟩
    intro s _
    split <;> trivial

end Strings

section Tokens

variable {fmt : Formatting}

/-- The lexer is at a string in quotes in which an escape cuts a character. -/
def LexOffends (s : Lexed) : Prop :=
  ∃ quote rest, s.1 = quote :: rest ∧ (quote = '"' ∨ quote = '\'') ∧ StringOffends quote rest

private theorem lexStep_returns_iff {input : List Char} {s : Lexed} :
    (lexStep fmt input s).Returns ↔ ¬ LexOffends s := by
  cases same : s.1 with
  | nil =>
    unfold lexStep LexOffends
    rw [same]
    exact iff_of_true trivial nofun
  | cons c rest =>
    have offends : LexOffends s ↔ (c = '"' ∨ c = '\'') ∧ StringOffends c rest := by
      unfold LexOffends
      rw [same]
      constructor
      · rintro ⟨_, _, cut, quoted, offends⟩
        cases cut
        exact ⟨quoted, offends⟩
      · rintro ⟨quoted, offends⟩
        exact ⟨c, rest, rfl, quoted, offends⟩
    have unquoted {result : TextResult Lexed} (plain : ¬ (c = '"' ∨ c = '\''))
        (returns : result.Returns) : result.Returns ↔ ¬ LexOffends s :=
      iff_of_true returns fun cut => plain (offends.mp cut).1
    unfold lexStep
    rw [same]
    simp only
    split
    · rename_i blank
      refine unquoted ?_ trivial
      rintro (rfl | rfl) <;> exact absurd blank (by decide)
    split
    · rename_i comment
      refine unquoted ?_ trivial
      rintro (rfl | rfl) <;> exact absurd comment (by decide)
    split
    · rename_i tok delimiter
      refine unquoted ?_ trivial
      rintro (rfl | rfl) <;> cases delimiter
    split
    · rename_i quoted
      have plain : c ≠ '\\' := by
        rintro rfl
        exact absurd quoted (by decide)
      rw [Outcome.returns_bind_iff, parseString_returns_iff plain, offends]
      constructor
      · rintro ⟨whole, _⟩ ⟨_, cut⟩
        exact whole cut
      · intro whole
        exact ⟨fun cut => whole ⟨quoted, cut⟩, fun _ _ => trivial⟩
    · rename_i plain
      refine unquoted plain ?_
      split
      · trivial
      split
      · refine Outcome.Returns.bind ?_ fun _ _ => trivial
        unfold parseNumber
        simp only
        split <;> trivial
      · trivial

/-- The text has a string in quotes, before anything that is no token, in which a backslash stands
directly before a character of several bytes. -/
def InputOffends (fmt : Formatting) (input : String) : Prop :=
  ∃ s, Visits lexMore (lexStep fmt input.toList) (input.toList, []) s ∧ LexOffends s

theorem tokenize_returns_iff {input : String} :
    (tokenize fmt input).Returns ↔ ¬ InputOffends fmt input := by
  have positive (s : Lexed) (more : lexMore s = true) : 0 < s.1.length := by
    cases same : s.1 with
    | nil => simp [lexMore, same] at more
    | cons c rest => exact Nat.succ_pos _
  have looped : (loop lexMore (lexStep fmt input.toList) input.toList.length
      (input.toList, [])).Returns ↔ _ :=
    loop_returns_iff (fun s : Lexed => s.1.length) positive (fun _ _ => lexStep_shorter)
      (Nat.le_refl _)
  unfold tokenize
  simp only
  rw [Outcome.returns_bind_iff, looped]
  constructor
  · rintro ⟨all, _⟩ ⟨s, visits, cut⟩
    exact lexStep_returns_iff.mp (all s visits) cut
  · intro whole
    refine ⟨fun s visits => lexStep_returns_iff.mpr fun cut => whole ⟨s, visits, cut⟩, ?_⟩
    exact fun _ _ => trivial

end Tokens

section Hexadecimal

/-- A character extends over an even byte position, when the first one begins at a position. -/
def Straddles : Nat → List Char → Prop
  | _, [] => False
  | start, c :: rest =>
    (∃ i, i % 2 = 0 ∧ start < i ∧ i < start + c.utf8Size) ∨ Straddles (start + c.utf8Size) rest

/-- The digits that `parse_hex` slices: an odd number of bytes is made even. -/
def hexDigits (s : String) : List Char :=
  let digits := trimPairs '0' 'X' (trimPairs '0' 'x' s.toList)
  if (String.ofList digits).utf8ByteSize % 2 = 0 then digits else '0' :: digits

private theorem straddles_shift (start : Nat) (chars : List Char) :
    Straddles (start + 2) chars ↔ Straddles start chars := by
  induction chars generalizing start with
  | nil => exact Iff.rfl
  | cons c rest inductionHypothesis =>
    unfold Straddles
    rw [show start + 2 + c.utf8Size = start + c.utf8Size + 2 by omega, inductionHypothesis]
    refine or_congr ⟨?_, ?_⟩ Iff.rfl
    · rintro ⟨i, even, above, below⟩
      exact ⟨i - 2, by omega, by omega, by omega⟩
    · rintro ⟨i, even, above, below⟩
      exact ⟨i + 2, by omega, by omega, by omega⟩

private theorem hexSlices_returns_iff (chars : List Char) :
    (parseHex.hexSlices chars).Returns ↔ ¬ Straddles 0 chars := by
  fun_induction parseHex.hexSlices chars with
  | case1 => exact iff_of_true trivial id
  | case2 x single y rest single' inductionHypothesis =>
    have shifted := straddles_shift 0 rest
    refine (Outcome.returns_map_iff.trans inductionHypothesis).trans (not_congr ?_)
    rw [Straddles, Straddles, single, single']
    constructor
    · exact fun cut => .inr (.inr (shifted.mpr cut))
    · rintro (⟨i, even, above, below⟩ | ⟨i, even, above, below⟩ | cut)
      · omega
      · omega
      · exact shifted.mp cut
  | case3 x single y rest wide =>
    refine iff_of_false not_false fun whole => whole (.inr (.inl ⟨2, rfl, by omega, ?_⟩))
    have least := y.utf8Size_pos
    omega
  | case4 x single =>
    refine iff_of_true trivial ?_
    rintro (⟨i, even, above, below⟩ | never)
    · omega
    · exact never
  | case5 x rest apart double inductionHypothesis =>
    have shifted := straddles_shift 0 rest
    refine inductionHypothesis.trans (not_congr ?_)
    rw [Straddles, double]
    constructor
    · exact fun cut => .inr (shifted.mpr cut)
    · rintro (⟨i, even, above, below⟩ | cut)
      · omega
      · exact shifted.mp cut
  | case6 x rest apart wide =>
    refine iff_of_false not_false fun whole => whole (.inl ⟨2, rfl, by omega, ?_⟩)
    have least := x.utf8Size_pos
    omega

theorem parseHex_returns_iff (s : String) :
    (parseHex s).Returns ↔ ¬ Straddles 0 (hexDigits s) := hexSlices_returns_iff _

end Hexadecimal

section Offences

variable (fmt : Formatting) (pool : DescriptorPool) (opts : TextOptions)

/-- A bytes field is given a string of which a hexadecimal slice cuts a character. -/
def ScalarOffends (t : FieldType) (tok : Tok) : Prop :=
  ∃ s, tok = .str s ∧ t = .bytes ∧ Straddles 0 (hexDigits s)

section Nested

variable (offends : Nat → DescriptorProto → List Tok → Prop)

def NestedOffends (depth : Nat) (desc : DescriptorProto) (toks : List Tok) : Prop :=
  ∃ opener rest, toks = opener :: rest ∧ opener.opens = true ∧ offends depth desc rest

def ValueOffends (field : FieldDescriptorProto) (depth : Nat) (toks : List Tok) : Prop :=
  match field.type.getD .string with
  | .message | .group => NestedOffends offends (depth + 1) (subDescriptor pool field) toks
  | .enum => False
  | t => ∃ tok rest, toks = tok :: rest ∧ ScalarOffends t tok

def FieldOffends (desc : DescriptorProto) (depth : Nat) (name : String) (toks : List Tok) :
    Prop :=
  ∃ field, fieldNamed desc name = some field ∧
    (NestedOffends offends (depth + 1) (subDescriptor pool field) toks ∨
      ∃ rest, toks = .colon :: rest ∧ ValueOffends pool offends field (depth + 1) rest)

def TypedOffends (depth : Nat) (toks : List Tok) : Prop :=
  ∃ typeName sub rest, toks = .ident typeName :: .rBracket :: rest ∧
    pool.lookupMessage typeName = some sub ∧ NestedOffends offends (depth + 1) sub rest

def StepOffends (desc : DescriptorProto) (depth : Nat) (toks : List Tok) : Prop :=
  (∃ rest, toks = .lBracket :: rest ∧ TypedOffends pool offends depth rest) ∨
    ∃ tok name rest, toks = tok :: rest ∧ (tok = .ident name ∨ tok = .raw name) ∧
      FieldOffends pool offends desc depth name rest

variable (recurse : Nat → DescriptorProto → List Tok → TextResult Body)

/-- The passes over a body come to a field that offends. -/
def BodyOffends (depth : Nat) (desc : DescriptorProto) (toks : List Tok) : Prop :=
  depth ≤ opts.maxDepth ∧
    ∃ body, Visits bodyMore (bodyStep fmt pool recurse desc depth) (toks, DynMsg.new desc pool) body ∧
      StepOffends pool offends desc depth body.1

end Nested

/-- Somewhere in the body of a message, or in those nested in it, the parser comes to a bytes field
with a string of which a hexadecimal slice cuts a character. -/
def Offends : Nat → Nat → DescriptorProto → List Tok → Prop
  | 0 => fun _ _ _ => False
  | left + 1 => BodyOffends fmt pool opts (Offends left) (parseMessageBody fmt pool opts left)

end Offences

section Scalars

variable {pool : DescriptorPool} {field : FieldDescriptorProto}

private theorem intToScalar_returns (t : FieldType) (n : Int64) :
    (intToScalar t n field).Returns := by
  cases t <;> trivial

private theorem uintToScalar_returns (t : FieldType) (n : UInt64) :
    (uintToScalar t n field).Returns := by
  cases t <;> trivial

private theorem scalarOfTok_returns_iff {t : FieldType} {tok : Tok} :
    (scalarOfTok t field tok).Returns ↔ ¬ ScalarOffends t tok := by
  have unquoted (plain : ∀ s, tok ≠ .str s) (returns : (scalarOfTok t field tok).Returns) :
      (scalarOfTok t field tok).Returns ↔ ¬ ScalarOffends t tok :=
    iff_of_true returns fun ⟨s, same, _⟩ => plain s same
  cases tok with
  | str s =>
    cases t with
    | bytes =>
      refine (Outcome.returns_map_iff.trans (parseHex_returns_iff s)).trans (not_congr ?_)
      constructor
      · exact fun cut => ⟨s, rfl, rfl, cut⟩
      · rintro ⟨_, same, _, cut⟩
        cases same
        exact cut
    | _ => exact iff_of_true trivial fun ⟨_, _, never, _⟩ => by cases never
  | int n => exact unquoted nofun (intToScalar_returns t n)
  | uint n => exact unquoted nofun (uintToScalar_returns t n)
  | float bits => exact unquoted nofun trivial
  | raw s =>
    refine unquoted nofun ?_
    unfold scalarOfTok
    simp only
    repeat' split
    all_goals trivial
  | _ => exact unquoted nofun trivial

private theorem enumOfTok_returns (tok : Tok) : (enumOfTok pool field tok).Returns := by
  unfold enumOfTok
  simp only
  split
  · trivial
  · trivial
  · refine (Outcome.Returns.ofOption _ _).bind fun edesc _ => ?_
    split
    · trivial
    · exact Outcome.Returns.ofOption _ _
  · refine (Outcome.Returns.ofOption _ _).bind fun edesc _ => ?_
    split
    · trivial
    · exact Outcome.Returns.ofOption _ _
  · trivial

end Scalars

section Bodies

variable {fmt : Formatting} {pool : DescriptorPool} {opts : TextOptions}
  {recurse : Nat → DescriptorProto → List Tok → TextResult Body}
  {offends : Nat → DescriptorProto → List Tok → Prop} {desc : DescriptorProto} {depth : Nat}
  {toks : List Tok} {msg : DynamicMessage}

/-- The offences are what keeps a body from returning. -/
def Explains (offends : Nat → DescriptorProto → List Tok → Prop)
    (recurse : Nat → DescriptorProto → List Tok → TextResult Body) : Prop :=
  ∀ depth desc toks, (recurse depth desc toks).Returns ↔ ¬ offends depth desc toks

private theorem opener_cases {tok : Tok} (opened : tok.opens = true) :
    tok = .lBrace ∨ tok = .lAngle := by
  unfold Tok.opens at opened
  split at opened
  · exact .inl rfl
  · exact .inr rfl
  · cases opened

private theorem parseNested_returns_iff (explains : Explains offends recurse) (opener : Tok)
    (opened : opener.opens = true) :
    (parseNested fmt recurse depth desc toks).Returns ↔
      ¬ NestedOffends offends depth desc (opener :: toks) := by
  unfold parseNested
  rw [Outcome.returns_bind_iff, explains depth desc toks]
  constructor
  · rintro ⟨whole, _⟩ ⟨_, _, same, _, cut⟩
    cases same
    exact whole cut
  · intro whole
    refine ⟨fun cut => whole ⟨opener, toks, rfl, opened, cut⟩, fun body _ => ?_⟩
    refine Outcome.Returns.bind ?_ fun _ _ => trivial
    unfold closeDelim
    split <;> trivial

private theorem message_returns_iff (explains : Explains offends recurse) (opener : Tok)
    (opened : opener.opens = true) :
    (do
      let (rest, inner) ← parseNested fmt recurse depth desc toks
      .ok (rest, .message inner) : TextResult (List Tok × Value)).Returns ↔
      ¬ NestedOffends offends depth desc (opener :: toks) := by
  rw [Outcome.returns_bind_iff, parseNested_returns_iff explains opener opened]
  exact and_iff_left fun _ _ => trivial

private theorem not_nestedOffends {rest : List Tok} (other : ∀ tok behind, rest = tok :: behind →
    tok.opens = false) : ¬ NestedOffends offends depth desc rest := by
  rintro ⟨opener, behind, rfl, opened, _⟩
  rw [other opener behind rfl] at opened
  cases opened

private theorem messageValue_returns_iff (explains : Explains offends recurse) :
    (match toks with
      | .lBrace :: rest | .lAngle :: rest => do
        let (rest, inner) ← parseNested fmt recurse depth desc rest
        .ok (rest, .message inner)
      | _ => .err (.syntaxError "expected message body") : TextResult (List Tok × Value)).Returns ↔
      ¬ NestedOffends offends depth desc toks := by
  split
  · exact message_returns_iff explains .lBrace rfl
  · exact message_returns_iff explains .lAngle rfl
  · rename_i noBrace noAngle
    refine iff_of_true trivial (not_nestedOffends ?_)
    rintro tok behind rfl
    cases tok <;> first | rfl | exact (noBrace _ rfl).elim | exact (noAngle _ rfl).elim

private theorem enumValue_returns {field : FieldDescriptorProto} :
    (match toks with
      | [] => .err (.syntaxError "expected enum value")
      | tok :: rest => (enumOfTok pool field tok).map fun n => (rest, .enum n) :
        TextResult (List Tok × Value)).Returns := by
  split
  · trivial
  · exact Outcome.returns_map_iff.mpr (enumOfTok_returns _)

private theorem scalarValue_returns_iff {field : FieldDescriptorProto} {t : FieldType} :
    (match toks with
      | [] => .err (.syntaxError "expected value")
      | tok :: rest => (scalarOfTok t field tok).map fun s => (rest, .scalar s) :
        TextResult (List Tok × Value)).Returns ↔
      ¬ ∃ tok rest, toks = tok :: rest ∧ ScalarOffends t tok := by
  split
  · exact iff_of_true trivial nofun
  · refine (Outcome.returns_map_iff.trans scalarOfTok_returns_iff).trans (not_congr ?_)
    constructor
    · exact fun cut => ⟨_, _, rfl, cut⟩
    · rintro ⟨_, _, same, cut⟩
      cases same
      exact cut

private theorem parseValue_returns_iff (explains : Explains offends recurse)
    {field : FieldDescriptorProto} :
    (parseValue fmt pool recurse field depth toks).Returns ↔
      ¬ ValueOffends pool offends field depth toks := by
  unfold parseValue ValueOffends
  cases field.type.getD .string with
  | message => exact messageValue_returns_iff explains
  | group => exact messageValue_returns_iff explains
  | enum =>
    simp only [not_false_eq_true, iff_true]
    exact enumValue_returns
  | _ =>
    simp only
    exact scalarValue_returns_iff

private theorem parseField_returns_iff (explains : Explains offends recurse) {name : String} :
    (parseField fmt pool recurse desc depth name (toks, msg)).Returns ↔
      ¬ FieldOffends pool offends desc depth name toks := by
  unfold parseField
  cases found : fieldNamed desc name with
  | none =>
    rw [Outcome.ofOption_none, Outcome.err_bind]
    refine iff_of_true (Outcome.Returns.err _) ?_
    rintro ⟨field, never, _⟩
    cases found.symm.trans never
  | some field =>
    have offence : FieldOffends pool offends desc depth name toks ↔
        NestedOffends offends (depth + 1) (subDescriptor pool field) toks ∨
          ∃ rest, toks = .colon :: rest ∧ ValueOffends pool offends field (depth + 1) rest := by
      constructor
      · rintro ⟨_, same, cut⟩
        cases found.symm.trans same
        exact cut
      · exact fun cut => ⟨field, found, cut⟩
    rw [Outcome.ofOption_some, Outcome.ok_bind, Outcome.returns_bind_iff, offence]
    refine (and_iff_left ?_).trans ?_
    · rintro ⟨rest, value⟩ _
      simp only
      split <;> exact Outcome.Returns.ok _
    · split
      · rename_i rest same
        obtain rfl : toks = _ := same
        rw [message_returns_iff explains .lBrace rfl, not_or]
        exact (and_iff_left nofun).symm
      · rename_i rest same
        obtain rfl : toks = _ := same
        rw [message_returns_iff explains .lAngle rfl, not_or]
        exact (and_iff_left nofun).symm
      · rename_i rest same
        obtain rfl : toks = _ := same
        rw [parseValue_returns_iff explains, not_or]
        constructor
        · intro whole
          refine ⟨?_, fun ⟨_, same, cut⟩ => ?_⟩
          · rintro ⟨_, _, same, opened, _⟩
            cases same
            cases opened
          · cases same
            exact whole cut
        · rintro ⟨_, whole⟩ cut
          exact whole ⟨rest, rfl, cut⟩
      · rename_i noBrace noAngle noColon
        refine iff_of_true (Outcome.Returns.err _) ?_
        rintro (⟨opener, rest, rfl, opened, _⟩ | ⟨rest, rfl, _⟩)
        · rcases opener_cases opened with rfl | rfl
          · exact noBrace _ rfl
          · exact noAngle _ rfl
        · exact noColon _ rfl

private theorem parseTyped_returns_iff (explains : Explains offends recurse) :
    (parseTyped fmt pool recurse desc depth (toks, msg)).Returns ↔
      ¬ TypedOffends pool offends depth toks := by
  have apart (other : ∀ typeName rest, toks ≠ .ident typeName :: .rBracket :: rest) :
      ¬ TypedOffends pool offends depth toks := fun ⟨_, _, _, same, _⟩ => other _ _ same
  unfold parseTyped
  split
  · rename_i typeName rest same
    obtain rfl : toks = _ := same
    rw [Outcome.ok_bind]
    simp only
    split
    · rename_i rest
      rw [Outcome.ok_bind]
      cases found : pool.lookupMessage typeName with
      | none =>
        rw [Outcome.ofOption_none, Outcome.err_bind]
        refine iff_of_true (Outcome.Returns.err _) ?_
        rintro ⟨_, _, _, same, never, _⟩
        cases same
        cases found.symm.trans never
      | some sub =>
        have offence : TypedOffends pool offends depth (.ident typeName :: .rBracket :: rest) ↔
            NestedOffends offends (depth + 1) sub rest := by
          constructor
          · rintro ⟨_, _, _, same, known, cut⟩
            cases same
            cases found.symm.trans known
            exact cut
          · exact fun cut => ⟨typeName, sub, rest, rfl, found, cut⟩
        rw [Outcome.ofOption_some, Outcome.ok_bind, offence]
        split
        · refine (Outcome.returns_bind_iff.trans (and_iff_left ?_)).trans
            (parseNested_returns_iff explains .lBrace rfl)
          rintro ⟨rest, inner⟩ _
          simp only
          split <;> exact Outcome.Returns.ok _
        · refine (Outcome.returns_bind_iff.trans (and_iff_left ?_)).trans
            (parseNested_returns_iff explains .lAngle rfl)
          rintro ⟨rest, inner⟩ _
          simp only
          split <;> exact Outcome.Returns.ok _
        · rename_i noBrace noAngle
          refine iff_of_true ?_ (not_nestedOffends ?_)
          · rw [Outcome.ok_bind]
            simp only
            split <;> exact Outcome.Returns.ok _
          · rintro tok behind rfl
            refine Bool.eq_false_iff.mpr fun opened => ?_
            rcases opener_cases opened with rfl | rfl
            · exact noBrace _ rfl
            · exact noAngle _ rfl
    · rename_i noBracket
      refine iff_of_true (Outcome.Returns.err _) (apart ?_)
      rintro _ rest same
      cases same
      exact noBracket rest rfl
  · rename_i noIdent
    refine iff_of_true (Outcome.Returns.err _) (apart ?_)
    rintro typeName rest rfl
    exact noIdent typeName _ rfl

private theorem bodyStep_returns_iff (explains : Explains offends recurse) {body : Body} :
    (bodyStep fmt pool recurse desc depth body).Returns ↔
      ¬ StepOffends pool offends desc depth body.1 := by
  obtain ⟨toks, msg⟩ := body
  have named {tok : Tok} {name : String} {rest : List Tok} (same : toks = tok :: rest)
      (isName : tok = .ident name ∨ tok = .raw name) :
      StepOffends pool offends desc depth toks ↔
        FieldOffends pool offends desc depth name rest := by
    subst same
    constructor
    · rintro (⟨_, same, _⟩ | ⟨_, name', _, same, isName', cut⟩)
      · cases same
        rcases isName with never | never <;> cases never
      · cases same
        rcases isName with rfl | rfl <;> rcases isName' with same | same <;> cases same <;>
          exact cut
    · exact fun cut => .inr ⟨tok, name, rest, rfl, isName, cut⟩
  unfold bodyStep
  split
  · rename_i rest same
    obtain rfl : toks = _ := same
    refine (parseTyped_returns_iff explains).trans (not_congr ?_)
    constructor
    · exact fun cut => .inl ⟨rest, rfl, cut⟩
    · rintro (⟨_, same, cut⟩ | ⟨_, _, _, same, isName, _⟩)
      · cases same
        exact cut
      · cases same
        rcases isName with never | never <;> cases never
  · rename_i same
    exact (parseField_returns_iff explains).trans (not_congr (named same (.inl rfl)).symm)
  · rename_i same
    exact (parseField_returns_iff explains).trans (not_congr (named same (.inr rfl)).symm)
  · rename_i noBracket noIdent noRaw same
    obtain rfl : toks = _ := same
    refine iff_of_true (Outcome.Returns.err _) ?_
    rintro (⟨rest, same, _⟩ | ⟨_, name, rest, same, rfl | rfl, _⟩)
    · cases same
      exact noBracket rfl
    · cases same
      exact noIdent _ rfl
    · cases same
      exact noRaw _ rfl
  · rename_i same
    obtain rfl : toks = _ := same
    refine iff_of_true (Outcome.Returns.ok _) ?_
    rintro (⟨_, never, _⟩ | ⟨_, _, _, never, _⟩) <;> cases never

theorem parseBody_returns_iff (reads : ReadsFields recurse) (explains : Explains offends recurse) :
    (parseBody fmt pool opts recurse depth desc toks).Returns ↔
      ¬ BodyOffends fmt pool opts offends recurse depth desc toks := by
  have positive (body : Body) (more : bodyMore body = true) : 0 < body.1.length := by
    cases same : body.1 with
    | nil => simp [bodyMore, same] at more
    | cons tok rest => exact Nat.succ_pos _
  have lower (body next : Body) (more : bodyMore body = true)
      (moved : bodyStep fmt pool recurse desc depth body = .ok next) :
      next.1.length < body.1.length := by
    obtain ⟨taken, some, split, _⟩ := bodyStep_ok reads more moved
    rw [split, List.length_append]
    exact Nat.lt_add_of_pos_left (List.length_pos_iff.mpr some)
  have looped : (loop bodyMore (bodyStep fmt pool recurse desc depth) toks.length
      (toks, DynMsg.new desc pool)).Returns ↔ _ :=
    loop_returns_iff (fun body : Body => body.1.length) positive lower (Nat.le_refl _)
  unfold parseBody BodyOffends
  split
  · rename_i deep
    exact iff_of_true (Outcome.Returns.err _) fun cut => Nat.not_le_of_gt deep cut.1
  · rename_i fits
    rw [looped]
    constructor
    · rintro all ⟨_, body, visits, cut⟩
      exact (bodyStep_returns_iff explains).mp (all body visits) cut
    · intro whole body visits
      exact (bodyStep_returns_iff explains).mpr fun cut =>
        whole ⟨Nat.le_of_not_lt fits, body, visits, cut⟩

theorem parseMessageBody_explains (left : Nat) :
    Explains (Offends fmt pool opts left) (parseMessageBody fmt pool opts left) := by
  induction left with
  | zero => exact fun _ _ _ => iff_of_true (Outcome.Returns.err _) id
  | succ left inductionHypothesis =>
    exact fun depth desc toks =>
      parseBody_returns_iff (parseMessageBody_reads left) inductionHypothesis

end Bodies

/-- What is left of the tokens when the opening delimiter of the whole message is skipped. -/
def behindOpening : List Tok → List Tok
  | .lBrace :: rest | .lAngle :: rest => rest
  | toks => toks

/-- A text is accepted or refused, and never panicked on, if and only if no escape in a string cuts
a character and no bytes field is given a string of which a hexadecimal slice cuts one. -/
theorem text_total_iff (fmt : Formatting) (pool : DescriptorPool) (opts : TextOptions)
    (desc : DescriptorProto) (input : String) :
    (textToMessage fmt pool opts desc input).Returns ↔
      ¬ InputOffends fmt input ∧ ∀ toks, tokenize fmt input = .ok toks →
        ¬ Offends fmt pool opts (opts.maxDepth + 1) 0 desc (behindOpening toks) := by
  unfold textToMessage
  rw [Outcome.returns_bind_iff, tokenize_returns_iff]
  refine and_congr Iff.rfl (forall_congr' fun toks => imp_congr Iff.rfl ?_)
  refine (Outcome.returns_bind_iff.trans (and_iff_left ?_)).trans
    (parseMessageBody_explains _ 0 desc (behindOpening toks))
  exact fun _ _ => Outcome.Returns.ok _

/-- A backslash before a letter with an accent. -/
theorem not_text_total_accent : ¬ (textToMessage sampleFormatting noTypes {} switchMessage
    "on: \"\\é\"").Returns := by
  have lexed : tokenize sampleFormatting "on: \"\\é\"" = .panic := by decide +kernel
  unfold textToMessage
  rw [lexed]
  exact not_false

end TptProto.Text
