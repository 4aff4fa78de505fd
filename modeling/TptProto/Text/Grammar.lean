import TptProto.Text.Parser

/-! The token streams that are read as messages, and how their delimiters pair up. -/

namespace TptProto.Text

open TptProto.Foundation TptProto.Core TptProto.Descriptor TptProto.Reflect

namespace Tok

/-- The token opens the body of a message. -/
def opens : Tok → Bool
  | .lBrace | .lAngle => true
  | _ => false

/-- The token closes the body of a message. -/
def closes : Tok → Bool
  | .rBrace | .rAngle => true
  | _ => false

/-- A closing delimiter of the kind of an opening one. -/
def pairs : Tok → Tok → Bool
  | .lBrace, .rBrace | .lAngle, .rAngle => true
  | _, _ => false

def Names (tok : Tok) : Prop := ∃ name, tok = .ident name ∨ tok = .raw name

end Tok

/-- The comma behind a field is optional. -/
def Comma (toks : List Tok) : Prop := toks = [] ∨ toks = [.comma]

/-- The colon before the body of a nested message is optional. -/
def Colon (toks : List Tok) : Prop := toks = [] ∨ toks = [.colon]

/-- The fields of a message, in whose nested bodies an opening delimiter stands with a closing one
that `close` allows. -/
inductive Fields (close : Tok → Tok → Bool) : List Tok → Prop where
  | nil : Fields close []
  | value {name tok : Tok} {comma rest : List Tok} (named : name.Names)
      (plain : tok.opens = false ∧ tok.closes = false) (optional : Comma comma)
      (later : Fields close rest) :
      Fields close (name :: .colon :: tok :: (comma ++ rest))
  | message {name opener closer : Tok} {colon body comma rest : List Tok} (named : name.Names)
      (marked : Colon colon) (opened : opener.opens = true) (closed : closer.closes = true)
      (allowed : close opener closer = true) (inner : Fields close body) (optional : Comma comma)
      (later : Fields close rest) :
      Fields close (name :: (colon ++ opener :: (body ++ closer :: (comma ++ rest))))
  | type {typeName : String} {rest : List Tok} (later : Fields close rest) :
      Fields close (.lBracket :: .ident typeName :: .rBracket :: rest)
  | typed {typeName : String} {opener closer : Tok} {body rest : List Tok}
      (opened : opener.opens = true) (closed : closer.closes = true)
      (allowed : close opener closer = true) (inner : Fields close body)
      (later : Fields close rest) :
      Fields close (.lBracket :: .ident typeName :: .rBracket :: opener ::
        (body ++ closer :: rest))

/-- The fields of a message in delimiters of their own. -/
structure Enclosed (close : Tok → Tok → Bool) (opener : Tok) (body : List Tok) (closer : Tok) :
    Prop where
  opened : opener.opens = true
  closed : closer.closes = true
  allowed : close opener closer = true
  inner : Fields close body

/-- The tokens are exactly one message, in delimiters of its own or without. -/
def Document (toks : List Tok) : Prop :=
  Fields Tok.pairs toks ∨
    ∃ opener body closer, Enclosed Tok.pairs opener body closer ∧
      toks = opener :: (body ++ [closer])

/-- The closing delimiters meet the opening ones that are still open, latest first, and none of
these is left. -/
def paired : List Tok → List Tok → Bool
  | stack, [] => stack.isEmpty
  | stack, tok :: rest =>
    if tok.opens then paired (tok :: stack) rest
    else if tok.closes then
      match stack with
      | opener :: stack => opener.pairs tok && paired stack rest
      | [] => false
    else paired stack rest

/-- The delimiters pair up, and if they enclose all from the first token on, then up to the last. -/
def Matched (toks : List Tok) : Prop :=
  paired [] toks = true ∧
    ∀ opener body closer rest, toks = opener :: (body ++ closer :: rest) →
      opener.opens = true → paired [] body = true → opener.pairs closer = true → rest = []

section Shape

variable {close : Tok → Tok → Bool} {first second : List Tok}

theorem Fields.append (one : Fields close first) (two : Fields close second) :
    Fields close (first ++ second) := by
  induction one with
  | nil => exact two
  | value named plain optional _ inductionHypothesis =>
    simpa using Fields.value named plain optional inductionHypothesis
  | message named marked opened closed allowed inner optional _ _ inductionHypothesis =>
    simpa using
      Fields.message named marked opened closed allowed inner optional inductionHypothesis
  | type _ inductionHypothesis => simpa using Fields.type inductionHypothesis
  | typed opened closed allowed inner _ _ inductionHypothesis =>
    simpa using Fields.typed opened closed allowed inner inductionHypothesis

theorem Enclosed.message {opener closer name : Tok} {body colon comma : List Tok}
    (enclosed : Enclosed close opener body closer) (named : name.Names) (marked : Colon colon)
    (optional : Comma comma) :
    Fields close (name :: (colon ++ (opener :: (body ++ [closer])) ++ comma)) := by
  simpa using Fields.message named marked enclosed.opened enclosed.closed enclosed.allowed
    enclosed.inner optional .nil

theorem Enclosed.typed {opener closer : Tok} {body : List Tok} {typeName : String}
    (enclosed : Enclosed close opener body closer) :
    Fields close (.lBracket :: .ident typeName :: .rBracket :: (opener :: (body ++ [closer]))) :=
  Fields.typed enclosed.opened enclosed.closed enclosed.allowed enclosed.inner .nil

end Shape

/-- Any closing delimiter may follow any opening one, as in the parser. -/
def anyPair (_opener _closer : Tok) : Bool := true

section Parsed

variable {fmt : Formatting} {pool : DescriptorPool} {opts : TextOptions}
  {recurse : Nat → DescriptorProto → List Tok → TextResult Body} {desc : DescriptorProto}
  {depth : Nat} {toks rest : List Tok} {msg : DynamicMessage}

/-- What is read in front of the rest are the fields of a message. -/
def ReadsFields (recurse : Nat → DescriptorProto → List Tok → TextResult Body) : Prop :=
  ∀ depth desc toks rest msg, recurse depth desc toks = .ok (rest, msg) →
    ∃ body, toks = body ++ rest ∧ Fields anyPair body

/-- The tokens read for a value: one token, or a message in delimiters. -/
inductive ValueToks : List Tok → Prop where
  | one {tok : Tok} (plain : tok.opens = false ∧ tok.closes = false) : ValueToks [tok]
  | message {opener closer : Tok} {body : List Tok}
      (enclosed : Enclosed anyPair opener body closer) : ValueToks (opener :: (body ++ [closer]))

private theorem closeDelim_ok (closed : closeDelim fmt toks = .ok rest) :
    ∃ closer, closer.closes = true ∧ toks = closer :: rest := by
  unfold closeDelim at closed
  split at closed
  · cases closed
    exact ⟨.rBrace, rfl, rfl⟩
  · cases closed
    exact ⟨.rAngle, rfl, rfl⟩
  · cases closed

private theorem parseNested_ok (reads : ReadsFields recurse) (opener : Tok)
    (opened : opener.opens = true)
    (parsed : parseNested fmt recurse depth desc toks = .ok (rest, msg)) :
    ∃ body closer, Enclosed anyPair opener body closer ∧ toks = body ++ closer :: rest := by
  obtain ⟨⟨behind, inner⟩, first, parsed⟩ := Outcome.bind_eq_ok.mp parsed
  obtain ⟨left, closed, parsed⟩ := Outcome.bind_eq_ok.mp parsed
  cases parsed
  obtain ⟨body, rfl, fields⟩ := reads _ _ _ _ _ first
  obtain ⟨closer, closes, rfl⟩ := closeDelim_ok closed
  exact ⟨body, closer, ⟨opened, closes, rfl, fields⟩, rfl⟩

private theorem scalarOfTok_plain {t : FieldType} {field : FieldDescriptorProto} {tok : Tok}
    {s : ScalarValue} (read : scalarOfTok t field tok = .ok s) :
    tok.opens = false ∧ tok.closes = false := by
  cases tok <;> first | exact ⟨rfl, rfl⟩ | cases read

private theorem enumOfTok_plain {field : FieldDescriptorProto} {tok : Tok} {n : Int32}
    (read : enumOfTok pool field tok = .ok n) : tok.opens = false ∧ tok.closes = false := by
  cases tok <;> first | exact ⟨rfl, rfl⟩ | cases read

private theorem message_ok (reads : ReadsFields recurse) (opener : Tok) {value : Value}
    (opened : opener.opens = true)
    (parsed : (do
      let (rest, inner) ← parseNested fmt recurse depth desc toks
      .ok (rest, .message inner) : TextResult (List Tok × Value)) = .ok (rest, value)) :
    ∃ body closer, Enclosed anyPair opener body closer ∧ toks = body ++ closer :: rest := by
  obtain ⟨⟨left, inner⟩, nested, done⟩ := Outcome.bind_eq_ok.mp parsed
  cases done
  exact parseNested_ok reads opener opened nested

private theorem parseValue_ok (reads : ReadsFields recurse) {field : FieldDescriptorProto}
    {value : Value} (parsed : parseValue fmt pool recurse field depth toks = .ok (rest, value)) :
    ∃ taken, toks = taken ++ rest ∧ ValueToks taken := by
  have message {opener : Tok} {behind : List Tok} (opened : opener.opens = true)
      (parsed : (do
        let (rest, inner) ← parseNested fmt recurse (depth + 1) (subDescriptor pool field) behind
        .ok (rest, .message inner) : TextResult (List Tok × Value)) = .ok (rest, value)) :
      ∃ taken, opener :: behind = taken ++ rest ∧ ValueToks taken := by
    obtain ⟨body, closer, enclosed, rfl⟩ := message_ok reads opener opened parsed
    exact ⟨_, by simp, .message enclosed⟩
  unfold parseValue at parsed
  split at parsed
  · split at parsed
    · exact message rfl parsed
    · exact message rfl parsed
    · cases parsed
  · split at parsed
    · exact message rfl parsed
    · exact message rfl parsed
    · cases parsed
  · split at parsed
    · cases parsed
    · obtain ⟨n, read, same⟩ := Outcome.map_eq_ok.mp parsed
      cases same
      exact ⟨[_], rfl, .one (enumOfTok_plain read)⟩
  · split at parsed
    · cases parsed
    · obtain ⟨s, read, same⟩ := Outcome.map_eq_ok.mp parsed
      cases same
      exact ⟨[_], rfl, .one (scalarOfTok_plain read)⟩

/-- The tokens behind the name of a field. -/
def FieldToks (taken : List Tok) : Prop :=
  ∀ tok : Tok, tok.Names → Fields anyPair (tok :: taken)

private theorem enclosed_fieldToks {opener closer : Tok} {body colon comma : List Tok}
    (enclosed : Enclosed anyPair opener body closer) (marked : Colon colon)
    (optional : Comma comma) : FieldToks (colon ++ (opener :: (body ++ [closer])) ++ comma) :=
  fun _ named => enclosed.message named marked optional

private theorem value_fieldToks {value comma : List Tok} (toks : ValueToks value)
    (optional : Comma comma) : FieldToks ([.colon] ++ value ++ comma) := by
  intro tok named
  cases toks with
  | one plain => simpa using Fields.value named plain optional .nil
  | message enclosed => exact enclosed.message named (.inr rfl) optional

/-- A field behind its name is read as one. -/
private theorem parseField_ok (reads : ReadsFields recurse) {name : String}
    {after : DynamicMessage}
    (parsed : parseField fmt pool recurse desc depth name (toks, msg) = .ok (rest, after)) :
    ∃ taken, toks = taken ++ rest ∧ FieldToks taken := by
  obtain ⟨field, _, parsed⟩ := Outcome.bind_eq_ok.mp parsed
  obtain ⟨⟨left, value⟩, valued, parsed⟩ := Outcome.bind_eq_ok.mp parsed
  have read : ∃ taken, toks = taken ++ left ∧
      ∀ comma, Comma comma → FieldToks (taken ++ comma) := by
    split at valued
    · rename_i behind same
      obtain ⟨body, closer, enclosed, rfl⟩ := message_ok reads .lBrace rfl valued
      obtain rfl : toks = _ := same
      exact ⟨_, by simp, fun _ => enclosed_fieldToks enclosed (.inl rfl)⟩
    · rename_i behind same
      obtain ⟨body, closer, enclosed, rfl⟩ := message_ok reads .lAngle rfl valued
      obtain rfl : toks = _ := same
      exact ⟨_, by simp, fun _ => enclosed_fieldToks enclosed (.inl rfl)⟩
    · rename_i behind same
      obtain ⟨taken, rfl, value⟩ := parseValue_ok reads valued
      obtain rfl : toks = _ := same
      exact ⟨.colon :: taken, rfl, fun _ => value_fieldToks value⟩
    · cases valued
  obtain ⟨taken, rfl, field⟩ := read
  simp only at parsed
  split at parsed
  · cases parsed
    exact ⟨taken ++ [.comma], by simp, field _ (.inr rfl)⟩
  · cases parsed
    exact ⟨taken, rfl, by simpa using field _ (.inl rfl)⟩

/-- A type in brackets, and the body behind it, are read as such. -/
private theorem parseTyped_ok (reads : ReadsFields recurse) {after : DynamicMessage}
    (parsed : parseTyped fmt pool recurse desc depth (toks, msg) = .ok (rest, after)) :
    ∃ taken, toks = taken ++ rest ∧ Fields anyPair (.lBracket :: taken) := by
  obtain ⟨⟨typeName, behind⟩, typed, parsed⟩ := Outcome.bind_eq_ok.mp parsed
  obtain ⟨left, bracket, parsed⟩ := Outcome.bind_eq_ok.mp parsed
  obtain ⟨sub, _, parsed⟩ := Outcome.bind_eq_ok.mp parsed
  have head : toks = .ident typeName :: .rBracket :: left := by
    split at typed
    · rename_i same
      cases typed
      split at bracket
      · cases bracket
        exact same
      · cases bracket
    · cases typed
  rw [head]
  simp only at parsed
  split at parsed
  · obtain ⟨⟨last, inner⟩, nested, parsed⟩ := Outcome.bind_eq_ok.mp parsed
    have same : last = rest := by
      simp only at parsed
      split at parsed <;> cases parsed <;> rfl
    subst same
    obtain ⟨body, closer, enclosed, rfl⟩ := parseNested_ok reads .lBrace rfl nested
    exact ⟨.ident typeName :: .rBracket :: (.lBrace :: (body ++ [closer])), by simp,
      enclosed.typed⟩
  · obtain ⟨⟨last, inner⟩, nested, parsed⟩ := Outcome.bind_eq_ok.mp parsed
    have same : last = rest := by
      simp only at parsed
      split at parsed <;> cases parsed <;> rfl
    subst same
    obtain ⟨body, closer, enclosed, rfl⟩ := parseNested_ok reads .lAngle rfl nested
    exact ⟨.ident typeName :: .rBracket :: (.lAngle :: (body ++ [closer])), by simp,
      enclosed.typed⟩
  · obtain ⟨⟨last, inner⟩, nested, parsed⟩ := Outcome.bind_eq_ok.mp parsed
    have same : last = rest := by
      simp only at parsed
      split at parsed <;> cases parsed <;> rfl
    cases nested
    subst same
    exact ⟨[.ident typeName, .rBracket], rfl, .type .nil⟩

/-- A pass over a body reads a field. -/
theorem bodyStep_ok (reads : ReadsFields recurse) {body after : Body}
    (more : bodyMore body = true)
    (moved : bodyStep fmt pool recurse desc depth body = .ok after) :
    ∃ taken, taken ≠ [] ∧ body.1 = taken ++ after.1 ∧ Fields anyPair taken := by
  obtain ⟨toks, msg⟩ := body
  obtain ⟨rest, after⟩ := after
  unfold bodyStep at moved
  split at moved
  · rename_i same
    obtain ⟨taken, rfl, fields⟩ := parseTyped_ok reads moved
    exact ⟨_, List.cons_ne_nil _ _, same, fields⟩
  · rename_i name _ same
    obtain ⟨taken, rfl, field⟩ := parseField_ok reads moved
    exact ⟨_, List.cons_ne_nil _ _, same, field _ ⟨name, .inl rfl⟩⟩
  · rename_i name _ same
    obtain ⟨taken, rfl, field⟩ := parseField_ok reads moved
    exact ⟨_, List.cons_ne_nil _ _, same, field _ ⟨name, .inr rfl⟩⟩
  · cases moved
  · rename_i same
    rw [show toks = [] from same] at more
    cases more

/-- A body is fields up to the end or to a closing delimiter. -/
theorem parseBody_ok (reads : ReadsFields recurse)
    (parsed : parseBody fmt pool opts recurse depth desc toks = .ok (rest, msg)) :
    (∃ body, toks = body ++ rest ∧ Fields anyPair body) ∧
      (rest = [] ∨ ∃ closer behind, closer.closes = true ∧ rest = closer :: behind) := by
  unfold parseBody at parsed
  split at parsed
  · cases parsed
  · obtain ⟨holds, finished⟩ := loop_invariant parsed
      (fun s => ∃ body, toks = body ++ s.1 ∧ Fields anyPair body) ⟨[], rfl, .nil⟩ (by
        rintro s next ⟨body, same, fields⟩ more moved
        obtain ⟨taken, _, split, field⟩ := bodyStep_ok reads more moved
        exact ⟨body ++ taken, by rw [same, split, List.append_assoc], fields.append field⟩)
    refine ⟨holds, ?_⟩
    unfold bodyMore at finished
    split at finished
    · exact .inl ‹_›
    · exact .inr ⟨.rBrace, _, rfl, ‹_›⟩
    · exact .inr ⟨.rAngle, _, rfl, ‹_›⟩
    · cases finished

theorem parseMessageBody_reads (left : Nat) :
    ReadsFields (parseMessageBody fmt pool opts left) := by
  induction left with
  | zero =>
    intro depth desc toks rest msg parsed
    cases parsed
  | succ left inductionHypothesis =>
    intro depth desc toks rest msg parsed
    exact (parseBody_ok inductionHypothesis parsed).1

end Parsed

section Pairing

variable {stack body rest : List Tok} {tok : Tok}

private theorem paired_plain (plain : tok.opens = false ∧ tok.closes = false) :
    paired stack (tok :: rest) = paired stack rest := by
  cases stack <;> simp [paired, plain]

private theorem paired_opens (opened : tok.opens = true) :
    paired stack (tok :: rest) = paired (tok :: stack) rest := by
  cases stack <;> simp [paired, opened]

private theorem opens_of_closes (closed : tok.closes = true) : tok.opens = false := by
  cases tok <;> first | rfl | cases closed

private theorem paired_stray (closed : tok.closes = true) : paired [] (tok :: rest) = false := by
  simp [paired, opens_of_closes closed, closed]

private theorem paired_closes {opener : Tok} (closed : tok.closes = true) :
    paired (opener :: stack) (tok :: rest) = (opener.pairs tok && paired stack rest) := by
  simp [paired, opens_of_closes closed, closed]

private theorem paired_name (named : tok.Names) : paired stack (tok :: rest) = paired stack rest := by
  obtain ⟨name, rfl | rfl⟩ := named
  · exact paired_plain ⟨rfl, rfl⟩
  · exact paired_plain ⟨rfl, rfl⟩

private theorem paired_comma {comma : List Tok} (optional : Comma comma) :
    paired stack (comma ++ rest) = paired stack rest := by
  rcases optional with rfl | rfl
  · rfl
  · exact paired_plain ⟨rfl, rfl⟩

private theorem paired_colon {colon : List Tok} (marked : Colon colon) :
    paired stack (colon ++ rest) = paired stack rest := by
  rcases marked with rfl | rfl
  · rfl
  · exact paired_plain ⟨rfl, rfl⟩

private theorem paired_typed {typeName : String} :
    paired stack (.lBracket :: .ident typeName :: .rBracket :: rest) = paired stack rest := by
  rw [paired_plain ⟨rfl, rfl⟩, paired_plain ⟨rfl, rfl⟩, paired_plain ⟨rfl, rfl⟩]

/-- The fields of a message leave the delimiters that are open as they are. -/
theorem paired_fields (fields : Fields Tok.pairs body) :
    paired stack (body ++ rest) = paired stack rest := by
  induction fields generalizing stack rest with
  | nil => rfl
  | value named plain optional _ inductionHypothesis =>
    simp only [List.cons_append, List.append_assoc]
    rw [paired_name named, paired_plain ⟨rfl, rfl⟩, paired_plain plain, paired_comma optional,
      inductionHypothesis]
  | message named marked opened closed allowed _ optional _ innerHypothesis laterHypothesis =>
    simp only [List.cons_append, List.append_assoc]
    rw [paired_name named, paired_colon marked, paired_opens opened, innerHypothesis,
      paired_closes closed, allowed, Bool.true_and, paired_comma optional, laterHypothesis]
  | type _ inductionHypothesis =>
    simp only [List.cons_append]
    rw [paired_typed, inductionHypothesis]
  | typed opened closed allowed _ _ innerHypothesis laterHypothesis =>
    simp only [List.cons_append, List.append_assoc]
    rw [paired_typed, paired_opens opened, innerHypothesis, paired_closes closed, allowed,
      Bool.true_and, laterHypothesis]

theorem paired_of_fields (fields : Fields Tok.pairs body) : paired [] body = true := by
  have whole := @paired_fields [] body [] fields
  rw [List.append_nil] at whole
  rw [whole]
  rfl

/-- Delimiters that pair up leave those that are open as they are. -/
private theorem paired_append {outer : List Tok} (pairs : paired stack body = true) :
    paired (stack ++ outer) (body ++ rest) = paired outer rest := by
  induction body generalizing stack with
  | nil =>
    rw [paired] at pairs
    rw [List.isEmpty_iff.mp pairs]
    rfl
  | cons tok body inductionHypothesis =>
    rw [List.cons_append]
    cases opened : tok.opens with
    | true =>
      rw [paired_opens opened] at pairs ⊢
      exact inductionHypothesis pairs
    | false =>
      cases closed : tok.closes with
      | true =>
        cases stack with
        | nil =>
          rw [paired_stray closed] at pairs
          cases pairs
        | cons opener stack =>
          rw [paired_closes closed, Bool.and_eq_true] at pairs
          rw [List.cons_append, paired_closes closed, pairs.1, Bool.true_and]
          exact inductionHypothesis pairs.2
      | false =>
        rw [paired_plain ⟨opened, closed⟩] at pairs ⊢
        exact inductionHypothesis pairs

/-- Fields whose delimiters pair up are closed as they were opened. -/
theorem fields_of_paired (fields : Fields anyPair body) (pairs : paired stack (body ++ rest) = true) :
    Fields Tok.pairs body ∧ paired stack rest = true := by
  induction fields generalizing stack rest with
  | nil => exact ⟨.nil, pairs⟩
  | value named plain optional _ inductionHypothesis =>
    simp only [List.cons_append, List.append_assoc] at pairs
    rw [paired_name named, paired_plain ⟨rfl, rfl⟩, paired_plain plain,
      paired_comma optional] at pairs
    obtain ⟨later, paired⟩ := inductionHypothesis pairs
    exact ⟨.value named plain optional later, paired⟩
  | message named marked opened closed _ _ optional _ innerHypothesis laterHypothesis =>
    simp only [List.cons_append, List.append_assoc] at pairs
    rw [paired_name named, paired_colon marked, paired_opens opened] at pairs
    obtain ⟨inner, pairs⟩ := innerHypothesis pairs
    rw [paired_closes closed, Bool.and_eq_true, paired_comma optional] at pairs
    obtain ⟨later, paired⟩ := laterHypothesis pairs.2
    exact ⟨.message named marked opened closed pairs.1 inner optional later, paired⟩
  | type _ inductionHypothesis =>
    simp only [List.cons_append] at pairs
    rw [paired_typed] at pairs
    obtain ⟨later, paired⟩ := inductionHypothesis pairs
    exact ⟨.type later, paired⟩
  | typed opened closed _ _ _ innerHypothesis laterHypothesis =>
    simp only [List.cons_append, List.append_assoc] at pairs
    rw [paired_typed, paired_opens opened] at pairs
    obtain ⟨inner, pairs⟩ := innerHypothesis pairs
    rw [paired_closes closed, Bool.and_eq_true] at pairs
    obtain ⟨later, paired⟩ := laterHypothesis pairs.2
    exact ⟨.typed opened closed pairs.1 inner later, paired⟩

end Pairing

section Documents

variable {toks : List Tok}

private theorem Fields.head {opener : Tok} {rest : List Tok} (fields : Fields Tok.pairs toks)
    (same : toks = opener :: rest) : opener.opens = false := by
  cases fields with
  | nil => cases same
  | value named _ _ _ | message named _ _ _ _ _ _ _ =>
    cases same
    obtain ⟨name, rfl | rfl⟩ := named <;> rfl
  | type _ | typed _ _ _ _ _ =>
    cases same
    rfl

private theorem closes_of_pairs {opener closer : Tok} (pairs : opener.pairs closer = true) :
    closer.closes = true := by
  unfold Tok.pairs at pairs
  split at pairs
  · rfl
  · rfl
  · cases pairs

/-- The delimiters of a message pair up, and its own enclose all of it. -/
theorem matched_of_document (document : Document toks) : Matched toks := by
  rcases document with fields | ⟨opener, body, closer, enclosed, rfl⟩
  · refine ⟨paired_of_fields fields, ?_⟩
    intro opener body closer rest same opened _ _
    rw [fields.head same] at opened
    cases opened
  · have inner := paired_of_fields enclosed.inner
    refine ⟨?_, ?_⟩
    · rw [paired_opens enclosed.opened, paired_fields enclosed.inner, paired_closes enclosed.closed,
        enclosed.allowed]
      rfl
    · intro other before stop rest same _ balanced closes
      obtain ⟨_, same⟩ := List.cons.inj same
      rcases List.eq_nil_or_concat rest with rfl | ⟨front, last, rfl⟩
      · rfl
      · have longer : body = before ++ stop :: front := by
          rw [List.concat_eq_append, ← List.cons_append, ← List.append_assoc] at same
          exact (List.append_inj' same rfl).1
        have cut := @paired_append [] before (stop :: front) [] balanced
        rw [List.nil_append, ← longer, inner, paired_stray (closes_of_pairs closes)] at cut
        cases cut

end Documents

section Consumed

variable {fmt : Formatting} {pool : DescriptorPool} {opts : TextOptions} {desc : DescriptorProto}
  {input : String} {msg : DynamicMessage}

/-- An accepted text is exactly one message, every body closed as it was opened, if and only if
its delimiters pair up and enclose all of it or nothing from its first token. -/
theorem document_iff {toks : List Tok} (lexed : tokenize fmt input = .ok toks)
    (accepted : textToMessage fmt pool opts desc input = .ok msg) :
    Document toks ↔ Matched toks := by
  refine ⟨matched_of_document, ?_⟩
  obtain ⟨_, lexed', parsed⟩ := Outcome.bind_eq_ok.mp accepted
  cases lexed.symm.trans lexed'
  rintro ⟨pairs, whole⟩
  obtain ⟨⟨rest, inner⟩, parsed, _⟩ := Outcome.bind_eq_ok.mp parsed
  obtain ⟨⟨body, same, fields⟩, ends⟩ := parseBody_ok (parseMessageBody_reads _) parsed
  have enclosed (opener : Tok) (opened : opener.opens = true)
      (begins : toks = opener :: (body ++ rest)) : Document toks := by
    rw [begins, paired_opens opened] at pairs
    obtain ⟨strict, pairs⟩ := fields_of_paired fields pairs
    rcases ends with rfl | ⟨closer, behind, closed, rfl⟩
    · cases pairs
    · rw [paired_closes closed, Bool.and_eq_true] at pairs
      obtain rfl := whole opener body closer behind begins opened (paired_of_fields strict) pairs.1
      exact .inr ⟨opener, body, closer, ⟨opened, closed, pairs.1, strict⟩, begins⟩
  split at same
  · exact enclosed .lBrace rfl (by rw [same])
  · exact enclosed .lAngle rfl (by rw [same])
  · rw [same] at pairs
    obtain ⟨strict, pairs⟩ := fields_of_paired fields pairs
    rcases ends with rfl | ⟨closer, behind, closed, rfl⟩
    · rw [same, List.append_nil]
      exact .inl strict
    · rw [paired_stray closed] at pairs
      cases pairs

end Consumed

section Samples

def switchMessage : DescriptorProto :=
  { name := some "Switch", field := [{ name := some "on", number := some 1, type := some .bool }] }

def noTypes : DescriptorPool := { messages := [], enums := [], extensions := [], syntaxName := "" }

private theorem accepts_switch {input : String} {front behind : List Tok}
    (lexed : tokenize sampleFormatting input = .ok (front ++ .ident "on" :: .colon ::
      .raw "true" :: .rBrace :: behind)) (start : front = [] ∨ front = [.lBrace]) :
    textToMessage sampleFormatting noTypes {} switchMessage input =
      .ok ((DynMsg.new switchMessage noTypes).setField 1 (.scalar (.bool true))) := by
  unfold textToMessage
  rw [lexed]
  rcases start with rfl | rfl <;> rfl

/-- A message in braces is accepted and pairs its delimiters. -/
theorem document_braced : Document [.lBrace, .ident "on", .colon, .raw "true", .rBrace] ↔
    Matched [.lBrace, .ident "on", .colon, .raw "true", .rBrace] := by
  have lexed : tokenize sampleFormatting "\x7b on: true \x7d" =
      .ok ([.lBrace] ++ .ident "on" :: .colon :: .raw "true" :: .rBrace :: []) := by decide +kernel
  exact document_iff lexed (accepts_switch lexed (.inr rfl))

/-- Nothing behind a stray closing delimiter is looked at. -/
theorem not_document_stray : ¬ ∀ toks msg,
    tokenize sampleFormatting "on: true \x7d junk" = .ok toks →
      textToMessage sampleFormatting noTypes {} switchMessage "on: true \x7d junk" = .ok msg →
        Document toks := by
  intro exact
  have lexed : tokenize sampleFormatting "on: true \x7d junk" =
      .ok ([] ++ .ident "on" :: .colon :: .raw "true" :: .rBrace :: [.ident "junk"]) := by
    decide +kernel
  have document := exact _ _ lexed (accepts_switch lexed (.inl rfl))
  exact absurd (matched_of_document document).1 (by decide)

end Samples

end TptProto.Text
