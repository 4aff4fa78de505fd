import TptProto.Language.Calls

/-! What the parser consumes: every function of it gets on through the tokens, and returns
unless it calls `parse_constant` in a stuck place. -/

namespace TptProto.Language

open TptProto.Foundation

def Parser.left (p : Parser) : Nat := p.tokens.length - p.pos

namespace Parse

/-- Parsing keeps the tokens and, from start to end, the nesting depth. -/
def frame : Frame Parser where
  left := Parser.left
  keeps p q := q.tokens = p.tokens ∧ q.depth = p.depth
  refl _ := ⟨rfl, rfl⟩
  trans := fun ⟨tokens, depth⟩ ⟨tokens', depth'⟩ => ⟨tokens'.trans tokens, depth'.trans depth⟩

variable {Stuck : ConstantCall → Prop} {p : Parser} {α β : Type}

section Basics

variable {next : α → Calls} {rest : α → Parse β} {n : Nat}

theorem read_traced (f : Parser → α) : Traced frame Stuck (read f) Silent 0 p :=
  .silent rfl (frame.refl p) (Nat.le_refl _)

theorem reads {f : Parser → α} (traced : Traced frame Stuck (rest (f p)) (next (f p)) n p) :
    Traced frame Stuck (read f >>= rest) (After (read f) next) n p := by
  have ran : read f p = .ok (f p, p) := rfl
  exact .through (n := 0) ran (frame.refl p) (Nat.le_refl _) traced

theorem readsOnly {calls : Calls} {f : Parser → α}
    (traced : Traced frame Stuck (rest (f p)) calls n p) :
    Traced frame Stuck (read f >>= rest) calls n p := traced.run rfl

theorem errorHere_traced (code : ErrorCode) (message : String) :
    Traced frame Stuck (errorHere code message) Silent 0 p :=
  .silent rfl ⟨rfl, rfl⟩ (Nat.le_refl _)

theorem error_traced (code : ErrorCode) (message : String) (span : Option Span) :
    Traced frame Stuck (error code message span) Silent 0 p :=
  .silent rfl ⟨rfl, rfl⟩ (Nat.le_refl _)

/-- The span of the next token is taken where there is one, and the parser does not move. -/
theorem starts {rest : Span → Parse β} {next : Span → Calls} (here : p.peek.isSome = true)
    (tail : ∀ span, Traced frame Stuck (rest span) (next span) n p) :
    Traced frame Stuck (startSpan >>= rest) (After startSpan next) n p := by
  obtain ⟨tok, found⟩ := Option.isSome_iff_exists.mp here
  have span : p.peekSpan = some tok.span := by rw [Parser.peekSpan, found]; rfl
  have ran : startSpan p = .ok (tok.span, p) := by rw [startSpan, span]
  exact .through (n := 0) ran (frame.refl p) (Nat.le_refl _) (tail tok.span)

theorem startsOnly {rest : Span → Parse β} {calls : Calls} (here : p.peek.isSome = true)
    (tail : ∀ span, Traced frame Stuck (rest span) calls n p) :
    Traced frame Stuck (startSpan >>= rest) calls n p := by
  obtain ⟨tok, found⟩ := Option.isSome_iff_exists.mp here
  have span : p.peekSpan = some tok.span := by rw [Parser.peekSpan, found]; rfl
  exact (tail tok.span).run (by rw [bind_run, startSpan, span]; rfl)

theorem advance_consumes (here : p.peek.isSome = true) :
    Traced frame Stuck advance Silent 1 p := by
  obtain ⟨tok, found⟩ := Option.isSome_iff_exists.mp here
  refine .silent (a := some tok) (t := { p with pos := p.pos + 1 }) ?_ ⟨rfl, rfl⟩ ?_
  · rw [advance, found]
  · obtain ⟨bound, _⟩ := List.getElem?_eq_some_iff.mp found
    simp only [frame, Parser.left]
    omega

theorem advance_traced : Traced frame Stuck advance Silent 0 p := by
  cases found : p.peek with
  | none => exact .silent (a := none) (by rw [advance, found]) (frame.refl p) (Nat.le_refl _)
  | some tok => exact (advance_consumes (by rw [found]; rfl)).weaken (Nat.zero_le 1)

theorem expect_traced (text : DebugText) (kind : TokenKind) :
    Traced frame Stuck (expect text kind) Silent 0 p := by
  unfold expect
  refine readsOnly ?_
  split
  · exact advance_traced
  · exact (errorHere_traced _ _).andThen fun _ _ _ => .pure none

private theorem named_traced (tok : Option Token) :
    Traced frame Stuck (do
      let some tok := tok | return none
      match tok.kind with
      | .ident name => return some (⟨name, tok.span⟩ : Ident)
      | _ =>
        error .unexpectedToken "expected identifier" (some tok.span)
        return none) Silent 0 p := by
  split
  · split
    · exact .pure _
    · exact (error_traced _ _ _).andThen fun _ _ _ => .pure none
  · exact .pure none

theorem expectIdent_traced : Traced frame Stuck expectIdent Silent 0 p :=
  advance_traced.andThen fun tok _ _ => named_traced tok

theorem expectIdent_consumes (here : p.peek.isSome = true) :
    Traced frame Stuck expectIdent Silent 1 p :=
  (advance_consumes here).andThen fun tok _ _ => named_traced tok

end Basics

section Loops

/-- From every state with fewer tokens left than the budget, a pass is traced, and it consumes a
token or ends the loop. -/
def Loop.Advances (l : Loop α) (Stuck : ConstantCall → Prop) (passes : α → Calls) (fuel : Nat) :
    Prop :=
  ∀ acc p, p.left < fuel → l.more acc p = true → Traced frame Stuck (l.pass acc) (passes acc) 0 p ∧
    ∀ acc' p', l.pass acc p = .ok (acc', p') → l.more acc' p' = false ∨ p'.left < p.left

variable {l : Loop α} {passes : α → Calls} {fuel : Nat} {acc : α}

/-- A pass consumes a token. -/
theorem Loop.consumed {calls : Calls} (traced : Traced frame Stuck (l.pass acc) calls 1 p) :
    Traced frame Stuck (l.pass acc) calls 0 p ∧ ∀ acc' p', l.pass acc p = .ok (acc', p') →
      l.more acc' p' = false ∨ p'.left < p.left :=
  ⟨traced.weaken (Nat.zero_le 1), fun acc' p' ran => .inr (traced.consumes acc' p' ran).2⟩

/-- A pass ends the loop. -/
theorem Loop.ended {acc' : α} {p' : Parser}
    (traced : Traced frame Stuck (l.pass acc) Silent 0 p) (ran : l.pass acc p = .ok (acc', p'))
    (last : l.more acc' p' = false) :
    Traced frame Stuck (l.pass acc) Silent 0 p ∧ ∀ acc' p', l.pass acc p = .ok (acc', p') →
      l.more acc' p' = false ∨ p'.left < p.left := by
  refine ⟨traced, fun other q ran' => .inl ?_⟩
  cases ran.symm.trans ran'
  exact last

theorem Loop.advances_of_consumes
    (pass : ∀ acc p, p.left < fuel → l.more acc p = true →
      Traced frame Stuck (l.pass acc) (passes acc) 1 p) : l.Advances Stuck passes fuel :=
  fun acc p enough continues => consumed (pass acc p enough continues)

theorem Loop.run_traced (advances : l.Advances Stuck passes fuel) (enough : p.left < fuel) :
    Traced frame Stuck (l.run fuel acc) (l.calls passes acc) 0 p :=
  .progressing enough fun acc' q _ below continues =>
    advances acc' q (Nat.lt_of_le_of_lt below enough) continues

theorem Loop.run_silent (advances : l.Advances Stuck (fun _ => Silent) fuel)
    (enough : p.left < fuel) : Traced frame Stuck (l.run fuel acc) Silent 0 p :=
  (run_traced advances enough).same fun _ => iff_of_false (fun ⟨_, _, _, never⟩ => never) id

/-- The passes of a loop start in states that keep what parsing keeps. -/
theorem Loop.visited_keeps {acc' : α} {q : Parser} (advances : l.Advances Stuck passes fuel)
    (enough : p.left < fuel) (visits : Visits (fun s : α × Parser => l.more s.1 s.2)
      (fun s => l.pass s.1 s.2) (acc, p) (acc', q)) :
    (frame.keeps p q ∧ q.left ≤ p.left) ∧ l.more acc' q = true := by
  refine visits.invariant (fun s => frame.keeps p s.2 ∧ s.2.left ≤ p.left)
    ⟨frame.refl p, Nat.le_refl _⟩ ?_
  rintro ⟨b, r⟩ ⟨b', r'⟩ ⟨keeps, below⟩ more ran
  obtain ⟨keeps', below'⟩ :=
    (advances b r (Nat.lt_of_le_of_lt below enough) more).1.consumes b' r' ran
  exact ⟨frame.trans keeps keeps', Nat.le_trans below' below⟩

/-- A loop that a pass may leave with `return None`. -/
theorem Loop.leaving_advances {more : Parser → Bool} {pass : α → Parse (Option α)}
    {calls : α → Calls} (inner : ∀ acc p, p.left < fuel → more p = true →
      Traced frame Stuck (pass acc) (calls acc) 1 p) :
    (Loop.leaving more pass).Advances Stuck (OnSome calls) fuel := by
  refine advances_of_consumes fun acc p enough continues => ?_
  cases acc with
  | none => cases continues
  | some acc => exact inner acc p enough continues

theorem peek_of_before {kind : TokenKind} (more : p.before kind = true) : p.peek.isSome = true :=
  (Bool.and_eq_true_iff.mp more).2

theorem peek_of_kind {kind : TokenKind} (here : p.peekKind = some kind) : p.peek.isSome = true := by
  cases found : p.peek with
  | some tok => rfl
  | none =>
    rw [Parser.peekKind, found] at here
    cases here

theorem peek_of_keyword {keyword : String} (here : p.atKeyword keyword = true) :
    p.peek.isSome = true := peek_of_kind (of_decide_eq_true here)

theorem left_of_ran {program : Parse α} {calls : Calls} {n : Nat} {a : α} {q : Parser}
    (traced : Traced frame Stuck program calls n p) (ran : program p = .ok (a, q))
    (enough : p.left < fuel) : q.left < fuel := by
  have consumed := (traced.consumes a q ran).2
  simp only [frame] at consumed
  omega

section Within

variable {program : Parse α} {rest : α → Parse β} {calls : Calls} {next : α → Calls} {n k fuel : Nat}

/-- Only what comes after the first part makes calls; the budget still covers it. -/
theorem first (head : Traced frame Stuck program Silent n p) (enough : p.left < fuel)
    (tail : ∀ a q, q.left < fuel → Traced frame Stuck (rest a) (next a) k q) :
    Traced frame Stuck (program >>= rest) (After program next) (k + n) p :=
  head.bind fun a q ran => tail a q (left_of_ran head ran enough)

/-- Only the first part makes calls. -/
theorem last (head : Traced frame Stuck program calls n p) (enough : p.left < fuel)
    (tail : ∀ a q, q.left < fuel → Traced frame Stuck (rest a) Silent k q) :
    Traced frame Stuck (program >>= rest) calls (k + n) p :=
  head.andThen fun a q ran => tail a q (left_of_ran head ran enough)

variable {optional : Parse (Option α)} {rest : Option α → Parse (Option β)}

/-- `first` with a part that may have no value, without which the program has none either. -/
theorem firstSome (head : Traced frame Stuck optional Silent n p) (enough : p.left < fuel)
    (absent : rest none = pure none)
    (tail : ∀ a q, q.left < fuel → Traced frame Stuck (rest (some a)) (next a) 0 q) :
    Traced frame Stuck (optional >>= rest) (After optional (OnSome next)) n p := by
  refine (first (k := 0) head enough fun r q enough => ?_).weaken (Nat.le_add_left n 0)
  cases r with
  | some a => exact tail a q enough
  | none =>
    rw [absent]
    exact .pure none

theorem lastSome (head : Traced frame Stuck optional calls n p) (enough : p.left < fuel)
    (absent : rest none = pure none)
    (tail : ∀ a q, q.left < fuel → Traced frame Stuck (rest (some a)) Silent 0 q) :
    Traced frame Stuck (optional >>= rest) calls n p := by
  refine (last (k := 0) head enough fun r q enough => ?_).weaken (Nat.le_add_left n 0)
  cases r with
  | some a => exact tail a q enough
  | none =>
    rw [absent]
    exact .pure none

end Within

/-- What has consumed a token leaves a smaller budget enough. -/
theorem left_of_consumed {program : Parse α} {calls : Calls} {a : α} {q : Parser}
    (traced : Traced frame Stuck program calls 1 p) (ran : program p = .ok (a, q))
    (enough : p.left < fuel + 1) : q.left < fuel := by
  have consumed := (traced.consumes a q ran).2
  simp only [frame] at consumed
  omega

end Loops

section Words

variable {fuel : Nat}

theorem recover_advances : Loop.recover.Advances Stuck (fun _ => Silent) fuel :=
  Loop.advances_of_consumes fun _ p _ continues => by
    have here : p.peek.isSome = true := by
      simp only [Loop.recover, Bool.and_eq_true] at continues
      exact continues.1.1
    exact ((advance_consumes here).andThen fun _ _ _ => .pure ()).run rfl

theorem recover_traced (enough : p.left < fuel) : Traced frame Stuck (recover fuel) Silent 0 p :=
  Loop.run_silent recover_advances enough

theorem dotted_advances : Loop.dotted.Advances Stuck (fun _ => Silent) fuel :=
  Loop.advances_of_consumes fun _ p _ continues => by
    refine (advance_consumes (peek_of_kind (of_decide_eq_true continues))).andThen fun _ _ _ => ?_
    refine expectIdent_traced.andThen fun name _ _ => ?_
    cases name <;> exact .pure _

theorem dottedRest_traced (name : String) (enough : p.left < fuel) :
    Traced frame Stuck (dottedRest fuel name) Silent 0 p := Loop.run_silent dotted_advances enough

theorem extensionName_advances : Loop.extensionName.Advances Stuck (fun _ => Silent) fuel := by
  intro acc p enough continues
  have here : p.peek.isSome = true := (Bool.and_eq_true_iff.mp continues).2
  constructor
  · refine readsOnly ?_
    split
    · exact advance_traced.andThen fun _ _ _ => .pure _
    · exact advance_traced.andThen fun _ _ _ => .pure _
    · exact advance_traced.andThen fun _ _ _ => .pure _
    · exact .pure _
  · intro acc' p' ran
    have moved {f : Option Token → Parse (String × Bool)}
        (after : ∀ tok q, Traced frame Stuck (f tok) Silent 0 q)
        (ran : (advance >>= f) p = .ok (acc', p')) : p'.left < p.left :=
      (((advance_consumes here).andThen fun tok q _ => after tok q).consumes acc' p' ran).2
    dsimp only [Loop.extensionName] at ran ⊢
    rw [bind_run, read_run, Outcome.ok_bind] at ran
    dsimp only at ran
    cases kind : p.peekKind with
    | none =>
      rw [kind] at ran
      cases ran
      exact .inl rfl
    | some found =>
      rw [kind] at ran
      cases found with
      | ident name => exact .inr (moved (fun _ _ => .pure _) ran)
      | dot => exact .inr (moved (fun _ _ => .pure _) ran)
      | rParen => exact .inr (moved (fun _ _ => .pure _) ran)
      | _ =>
        cases ran
        exact .inl rfl

theorem extensionName_traced (enough : p.left < fuel) :
    Traced frame Stuck (extensionName fuel) Silent 0 p :=
  (Loop.run_silent extensionName_advances enough).andThen fun _ _ _ => .pure _

/-- The parts of an option's name after the first. -/
private theorem dottedOption_traced (name : String) (enough : p.left < fuel) :
    Traced frame Stuck (do return some (← dottedRest fuel name)) Silent 0 p :=
  (dottedRest_traced name enough).andThen fun _ _ _ => .pure _

private theorem optionName_traced {n : Nat} (advances : Traced frame Stuck advance Silent n p)
    (names : Traced frame Stuck expectIdent Silent n p) (enough : p.left < fuel) :
    Traced frame Stuck (parseOptionName fuel) Silent n p := by
  unfold parseOptionName
  refine readsOnly ?_
  split
  · refine (last (k := 0) advances enough fun _ q enough => ?_).weaken (Nat.le_add_left n 0)
    exact last (extensionName_traced enough) enough fun name r => dottedOption_traced name
  · exact lastSome names enough rfl fun first q => dottedOption_traced first.name

theorem parseOptionName_consumes (here : p.peek.isSome = true) (enough : p.left < fuel) :
    Traced frame Stuck (parseOptionName fuel) Silent 1 p :=
  optionName_traced (advance_consumes here) (expectIdent_consumes here) enough

theorem parseOptionName_traced (enough : p.left < fuel) :
    Traced frame Stuck (parseOptionName fuel) Silent 0 p :=
  optionName_traced advance_traced expectIdent_traced enough

theorem typeName_advances : Loop.typeName.Advances Stuck (fun _ => Silent) fuel :=
  Loop.advances_of_consumes fun acc p _ continues => by
    cases acc with
    | none => cases continues
    | some name =>
      have dot : p.peekKind = some .dot := of_decide_eq_true continues
      refine (advance_consumes (peek_of_kind dot)).andThen fun _ _ _ => expectIdent_traced.andThen fun next _ _ => ?_
      cases next <;> exact .pure _

private theorem afterFirst_traced (tok : Token) (start : String) (enough : p.left < fuel) :
    Traced frame Stuck (do
      let some name ← Loop.typeName.run fuel (some start) | return none
      let next ← read Parser.peekSpan
      return some (TypeRef.named ⟨name, ⟨tok.span.start, (next.getD tok.span).stop⟩⟩)) Silent 0 p :=
  lastSome (Loop.run_silent typeName_advances enough) enough rfl fun _ _ _ => readsOnly (.pure _)

private theorem named_consumes {tok : Token} (here : p.peek.isSome = true) (enough : p.left < fuel) :
    Traced frame Stuck (parseTypeRef.named fuel tok) Silent 1 p := by
  rw [parseTypeRef_named_eq]
  refine readsOnly ?_
  dsimp only
  split
  · refine last (advance_consumes here) enough fun _ q enough => ?_
    exact lastSome expectIdent_traced enough rfl fun _ _ => afterFirst_traced tok _
  · exact lastSome (expectIdent_consumes here) enough rfl fun _ _ => afterFirst_traced tok _

theorem parseTypeRef_consumes (here : p.peek.isSome = true) (enough : p.left < fuel) :
    Traced frame Stuck (parseTypeRef fuel) Silent 1 p := by
  obtain ⟨tok, found⟩ := Option.isSome_iff_exists.mp here
  unfold parseTypeRef
  refine readsOnly ?_
  rw [found]
  dsimp only
  split
  · split
    · exact (advance_consumes here).andThen fun _ _ _ => .pure _
    · exact named_consumes here enough
  · exact named_consumes here enough

theorem parseTypeRef_traced (enough : p.left < fuel) :
    Traced frame Stuck (parseTypeRef fuel) Silent 0 p := by
  cases found : p.peek with
  | some tok => exact (parseTypeRef_consumes (by rw [found]; rfl) enough).weaken (Nat.zero_le 1)
  | none =>
    unfold parseTypeRef
    refine readsOnly ?_
    rw [found]
    exact .pure none

end Words

end Parse

end TptProto.Language
