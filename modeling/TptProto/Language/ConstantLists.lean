import TptProto.Language.Progress

/-! Where the loop over a list constant is stuck: at a token that starts no constant and is no
comma, `parse_constant` gives a diagnostic and consumes nothing. -/

namespace TptProto.Language

open TptProto.Foundation

def TokenKind.startsConstant : TokenKind → Bool
  | .int _ | .float _ | .str _ | .ident _ | .lBrace | .lBracket => true
  | _ => false

def Parser.startsConstant (p : Parser) : Bool := p.peekKind.any TokenKind.startsConstant

/-- The next token starts a constant, or is the comma after one. -/
def Parser.atItem (p : Parser) : Bool := p.startsConstant || p.peekKind = some .comma

/-- The loop over a list calls `parse_constant` at a token which it will not get past. -/
def ConstantCall.Stuck (call : ConstantCall) : Prop :=
  call.caller = .list ∧ call.state.atItem = false

namespace Parse

variable {text : DebugText} {p : Parser} {fuel level : Nat} {α : Type}

theorem called {program : Parse α} {calls : Calls} {caller : Caller} {n : Nat}
    (traced : Traced frame ConstantCall.Stuck program calls n p)
    (free : ¬ ConstantCall.Stuck ⟨caller, level, p⟩) :
    Traced frame ConstantCall.Stuck program (Called caller level calls) n p := by
  refine ⟨traced.returns.trans ⟨fun quiet call made => ?_, fun quiet call made => ?_⟩,
    traced.consumes⟩
  · rcases made with rfl | inner
    · exact free
    · exact quiet call inner
  · exact quiet call (.inr made)

/-- What is known of `parse_constant` under a budget that covers the tokens left. -/
private def Constants (text : DebugText) (fuel : Nat) : Prop :=
  ∀ (p : Parser) (level : Nat), p.left < fuel →
    Traced frame ConstantCall.Stuck (parseConstant text fuel) (innerCalls text fuel level) 0 p ∧
      (p.startsConstant = true →
        Traced frame ConstantCall.Stuck (parseConstant text fuel) (innerCalls text fuel level) 1 p)

theorem aggregate_advances (constants : Constants text fuel) :
    (Loop.aggregate text fuel).Advances ConstantCall.Stuck (OnSome fun _ => memberCalls text fuel
      (Called .aggregate (level + 1) (innerCalls text fuel (level + 1)))) fuel := by
  refine Loop.leaving_advances fun fields p enough more => ?_
  have value {q : Parser} (enough : q.left < fuel) :
      Traced frame ConstantCall.Stuck (parseConstant text fuel)
        (Called .aggregate (level + 1) (innerCalls text fuel (level + 1))) 0 q :=
    called (constants q (level + 1) enough).1 (by simp [ConstantCall.Stuck])
  refine firstSome (parseOptionName_consumes (peek_of_before more) enough) enough rfl
    fun key q enough => ?_
  refine reads (.ite (fun _ => ?_) fun _ => ?_)
  · exact lastSome (value enough) enough rfl fun _ _ _ => .pure _
  · refine first (expect_traced text .colon) enough fun _ r enough => ?_
    refine lastSome (value enough) enough rfl fun _ _ enough => ?_
    exact last (expect_traced text .semicolon) enough fun _ _ _ => .pure _

/-- The loop over a list is at a token that it will not get past. -/
def Halted (p : Parser) : Prop := p.before .rBracket = true ∧ p.atItem = false

/-- The parser is where it was, but for its diagnostics. -/
private def Stays (p q : Parser) : Prop := q.pos = p.pos ∧ frame.keeps p q

private theorem Stays.peek {q : Parser} (stays : Stays p q) : q.peek = p.peek := by
  rw [Parser.peek, Parser.peek, stays.2.1, stays.1]

private theorem Stays.peekKind {q : Parser} (stays : Stays p q) : q.peekKind = p.peekKind := by
  rw [Parser.peekKind, Parser.peekKind, stays.peek]

private theorem Parser.startsConstant_eq {tok : Token} (found : p.peek = some tok) :
    p.startsConstant = tok.kind.startsConstant := by
  rw [Parser.startsConstant, Parser.peekKind, found]
  rfl

private theorem parseConstant_refused (free : p.startsConstant = false) :
    ∃ q, parseConstant text (fuel + 1) p = .ok (none, q) ∧ Stays p q := by
  rw [parseConstant_eq, bind_run, read_run, Outcome.ok_bind]
  cases found : p.peek with
  | none => exact ⟨p, rfl, rfl, frame.refl p⟩
  | some tok =>
    rw [Parser.startsConstant_eq found] at free
    refine ⟨p.pushError .invalidOption "expected a constant value" (some tok.span), ?_, rfl, rfl, rfl⟩
    dsimp only
    cases kind : tok.kind with
    | int | float | str | ident | lBrace | lBracket => rw [kind] at free; cases free
    | _ => rfl

private theorem Halted.of_stays {q : Parser} (halted : Halted p) (stays : Stays p q) :
    Halted q := by
  obtain ⟨before, free⟩ := halted
  rw [Parser.before, ← stays.peekKind, ← stays.peek] at before
  rw [Parser.atItem, Parser.startsConstant, ← stays.peekKind] at free
  exact ⟨before, free⟩

private theorem halted_pass (halted : Halted p) (items : List Constant) :
    ∃ items' q, (Loop.list text (fuel + 1)).pass items p = .ok (items', q) ∧ Stays p q := by
  obtain ⟨free, noComma⟩ := Bool.or_eq_false_iff.mp halted.2
  obtain ⟨q, ran, stays⟩ := @parseConstant_refused text p fuel free
  have other : q.peekKind ≠ some .comma := by
    rw [stays.peekKind]
    exact of_decide_eq_false noComma
  refine ⟨items, q, ?_, stays⟩
  dsimp only [Loop.list]
  rw [bind_run, ran, Outcome.ok_bind]
  dsimp only
  rw [bind_run, read_run, Outcome.ok_bind]
  dsimp only
  rw [if_neg other]
  rfl

/-- A list whose loop is halted exhausts every budget. -/
theorem list_halted (halted : Halted p) (items : List Constant) :
    (Loop.list text fuel).run fuel items p = .outOfFuel := by
  cases fuel with
  | zero => exact if_pos halted.1
  | succ fuel =>
    let l := Loop.list text (fuel + 1)
    refine @loop_diverges Empty (List Constant × Parser) (fun s => l.more s.1 s.2)
      (fun s => l.pass s.1 s.2) (items, p) (fun s => Halted s.2) halted ?_ (fuel + 1)
    rintro ⟨items, q⟩ halted
    obtain ⟨items', r, ran, stays⟩ := @halted_pass text q fuel halted items
    exact ⟨halted.1, (items', r), ran, halted.of_stays stays⟩

/-- A pass of the loop over a list that starts at an item. -/
private theorem item_pass (constants : Constants text fuel) (enough : p.left < fuel)
    (item : p.atItem = true) (items : List Constant) :
    Traced frame ConstantCall.Stuck ((Loop.list text fuel).pass items)
      (Called .list (level + 1) (innerCalls text fuel (level + 1))) 1 p := by
  have free : ¬ ConstantCall.Stuck ⟨.list, level + 1, p⟩ := fun stuck => by
    cases item.symm.trans stuck.2
  obtain ⟨lower, starts⟩ := constants p (level + 1) enough
  cases start : p.startsConstant with
  | true =>
    refine last (called (starts start) free) enough fun item q _ => readsOnly ?_
    split
    · exact advance_traced.andThen fun _ _ _ => .pure _
    · exact .pure _
  | false =>
    -- nothing is read at the comma of a missing item
    rw [Parser.atItem, start, Bool.false_or] at item
    have comma : p.peekKind = some .comma := of_decide_eq_true item
    obtain ⟨fuel, rfl⟩ := Nat.exists_eq_succ_of_ne_zero (Nat.ne_zero_of_lt enough)
    obtain ⟨q, ran, stays⟩ := @parseConstant_refused text p fuel start
    refine (called lower free).andThen fun item r ran' => readsOnly ?_
    cases ran.symm.trans ran'
    have here := stays.peekKind.trans comma
    rw [here, if_pos rfl]
    exact (advance_consumes (peek_of_kind here)).andThen fun _ _ _ => .pure _

private theorem list_traced (constants : Constants text fuel) (enough : p.left < fuel) :
    Traced frame ConstantCall.Stuck ((Loop.list text fuel).run fuel [])
      ((Loop.list text fuel).calls (fun _ =>
        Called .list (level + 1) (innerCalls text fuel (level + 1))) []) 0 p := by
  refine .loop (fun _ q => Halted q) enough (fun items q _ below more free => ?_) fun items q halted => ?_
  · have item : q.atItem = true := Bool.of_not_eq_false fun none => free ⟨more, none⟩
    exact Loop.consumed (item_pass constants (Nat.lt_of_le_of_lt below enough) item items)
  · obtain ⟨fuel, rfl⟩ := Nat.exists_eq_succ_of_ne_zero (Nat.ne_zero_of_lt enough)
    obtain ⟨items', r, ran, stays⟩ := @halted_pass text q fuel halted items
    refine ⟨halted.1, ⟨_, .inl rfl, rfl, halted.2⟩, items', r, ran, halted.of_stays stays, stays.2, ?_⟩
    simp only [frame, Parser.left, stays.1, stays.2.1, Nat.le_refl]

private theorem constant_starts (constants : Constants text fuel) {tok : Token}
    (found : p.peek = some tok) (enough : p.left < fuel + 1)
    (starts : tok.kind.startsConstant = true) :
    Traced frame ConstantCall.Stuck (parseConstant text (fuel + 1))
      (innerCalls text (fuel + 1) level) 1 p := by
  have moves : Traced frame ConstantCall.Stuck advance Silent 1 p :=
    advance_consumes (by rw [found]; rfl)
  have covered {t : Option Token} {q : Parser} (ran : advance p = .ok (t, q)) : q.left < fuel := by
    have consumed := (moves.consumes t q ran).2
    simp only [frame] at consumed
    omega
  rw [parseConstant_eq]
  unfold innerCalls
  refine reads ?_
  rw [found]
  dsimp only [OnSome]
  cases kind : tok.kind with
  | int | float | str => exact moves.andThen fun _ _ _ => .pure _
  | ident name =>
    refine moves.andThen fun _ _ _ => ?_
    split
    · exact .pure _
    · split <;> exact .pure _
  | lBrace =>
    refine moves.bind (k := 0) fun _ q ran => ?_
    refine lastSome (Loop.run_traced (aggregate_advances constants) (covered ran)) (covered ran) rfl ?_
    exact fun _ _ enough => last (expect_traced text .rBrace) enough fun _ _ _ => .pure _
  | lBracket =>
    refine moves.bind (k := 0) fun _ q ran => ?_
    refine last (k := 0) (list_traced constants (covered ran)) (covered ran) fun _ _ enough => ?_
    exact last (expect_traced text .rBracket) enough fun _ _ _ => .pure _
  | _ =>
    rw [kind] at starts
    cases starts

private theorem no_innerCalls {call : ConstantCall} (free : p.startsConstant = false) :
    ¬ innerCalls text (fuel + 1) level p call := by
  rintro ⟨_, q, ran, made⟩
  cases ran
  cases found : p.peek with
  | none =>
    rw [found] at made
    exact made
  | some tok =>
    rw [Parser.startsConstant_eq found] at free
    rw [found] at made
    dsimp only [OnSome] at made
    cases kind : tok.kind with
    | int | float | str | ident | lBrace | lBracket =>
      rw [kind] at free
      cases free
    | _ =>
      rw [kind] at made
      exact made

/-- `parse_constant` returns unless it calls itself in a stuck place. -/
theorem parseConstant_traced (text : DebugText) (fuel : Nat) : Constants text fuel := by
  induction fuel with
  | zero => exact fun p _ none => absurd none (Nat.not_lt_zero _)
  | succ fuel constants =>
    intro p level enough
    have starts (start : p.startsConstant = true) :
        Traced frame ConstantCall.Stuck (parseConstant text (fuel + 1))
          (innerCalls text (fuel + 1) level) 1 p := by
      obtain ⟨kind, found, _⟩ := (Option.any_eq_true _ _).mp start
      obtain ⟨tok, found⟩ := Option.isSome_iff_exists.mp (peek_of_kind found)
      exact constant_starts constants found enough (Parser.startsConstant_eq found ▸ start)
    refine ⟨?_, starts⟩
    cases start : p.startsConstant with
    | true => exact (starts start).weaken (Nat.zero_le 1)
    | false =>
      obtain ⟨q, ran, pos, keeps⟩ := @parseConstant_refused text p fuel start
      have quiet : Traced frame ConstantCall.Stuck (parseConstant text (fuel + 1)) Silent 0 p := by
        refine .silent ran keeps ?_
        simp only [frame, Parser.left, pos, keeps.1, Nat.add_zero, Nat.le_refl]
      exact quiet.same fun call => iff_of_false id (no_innerCalls start)

/-- The loop over a list gets past every item. -/
theorem list_pass_consumes (item : p.atItem = true) (enough : p.left < fuel) (items : List Constant) :
    Traced frame ConstantCall.Stuck ((Loop.list text fuel).pass items)
      (Called .list 1 (innerCalls text fuel 1)) 1 p :=
  item_pass (parseConstant_traced text fuel) enough item items

end Parse

end TptProto.Language
