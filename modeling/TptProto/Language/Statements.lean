import TptProto.Language.Ranges

/-! The range statements of a message's or an enum's body: what the loop over the body makes
of several of them. -/

namespace TptProto.Language

open TptProto.Foundation

section Written

/-- A number is written in a range of one of the statements. -/
def Written (keyword : String) (heads : List Parser) (n : Int) : Prop :=
  ∃ p ∈ heads, ∃ ws, p.StatementAt keyword ws ∧ ∃ w ∈ ws, w.Contains n

/-- The ranges of the last statement. -/
def LastStatement (keyword : String) (heads : List Parser) (ws : List WrittenRange) : Prop :=
  ∃ earlier p later, heads = earlier ++ p :: later ∧ p.StatementAt keyword ws ∧
    ∀ q ∈ later, ∀ other, ¬ q.StatementAt keyword other

variable {keyword : String}

theorem Parser.StatementAt.head {p : Parser} {ws : List WrittenRange}
    (here : p.StatementAt keyword ws) : p.atKeyword keyword = true ∧ p.next.peekStr = none := by
  obtain ⟨filled, after, tokens⟩ := here
  refine ⟨by simp [Parser.atKeyword, Parser.peekKind_eq, tokens], ?_⟩
  rw [Parser.peekStr, Parser.peekKind_eq, Parser.rest_next, tokens, List.tail_cons]
  cases ws with
  | nil => exact absurd rfl filled
  | cons w rest => cases w <;> cases rest <;> rfl

/-- The ranges a pass leaves: those of the statement it reads, or the ones there were. -/
def Replaces (keyword : String) (p : Parser) (before after : List IntRange) : Prop :=
  (∃ ws, p.StatementAt keyword ws ∧ after = ws.map WrittenRange.tree) ∨
    ((∀ ws, ¬ p.StatementAt keyword ws) ∧ after = before)

theorem Replaces.elsewhere {p : Parser} {ranges : List IntRange}
    (elsewhere : p.atKeyword keyword = false) : Replaces keyword p ranges ranges :=
  .inr ⟨fun ws here => by simp [here.head.1] at elsewhere, rfl⟩

/-- The ranges left after several passes: those of the last statement, if there is one. -/
def Remain (keyword : String) (heads : List Parser) (before after : List IntRange) : Prop :=
  (∃ ws, LastStatement keyword heads ws ∧ after = ws.map WrittenRange.tree) ∨
    ((∀ p ∈ heads, ∀ ws, ¬ p.StatementAt keyword ws) ∧ after = before)

/-- A loop in which every statement replaces the ranges keeps those of the last one. The
passes that matter are those that leave the loop alive. -/
theorem Run.remain {σ : Type} {more : σ → Bool} {body : σ → Outcome Empty σ}
    (parser : σ → Parser) (ranges : σ → List IntRange) (Alive : σ → Prop)
    (stops : ∀ s, more s = true → Alive s) {start final : σ} {visited : List σ}
    (run : Run more body start visited final) (alive : Alive final)
    (replaced : ∀ s ∈ visited, ∀ s', more s = true → body s = .ok s' → Alive s' →
      Replaces keyword (parser s) (ranges s) (ranges s')) :
    Remain keyword (visited.map parser) (ranges start) (ranges final) := by
  induction run with
  | done _ => exact .inr ⟨by simp, rfl⟩
  | @step state next final visited continues moved rest ih =>
    have nextAlive : Alive next := by
      cases rest with
      | done _ => exact alive
      | step again _ _ => exact stops next again
    rcases ih alive fun s member => replaced s (List.mem_cons_of_mem _ member) with
      ⟨ws, ⟨earlier, p, later, split, here, none⟩, last⟩ | ⟨none, same⟩
    · exact .inl ⟨ws, ⟨_ :: earlier, p, later, by rw [List.map_cons, split]; rfl, here, none⟩, last⟩
    · rcases replaced _ List.mem_cons_self _ continues moved nextAlive with
        ⟨ws, here, taken⟩ | ⟨other, kept⟩
      · exact .inl ⟨ws, ⟨[], _, _, rfl, here, none⟩, same.trans taken⟩
      · exact .inr ⟨List.forall_mem_cons.mpr ⟨other, none⟩, same.trans kept⟩

end Written

section Bodies

variable (text : DebugText)

/-- The states of the loop over a message's body. -/
def messageHeads : Nat → Bool → Parser → List (Message × Parser)
  | 0, _, _ => []
  | fuel + 1, isGroup, p =>
    match Parse.messageHeader text isGroup { p with depth := p.depth + 1 } with
    | .ok (some msg, start) =>
      heads (fun s => s.2.before .rBrace)
        (fun s => Parse.messageItem text (Parse.parseMessage text fuel) fuel s.1 s.2) fuel (msg, start)
    | _ => []

/-- One pass over an enum's body, until the source returns. -/
def enumPass (fuel : Nat) (s : Option Enum × Parser) : Outcome Empty (Option Enum × Parser) :=
  (match s.1 with
    | some en => Parse.enumItem text fuel en
    | none => pure none) s.2

/-- The states of the loop over an enum's body. -/
def enumHeads (fuel : Nat) (p : Parser) : List (Option Enum × Parser) :=
  match Parse.enumHeader text p with
  | .ok (some en, start) =>
    heads (fun s => s.1.isSome && s.2.before .rBrace) (enumPass text fuel) fuel (some en, start)
  | _ => []

/-- A pass that ends has recorded no diagnostic. -/
def Unheard {α : Type} (before : Parser) : Outcome Empty (α × Parser) → Bool
  | .ok (_, after) => after.diagnostics = before.diagnostics
  | _ => true

def atRanges (p : Parser) : Bool := p.atKeyword "reserved" || p.atKeyword "extensions"

/-- The range statements of a message's body parse without diagnostics. -/
def QuietMessage (fuel : Nat) (isGroup : Bool) (p : Parser) : Prop :=
  ∀ s ∈ messageHeads text (fuel + 1) isGroup p, atRanges s.2 = true →
    Unheard s.2 (Parse.messageItem text (Parse.parseMessage text fuel) fuel s.1 s.2) = true

/-- The range statements of an enum's body parse without diagnostics. -/
def QuietEnum (fuel : Nat) (p : Parser) : Prop :=
  ∀ s ∈ enumHeads text fuel p, atRanges s.2 = true →
    Unheard s.2 (enumPass text fuel s) = true

end Bodies

section Passes

open Parse

variable {text : DebugText} {fuel : Nat} {p p' : Parser}

theorem atKeyword_unique {a b : String} (first : p.atKeyword a = true)
    (second : p.atKeyword b = true) : a = b := by
  simp only [Parser.atKeyword, decide_eq_true_eq] at first second
  rw [first] at second
  simpa using second

theorem orRecover_ok {α β : Type} {item : Parse (Option α)} {keep result : β} {add : α → β}
    (run : orRecover fuel item keep add p = .ok (result, p')) :
    result = keep ∨ ∃ a, result = add a := by
  unfold orRecover at run
  obtain ⟨r, q, _, after⟩ := bind_ok.mp run
  cases r with
  | some a =>
    cases after
    exact .inr ⟨a, rfl⟩
  | none =>
    obtain ⟨_, _, _, done⟩ := bind_ok.mp after
    cases done
    exact .inl rfl

/-- A pass at a `reserved` or `extensions` keyword reads that statement; another pass leaves
the ranges as they are. -/
theorem messageItem_ranges {nested : Bool → Parse (Option Message)} {msg msg' : Message}
    (run : messageItem text nested fuel msg p = .ok (msg', p')) :
    (p.atKeyword "reserved" = true ∧ parseReserved text fuel msg p = .ok (msg', p')) ∨
    (p.atKeyword "extensions" = true ∧ parseExtensions text fuel msg p = .ok (msg', p')) ∨
    (p.atKeyword "reserved" = false ∧ p.atKeyword "extensions" = false ∧
      msg'.reservedRanges = msg.reservedRanges ∧ msg'.extensionRanges = msg.extensionRanges) := by
  have only : ∀ {a}, p.atKeyword a = true → ∀ b, b ≠ a → p.atKeyword b = false := by
    intro a here b differs
    cases other : p.atKeyword b with
    | false => rfl
    | true => exact absurd (atKeyword_unique other here) differs
  unfold messageItem at run
  simp only [bind_run, read_run, Outcome.ok_bind, ite_run] at run
  cases reserved : p.atKeyword "reserved" with
  | true =>
    have others := only reserved
    simp only [others "option" (by decide), others "message" (by decide), others "enum" (by decide),
      others "oneof" (by decide), others "map" (by decide), reserved, Bool.false_eq_true,
      ↓reduceIte] at run
    exact .inl ⟨rfl, run⟩
  | false =>
    cases extensions : p.atKeyword "extensions" with
    | true =>
      have others := only extensions
      simp only [others "option" (by decide), others "message" (by decide), others "enum" (by decide),
        others "oneof" (by decide), others "map" (by decide), reserved, extensions,
        Bool.false_eq_true, ↓reduceIte] at run
      exact .inr (.inl ⟨rfl, run⟩)
    | false =>
      refine .inr (.inr ⟨rfl, rfl, ?_⟩)
      have recovered : ∀ {α : Type} {item : Parse (Option α)} {add : α → Message},
          orRecover fuel item msg add p = .ok (msg', p') →
          (∀ a, (add a).reservedRanges = msg.reservedRanges ∧
            (add a).extensionRanges = msg.extensionRanges) →
          msg'.reservedRanges = msg.reservedRanges ∧ msg'.extensionRanges = msg.extensionRanges := by
        intro α item add ran kept
        rcases orRecover_ok ran with rfl | ⟨a, rfl⟩
        · exact ⟨rfl, rfl⟩
        · exact kept a
      simp only [reserved, extensions, Bool.false_eq_true, ↓reduceIte] at run
      split at run
      · obtain ⟨_, _, done⟩ := Outcome.bind_eq_ok.mp run
        cases done
        exact ⟨rfl, rfl⟩
      split at run
      · exact recovered run fun _ => ⟨rfl, rfl⟩
      split at run
      · exact recovered run fun _ => ⟨rfl, rfl⟩
      split at run
      · exact recovered run fun _ => ⟨rfl, rfl⟩
      split at run
      · exact recovered run fun _ => ⟨rfl, rfl⟩
      split at run
      · exact recovered run fun _ => ⟨rfl, rfl⟩
      split at run
      · exact recovered run fun _ => ⟨rfl, rfl⟩
      split at run
      · exact recovered run fun _ => ⟨rfl, rfl⟩
      · obtain ⟨_, _, done⟩ := Outcome.bind_eq_ok.mp run
        obtain ⟨_, _, done'⟩ := Outcome.bind_eq_ok.mp done
        cases done'
        exact ⟨rfl, rfl⟩

theorem advance_atKeyword {keyword : String} {α : Type} {f : Option Token → Parse α} {a : α}
    (here : p.atKeyword keyword = true) (run : (advance >>= f) p = .ok (a, p')) :
    ∃ t, f t p.next = .ok (a, p') := by
  simp only [Parser.atKeyword, Parser.peekKind_eq, decide_eq_true_eq] at here
  obtain ⟨after, rest⟩ := List.head?_eq_some_iff.mp here
  obtain ⟨t, moved⟩ := advance_next rest
  rw [bind_run, moved, Outcome.ok_bind] at run
  exact ⟨_, run⟩

theorem parseReserved_replaces {msg msg' : Message} (here : p.atKeyword "reserved" = true)
    (run : parseReserved text fuel msg p = .ok (msg', p'))
    (quiet : p'.diagnostics = p.diagnostics) :
    Replaces "reserved" p msg.reservedRanges msg'.reservedRanges ∧
      msg'.extensionRanges = msg.extensionRanges := by
  unfold parseReserved at run
  obtain ⟨_, run⟩ := advance_atKeyword here run
  rw [bind_run, read_run, Outcome.ok_bind, ite_run] at run
  split at run
  · rename_i names
    obtain ⟨_, _, _, run⟩ := bind_ok.mp run
    obtain ⟨_, _, kept, run⟩ := bind_ok.mp run
    obtain ⟨_, _, _, done⟩ := bind_ok.mp run
    cases kept
    cases done
    exact ⟨.inr ⟨fun ws statement => by simp [statement.head.2] at names, rfl⟩, rfl⟩
  · obtain ⟨ranges, _, reads, run⟩ := bind_ok.mp run
    obtain ⟨_, _, kept, run⟩ := bind_ok.mp run
    obtain ⟨_, _, ends, done⟩ := bind_ok.mp run
    cases kept
    cases done
    exact ⟨.inl (statement_reads here reads ends quiet), rfl⟩

theorem parseExtensions_replaces {msg msg' : Message} (here : p.atKeyword "extensions" = true)
    (run : parseExtensions text fuel msg p = .ok (msg', p'))
    (quiet : p'.diagnostics = p.diagnostics) :
    Replaces "extensions" p msg.extensionRanges msg'.extensionRanges ∧
      msg'.reservedRanges = msg.reservedRanges := by
  unfold parseExtensions at run
  obtain ⟨_, run⟩ := advance_atKeyword here run
  obtain ⟨ranges, _, reads, run⟩ := bind_ok.mp run
  obtain ⟨_, _, ends, done⟩ := bind_ok.mp run
  cases done
  exact ⟨.inl (statement_reads here reads ends quiet), rfl⟩

theorem parseEnumReserved_replaces {en en' : Enum} (here : p.atKeyword "reserved" = true)
    (run : parseEnumReserved text fuel en p = .ok (en', p'))
    (quiet : p'.diagnostics = p.diagnostics) :
    Replaces "reserved" p en.reservedRanges en'.reservedRanges := by
  unfold parseEnumReserved at run
  obtain ⟨_, run⟩ := advance_atKeyword here run
  rw [bind_run, read_run, Outcome.ok_bind, ite_run] at run
  split at run
  · rename_i names
    obtain ⟨_, _, _, run⟩ := bind_ok.mp run
    obtain ⟨_, _, kept, run⟩ := bind_ok.mp run
    obtain ⟨_, _, _, done⟩ := bind_ok.mp run
    cases kept
    cases done
    exact .inr ⟨fun ws statement => by simp [statement.head.2] at names, rfl⟩
  · obtain ⟨ranges, _, reads, run⟩ := bind_ok.mp run
    obtain ⟨_, _, kept, run⟩ := bind_ok.mp run
    obtain ⟨_, _, ends, done⟩ := bind_ok.mp run
    cases kept
    cases done
    exact .inl (statement_reads here reads ends quiet)

/-- One pass over a message's body, at a range statement that gives no diagnostic or at
something else. -/
theorem messageItem_replaces {nested : Bool → Parse (Option Message)} {msg msg' : Message}
    (run : messageItem text nested fuel msg p = .ok (msg', p'))
    (quiet : atRanges p = true → p'.diagnostics = p.diagnostics) :
    Replaces "reserved" p msg.reservedRanges msg'.reservedRanges ∧
      Replaces "extensions" p msg.extensionRanges msg'.extensionRanges := by
  have apart : ∀ {a}, p.atKeyword a = true → ∀ b, b ≠ a → p.atKeyword b = false := by
    intro a here b differs
    cases other : p.atKeyword b with
    | false => rfl
    | true => exact absurd (atKeyword_unique other here) differs
  rcases messageItem_ranges run with ⟨here, reads⟩ | ⟨here, reads⟩ | ⟨noReserved, noExtensions, kept⟩
  · obtain ⟨replaced, same⟩ := parseReserved_replaces here reads (quiet (by simp [atRanges, here]))
    exact ⟨replaced, same ▸ .elsewhere (apart here "extensions" (by decide))⟩
  · obtain ⟨replaced, same⟩ := parseExtensions_replaces here reads (quiet (by simp [atRanges, here]))
    exact ⟨same ▸ .elsewhere (apart here "reserved" (by decide)), replaced⟩
  · rw [kept.1, kept.2]
    exact ⟨.elsewhere noReserved, .elsewhere noExtensions⟩

theorem enumItem_replaces {en : Enum} {en' : Option Enum}
    (run : enumItem text fuel en p = .ok (en', p'))
    (quiet : atRanges p = true → p'.diagnostics = p.diagnostics) :
    ∀ e ∈ en', Replaces "reserved" p en.reservedRanges e.reservedRanges := by
  intro e some
  cases some
  unfold enumItem at run
  simp only [bind_run, read_run, Outcome.ok_bind, ite_run] at run
  cases reserved : p.atKeyword "reserved" with
  | true =>
    have other : p.atKeyword "option" = false := by
      cases option : p.atKeyword "option" with
      | false => rfl
      | true => exact absurd (atKeyword_unique option reserved) (by decide)
    simp only [other, reserved, Bool.false_eq_true, ↓reduceIte] at run
    obtain ⟨⟨en', q⟩, reads, done⟩ := Outcome.bind_eq_ok.mp run
    cases done
    exact parseEnumReserved_replaces reserved reads (quiet (by simp [atRanges, reserved]))
  | false =>
    have kept : e.reservedRanges = en.reservedRanges := by
      simp only [reserved, Bool.false_eq_true, ↓reduceIte] at run
      split at run
      · obtain ⟨⟨o, q⟩, _, done⟩ := Outcome.bind_eq_ok.mp run
        cases o <;> cases done <;> rfl
      split at run
      · obtain ⟨⟨v, q⟩, _, done⟩ := Outcome.bind_eq_ok.mp run
        cases v <;> cases done
        rfl
      · obtain ⟨_, _, done⟩ := Outcome.bind_eq_ok.mp run
        obtain ⟨_, _, done'⟩ := Outcome.bind_eq_ok.mp done
        cases done'
        rfl
    rw [kept]
    exact .elsewhere reserved

theorem messageHeader_fresh {isGroup : Bool} {msg : Message}
    (run : messageHeader text isGroup p = .ok (some msg, p')) :
    msg.reservedRanges = [] ∧ msg.extensionRanges = [] := by
  unfold messageHeader at run
  obtain ⟨_, _, _, run⟩ := bind_ok.mp run
  obtain ⟨_, _, _, run⟩ := bind_ok.mp run
  obtain ⟨name, _, _, run⟩ := bind_ok.mp run
  cases name with
  | none => cases run
  | some name =>
    obtain ⟨_, _, _, run⟩ := bind_ok.mp run
    obtain ⟨_, _, _, done⟩ := bind_ok.mp run
    cases done
    exact ⟨rfl, rfl⟩

theorem enumHeader_fresh {en : Enum} (run : enumHeader text p = .ok (some en, p')) :
    en.reservedRanges = [] := by
  unfold enumHeader at run
  obtain ⟨_, _, _, run⟩ := bind_ok.mp run
  obtain ⟨_, _, _, run⟩ := bind_ok.mp run
  obtain ⟨name, _, _, run⟩ := bind_ok.mp run
  cases name with
  | none => cases run
  | some name =>
    obtain ⟨_, _, _, done⟩ := bind_ok.mp run
    cases done
    rfl

/-- A parsed message has been through the loop over its body. -/
theorem parseMessage_run {isGroup : Bool} {m : Message}
    (run : parseMessage text (fuel + 1) isGroup p = .ok (some m, p')) :
    ∃ msg start final, messageHeader text isGroup { p with depth := p.depth + 1 } =
        .ok (some msg, start) ∧
      Run (fun s : Message × Parser => s.2.before .rBrace)
        (fun s => messageItem text (parseMessage text fuel) fuel s.1 s.2) (msg, start)
        (messageHeads text (fuel + 1) isGroup p) (m, final) := by
  unfold parseMessage at run
  obtain ⟨_, _, got, run⟩ := bind_ok.mp run
  cases got
  rw [ite_run] at run
  split at run
  · -- too deep: no message is returned
    dsimp only at run
    obtain ⟨_, _, _, run⟩ := bind_ok.mp run
    obtain ⟨_, _, _, run⟩ := bind_ok.mp run
    obtain ⟨_, _, _, run⟩ := bind_ok.mp run
    rw [ite_run] at run
    split at run
    · obtain ⟨_, _, _, done⟩ := bind_ok.mp run
      cases done
    · cases run
  · obtain ⟨_, _, entered, run⟩ := bind_ok.mp run
    cases entered
    obtain ⟨_, _, inner, run⟩ := bind_ok.mp run
    obtain ⟨_, _, left, done⟩ := bind_ok.mp run
    cases left
    cases done
    unfold parseMessageInner at inner
    obtain ⟨header, start, opened, inner⟩ := bind_ok.mp inner
    cases header with
    | none => cases inner
    | some msg =>
      obtain ⟨_, _, body, done⟩ := bind_ok.mp inner
      cases done
      unfold parseMessageBody at body
      obtain ⟨_, final, looped, body⟩ := bind_ok.mp body
      obtain ⟨_, _, _, done⟩ := bind_ok.mp body
      cases done
      refine ⟨msg, start, final, opened, ?_⟩
      rw [messageHeads, opened]
      exact run_heads looped

/-- The ranges of a parsed message are those of its last statements. -/
theorem parseMessage_remain {isGroup : Bool} {m : Message}
    (run : parseMessage text (fuel + 1) isGroup p = .ok (some m, p'))
    (quiet : QuietMessage text fuel isGroup p) :
    Remain "reserved" ((messageHeads text (fuel + 1) isGroup p).map Prod.snd) [] m.reservedRanges ∧
      Remain "extensions" ((messageHeads text (fuel + 1) isGroup p).map Prod.snd) []
        m.extensionRanges := by
  obtain ⟨msg, start, final, opened, loops⟩ := parseMessage_run run
  obtain ⟨noReserved, noExtensions⟩ := messageHeader_fresh opened
  have unheard : ∀ s ∈ messageHeads text (fuel + 1) isGroup p, ∀ s' : Message × Parser,
      messageItem text (parseMessage text fuel) fuel s.1 s.2 = .ok s' →
      atRanges s.2 = true → s'.2.diagnostics = s.2.diagnostics := by
    intro s member s' moved here
    have silent := quiet s member here
    rw [moved] at silent
    simpa [Unheard] using silent
  constructor
  · rw [← noReserved]
    exact Run.remain Prod.snd (fun s => s.1.reservedRanges) (fun _ => True) (fun _ _ => trivial) loops
      trivial fun s member s' _ moved _ => (messageItem_replaces moved (unheard s member s' moved)).1
  · rw [← noExtensions]
    exact Run.remain Prod.snd (fun s => s.1.extensionRanges) (fun _ => True) (fun _ _ => trivial) loops
      trivial fun s member s' _ moved _ => (messageItem_replaces moved (unheard s member s' moved)).2

theorem parseEnum_remain {e : Enum} (run : parseEnum text fuel p = .ok (some e, p'))
    (quiet : QuietEnum text fuel p) :
    Remain "reserved" ((enumHeads text fuel p).map Prod.snd) [] e.reservedRanges := by
  unfold parseEnum at run
  obtain ⟨header, start, opened, run⟩ := bind_ok.mp run
  cases header with
  | none => cases run
  | some en =>
    obtain ⟨result, final, looped, run⟩ := bind_ok.mp run
    cases result with
    | none => cases run
    | some last =>
      obtain ⟨_, _, _, run⟩ := bind_ok.mp run
      obtain ⟨_, _, _, done⟩ := bind_ok.mp run
      cases done
      have loops : Run (fun s : Option Enum × Parser => s.1.isSome && s.2.before .rBrace)
          (enumPass text fuel) (some en, start) (enumHeads text fuel p) (some last, final) := by
        rw [enumHeads, opened]
        refine run_heads (Eq.trans ?_ looped)
        unfold repeatSome repeatWhile
        congr 1
        funext s
        obtain ⟨current, q⟩ := s
        cases current <;> rfl
      rw [← enumHeader_fresh opened]
      refine Run.remain Prod.snd
        (fun s : Option Enum × Parser => (s.1.map fun e => e.reservedRanges).getD [])
        (fun s => s.1.isSome = true) (fun s more => (Bool.and_eq_true_iff.mp more).1) loops rfl ?_
      rintro ⟨current, q⟩ member ⟨next, q'⟩ continues moved alive
      cases current with
      | none => cases continues
      | some current =>
        cases next with
        | none => cases alive
        | some next =>
          refine enumItem_replaces moved (fun here => ?_) next rfl
          have silent := quiet _ member here
          rw [moved] at silent
          simpa [Unheard] using silent

end Passes

end TptProto.Language
