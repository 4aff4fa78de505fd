import TptProto.Language.Parser

/-! How `reserved` and `extensions` statements are written, and what the parser reads of one
that gives no diagnostic. -/

namespace TptProto.Language

open TptProto.Foundation

/-- A range as written. -/
inductive WrittenRange where
  | single (number : Int64)
  | upTo (start stop : Int64)
  | toMax (start : Int64)
  /-- A number and a dangling `to`, which the parser takes without a diagnostic. -/
  | dangling (number : Int64)
  deriving DecidableEq, Repr

namespace WrittenRange

def tokens : WrittenRange → List TokenKind
  | single n => [.int n]
  | upTo a b => [.int a, .ident "to", .int b]
  | toMax a => [.int a, .ident "to", .ident "max"]
  | dangling n => [.int n, .ident "to"]

/-- The numbers of a range; `max` is above all of them. -/
def Contains : WrittenRange → Int → Prop
  | single k, n => n = k.toInt
  | upTo a b, n => a.toInt ≤ n ∧ n ≤ b.toInt
  | toMax a, n => a.toInt ≤ n
  | dangling k, n => n = k.toInt

/-- The range of the syntax tree. -/
def tree : WrittenRange → IntRange
  | single n => ⟨n, none⟩
  | upTo a b => ⟨a, some b⟩
  | toMax a => ⟨a, some 9223372036854775807⟩
  | dangling n => ⟨n, none⟩

end WrittenRange

/-- Ranges separated by commas. -/
def rangesTokens : List WrittenRange → List TokenKind
  | [] => []
  | [w] => w.tokens
  | w :: rest => w.tokens ++ .comma :: rangesTokens rest

theorem rangesTokens_cons {w : WrittenRange} {ws : List WrittenRange} (filled : ws ≠ []) :
    rangesTokens (w :: ws) = w.tokens ++ .comma :: rangesTokens ws := by
  cases ws with
  | nil => exact absurd rfl filled
  | cons _ _ => rfl

namespace Parser

variable {p : Parser}

/-- The kinds of the tokens not read yet. -/
def rest (p : Parser) : List TokenKind := (p.tokens.drop p.pos).map fun t => t.kind

def next (p : Parser) : Parser := { p with pos := p.pos + 1 }

theorem peekKind_eq (p : Parser) : p.peekKind = p.rest.head? := by
  rw [peekKind, peek, rest, List.head?_map, List.head?_drop]

theorem rest_next (p : Parser) : p.next.rest = p.rest.tail := by
  rw [rest, next, rest, ← List.map_tail, List.tail_drop]

/-- A statement of ranges starts at the next token. -/
def StatementAt (p : Parser) (keyword : String) (ws : List WrittenRange) : Prop :=
  ws ≠ [] ∧ ∃ after, p.rest = .ident keyword :: (rangesTokens ws ++ .semicolon :: after)

end Parser

section Unique

private theorem range_unique {w w' : WrittenRange} {after after' : List TokenKind}
    (stop : after.head? = some .comma ∨ after.head? = some .semicolon)
    (stop' : after'.head? = some .comma ∨ after'.head? = some .semicolon)
    (same : w.tokens ++ after = w'.tokens ++ after') : w = w' ∧ after = after' := by
  cases w <;> cases w' <;> simp_all [WrittenRange.tokens] <;>
    first
      | (obtain ⟨_, rfl⟩ := same; simp at stop stop')

theorem rangesTokens_unique {ws ws' : List WrittenRange} (filled : ws ≠ []) (filled' : ws' ≠ [])
    {after after' : List TokenKind}
    (same : rangesTokens ws ++ .semicolon :: after = rangesTokens ws' ++ .semicolon :: after') :
    ws = ws' := by
  induction ws generalizing ws' with
  | nil => exact absurd rfl filled
  | cons w rest ih =>
    cases ws' with
    | nil => exact absurd rfl filled'
    | cons w' rest' =>
      by_cases last : rest = []
      · by_cases last' : rest' = []
        · subst last last'
          simp only [rangesTokens] at same
          rw [(range_unique (.inr rfl) (.inr rfl) same).1]
        · subst last
          rw [rangesTokens_cons last', rangesTokens, List.append_assoc] at same
          have impossible := (range_unique (.inr rfl) (.inl rfl) same).2
          simp at impossible
      · by_cases last' : rest' = []
        · subst last'
          rw [rangesTokens_cons last, rangesTokens, List.append_assoc] at same
          have impossible := (range_unique (.inl rfl) (.inr rfl) same).2
          simp at impossible
        · rw [rangesTokens_cons last, rangesTokens_cons last', List.append_assoc,
            List.append_assoc] at same
          obtain ⟨head, tail⟩ := range_unique (.inl rfl) (.inl rfl) same
          rw [head, ih last last' (List.cons.inj tail).2]

/-- A statement is written in one way. -/
theorem Parser.StatementAt.unique {p : Parser} {keyword : String} {ws ws' : List WrittenRange}
    (first : p.StatementAt keyword ws) (second : p.StatementAt keyword ws') : ws = ws' := by
  obtain ⟨filled, after, tokens⟩ := first
  obtain ⟨filled', after', tokens'⟩ := second
  rw [tokens] at tokens'
  exact rangesTokens_unique filled filled' (List.cons.inj tokens').2

end Unique

namespace Parse

section Runs

variable {α β : Type} {p p' : Parser}

theorem bind_run (x : Parse α) (f : α → Parse β) (p : Parser) :
    (x >>= f) p = x p >>= fun r => f r.1 r.2 := rfl

theorem pure_run (a : α) (p : Parser) : (pure a : Parse α) p = .ok (a, p) := rfl

theorem read_run (f : Parser → α) (p : Parser) : read f p = .ok (f p, p) := rfl

theorem ite_run (c : Prop) [Decidable c] (x y : Parse α) (p : Parser) :
    (if c then x else y) p = if c then x p else y p := by
  split <;> rfl

/-- A sequence ends where its parts do. -/
theorem bind_ok {x : Parse α} {f : α → Parse β} {b : β} :
    (x >>= f) p = .ok (b, p') ↔ ∃ a q, x p = .ok (a, q) ∧ f a q = .ok (b, p') := by
  rw [bind_run, Outcome.bind_eq_ok]
  exact ⟨fun ⟨⟨a, q⟩, head, tail⟩ => ⟨a, q, head, tail⟩,
    fun ⟨a, q, head, tail⟩ => ⟨(a, q), head, tail⟩⟩

theorem advance_next {kind : TokenKind} {after : List TokenKind} (rest : p.rest = kind :: after) :
    ∃ t, advance p = .ok (some t, p.next) := by
  unfold advance
  cases found : p.peek with
  | some t => exact ⟨t, rfl⟩
  | none =>
    have kind := Parser.peekKind_eq p
    rw [rest, Parser.peekKind, found] at kind
    cases kind

end Runs

section Quiet

/-- Diagnostics are only added. -/
def Grows (p p' : Parser) : Prop := p.diagnostics <+: p'.diagnostics

theorem Grows.squeeze {p q p' : Parser} (first : Grows p q) (second : Grows q p')
    (quiet : p'.diagnostics = p.diagnostics) :
    q.diagnostics = p.diagnostics ∧ p'.diagnostics = q.diagnostics := by
  have lower := first.length_le
  have upper := second.length_le
  rw [quiet] at upper
  have same : p.diagnostics = q.diagnostics := first.eq_of_length (by omega)
  exact ⟨same.symm, quiet.trans same⟩

variable {text : DebugText} {p p' : Parser}

theorem expect_grows {kind : TokenKind} {t : Option Token}
    (run : expect text kind p = .ok (t, p')) : Grows p p' := by
  unfold expect at run
  rw [bind_run, read_run, Outcome.ok_bind, ite_run] at run
  split at run
  · unfold advance at run
    split at run <;> cases run <;> exact List.prefix_refl _
  · cases run
    exact List.prefix_append _ _

theorem expect_quiet {kind : TokenKind} {t : Option Token}
    (run : expect text kind p = .ok (t, p')) (quiet : p'.diagnostics = p.diagnostics) :
    p.rest = kind :: p'.rest := by
  unfold expect at run
  rw [bind_run, read_run, Outcome.ok_bind, ite_run] at run
  split at run
  · rename_i found
    rw [Parser.peekKind_eq] at found
    obtain ⟨after, rest⟩ := List.head?_eq_some_iff.mp found
    obtain ⟨t, moved⟩ := advance_next rest
    rw [moved] at run
    cases run
    rw [Parser.rest_next, rest, List.tail_cons]
  · cases run
    simp [Parser.pushError] at quiet

/-- What is read after a range's first number. -/
theorem parseRangeEnd_reads (p : Parser) :
    ∃ stop used p', parseRangeEnd p = .ok (stop, p') ∧ p'.diagnostics = p.diagnostics ∧
      p.rest = used ++ p'.rest ∧ ∀ start, ∃ w : WrittenRange,
        w.tokens = .int start :: used ∧ w.tree = ⟨start, stop⟩ := by
  unfold parseRangeEnd
  simp only [bind_run, read_run, Outcome.ok_bind, ite_run, Parser.atKeyword, Parser.peekKind_eq,
    Parser.peekInt, decide_eq_true_eq]
  split
  · rename_i isTo
    obtain ⟨after, rest⟩ := List.head?_eq_some_iff.mp isTo
    obtain ⟨t, moved⟩ := advance_next rest
    have afterTo : p.next.rest = after := by rw [Parser.rest_next, rest, List.tail_cons]
    rw [moved]
    simp only [Outcome.ok_bind, afterTo]
    split
    · rename_i isMax
      obtain ⟨later, restMax⟩ := List.head?_eq_some_iff.mp isMax
      obtain ⟨u, movedMax⟩ := advance_next (afterTo.trans restMax)
      rw [movedMax]
      refine ⟨_, [.ident "to", .ident "max"], _, rfl, rfl, ?_, fun start => ⟨.toMax start, rfl, rfl⟩⟩
      rw [Parser.rest_next, afterTo, rest, restMax]
      rfl
    · cases int : after.head? with
      | none => exact ⟨_, [.ident "to"], _, rfl, rfl, by rw [afterTo, rest]; rfl,
          fun start => ⟨.dangling start, rfl, rfl⟩⟩
      | some kind =>
        obtain ⟨later, restInt⟩ := List.head?_eq_some_iff.mp int
        cases kind with
        | int stop =>
          obtain ⟨u, movedInt⟩ := advance_next (afterTo.trans restInt)
          simp only [bind_run, movedInt]
          refine ⟨_, [.ident "to", .int stop], _, rfl, rfl, ?_,
            fun start => ⟨.upTo start stop, rfl, rfl⟩⟩
          rw [Parser.rest_next, afterTo, rest, restInt]
          rfl
        | _ => exact ⟨_, [.ident "to"], _, rfl, rfl, by rw [afterTo, rest]; rfl,
            fun start => ⟨.dangling start, rfl, rfl⟩⟩
  · exact ⟨_, [], _, rfl, rfl, rfl, fun start => ⟨.single start, rfl, rfl⟩⟩

/-- One pass reads a range, and a comma if another one follows, or records an error. -/
theorem parseRange_reads {acc result : List IntRange × Bool}
    (run : parseRange acc p = .ok (result, p')) :
    (∃ w : WrittenRange, result.1 = acc.1 ++ [w.tree] ∧ p'.diagnostics = p.diagnostics ∧
      p.rest = w.tokens ++ (if result.2 then .comma :: p'.rest else p'.rest)) ∨
    (result.2 = false ∧ ∃ d, p'.diagnostics = p.diagnostics ++ [d]) := by
  unfold parseRange parseNumber at run
  simp only [bind_run, read_run, Outcome.ok_bind, Parser.peekInt, Parser.peekKind_eq] at run
  cases head : p.rest.head? with
  | none =>
    simp only [head] at run
    cases run
    exact .inr ⟨rfl, _, rfl⟩
  | some kind =>
    obtain ⟨after, rest⟩ := List.head?_eq_some_iff.mp head
    cases kind with
    | int start =>
      left
      obtain ⟨t, moved⟩ := advance_next rest
      obtain ⟨stop, used, q, runEnd, quiet, split, shape⟩ := parseRangeEnd_reads p.next
      obtain ⟨w, tokens, tree⟩ := shape start
      have whole : p.rest = w.tokens ++ q.rest := by
        rw [tokens, List.cons_append, ← split, Parser.rest_next, rest, List.tail_cons]
      simp only [head, bind_run, moved, Outcome.ok_bind, pure_run, runEnd, read_run, ite_run] at run
      split at run
      · rename_i comma
        rw [Parser.peekKind_eq] at comma
        obtain ⟨later, restComma⟩ := List.head?_eq_some_iff.mp comma
        obtain ⟨u, movedComma⟩ := advance_next restComma
        simp only [movedComma, Outcome.ok_bind] at run
        cases run
        refine ⟨w, by rw [tree], quiet, ?_⟩
        rw [whole, Parser.rest_next, restComma]
        rfl
      · cases run
        exact ⟨w, by rw [tree], quiet, whole⟩
    | _ =>
      right
      simp only [head] at run
      cases run
      exact ⟨rfl, _, rfl⟩

private theorem rangesLoop_reads {fuel : Nat} {acc : List IntRange} {result : List IntRange × Bool}
    (run : loop (fun s : (List IntRange × Bool) × Parser => s.1.2) (fun s => parseRange s.1 s.2) fuel
      ((acc, true), p) = .ok (result, p')) :
    Grows p p' ∧ (p'.diagnostics = p.diagnostics → ∃ ws : List WrittenRange, ws ≠ [] ∧
      result.1 = acc ++ ws.map WrittenRange.tree ∧ p.rest = rangesTokens ws ++ p'.rest) := by
  induction fuel generalizing acc p with
  | zero => simp [loop] at run
  | succ fuel ih =>
    rw [loop_step rfl, Outcome.bind_eq_ok] at run
    obtain ⟨⟨pass, q⟩, first, later⟩ := run
    rcases parseRange_reads first with ⟨w, ranges, quiet, tokens⟩ | ⟨last, d, recorded⟩
    · obtain ⟨passed, again⟩ := pass
      cases again with
      | true =>
        obtain ⟨grows, reads⟩ := ih later
        refine ⟨by rw [Grows, ← quiet]; exact grows, fun silent => ?_⟩
        obtain ⟨ws, filled, result', restTokens⟩ := reads (silent.trans quiet.symm)
        have passed' : passed = acc ++ [w.tree] := ranges
        have tokens' : p.rest = w.tokens ++ .comma :: q.rest := tokens
        refine ⟨w :: ws, by simp, ?_, ?_⟩
        · rw [result', passed']
          simp
        · rw [tokens', rangesTokens_cons filled, restTokens]
          simp
      | false =>
        rw [loop_done rfl] at later
        cases later
        refine ⟨⟨[], by rw [List.append_nil, quiet]⟩, fun _ => ⟨[w], by simp, ranges, tokens⟩⟩
    · obtain ⟨passed, again⟩ := pass
      subst last
      rw [loop_done rfl] at later
      cases later
      refine ⟨by rw [Grows, recorded]; exact List.prefix_append _ _, fun silent => ?_⟩
      rw [recorded] at silent
      simp at silent

theorem parseRanges_reads {fuel : Nat} {ranges : List IntRange}
    (run : parseRanges fuel p = .ok (ranges, p')) :
    Grows p p' ∧ (p'.diagnostics = p.diagnostics → ∃ ws : List WrittenRange, ws ≠ [] ∧
      ranges = ws.map WrittenRange.tree ∧ p.rest = rangesTokens ws ++ p'.rest) := by
  unfold parseRanges at run
  obtain ⟨result, q, looped, done⟩ := bind_ok.mp run
  cases done
  simpa using rangesLoop_reads looped

/-- The statement after a keyword: the ranges and the semicolon. -/
theorem statement_reads {fuel : Nat} {keyword : String} {ranges : List IntRange} {t : Option Token}
    {q : Parser} (here : p.atKeyword keyword = true)
    (run : parseRanges fuel p.next = .ok (ranges, q)) (ends : expect text .semicolon q = .ok (t, p'))
    (quiet : p'.diagnostics = p.diagnostics) :
    ∃ ws, p.StatementAt keyword ws ∧ ranges = ws.map WrittenRange.tree := by
  obtain ⟨grows, reads⟩ := parseRanges_reads run
  obtain ⟨first, second⟩ := Grows.squeeze grows (expect_grows ends) quiet
  obtain ⟨ws, filled, tree, tokens⟩ := reads first
  simp only [Parser.atKeyword, Parser.peekKind_eq, decide_eq_true_eq] at here
  obtain ⟨after, rest⟩ := List.head?_eq_some_iff.mp here
  refine ⟨ws, ⟨filled, p'.rest, ?_⟩, tree⟩
  rw [Parser.rest_next, rest, List.tail_cons, expect_quiet ends second] at tokens
  rw [rest, tokens]

end Quiet

end Parse

end TptProto.Language
