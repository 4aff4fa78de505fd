import TptProto.Foundation.JsonText
import TptProto.Lint.Lint
import Mathlib.Data.List.DropRight

/-! A report as a JSON document, and which messages are read back from it. -/

namespace TptProto.Lint

open TptProto.Foundation TptProto.Descriptor

section Rendering

def Severity.tag : Severity → String
  | .safe => "SAFE"
  | .warning => "WARNING"
  | .breaking => "BREAKING"

def serdeJsonEscapeChar : Char → List Char
  | '"' => ['\\', '"']
  | '\\' => ['\\', '\\']
  | '\n' => ['\\', 'n']
  | '\r' => ['\\', 'r']
  | '\t' => ['\\', 't']
  | c => [c]

def serdeJsonEscape (s : String) : String :=
  "\"" ++ String.ofList (s.toList.flatMap serdeJsonEscapeChar) ++ "\""

def Finding.renderJson (f : Finding) : String :=
  "  \x7b\"severity\":\"" ++ f.severity.tag ++ "\",\"code\":\"" ++ f.code ++ "\",\"message\":" ++
    serdeJsonEscape f.message ++ "\x7d\n"

/-- The findings, with a comma behind each but the last. -/
def renderFindings : Report → String
  | [] => ""
  | f :: rest => f.renderJson ++ (if rest.isEmpty then "" else ",") ++ "\n" ++ renderFindings rest

def Report.renderJson (r : Report) : String := "[\n" ++ renderFindings r ++ "]\n"

end Rendering

section Reading

open JsonText (Value value string items enclosed member skipBlanks parse isBlank isUnescaped)

/-- What a reader of the document is to find. -/
def Finding.asJson (f : Finding) : Value :=
  .object [("severity".toList, .string f.severity.tag.toList), ("code".toList, .string f.code.toList),
    ("message".toList, .string f.message.toList)]

def Report.asJson (r : Report) : Value := .array (r.map Finding.asJson)

/-- A message of printable characters, line ends and tabs. -/
def PlainMessage (message : String) : Prop :=
  ∀ c ∈ message.toList, isUnescaped c = true ∨ c = '\n' ∨ c = '\r' ∨ c = '\t'

/-- A code that stands in quotes as it is. -/
def PlainCode (code : String) : Prop :=
  ∀ c ∈ code.toList, isUnescaped c = true ∧ c ≠ '"' ∧ c ≠ '\\'

instance (message : String) : Decidable (PlainMessage message) :=
  decidable_of_iff (message.toList.all fun c => decide (isUnescaped c = true ∨ c = '\n' ∨ c = '\r' ∨ c = '\t'))
    (by simp [PlainMessage])

instance (code : String) : Decidable (PlainCode code) :=
  decidable_of_iff (code.toList.all fun c => decide (isUnescaped c = true ∧ c ≠ '"' ∧ c ≠ '\\'))
    (by simp [PlainCode])

variable {rest : List Char} {fuel : Nat}

private theorem escapeChar_other {c : Char} (plain : isUnescaped c = true) (quote : c ≠ '"')
    (backslash : c ≠ '\\') : serdeJsonEscapeChar c = [c] := by
  unfold serdeJsonEscapeChar
  split
  · exact absurd rfl quote
  · exact absurd rfl backslash
  · cases plain
  · cases plain
  · cases plain
  · rfl

/-- One character of a string is read back from its escape. -/
private theorem string_escapeChar {c : Char}
    (plain : isUnescaped c = true ∨ c = '\n' ∨ c = '\r' ∨ c = '\t') (s : List Char) :
    string (fuel + 1) (serdeJsonEscapeChar c ++ s) =
      (string fuel s).bind fun (text, s) => some (c :: text, s) := by
  rcases plain with plain | rfl | rfl | rfl
  · by_cases quote : c = '"'
    · rw [quote]
      rfl
    by_cases backslash : c = '\\'
    · rw [backslash]
      rfl
    rw [escapeChar_other plain quote backslash, List.singleton_append]
    simp only [string, if_neg quote, if_neg backslash, if_pos plain]
    rfl
  · rfl
  · rfl
  · rfl

private theorem string_escaped {text : List Char}
    (plain : ∀ c ∈ text, isUnescaped c = true ∨ c = '\n' ∨ c = '\r' ∨ c = '\t')
    (enough : text.length < fuel) :
    string fuel (text.flatMap serdeJsonEscapeChar ++ '"' :: rest) = some (text, rest) := by
  induction text generalizing fuel with
  | nil =>
    cases fuel with
    | zero => cases enough
    | succ fuel => rfl
  | cons c text ih =>
    cases fuel with
    | zero => cases enough
    | succ fuel =>
      have more := ih (fun d member => plain d (List.mem_cons_of_mem c member))
        (Nat.lt_of_succ_lt_succ enough)
      rw [List.flatMap_cons, List.append_assoc, string_escapeChar (plain c List.mem_cons_self), more]
      rfl

private theorem length_le_escaped (text : List Char) :
    text.length ≤ (text.flatMap serdeJsonEscapeChar).length := by
  induction text with
  | nil => exact Nat.le_refl _
  | cons c text ih =>
    have one : 1 ≤ (serdeJsonEscapeChar c).length := by
      unfold serdeJsonEscapeChar
      split <;> simp
    rw [List.flatMap_cons, List.length_append, List.length_cons]
    omega

/-- A text in quotes is read back where it was escaped. -/
private theorem value_escaped {text : List Char}
    (plain : ∀ c ∈ text, isUnescaped c = true ∨ c = '\n' ∨ c = '\r' ∨ c = '\t') :
    value (fuel + 1) ('"' :: (text.flatMap serdeJsonEscapeChar ++ '"' :: rest)) =
      some (.string text, rest) := by
  have shorter := length_le_escaped text
  have read : string ((text.flatMap serdeJsonEscapeChar ++ '"' :: rest).length + 1)
      (text.flatMap serdeJsonEscapeChar ++ '"' :: rest) = some (text, rest) :=
    string_escaped plain (by rw [List.length_append]; omega)
  rw [JsonText.value_string, read]
  rfl

private theorem escaped_plain {text : List Char}
    (plain : ∀ c ∈ text, isUnescaped c = true ∧ c ≠ '"' ∧ c ≠ '\\') :
    text.flatMap serdeJsonEscapeChar = text := by
  induction text with
  | nil => rfl
  | cons c text ih =>
    obtain ⟨unescaped, quote, backslash⟩ := plain c List.mem_cons_self
    rw [List.flatMap_cons, escapeChar_other unescaped quote backslash,
      ih fun d member => plain d (List.mem_cons_of_mem c member)]
    rfl

/-- A text that needs no escapes is read back from quotes. -/
private theorem value_plain {text : List Char}
    (plain : ∀ c ∈ text, isUnescaped c = true ∧ c ≠ '"' ∧ c ≠ '\\') :
    value (fuel + 1) ('"' :: (text ++ '"' :: rest)) = some (.string text, rest) := by
  have read := @value_escaped rest fuel text fun c member => .inl (plain c member).1
  rw [escaped_plain plain] at read
  exact read

/-- A member with its key. -/
private theorem member_plain {key value' : List Char} {v : Value} {read : JsonText.Reader Value}
    (plain : ∀ c ∈ key, isUnescaped c = true ∧ c ≠ '"' ∧ c ≠ '\\')
    (starts : skipBlanks value' = value') (valued : read value' = some (v, rest)) :
    member read ('"' :: (key ++ '"' :: ':' :: value')) = some ((key, v), rest) := by
  have named := @string_escaped (':' :: value') ((key ++ '"' :: ':' :: value').length + 1) key
    (fun c member => .inl (plain c member).1) (by rw [List.length_append]; omega)
  rw [escaped_plain plain] at named
  have colon : skipBlanks (':' :: value') = ':' :: value' := rfl
  simp only [member, if_pos]
  rw [named]
  simp only [Option.bind_eq_bind, Option.bind_some, colon, if_pos, starts, valued]

theorem tag_plain (severity : Severity) : PlainCode severity.tag := by
  cases severity <;> decide

private theorem skipBlanks_quote (s : List Char) : skipBlanks ('"' :: s) = '"' :: s := rfl

private theorem renderJson_toList (f : Finding) (rest : List Char) :
    f.renderJson.toList ++ rest = ' ' :: ' ' :: '\x7b' ::
      '"' :: ("severity".toList ++ '"' :: ':' :: '"' :: (f.severity.tag.toList ++ '"' :: ',' ::
      '"' :: ("code".toList ++ '"' :: ':' :: '"' :: (f.code.toList ++ '"' :: ',' ::
      '"' :: ("message".toList ++ '"' :: ':' ::
        '"' :: (f.message.toList.flatMap serdeJsonEscapeChar ++ '"' :: '\x7d' :: '\n' :: rest)))))) := by
  unfold Finding.renderJson serdeJsonEscape
  simp

/-- The last item, with blanks around it. -/
private theorem items_close {α : Type} {item : JsonText.Reader α} {close : Char} {s s' tail : List Char}
    {a : α} (starts : skipBlanks s = s') (read : item s' = some (a, tail)) {behind : List Char}
    (ends : skipBlanks tail = close :: behind) :
    items item close (fuel + 1) s = some ([a], behind) := by
  rw [items, starts, read]
  simp only [Option.bind_eq_bind, Option.bind_some, ends, if_pos]

/-- An item with a comma behind it. -/
private theorem items_comma {α : Type} {item : JsonText.Reader α} {close : Char}
    {s s' tail behind : List Char} {a : α} (starts : skipBlanks s = s')
    (read : item s' = some (a, tail)) (comma : skipBlanks tail = ',' :: behind)
    (other : close ≠ ',') :
    items item close (fuel + 1) s =
      (items item close fuel behind).map fun (others, s) => (a :: others, s) := by
  rw [items, starts, read]
  simp only [Option.bind_eq_bind, Option.bind_some, comma, if_neg other.symm, if_pos]
  cases items item close fuel behind with
  | none => rfl
  | some pair => rfl

private theorem items_newline {α : Type} {item : JsonText.Reader α} {close : Char} (s : List Char) :
    items item close fuel ('\n' :: s) = items item close fuel s := by
  cases fuel with
  | zero => rfl
  | succ fuel =>
    rw [items, items]
    rfl

/-- A finding is read back, with the line end behind it left. -/
private theorem value_finding {f : Finding} (code : PlainCode f.code)
    (message : PlainMessage f.message) :
    value (fuel + 5) (skipBlanks (f.renderJson.toList ++ rest)) = some (f.asJson, '\n' :: rest) := by
  rw [renderJson_toList]
  have severity (s : List Char) : member (value (fuel + 4))
      ('"' :: ("severity".toList ++ '"' :: ':' :: '"' :: (f.severity.tag.toList ++ '"' :: s))) =
        some (("severity".toList, .string f.severity.tag.toList), s) :=
    member_plain (show PlainCode "severity" by decide) rfl (value_plain (tag_plain f.severity))
  have coded (s : List Char) : member (value (fuel + 4))
      ('"' :: ("code".toList ++ '"' :: ':' :: '"' :: (f.code.toList ++ '"' :: s))) =
        some (("code".toList, .string f.code.toList), s) :=
    member_plain (show PlainCode "code" by decide) rfl (value_plain code)
  have worded (s : List Char) : member (value (fuel + 4))
      ('"' :: ("message".toList ++ '"' :: ':' ::
        '"' :: (f.message.toList.flatMap serdeJsonEscapeChar ++ '"' :: s))) =
        some (("message".toList, .string f.message.toList), s) :=
    member_plain (show PlainCode "message" by decide) rfl (value_escaped message)
  have members : ∀ s, enclosed (member (value (fuel + 4))) '\x7d' (fuel + 4)
      ('"' :: ("severity".toList ++ '"' :: ':' :: '"' :: (f.severity.tag.toList ++ '"' :: ',' ::
      '"' :: ("code".toList ++ '"' :: ':' :: '"' :: (f.code.toList ++ '"' :: ',' ::
      '"' :: ("message".toList ++ '"' :: ':' ::
        '"' :: (f.message.toList.flatMap serdeJsonEscapeChar ++ '"' :: '\x7d' :: s))))))) =
      some ([("severity".toList, .string f.severity.tag.toList),
        ("code".toList, .string f.code.toList), ("message".toList, .string f.message.toList)], s) := by
    intro s
    unfold enclosed
    rw [skipBlanks_quote]
    simp only [if_neg (show ¬ '"' = '\x7d' by decide)]
    rw [items_comma (skipBlanks_quote _) (severity _) rfl (by decide)]
    rw [items_comma (skipBlanks_quote _) (coded _) rfl (by decide)]
    rw [items_close (skipBlanks_quote _) (worded _) rfl]
    rfl
  show value (fuel + 4 + 1) ('\x7b' :: _) = _
  rw [JsonText.value_object, members]
  rfl

/-- The findings up to the bracket behind them are read back. -/
private theorem items_findings {r : Report} (some_ : r ≠ [])
    (codes : ∀ f ∈ r, PlainCode f.code) (messages : ∀ f ∈ r, PlainMessage f.message)
    {budget : Nat} (enough : r.length ≤ budget) :
    items (value (fuel + 5)) ']' budget ((renderFindings r).toList ++ ']' :: rest) =
      some (r.map Finding.asJson, rest) := by
  induction r generalizing budget with
  | nil => exact absurd rfl some_
  | cons f more ih =>
    obtain ⟨budget, rfl⟩ : ∃ less, budget = less + 1 := ⟨budget - 1, by simp at enough; omega⟩
    have first (s : List Char) := @value_finding s fuel f (codes f List.mem_cons_self)
      (messages f List.mem_cons_self)
    cases more with
    | nil =>
      have text : (renderFindings [f]).toList ++ ']' :: rest =
          f.renderJson.toList ++ '\n' :: ']' :: rest := by
        simp [renderFindings]
      rw [text, items_close rfl (first _) rfl]
      rfl
    | cons g others =>
      have text : (renderFindings (f :: g :: others)).toList ++ ']' :: rest =
          f.renderJson.toList ++ ',' :: '\n' ::
            ((renderFindings (g :: others)).toList ++ ']' :: rest) := by
        simp [renderFindings]
      have later := ih (by simp) (fun h member => codes h (List.mem_cons_of_mem f member))
        (fun h member => messages h (List.mem_cons_of_mem f member))
        (Nat.le_of_succ_le_succ enough)
      rw [text, items_comma rfl (first _) rfl (by decide), items_newline, later]
      rfl

private theorem skipBlanks_idem (s : List Char) : skipBlanks (skipBlanks s) = skipBlanks s := by
  unfold skipBlanks
  exact List.dropWhile_idempotent isBlank s

private theorem items_skip {α : Type} {item : JsonText.Reader α} {close : Char} (s : List Char) :
    items item close fuel (skipBlanks s) = items item close fuel s := by
  cases fuel with
  | zero => rfl
  | succ fuel => rw [items, items, skipBlanks_idem]

private theorem length_le_render (r : Report) : r.length ≤ (renderFindings r).toList.length := by
  induction r with
  | nil => exact Nat.le_refl _
  | cons f rest ih =>
    rw [renderFindings]
    simp only [String.toList_append, List.length_append, List.length_cons]
    have newline : ("\n" : String).toList.length = 1 := rfl
    omega

/-- The text of the findings begins with the bracket of the first. -/
private theorem skip_render {f : Finding} {more : Report} :
    ∃ tail, skipBlanks ('\n' :: ((renderFindings (f :: more)).toList ++ rest)) = '\x7b' :: tail := by
  rw [renderFindings, String.toList_append, String.toList_append, String.toList_append,
    List.append_assoc, List.append_assoc, List.append_assoc, renderJson_toList]
  exact ⟨_, rfl⟩

private theorem parse_render {r : Report} (codes : ∀ f ∈ r, PlainCode f.code)
    (messages : ∀ f ∈ r, PlainMessage f.message) : parse r.renderJson = some r.asJson := by
  have text : r.renderJson.toList = '[' :: '\n' :: ((renderFindings r).toList ++ [']', '\n']) := by
    simp [Report.renderJson]
  unfold parse
  rw [text]
  cases r with
  | nil => rfl
  | cons f more =>
    have shorter := length_le_render (f :: more)
    obtain ⟨fuel, same⟩ : ∃ fuel,
        ('[' :: '\n' :: ((renderFindings (f :: more)).toList ++ [']', '\n'])).length = fuel + 5 := by
      refine ⟨_ - 5, (Nat.sub_add_cancel ?_).symm⟩
      simp only [List.length_cons, List.length_append] at shorter ⊢
      omega
    have enough : (f :: more).length ≤ fuel + 5 := by
      rw [← same]
      simp only [List.length_cons, List.length_append] at shorter ⊢
      omega
    have read := @items_findings ['\n'] fuel (f :: more) (List.cons_ne_nil f more) codes messages _
      enough
    obtain ⟨tail, begins⟩ := @skip_render [']', '\n'] f more
    have inside : enclosed (value (fuel + 5)) ']' (fuel + 5)
        ('\n' :: ((renderFindings (f :: more)).toList ++ [']', '\n'])) =
          some ((f :: more).map Finding.asJson, ['\n']) := by
      unfold enclosed
      rw [begins]
      simp only [if_neg (show ¬ '\x7b' = ']' by decide)]
      rw [← begins, items_skip, items_newline]
      exact read
    have whole : value (fuel + 5 + 1)
        ('[' :: '\n' :: ((renderFindings (f :: more)).toList ++ [']', '\n'])) =
          some (Report.asJson (f :: more), ['\n']) := by
      rw [JsonText.value_array, inside]
      rfl
    have bracket (s : List Char) : skipBlanks ('[' :: s) = '[' :: s := rfl
    rw [same, bracket, whole]
    rfl

private theorem mem_escaped {c : Char} {text : List Char} (member : c ∈ text)
    (other : ¬ (isUnescaped c = true ∨ c = '\n' ∨ c = '\r' ∨ c = '\t')) :
    c ∈ text.flatMap serdeJsonEscapeChar := by
  have same : serdeJsonEscapeChar c = [c] := by
    unfold serdeJsonEscapeChar
    split
    · exact absurd (.inl rfl) other
    · exact absurd (.inl rfl) other
    · exact absurd (.inr (.inl rfl)) other
    · exact absurd (.inr (.inr (.inl rfl))) other
    · exact absurd (.inr (.inr (.inr rfl))) other
    · rfl
  exact List.mem_flatMap.mpr ⟨c, member, by rw [same]; exact List.mem_singleton_self c⟩

/-- Each character of an escaped message stands in the document. -/
private theorem mem_render {c : Char} {r : Report} {f : Finding} (inside : f ∈ r)
    (member : c ∈ f.message.toList.flatMap serdeJsonEscapeChar) : c ∈ r.renderJson.toList := by
  have found : c ∈ (renderFindings r).toList := by
    induction r with
    | nil => cases inside
    | cons g rest ih =>
      rw [renderFindings]
      simp only [String.toList_append, List.mem_append]
      rcases List.mem_cons.mp inside with rfl | later
      · refine .inl (.inl (.inl ?_))
        unfold Finding.renderJson serdeJsonEscape
        simp only [String.toList_append, List.mem_append, String.toList_ofList]
        exact .inl (.inr (.inl (.inr member)))
      · exact .inr (ih later)
  unfold Report.renderJson
  simp only [String.toList_append, List.mem_append]
  exact .inl (.inr found)

/-- A document can be read only from messages without control characters that are not escaped. -/
private theorem plain_of_parse {r : Report} {v : Value} (read : parse r.renderJson = some v) :
    ∀ f ∈ r, PlainMessage f.message := by
  intro f inside c member
  refine Classical.byContradiction fun other => ?_
  rcases JsonText.legible_of_parse read c (mem_render inside (mem_escaped member other)) with
    blank | plain
  · simp only [isBlank, Bool.or_eq_true, decide_eq_true_eq] at blank
    rcases blank with ((rfl | rfl) | rfl) | rfl
    · exact other (.inl rfl)
    · exact other (.inr (.inr (.inr rfl)))
    · exact other (.inr (.inl rfl))
    · exact other (.inr (.inr (.inl rfl)))
  · exact other (.inl plain)

/-- With codes that stand in quotes as they are, a report is read back from its document if and only
if no message has a control character other than a line end, a carriage return or a tab. -/
theorem renderJson_parses_iff (r : Report) (codes : ∀ f ∈ r, PlainCode f.code) :
    parse r.renderJson = some r.asJson ↔ ∀ f ∈ r, PlainMessage f.message :=
  ⟨plain_of_parse, parse_render codes⟩

/-- A default with a quote, a backslash and a line end is read back. -/
theorem renderJson_parses_quoted :
    parse (Report.renderJson [⟨.warning, "DEFAULT_VALUE_CHANGED", "\"\\\n"⟩]) =
      some (Report.asJson [⟨.warning, "DEFAULT_VALUE_CHANGED", "\"\\\n"⟩]) :=
  (renderJson_parses_iff [⟨.warning, "DEFAULT_VALUE_CHANGED", "\"\\\n"⟩]
    (List.forall_mem_singleton.mpr (by decide))).mpr (List.forall_mem_singleton.mpr (by decide))

/-- The comparison of two defaults, one of them the character 1, is no document. -/
theorem renderJson_control :
    checkFieldCompat "M" { name := some "f", defaultValue := some "a" }
        { name := some "f", defaultValue := some "\x01" } =
      [⟨.warning, "DEFAULT_VALUE_CHANGED",
        "message `M`: field `f` default changed from a to \x01"⟩] ∧
    ∀ v, parse (Report.renderJson [⟨.warning, "DEFAULT_VALUE_CHANGED",
      "message `M`: field `f` default changed from a to \x01"⟩]) ≠ some v := by
  refine ⟨by decide, fun v read => ?_⟩
  have plain := plain_of_parse read _ (List.mem_singleton_self _) '\x01' (by decide)
  revert plain
  decide

end Reading

end TptProto.Lint
