import TptProto.Foundation.Decimal

/-! The grammar of JSON documents, as a reader from the characters of a text. Numbers keep their
spelling. Each reader gives what it read and the characters behind. -/

namespace TptProto.Foundation.JsonText

inductive Value where
  | null
  | bool (value : Bool)
  | number (spelling : List Char)
  | string (text : List Char)
  | array (items : List Value)
  | object (members : List (List Char × Value))

abbrev Reader (α : Type) := List Char → Option (α × List Char)

section Readers

def isBlank (c : Char) : Bool := c = ' ' || c = '\t' || c = '\n' || c = '\r'

def skipBlanks (s : List Char) : List Char := s.dropWhile isBlank

/-- The characters that a string may hold as they are, but for the quote and the backslash. -/
def isUnescaped (c : Char) : Bool := 0x20 ≤ c.toNat

def hexUnit : Reader Nat
  | a :: b :: c :: d :: rest => (Hex.push? 0 [a, b, c, d]).map fun unit => (unit, rest)
  | _ => none

/-- A character by its number, which takes two units beyond the first plane. -/
def unicode (s : List Char) : Option (Char × List Char) := do
  let (high, rest) ← hexUnit s
  if 0xD800 ≤ high ∧ high < 0xDC00 then
    match rest with
    | '\\' :: 'u' :: rest =>
      let (low, rest) ← hexUnit rest
      if 0xDC00 ≤ low ∧ low < 0xE000 then
        some (Char.ofNat (0x10000 + (high - 0xD800) * 0x400 + (low - 0xDC00)), rest)
      else none
    | _ => none
  else if high.isValidChar then some (Char.ofNat high, rest)
  else none

/-- What may follow a backslash. -/
def escape : Reader Char
  | [] => none
  | c :: rest =>
    match c with
    | '"' => some ('"', rest)
    | '\\' => some ('\\', rest)
    | '/' => some ('/', rest)
    | 'b' => some ('\x08', rest)
    | 'f' => some ('\x0c', rest)
    | 'n' => some ('\n', rest)
    | 'r' => some ('\r', rest)
    | 't' => some ('\t', rest)
    | 'u' => unicode rest
    | _ => none

/-- A string behind its first quote. -/
def string : Nat → Reader (List Char)
  | 0, _ => none
  | _ + 1, [] => none
  | fuel + 1, c :: s =>
    if c = '"' then some ([], s)
    else if c = '\\' then do
      let (char, s) ← escape s
      let (text, s) ← string fuel s
      some (char :: text, s)
    else if isUnescaped c then do
      let (text, s) ← string fuel s
      some (c :: text, s)
    else none

def digits (s : List Char) : Option (List Char × List Char) :=
  match s.takeWhile Char.isDigit, s.dropWhile Char.isDigit with
  | [], _ => none
  | word, rest => some (word, rest)

def sign (allowed : List Char) : Reader (List Char)
  | [] => some ([], [])
  | c :: rest => if c ∈ allowed then some ([c], rest) else some ([], c :: rest)

/-- A whole number without a needless zero in front. -/
def whole : Reader (List Char)
  | [] => none
  | c :: rest => if c = '0' then some ([c], rest) else digits (c :: rest)

def fraction : Reader (List Char)
  | [] => some ([], [])
  | c :: rest => if c = '.' then (digits rest).map fun (word, rest) => (c :: word, rest)
    else some ([], c :: rest)

def exponent : Reader (List Char)
  | [] => some ([], [])
  | c :: rest =>
    if c = 'e' ∨ c = 'E' then do
      let (plusMinus, rest) ← sign ['+', '-'] rest
      let (word, rest) ← digits rest
      some (c :: (plusMinus ++ word), rest)
    else some ([], c :: rest)

def number (s : List Char) : Option (List Char × List Char) := do
  let (minus, s) ← sign ['-'] s
  let (whole, s) ← whole s
  let (fraction, s) ← fraction s
  let (exponent, s) ← exponent s
  some (minus ++ (whole ++ (fraction ++ exponent)), s)

def word (spelling s : List Char) : Option (Unit × List Char) :=
  if spelling.isPrefixOf s then some ((), s.drop spelling.length) else none

def atom (s : List Char) : Option (Value × List Char) :=
  ((word "null".toList s).map fun (_, s) => (.null, s)) <|>
  ((word "true".toList s).map fun (_, s) => (.bool true, s)) <|>
  ((word "false".toList s).map fun (_, s) => (.bool false, s)) <|>
  ((number s).map fun (spelling, s) => (.number spelling, s))

variable {α : Type}

/-- One item at least, with commas between them, to the closing character. -/
def items (item : Reader α) (close : Char) : Nat → Reader (List α)
  | 0, _ => none
  | fuel + 1, s => do
    let (first, s) ← item (skipBlanks s)
    match skipBlanks s with
    | [] => none
    | c :: s =>
      if c = close then some ([first], s)
      else if c = ',' then do
        let (others, s) ← items item close fuel s
        some (first :: others, s)
      else none

/-- What is between two brackets. -/
def enclosed (item : Reader α) (close : Char) (fuel : Nat) (s : List Char) :
    Option (List α × List Char) :=
  match skipBlanks s with
  | [] => none
  | c :: rest => if c = close then some ([], rest) else items item close fuel (c :: rest)

def member (value : Reader Value) : Reader (List Char × Value)
  | [] => none
  | c :: s =>
    if c = '"' then do
      let (key, s) ← string (s.length + 1) s
      match skipBlanks s with
      | [] => none
      | c :: s =>
        if c = ':' then do
          let (v, s) ← value (skipBlanks s)
          some ((key, v), s)
        else none
    else none

def value : Nat → Reader Value
  | 0, _ => none
  | _ + 1, [] => none
  | fuel + 1, c :: s =>
    match c with
    | '"' => (string (s.length + 1) s).map fun (text, s) => (.string text, s)
    | '[' => (enclosed (value fuel) ']' fuel s).map fun (items, s) => (.array items, s)
    | '\x7b' => (enclosed (member (value fuel)) '\x7d' fuel s).map fun (members, s) =>
      (.object members, s)
    | c => atom (c :: s)

theorem value_string (fuel : Nat) (s : List Char) : value (fuel + 1) ('"' :: s) =
    (string (s.length + 1) s).map fun (text, s) => (.string text, s) := rfl

theorem value_array (fuel : Nat) (s : List Char) : value (fuel + 1) ('[' :: s) =
    (enclosed (value fuel) ']' fuel s).map fun (items, s) => (.array items, s) := rfl

theorem value_object (fuel : Nat) (s : List Char) : value (fuel + 1) ('\x7b' :: s) =
    (enclosed (member (value fuel)) '\x7d' fuel s).map fun (members, s) => (.object members, s) :=
  rfl

/-- The value that a text is a document of. -/
def parse (text : String) : Option Value :=
  match value (text.toList.length + 1) (skipBlanks text.toList) with
  | some (v, rest) => if skipBlanks rest = [] then some v else none
  | none => none

end Readers

section Characters

/-- A document may hold the character: it is a blank or no control character. -/
def Legible (s : List Char) : Prop := ∀ c ∈ s, isBlank c = true ∨ isUnescaped c = true

/-- The reader passes over legible characters only. -/
def Takes {α : Type} (read : Reader α) : Prop :=
  ∀ s a rest, read s = some (a, rest) → ∃ word, s = word ++ rest ∧ Legible word

variable {α : Type}

private theorem Legible.append {first second : List Char} (before : Legible first)
    (behind : Legible second) : Legible (first ++ second) := by
  intro c member
  rcases List.mem_append.mp member with left | right
  · exact before c left
  · exact behind c right

private theorem legible_nil : Legible [] := by
  intro c member
  cases member

private theorem Legible.cons {c : Char} {s : List Char} (first : isUnescaped c = true)
    (behind : Legible s) : Legible (c :: s) := by
  intro d member
  rcases List.mem_cons.mp member with rfl | later
  · exact .inr first
  · exact behind d later

theorem unescaped_of_digit {c : Char} (digit : c.isDigit = true) : isUnescaped c = true := by
  simp only [Char.isDigit, Bool.and_eq_true, decide_eq_true_eq, ge_iff_le, UInt32.le_iff_toNat_le]
    at digit
  simp only [isUnescaped, decide_eq_true_eq]
  have low : 48 ≤ c.toNat := digit.1
  omega

private theorem unescaped_of_hex {c : Char} {d : Nat} (digit : Hex.digit? c = some d) :
    isUnescaped c = true := by
  unfold Hex.digit? at digit
  split at digit
  · exact unescaped_of_digit (by assumption)
  split at digit
  · rename_i letter
    have low : 97 ≤ c.toNat := letter.1
    simp only [isUnescaped, decide_eq_true_eq]
    omega
  split at digit
  · rename_i letter
    have low : 65 ≤ c.toNat := letter.1
    simp only [isUnescaped, decide_eq_true_eq]
    omega
  · cases digit

private theorem legible_of_push {high d : Nat} {s : List Char} (read : Hex.push? high s = some d) :
    Legible s := by
  induction s generalizing high with
  | nil => exact legible_nil
  | cons c rest ih =>
    obtain ⟨low, digit, more⟩ := Option.bind_eq_some_iff.mp read
    exact (ih more).cons (unescaped_of_hex digit)

private theorem skipBlanks_split (s : List Char) :
    ∃ word, s = word ++ skipBlanks s ∧ Legible word := by
  refine ⟨s.takeWhile isBlank, (List.takeWhile_append_dropWhile).symm, fun c member => ?_⟩
  exact .inl (List.all_eq_true.mp List.all_takeWhile c member)

/-- A reader behind blanks. -/
private theorem Takes.blanks {read : Reader α} (takes : Takes read) {s rest : List Char} {a : α}
    (found : read (skipBlanks s) = some (a, rest)) : ∃ word, s = word ++ rest ∧ Legible word := by
  obtain ⟨blanks, front, clean⟩ := skipBlanks_split s
  obtain ⟨word, split, clean'⟩ := takes _ _ _ found
  exact ⟨blanks ++ word, by rw [List.append_assoc, ← split]; exact front, clean.append clean'⟩

private theorem hexUnit_takes : Takes hexUnit := by
  intro s unit rest read
  unfold hexUnit at read
  split at read
  · rename_i a b c d tail
    obtain ⟨_, pushed, same⟩ := Option.map_eq_some_iff.mp read
    cases same
    exact ⟨[a, b, c, d], rfl, legible_of_push pushed⟩
  · cases read

private theorem unicode_takes : Takes unicode := by
  intro s char rest read
  obtain ⟨⟨high, middle⟩, first, paired⟩ := Option.bind_eq_some_iff.mp read
  obtain ⟨word, rfl, clean⟩ := hexUnit_takes _ _ _ first
  dsimp only at paired
  split at paired
  · split at paired
    · obtain ⟨⟨low, behind⟩, second, valued⟩ := Option.bind_eq_some_iff.mp paired
      obtain ⟨word', rfl, clean'⟩ := hexUnit_takes _ _ _ second
      dsimp only at valued
      split at valued
      · obtain rfl := (Prod.mk.inj (Option.some.inj valued)).2
        exact ⟨word ++ '\\' :: 'u' :: word', by simp,
          clean.append ((clean'.cons (by decide)).cons (by decide))⟩
      · cases valued
    · cases paired
  · split at paired
    · cases paired
      exact ⟨word, rfl, clean⟩
    · cases paired

private theorem escape_takes : Takes escape := by
  intro s char rest read
  cases s with
  | nil => cases read
  | cons c behind =>
    unfold escape at read
    dsimp only at read
    split at read
    case h_9 =>
      obtain ⟨word, rfl, clean⟩ := unicode_takes _ _ _ read
      exact ⟨'u' :: word, rfl, clean.cons (by decide)⟩
    case h_10 => cases read
    all_goals
      cases read
      exact ⟨[_], rfl, legible_nil.cons (by decide)⟩

private theorem string_takes (fuel : Nat) : Takes (string fuel) := by
  induction fuel with
  | zero =>
    intro s text rest read
    cases read
  | succ fuel ih =>
    intro s text rest read
    cases s with
    | nil => cases read
    | cons c behind =>
      unfold string at read
      split at read
      · rename_i quote
        cases read
        exact ⟨[c], rfl, legible_nil.cons (by rw [quote]; decide)⟩
      split at read
      · rename_i backslash
        obtain ⟨⟨char, middle⟩, escaped, read⟩ := Option.bind_eq_some_iff.mp read
        obtain ⟨⟨others, last⟩, more, same⟩ := Option.bind_eq_some_iff.mp read
        cases same
        obtain ⟨word, rfl, clean⟩ := escape_takes _ _ _ escaped
        obtain ⟨word', rfl, clean'⟩ := ih _ _ _ more
        exact ⟨c :: (word ++ word'), by simp,
          (clean.append clean').cons (by rw [backslash]; decide)⟩
      split at read
      · rename_i plain
        obtain ⟨⟨others, last⟩, more, same⟩ := Option.bind_eq_some_iff.mp read
        cases same
        obtain ⟨word, rfl, clean⟩ := ih _ _ _ more
        exact ⟨c :: word, rfl, clean.cons plain⟩
      · cases read

private theorem digits_takes : Takes digits := by
  intro s word rest read
  have split : s.takeWhile Char.isDigit ++ s.dropWhile Char.isDigit = s :=
    List.takeWhile_append_dropWhile
  have clean : Legible (s.takeWhile Char.isDigit) := by
    intro c member
    exact .inr (unescaped_of_digit (List.all_eq_true.mp List.all_takeWhile c member))
  unfold digits at read
  split at read
  · cases read
  · cases read
    exact ⟨_, split.symm, clean⟩

private theorem sign_takes {allowed : List Char} (plain : ∀ c ∈ allowed, isUnescaped c = true) :
    Takes (sign allowed) := by
  intro s word rest read
  cases s with
  | nil =>
    cases read
    exact ⟨[], rfl, legible_nil⟩
  | cons c behind =>
    simp only [sign] at read
    split at read
    · rename_i member
      cases read
      exact ⟨[c], rfl, legible_nil.cons (plain c member)⟩
    · cases read
      exact ⟨[], rfl, legible_nil⟩

private theorem whole_takes : Takes whole := by
  intro s word rest read
  cases s with
  | nil => cases read
  | cons c behind =>
    simp only [whole] at read
    split at read
    · rename_i zero
      cases read
      exact ⟨[c], rfl, legible_nil.cons (by rw [zero]; decide)⟩
    · exact digits_takes _ _ _ read

private theorem fraction_takes : Takes fraction := by
  intro s word rest read
  cases s with
  | nil =>
    cases read
    exact ⟨[], rfl, legible_nil⟩
  | cons c behind =>
    simp only [fraction] at read
    split at read
    · rename_i point
      obtain ⟨⟨digits, last⟩, found, same⟩ := Option.map_eq_some_iff.mp read
      cases same
      obtain ⟨word, rfl, clean⟩ := digits_takes _ _ _ found
      exact ⟨c :: word, rfl, clean.cons (by rw [point]; decide)⟩
    · cases read
      exact ⟨[], rfl, legible_nil⟩

private theorem exponent_takes : Takes exponent := by
  intro s word rest read
  cases s with
  | nil =>
    cases read
    exact ⟨[], rfl, legible_nil⟩
  | cons c behind =>
    simp only [exponent] at read
    split at read
    · rename_i letter
      obtain ⟨⟨plusMinus, middle⟩, signed, read⟩ := Option.bind_eq_some_iff.mp read
      obtain ⟨⟨digits, last⟩, found, same⟩ := Option.bind_eq_some_iff.mp read
      cases same
      obtain ⟨word, rfl, clean⟩ := sign_takes (List.all_eq_true.mp (by decide)) _ _ _ signed
      obtain ⟨word', rfl, clean'⟩ := digits_takes _ _ _ found
      refine ⟨c :: (word ++ word'), by simp, (clean.append clean').cons ?_⟩
      rcases letter with rfl | rfl
      · decide
      · decide
    · cases read
      exact ⟨[], rfl, legible_nil⟩

private theorem number_takes : Takes number := by
  intro s word rest read
  obtain ⟨⟨_, s₁⟩, first, read⟩ := Option.bind_eq_some_iff.mp read
  obtain ⟨⟨_, s₂⟩, second, read⟩ := Option.bind_eq_some_iff.mp read
  obtain ⟨⟨_, s₃⟩, third, read⟩ := Option.bind_eq_some_iff.mp read
  obtain ⟨⟨_, s₄⟩, fourth, same⟩ := Option.bind_eq_some_iff.mp read
  cases same
  obtain ⟨word₁, rfl, clean₁⟩ := sign_takes (List.all_eq_true.mp (by decide)) _ _ _ first
  obtain ⟨word₂, rfl, clean₂⟩ := whole_takes _ _ _ second
  obtain ⟨word₃, rfl, clean₃⟩ := fraction_takes _ _ _ third
  obtain ⟨word₄, rfl, clean₄⟩ := exponent_takes _ _ _ fourth
  exact ⟨word₁ ++ (word₂ ++ (word₃ ++ word₄)), by simp,
    clean₁.append (clean₂.append (clean₃.append clean₄))⟩

private theorem word_takes {spelling : List Char} (clean : Legible spelling) :
    Takes (word spelling) := by
  intro s a rest read
  unfold word at read
  split at read
  · rename_i starts
    cases read
    refine ⟨spelling, ?_, clean⟩
    exact (List.prefix_iff_eq_append.mp (List.isPrefixOf_iff_prefix.mp starts)).symm
  · cases read

private theorem legible_of_letters {s : List Char} (letters : s.all isUnescaped = true) :
    Legible s :=
  fun c member => .inr (List.all_eq_true.mp letters c member)

/-- A reader takes what it takes, whatever is made of the value. -/
private theorem Takes.map {β : Type} {read : Reader α} (takes : Takes read) (f : α → β) :
    Takes fun s => (read s).map fun (a, s) => (f a, s) := by
  intro s b rest found
  obtain ⟨⟨a, last⟩, read, same⟩ := Option.map_eq_some_iff.mp found
  cases same
  exact takes _ _ _ read

private theorem Takes.orElse {first second : Reader α} (left : Takes first)
    (right : Takes second) : Takes fun s => first s <|> second s := by
  intro s a rest found
  dsimp only at found
  cases read : first s with
  | none =>
    rw [read] at found
    exact right _ _ _ found
  | some pair =>
    rw [read] at found
    cases found
    exact left _ _ _ read

private theorem atom_takes : Takes atom :=
  ((word_takes (legible_of_letters (by decide))).map fun _ => Value.null).orElse
    (((word_takes (legible_of_letters (by decide))).map fun _ => Value.bool true).orElse
      (((word_takes (legible_of_letters (by decide))).map fun _ => Value.bool false).orElse
        (number_takes.map Value.number)))

private theorem items_takes {item : Reader α} {close : Char} (takes : Takes item)
    (plain : isUnescaped close = true) (fuel : Nat) : Takes (items item close fuel) := by
  induction fuel with
  | zero =>
    intro s others rest read
    cases read
  | succ fuel ih =>
    intro s others rest read
    obtain ⟨⟨first, middle⟩, found, following⟩ := Option.bind_eq_some_iff.mp read
    obtain ⟨word, rfl, clean⟩ := takes.blanks found
    obtain ⟨blanks, split, clean'⟩ := skipBlanks_split middle
    dsimp only at following
    split at following
    · cases following
    · rename_i c behind begins
      rw [begins] at split
      split at following
      · rename_i closes
        cases following
        refine ⟨word ++ (blanks ++ [c]), by simp [split], clean.append (clean'.append ?_)⟩
        exact legible_nil.cons (by rw [closes]; exact plain)
      split at following
      · rename_i comma
        obtain ⟨⟨more, last⟩, again, same⟩ := Option.bind_eq_some_iff.mp following
        cases same
        obtain ⟨word', rfl, clean''⟩ := ih _ _ _ again
        refine ⟨word ++ (blanks ++ c :: word'), by simp [split], clean.append (clean'.append ?_)⟩
        exact clean''.cons (by rw [comma]; decide)
      · cases following

private theorem enclosed_takes {item : Reader α} {close : Char} (takes : Takes item)
    (plain : isUnescaped close = true) (fuel : Nat) : Takes (enclosed item close fuel) := by
  intro s found rest read
  obtain ⟨blanks, split, clean⟩ := skipBlanks_split s
  unfold enclosed at read
  split at read
  · cases read
  · rename_i c behind begins
    rw [begins] at split
    split at read
    · rename_i closes
      cases read
      refine ⟨blanks ++ [c], by simp [split], clean.append ?_⟩
      exact legible_nil.cons (by rw [closes]; exact plain)
    · obtain ⟨word, same, clean'⟩ := items_takes takes plain fuel _ _ _ read
      exact ⟨blanks ++ word, by rw [List.append_assoc, ← same]; exact split, clean.append clean'⟩

private theorem member_takes {value : Reader Value} (takes : Takes value) :
    Takes (member value) := by
  intro s found rest read
  cases s with
  | nil => cases read
  | cons c behind =>
    simp only [member] at read
    split at read
    · rename_i quote
      obtain ⟨⟨key, middle⟩, named, following⟩ := Option.bind_eq_some_iff.mp read
      obtain ⟨word, rfl, clean⟩ := string_takes _ _ _ _ named
      obtain ⟨blanks, split, clean'⟩ := skipBlanks_split middle
      dsimp only at following
      split at following
      · cases following
      · rename_i d more begins
        rw [begins] at split
        split at following
        · rename_i colon
          obtain ⟨⟨v, last⟩, valued, same⟩ := Option.bind_eq_some_iff.mp following
          cases same
          obtain ⟨word', rfl, clean''⟩ := takes.blanks valued
          refine ⟨c :: (word ++ (blanks ++ d :: word')), by simp [split], Legible.cons ?_ ?_⟩
          · rw [quote]
            decide
          · exact clean.append (clean'.append (clean''.cons (by rw [colon]; decide)))
        · cases following
    · cases read

private theorem value_takes (fuel : Nat) : Takes (value fuel) := by
  induction fuel with
  | zero =>
    intro s v rest read
    cases read
  | succ fuel ih =>
    intro s v rest read
    cases s with
    | nil => cases read
    | cons c behind =>
      unfold value at read
      dsimp only at read
      split at read
      · obtain ⟨word, rfl, clean⟩ := (string_takes (behind.length + 1)).map Value.string _ _ _ read
        exact ⟨'"' :: word, rfl, clean.cons (by decide)⟩
      · obtain ⟨word, rfl, clean⟩ := (enclosed_takes ih (by decide) fuel).map Value.array _ _ _ read
        exact ⟨'[' :: word, rfl, clean.cons (by decide)⟩
      · obtain ⟨word, rfl, clean⟩ :=
          (enclosed_takes (member_takes ih) (by decide) fuel).map Value.object _ _ _ read
        exact ⟨'\x7b' :: word, rfl, clean.cons (by decide)⟩
      · exact atom_takes _ _ _ read

/-- A document holds no control character but blanks. -/
theorem legible_of_parse {text : String} {v : Value} (read : parse text = some v) :
    Legible text.toList := by
  unfold parse at read
  split at read
  · rename_i found
    obtain ⟨word, split, clean⟩ := (value_takes _).blanks found
    split at read
    · rename_i ended
      rename_i rest
      obtain ⟨blanks, same, clean'⟩ := skipBlanks_split rest
      rw [ended, List.append_nil] at same
      rw [split, same]
      exact clean.append clean'
    · cases read
  · cases read

end Characters

end TptProto.Foundation.JsonText
