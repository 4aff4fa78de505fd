import TptProto.Language.Literals

/-! What the lexer makes of strings. It takes each byte for a character, and each escape for one. -/

namespace TptProto.Language

open TptProto.Foundation TptProto.Core

section Pieces

/-- The characters the lexer makes of a piece, if it does not reject it. -/
def StrPiece.lexed : StrPiece → Option (List Char)
  | char c => some ((encode [c]).map byteChar)
  | letter c => if c = '?' then none else (simpleEscape? c).map fun c => [c]
  | octal digits =>
    match digits with
    | '0' :: more => some ('\x00' :: more)
    | _ => none
  | hex upper digits =>
    if upper = false ∧ digits.length = 2 then some [Char.ofNat (ofDigits 16 digits)] else none
  | unicode _ digits => some [Char.ofNat (ofDigits 16 digits)]
  | surrogates _ _ => none

/-- A character or escape whose denotation the lexer keeps: ASCII text, the letters but for the
question mark, a lone zero, two digits behind a small `x` for a value below 128, and `u` and `U`. -/
def StrPiece.Exact : StrPiece → Prop
  | char c => c.toNat < 128
  | letter c => c ≠ '?'
  | octal digits => digits = ['0']
  | hex upper digits => upper = false ∧ digits.length = 2 ∧ ofDigits 16 digits < 128
  | unicode _ _ => True
  | surrogates _ _ => False

instance (p : StrPiece) : Decidable p.Exact := by
  cases p <;> unfold StrPiece.Exact <;> infer_instance

end Pieces

section Lexing

variable {quote c : Char} {start : Position} {s final : StrScan} {digits : List Char}
variable {more : List UInt8}

/-- The scan of a string gets from one state to another that it is left in. -/
private def Scans (quote : Char) (start : Position) (s final : StrScan) : Prop :=
  Finishes (fun s => !s.closed) (strStep (ascii quote) start) s final

private theorem scans_step {next : StrScan} (isOpen : s.closed = false)
    (moved : strStep (ascii quote) start s = .ok next) :
    Scans quote start s final ↔ Scans quote start next final :=
  finishes_step (by simp [isOpen]) moved

/-- The scan with more characters read, and less ahead. -/
private def StrScan.read (s : StrScan) (chars : List Char) (used more : List UInt8) : StrScan :=
  { s with out := s.out ++ chars, cursor := ⟨s.cursor.pos.after used, more⟩ }

private def StrScan.close (s : StrScan) : StrScan := { s with closed := true }

/-- Bytes other than quotes and backslashes are taken one by one. -/
private theorem scans_bytes {bytes : List UInt8} (isOpen : s.closed = false)
    (plain : ∀ b ∈ bytes, b ≠ ascii quote ∧ b ≠ ascii '\\') (ahead : s.cursor.rest = bytes ++ more) :
    Scans quote start s final ↔ Scans quote start (s.read (bytes.map byteChar) bytes more) final := by
  induction bytes generalizing s with
  | nil =>
    have same : s.read [] [] more = s := by
      unfold StrScan.read
      rw [List.append_nil, Position.after_nil, ← List.nil_append more, ← ahead]
    rw [List.map_nil, same]
  | cons b rest ih =>
    obtain ⟨noQuote, noBackslash⟩ := plain b List.mem_cons_self
    have moved : strStep (ascii quote) start s = .ok (s.read [byteChar b] [b] (rest ++ more)) := by
      unfold strStep Cursor.bump
      rw [ahead]
      simp only [List.cons_append, if_neg noQuote, if_neg noBackslash]
      rfl
    have later := ih (s := s.read [byteChar b] [b] (rest ++ more)) isOpen
      (fun d member => plain d (List.mem_cons_of_mem b member)) rfl
    rw [scans_step isOpen moved, later]
    unfold StrScan.read
    simp only [List.append_assoc, List.map_cons, List.singleton_append]
    rfl

/-- A scan at a backslash goes on behind what the escape stands for. -/
private theorem scans_escape {esc : Char} {char : Char} {used : List UInt8} (isOpen : s.closed = false)
    (noQuote : quote ≠ '\\') (small : quote.toNat < 128)
    (ahead : s.cursor.rest = ascii '\\' :: ascii esc :: (used ++ more))
    (escaped : unescape start (ascii esc)
      ⟨(s.cursor.pos.bump (ascii '\\')).bump (ascii esc), used ++ more⟩ =
        .ok (char, ⟨((s.cursor.pos.bump (ascii '\\')).bump (ascii esc)).after used, more⟩)) :
    Scans quote start s final ↔
      Scans quote start (s.read [char] (ascii '\\' :: ascii esc :: used) more) final := by
  have other : ascii '\\' ≠ ascii quote := fun same =>
    noQuote (ascii_inj (by decide) small same).symm
  refine scans_step isOpen ?_
  unfold strStep Cursor.bump
  rw [ahead]
  simp only [if_neg other, if_true, escaped]
  rfl

/-- A scan at an escape that is rejected does not finish. -/
private theorem not_scans_escape {esc : UInt8} {ahead : List UInt8} (isOpen : s.closed = false)
    (noQuote : quote ≠ '\\') (small : quote.toNat < 128)
    (here : s.cursor.rest = ascii '\\' :: esc :: ahead)
    (rejected : ∀ char after, unescape start esc
      ⟨(s.cursor.pos.bump (ascii '\\')).bump esc, ahead⟩ ≠ .ok (char, after)) :
    ¬ Scans quote start s final := by
  have other : ascii '\\' ≠ ascii quote := fun same =>
    noQuote (ascii_inj (by decide) small same).symm
  refine not_finishes (by simp [isOpen]) fun next moved => ?_
  unfold strStep Cursor.bump at moved
  rw [here] at moved
  simp only [if_neg other, if_true] at moved
  obtain ⟨⟨char, after⟩, escaped, _⟩ := Outcome.bind_eq_ok.mp moved
  exact rejected char after escaped

private theorem scans_quote (isOpen : s.closed = false) (ahead : s.cursor.rest = ascii quote :: more) :
    Scans quote start s final ↔
      final = { s with cursor := ⟨s.cursor.pos.bump (ascii quote), more⟩, closed := true } := by
  have moved : strStep (ascii quote) start s =
      .ok { s with cursor := ⟨s.cursor.pos.bump (ascii quote), more⟩, closed := true } := by
    unfold strStep Cursor.bump
    rw [ahead]
    simp only [if_true]
  rw [scans_step isOpen moved]
  exact finishes_done rfl

/-- Hexadecimal digits are read one by one. -/
private theorem readHex_digits {pos : Position} {n : Nat} (all : digits.all isHexDigit = true) :
    readHex start digits.length n ⟨pos, digits.map ascii ++ more⟩ =
      .ok (digits.foldl (fun n c => 16 * n + digitValue c) n,
        ⟨pos.after (digits.map ascii), more⟩) := by
  induction digits generalizing n pos with
  | nil => rfl
  | cons d rest ih =>
    rw [List.all_cons, Bool.and_eq_true] at all
    obtain ⟨v, digit⟩ := Option.isSome_iff_exists.mp all.1
    rw [List.length_cons, readHex]
    simp only [Cursor.bump, List.map_cons, List.cons_append,
      byteChar_ascii (small_of_isHexDigit all.1), digit]
    rw [ih all.2, List.foldl_cons, digitValue, digit, Nat.mul_comm n 16]
    rfl

/-- Fewer digits than are asked for are rejected. -/
private theorem readHex_short {pos : Position} {n k : Nat} (all : digits.all isHexDigit = true)
    (short : digits.length < k) (ends : ∀ b ∈ more.head?, Hex.digit? (byteChar b) = none)
    (value : Nat) (after : Cursor) :
    readHex start k n ⟨pos, digits.map ascii ++ more⟩ ≠ .ok (value, after) := by
  induction digits generalizing n pos k with
  | nil =>
    obtain ⟨k, rfl⟩ := Nat.exists_eq_succ_of_ne_zero (Nat.ne_of_gt short)
    unfold readHex Cursor.bump
    cases more with
    | nil => simp
    | cons b rest =>
      have stops := ends b rfl
      simp [stops]
  | cons d rest ih =>
    rw [List.all_cons, Bool.and_eq_true] at all
    obtain ⟨v, digit⟩ := Option.isSome_iff_exists.mp all.1
    obtain ⟨k, rfl⟩ : ∃ j, k = j + 1 := ⟨k - 1, by rw [List.length_cons] at short; omega⟩
    rw [readHex]
    simp only [Cursor.bump, List.map_cons, List.cons_append,
      byteChar_ascii (small_of_isHexDigit all.1), digit]
    exact ih all.2 (Nat.lt_of_succ_lt_succ short)

end Lexing

section Escapes

variable {start : Position} {cursor after : Cursor} {c : Char} {digits : List Char}
variable {more : List UInt8} {pos : Position}

private theorem unescape_letter {v : Char} (known : simpleEscape? c = some v) (other : c ≠ '?') :
    unescape start (ascii c) cursor = .ok (v, cursor) := by
  unfold simpleEscape? at known
  split at known
  case h_11 => exact absurd rfl other
  case h_12 => cases known
  all_goals
    cases known
    rfl

/-- Only a few letters begin an escape. -/
private theorem unescape_unknown {esc : UInt8} (noLetter : escape? (byteChar esc) = none)
    (noX : esc ≠ ascii 'x') (noU : esc ≠ ascii 'u') (noLong : esc ≠ ascii 'U') (char : Char) :
    unescape start esc cursor ≠ .ok (char, after) := by
  unfold unescape
  simp only [noLetter, if_neg noX, if_neg noU, if_neg noLong]
  exact nofun

private theorem unescape_u (long : Bool) :
    unescape start (ascii (if long then 'U' else 'u')) cursor = (do
      let (h, cursor) ← readHex cursor.pos (if long then 8 else 4) 0 cursor
      let c ← Outcome.ofOption ⟨.unexpectedToken, "invalid unicode escape", start⟩ (charOf? h)
      .ok (c, cursor)) := by
  cases long with
  | false => rfl
  | true => rfl

theorem two_digits_small (all : digits.all isHexDigit = true) (two : digits.length = 2) :
    ofDigits 16 digits < 256 := by
  obtain ⟨a, b, rfl⟩ := List.length_eq_two.mp two
  simp only [List.all_cons, Bool.and_eq_true] at all
  have first := digitValue_lt all.1
  have second := digitValue_lt all.2.1
  unfold ofDigits
  simp only [List.foldl_cons, List.foldl_nil]
  omega

private theorem unescape_hex (all : digits.all isHexDigit = true) (two : digits.length = 2) :
    unescape start (ascii 'x') ⟨pos, digits.map ascii ++ more⟩ =
      .ok (Char.ofNat (ofDigits 16 digits), ⟨pos.after (digits.map ascii), more⟩) := by
  have read := @readHex_digits pos digits more pos 0 all
  rw [two] at read
  have small := two_digits_small all two
  have valid : (ofDigits 16 digits).isValidChar := .inl (by omega)
  unfold unescape
  rw [show escape? (byteChar (ascii 'x')) = none from rfl]
  simp only [if_true, read, Outcome.ok_bind]
  show Outcome.ok ((charOf? (ofDigits 16 digits)).getD _, _) = _
  rw [charOf?, if_pos valid]
  rfl

private theorem unescape_unicode {long : Bool} (length : digits.length = if long then 8 else 4)
    (all : digits.all isHexDigit = true) (valid : (ofDigits 16 digits).isValidChar) :
    unescape start (ascii (if long then 'U' else 'u')) ⟨pos, digits.map ascii ++ more⟩ =
      .ok (Char.ofNat (ofDigits 16 digits), ⟨pos.after (digits.map ascii), more⟩) := by
  have read := @readHex_digits pos digits more pos 0 all
  rw [length] at read
  rw [unescape_u]
  simp only [read, Outcome.ok_bind]
  show Outcome.ofOption _ (charOf? (ofDigits 16 digits)) >>= _ = _
  rw [charOf?, if_pos valid]
  rfl

/-- The first of two surrogates is no character. -/
private theorem unescape_surrogate (length : digits.length = 4) (all : digits.all isHexDigit = true)
    (high : 0xD800 ≤ ofDigits 16 digits ∧ ofDigits 16 digits < 0xDC00) (char : Char) :
    unescape start (ascii 'u') ⟨pos, digits.map ascii ++ more⟩ ≠ .ok (char, after) := by
  have read := @readHex_digits pos digits more pos 0 all
  rw [length] at read
  have same := @unescape_u start ⟨pos, digits.map ascii ++ more⟩ false
  simp only [Bool.false_eq_true, if_false] at same
  rw [same]
  simp only [read, Outcome.ok_bind]
  have invalid : ¬ (ofDigits 16 digits).isValidChar := by
    rintro (low | ⟨above, _⟩)
    · omega
    · omega
  show Outcome.ofOption _ (charOf? (ofDigits 16 digits)) >>= _ ≠ _
  rw [charOf?, if_neg invalid]
  exact nofun

end Escapes

section Scan

variable {quote : Char} {start : Position} {s final : StrScan} {more : List UInt8}
variable {p : StrPiece} {ahead chars : List Char} {tail : List UInt8}

private theorem quote_small (quoted : quote = '"' ∨ quote = '\'') :
    quote.toNat < 128 ∧ quote ≠ '\\' ∧ isHexDigit quote = false := by
  rcases quoted with rfl | rfl
  · decide
  · decide

/-- The bytes of a character are no quote and no backslash, if it is none. -/
private theorem encode_char_plain {c d : Char} (other : c ≠ d) (small : d.toNat < 128) :
    ∀ b ∈ encode [c], b ≠ ascii d := by
  intro b member
  rcases utf8EncodeChar_cases c with ⟨short, single⟩ | ⟨_, _, wide⟩
  · rw [encode_cons, single, encode_nil, List.append_nil, List.mem_singleton] at member
    rw [member]
    exact fun same => other (ascii_inj short small same)
  · rw [encode_cons, encode_nil, List.append_nil] at member
    rintro rfl
    have above := UInt8.le_iff_toNat_le.mp (wide _ member)
    rw [toNat_ascii small] at above
    have bound : (128 : UInt8).toNat = 128 := rfl
    omega

/-- No hexadecimal digit is in front of bytes that begin with another character. -/
private theorem not_digit_ahead {c : Char} {rest : List Char} (other : isHexDigit c = false)
    (same : more = encode (c :: rest) ++ tail) : ∀ b ∈ more.head?, Hex.digit? (byteChar b) = none := by
  subst same
  rcases utf8EncodeChar_cases c with ⟨short, single⟩ | ⟨_, nonempty, wide⟩
  · intro b first
    rw [encode_cons, single] at first
    cases first
    rw [show UInt8.ofNat c.toNat = ascii c from rfl, byteChar_ascii short]
    simpa [isHexDigit] using other
  · intro b first
    rw [encode_cons] at first
    have member : b ∈ String.utf8EncodeChar c := by
      cases bytes : String.utf8EncodeChar c with
      | nil => exact absurd bytes nonempty
      | cons d others =>
        rw [bytes] at first
        cases first
        exact List.mem_cons_self
    have above := UInt8.le_iff_toNat_le.mp (wide b member)
    have bound : (128 : UInt8).toNat = 128 := rfl
    rw [← toNat_byteChar b, bound] at above
    refine Option.eq_none_iff_forall_ne_some.mpr fun d digit => ?_
    have small := small_of_isHexDigit (c := byteChar b) (by rw [isHexDigit, digit]; rfl)
    omega

/-- An escape is spelled in ASCII. -/
private theorem encode_escape {esc : Char} {digits : List Char} (small : esc.toNat < 128)
    (all : digits.all isHexDigit = true) :
    encode ('\\' :: esc :: digits) = ascii '\\' :: ascii esc :: digits.map ascii := by
  refine encode_ascii fun c member => ?_
  rcases List.mem_cons.mp member with rfl | member
  · decide
  rcases List.mem_cons.mp member with rfl | member
  · exact small
  · exact small_of_isHexDigit (List.all_eq_true.mp all c member)

private theorem all_hex_of_octal {digits : List Char} (all : digits.all isOctalDigit = true) :
    digits.all isHexDigit = true :=
  List.all_eq_true.mpr fun c member => isHexDigit_of_isDigit
    (isDigit_of_isOctalDigit (List.all_eq_true.mp all c member))

private theorem simpleEscape_small {c : Char} (known : (simpleEscape? c).isSome = true) :
    c.toNat < 128 := by
  unfold simpleEscape? at known
  split at known
  case h_12 => cases known
  all_goals decide

/-- A piece that is not rejected is read as its characters. -/
private theorem scans_piece (isOpen : s.closed = false) (quoted : quote = '"' ∨ quote = '\'')
    (proper : p.Proper quote) (here : s.cursor.rest = encode p.spelling ++ more)
    (lexed : p.lexed = some chars) :
    Scans quote start s final ↔
      Scans quote start (s.read chars (encode p.spelling) more) final := by
  obtain ⟨small, noQuote, noDigit⟩ := quote_small quoted
  cases p with
  | char c =>
    cases lexed
    exact scans_bytes isOpen (fun b member => ⟨encode_char_plain proper.1 small b member,
      encode_char_plain proper.2 (by decide) b member⟩) here
  | letter c =>
    simp only [StrPiece.lexed] at lexed
    split at lexed
    · cases lexed
    · rename_i other
      obtain ⟨v, known, rfl⟩ := Option.map_eq_some_iff.mp lexed
      have spelled : encode (StrPiece.letter c).spelling = [ascii '\\', ascii c] :=
        encode_escape (simpleEscape_small (by rw [known]; rfl)) rfl
      rw [spelled] at here ⊢
      have noMore : s.cursor.rest = ascii '\\' :: ascii c :: ([] ++ more) := here
      exact scans_escape isOpen noQuote small noMore (unescape_letter known other)
  | octal digits =>
    simp only [StrPiece.lexed] at lexed
    split at lexed
    · rename_i digits'
      cases lexed
      have all := all_hex_of_octal proper.2.2
      rw [List.all_cons, Bool.and_eq_true] at all
      have spelled : encode (StrPiece.octal ('0' :: digits')).spelling =
          ascii '\\' :: ascii '0' :: digits'.map ascii := encode_escape (by decide) all.2
      rw [spelled] at here ⊢
      have zero := @scans_escape quote start s final (digits'.map ascii ++ more) '0' '\x00' []
        isOpen noQuote small here rfl
      have plain : ∀ b ∈ digits'.map ascii, b ≠ ascii quote ∧ b ≠ ascii '\\' := by
        intro b member
        obtain ⟨d, inside, rfl⟩ := List.mem_map.mp member
        have digit := List.all_eq_true.mp all.2 d inside
        have short := small_of_isHexDigit digit
        constructor
        · intro same
          rw [ascii_inj short small same, noDigit] at digit
          cases digit
        · intro same
          rw [ascii_inj short (by decide) same] at digit
          exact absurd digit (by decide)
      have digitsRead := @scans_bytes quote start
        (s.read ['\x00'] [ascii '\\', ascii '0'] (digits'.map ascii ++ more)) final more
        (digits'.map ascii) isOpen plain rfl
      have byteChars : (digits'.map ascii).map byteChar = digits' :=
        byteChars_ascii fun c member => small_of_isHexDigit (List.all_eq_true.mp all.2 c member)
      rw [byteChars] at digitsRead
      refine (zero.trans digitsRead).trans ?_
      unfold StrScan.read
      simp only [List.append_assoc, List.singleton_append, Position.after_cons, Position.after_nil]
    · cases lexed
  | hex upper digits =>
    simp only [StrPiece.lexed] at lexed
    split at lexed
    · rename_i exact
      obtain ⟨rfl, two⟩ := exact
      cases lexed
      have spelled : encode (StrPiece.hex false digits).spelling =
          ascii '\\' :: ascii 'x' :: digits.map ascii := encode_escape (by decide) proper.2.2
      rw [spelled] at here ⊢
      exact scans_escape isOpen noQuote small here (unescape_hex proper.2.2 two)
    · cases lexed
  | unicode long digits =>
    cases lexed
    have spelled : encode (StrPiece.unicode long digits).spelling =
        ascii '\\' :: ascii (if long then 'U' else 'u') :: digits.map ascii :=
      encode_escape (by cases long <;> decide) proper.2.1
    rw [spelled] at here ⊢
    exact scans_escape isOpen noQuote small here (unescape_unicode proper.1 proper.2.1 proper.2.2)
  | surrogates high low => cases lexed

/-- An escape with an unknown letter does not finish. -/
private theorem not_scans_unknown {esc : Char} {rest : List UInt8} (isOpen : s.closed = false)
    (quoted : quote = '"' ∨ quote = '\'') (short : esc.toNat < 128)
    (here : s.cursor.rest = ascii '\\' :: ascii esc :: rest) (unknown : escape? esc = none)
    (noX : esc ≠ 'x') (noU : esc ≠ 'u') (noLong : esc ≠ 'U') : ¬ Scans quote start s final := by
  obtain ⟨small, noQuote, _⟩ := quote_small quoted
  refine not_scans_escape isOpen noQuote small here fun char after =>
    unescape_unknown (by rw [byteChar_ascii short]; exact unknown) ?_ ?_ ?_ char
  · exact fun same => noX (ascii_inj short (by decide) same)
  · exact fun same => noU (ascii_inj short (by decide) same)
  · exact fun same => noLong (ascii_inj short (by decide) same)

/-- A piece that is rejected is not left behind. -/
private theorem not_scans_piece {c : Char} {rest : List Char} (isOpen : s.closed = false)
    (quoted : quote = '"' ∨ quote = '\'') (proper : p.Proper quote) (greedy : p.Greedy (c :: rest))
    (behind : more = encode (c :: rest) ++ tail)
    (here : s.cursor.rest = encode p.spelling ++ more) (rejected : p.lexed = none) :
    ¬ Scans quote start s final := by
  obtain ⟨small, noQuote, _⟩ := quote_small quoted
  cases p with
  | char c => cases rejected
  | letter c =>
    simp only [StrPiece.lexed] at rejected
    split at rejected
    · rename_i mark
      subst mark
      exact not_scans_unknown isOpen quoted (by decide) here rfl (by decide) (by decide) (by decide)
    · rw [Option.map_eq_none_iff] at rejected
      have known : (simpleEscape? c).isSome = true := proper
      rw [rejected] at known
      cases known
  | octal digits =>
    obtain ⟨nonempty, _, all⟩ := proper
    cases digits with
    | nil => exact absurd rfl nonempty
    | cons d digits =>
      have spelled : encode (StrPiece.octal (d :: digits)).spelling =
          ascii '\\' :: ascii d :: digits.map ascii := by
        have hexes := all_hex_of_octal all
        rw [List.all_cons, Bool.and_eq_true] at hexes
        exact encode_escape (small_of_isHexDigit hexes.1) hexes.2
      rw [spelled] at here
      rw [List.all_cons, Bool.and_eq_true] at all
      obtain ⟨low, high⟩ : 48 ≤ d.toNat ∧ d.toNat < 56 := by
        have octal := all.1
        simp only [isOctalDigit, Bool.and_eq_true, decide_eq_true_eq] at octal
        exact ⟨(digit_bounds octal.1).1, octal.2⟩
      have nonzero : d ≠ '0' := by
        rintro rfl
        cases rejected
      have unknown : escape? d = none := by
        unfold escape?
        split
        case h_7 => exact absurd rfl nonzero
        case h_12 => rfl
        all_goals first | exact absurd high (by decide) | exact absurd low (by decide)
      have other (e : Char) (large : 56 ≤ e.toNat) : d ≠ e := by
        rintro rfl
        omega
      exact not_scans_unknown isOpen quoted (by omega) here unknown (other _ (by decide))
        (other _ (by decide)) (other _ (by decide))
  | hex upper digits =>
    obtain ⟨nonempty, two, all⟩ := proper
    have spelled : encode (StrPiece.hex upper digits).spelling =
        ascii '\\' :: ascii (if upper then 'X' else 'x') :: digits.map ascii :=
      encode_escape (by cases upper <;> decide) all
    rw [spelled] at here
    cases upper with
    | true =>
      exact not_scans_unknown isOpen quoted (by decide) here rfl (by decide) (by decide) (by decide)
    | false =>
      have short : digits.length < 2 := by
        refine Nat.lt_of_le_of_ne two fun same => ?_
        simp [StrPiece.lexed, same] at rejected
      refine not_scans_escape isOpen noQuote small here fun char after escaped => ?_
      have ends := not_digit_ahead (greedy short c rfl) behind
      unfold unescape at escaped
      rw [show escape? (byteChar (ascii (if false = true then 'X' else 'x'))) = none from rfl] at escaped
      simp only [Bool.false_eq_true, if_false, if_true] at escaped
      obtain ⟨⟨value, last⟩, read, _⟩ := Outcome.bind_eq_ok.mp escaped
      exact readHex_short all short ends value last read
  | unicode long digits => cases rejected
  | surrogates high low =>
    obtain ⟨length, all, lengthLow, allLow, range, _⟩ := proper
    have digits : ∀ c ∈ (StrPiece.surrogates high low).spelling, c.toNat < 128 := by
      intro c member
      simp only [StrPiece.spelling, List.mem_cons, List.mem_append] at member
      rcases member with rfl | rfl | inside | rfl | rfl | inside
      · decide
      · decide
      · exact small_of_isHexDigit (List.all_eq_true.mp all c inside)
      · decide
      · decide
      · exact small_of_isHexDigit (List.all_eq_true.mp allLow c inside)
    rw [encode_ascii digits] at here
    simp only [StrPiece.spelling, List.map_cons, List.map_append, List.cons_append,
      List.append_assoc] at here
    exact not_scans_escape isOpen noQuote small here fun char after =>
      unescape_surrogate length all range char

end Scan

section Literals

variable {quote : Char} {start : Position} {s final : StrScan} {behind : List UInt8}
variable {pieces : List StrPiece}

/-- What the lexer makes of pieces, unless it rejects one. -/
def lexedPieces : List StrPiece → Option (List Char)
  | [] => some []
  | p :: rest => do
    let chars ← p.lexed
    let more ← lexedPieces rest
    some (chars ++ more)

private theorem Greedy.append {p : StrPiece} {ahead : List Char} {c : Char}
    (greedy : p.Greedy ahead) (noDigit : isHexDigit c = false) : p.Greedy (ahead ++ [c]) := by
  cases ahead with
  | cons d rest => cases p <;> exact greedy
  | nil =>
    have noOctal : isOctalDigit c = false := by
      refine Bool.eq_false_iff.mpr fun octal => ?_
      rw [isHexDigit_of_isDigit (isDigit_of_isOctalDigit octal)] at noDigit
      cases noDigit
    cases p with
    | octal digits =>
      intro _ d first
      cases first
      exact noOctal
    | hex upper digits =>
      intro _ d first
      cases first
      exact noDigit
    | char | letter | unicode | surrogates => trivial

/-- The scan finishes with the characters that are made of all pieces, behind the quote. -/
private theorem scans_pieces (isOpen : s.closed = false) (quoted : quote = '"' ∨ quote = '\'')
    (wellFormed : WellFormed quote pieces)
    (here : s.cursor.rest = encode (spellings pieces ++ [quote]) ++ behind) :
    Scans quote start s final ↔ ∃ chars, lexedPieces pieces = some chars ∧
      final = (s.read chars (encode (spellings pieces ++ [quote])) behind).close := by
  obtain ⟨small, _, noDigit⟩ := quote_small quoted
  have last : encode [quote] = [ascii quote] := encode_ascii fun c member => by
    rw [List.mem_singleton.mp member]
    exact small
  induction pieces generalizing s with
  | nil =>
    have ahead : s.cursor.rest = ascii quote :: behind := by
      rw [here, show spellings [] ++ [quote] = [quote] from rfl, last]
      rfl
    rw [scans_quote isOpen ahead]
    constructor
    · rintro rfl
      refine ⟨[], rfl, ?_⟩
      unfold StrScan.close StrScan.read
      rw [show spellings [] ++ [quote] = [quote] from rfl, last, List.append_nil]
      rfl
    · rintro ⟨_, same, rfl⟩
      cases same
      unfold StrScan.close StrScan.read
      rw [show spellings [] ++ [quote] = [quote] from rfl, last, List.append_nil]
      rfl
  | cons p rest ih =>
    obtain ⟨proper, greedy, others⟩ := wellFormed
    have split : spellings (p :: rest) ++ [quote] = p.spelling ++ (spellings rest ++ [quote]) := by
      rw [spellings, List.flatMap_cons, List.append_assoc]
      rfl
    have ahead : s.cursor.rest = encode p.spelling ++ (encode (spellings rest ++ [quote]) ++ behind) := by
      rw [here, split, encode_append, List.append_assoc]
    cases lexed : p.lexed with
    | none =>
      obtain ⟨c, tail, same⟩ : ∃ c tail, spellings rest ++ [quote] = c :: tail :=
        List.exists_cons_of_ne_nil (by simp)
      refine iff_of_false ?_ ?_
      · have greedy' := Greedy.append greedy noDigit
        rw [same] at greedy'
        exact not_scans_piece isOpen quoted proper greedy' (by rw [same]) ahead lexed
      · rintro ⟨chars, made, _⟩
        rw [lexedPieces, lexed] at made
        cases made
    | some chars =>
      have later := ih (s := s.read chars (encode p.spelling) (encode (spellings rest ++ [quote]) ++
        behind)) isOpen others rfl
      refine (scans_piece isOpen quoted proper ahead lexed).trans (later.trans ?_)
      have joined (more : List Char) :
          (s.read chars (encode p.spelling) (encode (spellings rest ++ [quote]) ++ behind)).read more
            (encode (spellings rest ++ [quote])) behind =
          s.read (chars ++ more) (encode (spellings (p :: rest) ++ [quote])) behind := by
        simp only [StrScan.read, split, encode_append, Position.after_append, List.append_assoc]
      constructor
      · rintro ⟨more, made, rfl⟩
        refine ⟨chars ++ more, ?_, by rw [joined]⟩
        rw [lexedPieces, lexed, made]
        rfl
      · rintro ⟨all, made, rfl⟩
        simp only [lexedPieces, lexed, Option.bind_eq_bind, Option.bind_some] at made
        obtain ⟨more, made', same⟩ := Option.bind_eq_some_iff.mp made
        cases same
        exact ⟨more, made', by rw [joined]⟩

/-- A literal is lexed as the characters that are made of its pieces, or is rejected. -/
theorem lexString_literal {l : StrLiteral} {pos : Position} {text : String} {after : Cursor} :
    lexString (ascii l.quote) ⟨pos, encode l.spelling ++ behind⟩ = .ok (text, after) ↔
      after = ⟨pos.after (encode l.spelling), behind⟩ ∧
        ∃ chars, lexedPieces l.pieces = some chars ∧ text = String.ofList chars := by
  obtain ⟨small, _, _⟩ := quote_small l.quoted
  have first : encode l.spelling = ascii l.quote :: encode (spellings l.pieces ++ [l.quote]) := by
    rw [StrLiteral.spelling, encode_cons]
    rcases utf8EncodeChar_cases l.quote with ⟨_, single⟩ | ⟨large, _⟩
    · rw [single]
      rfl
    · omega
  have lower (s s' : StrScan) (_ : (!s.closed) = true)
      (moved : strStep (ascii l.quote) pos s = .ok s') :
      s'.cursor.rest.length + 1 < s.cursor.rest.length + 1 := by
    obtain ⟨used, nonempty, consumes, _⟩ := strStep_local moved
    have positive := List.length_pos_iff.mpr nonempty
    rw [consumes.1, List.length_append]
    omega
  have scans := fun final => @scans_pieces l.quote pos
    ⟨[], ⟨pos.bump (ascii l.quote), encode (spellings l.pieces ++ [l.quote]) ++ behind⟩, false⟩ final
    behind l.pieces rfl l.quoted l.wellFormed rfl
  unfold lexString
  rw [Outcome.bind_eq_ok, first]
  simp only [List.cons_append, List.drop_succ_cons, List.drop_zero]
  constructor
  · rintro ⟨final, looped, same⟩
    rw [loop_eq_ok_iff_finishes (fun s => s.cursor.rest.length + 1) lower (by simp)] at looped
    obtain ⟨chars, made, rfl⟩ := (scans final).mp looped
    cases same
    exact ⟨rfl, chars, made, rfl⟩
  · rintro ⟨rfl, chars, made, rfl⟩
    have finishes := (scans _).mpr ⟨chars, made, rfl⟩
    exact ⟨_, (loop_eq_ok_iff_finishes (fun s => s.cursor.rest.length + 1) lower (by simp)).mpr
      finishes, rfl⟩

end Literals

section Values

variable {p : StrPiece} {quote : Char} {chars : List Char}

/-- Each byte is a character of one byte or two. -/
theorem length_encode_bytes (bytes : List UInt8) :
    bytes.length ≤ (encode (bytes.map byteChar)).length ∧
      ((encode (bytes.map byteChar)).length = bytes.length → ∀ b ∈ bytes, b < 128) := by
  induction bytes with
  | nil => exact ⟨Nat.le_refl _, fun _ => nofun⟩
  | cons b rest ih =>
    obtain ⟨longer, same⟩ := ih
    rw [List.map_cons, encode_cons, List.length_append, List.length_cons]
    rcases utf8EncodeChar_cases (byteChar b) with ⟨short, single⟩ | ⟨large, nonempty, _⟩
    · rw [single, List.length_singleton]
      refine ⟨by omega, fun equal d member => ?_⟩
      rcases List.mem_cons.mp member with rfl | member
      · rw [toNat_byteChar] at short
        exact UInt8.lt_iff_toNat_lt.mpr short
      · exact same (by omega) d member
    · have two : 2 ≤ (String.utf8EncodeChar (byteChar b)).length := length_utf8EncodeChar_wide large
      exact ⟨by omega, fun equal => by omega⟩

theorem byte_char {n : Nat} (small : n < 128) :
    encode [Char.ofNat n] = [UInt8.ofNat n] := by
  have valid : n.isValidChar := .inl (by omega)
  have code : (Char.ofNat n).toNat = n := by
    rw [Char.ofNat, dif_pos valid]
    rfl
  have short : ∀ c ∈ [Char.ofNat n], c.toNat < 128 := by
    intro c member
    rw [List.mem_singleton.mp member, code]
    exact small
  rw [encode_ascii short, List.map_singleton, ascii, code]

/-- An exact piece is made the characters that it denotes. -/
private theorem lexed_of_exact (proper : p.Proper quote) (exact : p.Exact) :
    ∃ chars, p.lexed = some chars ∧ encode chars = p.bytes := by
  cases p with
  | char c =>
    refine ⟨_, rfl, ?_⟩
    have short : ∀ d ∈ [c], d.toNat < 128 := by
      intro d member
      rw [List.mem_singleton.mp member]
      exact exact
    rw [encode_ascii short, byteChars_ascii short, encode_ascii short]
    exact (encode_ascii short).symm
  | letter c =>
    obtain ⟨v, known⟩ := Option.isSome_iff_exists.mp proper
    refine ⟨[v], ?_, ?_⟩
    · simp only [StrPiece.lexed]
      rw [if_neg exact, known]
      rfl
    · rw [StrPiece.bytes, known]
      rfl
  | octal digits =>
    have zero : digits = ['0'] := exact
    subst zero
    exact ⟨['\x00'], rfl, rfl⟩
  | hex upper digits =>
    obtain ⟨lower, two, small⟩ := exact
    refine ⟨[Char.ofNat (ofDigits 16 digits)], ?_, byte_char small⟩
    simp only [StrPiece.lexed]
    rw [if_pos ⟨lower, two⟩]
  | unicode long digits => exact ⟨_, rfl, rfl⟩
  | surrogates high low => exact exact.elim

/-- What is made of a piece is no shorter than what it denotes, and longer unless it is exact. -/
theorem exact_of_lexed (proper : p.Proper quote) (lexed : p.lexed = some chars) :
    p.bytes.length ≤ (encode chars).length ∧
      ((encode chars).length = p.bytes.length → p.Exact) := by
  cases p with
  | char c =>
    cases lexed
    obtain ⟨longer, same⟩ := length_encode_bytes (encode [c])
    refine ⟨longer, fun equal => ?_⟩
    have short := same equal
    rcases utf8EncodeChar_cases c with ⟨small, _⟩ | ⟨_, nonempty, wide⟩
    · exact small
    · obtain ⟨b, rest, bytes⟩ := List.exists_cons_of_ne_nil nonempty
      have above := wide b (by rw [bytes]; exact List.mem_cons_self)
      have below := short b (by
        rw [encode_cons, bytes]
        exact List.mem_cons_self)
      exact absurd below (UInt8.not_lt.mpr above)
  | letter c =>
    simp only [StrPiece.lexed] at lexed
    split at lexed
    · cases lexed
    · rename_i other
      obtain ⟨v, known, rfl⟩ := Option.map_eq_some_iff.mp lexed
      rw [StrPiece.bytes, known]
      exact ⟨Nat.le_refl _, fun _ => other⟩
  | octal digits =>
    simp only [StrPiece.lexed] at lexed
    split at lexed
    · rename_i digits'
      cases lexed
      have positive (digits : List Char) : digits.length ≤ (encode digits).length := by
        induction digits with
        | nil => exact Nat.le_refl _
        | cons c rest ih =>
          have one := Char.utf8Size_pos c
          rw [encode_cons, List.length_append, String.length_utf8EncodeChar, List.length_cons]
          omega
      have more := positive digits'
      have one : (String.utf8EncodeChar '\x00').length = 1 := rfl
      rw [encode_cons, List.length_append, one]
      refine ⟨Nat.le_add_right 1 _, fun equal => ?_⟩
      have none : digits'.length = 0 := by
        have single : (StrPiece.octal ('0' :: digits')).bytes.length = 1 := rfl
        omega
      show '0' :: digits' = ['0']
      rw [List.length_eq_zero_iff.mp none]
    · cases lexed
  | hex upper digits =>
    simp only [StrPiece.lexed] at lexed
    split at lexed
    · rename_i form
      cases lexed
      have single : (StrPiece.hex upper digits).bytes.length = 1 := rfl
      rw [single, encode_cons, encode_nil, List.append_nil, String.length_utf8EncodeChar]
      refine ⟨Char.utf8Size_pos _, fun equal => ⟨form.1, form.2, ?_⟩⟩
      have small := UInt32.le_iff_toNat_le.mp (Char.utf8Size_eq_one_iff.mp equal)
      have bound : (127 : UInt32).toNat = 127 := rfl
      have code : (Char.ofNat (ofDigits 16 digits)).val.toNat = ofDigits 16 digits := by
        have valid : (ofDigits 16 digits).isValidChar := .inl (by
          have small := two_digits_small proper.2.2 form.2
          omega)
        rw [Char.ofNat, dif_pos valid]
        rfl
      omega
    · cases lexed
  | unicode long digits =>
    cases lexed
    exact ⟨Nat.le_refl _, fun _ => trivial⟩
  | surrogates high low => cases lexed

/-- What is made of all pieces is no shorter than what they denote, and longer unless all are exact. -/
theorem exact_of_lexedPieces {pieces : List StrPiece} (wellFormed : WellFormed quote pieces)
    (lexed : lexedPieces pieces = some chars) :
    (pieces.flatMap StrPiece.bytes).length ≤ (encode chars).length ∧
      ((encode chars).length = (pieces.flatMap StrPiece.bytes).length → ∀ p ∈ pieces, p.Exact) := by
  induction pieces generalizing chars with
  | nil =>
    cases lexed
    exact ⟨Nat.le_refl _, fun _ => nofun⟩
  | cons p rest ih =>
    obtain ⟨first, read, lexed⟩ := Option.bind_eq_some_iff.mp lexed
    obtain ⟨others, more, same⟩ := Option.bind_eq_some_iff.mp lexed
    cases same
    obtain ⟨shorter, exact⟩ := exact_of_lexed wellFormed.1 read
    obtain ⟨shorter', exact'⟩ := ih wellFormed.2.2 more
    rw [encode_append, List.length_append, List.flatMap_cons, List.length_append]
    refine ⟨by omega, fun equal => List.forall_mem_cons.mpr ⟨exact ?_, exact' ?_⟩⟩
    · omega
    · omega

/-- The pieces are made exactly what they denote if and only if each one is exact. -/
theorem lexedPieces_iff {pieces : List StrPiece} (wellFormed : WellFormed quote pieces) :
    (∃ chars, lexedPieces pieces = some chars ∧ encode chars = pieces.flatMap StrPiece.bytes) ↔
      ∀ p ∈ pieces, p.Exact := by
  constructor
  · rintro ⟨chars, lexed, same⟩
    exact (exact_of_lexedPieces wellFormed lexed).2 (by rw [same])
  · intro exact
    induction pieces with
    | nil => exact ⟨[], rfl, rfl⟩
    | cons p rest ih =>
      rw [List.forall_mem_cons] at exact
      obtain ⟨first, read, same⟩ := lexed_of_exact wellFormed.1 exact.1
      obtain ⟨others, more, same'⟩ := ih wellFormed.2.2 exact.2
      refine ⟨first ++ others, ?_, ?_⟩
      · rw [lexedPieces, read, more]
        rfl
      · rw [encode_append, same, same', List.flatMap_cons]

end Values

section Theorem

variable (parseFloat : String → Option UInt64)

/-- The literal is the token of exactly the text that it denotes. -/
def StrLiteral.LexedExactly (l : StrLiteral) (pos : Position) (behind : List UInt8) : Prop :=
  ∃ text, nextToken parseFloat (ascii l.quote) ⟨pos, encode l.spelling ++ behind⟩ =
    .ok (.str text, ⟨pos.after (encode l.spelling), behind⟩) ∧ asBytes text = l.bytes

theorem nextToken_quote {parseFloat : String → Option UInt64} {quote : Char}
    (quoted : quote = '"' ∨ quote = '\'') (cursor : Cursor) :
    nextToken parseFloat (ascii quote) cursor = (do
      let (text, cursor) ← lexString (ascii quote) cursor
      .ok (.str text, cursor)) := by
  rcases quoted with rfl | rfl
  · rfl
  · rfl

/-- A string is lexed exactly if and only if each of its pieces is exact. -/
theorem strLiteral_lexed_iff {parseFloat : String → Option UInt64} (l : StrLiteral) (pos : Position)
    (behind : List UInt8) : l.LexedExactly parseFloat pos behind ↔ ∀ p ∈ l.pieces, p.Exact := by
  rw [← lexedPieces_iff l.wellFormed]
  unfold StrLiteral.LexedExactly
  rw [nextToken_quote l.quoted]
  constructor
  · rintro ⟨text, lexed, same⟩
    obtain ⟨⟨text', after⟩, read, equal⟩ := Outcome.bind_eq_ok.mp lexed
    cases equal
    obtain ⟨_, chars, made, rfl⟩ := lexString_literal.mp read
    rw [asBytes_ofList] at same
    exact ⟨chars, made, same⟩
  · rintro ⟨chars, made, same⟩
    refine ⟨String.ofList chars, ?_, ?_⟩
    · exact Outcome.bind_eq_ok.mpr ⟨_, lexString_literal.mpr ⟨rfl, chars, made, rfl⟩, rfl⟩
    · rw [asBytes_ofList]
      exact same

/-- Whole numbers, with anything behind that ends them, and strings are lexed exactly if and only if
the numbers are not octal, or but one digit of it, or too large, and every piece of the strings is
exact. -/
theorem lexical_values_iff (pos : Position) (behind : List UInt8) :
    (∀ l : IntLiteral, NumberEnds false behind →
      (l.LexedExactly parseFloat pos behind ↔ l.Exact)) ∧
    ∀ l : StrLiteral, l.LexedExactly parseFloat pos behind ↔ ∀ p ∈ l.pieces, p.Exact :=
  ⟨fun l ends => intLiteral_lexed_iff l ends, fun l => strLiteral_lexed_iff l pos behind⟩

/-- `0x1f` at the end of a text. -/
theorem lexical_values_hex :
    (IntLiteral.hex false ['1', 'f'] (by decide) (by decide)).LexedExactly (fun _ => none) ⟨1, 1, 0⟩ [] ↔
      (IntLiteral.hex false ['1', 'f'] (by decide) (by decide)).Exact :=
  (lexical_values_iff (fun _ => none) ⟨1, 1, 0⟩ []).1
    (.hex false ['1', 'f'] (by decide) (by decide)) nofun

/-- `010`, which denotes 8, is lexed as 10, and `"\101"`, which denotes a letter, is rejected. -/
theorem not_lexical_values :
    (¬ ∀ l : IntLiteral, l.value < 2 ^ 64 → l.LexedExactly (fun _ => none) ⟨1, 1, 0⟩ []) ∧
      ¬ ∀ l : StrLiteral, l.LexedExactly (fun _ => none) ⟨1, 1, 0⟩ [] := by
  constructor
  · intro all
    have lexed : nextToken (fun _ => none) (ascii '0') ⟨⟨1, 1, 0⟩, encode ['0', '1', '0'] ++ []⟩ =
        .ok (.int 10, ⟨(⟨1, 1, 0⟩ : Position).after (encode ['0', '1', '0']), []⟩) := rfl
    rcases all (.octal ['1', '0'] (by decide)) (by decide) with ⟨_, rejected⟩ | ⟨v, read, value⟩
    · cases lexed.symm.trans rejected
    · cases lexed.symm.trans read
      exact absurd value (by decide)
  · intro all
    obtain ⟨text, lexed, _⟩ := all ⟨'"', [.octal ['1', '0', '1']], .inl rfl,
      ⟨by decide, by decide, by decide⟩, fun short => absurd short (by decide), trivial⟩
    obtain ⟨⟨_, _⟩, read, _⟩ := Outcome.bind_eq_ok.mp lexed
    obtain ⟨_, _, made, _⟩ := lexString_literal.mp read
    cases made

end Theorem

end TptProto.Language
