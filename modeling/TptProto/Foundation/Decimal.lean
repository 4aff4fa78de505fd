import Mathlib.Algebra.GroupWithZero.Nat

/-! Decimal numerals as the host language's `str::parse` reads them. -/

namespace TptProto.Foundation.Decimal

/-- One more digit behind the digits read so far. -/
def push (high : Nat) (digit : Char) : Nat := 10 * high + (digit.toNat - 48)

/-- The value of a nonempty run of digits. -/
def digits? (text : List Char) : Option Nat :=
  if text ≠ [] ∧ text.all Char.isDigit then some (text.foldl push 0) else none

def withoutPlus : List Char → List Char
  | '+' :: rest => rest
  | chars => chars

/-- `str::parse` for an unsigned type of values below `limit`: a plus sign may lead. -/
def parseNat (limit : Nat) (text : String) : Option Nat :=
  (digits? (withoutPlus text.toList)).filter (· < limit)

/-- `str::parse` for a signed type of values from `-limit` to `limit - 1`. -/
def parseInt (limit : Nat) (text : String) : Option Int :=
  match text.toList with
  | '-' :: rest => ((digits? rest).filter (· ≤ limit)).map fun (n : Nat) => -(n : Int)
  | _ => (parseNat limit text).map Int.ofNat

theorem parseNat_eq_some {limit n : Nat} {text : String} :
    parseNat limit text = some n ↔ digits? (withoutPlus text.toList) = some n ∧ n < limit := by
  simp [parseNat, Option.filter_eq_some_iff]

/-- The integer of which a text is the decimal numeral, with an optional sign. -/
def numeral? (text : String) : Option Int :=
  match text.toList with
  | '-' :: rest => (digits? rest).map fun (n : Nat) => -(n : Int)
  | chars => (digits? (withoutPlus chars)).map Int.ofNat

/-- A signed type reads exactly the numerals in its range. -/
theorem parseInt_eq_some {limit : Nat} (positive : 0 < limit) {n : Int} {text : String} :
    parseInt limit text = some n ↔
      numeral? text = some n ∧ -(limit : Int) ≤ n ∧ n < limit := by
  unfold parseInt numeral? parseNat
  split
  · rename_i rest _
    cases digits? rest with
    | none => simp
    | some m =>
      by_cases fits : m ≤ limit
      · simp [Option.filter, fits]
        omega
      · simp [Option.filter, fits]
        omega
  · cases digits? (withoutPlus text.toList) with
    | none => simp
    | some m =>
      by_cases fits : m < limit
      · simp [Option.filter, fits]
        omega
      · simp [Option.filter, fits]
        omega

/-- An unsigned type reads exactly the numerals in its range that have no minus sign. -/
theorem parseNat_eq_some_iff {limit n : Nat} {text : String} :
    parseNat limit text = some n ↔
      numeral? text = some (n : Int) ∧ n < limit ∧ text.toList.head? ≠ some '-' := by
  unfold parseNat numeral?
  split
  · rename_i rest same
    have none : digits? (withoutPlus ('-' :: rest)) = none := by
      simp [withoutPlus, digits?, Char.isDigit]
    simp [same, none]
  · rename_i chars negative
    have positive : text.toList.head? ≠ some '-' := by
      intro first
      cases split : text.toList with
      | nil => simp [split] at first
      | cons c rest =>
        rw [split] at first
        cases first
        exact negative rest split
    cases digits? (withoutPlus text.toList) with
    | none => simp
    | some m =>
      by_cases fits : m < limit
      · simp [Option.filter, fits, positive]
        omega
      · simp [Option.filter, fits]
        omega

/-- The value of a run of digits is bounded by its length. -/
theorem digits?_lt {text : List Char} {n : Nat} (read : digits? text = some n) :
    n < 10 ^ text.length := by
  have bound (high : Nat) (digits : List Char) (all : digits.all Char.isDigit = true) :
      digits.foldl push high < (high + 1) * 10 ^ digits.length := by
    induction digits generalizing high with
    | nil => simp
    | cons digit rest inductionHypothesis =>
      rw [List.all_cons, Bool.and_eq_true] at all
      have digitBound : digit.toNat ≤ 57 := by
        have isDigit := all.1
        simp only [Char.isDigit, Bool.and_eq_true, decide_eq_true_eq] at isDigit
        exact UInt32.le_iff_toNat_le.mp isDigit.2
      have step := inductionHypothesis (push high digit) all.2
      have small : push high digit + 1 ≤ 10 * (high + 1) := by
        unfold push
        omega
      calc rest.foldl push (push high digit)
          < (push high digit + 1) * 10 ^ rest.length := step
        _ ≤ 10 * (high + 1) * 10 ^ rest.length := Nat.mul_le_mul_right _ small
        _ = (high + 1) * 10 ^ (rest.length + 1) := by
          rw [Nat.pow_succ, Nat.mul_comm 10, Nat.mul_assoc, Nat.mul_comm 10]
  unfold digits? at read
  split at read
  · rename_i isNumeral
    cases read
    have bounded := bound 0 text isNumeral.2
    rwa [Nat.zero_add, Nat.one_mul] at bounded
  · cases read

/-- A numeral of at most `width` characters is smaller than the power of ten. -/
theorem numeral?_lt {text : String} {n : Int} {width : Nat} (read : numeral? text = some n)
    (short : text.toList.length ≤ width) : n.natAbs < 10 ^ width := by
  have wider (digits : List Char) (m : Nat) (within : digits.length ≤ width)
      (isRead : digits? digits = some m) : m < 10 ^ width :=
    Nat.lt_of_lt_of_le (digits?_lt isRead) (Nat.pow_le_pow_right (by decide) within)
  unfold numeral? at read
  split at read
  · rename_i rest same
    obtain ⟨m, isRead, rfl⟩ := Option.map_eq_some_iff.mp read
    rw [same, List.length_cons] at short
    have bounded := wider rest m (by omega) isRead
    rwa [Int.natAbs_neg, Int.natAbs_natCast]
  · rename_i chars _
    obtain ⟨m, isRead, rfl⟩ := Option.map_eq_some_iff.mp read
    refine wider _ m ?_ isRead
    unfold withoutPlus
    split
    · rename_i same
      rw [same, List.length_cons] at short
      omega
    · exact short

/-- The digits of a number are read as that number. -/
theorem digits?_toDigits (n : Nat) : digits? (Nat.toDigits 10 n) = some n := by
  have all : (Nat.toDigits 10 n).all Char.isDigit = true :=
    List.all_eq_true.mpr fun _ member => Nat.isDigit_of_mem_toDigits (by decide) (by decide) member
  have value : (Nat.toDigits 10 n).foldl push 0 = n := Nat.ofDigitChars_ten_toDigits
  rw [digits?, if_pos ⟨Nat.toDigits_ne_nil, all⟩, value]

/-- No sign leads a numeral without one. -/
theorem withoutPlus_toDigits (n : Nat) : withoutPlus (Nat.toDigits 10 n) = Nat.toDigits 10 n := by
  unfold withoutPlus
  split
  · rename_i rest same
    have digit : Char.isDigit '+' = true :=
      Nat.isDigit_of_mem_toDigits (b := 10) (n := n) (by decide) (by decide)
        (by rw [same]; exact List.mem_cons_self)
    exact absurd digit (by decide)
  · rfl

/-- An unsigned number is read back within the limit. -/
theorem parseNat_toString (limit n : Nat) :
    parseNat limit (toString n) = if n < limit then some n else none := by
  have digits : digits? (withoutPlus (toString n).toList) = some n := by
    rw [show (toString n).toList = Nat.toDigits 10 n from Nat.toList_repr, withoutPlus_toDigits]
    exact digits?_toDigits n
  by_cases small : n < limit
  · rw [if_pos small]
    exact parseNat_eq_some.mpr ⟨digits, small⟩
  · rw [if_neg small, parseNat, digits]
    simpa using small

theorem toList_toString_natCast (n : Nat) : (toString (n : Int)).toList = Nat.toDigits 10 n := by
  show (Nat.repr n).toList = _
  rw [Nat.toList_repr]

theorem toList_toString_neg {n : Nat} (positive : 0 < n) :
    (toString (-(n : Int))).toList = '-' :: Nat.toDigits 10 n := by
  obtain ⟨m, rfl⟩ := Nat.exists_eq_succ_of_ne_zero (Nat.ne_of_gt positive)
  show ("-" ++ (m + 1).repr).toList = _
  rw [String.toList_append, Nat.toList_repr]
  rfl

/-- What is written for an integer is its numeral. -/
theorem numeral?_toString (n : Int) : numeral? (toString n) = some n := by
  rcases Int.lt_or_le n 0 with negative | positive
  · obtain ⟨m, rfl⟩ : ∃ m : Nat, n = -(m : Int) := ⟨n.natAbs, by omega⟩
    unfold numeral?
    rw [toList_toString_neg (by omega)]
    simp only [digits?_toDigits, Option.map_some]
  · obtain ⟨m, rfl⟩ := Int.eq_ofNat_of_zero_le positive
    unfold numeral?
    rw [toList_toString_natCast]
    split
    · rename_i rest same
      have digit : Char.isDigit '-' = true :=
        Nat.isDigit_of_mem_toDigits (b := 10) (n := m) (by decide) (by decide)
          (by rw [same]; exact List.mem_cons_self)
      exact absurd digit (by decide)
    · rw [withoutPlus_toDigits, digits?_toDigits]
      rfl

example : parseInt (2 ^ 31) "-7" = some (-7) := by decide

end TptProto.Foundation.Decimal

/-! Hexadecimal numerals as the host language writes and reads them. -/

namespace TptProto.Foundation.Hex

/-- The value of a hexadecimal digit of either case. -/
def digit? (c : Char) : Option Nat :=
  if c.isDigit then some (c.toNat - 48)
  else if 'a' ≤ c ∧ c ≤ 'f' then some (c.toNat - 87)
  else if 'A' ≤ c ∧ c ≤ 'F' then some (c.toNat - 55)
  else none

/-- The digits of a text behind a number that is read. -/
def push? (high : Nat) : List Char → Option Nat
  | [] => some high
  | c :: rest => (digit? c).bind fun low => push? (16 * high + low) rest

/-- `from_str_radix(text, 16)` for an unsigned type of values below `limit`: a plus sign may lead. -/
def parse (limit : Nat) (text : List Char) : Option Nat :=
  let digits := match text with
    | '+' :: rest => rest
    | chars => chars
  if digits = [] then none else (push? 0 digits).filter (· < limit)

theorem parse_cons {limit : Nat} {c : Char} {rest : List Char} (noPlus : c ≠ '+') :
    parse limit (c :: rest) = (push? 0 (c :: rest)).filter (· < limit) := by
  unfold parse
  have same : (match c :: rest with
      | '+' :: rest => rest
      | chars => chars) = c :: rest := by
    split
    · rename_i plus
      cases plus
      exact absurd rfl noPlus
    · rfl
  simp only [same, List.cons_ne_nil, if_false]

/-- `:02x`. -/
def byteDigits (byte : UInt8) : List Char :=
  [Nat.digitChar (byte.toNat / 16), Nat.digitChar (byte.toNat % 16)]

example : parse (2 ^ 8) (byteDigits 0xa7) = some 0xa7 := by decide

end TptProto.Foundation.Hex

/-! Decimal fractions of a fixed number of places: filling them up with zeros and trimming these. -/

namespace TptProto.Foundation.Decimal

/-- The value of digits. -/
def value (text : List Char) : Nat := text.foldl push 0

theorem digits?_eq_some {text : List Char} {n : Nat} :
    digits? text = some n ↔ (text ≠ [] ∧ text.all Char.isDigit = true) ∧ value text = n := by
  unfold digits?
  split
  · rename_i numeral
    exact ⟨fun read => ⟨numeral, Option.some.inj read⟩, fun both => congrArg some both.2⟩
  · rename_i none
    exact ⟨fun read => (by cases read), fun both => (none both.1).elim⟩

/-- Digits cannot be a sign or a point. -/
theorem ne_of_digit {digit other : Char} (isDigit : digit.isDigit = true)
    (none : other.isDigit = false) : digit ≠ other := by
  rintro rfl
  rw [isDigit] at none
  cases none

theorem head?_ne_of_digits {text : List Char} (all : text.all Char.isDigit = true) {other : Char}
    (none : other.isDigit = false) : text.head? ≠ some other := by
  intro first
  have member := List.mem_of_mem_head? first
  exact ne_of_digit (List.all_eq_true.mp all _ member) none rfl

theorem not_mem_digits {text : List Char} (all : text.all Char.isDigit = true) {other : Char}
    (none : other.isDigit = false) : other ∉ text :=
  fun member => ne_of_digit (List.all_eq_true.mp all _ member) none rfl

/-- A numeral is digits behind at most one sign. -/
theorem numeral?_ofList {text : List Char} {n : Int} :
    numeral? (String.ofList text) = some n ↔
      (∃ m : Nat, digits? text = some m ∧ n = m) ∨
      (∃ rest m, text = '+' :: rest ∧ digits? rest = some m ∧ n = (m : Int)) ∨
      (∃ rest m, text = '-' :: rest ∧ digits? rest = some m ∧ n = -(m : Int)) := by
  unfold numeral? withoutPlus
  rw [String.toList_ofList]
  have signed {sign : Char} (none : sign.isDigit = false) (rest : List Char) :
      digits? (sign :: rest) = Option.none := by
    simp [digits?, none]
  split
  · rename_i rest
    have minus := @signed '-' rfl rest
    simp [minus, Option.map_eq_some_iff, @eq_comm _ n]
  · rename_i notMinus
    split
    · rename_i rest
      have plus := @signed '+' rfl rest
      simp [plus, Option.map_eq_some_iff, @eq_comm _ n]
    · rename_i notPlus
      constructor
      · intro read
        obtain ⟨m, isRead, rfl⟩ := Option.map_eq_some_iff.mp read
        exact .inl ⟨m, isRead, rfl⟩
      · rintro (⟨m, isRead, rfl⟩ | ⟨rest, _, rfl, _, _⟩ | ⟨rest, _, rfl, _, _⟩)
        · rw [isRead]
          rfl
        · exact (notPlus rest rfl).elim
        · exact (notMinus rest rfl).elim

def withoutSign : List Char → List Char
  | '+' :: rest | '-' :: rest => rest
  | text => text

/-- Digits in front of which stands no sign are a numeral. -/
theorem numeral?_isSome {text : List Char} :
    (∃ n, numeral? (String.ofList text) = some n) ↔
      withoutSign text ≠ [] ∧ (withoutSign text).all Char.isDigit = true := by
  have isNumeral (digits : List Char) (m : Nat) (read : digits? digits = some m) :
      digits ≠ [] ∧ digits.all Char.isDigit = true := (digits?_eq_some.mp read).1
  constructor
  · rintro ⟨n, read⟩
    rcases numeral?_ofList.mp read with ⟨m, isRead, _⟩ | ⟨rest, m, rfl, isRead, _⟩ |
      ⟨rest, m, rfl, isRead, _⟩
    · have both := isNumeral text m isRead
      unfold withoutSign
      split
      · exact (@head?_ne_of_digits _ both.2 '+' rfl rfl).elim
      · exact (@head?_ne_of_digits _ both.2 '-' rfl rfl).elim
      · exact both
    · exact isNumeral rest m isRead
    · exact isNumeral rest m isRead
  · intro both
    unfold withoutSign at both
    split at both
    · rename_i rest
      exact ⟨_, numeral?_ofList.mpr (.inr (.inl ⟨rest, _, rfl, digits?_eq_some.mpr ⟨both, rfl⟩, rfl⟩))⟩
    · rename_i rest
      exact ⟨_, numeral?_ofList.mpr (.inr (.inr ⟨rest, _, rfl, digits?_eq_some.mpr ⟨both, rfl⟩, rfl⟩))⟩
    · exact ⟨_, numeral?_ofList.mpr (.inl ⟨_, digits?_eq_some.mpr ⟨both, rfl⟩, rfl⟩)⟩

/-- Zeros behind digits multiply their value. -/
theorem value_append_zeros (text : List Char) (places : Nat) :
    value (text ++ List.replicate places '0') = value text * 10 ^ places := by
  unfold value
  rw [List.foldl_append]
  generalize text.foldl push 0 = high
  induction places generalizing high with
  | zero => simp
  | succ places inductionHypothesis =>
    rw [List.replicate_succ, List.foldl_cons, inductionHypothesis, Nat.pow_succ']
    show (10 * high + 0) * 10 ^ places = _
    rw [Nat.add_zero, Nat.mul_comm 10 high, Nat.mul_assoc]

/-- Zeros in front of digits do not matter. -/
theorem value_zeros_append (text : List Char) (places : Nat) :
    value (List.replicate places '0' ++ text) = value text := by
  unfold value
  rw [List.foldl_append]
  congr 1
  induction places with
  | zero => rfl
  | succ places inductionHypothesis => exact inductionHypothesis

theorem all_zeros (places : Nat) : (List.replicate places '0').all Char.isDigit = true := by
  rw [List.all_eq_true]
  intro digit member
  rw [List.eq_of_mem_replicate member]
  rfl

/-- The text without the zeros at its end. -/
def trimmed (text : List Char) : List Char := (text.reverse.dropWhile (· = '0')).reverse

/-- What was trimmed are zeros. -/
theorem trimmed_append (text : List Char) :
    trimmed text ++ List.replicate (text.length - (trimmed text).length) '0' = text := by
  have zeros : text.reverse.takeWhile (· = '0') =
      List.replicate (text.reverse.takeWhile (· = '0')).length '0' := by
    rw [List.eq_replicate_iff]
    refine ⟨rfl, fun digit member => ?_⟩
    simpa using List.all_eq_true.mp List.all_takeWhile digit member
  have parts : text = trimmed text ++ (text.reverse.takeWhile (· = '0')).reverse := by
    unfold trimmed
    rw [← List.reverse_append, List.takeWhile_append_dropWhile, List.reverse_reverse]
  have lengths := congrArg List.length parts
  rw [List.length_append, List.length_reverse] at lengths
  rw [show text.length - (trimmed text).length = (text.reverse.takeWhile (· = '0')).length by omega,
    ← List.reverse_replicate, ← zeros]
  exact parts.symm

theorem trimmed_length_le (text : List Char) : (trimmed text).length ≤ text.length := by
  have whole := congrArg List.length (trimmed_append text)
  rw [List.length_append] at whole
  omega

theorem value_trimmed (text : List Char) :
    value (trimmed text) * 10 ^ (text.length - (trimmed text).length) = value text := by
  rw [← value_append_zeros, trimmed_append]

theorem all_trimmed {text : List Char} (all : text.all Char.isDigit = true) :
    (trimmed text).all Char.isDigit = true := by
  rw [← trimmed_append text, List.all_append, Bool.and_eq_true] at all
  exact all.1

/-- Something is left of a text that is more than zeros. -/
theorem trimmed_ne_nil {text : List Char} (positive : 0 < value text) : trimmed text ≠ [] := by
  intro empty
  have nothing := value_trimmed text
  rw [empty] at nothing
  rw [show value [] = 0 from rfl, Nat.zero_mul] at nothing
  omega

end TptProto.Foundation.Decimal
