import TptProto.Compiler.Scoping
import TptProto.Core.Utf8

/-! The generator's name helpers, and when two names become one. Identifiers are ASCII, as the
lexer makes them. -/

namespace TptProto.Codegen

open Compiler (splitDots splitDots_ne_nil)
open Core (isLower_iff isUpper_iff)

/-- The loop of `to_pascal`; the flag is `upper`. -/
def pascalFrom : Bool → List Char → List Char
  | _, [] => []
  | upper, c :: rest =>
    if c = '_' ∨ c = '-' then pascalFrom true rest
    else if upper then c.toUpper :: pascalFrom false rest
    else c :: pascalFrom false rest

def toPascal (s : List Char) : List Char := pascalFrom true s

def toRustTypeName (fqn : String) : String :=
  let path := match fqn.toList with
    | '.' :: rest => rest
    | other => other
  String.ofList ((splitDots path).flatMap toPascal)

/-- The loop of `to_snake`; the flag is `prev_lower`, which is not set before the first
character. -/
def snakeFrom : Bool → List Char → List Char
  | _, [] => []
  | prevLower, c :: rest =>
    if c.isUpper then
      (if prevLower then ['_'] else []) ++ c.toLower :: snakeFrom false rest
    else c :: snakeFrom (c.isLower || c.isDigit) rest

def toSnake (s : String) : String := String.ofList (snakeFrom false s.toList)

section Letters

theorem toNat_toUpper (c : Char) :
    c.toUpper.toNat = if c.isLower then c.toNat - 32 else c.toNat := by
  simp only [isLower_iff]
  unfold Char.toUpper
  split
  · rename_i lower
    rw [if_pos (by simpa [UInt32.le_iff_toNat_le] using lower)]
    simp only [UInt32.le_iff_toNat_le] at lower
    change (c.val + _).toNat = c.val.toNat - 32
    rw [UInt32.toNat_add]
    simp at lower ⊢
    omega
  · rename_i other
    rw [if_neg (by simpa [UInt32.le_iff_toNat_le] using other)]

theorem toNat_toLower (c : Char) :
    c.toLower.toNat = if c.isUpper then c.toNat + 32 else c.toNat := by
  simp only [isUpper_iff]
  unfold Char.toLower
  split
  · rename_i upper
    rw [if_pos (by simpa [UInt32.le_iff_toNat_le] using upper)]
    simp only [UInt32.le_iff_toNat_le] at upper
    change (c.val + _).toNat = c.val.toNat + 32
    rw [UInt32.toNat_add]
    simp at upper ⊢
    omega
  · rename_i other
    rw [if_neg (by simpa [UInt32.le_iff_toNat_le] using other)]

theorem toLower_toUpper (c : Char) : c.toUpper.toLower = c.toLower := by
  rw [← Char.toNat_inj]
  simp only [toNat_toLower, toNat_toUpper, isUpper_iff, isLower_iff]
  grind

theorem toUpper_toLower (c : Char) : c.toLower.toUpper = c.toUpper := by
  rw [← Char.toNat_inj]
  simp only [toNat_toLower, toNat_toUpper, isUpper_iff, isLower_iff]
  grind

theorem isUpper_toUpper (c : Char) : c.toUpper.isUpper = (c.isUpper || c.isLower) := by
  rw [Bool.eq_iff_iff]
  simp only [toNat_toUpper, isUpper_iff, isLower_iff, Bool.or_eq_true]
  grind

theorem toUpper_eq_self {c : Char} (other : c.isLower = false) : c.toUpper = c := by
  rw [← Char.toNat_inj, toNat_toUpper, other]
  rfl

theorem toLower_eq_self {c : Char} (other : c.isUpper = false) : c.toLower = c := by
  rw [← Char.toNat_inj, toNat_toLower, other]
  rfl

theorem toUpper_of_isUpper {c : Char} (upper : c.isUpper = true) : c.toUpper = c := by
  refine toUpper_eq_self (Bool.eq_false_iff.mpr fun lower => ?_)
  rw [isLower_iff] at lower
  rw [isUpper_iff] at upper
  omega

end Letters

section TypeNames

/-- What separates the words of a full name. -/
def isSeparator (c : Char) : Bool := c = '.' || c = '_' || c = '-'

/-- The letters and digits of a name without their case, each with whether it reads as a
capital letter, as the first letter of a word does. -/
def reading : Bool → List Char → List (Char × Bool)
  | _, [] => []
  | first, c :: rest =>
    if isSeparator c then reading true rest
    else (c.toLower, c.isUpper || (first && c.isLower)) :: reading false rest

/-- Two names have the same letters and digits, and the same ones read as capitals. -/
def LookAlike (a b : String) : Prop := reading true a.toList = reading true b.toList

instance (a b : String) : Decidable (LookAlike a b) := inferInstanceAs (Decidable (_ = _))

/-- The words of a name, capitalised and joined. -/
def joined : Bool → List Char → List Char
  | _, [] => []
  | first, c :: rest =>
    if isSeparator c then joined true rest
    else (if first then c.toUpper else c) :: joined false rest

private theorem joined_segments (first : Bool) (path : List Char) {segment : List Char}
    {segments : List (List Char)} (split : splitDots path = segment :: segments) :
    pascalFrom first segment ++ segments.flatMap toPascal = joined first path := by
  induction path generalizing first segment segments with
  | nil =>
    rw [splitDots] at split
    obtain ⟨rfl, rfl⟩ := List.cons.inj split
    rfl
  | cons c rest ih =>
    rw [splitDots] at split
    obtain ⟨part, parts, inner⟩ := List.exists_cons_of_ne_nil (splitDots_ne_nil rest)
    rw [inner] at split
    by_cases dot : c = '.'
    · rw [if_pos dot] at split
      obtain ⟨rfl, rfl⟩ := List.cons.inj split
      rw [joined, if_pos (by simp [isSeparator, dot]), List.flatMap_cons, ← ih true inner]
      rfl
    · rw [if_neg dot] at split
      obtain ⟨rfl, rfl⟩ := List.cons.inj split
      by_cases mark : c = '_' ∨ c = '-'
      · rw [joined, if_pos (by simpa [isSeparator, dot] using mark), pascalFrom, if_pos mark,
          ih true inner]
      · rw [joined, if_neg (by simpa [isSeparator, dot] using mark), pascalFrom, if_neg mark,
          ← ih false inner]
        cases first <;> rfl

theorem toRustTypeName_toList (fqn : String) :
    (toRustTypeName fqn).toList = joined true fqn.toList := by
  have segments : ∀ path, (splitDots path).flatMap toPascal = joined true path := by
    intro path
    obtain ⟨part, parts, inner⟩ := List.exists_cons_of_ne_nil (splitDots_ne_nil path)
    rw [inner, List.flatMap_cons, ← joined_segments true path inner]
    rfl
  rw [toRustTypeName, String.toList_ofList, segments]
  split
  · rename_i rest chars
    rw [chars]
    rfl
  · rfl

theorem joined_dot (first : Bool) (a b : List Char) :
    joined first (a ++ '.' :: b) = joined first a ++ joined true b := by
  induction a generalizing first with
  | nil => rfl
  | cons c rest ih =>
    rw [List.cons_append, joined, joined, ih true, ih false]
    split
    · rfl
    · rfl

/-- A name that is dropped altogether has separators only. -/
theorem joined_eq_nil {first : Bool} {name : List Char} :
    joined first name = [] ↔ ∀ c ∈ name, isSeparator c = true := by
  induction name generalizing first with
  | nil => simp [joined]
  | cons c rest ih =>
    rw [joined, List.forall_mem_cons]
    by_cases mark : isSeparator c
    · rw [if_pos mark, ih]
      simp [mark]
    · simp [mark]

private theorem reading_joined (first : Bool) (name : List Char) :
    reading first name = (joined first name).map fun c => (c.toLower, c.isUpper) := by
  induction name generalizing first with
  | nil => rfl
  | cons c rest ih =>
    rw [reading, joined, ih true, ih false]
    split
    · rfl
    · cases first with
      | false => rw [List.map_cons, Bool.false_and, Bool.or_false, if_neg Bool.false_ne_true]
      | true => rw [List.map_cons, Bool.true_and, if_pos rfl, toLower_toUpper, isUpper_toUpper]

private theorem joined_reading (first : Bool) (name : List Char) :
    joined first name = (reading first name).map fun x => if x.2 then x.1.toUpper else x.1 := by
  rw [reading_joined, List.map_map]
  refine (List.map_id _).symm.trans (List.map_congr_left fun c _ => ?_)
  by_cases upper : c.isUpper
  · simp [upper, toUpper_toLower, toUpper_of_isUpper]
  · simp [upper, toLower_eq_self]

/-- The generator gives two types one name exactly if their full names look alike. -/
theorem toRustTypeName_eq_iff {a b : String} :
    toRustTypeName a = toRustTypeName b ↔ LookAlike a b := by
  rw [← String.toList_inj, toRustTypeName_toList, toRustTypeName_toList, LookAlike]
  constructor
  · intro same
    rw [reading_joined, reading_joined, same]
  · intro same
    rw [joined_reading, joined_reading, same]

end TypeNames

section FieldNames

/-- The words of a field's name: one ends at each underscore, and before each capital letter
after a lower-case letter or a digit, as the flag says. -/
def words : Bool → List Char → List (List Char)
  | _, [] => [[]]
  | ends, c :: rest =>
    if c = '_' then [] :: words false rest
    else
      let begun := (words (c.isLower || c.isDigit) rest).modifyHead (c :: ·)
      if c.isUpper && ends then [] :: begun else begun

/-- Two names have the same words, but for the case of their letters. -/
def SameWords (a b : String) : Prop :=
  (words false a.toList).map (List.map Char.toLower) =
    (words false b.toList).map (List.map Char.toLower)

instance (a b : String) : Decidable (SameWords a b) := inferInstanceAs (Decidable (_ = _))

private theorem snake_words (ends : Bool) (name : List Char) :
    (snakeFrom ends name).splitOn '_' = (words ends name).map (List.map Char.toLower) := by
  induction name generalizing ends with
  | nil => rfl
  | cons c rest ih =>
    have begun : c ≠ '_' → ∀ flag, (c.toLower :: snakeFrom flag rest).splitOn '_' =
        ((words flag rest).modifyHead (c :: ·)).map (List.map Char.toLower) := by
      intro letter flag
      have kept : ¬ c.toLower = '_' := by
        rw [← Char.toNat_inj, toNat_toLower]
        rw [ne_eq, ← Char.toNat_inj] at letter
        split
        · rename_i upper
          rw [isUpper_iff] at upper
          change ¬ _ = 95
          omega
        · exact letter
      rw [List.splitOn_cons_eq_if_modifyHead, if_neg (by simpa using kept), ih]
      cases words flag rest <;> rfl
    rw [snakeFrom, words]
    by_cases mark : c = '_'
    · subst mark
      rw [if_neg (by decide), if_pos rfl, List.splitOn_cons_eq_if_modifyHead, if_pos (by decide), ih]
      rfl
    · rw [if_neg mark]
      cases upper : c.isUpper with
      | false =>
        have same := begun mark (c.isLower || c.isDigit)
        rw [toLower_eq_self upper] at same
        simpa using same
      | true =>
        have flag : (c.isLower || c.isDigit) = false := by
          rw [isUpper_iff] at upper
          have digit : c.isDigit = true ↔ 48 ≤ c.toNat ∧ c.toNat ≤ 57 := by
            simp [Char.isDigit, UInt32.le_iff_toNat_le]
          rw [Bool.or_eq_false_iff, Bool.eq_false_iff, Bool.eq_false_iff, ne_eq, ne_eq, isLower_iff,
            digit]
          omega
        rw [flag]
        cases ends with
        | false => simpa using begun mark false
        | true =>
          rw [if_pos rfl, if_pos rfl, List.cons_append, List.nil_append,
            List.splitOn_cons_eq_if_modifyHead, if_pos (by decide), begun mark false]
          rfl

/-- The generator gives two fields one name exactly if their names have the same words. -/
theorem toSnake_eq_iff {a b : String} : toSnake a = toSnake b ↔ SameWords a b := by
  rw [← String.toList_inj, toSnake, toSnake, String.toList_ofList, String.toList_ofList,
    SameWords, ← snake_words, ← snake_words]
  constructor
  · intro same
    rw [same]
  · intro same
    rw [← @List.intercalate_splitOn _ (snakeFrom false a.toList) _ _ '_', same,
      List.intercalate_splitOn]

end FieldNames

end TptProto.Codegen
