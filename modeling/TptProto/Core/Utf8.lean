import TptProto.Core.Bytes

/-! Text as UTF-8, which can be cut at any ASCII byte. -/

namespace TptProto.Core

section Letters

variable {c : Char}

theorem isUpper_iff : c.isUpper = true ↔ 65 ≤ c.toNat ∧ c.toNat ≤ 90 := by
  have form : c.isUpper = decide (65 ≤ c.val ∧ c.val ≤ 90) := rfl
  rw [form, decide_eq_true_eq, UInt32.le_iff_toNat_le, UInt32.le_iff_toNat_le]
  rfl

theorem isLower_iff : c.isLower = true ↔ 97 ≤ c.toNat ∧ c.toNat ≤ 122 := by
  have form : c.isLower = (decide (97 ≤ c.val) && decide (c.val ≤ 122)) := rfl
  rw [form, Bool.and_eq_true, decide_eq_true_eq, decide_eq_true_eq, UInt32.le_iff_toNat_le,
    UInt32.le_iff_toNat_le]
  rfl

theorem isAlpha_iff : c.isAlpha = true ↔
    65 ≤ c.toNat ∧ c.toNat ≤ 90 ∨ 97 ≤ c.toNat ∧ c.toNat ≤ 122 := by
  have form : c.isAlpha = (c.isUpper || c.isLower) := rfl
  rw [form, Bool.or_eq_true, isUpper_iff, isLower_iff]

end Letters

/-- The bytes of a text. -/
def encode (chars : List Char) : List UInt8 := chars.flatMap String.utf8EncodeChar

@[simp] theorem encode_nil : encode [] = [] := rfl

@[simp] theorem encode_cons (c : Char) (chars : List Char) :
    encode (c :: chars) = String.utf8EncodeChar c ++ encode chars := rfl

@[simp] theorem encode_append (first second : List Char) :
    encode (first ++ second) = encode first ++ encode second :=
  List.flatMap_append

theorem asBytes_eq_encode (text : String) : asBytes text = encode text.toList := by
  have same := asBytes_ofList text.toList
  rwa [String.ofList_toList] at same

theorem fromUtf8_encode (chars : List Char) : fromUtf8 (encode chars) = some (String.ofList chars) := by
  rw [encode, ← asBytes_ofList, fromUtf8_asBytes]

theorem encode_inj {first second : List Char} (same : encode first = encode second) :
    first = second := by
  have decoded := fromUtf8_encode first
  rw [same, fromUtf8_encode] at decoded
  exact (String.ofList_injective (Option.some.inj decoded)).symm

/-- A character is one byte below 128, or only bytes from 128 on. -/
theorem utf8EncodeChar_cases (c : Char) :
    (c.toNat < 128 ∧ String.utf8EncodeChar c = [UInt8.ofNat c.toNat]) ∨
      (128 ≤ c.toNat ∧ String.utf8EncodeChar c ≠ [] ∧ ∀ b ∈ String.utf8EncodeChar c, 128 ≤ b) := by
  have wide (n : Nat) (low : 128 ≤ n) (high : n < 256) : (128 : UInt8) ≤ UInt8.ofNat n := by
    rw [UInt8.le_iff_toNat_le, UInt8.toNat_ofNat', Nat.mod_eq_of_lt high]
    exact low
  unfold String.utf8EncodeChar
  simp only
  split
  · rename_i small
    exact .inl ⟨Nat.lt_succ_of_le small, rfl⟩
  rename_i large
  refine .inr ⟨?_, ?_⟩
  · show 128 ≤ c.val.toNat
    omega
  split
  · refine ⟨List.cons_ne_nil _ _, ?_⟩
    simp only [List.forall_mem_cons, List.not_mem_nil, false_imp_iff, implies_true, and_true]
    exact ⟨wide _ (by omega) (by omega), wide _ (by omega) (by omega)⟩
  split
  · refine ⟨List.cons_ne_nil _ _, ?_⟩
    simp only [List.forall_mem_cons, List.not_mem_nil, false_imp_iff, implies_true, and_true]
    exact ⟨wide _ (by omega) (by omega), wide _ (by omega) (by omega), wide _ (by omega) (by omega)⟩
  · refine ⟨List.cons_ne_nil _ _, ?_⟩
    simp only [List.forall_mem_cons, List.not_mem_nil, false_imp_iff, implies_true, and_true]
    exact ⟨wide _ (by omega) (by omega), wide _ (by omega) (by omega), wide _ (by omega) (by omega),
      wide _ (by omega) (by omega)⟩

/-- Any other character than an ASCII one has two bytes or more. -/
theorem length_utf8EncodeChar_wide {c : Char} (large : 128 ≤ c.toNat) :
    2 ≤ (String.utf8EncodeChar c).length := by
  rw [String.length_utf8EncodeChar]
  have positive := Char.utf8Size_pos c
  have several : c.utf8Size ≠ 1 := by
    intro one
    have small := UInt32.le_iff_toNat_le.mp (Char.utf8Size_eq_one_iff.mp one)
    have bound : (127 : UInt32).toNat = 127 := rfl
    have same : c.val.toNat = c.toNat := rfl
    omega
  omega

theorem toNat_byteChar (b : UInt8) : (byteChar b).toNat = b.toNat := by
  have valid : b.toNat.isValidChar := .inl (by have small := b.toNat_lt; omega)
  rw [byteChar, Char.ofNat, dif_pos valid]
  rfl

/-- A text is cut at an ASCII byte into the texts before and behind one character. -/
theorem encode_cut {chars : List Char} {before behind : List UInt8} {b : UInt8} (ascii : b < 128)
    (same : encode chars = before ++ b :: behind) :
    ∃ first second, chars = first ++ byteChar b :: second ∧ encode first = before ∧
      encode second = behind := by
  induction chars generalizing before with
  | nil => simp at same
  | cons c rest ih =>
    rw [encode_cons] at same
    rcases utf8EncodeChar_cases c with ⟨small, single⟩ | ⟨_, nonempty, wide⟩
    · rw [single] at same
      cases before with
      | nil =>
        obtain ⟨rfl, rfl⟩ := List.cons.inj same
        refine ⟨[], rest, ?_, rfl, rfl⟩
        have code : (UInt8.ofNat c.toNat).toNat = c.toNat := by
          rw [UInt8.toNat_ofNat', Nat.mod_eq_of_lt (by omega)]
        rw [byteChar, code, Char.ofNat_toNat]
        rfl
      | cons other before =>
        obtain ⟨rfl, tails⟩ := List.cons.inj same
        obtain ⟨first, second, rfl, rfl, rfl⟩ := ih tails
        exact ⟨c :: first, second, rfl, by rw [encode_cons, single]; rfl, rfl⟩
    · obtain ⟨after, rfl⟩ : ∃ after, before = String.utf8EncodeChar c ++ after := by
        rcases List.append_eq_append_iff.mp same with ⟨after, rfl, _⟩ | ⟨inside, short, _⟩
        · exact ⟨after, rfl⟩
        · cases inside with
          | nil => exact ⟨[], by rw [short]; simp⟩
          | cons other inside =>
            rename_i joined
            obtain ⟨rfl, _⟩ := List.cons.inj joined
            have above := wide b (by rw [short]; simp)
            exact absurd ascii (by rw [UInt8.not_lt]; exact above)
      rw [List.append_assoc] at same
      obtain ⟨first, second, rfl, rfl, rfl⟩ := ih (List.append_cancel_left same)
      exact ⟨c :: first, second, rfl, rfl, rfl⟩

private theorem encode_byteChar {b : UInt8} (ascii : b < 128) :
    String.utf8EncodeChar (byteChar b) = [b] := by
  have small := UInt8.lt_iff_toNat_lt.mp ascii
  have bound : (128 : UInt8).toNat = 128 := rfl
  rcases utf8EncodeChar_cases (byteChar b) with ⟨_, single⟩ | ⟨large, _⟩
  · rw [single, toNat_byteChar, UInt8.ofNat_toNat]
  · rw [toNat_byteChar] at large
    omega

/-- A place where a text may be cut: at its end, or beside an ASCII byte. -/
def Edge (word behind : List UInt8) : Prop :=
  behind = [] ∨ (∃ b tail, behind = b :: tail ∧ b < 128) ∨
    ∃ front last, word = front ++ [last] ∧ last < 128

theorem encode_split {chars : List Char} {word behind : List UInt8}
    (same : encode chars = word ++ behind) (edge : Edge word behind) :
    ∃ first second, chars = first ++ second ∧ encode first = word ∧ encode second = behind := by
  rcases edge with rfl | ⟨b, tail, rfl, ascii⟩ | ⟨front, last, rfl, ascii⟩
  · exact ⟨chars, [], by simp, by rw [same, List.append_nil], rfl⟩
  · obtain ⟨first, second, rfl, rfl, rfl⟩ := encode_cut ascii same
    refine ⟨first, byteChar b :: second, rfl, rfl, ?_⟩
    rw [encode_cons, encode_byteChar ascii]
    rfl
  · rw [List.append_assoc] at same
    obtain ⟨first, second, rfl, rfl, rfl⟩ := encode_cut ascii same
    refine ⟨first ++ [byteChar last], second, by simp, ?_, rfl⟩
    rw [encode_append, encode_cons, encode_byteChar ascii]
    rfl

end TptProto.Core
