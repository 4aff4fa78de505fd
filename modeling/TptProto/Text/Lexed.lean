import TptProto.Text.Parser

/-! Every pass of the tokenizer leaves less of the text. -/

namespace TptProto.Text

open TptProto.Foundation

section Passes

variable {fmt : Formatting} {input : List Char}

private theorem unescape_shorter {e : Char} {rest added behind : List Char}
    (read : unescape e rest = .ok (added, behind)) : behind.length ≤ rest.length := by
  unfold unescape at read
  split at read
  · cases read; exact Nat.le_refl _
  split at read
  · cases read; exact Nat.le_refl _
  split at read
  · cases read; exact Nat.le_refl _
  split at read
  · cases read; exact Nat.le_refl _
  split at read
  · cases read; exact Nat.le_refl _
  split at read
  · cases read; exact Nat.le_refl _
  split at read
  · split at read
    · cases read
      rw [List.length_drop]
      omega
    · cases read; exact Nat.le_refl _
  split at read
  · cases read; exact Nat.le_refl _
  · cases read

/-- A pass over a string reads at least one character. -/
theorem scanStep_shorter {quote : Char} {s next : Scan} (more : s.more = true)
    (moved : scanStep quote s = .ok next) : next.rest.length < s.rest.length := by
  unfold scanStep at moved
  split at moved
  · rename_i empty
    simp [Scan.more, empty] at more
  · rename_i c rest same
    rw [same, List.length_cons]
    split at moved
    · cases moved
      exact Nat.lt_succ_self _
    · split at moved
      · obtain ⟨⟨added, behind⟩, read, moved⟩ := Outcome.bind_eq_ok.mp moved
        cases moved
        have short := unescape_shorter read
        simp only [List.length_cons]
        omega
      · cases moved
        exact Nat.lt_succ_self _

theorem parseString_shorter {quote : Char} {start rest behind : List Char} {text : String}
    (read : parseString input quote start rest = .ok (text, behind)) :
    behind.length ≤ rest.length := by
  obtain ⟨s, looped, read⟩ := Outcome.bind_eq_ok.mp read
  have short := (loop_invariant looped (fun s => s.rest.length ≤ rest.length) (Nat.le_refl _)
    fun s next before more moved =>
      Nat.le_trans (Nat.le_of_lt (scanStep_shorter more moved)) before).1
  split at read
  · cases read
    exact short
  · cases read

private theorem length_dropWhile_le (keep : Char → Bool) (chars : List Char) :
    (chars.dropWhile keep).length ≤ chars.length :=
  (List.dropWhile_suffix keep).length_le

/-- A pass reads at least one character. -/
theorem lexStep_shorter {s next : Lexed} (more : lexMore s = true)
    (moved : lexStep fmt input s = .ok next) : next.1.length < s.1.length := by
  unfold lexStep at moved
  split at moved
  · rename_i empty
    simp [lexMore, empty] at more
  · rename_i c rest same
    rw [same, List.length_cons]
    split at moved
    · cases moved
      exact Nat.lt_succ_self _
    split at moved
    · cases moved
      exact Nat.lt_succ_of_le (length_dropWhile_le _ rest)
    split at moved
    · cases moved
      exact Nat.lt_succ_self _
    split at moved
    · obtain ⟨⟨text, behind⟩, read, moved⟩ := Outcome.bind_eq_ok.mp moved
      cases moved
      exact Nat.lt_succ_of_le (parseString_shorter read)
    split at moved
    · rename_i isStart
      have isPart : isIdentPart c = true := by
        simp only [isIdentStart, isIdentPart, Bool.or_eq_true] at isStart ⊢
        rcases isStart with (alpha | underscore) | point
        · exact .inl (.inl (.inl alpha))
        · exact .inl (.inr underscore)
        · exact .inr point
      cases moved
      rw [same, List.dropWhile_cons_of_pos isPart]
      exact Nat.lt_succ_of_le (length_dropWhile_le _ rest)
    split at moved
    · rename_i isNumber
      have isPart : isNumberPart c = true := by
        rcases isNumber with rfl | rfl | digit
        · decide
        · decide
        · simp [isNumberPart, digit]
      obtain ⟨⟨tok, behind⟩, read, moved⟩ := Outcome.bind_eq_ok.mp moved
      cases moved
      unfold parseNumber at read
      simp only at read
      split at read
      · cases read
        rw [same, List.dropWhile_cons_of_pos isPart]
        exact Nat.lt_succ_of_le (length_dropWhile_le _ rest)
      · cases read
    · cases moved

end Passes

end TptProto.Text
