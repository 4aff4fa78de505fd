import Mathlib.Data.List.DropRight

/-! White space as Unicode has it, and texts without it at their ends. -/

namespace TptProto.Foundation

/-- `char::is_whitespace`. -/
def isWhitespace (c : Char) : Bool :=
  let code := c.toNat
  (9 ≤ code && code ≤ 13) || code = 0x20 || code = 0x85 || code = 0xa0 || code = 0x1680 ||
    (0x2000 ≤ code && code ≤ 0x200a) || code = 0x2028 || code = 0x2029 || code = 0x202f ||
    code = 0x205f || code = 0x3000

/-- `str::trim_start`. -/
def trimStart (text : List Char) : List Char := text.dropWhile isWhitespace

/-- `str::trim_end`. -/
def trimEnd (text : List Char) : List Char := text.rdropWhile isWhitespace

/-- `str::trim`. -/
def trim (text : List Char) : List Char := trimEnd (trimStart text)

theorem trim_of_clean {text : List Char} (clean : ∀ c ∈ text, isWhitespace c = false) :
    trim text = text := by
  have start : trimStart text = text := by
    cases text with
    | nil => rfl
    | cons c rest =>
      exact List.dropWhile_cons_of_neg (by simp [clean c List.mem_cons_self])
  unfold trim trimEnd
  rw [start, List.rdropWhile_eq_self_iff]
  intro nonempty white
  have absent := clean _ (List.getLast_mem nonempty)
  rw [white] at absent
  cases absent

end TptProto.Foundation
