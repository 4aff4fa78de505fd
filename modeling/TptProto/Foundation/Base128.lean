import Mathlib.Algebra.GroupWithZero.Nat

/-! Base-128 numerals: seven payload bits a byte, least significant group
first, every byte but the last with its high bit set. -/

namespace TptProto.Foundation.Base128

/-- `bytes` is a terminated numeral denoting `value`; leading zero groups are allowed. -/
inductive Numeral : List UInt8 → Nat → Prop where
  | last {byte : UInt8} (low : byte.toNat < 128) : Numeral [byte] byte.toNat
  | more {byte : UInt8} {bytes : List UInt8} {value : Nat} (high : 128 ≤ byte.toNat)
      (rest : Numeral bytes value) :
      Numeral (byte :: bytes) (byte.toNat - 128 + 128 * value)

theorem Numeral.length_pos (numeral : Numeral bytes value) : 0 < bytes.length := by
  cases numeral <;> simp

/-- A numeral of `n` bytes stays below `128 ^ n`. -/
theorem Numeral.value_lt (numeral : Numeral bytes value) : value < 128 ^ bytes.length := by
  induction numeral with
  | last low => simpa using low
  | @more byte bytes value high rest ih =>
    have bound := byte.toNat_lt
    rw [List.length_cons, Nat.pow_succ]
    omega

/-- Bytes that continue and a byte that ends are a numeral, led by its last group. -/
theorem numeral_of_groups {groups : List UInt8} {last : UInt8}
    (high : ∀ byte ∈ groups, 128 ≤ byte.toNat) (low : last.toNat < 128) :
    ∃ below, below < 128 ^ groups.length ∧
      Numeral (groups ++ [last]) (below + 128 ^ groups.length * last.toNat) := by
  induction groups with
  | nil => exact ⟨0, by simp, by simpa using Numeral.last low⟩
  | cons byte groups ih =>
    obtain ⟨below, small, rest⟩ := ih fun other member => high other (by simp [member])
    have bound := byte.toNat_lt
    refine ⟨byte.toNat - 128 + 128 * below, ?_, ?_⟩
    · rw [List.length_cons, Nat.pow_succ]
      omega
    · have whole := Numeral.more (high byte (by simp)) rest
      rwa [Nat.mul_add, ← Nat.add_assoc, ← Nat.mul_assoc, ← Nat.pow_succ'] at whole

/-- All bytes of a numeral but the last continue. -/
theorem Numeral.groups (numeral : Numeral bytes value) :
    ∃ groups last, bytes = groups ++ [last] ∧ (∀ byte ∈ groups, 128 ≤ byte.toNat) ∧
      last.toNat < 128 := by
  induction numeral with
  | @last byte low => exact ⟨[], byte, rfl, by simp, low⟩
  | @more byte bytes value high rest ih =>
    obtain ⟨groups, last, rfl, continued, low⟩ := ih
    exact ⟨byte :: groups, last, rfl, List.forall_mem_cons.mpr ⟨high, continued⟩, low⟩

/-- Numerals are self-delimiting: of two that start one input, neither is longer. -/
theorem Numeral.unique (first : Numeral bytes value) (second : Numeral bytes' value')
    (same : bytes ++ rest = bytes' ++ rest') : bytes = bytes' ∧ value = value' ∧ rest = rest' := by
  induction first generalizing bytes' value' with
  | last low =>
    cases second with
    | last low' =>
      simp only [List.cons_append, List.nil_append, List.cons.injEq] at same
      obtain ⟨rfl, rfl⟩ := same
      exact ⟨rfl, rfl, rfl⟩
    | more high' _ =>
      simp only [List.cons_append, List.nil_append, List.cons.injEq] at same
      obtain ⟨rfl, _⟩ := same
      omega
  | more high tail ih =>
    cases second with
    | last low' =>
      simp only [List.cons_append, List.nil_append, List.cons.injEq] at same
      obtain ⟨rfl, _⟩ := same
      omega
    | more high' tail' =>
      simp only [List.cons_append, List.cons.injEq] at same
      obtain ⟨rfl, sameTail⟩ := same
      obtain ⟨rfl, rfl, rfl⟩ := ih tail' sameTail
      exact ⟨rfl, rfl, rfl⟩

/-- The number of groups the shortest numeral of a value needs. -/
def size (value : Nat) : Nat := if value < 128 then 1 else 1 + size (value / 128)

theorem size_pos (value : Nat) : 0 < size value := by
  rw [size]
  split <;> omega

/-- No numeral of a value is shorter than its size. -/
theorem Numeral.size_le (numeral : Numeral bytes value) : size value ≤ bytes.length := by
  induction numeral with
  | last low =>
    rw [size, if_pos low]
    simp
  | @more byte bytes value high rest ih =>
    have bound := byte.toNat_lt
    rw [size]
    split
    · simp
    · have group : (byte.toNat - 128 + 128 * value) / 128 = value := by omega
      rw [group, List.length_cons]
      omega

theorem size_le_of_lt_pow : ∀ {n value : Nat}, value < 128 ^ (n + 1) → size value ≤ n + 1
  | 0, value, bound => by
    exact Nat.le_of_eq (by rw [size, if_pos (by simpa using bound)])
  | n + 1, value, bound => by
    rw [size]
    split
    · omega
    · have smaller : value / 128 < 128 ^ (n + 1) := by
        rw [Nat.div_lt_iff_lt_mul (by omega)]
        rwa [Nat.pow_succ] at bound
      have := size_le_of_lt_pow smaller
      omega

theorem size_mono {small large : Nat} (ordered : small ≤ large) : size small ≤ size large := by
  induction large using Nat.strongRecOn generalizing small with
  | ind large ih =>
    rw [size, size.eq_1 large]
    split
    · split <;> omega
    · rw [if_neg (by omega)]
      have := ih (large / 128) (by omega) (Nat.div_le_div_right ordered : small / 128 ≤ large / 128)
      omega

end TptProto.Foundation.Base128
