import TptProto.Core.Error
import TptProto.Core.Bytes
import TptProto.Foundation.Base128

/-! Base-128 varints and zigzag integers, and the numerals they denote. -/

namespace TptProto.Core

open TptProto.Foundation

def maxVarintLen : Nat := 10

/-- The pushes of `while value >= 0x80`, for at most `fuel` continued groups. -/
def encodeVarintLoop : Nat → UInt64 → List UInt8
  | 0, value => [value.toUInt8]
  | fuel + 1, value =>
    if value ≥ 0x80 then (value.toUInt8 ||| 0x80) :: encodeVarintLoop fuel (value >>> 7)
    else [value.toUInt8]

/-- The bytes `encode_varint` appends. Nine continued groups exhaust 64 bits. -/
def encodeVarint (value : UInt64) : List UInt8 := encodeVarintLoop 9 value

/-- The loop of `decode_varint` over the bytes not read yet. `offset` is `i - start`. -/
def decodeVarintLoop : List UInt8 → (offset shift : Nat) → (result : UInt64) → Result (UInt64 × Nat)
  | [], _, _, _ => .err .unexpectedEof
  | byte :: rest, offset, shift, result =>
    -- the source compares with the length itself, so this names the eleventh byte
    if offset = maxVarintLen ∧ byte &&& 0x7f > 1 then .err .varintTooLong
    else if shift ≥ 64 then .err .varintTooLong
    else
      let result := result ||| ((byte &&& 0x7f).toUInt64 <<< UInt64.ofNat shift)
      if byte &&& 0x80 = 0 then .ok (result, offset + 1)
      else decodeVarintLoop rest (offset + 1) (shift + 7) result

/-- The value at `bytes[start..]` and the number of bytes it occupies. -/
def decodeVarint (bytes : List UInt8) (start : Nat) : Result (UInt64 × Nat) :=
  decodeVarintLoop (bytes.drop start) 0 0 0

def encodeZigzag32 (value : Int32) : UInt32 := ((value <<< 1) ^^^ (value >>> 31)).toUInt32

def decodeZigzag32 (value : UInt32) : Int32 :=
  (value >>> 1).toInt32 ^^^ -(value &&& 1).toInt32

def encodeZigzag64 (value : Int64) : UInt64 := ((value <<< 1) ^^^ (value >>> 63)).toUInt64

def decodeZigzag64 (value : UInt64) : Int64 :=
  (value >>> 1).toInt64 ^^^ -(value &&& 1).toInt64

private theorem low_bits (byte : UInt8) : (byte &&& 0x7f).toNat = byte.toNat % 128 := by
  rw [UInt8.toNat_and]
  exact Nat.and_two_pow_sub_one_eq_mod byte.toNat 7

private theorem high_clear_iff (byte : UInt8) : byte &&& 0x80 = 0 ↔ byte.toNat < 128 := by
  have all : ∀ b : Fin 256, (UInt8.ofFin b) &&& 0x80 = 0 ↔ b.val < 128 := by decide +kernel
  exact all byte.toFin

/-- One group joins the groups below it without carrying. -/
private theorem accumulate (result : UInt64) (byte : UInt8) (offset : Nat) (early : offset ≤ 9)
    (below : result.toNat < 2 ^ (7 * offset)) :
    (result ||| ((byte &&& 0x7f).toUInt64 <<< UInt64.ofNat (7 * offset))).toNat =
      (result.toNat + 2 ^ (7 * offset) * (byte.toNat % 128)) % 2 ^ 64 := by
  have shift : (UInt64.ofNat (7 * offset)).toNat % 64 = 7 * offset := by
    rw [UInt64.toNat_ofNat']
    omega
  rw [UInt64.toNat_or, UInt64.toNat_shiftLeft, shift, UInt8.toNat_toUInt64, low_bits,
    Nat.shiftLeft_eq]
  have split : 2 ^ (64 : Nat) = 2 ^ (7 * offset) * 2 ^ (64 - 7 * offset) := by
    rw [← Nat.pow_add]
    congr 1
    omega
  have shifted : byte.toNat % 128 * 2 ^ (7 * offset) % 2 ^ 64 =
      2 ^ (7 * offset) * (byte.toNat % 128 % 2 ^ (64 - 7 * offset)) := by
    rw [Nat.mul_comm, split, Nat.mul_mod_mul_left]
  rw [shifted, Nat.or_comm, ← Nat.two_pow_add_eq_or_of_lt below]
  have whole : (result.toNat + 2 ^ (7 * offset) * (byte.toNat % 128)) % 2 ^ 64 =
      result.toNat + 2 ^ (7 * offset) * (byte.toNat % 128 % 2 ^ (64 - 7 * offset)) := by
    rw [split, Nat.mod_mul, Nat.add_mul_mod_self_left, Nat.mod_eq_of_lt below,
      Nat.add_mul_div_left _ _ (Nat.two_pow_pos _), Nat.div_eq_of_lt below, Nat.zero_add]
  omega

private theorem decodeVarintLoop_late {bytes : List UInt8} {offset : Nat} {result : UInt64}
    {output : UInt64 × Nat} (late : 10 ≤ offset) :
    decodeVarintLoop bytes offset (7 * offset) result ≠ .ok output := by
  cases bytes with
  | nil => simp [decodeVarintLoop]
  | cons byte rest =>
    simp only [decodeVarintLoop]
    split
    · simp
    · rw [if_pos (by omega)]
      simp

/-- The loop reads one numeral and reduces its value modulo `2 ^ 64`. -/
private theorem decodeVarintLoop_eq_ok {bytes : List UInt8} {offset count : Nat}
    {result value : UInt64} (early : offset ≤ 9) (below : result.toNat < 2 ^ (7 * offset)) :
    decodeVarintLoop bytes offset (7 * offset) result = .ok (value, count) ↔
      ∃ numeral rest denoted, bytes = numeral ++ rest ∧ Base128.Numeral numeral denoted ∧
        count = offset + numeral.length ∧ count ≤ 10 ∧
        value.toNat = (result.toNat + 2 ^ (7 * offset) * denoted) % 2 ^ 64 := by
  induction bytes generalizing offset result with
  | nil =>
    simp only [decodeVarintLoop, reduceCtorEq, false_iff]
    rintro ⟨numeral, rest, denoted, split, numeralOk, _⟩
    have positive := numeralOk.length_pos
    have empty := (List.nil_eq_append_iff.mp split).1
    simp [empty] at positive
  | cons byte tail ih =>
    have folded := accumulate result byte offset early below
    simp only [decodeVarintLoop]
    rw [if_neg (by simp only [maxVarintLen]; omega), if_neg (by omega)]
    split
    · rename_i clear
      have low := (high_clear_iff byte).mp clear
      simp only [Outcome.ok.injEq, Prod.mk.injEq]
      constructor
      · rintro ⟨rfl, rfl⟩
        refine ⟨[byte], tail, byte.toNat, rfl, .last low, rfl, by omega, ?_⟩
        rw [folded, Nat.mod_eq_of_lt low]
      · rintro ⟨numeral, rest, denoted, split, numeralOk, total, _, same⟩
        obtain ⟨sameNumeral, sameValue, _⟩ :=
          (Base128.Numeral.last low).unique numeralOk (show [byte] ++ tail = _ ++ rest from split)
        subst sameNumeral sameValue
        refine ⟨?_, by simpa using total.symm⟩
        apply UInt64.toNat_inj.mp
        rw [folded, same, Nat.mod_eq_of_lt low]
    · rename_i set
      have high : 128 ≤ byte.toNat := by
        have := mt (high_clear_iff byte).mpr set
        omega
      have payload : byte.toNat % 128 = byte.toNat - 128 := by
        have := byte.toNat_lt
        omega
      have lastOffset : offset = 9 ∨ offset + 1 ≤ 9 := by omega
      have extend (denoted : Nat) (accumulated : UInt64)
          (here : accumulated.toNat =
            (result.toNat + 2 ^ (7 * offset) * (byte.toNat % 128)) % 2 ^ 64) :
          (accumulated.toNat + 2 ^ (7 * (offset + 1)) * denoted) % 2 ^ 64 =
            (result.toNat + 2 ^ (7 * offset) * (byte.toNat - 128 + 128 * denoted)) % 2 ^ 64 := by
        rw [here, Nat.mod_add_mod, payload, Nat.mul_add 7, Nat.pow_add,
          Nat.mul_add (2 ^ (7 * offset)), Nat.add_assoc, ← Nat.mul_assoc]
      rcases lastOffset with last | next
      · subst last
        have stuck : decodeVarintLoop tail 10 (7 * 10)
            (result ||| ((byte &&& 0x7f).toUInt64 <<< UInt64.ofNat (7 * 9))) ≠ .ok (value, count) :=
          decodeVarintLoop_late (by omega)
        constructor
        · intro success
          exact absurd success stuck
        · rintro ⟨numeral, rest, denoted, split, numeralOk, total, bound, _⟩
          cases numeralOk with
          | last low =>
            simp only [List.cons_append, List.nil_append, List.cons.injEq] at split
            obtain ⟨rfl, _⟩ := split
            omega
          | more _ restOk =>
            have := restOk.length_pos
            simp only [List.length_cons] at total
            omega
      · have smaller : (result ||| ((byte &&& 0x7f).toUInt64 <<< UInt64.ofNat (7 * offset))).toNat <
            2 ^ (7 * (offset + 1)) := by
          rw [folded]
          have group : byte.toNat % 128 < 128 := Nat.mod_lt _ (by omega)
          have expand : 2 ^ (7 * (offset + 1)) = 2 ^ (7 * offset) * 128 := by
            rw [Nat.mul_add, Nat.pow_add]
          have product : 2 ^ (7 * offset) * (byte.toNat % 128) ≤ 2 ^ (7 * offset) * 127 :=
            Nat.mul_le_mul_left _ (by omega)
          have := Nat.mod_le (result.toNat + 2 ^ (7 * offset) * (byte.toNat % 128)) (2 ^ 64)
          omega
        have step := ih next smaller
        rw [show 7 * offset + 7 = 7 * (offset + 1) by omega, step]
        constructor
        · rintro ⟨numeral, rest, denoted, split, numeralOk, total, bound, same⟩
          refine ⟨byte :: numeral, rest, _, by rw [split]; rfl, .more high numeralOk, ?_, bound, ?_⟩
          · rw [total, List.length_cons]
            omega
          · rw [same, extend denoted _ folded]
        · rintro ⟨numeral, rest, denoted, split, numeralOk, total, bound, same⟩
          cases numeralOk with
          | last low =>
            simp only [List.cons_append, List.nil_append, List.cons.injEq] at split
            obtain ⟨rfl, _⟩ := split
            omega
          | @more byte' numeral' denoted' high' restOk =>
            simp only [List.cons_append, List.cons.injEq] at split
            obtain ⟨rfl, splitTail⟩ := split
            refine ⟨numeral', rest, denoted', splitTail, restOk, ?_, bound, ?_⟩
            · rw [total, List.length_cons]
              omega
            · rw [same, extend denoted' _ folded]

/-- `decode_varint` reads the numeral at the position, of at most ten bytes,
and returns its value modulo `2 ^ 64`. -/
theorem decodeVarint_eq_ok_iff {bytes : List UInt8} {start count : Nat} {value : UInt64} :
    decodeVarint bytes start = .ok (value, count) ↔
      ∃ numeral rest denoted, bytes.drop start = numeral ++ rest ∧
        Base128.Numeral numeral denoted ∧ count = numeral.length ∧ count ≤ 10 ∧
        value.toNat = denoted % 2 ^ 64 := by
  have loop : decodeVarintLoop (bytes.drop start) 0 (7 * 0) 0 = .ok (value, count) ↔ _ :=
    decodeVarintLoop_eq_ok (by omega) (by decide)
  simpa [decodeVarint] using loop

theorem decodeVarint_bounds {bytes : List UInt8} {start count : Nat} {value : UInt64}
    (success : decodeVarint bytes start = .ok (value, count)) :
    0 < count ∧ count ≤ 10 ∧ start + count ≤ bytes.length := by
  obtain ⟨numeral, rest, denoted, split, numeralOk, rfl, bound, _⟩ :=
    decodeVarint_eq_ok_iff.mp success
  have positive := numeralOk.length_pos
  have total := congrArg List.length split
  rw [List.length_drop, List.length_append] at total
  exact ⟨positive, bound, by omega⟩

private theorem decodeVarintLoop_returns {bytes : List UInt8} {offset shift : Nat}
    {result : UInt64} : (decodeVarintLoop bytes offset shift result).Returns := by
  induction bytes generalizing offset shift result with
  | nil => trivial
  | cons byte tail ih =>
    simp only [decodeVarintLoop]
    split
    · trivial
    · split
      · trivial
      · split
        · trivial
        · exact ih

theorem decodeVarint_returns {bytes : List UInt8} {start : Nat} :
    (decodeVarint bytes start).Returns := decodeVarintLoop_returns

private theorem encodeVarintLoop_numeral (fuel : Nat) (value : UInt64)
    (fits : value.toNat < 128 ^ (fuel + 1)) :
    Base128.Numeral (encodeVarintLoop fuel value) value.toNat ∧
      (encodeVarintLoop fuel value).length = Base128.size value.toNat := by
  have last (low : value.toNat < 128) : Base128.Numeral [value.toUInt8] value.toNat ∧
      [value.toUInt8].length = Base128.size value.toNat := by
    have byte : value.toUInt8.toNat = value.toNat := by
      rw [UInt64.toNat_toUInt8]
      omega
    rw [Base128.size, if_pos low]
    exact ⟨byte ▸ .last (byte ▸ low), rfl⟩
  induction fuel generalizing value with
  | zero => exact last (by simpa using fits)
  | succ fuel ih =>
    have compare : value ≥ 0x80 ↔ 128 ≤ value.toNat := UInt64.le_iff_toNat_le
    rw [encodeVarintLoop]
    split
    · rename_i large
      have high := compare.mp large
      have shifted : (value >>> 7).toNat = value.toNat / 128 := by
        rw [UInt64.toNat_shiftRight]
        simp [Nat.shiftRight_eq_div_pow]
      have byte : (value.toUInt8 ||| 0x80).toNat = value.toNat % 128 + 128 := by
        have all : ∀ b : Fin 256, ((UInt8.ofFin b) ||| 0x80).toNat = b.val % 128 + 128 := by
          decide +kernel
        have here := all value.toUInt8.toFin
        have low : value.toUInt8.toFin.val = value.toNat % 256 := UInt64.toNat_toUInt8 value
        rw [low] at here
        exact here.trans (by omega)
      have smaller : (value >>> 7).toNat < 128 ^ (fuel + 1) := by
        rw [shifted, Nat.div_lt_iff_lt_mul (by omega)]
        rwa [Nat.pow_succ] at fits
      obtain ⟨numeral, length⟩ := ih (value >>> 7) smaller (fun low => by
        have byte : (value >>> 7).toUInt8.toNat = (value >>> 7).toNat := by
          rw [UInt64.toNat_toUInt8]
          omega
        rw [Base128.size, if_pos low]
        exact ⟨byte ▸ .last (byte ▸ low), rfl⟩)
      constructor
      · have continued : 128 ≤ (value.toUInt8 ||| 0x80).toNat := by omega
        have whole := Base128.Numeral.more continued numeral
        have denoted : (value.toUInt8 ||| 0x80).toNat - 128 + 128 * (value >>> 7).toNat =
            value.toNat := by
          rw [byte, shifted]
          omega
        exact denoted ▸ whole
      · rw [List.length_cons, length, shifted, Base128.size.eq_1 value.toNat, if_neg (by omega)]
        omega
    · rename_i small
      exact last (by have := mt compare.mpr small; omega)

theorem encodeVarint_numeral (value : UInt64) :
    Base128.Numeral (encodeVarint value) value.toNat :=
  (encodeVarintLoop_numeral 9 value (Nat.lt_trans value.toNat_lt (by decide))).1

/-- The encoder is minimal. -/
theorem encodeVarint_length (value : UInt64) :
    (encodeVarint value).length = Base128.size value.toNat :=
  (encodeVarintLoop_numeral 9 value (Nat.lt_trans value.toNat_lt (by decide))).2

theorem encodeVarint_length_bounds (value : UInt64) :
    0 < (encodeVarint value).length ∧ (encodeVarint value).length ≤ 10 := by
  rw [encodeVarint_length]
  exact ⟨Base128.size_pos _,
    Base128.size_le_of_lt_pow (Nat.lt_trans value.toNat_lt (by decide))⟩

/-- Decoding reads back an encoded value whatever bytes follow it. -/
theorem decodeVarint_encodeVarint {bytes rest : List UInt8} {start : Nat} (value : UInt64)
    (here : bytes.drop start = encodeVarint value ++ rest) :
    decodeVarint bytes start = .ok (value, (encodeVarint value).length) :=
  decodeVarint_eq_ok_iff.mpr ⟨encodeVarint value, rest, value.toNat, here,
    encodeVarint_numeral value, rfl, (encodeVarint_length_bounds value).2,
    (Nat.mod_eq_of_lt value.toNat_lt).symm⟩

private theorem sshiftRight_last {w : Nat} (x : BitVec (w + 1)) :
    x.sshiftRight w = if x.msb then BitVec.allOnes (w + 1) else 0 := by
  ext i bound
  rw [BitVec.getElem_sshiftRight]
  by_cases first : i = 0
  · subst first
    cases sign : x.msb <;> simpa [BitVec.msb_eq_getLsbD_last] using sign
  · cases sign : x.msb <;> simp [show ¬ (w + i < w + 1) by omega]

private theorem and_one_eq {w : Nat} {x : BitVec (w + 1)} (bit : Bool)
    (low : x.getLsbD 0 = bit) : x &&& 1 = if bit then 1 else 0 := by
  subst low
  ext i bound
  cases i <;> cases low : x[0] <;> simp [low]

/-- Zigzag at any width: the sign mask that encoding applies is the one the low
bit of the encoding gives back. -/
private theorem zigzag_bits {w : Nat} (x : BitVec (w + 1)) :
    (((x <<< 1) ^^^ x.sshiftRight w) >>> 1) ^^^ -(((x <<< 1) ^^^ x.sshiftRight w) &&& 1) = x := by
  have top : x[w] = x.msb := by simp [BitVec.msb_eq_getLsbD_last]
  rw [sshiftRight_last]
  cases sign : x.msb with
  | false =>
    rw [and_one_eq false (by simp)]
    ext i bound
    by_cases last : i = w
    · subst last
      simp [top, sign]
    · simp [show 1 + i < w + 1 by omega]
  | true =>
    rw [and_one_eq true (by simp)]
    ext i bound
    by_cases last : i = w
    · subst last
      simp [BitVec.neg_one_eq_allOnes, top, sign]
    · simp [BitVec.neg_one_eq_allOnes, show 1 + i < w + 1 by omega]

@[simp] theorem decodeZigzag32_encodeZigzag32 (value : Int32) :
    decodeZigzag32 (encodeZigzag32 value) = value := by
  apply Int32.toBitVec_inj.mp
  simp only [decodeZigzag32, encodeZigzag32, Int32.toBitVec_xor, Int32.toBitVec_neg]
  exact zigzag_bits (w := 31) value.toBitVec

@[simp] theorem decodeZigzag64_encodeZigzag64 (value : Int64) :
    decodeZigzag64 (encodeZigzag64 value) = value := by
  apply Int64.toBitVec_inj.mp
  simp only [decodeZigzag64, encodeZigzag64, Int64.toBitVec_xor, Int64.toBitVec_neg]
  exact zigzag_bits (w := 63) value.toBitVec

end TptProto.Core

/-! What `decode_varint` accepts against what the encoding defines: they differ in the tenth
byte alone. -/

namespace TptProto.Core

open TptProto.Foundation

/-- At the position stands a terminated varint of at most ten bytes that denotes the value itself. -/
structure VarintAt (bytes : List UInt8) (start : Nat) (value : UInt64) (count : Nat) : Prop where
  terminated : ∃ numeral rest, bytes.drop start = numeral ++ rest ∧
    Base128.Numeral numeral value.toNat ∧ numeral.length = count
  short : count ≤ maxVarintLen

/-- Nine bytes that continue and a tenth. -/
structure TenthByte (bytes : List UInt8) (start : Nat) (tenth : UInt8) : Prop where
  split : ∃ groups rest, bytes.drop start = groups ++ tenth :: rest ∧ groups.length = 9 ∧
    ∀ byte ∈ groups, 128 ≤ byte.toNat

/-- Decoding at the position accepts varints and nothing else. -/
structure DecodesExactly (bytes : List UInt8) (start : Nat) : Prop where
  exact : ∀ value count, decodeVarint bytes start = .ok (value, count) ↔
    VarintAt bytes start value count
  rejects : ∀ tenth, TenthByte bytes start tenth → 2 ≤ tenth.toNat →
    ∃ error, decodeVarint bytes start = .err error

variable {bytes : List UInt8} {start : Nat}

/-- A varint denotes a word unless its tenth byte has more than the lowest bit. -/
private theorem fits_of_tenth {numeral rest : List UInt8} {denoted : Nat}
    (whole : bytes.drop start = numeral ++ rest) (numeralOk : Base128.Numeral numeral denoted)
    (short : numeral.length ≤ 10)
    (usual : ∀ tenth, TenthByte bytes start tenth → tenth.toNat < 128 → tenth.toNat < 2) :
    denoted < 2 ^ 64 := by
  by_cases ten : numeral.length = 10
  · obtain ⟨groups, last, rfl, high, low⟩ := numeralOk.groups
    have nine : groups.length = 9 := by simpa using ten
    obtain ⟨below, small, same⟩ := Base128.numeral_of_groups high low
    have itself : (groups ++ [last]) ++ ([] : List UInt8) = (groups ++ [last]) ++ [] := rfl
    obtain ⟨_, rfl, _⟩ := numeralOk.unique same itself
    have bit := usual last ⟨groups, rest, by simpa using whole, nine, high⟩ low
    rw [nine] at small ⊢
    have : 128 ^ 9 * last.toNat ≤ 128 ^ 9 * 1 := Nat.mul_le_mul_left _ (by omega)
    omega
  · calc denoted < 128 ^ numeral.length := numeralOk.value_lt
      _ ≤ 128 ^ 9 := Nat.pow_le_pow_right (by omega) (by omega)
      _ < 2 ^ 64 := by decide

/-- A varint whose tenth byte adds to its lowest bit is too large for a word. -/
private theorem tenth_large {tenth : UInt8} (ten : TenthByte bytes start tenth)
    (low : tenth.toNat < 128) (large : 2 ≤ tenth.toNat) :
    ∃ numeral rest denoted, bytes.drop start = numeral ++ rest ∧
      Base128.Numeral numeral denoted ∧ numeral.length = 10 ∧ 2 ^ 64 ≤ denoted := by
  obtain ⟨groups, rest, whole, nine, high⟩ := ten
  obtain ⟨below, _, numeral⟩ := Base128.numeral_of_groups high low
  refine ⟨_, rest, _, by simpa using whole, numeral, by simp [nine], ?_⟩
  rw [nine]
  have : 128 ^ 9 * 2 ≤ 128 ^ 9 * tenth.toNat := Nat.mul_le_mul_left _ large
  omega

/-- Ten bytes that continue are no varint. -/
private theorem tenth_continues {tenth : UInt8} (ten : TenthByte bytes start tenth)
    (high : 128 ≤ tenth.toNat) (value : UInt64) (count : Nat) :
    decodeVarint bytes start ≠ .ok (value, count) := by
  intro success
  obtain ⟨numeral, rest, denoted, whole, numeralOk, rfl, short, _⟩ := decodeVarint_eq_ok_iff.mp success
  obtain ⟨groups, rest', whole', nine, continued⟩ := ten
  obtain ⟨init, last, rfl, _, low⟩ := numeralOk.groups
  have all : ∀ byte ∈ groups ++ [tenth], 128 ≤ byte.toNat := by
    simpa [or_imp, forall_and] using ⟨continued, high⟩
  have same : (init ++ [last]) ++ rest = (groups ++ [tenth]) ++ rest' := by
    rw [← whole, whole', List.append_assoc, List.singleton_append]
  have within : init.length < (groups ++ [tenth]).length := by
    simp only [List.length_append, List.length_singleton] at short ⊢
    omega
  have member : last ∈ groups ++ [tenth] := by
    have here := congrArg (fun list => list[init.length]?) same
    rw [List.append_assoc, List.getElem?_append_right (Nat.le_refl _),
      List.getElem?_append_left within, Nat.sub_self] at here
    exact List.mem_of_getElem? here.symm
  have := all last member
  omega

private theorem varintAt_of_numeral {numeral rest : List UInt8} {value : UInt64} {denoted count : Nat}
    (whole : bytes.drop start = numeral ++ rest) (numeralOk : Base128.Numeral numeral denoted)
    (reading : VarintAt bytes start value count) : denoted = value.toNat ∧ numeral.length = count := by
  obtain ⟨⟨numeral', rest', whole', numeralOk', rfl⟩, _⟩ := reading
  obtain ⟨rfl, rfl, _⟩ := numeralOk.unique numeralOk' (whole.symm.trans whole')
  exact ⟨rfl, rfl⟩

/-- Decoding is exact just where no tenth byte ends a varint with more than its lowest bit. -/
private theorem decodesExactly_iff : DecodesExactly bytes start ↔
    ∀ tenth, TenthByte bytes start tenth → tenth.toNat < 128 → tenth.toNat < 2 := by
  constructor
  · intro exactly tenth ten low
    refine Nat.lt_of_not_le fun large => ?_
    obtain ⟨numeral, rest, denoted, whole, numeralOk, length, beyond⟩ := tenth_large ten low large
    have read : decodeVarint bytes start = .ok (UInt64.ofNat denoted, numeral.length) :=
      decodeVarint_eq_ok_iff.mpr ⟨numeral, rest, denoted, whole, numeralOk, rfl, by omega,
        UInt64.toNat_ofNat'⟩
    have same := (varintAt_of_numeral whole numeralOk ((exactly.exact _ _).mp read)).1
    have := (UInt64.ofNat denoted).toNat_lt
    omega
  · intro usual
    constructor
    · intro value count
      rw [decodeVarint_eq_ok_iff]
      constructor
      · rintro ⟨numeral, rest, denoted, whole, numeralOk, rfl, short, same⟩
        rw [Nat.mod_eq_of_lt (fits_of_tenth whole numeralOk short usual)] at same
        exact ⟨⟨numeral, rest, whole, same ▸ numeralOk, rfl⟩, short⟩
      · rintro ⟨⟨numeral, rest, whole, numeralOk, rfl⟩, short⟩
        exact ⟨numeral, rest, _, whole, numeralOk, rfl, short, (Nat.mod_eq_of_lt value.toNat_lt).symm⟩
    · intro tenth ten large
      have high : 128 ≤ tenth.toNat := by
        refine Nat.le_of_not_lt fun low => ?_
        have := usual tenth ten low
        omega
      have returns : (decodeVarint bytes start).Returns := decodeVarint_returns
      cases read : decodeVarint bytes start with
      | ok result => exact absurd read (tenth_continues ten high result.1 result.2)
      | err error => exact ⟨error, rfl⟩
      | panic | outOfFuel =>
        rw [read] at returns
        exact returns.elim

/-- What is encoded is read back; decoding accepts exactly the varints at a position if and only
if no varint of ten bytes there ends in a byte above one. -/
theorem decodeVarint_exact_iff (value : UInt64) (rest bytes : List UInt8) (start : Nat) :
    decodeVarint (encodeVarint value ++ rest) 0 = .ok (value, (encodeVarint value).length) ∧
    (DecodesExactly bytes start ↔
      ∀ tenth, TenthByte bytes start tenth → tenth.toNat < 128 → tenth.toNat < 2) :=
  ⟨decodeVarint_encodeVarint value rfl, decodesExactly_iff⟩

/-- A tenth byte of two is read as if it were not there. -/
theorem not_decodeVarint_exact :
    decodeVarint [0x80, 0x80, 0x80, 0x80, 0x80, 0x80, 0x80, 0x80, 0x80, 2] 0 = .ok (0, 10) ∧
      ¬ DecodesExactly [0x80, 0x80, 0x80, 0x80, 0x80, 0x80, 0x80, 0x80, 0x80, 2] 0 := by
  refine ⟨rfl, fun exactly => ?_⟩
  have high : ∀ byte ∈ List.replicate 9 (0x80 : UInt8), 128 ≤ byte.toNat := fun byte member => by
    rw [List.eq_of_mem_replicate member]
    decide
  obtain ⟨error, failed⟩ := exactly.rejects 2 ⟨List.replicate 9 0x80, [], rfl, rfl, high⟩ (by decide)
  cases failed

end TptProto.Core
