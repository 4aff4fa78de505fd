import Mathlib.Algebra.GroupWithZero.Nat
import TptProto.Foundation.Outcome

/-! Errors and decode limits of the wire-format runtime. -/

namespace TptProto.Core

open TptProto.Foundation

inductive Error where
  | unexpectedEof
  | varintTooLong
  | invalidTag (tag : UInt32)
  | lengthLimitExceeded (len : Nat)
  | utf8Error (offset : Nat)
  | integerOverflow
  | unterminatedGroup (field : UInt32)
  | depthLimitExceeded
  | limitExceeded (which : String)
  | unexpectedWireType (found : UInt8)
  | malformedInput (what : String)
  | custom (message : String)
  deriving DecidableEq, Repr

abbrev Result := Outcome Error

structure DecoderLimits where
  maxBytes : Option Nat
  maxDepth : UInt32
  maxFields : Option Nat
  maxLengthDelimited : Option Nat
  maxStringLen : Option Nat
  maxUnknownBytes : Option Nat
  deriving DecidableEq, Repr

namespace DecoderLimits

def default : DecoderLimits where
  maxBytes := some (64 * 1024 * 1024)
  maxDepth := 100
  maxFields := some 1000000
  maxLengthDelimited := some (16 * 1024 * 1024)
  maxStringLen := some (16 * 1024 * 1024)
  maxUnknownBytes := some (16 * 1024 * 1024)

def unlimited : DecoderLimits where
  maxBytes := none
  maxDepth := 4294967295
  maxFields := none
  maxLengthDelimited := none
  maxStringLen := none
  maxUnknownBytes := none

/-- Whether an amount is within an optional cap. -/
def within (cap : Option Nat) (amount : Nat) : Bool :=
  match cap with
  | some most => amount ≤ most
  | none => true

/-- The shape shared by all checks: an amount over its cap names that limit. -/
def check (cap : Option Nat) (which : String) (amount : Nat) : Result Unit :=
  if within cap amount then .ok () else .err (.limitExceeded which)

def checkBytes (limits : DecoderLimits) (total : Nat) : Result Unit :=
  check limits.maxBytes "max_bytes" total

def checkField (limits : DecoderLimits) (count : Nat) : Result Unit :=
  check limits.maxFields "max_fields" count

def checkLength (limits : DecoderLimits) (len : Nat) : Result Unit :=
  check limits.maxLengthDelimited "max_length_delimited" len

def checkString (limits : DecoderLimits) (len : Nat) : Result Unit :=
  check limits.maxStringLen "max_string_len" len

def checkUnknown (limits : DecoderLimits) (total : Nat) : Result Unit :=
  check limits.maxUnknownBytes "max_unknown_bytes" total

@[simp] theorem check_eq_ok {cap : Option Nat} {which : String} {amount : Nat} {result : Unit} :
    check cap which amount = .ok result ↔ within cap amount = true := by
  unfold check
  split <;> simp_all

theorem check_returns {cap : Option Nat} {which : String} {amount : Nat} :
    (check cap which amount).Returns := by
  unfold check
  split <;> trivial

theorem within_mono {cap : Option Nat} {small large : Nat} (ordered : small ≤ large)
    (fits : within cap large = true) : within cap small = true := by
  cases cap with
  | none => rfl
  | some most =>
    simp only [within, decide_eq_true_eq] at fits ⊢
    omega

/-- The limits bound what a length-delimited value can hold. -/
def Bounded (limits : DecoderLimits) : Prop :=
  ∀ n, within limits.maxLengthDelimited n = true → n < 2 ^ 63

theorem default_bounded : default.Bounded := by
  intro n admitted
  simp only [default, within, decide_eq_true_eq] at admitted
  omega

end DecoderLimits

end TptProto.Core
