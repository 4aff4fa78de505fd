import TptProto.Foundation.Ieee

/-! Rust's primitive numeric types, its `as` casts, and expressions of one variable
built from casts and calls. An expression that type-checks always has a value. -/

namespace TptProto.Foundation

inductive Prim where
  | i32
  | i64
  | u32
  | u64
  | f32
  | f64
  | bool
  deriving DecidableEq, Repr

/-- Floats are bit patterns. -/
inductive Val where
  | i32 (value : Int32)
  | i64 (value : Int64)
  | u32 (value : UInt32)
  | u64 (value : UInt64)
  | f32 (bits : UInt32)
  | f64 (bits : UInt64)
  | bool (value : Bool)
  deriving DecidableEq, Repr

namespace Val

def prim : Val → Prim
  | .i32 _ => .i32
  | .i64 _ => .i64
  | .u32 _ => .u32
  | .u64 _ => .u64
  | .f32 _ => .f32
  | .f64 _ => .f64
  | .bool _ => .bool

def asI32 : Val → Int32
  | .i32 v => v
  | .i64 v => v.toInt32
  | .u32 v => v.toInt32
  | .u64 v => v.toUInt32.toInt32
  | .f32 bits => Int32.ofInt (Ieee.truncate32 (-2 ^ 31) (2 ^ 31 - 1) bits)
  | .f64 bits => Int32.ofInt (Ieee.truncate64 (-2 ^ 31) (2 ^ 31 - 1) bits)
  | .bool v => if v then 1 else 0

def asI64 : Val → Int64
  | .i32 v => v.toInt64
  | .i64 v => v
  | .u32 v => v.toUInt64.toInt64
  | .u64 v => v.toInt64
  | .f32 bits => Int64.ofInt (Ieee.truncate32 (-2 ^ 63) (2 ^ 63 - 1) bits)
  | .f64 bits => Int64.ofInt (Ieee.truncate64 (-2 ^ 63) (2 ^ 63 - 1) bits)
  | .bool v => if v then 1 else 0

def asU32 : Val → UInt32
  | .i32 v => v.toUInt32
  | .i64 v => v.toUInt64.toUInt32
  | .u32 v => v
  | .u64 v => v.toUInt32
  | .f32 bits => UInt32.ofNat (Ieee.truncate32 0 (2 ^ 32 - 1) bits).toNat
  | .f64 bits => UInt32.ofNat (Ieee.truncate64 0 (2 ^ 32 - 1) bits).toNat
  | .bool v => if v then 1 else 0

def asU64 : Val → UInt64
  | .i32 v => v.toInt64.toUInt64
  | .i64 v => v.toUInt64
  | .u32 v => v.toUInt64
  | .u64 v => v
  | .f32 bits => UInt64.ofNat (Ieee.truncate32 0 (2 ^ 64 - 1) bits).toNat
  | .f64 bits => UInt64.ofNat (Ieee.truncate64 0 (2 ^ 64 - 1) bits).toNat
  | .bool v => if v then 1 else 0

/-- `self as target`. Casts to floats and to booleans are left out. -/
def cast? (target : Prim) (self : Val) : Option Val :=
  match target with
  | .i32 => some (.i32 self.asI32)
  | .i64 => some (.i64 self.asI64)
  | .u32 => some (.u32 self.asU32)
  | .u64 => some (.u64 self.asU64)
  | .f32 | .f64 | .bool => none

/-- `self != 0`, which a boolean does not support. -/
def nonzero? : Val → Option Val
  | .i32 v => some (.bool (v != 0))
  | .i64 v => some (.bool (v != 0))
  | .u32 v => some (.bool (v != 0))
  | .u64 v => some (.bool (v != 0))
  | .f32 _ | .f64 _ | .bool _ => none

end Val

/-- A function of one argument, which keeps to its signature. -/
structure Fn where
  param : Prim
  result : Prim
  apply : Val → Val
  typed : ∀ v, v.prim = param → (apply v).prim = result

/-- Expressions of one variable, with calls to functions named by paths. -/
inductive Expr (Path : Type) where
  | var
  | cast (operand : Expr Path) (target : Prim)
  | nonzero (operand : Expr Path)
  | call (path : Path) (argument : Expr Path)
  deriving DecidableEq, Repr

namespace Expr

variable {Path : Type} (scope : Path → Option Fn)

/-- The type of an expression, if it has one where the paths in scope resolve. -/
def typeOf (var : Prim) : Expr Path → Option Prim
  | .var => some var
  | .cast operand target => do
    let _ ← operand.typeOf var
    if target = .i32 ∨ target = .i64 ∨ target = .u32 ∨ target = .u64 then some target else none
  | .nonzero operand => do
    let source ← operand.typeOf var
    if source = .f32 ∨ source = .f64 ∨ source = .bool then none else some .bool
  | .call path argument => do
    let source ← argument.typeOf var
    let fn ← scope path
    if source = fn.param then some fn.result else none

def eval (v : Val) : Expr Path → Option Val
  | .var => some v
  | .cast operand target => do
    let x ← operand.eval v
    x.cast? target
  | .nonzero operand => do
    let x ← operand.eval v
    x.nonzero?
  | .call path argument => do
    let x ← argument.eval v
    let fn ← scope path
    if x.prim = fn.param then some (fn.apply x) else none

end Expr

end TptProto.Foundation
