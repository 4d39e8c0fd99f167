import NucLlm.Whence.Value
import Mathlib.Algebra.GroupWithZero.Nat
import Mathlib.Algebra.Ring.Int.Defs

/-!
# The numbers that doubles stand for

A double is a whole multiple of `2 ^ -1074`, an infinity or not a number.
Integers and doubles are compared by the numbers they stand for.
-/

namespace NucLlm.Whence

/-- A number in units of `2 ^ -1074`. -/
inductive Exact where
  | nan
  | infinity (negative : Bool)
  | units (n : ℤ)
deriving DecidableEq

namespace Float64

def fraction (x : Float64) : ℕ := x.toNat % 2 ^ 52

def exponent (x : Float64) : ℕ := x.toNat / 2 ^ 52 % 2 ^ 11

def negative (x : Float64) : Bool := x.msb

def exact (x : Float64) : Exact :=
  if x.exponent = 2047 then
    if x.fraction = 0 then .infinity x.negative else .nan
  else
    let n : ℕ :=
      if x.exponent = 0 then x.fraction else (2 ^ 52 + x.fraction) * 2 ^ (x.exponent - 1)
    .units (if x.negative then -n else n)

end Float64

namespace Num

def exact : Num → Exact
  | .int n => .units (n * 2 ^ 1074)
  | .float x => x.exact

def isNaN (x : Num) : Bool := x.exact = .nan

/-- `x < y`. -/
def less (x y : Num) : Bool :=
  match x.exact, y.exact with
  | .units m, .units n => m < n
  | .infinity negative, .units _ => negative
  | .units _, .infinity negative => !negative
  | .infinity negative, .infinity negative' => negative && !negative'
  | _, _ => false

/-- `x == y`. -/
def equal (x y : Num) : Bool := !x.isNaN && x.exact = y.exact

theorem equal_comm (x y : Num) : x.equal y = y.equal x := by
  unfold equal isNaN
  by_cases h : x.exact = y.exact
  · simp [h]
  · have h' : y.exact ≠ x.exact := Ne.symm h
    simp [h, h']

end Num

end NucLlm.Whence
