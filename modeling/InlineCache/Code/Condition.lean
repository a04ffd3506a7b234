import InlineCache.Fault

/-!
Comparisons that branches are taken on. Doubles are compared by their bits: one sign bit, eleven
bits of exponent, then 52 of significand.
-/

namespace InlineCache

/-- A comparison of two integers, unsigned in the middle four cases and signed in the last four. -/
inductive Relation where
  | equal
  | notEqual
  | above
  | aboveOrEqual
  | below
  | belowOrEqual
  | greaterThan
  | greaterThanOrEqual
  | lessThan
  | lessThanOrEqual
deriving DecidableEq, Repr

namespace Relation

def holds {w : Nat} : Relation → BitVec w → BitVec w → Bool
  | equal, a, b => a == b
  | notEqual, a, b => a != b
  | above, a, b => b.ult a
  | aboveOrEqual, a, b => b.ule a
  | below, a, b => a.ult b
  | belowOrEqual, a, b => a.ule b
  | greaterThan, a, b => b.slt a
  | greaterThanOrEqual, a, b => b.sle a
  | lessThan, a, b => a.slt b
  | lessThanOrEqual, a, b => a.sle b

def negate : Relation → Relation
  | equal => notEqual
  | notEqual => equal
  | above => belowOrEqual
  | aboveOrEqual => below
  | below => aboveOrEqual
  | belowOrEqual => above
  | greaterThan => lessThanOrEqual
  | greaterThanOrEqual => lessThan
  | lessThan => greaterThanOrEqual
  | lessThanOrEqual => greaterThan

end Relation

inductive MaskTest where
  | zero
  | nonZero
deriving DecidableEq, Repr

namespace MaskTest

def holds {w : Nat} : MaskTest → BitVec w → Bool
  | zero, masked => masked == 0
  | nonZero, masked => masked != 0

def negate : MaskTest → MaskTest
  | zero => nonZero
  | nonZero => zero

end MaskTest

namespace Double

def magnitude (bits : Word) : Word := bits &&& 0x7FFFFFFFFFFFFFFF#64

def isNaN (bits : Word) : Bool := (0x7FF0000000000000#64).ult (magnitude bits)

/-- Equality of numbers: a NaN equals nothing, and the two zeros equal each other. -/
def equal (a b : Word) : Bool :=
  !isNaN a && !isNaN b && (a == b || (magnitude a == 0 && magnitude b == 0))

end Double

inductive DoubleTest where
  | equal
  | notEqualOrUnordered
deriving DecidableEq, Repr

def DoubleTest.holds : DoubleTest → Word → Word → Bool
  | equal, a, b => Double.equal a b
  | notEqualOrUnordered, a, b => !Double.equal a b

end InlineCache
