/-!
Binary floating-point numbers of 64 bits, held exactly. Every finite one is a whole multiple of
the least positive number, so its magnitude is a natural number of such units and no operation
rounds.
-/

namespace Wiring

/-- A floating-point number. -/
inductive Binary64 where
  /-- The number of magnitude `units · 2 ^ (-1074)`; zero has both signs. -/
  | finite (negative : Bool) (units : Nat)
  | infinite (negative : Bool)
  /-- Not a number. It equals itself only as the same object, which `mark` stands for. -/
  | nan (mark : Nat)
  deriving DecidableEq, Repr, Inhabited

namespace Binary64

/-- The exponent of the unit, negated. -/
def unitScale : Nat := 1074

/-- How many units there are in the number one. -/
def unitsPerOne : Nat := Nat.pow 2 unitScale

/-- The bits of a significand. -/
def precision : Nat := 53

/-- The magnitude, in units, at which the finite numbers end. -/
def overflowUnits : Nat := Nat.pow 2 (1024 + unitScale)

/-- The exponent, in units, of the last bit of a magnitude. -/
def lastBit (units : Nat) : Nat := units.log2 + 1 - precision

/-- The distance, in units, from a magnitude to the next one. -/
def spacing (units : Nat) : Nat := Nat.pow 2 (lastBit units)

end Binary64

/-- A place on the number line, its two ends included; finite places are counted in units. -/
inductive Level where
  | lowest
  | at (units : Int)
  | highest
  deriving DecidableEq, Repr

namespace Level

/-- The strict order of the number line. -/
def lt : Level → Level → Bool
  | .highest, _ => false
  | _, .lowest => false
  | .lowest, _ => true
  | _, .highest => true
  | .at a, .at b => a < b

end Level

/-- A number as priorities and comparisons see it. -/
inductive Number where
  | whole (n : Int)
  | real (x : Binary64)
  deriving DecidableEq, Repr

namespace Number

/-- The place of a number; none for what is not a number. -/
def level? : Number → Option Level
  | .whole n => some (.at (n * Binary64.unitsPerOne))
  | .real (.finite negative units) => some (.at (if negative then -units else units))
  | .real (.infinite negative) => some (if negative then .lowest else .highest)
  | .real (.nan _) => none

/-- The exact order; nothing is below or above what is not a number. -/
def lt : Number → Number → Bool
  | .whole a, .whole b => a < b
  | a, b =>
    match a.level?, b.level? with
    | some x, some y => x.lt y
    | _, _ => false

/-- Equality by value, except that what is not a number equals itself alone. -/
def eqv : Number → Number → Bool
  | .whole a, .whole b => a == b
  | .real (.nan a), .real (.nan b) => a == b
  | a, b =>
    match a.level?, b.level? with
    | some x, some y => x == y
    | _, _ => false

/-- Whether the number is not a number. -/
def isNaN (a : Number) : Bool := a.level?.isNone

end Number

end Wiring
