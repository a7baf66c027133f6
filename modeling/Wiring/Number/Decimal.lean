import Wiring.Number.Binary64
import Wiring.Text.Ranges

/-!
Decimal texts of floating-point numbers. Reading rounds to the nearest number, a tie going to the
even significand; writing takes the fewest digits that read back, and of those the nearest.
-/

namespace Wiring.Binary64

/-! ## Reading -/

/-- The quotient rounded to the nearest whole number, a half going to the even neighbour. -/
def roundHalfEven (numerator denominator : Nat) : Nat :=
  let q := numerator / denominator
  let r := 2 * (numerator % denominator)
  if r < denominator then q
  else if denominator < r then q + 1
  else q + q % 2

/-- The number nearest to `numerator / denominator` units. -/
def ofUnits (negative : Bool) (numerator denominator : Nat) : Binary64 :=
  let gap := spacing (numerator / denominator)
  let units := roundHalfEven numerator (denominator * gap) * gap
  if units < overflowUnits then .finite negative units else .infinite negative

/-- The number nearest to `digits · 10 ^ exponent`. Exponents far outside the finite numbers are
settled without computing the power. -/
def ofDecimal (negative : Bool) (digits : Nat) (exponent : Int) : Binary64 :=
  let top := exponent + (Nat.toDigits 10 digits).length
  if digits = 0 || top < -400 then .finite negative 0
  else if 400 < top then .infinite negative
  else if 0 ≤ exponent then
    ofUnits negative (digits * Nat.pow 10 exponent.toNat * unitsPerOne) 1
  else ofUnits negative (digits * unitsPerOne) (Nat.pow 10 (-exponent).toNat)

/-- A run of digits read as a natural number, and how many there were. -/
def readDigits (chars : List Char) : Nat × Nat × List Char :=
  let digits := chars.takeWhile Char.isDigit
  (digits.foldl (fun n c => 10 * n + (c.toNat - 48)) 0, digits.length,
    chars.dropWhile Char.isDigit)

/-- A sign, if there is one. -/
def readSign : List Char → Bool × List Char
  | '-' :: rest => (true, rest)
  | '+' :: rest => (false, rest)
  | rest => (false, rest)

/-- The exponent that ends a decimal text. -/
def readExponent? : List Char → Option Int
  | [] => some 0
  | c :: rest =>
    if c = 'e' || c = 'E' then
      let (negative, rest) := readSign rest
      match readDigits rest with
      | (_, 0, _) => none
      | (n, _, []) => some (if negative then -n else n)
      | _ => none
    else none

/-- Digits with an optional fraction and exponent. -/
def readMagnitude? (negative : Bool) (chars : List Char) : Option Binary64 := do
  let (whole, wholeCount, rest) := readDigits chars
  match rest with
  | '.' :: rest =>
    let (part, count, rest) := readDigits rest
    if wholeCount + count = 0 then none
    else
      let exponent ← readExponent? rest
      some (ofDecimal negative (whole * Nat.pow 10 count + part) (exponent - count))
  | rest =>
    if wholeCount = 0 then none
    else
      let exponent ← readExponent? rest
      some (ofDecimal negative whole exponent)

/-- The number that a text names; `mark` is the identity of what is not a number. -/
def ofText? (mark : Nat) (s : String) : Option Binary64 :=
  let (negative, rest) := readSign s.toList
  let word := String.ofList (rest.map Char.toLower)
  if word = "inf" || word = "infinity" then some (.infinite negative)
  else if word = "nan" then some (.nan mark)
  else readMagnitude? negative rest

/-! ## Writing -/

/-- The interval, in quarters of a unit, whose decimals read back as `units`. -/
def readingInterval (units : Nat) : Nat × Nat :=
  let gap := spacing units
  let below := if units = Nat.pow 2 units.log2 && 0 < lastBit units then gap else 2 * gap
  (4 * units - below, 4 * units + 2 * gap)

/-- The place `k` of the first digit: the magnitude is at least `10 ^ (k - 1)` and below
`10 ^ k`. -/
def decimalPlace (units : Nat) : Int :=
  (Nat.toDigits 10 (units * Nat.pow 10 400 / unitsPerOne)).length - 400

/-- Of `digits`-digit decimals, the one nearest to `units` that reads back, if any. -/
def nearestDecimal? (units digits : Nat) : Option Nat :=
  let shift : Int := decimalPlace units - digits
  let up := Nat.pow 10 shift.toNat
  let down := Nat.pow 10 (-shift).toNat
  -- a candidate `c` stands for `c · scale / down` quarters of a unit
  let scale := 4 * up * unitsPerOne
  let target := 4 * units * down
  let (low, high) := readingInterval units
  let even := (units / spacing units) % 2 = 0
  let hits (c : Nat) : Bool :=
    if even then low * down ≤ c * scale && c * scale ≤ high * down
    else low * down < c * scale && c * scale < high * down
  let floor := target / scale
  let below := target - floor * scale
  let above := (floor + 1) * scale - target
  let first := if below < above || (below = above && floor % 2 = 0) then floor else floor + 1
  let second := if first = floor then floor + 1 else floor
  if hits first then some first else if hits second then some second else none

/-- The fewest digits that read back as `units`, and the place of the first of them. -/
def shortestDigits (units : Nat) : List Char × Int :=
  match (List.range 17).findSome? fun n => (nearestDecimal? units (n + 1)).map (·, n + 1) with
  | some (c, count) =>
    let digits := Nat.toDigits 10 c
    ((digits.reverse.dropWhile (· == '0')).reverse,
      decimalPlace units + (digits.length - count : Int))
  | none => (['0'], 1)

/-- Exponents are written with a sign and at least two digits. -/
def exponentText (e : Int) : String :=
  let digits := toString e.natAbs
  (if e < 0 then "-" else "+") ++ (if digits.length < 2 then "0" ++ digits else digits)

/-- Digits with their point: positional from `10 ^ (-4)` up to `10 ^ 16`, else with an exponent. -/
def layOut (digits : List Char) (place : Int) : String :=
  if place < -3 || 16 < place then
    let mantissa :=
      match digits with
      | [d] => [d]
      | d :: rest => d :: '.' :: rest
      | [] => ['0']
    String.ofList mantissa ++ "e" ++ exponentText (place - 1)
  else if place ≤ 0 then
    "0." ++ String.ofList (List.replicate (-place).toNat '0' ++ digits)
  else
    let n := place.toNat
    let whole := digits.take n ++ List.replicate (n - digits.length) '0'
    let part := digits.drop n
    String.ofList whole ++ "." ++ (if part.isEmpty then "0" else String.ofList part)

/-- The text of a number. -/
def toText : Binary64 → String
  | .nan _ => "nan"
  | .infinite negative => if negative then "-inf" else "inf"
  | .finite negative units =>
    let (digits, place) := shortestDigits units
    (if negative then "-" else "") ++ (if units = 0 then "0.0" else layOut digits place)

end Wiring.Binary64
