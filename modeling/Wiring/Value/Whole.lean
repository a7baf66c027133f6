import Wiring.Failure.Basic

/-!
Whole numbers from values, as priorities are given: fractions are cut off, truth values count as
zero and one, and texts are read in a base, which is ten unless another one is asked for.
-/

/-! ## Numerals

Numerals: natural numbers written in a base from two to thirty-six, with single underscores between
digits. Some bases have a mark that may stand in front.
-/

namespace Wiring.Numeral

/-- The value of a digit. Letters count on from ten, whatever their case. -/
def digit? (c : Char) : Option Nat :=
  if '0' ≤ c && c ≤ '9' then some (c.toNat - 48)
  else if 'a' ≤ c && c ≤ 'z' then some (c.toNat - 87)
  else if 'A' ≤ c && c ≤ 'Z' then some (c.toNat - 55)
  else none

/-- Whether a character is a digit of a base. -/
def isDigit (base : Nat) (c : Char) : Bool := (digit? c).any (· < base)

/-- Digits, and what may stand between them. -/
def isDigitOrJoint (base : Nat) (c : Char) : Bool := isDigit base c || c = '_'

/-- The digits of a text in which single underscores may stand between digits. -/
def digits? (base : Nat) : List Char → Option (List Char)
  | [] => none
  | [c] => if isDigit base c then some [c] else none
  | c :: d :: rest =>
    if !isDigit base c then none
    else if d = '_' then (digits? base rest).map (c :: ·)
    else (digits? base (d :: rest)).map (c :: ·)

/-- The number that digits stand for. -/
def value (base : Nat) (digits : List Char) : Nat :=
  digits.foldl (fun n c => base * n + (digit? c).getD 0) 0

/-- The base that a letter after a zero marks. -/
def markedBase? (c : Char) : Option Nat :=
  if c = 'x' || c = 'X' then some 16
  else if c = 'o' || c = 'O' then some 8
  else if c = 'b' || c = 'B' then some 2
  else none

/-- The base that a text is written in: the one that its mark says, or ten. -/
def baseOf : List Char → Nat
  | '0' :: c :: _ => (markedBase? c).getD 10
  | _ => 10

/-- A text without the mark of the base, after which an underscore may stand. -/
def unmarked (base : Nat) : List Char → List Char
  | '0' :: c :: rest =>
    if markedBase? c = some base then
      match rest with
      | '_' :: rest => rest
      | rest => rest
    else '0' :: c :: rest
  | chars => chars

end Wiring.Numeral

/-! ## Whole numbers -/

namespace Wiring.Value

/-- Blanks around the text of a whole number. -/
def isPadding (c : Char) : Bool :=
  c.toNat = 32 || (9 ≤ c.toNat && c.toNat ≤ 13)

/-- Brings digits and blanks of other scripts into their plain form, and anything else beyond the
plain characters into a question mark. A text of plain characters alone is left as it is. -/
def plainDigits (chars : List Char) : List Char :=
  if chars.all fun c => c.toNat < 128 then chars
  else chars.map fun c =>
    if c.toNat < 127 then c
    else if Text.isBlank c then ' '
    else ((Text.digit? c).map fun d => Char.ofNat (48 + d)).getD '?'

/-- The most digits that are read. -/
def maxDigits : Nat := 4300

/-- The bases in which any number of digits is read. -/
def unlimitedBases : List Nat := [2, 4, 8, 16, 32]

/-- A whole number from its text. The base zero stands for the one that the text is marked with; a
text without a mark then starts with a zero only if it stands for zero. Too many digits are refused
before what follows them is seen. -/
def wholeOfText (base : Nat) (s : String) : Except WholeFailure Int :=
  let (negative, rest) := Binary64.readSign ((plainDigits s.toList).dropWhile isPadding)
  let writtenBase := if base = 0 then Numeral.baseOf rest else base
  let numeral := Numeral.unmarked writtenBase rest
  match Numeral.digits? writtenBase (numeral.takeWhile (Numeral.isDigitOrJoint writtenBase)) with
  | none => .error (.text base s)
  | some digits =>
    if maxDigits < digits.length && !unlimitedBases.contains writtenBase then
      .error (.tooLong digits.length)
    else
      let n := Numeral.value writtenBase digits
      let zeroes := base = 0 && writtenBase = 10 && rest.head? = some '0'
      if (zeroes && n != 0) ||
          !(numeral.dropWhile (Numeral.isDigitOrJoint writtenBase)).all isPadding then
        .error (.text base s)
      else .ok (if negative then -(n : Int) else n)

/-- The whole number that a value stands for. -/
def toWhole : Value → Except WholeFailure Int
  | .bool b => .ok (if b then 1 else 0)
  | .int n => .ok n
  | .real (.finite negative units) =>
    let n : Int := (units / Binary64.unitsPerOne : Nat)
    .ok (if negative then -n else n)
  | .real (.infinite _) => .error .infinite
  | .real (.nan _) => .error .notANumber
  | .str s => wholeOfText 10 s
  | v => .error (.type v.typeName)

end Wiring.Value
