import Wiring.Text.Printable

/-!
Texts in quotes, as messages and printed values show them. Single quotes are used unless the text
has a single quote and no double one; the quote, the backslash and every character that is not
printable are escaped.
-/

namespace Wiring.Text

/-- A number in base sixteen, filled with zeros up to `width` digits. -/
def hexadecimal (width n : Nat) : String :=
  let digits := Nat.toDigits 16 n
  String.ofList (List.replicate (width - digits.length) '0' ++ digits)

/-- One character between quotes `quote`. -/
def escapeChar (quote c : Char) : String :=
  if c = quote || c = '\\' then String.ofList ['\\', c]
  else if c = '\n' then "\\n"
  else if c = '\r' then "\\r"
  else if c = '\t' then "\\t"
  else if isPrintable c then String.singleton c
  else if c.toNat < 0x100 then "\\x" ++ hexadecimal 2 c.toNat
  else if c.toNat < 0x10000 then "\\u" ++ hexadecimal 4 c.toNat
  else "\\U" ++ hexadecimal 8 c.toNat

/-- The quote that a text is put in. -/
def quoteFor (s : String) : Char :=
  if s.toList.contains '\'' && !s.toList.contains '"' then '"' else '\''

/-- A text in quotes. -/
def quote (s : String) : String :=
  let q := quoteFor s
  String.singleton q ++ String.join (s.toList.map (escapeChar q)) ++ String.singleton q

/-- Quoted texts in brackets. -/
def quoteList (texts : List String) : String :=
  "[" ++ ", ".intercalate (texts.map quote) ++ "]"

end Wiring.Text
