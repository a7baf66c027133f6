import Wiring.Text.Ranges
import Wiring.Value.Dict

/-!
Substitution of parameters in values. A text that is one placeholder becomes the parameter's value
with its own type; in longer texts placeholders become the texts of their values. Lists, tuples and
dictionaries are substituted part by part, and substituted text is never scanned again.
-/

/-! ## Placeholders

Placeholders in texts. `%name%` stands for a parameter, `%%` for a percent sign; a percent sign
that opens neither stands for itself. A name has no percent sign and no blank.
-/

namespace Wiring

/-- A part of a text with placeholders. -/
inductive Piece where
  | char (c : Char)
  /-- A percent sign written twice. -/
  | percent
  | placeholder (name : String)
  deriving DecidableEq, Repr

namespace Piece

/-- The pieces of a text. `opened` holds, last character first, what follows a percent sign that
may open a placeholder. -/
def scan : Option (List Char) → List Char → List Piece
  | none, [] => []
  | none, c :: rest => if c = '%' then scan (some []) rest else char c :: scan none rest
  | some opened, [] => char '%' :: opened.reverse.map char
  | some opened, c :: rest =>
    if c = '%' then
      if opened.isEmpty then percent :: scan none rest
      else placeholder (String.ofList opened.reverse) :: scan none rest
    else if Text.isBlank c then
      char '%' :: opened.reverse.map char ++ char c :: scan none rest
    else scan (some (c :: opened)) rest

/-- The pieces of a text. -/
def ofText (s : String) : List Piece :=
  scan none s.toList

end Piece

/-! ## Substitution -/

/-- The text that a value has inside a longer text, if it has a place there. -/
def Value.interpolated? : Value → Option String
  | .str s => some s
  | v => (v.number?).map fun _ => v.text

namespace Value

variable {m : Type → Type} [Monad m] [MonadExceptOf Failure m] (lookup : String → m Value)

/-- The text of one piece of `whole`. -/
def substitutePiece (whole : String) : Piece → m String
  | .char c => pure (String.singleton c)
  | .percent => pure "%"
  | .placeholder name => do
    let v ← lookup name
    match v.interpolated? with
    | some s => pure s
    | none =>
      throw (.fault (.missingParameter name (.interpolation v.typeName whole)) none)

/-- A text with its placeholders substituted. -/
def substituteText (s : String) : m Value :=
  match Piece.ofText s with
  | [.placeholder name] => lookup name
  | pieces => do
    let parts ← pieces.mapM (substitutePiece lookup s)
    return .str (String.join parts)

mutual

/-- A value with the placeholders in it substituted by what `lookup` gives. -/
def substitute : Value → m Value
  | .str s => substituteText lookup s
  | .list items => do return .list (← substituteAll items)
  | .tuple items => do return .tuple (← substituteAll items)
  | .dict entries => do return .dict (← substituteEntries [] entries)
  | v => pure v

/-- The items of a list or tuple, in order. -/
def substituteAll : List Value → m (List Value)
  | [] => pure []
  | x :: xs => do
    let y ← substitute x
    return y :: (← substituteAll xs)

/-- The entries of a dictionary, each key before its value, put in after the entries `done`. -/
def substituteEntries (done : List (Value × Value)) :
    List (Value × Value) → m (List (Value × Value))
  | [] => pure done
  | (k, v) :: rest => do
    let key ← substitute k
    let value ← substitute v
    match key.unhashable? with
    | some typeName => throw (.unhashable typeName)
    | none => substituteEntries (putEntry done key value) rest

end

end Value

end Wiring
