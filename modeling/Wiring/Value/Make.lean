import Wiring.Value.Whole
import Wiring.Table

/-!
What the types that are always there make of the arguments of a call.
-/

namespace Wiring.TypeRef

/-- The arguments of a call, one place for each parameter. The first `unnamed` parameters cannot be
given by their names. -/
def placed (parameters : List String) (unnamed : Nat) (arguments : List Value)
    (keywords : Table Value) : Except MakingFailure (List (Option Value)) :=
  let given := arguments.length + keywords.length
  let named := parameters.zipIdx.drop unnamed
  let foreign (name : String) : Bool := !(named.any fun p => p.1 == name)
  if parameters.length < given then
    .error (.tooMany parameters.length given arguments.isEmpty)
  else
    match named.find? fun p => p.2 < arguments.length && keywords.has p.1,
      keywords.names.find? foreign with
    | some (name, i), _ => .error (.twice name (i + 1))
    | none, some name => .error (.unknown name)
    | none, none =>
      .ok (arguments.map some ++ (parameters.drop arguments.length).map keywords.get?)

/-- The whole number that a value stands for; `typeName` names its type. -/
def makeWhole (typeName : String) (v : Value) : Except Failure Value :=
  match v.toWhole with
  | .ok n => .ok (.int n)
  | .error (.type _) => .error (.whole (.type typeName))
  | .error why => .error (.whole why)

/-- The base that a value stands for: zero, or one from two to thirty-six. -/
def acceptBase (typeName : Value → String) (v : Value) : Except MakingFailure Nat :=
  let accept (n : Int) : Except MakingFailure Nat :=
    if n = 0 || (2 ≤ n && n ≤ 36) then .ok n.toNat else .error .base
  match v with
  | .bool b => accept (if b then 1 else 0)
  | .int n => accept n
  | v => .error (.baseType (typeName v))

/-- A whole number: zero, the one that a value stands for, or one read in a base. -/
def makeInt (typeName : Value → String) : Option Value → Option Value → Except Failure Value
  | none, none => .ok (.int 0)
  | none, some _ => .error (.making int.name .nothingToRead)
  | some v, none => makeWhole (typeName v) v
  | some v, some base => do
    let base ← (acceptBase typeName base).mapError (.making int.name)
    match v with
    | .str s => return .int (← (Value.wholeOfText base s).mapError .whole)
    | _ => throw (.making int.name .notReadable)

mutual

/-- Whether a whole number in a value is too long to be written. -/
def hasLongNumber : Value → Bool
  | .int n => Nat.pow 10 Value.maxDigits ≤ n.natAbs
  | .list items | .tuple items => anyLongNumber items
  | .dict entries => anyLongEntry entries
  | _ => false

/-- Whether a whole number in several values is too long. -/
def anyLongNumber : List Value → Bool
  | [] => false
  | x :: xs => hasLongNumber x || anyLongNumber xs

/-- Whether a whole number in the entries of a dictionary is too long. -/
def anyLongEntry : List (Value × Value) → Bool
  | [] => false
  | (k, v) :: rest => hasLongNumber k || hasLongNumber v || anyLongEntry rest

end

/-- Accepts what is given for a parameter that takes texts without null characters. -/
def acceptText (typeName : Value → String) (parameter : String) :
    Option Value → Except MakingFailure Unit
  | none => .ok ()
  | some (.str s) => if s.toList.contains '\x00' then .error .nullCharacter else .ok ()
  | some .null => .error (.notText parameter Value.null.shown)
  | some v => .error (.notText parameter (typeName v))

/-- A text: the empty one, or that of a value. No value is decoded. -/
def makeText (typeName : Value → String) (object encoding errors : Option Value) :
    Except MakingFailure Value := do
  acceptText typeName "encoding" encoding
  acceptText typeName "errors" errors
  match object with
  | none => return .str ""
  | some v =>
    if encoding.isNone && errors.isNone then
      if hasLongNumber v then throw .tooLong else return .str v.text
    else
      match v with
      | .str _ => throw .decoded
      | v => throw (.notEncoded (typeName v))

/-- What a type makes of arguments. `typeName` names the types of values. -/
def make (t : TypeRef) (typeName : Value → String) (arguments : List Value)
    (keywords : Table Value) : Except Failure Value := do
  let place (parameters : List String) (unnamed : Nat) : Except Failure (List (Option Value)) :=
    (placed parameters unnamed arguments keywords).mapError (.making t.name)
  if t = int then
    let places ← place ["", "base"] 1
    makeInt typeName (places[0]?.join) (places[1]?.join)
  else if t = str then
    let places ← place ["object", "encoding", "errors"] 0
    (makeText typeName (places[0]?.join) (places[1]?.join) (places[2]?.join)).mapError
      (.making t.name)
  else if arguments.isEmpty && keywords.isEmpty then return .object t.name
  else throw (.making t.name .takesNone)

end Wiring.TypeRef
