import Wiring.Failure.Stated
import Wiring.Failure.Misuse
import Wiring.Text.Lowercase

/-!
All failures of the library, and of the application's own code that runs inside it.
-/

namespace Wiring

/-- The kinds of failure that application code raises by itself. -/
inductive RaisedKind where
  | runtime
  | value
  deriving DecidableEq, Repr

/-- A failed conversion of a value to a whole number. -/
inductive WholeFailure where
  | type (typeName : String)
  | text (base : Nat) (given : String)
  | tooLong (digits : Nat)
  | infinite
  | notANumber
  deriving DecidableEq, Repr

/-- A failure. -/
inductive Failure where
  /-- A failure of the library without a kind of its own. -/
  | stated (message : String)
  | refused (why : Refusal)
  | fault (why : Fault) (phase : Option Phase)
  /-- A fault that an application states. -/
  | statedFault (why : StatedFault) (phase : Option Phase)
  /-- A fault was stated in words that are a value of this type, and no text. -/
  | wordless (typeName : String)
  /-- A private service was asked for from outside. -/
  | access (id : Value)
  /-- Nothing goes by this identifier; `known` are the identifiers there are. -/
  | notFound (id : Value) (known : List String)
  /-- A loop without members has no first one to report. -/
  | emptyLoop
  /-- A value of this type cannot be a key or a member of a set. -/
  | unhashable (typeName : String)
  /-- A value of this type has no opposite, so it cannot be ranked by. -/
  | notNumeric (typeName : String)
  /-- A value of this type yields no items. -/
  | notIterable (typeName : String)
  /-- A routine does not take the arguments that it is given. -/
  | misuse (routine : String) (why : Misuse)
  /-- A type that is always there makes nothing of arguments. -/
  | making (typeName : String) (why : MakingFailure)
  /-- Nothing goes by a name that is looked up in a table. -/
  | unknownName (name : String)
  /-- An item that should be a text is a value of this type. -/
  | notText (place : Nat) (typeName : String)
  /-- A thing of this type has no part of that name. -/
  | noPart (typeName part : String)
  /-- A class has no part of that name. -/
  | noClassPart (name part : String)
  | whole (why : WholeFailure)
  /-- A factory was called with arguments that do not fit. -/
  | misfit (why : Misfit)
  /-- Application code failed. -/
  | raised (kind : RaisedKind) (message : String)
  /-- A container was asked for before anything was compiled. -/
  | noContainer
  /-- Application code nests deeper than is allowed. -/
  | tooDeep
  deriving Repr

namespace WholeFailure

/-- The failed conversion in words. -/
def message : WholeFailure → String
  | type typeName =>
    "int() argument must be a string, a bytes-like object or a real number, not '" ++ typeName ++
      "'"
  | text base given =>
    "invalid literal for int() with base " ++ toString base ++ ": " ++
      String.ofList ((Text.quote given).toList.take 200)
  | tooLong digits =>
    "Exceeds the limit (4300 digits) for integer string conversion: value has " ++
      toString digits ++ " digits; use sys.set_int_max_str_digits() to increase the limit"
  | infinite => "cannot convert float infinity to integer"
  | notANumber => "cannot convert float NaN to integer"

end WholeFailure

namespace Failure

/-- Sorted by code points, smaller texts first. -/
def sortTexts (texts : List String) : List String :=
  texts.mergeSort fun a b => decide (a ≤ b)

/-- Whether `part` occurs in `whole`. -/
def occursIn (part : List Char) : List Char → Bool
  | [] => part.isEmpty
  | c :: rest => part.isPrefixOf (c :: rest) || occursIn part rest

/-- The known identifiers that contain the wanted one, whatever their case. -/
def suggestions (id : String) (known : List String) : List String :=
  sortTexts <| known.filter fun k =>
    occursIn (Text.lowercase id).toList (Text.lowercase k).toList

/-- The failure in words. -/
def message : Failure → String
  | stated m => m
  | refused why => why.message
  | fault why phase => why.message phase
  | statedFault why phase => why.message phase
  | wordless typeName => "__str__ returned non-string (type " ++ typeName ++ ")"
  | access id =>
    "Service '" ++ id.text ++ "' is private and cannot be fetched from the container."
  | notFound id known =>
    let close := suggestions id.text known
    "Service '" ++ id.text ++ "' is not defined." ++
      (if close.isEmpty then "" else " Did you mean one of " ++ Text.quoteList close ++ "?")
  | emptyLoop => "tuple index out of range"
  | unhashable typeName => "unhashable type: '" ++ typeName ++ "'"
  | notNumeric typeName => "bad operand type for unary -: '" ++ typeName ++ "'"
  | notIterable typeName => "'" ++ typeName ++ "' object is not iterable"
  | notText place typeName =>
    "sequence item " ++ toString place ++ ": expected str instance, " ++ typeName ++ " found"
  | noPart typeName name =>
    "'" ++ typeName ++ "' object has no attribute '" ++ name ++ "'"
  | noClassPart name part =>
    "type object '" ++ name ++ "' has no attribute '" ++ part ++ "'"
  | misuse routine why => why.message routine
  | making typeName why => why.message typeName
  | unknownName name => Text.quote name
  | whole why => why.message
  | misfit why => why.message
  | raised _ m => m
  | noContainer => "nothing compiled yet"
  | tooDeep => "maximum recursion depth exceeded"

/-- The failure for a loop of aliases, which is reported for its first member. -/
def aliasLoop (chain : List String) : Failure :=
  if chain.isEmpty then .emptyLoop else .fault (.circularAlias chain) none

/-- The failure of a compilation, its phase left open. -/
def breach (why : Breach) : Failure := .fault (.breach why) none

/-- The failure with its phase filled in, where it is a fault whose phase is open. -/
def withPhase (phase : Phase) : Failure → Failure
  | .fault why none => .fault why (some phase)
  | .statedFault why none => .statedFault why (some phase)
  | f => f

/-- The failure for a value of which a part is asked for that it does not have. -/
def lacking (v : Value) (part : String) : Failure :=
  match v with
  | .type t => if t.isClass then .noClassPart t.name part else .noPart t.kindName part
  | v => .noPart v.typeName part

end Failure

end Wiring
