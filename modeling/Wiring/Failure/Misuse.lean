/-!
Why a call does not take its arguments.
-/

/-! ## Routines

Why a routine does not take the arguments that it is given by position and by name.
-/

namespace Wiring

/-- The first thing that is wrong with the arguments. -/
inductive Misuse where
  /-- A parameter that has an argument gets another one by its name. -/
  | repeated (parameter : String)
  /-- No parameter goes by that name. -/
  | unexpected (name : String)
  /-- More arguments by position than there are places; `named` of those that are given by name
  only are there besides. -/
  | tooMany (places given named : Nat)
  /-- Parameters that need an argument have none. -/
  | missing (parameters : List String) (byName : Bool)
  /-- Arguments by name are refused altogether. -/
  | takesNoNames
  deriving DecidableEq, Repr

namespace Misuse

/-- The ending of a word for several things. -/
def plural (n : Nat) : String := if n = 1 then "" else "s"

/-- Names in a sentence. -/
def enumerated (names : List String) : String :=
  match names.map fun name => "'" ++ name ++ "'" with
  | [a, b] => a ++ " and " ++ b
  | quoted =>
    if quoted.length < 2 then String.join quoted
    else ", ".intercalate quoted.dropLast ++ ", and " ++ quoted.getLast?.getD ""

/-- How many arguments were given, in words. -/
def given (byPlace named : Nat) : String :=
  if named = 0 then toString byPlace ++ (if byPlace = 1 then " was" else " were")
  else
    toString byPlace ++ " positional argument" ++ plural byPlace ++ " (and " ++ toString named ++
      " keyword-only argument" ++ plural named ++ ") were"

/-- The misuse of a routine in words. -/
def message (routine : String) : Misuse → String
  | repeated p => routine ++ "() got multiple values for argument '" ++ p ++ "'"
  | unexpected name => routine ++ "() got an unexpected keyword argument '" ++ name ++ "'"
  | tooMany places byPlace named =>
    routine ++ "() takes " ++ toString places ++ " positional argument" ++ plural places ++
      " but " ++ given byPlace named ++ " given"
  | missing names byName =>
    routine ++ "() missing " ++ toString names.length ++ " required " ++
      (if byName then "keyword-only" else "positional") ++ " argument" ++ plural names.length ++
      ": " ++ enumerated names
  | takesNoNames => routine ++ "() takes no keyword arguments"

end Misuse

/-! ## Types that are always there -/

/-- The first thing that is wrong with the arguments. -/
inductive MakingFailure where
  /-- There are more arguments than parameters. -/
  | tooMany (most given : Nat) (allNamed : Bool)
  /-- A parameter got an argument by its name and by its place, which counts from one. -/
  | twice (parameter : String) (place : Nat)
  /-- No parameter goes by the name of an argument. -/
  | unknown (name : String)
  /-- Arguments of any kind are refused. -/
  | takesNone
  /-- A parameter for texts got a value of another type. -/
  | notText (parameter typeName : String)
  /-- A text has a null character in it. -/
  | nullCharacter
  /-- A text is already decoded. -/
  | decoded
  /-- A value of this type cannot be decoded. -/
  | notEncoded (typeName : String)
  /-- There is a base, but nothing to read. -/
  | nothingToRead
  /-- There is a base, but what it is for is no text. -/
  | notReadable
  /-- Numbers are not written in this base. -/
  | base
  /-- A whole number is too long to be written. -/
  | tooLong
  /-- A value of this type is no base. -/
  | baseType (typeName : String)
  deriving DecidableEq, Repr

namespace MakingFailure

/-- The failure in words; `typeName` is the name of the type. -/
def message (typeName : String) : MakingFailure → String
  | tooMany most given allNamed =>
    typeName ++ "() takes at most " ++ toString most ++ (if allNamed then " keyword" else "") ++
      " arguments (" ++ toString given ++ " given)"
  | twice parameter place =>
    "argument for " ++ typeName ++ "() given by name ('" ++ parameter ++ "') and position (" ++
      toString place ++ ")"
  | unknown name => "'" ++ name ++ "' is an invalid keyword argument for " ++ typeName ++ "()"
  | takesNone => typeName ++ "() takes no arguments"
  | notText parameter given =>
    typeName ++ "() argument '" ++ parameter ++ "' must be str, not " ++ given
  | nullCharacter => "embedded null character"
  | decoded => "decoding str is not supported"
  | notEncoded given => "decoding to str: need a bytes-like object, " ++ given ++ " found"
  | nothingToRead => typeName ++ "() missing string argument"
  | notReadable => typeName ++ "() can't convert non-string with explicit base"
  | tooLong =>
    "Exceeds the limit (4300 digits) for integer string conversion; use " ++
      "sys.set_int_max_str_digits() to increase the limit"
  | base => typeName ++ "() base must be >= 2 and <= 36, or 0"
  | baseType given => "'" ++ given ++ "' object cannot be interpreted as an integer"

/-- Whether a value was of the right type but would not do. -/
def isValueFailure : MakingFailure → Bool
  | nullCharacter | tooLong | base => true
  | _ => false

end MakingFailure

end Wiring
