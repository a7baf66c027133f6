import Wiring.Text.Quoted

/-!
Why arguments do not fit a signature.
-/

namespace Wiring

/-- The first way in which arguments do not fit. -/
inductive Misfit where
  | tooManyPositional
  | multipleValues (parameter : String)
  | positionalOnly (parameter : String)
  | missing (parameter : String)
  | unexpectedKeyword (name : String)
  deriving DecidableEq, Repr

namespace Misfit

/-- The misfit in words. -/
def message : Misfit → String
  | tooManyPositional => "too many positional arguments"
  | multipleValues p => "multiple values for argument " ++ Text.quote p
  | positionalOnly p =>
    Text.quote p ++ " parameter is positional only, but was passed as a keyword"
  | missing p => "missing a required argument: " ++ Text.quote p
  | unexpectedKeyword n => "got an unexpected keyword argument " ++ Text.quote n

end Misfit

end Wiring
