import Wiring.Failure.Basic

/-!
Kinds of failure, and which kinds are special cases of which.
-/

namespace Wiring

/-- A kind of failure. -/
inductive FailureKind where
  /-- Any failure of the library. -/
  | library
  | refused
  | compilation
  | missingService
  | missingParameter
  | circularParameter
  | circularAlias
  /-- Autowiring did not find exactly one service. -/
  | candidate
  | noCandidate
  | ambiguous
  | circularServices
  | access
  | notFound
  /-- A value of the wrong type. -/
  | type
  /-- A value of the right type that will not do. -/
  | value
  /-- A key that is not there. -/
  | key
  /-- A part that is not there. -/
  | part
  /-- A place beyond the end. -/
  | index
  | overflow
  | runtime
  | recursion
  | noContainer
  deriving DecidableEq, Repr

namespace FailureKind

/-- The kinds that the library has of its own. -/
def all : List FailureKind :=
  [library, refused, compilation, missingService, missingParameter, circularParameter,
    circularAlias, candidate, noCandidate, ambiguous, circularServices, access, notFound]

/-- The kind that a kind is a special case of. -/
def parent? : FailureKind → Option FailureKind
  | library => none
  | refused | compilation | access | notFound => some library
  | missingService | missingParameter | circularParameter | circularAlias | candidate
  | circularServices => some compilation
  | noCandidate | ambiguous => some candidate
  | type | value | key | part | index | overflow | runtime | recursion | noContainer => none

/-- A kind and all that it is a special case of, the narrowest first. -/
def ancestry (k : FailureKind) : List FailureKind :=
  k :: (k.parent?.map fun p =>
    p :: (p.parent?.map fun q => q :: q.parent?.toList).getD []).getD []

end FailureKind

namespace Fault

/-- The kind of a fault. -/
def kind : Fault → FailureKind
  | breach _ => .compilation
  | missingService _ _ => .missingService
  | missingParameter _ _ => .missingParameter
  | circularParameter _ => .circularParameter
  | circularAlias _ => .circularAlias
  | noCandidate _ => .noCandidate
  | ambiguous _ => .ambiguous
  | circularServices _ => .circularServices

end Fault

namespace StatedCause

/-- The kind of a fault with that cause. -/
def kind : StatedCause → FailureKind
  | compilation => .compilation
  | missingService _ => .missingService
  | missingParameter _ => .missingParameter
  | circularParameter _ => .circularParameter
  | candidate _ => .candidate
  | noCandidate _ => .noCandidate
  | ambiguous _ => .ambiguous

end StatedCause

namespace Failure

/-- The kind of a failure. -/
def kind : Failure → FailureKind
  | stated _ => .library
  | refused _ => .refused
  | fault why _ => why.kind
  | statedFault why _ => why.cause.kind
  | access _ => .access
  | notFound _ _ => .notFound
  | emptyLoop => .index
  | unknownName _ => .key
  | unhashable _ | notNumeric _ | notIterable _ | notText _ _ | misuse _ _
  | misfit _ | wordless _ => .type
  | making _ why => if why.isValueFailure then .value else .type
  | noPart _ _ | noClassPart _ _ => .part
  | whole why =>
    match why with
    | .type _ => .type
    | .text _ _ | .tooLong _ | .notANumber => .value
    | .infinite => .overflow
  | raised .runtime _ => .runtime
  | raised .value _ => .value
  | noContainer => .noContainer
  | tooDeep => .recursion

end Failure

end Wiring
