import Wiring.Failure.Kind
import Wiring.Table

/-!
The forms of failures: what a failure of a kind is made of. A form has details that are given in
their order or by name, and details that are given by name only.
-/

namespace Wiring

/-- What a failure of a kind is made of. -/
structure Form where
  /-- The routine that takes the details. -/
  routine : String
  /-- Details that are needed, by position or by name. -/
  leading : List String
  /-- Details that are needed, by name only. -/
  required : List String := []
  /-- Details that may be left out, by name only. -/
  optional : List String := []

namespace Form

/-- The parameter for what is being made, which always has its argument. -/
def receiver : String := "self"

/-- What is wrong with a detail that is given by name, beside `byPlace` details by position. -/
def misuseOf? (form : Form) (byPlace : Nat) (name : String) : Option Misuse :=
  if name = receiver || (form.leading.take byPlace).contains name then some (.repeated name)
  else if (form.leading ++ form.required ++ form.optional).contains name then none
  else some (.unexpected name)

/-- The details that are needed and not given. -/
def lacking (form : Form) (byPlace : Nat) (names : List String) : Option Misuse :=
  let unfilled := (form.leading.drop byPlace).filter fun p => !names.contains p
  let unnamed := form.required.filter fun p => !names.contains p
  if !unfilled.isEmpty then some (.missing unfilled false)
  else if !unnamed.isEmpty then some (.missing unnamed true)
  else none

/-- The first thing that is wrong with `byPlace` details by position and those that go by
`names`. -/
def misuse? (form : Form) (byPlace : Nat) (names : List String) : Option Misuse :=
  match names.findSome? (form.misuseOf? byPlace) with
  | some why => some why
  | none =>
    if form.leading.length < byPlace then
      let named := names.filter (form.required ++ form.optional).contains
      some (.tooMany (form.leading.length + 1) (byPlace + 1) named.length)
    else form.lacking byPlace names

/-- The details of a form by their names. -/
def bind {α : Type} (form : Form) (arguments : List α) (named : Table α) :
    Except Failure (Table α) :=
  match form.misuse? arguments.length named.names with
  | some why => .error (.misuse form.routine why)
  | none => .ok (form.leading.zip arguments ++ named)

end Form

namespace FailureKind

/-- Details of every fault that may be left out. -/
def faultDetails : List String := ["phase", "service_id"]

/-- What takes the details of failures of a kind without a form: any by position, and none by
name. -/
def formless : FailureKind → String
  | refused => "InvalidDefinitionError"
  | _ => "DIForgeError"

/-- The form of failures of a kind. -/
def form? : FailureKind → Option Form
  | compilation => some ⟨"CompilationError.__init__", ["message"], [], faultDetails⟩
  | missingService =>
    some ⟨"UnresolvedReferenceError.__init__", ["message"], ["reference"], faultDetails⟩
  | missingParameter =>
    some ⟨"UnresolvedParameterError.__init__", ["message"], ["parameter"], faultDetails⟩
  | circularParameter => some ⟨"CircularParameterError.__init__", ["chain"], [], faultDetails⟩
  | circularAlias => some ⟨"CircularAliasError.__init__", ["chain"], [], []⟩
  | candidate | noCandidate | ambiguous =>
    some ⟨"_CandidateError.__init__", ["message"],
      ["service_id", "argument", "capability", "candidates"], ["phase"]⟩
  | circularServices => some ⟨"CyclicServiceGraphError.__init__", ["cycle"], [], ["phase"]⟩
  | access => some ⟨"AccessError.__init__", ["service_id"], [], []⟩
  | notFound => some ⟨"NotFoundError.__init__", ["service_id"], [], ["known"]⟩
  | _ => none

end FailureKind

end Wiring
