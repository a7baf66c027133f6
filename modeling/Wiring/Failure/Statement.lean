import Wiring.Failure.Form
import Wiring.Value.Sequence

/-!
Failures as an application makes them: from a kind and from the details that it hands over.
-/

namespace Wiring

/-- A detail that is handed over for a failure. -/
inductive Detail where
  | value (value : Value)
  | phase (phase : Phase)

/-- What an application hands over for a failure. -/
structure Statement where
  kind : FailureKind
  /-- The arguments by position. -/
  arguments : List Value := []
  /-- The details by name. -/
  details : Table Detail := []

/-- The details of a failure by their names. -/
abbrev Details := Table Detail

namespace Details

/-- The value of a detail, which is null where nothing is given. -/
def value (details : Details) (name : String) : Value :=
  match Table.get? details name with
  | some (.value v) => v
  | _ => .null

/-- The phase, where one is given. -/
def phase? (details : Details) : Option Phase :=
  match Table.get? details "phase" with
  | some (.phase p) => some p
  | _ => none

/-- The service that a failure concerns. -/
def service (details : Details) : Value := details.value "service_id"

/-- A fault that is stated in words. These must be a text unless details are added to them. -/
def fault (details : Details) (cause : StatedCause) : Except Failure Failure :=
  let words := details.value "message"
  let fault : StatedFault := ⟨cause, words, details.service⟩
  match words, details.phase?, fault.shownService? with
  | .str _, _, _ | _, some _, _ | _, _, some _ => .ok (.statedFault fault details.phase?)
  | v, none, none => .error (.wordless v.typeName)

/-- What is stated about a search. -/
def search (details : Details) : Except Failure StatedSearch := do
  return ⟨details.value "argument", details.value "capability",
    ← (details.value "candidates").items⟩

/-- The value as a text whose case can be folded. -/
def foldable : Value → Except Failure String
  | .str s => .ok s
  | v => .error (.lacking v "lower")

/-- The known identifiers. Where there are any the wanted one must be a text as well. -/
def knownIds (details : Details) : Except Failure (List String) :=
  if Table.has details "known" then do
    (← (details.value "known").items).mapM fun id => do
      discard (foldable details.service)
      foldable id
  else .ok []

/-- The failure of a kind with a form that the details make. -/
def failure (details : Details) (kind : FailureKind) : Except Failure Failure := do
  match kind with
  | .missingService => details.fault (.missingService (details.value "reference"))
  | .missingParameter => details.fault (.missingParameter (details.value "parameter"))
  | .circularParameter =>
    let chain ← (details.value "chain").texts
    return .statedFault (.ofLoop chain details.service) details.phase?
  | .circularAlias =>
    match Failure.aliasLoop (← (details.value "chain").texts) with
    | .emptyLoop => throw .emptyLoop
    | e => return e
  | .candidate => details.fault (.candidate (← details.search))
  | .noCandidate => details.fault (.noCandidate (← details.search))
  | .ambiguous => details.fault (.ambiguous (← details.search))
  | .circularServices =>
    return .fault (.circularServices (← (details.value "cycle").texts)) details.phase?
  | .access => return .access details.service
  | .notFound => return .notFound details.service (← details.knownIds)
  | _ => details.fault .compilation

end Details

namespace Statement

/-- The words of a failure that has none of its own: those of its only argument, or of all. -/
def words (s : Statement) : String :=
  match s.arguments with
  | [] => ""
  | [v] => v.text
  | vs => (Value.tuple vs).shown

/-- The failure that is made. -/
def failure (s : Statement) : Except Failure Failure := do
  match s.kind.form? with
  | some form =>
    let details ← form.bind (s.arguments.map .value) s.details
    Details.failure details s.kind
  | none =>
    if !s.details.isEmpty then throw (.misuse s.kind.formless .takesNoNames)
    return if s.kind = .refused then .refused (.stated s.words) else .stated s.words

end Statement

end Wiring
