import Wiring.Container.Basic
import Wiring.Graph.Components
import Wiring.Tag.Index
import Wiring.Note

/-!
What scripts answer, and what happens while they run.
-/

namespace Wiring.Script

/-- The answer of a step. -/
inductive Answer where
  | nothing
  | flag (b : Bool)
  | count (n : Nat)
  | text (s : String)
  | texts (items : List String)
  | value (v : Value)
  | values (items : List Value)
  | numbers (items : List Number)
  | pairs (entries : Table Value)
  | bag (bag : Bag)
  /-- The names of a bag's parameters, and how many there are. -/
  | names (items : List String)
  | definition (d : Option Definition)
  | definitions (items : List Definition)
  | arguments (items : List Argument)
  | graph (g : Graph)
  | oneAlias (a : Alias)
  | aliases (items : List Alias)
  | tag (t : Tag)
  | tags (items : List Label)
  | tagged (items : List (String × Table Value))
  | entries (items : List Tagged)
  /-- Services with their priorities. -/
  | ranking (items : List (String × Value))
  | index (entries : Table (List Tagged))
  | rule (r : TagRule)
  | rules (items : List TagRule)
  | edges (edges : EdgeMap)
  | components (numbers : Table Nat)
  | plan (plan : ServicePlan)
  /-- Services that provide a capability, and those that do so by default. -/
  | offers (providers defaults : List String)
  /-- Parameters that autowiring may fill, and the names of the annotated ones. -/
  | inspection (parameters : List Parameter) (annotated : List String)
  | scheduled (name : String) (phase : Phase) (priority : Int) (sequence : Nat)
  | schedule (items : List (String × Phase × Int × Nat))
  /-- The graph that a pipeline hands back, and whether it is the one that it got. -/
  | pipelineRun (same : Bool) (g : Graph)
  | orders (items : Table (List String))
  /-- A handle as it is shown, and what it stands for. -/
  | handle (shown : String) (product : Value)

namespace Answer

/-- The labels of the definitions that an answer shows, in the order in which it shows them. -/
def labels : Answer → List Label
  | .definition d => (d.map Definition.labels).getD []
  | .definitions ds => ds.flatMap Definition.labels
  | .arguments as => Argument.labelsAll as
  | .graph g | .pipelineRun _ g => g.definitions.flatMap Definition.labels
  | .tags ls => ls
  | _ => []

/-- An answer can be shown where all tags in it have all their parts. -/
def checkShown (a : Answer) : Except Failure Unit :=
  a.labels.forM fun l => discard l.parts

end Answer

/-- What happens while a script runs. -/
inductive Event where
  /-- A factory handed back a value. -/
  | call (factory : String)
  /-- A factory built the `n`-th object. -/
  | build (n : Nat) (factory : String) (arguments : List Value) (keywords : Table Value)
  | pass (name : String)
  | step (answer : Answer)
  | provider (name : String) (alters : Bool)
  | log (note : Note)

end Wiring.Script
