import Wiring.Parameter.Bag

/-!
Settings as parameters. A tree of settings becomes one parameter per leaf, named by the path of
field names with dots between them. Percent signs are doubled, so that no placeholder is seen in
what was configured.
-/

namespace Wiring

/-- A model of settings, or the value of one of its fields. -/
inductive Setting where
  | leaf (value : Value)
  | model (fields : List (String × Setting))

namespace Setting

/-- A text with its percent signs doubled. -/
def escapeText (s : String) : String :=
  String.ofList (s.toList.flatMap fun c => if c = '%' then ['%', '%'] else [c])

mutual

/-- A value in which every text has its percent signs doubled, dictionary keys included. -/
def escape : Value → Value
  | .str s => .str (escapeText s)
  | .list items => .list (escapeAll items)
  | .tuple items => .tuple (escapeAll items)
  | .dict entries => .dict (escapeEntries [] entries)
  | v => v

/-- The items of a list or tuple. -/
def escapeAll : List Value → List Value
  | [] => []
  | x :: xs => escape x :: escapeAll xs

/-- The entries of a dictionary, put in after the entries `done`. -/
def escapeEntries (done : List (Value × Value)) : List (Value × Value) → List (Value × Value)
  | [] => done
  | (k, v) :: rest => escapeEntries (Value.putEntry done (escape k) (escape v)) rest

end

/-- The name of a field below `path`. -/
def fieldName (path field : String) : String :=
  if path = "" then field else path ++ "." ++ field

mutual

/-- The parameters of a setting at `path`, put in after the parameters `done`. -/
def flattenFrom (path : String) (done : Table Value) : Setting → Table Value
  | .leaf v => done.put path (escape v)
  | .model fields => flattenFields path done fields

/-- The parameters of the fields of a model at `path`. -/
def flattenFields (path : String) (done : Table Value) :
    List (String × Setting) → Table Value
  | [] => done
  | (field, setting) :: rest =>
    flattenFields path (flattenFrom (fieldName path field) done setting) rest

end

/-- The parameters of settings, in field order. -/
def flatten (path : String) (settings : Setting) : Table Value :=
  flattenFrom path [] settings

end Setting

/-- What can be handed over as settings. -/
inductive SettingsSource where
  /-- Settings, or the class that makes them. -/
  | settings (isClass : Bool) (tree : Setting)
  /-- Anything else, known by the name of its type. -/
  | other (typeName : String)

namespace SettingsSource

/-- Whether the source is a class of settings. -/
def isSettingsClass : SettingsSource → Bool
  | .settings isClass _ => isClass
  | .other _ => false

/-- The parameters that a source provides below `path`. -/
def parameters (source : SettingsSource) (available : Bool) (path : String) :
    Except Failure (Table Value) :=
  if !available then .error (.refused .settingsUnavailable)
  else
    match source with
    | .settings _ tree => .ok (tree.flatten path)
    | .other typeName => .error (.refused (.settings typeName))

/-- Loads settings below `path` into a bag, parameter by parameter: the bag as it is left, and the
parameters that were loaded. -/
def load (source : SettingsSource) (available : Bool) (path : String) (bag : Bag) :
    Bag × Except Failure (Table Value) :=
  match source.parameters available path with
  | .error e => (bag, .error e)
  | .ok parameters =>
    let (bag, result) := bag.setAll (parameters.map fun (name, v) => (.str name, v))
    (bag, result.map fun _ => parameters)

end SettingsSource

end Wiring
