/-!
Names of types: what a capability, a factory or an annotation refers to.
-/

namespace Wiring

/-- How a type came to be, which decides how it is shown and what can be read from it. -/
inductive TypeKind where
  /-- A type that is always there. -/
  | builtin
  /-- A class declared by the application. -/
  | declared
  /-- A function used as a factory. -/
  | function
  /-- A callable whose parameters can be read but whose annotations cannot. -/
  | bare
  /-- A callable of which nothing can be read. -/
  | sealed
  deriving DecidableEq, Repr

/-- A type or factory, known by its name. -/
structure TypeRef where
  name : String
  kind : TypeKind
  deriving DecidableEq, Repr

namespace TypeRef

/-- The type of the null value. -/
def null : TypeRef := ⟨"NoneType", .builtin⟩

/-- The root of all classes, which counts as nobody's capability. -/
def root : TypeRef := ⟨"object", .builtin⟩

/-- The type of whole numbers. -/
def int : TypeRef := ⟨"int", .builtin⟩

/-- The type of texts. -/
def str : TypeRef := ⟨"str", .builtin⟩

/-- The types that are there without being declared. -/
def builtins : List TypeRef := [int, str, root]

/-- The name with the module that declares it. -/
def qualified (t : TypeRef) : String :=
  match t.kind with
  | .declared => "app." ++ t.name
  | _ => t.name

/-- The type as a printed value. -/
def shown (t : TypeRef) : String :=
  match t.kind with
  | .builtin | .declared => "<class '" ++ t.qualified ++ "'>"
  | .function => "<function " ++ t.name ++ ">"
  | .bare => "<callable " ++ t.name ++ ">"
  | .sealed => "<opaque " ++ t.name ++ ">"

/-- Whether the type is a class, whose hierarchy gives capabilities. -/
def isClass (t : TypeRef) : Bool :=
  t.kind = .builtin || t.kind = .declared

/-- The type inside a printed annotation: a class by its name. -/
def shownInside (t : TypeRef) : String :=
  if t.isClass then t.qualified else t.shown

/-- The name of the kind, as the type of the type. -/
def kindName (t : TypeRef) : String :=
  match t.kind with
  | .builtin | .declared => "type"
  | .function => "function"
  | .bare => "Callable"
  | .sealed => "Sealed"

end TypeRef

end Wiring
