import Wiring.Factory.Basic
import Wiring.Factory.WrittenHint

/-!
Declarations of types, and the catalog of factories that they make.
-/

/-! ## Lineages

The order of method resolution of a class: itself, then its ancestors, each class before its own
bases and the bases in their declared order. It merges the orders of the bases.
-/

namespace Wiring.Lineage

variable {α : Type} [BEq α]

/-- A candidate may come next when no order holds it behind another class. -/
def isFree (orders : List (List α)) (candidate : α) : Bool :=
  orders.all fun order => !order.tail.contains candidate

/-- The first class that may come next. -/
def next? (orders : List (List α)) : Option α :=
  (orders.filterMap List.head?).find? (isFree orders)

/-- The orders with a class taken off their fronts. -/
def advance (orders : List (List α)) (taken : α) : List (List α) :=
  orders.map fun order => if order.head? == some taken then order.tail else order

/-- Merges orders into one of at most `size` classes; stops where no class may come next. -/
def merge : (size : Nat) → List (List α) → List α
  | 0, _ => []
  | size + 1, orders =>
    match next? orders with
    | some c => c :: merge size (advance orders c)
    | none => []

/-- The order of a class with the given bases, whose own orders are `orders`. -/
def ofBases (self : α) (bases : List α) (orders : List (List α)) : List α :=
  let lists := orders ++ [bases]
  self :: merge lists.flatten.length lists

end Wiring.Lineage

/-! ## Declarations -/

namespace Wiring

/-- A parameter as it is declared. -/
structure ParameterDeclaration where
  parameter : Parameter
  written : Option WrittenHint

/-- A type as it is declared. -/
structure TypeDeclaration where
  name : String
  kind : TypeKind := .declared
  bases : List String := []
  /-- The parameters, unless a class inherits its constructor. -/
  parameters : Option (List ParameterDeclaration) := none
  /-- The name of the receiver in a constructor. -/
  receiver : String := "self"

/-- The factories of all declared types. -/
structure Catalog where
  factories : List Factory

namespace Catalog

/-- A type that is always there, as a factory. -/
def builtinFactory (t : TypeRef) : Factory where
  type := t
  lineage := if t = .root then [t] else [t, .root]
  maker := t.name
  receiver := none
  parameters := []
  hints := .ok []

/-- The factory of a name, the last one that is declared under it. -/
def find? (catalog : Catalog) (name : String) : Option Factory :=
  (catalog.factories.reverse.find? fun f => f.type.name == name).or
    ((TypeRef.builtins.find? fun t => t.name == name).map builtinFactory)

/-- The type of a name; a name that nothing declares is taken for a class. -/
def typeOf (catalog : Catalog) (name : String) : TypeRef :=
  ((catalog.find? name).map (·.type)).getD
    (if name = TypeRef.null.name then .null else ⟨name, .declared⟩)

/-- What the annotations of a declaration mean. -/
def hintsOf (known : String → Option TypeRef) (d : TypeDeclaration) :
    Except String (Table Hint) :=
  match d.kind with
  | .bare | .sealed =>
    .error ((TypeRef.mk d.name d.kind).shown ++
      " is not a module, class, method, or function.")
  | _ =>
    (d.parameters.getD []).foldlM (fun hints p =>
      match p.written with
      | some a => (a.meaning known).map fun h => hints ++ [(p.parameter.name, h)]
      | none => .ok hints) []

/-- The receiver of a constructor. It is positional-only when the first of the others is. -/
def receiverOf (d : TypeDeclaration) : Parameter where
  name := d.receiver
  kind :=
    match d.parameters.getD [] with
    | p :: _ => if p.parameter.kind = .positionalOnly then .positionalOnly else .standard
    | [] => .standard

/-- The order of method resolution of a declared class. -/
def lineageOf (catalog : Catalog) (d : TypeDeclaration) : List TypeRef :=
  let bases := if d.bases.isEmpty then [TypeRef.root.name] else d.bases
  let parents := bases.filterMap catalog.find?
  Lineage.ofBases ⟨d.name, .declared⟩ (parents.map (·.type)) (parents.map (·.lineage))

/-- The factory of a declaration whose bases are in the catalog. A class takes over the constructor
of the first ancestor that declares one; one without bases declares an empty one unless it says
otherwise. -/
def factoryOf (known : String → Option TypeRef) (catalog : Catalog) (d : TypeDeclaration) :
    Factory :=
  let own (lineage : List TypeRef) (receiver : Option Parameter) : Factory :=
    ⟨⟨d.name, d.kind⟩, lineage, d.name, receiver,
      (d.parameters.getD []).map (·.parameter), hintsOf known d⟩
  match d.kind with
  | .declared =>
    let lineage := lineageOf catalog d
    let inherited? := lineage.tail.findSome? fun t =>
      (catalog.find? t.name).filter fun f => f.type.kind = .declared && f.maker == t.name
    match d.parameters, inherited? with
    | none, some f => { f with type := ⟨d.name, d.kind⟩, lineage := lineage }
    | none, none =>
      if d.bases.isEmpty then own lineage (some (receiverOf d))
      else { builtinFactory .root with type := ⟨d.name, d.kind⟩, lineage := lineage }
    | some _, _ => own lineage (some (receiverOf d))
  | _ => own [] none

/-- The catalog of declarations, each of which may build on those before it. Annotations that are
evaluated late may name any of them. -/
def ofDeclarations (declarations : List TypeDeclaration) : Catalog :=
  let known (name : String) : Option TypeRef :=
    ((declarations.reverse.find? fun d => d.name == name).map fun d => ⟨d.name, d.kind⟩).or
      (TypeRef.builtins.find? fun t => t.name == name)
  declarations.foldl (fun catalog d => ⟨catalog.factories ++ [factoryOf known catalog d]⟩) ⟨[]⟩

end Catalog

end Wiring
