import Wiring.Definition.Basic

/-!
Equality of definitions. Embedded recipes are compared part by part, whatever their marks.
-/

namespace Wiring

/-- Equality of lists of values, place by place. -/
def sameValues (as bs : List Value) : Bool := Value.sameAll as bs

/-- Equality of tables in which the order does not count. -/
def sameTable (as bs : Table Value) : Bool :=
  as.length == bs.length && as.all fun (k, v) =>
    match bs.get? k with
    | some w => v.same w
    | none => false

/-- Equality of tables in which the order counts. -/
def sameEntries (as bs : Table Value) : Bool :=
  as.map (·.1) == bs.map (·.1) && sameValues (as.map (·.2)) (bs.map (·.2))

/-- Equality of tags in which the order of the attributes does not count. -/
def Tag.same (a b : Tag) : Bool := a.name == b.name && sameTable a.attributes b.attributes

/-- Equality of tags in which the order of the attributes counts. -/
def Tag.identical (a b : Tag) : Bool := a.name == b.name && sameEntries a.attributes b.attributes

/-- Equality of labels, by that of their tags where they are tags. -/
def Label.sameBy (same : Tag → Tag → Bool) : Label → Label → Bool
  | .tag a, .tag b => same a b
  | .plain a, .plain b => a.same b
  | _, _ => false

/-- Place by place comparison of two lists. -/
def pairwise {α : Type} (same : α → α → Bool) : List α → List α → Bool
  | [], [] => true
  | a :: as, b :: bs => same a b && pairwise same as bs
  | _, _ => false

/-- Equality of slots. -/
def Slot.same (a b : Slot) : Bool :=
  (a.capability.getD .null).same (b.capability.getD .null) && a.name == b.name &&
    a.optional == b.optional

/-- Equality of all that a recipe has besides its arguments and tags. -/
def Recipe.sameFrame {α : Type} (a b : Recipe α) : Bool :=
  a.id == b.id && a.factory == b.factory && a.isPublic == b.isPublic && a.isShared == b.isShared &&
    a.isAbstract == b.isAbstract && a.isLazy == b.isLazy && a.autowired == b.autowired &&
    sameValues a.capabilities b.capabilities && sameValues a.defaultFor b.defaultFor &&
    a.parent == b.parent

namespace Argument

mutual

/-- Equality of arguments. In an embedded recipe the order of keyword arguments and of tag
attributes does not count. -/
def same : Argument → Argument → Bool
  | .reference r, b => match b with | .reference s => r == s | _ => false
  | .parameter n, b => match b with | .parameter m => n == m | _ => false
  | .literal v, b => match b with | .literal w => v.same w | _ => false
  | .tagged t, b => match b with | .tagged u => t == u | _ => false
  | .autowire s, b => match b with | .autowire t => s.same t | _ => false
  | .collection t rs, b => match b with
    | .collection u ss => t == u && rs == ss
    | _ => false
  | .mixture t as, b => match b with
    | .mixture u bs => t == u && sameAll as bs
    | _ => false
  | .inlined _ r, b => match b with
    | .inlined _ s =>
      r.sameFrame s && pairwise (Label.sameBy Tag.same) r.tags s.tags && sameAll r.arguments s.arguments &&
        (r.keywords.length == s.keywords.length && sameNamed r.keywords s.keywords)
    | _ => false
  | .plain v, b => match b with | .plain w => v.same w | _ => false

/-- Equality of positional arguments. -/
def sameAll : List Argument → List Argument → Bool
  | [], [] => true
  | a :: as, b :: bs => same a b && sameAll as bs
  | _, _ => false

/-- Every keyword argument of the first list is in the second. -/
def sameNamed : List (String × Argument) → List (String × Argument) → Bool
  | [], _ => true
  | (name, a) :: as, bs =>
    (bs.any fun (other, b) => name == other && same a b) && sameNamed as bs

end

end Argument

namespace Definition

/-- Equality of the states of two definitions. Here the order of keyword arguments and of tag
attributes counts. -/
def sameState (a b : Definition) : Bool :=
  a.sameFrame b && pairwise (Label.sameBy Tag.identical) a.tags b.tags &&
    pairwise Argument.same a.arguments b.arguments &&
    pairwise (fun x y => x.1 == y.1 && x.2.same y.2) a.keywords b.keywords

end Definition

end Wiring
