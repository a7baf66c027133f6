import Wiring.TypeRef
import Wiring.Text.Quoted

/-!
What an annotation says about a parameter: a type, a union of types, or either of them with marks.
Unions are flat and without duplicates, and marks of marks are joined.
-/

namespace Wiring

/-- A mark beside an annotated type. -/
inductive Mark where
  /-- The service to inject. -/
  | named (id : String)
  | note (text : String)
  deriving DecidableEq, Repr

/-- The two ways to write a union. They differ in how the union is shown. -/
inductive UnionForm where
  | generic
  | piped
  deriving DecidableEq, Repr

/-- The meaning of an annotation. -/
inductive Hint where
  | type (type : TypeRef)
  | union (form : UnionForm) (members : List Hint)
  | marked (of : Hint) (marks : List Mark)
  /-- A text that is still to be evaluated. -/
  | late (source : String)
  deriving Repr

namespace Hint

mutual

/-- Equality, in which the order of a union's members does not count. -/
def same : Hint → Hint → Bool
  | .type a, .type b => a == b
  | .union _ as, .union _ bs => coveredBy as bs && bs.all fun b => anySame as b
  | .marked a m, .marked b n => same a b && m == n
  | .late s, .late t => s == t
  | _, _ => false

/-- Every member of the first list is in the second. -/
def coveredBy : List Hint → List Hint → Bool
  | [], _ => true
  | a :: as, bs => (bs.any fun b => same a b) && coveredBy as bs

/-- Some member of the list is the given one. -/
def anySame : List Hint → Hint → Bool
  | [], _ => false
  | a :: as, b => same a b || anySame as b

end

/-- The members of a union, or the hint by itself. -/
def members : Hint → List Hint
  | .union _ ms => ms
  | h => [h]

/-- Drops each hint that equals an earlier one. -/
def distinct (hints : List Hint) : List Hint :=
  hints.foldl (fun kept h => if kept.any (same h) then kept else kept ++ [h]) []

/-- The union of hints; a union with one member is that member. -/
def unite (form : UnionForm) (hints : List Hint) : Hint :=
  match distinct (hints.flatMap members) with
  | [h] => h
  | hs => .union form hs

/-- A union that is written with bars, but for members that make it generic. -/
def pipe (hints : List Hint) : Hint :=
  let plain (h : Hint) : Bool :=
    match h with
    | .type _ | .union .piped _ => true
    | _ => false
  unite (if hints.all plain then .piped else .generic) hints

/-- The type of the null value as a hint. -/
def null : Hint := .type .null

/-- A hint that the null value satisfies too. -/
def optional (h : Hint) : Hint := unite .generic [h, null]

/-- A hint with marks; marks of a marked hint come first. -/
def mark (h : Hint) (marks : List Mark) : Hint :=
  match h with
  | .marked inner first => .marked inner (first ++ marks)
  | h => .marked h marks

/-- Whether the hint is the type of the null value. -/
def isNull : Hint → Bool
  | .type t => t == .null
  | _ => false

/-- A mark as it is shown. -/
def showMark : Mark → String
  | .named id => "Named(id=" ++ Text.quote id ++ ")"
  | .note text => Text.quote text

/-- A union of two of which one is null is optional. -/
def optionalOf? : List Hint → Option Hint
  | [a, b] => if a.isNull then some b else if b.isNull then some a else none
  | _ => none

mutual

/-- A hint inside another one. -/
def shownInside : Hint → String
  | .type t => t.shownInside
  | .union .piped ms => " | ".intercalate (shownBars ms)
  | .union .generic [a, b] =>
    if a.isNull then "typing.Optional[" ++ shownInside b ++ "]"
    else if b.isNull then "typing.Optional[" ++ shownInside a ++ "]"
    else "typing.Union[" ++ shownInside a ++ ", " ++ shownInside b ++ "]"
  | .union .generic ms => "typing.Union[" ++ ", ".intercalate (shownAll ms) ++ "]"
  | .marked h marks =>
    "typing.Annotated[" ++ ", ".intercalate (shownInside h :: marks.map showMark) ++ "]"
  | .late source => "ForwardRef(" ++ Text.quote source ++ ")"

/-- The members of a generic union. -/
def shownAll : List Hint → List String
  | [] => []
  | h :: hs => shownInside h :: shownAll hs

/-- The members of a union with bars, where the null type is shown as the null value. -/
def shownBars : List Hint → List String
  | [] => []
  | h :: hs => (if h.isNull then "None" else shownInside h) :: shownBars hs

end

/-- The hint as a printed value. -/
def shown : Hint → String
  | .type t => t.shown
  | h => shownInside h

/-- The hint as messages name it: by its short name where it has one. -/
def described : Hint → String
  | .type t =>
    match t.kind with
    | .bare | .sealed => t.shown
    | _ => t.name
  | .union .generic ms => if (optionalOf? ms).isSome then "Optional" else "Union"
  | .union .piped ms => shown (.union .piped ms)
  | .marked _ _ => "Annotated"
  | .late source => shown (.late source)

end Hint

end Wiring
