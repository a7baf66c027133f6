import Wiring.Number.Decimal
import Wiring.Hint

/-!
The values that parameters, arguments, tags and capabilities are made of, with the equality that
the library compares them by and the texts it shows them as.
-/

namespace Wiring

/-- A value. -/
inductive Value where
  | null
  | bool (b : Bool)
  | int (n : Int)
  | real (x : Binary64)
  | str (s : String)
  | list (items : List Value)
  | tuple (items : List Value)
  /-- Entries in the order of their first insertion; no two keys are equal. -/
  | dict (entries : List (Value × Value))
  /-- An object of which nothing but its name is known. -/
  | object (name : String)
  | type (type : TypeRef)
  /-- An annotation that is kept as a capability. -/
  | hint (hint : Hint)
  /-- The `n`-th object that a factory built. -/
  | built (n : Nat)
  /-- A handle to a service that a container builds on first use. -/
  | deferred (container : Nat) (id : String)
  deriving Repr, Inhabited

namespace Value

/-- The number that a value stands for: truth values count as zero and one. -/
def number? : Value → Option Number
  | .bool b => some (.whole (if b then 1 else 0))
  | .int n => some (.whole n)
  | .real x => some (.real x)
  | _ => none

/-! ## Equality -/

mutual

/-- Equality of values. Numbers compare by value whatever their type, lists never equal tuples,
and the order of a dictionary's entries does not count. -/
def same : Value → Value → Bool
  | .null, b => match b with | .null => true | _ => false
  | .bool x, b => match b.number? with
    | some y => (Number.whole (if x then 1 else 0)).eqv y
    | none => false
  | .int x, b => match b.number? with
    | some y => (Number.whole x).eqv y
    | none => false
  | .real x, b => match b.number? with
    | some y => (Number.real x).eqv y
    | none => false
  | .str x, b => match b with | .str y => x == y | _ => false
  | .list xs, b => match b with | .list ys => sameAll xs ys | _ => false
  | .tuple xs, b => match b with | .tuple ys => sameAll xs ys | _ => false
  | .dict xs, b => match b with
    | .dict ys => xs.length == ys.length && sameEntries xs ys
    | _ => false
  | .object x, b => match b with | .object y => x == y | _ => false
  | .type x, b => match b with | .type y => x == y | _ => false
  | .hint x, b => match b with | .hint y => x.same y | _ => false
  | .built x, b => match b with | .built y => x == y | _ => false
  | .deferred c x, b => match b with | .deferred d y => c == d && x == y | _ => false

/-- Equality place by place. -/
def sameAll : List Value → List Value → Bool
  | [], [] => true
  | x :: xs, y :: ys => same x y && sameAll xs ys
  | _, _ => false

/-- Every entry of the first dictionary is in the second. -/
def sameEntries : List (Value × Value) → List (Value × Value) → Bool
  | [], _ => true
  | (k, v) :: rest, ys => (ys.any fun (l, w) => same k l && same v w) && sameEntries rest ys

end

instance : BEq Value := ⟨same⟩

/-! ## Texts -/

mutual

/-- A value as it is shown inside messages and other values. -/
def shown : Value → String
  | .null => "None"
  | .bool b => if b then "True" else "False"
  | .int n => toString n
  | .real x => x.toText
  | .str s => Text.quote s
  | .list items => "[" ++ ", ".intercalate (shownAll items) ++ "]"
  | .tuple items =>
    match items with
    | [item] => "(" ++ shown item ++ ",)"
    | items => "(" ++ ", ".intercalate (shownAll items) ++ ")"
  | .dict entries => "\x7b" ++ ", ".intercalate (shownEntries entries) ++ "\x7d"
  | .object name => "<object " ++ name ++ ">"
  | .type t => t.shown
  | .hint h => h.shown
  | .built n => "<built " ++ toString n ++ ">"
  | .deferred _ id => "Deferred(" ++ Text.quote id ++ ")"

/-- The items of a list or tuple. -/
def shownAll : List Value → List String
  | [] => []
  | x :: xs => shown x :: shownAll xs

/-- The entries of a dictionary. -/
def shownEntries : List (Value × Value) → List String
  | [] => []
  | (k, v) :: rest => (shown k ++ ": " ++ shown v) :: shownEntries rest

end

/-- A value in running text: a text stands for itself, all else is as shown. -/
def text : Value → String
  | .str s => s
  | v => v.shown

/-- The name of the type of a value. -/
def typeName : Value → String
  | .null => "NoneType"
  | .bool _ => "bool"
  | .int _ => "int"
  | .real _ => "float"
  | .str _ => "str"
  | .list _ => "list"
  | .tuple _ => "tuple"
  | .dict _ => "dict"
  | .object _ => "Opaque"
  | .type t => t.kindName
  | .hint _ => "Hint"
  | .built _ => "Built"
  | .deferred _ _ => "Deferred"

/-- A capability as messages name it: by its short name where it has one. -/
def described : Value → String
  | .type t => (Hint.type t).described
  | .hint h => h.described
  | v => v.shown

end Value

end Wiring
