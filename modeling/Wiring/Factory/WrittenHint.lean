import Wiring.Hint

/-!
Annotations as they are written, and what they mean once all types are known.
-/

namespace Wiring

/-- An annotation as it is written. -/
inductive WrittenHint where
  | type (name : String)
  /-- A text that is evaluated late: names of types joined by bars. -/
  | text (source : String)
  | null
  | optional (of : WrittenHint)
  | union (members : List WrittenHint)
  | pipe (members : List WrittenHint)
  | marked (of : WrittenHint) (marks : List Mark)

namespace WrittenHint

variable (known : String → Option TypeRef)

/-- The meaning of one name in a text. -/
def nameHint (name : String) : Except String Hint :=
  if name = "None" then .ok .null
  else
    match known name with
    | some t => .ok (.type t)
    | none => .error ("name '" ++ name ++ "' is not defined")

/-- The name of the type of what a part of a text evaluates to. -/
def operandName : Hint → String
  | .type t => if t = .null then t.name else t.kindName
  | _ => "types.UnionType"

/-- Whether bars join a hint to others: classes, the null value and what is joined already. -/
def isJoinable : Hint → Bool
  | .type t => t.isClass
  | .union _ _ => true
  | _ => false

/-- Two parts of a text with a bar between them. -/
def join (a b : Hint) : Except String Hint :=
  if isJoinable a && isJoinable b && !(a.isNull && b.isNull) then .ok (.pipe [a, b])
  else
    .error ("unsupported operand type(s) for |: '" ++ operandName a ++ "' and '" ++
      operandName b ++ "'")

/-- The meaning of a text, whose names are looked up as the bars between them need them. -/
def textHint (source : String) : Except String Hint :=
  match source.splitOn " | " with
  | [] => nameHint known source
  | name :: names => do
    names.foldlM (fun h name => do join h (← nameHint known name)) (← nameHint known name)

mutual

/-- What an annotation says where it is written. Texts are not looked into yet. -/
def hint : WrittenHint → Except String Hint
  | .type name => nameHint known name
  | .text source => .ok (.late source)
  | .null => .ok .null
  | .optional a => do return (← hint a).optional
  | .union as => do return .unite .generic (← hintAll as)
  | .pipe as => do return .pipe (← hintAll as)
  | .marked a marks => do return (← hint a).mark marks

/-- What several annotations say. -/
def hintAll : List WrittenHint → Except String (List Hint)
  | [] => .ok []
  | a :: as => do
    let h ← hint a
    return h :: (← hintAll as)

end

mutual

/-- A hint with its texts evaluated. Unions are brought together anew. -/
def evaluate : Hint → Except String Hint
  | .late source => textHint known source
  | .union .generic ms => do return .unite .generic (← evaluateAll ms)
  | .union .piped ms => do return .union .piped (← evaluateAll ms)
  | .marked h marks => do return (← evaluate h).mark marks
  | .type t => .ok (.type t)

/-- Several hints with their texts evaluated. -/
def evaluateAll : List Hint → Except String (List Hint)
  | [] => .ok []
  | h :: hs => do
    let e ← evaluate h
    return e :: (← evaluateAll hs)

end

/-- The meaning of an annotation, or why it has none. -/
def meaning (a : WrittenHint) : Except String Hint := do
  evaluate known (← hint known a)

end WrittenHint

end Wiring
