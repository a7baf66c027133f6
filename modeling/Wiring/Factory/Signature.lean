import Wiring.Failure.Binding
import Wiring.Table

/-!
Parameters of a factory, and the binding of arguments to them.
-/

namespace Wiring

/-- How a parameter takes its argument. -/
inductive ParameterKind where
  | positionalOnly
  /-- By position or by keyword. -/
  | standard
  /-- All positional arguments that are left. -/
  | rest
  | keywordOnly
  /-- All keyword arguments that are left. -/
  | extra
  deriving DecidableEq, Repr

/-- A parameter of a factory. -/
structure Parameter where
  name : String
  kind : ParameterKind := .standard
  hasDefault : Bool := false
  deriving DecidableEq, Repr

namespace Parameter

/-- Whether the parameter collects arguments of any number. -/
def collects (p : Parameter) : Bool := p.kind = .rest || p.kind = .extra

end Parameter

namespace Signature

variable {α : Type}

/-- Binds keyword arguments to the parameters that no positional argument reached. Of the
parameters that collect keywords only their presence, `collecting`, is kept. -/
def bindKeywords (bound : Table α) (collecting : Bool) :
    List Parameter → Table α → Except Misfit (Table α)
  | [], keywords =>
    match keywords with
    | [] => .ok bound
    | (name, _) :: _ => if collecting then .ok bound else .error (.unexpectedKeyword name)
  | p :: ps, keywords =>
    match p.kind with
    | .extra => bindKeywords bound true ps keywords
    | .rest => bindKeywords bound collecting ps keywords
    | _ =>
      match keywords.get? p.name with
      | some a =>
        if p.kind = .positionalOnly then .error (.positionalOnly p.name)
        else bindKeywords (bound ++ [(p.name, a)]) collecting ps (keywords.remove p.name)
      | none =>
        if p.hasDefault then bindKeywords bound collecting ps keywords
        else .error (.missing p.name)

/-- Where positional arguments have run out: the parameters that keywords may still fill. -/
def bindRemaining (bound : Table α) (parameters : List Parameter) (keywords : Table α) :
    Except Misfit (Table α) :=
  match parameters with
  | [] => bindKeywords bound false [] keywords
  | p :: ps =>
    if p.kind = .rest then bindKeywords bound false ps keywords
    else if keywords.has p.name then
      if p.kind = .positionalOnly then .error (.positionalOnly p.name)
      else bindKeywords bound false (p :: ps) keywords
    else if p.kind = .extra || p.hasDefault then bindKeywords bound false (p :: ps) keywords
    else .error (.missing p.name)

/-- Walks positional arguments along the parameters. -/
def bindFrom (bound : Table α) :
    List Parameter → List α → Table α → Except Misfit (Table α)
  | parameters, [], keywords => bindRemaining bound parameters keywords
  | [], _ :: _, _ => .error .tooManyPositional
  | p :: ps, a :: as, keywords =>
    match p.kind with
    | .keywordOnly | .extra => .error .tooManyPositional
    | .rest => bindKeywords bound false ps keywords
    | _ =>
      if keywords.has p.name && p.kind != .positionalOnly then .error (.multipleValues p.name)
      else bindFrom (bound ++ [(p.name, a)]) ps as keywords

/-- Binds arguments to parameters: the argument of each parameter that takes one, or the first way
in which the arguments do not fit. -/
def bind (parameters : List Parameter) (positional : List α) (keywords : Table α) :
    Except Misfit (Table α) :=
  bindFrom [] parameters positional keywords

end Signature

end Wiring
