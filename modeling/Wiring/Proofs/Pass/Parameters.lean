import Wiring.Pass.Parameters
import Wiring.Proofs.Graph.Registered

/-!
# What resolving the parameters does

Arguments that refer to parameters become literals, all others stay, and the bag is frozen. A graph
whose bag is frozen and that refers to no parameter stays as it is.
-/

namespace Wiring.Pass

open Graph

variable {g g' : Graph} {u : Unit}

/-- What the resolution of parameters makes of an argument. -/
def Parametrized (a b : Argument) : Prop :=
  match a with
  | .parameter _ => ∃ v, b = .literal v
  | a => b = a

theorem revise_parameterRule {resolved : Table Value} {service : String} {a b : Argument}
    (flat : a.isFlat = true)
    (h : Argument.revise (parameterRule resolved service) service a = .ok b) :
    Parametrized a b := by
  cases a with
  | parameter name =>
    simp only [Argument.revise, Argument.reviseOuter, parameterRule] at h
    split at h
    next v _ => exact ⟨v, (Except.ok.inj h).symm⟩
    next => cases h
  | collection tag members =>
    obtain ⟨rs, hrs, rfl⟩ := Argument.revise_collection_eq_ok.1 h
    have : members = rs := by
      refine List.forall₂_eq_eq_eq.subst (motive := fun R => R members rs) ?_
      exact hrs.imp fun r s h => by simpa [parameterRule] using h
    simp [Parametrized, this]
  | mixture | inlined => simp [Argument.isFlat] at flat
  | _ => simpa [Argument.revise, Argument.reviseOuter, parameterRule, Parametrized, eq_comm] using h

/-- The pass changes nothing but the arguments that refer to parameters, and the bag. -/
theorem resolveParameters_spec (tidy : g.Tidy) (flat : g.Flat)
    (h : Build.Gives resolveParameters g u g') :
    ∃ bag resolved, g.parameters.resolveAll = .ok (bag, resolved) ∧
      Revised (fun _ => Parametrized) { g with parameters := bag } g' := by
  obtain ⟨resolved, g₁, hf, h⟩ := Build.gives_bind h
  obtain ⟨_, _, hg, hf⟩ := Build.gives_bind hf
  obtain ⟨rfl, rfl⟩ := Build.gives_graph.1 hg
  obtain ⟨⟨bag, r⟩, _, hc, hf⟩ := Build.gives_bind hf
  obtain ⟨hres, rfl⟩ := Build.gives_check.1 hc
  obtain ⟨_, _, hb, hf⟩ := Build.gives_bind hf
  obtain rfl := Build.gives_change.1 hb
  obtain ⟨rfl, rfl⟩ := Build.gives_pure.1 hf
  refine ⟨bag, r, hres, ?_⟩
  have alone : Graph.isShared { g with parameters := bag } = false :=
    Flat.isShared_eq_false (g := { g with parameters := bag }) flat tidy.alone
  refine ((reviseAll_ok alone).1 (Build.gives_changeOrFail.1 h)).mono_mem fun d hd a ha b => ?_
  exact revise_parameterRule (flat d hd a ha)

/-- A compiled graph stays as it is. -/
theorem resolveParameters_does (alone : g.isShared = false) (settled : g.Settled)
    {resolved : Table Value} (frozen : g.parameters.resolved = some resolved) :
    Build.Does resolveParameters g () g := by
  have bag : g.parameters.resolveAll = .ok (g.parameters, resolved) := by
    rw [Bag.resolveAll, frozen]
  refine .bind (.bind .graph (.bind (.check bag) (.bind (.change rfl) (.pure resolved)))) ?_
  exact .changeOrFail (reviseAll_of_settled alone settled (fun _ _ _ _ => rfl) fun _ _ _ => rfl)

end Wiring.Pass
