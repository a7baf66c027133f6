import Mathlib
import Wiring.Proofs.Parameter.Resolution
import Wiring.Script.BagStep

/-!
# Resolution in bags

Whatever is done to a bag, it holds no name twice, and once it is frozen it answers with what its
parameters stand for. So `resolveAll` gives just that, in every bag there can be, and says why
where it does not.
-/

namespace Wiring.Bag

open Value Script

variable {bag bag' : Bag} {t t' : Table Value} {name : String} {w : Value} {e : Failure}

/-- The bags that there are: those made of given parameters, and what steps leave of them. -/
inductive Made : Bag → Prop
  | ofEntries (entries : List (String × Value)) : Made (ofEntries entries)
  | step {bag : Bag} (made : Made bag) (act : BagAct) : Made (BagStep.runAct bag act).1

/-- No name is there twice, and a frozen bag keeps what its parameters resolve to. -/
structure Steady (bag : Bag) : Prop where
  unique : bag.raw.names.Nodup
  kept : ∀ t, bag.resolved = some t → resolution bag.raw = .ok t

theorem steady_ofEntries (entries : List (String × Value)) : Steady (ofEntries entries) :=
  ⟨Table.nodup_merge .nil, fun _ h => by cases h⟩

namespace Steady

/-- Before and after it is frozen, a bag resolves to the same. -/
theorem resolveAll_eq (h : Steady bag) :
    bag.resolveAll = (resolution bag.raw).map fun t => ({ bag with resolved := some t }, t) := by
  obtain ⟨raw, resolved⟩ := bag
  cases resolved with
  | none => rfl
  | some t =>
    rw [show resolution raw = .ok t from h.kept t rfl]
    rfl

theorem resolveAll (h : Steady bag) (run : bag.resolveAll = .ok (bag', t)) : Steady bag' := by
  rw [h.resolveAll_eq] at run
  obtain ⟨t, resolves, same⟩ := map_eq_ok.1 run
  obtain ⟨rfl, rfl⟩ := Prod.mk.inj same
  refine ⟨h.unique, ?_⟩
  rintro _ ⟨⟩
  exact resolves

theorem set {key value : Value} (h : Steady bag) (run : bag.set key value = .ok bag') :
    Steady bag' := by
  unfold Bag.set at run
  split at run
  · cases run
  next thawed =>
    have open' : bag.resolved = none := by simpa [frozen] using thawed
    split at run
    next s =>
      split at run
      · cases run
      · obtain rfl := Except.ok.inj run
        exact ⟨Table.nodup_put h.unique, fun t kept => by simp [open'] at kept⟩
    · cases run

theorem remove (h : Steady bag) (run : bag.remove name = .ok bag') : Steady bag' := by
  unfold Bag.remove at run
  split at run
  · cases run
  next thawed =>
    have open' : bag.resolved = none := by simpa [frozen] using thawed
    obtain rfl := Except.ok.inj run
    refine ⟨?_, fun t kept => by simp [open'] at kept⟩
    rw [Table.names_remove]
    exact h.unique.filter _

/-- A step leaves the bag steady. -/
theorem step (h : Steady bag) (act : BagAct) : Steady (BagStep.runAct bag act).1 := by
  cases act with
  | has | get | names | all | copy => exact h
  | set key value =>
    rw [BagStep.runAct]
    cases run : bag.set key value with
    | ok bag' => exact h.set run
    | error e => exact h
  | remove name =>
    rw [BagStep.runAct]
    cases run : bag.remove name with
    | ok bag' => exact h.remove run
    | error e => exact h
  | resolveAll =>
    rw [BagStep.runAct]
    cases run : bag.resolveAll with
    | ok r => exact h.resolveAll run
    | error e => exact h
  | resolveValue v =>
    rw [BagStep.runAct]
    cases run : bag.resolveValue v with
    | error e => exact h
    | ok r =>
      obtain ⟨r', resolves, same⟩ := bind_eq_ok.1 run
      obtain rfl := pure_eq_ok.1 same
      exact h.resolveAll resolves

end Steady

theorem Made.steady (made : Made bag) : Steady bag := by
  induction made with
  | ofEntries entries => exact steady_ofEntries entries
  | step _ act ih => exact ih.step act

/-- Bags of the same parameters resolve to the same values. -/
theorem resolution_shuffled {raw raw' : Table Value} (unique : raw.names.Nodup)
    (perm : raw.Perm raw') (h : resolution raw = .ok t) :
    ∃ t', resolution raw' = .ok t' ∧ t.Perm t' := by
  obtain ⟨t', h', same⟩ := resolution_perm unique perm h
  exact ⟨t', h', Table.perm_of_get? (resolution_ok h).1.unique (resolution_ok h').1.unique same⟩

/-- The address of a database, with its parts as parameters. -/
def address : Bag := ofEntries [
  ("address", .str "pg://%host%:%port%/%%"), ("host", .str "%name%"), ("name", .str "db"),
  ("port", .int 5432), ("ports", .list [.str "%port%"])]

/-- Two parameters that are parts of each other. -/
def mirrors : Bag := ofEntries [("left", .str "%right%"), ("right", .list [.str "a %left%"])]

end Wiring.Bag
