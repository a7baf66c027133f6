import Mathlib.Logic.Relation
import Wiring.Proofs.Failing
import Wiring.Proofs.Graph.Lookup

/-!
# Where aliases lead

`Leads` follows aliases one by one, without a bound on how many there are. What resolution finds is
where an identifier leads, and that is no alias. It finds nothing if and only if aliases lead into a
loop.

The chain of an identifier goes from alias to target. Either it ends, at the first identifier that
is no alias, and this is what resolution gives; or it never ends, and then resolution fails with the
loop that it runs into.
-/

namespace Wiring.Graph

variable {g g' : Graph} {id target : String}

/-- Aliases lead from `id` to `target`. -/
inductive Leads (g : Graph) : (id target : String) → Prop
  | here {id : String} : g.findAlias? id = none → Leads g id id
  | there {id target : String} {a : Alias} :
    g.findAlias? id = some a → Leads g a.target target → Leads g id target

namespace Leads

theorem target_free (h : g.Leads id target) : g.findAlias? target = none := by
  induction h with
  | here h => exact h
  | there _ _ ih => exact ih

theorem unique {t u : String} (h : g.Leads id t) (h' : g.Leads id u) : t = u := by
  induction h with
  | here h =>
    cases h' with
    | here => rfl
    | there ha => simp [h] at ha
  | there ha _ ih =>
    cases h' with
    | here h => simp [h] at ha
    | there hb hu => exact ih (Option.some.inj (ha.symm.trans hb) ▸ hu)

theorem of_free (free : g.findAlias? id = none) : g.Leads id target ↔ target = id :=
  ⟨fun h => h.unique (here free), fun h => h.symm ▸ here free⟩

end Leads

theorem followAliases_leads {depth : Nat} {chain : List String}
    (h : g.followAliases depth chain id = .ok target) : g.Leads id target := by
  induction depth generalizing chain id with
  | zero =>
    cases hf : g.findAlias? id with
    | none =>
      rw [followAliases_none hf] at h
      exact (Leads.of_free hf).2 (Except.ok.inj h).symm
    | some a =>
      rw [followAliases_zero hf] at h
      split at h <;> simp at h
  | succ depth ih =>
    cases hf : g.findAlias? id with
    | none =>
      rw [followAliases_none hf] at h
      exact (Leads.of_free hf).2 (Except.ok.inj h).symm
    | some a =>
      rw [followAliases_succ hf] at h
      split at h
      · simp at h
      · exact .there hf (ih h)

/-- Resolution finds where an identifier leads. -/
theorem resolveAlias_leads (h : g.resolveAlias id = .ok target) : g.Leads id target :=
  followAliases_leads h

/-! ## Resolution finds it

No alias is passed twice on the way, so there are not more steps than aliases. -/

/-- Aliases lead from `id` to `target` by way of those in the list. -/
inductive LeadsBy (g : Graph) : List String → (id target : String) → Prop
  | here {id : String} : g.findAlias? id = none → LeadsBy g [] id id
  | there {id target : String} {a : Alias} {way : List String} :
    g.findAlias? id = some a → LeadsBy g way a.target target → LeadsBy g (id :: way) id target

namespace LeadsBy

variable {way : List String}

theorem unique {other : List String} {t u : String} (h : g.LeadsBy way id t)
    (h' : g.LeadsBy other id u) : way = other := by
  induction h generalizing other with
  | here h =>
    cases h' with
    | here => rfl
    | there ha => simp [h] at ha
  | there ha _ ih =>
    cases h' with
    | here h => simp [h] at ha
    | there hb hu =>
      obtain rfl := Option.some.inj (ha.symm.trans hb)
      rw [ih hu]

/-- From each alias on the way the rest of the way leads on. -/
theorem onward (h : g.LeadsBy way id target) {x : String} (hx : x ∈ way) :
    ∃ rest, g.LeadsBy rest x target ∧ rest.length ≤ way.length := by
  induction h with
  | here => cases hx
  | @there id target a way ha h ih =>
    rcases List.mem_cons.1 hx with rfl | hx
    · exact ⟨x :: way, .there ha h, Nat.le_refl _⟩
    · obtain ⟨rest, hr, hl⟩ := ih hx
      exact ⟨rest, hr, Nat.le_succ_of_le hl⟩

theorem nodup (h : g.LeadsBy way id target) : way.Nodup := by
  induction h with
  | here => exact .nil
  | there ha h ih =>
    refine List.nodup_cons.2 ⟨fun hx => ?_, ih⟩
    obtain ⟨rest, hr, hl⟩ := h.onward hx
    rw [hr.unique (.there ha h), List.length_cons] at hl
    omega

theorem subset (h : g.LeadsBy way id target) : way ⊆ g.aliasIds := by
  induction h with
  | here => exact List.nil_subset _
  | there ha _ ih =>
    obtain ⟨hmem, rfl⟩ := mem_of_findAlias? ha
    exact List.cons_subset.2 ⟨List.mem_map_of_mem hmem, ih⟩

theorem follow (h : g.LeadsBy way id target) {depth : Nat} {chain : List String}
    (enough : way.length ≤ depth) (apart : ∀ x ∈ way, x ∉ chain) :
    g.followAliases depth chain id = .ok target := by
  induction h generalizing depth chain with
  | here h => exact followAliases_none h
  | @there id target a way ha h ih =>
    obtain ⟨n, rfl⟩ : ∃ n, depth = n + 1 := ⟨depth - 1, by rw [List.length_cons] at enough; omega⟩
    have new : id ∉ chain := apart id List.mem_cons_self
    rw [followAliases_succ ha, if_neg (by simpa using new)]
    have once := (LeadsBy.there ha h).nodup
    rw [List.nodup_cons] at once
    refine ih (by simpa using enough) fun x hx hc => ?_
    rcases List.mem_append.1 hc with hc | hc
    · exact apart x (List.mem_cons_of_mem _ hx) hc
    · exact once.1 (List.mem_singleton.1 hc ▸ hx)

end LeadsBy

theorem Leads.exists_way (h : g.Leads id target) : ∃ way, g.LeadsBy way id target := by
  induction h with
  | here h => exact ⟨[], .here h⟩
  | there ha _ ih =>
    obtain ⟨way, h⟩ := ih
    exact ⟨_, .there ha h⟩

/-- Resolution finds where an identifier leads, wherever it leads. -/
theorem resolveAlias_ok : g.resolveAlias id = .ok target ↔ g.Leads id target := by
  refine ⟨resolveAlias_leads, fun h => ?_⟩
  obtain ⟨way, h⟩ := h.exists_way
  refine h.follow ?_ (by simp)
  have := (List.subperm_of_subset h.nodup h.subset).length_le
  rwa [aliasIds, List.length_map] at this

theorem leads_congr (h : g'.aliases = g.aliases) : g'.Leads id target ↔ g.Leads id target := by
  rw [← resolveAlias_ok, ← resolveAlias_ok, resolveAlias_congr h]

/-! ## Loops of aliases -/

/-- There is an alias from `a` to `b`. -/
def Aliases (g : Graph) (a b : String) : Prop := ∃ x, g.findAlias? a = some x ∧ x.target = b

/-- No alias leads back to itself. -/
def LoopFree (g : Graph) : Prop := ∀ id, ¬ Relation.TransGen g.Aliases id id

section Chains

variable {chain : List String} {target : String}

/-- A chain of aliases that meets no loop does not grow longer than there are aliases. -/
theorem exists_leads
    (free : ∀ x, Relation.ReflTransGen g.Aliases id x → ¬ Relation.TransGen g.Aliases x x)
    (nodup : chain.Nodup) (inside : chain ⊆ g.aliasIds)
    (led : ∀ x ∈ chain, Relation.TransGen g.Aliases x id) : ∃ target, g.Leads id target := by
  generalize room : g.aliasIds.length - chain.length = n
  induction n using Nat.strong_induction_on generalizing chain id with
  | _ n ih =>
    cases found : g.findAlias? id with
    | none => exact ⟨id, .here found⟩
    | some a =>
      obtain ⟨ha, same⟩ := mem_of_findAlias? found
      have step : g.Aliases id a.target := ⟨a, found, rfl⟩
      have there : id ∈ g.aliasIds := same ▸ List.mem_map_of_mem ha
      have new : id ∉ chain := fun hid => free id .refl (led id hid)
      have few := length_lt_of_push nodup inside new there
      obtain ⟨target, leads⟩ := ih _ (by rw [List.length_append, List.length_singleton]; omega)
        (fun x path => free x (path.head step))
        (nodup_push nodup new) (push_subset inside there) (fun x hx => by
          rcases List.mem_append.1 hx with hx | hx
          · exact (led x hx).tail step
          · exact List.mem_singleton.1 hx ▸ .single step) rfl
      exact ⟨target, .there found leads⟩

theorem Aliases.eq {a : Alias} {x : String} (step : g.Aliases id x)
    (found : g.findAlias? id = some a) : x = a.target := by
  obtain ⟨_, found', rfl⟩ := step
  rw [Option.some.inj (found'.symm.trans found)]

theorem Leads.not_loop (h : g.Leads id target) : ¬ Relation.TransGen g.Aliases id id := by
  intro loop
  induction h with
  | here none =>
    obtain ⟨_, ⟨_, found, -⟩, -⟩ := Relation.TransGen.head'_iff.1 loop
    cases none.symm.trans found
  | @there id _ a found _ ih =>
    obtain ⟨_, out, back⟩ := Relation.TransGen.head'_iff.1 loop
    obtain rfl := out.eq found
    exact ih (Relation.TransGen.tail' back ⟨a, found, rfl⟩)

theorem Leads.of_path {x : String} (h : g.Leads id target)
    (path : Relation.ReflTransGen g.Aliases id x) : g.Leads x target := by
  induction path with
  | refl => exact h
  | tail _ step ih =>
    cases ih with
    | here none =>
      obtain ⟨_, found, -⟩ := step
      cases none.symm.trans found
    | there found rest => exact step.eq found ▸ rest

/-- Aliases fail to lead from an identifier somewhere if and only if they lead it into a loop. -/
theorem resolveAlias_error_iff : (∃ e, g.resolveAlias id = .error e) ↔
    ∃ x, Relation.ReflTransGen g.Aliases id x ∧ Relation.TransGen g.Aliases x x := by
  constructor
  · rintro ⟨e, failed⟩
    by_contra free
    obtain ⟨target, leads⟩ := exists_leads (fun x path loop => free ⟨x, path, loop⟩) .nil
      (List.nil_subset _) (by simp)
    cases failed.symm.trans (resolveAlias_ok.2 leads)
  · rintro ⟨x, path, loop⟩
    cases h : g.resolveAlias id with
    | error e => exact ⟨e, rfl⟩
    | ok target => exact absurd loop ((resolveAlias_ok.1 h).of_path path).not_loop

end Chains

namespace LoopFree

theorem resolves (free : g.LoopFree) (id : String) : ∃ target, g.resolveAlias id = .ok target := by
  obtain ⟨target, leads⟩ := exists_leads (fun x _ => free x) .nil (List.nil_subset _) (by simp)
  exact ⟨target, resolveAlias_ok.2 leads⟩

end LoopFree

/-! ## Failures -/

/-- The failure of a loop of aliases. -/
def IsLoop (e : Failure) : Prop := ∃ chain, e = .fault (.circularAlias chain) none

theorem IsLoop.isFault {e : Failure} (h : IsLoop e) : e.IsFault :=
  let ⟨_, same⟩ := h
  same ▸ Failure.isFault _ _

theorem aliasLoop_isLoop {chain : List String} (h : chain ≠ []) : IsLoop (.aliasLoop chain) := by
  unfold Failure.aliasLoop
  rw [if_neg (by simpa using h)]
  exact ⟨chain, rfl⟩

theorem followAliases_loops {depth : Nat} {chain : List String} (nodup : chain.Nodup)
    (inside : chain ⊆ g.aliasIds) (room : g.aliases.length ≤ depth + chain.length) :
    FailsBy IsLoop (g.followAliases depth chain id) := by
  have loop : IsLoop (.aliasLoop (chain.drop (chain.idxOf id) ++ [id])) :=
    aliasLoop_isLoop (by simp)
  induction depth generalizing chain id with
  | zero =>
    cases found : g.findAlias? id with
    | none =>
      rw [followAliases_none found]
      exact .ok id
    | some a =>
      rw [followAliases_zero found]
      by_cases again : id ∈ chain
      · rw [if_pos (by simpa using again)]
        exact .error loop
      · -- a chain that holds all aliases holds this one
        have there : id ∈ g.aliasIds := by
          obtain ⟨ha, rfl⟩ := mem_of_findAlias? found
          exact List.mem_map_of_mem ha
        have few := length_lt_of_push nodup inside again there
        rw [aliasIds, List.length_map] at few
        omega
  | succ depth ih =>
    cases found : g.findAlias? id with
    | none =>
      rw [followAliases_none found]
      exact .ok id
    | some a =>
      rw [followAliases_succ found]
      by_cases again : id ∈ chain
      · rw [if_pos (by simpa using again)]
        exact .error loop
      · rw [if_neg (by simpa using again)]
        obtain ⟨ha, rfl⟩ := mem_of_findAlias? found
        refine ih (nodup_push nodup again) (push_subset inside (List.mem_map_of_mem ha)) ?_
          (aliasLoop_isLoop (by simp))
        rw [List.length_append, List.length_singleton]
        omega

/-- Aliases fail to lead somewhere only by a loop. -/
theorem resolveAlias_loops (id : String) : FailsBy IsLoop (g.resolveAlias id) :=
  followAliases_loops .nil (by simp) (by simp)

theorem resolveAlias_fails (id : String) : FailsBy Failure.IsFault (g.resolveAlias id) :=
  (resolveAlias_loops id).mono fun _ loop => loop.isFault

/-! ## Direct aliases -/

/-- Every alias leads to its target in one step. -/
def Direct (g : Graph) : Prop := ∀ a ∈ g.aliases, g.findAlias? a.target = none

/-- What is no alias leads to itself. -/
theorem resolveAlias_of_free (free : g.findAlias? id = none) : g.resolveAlias id = .ok id :=
  followAliases_none free

/-- An alias of what is no alias leads there. -/
theorem resolveAlias_of_direct {a : Alias} (found : g.findAlias? id = some a)
    (free : g.findAlias? a.target = none) : g.resolveAlias id = .ok a.target := by
  unfold resolveAlias
  obtain ⟨n, hn⟩ : ∃ n, g.aliases.length = n + 1 := by
    cases hl : g.aliases with
    | nil => simp [findAlias?, hl] at found
    | cons b bs => exact ⟨bs.length, by simp⟩
  rw [hn, followAliases_succ found, if_neg (by simp), followAliases_none free]

/-- Where aliases are direct, every identifier leads somewhere. -/
theorem Direct.resolves (direct : g.Direct) (id : String) :
    ∃ target, g.resolveAlias id = .ok target := by
  cases hf : g.findAlias? id with
  | none => exact ⟨id, resolveAlias_of_free hf⟩
  | some a => exact ⟨a.target, resolveAlias_of_direct hf (direct a (mem_of_findAlias? hf).1)⟩

/-! ## Chains -/

section Chains

variable {chain lead loop : List String} {depth steps : Nat}

/-- The identifier that the chain of `id` has come to after some steps, if it is that long. -/
def chainAt (g : Graph) (id : String) : (steps : Nat) → Option String
  | 0 => some id
  | steps + 1 => (g.chainAt id steps).bind fun x => (g.findAlias? x).map (·.target)

/-- The chain of `id` ends at `target`, the first identifier on it that is no alias. -/
def EndsAt (g : Graph) (id target : String) : Prop :=
  ∃ steps, g.chainAt id steps = some target ∧ g.hasAlias target = false ∧
    ∀ j < steps, ∃ x, g.chainAt id j = some x ∧ g.hasAlias x = true

/-- The chain of `id` goes on and on. -/
def NeverEnds (g : Graph) (id : String) : Prop :=
  ∀ steps, ∃ x, g.chainAt id steps = some x ∧ g.hasAlias x = true

/-- The chain from `id` passes `lead` and then `loop`, which ends with what it begins with. Apart
from that nothing is passed twice. -/
structure RunsInto (g : Graph) (id : String) (lead loop : List String) : Prop where
  starts : (lead ++ loop).head? = some id
  linked : (lead ++ loop).IsChain g.Aliases
  closes : loop.head? = loop.getLast?
  proper : 2 ≤ loop.length
  once : (lead ++ loop.dropLast).Nodup

theorem hasAlias_eq_false : g.hasAlias id = false ↔ g.findAlias? id = none := by
  rw [← Bool.not_eq_true, hasAlias_iff, findAlias?_eq_none_iff]

theorem hasAlias_of_found {a : Alias} (found : g.findAlias? id = some a) :
    g.hasAlias id = true := by
  by_contra h
  rw [hasAlias_eq_false.1 (Bool.not_eq_true _ ▸ h)] at found
  cases found

/-! ## Chains that end -/

/-- The chain of an alias is the chain of its target, one step later. -/
theorem chainAt_alias {a : Alias} (found : g.findAlias? id = some a) (steps : Nat) :
    g.chainAt id (steps + 1) = g.chainAt a.target steps := by
  induction steps with
  | zero => simp [chainAt, found]
  | succ steps ih => rw [chainAt, ih, chainAt]

theorem EndsAt.alias {a : Alias} (found : g.findAlias? id = some a) (h : g.EndsAt a.target target) :
    g.EndsAt id target := by
  obtain ⟨steps, here, free, before⟩ := h
  refine ⟨steps + 1, (chainAt_alias found steps).trans here, free, ?_⟩
  intro j hj
  cases j with
  | zero => exact ⟨id, rfl, hasAlias_of_found found⟩
  | succ j =>
    rw [chainAt_alias found j]
    exact before j (by omega)

theorem leads_of_chainAt (here : g.chainAt id steps = some target)
    (free : g.findAlias? target = none) : g.Leads id target := by
  induction steps generalizing id with
  | zero =>
    obtain rfl : id = target := Option.some.inj here
    exact .here free
  | succ steps ih =>
    cases found : g.findAlias? id with
    | none =>
      -- a chain that ends at once is no longer than that
      have short : g.chainAt id (steps + 1) = none := by
        clear here ih
        induction steps with
        | zero => simp [chainAt, found]
        | succ steps ih => rw [chainAt, ih, Option.bind_none]
      cases short.symm.trans here
    | some a =>
      rw [chainAt_alias found] at here
      exact .there found (ih here)

/-- Aliases lead to where the chain ends. -/
theorem endsAt_iff : g.EndsAt id target ↔ g.Leads id target := by
  constructor
  · rintro ⟨steps, here, free, -⟩
    exact leads_of_chainAt here (hasAlias_eq_false.1 free)
  · intro h
    induction h with
    | here free =>
      exact ⟨0, rfl, hasAlias_eq_false.2 free, fun j hj => absurd hj (Nat.not_lt_zero j)⟩
    | there found _ ih => exact ih.alias found

/-- A chain goes on and on unless it ends somewhere. -/
theorem neverEnds_iff : g.NeverEnds id ↔ ∀ target, ¬ g.EndsAt id target := by
  constructor
  · rintro on target ⟨steps, here, free, -⟩
    obtain ⟨x, there, taken⟩ := on steps
    obtain rfl := Option.some.inj (here.symm.trans there)
    rw [free] at taken
    cases taken
  · intro open' steps
    induction steps using Nat.strong_induction_on with
    | _ steps ih =>
      obtain ⟨x, here⟩ : ∃ x, g.chainAt id steps = some x := by
        cases steps with
        | zero => exact ⟨id, rfl⟩
        | succ steps =>
          obtain ⟨x, here, taken⟩ := ih steps (Nat.lt_succ_self steps)
          cases found : g.findAlias? x with
          | none => rw [hasAlias_eq_false.2 found] at taken; cases taken
          | some a => exact ⟨a.target, by rw [chainAt, here, Option.bind_some, found]; rfl⟩
      refine ⟨x, here, ?_⟩
      by_contra free
      exact open' x ⟨steps, here, Bool.not_eq_true _ ▸ free, fun j hj => ih j hj⟩

/-! ## Chains that run into a loop -/

/-- A chain that has come back to `id` is in a loop since it was there first. -/
theorem runsInto_of_again {start : String} (starts : (chain ++ [id]).head? = some start)
    (linked : (chain ++ [id]).IsChain g.Aliases) (once : chain.Nodup) (again : id ∈ chain) :
    g.RunsInto start (chain.take (chain.idxOf id)) (chain.drop (chain.idxOf id) ++ [id]) := by
  have inside : chain.idxOf id < chain.length := List.idxOf_lt_length_of_mem again
  have whole : chain.take (chain.idxOf id) ++ (chain.drop (chain.idxOf id) ++ [id]) =
      chain ++ [id] := by
    rw [← List.append_assoc, List.take_append_drop]
  have first : (chain.drop (chain.idxOf id)).head? = some id := by
    rw [List.head?_drop, List.getElem?_eq_getElem inside, List.getElem_idxOf]
  constructor
  · rw [whole]
    exact starts
  · rw [whole]
    exact linked
  · rw [List.head?_append, first, List.getLast?_concat]
    rfl
  · rw [List.length_append, List.length_drop, List.length_singleton]
    omega
  · rw [List.dropLast_concat, List.take_append_drop]
    exact once

theorem circularAlias_inj {found : List String} (h : Failure.aliasLoop (found ++ [id]) =
    .fault (.circularAlias loop) none) : found ++ [id] = loop := by
  simpa [Failure.aliasLoop] using h

/-- The walk along aliases fails with the loop that it runs into. -/
theorem followAliases_loop {start : String} (starts : (chain ++ [id]).head? = some start)
    (linked : (chain ++ [id]).IsChain g.Aliases) (once : chain.Nodup)
    (h : g.followAliases depth chain id = .error (.fault (.circularAlias loop) none)) :
    ∃ lead, g.RunsInto start lead loop := by
  induction depth generalizing chain id with
  | zero =>
    cases found : g.findAlias? id with
    | none =>
      rw [followAliases_none found] at h
      cases h
    | some a =>
      rw [followAliases_zero found] at h
      split at h
      next again =>
        obtain rfl := circularAlias_inj (Except.error.inj h)
        exact ⟨_, runsInto_of_again starts linked once (by simpa using again)⟩
      next => cases h
  | succ depth ih =>
    cases found : g.findAlias? id with
    | none =>
      rw [followAliases_none found] at h
      cases h
    | some a =>
      rw [followAliases_succ found] at h
      split at h
      next again =>
        obtain rfl := circularAlias_inj (Except.error.inj h)
        exact ⟨_, runsInto_of_again starts linked once (by simpa using again)⟩
      next new =>
        have starts' : (chain ++ [id] ++ [a.target]).head? = some start := by
          rw [List.head?_append, starts]
          rfl
        have linked' : (chain ++ [id] ++ [a.target]).IsChain g.Aliases := by
          refine List.isChain_append.2 ⟨linked, .singleton _, ?_⟩
          intro x hx y hy
          rw [List.getLast?_concat, Option.mem_some_iff] at hx
          rw [List.head?_singleton, Option.mem_some_iff] at hy
          exact hx ▸ hy ▸ ⟨a, found, rfl⟩
        exact ih starts' linked' (nodup_push once (by simpa using new)) h

/-- Resolution ends for every identifier. It gives the first one on the chain that is no alias;
where there is none, it fails with the loop that the chain runs into. -/
theorem resolveAlias_chain (id : String) :
    ((∃ target, g.resolveAlias id = .ok target) ∨
      ∃ loop, g.resolveAlias id = .error (.fault (.circularAlias loop) none)) ∧
    (∀ target, g.resolveAlias id = .ok target ↔ g.EndsAt id target) ∧
    ((∃ loop, g.resolveAlias id = .error (.fault (.circularAlias loop) none)) ↔ g.NeverEnds id) ∧
    ∀ loop, g.resolveAlias id = .error (.fault (.circularAlias loop) none) →
      ∃ lead, g.RunsInto id lead loop := by
  have gives (target) : g.resolveAlias id = .ok target ↔ g.EndsAt id target :=
    resolveAlias_ok.trans endsAt_iff.symm
  have ends : (∃ target, g.resolveAlias id = .ok target) ∨
      ∃ loop, g.resolveAlias id = .error (.fault (.circularAlias loop) none) := by
    cases h : g.resolveAlias id with
    | ok target => exact .inl ⟨target, rfl⟩
    | error e =>
      obtain ⟨loop, rfl⟩ := resolveAlias_loops id e h
      exact .inr ⟨loop, rfl⟩
  refine ⟨ends, gives, ?_, ?_⟩
  · rw [neverEnds_iff]
    constructor
    · rintro ⟨loop, fails⟩ target here
      cases fails.symm.trans ((gives target).2 here)
    · intro open'
      exact ends.resolve_left fun ⟨target, h⟩ => open' target ((gives target).1 h)
  · intro loop h
    exact followAliases_loop rfl (.singleton id) .nil h

end Chains

end Wiring.Graph
