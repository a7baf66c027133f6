import Mathlib.Data.List.Dedup
import Wiring.Proofs.Definition.Marks
import Wiring.Proofs.Graph.Leads

/-!
# Operations on what is registered

Definitions and aliases share one set of identifiers. Each operation changes what one identifier
stands for, and nothing else. So an identifier stands for what the last operation on it left, and
definitions stand in the order in which they were last added.
-/

namespace Wiring

/-- What an identifier stands for. -/
inductive Registrant where
  | definition (d : Definition)
  | alias (a : Alias)

/-- An operation on what is registered. -/
inductive Operation where
  | add (d : Definition)
  | remove (id : String)
  | setAlias (a : Alias)
  | removeAlias (id : String)

namespace Operation

/-- The identifier that an operation is on. -/
def id : Operation → String
  | add d => d.id
  | remove id => id
  | setAlias a => a.id
  | removeAlias id => id

/-- What an operation leaves of what its identifier stood for. To remove a definition does nothing
to an alias, and the other way round. -/
def leave (held : Option Registrant) : Operation → Option Registrant
  | add d => some (.definition d)
  | setAlias a => some (.alias a)
  | remove _ =>
    match held with
    | some (.alias a) => some (.alias a)
    | _ => none
  | removeAlias _ =>
    match held with
    | some (.definition d) => some (.definition d)
    | _ => none

/-- What the operations on an identifier left, the last of them last. -/
def left (ops : List Operation) (id : String) : Option Registrant :=
  (ops.filter fun op => op.id == id).foldl leave none

/-- The identifier of the definition that an operation adds. -/
def added? : Operation → Option String
  | add d => some d.id
  | _ => none

/-- The identifiers of all definitions that were added, in the order in which they were added last.
-/
def addedLast (ops : List Operation) : List String := (ops.filterMap added?).dedup

variable {ops : List Operation} {op : Operation} {x : String}

theorem left_same (op : Operation) : left (ops ++ [op]) op.id = op.leave (left ops op.id) := by
  unfold left
  rw [List.filter_append, List.filter_cons_of_pos (by simp), List.filter_nil, List.foldl_concat]

theorem left_other (other : x ≠ op.id) : left (ops ++ [op]) x = left ops x := by
  unfold left
  rw [List.filter_append, List.filter_cons_of_neg (by simpa using other.symm), List.filter_nil,
    List.append_nil]

theorem dedup_concat (xs : List String) (x : String) :
    (xs ++ [x]).dedup = (xs.dedup.filter fun y => !(y == x)) ++ [x] := by
  induction xs with
  | nil => rfl
  | cons y xs ih =>
    rw [List.cons_append, List.dedup_cons, List.dedup_cons, ih]
    by_cases e : y = x
    · subst e
      by_cases h : y ∈ xs <;> simp [h]
    · by_cases h : y ∈ xs <;> simp [h, e]

theorem addedLast_add (d : Definition) : addedLast (ops ++ [add d]) =
    ((addedLast ops).filter fun x => !(x == d.id)) ++ [d.id] := by
  unfold addedLast
  rw [List.filterMap_append]
  exact dedup_concat _ _

theorem addedLast_other (none : op.added? = none) : addedLast (ops ++ [op]) = addedLast ops := by
  simp [addedLast, none]

end Operation

namespace Graph

variable {g g' : Graph} {x y : String} {a : Alias} {d : Definition} {ops : List Operation}
  {op : Operation}

/-- Does an operation, if it is accepted. -/
def operate (g : Graph) : Operation → Except Failure Graph
  | .add d => .ok (g.add d)
  | .remove id => .ok (g.remove id)
  | .setAlias a => g.setAlias a
  | .removeAlias id => .ok (g.removeAlias id)

/-- What an identifier stands for in a graph. Recipes that are embedded in a definition get marks of
their own there. -/
def StandsFor (g : Graph) (id : String) : Option Registrant → Prop
  | none => g.find? id = none ∧ g.findAlias? id = none
  | some (.definition d) =>
    (∃ d', g.find? id = some d' ∧ Definition.Alike d d') ∧ g.findAlias? id = none
  | some (.alias a) => g.find? id = none ∧ g.findAlias? id = some a

/-! ## Operations one by one -/

theorem find?_without {α : Type} (key : α → String) (as : List α) (x y : String) :
    (as.filter fun a => !(key a == x)).find? (fun a => key a == y) =
      if y = x then none else as.find? fun a => key a == y := by
  rw [List.find?_filter]
  by_cases h : y = x
  · subst h
    simp
  · rw [if_neg h]
    congr 1
    funext a
    by_cases e : key a = y
    · simp [e, h]
    · simp [e]

theorem find?_remove : (g.remove x).find? y = if y = x then none else g.find? y :=
  find?_without _ _ x y

theorem findAlias?_removeAlias :
    (g.removeAlias x).findAlias? y = if y = x then none else g.findAlias? y :=
  find?_without _ _ x y

theorem ids_remove : (g.remove x).ids = g.ids.filter fun y => !(y == x) := by
  unfold ids remove
  rw [List.filter_map]
  rfl

theorem aliasIds_removeAlias :
    (g.removeAlias x).aliasIds = g.aliasIds.filter fun y => !(y == x) := by
  unfold aliasIds removeAlias
  rw [List.filter_map]
  rfl

/-- The definition that a graph keeps when one is added, with marks of its own. -/
def stored (g : Graph) (d : Definition) : Definition := ((Definition.freshen d).run g.nextMark).1

theorem alike_stored : Definition.Alike d (g.stored d) := Definition.alike_freshen d g.nextMark

theorem stored_id : (g.stored d).id = d.id := alike_stored.id_eq

theorem definitions_add : (g.add d).definitions = (g.remove d.id).definitions ++ [g.stored d] := by
  rw [← stored_id (g := g)]
  rfl

theorem aliases_add : (g.add d).aliases = (g.removeAlias d.id).aliases := by
  rw [← stored_id (g := g)]
  rfl

theorem find?_add : (g.add d).find? y = if y = d.id then some (g.stored d) else g.find? y := by
  have before : ((g.remove d.id).definitions.find? fun e => e.id == y) = _ := find?_remove
  rw [find?, definitions_add, List.find?_append, before]
  by_cases h : y = d.id
  · simp [h, stored_id]
  · have other : (g.stored d).id ≠ y := fun e => h (e.symm.trans stored_id)
    simp [h, other]

theorem findAlias?_add : (g.add d).findAlias? y = if y = d.id then none else g.findAlias? y := by
  rw [findAlias?, aliases_add]
  exact findAlias?_removeAlias

theorem ids_add : (g.add d).ids = (g.ids.filter fun y => !(y == d.id)) ++ [d.id] := by
  rw [ids, definitions_add, List.map_append, List.map_singleton, stored_id, ← ids_remove]
  rfl

theorem aliasIds_add : (g.add d).aliasIds = g.aliasIds.filter fun y => !(y == d.id) := by
  rw [aliasIds, aliases_add]
  exact aliasIds_removeAlias

/-- The aliases with one of them set: a new one comes last. -/
def aliasesWith (g : Graph) (a : Alias) : List Alias :=
  if g.hasAlias a.id then g.aliases.map fun b => if b.id == a.id then a else b
  else g.aliases ++ [a]

theorem setAlias_ok (h : g.setAlias a = .ok g') :
    g'.definitions = (g.remove a.id).definitions ∧ g'.aliases = g.aliasesWith a := by
  unfold setAlias at h
  split at h
  · cases h
  split at h
  · cases h
  obtain rfl := Except.ok.inj h
  exact ⟨rfl, rfl⟩

theorem id_replaced (b : Alias) : (if b.id == a.id then a else b).id = b.id := by
  by_cases h : b.id = a.id <;> simp [h]

theorem find?_aliasesWith : ((g.aliasesWith a).find? fun b => b.id == y) =
    if y = a.id then some a else g.findAlias? y := by
  unfold aliasesWith
  split
  next there =>
    have same : ((fun b : Alias => b.id == y) ∘ fun b => if b.id == a.id then a else b) =
        fun b => b.id == y := by
      funext b
      simp only [Function.comp, id_replaced]
    rw [List.find?_map, same]
    change (g.findAlias? y).map _ = _
    cases found : g.findAlias? y with
    | none =>
      have other : y ≠ a.id := by
        rintro rfl
        rw [hasAlias_eq_false.2 found] at there
        cases there
      rw [if_neg other, Option.map_none]
    | some b =>
      obtain ⟨-, rfl⟩ := mem_of_findAlias? found
      by_cases h : b.id = a.id <;> simp [h]
  next new =>
    have none : g.findAlias? a.id = none := hasAlias_eq_false.1 (Bool.not_eq_true _ ▸ new)
    rw [List.find?_append]
    change (g.findAlias? y).or _ = _
    by_cases h : y = a.id
    · subst h
      simp [none]
    · simp [h, Ne.symm h]

theorem find?_setAlias (h : g.setAlias a = .ok g') :
    g'.find? y = if y = a.id then none else g.find? y := by
  rw [find?, (setAlias_ok h).1]
  exact find?_remove

theorem findAlias?_setAlias (h : g.setAlias a = .ok g') :
    g'.findAlias? y = if y = a.id then some a else g.findAlias? y := by
  rw [findAlias?, (setAlias_ok h).2]
  exact find?_aliasesWith

theorem ids_setAlias (h : g.setAlias a = .ok g') : g'.ids = g.ids.filter fun y => !(y == a.id) := by
  rw [ids, (setAlias_ok h).1]
  exact ids_remove

theorem aliasIds_setAlias (h : g.setAlias a = .ok g') (unique : g.aliasIds.Nodup) :
    g'.aliasIds.Nodup := by
  rw [aliasIds, (setAlias_ok h).2, aliasesWith]
  split
  next there =>
    have same : ((fun b : Alias => b.id) ∘ fun b => if b.id == a.id then a else b) = (·.id) := by
      funext b
      exact id_replaced b
    rw [List.map_map, same]
    exact unique
  next new =>
    rw [List.map_append, List.map_singleton]
    exact nodup_push unique (mt hasAlias_iff.2 new)

/-! ## Any operation -/

/-- Other identifiers stand for what they stood for. -/
theorem operate_other (h : g.operate op = .ok g') (other : y ≠ op.id) :
    g'.find? y = g.find? y ∧ g'.findAlias? y = g.findAlias? y := by
  cases op with
  | add d =>
    obtain rfl := Except.ok.inj h
    exact ⟨find?_add.trans (if_neg other), findAlias?_add.trans (if_neg other)⟩
  | remove id =>
    obtain rfl := Except.ok.inj h
    exact ⟨find?_remove.trans (if_neg other), rfl⟩
  | setAlias a =>
    exact ⟨(find?_setAlias h).trans (if_neg other), (findAlias?_setAlias h).trans (if_neg other)⟩
  | removeAlias id =>
    obtain rfl := Except.ok.inj h
    exact ⟨rfl, findAlias?_removeAlias.trans (if_neg other)⟩

/-- The identifier of the operation stands for what the operation leaves. -/
theorem operate_leaves (h : g.operate op = .ok g') {held : Option Registrant}
    (before : g.StandsFor op.id held) : g'.StandsFor op.id (op.leave held) := by
  cases op with
  | add d =>
    obtain rfl := Except.ok.inj h
    have here : (g.add d).find? d.id = some (g.stored d) := find?_add.trans (if_pos rfl)
    exact ⟨⟨g.stored d, here, alike_stored⟩, findAlias?_add.trans (if_pos rfl)⟩
  | remove id =>
    obtain rfl := Except.ok.inj h
    have gone : (g.remove id).find? id = none := find?_remove.trans (if_pos rfl)
    match held, before with
    | none, before => exact ⟨gone, before.2⟩
    | some (.definition d), before => exact ⟨gone, before.2⟩
    | some (.alias a), before => exact ⟨gone, before.2⟩
  | setAlias a =>
    exact ⟨(find?_setAlias h).trans (if_pos rfl), (findAlias?_setAlias h).trans (if_pos rfl)⟩
  | removeAlias id =>
    obtain rfl := Except.ok.inj h
    have gone : (g.removeAlias id).findAlias? id = none := findAlias?_removeAlias.trans (if_pos rfl)
    match held, before with
    | none, before => exact ⟨before.1, gone⟩
    | some (.definition d), before => exact ⟨before.1, gone⟩
    | some (.alias a), before => exact ⟨before.1, gone⟩

theorem operate_unique (h : g.operate op = .ok g') (unique : g.ids.Nodup) : g'.ids.Nodup := by
  cases op with
  | add d =>
    obtain rfl := Except.ok.inj h
    rw [ids_add]
    exact nodup_push (unique.filter _) (by simp)
  | remove id =>
    obtain rfl := Except.ok.inj h
    rw [ids_remove]
    exact unique.filter _
  | setAlias a =>
    rw [ids_setAlias h]
    exact unique.filter _
  | removeAlias id =>
    obtain rfl := Except.ok.inj h
    exact unique

theorem operate_uniqueAliases (h : g.operate op = .ok g') (unique : g.aliasIds.Nodup) :
    g'.aliasIds.Nodup := by
  cases op with
  | add d =>
    obtain rfl := Except.ok.inj h
    rw [aliasIds_add]
    exact unique.filter _
  | remove id =>
    obtain rfl := Except.ok.inj h
    exact unique
  | setAlias a => exact aliasIds_setAlias h unique
  | removeAlias id =>
    obtain rfl := Except.ok.inj h
    rw [aliasIds_removeAlias]
    exact unique.filter _

/-- Definitions that stay keep their order. -/
theorem order_without (taken : g'.ids = g.ids.filter fun y => !(y == x)) {added : List String}
    (order : g.ids = added.filter fun id => g.has id) :
    g'.ids = added.filter fun id => g'.has id := by
  rw [taken, order, List.filter_filter]
  refine List.filter_congr fun y _ => ?_
  rw [Bool.eq_iff_iff, has_iff, taken, List.mem_filter, ← has_iff, Bool.and_eq_true, and_comm]

/-- A definition that is added comes last. -/
theorem order_add {added : List String} (order : g.ids = added.filter fun id => g.has id) :
    (g.add d).ids =
      ((added.filter fun y => !(y == d.id)) ++ [d.id]).filter fun id => (g.add d).has id := by
  have last : (g.add d).has d.id = true := by
    rw [has_iff, ids_add]
    exact List.mem_append_right _ (List.mem_singleton_self _)
  rw [ids_add, order, List.filter_append, List.filter_cons_of_pos last, List.filter_nil,
    List.filter_filter, List.filter_filter]
  congr 1
  refine List.filter_congr fun y _ => ?_
  rw [Bool.eq_iff_iff, Bool.and_eq_true, Bool.and_eq_true, has_iff, has_iff, ids_add, and_comm]
  by_cases same : y = d.id
  · simp [same]
  · simp [same]

theorem operate_order (h : g.operate op = .ok g')
    (order : g.ids = (Operation.addedLast ops).filter fun id => g.has id) :
    g'.ids = (Operation.addedLast (ops ++ [op])).filter fun id => g'.has id := by
  cases op with
  | add d =>
    obtain rfl := Except.ok.inj h
    rw [Operation.addedLast_add]
    exact order_add order
  | remove id =>
    obtain rfl := Except.ok.inj h
    rw [Operation.addedLast_other rfl]
    exact order_without ids_remove order
  | setAlias a =>
    rw [Operation.addedLast_other rfl]
    exact order_without (ids_setAlias h) order
  | removeAlias id =>
    obtain rfl := Except.ok.inj h
    rw [Operation.addedLast_other rfl]
    exact order

/-! ## Runs of operations -/

/-- A graph that operations have made: each definition and each alias stands there once, and what
identifiers stand for and the order of the definitions is as the operations left it. -/
structure Records (ops : List Operation) (g : Graph) : Prop where
  unique : g.ids.Nodup
  uniqueAliases : g.aliasIds.Nodup
  stands : ∀ id, g.StandsFor id (Operation.left ops id)
  order : g.ids = (Operation.addedLast ops).filter fun id => g.has id

/-- Where nothing is registered, no operation has been done. -/
theorem records_empty (undefined : g.definitions = []) (unaliased : g.aliases = []) :
    Records [] g where
  unique := by simp [ids, undefined]
  uniqueAliases := by simp [aliasIds, unaliased]
  stands id := by simp [StandsFor, Operation.left, find?, findAlias?, undefined, unaliased]
  order := by simp [ids, undefined, Operation.addedLast]

theorem StandsFor.congr {id : String} {held : Option Registrant} (h : g.StandsFor id held)
    (definitions : g'.find? id = g.find? id) (aliases : g'.findAlias? id = g.findAlias? id) :
    g'.StandsFor id held := by
  unfold StandsFor at h ⊢
  rwa [definitions, aliases]

theorem StandsFor.apart {id : String} {held : Option Registrant} (h : g.StandsFor id held) :
    ¬ (g.has id = true ∧ g.hasAlias id = true) := by
  rintro ⟨defined, aliased⟩
  match held, h with
  | none, h => exact find?_eq_none_iff.1 h.1 (has_iff.1 defined)
  | some (.definition d), h => exact findAlias?_eq_none_iff.1 h.2 (hasAlias_iff.1 aliased)
  | some (.alias a), h => exact find?_eq_none_iff.1 h.1 (has_iff.1 defined)

/-- An accepted operation is recorded. -/
theorem Records.step (h : Records ops g) (accepted : g.operate op = .ok g') :
    Records (ops ++ [op]) g' where
  unique := operate_unique accepted h.unique
  uniqueAliases := operate_uniqueAliases accepted h.uniqueAliases
  stands id := by
    by_cases same : id = op.id
    · subst same
      rw [Operation.left_same]
      exact operate_leaves accepted (h.stands op.id)
    · rw [Operation.left_other same]
      obtain ⟨definitions, aliases⟩ := operate_other accepted same
      exact (h.stands id).congr definitions aliases
  order := operate_order accepted h.order

/-- What a graph keeps of former recipes does not count. -/
theorem Records.after (h : Records ops g) (old : Graph) :
    Records ops (g.after old) :=
  ⟨h.unique, h.uniqueAliases, h.stands, h.order⟩

end Graph

end Wiring
