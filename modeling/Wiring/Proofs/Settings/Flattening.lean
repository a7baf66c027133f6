import Mathlib
import Wiring.Proofs.Parameter.Bags
import Wiring.Proofs.Settings.Escaping
import Wiring.Text.Identifier

/-!
# Settings as parameters and back

Settings are a tree, and `leaves` are the values at the ends of its paths of field names. Each leaf
becomes one parameter, named by its path: since no field name has a dot in it, paths can be read off
the names, and no two leaves share one. The parameters hold the leaves escaped, so that resolution
gives them back.
-/

namespace Wiring

namespace Setting

open Value

/-! ## Field names -/

theorem identifier_ne_empty {field : String} (named : Text.isIdentifier field = true) :
    field ≠ "" := by
  rintro rfl
  cases named

/-- A dot neither opens a name nor follows in one. -/
theorem dot_not_mem_identifier {field : String} (named : Text.isIdentifier field = true) :
    '.' ∉ field.toList := by
  have opens : Text.inRanges Text.nameStartRanges '.' = false := by decide +kernel
  have follows : Text.inRanges Text.namePartRanges '.' = false := by decide +kernel
  intro dot
  unfold Text.isIdentifier at named
  split at named
  · cases named
  next c rest chars =>
    obtain ⟨first, others⟩ := Bool.and_eq_true_iff.1 named
    rw [chars] at dot
    rcases List.mem_cons.1 dot with rfl | dot
    · cases opens.symm.trans first
    · cases follows.symm.trans (List.all_eq_true.1 others '.' dot)

/-- The name of what is at the end of a path of field names below `path`. -/
def dotted (path : String) (fields : List String) : String :=
  ".".intercalate (if path = "" then fields else path :: fields)

theorem dotted_nil {path : String} : dotted path [] = path := by
  unfold dotted
  split
  next empty => rw [String.intercalate_nil, empty]
  · exact String.intercalate_singleton

theorem dotted_cons {path field : String} {fields : List String} (filled : field ≠ "") :
    dotted (fieldName path field) fields = dotted path (field :: fields) := by
  unfold dotted fieldName
  by_cases empty : path = ""
  · simp [empty, filled]
  · have below : path ++ "." ++ field ≠ "" := by simp [String.append_eq_empty_iff]
    rw [if_neg empty, if_neg empty, if_neg below, String.intercalate_cons_cons]
    cases fields with
    | nil => rw [String.intercalate_singleton, String.intercalate_singleton]
    | cons other fields =>
      simp only [String.intercalate_cons_cons, String.append_assoc]

/-- Texts without dots can be read off their row. -/
theorem intercalate_dot_injective {fields fields' : List String} (some : fields ≠ [])
    (some' : fields' ≠ []) (plain : ∀ f ∈ fields, '.' ∉ f.toList)
    (plain' : ∀ f ∈ fields', '.' ∉ f.toList)
    (same : ".".intercalate fields = ".".intercalate fields') : fields = fields' := by
  have split {names : List String} (some : names ≠ []) (plain : ∀ f ∈ names, '.' ∉ f.toList) :
      (".".intercalate names).toList.splitOn '.' = names.map String.toList := by
    rw [String.toList_intercalate]
    exact List.splitOn_intercalate '.' (by simpa using plain) (by simpa using some)
  have rows : fields.map String.toList = fields'.map String.toList := by
    rw [← split some plain, same, split some' plain']
  exact List.map_injective_iff.2 (fun _ _ => String.toList_inj.1) rows

/-- Paths of names without dots can be read off what they name. -/
theorem dotted_injective {path : String} {fields fields' : List String} (some : fields ≠ [])
    (some' : fields' ≠ []) (plain : ∀ f ∈ fields, '.' ∉ f.toList)
    (plain' : ∀ f ∈ fields', '.' ∉ f.toList) (same : dotted path fields = dotted path fields') :
    fields = fields' := by
  refine intercalate_dot_injective some some' plain plain' ?_
  unfold dotted at same
  split at same
  · exact same
  · obtain ⟨field, rest, rfl⟩ := List.exists_cons_of_ne_nil some
    obtain ⟨field', rest', rfl⟩ := List.exists_cons_of_ne_nil some'
    rw [String.intercalate_cons_cons, String.intercalate_cons_cons] at same
    exact (String.append_right_inj _).1 same

/-! ## Leaves -/

mutual

/-- The values of settings that are not models, each with the path of field names to it. -/
def leaves : Setting → List (List String × Value)
  | .leaf v => [([], v)]
  | .model fields => fieldLeaves fields

/-- The leaves of the fields of a model. -/
def fieldLeaves : List (String × Setting) → List (List String × Value)
  | [] => []
  | (field, setting) :: rest =>
    (leaves setting).map (fun l => (field :: l.1, l.2)) ++ fieldLeaves rest

end

mutual

/-- Whether in every model of the settings the fields have different names, all of them
identifiers, and all leaves are values that there are. -/
def isFormed : Setting → Bool
  | .leaf v => v.isFormed
  | .model fields => fieldsFormed fields

/-- Whether the fields of a model are formed. -/
def fieldsFormed : List (String × Setting) → Bool
  | [] => true
  | (field, setting) :: rest =>
    Text.isIdentifier field && rest.all (fun e => e.1 != field) && isFormed setting &&
      fieldsFormed rest

end

/-- What the first field of a formed model is, and what the others are. -/
structure FormedField (field : String) (setting : Setting) (rest : List (String × Setting)) :
    Prop where
  identifier : Text.isIdentifier field = true
  fresh : ∀ e ∈ rest, e.1 ≠ field
  setting : setting.isFormed = true
  others : fieldsFormed rest = true

theorem fieldsFormed_cons {field : String} {setting : Setting} {rest : List (String × Setting)} :
    fieldsFormed ((field, setting) :: rest) = true ↔ FormedField field setting rest := by
  simp only [fieldsFormed, Bool.and_eq_true, List.all_eq_true, bne_iff_ne]
  exact ⟨fun ⟨⟨⟨h₁, h₂⟩, h₃⟩, h₄⟩ => ⟨h₁, h₂, h₃, h₄⟩,
    fun h => ⟨⟨⟨h.identifier, h.fresh⟩, h.setting⟩, h.others⟩⟩

/-- A leaf of formed settings: a value that there is, at the end of a path of identifiers. -/
structure FormedLeaf (l : List String × Value) : Prop where
  identifiers : ∀ f ∈ l.1, Text.isIdentifier f = true
  value : l.2.isFormed = true

mutual

theorem leaves_formed {settings : Setting} (formed : settings.isFormed = true) :
    ∀ l ∈ settings.leaves, FormedLeaf l := by
  match settings with
  | .leaf v =>
    intro l hl
    obtain rfl := List.mem_singleton.1 hl
    exact ⟨by simp, formed⟩
  | .model fields => exact fieldLeaves_formed formed

theorem fieldLeaves_formed {fields : List (String × Setting)}
    (formed : fieldsFormed fields = true) : ∀ l ∈ fieldLeaves fields, FormedLeaf l := by
  match fields with
  | [] => simp [fieldLeaves]
  | (field, setting) :: rest =>
    have first : FormedField field setting rest := fieldsFormed_cons.1 formed
    intro l hl
    rcases List.mem_append.1 hl with hl | hl
    · obtain ⟨l, inner, rfl⟩ := List.mem_map.1 hl
      have leaf : FormedLeaf l := leaves_formed first.setting l inner
      exact ⟨List.forall_mem_cons.2 ⟨first.identifier, leaf.identifiers⟩, leaf.value⟩
    · exact fieldLeaves_formed first.others l hl

end

/-- The path to a leaf of a model starts with one of its fields. -/
theorem exists_field {fields : List (String × Setting)} {l : List String × Value}
    (h : l ∈ fieldLeaves fields) : ∃ e ∈ fields, ∃ path, l.1 = e.1 :: path := by
  match fields with
  | (field, setting) :: rest =>
    rcases List.mem_append.1 h with h | h
    · obtain ⟨l, -, rfl⟩ := List.mem_map.1 h
      exact ⟨_, List.mem_cons_self, l.1, rfl⟩
    · obtain ⟨e, he, path⟩ := exists_field h
      exact ⟨e, List.mem_cons_of_mem _ he, path⟩

mutual

/-- No two leaves are at the end of one path. -/
theorem paths_nodup {settings : Setting} (formed : settings.isFormed = true) :
    (settings.leaves.map Prod.fst).Nodup := by
  match settings with
  | .leaf v => exact List.nodup_singleton _
  | .model fields => exact fieldPaths_nodup formed

theorem fieldPaths_nodup {fields : List (String × Setting)}
    (formed : fieldsFormed fields = true) : ((fieldLeaves fields).map Prod.fst).Nodup := by
  match fields with
  | [] => exact List.nodup_nil
  | (field, setting) :: rest =>
    have first : FormedField field setting rest := fieldsFormed_cons.1 formed
    have inner : ((setting.leaves.map Prod.fst).map (field :: ·)).Nodup :=
      (paths_nodup first.setting).map fun _ _ => List.tail_eq_of_cons_eq
    rw [fieldLeaves, List.map_append, List.map_map]
    rw [List.map_map] at inner
    refine List.nodup_append.2 ⟨inner, fieldPaths_nodup first.others, ?_⟩
    rintro _ here _ there rfl
    obtain ⟨l, -, rfl⟩ := List.mem_map.1 here
    obtain ⟨l', inside, same⟩ := List.mem_map.1 there
    obtain ⟨e, he, path, starts⟩ := exists_field inside
    exact first.fresh e he (List.cons.inj (starts.symm.trans same)).1

end

/-! ## Names of leaves -/

/-- The leaves of settings below `path` by their names. -/
def named (path : String) (settings : Setting) : Table Value :=
  settings.leaves.map fun l => (dotted path l.1, l.2)

/-- No two leaves of a model have one name. -/
theorem named_nodup {path : String} {fields : List (String × Setting)}
    (formed : (model fields).isFormed = true) : (named path (model fields)).names.Nodup := by
  have names : (named path (model fields)).names =
      ((model fields).leaves.map Prod.fst).map (dotted path) := by
    rw [named, Table.names, List.map_map, List.map_map]
    rfl
  rw [names]
  refine List.Nodup.map_on ?_ (paths_nodup formed)
  have readable (fs : List String) (h : fs ∈ (model fields).leaves.map Prod.fst) :
      fs ≠ [] ∧ ∀ f ∈ fs, '.' ∉ f.toList := by
    obtain ⟨l, hl, rfl⟩ := List.mem_map.1 h
    obtain ⟨e, -, rest, starts⟩ := exists_field hl
    refine ⟨by simp [starts], fun f hf => ?_⟩
    exact dot_not_mem_identifier ((leaves_formed formed l hl).identifiers f hf)
  intro fs hfs fs' hfs' same
  obtain ⟨some, plain⟩ := readable fs hfs
  obtain ⟨some', plain'⟩ := readable fs' hfs'
  exact dotted_injective some some' plain plain' same

/-- The values of a table, escaped. -/
def escaped (t : Table Value) : Table Value := t.map fun e => (e.1, escape e.2)

theorem names_escaped {t : Table Value} : (escaped t).names = t.names := by
  rw [escaped, Table.names, List.map_map]
  rfl

theorem escaped_append {t u : Table Value} : escaped (t ++ u) = escaped t ++ escaped u :=
  List.map_append

theorem named_cons {path field : String} {setting : Setting} {rest : List (String × Setting)}
    (filled : field ≠ "") : named path (model ((field, setting) :: rest)) =
      named (fieldName path field) setting ++ named path (model rest) := by
  simp only [named, leaves, fieldLeaves, List.map_append, List.map_map, Function.comp_def,
    dotted_cons filled]

mutual

/-- Flattening puts in the leaves by their names, escaped. -/
theorem flattenFrom_eq {path : String} {done : Table Value} {settings : Setting}
    (formed : settings.isFormed = true) :
    flattenFrom path done settings = done.merge (escaped (named path settings)) := by
  match settings with
  | .leaf v =>
    have single : escaped (named path (leaf v)) = [(path, escape v)] := by
      simp [escaped, named, leaves, dotted_nil]
    rw [flattenFrom, single]
    rfl
  | .model fields => rw [flattenFrom, flattenFields_eq formed]

theorem flattenFields_eq {path : String} {done : Table Value} {fields : List (String × Setting)}
    (formed : fieldsFormed fields = true) :
    flattenFields path done fields = done.merge (escaped (named path (model fields))) := by
  match fields with
  | [] => rfl
  | (field, setting) :: rest =>
    have first : FormedField field setting rest := fieldsFormed_cons.1 formed
    rw [flattenFields, flattenFrom_eq first.setting, flattenFields_eq first.others,
      named_cons (identifier_ne_empty first.identifier), escaped_append, Table.merge_append]

end

theorem flatten_eq {path : String} {fields : List (String × Setting)}
    (formed : (model fields).isFormed = true) :
    (model fields).flatten path = escaped (named path (model fields)) := by
  have unique : (Table.names ([] : Table Value) ++
      (escaped (named path (model fields))).names).Nodup := by
    rw [names_escaped]
    exact named_nodup formed
  rw [flatten, flattenFrom_eq formed, Table.merge_eq_append unique, List.nil_append]

end Setting

/-! ## Resolution of escaped parameters -/

namespace Bag

open Setting Value

variable {t done rest : Table Value} {name : String} {v : Value} {depth : Nat}

/-- An escaped parameter resolves to its value without the others. -/
theorem resolveFrom_escaped (there : (name, v) ∈ t) (unique : t.names.Nodup)
    (formed : v.isFormed = true) (new : done.get? name = none) :
    (resolveFrom (escaped t) (depth + 1) [] name).run done = .ok (v, done.put name v) := by
  have raw : (escaped t).get? name = some (escape v) := by
    rw [escaped, Table.get?_map, Table.get?_of_mem unique there]
    rfl
  unfold resolveFrom
  rw [get_run, new, raw]
  simp only [substitute_escape _ formed, pure_bind]
  rfl

theorem forM_resolveFrom_escaped (done : Table Value) (there : ∀ e ∈ rest, e ∈ t) (unique : t.names.Nodup)
    (formed : ∀ e ∈ t, e.2.isFormed = true) (new : (done.names ++ rest.names).Nodup) :
    (rest.names.forM fun name =>
      discard (resolveFrom (escaped t) (escaped t).length [] name) : Resolving Unit).run done =
        .ok ((), done ++ rest) := by
  induction rest generalizing done with
  | nil => exact congrArg (fun t => Except.ok ((), t)) (List.append_nil done).symm
  | cons e rest ih =>
    obtain ⟨name, v⟩ := e
    have here : (name, v) ∈ t := there _ List.mem_cons_self
    have fresh : name ∉ done.names := fun h =>
      (List.nodup_append.1 new).2.2 name h name List.mem_cons_self rfl
    have length : (escaped t).length = t.length - 1 + 1 := by
      rw [escaped, List.length_map, Nat.sub_add_cancel (List.length_pos_of_mem here)]
    have put : done.put name v = done ++ [(name, v)] := by
      rw [Table.put, if_neg fun h => fresh (Table.has_iff.1 h)]
    have after : (Table.names (done ++ [(name, v)]) ++ Table.names rest).Nodup := by
      simpa [Table.names] using new
    rw [Table.names, List.map_cons, forM_cons, StateT.run_bind, discard_run, bind_assoc, length,
      resolveFrom_escaped here unique (formed _ here) (Table.get?_eq_none_iff.2 fresh), ← length,
      put]
    have others := ih _ (fun e he => there e (List.mem_cons_of_mem _ he)) after
    rw [List.append_assoc] at others
    exact others

theorem resolution_escaped (unique : t.names.Nodup) (formed : ∀ e ∈ t, e.2.isFormed = true) :
    resolution (escaped t) = .ok t := by
  have run := forM_resolveFrom_escaped [] (fun _ h => h) unique formed
    (by simpa [Table.names] using unique)
  rw [resolution, names_escaped, run]
  rfl

theorem raw_ofEntries (unique : t.names.Nodup) : (ofEntries t).raw = t :=
  Table.merge_eq_append (t := []) (by simpa [Table.names] using unique)

/-- A bag that holds escaped parameters and nothing else resolves to their values. -/
theorem resolveAll_escaped {bag : Bag} (made : Made bag) (perm : bag.raw.Perm (escaped t))
    (unique : t.names.Nodup) (formed : ∀ e ∈ t, e.2.isFormed = true) :
    ∃ bag' t', bag.resolveAll = .ok (bag', t') ∧ t'.Perm t ∧
      ∀ e ∈ t, bag'.get e.1 = .ok e.2 := by
  have unique' : (escaped t).names.Nodup := names_escaped.symm ▸ unique
  obtain ⟨t', resolves, same⟩ :=
    resolution_shuffled unique' perm.symm (resolution_escaped unique formed)
  refine ⟨{ bag with resolved := some t' }, t', ?_, same.symm, fun e he => ?_⟩
  · rw [made.steady.resolveAll_eq, resolves]
    rfl
  · have found : t'.get? e.1 = some e.2 := by
      rw [Table.get?_perm unique same]
      exact Table.get?_of_mem unique he
    simp only [get, values, Option.getD_some, found]

theorem resolveValue_escape {bag bag' : Bag} (run : bag.resolveAll = .ok (bag', t))
    (formed : v.isFormed = true) : bag.resolveValue (escape v) = .ok (bag', .ok v) := by
  rw [resolveValue, run]
  simp only [substitute_escape _ formed]
  rfl

end Bag

namespace Setting

open Value

/-- Settings come back from their parameters. Flattening gives each leaf a name of its own, in field
order, with its value escaped. A bag that holds these parameters and nothing else resolves, and then
answers to each name with the leaf. Escaped values resolve to what they were in any bag that
resolves. -/
theorem flatten_resolves (path : String) (fields : List (String × Setting))
    (formed : (model fields).isFormed = true) :
    (model fields).flatten path = escaped (named path (model fields)) ∧
    (named path (model fields)).names.Nodup ∧
    (∀ bag, Bag.Made bag → bag.raw.Perm ((model fields).flatten path) →
      ∃ bag' t, bag.resolveAll = .ok (bag', t) ∧ t.Perm (named path (model fields)) ∧
        ∀ e ∈ named path (model fields), bag'.get e.1 = .ok e.2) ∧
    ∀ v : Value, v.isFormed = true → ∀ bag bag' t, Bag.resolveAll bag = .ok (bag', t) →
      bag.resolveValue (escape v) = .ok (bag', .ok v) := by
  have unique : (named path (model fields)).names.Nodup := named_nodup formed
  have values : ∀ e ∈ named path (model fields), e.2.isFormed = true := by
    intro e he
    obtain ⟨l, hl, rfl⟩ := List.mem_map.1 he
    exact (leaves_formed formed l hl).value
  refine ⟨flatten_eq formed, unique, fun bag made perm => ?_, fun v formed bag bag' t run => ?_⟩
  · rw [flatten_eq formed] at perm
    exact Bag.resolveAll_escaped made perm unique values
  · exact Bag.resolveValue_escape run formed

/-- Settings of a server, with percent signs in texts and keys, and two paths that end alike. -/
def server : Setting := .model [
  ("name", .leaf (.str "100%%name%")),
  ("db", .model [("name", .leaf (.str "%name%")), ("pool", .model [("size", .leaf (.int 4))])]),
  ("routes", .leaf (.dict [(.str "%", .list [.str "%%", .null]),
    (.str "%%", .tuple [.bool true, .str "%a b%"])]))]

theorem flatten_resolves_server :
    server.isFormed = true ∧
    (named "app" server).names = ["app.name", "app.db.name", "app.db.pool.size", "app.routes"] ∧
    ∃ bag' t, (Bag.ofEntries (server.flatten "app")).resolveAll = .ok (bag', t) ∧
      bag'.get "app.db.name" = .ok (.str "%name%") ∧
      (Bag.ofEntries (server.flatten "app")).resolveValue (escape (.str "%app.name%")) =
        .ok (bag', .ok (.str "%app.name%")) := by
  have formed : server.isFormed = true := by decide +kernel
  obtain ⟨flat, unique, resolves, undone⟩ := flatten_resolves "app" _ formed
  have raw : (Bag.ofEntries (server.flatten "app")).raw = server.flatten "app" := by
    rw [server, flat]
    exact Bag.raw_ofEntries (names_escaped.symm ▸ unique)
  have perm : (Bag.ofEntries (server.flatten "app")).raw.Perm (server.flatten "app") :=
    .of_eq raw
  have inside : ("app.db.name", .str "%name%") ∈ named "app" server :=
    .tail _ (.head _)
  obtain ⟨bag', t, run, -, answers⟩ := resolves _ (.ofEntries _) perm
  exact ⟨formed, by decide +kernel, bag', t, run, answers _ inside,
    undone (.str "%app.name%") rfl _ bag' t run⟩

end Setting

end Wiring
