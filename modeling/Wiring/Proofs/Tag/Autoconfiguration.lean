import Mathlib
import Wiring.Proofs.Graph.Shuffled
import Wiring.Proofs.Tag.Order

/-!
# Autoconfiguration by one definition at a time

What rules infer for a definition depends on that definition alone. So a rebuild tags the
definitions of a graph in any order alike, and where no priority is NaN it finds the same services
under each tag in the same order. Tags that a definition declares keep their attributes and take from
rules what they lack, so that a second rebuild finds nothing to do.
-/

namespace Wiring

/-- The priority of a tag, if it has one that is a number or NaN, is a number. -/
def Tag.Ordered (t : Tag) : Prop := ∀ p, t.priority = .ok p → p.isNaN = false

/-- No attribute of a tag is a priority that is NaN. -/
def Tag.Numeric (t : Tag) : Prop :=
  ∀ x, ("priority", .real x) ∈ t.attributes → (Number.real x).isNaN = false

/-- No tag among the labels has a priority that is NaN. -/
def Label.Numeric (l : Label) : Prop := ∀ t, l = .tag t → t.Numeric

namespace Tag

variable {t u : Tag}

theorem Ordered.numeric (h : t.Ordered) (unique : t.attributes.names.Nodup) : t.Numeric := by
  intro x hx
  refine h _ ?_
  rw [priority, Table.get?_of_mem unique hx]
  rfl

theorem Numeric.ordered (h : t.Numeric) : t.Ordered := by
  intro p hp
  unfold priority at hp
  cases hv : t.attributes.get? "priority" with
  | none =>
    rw [hv] at hp
    obtain rfl := Except.ok.inj hp
    rfl
  | some v =>
    rw [hv] at hp
    cases v with
    | real x =>
      obtain rfl := Except.ok.inj hp
      exact h x (Table.mem_of_get? hv)
    | int n =>
      obtain rfl := Except.ok.inj hp
      rfl
    | _ => cases hp

@[simp] theorem mergedWith_name : (t.mergedWith u).name = t.name := rfl

theorem mergedWith_mergedWith (ht : t.attributes.names.Nodup) (hu : u.attributes.names.Nodup) :
    (t.mergedWith u).mergedWith u = t.mergedWith u := by
  simp only [mergedWith, Table.merge_merge hu ht]

theorem mergedWith_self (ht : t.attributes.names.Nodup) : t.mergedWith t = t := by
  simp only [mergedWith, Table.merge_self ht]

theorem get?_mergedWith (ht : t.attributes.names.Nodup) {key : String} :
    (t.mergedWith u).attributes.get? key = (t.attributes.get? key).or (u.attributes.get? key) :=
  Table.get?_merge ht

theorem Numeric.mergedWith (h : t.Numeric) (h' : u.Numeric) : (t.mergedWith u).Numeric :=
  fun x hx => (Table.mem_merge hx).elim (h' x) (h x)

end Tag

namespace TagIndex

open Graph

variable {g g' g₁ : Graph} {index index' : TagIndex} {rules : List TagRule} {d d' : Definition}

/-! ## Inferred tags -/

/-- The tags of a definition with those that rules infer for it. Templates stay as they are. -/
def retag (rules : List TagRule) (d : Definition) : Except Failure Definition :=
  if d.isAbstract then .ok d
  else do
    let provided ← d.providedCapabilities
    let tags ← (inferred rules provided).foldlM (fun tags e => addInferred tags e.2) d.tags
    return { d with tags }

theorem retag_template (template : d.isAbstract = true) :
    retag rules d = .ok d' ↔ d' = d := by
  rw [retag, if_pos template]
  exact ⟨fun h => (Except.ok.inj h).symm, fun h => by rw [h]⟩

theorem retag_concrete (concrete : d.isAbstract = false) : retag rules d = .ok d' ↔
    ∃ provided tags, d.providedCapabilities = .ok provided ∧
      (inferred rules provided).foldlM (fun tags e => addInferred tags e.2) d.tags = .ok tags ∧
      { d with tags } = d' := by
  rw [retag, concrete, if_neg Bool.false_ne_true]
  simp only [bind_eq_ok, pure_eq_ok, exists_and_left]

/-- A definition with other tags in its place. -/
abbrev setTags (g : Graph) (id : String) (tags : List Label) : Graph :=
  g.update id fun d => { d with tags }

section Single

variable {id : String} {tag : Tag} {tags : List Label}

theorem setTags_eq (alone : g.twins = []) : setTags g id tags =
    { g with definitions := g.definitions.map fun d => if d.id == id then { d with tags } else d } :=
  update_eq alone _

theorem find?_setTags (alone : g.twins = []) (found : g.find? d.id = some d) :
    (setTags g d.id tags).find? d.id = some { d with tags } := by
  rw [setTags, find?_update alone d.id (fun d => { d with tags }) fun _ e => e, found]
  simp

theorem setTags_setTags (alone : g.twins = []) (id : String) (tags tags' : List Label) :
    setTags (setTags g id tags) id tags' = setTags g id tags' := by
  have alone' : (setTags g id tags).twins = [] := by rw [setTags_eq alone]; exact alone
  rw [setTags_eq alone', setTags_eq alone, setTags_eq alone]
  simp only [List.map_map]
  congr 1
  refine List.map_congr_left fun d _ => ?_
  by_cases e : d.id = id <;> simp [e]

theorem setTags_self (alone : g.twins = []) (unique : g.ids.Nodup) (found : g.find? d.id = some d) :
    setTags g d.id d.tags = g := by
  have same : (g.definitions.map fun e => if e.id == d.id then { e with tags := d.tags } else e) =
      g.definitions := by
    refine (List.map_congr_left fun e he => ?_).trans (List.map_id _)
    split
    next h => rw [eq_of_id_eq unique he (mem_of_find? found).1 (beq_iff_eq.1 h)]; rfl
    next => rfl
  rw [setTags_eq alone, same]

theorem inferTag_gives (found : g.find? id = some d) (h : Build.Gives (inferTag id tag) g () g₁) :
    ∃ tags, addInferred d.tags tag = .ok tags ∧ g₁ = setTags g id tags := by
  obtain ⟨tags, added, updated⟩ := inferTag_updates h
  rw [found] at added
  exact ⟨tags, added, updated⟩

theorem inferTag_does (found : g.find? id = some d) (added : addInferred d.tags tag = .ok tags) :
    Build.Does (inferTag id tag) g () (setTags g id tags) := by
  refine .bind .graph ?_
  rw [found]
  refine .bind (.check added) ?_
  dsimp only
  split
  · exact .bind (.note _) (.change rfl)
  · exact .change rfl

theorem inferTags_gives {inferred : Table Tag} (alone : g.twins = []) (unique : g.ids.Nodup)
    (found : g.find? d.id = some d)
    (h : Build.Gives (inferred.forM fun e => inferTag d.id e.2) g () g₁) :
    ∃ tags, inferred.foldlM (fun tags e => addInferred tags e.2) d.tags = .ok tags ∧
      g₁ = setTags g d.id tags := by
  refine Build.gives_forM (fun done g₁ => ∃ tags,
      done.foldlM (fun tags e => addInferred tags e.2) d.tags = .ok tags ∧
      g₁ = setTags g d.id tags) h
    ⟨d.tags, rfl, (setTags_self alone unique found).symm⟩ fun done e rest g₁ g₂ _ inv run => ?_
  obtain ⟨tags, folded, rfl⟩ := inv
  obtain ⟨tags', added, rfl⟩ := inferTag_gives (find?_setTags alone found) run
  refine ⟨tags', ?_, setTags_setTags alone _ _ _⟩
  rw [List.foldlM_append, folded, ok_bind, List.foldlM_cons, added]
  rfl

theorem inferTags_does {inferred : Table Tag} (alone : g.twins = []) (unique : g.ids.Nodup)
    (found : g.find? d.id = some d)
    (folded : inferred.foldlM (fun tags e => addInferred tags e.2) d.tags = .ok tags) :
    Build.Does (inferred.forM fun e => inferTag d.id e.2) g () (setTags g d.id tags) := by
  obtain ⟨g', does, labels, all, rfl⟩ := Build.Does.exists_forM
    (f := fun e => inferTag d.id e.2) (g := g) inferred (fun done g₁ => ∃ labels,
      done.foldlM (fun tags e => addInferred tags e.2) d.tags = .ok labels ∧
      g₁ = setTags g d.id labels)
    ⟨d.tags, rfl, (setTags_self alone unique found).symm⟩ fun done e rest g₁ split inv => by
      obtain ⟨labels, done', rfl⟩ := inv
      rw [split, List.foldlM_append, done', ok_bind, List.foldlM_cons] at folded
      obtain ⟨labels', added, -⟩ := bind_eq_ok.1 folded
      refine ⟨_, inferTag_does (find?_setTags alone found) added, labels', ?_,
        setTags_setTags alone _ _ _⟩
      rw [List.foldlM_append, done', ok_bind, List.foldlM_cons, added]
      rfl
  obtain rfl := Except.ok.inj (folded.symm.trans all)
  exact does

end Single

/-! ## All definitions -/

/-- The definitions of `done` have the tags that rules infer, all others are as they were. -/
abbrev Tagging (rules : List TagRule) (done : List Definition) (g g₁ : Graph) : Prop :=
  Changed (fun d d' => (d ∈ done → retag rules d = .ok d') ∧ (d ∉ done → d' = d)) g g₁

section Rebuild

variable {done rest : List Definition} (unique : g.ids.Nodup) (alone : g.twins = [])

include unique alone

/-- The next definition in turn is as it was. -/
theorem Tagging.next (inv : Tagging rules done g g₁)
    (split : (g.definitions.filter fun d => !d.isAbstract) = done ++ d :: rest) :
    d ∈ g.definitions ∧ d.isAbstract = false ∧ d ∉ done ∧ g₁.find? d.id = some d ∧
      g₁.twins = [] ∧ g₁.ids.Nodup := by
  have listed : d ∈ g.definitions.filter fun d => !d.isAbstract := by simp [split]
  obtain ⟨hd, concrete⟩ := List.mem_filter.1 listed
  have nodup : (done ++ d :: rest).Nodup :=
    split ▸ (List.Nodup.of_map _ unique).filter _
  have new : d ∉ done := fun h =>
    (List.nodup_append.1 nodup).2.2 d h d List.mem_cons_self rfl
  obtain ⟨d', found, -, same⟩ := inv.find?_new (find?_of_mem unique hd)
  exact ⟨hd, by simpa using concrete, new, same new ▸ found, inv.twins_eq.trans alone,
    inv.ids_eq ▸ unique⟩

theorem Tagging.step (inv : Tagging rules done g g₁) {tags : List Label} (hd : d ∈ g.definitions)
    (new : d ∉ done) (tagged : retag rules d = .ok { d with tags }) :
    Tagging rules (done ++ [d]) g (setTags g₁ d.id tags) := by
  rw [setTags_eq (inv.twins_eq.trans alone)]
  refine ⟨by rw [inv.frame], ?_⟩
  rw [List.forall₂_map_right_iff]
  refine forall₂_imp_mem inv.definitions fun e he e' ⟨ids, tagged', same⟩ => ?_
  by_cases h : e.id = d.id
  · obtain rfl := eq_of_id_eq unique he hd h
    obtain rfl := same new
    simp [tagged]
  · have other : e ≠ d := fun e => h (congrArg _ e)
    simpa [ids, h, other] using And.intro tagged' same

theorem autoconfigureAll_gives (h : Build.Gives
    ((g.definitions.filter fun d => !d.isAbstract).forM (autoconfigure rules)) g () g₁) :
    Changed (fun d d' => retag rules d = .ok d') g g₁ := by
  have inv := Build.gives_forM (Tagging rules · g) h
    ⟨rfl, List.forall₂_same.2 fun d _ => ⟨rfl, nofun, fun _ => rfl⟩⟩
    fun done d rest g₁ g₂ split inv run => by
      obtain ⟨hd, concrete, new, found, alone₁, unique₁⟩ := inv.next unique alone split
      obtain ⟨provided, _, hc, run⟩ := Build.gives_bind run
      obtain ⟨provides, rfl⟩ := Build.gives_check.1 hc
      obtain ⟨tags, folded, rfl⟩ := inferTags_gives alone₁ unique₁ found run
      exact inv.step unique alone hd new ((retag_concrete concrete).2 ⟨provided, tags, provides, folded, rfl⟩)
  refine ⟨inv.frame, forall₂_imp_mem inv.definitions fun d hd d' ⟨ids, tagged, same⟩ => ⟨ids, ?_⟩⟩
  cases template : d.isAbstract with
  | true =>
    rw [retag_template template]
    exact same fun h => by simpa [template] using (List.mem_filter.1 h).2
  | false => exact tagged (List.mem_filter.2 ⟨hd, by simp [template]⟩)

theorem autoconfigureAll_does (all : ∀ d ∈ g.definitions, ∃ d', retag rules d = .ok d') :
    ∃ g₁, Build.Does ((g.definitions.filter fun d => !d.isAbstract).forM (autoconfigure rules))
      g () g₁ := by
  obtain ⟨g₁, does, -⟩ := Build.Does.exists_forM (f := autoconfigure rules) (g := g) _
    (Tagging rules · g)
    ⟨rfl, List.forall₂_same.2 fun d _ => ⟨rfl, nofun, fun _ => rfl⟩⟩
    fun done d rest g₁ split inv => by
      obtain ⟨hd, concrete, new, found, alone₁, unique₁⟩ := inv.next unique alone split
      obtain ⟨d', tagged⟩ := all d hd
      obtain ⟨provided, tags, provides, folded, rfl⟩ := (retag_concrete concrete).1 tagged
      exact ⟨_, .bind (.check provides) (inferTags_does alone₁ unique₁ found folded),
        inv.step unique alone hd new tagged⟩
  exact ⟨g₁, does⟩

end Rebuild

/-! ## Priorities -/

/-- No tag of the definition has a priority that is NaN. -/
def Numeric (d : Definition) : Prop := ∀ l ∈ d.tags, l.Numeric

theorem inferred_numeric (numeric : ∀ r ∈ rules, r.tag.Numeric) (provided : List Value) :
    ∀ e ∈ inferred rules provided, e.2.Numeric :=
  inferred_induct numeric (fun _ h r hr => h.mergedWith (numeric r hr)) provided

theorem addInferred_numeric {labels tags : List Label} {tag : Tag} (ht : tag.Numeric)
    (hl : ∀ l ∈ labels, l.Numeric) (h : addInferred labels tag = .ok tags) :
    ∀ l ∈ tags, l.Numeric :=
  addInferred_induct hl (fun _ e => Label.tag.inj e ▸ ht)
    (fun t own _ e => Label.tag.inj e ▸ (own t rfl).mergedWith ht) h

theorem retag_numeric (numeric : ∀ r ∈ rules, r.tag.Numeric) (hd : Numeric d)
    (h : retag rules d = .ok d') : Numeric d' := by
  cases template : d.isAbstract with
  | true => exact (retag_template template).1 h ▸ hd
  | false =>
    obtain ⟨provided, tags, -, folded, rfl⟩ := (retag_concrete template).1 h
    refine foldlM_ok_induct (fun tags : List Label => ∀ l ∈ tags, l.Numeric) folded hd ?_
    exact fun e he tags tags' inv added =>
      addInferred_numeric (inferred_numeric numeric provided e he) inv added

/-- What is found under a tag has priorities that are numbers. -/
theorem entriesUnder_numbers (hd : Numeric d) {tag : String} {e : Tagged}
    (he : e ∈ entriesUnder tag d) : e.priority.isNaN = false := by
  cases hb : bestEntries d with
  | error => simp [entriesUnder, hb] at he
  | ok best =>
    rw [entriesUnder_eq hb, Option.mem_toList] at he
    obtain ⟨-, t, ht, -, hp⟩ := (bestEntries_entries hb).sound tag e he
    exact (hd _ ht t rfl).ordered _ hp

/-! ## The index -/

/-- The index of definitions in another order has the same services under each tag, in the same
order. -/
theorem gather_perm {ds ds' : List Definition} {found : Table (List Tagged)} (perm : ds.Perm ds')
    (numeric : ∀ d ∈ ds, Numeric d) (h : gather ds = .ok found) :
    ∃ found', gather ds' = .ok found' ∧ ∀ (index index' : TagIndex) (tag : String),
      taggedIds { index' with entries := found'.map fun e => (e.1, Tagged.sort e.2) } tag =
        taggedIds { index with entries := found.map fun e => (e.1, Tagged.sort e.2) } tag := by
  obtain ⟨found', h'⟩ := gather_succeeds.2 fun d hd concrete =>
    gather_succeeds.1 ⟨found, h⟩ d (perm.mem_iff.2 hd) concrete
  refine ⟨found', h', fun index index' tag => ?_⟩
  rw [taggedIds_eq, taggedIds_eq, gather_get? h, gather_get? h']
  refine @Rank.services_sort _ Tagged.rank _ _ ((perm.filter _).flatMap_right _) fun e he => ?_
  obtain ⟨d, hd, he⟩ := List.mem_flatMap.1 he
  exact entriesUnder_numbers (numeric d (List.mem_filter.1 hd).1) he

/-- A rebuild tags the definitions one by one, and then finds what they have. -/
theorem rebuild_gives (unique : g.ids.Nodup) (alone : g.twins = [])
    (h : Build.Gives index.rebuild g index' g₁) :
    Changed (fun d d' => retag index.rules d = .ok d') g g₁ ∧
      ∃ found, gather g₁.definitions = .ok found ∧
        index' = { index with entries := found.map fun e => (e.1, Tagged.sort e.2) } := by
  obtain ⟨_, _, hg, h⟩ := Build.gives_bind h
  obtain ⟨rfl, rfl⟩ := Build.gives_graph.1 hg
  obtain ⟨_, g₂, hf, h⟩ := Build.gives_bind h
  obtain ⟨_, _, hg, h⟩ := Build.gives_bind h
  obtain ⟨rfl, rfl⟩ := Build.gives_graph.1 hg
  obtain ⟨found, _, hc, h⟩ := Build.gives_bind h
  obtain ⟨gathered, rfl⟩ := Build.gives_check.1 hc
  obtain ⟨rfl, rfl⟩ := Build.gives_pure.1 h
  exact ⟨autoconfigureAll_gives unique alone hf, found, gathered, rfl⟩

/-- A rebuild can be made in another order, and finds the same services in the same order. -/
theorem rebuild_shuffled (h : Shuffled g g') (tidy : g.Tidy)
    (numeric : ∀ r ∈ index.rules, r.tag.Numeric) (numbers : ∀ d ∈ g.definitions, Numeric d)
    (run : Build.Gives index.rebuild g index' g₁) :
    ∃ index'' g₁', Build.Does index.rebuild g' index'' g₁' ∧ Shuffled g₁ g₁' ∧
      ∀ tag, index''.taggedIds tag = index'.taggedIds tag := by
  have tidy' := h.tidy tidy
  obtain ⟨changed, found, gathered, rfl⟩ := rebuild_gives tidy.unique tidy.alone run
  obtain ⟨g₂, does⟩ := autoconfigureAll_does tidy'.unique tidy'.alone fun d hd => by
    obtain ⟨d', -, -, tagged⟩ := changed.exists_new (h.mem_iff.1 hd)
    exact ⟨d', tagged⟩
  obtain ⟨ds, hds, perm⟩ := forall₂_perm changed.definitions h.definitions
  have changed' := autoconfigureAll_gives tidy'.unique tidy'.alone does.gives
  have same : g₂.definitions = ds := by
    rw [← List.forall₂_eq_eq_eq]
    refine (forall₂_comp changed'.definitions.flip hds).imp ?_
    rintro d' e ⟨d, ⟨-, tagged⟩, -, tagged'⟩
    exact Except.ok.inj (tagged.symm.trans tagged')
  obtain ⟨found', gathered', indexed⟩ := gather_perm (same ▸ perm)
    (fun d' hd' => by
      obtain ⟨d, hd, -, tagged⟩ := changed.exists_old hd'
      exact retag_numeric numeric (numbers d hd) tagged) gathered
  refine ⟨{ index with entries := found'.map fun e => (e.1, Tagged.sort e.2) }, g₂,
    .bind .graph (.bind does (.bind .graph (.bind (.check gathered') (.pure _)))),
    ⟨same ▸ perm, ?_, ?_⟩, indexed index index⟩
  · rw [changed.aliases_eq, changed'.aliases_eq]
    exact h.aliases
  · rw [changed.twins_eq, changed'.twins_eq]
    exact h.twins_eq

/-! ## Declared tags -/

/-- A rule applies to what provides its capability. -/
def Applies (provided : List Value) (r : TagRule) : Bool :=
  provided.any fun v => v.same r.capability

/-- The value that rules give an attribute of a tag: the earliest rule that applies, is of that tag
and has the attribute says it. -/
def granted (rules : List TagRule) (provided : List Value) (tag key : String) : Option Value :=
  (rules.filter (Applies provided)).findSome? fun r =>
    if r.tag.name = tag then r.tag.attributes.get? key else none

/-- Tags by name, each once, with the attributes that rules give. -/
structure Infers (rules : List TagRule) (table : Table Tag) : Prop where
  unique : table.names.Nodup
  named : ∀ e ∈ table, e.2.name = e.1
  mem_names : ∀ name, name ∈ table.names ↔ ∃ r ∈ rules, r.tag.name = name
  attributes : ∀ name tag, table.get? name = some tag → ∀ key, tag.attributes.get? key =
    rules.findSome? fun r => if r.tag.name = name then r.tag.attributes.get? key else none
  distinct : ∀ e ∈ table, e.2.attributes.names.Nodup

/-- A tag that is put in under its name, with what the rules before and the rule after them give. -/
theorem Infers.put {table : Table Tag} {r : TagRule} {tag : Tag} (h : Infers rules table)
    (named : tag.name = r.tag.name) (distinct : tag.attributes.names.Nodup)
    (attributes : ∀ key, tag.attributes.get? key = (rules.findSome? fun s =>
      if s.tag.name = r.tag.name then s.tag.attributes.get? key else none).or
        (r.tag.attributes.get? key)) :
    Infers (rules ++ [r]) (table.put r.tag.name tag) where
  unique := Table.nodup_put h.unique
  named e he := (Table.mem_put he).elim (h.named e) fun e => e ▸ named
  mem_names name := by
    rw [Table.mem_names_put, h.mem_names]
    simp [or_and_right, exists_or, eq_comm]
  attributes name tag' found key := by
    rw [Table.get?_put] at found
    rw [List.findSome?_append]
    split at found
    next same =>
      subst same
      obtain rfl := Option.some.inj found
      simp [attributes key]
    next other =>
      rw [h.attributes name tag' found key]
      simp [Ne.symm other]
  distinct e he := (Table.mem_put he).elim (h.distinct e) fun e => e ▸ distinct

/-- Rules infer a tag for each name that rules have which apply, with what they give. -/
theorem inferred_infers (sound : Sound rules) (provided : List Value) :
    Infers (rules.filter (Applies provided)) (inferred rules provided) := by
  have sound : Sound (rules.filter (Applies provided)) := fun r hr => sound r (List.mem_filter.1 hr).1
  unfold inferred
  change Infers _ ((rules.filter (Applies provided)).foldl _ [])
  generalize rules.filter (Applies provided) = applying at sound ⊢
  induction applying using List.reverseRecOn with
  | nil => exact ⟨.nil, by simp, by simp [Table.names], by simp [Table.get?], by simp⟩
  | append_singleton rs r ih =>
    have ih := ih fun r' hr' => sound r' (List.mem_append_left _ hr')
    have distinct : r.tag.attributes.names.Nodup := sound r (by simp)
    rw [List.foldl_append, List.foldl_cons, List.foldl_nil]
    generalize rs.foldl _ [] = table at ih
    cases found : Table.get? table r.tag.name with
    | some earlier =>
      have he := Table.mem_of_get? found
      refine ih.put (ih.named _ he) (Table.nodup_merge distinct) fun key => ?_
      rw [Tag.get?_mergedWith (ih.distinct _ he), ih.attributes _ _ found]
    | none =>
      have new : ∀ s ∈ rs, s.tag.name ≠ r.tag.name := fun s hs same =>
        Table.get?_eq_none_iff.1 found ((ih.mem_names _).2 ⟨s, hs, same⟩)
      refine ih.put rfl distinct fun key => ?_
      rw [List.findSome?_eq_none_iff.2 fun s hs => if_neg (new s hs)]
      rfl

/-! ### Tags with inferred ones -/

/-- Tags with one that is inferred: it is merged into those of its name, and added if there is
none. -/
def join (tags : List Tag) (inferred : Tag) : List Tag :=
  if inferred.name ∈ tags.map (·.name) then
    tags.map fun t => if t.name = inferred.name then t.mergedWith inferred else t
  else tags ++ [inferred]

theorem addInferred_tags (tags : List Tag) (tag : Tag) :
    addInferred (tags.map .tag) tag = .ok ((join tags tag).map .tag) := by
  have names : (tags.map Label.tag).mapM Label.name = .ok (tags.map (·.name)) := by
    rw [mapM_eq_ok, List.forall₂_map_left_iff, List.forall₂_map_right_iff]
    exact List.forall₂_same.2 fun t _ => rfl
  unfold addInferred join
  rw [names, ok_bind]
  by_cases carried : tag.name ∈ tags.map (·.name)
  · rw [if_pos (by simpa using carried), if_pos carried, mapM_eq_ok, List.forall₂_map_left_iff,
      List.forall₂_map_right_iff, List.forall₂_map_right_iff]
    refine List.forall₂_same.2 fun t _ => ?_
    by_cases same : t.name = tag.name
    · simp only [Label.name, ok_bind, beq_iff_eq, if_pos same]
      rfl
    · simp only [Label.name, ok_bind, beq_iff_eq, if_neg same]
      rfl
  · rw [if_neg (by simpa using carried), if_neg carried, List.map_append]
    rfl

/-- Tags with those of a table: each is merged with the one of its name, and those of names that are
not there come after them. -/
def joinAll (table : Table Tag) (tags : List Tag) : List Tag :=
  (tags.map fun t => (table.get? t.name).elim t t.mergedWith) ++
    (table.filter fun e => !(tags.map (·.name)).contains e.1).map (·.2)

@[simp] theorem elim_mergedWith_name (u : Option Tag) (t : Tag) :
    (u.elim t t.mergedWith).name = t.name := by
  cases u <;> rfl

theorem joinAll_concat {table : Table Tag} {tags : List Tag} {e : String × Tag}
    (unique : (table ++ [e]).names.Nodup) (named : ∀ x ∈ table ++ [e], x.2.name = x.1) :
    joinAll (table ++ [e]) tags = join (joinAll table tags) e.2 := by
  obtain ⟨name, tag⟩ := e
  obtain rfl : tag.name = name := named (name, tag) (by simp)
  have new : tag.name ∉ table.names := fun h => by
    rw [Table.names, List.map_append] at unique
    exact (List.nodup_append.1 unique).2.2 _ h _ List.mem_cons_self rfl
  have others : ∀ x ∈ table, x.2.name ≠ tag.name := fun x hx same =>
    new (same ▸ named x (List.mem_append_left _ hx) ▸ Table.mem_names hx)
  have last (t : Tag) : Table.get? (table ++ [(tag.name, tag)]) t.name =
      if t.name = tag.name then some tag else table.get? t.name := by
    rw [Table.get?_append, Table.get?_cons]
    by_cases same : t.name = tag.name
    · simp [same, Table.get?_eq_none_iff.2 new]
    · simp [same, Ne.symm same, Table.get?]
  unfold join joinAll
  simp only [last, List.map_append, List.map_map, List.filter_append, List.mem_append]
  by_cases carried : tag.name ∈ tags.map (·.name)
  · have there : tag.name ∈ tags.map ((·.name) ∘ fun t => (table.get? t.name).elim t t.mergedWith) := by
      simpa using carried
    rw [if_pos (.inl there)]
    congr 1
    · refine List.map_congr_left fun t _ => ?_
      by_cases same : t.name = tag.name
      · simp [same, Table.get?_eq_none_iff.2 new]
      · simp [same]
    · rw [List.filter_cons_of_neg (by simpa using carried), List.filter_nil, List.map_nil,
        List.append_nil]
      refine List.map_congr_left fun x hx => ?_
      rw [Function.comp_apply, if_neg (others x (List.mem_filter.1 hx).1)]
  · rw [if_neg, List.filter_cons_of_pos (by simpa using carried), List.append_assoc]
    · congr 1
      refine List.map_congr_left fun t ht => ?_
      rw [if_neg fun same : t.name = tag.name => carried (same ▸ List.mem_map_of_mem ht)]
    · rintro (there | there)
      · exact carried (by simpa using there)
      · obtain ⟨x, hx, same⟩ := List.mem_map.1 there
        exact others x (List.mem_filter.1 hx).1 same

theorem joinAll_eq_foldl {table : Table Tag} {tags : List Tag} (unique : table.names.Nodup)
    (named : ∀ e ∈ table, e.2.name = e.1) :
    table.foldl (fun tags e => join tags e.2) tags = joinAll table tags := by
  induction table using List.reverseRecOn with
  | nil => simp [joinAll, Table.get?]
  | append_singleton table e ih =>
    have front := ih (List.nodup_append.1 (by simpa [Table.names] using unique)).1
      fun x hx => named x (List.mem_append_left _ hx)
    rw [List.foldl_append, front, joinAll_concat unique named]
    rfl

/-- Where no label is a plain value, all tags of a table are added or merged in. -/
theorem addInferred_all (table : Table Tag) (tags : List Tag) :
    table.foldlM (fun tags e => addInferred tags e.2) (tags.map .tag) =
      .ok ((table.foldl (fun tags e => join tags e.2) tags).map .tag) := by
  induction table generalizing tags with
  | nil => rfl
  | cons e table ih => rw [List.foldlM_cons, addInferred_tags, ok_bind, ih, List.foldl_cons]

theorem mem_names_joinAll {table : Table Tag} {tags : List Tag}
    (named : ∀ e ∈ table, e.2.name = e.1) {name : String} :
    name ∈ (joinAll table tags).map (·.name) ↔ name ∈ tags.map (·.name) ∨ name ∈ table.names := by
  have front : (tags.map fun t => (table.get? t.name).elim t t.mergedWith).map (·.name) =
      tags.map (·.name) := by simp
  rw [joinAll, List.map_append, List.mem_append, front]
  by_cases carried : name ∈ tags.map (·.name)
  · simp [carried]
  · simp only [carried, false_or, Table.names, List.mem_map, List.mem_filter]
    constructor
    · rintro ⟨_, ⟨e, ⟨he, -⟩, rfl⟩, rfl⟩
      exact ⟨e, he, (named e he).symm⟩
    · rintro ⟨e, he, rfl⟩
      exact ⟨e.2, ⟨e, ⟨he, by simpa using carried⟩, rfl⟩, named e he⟩

/-- Tags that were joined with a table are not changed by joining them with it once more. -/
theorem joinAll_joinAll {table : Table Tag} {tags : List Tag} (infers : Infers rules table)
    (distinct : ∀ t ∈ tags, t.attributes.names.Nodup) :
    joinAll table (joinAll table tags) = joinAll table tags := by
  have none : (table.filter fun e => !((joinAll table tags).map (·.name)).contains e.1) = [] :=
    List.filter_eq_nil_iff.2 fun e he => by
      simpa using (mem_names_joinAll infers.named).2 (.inr (Table.mem_names he))
  have still : ∀ t ∈ joinAll table tags, (table.get? t.name).elim t t.mergedWith = t := by
    intro t ht
    rcases List.mem_append.1 ht with ht | ht
    · obtain ⟨u, hu, rfl⟩ := List.mem_map.1 ht
      rw [elim_mergedWith_name]
      cases found : table.get? u.name with
      | none => rfl
      | some v =>
        exact Tag.mergedWith_mergedWith (distinct u hu) (infers.distinct _ (Table.mem_of_get? found))
    · obtain ⟨e, he, rfl⟩ := List.mem_map.1 ht
      have he := (List.mem_filter.1 he).1
      rw [infers.named e he, Table.get?_of_mem infers.unique he]
      exact Tag.mergedWith_self (infers.distinct e he)
  rw [joinAll, none, List.map_nil, List.append_nil]
  exact (List.map_congr_left still).trans (List.map_id _)

/-! ### Definitions -/

/-- A tag with what rules give it where it has nothing. -/
structure Filled (rules : List TagRule) (provided : List Value) (t u : Tag) : Prop where
  name_eq : u.name = t.name
  attributes : ∀ key, u.attributes.get? key =
    (t.attributes.get? key).or (granted rules provided t.name key)

/-- A concrete definition with its tags filled, and then, each once, the tags of rules that apply of
which it has none. -/
structure Completed (rules : List TagRule) (d d' : Definition) (provided : List Value)
    (own filled added : List Tag) : Prop where
  provides : d.providedCapabilities = .ok provided
  tags_eq : d.tags = own.map .tag
  frame : d' = { d with tags := (filled ++ added).map .tag }
  filled : List.Forall₂ (Filled rules provided) own filled
  once : (added.map (·.name)).Nodup
  mem_added : ∀ tag, tag ∈ added.map (·.name) ↔
    tag ∉ own.map (·.name) ∧ ∃ r ∈ rules, Applies provided r = true ∧ r.tag.name = tag
  attributes : ∀ t ∈ added, ∀ key, t.attributes.get? key = granted rules provided t.name key

/-- Tags have attributes of different names. -/
def Distinct (d : Definition) : Prop := ∀ t, .tag t ∈ d.tags → t.attributes.names.Nodup

/-- What is inferred is given by rules, and where nothing is inferred rules give nothing. -/
theorem inferred_elim (sound : Sound rules) (provided : List Value) {t : Tag}
    (ht : t.attributes.names.Nodup) :
    Filled rules provided t (((inferred rules provided).get? t.name).elim t t.mergedWith) := by
  have infers := inferred_infers sound provided
  refine ⟨elim_mergedWith_name _ _, fun key => ?_⟩
  cases found : (inferred rules provided).get? t.name with
  | some u =>
    rw [Option.elim_some, Tag.get?_mergedWith ht, infers.attributes _ _ found]
    rfl
  | none =>
    have nothing : granted rules provided t.name key = none := by
      refine List.findSome?_eq_none_iff.2 fun r hr => if_neg fun same => ?_
      exact Table.get?_eq_none_iff.1 found ((infers.mem_names _).2 ⟨r, hr, same⟩)
    rw [Option.elim_none, nothing, Option.or_none]

/-- The tags of a definition are completed, and then they are complete. -/
theorem retag_completed (sound : Sound rules) (concrete : d.isAbstract = false)
    {own : List Tag} (tags_eq : d.tags = own.map .tag) (distinct : Distinct d)
    (h : retag rules d = .ok d') :
    (∃ provided filled added, Completed rules d d' provided own filled added) ∧
      retag rules d' = .ok d' := by
  obtain ⟨provided, labels, provides, folded, rfl⟩ := (retag_concrete concrete).1 h
  have infers := inferred_infers sound provided
  have distinct : ∀ t ∈ own, t.attributes.names.Nodup := fun t ht =>
    distinct t (tags_eq ▸ List.mem_map_of_mem ht)
  rw [tags_eq, addInferred_all, joinAll_eq_foldl infers.unique infers.named] at folded
  obtain rfl := Except.ok.inj folded
  constructor
  · have names : (((inferred rules provided).filter fun e =>
          !(own.map (·.name)).contains e.1).map (·.2)).map (·.name) =
        (inferred rules provided).names.filter fun n => !(own.map (·.name)).contains n := by
      rw [List.map_map, Table.names, List.filter_map]
      exact List.map_congr_left fun e he => infers.named e (List.mem_filter.1 he).1
    refine ⟨provided, _, _, provides, tags_eq, rfl, ?_, ?_, fun tag => ?_, fun t ht key => ?_⟩
    · rw [List.forall₂_map_right_iff]
      exact List.forall₂_same.2 fun t ht => inferred_elim sound provided (distinct t ht)
    · exact names ▸ infers.unique.filter _
    · rw [names, List.mem_filter, infers.mem_names, and_comm]
      simp only [List.mem_filter, and_assoc]
      simp
    · obtain ⟨e, he, rfl⟩ := List.mem_map.1 ht
      have he := (List.mem_filter.1 he).1
      rw [infers.named e he]
      exact infers.attributes _ _ (Table.get?_of_mem infers.unique he) key
  · refine (retag_concrete (by exact concrete)).2 ⟨provided, _, ?_, ?_, rfl⟩
    · exact provides
    · show (inferred rules provided).foldlM _ ((joinAll _ own).map Label.tag) = _
      rw [addInferred_all, joinAll_eq_foldl infers.unique infers.named,
        joinAll_joinAll infers distinct]

/-- A label that is a plain value stays one. -/
theorem addInferred_plain {labels tags : List Label} {tag : Tag} {v : Value}
    (hv : .plain v ∈ labels) (h : addInferred labels tag = .ok tags) : .plain v ∈ tags := by
  unfold addInferred at h
  obtain ⟨names, -, h⟩ := bind_eq_ok.1 h
  split at h
  · obtain ⟨l, hl, h⟩ := forall₂_mem_left (mapM_eq_ok.1 h) hv
    obtain ⟨name, -, h⟩ := bind_eq_ok.1 h
    split at h
    · obtain ⟨merged, hm, -⟩ := bind_eq_ok.1 h
      cases hm
    · exact pure_eq_ok.1 h ▸ hl
  · exact pure_eq_ok.1 h ▸ List.mem_append_left _ hv

/-- A concrete definition that is indexed had no labels but tags. -/
theorem exists_tags (concrete : d.isAbstract = false) (tagged : retag rules d = .ok d')
    {best : Table Tagged} (indexed : bestEntries d' = .ok best) :
    ∃ own : List Tag, d.tags = own.map .tag := by
  obtain ⟨provided, tags, -, folded, rfl⟩ := (retag_concrete concrete).1 tagged
  obtain ⟨own, same⟩ : ∃ own, List.Forall₂ (fun l t => l = Label.tag t) d.tags own :=
    forall₂_exists fun l hl => by
      cases l with
      | tag t => exact ⟨t, rfl⟩
      | plain v =>
        have stays : .plain v ∈ tags := foldlM_ok_induct (fun tags => .plain v ∈ tags) folded hl
          fun e _ _ _ hv added => addInferred_plain hv added
        obtain ⟨t, ht⟩ := (bestEntries_entries indexed).tags _ stays
        cases ht
  exact ⟨own, by simpa using forall₂_map_eq.1 same⟩

/-- A rebuild leaves templates as they are and completes the tags of all other definitions: their own
tags stay in order with all attributes, and are filled with what the earliest rules say; tags that
only rules have are added once. Nothing else changes, and a second rebuild changes nothing. -/
theorem rebuild_completes (unique : g.ids.Nodup) (alone : g.twins = []) (sound : Sound index.rules)
    (distinct : ∀ d ∈ g.definitions, Distinct d) (h : Build.Gives index.rebuild g index' g') :
    Changed (fun d d' => (d.isAbstract = true → d' = d) ∧ (d.isAbstract = false →
        ∃ provided own filled added, Completed index.rules d d' provided own filled added)) g g' ∧
      Build.Does index'.rebuild g' index' g' := by
  obtain ⟨changed, found, gathered, rfl⟩ := rebuild_gives unique alone h
  have each : ∀ d ∈ g.definitions, ∀ d' ∈ g'.definitions, retag index.rules d = .ok d' →
      ((d.isAbstract = true → d' = d) ∧ (d.isAbstract = false →
        ∃ provided own filled added, Completed index.rules d d' provided own filled added)) ∧
      retag index.rules d' = .ok d' := fun d hd d' hd' tagged => by
    cases template : d.isAbstract with
    | true =>
      obtain rfl := (retag_template template).1 tagged
      exact ⟨⟨fun _ => rfl, nofun⟩, tagged⟩
    | false =>
      have concrete' : d'.isAbstract = false := by
        obtain ⟨_, _, -, -, rfl⟩ := (retag_concrete template).1 tagged
        exact template
      obtain ⟨best, indexed⟩ := gather_succeeds.1 ⟨found, gathered⟩ d' hd' concrete'
      obtain ⟨own, tags_eq⟩ := exists_tags template tagged indexed
      obtain ⟨⟨provided, filled, added, completed⟩, again⟩ :=
        retag_completed sound template tags_eq (distinct d hd) tagged
      exact ⟨⟨nofun, fun _ => ⟨provided, own, filled, added, completed⟩⟩, again⟩
  constructor
  · have listed := forall₂_imp_mem changed.definitions.flip fun d' hd' d h => And.intro hd' h
    refine ⟨changed.frame, forall₂_imp_mem listed.flip fun d hd d' ⟨hd', ids, tagged⟩ => ⟨ids, ?_⟩⟩
    exact (each d hd d' hd' tagged).1
  · have settled : ∀ d' ∈ g'.definitions, retag index.rules d' = .ok d' := fun d' hd' => by
      obtain ⟨d, hd, -, tagged⟩ := changed.exists_old hd'
      exact (each d hd d' hd' tagged).2
    have unique' : g'.ids.Nodup := changed.ids_eq ▸ unique
    have alone' : g'.twins = [] := changed.twins_eq.trans alone
    obtain ⟨g₂, does⟩ := autoconfigureAll_does unique' alone' fun d' hd' => ⟨d', settled d' hd'⟩
    have same : g₂ = g' := (autoconfigureAll_gives unique' alone' does.gives).unique
      (Changed.refl (R := fun d d' => d' = d) fun _ => rfl) fun d' hd' e e' he he' => by
        rw [settled d' hd'] at he
        exact (Except.ok.inj he).symm.trans he'.symm
    subst same
    exact .bind .graph (.bind does (.bind .graph (.bind (.check gathered) (.pure _))))

/-- A desk that hears of news twice, and a template of desks. -/
def newsroom : Graph where
  definitions := [
    { id := "desk", capabilities := [.str "listener"]
      tags := [
        .tag ⟨"event", [("channel", .str "wire"), ("priority", .int 5)]⟩,
        .tag ⟨"staff", []⟩,
        .tag ⟨"event", []⟩] },
    { id := "draft", isAbstract := true, capabilities := [.str "listener"] }]

/-- Listeners hear of events, and are logged. The later rule has a say about retries alone. -/
def newsRules : List TagRule := [
  ⟨.str "listener", ⟨"event", [("channel", .str "post")]⟩⟩,
  ⟨.str "speaker", ⟨"audio", []⟩⟩,
  ⟨.str "listener", ⟨"event", [("retries", .int 3), ("channel", .str "radio")]⟩⟩,
  ⟨.str "listener", ⟨"log", []⟩⟩]

/-- What the definitions of the newsroom come to carry. -/
def newsTags : List (List Label) := [
  [ .tag ⟨"event", [("retries", .int 3), ("channel", .str "wire"), ("priority", .int 5)]⟩,
    .tag ⟨"staff", []⟩,
    .tag ⟨"event", [("retries", .int 3), ("channel", .str "post")]⟩,
    .tag ⟨"log", []⟩],
  []]

/-- The channel of the first event is its own, that of the second one the earlier rule's. -/
theorem rebuild_completes_newsroom : ∃ index' g',
    Build.Gives (rebuild { rules := newsRules }) newsroom index' g' ∧
    g'.definitions.map (·.tags) = newsTags ∧ Build.Does index'.rebuild g' index' g' := by
  have read : (match ((newsroom.definitions.filter fun d => !d.isAbstract).forM
        (autoconfigure newsRules)) { graph := newsroom } with
      | .ok _ w => some (w.graph.definitions.map (·.tags), (gather w.graph.definitions).isOk)
      | .error _ _ => none) = some (newsTags, true) := by cbv
  split at read
  next u w run =>
    obtain ⟨tags, indexed⟩ := Prod.mk.inj (Option.some.inj read)
    obtain ⟨found, gathered⟩ := exists_ok_of_isOk indexed
    have gives : Build.Gives (rebuild { rules := newsRules }) newsroom
        { rules := newsRules, entries := found.map fun e => (e.1, Tagged.sort e.2) } w.graph :=
      ⟨[], w.notes, Run.bind_ok.2 ⟨_, _, rfl, Run.bind_ok.2 ⟨_, _, run, Run.bind_ok.2
        ⟨_, _, rfl, Run.bind_ok.2 ⟨found, _, Build.check_ok.2 ⟨gathered, rfl⟩, rfl⟩⟩⟩⟩⟩
    refine ⟨_, _, gives, tags, (rebuild_completes ?_ rfl ?_ ?_ gives).2⟩
    · decide
    · unfold Sound newsRules
      simp [Table.names]
    · unfold newsroom Distinct
      simp [Table.names]
  next => cases read

end TagIndex

end Wiring
