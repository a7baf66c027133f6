import Wiring.Pass.Collections
import Wiring.Proofs.Graph.Mapping
import Wiring.Proofs.Graph.Shuffled
import Wiring.Proofs.Tag.Order

/-!
# What baking the collections does

An argument that asks for a tag becomes a collection of services that carry it, all other arguments
stay. Graphs that ask for no tags stay as they are.

Where all priorities are numbers there is one way to collect, which does not depend on the order of
the definitions.
-/

namespace Wiring

namespace Pass

open Graph TagIndex

variable {g g' : Graph} {u : Unit}

/-- What the baking of collections makes of an argument of the consumer. -/
def Collected (g : Graph) (consumer : String) (a b : Argument) : Prop :=
  match a with
  | .tagged tag => ∃ ids : List String, (∀ id ∈ ids, g.IsMember tag consumer id) ∧
      b = .collection tag (ids.map fun id => ⟨id, false, false⟩)
  | a => b = a

/-- The pass follows its rule by an index that it makes, and changes nothing else. -/
theorem bakeCollections_gives (tidy : g.Tidy) (declared : g.Holds fun a => a.isDeclared = true)
    (h : Build.Gives bakeCollections g u g') : ∃ index, Rebuilt {} g index g ∧
      Revised (fun d a b => collectionRule index d.id a = .ok b) g g' := by
  obtain ⟨index, g₁, hi, baked⟩ := Build.gives_bind h
  have sound : Sound (TagIndex.rules {}) := fun _ hr => nomatch hr
  have rebuilt := rebuild_spec sound tidy hi
  obtain rfl := rebuild_of_no_rules rfl hi
  have flat : g₁.Flat := fun d hd a ha => Argument.isFlat_of_declared (declared d hd a ha)
  refine ⟨index, rebuilt, ((reviseAll_ok (flat.isShared_eq_false tidy.alone)).1
    (Build.gives_changeOrFail.1 baked)).mono_mem fun d hd a ha b hab => ?_⟩
  have ha := declared d hd a ha
  cases a with
  | reference | parameter | literal | tagged | autowire => exact hab
  | _ => cases ha

theorem Collected.of_rule (tidy : g.Tidy) {index : TagIndex} (rebuilt : Rebuilt {} g index g)
    {consumer : String} {a b : Argument} (h : collectionRule index consumer a = .ok b) :
    Collected g consumer a b := by
  cases a with
  | tagged tag =>
    refine ⟨_, fun id hid => ?_, (Except.ok.inj h).symm⟩
    obtain ⟨hid, ne⟩ := List.mem_filter.1 hid
    obtain ⟨e, he, rfl, carried⟩ := rebuilt.mem_taggedIds.1 hid
    exact ⟨e, find?_of_mem tidy.unique he, bne_iff_ne.1 ne, carried⟩
  | _ => exact (Except.ok.inj h).symm

/-- The pass changes nothing but the arguments that ask for tags; the index that it makes shows that
all tags are in order. -/
theorem bakeCollections_spec (tidy : g.Tidy) (declared : g.Holds fun a => a.isDeclared = true)
    (h : Build.Gives bakeCollections g u g') :
    (∃ index, Rebuilt {} g index g) ∧ Revised (fun d => Collected g d.id) g g' := by
  obtain ⟨index, rebuilt, revised⟩ := bakeCollections_gives tidy declared h
  exact ⟨⟨index, rebuilt⟩, revised.mono_mem fun d _ a _ b hab => .of_rule tidy rebuilt hab⟩

theorem Collected.flat {d d' : Definition} {consumer : String}
    (h : Recipe.Revised (Collected g consumer) d d') (flat : d.Flat) : Definition.Flat d' := by
  intro b hb
  obtain ⟨a, ha, hab⟩ := forall₂_mem_right h.allArguments hb
  cases a with
  | tagged tag =>
    obtain ⟨ids, -, rfl⟩ := hab
    rfl
  | _ => exact (hab : b = _) ▸ flat _ ha

/-- The references that are left are those of before, and members of tags that were asked for. -/
theorem Collected.exists_reference {d d' : Definition} (h : Recipe.Revised (Collected g d.id) d d')
    (declared : ∀ a ∈ d.allArguments, a.isDeclared = true) {r : Reference}
    (hr : r ∈ Definition.references d') : r ∈ Definition.references d ∨
      ∃ tag, .tagged tag ∈ d.allArguments ∧ g.IsMember tag d.id r.id := by
  have flat : d.Flat := fun a ha => Argument.isFlat_of_declared (declared a ha)
  have flat' := Collected.flat h flat
  obtain ⟨b, hb, hrb⟩ := flat'.mem_references.1 hr
  obtain ⟨a, ha, hab⟩ := forall₂_mem_right h.allArguments hb
  cases a with
  | tagged tag =>
    obtain ⟨ids, member, rfl⟩ := hab
    obtain ⟨id, hid, rfl⟩ := List.mem_map.1 hrb
    exact .inr ⟨tag, ha, member id hid⟩
  | _ => exact .inl (flat.mem_references.2 ⟨_, ha, (hab : b = _) ▸ hrb⟩)

theorem Collected.ne_tagged {consumer tag : String} {a : Argument}
    (h : Collected g consumer a (.tagged tag)) : False := by
  cases a with
  | tagged =>
    obtain ⟨_, _, h⟩ := h
    cases h
  | _ => cases h

/-- References stay, and all members of a tag that is asked for become references. -/
theorem collected_references {index : TagIndex} {d d' : Definition}
    (h : Recipe.Revised (fun a b => collectionRule index d.id a = .ok b) d d')
    (flat : d.Flat) (flat' : Definition.Flat d') :
    (∀ r ∈ Definition.references d, r ∈ Definition.references d') ∧
      ∀ tag, .tagged tag ∈ d.allArguments → ∀ id ∈ index.taggedIds tag, id ≠ d.id →
        ⟨id, false, false⟩ ∈ Definition.references d' := by
  refine ⟨fun r hr => ?_, fun tag htag id hid ne => ?_⟩
  · obtain ⟨a, ha, hra⟩ := flat.mem_references.1 hr
    obtain ⟨b, hb, hab⟩ := forall₂_mem_left h.allArguments ha
    refine flat'.mem_references.2 ⟨b, hb, ?_⟩
    cases a with
    | tagged => cases hra
    | _ => exact Except.ok.inj hab ▸ hra
  · obtain ⟨b, hb, hab⟩ := forall₂_mem_left h.allArguments htag
    obtain rfl := Except.ok.inj hab
    refine flat'.mem_references.2 ⟨_, hb, ?_⟩
    exact List.mem_map.2 ⟨id, List.mem_filter.2 ⟨hid, bne_iff_ne.2 ne⟩, rfl⟩

/-- What a definition leads to by a tag it leads to by references afterwards. -/
theorem bakeCollections_sameWays (tidy : g.Tidy) (declared : g.Holds fun a => a.isDeclared = true)
    (h : Build.Gives bakeCollections g u g') : SameWays g g' := by
  obtain ⟨index, rebuilt, revised⟩ := bakeCollections_gives tidy declared h
  refine Changed.sameWays revised (fun _ _ hR => ⟨hR.isAbstract_eq, hR.isPublic_eq⟩)
    fun d hd d' hR b => ?_
  have flat : d.Flat := fun a ha => Argument.isFlat_of_declared (declared d hd a ha)
  have collected : Recipe.Revised (Collected g d.id) d d' :=
    Recipe.Revised.mono hR fun _ _ hab => .of_rule tidy rebuilt hab
  have member {tag id : String} (member : g.IsMember tag d.id id) : g.resolveAlias id = .ok id :=
    resolveAlias_of_free (tidy.findAlias?_eq_none (has_iff.1 member.has))
  unfold LeadsTo
  rw [revised.resolveAlias_eq, revised.has_eq]
  constructor
  · rintro (⟨r, hr, hres, there⟩ | ⟨tag, htag, -⟩)
    · rcases Collected.exists_reference collected (declared d hd) hr with hr | ⟨tag, htag, here⟩
      · exact .inl ⟨r, hr, hres, there⟩
      · obtain rfl := Except.ok.inj ((member here).symm.trans hres)
        exact .inr ⟨tag, htag, here⟩
    · obtain ⟨a, -, hab⟩ := forall₂_mem_right collected.allArguments htag
      exact hab.ne_tagged.elim
  · obtain ⟨stay, new⟩ := collected_references hR flat (Collected.flat collected flat)
    rintro (⟨r, hr, hres, there⟩ | ⟨tag, htag, here⟩)
    · exact .inl ⟨r, stay r hr, hres, there⟩
    · obtain ⟨e, he, ne, carried⟩ := id here
      have listed := rebuilt.mem_taggedIds.2 ⟨e, (mem_of_find? he).1, (mem_of_find? he).2, carried⟩
      exact .inl ⟨_, new tag htag b listed ne, member here, here.has⟩

/-- Where no argument asks for a tag and all tags are in order, the pass changes nothing. -/
theorem bakeCollections_does (alone : g.isShared = false) (settled : g.Settled)
    (provided : ∀ d ∈ g.definitions, ∃ vs, Recipe.providedCapabilities d = .ok vs)
    {found : Table (List Tagged)} (gathered : gather g.definitions = .ok found) :
    Build.Does bakeCollections g () g :=
  .bind (rebuild_does rfl (fun d hd _ => provided d hd) gathered)
    (.changeOrFail (reviseAll_of_settled alone settled (fun _ _ _ _ => rfl) fun _ _ _ => rfl))

/-! ## Collections as they are asked for -/

end Pass

/-- The services under a tag that a consumer gets. -/
def TagIndex.membersFor (index : TagIndex) (consumer tag : String) : List String :=
  (index.taggedIds tag).filter (· != consumer)

namespace Graph

variable {g : Graph} {tag consumer : String} {ids ids' : List String}

/-- Among the services with a tag `a` comes before `b`: its highest priority is higher, or the same,
and then its identifier is less. -/
def Precedes (g : Graph) (tag a b : String) : Prop :=
  ∃ d e p q, g.find? a = some d ∧ g.find? b = some e ∧
    Label.Highest d.tags tag p ∧ Label.Highest e.tags tag q ∧
    (q.lt p = true ∨ p.lt q = false ∧ a < b)

/-- What a consumer collects under a tag: all other definitions that carry it and are no templates,
each once, in order. -/
structure Collects (g : Graph) (tag consumer : String) (ids : List String) : Prop where
  members : ∀ id, id ∈ ids ↔ g.IsMember tag consumer id
  once : ids.Nodup
  ordered : ids.Pairwise (g.Precedes tag)

/-- All priorities of what may be collected are numbers. -/
def Ranked (g : Graph) : Prop :=
  ∀ d ∈ g.definitions, d.isAbstract = false → ∀ l ∈ d.tags, l.Ranked

/-- What is found under a tag are the definitions that carry it, in order. -/
theorem collects_membersFor (unique : g.ids.Nodup) (ranked : g.Ranked)
    {found : Table (List Tagged)} (gathered : TagIndex.gather g.definitions = .ok found)
    (index : TagIndex) : g.Collects tag consumer (TagIndex.membersFor
      { index with entries := found.map fun e => (e.1, Tagged.sort e.2) } consumer tag) := by
  have entry : ∀ e ∈ (found.get? tag).getD [], ∃ d, g.find? e.service = some d ∧
      Label.Highest d.tags tag e.priority ∧ e.priority.isNaN = false := fun e he => by
    rw [TagIndex.gather_get? gathered] at he
    obtain ⟨d, hd, he⟩ := List.mem_flatMap.1 he
    obtain ⟨hd, concrete⟩ := List.mem_filter.1 hd
    obtain ⟨same, highest, number⟩ :=
      TagIndex.entriesUnder_highest (ranked d hd (by simpa using concrete)) he
    exact ⟨d, same ▸ find?_of_mem unique hd, highest, number⟩
  have once : (((found.get? tag).getD []).map (·.service)).Nodup := by
    rw [TagIndex.gather_get? gathered]
    exact TagIndex.services_nodup ((List.filter_sublist.map _).nodup unique)
  have perm : (Tagged.sort ((found.get? tag).getD [])).Perm ((found.get? tag).getD []) :=
    Rank.sort_perm _ _
  refine ⟨fun id => ?_, ?_, ?_⟩
  · rw [TagIndex.membersFor, List.mem_filter, TagIndex.mem_taggedIds gathered, bne_iff_ne]
    constructor
    · rintro ⟨⟨d, hd, rfl, carried⟩, ne⟩
      exact ⟨d, find?_of_mem unique hd, ne, carried⟩
    · rintro ⟨d, hd, ne, carried⟩
      exact ⟨⟨d, (mem_of_find? hd).1, (mem_of_find? hd).2, carried⟩, ne⟩
  · rw [TagIndex.membersFor, TagIndex.taggedIds_eq]
    exact ((perm.map _).nodup_iff.2 once).filter _
  · rw [TagIndex.membersFor, TagIndex.taggedIds_eq]
    refine List.Pairwise.filter _ (List.pairwise_map.2 ?_)
    refine (TagIndex.pairwise_sort (fun e he => (entry e he).choose_spec.2.2) once).imp_of_mem
      fun {e f} he hf before => ?_
    obtain ⟨d, hd, hp, -⟩ := entry e (perm.mem_iff.1 he)
    obtain ⟨d', hd', hq, -⟩ := entry f (perm.mem_iff.1 hf)
    exact ⟨d, d', _, _, hd, hd', hp, hq, before⟩

/-- What comes after does not come before. -/
theorem Precedes.asymm {a b : String} (ha : ∀ d, g.find? a = some d → ∀ l ∈ d.tags, l.Ranked)
    (hb : ∀ d, g.find? b = some d → ∀ l ∈ d.tags, l.Ranked) (h : g.Precedes tag a b) :
    ¬ g.Precedes tag b a := by
  rintro ⟨e', d', q', p', he', hd', hq', hp', after⟩
  obtain ⟨d, e, p, q, hd, he, hp, hq, before⟩ := h
  obtain rfl := Option.some.inj (hd.symm.trans hd')
  obtain rfl := Option.some.inj (he.symm.trans he')
  obtain ⟨x, hx, hx'⟩ := hp.exists_level hp' (ha d hd)
  obtain ⟨y, hy, hy'⟩ := hq.exists_level hq' (hb e he)
  rw [Number.lt_eq hy hx, Number.lt_eq hx hy] at before
  rw [Number.lt_eq hx' hy', Number.lt_eq hy' hx'] at after
  rcases before with above | ⟨level, less⟩
  · simp [Level.lt_asymm above, above] at after
  · rcases after with above | ⟨-, less'⟩
    · simp [above] at level
    · exact String.lt_asymm less less'

/-- What is collected depends on what is found alone. -/
theorem Collects.of_find? {g' : Graph} (same : g'.find? = g.find?)
    (h : g'.Collects tag consumer ids) : g.Collects tag consumer ids := by
  obtain ⟨members, once, ordered⟩ := h
  unfold IsMember at members
  unfold Precedes at ordered
  rw [same] at members ordered
  exact ⟨members, once, ordered⟩

/-- There is one way to collect. -/
theorem Collects.unique (ranked : g.Ranked) (h : g.Collects tag consumer ids)
    (h' : g.Collects tag consumer ids') : ids = ids' := by
  have perm : ids.Perm ids' := (List.perm_ext_iff_of_nodup h.once h'.once).2 fun id =>
    (h.members id).trans (h'.members id).symm
  refine perm.eq_of_pairwise (fun a b ha hb before after => ?_) h.ordered h'.ordered
  have numbers {id : String} (hid : id ∈ ids) (d : Definition) (found : g.find? id = some d) :
      ∀ l ∈ d.tags, l.Ranked := by
    obtain ⟨e, he, -, carried⟩ := (h.members id).1 hid
    obtain rfl := Option.some.inj (he.symm.trans found)
    exact ranked e (mem_of_find? he).1 carried.1
  exact absurd after (before.asymm (numbers ha) (numbers (perm.mem_iff.2 hb)))

end Graph

namespace Pass

open Graph

variable {g : Graph}

/-- An argument with the services of the tag that it asks for, if it asks for one. -/
def bake (members : String → List String) : Argument → Argument
  | .tagged tag => .collection tag ((members tag).map fun id => ⟨id, false, false⟩)
  | a => a

/-- Recipes that ask for a tag lie in one definition alone. -/
def AsksApart (g : Graph) : Prop :=
  ∀ c ∈ g.marked, ∀ c' ∈ g.marked, ∀ e ∈ Pool.tree c, e ∈ Pool.tree c' →
    (∃ tag, .tagged tag ∈ e.2.allArguments) → c.2.id = c'.2.id

theorem reviseOuter_collectionRule {index : TagIndex} {consumer service : String} {a : Argument}
    (plain : a.isMixture = false) : Argument.reviseOuter (collectionRule index consumer) service a =
      .ok (bake (index.membersFor consumer) a) := by
  cases a with
  | tagged tag => rfl
  | _ => exact Argument.reviseOuter_of_plain plain (fun _ _ => rfl) fun _ => rfl

theorem isMixture_bake {members : String → List String} {a : Argument}
    (plain : a.isMixture = false) : (bake members a).isMixture = false := by
  cases a <;> first | rfl | exact plain

theorem bake_bake (members : String → List String) (a : Argument) :
    bake members (bake members a) = bake members a := by
  cases a <;> rfl

theorem collectionRule_maps (plain : g.Plain) (index : TagIndex) :
    g.Maps (fun d => collectionRule index d.id) fun d => bake (index.membersFor d.id) where
  embedded _ _ _ := rfl
  apart _ a m r same := by cases a <;> first | exact same | cases same
  makes d hd q hq a ha := reviseOuter_collectionRule (plain d hd q hq a ha)
  keeps d hd q hq a ha := by
    rw [reviseOuter_collectionRule (isMixture_bake (plain d hd q hq a ha)), bake_bake]

theorem bake_alike (apart : AsksApart g) (members : String → String → List String) :
    g.MapsAlike fun d => bake (members d.id) := by
  intro c hc c' hc' e he he' a ha
  cases a with
  | tagged tag =>
    show bake (members c.2.id) _ = bake (members c'.2.id) _
    rw [apart c hc c' hc' e he he' ⟨tag, ha⟩]
  | _ => rfl

/-- A baton that is waved at the players. -/
def baton : Definition := { id := "baton", arguments := [.tagged "player"] }

/-- An orchestra whose conductor plays as well, and holds one baton with both hands. -/
def orchestra : Graph where
  definitions := [
    { id := "drum", tags := [.tag ⟨"player", []⟩] },
    { id := "cello", tags := [.tag ⟨"player", [("priority", .int 2)]⟩] },
    { id := "violin", tags := [.tag ⟨"player", [("priority", .int 1)]⟩,
      .tag ⟨"player", [("priority", .real (.infinite false))]⟩] },
    { id := "score", tags := [.tag ⟨"player", []⟩], isAbstract := true },
    { id := "conductor", tags := [.tag ⟨"player", [("priority", .int 9)]⟩]
      arguments := [.tagged "player", .inlined 0 baton]
      keywords := [("left", .inlined 0 baton)] }]
  nextMark := 1

namespace orchestra

theorem coherent : orchestra.pool.Coherent := by
  have embedded : orchestra.embedded = [(0, baton), (0, baton)] := rfl
  exact pool_coherent_of_one (x := (0, baton)) (by simp [embedded]) (by decide)

theorem asks {c : Nat × Definition} (hc : c ∈ orchestra.marked) {e : Nat × Definition}
    (he : e ∈ Pool.tree c) (asked : ∃ tag, .tagged tag ∈ e.2.allArguments) :
    c.2.id = "conductor" := by
  revert c e
  simp [orchestra, Graph.marked, Pool.tree, Recipe.allArguments, Definition.embedded,
    Argument.embeddedAll, Argument.embeddedNamed]

theorem ranked : orchestra.Ranked := by
  unfold Graph.Ranked Label.Ranked
  simp [orchestra, Tag.priority, Table.get?]

theorem gathered : TagIndex.gather orchestra.definitions = .ok [("player", [
    ⟨"drum", [], .whole 0⟩, ⟨"cello", [("priority", .int 2)], .whole 2⟩,
    ⟨"violin", [("priority", .real (.infinite false))], .real (.infinite false)⟩,
    ⟨"conductor", [("priority", .int 9)], .whole 9⟩])] := rfl

end orchestra

end Pass

end Wiring
