import Mathlib
import Wiring.Proofs.Builder.Cycles
import Wiring.Proofs.Builder.Sharing
import Wiring.Proofs.Container.Closed
import Wiring.Proofs.Container.Following
import Wiring.Proofs.Container.Visibility
import Wiring.Proofs.Pass.Refusals

/-!
# Embedding is not seen

Inlining refuses a collection of a private service, or it goes through. Then the containers of the
graph before and after it answer the same requests with the same objects: made by the same factories
of the same arguments, shared in the same way, and as many of each service. Nothing but the order in
which they are made can tell the containers apart.
-/

namespace Wiring

open Graph Container Binding

variable {g p f : Graph} {c c' : Container} {rules : List TagRule} {index index' : TagIndex}
  {lockMode lockMode' : LockMode} {privateIds privateIds' : List String}

/-! ## Embedded arguments -/

/-- An argument is bound to what another is bound to, or to the plan of the service that is. -/
structure Binding.Takes (b b' : Binding) : Prop where
  leaves : List.Forall₂ Binding.Grown b.leaves b'.leaves
  fill_eq : ∀ vs, b'.fill vs = b.fill vs

theorem Binding.takes_all {bs bs' : List Binding} (h : List.Forall₂ Takes bs bs') :
    List.Forall₂ Binding.Grown (leavesAll bs) (leavesAll bs') ∧
      ∀ vs, fillAll bs' vs = fillAll bs vs := by
  induction h with
  | nil => exact ⟨.nil, fun _ => rfl⟩
  | cons takes _ ih =>
    refine ⟨List.rel_append takes.leaves ih.1, fun vs => ?_⟩
    rw [fillAll, fillAll, ← takes.leaves.length_eq, takes.fill_eq, ih.2]

namespace Graph

variable {d e q : Definition} {r : Reference} {plan plan' : ServicePlan}

/-- What a reference is bound to is a leaf. -/
theorem takes_bound (g : Graph) (r : Reference) : Takes (g.bound r) (g.bound r) := by
  refine ⟨?_, fun _ => rfl⟩
  unfold bound
  split
  · exact .cons (.value fun _ => rfl) .nil
  · split
    · exact .cons .deferred .nil
    · exact .cons .service .nil

/-- Embedding services changes nothing about what is left of the references. -/
theorem Embedding.bound_eq (h : Embedding p f) (hs : p.Sealed) (hd : d ∈ f.definitions)
    (hr : r ∈ Definition.references d) : f.bound r = p.bound r := by
  unfold bound
  cases hf : f.find? r.id with
  | none =>
    have gone : p.find? r.id = none := find?_eq_none_iff.2 fun there =>
      find?_eq_none_iff.1 hf (h.named d hd r hr there)
    rw [gone]
  | some q =>
    obtain ⟨hmem, same⟩ := mem_of_find? hf
    obtain ⟨e, he, hR⟩ := h.exists_origin (mem_parts_of_definition hmem) hs.unique
    rw [← same, he]
    simp only [hR.isLazy_eq]

/-- There are no instances in the literals of the graph: it has been there before them. -/
def Still (g : Graph) : Prop :=
  ∀ d ∈ g.definitions, ∀ v, .literal v ∈ d.allArguments → v.Still

section Embedding

variable (h : Embedding p f) (hs : p.Sealed) (flat : p.Flat)

include h hs flat

/-- What the arguments of a part are bound to, beside what those of its origin are bound to. -/
theorem Embedding.takes {consumer consumer' : String} {a a' : Argument} {b b' : Binding}
    (still : p.Still) (hd : d ∈ f.definitions) (hq : q ∈ Definition.parts d)
    (he : e ∈ p.definitions) (ha : a ∈ e.allArguments) (ha' : a' ∈ q.allArguments)
    (grafted : Argument.Grafted a a') (bound : p.bind consumer a = .ok b)
    (bound' : f.bind consumer' a' = .ok b') : Takes b b' := by
  have hf := h.toSealed hs flat
  have held {r : Reference} (hr : r ∈ a.direct) : r ∈ Definition.references e :=
    Definition.mem_references.2 ⟨e, Definition.self_mem_parts e, a, ha, hr⟩
  have held' {r : Reference} (hr : r ∈ a'.direct) : r ∈ Definition.references d :=
    Definition.mem_references.2 ⟨q, hq, a', ha', hr⟩
  rcases grafted with rfl | ⟨r, m, recipe, rfl, eager, same, rfl⟩
  · have settled := hs.settled e he e (Definition.self_mem_parts e) a' ha
    have one {r : Reference} (hr : r ∈ a'.direct) {i i' : Binding}
        (hi : p.bindReference consumer r = .ok i) (hi' : f.bindReference consumer' r = .ok i') :
        i = p.bound r ∧ i' = p.bound r := by
      rw [bindReference_eq hs he (held hr)] at hi
      rw [bindReference_eq hf hd (held' hr), h.bound_eq hs hd (held' hr)] at hi'
      exact ⟨(Except.ok.inj hi).symm, (Except.ok.inj hi').symm⟩
    cases a' with
    | literal v =>
      rw [bind] at bound bound'
      obtain rfl := Except.ok.inj bound
      obtain rfl := Except.ok.inj bound'
      exact ⟨.cons (.value (still e he v ha)) .nil, fun _ => rfl⟩
    | reference r =>
      rw [bind] at bound bound'
      obtain ⟨rfl, rfl⟩ := one (List.mem_singleton.2 rfl) bound bound'
      exact takes_bound p r
    | collection tag members =>
      obtain ⟨items, hi, rfl⟩ := bind_collection.1 bound
      obtain ⟨items', hi', rfl⟩ := bind_collection.1 bound'
      have each : List.Forall₂ Takes items items' := by
        have hi : List.Forall₂ (fun r i => r ∈ members ∧ p.bindReference consumer r = .ok i)
            members items := forall₂_imp_mem hi fun r hr _ h => ⟨hr, h⟩
        refine (forall₂_comp hi.flip hi').imp ?_
        rintro i i' ⟨r, ⟨hr, hi⟩, hi'⟩
        obtain ⟨rfl, rfl⟩ := one hr hi hi'
        exact takes_bound p r
      obtain ⟨leaves, fill_eq⟩ := takes_all each
      exact ⟨leaves, fun vs => by rw [fill, fill, fill_eq]⟩
    | inlined m recipe => cases flat e he _ ha
    | _ => cases settled
  · obtain ⟨plan, planned, rfl⟩ := bind_inlined.1 bound'
    have part := mem_parts_of hd
      (Definition.parts_trans hq (Definition.parts_of_inlined ha'))
    obtain ⟨x, hx, -⟩ := h.exists_origin part hs.unique
    obtain ⟨hmem, ids⟩ := mem_of_find? hx
    have gone := h.inlined_gone hs.unique (mem_parts_of hd hq) ha'
    have hidden := h.hidden x hmem (ids ▸ gone)
    rw [bind, bindReference_eq hs he (held (List.mem_singleton.2 rfl)), Graph.bound, ← same, hx]
      at bound
    simp only [eager, hidden.2.1] at bound
    obtain rfl := Except.ok.inj bound
    rw [← planned.id_eq]
    exact ⟨.cons .inline .nil, fun _ => rfl⟩

/-- The plan of a part, beside that of its origin. -/
theorem Embedding.grown (still : p.Still) (hd : d ∈ f.definitions) (hq : q ∈ Definition.parts d)
    (he : e ∈ p.definitions) (hR : Recipe.Revised Argument.Grafted e q) (planned : Planned p e plan)
    (planned' : Planned f q plan') : plan.Grown plan' := by
  have bound := forall₂_imp_mem planned.allBindings fun a ha b hb => And.intro ha hb
  have bound' := forall₂_imp_mem planned'.allBindings fun a ha b hb => And.intro ha hb
  have all : List.Forall₂ Takes plan.allBindings plan'.allBindings := by
    refine (forall₂_comp (forall₂_comp bound.flip hR.allArguments) bound').imp ?_
    rintro b b' ⟨a', ⟨a, ⟨ha, hb⟩, grafted⟩, ha', hb'⟩
    exact h.takes hs flat still hd hq he ha ha' grafted hb hb'
  have names {d : Definition} {plan : ServicePlan} {g : Graph} (planned : Planned g d plan) :
      plan.keywords.map (·.1) = d.keywords.map (·.1) :=
    (forall₂_map_eq.1 (planned.keywords.imp fun _ _ hk => hk.1)).symm
  obtain ⟨leaves, fill_eq⟩ := takes_all all
  exact {
    id_eq := by rw [planned'.id_eq, hR.id_eq, planned.id_eq]
    factory_eq := Option.some.inj (by rw [← planned'.factory, hR.factory_eq, planned.factory])
    isShared_eq := by rw [planned'.isShared_eq, hR.isShared_eq, planned.isShared_eq]
    length_eq := by
      rw [← planned'.arguments.length_eq, hR.length_eq, planned.arguments.length_eq]
    names_eq := by rw [names planned', hR.names_eq, names planned]
    leaves
    fill_eq }

end Embedding

/-- Plans are in the places of recipes only. -/
theorem bind_inline_leaf {consumer : String} {a : Argument} {b : Binding} {inner : ServicePlan}
    (hf : f.Sealed) (hd : d ∈ f.definitions) (hq : q ∈ Definition.parts d) (ha : a ∈ q.allArguments)
    (bound : f.bind consumer a = .ok b) (leaf : .inline inner ∈ b.leaves) :
    ∃ m recipe, a = .inlined m recipe ∧ Planned f recipe inner := by
  have settled := hf.settled d hd q hq a ha
  have one {r : Reference} (hr : r ∈ a.direct) {i : Binding}
      (hi : f.bindReference consumer r = .ok i) : .inline inner ∉ i.leaves := by
    rw [bindReference_eq hf hd (Definition.mem_references.2 ⟨q, hq, a, ha, hr⟩)] at hi
    obtain rfl := Except.ok.inj hi
    rw [Graph.bound]
    split
    · simp [Binding.leaves]
    · split <;> simp [Binding.leaves]
  cases a with
  | literal v =>
    rw [bind] at bound
    obtain rfl := Except.ok.inj bound
    simp [Binding.leaves] at leaf
  | reference r =>
    rw [bind] at bound
    exact absurd leaf (one (List.mem_singleton.2 rfl) bound)
  | collection tag members =>
    obtain ⟨items, hi, rfl⟩ := bind_collection.1 bound
    rw [Binding.leaves, leavesAll_eq] at leaf
    obtain ⟨i, hmem, leaf⟩ := List.mem_flatMap.1 leaf
    obtain ⟨r, hr, hri⟩ := forall₂_mem_right hi hmem
    exact absurd leaf (one hr hri)
  | inlined m recipe =>
    obtain ⟨plan, planned, rfl⟩ := bind_inlined.1 bound
    obtain rfl : inner = plan := by simpa [Binding.leaves] using leaf
    exact ⟨m, recipe, rfl, planned⟩
  | _ => cases settled

/-- What is in a plan is the plan of a part. -/
theorem Planned.exists_part {path : List Nat} {q' : ServicePlan} (hf : f.Sealed)
    (hd : d ∈ f.definitions) (hq : q ∈ Definition.parts d) (planned : Planned f q plan)
    (found : plan.part? path = some q') : ∃ r ∈ Definition.parts d, Planned f r q' := by
  induction path generalizing q plan with
  | nil =>
    obtain rfl := Option.some.inj found
    exact ⟨q, hq, planned⟩
  | cons k path ih =>
    obtain ⟨inner, leaf, found⟩ := ServicePlan.part?_cons.1 found
    have leaf := List.mem_of_getElem? leaf
    rw [leavesAll_eq] at leaf
    obtain ⟨b, hb, leaf⟩ := List.mem_flatMap.1 leaf
    obtain ⟨a, ha, bound⟩ := forall₂_mem_right planned.allBindings hb
    obtain ⟨m, recipe, rfl, planned⟩ := bind_inline_leaf hf hd hq ha bound leaf
    exact ih (Definition.parts_trans hq (Definition.parts_of_inlined ha)) planned found

end Graph

namespace Container

/-- Where services are embedded in others, plans are in the places of services of the graph before. -/
theorem Frozen.embeds (embedding : Embedding p f) (hs : p.Sealed) (flat : p.Flat) (still : p.Still)
    (frozen : Frozen p lockMode privateIds c) (frozen' : Frozen f lockMode' privateIds' c') :
    Embeds c c' := by
  have hf := embedding.toSealed hs flat
  have hosted {plan q : ServicePlan} {path : List Nat} (part : Part c' plan path q) :
      ∃ d ∈ f.definitions, Planned f d plan ∧ ∃ r ∈ Definition.parts d, Planned f r q := by
    obtain ⟨d, hd, planned⟩ := PlansOf.exists_definition frozen'.plans part.planned
    have hd := (mem_of_find? hd).1
    exact ⟨d, hd, planned,
      Planned.exists_part hf hd (Definition.self_mem_parts d) planned part.found⟩
  refine ⟨fun plan path q part => ?_, fun plan plan' path path' q q' part part' same => ?_,
    fun plan path q part shared => ?_⟩
  · obtain ⟨d, hd, -, r, hr, planned⟩ := hosted part
    obtain ⟨e, he, hR⟩ := embedding.exists_origin (mem_parts_of hd hr) hs.unique
    obtain ⟨plan₀, hp, planned₀⟩ := PlansOf.exists_plan frozen.plans he
    rw [planned.id_eq]
    exact ⟨plan₀, hp, embedding.grown hs flat still hd hr (mem_of_find? he).1 hR planned₀ planned⟩
  · obtain ⟨d, hd, planned, -⟩ := hosted part
    have sole : Sole c' plan := frozen'.sole embedding hs.unique hf hd planned
      (planned.id_eq ▸ part.planned)
    have ids := sole.alone _ (ServicePlan.id_mem_made_of_part? part.found) plan'.id plan'
      part'.planned (same ▸ ServicePlan.id_mem_made_of_part? part'.found)
    obtain rfl : plan = plan' :=
      Option.some.inj (part.planned.symm.trans (ids ▸ part'.planned))
    exact ⟨rfl, ServicePlan.part?_inj sole.nodup part.found part'.found same⟩
  · obtain ⟨d, hd, planned, r, hr, planned'⟩ := hosted part
    rw [planned.isShared_eq]
    exact embedding.shared d hd r hr (planned'.isShared_eq ▸ shared)

end Container

/-! ## Requests -/

namespace Container

section Requests

variable {id target : String} {request : Request}

/-- An identifier stands for what an alias leads to or, if it is not hidden, for itself. -/
theorem Frozen.publicTarget_iff (hg : g.Sealed) (frozen : Frozen g lockMode privateIds c) :
    c.publicTarget id = .ok target ↔ (∃ a ∈ g.aliases, a.id = id ∧ a.target = target) ∨
      (id ∉ g.aliasIds ∧ id ∉ c.privateIds ∧ id ∈ g.ids ∧ id = target) := by
  unfold publicTarget
  cases found : g.findAlias? id with
  | some a =>
    obtain ⟨ha, rfl⟩ := mem_of_findAlias? found
    have known : a.id ∈ g.aliasIds := List.mem_map_of_mem ha
    rw [frozen.get?_alias hg ha]
    refine ⟨fun same => .inl ⟨a, ha, rfl, Except.ok.inj same⟩, ?_⟩
    rintro (⟨a', ha', same, rfl⟩ | ⟨free, -⟩)
    · have one := findAlias?_of_mem hg.uniqueAliases ha'
      rw [same, found] at one
      rw [Option.some.inj one]
    · exact absurd known free
  | none =>
    have free := findAlias?_eq_none_iff.1 found
    have planned : (c.plan? id).isNone = false ↔ id ∈ g.ids := by
      rw [Bool.eq_false_iff, ne_eq, Option.isNone_iff_eq_none, ← PlansOf.ids_eq frozen.plans]
      simp [plan?]
    rw [Table.get?_eq_none_iff.2 (frozen.alias_names ▸ free)]
    dsimp only
    constructor
    · intro h
      split at h
      · cases h
      next shown =>
        split at h
        · cases h
        next there =>
          refine .inr ⟨free, ?_, planned.1 (Bool.eq_false_iff.2 there), Except.ok.inj h⟩
          simpa using shown
    · rintro (⟨a, ha, rfl, -⟩ | ⟨-, shown, there, rfl⟩)
      · exact absurd (List.mem_map_of_mem ha) free
      · rw [if_neg (by simpa using shown), planned.2 there]
        rfl

/-- Some factory is given a handle of the service. -/
def Hands (c : Container) (id : String) : Prop :=
  ∃ consumer plan, c.plan? consumer = some plan ∧ id ∈ plan.handles

/-- The request can be made: whoever uses a handle has been given it. -/
def Request.Handed (c : Container) : Request → Prop
  | .get _ => True
  | .handle id => c.Hands id

section Embedding

variable (embedding : Embedding p f) (hs : p.Sealed) (flat : p.Flat)
  (frozen : Frozen p lockMode privateIds c)

include embedding hs flat frozen

/-- Services that there are handles of are not embedded. -/
theorem Frozen.handed_mem (handed : c.Hands id) : id ∈ f.ids := by
  obtain ⟨consumer, plan, hp, hid⟩ := handed
  obtain ⟨b, hb, hid⟩ := List.mem_flatMap.1 hid
  have laid := (Embedding.refl flat hs.alone).laid hs flat frozen
  exact (embedding.arc_lazy hs flat ((laid.wired _ _ hp b hb).handle hid)).1

/-- What can be requested before services are embedded can be requested after it. -/
theorem Request.target_kept (frozen' : Frozen f lockMode' privateIds c')
    (handed : request.Handed c) (h : request.target c = .ok id) :
    request.target c' = .ok id ∧ id ∈ f.ids := by
  have hf := embedding.toSealed hs flat
  cases request with
  | handle name =>
    obtain rfl := Except.ok.inj h
    exact ⟨rfl, frozen.handed_mem embedding hs flat handed⟩
  | get name =>
    refine (and_congr_left' (frozen'.publicTarget_iff hf)).2 ?_
    rw [aliasIds, embedding.aliases_eq]
    rcases (frozen.publicTarget_iff hs).1 h with ⟨a, ha, rfl, rfl⟩ | ⟨free, shown, there, rfl⟩
    · exact ⟨.inl ⟨a, ha, rfl, rfl⟩, (hf.direct a (embedding.aliases_eq ▸ ha)).2⟩
    -- a public service is not embedded, and is public still
    rw [frozen.mem_private, not_or] at shown
    have isPublic {d : Definition} (hd : d ∈ p.definitions) (same : d.id = name) :
        d.isPublic = true := Bool.not_eq_false _ ▸ fun hidden => shown.2 ⟨d, hd, same, hidden⟩
    have kept : name ∈ f.ids := by
      obtain ⟨d, hd, rfl⟩ := mem_ids.1 there
      by_contra gone
      cases (isPublic hd rfl).symm.trans (embedding.hidden d hd gone).1
    refine ⟨.inr ⟨free, fun hidden => ?_, kept, rfl⟩, kept⟩
    rcases frozen'.mem_private.1 hidden with given | ⟨d, hd, rfl, isPrivate⟩
    · exact shown.1 given
    · obtain ⟨e, he, hR⟩ :=
        embedding.exists_origin (mem_parts_of_definition hd) hs.unique
      obtain ⟨he, same⟩ := mem_of_find? he
      cases (isPublic he same).symm.trans (hR.isPublic_eq.symm.trans isPrivate)

end Embedding

end Requests

/-! ## What has been made before -/

section Guiding

variable {num : Nat} {manner : Manner} {roll : Roll} {ids : List String} {vs : List Value}

/-- What the container has made for requests is a guide for the container of the graph with services
embedded in others. -/
theorem Frozen.exists_guides (embedding : Embedding p f) (hs : p.Sealed) (flat : p.Flat)
    (still : p.Still) (frozen : Frozen p lockMode privateIds c)
    (frozen' : Frozen f lockMode' privateIds' c')
    (complete : Complete c num manner roll ids vs) (uniform : manner.Uniform)
    (handed : manner.Only c.Hands) : ∃ rank, Guides c' roll p.Arc rank ∧
      ∀ id plan, c'.plan? id = some plan → rank id < c'.planCount := by
  have hf := embedding.toSealed hs flat
  have embeds := Frozen.embeds (.refl flat hs.alone) hs flat still frozen frozen
  obtain ⟨rank, bound, falls⟩ := complete.exists_ranks embeds uniform p.ids
  refine ⟨rank, ⟨embedding.laid hs flat frozen', fun a b eager there => ?_,
    fun e he id asked => ?_⟩, fun id plan hp => ?_⟩
  · -- nothing is embedded in the plans, so what one needs at once is one of its leaves
    obtain ⟨e, he, rfl⟩ := there
    obtain ⟨n, hn⟩ := List.mem_iff_getElem?.1 he
    have hp := complete.planned embeds hn
    have needs := (frozen.mem_dependencies hp).1 ((PlansOf.mem_dependenciesOf frozen.plans).2 eager)
    rw [reads_eager.inline, ← flatMap_leavesAll reads_eager.collection] at needs
    obtain ⟨leaf, hleaf, needs⟩ := List.mem_flatMap.1 needs
    obtain ⟨plan₀, hp₀, grown⟩ := embeds.grown _ [] _ ⟨hp, rfl⟩
    obtain rfl := Option.some.inj (hp₀.symm.trans hp)
    obtain ⟨_, -, same⟩ := forall₂_mem_left grown.leaves hleaf
    have needed : Needed roll e.plan.id b := by
      cases same with
      | service | inline =>
        obtain rfl := List.mem_singleton.1 needs
        exact ⟨e, he, rfl, .inl hleaf⟩
      | value | deferred => cases needs
    obtain ⟨-, d, -, hd, -⟩ := eager
    exact ⟨(complete.first_lt embeds uniform needed).1,
      falls _ _ needed (mem_ids.2 ⟨d, mem_of_find? hd⟩)⟩
  · obtain ⟨n, hn⟩ := List.mem_iff_getElem?.1 he
    have needed : Needed roll e.plan.id id := ⟨e, he, rfl, .inr asked⟩
    have only := (handed _ _ _).of_gets (complete.written.recorded hn).gets id asked
    have there := frozen.handed_mem embedding hs flat only
    exact ⟨(complete.first_lt embeds uniform needed).1,
      falls _ _ needed (embedding.ids_subset there), frozen'.plan?_isSome there⟩
  · obtain ⟨d, hd, -⟩ := PlansOf.exists_definition frozen'.plans hp
    rw [embedding.planCount_eq hf frozen']
    exact bound id (embedding.ids_subset (mem_ids.2 ⟨d, mem_of_find? hd⟩))

end Guiding

end Container

/-! ## Before and after -/

/-- How many instances there are of a service. -/
def Ledger.count (w : Ledger) (id : String) : Nat := w.made.countP fun i => i.service == id

/-- Whatever requests the container `c` answers, `c'` answers them too. One renaming of instances
takes all answers and all instances of the one to those of the other, and there are as many of each
service. -/
def Container.Mirrors (c c' : Container) : Prop :=
  ∀ manner : Manner, manner.Uniform → manner.Only c.Hands →
    ∀ (num : Nat) (requests : List Request) (vs : List Value) (m : Machine Ledger),
      (∀ request ∈ requests, request.Handed c) →
        Ends (session c (.making manner) num requests) { state := {} } (.ok (vs.map .ok)) m →
          ∃ ρ m', Ends (session c' (.making manner) num requests) { state := {} }
              (.ok ((vs.map (Value.rename ρ)).map .ok)) m' ∧
            Renamed ρ m.state m'.state ∧ ∀ id, m'.state.count id = m.state.count id

/-- The container of a graph with services embedded in others answers what the container of the
graph itself answers. -/
theorem Container.Frozen.mirrors (embedding : Embedding p f) (hs : p.Sealed) (flat : p.Flat)
    (still : p.Still) (frozen : Frozen p lockMode privateIds c)
    (frozen' : Frozen f lockMode' privateIds c') : c.Mirrors c' := by
  intro manner uniform only num requests vs m handed answered
  obtain ⟨roll, ids, targets, made, complete⟩ := exists_complete frozen answered
  have embeds := Frozen.embeds (.refl flat hs.alone) hs flat still frozen frozen
  have embeds' := frozen.embeds embedding hs flat still frozen'
  have kept : List.Forall₂ (fun q id => q.target c' = .ok id ∧ id ∈ f.ids) requests ids :=
    forall₂_imp_mem targets fun request hr id target =>
      request.target_kept embedding hs flat frozen frozen' (handed request hr) target
  obtain ⟨rank, guides, bound⟩ :=
    frozen.exists_guides embedding hs flat still frozen' complete uniform only
  have asked : List.Forall₂ (fun q id => q.target c' = .ok id ∧ OnRoll roll id ∧
      ∃ plan, c'.plan? id = some plan) requests ids :=
    (forall₂_imp_mem kept.flip fun id hid request h =>
      ⟨h.1, complete.onRoll hid, frozen'.plan?_isSome h.2⟩).flip
  obtain ⟨vs', m', answered'⟩ :=
    session_succeeds (k := 0) frozen' complete embeds embeds' uniform guides bound asked .start
  obtain ⟨roll', ids', targets', made', complete'⟩ := exists_complete frozen' answered'
  obtain rfl : ids = ids' := by
    rw [← List.forall₂_eq_eq_eq]
    refine (forall₂_comp kept.flip targets').imp ?_
    rintro id id' ⟨request, ⟨target, -⟩, target'⟩
    exact Except.ok.inj (target.symm.trans target')
  obtain ⟨ρ, rfl, renamed⟩ := complete.renamed complete' embeds embeds' uniform made made'
  refine ⟨ρ, m', answered', renamed, fun id => ?_⟩
  unfold Ledger.count
  rw [renamed.perm.countP_eq, List.countP_map]
  rfl

/-- What the passes up to removal make of a graph can be frozen, and inlining either refuses a
collection of a private service or leaves a graph whose container makes the same of all requests. -/
theorem Graph.inlineServices_mirrors (registered : g.Registered) (sound : TagIndex.Sound rules)
    (before : Runs Builtin.untilRemoval { rules } g index p) (still : p.Still)
    (lockMode : LockMode) (privateIds : List String) :
    ∃ c, freeze p lockMode privateIds = .ok c ∧
      ((∃ e w, Builtin.inlineServices.run index { graph := p } = .error e w ∧ Pass.Refuses p e) ∨
        ∃ index' f c', Runs [.inlineServices] index p index' f ∧
          freeze f lockMode privateIds = .ok c' ∧ c.Mirrors c') := by
  obtain ⟨hs, flat, -⟩ := sealed_of_runs registered sound before
  obtain ⟨c, frozen⟩ := exists_frozen hs lockMode privateIds
  refine ⟨c, freeze_eq_ok.2 frozen, ?_⟩
  cases run : Builtin.inlineServices.run index { graph := p } with
  | error e w =>
    have fails : Build.FailsBy (Pass.Refuses p) (Builtin.inlineServices.run index) p := by
      rw [Builtin.run_eq (by decide)]
      exact .bind (Pass.inlineServices_refuses hs flat) fun _ _ _ => .pure _
    exact .inl ⟨e, w, rfl, fails [] e w run⟩
  | ok index' w =>
    have last : Runs [.inlineServices] index p index' w.graph := .cons ⟨[], w.notes, run⟩ .nil
    have compiled := compiled_of_prepared registered sound before last
    have hf := compiled.embedding.toSealed hs flat
    obtain ⟨c', frozen'⟩ := exists_frozen hf lockMode privateIds
    exact .inr ⟨index', w.graph, c', last, freeze_eq_ok.2 frozen',
      frozen.mirrors compiled.embedding hs flat still frozen'⟩

/-! ## The small application, before and after -/

/-- A factory asks for the service of a handle that is its first argument, if the service is one of
those that are given. -/
def Manner.prompt (services : List String) : Manner := fun _ arguments _ =>
  match arguments with
  | .deferred _ id :: _ => if id ∈ services then .ask id fun _ => .enough else .enough
  | _ => .enough

theorem Manner.prompt_uniform (services : List String) : (prompt services).Uniform := by
  rintro ρ - factory arguments keywords
  cases arguments with
  | nil => exact .enough
  | cons v vs =>
    cases v with
    | deferred num id =>
      simp only [prompt, List.map_cons, Value.rename]
      split
      · exact .ask fun _ => .enough
      · exact .enough
    | _ => exact .enough

theorem Manner.prompt_only {services : List String} {P : String → Prop}
    (all : ∀ id ∈ services, P id) : (prompt services).Only P := by
  intro factory arguments keywords
  unfold prompt
  split
  · split
    next given => exact ⟨all _ given, fun _ => trivial⟩
    next => trivial
  · trivial

/-- What passes in a row make of an index and a graph. -/
def Builtin.inRow (bs : List Builtin) (index : TagIndex) (g : Graph) :
    Except Failure (TagIndex × Graph) :=
  match bs.foldlM (fun index b => b.run index) index { graph := g } with
  | .ok index left => .ok (index, left.graph)
  | .error e _ => .error e

theorem runs_of_foldlM {bs : List Builtin} {w w' : Workbench}
    (h : bs.foldlM (fun index b => b.run index) index w = .ok index' w') :
    Runs bs index w.graph index' w'.graph := by
  induction bs generalizing index w with
  | nil =>
    obtain ⟨rfl, rfl⟩ := Run.pure_ok.1 h
    exact .nil
  | cons b bs ih =>
    rw [List.foldlM_cons] at h
    obtain ⟨index₁, w₁, run, rest⟩ := Run.bind_ok.1 h
    exact .cons ⟨w.notes, w₁.notes, run⟩ (ih rest)

theorem Builtin.runs_of_inRow {bs : List Builtin} (h : inRow bs index g = .ok (index', f)) :
    Runs bs index g index' f := by
  unfold inRow at h
  split at h
  next run =>
    obtain ⟨rfl, rfl⟩ := Prod.mk.inj (Except.ok.inj h)
    exact runs_of_foldlM run
  next => cases h

theorem Builtin.inRow_of_error {b : Builtin} {e : Failure} {w : Workbench}
    (h : b.run index { graph := g } = .error e w) : inRow [b] index g = .error e := by
  have same : [b].foldlM (fun index b => b.run index) index { graph := g } = .error e w := by
    rw [List.foldlM_cons]
    show EStateM.bind _ _ _ = _
    unfold EStateM.bind
    rw [h]
  unfold inRow
  rw [same]

/-- What a container answers to requests, if it answers all of them. -/
def Container.answers (c : Container) (manner : Manner) (requests : List Container.Request) :
    Except Failure (List Value) :=
  match session c (.making manner) 0 requests { state := {} } with
  | .ok qs _ => qs.mapM fun q => q
  | .error e _ => .error e

theorem Container.ends_of_answers {manner : Manner} {requests : List Container.Request}
    {vs : List Value} (h : c.answers manner requests = .ok vs) :
    ∃ m, Ends (session c (.making manner) 0 requests) { state := {} } (.ok (vs.map .ok)) m := by
  unfold answers at h
  split at h
  next qs m run =>
    refine ⟨m, run.trans ?_⟩
    have same := forall₂_map_eq.1 ((mapM_eq_ok.1 h).imp fun q v same => show id q = .ok v from same)
    rw [List.map_id] at same
    rw [same]
  next => cases h

/-- Whether one service is given a handle of another. -/
def Container.givesHandle (c : Container) (consumer id : String) : Bool :=
  (c.plan? consumer).any fun plan => plan.handles.contains id

theorem Container.hands_of_givesHandle {consumer id : String}
    (h : c.givesHandle consumer id = true) : c.Hands id := by
  unfold givesHandle at h
  cases hp : c.plan? consumer with
  | none =>
    rw [hp] at h
    cases h
  | some plan =>
    rw [hp] at h
    exact ⟨consumer, plan, hp, by simpa using h⟩

/-- Whether there are no literals in a graph. -/
def Graph.unlettered (g : Graph) : Bool :=
  g.definitions.all fun d => d.allArguments.all fun
    | .literal _ => false
    | _ => true

theorem Graph.still_of_unlettered (h : p.unlettered = true) : p.Still := fun d hd v hv => by
  have all := List.all_eq_true.1 (List.all_eq_true.1 h d hd) _ hv
  cases all

/-- The requests for the application, for its mailer and for the application again. -/
def Graph.sampleRequests : List Container.Request := [.get "main", .handle "mail", .get "app"]

/-- Whether the small application answers these requests before the store is embedded in it. The
mailer asks for the application meanwhile. -/
def Graph.sampleAnswers : Except Failure Bool := do
  let (index, p) ← Builtin.inRow Builtin.untilRemoval {} sample
  let c ← freeze p .thread []
  let _ ← c.answers (.prompt ["app"]) sampleRequests
  let _ ← Builtin.inRow [.inlineServices] index p
  return p.unlettered && c.givesHandle "app" "mail" && c.givesHandle "mail" "app"

/-- So it answers them after it, with the same objects. -/
theorem Graph.inlineServices_mirrors_sample : ∃ index index' p f c c', ∃ vs : List Value, ∃ ρ m m',
    Runs Builtin.untilRemoval {} sample index p ∧ Runs [.inlineServices] index p index' f ∧
    freeze p .thread [] = .ok c ∧ freeze f .thread [] = .ok c' ∧
    Ends (session c (.making (.prompt ["app"])) 0 sampleRequests) { state := {} }
      (.ok (vs.map .ok)) m ∧
    Ends (session c' (.making (.prompt ["app"])) 0 sampleRequests) { state := {} }
      (.ok ((vs.map (Value.rename ρ)).map .ok)) m' ∧
    Renamed ρ m.state m'.state ∧ ∀ id, m'.state.count id = m.state.count id := by
  have accepted : sampleAnswers = .ok true := by cbv
  unfold sampleAnswers at accepted
  obtain ⟨⟨index, p⟩, before, accepted⟩ := bind_eq_ok.1 accepted
  obtain ⟨c, h, accepted⟩ := bind_eq_ok.1 accepted
  obtain ⟨vs, answers, accepted⟩ := bind_eq_ok.1 accepted
  obtain ⟨_, inlined, accepted⟩ := bind_eq_ok.1 accepted
  have checks := pure_eq_ok.1 accepted
  simp only [Bool.and_eq_true] at checks
  obtain ⟨⟨unlettered, mail⟩, app⟩ := checks
  obtain ⟨m, answered⟩ := ends_of_answers answers
  have before := Builtin.runs_of_inRow before
  obtain ⟨c₁, h₁, refused | ⟨index', f, c', last, h', mirrors⟩⟩ :=
    inlineServices_mirrors sample_registered TagIndex.sound_nil before
      (still_of_unlettered unlettered) .thread []
  · obtain ⟨e, w, run, -⟩ := refused
    cases inlined.symm.trans (Builtin.inRow_of_error run)
  obtain rfl := Except.ok.inj (h.symm.trans h₁)
  have handed : ∀ request ∈ sampleRequests, request.Handed c := by
    simpa [sampleRequests, Request.Handed] using hands_of_givesHandle mail
  have only : (Manner.prompt ["app"]).Only c.Hands :=
    Manner.prompt_only (by simpa using hands_of_givesHandle app)
  obtain ⟨ρ, m', answered', renamed, count⟩ :=
    mirrors _ (Manner.prompt_uniform _) only 0 sampleRequests vs m handed answered
  exact ⟨index, index', p, f, c, c', vs, ρ, m, m', before, last, h, h', answered, answered',
    renamed, count⟩

end Wiring
