import Wiring.Plan
import Wiring.Proofs.Definition.Marks
import Wiring.Proofs.Graph.Sealed

/-!
# Plans of sealed graphs

Every recipe of a sealed graph has a plan. What the bindings of a plan refer to is what the
references of its recipe stand for, in the same order.
-/

namespace Wiring

/-- All that the arguments of a plan are bound to. -/
def Plan.allBindings {β : Type} (p : Plan β) : List β := p.arguments ++ p.keywords.map (·.2)

namespace Binding

mutual

/-- The services that a binding needs at once, or has handles of. -/
def targets : Binding → List String
  | .service id | .deferred id => [id]
  | .collection _ items => targetsAll items
  | .inline plan => targetsAll plan.arguments ++ targetsNamed plan.keywords
  | _ => []

/-- The services that several bindings refer to. -/
def targetsAll : List Binding → List String
  | [] => []
  | b :: bs => targets b ++ targetsAll bs

/-- The services that keyword bindings refer to. -/
def targetsNamed : List (String × Binding) → List String
  | [] => []
  | (_, b) :: bs => targets b ++ targetsNamed bs

end

/-- `read` goes through collections and embedded plans in order, and finds nothing in values. -/
structure Reads (read : Binding → List String) : Prop where
  value : ∀ v, read (.value v) = []
  collection : ∀ tag items, read (.collection tag items) = items.flatMap read
  inline : ∀ plan, read (.inline plan) = plan.allBindings.flatMap read

theorem eagerAll_eq (bs : List Binding) : eagerAll bs = bs.flatMap eager := by
  induction bs with
  | nil => rfl
  | cons b bs ih => rw [eagerAll, ih, List.flatMap_cons]

theorem eagerNamed_eq (bs : List (String × Binding)) :
    eagerNamed bs = (bs.map (·.2)).flatMap eager := by
  induction bs with
  | nil => rfl
  | cons b bs ih => rw [eagerNamed, ih, List.map_cons, List.flatMap_cons]

theorem targetsAll_eq (bs : List Binding) : targetsAll bs = bs.flatMap targets := by
  induction bs with
  | nil => rfl
  | cons b bs ih => rw [targetsAll, ih, List.flatMap_cons]

theorem targetsNamed_eq (bs : List (String × Binding)) :
    targetsNamed bs = (bs.map (·.2)).flatMap targets := by
  induction bs with
  | nil => rfl
  | cons b bs ih => rw [targetsNamed, ih, List.map_cons, List.flatMap_cons]

theorem reads_eager : Reads eager where
  value _ := rfl
  collection tag items := by rw [eager, eagerAll_eq]
  inline plan := by
    rw [eager, eagerAll_eq, eagerNamed_eq, Plan.allBindings, List.flatMap_append]

theorem reads_targets : Reads targets where
  value _ := rfl
  collection tag items := by rw [targets, targetsAll_eq]
  inline plan := by
    rw [targets, targetsAll_eq, targetsNamed_eq, Plan.allBindings, List.flatMap_append]

end Binding

namespace Graph

open Definition Argument

variable {g : Graph} {d q : Definition} {p : ServicePlan} {r : Reference} {consumer : String}

/-- What a reference by name is bound to. -/
def bound (g : Graph) (r : Reference) : Binding :=
  match g.find? r.id with
  | none => .value .null
  | some d => if r.lazy || d.isLazy then .deferred r.id else .service r.id

theorem bindAll_eq_ok {as : List Argument} {bs : List Binding} :
    g.bindAll consumer as = .ok bs ↔
      List.Forall₂ (fun a b => g.bind consumer a = .ok b) as bs := by
  rw [← mapM_eq_ok]
  suffices h : g.bindAll consumer as = as.mapM (g.bind consumer) by rw [h]
  induction as with
  | nil => rfl
  | cons a as ih => rw [bindAll, ih, List.mapM_cons]

theorem bindNamed_eq_ok {ks : List (String × Argument)} {bs : List (String × Binding)} :
    g.bindNamed consumer ks = .ok bs ↔
      List.Forall₂ (fun k b => k.1 = b.1 ∧ g.bind consumer k.2 = .ok b.2) ks bs := by
  induction ks generalizing bs with
  | nil => cases bs <;> simp [bindNamed]
  | cons k ks ih =>
    obtain ⟨name, a⟩ := k
    simp only [bindNamed, bind_eq_ok, pure_eq_ok, ih]
    constructor
    · rintro ⟨b, hb, rest, hrest, rfl⟩
      exact .cons ⟨rfl, hb⟩ hrest
    · rintro (_ | @⟨_, l, _, rest, ⟨hname, hb⟩, hrest⟩)
      exact ⟨l.2, hb, rest, hrest, by simp [Prod.ext_iff, ← hname]⟩

/-- The plan of a recipe: its factory, and its arguments bound place by place. -/
structure Planned (g : Graph) (d : Definition) (p : ServicePlan) : Prop where
  frame : p = ServicePlan.assemble d p.factory p.arguments p.keywords
  factory : d.factory = some p.factory
  arguments : List.Forall₂ (fun a b => g.bind d.id a = .ok b) d.arguments p.arguments
  keywords : List.Forall₂ (fun k b => k.1 = b.1 ∧ g.bind d.id k.2 = .ok b.2) d.keywords p.keywords

theorem planFactory_ok {f : Factory} : planFactory d = .ok f ↔ d.factory = some f := by
  unfold planFactory
  cases d.factory <;> simp

theorem plan_eq_ok : g.plan d = .ok p ↔ Planned g d p := by
  simp only [plan, bind_eq_ok, pure_eq_ok, planFactory_ok, bindAll_eq_ok, bindNamed_eq_ok]
  constructor
  · rintro ⟨f, hf, as, ha, ks, hk, rfl⟩
    exact ⟨rfl, hf, ha, hk⟩
  · rintro ⟨hp, hf, ha, hk⟩
    exact ⟨_, hf, _, ha, _, hk, hp.symm⟩

/-- What is embedded is bound to its plan. -/
theorem bind_inlined {m : Nat} {b : Binding} : g.bind consumer (.inlined m q) = .ok b ↔
    ∃ plan, Planned g q plan ∧ b = .inline plan := by
  simp only [bind, ← plan_eq_ok, plan, bind_eq_ok, pure_eq_ok, eq_comm (b := b)]
  constructor
  · rintro ⟨f, hf, as, ha, ks, hk, rfl⟩
    exact ⟨_, ⟨f, hf, as, ha, ks, hk, rfl⟩, rfl⟩
  · rintro ⟨plan, ⟨f, hf, as, ha, ks, hk, rfl⟩, rfl⟩
    exact ⟨f, hf, as, ha, ks, hk, rfl⟩

theorem bind_collection {tag : String} {members : List Reference} {b : Binding} :
    g.bind consumer (.collection tag members) = .ok b ↔
      ∃ items, List.Forall₂ (fun r i => g.bindReference consumer r = .ok i) members items ∧
        b = .collection tag items := by
  simp only [bind, bind_eq_ok, pure_eq_ok, mapM_eq_ok, eq_comm (b := b)]

namespace Planned

theorem id_eq (h : Planned g d p) : p.id = d.id := by rw [h.frame]; rfl
theorem isShared_eq (h : Planned g d p) : p.isShared = d.isShared := by rw [h.frame]; rfl
theorem isPublic_eq (h : Planned g d p) : p.isPublic = d.isPublic := by rw [h.frame]; rfl

theorem dependencies_eq (h : Planned g d p) :
    p.dependencies = (p.allBindings.flatMap Binding.eager).eraseDups := by
  rw [h.frame]
  simp only [ServicePlan.assemble, Plan.allBindings, Binding.eagerAll_eq, Binding.eagerNamed_eq,
    List.flatMap_append]

/-- The arguments side by side with what they are bound to. -/
theorem allBindings (h : Planned g d p) :
    List.Forall₂ (fun a b => g.bind d.id a = .ok b) d.allArguments p.allBindings := by
  refine List.rel_append h.arguments ?_
  rw [List.forall₂_map_left_iff, List.forall₂_map_right_iff]
  exact h.keywords.imp fun _ _ hk => hk.2

end Planned

/-- A recipe has a plan if each of its arguments can be bound. -/
theorem exists_planned {f : Factory} (made : d.factory = some f)
    (h : ∀ a ∈ d.allArguments, ∃ b, g.bind d.id a = .ok b) : ∃ p, Planned g d p := by
  obtain ⟨arguments, ha⟩ := forall₂_exists fun a ha => h a (List.mem_append_left _ ha)
  obtain ⟨keywords, hk⟩ : ∃ keywords, List.Forall₂
      (fun k (b : String × Binding) => k.1 = b.1 ∧ g.bind d.id k.2 = .ok b.2) d.keywords keywords :=
    forall₂_exists fun k hk => by
      obtain ⟨b, hb⟩ := h k.2 (List.mem_append_right _ (List.mem_map_of_mem hk))
      exact ⟨(k.1, b), rfl, hb⟩
  exact ⟨ServicePlan.assemble d f arguments keywords, rfl, made, ha, hk⟩

/-! ## What plans refer to -/

section Referents

variable {b : Binding} {a : Argument}

/-- What is referred to by an argument that is bound is a reference that is bound. -/
theorem bind_referents (outer : ∀ m q, a ≠ .inlined m q) (h : g.bind consumer a = .ok b)
    {x : Argument} (hx : x ∈ a.referents) :
    ∃ r i, x.requireReference "id" = .ok r ∧ g.bindReference consumer r = .ok i := by
  cases a with
  | reference r =>
    rw [Argument.referents, List.mem_singleton] at hx
    exact ⟨r, b, hx ▸ rfl, by rwa [bind] at h⟩
  | collection tag members =>
    obtain ⟨r, hr, rfl⟩ := List.mem_map.1 (by rwa [Argument.referents] at hx)
    obtain ⟨items, bound, -⟩ := bind_collection.1 h
    obtain ⟨i, -, hi⟩ := forall₂_mem_left bound hr
    exact ⟨r, i, rfl, hi⟩
  | mixture tag members =>
    simp only [bind, bind_eq_ok, pure_eq_ok, mapM_eq_ok] at h
    obtain ⟨items, bound, -⟩ := h
    obtain ⟨i, -, r, hr, hi⟩ := forall₂_mem_left bound (by rwa [Argument.referents] at hx)
    exact ⟨r, i, hr, hi⟩
  | inlined m q => exact absurd rfl (outer m q)
  | _ => simp [Argument.referents] at hx

namespace Planned

/-- What the recipe of a plan refers to are references that are bound. -/
theorem exists_bound (h : Planned g d p) {x : Argument} (hx : x ∈ referents d) :
    ∃ consumer r i, x.requireReference "id" = .ok r ∧ g.bindReference consumer r = .ok i := by
  induction d using Definition.induct generalizing p with
  | step d ih =>
    rw [referents_eq] at hx
    obtain ⟨a, ha, hx⟩ := List.mem_flatMap.1 hx
    obtain ⟨b, -, bound⟩ := forall₂_mem_left h.allBindings ha
    by_cases nested : ∃ m q, a = .inlined m q
    · obtain ⟨m, q, rfl⟩ := nested
      obtain ⟨plan, planned, rfl⟩ := bind_inlined.1 bound
      exact ih m q ha planned (referents_inlined m q ▸ hx)
    · exact ⟨d.id, bind_referents (fun m q e => nested ⟨m, q, e⟩) bound hx⟩

end Planned

/-- A reference leads to `b`, and neither the reference nor what it leads to is lazy. -/
def AtOnce (g : Graph) (r : Reference) (b : String) : Prop :=
  g.resolveAlias r.id = .ok b ∧ ∃ d, g.find? b = some d ∧ (r.lazy || d.isLazy) = false

/-- What a reference is bound to: what it leads to, or nothing where that is not there. -/
theorem bindReference_cases {i : Binding} (bound : g.bindReference consumer r = .ok i) :
    ∃ target, g.resolveAlias r.id = .ok target ∧ (g.find? target = none ∧ i = .value .null ∨
      ∃ d, g.find? target = some d ∧
        i = if r.lazy || d.isLazy then .deferred target else .service target) := by
  obtain ⟨target, leads, bound⟩ := bind_eq_ok.1 bound
  refine ⟨target, leads, ?_⟩
  cases hf : g.find? target with
  | none =>
    rw [hf] at bound
    dsimp only at bound
    split at bound
    · exact .inl ⟨rfl, (pure_eq_ok.1 bound).symm⟩
    · cases bound
  | some d =>
    rw [hf] at bound
    exact .inr ⟨d, rfl, (pure_eq_ok.1 bound).symm⟩

/-- What a reference is bound to needs at once what the reference leads to, unless it is lazy. -/
theorem mem_eager_reference {i : Binding} {t : String} (bound : g.bindReference consumer r = .ok i) :
    t ∈ i.eager ↔ g.AtOnce r t := by
  unfold AtOnce
  obtain ⟨target, leads, ⟨absent, rfl⟩ | ⟨d, hd, rfl⟩⟩ := bindReference_cases bound
  · rw [Binding.reads_eager.value, leads, Except.ok.injEq]
    refine ⟨(nomatch ·), ?_⟩
    rintro ⟨rfl, d, hd, -⟩
    cases absent.symm.trans hd
  · rw [leads, Except.ok.injEq]
    by_cases isLazy : (r.lazy || d.isLazy) = true
    · rw [if_pos isLazy]
      refine ⟨fun h => (by simp [Binding.eager] at h), ?_⟩
      rintro ⟨rfl, d', hd', eager⟩
      obtain rfl := Option.some.inj (hd.symm.trans hd')
      exact absurd isLazy (Bool.eq_false_iff.1 eager)
    · rw [if_neg isLazy, Binding.eager, List.mem_singleton]
      constructor
      · rintro rfl
        exact ⟨rfl, d, hd, Bool.eq_false_iff.2 isLazy⟩
      · rintro ⟨rfl, -⟩
        rfl

/-- Items that are bound side by side with references need at once what these lead to. -/
theorem mem_eager_items {members : List Argument} {items : List Binding} {t : String}
    (bound : List.Forall₂ (fun x i => ∃ r, x.reference? = some r ∧
      g.bindReference consumer r = .ok i) members items) :
    t ∈ items.flatMap Binding.eager ↔ ∃ r ∈ members.filterMap reference?, g.AtOnce r t := by
  rw [List.mem_flatMap]
  constructor
  · rintro ⟨i, hi, ht⟩
    obtain ⟨x, hx, r, hr, bound⟩ := forall₂_mem_right bound hi
    exact ⟨r, List.mem_filterMap.2 ⟨x, hx, hr⟩, (mem_eager_reference bound).1 ht⟩
  · rintro ⟨r, hr, ht⟩
    obtain ⟨x, hx, hr⟩ := List.mem_filterMap.1 hr
    obtain ⟨i, hi, r', hr', bound⟩ := forall₂_mem_left bound hx
    obtain rfl := Option.some.inj (hr.symm.trans hr')
    exact ⟨i, hi, (mem_eager_reference bound).2 ht⟩

/-- What an argument is bound to needs at once what the references in it lead to. -/
theorem mem_eager_bind {t : String} (outer : ∀ m q, a ≠ .inlined m q)
    (bound : g.bind consumer a = .ok b) : t ∈ b.eager ↔ ∃ r ∈ a.direct, g.AtOnce r t := by
  cases a with
  | literal v =>
    obtain rfl := Except.ok.inj (bound.symm.trans (by rw [bind]))
    simp [Binding.eager, direct]
  | reference r =>
    rw [bind] at bound
    simp [mem_eager_reference bound, direct]
  | collection tag members =>
    obtain ⟨items, each, rfl⟩ := bind_collection.1 bound
    have each : List.Forall₂ (fun x i => ∃ r, x.reference? = some r ∧
        g.bindReference consumer r = .ok i) (members.map Argument.reference) items := by
      rw [List.forall₂_map_left_iff]
      exact each.imp fun r _ hi => ⟨r, rfl, hi⟩
    have same : (members.map Argument.reference).filterMap reference? = members := by
      rw [List.filterMap_map]
      exact List.filterMap_some
    rw [Binding.reads_eager.collection, mem_eager_items each, same, direct]
  | mixture tag members =>
    simp only [bind, bind_eq_ok, pure_eq_ok, mapM_eq_ok] at bound
    obtain ⟨items, each, rfl⟩ := bound
    have each : List.Forall₂ (fun x i => ∃ r, x.reference? = some r ∧
        g.bindReference consumer r = .ok i) members items := by
      refine each.imp fun x i read => ?_
      obtain ⟨r, hr, hi⟩ := read
      cases x with
      | reference r' => exact ⟨r, congrArg some (Except.ok.inj hr), hi⟩
      | _ => cases hr
    rw [Binding.reads_eager.collection, mem_eager_items each, direct]
  | inlined m q => exact absurd rfl (outer m q)
  | _ => simp [bind] at bound

/-- A plan needs at once what the references of its recipe lead to, embedded recipes included. -/
theorem Planned.mem_eager (h : Planned g d p) {t : String} :
    t ∈ p.allBindings.flatMap Binding.eager ↔ ∃ r ∈ references d, g.AtOnce r t := by
  induction d using Definition.induct generalizing p with
  | step d ih =>
    have each (a : Argument) (ha : a ∈ d.allArguments) (b : Binding)
        (bound : g.bind d.id a = .ok b) : t ∈ b.eager ↔ ∃ r ∈ a.references, g.AtOnce r t := by
      by_cases nested : ∃ m q, a = .inlined m q
      · obtain ⟨m, q, rfl⟩ := nested
        obtain ⟨plan, planned, rfl⟩ := bind_inlined.1 bound
        rw [Binding.reads_eager.inline, ih m q ha planned, references_inlined]
      · have outer : ∀ m q, a ≠ .inlined m q := fun m q e => nested ⟨m, q, e⟩
        rw [mem_eager_bind outer bound, references_eq_direct outer]
    rw [List.mem_flatMap, references_eq]
    simp only [List.mem_flatMap]
    constructor
    · rintro ⟨b, hb, ht⟩
      obtain ⟨a, ha, bound⟩ := forall₂_mem_right h.allBindings hb
      obtain ⟨r, hr, leads⟩ := (each a ha b bound).1 ht
      exact ⟨r, ⟨a, ha, hr⟩, leads⟩
    · rintro ⟨r, ⟨a, ha, hr⟩, leads⟩
      obtain ⟨b, hb, bound⟩ := forall₂_mem_left h.allBindings ha
      exact ⟨b, hb, (each a ha b bound).2 ⟨r, hr, leads⟩⟩

/-- What a plan needs at once is there. -/
theorem Planned.eager_mem_ids (h : Planned g d p) {t : String}
    (ht : t ∈ p.allBindings.flatMap Binding.eager) : t ∈ g.ids := by
  obtain ⟨r, -, -, e, he, -⟩ := h.mem_eager.1 ht
  exact mem_ids.2 ⟨e, mem_of_find? he⟩

/-- Something can be done for each reference of a definition if it can be done for each referent. -/
theorem exists_each {α : Type} {act : Reference → Except Failure α}
    (h : ∀ x ∈ referents d, ∃ r y, x.requireReference "id" = .ok r ∧ act r = .ok y) :
    ∃ found, eachReference d act = .ok found := by
  unfold eachReference
  split
  · refine mapM_succeeds.2 fun r hr => ?_
    obtain ⟨r', y, hr', hy⟩ := h (.reference r) (mem_referents_of_references hr)
    obtain rfl := Except.ok.inj hr'
    exact ⟨y, hy⟩
  · refine mapM_succeeds.2 fun x hx => ?_
    obtain ⟨r, y, hr, hy⟩ := h x hx
    exact ⟨y, bind_eq_ok.2 ⟨r, hr, hy⟩⟩

/-- Where all definitions have plans the edges of the graph can be told. -/
theorem exists_edges (h : ∀ d ∈ g.definitions, ∃ p, Planned g d p) :
    ∃ edges, g.edges = .ok edges := by
  refine mapM_succeeds.2 fun d hd => ?_
  obtain ⟨p, planned⟩ := h d hd
  obtain ⟨found, hf⟩ : ∃ found, eachReference d (g.edgeOf d.id) = .ok found := by
    refine exists_each fun x hx => ?_
    obtain ⟨consumer, r, i, hr, hi⟩ := planned.exists_bound hx
    obtain ⟨target, ht, -⟩ := bind_eq_ok.1 hi
    exact ⟨r, _, hr, bind_eq_ok.2 ⟨target, ht, rfl⟩⟩
  exact ⟨_, bind_eq_ok.2 ⟨found, hf, rfl⟩⟩

end Referents

/-! ## Sealed graphs -/

section Sealed

variable (hg : g.Sealed) (hd : d ∈ g.definitions)

include hg hd

theorem bindReference_eq (hr : r ∈ references d) :
    g.bindReference consumer r = .ok (g.bound r) := by
  unfold bindReference bound
  rw [hg.resolveAlias_ok hd hr, ok_bind]
  cases hf : g.find? r.id with
  | none =>
    have optional := (hg.closed d hd r hr).2.resolve_left (find?_eq_none_iff.1 hf)
    simp [optional, pure, Except.pure]
  | some e => rfl

/-- Every recipe that a sealed graph is made of has a plan. -/
theorem planned_of_sealed (hq : q ∈ Definition.parts d) : ∃ p, Planned g q p := by
  induction q using Definition.induct with
  | step q ih =>
    obtain ⟨f, made⟩ := hg.made d hd q hq
    refine exists_planned made fun a ha => ?_
    have hs := hg.settled d hd q hq a ha
    have held {r : Reference} (hr : r ∈ a.direct) : r ∈ references d :=
      mem_references.2 ⟨q, hq, a, ha, hr⟩
    cases a with
    | literal v => exact ⟨_, by rw [bind]⟩
    | reference r =>
      rw [bind]
      exact ⟨_, bindReference_eq hg hd (held (List.mem_singleton.2 rfl))⟩
    | collection tag members =>
      have items : List.Forall₂ (fun r i => g.bindReference q.id r = .ok i) members
          (members.map g.bound) := by
        rw [List.forall₂_map_right_iff]
        exact List.forall₂_same.2 fun r hr => bindReference_eq hg hd (held hr)
      exact ⟨_, bind_collection.2 ⟨_, items, rfl⟩⟩
    | inlined m recipe =>
      obtain ⟨plan, h⟩ := ih m recipe ha (parts_trans hq (parts_of_inlined ha))
      exact ⟨_, bind_inlined.2 ⟨plan, h, rfl⟩⟩
    | _ => cases hs

/-- What a plan refers to is what the references of its recipe are bound to. -/
theorem reads_plan {read : Binding → List String} (reads : Binding.Reads read)
    (hq : q ∈ Definition.parts d) (h : Planned g q p) :
    p.allBindings.flatMap read = (references q).flatMap fun r => read (g.bound r) := by
  induction q using Definition.induct generalizing p with
  | step q ih =>
    rw [references_eq, List.flatMap_assoc]
    refine (forall₂_flatMap_eq (forall₂_imp_mem h.allBindings fun a ha b hab => ?_)).symm
    have hs := hg.settled d hd q hq a ha
    have held {r : Reference} (hr : r ∈ a.direct) : r ∈ references d :=
      mem_references.2 ⟨q, hq, a, ha, hr⟩
    cases a with
    | literal v =>
      obtain rfl : Binding.value v = b := by simpa [bind] using hab
      rw [reads.value]
      rfl
    | reference r =>
      rw [bind, bindReference_eq hg hd (held (List.mem_singleton.2 rfl))] at hab
      obtain rfl := Except.ok.inj hab
      simp [Argument.references]
    | collection tag members =>
      obtain ⟨items, hi, rfl⟩ := bind_collection.1 hab
      rw [reads.collection]
      refine forall₂_flatMap_eq (forall₂_imp_mem hi fun r hr i hri => ?_)
      rw [bindReference_eq hg hd (held hr)] at hri
      rw [Except.ok.inj hri]
    | inlined m recipe =>
      obtain ⟨plan, h, rfl⟩ := bind_inlined.1 hab
      rw [reads.inline, references_inlined]
      exact (ih m recipe ha (parts_trans hq (parts_of_inlined ha)) h).symm
    | _ => cases hs

end Sealed

end Graph

end Wiring
