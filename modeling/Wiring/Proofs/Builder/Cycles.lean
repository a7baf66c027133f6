import Wiring.Proofs.Builder.Sharing
import Wiring.Proofs.Container.Stack

/-!
# Cycles at run time

The arcs of a validated graph that lie on cycles are lazy. So nothing is found within its own
construction unless a factory asks for it, and what is found so closes a cycle of lazy references
between the compiled definitions.
-/

namespace Wiring

open Graph Container Definition Argument

namespace Graph

variable {g p f : Graph} {c : Container} {lockMode : LockMode} {privateIds : List String}
  {d q e : Definition} {plan : ServicePlan} {a b : String} {rules : List TagRule}

/-! ## Plans follow the arcs -/

/-- What a reference of a part is bound to. -/
theorem Embedding.wired_bound (h : Embedding p f) (hs : p.Sealed)
    (frozen : Frozen f lockMode privateIds c) (he : p.find? a = some e) {r : Reference}
    (hr : r ∈ references e) : Wired c p.Arc a (f.bound r) := by
  unfold bound
  cases hd : f.find? r.id with
  | none => exact .value
  | some d =>
    obtain ⟨hmem, ids⟩ := mem_of_find? hd
    obtain ⟨e', he', hR⟩ := h.exists_origin (mem_parts_of_definition hmem) hs.unique
    have arc : p.Arc (r.lazy || d.isLazy) a r.id :=
      hs.arc_iff.2 ⟨e, e', he, ids ▸ he', r, hr, rfl, by rw [hR.isLazy_eq]⟩
    dsimp only
    split
    next lazily => exact .deferred (lazily ▸ arc)
    next eager =>
      rw [Bool.eq_false_iff.2 eager] at arc
      exact .service arc ((PlansOf.exists_plan frozen.plans hd).imp fun _ h => h.1)

/-- What the arguments of a part are bound to. -/
theorem Embedding.wired (h : Embedding p f) (hs : p.Sealed) (flat : p.Flat)
    (frozen : Frozen f lockMode privateIds c) (hd : d ∈ f.definitions)
    (hq : q ∈ Definition.parts d) (planned : Planned f q plan) (held : c.Holds plan) :
    ∀ b ∈ plan.allBindings, Wired c p.Arc plan.id b := by
  have hf := h.toSealed hs flat
  induction q using Definition.induct generalizing plan with
  | step q ih =>
    intro b hb
    obtain ⟨a, ha, hab⟩ := forall₂_mem_right planned.allBindings hb
    obtain ⟨e, he, hR⟩ := h.exists_origin (mem_parts_of hd hq) hs.unique
    have settled := hf.settled d hd q hq a ha
    rw [planned.id_eq]
    -- what a reference in the argument is bound to
    have bound {r : Reference} (hr : r ∈ a.direct) :
        f.bindReference q.id r = .ok (f.bound r) ∧ Wired c p.Arc q.id (f.bound r) :=
      ⟨bindReference_eq hf hd (mem_references.2 ⟨q, hq, a, ha, hr⟩),
        h.wired_bound hs frozen he (mem_direct_origin hR ha hr)⟩
    cases a with
    | literal v =>
      obtain rfl : Binding.value v = b := by simpa [bind] using hab
      exact .value
    | reference r =>
      obtain ⟨bind_eq, wired⟩ := bound (List.mem_singleton.2 rfl)
      rw [bind, bind_eq] at hab
      exact Except.ok.inj hab ▸ wired
    | collection tag members =>
      obtain ⟨items, hi, rfl⟩ := bind_collection.1 hab
      refine .collection fun i hi' => ?_
      obtain ⟨r, hr, hri⟩ := forall₂_mem_right hi hi'
      obtain ⟨bind_eq, wired⟩ := bound hr
      exact Except.ok.inj (bind_eq.symm.trans hri) ▸ wired
    | inlined m recipe =>
      obtain ⟨inner, planned', rfl⟩ := bind_inlined.1 hab
      have held := Holds.inner held hb
      have arc := h.arc_inlined hs flat (mem_parts_of hd hq) ha
      refine .inline (planned'.id_eq ▸ arc) held ?_
      exact ih m recipe ha (parts_trans hq (parts_of_inlined ha)) planned' held
    | _ => cases settled

/-- An eager arc between hosts is a path of eager arcs. -/
theorem Embedding.eager (h : Embedding p f) (hs : p.Sealed) (flat : p.Flat)
    (arc : f.Arc false a b) : Relation.TransGen (p.Arc false) a b := by
  obtain ⟨x, path, last⟩ := h.arc hs flat arc
  exact Relation.TransGen.tail' path last

theorem Embedding.eager_path (h : Embedding p f) (hs : p.Sealed) (flat : p.Flat)
    (frozen : Frozen f lockMode privateIds c)
    (path : Walk.Reaches (ServicePlan.dependenciesOf c.plans) a b) :
    Relation.ReflTransGen (p.Arc false) a b := by
  induction path with
  | refl => exact .refl
  | tail _ step ih =>
    have arc := (PlansOf.mem_dependenciesOf frozen.plans).1 step
    exact ih.trans (h.eager hs flat arc).to_reflTransGen

/-- The plans of a container follow the arcs of the graph before services were embedded. -/
theorem Embedding.laid (h : Embedding p f) (hs : p.Sealed) (flat : p.Flat)
    (frozen : Frozen f lockMode privateIds c) : c.Laid p.Arc where
  wired id plan hp := by
    obtain ⟨d, hd, planned⟩ := PlansOf.exists_definition frozen.plans hp
    exact h.wired hs flat frozen (mem_of_find? hd).1 (self_mem_parts d) planned (.plan hp)
  order id plan hp x hx := by
    obtain ⟨-, t, ht, path⟩ := frozen.mem_before hp hx
    have arc := (PlansOf.mem_dependenciesOf frozen.plans).1 ht
    have first := h.eager hs flat arc
    exact first.trans_left (h.eager_path hs flat frozen path)

/-! ## Room -/

/-- There are as many plans as there were services before some were embedded. -/
theorem Embedding.planCount_eq (h : Embedding p f) (hf : f.Sealed)
    (frozen : Frozen f lockMode privateIds c) : c.planCount = p.ids.length := by
  have sizes : c.plans.map ServicePlan.size =
      f.definitions.map fun d => (Definition.parts d).length := by
    refine (forall₂_map_eq.1 (forall₂_imp_mem frozen.plans fun d hd plan planned => ?_)).symm
    rw [ServicePlan.size_eq, planned.made_eq hf hd (self_mem_parts d), List.length_map]
  have count : c.planCount = (c.plans.map ServicePlan.size).sum := by
    rw [planCount, List.sum_eq_foldl, List.foldl_map]
  calc c.planCount
    _ = f.parts.length := by rw [count, sizes, Graph.parts, List.length_flatMap]
    _ = (f.parts.map (·.id)).length := (List.length_map _).symm
    _ = p.ids.length := ((parts_ids_perm f).trans h.placed).length_eq

/-! ## Cycles -/

/-- Where one service leads to another and back, there is nothing but a lazy arc from the one to the
other. -/
theorem Sealed.arc_of_link (hs : p.Sealed) (link : Link p.Arc a b)
    (back : Relation.ReflTransGen p.Depends b a) : p.Arc true a b := by
  obtain ⟨x, ⟨isLazy, arc⟩, path⟩ := link
  have down := depends_of_eager path
  cases isLazy with
  | false => exact absurd (down.trans back) (hs.cycles a x arc)
  | true =>
    rcases Relation.ReflTransGen.cases_head path with rfl | ⟨y, eager, rest⟩
    · exact arc
    · have home := (depends_of_eager rest).trans (back.tail ⟨true, arc⟩)
      exact absurd home (hs.cycles x y eager)

/-- A closed chain of links is a cycle of lazy arcs. -/
theorem Sealed.lazy_of_links (hs : p.Sealed) {between : List String}
    (chain : (a :: between ++ [a]).IsChain (Link p.Arc)) :
    (a :: between ++ [a]).IsChain (p.Arc true) := by
  have leads : (a :: between ++ [a]).Pairwise (Relation.ReflTransGen p.Depends) := by
    refine List.isChain_iff_pairwise.1 (chain.imp fun x y => ?_)
    rintro ⟨z, arc, path⟩
    exact .head arc (depends_of_eager path)
  refine List.isChain_iff_forall_rel_of_append_cons_cons.2 fun {x y front rest} split => ?_
  have link := List.isChain_iff_forall_rel_of_append_cons_cons.1 chain split
  -- from the one on to the end, and from the start to the other
  have onward : Relation.ReflTransGen p.Depends y a := by
    have last : (y :: rest).getLast? = some a := by
      have := congrArg List.getLast? split
      rw [List.getLast?_concat, List.getLast?_append_of_ne_nil _ (List.cons_ne_nil _ _)] at this
      exact this.symm
    rcases List.mem_cons.1 (List.mem_of_getLast? last) with rfl | later
    · exact .refl
    · rw [split] at leads
      have tail := (List.pairwise_cons.1 (List.pairwise_append.1 leads).2.1).2
      exact List.rel_of_pairwise_cons tail later
  have homeward : Relation.ReflTransGen p.Depends a x := by
    cases front with
    | nil => exact (List.cons.inj split).1 ▸ .refl
    | cons z front =>
      have others : between ++ [a] = front ++ x :: y :: rest := (List.cons.inj split).2
      refine List.rel_of_pairwise_cons leads ?_
      show x ∈ between ++ [a]
      rw [others]
      exact List.mem_append_right _ List.mem_cons_self
  exact hs.arc_of_link link (onward.trans homeward)

/-- A lazy arc is left where services are embedded. -/
theorem Embedding.arc_lazy (h : Embedding p f) (hs : p.Sealed) (flat : p.Flat)
    (arc : p.Arc true a b) : b ∈ f.ids ∧ (a ∈ f.ids → f.Arc true a b) := by
  obtain ⟨e, e', he, he', r, hr, rfl, lazily⟩ := hs.arc_iff.1 arc
  have target : r.id ∈ p.ids := mem_ids.2 ⟨e', mem_of_find? he'⟩
  obtain ⟨q, hq, rfl⟩ := h.mem_parts_ids.2 (mem_ids.2 ⟨e, mem_of_find? he⟩)
  obtain ⟨e₁, he₁, hR⟩ := h.exists_origin hq hs.unique
  obtain rfl := Option.some.inj (he.symm.trans he₁)
  obtain ⟨host, hhost, part⟩ := mem_parts.1 hq
  -- the reference is there still: nothing that is referred to lazily is embedded
  have kept : r ∈ references q := by
    refine (Embedding.mem_references_or (flat e (mem_of_find? he).1) hR hr).resolve_right ?_
    rintro ⟨eager, m, recipe, hi, same⟩
    have gone := h.inlined_gone hs.unique hq hi
    rw [same, ← (mem_of_find? he').2] at gone
    have := (h.hidden e' (mem_of_find? he').1 gone).2.1
    rw [eager, this] at lazily
    cases lazily
  have there : r.id ∈ f.ids := h.named host hhost r (references_of_part part kept) target
  refine ⟨there, fun here => ?_⟩
  have hf := h.toSealed hs flat
  obtain ⟨d, hd⟩ := exists_find? here
  obtain ⟨d', hd'⟩ := exists_find? there
  obtain ⟨hmem, ids⟩ := mem_of_find? hd
  obtain ⟨hmem', ids'⟩ := mem_of_find? hd'
  obtain rfl := h.part_eq hs.unique (mem_parts_of_definition hmem) hq ids
  obtain ⟨e₂, he₂, hR'⟩ := h.exists_origin (mem_parts_of_definition hmem') hs.unique
  rw [ids'] at he₂
  obtain rfl := Option.some.inj (he'.symm.trans he₂)
  exact hf.arc_iff.2 ⟨d, d', hd, hd', r, kept, rfl, by rw [hR'.isLazy_eq, lazily]⟩

/-- A closed chain of links between the services of a container is a cycle of lazy arcs between its
definitions. -/
theorem Embedding.looped (h : Embedding p f) (hs : p.Sealed) (flat : p.Flat) {e : Failure}
    (looped : Looped (Link p.Arc) e) : Looped (f.Arc true) e := by
  intro cycle context same
  obtain ⟨a, between, rfl, chain⟩ := looped cycle context same
  refine ⟨a, between, rfl, ?_⟩
  have lazily := List.isChain_cons_append_singleton_iff_forall₂.1 (hs.lazy_of_links chain)
  rw [List.isChain_cons_append_singleton_iff_forall₂]
  refine forall₂_imp_mem lazily fun x hx y arc => (h.arc_lazy hs flat arc).2 ?_
  have later : x ∈ between ++ [a] := by simpa [or_comm] using hx
  obtain ⟨z, -, arc⟩ := forall₂_mem_right lazily later
  exact (h.arc_lazy hs flat arc).1

/-- If factories ask for nothing, a request that is accepted fails only with one of them. If they
ask for nothing but what they are given handles of, and make no circular failures of their own, then
a circular failure tells of a cycle of lazy references between the compiled definitions. -/
theorem compile_cycles {σ : Type} (registered : g.Registered) (sound : TagIndex.Sound rules)
    (h : g.compile rules lockMode = .ok c) {app : Application σ} {self : Nat}
    {after : Except Failure Value → σ → σ → Prop} {s : σ} {m m' : Machine σ}
    (served : c.Serves app self after { state := s } m) {id : String} {e : Failure}
    (failed : Ends (c.get app self id) m (.error e) m') :
    (app.Silent → id ∈ c.serviceIds → app.Fails e) ∧
      (c.Honest app self → Looped (c.graph.Arc true) e) := by
  obtain ⟨p, f, compiled, -, frozen⟩ := compiled_of_compile registered sound h
  have hs := compiled.isSealed
  have hf := compiled.embedding.toSealed hs compiled.flat
  have laid := compiled.embedding.laid hs compiled.flat frozen
  have graph : c.graph = f.freshened := Except.ok.inj (frozen.graph.symm.trans hf.copy_eq)
  have idle : m.stack = [] := served.stack_eq
  refine ⟨fun silent accepted => ?_, fun ⟨good, honest⟩ => ?_⟩
  · obtain ⟨rank, bound, falling⟩ := exists_ranks hs
    obtain ⟨target, plan, hp, -, same⟩ := (frozen.accepts accepted).fetched
    rw [same] at failed
    have room : rank target < c.planCount + 1 := by
      obtain ⟨d, hd, -⟩ := PlansOf.exists_definition frozen.plans hp
      have there : target ∈ p.ids :=
        compiled.embedding.ids_subset (mem_ids.2 ⟨d, mem_of_find? hd⟩)
      rw [compiled.embedding.planCount_eq hf frozen]
      exact Nat.lt_succ_of_lt (bound target there)
    have free : ∀ x ∈ m.stack, rank target < rank x := by
      rw [idle]
      exact fun _ hx => nomatch hx
    exact (ran_deferredGet failed).fails laid falling silent
      ⟨⟨free, Nat.le_of_lt room⟩, room, plan, hp⟩ rfl
  · have embedding : Embedding p c.graph := graph ▸ compiled.embedding.freshened compiled.flat
    have fair : ∀ e, ¬ Circular e → Looped (Link p.Arc) e := fun _ => looped_of_not_circular
    have honest := fun plan held vs fits s => honest plan held vs fits s _ fair
    have products := served.products laid honest
    refine embedding.looped hs compiled.flat ?_
    rcases ran_get failed with ⟨x, refused, same, -⟩ | ⟨target, -, ran⟩
    · obtain rfl := Except.error.inj same
      exact looped_of_not_circular (not_circular_of_refused refused)
    · exact (ran.closes laid honest (follows_resolve idle) products).1

end Graph

/-! ## Three services with handles of one another -/

/-- Three services, each with a handle of the next. -/
def Graph.ring : Graph where
  definitions := [
    { id := "x", factory := some (.simple "X"), arguments := [.reference ⟨"k", false, true⟩] },
    { id := "k", factory := some (.simple "K"), arguments := [.reference ⟨"z", false, true⟩] },
    { id := "z", factory := some (.simple "Z"), arguments := [.reference ⟨"x", false, true⟩] }]

theorem Graph.ring_registered : ring.Registered where
  unique := by decide
  uniqueAliases := by decide
  apart := by decide
  labels := by simp [ring]
  alone := rfl
  declared := by simp [Holds, ring, Recipe.allArguments, Argument.isDeclared]

/-- Asks for what a value is a handle of. -/
def Call.following (v : Value) (resume : Except Failure Value → Unit → Call Unit) : Call Unit :=
  match v with
  | .deferred _ id => .demand id () resume
  | v => resume (.ok v) ()

/-- An application whose factories ask for what their first argument is a handle of. -/
def Application.curious : Application Unit where
  call _ arguments _ _ := Call.following (arguments.headD .null) fun q _ =>
    .finish (q.map fun _ => .null) ()
  note _ state := state

/-- What a request to the container of a graph fails with. -/
def Graph.failureOf (g : Graph) (app : Application Unit) (id : String) : Option Failure :=
  match g.compile [] .thread with
  | .ok c => match c.get app 0 id { state := () } with
    | .ok _ _ => none
    | .error e _ => some e
  | .error _ => none

theorem Graph.exists_failed {g : Graph} {app : Application Unit} {id : String} {e : Failure}
    (h : g.failureOf app id = some e) : ∃ c m, g.compile [] .thread = .ok c ∧
      Ends (c.get app 0 id) { state := () } (.error e) m := by
  unfold failureOf at h
  split at h
  next c hc =>
    split at h
    · cases h
    next e' m hm => exact ⟨c, m, hc, Option.some.inj h ▸ hm⟩
  · cases h

/-- Whether all that the plans of a container are bound to are handles. -/
def Container.isLazy (c : Container) : Bool :=
  c.plans.all fun p => p.allBindings.all fun b => b.handle?.isSome

/-- Curious factories use their handles where they are given nothing else. -/
theorem Container.honest_of_lazy {c : Container} (lazily : c.isLazy = true) (self : Nat) :
    c.Honest Application.curious self := by
  have handles : ∀ plan, c.Holds plan → ∀ b ∈ plan.allBindings, ∃ id, b = .deferred id := by
    intro plan held
    induction held with
    | @plan _ plan hp =>
      intro b hb
      have all := List.all_eq_true.1 lazily plan (List.mem_of_find?_eq_some hp)
      have := List.all_eq_true.1 all b hb
      cases b <;> simp_all [Binding.handle?]
    | inner _ hb ih =>
      obtain ⟨id, same⟩ := ih _ hb
      cases same
  refine ⟨fun v => v = .null, fun plan held vs fits s fair _ => ?_⟩
  show Call.Behaves _ _ _ (Call.following ((vs.take plan.arguments.length).headD .null) _)
  cases given : vs.take plan.arguments.length with
  | nil => exact rfl
  | cons v rest =>
    have hv : v ∈ vs := List.mem_of_mem_take (given ▸ List.mem_cons_self)
    obtain ⟨b, hb, fit⟩ := forall₂_mem_right fits hv
    obtain ⟨id, rfl⟩ := handles plan held b hb
    cases fit
    refine ⟨List.mem_flatMap.2 ⟨_, hb, List.mem_singleton.2 rfl⟩, fun q _ _ he => ?_⟩
    cases q with
    | ok => exact rfl
    | error e => exact he e rfl

/-- Where each of three services asks for the next, the first is found within itself, and the cycle
is one of lazy references. -/
theorem Graph.compile_cycles_ring : ∃ c m, ring.compile [] .thread = .ok c ∧
    Ends (c.get .curious 0 "x") { state := () } (.error (circular ["x", "k", "z"] "x")) m ∧
    c.Honest .curious 0 ∧ (Application.curious.Silent → "x" ∈ c.serviceIds →
      Application.curious.Fails (circular ["x", "k", "z"] "x")) ∧
    (c.Honest .curious 0 → Looped (c.graph.Arc true) (circular ["x", "k", "z"] "x")) := by
  have failed : ring.failureOf .curious "x" = some (circular ["x", "k", "z"] "x") := by cbv
  have lazily : ((ring.compile [] .thread).toOption.any fun c => c.isLazy) = true := by cbv
  obtain ⟨c, m, h, failed⟩ := exists_failed failed
  rw [h] at lazily
  have served : c.Serves .curious 0 (fun _ _ _ => True) { state := () } { state := () } := .start
  exact ⟨c, m, h, failed, honest_of_lazy lazily 0,
    compile_cycles ring_registered TagIndex.sound_nil h served failed⟩

/-! ## What can be found within itself besides -/

/-- A service that holds a recipe of its own name. Such a recipe is made by hand. -/
def Graph.nested : Graph where
  definitions := [
    { id := "a", factory := some (.simple "Host")
      arguments := [.inlined 0 { id := "a", factory := some (.simple "Guest") }] }]
  nextMark := 1

/-- An application whose factories pass on what they are given handles of, and where one class is
made by passing on its handle as it is. -/
def Application.relay : Application Unit where
  call factory arguments _ _ :=
    if factory.maker = "K" then .finish (.ok (arguments.headD .null)) ()
    else Call.following (arguments.headD .null) fun q _ => match q with
      | .ok v => Call.following v fun q _ => .finish q ()
      | .error e => .finish (.error e) ()
  note _ state := state

/-- An application whose factories tell of a cycle that there is not. -/
def Application.pretending : Application Unit where
  call _ _ _ _ := .finish (.error (.fault (.circularServices ["x", "y"]) none)) ()
  note _ state := state

/-- Whether the definition of `a` has a reference that stands for `b`. -/
def Graph.refers (g : Graph) (a b : String) : Bool :=
  (g.find? a).any fun d => (references d).any fun r => (g.resolveAlias r.id).toOption == some b

theorem Graph.refers_of_arc {g : Graph} {isLazy : Bool} {a b : String} (h : g.Arc isLazy a b) :
    g.refers a b = true := by
  obtain ⟨d, d', hd, -, r, hr, resolves, -⟩ := h
  rw [refers, hd, Option.any_some, List.any_eq_true]
  exact ⟨r, hr, by rw [resolves]; exact beq_self_eq_true _⟩

/-- With a recipe made by hand a service is found within itself though no factory asks for anything.
And without one, where a handle is passed on a service is followed by one that it does not refer to,
and factories can make up failures. -/
theorem Graph.circular_otherwise :
    (∃ c m, nested.compile [] .thread = .ok c ∧ Application.idle.Silent ∧ "a" ∈ c.serviceIds ∧
      Ends (c.get .idle 0 "a") { state := () } (.error (circular ["a"] "a")) m) ∧
    (∃ c m, ring.compile [] .thread = .ok c ∧
      Ends (c.get .relay 0 "x") { state := () } (.error (circular ["x", "z"] "x")) m ∧
      ¬ ∃ isLazy, c.graph.Arc isLazy "x" "z") ∧
    ∃ c m, ring.compile [] .thread = .ok c ∧ Ends (c.get .pretending 0 "x") { state := () }
      (.error (.fault (.circularServices ["x", "y"]) none)) m := by
  refine ⟨?_, ?_, exists_failed (by cbv)⟩
  · have listed : ((nested.compile [] .thread).toOption.any
        fun c => c.serviceIds.contains "a") = true := by cbv
    have failed : nested.failureOf .idle "a" = some (circular ["a"] "a") := by cbv
    obtain ⟨c, m, h, failed⟩ := exists_failed failed
    rw [h] at listed
    exact ⟨c, m, h, fun _ _ _ _ => trivial, by simpa [Except.toOption] using listed, failed⟩
  · have apart : ((ring.compile [] .thread).toOption.any
        fun c => c.graph.refers "x" "z") = false := by cbv
    have failed : ring.failureOf .relay "x" = some (circular ["x", "z"] "x") := by cbv
    obtain ⟨c, m, h, failed⟩ := exists_failed failed
    rw [h] at apart
    refine ⟨c, m, h, failed, ?_⟩
    rintro ⟨isLazy, arc⟩
    simp [Except.toOption, refers_of_arc arc] at apart

end Wiring
