import Wiring.Proofs.Autowire.Filling

/-!
# Autowiring where less is offered

What keeps its default because nothing provides what it asks for keeps it where even less is
provided. So a definition that is filled stays filled when others are taken away.
-/

namespace Wiring

open Graph

namespace CapabilityIndex

variable {g g' : Graph} {index index' : CapabilityIndex} {id : String}

/-- The definitions have all that decides what they offer in common. -/
structure SameOffer (d d' : Definition) : Prop where
  id_eq : d'.id = d.id
  isAbstract_eq : d'.isAbstract = d.isAbstract
  factory_eq : d'.factory = d.factory
  capabilities_eq : d'.capabilities = d.capabilities

theorem SameOffer.trans {d d' d'' : Definition} (h : SameOffer d d') (h' : SameOffer d' d'') :
    SameOffer d d'' where
  id_eq := h'.id_eq.trans h.id_eq
  isAbstract_eq := h'.isAbstract_eq.trans h.isAbstract_eq
  factory_eq := h'.factory_eq.trans h.factory_eq
  capabilities_eq := h'.capabilities_eq.trans h.capabilities_eq

theorem SameOffer.offers_eq {d d' : Definition} (h : SameOffer d d') : offers d' = offers d := by
  unfold offers Recipe.providedCapabilities Recipe.offeredCapabilities
  rw [h.id_eq, h.factory_eq, h.capabilities_eq]

/-- Every definition of `g'` offers what one of `g` offers. -/
def Narrowed (g g' : Graph) : Prop :=
  ∀ d' ∈ g'.definitions, ∃ d ∈ g.definitions, SameOffer d d'

theorem Narrowed.trans {g'' : Graph} (h : Narrowed g g') (h' : Narrowed g' g'') :
    Narrowed g g'' := by
  intro d'' hd''
  obtain ⟨d', hd', hs'⟩ := h' d'' hd''
  obtain ⟨d, hd, hs⟩ := h d' hd'
  exact ⟨d, hd, hs.trans hs'⟩

theorem mem_providing (h : ofGraph g = .ok index) {e : Value × String} :
    e ∈ index.providing ↔
      ∃ d ∈ g.definitions, d.isAbstract = false ∧ ∃ es, offers d = .ok es ∧ e ∈ es := by
  obtain ⟨found, hf, h⟩ := bind_eq_ok.1 h
  obtain rfl := pure_eq_ok.1 h
  have hf := mapM_eq_ok.1 hf
  rw [List.mem_flatten]
  constructor
  · rintro ⟨es, hes, he⟩
    obtain ⟨d, hd, ho⟩ := forall₂_mem_right hf hes
    obtain ⟨hd, concrete⟩ := List.mem_filter.1 hd
    exact ⟨d, hd, by simpa using concrete, es, ho, he⟩
  · rintro ⟨d, hd, concrete, es, ho, he⟩
    obtain ⟨es', hes', ho'⟩ := forall₂_mem_left hf (List.mem_filter.2 ⟨hd, by simpa using concrete⟩)
    exact ⟨es', hes', Except.ok.inj (ho.symm.trans ho') ▸ he⟩

/-- Where less is offered, fewer services provide a capability. -/
theorem providers_narrowed (hg : ofGraph g = .ok index) (hg' : ofGraph g' = .ok index')
    (h : Narrowed g g') {capability : Value} (hid : id ∈ index'.providers capability) :
    id ∈ index.providers capability := by
  unfold providers under Failure.sortTexts at *
  simp only [List.mem_mergeSort, List.mem_map, List.mem_filter] at hid ⊢
  obtain ⟨e, ⟨he, same⟩, rfl⟩ := hid
  obtain ⟨d', hd', concrete, es, ho, hes⟩ := (mem_providing hg').1 he
  obtain ⟨d, hd, hs⟩ := h d' hd'
  exact ⟨e, ⟨(mem_providing hg).2 ⟨d, hd, hs.isAbstract_eq ▸ concrete, es,
    hs.offers_eq ▸ ho, hes⟩, same⟩, rfl⟩

/-- An index can be made if and only if the capabilities of all but templates can be keys. -/
theorem ofGraph_succeeds : (∃ index, ofGraph g = .ok index) ↔
    ∀ d ∈ g.definitions, d.isAbstract = false → ∃ vs, d.providedCapabilities = .ok vs := by
  have each {d : Definition} :
      (∃ es, offers d = .ok es) ↔ ∃ vs, d.providedCapabilities = .ok vs := by
    simp only [offers, bind_eq_ok, pure_eq_ok]
    constructor
    · rintro ⟨_, vs, h, -⟩
      exact ⟨vs, h⟩
    · rintro ⟨vs, h⟩
      exact ⟨_, vs, h, rfl⟩
  have found : (∃ index, ofGraph g = .ok index) ↔
      ∃ es, (g.definitions.filter fun d => !d.isAbstract).mapM offers = .ok es := by
    simp only [ofGraph, bind_eq_ok, pure_eq_ok]
    constructor
    · rintro ⟨_, es, h, -⟩
      exact ⟨es, h⟩
    · rintro ⟨es, h⟩
      exact ⟨_, es, h, rfl⟩
  rw [found, mapM_succeeds]
  simp [each]

end CapabilityIndex

namespace Autowire

open CapabilityIndex

variable {g g' : Graph} {index index' : CapabilityIndex} {d d' : Definition}

theorem chooseAmong_absent {service : String} {r : Request} {capability : Value}
    {candidates : List String} :
    chooseAmong g index service r capability candidates = .ok .absent ↔
      r.mayBeAbsent = true ∧ candidates = [] := by
  unfold chooseAmong
  rcases candidates with _ | ⟨id, _ | ⟨other, rest⟩⟩
  · cases r.mayBeAbsent <;> simp
  · simp
  · dsimp only
    split <;> simp

/-- When a request stays without a service: the named one is not there, or none provides what is
asked for. -/
theorem choose_absent {service : String} {r : Request} :
    choose g index service r = .ok .absent ↔ r.mayBeAbsent = true ∧
      ((∃ name target, r.name = some name ∧ g.resolveAlias name = .ok target ∧
          g.has target = false) ∨
        (r.name = none ∧ ∃ capability, r.capability = some capability ∧
          ∀ id ∈ index.providers capability, id = service)) := by
  unfold choose
  cases hn : r.name with
  | some name =>
    simp only [bind_eq_ok, Option.some.injEq, reduceCtorEq, false_and, or_false]
    constructor
    · rintro ⟨target, ht, h⟩
      split at h
      · cases pure_eq_ok.1 h
      next absent =>
        split at h
        next may => exact ⟨may, name, target, rfl, ht, by simpa using absent⟩
        next => cases h
    · rintro ⟨may, _, target, rfl, ht, absent⟩
      refine ⟨target, ht, ?_⟩
      rw [if_neg (by simp [absent]), if_pos may]
      rfl
  | none =>
    cases hc : r.capability with
    | none => simp
    | some capability =>
      simp only [chooseAmong_absent, List.filter_eq_nil_iff, bne_iff_ne, ne_eq, not_not, reduceCtorEq,
        false_and, exists_const, false_or, true_and, Option.some.injEq, exists_eq_left']

/-- Where less is offered and what was missing still is, a request stays without a service. -/
theorem choose_narrowed (hg : ofGraph g = .ok index) (hg' : ofGraph g' = .ok index')
    (narrowed : Narrowed g g')
    (missing : ∀ name target, g.resolveAlias name = .ok target → g.has target = false →
      ∃ target, g'.resolveAlias name = .ok target ∧ g'.has target = false)
    {service : String} {r : Request} (h : choose g index service r = .ok .absent) :
    choose g' index' service r = .ok .absent := by
  rw [choose_absent] at h ⊢
  refine h.imp_right fun h => ?_
  rcases h with ⟨name, target, hn, ht, absent⟩ | ⟨hn, capability, hc, none⟩
  · obtain ⟨target, ht, absent⟩ := missing name target ht absent
    exact .inl ⟨name, target, hn, ht, absent⟩
  · exact .inr ⟨hn, capability, hc, fun id hid => none id (providers_narrowed hg hg' narrowed hid)⟩

/-- A filled definition stays filled where less is offered, whatever becomes of its arguments. -/
theorem Filled.narrowed (hg : ofGraph g = .ok index) (hg' : ofGraph g' = .ok index')
    (narrowed : Narrowed g g')
    (missing : ∀ name target, g.resolveAlias name = .ok target → g.has target = false →
      ∃ target, g'.resolveAlias name = .ok target ∧ g'.has target = false)
    {R : Argument → Argument → Prop} (h : Filled g index d) (revised : Recipe.Revised R d d')
    (slots : ∀ a ∈ d'.allArguments, a.isSlot = false) : Filled g' index' d' := by
  refine ⟨slots, fun auto => ?_⟩
  obtain ⟨parameters, hints, hp, hh, seen⟩ := h.parameters (revised.autowired_eq ▸ auto)
  have inspect : Definition.inspect d' = Definition.inspect d := by
    rw [revised.frame]
    rfl
  have annotations : hintsFor d' = hintsFor d := by
    rw [revised.frame]
    rfl
  refine ⟨parameters, hints, inspect.trans hp, by rw [annotations, hh], fun e he => ?_⟩
  refine (seen e he).imp (fun given => given.mono revised.length_eq fun name hn => ?_)
    fun ⟨kind, hdef, absent⟩ => ⟨kind, hdef, fun hint hh => ?_⟩
  · rw [Table.has_iff, Table.names] at hn ⊢
    rwa [revised.names_eq]
  · rw [revised.id_eq]
    exact choose_narrowed hg hg' narrowed missing (absent hint hh)

end Autowire

end Wiring
