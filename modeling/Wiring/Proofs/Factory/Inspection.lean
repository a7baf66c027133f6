import Wiring.Autowire.Inspection
import Wiring.Factory.Catalog
import Wiring.Proofs.Factory.Calls

/-!
# What autowiring sees of a constructor

Of the parameters that a call fills, autowiring sees those that take one argument each. Before them
it sees the receiver of a class if that goes by a name of its own, since receivers are known by
name. A call is checked against the parameters that the class takes, among which there is no
receiver. So the two readings of a constructor agree just where its receiver, if there is one, goes
by a known name.
-/

namespace Wiring

open Signature

namespace Factory

variable {f : Factory} {ps : List Parameter}

/-- A factory with a constructor that can be written down. Classes alone have a receiver, and one
without takes no arguments. -/
structure Regular (f : Factory) : Prop where
  legal : Legal (f.receiver.toList ++ f.parameters)
  receiver : ∀ r, f.receiver = some r → f.type.kind = .declared ∧ r.isPositional = true
  bare : f.type.isClass = true → f.receiver = none → f.parameters = []

/-- What autowiring takes for a parameter though no call fills it: a receiver by another name. -/
def strays (f : Factory) : List Parameter :=
  f.receiver.toList.filter fun r => !Definition.receiverNames.contains r.name

theorem callParameters?_sublist (hps : f.callParameters? = some ps) : ps.Sublist f.parameters := by
  unfold callParameters? at hps
  split at hps
  · cases hps
  · split at hps
    · exact Option.some.inj hps ▸ List.nil_sublist _
    · cases hps
  · exact Option.some.inj hps ▸ List.Sublist.refl _

theorem Regular.legal_call (h : f.Regular) (hps : f.callParameters? = some ps) : Legal ps := by
  have sub := (callParameters?_sublist hps).trans (List.sublist_append_right f.receiver.toList _)
  exact ⟨h.legal.ordered.sublist sub, h.legal.unique.sublist (sub.map _)⟩

/-- No name is seen twice. -/
theorem Regular.inspected_unique (h : f.Regular) (hps : f.callParameters? = some ps) :
    ((f.strays ++ ps.filter fun p => !p.collects).map (·.name)).Nodup :=
  h.legal.unique.sublist <| .map _ <| List.filter_sublist.append <|
    List.filter_sublist.trans (callParameters?_sublist hps)

theorem strays_eq_nil (known : ∀ r, f.receiver = some r →
    Definition.receiverNames.contains r.name = true) : f.strays = [] := by
  cases hr : f.receiver with
  | none => simp [strays, hr]
  | some r => simpa [strays, hr] using known r hr

end Factory

namespace Definition

variable {d : Definition} {f : Factory} {ps : List Parameter}

theorem withoutReceiver_cons (r : Parameter) :
    withoutReceiver (r :: ps) = [r].filter (fun r => !receiverNames.contains r.name) ++ ps := by
  rw [withoutReceiver, List.filter_singleton]
  cases receiverNames.contains r.name <;> rfl

/-- A receiver takes one argument, so it is seen unless it goes by a known name. -/
theorem filter_withoutReceiver {r : Parameter} (single : r.isPositional = true) :
    ((withoutReceiver (r :: ps)).filter fun p => !p.collects) =
      ([r].filter fun r => !receiverNames.contains r.name) ++ ps.filter fun p => !p.collects := by
  have kept : ([r].filter fun r => !receiverNames.contains r.name).filter (fun p => !p.collects) =
      [r].filter fun r => !receiverNames.contains r.name := by
    refine List.filter_eq_self.2 fun p hp => ?_
    obtain rfl := List.mem_singleton.1 (List.mem_of_mem_filter hp)
    simp [collects_of_positional single]
  rw [withoutReceiver_cons, List.filter_append, kept]

/-- Autowiring sees strays, then the parameters of a call that take one argument each. -/
theorem inspect_eq (hf : d.factory = some f) (regular : f.Regular)
    (hps : f.callParameters? = some ps) :
    inspect d = .ok (f.strays ++ ps.filter fun p => !p.collects) := by
  obtain ⟨⟨name, kind⟩, lineage, maker, receiver, parameters, hints⟩ := f
  unfold inspect Factory.declaredParameters? Factory.strays
  rw [hf]
  cases receiver with
  | none =>
    cases kind with
    | builtin =>
      simp only [Factory.callParameters?] at hps
      split at hps
      · cases hps
        rfl
      · cases hps
    | declared =>
      obtain rfl : parameters = [] := regular.bare rfl rfl
      cases hps
      rfl
    | function | bare =>
      cases hps
      rfl
    | «sealed» => cases hps
  | some r =>
    obtain ⟨rfl, single⟩ : kind = .declared ∧ r.isPositional = true := regular.receiver r rfl
    cases hps
    show Except.ok ((withoutReceiver (r :: parameters)).filter fun p => !p.collects) = _
    rw [filter_withoutReceiver single]
    rfl

end Definition

/-! ## Declared constructors -/

/-- A declaration as it can be written down. -/
structure TypeDeclaration.Legal (t : TypeDeclaration) : Prop where
  kind : t.kind ≠ .builtin
  parameters : Signature.Legal ((t.parameters.getD []).map (·.parameter))
  receiver : t.receiver ∉ ((t.parameters.getD []).map (·.parameter)).map (·.name)

namespace Catalog

variable {catalog : Catalog} {f : Factory} {t : TypeDeclaration} {known : String → Option TypeRef}

/-- The receiver of a declared constructor can stand before the other parameters. -/
theorem legal_receiverOf (legal : t.Legal) :
    Legal (receiverOf t :: (t.parameters.getD []).map (·.parameter)) where
  ordered := by
    refine List.pairwise_cons.2 ⟨fun p hp => ?_, legal.parameters.ordered⟩
    unfold receiverOf
    cases hps : t.parameters.getD [] with
    | nil => simp [hps] at hp
    | cons q qs =>
      have first : q.parameter.kind.rank ≤ p.kind.rank := by
        rw [hps, List.map_cons] at hp
        rcases List.mem_cons.1 hp with rfl | hp
        · exact Nat.le_refl _
        · have ordered := legal.parameters.ordered
          rw [hps, List.map_cons] at ordered
          exact (List.pairwise_cons.1 ordered).1 p hp
      dsimp only
      split
      · exact Nat.zero_le _
      next later =>
        refine Nat.le_trans ?_ first
        cases hq : q.parameter.kind <;> simp_all [ParameterKind.rank]
  unique := List.nodup_cons.2 ⟨legal.receiver, legal.parameters.unique⟩

theorem isPositional_receiverOf : (receiverOf t).isPositional = true := by
  refine isPositional_iff.2 ?_
  unfold receiverOf
  dsimp only
  split
  · split <;> simp
  · simp

/-- A class that declares nothing takes nothing. -/
theorem builtinFactory_regular (b : TypeRef) : (builtinFactory b).Regular where
  legal := ⟨.nil, .nil⟩
  receiver r hr := by cases hr
  bare _ _ := rfl

theorem find?_regular (all : ∀ f ∈ catalog.factories, f.Regular) {name : String}
    (h : catalog.find? name = some f) : f.Regular := by
  rcases Option.or_eq_some_iff.1 h with h | ⟨-, h⟩
  · exact all f (List.mem_reverse.1 (List.mem_of_find?_eq_some h))
  · obtain ⟨b, -, rfl⟩ := Option.map_eq_some_iff.1 h
    exact builtinFactory_regular b

theorem factoryOf_regular (all : ∀ f ∈ catalog.factories, f.Regular) (legal : t.Legal) :
    (factoryOf known catalog t).Regular := by
  have own (lineage : List TypeRef) (declared : t.kind = .declared) :
      Factory.Regular ⟨⟨t.name, t.kind⟩, lineage, t.name, some (receiverOf t),
        (t.parameters.getD []).map (·.parameter), hintsOf known t⟩ :=
    ⟨legal_receiverOf legal, fun r hr => ⟨declared, Option.some.inj hr ▸ isPositional_receiverOf⟩,
      fun _ none => by cases none⟩
  unfold factoryOf
  dsimp only
  split
  next declared =>
    split
    next f _ inherited =>
      obtain ⟨b, -, found⟩ := List.exists_of_findSome?_eq_some inherited
      obtain ⟨hf, made⟩ := Option.filter_eq_some_iff.1 found
      have regular := find?_regular all hf
      obtain ⟨kind, -⟩ : f.type.kind = .declared ∧ f.maker = b.name := by simpa using made
      exact ⟨regular.legal, fun r hr => ⟨declared, (regular.receiver r hr).2⟩,
        fun _ none => regular.bare (by simp [TypeRef.isClass, kind]) none⟩
    next =>
      split
      · exact own _ declared
      · exact ⟨⟨.nil, .nil⟩, fun r hr => absurd hr (by simp [builtinFactory]), fun _ _ => rfl⟩
    next => exact own _ declared
  next callable =>
    refine ⟨legal.parameters, fun r hr => absurd hr (by simp), fun isClass => ?_⟩
    have kind : t.kind ≠ .builtin := legal.kind
    simp_all [TypeRef.isClass]

/-- Each factory of a catalog has a constructor that can be written down if each declaration can. -/
theorem ofDeclarations_regular {declarations : List TypeDeclaration}
    (legal : ∀ t ∈ declarations, t.Legal) :
    ∀ f ∈ (ofDeclarations declarations).factories, f.Regular := by
  unfold ofDeclarations
  dsimp only
  generalize (fun name => _ : String → Option TypeRef) = known
  refine List.foldlRecOn (motive := fun c : Catalog => ∀ f ∈ c.factories, f.Regular) declarations _
    (fun f hf => absurd hf List.not_mem_nil) fun catalog all t ht f hf => ?_
  rcases List.mem_append.1 hf with hf | hf
  · exact all f hf
  · exact List.mem_singleton.1 hf ▸ factoryOf_regular all (legal t ht)

end Catalog

/-! ## Two readings of a constructor -/

namespace Factory

variable {f : Factory} {ps : List Parameter}

/-- A class whose constructor can be read. It has a receiver, which takes the new object by
position, or it takes the object with all else that is given by position, or it takes nothing. -/
structure Constructs (f : Factory) : Prop where
  isClass : f.type.isClass = true
  declared : ∀ r, f.receiver = some r → f.type.kind = .declared
  single : ∀ r, f.receiver = some r → r.isPositional = true
  apart : ∀ r, f.receiver = some r → r.name ∉ f.parameters.map (·.name)
  gathers : f.receiver = none → ∀ p, f.parameters.head? = some p → p.kind = .rest

theorem Regular.constructs (h : f.Regular) (isClass : f.type.isClass = true) : f.Constructs where
  isClass := isClass
  declared r hr := (h.receiver r hr).1
  single r hr := (h.receiver r hr).2
  apart r hr := by
    have unique := h.legal.unique
    rw [hr, Option.toList_some, List.singleton_append, List.map_cons, List.nodup_cons] at unique
    exact unique.1
  gathers none p hp := by
    rw [h.bare isClass none] at hp
    cases hp

/-- The constructors of all classes in a catalog can be read, inherited ones among them. -/
theorem constructs_of_declared {declarations : List TypeDeclaration} {name : String}
    (legal : ∀ t ∈ declarations, t.Legal)
    (found : (Catalog.ofDeclarations declarations).find? name = some f)
    (isClass : f.type.isClass = true) : f.Constructs :=
  (Catalog.find?_regular (Catalog.ofDeclarations_regular legal) found).constructs isClass

theorem mem_strays {r : Parameter} : r ∈ f.strays ↔
    f.receiver = some r ∧ Definition.receiverNames.contains r.name = false := by
  unfold strays
  rw [List.mem_filter, Option.mem_toList, Bool.not_eq_true']

end Factory

namespace Definition

variable {d : Definition} {f : Factory} {ps : List Parameter}

/-- A first parameter that takes all that is given by position is no receiver, whatever its name. -/
theorem withoutReceiver_rest (first : ∀ p, ps.head? = some p → p.kind = .rest) :
    ((withoutReceiver ps).filter fun p => !p.collects) = ps.filter fun p => !p.collects := by
  cases ps with
  | nil => rfl
  | cons p ps =>
    have collects : p.collects = true := by simp [Parameter.collects, first p rfl]
    rw [withoutReceiver]
    split
    · rw [List.filter_cons_of_neg (by simp [collects])]
    · rfl

/-- Of a class, autowiring sees a receiver by a name of its own, then the parameters of a call that
take one argument each. -/
theorem inspect_of_constructs (hf : d.factory = some f) (h : f.Constructs)
    (hps : f.callParameters? = some ps) :
    inspect d = .ok (f.strays ++ ps.filter fun p => !p.collects) := by
  obtain ⟨⟨name, kind⟩, lineage, maker, receiver, parameters, hints⟩ := f
  obtain ⟨isClass, declared, single, -, gathers⟩ := h
  unfold inspect Factory.declaredParameters? Factory.strays
  rw [hf]
  cases receiver with
  | some r =>
    obtain rfl : kind = .declared := declared r rfl
    cases hps
    show Except.ok ((withoutReceiver (r :: parameters)).filter fun p => !p.collects) = _
    rw [filter_withoutReceiver (single r rfl)]
    rfl
  | none =>
    cases kind with
    | builtin =>
      -- what is declared takes the new object and anything else, and a call takes nothing
      simp only [Factory.callParameters?] at hps
      split at hps
      · cases hps
        rfl
      · cases hps
    | declared =>
      cases hps
      show Except.ok ((withoutReceiver parameters).filter fun p => !p.collects) = _
      rw [withoutReceiver_rest (gathers rfl)]
      rfl
    | function | bare | «sealed» => cases isClass

/-- The two readings of a class agree just where a receiver goes by a known name. A receiver by
another name is seen before the parameters of the call, and one by a known name is not seen. -/
theorem inspect_agrees (hf : d.factory = some f) (h : f.Constructs)
    (hps : f.callParameters? = some ps) :
    (inspect d = .ok (ps.filter fun p => !p.collects) ↔
      ∀ r, f.receiver = some r → receiverNames.contains r.name = true) ∧
    (∀ r, f.receiver = some r → receiverNames.contains r.name = false →
      inspect d = .ok (r :: ps.filter fun p => !p.collects)) ∧
    ∀ r seen, f.receiver = some r → inspect d = .ok seen →
      (r.name ∈ seen.map (·.name) ↔ receiverNames.contains r.name = false) := by
  have seen := inspect_of_constructs hf h hps
  refine ⟨?_, ?_, ?_⟩
  · constructor
    · intro agree r hr
      by_contra other
      have stray : r ∈ f.strays := Factory.mem_strays.2 ⟨hr, Bool.not_eq_true _ ▸ other⟩
      have none : f.strays = [] := by
        have same := Except.ok.inj (seen.symm.trans agree)
        exact List.append_left_eq_self.1 same
      rw [none] at stray
      cases stray
    · intro known
      rw [seen, Factory.strays_eq_nil known, List.nil_append]
  · intro r hr other
    have stray : f.strays = [r] := by
      rw [Factory.strays, hr, Option.toList_some, List.filter_cons_of_pos (by rw [other]; rfl),
        List.filter_nil]
    rw [seen, stray, List.singleton_append]
  · intro r parameters hr inspected
    obtain rfl := Except.ok.inj (seen.symm.trans inspected)
    have apart : r.name ∉ (ps.filter fun p => !p.collects).map (·.name) := fun hn => h.apart r hr
      (((List.filter_sublist.trans (Factory.callParameters?_sublist hps)).map _).subset hn)
    rw [List.map_append, List.mem_append]
    constructor
    · intro hn
      obtain ⟨q, hq, -⟩ := List.mem_map.1 (hn.resolve_right apart)
      obtain ⟨hr', other⟩ := Factory.mem_strays.1 hq
      obtain rfl := Option.some.inj (hr.symm.trans hr')
      exact other
    · intro other
      exact .inl (List.mem_map_of_mem (Factory.mem_strays.2 ⟨hr, other⟩))

/-- A courier whose constructor calls its receiver `this`, and one that inherits the constructor. -/
def courierTypes : List TypeDeclaration := [
  { name := "Courier", receiver := "this", parameters := some [
      ⟨⟨"van", .standard, false⟩, none⟩, ⟨⟨"parcels", .rest, false⟩, none⟩,
      ⟨⟨"route", .keywordOnly, true⟩, none⟩] },
  { name := "Express", bases := ["Courier"] }]

/-- What a call of a courier takes. -/
def courierCall : List Parameter :=
  [⟨"van", .standard, false⟩, ⟨"parcels", .rest, false⟩, ⟨"route", .keywordOnly, true⟩]

/-- A definition of an express courier. -/
def express : Definition where
  id := "express"
  factory := (Catalog.ofDeclarations courierTypes).find? "Express"

theorem inspect_agrees_express : ∃ f, express.factory = some f ∧ f.Constructs ∧
    f.callParameters? = some courierCall ∧
    inspect express = .ok (⟨"this", .standard, false⟩ :: courierCall.filter fun p => !p.collects) ∧
    inspect express ≠ .ok (courierCall.filter fun p => !p.collects) := by
  obtain ⟨f, hf, type, receiver, parameters⟩ : ∃ f, express.factory = some f ∧
      f.type = ⟨"Express", .declared⟩ ∧ f.receiver = some ⟨"this", .standard, false⟩ ∧
      f.parameters = courierCall := ⟨_, rfl, rfl, rfl, rfl⟩
  have legal : ∀ t ∈ courierTypes, t.Legal := by
    refine List.forall_mem_cons.2 ⟨?_, List.forall_mem_singleton.2 ?_⟩
    · exact ⟨by decide, ⟨by decide, by decide⟩, by decide⟩
    · exact ⟨by decide, ⟨by decide, by decide⟩, by decide⟩
  have found : (Catalog.ofDeclarations courierTypes).find? "Express" = some f := hf
  have constructs : f.Constructs := Factory.constructs_of_declared legal found (by rw [type]; rfl)
  have call : f.callParameters? = some courierCall := by
    rw [Factory.callParameters?, type, parameters]
  obtain ⟨agree, stray, -⟩ := inspect_agrees hf constructs call
  refine ⟨f, hf, constructs, call, stray _ receiver (by decide), fun same => ?_⟩
  have known := agree.1 same _ receiver
  revert known
  decide

end Definition

end Wiring
