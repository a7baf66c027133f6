import Wiring.Failure.Kind
import Wiring.Proofs.Autowire.Calling
import Wiring.Proofs.Autowire.Narrowing

/-!
# Empty slots

An empty slot for a keyword asks for the same service as the parameter of that name does. It differs
where none is found: the default of the parameter counts for the parameter, and not for the slot.
-/

namespace Wiring

open Graph

/-- `g'` is `g` with `d'` in place of `d`. -/
def Graph.Replaced (g g' : Graph) (d d' : Definition) : Prop :=
  Changed (fun e e' => if e.id = d.id then e = d ∧ e' = d' else e' = e) g g'

theorem mapM_forall₂ {ε α β γ : Type} {h : α → Except ε γ} {h' : β → Except ε γ} {as : List α}
    {bs : List β} (same : List.Forall₂ (fun a b => h a = h' b) as bs) : as.mapM h = bs.mapM h' := by
  induction same with
  | nil => rfl
  | cons here _ ih => rw [List.mapM_cons, List.mapM_cons, here, ih]

namespace Autowire

variable {g g' : Graph} {index : CapabilityIndex} {parameters : List Parameter}
  {hints : Table Hint} {hint : Hint} {d d' : Definition} {p : Parameter} {i : Nat} {name : String}

/-- The definition with an empty slot for a keyword. -/
def withSlot (d : Definition) (name : String) : Definition :=
  { d with keywords := Table.put d.keywords name (.autowire {}) }

/-! ## The same service -/

/-- The kind of failure where what a request names or looks for is not there. -/
def missingKind (name : Option String) : FailureKind :=
  if name.isSome then .missingService else .noCandidate

/-- What requests for the same come to. They find the same, or there is nothing to find, which
matters to those that cannot go without, or they fail in the same way. -/
theorem choose_cases (g : Graph) (index : CapabilityIndex) (service : String)
    (capability : Option Value) (name : Option String) :
    (∃ c ≠ Choice.absent, ∀ r : Request, r.capability = capability → r.name = name →
      choose g index service r = .ok c) ∨
    (∀ r : Request, r.capability = capability → r.name = name →
      ∃ e : Failure, e.kind = missingKind name ∧
        choose g index service r = if r.mayBeAbsent then .ok .absent else .error e) ∨
    ∃ kind, ∀ r : Request, r.capability = capability → r.name = name →
      ∃ e : Failure, e.kind = kind ∧ choose g index service r = .error e := by
  unfold choose
  cases name with
  | some id =>
    cases ht : g.resolveAlias id with
    | error e => exact .inr (.inr ⟨e.kind, fun r _ hn => ⟨e, rfl, by rw [hn]; simp only [ht]; rfl⟩⟩)
    | ok target =>
      cases there : g.has target with
      | true =>
        refine .inl ⟨.chosen id, by simp, fun r _ hn => ?_⟩
        rw [hn]
        simp only [ht, ok_bind, there, if_true]
        rfl
      | false =>
        refine .inr (.inl fun r _ hn => ⟨.fault (.missingService id (.named r.argument service)) none,
          rfl, ?_⟩)
        rw [hn]
        simp only [ht, ok_bind, there, Bool.false_eq_true, if_false]
        rfl
  | none =>
    cases capability with
    | none =>
      refine .inr (.inr ⟨.compilation, fun r hc hn =>
        ⟨.breach (.noCapability r.argument service), rfl, ?_⟩⟩)
      rw [hc, hn]
    | some capability =>
      unfold chooseAmong
      cases hi : (index.providers capability).filter fun id => id != service with
      | nil =>
        refine .inr (.inl fun r hc hn => ⟨.fault (.noCandidate ⟨service, r.argument, capability,
          g.ids.filter fun id => id != service⟩) none, rfl, ?_⟩)
        simp only [hc, hn, hi]
      | cons first rest =>
        cases rest with
        | nil =>
          refine .inl ⟨.only first, by simp, fun r hc hn => ?_⟩
          simp only [hc, hn, hi]
        | cons second rest =>
          cases hd : (index.defaults capability).filter (first :: second :: rest).contains with
          | nil =>
            refine .inr (.inr ⟨.ambiguous, fun r hc hn => ⟨.fault (.ambiguous ⟨service, r.argument,
              capability, first :: second :: rest⟩) none, rfl, ?_⟩⟩)
            simp only [hc, hn, hi, hd]
          | cons preferred others =>
            cases others with
            | nil =>
              refine .inl ⟨.chosen preferred, by simp, fun r hc hn => ?_⟩
              simp only [hc, hn, hi, hd]
            | cons _ _ =>
              refine .inr (.inr ⟨.ambiguous, fun r hc hn => ⟨.fault (.ambiguous ⟨service, r.argument,
                capability, first :: second :: rest⟩) none, rfl, ?_⟩⟩)
              simp only [hc, hn, hi, hd]

/-- An empty slot finds what its parameter finds and fails as it does, except that a default does not
let it go without. -/
theorem slot_chooses (g : Graph) (index : CapabilityIndex) (service label label' : String)
    (p : Parameter) (hint : Hint) :
    let own := choose g index service (.ofParameter p label hint)
    let slot := choose g index service (.ofSlot {} label' (some hint))
    (∀ c, own = .ok c → ¬ (c = .absent ∧ p.hasDefault = true) → slot = .ok c) ∧
    (∀ e, own = .error e → ∃ e', slot = .error e' ∧ e'.kind = e.kind) ∧
    (own = .ok .absent → p.hasDefault = true →
      (hint.wish.nullable = true → slot = .ok .absent) ∧
      (hint.wish.nullable = false → ∃ e, slot = .error e ∧ e.kind = missingKind hint.wish.name)) := by
  have may : (Request.ofParameter p label hint).mayBeAbsent =
      (hint.wish.nullable || p.hasDefault) := rfl
  have may' : (Request.ofSlot {} label' (some hint)).mayBeAbsent = hint.wish.nullable := by
    simp [Request.mayBeAbsent, Request.ofSlot]
  dsimp only
  rcases choose_cases g index service (some hint.wish.capability.toValue) hint.wish.name with
    ⟨c, found, all⟩ | all | ⟨_, all⟩
  · rw [all (.ofParameter p label hint) rfl rfl, all (.ofSlot {} label' (some hint)) rfl rfl]
    exact ⟨fun _ h _ => h, by simp, fun h => absurd (Except.ok.inj h) found⟩
  · obtain ⟨e, kind, own⟩ := all (.ofParameter p label hint) rfl rfl
    obtain ⟨e', kind', slot⟩ := all (.ofSlot {} label' (some hint)) rfl rfl
    rw [own, slot, may, may']
    cases hint.wish.nullable <;> cases p.hasDefault <;> simp [kind, kind', eq_comm]
  · obtain ⟨e, kind, own⟩ := all (.ofParameter p label hint) rfl rfl
    obtain ⟨e', kind', slot⟩ := all (.ofSlot {} label' (some hint)) rfl rfl
    rw [own, slot]
    exact ⟨by simp, fun _ h => ⟨e', rfl, by rw [kind', ← kind, Except.error.inj h]⟩, by simp⟩

/-! ## The rest of the definition -/

theorem zipIdx_at (hp : parameters[i]? = some p) : parameters.zipIdx =
    parameters.zipIdx.take i ++ (p, i) :: parameters.zipIdx.drop (i + 1) := by
  conv_lhs => rw [← List.take_append_drop i parameters.zipIdx, List.drop_eq_getElem?_toList_append]
  simp [hp]

theorem names_apart (hp : parameters[i]? = some p) (distinct : (parameters.map (·.name)).Nodup) :
    p.name ∉ (parameters.zipIdx.take i).map (·.1.name) ++
      (parameters.zipIdx.drop (i + 1)).map (·.1.name) := by
  rw [← names_zipIdx, zipIdx_at hp, List.map_append, List.map_cons, List.nodup_middle] at distinct
  exact (List.nodup_cons.1 distinct).1

/-- What is made of a definition, the parameter in place `i` apart from the others. -/
theorem completed_at (auto : d.autowired = true) (hp : parameters[i]? = some p) :
    completed g index d parameters hints = (do
      let arguments ← d.arguments.zipIdx.mapM fun e =>
        complete g index d.id (positionRequest parameters hints e.2) e.1
      let keywords ← d.keywords.mapM fun e =>
        (complete g index d.id (keywordRequest hints e.1) e.2).map (Prod.mk e.1)
      let before ← (parameters.zipIdx.take i).mapM fun e => addition g index hints d e.2 e.1
      let own ← addition g index hints d i p
      let after ← (parameters.zipIdx.drop (i + 1)).mapM fun e => addition g index hints d e.2 e.1
      return { d with
        arguments, keywords := keywords ++ (before.flatten ++ (own ++ after.flatten)) }) := by
  rw [completed, if_pos auto]
  conv_lhs => rw [zipIdx_at hp]
  simp only [List.mapM_append, List.mapM_cons, bind_assoc, pure_bind, List.flatten_append,
    List.flatten_cons]

theorem withSlot_eq (new : name ∉ Table.names d.keywords) :
    withSlot d name = { d with keywords := d.keywords ++ [(name, .autowire {})] } := by
  unfold withSlot
  rw [Table.put, if_neg (mt Table.has_iff.1 new)]

/-- For other parameters nothing changes. -/
theorem addition_withSlot {q : Parameter} {j : Nat} (other : q.name ≠ p.name)
    (new : p.name ∉ Table.names d.keywords) :
    addition g index hints (withSlot d p.name) j q = addition g index hints d j q := by
  rw [withSlot_eq new]
  refine addition_congr rfl ?_
  unfold Given
  rw [Table.has_iff, Table.has_iff, Table.names, List.map_append, List.mem_append]
  simp [other, Table.names]

/-- What is made of a definition with an empty slot for the parameter in place `i`. -/
theorem completed_withSlot (auto : d.autowired = true) (hp : parameters[i]? = some p)
    (distinct : (parameters.map (·.name)).Nodup) (new : p.name ∉ Table.names d.keywords) :
    completed g index (withSlot d p.name) parameters hints = (do
      let arguments ← d.arguments.zipIdx.mapM fun e =>
        complete g index d.id (positionRequest parameters hints e.2) e.1
      let keywords ← d.keywords.mapM fun e =>
        (complete g index d.id (keywordRequest hints e.1) e.2).map (Prod.mk e.1)
      let filled ← complete g index d.id (keywordRequest hints p.name) (.autowire {})
      let before ← (parameters.zipIdx.take i).mapM fun e => addition g index hints d e.2 e.1
      let after ← (parameters.zipIdx.drop (i + 1)).mapM fun e => addition g index hints d e.2 e.1
      return { d with
        arguments
        keywords := keywords ++ (p.name, filled) :: (before.flatten ++ after.flatten) }) := by
  have given : Given (withSlot d p.name) i p := by
    refine .inr ?_
    rw [withSlot_eq new, Table.has_iff, Table.names, List.map_append]
    simp
  have others (es : List (Parameter × Nat)) (h : ∀ e ∈ es, e.1.name ≠ p.name) :
      (es.mapM fun e => addition g index hints (withSlot d p.name) e.2 e.1) =
        es.mapM fun e => addition g index hints d e.2 e.1 :=
    mapM_forall₂ (List.forall₂_same.2 fun e he => addition_withSlot (h e he) new)
  have own : addition g index hints (withSlot d p.name) i p = .ok [] := by
    rw [addition, if_pos given]
  have mapped {β : Type} (x : Except Failure Argument) (k : String × Argument → Except Failure β) :
      (x.map (Prod.mk p.name) >>= k) = x >>= fun a => k (p.name, a) := by cases x <;> rfl
  have apart := names_apart hp distinct
  rw [completed_at (d := withSlot d p.name) auto hp, own, others, others]
  · rw [withSlot_eq new]
    simp only [List.mapM_append, List.mapM_cons, List.mapM_nil, bind_assoc, pure_bind, ok_bind]
    simp only [mapped, List.nil_append, List.append_assoc, List.singleton_append]
  · exact fun e he same => apart (List.mem_append_right _ (List.mem_map.2 ⟨e, he, same⟩))
  · exact fun e he same => apart (List.mem_append_left _ (List.mem_map.2 ⟨e, he, same⟩))

/-! ## Other graphs -/

theorem completed_changed {R : Definition → Definition → Prop} (h : Changed R g g') :
    completed g' index = completed g index := by
  have same : choose g' index = choose g index := choose_changed h
  have completes : complete g' index = complete g index := by
    funext service request a
    cases a <;> simp only [complete, same]
  have adds : addition g' index = addition g index := by
    funext hints d i p
    simp only [addition, same]
  funext d parameters hints
  simp only [completed, completes, adds]

/-- A slot does not change what a definition offers. -/
theorem ofGraph_replaced (h : Replaced g g' d (withSlot d name)) :
    CapabilityIndex.ofGraph g' = CapabilityIndex.ofGraph g := by
  have each : List.Forall₂ (fun e e' : Definition => e'.isAbstract = e.isAbstract ∧
      e'.id = e.id ∧ CapabilityIndex.offers e' = CapabilityIndex.offers e ∧
      e'.defaultFor = e.defaultFor) g.definitions g'.definitions := by
    refine h.definitions.imp fun e e' ⟨id, rule⟩ => ?_
    split at rule
    · obtain ⟨rfl, rfl⟩ := rule
      exact ⟨rfl, rfl, rfl, rfl⟩
    · subst rule
      exact ⟨rfl, rfl, rfl, rfl⟩
  have concrete := forall₂_filter (p := fun e => !e.isAbstract) (q := fun e => !e.isAbstract) each
    fun e e' same => by rw [same.1]
  unfold CapabilityIndex.ofGraph
  simp only []
  rw [← mapM_forall₂ (concrete.imp fun e e' same => same.2.2.1.symm),
    ← forall₂_flatMap_eq (concrete.imp fun e e' same => ?_)]
  rw [same.2.1, same.2.2.2]

/-! ## The outcome -/

/-- The outcomes are alike: failures of one kind, or definitions that differ in the order of their
keyword arguments alone. -/
def Alike : Except Failure Definition → Except Failure Definition → Prop
  | .ok d, .ok d' => d' = { d with keywords := d'.keywords } ∧ d'.keywords.Perm d.keywords
  | .error e, .error e' => e'.kind = e.kind
  | _, _ => False

theorem Alike.bind {α : Type} {x : Except Failure α} {f f' : α → Except Failure Definition}
    (h : ∀ a, Alike (f a) (f' a)) : Alike (x >>= f) (x >>= f') := by
  cases x with
  | ok a => exact h a
  | error e => exact rfl

theorem Alike.map_bind {α : Type} {x : Except Failure α} {f f' : α → Except Failure Definition}
    {h : Definition → Definition} (each : ∀ a, Alike ((f a).map h) (f' a)) :
    Alike ((x >>= f).map h) (x >>= f') := by
  cases x with
  | ok a => exact each a
  | error e => exact rfl

theorem names_of_additions {es : List (Parameter × Nat)} {ts : List (Table Argument)}
    (h : (es.mapM fun e => addition g index hints d e.2 e.1) = .ok ts) {name : String}
    (hn : name ∈ Table.names ts.flatten) : name ∈ es.map (·.1.name) := by
  obtain ⟨e, he, rfl⟩ := List.mem_map.1 hn
  obtain ⟨t, ht, he⟩ := List.mem_flatten.1 he
  obtain ⟨q, hq, made⟩ := forall₂_mem_right (mapM_eq_ok.1 h) ht
  rcases addition_ok made with ⟨-, rfl⟩ | ⟨-, -, ⟨-, rfl⟩ | ⟨b, rfl⟩⟩
  · cases he
  · cases he
  · exact List.mem_map.2 ⟨q, hq, by rw [List.mem_singleton.1 he]⟩

theorem additions_succeed
    (fine : ∀ j < i, ∀ q, parameters[j]? = some q → ∃ t, addition g index hints d j q = .ok t) :
    ∃ ts, ((parameters.zipIdx.take i).mapM fun e => addition g index hints d e.2 e.1) = .ok ts := by
  refine mapM_succeeds.2 fun e hq => ?_
  obtain ⟨q, j⟩ := e
  obtain ⟨k, hk⟩ := List.mem_iff_getElem?.1 hq
  rw [List.getElem?_take] at hk
  split at hk
  next lt =>
    have hj := List.mem_zipIdx_iff_getElem?.1 (List.mem_of_getElem? hk)
    rw [List.getElem?_zipIdx] at hk
    obtain ⟨_, -, same⟩ := Option.map_eq_some_iff.1 hk
    obtain ⟨-, rfl⟩ := Prod.mk.inj same
    exact fine _ (by simpa using lt) q hj
  next => cases hk

/-- A parameter for which nothing is added is given nothing. -/
theorem completed_unnamed (auto : d.autowired = true) (hp : parameters[i]? = some p)
    (distinct : (parameters.map (·.name)).Nodup) (new : p.name ∉ Table.names d.keywords)
    (own : addition g index hints d i p = .ok [])
    (h : completed g index d parameters hints = .ok d') : p.name ∉ Table.names d'.keywords := by
  rw [completed_at auto hp, own] at h
  simp only [ok_bind, List.nil_append] at h
  obtain ⟨arguments, -, h⟩ := bind_eq_ok.1 h
  obtain ⟨keywords, hk, h⟩ := bind_eq_ok.1 h
  obtain ⟨before, hb, h⟩ := bind_eq_ok.1 h
  obtain ⟨after, ha, h⟩ := bind_eq_ok.1 h
  obtain rfl := pure_eq_ok.1 h
  have apart := names_apart hp distinct
  rw [Table.names, List.map_append, List.map_append, List.mem_append, List.mem_append]
  rintro (hn | hn | hn)
  · exact new (names_of_keywords hk ▸ hn)
  · exact apart (List.mem_append_left _ (names_of_additions hb hn))
  · exact apart (List.mem_append_right _ (names_of_additions ha hn))

section Slots

variable {a : Argument} {e e' : Failure} (auto : d.autowired = true)
  (hp : parameters[i]? = some p) (distinct : (parameters.map (·.name)).Nodup)
  (new : p.name ∉ Table.names d.keywords)

include auto hp

/-- Where nothing can be added for a parameter, nothing is made. -/
theorem completed_ne_ok (own : addition g index hints d i p = .error e) (d' : Definition) :
    completed g index d parameters hints ≠ .ok d' := by
  rw [completed_at auto hp, own]
  refine bind_ne_ok fun arguments => bind_ne_ok fun keywords => bind_ne_ok fun before => ?_
  rintro ⟨⟩

include distinct new

/-- What is found for the slot takes the place of what is found for the parameter. -/
theorem alike_of_found (own : addition g index hints d i p = .ok [(p.name, a)])
    (slot : complete g index d.id (keywordRequest hints p.name) (.autowire {}) = .ok a) :
    Alike (completed g index d parameters hints)
      (completed g index (withSlot d p.name) parameters hints) := by
  rw [completed_at auto hp, completed_withSlot auto hp distinct new, own, slot]
  simp only [ok_bind]
  refine .bind fun arguments => .bind fun keywords => .bind fun before => .bind fun after => ?_
  exact ⟨rfl, List.Perm.append_left _ List.perm_middle.symm⟩

/-- What is found for the slot is given besides, where nothing is added for the parameter. -/
theorem alike_of_unnamed (own : addition g index hints d i p = .ok [])
    (slot : complete g index d.id (keywordRequest hints p.name) (.autowire {}) = .ok a) :
    Alike ((completed g index d parameters hints).map fun d' =>
        { d' with keywords := d'.keywords ++ [(p.name, a)] })
      (completed g index (withSlot d p.name) parameters hints) := by
  rw [completed_at auto hp, completed_withSlot auto hp distinct new, own, slot]
  simp only [ok_bind, List.nil_append]
  refine .map_bind fun arguments => .map_bind fun keywords => .map_bind fun before =>
    .map_bind fun after => ⟨rfl, ?_⟩
  dsimp only
  rw [List.append_assoc]
  exact List.Perm.append_left _ (List.perm_append_singleton _ _).symm

/-- The slot comes before the parameters: it fails in the place of its own, if those before that do
not. -/
theorem alike_of_failing (own : addition g index hints d i p = .error e)
    (slot : complete g index d.id (keywordRequest hints p.name) (.autowire {}) = .error e')
    (kind : e'.kind = e.kind)
    (fine : ∀ j < i, ∀ q, parameters[j]? = some q → ∃ t, addition g index hints d j q = .ok t) :
    Alike (completed g index d parameters hints)
      (completed g index (withSlot d p.name) parameters hints) := by
  obtain ⟨before, hb⟩ := additions_succeed fine
  rw [completed_at auto hp, completed_withSlot auto hp distinct new, own, slot, hb]
  exact .bind fun arguments => .bind fun keywords => kind

/-- Where the slot cannot be filled, nothing is made. -/
theorem completed_withSlot_ne_ok
    (slot : complete g index d.id (keywordRequest hints p.name) (.autowire {}) = .error e)
    (d' : Definition) : completed g index (withSlot d p.name) parameters hints ≠ .ok d' := by
  rw [completed_withSlot auto hp distinct new, slot]
  refine bind_ne_ok fun arguments => bind_ne_ok fun keywords => ?_
  rintro ⟨⟩

/-- And where all would be well without the slot, it is the failure of the slot that is seen. -/
theorem completed_withSlot_error
    (slot : complete g index d.id (keywordRequest hints p.name) (.autowire {}) = .error e)
    (h : completed g index d parameters hints = .ok d') :
    completed g index (withSlot d p.name) parameters hints = .error e := by
  rw [completed_at auto hp] at h
  obtain ⟨arguments, ha, h⟩ := bind_eq_ok.1 h
  obtain ⟨keywords, hk, -⟩ := bind_eq_ok.1 h
  rw [completed_withSlot auto hp distinct new, ha, ok_bind, hk, slot]
  rfl

end Slots

/-- What an empty slot for a parameter that nothing is given for does to the outcome. What is found
for the parameter is found for the slot, and the outcomes are alike. What fails for it fails for the
slot in the same way, though the slot comes first, so a parameter before it cannot fail instead.
Where nothing is found for a parameter with a default the outcomes differ: without the slot nothing is
given for it, so that it keeps its default, while the slot is given the null value if the annotation
allows that, and fails otherwise. -/
theorem withSlot_outcome (replaced : Replaced g g' d (withSlot d p.name))
    (indexed : CapabilityIndex.ofGraph g = .ok index) (auto : d.autowired = true)
    (unique : (Table.names d.keywords).Nodup) (inspected : Definition.inspect d = .ok parameters)
    (distinct : (parameters.map (·.name)).Nodup) (hh : hintsFor d parameters = .ok hints)
    (hp : parameters[i]? = some p) (kind : p.kind ≠ .positionalOnly)
    (annotated : hints.get? p.name = some hint) (missing : ¬ Given d i p) :
    let own := choose g index d.id (.ofParameter p (placeLabel i (some p)) hint)
    let plain := Build.result (Build.autowire index d) g
    let slotted := Build.result (Build.autowire index (withSlot d p.name)) g'
    CapabilityIndex.ofGraph g' = .ok index ∧
    (∀ c, own = .ok c → ¬ (c = .absent ∧ p.hasDefault = true) → Alike plain slotted) ∧
    (∀ e, own = .error e →
      (∀ d', plain ≠ .ok d') ∧ (∀ d', slotted ≠ .ok d') ∧
      ((∀ j < i, ∀ q, parameters[j]? = some q → ∃ t, addition g index hints d j q = .ok t) →
        Alike plain slotted)) ∧
    (own = .ok .absent → p.hasDefault = true →
      (∀ d', plain = .ok d' → p.name ∉ Table.names d'.keywords) ∧
      (hint.wish.nullable = true → Alike (plain.map fun d' =>
        { d' with keywords := d'.keywords ++ [(p.name, .literal .null)] }) slotted) ∧
      (hint.wish.nullable = false → (∀ d', slotted ≠ .ok d') ∧
        ∀ d', plain = .ok d' → ∃ e, slotted = .error e ∧ e.kind = missingKind hint.wish.name)) := by
  have new : p.name ∉ Table.names d.keywords := fun h => missing (.inr (Table.has_iff.2 h))
  have wanted : isWanted d = true := by simp [isWanted, auto]
  have wanted' : isWanted (withSlot d p.name) = true := by simp [isWanted, withSlot, auto]
  have plain : Build.result (Build.autowire index d) g = completed g index d parameters hints :=
    Build.autowire_completed wanted unique inspected distinct hh
  have slotted : Build.result (Build.autowire index (withSlot d p.name)) g' =
      completed g' index (withSlot d p.name) parameters hints :=
    Build.autowire_completed wanted' (Table.nodup_put unique) inspected distinct hh
  rw [completed_changed replaced] at slotted
  have added : addition g index hints d i p =
      (choose g index d.id (.ofParameter p (placeLabel i (some p)) hint)).map fun choice =>
        if choice = .absent ∧ p.hasDefault = true then [] else [(p.name, slotArgument choice)] := by
    rw [addition, if_neg missing, if_neg kind, annotated]
  have filled : complete g index d.id (keywordRequest hints p.name) (.autowire {}) =
      (choose g index d.id (.ofSlot {} ("$" ++ p.name) (some hint))).map slotArgument := by
    rw [complete, keywordRequest, annotated]
  simp only [plain, slotted]
  obtain ⟨found, fails, absent⟩ :=
    slot_chooses g index d.id (placeLabel i (some p)) ("$" ++ p.name) p hint
  refine ⟨(ofGraph_replaced replaced).trans indexed, ?_, ?_, ?_⟩
  · intro c own given
    rw [own, Except.map, if_neg given] at added
    rw [found c own given] at filled
    exact alike_of_found auto hp distinct new added filled
  · intro e own
    obtain ⟨e', slot, kind⟩ := fails e own
    rw [own] at added
    rw [slot] at filled
    exact ⟨completed_ne_ok auto hp added, completed_withSlot_ne_ok auto hp distinct new filled,
      alike_of_failing auto hp distinct new added filled kind⟩
  · intro own default
    obtain ⟨nullable, needed⟩ := absent own default
    rw [own, Except.map, if_pos ⟨rfl, default⟩] at added
    refine ⟨fun d' => completed_unnamed auto hp distinct new added, fun hnull => ?_,
      fun hnull => ?_⟩
    · rw [nullable hnull] at filled
      exact alike_of_unnamed auto hp distinct new added filled
    · obtain ⟨e, slot, kind⟩ := needed hnull
      rw [slot] at filled
      exact ⟨completed_withSlot_ne_ok auto hp distinct new filled,
        fun d' h => ⟨e, completed_withSlot_error auto hp distinct new filled h, kind⟩⟩

/-- What a scheduler may be given: a clock, or what it takes by default. -/
def clockParameter : Parameter := ⟨"clock", .standard, true⟩

/-- A scheduler that is given nothing. -/
def scheduler : Definition where
  id := "scheduler"
  factory := some {
    type := ⟨"schedule", .function⟩
    lineage := []
    maker := "schedule"
    receiver := none
    parameters := [clockParameter]
    hints := .ok [("clock", .type ⟨"Clock", .declared⟩)] }
  autowired := true

/-- Where there is no clock, a scheduler goes without, but not one with an empty slot for it. -/
theorem withSlot_outcome_scheduler : ∃ index,
    CapabilityIndex.ofGraph { definitions := [scheduler] } = .ok index ∧
    Build.result (Build.autowire index scheduler) { definitions := [scheduler] } = .ok scheduler ∧
    ∃ e, Build.result (Build.autowire index (withSlot scheduler "clock"))
      { definitions := [withSlot scheduler "clock"] } = .error e ∧ e.kind = .noCandidate := by
  have own : choose { definitions := [scheduler] } ⟨[], []⟩ "scheduler"
      (.ofParameter clockParameter (placeLabel 0 (some clockParameter))
        (.type ⟨"Clock", .declared⟩)) = .ok .absent :=
    choose_absent.2 ⟨rfl, .inr ⟨rfl, _, rfl, by
      simp [CapabilityIndex.providers, CapabilityIndex.under, Failure.sortTexts]⟩⟩
  have plain : Build.result (Build.autowire ⟨[], []⟩ scheduler) { definitions := [scheduler] } =
      .ok scheduler := by
    have distinct : ∀ parameters, Definition.inspect scheduler = .ok parameters →
        (parameters.map (·.name)).Nodup := by
      rintro _ ⟨⟩
      decide
    have filled : Filled { definitions := [scheduler] } ⟨[], []⟩ scheduler :=
      ⟨by simp [scheduler, Recipe.allArguments], fun _ => ⟨[clockParameter], _, rfl, rfl,
        by
          rintro e (_ | ⟨_, _ | _⟩)
          refine .inr ⟨by decide, rfl, ?_⟩
          rintro hint ⟨⟩
          exact own⟩⟩
    have wires : Wires { definitions := [scheduler] } ⟨[], []⟩ scheduler scheduler :=
      ⟨_, fill_of_filled filled, rfl⟩
    rw [Build.autowire_result (d := scheduler) .nil distinct, wires.completion_eq .nil distinct]
  have replaced : Replaced { definitions := [scheduler] }
      { definitions := [withSlot scheduler "clock"] } scheduler (withSlot scheduler "clock") :=
    ⟨rfl, by simp [withSlot]⟩
  have indexed : CapabilityIndex.ofGraph { definitions := [scheduler] } = .ok ⟨[], []⟩ := rfl
  have rule := (withSlot_outcome (p := clockParameter) (i := 0) replaced indexed rfl .nil rfl
    (by decide) rfl rfl (by decide) rfl (by decide)).2.2.2 own rfl
  obtain ⟨e, slotted, kind⟩ := (rule.2.2 rfl).2 scheduler plain
  exact ⟨_, rfl, plain, e, slotted, kind⟩

end Autowire

end Wiring
