import Wiring.Proofs.Autowire.Calling

/-!
# Slots by position

A positional slot is read by its place among the parameters that take one argument each, to which a
receiver by a name of its own counts. A call counts otherwise: a parameter that takes all the rest has
a place there, parameters that are bound by keyword alone have none, and neither has the receiver.
-/

namespace Wiring

open Graph Signature

namespace Signature

variable {ps : List Parameter} {p : Parameter} {i : Nat}

theorem mem_of_taker? (h : taker? ps i = some p) : p ∈ ps := by
  induction ps generalizing i with
  | nil => cases h
  | cons q ps ih =>
    unfold taker? at h
    split at h
    · exact Option.some.inj h ▸ List.mem_cons_self
    · cases h
    · cases h
    · exact Option.some.inj h ▸ List.mem_cons_self
    · exact List.mem_cons_of_mem q (ih h)

/-- What is bound by keyword alone takes no positional argument. -/
theorem taker?_ne_of_keywordOnly (hp : p ∈ keywordOnly ps) (j : Nat) : taker? ps j ≠ some p := by
  intro taken
  have named : p.kind = .keywordOnly := by simpa using (List.mem_filter.1 hp).2
  rcases kind_of_taker? taken with h | h
  · simp [Parameter.isPositional, named] at h
  · simp [named] at h

/-- The parameters that take one argument each, by their places. -/
theorem Legal.single_at (legal : Legal ps) :
    (ps.filter fun p => !p.collects)[i]? =
      if i < (positional ps).length then taker? ps i
      else (keywordOnly ps)[i - (positional ps).length]? := by
  rw [legal.filter_collects]
  split
  next before => rw [List.getElem?_append_left before, legal.taker?_of_lt before]
  next beyond => rw [List.getElem?_append_right (Nat.le_of_not_lt beyond)]

end Signature

namespace Factory

variable {f : Factory} {ps : List Parameter} {p : Parameter} {i : Nat}

/-- The parameter that a positional slot in place `i` is read from. -/
def slotSource (f : Factory) (ps : List Parameter) (i : Nat) : Option Parameter :=
  (f.strays ++ ps.filter fun p => !p.collects)[i]?

theorem slotSource_eq (legal : Legal ps) : f.slotSource ps i =
    if i < f.strays.length then f.strays[i]?
    else if i - f.strays.length < (positional ps).length then taker? ps (i - f.strays.length)
    else (keywordOnly ps)[i - f.strays.length - (positional ps).length]? := by
  unfold slotSource
  split
  next before => rw [List.getElem?_append_left before]
  next beyond => rw [List.getElem?_append_right (Nat.le_of_not_lt beyond), legal.single_at]

/-- A call fills no stray. -/
theorem taker?_ne_of_stray (regular : f.Regular) (hps : f.callParameters? = some ps)
    (hp : p ∈ f.strays) (j : Nat) : taker? ps j ≠ some p := by
  intro taken
  have hmem := (callParameters?_sublist hps).subset (mem_of_taker? taken)
  have unique := regular.legal.unique
  rw [List.map_append, List.nodup_append] at unique
  exact unique.2.2 p.name (List.mem_map_of_mem (List.mem_of_mem_filter hp)) p.name
    (List.mem_map_of_mem hmem) rfl

/-- A slot is read from the parameter that it is bound to in signatures without a stray, before the
positions run out, or if it is read from none at all. -/
theorem slotSource_taken_iff (regular : f.Regular) (hps : f.callParameters? = some ps) :
    (∀ p, f.slotSource ps i = some p → taker? ps i = some p) ↔
      f.slotSource ps i = none ∨ (f.strays = [] ∧ i < (positional ps).length) := by
  have legal := regular.legal_call hps
  have source := slotSource_eq (f := f) (i := i) legal
  constructor
  · intro taken
    cases hp : f.slotSource ps i with
    | none => exact .inl rfl
    | some p =>
      refine .inr ?_
      have taken := taken p hp
      rw [hp] at source
      split at source
      next =>
        exact absurd taken (taker?_ne_of_stray regular hps (List.mem_of_getElem? source.symm) i)
      next beyond =>
        split at source
        next before =>
          -- no place but its own leads a call to a parameter that takes one argument
          rw [legal.taker?_of_lt before] at source
          have single := (List.mem_filter.1 (List.mem_of_getElem? source.symm)).2
          by_cases within : i < (positional ps).length
          · rw [legal.taker?_of_lt within] at taken
            have distinct : (positional ps).Nodup := (List.Nodup.of_map _ legal.unique).filter _
            have same : i = i - f.strays.length :=
              (List.getElem?_inj within distinct).1 (taken.trans source)
            exact ⟨List.length_eq_zero_iff.1 (by omega), within⟩
          · have rest := legal.taker?_of_le (Nat.le_of_not_lt within) taken
            simp [Parameter.isPositional, rest] at single
        next =>
          exact absurd taken (taker?_ne_of_keywordOnly (List.mem_of_getElem? source.symm) i)
  · rintro (none | ⟨none, before⟩) p hp
    · rw [none] at hp
      cases hp
    · rw [slotSource_eq legal] at hp
      simpa [none, before] using hp

end Factory

namespace Autowire

variable {g : Graph} {index : CapabilityIndex} {parameters : List Parameter} {hints : Table Hint}
  {d d' : Definition} {f : Factory} {ps : List Parameter} {i : Nat} {slot : Slot}

/-- A list cannot be worked through further than to the first item that fails. -/
theorem mapM_error_at {ε α β : Type} {h : α → Except ε β} {as : List α} {a : α} {e : ε} {i : Nat}
    (ha : as[i]? = some a) (fails : h a = .error e)
    (fine : ∀ j < i, ∀ x, as[j]? = some x → ∃ b, h x = .ok b) : as.mapM h = .error e := by
  induction as generalizing i with
  | nil => cases ha
  | cons x as ih =>
    rw [List.mapM_cons]
    cases i with
    | zero =>
      obtain rfl := Option.some.inj ha
      rw [fails]
      rfl
    | succ i =>
      obtain ⟨b, hb⟩ := fine 0 (Nat.succ_pos i) x rfl
      rw [hb, ok_bind, ih ha fun j hj => fine (j + 1) (Nat.succ_lt_succ hj)]
      rfl

theorem complete_slot_ok {service : String} {request : Slot → Request} {b : Argument} :
    complete g index service request (.autowire slot) = .ok b ↔
      ∃ choice, choose g index service (request slot) = .ok choice ∧ slotArgument choice = b := by
  rw [complete]
  cases choose g index service (request slot) <;> simp [Except.map]

theorem complete_slot_error {service : String} {request : Slot → Request} {e : Failure}
    (fails : choose g index service (request slot) = .error e) :
    complete g index service request (.autowire slot) = .error e := by
  rw [complete, fails]
  rfl

/-- How a positional slot is filled: by what is chosen for a request that takes from an annotation
what the slot itself leaves open. The annotation is that of the parameter that a call binds the
argument to only in signatures without a stray, and in places before the positions run out. Beyond
them it is that of a parameter that is bound by keyword alone, if there is one left, and after a stray
it is that of the parameter one place before. -/
theorem slot_reads (hf : d.factory = some f) (regular : f.Regular)
    (hps : f.callParameters? = some ps) (unique : (Table.names d.keywords).Nodup)
    (hh : hintsFor d (f.strays ++ ps.filter fun p => !p.collects) = .ok hints)
    (hslot : d.arguments[i]? = some (.autowire slot)) :
    let source := f.slotSource ps i
    let request := Request.ofSlot slot (placeLabel i source) (source.bind fun p => hints.get? p.name)
    (∀ d', Build.result (Build.autowire index d) g = .ok d' →
      ∃ choice, choose g index d.id request = .ok choice ∧
        d'.arguments[i]? = some (slotArgument choice)) ∧
    (∀ e, choose g index d.id request = .error e →
      (∀ j < i, ∀ slot, d.arguments[j]? = some (.autowire slot) → ∃ choice,
        choose g index d.id (.ofSlot slot (placeLabel j (f.slotSource ps j))
          ((f.slotSource ps j).bind fun p => hints.get? p.name)) = .ok choice) →
      Build.result (Build.autowire index d) g = .error e) ∧
    (source = if i < f.strays.length then f.strays[i]?
      else if i - f.strays.length < (positional ps).length then taker? ps (i - f.strays.length)
      else (keywordOnly ps)[i - f.strays.length - (positional ps).length]?) ∧
    ((∀ p, source = some p → taker? ps i = some p) ↔
      source = none ∨ (f.strays = [] ∧ i < (positional ps).length)) ∧
    (∀ d' bound, Build.result (Build.autowire index d) g = .ok d' →
      Signature.bind ps d'.arguments d'.keywords = .ok bound →
      ∃ p, taker? ps i = some p ∧ (p.kind = .rest ∨ bound.get? p.name = d'.arguments[i]?)) := by
  have inspected := Definition.inspect_eq hf regular hps
  have wanted : isWanted d = true := by
    have some : (d.arguments.any Argument.isSlot) = true :=
      List.any_eq_true.2 ⟨_, List.mem_of_getElem? hslot, rfl⟩
    simp [isWanted, Recipe.allArguments, some]
  have run : Build.result (Build.autowire index d) g =
      completed g index d (f.strays ++ ps.filter fun p => !p.collects) hints :=
    Build.autowire_completed wanted unique inspected (regular.inspected_unique hps) hh
  refine ⟨fun d' h => ?_, fun e fails fine => ?_, Factory.slotSource_eq (regular.legal_call hps),
    Factory.slotSource_taken_iff regular hps, fun d' bound h binds => ?_⟩
  · obtain ⟨keywords, added, whole⟩ := completed_ok (run.symm.trans h)
    obtain ⟨b, hb, made⟩ := whole.argument_at hslot
    obtain ⟨choice, chosen, rfl⟩ := complete_slot_ok.1 made
    exact ⟨choice, chosen, hb⟩
  · have first : (d.arguments.zipIdx.mapM fun e => complete g index d.id
        (positionRequest (f.strays ++ ps.filter fun p => !p.collects) hints e.2) e.1) = .error e := by
      refine mapM_error_at (a := (.autowire slot, i)) (i := i) (by simp [hslot]) ?_
        fun j hj x hx => ?_
      · exact complete_slot_error fails
      · rw [List.getElem?_zipIdx] at hx
        obtain ⟨a, ha, rfl⟩ := Option.map_eq_some_iff.1 hx
        cases a with
        | autowire slot =>
          obtain ⟨choice, chosen⟩ := fine j hj slot ha
          refine ⟨_, complete_slot_ok.2 ⟨choice, ?_, rfl⟩⟩
          rw [Nat.zero_add]
          exact chosen
        | _ => exact ⟨_, rfl⟩
    rw [run, completed, first]
    rfl
  · obtain ⟨keywords, added, whole⟩ := completed_ok (run.symm.trans h)
    obtain ⟨b, hb, -⟩ := whole.argument_at hslot
    obtain ⟨p, taken, bound⟩ := bind_takes (regular.legal_call hps) binds hb
    exact ⟨p, taken, bound.imp_right fun h => h.trans hb.symm⟩

/-- The factory of a collector, who takes any number of items and a keeper by name. -/
def collectorFactory : Factory where
  type := ⟨"collect", .function⟩
  lineage := []
  maker := "collect"
  receiver := none
  parameters := [⟨"items", .rest, false⟩, ⟨"keeper", .keywordOnly, false⟩]
  hints := .ok [("keeper", .marked (.type ⟨"Keeper", .declared⟩) [.named "keeper"])]

/-- A collector that wants a coin as its first item. -/
def collector : Definition where
  id := "collector"
  factory := some collectorFactory
  arguments := [.autowire { capability := some (.str "coin") }]
  keywords := [("keeper", .reference ⟨"keeper", false, false⟩)]

/-- A collector, a coin and a keeper. -/
def collection : Graph where
  definitions := [{ id := "coin", capabilities := [.str "coin"] }, { id := "keeper" }, collector]

theorem slot_reads_collector : ∃ index d',
    CapabilityIndex.ofGraph collection = .ok index ∧
    Build.result (Build.autowire index collector) collection = .ok d' ∧
    d'.arguments[0]? = some (.reference ⟨"keeper", false, false⟩) ∧
    ¬ ∀ p, collectorFactory.slotSource collectorFactory.parameters 0 = some p →
      taker? collectorFactory.parameters 0 = some p := by
  have rule := @slot_reads collection ⟨[(.str "coin", "coin")], []⟩ _ collector _ _ 0 _ rfl
    ⟨⟨by decide, by decide⟩, by simp [collectorFactory], by decide⟩ rfl (by decide) rfl rfl
  refine ⟨_, _, rfl, rfl, ?_, ?_⟩
  · obtain ⟨choice, chosen, here⟩ := rule.1 _ rfl
    obtain rfl : Choice.chosen "keeper" = choice := Except.ok.inj chosen
    exact here
  · rw [rule.2.2.2.1]
    decide

end Autowire

end Wiring
