import Wiring.Proofs.Autowire.Narrowing
import Wiring.Proofs.Sort.Texts
import Wiring.Proofs.Value.Same

/-!
# Which service is chosen

The choice goes by two lists of entries, which are made once for all capabilities. Under a
capability the first list has each definition that offers it once, since what a definition offers
is freed of repetitions. The second one has a definition as often as it says that it is the default,
so one that says so twice counts as two.
-/

namespace Wiring

open Graph

variable {g : Graph} {index : CapabilityIndex} {c : Value} {service : String} {d : Definition}

namespace Autowire

/-! ## Candidates -/

/-- Whether the definition provides a capability, as one that it declares or as a class of its
factory. -/
def provides (c : Value) (d : Definition) : Bool := d.offeredCapabilities.any (·.same c)

/-- The definitions that a service can choose among for a capability. It never chooses itself, and
templates are not chosen. -/
def eligible (g : Graph) (service : String) (c : Value) : List Definition :=
  g.definitions.filter fun d => !d.isAbstract && provides c d && d.id != service

/-- The candidates that are the default for the capability. -/
def favourites (g : Graph) (service : String) (c : Value) : List Definition :=
  (eligible g service c).filter fun d => d.defaultFor.any (·.same c)

/-- How often a definition says that it is the default for a capability. -/
def marks (c : Value) (d : Definition) : Nat := d.defaultFor.countP fun v => v.token.same c

/-- The candidates, each as often as it says that it is the default. -/
def marked (g : Graph) (service : String) (c : Value) : List Definition :=
  (eligible g service c).flatMap fun d => List.replicate (marks c d) d

end Autowire

namespace CapabilityIndex

open Autowire

/-- Entries of one service, counted under a capability. -/
theorem entries_under {vs : List Value} {id : String} :
    ((vs.map fun v => (v.token, id)).filter fun e => e.1.same c).map (·.2) =
      List.replicate (vs.countP fun v => v.token.same c) id := by
  rw [List.filter_map, List.map_map, List.countP_eq_length_filter]
  exact List.map_const'

/-- A definition has one entry under a capability that it provides, and none under others. -/
theorem offers_under {es : List (Value × String)} (offered : offers d = .ok es) :
    (es.filter fun e => e.1.same c).map (·.2) = if provides c d then [d.id] else [] := by
  obtain ⟨vs, provided, made⟩ := bind_eq_ok.1 offered
  obtain rfl := pure_eq_ok.1 made
  obtain ⟨hashable, rfl⟩ := Value.distinctKeys_eq_ok.1 provided
  have plain : (Value.distinct d.offeredCapabilities).countP (fun v => v.token.same c) =
      (Value.distinct d.offeredCapabilities).countP (·.same c) := by
    refine List.countP_congr fun v hv => ?_
    rw [Value.token_of_hashable (hashable v (Value.mem_distinct hv))]
  rw [entries_under, plain, Value.countP_distinct hashable, provides]
  split <;> rfl

theorem flatten_under {ds : List Definition} {found : List (List (Value × String))}
    (each : List.Forall₂ (fun d es => offers d = .ok es) ds found) :
    (found.flatten.filter fun e => e.1.same c).map (·.2) =
      (ds.filter (provides c)).map (·.id) := by
  induction each with
  | nil => rfl
  | cons here _ ih =>
    rw [List.flatten_cons, List.filter_append, List.map_append, offers_under here, ih,
      List.filter_cons]
    split <;> rfl

/-- The services under a capability: those that provide it, templates apart. -/
theorem providing_under (indexed : ofGraph g = .ok index) :
    (index.providing.filter fun e => e.1.same c).map (·.2) =
      (g.definitions.filter fun d => !d.isAbstract && provides c d).map (·.id) := by
  obtain ⟨found, offered, made⟩ := bind_eq_ok.1 indexed
  obtain rfl := pure_eq_ok.1 made
  rw [flatten_under (mapM_eq_ok.1 offered), List.filter_filter]
  simp only [Bool.and_comm]

/-- The services that are marked as default for a capability, once for each mark. -/
theorem default_under (indexed : ofGraph g = .ok index) :
    (index.default.filter fun e => e.1.same c).map (·.2) =
      (g.definitions.filter fun d => !d.isAbstract).flatMap fun d =>
        List.replicate (marks c d) d.id := by
  obtain ⟨found, -, made⟩ := bind_eq_ok.1 indexed
  obtain rfl := pure_eq_ok.1 made
  rw [List.filter_flatMap, List.map_flatMap]
  exact List.flatMap_congr fun d _ => entries_under

end CapabilityIndex

namespace Autowire

theorem providers_eligible (indexed : CapabilityIndex.ofGraph g = .ok index)
    (hashable : c.unhashable? = none) :
    (index.providers c).filter (fun id => id != service) =
      Failure.sortTexts ((eligible g service c).map (·.id)) := by
  rw [CapabilityIndex.providers, CapabilityIndex.under, Value.token_of_hashable hashable,
    CapabilityIndex.providing_under indexed, Failure.filter_sortTexts, List.filter_map,
    List.filter_filter, eligible]
  simp only [Function.comp_def, Bool.and_comm]

theorem mem_eligible : d ∈ eligible g service c ↔
    d ∈ g.definitions ∧ d.isAbstract = false ∧ provides c d = true ∧ d.id ≠ service := by
  simp [eligible, and_assoc]

/-- The defaults that count are the marks of candidates. -/
theorem defaults_marked (service : String) (indexed : CapabilityIndex.ofGraph g = .ok index)
    (unique : g.ids.Nodup) (hashable : c.unhashable? = none) :
    (index.defaults c).filter
        (Failure.sortTexts ((eligible g service c).map (·.id))).contains =
      Failure.sortTexts ((marked g service c).map (·.id)) := by
  have counts (d : Definition) (hd : d ∈ g.definitions) :
      (Failure.sortTexts ((eligible g service c).map (·.id))).contains d.id = true ↔
        d ∈ eligible g service c := by
    rw [List.contains_iff_mem, (Failure.sortTexts_perm _).mem_iff, List.mem_map]
    constructor
    · rintro ⟨d', hd', same⟩
      exact eq_of_id_eq unique (mem_eligible.1 hd').1 hd same ▸ hd'
    · exact fun hd => ⟨d, hd, rfl⟩
  have marks_of_eligible : (marked g service c).map (·.id) =
      (g.definitions.filter fun d => !d.isAbstract).flatMap fun d =>
        if provides c d && d.id != service then List.replicate (marks c d) d.id else [] := by
    rw [marked, List.map_flatMap, ← flatMap_filter, List.filter_filter, eligible]
    simp only [List.map_replicate, Bool.and_comm, Bool.and_left_comm]
  rw [CapabilityIndex.defaults, CapabilityIndex.under, Value.token_of_hashable hashable,
    CapabilityIndex.default_under indexed, Failure.filter_sortTexts, List.filter_flatMap,
    marks_of_eligible]
  refine congrArg _ (List.flatMap_congr fun d hd => ?_)
  obtain ⟨hd, concrete⟩ := List.mem_filter.1 hd
  have chosen : (Failure.sortTexts ((eligible g service c).map (·.id))).contains d.id =
      (provides c d && d.id != service) := by
    rw [Bool.eq_iff_iff, counts d hd, mem_eligible]
    simp_all
  rw [List.filter_replicate, chosen]

/-- A choice by capability goes by the candidates alone: the only one, the only mark among several,
or none. -/
theorem choose_eq (service : String) (indexed : CapabilityIndex.ofGraph g = .ok index)
    (unique : g.ids.Nodup) {r : Request} (unnamed : r.name = none) (wanted : r.capability = some c)
    (hashable : c.unhashable? = none) :
    choose g index service r =
      match eligible g service c, marked g service c with
      | [], _ =>
        if r.mayBeAbsent then .ok .absent
        else .error (.fault (.noCandidate ⟨service, r.argument, c,
          g.ids.filter fun id => id != service⟩) none)
      | [p], _ => .ok (.only p.id)
      | _, [p] => .ok (.chosen p.id)
      | ps, _ => .error (.fault (.ambiguous ⟨service, r.argument, c,
          Failure.sortTexts (ps.map (·.id))⟩) none) := by
  have defaults := defaults_marked service indexed unique hashable
  unfold choose
  rw [unnamed, wanted]
  simp only [providers_eligible indexed hashable]
  unfold chooseAmong
  generalize eligible g service c = ps at defaults ⊢
  rcases ps with _ | ⟨p, _ | ⟨q, rest⟩⟩
  · rw [List.map_nil, Failure.sortTexts_eq_nil.2 rfl]
  · rw [List.map_singleton, Failure.sortTexts_eq_singleton.2 rfl]
  · obtain ⟨x, y, ids, several⟩ := Failure.exists_sortTexts
      ((p :: q :: rest).map (·.id)) (by simp)
    rw [several] at defaults ⊢
    simp only [defaults]
    rcases marked g service c with _ | ⟨m, _ | ⟨n, others⟩⟩
    · rw [List.map_nil, Failure.sortTexts_eq_nil.2 rfl]
      simp only [several]
    · rw [List.map_singleton, Failure.sortTexts_eq_singleton.2 rfl]
    · obtain ⟨_, _, _, marks⟩ := Failure.exists_sortTexts
        ((m :: n :: others).map (·.id)) (by simp)
      rw [marks]
      simp only [several]

/-- A candidate counts once if it is the default for the capability, and else not at all: it does
not say so twice, and no value that cannot be a key passes for the capability by its text. -/
def MarksOnce (c : Value) (d : Definition) : Prop :=
  marks c d = if d.defaultFor.any (·.same c) then 1 else 0

theorem marked_eq_favourites (once : ∀ p ∈ eligible g service c, MarksOnce c p) :
    marked g service c = favourites g service c := by
  have each : marked g service c =
      (eligible g service c).flatMap fun d => if d.defaultFor.any (·.same c) then [d] else [] := by
    refine List.flatMap_congr fun d hd => ?_
    rw [once d hd]
    split <;> rfl
  rw [each, ← flatMap_filter, favourites, List.flatMap_singleton']

/-- The service that is chosen for a request by capability. It is the only candidate, or among
several the one that is marked once while no other is marked. Without candidates the request goes
without a service where it may, and fails where it may not. With several it fails unless there is
just one mark. Where no candidate is marked twice the marks are the favourites. -/
theorem choose_selects (service : String) (indexed : CapabilityIndex.ofGraph g = .ok index)
    (unique : g.ids.Nodup) {r : Request} (unnamed : r.name = none) (wanted : r.capability = some c)
    (hashable : c.unhashable? = none) :
    (∀ id, (∃ choice, choose g index service r = .ok choice ∧
        slotArgument choice = .reference ⟨id, false, false⟩) ↔
      (eligible g service c).map (·.id) = [id] ∨
        2 ≤ (eligible g service c).length ∧ (marked g service c).map (·.id) = [id]) ∧
    (choose g index service r = .ok .absent ↔
      eligible g service c = [] ∧ r.mayBeAbsent = true) ∧
    (∀ e, choose g index service r = .error e ↔
      (eligible g service c = [] ∧ r.mayBeAbsent = false ∧
        e = .fault (.noCandidate ⟨service, r.argument, c,
          g.ids.filter fun id => id != service⟩) none) ∨
      (2 ≤ (eligible g service c).length ∧ (marked g service c).length ≠ 1 ∧
        e = .fault (.ambiguous ⟨service, r.argument, c,
          Failure.sortTexts ((eligible g service c).map (·.id))⟩) none)) ∧
    ((∀ p ∈ eligible g service c, MarksOnce c p) →
      marked g service c = favourites g service c) := by
  have rule := choose_eq service indexed unique unnamed wanted hashable
  refine ⟨fun id => ?_, ?_, fun e => ?_, marked_eq_favourites⟩ <;> rw [rule] <;>
    generalize eligible g service c = ps <;> generalize marked g service c = ms <;>
    rcases ps with _ | ⟨p, _ | ⟨q, rest⟩⟩
  · cases r.mayBeAbsent <;> simp [slotArgument]
  · simp [slotArgument]
  · rcases ms with _ | ⟨m, _ | ⟨n, others⟩⟩ <;> simp [slotArgument]
  · cases r.mayBeAbsent <;> simp
  · simp
  · rcases ms with _ | ⟨m, _ | ⟨n, others⟩⟩ <;> simp
  · cases r.mayBeAbsent <;> simp [eq_comm (a := e)]
  · simp
  · rcases ms with _ | ⟨m, _ | ⟨n, others⟩⟩ <;> simp [eq_comm (a := e)]

/-- Two services that send mail, the first of which is the default for `defaults`. -/
def postOffice (defaults : List Value) : Graph where
  definitions := [
    { id := "smtp", capabilities := [.str "mail"], defaultFor := defaults },
    { id := "sendmail", capabilities := [.str "mail"] },
    { id := "newsletter", autowired := true }]

/-- The request of a newsletter for what sends mail. -/
def wantsMail : Request := ⟨"#0", some (.str "mail"), none, false, false⟩

theorem choose_selects_mail : ∃ once twice,
    CapabilityIndex.ofGraph (postOffice [.str "mail"]) = .ok once ∧
    CapabilityIndex.ofGraph (postOffice [.str "mail", .str "mail"]) = .ok twice ∧
    (∃ choice, choose (postOffice [.str "mail"]) once "newsletter" wantsMail = .ok choice ∧
      slotArgument choice = .reference ⟨"smtp", false, false⟩) ∧
    (favourites (postOffice [.str "mail", .str "mail"]) "newsletter" (.str "mail")).map (·.id) =
      ["smtp"] ∧
    choose (postOffice [.str "mail", .str "mail"]) twice "newsletter" wantsMail =
      .error (.fault (.ambiguous ⟨"newsletter", "#0", .str "mail", ["sendmail", "smtp"]⟩) none) := by
  have once := choose_selects "newsletter" (g := postOffice [.str "mail"]) (r := wantsMail)
    (c := .str "mail") rfl (by decide) rfl rfl rfl
  have twice := choose_selects "newsletter" (g := postOffice [.str "mail", .str "mail"])
    (r := wantsMail) (c := .str "mail") rfl (by decide) rfl rfl rfl
  have sorted : ["sendmail", "smtp"] = Failure.sortTexts ["smtp", "sendmail"] :=
    Failure.eq_sortTexts (.swap _ _ _) (by decide)
  refine ⟨_, _, rfl, rfl, (once.1 "smtp").2 (.inr ⟨by decide, by decide⟩), by decide,
    (twice.2.2.1 _).2 (.inr ⟨by decide, by decide, ?_⟩)⟩
  rw [sorted]
  rfl

end Autowire

end Wiring
