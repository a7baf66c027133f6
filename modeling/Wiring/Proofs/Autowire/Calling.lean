import Wiring.Proofs.Autowire.Completion
import Wiring.Proofs.Factory.Inspection
import Wiring.Proofs.Pass.Autowiring

/-!
# Calls with what autowiring leaves

Autowiring counts positional arguments along the parameters that take one argument each. That agrees
with how a call counts them: where explicit arguments are consistent with the signature, the call can
be made with them and with what is filled in and added.
-/

namespace Wiring

open Graph Signature

namespace Autowire

variable {g g' : Graph} {index : CapabilityIndex} {parameters ps : List Parameter}
  {hints : Table Hint} {d d' : Definition} {p : Parameter} {i : Nat} {a b : Argument}
  {t : Table Argument} {name : String} {f : Factory}

/-! ## What is kept and what is added -/

theorem complete_kept {service : String} {request : Slot → Request} (explicit : a.isSlot = false) :
    complete g index service request a = .ok a := by
  cases a with
  | autowire slot => cases explicit
  | _ => rfl

/-- What is added for one parameter. -/
theorem addition_ok (h : addition g index hints d i p = .ok t) :
    (Given d i p ∧ t = []) ∨ (¬ Given d i p ∧ p.kind ≠ .positionalOnly ∧
      (p.hasDefault = true ∧ t = [] ∨ ∃ b, t = [(p.name, b)])) := by
  unfold addition at h
  split at h
  next given => exact .inl ⟨given, (Except.ok.inj h).symm⟩
  next given =>
    refine .inr ⟨given, ?_⟩
    split at h
    · cases h
    next kind =>
      refine ⟨kind, ?_⟩
      split at h
      · split at h
        next default => exact .inl ⟨default, (Except.ok.inj h).symm⟩
        · cases h
      · cases hc : choose g index d.id (.ofParameter p (placeLabel i (some p)) ‹Hint›) with
        | error e => simp [hc, Except.map] at h
        | ok c =>
          rw [hc] at h
          obtain rfl := Except.ok.inj h
          dsimp only
          split
          next absent => exact .inl ⟨absent.2, rfl⟩
          · exact .inr ⟨_, rfl⟩

/-- `d'` is `d` with its arguments completed, the keyword arguments `keywords` in place of its own and
those of `added` after them. -/
structure Extends (g : Graph) (index : CapabilityIndex) (parameters : List Parameter)
    (hints : Table Hint) (d d' : Definition) (keywords : Table Argument)
    (added : List (Table Argument)) : Prop where
  positions : List.Forall₂ (fun e b =>
    complete g index d.id (positionRequest parameters hints e.2) e.1 = .ok b)
    d.arguments.zipIdx d'.arguments
  named : List.Forall₂ (fun e e' =>
    e'.1 = e.1 ∧ complete g index d.id (keywordRequest hints e.1) e.2 = .ok e'.2) d.keywords keywords
  additions : List.Forall₂ (fun e t => addition g index hints d e.2 e.1 = .ok t)
    (if d.autowired then parameters.zipIdx else []) added
  whole : d' = { d with arguments := d'.arguments, keywords := keywords ++ added.flatten }

/-- The keyword arguments keep their names. -/
theorem keywords_completed {ks ls : Table Argument} (h : (ks.mapM fun e =>
    (complete g index d.id (keywordRequest hints e.1) e.2).map (Prod.mk e.1)) = .ok ls) :
    List.Forall₂ (fun e e' => e'.1 = e.1 ∧
      complete g index d.id (keywordRequest hints e.1) e.2 = .ok e'.2) ks ls := by
  refine (mapM_eq_ok.1 h).imp fun e e' he => ?_
  cases hc : complete g index d.id (keywordRequest hints e.1) e.2 with
  | error => simp [hc, Except.map] at he
  | ok b =>
    rw [hc] at he
    obtain rfl := Except.ok.inj he
    exact ⟨rfl, rfl⟩

theorem names_of_keywords {ks ls : Table Argument} (h : (ks.mapM fun e =>
    (complete g index d.id (keywordRequest hints e.1) e.2).map (Prod.mk e.1)) = .ok ls) :
    Table.names ls = Table.names ks :=
  (forall₂_map_eq.1 ((keywords_completed h).imp fun _ _ he => he.1.symm)).symm

theorem completed_ok (h : completed g index d parameters hints = .ok d') :
    ∃ keywords added, Extends g index parameters hints d d' keywords added := by
  obtain ⟨arguments, ha, h⟩ := bind_eq_ok.1 h
  obtain ⟨keywords, hk, h⟩ := bind_eq_ok.1 h
  obtain ⟨added, hadd, h⟩ := bind_eq_ok.1 h
  obtain rfl := pure_eq_ok.1 h
  exact ⟨keywords, added, mapM_eq_ok.1 ha, keywords_completed hk, mapM_eq_ok.1 hadd, rfl⟩

namespace Extends

variable {keywords : Table Argument} {added : List (Table Argument)}

theorem length (h : Extends g index parameters hints d d' keywords added) :
    d'.arguments.length = d.arguments.length := by
  simpa using h.positions.length_eq.symm

theorem names (h : Extends g index parameters hints d d' keywords added) :
    Table.names keywords = Table.names d.keywords :=
  (forall₂_map_eq.1 (h.named.imp fun _ _ he => he.1.symm)).symm

theorem keywords_eq (h : Extends g index parameters hints d d' keywords added) :
    d'.keywords = keywords ++ added.flatten := by rw [h.whole]

theorem names_eq (h : Extends g index parameters hints d d' keywords added) :
    Table.names d'.keywords = Table.names d.keywords ++ Table.names added.flatten := by
  rw [h.keywords_eq, ← h.names, Table.names, List.map_append]
  rfl

theorem argument_at (h : Extends g index parameters hints d d' keywords added)
    (ha : d.arguments[i]? = some a) : ∃ b, d'.arguments[i]? = some b ∧
      complete g index d.id (positionRequest parameters hints i) a = .ok b := by
  refine forall₂_getElem? (j := i) (b := (a, i)) h.positions.flip ?_
  rw [List.getElem?_zipIdx, ha]
  simp

theorem keyword_at (h : Extends g index parameters hints d d' keywords added)
    (ha : Table.get? d.keywords name = some a) : ∃ b, Table.get? d'.keywords name = some b ∧
      complete g index d.id (keywordRequest hints name) a = .ok b := by
  have found : ∃ b, Table.get? keywords name = some b ∧
      complete g index d.id (keywordRequest hints name) a = .ok b := by
    have named := h.named
    clear h
    generalize d.keywords = ks at named ha
    induction named with
    | nil => cases ha
    | cons here _ ih =>
      rw [Table.get?_cons, here.1]
      rw [Table.get?_cons] at ha
      split at ha
      next same =>
        rw [if_pos same, ← Option.some.inj ha, ← same]
        exact ⟨_, rfl, here.2⟩
      next other =>
        rw [if_neg other]
        exact ih ha
  obtain ⟨b, hb, made⟩ := found
  refine ⟨b, ?_, made⟩
  rw [h.keywords_eq, Table.get?_append, hb]
  rfl

/-- Keyword arguments are added for parameters that nothing is given for. -/
theorem of_mem_added (h : Extends g index parameters hints d d' keywords added)
    (hn : name ∈ Table.names added.flatten) : ∃ p i, parameters[i]? = some p ∧ p.name = name ∧
      ¬ Given d i p ∧ p.kind ≠ .positionalOnly := by
  obtain ⟨e, he, rfl⟩ := List.mem_map.1 hn
  obtain ⟨t, ht, he⟩ := List.mem_flatten.1 he
  obtain ⟨⟨p, i⟩, hp, made⟩ := forall₂_mem_right h.additions ht
  have hp : (p, i) ∈ parameters.zipIdx := by
    split at hp
    · exact hp
    · cases hp
  rcases addition_ok made with ⟨-, rfl⟩ | ⟨missing, kind, ⟨-, rfl⟩ | ⟨b, rfl⟩⟩
  · cases he
  · cases he
  · obtain rfl := List.mem_singleton.1 he
    exact ⟨p, i, List.mem_zipIdx_iff_getElem?.1 hp, rfl, missing, kind⟩

/-- No keyword argument is added twice. -/
theorem added_unique (h : Extends g index parameters hints d d' keywords added)
    (distinct : (parameters.map (·.name)).Nodup) : (Table.names added.flatten).Nodup := by
  have sublist : List.Sublist (Table.names added.flatten)
      ((if d.autowired then parameters.zipIdx else []).map (·.1.name)) := by
    have additions := h.additions
    generalize (if d.autowired then parameters.zipIdx else []) = es at additions
    clear h
    induction additions with
    | nil => exact .slnil
    | @cons e t es ts here _ ih =>
      have first : List.Sublist (Table.names t) [e.1.name] := by
        rcases addition_ok here with ⟨-, rfl⟩ | ⟨-, -, ⟨-, rfl⟩ | ⟨b, rfl⟩⟩ <;> simp [Table.names]
      rw [List.flatten_cons, Table.names, List.map_append]
      exact first.append ih
  refine List.Nodup.sublist sublist ?_
  split
  · rwa [names_zipIdx]
  · exact .nil

/-- Each parameter is given, or keeps its default. -/
theorem seen (h : Extends g index parameters hints d d' keywords added) (auto : d.autowired = true)
    (hp : parameters[i]? = some p) :
    p.hasDefault = true ∨ (i < d.arguments.length ∧ p.kind ≠ .keywordOnly) ∨
      p.name ∈ Table.names d'.keywords := by
  have additions := h.additions
  rw [if_pos auto] at additions
  obtain ⟨t, ht, made⟩ := forall₂_mem_left additions
    ((List.mem_zipIdx_iff_getElem? (x := (p, i))).2 hp)
  rw [h.names_eq, List.mem_append]
  rcases addition_ok made with ⟨given | given, -⟩ | ⟨-, -, ⟨default, -⟩ | ⟨b, rfl⟩⟩
  · exact .inr (.inl given)
  · exact .inr (.inr (.inl (Table.has_iff.1 given)))
  · exact .inl default
  · exact .inr (.inr (.inr (Table.mem_names
      (List.mem_flatten_of_mem ht (List.mem_singleton_self _)))))

end Extends

/-! ## The call -/

section Calls

variable {keywords : Table Argument} {added : List (Table Argument)}

/-- Keyword arguments are added for parameters that a call binds by keyword and that have none. -/
theorem Extends.added_for
    (h : Extends g index (ps.filter fun p => !p.collects) hints d d' keywords added)
    (legal : Legal ps) (hn : name ∈ Table.names added.flatten) : ∃ p ∈ ps, p.name = name ∧
      p.collects = false ∧ p.kind ≠ .positionalOnly ∧
      p ∉ (positional ps).take d.arguments.length ∧ name ∉ Table.names d.keywords := by
  obtain ⟨p, i, hi, rfl, missing, kind⟩ := h.of_mem_added hn
  obtain ⟨hp, single⟩ := List.mem_filter.1 (List.mem_of_getElem? hi)
  exact ⟨p, hp, rfl, by simpa using single, kind,
    fun taken => missing (.inl ((legal.mem_take_positional hi).1 taken)),
    fun given => missing (.inr (Table.has_iff.2 given))⟩

/-- What a definition is completed with fits where its explicit arguments do. -/
theorem Extends.consistent
    (h : Extends g index (ps.filter fun p => !p.collects) hints d d' keywords added)
    (legal : Legal ps) (consistent : Consistent ps d.arguments d.keywords) :
    Consistent ps d'.arguments d'.keywords := by
  have distinct : ((ps.filter fun p => !p.collects).map (·.name)).Nodup :=
    legal.unique.sublist (List.filter_sublist.map _)
  refine ⟨?_, fun name hn => ?_, fun p hp kind hn => ?_, ?_, fun p hp kind => ?_⟩
  · rw [h.length]
    exact consistent.room
  · rw [h.names_eq] at hn
    rcases List.mem_append.1 hn with hn | hn
    · exact consistent.known name hn
    · obtain ⟨p, hp, same, single, kind, -⟩ := h.added_for legal hn
      exact .inl ⟨p, hp, single, kind, same⟩
  · rw [h.length] at hp
    rw [h.names_eq] at hn
    rcases List.mem_append.1 hn with hn | hn
    · exact consistent.once p hp kind hn
    · obtain ⟨q, hq, same, -, -, open', -⟩ := h.added_for legal hn
      have hmem : p ∈ ps := List.mem_of_mem_filter (List.mem_of_mem_take hp)
      exact open' (legal.eq_of_name hq hmem same ▸ hp)
  · rw [h.names_eq]
    refine List.nodup_append.2 ⟨consistent.unique, h.added_unique distinct, ?_⟩
    rintro x hx _ hn rfl
    obtain ⟨p, -, -, -, -, -, missing⟩ := h.added_for legal hn
    exact missing hx
  · rw [h.length, h.names_eq, List.mem_append, not_or]
    refine (consistent.byPosition p hp kind).imp_right fun unnamed => ⟨unnamed, fun hn => ?_⟩
    obtain ⟨q, hq, same, -, other, -⟩ := h.added_for legal hn
    exact other (legal.eq_of_name hq hp same ▸ kind)

/-- Where nothing is missing that cannot be added, the call has all that it needs. -/
theorem Extends.complete
    (h : Extends g index (ps.filter fun p => !p.collects) hints d d' keywords added)
    (legal : Legal ps) (auto : d.autowired = true) : Complete ps d'.arguments d'.keywords := by
  intro p hp single
  have hmem : p ∈ ps.filter fun p => !p.collects := List.mem_filter.2 ⟨hp, by simp [single]⟩
  obtain ⟨i, hi⟩ := List.mem_iff_getElem?.1 hmem
  rcases h.seen auto hi with default | given | given
  · exact .inl default
  · exact .inr (.inl (h.length ▸ (legal.mem_take_positional hi).2 given))
  · exact .inr (.inr given)

end Calls

/-- What the completion of a definition with a factory is made of, where receivers are known. -/
theorem completion_extends (hf : d.factory = some f) (regular : f.Regular)
    (known : ∀ r, f.receiver = some r → Definition.receiverNames.contains r.name = true)
    (hps : f.callParameters? = some ps) (auto : d.autowired = true)
    (h : completion g index d = .ok d') : ∃ hints keywords added,
      Extends g index (ps.filter fun p => !p.collects) hints d d' keywords added := by
  have wanted : isWanted d = true := by simp [isWanted, auto]
  rw [completion, if_pos wanted] at h
  obtain ⟨parameters, hp, h⟩ := bind_eq_ok.1 h
  obtain ⟨hints, -, h⟩ := bind_eq_ok.1 h
  rw [Definition.inspect_eq hf regular hps, Factory.strays_eq_nil known, List.nil_append] at hp
  obtain rfl := Except.ok.inj hp
  exact ⟨hints, completed_ok h⟩

/-- The signature of a courier, who takes a message and any number of parts. -/
def courierParameters : List Parameter := [
  ⟨"message", .positionalOnly, false⟩, ⟨"parts", .rest, false⟩,
  ⟨"transport", .keywordOnly, false⟩, ⟨"retries", .keywordOnly, true⟩]

/-- A courier that is given two positional arguments. -/
def courier : Definition where
  id := "courier"
  factory := some {
    type := ⟨"send", .function⟩
    lineage := []
    maker := "send"
    receiver := none
    parameters := courierParameters
    hints := .ok [("transport", .marked (.type ⟨"Transport", .declared⟩) [.named "smtp"])] }
  arguments := [.literal (.str "hello"), .literal (.int 1)]
  autowired := true

/-- A courier beside the service that it sends with. -/
def courierService : Graph where
  definitions := [{ id := "smtp" }, courier]

end Autowire

end Wiring
