import Wiring.Autowire.Resolver
import Wiring.Proofs.Graph.Registered

/-!
# What autowiring makes of one definition

Filling puts references and null values where slots are, and adds keyword arguments. Afterwards
nothing is left to fill: there are no slots, and every parameter that is to be autowired is given,
or keeps its default because nothing provides what it asks for.
-/

namespace Wiring

/-- What autowiring puts in the place of a slot or a parameter. -/
def Argument.IsFilling (a : Argument) : Prop :=
  (∃ id, a = .reference ⟨id, false, false⟩) ∨ a = .literal .null

theorem Argument.IsFilling.isSlot {a : Argument} (h : a.IsFilling) : a.isSlot = false := by
  obtain ⟨id, rfl⟩ | rfl := h <;> rfl

namespace Autowire

variable {g : Graph} {index : CapabilityIndex} {hints : Table Hint} {s s' : Filling} {u : Unit}
  {d d' d'' : Definition} {p : Parameter}

/-- `d'` is `d` with fillings in place of arguments, and besides them. -/
structure Wired (d d' : Definition) : Prop where
  frame : d' = { d with arguments := d'.arguments, keywords := d'.keywords }
  length : d'.arguments.length = d.arguments.length
  arguments : ∀ a ∈ d'.allArguments, a ∈ d.allArguments ∨ a.IsFilling

theorem Wired.refl (d : Definition) : Wired d d := ⟨rfl, rfl, fun _ ha => .inl ha⟩

theorem Wired.trans (d d' d'' : Definition) (h : Wired d d') (h' : Wired d' d'') : Wired d d'' where
  frame := by rw [h'.frame, h.frame]
  length := h'.length.trans h.length
  arguments a ha := (h'.arguments a ha).elim (h.arguments a) .inr

/-- Something is given for the parameter in place `i`. -/
def Given (d : Definition) (i : Nat) (p : Parameter) : Prop :=
  (i < d.arguments.length ∧ p.kind ≠ .keywordOnly) ∨ Table.has d.keywords p.name = true

/-- The parameter keeps its default: nothing is asked for, or nothing provides it. -/
def Idle (g : Graph) (index : CapabilityIndex) (hints : Table Hint) (service : String) (i : Nat)
    (p : Parameter) : Prop :=
  p.kind ≠ .positionalOnly ∧ p.hasDefault = true ∧ ∀ hint, hints.get? p.name = some hint →
    choose g index service (.ofParameter p (placeLabel i (some p)) hint) = .ok .absent

/-- What the annotations of parameters mean, where there are any. -/
def hintsFor (d : Definition) (parameters : List Parameter) : Except Failure (Table Hint) :=
  if parameters.isEmpty then .ok [] else Definition.annotations d

/-- Nothing is left to fill. -/
structure Filled (g : Graph) (index : CapabilityIndex) (d : Definition) : Prop where
  slots : ∀ a ∈ d.allArguments, a.isSlot = false
  parameters : d.autowired = true → ∃ parameters hints, Definition.inspect d = .ok parameters ∧
    hintsFor d parameters = .ok hints ∧
    ∀ e ∈ parameters.zipIdx, Given d e.2 e.1 ∨ Idle g index hints d.id e.2 e.1

/-- The choice for a request goes by identifiers and aliases alone. -/
theorem choose_changed {R : Definition → Definition → Prop} {g' : Graph} (h : Graph.Changed R g g') :
    choose g' index = choose g index := by
  funext service r
  unfold choose chooseAmong
  rw [h.resolveAlias_eq, h.has_eq, h.ids_eq]

/-! ## Single fillings -/

theorem fulfil_ok {r : Request} {choice : Choice} (h : fulfil g index r s = .ok choice s') :
    choose g index s.definition.id r = .ok choice ∧ s'.definition = s.definition := by
  unfold fulfil at h
  simp only [Run.bind_ok, Run.get_ok] at h
  obtain ⟨_, _, ⟨rfl, rfl⟩, h⟩ := h
  cases hc : choose g index s.definition.id r with
  | error e => simp [hc] at h
  | ok c =>
    rw [hc] at h
    cases c with
    | only id =>
      simp only [Run.bind_ok, Run.modify_ok, Run.pure_ok] at h
      obtain ⟨_, _, rfl, rfl, rfl⟩ := h
      exact ⟨rfl, rfl⟩
    | _ =>
      obtain ⟨rfl, rfl⟩ := Run.pure_ok.1 h
      exact ⟨rfl, rfl⟩

theorem isFilling_slotArgument (c : Choice) : (slotArgument c).IsFilling := by
  cases c
  · exact .inl ⟨_, rfl⟩
  · exact .inl ⟨_, rfl⟩
  · exact .inr rfl

/-- Positions up to `k` are done: what stood in a slot is filled, all else is as it was. -/
structure PositionsDone (d : Definition) (k : Nat) (s : Filling) : Prop where
  frame : s.definition = { d with arguments := s.definition.arguments }
  length : s.definition.arguments.length = d.arguments.length
  arguments : ∀ (i : Nat) (b : Argument),
    s.definition.arguments[i]? = some b → d.arguments[i]? = some b ∨ b.IsFilling
  slots : ∀ (i : Nat) (b : Argument), i < k → s.definition.arguments[i]? = some b → b.isSlot = false

theorem PositionsDone.step {k : Nat} {parameters : List Parameter} {a : Argument}
    (ha : d.arguments[k]? = some a) (inv : PositionsDone d k s)
    (h : fillPosition g index parameters hints k a s = .ok () s') : PositionsDone d (k + 1) s' := by
  cases a with
  | autowire slot =>
    simp only [fillPosition, Run.bind_ok, Run.modify_ok] at h
    obtain ⟨choice, s₁, hf, rfl⟩ := h
    have hd := (fulfil_ok hf).2
    have filled := isFilling_slotArgument choice
    refine ⟨?_, ?_, fun i b hb => ?_, fun i b hi hb => ?_⟩
    · simp only [hd]
      rw [inv.frame]
    · simp only [hd, List.length_set]
      exact inv.length
    · simp only [hd, List.getElem?_set] at hb
      split at hb
      next e =>
        split at hb
        · exact .inr (Option.some.inj hb ▸ filled)
        · cases hb
      next => exact inv.arguments i b hb
    · simp only [hd, List.getElem?_set] at hb
      split at hb
      next e =>
        split at hb
        · exact Option.some.inj hb ▸ filled.isSlot
        · cases hb
      next e => exact inv.slots i b (by omega) hb
  | _ =>
    simp only [fillPosition, Run.pure_ok, true_and] at h
    subst h
    refine ⟨inv.frame, inv.length, inv.arguments, fun i b hi hb => ?_⟩
    rcases Nat.lt_succ_iff_lt_or_eq.1 hi with hi | rfl
    · exact inv.slots i b hi hb
    · rcases inv.arguments i b hb with h | h
      · rw [← Option.some.inj (ha.symm.trans h)]
        rfl
      · exact h.isSlot

theorem positions_done {parameters : List Parameter}
    (h : (d.arguments.zipIdx.forM fun (a, i) =>
      fillPosition g index parameters hints i a : Fill Unit) s = .ok u s')
    (start : s.definition = d) : PositionsDone d d.arguments.length s' := by
  have run := Run.forM_ok_induct (fun done s => PositionsDone d done.length s) h
    ⟨by rw [start], by rw [start], fun i b hb => .inl (by rwa [start] at hb), by simp⟩
    fun done e rest s₁ s₂ split inv run => by
      have he : d.arguments.zipIdx[done.length]? = some e := by simp [split]
      rw [List.getElem?_zipIdx] at he
      obtain ⟨a, ha, rfl⟩ := Option.map_eq_some_iff.1 he
      rw [List.length_append, List.length_singleton]
      exact inv.step ha (by simpa using run)
  simpa using run

/-! ## Keywords -/

/-- Keyword arguments may be added to and filled, but none is lost and nothing else changes. -/
structure KeywordsGrown (d : Definition) (s : Filling) : Prop where
  frame : s.definition = { d with keywords := s.definition.keywords }
  names : ∀ name, Table.has d.keywords name = true →
    Table.has s.definition.keywords name = true
  arguments : ∀ e ∈ s.definition.keywords, e ∈ d.keywords ∨ e.2.IsFilling

theorem KeywordsGrown.start (h : s.definition = d) : KeywordsGrown d s := by
  refine ⟨by rw [h], fun name hn => by rwa [h], fun e he => .inl (by rwa [h] at he)⟩

theorem KeywordsGrown.put {name : String} {a : Argument} (inv : KeywordsGrown d s)
    (ha : a.IsFilling) (h : putKeyword name a s = .ok u s') :
    KeywordsGrown d s' ∧ Table.has s'.definition.keywords name = true ∧
      ∀ e ∈ s'.definition.keywords, (e ∈ s.definition.keywords ∧ e.1 ≠ name) ∨ e.2.IsFilling := by
  obtain rfl := Run.modify_ok.1 h
  refine ⟨⟨?_, fun other ho => ?_, fun e he => ?_⟩, ?_, fun e he => ?_⟩
  · simp only []
    rw [inv.frame]
  · exact Table.has_iff.2 (Table.mem_names_put.2 (.inl (Table.has_iff.1 (inv.names other ho))))
  · rcases Table.mem_put he with he | rfl
    · exact inv.arguments e he
    · exact .inr ha
  · exact Table.has_iff.2 (Table.mem_names_put.2 (.inr rfl))
  · by_cases hn : e.1 = name
    · refine .inr ?_
      simp only [Table.put] at he
      split at he
      · obtain ⟨f, hf, rfl⟩ := List.mem_map.1 he
        split
        · exact ha
        next hne => simp_all
      next hne =>
        rcases List.mem_append.1 he with he | he
        · exact absurd (Table.has_iff.2 (hn ▸ Table.mem_names he)) hne
        · exact List.mem_singleton.1 he ▸ ha
    · rcases Table.mem_put he with he | rfl
      · exact .inl ⟨he, hn⟩
      · exact absurd rfl hn

/-- Slots of keyword arguments are filled, and nothing else of the definition changes. -/
theorem keywords_done
    (h : (d.keywords.forM fun (name, a) => fillKeyword g index hints name a : Fill Unit) s =
      .ok u s') (start : s.definition = d) :
    KeywordsGrown d s' ∧ ∀ e ∈ s'.definition.keywords, e.2.isSlot = false := by
  obtain ⟨grown, filled⟩ := Run.forM_ok_induct
    (fun done s => KeywordsGrown d s ∧
      ∀ e ∈ s.definition.keywords, e.2.isSlot = true → e ∉ done)
    h ⟨.start start, by simp⟩ fun done c rest s₁ s₂ _ ⟨inv, filled⟩ run => by
      obtain ⟨name, a⟩ := c
      cases a with
      | autowire slot =>
        simp only [fillKeyword, Run.bind_ok] at run
        obtain ⟨choice, s₃, hf, run⟩ := run
        have hd := (fulfil_ok hf).2
        have inv₃ : KeywordsGrown d s₃ := by
          refine ⟨by rw [hd]; exact inv.frame, fun n hn => ?_, fun e he => ?_⟩
          · rw [hd]
            exact inv.names n hn
          · exact inv.arguments e (by rwa [hd] at he)
        obtain ⟨grown, -, entries⟩ := inv₃.put (isFilling_slotArgument choice) run
        refine ⟨grown, fun e he slot hdone => ?_⟩
        rcases entries e he with ⟨he, hn⟩ | hfill
        · rcases List.mem_append.1 hdone with hdone | hdone
          · exact filled e (by rwa [hd] at he) slot hdone
          · exact hn (by rw [List.mem_singleton.1 hdone])
        · simp [hfill.isSlot] at slot
      | _ =>
        simp only [fillKeyword, Run.pure_ok, true_and] at run
        subst run
        refine ⟨inv, fun e he slot hdone => ?_⟩
        rcases List.mem_append.1 hdone with hdone | hdone
        · exact filled e he slot hdone
        · simp [List.mem_singleton.1 hdone, Argument.isSlot] at slot
  refine ⟨grown, fun e he => ?_⟩
  cases hs : e.2.isSlot with
  | false => rfl
  | true =>
    refine absurd ((grown.arguments e he).resolve_right fun hf => ?_) (filled e he hs)
    simp [hf.isSlot] at hs

/-! ## Parameters -/

/-- What filling a parameter keeps, and that the parameter is seen to. -/
structure ParameterDone (g : Graph) (index : CapabilityIndex) (hints : Table Hint)
    (d : Definition) (i : Nat) (p : Parameter) (s s' : Filling) : Prop where
  grown : KeywordsGrown d s'
  slots : ∀ e ∈ s'.definition.keywords, e.2.isSlot = false
  names : ∀ name, Table.has s.definition.keywords name = true →
    Table.has s'.definition.keywords name = true
  seen : Given s'.definition i p ∨ Idle g index hints d.id i p

theorem parameter_put {i : Nat} {a : Argument} {s₁ : Filling} (inv : KeywordsGrown d s)
    (slots : ∀ e ∈ s.definition.keywords, e.2.isSlot = false)
    (same : s₁.definition = s.definition) (ha : a.IsFilling)
    (h : putKeyword p.name a s₁ = .ok u s') : ParameterDone g index hints d i p s s' := by
  have inv₁ : KeywordsGrown d s₁ := by
    refine ⟨by rw [same]; exact inv.frame, fun n hn => ?_, fun e he => ?_⟩
    · rw [same]
      exact inv.names n hn
    · exact inv.arguments e (by rwa [same] at he)
  obtain ⟨grown, given, entries⟩ := inv₁.put ha h
  refine ⟨grown, fun e he => ?_, fun name hn => ?_, .inl (.inr given)⟩
  · rcases entries e he with ⟨he, -⟩ | hf
    · exact slots e (by rwa [same] at he)
    · exact hf.isSlot
  · obtain rfl := Run.modify_ok.1 h
    refine Table.has_iff.2 (Table.mem_names_put.2 (.inl (Table.has_iff.1 ?_)))
    rwa [same]

theorem parameter_done {covered i : Nat} (inv : KeywordsGrown d s)
    (slots : ∀ e ∈ s.definition.keywords, e.2.isSlot = false)
    (length : d.arguments.length = covered)
    (h : fillParameter g index hints covered i p s = .ok u s') :
    ParameterDone g index hints d i p s s' := by
  have hid : s.definition.id = d.id := by rw [inv.frame]
  have hargs : s.definition.arguments = d.arguments := by rw [inv.frame]
  unfold fillParameter at h
  simp only [Run.bind_ok, Run.get_ok] at h
  obtain ⟨_, _, ⟨rfl, rfl⟩, h⟩ := h
  by_cases hcov : ((decide (i < covered) && p.kind != .keywordOnly) ||
      Table.has s.definition.keywords p.name) = true
  · rw [if_pos hcov] at h
    obtain ⟨-, rfl⟩ := Run.pure_ok.1 h
    refine ⟨inv, slots, fun _ hn => hn, .inl ?_⟩
    simpa [Given, hargs, length] using hcov
  rw [if_neg hcov] at h
  by_cases hkind : p.kind = .positionalOnly
  · rw [if_pos hkind] at h
    simp at h
  rw [if_neg hkind] at h
  cases hh : hints.get? p.name with
  | none =>
    rw [hh] at h
    by_cases hdef : p.hasDefault = true
    · simp only [hdef, Bool.not_true, Bool.false_eq_true, if_false, Run.pure_ok] at h
      obtain ⟨-, rfl⟩ := h
      exact ⟨inv, slots, fun _ hn => hn, .inr ⟨hkind, hdef, by simp [hh]⟩⟩
    · simp [hdef] at h
  | some hint =>
    rw [hh] at h
    simp only [Run.bind_ok] at h
    obtain ⟨choice, s₁, hf, h⟩ := h
    obtain ⟨hchoose, same⟩ := fulfil_ok hf
    rw [hid] at hchoose
    cases choice with
    | absent =>
      by_cases hdef : p.hasDefault = true
      · simp only [hdef, Bool.not_true, Bool.false_eq_true, if_false, Run.pure_ok, true_and] at h
        subst h
        refine ⟨⟨by rw [same]; exact inv.frame, fun n hn => ?_, fun e he => ?_⟩, fun e he => ?_,
          fun n hn => ?_, .inr ⟨hkind, hdef, fun hint' hh' => ?_⟩⟩
        · rw [same]
          exact inv.names n hn
        · exact inv.arguments e (by rwa [same] at he)
        · exact slots e (by rwa [same] at he)
        · rwa [same]
        · obtain rfl := Option.some.inj (hh.symm.trans hh')
          exact hchoose
      · simp only [hdef, Bool.not_false, if_true] at h
        exact parameter_put inv slots same (.inr rfl) h
    | _ => exact parameter_put inv slots same (isFilling_slotArgument _) h

/-! ## The whole definition -/

theorem require_ok {α : Type} {x : Except Failure α} {a : α} :
    require x s = .ok a s' ↔ x = .ok a ∧ s = s' := by
  cases x <;> simp [require]

theorem Given.mono {i : Nat} {d d' : Definition} (h : Given d i p)
    (length : d'.arguments.length = d.arguments.length)
    (names : ∀ name, Table.has d.keywords name = true → Table.has d'.keywords name = true) :
    Given d' i p :=
  h.imp (fun h => length ▸ h) (names p.name)

/-- Parameters are seen to one after the other. -/
theorem parameters_done {covered : Nat} {parameters : List Parameter} (start : s.definition = d)
    (slots : ∀ e ∈ d.keywords, e.2.isSlot = false) (length : d.arguments.length = covered)
    (h : (parameters.zipIdx.forM fun (p, i) => fillParameter g index hints covered i p : Fill Unit)
      s = .ok u s') :
    KeywordsGrown d s' ∧ (∀ e ∈ s'.definition.keywords, e.2.isSlot = false) ∧
      ∀ e ∈ parameters.zipIdx, Given s'.definition e.2 e.1 ∨ Idle g index hints d.id e.2 e.1 :=
  Run.forM_ok_induct
    (fun done s => KeywordsGrown d s ∧ (∀ e ∈ s.definition.keywords, e.2.isSlot = false) ∧
      ∀ e ∈ done, Given s.definition e.2 e.1 ∨ Idle g index hints d.id e.2 e.1)
    h ⟨.start start, by rwa [start], by simp⟩
    fun done c rest s₁ s₂ _ ⟨inv, slots, seen⟩ run => by
      have step := parameter_done inv slots length run
      refine ⟨step.grown, step.slots, fun e he => ?_⟩
      rcases List.mem_append.1 he with he | he
      · refine (seen e he).imp_left fun hg => hg.mono ?_ step.names
        rw [step.grown.frame, inv.frame]
      · exact List.mem_singleton.1 he ▸ step.seen

theorem PositionsDone.wired {k : Nat} (h : PositionsDone d k s) : Wired d s.definition := by
  have hk : s.definition.keywords = d.keywords := by rw [h.frame]
  refine ⟨by rw [h.frame], h.length, fun a ha => ?_⟩
  rcases List.mem_append.1 ha with ha | ha
  · obtain ⟨i, hi⟩ := List.mem_iff_getElem?.1 ha
    exact (h.arguments i a hi).imp_left fun hd =>
      List.mem_append_left _ (List.mem_of_getElem? hd)
  · exact .inl (List.mem_append_right _ (hk ▸ ha))

theorem KeywordsGrown.wired (h : KeywordsGrown d s) : Wired d s.definition := by
  have ha : s.definition.arguments = d.arguments := by rw [h.frame]
  refine ⟨by rw [h.frame], by rw [ha], fun a hmem => ?_⟩
  rcases List.mem_append.1 hmem with hmem | hmem
  · exact .inl (List.mem_append_left _ (ha ▸ hmem))
  · obtain ⟨e, he, rfl⟩ := List.mem_map.1 hmem
    exact (h.arguments e he).imp_left fun hd =>
      List.mem_append_right _ (List.mem_map_of_mem hd)

theorem Wired.inspect_eq (h : Wired d d') : Definition.inspect d' = Definition.inspect d := by
  rw [h.frame]
  rfl

theorem Wired.hintsFor_eq (h : Wired d d') : hintsFor d' = hintsFor d := by
  rw [h.frame]
  rfl

theorem Wired.autowired_eq (h : Wired d d') : d'.autowired = d.autowired := by rw [h.frame]

theorem Wired.id_eq (h : Wired d d') : d'.id = d.id := by rw [h.frame]

/-- Fills all slots, and what is not given where that is wanted. -/
def fillAll (g : Graph) (index : CapabilityIndex) (d : Definition) (parameters : List Parameter)
    (hints : Table Hint) : Fill Unit := do
  d.arguments.zipIdx.forM fun (a, i) => fillPosition g index parameters hints i a
  d.keywords.forM fun (name, a) => fillKeyword g index hints name a
  if d.autowired then
    parameters.zipIdx.forM fun (p, i) => fillParameter g index hints d.arguments.length i p

/-- Filling leaves a definition alone, or fills all of it. -/
theorem fill_ok {notes : List Note} : fill g index ⟨d, notes⟩ = .ok u s' ↔
    (isWanted d = false ∧ ⟨d, notes⟩ = s') ∨
      (isWanted d = true ∧ ∃ parameters hints, Definition.inspect d = .ok parameters ∧
        hintsFor d parameters = .ok hints ∧
        fillAll g index d parameters hints ⟨d, notes⟩ = .ok u s') := by
  unfold fill
  rw [Run.get_bind]
  by_cases wanted : isWanted d = true
  · simp only [wanted, Bool.not_true, Bool.false_eq_true, if_false, Run.bind_ok, require_ok,
      Bool.true_eq_false, false_and, false_or, true_and]
    constructor
    · rintro ⟨parameters, _, ⟨hp, rfl⟩, h⟩
      by_cases e : parameters.isEmpty = true
      · refine ⟨parameters, [], hp, by simp [hintsFor, e], ?_⟩
        simpa [e, fillAll] using h
      · rw [if_neg e, Run.bind_ok] at h
        obtain ⟨hints, _, hr, h⟩ := h
        obtain ⟨hh, rfl⟩ := require_ok.1 hr
        refine ⟨parameters, hints, hp, by simpa [hintsFor, e] using hh, ?_⟩
        simpa [fillAll] using h
    · rintro ⟨parameters, hints, hp, hh, h⟩
      refine ⟨parameters, _, ⟨hp, rfl⟩, ?_⟩
      by_cases e : parameters.isEmpty = true
      · obtain rfl : [] = hints := by simpa [hintsFor, e] using hh
        simpa [e, fillAll] using h
      · rw [if_neg e, Run.bind_ok]
        refine ⟨hints, _, require_ok.2 ⟨by simpa [hintsFor, e] using hh, rfl⟩, ?_⟩
        simpa [fillAll] using h
  · simp [wanted]

theorem fillAll_spec {parameters : List Parameter} (hp : Definition.inspect d = .ok parameters)
    (hh : hintsFor d parameters = .ok hints) (start : s.definition = d)
    (h : fillAll g index d parameters hints s = .ok u s') :
    Wired d s'.definition ∧ Filled g index s'.definition := by
  simp only [fillAll, Run.bind_ok] at h
  obtain ⟨_, s₁, hpos, _, s₂, hkey, h⟩ := h
  have positions := positions_done hpos start
  have hk : s₁.definition.keywords = d.keywords := by rw [positions.frame]
  obtain ⟨grown, slots⟩ := keywords_done (d := s₁.definition) (by rwa [hk]) rfl
  have ha : s₂.definition.arguments = s₁.definition.arguments := by rw [grown.frame]
  have wired := positions.wired.trans _ _ _ grown.wired
  have filled_arguments : ∀ a ∈ s₂.definition.arguments, a.isSlot = false := by
    intro a hmem
    obtain ⟨i, hi⟩ := List.mem_iff_getElem?.1 (ha ▸ hmem)
    have hlt : i < s₁.definition.arguments.length := (List.getElem?_eq_some_iff.1 hi).1
    exact positions.slots i a (positions.length ▸ hlt) hi
  have whole {s : Filling} (wired : Wired d s.definition)
      (same : s.definition.arguments = s₂.definition.arguments)
      (slots : ∀ e ∈ s.definition.keywords, e.2.isSlot = false)
      (seen : d.autowired = true → ∀ e ∈ parameters.zipIdx,
        Given s.definition e.2 e.1 ∨ Idle g index hints d.id e.2 e.1) :
      Wired d s.definition ∧ Filled g index s.definition := by
    refine ⟨wired, fun a hmem => ?_, fun auto => ⟨parameters, hints, ?_, ?_, ?_⟩⟩
    · rcases List.mem_append.1 hmem with hmem | hmem
      · exact filled_arguments a (same ▸ hmem)
      · obtain ⟨e, he, rfl⟩ := List.mem_map.1 hmem
        exact slots e he
    · rw [wired.inspect_eq, hp]
    · rw [wired.hintsFor_eq, hh]
    · rw [wired.id_eq]
      exact seen (wired.autowired_eq ▸ auto)
  by_cases auto : d.autowired = true
  · rw [if_pos auto] at h
    obtain ⟨grown', slots', seen⟩ := parameters_done (d := s₂.definition) rfl slots wired.length h
    have same : s'.definition.arguments = s₂.definition.arguments := by rw [grown'.frame]
    exact whole (wired.trans _ _ _ grown'.wired) same slots' fun _ => wired.id_eq ▸ seen
  · rw [if_neg auto] at h
    obtain ⟨-, rfl⟩ := Run.pure_ok.1 h
    exact whole wired rfl slots fun h => absurd h auto

/-- When a definition is filled nothing is left to fill, and all that it had is there. -/
theorem fill_spec {notes : List Note} (h : fill g index ⟨d, notes⟩ = .ok u s') :
    Wired d s'.definition ∧ Filled g index s'.definition := by
  rcases fill_ok.1 h with ⟨idle, rfl⟩ | ⟨-, parameters, hints, hp, hh, h⟩
  · simp only [isWanted, Bool.or_eq_false_iff, List.any_eq_false, Bool.not_eq_true] at idle
    exact ⟨.refl d, idle.2, fun auto => by simp [idle.1] at auto⟩
  · exact fillAll_spec hp hh rfl h

/-- `d'` is what `d` is filled with. -/
def Wires (g : Graph) (index : CapabilityIndex) (d d' : Definition) : Prop :=
  ∃ s, fill g index { definition := d } = .ok () s ∧ s.definition = d'

theorem Wires.unique (h : Wires g index d d') (h' : Wires g index d d'') :
    d' = d'' := by
  obtain ⟨s, run, rfl⟩ := h
  obtain ⟨s', run', rfl⟩ := h'
  obtain ⟨-, rfl⟩ := EStateM.Result.ok.inj (run.symm.trans run')
  rfl

theorem Wires.spec (h : Wires g index d d') :
    Wired d d' ∧ Filled g index d' := by
  obtain ⟨s, run, rfl⟩ := h
  exact fill_spec run

/-- Nothing is done for a parameter that something is given for, or that keeps its default. -/
theorem fillParameter_idle {i : Nat} {notes : List Note}
    (h : Given d i p ∨ Idle g index hints d.id i p) :
    fillParameter g index hints d.arguments.length i p ⟨d, notes⟩ = .ok () ⟨d, notes⟩ := by
  unfold fillParameter
  rw [Run.get_bind]
  by_cases given : Given d i p
  · have covered : ((decide (i < d.arguments.length) && p.kind != .keywordOnly) ||
        Table.has d.keywords p.name) = true := by
      simpa [Given] using given
    rw [if_pos covered]
    rfl
  · have open' : ¬ ((decide (i < d.arguments.length) && p.kind != .keywordOnly) ||
        Table.has d.keywords p.name) = true := by
      simpa [Given] using given
    obtain ⟨hkind, hdef, absent⟩ := h.resolve_left given
    rw [if_neg open', if_neg hkind]
    cases hh : hints.get? p.name with
    | none =>
      simp only [hdef]
      rfl
    | some hint =>
      simp only [hdef]
      have stays : fulfil g index (.ofParameter p (placeLabel i (some p)) hint) ⟨d, notes⟩ =
          .ok .absent ⟨d, notes⟩ := by
        unfold fulfil
        rw [Run.get_bind]
        simp only [absent hint hh]
        rfl
      exact Run.bind_ok.2 ⟨_, _, stays, rfl⟩

/-- Where nothing is left to fill, a definition stays as it is. -/
theorem fill_of_filled {notes : List Note} (h : Filled g index d) :
    fill g index ⟨d, notes⟩ = .ok () ⟨d, notes⟩ := by
  refine fill_ok.2 ?_
  cases auto : d.autowired with
  | false => exact .inl ⟨by simpa [isWanted, auto] using h.slots, rfl⟩
  | true =>
    obtain ⟨parameters, hints, hp, hh, seen⟩ := h.parameters auto
    refine .inr ⟨by simp [isWanted, auto], parameters, hints, hp, hh, ?_⟩
    have positions : (d.arguments.zipIdx.forM fun (a, i) =>
        fillPosition g index parameters hints i a : Fill Unit) ⟨d, notes⟩ = .ok () ⟨d, notes⟩ := by
      refine Run.forM_idle fun e he => ?_
      have hs := h.slots e.1 (List.mem_append_left _ (List.fst_mem_of_mem_zipIdx he))
      cases ha : e.1 <;> simp_all [fillPosition, Argument.isSlot]
    have keywords : (d.keywords.forM fun (name, a) => fillKeyword g index hints name a : Fill Unit)
        ⟨d, notes⟩ = .ok () ⟨d, notes⟩ := by
      refine Run.forM_idle fun e he => ?_
      have hs := h.slots e.2 (List.mem_append_right _ (List.mem_map_of_mem he))
      cases ha : e.2 <;> simp_all [fillKeyword, Argument.isSlot]
    have given : (parameters.zipIdx.forM fun (p, i) =>
        fillParameter g index hints d.arguments.length i p : Fill Unit) ⟨d, notes⟩ =
          .ok () ⟨d, notes⟩ :=
      Run.forM_idle fun e he => fillParameter_idle (seen e he)
    simp only [fillAll, auto, if_true]
    exact Run.bind_ok.2 ⟨_, _, positions, Run.bind_ok.2 ⟨_, _, keywords, given⟩⟩

end Autowire

end Wiring
