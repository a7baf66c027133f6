import Wiring.Proofs.Autowire.Filling
import Wiring.Proofs.Table

/-!
# What autowiring makes of a definition, as a function

The work on a definition goes from place to place and changes it on the way. All that counts for a
place is in the definition as it was at first: what is put in the place of a slot, and which keyword
arguments are added for a parameter. So the outcome is given by a function, failures included.
-/

namespace Wiring

/-! ## Computations that do what a function says -/

namespace Run

variable {ε σ α β γ : Type} {x : EStateM ε σ α} {s : σ} {r : Except ε β}
  {Q : β → α → σ → Prop}

/-- The computation fails as `r` does, or both succeed, with results and a final state of which `Q`
holds. -/
def Yields (x : EStateM ε σ α) (s : σ) (r : Except ε β) (Q : β → α → σ → Prop) : Prop :=
  match x s, r with
  | .ok a s', .ok b => Q b a s'
  | .error e _, .error e' => e = e'
  | _, _ => False

namespace Yields

theorem pure {a : α} {b : β} (h : Q b a s) : Yields (pure a : EStateM ε σ α) s (.ok b) Q := h

theorem throw {e : ε} : Yields (throw e : EStateM ε σ α) s (.error e : Except ε β) Q := rfl

theorem cases (h : Yields x s r Q) : (∃ a s' b, x s = .ok a s' ∧ r = .ok b ∧ Q b a s') ∨
    ∃ e s', x s = .error e s' ∧ r = .error e := by
  unfold Yields at h
  cases hs : x s with
  | ok a s' =>
    rw [hs] at h
    cases r with
    | ok b => exact .inl ⟨a, s', b, rfl, rfl, h⟩
    | error e => exact h.elim
  | error e s' =>
    rw [hs] at h
    cases r with
    | ok b => exact h.elim
    | error e' => exact .inr ⟨e, s', rfl, by rw [show e = e' from h]⟩

theorem modify {f : σ → σ} {Q : β → Unit → σ → Prop} {b : β} (h : Q b () (f s)) :
    Yields (modify f : EStateM ε σ Unit) s (.ok b) Q := h

theorem get_bind {f : σ → EStateM ε σ α} (h : Yields (f s) s r Q) :
    Yields (MonadState.get >>= f) s r Q := h

theorem after {f : α → EStateM ε σ γ} {a : α} {s' : σ} {Q : β → γ → σ → Prop}
    (hx : x s = .ok a s') (hf : Yields (f a) s' r Q) : Yields (x >>= f) s r Q := by
  have run : (x >>= f) s = f a s' := by
    show EStateM.bind x f s = _
    rw [EStateM.bind, hx]
  unfold Yields at hf ⊢
  rwa [run]

theorem bind {δ : Type} {f : α → EStateM ε σ γ} {h : β → Except ε δ} {R : δ → γ → σ → Prop}
    (hx : Yields x s r Q) (hf : ∀ b a s', Q b a s' → Yields (f a) s' (h b) R) :
    Yields (x >>= f) s (r >>= h) R := by
  rcases hx.cases with ⟨a, s', b, run, rfl, hq⟩ | ⟨e, s', run, rfl⟩
  · exact .after run (hf b a s' hq)
  · have stops : (x >>= f) s = .error e s' := by
      show EStateM.bind x f s = _
      rw [EStateM.bind, run]
    unfold Yields
    rw [stops]
    rfl

theorem map {δ : Type} {f : β → δ} {R : δ → α → σ → Prop} (hx : Yields x s r Q)
    (hf : ∀ b a s', Q b a s' → R (f b) a s') : Yields x s (r.map f) R := by
  unfold Yields
  rcases hx.cases with ⟨a, s', b, run, rfl, hq⟩ | ⟨e, s', run, rfl⟩
  · rw [run]
    exact hf b a s' hq
  · rw [run]
    rfl

theorem bind_map {δ : Type} {f : α → EStateM ε σ γ} {h : β → δ} {R : δ → γ → σ → Prop}
    (hx : Yields x s r Q) (hf : ∀ b a s', Q b a s' → Yields (f a) s' (.ok (h b)) R) :
    Yields (x >>= f) s (r.map h) R := by
  have step : r.map h = r >>= fun b => .ok (h b) := by cases r <;> rfl
  exact step ▸ hx.bind hf

theorem mono {R : β → α → σ → Prop} (hx : Yields x s r Q) (h : ∀ b a s', Q b a s' → R b a s') :
    Yields x s r R := by
  have same : r.map id = r := by cases r <;> rfl
  exact same ▸ hx.map h

/-- A loop over items makes a list of results, one for each. What is kept, `I`, is about the results
so far and the items that are left. -/
theorem forM {f : γ → EStateM ε σ Unit} {h : γ → Except ε β} {cs : List γ}
    (I : List β → List γ → σ → Prop) (start : I [] cs s)
    (step : ∀ done c rest s, I done (c :: rest) s →
      Yields (f c) s (h c) fun b _ s' => I (done ++ [b]) rest s') :
    Yields (cs.forM f) s (cs.mapM h) fun bs _ s' => I bs [] s' := by
  suffices key : ∀ rest done s, I done rest s →
      Yields (rest.forM f) s (rest.mapM h) fun bs _ s' => I (done ++ bs) [] s' from
    key cs [] s start
  intro rest
  induction rest with
  | nil =>
    intro done s inv
    refine .pure ?_
    simpa using inv
  | cons c rest ih =>
    intro done s inv
    rw [forM_cons, List.mapM_cons]
    refine (step done c rest s inv).bind fun b _ s₁ inv₁ => ?_
    rw [bind_pure_comp]
    refine (ih (done ++ [b]) s₁ inv₁).map fun bs _ s' inv' => ?_
    simpa using inv'

end Yields

end Run

namespace Autowire

variable {g : Graph} {index : CapabilityIndex} {parameters : List Parameter} {hints : Table Hint}
  {d d' : Definition} {p : Parameter} {s : Filling} {i : Nat} {a : Argument} {name : String}

instance : Decidable (Given d i p) := inferInstanceAs (Decidable (_ ∨ _))

/-- What stands in the place of an argument: for a slot what is chosen, all else as it is. -/
def complete (g : Graph) (index : CapabilityIndex) (service : String) (request : Slot → Request) :
    Argument → Except Failure Argument
  | .autowire slot => (choose g index service (request slot)).map slotArgument
  | a => .ok a

/-- The request of a slot in a place among positional arguments. -/
def positionRequest (parameters : List Parameter) (hints : Table Hint) (i : Nat) (slot : Slot) :
    Request :=
  .ofSlot slot (placeLabel i parameters[i]?) (parameters[i]?.bind fun p => hints.get? p.name)

/-- The request of a slot that is given by keyword. -/
def keywordRequest (hints : Table Hint) (name : String) (slot : Slot) : Request :=
  .ofSlot slot ("$" ++ name) (hints.get? name)

/-- The keyword arguments that are added for the parameter in place `i`. -/
def addition (g : Graph) (index : CapabilityIndex) (hints : Table Hint) (d : Definition) (i : Nat)
    (p : Parameter) : Except Failure (Table Argument) :=
  if Given d i p then .ok []
  else if p.kind = .positionalOnly then .error (.breach (.positionalOnly p.name d.id))
  else
    match hints.get? p.name with
    | none =>
      if p.hasDefault then .ok []
      else .error (.breach (.unannotated (placeLabel i (some p)) d.id))
    | some hint =>
      (choose g index d.id (.ofParameter p (placeLabel i (some p)) hint)).map fun choice =>
        if choice = .absent ∧ p.hasDefault = true then [] else [(p.name, slotArgument choice)]

/-- The definition with its slots filled, and what is not given where that is wanted. -/
def completed (g : Graph) (index : CapabilityIndex) (d : Definition) (parameters : List Parameter)
    (hints : Table Hint) : Except Failure Definition := do
  let arguments ← d.arguments.zipIdx.mapM fun e =>
    complete g index d.id (positionRequest parameters hints e.2) e.1
  let keywords ← d.keywords.mapM fun e =>
    (complete g index d.id (keywordRequest hints e.1) e.2).map (Prod.mk e.1)
  let added ← (if d.autowired then parameters.zipIdx else []).mapM fun e =>
    addition g index hints d e.2 e.1
  return { d with arguments, keywords := keywords ++ added.flatten }

/-- What becomes of a definition, which is left alone where it has nothing to autowire. -/
def completion (g : Graph) (index : CapabilityIndex) (d : Definition) : Except Failure Definition :=
  if isWanted d then do
    let parameters ← Definition.inspect d
    let hints ← hintsFor d parameters
    completed g index d parameters hints
  else .ok d

/-! ## Single places -/

theorem fulfil_yields {r : Request} :
    Run.Yields (fulfil g index r) s (choose g index s.definition.id r)
      fun b a s' => a = b ∧ s'.definition = s.definition := by
  unfold fulfil
  refine .get_bind ?_
  dsimp only
  cases choose g index s.definition.id r with
  | error e => exact .throw
  | ok c => cases c <;> exact ⟨rfl, rfl⟩

theorem require_yields {α : Type} {x : Except Failure α} :
    Run.Yields (require x) s x fun b a s' => x = .ok b ∧ a = b ∧ s' = s := by
  cases x with
  | ok a => exact .pure ⟨rfl, rfl, rfl⟩
  | error e => exact .throw

theorem fillPosition_yields {before rest : List Argument}
    (hs : s.definition = { d with arguments := before ++ a :: rest }) :
    Run.Yields (fillPosition g index parameters hints before.length a) s
      (complete g index d.id (positionRequest parameters hints before.length) a)
      fun b _ s' => s'.definition = { d with arguments := before ++ b :: rest } := by
  have same : s.definition.id = d.id := by rw [hs]
  cases a with
  | autowire slot =>
    rw [complete, ← same]
    refine fulfil_yields.bind_map fun c c' s₁ h => ?_
    obtain ⟨rfl, hd⟩ := h
    refine .modify ?_
    simp [hd, hs]
  | _ => exact .pure hs

theorem fillKeyword_yields {before rest : Table Argument}
    (unique : (before ++ (name, a) :: rest).names.Nodup)
    (hs : s.definition = { d with keywords := before ++ (name, a) :: rest }) :
    Run.Yields (fillKeyword g index hints name a) s
      (complete g index d.id (keywordRequest hints name) a)
      fun b _ s' => s'.definition = { d with keywords := before ++ (name, b) :: rest } := by
  have same : s.definition.id = d.id := by rw [hs]
  cases a with
  | autowire slot =>
    rw [complete, ← same]
    refine fulfil_yields.bind_map fun c c' s₁ h => ?_
    obtain ⟨rfl, hd⟩ := h
    refine .modify ?_
    simp only [hd, hs, Table.put_middle unique]
  | _ => exact .pure hs

theorem fillParameter_yields :
    Run.Yields (fillParameter g index hints s.definition.arguments.length i p) s
      (addition g index hints s.definition i p) fun added _ s' =>
        s'.definition = { s.definition with keywords := s.definition.keywords ++ added } ∧
        ∀ n ∈ added.names, n = p.name := by
  unfold fillParameter addition
  refine .get_bind ?_
  by_cases given : Given s.definition i p
  · have covered : ((decide (i < s.definition.arguments.length) && p.kind != .keywordOnly) ||
        Table.has s.definition.keywords p.name) = true := by
      simpa [Given] using given
    rw [if_pos covered, if_pos given]
    exact .pure (by simp [Table.names])
  · have open' : ¬ ((decide (i < s.definition.arguments.length) && p.kind != .keywordOnly) ||
        Table.has s.definition.keywords p.name) = true := by
      simpa [Given] using given
    have new : ¬ Table.has s.definition.keywords p.name = true := fun h => given (.inr h)
    rw [if_neg open', if_neg given]
    by_cases hkind : p.kind = .positionalOnly
    · rw [if_pos hkind, if_pos hkind]
      exact .throw
    rw [if_neg hkind, if_neg hkind]
    cases hints.get? p.name with
    | none =>
      dsimp only
      cases p.hasDefault with
      | true => exact .pure (by simp [Table.names])
      | false => exact .throw
    | some hint =>
      refine fulfil_yields.bind_map fun c c' s₁ h => ?_
      obtain ⟨rfl, hd⟩ := h
      have put (b : Argument) : Run.Yields (putKeyword p.name b) s₁
          (.ok [(p.name, b)] : Except Failure (Table Argument)) fun added _ s' =>
            s'.definition = { s.definition with keywords := s.definition.keywords ++ added } ∧
            ∀ n ∈ added.names, n = p.name := by
        refine .modify ?_
        simp [hd, Table.put, new, Table.names]
      cases c' with
      | absent =>
        cases hdef : p.hasDefault with
        | true => exact .pure (by simp [hd, Table.names])
        | false => exact put _
      | _ => exact put _

/-! ## The whole definition -/

theorem given_congr (length : d'.arguments.length = d.arguments.length)
    (names : Table.names d'.keywords = Table.names d.keywords) : Given d' i p ↔ Given d i p := by
  unfold Given
  rw [length, Table.has_iff, Table.has_iff, names]

/-- What is added for a parameter goes by what is given, not by what it is given. -/
theorem addition_congr (id : d'.id = d.id) (given : Given d' i p ↔ Given d i p) :
    addition g index hints d' i p = addition g index hints d i p := by
  unfold addition
  rw [id]
  simp only [given]

theorem positions_yield (hs : s.definition = d) :
    Run.Yields (d.arguments.zipIdx.forM fun (a, i) => fillPosition g index parameters hints i a) s
      (d.arguments.zipIdx.mapM fun e =>
        complete g index d.id (positionRequest parameters hints e.2) e.1)
      fun arguments _ s' => arguments.length = d.arguments.length ∧
        s'.definition = { d with arguments } := by
  refine (Run.Yields.forM
    (fun (done : List Argument) (rest : List (Argument × Nat)) (s : Filling) =>
      ∃ as : List Argument, rest = as.zipIdx done.length ∧
        done.length + as.length = d.arguments.length ∧
        s.definition = { d with arguments := done ++ as }) ⟨d.arguments, rfl, Nat.zero_add _, hs⟩
    fun done e rest s ⟨as, left, length, inv⟩ => ?_).mono fun bs _ s' ⟨as, left, length, inv⟩ => ?_
  · cases as with
    | nil => cases left
    | cons a as =>
      obtain ⟨rfl, rfl⟩ := List.cons.inj left
      refine (fillPosition_yields inv).mono fun b _ s' h => ⟨as, by simp, ?_, by simpa using h⟩
      simp only [List.length_append, List.length_cons, List.length_nil] at length ⊢
      omega
  · obtain rfl : as = [] := List.zipIdx_eq_nil_iff.1 left.symm
    exact ⟨length, by simpa using inv⟩

theorem keywords_yield (unique : (Table.names d.keywords).Nodup) (hs : s.definition = d) :
    Run.Yields (d.keywords.forM fun (name, a) => fillKeyword g index hints name a) s
      (d.keywords.mapM fun e =>
        (complete g index d.id (keywordRequest hints e.1) e.2).map (Prod.mk e.1))
      fun keywords _ s' => Table.names keywords = Table.names d.keywords ∧
        s'.definition = { d with keywords } := by
  refine (Run.Yields.forM
    (fun (done rest : Table Argument) (s : Filling) =>
      (done ++ rest).names = Table.names d.keywords ∧
      s.definition = { d with keywords := done ++ rest }) ⟨rfl, hs⟩
    fun done e rest s ⟨names, inv⟩ => ?_).mono fun bs _ s' inv => by simpa using inv
  exact (fillKeyword_yields (names ▸ unique) inv).map fun b _ s' h =>
    ⟨by simpa [Table.names] using names, by simpa using h⟩

theorem names_zipIdx : parameters.zipIdx.map (·.1.name) = parameters.map (·.name) := by
  conv_rhs => rw [← List.zipIdx_map_fst 0 parameters, List.map_map]
  rfl

theorem parameters_yield (unique : (parameters.map (·.name)).Nodup) (hs : s.definition = d) :
    Run.Yields (parameters.zipIdx.forM fun (p, i) =>
        fillParameter g index hints d.arguments.length i p) s
      (parameters.zipIdx.mapM fun e => addition g index hints d e.2 e.1)
      fun added _ s' => s'.definition = { d with keywords := d.keywords ++ added.flatten } := by
  refine (Run.Yields.forM
    (fun (done : List (Table Argument)) (rest : List (Parameter × Nat)) (s : Filling) =>
      s.definition = { d with keywords := d.keywords ++ done.flatten } ∧
      (rest.map (·.1.name)).Nodup ∧ ∀ e ∈ rest, e.1.name ∉ Table.names done.flatten)
    ⟨by simpa using hs, ?_, by simp [Table.names]⟩
    fun done e rest s inv => ?_).mono fun bs _ s' inv => inv.1
  · rwa [names_zipIdx]
  · obtain ⟨inv, unique, new⟩ := inv
    obtain ⟨p, i⟩ := e
    obtain ⟨apart, unique⟩ := List.nodup_cons.1 unique
    have length : s.definition.arguments.length = d.arguments.length := by rw [inv]
    have given : Given s.definition i p ↔ Given d i p := by
      have unnamed := new (p, i) List.mem_cons_self
      have has : Table.has s.definition.keywords p.name = Table.has d.keywords p.name := by
        rw [inv, Bool.eq_iff_iff, Table.has_iff, Table.has_iff, Table.names, List.map_append,
          List.mem_append]
        exact or_iff_left unnamed
      unfold Given
      rw [length, has]
    have id : s.definition.id = d.id := by rw [inv]
    rw [← addition_congr id given, ← length]
    refine fillParameter_yields.mono fun added _ s' filled => ?_
    obtain ⟨h, names⟩ := filled
    refine ⟨by rw [h, inv]; simp, unique, fun e he hn => ?_⟩
    rw [List.flatten_append, Table.names, List.map_append, List.mem_append] at hn
    rcases hn with hn | hn
    · exact new e (List.mem_cons_of_mem _ he) hn
    · exact apart (List.mem_map.2 ⟨e, he, names _ (by simpa [Table.names] using hn)⟩)

theorem fillAll_yields (unique : (Table.names d.keywords).Nodup)
    (distinct : (parameters.map (·.name)).Nodup) (hs : s.definition = d) :
    Run.Yields (fillAll g index d parameters hints) s (completed g index d parameters hints)
      fun d' _ s' => s'.definition = d' := by
  unfold fillAll completed
  refine (positions_yield hs).bind fun arguments _ s₁ ⟨length, h₁⟩ => ?_
  refine (keywords_yield unique (d := { d with arguments }) h₁).bind
    fun keywords _ s₂ ⟨names, h₂⟩ => ?_
  rw [bind_pure_comp]
  by_cases auto : d.autowired = true
  · rw [if_pos auto, if_pos auto]
    have same (i : Nat) (p : Parameter) : addition g index hints { d with arguments, keywords } i p =
        addition g index hints d i p :=
      addition_congr rfl (given_congr length names)
    have filled : Run.Yields (parameters.zipIdx.forM fun (p, i) =>
        fillParameter g index hints arguments.length i p) s₂ _ _ := parameters_yield distinct h₂
    simp only [length, same] at filled
    exact filled.map fun added _ s' h => h
  · rw [if_neg auto, if_neg auto]
    exact .pure (by simpa using h₂)

/-- The work on a definition does what the function says. -/
theorem fill_yields {notes : List Note} (unique : (Table.names d.keywords).Nodup)
    (distinct : ∀ parameters, Definition.inspect d = .ok parameters →
      (parameters.map (·.name)).Nodup) :
    Run.Yields (fill g index) ⟨d, notes⟩ (completion g index d) fun d' _ s => s.definition = d' := by
  unfold fill completion
  refine .get_bind ?_
  by_cases wanted : isWanted d = true
  · simp only [wanted, Bool.not_true, Bool.false_eq_true, if_false, if_true]
    refine require_yields.bind fun parameters ps s ⟨hp, same, here⟩ => ?_
    subst same here
    have filled (hints : Table Hint) : Run.Yields (fillAll g index d ps hints) ⟨d, notes⟩
        (completed g index d ps hints) fun d' _ s => s.definition = d' :=
      fillAll_yields unique (distinct ps hp) rfl
    unfold hintsFor
    split
    · exact filled []
    · refine require_yields.bind fun hints hs s ⟨_, same, here⟩ => ?_
      subst same here
      exact filled hs
  · simp only [wanted]
    exact .pure rfl

/-- What the work on a definition makes of it, the function says. -/
theorem Wires.completion_eq (h : Wires g index d d') (unique : (Table.names d.keywords).Nodup)
    (distinct : ∀ parameters, Definition.inspect d = .ok parameters →
      (parameters.map (·.name)).Nodup) : completion g index d = .ok d' := by
  obtain ⟨s, run, rfl⟩ := h
  have filled : Run.Yields (fill g index) ⟨d, []⟩ (completion g index d)
      fun d' _ s => s.definition = d' := fill_yields unique distinct
  rcases filled.cases with ⟨_, s', d', run', made, rfl⟩ | ⟨e, s', run', -⟩
  · obtain ⟨-, rfl⟩ := EStateM.Result.ok.inj (run.symm.trans run')
    exact made
  · cases run.symm.trans run'

end Autowire

namespace Build

variable {α : Type} {g : Graph} {index : CapabilityIndex} {d : Definition}

/-- What a job on a graph comes to. -/
def result (job : Build α) (g : Graph) : Except Failure α :=
  match job { graph := g } with
  | .ok a _ => .ok a
  | .error e _ => .error e

/-- To autowire a definition comes to what the function says. -/
theorem autowire_result (unique : (Table.names d.keywords).Nodup)
    (distinct : ∀ parameters, Definition.inspect d = .ok parameters →
      (parameters.map (·.name)).Nodup) :
    result (autowire index d) g = Autowire.completion g index d := by
  have filled : Run.Yields (Autowire.fill g index) ⟨d, []⟩ (Autowire.completion g index d)
      fun d' _ s => s.definition = d' := Autowire.fill_yields unique distinct
  have finish (left : Filling) (job : Build Definition) {r : Except Failure Definition}
      (h : ∀ w, Run.Yields job w r fun d' a _ => a = d') :
      Run.Yields (do
        Build.change fun g => g.update d.id fun _ => left.definition
        left.notes.forM Build.note
        job) { graph := g } r fun d' a _ => a = d' := by
    obtain ⟨notes, noted⟩ := Does.forM (g := g.update d.id fun _ => left.definition)
      (fun n (_ : n ∈ left.notes) => .note n) []
    exact .after rfl (.after noted (h _))
  have done : Run.Yields (autowire index d) { graph := g } (Autowire.completion g index d)
      fun d' a _ => a = d' := by
    refine .after (show Build.graph { graph := g } = .ok g { graph := g } from rfl) ?_
    rcases filled.cases with ⟨u, left, d', run, hr, hd⟩ | ⟨e, left, run, hr⟩
    · simp only [EStateM.run, run]
      exact finish left _ fun w => hr ▸ .pure hd
    · simp only [EStateM.run, run]
      exact finish left _ fun w => hr ▸ .throw
  unfold result
  rcases done.cases with ⟨d', w, _, run, hr, rfl⟩ | ⟨e, w, run, hr⟩
  · rw [run, hr]
  · rw [run, hr]

/-- To autowire a definition that wants it comes to filling in what its constructor asks for. -/
theorem autowire_completed {parameters : List Parameter} {hints : Table Hint}
    (wanted : Autowire.isWanted d = true) (unique : (Table.names d.keywords).Nodup)
    (inspected : Definition.inspect d = .ok parameters) (distinct : (parameters.map (·.name)).Nodup)
    (hh : Autowire.hintsFor d parameters = .ok hints) :
    result (autowire index d) g = Autowire.completed g index d parameters hints := by
  rw [autowire_result unique, Autowire.completion, if_pos wanted, inspected, ok_bind, hh, ok_bind]
  intro parameters' hp
  obtain rfl := Except.ok.inj (inspected.symm.trans hp)
  exact distinct

end Build

end Wiring
