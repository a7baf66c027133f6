import Wiring.Proofs.Graph.Operations
import Wiring.Script.GraphStep

/-!
# Calls on a registry

Each call asks for one operation. It is done if the call is accepted, and nothing is changed if it
is rejected. So registries are what the accepted calls made of them, whatever calls were made
besides.
-/

namespace Wiring.Script

open Graph

variable {n : Nat} {s : Session} {w w' : World} {act : GraphAct}

/-- Whether a step is a call that changes what is registered. -/
def GraphAct.isCall : GraphAct → Bool
  | .add _ | .remove _ | .setAlias _ | .removeAlias _ => true
  | _ => false

/-- The operation that a call asks for, if what it hands over is a definition. -/
def GraphAct.operation? (marks : Nat) : GraphAct → Option Operation
  | .add given =>
    match given.run marks with
    | .ok (given, _) => (given.define false).toOption.map .add
    | .error _ => none
  | .remove id => some (.remove id)
  | .setAlias a => some (.setAlias a)
  | .removeAlias id => some (.removeAlias id)
  | _ => none

theorem World.graphs_note (x : Note) : (w.note x).graphs = w.graphs := by
  unfold World.note
  split <;> rfl

namespace Action

theorem world_ok {α β : Type} {job : EStateM Failure World α} {next : α → Action β} {a : α}
    (h : job w = .ok a w') : (world job >>= next).run s w = (next a).run s w' := by
  change (EStateM.bind (EStateM.bind job _) _) w = _
  unfold EStateM.bind
  rw [h]
  rfl

theorem world_error {α β : Type} {job : EStateM Failure World α} {next : α → Action β} {e : Failure}
    (h : job w = .error e w') : (world job >>= next).run s w = .error e w' := by
  change (EStateM.bind (EStateM.bind job _) _) w = _
  unfold EStateM.bind
  rw [h]

/-- A definition is added, whether a note is taken or not. -/
theorem addDefinition_run (d : Definition) : ∃ answer w',
    (addDefinition n d).run s w = .ok (answer, s) w' ∧
      w'.graphs = w.graphs.modify n ((w.graph n).add d).after := by
  have run : (addDefinition n d).run s w =
      .ok (.definition (((w.graph n).add d).find? d.id), s)
        ((if (w.graph n).has d.id then w.note (.overrides d.id) else w).setGraph n
          ((w.graph n).add d)) := by
    change (do
      if (w.graph n).has d.id then world (modify (World.note (.overrides d.id)))
      setGraph n ((w.graph n).add d)
      return Answer.definition (((w.graph n).add d).find? d.id) : Action Answer).run s w = _
    cases (w.graph n).has d.id <;> rfl
  refine ⟨_, _, run, ?_⟩
  change List.modify (World.graphs (if _ then _ else _)) n _ = _
  split
  · rw [World.graphs_note]
  · rfl

theorem graphStep_add (given : Reading DraftGiven) : (graphStep n (.add given)).run s w =
    (do addDefinition n (← check ((← read given).define false)) : Action Answer).run s w := rfl

theorem graphStep_setAlias (a : Alias) : (graphStep n (.setAlias a)).run s w =
    (do
      setGraph n (← check ((w.graph n).setAlias a))
      return Answer.oneAlias a : Action Answer).run s w := rfl

/-- A call does its operation if that is accepted. If the call is rejected, no graph is changed. -/
theorem graphStep_call (call : act.isCall = true) :
    (∃ e w', (graphStep n act).run s w = .error e w' ∧ w'.graphs = w.graphs) ∨
    ∃ answer w' op g', (graphStep n act).run s w = .ok (answer, s) w' ∧
      act.operation? w.marks = some op ∧ (w.graph n).operate op = .ok g' ∧
      w'.graphs = w.graphs.modify n g'.after := by
  cases act with
  | add given =>
    cases reads : given.run w.marks with
    | error e =>
      have fails : World.read given w = .error e w := by rw [World.read, reads]
      exact .inl ⟨e, w, (graphStep_add given).trans (world_error fails), rfl⟩
    | ok r =>
      obtain ⟨x, marks⟩ := r
      have gives : World.read given w = .ok x { w with marks } := by rw [World.read, reads]
      have run := (graphStep_add (n := n) (s := s) given).trans (world_ok gives)
      cases made : x.define false with
      | error e =>
        refine .inl ⟨e, { w with marks }, run.trans ?_, rfl⟩
        rw [made]
        rfl
      | ok d =>
        obtain ⟨answer, w', added, graphs⟩ :=
          addDefinition_run (n := n) (s := s) (w := { w with marks }) d
        have asked : (GraphAct.add given).operation? w.marks = some (.add d) := by
          simp [GraphAct.operation?, reads, made, Except.toOption]
        refine .inr ⟨answer, w', .add d, _, run.trans ?_, asked, rfl, graphs⟩
        rw [made]
        exact added
  | remove id => exact .inr ⟨_, _, _, _, rfl, rfl, rfl, rfl⟩
  | setAlias a =>
    cases set : (w.graph n).setAlias a with
    | error e =>
      refine .inl ⟨e, w, (graphStep_setAlias a).trans ?_, rfl⟩
      rw [set]
      rfl
    | ok g' =>
      refine .inr ⟨.oneAlias a, w.setGraph n g', .setAlias a, g', ?_, rfl, set, rfl⟩
      rw [graphStep_setAlias, set]
      rfl
  | removeAlias id => exact .inr ⟨_, _, _, _, rfl, rfl, rfl, rfl⟩
  | _ => cases call

end Action

/-- Makes calls on the graph of a number, one after the other. One that is rejected does not keep
those after it from being made. Gives the operations that were accepted, and the world afterwards.
-/
def makeCalls (n : Nat) (s : Session) : List GraphAct → World → List Operation × World
  | [], w => ([], w)
  | act :: acts, w =>
    match (Action.graphStep n act).run s w with
    | .ok _ w' =>
      let (ops, done) := makeCalls n s acts w'
      ((act.operation? w.marks).toList ++ ops, done)
    | .error _ w' => makeCalls n s acts w'

theorem graph_of_graphs_eq (same : w'.graphs = w.graphs) : w'.graph n = w.graph n := by
  rw [World.graph, World.graph, same]

theorem graph_of_modify {g : Graph} (there : n < w.graphs.length)
    (set : w'.graphs = w.graphs.modify n g.after) : w'.graph n = g.after (w.graph n) := by
  rw [World.graph, World.graph, set, List.getElem?_modify]
  simp [there]

variable {acts : List GraphAct} {ops : List Operation}

/-- Calls are recorded as far as they are accepted. -/
theorem makeCalls_records (calls : ∀ act ∈ acts, act.isCall = true) (there : n < w.graphs.length)
    (h : Records ops (w.graph n)) :
    Records (ops ++ (makeCalls n s acts w).1) ((makeCalls n s acts w).2.graph n) := by
  induction acts generalizing w ops with
  | nil =>
    rw [makeCalls, List.append_nil]
    exact h
  | cons act acts ih =>
    obtain ⟨call, calls⟩ := List.forall_mem_cons.1 calls
    rw [makeCalls]
    rcases Action.graphStep_call (n := n) (s := s) (w := w) call with
      ⟨e, w', run, same⟩ | ⟨answer, w', op, g', run, asked, accepted, set⟩
    · rw [run]
      refine ih calls (same ▸ there) ?_
      rw [graph_of_graphs_eq same]
      exact h
    · rw [run, asked]
      have now : w'.graph n = g'.after (w.graph n) := graph_of_modify there set
      have there' : n < w'.graphs.length := by rwa [set, List.length_modify]
      have recorded : Records (ops ++ [op]) (w'.graph n) :=
        now ▸ (h.step accepted).after (w.graph n)
      have done := ih calls there' recorded
      rwa [List.append_assoc] at done

/-- What calls make of an empty registry, rejected ones among them. No identifier is both a
definition and an alias, and each is found by its own identifier. An identifier stands for what the
last accepted operation on it left, definitions are listed in the order in which they were last
added, and a rejected call changes nothing. Resolution ends for every identifier: at the first one
on its chain that is no alias, or with the loop that the chain runs into, if it never ends. -/
theorem makeCalls_registry (calls : ∀ act ∈ acts, act.isCall = true) (there : n < w.graphs.length)
    (undefined : (w.graph n).definitions = []) (unaliased : (w.graph n).aliases = []) :
    let ops := (makeCalls n s acts w).1
    let w' := (makeCalls n s acts w).2
    let g := w'.graph n
    (∀ id, ¬ (g.has id = true ∧ g.hasAlias id = true)) ∧
    ((∀ d ∈ g.definitions, g.find? d.id = some d) ∧ ∀ a ∈ g.aliases, g.findAlias? a.id = some a) ∧
    (∀ id, g.StandsFor id (Operation.left ops id)) ∧
    (g.ids = (Operation.addedLast ops).filter fun id => g.has id) ∧
    (∀ act s e w'', act.isCall = true → (Action.graphStep n act).run s w' = .error e w'' →
      w''.graph n = g) ∧
    ∀ id,
      ((∃ target, g.resolveAlias id = .ok target) ∨
        ∃ loop, g.resolveAlias id = .error (.fault (.circularAlias loop) none)) ∧
      (∀ target, g.resolveAlias id = .ok target ↔ g.EndsAt id target) ∧
      ((∃ loop, g.resolveAlias id = .error (.fault (.circularAlias loop) none)) ↔
        g.NeverEnds id) ∧
      ∀ loop, g.resolveAlias id = .error (.fault (.circularAlias loop) none) →
        ∃ lead, g.RunsInto id lead loop := by
  intro ops w' g
  have records : Records ops g := by
    have := makeCalls_records (s := s) calls there (records_empty undefined unaliased)
    rwa [List.nil_append] at this
  refine ⟨fun id => (records.stands id).apart, ⟨fun d hd => find?_of_mem records.unique hd,
    fun a ha => findAlias?_of_mem records.uniqueAliases ha⟩, records.stands, records.order, ?_, ?_⟩
  · intro act s e w'' call failed
    rcases Action.graphStep_call (n := n) (s := s) (w := w') call with
      ⟨e', _, run, same⟩ | ⟨_, _, _, _, run, -⟩
    · obtain ⟨-, rfl⟩ := EStateM.Result.error.inj (run.symm.trans failed)
      exact graph_of_graphs_eq same
    · cases run.symm.trans failed
  · intro id
    exact resolveAlias_chain id

/-- A world with an empty registry. -/
def mailWorld : World := { graphs := [{}] }

/-- A session on that registry. -/
def mailSession : Session := { main := 0, index := 0, builder := 0 }

/-- Calls for mailers. A definition takes the place of an alias, one is added twice, what is no
definition and an alias of itself are rejected, and an alias leads into a loop of two others. -/
def mailCalls : List GraphAct := [
  .add (pure (.draft { id := .str "smtp" })), .setAlias ⟨"mailer", "smtp", true⟩,
  .add (pure (.draft { id := .str "mailer" })), .add (pure (.value (.int 7))),
  .add (pure (.draft { id := .str "smtp" })), .setAlias ⟨"relay", "relay", true⟩,
  .setAlias ⟨"start", "left", true⟩, .setAlias ⟨"left", "right", true⟩,
  .setAlias ⟨"right", "left", true⟩, .remove "start", .removeAlias "smtp"]

theorem makeCalls_registry_mail :
    (∀ act ∈ mailCalls, act.isCall = true) ∧ 0 < mailWorld.graphs.length ∧
    (mailWorld.graph 0).definitions = [] ∧ (mailWorld.graph 0).aliases = [] ∧
    let g := (makeCalls 0 mailSession mailCalls mailWorld).2.graph 0
    g.ids = ["mailer", "smtp"] ∧ g.StandsFor "mailer" (some (.definition { id := "mailer" })) ∧
      g.StandsFor "start" (some (.alias ⟨"start", "left", true⟩)) ∧ g.NeverEnds "start" ∧
      ∃ lead, g.RunsInto "start" lead ["left", "right", "left"] := by
  have calls : ∀ act ∈ mailCalls, act.isCall = true := by simp [mailCalls, GraphAct.isCall]
  obtain ⟨-, -, stands, order, -, resolves⟩ := makeCalls_registry (n := 0)
    (s := mailSession) (w := mailWorld) calls (by decide) rfl rfl
  obtain ⟨-, -, ends, loops⟩ := resolves "start"
  have failed : ((makeCalls 0 mailSession mailCalls mailWorld).2.graph 0).resolveAlias "start" =
      .error (.fault (.circularAlias ["left", "right", "left"]) none) := by rfl
  exact ⟨calls, by decide, rfl, rfl, order.trans (by decide), stands "mailer", stands "start",
    ends.1 ⟨_, failed⟩, loops _ failed⟩

end Wiring.Script
