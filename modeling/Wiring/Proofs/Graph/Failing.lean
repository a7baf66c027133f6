import Wiring.Proofs.Definition.InPlace
import Wiring.Proofs.Graph.Cycles
import Wiring.Proofs.Graph.Faces
import Wiring.Proofs.Graph.Reach

/-!
# What a graph cannot tell

Where labels are tags and collections are not made by hand, the one thing about a graph that may not
be told is where a loop of aliases leads, and that is a fault.
-/

namespace Wiring

/-! ## Walks -/

namespace Walk

variable {E : Failure → Prop} {P : String → Prop} {room : Nat} {queue visited : List String}

/-- A walk over what has a property fails as its visits do. -/
theorem breadthFirst_fails {visit : String → Except Failure (List String)}
    (hq : ∀ x ∈ queue, P x) (next : ∀ x, P x → FailsBy E (visit x) ∧
      ∀ found, visit x = .ok found → ∀ y ∈ found, P y) :
    FailsBy E (breadthFirst visit room queue visited) := by
  induction room generalizing queue visited with
  | zero => exact .ok visited
  | succ room ih =>
    unfold breadthFirst
    cases e : queue.dropWhile visited.contains with
    | nil => exact .ok visited
    | cons id rest =>
      obtain ⟨hid, -, hrest⟩ := Travels.mem_of_dropWhile_cons e
      obtain ⟨fails, gives⟩ := next id (hq id hid)
      exact .bind fails fun found run => ih fun x hx =>
        (List.mem_append.1 hx).elim (fun h => hq x (hrest x h)) (gives found run x)

/-- A walk that changes a graph and keeps what holds of it fails as its visits do. -/
theorem breadthFirst_job_fails {visit : String → Build (List String)} {J : Graph → Prop} {g : Graph}
    (start : J g) (hq : ∀ x ∈ queue, P x) (next : ∀ g x, J g → P x → Build.FailsBy E (visit x) g ∧
      ∀ found g₁, Build.Gives (visit x) g found g₁ → J g₁ ∧ ∀ y ∈ found, P y) :
    Build.FailsBy E (breadthFirst visit room queue visited) g := by
  induction room generalizing g queue visited with
  | zero => exact .pure visited
  | succ room ih =>
    unfold breadthFirst
    cases e : queue.dropWhile visited.contains with
    | nil => exact .pure visited
    | cons id rest =>
      obtain ⟨hid, -, hrest⟩ := Travels.mem_of_dropWhile_cons e
      obtain ⟨fails, gives⟩ := next g id start (hq id hid)
      refine .bind fails fun found g₁ run => ?_
      obtain ⟨start, hy⟩ := gives found g₁ run
      exact ih start fun x hx => (List.mem_append.1 hx).elim (fun h => hq x (hrest x h)) (hy x)

end Walk

namespace Graph

variable {g g' : Graph} {id : String} {d : Definition} {E : Failure → Prop}

/-! ## Reachability -/

theorem rootIds_fails : FailsBy Failure.IsFault g.rootIds :=
  .bind (.bind (.mapM fun a _ => resolveAlias_fails a.id) fun _ _ => .ok _) fun _ _ => .ok _

theorem eachReference_fails {α : Type} {act : Reference → Except Failure α}
    (plain : Definition.Plain d) (h : ∀ r ∈ Definition.references d, FailsBy E (act r)) :
    FailsBy E (Definition.eachReference d act) := by
  rw [Definition.eachReference_of_plain plain]
  exact .mapM h

theorem successors_fails (tidy : g.Tidy) (plain : Definition.Plain d) :
    FailsBy Failure.IsFault (g.successors d) := by
  refine .bind (eachReference_fails plain fun r _ => resolveAlias_fails r.id) fun _ _ => ?_
  refine .bind (.mapM fun a _ => ?_) fun _ _ => .ok _
  cases a with
  | tagged tag =>
    obtain ⟨members, found, -⟩ := tagMembers_eq tidy tag d.id
    exact .of_ok ⟨members, found⟩
  | _ => exact .ok []

theorem get_succeeds (h : g.has id = true) : ∃ d, g.get id = .ok d := by
  obtain ⟨d, hd⟩ := exists_find? (has_iff.1 h)
  exact ⟨d, get_ok.2 hd⟩

theorem reachableIds_fails (tidy : g.Tidy) (plain : g.Plain) :
    FailsBy Failure.IsFault g.reachableIds := by
  refine .bind rootIds_fails fun roots hr => ?_
  refine Walk.breadthFirst_fails (P := fun id => g.has id = true)
    (fun id hid => ((mem_rootIds tidy.unique hr).1 hid).has) fun id there => ⟨?_, ?_⟩
  · exact .bind (.of_ok (get_succeeds there)) fun d hd =>
      successors_fails tidy (plain d (mem_of_find? (get_ok.1 hd)).1)
  · intro found run b hb
    obtain ⟨d, hd, run⟩ := bind_eq_ok.1 run
    exact ((mem_successors tidy (plain d (mem_of_find? (get_ok.1 hd)).1) run).1 hb).has

/-! ## Cycles -/

theorem validate_fails (plain : g.Plain) : FailsBy Failure.IsFault g.validate := by
  refine .bind (.mapM fun d hd => .bind (eachReference_fails (plain d hd) fun r _ => ?_)
    fun _ _ => .ok _) fun edges listed => ?_
  · exact .bind (resolveAlias_fails r.id) fun _ _ => .ok _
  · rcases edges.validate_spec (filed listed) with ⟨ok, -⟩ | ⟨_, cycle, failed, -⟩
    · exact .of_ok ⟨(), ok⟩
    · rw [failed]
      exact .error (Failure.isFault _ _)

end Graph

/-! ## Revision -/

section Revision

variable {E : Failure → Prop} {rule : Rule} {service tag : String} {m : Nat}

/-- Members of a collection fail as the rule does, and where it makes something else of them. -/
theorem Argument.reviseMembers_fails {members : List Reference}
    (h : ∀ r ∈ members, FailsBy E (rule (.reference r)) ∧ ∀ b, rule (.reference r) = .ok b →
      (∃ r', b = .reference r') ∨ E (.refused (.collectionMember tag service b.shown))) :
    FailsBy E (reviseMembers rule service tag (members.map .reference)) := by
  induction members with
  | nil => exact .ok []
  | cons r members ih =>
    rw [List.forall_mem_cons] at h
    obtain ⟨⟨fails, makes⟩, h⟩ := h
    rw [List.map_cons, reviseMembers]
    refine .bind fails fun b hb => ?_
    rcases makes b hb with ⟨r', rfl⟩ | refused
    · exact .bind (ih h) fun _ _ => .ok _
    · cases b with
      | reference r' => exact .bind (ih h) fun _ _ => .ok _
      | _ => exact .error refused

/-- A recipe is revised where it is embedded. -/
theorem Argument.revise_inlined (r : Recipe Argument) :
    Argument.revise rule service (.inlined m r) =
      (Definition.revise rule r).map fun r' => .inlined m r' := by
  unfold Definition.revise
  rw [Argument.revise]
  cases reviseAll rule r.id r.arguments with
  | error e => rfl
  | ok arguments =>
    cases reviseNamed rule r.id r.keywords with
    | error e => rfl
    | ok keywords => rfl

/-- A definition fails to be revised as one of its parts does. -/
theorem Definition.revise_fails {d : Definition} (h : ∀ q ∈ parts d, ∀ a ∈ q.allArguments,
    FailsBy E (Argument.reviseOuter rule q.id a)) : FailsBy E (revise rule d) := by
  induction d using Definition.induct with
  | step d ih =>
    have each : ∀ a ∈ d.allArguments, FailsBy E (Argument.revise rule d.id a) := fun a ha => by
      cases a with
      | inlined m r =>
        rw [Argument.revise_inlined]
        exact (ih m r ha fun q hq => h q (parts_trans (parts_of_inlined ha) hq)).map
      | _ => exact h d (self_mem_parts d) _ ha
    have all (as : List Argument) (inside : ∀ a ∈ as, a ∈ d.allArguments) :
        FailsBy E (Argument.reviseAll rule d.id as) := by
      induction as with
      | nil => exact .ok []
      | cons a as ih =>
        rw [List.forall_mem_cons] at inside
        exact .bind (each a inside.1) fun _ _ => .bind (ih inside.2) fun _ _ => .ok _
    have named (ks : List (String × Argument)) (inside : ∀ k ∈ ks, k.2 ∈ d.allArguments) :
        FailsBy E (Argument.reviseNamed rule d.id ks) := by
      induction ks with
      | nil => exact .ok []
      | cons k ks ih =>
        rw [List.forall_mem_cons] at inside
        exact .bind (each k.2 inside.1) fun _ _ => .bind (ih inside.2) fun _ _ => .ok _
    refine .bind (all d.arguments fun a ha => List.mem_append_left _ ha) fun _ _ => ?_
    refine .bind (named d.keywords fun k hk => ?_) fun _ _ => .ok _
    exact List.mem_append_right _ (List.mem_map_of_mem hk)

end Revision

/-- A rule for flat arguments that may fail by `E`, and makes references of references. -/
structure Rule.Mild (E : Failure → Prop) (rule : Rule) : Prop where
  fails : ∀ a, FailsBy E (rule a)
  flat : ∀ a b, a.isFlat = true → rule a = .ok b → b.isFlat = true
  references : ∀ r b, rule (.reference r) = .ok b → ∃ r', b = .reference r'

namespace Rule.Mild

variable {E : Failure → Prop} {rule : Rule} {service : String} {a : Argument}

theorem reviseOuter_fails (h : rule.Mild E) (flat : a.isFlat = true) :
    FailsBy E (Argument.reviseOuter rule service a) := by
  cases a with
  | inlined | mixture => cases flat
  | collection tag members =>
    refine .bind (Argument.reviseMembers_fails fun r _ => ⟨h.fails _, fun b hb => ?_⟩)
      fun _ _ => .ok _
    exact .inl (h.references r b hb)
  | _ => exact h.fails _

theorem reviseOuter_flat (h : rule.Mild E) (flat : a.isFlat = true) {b : Argument}
    (run : Argument.reviseOuter rule service a = .ok b) : b.isFlat = true := by
  cases a with
  | inlined | mixture => cases flat
  | collection tag members =>
    obtain ⟨rs, -, run⟩ := bind_eq_ok.1 run
    obtain rfl := pure_eq_ok.1 run
    rfl
  | _ => exact h.flat _ b flat run

theorem revise_fails (h : rule.Mild E) {d : Definition} (flat : d.Flat) :
    FailsBy E (Definition.revise rule d) := by
  refine Definition.revise_fails fun q hq a ha => ?_
  rw [flat.parts_eq, List.mem_singleton] at hq
  exact h.reviseOuter_fails (flat a (hq ▸ ha))

end Rule.Mild

namespace Graph

variable {g g' : Graph} {E : Failure → Prop}

/-- In a flat graph, revision of all arguments fails as the rules do. -/
theorem reviseAll_fails (alone : g.twins = []) (flat : g.Flat) {rule : Definition → Rule}
    (mild : ∀ d ∈ g.definitions, (rule d).Mild E) {e : Failure}
    (failed : g.reviseAll rule = (some e, g')) : E e := by
  unfold reviseAll at failed
  simp only [flat.isShared_eq_false alone, Bool.false_eq_true, if_false] at failed
  split at failed
  next => cases failed
  next why run =>
    obtain rfl := Option.some.inj (Prod.mk.inj failed).1
    have alone' : E why := FailsBy.mapM (fun d hd => (mild d hd).revise_fails (flat d hd)) why run
    generalize visits_eq : g.marked.map _ = visits
    have mildly : ∀ v ∈ visits, ∃ e ∈ g.marked, (e.1, rule e.2) = v := fun v hv =>
      List.mem_map.1 (visits_eq ▸ hv)
    cases inPlace : (g.reviseInPlace [] visits).1 with
    | none => exact alone'
    | some e =>
      have noneEmbedded : g.embedded = [] :=
        List.flatMap_eq_nil_iff.2 fun d hd => (flat d hd).embedded_eq
      have pool : g.pool ++ [] = g.marked := by
        rw [Graph.pool, noneEmbedded, List.append_nil, List.append_nil]
      unfold reviseInPlace at inPlace
      rw [pool] at inPlace
      let R (_ : Nat × Definition) (_ b : Argument) : Prop := b.isFlat = true
      refine (Pool.reviseThese_spec (R := R) (S := R) (fun _ => 0)
        (.of_nodup (marked_nodup alone)) (fun e he => flat e.2 (mem_of_marked he)) (fun v hv => ?_)
        (Prod.ext inPlace rfl)).1 e rfl
      obtain ⟨e, he, rfl⟩ := mildly v hv
      have mild := mild e.2 (mem_of_marked he)
      refine ⟨Nat.succ_pos _, fun _ => True, trivial, {
        falls := fun _ _ _ _ _ m r h => by cases h
        stays := fun e he m r hm => by cases flat e.2 (mem_of_marked he) _ hm
        fails := fun _ _ _ _ _ _ h => mild.reviseOuter_fails h
        gives := fun _ _ _ _ _ _ h _ run => mild.reviseOuter_flat h run
        loose := fun _ _ _ _ _ h => h }⟩

end Graph

end Wiring
