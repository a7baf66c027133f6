import Wiring.Pass.Autowiring
import Wiring.Proofs.Autowire.Choosing
import Wiring.Proofs.Graph.Reach

/-!
# What autowiring a graph does

Arguments are filled and nothing else is changed. What is autowired on the way may lead to more,
so the walk goes by the graph as it is at each visit; in the end all that is reached is filled.
-/

namespace Wiring

open Graph Autowire

variable {g g' : Graph} {index : CapabilityIndex} {d d' : Definition} {u : Unit}

/-! ## Single definitions -/

namespace Autowire.Wired

theorem isAbstract_eq (h : Wired d d') : d'.isAbstract = d.isAbstract := by rw [h.frame]
theorem isPublic_eq (h : Wired d d') : d'.isPublic = d.isPublic := by rw [h.frame]
theorem tags_eq (h : Wired d d') : d'.tags = d.tags := by rw [h.frame]

theorem visibility (d d' : Definition) (h : Wired d d') :
    d'.isAbstract = d.isAbstract ∧ d'.isPublic = d.isPublic :=
  ⟨h.isAbstract_eq, h.isPublic_eq⟩

theorem tagging (d d' : Definition) (h : Wired d d') :
    d'.isAbstract = d.isAbstract ∧ d'.tags = d.tags :=
  ⟨h.isAbstract_eq, h.tags_eq⟩

theorem flat (h : Wired d d') (flat : d.Flat) : d'.Flat := by
  intro a ha
  rcases h.arguments a ha with ha | ⟨id, rfl⟩ | rfl
  · exact flat a ha
  · rfl
  · rfl

end Autowire.Wired

namespace Graph

theorem Tidy.wired (tidy : g.Tidy) (h : Changed Wired g g') : g'.Tidy :=
  tidy.changed h fun _ _ hR hl => hR.tags_eq ▸ hl

theorem Flat.wired (flat : g.Flat) (h : Changed Wired g g') : g'.Flat := by
  intro d' hd'
  obtain ⟨d, hd, -, hR⟩ := h.exists_old hd'
  exact hR.flat (flat d hd)

/-- To put a definition where it is changes nothing. -/
theorem update_self (tidy : g.Tidy) (found : g.find? d.id = some d) :
    g.update d.id (fun _ => d) = g := by
  have same : (g.definitions.map fun e => if e.id == d.id then d else e) = g.definitions := by
    refine (List.map_congr_left fun e he => ?_).trans (List.map_id _)
    split
    next h => exact eq_of_id_eq tidy.unique (mem_of_find? found).1 he (beq_iff_eq.1 h).symm
    next => rfl
  rw [update_eq tidy.alone, same]

end Graph

theorem Build.gives_autowire (h : Build.Gives (Build.autowire index d) g d' g') :
    Wires g index d d' ∧ g' = g.update d.id fun _ => d' := by
  unfold Build.autowire at h
  obtain ⟨_, _, hg, h⟩ := Build.gives_bind h
  obtain ⟨rfl, rfl⟩ := Build.gives_graph.1 hg
  cases hf : fill g index { definition := d } with
  | error e s =>
    simp only [EStateM.run, hf] at h
    obtain ⟨_, _, -, h⟩ := Build.gives_bind h
    obtain ⟨_, _, -, h⟩ := Build.gives_bind h
    exact absurd h Build.gives_throw
  | ok _ s =>
    simp only [EStateM.run, hf] at h
    obtain ⟨_, g₁, hc, h⟩ := Build.gives_bind h
    obtain ⟨_, g₂, hn, h⟩ := Build.gives_bind h
    obtain ⟨rfl, rfl⟩ := Build.gives_pure.1 h
    rw [← Build.gives_forM_note hn, ← Build.gives_change.1 hc]
    exact ⟨⟨s, hf, rfl⟩, rfl⟩

theorem Build.autowire_wires (h : Wires g index d d') :
    Build.Does (Build.autowire index d) g d' (g.update d.id fun _ => d') := by
  obtain ⟨s, run, rfl⟩ := h
  unfold Build.autowire
  refine .bind .graph ?_
  simp only [EStateM.run, run]
  exact .bind (.change rfl) (.bind (.forM fun _ _ => .note _) (.pure _))

theorem Build.autowire_does (tidy : g.Tidy) (found : g.find? d.id = some d)
    (filled : Filled g index d) : Build.Does (Build.autowire index d) g d g := by
  have does : Build.Does (Build.autowire index d) g d (g.update d.id fun _ => d) :=
    Build.autowire_wires ⟨_, fill_of_filled filled, rfl⟩
  rwa [update_self tidy found] at does

/-- A definition is filled in its place. -/
theorem Autowire.Wires.changed (h : Wires g index d d') (tidy : g.Tidy) (hd : d ∈ g.definitions) :
    Changed Wired g (g.update d.id fun _ => d') :=
  changed_update tidy.alone .refl fun e he hid => by
    obtain rfl := eq_of_id_eq tidy.unique hd he hid.symm
    exact ⟨h.spec.1.id_eq, h.spec.1⟩

/-! ## The walk -/

namespace Pass

theorem autowireVisit_gives {id : String} {found : List String}
    (h : Build.Gives (autowireVisit index id) g found g') :
    ∃ d d', g.find? id = some d ∧ Wires g index d d' ∧ g' = g.update id (fun _ => d') ∧
      g'.successors d' = .ok found := by
  obtain ⟨_, _, hg, h⟩ := Build.gives_bind h
  obtain ⟨rfl, rfl⟩ := Build.gives_graph.1 hg
  obtain ⟨d, _, hc, h⟩ := Build.gives_bind h
  obtain ⟨hd, rfl⟩ := Build.gives_check.1 hc
  obtain ⟨d', g₁, ha, h⟩ := Build.gives_bind h
  obtain ⟨_, _, hg, h⟩ := Build.gives_bind h
  obtain ⟨rfl, rfl⟩ := Build.gives_graph.1 hg
  obtain ⟨hs, rfl⟩ := Build.gives_check.1 h
  obtain ⟨wires, updated⟩ := Build.gives_autowire ha
  have hd := get_ok.1 hd
  exact ⟨d, d', hd, wires, (mem_of_find? hd).2 ▸ updated, hs⟩

/-- The visit of a definition fills it, and finds what it leads to then. -/
theorem autowireVisit_spec (tidy : g.Tidy) (flat : g.Flat) {id : String} {found : List String}
    (h : Build.Gives (autowireVisit index id) g found g') :
    Changed Wired g g' ∧ ∃ d d', g.find? id = some d ∧ g'.find? id = some d' ∧ Wires g index d d' ∧
      (∀ b, b ∈ found ↔ g'.LeadsTo d' b) ∧
      (∀ r ∈ Definition.references d', ∃ t, g.resolveAlias r.id = .ok t) ∧
      ∀ x ≠ id, g'.find? x = g.find? x := by
  obtain ⟨d, d', hd, wires, rfl, hs⟩ := autowireVisit_gives h
  obtain ⟨hmem, rfl⟩ := mem_of_find? hd
  have wired := wires.spec.1
  have changed := wires.changed tidy hmem
  have plain := (wired.flat (flat d hmem)).plain
  have found := find?_update tidy.alone d.id (fun _ => d') fun _ _ => wired.id_eq
  refine ⟨changed, d, d', hd, by simp [found, hd], wires, fun b => ?_, ?_, fun x hx => ?_⟩
  · exact mem_successors (tidy.wired changed) plain hs
  · rw [← changed.resolveAlias_eq]
    exact (successors_succeeds (tidy.wired changed) plain).1 ⟨_, hs⟩
  · rw [found]
    cases hx' : g.find? x with
    | none => rfl
    | some e =>
      have : e.id ≠ d.id := fun h => hx ((mem_of_find? hx').2.symm.trans h)
      simp [this]

/-- What the visit of a definition yields is what it leads to in the graph that is left. -/
theorem autowireVisit_yields (tidy : g.Tidy) {id : String} {found : List String}
    (h : Build.Gives (autowireVisit index id) g found g') :
    (do g'.successors (← g'.get id)) = .ok found := by
  obtain ⟨d, d', hd, wires, rfl, hs⟩ := autowireVisit_gives h
  obtain ⟨-, rfl⟩ := mem_of_find? hd
  have there := find?_update tidy.alone d.id (fun _ => d') fun _ _ => wires.spec.1.id_eq
  exact bind_eq_ok.2 ⟨d', get_ok.2 (by simp [there, hd]), hs⟩

/-- `d'` is what `d` is filled with, and its references lead somewhere. -/
structure Visited (g : Graph) (index : CapabilityIndex) (d d' : Definition) : Prop where
  wires : Wires g index d d'
  leads : ∀ r ∈ Definition.references d', ∃ t, g.resolveAlias r.id = .ok t

/-- The definitions that pass the test are filled, all others are as they were. -/
abbrev WiredWhere (p : String → Prop) (index : CapabilityIndex) (g g' : Graph) : Prop :=
  Changed (fun d d' => (p d.id → Visited g index d d') ∧ (¬ p d.id → d' = d)) g g'

namespace WiredWhere

variable {p q : String → Prop} {visited : List String} {id : String}

theorem wired (h : WiredWhere p index g g') : Changed Wired g g' :=
  h.mono fun d d' _ ⟨filled, same⟩ => by
    by_cases hp : p d.id
    · exact (filled hp).wires.spec.1
    · exact same hp ▸ .refl d

theorem congr (h : WiredWhere p index g g') (same : ∀ id, q id ↔ p id) : WiredWhere q index g g' :=
  h.mono fun _ _ _ hd => by simpa only [same] using hd

theorem start (g : Graph) : WiredWhere (· ∈ []) index g g :=
  ⟨rfl, List.forall₂_same.2 fun _ _ => ⟨rfl, by simp, by simp⟩⟩

/-- One more visit. -/
theorem visit {g₁ : Graph} {found : List String} (tidy : g.Tidy) (flat : g.Flat)
    (inv : WiredWhere (· ∈ visited) index g g₁) (new : id ∉ visited)
    (h : Build.Gives (autowireVisit index id) g₁ found g') :
    WiredWhere (· ∈ visited ++ [id]) index g g' := by
  obtain ⟨d, d', hd, wires, rfl, -⟩ := autowireVisit_gives h
  obtain ⟨-, e, e', he, he', -, -, leads, -⟩ :=
    autowireVisit_spec (tidy.wired inv.wired) (flat.wired inv.wired) h
  obtain rfl := Option.some.inj (hd.symm.trans he)
  obtain ⟨d₀, hd₀, -, same⟩ := inv.find?_old hd
  obtain ⟨hmem, rfl⟩ := mem_of_find? hd₀
  obtain rfl := same new
  have wired := wires.spec.1
  have alone := inv.twins_eq.trans tidy.alone
  rw [find?_update alone d.id (fun _ => d') fun _ _ => wired.id_eq, hd] at he'
  obtain rfl : d' = e' := by simpa using he'
  rw [inv.resolveAlias_eq] at leads
  have filled : Visited g index d d' := ⟨(wires_changed inv).1 wires, leads⟩
  rw [update_eq alone]
  refine ⟨by rw [inv.frame], ?_⟩
  rw [List.forall₂_map_right_iff]
  refine forall₂_imp_mem inv.definitions fun x hx x' ⟨ids, done, same⟩ => ?_
  by_cases hid : x.id = d.id
  · obtain rfl := eq_of_id_eq tidy.unique hx hmem hid
    simp [ids, wired.id_eq, filled]
  · simpa [ids, hid] using And.intro done same

/-- Where a definition can be filled, one more visit can be made. -/
theorem visit_does {g₁ : Graph} (tidy : g.Tidy) (flat : g.Flat)
    (inv : WiredWhere (· ∈ visited) index g g₁) (new : d.id ∉ visited)
    (hd : g.find? d.id = some d) (filled : Visited g index d d') :
    ∃ found g₂, Build.Does (autowireVisit index d.id) g₁ found g₂ ∧
      ∀ b, b ∈ found ↔ g.LeadsTo d' b := by
  obtain ⟨e, he, -, same⟩ := inv.find?_new hd
  rw [same new] at he
  have wires := (wires_changed inv).2 filled.wires
  have wired := wires.spec.1
  have changed : Changed Wired g₁ (g₁.update d.id fun _ => d') :=
    changed_update (inv.twins_eq.trans tidy.alone) .refl fun x hx hid => by
      obtain rfl := eq_of_id_eq (tidy.wired inv.wired).unique (mem_of_find? he).1 hx hid.symm
      exact ⟨wired.id_eq, wired⟩
  have tidy' := (tidy.wired inv.wired).wired changed
  have plain := (wired.flat (flat d (mem_of_find? hd).1)).plain
  obtain ⟨found, hf⟩ := (successors_succeeds tidy' plain).2 fun r hr => by
    rw [changed.resolveAlias_eq, inv.resolveAlias_eq]
    exact filled.leads r hr
  refine ⟨found, _, .bind .graph (.bind (.check (get_ok.2 he))
    (.bind (Build.autowire_wires wires) (.bind .graph (.check hf)))), fun b => ?_⟩
  rw [mem_successors tidy' plain hf, changed.leadsTo_iff Wired.tagging,
    inv.wired.leadsTo_iff Wired.tagging]

end WiredWhere

/-- Autowires all definitions that are reached from the roots, and says which. -/
def autowireWalk : Build (List String) := do
  let g ← Build.graph
  let index ← Build.check (CapabilityIndex.ofGraph g)
  let roots ← Build.check g.rootIds
  Walk.breadthFirst (autowireVisit index) g.definitions.length roots []

theorem autowire_eq : autowire = discard autowireWalk := by
  simp only [autowire, autowireWalk, discard, map_const, Function.comp_apply, map_bind]

/-- What is visited is filled, all else is as it was. A walk over the graph that is left visits the
same in the same order. -/
theorem autowireWalk_gives (tidy : g.Tidy) (flat : g.Flat) {visited : List String}
    (h : Build.Gives autowireWalk g visited g') :
    ∃ index, CapabilityIndex.ofGraph g = .ok index ∧ WiredWhere (· ∈ visited) index g g' ∧
      g'.reachableIds = .ok visited := by
  obtain ⟨_, _, hg, h⟩ := Build.gives_bind h
  obtain ⟨rfl, rfl⟩ := Build.gives_graph.1 hg
  obtain ⟨index, _, hc, h⟩ := Build.gives_bind h
  obtain ⟨hi, rfl⟩ := Build.gives_check.1 hc
  obtain ⟨roots, _, hc, notes, notes', h⟩ := Build.gives_bind h
  obtain ⟨hr, rfl⟩ := Build.gives_check.1 hc
  have walk := Walk.travels_of_run h
  obtain ⟨-, upTo⟩ := walk.invariant (fun w _ visited => WiredWhere (· ∈ visited) index g w.graph)
    (.start g) fun w queue visited id rest found w' inv e run =>
      inv.visit tidy flat (Walk.Travels.mem_of_dropWhile_cons e).2.1 ⟨_, _, run⟩
  have changed := upTo.wired
  obtain ⟨along, -⟩ := walk.along (I := fun w => Changed Wired g w.graph) (.refl .refl)
    fun w id found w' inv run => inv.trans
      (autowireVisit_spec (tidy.wired inv) (flat.wired inv) ⟨_, _, run⟩).1 .trans
  -- a visit changes the definition visited alone, and that what each leads to depends on tags alone
  have again : Walk.breadthFirst (fun id => do g'.successors (← g'.get id)) g.definitions.length
      roots [] = .ok visited := along.retraced
    (Q := fun id found w => (do w.graph.successors (← w.graph.get id)) = .ok found)
    (fun w id found w' ⟨inv, run, _⟩ => autowireVisit_yields (tidy.wired inv) ⟨_, _, run⟩)
    (fun w x found id found' w' ne known ⟨inv, run, inv'⟩ => by
      obtain ⟨changed, -, -, -, -, -, -, -, others⟩ :=
        autowireVisit_spec (tidy.wired inv) (flat.wired inv) ⟨_, _, run⟩
      obtain ⟨d, hd, hs⟩ := bind_eq_ok.1 known
      refine bind_eq_ok.2 ⟨d, get_ok.2 ((others x ne).trans (get_ok.1 hd)), ?_⟩
      rwa [changed.successors_eq (tidy.wired inv) (tidy.wired inv') Wired.tagging])
    fun _ _ h => h
  refine ⟨index, hi, upTo, bind_eq_ok.2 ⟨roots, ?_, ?_⟩⟩
  · rwa [changed.rootIds_eq Wired.visibility]
  · rwa [← changed.definitions.length_eq]

/-- What autowiring makes of a graph: what is reached in the end is filled, all else is as it
was. -/
structure Autowired (g : Graph) (index : CapabilityIndex) (g' : Graph) : Prop where
  aliases : ∀ a ∈ g.aliases, a.isPublic = true → ∃ t, g.resolveAlias a.id = .ok t
  changed : WiredWhere g'.Reached index g g'

theorem autowire_gives (tidy : g.Tidy) (flat : g.Flat) (h : Build.Gives autowire g u g') :
    ∃ index, CapabilityIndex.ofGraph g = .ok index ∧ Autowired g index g' := by
  rw [autowire_eq] at h
  obtain ⟨visited, h⟩ := Build.gives_discard.1 h
  obtain ⟨index, hi, upTo, again⟩ := autowireWalk_gives tidy flat h
  have wired := upTo.wired
  obtain ⟨roots, hr, -⟩ := bind_eq_ok.1 again
  rw [wired.rootIds_eq Wired.visibility] at hr
  exact ⟨index, hi, rootIds_succeeds.1 ⟨roots, hr⟩, upTo.congr fun id =>
    (mem_reachableIds (tidy.wired wired) (flat.wired wired).plain again).symm⟩

/-- The pass changes nothing but arguments, and afterwards all that is reached is filled. -/
theorem autowire_spec (tidy : g.Tidy) (flat : g.Flat) (h : Build.Gives autowire g u g') :
    ∃ index, CapabilityIndex.ofGraph g = .ok index ∧ Changed Wired g g' ∧
      ∀ id, g'.Reached id → ∃ d, g'.find? id = some d ∧ Filled g index d := by
  obtain ⟨index, hi, autowired⟩ := autowire_gives tidy flat h
  refine ⟨index, hi, autowired.changed.wired, fun id hid => ?_⟩
  obtain ⟨d', hd'⟩ := exists_find? (has_iff.1 hid.has)
  obtain ⟨d, hd, filled, -⟩ := autowired.changed.find?_old hd'
  exact ⟨d', hd', (filled ((mem_of_find? hd).2.symm ▸ hid)).wires.spec.2⟩

/-- Where every definition is filled, the pass changes nothing. -/
theorem autowire_does (tidy : g.Tidy) (plain : g.Plain)
    (aliases : ∀ a ∈ g.aliases, ∃ t, g.resolveAlias a.id = .ok t)
    (references : ∀ d ∈ g.definitions, ∀ r ∈ Definition.references d,
      ∃ t, g.resolveAlias r.id = .ok t)
    (indexed : CapabilityIndex.ofGraph g = .ok index)
    (filled : ∀ d ∈ g.definitions, Filled g index d) : Build.Does autowire g () g := by
  obtain ⟨roots, hr⟩ := rootIds_succeeds.2 fun a ha _ => aliases a ha
  obtain ⟨out, walk⟩ : ∃ out, Build.Does
      (Walk.breadthFirst (autowireVisit index) g.definitions.length roots []) g out g :=
    Walk.breadthFirst_does (P := fun id => g.has id = true)
      (fun a ha => ((mem_rootIds tidy.unique hr).1 ha).has) fun id hid => by
        obtain ⟨d, hd⟩ := exists_find? (has_iff.1 hid)
        obtain ⟨hmem, rfl⟩ := mem_of_find? hd
        obtain ⟨found, hf⟩ := (successors_succeeds tidy (plain d hmem)).2 (references d hmem)
        refine ⟨found, ?_, fun b hb => ((mem_successors tidy (plain d hmem) hf).1 hb).has⟩
        exact .bind .graph (.bind (.check (get_ok.2 hd))
          (.bind (Build.autowire_does tidy hd (filled d hmem)) (.bind .graph (.check hf))))
  exact .bind .graph (.bind (.check indexed) (.bind (.check hr) (.discard walk)))

end Pass

end Wiring
