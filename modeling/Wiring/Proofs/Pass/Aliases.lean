import Wiring.Pass.Aliases
import Wiring.Proofs.Graph.Mapping
import Wiring.Proofs.Graph.Reach

/-!
# What resolving the aliases does

Aliases are moved along to where they lead, which changes nothing about where any identifier leads.
References are pointed there as well, so nothing refers to an alias any more, and private aliases can
be taken out. A loop of aliases is the one thing that stands in the way.
-/

namespace Wiring.Pass

open Graph

variable {g g' g₁ : Graph} {id target : String} {u : Unit} {a : Alias}

/-! ## Aliases -/

/-- `g'` is `g` with aliases that may have been moved along to where they lead. -/
structure Shortened (g g' : Graph) : Prop where
  frame : g' = { g with aliases := g'.aliases }
  aliases : List.Forall₂ (fun a b => b.id = a.id ∧ b.isPublic = a.isPublic ∧
    (b.target = a.target ∨ g.Leads a.target b.target)) g.aliases g'.aliases

namespace Shortened

theorem refl (g : Graph) : Shortened g g :=
  ⟨rfl, List.forall₂_same.2 fun _ _ => ⟨rfl, rfl, .inl rfl⟩⟩

theorem definitions_eq (h : Shortened g g') : g'.definitions = g.definitions := by rw [h.frame]

theorem twins_eq (h : Shortened g g') : g'.twins = g.twins := by rw [h.frame]

theorem parameters_eq (h : Shortened g g') : g'.parameters = g.parameters := by rw [h.frame]

theorem ids_eq (h : Shortened g g') : g'.ids = g.ids := by rw [ids, h.definitions_eq, ids]

theorem find?_eq (h : Shortened g g') : g'.find? = g.find? := by
  funext id
  rw [find?, h.definitions_eq, find?]

theorem has_eq (h : Shortened g g') : g'.has = g.has := by
  funext id
  rw [has, h.definitions_eq, has]

theorem aliasIds_eq (h : Shortened g g') : g'.aliasIds = g.aliasIds :=
  (forall₂_map_eq.1 (h.aliases.imp fun _ _ hab => hab.1.symm)).symm

theorem free_iff (h : Shortened g g') : g'.findAlias? id = none ↔ g.findAlias? id = none := by
  rw [findAlias?_eq_none_iff, findAlias?_eq_none_iff, h.aliasIds_eq]

theorem findAlias?_rel (h : Shortened g g') (id : String) :
    Option.Rel (fun a b => b.id = a.id ∧ b.isPublic = a.isPublic ∧
      (b.target = a.target ∨ g.Leads a.target b.target)) (g.findAlias? id) (g'.findAlias? id) :=
  forall₂_find? h.aliases fun a b hab => by rw [hab.1]

/-- Every identifier leads where it led before. -/
theorem leads_iff (h : Shortened g g') : g'.Leads id target ↔ g.Leads id target := by
  constructor
  · intro hl
    induction hl with
    | here free => exact .here (h.free_iff.1 free)
    | @there id target b hb _ ih =>
      have found := h.findAlias?_rel id
      rw [hb] at found
      cases ha : g.findAlias? id with
      | none => rw [ha] at found; cases found
      | some a =>
        rw [ha] at found
        cases found with
        | some hab =>
          rcases hab.2.2 with e | moved
          · exact .there ha (e ▸ ih)
          · exact .there ha (((Leads.of_free moved.target_free).1 ih) ▸ moved)
  · intro hl
    induction hl with
    | here free => exact .here (h.free_iff.2 free)
    | @there id target a ha onward ih =>
      have found := h.findAlias?_rel id
      rw [ha] at found
      cases hb : g'.findAlias? id with
      | none => rw [hb] at found; cases found
      | some b =>
        rw [hb] at found
        cases found with
        | some hab =>
          rcases hab.2.2 with e | moved
          · exact .there hb (e ▸ ih)
          · obtain rfl := moved.unique onward
            exact .there hb (.here (h.free_iff.2 moved.target_free))

theorem resolveAlias_ok (h : Shortened g g') :
    g'.resolveAlias id = .ok target ↔ g.resolveAlias id = .ok target := by
  rw [Graph.resolveAlias_ok, Graph.resolveAlias_ok, h.leads_iff]

/-- Where aliases lead to the same, definitions do. -/
theorem sameWays (h : Shortened g g') : SameWays g g' where
  roots id := by
    simp only [IsRoot, h.find?_eq, h.resolveAlias_ok]
    refine exists_congr fun d => and_congr_right fun _ => and_congr_right fun _ => or_congr_right ?_
    constructor
    · rintro ⟨b, hb, isPublic, hres⟩
      obtain ⟨a, ha, hid, hpub, -⟩ := forall₂_mem_right h.aliases hb
      exact ⟨a, ha, hpub ▸ isPublic, hid ▸ hres⟩
    · rintro ⟨a, ha, isPublic, hres⟩
      obtain ⟨b, hb, hid, hpub, -⟩ := forall₂_mem_left h.aliases ha
      exact ⟨b, hb, hpub ▸ isPublic, hid ▸ hres⟩
  steps a b := by
    simp only [Step, LeadsTo, IsMember, h.find?_eq, h.has_eq, h.resolveAlias_ok]

theorem tidy (h : Shortened g g') (tidy : g.Tidy) : g'.Tidy where
  unique := h.ids_eq ▸ tidy.unique
  uniqueAliases := h.aliasIds_eq ▸ tidy.uniqueAliases
  apart := h.ids_eq ▸ h.aliasIds_eq ▸ tidy.apart
  labels := h.definitions_eq ▸ tidy.labels
  alone := h.twins_eq.trans tidy.alone

theorem identified (h : Shortened g g') (hg : g.Identified) : g'.Identified where
  unique := h.ids_eq ▸ hg.unique
  uniqueAliases := h.aliasIds_eq ▸ hg.uniqueAliases
  apart := h.ids_eq ▸ h.aliasIds_eq ▸ hg.apart
  twins := h.ids_eq ▸ h.twins_eq ▸ hg.twins

end Shortened

/-- To set an alias that is there replaces it where it stands. -/
theorem setAlias_spec (hg : g.Identified) (there : a.id ∈ g.aliasIds) (h : g.setAlias a = .ok g') :
    g' = { g with aliases := g.aliases.map fun b => if b.id == a.id then a else b } := by
  unfold setAlias at h
  split at h
  · cases h
  split at h
  · cases h
  rw [if_pos (hasAlias_iff.2 there)] at h
  rw [← Except.ok.inj h]
  have kept : (g.definitions.filter fun d => !(d.id == a.id)) = g.definitions :=
    List.filter_eq_self.2 fun d hd => by
      simpa using ne_of_mem_of_not_mem (id_mem_ids hd) (hg.apart a.id there)
  have keptTwins : g.twins.remove a.id = g.twins :=
    List.filter_eq_self.2 fun e he => by
      simpa using ne_of_mem_of_not_mem (hg.twins e.1 (List.mem_map_of_mem he)) (hg.apart a.id there)
  simp only [remove, kept, keptTwins]

/-- When an alias is moved, it leads to its end in one step and the others stay. -/
theorem shortenAlias_spec (hg : g.Identified) (inv : Shortened g g₁) (ha : a ∈ g.aliases)
    (h : Build.Gives (shortenAlias a) g₁ u g') : Shortened g g' ∧
      (∀ b ∈ g'.aliases, b.id = a.id → g.findAlias? b.target = none) ∧
      ∀ b ∈ g'.aliases, b.id ≠ a.id → b ∈ g₁.aliases := by
  obtain ⟨_, _, got, h⟩ := Build.gives_bind h
  obtain ⟨rfl, rfl⟩ := Build.gives_graph.1 got
  obtain ⟨target, _, hc, h⟩ := Build.gives_bind h
  obtain ⟨ht, rfl⟩ := Build.gives_check.1 hc
  have found := findAlias?_of_mem hg.uniqueAliases ha
  have leads : g.Leads a.target target := by
    rcases inv.leads_iff.1 (resolveAlias_leads ht) with free | ⟨hb, onward⟩
    · simp [free] at found
    · exact Option.some.inj (hb.symm.trans found) ▸ onward
  have same {c : Alias} (hc : c ∈ g.aliases) (e : c.id = a.id) : c = a :=
    Option.some.inj ((findAlias?_of_mem hg.uniqueAliases hc).symm.trans (e ▸ found))
  by_cases moved : target = a.target
  · simp only [moved, bne_self_eq_false, Bool.false_eq_true, if_false] at h
    obtain ⟨-, rfl⟩ := Build.gives_pure.1 h
    refine ⟨inv, fun b hb e => ?_, fun b hb _ => hb⟩
    obtain ⟨c, hc, hid, -, hto⟩ := forall₂_mem_right inv.aliases hb
    obtain rfl := same hc (hid.symm.trans e)
    rcases hto with hto | onward
    · exact hto ▸ moved ▸ leads.target_free
    · exact onward.target_free
  · simp only [bne_iff_ne.2 moved, if_true] at h
    obtain ⟨g₂, _, hc, h⟩ := Build.gives_bind h
    obtain ⟨hs, rfl⟩ := Build.gives_check.1 hc
    obtain rfl := Build.gives_change.1 h
    have there : a.id ∈ g₁.aliasIds := inv.aliasIds_eq ▸ List.mem_map_of_mem ha
    obtain rfl := setAlias_spec (a := { a with target }) (inv.identified hg) there hs
    refine ⟨⟨by rw [inv.frame], ?_⟩, fun b hb e => ?_, fun b hb ne => ?_⟩
    · rw [List.forall₂_map_right_iff]
      refine forall₂_imp_mem inv.aliases fun c hc b hcb => ?_
      by_cases e : b.id = a.id
      · obtain rfl := same hc (hcb.1.symm.trans e)
        simpa [e] using Or.inr leads
      · simpa [e] using hcb
    · obtain ⟨c, hc, rfl⟩ := List.mem_map.1 hb
      by_cases hca : c.id = a.id
      · simpa [hca] using leads.target_free
      · simp [hca] at e
    · obtain ⟨c, hc, rfl⟩ := List.mem_map.1 hb
      by_cases hca : c.id = a.id
      · simp [hca] at ne
      · simpa [hca] using hc

/-- When all aliases are moved, all are direct. -/
theorem shortenAliases_spec (hg : g.Identified)
    (h : Build.Gives (g.aliases.forM shortenAlias) g u g') : Shortened g g' ∧ g'.Direct := by
  obtain ⟨inv, free⟩ := Build.gives_forM
    (fun done g₁ => Shortened g g₁ ∧
      ∀ b ∈ g₁.aliases, b.id ∈ done.map (·.id) → g.findAlias? b.target = none)
    h ⟨.refl g, by simp⟩ fun done a rest g₁ g₂ split ⟨inv, free⟩ run => by
      obtain ⟨inv', new, old⟩ := shortenAlias_spec hg inv (by simp [split]) run
      refine ⟨inv', fun b hb hid => ?_⟩
      by_cases e : b.id = a.id
      · exact new b hb e
      · refine free b (old b hb e) ?_
        rw [List.map_append, List.mem_append] at hid
        exact hid.resolve_right (by simpa using e)
  refine ⟨inv, fun b hb => inv.free_iff.2 (free b hb ?_)⟩
  show b.id ∈ g.aliasIds
  rw [← inv.aliasIds_eq]
  exact List.mem_map_of_mem hb

/-- An alias can be moved along to where it leads. -/
def Movable (g : Graph) (a : Alias) : Prop :=
  ∃ t, g.resolveAlias a.id = .ok t ∧ (t ≠ a.target → a.id ≠ "" ∧ t ≠ "")

theorem movable_of_shortenAlias (inv : Shortened g g₁)
    (run : Build.Gives (shortenAlias a) g₁ () g') : Movable g a := by
  obtain ⟨_, _, hg, run⟩ := Build.gives_bind run
  obtain ⟨rfl, rfl⟩ := Build.gives_graph.1 hg
  obtain ⟨t, _, hc, run⟩ := Build.gives_bind run
  obtain ⟨ht, rfl⟩ := Build.gives_check.1 hc
  refine ⟨t, inv.resolveAlias_ok.1 ht, fun moved => ?_⟩
  simp only [bne_iff_ne.2 moved, if_true] at run
  obtain ⟨g₂, _, hc, -⟩ := Build.gives_bind run
  have hs := (Build.gives_check.1 hc).1
  unfold setAlias at hs
  split at hs
  · cases hs
  next named => simpa using named

theorem shortenAlias_does (inv : Shortened g g₁) (ha : a.id ∈ g.aliasIds)
    (movable : Movable g a) : ∃ g₂, Build.Does (shortenAlias a) g₁ () g₂ := by
  obtain ⟨t, ht, named⟩ := movable
  have ht' := inv.resolveAlias_ok.2 ht
  by_cases moved : t = a.target
  · refine ⟨g₁, .bind .graph (.bind (.check ht') ?_)⟩
    rw [moved, bne_self_eq_false, if_neg Bool.false_ne_true]
    exact .pure ()
  · obtain ⟨idNamed, targetNamed⟩ := named moved
    have apart : a.id ≠ t := fun e => by
      have free := (resolveAlias_leads ht).target_free
      rw [← e] at free
      exact findAlias?_eq_none_iff.1 free ha
    obtain ⟨g₂, hs⟩ : ∃ g₂, g₁.setAlias { a with target := t } = .ok g₂ := by
      unfold setAlias
      rw [if_neg (by simp [idNamed, targetNamed]), if_neg apart]
      exact ⟨_, rfl⟩
    refine ⟨g₂, .bind .graph (.bind (.check ht') ?_)⟩
    rw [if_pos (bne_iff_ne.2 moved)]
    exact .bind (.check hs) (.change rfl)

/-- A shortened alias leads where it led, in one step. -/
theorem Shortened.moved (h : Shortened g g₁) (direct : g₁.Direct) :
    List.Forall₂ (fun a b => b = { a with target := b.target } ∧ g.Leads a.target b.target)
      g.aliases g₁.aliases :=
  (forall₂_imp_mem h.aliases.flip fun b hb a ⟨id, isPublic, target⟩ => by
    refine ⟨by cases a; cases b; simp_all, target.elim (fun e => ?_) fun leads => leads⟩
    exact e ▸ .here (h.free_iff.1 (direct b hb))).flip

/-- Aliases have names, and lead to names. -/
def Named (g : Graph) : Prop := ∀ a ∈ g.aliases, a.id ≠ "" ∧ a.target ≠ ""

theorem Named.end_ne (named : Named g) (leads : g.Leads id target) (h : id ≠ "") : target ≠ "" := by
  induction leads with
  | here => exact h
  | there found _ ih => exact ih (named _ (mem_of_findAlias? found).1).2

/-- An alias fails to be moved only by a loop. -/
theorem shortenAlias_loops (hg : g.Identified) (named : Named g) (inv : Shortened g g₁)
    (ha : a ∈ g.aliases) : Build.FailsBy IsLoop (shortenAlias a) g₁ := by
  refine .graph_bind (.check_bind (resolveAlias_loops _) fun target ht => ?_)
  have leads := inv.leads_iff.1 (resolveAlias_leads ht)
  split
  · refine .check_bind (.of_ok ?_) fun _ _ => .change
    have apart : a.id ≠ target := by
      intro same
      have free := leads.target_free
      rw [← same, findAlias?_of_mem hg.uniqueAliases ha] at free
      cases free
    unfold setAlias
    rw [if_neg (by simpa using ⟨(named a ha).1, named.end_ne leads (named a ha).1⟩), if_neg apart]
    exact ⟨_, rfl⟩
  · exact .pure ()

/-! ## References -/

/-- What the resolution of aliases makes of an argument. -/
def Resolved (g : Graph) (a b : Argument) : Prop :=
  match a with
  | .reference r => ∃ t, g.Leads r.id t ∧ b = .reference { r with id := t }
  | a => b = a

theorem Resolved.declared {a b : Argument} (h : Resolved g a b) (ha : a.isDeclared = true) :
    b.isDeclared = true := by
  cases a with
  | reference r =>
    obtain ⟨t, -, rfl⟩ := h
    rfl
  | _ => exact (h : b = _) ▸ ha

/-- The pass moves aliases along, and points references where they lead. -/
theorem resolveAliases_spec (tidy : g.Tidy) (declared : g.Holds fun a => a.isDeclared = true)
    (h : Build.Gives resolveAliases g u g') :
    ∃ g₁, Shortened g g₁ ∧ g₁.Direct ∧ Revised (fun _ => Resolved g) g₁ g' := by
  obtain ⟨_, _, hg, h⟩ := Build.gives_bind h
  obtain ⟨rfl, rfl⟩ := Build.gives_graph.1 hg
  obtain ⟨_, g₁, hs, h⟩ := Build.gives_bind h
  obtain ⟨inv, direct⟩ := shortenAliases_spec tidy.identified hs
  have flat : g₁.Flat := fun d hd a ha =>
    Argument.isFlat_of_declared (declared d (inv.definitions_eq ▸ hd) a ha)
  refine ⟨g₁, inv, direct, ?_⟩
  refine ((reviseAll_ok (flat.isShared_eq_false (inv.twins_eq.trans tidy.alone))).1
    (Build.gives_changeOrFail.1 h)).mono_mem fun d hd a ha b hab => ?_
  have ha := declared d (inv.definitions_eq ▸ hd) a ha
  cases a with
  | reference r =>
    simp only [Argument.revise, Argument.reviseOuter, aliasRule, bind_eq_ok, pure_eq_ok] at hab
    obtain ⟨t, ht, rfl⟩ := hab
    exact ⟨t, inv.leads_iff.1 (resolveAlias_leads ht), rfl⟩
  | parameter | literal | tagged | autowire => exact (Except.ok.inj hab).symm
  | _ => cases ha

theorem Resolved.tagged_iff {a b : Argument} {tag : String} (h : Resolved g a b) :
    b = .tagged tag ↔ a = .tagged tag := by
  cases a with
  | reference r =>
    obtain ⟨t, -, rfl⟩ := h
    simp
  | _ => exact (h : b = _) ▸ Iff.rfl

theorem Resolved.flat {d d' : Definition} (h : Recipe.Revised (Resolved g) d d')
    (declared : ∀ a ∈ d.allArguments, a.isDeclared = true) : Definition.Flat d' := by
  intro b hb
  obtain ⟨a, ha, hab⟩ := forall₂_mem_right h.allArguments hb
  exact Argument.isFlat_of_declared (Resolved.declared hab (declared a ha))

/-- The references that are left come of references. -/
theorem Resolved.exists_reference {d d' : Definition} (h : Recipe.Revised (Resolved g) d d')
    (declared : ∀ a ∈ d.allArguments, a.isDeclared = true) {r' : Reference}
    (hr : r' ∈ Definition.references d') :
    ∃ r ∈ Definition.references d, g.Leads r.id r'.id ∧ r' = { r with id := r'.id } := by
  have flat : Definition.Flat d := fun a ha => Argument.isFlat_of_declared (declared a ha)
  obtain ⟨b, hb, hrb⟩ := (Resolved.flat h declared).mem_references.1 hr
  obtain ⟨a, ha, hab⟩ := forall₂_mem_right h.allArguments hb
  have hd := declared a ha
  cases a with
  | reference r =>
    obtain ⟨t, ht, rfl⟩ := hab
    obtain rfl := List.mem_singleton.1 hrb
    exact ⟨r, flat.mem_references.2 ⟨_, ha, by simp [Argument.direct]⟩, ht, rfl⟩
  | parameter | literal | tagged | autowire =>
    obtain rfl : b = _ := hab
    cases hrb
  | _ => cases hd

/-- References go on as references to where they lead. -/
theorem Resolved.exists_new {d d' : Definition} (h : Recipe.Revised (Resolved g) d d')
    (declared : ∀ a ∈ d.allArguments, a.isDeclared = true) {r : Reference}
    (hr : r ∈ Definition.references d) :
    ∃ r' ∈ Definition.references d', g.Leads r.id r'.id := by
  have flat : Definition.Flat d := fun a ha => Argument.isFlat_of_declared (declared a ha)
  obtain ⟨a, ha, hra⟩ := flat.mem_references.1 hr
  obtain ⟨b, hb, hab⟩ := forall₂_mem_left h.allArguments ha
  have hd := declared a ha
  cases a with
  | reference s =>
    obtain rfl := List.mem_singleton.1 hra
    obtain ⟨t, ht, rfl⟩ := hab
    exact ⟨_, (Resolved.flat h declared).mem_references.2 ⟨_, hb, List.mem_singleton_self _⟩, ht⟩
  | parameter | literal | tagged | autowire => cases hra
  | _ => cases hd

/-- What a definition leads to by way of aliases it leads to without them afterwards. -/
theorem resolveAliases_sameWays (tidy : g.Tidy) (declared : g.Holds fun a => a.isDeclared = true)
    (h : Build.Gives resolveAliases g u g') : SameWays g g' := by
  obtain ⟨g₁, short, -, resolved⟩ := resolveAliases_spec tidy declared h
  have resolve {id target : String} :
      g₁.resolveAlias id = .ok target ↔ g.Leads id target := by
    rw [Graph.resolveAlias_ok, short.leads_iff]
  refine short.sameWays.trans (Changed.sameWays resolved
    (fun _ _ hR => ⟨hR.isAbstract_eq, hR.isPublic_eq⟩) fun d hd d' hR b => ?_)
  have declared := declared d (short.definitions_eq ▸ hd)
  rw [Changed.leadsTo_iff resolved fun _ _ hR => ⟨hR.isAbstract_eq, hR.tags_eq⟩]
  unfold LeadsTo
  simp only [resolve, hR.id_eq]
  refine or_congr ?_ ?_
  · constructor
    · rintro ⟨r', hr', leads, there⟩
      obtain ⟨r, hr, onward, -⟩ := Resolved.exists_reference hR declared hr'
      obtain rfl := (Leads.of_free onward.target_free).1 leads
      exact ⟨r, hr, onward, there⟩
    · rintro ⟨r, hr, leads, there⟩
      obtain ⟨r', hr', onward⟩ := Resolved.exists_new hR declared hr
      obtain rfl := onward.unique leads
      exact ⟨r', hr', .here onward.target_free, there⟩
  · refine exists_congr fun tag => and_congr_left fun _ => ?_
    constructor
    · intro htag
      obtain ⟨a, ha, hab⟩ := forall₂_mem_right hR.allArguments htag
      exact hab.tagged_iff.1 rfl ▸ ha
    · intro htag
      obtain ⟨b, hb, hab⟩ := forall₂_mem_left hR.allArguments htag
      exact hab.tagged_iff.2 rfl ▸ hb

/-- Where aliases are direct and no reference names one, the pass changes nothing. -/
theorem resolveAliases_does (tidy : g.Tidy) (alone : g.isShared = false) (settled : g.Settled)
    (direct : g.Direct)
    (free : ∀ d ∈ g.definitions, ∀ r ∈ Definition.references d, g.findAlias? r.id = none) :
    Build.Does resolveAliases g () g := by
  refine .bind .graph (.bind (.forM fun a ha => ?_) (.changeOrFail ?_))
  · have ht := resolveAlias_of_direct (findAlias?_of_mem tidy.uniqueAliases ha) (direct a ha)
    refine .bind .graph (.bind (.check ht) ?_)
    simp only [bne_self_eq_false, Bool.false_eq_true, if_false]
    exact .pure ()
  · refine reviseAll_of_settled alone settled (fun d hd r hr => ?_) fun _ _ _ => rfl
    rw [aliasRule, resolveAlias_of_free (free d hd r hr)]
    rfl

/-! ## Private aliases -/

/-- The graph without its private aliases. -/
def published (g : Graph) : Graph := { g with aliases := g.aliases.filter (·.isPublic) }

theorem removePrivateAliases_spec (h : Build.Gives removePrivateAliases g u g') :
    g' = published g := (Build.gives_change.1 h).symm

theorem removePrivateAliases_takes (g : Graph) :
    Build.Does removePrivateAliases g () (published g) := .change rfl

/-- Without private aliases the pass changes nothing. -/
theorem removePrivateAliases_does (isPublic : ∀ a ∈ g.aliases, a.isPublic = true) :
    Build.Does removePrivateAliases g () g := by
  refine .change ?_
  rw [List.filter_eq_self.2 isPublic]

theorem published_free (h : g.findAlias? id = none) : (published g).findAlias? id = none := by
  rw [findAlias?_eq_none_iff] at h ⊢
  exact fun hid => h ((List.filter_sublist.map _).subset hid)

theorem published_tidy (tidy : g.Tidy) : (published g).Tidy where
  unique := tidy.unique
  uniqueAliases := (List.filter_sublist.map _).nodup tidy.uniqueAliases
  apart id hid := tidy.apart id ((List.filter_sublist.map _).subset hid)
  labels := tidy.labels
  alone := tidy.alone

/-- Where an identifier leads that is no alias or is a public one does not depend on private aliases
once aliases are direct. -/
theorem published_resolveAlias (unique : g.aliasIds.Nodup) (direct : g.Direct)
    (seen : g.findAlias? id = none ∨ ∃ a ∈ g.aliases, a.isPublic = true ∧ a.id = id) :
    (published g).resolveAlias id = g.resolveAlias id := by
  rcases seen with free | ⟨a, ha, isPublic, rfl⟩
  · rw [resolveAlias_of_free free, resolveAlias_of_free (published_free free)]
  · have ha' : a ∈ (published g).aliases := List.mem_filter.2 ⟨ha, isPublic⟩
    have unique' : (published g).aliasIds.Nodup := (List.filter_sublist.map _).nodup unique
    rw [resolveAlias_of_direct (findAlias?_of_mem unique ha) (direct a ha),
      resolveAlias_of_direct (findAlias?_of_mem unique' ha') (published_free (direct a ha))]

/-- Where aliases are direct and no reference names one, private aliases are of no use. -/
theorem published_sameWays (tidy : g.Tidy) (direct : g.Direct)
    (free : ∀ d ∈ g.definitions, ∀ r ∈ Definition.references d, g.findAlias? r.id = none) :
    SameWays g (published g) where
  roots id := by
    have onward {a : Alias} (ha : a ∈ g.aliases) (isPublic : a.isPublic = true) :
        (published g).resolveAlias a.id = g.resolveAlias a.id :=
      published_resolveAlias tidy.uniqueAliases direct (.inr ⟨a, ha, isPublic, rfl⟩)
    refine exists_congr fun d => and_congr_right fun _ => and_congr_right fun _ => or_congr_right ?_
    constructor
    · rintro ⟨a, ha, isPublic, hres⟩
      have ha := (List.mem_filter.1 ha).1
      exact ⟨a, ha, isPublic, onward ha isPublic ▸ hres⟩
    · rintro ⟨a, ha, isPublic, hres⟩
      exact ⟨a, List.mem_filter.2 ⟨ha, isPublic⟩, isPublic, (onward ha isPublic).trans hres⟩
  steps a b := by
    refine exists_congr fun d => and_congr_right fun hd => or_congr_left ?_
    refine exists_congr fun r => and_congr_right fun hr => ?_
    rw [published_resolveAlias tidy.uniqueAliases direct (.inl (free d (mem_of_find? hd).1 r hr))]
    rfl

/-! ## What identifiers mean -/

/-- An argument with its references pointed where their identifiers lead. -/
def redirect (resolve : String → String) : Argument → Argument
  | .reference r => .reference { r with id := resolve r.id }
  | .collection tag members => .collection tag (members.map fun r => { r with id := resolve r.id })
  | a => a

/-- Resolution, where all identifiers lead somewhere. -/
def Resolves (g : Graph) (resolve : String → String) : Prop :=
  ∀ id, g.resolveAlias id = .ok (resolve id)

/-- The graph with its aliases moved along to where they lead. -/
def moved (g : Graph) (resolve : String → String) : Graph :=
  { g with aliases := g.aliases.map fun a => { a with target := resolve a.id } }

/-- The graph with its aliases and references resolved. -/
def resolved (g : Graph) (resolve : String → String) : Graph :=
  { moved g resolve with
    definitions := g.definitions.map (Definition.throughout (redirect resolve)) }

theorem resolveAlias_resolved (resolve : String → String) :
    (resolved g resolve).resolveAlias = (moved g resolve).resolveAlias := resolveAlias_congr rfl

section Meaning

variable {resolve : String → String} (resolves : Resolves g resolve)

include resolves

theorem Resolves.free (id : String) : g.findAlias? (resolve id) = none :=
  (resolveAlias_leads (resolves id)).target_free

theorem Resolves.again (id : String) : resolve (resolve id) = resolve id :=
  Except.ok.inj ((resolves _).symm.trans (resolveAlias_of_free (resolves.free id)))

theorem Resolves.aliasRule (r : Reference) :
    aliasRule g (.reference r) = .ok (.reference { r with id := resolve r.id }) := by
  rw [Pass.aliasRule, resolves r.id]
  rfl

theorem Resolves.reviseOuter {service : String} {a : Argument} (plain : a.isMixture = false) :
    Argument.reviseOuter (Pass.aliasRule g) service a = .ok (redirect resolve a) := by
  cases a with
  | reference r => exact resolves.aliasRule r
  | collection tag members =>
    refine bind_eq_ok.2 ⟨_, Argument.reviseMembers_eq_ok.2 ?_, rfl⟩
    rw [List.forall₂_map_left_iff, List.forall₂_map_right_iff]
    exact List.forall₂_same.2 fun r _ => resolves.aliasRule r
  | mixture => cases plain
  | _ => rfl

theorem Resolves.redirect_redirect (a : Argument) :
    redirect resolve (redirect resolve a) = redirect resolve a := by
  cases a with
  | reference r => simp only [redirect, resolves.again]
  | collection tag members =>
    simp only [redirect, List.map_map, Function.comp_def, resolves.again]
  | _ => rfl

/-- The rule maps references, whatever they were pointed at before. -/
theorem Resolves.maps (plain : g.Plain) :
    g.Maps (fun _ => Pass.aliasRule g) fun _ => redirect resolve := by
  refine ⟨fun _ _ _ => rfl, fun _ a m r same => ?_,
    fun d hd q hq a ha => resolves.reviseOuter (plain d hd q hq a ha), fun d hd q hq a ha => ?_⟩
  · cases a <;> first | exact same | cases same
  · have plain' : (redirect resolve a).isMixture = false := by
      have := plain d hd q hq a ha
      cases a <;> first | rfl | exact this
    rw [resolves.reviseOuter plain', resolves.redirect_redirect]

theorem Resolves.movable (named : Named g) (ha : a ∈ g.aliases) : Movable g a :=
  ⟨_, resolves a.id, fun _ => ⟨(named a ha).1,
    named.end_ne (resolveAlias_leads (resolves a.id)) (named a ha).1⟩⟩

/-- Where all identifiers lead somewhere, all aliases are moved. -/
theorem Resolves.shortenAliases (hg : g.Identified) (named : Named g) :
    Build.Does (g.aliases.forM shortenAlias) g () (moved g resolve) := by
  obtain ⟨g₁, does, -⟩ : ∃ g₁, Build.Does (g.aliases.forM shortenAlias) g () g₁ ∧ Shortened g g₁ :=
    Build.Does.exists_forM _ (fun _ g₁ => Shortened g g₁) (.refl g) fun done a rest g₁ split inv => by
      have ha : a ∈ g.aliases := by simp [split]
      obtain ⟨g₂, does⟩ := shortenAlias_does inv (List.mem_map_of_mem ha) (resolves.movable named ha)
      exact ⟨g₂, does, (shortenAlias_spec hg inv ha does.gives).1⟩
  obtain ⟨short, direct⟩ := shortenAliases_spec hg does.gives
  have aliases_eq : g₁.aliases = (moved g resolve).aliases := by
    rw [moved, ← List.forall₂_eq_eq_eq, List.forall₂_map_right_iff]
    refine (forall₂_imp_mem (short.moved direct) fun a ha b ⟨same, leads⟩ => ?_).flip
    have onward : resolve a.id = b.target :=
      (resolveAlias_leads (resolves a.id)).unique (.there (findAlias?_of_mem hg.uniqueAliases ha) leads)
    show b = { a with target := resolve a.id }
    rw [onward]
    exact same
  rw [short.frame, aliases_eq] at does
  exact does

/-- Where all identifiers lead somewhere, aliases and references are resolved. -/
theorem Resolves.resolveAliases (hg : g.Identified) (named : Named g) (plain : g.Plain)
    (coherent : g.isShared = true → g.pool.Coherent) :
    Build.Does resolveAliases g () (resolved g resolve) := by
  have does := resolves.shortenAliases hg named
  obtain ⟨short, -⟩ := shortenAliases_spec hg does.gives
  have resolves' : Resolves (moved g resolve) resolve := fun id =>
    short.resolveAlias_ok.2 (resolves id)
  exact .bind .graph (.bind does (.changeOrFail (reviseAll_throughout (resolves'.maps plain)
    fun shared => ⟨coherent shared, fun _ _ _ _ _ _ _ _ _ => rfl⟩)))

end Meaning

/-- Where aliases can be resolved, every identifier leads somewhere. -/
theorem exists_resolves (hg : g.Identified)
    (h : Build.Gives (g.aliases.forM shortenAlias) g u g₁) :
    ∃ resolve, Resolves g resolve := by
  obtain ⟨short, direct⟩ := shortenAliases_spec hg h
  choose resolve found using direct.resolves
  exact ⟨resolve, fun id => short.resolveAlias_ok.1 (found id)⟩

/-- The resolution of aliases fails only by a loop. -/
theorem resolveAliases_loops (hg : g.Identified) (named : Named g) (plain : g.Plain)
    (coherent : g.isShared = true → g.pool.Coherent) : Build.FailsBy IsLoop resolveAliases g := by
  by_cases leads : ∃ resolve, Resolves g resolve
  · obtain ⟨resolve, resolves⟩ := leads
    intro notes e w failed
    obtain ⟨notes', done⟩ := resolves.resolveAliases hg named plain coherent notes
    cases done.symm.trans failed
  · refine .graph_bind (.bind (.forM (fun _ g₁ => Shortened g g₁) (.refl g)
      fun done a rest g₁ split inv => ?_) fun _ g₁ run => absurd (exists_resolves hg run) leads)
    have ha : a ∈ g.aliases := by simp [split]
    exact ⟨shortenAlias_loops hg named inv ha, fun g₂ run => (shortenAlias_spec hg inv ha run).1⟩

/-- The references of a resolved definition are those that it had, pointed where they lead. -/
theorem references_resolved (resolve : String → String) {d : Definition} (plain : d.Plain) :
    Definition.references (Definition.throughout (redirect resolve) d) =
      (Definition.references d).map fun r => { r with id := resolve r.id } := by
  refine Definition.references_throughout fun q hq a ha ne => ?_
  have plain := plain q hq a ha
  cases a with
  | inlined m r => exact absurd rfl (ne m r)
  | mixture => cases plain
  | _ => rfl

/-- Aliases and references are resolved unless aliases lead into a loop, and then that is what is
reported. No identifier changes its meaning: each leads where it led before, aliases in one step.
References lead there by themselves, in collections and in what is embedded as well, and nothing else
changes. So nothing that is referred to or public means anything else without the private aliases. -/
theorem resolveAliases_meaning (hg : g.Identified) (named : Named g) (plain : g.Plain)
    (coherent : g.isShared = true → g.pool.Coherent) :
    (∀ notes, ((∃ e w, resolveAliases ⟨g, notes⟩ = .error e w) ↔ ∃ a ∈ g.aliases, ∃ x,
        Relation.ReflTransGen g.Aliases a.id x ∧ Relation.TransGen g.Aliases x x) ∧
      ∀ e w, resolveAliases ⟨g, notes⟩ = .error e w → IsLoop e) ∧
    ∀ g', Build.Gives resolveAliases g () g' →
      g'.Direct ∧ (∀ id, g'.resolveAlias id = g.resolveAlias id) ∧
      (∃ resolve, (∀ id, g.resolveAlias id = .ok (resolve id)) ∧
        g' = { g with
          definitions := g.definitions.map (Definition.throughout (redirect resolve))
          aliases := g.aliases.map fun a => { a with target := resolve a.id } }) ∧
      ∃ p, Build.Does removePrivateAliases g' () p ∧
        p = { g' with aliases := g'.aliases.filter (·.isPublic) } ∧
        ∀ id, ((∃ d ∈ g'.definitions, ∃ r ∈ Definition.references d, r.id = id) ∨
            ∃ a ∈ g'.aliases, a.isPublic = true ∧ a.id = id) →
          p.resolveAlias id = g'.resolveAlias id := by
  have loops {a : Alias} : (∃ e, g.resolveAlias a.id = .error e) ↔ ∃ x,
      Relation.ReflTransGen g.Aliases a.id x ∧ Relation.TransGen g.Aliases x x :=
    resolveAlias_error_iff
  refine ⟨fun notes => ⟨⟨?_, ?_⟩, resolveAliases_loops hg named plain coherent notes⟩, fun g' run => ?_⟩
  · rintro ⟨e, w, failed⟩
    by_contra none
    have leads (id : String) : ∃ target, g.resolveAlias id = .ok target := by
      cases found : g.findAlias? id with
      | none => exact ⟨id, resolveAlias_of_free found⟩
      | some a =>
        obtain ⟨ha, rfl⟩ := mem_of_findAlias? found
        cases h : g.resolveAlias a.id with
        | ok target => exact ⟨target, rfl⟩
        | error e => exact absurd ⟨a, ha, loops.1 ⟨e, h⟩⟩ none
    choose resolve found using leads
    have resolves : Resolves g resolve := found
    obtain ⟨notes', done⟩ := resolves.resolveAliases hg named plain coherent notes
    cases done.symm.trans failed
  · rintro ⟨a, ha, loop⟩
    obtain ⟨e, failed⟩ := loops.2 loop
    cases h : resolveAliases ⟨g, notes⟩ with
    | error e w => exact ⟨e, w, rfl⟩
    | ok u w =>
      obtain ⟨_, _, got, run⟩ := Build.gives_bind ⟨notes, w.notes, h⟩
      obtain ⟨rfl, rfl⟩ := Build.gives_graph.1 got
      obtain ⟨_, _, run, -⟩ := Build.gives_bind run
      obtain ⟨resolve, resolves⟩ := exists_resolves hg run
      cases (resolves a.id).symm.trans failed
  · obtain ⟨_, _, got, first⟩ := Build.gives_bind run
    obtain ⟨rfl, rfl⟩ := Build.gives_graph.1 got
    obtain ⟨_, _, first, -⟩ := Build.gives_bind first
    obtain ⟨resolve, resolves⟩ := exists_resolves hg first
    obtain ⟨short, direct⟩ := shortenAliases_spec hg (resolves.shortenAliases hg named).gives
    obtain rfl : g' = resolved g resolve := by
      obtain ⟨notes, _, run⟩ := run
      obtain ⟨_, done⟩ := resolves.resolveAliases hg named plain coherent notes
      cases run.symm.trans done
      rfl
    have same (id : String) : (resolved g resolve).resolveAlias id = g.resolveAlias id := by
      rw [resolveAlias_resolved, resolves id]
      exact short.resolveAlias_ok.2 (resolves id)
    have unique : (resolved g resolve).aliasIds.Nodup := short.aliasIds_eq ▸ hg.uniqueAliases
    refine ⟨direct, same, ⟨resolve, resolves, rfl⟩, _, removePrivateAliases_takes _, rfl, ?_⟩
    refine fun id seen => published_resolveAlias unique direct (seen.imp_left ?_)
    rintro ⟨d', hd', r', hr', rfl⟩
    obtain ⟨d, hd, rfl⟩ := List.mem_map.1 hd'
    rw [references_resolved resolve (plain d hd)] at hr'
    obtain ⟨r, -, rfl⟩ := List.mem_map.1 hr'
    exact short.free_iff.2 (resolves.free r.id)

/-- A pen, which is filled with whatever goes by the name of ink. -/
def pen : Definition := { id := "pen", arguments := [.reference ⟨"ink", false, true⟩] }

/-- Two letters that are written with one and the same pen. What they take for ink is paint. -/
def letters : Graph where
  definitions := [
    { id := "blue" },
    { id := "love", arguments := [.inlined 0 pen, .reference ⟨"ink", true, false⟩] },
    { id := "hate", arguments := [.collection "inks" [⟨"ink", false, false⟩]]
      keywords := [("pen", .inlined 0 pen)] }]
  aliases := [⟨"ink", "paint", false⟩, ⟨"paint", "blue", true⟩]
  nextMark := 1

theorem letters_coherent : letters.pool.Coherent := by
  have embedded : letters.embedded = [(0, pen), (0, pen)] := rfl
  exact pool_coherent_of_one (x := (0, pen)) (by simp [embedded]) (by decide)

/-- Where identifiers lead in the letters. -/
def letters.meant (id : String) : String := if id = "ink" ∨ id = "paint" then "blue" else id

theorem letters_resolves : Resolves letters letters.meant := by
  intro id
  by_cases ink : id = "ink"
  · subst ink
    rfl
  · by_cases paint : id = "paint"
    · subst paint
      rfl
    · rw [letters.meant, if_neg (not_or.2 ⟨ink, paint⟩)]
      refine resolveAlias_of_free (findAlias?_eq_none_iff.2 ?_)
      simp [letters, aliasIds, ink, paint]

theorem resolveAliases_meaning_letters : letters.isShared = true ∧
    ∃ g', Build.Gives resolveAliases letters () g' ∧ g'.Direct ∧
      ∀ id, g'.resolveAlias id = letters.resolveAlias id := by
  have identified : letters.Identified := ⟨by decide, by decide, by decide, by decide⟩
  have named : Named letters := by simp [Named, letters]
  have plain : letters.Plain := by
    unfold Graph.Plain Definition.Plain
    decide
  have run := (letters_resolves.resolveAliases identified named plain fun _ => letters_coherent).gives
  obtain ⟨-, meaning⟩ := resolveAliases_meaning identified named plain fun _ => letters_coherent
  obtain ⟨direct, same, -⟩ := meaning _ run
  exact ⟨by decide, _, run, direct, same⟩

end Wiring.Pass
