import Wiring.Tag.Index
import Wiring.Proofs.Graph.Registered
import Wiring.Proofs.Sort.Entries

/-!
# What the tag index does and holds

A rebuild changes nothing but tags, and nothing at all without rules. What it finds under a tag are
definitions that carry the tag and are no templates.
-/

namespace Wiring

/-- The capabilities that a definition declares can be keys. -/
def Definition.Hashable (d : Definition) : Prop := ∀ v ∈ d.capabilities, v.unhashable? = none

/-- The capabilities that are declared can be keys. -/
def Graph.Hashable (g : Graph) : Prop := ∀ d ∈ g.definitions, Definition.Hashable d

/-- What a definition provides can be told where what it declares can be keys. -/
theorem Definition.Hashable.provides {d : Definition} (h : Definition.Hashable d) :
    ∃ vs, d.providedCapabilities = .ok vs := by
  refine ⟨_, bind_eq_ok.2 ⟨(), forM_eq_ok.2 fun v hv => ?_, rfl⟩⟩
  have fit : v.unhashable? = none := by
    rcases List.mem_append.1 hv with hv | hv
    · exact h v hv
    · cases hf : d.factory with
      | none => simp [hf] at hv
      | some f =>
        obtain ⟨t, -, rfl⟩ : ∃ t ∈ f.capabilities, Value.type t = v := by simpa [hf] using hv
        simp only [Value.unhashable?]
  rw [Value.requireHashable, fit]

namespace TagIndex

open Graph

variable {g g' : Graph} {index index' : TagIndex} {rules : List TagRule}

/-- The tags of rules have attributes of different names. -/
def Sound (rules : List TagRule) : Prop := ∀ r ∈ rules, r.tag.attributes.names.Nodup

/-- `d'` is `d` with other tags. -/
structure Retagged (d d' : Definition) : Prop where
  frame : d' = { d with tags := d'.tags }
  labels : (∀ l ∈ d.tags, l.IsTag) → ∀ l ∈ d'.tags, l.IsTag

theorem Retagged.refl (d : Definition) : Retagged d d := ⟨rfl, id⟩

theorem Retagged.trans (d d' d'' : Definition) (h : Retagged d d') (h' : Retagged d' d'') :
    Retagged d d'' :=
  ⟨by rw [h'.frame, h.frame], fun hl => h'.labels (h.labels hl)⟩

/-! ## Inferred tags -/

/-- What the tags of rules have, and merged tags have if both do, inferred tags have. -/
theorem inferred_induct {P : Tag → Prop} (own : ∀ r ∈ rules, P r.tag)
    (merged : ∀ earlier, P earlier → ∀ r ∈ rules, P (earlier.mergedWith r.tag))
    (provided : List Value) : ∀ e ∈ inferred rules provided, P e.2 := by
  unfold inferred
  refine List.foldlRecOn (motive := fun table : Table Tag => ∀ e ∈ table, P e.2) _ _ (by simp) ?_
  intro table inv r hr e he
  have hr := (List.mem_filter.1 hr).1
  cases hg : table.get? r.tag.name with
  | some earlier =>
    simp only [hg] at he
    rcases Table.mem_put he with he | rfl
    · exact inv e he
    · exact merged earlier (inv _ (Table.mem_of_get? hg)) r hr
  | none =>
    simp only [hg] at he
    rcases Table.mem_put he with he | rfl
    · exact inv e he
    · exact own r hr

theorem inferred_nodup (sound : Sound rules) {provided : List Value} {name : String} {tag : Tag}
    (h : (name, tag) ∈ inferred rules provided) : tag.attributes.names.Nodup :=
  inferred_induct (P := fun t => t.attributes.names.Nodup) sound
    (fun _ _ r hr => Table.nodup_merge (sound r hr)) provided _ h

/-- What holds of the labels and of a tag that is added, and is kept when that tag is merged into
another, holds of the labels afterwards. -/
theorem addInferred_induct {P : Label → Prop} {labels tags : List Label} {tag : Tag}
    (own : ∀ l ∈ labels, P l) (new : P (.tag tag))
    (merged : ∀ t, P (.tag t) → P (.tag (t.mergedWith tag)))
    (h : addInferred labels tag = .ok tags) : ∀ l ∈ tags, P l := by
  unfold addInferred at h
  obtain ⟨names, -, h⟩ := bind_eq_ok.1 h
  split at h
  · intro l' hl'
    obtain ⟨l, hl, h⟩ := forall₂_mem_right (mapM_eq_ok.1 h) hl'
    obtain ⟨name, -, h⟩ := bind_eq_ok.1 h
    split at h
    · obtain ⟨u, hu, h⟩ := bind_eq_ok.1 h
      obtain rfl := pure_eq_ok.1 h
      obtain ⟨t, required, hu⟩ := bind_eq_ok.1 hu
      obtain ⟨other, given, hu⟩ := bind_eq_ok.1 hu
      obtain rfl := pure_eq_ok.1 hu
      obtain rfl := Except.ok.inj given
      cases l with
      | plain v => cases required
      | tag t' =>
        obtain rfl := Except.ok.inj required
        exact merged _ (own _ hl)
    · exact pure_eq_ok.1 h ▸ own l hl
  · rw [← pure_eq_ok.1 h]
    intro l hl
    rcases List.mem_append.1 hl with hl | hl
    · exact own l hl
    · exact List.mem_singleton.1 hl ▸ new

theorem addInferred_labels {labels tags : List Label} {tag : Tag}
    (ht : tag.attributes.names.Nodup) (hl : ∀ l ∈ labels, l.IsTag)
    (h : addInferred labels tag = .ok tags) : ∀ l ∈ tags, l.IsTag :=
  addInferred_induct hl ⟨tag, rfl, ht⟩ (fun _ _ => ⟨_, rfl, Table.nodup_merge ht⟩) h

theorem inferTag_updates {id : String} {tag : Tag} (h : Build.Gives (inferTag id tag) g () g') :
    ∃ tags, addInferred (((g.find? id).map (·.tags)).getD []) tag = .ok tags ∧
      g' = g.update id fun d => { d with tags } := by
  obtain ⟨_, _, hg, h⟩ := Build.gives_bind h
  obtain ⟨rfl, rfl⟩ := Build.gives_graph.1 hg
  obtain ⟨tags, _, hc, h⟩ := Build.gives_bind h
  obtain ⟨added, rfl⟩ := Build.gives_check.1 hc
  refine ⟨tags, added, ?_⟩
  split at h
  · obtain ⟨_, _, hn, h⟩ := Build.gives_bind h
    obtain rfl := Build.gives_note.1 hn
    exact (Build.gives_change.1 h).symm
  · exact (Build.gives_change.1 h).symm

theorem inferTag_spec (tidy : g.Tidy) {id : String} {tag : Tag} (ht : tag.attributes.names.Nodup)
    (h : Build.Gives (inferTag id tag) g () g') : Changed Retagged g g' := by
  obtain ⟨tags, added, rfl⟩ := inferTag_updates h
  refine changed_update tidy.alone .refl fun d hd e => ⟨e, rfl, fun hl => ?_⟩
  rw [← e, find?_of_mem tidy.unique hd] at added
  exact addInferred_labels ht hl added

theorem Retagged.tidy (tidy : g.Tidy) (h : Changed Retagged g g') : g'.Tidy :=
  tidy.changed h fun _ _ hR => hR.labels

theorem autoconfigure_spec (sound : Sound rules) (tidy : g.Tidy) {d : Definition}
    (h : Build.Gives (autoconfigure rules d) g () g') :
    (∃ provided, d.providedCapabilities = .ok provided) ∧ Changed Retagged g g' := by
  obtain ⟨provided, _, hc, h⟩ := Build.gives_bind h
  obtain ⟨hp, rfl⟩ := Build.gives_check.1 hc
  refine ⟨⟨provided, hp⟩, ?_⟩
  refine Build.gives_forM (fun _ g₁ => Changed Retagged g g₁) h (.refl .refl) ?_
  intro done e rest g₁ g₂ split inv run
  have he : (e.1, e.2) ∈ inferred rules provided := by simp [split]
  exact inv.trans (inferTag_spec (Retagged.tidy tidy inv) (inferred_nodup sound he) run) .trans

/-! ## The index -/

theorem providedCapabilities_of_retagged {d d' : Definition} (h : Retagged d d') :
    d'.providedCapabilities = d.providedCapabilities := by
  rw [h.frame]
  rfl

/-- What a rebuild changes, and what it takes to succeed. -/
structure Rebuilt (index : TagIndex) (g : Graph) (index' : TagIndex) (g' : Graph) : Prop where
  changed : Changed Retagged g g'
  provided : ∀ d ∈ g'.definitions, d.isAbstract = false → ∃ vs, d.providedCapabilities = .ok vs
  entries : ∃ found, gather g'.definitions = .ok found ∧
    index' = { index with entries := found.map fun e => (e.1, Tagged.sort e.2) }

theorem rebuild_spec (sound : Sound index.rules) (tidy : g.Tidy)
    (h : Build.Gives index.rebuild g index' g') : Rebuilt index g index' g' := by
  obtain ⟨_, _, hg, h⟩ := Build.gives_bind h
  obtain ⟨rfl, rfl⟩ := Build.gives_graph.1 hg
  obtain ⟨_, g₁, hf, h⟩ := Build.gives_bind h
  obtain ⟨_, _, hg, h⟩ := Build.gives_bind h
  obtain ⟨rfl, rfl⟩ := Build.gives_graph.1 hg
  obtain ⟨found, _, hc, h⟩ := Build.gives_bind h
  obtain ⟨hgather, rfl⟩ := Build.gives_check.1 hc
  obtain ⟨rfl, rfl⟩ := Build.gives_pure.1 h
  obtain ⟨changed, provided⟩ := Build.gives_forM
    (fun done g₁ => Changed Retagged g g₁ ∧
      ∀ d ∈ done, ∃ vs, Recipe.providedCapabilities d = .ok vs)
    hf ⟨.refl .refl, by simp⟩
    fun done d rest g₁ g₂ split both run => by
      obtain ⟨inv, provided⟩ := both
      obtain ⟨hd, hc⟩ := autoconfigure_spec sound (Retagged.tidy tidy inv) run
      refine ⟨inv.trans hc .trans, fun e he => ?_⟩
      rcases List.mem_append.1 he with he | he
      · exact provided e he
      · exact List.mem_singleton.1 he ▸ hd
  refine ⟨changed, fun d' hd' concrete => ?_, found, hgather, rfl⟩
  obtain ⟨d, hd, -, hR⟩ := changed.exists_old hd'
  rw [providedCapabilities_of_retagged hR]
  refine provided d (List.mem_filter.2 ⟨hd, ?_⟩)
  rw [hR.frame] at concrete
  simpa using concrete

/-- Without rules, a rebuild changes nothing. -/
theorem rebuild_of_no_rules (none : index.rules = []) (h : Build.Gives index.rebuild g index' g') :
    g' = g := by
  obtain ⟨_, _, hg, h⟩ := Build.gives_bind h
  obtain ⟨rfl, rfl⟩ := Build.gives_graph.1 hg
  obtain ⟨_, g₁, hf, h⟩ := Build.gives_bind h
  obtain ⟨_, _, hg, h⟩ := Build.gives_bind h
  obtain ⟨rfl, rfl⟩ := Build.gives_graph.1 hg
  obtain ⟨found, _, hc, h⟩ := Build.gives_bind h
  obtain ⟨-, rfl⟩ := Build.gives_check.1 hc
  obtain ⟨-, rfl⟩ := Build.gives_pure.1 h
  refine Build.gives_forM (fun _ g₁ => g₁ = g) hf rfl fun done d rest g₁ g₂ _ inv run => ?_
  obtain ⟨provided, _, hc, run⟩ := Build.gives_bind run
  obtain ⟨-, rfl⟩ := Build.gives_check.1 hc
  rw [none] at run
  exact (Build.gives_pure.1 run).2 ▸ inv

/-- Without rules, a rebuild succeeds if capabilities can be keys and priorities are in order. -/
theorem rebuild_does (none : index.rules = [])
    (provided : ∀ d ∈ g.definitions, d.isAbstract = false → ∃ vs, d.providedCapabilities = .ok vs)
    {found : Table (List Tagged)} (gathered : gather g.definitions = .ok found) :
    Build.Does index.rebuild g
      { index with entries := found.map fun e => (e.1, Tagged.sort e.2) } g := by
  refine .bind .graph (.bind (.forM fun d hd => ?_) (.bind .graph (.bind (.check gathered) (.pure _))))
  obtain ⟨hd, concrete⟩ := List.mem_filter.1 hd
  obtain ⟨vs, hvs⟩ := provided d hd (by simpa using concrete)
  refine .bind (.check hvs) ?_
  rw [none]
  exact .pure ()

/-! ## What is found -/

section Best

variable {d : Definition} {best : Table Tagged} {tag : String} {e : Tagged}

theorem entryOf_eq_ok {l : Label} {b : String × Tagged} : entryOf d l = .ok b ↔
    ∃ t p, l = .tag t ∧ t.priority = .ok p ∧ b = (t.name, ⟨d.id, t.attributes, p⟩) := by
  cases l with
  | plain v => exact ⟨nofun, fun ⟨_, _, h, _⟩ => nomatch h⟩
  | tag t =>
    have priority : ∀ p, t.priority.mapError (blame d.id) = .ok p ↔ t.priority = .ok p := fun p => by
      cases t.priority <;> simp [Except.mapError]
    simp only [entryOf, Label.require, bind_eq_ok, pure_eq_ok, Except.ok.injEq, Label.tag.injEq,
      exists_eq_left', priority, eq_comm (b := b)]
    constructor
    · rintro ⟨p, h⟩
      exact ⟨t, p, rfl, h⟩
    · rintro ⟨_, p, rfl, h⟩
      exact ⟨p, h⟩

/-- The entries of a definition when a tag is taken in: it gives way to the one that is there unless
it has a higher priority. -/
def takeTag (d : Definition) (best : Table Tagged) (t : Tag) (p : Number) : Table Tagged :=
  if (best.get? t.name).all fun current => current.priority.lt p then
    best.put t.name ⟨d.id, t.attributes, p⟩
  else best

theorem get?_takeTag (d : Definition) (best : Table Tagged) (t : Tag) (p : Number) :
    (takeTag d best t p).get? tag =
      if tag = t.name ∧ (best.get? t.name).all (fun current => current.priority.lt p) = true then
        some ⟨d.id, t.attributes, p⟩
      else best.get? tag := by
  unfold takeTag
  by_cases higher : (best.get? t.name).all (fun current => current.priority.lt p) = true
  · rw [if_pos higher, Table.get?_put]
    simp only [higher, and_true]
  · rw [if_neg higher, if_neg fun h => higher h.2]

/-- What holds of no entries and is kept by each tag that is taken in holds of all entries of a
definition. -/
theorem bestEntries_induct (I : List Label → Table Tagged → Prop) (h : bestEntries d = .ok best)
    (start : I [] [])
    (step : ∀ done best t p, I done best → t.priority = .ok p →
      I (done ++ [.tag t]) (takeTag d best t p)) : I d.tags best := by
  refine foldlM_ok_done I h start fun done l best best' inv h => ?_
  obtain ⟨b, hb, h⟩ := bind_eq_ok.1 h
  obtain ⟨t, p, rfl, hp, rfl⟩ := entryOf_eq_ok.1 hb
  have same : best' = takeTag d best t p := by
    unfold takeTag
    cases hg : best.get? t.name with
    | none =>
      simp only [hg, pure_eq_ok] at h
      exact h.symm
    | some current =>
      simp only [hg, pure_eq_ok] at h
      exact h.symm
  exact same ▸ step done best t p inv hp

/-- Entries of a definition under the tags among the labels, one for each name. -/
structure Entries (d : Definition) (labels : List Label) (best : Table Tagged) : Prop where
  unique : best.names.Nodup
  tags : ∀ l ∈ labels, ∃ t, l = .tag t
  complete : ∀ t, .tag t ∈ labels → t.name ∈ best.names
  sound : ∀ tag e, best.get? tag = some e → e.service = d.id ∧
    ∃ t, .tag t ∈ labels ∧ t.name = tag ∧ t.priority = .ok e.priority

theorem Entries.nil : Entries d [] [] :=
  ⟨by simp [Table.names], by simp, by simp, by simp [Table.get?]⟩

theorem Entries.takeTag {labels : List Label} {t : Tag} {p : Number} (h : Entries d labels best)
    (hp : t.priority = .ok p) : Entries d (labels ++ [.tag t]) (takeTag d best t p) where
  unique := by
    unfold TagIndex.takeTag
    split
    · exact Table.nodup_put h.unique
    · exact h.unique
  tags l hl := by
    rcases List.mem_append.1 hl with hl | hl
    · exact h.tags l hl
    · exact ⟨t, List.mem_singleton.1 hl⟩
  complete u hu := by
    rw [← Table.get?_isSome, get?_takeTag]
    split
    · rfl
    next apart =>
      rw [Table.get?_isSome]
      rcases List.mem_append.1 hu with hu | hu
      · exact h.complete u hu
      · obtain rfl := Label.tag.inj (List.mem_singleton.1 hu)
        by_contra none
        exact apart ⟨rfl, by rw [Table.get?_eq_none_iff.2 none]; rfl⟩
  sound name e he := by
    rw [get?_takeTag] at he
    split at he
    next same =>
      obtain rfl := Option.some.inj he
      exact ⟨rfl, t, by simp, same.1.symm, hp⟩
    next =>
      obtain ⟨hs, u, hu, hn, hq⟩ := h.sound name e he
      exact ⟨hs, u, List.mem_append_left _ hu, hn, hq⟩

theorem bestEntries_entries (h : bestEntries d = .ok best) : Entries d d.tags best :=
  bestEntries_induct (Entries d) h .nil fun _ _ _ _ inv hp => inv.takeTag hp

/-- Entries can be found where all labels are tags with a priority. -/
theorem bestEntries_succeeds :
    (∃ best, bestEntries d = .ok best) ↔ ∀ l ∈ d.tags, ∃ t p, l = .tag t ∧ t.priority = .ok p := by
  unfold bestEntries
  refine foldlM_succeeds fun best l => ?_
  constructor
  · rintro ⟨best', h⟩
    obtain ⟨b, hb, -⟩ := bind_eq_ok.1 h
    obtain ⟨t, p, hl, hp, -⟩ := entryOf_eq_ok.1 hb
    exact ⟨t, p, hl, hp⟩
  · rintro ⟨t, p, rfl, hp⟩
    have entry : entryOf d (.tag t) = .ok (t.name, ⟨d.id, t.attributes, p⟩) :=
      entryOf_eq_ok.2 ⟨t, p, rfl, hp, rfl⟩
    simp only [bind_eq_ok, entry, Except.ok.injEq, exists_eq_left']
    split <;> exact ⟨_, rfl⟩

/-- What a definition has under a tag. -/
def entriesUnder (tag : String) (d : Definition) : List Tagged :=
  match bestEntries d with
  | .ok best => best.filterMap fun e => if e.1 = tag then some e.2 else none
  | .error _ => []

/-- A definition has one entry under a tag at most. -/
theorem entriesUnder_eq (h : bestEntries d = .ok best) :
    entriesUnder tag d = (best.get? tag).toList := by
  rw [entriesUnder, h]
  exact Table.filterMap_name (bestEntries_entries h).unique

end Best

theorem get?_filed (best : Table Tagged) (found : Table (List Tagged)) (tag : String) :
    ((best.foldl (fun found b =>
      Table.put found b.1 ((Table.get? found b.1).getD [] ++ [b.2])) found).get? tag).getD [] =
      (found.get? tag).getD [] ++ best.filterMap fun e => if e.1 = tag then some e.2 else none := by
  induction best generalizing found with
  | nil => simp
  | cons b best ih =>
    rw [List.foldl_cons, ih, Table.get?_put, List.filterMap_cons]
    by_cases e : tag = b.1
    · subst e
      simp
    · simp [e, Ne.symm e]

/-- What is gathered under a tag is what each definition has under it, one after the other. -/
theorem gather_get? {ds : List Definition} {found : Table (List Tagged)}
    (h : gather ds = .ok found) (tag : String) : (found.get? tag).getD [] =
      (ds.filter fun d => !d.isAbstract).flatMap (entriesUnder tag) := by
  refine foldlM_ok_done
    (fun done found => (found.get? tag).getD [] = done.flatMap (entriesUnder tag)) h rfl ?_
  intro done d found found' inv h
  obtain ⟨best, hb, h⟩ := bind_eq_ok.1 h
  obtain rfl := pure_eq_ok.1 h
  rw [get?_filed, inv, List.flatMap_append, List.flatMap_singleton, entriesUnder, hb]

theorem taggedIds_eq (found : Table (List Tagged)) (tag : String) :
    taggedIds { index with entries := found.map fun e => (e.1, Tagged.sort e.2) } tag =
      (Tagged.sort ((found.get? tag).getD [])).map (·.service) := by
  have sorted : Table.get? (found.map fun e => (e.1, Tagged.sort e.2)) tag =
      (found.get? tag).map Tagged.sort := by
    simp [Table.get?, List.find?_map, Function.comp_def]
  unfold taggedIds tagged
  rw [sorted]
  cases found.get? tag with
  | none => simp [Tagged.sort, Rank.sort]
  | some es => rfl

/-- Entries can be gathered if and only if each definition that is no template yields its own. -/
theorem gather_succeeds {ds : List Definition} : (∃ found, gather ds = .ok found) ↔
    ∀ d ∈ ds, d.isAbstract = false → ∃ best, bestEntries d = .ok best := by
  unfold gather
  rw [foldlM_succeeds (P := fun d => ∃ best, bestEntries d = .ok best) fun found d => ?_]
  · simp
  · simp only [bind_eq_ok, pure_eq_ok]
    constructor
    · rintro ⟨_, best, h, -⟩
      exact ⟨best, h⟩
    · rintro ⟨best, h⟩
      exact ⟨_, best, h, rfl⟩

/-- A definition has an entry of its own under each tag that it carries, and under no other. -/
theorem mem_entriesUnder {d : Definition} {best : Table Tagged} (h : bestEntries d = .ok best)
    {tag id : String} : (∃ e ∈ entriesUnder tag d, e.service = id) ↔
      d.id = id ∧ ∃ t, .tag t ∈ d.tags ∧ t.name = tag := by
  have entries := bestEntries_entries h
  simp only [entriesUnder_eq h, Option.mem_toList]
  constructor
  · rintro ⟨e, he, rfl⟩
    obtain ⟨hs, t, ht, hn, -⟩ := entries.sound tag e he
    exact ⟨hs.symm, t, ht, hn⟩
  · rintro ⟨rfl, t, ht, rfl⟩
    obtain ⟨e, he⟩ := Table.exists_get? (entries.complete t ht)
    exact ⟨e, he, (entries.sound _ e he).1⟩

/-- What is gathered under a tag are the definitions that carry it. -/
theorem mem_taggedIds {ds : List Definition} {found : Table (List Tagged)}
    (gathered : gather ds = .ok found) {tag id : String} :
    id ∈ taggedIds { index with entries := found.map fun e => (e.1, Tagged.sort e.2) } tag ↔
      ∃ d ∈ ds, d.id = id ∧ d.Carries tag := by
  have listed :
      id ∈ taggedIds { index with entries := found.map fun e => (e.1, Tagged.sort e.2) } tag ↔
        ∃ d, (d ∈ ds ∧ d.isAbstract = false) ∧ ∃ e ∈ entriesUnder tag d, e.service = id := by
    rw [taggedIds_eq, gather_get? gathered, Tagged.sort, ((Rank.sort_perm _ _).map _).mem_iff]
    simp only [List.mem_map, List.mem_flatMap, List.mem_filter, Bool.not_eq_true']
    constructor
    · rintro ⟨e, ⟨d, hd, he⟩, hid⟩
      exact ⟨d, hd, e, he, hid⟩
    · rintro ⟨d, hd, e, he, hid⟩
      exact ⟨e, ⟨d, hd, he⟩, hid⟩
  rw [listed]
  refine exists_congr fun d => ?_
  rw [and_assoc]
  refine and_congr_right fun hd => ?_
  unfold Definition.Carries
  rw [and_left_comm]
  refine and_congr_right fun concrete => ?_
  obtain ⟨best, hb⟩ := gather_succeeds.1 ⟨found, gathered⟩ d hd concrete
  exact mem_entriesUnder hb

/-- What a rebuild finds under a tag are the definitions that carry it. -/
theorem Rebuilt.mem_taggedIds (h : Rebuilt index g index' g') {tag id : String} :
    id ∈ index'.taggedIds tag ↔ ∃ d ∈ g'.definitions, d.id = id ∧ d.Carries tag := by
  obtain ⟨found, gathered, rfl⟩ := h.entries
  exact TagIndex.mem_taggedIds gathered

end TagIndex

end Wiring
