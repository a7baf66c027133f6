import Wiring.Proofs.Container.Twins

/-!
# Constructions that are retraced

Of two containers, one has plans in places where the other has services. Where the one has made an
instance, the other makes the like by the same steps: what its factory asks for next is what has
been asked for then. So all instances of one service have asked for the same, and what an instance
needed was made before any instance of its service.
-/

namespace Wiring

open Binding

/-! ## What is left to ask for -/

namespace Asks

variable {ρ : Nat → Nat} {asks asks' : Asks} {asked : List String} {obtained : List Value}
  {id : String} {next : Value → Asks} {P : String → Prop}

/-- What is asked for once a value has been obtained. -/
def answered : Asks → Value → Asks
  | .enough, _ => .enough
  | .ask _ next, v => next v

/-- What is asked for once some values have been obtained. -/
def after (asks : Asks) (vs : List Value) : Asks := vs.foldl answered asks

theorem after_concat (h : asks.after obtained = .ask id next) (v : Value) :
    asks.after (obtained ++ [v]) = next v := by
  unfold after at h ⊢
  rw [List.foldl_concat, h]
  rfl

theorem Alike.after (alike : Alike ρ asks asks') (vs : List Value) :
    Alike ρ (asks.after vs) (asks'.after (vs.map (Value.rename ρ))) := by
  induction vs generalizing asks asks' with
  | nil => exact alike
  | cons v vs ih =>
    cases alike with
    | enough => exact ih .enough
    | ask alike => exact ih (alike v)

theorem Gets.after (h : asks.Gets asked obtained) (n : Nat) :
    (asks.after (obtained.take n)).Gets (asked.drop n) (obtained.drop n) := by
  induction n generalizing asks asked obtained with
  | zero => exact h
  | succ n ih =>
    cases h with
    | enough => exact .enough
    | ask rest => exact ih rest

/-- Nothing is ever asked for but services of which `P` holds. -/
def Only (P : String → Prop) : Asks → Prop
  | .enough => True
  | .ask id next => P id ∧ ∀ v, Only P (next v)

theorem Only.of_gets (h : asks.Only P) (gets : asks.Gets asked obtained) : ∀ id ∈ asked, P id := by
  induction gets with
  | enough => exact fun _ hid => nomatch hid
  | ask _ ih =>
    intro id hid
    rcases List.mem_cons.1 hid with rfl | hid
    · exact h.1
    · exact ih (h.2 _) id hid

end Asks

/-- Factories never ask for anything but services of which `P` holds. -/
def Manner.Only (manner : Manner) (P : String → Prop) : Prop :=
  ∀ factory arguments keywords, (manner factory arguments keywords).Only P

/-- What the factory of a plan asks for, where the leaves of the plan have the given values. -/
def ServicePlan.asks (plan : ServicePlan) (manner : Manner) (ls : List Value) : Asks :=
  manner plan.factory ((fillAll plan.allBindings ls).take plan.arguments.length)
    ((plan.keywords.map (·.1)).zip ((fillAll plan.allBindings ls).drop plan.arguments.length))

/-- Plans that are the same but for plans in the place of services ask for the same. -/
theorem ServicePlan.Grown.asks_alike {plan plan' : ServicePlan} (grown : plan.Grown plan')
    {manner : Manner} (uniform : manner.Uniform) {ρ : Nat → Nat} (injective : Function.Injective ρ)
    (ls : List Value) :
    Asks.Alike ρ (plan.asks manner ls) (plan'.asks manner (ls.map (Value.rename ρ))) := by
  unfold ServicePlan.asks
  rw [grown.fill_eq, fillAll_rename, grown.factory_eq, grown.length_eq, grown.names_eq,
    ← List.map_take, ← List.map_drop, List.zip_map_right]
  exact uniform ρ injective _ _ _

namespace Container

variable {c c' : Container} {num : Nat} {manner : Manner} {roll roll' : Roll}
  {ids : List String} {vs vs' ls os : List Value} {n n' m m' j k : Nat} {e d d' : Item}
  {x : Name} {host plan : ServicePlan} {path : List Nat} {asked : List String}

theorem Records.gets (h : Records c num manner roll e) :
    (e.plan.asks manner e.leaves).Gets e.asked e.made.obtained := by
  have asks := h.asks
  rw [h.factory, h.arguments, h.keywords] at asks
  exact asks

theorem FillsAll.exists_fills {name : Nat → Name} {bs : List Binding} {v : Value}
    (h : FillsAll c num roll name 0 bs vs) (hv : vs[j]? = some v) :
    ∃ b, bs[j]? = some b ∧ Fills c num roll (name j) b v := by
  obtain ⟨b, hb, fills⟩ := forall₂_getElem? h hv
  rw [List.getElem?_zipIdx, Option.map_eq_some_iff] at hb
  obtain ⟨b, hb, rfl⟩ := hb
  rw [Nat.zero_add] at fills
  exact ⟨b, hb, fills⟩

theorem FillsAll.exists_filled {name : Nat → Name} {bs : List Binding} {b : Binding}
    (h : FillsAll c num roll name 0 bs vs) (hb : bs[j]? = some b) :
    ∃ v, vs[j]? = some v ∧ Fills c num roll (name j) b v := by
  have place : (bs.zipIdx)[j]? = some (b, j) := by
    rw [List.getElem?_zipIdx, hb, Option.map_some, Nat.zero_add]
  exact forall₂_getElem? h.flip place

theorem FillsAll.take {name : Nat → Name} {bs : List Binding}
    (h : FillsAll c num roll name k bs vs) (n : Nat) :
    FillsAll c num roll name k (bs.take n) (vs.take n) := by
  have places : (bs.zipIdx k).take n = (bs.take n).zipIdx k := List.ext_getElem? fun i => by
    rw [List.getElem?_take, List.getElem?_zipIdx, List.getElem?_zipIdx, List.getElem?_take]
    split <;> rfl
  have taken := List.forall₂_take n h
  rwa [places] at taken

/-! ## Two constructions side by side -/

/-- The construction by a plan in the place of a name has come as far as that of the instance `e`
has once been: the leaves of the plan have the values `ls`, and what has been asked for so far, with
the answers `os`, is what has been asked for then. -/
structure Retraces (c : Container) (num : Nat) (roll : Roll) (e : Item) (plan : ServicePlan)
    (x : Name) (asked : List String) (ls os : List Value) : Prop where
  leaves : FillsAll c num roll x.child 0 (leavesAll plan.allBindings) ls
  obtained : FillsAll c num roll x.child (leavesAll plan.allBindings).length
    (asked.map .service) os
  begun : asked <+: e.asked

/-- Instances that are in one place of two lists. -/
def Beside (vs vs' : List Value) (n n' : Nat) : Prop :=
  ∃ j : Nat, vs[j]? = some (Value.built n) ∧ vs'[j]? = some (Value.built n')

namespace Retraces

/-- All places of the construction, one after the other. -/
theorem parts (h : Retraces c num roll e plan x asked ls os) : FillsAll c num roll x.child 0
    (leavesAll plan.allBindings ++ asked.map .service) (ls ++ os) :=
  h.leaves.append (by simpa using h.obtained)

/-- The construction goes on with the answer to what has been asked for next. -/
theorem concat {new : Roll} {id : String} {v : Value} (h : Retraces c num roll e plan x asked ls os)
    (fills : Fills c num (roll ++ new)
      (x.child ((leavesAll plan.allBindings).length + os.length)) (.service id) v)
    (begun : asked ++ [id] <+: e.asked) :
    Retraces c num (roll ++ new) e plan x (asked ++ [id]) ls (os ++ [v]) where
  leaves := h.leaves.more new
  obtained := by
    have lengths : os.length = (asked.map Binding.service).length := h.obtained.length_eq
    rw [List.map_append]
    exact (h.obtained.more new).append (.single (lengths ▸ fills))
  begun := begun

/-- What is in one place of both constructions, bound to leaves that are the same. -/
theorem exists_grown (h : Retraces c' num roll' e plan x asked ls os)
    (records : Records c num manner roll e) (grown : e.plan.Grown plan) {v' : Value}
    (hv' : (ls ++ os)[j]? = some v') : ∃ b b' v, e.parts[j]? = some v ∧ b.Grown b' ∧
      (leavesAll plan.allBindings ++ asked.map Binding.service)[j]? = some b' ∧
      Fills c num roll (e.name.child j) b v ∧ Fills c' num roll' (x.child j) b' v' := by
  obtain ⟨b', hb', fills'⟩ := h.parts.exists_fills hv'
  obtain ⟨rest, more⟩ := h.begun
  have all : List.Forall₂ Binding.Grown (leavesAll e.plan.allBindings ++ asked.map Binding.service)
      (leavesAll plan.allBindings ++ asked.map Binding.service) :=
    List.rel_append grown.leaves (List.forall₂_same.2 fun b hb => by
      obtain ⟨id, -, rfl⟩ := List.mem_map.1 hb
      exact .service)
  obtain ⟨b, hb, same⟩ := forall₂_getElem? all hb'
  have hb : (leavesAll e.plan.allBindings ++ e.asked.map Binding.service)[j]? = some b := by
    rw [← more, List.map_append, ← List.append_assoc]
    exact getElem?_more _ hb
  obtain ⟨v, hv, fills⟩ := records.parts.exists_filled hb
  exact ⟨b, b', v, hv, same, hb', fills, fills'⟩

end Retraces

/-- How an instance lies in place `j` of the construction by a plan: it is one of a service, or it
was made by a plan that is in this place. -/
inductive Lies (c : Container) (plan : ServicePlan) (x : Name) (j : Nat) (d : Item) : Prop
  | service : c.plan? d.plan.id = some d.plan →
      (d.name = if d.plan.isShared then ⟨.shared d.plan.id, []⟩ else x.child j) → Lies c plan x j d
  | inline : (leavesAll plan.allBindings)[j]? = some (.inline d.plan) → d.name = x.child j →
      Lies c plan x j d

theorem Lies.exists_part (h : Lies c plan x j d) (part : Part c host path plan) :
    ∃ host path, Part c host path d.plan := by
  cases h with
  | service hp => exact ⟨d.plan, [], hp, rfl⟩
  | inline leaf => exact ⟨host, path ++ [j], part.planned, ServicePlan.part?_concat part.found leaf⟩

section Sides

variable (written : Written c num manner roll) (written' : Written c' num manner roll')
  (embeds : Embeds c c') (part : Part c' host path plan)

section Pairs

variable (h : Retraces c' num roll' e plan x asked ls os) (hn : roll[k]? = some e)
  (grown : e.plan.Grown plan)

include written embeds part h hn grown

/-- Instances in one place are of one service, and their places are alike. -/
theorem exists_pair (hv : e.parts[j]? = some (.built n)) (hv' : (ls ++ os)[j]? = some (.built n')) :
    ∃ d d', roll[n]? = some d ∧ roll'[n']? = some d' ∧ d'.plan.id = d.plan.id ∧
      d'.plan.isShared = d.plan.isShared ∧
      (d.name = if d.plan.isShared then ⟨.shared d.plan.id, []⟩ else e.name.child j) ∧
      Lies c' plan x j d' := by
  obtain ⟨b, b', v, there, same, hb', fills, fills'⟩ :=
    h.exists_grown (written.recorded hn) grown hv'
  obtain rfl := Option.some.inj (hv.symm.trans there)
  have shares {d d' : Item} (lies : Lies c' plan x j d') (hp : c.plan? d'.plan.id = some d.plan) :
      d'.plan.isShared = d.plan.isShared := by
    obtain ⟨host, path, inner⟩ := lies.exists_part part
    obtain ⟨plan₀, hp₀, grown⟩ := embeds.grown host path _ inner
    rw [grown.isShared_eq, Option.some.inj (hp.symm.trans hp₀)]
  cases same with
  | value still => exact absurd (fills ▸ still) (Value.not_still_built n)
  | deferred => cases fills
  | service =>
    obtain ⟨i, d, same, hd, hp, named⟩ := fills
    obtain rfl := Value.built.inj same
    obtain ⟨i', d', same', hd', hp', named'⟩ := fills'
    obtain rfl := Value.built.inj same'
    obtain rfl := id_of_plan? hp'
    have ids := id_of_plan? hp
    have lies : Lies c' plan x j d' := .service hp' named'
    exact ⟨d, d', hd, hd', ids.symm, shares lies hp, ids ▸ named, lies⟩
  | inline =>
    obtain ⟨i, d, same, hd, hp, named⟩ := fills
    obtain rfl := Value.built.inj same
    obtain ⟨i', d', same', hd', rfl, named'⟩ := fills'
    obtain rfl := Value.built.inj same'
    have ids := id_of_plan? hp
    have leaf : (leavesAll plan.allBindings)[j]? = some (.inline d'.plan) := by
      rw [List.getElem?_append] at hb'
      split at hb'
      · exact hb'
      · obtain ⟨id, -, same⟩ := List.mem_map.1 (List.mem_of_getElem? hb')
        cases same
    have lies : Lies c' plan x j d' := .inline leaf named'
    exact ⟨d, d', hd, hd', ids.symm, shares lies hp, ids ▸ named, lies⟩

include written'

/-- An instance is beside one. -/
theorem Beside.unique (b : Beside e.parts (ls ++ os) n n') (b' : Beside e.parts (ls ++ os) n m') :
    n' = m' := by
  obtain ⟨i, hi, hi'⟩ := b
  obtain ⟨j, hj, hj'⟩ := b'
  obtain ⟨d, d₁, hd, hd₁, ids₁, shared₁, named, lies₁⟩ :=
    exists_pair written embeds part h hn grown hi hi'
  obtain ⟨d', d₂, hd', hd₂, ids₂, shared₂, named', lies₂⟩ :=
    exists_pair written embeds part h hn grown hj hj'
  obtain rfl := Option.some.inj (hd.symm.trans hd')
  have onePlace (same : i = j) : n' = m' := by
    subst same
    exact Value.built.inj (Option.some.inj (hi'.symm.trans hj'))
  cases shared : d.plan.isShared with
  | false =>
    simp only [shared, Bool.false_eq_true, if_false] at named named'
    exact onePlace (Name.child_inj (named.symm.trans named')).2
  | true =>
    have ids : d₁.plan.id = d₂.plan.id := ids₁.trans ids₂.symm
    have inner {j : Nat} {d : Item}
        (leaf : (leavesAll plan.allBindings)[j]? = some (.inline d.plan)) :
        Part c' host (path ++ [j]) d.plan :=
      ⟨part.planned, ServicePlan.part?_concat part.found leaf⟩
    cases lies₁ with
    | service hp₁ named₁ =>
      cases lies₂ with
      | service hp₂ named₂ =>
        rw [if_pos (shared₁.trans shared)] at named₁
        rw [if_pos (shared₂.trans shared)] at named₂
        exact written'.inj hd₁ hd₂ (by rw [named₁, named₂, ids])
      | inline leaf =>
        have := (embeds.alone _ _ [] _ _ _ ⟨hp₁, rfl⟩ (inner leaf) ids).2
        simp at this
    | inline leaf =>
      cases lies₂ with
      | service hp₂ =>
        have := (embeds.alone _ _ _ [] _ _ (inner leaf) ⟨hp₂, rfl⟩ ids).2
        simp at this
      | inline leaf' =>
        have := (embeds.alone _ _ _ _ _ _ (inner leaf) (inner leaf') ids).2
        exact onePlace (by simpa using this)

omit written' in
theorem Beside.unique' (b : Beside e.parts (ls ++ os) n n') (b' : Beside e.parts (ls ++ os) m n') :
    n = m := by
  obtain ⟨i, hi, hi'⟩ := b
  obtain ⟨j, hj, hj'⟩ := b'
  obtain ⟨d₁, d, hd₁, hd, ids₁, shared₁, named₁, lies₁⟩ :=
    exists_pair written embeds part h hn grown hi hi'
  obtain ⟨d₂, d', hd₂, hd', ids₂, shared₂, named₂, lies₂⟩ :=
    exists_pair written embeds part h hn grown hj hj'
  obtain rfl := Option.some.inj (hd.symm.trans hd')
  have onePlace (same : x.child i = x.child j) : n = m := by
    obtain rfl := (Name.child_inj same).2
    exact Value.built.inj (Option.some.inj (hi.symm.trans hj))
  cases shared : d.plan.isShared with
  | false =>
    have place {j : Nat} (lies : Lies c' plan x j d) : d.name = x.child j := by
      cases lies with
      | service _ named => simpa [shared] using named
      | inline _ named => exact named
    exact onePlace ((place lies₁).symm.trans (place lies₂))
  | true =>
    rw [if_pos (shared₁.symm.trans shared)] at named₁
    rw [if_pos (shared₂.symm.trans shared)] at named₂
    exact written.inj hd₁ hd₂ (by rw [named₁, named₂, ← ids₁, ← ids₂])

/-- The parts of the construction are those of the instance, renumbered. -/
theorem Retraces.exists_renaming : ∃ ρ : Nat → Nat, Function.Injective ρ ∧
    ls = e.leaves.map (Value.rename ρ) ∧
      os = (e.made.obtained.take os.length).map (Value.rename ρ) := by
  have records := written.recorded hn
  have below (n n' : Nat) (b : Beside e.parts (ls ++ os) n n') : n' < roll'.length := by
    obtain ⟨j, hj, hj'⟩ := b
    obtain ⟨_, d', -, hd', -⟩ := exists_pair written embeds part h hn grown hj hj'
    exact (List.getElem?_eq_some_iff.1 hd').1
  obtain ⟨ρ, injective, beside⟩ := exists_injective below
    (fun _ _ _ b b' => b.unique written written' embeds part h hn grown b')
    fun _ _ _ b b' => b.unique' written embeds part h hn grown b'
  have each {j : Nat} {v' : Value} (hv' : (ls ++ os)[j]? = some v') :
      ∃ v, e.parts[j]? = some v ∧ v' = v.rename ρ := by
    obtain ⟨b, b', v, hv, same, -, fills, fills'⟩ := h.exists_grown records grown hv'
    refine ⟨v, hv, ?_⟩
    cases same with
    | value still =>
      obtain rfl : v = _ := fills
      obtain rfl : v' = v := fills'
      exact (still ρ).symm
    | deferred =>
      obtain rfl : v = _ := fills
      obtain rfl : v' = _ := fills'
      rfl
    | service | inline =>
      obtain ⟨n, -, rfl, -⟩ := fills
      obtain ⟨n', -, rfl, -⟩ := fills'
      rw [Value.rename, beside n n' ⟨j, hv, hv'⟩]
  have whole : ls ++ os = (e.parts.take (ls ++ os).length).map (Value.rename ρ) := by
    refine List.ext_getElem? fun j => ?_
    rw [List.getElem?_map, List.getElem?_take]
    split
    next lt =>
      have hv' := List.getElem?_eq_getElem lt
      obtain ⟨v, hv, same⟩ := each hv'
      rw [hv', hv, same, Option.map_some]
    next ge => rw [List.getElem?_eq_none (Nat.not_lt.1 ge), Option.map_none]
  have lengths : ls.length = e.leaves.length := by
    rw [h.leaves.length_eq, records.leaves.length_eq, grown.leaves.length_eq]
  rw [List.length_append, lengths, Item.parts, List.take_length_add_append, List.map_append]
    at whole
  have split := List.append_inj whole (by rw [lengths, List.length_map])
  exact ⟨ρ, injective, split⟩

/-- What the construction asks for next is what the instance has asked for. -/
theorem Retraces.next (uniform : manner.Uniform) {id : String} {next : Value → Asks}
    (asks : (plan.asks manner ls).after os = .ask id next) : asked ++ [id] <+: e.asked := by
  obtain ⟨ρ, injective, rfl, same⟩ := h.exists_renaming written written' embeds part hn grown
  have alike := (grown.asks_alike uniform injective e.leaves).after
    (e.made.obtained.take os.length)
  rw [← same, asks] at alike
  have gets := (written.recorded hn).gets.after os.length
  obtain ⟨rest, more⟩ := h.begun
  have far : e.asked.drop os.length = rest := by
    have lengths : os.length = asked.length := by rw [h.obtained.length_eq, List.length_map]
    rw [← more, lengths, List.drop_left]
  rw [far] at gets
  generalize (e.plan.asks manner e.leaves).after (e.made.obtained.take os.length) = left
    at alike gets
  generalize e.made.obtained.drop os.length = later at gets
  cases alike with
  | ask alike =>
    cases gets with
    | ask => exact ⟨_, by rw [← more, List.append_assoc]; rfl⟩

end Pairs

end Sides

/-! ## Instances of one service -/

/-- Instances of one service have asked for the same. -/
theorem Complete.asked_eq (complete : Complete c num manner roll ids vs) (embeds : Embeds c c)
    (uniform : manner.Uniform) (hn : roll[n]? = some e) (hm : roll[m]? = some d)
    (same : d.plan.id = e.plan.id) : d.asked = e.asked := by
  have written := complete.written
  -- all that one of them has asked for, the other has asked for too
  have leads {n m : Nat} {e d : Item} (hn : roll[n]? = some e) (hm : roll[m]? = some d)
      (same : d.plan.id = e.plan.id) : d.asked <+: e.asked := by
    have part : Part c d.plan [] d.plan := ⟨complete.planned embeds hm, rfl⟩
    obtain ⟨plan₀, hp, grown⟩ := embeds.grown _ _ _ part
    obtain rfl := Option.some.inj ((same ▸ complete.planned embeds hn).symm.trans hp)
    have records := written.recorded hm
    suffices upTo : ∀ k ≤ d.asked.length, d.asked.take k <+: e.asked by
      simpa using upTo d.asked.length le_rfl
    intro k le
    induction k with
    | zero => exact List.nil_prefix
    | succ k ih =>
      have retraces : Retraces c num roll e d.plan d.name (d.asked.take k) d.leaves
          (d.made.obtained.take k) :=
        ⟨records.leaves, by simpa using records.obtained.take k, ih (Nat.le_of_succ_le le)⟩
      have gets := records.gets.after k
      rw [List.drop_eq_getElem_cons le] at gets
      generalize asks : (d.plan.asks manner d.leaves).after (d.made.obtained.take k) = left at gets
      generalize d.made.obtained.drop k = later at gets
      cases gets with
      | ask =>
        rw [List.take_succ_eq_append_getElem le]
        exact retraces.next written written embeds part hn grown uniform asks
  exact (leads hn hm same).eq_of_length_le (leads hm hn same.symm).length_le

/-- There is an instance of the service on the roll. -/
def OnRoll (roll : Roll) (id : String) : Prop := ∃ e ∈ roll, e.plan.id = id

/-- What has been requested is on the roll. -/
theorem Complete.onRoll (complete : Complete c num manner roll ids vs) {id : String}
    (hid : id ∈ ids) : OnRoll roll id := by
  obtain ⟨j, hj⟩ := List.mem_iff_getElem?.1 (List.mem_map_of_mem (f := Binding.service) hid)
  obtain ⟨-, -, n, e, -, hn, hp, -⟩ := complete.answers.exists_filled hj
  exact ⟨e, List.mem_of_getElem? hn, id_of_plan? hp⟩

/-- An instance of the service `a` has needed the service `b`, for a leaf or because its factory has
asked for it. -/
def Needed (roll : Roll) (a b : String) : Prop :=
  ∃ e ∈ roll, e.plan.id = a ∧ (.service b ∈ leavesAll e.plan.allBindings ∨ b ∈ e.asked)

/-- The place of the first instance of a service. -/
def firstOf (roll : Roll) (id : String) : Nat := roll.findIdx fun e => e.plan.id == id

/-- What an instance of a service has needed was made before any instance of the service. -/
theorem Complete.first_lt (complete : Complete c num manner roll ids vs) (embeds : Embeds c c)
    (uniform : manner.Uniform) {a b : String} (needed : Needed roll a b) :
    OnRoll roll b ∧ firstOf roll b < firstOf roll a := by
  obtain ⟨e, he, rfl, needs⟩ := needed
  obtain ⟨n, hn⟩ := List.mem_iff_getElem?.1 he
  -- the first instance of the service has needed the same
  have lt : firstOf roll e.plan.id < roll.length :=
    List.findIdx_lt_length_of_exists ⟨e, he, by simp⟩
  obtain ⟨d, hd⟩ : ∃ d, roll[firstOf roll e.plan.id]? = some d := ⟨_, List.getElem?_eq_getElem lt⟩
  have same : d.plan.id = e.plan.id := by
    obtain ⟨lt, rfl⟩ := List.getElem?_eq_some_iff.1 hd
    have found := List.findIdx_getElem (w := lt)
    exact beq_iff_eq.1 found
  have plans : d.plan = e.plan := Option.some.inj
    ((complete.planned embeds hd).symm.trans (same ▸ complete.planned embeds hn))
  rw [← plans, ← complete.asked_eq embeds uniform hn hd same] at needs
  have place : Binding.service b ∈ leavesAll d.plan.allBindings ++ d.asked.map .service := by
    rcases needs with leaf | asked
    · exact List.mem_append_left _ leaf
    · exact List.mem_append_right _ (List.mem_map_of_mem asked)
  obtain ⟨j, hj⟩ := List.mem_iff_getElem?.1 place
  obtain ⟨-, -, k, d', -, hk, hp, -⟩ := (complete.written.records hd).parts.exists_filled hj
  obtain rfl := id_of_plan? hp
  rw [List.getElem?_take] at hk
  split at hk
  next earlier =>
    refine ⟨⟨d', List.mem_of_getElem? hk, rfl⟩, Nat.lt_of_not_le fun le => ?_⟩
    obtain ⟨_, rfl⟩ := List.getElem?_eq_some_iff.1 hk
    have other := List.not_of_lt_findIdx (Nat.lt_of_lt_of_le earlier le)
    simp at other
  next => cases hk

/-- What services have needed ranks them. -/
theorem Complete.exists_ranks (complete : Complete c num manner roll ids vs) (embeds : Embeds c c)
    (uniform : manner.Uniform) (as : List String) : ∃ rank : String → Nat,
      (∀ a ∈ as, rank a < as.length) ∧ ∀ a b, Needed roll a b → b ∈ as → rank b < rank a := by
  refine exists_rank (fun a b needed path => ?_) as
  have le {a b : String} (path : Relation.ReflTransGen (Needed roll) a b) :
      firstOf roll b ≤ firstOf roll a := by
    induction path with
    | refl => exact le_rfl
    | tail _ step ih => exact ((complete.first_lt embeds uniform step).2.trans_le ih).le
  exact Nat.not_lt.2 (le path) (complete.first_lt embeds uniform needed).2

end Container

end Wiring
