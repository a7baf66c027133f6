import Wiring.Proofs.Container.Answers
import Wiring.Proofs.Container.Places

/-!
# Two rolls side by side

Of two containers, one has plans in places where the other has services. Where both answer the same
requests, each instance on the one roll has a twin on the other, which is found by its name, and
which is the same but for the numbers of instances.
-/

namespace Wiring.Container

open Binding

variable {c c' c₀ : Container} {num : Nat} {manner : Manner} {roll roll' : Roll}
  {ids ids' : List String} {vs vs' : List Value} {n n' m m' k : Nat} {e e' d d' : Item}
  {x x' : Name} {b b' : Binding} {v v' : Value}

/-! ## Places of instances -/

/-- The plan of an instance is in a place of a plan of the container, and so is the instance in an
instance of that, of which there is no other if it is shared. -/
def Seated (c : Container) (e : Item) : Prop :=
  ∃ (plan : ServicePlan) (path : List Nat) (base : Name), Part c plan path e.plan ∧
    e.name = base.below path ∧ (plan.isShared = true → base = ⟨.shared plan.id, []⟩)

theorem Seated.of_service (hp : c.plan? e.plan.id = some e.plan)
    (shared : e.plan.isShared = true → e.name = ⟨.shared e.plan.id, []⟩) : Seated c e :=
  ⟨e.plan, [], e.name, ⟨hp, rfl⟩, e.name.below_nil.symm, shared⟩

/-- What is in a leaf of an instance that has a place has a place. -/
theorem Seated.of_leaf (seated : Seated c d)
    (leaf : (leavesAll d.plan.allBindings)[k]? = some (.inline e.plan))
    (named : e.name = d.name.child k) : Seated c e := by
  obtain ⟨plan, path, base, part, same, shared⟩ := seated
  refine ⟨plan, path ++ [k], base, ⟨part.planned, ServicePlan.part?_concat part.found leaf⟩, ?_,
    shared⟩
  rw [named, same, Name.child_below]

theorem Seated.exists_grown (seated : Seated c e) (embeds : Embeds c₀ c) :
    ∃ plan₀, c₀.plan? e.plan.id = some plan₀ ∧ plan₀.Grown e.plan := by
  obtain ⟨plan, path, base, part, -⟩ := seated
  exact embeds.grown plan path e.plan part

/-- A service that is asked for has a plan of its own. -/
theorem Fills.seated {id : String} (h : Fills c num roll x (.service id) (.built n))
    (hn : roll[n]? = some e) : Seated c e := by
  obtain ⟨k, d, same, hk, hp, named⟩ := h
  obtain rfl := Value.built.inj same
  obtain rfl := Option.some.inj (hn.symm.trans hk)
  obtain rfl := id_of_plan? hp
  exact .of_service hp fun shared => by simpa [shared] using named

/-- Every instance has a place. -/
theorem Complete.seated (h : Complete c num manner roll ids vs) (embeds : Embeds c₀ c)
    (hn : roll[n]? = some e) : Seated c e := by
  have stems := h.stems n (List.getElem?_eq_some_iff.1 hn).1
  induction stems generalizing e with
  | @here n there =>
    obtain ⟨p, hp, fills⟩ := forall₂_mem_right h.answers there
    obtain ⟨id, -, hid⟩ := List.mem_map.1 (List.fst_mem_of_mem_zipIdx hp)
    rw [← hid] at fills
    exact fills.seated hn
  | @part n k _ partOf ih =>
    obtain ⟨d, hd, hk⟩ := partOf
    have seated := ih hd
    obtain ⟨⟨b, j⟩, hj, fills⟩ := forall₂_mem_right (h.written.recorded hd).parts hk
    have hj : (leavesAll d.plan.allBindings ++ d.asked.map Binding.service)[j]? = some b :=
      List.mem_zipIdx_iff_getElem?.1 hj
    rw [List.getElem?_append] at hj
    split at hj
    · obtain ⟨plan₀, -, grown⟩ := seated.exists_grown embeds
      obtain ⟨b₀, -, leaf⟩ := forall₂_mem_right grown.leaves (List.mem_of_getElem? hj)
      cases leaf with
      | value still => exact absurd (fills ▸ still) (Value.not_still_built k)
      | deferred => cases fills
      | service => exact fills.seated hn
      | inline =>
        obtain ⟨i, e', same, hi, rfl, named⟩ := fills
        obtain rfl := Value.built.inj same
        obtain rfl := Option.some.inj (hn.symm.trans hi)
        exact seated.of_leaf hj named
    · obtain ⟨id, -, rfl⟩ := List.mem_map.1 (List.mem_of_getElem? hj)
      exact fills.seated hn

/-- There is one instance of each shared service. -/
def Lone (roll : Roll) : Prop := ∀ (n m : Nat) (e d : Item), roll[n]? = some e → roll[m]? = some d →
  e.plan.isShared = true → e.plan.id = d.plan.id → n = m

theorem Complete.lone (h : Complete c num manner roll ids vs) (embeds : Embeds c₀ c) :
    Lone roll := fun n m e d hn hm shared same => by
  obtain ⟨plan, path, base, part, named, lone⟩ := h.seated embeds hn
  obtain ⟨plan', path', base', part', named', lone'⟩ := h.seated embeds hm
  obtain ⟨rfl, rfl⟩ := embeds.alone plan plan' path path' _ _ part part' same
  have shared := embeds.shared plan path _ part shared
  exact h.written.inj hn hm (by rw [named, named', lone shared, lone' shared])

/-! ## Twins -/

/-- Instances of one service, which is shared or not. -/
structure Alike (roll roll' : Roll) (n n' : Nat) (e e' : Item) (shared : Bool) : Prop where
  there : roll[n]? = some e
  there' : roll'[n']? = some e'
  id_eq : e'.plan.id = e.plan.id
  isShared : e.plan.isShared = shared
  isShared' : e'.plan.isShared = shared

/-- Instances of the same services in the same places. A shared service has one instance, wherever
its place is. -/
inductive Twins (roll roll' : Roll) : Nat → Nat → Prop
  | shared {n n' : Nat} {e e' : Item} : Alike roll roll' n n' e e' true → Twins roll roll' n n'
  | answer {n n' k : Nat} {e e' : Item} : Alike roll roll' n n' e e' false →
      e.name = answer k → e'.name = answer k → Twins roll roll' n n'
  | child {m m' n n' k : Nat} {d d' e e' : Item} : Twins roll roll' m m' → roll[m]? = some d →
      roll'[m']? = some d' → Alike roll roll' n n' e e' false → e.name = d.name.child k →
      e'.name = d'.name.child k → Twins roll roll' n n'

theorem Alike.symm {shared : Bool} (h : Alike roll roll' n n' e e' shared) :
    Alike roll' roll n' n e' e shared := ⟨h.there', h.there, h.id_eq.symm, h.isShared', h.isShared⟩

namespace Twins

theorem symm (h : Twins roll roll' n n') : Twins roll' roll n' n := by
  induction h with
  | shared alike => exact .shared alike.symm
  | answer alike named named' => exact .answer alike.symm named' named
  | child _ hm hm' alike named named' ih => exact .child ih hm' hm alike.symm named' named

theorem exists_alike (h : Twins roll roll' n n') :
    ∃ e e' shared, Alike roll roll' n n' e e' shared := by
  cases h with
  | shared alike => exact ⟨_, _, _, alike⟩
  | answer alike => exact ⟨_, _, _, alike⟩
  | child _ _ _ alike => exact ⟨_, _, _, alike⟩

/-- An instance has one twin. -/
theorem unique (written : Written c num manner roll) (written' : Written c' num manner roll')
    (lone : Lone roll') (h : Twins roll roll' n n') (h' : Twins roll roll' n m') : n' = m' := by
  -- whatever the twins are, they are twins of one instance
  have one {n m m' : Nat} {e e' d d' : Item} {shared shared' : Bool}
      (alike : Alike roll roll' n m e e' shared) (alike' : Alike roll roll' n m' d d' shared') :
      e = d ∧ shared = shared' := by
    have same := Option.some.inj (alike.there.symm.trans alike'.there)
    exact ⟨same, alike.isShared.symm.trans (same ▸ alike'.isShared)⟩
  induction h generalizing m' with
  | @shared n n' e e' alike =>
    cases h' with
    | @shared _ _ d d' alike' =>
      obtain ⟨rfl, -⟩ := one alike alike'
      exact lone n' m' e' d' alike.there' alike'.there' alike.isShared'
        (alike.id_eq.trans alike'.id_eq.symm)
    | answer alike' => cases (one alike alike').2
    | child _ _ _ alike' => cases (one alike alike').2
  | @answer n n' k e e' alike named named' =>
    cases h' with
    | shared alike' => cases (one alike alike').2
    | @answer _ _ j d d' alike' named₁ named₁' =>
      obtain ⟨rfl, -⟩ := one alike alike'
      obtain rfl : k = j := Root.request.inj (congrArg Name.root (named.symm.trans named₁))
      exact written'.inj alike.there' alike'.there' (named'.trans named₁'.symm)
    | child _ _ _ alike' named₁ =>
      obtain ⟨rfl, -⟩ := one alike alike'
      exact absurd (named₁.symm.trans named) Name.child_ne_root
  | @child m m₁ n n' k d d' e e' _ hm hm' alike named named' ih =>
    cases h' with
    | shared alike' => cases (one alike alike').2
    | answer alike' named₁ =>
      obtain ⟨rfl, -⟩ := one alike alike'
      exact absurd (named.symm.trans named₁) Name.child_ne_root
    | @child i i' _ _ j a a' b b' twins hi hi' alike' named₁ named₁' =>
      obtain ⟨rfl, -⟩ := one alike alike'
      obtain ⟨host, rfl⟩ := Name.child_inj (named.symm.trans named₁)
      obtain rfl := written.inj hm hi host
      obtain rfl := ih twins
      obtain rfl := Option.some.inj (hm'.symm.trans hi')
      exact written'.inj alike.there' alike'.there' (named'.trans named₁'.symm)

end Twins

/-- Places of one request, or in one leaf of twins. -/
def Abreast (roll roll' : Roll) (x x' : Name) : Prop :=
  (∃ k, x = answer k ∧ x' = answer k) ∨ ∃ (m m' k : Nat) (d d' : Item), Twins roll roll' m m' ∧
    roll[m]? = some d ∧ roll'[m']? = some d' ∧ x = d.name.child k ∧ x' = d'.name.child k

/-- Instances of one service in places abreast are twins. -/
theorem Seated.twins (seated : Seated c' e') (embeds : Embeds c c') (hn : roll[n]? = some e)
    (hn' : roll'[n']? = some e') (hp : c.plan? e'.plan.id = some e.plan)
    (abreast : Abreast roll roll' x x') (named : e.plan.isShared = false → e.name = x)
    (named' : e'.plan.isShared = false → e'.name = x') : Twins roll roll' n n' := by
  obtain ⟨plan₀, hp₀, grown⟩ := seated.exists_grown embeds
  obtain rfl := Option.some.inj (hp.symm.trans hp₀)
  have alike {shared : Bool} (same : e.plan.isShared = shared) :
      Alike roll roll' n n' e e' shared :=
    ⟨hn, hn', grown.id_eq, same, grown.isShared_eq.trans same⟩
  cases single : e.plan.isShared with
  | true => exact .shared (alike single)
  | false =>
    have named := named single
    have named' := named' (grown.isShared_eq.trans single)
    rcases abreast with ⟨k, rfl, rfl⟩ | ⟨m, m', k, d, d', twins, hm, hm', rfl, rfl⟩
    · exact .answer (alike single) named named'
    · exact .child twins hm hm' (alike single) named named'

/-- Values that are the same, but for instances that are twins. -/
abbrev Matches (roll roll' : Roll) : Value → Value → Prop := Value.Matches (Twins roll roll')

section Sides

variable (h : Complete c num manner roll ids vs) (h' : Complete c' num manner roll' ids vs')
  (embeds : Embeds c c) (embeds' : Embeds c c')

section Values

include h' embeds'

/-- Leaves that are the same have values that are the same. -/
theorem matches_of_fills (grown : b.Grown b') (abreast : Abreast roll roll' x x')
    (fills : Fills c num roll x b v) (fills' : Fills c' num roll' x' b' v') :
    Matches roll roll' v v' := by
  cases grown with
  | value still =>
    obtain rfl : v = _ := fills
    obtain rfl : v' = v := fills'
    exact .still still
  | deferred =>
    obtain rfl : v = _ := fills
    obtain rfl : v' = _ := fills'
    exact .still fun _ => rfl
  | service =>
    obtain ⟨n, e, rfl, hn, hp, named⟩ := fills
    obtain ⟨n', e', rfl, hn', hp', named'⟩ := fills'
    obtain rfl := id_of_plan? hp'
    exact .related ((h'.seated embeds' hn').twins embeds' hn hn' hp abreast
      (fun single => by simpa [single] using named) fun single => by simpa [single] using named')
  | inline =>
    obtain ⟨n, e, rfl, hn, hp, named⟩ := fills
    obtain ⟨n', e', rfl, hn', rfl, named'⟩ := fills'
    exact .related ((h'.seated embeds' hn').twins embeds' hn hn' hp abreast
      (fun single => by simpa [single] using named) fun _ => named')

theorem matches_of_fillsAll {bs bs' : List Binding} {us us' : List Value} {name name' : Nat → Name}
    (grown : List.Forall₂ Binding.Grown bs bs')
    (abreast : ∀ j, Abreast roll roll' (name j) (name' j))
    (fills : FillsAll c num roll name k bs us) (fills' : FillsAll c' num roll' name' k bs' us') :
    List.Forall₂ (Matches roll roll') us us' := by
  induction grown generalizing k us us' with
  | nil =>
    cases fills
    cases fills'
    exact .nil
  | cons grown _ ih =>
    obtain ⟨v, us, rfl, first, fills⟩ := fills.exists_cons
    obtain ⟨v', us', rfl, first', fills'⟩ := fills'.exists_cons
    exact .cons (matches_of_fills h' embeds' grown (abreast k) first first') (ih fills fills')

/-- The answers are the same. -/
theorem matches_answers (h : Complete c num manner roll ids vs) :
    List.Forall₂ (Matches roll roll') vs vs' :=
  matches_of_fillsAll h' embeds' (List.forall₂_same.2 fun b hb => by
    obtain ⟨id, -, rfl⟩ := List.mem_map.1 hb
    exact .service) (fun k => .inl ⟨k, rfl, rfl⟩) h.answers h'.answers

/-- What is asked for alike is the same. -/
theorem matches_of_gets {ρ : Nat → Nat}
    (renames : ∀ v v', Matches roll roll' v v' → v' = v.rename ρ)
    {asks asks' : Asks} {asked asked' : List String} {us us' : List Value} {name name' : Nat → Name}
    (alike : Asks.Alike ρ asks asks') (gets : asks.Gets asked us) (gets' : asks'.Gets asked' us')
    (abreast : ∀ j, Abreast roll roll' (name j) (name' j))
    (fills : FillsAll c num roll name k (asked.map .service) us)
    (fills' : FillsAll c' num roll' name' k (asked'.map .service) us') :
    List.Forall₂ (Matches roll roll') us us' := by
  induction gets generalizing asks' asked' us' k with
  | enough =>
    cases alike
    cases gets'
    exact .nil
  | ask _ ih =>
    obtain - | alike := alike
    obtain - | gets' := gets'
    obtain ⟨v, us, same, first, rest⟩ := fills.exists_cons
    obtain ⟨v', us', same', first', rest'⟩ := fills'.exists_cons
    obtain ⟨rfl, rfl⟩ := List.cons.inj same
    obtain ⟨rfl, rfl⟩ := List.cons.inj same'
    have head := matches_of_fills h' embeds' .service (abreast k) first first'
    obtain rfl := renames _ _ head
    exact .cons head (ih (alike _) gets' rest rest')

end Values

/-- The plan of an instance is that of the service, where no plan is in a place of another. -/
theorem Complete.planned (h : Complete c num manner roll ids vs) (embeds : Embeds c c)
    (hn : roll[n]? = some e) : c.plan? e.plan.id = some e.plan := by
  obtain ⟨plan, path, base, part, -⟩ := h.seated embeds hn
  obtain ⟨plan₀, hp, -⟩ := embeds.grown plan path _ part
  have same := id_of_plan? hp
  obtain ⟨rfl, rfl⟩ := embeds.alone plan plan₀ path [] _ plan₀ part ⟨same ▸ hp, rfl⟩ same.symm
  have same : plan = e.plan := Option.some.inj part.found
  exact same ▸ part.planned

include h h' embeds embeds'

/-- The plan of a twin is the same, where plans may be in the place of services. -/
theorem Twins.grown (twins : Twins roll roll' n n') (hn : roll[n]? = some e)
    (hn' : roll'[n']? = some e') : e.plan.Grown e'.plan := by
  obtain ⟨d, d', _, alike⟩ := twins.exists_alike
  obtain rfl := Option.some.inj (hn.symm.trans alike.there)
  obtain rfl := Option.some.inj (hn'.symm.trans alike.there')
  obtain ⟨plan₀, hp, grown⟩ := (h'.seated embeds' hn').exists_grown embeds'
  obtain rfl := Option.some.inj ((h.planned embeds hn).symm.trans (alike.id_eq ▸ hp))
  exact grown

section Renaming

variable {ρ : Nat → Nat} (uniform : manner.Uniform) (injective : Function.Injective ρ)
  (twin : ∀ n n', Twins roll roll' n n' → ρ n = n')

include uniform injective twin

/-- Twins are the same but for the instances that went into them, which are twins. -/
theorem Twins.parts (twins : Twins roll roll' n n') (hn : roll[n]? = some e)
    (hn' : roll'[n']? = some e') :
    List.Forall₂ (Matches roll roll') e.parts e'.parts ∧ e'.made = e.made.rename ρ := by
  have grown := twins.grown h h' embeds embeds' hn hn'
  have records := h.written.recorded hn
  have records' := h'.written.recorded hn'
  have abreast (j : Nat) : Abreast roll roll' (e.name.child j) (e'.name.child j) :=
    .inr ⟨n, n', j, e, e', twins, hn, hn', rfl, rfl⟩
  have leaves := matches_of_fillsAll h' embeds' grown.leaves abreast records.leaves records'.leaves
  have filled : fillAll e'.plan.allBindings e'.leaves =
      (fillAll e.plan.allBindings e.leaves).map (Value.rename ρ) := by
    rw [grown.fill_eq, Value.Matches.eq_map_rename twin leaves, fillAll_rename]
  have factory : e'.made.factory = e.made.factory := by
    rw [records'.factory, grown.factory_eq, records.factory]
  have arguments : e'.made.arguments = e.made.arguments.map (Value.rename ρ) := by
    rw [records'.arguments, filled, grown.length_eq, records.arguments, List.map_take]
  have keywords : e'.made.keywords = e.made.keywords.map fun k => (k.1, k.2.rename ρ) := by
    rw [records'.keywords, filled, grown.names_eq, grown.length_eq, records.keywords,
      ← List.map_drop, List.zip_map_right]
    rfl
  have asks := records'.asks
  rw [factory, arguments, keywords] at asks
  have fills' := records'.obtained
  rw [← grown.leaves.length_eq] at fills'
  have obtained := matches_of_gets h' embeds' (fun _ _ same => same.eq_rename twin)
    (uniform ρ injective e.made.factory e.made.arguments e.made.keywords) records.asks asks abreast
    records.obtained fills'
  refine ⟨List.rel_append leaves obtained, Instance.ext ?_ factory arguments keywords
    (Value.Matches.eq_map_rename twin obtained)⟩
  rw [records'.service, grown.id_eq, ← records.service]
  rfl

end Renaming

end Sides

/-! ## The renaming -/

/-- What relates numbers one to one extends to all of them. -/
theorem exists_injective {T : Nat → Nat → Prop} {bound : Nat} (below : ∀ n n', T n n' → n' < bound)
    (unique : ∀ n n' m', T n n' → T n m' → n' = m') (unique' : ∀ n m n', T n n' → T m n' → n = m) :
    ∃ ρ : Nat → Nat, Function.Injective ρ ∧ ∀ n n', T n n' → ρ n = n' := by
  classical
  let ρ (n : Nat) : Nat := if h : ∃ n', T n n' then h.choose else bound + n
  have found {n n' : Nat} (h : T n n') : ρ n = n' := by
    have there : ∃ n', T n n' := ⟨n', h⟩
    show dite _ _ _ = n'
    rw [dif_pos there]
    exact unique _ _ _ there.choose_spec h
  have other {n : Nat} (h : ¬ ∃ n', T n n') : ρ n = bound + n := dif_neg h
  refine ⟨ρ, fun n m same => ?_, fun n n' h => found h⟩
  by_cases hn : ∃ n', T n n' <;> by_cases hm : ∃ m', T m m'
  · obtain ⟨n', hn⟩ := hn
    obtain ⟨m', hm⟩ := hm
    rw [found hn, found hm] at same
    exact unique' _ _ _ hn (same ▸ hm)
  · obtain ⟨n', hn⟩ := hn
    rw [found hn, other hm] at same
    have := below _ _ hn
    omega
  · obtain ⟨m', hm⟩ := hm
    rw [other hn, found hm] at same
    have := below _ _ hm
    omega
  · rw [other hn, other hm] at same
    omega

theorem exists_twin_of_mem {us us' : List Value} (same : List.Forall₂ (Matches roll roll') us us')
    (hn : .built n ∈ us) : ∃ n', Twins roll roll' n n' := by
  obtain ⟨v, -, matched⟩ := forall₂_mem_left same hn
  cases matched with
  | still still => exact absurd still (Value.not_still_built n)
  | related twins => exact ⟨_, twins⟩

/-- Where twins have the same parts, all that stems from the same values has a twin. -/
theorem Stems.exists_twin (h : Stems roll vs n) (values : List.Forall₂ (Matches roll roll') vs vs')
    (parts : ∀ n n' e e', Twins roll roll' n n' → roll[n]? = some e → roll'[n']? = some e' →
      List.Forall₂ (Matches roll roll') e.parts e'.parts) : ∃ n', Twins roll roll' n n' := by
  induction h with
  | here hn => exact exists_twin_of_mem values hn
  | part _ partOf ih =>
    obtain ⟨n', twins⟩ := ih
    obtain ⟨e, hn, hk⟩ := partOf
    obtain ⟨_, e', _, alike⟩ := twins.exists_alike
    exact exists_twin_of_mem (parts _ _ e e' twins hn alike.there') hk

/-- Instances are the same in two ledgers, but for their numbers. -/
structure Renamed (ρ : Nat → Nat) (w w' : Ledger) : Prop where
  injective : Function.Injective ρ
  made : ∀ n i, w.made[n]? = some i → w'.made[ρ n]? = some (i.rename ρ)
  perm : w'.made.Perm (w.made.map (Instance.rename ρ))

/-- Where the plans of one container are in places of those of another, both make the same of the
same requests. -/
theorem Complete.renamed {w w' : Ledger} (h : Complete c num manner roll ids vs)
    (h' : Complete c' num manner roll' ids vs') (embeds : Embeds c c) (embeds' : Embeds c c')
    (uniform : manner.Uniform) (made : w.made = roll.map (·.made))
    (made' : w'.made = roll'.map (·.made)) :
    ∃ ρ, vs' = vs.map (Value.rename ρ) ∧ Renamed ρ w w' := by
  have unique (n n' m' : Nat) (twins : Twins roll roll' n n') (twins' : Twins roll roll' n m') :=
    twins.unique h.written h'.written (h'.lone embeds') twins'
  have unique' (n m n' : Nat) (twins : Twins roll roll' n n') (twins' : Twins roll roll' m n') :=
    twins.symm.unique h'.written h.written (h.lone embeds) twins'.symm
  have below (n n' : Nat) (twins : Twins roll roll' n n') : n' < roll'.length := by
    obtain ⟨_, _, _, alike⟩ := twins.exists_alike
    exact (List.getElem?_eq_some_iff.1 alike.there').1
  obtain ⟨ρ, injective, twin⟩ := exists_injective below unique unique'
  have parts (n n' : Nat) (e e' : Item) (twins : Twins roll roll' n n') (hn : roll[n]? = some e)
      (hn' : roll'[n']? = some e') := twins.parts h h' embeds embeds' uniform injective twin hn hn'
  have answers := matches_answers h' embeds' h
  have swap {v v' : Value} (same : Matches roll roll' v v') : Matches roll' roll v' v :=
    same.swap fun _ _ => Twins.symm
  have there {n : Nat} (lt : n < roll.length) : ∃ n', Twins roll roll' n n' :=
    (h.stems n lt).exists_twin answers fun n n' e e' twins hn hn' =>
      (parts n n' e e' twins hn hn').1
  have there' {n' : Nat} (lt : n' < roll'.length) : ∃ n, Twins roll roll' n n' := by
    obtain ⟨n, twins⟩ := (h'.stems n' lt).exists_twin (answers.flip.imp fun _ _ same => swap same)
      fun n' n e' e twins hn' hn => (parts n n' e e' twins.symm hn hn').1.flip.imp
        fun _ _ same => swap same
    exact ⟨n, twins.symm⟩
  have places (n : Nat) (i : Instance) (hi : w.made[n]? = some i) :
      w'.made[ρ n]? = some (i.rename ρ) := by
    rw [made, List.getElem?_map, Option.map_eq_some_iff] at hi
    obtain ⟨e, hn, rfl⟩ := hi
    obtain ⟨n', twins⟩ := there (List.getElem?_eq_some_iff.1 hn).1
    obtain ⟨_, e', _, alike⟩ := twins.exists_alike
    rw [twin _ _ twins, made', List.getElem?_map, alike.there', Option.map_some,
      (parts _ _ _ _ twins hn alike.there').2]
  refine ⟨ρ, Value.Matches.eq_map_rename twin answers, injective, places,
    perm_map_of_places injective places fun n' lt => ?_⟩
  rw [made', List.length_map] at lt
  obtain ⟨n, twins⟩ := there' lt
  obtain ⟨_, _, _, alike⟩ := twins.exists_alike
  refine ⟨n, ?_, twin _ _ twins⟩
  rw [made, List.length_map]
  exact (List.getElem?_eq_some_iff.1 alike.there).1

end Wiring.Container
