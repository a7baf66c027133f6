import Wiring.Definition.InPlace
import Wiring.Proofs.Definition.Revision
import Wiring.Proofs.Failing

/-!
# Revision in place

While recipes are revised in place, each argument in the pool is related to the one that was there at
first, and it is what the rule gives once the arguments of its recipe are replaced. Where embedded
recipes rank below those that embed them, revision never comes to its depth, so it fails only as the
rule does, and with a recipe all that was embedded in it is revised.
-/

namespace Wiring.Pool

variable {R S : Nat × Definition → Argument → Argument → Prop} {first pool : Pool} {m : Nat}
  {e f : Nat × Definition} {r : Definition} {E : Failure → Prop} {rule : Rule} {rank : Nat → Nat}

/-- Recipes with one mark are one and the same. -/
def Coherent (pool : Pool) : Prop := ∀ e ∈ pool, ∀ f ∈ pool, e.1 = f.1 → e = f

theorem Coherent.of_nodup (unique : (pool.map (·.1)).Nodup) : pool.Coherent :=
  fun _ he _ hf => List.inj_on_of_nodup_map unique he hf

theorem Coherent.append {rest : Pool} (h : pool.Coherent) (h' : rest.Coherent)
    (apart : ∀ e ∈ pool, ∀ f ∈ rest, e.1 ≠ f.1) : (pool ++ rest).Coherent := by
  intro e he f hf same
  rcases List.mem_append.1 he with he | he
  · rcases List.mem_append.1 hf with hf | hf
    · exact h e he f hf same
    · exact absurd same (apart e he f hf)
  · rcases List.mem_append.1 hf with hf | hf
    · exact absurd same.symm (apart f hf e he)
    · exact h' e he f hf same

theorem Coherent.lookup (coherent : pool.Coherent) (he : e ∈ pool) :
    pool.lookup e.1 = some e.2 := by
  cases found : pool.lookup e.1 with
  | none => simpa using List.lookup_eq_none_iff.1 found e he
  | some r =>
    obtain ⟨before, after, rfl, -⟩ := List.lookup_eq_some_iff.1 found
    rw [coherent e he (e.1, r) (List.mem_append_right _ List.mem_cons_self) rfl]

theorem lookup_filter {m' : Nat} (apart : m' ≠ m) (pool : Pool) :
    (pool.filter fun e => e.1 != m).lookup m' = pool.lookup m' := by
  induction pool with
  | nil => rfl
  | cons e pool ih =>
    by_cases same : e.1 = m
    · have other : (m' == e.1) = false := by simpa [same] using apart
      rw [List.filter_cons_of_neg (by simpa using same), ih, List.lookup_cons, other]
    · rw [List.filter_cons_of_pos (by simpa using same), List.lookup_cons, List.lookup_cons, ih]

/-! ## Progress -/

/-- The marks of the recipes whose positional arguments are replaced, and of those whose keyword
arguments are. -/
structure Progress where
  arguments : Nat → Prop
  keywords : Nat → Prop

namespace Progress

variable {w w' w'' : Progress}

/-- All arguments of the recipe are replaced. -/
def Done (w : Progress) (m : Nat) : Prop := w.arguments m ∧ w.keywords m

/-- What is replaced stays so. -/
structure Le (w w' : Progress) : Prop where
  arguments : ∀ m, w.arguments m → w'.arguments m
  keywords : ∀ m, w.keywords m → w'.keywords m

theorem Le.refl : w.Le w := ⟨fun _ => id, fun _ => id⟩

theorem Le.trans (h : w.Le w') (h' : w'.Le w'') : w.Le w'' :=
  ⟨fun m done => h'.arguments m (h.arguments m done), fun m done => h'.keywords m (h.keywords m done)⟩

theorem Le.done (h : w.Le w') (done : w.Done m) : w'.Done m :=
  ⟨h.arguments m done.1, h.keywords m done.2⟩

/-- The positional arguments of one more recipe are replaced. -/
def withArguments (w : Progress) (m : Nat) : Progress := ⟨fun x => w.arguments x ∨ x = m, w.keywords⟩

/-- The keyword arguments of one more recipe are replaced. -/
def withKeywords (w : Progress) (m : Nat) : Progress := ⟨w.arguments, fun x => w.keywords x ∨ x = m⟩

theorem le_withArguments : w.Le (w.withArguments m) := ⟨fun _ => .inl, fun _ => id⟩

theorem le_withKeywords : w.Le (w.withKeywords m) := ⟨fun _ => id, fun _ => .inl⟩

/-- The recipes embedded in some arguments are revised. -/
def Covers (w : Progress) (as : List Argument) : Prop :=
  ∀ m r, .inlined m r ∈ as → w.Done m

theorem Covers.append {as bs : List Argument} (h : w.Covers as) (h' : w.Covers bs) :
    w.Covers (as ++ bs) := fun m r hr => (List.mem_append.1 hr).elim (h m r) (h' m r)

theorem Covers.mono {as : List Argument} (h : w.Covers as) (le : w.Le w') : w'.Covers as :=
  fun m r hr => le.done (h m r hr)

/-- Arguments are replaced after the recipes embedded in them are revised. -/
structure Closed (w : Progress) (first : Pool) : Prop where
  arguments : ∀ e ∈ first, w.arguments e.1 → w.Covers e.2.arguments
  keywords : ∀ e ∈ first, w.keywords e.1 → w.Covers (e.2.keywords.map (·.2))

namespace Closed

theorem withArguments (h : w.Closed first) (coherent : first.Coherent) (he : e ∈ first)
    (covers : w.Covers e.2.arguments) : (w.withArguments e.1).Closed first where
  arguments d hd done := by
    refine Covers.mono ?_ le_withArguments
    rcases done with done | same
    · exact h.arguments d hd done
    · exact coherent d hd e he same ▸ covers
  keywords d hd done := (h.keywords d hd done).mono le_withArguments

theorem withKeywords (h : w.Closed first) (coherent : first.Coherent) (he : e ∈ first)
    (covers : w.Covers (e.2.keywords.map (·.2))) : (w.withKeywords e.1).Closed first where
  arguments d hd done := (h.arguments d hd done).mono le_withKeywords
  keywords d hd done := by
    refine Covers.mono ?_ le_withKeywords
    rcases done with done | same
    · exact h.keywords d hd done
    · exact coherent d hd e he same ▸ covers

/-- What is embedded in a revised recipe is revised, at whatever depth. -/
theorem embedded (h : w.Closed first)
    (inside : ∀ e ∈ first, ∀ x ∈ Definition.embedded e.2, x ∈ first) {d : Definition}
    (hd : (m, d) ∈ first) (done : w.Done m) : ∀ x ∈ Definition.embedded d, w.Done x.1 := by
  induction d using Definition.induct generalizing m with
  | step d ih =>
    intro x hx
    obtain ⟨n, r, ha, hx⟩ := Definition.mem_embedded.1 hx
    have there : (n, r) ∈ first :=
      inside _ hd _ (Definition.mem_embedded.2 ⟨n, r, ha, .inl rfl⟩)
    have covered : w.Done n := (List.mem_append.1 ha).elim
      (h.arguments _ hd done.1 n r) (h.keywords _ hd done.2 n r)
    rcases hx with rfl | hx
    · exact covered
    · exact ih n r ha there covered x hx

end Closed

end Progress

/-- A recipe that is being revised: arguments are related to the first ones, by `S` once they are
replaced. -/
structure Under (R S : Nat × Definition → Argument → Argument → Prop) (w : Progress)
    (e f : Nat × Definition) : Prop where
  mark : f.1 = e.1
  revised : Recipe.Revised (R e) e.2 f.2
  arguments : w.arguments e.1 → List.Forall₂ (S e) e.2.arguments f.2.arguments
  keywords : w.keywords e.1 → List.Forall₂ (Keyed (S e)) e.2.keywords f.2.keywords

theorem Under.done {w : Progress} (h : Under R S w e f) (done : w.Done e.1) :
    Recipe.Revised (S e) e.2 f.2 :=
  ⟨h.revised.frame, h.arguments done.1, h.keywords done.2⟩

/-- The recipes of a pool are those that were there at first, revised as far as the progress tells. -/
structure Drawn (R S : Nat × Definition → Argument → Argument → Prop) (first : Pool) (w : Progress)
    (pool : Pool) : Prop where
  closed : w.Closed first
  under : List.Forall₂ (Under R S w) first pool

namespace Drawn

variable {w : Progress}

theorem start (h : ∀ e ∈ first, ∀ a ∈ e.2.allArguments, R e a a) :
    Drawn R S first ⟨fun _ => False, fun _ => False⟩ first where
  closed := ⟨fun _ _ => False.elim, fun _ _ => False.elim⟩
  under := List.forall₂_same.2 fun e he => ⟨rfl, .refl (h e he), False.elim, False.elim⟩

theorem lookup (h : Drawn R S first w pool) (found : pool.lookup m = some r) :
    ∃ e ∈ first, e.1 = m ∧ Under R S w e (m, r) := by
  obtain ⟨before, after, rfl, -⟩ := List.lookup_eq_some_iff.1 found
  obtain ⟨e, he, under⟩ := forall₂_mem_right h.under (List.mem_append_right _ List.mem_cons_self)
  exact ⟨e, he, under.mark.symm, under⟩

/-- Of a mark that no recipe has anything can be told. -/
theorem absent (h : Drawn R S first w pool) (none : pool.lookup m = none) :
    Drawn R S first (w.withArguments m) pool ∧ Drawn R S first (w.withKeywords m) pool := by
  have apart : ∀ e ∈ first, e.1 ≠ m := fun e he same => by
    obtain ⟨f, hf, under⟩ := forall₂_mem_left h.under he
    have apart : m ≠ f.1 := by simpa using List.lookup_eq_none_iff.1 none f hf
    exact apart (under.mark.trans same).symm
  refine ⟨⟨⟨fun e he done => ?_, fun e he done => ?_⟩, forall₂_imp_mem h.under fun e he f under => ?_⟩,
    ⟨fun e he done => ?_, fun e he done => ?_⟩, forall₂_imp_mem h.under fun e he f under => ?_⟩
  · exact (h.closed.arguments e he (done.resolve_right (apart e he))).mono Progress.le_withArguments
  · exact (h.closed.keywords e he done).mono Progress.le_withArguments
  · exact { under with arguments := fun done => under.arguments (done.resolve_right (apart e he)) }
  · exact (h.closed.arguments e he done).mono Progress.le_withKeywords
  · exact (h.closed.keywords e he (done.resolve_right (apart e he))).mono Progress.le_withKeywords
  · exact { under with keywords := fun done => under.keywords (done.resolve_right (apart e he)) }

/-- A recipe changes, and with it how far the pool has come. -/
theorem change {w' : Progress} {φ : Definition → Definition} (h : Drawn R S first w pool)
    (coherent : first.Coherent) (he : e ∈ first) (closed : w'.Closed first)
    (others : ∀ m, m ≠ e.1 → (w'.arguments m → w.arguments m) ∧ (w'.keywords m → w.keywords m))
    (keep : ∀ f, Under R S w e f → Under R S w' e (f.1, φ f.2)) :
    Drawn R S first w' (pool.change e.1 φ) := by
  refine ⟨closed, List.forall₂_map_right_iff.2 (forall₂_imp_mem h.under fun d hd f under => ?_)⟩
  by_cases same : f.1 = e.1
  · obtain rfl := coherent d hd e he (under.mark.symm.trans same)
    simpa [same] using keep f under
  · obtain ⟨fewer, fewer'⟩ := others d.1 fun h => same (under.mark.trans h)
    have under' : Under R S w' d f :=
      ⟨under.mark, under.revised, fun h => under.arguments (fewer h), fun h => under.keywords (fewer' h)⟩
    simpa [same] using under'

end Drawn

/-- What a rule gave, as work on a pool. -/
def settled : Except Failure Argument → Work Argument
  | .ok b => return b
  | .error e => throw e

/-- Revision of the keyword arguments of the recipe of a mark. -/
def reviseKeywords (visit : String → Argument → Work Argument) (mark : Nat) : Work Unit := do
  if let some r := (← get).lookup mark then
    let keywords ← r.keywords.mapM fun (name, a) => do return (name, ← visit r.id a)
    modify (change mark fun r => { r with keywords })

/-- Among the marks inside, which lead to no others, the rule may fail by `E`. What it gives is
related by `S` to the first arguments, embedded recipes stay, and nothing is brought in that ranks as
high as where it is brought in. -/
structure Draws (inside : Nat → Prop) (E : Failure → Prop) (rule : Rule)
    (R S : Nat × Definition → Argument → Argument → Prop) (rank : Nat → Nat) (first : Pool) :
    Prop where
  falls : ∀ e ∈ first, inside e.1 → ∀ a ∈ e.2.allArguments, ∀ m r, R e a (.inlined m r) →
    inside m ∧ rank m < rank e.1
  stays : ∀ e ∈ first, ∀ m r, .inlined m r ∈ e.2.allArguments → ∀ b, R e (.inlined m r) b →
    ∃ r', b = .inlined m r'
  fails : ∀ e ∈ first, inside e.1 → ∀ a ∈ e.2.allArguments, ∀ b, R e a b →
    FailsBy E (Argument.reviseOuter rule e.2.id b)
  gives : ∀ e ∈ first, inside e.1 → ∀ a ∈ e.2.allArguments, ∀ b, R e a b → ∀ c,
    Argument.reviseOuter rule e.2.id b = .ok c → S e a c
  loose : ∀ e ∈ first, ∀ a ∈ e.2.allArguments, ∀ b, S e a b → R e a b

namespace Draws

variable {w : Progress} {inside : Nat → Prop}

/-- Revision of an argument: what is embedded in it is revised first. -/
theorem reviseArgument {visit : Nat → Work Unit} {a b : Argument}
    (h : Draws inside E rule R S rank first) (he : e ∈ first) (within : inside e.1)
    (ha : a ∈ e.2.allArguments) (hab : R e a b)
    (below : ∀ m, inside m → rank m < rank e.1 → ∀ w pool, Drawn R S first w pool →
      Run.Ends E (fun _ pool' => ∃ w', w.Le w' ∧ w'.Done m ∧ Drawn R S first w' pool') (visit m) pool)
    (drawn : Drawn R S first w pool) :
    Run.Ends E (fun c pool' => S e a c ∧ ∃ w', w.Le w' ∧ w'.Covers [a] ∧ Drawn R S first w' pool')
      (reviseArgument rule visit e.2.id b) pool := by
  have outer (w' : Progress) (le : w.Le w') (covers : w'.Covers [a]) (pool : Pool)
      (drawn : Drawn R S first w' pool) :
      Run.Ends E
        (fun c pool' => S e a c ∧ ∃ w', w.Le w' ∧ w'.Covers [a] ∧ Drawn R S first w' pool')
        (settled (Argument.reviseOuter rule e.2.id b)) pool := by
    cases hb : Argument.reviseOuter rule e.2.id b with
    | ok c => exact .pure ⟨h.gives e he within a ha b hab c hb, w', le, covers, drawn⟩
    | error why => exact .throw (h.fails e he within a ha b hab why hb)
  -- what is embedded at first still is
  have stays (m : Nat) (r : Definition) (hm : .inlined m r ∈ [a]) : ∃ r', b = .inlined m r' := by
    obtain rfl := List.mem_singleton.1 hm
    exact h.stays e he m r ha b hab
  unfold Pool.reviseArgument
  cases b with
  | inlined m r =>
    obtain ⟨deeper, lower⟩ := h.falls e he within a ha m r hab
    refine .bind (below m deeper lower w pool drawn) fun _ pool' later => ?_
    obtain ⟨w', le, done, drawn⟩ := later
    refine outer w' le (fun m' r' hm => ?_) pool' drawn
    obtain ⟨_, same⟩ := stays m' r' hm
    obtain ⟨rfl, -⟩ := Argument.inlined.inj same
    exact done
  | _ =>
    refine outer w .refl (fun m' r' hm => ?_) pool drawn
    obtain ⟨_, same⟩ := stays m' r' hm
    cases same

/-- Once the positional arguments of a recipe are revised, they are replaced. -/
theorem replaceArguments (h : Draws inside E rule R S rank first) (coherent : first.Coherent)
    (he : e ∈ first) {as : List Argument} (all : List.Forall₂ (S e) e.2.arguments as)
    (covers : w.Covers e.2.arguments) (drawn : Drawn R S first w pool) :
    Drawn R S first (w.withArguments e.1) (pool.change e.1 fun r => { r with arguments := as }) := by
  refine drawn.change coherent he (drawn.closed.withArguments coherent he covers)
    (fun m apart => ⟨fun done => done.resolve_right apart, id⟩) fun f under => ?_
  refine ⟨under.mark, ⟨by rw [under.revised.frame], ?_, under.revised.keywords⟩, fun _ => all,
    under.keywords⟩
  exact forall₂_imp_mem all fun a ha b => h.loose e he a (List.mem_append_left _ ha) b

/-- Once the keyword arguments of a recipe are revised, they are replaced. -/
theorem replaceKeywords (h : Draws inside E rule R S rank first) (coherent : first.Coherent)
    (he : e ∈ first) {ks : List (String × Argument)}
    (all : List.Forall₂ (Keyed (S e)) e.2.keywords ks)
    (covers : w.Covers (e.2.keywords.map (·.2))) (drawn : Drawn R S first w pool) :
    Drawn R S first (w.withKeywords e.1) (pool.change e.1 fun r => { r with keywords := ks }) := by
  refine drawn.change coherent he (drawn.closed.withKeywords coherent he covers)
    (fun m apart => ⟨id, fun done => done.resolve_right apart⟩) fun f under => ?_
  refine ⟨under.mark, ⟨by rw [under.revised.frame], under.revised.arguments, ?_⟩, under.arguments,
    fun _ => all⟩
  exact forall₂_imp_mem all fun k hk l hkl => ⟨hkl.1,
    h.loose e he k.2 (List.mem_append_right _ (List.mem_map_of_mem hk)) l.2 hkl.2⟩

/-- Revision of a recipe whose rank is below the depth keeps the pool drawn from the first one, and
fails as the rule does. -/
theorem revise (h : Draws inside E rule R S rank first) (coherent : first.Coherent) {depth : Nat}
    (within : inside m) (low : rank m < depth) (drawn : Drawn R S first w pool) :
    Run.Ends E (fun _ pool' => ∃ w', w.Le w' ∧ w'.Done m ∧ Drawn R S first w' pool')
      (Pool.revise rule depth m) pool := by
  induction depth generalizing m w pool with
  | zero => exact absurd low (Nat.not_lt_zero _)
  | succ depth ih =>
    have visit {e : Nat × Definition} (he : e ∈ first) (within : inside e.1)
        (low : rank e.1 < depth + 1) {r : Definition} (revised : Recipe.Revised (R e) e.2 r)
        {a b : Argument} (ha : a ∈ e.2.allArguments) (hab : R e a b) {w : Progress} {pool : Pool}
        (drawn : Drawn R S first w pool) :
        Run.Ends E (fun c pool' => S e a c ∧ ∃ w', w.Le w' ∧ w'.Covers [a] ∧ Drawn R S first w' pool')
          (Pool.reviseArgument rule (Pool.revise rule depth) r.id b) pool := by
      rw [revised.id_eq]
      exact h.reviseArgument he within ha hab
        (fun m within lower w pool drawn => ih within (by omega) drawn) drawn
    have keywords (w₁ : Progress) (pool : Pool) (le : w.Le w₁) (done : w₁.arguments m)
        (drawn : Drawn R S first w₁ pool) :
        Run.Ends E (fun _ pool' => ∃ w', w.Le w' ∧ w'.Done m ∧ Drawn R S first w' pool')
          (reviseKeywords (Pool.reviseArgument rule (Pool.revise rule depth)) m) pool := by
      refine .get_bind ?_
      cases found : pool.lookup m with
      | none =>
        exact .pure ⟨w₁.withKeywords m, le.trans Progress.le_withKeywords, ⟨done, .inr rfl⟩,
          (drawn.absent found).2⟩
      | some r =>
        obtain ⟨e, he, rfl, under⟩ := drawn.lookup found
        refine .bind (.mapM (fun ks pool => ∃ w', w₁.Le w' ∧ w'.Covers (ks.map (·.2)) ∧
            Drawn R S first w' pool) (Keyed (S e)) under.revised.keywords
          ⟨w₁, .refl, by simp [Progress.Covers], drawn⟩
          fun ks k hk l related pool inv => ?_) fun keywords pool all => ?_
        · obtain ⟨w₂, le, covers, drawn⟩ := inv
          have given : k.2 ∈ e.2.allArguments :=
            List.mem_append_right _ (List.mem_map_of_mem hk)
          refine .bind (visit he within low under.revised given related.2 drawn) fun b pool hb => ?_
          obtain ⟨given, w₃, le', covers', drawn⟩ := hb
          refine .pure ⟨⟨related.1, given⟩, w₃, le.trans le', ?_, drawn⟩
          rw [List.map_append]
          exact (covers.mono le').append covers'
        · obtain ⟨all, w₂, le', covers, drawn⟩ := all
          refine .modify ⟨w₂.withKeywords e.1, (le.trans le').trans Progress.le_withKeywords,
            ⟨le'.arguments _ done, .inr rfl⟩, h.replaceKeywords coherent he all covers drawn⟩
    unfold Pool.revise
    refine .get_bind ?_
    cases found : pool.lookup m with
    | none =>
      exact keywords (w.withArguments m) pool Progress.le_withArguments (.inr rfl)
        (drawn.absent found).1
    | some r =>
      obtain ⟨e, he, rfl, under⟩ := drawn.lookup found
      refine .bind (.mapM (fun as pool => ∃ w', w.Le w' ∧ w'.Covers as ∧ Drawn R S first w' pool)
        (S e) under.revised.arguments ⟨w, .refl, by simp [Progress.Covers], drawn⟩
        fun as a ha b related pool inv => ?_) fun arguments pool all => ?_
      · obtain ⟨w₂, le, covers, drawn⟩ := inv
        refine (visit he within low under.revised (List.mem_append_left _ ha) related drawn).mono ?_
        rintro c pool ⟨given, w₃, le', covers', drawn⟩
        exact ⟨given, w₃, le.trans le', (covers.mono le').append covers', drawn⟩
      · obtain ⟨all, w₂, le, covers, drawn⟩ := all
        refine .bind (Q := fun _ pool => Drawn R S first (w₂.withArguments e.1) pool) (.modify ?_)
          fun _ pool drawn => keywords _ pool (le.trans Progress.le_withArguments) (.inr rfl) drawn
        exact h.replaceArguments coherent he all covers drawn

end Draws

/-- Recipes are revised one after the other, each by its own rule. They fail as the rules do; if they
do not, the recipes that were visited are revised, and all that was embedded in them. -/
theorem reviseThese_spec {visits : List (Nat × Rule)} (rank : Nat → Nat) (coherent : first.Coherent)
    (start : ∀ e ∈ first, ∀ a ∈ e.2.allArguments, R e a a)
    (h : ∀ v ∈ visits, rank v.1 < first.depth ∧
      ∃ inside : Nat → Prop, inside v.1 ∧ Draws inside E v.2 R S rank first)
    {failure : Option Failure} (result : first.reviseThese visits = (failure, pool)) :
    (∀ why, failure = some why → E why) ∧
      (failure = none → ∃ w, (∀ v ∈ visits, w.Done v.1) ∧ Drawn R S first w pool) := by
  have all : Run.Ends E
      (fun _ pool' => ∃ w, (∀ v ∈ visits, w.Done v.1) ∧ Drawn R S first w pool')
      (visits.forM fun v => revise v.2 first.depth v.1) first := by
    refine .forM (fun (done : List (Nat × Rule)) pool =>
        ∃ w : Progress, (∀ v ∈ done, w.Done v.1) ∧ Drawn R S first w pool)
      ⟨_, by simp, .start start⟩ fun done v hv pool inv => ?_
    obtain ⟨w, visited, drawn⟩ := inv
    obtain ⟨low, inside, within, draws⟩ := h v hv
    refine (draws.revise coherent within low drawn).mono ?_
    rintro _ pool ⟨w', le, done', drawn⟩
    refine ⟨w', fun u hu => ?_, drawn⟩
    rcases List.mem_append.1 hu with hu | hu
    · exact le.done (visited u hu)
    · exact List.mem_singleton.1 hu ▸ done'
  unfold reviseThese at result
  split at result
  next u pool' run =>
    obtain ⟨rfl, rfl⟩ := Prod.mk.inj result
    exact ⟨by rintro _ ⟨⟩, fun _ => all.gives u _ run⟩
  next why' pool' run =>
    obtain ⟨rfl, rfl⟩ := Prod.mk.inj result
    exact ⟨fun _ same => Option.some.inj same ▸ all.fails why' _ run, by rintro ⟨⟩⟩

/-! ## Expansion -/

/-- An argument that embeds the recipe which its mark stands for. -/
def relabel (meaning : Nat → Definition) : Argument → Argument
  | .inlined m _ => .inlined m (meaning m)
  | a => a

theorem relabel_of_ne {meaning : Nat → Definition} {a : Argument} (h : ∀ m r, a ≠ .inlined m r) :
    relabel meaning a = a := by
  cases a <;> first | rfl | exact absurd rfl (h _ _)

section Expansion

variable {meaning : Nat → Definition} (coherent : pool.Coherent)
  (falls : ∀ e ∈ pool, ∀ m r, .inlined m r ∈ e.2.allArguments →
    rank m < rank e.1 ∧ ∃ q, (m, q) ∈ pool)
  (means : ∀ e ∈ pool, Recipe.Revised (fun a b => b = relabel meaning a) e.2 (meaning e.1))

include coherent falls means

/-- Where marks mean their recipes with what the marks in these mean, recipes expand to what their
marks mean. -/
theorem expand_eq {depth : Nat} {rest : Pool} {a : Argument}
    (inside : ∀ m r, a = .inlined m r → rank m < depth ∧ (∃ q, (m, q) ∈ pool) ∧
      ∀ m', rank m' ≤ rank m → rest.lookup m' = pool.lookup m') :
    expand depth rest a = relabel meaning a := by
  induction depth generalizing rest a with
  | zero =>
    cases a with
    | inlined m r => exact absurd (inside m r rfl).1 (Nat.not_lt_zero _)
    | _ => rfl
  | succ depth ih =>
    cases a with
    | inlined m r =>
      obtain ⟨low, ⟨q, hq⟩, agree⟩ := inside m r rfl
      have found : rest.lookup m = some q := (agree m le_rfl).trans (coherent.lookup hq)
      have revised := means (m, q) hq
      have deeper : ∀ b ∈ q.allArguments,
          expand depth (rest.filter fun e => e.1 != m) b = relabel meaning b := by
        refine fun b hb => ih fun m' r' hm => ?_
        obtain ⟨lower, there⟩ := falls (m, q) hq m' r' (hm ▸ hb)
        refine ⟨by simp only at lower; omega, there, fun x hx => ?_⟩
        have apart : x ≠ m := fun same => by
          subst same
          exact absurd (Nat.lt_of_le_of_lt hx lower) (Nat.lt_irrefl _)
        rw [lookup_filter apart]
        exact agree x (by simp only at lower; omega)
      have whole := (revised.mono_mem fun b hb c same => same.trans (deeper b hb).symm).eq_map
      rw [relabel, whole]
      simp only [expand, found, Option.getD_some]
    | _ => rfl

/-- A recipe of the pool expands to what its mark means. -/
theorem expandDefinition_eq (he : e ∈ pool) (low : ∀ f ∈ pool, rank f.1 < pool.depth) :
    expandDefinition pool e.2 = meaning e.1 := by
  have deeper : ∀ b ∈ e.2.allArguments, expand pool.depth pool b = relabel meaning b := by
    refine fun b hb => expand_eq coherent falls means fun m r hm => ?_
    obtain ⟨-, q, hq⟩ := falls e he m r (hm ▸ hb)
    exact ⟨low (m, q) hq, ⟨q, hq⟩, fun _ _ => rfl⟩
  rw [((means e he).mono_mem fun b hb c same => same.trans (deeper b hb).symm).eq_map]
  rfl

end Expansion

end Wiring.Pool
