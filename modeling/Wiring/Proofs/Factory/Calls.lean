import Wiring.Factory.Signature
import Wiring.Proofs.Outcome
import Wiring.Proofs.Table

/-!
# Which arguments a call takes

Arguments can be bound to a signature if none of them is out of place and no parameter that needs one
goes without. Positional arguments go to the parameters in order, up to the first that takes all the
rest, and never to one that is bound by keyword.
-/

namespace Wiring

/-- The order in which the kinds of parameters stand in a signature. -/
def ParameterKind.rank : ParameterKind → Nat
  | positionalOnly => 0
  | standard => 1
  | rest => 2
  | keywordOnly => 3
  | extra => 4

/-- Whether the parameter takes one positional argument. -/
def Parameter.isPositional (p : Parameter) : Bool := p.kind = .positionalOnly || p.kind = .standard

namespace Signature

variable {α : Type} {ps : List Parameter} {p q : Parameter} {as : List α} {ks : Table α} {i : Nat}

/-- A signature as it can be written down: its kinds stand in order, and no name stands twice. -/
structure Legal (ps : List Parameter) : Prop where
  ordered : ps.Pairwise fun p q => p.kind.rank ≤ q.kind.rank
  unique : (ps.map (·.name)).Nodup

/-- The parameters that take one positional argument each. -/
def positional (ps : List Parameter) : List Parameter := ps.filter Parameter.isPositional

/-- The parameters that are bound by keyword alone. -/
def keywordOnly (ps : List Parameter) : List Parameter := ps.filter fun p => p.kind = .keywordOnly

/-- No argument is out of place. -/
structure Consistent (ps : List Parameter) (as : List α) (ks : Table α) : Prop where
  /-- No positional argument is left over. -/
  room : as.length ≤ (positional ps).length ∨ ∃ p ∈ ps, p.kind = .rest
  /-- No keyword is unknown. -/
  known : ∀ name ∈ ks.names,
    (∃ p ∈ ps, p.collects = false ∧ p.kind ≠ .positionalOnly ∧ p.name = name) ∨
      ∃ p ∈ ps, p.kind = .extra
  /-- No parameter is bound by position and by keyword. -/
  once : ∀ p ∈ (positional ps).take as.length, p.kind ≠ .positionalOnly → p.name ∉ ks.names
  /-- No parameter is bound by two keywords. -/
  unique : ks.names.Nodup
  /-- No parameter that is bound by position alone is given by keyword in place of that. -/
  byPosition : ∀ p ∈ ps, p.kind = .positionalOnly →
    p ∈ (positional ps).take as.length ∨ p.name ∉ ks.names

/-- Every parameter that needs an argument has one. -/
def Complete (ps : List Parameter) (as : List α) (ks : Table α) : Prop :=
  ∀ p ∈ ps, p.collects = false →
    p.hasDefault = true ∨ p ∈ (positional ps).take as.length ∨ p.name ∈ ks.names

/-! ## Signatures -/

theorem Legal.tail (h : Legal (p :: ps)) : Legal ps :=
  ⟨h.ordered.tail, (List.nodup_cons.1 h.unique).2⟩

theorem Legal.name_ne (h : Legal (p :: ps)) (hq : q ∈ ps) : q.name ≠ p.name := fun same =>
  (List.nodup_cons.1 h.unique).1 (List.mem_map.2 ⟨q, hq, same⟩)

theorem Legal.eq_of_name (h : Legal ps) (hp : p ∈ ps) (hq : q ∈ ps) (same : p.name = q.name) :
    p = q :=
  List.inj_on_of_nodup_map h.unique hp hq same

theorem Legal.rank_le (h : Legal (p :: ps)) (hq : q ∈ ps) : p.kind.rank ≤ q.kind.rank :=
  (List.pairwise_cons.1 h.ordered).1 q hq

theorem isPositional_iff : p.isPositional = true ↔ p.kind = .positionalOnly ∨ p.kind = .standard := by
  simp [Parameter.isPositional]

theorem collects_of_positional (h : p.isPositional = true) : p.collects = false := by
  rcases isPositional_iff.1 h with hk | hk <;> simp [Parameter.collects, hk]

theorem positional_cons_of_pos (h : p.isPositional = true) :
    positional (p :: ps) = p :: positional ps :=
  List.filter_cons_of_pos h

/-- No parameter takes a positional argument after one that takes none. -/
theorem Legal.positional_eq_nil (h : Legal (p :: ps)) (bar : p.isPositional = false) :
    positional (p :: ps) = [] := by
  refine List.filter_eq_nil_iff.2 fun q hq => ?_
  have after : p.kind.rank ≤ q.kind.rank := by
    rcases List.mem_cons.1 hq with rfl | hq
    · exact Nat.le_refl _
    · exact h.rank_le hq
  unfold Parameter.isPositional at *
  cases hp : p.kind <;> cases hq : q.kind <;> simp_all [ParameterKind.rank]

/-- What a call binds one by one: parameters that take a positional argument, then those that are
bound by keyword alone. -/
theorem Legal.filter_collects (h : Legal ps) :
    ps.filter (fun p => !p.collects) = positional ps ++ keywordOnly ps := by
  induction ps with
  | nil => rfl
  | cons p ps ih =>
    cases hp : p.isPositional with
    | true =>
      have unnamed : keywordOnly (p :: ps) = keywordOnly ps :=
        List.filter_cons_of_neg (by rcases isPositional_iff.1 hp with hk | hk <;> simp [hk])
      rw [positional_cons_of_pos hp, unnamed,
        List.filter_cons_of_pos (by simp [collects_of_positional hp]), ih h.tail, List.cons_append]
    | false =>
      rw [h.positional_eq_nil hp, List.nil_append, keywordOnly]
      refine List.filter_congr fun q hq => ?_
      have bar : q.isPositional = false := by
        have none := h.positional_eq_nil hp
        simpa using List.filter_eq_nil_iff.1 none q hq
      unfold Parameter.isPositional at bar
      unfold Parameter.collects
      cases hk : q.kind <;> simp_all

/-- The parameters that a call binds one by one, by their places. -/
theorem Legal.mem_take_positional (h : Legal ps)
    (hp : (ps.filter fun p => !p.collects)[i]? = some p) {n : Nat} :
    p ∈ (positional ps).take n ↔ i < n ∧ p.kind ≠ .keywordOnly := by
  rw [h.filter_collects] at hp
  by_cases before : i < (positional ps).length
  · rw [List.getElem?_append_left before] at hp
    have positional_p : p.isPositional = true :=
      (List.mem_filter.1 (List.mem_of_getElem? hp)).2
    have kind : p.kind ≠ .keywordOnly := by
      intro hk
      simp [Parameter.isPositional, hk] at positional_p
    have distinct : (positional ps).Nodup := (List.Nodup.of_map _ h.unique).filter _
    constructor
    · intro hmem
      obtain ⟨j, hj⟩ := List.mem_iff_getElem?.1 hmem
      rw [List.getElem?_take] at hj
      split at hj
      next lt =>
        have same : i = j := (List.getElem?_inj before distinct).1 (hp.trans hj.symm)
        exact ⟨same ▸ lt, kind⟩
      next => cases hj
    · rintro ⟨lt, -⟩
      exact List.mem_of_getElem? ((List.getElem?_take_of_lt lt).trans hp)
  · rw [List.getElem?_append_right (Nat.le_of_not_lt before)] at hp
    have named : p.kind = .keywordOnly := by
      simpa using (List.mem_filter.1 (List.mem_of_getElem? hp)).2
    constructor
    · intro hmem
      have := (List.mem_filter.1 (List.mem_of_mem_take hmem)).2
      simp [Parameter.isPositional, named] at this
    · rintro ⟨-, kind⟩
      exact absurd named kind

/-! ## Binding succeeds -/

theorem bindKeywords_succeeds {bound : Table α} {collecting : Bool} (legal : Legal ps)
    (known : ∀ name ∈ ks.names, (∃ p ∈ ps, p.collects = false ∧ p.name = name) ∨
      collecting = true ∨ ∃ p ∈ ps, p.kind = .extra)
    (byPosition : ∀ p ∈ ps, p.kind = .positionalOnly → p.name ∉ ks.names)
    (complete : ∀ p ∈ ps, p.collects = false → p.hasDefault = true ∨ p.name ∈ ks.names) :
    ∃ b, bindKeywords bound collecting ps ks = .ok b := by
  induction ps generalizing bound collecting ks with
  | nil =>
    cases ks with
    | nil => exact ⟨bound, rfl⟩
    | cons k ks =>
      have collects : collecting = true := by simpa using known k.1 (by simp [Table.names])
      exact ⟨bound, by rw [bindKeywords, if_pos collects]⟩
  | cons p ps ih =>
    have rest (collecting' : Bool) (more : collecting = true → collecting' = true)
        (all : p.kind = .extra → collecting' = true) {bound' : Table α} {ls : Table α}
        (less : ∀ name, name ∈ ls.names ↔ name ∈ ks.names ∧ ¬ (p.collects = false ∧ p.name = name)) :
        ∃ b, bindKeywords bound' collecting' ps ls = .ok b := by
      refine ih legal.tail (fun name hn => ?_) (fun q hq hk hn => ?_) fun q hq hc => ?_
      · obtain ⟨hn, other⟩ := (less name).1 hn
        rcases known name hn with ⟨q, hq, hqp⟩ | collects | ⟨q, hq, hk⟩
        · rcases List.mem_cons.1 hq with rfl | hq
          · exact absurd hqp other
          · exact .inl ⟨q, hq, hqp⟩
        · exact .inr (.inl (more collects))
        · rcases List.mem_cons.1 hq with rfl | hq
          · exact .inr (.inl (all hk))
          · exact .inr (.inr ⟨q, hq, hk⟩)
      · exact byPosition q (List.mem_cons_of_mem p hq) hk ((less _).1 hn).1
      · refine (complete q (List.mem_cons_of_mem p hq) hc).imp_right fun hn => ?_
        exact (less _).2 ⟨hn, fun same => legal.name_ne hq same.2.symm⟩
    have collected (h : p.collects = true) (name : String) :
        name ∈ ks.names ↔ name ∈ ks.names ∧ ¬ (p.collects = false ∧ p.name = name) := by
      simp [h]
    unfold bindKeywords
    cases hk : p.kind with
    | extra =>
      exact rest true (fun _ => rfl) (fun _ => rfl) (collected (by simp [Parameter.collects, hk]))
    | rest =>
      exact rest collecting id (by simp [hk]) (collected (by simp [Parameter.collects, hk]))
    | _ =>
      have single : p.collects = false := by simp [Parameter.collects, hk]
      cases hg : ks.get? p.name with
      | none =>
        have absent := Table.get?_eq_none_iff.1 hg
        have hd := (complete p List.mem_cons_self single).resolve_right absent
        simp only [hd, if_true]
        refine rest collecting id (by simp [hk]) fun name => ⟨fun hn => ⟨hn, ?_⟩, And.left⟩
        exact fun same => absent (same.2 ▸ hn)
      | some a =>
        have given := Table.mem_names (Table.mem_of_get? hg)
        have kind : p.kind ≠ .positionalOnly := fun h =>
          byPosition p List.mem_cons_self h given
        have less (name : String) : name ∈ (ks.remove p.name).names ↔
            name ∈ ks.names ∧ ¬ (p.collects = false ∧ p.name = name) := by
          simp [Table.names_remove, single, eq_comm (a := name)]
        dsimp only
        rw [if_neg (hk ▸ kind)]
        exact rest collecting id (by simp [hk]) less

theorem bindRemaining_succeeds {bound : Table α} (legal : Legal ps)
    (known : ∀ name ∈ ks.names,
      (∃ p ∈ ps, p.collects = false ∧ p.name = name) ∨ ∃ p ∈ ps, p.kind = .extra)
    (byPosition : ∀ p ∈ ps, p.kind = .positionalOnly → p.name ∉ ks.names)
    (complete : ∀ p ∈ ps, p.collects = false → p.hasDefault = true ∨ p.name ∈ ks.names) :
    ∃ b, bindRemaining bound ps ks = .ok b := by
  have all : ∃ b, bindKeywords bound false ps ks = .ok b :=
    bindKeywords_succeeds legal (fun name hn => (known name hn).imp_right .inr) byPosition complete
  cases ps with
  | nil => exact all
  | cons p ps =>
    unfold bindRemaining
    dsimp only
    by_cases hr : p.kind = .rest
    · simpa only [bindKeywords, hr, if_true] using all
    rw [if_neg hr]
    by_cases hh : ks.has p.name = true
    · rw [if_pos hh, if_neg fun h => byPosition p List.mem_cons_self h (Table.has_iff.1 hh)]
      exact all
    rw [if_neg hh]
    by_cases hd : (p.kind = .extra || p.hasDefault) = true
    · rw [if_pos (by simpa using hd)]
      exact all
    · simp only [Bool.or_eq_true, decide_eq_true_eq, not_or, Bool.not_eq_true] at hd
      have single : p.collects = false := by simp [Parameter.collects, hr, hd.1]
      rcases complete p List.mem_cons_self single with h | h
      · simp [hd.2] at h
      · exact absurd (Table.has_iff.2 h) hh

section Positions

variable {a : α}

/-- The parameters that the positional arguments go to, after the first of both. -/
theorem Legal.mem_take_tail (legal : Legal (p :: ps)) (hp : p.isPositional = true) (hq : q ∈ ps) :
    q ∈ (positional (p :: ps)).take (a :: as).length ↔ q ∈ (positional ps).take as.length := by
  rw [positional_cons_of_pos hp, List.length_cons, List.take_succ_cons, List.mem_cons]
  exact or_iff_right fun same => legal.name_ne hq (by rw [same])

theorem mem_take_first (hp : p.isPositional = true) :
    p ∈ (positional (p :: ps)).take (a :: as).length := by
  simp [positional_cons_of_pos hp]

/-- What is consistent is so still without the first argument and the parameter that it goes to. -/
theorem Consistent.tail (h : Consistent (p :: ps) (a :: as) ks) (legal : Legal (p :: ps))
    (hp : p.isPositional = true) : Consistent ps as ks where
  room := by
    refine h.room.imp (fun room => ?_) fun ⟨q, hq, hk⟩ => ?_
    · simpa [positional_cons_of_pos hp] using room
    · rcases List.mem_cons.1 hq with rfl | hq
      · simp [Parameter.isPositional, hk] at hp
      · exact ⟨q, hq, hk⟩
  known name hn := by
    refine (h.known name hn).imp (fun ⟨q, hq, hc, hk, same⟩ => ?_) fun ⟨q, hq, hk⟩ => ?_
    · rcases List.mem_cons.1 hq with rfl | hq
      · exact absurd (same ▸ hn) (h.once q (mem_take_first hp) hk)
      · exact ⟨q, hq, hc, hk, same⟩
    · rcases List.mem_cons.1 hq with rfl | hq
      · simp [Parameter.isPositional, hk] at hp
      · exact ⟨q, hq, hk⟩
  once q hq :=
    h.once q ((legal.mem_take_tail hp (List.mem_of_mem_filter (List.mem_of_mem_take hq))).2 hq)
  unique := h.unique
  byPosition q hq kind :=
    (h.byPosition q (List.mem_cons_of_mem p hq) kind).imp_left (legal.mem_take_tail hp hq).1

theorem Complete.tail (h : Complete (p :: ps) (a :: as) ks) (legal : Legal (p :: ps))
    (hp : p.isPositional = true) : Complete ps as ks := fun q hq hc =>
  (h q (List.mem_cons_of_mem p hq) hc).imp_right (Or.imp_left (legal.mem_take_tail hp hq).1)

/-- Where there is room for an argument but not in the first parameter by itself, the parameter takes
all the rest. -/
theorem Consistent.kind_rest (h : Consistent (p :: ps) (a :: as) ks) (legal : Legal (p :: ps))
    (hp : p.isPositional = false) : p.kind = .rest := by
  obtain ⟨r, hr, hrest⟩ : ∃ r ∈ p :: ps, r.kind = .rest :=
    h.room.resolve_left (by simp [legal.positional_eq_nil hp])
  have le : p.kind.rank ≤ r.kind.rank := by
    rcases List.mem_cons.1 hr with rfl | hr
    · exact Nat.le_refl _
    · exact legal.rank_le hr
  unfold Parameter.isPositional at hp
  rw [hrest] at le
  cases hk : p.kind <;> simp_all [ParameterKind.rank]

end Positions

theorem Consistent.named (h : Consistent ps as ks) {name : String} (hn : name ∈ ks.names) :
    (∃ p ∈ ps, p.collects = false ∧ p.name = name) ∨ ∃ p ∈ ps, p.kind = .extra :=
  (h.known name hn).imp_left fun ⟨p, hp, single, _, same⟩ => ⟨p, hp, single, same⟩

theorem bindFrom_succeeds {bound : Table α} (legal : Legal ps) (consistent : Consistent ps as ks)
    (complete : Complete ps as ks) : ∃ b, bindFrom bound ps as ks = .ok b := by
  induction as generalizing ps bound with
  | nil =>
    unfold bindFrom
    refine bindRemaining_succeeds legal (fun _ => consistent.named)
      (fun p hp kind => (consistent.byPosition p hp kind).resolve_left (by simp)) fun p hp hc => ?_
    simpa using complete p hp hc
  | cons a as ih =>
    cases ps with
    | nil => simpa [positional] using consistent.room
    | cons p ps =>
      unfold bindFrom
      cases hp : p.isPositional with
      | true =>
        have next : ∃ b, bindFrom (bound ++ [(p.name, a)]) ps as ks = .ok b :=
          ih legal.tail (consistent.tail legal hp) (complete.tail legal hp)
        rcases isPositional_iff.1 hp with hk | hk
        · simpa [hk] using next
        · have unnamed : ks.has p.name = false := by
            simpa [← Table.has_iff] using consistent.once p (mem_take_first hp) (by simp [hk])
          simpa [hk, unnamed] using next
      | false =>
        -- of the parameters that are left only one that takes all the rest has room
        have none := legal.positional_eq_nil hp
        have all : ∃ b, bindKeywords bound false (p :: ps) ks = .ok b :=
          bindKeywords_succeeds legal (fun name hn => (consistent.named hn).imp_right .inr)
            (fun q hq kind => (consistent.byPosition q hq kind).resolve_left (by simp [none]))
            fun q hq hc => by simpa [none] using complete q hq hc
        simpa only [bindKeywords, consistent.kind_rest legal hp] using all

/-- Arguments of which none is out of place, and that leave nothing out, can be bound. -/
theorem bind_succeeds (legal : Legal ps) (consistent : Consistent ps as ks)
    (complete : Complete ps as ks) : ∃ bound, bind ps as ks = .ok bound :=
  bindFrom_succeeds legal consistent complete

/-! ## What positional arguments are bound to -/

/-- The parameter that a call binds the positional argument in place `i` to. -/
def taker? : List Parameter → Nat → Option Parameter
  | [], _ => none
  | p :: ps, i =>
    match p.kind, i with
    | .rest, _ => some p
    | .keywordOnly, _ | .extra, _ => none
    | _, 0 => some p
    | _, i + 1 => taker? ps i

theorem bindKeywords_prefix {bound b : Table α} {collecting : Bool}
    (h : bindKeywords bound collecting ps ks = .ok b) : bound <+: b := by
  induction ps generalizing bound collecting ks with
  | nil =>
    unfold bindKeywords at h
    split at h
    · exact Except.ok.inj h ▸ List.prefix_rfl
    · split at h
      · exact Except.ok.inj h ▸ List.prefix_rfl
      · cases h
  | cons p ps ih =>
    unfold bindKeywords at h
    split at h
    · exact ih h
    · exact ih h
    · split at h
      · split at h
        · cases h
        · exact (List.prefix_append _ _).trans (ih h)
      · split at h
        · exact ih h
        · cases h

theorem bindRemaining_prefix {bound b : Table α} (h : bindRemaining bound ps ks = .ok b) :
    bound <+: b := by
  unfold bindRemaining at h
  split at h
  · exact bindKeywords_prefix h
  · split at h
    · exact bindKeywords_prefix h
    split at h
    · split at h
      · cases h
      · exact bindKeywords_prefix h
    · split at h
      · exact bindKeywords_prefix h
      · cases h

theorem bindFrom_prefix {bound b : Table α} (h : bindFrom bound ps as ks = .ok b) :
    bound <+: b := by
  induction as generalizing ps bound with
  | nil =>
    unfold bindFrom at h
    exact bindRemaining_prefix h
  | cons a as ih =>
    cases ps with
    | nil => cases h
    | cons p ps =>
      unfold bindFrom at h
      split at h
      · cases h
      · cases h
      · exact bindKeywords_prefix h
      · split at h
        · cases h
        · exact (List.prefix_append _ _).trans (ih h)

theorem bindFrom_takes {bound b : Table α} {a : α} (unique : (bound.names ++ ps.map (·.name)).Nodup)
    (h : bindFrom bound ps as ks = .ok b) (ha : as[i]? = some a) :
    ∃ p, taker? ps i = some p ∧ (p.kind = .rest ∨ b.get? p.name = some a) := by
  induction as generalizing ps bound i with
  | nil => cases ha
  | cons a' as ih =>
    cases ps with
    | nil => cases h
    | cons p ps =>
      unfold bindFrom at h
      have single (hk : p.isPositional = true)
          (next : bindFrom (bound ++ [(p.name, a')]) ps as ks = .ok b) :
          ∃ q, taker? (p :: ps) i = some q ∧ (q.kind = .rest ∨ b.get? q.name = some a) := by
        have new : p.name ∉ bound.names := fun hn =>
          (List.nodup_append.1 unique).2.2 p.name hn p.name (by simp) rfl
        cases i with
        | zero =>
          obtain rfl := Option.some.inj ha
          refine ⟨p, ?_, .inr ?_⟩
          · rcases isPositional_iff.1 hk with hk | hk <;> simp [taker?, hk]
          · obtain ⟨more, rfl⟩ := bindFrom_prefix next
            rw [Table.get?_append, Table.get?_append, Table.get?_eq_none_iff.2 new]
            simp [Table.get?_cons]
        | succ i =>
          have unique' : ((bound ++ [(p.name, a')]).names ++ ps.map (·.name)).Nodup := by
            simpa [Table.names] using unique
          obtain ⟨q, hq, bound⟩ := ih unique' next ha
          refine ⟨q, ?_, bound⟩
          rcases isPositional_iff.1 hk with hk | hk <;> simpa [taker?, hk] using hq
      cases hk : p.kind with
      | keywordOnly => simp [hk] at h
      | extra => simp [hk] at h
      | rest => exact ⟨p, by simp [taker?, hk], .inl hk⟩
      | positionalOnly | standard =>
        simp only [hk] at h
        split at h
        · cases h
        · exact single (isPositional_iff.2 (by simp [hk])) h

/-- What is bound by position is bound where it is said to be. -/
theorem bind_takes {b : Table α} {a : α} (legal : Legal ps) (h : bind ps as ks = .ok b)
    (ha : as[i]? = some a) :
    ∃ p, taker? ps i = some p ∧ (p.kind = .rest ∨ b.get? p.name = some a) :=
  bindFrom_takes (by simpa [Table.names] using legal.unique) h ha

theorem kind_of_taker? (h : taker? ps i = some p) : p.isPositional = true ∨ p.kind = .rest := by
  induction ps generalizing i with
  | nil => cases h
  | cons q ps ih =>
    unfold taker? at h
    split at h
    next hk => exact .inr (Option.some.inj h ▸ hk)
    · cases h
    · cases h
    next hk _ _ _ =>
      obtain rfl := Option.some.inj h
      refine .inl (isPositional_iff.2 ?_)
      cases hq : q.kind <;> simp_all
    · exact ih h

/-- The first positional arguments go to the parameters that take one each, in their order. -/
theorem Legal.taker?_of_lt (legal : Legal ps) (before : i < (positional ps).length) :
    taker? ps i = (positional ps)[i]? := by
  induction ps generalizing i with
  | nil => cases before
  | cons p ps ih =>
    cases hp : p.isPositional with
    | false => simp [legal.positional_eq_nil hp] at before
    | true =>
      rw [positional_cons_of_pos hp] at before ⊢
      cases i with
      | zero => rcases isPositional_iff.1 hp with hk | hk <;> simp [taker?, hk]
      | succ i =>
        have next := ih legal.tail (i := i) (by simpa using before)
        rcases isPositional_iff.1 hp with hk | hk <;> simpa [taker?, hk] using next

/-- Further positional arguments go to the parameter that takes all the rest, if there is one. -/
theorem Legal.taker?_of_le (legal : Legal ps) (beyond : (positional ps).length ≤ i)
    (h : taker? ps i = some p) : p.kind = .rest := by
  induction ps generalizing i with
  | nil => cases h
  | cons q ps ih =>
    cases hq : q.isPositional with
    | false =>
      unfold taker? at h
      split at h
      next hk => exact Option.some.inj h ▸ hk
      · cases h
      · cases h
      all_goals
        unfold Parameter.isPositional at hq
        cases hk : q.kind <;> simp_all
    | true =>
      rw [positional_cons_of_pos hq, List.length_cons] at beyond
      obtain ⟨i, rfl⟩ : ∃ j, i = j + 1 := ⟨i - 1, by omega⟩
      refine ih legal.tail (i := i) (by omega) ?_
      rcases isPositional_iff.1 hq with hk | hk <;> simpa [taker?, hk] using h

end Signature

end Wiring
