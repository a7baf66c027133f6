import Wiring.Proofs.Outcome
import Wiring.Value.Dict

/-!
# Equality of values

Every value equals itself, also where something in it is not a number. Between values that can be
keys equality is symmetric and transitive, so that each key is found again under its equals.

Of values that can be keys `distinct` keeps each that equals no earlier one. So a key is equal to at
most one of those that are kept, and to one of them if it was equal to any.
-/

namespace Wiring

namespace Number

theorem eqv_refl (n : Number) : n.eqv n = true := by
  cases n with
  | whole n => simp [eqv]
  | real x => cases x <;> simp [eqv, level?]

/-- Numbers are equal when they have the same place. What has none equals only itself. -/
theorem eqv_iff {a b : Number} :
    a.eqv b = true ↔ a.level? = b.level? ∧ (a.level? = none → a = b) := by
  have whole (m n : Int) :
      m * Binary64.unitsPerOne = n * Binary64.unitsPerOne ↔ m = n := by
    unfold Binary64.unitsPerOne
    generalize Binary64.unitScale = scale
    have positive : (Nat.pow 2 scale : Int) ≠ 0 :=
      Int.natCast_ne_zero.2 (Nat.ne_of_gt (Nat.pow_pos (by decide)))
    exact Int.mul_eq_mul_right_iff positive
  rcases a with a | ⟨_, _⟩ | _ | _ <;> rcases b with b | ⟨_, _⟩ | _ | _ <;>
    simp only [eqv, level?, beq_iff_eq, Option.some.injEq, reduceCtorEq, false_and, false_imp_iff,
      and_true, Level.at.injEq, whole, Bool.false_eq_true, true_imp_iff, real.injEq,
      Binary64.nan.injEq, true_and]

theorem eqv_comm (a b : Number) : a.eqv b = b.eqv a := by
  rw [Bool.eq_iff_iff, eqv_iff, eqv_iff, eq_comm (a := a.level?), eq_comm (a := a)]
  exact and_congr_right fun same => by rw [same]

theorem eqv_trans {a b c : Number} (h : a.eqv b = true) (h' : b.eqv c = true) :
    a.eqv c = true := by
  rw [eqv_iff] at *
  refine ⟨h.1.trans h'.1, fun nowhere => ?_⟩
  exact (h.2 nowhere).trans (h'.2 (h.1.symm.trans nowhere))

end Number

namespace Hint

mutual

theorem same_refl (h : Hint) : same h h = true := by
  match h with
  | .type _ => simp [same]
  | .union _ members =>
    rw [same, Bool.and_eq_true, List.all_eq_true]
    exact ⟨coveredBy_of_subset members fun _ h => h, fun m hm => anySame_of_mem members hm⟩
  | .marked inner _ => simp [same, same_refl inner]
  | .late _ => simp [same]

theorem coveredBy_of_subset (members : List Hint) {others : List Hint}
    (sub : ∀ m ∈ members, m ∈ others) : coveredBy members others = true := by
  match members with
  | [] => rw [coveredBy]
  | m :: ms =>
    rw [coveredBy, Bool.and_eq_true, List.any_eq_true]
    exact ⟨⟨m, sub m List.mem_cons_self, same_refl m⟩,
      coveredBy_of_subset ms fun k hk => sub k (List.mem_cons_of_mem m hk)⟩

theorem anySame_of_mem (members : List Hint) {m : Hint} (hm : m ∈ members) :
    anySame members m = true := by
  match members with
  | k :: ks =>
    rw [anySame, Bool.or_eq_true]
    rcases List.mem_cons.1 hm with h | h
    · exact .inl (h ▸ same_refl k)
    · exact .inr (anySame_of_mem ks h)

end

theorem coveredBy_eq {as bs : List Hint} :
    coveredBy as bs = as.all fun a => bs.any fun b => same a b := by
  induction as with
  | nil => rw [coveredBy]; rfl
  | cons a as ih => rw [coveredBy, ih, List.all_cons]

theorem anySame_eq {as : List Hint} {b : Hint} : anySame as b = as.any fun a => same a b := by
  induction as with
  | nil => rw [anySame]; rfl
  | cons a as ih => rw [anySame, ih, List.any_cons]

/-- Unions are equal when each member of either is in the other. -/
theorem same_union {f g : UnionForm} {as bs : List Hint} :
    same (.union f as) (.union g bs) = true ↔
      (∀ a ∈ as, ∃ b ∈ bs, same a b = true) ∧ ∀ b ∈ bs, ∃ a ∈ as, same a b = true := by
  simp only [same, coveredBy_eq, anySame_eq, Bool.and_eq_true, List.all_eq_true, List.any_eq_true]

theorem same_comm (h k : Hint) : same h k = same k h := by
  match h, k with
  | .union f as, .union g bs =>
    have member : ∀ a ∈ as, ∀ b, same a b = same b a := fun a _ b => same_comm a b
    rw [Bool.eq_iff_iff, same_union, same_union, and_comm]
    refine and_congr (forall₂_congr fun b _ => ?_) (forall₂_congr fun a ha => ?_)
    · exact exists_congr fun a => and_congr_right fun ha => by rw [member a ha]
    · exact exists_congr fun b => and_congr_right fun _ => by rw [member a ha]
  | .marked a m, .marked b n =>
    rw [same, same, same_comm a b, BEq.comm (a := m)]
  | .type _, .type _ | .late _, .late _ => rw [same, same, BEq.comm]
  | .type _, .union _ _ | .type _, .marked _ _ | .type _, .late _ | .union _ _, .type _
  | .union _ _, .marked _ _ | .union _ _, .late _ | .marked _ _, .type _ | .marked _ _, .union _ _
  | .marked _ _, .late _ | .late _, .type _ | .late _, .union _ _ | .late _, .marked _ _ =>
    simp [same]
termination_by h

theorem same_trans {h k l : Hint} (first : same h k = true) (second : same k l = true) :
    same h l = true := by
  match h, k, l with
  | .union f as, .union g bs, .union e cs =>
    have member : ∀ a ∈ as, ∀ b c, same a b = true → same b c = true → same a c = true :=
      fun a _ b c => same_trans
    rw [same_union] at *
    refine ⟨fun a ha => ?_, fun c hc => ?_⟩
    · obtain ⟨b, hb, hab⟩ := first.1 a ha
      obtain ⟨c, hc, hbc⟩ := second.1 b hb
      exact ⟨c, hc, member a ha b c hab hbc⟩
    · obtain ⟨b, hb, hbc⟩ := second.2 c hc
      obtain ⟨a, ha, hab⟩ := first.2 b hb
      exact ⟨a, ha, member a ha b c hab hbc⟩
  | .marked a m, .marked b n, .marked c o =>
    simp only [same, Bool.and_eq_true, beq_iff_eq] at *
    exact ⟨same_trans first.1 second.1, first.2.trans second.2⟩
  | .type _, .type _, .type _ | .late _, .late _, .late _ =>
    simp only [same, beq_iff_eq] at *
    exact first.trans second
termination_by h

end Hint

namespace Value

mutual

theorem same_refl (v : Value) : same v v = true := by
  match v with
  | .null => rfl
  | .bool _ | .int _ | .real _ => simp [same, number?, Number.eqv_refl]
  | .str _ | .object _ | .type _ | .built _ | .deferred _ _ => simp [same]
  | .list items => simpa [same] using sameAll_refl items
  | .tuple items => simpa [same] using sameAll_refl items
  | .dict entries => simpa [same] using sameEntries_of_subset entries fun _ h => h
  | .hint h => simpa [same] using Hint.same_refl h

theorem sameAll_refl (vs : List Value) : sameAll vs vs = true := by
  match vs with
  | [] => rfl
  | v :: vs => simp [sameAll, same_refl v, sameAll_refl vs]

theorem sameEntries_of_subset (entries : List (Value × Value)) {others : List (Value × Value)}
    (sub : ∀ e ∈ entries, e ∈ others) : sameEntries entries others = true := by
  match entries with
  | [] => rfl
  | (k, v) :: rest =>
    rw [sameEntries, Bool.and_eq_true, List.any_eq_true]
    exact ⟨⟨(k, v), sub (k, v) List.mem_cons_self, by simp [same_refl k, same_refl v]⟩,
      sameEntries_of_subset rest fun e he => sub e (List.mem_cons_of_mem (k, v) he)⟩

end

/-! ## Keys -/

theorem same_of_number {v w : Value} {x : Number} (number : v.number? = some x) :
    v.same w = true ↔ ∃ y, w.number? = some y ∧ x.eqv y = true := by
  cases v <;> simp only [number?, reduceCtorEq, Option.some.injEq] at number <;> subst number <;>
    simp only [same] <;> cases w.number? <;> simp

mutual

theorem same_comm {k l : Value} (hashable : k.unhashable? = none) : k.same l = l.same k := by
  match k with
  | .list _ | .dict _ => cases hashable
  | .tuple ks =>
    cases l with
    | tuple ls =>
      rw [same, same]
      exact sameAll_comm hashable
    | _ => simp [same, number?]
  | .hint h =>
    cases l with
    | hint h' =>
      rw [same, same]
      exact Hint.same_comm h h'
    | _ => simp [same, number?]
  | .bool _ | .int _ | .real _ => cases l <;> simp [same, number?, Number.eqv_comm]
  | .null | .str _ | .object _ | .type _ | .built _ | .deferred _ _ =>
    cases l <;> simp [same, number?, BEq.comm]

theorem sameAll_comm {ks ls : List Value} (hashable : firstUnhashable? ks = none) :
    sameAll ks ls = sameAll ls ks := by
  match ks, ls with
  | [], [] | [], _ :: _ | _ :: _, [] => simp [sameAll]
  | k :: ks, l :: ls =>
    obtain ⟨first, rest⟩ := Option.or_eq_none_iff.1 hashable
    rw [sameAll, sameAll, same_comm first, sameAll_comm rest]

end

mutual

theorem same_trans {k l m : Value} (hashable : k.unhashable? = none) (first : k.same l = true)
    (second : l.same m = true) : k.same m = true := by
  match k with
  | .list _ | .dict _ => cases hashable
  | .tuple ks =>
    cases l with
    | tuple ls =>
      cases m with
      | tuple ms =>
        rw [same] at *
        exact sameAll_trans hashable first second
      | _ => simp [same] at second
    | _ => simp [same] at first
  | .hint h =>
    cases l with
    | hint h' =>
      cases m with
      | hint h'' =>
        rw [same] at *
        exact Hint.same_trans first second
      | _ => simp [same] at second
    | _ => simp [same] at first
  | .bool _ | .int _ | .real _ =>
    obtain ⟨y, number, equal⟩ := (same_of_number rfl).1 first
    obtain ⟨z, number', equal'⟩ := (same_of_number number).1 second
    exact (same_of_number rfl).2 ⟨z, number', Number.eqv_trans equal equal'⟩
  | .null | .str _ | .object _ | .type _ | .built _ | .deferred _ _ =>
    cases l <;> cases m <;> simp_all [same]

theorem sameAll_trans {ks ls ms : List Value} (hashable : firstUnhashable? ks = none)
    (first : sameAll ks ls = true) (second : sameAll ls ms = true) : sameAll ks ms = true := by
  match ks, ls, ms with
  | [], [], [] => rfl
  | k :: ks, l :: ls, m :: ms =>
    obtain ⟨head, rest⟩ := Option.or_eq_none_iff.1 hashable
    simp only [sameAll, Bool.and_eq_true] at *
    exact ⟨same_trans head first.1 second.1, sameAll_trans rest first.2 second.2⟩

end

mutual

/-- What equals a key can be one. -/
theorem unhashable?_of_same {k l : Value} (hashable : k.unhashable? = none)
    (equal : k.same l = true) : l.unhashable? = none := by
  match k, l with
  | .list _, _ | .dict _, _ => cases hashable
  | .tuple ks, .tuple ls => exact firstUnhashable?_of_same hashable equal
  | _, .null | _, .bool _ | _, .int _ | _, .real _ | _, .str _ | _, .object _ | _, .type _
  | _, .hint _ | _, .built _ | _, .deferred _ _ => rfl

theorem firstUnhashable?_of_same {ks ls : List Value} (hashable : firstUnhashable? ks = none)
    (equal : sameAll ks ls = true) : firstUnhashable? ls = none := by
  match ks, ls with
  | [], [] => rfl
  | k :: ks, l :: ls =>
    obtain ⟨head, rest⟩ := Option.or_eq_none_iff.1 hashable
    simp only [sameAll, Bool.and_eq_true] at equal
    exact Option.or_eq_none_iff.2
      ⟨unhashable?_of_same head equal.1, firstUnhashable?_of_same rest equal.2⟩

end

/-! ## Values without repetitions -/

section Distinct

variable {c v : Value} {vs ws kept : List Value}

theorem token_of_hashable (hashable : v.unhashable? = none) : v.token = v := by
  simp [token, hashable]

theorem requireHashable_eq_ok : requireHashable v = .ok () ↔ v.unhashable? = none := by
  unfold requireHashable
  cases v.unhashable? <;> simp

theorem distinctKeys_eq_ok :
    distinctKeys vs = .ok ws ↔ (∀ v ∈ vs, v.unhashable? = none) ∧ distinct vs = ws := by
  simp only [distinctKeys, bind_eq_ok, forM_eq_ok, requireHashable_eq_ok, pure_eq_ok, exists_const]

theorem mem_distinct (h : v ∈ distinct vs) : v ∈ vs := mem_of_mem_keepNew h

/-- A value is kept beside others only where it equals none of them, so at most one value that is
kept equals a key. -/
theorem countP_keep (hashable : v.unhashable? = none) (fit : ∀ k ∈ kept, k.unhashable? = none)
    (single : kept.countP (·.same c) = if kept.any (·.same c) then 1 else 0) :
    (if kept.any v.same then kept else kept ++ [v]).countP (·.same c) =
      if kept.any (·.same c) || v.same c then 1 else 0 := by
  by_cases equal : v.same c = true
  · by_cases known : kept.any v.same = true
    · obtain ⟨k, hk, same⟩ := List.any_eq_true.1 known
      have here : kept.any (·.same c) = true :=
        List.any_eq_true.2 ⟨k, hk, same_trans (fit k hk) (same_comm hashable ▸ same) equal⟩
      rw [if_pos known, single, here, Bool.true_or]
    · have absent : kept.any (·.same c) = false := by
        rw [List.any_eq_false]
        intro k hk same
        have back : c.same k = true := same_comm (fit k hk) ▸ same
        exact known (List.any_eq_true.2 ⟨k, hk, same_trans hashable equal back⟩)
      rw [if_neg known, List.countP_append, single, absent]
      simp [equal]
  · rw [Bool.not_eq_true] at equal
    split
    · rw [single, equal, Bool.or_false]
    · rw [List.countP_append, single, equal, Bool.or_false]
      simp [equal]

/-- Of values without repetitions one equals a key if any did before. -/
theorem countP_distinct (hashable : ∀ v ∈ vs, v.unhashable? = none) :
    (distinct vs).countP (·.same c) = if vs.any (·.same c) then 1 else 0 := by
  have fold (rest : List Value) : ∀ kept : List Value,
      (∀ v ∈ rest, v.unhashable? = none) → (∀ k ∈ kept, k.unhashable? = none) →
      kept.countP (·.same c) = (if kept.any (·.same c) then 1 else 0) →
      (rest.foldl (fun kept v => if kept.any v.same then kept else kept ++ [v]) kept).countP
        (·.same c) = if kept.any (·.same c) || rest.any (·.same c) then 1 else 0 := by
    induction rest with
    | nil => intro kept _ _ single; simpa using single
    | cons v rest ih =>
      intro kept fit fit' single
      obtain ⟨here, others⟩ := List.forall_mem_cons.1 fit
      have count := countP_keep here fit' single
      rw [List.foldl_cons, List.any_cons, ← Bool.or_assoc]
      generalize hn : (if kept.any v.same then kept else kept ++ [v]) = next at count ⊢
      have any : next.any (·.same c) = (kept.any (·.same c) || v.same c) := by
        rw [Bool.eq_iff_iff, List.any_eq_true, ← List.countP_pos_iff, count]
        split <;> simp_all
      have fit'' : ∀ k ∈ next, k.unhashable? = none := by
        intro k hk
        subst hn
        split at hk
        · exact fit' k hk
        · exact (List.mem_append.1 hk).elim (fit' k) fun hk => List.mem_singleton.1 hk ▸ here
      rw [← any]
      exact ih next others fit'' (any ▸ count)
  exact fold vs [] hashable (by simp) (by simp)

/-! ## Joining -/

theorem distinct_concat : distinct (vs ++ [v]) =
    if (distinct vs).any v.same then distinct vs else distinct vs ++ [v] := by
  unfold distinct
  rw [List.foldl_append]
  rfl

theorem distinct_distinct (vs : List Value) : distinct (distinct vs) = distinct vs := by
  induction vs using List.reverseRecOn with
  | nil => rfl
  | append_singleton vs v ih =>
    rw [distinct_concat]
    split
    next => exact ih
    next new => rw [distinct_concat, ih, if_neg new]

/-- Repetitions can be left out before more values are joined on. -/
theorem distinct_append (vs ws : List Value) : distinct (distinct vs ++ ws) = distinct (vs ++ ws) := by
  induction ws using List.reverseRecOn with
  | nil => rw [List.append_nil, List.append_nil, distinct_distinct]
  | append_singleton ws w ih =>
    rw [← List.append_assoc, ← List.append_assoc, distinct_concat, distinct_concat, ih]

end Distinct

end Value

end Wiring
