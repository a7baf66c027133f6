import Wiring.Container.Order
import Wiring.Proofs.Outcome
import Wiring.Proofs.Table
import Wiring.Proofs.Walk.DepthFirst

/-!
# Construction orders

Where dependencies rank services, heights are found without meeting a cycle. The order of a service
lists nothing but what the service needs, and the service last.
-/

namespace Wiring.ServicePlan

variable {next : String → List String} {rank : String → Nat} {heights heights' : Heights}
  {depth : Nat} {id a b : String}

/-- Services whose heights are being computed are above `id`. -/
def Pending (rank : String → Nat) (id : String) (heights : Heights) : Prop :=
  ∀ a, Table.get? heights a = some none → rank id < rank a

/-- Heights may be filled in, but none is left open that was not open before. -/
def Settles (heights heights' : Heights) : Prop :=
  ∀ a, Table.get? heights' a = some none → Table.get? heights a = some none

/-- Heights once one more dependency of `id` has its own. -/
def takeIn (next : String → List String) (depth : Nat) (id : String) (heights : Heights)
    (dependency : String) : Except Failure Heights :=
  match Table.get? heights dependency with
  | some none => .error (.fault (.circularServices [id, dependency, id]) none)
  | some (some _) => .ok heights
  | none => measure next depth dependency heights

theorem measure_eq_ok :
    measure next (depth + 1) id heights = .ok heights' ↔
      ∃ hs, (next id).foldlM (takeIn next depth id) (Table.put heights id none) = .ok hs ∧
        Table.put hs id (some ((((next id).map fun b =>
          ((Table.get? hs b).getD none).getD 0).max?.map (· + 1)).getD 0)) = heights' := by
  rw [← exists_congr fun hs => and_congr_right fun _ => pure_eq_ok, ← bind_eq_ok]
  rfl

/-- Heights are found where each dependency is of a smaller rank, none of them larger than the
depth. -/
theorem measure_ok (U : List String) (inside : ∀ a ∈ U, ∀ b ∈ next a, b ∈ U)
    (falling : ∀ a ∈ U, ∀ b ∈ next a, rank b < rank a) (hid : id ∈ U) (enough : rank id < depth)
    (pending : Pending rank id heights) :
    ∃ heights', measure next depth id heights = .ok heights' ∧ Settles heights heights' := by
  induction depth generalizing id heights with
  | zero => omega
  | succ depth ih =>
    have opened : ∀ a, Table.get? (Table.put heights id none) a = some none →
        a = id ∨ Table.get? heights a = some none := fun a ha => by
      rw [Table.get?_put] at ha
      split at ha
      next e => exact .inl e
      next => exact .inr ha
    obtain ⟨hs', h', inv⟩ := foldlM_ok_of
      (fun hs : Heights => ∀ a, hs.get? a = some none → a = id ∨ Table.get? heights a = some none)
      (f := takeIn next depth id) opened fun d hd hs inv => by
        have below := falling id hid d hd
        have above : Pending rank d hs := fun a ha => by
          rcases inv a ha with rfl | ha
          · exact below
          · exact Nat.lt_trans below (pending a ha)
        unfold takeIn
        cases hg : Table.get? hs d with
        | none =>
          obtain ⟨hs', h, settles⟩ := ih (inside id hid d hd) (by omega) above
          exact ⟨hs', h, fun a ha => inv a (settles a ha)⟩
        | some found =>
          cases found with
          | some n => exact ⟨hs, rfl, inv⟩
          | none => exact absurd (above d hg) (Nat.lt_irrefl _)
    refine ⟨_, measure_eq_ok.2 ⟨hs', h', rfl⟩, fun a ha => ?_⟩
    rw [Table.get?_put] at ha
    split at ha
    · cases ha
    next ne => exact (inv a ha).resolve_left ne

variable {plans : List ServicePlan}

/-- The services that have plans. -/
def planned (plans : List ServicePlan) : List String := plans.map (·.id)

/-- Heights are found for all plans where dependencies rank them. -/
theorem heights_ok (rank : String → Nat)
    (inside : ∀ a ∈ planned plans, ∀ b ∈ dependenciesOf plans a, b ∈ planned plans)
    (bound : ∀ a ∈ planned plans, rank a < plans.length)
    (falling : ∀ a ∈ planned plans, ∀ b ∈ dependenciesOf plans a, rank b < rank a) :
    ∃ heights, ServicePlan.heights plans = .ok heights := by
  obtain ⟨found, h, -⟩ : ∃ found, (planned plans).foldlM (fun hs id => if Table.has hs id then .ok hs
      else measure (dependenciesOf plans) plans.length id hs) ([] : Heights) = .ok found ∧
      ∀ a, Table.get? found a ≠ some none :=
    foldlM_ok_of (fun hs : Heights => ∀ a, hs.get? a ≠ some none) (fun a => by simp [Table.get?])
      fun id hid hs inv => by
        split
        · exact ⟨hs, rfl, inv⟩
        · obtain ⟨hs', h, settles⟩ := measure_ok (planned plans) inside falling hid (bound id hid)
            fun a ha => absurd ha (inv a)
          exact ⟨hs', h, fun a ha => inv a (settles a ha)⟩
  exact ⟨_, bind_eq_ok.2 ⟨found, h, rfl⟩⟩

/-! ## What heights are -/

/-- The length of the longest chain of dependencies below a service. -/
inductive Height (next : String → List String) : String → Nat → Prop
  | mk {id : String} (below : String → Nat) : (∀ b ∈ next id, Height next b (below b)) →
    Height next id ((((next id).map below).max?.map (· + 1)).getD 0)

theorem Height.unique {m n : Nat} (h : Height next id m) (h' : Height next id n) : m = n := by
  induction h generalizing n with
  | mk below _ ih =>
    cases h' with
    | mk below' h' => rw [List.map_congr_left fun b hb => ih b hb (h' b hb)]

/-- What a service depends on is less high than the service. -/
theorem Height.lt {m n : Nat} (h : Height next a m) (hb : b ∈ next a) (h' : Height next b n) :
    n < m := by
  cases h with
  | mk below height =>
    have there : n ∈ (next a).map below :=
      List.mem_map.2 ⟨b, hb, (height b hb).unique h'⟩
    obtain ⟨top, highest⟩ := Option.ne_none_iff_exists'.1
      (mt List.max?_eq_none_iff.1 (List.ne_nil_of_mem there))
    have le : n ≤ top := (List.max?_eq_some_iff.1 highest).2 n there
    rw [highest]
    exact Nat.lt_succ_of_le le

/-- The height of a service is settled. -/
def Settled (heights : Heights) (id : String) : Prop := ∃ n, Table.get? heights id = some (some n)

/-- Heights are filled in: what was settled stays, none is left open that was not open before, and
those that are found are right if the others were. -/
structure Measured (next : String → List String) (heights heights' : Heights) : Prop where
  keeps : ∀ a n, Table.get? heights a = some (some n) → Table.get? heights' a = some (some n)
  settles : Settles heights heights'
  right : (∀ a n, Table.get? heights a = some (some n) → Height next a n) →
    ∀ a n, Table.get? heights' a = some (some n) → Height next a n

namespace Measured

theorem refl (heights : Heights) : Measured next heights heights :=
  ⟨fun _ _ h => h, fun _ h => h, fun h => h⟩

theorem trans {heights'' : Heights} (h : Measured next heights heights')
    (h' : Measured next heights' heights'') : Measured next heights heights'' :=
  ⟨fun a n hn => h'.keeps a n (h.keeps a n hn), fun a ha => h.settles a (h'.settles a ha),
    fun right => h'.right (h.right right)⟩

theorem settled (h : Measured next heights heights') (ha : Settled heights a) : Settled heights' a :=
  let ⟨n, hn⟩ := ha
  ⟨n, h.keeps a n hn⟩

/-- The height of a service is settled once those below it are. -/
theorem close (fresh : Table.get? heights id = none)
    (h : Measured next (Table.put heights id none) heights')
    (below : ∀ b ∈ next id, Settled heights' b) :
    Measured next heights (Table.put heights' id (some ((((next id).map fun b =>
      ((Table.get? heights' b).getD none).getD 0).max?.map (· + 1)).getD 0))) := by
  have opened {a : String} (ne : a ≠ id) :
      Table.get? (Table.put heights id none) a = Table.get? heights a := by
    rw [Table.get?_put, if_neg ne]
  have right (known : ∀ a n, Table.get? heights a = some (some n) → Height next a n) (a : String)
      (n : Nat) (ha : Table.get? heights' a = some (some n)) : Height next a n := by
    refine h.right (fun a n ha => ?_) a n ha
    rw [Table.get?_put] at ha
    split at ha
    · cases ha
    · exact known a n ha
  refine ⟨fun a n ha => ?_, fun a ha => ?_, fun known a n ha => ?_⟩
  · have ne : a ≠ id := fun e => by
      rw [e, fresh] at ha
      cases ha
    rw [Table.get?_put, if_neg ne]
    exact h.keeps a n (by rwa [opened ne])
  · rw [Table.get?_put] at ha
    split at ha
    · cases ha
    next ne => exact opened ne ▸ h.settles a ha
  · rw [Table.get?_put] at ha
    split at ha
    next e =>
      subst e
      obtain rfl := Option.some.inj (Option.some.inj ha)
      refine .mk _ fun b hb => ?_
      obtain ⟨m, hm⟩ := below b hb
      rw [hm]
      exact right known b m hm
    · exact right known a n ha

end Measured

/-- Measuring a service settles its height. -/
theorem measure_gives (fresh : Table.get? heights id = none)
    (h : measure next depth id heights = .ok heights') :
    Measured next heights heights' ∧ Settled heights' id := by
  induction depth generalizing id heights heights' with
  | zero => cases h
  | succ depth ih =>
    obtain ⟨hs, fold, rfl⟩ := measure_eq_ok.1 h
    obtain ⟨measured, below⟩ := foldlM_ok_done
      (fun done hs => Measured next (Table.put heights id none) hs ∧ ∀ b ∈ done, Settled hs b) fold
      ⟨.refl _, by simp⟩ fun done b hs₁ hs₂ inv step => by
        obtain ⟨inv, settled⟩ := inv
        have all {hs₂ : Heights} (measured : Measured next hs₁ hs₂) (hb : Settled hs₂ b) :
            ∀ x ∈ done ++ [b], Settled hs₂ x := fun x hx => by
          rcases List.mem_append.1 hx with hx | hx
          · exact measured.settled (settled x hx)
          · exact List.mem_singleton.1 hx ▸ hb
        unfold takeIn at step
        cases hb : Table.get? hs₁ b with
        | none =>
          rw [hb] at step
          obtain ⟨measured, hb'⟩ := ih hb step
          exact ⟨inv.trans measured, all measured hb'⟩
        | some found =>
          rw [hb] at step
          cases found with
          | none => cases step
          | some n =>
            obtain rfl := Except.ok.inj step
            exact ⟨inv, all (.refl _) ⟨n, hb⟩⟩
    refine ⟨measured.close fresh below, _, Table.get?_put.trans (if_pos rfl)⟩

/-- What is found for a service is its height, and nothing else is found. -/
theorem heights_right {found : Table Nat} (h : ServicePlan.heights plans = .ok found)
    (id : String) :
    Height (dependenciesOf plans) id ((found.get? id).getD 0) := by
  obtain ⟨hs, fold, h⟩ := bind_eq_ok.1 h
  obtain rfl := pure_eq_ok.1 h
  obtain ⟨measured, all⟩ := foldlM_ok_done
    (fun done hs => Measured (dependenciesOf plans) [] hs ∧ ∀ a ∈ done, Settled hs a) fold
    ⟨.refl _, by simp⟩ fun done a hs₁ hs₂ inv step => by
      obtain ⟨inv, settled⟩ := inv
      have closed : Table.get? hs₁ a ≠ some none := mt (inv.settles a) (by simp [Table.get?])
      have both : Measured (dependenciesOf plans) hs₁ hs₂ ∧ Settled hs₂ a := by
        split at step
        next known =>
          obtain rfl := Except.ok.inj step
          rw [Table.has_eq_isSome] at known
          obtain ⟨n?, hn⟩ := Option.isSome_iff_exists.1 known
          cases n? with
          | none => exact absurd hn closed
          | some n => exact ⟨.refl _, n, hn⟩
        next new =>
          rw [Table.has_eq_isSome, Option.isSome_iff_ne_none, not_not] at new
          exact measure_gives new step
      refine ⟨inv.trans both.1, fun x hx => ?_⟩
      rcases List.mem_append.1 hx with hx | hx
      · exact both.1.settled (settled x hx)
      · exact List.mem_singleton.1 hx ▸ both.2
  have right := measured.right fun a n ha => by simp [Table.get?] at ha
  have closed : Table.get? hs id ≠ some none := mt (measured.settles id) (by simp [Table.get?])
  rw [Table.get?_map (f := fun h : Option Nat => h.getD 0)]
  cases hid : Table.get? hs id with
  | some n? =>
    cases n? with
    | none => exact absurd hid closed
    | some n => exact right id n hid
  | none =>
    have absent : id ∉ planned plans := fun there => by
      obtain ⟨n, hn⟩ := all id there
      rw [hid] at hn
      cases hn
    have none : dependenciesOf plans id = [] := by
      unfold dependenciesOf
      rw [List.find?_eq_none.2 fun p hp e => absent (List.mem_map.2 ⟨p, hp, by simpa using e⟩)]
      rfl
    have leaf : Height (dependenciesOf plans) id _ := .mk (fun _ => 0) fun b hb => by
      rw [none] at hb
      cases hb
    rw [none] at leaf
    exact leaf

/-- Services whose heights are known do not lead back to themselves. -/
theorem heights_acyclic {found : Table Nat} (h : ServicePlan.heights plans = .ok found) :
    ¬ Relation.TransGen (fun a b => b ∈ dependenciesOf plans a) id id := by
  have falls {a b : String} (path : Relation.TransGen (fun a b => b ∈ dependenciesOf plans a) a b) :
      (found.get? b).getD 0 < (found.get? a).getD 0 := by
    induction path with
    | single hb => exact (heights_right h _).lt hb (heights_right h _)
    | tail _ hb ih => exact Nat.lt_trans ((heights_right h _).lt hb (heights_right h _)) ih
  exact fun loop => Nat.lt_irrefl _ (falls loop)

/-! ## Orders -/

theorem mem_byHeight {heights : Table Nat} :
    b ∈ byHeight plans heights a ↔ b ∈ dependenciesOf plans a := List.mem_mergeSort

/-- The order of a service ends with it, after what its dependencies need. -/
theorem order_eq {heights : Table Nat} (some : plans ≠ []) :
    ∃ before, order plans heights id = before ++ [id] ∧ id ∉ before ∧
      ∀ x ∈ before, ∃ t ∈ dependenciesOf plans id, Walk.Reaches (dependenciesOf plans) t x := by
  obtain ⟨before, h, new, reached⟩ := Walk.DepthFirst.postorder_root
    (List.length_pos_iff.2 some)
  refine ⟨before, h, new, fun x hx => ?_⟩
  obtain ⟨t, ht, path⟩ := reached x hx
  exact ⟨t, mem_byHeight.1 ht, Relation.ReflTransGen.mono (fun _ _ h => mem_byHeight.1 h) _ _ path⟩

theorem order_nodup {heights : Table Nat} : (order plans heights id).Nodup :=
  Walk.DepthFirst.postorder_nodup

/-- The order of a service lists all that it needs, and nothing else. -/
theorem mem_order {heights : Table Nat}
    (inside : ∀ a ∈ planned plans, ∀ b ∈ dependenciesOf plans a, b ∈ planned plans)
    (hid : id ∈ planned plans) :
    a ∈ order plans heights id ↔ Walk.Reaches (dependenciesOf plans) id a := by
  have same {x y : String} : Walk.Reaches (byHeight plans heights) x y ↔
      Walk.Reaches (dependenciesOf plans) x y :=
    ⟨Relation.ReflTransGen.mono (fun _ _ h => mem_byHeight.1 h) _ _,
      Relation.ReflTransGen.mono (fun _ _ h => mem_byHeight.2 h) _ _⟩
  rw [order, Walk.DepthFirst.mem_postorder, ← same]
  constructor
  · intro seen
    obtain ⟨r, hr, path⟩ := Walk.DepthFirst.visitAll_sound seen
    exact List.mem_singleton.1 hr ▸ path
  · intro path
    refine Walk.DepthFirst.visitAll_complete (U := planned plans)
      (fun x hx y hy => inside x hx y (mem_byHeight.1 hy)) (Nat.le_of_eq (List.length_map _))
      (fun r hr => List.mem_singleton.1 hr ▸ hid) (List.mem_singleton.2 rfl) path

/-- The order of a service lists each service after all that it depends on. -/
theorem order_sorted {found : Table Nat} (h : ServicePlan.heights plans = .ok found)
    (inside : ∀ a ∈ planned plans, ∀ b ∈ dependenciesOf plans a, b ∈ planned plans)
    (hid : id ∈ planned plans) :
    Walk.DepthFirst.Sorted (dependenciesOf plans) (order plans found id) := by
  have sorted : Walk.DepthFirst.Sorted (byHeight plans found) (order plans found id) :=
    Walk.DepthFirst.postorder_sorted (fun a ha b hb => inside a ha b (mem_byHeight.1 hb))
      (fun a _ b hb => (heights_right h a).lt (mem_byHeight.1 hb) (heights_right h b)) hid
      (Nat.le_of_eq (List.length_map _))
  exact fun before x after e y hy => sorted before x after e y (mem_byHeight.2 hy)

end Wiring.ServicePlan
