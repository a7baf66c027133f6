import Wiring.Graph.Walk
import Wiring.Proofs.Lists
import Mathlib.Logic.Relation

/-!
# Depth-first walks

A depth-first walk adds to what is seen, and lists what it adds. It adds nothing but what is
reached, and where it may go as deep as there are identifiers it adds all of that.
-/

namespace Wiring.Walk

/-- `next` leads from one identifier to the other in any number of steps. -/
abbrev Reaches (next : String → List String) : String → String → Prop :=
  Relation.ReflTransGen fun a b => b ∈ next a

namespace DepthFirst

variable {next : String → List String} {depth : Nat} {id x : String} {w w₁ w' : DepthFirst}

/-- Visits an identifier unless it has been reached. -/
def visitNew (next : String → List String) (depth : Nat) (w : DepthFirst) (id : String) :
    DepthFirst :=
  if w.seen.contains id then w else visit next depth id w

theorem visit_succ : visit next (depth + 1) id w =
    let w' := (next id).foldl (visitNew next depth) { w with seen := id :: w.seen }
    { w' with done := w'.done ++ [id] } := rfl

theorem visitAll_eq {roots : List String} :
    visitAll next depth roots = roots.foldl (visitNew next depth) {} := rfl

/-! ## What is added -/

/-- `w'` has seen and done `new` besides what `w` has, nothing of it twice, and `P` holds of it. -/
structure Adds (P : String → Prop) (w w' : DepthFirst) (new : List String) : Prop where
  done : w'.done = w.done ++ new
  seen : ∀ x, x ∈ w'.seen ↔ x ∈ w.seen ∨ x ∈ new
  nodup : new.Nodup
  fresh : ∀ x ∈ new, x ∉ w.seen
  holds : ∀ x ∈ new, P x

namespace Adds

variable {P Q : String → Prop} {new new' : List String}

theorem nothing : Adds P w w [] :=
  ⟨by simp, by simp, by simp, by simp, by simp⟩

theorem mono (h : Adds P w w' new) (imp : ∀ x, P x → Q x) : Adds Q w w' new :=
  ⟨h.done, h.seen, h.nodup, h.fresh, fun x hx => imp x (h.holds x hx)⟩

theorem append (h : Adds P w w₁ new) (h' : Adds P w₁ w' new') : Adds P w w' (new ++ new') where
  done := by rw [h'.done, h.done, List.append_assoc]
  seen x := by rw [h'.seen, h.seen, List.mem_append, or_assoc]
  nodup := List.nodup_append.2 ⟨h.nodup, h'.nodup, fun x hx y hy e =>
    h'.fresh y hy ((h.seen y).2 (.inr (e ▸ hx)))⟩
  fresh x hx hw := by
    rcases List.mem_append.1 hx with hx | hx
    · exact h.fresh x hx hw
    · exact h'.fresh x hx ((h.seen x).2 (.inl hw))
  holds x hx := (List.mem_append.1 hx).elim (h.holds x) (h'.holds x)

theorem seen_mono (h : Adds P w w' new) (hx : x ∈ w.seen) : x ∈ w'.seen :=
  (h.seen x).2 (.inl hx)

end Adds

/-- If single visits add what is reached, visits one after the other do. -/
theorem foldl_adds
    (single : ∀ id w, id ∉ w.seen → ∃ new, Adds (Reaches next id) w (visit next depth id w) new)
    (targets : List String) (w : DepthFirst) :
    ∃ new, Adds (fun x => ∃ t ∈ targets, Reaches next t x) w
      (targets.foldl (visitNew next depth) w) new := by
  induction targets generalizing w with
  | nil => exact ⟨[], .nothing⟩
  | cons t ts ih =>
    obtain ⟨new, hnew⟩ : ∃ new, Adds (Reaches next t) w (visitNew next depth w t) new := by
      unfold visitNew
      split
      · exact ⟨[], .nothing⟩
      next h => exact single t w (by simpa using h)
    obtain ⟨rest, hrest⟩ := ih (visitNew next depth w t)
    exact ⟨new ++ rest, (hnew.mono fun x hx => ⟨t, List.mem_cons_self, hx⟩).append
      (hrest.mono fun x ⟨u, hu, hx⟩ => ⟨u, List.mem_cons_of_mem t hu, hx⟩)⟩

variable (next depth) in
/-- The visit of something new adds what is reached from it, and that comes last. -/
theorem visit_adds (h : id ∉ w.seen) :
    ∃ new, Adds (Reaches next id) w (visit next depth id w) new ∧
      (0 < depth → ∃ before, new = before ++ [id] ∧
        ∀ x ∈ before, ∃ t ∈ next id, Reaches next t x) := by
  induction depth generalizing id w with
  | zero => exact ⟨[], .nothing, by simp⟩
  | succ depth ih =>
    obtain ⟨new, hnew⟩ := foldl_adds (fun id w h => (ih h).imp fun _ h => h.1) (next id)
      { w with seen := id :: w.seen }
    have self : id ∉ new := fun hx => hnew.fresh id hx List.mem_cons_self
    refine ⟨new ++ [id], ⟨?_, fun x => ?_, ?_, fun x hx => ?_, fun x hx => ?_⟩,
      fun _ => ⟨new, rfl, hnew.holds⟩⟩
    · rw [visit_succ]
      simp only [hnew.done, List.append_assoc]
    · rw [visit_succ]
      simp only [hnew.seen, List.mem_append, List.mem_cons, List.not_mem_nil, or_false]
      exact ⟨fun h => by tauto, fun h => by tauto⟩
    · rw [List.nodup_append]
      refine ⟨hnew.nodup, by simp, fun x hx y hy => ?_⟩
      rw [List.mem_singleton.1 hy]
      exact ne_of_mem_of_not_mem hx self
    · rcases List.mem_append.1 hx with hx | hx
      · exact fun hw => hnew.fresh x hx (List.mem_cons_of_mem id hw)
      · rwa [List.mem_singleton.1 hx]
    · rcases List.mem_append.1 hx with hx | hx
      · obtain ⟨t, ht, hx⟩ := hnew.holds x hx
        exact .head ht hx
      · rw [List.mem_singleton.1 hx]

variable (next depth) in
theorem fold_adds (targets : List String) (w : DepthFirst) :
    ∃ new, Adds (fun x => ∃ t ∈ targets, Reaches next t x) w
      (targets.foldl (visitNew next depth) w) new :=
  foldl_adds (fun _ _ h => (visit_adds next depth h).imp fun _ h => h.1) targets w

/-! ## What is missed -/

/-- How many of the identifiers `U` are not seen. -/
def unseen (U : List String) (w : DepthFirst) : Nat := (U.filter fun x => x ∉ w.seen).length

theorem unseen_mono {U : List String} (h : ∀ x ∈ w.seen, x ∈ w'.seen) :
    unseen U w' ≤ unseen U w := by
  refine List.Sublist.length_le (List.monotone_filter_right U fun x hx => ?_)
  simp only [decide_eq_true_eq] at hx ⊢
  exact fun hw => hx (h x hw)

theorem unseen_lt {U : List String} (hid : id ∈ U) (new : id ∉ w.seen) :
    unseen U { w with seen := id :: w.seen } < unseen U w := by
  have split : (U.filter fun x => x ∉ id :: w.seen) =
      (U.filter fun x => x ∉ w.seen).filter fun x => x ≠ id := by
    rw [List.filter_filter]
    exact List.filter_congr fun x _ => by simp
  unfold unseen
  rw [split]
  exact List.length_filter_lt_length_iff_exists.2
    ⟨id, List.mem_filter.2 ⟨hid, by simpa using new⟩, by simp⟩

/-- What has been added since `w` leads to nothing that is not seen. -/
def Closed (next : String → List String) (w w' : DepthFirst) : Prop :=
  ∀ x ∈ w'.seen, x ∈ w.seen ∨ ∀ y ∈ next x, y ∈ w'.seen

/-- If single visits see all that is reached, visits one after the other do. -/
theorem foldl_closed {U : List String}
    (single : ∀ id w, id ∈ U → id ∉ w.seen → unseen U w ≤ depth →
      id ∈ (visit next depth id w).seen ∧ Closed next w (visit next depth id w))
    {targets : List String} (inside : ∀ t ∈ targets, t ∈ U) (enough : unseen U w ≤ depth) :
    (∀ t ∈ targets, t ∈ (targets.foldl (visitNew next depth) w).seen) ∧
      Closed next w (targets.foldl (visitNew next depth) w) := by
  induction targets generalizing w with
  | nil => exact ⟨by simp, fun x hx => .inl hx⟩
  | cons t ts ih =>
    obtain ⟨ht, closed⟩ : t ∈ (visitNew next depth w t).seen ∧
        Closed next w (visitNew next depth w t) := by
      unfold visitNew
      split
      next h => exact ⟨by simpa using h, fun x hx => .inl hx⟩
      next h => exact single t w (inside t List.mem_cons_self) (by simpa using h) enough
    have grown : ∀ x ∈ w.seen, x ∈ (visitNew next depth w t).seen := by
      obtain ⟨_, h⟩ := fold_adds next depth [t] w
      exact fun x hx => h.seen_mono hx
    obtain ⟨_, later⟩ := fold_adds next depth ts (visitNew next depth w t)
    obtain ⟨all, rest⟩ := ih (fun u hu => inside u (List.mem_cons_of_mem t hu))
      (Nat.le_trans (unseen_mono grown) enough)
    refine ⟨fun u hu => ?_, fun x hx => ?_⟩
    · rcases List.mem_cons.1 hu with rfl | hu
      · exact later.seen_mono ht
      · exact all u hu
    · rcases rest x hx with h | h
      · exact (closed x h).imp_right fun h y hy => later.seen_mono (h y hy)
      · exact .inr h

/-- A visit that may go as deep as there are unseen identifiers sees all that is reached. -/
theorem visit_closed {U : List String} (inside : ∀ x ∈ U, ∀ y ∈ next x, y ∈ U) (hid : id ∈ U)
    (new : id ∉ w.seen) (enough : unseen U w ≤ depth) :
    id ∈ (visit next depth id w).seen ∧ Closed next w (visit next depth id w) := by
  induction depth generalizing id w with
  | zero =>
    have := unseen_lt hid new
    omega
  | succ depth ih =>
    have room : unseen U { w with seen := id :: w.seen } ≤ depth := by
      have := unseen_lt hid new
      omega
    obtain ⟨_, grown⟩ := fold_adds next depth (next id)
      { w with seen := id :: w.seen }
    obtain ⟨all, closed⟩ := foldl_closed (fun id w => ih) (inside id hid) room
    rw [visit_succ]
    refine ⟨grown.seen_mono List.mem_cons_self, fun x hx => ?_⟩
    rcases closed x hx with h | h
    · rcases List.mem_cons.1 h with rfl | h
      · exact .inr all
      · exact .inl h
    · exact .inr h

/-! ## Walks from roots -/

variable {roots : List String}

/-- Nothing is seen but what is reached from the roots. -/
theorem visitAll_sound (h : x ∈ (visitAll next depth roots).seen) :
    ∃ r ∈ roots, Reaches next r x := by
  obtain ⟨new, h'⟩ := fold_adds next depth roots {}
  rw [visitAll_eq, h'.seen] at h
  exact h'.holds x (h.resolve_left (by simp))

/-- All that is reached from the roots is seen. -/
theorem visitAll_complete {U : List String} (inside : ∀ x ∈ U, ∀ y ∈ next x, y ∈ U)
    (enough : U.length ≤ depth) {r : String} (hroots : ∀ r ∈ roots, r ∈ U) (hr : r ∈ roots)
    (h : Reaches next r x) : x ∈ (visitAll next depth roots).seen := by
  obtain ⟨all, closed⟩ := foldl_closed (w := {}) (fun id w => visit_closed inside) hroots
    (Nat.le_trans (List.length_filter_le _ U) enough)
  rw [visitAll_eq]
  clear hroots
  induction h with
  | refl => exact all r hr
  | tail _ hy ih => exact (closed _ ih).resolve_left (by simp) _ hy

theorem mem_postorder : x ∈ postorder next depth roots ↔ x ∈ (visitAll next depth roots).seen := by
  obtain ⟨new, h⟩ := fold_adds next depth roots {}
  rw [postorder, visitAll_eq, h.seen, h.done]
  simp

theorem postorder_nodup : (postorder next depth roots).Nodup := by
  obtain ⟨new, h⟩ := fold_adds next depth roots {}
  rw [postorder, visitAll_eq, h.done, List.nil_append]
  exact h.nodup

/-- The walk from one root lists it last, after what is reached from what it leads to. -/
theorem postorder_root (h : 0 < depth) : ∃ before, postorder next depth [id] = before ++ [id] ∧
    id ∉ before ∧ ∀ x ∈ before, ∃ t ∈ next id, Reaches next t x := by
  have start : id ∉ ({} : DepthFirst).seen := by simp
  obtain ⟨new, hnew, last⟩ := visit_adds next depth start
  obtain ⟨before, rfl, hb⟩ := last h
  have e : postorder next depth [id] = before ++ [id] := by
    rw [postorder, visitAll_eq]
    simpa [visitNew] using hnew.done
  refine ⟨before, e, fun hid => ?_, hb⟩
  exact (List.nodup_append.1 hnew.nodup).2.2 id hid id (by simp) rfl

/-! ## The order of what is done -/

/-- Each identifier of a list comes after all that it leads to. -/
def Sorted (next : String → List String) (ids : List String) : Prop :=
  ∀ before x after, ids = before ++ x :: after → ∀ y ∈ next x, y ∈ before

theorem Sorted.concat {ids : List String} (h : Sorted next ids) (below : ∀ y ∈ next id, y ∈ ids) :
    Sorted next (ids ++ [id]) := by
  intro before x after e y hy
  rcases List.append_eq_append_iff.1 e with ⟨rest, rfl, last⟩ | ⟨rest, rfl, last⟩
  · cases rest with
    | nil =>
      obtain ⟨rfl, -⟩ := List.cons.inj last
      exact List.mem_append_left _ (below y hy)
    | cons a rest =>
      have := congrArg List.length last
      simp at this
  · cases rest with
    | nil =>
      obtain ⟨rfl, -⟩ := List.cons.inj last
      simpa using below y hy
    | cons a rest =>
      obtain ⟨rfl, -⟩ := List.cons.inj last
      exact h _ _ rest rfl y hy

/-- All that an identifier of a sorted list reaches comes before it. -/
theorem Sorted.reaches {before after : List String} {y : String}
    (h : Sorted next (before ++ x :: after)) (path : Reaches next x y) (ne : y ≠ x) :
    y ∈ before := by
  have closed : ∀ z ∈ before, ∀ y ∈ next z, y ∈ before := fun z hz y hy => by
    obtain ⟨front, back, rfl⟩ := List.append_of_mem hz
    have := h front z (back ++ x :: after) (by simp) y hy
    exact List.mem_append_left _ this
  have inside : y = x ∨ y ∈ before := by
    clear ne
    induction path with
    | refl => exact .inl rfl
    | tail _ hy ih =>
      rcases ih with rfl | ih
      · exact .inr (h before _ after rfl _ hy)
      · exact .inr (closed _ ih _ hy)
  exact inside.resolve_left ne

/-- What has been reached but is not done is of a larger rank than `id`. -/
def Above (rank : String → Nat) (id : String) (w : DepthFirst) : Prop :=
  ∀ a ∈ w.seen, a ∉ w.done → rank id < rank a

theorem Adds.above {P : String → Prop} {rank : String → Nat} {new : List String}
    (h : Adds P w w' new) (above : Above rank id w) : Above rank id w' := fun a ha undone => by
  rw [h.done, List.mem_append, not_or] at undone
  exact above a (((h.seen a).1 ha).resolve_right undone.2) undone.1

section Ranks

variable {rank : String → Nat} {U : List String}
  (inside : ∀ x ∈ U, ∀ y ∈ next x, y ∈ U) (falling : ∀ x ∈ U, ∀ y ∈ next x, rank y < rank x)

include inside falling

/-- Where identifiers lead to smaller ranks alone, what is done is sorted. -/
theorem visit_sorted (hid : id ∈ U) (new : id ∉ w.seen) (enough : unseen U w ≤ depth)
    (above : Above rank id w) (sorted : Sorted next w.done) :
    id ∈ (visit next depth id w).done ∧ Sorted next (visit next depth id w).done := by
  induction depth generalizing id w with
  | zero =>
    have := unseen_lt hid new
    omega
  | succ depth ih =>
    have room : unseen U { w with seen := id :: w.seen } ≤ depth := by
      have := unseen_lt hid new
      omega
    -- what has been done of the targets so far: all of it, and in order
    suffices all : ∀ targets : List String, (∀ t ∈ targets, t ∈ next id) → ∀ w₁ : DepthFirst,
        unseen U w₁ ≤ depth → (∀ t ∈ next id, Above rank t w₁) → Sorted next w₁.done →
        (∀ t ∈ targets, t ∈ (targets.foldl (visitNew next depth) w₁).done) ∧
          Sorted next (targets.foldl (visitNew next depth) w₁).done by
      obtain ⟨done, sorted⟩ := all (next id) (fun _ h => h) { w with seen := id :: w.seen } room
        (fun t ht a ha undone => by
          have lt := falling id hid t ht
          rcases List.mem_cons.1 ha with rfl | ha
          · exact lt
          · exact Nat.lt_trans lt (above a ha undone)) sorted
      rw [visit_succ]
      exact ⟨List.mem_append_right _ (List.mem_singleton.2 rfl), sorted.concat done⟩
    intro targets
    induction targets with
    | nil => exact fun _ w₁ _ _ sorted => ⟨by simp, sorted⟩
    | cons t ts rest =>
      intro led w₁ room above sorted
      have ht := led t List.mem_cons_self
      obtain ⟨_, adds⟩ := fold_adds next depth [t] w₁
      obtain ⟨done, sorted⟩ : t ∈ (visitNew next depth w₁ t).done ∧
          Sorted next (visitNew next depth w₁ t).done := by
        unfold visitNew
        split
        next seen =>
          refine ⟨by_contra fun undone => ?_, sorted⟩
          exact Nat.lt_irrefl _ (above t ht t (by simpa using seen) undone)
        next fresh => exact ih (inside id hid t ht) (by simpa using fresh) room (above t ht) sorted
      obtain ⟨_, later⟩ := fold_adds next depth ts (visitNew next depth w₁ t)
      obtain ⟨done', sorted⟩ := rest (fun u hu => led u (List.mem_cons_of_mem t hu))
        (visitNew next depth w₁ t) (Nat.le_trans (unseen_mono fun x hx => adds.seen_mono hx) room)
        (fun u hu => adds.above (above u hu)) sorted
      refine ⟨fun u hu => ?_, sorted⟩
      rcases List.mem_cons.1 hu with rfl | hu
      · rw [List.foldl_cons, later.done]
        exact List.mem_append_left _ done
      · exact done' u hu

/-- The walk from one root lists each identifier after all that it leads to. -/
theorem postorder_sorted (hid : id ∈ U) (enough : U.length ≤ depth) :
    Sorted next (postorder next depth [id]) := by
  have start : visitAll next depth [id] = visit next depth id {} := by
    simp [visitAll_eq, visitNew]
  rw [postorder, start]
  exact (visit_sorted inside falling hid (by simp)
    (Nat.le_trans (List.length_filter_le _ U) enough) (fun _ h => by simp at h)
    (fun before x after e => by simp at e)).2

end Ranks

end DepthFirst

end Wiring.Walk
