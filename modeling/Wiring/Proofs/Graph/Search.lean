import Wiring.Graph.Components
import Wiring.Proofs.Table
import Wiring.Proofs.Walk.DepthFirst

/-!
# The search for components

The stack falls into segments, one for each identifier on the work stack: the identifier itself, and
above it what has been left since. All of a segment lead to each other, every edge of what has been
left is followed, and no edge known so far leads beneath the smallest index that is noted. When an
identifier is left and that is its own index, its segment is a component.
-/

namespace Wiring.EdgeMap

open Walk (Reaches)

/-! ## Components so far -/

/-- Of what is numbered all that it leads to is numbered, and those and only those that are mutually
reached have the same number. -/
structure Settled (edges : EdgeMap) (component : Table Nat) (count : Nat) : Prop where
  closed : ∀ x ∈ component.names, ∀ y ∈ edges.targets x, y ∈ component.names
  small : ∀ x n, component.get? x = some n → n < count
  same : ∀ x ∈ component.names, ∀ y, component.get? x = component.get? y ↔
    Reaches edges.targets x y ∧ Reaches edges.targets y x

namespace Settled

variable {edges : EdgeMap} {component component' : Table Nat} {count : Nat} {segment : List String}
  {x y : String}

theorem reaches (h : Settled edges component count) (hx : x ∈ component.names)
    (path : Reaches edges.targets x y) : y ∈ component.names := by
  induction path with
  | refl => exact hx
  | tail _ hy ih => exact h.closed _ ih _ hy

/-- One more component: those in it lead to each other, and to nothing else that is not numbered. -/
theorem extend (h : Settled edges component count) (new : ∀ x ∈ segment, x ∉ component.names)
    (round : ∀ x ∈ segment, ∀ y ∈ segment, Reaches edges.targets x y)
    (closed : ∀ x ∈ segment, ∀ y ∈ edges.targets x, y ∈ segment ∨ y ∈ component.names)
    (inside : ∀ x ∈ segment, component'.get? x = some count)
    (outside : ∀ x, x ∉ segment → component'.get? x = component.get? x) :
    Settled edges component' (count + 1) := by
  have names (x) : x ∈ component'.names ↔ x ∈ segment ∨ x ∈ component.names := by
    rw [← Table.get?_isSome, ← Table.get?_isSome]
    by_cases hx : x ∈ segment
    · simp [hx, inside x hx]
    · simp [hx, outside x hx]
  have stays {x y} (hx : x ∈ segment) (path : Reaches edges.targets x y) :
      y ∈ segment ∨ y ∈ component.names := by
    induction path with
    | refl => exact .inl hx
    | tail _ hy ih => exact ih.elim (fun ih => closed _ ih _ hy) fun ih => .inr (h.closed _ ih _ hy)
  refine ⟨fun x hx y hy => ?_, fun x n hn => ?_, fun x hx y => ?_⟩
  · rw [names] at hx ⊢
    exact hx.elim (fun hx => closed x hx y hy) fun hx => .inr (h.closed x hx y hy)
  · by_cases hx : x ∈ segment
    · rw [inside x hx] at hn
      exact Option.some.inj hn ▸ Nat.lt_succ_self _
    · exact Nat.lt_succ_of_lt (h.small x n (outside x hx ▸ hn))
  · by_cases hxs : x ∈ segment <;> by_cases hys : y ∈ segment
    · rw [inside x hxs, inside y hys]
      exact iff_of_true rfl ⟨round x hxs y hys, round y hys x hxs⟩
    · rw [inside x hxs, outside y hys]
      refine iff_of_false (fun same => ?_) fun ⟨there, back⟩ => ?_
      · exact Nat.lt_irrefl _ (h.small y count same.symm)
      · exact new x hxs (h.reaches ((stays hxs there).resolve_left hys) back)
    · have old := ((names x).1 hx).resolve_left hxs
      rw [outside x hxs, inside y hys]
      refine iff_of_false (fun same => ?_) fun ⟨there, _⟩ => ?_
      · exact Nat.lt_irrefl _ (h.small x count same)
      · exact new y hys (h.reaches old there)
    · rw [outside x hxs, outside y hys]
      exact h.same x (((names x).1 hx).resolve_left hxs) y

theorem nothing : Settled edges [] 0 :=
  ⟨fun _ hx => (List.not_mem_nil hx).elim, fun _ _ h => by simp [Table.get?] at h,
    fun _ hx => (List.not_mem_nil hx).elim⟩

end Settled

/-! ## Nodes -/

section Nodes

variable {edges : EdgeMap} {a b : String}

theorem targets_mem_nodes (h : b ∈ edges.targets a) : b ∈ edges.nodes := by
  unfold targets leaving at h
  obtain ⟨e, he, rfl⟩ := List.mem_map.1 h
  cases hg : Table.get? edges a with
  | none => simp [hg] at he
  | some es =>
    rw [hg] at he
    rw [nodes, List.mem_eraseDups, List.mem_flatMap]
    exact ⟨(a, es), Table.mem_of_get? hg, List.mem_cons_of_mem _ (List.mem_map_of_mem he)⟩

theorem names_mem_nodes (h : a ∈ Table.names edges) : a ∈ edges.nodes := by
  obtain ⟨es, hes⟩ := Table.exists_get? h
  rw [nodes, List.mem_eraseDups, List.mem_flatMap]
  exact ⟨(a, es), Table.mem_of_get? hes, List.mem_cons_self⟩

end Nodes

namespace Search

variable {edges : EdgeMap} {w w' : Search} {id x t : String} {n : Nat}

/-! ## Single operations -/

theorem indexOf_meet (ne : x ≠ id) : (w.meet id).indexOf x = w.indexOf x := by
  unfold indexOf meet
  rw [Table.get?_put, if_neg ne]

theorem indexOf_meet_self : (w.meet id).indexOf id = w.index.length := by
  unfold indexOf meet
  rw [Table.get?_put, if_pos rfl, Option.getD_some]

theorem lowOf_meet (ne : x ≠ id) : (w.meet id).lowOf x = w.lowOf x := by
  unfold lowOf meet
  rw [Table.get?_put, if_neg ne]

theorem lowOf_meet_self : (w.meet id).lowOf id = w.index.length := by
  unfold lowOf meet
  rw [Table.get?_put, if_pos rfl, Option.getD_some]

theorem length_meet (new : id ∉ w.index.names) :
    (w.meet id).index.length = w.index.length + 1 := by
  have names : (w.meet id).index.names = w.index.names ++ [id] := Table.names_put_of_not_mem new
  simpa [Table.names] using congrArg List.length names

theorem lowOf_lower (ne : x ≠ id) : (w.lower id n).lowOf x = w.lowOf x := by
  unfold lowOf lower
  rw [Table.get?_put, if_neg ne]

theorem lowOf_lower_self : (w.lower id n).lowOf id = min (w.lowOf id) n := by
  unfold lower
  rw [lowOf, Table.get?_put, if_pos rfl, Option.getD_some]

/-- Unstacking down to `id` numbers all above it, and `id`. -/
theorem unstack_spec {above : List String} (n : Nat) (below : List String) (component : Table Nat)
    (first : id ∉ above) :
    (unstack id n (above ++ id :: below) component).1 = below ∧
      ∀ x, (unstack id n (above ++ id :: below) component).2.get? x =
        if x ∈ above ++ [id] then some n else component.get? x := by
  induction above generalizing component with
  | nil =>
    rw [List.nil_append, List.nil_append, unstack, if_pos rfl]
    exact ⟨rfl, fun x => by rw [Table.get?_put]; simp⟩
  | cons a above ih =>
    rw [List.mem_cons, not_or] at first
    obtain ⟨rest, numbers⟩ := ih (component.put a n) first.2
    simp only [List.cons_append, unstack, if_neg (Ne.symm first.1)]
    refine ⟨rest, fun x => ?_⟩
    rw [numbers, Table.get?_put]
    by_cases hx : x ∈ above ++ [id] <;> simp [hx]

/-! ## The invariant -/

/-- The targets of the edges that have been followed from a segment. -/
def followedFrom (edges : EdgeMap) (id : String) (followed : Nat) (above : List String) :
    List String :=
  above.flatMap edges.targets ++ (edges.targets id).take followed

theorem mem_followedFrom_succ {followed : Nat} {above : List String} {u : String}
    (next : (edges.targets id)[followed]? = some t)
    (h : u ∈ followedFrom edges id (followed + 1) above) :
    u ∈ followedFrom edges id followed above ∨ u = t := by
  unfold followedFrom at h ⊢
  rw [List.take_add_one, next, Option.toList_some, ← List.append_assoc, List.mem_append] at h
  exact h.imp_right List.mem_singleton.1

/-- A segment of the stack: `id`, of whose edges so many have been followed, and what has been left
`above` it. What is `pending` is about to be met. -/
structure Segment (edges : EdgeMap) (w : Search) (pending : List String) (id : String)
    (followed : Nat) (above below : List String) : Prop where
  leads : ∀ x ∈ above, Reaches edges.targets id x
  back : ∀ x ∈ above, Reaches edges.targets x id
  low_le : w.lowOf id ≤ w.indexOf id
  earliest : ∃ x ∈ id :: below, w.indexOf x = w.lowOf id ∧ Reaches edges.targets id x
  known : ∀ t ∈ followedFrom edges id followed above, t ∈ w.index.names ∨ t ∈ pending
  lowest : ∀ t ∈ followedFrom edges id followed above, t ∈ w.stack → w.lowOf id ≤ w.indexOf t

/-- The stack falls into segments. The last edge that has been followed from each identifier on the
work stack leads to the next one. -/
inductive Stacked (edges : EdgeMap) (w : Search) (pending : List String) :
    (work : List (String × Nat)) → (stack : List String) → Prop
  | nil : Stacked edges w pending [] []
  | cons {id : String} {followed : Nat} {above below : List String} {work : List (String × Nat)} :
    Segment edges w pending id followed above below →
    (∀ parent ∈ work.head?, id ∈ (edges.targets parent.1).take parent.2) →
    Stacked edges w pending work below →
    Stacked edges w pending ((id, followed) :: work) (above ++ id :: below)

/-- What holds of a search whenever something is to be done for the top of the work stack. -/
structure Invariant (edges : EdgeMap) (w : Search) (pending : List String)
    (work : List (String × Nat)) : Prop where
  stacked : Stacked edges w pending work w.stack
  sorted : w.stack.Pairwise fun x y => w.indexOf y < w.indexOf x
  small : ∀ x ∈ w.index.names, w.indexOf x < w.index.length
  met : ∀ x, x ∈ w.index.names ↔ x ∈ w.stack ∨ x ∈ w.component.names
  apart : ∀ x ∈ w.stack, x ∉ w.component.names
  settled : Settled edges w.component w.count
  new : ∀ t ∈ pending, t ∉ w.index.names
  led : ∀ t ∈ pending, ∀ parent ∈ work.head?, t ∈ (edges.targets parent.1).take parent.2

section Stacks

variable {pending pending' stack above below : List String} {work : List (String × Nat)}
  {followed : Nat}

theorem Stacked.mem (h : Stacked edges w pending work stack) : ∀ f ∈ work, f.1 ∈ stack := by
  induction h with
  | nil => exact fun _ hf => nomatch hf
  | cons _ _ _ ih =>
    intro f hf
    rcases List.mem_cons.1 hf with rfl | hf
    · simp
    · exact List.mem_append_right _ (List.mem_cons_of_mem _ (ih f hf))

theorem Stacked.low_le (h : Stacked edges w pending work stack) :
    ∀ f ∈ work, w.lowOf f.1 ≤ w.indexOf f.1 := by
  induction h with
  | nil => exact fun _ hf => nomatch hf
  | cons segment _ _ ih =>
    intro f hf
    rcases List.mem_cons.1 hf with rfl | hf
    · exact segment.low_le
    · exact ih f hf

/-- All on the stack lead to the top of the work stack. -/
theorem Stacked.climbs (h : Stacked edges w pending work stack) :
    ∀ x ∈ stack, ∀ top ∈ work.head?, Reaches edges.targets x top.1 := by
  induction h with
  | nil => exact fun _ hx => nomatch hx
  | @cons id followed above below work segment edge rest ih =>
    intro x hx top htop
    obtain rfl := Option.some.inj htop
    rcases List.mem_append.1 hx with hx | hx
    · exact segment.back x hx
    rcases List.mem_cons.1 hx with rfl | hx
    · exact .refl
    · cases work with
      | nil =>
        cases rest
        cases hx
      | cons parent work =>
        exact (ih x hx parent rfl).tail (List.mem_of_mem_take (edge parent rfl))

/-- Segments stay as they are where nothing about them changes. -/
theorem Stacked.carry (h : Stacked edges w pending work stack)
    (low : ∀ f ∈ work, w'.lowOf f.1 = w.lowOf f.1)
    (index : ∀ x ∈ stack, w'.indexOf x = w.indexOf x)
    (known : ∀ t, t ∈ w.index.names ∨ t ∈ pending → t ∈ w'.index.names ∨ t ∈ pending')
    (kept : ∀ t ∈ w'.stack, (t ∈ w.stack ∧ w'.indexOf t = w.indexOf t) ∨
      ∀ f ∈ work, w.lowOf f.1 ≤ w'.indexOf t) :
    Stacked edges w' pending' work stack := by
  induction h with
  | nil => exact .nil
  | @cons id followed above below work segment edge rest ih =>
    have self := low (id, followed) List.mem_cons_self
    refine .cons ?_ edge (ih (fun f hf => low f (List.mem_cons_of_mem _ hf))
      (fun x hx => index x (List.mem_append_right _ (List.mem_cons_of_mem _ hx)))
      fun t ht => (kept t ht).imp_right fun h f hf => h f (List.mem_cons_of_mem _ hf))
    refine ⟨segment.leads, segment.back, ?_, ?_, fun t ht => known t (segment.known t ht), ?_⟩
    · rw [self, index id (by simp)]
      exact segment.low_le
    · obtain ⟨x, hx, same, path⟩ := segment.earliest
      exact ⟨x, hx, by rw [self, index x (List.mem_append_right _ hx), same], path⟩
    · intro t ht there
      rw [self]
      rcases kept t there with ⟨there, same⟩ | far
      · rw [same]
        exact segment.lowest t ht there
      · exact far (id, followed) List.mem_cons_self

namespace Invariant

/-- What is above on the stack has been met later. -/
theorem lt_of_above (h : Invariant edges w pending work) (split : w.stack = above ++ id :: below) :
    (∀ x ∈ above, w.indexOf id < w.indexOf x) ∧ ∀ x ∈ below, w.indexOf x < w.indexOf id := by
  have sorted := h.sorted
  rw [split, List.pairwise_append, List.pairwise_cons] at sorted
  exact ⟨fun x hx => sorted.2.2 x hx id List.mem_cons_self, sorted.2.1.1⟩

/-! ## Meeting -/

theorem meet (h : Invariant edges w [id] work) :
    Invariant edges (w.meet id) [] ((id, 0) :: work) := by
  have new : id ∉ w.index.names := h.new id List.mem_cons_self
  have old {x} (hx : x ∈ w.stack) : x ≠ id := fun e => new (e ▸ (h.met x).2 (.inl hx))
  have names (x) : x ∈ (w.meet id).index.names ↔ x ∈ w.index.names ∨ x = id := Table.mem_names_put
  have low_lt (f) (hf : f ∈ work) : w.lowOf f.1 ≤ w.index.length :=
    Nat.le_trans (h.stacked.low_le f hf)
      (Nat.le_of_lt (h.small _ ((h.met _).2 (.inl (h.stacked.mem f hf)))))
  refine ⟨?_, ?_, ?_, fun x => ?_, ?_, h.settled, by simp, by simp⟩
  · show Stacked edges _ _ _ ([] ++ id :: w.stack)
    refine .cons ⟨by simp, by simp, ?_, ?_, ?_, ?_⟩ (h.led id List.mem_cons_self) ?_
    · exact Nat.le_of_eq (lowOf_meet_self.trans indexOf_meet_self.symm)
    · exact ⟨id, List.mem_cons_self, by rw [lowOf_meet_self, indexOf_meet_self], .refl⟩
    · simp [followedFrom]
    · simp [followedFrom]
    · refine h.stacked.carry (fun f hf => lowOf_meet (old (h.stacked.mem f hf)))
        (fun x hx => indexOf_meet (old hx)) (fun t ht => .inl ((names t).2 ?_)) fun t ht => ?_
      · simpa using ht
      · rcases List.mem_cons.1 ht with rfl | ht
        · exact .inr fun f hf => by rw [indexOf_meet_self]; exact low_lt f hf
        · exact .inl ⟨ht, indexOf_meet (old ht)⟩
  · refine List.pairwise_cons.2 ⟨fun x hx => ?_, ?_⟩
    · rw [indexOf_meet_self, indexOf_meet (old hx)]
      exact h.small x ((h.met x).2 (.inl hx))
    · refine h.sorted.imp_of_mem fun hx hy lt => ?_
      rwa [indexOf_meet (old hx), indexOf_meet (old hy)]
  · intro x hx
    rw [length_meet new]
    by_cases e : x = id
    · rw [e, indexOf_meet_self]
      exact Nat.lt_succ_self _
    · rw [indexOf_meet e]
      exact Nat.lt_succ_of_lt (h.small x (((names x).1 hx).resolve_right e))
  · rw [names, h.met]
    show _ ↔ x ∈ id :: w.stack ∨ _
    rw [List.mem_cons]
    tauto
  · intro x hx
    rcases List.mem_cons.1 hx with rfl | hx
    · exact fun hc => new ((h.met x).2 (.inr hc))
    · exact h.apart x hx

/-! ## Following edges -/

/-- An edge to something on the stack is followed. -/
theorem lower (h : Invariant edges w [] ((id, followed) :: work))
    (next : (edges.targets id)[followed]? = some t) (there : t ∈ w.stack) :
    Invariant edges (w.lower id (w.indexOf t)) [] ((id, followed + 1) :: work) := by
  have stacked := h.stacked
  generalize e : w.stack = stack at stacked
  cases stacked with
  | @cons _ _ above below _ segment edge rest =>
  obtain ⟨later, earlier⟩ := h.lt_of_above e
  refine ⟨?_, h.sorted, h.small, h.met, h.apart, h.settled, by simp, by simp⟩
  show Stacked edges _ _ _ w.stack
  rw [e]
  have others (f) (hf : f ∈ work) : (w.lower id (w.indexOf t)).lowOf f.1 = w.lowOf f.1 :=
    lowOf_lower fun same => Nat.lt_irrefl _ (same ▸ earlier f.1 (rest.mem f hf))
  refine .cons ⟨segment.leads, segment.back, ?_, ?_, fun u hu => ?_, fun u hu onStack => ?_⟩ edge
    (rest.carry others (fun _ _ => rfl) (fun _ hu => hu) fun u hu => .inl ⟨hu, rfl⟩)
  · rw [lowOf_lower_self]
    exact Nat.le_trans (Nat.min_le_left _ _) segment.low_le
  · rw [lowOf_lower_self]
    rcases Nat.le_total (w.lowOf id) (w.indexOf t) with le | le
    · rw [Nat.min_eq_left le]
      exact segment.earliest
    · rw [Nat.min_eq_right le]
      refine ⟨t, ?_, rfl, .single (List.mem_of_getElem? next)⟩
      rw [e, List.mem_append] at there
      refine there.resolve_left fun above => ?_
      have := later t above
      have := segment.low_le
      omega
  · rcases mem_followedFrom_succ next hu with hu | rfl
    · exact segment.known u hu
    · exact .inl ((h.met u).2 (.inl there))
  · rw [lowOf_lower_self]
    rcases mem_followedFrom_succ next hu with hu | rfl
    · exact Nat.le_trans (Nat.min_le_left _ _) (segment.lowest u hu onStack)
    · exact Nat.min_le_right _ _

/-- An edge to something that is not on the stack is followed. -/
theorem pass (h : Invariant edges w [] ((id, followed) :: work))
    (next : (edges.targets id)[followed]? = some t) (off : t ∉ w.stack)
    (known : t ∈ w.index.names ∨ t ∈ pending) (new : ∀ u ∈ pending, u = t ∧ u ∉ w.index.names) :
    Invariant edges w pending ((id, followed + 1) :: work) := by
  have stacked := h.stacked
  generalize e : w.stack = stack at stacked
  cases stacked with
  | @cons _ _ above below _ segment edge rest =>
  refine ⟨?_, h.sorted, h.small, h.met, h.apart, h.settled, fun u hu => (new u hu).2, ?_⟩
  · rw [e]
    refine .cons ⟨segment.leads, segment.back, segment.low_le, segment.earliest, fun u hu => ?_,
      fun u hu onStack => ?_⟩ edge (rest.carry (fun _ _ => rfl) (fun _ _ => rfl)
        (fun u hu => .inl (by simpa using hu)) fun u hu => .inl ⟨hu, rfl⟩)
    · rcases mem_followedFrom_succ next hu with hu | rfl
      · exact .inl (by simpa using segment.known u hu)
      · exact known
    · rcases mem_followedFrom_succ next hu with hu | rfl
      · exact segment.lowest u hu onStack
      · exact absurd onStack off
  · intro u hu top htop
    obtain rfl := Option.some.inj htop
    obtain ⟨rfl, -⟩ := new u hu
    rw [List.take_add_one, next]
    simp

/-- Edges are followed up to one that leads to something new. -/
theorem follow (h : Invariant edges w [] ((id, followed) :: work)) :
    ∃ w' target?, follow id followed ((edges.targets id).drop followed) w = (w', target?) ∧
      w'.index = w.index ∧ match target? with
        | none => ∃ n, (edges.targets id).take n = edges.targets id ∧
          Invariant edges w' [] ((id, n) :: work)
        | some (t, followed') => Invariant edges w' [t] ((id, followed') :: work) := by
  generalize rest_eq : (edges.targets id).drop followed = targets
  induction targets generalizing w followed with
  | nil =>
    exact ⟨w, none, rfl, rfl, followed, List.take_of_length_le (List.drop_eq_nil_iff.1 rest_eq), h⟩
  | cons t targets ih =>
    have next : (edges.targets id)[followed]? = some t := by
      rw [← List.head?_drop, rest_eq, List.head?_cons]
    have rest_eq : (edges.targets id).drop (followed + 1) = targets := by
      rw [← List.tail_drop, rest_eq, List.tail_cons]
    rw [Search.follow]
    by_cases known : w.index.has t = true
    · rw [if_pos known]
      have known := Table.has_iff.1 known
      by_cases there : t ∈ w.stack
      · rw [if_pos (List.contains_iff_mem.2 there)]
        exact ih (h.lower next there) rest_eq
      · rw [if_neg (by simpa using there)]
        exact ih (h.pass next there (.inl known) (by simp)) rest_eq
    · rw [if_neg known]
      have new : t ∉ w.index.names := fun hn => known (Table.has_iff.2 hn)
      refine ⟨w, some (t, followed + 1), rfl, rfl, h.pass next ?_ (.inr List.mem_cons_self) ?_⟩
      · exact fun there => new ((h.met t).2 (.inl there))
      · intro u hu
        obtain rfl := List.mem_singleton.1 hu
        exact ⟨rfl, new⟩

/-! ## Leaving -/

section Leaving

variable (h : Invariant edges w [] ((id, followed) :: work))
  (all : (edges.targets id).take followed = edges.targets id)

include h all

/-- If `id` leads to nothing earlier on the stack, its segment is a component. -/
theorem close (own : w.lowOf id = w.indexOf id) : Invariant edges (w.close id) [] work := by
  have stacked := h.stacked
  generalize e : w.stack = stack at stacked
  cases stacked with
  | @cons _ _ above below _ segment edge rest =>
  obtain ⟨later, earlier⟩ := h.lt_of_above e
  have first : id ∉ above := fun hid => Nat.lt_irrefl _ (later id hid)
  obtain ⟨beneath, numbers⟩ := unstack_spec w.count below w.component first
  have stack : (w.close id).stack = below := by
    show (unstack id w.count w.stack w.component).1 = below
    rw [e, beneath]
  have component : (w.close id).component = (unstack id w.count w.stack w.component).2 := rfl
  rw [e] at component
  have split (x) : x ∈ w.stack ↔ x ∈ above ++ [id] ∨ x ∈ below := by
    rw [e]
    simp [or_assoc]
  have round : ∀ x ∈ above ++ [id], Reaches edges.targets id x ∧ Reaches edges.targets x id := by
    intro x hx
    rcases List.mem_append.1 hx with hx | hx
    · exact ⟨segment.leads x hx, segment.back x hx⟩
    · rw [List.mem_singleton.1 hx]
      exact ⟨.refl, .refl⟩
  have settled : Settled edges (w.close id).component (w.count + 1) := by
    refine Settled.extend h.settled (fun x hx => h.apart x ((split x).2 (.inl hx)))
      (fun x hx y hy => (round x hx).2.trans (round y hy).1) (fun x hx t ht => ?_)
      (fun x hx => ?_) fun x hx => ?_
    · have followed : t ∈ followedFrom edges id followed above := by
        rw [followedFrom, all, List.mem_append, List.mem_flatMap]
        rcases List.mem_append.1 hx with hx | hx
        · exact .inl ⟨x, hx, ht⟩
        · exact .inr (List.mem_singleton.1 hx ▸ ht)
      rcases (h.met t).1 (by simpa using segment.known t followed) with there | done
      · -- nothing known leads beneath `id`
        refine .inl (((split t).1 there).resolve_right fun low => ?_)
        have := segment.lowest t followed there
        have := earlier t low
        omega
      · exact .inr done
    · rw [component, numbers, if_pos hx]
    · rw [component, numbers, if_neg hx]
  have names (x) : x ∈ (w.close id).component.names ↔
      x ∈ above ++ [id] ∨ x ∈ w.component.names := by
    rw [← Table.get?_isSome, ← Table.get?_isSome, component, numbers]
    by_cases hx : x ∈ above ++ [id] <;> simp [hx]
  refine ⟨?_, ?_, h.small, fun x => ?_, fun x hx => ?_, settled, by simp, by simp⟩
  · rw [stack]
    refine rest.carry (fun _ _ => rfl) (fun _ _ => rfl) (fun _ ht => ht) fun t ht => .inl ⟨?_, rfl⟩
    exact (split t).2 (.inr (stack ▸ ht))
  · rw [stack]
    refine h.sorted.sublist ?_
    rw [e]
    exact (List.sublist_cons_self _ _).trans (List.sublist_append_right _ _)
  · show x ∈ w.index.names ↔ _
    rw [h.met, split, stack, names]
    tauto
  · rw [stack] at hx
    rw [names, not_or]
    refine ⟨fun hs => ?_, h.apart x ((split x).2 (.inr hx))⟩
    have := earlier x hx
    rcases List.mem_append.1 hs with hs | hs
    · have := later x hs
      omega
    · rw [List.mem_singleton.1 hs] at this
      exact Nat.lt_irrefl _ this

/-- If `id` leads to something earlier on the stack, its segment goes to the next one. -/
theorem join (other : w.lowOf id ≠ w.indexOf id) : ∃ parent k rest, work = (parent, k) :: rest ∧
    Invariant edges (w.lower parent (w.lowOf id)) [] work := by
  have stacked := h.stacked
  generalize e : w.stack = stack at stacked
  cases stacked with
  | @cons _ _ above below _ segment edge rest =>
  obtain ⟨later, earlier⟩ := h.lt_of_above e
  obtain ⟨x₀, hx₀, index₀, path₀⟩ := segment.earliest
  have lt : w.lowOf id < w.indexOf id := Nat.lt_of_le_of_ne segment.low_le other
  have hx₀ : x₀ ∈ below := (List.mem_cons.1 hx₀).resolve_left fun same => by
    rw [same] at index₀
    omega
  have climbs := rest.climbs x₀ hx₀
  cases rest with
  | nil => cases hx₀
  | @cons parent k aboveParent belowParent work segment' edge' rest =>
  refine ⟨parent, k, work, rfl, ?_⟩
  have split : w.stack = (above ++ id :: aboveParent) ++ parent :: belowParent := by
    rw [e, List.append_assoc, List.cons_append]
  obtain ⟨later', earlier'⟩ := h.lt_of_above split
  have there : Reaches edges.targets parent id := .single (List.mem_of_mem_take (edge _ rfl))
  have back : Reaches edges.targets id parent := path₀.trans (climbs _ rfl)
  have others (f) (hf : f ∈ work) :
      (w.lower parent (w.lowOf id)).lowOf f.1 = w.lowOf f.1 :=
    lowOf_lower fun same => Nat.lt_irrefl _ (same ▸ earlier' f.1 (rest.mem f hf))
  have followed_either {t} (ht : t ∈ followedFrom edges parent k (above ++ id :: aboveParent)) :
      t ∈ followedFrom edges id followed above ∨ t ∈ followedFrom edges parent k aboveParent := by
    unfold followedFrom at ht ⊢
    rw [all]
    simp only [List.flatMap_append, List.flatMap_cons, List.mem_append] at ht ⊢
    tauto
  refine ⟨?_, h.sorted, h.small, h.met, h.apart, h.settled, by simp, by simp⟩
  show Stacked edges _ _ _ w.stack
  rw [split]
  refine .cons ⟨fun x hx => ?_, fun x hx => ?_, ?_, ?_, fun t ht => ?_, fun t ht onStack => ?_⟩
    edge' (rest.carry others (fun _ _ => rfl) (fun _ ht => ht) fun t ht => .inl ⟨ht, rfl⟩)
  · rcases List.mem_append.1 hx with hx | hx
    · exact there.trans (segment.leads x hx)
    rcases List.mem_cons.1 hx with rfl | hx
    · exact there
    · exact segment'.leads x hx
  · rcases List.mem_append.1 hx with hx | hx
    · exact (segment.back x hx).trans back
    rcases List.mem_cons.1 hx with rfl | hx
    · exact back
    · exact segment'.back x hx
  · rw [lowOf_lower_self]
    exact Nat.le_trans (Nat.min_le_left _ _) segment'.low_le
  · rw [lowOf_lower_self]
    rcases Nat.le_total (w.lowOf parent) (w.lowOf id) with le | le
    · rw [Nat.min_eq_left le]
      exact segment'.earliest
    · rw [Nat.min_eq_right le]
      refine ⟨x₀, (List.mem_append.1 hx₀).resolve_left fun above₀ => ?_, index₀, there.trans path₀⟩
      have := later' x₀ (List.mem_append_right _ (List.mem_cons_of_mem _ above₀))
      have := segment'.low_le
      omega
  · exact (followed_either ht).elim (segment.known t) (segment'.known t)
  · rw [lowOf_lower_self]
    rcases followed_either ht with ht | ht
    · exact Nat.le_trans (Nat.min_le_right _ _) (segment.lowest t ht onStack)
    · exact Nat.le_trans (Nat.min_le_left _ _) (segment'.lowest t ht onStack)

end Leaving

/-- To note that something leads to where it is known not to lead beneath changes nothing. -/
theorem lower_of_le (h : Invariant edges w [] work) (le : w.lowOf id ≤ n) :
    Invariant edges (w.lower id n) [] work := by
  have low (x) : (w.lower id n).lowOf x = w.lowOf x := by
    by_cases e : x = id
    · rw [e, lowOf_lower_self, Nat.min_eq_left le]
    · exact lowOf_lower e
  refine ⟨?_, h.sorted, h.small, h.met, h.apart, h.settled, h.new, h.led⟩
  exact h.stacked.carry (fun f _ => low f.1) (fun _ _ => rfl) (fun _ ht => ht)
    fun t ht => .inl ⟨ht, rfl⟩

/-- When all edges of `id` have been followed, the search goes on with what is beneath. -/
theorem leave (h : Invariant edges w [] ((id, followed) :: work))
    (all : (edges.targets id).take followed = edges.targets id) :
    (work = [] → Invariant edges (w.leave id) [] []) ∧ ∀ top ∈ work.head?,
      Invariant edges ((w.leave id).lower top.1 ((w.leave id).lowOf id)) [] work := by
  unfold Search.leave
  split
  next own =>
    have closed := h.close all own
    refine ⟨fun empty => empty ▸ closed, fun top htop => closed.lower_of_le ?_⟩
    -- its own index is beyond what is noted for the next one
    show w.lowOf top.1 ≤ w.lowOf id
    have stacked := h.stacked
    generalize e : w.stack = stack at stacked
    cases stacked with
    | cons _ _ rest =>
      have member := List.mem_of_head? htop
      have := (h.lt_of_above e).2 top.1 (rest.mem top member)
      have := rest.low_le top member
      omega
  next other =>
    obtain ⟨parent, k, rest, rfl, joined⟩ := h.join all other
    refine ⟨fun empty => (List.cons_ne_nil _ _ empty).elim, fun top htop => ?_⟩
    obtain rfl := Option.some.inj htop
    exact joined

/-- Something has been followed from what is beneath on the work stack. -/
theorem begun (h : Invariant edges w pending ((id, followed) :: work)) :
    ∀ top ∈ work.head?, top.2 ≠ 0 := by
  intro top htop none
  have stacked := h.stacked
  generalize w.stack = stack at stacked
  cases stacked with
  | cons _ edge _ =>
    have := edge top htop
    simp [none] at this

end Invariant

/-! ## Rounds -/

/-- How many identifiers are neither met nor pending. -/
def unmet (edges : EdgeMap) (w : Search) (pending : List String) : Nat :=
  (edges.nodes.filter fun x => x ∉ w.index.names ∧ x ∉ pending).length

theorem unmet_lt (ht : t ∈ edges.nodes) (new : t ∉ w.index.names) :
    unmet edges w [t] < unmet edges w [] := by
  have split : (edges.nodes.filter fun x => x ∉ w.index.names ∧ x ∉ [t]) =
      (edges.nodes.filter fun x => x ∉ w.index.names ∧ x ∉ []).filter fun x => x ≠ t := by
    rw [List.filter_filter]
    exact List.filter_congr fun x _ => by simp [Bool.and_comm]
  unfold unmet
  rw [split]
  exact List.length_filter_lt_length_iff_exists.2
    ⟨t, List.mem_filter.2 ⟨ht, by simpa using new⟩, by simp⟩

theorem unmet_meet : unmet edges (w.meet id) [] = unmet edges w [id] := by
  have names (x) : x ∈ (w.meet id).index.names ↔ x ∈ w.index.names ∨ x = id := Table.mem_names_put
  unfold unmet
  congr 1
  exact List.filter_congr fun x _ => by simp [names]

/-- A search that is at the end of its work after so many rounds. -/
inductive Ready (edges : EdgeMap) (w : Search) : (work : List (String × Nat)) → Nat → Prop
  | meet {id : String} {work : List (String × Nat)} {n : Nat} : Invariant edges w [id] work →
    2 * unmet edges w [id] + work.length + 1 ≤ n → Ready edges w ((id, 0) :: work) n
  | resume {work : List (String × Nat)} {n : Nat} : Invariant edges w [] work →
    (∀ top ∈ work.head?, top.2 ≠ 0) → 2 * unmet edges w [] + work.length ≤ n →
    Ready edges w work n

theorem Ready.round (h : Ready edges w ((id, followed) :: work) (n + 1)) :
    Ready edges (w.round edges id followed work).2 (w.round edges id followed work).1 n := by
  obtain ⟨start, room⟩ : Invariant edges (if followed = 0 then w.meet id else w) []
        ((id, followed) :: work) ∧
      2 * unmet edges (if followed = 0 then w.meet id else w) [] + work.length ≤ n := by
    cases h with
    | meet h room =>
      rw [if_pos rfl, unmet_meet]
      exact ⟨h.meet, by omega⟩
    | resume h begun room =>
      rw [if_neg (begun _ rfl)]
      rw [List.length_cons] at room
      exact ⟨h, by omega⟩
  unfold Search.round
  generalize (if followed = 0 then w.meet id else w) = w at start room
  obtain ⟨w', target?, run, index, next⟩ := start.follow
  have same (pending) : unmet edges w' pending = unmet edges w pending := by
    rw [unmet, unmet, index]
  rw [run]
  cases target? with
  | none =>
    obtain ⟨k, all, next⟩ := next
    obtain ⟨last, more⟩ := next.leave all
    have index' : (w'.leave id).index = w'.index := by
      unfold Search.leave
      split <;> rfl
    have count (v : Search) (h : v.index = w'.index) : unmet edges v [] = unmet edges w [] := by
      rw [← same, unmet, unmet, h]
    cases work with
    | nil =>
      refine .resume (last rfl) (by simp) ?_
      show 2 * unmet edges (w'.leave id) [] + 0 ≤ n
      rw [count _ index']
      exact room
    | cons top work =>
      refine .resume (more top rfl) next.begun ?_
      show 2 * unmet edges ((w'.leave id).lower top.1 _) [] + (top :: work).length ≤ n
      rw [count ((w'.leave id).lower top.1 _) index']
      exact room
  | some target =>
    have new := next.new target.1 List.mem_cons_self
    have node : target.1 ∈ edges.nodes :=
      targets_mem_nodes (List.mem_of_mem_take (next.led target.1 List.mem_cons_self _ rfl))
    have := unmet_lt node new
    rw [same, same] at this
    refine .meet next ?_
    dsimp only
    rw [same, List.length_cons]
    omega

theorem Ready.run (h : Ready edges w work n) : Invariant edges (w.run edges n work) [] [] := by
  induction n generalizing w work with
  | zero =>
    cases h with
    | meet _ room => omega
    | resume h _ room =>
      obtain rfl : work = [] := List.eq_nil_of_length_eq_zero (by omega)
      exact h
  | succ n ih =>
    cases work with
    | nil =>
      cases h with
      | resume h => exact h
    | cons top work =>
      exact ih h.round

/-! ## What has been met stays so -/

theorem follow_index (id : String) (followed : Nat) (targets : List String) (w : Search) :
    (Search.follow id followed targets w).1.index = w.index := by
  induction targets generalizing followed w with
  | nil => rfl
  | cons t targets ih =>
    unfold Search.follow
    split
    · rw [ih]
      split <;> rfl
    · rfl

theorem round_index : (w.round edges id followed work).2.index =
    (if followed = 0 then w.meet id else w).index := by
  unfold Search.round
  rw [← follow_index id followed ((edges.targets id).drop followed) (if followed = 0 then _ else _)]
  generalize Search.follow _ _ _ _ = result
  obtain ⟨w', _ | target⟩ := result
  · have index : (w'.leave id).index = w'.index := by
      unfold Search.leave
      split <;> rfl
    cases work with
    | nil => exact index
    | cons => exact index
  · rfl

theorem names_round (hx : x ∈ w.index.names) :
    x ∈ (w.round edges id followed work).2.index.names := by
  rw [round_index]
  split
  · exact Table.mem_names_put.2 (.inl hx)
  · exact hx

theorem names_run (hx : x ∈ w.index.names) : x ∈ (w.run edges n work).index.names := by
  induction n generalizing w work with
  | zero => exact hx
  | succ n ih =>
    cases work with
    | nil => exact hx
    | cons top work => exact ih (names_round hx)

end Stacks

/-! ## Searches from roots -/

/-- Nothing has been met. -/
theorem Invariant.start : Invariant edges {} [] [] :=
  ⟨.nil, .nil, by simp [Table.names], by simp [Table.names], by simp, .nothing, by simp, by simp⟩

/-- A search from something new has rounds enough. -/
theorem Invariant.ready (h : Invariant edges w [] []) (known : id ∈ edges.nodes)
    (new : id ∉ w.index.names) : Ready edges w [(id, 0)] (2 * edges.nodes.length) := by
  have few : unmet edges w [id] < unmet edges w [] := unmet_lt known new
  have all : unmet edges w [] ≤ edges.nodes.length := List.length_filter_le _ _
  refine .meet ⟨?_, h.sorted, h.small, h.met, h.apart, h.settled, by simpa using new, by simp⟩ ?_
  · exact h.stacked.carry (fun _ _ => rfl) (fun _ _ => rfl) (fun _ ht => .inl (by simpa using ht))
      fun t ht => .inl ⟨ht, rfl⟩
  · simp
    omega

/-- After a search from a root, the root and all that had been met before has been met, and all of it
is in components. -/
theorem visit_spec (h : Invariant edges w [] []) (known : id ∈ edges.nodes) :
    Invariant edges (w.visit edges id) [] [] ∧ id ∈ (w.visit edges id).index.names ∧
      ∀ x ∈ w.index.names, x ∈ (w.visit edges id).index.names := by
  unfold Search.visit
  split
  next met => exact ⟨h, Table.has_iff.1 met, fun _ hx => hx⟩
  next new =>
    have new : id ∉ w.index.names := fun hid => new (Table.has_iff.2 hid)
    refine ⟨(h.ready known new).run, ?_, fun x hx => names_run hx⟩
    have some := List.length_pos_of_mem known
    obtain ⟨n, enough⟩ : ∃ n, 2 * edges.nodes.length = n + 1 := ⟨2 * edges.nodes.length - 1, by omega⟩
    rw [enough]
    have met : id ∈ (w.round edges id 0 []).2.index.names := by
      rw [round_index, if_pos rfl]
      exact Table.mem_names_put.2 (.inr rfl)
    exact names_run met (n := n)

theorem visitAll_spec {roots : List String} (h : Invariant edges w [] [])
    (known : ∀ r ∈ roots, r ∈ edges.nodes) :
    Invariant edges (roots.foldl (visit edges) w) [] [] ∧
      (∀ r ∈ roots, r ∈ (roots.foldl (visit edges) w).index.names) ∧
      ∀ x ∈ w.index.names, x ∈ (roots.foldl (visit edges) w).index.names := by
  induction roots generalizing w with
  | nil => exact ⟨h, by simp, fun _ hx => hx⟩
  | cons root roots ih =>
    rw [List.forall_mem_cons] at known
    obtain ⟨h, there, kept⟩ := visit_spec h known.1
    obtain ⟨h, all, kept'⟩ := ih h known.2
    exact ⟨h, List.forall_mem_cons.2 ⟨kept' root there, all⟩, fun x hx => kept' x (kept x hx)⟩

/-- At the end, all that has been met is in components. -/
theorem Invariant.component (h : Invariant edges w [] []) (hx : x ∈ w.index.names) :
    x ∈ w.component.names := by
  have stacked := h.stacked
  generalize e : w.stack = stack at stacked
  cases stacked
  exact ((h.met x).1 hx).resolve_left fun there => by rw [e] at there; cases there

end Search

end Wiring.EdgeMap
