import Wiring.Autowire.Wish
import Wiring.Proofs.Value.Same

/-!
# Nullable wishes

An annotation is made nullable by uniting it with the null type. What it asks for is then read from
the members beside null: a single one is asked for without its marks, and several are asked for
together with null, as a union. So the annotation asks for what it asked for before, unless it was a
union without null, or marks around a single member beside null.
-/

namespace Wiring

namespace Hint

variable {h k x y : Hint} {hs ms : List Hint} {form : UnionForm}

/-! ## Unions -/

theorem same_null (h : Hint) : null.same h = h.isNull := by
  cases h with
  | type t => exact BEq.comm
  | _ => rfl

theorem distinct_concat : distinct (hs ++ [h]) =
    if (distinct hs).any (same h) then distinct hs else distinct hs ++ [h] := by
  unfold distinct
  rw [List.foldl_append]
  rfl

theorem mem_distinct (hh : h ∈ distinct hs) : h ∈ hs := mem_of_mem_keepNew hh

/-- No two members are equal. -/
def Apart (hs : List Hint) : Prop := hs.Pairwise fun h k => k.same h = false

theorem apart_concat : Apart (hs ++ [h]) ↔ Apart hs ∧ hs.any (same h) = false := by
  rw [Apart, List.pairwise_append, List.any_eq_false]
  simp only [List.pairwise_singleton, List.mem_singleton, forall_eq, true_and, Bool.not_eq_true,
    Apart]

theorem apart_distinct (hs : List Hint) : Apart (distinct hs) := by
  induction hs using List.reverseRecOn with
  | nil => exact .nil
  | append_singleton hs h ih =>
    rw [distinct_concat]
    split
    next => exact ih
    next new => exact apart_concat.2 ⟨ih, Bool.not_eq_true _ ▸ new⟩

theorem distinct_of_apart (apart : Apart hs) : distinct hs = hs := by
  induction hs using List.reverseRecOn with
  | nil => rfl
  | append_singleton hs h ih =>
    obtain ⟨apart, new⟩ := apart_concat.1 apart
    rw [distinct_concat, ih apart, new]
    rfl

theorem distinct_ne_nil (nonempty : hs ≠ []) : distinct hs ≠ [] := by
  induction hs using List.reverseRecOn with
  | nil => exact nonempty
  | append_singleton hs h _ =>
    rw [distinct_concat]
    split
    next known =>
      intro none
      rw [none] at known
      cases known
    next => exact List.append_ne_nil_of_right_ne_nil _ (List.cons_ne_nil h [])

/-- A union is flat, has several members, and no two of them are equal. -/
def Normal : Hint → Prop
  | .union _ ms => 2 ≤ ms.length ∧ (∀ m ∈ ms, m.members = [m]) ∧ Apart ms
  | _ => True

/-- The hints that are made of types, by marks and in unions. -/
inductive Built : Hint → Prop
  | type (t : TypeRef) : Built (.type t)
  | mark {h : Hint} (marks : List Mark) : Built h → Built (h.mark marks)
  | unite (form : UnionForm) {hs : List Hint} : hs ≠ [] → (∀ h ∈ hs, Built h) →
      Built (unite form hs)

theorem normal_of_members (single : h.members = [h]) : h.Normal := by
  cases h with
  | union form ms =>
    -- no hint is a member of itself
    have inside : Hint.union form ms ∈ ms := List.mem_of_mem_head? (congrArg List.head? single)
    have smaller := List.sizeOf_lt_of_mem inside
    simp only [union.sizeOf_spec] at smaller
    omega
  | _ => trivial

theorem Normal.flat (normal : h.Normal) : ∀ m ∈ h.members, m.members = [m] := by
  cases h with
  | union _ _ => exact normal.2.1
  | _ => exact List.forall_mem_singleton.2 rfl

theorem Normal.apart (normal : h.Normal) : Apart h.members := by
  cases h with
  | union _ _ => exact normal.2.2
  | _ => exact List.pairwise_singleton _ _

theorem Normal.members_ne_nil (normal : h.Normal) : h.members ≠ [] := by
  cases h with
  | union _ ms =>
    rintro rfl
    exact absurd normal.1 (by decide)
  | _ => exact List.cons_ne_nil _ _

theorem normal_unite (form : UnionForm) (nonempty : hs ≠ []) (normal : ∀ h ∈ hs, h.Normal) :
    (unite form hs).Normal := by
  have flat : ∀ m ∈ distinct (hs.flatMap members), m.members = [m] := by
    intro m hm
    obtain ⟨h, hh, hm⟩ := List.mem_flatMap.1 (mem_distinct hm)
    exact (normal h hh).flat m hm
  have some : distinct (hs.flatMap members) ≠ [] := by
    refine distinct_ne_nil fun none => ?_
    obtain ⟨h, hh⟩ := List.exists_mem_of_ne_nil hs nonempty
    exact (normal h hh).members_ne_nil (List.flatMap_eq_nil_iff.1 none h hh)
  have apart := apart_distinct (hs.flatMap members)
  unfold unite
  split
  next m single =>
    rw [single] at flat
    exact normal_of_members (flat m (List.mem_singleton_self m))
  next several =>
    refine ⟨?_, flat, apart⟩
    match hd : distinct (hs.flatMap members) with
    | [] => exact absurd hd some
    | [m] => exact absurd hd (several m)
    | _ :: _ :: _ => exact Nat.le_add_left 2 _

theorem Built.normal (built : h.Built) : h.Normal := by
  induction built with
  | type t => trivial
  | @mark h marks _ _ => cases h <;> trivial
  | unite form nonempty _ ih => exact normal_unite form nonempty ih

/-! ## The null type -/

/-- Members with the null type, which comes last where it is new. -/
def withNull (ms : List Hint) : List Hint := if ms.any isNull then ms else ms ++ [null]

/-- The members other than the null type. -/
def besideNull (ms : List Hint) : List Hint := ms.filter fun m => !m.isNull

theorem eq_null (isNull : h.isNull = true) : h = null := by
  cases h with
  | type t => rw [eq_of_beq isNull, null]
  | _ => cases isNull

theorem null_mem_withNull (ms : List Hint) : null ∈ withNull ms := by
  unfold withNull
  split
  next known =>
    obtain ⟨m, hm, isNull⟩ := List.any_eq_true.1 known
    exact eq_null isNull ▸ hm
  next => exact List.mem_append_right _ (List.mem_singleton_self _)

theorem besideNull_withNull (ms : List Hint) : besideNull (withNull ms) = besideNull ms := by
  unfold withNull besideNull
  split
  next => rfl
  next => rw [List.filter_append]; exact List.append_nil _

theorem two_le_withNull (normal : x.Normal) (some : x.isNull = false) :
    2 ≤ (withNull x.members).length := by
  cases x with
  | union _ ms =>
    have more : ms.length ≤ (withNull ms).length := by
      unfold withNull
      split
      next => exact Nat.le_refl _
      next => rw [List.length_append]; exact Nat.le_add_right _ _
    exact Nat.le_trans normal.1 more
  | _ => simp [withNull, members, some]

/-- What is united with the null type is a union of its members and null. -/
theorem unite_null (form : UnionForm) (normal : x.Normal) (some : x.isNull = false) :
    unite form [x, null] = .union form (withNull x.members) := by
  have joined : distinct ([x, null].flatMap members) = withNull x.members := by
    have all : [x, null].flatMap members = x.members ++ [null] := by simp [null, members]
    rw [all, distinct_concat, distinct_of_apart normal.apart, withNull, funext same_null]
  have several := two_le_withNull normal some
  rw [unite, joined]
  split
  next m single =>
    rw [single] at several
    exact absurd several (Nat.not_succ_le_self 1)
  next => rfl

/-! ## Depth -/

mutual

/-- How deep marks and unions are inside each other. -/
def depth : Hint → Nat
  | .union _ ms => deepest ms + 1
  | .marked h _ => depth h + 1
  | .type _ | .late _ => 0

/-- The depth of the deepest hint. -/
def deepest : List Hint → Nat
  | [] => 0
  | m :: ms => max (depth m) (deepest ms)

end

theorem depth_le_deepest (hh : h ∈ hs) : h.depth ≤ deepest hs := by
  induction hs with
  | nil => cases hh
  | cons k hs ih =>
    rw [deepest]
    rcases List.mem_cons.1 hh with rfl | hh
    · exact Nat.le_max_left _ _
    · exact Nat.le_trans (ih hh) (Nat.le_max_right _ _)

theorem deepest_le {n : Nat} (bound : ∀ h ∈ hs, h.depth ≤ n) : deepest hs ≤ n := by
  induction hs with
  | nil => exact Nat.zero_le n
  | cons k hs ih =>
    obtain ⟨first, rest⟩ := List.forall_mem_cons.1 bound
    exact Nat.max_le.2 ⟨first, ih rest⟩

theorem depth_eq_of_same {h k : Hint} (equal : h.same k = true) : h.depth = k.depth := by
  match h, k with
  | .union _ as, .union _ bs =>
    have member : ∀ a ∈ as, ∀ b, a.same b = true → a.depth = b.depth :=
      fun a _ b => depth_eq_of_same
    obtain ⟨covered, covers⟩ := same_union.1 equal
    refine congrArg (· + 1)
      (Nat.le_antisymm (deepest_le fun a ha => ?_) (deepest_le fun b hb => ?_))
    · obtain ⟨b, hb, hab⟩ := covered a ha
      exact member a ha b hab ▸ depth_le_deepest hb
    · obtain ⟨a, ha, hab⟩ := covers b hb
      exact member a ha b hab ▸ depth_le_deepest ha
  | .marked a _, .marked b _ =>
    rw [same, Bool.and_eq_true] at equal
    exact congrArg (· + 1) (depth_eq_of_same equal.1)
  | .type _, .type _ | .late _, .late _ => rfl
termination_by h

theorem depth_unmark_le (h : Hint) : h.unmark.1.depth ≤ h.depth := by
  cases h with
  | marked h _ => exact Nat.le_succ _
  | _ => exact Nat.le_refl _

/-- No union equals what a member is without its marks. -/
theorem not_same_unmark (hm : h ∈ ms) : (union form ms).same h.unmark.1 = false := by
  rw [Bool.eq_false_iff]
  intro equal
  have inside := Nat.le_trans (depth_unmark_le h) (depth_le_deepest hm)
  rw [← depth_eq_of_same equal] at inside
  exact Nat.not_succ_le_self _ inside

/-! ## Wishes -/

theorem besideNull_length (ms : List Hint) :
    ((besideNull ms).length != ms.length) = ms.any isNull := by
  rw [Bool.eq_iff_iff, bne_iff_ne, Ne, besideNull, List.length_filter_eq_length_iff,
    List.any_eq_true]
  simp

section

variable {name : Option String}

theorem capability_of_single (union : h.unmark = (.union form ms, name))
    (single : besideNull ms = [k]) : h.wish.capability = k.unmark.1 := by
  unfold besideNull at single
  simp only [wish, union, single]
  cases k <;> rfl

/-- Of a union with one member beside null that member is asked for, without its marks. -/
theorem wish_of_single (union : h.unmark = (.union form ms, none)) (single : besideNull ms = [k]) :
    h.wish = ⟨k.unmark.1, k.unmark.2, ms.any isNull⟩ := by
  rw [← besideNull_length]
  unfold besideNull at single ⊢
  simp only [wish, union, single]
  cases k <;> rfl

/-- A union with several members beside null is asked for as it is. -/
theorem wish_of_several (union : h.unmark = (.union form ms, name))
    (several : ∀ m, besideNull ms ≠ [m]) : h.wish = ⟨.union form ms, name, ms.any isNull⟩ := by
  rw [← besideNull_length]
  unfold besideNull at several ⊢
  simp only [wish, union]

end

theorem unmark_notes (h : Hint) (notes : List String) :
    (marked h (notes.map .note)).unmark = (h, none) := by
  induction notes with
  | nil => rfl
  | cons _ _ ih => exact ih

/-- Notes name no service. -/
theorem unmark_mark_notes (h : Hint) (notes : List String) :
    (h.mark (notes.map .note)).unmark = h.unmark := by
  cases h with
  | marked h marks =>
    have unnamed := congrArg Prod.snd (unmark_notes h notes)
    simp only [unmark] at unnamed
    simp only [mark, unmark, List.findSome?_append, unnamed, Option.or_none]
  | _ => exact unmark_notes _ notes

mutual

/-- Whether there are no marks in the hint, and no null type. -/
def isBare : Hint → Bool
  | .type t => t != .null
  | .union _ ms => allBare ms
  | .marked _ _ => false
  | .late _ => true

/-- Whether all hints are bare. -/
def allBare : List Hint → Bool
  | [] => true
  | h :: hs => isBare h && allBare hs

end

theorem allBare_eq : allBare hs = hs.all isBare := by
  induction hs with
  | nil => rw [allBare]; rfl
  | cons h hs ih => rw [allBare, ih, List.all_cons]

/-- No union with null is bare. -/
theorem not_isBare_withNull (form : UnionForm) (ms : List Hint) :
    (union form (withNull ms)).isBare = false := by
  rw [isBare, allBare_eq, List.all_eq_false]
  exact ⟨null, null_mem_withNull ms, by decide⟩

/-- The hints whose wish stays as it is where null is united with them: a union that has null
already, and what is not a union but for marks around a single member beside null. -/
def KeepsWish : Hint → Prop
  | .union _ ms => ms.any isNull = true
  | .marked (.union _ ms) _ => (besideNull ms).length ≠ 1
  | _ => True

/-- A hint is made nullable with a bar, as an optional one, and with notes beside either. -/
inductive Loosened (x : Hint) : Hint → Prop
  | bar : Loosened x (.pipe [x, null])
  | optional : Loosened x x.optional
  | noted {y : Hint} (notes : List String) : Loosened x y → Loosened x (y.mark (notes.map .note))

section

variable (loosened : Loosened x y) (normal : x.Normal) (some : x.isNull = false)

include loosened normal some

theorem Loosened.unmark_eq : ∃ form, y.unmark = (.union form (withNull x.members), none) := by
  induction loosened with
  | bar => exact ⟨_, congrArg unmark (unite_null _ normal some)⟩
  | optional => exact ⟨_, congrArg unmark (unite_null _ normal some)⟩
  | noted notes _ ih => rwa [unmark_mark_notes]

/-- What a nullable hint asks for: the single member beside null, or the whole union. -/
theorem Loosened.wish_cases :
    (∃ m, besideNull x.members = [m] ∧ y.wish = ⟨m.unmark.1, m.unmark.2, true⟩) ∨
      (∀ m, besideNull x.members ≠ [m]) ∧
        ∃ form, y.wish = ⟨.union form (withNull x.members), none, true⟩ := by
  obtain ⟨form, union⟩ := loosened.unmark_eq normal some
  have nullable : (withNull x.members).any isNull = true :=
    List.any_eq_true.2 ⟨null, null_mem_withNull x.members, rfl⟩
  by_cases single : ∃ m, besideNull x.members = [m]
  · obtain ⟨m, single⟩ := single
    refine .inl ⟨m, single, ?_⟩
    rw [wish_of_single union ((besideNull_withNull _).trans single), nullable]
  · have several := not_exists.1 single
    refine .inr ⟨several, form, ?_⟩
    rw [wish_of_several union (fun m => besideNull_withNull x.members ▸ several m), nullable]

/-- What is not a union asks for the same without its own marks. -/
theorem Loosened.wish_singleton (single : x.members = [x]) :
    y.wish = ⟨x.unmark.1, x.unmark.2, true⟩ := by
  have beside : besideNull x.members = [x] := by
    rw [single, besideNull, List.filter_cons_of_pos (by rw [some]; rfl), List.filter_nil]
  obtain ⟨m, single', wish⟩ | ⟨several, -⟩ := loosened.wish_cases normal some
  · rwa [List.singleton_inj.1 (beside.symm.trans single')]
  · exact absurd beside (several x)

theorem Loosened.nullable : y.wish.nullable = true := by
  obtain ⟨m, -, wish⟩ | ⟨-, form, wish⟩ := loosened.wish_cases normal some
  · rw [wish]
  · rw [wish]

theorem Loosened.keepsWish_iff :
    y.wish.name = x.wish.name ∧ y.wish.capability.same x.wish.capability = true ↔
      x.KeepsWish := by
  -- what `x` itself asks for is read anew in each case
  cases x with
  | type t =>
    rw [loosened.wish_singleton normal some rfl]
    exact iff_of_true ⟨rfl, same_refl _⟩ trivial
  | late source =>
    rw [loosened.wish_singleton normal some rfl]
    exact iff_of_true ⟨rfl, same_refl _⟩ trivial
  | marked h marks =>
    rw [loosened.wish_singleton normal some rfl]
    cases h with
    | union form ms =>
      by_cases single : ∃ m, besideNull ms = [m]
      · obtain ⟨m, single⟩ := single
        have inside : m ∈ ms := (List.mem_filter.1 (single ▸ List.mem_singleton_self m)).1
        refine iff_of_false (fun ⟨_, equal⟩ => ?_) fun keeps => keeps (congrArg List.length single)
        rw [capability_of_single rfl single] at equal
        exact Bool.false_ne_true ((not_same_unmark inside).symm.trans equal)
      · rw [wish_of_several rfl (not_exists.1 single)]
        exact iff_of_true ⟨rfl, same_refl _⟩ fun one => single (List.length_eq_one_iff.1 one)
    | _ => exact iff_of_true ⟨rfl, same_refl _⟩ trivial
  | union form ms =>
    change _ ↔ ms.any isNull = true
    obtain ⟨m, single, wish⟩ | ⟨several, form', wish⟩ := loosened.wish_cases normal some
    · rw [wish, wish_of_single rfl single]
      refine iff_of_true ⟨rfl, same_refl _⟩ ?_
      have one : (besideNull ms).length = 1 := congrArg List.length single
      rw [← besideNull_length, one, bne_iff_ne]
      exact Nat.ne_of_lt normal.1
    · rw [wish, wish_of_several rfl several, same_union]
      constructor
      · rintro ⟨-, covered, -⟩
        obtain ⟨m, hm, equal⟩ := covered null (null_mem_withNull ms)
        exact List.any_eq_true.2 ⟨m, hm, same_null m ▸ equal⟩
      · intro known
        rw [members, withNull, if_pos known]
        exact ⟨rfl, fun m hm => ⟨m, hm, same_refl m⟩, fun m hm => ⟨m, hm, same_refl m⟩⟩

theorem Loosened.isBare_iff :
    y.wish.capability.isBare = true ↔
      ∃ m, besideNull x.members = [m] ∧ m.unmark.1.isBare = true := by
  obtain ⟨m, single, wish⟩ | ⟨several, form, wish⟩ := loosened.wish_cases normal some
  · rw [wish]
    refine ⟨fun bare => ⟨m, single, bare⟩, fun ⟨m', single', bare⟩ => ?_⟩
    rwa [List.singleton_inj.1 (single.symm.trans single')]
  · rw [wish, not_isBare_withNull]
    exact iff_of_false Bool.false_ne_true fun ⟨m, single, _⟩ => several m single

end

/-- A hint that is made nullable asks for something nullable. It asks for the same as before just
where `KeepsWish` says so, and for something without marks and null just where a single member
beside null is such once its own marks are off. -/
theorem wish_loosened (built : x.Built) (some : x.isNull = false) (loosened : x.Loosened y) :
    y.wish.nullable = true ∧
    (y.wish.name = x.wish.name ∧ y.wish.capability.same x.wish.capability = true ↔
      x.KeepsWish) ∧
    (y.wish.capability.isBare = true ↔
      ∃ m, besideNull x.members = [m] ∧ m.unmark.1.isBare = true) :=
  ⟨loosened.nullable built.normal some, loosened.keepsWish_iff built.normal some,
    loosened.isBare_iff built.normal some⟩

/-- A clock that may be missing, with a note about it. -/
def notedClock : Hint := (optional (.type ⟨"Clock", .declared⟩)).mark [.note "wall"]

theorem wish_loosened_clock : notedClock.Built ∧ notedClock.isNull = false ∧
    notedClock.Loosened notedClock.optional ∧ notedClock.optional.wish.nullable = true ∧
    notedClock.optional.wish.capability.same notedClock.wish.capability = false ∧
    notedClock.optional.wish.capability.isBare = false := by
  have built : notedClock.Built := .mark _ (.unite .generic (List.cons_ne_nil _ _) <|
    List.forall_mem_cons.2 ⟨.type _, List.forall_mem_singleton.2 (.type _)⟩)
  obtain ⟨nullable, keeps, bare⟩ := wish_loosened built rfl .optional
  refine ⟨built, rfl, .optional, nullable, ?_, ?_⟩
  · rw [Bool.eq_false_iff]
    exact fun same => keeps.1 ⟨rfl, same⟩ rfl
  · rw [Bool.eq_false_iff]
    intro clean
    obtain ⟨m, single, clean⟩ := bare.1 clean
    obtain rfl := List.singleton_inj.1 (single.symm.trans rfl)
    cases clean

end Hint

end Wiring
