import Wiring.Proofs.Container.Requests

/-!
# Applications that make instances

Each factory makes an instance of its own, which is known by its number, and a ledger tells what
went into it. Before that a factory may ask for services, by what it is given and by what it
obtains; but instances look alike to it, so that nothing depends on the numbers that they have.
-/

namespace Wiring

/-! ## Instances renumbered -/

namespace Value

mutual

/-- The value with its instances renumbered. -/
def rename (ρ : Nat → Nat) : Value → Value
  | .built n => .built (ρ n)
  | .list items => .list (renameAll ρ items)
  | .tuple items => .tuple (renameAll ρ items)
  | .dict entries => .dict (renameEntries ρ entries)
  | v => v

/-- Several values with their instances renumbered. -/
def renameAll (ρ : Nat → Nat) : List Value → List Value
  | [] => []
  | v :: vs => rename ρ v :: renameAll ρ vs

/-- The entries of a dictionary with their instances renumbered. -/
def renameEntries (ρ : Nat → Nat) : List (Value × Value) → List (Value × Value)
  | [] => []
  | (k, v) :: rest => (rename ρ k, rename ρ v) :: renameEntries ρ rest

end

theorem renameAll_eq (ρ : Nat → Nat) (vs : List Value) : renameAll ρ vs = vs.map (rename ρ) := by
  induction vs with
  | nil => rfl
  | cons v vs ih => rw [renameAll, ih, List.map_cons]

theorem rename_list (ρ : Nat → Nat) (vs : List Value) :
    rename ρ (.list vs) = .list (vs.map (rename ρ)) := by
  rw [rename, renameAll_eq]

/-- There are no instances in the value. -/
def Still (v : Value) : Prop := ∀ ρ, v.rename ρ = v

theorem not_still_built (n : Nat) : ¬ (built n).Still := fun still =>
  Nat.succ_ne_self n (built.inj (still Nat.succ))

/-- Values that are the same, but for instances whose numbers are related. -/
inductive Matches (T : Nat → Nat → Prop) : Value → Value → Prop
  | still {v : Value} : v.Still → Matches T v v
  | related {n n' : Nat} : T n n' → Matches T (.built n) (.built n')

namespace Matches

variable {T T' : Nat → Nat → Prop} {v v' : Value}

theorem swap (h : Matches T v v') (imp : ∀ n n', T n n' → T' n' n) : Matches T' v' v := by
  cases h with
  | still still => exact .still still
  | related related => exact .related (imp _ _ related)

variable {ρ : Nat → Nat} (renames : ∀ n n', T n n' → ρ n = n')

include renames

theorem eq_rename (h : Matches T v v') : v' = v.rename ρ := by
  cases h with
  | still still => exact (still ρ).symm
  | related related => rw [rename, renames _ _ related]

theorem eq_map_rename {vs vs' : List Value} (h : List.Forall₂ (Matches T) vs vs') :
    vs' = vs.map (rename ρ) := by
  rw [← List.map_id vs', eq_comm, ← forall₂_map_eq]
  exact h.imp fun _ _ same => (same.eq_rename renames).symm

end Matches

end Value

/-- What a factory has made. -/
@[ext] structure Instance where
  /-- The service that it was made for. -/
  service : String
  factory : Factory
  arguments : List Value
  keywords : Table Value
  /-- What the factory has been given when it asked for services. -/
  obtained : List Value

namespace Instance

/-- The instance with those in it renumbered. -/
def rename (ρ : Nat → Nat) (i : Instance) : Instance :=
  { i with
    arguments := i.arguments.map (Value.rename ρ)
    keywords := i.keywords.map fun e => (e.1, e.2.rename ρ)
    obtained := i.obtained.map (Value.rename ρ) }

end Instance

/-! ## Applications -/

/-- What a factory asks for before it makes an instance, by what it obtains. -/
inductive Asks where
  | enough
  | ask (id : String) (next : Value → Asks)

namespace Asks

/-- What is asked for, and what is obtained. -/
inductive Gets : Asks → List String → List Value → Prop
  | enough : Gets .enough [] []
  | ask {id : String} {next : Value → Asks} {v : Value} {asked : List String}
    {obtained : List Value} : Gets (next v) asked obtained →
      Gets (.ask id next) (id :: asked) (v :: obtained)

theorem Gets.length_eq {asks : Asks} {asked : List String} {obtained : List Value}
    (h : asks.Gets asked obtained) : asked.length = obtained.length := by
  induction h with
  | enough => rfl
  | ask _ ih => rw [List.length_cons, List.length_cons, ih]

/-- The same is asked for when instances are renumbered. -/
inductive Alike (ρ : Nat → Nat) : Asks → Asks → Prop
  | enough : Alike ρ .enough .enough
  | ask {id : String} {next next' : Value → Asks} :
    (∀ v, Alike ρ (next v) (next' (v.rename ρ))) → Alike ρ (.ask id next) (.ask id next')

end Asks

/-- What factories ask for, by their arguments. -/
abbrev Manner := Factory → List Value → Table Value → Asks

/-- Nothing that factories ask for depends on the numbers of instances, but for which are equal. -/
def Manner.Uniform (manner : Manner) : Prop :=
  ∀ ρ : Nat → Nat, Function.Injective ρ → ∀ factory arguments keywords,
    Asks.Alike ρ (manner factory arguments keywords) (manner factory
      (arguments.map (Value.rename ρ)) (keywords.map fun e => (e.1, e.2.rename ρ)))

/-- What has been made, and the service that a factory is called for next. -/
structure Ledger where
  current : String := ""
  made : List Instance := []

/-- The ledger with one more instance. -/
def Ledger.add (w : Ledger) (i : Instance) : Ledger := { w with made := w.made ++ [i] }

/-- A call of the factory of the instance `i`, which asks for services first. Where a service cannot
be had, the factory fails. -/
def Call.making (i : Instance) : Asks → Ledger → Call Ledger
  | .enough, w => .finish (.ok (.built w.made.length)) (w.add i)
  | .ask id next, w => .demand id w fun q w =>
    match q with
    | .ok v => making { i with obtained := i.obtained ++ [v] } (next v) w
    | .error e => .finish (.error e) w

/-- The application in which each factory asks for services in its manner, and makes an instance. -/
def Application.making (manner : Manner) : Application Ledger where
  call factory arguments keywords w :=
    .making ⟨w.current, factory, arguments, keywords, []⟩ (manner factory arguments keywords) w
  note n w := match n with
    | .constructing id => { w with current := id }
    | _ => w

/-! ## Bindings without collections -/

namespace Binding

mutual

/-- A binding, or what is in it if it is a collection. -/
def leaves : Binding → List Binding
  | .collection _ items => leavesAll items
  | b => [b]

/-- Bindings, with those in collections in their place. -/
def leavesAll : List Binding → List Binding
  | [] => []
  | b :: bs => leaves b ++ leavesAll bs

end

mutual

/-- The value of a binding, where its leaves have the given ones. -/
def fill : Binding → List Value → Value
  | .collection _ items, vs => .list (fillAll items vs)
  | _, vs => vs.headD .null

/-- The values of bindings, where their leaves have the given ones. -/
def fillAll : List Binding → List Value → List Value
  | [], _ => []
  | b :: bs, vs => fill b (vs.take (leaves b).length) :: fillAll bs (vs.drop (leaves b).length)

end

mutual

theorem fill_rename (ρ : Nat → Nat) :
    ∀ (b : Binding) (vs : List Value), fill b (vs.map (Value.rename ρ)) = (fill b vs).rename ρ
  | .collection _ items, vs => by
    rw [fill, fill, Value.rename_list, fillAll_rename ρ items]
  | .value _, vs | .service _, vs | .deferred _, vs | .inline _, vs => by cases vs <;> rfl

theorem fillAll_rename (ρ : Nat → Nat) : ∀ (bs : List Binding) (vs : List Value),
    fillAll bs (vs.map (Value.rename ρ)) = (fillAll bs vs).map (Value.rename ρ)
  | [], _ => rfl
  | b :: bs, vs => by
    rw [fillAll, fillAll, ← List.map_take, ← List.map_drop, fill_rename ρ b, fillAll_rename ρ bs,
      List.map_cons]

end

theorem leavesAll_eq (bs : List Binding) : leavesAll bs = bs.flatMap leaves := by
  induction bs with
  | nil => rfl
  | cons b bs ih => rw [leavesAll, ih, List.flatMap_cons]

mutual

/-- What is read off a collection item by item is read off the leaves. -/
theorem flatMap_leaves {read : Binding → List String}
    (collection : ∀ tag items, read (.collection tag items) = items.flatMap read) :
    ∀ b : Binding, b.leaves.flatMap read = read b
  | .collection tag items => by rw [leaves, flatMap_leavesAll collection items, collection]
  | .value _ | .service _ | .deferred _ | .inline _ => List.append_nil _

theorem flatMap_leavesAll {read : Binding → List String}
    (collection : ∀ tag items, read (.collection tag items) = items.flatMap read) :
    ∀ bs : List Binding, (leavesAll bs).flatMap read = bs.flatMap read
  | [] => rfl
  | b :: bs => by
    rw [leavesAll, List.flatMap_append, flatMap_leaves collection b,
      flatMap_leavesAll collection bs, List.flatMap_cons]

end

end Binding

/-! ## Names of instances -/

/-- Where a name begins: with a shared service that has a plan, or with a request. -/
inductive Root where
  | shared (id : String)
  | request (k : Nat)

/-- Where an instance has its place: in what leaf of what instance it was made, all the way from a
root. -/
structure Name where
  root : Root
  path : List Nat := []

namespace Name

variable {x y z : Name} {i j : Nat}

/-- What is made in a leaf of the instance of a name, or asked for by its factory. -/
def child (x : Name) (k : Nat) : Name := { x with path := x.path ++ [k] }

/-- What is made in a leaf of what is made in a leaf, and so on. -/
def below (x : Name) (path : List Nat) : Name := { x with path := x.path ++ path }

theorem below_nil (x : Name) : x.below [] = x := by rw [below, List.append_nil]

theorem child_below (x : Name) (path : List Nat) (k : Nat) :
    (x.below path).child k = x.below (path ++ [k]) := by
  rw [child, below, below, List.append_assoc]

/-- `y` is the name of an instance that is made while that of `x` is, or `x` itself. -/
def Covers (x y : Name) : Prop := y.root = x.root ∧ x.path <+: y.path

theorem Covers.refl (x : Name) : Covers x x := ⟨rfl, List.prefix_refl _⟩

theorem Covers.of_child (h : Covers (x.child i) y) : Covers x y :=
  ⟨h.1, (List.prefix_append _ _).trans h.2⟩

theorem Covers.child_inj (h : Covers (x.child i) y) (h' : Covers (x.child j) y) : i = j := by
  obtain ⟨rest, hr⟩ := h.2
  obtain ⟨rest', hr'⟩ := h'.2
  simp only [child, List.append_assoc] at hr hr'
  have same := List.append_cancel_left (hr.trans hr'.symm)
  exact (List.cons.inj same).1

theorem not_covers_child_self : ¬ Covers (x.child i) x := fun h => by
  have := h.2.length_le
  simp [child] at this

theorem child_inj (h : x.child i = y.child j) : x = y ∧ i = j := by
  obtain ⟨root, path⟩ := Name.mk.inj h
  obtain ⟨path, last⟩ := List.append_inj' path rfl
  exact ⟨by rw [Name.mk.injEq]; exact ⟨root, path⟩, (List.cons.inj last).1⟩

theorem child_ne_root {r : Root} : x.child i ≠ ⟨r, []⟩ := fun h => by
  simpa [child] using congrArg Name.path h

end Name

end Wiring
