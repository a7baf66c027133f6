import Mathlib.Logic.Relation
import Wiring.Parameter.Substitution
import Wiring.Proofs.Parameter.Pieces

/-!
# What values with placeholders mean

`Means` is plain substitution: it goes through a value, and on into the value of each parameter that
a placeholder names, with no memory, no order and no bound. A text that is one placeholder means
what the parameter means, with its type; in a longer text each placeholder is spelled as the text of
what it means, which is not read again.

A value has a meaning just where its placeholders have one, those in longer texts have one with a
text, and no key means a value that cannot be a key. A parameter that has a meaning does not come
back to itself.
-/

namespace Wiring

namespace Value

open Piece

/-! ## Parts of values -/

mutual

/-- The texts in a value, those in keys of dictionaries included. -/
def strings : Value → List String
  | .str s => [s]
  | .list items | .tuple items => stringsAll items
  | .dict entries => stringsEntries entries
  | _ => []

/-- The texts in several values. -/
def stringsAll : List Value → List String
  | [] => []
  | v :: vs => strings v ++ stringsAll vs

/-- The texts in the entries of a dictionary. -/
def stringsEntries : List (Value × Value) → List String
  | [] => []
  | (k, v) :: rest => strings k ++ strings v ++ stringsEntries rest

end

mutual

/-- The keys of all dictionaries in a value. -/
def keys : Value → List Value
  | .list items | .tuple items => keysAll items
  | .dict entries => keysEntries entries
  | _ => []

/-- The keys of all dictionaries in several values. -/
def keysAll : List Value → List Value
  | [] => []
  | v :: vs => keys v ++ keysAll vs

/-- The keys in the entries of a dictionary, those of the dictionary itself included. -/
def keysEntries : List (Value × Value) → List Value
  | [] => []
  | (k, v) :: rest => k :: keys k ++ keys v ++ keysEntries rest

end

/-- A placeholder of that name is in the text. -/
def InText (name s : String) : Prop :=
  ∃ pieces, Reads s.toList pieces ∧ .placeholder name ∈ pieces

/-- A placeholder of that name is in the text, which is longer than that. -/
def WithinText (name s : String) : Prop :=
  InText name s ∧ ¬ Reads s.toList [.placeholder name]

/-- A placeholder in the value names the parameter. -/
def Mentions (v : Value) (name : String) : Prop := ∃ s ∈ v.strings, InText name s

/-- A placeholder in a longer text in the value names the parameter. -/
def Embeds (v : Value) (name : String) : Prop := ∃ s ∈ v.strings, WithinText name s

/-- A text, a number or a truth value: what can stand inside a longer text. -/
def IsWord : Value → Prop
  | .str _ | .int _ | .real _ | .bool _ => True
  | _ => False

theorem interpolated?_eq_some {v : Value} {word : String} :
    v.interpolated? = some word ↔ v.IsWord ∧ v.text = word := by
  cases v <;> simp [interpolated?, number?, IsWord, text]

theorem interpolated?_eq_none {v : Value} : v.interpolated? = none ↔ ¬ v.IsWord := by
  cases v <;> simp [interpolated?, number?, IsWord]

/-- A value that holds no other values and is no text. -/
def IsScalar : Value → Prop
  | .str _ | .list _ | .tuple _ | .dict _ => False
  | _ => True

/-! ## Meaning -/

mutual

/-- What a value means where parameters have the given values. -/
inductive Means (given : String → Option Value) : Value → Value → Prop
  | whole {s name : String} {v w : Value} (reads : Reads s.toList [.placeholder name])
      (there : given name = some v) (means : Means given v w) : Means given (.str s) w
  | text {s : String} {pieces : List Piece} {words : List String} (reads : Reads s.toList pieces)
      (longer : ∀ name, pieces ≠ [.placeholder name]) (spells : Spells given pieces words) :
      Means given (.str s) (.str (String.join words))
  | list {vs ws : List Value} (items : AllMean given vs ws) : Means given (.list vs) (.list ws)
  | tuple {vs ws : List Value} (items : AllMean given vs ws) : Means given (.tuple vs) (.tuple ws)
  | dict {es fs : List (Value × Value)} (entries : EntriesMean given [] es fs) :
      Means given (.dict es) (.dict fs)
  | scalar {v : Value} (scalar : v.IsScalar) : Means given v v

/-- What the pieces of a text are spelled as. -/
inductive Spells (given : String → Option Value) : List Piece → List String → Prop
  | nil : Spells given [] []
  | char {c : Char} {pieces : List Piece} {words : List String} (rest : Spells given pieces words) :
      Spells given (.char c :: pieces) (String.singleton c :: words)
  | percent {pieces : List Piece} {words : List String} (rest : Spells given pieces words) :
      Spells given (.percent :: pieces) ("%" :: words)
  | placeholder {name : String} {v w : Value} {pieces : List Piece} {words : List String}
      (there : given name = some v) (means : Means given v w) (word : w.IsWord)
      (rest : Spells given pieces words) :
      Spells given (.placeholder name :: pieces) (w.text :: words)

/-- What the items of a list or a tuple mean. -/
inductive AllMean (given : String → Option Value) : List Value → List Value → Prop
  | nil : AllMean given [] []
  | cons {v w : Value} {vs ws : List Value} (first : Means given v w)
      (rest : AllMean given vs ws) : AllMean given (v :: vs) (w :: ws)

/-- What the entries of a dictionary come to when they are put in after the entries `done`. -/
inductive EntriesMean (given : String → Option Value) : List (Value × Value) →
    List (Value × Value) → List (Value × Value) → Prop
  | nil {done : List (Value × Value)} : EntriesMean given done [] done
  | cons {k key v value : Value} {done rest entries : List (Value × Value)}
      (first : Means given k key) (second : Means given v value) (hashable : key.unhashable? = none)
      (after : EntriesMean given (putEntry done key value) rest entries) :
      EntriesMean given done ((k, v) :: rest) entries

end

/-! ## One meaning -/

section Unique

variable {given : String → Option Value}

theorem singleton_unique {s name name' : String} (h : Reads s.toList [.placeholder name])
    (h' : Reads s.toList [.placeholder name']) : name = name' := by
  simpa using h.unique h'

mutual

theorem Means.unique : ∀ {v w w' : Value}, Means given v w → Means given v w' → w = w'
  | _, _, _, .whole reads there means, h' => by
    cases h' with
    | whole reads' there' means' =>
      obtain rfl := singleton_unique reads reads'
      obtain rfl := Option.some.inj (there.symm.trans there')
      exact Means.unique means means'
    | text reads' longer => exact absurd (reads'.unique reads) (longer _)
    | scalar scalar => exact scalar.elim
  | _, _, _, .text reads longer spells, h' => by
    cases h' with
    | whole reads' => exact absurd (reads.unique reads') (longer _)
    | text reads' _ spells' =>
      obtain rfl := reads.unique reads'
      rw [Spells.unique spells spells']
    | scalar scalar => exact scalar.elim
  | _, _, _, .list items, h' => by
    cases h' with
    | list items' => rw [AllMean.unique items items']
    | scalar scalar => exact scalar.elim
  | _, _, _, .tuple items, h' => by
    cases h' with
    | tuple items' => rw [AllMean.unique items items']
    | scalar scalar => exact scalar.elim
  | _, _, _, .dict entries, h' => by
    cases h' with
    | dict entries' => rw [EntriesMean.unique entries entries']
    | scalar scalar => exact scalar.elim
  | _, _, _, .scalar scalar, h' => by
    cases h' with
    | scalar => rfl
    | _ => exact scalar.elim
termination_by structural _ _ _ h => h

theorem Spells.unique : ∀ {pieces : List Piece} {words words' : List String},
    Spells given pieces words → Spells given pieces words' → words = words'
  | _, _, _, .nil, h' => by
    cases h'
    rfl
  | _, _, _, .char rest, h' => by
    cases h' with
    | char rest' => rw [Spells.unique rest rest']
  | _, _, _, .percent rest, h' => by
    cases h' with
    | percent rest' => rw [Spells.unique rest rest']
  | _, _, _, .placeholder there means _ rest, h' => by
    cases h' with
    | placeholder there' means' _ rest' =>
      obtain rfl := Option.some.inj (there.symm.trans there')
      rw [Means.unique means means', Spells.unique rest rest']
termination_by structural _ _ _ h => h

theorem AllMean.unique : ∀ {vs ws ws' : List Value},
    AllMean given vs ws → AllMean given vs ws' → ws = ws'
  | _, _, _, .nil, h' => by
    cases h'
    rfl
  | _, _, _, .cons first rest, h' => by
    cases h' with
    | cons first' rest' => rw [Means.unique first first', AllMean.unique rest rest']
termination_by structural _ _ _ h => h

theorem EntriesMean.unique : ∀ {done es fs fs' : List (Value × Value)},
    EntriesMean given done es fs → EntriesMean given done es fs' → fs = fs'
  | _, _, _, _, .nil, h' => by
    cases h'
    rfl
  | _, _, _, _, .cons first second _ after, h' => by
    cases h' with
    | cons first' second' _ after' =>
      obtain rfl := Means.unique first first'
      obtain rfl := Means.unique second second'
      exact EntriesMean.unique after after'
termination_by structural _ _ _ _ h => h

end

end Unique

end Value

namespace Bag

open Piece Value

variable {given : String → Option Value} {name : String} {v w : Value}

/-! ## Parameters that mean something -/

/-- The parameter stands for that value. -/
def Stands (given : String → Option Value) (name : String) (w : Value) : Prop :=
  ∃ v, given name = some v ∧ Means given v w

/-- The value of the parameter `owner`, as it is given, mentions the parameter `name`. -/
def Refers (given : String → Option Value) (owner name : String) : Prop :=
  ∃ v, given owner = some v ∧ v.Mentions name

theorem Stands.unique {w' : Value} (h : Stands given name w) (h' : Stands given name w') :
    w = w' := by
  obtain ⟨v, there, means⟩ := h
  obtain ⟨v', there', means'⟩ := h'
  obtain rfl := Option.some.inj (there.symm.trans there')
  exact means.unique means'

/-- All chains of references that start at the parameter end. -/
def Ends (given : String → Option Value) (name : String) : Prop :=
  Acc (fun b a => Refers given a b) name

/-- What it takes for values with these texts and keys to mean something. -/
structure Settled (given : String → Option Value) (texts : List String) (keys : List Value) :
    Prop where
  mentioned : ∀ s ∈ texts, ∀ name, InText name s → (∃ w, Stands given name w) ∧ Ends given name
  embedded : ∀ s ∈ texts, ∀ name, WithinText name s → ∃ w, Stands given name w ∧ w.IsWord
  keyed : ∀ k ∈ keys, ∃ w, Means given k w ∧ w.unhashable? = none

namespace Settled

theorem nil : Settled given [] [] := ⟨by simp, by simp, by simp⟩

theorem append {texts texts' : List String} {keys keys' : List Value}
    (h : Settled given texts keys) (h' : Settled given texts' keys') :
    Settled given (texts ++ texts') (keys ++ keys') where
  mentioned s hs := (List.mem_append.1 hs).elim (h.mentioned s) (h'.mentioned s)
  embedded s hs := (List.mem_append.1 hs).elim (h.embedded s) (h'.embedded s)
  keyed k hk := (List.mem_append.1 hk).elim (h.keyed k) (h'.keyed k)

theorem key {texts : List String} {keys : List Value} {k : Value} (h : Settled given texts keys)
    (means : Means given k w) (hashable : w.unhashable? = none) :
    Settled given texts (k :: keys) where
  mentioned := h.mentioned
  embedded := h.embedded
  keyed x hx := (List.mem_cons.1 hx).elim (fun e => ⟨w, e ▸ means, hashable⟩) (h.keyed x)

theorem ends (h : Settled given v.strings v.keys) (there : given name = some v) :
    Ends given name := by
  refine .intro name fun other refers => ?_
  obtain ⟨v', there', s, hs, mentions⟩ := refers
  obtain rfl := Option.some.inj (there.symm.trans there')
  exact (h.mentioned s hs other mentions).2

end Settled

theorem settled_whole {s : String} (reads : Reads s.toList [.placeholder name])
    (stands : Stands given name w) (ends : Ends given name) : Settled given [s] [] where
  mentioned := by
    rintro t ht other ⟨pieces, reads', here⟩
    obtain rfl := List.mem_singleton.1 ht
    obtain rfl := reads.unique reads'
    obtain rfl := Piece.placeholder.inj (List.mem_singleton.1 here)
    exact ⟨⟨w, stands⟩, ends⟩
  embedded := by
    rintro t ht other ⟨⟨pieces, reads', here⟩, longer⟩
    obtain rfl := List.mem_singleton.1 ht
    obtain rfl := reads.unique reads'
    obtain rfl := Piece.placeholder.inj (List.mem_singleton.1 here)
    exact absurd reads longer
  keyed := by simp

theorem settled_text {s : String} {pieces : List Piece} (reads : Reads s.toList pieces)
    (each : ∀ name, .placeholder name ∈ pieces →
      (∃ w, Stands given name w ∧ w.IsWord) ∧ Ends given name) : Settled given [s] [] where
  mentioned := by
    rintro t ht other ⟨pieces', reads', here⟩
    obtain rfl := List.mem_singleton.1 ht
    obtain rfl := reads.unique reads'
    obtain ⟨⟨w, stands, -⟩, ends⟩ := each other here
    exact ⟨⟨w, stands⟩, ends⟩
  embedded := by
    rintro t ht other ⟨⟨pieces', reads', here⟩, -⟩
    obtain rfl := List.mem_singleton.1 ht
    obtain rfl := reads.unique reads'
    exact (each other here).1
  keyed := by simp

theorem settled_scalar (scalar : v.IsScalar) : Settled given v.strings v.keys := by
  cases v with
  | str | list | tuple | dict => exact scalar.elim
  | _ => exact .nil

mutual

/-- A value that means something has all that it takes. -/
theorem settled_of_means : ∀ {v w : Value}, Means given v w → Settled given v.strings v.keys
  | .str _, _, .whole reads there means =>
    settled_whole reads ⟨_, there, means⟩ ((settled_of_means means).ends there)
  | .str _, _, .text reads _ spells => settled_text reads (settled_of_spells spells)
  | .list _, _, .list items => by
    simpa only [strings, keys] using settled_of_allMean items
  | .tuple _, _, .tuple items => by
    simpa only [strings, keys] using settled_of_allMean items
  | .dict _, _, .dict entries => by
    simpa only [strings, keys] using settled_of_entriesMean entries
  | _, _, .scalar scalar => settled_scalar scalar

theorem settled_of_spells : ∀ {pieces : List Piece} {words : List String},
    Spells given pieces words → ∀ name, .placeholder name ∈ pieces →
      (∃ w, Stands given name w ∧ w.IsWord) ∧ Ends given name
  | _, _, .nil => by simp
  | _, _, .char rest => by
    simpa using settled_of_spells rest
  | _, _, .percent rest => by
    simpa using settled_of_spells rest
  | _, _, .placeholder there means word rest => by
    intro name here
    rcases List.mem_cons.1 here with here | here
    · obtain rfl := Piece.placeholder.inj here
      exact ⟨⟨_, ⟨_, there, means⟩, word⟩, (settled_of_means means).ends there⟩
    · exact settled_of_spells rest name here

theorem settled_of_allMean : ∀ {vs ws : List Value},
    AllMean given vs ws → Settled given (stringsAll vs) (keysAll vs)
  | _, _, .nil => .nil
  | _, _, .cons first rest => (settled_of_means first).append (settled_of_allMean rest)

theorem settled_of_entriesMean : ∀ {done es fs : List (Value × Value)},
    EntriesMean given done es fs → Settled given (stringsEntries es) (keysEntries es)
  | _, _, _, .nil => .nil
  | _, _, _, .cons first second hashable after =>
    (((settled_of_means first).append (settled_of_means second)).append
      (settled_of_entriesMean after)).key first hashable

end

/-- What it takes for all parameters to resolve: none comes back to itself through placeholders, all
that are mentioned are there, those within longer texts mean texts, numbers or truth values, and no
key means a value that cannot be one. -/
structure Resolvable (given : String → Option Value) : Prop where
  loopFree : ∀ name, ¬ Relation.TransGen (Refers given) name name
  defined : ∀ owner name, Refers given owner name → ∃ v, given name = some v
  worded : ∀ owner v, given owner = some v → ∀ name, v.Embeds name →
    ∀ w, Stands given name w → w.IsWord
  keyed : ∀ owner v, given owner = some v → ∀ k ∈ v.keys,
    ∀ w, Means given k w → w.unhashable? = none

theorem Ends.loopFree (h : Ends given name) : ¬ Relation.TransGen (Refers given) name name := by
  induction h with
  | intro name _ ih =>
    intro loop
    obtain ⟨other, refers, back⟩ := Relation.TransGen.head'_iff.1 loop
    exact ih other refers (.tail' back refers)

/-- Where every parameter means something, all that it takes is there. -/
theorem resolvable_of_stands (each : ∀ name v, given name = some v → ∃ w, Stands given name w) :
    Resolvable given := by
  have settled (owner : String) (v : Value) (there : given owner = some v) :
      Settled given v.strings v.keys := by
    obtain ⟨w, v', there', means⟩ := each owner v there
    obtain rfl := Option.some.inj (there.symm.trans there')
    exact settled_of_means means
  constructor
  case loopFree =>
    intro name loop
    obtain ⟨other, ⟨v, there, -⟩, -⟩ := Relation.TransGen.head'_iff.1 loop
    exact ((settled name v there).ends there).loopFree loop
  case defined =>
    rintro owner name ⟨v, there, s, hs, mentions⟩
    obtain ⟨⟨w, v', there', -⟩, -⟩ := (settled owner v there).mentioned s hs name mentions
    exact ⟨v', there'⟩
  case worded =>
    rintro owner v there name ⟨s, hs, within⟩ w stands
    obtain ⟨w', stands', word⟩ := (settled owner v there).embedded s hs name within
    exact stands.unique stands' ▸ word
  case keyed =>
    intro owner v there k hk w means
    obtain ⟨w', means', hashable⟩ := (settled owner v there).keyed k hk
    exact means.unique means' ▸ hashable

end Bag

end Wiring
