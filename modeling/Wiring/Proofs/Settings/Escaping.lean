import Mathlib.Data.List.Basic
import Wiring.Settings

/-!
# Escaped values

Where placeholders are looked for, a value is written with its percent signs doubled. The scanner
reads each pair of them as one percent sign and never finds a placeholder open, so substitution
gives the value back, whatever the parameters are: texts in lists, tuples and dictionaries included,
and the keys of dictionaries, which remain as different as they were.
-/

namespace Wiring.Value

open Setting

/-! ## Values that there are -/

mutual

/-- Whether in every dictionary within the value the keys are fit to be keys and all different. -/
def isFormed : Value → Bool
  | .list items | .tuple items => areFormed items
  | .dict entries => entriesFormed entries
  | _ => true

/-- Whether several values are formed. -/
def areFormed : List Value → Bool
  | [] => true
  | v :: vs => isFormed v && areFormed vs

/-- Whether the entries of a dictionary are formed, no key coming back among the later ones. -/
def entriesFormed : List (Value × Value) → Bool
  | [] => true
  | (k, v) :: rest =>
    k.unhashable?.isNone && rest.all (fun e => !k.same e.1) && isFormed k && isFormed v &&
      entriesFormed rest

end

/-! ## Texts -/

/-- The piece that an escaped character is read as. -/
def escapedPiece (c : Char) : Piece := if c = '%' then .percent else .char c

theorem escapedPiece_injective : Function.Injective escapedPiece := by
  intro c d same
  unfold escapedPiece at same
  split at same <;> split at same
  next hc hd => exact hc.trans hd.symm
  · cases same
  · cases same
  · exact Piece.char.inj same

/-- At no place of an escaped text is the scanner within a placeholder. -/
theorem scan_escaped (cs : List Char) :
    Piece.scan none (cs.flatMap fun c => if c = '%' then ['%', '%'] else [c]) =
      cs.map escapedPiece := by
  induction cs with
  | nil => rfl
  | cons c cs ih =>
    rw [List.flatMap_cons, List.map_cons, ← ih]
    by_cases percent : c = '%'
    · subst percent
      rfl
    · simp [Piece.scan, escapedPiece, percent]

theorem ofText_escapeText (s : String) :
    Piece.ofText (escapeText s) = s.toList.map escapedPiece := by
  rw [Piece.ofText, escapeText, String.toList_ofList, scan_escaped]

theorem escapeText_injective : Function.Injective escapeText := by
  intro s t same
  have pieces : s.toList.map escapedPiece = t.toList.map escapedPiece := by
    rw [← ofText_escapeText, same, ofText_escapeText]
  exact String.toList_inj.1 (escapedPiece_injective.list_map pieces)

section Substitution

variable {m : Type → Type} [Monad m] [LawfulMonad m] [MonadExceptOf Failure m]
  (lookup : String → m Value)

theorem mapM_escapedPiece (whole : String) (cs : List Char) :
    (cs.map escapedPiece).mapM (substitutePiece lookup whole) =
      pure (cs.map String.singleton) := by
  induction cs with
  | nil => rfl
  | cons c cs ih =>
    have first : substitutePiece lookup whole (escapedPiece c) = pure (String.singleton c) := by
      unfold escapedPiece
      split
      next percent => rw [percent]; rfl
      · rfl
    rw [List.map_cons, List.mapM_cons, first, ih]
    simp

/-- An escaped text is never one placeholder, and its pieces spell the text. -/
theorem substituteText_escapeText (s : String) :
    substituteText lookup (escapeText s) = pure (.str s) := by
  have spelled : String.join (s.toList.map String.singleton) = s := by
    rw [← String.toList_inj, String.toList_join, List.flatMap_map]
    simp
  unfold substituteText
  split
  next name whole =>
    have inside : Piece.placeholder name ∈ s.toList.map escapedPiece := by
      rw [← ofText_escapeText, whole]
      exact List.mem_singleton_self _
    obtain ⟨c, -, read⟩ := List.mem_map.1 inside
    unfold escapedPiece at read
    split at read <;> cases read
  · rw [ofText_escapeText, mapM_escapedPiece, pure_bind, spelled]

end Substitution

/-! ## Keys -/

mutual

/-- A key equals an escaped key only if it did so before. -/
theorem same_escape {k l : Value} (hashable : k.unhashable? = none) :
    (escape k).same (escape l) = k.same l := by
  match k with
  | .str s => cases l <;> simp [escape, same, escapeText_injective.eq_iff]
  | .tuple items =>
    cases l with
    | tuple items' =>
      simp only [escape, same]
      exact sameAll_escapeAll hashable
    | _ => simp [escape, same]
  | .list _ | .dict _ => cases hashable
  | .null | .bool _ | .int _ | .real _ | .object _ | .type _ | .hint _ | .built _
  | .deferred _ _ => cases l <;> simp [escape, same, number?]

theorem sameAll_escapeAll {ks ls : List Value} (hashable : firstUnhashable? ks = none) :
    sameAll (escapeAll ks) (escapeAll ls) = sameAll ks ls := by
  match ks, ls with
  | [], [] | [], _ :: _ | _ :: _, [] => simp [escapeAll, sameAll]
  | k :: ks, l :: ls =>
    obtain ⟨first, rest⟩ := Option.or_eq_none_iff.1 hashable
    rw [escapeAll, escapeAll, sameAll, sameAll, same_escape first, sameAll_escapeAll rest]

end

theorem putEntry_new {entries : List (Value × Value)} {key value : Value}
    (new : ∀ e ∈ entries, e.1.same key = false) :
    putEntry entries key value = entries ++ [(key, value)] := by
  have absent : ¬ (entries.any fun e => e.1.same key) = true := by
    simpa [List.any_eq_true] using new
  rw [putEntry, if_neg absent]

/-! ## Dictionaries -/

/-- An entry of a dictionary, escaped. -/
def escapedEntry (e : Value × Value) : Value × Value := (escape e.1, escape e.2)

/-- What the first entry of a formed dictionary is, and what the others are. -/
structure FormedFirst (k v : Value) (rest : List (Value × Value)) : Prop where
  hashable : k.unhashable? = none
  fresh : ∀ e ∈ rest, k.same e.1 = false
  key : k.isFormed = true
  value : v.isFormed = true
  others : entriesFormed rest = true

theorem entriesFormed_cons {k v : Value} {rest : List (Value × Value)} :
    entriesFormed ((k, v) :: rest) = true ↔ FormedFirst k v rest := by
  simp only [entriesFormed, Bool.and_eq_true, Option.isNone_iff_eq_none, List.all_eq_true,
    Bool.not_eq_true']
  exact ⟨fun ⟨⟨⟨⟨h₁, h₂⟩, h₃⟩, h₄⟩, h₅⟩ => ⟨h₁, h₂, h₃, h₄, h₅⟩,
    fun h => ⟨⟨⟨⟨h.hashable, h.fresh⟩, h.key⟩, h.value⟩, h.others⟩⟩

/-- With the first entry put in, the other keys are still new. `f` stands for escaping, or for
leaving the keys as they are. -/
theorem FormedFirst.new {k v w : Value} {rest done : List (Value × Value)} {f : Value → Value}
    (first : FormedFirst k v rest) (kept : ∀ l, (f k).same (f l) = k.same l)
    (new : ∀ d ∈ done, ∀ e ∈ (k, v) :: rest, d.1.same (f e.1) = false) :
    ∀ d ∈ done ++ [(f k, w)], ∀ e ∈ rest, d.1.same (f e.1) = false := by
  intro d hd e he
  rcases List.mem_append.1 hd with hd | hd
  · exact new d hd e (List.mem_cons_of_mem _ he)
  · obtain rfl := List.mem_singleton.1 hd
    exact (kept e.1).trans (first.fresh e he)

/-- Of the keys of a formed dictionary none replaces another once they are escaped. -/
theorem escapeEntries_eq {done entries : List (Value × Value)}
    (formed : entriesFormed entries = true)
    (new : ∀ d ∈ done, ∀ e ∈ entries, d.1.same (escape e.1) = false) :
    escapeEntries done entries = done ++ entries.map escapedEntry := by
  induction entries generalizing done with
  | nil => rw [escapeEntries, List.map_nil, List.append_nil]
  | cons e rest ih =>
    obtain ⟨k, v⟩ := e
    have first : FormedFirst k v rest := entriesFormed_cons.1 formed
    have absent : ∀ d ∈ done, d.1.same (escape k) = false := fun d hd =>
      new d hd (k, v) List.mem_cons_self
    rw [escapeEntries, putEntry_new absent,
      ih first.others (first.new (fun _ => same_escape first.hashable) new), List.append_assoc]
    rfl

/-! ## Values -/

section Substitution

variable {m : Type → Type} [Monad m] [LawfulMonad m] [MonadExceptOf Failure m]
  (lookup : String → m Value)

mutual

/-- Substitution undoes escaping, and looks nothing up. -/
theorem substitute_escape {v : Value} (formed : v.isFormed = true) :
    substitute lookup (escape v) = pure v := by
  match v with
  | .str s =>
    rw [escape, substitute]
    exact substituteText_escapeText lookup s
  | .list items | .tuple items =>
    rw [escape, substitute, substituteAll_escapeAll formed, pure_bind]
  | .dict entries =>
    rw [escape, escapeEntries_eq formed (by simp), List.nil_append, substitute,
      substituteEntries_escaped formed (by simp), pure_bind]
    rfl
  | .null | .bool _ | .int _ | .real _ | .object _ | .type _ | .hint _ | .built _
  | .deferred _ _ => rfl

theorem substituteAll_escapeAll {vs : List Value} (formed : areFormed vs = true) :
    substituteAll lookup (escapeAll vs) = pure vs := by
  match vs with
  | [] => rfl
  | v :: vs =>
    obtain ⟨first, rest⟩ := Bool.and_eq_true_iff.1 formed
    rw [escapeAll, substituteAll, substitute_escape first, pure_bind,
      substituteAll_escapeAll rest, pure_bind]

theorem substituteEntries_escaped {done entries : List (Value × Value)}
    (formed : entriesFormed entries = true)
    (new : ∀ d ∈ done, ∀ e ∈ entries, d.1.same e.1 = false) :
    substituteEntries lookup done (entries.map escapedEntry) = pure (done ++ entries) := by
  match entries with
  | [] =>
    rw [List.map_nil, substituteEntries, List.append_nil]
  | (k, v) :: rest =>
    have first : FormedFirst k v rest := entriesFormed_cons.1 formed
    have absent : ∀ d ∈ done, d.1.same k = false := fun d hd =>
      new d hd (k, v) List.mem_cons_self
    have after : ∀ d ∈ done ++ [(k, v)], ∀ e ∈ rest, d.1.same e.1 = false :=
      FormedFirst.new (f := id) first (fun _ => rfl) new
    rw [List.map_cons, escapedEntry, substituteEntries, substitute_escape first.key, pure_bind,
      substitute_escape first.value, pure_bind, first.hashable]
    simp only [putEntry_new absent]
    rw [substituteEntries_escaped first.others after, List.append_assoc]
    rfl

end

end Substitution

end Wiring.Value
