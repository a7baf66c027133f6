import Wiring.Parameter.Substitution

/-!
# How texts with placeholders read

`Reads` says what the pieces of a text are, from left to right: two percent signs, a placeholder, or
a character where neither of them is. The scanner, which goes through a text once, finds these
pieces.
-/

namespace Wiring.Piece

/-- A character that a name in a placeholder can have. -/
def IsNameable (c : Char) : Prop := c ≠ '%' ∧ Text.isBlank c = false

/-- The text starts with a placeholder of that name, and `rest` follows it. -/
structure Opens (text name rest : List Char) : Prop where
  nonempty : name ≠ []
  nameable : ∀ c ∈ name, IsNameable c
  text_eq : text = '%' :: (name ++ '%' :: rest)

/-- The pieces that a text is made of. -/
inductive Reads : List Char → List Piece → Prop
  | done : Reads [] []
  | percent {rest : List Char} {pieces : List Piece} (after : Reads rest pieces) :
      Reads ('%' :: '%' :: rest) (.percent :: pieces)
  | placeholder {text name rest : List Char} {pieces : List Piece} (opens : Opens text name rest)
      (after : Reads rest pieces) : Reads text (.placeholder (String.ofList name) :: pieces)
  | char {c : Char} {rest : List Char} {pieces : List Piece}
      (single : ∀ rest', c :: rest ≠ '%' :: '%' :: rest')
      (plain : ∀ name rest', ¬ Opens (c :: rest) name rest') (after : Reads rest pieces) :
      Reads (c :: rest) (.char c :: pieces)

variable {text name rest rest' : List Char} {c c' : Char} {pieces pieces' : List Piece}

/-! ## Names end where they end -/

theorem nameable_append_unique {name' : List Char} (named : ∀ x ∈ name, IsNameable x)
    (named' : ∀ x ∈ name', IsNameable x) (ends : ¬ IsNameable c) (ends' : ¬ IsNameable c')
    (same : name ++ c :: rest = name' ++ c' :: rest') : name = name' ∧ c = c' ∧ rest = rest' := by
  induction name generalizing name' with
  | nil =>
    cases name' with
    | nil => exact ⟨rfl, List.cons.inj same⟩
    | cons x name' =>
      obtain ⟨rfl, -⟩ := List.cons.inj same
      exact absurd (named' c List.mem_cons_self) ends
  | cons x name ih =>
    cases name' with
    | nil =>
      obtain ⟨rfl, -⟩ := List.cons.inj same
      exact absurd (named x List.mem_cons_self) ends'
    | cons y name' =>
      obtain ⟨rfl, below⟩ := List.cons.inj same
      obtain ⟨rfl, ends⟩ := ih (fun z hz => named z (List.mem_cons_of_mem x hz))
        (fun z hz => named' z (List.mem_cons_of_mem x hz)) below
      exact ⟨rfl, ends⟩

theorem not_nameable_percent : ¬ IsNameable '%' := fun h => h.1 rfl

theorem Opens.unique {name' : List Char} (h : Opens text name rest) (h' : Opens text name' rest') :
    name = name' ∧ rest = rest' := by
  obtain ⟨rfl, -, rfl⟩ := nameable_append_unique h.nameable h'.nameable not_nameable_percent
    not_nameable_percent (List.cons.inj (h.text_eq.symm.trans h'.text_eq)).2
  exact ⟨rfl, rfl⟩

theorem Opens.not_percents (h : Opens ('%' :: '%' :: rest) name rest') : False := by
  obtain ⟨nonempty, nameable, same⟩ := h
  cases name with
  | nil => exact nonempty rfl
  | cons x name =>
    obtain ⟨rfl, -⟩ := List.cons.inj (List.cons.inj same).2
    exact not_nameable_percent (nameable '%' List.mem_cons_self)

/-- A text reads in one way. -/
theorem Reads.unique (h : Reads text pieces) (h' : Reads text pieces') : pieces = pieces' := by
  induction h generalizing pieces' with
  | done =>
    cases h' with
    | done => rfl
    | placeholder opens => cases opens.text_eq
  | percent _ ih =>
    cases h' with
    | percent after => rw [ih after]
    | placeholder opens => exact opens.not_percents.elim
    | char single => exact absurd rfl (single _)
  | placeholder opens _ ih =>
    cases h' with
    | done => cases opens.text_eq
    | percent => exact opens.not_percents.elim
    | placeholder opens' after =>
      obtain ⟨rfl, rfl⟩ := opens.unique opens'
      rw [ih after]
    | char _ plain => exact absurd opens (plain _ _)
  | char single plain _ ih =>
    cases h' with
    | percent => exact absurd rfl (single _)
    | placeholder opens => exact absurd opens (plain _ _)
    | char _ _ after => rw [ih after]

/-! ## The scanner -/

/-- Characters that are no percent signs stand for themselves. -/
theorem Reads.chars {cs : List Char} (plain : ∀ c ∈ cs, c ≠ '%') (after : Reads rest pieces) :
    Reads (cs ++ rest) (cs.map Piece.char ++ pieces) := by
  induction cs with
  | nil => exact after
  | cons c cs ih =>
    have here : c ≠ '%' := plain c List.mem_cons_self
    refine .char (fun rest' same => here (List.cons.inj same).1)
      (fun name rest' opens => here (List.cons.inj opens.text_eq).1) ?_
    exact ih fun c hc => plain c (List.mem_cons_of_mem _ hc)

/-- A percent sign stands for itself if the name after it comes to no end. -/
theorem Reads.unopened (named : ∀ c ∈ name, IsNameable c)
    (unclosed : rest = [] ∨ ∃ c rest', rest = c :: rest' ∧ c ≠ '%' ∧ ¬ IsNameable c)
    (after : Reads rest pieces) :
    Reads ('%' :: (name ++ rest)) (Piece.char '%' :: (name.map Piece.char ++ pieces)) := by
  refine .char (fun rest' same => ?_) (fun name' rest' opens => ?_)
    (.chars (fun c hc => (named c hc).1) after)
  · cases name with
    | nil =>
      rcases unclosed with rfl | ⟨c, _, rfl, other, -⟩
      · cases same
      · exact other (List.cons.inj (List.cons.inj same).2).1
    | cons c name => exact (named c List.mem_cons_self).1 (List.cons.inj (List.cons.inj same).2).1
  · have same := (List.cons.inj opens.text_eq).2
    rcases unclosed with rfl | ⟨c, _, rfl, other, ends⟩
    · have inside : '%' ∈ name := by
        rw [List.append_nil] at same
        simp [same]
      exact not_nameable_percent (named _ inside)
    · exact other (nameable_append_unique named opens.nameable ends not_nameable_percent same).2.1

/-- The text that the scanner has not read into pieces yet. -/
def unread : Option (List Char) → List Char → List Char
  | none, text => text
  | some opened, text => '%' :: (opened.reverse ++ text)

/-- From wherever it is, the scanner finds the pieces of what it has not read yet. -/
theorem reads_scan (opened : Option (List Char))
    (named : ∀ name, opened = some name → ∀ c ∈ name, IsNameable c) :
    Reads (unread opened text) (scan opened text) := by
  induction text generalizing opened with
  | nil =>
    cases opened with
    | none => exact .done
    | some opened =>
      have named : ∀ c ∈ opened.reverse, IsNameable c := fun c hc =>
        named opened rfl c (List.mem_reverse.1 hc)
      simpa [unread, scan] using Reads.unopened named (.inl rfl) .done
  | cons c text ih =>
    cases opened with
    | none =>
      by_cases percent : c = '%'
      · subst percent
        exact ih (some []) (by simp)
      · rw [scan, if_neg percent]
        exact .char (fun _ same => percent (List.cons.inj same).1)
          (fun _ _ opens => percent (List.cons.inj opens.text_eq).1) (ih none (by simp))
    | some opened =>
      have after : Reads text (scan none text) := ih none (by simp)
      have named : ∀ c ∈ opened.reverse, IsNameable c := fun c hc =>
        named opened rfl c (List.mem_reverse.1 hc)
      by_cases percent : c = '%'
      · subst percent
        cases opened with
        | nil => exact .percent after
        | cons x opened => exact .placeholder ⟨by simp, named, rfl⟩ after
      by_cases blank : Text.isBlank c = true
      · have unnamed : ¬ IsNameable c := fun h => by simp [h.2] at blank
        have here : Reads ([c] ++ text) ([c].map Piece.char ++ scan none text) :=
          .chars (by simpa using percent) after
        have ends := Reads.unopened named (.inr ⟨c, text, rfl, percent, unnamed⟩) here
        simpa [unread, scan, percent, blank] using ends
      · have next := ih (some (c :: opened)) (by
          rintro _ ⟨⟩ x hx
          rcases List.mem_cons.1 hx with rfl | hx
          · exact ⟨percent, by simpa using blank⟩
          · exact named x (List.mem_reverse.2 hx))
        simpa [unread, scan, percent, blank] using next

/-- The pieces of a text are those that the scanner finds. -/
theorem reads_iff {s : String} : Reads s.toList pieces ↔ ofText s = pieces := by
  have reads : Reads s.toList (ofText s) := reads_scan none (by simp)
  exact ⟨reads.unique, fun same => same ▸ reads⟩

end Wiring.Piece
