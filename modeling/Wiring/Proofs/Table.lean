import Wiring.Table
import Mathlib.Data.List.Nodup

/-!
# Tables

What a table gives for a name, and what the operations on tables make of the names.
-/

namespace Wiring.Table

variable {α β : Type} {t u v : Table α} {name other : String} {value : α}

theorem has_iff : t.has name = true ↔ name ∈ t.names := by
  simp [has, names]

theorem mem_of_get? (h : t.get? name = some value) : (name, value) ∈ t := by
  unfold get? at h
  obtain ⟨e, he, rfl⟩ := Option.map_eq_some_iff.1 h
  have : e.1 = name := by simpa using List.find?_some he
  exact this ▸ List.mem_of_find?_eq_some he

theorem get?_eq_none_iff : t.get? name = none ↔ name ∉ t.names := by
  simp only [get?, names, Option.map_eq_none_iff, List.find?_eq_none, List.mem_map, beq_iff_eq]
  exact ⟨fun h ⟨e, he, hn⟩ => h e he hn, fun h e he hn => h ⟨e, he, hn⟩⟩

theorem mem_names (h : (name, value) ∈ t) : name ∈ t.names :=
  List.mem_map_of_mem (f := Prod.fst) h

theorem exists_get? (h : name ∈ t.names) : ∃ value, t.get? name = some value := by
  cases hg : t.get? name with
  | none => exact absurd h (get?_eq_none_iff.1 hg)
  | some v => exact ⟨v, rfl⟩

theorem has_eq_isSome : t.has name = (t.get? name).isSome := by
  rw [Bool.eq_iff_iff, has_iff, Option.isSome_iff_ne_none, ne_eq, get?_eq_none_iff, not_not]

theorem get?_cons {e : String × α} :
    get? (e :: t) name = if e.1 = name then some e.2 else get? t name := by
  unfold get?
  rw [List.find?_cons]
  by_cases h : e.1 = name
  · simp [h]
  · rw [if_neg h, beq_eq_false_iff_ne.2 h]

theorem get?_append : get? (t ++ u) name = (get? t name).or (get? u name) := by
  induction t with
  | nil => rfl
  | cons e t ih =>
    rw [List.cons_append, get?_cons, get?_cons, ih]
    split <;> rfl

/-- Where no name stands twice, each entry is found. -/
theorem get?_of_mem (unique : t.names.Nodup) (h : (name, value) ∈ t) :
    t.get? name = some value := by
  induction t with
  | nil => cases h
  | cons e t ih =>
    rw [names, List.map_cons, List.nodup_cons] at unique
    rw [get?_cons]
    rcases List.mem_cons.1 h with rfl | h
    · simp
    · rw [if_neg (ne_of_mem_of_not_mem (mem_names h) unique.1).symm]
      exact ih unique.2 h

/-- Where no name stands twice, what stands under a name is one value at most. -/
theorem filterMap_name (unique : t.names.Nodup) :
    (t.filterMap fun e => if e.1 = name then some e.2 else none) = (t.get? name).toList := by
  induction t with
  | nil => rfl
  | cons e t ih =>
    obtain ⟨fresh, unique⟩ := List.nodup_cons.1 unique
    rw [List.filterMap_cons, get?_cons, ih unique]
    by_cases h : e.1 = name
    · subst h
      rw [if_pos rfl, if_pos rfl, get?_eq_none_iff.2 fresh]
      rfl
    · rw [if_neg h, if_neg h]

/-- The order of the entries does not count. -/
theorem get?_perm (unique : t.names.Nodup) (perm : t.Perm u) : u.get? name = t.get? name := by
  refine Option.ext fun v => ⟨fun h => ?_, fun h => ?_⟩
  · exact get?_of_mem unique (perm.mem_iff.2 (mem_of_get? h))
  · exact get?_of_mem ((perm.map Prod.fst).nodup_iff.1 unique) (perm.mem_iff.1 (mem_of_get? h))

/-- Tables in which no name stands twice have the same entries if they give the same. -/
theorem perm_of_get? (unique : t.names.Nodup) (unique' : u.names.Nodup)
    (same : ∀ name, u.get? name = t.get? name) : t.Perm u := by
  refine (List.perm_ext_iff_of_nodup (.of_map _ unique) (.of_map _ unique')).2 fun e => ?_
  constructor
  · exact fun he => mem_of_get? ((same e.1).trans (get?_of_mem unique he))
  · exact fun he => mem_of_get? ((same e.1).symm.trans (get?_of_mem unique' he))

theorem get?_map {β : Type} {f : α → β} :
    get? (t.map fun e => (e.1, f e.2)) name = (t.get? name).map f := by
  induction t with
  | nil => rfl
  | cons e t ih =>
    rw [List.map_cons, get?_cons, get?_cons, ih]
    split <;> rfl

/-- The table of names with what a function gives for each. -/
theorem get?_map_self {names : List String} {f : String → α} (h : name ∈ names) :
    get? (names.map fun n => (n, f n)) name = some (f name) := by
  induction names with
  | nil => cases h
  | cons n ns ih =>
    rw [List.map_cons, get?_cons]
    by_cases e : n = name
    · rw [if_pos e, e]
    · rw [if_neg e]
      exact ih ((List.mem_cons.1 h).resolve_left fun h => e h.symm)

theorem get?_isSome : (t.get? name).isSome = true ↔ name ∈ t.names := by
  rw [← has_eq_isSome, has_iff]

/-! ## Putting and removing -/

theorem names_remove : (t.remove name).names = t.names.filter fun n => !(n == name) := by
  rw [names, remove, names, List.filter_map]
  rfl

theorem names_put_of_mem (h : name ∈ t.names) : (t.put name value).names = t.names := by
  unfold put names
  rw [if_pos (has_iff.2 h), List.map_map]
  refine List.map_congr_left fun e _ => ?_
  by_cases he : e.1 = name <;> simp [he]

theorem names_put_of_not_mem (h : name ∉ t.names) : (t.put name value).names = t.names ++ [name] := by
  unfold put
  rw [if_neg (mt has_iff.1 h)]
  simp [names]

theorem mem_names_put : other ∈ (t.put name value).names ↔ other ∈ t.names ∨ other = name := by
  by_cases h : name ∈ t.names
  · rw [names_put_of_mem h]
    exact ⟨.inl, fun ho => ho.elim id fun e => e ▸ h⟩
  · rw [names_put_of_not_mem h]
    simp

theorem nodup_put (h : t.names.Nodup) : (t.put name value).names.Nodup := by
  by_cases hn : name ∈ t.names
  · rwa [names_put_of_mem hn]
  · rw [names_put_of_not_mem hn]
    exact List.nodup_append.2 ⟨h, by simp, fun x hx y hy =>
      List.mem_singleton.1 hy ▸ ne_of_mem_of_not_mem hx hn⟩

theorem get?_replace : get? (t.map fun e => if e.1 == name then (e.1, value) else e) other =
    (t.get? other).map fun v => if other = name then value else v := by
  induction t with
  | nil => rfl
  | cons e t ih =>
    rw [List.map_cons, get?_cons, get?_cons, ih]
    by_cases he : e.1 = name <;> by_cases ho : e.1 = other
    · subst he
      simp [ho]
    · simp [he, he ▸ ho]
    · subst ho
      simp [he]
    · simp [he, ho]

theorem get?_put : (t.put name value).get? other =
    if other = name then some value else t.get? other := by
  unfold put
  by_cases hn : name ∈ t.names
  · rw [if_pos (has_iff.2 hn), get?_replace]
    by_cases ho : other = name
    · obtain ⟨v, hv⟩ := exists_get? hn
      simp [ho, hv]
    · simp [ho]
  · rw [if_neg (mt has_iff.1 hn)]
    by_cases ho : other = name
    · subst ho
      have : t.get? other = none := get?_eq_none_iff.2 hn
      simp only [get?, Option.map_eq_none_iff] at this
      simp [get?, List.find?_append, this]
    · simp [get?, List.find?_append, ho, Ne.symm ho]

theorem mem_put {e : String × α} (h : e ∈ t.put name value) : e ∈ t ∨ e = (name, value) := by
  unfold put at h
  split at h
  · obtain ⟨f, hf, rfl⟩ := List.mem_map.1 h
    split
    next hn => exact .inr (by simp [beq_iff_eq.1 hn])
    · exact .inl hf
  · simpa using h

/-- Where no name stands twice, a value is put in place of the one that stands in the middle. -/
theorem put_middle {a b : α} (unique : (t ++ (name, a) :: u).names.Nodup) :
    put (t ++ (name, a) :: u) name b = t ++ (name, b) :: u := by
  have here : has (t ++ (name, a) :: u) name = true := has_iff.2 (by simp [names])
  have apart : ∀ e ∈ t ++ u, e.1 ≠ name := by
    rw [names, List.map_append, List.map_cons, List.nodup_middle, ← List.map_append] at unique
    intro e he same
    exact (List.nodup_cons.1 unique).1 (List.mem_map.2 ⟨e, he, same⟩)
  have kept (v : Table α) (hv : ∀ e ∈ v, e.1 ≠ name) :
      (v.map fun e => if e.1 == name then (e.1, b) else e) = v :=
    (List.map_congr_left fun e he => if_neg (by simpa using hv e he)).trans (List.map_id _)
  rw [put, if_pos here, List.map_append, List.map_cons,
    kept t fun e he => apart e (List.mem_append_left _ he),
    kept u fun e he => apart e (List.mem_append_right _ he)]
  simp

/-! ## Merging -/

theorem nodup_merge (h : t.names.Nodup) : (t.merge u).names.Nodup := by
  unfold merge
  induction u generalizing t with
  | nil => exact h
  | cons e u ih => exact ih (nodup_put h)

theorem merge_append : t.merge (u ++ v) = (t.merge u).merge v :=
  List.foldl_append

/-- Entries with new names go to the end as they are. -/
theorem merge_eq_append (unique : (t.names ++ u.names).Nodup) : t.merge u = t ++ u := by
  induction u generalizing t with
  | nil => exact (List.append_nil t).symm
  | cons e u ih =>
    have new : e.1 ∉ t.names := fun h =>
      (List.nodup_append.1 unique).2.2 e.1 h e.1 List.mem_cons_self rfl
    have put : t.put e.1 e.2 = t ++ [e] := by
      rw [Table.put, if_neg (fun h => new (has_iff.1 h))]
    have rest : ((t ++ [e]).names ++ names u).Nodup := by
      simpa [names] using unique
    rw [merge, List.foldl_cons, put, ← merge, ih rest, List.append_assoc]
    rfl

theorem mem_names_merge : name ∈ (t.merge u).names ↔ name ∈ t.names ∨ name ∈ u.names := by
  unfold merge
  induction u generalizing t with
  | nil => simp [names]
  | cons e u ih =>
    rw [List.foldl_cons, ih, mem_names_put, or_assoc]
    exact or_congr_right List.mem_cons.symm

/-- New names come after those that are there. -/
theorem names_merge (unique : u.names.Nodup) :
    (t.merge u).names = t.names ++ u.names.filter fun n => !t.names.contains n := by
  unfold merge
  induction u generalizing t with
  | nil => simp [names]
  | cons e u ih =>
    obtain ⟨new, unique⟩ := List.nodup_cons.1 unique
    have split : names (e :: u) = e.1 :: names u := rfl
    rw [List.foldl_cons, ih unique, split]
    by_cases there : e.1 ∈ t.names
    · rw [names_put_of_mem there, List.filter_cons_of_neg (by simpa using there)]
    · have rest : (names u).filter (fun n => !(t.names ++ [e.1]).contains n) =
          (names u).filter fun n => !t.names.contains n :=
        List.filter_congr fun n hn => by simp [ne_of_mem_of_not_mem hn new]
      rw [names_put_of_not_mem there, rest, List.filter_cons_of_pos (by simpa using there)]
      exact List.append_assoc _ _ _

/-- What is put in wins over what is there. -/
theorem get?_merge (unique : u.names.Nodup) :
    (t.merge u).get? name = (u.get? name).or (t.get? name) := by
  unfold merge
  induction u generalizing t with
  | nil => rfl
  | cons e u ih =>
    obtain ⟨new, unique⟩ := List.nodup_cons.1 unique
    rw [List.foldl_cons, ih unique, get?_put, get?_cons]
    by_cases same : e.1 = name
    · have none : get? u name = none := get?_eq_none_iff.2 (same ▸ new)
      simp [same, none]
    · simp [same, Ne.symm same]

/-- Tables with the same names in the same order are the same if they give the same. -/
theorem ext_get? (unique : t.names.Nodup) (ordered : u.names = t.names)
    (same : ∀ name, u.get? name = t.get? name) : u = t := by
  refine List.ext_getElem (by simpa [names] using congrArg List.length ordered) fun i hu ht => ?_
  have name : u[i].1 = t[i].1 := by
    have := List.getElem_of_eq ordered (by simpa [names] using hu)
    simpa [names] using this
  have found : u.get? u[i].1 = some u[i].2 := get?_of_mem (ordered ▸ unique) (List.getElem_mem hu)
  have found' : t.get? t[i].1 = some t[i].2 := get?_of_mem unique (List.getElem_mem ht)
  rw [name, same, found'] at found
  exact Prod.ext name (Option.some.inj found).symm

/-- A table that was merged with another is not changed by being put into the first once more. -/
theorem merge_merge (ht : t.names.Nodup) (hu : u.names.Nodup) :
    t.merge (t.merge u) = t.merge u := by
  have unique := nodup_merge (u := u) ht
  refine ext_get? unique ?_ fun name => ?_
  · rw [names_merge unique, names_merge hu, List.filter_append]
    simp
  · rw [get?_merge unique, get?_merge hu]
    cases u.get? name <;> cases t.get? name <;> rfl

theorem merge_self (ht : t.names.Nodup) : t.merge t = t := by
  refine ext_get? ht ?_ fun name => ?_
  · rw [names_merge ht]
    simp
  · rw [get?_merge ht]
    cases t.get? name <;> rfl

theorem mem_merge {e : String × α} (h : e ∈ t.merge u) : e ∈ t ∨ e ∈ u := by
  unfold merge at h
  induction u generalizing t with
  | nil => exact .inl h
  | cons f u ih =>
    rcases ih h with h | h
    · exact (mem_put h).imp_right fun h => List.mem_cons.2 (.inl h)
    · exact .inr (List.mem_cons_of_mem f h)

end Wiring.Table
