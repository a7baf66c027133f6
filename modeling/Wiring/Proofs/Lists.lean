import Mathlib.Data.List.Chain
import Mathlib.Data.List.Forall2
import Mathlib.Data.List.Induction
import Mathlib.Data.List.Nodup
import Mathlib.Data.List.Perm.Subperm

/-!
# Lists side by side, and chains

Relations between the entries of two lists, place by place: what they say about single entries, and
how they compose. Entries that are found again in other places. Lists in which each entry is related
to the next: what closes them. Lists of which each entry is kept that equals no earlier one.
-/

namespace Wiring

variable {α β γ δ : Type} {R : α → β → Prop} {S : β → γ → Prop}

theorem forall₂_mem_left {as : List α} {bs : List β} (h : List.Forall₂ R as bs) {a : α}
    (ha : a ∈ as) : ∃ b ∈ bs, R a b := by
  induction h with
  | nil => cases ha
  | cons hab _ ih =>
    rcases List.mem_cons.1 ha with rfl | ha
    · exact ⟨_, List.mem_cons_self, hab⟩
    · obtain ⟨b, hb, hab⟩ := ih ha
      exact ⟨b, List.mem_cons_of_mem _ hb, hab⟩

theorem forall₂_mem_right {as : List α} {bs : List β} (h : List.Forall₂ R as bs) {b : β}
    (hb : b ∈ bs) : ∃ a ∈ as, R a b :=
  forall₂_mem_left (R := fun b a => R a b) h.flip hb

theorem forall₂_getElem? {as : List α} {bs : List β} (h : List.Forall₂ R as bs) {j : Nat} {b : β}
    (hb : bs[j]? = some b) : ∃ a, as[j]? = some a ∧ R a b := by
  induction h generalizing j with
  | nil => cases hb
  | cons hab _ ih =>
    cases j with
    | zero =>
      obtain rfl := Option.some.inj hb
      exact ⟨_, rfl, hab⟩
    | succ j => exact ih hb

theorem forall₂_comp {as : List α} {bs : List β} {cs : List γ} (h : List.Forall₂ R as bs)
    (h' : List.Forall₂ S bs cs) : List.Forall₂ (fun a c => ∃ b, R a b ∧ S b c) as cs := by
  induction h generalizing cs with
  | nil => cases h'; exact .nil
  | cons hab _ ih =>
    obtain - | ⟨hbc, h'⟩ := h'
    exact .cons ⟨_, hab, hbc⟩ (ih h')

/-- What is related through entries in between is related to lists of them. -/
theorem forall₂_split {as : List α} {cs : List γ}
    (h : List.Forall₂ (fun a c => ∃ b, R a b ∧ S b c) as cs) :
    ∃ bs, List.Forall₂ R as bs ∧ List.Forall₂ S bs cs := by
  induction h with
  | nil => exact ⟨[], .nil, .nil⟩
  | cons hac _ ih =>
    obtain ⟨b, hab, hbc⟩ := hac
    obtain ⟨bs, h, h'⟩ := ih
    exact ⟨b :: bs, .cons hab h, .cons hbc h'⟩

theorem forall₂_imp_mem {R S : α → β → Prop} {as : List α} {bs : List β}
    (h : List.Forall₂ R as bs) (imp : ∀ a ∈ as, ∀ b, R a b → S a b) : List.Forall₂ S as bs := by
  induction h with
  | nil => exact .nil
  | cons hab _ ih =>
    exact .cons (imp _ List.mem_cons_self _ hab) (ih fun a ha => imp a (List.mem_cons_of_mem _ ha))

/-- Relations that agree on the entries of a list agree on the list. -/
theorem forall₂_congr_mem {R S : α → β → Prop} {as : List α} {bs : List β}
    (h : ∀ a ∈ as, ∀ b, R a b ↔ S a b) : List.Forall₂ R as bs ↔ List.Forall₂ S as bs := by
  induction as generalizing bs with
  | nil => cases bs <;> simp
  | cons a as ih =>
    cases bs with
    | nil => simp
    | cons b bs =>
      rw [List.forall₂_cons, List.forall₂_cons, h a List.mem_cons_self,
        ih fun c hc => h c (List.mem_cons_of_mem a hc)]

/-- A partner for each entry makes a list of partners. -/
theorem forall₂_exists {as : List α} (h : ∀ a ∈ as, ∃ b, R a b) : ∃ bs, List.Forall₂ R as bs := by
  induction as with
  | nil => exact ⟨[], .nil⟩
  | cons a as ih =>
    obtain ⟨b, hb⟩ := h a List.mem_cons_self
    obtain ⟨bs, hbs⟩ := ih fun c hc => h c (List.mem_cons_of_mem a hc)
    exact ⟨b :: bs, .cons hb hbs⟩

theorem forall₂_map_eq {f : α → γ} {g : β → γ} {as : List α} {bs : List β} :
    List.Forall₂ (fun a b => f a = g b) as bs ↔ as.map f = bs.map g := by
  rw [← List.forall₂_eq_eq_eq, List.forall₂_map_left_iff, List.forall₂_map_right_iff]

/-- What the entries yield is the same list of lists, so it is the same list. -/
theorem forall₂_flatMap_eq {f : α → List γ} {g : β → List γ} {as : List α} {bs : List β}
    (h : List.Forall₂ (fun a b => f a = g b) as bs) : as.flatMap f = bs.flatMap g := by
  rw [List.flatMap_def, List.flatMap_def, forall₂_map_eq.1 h]

/-- The entries that pass tests stand side by side. -/
theorem forall₂_filter {p : α → Bool} {q : β → Bool} {as : List α} {bs : List β}
    (h : List.Forall₂ R as bs) (agree : ∀ a b, R a b → p a = q b) :
    List.Forall₂ R (as.filter p) (bs.filter q) :=
  List.rel_filter (fun a b hab => by
    show p a = true ↔ q b = true
    rw [agree a b hab]) h

/-- The first entries that tests agree on stand side by side. -/
theorem forall₂_find? {p : α → Bool} {q : β → Bool} {as : List α} {bs : List β}
    (h : List.Forall₂ R as bs) (agree : ∀ a b, R a b → p a = q b) :
    Option.Rel R (as.find? p) (bs.find? q) := by
  induction h with
  | nil => exact .none
  | @cons a b as bs hab _ ih =>
    rw [List.find?_cons, List.find?_cons, agree a b hab]
    cases q b with
    | true => exact .some hab
    | false => exact ih

/-! ## Entries and their places -/

/-- An entry is found by its key, where no two entries have one. -/
theorem find?_of_nodup [BEq β] [LawfulBEq β] {key : α → β} {as : List α} {a : α}
    (unique : (as.map key).Nodup) (h : a ∈ as) : as.find? (fun b => key b == key a) = some a := by
  cases found : as.find? fun b => key b == key a with
  | none => simpa using List.find?_eq_none.1 found a h
  | some b =>
    have same : key b = key a := by simpa using List.find?_some found
    rw [List.inj_on_of_nodup_map unique (List.mem_of_find?_eq_some found) h same]

/-- What the entries that pass a test yield. -/
theorem flatMap_filter {p : α → Bool} {f : α → List β} {as : List α} :
    (as.filter p).flatMap f = as.flatMap fun a => if p a then f a else [] := by
  induction as with
  | nil => rfl
  | cons a as ih =>
    rw [List.filter_cons, List.flatMap_cons, ← ih]
    split <;> rfl

theorem getElem?_more {as : List α} {a : α} {n : Nat} (bs : List α) (h : as[n]? = some a) :
    (as ++ bs)[n]? = some a := by
  grind

/-- What is in the lists of two entries is in one list twice, or the entries are one. -/
theorem index_eq_of_nodup_flatMap {f : α → List β} {as : List α} {a b : α} {x : β} {i j : Nat}
    (nodup : (as.flatMap f).Nodup) (hi : as[i]? = some a) (hj : as[j]? = some b)
    (ha : x ∈ f a) (hb : x ∈ f b) : i = j := by
  have apart {i j : Nat} {a b : α} (hi : as[i]? = some a) (hj : as[j]? = some b) (ha : x ∈ f a)
      (hb : x ∈ f b) (lt : i < j) : False := by
    obtain ⟨below, rfl⟩ := List.getElem?_eq_some_iff.1 hi
    obtain ⟨below', rfl⟩ := List.getElem?_eq_some_iff.1 hj
    exact List.pairwise_iff_getElem.1 (List.nodup_flatMap.1 nodup).2 i j below below' lt ha hb
  rcases Nat.lt_trichotomy i j with lt | same | lt
  · exact (apart hi hj ha hb lt).elim
  · exact same
  · exact (apart hj hi hb ha lt).elim

/-- Lists have the same entries if these are found in one another's places. -/
theorem perm_map_of_places {as : List α} {bs : List β} {f : α → β} {ρ : Nat → Nat}
    (injective : Function.Injective ρ) (places : ∀ n a, as[n]? = some a → bs[ρ n]? = some (f a))
    (all : ∀ n < bs.length, ∃ m < as.length, ρ m = n) : bs.Perm (as.map f) := by
  have listed {γ : Type} (cs : List γ) : cs.map some = (List.range cs.length).map (cs[·]?) :=
    List.ext_getElem (by simp) (by simp)
  have numbers : (List.range bs.length).Perm ((List.range as.length).map ρ) := by
    refine (List.perm_ext_iff_of_nodup List.nodup_range
      (List.nodup_range.map injective)).2 fun n => ?_
    rw [List.mem_range, List.mem_map]
    constructor
    · intro lt
      obtain ⟨m, hm, rfl⟩ := all n lt
      exact ⟨m, List.mem_range.2 hm, rfl⟩
    · rintro ⟨m, hm, rfl⟩
      exact (List.getElem?_eq_some_iff.1 (places m _ (List.getElem?_eq_getElem
        (List.mem_range.1 hm)))).1
  refine (List.map_perm_map_iff fun _ _ => Option.some.inj).1 ?_
  rw [listed bs]
  refine (numbers.map _).trans (List.Perm.of_eq ?_)
  rw [listed (as.map f), List.map_map, List.length_map]
  refine List.map_congr_left fun n hn => ?_
  obtain ⟨a, ha⟩ : ∃ a, as[n]? = some a := ⟨_, List.getElem?_eq_getElem (List.mem_range.1 hn)⟩
  rw [List.getElem?_map, ha]
  exact places n a ha

/-! ## Chains -/

section Chains

variable {r : α → α → Prop} {a b : α}

/-- The first entry of a chain leads to the last. -/
theorem transGen_of_isChain {between : List α} (chain : (a :: between ++ [b]).IsChain r) :
    Relation.TransGen r a b := by
  induction between generalizing a with
  | nil => exact .single (List.isChain_cons_cons.1 chain).1
  | cons c between ih =>
    obtain ⟨first, rest⟩ := List.isChain_cons_cons.1 chain
    exact .head first (ih rest)

/-- A chain that comes to one of its entries again is closed from that entry on. -/
theorem exists_closed_chain [BEq α] [LawfulBEq α] {as : List α} (chain : (as ++ [a]).IsChain r)
    (again : a ∈ as) :
    ∃ between, as.drop (as.idxOf a) = a :: between ∧ (a :: between ++ [a]).IsChain r := by
  have here : as.idxOf a < as.length := List.idxOf_lt_length_iff.2 again
  have head : as.drop (as.idxOf a) = a :: as.drop (as.idxOf a + 1) := by
    rw [List.drop_eq_getElem_cons here, List.getElem_idxOf here]
  have suffix := chain.drop (as.idxOf a)
  rw [List.drop_append_of_le_length (Nat.le_of_lt here), head] at suffix
  exact ⟨as.drop (as.idxOf a + 1), head, suffix⟩

end Chains

/-! ## Different entries -/

section Push

variable {α : Type} {chain all : List α} {id : α}

theorem nodup_push (nodup : chain.Nodup) (new : id ∉ chain) : (chain ++ [id]).Nodup :=
  List.nodup_append.2 ⟨nodup, by simp, fun _ hx _ hy =>
    List.mem_singleton.1 hy ▸ ne_of_mem_of_not_mem hx new⟩

theorem push_subset (inside : chain ⊆ all) (there : id ∈ all) : chain ++ [id] ⊆ all :=
  List.append_subset.2 ⟨inside, fun _ hx => List.mem_singleton.1 hx ▸ there⟩

/-- A chain that leaves something out is shorter than the whole. -/
theorem length_lt_of_push (nodup : chain.Nodup) (inside : chain ⊆ all) (new : id ∉ chain)
    (there : id ∈ all) : chain.length < all.length := by
  have few := (List.subperm_of_subset (nodup_push nodup new) (push_subset inside there)).length_le
  rw [List.length_append, List.length_singleton] at few
  omega

end Push

/-! ## New entries -/

/-- Keeps an entry that equals none of those that are kept. -/
def keepNew (same : α → α → Bool) (kept : List α) (a : α) : List α :=
  if kept.any (same a) then kept else kept ++ [a]

theorem mem_of_mem_keepNew {same : α → α → Bool} {as : List α} {a : α}
    (ha : a ∈ as.foldl (keepNew same) []) : a ∈ as := by
  induction as using List.reverseRecOn with
  | nil => exact ha
  | append_singleton as b ih =>
    rw [List.foldl_concat, keepNew] at ha
    split at ha
    · exact List.mem_append_left _ (ih ha)
    · exact (List.mem_append.1 ha).elim (fun ha => List.mem_append_left _ (ih ha))
        (List.mem_append_right _)

end Wiring
