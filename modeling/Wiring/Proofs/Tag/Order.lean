import Mathlib.Data.List.Flatten
import Wiring.Proofs.Sort.Texts
import Wiring.Proofs.Tag.Index

/-!
# The order of tagged services

Where every priority is a number, services have their places by priority and identifier alone. So
what is sorted does not depend on the order that it was found in. The priority that counts for a
service is the highest that it has under the tag.
-/

namespace Wiring

namespace Level

variable {x y z : Level}

theorem lt_trans (h : x.lt y = true) (h' : y.lt z = true) : x.lt z = true := by
  cases x <;> cases y <;> cases z <;> simp_all [lt]
  exact Int.lt_trans h h'

theorem lt_or (ne : x ≠ y) : x.lt y = true ∨ y.lt x = true := by
  cases x <;> cases y <;> simp_all [lt]

theorem lt_irrefl (x : Level) : x.lt x = false := by cases x <;> simp [lt]

theorem lt_asymm (h : x.lt y = true) : y.lt x = false := by
  rw [← Bool.not_eq_true]
  exact fun h' => Bool.false_ne_true ((lt_irrefl x).symm.trans (lt_trans h h'))

/-- What is not above a level is below all that is. -/
theorem lt_of_not (h : x.lt y = true) (h' : x.lt z = false) : z.lt y = true := by
  by_cases e : x = z
  · exact e ▸ h
  · exact lt_trans ((lt_or e).resolve_left (by simp [h'])) h

end Level

theorem Number.lt_eq {a b : Number} {x y : Level} (ha : a.level? = some x) (hb : b.level? = some y) :
    a.lt b = x.lt y := by
  cases a with
  | whole a =>
    cases b with
    | whole b =>
      obtain rfl := Option.some.inj ha
      obtain rfl := Option.some.inj hb
      have positive : (0 : Int) < Binary64.unitsPerOne := by
        unfold Binary64.unitsPerOne
        generalize Binary64.unitScale = scale
        exact Int.natCast_pos.2 (Nat.pow_pos (by decide))
      simp only [lt, Level.lt, Int.mul_lt_mul_right positive]
    | real b => simp [lt, ha, hb]
  | real a => simp [lt, ha, hb]

@[simp] theorem Number.isNaN_whole (n : Int) : (whole n).isNaN = false := rfl

@[simp] theorem Number.isNaN_infinite (negative : Bool) :
    (real (.infinite negative)).isNaN = false := rfl

@[simp] theorem Number.lt_whole (m n : Int) : (whole m).lt (whole n) = decide (m < n) := rfl

@[simp] theorem Number.lt_infinite (n : Int) : (whole n).lt (real (.infinite false)) = true := rfl

@[simp] theorem Number.infinite_lt (n : Int) : (real (.infinite false)).lt (whole n) = false := rfl

theorem Number.exists_level {a : Number} (ha : a.isNaN = false) : ∃ x, a.level? = some x :=
  Option.isSome_iff_exists.1 (by simpa [Number.isNaN] using ha)

theorem Number.lt_irrefl {a : Number} (ha : a.isNaN = false) : a.lt a = false := by
  obtain ⟨x, hx⟩ := Number.exists_level ha
  rw [Number.lt_eq hx hx]
  exact Level.lt_irrefl x

/-- A number that another one is not below is not above what is above the other. -/
theorem Number.not_lt_of_lt {a b c : Number} (ha : a.isNaN = false) (hb : b.isNaN = false)
    (hc : c.isNaN = false) (h : a.lt b = true) (h' : a.lt c = false) : b.lt c = false := by
  obtain ⟨x, hx⟩ := Number.exists_level ha
  obtain ⟨y, hy⟩ := Number.exists_level hb
  obtain ⟨z, hz⟩ := Number.exists_level hc
  rw [Number.lt_eq hx hy] at h
  rw [Number.lt_eq hx hz] at h'
  rw [Number.lt_eq hy hz]
  exact Level.lt_asymm (Level.lt_of_not h h')

/-- The place of a service: its level, then its identifier. -/
abbrev Place := Level × String

namespace Place

/-- Whether `a` comes no later than `b`: higher levels come first. -/
def le (a b : Place) : Bool := b.1.lt a.1 || (a.1 == b.1 && decide (a.2 ≤ b.2))

theorem le_trans (a b c : Place) (h : le a b = true) (h' : le b c = true) : le a c = true := by
  simp only [le, Bool.or_eq_true, Bool.and_eq_true, beq_iff_eq, decide_eq_true_iff] at *
  rcases h with h | ⟨e, h⟩ <;> rcases h' with h' | ⟨e', h'⟩
  · exact .inl (Level.lt_trans h' h)
  · exact .inl (e' ▸ h)
  · exact .inl (e ▸ h')
  · exact .inr ⟨e.trans e', String.le_trans h h'⟩

theorem le_total (a b : Place) : (le a b || le b a) = true := by
  simp only [le, Bool.or_eq_true, Bool.and_eq_true, beq_iff_eq, decide_eq_true_iff]
  by_cases e : a.1 = b.1
  · exact (String.le_total a.2 b.2).imp (fun h => .inr ⟨e, h⟩) fun h => .inr ⟨e.symm, h⟩
  · exact (Level.lt_or e).symm.imp .inl .inl

theorem le_antisymm (a b : Place) (h : le a b = true) (h' : le b a = true) : a = b := by
  simp only [le, Bool.or_eq_true, Bool.and_eq_true, beq_iff_eq, decide_eq_true_iff] at *
  rcases h with h | ⟨e, h⟩ <;> rcases h' with h' | ⟨e', h'⟩
  · exact absurd h' (by simp [Level.lt_asymm h])
  · exact absurd h (by simp [e', Level.lt_irrefl])
  · exact absurd h' (by simp [e, Level.lt_irrefl])
  · exact Prod.ext e (String.le_antisymm h h')

end Place

namespace Rank

/-- The place of a rank whose priority is a number. -/
def place (r : Rank) : Place := (r.priority.level?.getD .lowest, r.service)

theorem not_before {a b : Rank} (ha : a.priority.isNaN = false) (hb : b.priority.isNaN = false) :
    (!b.before a) = a.place.le b.place := by
  obtain ⟨x, hx⟩ := Number.exists_level ha
  obtain ⟨y, hy⟩ := Number.exists_level hb
  have lt := Number.lt_eq hx hy
  have gt := Number.lt_eq hy hx
  unfold before place Place.le
  simp only [ha, hb, hx, hy, lt, gt, Option.getD_some, Bool.or_false]
  by_cases e : x = y
  · subst e
    simp only [Level.lt_irrefl, Bool.false_eq_true, if_false, Bool.false_or, BEq.rfl, Bool.true_and,
      ← String.not_le, decide_not, Bool.not_not]
  · rcases Level.lt_or e with h | h
    · simp [h, Level.lt_asymm h, e]
    · simp [h, Level.lt_asymm h]

/-- Where every priority is a number, services are sorted by their places. -/
theorem places_sort {α : Type} {rank : α → Rank} {entries : List α}
    (numbers : ∀ e ∈ entries, (rank e).priority.isNaN = false) :
    (sort rank entries).map (fun e => (rank e).place) =
      (entries.map fun e => (rank e).place).mergeSort Place.le := by
  have none : (entries.any fun e => (rank e).priority.isNaN) = false := by
    simpa using numbers
  unfold sort
  rw [none, if_neg Bool.false_ne_true]
  exact List.map_mergeSort fun a ha b hb => not_before (numbers a ha) (numbers b hb)

/-- The services in order do not depend on the order that they are found in. -/
theorem services_sort {α : Type} {rank : α → Rank} {as bs : List α} (perm : as.Perm bs)
    (numbers : ∀ e ∈ as, (rank e).priority.isNaN = false) :
    (sort rank bs).map (fun e => (rank e).service) =
      (sort rank as).map fun e => (rank e).service := by
  have numbers' : ∀ e ∈ bs, (rank e).priority.isNaN = false :=
    fun e he => numbers e (perm.mem_iff.2 he)
  have same : (sort rank bs).map (fun e => (rank e).place) =
      (sort rank as).map fun e => (rank e).place := by
    rw [places_sort numbers, places_sort numbers']
    exact (mergeSort_eq_of_perm Place.le_trans Place.le_total Place.le_antisymm (perm.map _)).symm
  simpa [Function.comp_def, place] using congrArg (List.map Prod.snd) same

end Rank

/-! ## The highest priority -/

/-- A label is a tag, and its priority is a number. -/
def Label.Ranked (l : Label) : Prop := ∃ t p, l = .tag t ∧ t.priority = .ok p ∧ p.isNaN = false

/-- The highest of the priorities that labels have under a tag. -/
structure Label.Highest (labels : List Label) (tag : String) (p : Number) : Prop where
  attained : ∃ t, .tag t ∈ labels ∧ t.name = tag ∧ t.priority = .ok p
  above : ∀ t, .tag t ∈ labels → t.name = tag → ∀ q, t.priority = .ok q → p.lt q = false

theorem Label.Highest.number {labels : List Label} {tag : String} {p : Number}
    (h : Label.Highest labels tag p) (ranked : ∀ l ∈ labels, l.Ranked) : p.isNaN = false := by
  obtain ⟨t, ht, -, hp⟩ := h.attained
  obtain ⟨u, q, same, hq, number⟩ := ranked _ ht
  obtain rfl := Label.tag.inj same
  exact Except.ok.inj (hq.symm.trans hp) ▸ number

/-- Labels have one highest priority under a tag, however it is written. -/
theorem Label.Highest.exists_level {labels : List Label} {tag : String} {p q : Number}
    (hp : Label.Highest labels tag p) (hq : Label.Highest labels tag q)
    (ranked : ∀ l ∈ labels, l.Ranked) : ∃ x, p.level? = some x ∧ q.level? = some x := by
  obtain ⟨x, hx⟩ := Number.exists_level (hp.number ranked)
  obtain ⟨y, hy⟩ := Number.exists_level (hq.number ranked)
  obtain ⟨t, ht, hn, hp'⟩ := hp.attained
  obtain ⟨u, hu, hn', hq'⟩ := hq.attained
  have below := hp.above u hu hn' q hq'
  have below' := hq.above t ht hn p hp'
  rw [Number.lt_eq hx hy] at below
  rw [Number.lt_eq hy hx] at below'
  have same : x = y := by
    by_contra ne
    rcases Level.lt_or ne with h | h
    · simp [h] at below
    · simp [h] at below'
  exact ⟨x, hx, same ▸ hy⟩

namespace TagIndex

open Graph

variable {d : Definition} {best : Table Tagged} {tag : String}

/-- The entry of a definition under a tag has the highest of its priorities there. -/
theorem highest_of_bestEntries (ranked : ∀ l ∈ d.tags, l.Ranked) (h : bestEntries d = .ok best) :
    ∀ tag e, best.get? tag = some e → Label.Highest d.tags tag e.priority := by
  refine (bestEntries_induct (fun done best => Entries d done best ∧ ((∀ l ∈ done, l.Ranked) →
    ∀ tag e, best.get? tag = some e → Label.Highest done tag e.priority)) h
    ⟨.nil, by simp [Table.get?]⟩ fun done best t p both hp => ?_).2 ranked
  obtain ⟨entries, inv⟩ := both
  refine ⟨entries.takeTag hp, fun ranked name e he => ?_⟩
  have inv := inv fun l hl => ranked l (List.mem_append_left _ hl)
  have number {u : Tag} {q : Number} (hu : .tag u ∈ done ++ [.tag t]) (hq : u.priority = .ok q) :
      q.isNaN = false := by
    obtain ⟨v, r, same, hr, number⟩ := ranked _ hu
    obtain rfl := Label.tag.inj same
    exact Except.ok.inj (hr.symm.trans hq) ▸ number
  rw [get?_takeTag] at he
  split at he
  next higher =>
    obtain ⟨rfl, higher⟩ := higher
    obtain rfl := Option.some.inj he
    refine ⟨⟨t, by simp, rfl, hp⟩, fun u hu hn q hq => ?_⟩
    rcases List.mem_append.1 hu with earlier | last
    · obtain ⟨e, he⟩ := Table.exists_get? (entries.complete u earlier)
      rw [hn] at he
      obtain ⟨⟨v, hv, -, hr⟩, above⟩ := inv t.name e he
      rw [he] at higher
      exact Number.not_lt_of_lt (number (List.mem_append_left _ hv) hr) (number (by simp) hp)
        (number hu hq) higher (above u earlier hn q hq)
    · obtain rfl := Label.tag.inj (List.mem_singleton.1 last)
      obtain rfl := Except.ok.inj (hp.symm.trans hq)
      exact Number.lt_irrefl (number hu hq)
  next lower =>
    obtain ⟨⟨u, hu, hn, hq⟩, above⟩ := inv name e he
    refine ⟨⟨u, List.mem_append_left _ hu, hn, hq⟩, fun v hv hn' r hr => ?_⟩
    rcases List.mem_append.1 hv with hv | hv
    · exact above v hv hn' r hr
    · obtain rfl := Label.tag.inj (List.mem_singleton.1 hv)
      obtain rfl := Except.ok.inj (hp.symm.trans hr)
      simpa [hn', he] using lower

/-- What a definition has under a tag has the highest of its priorities there. -/
theorem entriesUnder_highest (ranked : ∀ l ∈ d.tags, l.Ranked) {e : Tagged}
    (he : e ∈ entriesUnder tag d) : e.service = d.id ∧ Label.Highest d.tags tag e.priority ∧
      e.priority.isNaN = false := by
  cases hb : bestEntries d with
  | error => simp [entriesUnder, hb] at he
  | ok best =>
    rw [entriesUnder_eq hb, Option.mem_toList] at he
    have highest := highest_of_bestEntries ranked hb tag e he
    exact ⟨((bestEntries_entries hb).sound tag e he).1, highest, highest.number ranked⟩

/-- Services are found under a tag once for each definition. -/
theorem services_nodup {ds : List Definition} (unique : (ds.map (·.id)).Nodup) :
    ((ds.flatMap (entriesUnder tag)).map (·.service)).Nodup := by
  rw [List.map_flatMap]
  rw [List.map_eq_flatMap] at unique
  refine (List.Sublist.flatMap_right ds fun d _ => ?_).nodup unique
  cases hb : bestEntries d with
  | error => simp [entriesUnder, hb]
  | ok best =>
    rw [entriesUnder_eq hb]
    cases he : best.get? tag with
    | none => simp
    | some e => simp [((bestEntries_entries hb).sound tag e he).1]

/-- Sorted entries follow one another by priority, and by identifier where they tie. -/
theorem pairwise_sort {entries : List Tagged}
    (numbers : ∀ e ∈ entries, e.priority.isNaN = false)
    (once : (entries.map (·.service)).Nodup) :
    (Tagged.sort entries).Pairwise fun e f =>
      f.priority.lt e.priority = true ∨ e.priority.lt f.priority = false ∧ e.service < f.service := by
  have perm : (Tagged.sort entries).Perm entries := Rank.sort_perm _ _
  have places : ((Tagged.sort entries).map fun e => e.rank.place).Pairwise
      fun a b => Place.le a b = true := by
    rw [Tagged.sort, Rank.places_sort numbers]
    exact List.pairwise_mergeSort Place.le_trans Place.le_total _
  have apart : (Tagged.sort entries).Pairwise fun e f => e.service ≠ f.service :=
    List.pairwise_map.1 ((perm.map _).nodup_iff.2 once)
  refine (List.Pairwise.and (List.pairwise_map.1 places) apart).imp_of_mem fun {e f} he hf h => ?_
  obtain ⟨h, ne⟩ := h
  obtain ⟨x, hx⟩ := Number.exists_level (numbers e (perm.mem_iff.1 he))
  obtain ⟨y, hy⟩ := Number.exists_level (numbers f (perm.mem_iff.1 hf))
  rw [Number.lt_eq hx hy, Number.lt_eq hy hx]
  simp only [Place.le, Rank.place, Tagged.rank, hx, hy, Option.getD_some, Bool.or_eq_true,
    Bool.and_eq_true, beq_iff_eq, decide_eq_true_iff] at h
  refine h.imp_right fun ⟨same, le⟩ => ⟨same ▸ Level.lt_irrefl x, ?_⟩
  exact String.not_le.1 fun ge => ne (String.le_antisymm le ge)

end TagIndex

end Wiring
