import Wiring.Tag.Order
import Mathlib.Algebra.Order.Group.Multiset
import Mathlib.Tactic.SplitIfs

/-!
# Sorting keeps the entries

Whatever the comparisons say, sorting by runs only moves entries about. What lies in a merge or in a
sort under way is counted as a multiset, which no step changes.
-/

namespace Wiring.Sort

variable {α : Type} {before : α → α → Bool}

theorem take_add_drop (l : List α) (n : Nat) :
    ((l.take n : Multiset α) + (l.drop n : Multiset α)) = (l : Multiset α) := by
  rw [Multiset.coe_add, List.take_append_drop]

/-! ## Merging -/

namespace Front

/-- What lies in a merge from the front. -/
def entries (m : Front α) : Multiset α := ↑m.done.toList + ↑m.first + ↑m.second

@[simp] theorem entries_patience (m : Front α) (n : Nat) :
    entries { m with patience := n } = m.entries := rfl

@[simp] theorem entries_takeFirst (m : Front α) (n : Nat) : (m.takeFirst n).entries = m.entries := by
  simp only [entries, takeFirst, Array.toList_append, ← Multiset.coe_add,
    ← take_add_drop m.first n]
  simp only [add_assoc]

@[simp] theorem entries_takeSecond (m : Front α) (n : Nat) :
    (m.takeSecond n).entries = m.entries := by
  simp only [entries, takeSecond, Array.toList_append, ← Multiset.coe_add,
    ← take_add_drop m.second n]
  ac_rfl

@[simp] theorem entries_close (m : Front α) : (m.close.1.toList : Multiset α) = m.entries := by
  simp [entries, close, ← Multiset.coe_add, add_assoc]

@[simp] theorem entries_closeWithFirst (m : Front α) :
    (m.closeWithFirst.1.toList : Multiset α) = m.entries := by
  simp only [entries, closeWithFirst, Array.toList_append, ← Multiset.coe_add]
  ac_rfl

@[simp] theorem entries_run (room : Nat) (wins : Option (Nat × Nat)) (m : Front α) :
    ((run before room wins m).1.toList : Multiset α) = m.entries := by
  induction room generalizing wins m with
  | zero => simp [run]
  | succ room ih =>
    cases wins with
    | none =>
      unfold run
      simp only []
      split_ifs <;> simp [ih]
    | some w =>
      unfold run
      cases m.first <;> cases m.second <;> simp only [] <;> (try split_ifs) <;> simp [ih]

theorem entries_merge (first second : List α) (patience : Nat) :
    ((merge before first second patience).1.toList : Multiset α) = ↑first + ↑second := by
  have start : (takeSecond ⟨#[], first, second, patience⟩ 1).entries = ↑first + ↑second := by
    rw [entries_takeSecond, entries, Multiset.coe_nil, zero_add]
  unfold merge
  simp only []
  split_ifs <;> simp only [entries_close, entries_closeWithFirst, entries_run, start]

end Front

namespace Back

/-- What lies in a merge from the back. -/
def entries (m : Back α) : Multiset α := ↑m.first.toList + ↑m.second.toList + ↑m.done

theorem extract_add_extract (a : Array α) (n : Nat) :
    (((a.extract 0 n).toList : Multiset α) + ((a.extract n a.size).toList : Multiset α)) =
      a.toList := by
  have back : (a.toList.drop n).take (a.size - n) = a.toList.drop n :=
    List.take_of_length_le (by simp)
  simp only [Array.toList_extract, List.extract_eq_take_drop, Nat.sub_zero, List.drop_zero, back]
  exact take_add_drop _ n

@[simp] theorem entries_patience (m : Back α) (n : Nat) :
    entries { m with patience := n } = m.entries := rfl

@[simp] theorem entries_takeFirst (m : Back α) (n : Nat) : (m.takeFirst n).entries = m.entries := by
  simp only [entries, takeFirst, ← Multiset.coe_add,
    ← extract_add_extract m.first (m.first.size - n)]
  ac_rfl

@[simp] theorem entries_takeSecond (m : Back α) (n : Nat) :
    (m.takeSecond n).entries = m.entries := by
  simp only [entries, takeSecond, ← Multiset.coe_add,
    ← extract_add_extract m.second (m.second.size - n)]
  ac_rfl

@[simp] theorem entries_close (m : Back α) : (m.close.1.toList : Multiset α) = m.entries := by
  simp only [entries, close, Array.toList_append, ← Multiset.coe_add]

@[simp] theorem entries_closeWithSecond (m : Back α) :
    (m.closeWithSecond.1.toList : Multiset α) = m.entries := by
  simp only [entries, closeWithSecond, Array.toList_append, ← Multiset.coe_add]
  ac_rfl

@[simp] theorem entries_run (room : Nat) (wins : Option (Nat × Nat)) (m : Back α) :
    ((run before room wins m).1.toList : Multiset α) = m.entries := by
  induction room generalizing wins m with
  | zero => simp [run]
  | succ room ih =>
    cases wins with
    | none =>
      unfold run
      simp only []
      split_ifs <;> simp [ih]
    | some w =>
      unfold run
      cases m.first.back? <;> cases m.second.back? <;> simp only [] <;> (try split_ifs) <;> simp [ih]

theorem entries_merge (first second : Array α) (patience : Nat) :
    ((merge before first second patience).1.toList : Multiset α) =
      ↑first.toList + ↑second.toList := by
  have start : (takeFirst ⟨first, second, [], patience⟩ 1).entries =
      ↑first.toList + ↑second.toList := by
    rw [entries_takeFirst, entries, Multiset.coe_nil, add_zero]
  unfold merge
  simp only []
  split_ifs <;> simp only [entries_close, entries_closeWithSecond, entries_run, start]

end Back

/-- What stays in place at both ends, and what is merged between. -/
theorem entries_between (first second : Array α) (i j : Nat) {merged : Multiset α}
    (h : merged = ↑(first.extract i first.size).toList + ↑(second.extract 0 j).toList) :
    ↑(first.extract 0 i).toList + merged + ↑(second.extract j second.size).toList =
      ↑first.toList + (↑second.toList : Multiset α) := by
  rw [h, ← Back.extract_add_extract first i, ← Back.extract_add_extract second j]
  ac_rfl

theorem entries_mergeRuns (first second : Array α) (patience : Nat) :
    ((mergeRuns before first second patience).1.toList : Multiset α) =
      ↑first.toList + ↑second.toList := by
  unfold mergeRuns
  simp only []
  split
  · rw [Array.toList_append, Multiset.coe_add]
  · split_ifs
    · rw [Array.toList_append, Multiset.coe_add]
    · simp only [Array.toList_append, ← Multiset.coe_add]
      exact entries_between _ _ _ _ (Front.entries_merge _ _ _)
    · simp only [Array.toList_append, ← Multiset.coe_add]
      exact entries_between _ _ _ _ (Back.entries_merge _ _ _)

/-! ## Runs -/

variable (before) in
theorem descending_spec (run rest : List α) :
    ((descending before run rest).1 : Multiset α) + (descending before run rest).2 =
      ↑run + ↑rest ∧ run.length ≤ (descending before run rest).1.length := by
  induction rest generalizing run with
  | nil => simp [descending]
  | cons e rest ih =>
    unfold descending
    cases run with
    | nil =>
      obtain ⟨h, -⟩ := ih [e]
      exact ⟨by simpa using h, by simp⟩
    | cons last run =>
      simp only []
      split_ifs
      · obtain ⟨h, hl⟩ := ih (e :: last :: run)
        refine ⟨h.trans ?_, (Nat.le_succ _).trans hl⟩
        rw [← Multiset.cons_coe, ← Multiset.cons_coe e rest, Multiset.cons_add, Multiset.add_cons]
      · exact ⟨rfl, Nat.le_refl _⟩

variable (before) in
theorem ascending_spec (run rest : List α) :
    ((ascending before run rest).1 : Multiset α) + (ascending before run rest).2 =
      ↑run + ↑rest ∧ run.length ≤ (ascending before run rest).1.length := by
  induction rest generalizing run with
  | nil => simp [ascending]
  | cons e rest ih =>
    unfold ascending
    cases run with
    | nil =>
      obtain ⟨h, -⟩ := ih [e]
      exact ⟨by simpa using h, by simp⟩
    | cons last run =>
      simp only []
      split_ifs
      · exact ⟨rfl, Nat.le_refl _⟩
      · obtain ⟨h, hl⟩ := ih (e :: last :: run)
        refine ⟨h.trans ?_, (Nat.le_succ _).trans hl⟩
        rw [← Multiset.cons_coe, ← Multiset.cons_coe e rest, Multiset.cons_add, Multiset.add_cons]

variable (before) in
/-- A run is taken off the front of a list, and something is taken off unless the list is empty. -/
theorem takeRun_spec (entries : List α) :
    ((takeRun before entries).1 : Multiset α) + (takeRun before entries).2 = ↑entries ∧
      (entries ≠ [] → 0 < (takeRun before entries).1.length) := by
  unfold takeRun
  split
  next a b rest =>
    split_ifs
    · obtain ⟨h, hl⟩ := descending_spec before [b, a] rest
      refine ⟨h.trans ?_, fun _ => Nat.lt_of_lt_of_le (by simp) hl⟩
      rw [Multiset.coe_add]
      exact Multiset.coe_eq_coe.2 (.swap a b rest)
    · obtain ⟨h, hl⟩ := ascending_spec before [b, a] rest
      simp only [Multiset.coe_reverse, List.length_reverse]
      refine ⟨h.trans ?_, fun _ => Nat.lt_of_lt_of_le (by simp) hl⟩
      rw [Multiset.coe_add]
      exact Multiset.coe_eq_coe.2 (.swap a b rest)
  next => simpa using List.length_pos_iff.2

theorem coe_insert (run : List α) (e : α) :
    (insert before run e : Multiset α) = e ::ₘ ↑run := by
  unfold insert
  simp only []
  rw [← Multiset.coe_add, ← Multiset.cons_coe, Multiset.add_cons, take_add_drop]

theorem coe_foldl_insert (entries run : List α) :
    ((entries.foldl (insert before) run : List α) : Multiset α) = ↑run + ↑entries := by
  induction entries generalizing run with
  | nil => simp
  | cons e es ih =>
    rw [List.foldl_cons, ih, coe_insert, ← Multiset.cons_coe e es, Multiset.cons_add,
      Multiset.add_cons]

/-- The entries of runs. -/
def inRuns (runs : List (Array α)) : Multiset α := (runs.map fun r => (r.toList : Multiset α)).sum

theorem inRuns_runs (least : Nat) {room : Nat} {entries : List α} (h : entries.length ≤ room) :
    inRuns (runs before least room entries) = ↑entries := by
  induction room generalizing entries with
  | zero =>
    obtain rfl := List.length_eq_zero_iff.1 (Nat.le_zero.1 h)
    rfl
  | succ room ih =>
    cases entries with
    | nil => rfl
    | cons e es =>
      obtain ⟨hrun, hpos⟩ := takeRun_spec before (e :: es)
      have hlen := congrArg Multiset.card hrun
      have := hpos (by simp)
      simp only [Multiset.card_add, Multiset.coe_card] at hlen
      unfold runs
      simp only []
      rw [inRuns, List.map_cons, List.sum_cons, ← inRuns, ih, coe_foldl_insert, ← hrun,
        add_assoc, take_add_drop]
      rw [List.length_drop]
      omega

/-! ## The order of merges -/

namespace Progress

/-- The entries of the runs that wait. -/
def entries (p : Progress α) : Multiset α :=
  inRuns (p.waiting.map fun w => w.entries)

theorem entries_mergeLast (p : Progress α) : (p.mergeLast before).entries = p.entries := by
  unfold mergeLast
  split
  next b a rest e =>
    simp only [entries, inRuns, e, List.map_cons, List.sum_cons, entries_mergeRuns]
    ac_rfl
  next => rfl

variable (before) in
theorem entries_mergeAbove (power room : Nat) (p : Progress α) :
    (mergeAbove before power room p).entries = p.entries := by
  induction room generalizing p with
  | zero => rfl
  | succ room ih =>
    unfold mergeAbove
    split
    · split_ifs
      · rw [ih, entries_mergeLast]
      · rfl
    · rfl

theorem entries_push (size : Nat) (p : Progress α) (run : Array α) :
    (push before size p run).entries = ↑run.toList + p.entries := by
  unfold push
  split
  next e => simp [entries, inRuns, e]
  next last rest e =>
    simp only []
    have same := entries_mergeAbove before
      (boundaryPower size (size + 1) (2 * last.start + last.entries.size)
        (2 * last.start + last.entries.size + last.entries.size + run.size)) p.waiting.length p
    generalize mergeAbove before _ p.waiting.length p = q at same ⊢
    rw [← same]
    split
    next top rest e => simp [entries, inRuns, e]
    next e => simp [entries, inRuns, e]

theorem entries_finish (room : Nat) (p : Progress α) :
    ((p.finish before room).toList : Multiset α) = p.entries := by
  induction room generalizing p with
  | zero =>
    unfold finish entries inRuns
    induction p.waiting with
    | nil => simp
    | cons w ws ih =>
      simp only [List.reverse_cons, List.map_append, List.map_cons, List.map_nil,
        List.sum_cons, Array.toList_flatten, List.flatten_append, ← Multiset.coe_add] at ih ⊢
      rw [ih]
      simp [add_comm]
  | succ room ih =>
    unfold finish
    split
    next e => simp [entries, inRuns, e]
    next run e => simp [entries, inRuns, e]
    next c b a rest e =>
      split_ifs
      · simp only []
        rw [ih, entries, inRuns, List.map_cons, List.map_cons, List.sum_cons, ← inRuns, ← entries,
          entries_mergeLast]
        simp [entries, inRuns, e]
      · rw [ih, entries_mergeLast]
    next => rw [ih, entries_mergeLast]

end Progress

/-- Sorting by runs gives the entries in some order. -/
theorem byRuns_perm (entries : List α) : (byRuns before entries).Perm entries := by
  have pushed (size : Nat) (found : List (Array α)) (p : Progress α) :
      (found.foldl (Progress.push before size) p).entries = inRuns found + p.entries := by
    induction found generalizing p with
    | nil => simp [inRuns]
    | cons run found ih =>
      rw [List.foldl_cons, ih, Progress.entries_push, inRuns, inRuns, List.map_cons,
        List.sum_cons]
      ac_rfl
  refine Multiset.coe_eq_coe.1 ?_
  unfold byRuns
  simp only []
  rw [Progress.entries_finish, pushed, inRuns_runs _ (Nat.le_refl _)]
  simp [Progress.entries, inRuns]

end Wiring.Sort

namespace Wiring.Rank

/-- Sorting by rank gives the entries in some order, also where priorities are not numbers. -/
theorem sort_perm {α : Type} (rank : α → Rank) (entries : List α) :
    (sort rank entries).Perm entries := by
  unfold sort
  split
  · exact Sort.byRuns_perm entries
  · exact List.mergeSort_perm entries _

end Wiring.Rank
