import Mathlib.Data.List.Sort
import Wiring.Failure.Basic

/-!
# Sorted texts

What is sorted by a total order does not depend on the order that it was found in: there is one way
to sort it.
-/

namespace Wiring

/-- What is sorted by a total order does not depend on the order that it comes in. -/
theorem mergeSort_eq_of_perm {α : Type} {le : α → α → Bool} {as bs : List α}
    (trans : ∀ a b c, le a b = true → le b c = true → le a c = true)
    (total : ∀ a b, (le a b || le b a) = true)
    (antisymm : ∀ a b, le a b = true → le b a = true → a = b) (perm : as.Perm bs) :
    as.mergeSort le = bs.mergeSort le :=
  List.Perm.eq_of_pairwise (fun a b _ _ => antisymm a b) (List.pairwise_mergeSort trans total as)
    (List.pairwise_mergeSort trans total bs)
    ((List.mergeSort_perm as le).trans (perm.trans (List.mergeSort_perm bs le).symm))

namespace Failure

variable {texts : List String} {keep : String → Bool}

theorem sortTexts_eq_of_perm {as bs : List String} (perm : as.Perm bs) :
    sortTexts as = sortTexts bs :=
  mergeSort_eq_of_perm (fun a b c => by simpa using String.le_trans)
    (fun a b => by simpa using String.le_total a b) (fun a b => by simpa using String.le_antisymm)
    perm

theorem sortTexts_perm (texts : List String) : (sortTexts texts).Perm texts :=
  List.mergeSort_perm texts _

theorem pairwise_sortTexts (texts : List String) : (sortTexts texts).Pairwise (· ≤ ·) := by
  have sorted : (sortTexts texts).Pairwise fun a b => decide (a ≤ b) = true :=
    List.pairwise_mergeSort (fun a b c => by simpa using String.le_trans)
      (fun a b => by simpa using String.le_total a b) texts
  simpa using sorted

/-- There is one way to sort texts. -/
theorem eq_sortTexts {sorted : List String} (perm : sorted.Perm texts)
    (ascends : sorted.Pairwise (· ≤ ·)) : sorted = sortTexts texts :=
  List.Perm.eq_of_pairwise (fun _ _ _ _ => String.le_antisymm) ascends (pairwise_sortTexts texts)
    (perm.trans (sortTexts_perm texts).symm)

/-- It does not count whether texts are sorted first or left out first. -/
theorem filter_sortTexts : (sortTexts texts).filter keep = sortTexts (texts.filter keep) :=
  eq_sortTexts ((sortTexts_perm texts).filter keep) ((pairwise_sortTexts texts).filter keep)

theorem sortTexts_eq_singleton {text : String} : sortTexts texts = [text] ↔ texts = [text] := by
  constructor
  · exact fun sorted => List.perm_singleton.1 (sorted ▸ (sortTexts_perm texts).symm)
  · exact fun single => List.perm_singleton.1 (single ▸ sortTexts_perm texts)

theorem sortTexts_eq_nil : sortTexts texts = [] ↔ texts = [] := by
  rw [← List.length_eq_zero_iff, (sortTexts_perm texts).length_eq, List.length_eq_zero_iff]

theorem exists_sortTexts (texts : List String) (several : 2 ≤ texts.length) :
    ∃ a b rest, sortTexts texts = a :: b :: rest := by
  rw [← (sortTexts_perm texts).length_eq] at several
  match sortTexts texts, several with
  | a :: b :: rest, _ => exact ⟨a, b, rest, rfl⟩

end Failure

end Wiring
