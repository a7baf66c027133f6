/-!
Merging of two neighbouring runs. The merge goes entry by entry until one run has won `patience`
times in a row; from then on it seeks how far that run goes on to win, as long as that pays. The
shorter of the two runs decides whether the merge goes from the front or from the back.
-/

/-! ## Search

Search in sorted rows: by halving, and by steps that double from a place where the search begins.
`right` says of a place whether what is searched for lies to the right of it.
-/

namespace Wiring.Sort

/-- The first place between `low` and `high` that is not to the left, by halving. -/
def bisect (right : Nat → Bool) : (room low high : Nat) → Nat
  | 0, low, _ => low
  | room + 1, low, high =>
    if low < high then
      let middle := low + (high - low) / 2
      if right middle then bisect right room (middle + 1) high else bisect right room low middle
    else low

/-- Steps that double while they pass and stay below `limit`: the last step that passed, and the
first that did not, or the limit. -/
def stride (passes : Nat → Bool) (limit : Nat) : (room last step : Nat) → Nat × Nat
  | 0, last, step => (last, min step limit)
  | room + 1, last, step =>
    if step < limit && passes step then stride passes limit room step (2 * step + 1)
    else (last, min step limit)

/-- The place among `size` entries, by doubling steps from `start` and then by halving. -/
def seek (right : Nat → Bool) (size start : Nat) : Nat :=
  if right start then
    let (last, step) := stride (fun i => right (start + i)) (size - start) size 0 1
    bisect right size (start + last + 1) (start + step)
  else
    let (last, step) := stride (fun i => !right (start - i)) (start + 1) size 0 1
    bisect right size (start + 1 - step) (start - last)

/-! ## Merging -/

variable {α : Type} (before : α → α → Bool)

/-- So many wins in a row make it pay to seek. -/
def worthSeeking : Nat := 7

/-- The place of an entry in a run, behind those that it does not come before. -/
def placeBehind (run : Array α) (entry : α) (start : Nat) : Nat :=
  seek (fun i => (run[i]?.map fun other => !before entry other).getD false) run.size start

/-- The place of an entry in a run, ahead of those that do not come before it. -/
def placeAhead (run : Array α) (entry : α) (start : Nat) : Nat :=
  seek (fun i => (run[i]?.map fun other => before other entry).getD false) run.size start

/-! ## From the front -/

/-- A merge from the front: what is left of both runs, and how many wins in a row it takes to seek. -/
structure Front (α : Type) where
  done : Array α
  first : List α
  second : List α
  patience : Nat

namespace Front

/-- The merge is over: what is left of one run follows. -/
def close (m : Front α) : Array α × Nat :=
  (m.done ++ m.first.toArray ++ m.second.toArray, m.patience)

/-- The merge is over: the last entry of the first run comes last of all. -/
def closeWithFirst (m : Front α) : Array α × Nat :=
  (m.done ++ m.second.toArray ++ m.first.toArray, m.patience)

/-- Takes entries of the first run. -/
def takeFirst (m : Front α) (count : Nat) : Front α :=
  { m with done := m.done ++ (m.first.take count).toArray, first := m.first.drop count }

/-- Takes entries of the second run. -/
def takeSecond (m : Front α) (count : Nat) : Front α :=
  { m with done := m.done ++ (m.second.take count).toArray, second := m.second.drop count }

/-- How many entries of the first run go ahead of the next one of the second. -/
def firstLead (m : Front α) : Nat :=
  (m.second.head?.map fun b => placeBehind before m.first.toArray b 0).getD 0

/-- How many entries of the second run go ahead of the next one of the first. -/
def secondLead (m : Front α) : Nat :=
  (m.first.head?.map fun a => placeAhead before m.second.toArray a 0).getD 0

/-- Goes on with the merge. `wins` counts the wins in a row of each run; without it the merge
seeks. -/
def run : (room : Nat) → (wins : Option (Nat × Nat)) → Front α → Array α × Nat
  | 0, _, m => m.close
  | room + 1, some (firstWins, secondWins), m =>
    match m.first, m.second with
    | a :: _, b :: _ =>
      if before b a then
        let m := m.takeSecond 1
        if m.second.isEmpty then m.close
        else if m.patience ≤ secondWins + 1 then
          run room none { m with patience := m.patience + 1 }
        else run room (some (0, secondWins + 1)) m
      else
        let m := m.takeFirst 1
        if m.first.length = 1 then m.closeWithFirst
        else if m.patience ≤ firstWins + 1 then
          run room none { m with patience := m.patience + 1 }
        else run room (some (firstWins + 1, 0)) m
    | _, _ => m.close
  | room + 1, none, m =>
    let m := { m with patience := max 1 (m.patience - 1) }
    let firstWins := m.firstLead before
    let m := m.takeFirst firstWins
    if 0 < firstWins && m.first.length = 1 then m.closeWithFirst
    else if m.first.isEmpty then m.close
    else
      let m := m.takeSecond 1
      if m.second.isEmpty then m.close
      else
        let secondWins := m.secondLead before
        let m := m.takeSecond secondWins
        if m.second.isEmpty then m.close
        else
          let m := m.takeFirst 1
          if m.first.length = 1 then m.closeWithFirst
          else if worthSeeking ≤ firstWins || worthSeeking ≤ secondWins then run room none m
          else run room (some (0, 0)) { m with patience := m.patience + 1 }

/-- Merges two runs of which the first entry of the second comes first. -/
def merge (first second : List α) (patience : Nat) : Array α × Nat :=
  let m := takeSecond ⟨#[], first, second, patience⟩ 1
  if m.second.isEmpty then m.close
  else if first.length = 1 then m.closeWithFirst
  else run before (first.length + second.length) (some (0, 0)) m

end Front

/-! ## From the back -/

/-- A merge from the back: what is left of both runs, and how many wins in a row it takes to seek. -/
structure Back (α : Type) where
  first : Array α
  second : Array α
  done : List α
  patience : Nat

namespace Back

/-- The merge is over: what is left of one run goes ahead. -/
def close (m : Back α) : Array α × Nat :=
  (m.first ++ m.second ++ m.done.toArray, m.patience)

/-- The merge is over: the first entry of the second run comes first of all. -/
def closeWithSecond (m : Back α) : Array α × Nat :=
  (m.second ++ m.first ++ m.done.toArray, m.patience)

/-- Takes entries of the first run. -/
def takeFirst (m : Back α) (count : Nat) : Back α :=
  let kept := m.first.size - count
  { m with
    first := m.first.extract 0 kept
    done := (m.first.extract kept m.first.size).toList ++ m.done }

/-- Takes entries of the second run. -/
def takeSecond (m : Back α) (count : Nat) : Back α :=
  let kept := m.second.size - count
  { m with
    second := m.second.extract 0 kept
    done := (m.second.extract kept m.second.size).toList ++ m.done }

/-- How many entries of the first run go behind the last one of the second. -/
def firstLead (m : Back α) : Nat :=
  (m.second.back?.map fun b =>
    m.first.size - placeBehind before m.first b (m.first.size - 1)).getD 0

/-- How many entries of the second run go behind the last one of the first. -/
def secondLead (m : Back α) : Nat :=
  (m.first.back?.map fun a =>
    m.second.size - placeAhead before m.second a (m.second.size - 1)).getD 0

/-- Goes on with the merge. `wins` counts the wins in a row of each run; without it the merge
seeks. -/
def run : (room : Nat) → (wins : Option (Nat × Nat)) → Back α → Array α × Nat
  | 0, _, m => m.close
  | room + 1, some (firstWins, secondWins), m =>
    match m.first.back?, m.second.back? with
    | some a, some b =>
      if before b a then
        let m := m.takeFirst 1
        if m.first.isEmpty then m.close
        else if m.patience ≤ firstWins + 1 then
          run room none { m with patience := m.patience + 1 }
        else run room (some (firstWins + 1, 0)) m
      else
        let m := m.takeSecond 1
        if m.second.size = 1 then m.closeWithSecond
        else if m.patience ≤ secondWins + 1 then
          run room none { m with patience := m.patience + 1 }
        else run room (some (0, secondWins + 1)) m
    | _, _ => m.close
  | room + 1, none, m =>
    let m := { m with patience := max 1 (m.patience - 1) }
    let firstWins := m.firstLead before
    let m := m.takeFirst firstWins
    if m.first.isEmpty then m.close
    else
      let m := m.takeSecond 1
      if m.second.size = 1 then m.closeWithSecond
      else
        let secondWins := m.secondLead before
        let m := m.takeSecond secondWins
        if 0 < secondWins && m.second.size = 1 then m.closeWithSecond
        else if m.second.isEmpty then m.close
        else
          let m := m.takeFirst 1
          if m.first.isEmpty then m.close
          else if worthSeeking ≤ firstWins || worthSeeking ≤ secondWins then run room none m
          else run room (some (0, 0)) { m with patience := m.patience + 1 }

/-- Merges two runs of which the last entry of the first comes last. -/
def merge (first second : Array α) (patience : Nat) : Array α × Nat :=
  let m := takeFirst ⟨first, second, [], patience⟩ 1
  if m.first.isEmpty then m.close
  else if second.size = 1 then m.closeWithSecond
  else run before (first.size + second.size) (some (0, 0)) m

end Back

/-- Merges two runs. What the first begins with and the second ends with may stay in place. -/
def mergeRuns (first second : Array α) (patience : Nat) : Array α × Nat :=
  let settled := (second[0]?.map fun b => placeBehind before first b 0).getD first.size
  let moving := first.extract settled first.size
  match moving.back? with
  | none => (first ++ second, patience)
  | some a =>
    let reach := placeAhead before second a (second.size - 1)
    if reach = 0 then (first ++ second, patience)
    else
      let other := second.extract 0 reach
      let (merged, patience) :=
        if moving.size ≤ other.size then Front.merge before moving.toList other.toList patience
        else Back.merge before moving other patience
      (first.extract 0 settled ++ merged ++ second.extract reach second.size, patience)

end Wiring.Sort
