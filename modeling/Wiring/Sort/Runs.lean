import Wiring.Sort.Merge

/-!
Sorting by runs: the runs that are there are taken as they come, short ones are filled up by
insertion, and neighbours are merged in an order that keeps merges balanced. Under a total order
the result is the stable one; under others it depends on the comparisons that are made, and these
are part of what is defined here.
-/

namespace Wiring.Sort

variable {α : Type} (before : α → α → Bool)

/-! ## Runs -/

/-- The entries of which each comes strictly before the last one, newest first, and the rest. -/
def descending (run : List α) : List α → List α × List α
  | [] => (run, [])
  | e :: rest =>
    match run with
    | last :: _ => if before e last then descending (e :: run) rest else (run, e :: rest)
    | [] => descending [e] rest

/-- The entries of which none comes strictly before the one ahead of it, newest first, and the
rest. -/
def ascending (run : List α) : List α → List α × List α
  | [] => (run, [])
  | e :: rest =>
    match run with
    | last :: _ => if before e last then (run, e :: rest) else ascending (e :: run) rest
    | [] => ascending [e] rest

/-- The run at the front, in order, and the rest. -/
def takeRun : List α → List α × List α
  | a :: b :: rest =>
    if before b a then descending before [b, a] rest
    else
      let (run, rest) := ascending before [b, a] rest
      (run.reverse, rest)
  | short => (short, [])

/-- Puts an entry into a run, behind those that it does not come before. -/
def insert (run : List α) (entry : α) : List α :=
  let sorted := run.toArray
  let i := bisect (fun i => (sorted[i]?.map fun other => !before entry other).getD false)
    sorted.size 0 sorted.size
  run.take i ++ entry :: run.drop i

/-- The runs of a list, each filled up by insertion to `least` entries where there are so many. -/
def runs (least : Nat) : (room : Nat) → List α → List (Array α)
  | 0, _ => []
  | room + 1, entries =>
    match entries with
    | [] => []
    | entries =>
      let (run, rest) := takeRun before entries
      let lacking := least - run.length
      ((rest.take lacking).foldl (insert before) run).toArray :: runs least room (rest.drop lacking)

/-- The least length of a run: the length of the list, halved until it is below 64, and one more
where a half was cut off. -/
def leastRun : (room length cut : Nat) → Nat
  | 0, length, cut => length + cut
  | room + 1, length, cut =>
    if length < 64 then length + cut
    else leastRun room (length / 2) (if length % 2 = 1 then 1 else cut)

/-! ## The order of merges -/

/-- The power of the boundary of two runs in a list of `size` entries: the number of bits in which
the middles of the runs, as fractions of the list, first differ. `first` and `second` are twice
these middles. -/
def boundaryPower (size : Nat) : (room first second : Nat) → Nat
  | 0, _, _ => 0
  | room + 1, first, second =>
    if size ≤ first then 1 + boundaryPower size room (2 * (first - size)) (2 * (second - size))
    else if size ≤ second then 1
    else 1 + boundaryPower size room (2 * first) (2 * second)

/-- A run that waits to be merged. -/
structure Waiting (α : Type) where
  start : Nat
  entries : Array α
  /-- The power of its boundary to the run that follows it. -/
  power : Nat := 0

/-- A sort under way: the runs that wait, the last one first. -/
structure Progress (α : Type) where
  waiting : List (Waiting α) := []
  patience : Nat := worthSeeking

namespace Progress

/-- Merges the two last runs. -/
def mergeLast (p : Progress α) : Progress α :=
  match p.waiting with
  | b :: a :: rest =>
    let (entries, patience) := mergeRuns before a.entries b.entries p.patience
    ⟨⟨a.start, entries, b.power⟩ :: rest, patience⟩
  | _ => p

/-- Merges the last runs as long as the boundary ahead of the last one has a power above `power`. -/
def mergeAbove (power : Nat) : (room : Nat) → Progress α → Progress α
  | 0, p => p
  | room + 1, p =>
    match p.waiting with
    | _ :: a :: _ => if power < a.power then mergeAbove power room (p.mergeLast before) else p
    | _ => p

/-- Takes up a run of a list of `size` entries. -/
def push (size : Nat) (p : Progress α) (run : Array α) : Progress α :=
  match p.waiting with
  | [] => { p with waiting := [⟨0, run, 0⟩] }
  | last :: _ =>
    let middle := 2 * last.start + last.entries.size
    let power := boundaryPower size (size + 1) middle (middle + last.entries.size + run.size)
    let p := mergeAbove before power p.waiting.length p
    match p.waiting with
    | top :: rest =>
      { p with waiting :=
        ⟨top.start + top.entries.size, run, 0⟩ :: { top with power := power } :: rest }
    | [] => { p with waiting := [⟨0, run, 0⟩] }

/-- Merges all that waits; a run between two others goes to the shorter one. -/
def finish : (room : Nat) → Progress α → Array α
  | 0, p => (p.waiting.reverse.map (·.entries)).toArray.flatten
  | room + 1, p =>
    match p.waiting with
    | [] => #[]
    | [run] => run.entries
    | c :: b :: a :: rest =>
      if a.entries.size < c.entries.size then
        let q := mergeLast before ⟨b :: a :: rest, p.patience⟩
        finish room { q with waiting := c :: q.waiting }
      else finish room (p.mergeLast before)
    | _ => finish room (p.mergeLast before)

end Progress

/-- Sorts by runs. -/
def byRuns (entries : List α) : List α :=
  let size := entries.length
  let found := runs before (leastRun size size 0) size entries
  let p := found.foldl (Progress.push before size) {}
  (p.finish before p.waiting.length).toList

end Wiring.Sort
