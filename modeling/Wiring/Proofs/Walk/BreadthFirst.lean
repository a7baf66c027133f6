import Wiring.Graph.Walk
import Wiring.Proofs.Lists
import Wiring.Proofs.Outcome
import Mathlib.Data.List.TakeWhile

/-!
# Breadth-first walks

`Travels` is a breadth-first walk as a relation, for visits that may change a state. Such a walk
visits no identifier twice and only what is reached; with room for all identifiers that can occur
it visits all that is reached.
-/

namespace Wiring.Walk

variable {σ : Type}

/-- A walk with `room` visits left, from a queue and what was visited to all that is visited in the
end. `step s id found s'` says that the visit of `id` yields `found`. -/
inductive Travels (step : σ → String → List String → σ → Prop) :
    (room : Nat) → σ → (queue visited out : List String) → σ → Prop
  | full {s : σ} {queue visited : List String} : Travels step 0 s queue visited visited s
  | done {room : Nat} {s : σ} {queue visited : List String} :
    queue.dropWhile visited.contains = [] → Travels step room s queue visited visited s
  | go {room : Nat} {s s₁ s' : σ} {id : String} {queue visited rest found out : List String} :
    queue.dropWhile visited.contains = id :: rest → step s id found s₁ →
      Travels step room s₁ (rest ++ found) (visited ++ [id]) out s' →
      Travels step (room + 1) s queue visited out s'

theorem travels_of_except {visit : String → Except Failure (List String)} {room : Nat}
    {queue visited out : List String} (h : breadthFirst visit room queue visited = .ok out) :
    Travels (fun (_ : Unit) id found _ => visit id = .ok found) room () queue visited out () := by
  induction room generalizing queue visited with
  | zero =>
    obtain rfl : visited = out := by simpa [breadthFirst] using h
    exact .full
  | succ room ih =>
    unfold breadthFirst at h
    cases hq : queue.dropWhile visited.contains with
    | nil =>
      obtain rfl : visited = out := by simpa [hq] using h
      exact .done hq
    | cons id rest =>
      simp only [hq] at h
      obtain ⟨found, hf, h⟩ := bind_eq_ok.1 h
      exact .go hq hf (ih h)

theorem travels_of_run {ε : Type} {visit : String → EStateM ε σ (List String)} {room : Nat}
    {queue visited out : List String} {s s' : σ}
    (h : breadthFirst visit room queue visited s = .ok out s') :
    Travels (fun s id found s' => visit id s = .ok found s') room s queue visited out s' := by
  induction room generalizing queue visited s with
  | zero =>
    obtain ⟨rfl, rfl⟩ : visited = out ∧ s = s' := by simpa [breadthFirst] using h
    exact .full
  | succ room ih =>
    unfold breadthFirst at h
    cases hq : queue.dropWhile visited.contains with
    | nil =>
      obtain ⟨rfl, rfl⟩ : visited = out ∧ s = s' := by simpa [hq] using h
      exact .done hq
    | cons id rest =>
      simp only [hq, Run.bind_ok] at h
      obtain ⟨found, s₁, hf, h⟩ := h
      exact .go hq hf (ih h)

namespace Travels

variable {step : σ → String → List String → σ → Prop} {room : Nat} {s s' : σ}
  {queue visited out : List String}

theorem mem_of_dropWhile {id x : String} {rest : List String}
    (h : queue.dropWhile visited.contains = id :: rest) (hx : x ∈ queue) :
    x ∈ visited ∨ x = id ∨ x ∈ rest := by
  rw [← List.takeWhile_append_dropWhile (p := visited.contains) (l := queue), h] at hx
  rcases List.mem_append.1 hx with hx | hx
  · exact .inl (by simpa using List.mem_takeWhile_imp hx)
  · exact .inr (by simpa using hx)

theorem mem_of_dropWhile_cons {id : String} {rest : List String}
    (h : queue.dropWhile visited.contains = id :: rest) : id ∈ queue ∧ id ∉ visited ∧
      ∀ x ∈ rest, x ∈ queue := by
  have sub : ∀ x ∈ id :: rest, x ∈ queue := fun x hx =>
    (List.dropWhile_suffix visited.contains).subset (h ▸ hx)
  have head := List.head?_dropWhile_not visited.contains queue
  simp only [h, List.head?_cons, List.contains_eq_mem, decide_eq_false_iff_not] at head
  exact ⟨sub id List.mem_cons_self, head, fun x hx => sub x (List.mem_cons_of_mem _ hx)⟩

/-- What holds at first and is kept by each visit of something new holds in the end. -/
theorem invariant (I : σ → List String → List String → Prop)
    (h : Travels step room s queue visited out s') (start : I s queue visited)
    (keep : ∀ s queue visited id rest found s₁, I s queue visited →
      queue.dropWhile visited.contains = id :: rest → step s id found s₁ →
      I s₁ (rest ++ found) (visited ++ [id])) : ∃ queue, I s' queue out := by
  induction h with
  | full => exact ⟨_, start⟩
  | done => exact ⟨_, start⟩
  | go hq hs _ ih => exact ih (keep _ _ _ _ _ _ _ start hq hs)

/-- What each visit keeps may be taken for granted in the visits, and holds in the end. -/
theorem along {I : σ → Prop} (h : Travels step room s queue visited out s') (start : I s)
    (keep : ∀ s id found s₁, I s → step s id found s₁ → I s₁) :
    Travels (fun s id found s' => I s ∧ step s id found s' ∧ I s') room s queue visited out s' ∧
      I s' := by
  induction h with
  | full => exact ⟨.full, start⟩
  | done e => exact ⟨.done e, start⟩
  | go e hs _ ih =>
    have kept := keep _ _ _ _ start hs
    obtain ⟨walk, last⟩ := ih kept
    exact ⟨.go e ⟨start, hs, kept⟩ walk, last⟩

/-- Only what the queue holds, and what is yielded on the way, is visited. -/
theorem sound {P : String → Prop} (h : Travels step room s queue visited out s')
    (hq : ∀ x ∈ queue, P x) (hv : ∀ x ∈ visited, P x)
    (next : ∀ s id found s', P id → step s id found s' → ∀ x ∈ found, P x) :
    ∀ x ∈ out, P x := by
  obtain ⟨_, -, h⟩ := h.invariant (fun _ q v => (∀ x ∈ q, P x) ∧ ∀ x ∈ v, P x) ⟨hq, hv⟩
    fun s q v id rest found s₁ ⟨hq, hv⟩ e hs => by
      obtain ⟨hid, -, hrest⟩ := mem_of_dropWhile_cons e
      refine ⟨fun x hx => ?_, fun x hx => ?_⟩
      · rcases List.mem_append.1 hx with hx | hx
        · exact hq x (hrest x hx)
        · exact next _ _ _ _ (hq id hid) hs x hx
      · rcases List.mem_append.1 hx with hx | hx
        · exact hv x hx
        · exact hq x (by simpa [List.mem_singleton.1 hx] using hid)
  exact h

/-- With room for all identifiers that can occur, all that is yielded is visited. `Q id found s`
says that `id` has yielded `found`, as far as the state tells. -/
theorem closed {U : List String} {Q : String → List String → σ → Prop}
    (h : Travels step room s queue visited out s')
    (fresh : ∀ s id found s', step s id found s' → Q id found s')
    (keep : ∀ s x found id found' s', x ≠ id → Q x found s → step s id found' s' → Q x found s')
    (inside : ∀ s id found s', step s id found s' → ∀ x ∈ found, x ∈ U)
    (hq : ∀ x ∈ queue, x ∈ U) (hv : ∀ x ∈ visited, x ∈ U) (unique : visited.Nodup)
    (enough : U.length ≤ room + visited.length)
    (pending : ∀ x ∈ visited, ∃ found, Q x found s ∧ ∀ y ∈ found, y ∈ visited ∨ y ∈ queue) :
    (∀ x ∈ queue, x ∈ out) ∧ ∀ x ∈ out, ∃ found, Q x found s' ∧ ∀ y ∈ found, y ∈ out := by
  induction h with
  | @full s queue visited =>
    have all : ∀ x ∈ U, x ∈ visited := fun x hx =>
      ((List.subperm_of_subset unique hv).perm_of_length_le (by omega)).symm.subset hx
    refine ⟨fun x hx => all x (hq x hx), fun x hx => ?_⟩
    obtain ⟨found, hQ, hy⟩ := pending x hx
    exact ⟨found, hQ, fun y hf => (hy y hf).elim id fun h => all y (hq y h)⟩
  | @done room s queue visited e =>
    have all : ∀ x ∈ queue, x ∈ visited := by simpa [List.dropWhile_eq_nil_iff] using e
    refine ⟨all, fun x hx => ?_⟩
    obtain ⟨found, hQ, hy⟩ := pending x hx
    exact ⟨found, hQ, fun y hf => (hy y hf).elim id (all y)⟩
  | @go room s s₁ s' id queue visited rest found out e hs run ih =>
    obtain ⟨hid, hnew, hrest⟩ := mem_of_dropWhile_cons e
    have visited_sub : ∀ x ∈ visited ++ [id], x ∈ out := by
      obtain ⟨_, h⟩ := run.invariant (fun _ _ v => ∀ x ∈ visited ++ [id], x ∈ v) (fun _ h => h)
        fun _ _ v _ _ _ _ hv _ _ x hx => List.mem_append_left _ (hv x hx)
      exact h
    obtain ⟨all, closed⟩ := ih
      (fun x hx => (List.mem_append.1 hx).elim (fun h => hq x (hrest x h)) (inside _ _ _ _ hs x))
      (fun x hx => (List.mem_append.1 hx).elim (hv x) fun h =>
        hq x (by simpa [List.mem_singleton.1 h] using hid))
      (by
        rw [List.nodup_append]
        refine ⟨unique, by simp, fun x hx y hy => ?_⟩
        rw [List.mem_singleton.1 hy]
        exact ne_of_mem_of_not_mem hx hnew)
      (by rw [List.length_append, List.length_singleton]; omega)
      (fun x hx => by
        rcases List.mem_append.1 hx with hx | hx
        · obtain ⟨f, hQ, hy⟩ := pending x hx
          refine ⟨f, keep _ _ _ _ _ _ (ne_of_mem_of_not_mem hx hnew) hQ hs, fun y hf => ?_⟩
          rcases hy y hf with h | h
          · exact .inl (List.mem_append_left _ h)
          · rcases mem_of_dropWhile e h with h | rfl | h
            · exact .inl (List.mem_append_left _ h)
            · exact .inl (by simp)
            · exact .inr (List.mem_append_left _ h)
        · rw [List.mem_singleton.1 hx]
          exact ⟨found, fresh _ _ _ _ hs, fun y hf => .inr (List.mem_append_right _ hf)⟩)
    refine ⟨fun x hx => ?_, closed⟩
    rcases mem_of_dropWhile e hx with h | rfl | h
    · exact visited_sub x (List.mem_append_left _ h)
    · exact visited_sub x (by simp)
    · exact all x (List.mem_append_left _ h)

/-- What a visit has yielded stays known, as nothing is visited twice. -/
theorem known {Q : String → List String → σ → Prop} {id : String} {found : List String}
    (h : Travels step room s queue visited out s') (seen : id ∈ visited) (start : Q id found s)
    (keep : ∀ s x found id found' s', x ≠ id → Q x found s → step s id found' s' → Q x found s') :
    Q id found s' := by
  obtain ⟨_, -, h⟩ := h.invariant (fun s _ visited => id ∈ visited ∧ Q id found s) ⟨seen, start⟩
    fun s _ visited next _ _ s₁ ⟨seen, known⟩ e hs =>
      ⟨List.mem_append_left _ seen,
        keep _ _ _ _ _ _ (ne_of_mem_of_not_mem seen (mem_of_dropWhile_cons e).2.1) known hs⟩
  exact h

/-- A walk over what the visits have left, which finds what they have yielded, visits the same in
the same order. -/
theorem retraced {visit : String → Except Failure (List String)}
    {Q : String → List String → σ → Prop} (h : Travels step room s queue visited out s')
    (fresh : ∀ s id found s', step s id found s' → Q id found s')
    (keep : ∀ s x found id found' s', x ≠ id → Q x found s → step s id found' s' → Q x found s')
    (yields : ∀ id found, Q id found s' → visit id = .ok found) :
    breadthFirst visit room queue visited = .ok out := by
  induction h with
  | full => rfl
  | @done room _ _ _ e =>
    cases room with
    | zero => rfl
    | succ => rw [breadthFirst, e]; rfl
  | go e hs rest ih =>
    have known := rest.known (Q := Q) (by simp) (fresh _ _ _ _ hs) keep
    rw [breadthFirst, e]
    dsimp only
    rw [yields _ _ known, ok_bind]
    exact ih yields

end Travels

/-! ## Walks that succeed -/

/-- A walk succeeds if every visit of what can be reached does. -/
theorem breadthFirst_ok {visit : String → Except Failure (List String)} {P : String → Prop}
    {room : Nat} {queue visited : List String} (hq : ∀ x ∈ queue, P x)
    (next : ∀ x, P x → ∃ found, visit x = .ok found ∧ ∀ y ∈ found, P y) :
    ∃ out, breadthFirst visit room queue visited = .ok out := by
  induction room generalizing queue visited with
  | zero => exact ⟨visited, rfl⟩
  | succ room ih =>
    unfold breadthFirst
    cases e : queue.dropWhile visited.contains with
    | nil => exact ⟨visited, rfl⟩
    | cons id rest =>
      obtain ⟨hid, -, hrest⟩ := Travels.mem_of_dropWhile_cons e
      obtain ⟨found, hf, hy⟩ := next id (hq id hid)
      have later : ∀ x ∈ rest ++ found, P x := fun x hx =>
        (List.mem_append.1 hx).elim (fun h => hq x (hrest x h)) (hy x)
      obtain ⟨out, h⟩ := @ih _ (visited ++ [id]) later
      exact ⟨out, bind_eq_ok.2 ⟨found, hf, h⟩⟩

/-- A walk can be made if each visit can, from graphs that it leads back to. -/
theorem exists_breadthFirst {visit : String → Build (List String)} {g : Graph} {room : Nat}
    {queue visited : List String} (I : Graph → (queue visited : List String) → Prop)
    (start : I g queue visited)
    (next : ∀ g queue visited id rest, I g queue visited →
      queue.dropWhile visited.contains = id :: rest →
      ∃ found g₁, Build.Does (visit id) g found g₁ ∧ I g₁ (rest ++ found) (visited ++ [id])) :
    ∃ out queue' g', Build.Does (breadthFirst visit room queue visited) g out g' ∧
      I g' queue' out := by
  induction room generalizing g queue visited with
  | zero => exact ⟨visited, queue, g, .pure _, start⟩
  | succ room ih =>
    unfold breadthFirst
    cases e : queue.dropWhile visited.contains with
    | nil => exact ⟨visited, queue, g, .pure _, start⟩
    | cons id rest =>
      obtain ⟨found, g₁, hf, inv⟩ := next g queue visited id rest start e
      obtain ⟨out, queue', g', h, inv'⟩ := ih inv
      exact ⟨out, queue', g', hf.bind h, inv'⟩

/-- A walk whose visits leave the graph as it is leaves it so. -/
theorem breadthFirst_does {visit : String → Build (List String)} {P : String → Prop} {g : Graph}
    {room : Nat} {queue visited : List String} (hq : ∀ x ∈ queue, P x)
    (next : ∀ x, P x → ∃ found, Build.Does (visit x) g found g ∧ ∀ y ∈ found, P y) :
    ∃ out, Build.Does (breadthFirst visit room queue visited) g out g := by
  obtain ⟨out, -, g', h, rfl, -⟩ : ∃ out queue' g',
      Build.Does (breadthFirst visit room queue visited) g out g' ∧ g' = g ∧ ∀ x ∈ queue', P x :=
    exists_breadthFirst (fun g₁ queue _ => g₁ = g ∧ ∀ x ∈ queue, P x) ⟨rfl, hq⟩
      fun _ _ _ id _ ⟨same, hq⟩ e => by
      obtain ⟨hid, -, hrest⟩ := Travels.mem_of_dropWhile_cons e
      obtain ⟨found, hf, hy⟩ := next id (hq id hid)
      exact ⟨found, g, same ▸ hf, rfl, fun x hx =>
        (List.mem_append.1 hx).elim (fun h => hq x (hrest x h)) (hy x)⟩
  exact ⟨out, h⟩

end Wiring.Walk
