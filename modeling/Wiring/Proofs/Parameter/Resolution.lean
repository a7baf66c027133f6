import Mathlib.Data.List.Chain
import Wiring.Parameter.Bag
import Wiring.Proofs.Failing
import Wiring.Proofs.Table
import Wiring.Proofs.Parameter.Meaning

/-!
# What parameters resolve to

Resolution remembers what it has found, and holds the parameters that are under resolution in a
chain. What is remembered is at all times what parameters stand for, so the memory neither hides a
failure nor makes up one: resolution finds what each parameter stands for, or fails over something
that keeps a parameter from standing for anything. Neither depends on the order in which the
parameters were set.
-/

namespace Wiring

namespace Bag

open Value Piece

variable {given : String → Option Value} {E : Failure → Prop} {t t' : Table Value}
  {name : String} {v w : Value}

/-! ## Work with a memory -/

/-- Work that remembers resolved parameters. -/
abbrev Resolving := StateT (Table Value) (Except Failure)

/-- What is remembered is what parameters stand for. -/
structure Sound (given : String → Option Value) (t : Table Value) : Prop where
  unique : t.names.Nodup
  stands : ∀ name w, t.get? name = some w → Stands given name w

theorem Sound.nil : Sound given [] := ⟨.nil, fun _ _ h => by cases h⟩

theorem Sound.put (h : Sound given t) (hw : Stands given name w) : Sound given (t.put name w) where
  unique := Table.nodup_put h.unique
  stands other x hx := by
    rw [Table.get?_put] at hx
    split at hx
    next e => exact e ▸ Option.some.inj hx ▸ hw
    next => exact h.stands other x hx

/-- The run, begun with the memory `t`, has a result as by `Q` and a sound memory of at least as many
parameters; or it fails as by `E`. -/
structure Keeps (given : String → Option Value) (E : Failure → Prop) (t : Table Value) {α : Type}
    (Q : α → Table Value → Prop) (run : Except Failure (α × Table Value)) : Prop where
  gives : ∀ a t', run = .ok (a, t') → Sound given t' ∧ t.names ⊆ t'.names ∧ Q a t'
  fails : FailsBy E run

namespace Keeps

variable {α β : Type} {Q R : α → Table Value → Prop} {run : Except Failure (α × Table Value)}

theorem ok {a : α} (sound : Sound given t') (grown : t.names ⊆ t'.names) (h : Q a t') :
    Keeps given E t Q (.ok (a, t')) where
  gives := by
    rintro _ _ ⟨⟩
    exact ⟨sound, grown, h⟩
  fails := .ok _

theorem error {e : Failure} (h : E e) : Keeps given E t Q (.error e) where
  gives := by
    rintro _ _ ⟨⟩
  fails := .error h

theorem mono (h : Keeps given E t Q run) (imp : ∀ a t', Q a t' → R a t') :
    Keeps given E t R run where
  gives a t' ok := by
    obtain ⟨sound, grown, hq⟩ := h.gives a t' ok
    exact ⟨sound, grown, imp a t' hq⟩
  fails := h.fails

theorem bind {R : β → Table Value → Prop} {f : α × Table Value → Except Failure (β × Table Value)}
    (h : Keeps given E t Q run)
    (hf : ∀ a t', Sound given t' → Q a t' → Keeps given E t' R (f (a, t'))) :
    Keeps given E t R (run >>= f) where
  gives b t'' ok := by
    obtain ⟨r, hr, ok⟩ := bind_eq_ok.1 ok
    obtain ⟨sound, grown, hq⟩ := h.gives r.1 r.2 hr
    obtain ⟨sound', grown', hb⟩ := (hf r.1 r.2 sound hq).gives b t'' ok
    exact ⟨sound', List.Subset.trans grown grown', hb⟩
  fails := by
    refine .bind h.fails fun r hr => ?_
    obtain ⟨sound, -, hq⟩ := h.gives r.1 r.2 hr
    exact (hf r.1 r.2 sound hq).fails

end Keeps

/-- Begun with any sound memory the work keeps it sound, with results as by `Q` and failures as by
`E`. -/
def Tracks (given : String → Option Value) (E : Failure → Prop) {α : Type} (x : Resolving α)
    (Q : α → Prop) : Prop :=
  ∀ t, Sound given t → Keeps given E t (fun a _ => Q a) (x.run t)

namespace Tracks

variable {α β : Type} {x : Resolving α} {Q R : α → Prop}

theorem pure {a : α} (h : Q a) : Tracks given E (Pure.pure a) Q :=
  fun t sound => .ok sound (List.Subset.refl t.names) h

theorem throw {e : Failure} (h : E e) : Tracks given E (MonadExcept.throw e : Resolving α) Q :=
  fun _ _ => .error h

theorem mono (h : Tracks given E x Q) (imp : ∀ a, Q a → R a) : Tracks given E x R :=
  fun t sound => (h t sound).mono fun a _ => imp a

theorem bind {f : α → Resolving β} {R : β → Prop} (hx : Tracks given E x Q)
    (hf : ∀ a, Q a → Tracks given E (f a) R) : Tracks given E (x >>= f) R := by
  intro t sound
  rw [StateT.run_bind]
  exact (hx t sound).bind fun a t' sound' hq => hf a hq t' sound'

end Tracks

/-! ## Substitution -/

/-- Substitution in values with these texts and keys can look up what it comes across, and `E`
admits its failures. -/
structure Covers (given : String → Option Value) (E : Failure → Prop)
    (lookup : String → Resolving Value) (texts : List String) (keys : List Value) : Prop where
  found : ∀ s ∈ texts, ∀ name, InText name s → Tracks given E (lookup name) (Stands given name)
  worded : ∀ s ∈ texts, ∀ name, WithinText name s → ∀ w, Stands given name w → ¬ w.IsWord →
    E (.fault (.missingParameter name (.interpolation w.typeName s)) none)
  keyed : ∀ k ∈ keys, ∀ w, Means given k w → ∀ typeName, w.unhashable? = some typeName →
    E (.unhashable typeName)

section Substitution

variable {lookup : String → Resolving Value}

theorem Covers.mono {texts texts' : List String} {keys keys' : List Value}
    (h : Covers given E lookup texts keys) (fewer : texts' ⊆ texts) (fewer' : keys' ⊆ keys) :
    Covers given E lookup texts' keys' where
  found s hs := h.found s (fewer hs)
  worded s hs := h.worded s (fewer hs)
  keyed k hk := h.keyed k (fewer' hk)

theorem substitutePieces_tracks {s : String} {pieces : List Piece}
    (found : ∀ name, .placeholder name ∈ pieces →
      Tracks given E (lookup name) (Stands given name))
    (worded : ∀ name, .placeholder name ∈ pieces → ∀ w, Stands given name w → ¬ w.IsWord →
      E (.fault (.missingParameter name (.interpolation w.typeName s)) none)) :
    Tracks given E (pieces.mapM (substitutePiece lookup s)) (Spells given pieces) := by
  induction pieces with
  | nil => exact .pure .nil
  | cons piece pieces ih =>
    have rest : Tracks given E (pieces.mapM (substitutePiece lookup s)) (Spells given pieces) :=
      ih (fun name h => found name (List.mem_cons_of_mem piece h))
        fun name h => worded name (List.mem_cons_of_mem piece h)
    have first : Tracks given E (substitutePiece lookup s piece) fun word =>
        ∀ words, Spells given pieces words → Spells given (piece :: pieces) (word :: words) := by
      cases piece with
      | char c => exact .pure fun _ => .char
      | percent => exact .pure fun _ => .percent
      | placeholder name =>
        refine .bind (found name List.mem_cons_self) fun w stands => ?_
        obtain ⟨v, there, means⟩ := id stands
        cases spelled : w.interpolated? with
        | some word =>
          obtain ⟨isWord, rfl⟩ := interpolated?_eq_some.1 spelled
          exact .pure fun _ => .placeholder there means isWord
        | none =>
          have wordless : ¬ w.IsWord := interpolated?_eq_none.1 spelled
          exact .throw (worded name List.mem_cons_self w stands wordless)
    rw [List.mapM_cons]
    exact first.bind fun word spells => rest.bind fun words h => .pure (spells words h)

theorem substituteText_tracks {s : String} (covers : Covers given E lookup [s] []) :
    Tracks given E (substituteText lookup s) (Means given (.str s)) := by
  unfold substituteText
  split
  next name whole =>
    have reads : Reads s.toList [.placeholder name] := reads_iff.2 whole
    refine (covers.found s List.mem_cons_self name ⟨_, reads, List.mem_cons_self⟩).mono ?_
    rintro w ⟨v, there, means⟩
    exact .whole reads there means
  next longer =>
    have reads : Reads s.toList (ofText s) := reads_iff.2 rfl
    refine .bind (substitutePieces_tracks (fun name here => ?_) fun name here => ?_)
      fun words spells => .pure (.text reads longer spells)
    · exact covers.found s List.mem_cons_self name ⟨_, reads, here⟩
    · exact covers.worded s List.mem_cons_self name
        ⟨⟨_, reads, here⟩, fun single => longer name (reads.unique single)⟩

mutual

/-- Substitution gives a value its meaning, or fails. -/
theorem substitute_tracks {v : Value} (covers : Covers given E lookup v.strings v.keys) :
    Tracks given E (v.substitute lookup) (Means given v) := by
  match v with
  | .str s =>
    rw [substitute]
    exact substituteText_tracks covers
  | .list items =>
    rw [substitute]
    exact (substituteAll_tracks covers).bind fun ws means => .pure (.list means)
  | .tuple items =>
    rw [substitute]
    exact (substituteAll_tracks covers).bind fun ws means => .pure (.tuple means)
  | .dict entries =>
    rw [substitute]
    exact (substituteEntries_tracks covers).bind fun fs means => .pure (.dict means)
  | .null | .bool _ | .int _ | .real _ | .object _ | .type _ | .hint _ | .built _
  | .deferred _ _ =>
    simp only [substitute]
    exact .pure (.scalar trivial)

theorem substituteAll_tracks {vs : List Value}
    (covers : Covers given E lookup (stringsAll vs) (keysAll vs)) :
    Tracks given E (substituteAll lookup vs) (AllMean given vs) := by
  match vs with
  | [] =>
    rw [substituteAll]
    exact .pure .nil
  | v :: vs =>
    rw [substituteAll]
    have first := covers.mono (List.subset_append_left v.strings _) (List.subset_append_left v.keys _)
    have rest := covers.mono (List.subset_append_right v.strings _)
      (List.subset_append_right v.keys _)
    exact (substitute_tracks first).bind fun w means =>
      (substituteAll_tracks rest).bind fun ws mean => .pure (.cons means mean)

theorem substituteEntries_tracks {done entries : List (Value × Value)}
    (covers : Covers given E lookup (stringsEntries entries) (keysEntries entries)) :
    Tracks given E (substituteEntries lookup done entries) (EntriesMean given done entries) := by
  match entries with
  | [] =>
    rw [substituteEntries]
    exact .pure .nil
  | (k, v) :: rest =>
    rw [substituteEntries]
    simp only [stringsEntries, keysEntries] at covers
    have first : Covers given E lookup k.strings k.keys :=
      covers.mono (fun s hs => by simp [hs]) fun x hx => by simp [hx]
    have second : Covers given E lookup v.strings v.keys :=
      covers.mono (fun s hs => by simp [hs]) fun x hx => by simp [hx]
    have after : Covers given E lookup (stringsEntries rest) (keysEntries rest) :=
      covers.mono (fun s hs => by simp [hs]) fun x hx => by simp [hx]
    refine (substitute_tracks first).bind fun key means =>
      (substitute_tracks second).bind fun value means' => ?_
    cases fit : key.unhashable? with
    | some typeName => exact .throw (covers.keyed k (by simp) key means typeName fit)
    | none => exact (substituteEntries_tracks after).mono fun fs mean => .cons means means' fit mean

end

end Substitution
/-! ## Blame -/

/-- What the resolution of parameters fails over: parameters that lead back to the first of them, a
placeholder that names no parameter, one in a longer text that means no word, or a key that means a
value that cannot be one. -/
inductive Blame (given : String → Option Value) : Failure → Prop
  | circular {first : String} {between : List String}
      (loop : (first :: between ++ [first]).IsChain (Refers given)) :
      Blame given (.fault (.circularParameter (first :: between ++ [first])) none)
  | undefined {owner name : String} (refers : Refers given owner name)
      (absent : given name = none) :
      Blame given (.fault (.missingParameter name (.placeholder owner)) none)
  | wordless {owner name s : String} {v w : Value} (there : given owner = some v)
      (inside : s ∈ v.strings) (within : WithinText name s) (stands : Stands given name w)
      (wordless : ¬ w.IsWord) :
      Blame given (.fault (.missingParameter name (.interpolation w.typeName s)) none)
  | unhashable {owner typeName : String} {v k w : Value} (there : given owner = some v)
      (key : k ∈ v.keys) (means : Means given k w) (unfit : w.unhashable? = some typeName) :
      Blame given (.unhashable typeName)

/-- Whatever resolution fails over, parameters cannot all be resolved with it. -/
theorem Blame.not_resolvable {e : Failure} (h : Blame given e) : ¬ Resolvable given := by
  intro resolvable
  cases h with
  | circular loop => exact resolvable.loopFree _ (transGen_of_isChain loop)
  | undefined refers absent =>
    obtain ⟨v, there⟩ := resolvable.defined _ _ refers
    cases absent.symm.trans there
  | wordless there inside within stands wordless =>
    exact wordless (resolvable.worded _ _ there _ ⟨_, inside, within⟩ _ stands)
  | unhashable there key means unfit =>
    cases unfit.symm.trans (resolvable.keyed _ _ there _ key _ means)

/-! ## Resolution -/

variable {raw : Table Value} {depth : Nat} {chain : List String}

/-- The chain holds parameters of the bag that are under resolution, with room for all others. -/
structure Open (raw : Table Value) (chain : List String) (depth : Nat) : Prop where
  nodup : chain.Nodup
  inside : chain ⊆ raw.names
  room : raw.length ≤ depth + chain.length

theorem Open.push (h : Open raw chain depth) (new : name ∉ chain) (there : name ∈ raw.names) :
    ∃ below, depth = below + 1 ∧ Open raw (chain ++ [name]) below := by
  have nodup : (chain ++ [name]).Nodup := List.nodup_append.2 ⟨h.nodup, by simp, fun x hx y hy =>
    List.mem_singleton.1 hy ▸ ne_of_mem_of_not_mem hx new⟩
  have inside : chain ++ [name] ⊆ raw.names :=
    List.append_subset.2 ⟨h.inside, by simpa using there⟩
  have few := (List.subperm_of_subset nodup inside).length_le
  rw [Table.names, List.length_map, List.length_append, List.length_singleton] at few
  have room := h.room
  refine ⟨depth - 1, by omega, nodup, inside, ?_⟩
  rw [List.length_append, List.length_singleton]
  omega

theorem get_run {f : Table Value → Resolving Value} :
    (getThe (Table Value) >>= f).run t = (f t).run t := rfl

/-- A parameter that is found again in the chain closes a loop. -/
theorem blame_loop (path : (chain ++ [name]).IsChain (Refers given)) (again : name ∈ chain) :
    Blame given (.fault (.circularParameter (loop chain name)) none) := by
  obtain ⟨between, closed, back⟩ := exists_closed_chain path again
  rw [loop, closed]
  exact .circular back

/-- A parameter that is not there is missed by the last one in the chain. -/
theorem blame_missing (path : (chain ++ [name]).IsChain (Refers given)) (below : chain ≠ [])
    (absent : given name = none) : Blame given (missing chain name) := by
  have last : chain.getLast? = some (chain.getLast below) := List.getLast?_eq_some_getLast below
  have refers : Refers given (chain.getLast below) name :=
    (List.isChain_append.1 path).2.2 _ last name rfl
  rw [missing, last]
  exact .undefined refers absent

/-- Each parameter in the chain mentions the next, and the last one the parameter that is looked up.
So what is found is what the parameter stands for, and what goes wrong is to be blamed. -/
theorem resolveFrom_keeps (room : Open raw chain depth)
    (path : (chain ++ [name]).IsChain (Refers raw.get?)) (there : chain = [] → name ∈ raw.names)
    (sound : Sound raw.get? t) :
    Keeps raw.get? (Blame raw.get?) t (fun w t' => Stands raw.get? name w ∧ name ∈ t'.names)
      ((resolveFrom raw depth chain name).run t) := by
  induction depth using Nat.strongRecOn generalizing chain name t with
  | _ depth ih =>
    unfold resolveFrom
    rw [get_run]
    cases known : t.get? name with
    | some w =>
      exact .ok sound (List.Subset.refl t.names)
        ⟨sound.stands name w known, Table.mem_names (Table.mem_of_get? known)⟩
    | none =>
      by_cases again : name ∈ chain
      · simp only [List.contains_iff_mem, again, if_true]
        exact .error (blame_loop path again)
      simp only [List.contains_iff_mem, again, if_false]
      cases given : raw.get? name with
      | none =>
        have below : chain ≠ [] := fun top => Table.get?_eq_none_iff.1 given (there top)
        exact .error (blame_missing path below given)
      | some value =>
        obtain ⟨below, rfl, room'⟩ := room.push again (Table.mem_names (Table.mem_of_get? given))
        have found (s : String) (hs : s ∈ value.strings) (other : String) (here : InText other s) :
            Tracks raw.get? (Blame raw.get?) (resolveFrom raw below (chain ++ [name]) other)
              (Stands raw.get? other) := by
          intro t sound
          have refers : Refers raw.get? name other := ⟨value, given, s, hs, here⟩
          have longer : (chain ++ [name] ++ [other]).IsChain (Refers raw.get?) :=
            path.append (.singleton other) (by simpa using refers)
          exact (ih below (Nat.lt_succ_self below) room' longer (by simp) sound).mono
            fun w t' h => h.1
        have covers : Covers raw.get? (Blame raw.get?) (resolveFrom raw below (chain ++ [name]))
            value.strings value.keys := {
          found
          worded := fun s hs other within w stands => .wordless given hs within stands
          keyed := fun k hk w means typeName => .unhashable given hk means }
        show Keeps _ _ _ _ (StateT.run (value.substitute _ >>= _) t)
        rw [StateT.run_bind]
        refine (substitute_tracks covers t sound).bind fun w t' sound' means => ?_
        have stands : Stands raw.get? name w := ⟨value, given, means⟩
        exact .ok (sound'.put stands) (fun x hx => Table.mem_names_put.2 (.inl hx))
          ⟨stands, Table.mem_names_put.2 (.inr rfl)⟩

theorem discard_run {x : Resolving Value} :
    (discard x).run t = x.run t >>= fun r => pure ((), r.2) := rfl

/-- The parameters of these names resolve one after the other, up to the first that is to be
blamed. -/
theorem forM_resolveFrom {names : List String} (inside : names ⊆ raw.names)
    (sound : Sound raw.get? t) :
    Keeps raw.get? (Blame raw.get?) t (fun _ t' => names ⊆ t'.names)
      ((names.forM fun name => discard (resolveFrom raw raw.length [] name) :
        Resolving Unit).run t) := by
  induction names generalizing t with
  | nil => exact .ok sound (List.Subset.refl t.names) (List.nil_subset t.names)
  | cons name names ih =>
    obtain ⟨here, inside⟩ := List.cons_subset.1 inside
    have room : Open raw [] raw.length := ⟨.nil, by simp, by simp⟩
    have first := resolveFrom_keeps room (.singleton name) (fun _ => here) sound
    rw [forM_cons, StateT.run_bind, discard_run, bind_assoc]
    refine first.bind fun w t' sound' known => ?_
    rw [pure_bind]
    have rest := ih inside sound'
    refine ⟨fun u t'' ok => ?_, rest.fails⟩
    obtain ⟨sound'', grown, others⟩ := rest.gives u t'' ok
    exact ⟨sound'', grown, List.cons_subset.2 ⟨grown known.2, others⟩⟩

theorem resolution_ok (h : resolution raw = .ok t) :
    Sound raw.get? t ∧ raw.names ⊆ t.names := by
  obtain ⟨⟨_, _⟩, run, h⟩ := bind_eq_ok.1 h
  obtain rfl := pure_eq_ok.1 h
  have all := forM_resolveFrom (List.Subset.refl raw.names) Sound.nil
  exact ⟨(all.gives _ _ run).1, (all.gives _ _ run).2.2⟩

/-- Resolution fails over what is to be blamed. -/
theorem resolution_blames (raw : Table Value) : FailsBy (Blame raw.get?) (resolution raw) :=
  .bind (forM_resolveFrom (List.Subset.refl raw.names) Sound.nil).fails fun _ _ => .ok _

/-- Resolution finds what each parameter stands for, and nothing else. -/
theorem get?_resolution (h : resolution raw = .ok t) :
    t.get? name = some w ↔ Stands raw.get? name w := by
  obtain ⟨sound, all⟩ := resolution_ok h
  refine ⟨sound.stands name w, fun stands => ?_⟩
  obtain ⟨v, there, -⟩ := id stands
  obtain ⟨x, known⟩ := Table.exists_get? (all (Table.mem_names (Table.mem_of_get? there)))
  rw [known, (sound.stands name x known).unique stands]

theorem mem_names_resolution (h : resolution raw = .ok t) : name ∈ t.names ↔ name ∈ raw.names := by
  obtain ⟨sound, all⟩ := resolution_ok h
  refine ⟨fun known => ?_, fun there => all there⟩
  obtain ⟨w, known⟩ := Table.exists_get? known
  obtain ⟨v, there, -⟩ := sound.stands name w known
  exact Table.mem_names (Table.mem_of_get? there)

/-- All parameters resolve just where nothing keeps one of them from standing for something. -/
theorem resolution_iff : (∃ t, resolution raw = .ok t) ↔ Resolvable raw.get? := by
  constructor
  · rintro ⟨t, h⟩
    refine resolvable_of_stands fun name v there => ?_
    obtain ⟨w, known⟩ := Table.exists_get?
      ((mem_names_resolution h).2 (Table.mem_names (Table.mem_of_get? there)))
    exact ⟨w, (get?_resolution h).1 known⟩
  · intro resolvable
    cases h : resolution raw with
    | ok t => exact ⟨t, rfl⟩
    | error e => exact absurd resolvable (resolution_blames raw e h).not_resolvable

/-! ## Bags in another order -/

/-- The bags hold the same parameters, in whatever order. -/
structure Shuffled (bag bag' : Bag) : Prop where
  unique : bag.raw.names.Nodup
  raw : bag.raw.Perm bag'.raw
  resolved : Option.Rel (fun t t' => t.names.Nodup ∧ t.Perm t') bag.resolved bag'.resolved

/-- Parameters that were set in another order resolve to the same values. -/
theorem resolution_perm {raw' : Table Value} (unique : raw.names.Nodup) (perm : raw.Perm raw')
    (h : resolution raw = .ok t) :
    ∃ t', resolution raw' = .ok t' ∧ ∀ name, t'.get? name = t.get? name := by
  have same : raw'.get? = raw.get? := funext fun name => Table.get?_perm unique perm
  have resolvable : Resolvable raw'.get? := same ▸ resolution_iff.1 ⟨t, h⟩
  obtain ⟨t', h'⟩ := resolution_iff.2 resolvable
  refine ⟨t', h', fun name => Option.ext fun w => ?_⟩
  rw [get?_resolution h', get?_resolution h, same]

/-- Bags that hold the same parameters resolve to the same values. -/
theorem Shuffled.resolveAll {bag bag' bag₁ : Bag} (h : Shuffled bag bag')
    (run : bag.resolveAll = .ok (bag₁, t)) :
    ∃ bag₁' t', bag'.resolveAll = .ok (bag₁', t') ∧ ∀ name, t'.get? name = t.get? name := by
  obtain ⟨unique, raw, resolved⟩ := h
  unfold Bag.resolveAll at run ⊢
  cases hr : bag.resolved with
  | some r =>
    rw [hr] at run resolved
    cases hr' : bag'.resolved with
    | none => rw [hr'] at resolved; cases resolved
    | some r' =>
      rw [hr'] at resolved
      cases resolved with
      | some same =>
        obtain ⟨rfl, rfl⟩ := Prod.mk.inj (Except.ok.inj run)
        exact ⟨bag', r', rfl, fun name => Table.get?_perm same.1 same.2⟩
  | none =>
    rw [hr] at run resolved
    cases hr' : bag'.resolved with
    | some r' => rw [hr'] at resolved; cases resolved
    | none =>
      obtain ⟨r, resolves, run⟩ := bind_eq_ok.1 run
      obtain ⟨rfl, rfl⟩ := Prod.mk.inj (pure_eq_ok.1 run)
      obtain ⟨t', resolves', same⟩ := resolution_perm unique raw resolves
      exact ⟨_, t', bind_eq_ok.2 ⟨t', resolves', rfl⟩, same⟩

end Bag

end Wiring

/-!
## What the resolution of parameters fails with

Parameters that are missing, that refer to themselves or that have no place in a text are faults. A
key of a dictionary that stands for a list or a dictionary is none: it fails as every such key does.
-/

namespace Wiring

namespace Value

mutual

/-- Whether a value can be a key whatever parameters stand for: it can be one as it is, and no text
in it is a single placeholder. -/
def isFirm : Value → Bool
  | .str s => match Piece.ofText s with | [.placeholder _] => false | _ => true
  | .tuple items => areFirm items
  | .list _ | .dict _ => false
  | _ => true

/-- Whether several values can be keys. -/
def areFirm : List Value → Bool
  | [] => true
  | v :: vs => isFirm v && areFirm vs

end

variable {given : String → Option Value}

mutual

/-- What can be a key whatever parameters stand for means a value that can be a key. -/
theorem Means.hashable {v w : Value} (h : Means given v w) (firm : v.isFirm = true) :
    w.unhashable? = none := by
  match v with
  | .str s =>
    cases h with
    | whole reads => simp [isFirm, Piece.reads_iff.1 reads] at firm
    | text => rfl
    | scalar scalar => exact scalar.elim
  | .tuple items =>
    cases h with
    | tuple items =>
      rw [unhashable?]
      exact items.hashable (by simpa [isFirm] using firm)
    | scalar scalar => exact scalar.elim
  | .list _ | .dict _ => simp [isFirm] at firm
  | .null | .bool _ | .int _ | .real _ | .object _ | .type _ | .hint _ | .built _
  | .deferred _ _ =>
    cases h
    simp only [unhashable?]

theorem AllMean.hashable {vs ws : List Value} (h : AllMean given vs ws)
    (firm : areFirm vs = true) : firstUnhashable? ws = none := by
  match vs with
  | [] =>
    cases h
    rw [firstUnhashable?]
  | v :: vs =>
    rw [areFirm, Bool.and_eq_true] at firm
    cases h with
    | cons first rest =>
      rw [firstUnhashable?, first.hashable firm.1, rest.hashable firm.2, Option.or_none]

end

end Value

namespace Bag

variable {raw : Table Value} {e : Failure}

/-- A failure of the resolution: a fault, or a value that is no key where one is needed, which takes
a dictionary with a key that can stand for such a value. -/
def Mishap (raw : Table Value) (e : Failure) : Prop :=
  e.IsFault ∨ ∃ typeName, e = .unhashable typeName ∧
    ∃ p ∈ raw, ∃ k ∈ p.2.keys, k.isFirm = false

theorem Blame.mishap (h : Blame raw.get? e) : Mishap raw e := by
  cases h with
  | circular | undefined | wordless => exact .inl (Failure.isFault _ _)
  | @unhashable owner typeName v k w there key means unfit =>
    refine .inr ⟨typeName, rfl, (owner, v), Table.mem_of_get? there, k, key, ?_⟩
    cases firm : k.isFirm with
    | false => rfl
    | true => cases unfit.symm.trans (means.hashable firm)

theorem resolveAll_fails (bag : Bag) : FailsBy (Mishap bag.raw) bag.resolveAll := by
  unfold resolveAll
  cases bag.resolved with
  | some resolved => exact .ok _
  | none =>
    exact .bind ((resolution_blames bag.raw).mono fun _ => Blame.mishap) fun _ _ => .ok _

end Bag

end Wiring
