import MarkupPath.Proofs.Search.Slots
import Mathlib.Data.List.Chain

/-!
# Where an iterator rests

An iterator is asked for its next match, or to advance, in any order. Main statement
(`Iterator.reached_isSettled`): unless such a call is refused a lookup, it leaves an iterator that
is exhausted or whose slots are all bound, the first one to the anchor of the path and each other
one to a node that its step selects at the node of the slot before. Where that is so, calls fail for
no other reason than a refused lookup; in particular nothing that a search takes for granted is
found broken.

A call that is refused a lookup leaves the slots as they are then: bound up to one of them, and the
last of these to a candidate that needn't be selected. Whatever calls follow, it doesn't get worse.
No search is led out of the tree, and the only assumption that can be found broken is that the last
slot is bound. That one can (`broken_interruptedPath`).
-/

namespace MarkupPath

/-! ## Calls to an iterator -/

/-- What an iterator can be asked for. -/
inductive Move where
  /-- to advance -/
  | advance
  /-- the next match -/
  | next
deriving DecidableEq, Repr

namespace Move

/-- What an iterator answers. Advancing gives no node. -/
def run : Move → Overwriting Iterator (Option Position)
  | advance => do
    Iterator.advance
    return none
  | next => Iterator.next

/-- What a cursor would answer, and where it would rest then. -/
def pull : Move → Cursor → Reading (Option Position × Cursor)
  | advance, cursor => return (none, ← cursor.advance)
  | next, cursor => cursor.pull

/-- An iterator answers what a cursor would. -/
theorem run_eq (move : Move) (first : Step) {cursor : Cursor} (hs : cursor.IsSound) :
    (move.run.run (cursor.iterator first)).1 = Prod.fst <$> move.pull cursor ∧
      ∀ found left, (move.pull cursor).outcome = .ok (found, left) →
        (move.run.run (cursor.iterator first)).2 = left.iterator first := by
  cases move with
  | next => exact Iterator.next_eq first hs
  | advance =>
    obtain ⟨ha, hl⟩ := Iterator.advance_eq first hs
    rw [run, Overwriting.run_bind_pure, ha]
    refine ⟨?_, ?_⟩
    · simp only [pull, map_eq_pure_bind, bind_assoc, pure_bind]
    · intro found left ho
      obtain ⟨next, hv, ho⟩ := Reading.outcome_bind_eq_ok.mp ho
      cases ho
      exact hl left hv

/-- A call gives the match that is pending, or it moves the iterator on. -/
theorem run_cases (move : Move) (iterator : Iterator) :
    iterator.pending = true ∧
        move.run.run iterator = (pure iterator.current?, { iterator with pending := false }) ∨
      ∃ answer : Unit → Option Position, move.run.run iterator =
        (answer <$> (Iterator.advance.run iterator).1, (Iterator.advance.run iterator).2) := by
  cases move with
  | advance => exact .inr ⟨_, Overwriting.run_bind_pure Iterator.advance _ iterator⟩
  | next =>
    rw [run, Iterator.run_next]
    split
    · rename_i hp
      exact .inl ⟨hp, rfl⟩
    · exact .inr ⟨_, rfl⟩

end Move

namespace Iterator

/-- The iterators over a path that calls lead to, none of which failed. -/
inductive Reached (path : Path) : Iterator → Prop where
  /-- as it's started -/
  | start {iterator : Iterator} :
    (Iterator.start path).outcome = .ok iterator → Reached path iterator
  /-- after a call -/
  | move {iterator : Iterator} {found : Option Position} (move : Move) :
    Reached path iterator → (move.run.run iterator).1.outcome = .ok found →
    Reached path (move.run.run iterator).2

/-- What calls leave of an iterator, no matter which of them fail. -/
def after (iterator : Iterator) (moves : List Move) : Iterator :=
  moves.foldl (fun iterator move => (move.run.run iterator).2) iterator

end Iterator

/-! ## Slots along a path -/

namespace Slot

/-- A slot is bound to a candidate of its step where the slot before is bound. -/
def IsTriedBehind (before slot : Slot) : Prop :=
  ∃ context node, before.node = some context ∧ slot.node = some node ∧
    node ∈ slot.step.candidates context

/-- A slot is bound to a node that its step selects where the slot before is bound. -/
def IsBoundBehind (before slot : Slot) : Prop :=
  ∃ context node, before.node = some context ∧ slot.node = some node ∧
    node ∈ slot.step.selects context

end Slot

namespace Slots

/-- The slots of all steps of a path are bound, the first one to its anchor. -/
structure AreBoundAlong (path : Path) (slots : List Slot) : Prop where
  /-- there's one for each step -/
  steps : slots.map Slot.step = path.steps
  /-- the search starts at the anchor -/
  anchor : ∃ anchor, path.anchor = some anchor ∧ slots.head?.bind Slot.node = some anchor
  /-- each of the others is bound behind the one before -/
  chain : slots.IsChain Slot.IsBoundBehind

/-- The slots of all steps of a path are bound up to one of them, which needn't be selected. -/
structure AreBoundUpTo (path : Path) (front : List Slot) (last : Slot) (behind : List Slot) :
    Prop where
  /-- there's one for each step -/
  steps : (front ++ last :: behind).map Slot.step = path.steps
  /-- the search starts at the anchor -/
  anchor : ∃ anchor, path.anchor = some anchor ∧
    (front ++ [last]).head?.bind Slot.node = some anchor
  /-- each of those in front is bound behind the one before -/
  chain : front.IsChain Slot.IsBoundBehind
  /-- the last one is bound to a candidate -/
  tried : ∀ before, front.getLast? = some before → before.IsTriedBehind last
  /-- those behind aren't bound -/
  unbound : ∀ slot ∈ behind, slot.node = none

variable {path : Path} {first : Step} {anchor : Position} {trail : List Bound}

/-- The slots of a sound trail are bound one behind the other. -/
theorem ofTrail_chain (first : Step) (h : Search.IsSound anchor trail) :
    (ofTrail first anchor trail).IsChain Slot.IsBoundBehind := by
  induction trail with
  | nil => exact .singleton _
  | cons last trail ih =>
    rw [ofTrail_cons, List.isChain_append]
    refine ⟨ih h.2, .singleton _, ?_⟩
    -- the slot in front of the last one is bound to where the trail ends
    intro before hb slot hs
    have hl := getLast?_ofTrail first anchor trail
    rw [Option.mem_def.mp hb] at hl
    obtain rfl := Option.some.inj hs
    exact ⟨_, _, hl, rfl, h.1⟩

theorem map_step_ofTrail (first : Step) (anchor : Position) (trail : List Bound) :
    (ofTrail first anchor trail).map Slot.step = first :: (trail.map Bound.step).reverse := by
  simp [ofTrail, Bound.slot, Function.comp_def]

/-- The slots of a trail that is sound but for its last node are bound up to that. -/
theorem exists_areBoundUpTo (rest : List Step) (hf : path.steps = first :: path.steps.drop 1)
    (ha : path.anchor = some anchor) (ht : Search.IsTried anchor trail)
    (hs : (trail.map Bound.step).reverse ++ rest = path.steps.drop 1) :
    ∃ front last, ofTrail first anchor trail ++ unbound rest = front ++ last :: unbound rest ∧
      AreBoundUpTo path front last (unbound rest) := by
  have hunbound : ∀ slot ∈ unbound rest, slot.node = none := by
    intro slot hm
    obtain ⟨step, -, rfl⟩ := List.mem_map.mp hm
    rfl
  have hsteps : (ofTrail first anchor trail ++ unbound rest).map Slot.step = path.steps := by
    rw [List.map_append, map_step_ofTrail, map_step_unbound, List.cons_append, hs, ← hf]
  cases trail with
  | nil => exact ⟨[], ⟨first, some anchor⟩, rfl, hsteps, ⟨anchor, ha, rfl⟩, .nil, nofun, hunbound⟩
  | cons last trail =>
    have hslots : ofTrail first anchor (last :: trail) ++ unbound rest =
        ofTrail first anchor trail ++ last.slot :: unbound rest := by
      rw [ofTrail_cons, List.append_assoc, List.singleton_append]
    refine ⟨ofTrail first anchor trail, last.slot, hslots, hslots ▸ hsteps, ⟨anchor, ha, rfl⟩,
      ofTrail_chain first ht.2, ?_, hunbound⟩
    intro before hb
    have hl := getLast?_ofTrail first anchor trail
    rw [hb] at hl
    exact ⟨_, _, hl, rfl, ht.1⟩

end Slots

namespace Iterator

/-- An iterator that is exhausted. -/
def IsAtEnd (iterator : Iterator) : Prop :=
  iterator.slots = [] ∧ iterator.current? = none ∧ iterator.pending = false

/-- An iterator that is exhausted, or rests where all its slots are bound along a path. -/
def IsSettled (path : Path) (iterator : Iterator) : Prop :=
  iterator.IsAtEnd ∨ Slots.AreBoundAlong path iterator.slots

/-- An iterator that is exhausted, or rests where its slots are bound up to one of them. -/
def IsHalted (path : Path) (iterator : Iterator) : Prop :=
  iterator.IsAtEnd ∨ ∃ front last behind,
    iterator.slots = front ++ last :: behind ∧ Slots.AreBoundUpTo path front last behind

end Iterator

/-! ## Cursors along a path -/

namespace Cursor

variable {path : Path} {first : Step} {cursor : Cursor}

/-- A cursor that is exhausted, or rests at the end of a trail along the path. -/
def IsAlong (path : Path) : Cursor → Prop
  | exhausted => True
  | resting anchor trail _ =>
    path.anchor = some anchor ∧ Search.IsSound anchor trail ∧
      (trail.map Bound.step).reverse = path.steps.drop 1

theorem IsAlong.isSettled (hf : path.steps = first :: path.steps.drop 1)
    (h : cursor.IsAlong path) : (cursor.iterator first).IsSettled path := by
  cases cursor with
  | exhausted => exact .inl ⟨rfl, rfl, rfl⟩
  | resting anchor trail pending =>
    obtain ⟨ha, hs, hb⟩ := h
    refine .inr ⟨?_, ⟨anchor, ha, rfl⟩, Slots.ofTrail_chain first hs⟩
    rw [hf, ← hb]
    exact Slots.map_step_ofTrail first anchor trail

/-- Starting a cursor fails only if a lookup is refused. -/
theorem start_isLookup (h : path.steps ≠ []) : (start path).IsLookup := by
  intro error he
  have hs := path.start_shows h
  rw [he] at hs
  generalize path.sightings = seen at hs
  cases hs with
  | refused refusal more => exact ⟨refusal, rfl⟩

/-- A cursor is started along its path. -/
theorem start_along (h : path.steps ≠ []) (ho : (start path).outcome = .ok cursor) :
    cursor.IsAlong path := by
  obtain ⟨anchor, steps⟩ := path
  cases steps with
  | nil => exact absurd rfl h
  | cons first steps =>
    cases anchor with
    | none =>
      cases ho
      trivial
    | some anchor =>
      obtain ⟨found, hfound, ho⟩ := Reading.outcome_bind_eq_ok.mp ho
      cases ho
      have hb := Search.bindBelow_reaches steps (show Search.IsSound anchor [] from trivial)
      rw [Search.endOf, hfound, List.map_nil, List.append_nil] at hb
      generalize sightings anchor steps = seen at hb
      cases hb with
      | nothing => trivial
      | trail hs hb hu => exact ⟨rfl, hs, by rw [hb, List.reverse_reverse]; rfl⟩

end Cursor

/-! ## Iterators along a path -/

namespace Iterator

variable {path : Path} {first : Step} {iterator : Iterator}

/-- How calls leave an iterator along a path, whether they fail or not. -/
inductive Halts (path : Path) (first : Step) : Iterator → Prop where
  /-- it's exhausted -/
  | exhausted : Halts path first {}
  /-- all slots are bound, the last one to a candidate -/
  | bound {anchor : Position} {trail : List Bound} (pending : Bool) :
    path.anchor = some anchor → Search.IsTried anchor trail →
    (trail.map Bound.step).reverse = path.steps.drop 1 →
    Halts path first ((Cursor.resting anchor trail pending).iterator first)
  /-- the slots are bound up to one in front of the last -/
  | stuck {anchor : Position} {trail : List Bound} (step : Step) (rest : List Step) :
    path.anchor = some anchor → Search.IsTried anchor trail →
    (trail.map Bound.step).reverse ++ step :: rest = path.steps.drop 1 →
    Halts path first
      { slots := Slots.ofTrail first anchor trail ++ Slots.unbound (step :: rest) }

theorem Halts.of_along (first : Step) {cursor : Cursor} (h : cursor.IsAlong path) :
    Halts path first (cursor.iterator first) := by
  cases cursor with
  | exhausted => exact .exhausted
  | resting anchor trail pending => exact .bound pending h.1 h.2.1.isTried h.2.2

/-- Moving on from where all slots are bound, the last one to a candidate. -/
theorem advance_bound {anchor : Position} {trail : List Bound} (pending : Bool)
    (ha : path.anchor = some anchor) (ht : Search.IsTried anchor trail)
    (hs : (trail.map Bound.step).reverse = path.steps.drop 1) :
    let moved := advance.run ((Cursor.resting anchor trail pending).iterator first)
    moved.1.IsLookup ∧ Halts path first moved.2 ∧
      ∀ done, moved.1.outcome = .ok done →
        ∃ left : Cursor, moved.2 = left.iterator first ∧ left.IsAlong path := by
  intro moved
  obtain ⟨hr, hl⟩ := advance_lands first pending ht
  rw [hs] at hl
  change moved.1 = _ at hr
  change Lands _ _ _ _ moved.2 at hl
  rw [Reading.IsLookup, hr]
  simp only [Reading.outcome_map_eq_error, Reading.outcome_map_eq_ok]
  generalize moved.2 = left at hl
  generalize (Search.resume anchor trail []).outcome = outcome at hl
  cases hl with
  | exhausted => exact ⟨nofun, .exhausted, fun _ _ => ⟨.exhausted, rfl, trivial⟩⟩
  | resting trail hs ht =>
    have hc : (Cursor.resting anchor trail false).IsAlong path := ⟨ha, ht, hs⟩
    exact ⟨nofun, .of_along first hc, fun _ _ => ⟨_, rfl, hc⟩⟩
  | refused refusal trail rest hs ht =>
    refine ⟨?_, ?_, nofun⟩
    · intro error he
      cases he
      exact ⟨refusal, rfl⟩
    · -- if all slots are bound nevertheless, the search can go on from there
      cases rest with
      | nil =>
        rw [List.append_nil] at hs
        rw [show Slots.unbound [] = [] from rfl, List.append_nil]
        exact .bound false ha ht hs
      | cons step rest => exact .stuck step rest ha ht hs

/-- The last slot is taken to be bound. -/
theorem advance_of_unbound {slots : List Slot} {last : Step} (pending : Bool)
    (hl : slots.getLast? = some { step := last }) (hn : 1 < slots.length) :
    advance.run { slots, pending } = (.fail (.broken .bound), { slots }) := by
  obtain ⟨index, hi⟩ := Nat.exists_eq_add_of_lt hn
  have hlast : slots[index + 1]? = some { step := last } := by
    rw [← hl, List.getLast?_eq_getElem?, hi]
    congr 1
    omega
  have hlength : slots.length - 1 = index + 1 := by omega
  have hmoved : (Slots.moveOn (index + 1)).run slots = (.fail (.broken .bound), slots) := by
    rw [Slots.moveOn, Overwriting.run_bind_of_pure _ (Overwriting.run_get _), hlast]
    cases slots[index]?.bind Slot.node <;> rfl
  simp only [advance, hlength, hmoved]
  rfl

theorem getLast?_unbound (slots : List Slot) (step : Step) (rest : List Step) :
    ∃ last, (slots ++ Slots.unbound (step :: rest)).getLast? = some { step := last } := by
  refine ⟨(step :: rest).getLast (List.cons_ne_nil _ _), ?_⟩
  rw [List.getLast?_append, Slots.unbound, List.getLast?_map,
    List.getLast?_eq_some_getLast (List.cons_ne_nil step rest)]
  rfl

/-- So an iterator can't be moved on if the last slot isn't bound. -/
theorem advance_of_stuck (first : Step) (anchor : Position) (trail : List Bound) (step : Step)
    (rest : List Step) :
    let slots := Slots.ofTrail first anchor trail ++ Slots.unbound (step :: rest)
    advance.run { slots } = (.fail (.broken .bound), { slots }) ∧
      ∃ slot, slots.getLast? = some slot ∧ slot.node = none := by
  obtain ⟨last, hl⟩ := getLast?_unbound (Slots.ofTrail first anchor trail) step rest
  refine ⟨advance_of_unbound false hl ?_, _, hl, rfl⟩
  rw [List.length_append, Slots.length_ofTrail, Slots.unbound, List.length_map, List.length_cons]
  omega

/-- Whatever an iterator is asked for, it's left like that again; and a call fails only if a lookup
is refused, or if the last slot isn't bound. -/
theorem Halts.move (h : Halts path first iterator) (move : Move) :
    Halts path first (move.run.run iterator).2 ∧
      ∀ error, (move.run.run iterator).1.outcome = .error error →
        (∃ refusal, error = .lookup refusal) ∨
        error = .broken .bound ∧
          ∃ slot, iterator.slots.getLast? = some slot ∧ slot.node = none := by
  rcases move.run_cases iterator with ⟨hp, hm⟩ | ⟨answer, hm⟩
  · -- the pending match is given
    rw [hm]
    refine ⟨?_, nofun⟩
    cases h with
    | exhausted => exact .exhausted
    | bound pending ha ht hs => exact .bound false ha ht hs
    | stuck step rest ha ht hs => exact .stuck step rest ha ht hs
  · rw [hm]
    simp only [Reading.outcome_map_eq_error]
    cases h with
    | exhausted => exact ⟨.exhausted, nofun⟩
    | bound pending ha ht hs =>
      obtain ⟨hl, hh, -⟩ := advance_bound pending ha ht hs
      exact ⟨hh, fun error he => .inl (hl error he)⟩
    | @stuck anchor trail step rest ha ht hs =>
      obtain ⟨hstuck, hlast⟩ := advance_of_stuck first anchor trail step rest
      rw [hstuck]
      refine ⟨.stuck step rest ha ht hs, ?_⟩
      intro error he
      cases he
      exact .inr ⟨rfl, hlast⟩

/-- By induction on the calls. -/
theorem Halts.after (moves : List Move) (h : Halts path first iterator) :
    Halts path first (iterator.after moves) := by
  induction moves generalizing iterator with
  | nil => exact h
  | cons move moves ih => exact ih (h.move move).1

theorem Halts.isHalted (hf : path.steps = first :: path.steps.drop 1)
    (h : Halts path first iterator) : iterator.IsHalted path := by
  cases h with
  | exhausted => exact .inl ⟨rfl, rfl, rfl⟩
  | @bound anchor trail pending ha ht hs =>
    have hslots := Slots.exists_areBoundUpTo [] hf ha ht (by rwa [List.append_nil])
    rw [show Slots.unbound [] = [] from rfl, List.append_nil] at hslots
    obtain ⟨front, last, hl, hu⟩ := hslots
    exact .inr ⟨front, last, [], hl, hu⟩
  | stuck step rest ha ht hs =>
    obtain ⟨front, last, hl, hu⟩ := Slots.exists_areBoundUpTo _ hf ha ht hs
    exact .inr ⟨front, last, _, hl, hu⟩

/-- A call leaves an iterator that rests like a cursor along a path, unless a lookup is refused. -/
theorem move_along {cursor : Cursor} (h : cursor.IsAlong path) (move : Move) :
    (move.run.run (cursor.iterator first)).1.IsLookup ∧
      ∀ found, (move.run.run (cursor.iterator first)).1.outcome = .ok found →
        ∃ left : Cursor, (move.run.run (cursor.iterator first)).2 = left.iterator first ∧
          left.IsAlong path := by
  rcases move.run_cases (cursor.iterator first) with ⟨hp, hm⟩ | ⟨answer, hm⟩
  · rw [hm]
    refine ⟨nofun, ?_⟩
    intro found ho
    cases cursor with
    | exhausted => cases hp
    | resting anchor trail pending => exact ⟨.resting anchor trail false, rfl, h⟩
  · rw [hm]
    simp only [Reading.IsLookup, Reading.outcome_map_eq_error, Reading.outcome_map_eq_ok]
    cases cursor with
    | exhausted => exact ⟨nofun, fun _ _ => ⟨.exhausted, rfl, trivial⟩⟩
    | resting anchor trail pending =>
      obtain ⟨ha, ht, hs⟩ := h
      obtain ⟨hl, -, hc⟩ := advance_bound pending ha ht.isTried hs
      exact ⟨hl, fun found ⟨done, ho, _⟩ => hc done ho⟩

theorem start_along {iterator : Iterator} (hf : path.steps = first :: path.steps.drop 1)
    (ho : (start path).outcome = .ok iterator) :
    ∃ cursor : Cursor, iterator = cursor.iterator first ∧ cursor.IsAlong path := by
  rw [start_eq hf, Reading.outcome_map_eq_ok] at ho
  obtain ⟨cursor, ho, rfl⟩ := ho
  have hne : path.steps ≠ [] := by
    rw [hf]
    exact List.cons_ne_nil _ _
  exact ⟨cursor, rfl, Cursor.start_along hne ho⟩

/-- An iterator that is reached rests like a cursor along the path. -/
theorem Reached.exists_cursor (hf : path.steps = first :: path.steps.drop 1)
    (h : Reached path iterator) :
    ∃ cursor : Cursor, iterator = cursor.iterator first ∧ cursor.IsAlong path := by
  induction h with
  | start ho => exact start_along hf ho
  | move move _ ho ih =>
    obtain ⟨cursor, rfl, hc⟩ := ih
    exact (move_along hc move).2 _ ho

/-- Calls leave an iterator settled on its path, as long as none of them fails, and the only reason
for one to fail is that a lookup is refused. Whatever calls fail, they leave the slots bound up to
one of them; and a call in such a state fails for the same reason, or since it's taken for granted
that the last slot is bound. -/
theorem reached_isSettled (h : path.steps ≠ []) :
    (Iterator.start path).IsLookup ∧
    (∀ iterator, Reached path iterator →
      iterator.IsSettled path ∧ ∀ move : Move, (move.run.run iterator).1.IsLookup) ∧
    ∀ iterator moves, (Iterator.start path).outcome = .ok iterator →
      (iterator.after moves).IsHalted path ∧
      ∀ (move : Move) (error : Error),
        (move.run.run (iterator.after moves)).1.outcome = .error error →
        (∃ refusal, error = .lookup refusal) ∨
        error = .broken .bound ∧
          ∃ slot, (iterator.after moves).slots.getLast? = some slot ∧ slot.node = none := by
  obtain ⟨first, steps, hp⟩ := List.exists_cons_of_ne_nil h
  have hf : path.steps = first :: path.steps.drop 1 := by rw [hp]; rfl
  refine ⟨?_, ?_, ?_⟩
  · intro error he
    rw [start_eq hf, Reading.outcome_map_eq_error] at he
    exact Cursor.start_isLookup h error he
  · intro iterator hr
    obtain ⟨cursor, rfl, hc⟩ := hr.exists_cursor hf
    exact ⟨hc.isSettled hf, fun move => (move_along hc move).1⟩
  · intro iterator moves ho
    obtain ⟨cursor, rfl, hc⟩ := start_along hf ho
    have hh := (Halts.of_along first hc).after moves
    exact ⟨hh.isHalted hf, fun move => (hh.move move).2⟩

end Iterator

/-- An iterator over the three nodes of a nested path. -/
def nestedIterator : Iterator :=
  match (Iterator.start nestedPath).outcome with
  | .ok iterator => iterator
  | .error _ => {}

/-- It's asked for its first match, and advances to the second one. -/
theorem isSettled_nestedIterator :
    nestedPath.steps ≠ [] ∧ ∃ iterator, Iterator.Reached nestedPath iterator ∧
      iterator.current?.map Position.id = some ⟨4⟩ ∧ iterator.IsSettled nestedPath := by
  have hs : Iterator.Reached nestedPath nestedIterator := .start (by decide +kernel)
  have hn := hs.move .next (show Reading.outcome _ = .ok nestedIterator.current? by decide +kernel)
  have ha := hn.move .advance (show Reading.outcome _ = .ok none by decide +kernel)
  exact ⟨by decide, _, ha, by decide +kernel, ((Iterator.reached_isSettled (by decide)).2.1 _ ha).1⟩

/-- Three nodes, one of which has a name that no element can have. It's in the way of a search that
has found another one before. -/
def interruptedPath : Path where
  anchor := some (.top ⟨{ id := ⟨0⟩, name := { localPart := "r" } },
    .element { id := ⟨1⟩, name := { localPart := "a" } }
      (.element { id := ⟨2⟩, name := { localPart := "b" } } .nil none .nil) none
      (.element { id := ⟨3⟩, name := { localPart := "a" } }
        (.element { id := ⟨4⟩, name := { localPart := "p:c" } } .nil none .nil) none .nil)⟩)
  steps := [{}, { axis := .anyChild }, { name := "b" }]

/-- The iterator that is started along it rests at the first of them. -/
def interruptedIterator : Iterator :=
  match (Iterator.start interruptedPath).outcome with
  | .ok iterator => iterator
  | .error _ => {}

theorem start_interruptedPath :
    (Iterator.start interruptedPath).outcome = .ok interruptedIterator := by
  decide +kernel

/-- A call that is refused a lookup leaves a slot unbound, and the next one takes it for granted
that there's none. -/
theorem broken_interruptedPath :
    ¬ ∀ (path : Path) (iterator : Iterator) (moves : List Move), path.steps ≠ [] →
      (Iterator.start path).outcome = .ok iterator →
      (iterator.after moves).IsSettled path ∧
      ∀ move : Move, (move.run.run (iterator.after moves)).1.outcome ≠ .error (.broken .bound) := by
  intro h
  have hn := (h interruptedPath interruptedIterator [.advance] (by decide) start_interruptedPath).2
    .advance
  apply hn
  decide +kernel

end MarkupPath
