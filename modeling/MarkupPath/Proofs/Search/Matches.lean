import MarkupPath.Proofs.Search.Backtracking

/-!
# The matches of a path

A cursor is moved from match to match. Main statement: what it rests at after its start and after
each move is the listing of all nodes that the path selects, in that order and as often as they are
listed there, and nothing behind them (`Path.currentAfter_eq_selected`). It's read off what the
cursor has upcoming, which every move shortens by the match that it leaves.

All of this is subject to refusals: a search ends where a lookup is refused, and it runs undisturbed
exactly if it comes upon no refusal.
-/

namespace MarkupPath

namespace Cursor

/-- What a cursor has upcoming, the match where it rests being the first. -/
def upcoming : Cursor → List Sighting
  | exhausted => []
  | resting anchor trail _ => .ok (Search.endOf anchor trail) :: Search.upcoming anchor trail []

/-- A cursor that rests where a sound trail ends, if it rests. -/
def IsSound : Cursor → Prop
  | exhausted => True
  | resting anchor trail _ => Search.IsSound anchor trail

/-- What a search for sightings gives: a cursor that has them upcoming, unless the first one is a
refusal. -/
inductive Shows : List Sighting → Except Error Cursor → Prop where
  /-- the cursor rests at the first sighting, or is exhausted if there's none -/
  | cursor (cursor : Cursor) : cursor.IsSound → Shows cursor.upcoming (.ok cursor)
  /-- the first sighting is a refusal -/
  | refused (refusal : Refusal) (more : List Sighting) :
    Shows (.error refusal :: more) (.error (.lookup refusal))

theorem ofTrail_shows {anchor : Position} {bound : List Step} {seen : List Sighting}
    {found : Reading (Option (List Bound))} (pending : Bool)
    (h : Search.Reaches anchor bound [] seen found.outcome) :
    Shows seen (do return ofTrail anchor pending (← found) : Reading Cursor).outcome := by
  rw [Reading.outcome_bind]
  generalize found.outcome = outcome at h
  cases h with
  | nothing => exact .cursor exhausted trivial
  | refused refusal more => exact .refused refusal more
  | @trail trail more hs hb hu =>
    rw [List.append_nil] at hu
    rw [← hu]
    exact .cursor (resting anchor trail pending) hs

/-- A move leaves the current match behind. -/
theorem advance_shows {cursor : Cursor} (h : cursor.IsSound) :
    Shows cursor.upcoming.tail cursor.advance.outcome := by
  cases cursor with
  | exhausted => exact .cursor exhausted trivial
  | resting anchor trail pending => exact ofTrail_shows false (Search.resume_reaches _ h)

/-- Moves a number of times to the next match. -/
def advanceBy : Nat → Cursor → Reading Cursor
  | 0, cursor => return cursor
  | n + 1, cursor => do (← cursor.advance).advanceBy n

/-- After n moves a cursor rests at the match with that index among those that it had upcoming. -/
theorem current?_advanceBy {cursor : Cursor} (n : Nat) (h : cursor.IsSound) :
    (cursor.advanceBy n).outcome.map current? =
      (sightingAt n cursor.upcoming).mapError .lookup := by
  induction n generalizing cursor with
  | zero => cases cursor <;> rfl
  | succ n ih =>
    rw [advanceBy, Reading.outcome_bind]
    have ha := advance_shows h
    cases cursor with
    | exhausted => 
      have hi := ih (show exhausted.IsSound from trivial)
      exact hi.trans (by cases n <;> rfl)
    | resting anchor trail pending =>
      rw [upcoming, List.tail_cons] at ha
      rw [upcoming, sightingAt]
      generalize (advance (resting anchor trail pending)).outcome = outcome at ha
      generalize Search.upcoming anchor trail [] = seen at ha
      cases ha with
      | cursor next hs => exact ih hs
      | refused refusal more => cases n <;> rfl

end Cursor

namespace Path

/-- What a search along a path comes upon. Without an anchor that is nothing. -/
def sightings (path : Path) : List Sighting :=
  match path.anchor with
  | none => []
  | some anchor => MarkupPath.sightings anchor (path.steps.drop 1)

/-- The nodes that a path selects. Without an anchor there are none. -/
def selected (path : Path) : List Position :=
  match path.anchor with
  | none => []
  | some anchor => MarkupPath.selected anchor (path.steps.drop 1)

/-- No lookup is refused in the course of a search for all matches. -/
def IsReadable (path : Path) : Prop := ∀ sighting ∈ path.sightings, sighting.isOk = true

instance (path : Path) : Decidable path.IsReadable :=
  inferInstanceAs (Decidable (∀ sighting ∈ path.sightings, sighting.isOk = true))

/-- The current match after a cursor was started and then moved a number of times. -/
def currentAfter (path : Path) (n : Nat) : Reading (Option Position) := do
  let cursor ← Cursor.start path
  return (← cursor.advanceBy n).current?

theorem sightings_agrees (path : Path) : Agrees path.sightings path.selected := by
  simp only [sightings, selected]
  cases path.anchor with
  | none => exact .nil
  | some anchor => exact MarkupPath.sightings_agrees anchor _

/-- A cursor is started in front of all that the search comes upon. -/
theorem start_shows {path : Path} (h : path.steps ≠ []) :
    Cursor.Shows path.sightings (Cursor.start path).outcome := by
  obtain ⟨anchor, steps⟩ := path
  cases steps with
  | nil => exact absurd rfl h
  | cons first steps =>
    cases anchor with
    | none => exact .cursor .exhausted trivial
    | some anchor =>
      have hb := Search.bindBelow_reaches steps (show Search.IsSound anchor [] from trivial)
      exact Cursor.ofTrail_shows true hb

theorem outcome_currentAfter {path : Path} (h : path.steps ≠ []) (n : Nat) :
    (path.currentAfter n).outcome = (sightingAt n path.sightings).mapError .lookup := by
  rw [currentAfter, Reading.outcome_bind]
  have hs := start_shows h
  generalize (Cursor.start path).outcome = outcome at hs
  generalize path.sightings = seen at hs
  cases hs with
  | cursor cursor hc =>
    rw [← Cursor.current?_advanceBy n hc]
    change ((cursor.advanceBy n) >>= fun cursor => pure cursor.current?).outcome = _
    rw [← map_eq_pure_bind, Reading.outcome_map]
  | refused refusal more => cases n <;> rfl

end Path

theorem sightingAt_map_ok (n : Nat) (nodes : List Position) :
    sightingAt n (nodes.map .ok) = .ok nodes[n]? := by
  induction nodes generalizing n with
  | nil => cases n <;> rfl
  | cons position rest ih =>
    cases n with
    | zero => rfl
    | succ n => exact ih n

/-- Sightings that can be read to any index hold no refusal. -/
theorem isOk_of_sightingAt {seen : List Sighting}
    (h : ∀ n, ∃ found, sightingAt n seen = .ok found) : ∀ sighting ∈ seen, sighting.isOk = true := by
  induction seen with
  | nil => simp
  | cons sighting rest ih =>
    cases sighting with
    | error refusal =>
      obtain ⟨found, hf⟩ := h 0
      cases hf
    | ok position =>
      intro sighting hs
      rcases List.mem_cons.mp hs with rfl | hs
      · rfl
      · exact ih (fun n => h (n + 1)) sighting hs

/-- A cursor that is moved from its start lists what the path selects, and then nothing: always when
no lookup is refused on the way, and else as far as it gets. -/
theorem Path.currentAfter_eq_selected {path : Path} (h : path.steps ≠ []) :
    (∀ n found, (path.currentAfter n).outcome = .ok found → found = path.selected[n]?) ∧
      (path.IsReadable ↔ ∀ n, (path.currentAfter n).outcome = .ok path.selected[n]?) ∧
      (path.anchor = none → (Cursor.start path).outcome = .ok .exhausted) := by
  have ha := path.sightings_agrees
  simp only [outcome_currentAfter h]
  refine ⟨fun n found hf => ?_, ⟨fun hr n => ?_, fun hn => ?_⟩, fun hn => ?_⟩
  · cases hs : sightingAt n path.sightings with
    | error refusal =>
      rw [hs] at hf
      cases hf
    | ok node =>
      rw [hs] at hf
      cases hf
      exact ha.sightingAt hs
  · rw [ha.eq_map_ok hr, sightingAt_map_ok]
    rfl
  · apply isOk_of_sightingAt
    intro n
    cases hs : sightingAt n path.sightings with
    | error refusal =>
      have := hn n
      rw [hs] at this
      cases this
    | ok node => exact ⟨node, rfl⟩
  · obtain ⟨anchor, steps⟩ := path
    subst hn
    cases steps with
    | nil => exact absurd rfl h
    | cons first steps => rfl

/-- Three nodes below two others, found by way of their parents. -/
def nestedPath : Path where
  anchor := some (.top ⟨{ id := ⟨0⟩, name := { localPart := "r" } },
    .element { id := ⟨1⟩, name := { localPart := "a" } }
      (.element { id := ⟨2⟩, name := { localPart := "b" } } .nil none .nil) none
      (.comment "between" none
        (.element { id := ⟨3⟩, name := { localPart := "a" } }
          (.element { id := ⟨4⟩, name := { localPart := "b" } } .nil none
            (.element { id := ⟨5⟩, name := { localPart := "b" } } .nil none .nil)) none .nil))⟩)
  steps := [{}, { axis := .descendants }, { name := "b" }]

theorem currentAfter_nestedPath :
    nestedPath.steps ≠ [] ∧
      nestedPath.selected.map Position.id = [⟨2⟩, ⟨4⟩, ⟨5⟩] ∧
      ∀ n, (nestedPath.currentAfter n).outcome = .ok nestedPath.selected[n]? :=
  ⟨by decide, by decide,
    (@Path.currentAfter_eq_selected nestedPath (by decide)).2.1.mp (by decide)⟩

/-- A path with a constraint whose name can't be looked up. -/
def unreadablePath : Path where
  anchor := some (.top ⟨{ id := ⟨0⟩, name := { localPart := "a" } },
    .element { id := ⟨1⟩, name := { localPart := "b" } } .nil none .nil⟩)
  steps := [{}, { constraints := [{ name := .singleton '{' }] }]

/-- Not every search lists what the path selects: a lookup can be refused. -/
theorem currentAfter_ne_selected :
    ¬ ∀ path : Path, path.steps ≠ [] →
      ∀ n, (path.currentAfter n).outcome = .ok path.selected[n]? := by
  intro h
  have hs : unreadablePath.sightings = [.error .unclosedBrace] := rfl
  have hc := h unreadablePath (by decide) 0
  rw [Path.outcome_currentAfter (by decide), hs] at hc
  cases hc

end MarkupPath
