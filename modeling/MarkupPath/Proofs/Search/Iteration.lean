import MarkupPath.Proofs.Search.Matches
import MarkupPath.Query.Lookup

/-!
# Iterating over a search

A search is iterated over by pulling its matches one by one until there's none. `Yields` says that
this comes to an end without a refusal, and what was pulled; `IsRefused` says that it fails, and
what was refused. A search along a path yields exactly what it comes upon if all of that are nodes
(`start_yields_iff`), and it's refused the first lookup there that isn't one
(`start_isRefused_iff`).
-/

namespace MarkupPath

namespace Cursor

/-- What a cursor has upcoming that hasn't been pulled yet. -/
def unpulled : Cursor → List Sighting
  | resting anchor trail true => (resting anchor trail true).upcoming
  | cursor => cursor.upcoming.tail

/-- The answer of a pull, given what hasn't been pulled yet. -/
inductive Pulls : List Sighting → Except Error (Option Position × Cursor) → Prop where
  /-- nothing is left -/
  | nothing : Pulls [] (.ok (none, exhausted))
  /-- the first of what is left is a refusal -/
  | refused (refusal : Refusal) (more : List Sighting) :
    Pulls (.error refusal :: more) (.error (.lookup refusal))
  /-- the first of what is left is pulled -/
  | node (position : Position) (cursor : Cursor) : cursor.IsSound →
    Pulls (.ok position :: cursor.unpulled) (.ok (some position, cursor))

/-- A cursor that was moved has the match where it rests to be pulled. -/
theorem pulls_of_shows {seen : List Sighting} {moved : Reading Cursor}
    (h : Shows seen moved.outcome)
    (hp : ∀ anchor trail, moved.outcome ≠ .ok (resting anchor trail true)) :
    Pulls seen (do let next ← moved; return (next.current?, next) : Reading _).outcome := by
  rw [Reading.outcome_bind]
  generalize moved.outcome = outcome at h hp
  cases h with
  | refused refusal more => exact .refused refusal more
  | cursor cursor hs =>
    cases cursor with
    | exhausted => exact .nothing
    | resting anchor trail pending =>
      cases pending with
      | true => exact absurd rfl (hp anchor trail)
      | false => exact .node (Search.endOf anchor trail) (resting anchor trail false) hs

theorem advance_ne_pending (cursor : Cursor) (anchor : Position) (trail : List Bound) :
    cursor.advance.outcome ≠ .ok (resting anchor trail true) := by
  cases cursor with
  | exhausted => intro h; cases h
  | resting anchor' trail' pending =>
    rw [advance, Reading.outcome_bind]
    cases (Search.resume anchor' trail' []).outcome with
    | error error => intro h; cases h
    | ok found => cases found <;> intro h <;> cases h

theorem pull_pulls {cursor : Cursor} (h : cursor.IsSound) :
    Pulls cursor.unpulled cursor.pull.outcome := by
  cases cursor with
  | exhausted => exact .nothing
  | resting anchor trail pending =>
    cases pending with
    | true => exact .node (Search.endOf anchor trail) (resting anchor trail false) h
    | false => exact pulls_of_shows (advance_shows h) (advance_ne_pending _)

/-- Matches are collected by a pull, and then from where that leads to. -/
theorem outcome_collect_succ (cursor : Cursor) (limit : Nat) :
    (cursor.collect (limit + 1)).outcome =
      match cursor.pull.outcome with
      | .error error => .error error
      | .ok (none, next) => .ok ([], next)
      | .ok (some position, next) =>
        (Prod.map (position :: ·) id <$> next.collect limit).outcome := by
  rw [collect, Reading.outcome_bind]
  cases cursor.pull.outcome with
  | error error => rfl
  | ok pulled =>
    obtain ⟨found, next⟩ := pulled
    cases found with
    | none => rfl
    | some position => exact congrArg Reading.outcome (map_eq_pure_bind _ _).symm

/-- What is collected until a cursor is exhausted is all that it has to be pulled. -/
theorem unpulled_of_collect {cursor : Cursor} {limit : Nat} {nodes : List Position}
    (hs : cursor.IsSound) (h : (cursor.collect limit).outcome = .ok (nodes, exhausted)) :
    cursor.unpulled = nodes.map .ok := by
  induction limit generalizing cursor nodes with
  | zero =>
    cases h
    rfl
  | succ limit ih =>
    rw [outcome_collect_succ] at h
    have hp := pull_pulls hs
    generalize cursor.pull.outcome = outcome at h hp
    generalize cursor.unpulled = seen at hp
    cases hp with
    | nothing =>
      cases h
      rfl
    | refused refusal more => cases h
    | node position next hn =>
      obtain ⟨⟨others, last⟩, hc, he⟩ := Reading.outcome_map_eq_ok.mp h
      cases he
      rw [List.map_cons, ← ih hn hc]

/-- What makes collecting fail is the first refusal that a cursor has to be pulled. -/
theorem unpulled_of_collect_refused {cursor : Cursor} {limit : Nat} {refusal : Refusal}
    (hs : cursor.IsSound) (h : (cursor.collect limit).outcome = .error (.lookup refusal)) :
    ∃ (nodes : List Position) (more : List Sighting),
      cursor.unpulled = nodes.map .ok ++ .error refusal :: more := by
  induction limit generalizing cursor with
  | zero => cases h
  | succ limit ih =>
    rw [outcome_collect_succ] at h
    have hp := pull_pulls hs
    generalize cursor.pull.outcome = outcome at h hp
    generalize cursor.unpulled = seen at hp
    cases hp with
    | nothing => cases h
    | refused refusal more =>
      cases h
      exact ⟨[], more, rfl⟩
    | node position next hn =>
      obtain ⟨nodes, more, hu⟩ := ih hn (Reading.outcome_map_eq_error.mp h)
      exact ⟨position :: nodes, more, congrArg (.ok position :: ·) hu⟩

/-- The nodes that a cursor has to be pulled first are collected first. By induction on these nodes.
-/
theorem outcome_collect_append {cursor : Cursor} {nodes : List Position} {more : List Sighting}
    (hs : cursor.IsSound) (h : cursor.unpulled = nodes.map .ok ++ more) :
    ∃ last : Cursor, last.IsSound ∧ last.unpulled = more ∧
      ∀ limit, (cursor.collect (limit + nodes.length)).outcome =
        (Prod.map (nodes ++ ·) id <$> last.collect limit).outcome := by
  induction nodes generalizing cursor with
  | nil => exact ⟨cursor, hs, h, fun limit => congrArg Reading.outcome (id_map _).symm⟩
  | cons position nodes ih =>
    have hp := pull_pulls hs
    generalize ho : cursor.pull.outcome = outcome at hp
    generalize cursor.unpulled = seen at h hp
    cases hp with
    | nothing => cases h
    | refused refusal rest => cases h
    | node found next hn =>
      obtain ⟨he, hu⟩ := List.cons.inj h
      cases he
      obtain ⟨last, hl, hm, hc⟩ := ih hn hu
      refine ⟨last, hl, hm, fun limit => ?_⟩
      rw [List.length_cons, ← Nat.add_assoc, outcome_collect_succ, ho]
      change (Prod.map (position :: ·) id <$> next.collect (limit + nodes.length)).outcome = _
      rw [Reading.outcome_map, hc, ← Reading.outcome_map, Functor.map_map]
      rfl

/-- All that a cursor has to be pulled is collected if the limit is high enough, unless there's a
refusal. -/
theorem collect_of_unpulled {cursor : Cursor} {nodes : List Position} (hs : cursor.IsSound)
    (h : cursor.unpulled = nodes.map .ok) :
    (cursor.collect (1 + nodes.length)).outcome = .ok (nodes, exhausted) := by
  obtain ⟨last, hl, hu, hc⟩ := outcome_collect_append hs (h.trans (List.append_nil _).symm)
  have hp := pull_pulls hl
  rw [hu] at hp
  rw [hc, Reading.outcome_map, outcome_collect_succ]
  generalize last.pull.outcome = outcome at hp
  cases hp with
  | nothing =>
    change Except.ok (nodes ++ [], exhausted) = _
    rw [List.append_nil]

/-- If there's one, collecting fails with it. -/
theorem collect_of_unpulled_refused {cursor : Cursor} {nodes : List Position} {refusal : Refusal}
    {more : List Sighting} (hs : cursor.IsSound)
    (h : cursor.unpulled = nodes.map .ok ++ .error refusal :: more) :
    (cursor.collect (1 + nodes.length)).outcome = .error (.lookup refusal) := by
  obtain ⟨last, hl, hu, hc⟩ := outcome_collect_append hs h
  have hp := pull_pulls hl
  rw [hu] at hp
  rw [hc, Reading.outcome_map, outcome_collect_succ]
  generalize last.pull.outcome = outcome at hp
  cases hp with
  | refused refusal more => rfl

end Cursor

/-- Iterating over a search gives the nodes, in their order, and comes to an end. -/
def Reading.Yields (search : Reading Cursor) (nodes : List Position) : Prop :=
  ∃ cursor limit, search.outcome = .ok cursor ∧
    (cursor.collect limit).outcome = .ok (nodes, .exhausted)

/-- Iterating over a search fails as a lookup is refused, at its start or when a match is pulled. -/
def Reading.IsRefused (search : Reading Cursor) (refusal : Refusal) : Prop :=
  search.outcome = .error (.lookup refusal) ∨
    ∃ cursor limit, search.outcome = .ok cursor ∧
      (cursor.collect limit).outcome = .error (.lookup refusal)

theorem Reading.isRefused_bind {α : Type} {r : Reading α} {f : α → Reading Cursor}
    {refusal : Refusal} :
    (r >>= f).IsRefused refusal ↔
      r.outcome = .error (.lookup refusal) ∨ ∃ a, r.outcome = .ok a ∧ (f a).IsRefused refusal := by
  cases h : r.outcome with
  | error error => simp [IsRefused, outcome_bind_of_error f h]
  | ok a => simp [IsRefused, outcome_bind_of_ok f h]

/-- A cursor that is started hasn't been pulled. -/
theorem Cursor.unpulled_start {path : Path} {cursor : Cursor}
    (h : (start path).outcome = .ok cursor) : cursor.unpulled = cursor.upcoming := by
  simp only [start] at h
  split at h
  · cases h
  · cases h
    rfl
  · rw [Reading.outcome_bind] at h
    revert h
    cases (Search.bindBelow [] _ _).outcome with
    | error error => intro h; cases h
    | ok found => cases found <;> intro h <;> cases h <;> rfl

theorem steps_ne_nil_of_start {path : Path} {outcome : Except Error Cursor}
    (h : (Cursor.start path).outcome = outcome) (hne : outcome ≠ .error .emptyPath) :
    path.steps ≠ [] := by
  intro hn
  rw [Cursor.start, hn] at h
  exact hne h.symm

/-- A search along a path starts with a cursor that has all to be pulled that it comes upon, unless
that begins with a refusal. -/
theorem start_cases {path : Path} (h : path.steps ≠ []) :
    (∃ (refusal : Refusal) (more : List Sighting), path.sightings = .error refusal :: more ∧
        (Cursor.start path).outcome = .error (.lookup refusal)) ∨
      ∃ cursor : Cursor, (Cursor.start path).outcome = .ok cursor ∧ cursor.IsSound ∧
        cursor.unpulled = path.sightings := by
  have hs := Path.start_shows h
  have hu := @Cursor.unpulled_start path
  generalize (Cursor.start path).outcome = outcome at hs hu
  generalize path.sightings = seen at hs
  cases hs with
  | refused refusal more => exact .inl ⟨refusal, more, rfl, rfl⟩
  | cursor cursor hs => exact .inr ⟨cursor, rfl, hs, hu rfl⟩

/-- A search along a path yields exactly what it comes upon, unless that includes a refusal. -/
theorem start_yields_iff {path : Path} {nodes : List Position} :
    (Cursor.start path).Yields nodes ↔ path.steps ≠ [] ∧ path.sightings = nodes.map .ok := by
  constructor
  · rintro ⟨cursor, limit, hc, hl⟩
    have hn := steps_ne_nil_of_start hc nofun
    rcases start_cases hn with ⟨refusal, more, -, he⟩ | ⟨started, ho, hs, hu⟩
    · cases he.symm.trans hc
    · cases ho.symm.trans hc
      exact ⟨hn, hu.symm.trans (Cursor.unpulled_of_collect hs hl)⟩
  · rintro ⟨hn, hseen⟩
    rcases start_cases hn with ⟨refusal, more, hr, -⟩ | ⟨cursor, ho, hs, hu⟩
    · rw [hseen] at hr
      cases nodes <;> cases hr
    · exact ⟨cursor, _, ho, Cursor.collect_of_unpulled hs (hu.trans hseen)⟩

/-- A search along a path is refused the first lookup that it comes upon in place of a node. -/
theorem start_isRefused_iff {path : Path} {refusal : Refusal} :
    (Cursor.start path).IsRefused refusal ↔ path.steps ≠ [] ∧
      ∃ (nodes : List Position) (more : List Sighting),
        path.sightings = nodes.map .ok ++ .error refusal :: more := by
  constructor
  · rintro (hc | ⟨cursor, limit, hc, hl⟩)
    · have hn := steps_ne_nil_of_start hc nofun
      rcases start_cases hn with ⟨first, more, hr, he⟩ | ⟨started, ho, -⟩
      · cases he.symm.trans hc
        exact ⟨hn, [], more, hr⟩
      · cases ho.symm.trans hc
    · have hn := steps_ne_nil_of_start hc nofun
      rcases start_cases hn with ⟨first, more, -, he⟩ | ⟨started, ho, hs, hu⟩
      · cases he.symm.trans hc
      · cases ho.symm.trans hc
        exact ⟨hn, hu ▸ Cursor.unpulled_of_collect_refused hs hl⟩
  · rintro ⟨hn, nodes, more, hseen⟩
    rcases start_cases hn with ⟨first, others, hr, he⟩ | ⟨cursor, ho, hs, hu⟩
    · -- nothing comes before the refusal
      cases nodes with
      | nil =>
        cases hr.symm.trans hseen
        exact .inl he
      | cons node nodes => cases hr.symm.trans hseen
    · exact .inr ⟨cursor, _, ho, Cursor.collect_of_unpulled_refused hs (hu.trans hseen)⟩

end MarkupPath
