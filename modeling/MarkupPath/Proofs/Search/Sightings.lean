import MarkupPath.Query.Enumeration

/-!
# What a search comes upon

A search looks up names and attributes, and a lookup can be refused. `sightings context steps`
lists what a search for `steps` at `context` comes upon, in the order in which it does: a match, or
a lookup that is refused. `sightingAt` is what such a list has to offer to someone who reads it from
its start and gives up at the first refusal.

Apart from refusals it's the enumeration of all matches: `sightings_agrees` says that up to the
first refusal, or to the end if there's none, the matches are those of `selected`.
-/

namespace MarkupPath

/-- What a search comes upon: a node, or a lookup that is refused. -/
abbrev Sighting := Except Refusal Position

/-! ## Listing them -/

/-- Whether an attribute's value meets a constraint. A missing attribute doesn't. -/
def Constraint.isMetBy (constraint : Constraint) : Option String → Bool
  | none => false
  | some value => constraint.value.isEmpty || value == constraint.value

/-- Whether a node meets constraints. They are looked up one by one until one isn't met. -/
def Position.judge (position : Position) : List Constraint → Except Refusal Bool
  | [] => .ok true
  | constraint :: rest =>
    match position.value? constraint.name with
    | .error refusal => .error refusal
    | .ok value => if constraint.isMetBy value then position.judge rest else .ok false

namespace Step

/-- Whether the nodes on the axis have to tell their names. All children are found without. -/
def asksNames (step : Step) : Bool :=
  match step.axis with
  | .children | .anyChild => !step.name.isEmpty
  | _ => true

/-- What a node on the axis is to a search: a candidate, a name that is refused, or nothing. -/
def sight (step : Step) (position : Position) : Option Sighting :=
  match step.asksNames, position.refusal? with
  | true, some refusal => some (.error refusal)
  | _, _ => if step.matchesName position.name then some (.ok position) else none

/-- The candidates of a step and the names that are refused on its axis. -/
def candidateSightings (step : Step) (context : Position) : List Sighting :=
  (step.reachable context).filterMap step.sight

/-- What follows from a candidate: `below` if it meets the step's constraints. -/
def pursue (step : Step) (below : Position → List Sighting) : Sighting → List Sighting
  | .error refusal => [.error refusal]
  | .ok position =>
    match position.judge step.constraints with
    | .error refusal => [.error refusal]
    | .ok true => below position
    | .ok false => []

end Step

/-- What a search for steps at a context node comes upon. -/
def sightings (context : Position) : List Step → List Sighting
  | [] => [.ok context]
  | step :: steps =>
    (step.candidateSightings context).flatMap
      (step.pursue fun position => sightings position steps)

/-- The node with the given index among sightings, unless there's a refusal up to it. -/
def sightingAt : Nat → List Sighting → Except Refusal (Option Position)
  | _, [] => .ok none
  | _, .error refusal :: _ => .error refusal
  | 0, .ok position :: _ => .ok (some position)
  | n + 1, .ok _ :: rest => sightingAt n rest

/-! ## Agreement with a listing of nodes -/

/-- Sightings show a list of nodes, up to the first refusal. -/
inductive Agrees : List Sighting → List Position → Prop where
  /-- both end -/
  | nil : Agrees [] []
  /-- both have a node -/
  | node (position : Position) {seen : List Sighting} {nodes : List Position} :
    Agrees seen nodes → Agrees (.ok position :: seen) (position :: nodes)
  /-- behind a refusal nothing is said -/
  | refused (refusal : Refusal) (seen : List Sighting) (nodes : List Position) :
    Agrees (.error refusal :: seen) nodes

namespace Agrees

variable {seen more : List Sighting} {nodes others : List Position}

theorem append (h : Agrees seen nodes) (hm : Agrees more others) :
    Agrees (seen ++ more) (nodes ++ others) := by
  induction h with
  | nil => exact hm
  | node position _ ih => exact .node position ih
  | refused refusal seen nodes => exact .refused refusal _ _

theorem sightingAt {n : Nat} {found : Option Position} (h : Agrees seen nodes)
    (hf : sightingAt n seen = .ok found) : found = nodes[n]? := by
  induction h generalizing n with
  | nil =>
    simp only [MarkupPath.sightingAt, Except.ok.injEq] at hf
    simp [← hf]
  | node position _ ih =>
    cases n with
    | zero =>
      simp only [MarkupPath.sightingAt, Except.ok.injEq] at hf
      simp [← hf]
    | succ n =>
      rw [MarkupPath.sightingAt] at hf
      rw [List.getElem?_cons_succ]
      exact ih hf
  | refused refusal seen nodes => simp [MarkupPath.sightingAt] at hf

/-- Sightings without a refusal are the nodes. -/
theorem eq_map_ok (h : Agrees seen nodes) (hs : ∀ sighting ∈ seen, sighting.isOk) :
    seen = nodes.map .ok := by
  induction h with
  | nil => rfl
  | node position _ ih =>
    rw [List.map_cons, ih fun sighting hm => hs sighting (List.mem_cons_of_mem _ hm)]
  | refused refusal seen nodes => simpa [Except.isOk, Except.toBool] using hs _ List.mem_cons_self

end Agrees

/-- An attribute meets a constraint if its value does. -/
theorem Constraint.isMet_iff {constraint : Constraint} {position : Position}
    {value : Option String} (h : position.value? constraint.name = .ok value) :
    constraint.IsMet position ↔ constraint.isMetBy value = true := by
  simp only [IsMet]
  rw [h]
  cases value with
  | none => simp [isMetBy]
  | some value =>
    simp only [Except.ok.injEq, Option.some.injEq, isMetBy, Bool.or_eq_true, beq_iff_eq,
      String.isEmpty_iff]
    constructor
    · rintro ⟨_, rfl, hm⟩
      exact hm
    · intro hm
      exact ⟨value, rfl, hm⟩

/-- A node that can be judged is judged by whether it meets all constraints. -/
theorem Position.judge_eq_ok {position : Position} {constraints : List Constraint} {verdict : Bool}
    (h : position.judge constraints = .ok verdict) :
    verdict = constraints.all fun constraint => constraint.IsMet position := by
  induction constraints with
  | nil =>
    rw [judge, Except.ok.injEq] at h
    simp [← h]
  | cons constraint rest ih =>
    rw [judge] at h
    split at h
    · cases h
    · rename_i value hv
      have hi := Constraint.isMet_iff hv
      rw [List.all_cons]
      split at h
      · rename_i hm
        simp [hi.mpr hm, ih h]
      · rename_i hm
        cases h
        simp [mt hi.mp hm]

namespace Step

theorem sight_of_refusal {step : Step} {position : Position} {refusal : Refusal}
    (ha : step.asksNames = true) (hr : position.refusal? = some refusal) :
    step.sight position = some (.error refusal) := by
  rw [sight, ha, hr]

/-- Unless its name is asked for and refused, a node is seen exactly if it passes the name test. -/
theorem sight_of_told (step : Step) {position : Position}
    (h : step.asksNames = true → position.refusal? = none) :
    step.sight position = if step.matchesName position.name then some (.ok position) else none := by
  simp only [sight]
  split
  · rename_i ha hr
    rw [h ha] at hr
    cases hr
  · rfl

/-- A node that is seen as a candidate passes the name test. -/
theorem sight_eq_ok {step : Step} {position candidate : Position}
    (h : step.sight position = some (.ok candidate)) :
    position = candidate ∧ step.matchesName candidate.name = true := by
  simp only [sight] at h
  split at h
  · cases h
  · split at h
    · rename_i hm
      cases h
      exact ⟨rfl, hm⟩
    · cases h

/-- What nodes are to a search shows those that pass the name test. -/
theorem filterMap_sight_agrees (step : Step) (nodes : List Position) :
    Agrees (nodes.filterMap step.sight)
      (nodes.filter fun position => step.matchesName position.name) := by
  induction nodes with
  | nil => exact .nil
  | cons position rest ih =>
    by_cases hr : ∃ refusal, step.asksNames = true ∧ position.refusal? = some refusal
    · obtain ⟨refusal, ha, hr⟩ := hr
      rw [List.filterMap_cons_some (sight_of_refusal ha hr)]
      exact .refused _ _ _
    · have ht : step.asksNames = true → position.refusal? = none := fun ha =>
        Option.eq_none_iff_forall_ne_some.mpr fun refusal h => hr ⟨refusal, ha, h⟩
      by_cases hm : step.matchesName position.name = true
      · rw [List.filterMap_cons_some ((sight_of_told step ht).trans (if_pos hm)),
          List.filter_cons_of_pos (by simpa using hm)]
        exact .node _ ih
      · rw [List.filterMap_cons_none ((sight_of_told step ht).trans (if_neg hm)),
          List.filter_cons_of_neg (by simpa using hm)]
        exact ih

theorem candidateSightings_agrees (step : Step) (context : Position) :
    Agrees (step.candidateSightings context) (step.candidates context) :=
  step.filterMap_sight_agrees (step.reachable context)

/-- Pursuing candidates shows what the selected ones among them lead to. -/
theorem pursue_agrees {step : Step} {below : Position → List Sighting}
    {onwards : Position → List Position} (hb : ∀ position, Agrees (below position) (onwards position))
    {seen : List Sighting} {nodes : List Position} (h : Agrees seen nodes) :
    Agrees (seen.flatMap (step.pursue below))
      ((nodes.filter fun position =>
        step.constraints.all fun constraint => constraint.IsMet position).flatMap onwards) := by
  induction h with
  | nil => exact .nil
  | node position _ ih =>
    rw [List.flatMap_cons, pursue]
    split
    · exact .refused _ _ _
    · rename_i hj
      have := Position.judge_eq_ok hj
      rw [List.filter_cons_of_pos (by simpa using this), List.flatMap_cons]
      exact (hb position).append ih
    · rename_i hj
      have := Position.judge_eq_ok hj
      rw [List.filter_cons_of_neg (by simpa using this)]
      exact ih
  | refused refusal seen nodes => exact .refused _ _ _

end Step

/-- Up to the first refusal a search comes upon the selected nodes. -/
theorem sightings_agrees (context : Position) (steps : List Step) :
    Agrees (sightings context steps) (selected context steps) := by
  induction steps generalizing context with
  | nil => exact .node _ .nil
  | cons step steps ih =>
    rw [sightings, selected, Step.selects]
    exact Step.pursue_agrees ih (step.candidateSightings_agrees context)

end MarkupPath
