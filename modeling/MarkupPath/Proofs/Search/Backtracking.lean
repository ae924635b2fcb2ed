import MarkupPath.Proofs.Search.Lookups
import MarkupPath.Query.Cursor

/-!
# Backtracking

A search rests on a trail of bound steps, and resumes from there. `Search.upcoming anchor trail
below` is what it has still to come upon behind the end of the trail: at each bound step the
candidates behind the current one, the deepest step first.

`Reaches` says what the search has to answer, given what it comes upon: nothing, the first refusal,
or a trail to the first match, which leaves upcoming all the others. Both the descent (`bindBelow`)
and the resumption (`resume`) reach what they should, by induction on the steps that are bound and
on the candidates that are left.
-/

namespace MarkupPath

/-! ## Constraints -/

theorem Constraint.outcome_holds (constraint : Constraint) (position : Position) :
    (constraint.holds position).outcome =
      ((position.value? constraint.name).map constraint.isMetBy).mapError .lookup := by
  rw [holds, Position.attr, Reading.outcome_bind, Reading.outcome_attempt]
  cases position.value? constraint.name with
  | error refusal => rfl
  | ok value => cases value <;> rfl

theorem outcome_allHold (position : Position) (constraints : List Constraint) :
    (allHold position constraints).outcome = (position.judge constraints).mapError .lookup := by
  induction constraints with
  | nil => rfl
  | cons constraint rest ih =>
    rw [allHold, Reading.outcome_bind, Constraint.outcome_holds, Position.judge]
    cases position.value? constraint.name with
    | error refusal => rfl
    | ok value =>
      change (if constraint.isMetBy value then allHold position rest
          else pure false : Reading Bool).outcome =
        (if constraint.isMetBy value then position.judge rest else .ok false).mapError .lookup
      split
      · exact ih
      · rfl

namespace Search

variable {anchor context position : Position} {step : Step} {bound : List Step}
  {after : List Sighting}

/-- What is found for a candidate: nothing unless it meets the constraints. -/
theorem outcome_examine {α : Type} (step : Step) (accept : Position → Reading (Option α))
    (position : Position) :
    (examine step accept position).outcome =
      match position.judge step.constraints with
      | .error refusal => .error (.lookup refusal)
      | .ok true => (accept position).outcome
      | .ok false => .ok none := by
  rw [examine, Reading.outcome_bind, Step.accepts, outcome_allHold]
  cases position.judge step.constraints with
  | error refusal => rfl
  | ok verdict => cases verdict <;> rfl

/-! ## Trails -/

/-- The sightings that a step's candidates behind one of them lead to. -/
def besides (step : Step) (context : Position) (below : Position → List Sighting)
    (position : Position) : List Sighting :=
  ((step.beyond context position).filterMap step.sight).flatMap (step.pursue below)

/-- What a search has still to come upon behind the end of a trail. The steps `below` aren't bound
there. -/
def upcoming (anchor : Position) : (trail : List Bound) → (below : List Step) → List Sighting
  | [], _ => []
  | bound :: trail, below =>
    besides bound.step (endOf anchor trail) (fun position => sightings position below)
        bound.position
      ++ upcoming anchor trail (bound.step :: below)

/-- A trail of nodes that are selected by their steps, each at the node of the step before. -/
def IsSound (anchor : Position) : List Bound → Prop
  | [] => True
  | bound :: trail =>
    bound.position ∈ bound.step.selects (endOf anchor trail) ∧ IsSound anchor trail

/-- The answer of a search that comes upon the given sightings, and upon those in `after` later. The
steps of the trail that it answers are `bound`, the deepest first. -/
inductive Reaches (anchor : Position) (bound : List Step) (after : List Sighting) :
    List Sighting → Except Error (Option (List Bound)) → Prop where
  /-- there's no match -/
  | nothing : Reaches anchor bound after [] (.ok none)
  /-- a lookup is refused in front of the first match -/
  | refused (refusal : Refusal) (more : List Sighting) :
    Reaches anchor bound after (.error refusal :: more) (.error (.lookup refusal))
  /-- the first match is at the end of the trail, and behind it the others are upcoming -/
  | trail {trail : List Bound} {more : List Sighting} :
    IsSound anchor trail → trail.map Bound.step = bound →
    upcoming anchor trail [] = more ++ after →
    Reaches anchor bound after (.ok (endOf anchor trail) :: more) (.ok (some trail))

/-- What is reached first, or else what is reached after that. -/
theorem Reaches.orElse {seen more : List Sighting} {answer other : Except Error (Option (List Bound))}
    (h : Reaches anchor bound (more ++ after) seen answer)
    (ho : Reaches anchor bound after more other) :
    Reaches anchor bound after (seen ++ more)
      (answer >>= fun found => match found with
        | some bounds => .ok (some bounds)
        | none => other) := by
  cases h with
  | nothing => exact ho
  | refused refusal more => exact .refused refusal _
  | trail hs hb hu => exact .trail hs hb (hu.trans (List.append_assoc _ _ _).symm)

/-! ## Settling on a candidate -/

/-- A candidate that is found is one of the step's. -/
theorem mem_candidates_of_finds {left rest : List Position} (hl : left <:+ step.reachable context)
    (hf : left.filterMap step.sight = .ok position :: rest.filterMap step.sight) :
    position ∈ step.candidates context := by
  have hm : (.ok position : Sighting) ∈ left.filterMap step.sight := by
    rw [hf]
    exact List.mem_cons_self
  obtain ⟨node, hn, hs⟩ := List.mem_filterMap.mp hm
  obtain ⟨rfl, hp⟩ := Step.sight_eq_ok hs
  exact List.mem_filter.mpr ⟨hl.subset hn, hp⟩

/-- A candidate that meets the constraints is selected. -/
theorem mem_selects_of_judge (hc : position ∈ step.candidates context)
    (hj : position.judge step.constraints = .ok true) : position ∈ step.selects context :=
  List.mem_filter.mpr ⟨hc, by simpa using (Position.judge_eq_ok hj).symm⟩

section Settle

variable {accept : Position → Reading (Option (List Bound))} {below : Position → List Sighting}

/-- How `settleFrom` goes on when nothing is found for a candidate. -/
theorem outcome_settleFrom (step : Step) (context : Position)
    (accept : Position → Reading (Option (List Bound))) (position : Position) :
    (settleFrom step context accept position).outcome =
      (examine step accept position >>= fun found => match found with
        | some trail => pure (some (position, trail))
        | none => (step.next context position).plain >>= settle step context accept).outcome := by
  rw [settleFrom, Reading.outcome_bind, Reading.outcome_bind]
  congr 1
  funext found
  cases found with
  | some trail => rfl
  | none =>
    rw [Reading.bind_eq_plain_bind _ _ (settle step context accept)]
    rintro (_ | ⟨next, hn⟩) <;> rfl

/-- Settling on what a step was asked for reaches what the nodes that are left lead to, if settling
from each candidate among them does. -/
theorem settle_reaches_of_settleFrom {left : List Position} {answer : Except Error (Option Position)}
    (h : Finds step left answer) (hl : left <:+ step.reachable context)
    (hs : ∀ candidate rest, candidate :: rest <:+ left → candidate ∈ step.candidates context →
      Reaches anchor bound after
        (step.pursue below (.ok candidate) ++ besides step context below candidate)
        ((settleFrom step context accept candidate).outcome.map (Option.map Prod.snd))) :
    Reaches anchor bound after ((left.filterMap step.sight).flatMap (step.pursue below))
      ((answer >>= fun found => (settle step context accept found).outcome).map
        (Option.map Prod.snd)) := by
  cases h with
  | nothing hn =>
    rw [hn]
    exact .nothing
  | refused hr =>
    rw [hr, List.flatMap_cons]
    exact .refused _ _
  | @candidate rest candidate hc hf =>
    rw [hf, List.flatMap_cons, Step.beyond_of_suffix (hc.trans hl)]
    exact hs candidate rest hc (mem_candidates_of_finds hl hf)

/-- Settling from a candidate reaches what that leads to, or else what those behind it do. By
induction on the number of nodes behind it. -/
theorem settleFrom_reaches
    (ha : ∀ candidate ∈ step.selects context,
      Reaches anchor bound (besides step context below candidate ++ after) (below candidate)
        (accept candidate).outcome)
    (hc : position ∈ step.candidates context) :
    Reaches anchor bound after
      (step.pursue below (.ok position) ++ besides step context below position)
      ((settleFrom step context accept position).outcome.map (Option.map Prod.snd)) := by
  induction hn : (step.beyond context position).length using Nat.strongRecOn
    generalizing position with
  | ind n ih =>
    subst hn
    have hr : position ∈ step.reachable context := (List.mem_filter.mp hc).1
    have hl := (List.suffix_cons _ _).trans (Step.cons_beyond_suffix hr)
    -- the nodes behind a later candidate are a proper part of those behind this one
    have hnext : Reaches anchor bound after (besides step context below position)
        (((step.next context position).plain >>= settle step context accept).outcome.map
          (Option.map Prod.snd)) := by
      rw [Reading.outcome_bind]
      apply settle_reaches_of_settleFrom (Step.next_finds hr) hl
      intro candidate rest hs hc
      refine ih _ ?_ hc rfl
      rw [← Step.beyond_of_suffix (hs.trans hl)]
      exact hs.length_le
    rw [outcome_settleFrom, Reading.outcome_bind, outcome_examine, Step.pursue]
    cases hj : position.judge step.constraints with
    | error refusal => exact .refused refusal _
    | ok verdict =>
      cases verdict with
      | false => exact hnext
      | true =>
        have hs := (ha position (mem_selects_of_judge hc hj)).orElse hnext
        simp only
        cases hf : (accept position).outcome with
        | error error =>
          rw [hf] at hs
          exact hs
        | ok found =>
          rw [hf] at hs
          cases found <;> exact hs

/-- Settling on what a step was asked for reaches what the nodes that are left lead to. -/
theorem settle_reaches (anchor : Position) (after : List Sighting) {left : List Position}
    {answer : Reading (Option Position)}
    (h : Finds step left answer.outcome) (hl : left <:+ step.reachable context)
    (ha : ∀ candidate ∈ step.selects context,
      Reaches anchor bound (besides step context below candidate ++ after) (below candidate)
        (accept candidate).outcome) :
    Reaches anchor bound after ((left.filterMap step.sight).flatMap (step.pursue below))
      (Option.map Prod.snd <$> (answer >>= settle step context accept)).outcome := by
  rw [Reading.outcome_map, Reading.outcome_bind]
  exact settle_reaches_of_settleFrom h hl fun candidate _ _ hc => settleFrom_reaches ha hc

end Settle

/-! ## Binding and resuming -/

theorem bindBelow_cons (trail : List Bound) (context : Position) (step : Step)
    (steps : List Step) :
    bindBelow trail context (step :: steps) =
      Option.map Prod.snd <$> (step.first context >>= settle step context fun position =>
        bindBelow (⟨step, position⟩ :: trail) position steps) := by
  simp only [bindBelow, map_eq_pure_bind, bind_assoc]

theorem resume_cons (anchor : Position) (last : Bound) (trail : List Bound) (below : List Step) :
    resume anchor (last :: trail) below =
      (Option.map Prod.snd <$> ((last.step.next (endOf anchor trail) last.position).plain >>=
        settle last.step (endOf anchor trail) fun position =>
          bindBelow (⟨last.step, position⟩ :: trail) position below) >>= fun found =>
        match found with
        | some trail => pure (some trail)
        | none => resume anchor trail (last.step :: below)) := by
  simp only [resume, map_eq_pure_bind, bind_assoc, pure_bind]
  congr 1
  funext candidate
  congr 1
  funext found
  cases found <;> rfl

/-- The descent reaches what the steps come upon at the end of the trail. -/
theorem bindBelow_reaches {trail : List Bound} (steps : List Step) (hs : IsSound anchor trail) :
    Reaches anchor (steps.reverse ++ trail.map Bound.step) (upcoming anchor trail steps)
      (sightings (endOf anchor trail) steps)
      (bindBelow trail (endOf anchor trail) steps).outcome := by
  induction steps generalizing trail with
  | nil => exact .trail hs rfl (List.nil_append _).symm
  | cons step steps ih =>
    rw [sightings, bindBelow_cons]
    apply settle_reaches anchor _ (step.first_finds _) (List.suffix_refl _)
    intro candidate hc
    have := ih (show IsSound anchor (⟨step, candidate⟩ :: trail) from ⟨hc, hs⟩)
    simpa [endOf, upcoming] using this

/-- A search that is resumed reaches what is upcoming: at the deepest step first, or else above. -/
theorem resume_reaches {trail : List Bound} (below : List Step) (hs : IsSound anchor trail) :
    Reaches anchor (below.reverse ++ trail.map Bound.step) [] (upcoming anchor trail below)
      (resume anchor trail below).outcome := by
  induction trail generalizing below with
  | nil => exact .nothing
  | cons last trail ih =>
    have hr := (List.mem_filter.mp (List.mem_filter.mp hs.1).1).1
    have hl := (List.suffix_cons _ _).trans (Step.cons_beyond_suffix hr)
    have hbound : (last.step :: below).reverse ++ trail.map Bound.step =
        below.reverse ++ (last :: trail).map Bound.step := by simp
    -- the step is searched for again if nothing is left at its last position
    have habove := ih (last.step :: below) hs.2
    rw [hbound] at habove
    have hhere := settle_reaches anchor (upcoming anchor trail (last.step :: below) ++ [])
      (Step.next_finds hr) hl fun candidate hc => by
        have hsound : IsSound anchor (⟨last.step, candidate⟩ :: trail) := ⟨hc, hs.2⟩
        simpa [endOf, upcoming] using bindBelow_reaches below hsound
    rw [resume_cons, Reading.outcome_bind, upcoming]
    have hboth := hhere.orElse habove
    generalize (Option.map Prod.snd <$> ((last.step.next (endOf anchor trail) last.position).plain >>=
      settle last.step (endOf anchor trail) fun position =>
        bindBelow (⟨last.step, position⟩ :: trail) position below)).outcome = answer at hboth ⊢
    cases answer with
    | error error => exact hboth
    | ok found => cases found <;> exact hboth

end Search
end MarkupPath
