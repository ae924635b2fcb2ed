import MarkupPath.Proofs.Search.Accounting
import MarkupPath.Proofs.Tree.Ways
import Mathlib.Data.List.Flatten
import Mathlib.Data.List.Perm.Basic

/-!
# The candidates that a search visits

A search for all matches of steps to children visits each candidate of the first step, and at those
that it admits each candidate of the second step, and so on. `visits context steps` lists them in
the order in which the search gets to them, depth first. No node is visited twice (`visits_nodup`).

What a search asks for is read off this list: for the next sibling of each node that it visits, and
for the first child of the context node and of each node that it enters. When it rests at the end of
a trail, it has visited those up to there, and what is outstanding tells which ones it hasn't left.
-/

namespace MarkupPath

/-- A candidate that a search visits. -/
structure Visit where
  /-- the candidate -/
  node : Position
  /-- whether the search goes on below it -/
  isEntered : Bool

/-- The identity of the candidate. -/
def Visit.id (visit : Visit) : NodeId := visit.node.id

/-- What a search visits from a candidate on until it moves on to the next one. -/
def Step.visitsFrom (step : Step) (isLast : Bool) (below : Position → List Visit)
    (node : Position) : List Visit :=
  ⟨node, step.admits node && !isLast⟩ :: if step.admits node then below node else []

/-- The candidates that a search for all matches of steps visits. -/
def visits (context : Position) : List Step → List Visit
  | [] => []
  | step :: steps =>
    (step.candidates context).flatMap
      (step.visitsFrom steps.isEmpty fun node => visits node steps)

/-- The candidates that it has still to visit from the end of a trail on. The steps `below` aren't
bound there. -/
def laterVisits (anchor : Position) : (trail : List Bound) → (below : List Step) → List Visit
  | [], _ => []
  | bound :: trail, below =>
    (bound.step.later (Search.endOf anchor trail) bound.position).flatMap
      (bound.step.visitsFrom below.isEmpty fun node => visits node below) ++
      laterVisits anchor trail (bound.step :: below)

/-- The nodes below which the search goes on. -/
def entered (seen : List Visit) : List NodeId := (seen.filter Visit.isEntered).map Visit.id

theorem entered_append (seen more : List Visit) :
    entered (seen ++ more) = entered seen ++ entered more := by
  simp [entered]

theorem entered_flatMap {α : Type} (list : List α) (f : α → List Visit) :
    entered (list.flatMap f) = list.flatMap fun a => entered (f a) := by
  simp only [entered, List.filter_flatMap, List.map_flatMap]

/-! ## No node is visited twice -/

/-- The nodes that are visited are below the context node, in document order. -/
theorem visits_sublist {steps : List Step} (h : ∀ step ∈ steps, step.IsToChildren)
    (context : Position) :
    ((visits context steps).map Visit.node).Sublist context.descendants := by
  induction steps generalizing context with
  | nil => exact List.nil_sublist _
  | cons step steps ih =>
    obtain ⟨hstep, hrest⟩ := List.forall_mem_cons.mp h
    have hchildren : step.reachable context = context.children := by
      rcases hstep with hx | hx <;> rw [Step.reachable, hx]
    have hcandidates : (step.candidates context).Sublist context.children := by
      rw [← hchildren]
      exact List.filter_sublist
    rw [visits, List.map_flatMap, Position.descendants_eq_flatMap]
    refine (List.Sublist.flatMap_right _ ?_).trans (hcandidates.flatMap _)
    intro node _
    rw [Step.visitsFrom, List.map_cons, Position.withDescendants]
    refine .cons_cons node ?_
    split
    · exact ih hrest node
    · exact List.nil_sublist _

/-- The context node and those that are visited are different ones. -/
theorem visits_nodup {forest : Forest} {context : Position} {steps : List Step}
    (h : forest.IsSound) (hc : context ∈ forest.positions)
    (hs : ∀ step ∈ steps, step.IsToChildren) :
    (context.id :: (visits context steps).map Visit.id).Nodup := by
  have hsub : (context :: (visits context steps).map Visit.node).Sublist forest.positions :=
    ((visits_sublist hs context).cons_cons context).trans
      (forest.positions_isPreorder.withDescendants_sublist hc)
  have hids := hsub.map Position.id
  rw [List.map_cons, List.map_map, Forest.ids_positions] at hids
  exact hids.nodup h.nodup

/-! ## Up to the end of a trail and from there on -/

/-- The candidates of a step are those in front of one of them, itself and those behind it. -/
theorem Step.exists_candidates_eq {step : Step} {context position : Position}
    (h : position ∈ step.candidates context) :
    ∃ earlier, step.candidates context = earlier ++ position :: step.later context position := by
  obtain ⟨hr, hm⟩ := List.mem_filter.mp h
  obtain ⟨earlier, he⟩ := (cons_beyond_suffix hr).filter fun node => step.matchesName node.name
  rw [List.filter_cons_of_pos (by simpa using hm)] at he
  exact ⟨earlier, he.symm⟩

/-- A search visits some candidates before one that it admits, then those below that, and then those
behind it. -/
theorem exists_visits_cons {step : Step} {context position : Position} (below : List Step)
    (h : position ∈ step.selects context) :
    ∃ front, visits context (step :: below) =
      front ++ ⟨position, !below.isEmpty⟩ :: (visits position below ++
        (step.later context position).flatMap
          (step.visitsFrom below.isEmpty fun node => visits node below)) := by
  obtain ⟨hc, hm⟩ := List.mem_filter.mp h
  obtain ⟨earlier, he⟩ := Step.exists_candidates_eq hc
  have hadmits : step.admits position = true := by
    rw [Step.admits, (List.mem_filter.mp hc).2, hm]
    rfl
  have hfrom : step.visitsFrom below.isEmpty (fun node => visits node below) position =
      ⟨position, !below.isEmpty⟩ :: visits position below := by
    rw [Step.visitsFrom, hadmits, Bool.true_and, if_pos rfl]
  exact ⟨_, by rw [visits, he, List.flatMap_append, List.flatMap_cons, hfrom, List.cons_append]⟩

/-- A search that has bound steps has visited some candidates; it visits those below the end of the
trail next, and then the later ones. By induction on the trail. -/
theorem exists_visits_eq {anchor : Position} {trail : List Bound} (below : List Step)
    (h : Search.IsSound anchor trail) :
    ∃ front, visits anchor ((trail.map Bound.step).reverse ++ below) =
      front ++ (visits (Search.endOf anchor trail) below ++ laterVisits anchor trail below) := by
  induction trail generalizing below with
  | nil => exact ⟨[], (List.append_nil _).symm⟩
  | cons bound trail ih =>
    obtain ⟨front, hf⟩ := ih (bound.step :: below) h.2
    obtain ⟨more, hm⟩ := exists_visits_cons below h.1
    refine ⟨front ++ (more ++ [⟨bound.position, !below.isEmpty⟩]), ?_⟩
    rw [List.map_cons, List.reverse_cons, List.append_assoc, List.singleton_append, hf, hm,
      laterVisits]
    simp only [List.append_assoc, List.cons_append, List.nil_append]
    rfl

/-! ## Where something is asked for -/

/-- The nodes at which an operation is called. -/
def asked (operation : Operation) (calls : List Call) : List NodeId :=
  (calls.filter (·.operation == operation)).map Call.node

section Asked

variable {operation : Operation}

theorem asked_append (calls more : List Call) :
    asked operation (calls ++ more) = asked operation calls ++ asked operation more := by
  simp [asked]

theorem asked_flatMap {α : Type} (list : List α) (f : α → List Call) :
    asked operation (list.flatMap f) = list.flatMap fun a => asked operation (f a) := by
  simp only [asked, List.filter_flatMap, List.map_flatMap]

theorem count_asked (calls : List Call) (id : NodeId) :
    (asked operation calls).count id = calls.count ⟨operation, id⟩ := by
  induction calls with
  | nil => rfl
  | cons call calls ih =>
    rw [List.count_cons, ← ih, asked, List.filter_cons]
    obtain ⟨other, node⟩ := call
    by_cases ho : other = operation <;> simp [asked, ho, List.count_cons]

theorem length_asked (calls : List Call) :
    (asked operation calls).length = tally calls operation := by
  rw [asked, List.length_map, tally, List.countP_eq_length_filter]

theorem asked_travel {α : Type} (r : Reading α) (h : operation ≠ .attr) :
    asked operation r.travel = asked operation r.calls := by
  rw [asked, asked, Reading.travel, List.filter_filter]
  congr 2
  funext call
  by_cases hc : call.operation = operation
  · simp [hc, h]
  · simp [hc]

end Asked

section Sweep

variable {step : Step} {due : Position → List Call} {below : Position → List Visit}

/-- A candidate is visited first, and its next sibling asked for last. -/
theorem asked_nextSibling_sweep (isLast : Bool) (nodes : List Position)
    (h : ∀ node, (asked .nextSibling (due node)).Perm ((below node).map Visit.id)) :
    (asked .nextSibling (Search.sweep step due nodes)).Perm
      ((nodes.flatMap (step.visitsFrom isLast below)).map Visit.id) := by
  rw [Search.sweep, asked_flatMap, List.map_flatMap]
  apply List.Perm.flatMap_left
  intro node _
  rw [asked_append]
  refine List.perm_append_comm.trans (.cons node.id ?_)
  split
  · exact h node
  · exact .nil

theorem asked_firstChild_sweep (isLast : Bool) (nodes : List Position)
    (h : ∀ node, asked .firstChild (due node) =
      (if isLast then [] else [node.id]) ++ entered (below node)) :
    asked .firstChild (Search.sweep step due nodes) =
      entered (nodes.flatMap (step.visitsFrom isLast below)) := by
  rw [Search.sweep, asked_flatMap, entered_flatMap]
  apply List.flatMap_congr
  intro node _
  rw [asked_append, Step.visitsFrom]
  cases hm : step.admits node with
  | false => rfl
  | true =>
    rw [if_pos rfl, if_pos rfl, h]
    cases isLast <;> simp [asked, entered, Visit.id]

end Sweep

theorem asked_nextSibling_due (context : Position) (steps : List Step) :
    (asked .nextSibling (Search.due context steps)).Perm
      ((visits context steps).map Visit.id) := by
  induction steps generalizing context with
  | nil => exact .nil
  | cons step steps ih => exact asked_nextSibling_sweep steps.isEmpty _ ih

theorem asked_firstChild_due (context : Position) (steps : List Step) :
    asked .firstChild (Search.due context steps) =
      (if steps.isEmpty then [] else [context.id]) ++ entered (visits context steps) := by
  induction steps generalizing context with
  | nil => rfl
  | cons step steps ih =>
    exact congrArg (context.id :: ·) (asked_firstChild_sweep steps.isEmpty _ ih)

/-- The next siblings of the nodes on a trail are outstanding, and those of the nodes that are
visited later. -/
theorem asked_nextSibling_outstanding (anchor : Position) (trail : List Bound)
    (below : List Step) :
    (asked .nextSibling (Search.outstanding anchor trail below)).Perm
      (trail.map (·.position.id) ++ (laterVisits anchor trail below).map Visit.id) := by
  induction trail generalizing below with
  | nil => exact .nil
  | cons bound trail ih =>
    have hsweep := @asked_nextSibling_sweep bound.step _ _ below.isEmpty
      (bound.step.later (Search.endOf anchor trail) bound.position)
      fun node => asked_nextSibling_due node below
    rw [Search.outstanding, asked_append, laterVisits, List.map_append, List.map_cons,
      List.cons_append]
    refine .cons bound.position.id ((hsweep.append (ih _)).trans ?_)
    rw [← List.append_assoc, ← List.append_assoc]
    exact List.perm_append_comm.append_right _

theorem asked_firstChild_outstanding (anchor : Position) (trail : List Bound)
    (below : List Step) :
    asked .firstChild (Search.outstanding anchor trail below) =
      entered (laterVisits anchor trail below) := by
  induction trail generalizing below with
  | nil => rfl
  | cons bound trail ih =>
    have hsweep := @asked_firstChild_sweep bound.step _ _ below.isEmpty
      (bound.step.later (Search.endOf anchor trail) bound.position)
      fun node => asked_firstChild_due node below
    rw [Search.outstanding, asked_append, laterVisits, entered_append, ih, ← hsweep]
    rfl

end MarkupPath
