import MarkupPath.Proofs.Search.Namesakes
import MarkupPath.Proofs.Search.Visits

/-!
# No more than the next match needs

An iterator over a path to children doesn't look ahead, and it asks for nothing twice. Main
statement (`Iterator.asks_once`): where it rests, the next sibling of each node that the search has
visited and left has been asked for once, and that of no node which the steps are bound to; the
first child has been asked for once, of the anchor and of each node that the search has entered. It
moves in no other way, so the last child, the parent and the root are never asked for.

All but the last of this holds as long as no lookup is refused. A call that is refused the name of a
next sibling has asked for it nevertheless, and doesn't move on (`not_hasAsked_refusedIterator`).
-/

namespace MarkupPath

/-! ## Ways to move -/

namespace Reading

variable {α β : Type}

/-- Nothing is called but what looks up attributes, first children and next siblings. -/
def LooksDown (r : Reading α) : Prop :=
  ∀ call ∈ r.calls, call.operation ∈ [Operation.attr, .firstChild, .nextSibling]

namespace LooksDown

theorem pure (a : α) : (Pure.pure a : Reading α).LooksDown := nofun

theorem fail (error : Error) : (Reading.fail error : Reading α).LooksDown := nofun

theorem map {r : Reading α} (f : α → β) (h : r.LooksDown) : (f <$> r).LooksDown := h

theorem bind {r : Reading α} {f : α → Reading β} (h : r.LooksDown) (hf : ∀ a, (f a).LooksDown) :
    (r >>= f).LooksDown := forall_mem_calls_bind h hf

/-- Attributes that are looked up don't count. -/
theorem of_travel {r : Reading α}
    (h : ∀ call ∈ r.travel, call.operation ∈ [Operation.attr, .firstChild, .nextSibling]) :
    r.LooksDown := by
  intro call hm
  by_cases ha : call.operation = .attr
  · rw [ha]
    exact List.mem_cons_self
  · exact h call (List.mem_filter.mpr ⟨hm, by simpa using ha⟩)

end LooksDown
end Reading

namespace Step

variable {step : Step}

theorem accepts_looksDown (step : Step) (position : Position) :
    (step.accepts position).LooksDown := by
  apply Reading.LooksDown.of_travel
  rw [travel_accepts]
  nofun

theorem first_looksDown (h : step.IsToChildren) (context : Position) :
    (step.first context).LooksDown := by
  apply Reading.LooksDown.of_travel
  rw [travel_first h]
  simp

theorem next_looksDown (h : step.IsToChildren) (context position : Position) :
    (step.next context position).LooksDown := by
  apply Reading.LooksDown.of_travel
  rw [travel_next h]
  simp

end Step

namespace Search

variable {α : Type} {step : Step} {accept : Position → Reading (Option α)}

theorem examine_looksDown (ha : ∀ position, (accept position).LooksDown) (position : Position) :
    (examine step accept position).LooksDown := by
  refine .bind (step.accepts_looksDown position) ?_
  intro verdict
  cases verdict with
  | true => exact ha position
  | false => exact .pure none

/-- By induction on the number of nodes that come later. -/
theorem settleFrom_looksDown (hs : step.IsToChildren)
    (ha : ∀ position, (accept position).LooksDown) (context position : Position) :
    (settleFrom step context accept position).LooksDown := by
  induction hn : position.ahead using Nat.strongRecOn generalizing position with
  | ind n ih =>
    subst hn
    rw [settleFrom]
    refine .bind (examine_looksDown ha position) ?_
    intro found
    cases found with
    | some a => exact .pure _
    | none =>
      refine .bind (Step.next_looksDown hs context position) ?_
      rintro (_ | ⟨next, hn⟩)
      · exact .pure none
      · exact ih _ hn next rfl

theorem settle_looksDown (hs : step.IsToChildren) (ha : ∀ position, (accept position).LooksDown)
    (context : Position) (found : Option Position) :
    (settle step context accept found).LooksDown := by
  cases found with
  | none => exact .pure none
  | some position => exact settleFrom_looksDown hs ha context position

theorem bindBelow_looksDown {steps : List Step} (hs : ∀ step ∈ steps, step.IsToChildren)
    (trail : List Bound) (context : Position) : (bindBelow trail context steps).LooksDown := by
  induction steps generalizing trail context with
  | nil => exact .pure _
  | cons step steps ih =>
    obtain ⟨hstep, hrest⟩ := List.forall_mem_cons.mp hs
    refine .bind (Step.first_looksDown hstep context) ?_
    intro candidate
    refine .bind (settle_looksDown hstep ?_ context candidate) fun found => .pure _
    intro position
    exact ih hrest (⟨step, position⟩ :: trail) position

theorem resume_looksDown {anchor : Position} {trail : List Bound} {below : List Step}
    (ht : ∀ bound ∈ trail, bound.step.IsToChildren) (hb : ∀ step ∈ below, step.IsToChildren) :
    (resume anchor trail below).LooksDown := by
  induction trail generalizing below with
  | nil => exact .pure none
  | cons last trail ih =>
    obtain ⟨hlast, hrest⟩ := List.forall_mem_cons.mp ht
    have hnext := (Step.next_looksDown hlast (endOf anchor trail) last.position).map
      Option.unattach
    refine .bind hnext ?_
    intro candidate
    refine .bind (settle_looksDown hlast ?_ _ candidate) ?_
    · intro position
      exact bindBelow_looksDown hb _ position
    · rintro (_ | ⟨position, found⟩)
      · exact ih hrest (List.forall_mem_cons.mpr ⟨hlast, hb⟩)
      · exact .pure _

end Search

namespace Iterator

variable {path : Path} {first : Step} {iterator : Iterator}

theorem start_looksDown (hp : path.steps = first :: path.steps.drop 1)
    (hs : ∀ step ∈ path.steps.drop 1, step.IsToChildren) : (start path).LooksDown := by
  rw [start_eq hp]
  apply Reading.LooksDown.map
  rw [Cursor.start, hp]
  cases path.anchor with
  | none => exact .pure _
  | some anchor => exact .bind (Search.bindBelow_looksDown hs [] anchor) fun found => .pure _

/-- However calls have left an iterator, the next one moves down and on. -/
theorem Halts.looksDown (h : Halts path first iterator)
    (hs : ∀ step ∈ path.steps.drop 1, step.IsToChildren) (move : Move) :
    (move.run.run iterator).1.LooksDown := by
  rcases move.run_cases iterator with ⟨-, hm⟩ | ⟨answer, hm⟩
  · rw [hm]
    exact .pure _
  · rw [hm]
    apply Reading.LooksDown.map
    cases h with
    | exhausted => exact nofun
    | bound pending _ ht hb =>
      rw [(advance_lands first pending ht).1]
      have htrail := Search.forall_mem_trail hs hb
      exact (Search.resume_looksDown htrail (List.forall_mem_nil _)).map _
    | @stuck anchor trail step rest _ _ _ =>
      rw [(advance_of_stuck first anchor trail step rest).1]
      exact .fail _

/-! ## What has been asked for -/

/-- The nodes that the steps behind the anchor step are bound to. -/
def chain (iterator : Iterator) : List Position := iterator.slots.tail.filterMap Slot.node

/-- What a search has visited before the match where an iterator rests; everything if there's
none. -/
def visited (iterator : Iterator) (anchor : Position) (steps : List Step) : List Visit :=
  (visits anchor steps).takeWhile fun visit => iterator.current? ≠ some visit.node

/-- What has been asked for in the course of a search that has got to where an iterator rests. -/
structure HasAsked (iterator : Iterator) (anchor : Position) (steps : List Step)
    (calls : List Call) : Prop where
  /-- the match is the last node that has been visited -/
  rests : ∃ rest, visits anchor steps =
    iterator.visited anchor steps ++ iterator.current?.toList.map (⟨·, false⟩) ++ rest
  /-- each node that has been visited and isn't bound has been left for its next sibling -/
  nextSibling : ∀ id, calls.count ⟨.nextSibling, id⟩ =
    if id ∈ (iterator.visited anchor steps).map Visit.id ∧ id ∉ iterator.chain.map Position.id
    then 1 else 0
  /-- the anchor has been entered, and each node that has been visited unless it isn't admitted or
  the step was the last one -/
  firstChild : ∀ id, calls.count ⟨.firstChild, id⟩ =
    if id = anchor.id ∨ id ∈ entered (iterator.visited anchor steps) then 1 else 0
  /-- all candidates have been visited if there's no further match -/
  exhausted : iterator.isExhausted = true →
    tally calls .nextSibling = (visits anchor steps).length ∧
      tally calls .firstChild = (entered (visits anchor steps)).length + 1

variable {anchor : Position} {steps : List Step} {calls left : List Call}

theorem chain_ofTrail (first : Step) (anchor : Position) (trail : List Bound) (pending : Bool) :
    ((Cursor.resting anchor trail pending).iterator first).chain =
      (trail.map Bound.position).reverse := by
  rw [chain, Cursor.iterator, Slots.ofTrail, List.tail_cons, List.filterMap_reverse,
    List.filterMap_map]
  congr 1
  exact List.filterMap_eq_map ▸ rfl

theorem visited_of_none (h : iterator.current? = none) :
    iterator.visited anchor steps = visits anchor steps := by
  rw [visited, h, List.takeWhile_eq_self_iff]
  intro visit _
  simp

/-- What comes in front of the match has been visited, as no node is visited twice. -/
theorem visited_of_some {front rest : List Visit} {node : Position}
    (hv : ((visits anchor steps).map Visit.id).Nodup)
    (he : visits anchor steps = front ++ ⟨node, false⟩ :: rest)
    (h : iterator.current? = some node) : iterator.visited anchor steps = front := by
  have hfront : ∀ visit ∈ front, visit.node ≠ node := by
    rintro visit hm rfl
    rw [he, List.map_append, List.nodup_append] at hv
    exact hv.2.2 _ (List.mem_map_of_mem hm) _ List.mem_cons_self rfl
  rw [visited, he, h, List.takeWhile_append_of_pos, List.takeWhile_cons_of_neg, List.append_nil]
  · simp
  · intro visit hm
    simpa using (hfront visit hm).symm

/-- What is left of a search where an iterator rests: the candidates that come behind the match, and
what is owed for them and for the nodes that are bound. -/
structure Remains (iterator : Iterator) (anchor : Position) (steps : List Step)
    (left : List Call) (rest : List Visit) : Prop where
  /-- the candidates are those that haven't been visited -/
  visits_eq : visits anchor steps =
    iterator.visited anchor steps ++ iterator.current?.toList.map (⟨·, false⟩) ++ rest
  /-- the match is one of the nodes that are bound -/
  mem_chain : ∀ node, iterator.current? = some node → node ∈ iterator.chain
  /-- none of these nodes and none of the candidates has been left for its next sibling -/
  nextSibling : (asked .nextSibling left).Perm
    (iterator.chain.map Position.id ++ rest.map Visit.id)
  /-- none of the candidates has been entered -/
  firstChild : asked .firstChild left = entered rest

theorem Owes.exists_remains (hp : path.steps = first :: steps) (hn : steps ≠ [])
    (ha : path.anchor = some anchor) (hv : ((visits anchor steps).map Visit.id).Nodup)
    (h : iterator.Owes path first left) : ∃ rest, iterator.Remains anchor steps left rest := by
  obtain ⟨cursor, rfl, hc, rfl⟩ := h
  cases cursor with
  | exhausted =>
    refine ⟨[], ?_, nofun, .nil, rfl⟩
    rw [visited_of_none rfl]
    exact (List.append_nil _).symm.trans (List.append_nil _).symm
  | resting origin trail pending =>
    obtain ⟨ho, hsound, hb⟩ := hc
    obtain rfl : anchor = origin := Option.some.inj (ha.symm.trans ho)
    rw [hp, List.drop_one, List.tail_cons] at hb
    cases trail with
    | nil => exact absurd hb.symm hn
    | cons last trail =>
      obtain ⟨front, hfront⟩ := exists_visits_eq [last.step] hsound.2
      obtain ⟨between, hbetween⟩ := exists_visits_cons [] hsound.1
      have hvisits : visits anchor steps = (front ++ between) ++ ⟨last.position, false⟩ ::
          laterVisits anchor (last :: trail) [] := by
        rw [← hb, List.map_cons, List.reverse_cons, hfront, hbetween, laterVisits]
        simp only [List.append_assoc, List.cons_append]
        rfl
      have hcurrent : ((Cursor.resting anchor (last :: trail) pending).iterator first).current? =
          some last.position := current?_iterator _ _
      refine ⟨laterVisits anchor (last :: trail) [], ?_, ?_, ?_, ?_⟩
      · rw [visited_of_some hv hvisits hcurrent, hcurrent, hvisits]
        exact List.append_cons _ _ _
      · intro node he
        rw [hcurrent] at he
        cases he
        rw [chain_ofTrail, List.map_cons, List.mem_reverse]
        exact List.mem_cons_self
      · rw [chain_ofTrail, List.map_reverse, List.map_map]
        refine (asked_nextSibling_outstanding anchor (last :: trail) []).trans ?_
        exact (List.reverse_perm _).symm.append_right _
      · exact asked_firstChild_outstanding anchor (last :: trail) []

namespace Remains

variable {rest : List Visit}

/-- What has been visited is bound, or it has been left for its next sibling. -/
theorem asked_nextSibling (h : iterator.Remains anchor steps left rest)
    (hd : asked .nextSibling calls ++ asked .nextSibling left =
      asked .nextSibling (Search.due anchor steps)) :
    (asked .nextSibling calls ++ iterator.chain.map Position.id).Perm
      ((iterator.visited anchor steps).map Visit.id ++
        iterator.current?.toList.map Position.id) := by
  have hdue := asked_nextSibling_due anchor steps
  rw [← hd] at hdue
  have hall := (h.nextSibling.append_left _).symm.trans hdue
  rw [h.visits_eq, List.map_append, List.map_append, List.map_map, ← List.append_assoc] at hall
  exact (List.perm_append_right_iff _).mp hall

/-- The first child has been asked for where a search has been entered, in this order. -/
theorem asked_firstChild (h : iterator.Remains anchor steps left rest) (hn : steps ≠ [])
    (hd : asked .firstChild calls ++ asked .firstChild left =
      asked .firstChild (Search.due anchor steps)) :
    asked .firstChild calls = anchor.id :: entered (iterator.visited anchor steps) := by
  have hdue := asked_firstChild_due anchor steps
  have hcurrent : entered (iterator.current?.toList.map (⟨·, false⟩)) = [] := by
    cases iterator.current? <;> rfl
  rw [← hd, h.firstChild, h.visits_eq, entered_append, entered_append, hcurrent, List.append_nil,
    ← List.append_assoc, List.isEmpty_eq_false_iff.mpr hn] at hdue
  exact List.append_cancel_right hdue

end Remains

/-- Nodes that are all different are each in one of the parts. -/
theorem count_of_perm {part other all : List NodeId} (hn : all.Nodup)
    (h : (part ++ other).Perm all) (id : NodeId) :
    part.count id = if id ∈ all ∧ id ∉ other then 1 else 0 := by
  have hcount := h.count_eq id
  have hother := (List.nodup_append.mp (h.nodup_iff.mpr hn)).2.1
  rw [List.count_append, hn.count, hother.count] at hcount
  by_cases ho : id ∈ other
  · have hm : id ∈ all := h.subset (List.mem_append_right _ ho)
    rw [if_pos hm, if_pos ho] at hcount
    rw [if_neg fun hc => hc.2 ho]
    omega
  · rw [if_neg ho] at hcount
    simpa [ho] using hcount

/-- What an iterator doesn't owe of what is due has been asked for. -/
theorem Owes.hasAsked (hp : path.steps = first :: steps) (hn : steps ≠ [])
    (ha : path.anchor = some anchor)
    (hv : (anchor.id :: (visits anchor steps).map Visit.id).Nodup)
    (h : iterator.Owes path first left)
    (hd : ∀ operation, operation ≠ .attr → asked operation calls ++ asked operation left =
      asked operation (Search.due anchor steps)) :
    iterator.HasAsked anchor steps calls := by
  have hdifferent := (List.nodup_cons.mp hv).2
  obtain ⟨rest, hrest⟩ := h.exists_remains hp hn ha hdifferent
  have hleft := hrest.asked_nextSibling (hd .nextSibling nofun)
  have hentered := hrest.asked_firstChild hn (hd .firstChild nofun)
  refine ⟨⟨rest, hrest.visits_eq⟩, ?_, ?_, ?_⟩
  · intro id
    have hall : ((iterator.visited anchor steps).map Visit.id ++
        iterator.current?.toList.map Position.id).Nodup := by
      rw [hrest.visits_eq, List.map_append, List.map_append, List.map_map] at hdifferent
      exact (List.nodup_append.mp hdifferent).1
    -- the match is bound itself
    have hcurrent (hm : id ∈ iterator.current?.toList.map Position.id) :
        id ∈ iterator.chain.map Position.id := by
      obtain ⟨node, hnode, rfl⟩ := List.mem_map.mp hm
      exact List.mem_map_of_mem (hrest.mem_chain node (Option.mem_toList.mp hnode))
    rw [← count_asked, count_of_perm hall hleft]
    congr 1
    rw [List.mem_append]
    exact propext (and_congr_left fun hc => or_iff_left (mt hcurrent hc))
  · intro id
    have hsub : (entered (iterator.visited anchor steps)).Sublist
        ((visits anchor steps).map Visit.id) :=
      (List.filter_sublist.trans (List.takeWhile_sublist _)).map Visit.id
    rw [← count_asked, hentered, ((hsub.cons_cons anchor.id).nodup hv).count]
    simp only [List.mem_cons]
  · intro he
    have hslots : iterator.slots = [] := List.isEmpty_iff.mp he
    have hcurrent : iterator.current? = none := by rw [current?, hslots]; rfl
    have hbound : iterator.chain = [] := by rw [chain, hslots]; rfl
    rw [visited_of_none hcurrent] at hleft hentered
    rw [hcurrent, hbound] at hleft
    rw [← length_asked, ← length_asked, hentered]
    refine ⟨?_, rfl⟩
    simpa using hleft.length_eq

/-- Calls fail only if a lookup is refused, as long as none has failed before. By induction on the
calls. -/
theorem respond_isLookup {cursor : Cursor} (moves : List Move) (h : cursor.IsAlong path) :
    ((respond moves).run (cursor.iterator first)).1.IsLookup := by
  induction moves generalizing cursor with
  | nil => exact nofun
  | cons move moves ih =>
    obtain ⟨hl, hleft⟩ := @move_along path first cursor h move
    intro error he
    rw [respond, Overwriting.fst_bind] at he
    rcases Reading.outcome_bind_eq_error.mp he with he | ⟨found, ho, he⟩
    · exact hl error he
    · obtain ⟨left, hs, hc⟩ := hleft found ho
      rw [hs, Overwriting.run_bind_pure] at he
      exact ih hc error (Reading.outcome_map_eq_error.mp he)

/-- Where an iterator over a path to children rests, it has asked for the next sibling of each node
that the search has visited and left, for the first child of the anchor and of each node that the
search has entered, once each. It gets there unless a lookup is refused. Even then it doesn't move
in any other way. -/
theorem asks_once {forest : Forest} {path : Path} {anchor : Position} {first : Step}
    {steps : List Step} (h : forest.IsSound) (hm : anchor ∈ forest.positions)
    (ha : path.anchor = some anchor) (hp : path.steps = first :: steps) (hn : steps ≠ [])
    (hs : ∀ step ∈ steps, step.IsToChildren) :
    ((visits anchor steps).map Visit.id).Nodup ∧
    (∀ iterator moves, (start path).outcome = .ok iterator →
      ((respond moves).run iterator).1.IsLookup ∧
      ∀ found, ((respond moves).run iterator).1.outcome = .ok found →
        ((respond moves).run iterator).2.HasAsked anchor steps
          ((start path).calls ++ ((respond moves).run iterator).1.calls)) ∧
    (path.IsReadable → ∃ iterator, (start path).outcome = .ok iterator ∧
      ∀ moves, ∃ found, ((respond moves).run iterator).1.outcome = .ok found) ∧
    (start path).LooksDown ∧
    ∀ iterator moves (move : Move), (start path).outcome = .ok iterator →
      (move.run.run (iterator.after moves)).1.LooksDown := by
  have hv := visits_nodup h hm hs
  have hdrop : path.steps.drop 1 = steps := by rw [hp]; rfl
  have hf : path.steps = first :: path.steps.drop 1 := by rw [hdrop, hp]
  have hne : path.steps ≠ [] := by rw [hp]; exact List.cons_ne_nil _ _
  have hsteps : ∀ step ∈ path.steps.drop 1, step.IsToChildren := by rwa [hdrop]
  refine ⟨(List.nodup_cons.mp hv).2, ?_, exists_answers_of_isReadable hne,
    start_looksDown hf hsteps, ?_⟩
  · intro iterator moves ho
    refine ⟨?_, ?_⟩
    · obtain ⟨cursor, rfl, hc⟩ := start_along hf ho
      exact respond_isLookup moves hc
    · intro found hr
      obtain ⟨due, howes, hdue⟩ := start_owes hp ha hs ho
      obtain ⟨left, hleft, hcalls⟩ := howes.respond hsteps hr
      refine hleft.hasAsked hp hn ha hv ?_
      intro operation hattr
      rw [← hdue, ← hcalls, asked_append, asked_append, asked_append, asked_travel _ hattr,
        asked_travel _ hattr, List.append_assoc]
  · intro iterator moves move ho
    obtain ⟨cursor, rfl, hc⟩ := start_along hf ho
    exact ((Halts.of_along first hc).after moves).looksDown hsteps move

end Iterator

/-- Four nodes of one name. The first has no children, the second one has a child `b`, the third one
lacks an attribute, and the last one has two children `b` with another one between them. -/
def scatteredForest : Forest :=
  let node (id : Nat) (name : String) (content : Content) (rest : Content) : Content :=
    .element { id := ⟨id⟩, name := { localPart := name } } content none rest
  let marked (id : Nat) (content : Content) (rest : Content) : Content :=
    .element { id := ⟨id⟩, name := { localPart := "a" }, attributes := [⟨⟨none, "x", none⟩, "1"⟩] }
      content none rest
  { trees := [⟨node 0 "r"
      (marked 1 .nil (marked 2 (node 3 "b" .nil .nil) (node 4 "a" .nil
        (marked 5 (node 6 "b" .nil (node 7 "c" .nil (node 8 "b" .nil .nil))) .nil)))) .nil, 0⟩]
    next := 9 }

/-- The children of those that have the attribute. -/
def scatteredPath : Path where
  anchor := scatteredForest.position? ⟨0⟩
  steps := [{}, { name := "a", constraints := [{ name := "x" }] }, { name := "b" }]

/-- The iterator that is started along it rests at the child of the second one. -/
def scatteredIterator : Iterator :=
  match (Iterator.start scatteredPath).outcome with
  | .ok iterator => iterator
  | .error _ => {}

/-- It advances once. -/
theorem hasAsked_scatteredIterator :
    scatteredForest.IsSound ∧ ∃ anchor ∈ scatteredForest.positions,
      scatteredPath.anchor = some anchor ∧
      (Iterator.start scatteredPath).outcome = .ok scatteredIterator ∧
      let moved := (Iterator.respond [.advance]).run scatteredIterator
      let steps := scatteredPath.steps.drop 1
      moved.1.outcome = .ok [none] ∧
      (moved.2.visited anchor steps).map Visit.id = [⟨1⟩, ⟨2⟩, ⟨3⟩, ⟨4⟩, ⟨5⟩] ∧
      entered (moved.2.visited anchor steps) = [⟨1⟩, ⟨2⟩, ⟨5⟩] ∧
      moved.2.chain.map Position.id = [⟨5⟩, ⟨6⟩] ∧
      moved.2.HasAsked anchor steps ((Iterator.start scatteredPath).calls ++ moved.1.calls) := by
  have hsound : scatteredForest.IsSound := ⟨by decide, by decide, by decide⟩
  have hm := List.get_mem scatteredForest.positions ⟨0, by decide +kernel⟩
  have ha : scatteredPath.anchor = some (scatteredForest.positions.get ⟨0, by decide +kernel⟩) := by
    decide +kernel
  have ho : (Iterator.start scatteredPath).outcome = .ok scatteredIterator := by decide +kernel
  have hr : ((Iterator.respond [.advance]).run scatteredIterator).1.outcome = .ok [none] := by
    decide +kernel
  have hasked := ((Iterator.asks_once hsound hm ha rfl (by decide) (by decide)).2.1 _ _ ho).2 _ hr
  exact ⟨hsound, _, hm, ha, ho, hr, by decide +kernel, by decide +kernel, by decide +kernel, hasked⟩

/-- The first of three children, by its name. The name of the second one can't be told. -/
def refusedPath : Path where
  anchor := unboundForest.position? ⟨0⟩
  steps := [{}, { name := "c" }]

/-- The iterator that is started along it rests there. -/
def refusedIterator : Iterator :=
  match (Iterator.start refusedPath).outcome with
  | .ok iterator => iterator
  | .error _ => {}

/-- A call that is refused a name has asked for the next sibling of the node where the iterator
rests, and still does. -/
theorem not_hasAsked_refusedIterator :
    ¬ ∀ (forest : Forest) (path : Path) (anchor : Position) (first : Step) (steps : List Step),
      forest.IsSound → anchor ∈ forest.positions → path.anchor = some anchor →
      path.steps = first :: steps → steps ≠ [] → (∀ step ∈ steps, step.IsToChildren) →
      ∀ iterator moves, (Iterator.start path).outcome = .ok iterator →
        ((Iterator.respond moves).run iterator).2.HasAsked anchor steps
          ((Iterator.start path).calls ++ ((Iterator.respond moves).run iterator).1.calls) := by
  intro h
  have hm := List.get_mem unboundForest.positions ⟨0, by decide +kernel⟩
  have hasked := h unboundForest refusedPath _ {} [{ name := "c" }]
    ⟨by decide, by decide, by decide⟩ hm (by decide +kernel) rfl (by decide) (by decide)
    refusedIterator [.advance] (by decide +kernel)
  exact absurd (hasked.nextSibling ⟨1⟩) (by decide +kernel)

end MarkupPath
