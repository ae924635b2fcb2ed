import MarkupPath.Proofs.Search.Listing
import MarkupPath.Proofs.Search.Routes

/-!
# What a search asks for

Below a node a search for children asks for the first child once, and at each candidate for the
next sibling once, after what is below it has been searched. `due context steps` are these calls in
the order in which a search for all matches makes them, and `outstanding anchor trail below` those
that it has still to make when it has got to the end of a trail.

A search doesn't make them all at once, but it makes no others: what a move of an iterator asks for
is taken from the front of what is outstanding (`Cursor.pull_accounts`). So what has been asked for
up to a match, and what is outstanding there, are together what is due from the anchor on
(`Iterator.respond_accounts`). Attributes that are looked up aren't counted.
-/

namespace MarkupPath

/-! ## Calls on the way -/

namespace Reading

variable {α β : Type}

/-- The calls that are made to get from node to node: all but those that look up attributes. -/
def travel (r : Reading α) : List Call := r.calls.filter (·.operation != .attr)

@[simp] theorem travel_pure (a : α) : (pure a : Reading α).travel = [] := rfl

@[simp] theorem travel_map (f : α → β) (r : Reading α) : (f <$> r).travel = r.travel := rfl

@[simp] theorem travel_plain {P : α → Prop} (r : Reading (Option { a : α // P a })) :
    r.plain.travel = r.travel := rfl

/-- What holds of the calls of two readings holds of those of one after the other. -/
theorem forall_mem_calls_bind {p : Call → Prop} {r : Reading α} {f : α → Reading β}
    (h : ∀ call ∈ r.calls, p call) (hf : ∀ a, ∀ call ∈ (f a).calls, p call) :
    ∀ call ∈ (r >>= f).calls, p call := by
  rw [bind_eq]
  cases ho : r.outcome with
  | error error =>
    rw [bind_of_error f ho]
    exact h
  | ok a =>
    rw [bind_of_ok f ho]
    exact List.forall_mem_append.mpr ⟨h, hf a⟩

theorem travel_bind_of_ok {r : Reading α} {a : α} (f : α → Reading β) (h : r.outcome = .ok a) :
    (r >>= f).travel = r.travel ++ (f a).travel := by
  rw [bind_eq, bind_of_ok f h, travel, List.filter_append]
  rfl

end Reading

theorem Position.travel_attr (position : Position) (name : String) :
    (position.attr name).travel = [] := rfl

theorem Constraint.travel_holds (constraint : Constraint) (position : Position) :
    (constraint.holds position).travel = [] := by
  rw [holds]
  cases ho : (position.attr constraint.name).outcome with
  | error error =>
    rw [Reading.bind_eq, Reading.bind_of_error _ ho]
    rfl
  | ok value =>
    rw [Reading.travel_bind_of_ok _ ho, Position.travel_attr]
    cases value <;> rfl

namespace Step

variable {step : Step} {context position : Position} {found : Option Position}

/-- A step to children. -/
def IsToChildren (step : Step) : Prop := step.axis = .children ∨ step.axis = .anyChild

instance (step : Step) : Decidable step.IsToChildren :=
  inferInstanceAs (Decidable (step.axis = .children ∨ step.axis = .anyChild))

/-- The candidates that come behind one of them. -/
def later (step : Step) (context position : Position) : List Position :=
  (step.beyond context position).filter fun next => step.matchesName next.name

theorem travel_accepts (step : Step) (position : Position) :
    (step.accepts position).travel = [] := by
  rw [accepts]
  induction step.constraints with
  | nil => rfl
  | cons constraint rest ih =>
    rw [allHold]
    cases ho : (constraint.holds position).outcome with
    | error error =>
      rw [Reading.bind_eq, Reading.bind_of_error _ ho]
      exact constraint.travel_holds position
    | ok isMet =>
      rw [Reading.travel_bind_of_ok _ ho, constraint.travel_holds]
      cases isMet with
      | true => exact ih
      | false => rfl

theorem travel_first (h : step.IsToChildren) (context : Position) :
    (step.first context).travel = [⟨.firstChild, context.id⟩] := by
  have hfirst : step.first context = (context.firstChild step.nameFilter).plain := by
    rcases h with h | h <;> rw [first, h]
  rw [hfirst, Position.plain_firstChild]
  cases context.childRefusal? step.nameFilter <;> rfl

theorem travel_next (h : step.IsToChildren) (context position : Position) :
    (step.next context position).travel = [⟨.nextSibling, position.id⟩] := by
  have hnext : (step.next context position).plain =
      (position.nextSibling step.nameFilter).plain := by
    rcases h with h | h <;> rw [next, h] <;> exact Reading.plain_weaken _ _
  rw [← Reading.travel_plain, hnext, Position.plain_nextSibling]
  cases position.siblingRefusal? step.nameFilter <;> rfl

/-- A node that is accepted is admitted. -/
theorem admits_of_accepts {verdict : Bool} (hm : step.matchesName position.name = true)
    (h : (step.accepts position).outcome = .ok verdict) : step.admits position = verdict := by
  rw [accepts, outcome_allHold] at h
  cases hj : position.judge step.constraints with
  | error refusal =>
    rw [hj] at h
    cases h
  | ok judged =>
    rw [hj] at h
    cases h
    rw [admits, hm, Bool.true_and, Position.judge_eq_ok hj]

end Step

/-- The candidate that is found among those that are left, and those behind it. -/
inductive Heads (step : Step) (context : Position) : List Position → Option Position → Prop where
  /-- none is left -/
  | nothing : Heads step context [] none
  /-- the first one is found -/
  | candidate {position : Position} : position ∈ step.candidates context →
    Heads step context (position :: step.later context position) (some position)

/-- What is nothing to a search doesn't pass the name test. -/
theorem Step.filter_of_filterMap_sight {step : Step} {nodes : List Position}
    (h : nodes.filterMap step.sight = []) :
    (nodes.filter fun next => step.matchesName next.name) = [] := by
  have ha := step.filterMap_sight_agrees nodes
  rw [h] at ha
  generalize nodes.filter _ = passing at ha
  cases ha
  rfl

/-- What passes the name test is something to a search. -/
theorem Step.exists_sight {step : Step} {position : Position}
    (h : step.matchesName position.name = true) :
    ∃ sighting, step.sight position = some sighting := by
  rw [sight]
  split
  · exact ⟨_, rfl⟩
  · exact ⟨_, if_pos h⟩

/-- Without a refusal the first candidate is found. -/
theorem Finds.heads {step : Step} {context : Position} {left : List Position}
    {answer : Except Error (Option Position)} {found : Option Position}
    (h : Finds step left answer) (hl : left <:+ step.reachable context) (ho : answer = .ok found) :
    Heads step context (left.filter fun next => step.matchesName next.name) found := by
  have hmem (position : Position) (hf : found = some position) :
      position ∈ step.candidates context := h.mem_candidates hl (hf ▸ ho)
  cases h with
  | nothing hn =>
    cases ho
    rw [Step.filter_of_filterMap_sight hn]
    exact .nothing
  | refused _ => cases ho
  | @candidate rest position hc hf =>
    cases ho
    have hp := hmem position rfl
    obtain ⟨skipped, rfl⟩ := hc
    obtain rfl := Step.beyond_of_suffix ((List.suffix_append _ _).trans hl)
    have hmatches : step.matchesName position.name = true := (List.mem_filter.mp hp).2
    -- those in front of the candidate are nothing to the search
    have hskipped : skipped.filterMap step.sight = [] := by
      obtain ⟨sighting, hs⟩ := Step.exists_sight hmatches
      rw [List.filterMap_append, List.filterMap_cons_some hs] at hf
      have hlength := congrArg List.length hf
      rw [List.length_append, List.length_cons, List.length_cons] at hlength
      exact List.eq_nil_of_length_eq_zero (by omega)
    rw [List.filter_append, Step.filter_of_filterMap_sight hskipped, List.nil_append,
      List.filter_cons_of_pos (by simpa using hmatches)]
    exact .candidate hp

namespace Step

variable {step : Step} {context position : Position} {found : Option Position}

theorem first_heads (ho : (step.first context).outcome = .ok found) :
    Heads step context (step.candidates context) found :=
  (step.first_finds context).heads (List.suffix_refl _) ho

theorem next_heads (hc : position ∈ step.candidates context)
    (ho : (step.next context position).plain.outcome = .ok found) :
    Heads step context (step.later context position) found := by
  have hr := (List.mem_filter.mp hc).1
  exact (next_finds hr).heads ((List.suffix_cons _ _).trans (cons_beyond_suffix hr)) ho

end Step

namespace Search

variable {anchor context position : Position} {step : Step} {after calls more : List Call}

/-! ## Calls that are due -/

/-- What is asked for in the course of a search that goes through candidates of a step: at each of
them what is `due` below it if it's admitted, and then the next sibling. -/
def sweep (step : Step) (due : Position → List Call) (nodes : List Position) : List Call :=
  nodes.flatMap fun node =>
    (if step.admits node then due node else []) ++ [⟨.nextSibling, node.id⟩]

/-- What is asked for in the course of a search for all matches of steps at a context node. -/
def due (context : Position) : List Step → List Call
  | [] => []
  | step :: steps =>
    ⟨.firstChild, context.id⟩ :: sweep step (fun node => due node steps) (step.candidates context)

/-- What a search has still to ask for from the end of a trail on. The steps `below` aren't bound
there. -/
def outstanding (anchor : Position) : (trail : List Bound) → (below : List Step) → List Call
  | [], _ => []
  | bound :: trail, below =>
    ⟨.nextSibling, bound.position.id⟩ ::
      sweep bound.step (fun node => due node below)
        (bound.step.later (endOf anchor trail) bound.position)
      ++ outstanding anchor trail (bound.step :: below)

theorem sweep_cons (step : Step) (due : Position → List Call) (node : Position)
    (nodes : List Position) :
    sweep step due (node :: nodes) =
      (if step.admits node then due node else []) ++ ⟨.nextSibling, node.id⟩ ::
        sweep step due nodes := by
  simp [sweep]

/-- What is outstanding behind what was found: `after` if that's nothing, and else what is from the
end of the trail on. -/
def outstandingBehind (anchor : Position) (after : List Call) : Option (List Bound) → List Call
  | none => after
  | some trail => outstanding anchor trail []

/-- What a search asks for, and what is outstanding behind what it finds, is what is due now and
what will be later. -/
def Accounts (anchor : Position) (after calls : List Call) (r : Reading (Option (List Bound))) :
    Prop :=
  ∀ found, r.outcome = .ok found →
    r.travel ++ outstandingBehind anchor after found = calls ++ after

namespace Accounts

theorem nothing : Accounts anchor after [] (pure none) := by
  intro found ho
  cases ho
  rfl

/-- Something is asked for before. -/
theorem read {α : Type} {r : Reading α} {f : α → Reading (Option (List Bound))}
    (h : ∀ a, r.outcome = .ok a → Accounts anchor after calls (f a)) :
    Accounts anchor after (r.travel ++ calls) (r >>= f) := by
  intro found ho
  obtain ⟨a, hr, hf⟩ := Reading.outcome_bind_eq_ok.mp ho
  rw [Reading.travel_bind_of_ok f hr, List.append_assoc, h a hr found hf, List.append_assoc]

/-- What is found first, or else what is found after that. -/
theorem orElse {r other : Reading (Option (List Bound))}
    (h : Accounts anchor (more ++ after) calls r) (ho : Accounts anchor after more other) :
    Accounts anchor after (calls ++ more)
      (r >>= fun found => match found with
        | some trail => pure (some trail)
        | none => other) := by
  intro found hf
  obtain ⟨first, hr, hf⟩ := Reading.outcome_bind_eq_ok.mp hf
  have hfirst := h first hr
  rw [Reading.travel_bind_of_ok _ hr]
  cases first with
  | some trail =>
    cases hf
    rw [Reading.travel_pure, List.append_nil, List.append_assoc]
    exact hfirst
  | none =>
    -- the first search has asked for all that was due
    obtain rfl := List.append_cancel_right hfirst
    rw [List.append_assoc, ho found hf, List.append_assoc]

end Accounts

/-! ## Searching -/

section Settle

variable {accept : Position → Reading (Option (List Bound))} {below : Position → List Call}

theorem examine_accounts (hc : position ∈ step.candidates context)
    (ha : Accounts anchor after (below position) (accept position)) :
    Accounts anchor after (if step.admits position then below position else [])
      (examine step accept position) := by
  intro found ho
  obtain ⟨verdict, hv, hf⟩ := Reading.outcome_bind_eq_ok.mp ho
  have hmatches : step.matchesName position.name = true := by
    simpa using (List.mem_filter.mp hc).2
  rw [examine, Reading.travel_bind_of_ok _ hv, Step.travel_accepts, List.nil_append,
    Step.admits_of_accepts hmatches hv]
  cases verdict with
  | true => exact ha found hf
  | false => exact Accounts.nothing found hf

/-- Settling from a candidate accounts for that and for those behind it, if accepting each of them
accounts for what is below. By induction on the number of nodes that come later. -/
theorem settleFrom_accounts (hs : step.IsToChildren)
    (ha : ∀ candidate ∈ step.candidates context,
      Accounts anchor
        (⟨.nextSibling, candidate.id⟩ :: sweep step below (step.later context candidate) ++ after)
        (below candidate) (accept candidate))
    (hc : position ∈ step.candidates context) :
    Accounts anchor after (sweep step below (position :: step.later context position))
      (Option.map Prod.snd <$> settleFrom step context accept position) := by
  induction hn : position.ahead using Nat.strongRecOn generalizing position with
  | ind n ih =>
    subst hn
    rw [Slots.map_settleFrom, sweep_cons]
    refine .orElse (examine_accounts hc (ha position hc)) ?_
    have hcalls : (⟨.nextSibling, position.id⟩ :: sweep step below (step.later context position)) =
        (step.next context position).travel ++ sweep step below (step.later context position) := by
      rw [Step.travel_next hs]
      rfl
    rw [hcalls]
    refine .read ?_
    intro found ho
    have hfound := Step.next_heads hc (Reading.outcome_map_eq_ok.mpr ⟨_, ho, rfl⟩)
    generalize step.later context position = left at hfound
    rcases found with _ | ⟨next, hn⟩
    · cases hfound
      exact .nothing
    · cases hfound with
      | candidate hc => exact ih _ hn hc rfl

/-- Settling on what was found among candidates accounts for them. -/
theorem settle_accounts {left : List Position} {found : Option Position} (hs : step.IsToChildren)
    (ha : ∀ candidate ∈ step.candidates context,
      Accounts anchor
        (⟨.nextSibling, candidate.id⟩ :: sweep step below (step.later context candidate) ++ after)
        (below candidate) (accept candidate))
    (h : Heads step context left found) :
    Accounts anchor after (sweep step below left)
      (Option.map Prod.snd <$> settle step context accept found) := by
  cases h with
  | nothing => exact .nothing
  | candidate hc => exact settleFrom_accounts hs ha hc

end Settle

/-- The descent accounts for what is due at the end of the trail. -/
theorem bindBelow_accounts {trail : List Bound} {steps : List Step}
    (hs : ∀ step ∈ steps, step.IsToChildren) :
    Accounts anchor (outstanding anchor trail steps) (due (endOf anchor trail) steps)
      (bindBelow trail (endOf anchor trail) steps) := by
  induction steps generalizing trail with
  | nil =>
    intro found ho
    cases ho
    rfl
  | cons step steps ih =>
    obtain ⟨hstep, hrest⟩ := List.forall_mem_cons.mp hs
    have hcalls : due (endOf anchor trail) (step :: steps) =
        (step.first (endOf anchor trail)).travel ++
          sweep step (fun node => due node steps) (step.candidates (endOf anchor trail)) := by
      rw [Step.travel_first hstep]
      rfl
    rw [bindBelow_cons, map_bind, hcalls]
    refine .read ?_
    intro candidate ho
    refine settle_accounts hstep ?_ (Step.first_heads ho)
    intro candidate _
    exact @ih (⟨step, candidate⟩ :: trail) hrest

/-- A search that is resumed accounts for all that is outstanding. -/
theorem resume_accounts {trail : List Bound} {below : List Step}
    (ht : ∀ bound ∈ trail, bound.step.IsToChildren) (hb : ∀ step ∈ below, step.IsToChildren)
    (hs : IsSound anchor trail) :
    Accounts anchor [] (outstanding anchor trail below) (resume anchor trail below) := by
  induction trail generalizing below with
  | nil => exact .nothing
  | cons last trail ih =>
    obtain ⟨hlast, hrest⟩ := List.forall_mem_cons.mp ht
    have hcalls : outstanding anchor (last :: trail) below =
        (last.step.next (endOf anchor trail) last.position).plain.travel ++
          (sweep last.step (fun node => due node below)
            (last.step.later (endOf anchor trail) last.position) ++
          outstanding anchor trail (last.step :: below)) := by
      rw [Reading.travel_plain, Step.travel_next hlast]
      rfl
    have hc : last.position ∈ last.step.candidates (endOf anchor trail) :=
      (List.mem_filter.mp hs.1).1
    rw [resume_cons, map_bind, bind_assoc, hcalls]
    refine .read ?_
    intro candidate ho
    refine .orElse (settle_accounts hlast ?_ (Step.next_heads hc ho)) ?_
    · intro candidate _
      rw [List.append_nil]
      exact @bindBelow_accounts anchor (⟨last.step, candidate⟩ :: trail) below hb
    · exact ih hrest (List.forall_mem_cons.mpr ⟨hlast, hb⟩) hs.2

/-- The steps on a trail are among those that are searched for. -/
theorem forall_mem_trail {trail : List Bound} {steps : List Step}
    (hs : ∀ step ∈ steps, step.IsToChildren) (h : (trail.map Bound.step).reverse = steps) :
    ∀ bound ∈ trail, bound.step.IsToChildren := by
  intro bound hm
  apply hs
  rw [← h, List.mem_reverse]
  exact List.mem_map_of_mem hm

end Search

/-! ## Iterating -/

/-- What a search along a path has still to ask for where a cursor rests. -/
def Cursor.outstanding : Cursor → List Call
  | exhausted => []
  | resting anchor trail _ => Search.outstanding anchor trail []

theorem Cursor.outstanding_ofTrail (anchor : Position) (pending : Bool)
    (found : Option (List Bound)) :
    (ofTrail anchor pending found).outstanding = Search.outstandingBehind anchor [] found := by
  cases found <;> rfl

namespace Iterator

variable {path : Path} {first : Step} {iterator : Iterator} {calls : List Call}

/-- An iterator rests along a path where the search has still to ask for something. -/
def Owes (path : Path) (first : Step) (iterator : Iterator) (calls : List Call) : Prop :=
  ∃ cursor : Cursor, iterator = cursor.iterator first ∧ cursor.IsAlong path ∧
    cursor.outstanding = calls

/-- An iterator that is started has asked for what is due but for what it owes. -/
theorem start_owes {anchor : Position} {steps : List Step} (hp : path.steps = first :: steps)
    (ha : path.anchor = some anchor) (hs : ∀ step ∈ steps, step.IsToChildren)
    (ho : (start path).outcome = .ok iterator) :
    ∃ left, iterator.Owes path first left ∧
      (start path).travel ++ left = Search.due anchor steps := by
  have hne : path.steps ≠ [] := by
    rw [hp]
    exact List.cons_ne_nil _ _
  rw [start_eq hp] at ho ⊢
  obtain ⟨cursor, hc, rfl⟩ := Reading.outcome_map_eq_ok.mp ho
  refine ⟨_, ⟨cursor, rfl, Cursor.start_along hne hc, rfl⟩, ?_⟩
  have hstart :
      Cursor.start path = Cursor.ofTrail anchor true <$> Search.bindBelow [] anchor steps := by
    rw [Cursor.start, hp, ha, map_eq_pure_bind]
  rw [hstart] at hc ⊢
  obtain ⟨found, hfound, rfl⟩ := Reading.outcome_map_eq_ok.mp hc
  have hb := @Search.bindBelow_accounts anchor [] steps hs found hfound
  rw [Search.outstanding, List.append_nil] at hb
  rw [Reading.travel_map, Reading.travel_map, Cursor.outstanding_ofTrail]
  exact hb

theorem Owes.advance (hs : ∀ step ∈ path.steps.drop 1, step.IsToChildren)
    (h : iterator.Owes path first calls) {done : Unit}
    (ho : (Iterator.advance.run iterator).1.outcome = .ok done) :
    ∃ left, (Iterator.advance.run iterator).2.Owes path first left ∧
      (Iterator.advance.run iterator).1.travel ++ left = calls := by
  obtain ⟨cursor, rfl, hc, rfl⟩ := h
  cases cursor with
  | exhausted =>
    cases ho
    exact ⟨[], ⟨.exhausted, rfl, trivial, rfl⟩, rfl⟩
  | resting anchor trail pending =>
    obtain ⟨ha, ht, hb⟩ := hc
    obtain ⟨hr, hl⟩ := advance_lands first pending ht.isTried
    rw [hr] at ho ⊢
    obtain ⟨found, hfound, -⟩ := Reading.outcome_map_eq_ok.mp ho
    have htrail := Search.forall_mem_trail hs hb
    have haccounts := Search.resume_accounts htrail (List.forall_mem_nil _) ht found hfound
    rw [List.append_nil] at haccounts
    refine ⟨_, ?_, haccounts⟩
    generalize (Iterator.advance.run _).2 = moved at hl
    rw [hfound] at hl
    cases hl with
    | exhausted => exact ⟨.exhausted, rfl, trivial, rfl⟩
    | resting trail hsteps ht =>
      exact ⟨.resting anchor trail false, rfl, ⟨ha, ht, hsteps.trans hb⟩, rfl⟩

/-- What a call asks for is no longer owed. -/
theorem Owes.move (hs : ∀ step ∈ path.steps.drop 1, step.IsToChildren)
    (h : iterator.Owes path first calls) (move : Move) {found : Option Position}
    (ho : (move.run.run iterator).1.outcome = .ok found) :
    ∃ left, (move.run.run iterator).2.Owes path first left ∧
      (move.run.run iterator).1.travel ++ left = calls := by
  rcases move.run_cases iterator with ⟨hp, hm⟩ | ⟨answer, hm⟩
  · -- the pending match is given
    rw [hm]
    obtain ⟨cursor, rfl, hc, rfl⟩ := h
    refine ⟨_, ?_, rfl⟩
    cases cursor with
    | exhausted => cases hp
    | resting anchor trail pending => exact ⟨.resting anchor trail false, rfl, hc, rfl⟩
  · rw [hm] at ho ⊢
    obtain ⟨done, ho, -⟩ := Reading.outcome_map_eq_ok.mp ho
    exact h.advance hs ho

/-- What calls ask for and what is owed after them is what was owed before. By induction on the
calls. -/
theorem Owes.respond (hs : ∀ step ∈ path.steps.drop 1, step.IsToChildren) {moves : List Move}
    (h : iterator.Owes path first calls) {found : List (Option Position)}
    (ho : ((Iterator.respond moves).run iterator).1.outcome = .ok found) :
    ∃ left, ((Iterator.respond moves).run iterator).2.Owes path first left ∧
      ((Iterator.respond moves).run iterator).1.travel ++ left = calls := by
  induction moves generalizing iterator calls found with
  | nil => exact ⟨calls, h, rfl⟩
  | cons move moves ih =>
    rw [Iterator.respond] at ho ⊢
    rw [Overwriting.fst_bind] at ho ⊢
    obtain ⟨answer, ha, ho⟩ := Reading.outcome_bind_eq_ok.mp ho
    rw [Reading.travel_bind_of_ok _ ha, Overwriting.snd_bind_of_ok _ ha]
    obtain ⟨between, hbetween, hcalls⟩ := h.move hs move ha
    rw [Overwriting.run_bind_pure] at ho ⊢
    obtain ⟨others, ho, -⟩ := Reading.outcome_map_eq_ok.mp ho
    obtain ⟨left, hleft, hrest⟩ := ih hbetween ho
    refine ⟨left, hleft, ?_⟩
    rw [Reading.travel_map, List.append_assoc, hrest, hcalls]

end Iterator
end MarkupPath
