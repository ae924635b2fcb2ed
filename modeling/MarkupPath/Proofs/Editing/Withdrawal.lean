import MarkupPath.Proofs.Editing.Tasks
import MarkupPath.Proofs.Search.Accounting
import MarkupPath.Proofs.Search.Descent

/-!
# Branches that are withdrawn

All that can be told in advance is found out before anything is done: whether the path is compiled,
has an anchor, and describes a node with each of its steps behind that. Then the tasks of the branch
are performed, and if one of them is refused, the nodes that were created are taken out again, each
one once and the last one first (`Withdrawal`). Main statement: `Editing.append_prepend_decided`.
-/

namespace MarkupPath

/-! ## Paths -/

theorem Step.isMaterializable_iff {step : Step} :
    step.isMaterializable = true ↔ step.IsNamedChild := by
  simp [isMaterializable, IsNamedChild]

/-- Steps lead to named children, or there's a first one that doesn't. -/
theorem namedChildren_or_exists (steps : List Step) :
    (∀ step ∈ steps, step.IsNamedChild) ∨ ∃ front step rest, steps = front ++ step :: rest ∧
      (∀ earlier ∈ front, earlier.IsNamedChild) ∧ ¬step.IsNamedChild := by
  cases hf : steps.find? (!·.isMaterializable) with
  | none =>
    refine .inl fun step hm => Step.isMaterializable_iff.mp ?_
    simpa using List.find?_eq_none.mp hf step hm
  | some step =>
    obtain ⟨hn, front, rest, hsteps, hfront⟩ := List.find?_eq_some_iff_append.mp hf
    refine .inr ⟨front, step, rest, hsteps, fun earlier hm => ?_, fun hnamed => ?_⟩
    · exact Step.isMaterializable_iff.mp (by simpa using hfront earlier hm)
    · simp [Step.isMaterializable_iff.mpr hnamed] at hn

/-- A path describes nodes to be added at an anchor, one with each step. -/
structure Path.Describes (path : Path) (anchor : Position) (steps : List Step) : Prop where
  /-- that is where the path starts -/
  anchor_eq : path.anchor = some anchor
  /-- the steps are those behind the anchor -/
  steps_eq : path.steps.drop 1 = steps
  /-- there's at least one -/
  steps_ne : steps ≠ []
  /-- they all lead to named children -/
  named : ∀ step ∈ steps, step.IsNamedChild

/-- To test a node looks up attributes only. -/
theorem Step.operation_of_accepts (step : Step) (position : Position) :
    ∀ call ∈ (step.accepts position).calls, call.operation ∈ [Operation.rootOf, .attr] := by
  intro call hm
  have ha := List.filter_eq_nil_iff.mp (step.travel_accepts position) call hm
  rw [show call.operation = .attr by simpa using ha]
  decide

theorem Position.operation_of_tellName (position : Position) :
    ∀ call ∈ position.tellName.calls, call.operation ∈ [Operation.rootOf, .attr] := by
  rw [tellName]
  split
  · exact List.forall_mem_nil _
  · exact List.forall_mem_nil _

/-- The anchor of an absolute path is the root, and attributes of it are looked up. -/
theorem Origin.operation_of_anchor (origin : Origin) (first : Step) :
    ∀ call ∈ (origin.anchor first).calls, call.operation ∈ [Operation.rootOf, .attr] := by
  refine Reading.forall_mem_calls_bind (by simp [Reading.call]) fun root => ?_
  cases root with
  | none => exact List.forall_mem_nil _
  | some root =>
    dsimp only
    split
    · exact List.forall_mem_nil _
    · refine Reading.forall_mem_calls_bind root.operation_of_tellName fun name => ?_
      split
      · exact List.forall_mem_nil _
      · refine Reading.forall_mem_calls_bind (first.operation_of_accepts root) fun verdict => ?_
        cases verdict with
        | true => exact List.forall_mem_nil _
        | false => exact List.forall_mem_nil _

/-- To compile a path nothing else is asked for. -/
theorem Path.operation_of_compile (origin : Option Origin) (expression : String)
    (mode : EmptyPath) :
    ∀ call ∈ (compile origin expression mode).calls,
      call.operation ∈ [Operation.rootOf, .attr] := by
  cases origin with
  | none => exact List.forall_mem_nil _
  | some origin =>
    refine Reading.forall_mem_calls_bind origin.position.operation_of_tellName fun name => ?_
    split
    · cases mode with
      | self => exact List.forall_mem_nil _
      | children => exact List.forall_mem_nil _
    · cases compileSteps expression with
      | error malformed => exact List.forall_mem_nil _
      | ok steps =>
        dsimp only
        split
        · cases steps with
          | nil => exact List.forall_mem_nil _
          | cons first rest =>
            exact Reading.forall_mem_calls_bind (origin.operation_of_anchor first) fun anchor =>
              List.forall_mem_nil _
        · exact List.forall_mem_nil _

/-! ## Tasks -/

/-- What a task is refused with. -/
def Task.IsRefusedWith : Task → Error → Prop
  | .insert _ _ name, error => error = .insertion (.refused name)
  | _, error => ∃ failure, error = .creation failure

theorem Task.IsRefusedWith.creation_or_refused {task : Task} {error : Error}
    (h : task.IsRefusedWith error) :
    (∃ failure, error = .creation failure) ∨ ∃ name, error = .insertion (.refused name) := by
  cases task with
  | insert parent node name => exact .inr ⟨name, h⟩
  | create context name => exact .inl h
  | setAttribute node name value => exact .inl h
  | setText node text => exact .inl h

namespace Editing

open Forest

/-- The operations by which a branch is built. -/
def buildingOperations : List Operation :=
  [.createNode, .lastChild, .insertFirstChild, .insertAfter, .setAttribute, .setText]

/-- What there is of a branch when one of its tasks was refused, and how it's withdrawn. -/
structure Withdrawal (side : Side) (tasks : List Task) (before : Workspace) (error : Error)
    (after : Workspace) where
  /-- what was done -/
  done : List Task
  /-- what was refused -/
  refused : Task
  /-- what nobody came to any more -/
  rest : List Task
  /-- the nodes that were created, in their order -/
  created : List NodeId
  /-- what was there before the refusal -/
  between : Workspace
  /-- what was there after it -/
  failed : Workspace
  /-- the calls that were made by then -/
  calls : List Call
  /-- these are all the tasks, one after the other -/
  tasks_eq : tasks = done ++ refused :: rest
  /-- those in front are all performed -/
  performed : (performAll side done).run before = (.ok created, between)
  /-- the next one isn't -/
  stopped : (perform side refused).run between = (.error error, failed)
  /-- for a reason that fits it -/
  isRefused : refused.IsRefusedWith error
  /-- the nodes are new, and different from each other -/
  isNew : created.map NodeId.index = List.range' before.forest.next created.length
  /-- no other calls were made by then -/
  calls_failed : failed.access.calls = before.access.calls ++ calls
  /-- they were made to build the branch -/
  isBuilding : ∀ call ∈ calls, call.operation ∈ buildingOperations
  /-- the nodes are taken out again -/
  withdrawn : after = created.foldr undo failed
  /-- by one call for each of them, the last one first -/
  calls_after : after.access.calls =
    failed.access.calls ++ created.reverse.map fun node => ⟨.deleteNode, node⟩

/-- How adding a branch ends, given what its expression was compiled to and what was there then. -/
inductive BranchEnds (side : Side) (expression : String) (content : NodeContent)
    (before : Workspace) : Except Error Path → Except Error NodeId × Workspace → Prop where
  /-- the expression isn't compiled -/
  | uncompiled (error : Error) :
      BranchEnds side expression content before (.error error) (.error error, before)
  /-- there's nothing to add it to -/
  | unanchored {path : Path} (ha : path.anchor = none) :
      BranchEnds side expression content before (.ok path) (.error .absentAnchor, before)
  /-- no step comes behind the anchor -/
  | empty {path : Path} {anchor : Position} (ha : path.anchor = some anchor)
      (hs : path.steps.drop 1 = []) :
      BranchEnds side expression content before (.ok path)
        (.error (.insertion .nothingToAdd), before)
  /-- a step behind it leads elsewhere than to named children, and those in front of it don't -/
  | unmaterializable {path : Path} {anchor : Position} {front rest : List Step} {step : Step}
      (ha : path.anchor = some anchor) (hs : path.steps.drop 1 = front ++ step :: rest)
      (hf : ∀ earlier ∈ front, earlier.IsNamedChild) (hn : ¬step.IsNamedChild) :
      BranchEnds side expression content before (.ok path)
        (.error (.insertion (.notMaterializable step)), before)
  /-- all tasks are performed -/
  | added {path : Path} {anchor : Position} {steps : List Step} {created : List NodeId}
      {node : NodeId} {after : Workspace} (hd : path.Describes anchor steps)
      (hp : (performAll side (branchTasks content before.forest.next anchor.id steps)).run before =
        (.ok created, after))
      (hc : created.map NodeId.index = List.range' before.forest.next steps.length)
      (hl : created.getLast? = some node) :
      BranchEnds side expression content before (.ok path) (.ok node, after)
  /-- a node isn't created or not given an attribute or the text -/
  | uncreated {path : Path} {anchor : Position} {steps : List Step} {failure : CreationFailure}
      {after : Workspace} (hd : path.Describes anchor steps)
      (w : Withdrawal side (branchTasks content before.forest.next anchor.id steps) before
        (.creation failure) after) :
      BranchEnds side expression content before (.ok path)
        (.error (.insertion (.branch expression failure)), after)
  /-- a node isn't inserted -/
  | uninserted {path : Path} {anchor : Position} {steps : List Step} {name : String}
      {after : Workspace} (hd : path.Describes anchor steps)
      (w : Withdrawal side (branchTasks content before.forest.next anchor.id steps) before
        (.insertion (.refused name)) after) :
      BranchEnds side expression content before (.ok path)
        (.error (.insertion (.refused name)), after)

variable {side : Side} {tasks : List Task} {before after : Workspace}
  {content : NodeContent} {expression : String} {mode : EmptyPath}

/-! ## What tasks do -/

/-- The nodes that a task creates are the next new ones, and it's refused for a reason that fits. -/
theorem perform_ends (side : Side) (task : Task) (forest : Forest) :
    (perform side task).Ends forest
      (fun created after => created.map NodeId.index = List.range' forest.next created.length ∧
        after.next = forest.next + created.length)
      fun error _ => task.IsRefusedWith error := by
  cases task with
  | create context name =>
    refine .bind ((createNode_ends context name forest).imp ?_ fun _ _ h => h)
    rintro node after ⟨rfl, hn⟩
    exact .of_pure _ ⟨rfl, hn⟩
  | insert parent node name =>
    refine .bind ((insertAt_settles side parent node).imp (fun inserted after hn => ?_)
      fun _ _ h => h.elim)
    cases inserted with
    | true => exact .of_pure _ ⟨rfl, hn⟩
    | false => exact .of_throw _ rfl
  | setAttribute node name value =>
    exact .bind (.of_setAttribute (fun after h => .of_pure _ ⟨rfl, next_setAttribute h⟩)
      fun failure => ⟨failure, rfl⟩)
  | setText node text =>
    exact .bind (.of_setText (fun _ => .of_pure _ ⟨rfl, next_setText ..⟩)
      fun failure => ⟨failure, rfl⟩)

theorem performAll_ends (side : Side) (tasks : List Task) (forest : Forest) :
    (performAll side tasks).Ends forest
      (fun created after => created.map NodeId.index = List.range' forest.next created.length ∧
        after.next = forest.next + created.length)
      fun _ _ => True := by
  induction tasks generalizing forest with
  | nil => exact .of_pure _ ⟨rfl, rfl⟩
  | cons task tasks ih =>
    refine .bind ((perform_ends side task forest).imp ?_ fun _ _ _ => trivial)
    rintro created between ⟨hc, hn⟩
    refine .bind ((ih between).imp ?_ fun _ _ _ => trivial)
    rintro further after ⟨hf, ha⟩
    rw [hn] at hf ha
    refine .of_pure _ ⟨?_, ?_⟩
    · rw [List.map_append, hc, hf, List.range'_append_1, List.length_append]
    · rw [ha, List.length_append, Nat.add_assoc]

theorem insertAt_makes (side : Side) (parent node : NodeId) :
    (insertAt side parent node).Makes buildingOperations := by
  have hfirst : (insertFirstChild parent node).Makes buildingOperations :=
    .of_insert _ _ (by decide)
  cases side with
  | front => exact hfirst
  | back =>
    refine .bind (.of_readAt fun position => ?_) fun last => ?_
    · have hcall : ∀ call ∈ position.lastChild.calls, call.operation ∈ buildingOperations := by
        simp [Position.lastChild, Reading.call, buildingOperations]
      exact Reading.forall_mem_calls_bind hcall fun _ => List.forall_mem_nil _
    · cases last with
      | none => exact hfirst
      | some last => exact .of_insert _ _ (by decide)

theorem perform_makes (side : Side) (task : Task) :
    (perform side task).Makes buildingOperations := by
  cases task with
  | create context name => exact .bind (.of_createNode _ _ (by decide)) fun _ => .of_pure _
  | insert parent node name =>
    refine .bind (insertAt_makes side parent node) fun inserted => ?_
    cases inserted with
    | true => exact .of_pure _
    | false => exact .of_throw _
  | setAttribute node name value =>
    exact .bind (.of_setAttribute _ _ _ (by decide)) fun _ => .of_pure _
  | setText node text => exact .bind (.of_setText _ _ (by decide)) fun _ => .of_pure _

theorem performAll_makes (side : Side) (tasks : List Task) :
    (performAll side tasks).Makes buildingOperations := by
  induction tasks with
  | nil => exact .of_pure _
  | cons task tasks ih =>
    exact .bind (perform_makes side task) fun _ => .bind ih fun _ => .of_pure _

theorem calls_foldr_undo (created : List NodeId) (failed : Workspace) :
    (created.foldr undo failed).access.calls =
      failed.access.calls ++ created.reverse.map fun node => ⟨.deleteNode, node⟩ := by
  induction created with
  | nil => simp
  | cons node created ih =>
    rw [List.reverse_cons, List.map_append, ← List.append_assoc, ← ih]
    rfl

/-- If a task is refused there's a withdrawal. -/
theorem nonempty_withdrawal {error : Error} (h : (attempt side tasks before).error = some error) :
    Nonempty (Withdrawal side tasks before error
      ((attempt side tasks before).created.foldr undo (attempt side tasks before).workspace)) := by
  obtain ⟨done, refused, rest, between, htasks, hdone, hrefused⟩ := exists_refused h
  obtain ⟨calls, hcalls, hm⟩ := performAll_makes side done before
  obtain ⟨more, hmore, hn⟩ := perform_makes side refused between
  rw [hdone] at hcalls
  rw [hrefused] at hmore
  exact ⟨{
    done, refused, rest, between
    created := (attempt side tasks before).created
    failed := (attempt side tasks before).workspace
    calls := calls ++ more
    tasks_eq := htasks
    performed := hdone
    stopped := hrefused
    isRefused := Ends.bad_of_run (perform_ends side refused _) hrefused
    isNew := (Ends.good_of_run (performAll_ends side done _) hdone).1
    calls_failed := by rw [hmore, hcalls, List.append_assoc]
    isBuilding := List.forall_mem_append.mpr ⟨hm, hn⟩
    withdrawn := rfl
    calls_after := calls_foldr_undo .. }⟩

/-- A branch that is withdrawn comes to the error of the task that was refused. -/
theorem Withdrawal.branch_attempt {error : Error} (w : Withdrawal side tasks before error after)
    (anchor : NodeId) : (attempt side tasks before).branch anchor = (.error error, after) := by
  have h := attempt_of_refused w.rest w.performed w.stopped
  rw [← w.tasks_eq] at h
  rw [h]
  exact congrArg (Prod.mk _) w.withdrawn.symm

/-! ## How additions end -/

/-- If no task is refused, one node is created with each step. -/
theorem length_created {anchor : NodeId} {steps : List Step} {created : List NodeId}
    (h : attempt side (branchTasks content before.forest.next anchor steps) before =
      ⟨created, none, after⟩) : created.length = steps.length := by
  have hgrow := run_grow side content anchor steps before
  have hperform := run_performAll side (branchTasks content before.forest.next anchor steps) before
  rw [h] at hgrow hperform
  have htakes := Ends.good_of_run (grow_takes side content anchor steps _) hgrow
  have hnew := (Ends.good_of_run (performAll_ends side _ _) hperform).2
  exact Nat.add_left_cancel (hnew.symm.trans htakes)

/-- Adding steps is to attempt the tasks of the branch if all steps lead to named children. -/
theorem run_addSteps {path : Path} {anchor : Position} {steps : List Step}
    (h : path.Describes anchor steps) (before : Workspace) :
    (addSteps side expression content anchor.id steps).run before =
      match (attempt side (branchTasks content before.forest.next anchor.id steps) before).branch
          anchor.id with
      | (.ok node, after) => (.ok node, after)
      | (.error error, after) => (.error (branchError expression error), after) := by
  have hfind : steps.find? (!·.isMaterializable) = none := by
    refine List.find?_eq_none.mpr fun step hm => ?_
    simp [Step.isMaterializable_iff.mpr (h.named step hm)]
  have hadd : addSteps side expression content anchor.id steps =
      tryCatch (grow side content anchor.id steps) fun error =>
        throw (branchError expression error) := by
    rw [addSteps, List.isEmpty_eq_false_iff.mpr h.steps_ne, hfind]
    rfl
  rw [hadd, run_tryCatch, run_grow]
  cases Attempt.branch anchor.id _ with
  | mk outcome after => cases outcome <;> rfl

/-- The first step that doesn't lead to named children keeps all from being added. -/
theorem addSteps_of_unmaterializable {front rest : List Step} {step : Step}
    (hf : ∀ earlier ∈ front, earlier.IsNamedChild) (hn : ¬step.IsNamedChild) (anchor : NodeId) :
    addSteps side expression content anchor (front ++ step :: rest) =
      throw (.insertion (.notMaterializable step)) := by
  have hfind : (front ++ step :: rest).find? (!·.isMaterializable) = some step := by
    refine List.find?_eq_some_iff_append.mpr ⟨?_, front, rest, rfl, fun earlier hm => ?_⟩
    · simpa using mt Step.isMaterializable_iff.mp hn
    · simp [Step.isMaterializable_iff.mpr (hf earlier hm)]
  rw [addSteps, List.isEmpty_eq_false_iff.mpr (by simp), hfind]
  rfl

/-- A branch is added or withdrawn if its path describes it. -/
theorem branchEnds_addSteps {path : Path} {anchor : Position} {steps : List Step}
    (h : path.Describes anchor steps) (before : Workspace) :
    BranchEnds side expression content before (.ok path)
      ((addSteps side expression content anchor.id steps).run before) := by
  rw [run_addSteps h]
  cases ha : attempt side (branchTasks content before.forest.next anchor.id steps) before with
  | mk created error after =>
    cases error with
    | none =>
      have hlength := length_created ha
      have hp := run_performAll side (branchTasks content before.forest.next anchor.id steps) before
      rw [ha] at hp
      have hc := (Ends.good_of_run (performAll_ends side _ _) hp).1
      rw [hlength] at hc
      have hne : created ≠ [] := fun he =>
        h.steps_ne (List.eq_nil_of_length_eq_zero (hlength ▸ congrArg List.length he))
      rw [Attempt.branch, List.getLast?_eq_some_getLast hne]
      exact .added h hp hc (List.getLast?_eq_some_getLast hne)
    | some error =>
      have he : (attempt side (branchTasks content before.forest.next anchor.id steps)
        before).error = some error := by rw [ha]
      obtain ⟨w⟩ := nonempty_withdrawal he
      rw [ha] at w
      rcases w.isRefused.creation_or_refused with ⟨failure, rfl⟩ | ⟨name, rfl⟩
      · exact .uncreated h w
      · exact .uninserted h w

/-- Adding a branch ends in one of these ways. -/
theorem branchEnds_addBranch {parent : Option NodeId} {outcome : Except Error Path}
    {between : Workspace}
    (h : (compilePath parent expression mode).run before = (outcome, between)) :
    BranchEnds side expression content between outcome
      ((addBranch side parent expression mode content).run before) := by
  rw [addBranch, Ends.run_bind, h]
  cases outcome with
  | error error => exact .uncompiled error
  | ok path =>
    dsimp only
    cases ha : path.anchor with
    | none => exact .unanchored ha
    | some anchor =>
      by_cases hs : path.steps.drop 1 = []
      · rw [hs]
        exact .empty ha hs
      · rcases namedChildren_or_exists (path.steps.drop 1) with
          hn | ⟨front, step, rest, hsteps, hf, hn⟩
        · exact branchEnds_addSteps ⟨ha, rfl, hs, hn⟩ between
        · dsimp only
          rw [hsteps, addSteps_of_unmaterializable hf hn]
          exact .unmaterializable ha hsteps hf hn

/-- Adding a branch that its path describes is to attempt the tasks. -/
theorem run_addBranch {parent : Option NodeId} {path : Path} {anchor : Position} {steps : List Step}
    {between : Workspace} (hd : path.Describes anchor steps)
    (hc : (compilePath parent expression mode).run before = (.ok path, between)) :
    (addBranch side parent expression mode content).run before =
      match (attempt side (branchTasks content between.forest.next anchor.id steps) between).branch
          anchor.id with
      | (.ok node, after) => (.ok node, after)
      | (.error error, after) => (.error (branchError expression error), after) := by
  rw [addBranch, Ends.run_bind, hc]
  dsimp only
  rw [hd.anchor_eq, hd.steps_eq]
  exact run_addSteps hd between

/-- It ends in the way whose conditions are met. -/
theorem BranchEnds.run_eq {parent : Option NodeId} {outcome : Except Error Path}
    {between : Workspace} {ending : Except Error NodeId × Workspace}
    (h : BranchEnds side expression content between outcome ending)
    (hc : (compilePath parent expression mode).run before = (outcome, between)) :
    (addBranch side parent expression mode content).run before = ending := by
  cases h with
  | uncompiled error =>
    rw [addBranch, Ends.run_bind, hc]
  | unanchored ha =>
    rw [addBranch, Ends.run_bind, hc]
    dsimp only
    rw [ha]
    rfl
  | empty ha hs =>
    rw [addBranch, Ends.run_bind, hc]
    dsimp only
    rw [ha, hs]
    rfl
  | unmaterializable ha hs hf hn =>
    rw [addBranch, Ends.run_bind, hc]
    dsimp only
    rw [ha, hs]
    dsimp only
    rw [addSteps_of_unmaterializable hf hn]
    rfl
  | added hd hp _ hl =>
    rw [run_addBranch hd hc, attempt_of_performed hp, Attempt.branch, hl]
    rfl
  | uncreated hd w =>
    rw [run_addBranch hd hc, w.branch_attempt]
    rfl
  | uninserted hd w =>
    rw [run_addBranch hd hc, w.branch_attempt]
    rfl

/-- To compile a path changes nothing but the record of calls. -/
theorem run_compilePath (node : Option NodeId) (expression : String) (mode : EmptyPath)
    (before : Workspace) :
    ∃ outcome reads, (compilePath node expression mode).run before =
        (outcome, before.record reads) ∧
      ∀ call ∈ reads, call.operation ∈ [Operation.rootOf, .attr] := by
  obtain ⟨origin, horigin⟩ : ∃ origin, (originOf node).run before = (.ok origin, before) := by
    cases node with
    | none => exact ⟨none, rfl⟩
    | some node => exact ⟨_, rfl⟩
  refine ⟨(Path.compile origin expression mode).outcome, _, ?_,
    Path.operation_of_compile origin expression mode⟩
  rw [compilePath, Ends.run_bind, horigin]
  exact run_read ..

/-- How appending and prepending a branch end: nothing is done but to compile the path, or the
branch is added, or all nodes of it are taken out again. -/
theorem append_prepend_decided (before : Workspace) (parent : Option NodeId) (expression : String)
    (mode : EmptyPath) (content : NodeContent) :
    ∃ outcome reads, (compilePath parent expression mode).run before =
        (outcome, before.record reads) ∧
      (∀ call ∈ reads, call.operation ∈ [Operation.rootOf, .attr]) ∧
      ∀ ending,
        ((append parent expression mode content).run before = ending ↔
          BranchEnds .back expression content (before.record reads) outcome ending) ∧
        ((prepend parent expression mode content).run before = ending ↔
          BranchEnds .front expression content (before.record reads) outcome ending) := by
  obtain ⟨outcome, reads, hrun, hreads⟩ := run_compilePath parent expression mode before
  refine ⟨outcome, reads, hrun, hreads, fun ending => ⟨⟨?_, fun h => h.run_eq hrun⟩, ?_,
    fun h => h.run_eq hrun⟩⟩
  · rintro rfl
    exact branchEnds_addBranch hrun
  · rintro rfl
    exact branchEnds_addBranch hrun

/-- The calls that take out the nodes if the last one of three isn't inserted. -/
example :
    (((append (some ⟨0⟩) "b[@k='v']/c/d" .self {}).run refusingWorkspace).2.access.calls.filter
      (·.operation == .deleteNode)).map Call.node = [⟨4⟩, ⟨3⟩, ⟨2⟩] := by
  decide +kernel

end Editing

open Editing in
theorem append_prepend_decided_refusingWorkspace :
    ∃ (path : Path) (anchor : Position) (steps : List Step) (reads : List Call)
      (after : Workspace), path.Describes anchor steps ∧
      (append (some ⟨0⟩) "b[@k='v']/c/d" .self {}).run refusingWorkspace =
        (.error (.insertion (.refused "d")), after) ∧
      Nonempty (Withdrawal .back (branchTasks {} 2 anchor.id steps) (refusingWorkspace.record reads)
        (.insertion (.refused "d")) after) := by
  have hf : ((append (some ⟨0⟩) "b[@k='v']/c/d" .self {}).run refusingWorkspace).1 =
      .error (.insertion (.refused "d")) := by decide +kernel
  obtain ⟨outcome, reads, hrun, -, hends⟩ :=
    append_prepend_decided refusingWorkspace (some ⟨0⟩) "b[@k='v']/c/d" .self {}
  have hcompiled : ((compilePath (some ⟨0⟩) "b[@k='v']/c/d" .self).run refusingWorkspace).1.isOk =
      true := by decide +kernel
  rw [hrun] at hcompiled
  cases hr : (append (some ⟨0⟩) "b[@k='v']/c/d" .self {}).run refusingWorkspace with
  | mk ending after =>
    rw [hr] at hf
    obtain rfl := hf
    have he := (hends _).1.mp hr
    cases he with
    | uncompiled error => cases hcompiled
    | uninserted hd w => exact ⟨_, _, _, reads, after, hd, rfl, ⟨w⟩⟩

end MarkupPath
