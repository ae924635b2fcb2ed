import MarkupPath.Proofs.Editing.Counting
import MarkupPath.Proofs.Editing.Runs

/-!
# What is done for a branch, one by one

Adding a branch is nested: each node is created around all that follows, so that a failure further
inside can take the node out again. Seen from outside it's a sequence of tasks (`branchTasks`), that
are performed up to the first one which is refused. Main statement: `Editing.run_grow`. If all
are performed the branch is there, and else the nodes that were created by then are taken out, the
last one first.
-/

namespace MarkupPath

/-- Something that is to be done for a branch. -/
inductive Task where
  /-- a node is created that is meant for another one to contain -/
  | create (context : NodeId) (name : String)
  /-- a node, created for the given name, is inserted at a side of the children of another one -/
  | insert (parent node : NodeId) (name : String)
  /-- an attribute is given a value -/
  | setAttribute (node : NodeId) (name value : String)
  /-- a node is given a text -/
  | setText (node : NodeId) (text : String)
deriving DecidableEq, Repr

/-- What is done to set attributes. -/
def attributeTasks (node : NodeId) (attributes : List (String × String)) : List Task :=
  attributes.map fun pair => .setAttribute node pair.1 pair.2

/-- What is done to give a node its content. -/
def contentTasks (node : NodeId) (content : NodeContent) : List Task :=
  attributeTasks node content.attributes ++
    if content.text.isEmpty then [] else [.setText node content.text]

/-- What is done for a branch, if the next new element gets the given number. -/
def branchTasks (content : NodeContent) (next : Nat) (parent : NodeId) : List Step → List Task
  | [] => contentTasks parent content
  | step :: steps =>
    .create parent step.name :: .insert parent ⟨next⟩ step.name ::
      (attributeTasks ⟨next⟩ step.attributes ++ branchTasks content (next + 1) ⟨next⟩ steps)

/-- How far one gets with tasks. -/
structure Attempt where
  /-- the nodes that were created, in their order -/
  created : List NodeId
  /-- why a task was refused, if one was -/
  error : Option Error
  /-- what is there then -/
  workspace : Workspace

/-- The nodes that were created, or why a task was refused. -/
def Attempt.outcome (attempt : Attempt) : Except Error (List NodeId) :=
  match attempt.error with
  | none => .ok attempt.created
  | some error => .error error

/-- What a branch below a node comes to after its tasks were attempted. -/
def Attempt.branch (parent : NodeId) (attempt : Attempt) : Except Error NodeId × Workspace :=
  match attempt.error with
  | none => (.ok (attempt.created.getLast?.getD parent), attempt.workspace)
  | some error => (.error error, attempt.created.foldr Editing.undo attempt.workspace)

/-- A node that was created in front of the others is the last one to be taken out. -/
theorem Attempt.branch_cons (parent node : NodeId) (attempt : Attempt) :
    Attempt.branch parent { attempt with created := node :: attempt.created } =
      match attempt.branch node with
      | (.ok last, after) => (.ok last, after)
      | (.error error, failed) => (.error error, Editing.undo node failed) := by
  obtain ⟨created, error, after⟩ := attempt
  cases error with
  | none => simp only [branch, List.getLast?_cons, Option.getD_some]
  | some error => rfl

namespace Editing

open Forest

/-- Performs a task and answers the nodes that it creates. -/
def perform (side : Side) : Task → Editing (List NodeId)
  | .create context name => return [← createNode context name]
  | .insert parent node name => do
    if ← insertAt side parent node then return [] else throw (.insertion (.refused name))
  | .setAttribute node name value => do
    setAttribute node name value
    return []
  | .setText node text => do
    setText node text
    return []

/-- Performs all tasks and answers the nodes that they create. -/
def performAll (side : Side) : List Task → Editing (List NodeId)
  | [] => return []
  | task :: tasks => do
    let created ← perform side task
    return created ++ (← performAll side tasks)

/-- Performs tasks up to the first one that is refused. -/
def attempt (side : Side) : List Task → Workspace → Attempt
  | [], before => ⟨[], none, before⟩
  | task :: tasks, before =>
    match (perform side task).run before with
    | (.error error, failed) => ⟨[], some error, failed⟩
    | (.ok created, between) =>
      let further := attempt side tasks between
      { further with created := created ++ further.created }

variable {side : Side} {tasks more : List Task} {before : Workspace} {content : NodeContent}

theorem attempt_cons_of_ok {task : Task} {created : List NodeId} {between : Workspace}
    (h : (perform side task).run before = (.ok created, between)) :
    attempt side (task :: tasks) before =
      { attempt side tasks between with
        created := created ++ (attempt side tasks between).created } := by
  rw [attempt, h]

theorem attempt_cons_of_error {task : Task} {error : Error} {failed : Workspace}
    (h : (perform side task).run before = (.error error, failed)) :
    attempt side (task :: tasks) before = ⟨[], some error, failed⟩ := by
  rw [attempt, h]

theorem run_perform_create (side : Side) (context : NodeId) (name : String)
    (before : Workspace) :
    (perform side (.create context name)).run before =
      match (createNode context name).run before with
      | (.ok node, between) => (.ok [node], between)
      | (.error error, failed) => (.error error, failed) := by
  rw [perform, Ends.run_bind]
  cases (createNode context name).run before with
  | mk outcome between => cases outcome <;> rfl

/-! ## Tasks and edits -/

/-- Performing tasks, none of which creates a node, is what an edit does. -/
def Carries (side : Side) (tasks : List Task) (editing : Editing Unit) : Prop :=
  ∀ (before : Workspace) (more : List Task), attempt side (tasks ++ more) before =
    match editing.run before with
    | (.ok (), between) => attempt side more between
    | (.error error, failed) => ⟨[], some error, failed⟩

namespace Carries

theorem nil : Carries side [] (pure ()) := fun _ _ => rfl

theorem single {task : Task} {editing : Editing Unit}
    (h : perform side task = editing >>= fun _ => pure []) : Carries side [task] editing := by
  intro before more
  rw [List.singleton_append, attempt, h, Ends.run_bind]
  cases editing.run before with
  | mk outcome between => cases outcome <;> rfl

theorem append {editing further : Editing Unit} (h : Carries side tasks editing)
    (hf : Carries side more further) :
    Carries side (tasks ++ more) (editing >>= fun _ => further) := by
  intro before others
  rw [List.append_assoc, h, Ends.run_bind]
  cases editing.run before with
  | mk outcome between =>
    cases outcome with
    | error error => rfl
    | ok _ => exact hf between others

theorem setAttributes (node : NodeId) (attributes : List (String × String)) :
    Carries side (attributeTasks node attributes) (setAttributes node attributes) := by
  induction attributes with
  | nil => exact nil
  | cons pair rest ih => exact append (single rfl) ih

theorem setContent (side : Side) (node : NodeId) (content : NodeContent) :
    Carries side (contentTasks node content) (setContent node content) := by
  refine append (setAttributes node content.attributes) ?_
  split
  · exact nil
  · exact single rfl

theorem insertFor (parent node : NodeId) (step : Step) :
    Carries side (.insert parent node step.name :: attributeTasks node step.attributes)
      (insertFor side parent node step) := by
  intro before more
  rw [List.cons_append, attempt, perform, Ends.run_bind, Editing.insertFor, Ends.run_bind]
  cases (insertAt side parent node).run before with
  | mk outcome between =>
    cases outcome with
    | error error => rfl
    | ok inserted =>
      cases inserted with
      | false => rfl
      | true => exact setAttributes node step.attributes between more

end Carries

/-- What is done once a node is inserted and has its attributes comes behind the tasks for that. -/
theorem run_insertFor_bind {parent node : NodeId} {step : Step} {further : Editing NodeId}
    (h : ∀ after : Workspace, after.forest.next = before.forest.next →
      further.run after = (attempt side more after).branch node) :
    (insertFor side parent node step >>= fun _ => further).run before =
      (attempt side (.insert parent node step.name ::
        (attributeTasks node step.attributes ++ more)) before).branch node := by
  rw [Ends.run_bind, ← List.cons_append, Carries.insertFor parent node step]
  cases hr : (insertFor side parent node step).run before with
  | mk outcome after =>
    cases outcome with
    | error error => rfl
    | ok _ => exact h after (Ends.good_of_run (insertFor_takes side parent node step _) hr)

/-- Growing a branch is to perform its tasks, and to take the nodes out again if one is refused. -/
theorem run_grow (side : Side) (content : NodeContent) (parent : NodeId) (steps : List Step)
    (before : Workspace) :
    (grow side content parent steps).run before =
      (attempt side (branchTasks content before.forest.next parent steps) before).branch
        parent := by
  induction steps generalizing parent before with
  | nil =>
    have hcontent := Carries.setContent side parent content before []
    rw [List.append_nil] at hcontent
    rw [grow, Ends.run_bind, branchTasks, hcontent]
    cases (setContent parent content).run before with
    | mk outcome after => cases outcome <;> rfl
  | cons step steps ih =>
    have hperform := run_perform_create side parent step.name before
    rw [grow, Ends.run_bind, branchTasks]
    cases hr : (createNode parent step.name).run before with
    | mk outcome between =>
      rw [hr] at hperform
      cases outcome with
      | error error =>
        rw [attempt_cons_of_error hperform]
        rfl
      | ok node =>
        obtain ⟨rfl, hnext⟩ := Ends.good_of_run (createNode_ends parent step.name _) hr
        rw [attempt_cons_of_ok hperform]
        generalize (⟨before.forest.next⟩ : NodeId) = node
        -- the number of the next node is known, whatever the insertion does to the forest
        have hfurther (after : Workspace) (ha : after.forest.next = between.forest.next) :
            (grow side content node steps).run after =
              (attempt side (branchTasks content (before.forest.next + 1) node steps)
                after).branch node := by
          rw [ih node after, ha, hnext]
        dsimp only
        rw [run_undoing, run_insertFor_bind hfurther, List.singleton_append, Attempt.branch_cons]
        cases Attempt.branch node _ with
        | mk outcome after => cases outcome <;> rfl

/-! ## Attempts -/

/-- To perform all tasks comes to what an attempt comes to. -/
theorem run_performAll (side : Side) (tasks : List Task) (before : Workspace) :
    (performAll side tasks).run before =
      ((attempt side tasks before).outcome, (attempt side tasks before).workspace) := by
  induction tasks generalizing before with
  | nil => rfl
  | cons task tasks ih =>
    rw [performAll, Ends.run_bind]
    cases hr : (perform side task).run before with
    | mk outcome between =>
      cases outcome with
      | error error =>
        rw [attempt_cons_of_error hr]
        rfl
      | ok created =>
        rw [attempt_cons_of_ok hr]
        dsimp only
        rw [Ends.run_bind, ih, Attempt.outcome, Attempt.outcome]
        cases (attempt side tasks between).error <;> rfl

theorem attempt_of_performed {created : List NodeId} {after : Workspace}
    (h : (performAll side tasks).run before = (.ok created, after)) :
    attempt side tasks before = ⟨created, none, after⟩ := by
  rw [run_performAll, Attempt.outcome] at h
  cases ha : attempt side tasks before with
  | mk nodes error workspace =>
    rw [ha] at h
    cases error with
    | none =>
      cases h
      rfl
    | some error => cases h

/-- After tasks that are all performed the others are attempted. -/
theorem attempt_append {created : List NodeId} {between : Workspace}
    (h : attempt side tasks before = ⟨created, none, between⟩) (more : List Task) :
    attempt side (tasks ++ more) before =
      { attempt side more between with
        created := created ++ (attempt side more between).created } := by
  induction tasks generalizing before created with
  | nil =>
    cases h
    rfl
  | cons task tasks ih =>
    cases hr : (perform side task).run before with
    | mk outcome next =>
      cases outcome with
      | error error =>
        rw [attempt_cons_of_error hr] at h
        cases h
      | ok nodes =>
        rw [attempt_cons_of_ok hr] at h
        rw [List.cons_append, attempt_cons_of_ok hr]
        cases hn : attempt side tasks next with
        | mk further error workspace =>
          rw [hn] at h
          cases h
          rw [ih hn, List.append_assoc]

/-- How far one gets if a task is refused behind others that are performed. -/
theorem attempt_of_refused {refused : Task} {created : List NodeId} {between failed : Workspace}
    {error : Error} (rest : List Task)
    (hp : (performAll side tasks).run before = (.ok created, between))
    (hr : (perform side refused).run between = (.error error, failed)) :
    attempt side (tasks ++ refused :: rest) before = ⟨created, some error, failed⟩ := by
  rw [attempt_append (attempt_of_performed hp), attempt_cons_of_error hr, List.append_nil]

/-- If a task is refused, all in front of it are performed. -/
theorem exists_refused {error : Error} (h : (attempt side tasks before).error = some error) :
    ∃ done refused rest between, tasks = done ++ refused :: rest ∧
      (performAll side done).run before = (.ok (attempt side tasks before).created, between) ∧
      (perform side refused).run between =
        (.error error, (attempt side tasks before).workspace) := by
  induction tasks generalizing before with
  | nil => cases h
  | cons task tasks ih =>
    cases hr : (perform side task).run before with
    | mk outcome between =>
      cases outcome with
      | error other =>
        rw [attempt_cons_of_error hr] at h ⊢
        cases h
        exact ⟨[], task, tasks, before, rfl, rfl, hr⟩
      | ok created =>
        rw [attempt_cons_of_ok hr] at h ⊢
        obtain ⟨done, refused, rest, last, rfl, hdone, hrefused⟩ := ih h
        refine ⟨task :: done, refused, rest, last, rfl, ?_, hrefused⟩
        rw [performAll, Ends.run_bind, hr]
        dsimp only
        rw [Ends.run_bind, hdone]
        rfl

end Editing
end MarkupPath
