import MarkupPath.Proofs.Editing.Ends

/-!
# Runs of edits

What an edit answers and leaves, exactly, including the record of the calls that it made: equations
for the ways to combine edits and for edits that read. `Editing.Makes` says of which operations an
edit makes calls, whatever comes of them; there's one rule for each way to combine edits and for
each operation.
-/

namespace MarkupPath

/-- A workspace after further calls. -/
def Workspace.record (workspace : Workspace) (calls : List Call) : Workspace :=
  { workspace with access := workspace.access.record calls }

@[simp] theorem Workspace.record_nil (workspace : Workspace) : workspace.record [] = workspace := by
  rw [record, Access.record, List.append_nil]

namespace Editing

variable {α β : Type} {operations : List Operation}

/-! ## Equations -/

theorem run_tryCatch (editing : Editing α) (handler : Error → Editing α) (workspace : Workspace) :
    (tryCatch editing handler).run workspace =
      match editing.run workspace with
      | (.ok a, after) => (.ok a, after)
      | (.error error, between) => (handler error).run between := by
  rw [ExceptT.run_tryCatch, Ends.bind_apply]
  cases editing.run workspace with
  | mk outcome between => cases outcome <;> rfl

theorem run_read (reading : Reading α) (workspace : Workspace) :
    (read reading).run workspace = (reading.outcome, workspace.record reading.calls) := by
  rw [read, Ends.run_bind]
  cases h : reading.outcome <;> rfl

theorem run_readAt (node : NodeId) (absent : α) (reading : Position → Reading α)
    (workspace : Workspace) :
    (readAt node absent reading).run workspace =
      match workspace.forest.position? node with
      | none => (.ok absent, workspace)
      | some position =>
        ((reading position).outcome, workspace.record (reading position).calls) := by
  have hforest : Editing.forest.run workspace = (.ok workspace.forest, workspace) := rfl
  rw [readAt, Ends.run_bind, hforest]
  dsimp only
  cases workspace.forest.position? node with
  | none => rfl
  | some position => exact run_read (reading position) workspace

/-- A workspace after a node was taken out of its tree. -/
def undo (node : NodeId) (workspace : Workspace) : Workspace :=
  { workspace.record [⟨.deleteNode, node⟩] with forest := workspace.forest.delete node }

theorem run_undoing (node : NodeId) (action : Editing α) (workspace : Workspace) :
    (undoing node action).run workspace =
      match action.run workspace with
      | (.ok a, after) => (.ok a, after)
      | (.error error, failed) => (.error error, undo node failed) := by
  rw [undoing, run_tryCatch]
  cases action.run workspace with
  | mk outcome after => cases outcome <;> rfl

/-! ## Calls -/

/-- The calls that an edit makes are all of the given operations. -/
def Makes (editing : Editing α) (operations : List Operation) : Prop :=
  ∀ before : Workspace, ∃ calls,
    (editing.run before).2.access.calls = before.access.calls ++ calls ∧
      ∀ call ∈ calls, call.operation ∈ operations

namespace Makes

/-- Of what makes no calls. -/
theorem of_quiet {editing : Editing α}
    (h : ∀ before, (editing.run before).2.access.calls = before.access.calls) :
    editing.Makes operations := fun before =>
  ⟨[], (h before).trans (List.append_nil _).symm, List.forall_mem_nil _⟩

theorem of_pure (a : α) : (pure a : Editing α).Makes operations := .of_quiet fun _ => rfl

theorem of_throw (error : Error) : (throw error : Editing α).Makes operations :=
  .of_quiet fun _ => rfl

theorem bind {editing : Editing β} {f : β → Editing α} (h : editing.Makes operations)
    (hf : ∀ b, (f b).Makes operations) : (editing >>= f).Makes operations := by
  intro before
  obtain ⟨calls, hc, hm⟩ := h before
  rw [Ends.run_bind]
  cases hr : editing.run before with
  | mk outcome between =>
    rw [hr] at hc
    cases outcome with
    | error error => exact ⟨calls, hc, hm⟩
    | ok b =>
      obtain ⟨more, hmore, hn⟩ := hf b between
      refine ⟨calls ++ more, ?_, List.forall_mem_append.mpr ⟨hm, hn⟩⟩
      rw [← List.append_assoc, ← hc]
      exact hmore

theorem of_forest : Editing.forest.Makes operations := .of_quiet fun _ => rfl

theorem of_setForest (forest : Forest) : (setForest forest).Makes operations :=
  .of_quiet fun _ => rfl

theorem of_record {operation : Operation} (node : NodeId) (h : operation ∈ operations) :
    (record operation node).Makes operations := fun _ =>
  ⟨[⟨operation, node⟩], rfl, List.forall_mem_singleton.mpr h⟩

theorem of_read {reading : Reading α} (h : ∀ call ∈ reading.calls, call.operation ∈ operations) :
    (read reading).Makes operations := fun before =>
  ⟨reading.calls, by rw [run_read]; rfl, h⟩

theorem of_readAt {node : NodeId} {absent : α} {reading : Position → Reading α}
    (h : ∀ position, ∀ call ∈ (reading position).calls, call.operation ∈ operations) :
    (readAt node absent reading).Makes operations := by
  refine .bind .of_forest fun forest => ?_
  cases forest.position? node with
  | none => exact .of_pure _
  | some position => exact .of_read (h position)

theorem of_createNode (context : NodeId) (name : String) (h : .createNode ∈ operations) :
    (createNode context name).Makes operations := by
  refine .bind (.of_record context h) fun _ => .bind .of_forest fun forest => ?_
  cases forest.create context name with
  | error failure => exact .of_throw _
  | ok made => exact .bind (.of_setForest _) fun _ => .of_pure _

theorem of_insert {operation : Operation} (parent : NodeId) (change : Forest → Option Forest)
    (h : operation ∈ operations) : (insert operation parent change).Makes operations := by
  refine .bind (.of_quiet fun _ => rfl) fun isRefused => ?_
  cases isRefused with
  | true => exact .of_pure _
  | false =>
    refine .bind (.of_record parent h) fun _ => .bind .of_forest fun forest => ?_
    cases change forest with
    | none => exact .of_pure _
    | some after => exact .bind (.of_setForest _) fun _ => .of_pure _

theorem of_setAttribute (node : NodeId) (name value : String) (h : .setAttribute ∈ operations) :
    (setAttribute node name value).Makes operations := by
  refine .bind (.of_record node h) fun _ => .bind .of_forest fun forest => ?_
  cases forest.setAttribute node name value with
  | error failure => exact .of_throw _
  | ok after => exact .of_setForest _

theorem of_setText (node : NodeId) (text : String) (h : .setText ∈ operations) :
    (setText node text).Makes operations := by
  refine .bind (.of_record node h) fun _ => .bind .of_forest fun forest =>
    .bind (.of_setForest _) fun _ => ?_
  split
  · exact .of_throw _
  · exact .of_pure _

end Makes
end Editing
end MarkupPath
