import MarkupPath.Edit.Additions

/-!
# How edits end

`Editing.Ends editing forest good bad` says what holds when an edit of a forest has come to its end,
through whatever access: `good` of its value and the forest that it left if it succeeded, and `bad` of
the error and the forest if it failed. There's one rule for each way to combine edits and one for
each operation, so that a statement about an edit follows its text.
-/

namespace MarkupPath.Editing

variable {α β : Type} {forest : Forest} {good : α → Forest → Prop} {bad : Error → Forest → Prop}

/-- What holds when an edit ends, through whatever access. -/
def Ends (editing : Editing α) (forest : Forest) (good : α → Forest → Prop)
    (bad : Error → Forest → Prop) : Prop :=
  ∀ access : Access, match editing.run ⟨forest, access⟩ with
    | (.ok a, after) => good a after.forest
    | (.error error, after) => bad error after.forest

namespace Ends

/-! ## Combined edits -/

theorem bind_apply (computation : StateM Workspace α) (f : α → StateM Workspace β)
    (workspace : Workspace) :
    (computation >>= f) workspace =
      f (computation workspace).1 (computation workspace).2 := rfl

theorem run_bind (editing : Editing α) (f : α → Editing β) (workspace : Workspace) :
    (editing >>= f).run workspace =
      match editing.run workspace with
      | (.ok a, between) => (f a).run between
      | (.error error, after) => (.error error, after) := by
  rw [ExceptT.run_bind, bind_apply]
  cases editing.run workspace with
  | mk outcome between => cases outcome <;> rfl

theorem of_pure (a : α) (h : good a forest) : Ends (pure a) forest good bad := fun _ => h

theorem of_throw (error : Error) (h : bad error forest) : Ends (throw error) forest good bad :=
  fun _ => h

theorem bind {editing : Editing β} {f : β → Editing α}
    (h : editing.Ends forest (fun b between => (f b).Ends between good bad) bad) :
    (editing >>= f).Ends forest good bad := by
  intro access
  have := h access
  rw [run_bind]
  revert this
  cases editing.run ⟨forest, access⟩ with
  | mk outcome between =>
    cases outcome with
    | error error => exact fun h => h
    | ok b => exact fun h => h between.access

theorem imp {editing : Editing α} {better : α → Forest → Prop} {worse : Error → Forest → Prop}
    (h : editing.Ends forest good bad) (hg : ∀ a after, good a after → better a after)
    (hb : ∀ error after, bad error after → worse error after) :
    editing.Ends forest better worse := by
  intro access
  have := h access
  revert this
  cases editing.run ⟨forest, access⟩ with
  | mk outcome after =>
    cases outcome with
    | error error => exact hb error after.forest
    | ok a => exact hg a after.forest

theorem and {editing : Editing α} {further : α → Forest → Prop} {worse : Error → Forest → Prop}
    (h : editing.Ends forest good bad) (hf : editing.Ends forest further worse) :
    editing.Ends forest (fun a after => good a after ∧ further a after)
      fun error after => bad error after ∧ worse error after := by
  intro access
  have hg := h access
  have hf := hf access
  revert hg hf
  cases editing.run ⟨forest, access⟩ with
  | mk outcome after => cases outcome <;> exact fun hg hf => ⟨hg, hf⟩

/-- What a run that succeeds ends with. -/
theorem exists_of_isOk {editing : Editing α} {before : Workspace}
    (h : (editing.run before).1.isOk = true) :
    ∃ a after, editing.run before = (.ok a, after) := by
  cases hr : editing.run before with
  | mk outcome after =>
    rw [hr] at h
    cases outcome with
    | error error => cases h
    | ok a => exact ⟨a, after, rfl⟩

theorem of_tryCatch {editing : Editing α} {handler : Error → Editing α}
    (h : editing.Ends forest good fun error between => (handler error).Ends between good bad) :
    (tryCatch editing handler).Ends forest good bad := by
  intro access
  have := h access
  have hrun : (tryCatch editing handler).run ⟨forest, access⟩ =
      match editing.run ⟨forest, access⟩ with
      | (.ok a, after) => (.ok a, after)
      | (.error error, between) => (handler error).run between := by
    rw [ExceptT.run_tryCatch, bind_apply]
    cases editing.run ⟨forest, access⟩ with
    | mk outcome between => cases outcome <;> rfl
  rw [hrun]
  revert this
  cases editing.run ⟨forest, access⟩ with
  | mk outcome between =>
    cases outcome with
    | error error => exact fun h => h between.access
    | ok a => exact fun h => h

/-- What holds when a run has succeeded. -/
theorem good_of_run {editing : Editing α} {before after : Workspace} {a : α}
    (h : editing.Ends before.forest good bad) (hr : editing.run before = (.ok a, after)) :
    good a after.forest := by
  have he := h before.access
  rwa [show (⟨before.forest, before.access⟩ : Workspace) = before from rfl, hr] at he

/-- What holds when a run has failed. -/
theorem bad_of_run {editing : Editing α} {before after : Workspace} {error : Error}
    (h : editing.Ends before.forest good bad) (hr : editing.run before = (.error error, after)) :
    bad error after.forest := by
  have he := h before.access
  rwa [show (⟨before.forest, before.access⟩ : Workspace) = before from rfl, hr] at he

/-- What holds of the forest that a run leaves, whether it succeeds or fails. -/
theorem forest_run {editing : Editing α} {holds : Forest → Prop}
    (h : editing.Ends forest (fun _ => holds) fun _ => holds) (access : Access) :
    holds (editing.run ⟨forest, access⟩).2.forest := by
  have hends := h access
  revert hends
  cases editing.run ⟨forest, access⟩ with
  | mk outcome after => cases outcome <;> exact fun h => h

/-! ## Operations -/

theorem of_forest {good : Forest → Forest → Prop} (h : good forest forest) :
    Editing.forest.Ends forest good bad := fun _ => h

theorem of_record {good : Unit → Forest → Prop} (operation : Operation) (node : NodeId)
    (h : good () forest) : (record operation node).Ends forest good bad := fun _ => h

theorem of_setForest {good : Unit → Forest → Prop} {after : Forest} (h : good () after) :
    (setForest after).Ends forest good bad := fun _ => h

theorem of_read {reading : Reading α} (hg : ∀ a, reading.outcome = .ok a → good a forest)
    (hb : ∀ error, reading.outcome = .error error → bad error forest) :
    (read reading).Ends forest good bad := by
  refine bind (fun _ => ?_)
  change Ends _ forest good bad
  split
  · rename_i a ho
    exact of_pure a (hg a ho)
  · rename_i error ho
    exact of_throw error (hb error ho)

theorem of_readAt {node : NodeId} {absent : α} {reading : Position → Reading α}
    (hn : forest.position? node = none → good absent forest)
    (hg : ∀ position a, forest.position? node = some position →
      (reading position).outcome = .ok a → good a forest)
    (hb : ∀ position error, forest.position? node = some position →
      (reading position).outcome = .error error → bad error forest) :
    (readAt node absent reading).Ends forest good bad := by
  refine bind (of_forest ?_)
  split
  · rename_i hp
    exact of_pure _ (hn hp)
  · rename_i position hp
    exact of_read (fun a => hg position a hp) fun error => hb position error hp

/-- The origin at a node is where the node stands, with the root of its tree or without it. -/
theorem of_origin? {node : NodeId} {good : Option Origin → Forest → Prop}
    (h : ∀ root, root = none ∨ root = (forest.rootOf? node).bind forest.position? →
      good ((forest.position? node).map fun position => ⟨position, root⟩) forest) :
    (origin? node).Ends forest good bad := by
  intro access
  apply h _
  cases access.restraint with
  | hidesRoots => exact .inl rfl
  | unrestrained => exact .inr rfl
  | refusesInsertion number => exact .inr rfl

theorem of_createNode {context : NodeId} {name : String} {good : NodeId → Forest → Prop}
    (hg : ∀ node after, forest.create context name = .ok (node, after) → good node after)
    (hb : ∀ failure, bad (.creation failure) forest) :
    (createNode context name).Ends forest good bad := by
  refine bind (of_record _ _ (bind (of_forest ?_)))
  split
  · exact of_throw _ (hb _)
  · rename_i node after hc
    exact bind (of_setForest (of_pure _ (hg node after hc)))

theorem of_insert {operation : Operation} {parent : NodeId} {change : Forest → Option Forest}
    {good : Bool → Forest → Prop} (hg : ∀ after, change forest = some after → good true after)
    (hb : good false forest) : (insert operation parent change).Ends forest good bad := by
  refine bind (fun access => ?_)
  change Ends _ forest good bad
  split
  · exact of_pure _ hb
  · refine bind (of_record _ _ (bind (of_forest ?_)))
    split
    · exact of_pure _ hb
    · rename_i after hc
      exact bind (of_setForest (of_pure _ (hg after hc)))

theorem of_deleteNode {node : NodeId} {good : Unit → Forest → Prop}
    (h : good () (forest.delete node)) : (deleteNode node).Ends forest good bad :=
  bind (of_record _ _ (bind (of_forest (of_setForest h))))

theorem of_setAttribute {node : NodeId} {name value : String} {good : Unit → Forest → Prop}
    (hg : ∀ after, forest.setAttribute node name value = .ok after → good () after)
    (hb : ∀ failure, bad (.creation failure) forest) :
    (setAttribute node name value).Ends forest good bad := by
  refine bind (of_record _ _ (bind (of_forest ?_)))
  split
  · exact of_throw _ (hb _)
  · rename_i after hs
    exact of_setForest (hg after hs)

theorem of_setText {node : NodeId} {text : String} {good : Unit → Forest → Prop}
    (hg : (forest.setText node text).1 = .ok () → good () (forest.setText node text).2)
    (hb : ∀ failure, bad (.creation failure) (forest.setText node text).2) :
    (setText node text).Ends forest good bad := by
  refine bind (of_record _ _ (bind (of_forest (bind (of_setForest ?_)))))
  split
  · exact of_throw _ (hb _)
  · rename_i ho
    exact of_pure _ (hg ho)

/-- An action on a node that is taken out of its tree if the action fails. -/
theorem of_undoing {node : NodeId} {action : Editing α}
    (h : action.Ends forest good fun error between => bad error (between.delete node)) :
    (undoing node action).Ends forest good bad :=
  of_tryCatch (h.imp (fun _ _ h => h) fun error _ h => bind (of_deleteNode (of_throw error h)))

end Ends
end MarkupPath.Editing
