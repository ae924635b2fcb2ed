import MarkupPath.Proofs.Editing.Rollback
import MarkupPath.Proofs.Forest.Reached

/-!
# Histories of forests

What happens to a forest in a program: documents are loaded, and it's edited through accesses, by
additions and by calls of single operations. Edits may fail, and what a failed one did is part of
the history, too. Main statement: whatever the history, it leads to a forest that loading and
operations lead to (`Forest.Visited.reached`), so that what holds of these holds at every moment.
-/

namespace MarkupPath

open Forest

/-- A call that may change a forest. -/
inductive Edit where
  /-- nodes are added along a path, or next to a node -/
  | add (addition : Addition) (mode : EmptyPath) (content : NodeContent)
  /-- a node is inserted in front of the children of another one -/
  | insertFirstChild (parent node : NodeId)
  /-- a node is inserted behind a child of another one -/
  | insertAfter (parent reference node : NodeId)
  /-- a node is taken out of its tree -/
  | deleteNode (node : NodeId)
deriving DecidableEq, Repr

/-- What is done when an edit is called. -/
def Edit.editing : Edit → Editing Unit
  | add addition mode content => do
    let _ ← addition.editing mode content
    return ()
  | insertFirstChild parent node => do
    let _ ← Editing.insertFirstChild parent node
    return ()
  | insertAfter parent reference node => do
    let _ ← Editing.insertAfter parent reference node
    return ()
  | deleteNode node => Editing.deleteNode node

/-- The forests that documents and edits lead to, each edit through an access of its own. -/
inductive Forest.Visited : Forest → Prop where
  /-- there are no trees at first -/
  | empty : Visited {}
  /-- a document is loaded -/
  | load {forest after : Forest} {keepBlanks : Bool} {source : Source} {document : Document} :
    Visited forest → Document.load forest keepBlanks source = .ok (document, after) → Visited after
  /-- the content of a document is replaced -/
  | parse {forest after : Forest} {former document : Document} {source : Source} :
    Visited forest → former.parse forest source = .ok (document, after) → Visited after
  /-- an edit succeeds or fails -/
  | edit {forest : Forest} (edit : Edit) (access : Access) :
    Visited forest → Visited (edit.editing.run ⟨forest, access⟩).2.forest

namespace Editing

variable {α β : Type} {side : Side} {expression : String} {mode : EmptyPath}

/-- Whether it succeeds or fails, an edit leads from forests that there can be to such. -/
def KeepsReached (editing : Editing α) : Prop :=
  ∀ forest, Reached forest →
    editing.Ends forest (fun _ after => Reached after) fun _ after => Reached after

namespace KeepsReached

theorem pure (a : α) : KeepsReached (pure a) := fun _ h => .of_pure a h

theorem throw (error : Error) : KeepsReached (throw error : Editing α) := fun _ h =>
  .of_throw error h

theorem bind {editing : Editing α} {f : α → Editing β} (h : editing.KeepsReached)
    (hf : ∀ a, (f a).KeepsReached) : (editing >>= f).KeepsReached := by
  intro forest hr
  exact .bind ((h forest hr).imp (fun a between hb => hf a between hb) fun _ _ hb => hb)

theorem tryCatch {editing : Editing α} {handler : Error → Editing α} (h : editing.KeepsReached)
    (hh : ∀ error, (handler error).KeepsReached) : (tryCatch editing handler).KeepsReached := by
  intro forest hr
  exact .of_tryCatch ((h forest hr).imp (fun _ _ hb => hb) fun error between hb =>
    hh error between hb)

/-! ## Operations -/

theorem readAt {node : NodeId} {absent : α} {reading : Position → Reading α} :
    (readAt node absent reading).KeepsReached := fun _ h =>
  .of_readAt (fun _ => h) (fun _ _ _ _ => h) fun _ _ _ _ => h

theorem insertFirstChild (parent node : NodeId) : (insertFirstChild parent node).KeepsReached :=
  fun _ h => .of_insert (fun _ hi => h.insertFirst hi) h

theorem insertAfter (parent reference node : NodeId) :
    (insertAfter parent reference node).KeepsReached :=
  fun _ h => .of_insert (fun _ hi => h.insertAfter hi) h

theorem deleteNode (node : NodeId) : (deleteNode node).KeepsReached := fun _ h =>
  .of_deleteNode (h.delete node)

theorem createNode (context : NodeId) (name : String) : (createNode context name).KeepsReached :=
  fun _ h => .of_createNode (fun _ _ hc => h.create hc) fun _ => h

theorem setAttribute (node : NodeId) (name value : String) :
    (setAttribute node name value).KeepsReached := fun _ h =>
  .of_setAttribute (fun _ hs => h.setAttribute hs) fun _ => h

theorem setText (node : NodeId) (text : String) : (setText node text).KeepsReached := fun _ h =>
  .of_setText (fun _ => h.setText node text) fun _ => h.setText node text

/-! ## Additions -/

theorem setAttributes (node : NodeId) (attributes : List (String × String)) :
    (setAttributes node attributes).KeepsReached := by
  induction attributes with
  | nil => exact .pure ()
  | cons pair rest ih => exact .bind (.setAttribute node _ _) fun _ => ih

theorem setContent (node : NodeId) (content : NodeContent) :
    (setContent node content).KeepsReached := by
  refine .bind (.setAttributes node _) fun _ => ?_
  split
  · exact .pure ()
  · exact .setText node _

theorem undoing {node : NodeId} {action : Editing α} (h : action.KeepsReached) :
    (undoing node action).KeepsReached :=
  .tryCatch h fun error => .bind (.deleteNode node) fun _ => .throw error

theorem insertAt (side : Side) (parent node : NodeId) :
    (insertAt side parent node).KeepsReached := by
  cases side with
  | front => exact .insertFirstChild parent node
  | back =>
    refine .bind .readAt fun last => ?_
    cases last with
    | none => exact .insertFirstChild parent node
    | some last => exact .insertAfter parent last node

/-- By induction on the steps: a failure further down is undone node by node. -/
theorem grow (side : Side) (content : NodeContent) (parent : NodeId) (steps : List Step) :
    (grow side content parent steps).KeepsReached := by
  induction steps generalizing parent with
  | nil => exact .bind (.setContent parent content) fun _ => .pure parent
  | cons step steps ih =>
    refine .bind (.createNode parent step.name) fun node => .undoing (.bind ?_ fun _ => ih node)
    refine .bind (.insertAt side parent node) fun inserted => ?_
    split
    · exact .setAttributes node _
    · exact .throw _

theorem addBranch (side : Side) (parent : Option NodeId) (content : NodeContent) :
    (addBranch side parent expression mode content).KeepsReached := by
  have hcompile : (compilePath parent expression mode).KeepsReached := fun _ h =>
    (compilePath_ends parent).imp (fun _ _ he => he ▸ h) fun _ _ he => he ▸ h
  refine .bind hcompile fun path => ?_
  split
  · exact .throw _
  · rename_i anchor hanchor
    simp only [addSteps]
    split
    · exact .throw _
    · split
      · exact .throw _
      · exact .tryCatch (.grow side content anchor.id _) fun error => .throw _

theorem insertNext (sibling : Option NodeId) (name : String) (content : NodeContent) :
    (insertNext sibling name content).KeepsReached := by
  cases sibling with
  | none => exact .throw _
  | some sibling =>
    refine .bind .readAt fun above => ?_
    cases above with
    | none => exact .throw _
    | some above =>
      refine .bind (.createNode above name) fun node => .bind (.undoing ?_) fun _ => .pure node
      refine .bind (.insertAfter above sibling node) fun inserted => ?_
      split
      · exact .setContent node content
      · exact .throw _

theorem addition (addition : Addition) (mode : EmptyPath) (content : NodeContent) :
    (addition.editing mode content).KeepsReached := by
  cases addition with
  | append parent expression => exact .addBranch .back parent content
  | prepend parent expression => exact .addBranch .front parent content
  | fetchOrCreate parent expression =>
    have hfind : (findFirst parent expression mode).KeepsReached := fun _ h =>
      (findFirst_ends parent).imp (fun _ _ he => he ▸ h) fun _ _ he => he ▸ h
    refine .bind hfind fun found => ?_
    cases found with
    | none => exact .addBranch .back parent content
    | some node => exact .pure node
  | insertNext sibling name => exact .insertNext sibling name content

theorem edit (edit : Edit) : edit.editing.KeepsReached := by
  cases edit with
  | add addition mode content =>
    exact .bind (.addition addition mode content) fun _ => .pure ()
  | insertFirstChild parent node => exact .bind (.insertFirstChild parent node) fun _ => .pure ()
  | insertAfter parent reference node =>
    exact .bind (.insertAfter parent reference node) fun _ => .pure ()
  | deleteNode node => exact .deleteNode node

end KeepsReached

/-- What a run leaves, whether it succeeds or fails. -/
theorem KeepsReached.run {editing : Editing α} {forest : Forest} (h : editing.KeepsReached)
    (hr : Reached forest) (access : Access) :
    Reached (editing.run ⟨forest, access⟩).2.forest :=
  (h forest hr).forest_run access

end Editing

/-- Every moment of a history is one of the forests that there can be. -/
theorem Forest.Visited.reached {forest : Forest} (h : Visited forest) : Reached forest := by
  induction h with
  | empty => exact .empty
  | load _ hl ih => exact .load ih hl
  | parse _ hl ih => exact .parse ih hl
  | edit edit access _ ih => exact (Editing.KeepsReached.edit edit).run ih access

end MarkupPath
