import MarkupPath.Proofs.Editing.Agreement
import MarkupPath.Proofs.Editing.Runs

/-!
# Fetching what was fetched before

A node that was fetched, or created because there was none to fetch, is what the path selects first
from then on. Main statement: `Editing.fetched_again`. So whoever asks for it once more gets the
same node and changes nothing, whatever content is given with the request.

If the node was there before, that is because queries change nothing and find the same in the same
forest (`Editing.run_findFirst`). If it was created, nothing had been selected, and so it's all that
is selected by now. That takes steps which keep the default namespace, as for all additions
(`not_fetched_of_defaultSpace`).
-/

namespace MarkupPath

/-- The roots of trees are known to those who access them. -/
def Workspace.KnowsRoots (workspace : Workspace) : Prop :=
  workspace.access.restraint ≠ .hidesRoots

/-! ## Finding -/

theorem Cursor.current?_of_upcoming {cursor : Cursor} {nodes : List Position}
    (h : cursor.upcoming = nodes.map .ok) : cursor.current? = nodes.head? := by
  cases cursor with
  | exhausted =>
    obtain rfl := List.map_eq_nil_iff.mp h.symm
    rfl
  | resting anchor trail pending =>
    cases nodes with
    | nil => cases h
    | cons node nodes => exact congrArg some (Except.ok.inj (List.cons.inj h).1)

/-- The match where a search comes to rest first is the first node that is selected. -/
theorem Forest.Selects.head? {forest : Forest} {node : NodeId} {expression : String}
    {mode : EmptyPath} {nodes : List NodeId} (h : forest.Selects node expression mode nodes) :
    (search (forest.origin? node) expression mode).outcome.map
      (fun cursor => cursor.current?.map Position.id) = .ok nodes.head? := by
  obtain ⟨positions, hy, rfl⟩ := h
  cases ho : forest.origin? node with
  | none =>
    rw [ho] at hy
    obtain ⟨cursor, limit, hc, hl⟩ := hy
    cases hc
    have hn := Cursor.unpulled_of_collect (show Cursor.exhausted.IsSound from trivial) hl
    obtain rfl := List.map_eq_nil_iff.mp hn.symm
    rfl
  | some origin =>
    rw [ho] at hy
    obtain ⟨path, hp, hn, hs⟩ := search_yields_iff.mp hy
    have hshows := path.start_shows hn
    have hsearch : (search (some origin) expression mode).outcome = (Cursor.start path).outcome :=
      Reading.outcome_bind_of_ok _ hp
    rw [hsearch]
    rw [hs] at hshows
    generalize (Cursor.start path).outcome = outcome at hshows
    generalize hseen : positions.map Except.ok = seen at hshows
    cases hshows with
    | refused refusal more => cases positions <;> cases hseen
    | cursor cursor _ =>
      change Except.ok (cursor.current?.map Position.id) = _
      rw [Cursor.current?_of_upcoming hseen.symm, List.head?_map]

/-- Nothing is selected if a search doesn't come to rest. -/
theorem Forest.Selects.of_none {forest : Forest} {node : NodeId} {expression : String}
    {mode : EmptyPath}
    (h : (search (forest.origin? node) expression mode).outcome.map
      (fun cursor => cursor.current?.map Position.id) = .ok none) :
    forest.Selects node expression mode [] := by
  cases hs : (search (forest.origin? node) expression mode).outcome with
  | error error =>
    rw [hs] at h
    cases h
  | ok cursor =>
    rw [hs] at h
    cases cursor with
    | exhausted => exact ⟨[], ⟨.exhausted, 0, hs, rfl⟩, rfl⟩
    | resting anchor trail pending => cases h

namespace Editing

variable {before after later : Workspace} {parent node : NodeId} {expression : String}
  {mode : EmptyPath}

theorem run_origin? (h : before.KnowsRoots) (node : NodeId) :
    (origin? node).run before = (.ok (before.forest.origin? node), before) := by
  obtain ⟨forest, access⟩ := before
  obtain ⟨restraint, calls, insertions⟩ := access
  cases restraint with
  | hidesRoots => exact absurd rfl h
  | unrestrained => rfl
  | refusesInsertion number => rfl

/-- A query finds the first match in the forest, which it leaves alone. -/
theorem run_findFirst (h : before.KnowsRoots) (parent : NodeId) (expression : String)
    (mode : EmptyPath) :
    ∃ last, (findFirst (some parent) expression mode).run before =
        ((search (before.forest.origin? parent) expression mode).outcome.map
          fun cursor => cursor.current?.map Position.id, last) ∧
      last.forest = before.forest := by
  obtain ⟨last, hbegin, hl⟩ : ∃ last, (begin ⟨some parent, expression⟩ mode).run before =
      ((search (before.forest.origin? parent) expression mode).outcome, last) ∧
      last.forest = before.forest := by
    refine ⟨_, .trans ?_ (run_read (search (before.forest.origin? parent) expression mode) before),
      rfl⟩
    rw [begin, Ends.run_bind, originOf, run_origin? h parent]
  refine ⟨last, ?_, hl⟩
  rw [findFirst, Ends.run_bind, hbegin]
  cases (search (before.forest.origin? parent) expression mode).outcome <;> rfl

/-- What is found is fetched, whatever content a new node would be given. -/
theorem run_fetchOrCreate_of_found (content : NodeContent)
    (h : (findFirst (some parent) expression mode).run before = (.ok (some node), after)) :
    (fetchOrCreate (some parent) expression mode content).run before = (.ok node, after) := by
  rw [fetchOrCreate, Ends.run_bind, h]
  rfl

/-- A node that was fetched, or created, is the first one that the path selects then. -/
theorem fetched_again {content : NodeContent} {path : Path} (h : before.forest.IsSound)
    (hk : before.KnowsRoots)
    (hp : (Path.compile (before.forest.origin? parent) expression mode).outcome = .ok path)
    (hr : (fetchOrCreate (some parent) expression mode content).run before = (.ok node, after))
    (hc : before.forest.Selects parent expression mode [] →
      (∀ anchor, path.anchor = some anchor → anchor.scope.IsUnambiguous) ∧
        AreConsistent (after.forest.scope node) content (path.steps.drop 1) ∧
        KeepDefault (after.forest.scope node) (path.steps.drop 1)) :
    ∀ later : Workspace, later.forest = after.forest → later.KnowsRoots →
      (∃ last, (findFirst (some parent) expression mode).run later = (.ok (some node), last) ∧
        last.forest = later.forest) ∧
      ∀ other : NodeContent, ∃ last,
        (fetchOrCreate (some parent) expression mode other).run later = (.ok node, last) ∧
          last.forest = later.forest := by
  -- what matters is that a search in the forest that is left finds the node
  have hsearch : (search (after.forest.origin? parent) expression mode).outcome.map
      (fun cursor => cursor.current?.map Position.id) = .ok (some node) := by
    obtain ⟨last, hfirst, hl⟩ := run_findFirst hk parent expression mode
    cases hs : (search (before.forest.origin? parent) expression mode).outcome.map
        (fun cursor => cursor.current?.map Position.id) with
    | error error =>
      rw [fetchOrCreate, Ends.run_bind, hfirst, hs] at hr
      cases hr
    | ok found =>
      cases found with
      | some found =>
        rw [hs] at hfirst
        rw [run_fetchOrCreate_of_found content hfirst] at hr
        cases hr
        rw [hl, hs]
      | none =>
        have hnone := Forest.Selects.of_none hs
        obtain ⟨hu, hc, hk⟩ := hc hnone
        rw [fetchOrCreate, Ends.run_bind, hfirst, hs] at hr
        rw [← hl] at h hp hnone
        obtain ⟨found, anchor, -, -, -, hp', ha, -⟩ := (addBranch_plants h).good_of_run hr
        obtain rfl : path = found := Except.ok.inj (hp.symm.trans hp')
        exact (Forest.Selects.added .back h hp ha (hu anchor ha) hnone hr hc hk).head?
  intro later hl hk
  obtain ⟨last, hfirst, hlast⟩ := run_findFirst hk parent expression mode
  rw [hl, hsearch] at hfirst
  exact ⟨⟨last, hfirst, hlast⟩, fun other => ⟨last, run_fetchOrCreate_of_found other hfirst, hlast⟩⟩

end Editing

/-- A branch is created, though a part of it seems to be there: a node of the same name without the
attribute. -/
theorem fetched_again_refusingWorkspace :
    refusingWorkspace.forest.IsSound ∧ refusingWorkspace.KnowsRoots ∧
      ∃ node after, (Editing.fetchOrCreate (some ⟨0⟩) "a[@k='v']/b[@k='v']" .self
          { attributes := [("t", "1")] }).run refusingWorkspace = (.ok node, after) ∧
        ∀ later : Workspace, later.forest = after.forest → later.KnowsRoots →
          ∃ last, (Editing.findFirst (some ⟨0⟩) "a[@k='v']/b[@k='v']" .self).run later =
            (.ok (some node), last) := by
  have h : refusingWorkspace.forest.IsSound := ⟨by decide, by decide, by decide⟩
  have hk : refusingWorkspace.KnowsRoots := nofun
  obtain ⟨anchor, hanchor, hscope⟩ : ∃ anchor : Position,
      (Path.compile (refusingWorkspace.forest.origin? ⟨0⟩) "a[@k='v']/b[@k='v']" .self).outcome =
        .ok ⟨some anchor, { name := "r" } :: selectingSteps⟩ ∧ anchor.scope = [] := ⟨_, rfl, rfl⟩
  have hrun : ((Editing.fetchOrCreate (some ⟨0⟩) "a[@k='v']/b[@k='v']" .self
      { attributes := [("t", "1")] }).run refusingWorkspace).1.isOk = true := by decide +kernel
  obtain ⟨node, after, hr⟩ := Editing.Ends.exists_of_isOk hrun
  refine ⟨h, hk, node, after, hr, ?_⟩
  intro later hl hkl
  have hagain := Editing.fetched_again h hk hanchor hr fun _ =>
    ⟨fun found hf => by cases hf; exact hscope ▸ Scope.isUnambiguous_nil,
      selectingSteps_consistent _⟩
  obtain ⟨⟨last, hfirst, -⟩, -⟩ := hagain later hl hkl
  exact ⟨last, hfirst⟩

/-- If a step before binds the default namespace to a qualifier, a step without one doesn't find the
node that was created for it, not even right after that. -/
theorem not_fetched_of_defaultSpace :
    ¬ ∀ (before after later : Workspace) (parent node : NodeId) (expression : String)
      (mode : EmptyPath) (content : NodeContent) (path : Path),
      before.forest.IsSound → before.KnowsRoots →
      (∀ id ∈ before.forest.ids, (before.forest.scope id).IsUnambiguous ∧
        ((before.forest.scope id).map Declaration.qualifier).Nodup) →
      (Path.compile (before.forest.origin? parent) expression mode).outcome = .ok path →
      (Editing.fetchOrCreate (some parent) expression mode content).run before = (.ok node, after) →
      AreConsistent (after.forest.scope node) content (path.steps.drop 1) →
      later.forest = after.forest → later.KnowsRoots →
      ((Editing.findFirst (some parent) expression mode).run later).1 = .ok (some node) := by
  intro hclaim
  have h : defaultSpaceWorkspace.forest.IsSound := ⟨by decide, by decide, by decide⟩
  have hscopes : ∀ id ∈ defaultSpaceWorkspace.forest.ids,
      (defaultSpaceWorkspace.forest.scope id).IsUnambiguous ∧
        ((defaultSpaceWorkspace.forest.scope id).map Declaration.qualifier).Nodup := by
    intro id hm
    obtain rfl := List.mem_singleton.mp hm
    rw [show defaultSpaceWorkspace.forest.scope ⟨0⟩ = [⟨none, "u"⟩] from rfl]
    exact ⟨Scope.isUnambiguous_singleton _, by decide⟩
  obtain ⟨anchor, hanchor⟩ : ∃ anchor : Position,
      (Path.compile (defaultSpaceWorkspace.forest.origin? ⟨0⟩) "a[@{u}x='1']/b" .self).outcome =
        .ok ⟨some anchor, { name := "r" } :: bindingSteps⟩ := ⟨_, rfl⟩
  have hrun : ((Editing.fetchOrCreate (some ⟨0⟩) "a[@{u}x='1']/b" .self).run
        defaultSpaceWorkspace).1.isOk = true ∧
      ((Editing.fetchOrCreate (some ⟨0⟩) "a[@{u}x='1']/b" .self).run
        defaultSpaceWorkspace).2.forest = requalifiedForest := by decide +kernel
  obtain ⟨node, after, hr⟩ := Editing.Ends.exists_of_isOk hrun.1
  rw [hr] at hrun
  have hc (scope : Scope) : AreConsistent scope {} bindingSteps :=
    .of_words (by decide) (by decide) fun _ _ _ _ _ hp => by cases hp
  have hf := hclaim defaultSpaceWorkspace after ⟨requalifiedForest, {}⟩ ⟨0⟩ node _ .self {} _ h nofun
    hscopes hanchor hr (hc _) hrun.2.symm nofun
  have hnone : ((Editing.findFirst (some ⟨0⟩) "a[@{u}x='1']/b" .self).run
      ⟨requalifiedForest, {}⟩).1 = .ok none := by decide +kernel
  rw [hnone] at hf
  cases hf

end MarkupPath
