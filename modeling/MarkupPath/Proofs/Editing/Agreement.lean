import MarkupPath.Proofs.Editing.Chains
import MarkupPath.Proofs.Editing.Rollback
import MarkupPath.Proofs.Editing.Selections

/-!
# Additions and queries agree

A branch that has been added along a path is what the path selects besides what it selected before:
behind that if the branch was appended, in front of it if it was prepended. Main statement:
`Selects.appended_prepended`.

That takes steps which keep the default namespace. An attribute in it is written with a qualifier,
and the names that are written below that attribute's node get the qualifier, too
(`not_appended_of_defaultSpace`).
-/

namespace MarkupPath

/-! ## Additions -/

namespace Editing

variable {forest : Forest} {side : Side} {content : NodeContent} {expression : String}
  {mode : EmptyPath} {parent : NodeId}

open Forest

theorem compilePath_origin? :
    (compilePath (some parent) expression mode).Ends forest
      (fun path after => after = forest ∧ ∀ anchor, path.anchor = some anchor →
        (Path.compile (forest.origin? parent) expression mode).outcome = .ok path)
      fun _ _ => True := by
  refine .bind (.of_origin? fun root hroot => .of_read (fun path hc => ⟨rfl, fun anchor ha => ?_⟩)
    fun _ _ => trivial)
  rcases hroot with rfl | rfl
  · simp only [Forest.origin?]
    cases hp : forest.position? parent with
    | none =>
      rw [hp] at hc
      exact hc
    | some position =>
      rw [hp] at hc
      exact Path.compile_of_hidden hc ha _
  · exact hc

/-- A branch is planted along a path. -/
theorem addBranch_plants (h : forest.IsSound) :
    (addBranch side (some parent) expression mode content).Ends forest
      (fun node after => ∃ path anchor position element inner,
        (Path.compile (forest.origin? parent) expression mode).outcome = .ok path ∧
        path.anchor = some anchor ∧ forest.position? anchor.id = some position ∧
        IsBranch content position.scope (path.steps.drop 1) element node inner ∧
        IsPlanted forest.next (side.spot position) anchor.id position.scope element forest after)
      fun _ _ => True := by
  refine .bind (compilePath_origin?.imp ?_ fun _ _ h => h)
  rintro path after ⟨rfl, hc⟩
  split
  · exact .of_throw _ trivial
  · rename_i anchor ha
    refine (addSteps_ends h (Nat.le_refl _) _ _).imp ?_ fun _ _ _ => trivial
    rintro node last ⟨position, element, inner, hposition, hbranch, hplanted⟩
    exact ⟨path, anchor, position, element, inner, hc anchor ha, ha, hposition, hbranch, hplanted⟩

end Editing

/-- What a path selects after a branch was added along it: what it selected before, and the branch's
last node at the side where the branch was added. -/
theorem Forest.Selects.added (side : Side) {before after : Workspace} {parent node : NodeId}
    {expression : String} {mode : EmptyPath} {content : NodeContent} {path : Path}
    {anchor : Position} {nodes : List NodeId} (h : before.forest.IsSound)
    (hp : (Path.compile (before.forest.origin? parent) expression mode).outcome = .ok path)
    (ha : path.anchor = some anchor) (hu : anchor.scope.IsUnambiguous)
    (hb : before.forest.Selects parent expression mode nodes)
    (hr : (Editing.addBranch side (some parent) expression mode content).run before =
      (.ok node, after))
    (hc : AreConsistent (after.forest.scope node) content (path.steps.drop 1))
    (hk : KeepDefault (after.forest.scope node) (path.steps.drop 1)) :
    after.forest.Selects parent expression mode (side.put nodes node) := by
  obtain ⟨found, there, position, element, inner, hp', ha', hpos, hbranch, hplanted⟩ :=
    (Editing.addBranch_plants h).good_of_run hr
  obtain rfl : path = found := Except.ok.inj (hp.symm.trans hp')
  obtain rfl : anchor = there := Option.some.inj (ha.symm.trans ha')
  obtain rfl : anchor = position :=
    Option.some.inj ((hplanted.compile hp ha).1.symm.trans hpos)
  -- the conditions speak of the scope that the branch ends in
  rw [hplanted.scope_branch hbranch] at hc hk
  obtain ⟨tags, hchain, hbuilt, hlast⟩ := hbranch.exists_chain
  have hwritten := hbuilt.written_eq (fun step hm => (hc.names step hm).2) hk
    fun _ _ name _ _ => hu.favours name.qualifier
  exact hb.planted hplanted hp ha hbuilt.ne_nil.1 hc.isNamedChild hchain.symm
    (hbuilt.sightings hc hwritten hlast anchor.element.tag)

/-- Appending and querying agree, and so do prepending and querying. The declarations that are in
effect for the new node decide what the attributes' names stand for. -/
theorem Forest.Selects.appended_prepended {before : Workspace} {parent : NodeId}
    {expression : String} {mode : EmptyPath} {path : Path} {anchor : Position}
    {nodes : List NodeId} (content : NodeContent) (h : before.forest.IsSound)
    (hp : (Path.compile (before.forest.origin? parent) expression mode).outcome = .ok path)
    (ha : path.anchor = some anchor) (hu : anchor.scope.IsUnambiguous)
    (hb : before.forest.Selects parent expression mode nodes) :
    (∀ node after,
      (Editing.append (some parent) expression mode content).run before = (.ok node, after) →
      AreConsistent (after.forest.scope node) content (path.steps.drop 1) →
      KeepDefault (after.forest.scope node) (path.steps.drop 1) →
      after.forest.Selects parent expression mode (nodes ++ [node])) ∧
    ∀ node after,
      (Editing.prepend (some parent) expression mode content).run before = (.ok node, after) →
      AreConsistent (after.forest.scope node) content (path.steps.drop 1) →
      KeepDefault (after.forest.scope node) (path.steps.drop 1) →
      after.forest.Selects parent expression mode (node :: nodes) := by
  constructor
  · intro node after hr hc hk
    exact Forest.Selects.added .back h hp ha hu hb hr hc hk
  · intro node after hr hc hk
    exact Forest.Selects.added .front h hp ha hu hb hr hc hk

/-- Steps are consistent whose names are words without a qualifier and that have at most one
constraint each, unless the content has the attribute that the last one constrains. -/
theorem AreConsistent.of_words {scope : Scope} {content : NodeContent} {steps : List Step}
    (hn : ∀ step ∈ steps, step.axis = .children ∧ Markup.isPlainName step.name.toList = true)
    (hc : ∀ step ∈ steps, step.constraints.length ≤ 1)
    (ha : ∀ step, steps.getLast? = some step → ∀ constraint ∈ step.constraints,
      ∀ pair ∈ content.attributes,
        UniversalName.ofAttribute? scope constraint.name ≠ UniversalName.ofAttribute? scope pair.1) :
    AreConsistent scope content steps := by
  refine ⟨fun step hm => ?_, fun step hm => ?_, ha⟩
  · obtain ⟨haxis, hword⟩ := hn step hm
    exact ⟨haxis, { localPart := step.name }, ⟨hword, nofun⟩, rfl⟩
  · have hlength := hc step hm
    cases hcs : step.constraints with
    | nil => exact .nil
    | cons constraint rest =>
      rw [hcs, List.length_cons] at hlength
      obtain rfl : rest = [] := List.length_eq_zero_iff.mp (by omega)
      exact List.pairwise_singleton _ _

/-- A node with a child and a grandchild that a path selects, between a comment and a text. -/
def selectedWorkspace : Workspace where
  forest := {
    trees := [⟨.element { id := ⟨0⟩, name := { localPart := "r" }, text := "leading" }
      (.comment "first" none (.element
        { id := ⟨1⟩, name := { localPart := "a" }, attributes := [⟨{ localPart := "k" }, "v"⟩] }
        (.element
          { id := ⟨2⟩, name := { localPart := "b" }, attributes := [⟨{ localPart := "k" }, "v"⟩] }
          .nil none .nil) "behind" .nil))
      none .nil, 0⟩]
    next := 3 }

/-- The steps of a path that selects the grandchild. -/
def selectingSteps : List Step :=
  [{ name := "a", constraints := [⟨"k", "v"⟩] }, { name := "b", constraints := [⟨"k", "v"⟩] }]

theorem selectingSteps_consistent (scope : Scope) :
    AreConsistent scope { attributes := [("t", "1")] } selectingSteps ∧
      KeepDefault scope selectingSteps := by
  have hk : UniversalName.ofAttribute? scope "k" = .ok (some ⟨none, "k"⟩) := rfl
  have ht : UniversalName.ofAttribute? scope "t" = .ok (some ⟨none, "t"⟩) := rfl
  have hne : UniversalName.ofAttribute? scope "k" ≠ UniversalName.ofAttribute? scope "t" := by
    rw [hk, ht]
    simp
  refine ⟨.of_words (by decide) (by decide) fun step hl => ?_, .of_noSpace fun step hm => ?_⟩
  · obtain rfl : _ = step := Option.some.inj hl
    simpa using hne
  · have hnames : ∀ step ∈ selectingSteps, ∀ constraint ∈ step.constraints, constraint.name = "k" := by
      decide
    intro constraint hc key hkey
    rw [hnames step hm constraint hc, hk] at hkey
    cases hkey
    rfl

theorem appended_prepended_selectedWorkspace :
    selectedWorkspace.forest.IsSound ∧
      (∃ node after, (Editing.append (some ⟨0⟩) "a[@k='v']/b[@k='v']" .self
          { attributes := [("t", "1")] }).run selectedWorkspace = (.ok node, after) ∧
        after.forest.Selects ⟨0⟩ "a[@k='v']/b[@k='v']" .self [⟨2⟩, node]) ∧
      ∃ node after, (Editing.prepend (some ⟨0⟩) "a[@k='v']/b[@k='v']" .self
          { attributes := [("t", "1")] }).run selectedWorkspace = (.ok node, after) ∧
        after.forest.Selects ⟨0⟩ "a[@k='v']/b[@k='v']" .self [node, ⟨2⟩] := by
  have h : selectedWorkspace.forest.IsSound := ⟨by decide, by decide, by decide⟩
  obtain ⟨anchor, hanchor, hscope, hsight⟩ : ∃ anchor : Position,
      (Path.compile (selectedWorkspace.forest.origin? ⟨0⟩) "a[@k='v']/b[@k='v']" .self).outcome =
        .ok ⟨some anchor, { name := "r" } :: selectingSteps⟩ ∧ anchor.scope = [] ∧
      anchor.element.sightings anchor.scope selectingSteps = [.ok ⟨2⟩] := ⟨_, rfl, rfl, rfl⟩
  have hc := fun scope => (selectingSteps_consistent scope).1
  have hk := fun scope => (selectingSteps_consistent scope).2
  have hb : selectedWorkspace.forest.Selects ⟨0⟩ "a[@k='v']/b[@k='v']" .self [⟨2⟩] :=
    (Forest.selects_iff hanchor rfl (hc []).isNamedChild).mpr hsight
  have hu : anchor.scope.IsUnambiguous := hscope ▸ Scope.isUnambiguous_nil
  obtain ⟨happend, hprepend⟩ := Forest.Selects.appended_prepended { attributes := [("t", "1")] }
    h hanchor rfl hu hb
  have hruns : ((Editing.append (some ⟨0⟩) "a[@k='v']/b[@k='v']" .self
        { attributes := [("t", "1")] }).run selectedWorkspace).1.isOk = true ∧
      ((Editing.prepend (some ⟨0⟩) "a[@k='v']/b[@k='v']" .self
        { attributes := [("t", "1")] }).run selectedWorkspace).1.isOk = true := by
    decide +kernel
  refine ⟨h, ?_, ?_⟩
  · obtain ⟨node, after, hr⟩ := Editing.Ends.exists_of_isOk hruns.1
    exact ⟨node, after, hr, happend node after hr (hc _) (hk _)⟩
  · obtain ⟨node, after, hr⟩ := Editing.Ends.exists_of_isOk hruns.2
    exact ⟨node, after, hr, hprepend node after hr (hc _) (hk _)⟩

/-! ## The default namespace -/

/-- A node in a default namespace. -/
def defaultSpaceWorkspace : Workspace where
  forest := {
    trees := [⟨.element
      { id := ⟨0⟩, name := ⟨none, "r", some "u"⟩, declarations := [⟨none, "u"⟩] } .nil none .nil, 0⟩]
    next := 1 }

/-- What becomes of it when a branch is added whose first node has an attribute in that namespace:
the second node is written with the qualifier that the attribute brought. -/
def requalifiedForest : Forest where
  trees := [⟨.element
    { id := ⟨0⟩, name := ⟨none, "r", some "u"⟩, declarations := [⟨none, "u"⟩] }
    (.element
      { id := ⟨1⟩, name := ⟨none, "a", some "u"⟩, declarations := [⟨some "ns0", "u"⟩]
        attributes := [⟨⟨some "ns0", "x", some "u"⟩, "1"⟩] }
      (.element { id := ⟨2⟩, name := ⟨some "ns0", "b", some "u"⟩ } .nil none .nil) none .nil)
    none .nil, 1⟩, ⟨.nil, 0⟩, ⟨.nil, 0⟩]
  next := 3

/-- The steps along which the branch is added. -/
def bindingSteps : List Step :=
  [{ name := "a", constraints := [⟨"{u}x", "1"⟩] }, { name := "b" }]

theorem run_defaultSpaceWorkspace :
    ∃ node after, (Editing.append (some ⟨0⟩) "a[@{u}x='1']/b" .self).run defaultSpaceWorkspace =
      (.ok node, after) ∧ after.forest = requalifiedForest := by
  have hrun : ((Editing.append (some ⟨0⟩) "a[@{u}x='1']/b" .self).run
        defaultSpaceWorkspace).1.isOk = true ∧
      ((Editing.append (some ⟨0⟩) "a[@{u}x='1']/b" .self).run
        defaultSpaceWorkspace).2.forest = requalifiedForest := by decide +kernel
  obtain ⟨node, after, hr⟩ := Editing.Ends.exists_of_isOk hrun.1
  rw [hr] at hrun
  exact ⟨node, after, hr, hrun.2⟩

/-- If a step before binds the default namespace to a qualifier, a step without one doesn't find the
node that was made for it. -/
theorem not_appended_of_defaultSpace :
    ¬ ∀ (before after : Workspace) (parent node : NodeId) (expression : String) (mode : EmptyPath)
      (content : NodeContent) (path : Path) (anchor : Position) (nodes later : List NodeId),
      before.forest.IsSound →
      (∀ id ∈ before.forest.ids, (before.forest.scope id).IsUnambiguous ∧
        ((before.forest.scope id).map Declaration.qualifier).Nodup) →
      (Path.compile (before.forest.origin? parent) expression mode).outcome = .ok path →
      path.anchor = some anchor →
      before.forest.Selects parent expression mode nodes →
      (Editing.append (some parent) expression mode content).run before = (.ok node, after) →
      AreConsistent (after.forest.scope node) content (path.steps.drop 1) →
      after.forest.Selects parent expression mode later → later = nodes ++ [node] := by
  intro hclaim
  have h : defaultSpaceWorkspace.forest.IsSound := ⟨by decide, by decide, by decide⟩
  have hscopes : ∀ id ∈ defaultSpaceWorkspace.forest.ids,
      (defaultSpaceWorkspace.forest.scope id).IsUnambiguous ∧
        ((defaultSpaceWorkspace.forest.scope id).map Declaration.qualifier).Nodup := by
    intro id hm
    obtain rfl := List.mem_singleton.mp hm
    rw [show defaultSpaceWorkspace.forest.scope ⟨0⟩ = [⟨none, "u"⟩] from rfl]
    exact ⟨Scope.isUnambiguous_singleton _, by decide⟩
  have hc (scope : Scope) : AreConsistent scope {} bindingSteps :=
    .of_words (by decide) (by decide) fun _ _ _ _ _ hp => by cases hp
  -- nothing is selected, neither at first
  obtain ⟨anchor, hanchor, hsight⟩ : ∃ anchor : Position,
      (Path.compile (defaultSpaceWorkspace.forest.origin? ⟨0⟩) "a[@{u}x='1']/b" .self).outcome =
        .ok ⟨some anchor, { name := "r" } :: bindingSteps⟩ ∧
      anchor.element.sightings anchor.scope bindingSteps = [] := ⟨_, rfl, rfl⟩
  have hb : defaultSpaceWorkspace.forest.Selects ⟨0⟩ "a[@{u}x='1']/b" .self [] :=
    (Forest.selects_iff hanchor rfl (hc []).isNamedChild).mpr hsight
  -- nor when the branch is there
  obtain ⟨top, htop, hsight⟩ : ∃ top : Position,
      (Path.compile (requalifiedForest.origin? ⟨0⟩) "a[@{u}x='1']/b" .self).outcome =
        .ok ⟨some top, { name := "r" } :: bindingSteps⟩ ∧
      top.element.sightings top.scope bindingSteps = [] := ⟨_, rfl, by decide +kernel⟩
  have ha : requalifiedForest.Selects ⟨0⟩ "a[@{u}x='1']/b" .self [] :=
    (Forest.selects_iff htop rfl (hc []).isNamedChild).mpr hsight
  obtain ⟨node, after, hr, hforest⟩ := run_defaultSpaceWorkspace
  rw [← hforest] at ha
  have := hclaim defaultSpaceWorkspace after ⟨0⟩ node _ .self {} _ anchor [] [] h hscopes hanchor
    rfl hb hr (hc _) ha
  cases this

end MarkupPath
