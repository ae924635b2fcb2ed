import MarkupPath.Proofs.Editing.Rollback
import MarkupPath.Proofs.Forest.Enlargement
import MarkupPath.Proofs.Search.Routes

/-!
# Additions keep what queries select

When nodes are added, a path leads to what it led to before and maybe to more. Main statement: the
routes of a path that don't pass a new node are the ones that it had before, in the same order and
equally often (`Addition.keepsRoutes`). So the nodes that it selected are still selected, and the
further matches are those whose routes pass a new node.

All that an addition does to a forest is to enlarge it. A step then selects the same of the nodes
that were there (`Enlarges.filter_selectsAt`), and for routes it follows by induction on the steps:
one that passes a new node doesn't count, wherever it leads from there.
-/

namespace MarkupPath

/-- Items that lead to nothing can be left out. -/
theorem flatMap_filter {α β : Type} {keep : α → Bool} {f : α → List β} (items : List α)
    (h : ∀ item ∈ items, keep item = false → f item = []) :
    (items.filter keep).flatMap f = items.flatMap f := by
  induction items with
  | nil => rfl
  | cons item rest ih =>
    have hrest := ih fun item hm => h item (List.mem_cons_of_mem _ hm)
    rw [List.flatMap_cons, ← hrest]
    cases hk : keep item with
    | true => rw [List.filter_cons_of_pos hk, List.flatMap_cons]
    | false =>
      rw [List.filter_cons_of_neg (Bool.eq_false_iff.mp hk), h item List.mem_cons_self hk,
        List.nil_append]

namespace Forest.Enlarges

variable {before after : Forest} {step : Step} {id node : NodeId}

/-! ## Steps -/

/-- An element that was there is where it was, among others. -/
theorem exists_position? (h : before.Enlarges after) {position : Position}
    (hp : before.position? id = some position) :
    ∃ there, after.position? id = some there ∧
      position.setting.Widens before.has there.setting := by
  obtain ⟨later, hl, hw⟩ := h.setting id _ (setting?_of_position? hp)
  obtain ⟨there, hthere, rfl⟩ := Forest.exists_position? hl
  exact ⟨there, hthere, hw⟩

theorem isLike {position there : Position} {isOld : NodeId → Bool}
    (h : position.setting.Widens isOld there.setting) : position.IsLike there := by
  refine ⟨h.tag, ?_⟩
  rw [← Position.scope_setting, ← Position.scope_setting, Setting.scope, Setting.scope, h.tag,
    h.around]

/-- An element that was there is admitted as before. -/
theorem admits_eq (h : before.Enlarges after) (step : Step) (hi : before.has id = true) :
    after.admits step id = before.admits step id := by
  obtain ⟨setting, hs⟩ := Content.exists_setting? none [] (of_decide_eq_true hi)
  obtain ⟨position, hp, -⟩ := Forest.exists_position? hs
  obtain ⟨there, hthere, hw⟩ := h.exists_position? hp
  obtain ⟨ht, hscope⟩ := isLike hw
  rw [admits, admits, hp, hthere, Option.any_some, Option.any_some, step.admits_congr ht hscope]

/-- Along each axis there are the same of the elements that were there. -/
theorem filter_reach {setting later : Setting} (step : Step)
    (h : setting.Widens before.has later) (hi : before.has setting.element.id = true)
    (hp : ∀ parent, setting.parent = some parent → before.has parent = true) :
    (step.reach later).filter before.has = step.reach setting := by
  have hid : later.element.id = setting.element.id := congrArg Tag.id h.tag
  simp only [Step.reach]
  cases step.axis
  case children | anyChild => exact h.children
  case descendants => exact h.descendants
  case self =>
    rw [hid]
    exact List.filter_cons_of_pos hi
  case parent =>
    rw [h.parent]
    apply List.filter_eq_self.mpr
    intro parent hm
    exact hp parent (Option.mem_toList.mp hm)
  case root | unsupported => rfl

/-- The parent of an element that is there is there. -/
theorem has_parent (h : before.IsSound) {setting : Setting} (hs : before.setting? id = some setting)
    {parent : NodeId} (hp : setting.parent = some parent) : before.has parent = true := by
  rcases Content.setting?_parent h.nodup hs with ⟨hn, -⟩ | ⟨upper, hu, hup, -⟩
  · rw [hn] at hp
    cases hp
  · obtain rfl : upper.element.id = parent := Option.some.inj (hup.symm.trans hp)
    exact decide_eq_true (mem_ids_of_setting? hu)

/-- A step selects the same of the nodes that were there. -/
theorem filter_selectsAt (h : before.Enlarges after) (step : Step) (hi : before.has id = true) :
    (after.selectsAt step id).filter before.has = before.selectsAt step id := by
  obtain ⟨setting, hs⟩ := Content.exists_setting? none [] (of_decide_eq_true hi)
  obtain ⟨later, hl, hw⟩ := h.setting id setting hs
  have hreach := filter_reach step hw (by rwa [id_of_setting? hs]) fun _ => has_parent h.sound hs
  rw [selectsAt_eq h.sound hs, selectsAt_eq h.sound_after hl, List.filter_comm, hreach]
  apply List.filter_congr
  intro other hm
  rw [← hreach] at hm
  exact h.admits_eq step (List.mem_filter.mp hm).2

/-! ## Routes -/

/-- From a new node on no route counts. -/
theorem filter_routes_of_new {steps : List Step} (hn : before.has id = false) :
    (after.routes steps id).filter (·.all before.has) = [] := by
  apply List.filter_eq_nil_iff.mpr
  intro route hm hall
  obtain ⟨rest, rfl⟩ := exists_cons_of_mem_routes hm
  have := List.all_eq_true.mp hall id List.mem_cons_self
  rw [hn] at this
  cases this

/-- Routes that pass no new node are the ones that there were. By induction on the steps: of what
the first one selects only the nodes count that were there, and those are what it selected before.
-/
theorem filter_routes (h : before.Enlarges after) (steps : List Step) (hi : before.has id = true) :
    (after.routes steps id).filter (·.all before.has) = before.routes steps id := by
  induction steps generalizing id with
  | nil => simp [routes, hi]
  | cons step steps ih =>
    have hcons (next : NodeId) :
        ((after.routes steps next).map (id :: ·)).filter (·.all before.has) =
          ((after.routes steps next).filter (·.all before.has)).map (id :: ·) := by
      rw [List.filter_map]
      congr 1
      apply List.filter_congr
      intro route _
      simp [hi]
    have hnew : ∀ next ∈ after.selectsAt step id, before.has next = false →
        ((after.routes steps next).map (id :: ·)).filter (·.all before.has) = [] := by
      intro next _ hn
      rw [hcons, filter_routes_of_new hn, List.map_nil]
    rw [routes, routes, List.filter_flatMap, ← flatMap_filter _ hnew, h.filter_selectsAt step hi]
    apply List.flatMap_congr
    intro next hm
    rw [← h.filter_selectsAt step hi] at hm
    rw [hcons, ih (List.mem_filter.mp hm).2]

/-! ## Paths -/

/-- Where an element stood and where it stands by now. -/
def Stands (before after : Forest) (former later : Position) : Prop :=
  before.position? former.id = some former ∧ after.position? former.id = some later ∧
    former.setting.Widens before.has later.setting

/-- A path has the same steps, and an anchor that is the same node. -/
theorem compile (h : before.Enlarges after) {expression : String} {mode : EmptyPath} {path : Path}
    (hc : (Path.compile (before.origin? node) expression mode).outcome = .ok path) :
    ∃ anchor, (Path.compile (after.origin? node) expression mode).outcome =
        .ok ⟨anchor, path.steps⟩ ∧
      Option.Rel (Stands before after) path.anchor anchor := by
  cases hp : before.position? node with
  | none =>
    rw [origin?, hp] at hc
    cases hc
  | some position =>
    obtain rfl := Position.id_of_position? hp
    obtain ⟨there, hthere, hw⟩ := h.exists_position? hp
    have hroots : Option.Rel (Stands before after)
        ((before.rootOf? position.id).bind before.position?)
        ((after.rootOf? position.id).bind after.position?) := by
      rw [h.root _ (mem_ids_of_setting? (setting?_of_position? hp))]
      cases hr : before.rootOf? position.id with
      | none => exact .none
      | some root =>
        obtain ⟨setting, hs⟩ := Content.exists_setting? none [] (mem_ids_of_rootOf? hr)
        obtain ⟨top, htop, -⟩ := Forest.exists_position? hs
        obtain ⟨other, hother, hwo⟩ := h.exists_position? htop
        obtain rfl := Position.id_of_position? htop
        rw [Option.bind_some, Option.bind_some, htop, hother]
        exact .some ⟨htop, hother, hwo⟩
    rw [origin?, hp, Option.map_some] at hc
    rw [origin?, hthere, Option.map_some]
    exact Path.compile_of_isLike ⟨there, _⟩ (fun _ _ hs => isLike hs.2.2) ⟨hp, hthere, hw⟩ hroots hc

/-- The routes of a path that pass no new node are the ones that it had. -/
theorem filter_path_routes (h : before.Enlarges after) {path : Path} {anchor : Option Position}
    (ha : Option.Rel (Stands before after) path.anchor anchor) :
    (Path.routes after ⟨anchor, path.steps⟩).filter (·.all before.has) = path.routes before := by
  rw [Path.routes, Path.routes]
  generalize path.anchor = former at ha
  cases ha with
  | none => rfl
  | @some former there hst =>
    obtain ⟨hformer, -, hw⟩ := hst
    have hid : there.id = former.id := congrArg Tag.id hw.tag
    have hm : before.has former.id = true :=
      decide_eq_true (mem_ids_of_setting? (setting?_of_position? hformer))
    rw [Option.toList_some, Option.toList_some, List.flatMap_singleton, List.flatMap_singleton, hid]
    exact h.filter_routes _ hm

end Forest.Enlarges

/-! ## Additions -/

/-- An addition enlarges a forest, or leaves it as it is. -/
theorem Addition.enlarges {addition : Addition} {mode : EmptyPath} {content : NodeContent}
    {before after : Workspace} {made : NodeId} (h : before.forest.IsSound)
    (ho : before.forest.IsOwned)
    (hr : (addition.editing mode content).run before = (.ok made, after)) :
    before.forest.Enlarges after.forest := by
  rcases (addition.ends h (Nat.le_refl _) mode content).good_of_run hr with hn | hplanted
  · rw [hn]
    exact .refl h
  · obtain ⟨_, _, _, _, hplanted⟩ := hplanted
    exact hplanted.enlarges ho

/-- After an addition a path has the routes that it had, and besides them such that pass a new node.
So it selects what it selected, and what else it selects is at the end of a route that passes a new
node. -/
theorem Addition.keepsRoutes {addition : Addition} {mode emptyPath : EmptyPath}
    {content : NodeContent} {before after : Workspace} {made node : NodeId} {expression : String}
    {path : Path} (h : before.forest.IsSound) (ho : before.forest.IsOwned)
    (hr : (addition.editing mode content).run before = (.ok made, after))
    (hc : (Path.compile (before.forest.origin? node) expression emptyPath).outcome = .ok path) :
    ∃ later, (Path.compile (after.forest.origin? node) expression emptyPath).outcome = .ok later ∧
      later.steps = path.steps ∧
      (later.routes after.forest).filter (fun route => route.all before.forest.has) =
        path.routes before.forest ∧
      (path.IsReadable → later.IsReadable → ∃ nodes more,
        before.forest.Selects node expression emptyPath nodes ∧
        nodes.map some = (path.routes before.forest).map List.getLast? ∧
        after.forest.Selects node expression emptyPath more ∧
        more.map some = (later.routes after.forest).map List.getLast? ∧
        nodes.Sublist more) := by
  have he := Addition.enlarges h ho hr
  obtain ⟨anchor, hl, ha⟩ := he.compile hc
  have hroutes := he.filter_path_routes ha
  have hends := Path.ends_routes he.sound hc
  have hmore := Path.ends_routes he.sound_after hl
  refine ⟨_, hl, rfl, hroutes, fun hread hlater => ⟨_, _, ?_, hends.symm, ?_, hmore.symm, ?_⟩⟩
  · exact (Forest.selects_iff_selected hc).mpr ⟨hread, rfl⟩
  · exact (Forest.selects_iff_selected hl).mpr ⟨hlater, rfl⟩
  · -- what is at the ends of some of the routes is some of what is at their ends
    have hsub : ((path.selected.map Position.id).map some).Sublist
        ((Path.selected ⟨anchor, path.steps⟩ |>.map Position.id).map some) := by
      rw [← hends, ← hmore, ← hroutes]
      exact List.filter_sublist.map _
    obtain ⟨kept, hkept, he⟩ := List.sublist_map_iff.mp hsub
    rwa [List.map_injective_iff.mpr (fun _ _ => Option.some.inj) he]

/-- A node with a child and a grandchild. -/
def lineWorkspace : Workspace where
  forest := {
    trees := [⟨.element { id := ⟨0⟩, name := { localPart := "r" } }
      (.element { id := ⟨1⟩, name := { localPart := "a" } }
        (.element { id := ⟨2⟩, name := { localPart := "b" } } .nil none .nil) none .nil)
      none .nil, 0⟩]
    next := 3 }

/-- What becomes of it when another child and grandchild are put in front. -/
def branchedForest : Forest where
  trees := [⟨.element { id := ⟨0⟩, name := { localPart := "r" } }
    (.element { id := ⟨3⟩, name := { localPart := "a" } }
      (.element { id := ⟨4⟩, name := { localPart := "b" } } .nil none .nil) none
      (.element { id := ⟨1⟩, name := { localPart := "a" } }
        (.element { id := ⟨2⟩, name := { localPart := "b" } } .nil none .nil) none .nil))
    none .nil, 0⟩, ⟨.nil, 0⟩, ⟨.nil, 0⟩]
  next := 5

theorem keepsRoutes_lineWorkspace :
    lineWorkspace.forest.IsSound ∧ lineWorkspace.forest.IsOwned ∧ ∃ made after,
      ((Addition.prepend (some ⟨0⟩) "a/b").editing .self {}).run lineWorkspace = (.ok made, after) ∧
        ∃ later, (Path.compile (after.forest.origin? ⟨0⟩) "//b/../*" .self).outcome = .ok later ∧
          later.routes after.forest = [[⟨0⟩, ⟨4⟩, ⟨3⟩, ⟨4⟩], [⟨0⟩, ⟨2⟩, ⟨1⟩, ⟨2⟩]] ∧
          (later.routes after.forest).filter (fun route => route.all lineWorkspace.forest.has) =
            [[⟨0⟩, ⟨2⟩, ⟨1⟩, ⟨2⟩]] ∧
          ∃ nodes more, lineWorkspace.forest.Selects ⟨0⟩ "//b/../*" .self nodes ∧
            after.forest.Selects ⟨0⟩ "//b/../*" .self more ∧ nodes.Sublist more := by
  have h : lineWorkspace.forest.IsSound := ⟨by decide, by decide, by decide⟩
  have ho : lineWorkspace.forest.IsOwned := by decide
  have hrun : (((Addition.prepend (some ⟨0⟩) "a/b").editing .self {}).run lineWorkspace).1.isOk =
        true ∧
      (((Addition.prepend (some ⟨0⟩) "a/b").editing .self {}).run lineWorkspace).2.forest =
        branchedForest := by decide +kernel
  obtain ⟨made, after, hr⟩ := Editing.Ends.exists_of_isOk hrun.1
  rw [hr] at hrun
  obtain ⟨path, hc, hread, hpath⟩ : ∃ path : Path,
      (Path.compile (lineWorkspace.forest.origin? ⟨0⟩) "//b/../*" .self).outcome = .ok path ∧
        path.IsReadable ∧ path.routes lineWorkspace.forest = [[⟨0⟩, ⟨2⟩, ⟨1⟩, ⟨2⟩]] :=
    ⟨_, rfl, by decide, by decide⟩
  obtain ⟨other, hl, hlater, hroutes⟩ : ∃ other : Path,
      (Path.compile (branchedForest.origin? ⟨0⟩) "//b/../*" .self).outcome = .ok other ∧
        other.IsReadable ∧
        other.routes branchedForest = [[⟨0⟩, ⟨4⟩, ⟨3⟩, ⟨4⟩], [⟨0⟩, ⟨2⟩, ⟨1⟩, ⟨2⟩]] :=
    ⟨_, rfl, by decide, by decide⟩
  obtain ⟨later, hcompile, -, hkept, hselects⟩ := Addition.keepsRoutes h ho hr hc
  rw [hrun.2] at hcompile hkept hselects
  obtain rfl : other = later := Except.ok.inj (hl.symm.trans hcompile)
  obtain ⟨nodes, more, hn, -, hm, -, hs⟩ := hselects hread hlater
  refine ⟨h, ho, made, after, hr, other, ?_⟩
  rw [hrun.2]
  exact ⟨hl, hroutes, hpath ▸ hkept, nodes, more, hn, hm, hs⟩

end MarkupPath
