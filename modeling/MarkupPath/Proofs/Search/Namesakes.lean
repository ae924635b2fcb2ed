import MarkupPath.Proofs.Forest.Ancestry
import MarkupPath.Proofs.Forest.Legibility
import MarkupPath.Proofs.Search.Origins
import MarkupPath.Proofs.Search.RootNames
import MarkupPath.Proofs.Search.Routes

/-!
# Addressing nodes by their names

The names of the elements from the root of a tree down to a node, joined with slashes, are an
expression. Main statement: from wherever in the tree it's searched for, it selects the nodes with
the same names above them and these alone, each once and in document order
(`Forest.Reached.selects_namesakes`). For that the root's name mustn't hold a dot, and all names
that are looked at have to be told: that of the node where the search begins, that of the root, and
those of the children of each node whose way can still become that of the node that is addressed. If
one of them isn't, the search is refused.
-/

namespace MarkupPath

open StepReader Split

/-! ## The text of a way -/

/-- The steps along names, behind the first one. -/
def namedSteps (names : List String) : List Step := names.map fun name => { name }

theorem text_namedSteps (names : List String) : (namedSteps names).map Step.text = names := by
  rw [namedSteps, List.map_map]
  have htext (name : String) : Step.text { name } = name := by
    rw [← String.toList_inj, Step.toList_text]
    simp [Step.nodeTest, constraintsText]
  exact (List.map_congr_left fun name _ => htext name).trans (List.map_id' _)

theorem fits_named {name : String} {axis : Axis} {offset : Nat} (hn : IsName name.toList)
    (ha : axis = .children ∨ axis = .root ∧ offset = 0 ∧ '.' ∉ name.toList) :
    Step.Fits { name, axis } offset := by
  refine ⟨⟨hn.letters, hn.start, ?_, ?_, List.forall_mem_nil _⟩, ?_, ?_⟩
  · rcases ha with rfl | ⟨rfl, -, hd⟩
    · rintro (h | h) <;> cases h
    · exact fun _ => hd
  · rcases ha with rfl | ⟨rfl, -, -⟩ <;> rintro (h | h | h) <;> cases h
  · rcases ha with rfl | ⟨rfl, -, -⟩ <;> exact nofun
  · rcases ha with rfl | ⟨rfl, ho, -⟩
    · intro h
      cases h
    · exact fun _ => ho

/-- The expression that asks for a way from the root. -/
def wayText (names : List String) : String := "/" ++ "/".intercalate names

theorem toList_intercalate (first : String) (names : List String) :
    ("/".intercalate (first :: names)).toList =
      first.toList ++ behindText (namedSteps names) := by
  have htext := toList_intercalate_text { name := first } (namedSteps names)
  have hfirst : Step.text { name := first } = first := by
    have h := text_namedSteps [first]
    simpa [namedSteps] using h
  rwa [List.map_cons, text_namedSteps, hfirst] at htext

theorem toList_wayText (first : String) (names : List String) :
    (wayText (first :: names)).toList =
      '/' :: (first.toList ++ behindText (namedSteps names)) := by
  rw [wayText, String.toList_append, toList_intercalate]
  rfl

/-- The names on a way are split as they were joined, and each is compiled to a step for it. -/
theorem compileSteps_wayText {first : String} {names : List String} (hf : IsName first.toList)
    (hd : '.' ∉ first.toList) (hn : ∀ name ∈ names, IsName name.toList) :
    compileSteps (wayText (first :: names)) =
      .ok ({ name := first, axis := .root } :: namedSteps names) := by
  have hfits : Step.Fits { name := first, axis := .root } 0 :=
    fits_named hf (.inr ⟨rfl, rfl, hd⟩)
  have hrest : ∀ step ∈ namedSteps names, ∀ place, 0 < place → step.Fits place := by
    intro step hm place _
    obtain ⟨name, hname, rfl⟩ := List.mem_map.mp hm
    exact fits_named (hn name hname) (.inl rfl)
  have hquotable : ∀ step ∈ ({ name := first, axis := .root } : Step) :: namedSteps names,
      step.IsQuotable := by
    intro step hm
    rcases List.mem_cons.mp hm with rfl | hm
    · exact List.forall_mem_nil _
    · obtain ⟨name, -, rfl⟩ := List.mem_map.mp hm
      exact List.forall_mem_nil _
  have hfilled : ({} : Step) ∉ ({ name := first, axis := .root } : Step) :: namedSteps names := by
    intro hm
    rcases List.mem_cons.mp hm with he | hm
    · cases he
    · obtain ⟨name, hname, he⟩ := List.mem_map.mp hm
      have hempty : name = "" := congrArg Step.name he
      exact (hn name hname).nonempty (by rw [hempty]; rfl)
  have hread : IsReadBack 0 { name := first, axis := .root } (namedSteps names) :=
    (isReadBack_iff hfits hrest).mpr
      ⟨hquotable, fun hm => hfilled (List.dropLast_subset _ hm)⟩
  rw [compileSteps, toList_wayText, splitPath]
  have hwritten : Step.written { name := first, axis := .root } 0 = '/' :: first.toList := by
    have hempty : first.isEmpty = false := by simpa using hf.nonempty
    simp [Step.written, Step.marker, Step.bareTest, constraintsText, hempty]
  rw [IsReadBack, hwritten] at hread
  exact hread

/-- The path along the names from the root down to a node. -/
def Position.wayPath (position : Position) : Path :=
  ⟨some position.topmost,
    { name := position.topmost.name, axis := .root } :: namedSteps position.way.tail⟩

/-! ## Searching along names -/

section Searching

variable {name : String} {names : List String} {context position : Position}

theorem reachable_named (name : String) (context : Position) :
    Step.reachable { name } context = context.children := rfl

theorem matchesName_named (hn : IsName name.toList) (other : String) :
    Step.matchesName { name } other = (other == name) := by
  have hempty : name.isEmpty = false := by simpa using hn.nonempty
  rw [Step.matchesName, hempty, Bool.false_or]

/-- Steps along names select the nodes whose way goes on with these names. By induction on the
names: each step goes one level down. -/
theorem selected_namedSteps (hn : ∀ name ∈ names, IsName name.toList) (context : Position) :
    selected context (namedSteps names) =
      context.withDescendants.filter (·.way = context.way ++ names) := by
  induction names generalizing context with
  | nil =>
    rw [List.append_nil, Position.filter_way_eq]
    rfl
  | cons name names ih =>
    obtain ⟨hname, hrest⟩ := List.forall_mem_cons.mp hn
    have hselects : Step.selects { name } context = context.children.filter (·.name = name) := by
      rw [Step.selects_eq_filter, reachable_named]
      refine List.filter_congr fun child _ => ?_
      rw [Step.admits, matchesName_named hname, List.all_nil, Bool.and_true]
      exact beq_eq_decide _ _
    rw [Position.filter_way_cons, ← hselects]
    exact List.flatMap_congr fun child _ => ih hrest child

/-- All names are told that are looked at in a search along names. -/
def Position.TellsBelow (context : Position) (way : List String) : Prop :=
  ∀ above ∈ context.withDescendants, above.way <+: way → above.way ≠ way →
    ∀ child ∈ above.children, child.refusal? = none

instance (context : Position) (way : List String) : Decidable (context.TellsBelow way) :=
  inferInstanceAs (Decidable (∀ above ∈ context.withDescendants, _))

/-- Names have to be told at a node and below those children that have the next name. -/
theorem Position.tellsBelow_cons (context : Position) (name : String) (names : List String) :
    context.TellsBelow (context.way ++ name :: names) ↔
      (∀ child ∈ context.children, child.refusal? = none) ∧
        ∀ child ∈ context.children, child.name = name → child.TellsBelow (child.way ++ names) := by
  have hway {child : Position} (hc : child ∈ context.children) (hn : child.name = name) :
      child.way ++ names = context.way ++ name :: names := by
    rw [way_of_parent (parent?_of_mem_children hc), hn, List.append_assoc]
    rfl
  constructor
  · intro h
    refine ⟨h context List.mem_cons_self (List.prefix_append _ _) (by simp), ?_⟩
    intro child hc hn above hm
    rw [hway hc hn]
    refine h above (List.mem_cons_of_mem _ ?_)
    rw [descendants_eq_flatMap]
    exact List.mem_flatMap.mpr ⟨child, hc, hm⟩
  · rintro ⟨hhere, hbelow⟩ above hm hstart hne
    rcases List.mem_cons.mp hm with rfl | hm
    · exact hhere
    · rw [descendants_eq_flatMap] at hm
      obtain ⟨child, hc, hm⟩ := List.mem_flatMap.mp hm
      have hn := eq_name_of_way hc hm hstart
      rw [← hway hc hn] at hstart hne
      exact hbelow child hc hn above hm hstart hne

/-- No lookup is refused in a search along names if all names that are looked at are told. -/
theorem isOk_sightings_iff (hn : ∀ name ∈ names, IsName name.toList) (context : Position) :
    (∀ sighting ∈ sightings context (namedSteps names), sighting.isOk = true) ↔
      context.TellsBelow (context.way ++ names) := by
  induction names generalizing context with
  | nil =>
    -- behind the last name nothing is looked at any more
    refine iff_of_true (List.forall_mem_singleton.mpr rfl) fun above hm hstart hne => ?_
    rw [List.append_nil] at hstart hne
    exact absurd (hstart.eq_of_length_le (Position.way_prefix_of_mem hm).length_le) hne
  | cons name names ih =>
    obtain ⟨hname, hrest⟩ := List.forall_mem_cons.mp hn
    have hasks : Step.asksNames { name } = true := by
      simpa [Step.asksNames] using hname.nonempty
    have hsight {child : Position} (hr : child.refusal? = none) :
        Step.sight { name } child = if child.name == name then some (.ok child) else none := by
      rw [Step.sight_of_told _ fun _ => hr, matchesName_named hname]
    have hpursue (child : Position) :
        Step.pursue { name } (fun next => sightings next (namedSteps names)) (.ok child) =
          sightings child (namedSteps names) := rfl
    rw [Position.tellsBelow_cons]
    constructor
    · intro h
      have hseen {child : Position} (hc : child ∈ context.children) {sighting : Sighting}
          (hs : Step.sight { name } child = some sighting) :
          ∀ found ∈ Step.pursue { name } (fun next => sightings next (namedSteps names)) sighting,
            found.isOk = true := fun found hf =>
        h found (List.mem_flatMap.mpr ⟨sighting, List.mem_filterMap.mpr ⟨child, hc, hs⟩, hf⟩)
      have htold (child : Position) (hc : child ∈ context.children) : child.refusal? = none := by
        cases hr : child.refusal? with
        | none => rfl
        | some refusal =>
          -- each name is asked for, so one that isn't told would be among what is seen
          have hbad := hseen hc (Step.sight_of_refusal hasks hr) _ (List.mem_singleton.mpr rfl)
          cases hbad
      refine ⟨htold, fun child hc hm => (ih hrest child).mp ?_⟩
      rw [← hpursue]
      exact hseen hc ((hsight (htold child hc)).trans (if_pos (by simpa using hm)))
    · rintro ⟨htold, hbelow⟩ sighting hm
      obtain ⟨candidate, hcandidate, hm⟩ := List.mem_flatMap.mp hm
      obtain ⟨child, hc, hs⟩ := List.mem_filterMap.mp hcandidate
      rw [hsight (htold child hc)] at hs
      split at hs
      · rename_i hmatch
        cases hs
        exact (ih hrest child).mpr (hbelow child hc (by simpa using hmatch)) sighting hm
      · cases hs

end Searching

/-! ## From anywhere in a tree -/

namespace Forest

variable {forest : Forest} {node position : Position} {mode : EmptyPath}

theorem ancestry_subset (hp : position ∈ forest.positions) :
    position.ancestry ⊆ forest.positions := by
  induction position with
  | top element => exact List.cons_subset.mpr ⟨hp, List.nil_subset _⟩
  | child parent index element following ih =>
    exact List.append_subset.mpr
      ⟨ih (parent_mem_positions hp rfl), List.cons_subset.mpr ⟨hp, List.nil_subset _⟩⟩

/-- All names on the way to a node are legible. -/
theorem Reached.isName_of_mem_way (h : Reached forest) (hp : position ∈ forest.positions) :
    ∀ name ∈ position.way, IsName name.toList := by
  intro name hm
  obtain ⟨above, ha, rfl⟩ := List.mem_map.mp hm
  exact h.isName (ancestry_subset hp ha)

/-- A way that is asked for is compiled if the node and the root tell their names. Then the path is
anchored at the root and has a step for each name. -/
theorem outcome_compile_wayText {origin : Origin} {top : Position} {names : List String}
    (ht : origin.root = some top) (hd : '.' ∉ top.name.toList)
    (hn : ∀ name ∈ top.name :: names, IsName name.toList) :
    (Path.compile (some origin) (wayText (top.name :: names)) mode).outcome =
      match origin.position.refusal?.or top.refusal? with
      | some refusal => .error (.lookup refusal)
      | none => .ok ⟨some top, { name := top.name, axis := .root } :: namedSteps names⟩ := by
  obtain ⟨hfirst, hrest⟩ := List.forall_mem_cons.mp hn
  have hlist := toList_wayText top.name names
  have habsolute : isAbsolute (wayText (top.name :: names)) = true := by
    refine isAbsolute_iff.mpr ⟨_, hlist, ?_⟩
    rw [List.head?_append_of_ne_nil _ hfirst.nonempty]
    exact head?_ne_slash hfirst
  cases hr : origin.position.refusal? with
  | some refusal => exact Path.outcome_compile_of_refusal hr
  | none =>
    rw [Path.outcome_compile_of_absolute hr habsolute (compileSteps_wayText hfirst hd hrest),
      Origin.outcome_anchor, ht]
    simp only [reduceCtorEq, if_false, Option.none_or]
    rw [if_pos (by simp [Step.matchesName])]
    cases top.refusal? <;> rfl

theorem absolutePath_intercalate {first : String} (hf : IsName first.toList)
    (names : List String) :
    absolutePath ("/".intercalate (first :: names)) = wayText (first :: names) := by
  have hhead : ("/".intercalate (first :: names)).toList.head? ≠ some '/' := by
    rw [toList_intercalate, List.head?_append_of_ne_nil _ hf.nonempty]
    exact head?_ne_slash hf
  rw [absolutePath, if_neg hhead, wayText]

/-- From anywhere in a tree the names from the root down to a node are compiled to the path along
them, if the names of both ends are told. -/
theorem Reached.outcome_compile_way (h : Reached forest) (hn : node ∈ forest.positions)
    (hp : position ∈ forest.positions) (hroot : forest.rootOf? node.id = some position.topmost.id)
    (hd : '.' ∉ position.topmost.name.toList) (mode : EmptyPath) :
    (Path.compile (forest.origin? node.id) (wayText position.way) mode).outcome =
      match node.refusal?.or position.topmost.refusal? with
      | some refusal => .error (.lookup refusal)
      | none => .ok position.wayPath := by
  obtain ⟨names, hway⟩ := position.exists_way
  have hposition := (position?_eq_some_iff h.isSound).mpr ⟨hn, rfl⟩
  have htop := (position?_eq_some_iff h.isSound).mpr ⟨topmost_mem_positions hp, rfl⟩
  have horigin : forest.origin? node.id = some ⟨node, some position.topmost⟩ := by
    rw [origin?, hposition, hroot, Option.map_some, Option.bind_some, htop]
  rw [horigin, Position.wayPath, hway]
  exact outcome_compile_wayText rfl hd (hway ▸ h.isName_of_mem_way hp)

/-- A search along the names from the root comes upon the namesakes of a node, and upon no refusal
exactly if all names are told that it looks at. -/
theorem Reached.wayPath_selects (h : Reached forest) (hp : position ∈ forest.positions) :
    (position.wayPath.IsReadable ↔ position.topmost.TellsBelow position.way) ∧
      position.wayPath.selected = position.namesakes := by
  obtain ⟨names, hway⟩ := position.exists_way
  have hrest : ∀ name ∈ names, IsName name.toList := fun name hm =>
    h.isName_of_mem_way hp name (hway ▸ List.mem_cons_of_mem _ hm)
  have hgoes : position.way = position.topmost.way ++ names := by
    rw [hway, position.way_topmost]
    rfl
  have htail : position.way.tail = names := congrArg List.tail hway
  rw [Position.namesakes, hgoes, ← isOk_sightings_iff hrest, ← selected_namedSteps hrest,
    Position.wayPath, htail]
  exact ⟨Iff.rfl, rfl⟩

/-- The names from the root down to a node select its namesakes, wherever in the tree they are
searched for, if the node there, the root and all nodes that are looked at tell their names. If one
of these doesn't, the search is refused. -/
theorem Reached.selects_namesakes (h : Reached forest) (hn : node ∈ forest.positions)
    (hp : position ∈ forest.positions) (hroot : forest.rootOf? node.id = some position.topmost.id)
    (hd : '.' ∉ position.topmost.name.toList) :
    absolutePath ("/".intercalate position.way) = wayText position.way ∧
      (∀ mode nodes, forest.Selects node.id (wayText position.way) mode nodes ↔
        node.refusal? = none ∧ position.topmost.refusal? = none ∧
          position.topmost.TellsBelow position.way ∧
            nodes = position.namesakes.map Position.id) ∧
      (∀ mode, (∃ refusal, forest.Refuses node.id (wayText position.way) mode refusal) ↔
        ¬(node.refusal? = none ∧ position.topmost.refusal? = none ∧
          position.topmost.TellsBelow position.way)) ∧
      position ∈ position.namesakes ∧
      (position.namesakes.map Position.id).Sublist forest.ids ∧
      (position.namesakes.map Position.id).Nodup := by
  obtain ⟨hreadable, hselected⟩ := h.wayPath_selects hp
  have hmem : position ∈ position.namesakes := by
    obtain ⟨content, -, hc⟩ := List.mem_flatMap.mp hp
    exact List.mem_filter.mpr ⟨Position.mem_withDescendants_topmost hc, by simp⟩
  have hsublist : (position.namesakes.map Position.id).Sublist forest.ids := by
    rw [← ids_positions]
    have htree := forest.positions_isPreorder.withDescendants_sublist (topmost_mem_positions hp)
    exact (List.filter_sublist.trans htree).map _
  refine ⟨?_, fun mode nodes => ?_, fun mode => ?_, hmem, hsublist,
    hsublist.nodup h.isSound.nodup⟩
  · obtain ⟨names, hway⟩ := position.exists_way
    have hfirst := h.isName_of_mem_way hp _ (hway ▸ List.mem_cons_self)
    rw [hway]
    exact absolutePath_intercalate hfirst names
  · have hc := h.outcome_compile_way hn hp hroot hd mode
    rw [← and_assoc, ← Option.or_eq_none_iff]
    cases hr : node.refusal?.or position.topmost.refusal? with
    | some refusal =>
      rw [hr] at hc
      exact iff_of_false (not_selects_of_compile hc) nofun
    | none =>
      rw [hr] at hc
      rw [selects_iff_selected hc, hreadable, hselected, eq_self, true_and, eq_comm]
  · have hc := h.outcome_compile_way hn hp hroot hd mode
    rw [← and_assoc, ← Option.or_eq_none_iff]
    cases hr : node.refusal?.or position.topmost.refusal? with
    | some refusal =>
      rw [hr] at hc
      exact iff_of_true ⟨refusal, refuses_of_compile hc⟩ nofun
    | none =>
      rw [hr] at hc
      rw [exists_refuses_iff hc, hreadable, eq_self, true_and]

end Forest

/-! ## Two namesakes, and a name that isn't told -/

/-- Two elements of one name around another one, as loaded from
`<p:r xmlns:p='u'><p:a.b/><c/><p:a.b/></p:r>`. -/
def namesakesForest : Forest :=
  let repeated (index : Nat) : Tag := { id := ⟨index⟩, name := ⟨some "p", "a.b", some "u"⟩ }
  let root : Tag :=
    { id := ⟨0⟩, name := ⟨some "p", "r", some "u"⟩, declarations := [⟨some "p", "u"⟩] }
  let content : Content :=
    .element (repeated 1) .nil none (.element { id := ⟨2⟩, name := { localPart := "c" } } .nil none
      (.element (repeated 3) .nil none .nil))
  { trees := [⟨.element root content none .nil, 0⟩], next := 4 }

theorem load_namesakesForest :
    Document.load {} false (.text "<p:r xmlns:p='u'><p:a.b/><c/><p:a.b/></p:r>") =
      .ok ({ root := some ⟨0⟩ }, namesakesForest) := by
  decide +kernel

theorem selects_namesakesForest :
    namesakesForest.Selects ⟨2⟩ "/p:r/p:a.b" .self [⟨1⟩, ⟨3⟩] := by
  have hreached : Forest.Reached namesakesForest := .load .empty load_namesakesForest
  let node := namesakesForest.positions.get ⟨2, by decide +kernel⟩
  let position := namesakesForest.positions.get ⟨3, by decide +kernel⟩
  obtain ⟨-, hselects, -⟩ :=
    @Forest.Reached.selects_namesakes namesakesForest node position hreached (List.get_mem _ _)
      (List.get_mem _ _) (by decide +kernel) (by decide +kernel)
  have htext : wayText position.way = "/p:r/p:a.b" := by decide +kernel
  rw [← htext]
  exact (hselects .self _).mpr
    ⟨by decide +kernel, by decide +kernel, by decide +kernel, by decide +kernel⟩

/-- An element beside one with a qualifier that isn't declared, as loaded from
`<r><c/><p:b/><w xml:space="no"/></r>`. -/
def unboundForest : Forest :=
  let last : Tag :=
    { id := ⟨3⟩, name := { localPart := "w" }
      attributes := [⟨⟨some "xml", "space", some xmlSpace⟩, "no"⟩] }
  let content : Content :=
    .element { id := ⟨1⟩, name := { localPart := "c" } } .nil none
      (.element { id := ⟨2⟩, name := { localPart := "p:b" } } .nil none
        (.element last .nil none .nil))
  { trees := [⟨.element { id := ⟨0⟩, name := { localPart := "r" } } content none .nil, 0⟩]
    next := 4 }

theorem load_unboundForest :
    Document.load {} false (.text "<r><c/><p:b/><w xml:space=\"no\"/></r>") =
      .ok ({ root := some ⟨0⟩ }, unboundForest) := by
  decide +kernel

/-- Not all names select their elements: the search is refused the name of a sibling. -/
theorem not_selects_unboundForest :
    Forest.Reached unboundForest ∧
      (unboundForest.position? ⟨1⟩).map (fun position =>
        (position.way, position.namesakes.map Position.id)) = some (["r", "c"], [⟨1⟩]) ∧
      ¬unboundForest.Selects ⟨0⟩ (absolutePath "r/c") .self [⟨1⟩] ∧
      ∃ refusal, unboundForest.Refuses ⟨0⟩ (absolutePath "r/c") .self refusal := by
  refine ⟨.load .empty load_unboundForest, by decide +kernel, ?_⟩
  let top := unboundForest.positions.get ⟨0, by decide +kernel⟩
  have hnames : ∀ name ∈ [top.name, "c"], IsName name.toList :=
    List.forall_mem_cons.mpr ⟨.of_isPlainName (by decide),
      List.forall_mem_singleton.mpr (.of_isPlainName (by decide))⟩
  have hc := @Forest.outcome_compile_wayText .self ⟨top, some top⟩ top ["c"] rfl
    (by decide +kernel) hnames
  have hr : top.refusal? = none := by decide +kernel
  have horigin : unboundForest.origin? ⟨0⟩ = some ⟨top, some top⟩ := rfl
  have htext : wayText [top.name, "c"] = absolutePath "r/c" := by decide +kernel
  rw [htext, ← horigin, hr] at hc
  rw [Forest.selects_iff_selected hc, Forest.exists_refuses_iff hc]
  have hreadable :
      ¬Path.IsReadable ⟨some top, { name := top.name, axis := .root } :: namedSteps ["c"]⟩ := by
    decide +kernel
  exact ⟨fun h => hreadable h.1, hreadable⟩

end MarkupPath
