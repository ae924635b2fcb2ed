import MarkupPath.Proofs.Editing.Growth
import MarkupPath.Proofs.Search.Origins

/-!
# Selections after a branch was planted

The nodes that were there before keep their names, their attributes and their order, and the anchor
of a path is found again where it was (`IsPlanted.compile`). What is new below it is one child, at
the side where it was planted. So a path of named children selects what it selected before, and at
that side what the search comes upon in the new child (`Selects.planted`).
-/

namespace MarkupPath

/-! ## Sides -/

/-- A list with a further item at one side. -/
def Side.put {α : Type} (side : Side) (items : List α) (item : α) : List α :=
  match side with
  | front => item :: items
  | back => items ++ [item]

theorem Side.map_put {α β : Type} (side : Side) (f : α → β) (items : List α) (item : α) :
    (side.put items item).map f = side.put (items.map f) (f item) := by
  cases side with
  | front => rfl
  | back => exact List.map_append

theorem Side.flatMap_put {α β : Type} (side : Side) (f : α → List β) (items : List α) (item : α)
    {result : β} (h : f item = [result]) :
    (side.put items item).flatMap f = side.put (items.flatMap f) result := by
  cases side with
  | front => rw [put, List.flatMap_cons, h]; rfl
  | back => rw [put, List.flatMap_append, List.flatMap_singleton, h]; rfl

namespace Content

variable {content piece : Content}

theorem mem_ids_of_mem_elements {element : Element} (h : element ∈ content.elements) :
    element.id ∈ content.ids := by
  induction content with
  | nil => cases h
  | element tag children tail rest _ ih =>
    rcases List.mem_cons.mp h with rfl | h
    · exact List.mem_cons_self
    · exact List.mem_cons_of_mem _ (List.mem_append_right _ (ih h))
  | comment text tail rest ih => exact ih h
  | instruction target data tail rest ih => exact ih h

/-- Behind the last element and its tail there are no other elements, and that is where something is
planted behind it. -/
theorem exists_behind_last {last : Element} (hn : content.ids.Nodup)
    (h : content.elements.getLast? = some last) :
    ∃ front tail back, content = front ++ single last tail ++ back ∧ back.elements = [] ∧
      ∀ piece, content.plant (.behind last.id) piece = front ++ single last tail ++ (piece ++ back) := by
  simp only [plant]
  induction content with
  | nil => cases h
  | element tag children tail rest _ ih =>
    rw [ids, List.nodup_cons, List.nodup_append, List.mem_append, not_or] at hn
    obtain ⟨⟨-, htr⟩, -, hr, hd⟩ := hn
    cases hrest : rest.elements with
    | nil =>
      rw [elements, hrest] at h
      obtain rfl : ⟨tag, children⟩ = last := Option.some.inj h
      refine ⟨nil, tail, rest, rfl, hrest, fun piece => ?_⟩
      rw [replace, if_pos (show tag.id = Spot.anchor (.behind (Element.id ⟨tag, children⟩)) from rfl)]
      exact append_assoc ..
    | cons first others =>
      have hlast : rest.elements.getLast? = some last := by
        rw [elements, hrest, List.getLast?_cons_cons] at h
        rw [hrest, h]
      -- the last one is further behind, so it's neither this element nor in it
      have hm : last.id ∈ rest.ids := mem_ids_of_mem_elements (List.mem_of_getLast? hlast)
      have hne : tag.id ≠ (Spot.behind last.id).anchor := fun he => htr (he ▸ hm)
      have hnc : (Spot.behind last.id).anchor ∉ children.ids := fun hc => hd _ hc _ hm rfl
      obtain ⟨front, tail', back, hparts, hback, hplant⟩ := ih hr hlast
      refine ⟨element tag children tail front, tail', back, congrArg _ hparts, hback, fun piece => ?_⟩
      rw [replace, if_neg hne, replace_of_notMem hnc, hplant piece]
      rfl
  | comment text tail rest ih =>
    obtain ⟨front, tail', back, hparts, hback, hplant⟩ := ih hn h
    exact ⟨comment text tail front, tail', back, congrArg _ hparts, hback,
      fun piece => congrArg _ (hplant piece)⟩
  | instruction target data tail rest ih =>
    obtain ⟨front, tail', back, hparts, hback, hplant⟩ := ih hn h
    exact ⟨instruction target data tail front, tail', back, congrArg _ hparts, hback,
      fun piece => congrArg _ (hplant piece)⟩

end Content

theorem Position.element_lastIn (parent : Position) (index : Nat) (found : Option Position)
    (content : Content) :
    (lastIn parent index found content).map element =
      content.elements.getLast?.or (found.map element) := by
  induction content generalizing index found with
  | nil => rfl
  | element tag children tail rest _ ih =>
    rw [lastIn, ih, Content.elements, List.getLast?_cons]
    cases rest.elements.getLast? <;> rfl
  | comment text tail rest ih => exact ih _ _
  | instruction target data tail rest ih => exact ih _ _

/-- How a side parts what an element contains: in front of all of it, or behind the last element in it
and that one's tail. If it contains no element both are the same. -/
def Side.Parts (front back : Content) : Side → Prop
  | .front => front = .nil
  | .back => back.elements = [] ∧
    (front = .nil ∨ ∃ earlier last tail, front = earlier ++ .single last tail)

/-- What is planted at a side of the children of an element comes between the parts. -/
theorem Side.exists_parts (side : Side) {position : Position}
    (hn : position.element.content.ids.Nodup) :
    ∃ front back, position.element.content = front ++ back ∧ side.Parts front back ∧
      ∀ piece, position.element.plant (side.spot position) piece =
        ⟨position.element.tag, front ++ (piece ++ back)⟩ := by
  have hfront (piece : Content) : position.element.plant (.inFront position.id) piece =
      ⟨position.element.tag, piece ++ position.element.content⟩ := by
    rw [Element.plant, if_pos (show Spot.inFront position.id = .inFront position.element.id from rfl)]
  cases side with
  | front => exact ⟨.nil, _, rfl, rfl, hfront⟩
  | back =>
    have hlast : position.lastChild?.map Position.element =
        position.element.content.elements.getLast? := by
      rw [Position.lastChild?, Position.element_lastIn, Option.map_none, Option.or_none]
    rw [Side.spot]
    cases hl : position.lastChild? with
    | none =>
      rw [hl] at hlast
      have hnil : position.element.content.elements = [] := List.getLast?_eq_none_iff.mp hlast.symm
      exact ⟨.nil, _, rfl, ⟨hnil, .inl rfl⟩, hfront⟩
    | some last =>
      rw [hl] at hlast
      obtain ⟨front, tail, back, hparts, hback, hplant⟩ :=
        Content.exists_behind_last hn hlast.symm
      refine ⟨_, back, hparts, ⟨hback, .inr ⟨front, last.element, tail, rfl⟩⟩, fun piece => ?_⟩
      rw [Element.plant, if_neg (by simp)]
      exact congrArg _ (hplant piece)

/-- What is planted at a side of the children of an element becomes a child at that side. -/
theorem Side.elements_plant (side : Side) {position : Position} (new : Element)
    (hn : position.element.content.ids.Nodup) :
    (position.element.plant (side.spot position) (.single new none)).content.elements =
      side.put position.element.content.elements new := by
  obtain ⟨front, back, hcontent, hparts, hplant⟩ := side.exists_parts hn
  rw [hplant, hcontent]
  simp only [Content.elements_append, Content.elements_single]
  cases side with
  | front =>
    rw [show front = .nil from hparts]
    rfl
  | back =>
    rw [hparts.1, List.append_nil, List.append_nil]
    rfl

/-- A search for children comes upon the last node of a branch at the side where the branch was
planted. -/
theorem Side.sightings_plant (side : Side) {position : Position} {new above : Element}
    {steps : List Step} {node : NodeId} (hn : position.element.content.ids.Nodup)
    (habove : above.content = .single new none) (hs : steps ≠ [])
    (h : Element.sightings position.scope above steps = [.ok node]) :
    (position.element.plant (side.spot position) (.single new none)).sightings position.scope steps =
      side.put (position.element.sightings position.scope steps) (.ok node) := by
  cases steps with
  | nil => exact absurd rfl hs
  | cons step steps =>
    rw [Element.sightings, habove, Content.elements_single, List.flatMap_singleton] at h
    rw [Element.sightings, side.elements_plant new hn, Element.sightings]
    apply side.flatMap_put _ _ _
    exact h

/-! ## Origins -/

/-- A position after a piece was planted is of an element with the same tag, and the same
declarations are in effect there. -/
theorem Position.of_setting_plant {position there : Position} {spot : Spot} {piece : Content}
    (h : there.setting = position.setting.plant spot piece) :
    there.element = position.element.plant spot piece ∧ there.scope = position.scope := by
  refine ⟨congrArg Setting.element h, ?_⟩
  rw [← Position.scope_setting, h, Setting.scope_plant, Position.scope_setting]

namespace Forest.IsPlanted

variable {spot : Spot} {parent node : NodeId} {scope : Scope} {new : Element}
  {before after : Forest} {expression : String} {mode : EmptyPath} {path : Path}
  {anchor : Position}

/-- Where an element stands that was there before. -/
theorem exists_position? {since : Nat} (h : IsPlanted since spot parent scope new before after)
    {position : Position} (hp : before.position? node = some position) :
    ∃ there, after.position? node = some there ∧
      there.setting = position.setting.plant spot (.single new none) := by
  have hset := setting?_of_position? hp
  apply Forest.exists_position?
  rw [h.setting?_of_mem (mem_ids_of_setting? hset), hset]
  rfl

/-- A path is compiled as before. -/
theorem compile (h : IsPlanted before.next spot parent scope new before after)
    (hc : (Path.compile (before.origin? node) expression mode).outcome = .ok path)
    (ha : path.anchor = some anchor) :
    before.position? anchor.id = some anchor ∧
      ∃ there, after.position? anchor.id = some there ∧
        there.setting = anchor.setting.plant spot (.single new none) ∧
        (Path.compile (after.origin? node) expression mode).outcome =
          .ok ⟨some there, path.steps⟩ := by
  cases hp : before.position? node with
  | none =>
    rw [Forest.origin?, hp] at hc
    cases hc
  | some position =>
    rw [Forest.origin?, hp, Option.map_some] at hc
    obtain ⟨there, hthere, hset⟩ := h.exists_position? hp
    obtain rfl := Position.id_of_position? hp
    -- where the elements stand by now, compared with where they stood
    let Stands (former later : Position) : Prop := before.position? former.id = some former ∧
      after.position? former.id = some later ∧
      later.setting = former.setting.plant spot (.single new none)
    have hlike : ∀ former later, Stands former later → former.IsLike later := by
      rintro former later ⟨-, -, hs⟩
      obtain ⟨he, hscope⟩ := Position.of_setting_plant hs
      exact ⟨by rw [he]; rfl, hscope⟩
    have hstands : Stands position there := ⟨hp, hthere, hset⟩
    rw [Forest.origin?, hthere, Option.map_some]
    cases hroot : (before.rootOf? position.id).bind before.position? with
    | none =>
      rw [hroot] at hc
      obtain ⟨found, hcompile, hrel⟩ :=
        Path.compile_of_isLike ⟨there, none⟩ hlike hstands .none hc
      rw [ha] at hrel
      cases hrel with
      | some hs =>
        exact ⟨hs.1, _, hs.2.1, hs.2.2, Path.compile_of_hidden hcompile rfl _⟩
    | some root =>
      obtain ⟨id, hrootOf, hpos⟩ := Option.bind_eq_some_iff.mp hroot
      obtain rfl := Position.id_of_position? hpos
      obtain ⟨top, htop, hsettop⟩ := h.exists_position? hpos
      have hroots : Stands root top := ⟨hpos, htop, hsettop⟩
      rw [hroot] at hc
      obtain ⟨found, hcompile, hrel⟩ :=
        Path.compile_of_isLike ⟨there, some top⟩ hlike hstands (.some hroots) hc
      rw [ha] at hrel
      cases hrel with
      | some hs =>
        refine ⟨hs.1, _, hs.2.1, hs.2.2, ?_⟩
        rw [h.rootOf? hrootOf, Option.bind_some, htop]
        exact hcompile

end Forest.IsPlanted

/-! ## Selections -/

theorem exists_of_map_ok {ε α β : Type} {f : α → β} {items : List (Except ε α)} {values : List β}
    (h : items.map (Except.map f) = values.map .ok) :
    ∃ found : List α, items = found.map .ok ∧ found.map f = values := by
  induction items generalizing values with
  | nil =>
    obtain rfl := List.map_eq_nil_iff.mp h.symm
    exact ⟨[], rfl, rfl⟩
  | cons item items ih =>
    cases values with
    | nil => cases h
    | cons value values =>
      obtain ⟨hi, hr⟩ := List.cons.inj h
      obtain ⟨found, rfl, rfl⟩ := ih hr
      cases item with
      | error refusal => cases hi
      | ok a =>
        obtain rfl : f a = value := Except.ok.inj hi
        exact ⟨a :: found, rfl, rfl⟩

/-- What a path of named children selects is what a search below its anchor comes upon. -/
theorem Forest.selects_iff {forest : Forest} {node : NodeId} {expression : String}
    {mode : EmptyPath} {path : Path} {anchor : Position} {nodes : List NodeId}
    (hc : (Path.compile (forest.origin? node) expression mode).outcome = .ok path)
    (ha : path.anchor = some anchor)
    (hchild : ∀ step ∈ path.steps.drop 1, step.IsNamedChild) :
    forest.Selects node expression mode nodes ↔
      anchor.element.sightings anchor.scope (path.steps.drop 1) = nodes.map .ok := by
  have hseen : path.sightings = sightings anchor (path.steps.drop 1) := by
    rw [Path.sightings, ha]
  rw [← sightings_descend hchild, ← hseen, selects_iff_sightings hc]
  constructor
  · rintro ⟨positions, hp, rfl⟩
    rw [hp, List.map_map, List.map_map]
    rfl
  · exact exists_of_map_ok

/-- A branch in which the search comes upon one node adds that to what is selected. -/
theorem Forest.Selects.planted {side : Side} {before after : Forest} {node last : NodeId}
    {expression : String} {mode : EmptyPath} {path : Path} {anchor : Position} {new above : Element}
    {nodes : List NodeId} (hb : before.Selects node expression mode nodes)
    (h : before.IsPlanted before.next (side.spot anchor) anchor.id anchor.scope new after)
    (hc : (Path.compile (before.origin? node) expression mode).outcome = .ok path)
    (ha : path.anchor = some anchor) (hs : path.steps.drop 1 ≠ [])
    (hchild : ∀ step ∈ path.steps.drop 1, step.IsNamedChild)
    (habove : above.content = .single new none)
    (hnew : Element.sightings anchor.scope above (path.steps.drop 1) = [.ok last]) :
    after.Selects node expression mode (side.put nodes last) := by
  obtain ⟨hpos, there, -, hset, hafter⟩ := h.compile hc ha
  obtain ⟨helement, hscope⟩ := Position.of_setting_plant hset
  have hnodup := Content.nodup_of_setting? h.sound.nodup (setting?_of_position? hpos)
  rw [Content.ids_single, List.nodup_cons] at hnodup
  rw [Forest.selects_iff hafter rfl hchild, helement, hscope,
    side.sightings_plant hnodup.2 habove hs hnew, (Forest.selects_iff hc ha hchild).mp hb,
    side.map_put]

end MarkupPath
