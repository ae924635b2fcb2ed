import MarkupPath.Proofs.Editing.Ends
import MarkupPath.Proofs.Forest.Planted

/-!
# Growth

What becomes of a forest when a branch is added to it. Main statement: either the branch is planted
as a whole, one new element for each step, each the only child of the one before, or all that there
was is as it was (`grow_ends`).

The elements of a branch are described by how they came about: made for a name (`Tag.IsNew`), given
attributes (`Tag.Sets`) and in the end the content of the last one (`Tag.Receives`). The induction is on
the steps. At each of them there's a new element, planted where everything before it left it, and if
growing on fails it's taken out again, with whatever it contains.
-/

namespace MarkupPath

/-- The attributes that a step asks its node to have. -/
def Step.attributes (step : Step) : List (String × String) :=
  step.constraints.map fun constraint => (constraint.name, constraint.value)

/-- A tag that was made for a name and put where `scope` is in effect. -/
def Tag.IsNew (scope : Scope) (name : String) (tag : Tag) : Prop :=
  ∃ made minted count, newTag scope name = .ok (made, minted) ∧
    (Element.rebind scope count ⟨{ made with id := tag.id }, .nil⟩).1 = ⟨tag, .nil⟩

/-- A tag is given attributes, one by one, where `around` is in effect around it. -/
inductive Tag.Sets (around : Scope) : List (String × String) → Tag → Tag → Prop where
  /-- there are none -/
  | done (tag : Tag) : Sets around [] tag tag
  /-- the first one is given, then the others -/
  | next {name value : String} {rest : List (String × String)} {tag last : Tag}
    {key : UniversalName} (minted : Nat) :
    UniversalName.ofAttribute? (tag.declarations ++ around) name = .ok (some key) →
    Sets around rest (tag.give (tag.declarations ++ around) minted key value) last →
    Sets around ((name, value) :: rest) tag last

/-- A tag is given the content of a new node. -/
def Tag.Receives (around : Scope) (content : NodeContent) (tag last : Tag) : Prop :=
  ∃ given, Sets around content.attributes tag given ∧
    last = if content.text.isEmpty then given else { given with text := some content.text }

/-- The top of a branch for steps where `scope` is in effect around it, its last node, and the
declarations that are in effect for that one. -/
inductive IsBranch (content : NodeContent) :
    Scope → List Step → Element → NodeId → Scope → Prop where
  /-- the last node has the content -/
  | last {scope : Scope} {step : Step} {raw tag full : Tag} :
    raw.IsNew scope step.name → raw.Sets scope step.attributes tag →
    tag.Receives scope content full →
    IsBranch content scope [step] ⟨full, .nil⟩ full.id (full.declarations ++ scope)
  /-- all others contain the next one -/
  | next {scope inner : Scope} {step : Step} {raw tag : Tag} {steps : List Step} {below : Element}
    {node : NodeId} :
    raw.IsNew scope step.name → raw.Sets scope step.attributes tag →
    IsBranch content (tag.declarations ++ scope) steps below node inner →
    IsBranch content scope (step :: steps) ⟨tag, .single below none⟩ node inner

/-- Where a side of the children of an element is. -/
def Side.spot (position : Position) : Side → Spot
  | front => .inFront position.id
  | back =>
    match position.lastChild? with
    | none => .inFront position.id
    | some last => .behind last.id

namespace Forest

variable {since : Nat} {before between after : Forest} {node parent : NodeId} {name : String}

theorem rebind_leaf (outer : Scope) (count : Nat) (tag : Tag) :
    ∃ bound, (Element.rebind outer count ⟨tag, .nil⟩).1 = ⟨bound, .nil⟩ ∧ bound.id = tag.id :=
  ⟨_, rfl, rfl⟩

theorem areNew_leaf {tag : Tag} (h : tag.id = ⟨before.next⟩) :
    AreNew before.next (.single ⟨tag, .nil⟩ none) := by
  intro id hi
  rw [Content.ids_single, Content.ids, List.mem_singleton, Element.id, h] at hi
  obtain rfl := hi
  exact Nat.le_refl _

/-- A new element is inserted in front of the children of the one that it was made for. -/
theorem planted_of_insertFirst (h : before.IsSound) (hs : since ≤ before.next)
    (hc : before.create parent name = .ok (node, between))
    (hi : between.insertFirst parent node = some after) :
    ∃ position tag, before.position? parent = some position ∧ tag.id = node ∧
      tag.IsNew position.scope name ∧
      IsPlanted since (.inFront parent) parent position.scope ⟨tag, .nil⟩ before after := by
  obtain ⟨made, minted, hmade, rfl, rfl⟩ := create_eq_ok.mp hc
  obtain ⟨position, count, new, hposition, rfl, hamends⟩ := insertFirst_new h hs hi
  obtain ⟨tag, htag, hid⟩ := rebind_leaf position.scope count { made with id := ⟨before.next⟩ }
  rw [htag] at hamends
  have hscope : before.scope parent = position.scope := by rw [scope, hposition]; rfl
  have hset := setting?_of_position? hposition
  refine ⟨position, tag, hposition, hid, ⟨made, minted, count, hscope ▸ hmade, ?_⟩,
    ⟨⟨_, hset, ?_, position.scope_setting⟩, areNew_leaf hid, hs, h, hamends⟩⟩
  · rw [hid]
    exact htag
  · exact congrArg some (id_of_setting? hset)

/-- A new element is inserted behind a child of the one that it was made for. -/
theorem planted_of_insertAfter {reference : NodeId} (h : before.IsSound) (hs : since ≤ before.next)
    (hc : before.create parent name = .ok (node, between))
    (hi : between.insertAfter parent reference node = some after) :
    ∃ position tag, before.position? parent = some position ∧ tag.id = node ∧
      tag.IsNew position.scope name ∧
      IsPlanted since (.behind reference) parent position.scope ⟨tag, .nil⟩ before after := by
  obtain ⟨made, minted, hmade, rfl, rfl⟩ := create_eq_ok.mp hc
  obtain ⟨position, count, new, hposition, rfl, hspot, hamends⟩ := insertAfter_new h hs hi
  obtain ⟨tag, htag, hid⟩ := rebind_leaf position.scope count { made with id := ⟨before.next⟩ }
  rw [htag] at hamends
  have hscope : before.scope parent = position.scope := by rw [scope, hposition]; rfl
  refine ⟨position, tag, hposition, hid, ⟨made, minted, count, hscope ▸ hmade, ?_⟩,
    ⟨hspot, areNew_leaf hid, hs, h, hamends⟩⟩
  rw [hid]
  exact htag

theorem position?_create {position : Position} (h : before.IsSound)
    (hc : before.create parent name = .ok (node, between))
    (hp : before.position? parent = some position) : between.position? parent = some position := by
  obtain ⟨made, minted, -, -, rfl⟩ := create_eq_ok.mp hc
  rw [position?_addTree h (mem_ids_of_setting? (setting?_of_position? hp)), hp]

/-- A new element made for a name stands at a side of the children of `parent`. -/
def Sprouts (since : Nat) (side : Side) (parent : NodeId) (name : String) (node : NodeId)
    (before after : Forest) : Prop :=
  ∃ position tag, before.position? parent = some position ∧ tag.id = node ∧
    tag.IsNew position.scope name ∧
    IsPlanted since (side.spot position) parent position.scope ⟨tag, .nil⟩ before after

end Forest

namespace Editing

open Forest

variable {since : Nat} {before forest : Forest} {node parent : NodeId} {around : Scope} {side : Side}

/-- The tag of an element changes, if anything does. -/
def Retags (since : Nat) (node : NodeId) (before after : Forest) : Prop :=
  ∃ change : Tag → Tag, (∀ tag, (change tag).id = tag.id) ∧
    Amends since (Content.mapTag node change) before after

theorem Retags.trans {between after : Forest} {change : Tag → Tag}
    (h : Amends since (Content.mapTag node change) before between)
    (hi : ∀ tag, (change tag).id = tag.id) (hr : Retags since node between after) :
    Retags since node before after := by
  obtain ⟨further, hf, ha⟩ := hr
  exact ⟨_, fun tag => (hf _).trans (hi tag), h.trans_mapTag hi ha hf⟩

theorem setAttributes_ends {setting : Setting} (since : Nat) (h : forest.IsSound)
    (hs : forest.setting? node = some setting) (attributes : List (String × String)) :
    (setAttributes node attributes).Ends forest
      (fun _ after => ∃ change : Tag → Tag, (∀ tag, (change tag).id = tag.id) ∧
        setting.element.tag.Sets setting.around attributes (change setting.element.tag) ∧
        Amends since (Content.mapTag node change) forest after)
      fun _ after => Retags since node forest after := by
  induction attributes generalizing forest setting with
  | nil => exact .of_pure _ ⟨fun tag => tag, fun _ => rfl, .done _, .refl_mapTag h⟩
  | cons pair rest ih =>
    obtain ⟨name, value⟩ := pair
    refine .bind (.of_setAttribute (fun between hset => ?_) fun failure =>
      ⟨_, fun _ => rfl, .refl_mapTag h⟩)
    obtain ⟨key, hkey, ha⟩ := setAttribute_amends since h hset
    have hscope : forest.scope node = setting.scope := by rw [scope_eq, hs]; rfl
    have hgive := fun tag : Tag => tag.id_give (forest.scope node) (forest.minted node) key value
    refine (ih ha.sound (ha.setting?_mapTag h hgive hs)).imp ?_ fun _ _ hr => .trans ha hgive hr
    rintro _ after ⟨change, hi, hsets, hchange⟩
    refine ⟨_, fun tag => (hi _).trans (hgive tag), ?_, ha.trans_mapTag hgive hchange hi⟩
    rw [hscope] at hkey hsets ⊢
    exact .next _ hkey hsets

theorem setContent_ends {setting : Setting} (since : Nat) (h : forest.IsSound)
    (hs : forest.setting? node = some setting) (content : NodeContent) :
    (setContent node content).Ends forest
      (fun _ after => ∃ change : Tag → Tag, (∀ tag, (change tag).id = tag.id) ∧
        setting.element.tag.Receives setting.around content (change setting.element.tag) ∧
        Amends since (Content.mapTag node change) forest after)
      fun _ after => Retags since node forest after := by
  refine .bind ((setAttributes_ends since h hs content.attributes).imp ?_ fun _ _ hr => hr)
  rintro _ between ⟨change, hi, hsets, hchange⟩
  split
  · rename_i ht
    exact .of_pure _ ⟨change, hi, ⟨_, hsets, (if_pos ht).symm⟩, hchange⟩
  · rename_i ht
    obtain ⟨new, hnew, hok⟩ := setText_amends since node hchange.sound content.text
    have hset (tag : Tag) : ({ tag with text := new } : Tag).id = tag.id := rfl
    refine .of_setText (fun ho => ?_) fun failure => .trans hchange hi ⟨_, hset, hnew⟩
    obtain rfl := hok ho
    refine ⟨fun tag => { change tag with text := some content.text }, hi, ⟨_, hsets, ?_⟩,
      hchange.trans_mapTag hi hnew hset⟩
    rw [if_neg ht]

/-! ## Steps -/

variable {name : String} {between : Forest}

theorem insertAt_ends (h : before.IsSound) (hs : since ≤ before.next)
    (hc : before.create parent name = .ok (node, between)) :
    (insertAt side parent node).Ends between
      (fun inserted after =>
        if inserted then Sprouts since side parent name node before after else after = between)
      fun _ _ => False := by
  have hfirst : (∀ position, between.position? parent = some position →
      side.spot position = .inFront parent) →
      (insertFirstChild parent node).Ends between
        (fun inserted after =>
          if inserted then Sprouts since side parent name node before after else after = between)
        fun _ _ => False := by
    intro hspot
    refine .of_insert (fun after hi => ?_) rfl
    obtain ⟨position, tag, hposition, hid, hnew, hplanted⟩ := planted_of_insertFirst h hs hc hi
    rw [← hspot position (position?_create h hc hposition)] at hplanted
    exact ⟨position, tag, hposition, hid, hnew, hplanted⟩
  cases side with
  | front =>
    apply hfirst
    intro position hp
    exact congrArg Spot.inFront (id_of_setting? (setting?_of_position? hp))
  | back =>
    refine .bind (.of_readAt (fun hp => ?_) (fun position found hp ho => ?_)
      fun position error hp ho => by cases ho)
    · apply hfirst
      intro position hp'
      rw [hp] at hp'
      cases hp'
    · have hid : position.id = parent := id_of_setting? (setting?_of_position? hp)
      have hfound : found = position.lastChild?.map Position.id := (Except.ok.inj ho).symm
      cases hl : position.lastChild? with
      | none =>
        rw [hfound, hl]
        apply hfirst
        intro other hp'
        obtain rfl : position = other := Option.some.inj (hp.symm.trans hp')
        rw [Side.spot, hl, ← hid]
      | some last =>
        rw [hfound, hl]
        refine .of_insert (fun after hi => ?_) rfl
        obtain ⟨other, tag, hother, hidt, hnew, hplanted⟩ := planted_of_insertAfter h hs hc hi
        obtain rfl : position = other :=
          Option.some.inj (hp.symm.trans (position?_create h hc hother))
        refine ⟨position, tag, hother, hidt, hnew, ?_⟩
        rw [Side.spot, hl]
        exact hplanted

theorem delete_created (h : before.IsSound) (hs : since ≤ before.next)
    (hc : before.create parent name = .ok (node, between)) :
    Amends since (fun content => content) before (between.delete node) := by
  obtain ⟨made, minted, -, rfl, rfl⟩ := create_eq_ok.mp hc
  rw [delete_of_top]
  · exact addTree_amends h hs _ _
  · obtain ⟨position, hp, hset⟩ := exists_position? (new_addTree made minted h).2
    have : position.setting.parent = none := by rw [hset]
    rw [hp]
    exact Option.map_eq_none_iff.mp this

/-- A step has become a new element with the attributes that it asks for, and it's a leaf. -/
def Grows (since : Nat) (side : Side) (parent : NodeId) (step : Step) (node : NodeId)
    (before after : Forest) : Prop :=
  ∃ (position : Position) (raw tag : Tag), before.position? parent = some position ∧
    tag.id = node ∧ raw.IsNew position.scope step.name ∧
    raw.Sets position.scope step.attributes tag ∧
    IsPlanted since (side.spot position) parent position.scope ⟨tag, .nil⟩ before after

theorem insertFor_ends {step : Step} (h : before.IsSound) (hs : since ≤ before.next)
    (hc : before.create parent step.name = .ok (node, between)) :
    (insertFor side parent node step).Ends between
      (fun _ after => Grows since side parent step node before after)
      fun _ after => Amends since (fun content => content) before (after.delete node) := by
  refine .bind ((insertAt_ends h hs hc).imp ?_ fun _ _ hf => hf.elim)
  rintro (_ | _) after hi
  -- a node that isn't inserted is the root of a tree of its own, and is taken out of that
  · rw [show after = between from hi]
    exact .of_throw _ (delete_created h hs hc)
  · obtain ⟨position, tag, hposition, rfl, hnew, hplanted⟩ := hi
    refine (setAttributes_ends since hplanted.amends.sound hplanted.setting?
      step.attributes).imp ?_ ?_
    · rintro _ last ⟨change, hi, hsets, hchange⟩
      exact ⟨position, tag, change tag, hposition, hi tag, hnew, hsets, hplanted.mapTag hi hchange⟩
    · rintro _ last ⟨change, hi, hchange⟩
      have := (hplanted.mapTag hi hchange).delete
      rwa [show Element.id ⟨change tag, .nil⟩ = tag.id from hi tag] at this

/-- Steps grow into a branch, or all is as it was. -/
theorem grow_ends {content : NodeContent} (h : before.IsSound) (hs : since ≤ before.next)
    (step : Step) (steps : List Step) :
    (grow side content parent (step :: steps)).Ends before
      (fun node after => ∃ position element inner, before.position? parent = some position ∧
        IsBranch content position.scope (step :: steps) element node inner ∧
        IsPlanted since (side.spot position) parent position.scope element before after)
      fun _ after => Amends since (fun content => content) before after := by
  induction steps generalizing step before parent with
  | nil =>
    refine .bind (.of_createNode (fun node between hc => ?_) fun _ => .refl h since)
    refine .of_undoing (.bind ((insertFor_ends h hs hc).imp ?_ fun _ _ hd => hd))
    rintro _ after ⟨position, raw, tag, hposition, rfl, hnew, hsets, hplanted⟩
    refine .bind ((setContent_ends since hplanted.amends.sound hplanted.setting?
      content).imp ?_ ?_)
    · rintro _ last ⟨change, hi, hreceives, hchange⟩
      have hbranch := IsBranch.last hnew hsets hreceives
      rw [show (change tag).id = tag.id from hi tag] at hbranch
      exact .of_pure _ ⟨position, _, _, hposition, hbranch, hplanted.mapTag hi hchange⟩
    · rintro _ last ⟨change, hi, hchange⟩
      have := (hplanted.mapTag hi hchange).delete
      rwa [show Element.id ⟨change tag, .nil⟩ = tag.id from hi tag] at this
  | cons next steps ih =>
    refine .bind (.of_createNode (fun node between hc => ?_) fun _ => .refl h since)
    refine .of_undoing (.bind ((insertFor_ends h hs hc).imp ?_ fun _ _ hd => hd))
    rintro _ after ⟨position, raw, tag, hposition, rfl, hnew, hsets, hplanted⟩
    refine (ih hplanted.amends.sound (Nat.le_trans hs hplanted.amends.next) next).imp ?_
      fun _ _ ha => (hplanted.trans ha).delete
    rintro node last ⟨there, below, inner, hthere, hbranch, hbelow⟩
    have hset : there.setting = ⟨some parent, position.scope, ⟨tag, .nil⟩⟩ :=
      Option.some.inj ((setting?_of_position? hthere).symm.trans hplanted.setting?)
    have hscope : there.scope = tag.declarations ++ position.scope := by
      rw [← Position.scope_setting, hset]
      rfl
    have helement : there.element = ⟨tag, .nil⟩ := congrArg Setting.element hset
    -- both sides of the children of a leaf are the same spot
    have hspot : side.spot there = .inFront tag.id := by
      have hl : there.lastChild? = none := by rw [Position.lastChild?, helement]; rfl
      cases side <;> simp [Side.spot, hl, Position.id, helement, Element.id]
    rw [hspot] at hbelow
    rw [hscope] at hbranch
    refine ⟨position, _, inner, hposition, .next hnew hsets hbranch, ?_⟩
    have := hplanted.plant (fun id hi => Nat.le_trans hplanted.amends.next (hbelow.areNew id hi))
      hbelow.amends
    rwa [Content.append_nil] at this

end Editing
end MarkupPath
