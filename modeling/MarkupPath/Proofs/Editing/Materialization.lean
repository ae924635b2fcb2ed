import MarkupPath.Proofs.Editing.Attributes
import MarkupPath.Proofs.Search.Descent
import MarkupPath.Proofs.Tree.Naming

/-!
# What steps ask of new elements

The name of an element that was made for a plain name can be told, and it's written as it was asked
for if its qualifier is favoured (`Tag.IsNew.of_isPlain`). The constraints of its step are conditions on
the values of its attributes, but when it's made they are assignments, one after the other. They are
met by what they assign if, of several on one attribute, the last one requires a value if any of them
does (`Step.isMetBy_assigned`).

`AreConsistent` and `KeepDefault` are the conditions under which all nodes of a branch have the names
and attributes that its steps ask for.
-/

namespace MarkupPath

/-! ## New elements -/

/-- A tag is judged to meet constraints that its attributes' values meet. -/
theorem Tag.judge_eq_true {scope : Scope} {tag : Tag} {constraints : List Constraint}
    (h : ∀ constraint ∈ constraints, ∃ key,
      UniversalName.ofAttribute? scope constraint.name = .ok (some key) ∧
        constraint.isMetBy (tag.value? key) = true) :
    tag.judge scope constraints = .ok true := by
  induction constraints with
  | nil => rfl
  | cons constraint rest ih =>
    obtain ⟨key, hk, hm⟩ := h constraint List.mem_cons_self
    have hvalue : tag.valueIn? scope constraint.name = .ok (tag.value? key) := by
      rw [valueIn?, hk]
      rfl
    rw [judge, hvalue]
    dsimp only
    rw [if_pos hm]
    exact ih fun other hm => h other (List.mem_cons_of_mem _ hm)

/-- A step selects a child that has its name and meets its constraints. -/
theorem Step.visit_of_judge {step : Step} {scope : Scope} (tag : Tag)
    (hr : tag.name.refusal? = none) (hw : tag.name.written = step.name)
    (hj : tag.judge scope step.constraints = .ok true) (below : List (Except Refusal NodeId)) :
    step.visit scope tag below = below := by
  rw [visit, hr]
  dsimp only
  rw [if_pos (by simp [matchesName, hw]), hj]

/-- Whether a name is told doesn't depend on its qualifier. -/
theorem Name.refusal?_eq (qualifier other : Option String) (localPart : String)
    (space : Option String) :
    Name.refusal? ⟨qualifier, localPart, space⟩ = Name.refusal? ⟨other, localPart, space⟩ := by
  rw [refusal?, refusal?]

/-- An element that was made for a plain name tells its name and declares nothing. It has the name as
it's written if its qualifier is favoured. -/
theorem Tag.IsNew.of_isPlain {scope : Scope} {name : Name} {raw : Tag} (hn : name.IsPlain)
    (h : raw.IsNew scope name.written) :
    raw.name.refusal? = none ∧ raw.declarations = [] ∧
      (scope.Favours name.qualifier → raw.name.written = name.written) := by
  obtain ⟨made, minted, count, hmade, hraw⟩ := h
  rcases newTag_of_isPlain hn hmade with ⟨space, hs, hr, rfl⟩ | ⟨hq, hr, rfl⟩
  · obtain ⟨declaration, hd, hb⟩ := rebind_of_space? hs count raw.id name.localPart
    rw [hb] at hraw
    have htag : _ = raw := congrArg Element.tag hraw
    have hname : raw.name = ⟨declaration.qualifier, name.localPart, some space⟩ := by rw [← htag]
    have hdecl : raw.declarations = [] := by rw [← htag]
    rw [hname, hdecl]
    refine ⟨?_, rfl, fun hf => ?_⟩
    · rw [Name.refusal?_eq _ name.qualifier, hr]
    rw [Name.written, hf space declaration hs hd, Name.written]
  · rw [rebind_of_noSpace] at hraw
    have htag : _ = raw := congrArg Element.tag hraw
    have hname : raw.name = ⟨none, name.localPart, none⟩ := by rw [← htag]
    have hdecl : raw.declarations = [] := by rw [← htag]
    rw [hname, hdecl]
    exact ⟨hr, rfl, fun _ => by simp [Name.written, hq]⟩

/-! ## Constraints as assignments -/

namespace Step

/-- No attribute is required to have two values. -/
def IsSatisfiable (scope : Scope) (step : Step) : Prop :=
  ∀ one ∈ step.constraints, ∀ other ∈ step.constraints, ∀ key,
    UniversalName.ofAttribute? scope one.name = .ok (some key) →
    UniversalName.ofAttribute? scope other.name = .ok (some key) →
    one.value = "" ∨ other.value = "" ∨ one.value = other.value

/-- Of the constraints on an attribute the last one requires a value, if any of them does. -/
def KeepsValues (scope : Scope) (step : Step) : Prop :=
  ∀ constraint ∈ step.constraints, constraint.value ≠ "" → ∀ key,
    UniversalName.ofAttribute? scope constraint.name = .ok (some key) →
    scope.assigned? key step.attributes ≠ some ""

variable {scope : Scope} {step : Step}

/-- Constraints that can be satisfied are met by what they assign if they keep values. -/
theorem isMetBy_assigned (h : step.IsSatisfiable scope) (hk : step.KeepsValues scope)
    {constraint : Constraint} (hm : constraint ∈ step.constraints) {key : UniversalName}
    (hn : UniversalName.ofAttribute? scope constraint.name = .ok (some key)) :
    constraint.isMetBy (scope.assigned? key step.attributes) = true := by
  cases ha : scope.assigned? key step.attributes with
  | none => exact absurd hn (Scope.assigned?_eq_none_iff.mp ha _ (List.mem_map_of_mem hm))
  | some value =>
    -- the value is that of a constraint on the same attribute
    obtain ⟨pair, hpair, hkey, rfl⟩ := Scope.exists_of_assigned? ha
    obtain ⟨other, ho, rfl⟩ := List.mem_map.mp hpair
    by_cases hne : constraint.value = ""
    · simp [Constraint.isMetBy, hne]
    · have hsame := h constraint hm other ho key hn hkey
      have hvalue : other.value ≠ "" := fun he => hk constraint hm hne key hn (by rw [ha, he])
      simp [Constraint.isMetBy, (hsame.resolve_left hne).resolve_left hvalue]

/-- Constraints on different attributes can be satisfied, and they keep values. -/
theorem satisfiable_of_pairwise (h : step.attributes.Pairwise fun one other =>
      UniversalName.ofAttribute? scope one.1 ≠ UniversalName.ofAttribute? scope other.1) :
    step.IsSatisfiable scope ∧ step.KeepsValues scope := by
  have hassigned {constraint : Constraint} (hm : constraint ∈ step.constraints)
      {key : UniversalName} (hk : UniversalName.ofAttribute? scope constraint.name = .ok (some key)) :
      scope.assigned? key step.attributes = some constraint.value :=
    Scope.assigned?_of_pairwise h (List.mem_map_of_mem hm) hk
  refine ⟨fun one ho other hm key hone hother => ?_, fun constraint hm hne key hk he => hne ?_⟩
  · exact .inr (.inr (Option.some.inj ((hassigned ho hone).symm.trans (hassigned hm hother))))
  · exact Option.some.inj ((hassigned hm hk).symm.trans he)

end Step

/-! ## Branches -/

/-- The conditions under which steps and content don't contradict each other, where `scope` has all
the declarations that come to be in effect for the last node. -/
structure AreConsistent (scope : Scope) (content : NodeContent) (steps : List Step) : Prop where
  /-- the steps lead to children of plain names -/
  names : ∀ step ∈ steps, step.axis = .children ∧ ∃ name : Name, name.IsPlain ∧
    name.written = step.name
  /-- the constraints of a step are on different attributes -/
  constraints : ∀ step ∈ steps, step.constraints.Pairwise fun one other =>
    UniversalName.ofAttribute? scope one.name ≠ UniversalName.ofAttribute? scope other.name
  /-- the content has none of the attributes that the last step constrains -/
  attributes : ∀ step, steps.getLast? = some step → ∀ constraint ∈ step.constraints,
    ∀ pair ∈ content.attributes,
      UniversalName.ofAttribute? scope constraint.name ≠ UniversalName.ofAttribute? scope pair.1

/-- No step that needs the default namespace to be written without a qualifier comes behind one that
binds that namespace to a qualifier. -/
def KeepDefault (scope : Scope) (steps : List Step) : Prop :=
  steps.Pairwise fun step later => ':' ∉ later.name.toList →
    ∀ constraint ∈ step.constraints, ¬ scope.NamesDefault constraint.name

/-- The default namespace is kept if no constraint is on an attribute in a namespace. -/
theorem KeepDefault.of_noSpace {scope : Scope} {steps : List Step}
    (h : ∀ step ∈ steps, ∀ constraint ∈ step.constraints, ∀ key,
      UniversalName.ofAttribute? scope constraint.name = .ok (some key) → key.space = none) :
    KeepDefault scope steps := by
  refine List.pairwise_of_forall_mem_list fun step hm _ _ _ constraint hc hn => ?_
  obtain ⟨key, space, hk, hs, -⟩ := hn
  rw [h step hm constraint hc key hk] at hs
  cases hs

theorem AreConsistent.tail {scope : Scope} {content : NodeContent} {step : Step}
    {steps : List Step} (h : AreConsistent scope content (step :: steps)) (hs : steps ≠ []) :
    AreConsistent scope content steps := by
  refine ⟨fun later hm => h.names later (List.mem_cons_of_mem _ hm),
    fun later hm => h.constraints later (List.mem_cons_of_mem _ hm), fun later hl => ?_⟩
  apply h.attributes later
  rw [List.getLast?_cons_of_ne_nil hs, hl]

theorem AreConsistent.pairwise {scope : Scope} {content : NodeContent} {step : Step}
    {steps : List Step} (h : AreConsistent scope content steps) (hs : step ∈ steps) :
    step.attributes.Pairwise fun one other =>
      UniversalName.ofAttribute? scope one.1 ≠ UniversalName.ofAttribute? scope other.1 :=
  List.pairwise_map.mpr (h.constraints step hs)

theorem Name.IsPlain.colon_notMem {name : Name} (h : name.IsPlain) (hq : name.qualifier = none) :
    ':' ∉ name.written.toList := by
  rw [written, hq]
  exact MarkupPath.colon_notMem h.localPart

theorem Name.IsPlain.isEmpty_written {name : Name} (h : name.IsPlain) :
    name.written.isEmpty = false := by
  apply Bool.eq_false_iff.mpr
  intro he
  have hw : name.written.toList = [] := by simpa using he
  cases hq : name.qualifier with
  | none =>
    have hl := h.localPart
    rw [written, hq] at hw
    rw [hw] at hl
    cases hl
  | some qualifier =>
    rw [written, hq] at hw
    simp at hw

theorem AreConsistent.isNamedChild {scope : Scope} {content : NodeContent} {steps : List Step}
    (h : AreConsistent scope content steps) : ∀ step ∈ steps, step.IsNamedChild := by
  intro step hm
  obtain ⟨ha, name, hplain, hw⟩ := h.names step hm
  exact ⟨ha, hw ▸ hplain.isEmpty_written⟩

namespace IsBranch

variable {content : NodeContent} {scope inner : Scope} {steps : List Step} {element : Element}
  {node : NodeId}

/-- The scope that goes with a branch is the one in effect for its last node. -/
theorem scope_setting (h : IsBranch content scope steps element node inner)
    (hn : (Content.single element none).ids.Nodup) (parent : Option NodeId) :
    ∃ setting, (Content.single element none).setting? node parent scope = some setting ∧
      setting.scope = inner := by
  induction h generalizing parent with
  | @last scope step raw tag full hnew hsets hreceives =>
    exact ⟨_, Content.setting?_single .., rfl⟩
  | @next scope inner step raw tag steps below node hnew hsets hbelow ih =>
    rw [Content.ids_single, List.nodup_cons] at hn
    obtain ⟨setting, hs, hscope⟩ := ih hn.2 (some tag.id)
    have hm : node ∈ (Content.single below none).ids := Content.mem_ids_of_setting? hs
    have hne : tag.id ≠ node := by
      rintro rfl
      exact hn.1 hm
    refine ⟨setting, ?_, hscope⟩
    rw [Content.single, Content.setting?, if_neg hne]
    change (Content.setting? node (some tag.id) _ (.single below none)).or _ = _
    rw [hs, Option.some_or]

end IsBranch

/-- And it still is where the branch was planted. -/
theorem Forest.IsPlanted.scope_branch {since : Nat} {spot : Spot} {parent node : NodeId}
    {scope inner : Scope} {content : NodeContent} {steps : List Step} {element : Element}
    {before after : Forest} (h : IsPlanted since spot parent scope element before after)
    (hb : IsBranch content scope steps element node inner) : after.scope node = inner := by
  obtain ⟨setting, hset, rfl⟩ :=
    hb.scope_setting (Content.nodup_of_setting? h.amends.sound.nodup h.setting?) (some parent)
  rw [scope_eq, h.setting?_within (Content.mem_ids_of_setting? hset), hset]
  rfl

end MarkupPath
