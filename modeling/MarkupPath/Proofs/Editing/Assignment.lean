import Mathlib.Data.List.TakeWhile
import MarkupPath.Proofs.Editing.Attributes
import MarkupPath.Proofs.Editing.Runs
import MarkupPath.Proofs.Search.Descent
import MarkupPath.Proofs.Tree.NewNames
import MarkupPath.Query.Lookup

/-!
# Giving an attribute a value

What is read of attributes after one was given a value (`setAttribute_assigns`). Reads and
assignments resolve names on their own, and an attribute can be written in several ways. So what is
compared isn't the written names but what they stand for in the scope of the node: each name of the
attribute reads the new value, and each other name that the scope understands reads what it did
before. An assignment may add a declaration to the node, which is why nothing is said of names whose
qualifier wasn't declared; those that are understood keep their meaning
(`Scope.Extends.ofAttribute?_eq`).

What a node answers depends on its tag and its scope only (`attr_outcome`), so it's enough to know
how the tag is changed (`Tag.IsGiven`).
-/

namespace MarkupPath

/-! ## Names that a scope understands -/

/-- Whether a scope says what the name of an attribute stands for. That takes a declaration of the
qualifier, unless there's none or it's `xml`. -/
def Scope.Understands (scope : Scope) (name : String) : Prop :=
  ∀ qualifier localPart : String, name = qualifier ++ ":" ++ localPart → ':' ∉ localPart.toList →
    qualifier = "" ∨ qualifier = "xml" ∨ ∃ space, scope.space? (some qualifier) = some space

section Understands

variable {scope : Scope} {name : String}

theorem notMem_of_splitQualifier {name qualifier localPart : List Char}
    (h : splitQualifier name = some (qualifier, localPart)) : ':' ∉ localPart := by
  rw [splitQualifier] at h
  split at h
  · cases h
    intro hm
    simpa using List.mem_takeWhile_imp (List.mem_reverse.mp hm)
  · cases h

/-- What a name stands for only stays open if it has a qualifier that isn't declared. -/
theorem ofAttribute?_eq_none_iff :
    UniversalName.ofAttribute? scope name = .ok none ↔
      ∃ qualifier localPart : List Char, splitQualifier name.toList = some (qualifier, localPart) ∧
        qualifier ≠ [] ∧ String.ofList qualifier ≠ "xml" ∧
        scope.space? (some (String.ofList qualifier)) = none := by
  have hmap (read : Except Refusal UniversalName) : read.map some ≠ .ok none := by
    cases read <;> nofun
  simp only [UniversalName.ofAttribute?]
  cases hs : splitQualifier name.toList with
  | none => simpa using hmap _
  | some parts =>
    obtain ⟨qualifier, localPart⟩ := parts
    cases qualifier with
    | nil => simpa using hmap _
    | cons c cs =>
      simp only [Option.some.injEq, Prod.mk.injEq]
      constructor
      · intro h
        refine ⟨_, _, ⟨rfl, rfl⟩, by simp, ?_⟩
        generalize String.ofList (c :: cs) = word at h
        by_cases hx : word = "xml"
        · rw [if_pos hx] at h
          exact absurd h (hmap _)
        · rw [if_neg hx] at h
          cases hspace : scope.space? (some word) with
          | none => exact ⟨hx, rfl⟩
          | some space =>
            rw [hspace] at h
            exact absurd h (hmap _)
      · rintro ⟨_, _, ⟨rfl, rfl⟩, -, hx, hn⟩
        rw [if_neg hx, hn]

theorem Scope.understands_iff :
    scope.Understands name ↔ UniversalName.ofAttribute? scope name ≠ .ok none := by
  rw [ne_eq, ofAttribute?_eq_none_iff]
  constructor
  · rintro h ⟨qualifier, localPart, hs, hne, hx, hn⟩
    have hname : name = String.ofList qualifier ++ ":" ++ String.ofList localPart :=
      String.toList_injective (by simpa using eq_of_splitQualifier hs)
    rcases h _ _ hname (by simpa using notMem_of_splitQualifier hs) with h | h | ⟨space, h⟩
    · exact hne (by simpa using congrArg String.toList h)
    · exact hx h
    · rw [hn] at h
      cases h
  · intro h qualifier localPart hname hl
    by_contra hn
    obtain ⟨hne, hx, hn⟩ : qualifier ≠ "" ∧ qualifier ≠ "xml" ∧
        ∀ space, scope.space? (some qualifier) ≠ some space := by simpa using hn
    refine h ⟨qualifier.toList, localPart.toList, ?_, ?_, ?_, ?_⟩
    · rw [hname, String.toList_append, String.toList_append, List.append_assoc]
      exact splitQualifier_append _ hl
    · simpa using hne
    · rwa [String.ofList_toList]
    · rw [String.ofList_toList]
      exact Option.eq_none_iff_forall_ne_some.mpr hn

end Understands

/-! ## Reading attributes -/

/-- Reads of the names that a scope understands after one of the names of an attribute was given a
value: all its names read the value, the others what they did before. -/
theorem Tag.IsGiven.valueIn? {around : Scope} {key : UniversalName} {tag given : Tag}
    {name other value : String} (h : tag.IsGiven around key value given)
    (hk : UniversalName.ofAttribute? (tag.declarations ++ around) name = .ok (some key))
    (ho : Scope.Understands (tag.declarations ++ around) other) :
    given.valueIn? (given.declarations ++ around) other =
      if UniversalName.ofAttribute? (tag.declarations ++ around) other =
          UniversalName.ofAttribute? (tag.declarations ++ around) name then .ok (some value)
      else tag.valueIn? (tag.declarations ++ around) other := by
  rw [Tag.valueIn?, Tag.valueIn?, h.extension.ofAttribute?_eq (Scope.understands_iff.mp ho), hk]
  rw [Scope.understands_iff] at ho
  cases hr : UniversalName.ofAttribute? (tag.declarations ++ around) other with
  | error refusal =>
    rw [if_neg nofun]
    rfl
  | ok resolved =>
    obtain ⟨known, rfl⟩ : ∃ known, resolved = some known :=
      Option.ne_none_iff_exists'.mp fun hn => ho (hr.trans (congrArg _ hn))
    by_cases he : known = key
    · rw [he, if_pos rfl]
      exact congrArg Except.ok h.self
    · rw [if_neg (by simpa using he)]
      exact congrArg Except.ok (h.others known he)

namespace Editing

variable {before after : Workspace} {node : NodeId} {name value : String} {setting : Setting}

/-- What a node answers if asked for an attribute. -/
theorem attr_outcome (hs : before.forest.setting? node = some setting) (name : String) :
    ((attr node name).run before).1 =
      (setting.element.tag.valueIn? setting.scope name).mapError .lookup := by
  obtain ⟨position, hp, rfl⟩ := Forest.exists_position? hs
  rw [attr, run_readAt, hp, Position.scope_setting]
  rfl

theorem run_setAttribute (node : NodeId) (name value : String) (before : Workspace) :
    (setAttribute node name value).run before =
      match before.forest.setAttribute node name value with
      | .error failure =>
        (.error (.creation failure), before.record [⟨.setAttribute, node⟩])
      | .ok forest =>
        (.ok (), { before.record [⟨.setAttribute, node⟩] with forest }) := by
  have hforest : Editing.forest.run (before.record [⟨.setAttribute, node⟩]) =
      (.ok before.forest, before.record [⟨.setAttribute, node⟩]) := rfl
  have hrecord : (record .setAttribute node).run before =
      (.ok (), before.record [⟨.setAttribute, node⟩]) := rfl
  simp only [setAttribute, Ends.run_bind, hrecord, hforest]
  cases before.forest.setAttribute node name value <;> rfl

/-- How a node that was given an attribute is set: in the same place, with the given tag. -/
theorem setting?_of_setAttribute (hb : before.forest.IsSound)
    (hs : before.forest.setting? node = some setting)
    (h : (setAttribute node name value).run before = (.ok (), after)) :
    ∃ key tag, UniversalName.ofAttribute? setting.scope name = .ok (some key) ∧
      setting.element.tag.IsGiven setting.around key value tag ∧
      after.forest.setting? node =
        some { setting with element := ⟨tag, setting.element.content⟩ } := by
  have hscope : before.forest.scope node = setting.element.tag.declarations ++ setting.around := by
    rw [Forest.scope_eq, hs]
    rfl
  rw [run_setAttribute] at h
  cases hset : before.forest.setAttribute node name value with
  | error failure =>
    rw [hset] at h
    cases h
  | ok forest =>
    rw [hset] at h
    cases h
    obtain ⟨key, hk, hamends⟩ := Forest.setAttribute_amends 0 hb hset
    rw [hscope] at hk hamends
    exact ⟨key, _, hk, Tag.give_isGiven .., hamends.setting?_mapTag hb (fun _ => Tag.id_give ..) hs⟩

/-- All names of an attribute that was given a value read the value, and the other ones that are
understood what they did before. -/
theorem attr_of_setAttribute {other : String} (hb : before.forest.IsSound)
    (hs : before.forest.setting? node = some setting)
    (h : (setAttribute node name value).run before = (.ok (), after))
    (ho : setting.scope.Understands other) :
    ((attr node other).run after).1 =
      if UniversalName.ofAttribute? setting.scope other =
          UniversalName.ofAttribute? setting.scope name then .ok (some value)
      else ((attr node other).run before).1 := by
  obtain ⟨key, tag, hk, hgiven, hset⟩ := setting?_of_setAttribute hb hs h
  rw [attr_outcome hset, attr_outcome hs]
  refine (congrArg (Except.mapError _) (hgiven.valueIn? hk ho)).trans ?_
  exact apply_ite (Except.mapError Error.lookup) _ _ _

/-- A refused assignment changes nothing. -/
theorem forest_of_setAttribute_error {error : Error}
    (h : (setAttribute node name value).run before = (.error error, after)) :
    (∃ failure, error = .creation failure) ∧ after.forest = before.forest := by
  rw [run_setAttribute] at h
  cases hset : before.forest.setAttribute node name value with
  | ok forest =>
    rw [hset] at h
    cases h
  | error failure =>
    rw [hset] at h
    cases h
    exact ⟨⟨failure, rfl⟩, rfl⟩

/-! ## Assignments -/

/-- What giving an attribute of a node a value does, by what is read of the node's attributes. -/
structure Assigns (before : Workspace) (node : NodeId) (name value : String) : Prop where
  /-- then all names of the attribute read the value, and the other ones that are understood what
  they did before -/
  given : ∀ after, (setAttribute node name value).run before = (.ok (), after) →
    ((attr node name).run after).1 = .ok (some value) ∧
      ∀ other, (before.forest.scope node).Understands other →
        ((attr node other).run after).1 =
          if UniversalName.ofAttribute? (before.forest.scope node) other =
              UniversalName.ofAttribute? (before.forest.scope node) name then .ok (some value)
          else ((attr node other).run before).1
  /-- else the reason is that something can't be created, and nothing has changed -/
  refused : ∀ error after, (setAttribute node name value).run before = (.error error, after) →
    (∃ failure, error = .creation failure) ∧ after.forest = before.forest ∧
      ∀ other, ((attr node other).run after).1 = ((attr node other).run before).1
  /-- names that aren't understood are refused, and read as if there were no such attribute -/
  unknown : ¬(before.forest.scope node).Understands name →
    ((setAttribute node name value).run before).1 = .error (.creation (.undeclaredAttribute name)) ∧
      ((attr node name).run before).1 = .ok none ∧
      ((attributeValue (some node) name).run before).1 = .ok "" ∧
      ((attributeValue (some node) name true).run before).1 = .error (.missingAttribute name)

theorem run_attributeValue_of_none (hn : name ≠ "")
    (h : ((attr node name).run before).1 = .ok none) (required : Bool) :
    ((attributeValue (some node) name required).run before).1 =
      if required then .error (.missingAttribute name) else .ok "" := by
  have hempty : name.isEmpty = false := by simpa using hn
  rw [attributeValue, hempty, if_neg Bool.false_ne_true, Ends.run_bind]
  cases hr : (attr node name).run before with
  | mk outcome left =>
    rw [hr] at h
    obtain rfl : outcome = .ok none := h
    cases required <;> rfl

/-- An attribute that was given a value has it, whatever name it's read by, and all else that could
be read before is read as before. -/
theorem setAttribute_assigns (hb : before.forest.IsSound) (hn : node ∈ before.forest.ids)
    (name value : String) : Assigns before node name value := by
  obtain ⟨setting, hs⟩ := Content.exists_setting? none [] hn
  have hscope : before.forest.scope node = setting.scope := by
    rw [Forest.scope_eq, show before.forest.setting? node = some setting from hs]
    rfl
  constructor
  · intro after h
    obtain ⟨key, -, hk, -⟩ := setting?_of_setAttribute hb hs h
    rw [hscope]
    refine ⟨?_, fun other ho => attr_of_setAttribute hb hs h ho⟩
    rw [attr_of_setAttribute hb hs h (Scope.understands_iff.mpr (by rw [hk]; nofun)), if_pos rfl]
  · intro error after h
    obtain ⟨hfailure, hforest⟩ := forest_of_setAttribute_error h
    have hafter : after.forest.setting? node = some setting := by rw [hforest, Forest.setting?, hs]
    exact ⟨hfailure, hforest, fun other => by rw [attr_outcome hafter, attr_outcome hs]⟩
  · intro hunknown
    have hnone : UniversalName.ofAttribute? setting.scope name = .ok none := by
      rw [hscope, Scope.understands_iff] at hunknown
      exact not_not.mp hunknown
    have hne : name ≠ "" := by
      rintro rfl
      cases hnone
    have hattr : ((attr node name).run before).1 = .ok none := by
      rw [attr_outcome hs, Tag.valueIn?, hnone]
      rfl
    refine ⟨?_, hattr, run_attributeValue_of_none hne hattr false,
      run_attributeValue_of_none hne hattr true⟩
    rw [run_setAttribute, Forest.setAttribute, hscope, hnone]

/-- An element with two attributes of the same local part, as loaded from
`<r xmlns:p="u"><a p:x="1" x="2"/></r>`. -/
def qualifiedForest : Forest :=
  let inner : Tag :=
    { id := ⟨1⟩, name := { localPart := "a" }
      attributes := [⟨⟨some "p", "x", some "u"⟩, "1"⟩, ⟨⟨none, "x", none⟩, "2"⟩] }
  let outer : Tag :=
    { id := ⟨0⟩, name := { localPart := "r" }, declarations := [⟨some "p", "u"⟩] }
  { trees := [⟨.element outer (.element inner .nil none .nil) none .nil, 0⟩]
    next := 2 }

/-- Given the value by its universal name, the attribute reads it by its qualified one, too. The
attribute without a qualifier is another one. -/
theorem setAttribute_assigns_universal :
    qualifiedForest.IsSound ∧ ⟨1⟩ ∈ qualifiedForest.ids ∧
      Assigns ⟨qualifiedForest, {}⟩ ⟨1⟩ "{u}x" "3" ∧
      ∃ after, (setAttribute ⟨1⟩ "{u}x" "3").run ⟨qualifiedForest, {}⟩ = (.ok (), after) ∧
        ((attr ⟨1⟩ "p:x").run after).1 = .ok (some "3") ∧
        ((attr ⟨1⟩ "x").run after).1 = .ok (some "2") := by
  have hsound : qualifiedForest.IsSound := ⟨by decide +kernel, by decide +kernel, by decide +kernel⟩
  have hn : (⟨1⟩ : NodeId) ∈ qualifiedForest.ids := by decide +kernel
  refine ⟨hsound, hn, setAttribute_assigns hsound hn _ _,
    ((setAttribute ⟨1⟩ "{u}x" "3").run ⟨qualifiedForest, {}⟩).2, ?_, ?_, ?_⟩
  · exact Prod.ext (by decide +kernel) rfl
  · decide +kernel
  · decide +kernel

end Editing
end MarkupPath
