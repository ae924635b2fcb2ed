import MarkupPath.Proofs.Editing.Agreement
import MarkupPath.Proofs.Tree.NewNames

/-!
# New nodes and their names

A new node tells the name that it was created for exactly if that is plain: a word, or two of them
with a colon between. It still does when it has been inserted below the node that it was created
for, unless the namespace has several qualifiers there. Main statement: `Editing.createNode_tells`.

Of the names that aren't plain, those that start with a colon or a brace aren't all refused. A node
that is created for such a name tells another one (`not_tells_of_colon_brace`).
-/

namespace MarkupPath

namespace Forest

/-- A node tells a name to whoever asks for it. -/
def Tells (forest : Forest) (node : NodeId) (name : String) : Prop :=
  (Editing.name node).Ends forest (fun told after => told = some name ∧ after = forest)
    fun _ _ => False

variable {forest between : Forest} {context node : NodeId} {name : String}

theorem tells_of_setting? {setting : Setting} (h : forest.setting? node = some setting)
    (hr : setting.element.tag.name.refusal? = none) :
    forest.Tells node setting.element.tag.name.written := by
  obtain ⟨position, hposition, hset⟩ := exists_position? h
  subst hset
  have hread : position.tellName = pure position.name := by
    rw [Position.tellName, show position.refusal? = none from hr]
  refine .of_readAt (fun hn => ?_) (fun other told ho ht => ?_) fun other error ho ht => ?_
  · rw [hposition] at hn
    cases hn
  · obtain rfl := Option.some.inj (hposition.symm.trans ho)
    rw [hread] at ht
    exact ⟨(Except.ok.inj ht).symm, rfl⟩
  · obtain rfl := Option.some.inj (hposition.symm.trans ho)
    rw [hread] at ht
    cases ht

/-- A new node tells its name. -/
theorem tells_of_create (h : forest.IsSound) (hc : forest.create context name = .ok (node, between)) :
    ∃ told, between.Tells node told ∧
      (told = name ↔ ∃ plain : Name, plain.IsPlain ∧ plain.written = name) ∧
      (told = name ∨ name.toList.head? = some ':' ∨ name.toList.head? = some '{') := by
  obtain ⟨made, minted, hmade, rfl, rfl⟩ := create_eq_ok.mp hc
  have hnew := newTag_isMade hmade
  refine ⟨made.name.written, tells_of_setting? (new_addTree made minted h).2 hnew.told, ?_,
    hnew.written⟩
  constructor
  · intro hw
    exact ⟨made.name, hnew.plain, hw⟩
  · rintro ⟨plain, hplain, rfl⟩
    rcases newTag_of_isPlain hplain hmade with ⟨space, -, -, rfl⟩ | ⟨hq, -, rfl⟩
    · rfl
    · rw [Name.written, Name.written, hq]

/-- A planted node that was made for a plain name tells that name. -/
theorem IsPlanted.tells {since : Nat} {spot : Spot} {parent : NodeId} {scope : Scope} {tag : Tag}
    {before after : Forest} {plain : Name}
    (h : IsPlanted since spot parent scope ⟨tag, .nil⟩ before after) (hu : scope.IsUnambiguous)
    (hp : plain.IsPlain) (hn : tag.IsNew scope plain.written) : after.Tells tag.id plain.written := by
  obtain ⟨hr, -, hw⟩ := hn.of_isPlain hp
  rw [← hw (hu.favours _)]
  exact tells_of_setting? h.setting? hr

end Forest

namespace Editing

open Forest

/-- A new node tells the name that it was created for if that is plain, and it still does below the
node that it was created for. Other names are refused unless they start with a colon or a brace. -/
theorem createNode_tells {forest : Forest} (h : forest.IsSound) (context : NodeId) (name : String) :
    (createNode context name).Ends forest
      (fun node between =>
        ∃ told, between.Tells node told ∧
          (told = name ↔ ∃ plain : Name, plain.IsPlain ∧ plain.written = name) ∧
          (told = name ∨ name.toList.head? = some ':' ∨ name.toList.head? = some '{') ∧
          (told = name → (forest.scope context).IsUnambiguous →
            (insertFirstChild context node).Ends between
              (fun inserted after => inserted = true → after.Tells node name) (fun _ _ => False) ∧
            ∀ reference, (insertAfter context reference node).Ends between
              (fun inserted after => inserted = true → after.Tells node name) fun _ _ => False))
      fun error after => after = forest ∧ ∃ failure, error = .creation failure := by
  refine .of_createNode (fun node between hc => ?_) fun failure => ⟨rfl, failure, rfl⟩
  obtain ⟨told, htells, hplain, hform⟩ := tells_of_create h hc
  refine ⟨told, htells, hplain, hform, fun ht hu => ?_⟩
  obtain ⟨plain, hp, rfl⟩ := hplain.mp ht
  have hscope {position : Position} (hposition : forest.position? context = some position) :
      position.scope.IsUnambiguous := by
    rwa [scope, hposition] at hu
  constructor
  · refine .of_insert (fun after hi _ => ?_) (absurd · Bool.false_ne_true)
    obtain ⟨position, tag, hposition, rfl, hn, hplanted⟩ :=
      planted_of_insertFirst h (Nat.le_refl _) hc hi
    exact hplanted.tells (hscope hposition) hp hn
  · intro reference
    refine .of_insert (fun after hi _ => ?_) (absurd · Bool.false_ne_true)
    obtain ⟨position, tag, hposition, rfl, hn, hplanted⟩ :=
      planted_of_insertAfter h (Nat.le_refl _) hc hi
    exact hplanted.tells (hscope hposition) hp hn

end Editing

/-- A node that declares a qualifier. -/
def qualifiedWorkspace : Workspace where
  forest := {
    trees := [⟨.element
      { id := ⟨0⟩, name := { localPart := "r" }, declarations := [⟨some "p", "u"⟩] } .nil none .nil, 0⟩]
    next := 1 }

theorem createNode_tells_qualifiedWorkspace :
    qualifiedWorkspace.forest.IsSound ∧
      (qualifiedWorkspace.forest.scope ⟨0⟩).IsUnambiguous ∧
      ∃ node between last,
        (Editing.createNode ⟨0⟩ "p:b").run qualifiedWorkspace = (.ok node, between) ∧
        between.forest.Tells node "p:b" ∧
        (Editing.insertFirstChild ⟨0⟩ node).run between = (.ok true, last) ∧
        last.forest.Tells node "p:b" := by
  have h : qualifiedWorkspace.forest.IsSound := ⟨by decide, by decide, by decide⟩
  have hu : (qualifiedWorkspace.forest.scope ⟨0⟩).IsUnambiguous :=
    Scope.isUnambiguous_singleton ⟨some "p", "u"⟩
  obtain ⟨node, between, last, hcreate, hinsert⟩ : ∃ node between last,
      (Editing.createNode ⟨0⟩ "p:b").run qualifiedWorkspace = (.ok node, between) ∧
      (Editing.insertFirstChild ⟨0⟩ node).run between = (.ok true, last) := ⟨_, _, _, rfl, rfl⟩
  obtain ⟨told, ht, hplain, -, hbelow⟩ :=
    (Editing.createNode_tells h ⟨0⟩ "p:b").good_of_run hcreate
  have hp : Name.IsPlain ⟨some "p", "b", none⟩ := ⟨by decide, by rintro _ ⟨⟩; decide⟩
  obtain rfl : told = "p:b" := hplain.mpr ⟨_, hp, by decide⟩
  have hlast := (hbelow rfl hu).1.good_of_run hinsert rfl
  exact ⟨h, hu, node, between, last, hcreate, ht, hinsert, hlast⟩

/-- Names that aren't plain are taken though the node tells another one: without the colon that they
start with, or with a qualifier instead of the namespace. -/
theorem not_tells_of_colon_brace :
    selectedWorkspace.forest.IsSound ∧ (selectedWorkspace.forest.scope ⟨0⟩).IsUnambiguous ∧
      ∀ name ∈ [":x", "{u}x"], ¬ (Editing.createNode ⟨0⟩ name).Ends selectedWorkspace.forest
        (fun node between => between.Tells node name)
        fun error _ => ∃ failure, error = .creation failure := by
  refine ⟨⟨by decide, by decide, by decide⟩, Scope.isUnambiguous_nil, ?_⟩
  intro name hm hends
  simp only [List.mem_cons, List.not_mem_nil, or_false] at hm
  have hname : ∃ node between after told, (Editing.createNode ⟨0⟩ name).run selectedWorkspace =
      (.ok node, between) ∧ (Editing.name node).run between = (.ok (some told), after) ∧
      told ≠ name := by
    rcases hm with rfl | rfl
    · exact ⟨_, _, _, "x", rfl, rfl, by decide⟩
    · exact ⟨_, _, _, "ns0:x", rfl, rfl, by decide⟩
  obtain ⟨node, between, after, told, hcreate, htold, hne⟩ := hname
  have ht : some told = some name :=
    ((hends.good_of_run hcreate : between.forest.Tells node name).good_of_run htold).1
  exact hne (Option.some.inj ht)

end MarkupPath
