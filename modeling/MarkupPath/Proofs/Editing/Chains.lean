import MarkupPath.Proofs.Editing.Materialization
import MarkupPath.Proofs.Tree.NewNames

/-!
# Branches as chains of tags

A branch is a chain: each of its elements is all that the one before contains, and none has a tail.
So it's given by the tags along it, and `AreBuilt` says what these are: the first one is made for
the first step where the chain stands, the next one for the next step where the declarations of the
first one are in effect too, and so on. Main statement: `IsBranch.exists_chain`.

What a tag has that was made for a step doesn't depend on the order in which it came about: its name
is the one that the step's name stands for, each attribute has the value that was asked for last
(`Tag.IsBuilt`).
-/

namespace MarkupPath

/-- A tag that was made for a name where `around` is in effect around it, and was given attributes
and a text. -/
structure Tag.IsBuilt (around : Scope) (name : String) (attributes : List (String × String))
    (text : Option String) (tag : Tag) : Prop where
  /-- its name is the one that was asked for -/
  named : UniversalName.ofElement? around name = some ⟨tag.name.space, tag.name.localPart⟩
  /-- the name can be told -/
  told : tag.name.refusal? = none
  /-- a plain name is written as it was asked for exactly if its qualifier is favoured -/
  written : ∀ plain : Name, plain.IsPlain → plain.written = name →
    (tag.name.written = name ↔ around.Favours plain.qualifier)
  /-- the names of the attributes stand for something -/
  resolved : ∀ pair ∈ attributes, ∃ key,
    UniversalName.ofAttribute? (tag.declarations ++ around) pair.1 = .ok (some key)
  /-- there are the attributes that were given, with the values that were given last -/
  values : ∀ key, tag.value? key = Scope.assigned? (tag.declarations ++ around) key attributes
  /-- no attribute is there twice -/
  keys : tag.keys.Nodup
  /-- there's the text -/
  text : tag.text = text
  /-- if the name is plain, all that is declared around the tag is in effect for it -/
  extension : ∀ plain : Name, plain.IsPlain → plain.written = name →
    Scope.Extends (tag.declarations ++ around) around
  /-- and the same qualifiers are favoured, unless an attribute takes the default namespace -/
  favours : ∀ plain : Name, plain.IsPlain → plain.written = name → ∀ qualifier,
    around.Favours qualifier →
    (qualifier = none → ∀ pair ∈ attributes,
      ¬ Scope.NamesDefault (tag.declarations ++ around) pair.1) →
    Scope.Favours (tag.declarations ++ around) qualifier

/-- The text of a node that is given content. -/
def NodeContent.text? (content : NodeContent) : Option String :=
  if content.text.isEmpty then none else some content.text

/-- Elements each of which is all that the one before contains, without tails. -/
def Content.chain : List Tag → Content
  | [] => .nil
  | tag :: rest => .element tag (chain rest) none .nil

/-- The tags along a chain for steps that stands where `scope` is in effect, and the declarations
that are in effect for the last one. That one is given the content. -/
inductive AreBuilt (content : NodeContent) : Scope → List Step → List Tag → Scope → Prop where
  /-- the last one has the content -/
  | last {scope : Scope} {step : Step} {tag : Tag} :
    tag.IsBuilt scope step.name (step.attributes ++ content.attributes) content.text? →
    AreBuilt content scope [step] [tag] (tag.declarations ++ scope)
  /-- all others have what their steps ask for -/
  | next {scope inner : Scope} {step : Step} {steps : List Step} {tag : Tag} {tags : List Tag} :
    tag.IsBuilt scope step.name step.attributes none →
    AreBuilt content (tag.declarations ++ scope) steps tags inner →
    AreBuilt content scope (step :: steps) (tag :: tags) inner

/-! ## New tags -/

/-- What is written tells the qualifier, given the local part. -/
theorem Name.qualifier_of_written {one other : Option String} {localPart : String}
    {space : Option String}
    (h : Name.written ⟨one, localPart, space⟩ = Name.written ⟨other, localPart, space⟩) :
    one = other := by
  have hlist := congrArg String.toList h
  have hlength := congrArg List.length hlist
  cases one with
  | none =>
    cases other with
    | none => rfl
    | some qualifier =>
      simp [written] at hlength
      omega
  | some qualifier =>
    cases other with
    | none =>
      simp [written] at hlength
      omega
    | some other => simpa [written] using h

namespace Tag

variable {scope around : Scope} {attrs : List (String × String)} {raw tag : Tag}

/-- What is put somewhere has the name that it was made for, and nothing else. -/
theorem IsNew.exists_made {name : String} (h : raw.IsNew scope name) :
    ∃ made : Tag, made.IsMade scope name ∧ raw.name.localPart = made.name.localPart ∧
      raw.name.space = made.name.space ∧ raw.attributes = [] ∧ raw.text = none := by
  obtain ⟨made, minted, count, hmade, hraw⟩ := h
  have hnew := newTag_isMade hmade
  obtain ⟨hl, hs, ha, ht⟩ := rebind_bare (by exact hnew.attributes) hraw
  exact ⟨made, hnew, hl, hs, ha, ht.trans hnew.text⟩

/-- A qualifier is favoured if an element that is made for a plain name is written with it. -/
theorem IsNew.favours {plain : Name} (hp : plain.IsPlain) (h : raw.IsNew scope plain.written)
    (hw : raw.name.written = plain.written) : scope.Favours plain.qualifier := by
  intro space declaration hs hd
  obtain ⟨made, minted, count, hmade, hraw⟩ := h
  have hnamed := (newTag_isMade hmade).named
  rcases newTag_of_isPlain hp hmade with ⟨known, hk, -, rfl⟩ | ⟨hq, -, rfl⟩
  · obtain rfl : space = known := Option.some.inj (hs.symm.trans hk)
    obtain ⟨other, ho, hb⟩ := rebind_of_space? hs count raw.id plain.localPart
    obtain rfl : declaration = other := Option.some.inj (hd.symm.trans ho)
    rw [hb] at hraw
    rw [← show _ = raw from congrArg Element.tag hraw] at hw
    exact Name.qualifier_of_written hw
  · -- there would be a namespace
    rw [UniversalName.ofElement?, splitName_written hp, hs] at hnamed
    cases hnamed

/-- What a tag has that was made for a name and was given attributes. -/
theorem IsNew.isBuilt {name : String} (h : raw.IsNew scope name) (hs : raw.Sets scope attrs tag) :
    tag.IsBuilt scope name attrs none := by
  obtain ⟨made, hmade, hl, hspace, ha, ht⟩ := h.exists_made
  refine ⟨?_, ?_, fun plain hp hw => ?_, hs.exists_key (.refl _), fun key => ?_,
    hs.nodup_keys (by simp [keys, ha]), hs.text_eq.trans ht, fun plain hp hw => ?_,
    fun plain hp hw qualifier hf hn => ?_⟩
  · rw [hs.name_eq, hl, hspace]
    exact hmade.named
  · have hsame := Name.refusal?_eq raw.name.qualifier made.name.qualifier raw.name.localPart
      raw.name.space
    rw [hl, hspace] at hsame
    rw [hs.name_eq, ← hmade.told, ← hsame, ← hl, ← hspace]
  · subst hw
    rw [hs.name_eq]
    exact ⟨h.favours hp, (h.of_isPlain hp).2.2⟩
  · rw [hs.value?_eq (.refl _), value?, ha]
    exact Option.or_none
  · subst hw
    have hextension := hs.extension
    rwa [(h.of_isPlain hp).2.1] at hextension
  · subst hw
    obtain ⟨-, hd, -⟩ := h.of_isPlain hp
    refine hs.favours (.refl _) (by simp [hd]) ?_ hn
    rwa [hd]

theorem IsBuilt.setText {name : String} {text : Option String}
    (h : tag.IsBuilt around name attrs text) (new : Option String) :
    ({ tag with text := new } : Tag).IsBuilt around name attrs new :=
  { h with text := rfl }

/-- What it has when it was given content then. -/
theorem IsNew.isBuilt_of_receives {name : String} {content : NodeContent} {full : Tag}
    (h : raw.IsNew scope name) (hs : raw.Sets scope attrs tag)
    (hr : tag.Receives scope content full) :
    full.IsBuilt scope name (attrs ++ content.attributes) content.text? := by
  obtain ⟨given, hgiven, rfl⟩ := hr
  have hbuilt := h.isBuilt (hs.append hgiven)
  rw [NodeContent.text?]
  split
  · exact hbuilt
  · exact hbuilt.setText _

/-- It meets the constraints of its step if these can be satisfied and keep values, and none of them
is on what it was given besides. -/
theorem IsBuilt.judge_eq_true {step : Step} {more : List (String × String)} {text : Option String}
    (h : tag.IsBuilt around step.name (step.attributes ++ more) text)
    (hs : step.IsSatisfiable (tag.declarations ++ around))
    (hk : step.KeepsValues (tag.declarations ++ around))
    (hm : ∀ constraint ∈ step.constraints, ∀ pair ∈ more,
      UniversalName.ofAttribute? (tag.declarations ++ around) constraint.name ≠
        UniversalName.ofAttribute? (tag.declarations ++ around) pair.1) :
    tag.judge (tag.declarations ++ around) step.constraints = .ok true := by
  refine Tag.judge_eq_true fun constraint hc => ?_
  obtain ⟨key, hn⟩ := h.resolved (constraint.name, constraint.value)
    (List.mem_append_left _ (List.mem_map_of_mem hc))
  have hnone : Scope.assigned? (tag.declarations ++ around) key more = none :=
    Scope.assigned?_eq_none_iff.mpr fun other ho he => hm constraint hc other ho (hn.trans he.symm)
  refine ⟨key, hn, ?_⟩
  rw [h.values, Scope.assigned?_append, hnone, Option.none_or]
  exact step.isMetBy_assigned hs hk hc hn

end Tag

/-! ## Chains -/

@[simp] theorem Content.ids_chain (tags : List Tag) : (chain tags).ids = tags.map Tag.id := by
  induction tags with
  | nil => rfl
  | cons tag rest ih => simp [chain, ids, ih]

theorem Content.elements_chain (tag : Tag) (rest : List Tag) :
    (chain (tag :: rest)).elements = [⟨tag, chain rest⟩] := rfl

/-- A branch is a chain of what was built for its steps. -/
theorem IsBranch.exists_chain {content : NodeContent} {scope inner : Scope} {steps : List Step}
    {element : Element} {node : NodeId} (h : IsBranch content scope steps element node inner) :
    ∃ tags, .single element none = Content.chain tags ∧ AreBuilt content scope steps tags inner ∧
      tags.getLast?.map Tag.id = some node := by
  induction h with
  | last hnew hsets hreceives =>
    exact ⟨[_], rfl, .last (hnew.isBuilt_of_receives hsets hreceives), rfl⟩
  | @next scope inner step raw tag steps below node hnew hsets _ ih =>
    obtain ⟨tags, hchain, hbuilt, hlast⟩ := ih
    refine ⟨tag :: tags, ?_, .next (hnew.isBuilt hsets) hbuilt, ?_⟩
    · rw [Content.chain, ← hchain]
      rfl
    · rw [List.getLast?_cons_of_ne_nil ?_, hlast]
      rintro rfl
      cases hlast

namespace AreBuilt

variable {content : NodeContent} {scope inner : Scope} {steps : List Step} {tags : List Tag}

theorem ne_nil (h : AreBuilt content scope steps tags inner) : steps ≠ [] ∧ tags ≠ [] := by
  cases h <;> exact ⟨List.cons_ne_nil _ _, List.cons_ne_nil _ _⟩

theorem length_eq (h : AreBuilt content scope steps tags inner) : tags.length = steps.length := by
  induction h with
  | last _ => rfl
  | next _ _ ih => exact congrArg (· + 1) ih

/-- Each tag of a chain stands where it was built. -/
theorem exists_setting? (h : AreBuilt content scope steps tags inner) (hc : content.attributes = [])
    (hn : (tags.map Tag.id).Nodup) (parent : Option NodeId) :
    ∀ pair ∈ steps.zip tags, ∃ setting text,
      (Content.chain tags).setting? pair.2.id parent scope = some setting ∧
        setting.element.tag = pair.2 ∧
        pair.2.IsBuilt setting.around pair.1.name pair.1.attributes text := by
  induction h generalizing parent with
  | last hbuilt =>
    rw [hc, List.append_nil] at hbuilt
    intro pair hm
    obtain rfl := List.mem_singleton.mp hm
    exact ⟨_, _, if_pos rfl, rfl, hbuilt⟩
  | @next scope inner step steps tag tags hbuilt _ ih =>
    rw [List.map_cons, List.nodup_cons] at hn
    intro pair hm
    rcases List.mem_cons.mp hm with rfl | hm
    · exact ⟨_, _, if_pos rfl, rfl, hbuilt⟩
    · obtain ⟨setting, text, hset, htag⟩ := ih hn.2 (some tag.id) pair hm
      have hne : tag.id ≠ pair.2.id := fun he =>
        hn.1 (he ▸ List.mem_map_of_mem (List.of_mem_zip hm).2)
      refine ⟨setting, text, ?_, htag⟩
      rw [Content.chain, Content.setting?, if_neg hne, hset, Option.some_or]

theorem extension (h : AreBuilt content scope steps tags inner)
    (hp : ∀ step ∈ steps, ∃ plain : Name, plain.IsPlain ∧ plain.written = step.name) :
    inner.Extends scope := by
  induction h with
  | last hbuilt =>
    obtain ⟨plain, hplain, hw⟩ := hp _ List.mem_cons_self
    exact hbuilt.extension plain hplain hw
  | next hbuilt _ ih =>
    obtain ⟨plain, hplain, hw⟩ := hp _ List.mem_cons_self
    exact (ih fun step hm => hp step (List.mem_cons_of_mem _ hm)).trans
      (hbuilt.extension plain hplain hw)

/-- All tags are written as it was asked for if that is favoured where the chain stands, and the
default namespace is kept along it. The induction is on the chain: what is favoured for a tag is
what the one above leaves to it. -/
theorem written_eq (h : AreBuilt content scope steps tags inner)
    (hp : ∀ step ∈ steps, ∃ plain : Name, plain.IsPlain ∧ plain.written = step.name)
    (hk : KeepDefault inner steps)
    (hf : ∀ step ∈ steps, ∀ plain : Name, plain.IsPlain → plain.written = step.name →
      scope.Favours plain.qualifier) :
    ∀ pair ∈ steps.zip tags, pair.2.name.written = pair.1.name := by
  induction h with
  | last hbuilt =>
    obtain ⟨plain, hplain, hw⟩ := hp _ List.mem_cons_self
    intro pair hm
    obtain rfl := List.mem_singleton.mp hm
    exact (hbuilt.written plain hplain hw).mpr (hf _ List.mem_cons_self plain hplain hw)
  | @next scope inner step steps tag tags hbuilt hbelow ih =>
    obtain ⟨plain, hplain, hw⟩ := hp _ List.mem_cons_self
    have hp := fun step hm => hp step (List.mem_cons_of_mem _ hm)
    obtain ⟨hclear, hk⟩ := List.pairwise_cons.mp hk
    intro pair hm
    rcases List.mem_cons.mp hm with rfl | hm
    · exact (hbuilt.written plain hplain hw).mpr (hf _ List.mem_cons_self plain hplain hw)
    · refine ih hp hk (fun later hl other ho hwritten => ?_) pair hm
      refine hbuilt.favours plain hplain hw _
        (hf later (List.mem_cons_of_mem _ hl) other ho hwritten) fun hq pair hpair hn => ?_
      obtain ⟨constraint, hc, rfl⟩ := List.mem_map.mp hpair
      exact hclear later hl (hwritten ▸ ho.colon_notMem hq) constraint hc
        (hn.mono (hbelow.extension hp))

/-- If all tags are written as it was asked for, a search for the steps comes upon the last one, and
upon it alone. -/
theorem sightings (h : AreBuilt content scope steps tags inner) (hc : AreConsistent inner content steps)
    (hw : ∀ pair ∈ steps.zip tags, pair.2.name.written = pair.1.name) {node : NodeId}
    (hl : tags.getLast?.map Tag.id = some node) (above : Tag) :
    Element.sightings scope ⟨above, .chain tags⟩ steps = [.ok node] := by
  induction h generalizing above with
  | last hbuilt =>
    obtain ⟨hs, hk⟩ := Step.satisfiable_of_pairwise (hc.pairwise List.mem_cons_self)
    have hj := hbuilt.judge_eq_true hs hk (hc.attributes _ rfl)
    rw [Element.sightings, Content.elements_chain, List.flatMap_singleton,
      Step.visit_of_judge _ hbuilt.told (hw _ List.mem_cons_self) hj]
    exact congrArg (fun id => [Except.ok id]) (Option.some.inj hl)
  | @next scope inner step steps tag tags hbuilt hbelow ih =>
    obtain ⟨hsteps, htags⟩ := hbelow.ne_nil
    have htail := hc.tail hsteps
    have hext := hbelow.extension fun step hm => (htail.names step hm).2
    obtain ⟨hs, hk⟩ := Step.satisfiable_of_pairwise
      (hext.pairwise_ofAttribute? hbuilt.resolved (hc.pairwise List.mem_cons_self))
    rw [← List.append_nil step.attributes] at hbuilt
    have hj := hbuilt.judge_eq_true hs hk (by simp)
    rw [List.getLast?_cons_of_ne_nil htags] at hl
    rw [Element.sightings, Content.elements_chain, List.flatMap_singleton,
      Step.visit_of_judge _ hbuilt.told (hw _ List.mem_cons_self) hj]
    exact ih htail (fun pair hm => hw pair (List.mem_cons_of_mem _ hm)) hl _

end AreBuilt

end MarkupPath
