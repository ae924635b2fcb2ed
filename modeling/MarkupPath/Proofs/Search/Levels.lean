import MarkupPath.Proofs.Search.DocumentOrder
import MarkupPath.Proofs.Search.Listing

/-!
# Paths that list nodes in document order

Which paths list their matches in document order depends on the trees where they are searched, except
for those whose steps come in stages: first upwards, then down to children, then to descendants at
any depth, which is done once (`Path.IsStaged`). Main statement: an iterator over such a path gives
nodes in document order, none of them twice, on all trees (`Iterator.keepsDocumentOrder`).

On the way up there's one node at most. On the way down all nodes are at one depth (`AreLevel`), so
none is contained in another one, and those below them don't mix.
-/

namespace MarkupPath

/-! ## Levels -/

namespace Position

/-- The number of ancestors. -/
def depth (position : Position) : Nat := position.address.length

/-- What a node contains is deeper down. -/
theorem depth_lt_of_mem_descendants {position below : Position} (h : below ∈ position.descendants) :
    position.depth < below.depth := by
  have hdeeper (parent : Position) (index : Nat) (content : Content) :
      ∀ node ∈ allBelowIn parent index content, parent.depth < node.depth := by
    induction content generalizing parent index with
    | nil => simp [allBelowIn]
    | element tag content tail rest ihc ihr =>
      intro node hm
      have hchild : parent.depth < (child parent index ⟨tag, content⟩ rest).depth :=
        Nat.lt_succ_self _
      rcases List.mem_cons.mp hm with rfl | hm
      · exact hchild
      · rcases List.mem_append.mp hm with hm | hm
        · exact Nat.lt_trans hchild (ihc _ 0 node hm)
        · exact ihr parent _ node hm
    | comment text tail rest ih => exact ih parent index
    | instruction target data tail rest ih => exact ih parent index
  exact hdeeper position 0 _ below h

theorem depth_of_mem_children {position below : Position} (h : below ∈ position.children) :
    below.depth = position.depth + 1 := by
  have hchild (parent : Position) (index : Nat) (content : Content) :
      ∀ node ∈ allIn parent index content, node.depth = parent.depth + 1 := by
    induction content generalizing index with
    | nil => simp [allIn]
    | element tag content tail rest _ ih =>
      intro node hm
      rcases List.mem_cons.mp hm with rfl | hm
      · rfl
      · exact ih _ node hm
    | comment text tail rest ih => exact ih index
    | instruction target data tail rest ih => exact ih index
  exact hchild position 0 _ below h

end Position

/-- Nodes that are all at one depth. -/
def AreLevel (nodes : List Position) : Prop := ∃ depth, ∀ node ∈ nodes, node.depth = depth

/-- Different nodes at one depth are apart. -/
theorem AreLevel.areApart {nodes : List Position} (h : AreLevel nodes) (hn : nodes.Nodup) :
    AreApart nodes := by
  obtain ⟨depth, h⟩ := h
  have hall : nodes.Pairwise fun node other => node.depth = other.depth :=
    List.pairwise_of_forall_mem_list fun node hm other ho => (h node hm).trans (h other ho).symm
  apply (hn.and hall).imp
  rintro node other ⟨hne, hd⟩
  refine ⟨hne, fun hm => ?_, fun hm => ?_⟩
  · exact Nat.ne_of_lt (Position.depth_lt_of_mem_descendants hm) hd
  · exact Nat.ne_of_lt (Position.depth_lt_of_mem_descendants hm) hd.symm

theorem areLevel_of_length_le {nodes : List Position} (h : nodes.length ≤ 1) : AreLevel nodes := by
  cases nodes with
  | nil => exact ⟨0, nofun⟩
  | cons node rest =>
    obtain rfl : rest = [] := List.length_eq_zero_iff.mp (by simpa using h)
    exact ⟨node.depth, fun other hm => by rw [List.mem_singleton.mp hm]⟩

theorem areApart_of_length_le {nodes : List Position} (h : nodes.length ≤ 1) : AreApart nodes := by
  cases nodes with
  | nil => exact .nil
  | cons node rest =>
    obtain rfl : rest = [] := List.length_eq_zero_iff.mp (by simpa using h)
    exact List.pairwise_singleton _ _

/-! ## Stages -/

namespace Step

variable {step : Step} {starts : List Position}

/-- A step to the node itself or upwards gets from one node to one at most. -/
theorem length_flatMap_selects (h : step.axis = .self ∨ step.axis = .parent)
    (hs : starts.length ≤ 1) : (starts.flatMap step.selects).length ≤ 1 := by
  have hone (context : Position) : (step.selects context).length ≤ 1 := by
    apply (step.selects_sublist context).length_le.trans
    rcases h with hx | hx
    · simp [reachable, hx]
    · rw [reachable, hx]
      cases context.parent? <;> simp
  cases starts with
  | nil => exact Nat.zero_le _
  | cons context rest =>
    obtain rfl : rest = [] := List.length_eq_zero_iff.mp (by simpa using hs)
    rw [List.flatMap_singleton]
    exact hone context

/-- A step to the nodes themselves or to their children gets from one level to one level. -/
theorem areLevel_flatMap_selects
    (h : step.axis = .children ∨ step.axis = .anyChild ∨ step.axis = .self)
    (hs : AreLevel starts) : AreLevel (starts.flatMap step.selects) := by
  obtain ⟨depth, hs⟩ := hs
  have hreach {node : Position} (hm : node ∈ starts.flatMap step.selects) :
      ∃ context ∈ starts, node ∈ step.reachable context := by
    obtain ⟨context, hc, hm⟩ := List.mem_flatMap.mp hm
    exact ⟨context, hc, (step.selects_sublist context).subset hm⟩
  have hdown (hx : ∀ context, step.reachable context = context.children) :
      AreLevel (starts.flatMap step.selects) := by
    refine ⟨depth + 1, fun node hm => ?_⟩
    obtain ⟨context, hc, hm⟩ := hreach hm
    rw [hx] at hm
    rw [Position.depth_of_mem_children hm, hs context hc]
  rcases h with hx | hx | hx
  · exact hdown fun context => by rw [reachable, hx]
  · exact hdown fun context => by rw [reachable, hx]
  · refine ⟨depth, fun node hm => ?_⟩
    obtain ⟨context, hc, hm⟩ := hreach hm
    rw [reachable, hx] at hm
    rw [List.mem_singleton.mp hm, hs context hc]

end Step

section

variable {nodes starts : List Position} {steps : List Step}

/-- The order is kept by steps if it's kept by the first ones and, from what these select, by the
others. -/
theorem keepOrder_append {more : List Step} :
    KeepOrder (steps ++ more) starts ↔
      KeepOrder steps starts ∧
        KeepOrder more (starts.flatMap fun context => selected context steps) := by
  induction steps generalizing starts with
  | nil => simp [KeepOrder, selected]
  | cons step steps ih => simp [KeepOrder, selected, ih, and_assoc, List.flatMap_assoc]

/-- The way up: from one node to one at most. -/
theorem keepOrder_upward (h : ∀ step ∈ steps, step.axis = .self ∨ step.axis = .parent)
    (hs : starts.length ≤ 1) :
    KeepOrder steps starts ∧
      (starts.flatMap fun context => selected context steps).length ≤ 1 := by
  induction steps generalizing starts with
  | nil =>
    simp only [selected, List.flatMap_singleton']
    exact ⟨trivial, hs⟩
  | cons step steps ih =>
    have hx := h step List.mem_cons_self
    have hfound := Step.length_flatMap_selects hx hs
    obtain ⟨hk, hl⟩ := ih (fun step hm => h step (List.mem_cons_of_mem _ hm)) hfound
    rw [List.flatMap_assoc] at hl
    refine ⟨⟨?_, hk⟩, hl⟩
    rw [Step.KeepsOrder]
    rcases hx with hx | hx <;> rw [hx]
    · trivial
    · exact areApart_of_length_le hfound

/-- The way down: from one level to one level. -/
theorem keepOrder_downward
    (h : ∀ step ∈ steps, step.axis = .children ∨ step.axis = .anyChild ∨ step.axis = .self)
    (ho : IsPreorder none nodes) (hn : nodes.Nodup) (hs : starts.Sublist nodes)
    (hl : AreLevel starts) :
    KeepOrder steps starts ∧ AreLevel (starts.flatMap fun context => selected context steps) := by
  induction steps generalizing starts with
  | nil =>
    simp only [selected, List.flatMap_singleton']
    exact ⟨trivial, hl⟩
  | cons step steps ih =>
    have hx := h step List.mem_cons_self
    have hk : step.KeepsOrder starts := by
      rw [Step.KeepsOrder]
      rcases hx with hx | hx | hx <;> rw [hx]
      · exact hl.areApart (hs.nodup hn)
      · exact hl.areApart (hs.nodup hn)
      · trivial
    obtain ⟨hrest, hlevel⟩ := ih (fun step hm => h step (List.mem_cons_of_mem _ hm))
      (Step.flatMap_selects_sublist ho hs hk) (Step.areLevel_flatMap_selects hx hl)
    rw [List.flatMap_assoc] at hlevel
    exact ⟨⟨hk, hrest⟩, hlevel⟩

/-- Descendants at any depth: once, from nodes that are apart. -/
theorem keepOrder_deep (hl : steps.length ≤ 1) (h : ∀ step ∈ steps, step.axis = .descendants)
    (ha : AreApart starts) : KeepOrder steps starts := by
  cases steps with
  | nil => trivial
  | cons step rest =>
    obtain rfl : rest = [] := List.length_eq_zero_iff.mp (by simpa using hl)
    refine ⟨?_, trivial⟩
    rw [Step.KeepsOrder, h step List.mem_cons_self]
    exact ha

/-- The nodes themselves, some of them. -/
theorem keepOrder_here (h : ∀ step ∈ steps, step.axis = .self) : KeepOrder steps starts := by
  induction steps generalizing starts with
  | nil => trivial
  | cons step steps ih =>
    refine ⟨?_, ih fun step hm => h step (List.mem_cons_of_mem _ hm)⟩
    rw [Step.KeepsOrder, h step List.mem_cons_self]
    trivial

end

namespace Path

/-- The steps behind the anchor step lead upwards, then down to children, then at most once to
descendants at any depth. Where nodes are found, some of them can be picked out in between. -/
def IsStaged (path : Path) : Prop :=
  ∃ upward downward deep here, path.steps.drop 1 = upward ++ downward ++ deep ++ here ∧
    (∀ step ∈ upward, step.axis = .self ∨ step.axis = .parent) ∧
    (∀ step ∈ downward, step.axis = .children ∨ step.axis = .anyChild ∨ step.axis = .self) ∧
    deep.length ≤ 1 ∧ (∀ step ∈ deep, step.axis = .descendants) ∧
    ∀ step ∈ here, step.axis = .self

variable {forest : Forest} {path : Path}

/-- A path in stages keeps the order, wherever it starts. -/
theorem IsStaged.keepsOrder (h : path.IsStaged) (hf : forest.IsSound)
    (ha : ∀ anchor, path.anchor = some anchor → anchor ∈ forest.positions) :
    path.KeepsOrder := by
  obtain ⟨upward, downward, deep, here, he, hup, hdown, hl, hdeep, hhere⟩ := h
  have ho := forest.positions_isPreorder
  have hn : forest.positions.Nodup := by
    have := hf.nodup
    rw [← forest.ids_positions] at this
    exact this.of_map _
  have hstarts : path.anchor.toList.Sublist forest.positions := by
    cases hp : path.anchor with
    | none => exact List.nil_sublist _
    | some anchor => exact List.singleton_sublist.mpr (ha anchor hp)
  have hone : path.anchor.toList.length ≤ 1 := by cases path.anchor <;> simp
  -- from stage to stage the nodes are in document order, and from the second one on at one depth
  obtain ⟨hkup, hone⟩ := keepOrder_upward hup hone
  have hfound := flatMap_selected_sublist ho hstarts hkup
  obtain ⟨hkdown, hlevel⟩ := keepOrder_downward hdown ho hn hfound (areLevel_of_length_le hone)
  have hfound := flatMap_selected_sublist ho hfound hkdown
  have hkdeep := keepOrder_deep hl hdeep (hlevel.areApart (hfound.nodup hn))
  rw [KeepsOrder, he, List.append_assoc, List.append_assoc]
  simp only [keepOrder_append]
  exact ⟨hkup, hkdown, hkdeep, keepOrder_here hhere⟩

end Path

/-! ## Iterators -/

namespace Listing

/-- Advancing adds nothing to what is still to be given. -/
theorem unpulled_advance_sublist (listing : Listing) :
    listing.advance.unpulled.Sublist listing.unpulled := by
  have hleft : listing.advance.unpulled = (listing.nodes.drop listing.index).tail.tail := by
    rw [← drop_advance, List.tail_drop]
    rfl
  rw [hleft, unpulled]
  split
  · exact (List.tail_sublist _).trans (List.tail_sublist _)
  · rw [← List.tail_drop]
    exact List.tail_sublist _

/-- The nodes that are given are some of those that are still to be given, in their order. -/
theorem given_sublist (listing : Listing) (moves : List Move) :
    (listing.respond moves).1.reduceOption.Sublist listing.unpulled := by
  induction moves generalizing listing with
  | nil => exact List.nil_sublist _
  | cons move moves ih =>
    cases move with
    | advance => exact (ih listing.advance).trans listing.unpulled_advance_sublist
    | next =>
      obtain ⟨hfound, hleft⟩ := listing.next_eq
      have hrest := ih listing.next.2
      rw [hleft] at hrest
      change (listing.next.1 :: (listing.next.2.respond moves).1).reduceOption.Sublist _
      rw [hfound]
      cases hu : listing.unpulled with
      | nil =>
        rw [hu] at hrest
        exact hrest
      | cons node rest =>
        rw [hu] at hrest
        exact hrest.cons_cons node

theorem unpulled_start (nodes : List Position) : (start nodes).unpulled = nodes := by
  cases nodes <;> rfl

end Listing

/-- An iterator over a path in stages gives nodes strictly in document order, whatever it is asked
for in between; and unless a lookup is refused, iterating over it to the end gives all nodes that the
path selects. -/
theorem Iterator.keepsDocumentOrder {forest : Forest} {path : Path} (h : forest.IsSound)
    (hp : path.steps ≠ [])
    (ha : ∀ anchor, path.anchor = some anchor → anchor ∈ forest.positions) (hs : path.IsStaged) :
    (∀ iterator moves found, (start path).outcome = .ok iterator →
      ((respond moves).run iterator).1.outcome = .ok found →
      (found.reduceOption.map Position.id).Pairwise forest.Precedes ∧
        (found.reduceOption.map Position.id).Nodup) ∧
    (path.IsReadable → ∃ iterator, (start path).outcome = .ok iterator ∧
      (∀ limit, path.selected.length < limit →
        ((collect limit).run iterator).1.outcome = .ok path.selected) ∧
      (path.selected.map Position.id).Pairwise forest.Precedes ∧
      (path.selected.map Position.id).Nodup) := by
  have hall := Path.selected_sublist_of_mem ha (hs.keepsOrder h ha)
  obtain ⟨hanswers, -, hread⟩ := answers_selected hp
  refine ⟨?_, ?_⟩
  · intro iterator moves found ho hm
    obtain ⟨⟨hf, -⟩, -⟩ := hanswers iterator moves found ho hm
    obtain rfl := Except.ok.inj (hf.symm.trans hm)
    have hgiven := (Listing.start path.selected).given_sublist moves
    rw [Listing.unpulled_start] at hgiven
    have hsub := (hgiven.map Position.id).trans hall
    exact ⟨Forest.pairwise_precedes hsub, hsub.nodup h.nodup⟩
  · intro hr
    obtain ⟨iterator, ho, -, hcollect⟩ := hread hr
    exact ⟨iterator, ho, hcollect 0, Forest.pairwise_precedes hall, hall.nodup h.nodup⟩

/-- A path from the inner one of two nested nodes up to the root, down to the outer one and to those
below it that have a certain name. -/
def stagedPath : Path where
  anchor := nestedForest.position? ⟨2⟩
  steps := [{}, { axis := .parent }, { axis := .self, name := "a" }, { axis := .parent },
    { name := "a" }, { axis := .descendants }, { axis := .self, name := "b" }]

theorem keepsDocumentOrder_stagedPath :
    nestedForest.IsSound ∧ stagedPath.IsStaged ∧
      stagedPath.selected.map Position.id = [⟨3⟩, ⟨4⟩] ∧
      ∃ iterator, (Iterator.start stagedPath).outcome = .ok iterator ∧
        ((Iterator.collect 3).run iterator).1.outcome = .ok stagedPath.selected ∧
        (stagedPath.selected.map Position.id).Pairwise nestedForest.Precedes := by
  have ha : ∀ anchor, stagedPath.anchor = some anchor → anchor ∈ nestedForest.positions :=
    fun anchor ha => Forest.mem_positions nestedForest_isSound
      (show nestedForest.position? ⟨2⟩ = some anchor from ha)
  have hs : stagedPath.IsStaged :=
    ⟨[{ axis := .parent }, { axis := .self, name := "a" }, { axis := .parent }], [{ name := "a" }],
      [{ axis := .descendants }], [{ axis := .self, name := "b" }], rfl, by decide, by decide,
      by decide, by decide, by decide⟩
  have hsteps : stagedPath.steps ≠ [] := by decide
  have hread : stagedPath.IsReadable := by decide
  have hselected : stagedPath.selected.map Position.id = [⟨3⟩, ⟨4⟩] := by decide
  have hlength : stagedPath.selected.length < 3 := by decide
  obtain ⟨-, hyields⟩ := Iterator.keepsDocumentOrder nestedForest_isSound hsteps ha hs
  obtain ⟨iterator, ho, hcollect, hall, -⟩ := hyields hread
  exact ⟨nestedForest_isSound, hs, hselected, iterator, ho, hcollect 3 hlength, hall⟩

end MarkupPath
