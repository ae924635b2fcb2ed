import MarkupPath.Proofs.Forest.Ancestry
import MarkupPath.Proofs.Search.Lookups
import MarkupPath.Proofs.Search.Namesakes

/-!
# Walking through a subtree to its end

Who keeps asking for the next node in the subtree below `base` makes a walk (`Walks`). It comes to
an end, and it visits what is below `base`, nothing else, each node once and in document order
(`Forest.IsSound.traverses`). It doesn't matter where in a tree that subtree is, as what comes
behind it is never entered.

A search for a name that is resumed at any node of the walk goes on from there. It looks at the
nodes that are still to come up to the first one that passes the test (`Step.asked`), and finds
that one, unless one of them doesn't tell its name.

The record of a walk is the final part of the subtree that is left: each move takes its head
(`outcome_nextInSubtree_of_suffix`), so the induction for walks is on that part.
-/

namespace MarkupPath

namespace Position

variable {base position node : Position} {later visited : List Position}

/-! ## What is below a node -/

theorem self_mem_ancestry (position : Position) : position ∈ position.ancestry := by
  cases position <;> simp [ancestry]

/-- A node isn't one of its own descendants. -/
theorem self_notMem_descendants (position : Position) : position ∉ position.descendants := by
  intro h
  obtain ⟨first, more, ha⟩ := exists_ancestry_of_mem_descendants h
  simp at ha

/-! ## Walks -/

/-- The nodes that are visited from a position on until there's no next one in the subtree below
`base`. -/
inductive Walks (base : Position) : Position → List Position → Prop where
  /-- there's no next node -/
  | ends {position : Position} :
    (nextInSubtree base position).plain.outcome = .ok none → Walks base position []
  /-- the next node is visited, and what follows from there -/
  | next {position next : Position} {visited : List Position} :
    (nextInSubtree base position).plain.outcome = .ok (some next) → Walks base next visited →
    Walks base position (next :: visited)

/-- At each node of a subtree, what is left of it is still to come. -/
theorem laterWithin_of_suffix_withDescendants (h : position :: later <:+ base.withDescendants) :
    base.address <:+ position.address ∧ laterWithin base position = later := by
  rcases List.suffix_cons_iff.mp h with h | h
  · obtain ⟨rfl, rfl⟩ := List.cons.inj h
    exact ⟨List.suffix_refl _, laterWithin_self _⟩
  · exact ⟨address_suffix_of_mem (h.mem List.mem_cons_self), (laterWithin_of_suffix h).symm⟩

theorem outcome_nextInSubtree_of_suffix (h : position :: later <:+ base.withDescendants) :
    (nextInSubtree base position).plain.outcome = .ok later.head? := by
  obtain ⟨ha, hl⟩ := laterWithin_of_suffix_withDescendants h
  rw [outcome_nextInSubtree ha, hl]

/-- A walk visits all that is left, and then it ends. -/
theorem walks_iff_of_suffix (h : position :: later <:+ base.withDescendants) :
    Walks base position visited ↔ visited = later := by
  have hnext := outcome_nextInSubtree_of_suffix h
  induction later generalizing position visited with
  | nil =>
    constructor
    · intro hw
      cases hw with
      | ends => rfl
      | next hn => cases hn.symm.trans hnext
    · rintro rfl
      exact .ends hnext
  | cons first later ih =>
    have hleft : first :: later <:+ base.withDescendants := (List.suffix_cons _ _).trans h
    have ihfirst {visited : List Position} : Walks base first visited ↔ visited = later :=
      ih hleft (outcome_nextInSubtree_of_suffix hleft)
    constructor
    · intro hw
      cases hw with
      | ends hn => cases hn.symm.trans hnext
      | next hn hw =>
        cases hn.symm.trans hnext
        rw [ihfirst.mp hw]
    · rintro rfl
      exact .next hnext (ihfirst.mpr rfl)

end Position

/-! ## Searches along a walk -/

namespace Step

/-- The nodes that are asked for their names until one passes the test. -/
def asked (step : Step) (nodes : List Position) : List Position :=
  nodes.take (nodes.findIdx (fun node => step.matchesName node.name) + 1)

theorem asked_cons (step : Step) (node : Position) (nodes : List Position) :
    step.asked (node :: nodes) =
      node :: if step.matchesName node.name then [] else step.asked nodes := by
  rw [asked, List.findIdx_cons, List.take_succ_cons]
  cases step.matchesName node.name <;> rfl

/-- The search for a name finds the first node that passes the test among those that are left, if
all names that it asks for are told. -/
theorem outcome_followingDescendant_of_suffix (step : Step) {base position : Position}
    {later : List Position} (h : position :: later <:+ base.withDescendants) :
    (step.followingDescendant base position).plain.outcome =
      match (step.asked later).findSome? Position.refusal? with
      | none => .ok (later.find? fun node => step.matchesName node.name)
      | some refusal => .error (.lookup refusal) := by
  obtain ⟨ha, hl⟩ := Position.laterWithin_of_suffix_withDescendants h
  induction later generalizing position with
  | nil =>
    rw [outcome_followingDescendant step ha, hl]
    rfl
  | cons first later ih =>
    have hleft : first :: later <:+ base.withDescendants := (List.suffix_cons _ _).trans h
    obtain ⟨hfa, hfl⟩ := Position.laterWithin_of_suffix_withDescendants hleft
    rw [outcome_followingDescendant step ha, hl, List.head?_cons, asked_cons,
      List.findSome?_cons]
    simp only [Position.tellName]
    cases hr : first.refusal? with
    | some refusal => rfl
    | none =>
      simp only [pure_bind]
      cases hm : step.matchesName first.name with
      | true => simp [hm]
      | false =>
        rw [List.find?_cons_of_neg (by simp [hm])]
        exact ih hleft hfa hfl

end Step

/-! ## Subtrees of a forest -/

namespace Forest

variable {forest : Forest} {base position : Position}

/-- The walk through the subtree below an element, and what searches that are resumed on it find. -/
structure Traverses (forest : Forest) (base : Position) (visited : List Position) : Prop where
  /-- it comes to an end, and these nodes are visited -/
  walks : ∀ nodes, base.Walks base nodes ↔ nodes = visited
  /-- they are the elements below -/
  below : ∀ node, node ∈ visited ↔ node ∈ forest.positions ∧ base ∈ node.ancestry ∧ node ≠ base
  /-- none is visited twice -/
  once : (visited.map Position.id).Nodup
  /-- each one comes in front of what it contains, and that in front of its next sibling -/
  order : IsPreorder (some base) visited
  /-- from each of them a search finds the first one behind it that passes the test, if those that
  are asked tell their names -/
  resumed : ∀ (step : Step) (node : Position) (later : List Position),
    node :: later <:+ base :: visited →
    (step.followingDescendant base node).plain.outcome =
      match (step.asked later).findSome? Position.refusal? with
      | none => .ok (later.find? fun next => step.matchesName next.name)
      | some refusal => .error (.lookup refusal)

/-- The descendants of an element are the elements that have it among their ancestors. By induction
along the ancestors of the other element: with the parent all that it contains is below. -/
theorem mem_descendants_iff (hb : base ∈ forest.positions) (hp : position ∈ forest.positions) :
    position ∈ base.descendants ↔ base ∈ position.ancestry ∧ position ≠ base := by
  constructor
  · intro hm
    obtain ⟨first, more, ha⟩ := Position.exists_ancestry_of_mem_descendants hm
    refine ⟨?_, ?_⟩
    · rw [ha]
      exact List.mem_append_left _ base.self_mem_ancestry
    · rintro rfl
      exact position.self_notMem_descendants hm
  · rintro ⟨ha, hne⟩
    induction position with
    | top element => exact absurd (List.mem_singleton.mp ha).symm hne
    | child parent index element following ih =>
      have habove : base ∈ parent.ancestry :=
        (List.mem_append.mp ha).resolve_right fun hm => hne (List.mem_singleton.mp hm).symm
      have hup : (Position.child parent index element following).parent? = some parent := rfl
      obtain ⟨hparent, hm⟩ :=
        (forest.positions_isPreorder.mem_descendants_of_parent hp hup).resolve_left nofun
      by_cases he : parent = base
      · rwa [← he]
      · exact (base.descendants_isPreorder.descendants_sublist (ih hparent habove he)).subset hm

/-- The subtree below an element is walked through. -/
theorem IsSound.traverses (h : forest.IsSound) (hb : base ∈ forest.positions) :
    forest.Traverses base base.descendants := by
  have hbelow := forest.positions_isPreorder.descendants_sublist hb
  refine ⟨fun nodes => Position.walks_iff_of_suffix (List.suffix_refl _), fun node => ?_, ?_,
    base.descendants_isPreorder, fun step node later hs =>
      step.outcome_followingDescendant_of_suffix hs⟩
  · constructor
    · intro hm
      exact ⟨hbelow.subset hm, (mem_descendants_iff hb (hbelow.subset hm)).mp hm⟩
    · rintro ⟨hp, hm⟩
      exact (mem_descendants_iff hb hp).mpr hm
  · have hnodup := h.nodup
    rw [← ids_positions] at hnodup
    exact (hbelow.map Position.id).nodup hnodup

/-- An element with a next sibling, as loaded from `<r><a><b/><!--c--><c><b/></c></a><b/></r>`. -/
def enclosedForest : Forest :=
  let node (index : Nat) (name : String) (content rest : Content) : Content :=
    .element { id := ⟨index⟩, name := { localPart := name } } content none rest
  { trees := [⟨node 0 "r" (node 1 "a"
      (node 2 "b" .nil (.comment "c" none (node 3 "c" (node 4 "b" .nil .nil) .nil)))
      (node 5 "b" .nil .nil)) .nil, 0⟩]
    next := 6 }

/-- The sibling isn't visited. -/
theorem traverses_enclosedForest :
    enclosedForest.IsSound ∧ ∃ base ∈ enclosedForest.positions, base.id = ⟨1⟩ ∧
      ∃ visited, enclosedForest.Traverses base visited ∧
        visited.map Position.id = [⟨2⟩, ⟨3⟩, ⟨4⟩] := by
  have hsound : enclosedForest.IsSound := ⟨by decide +kernel, by decide +kernel, by decide +kernel⟩
  have hm := List.get_mem enclosedForest.positions ⟨1, by decide +kernel⟩
  exact ⟨hsound, _, hm, by decide +kernel, _, hsound.traverses hm, by decide +kernel⟩

/-- Not all searches that are resumed find the first node behind it that passes the test, or none:
one that they come to before may not tell its name. -/
theorem not_finds_unboundForest :
    Reached unboundForest ∧ ∃ base ∈ unboundForest.positions,
      base.Walks base base.descendants ∧
      ∃ (step : Step) (node : Position) (later : List Position),
        node :: later <:+ base.descendants ∧
        (step.followingDescendant base node).plain.outcome ≠
          .ok (later.find? fun next => step.matchesName next.name) := by
  let base := unboundForest.positions.get ⟨0, by decide +kernel⟩
  let node := unboundForest.positions.get ⟨1, by decide +kernel⟩
  have hleft : node :: base.descendants.drop 1 <:+ base.descendants := by decide +kernel
  refine ⟨.load .empty load_unboundForest, base, List.get_mem _ _,
    (Position.walks_iff_of_suffix (List.suffix_refl _)).mpr rfl, { name := "c" }, node, _, hleft, ?_⟩
  rw [Step.outcome_followingDescendant_of_suffix _ (hleft.trans (List.suffix_cons _ _))]
  decide +kernel

end Forest
end MarkupPath
