import MarkupPath.Proofs.Forest.Standing
import MarkupPath.Proofs.Path.Anchoring

/-!
# Where searches start

A path is compiled in relation to an origin, and its anchor is that origin or the root of its tree.
So a search along a path from a node of a forest starts at a node of that forest
(`position?_anchor`), if it starts at all, and a path expression selects nodes from a node exactly
if no lookup is refused on the way, namely those that its path enumerates (`selects_iff_selected`).
Otherwise the search fails with a refusal (`exists_refuses_iff`).
-/

namespace MarkupPath

/-- The origin of paths at a node, in a tree whose root is known. -/
def Forest.origin? (forest : Forest) (node : NodeId) : Option Origin :=
  (forest.position? node).map fun position =>
    ⟨position, (forest.rootOf? node).bind forest.position?⟩

/-- A path expression selects the nodes, from the given one. -/
def Forest.Selects (forest : Forest) (node : NodeId) (expression : String) (mode : EmptyPath)
    (nodes : List NodeId) : Prop :=
  ∃ positions, (search (forest.origin? node) expression mode).Yields positions ∧
    positions.map Position.id = nodes

/-- A search for what a path expression selects from the given node fails, as a lookup is refused.
-/
def Forest.Refuses (forest : Forest) (node : NodeId) (expression : String) (mode : EmptyPath)
    (refusal : Refusal) : Prop :=
  (search (forest.origin? node) expression mode).IsRefused refusal

theorem Position.id_of_position? {forest : Forest} {node : NodeId} {position : Position}
    (h : forest.position? node = some position) : position.id = node :=
  Forest.id_of_setting? (Forest.setting?_of_position? h)

namespace Path

variable {path : Path}

/-- Without refusals the nodes that are come upon are those that are selected. -/
theorem sightings_eq_iff {nodes : List Position} :
    path.sightings = nodes.map .ok ↔ path.IsReadable ∧ path.selected = nodes := by
  constructor
  · intro h
    have hr : path.IsReadable := by
      intro sighting hm
      rw [h] at hm
      obtain ⟨node, -, rfl⟩ := List.mem_map.mp hm
      rfl
    refine ⟨hr, ?_⟩
    rw [path.sightings_agrees.eq_map_ok hr] at h
    exact List.map_injective_iff.mpr (fun _ _ he => Except.ok.inj he) h
  · rintro ⟨hr, rfl⟩
    exact path.sightings_agrees.eq_map_ok hr

/-- There's an origin, unless compiling a path fails for want of one. -/
theorem exists_origin {origin : Option Origin} {expression : String} {mode : EmptyPath}
    {outcome : Except Error Path} (h : (compile origin expression mode).outcome = outcome)
    (hne : outcome ≠ .error .absentOrigin) : ∃ start, origin = some start := by
  cases origin with
  | none => exact absurd h.symm hne
  | some start => exact ⟨start, rfl⟩

/-- Sightings that aren't all nodes have a first refusal. -/
theorem exists_first_refusal {seen : List Sighting}
    (h : ¬∀ sighting ∈ seen, sighting.isOk = true) :
    ∃ (nodes : List Position) (refusal : Refusal) (more : List Sighting),
      seen = nodes.map .ok ++ .error refusal :: more := by
  induction seen with
  | nil => exact absurd (List.forall_mem_nil _) h
  | cons sighting rest ih =>
    cases sighting with
    | error refusal => exact ⟨[], refusal, rest, rfl⟩
    | ok position =>
      obtain ⟨nodes, refusal, more, hrest⟩ := ih fun hr => h (List.forall_mem_cons.mpr ⟨rfl, hr⟩)
      exact ⟨position :: nodes, refusal, more, congrArg (.ok position :: ·) hrest⟩

end Path

namespace Forest

variable {forest : Forest} {node : NodeId} {expression : String} {mode : EmptyPath} {path : Path}

/-- A search from a node of a forest starts at a node of that forest. -/
theorem position?_anchor {anchor : Position}
    (hc : (Path.compile (forest.origin? node) expression mode).outcome = .ok path)
    (ha : path.anchor = some anchor) : forest.position? anchor.id = some anchor := by
  cases hp : forest.position? node with
  | none =>
    rw [origin?, hp] at hc
    cases hc
  | some position =>
    rw [origin?, hp] at hc
    rcases Path.anchor_of_compile hc ha with rfl | hr
    · rwa [Position.id_of_position? hp]
    · obtain ⟨root, -, hpos⟩ := Option.bind_eq_some_iff.mp hr
      rwa [Position.id_of_position? hpos]

/-- It starts at the root of the tree that the node belongs to if the path is absolute, and else at
the node. -/
theorem id_anchor {anchor : Position}
    (hc : (Path.compile (forest.origin? node) expression mode).outcome = .ok path)
    (ha : path.anchor = some anchor) :
    (if isAbsolute expression then forest.rootOf? node else some node) = some anchor.id := by
  cases hp : forest.position? node with
  | none =>
    rw [origin?, hp] at hc
    cases hc
  | some position =>
    rw [origin?, hp] at hc
    have hanchor := Path.anchor_eq_of_compile hc ha
    split
    · rename_i habs
      rw [if_pos habs] at hanchor
      obtain ⟨root, hroot, hpos⟩ := Option.bind_eq_some_iff.mp hanchor
      rw [hroot, Position.id_of_position? hpos]
    · rename_i habs
      rw [if_neg habs] at hanchor
      rw [← Option.some.inj hanchor, Position.id_of_position? hp]

/-- A path expression selects what a search along its path comes upon. -/
theorem selects_iff_sightings {nodes : List NodeId}
    (hc : (Path.compile (forest.origin? node) expression mode).outcome = .ok path) :
    forest.Selects node expression mode nodes ↔
      ∃ positions : List Position, path.sightings = positions.map .ok ∧
        positions.map Position.id = nodes := by
  obtain ⟨origin, ho⟩ := Path.exists_origin hc nofun
  rw [ho] at hc
  simp only [Selects, ho, search_yields_iff]
  constructor
  · rintro ⟨positions, ⟨found, hf, -, hs⟩, hi⟩
    obtain rfl : found = path := Except.ok.inj (hf.symm.trans hc)
    exact ⟨positions, hs, hi⟩
  · rintro ⟨positions, hs, hi⟩
    exact ⟨positions, ⟨path, hc, Path.steps_ne_nil hc, hs⟩, hi⟩

/-- A path expression selects what its path enumerates, if no lookup is refused on the way. -/
theorem selects_iff_selected {nodes : List NodeId}
    (hc : (Path.compile (forest.origin? node) expression mode).outcome = .ok path) :
    forest.Selects node expression mode nodes ↔
      path.IsReadable ∧ path.selected.map Position.id = nodes := by
  rw [selects_iff_sightings hc]
  constructor
  · rintro ⟨positions, hs, rfl⟩
    obtain ⟨hr, rfl⟩ := Path.sightings_eq_iff.mp hs
    exact ⟨hr, rfl⟩
  · rintro ⟨hr, rfl⟩
    exact ⟨_, Path.sightings_eq_iff.mpr ⟨hr, rfl⟩, rfl⟩

/-- What is refused when a path is compiled is refused to the search. -/
theorem refuses_of_compile {refusal : Refusal}
    (hc : (Path.compile (forest.origin? node) expression mode).outcome = .error (.lookup refusal)) :
    forest.Refuses node expression mode refusal := by
  obtain ⟨origin, ho⟩ := Path.exists_origin hc nofun
  rw [ho] at hc
  rw [Refuses, ho]
  exact Reading.isRefused_bind.mpr (.inl hc)

theorem not_selects_of_compile {refusal : Refusal} {nodes : List NodeId}
    (hc : (Path.compile (forest.origin? node) expression mode).outcome = .error (.lookup refusal)) :
    ¬forest.Selects node expression mode nodes := by
  rintro ⟨positions, hy, -⟩
  obtain ⟨origin, ho⟩ := Path.exists_origin hc nofun
  rw [ho] at hc hy
  obtain ⟨path, hp, -⟩ := search_yields_iff.mp hy
  cases hc.symm.trans hp

/-- Once a path is compiled, a search along it fails exactly if it comes upon a refusal. -/
theorem exists_refuses_iff
    (hc : (Path.compile (forest.origin? node) expression mode).outcome = .ok path) :
    (∃ refusal, forest.Refuses node expression mode refusal) ↔ ¬path.IsReadable := by
  obtain ⟨origin, ho⟩ := Path.exists_origin hc nofun
  have hn := Path.steps_ne_nil hc
  rw [ho] at hc
  simp only [Refuses, ho]
  constructor
  · rintro ⟨refusal, hr⟩ hreadable
    rcases Reading.isRefused_bind.mp hr with he | ⟨found, hf, hr⟩
    · cases hc.symm.trans he
    · obtain rfl := Except.ok.inj (hf.symm.trans hc)
      obtain ⟨-, nodes, more, hseen⟩ := start_isRefused_iff.mp hr
      have hok := hreadable (.error refusal) (by simp [hseen])
      cases hok
  · intro hreadable
    obtain ⟨nodes, refusal, more, hseen⟩ := Path.exists_first_refusal hreadable
    have hstart := start_isRefused_iff.mpr ⟨hn, nodes, more, hseen⟩
    exact ⟨refusal, Reading.isRefused_bind.mpr (.inr ⟨path, hc, hstart⟩)⟩

end Forest
end MarkupPath
