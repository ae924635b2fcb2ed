import MarkupPath.Proofs.Editing.Ends
import MarkupPath.Proofs.Search.Listing
import MarkupPath.Proofs.Search.Origins

/-!
# Why queries fail

A query compiles a path expression, and searches for the first node that the path selects or for
all of them. Main statement (`Editing.queries_end`): a query comes to its end, and if it fails, the
error is one of those that are declared, or a lookup is refused at a node: it doesn't tell its name,
or no attribute can have the name by which the expression asks for it there (`Forest.Excuses`).

A lookup that's refused surfaces as it is, although an attribute that can't be set for the same
reason is a node that can't be created, which is declared (`not_isOwn_findFirst`).
-/

namespace MarkupPath

/-- Whether an error is one of those that are declared for queries and edits. Others are a lookup
that is refused, and a broken assumption. -/
def Error.isOwn : Error → Bool
  | .lookup _ | .broken _ => false
  | _ => true

/-- A lookup is refused at a node: it doesn't tell its name, or no attribute can have the name by
which one of the constraints asks for it. -/
def Position.Refuses (position : Position) (constraints : List Constraint) (refusal : Refusal) :
    Prop :=
  position.refusal? = some refusal ∨
    ∃ constraint ∈ constraints, position.value? constraint.name = .error refusal

/-- All constraints in an expression. -/
def constraintsOf (expression : String) : List Constraint :=
  match compileSteps expression with
  | .error _ => []
  | .ok steps => steps.flatMap Step.constraints

/-- An error that a query for an expression may end with: one that is declared, or a lookup that is
refused at a node of the forest. -/
def Forest.Excuses (forest : Forest) (expression : String) (error : Error) : Prop :=
  error.isOwn = true ∨ ∃ refusal, error = .lookup refusal ∧
    ∃ position ∈ forest.positions, position.Refuses (constraintsOf expression) refusal

namespace Position

variable {position : Position} {constraints others : List Constraint} {refusal : Refusal}

theorem Refuses.mono (hs : constraints ⊆ others) (h : position.Refuses constraints refusal) :
    position.Refuses others refusal :=
  h.imp_right fun ⟨constraint, hm, hv⟩ => ⟨constraint, hs hm, hv⟩

theorem refuses_of_judge (h : position.judge constraints = .error refusal) :
    position.Refuses constraints refusal := by
  induction constraints with
  | nil => cases h
  | cons constraint rest ih =>
    rw [judge] at h
    split at h
    · rename_i hv
      cases h
      exact .inr ⟨constraint, List.mem_cons_self, hv⟩
    · split at h
      · exact (ih h).mono (List.subset_cons_self _ _)
      · cases h

end Position

theorem Step.refusal?_of_sight {step : Step} {position : Position} {refusal : Refusal}
    (h : step.sight position = some (.error refusal)) : position.refusal? = some refusal := by
  simp only [sight] at h
  split at h
  · rename_i hr
    cases h
    exact hr
  · split at h <;> cases h

/-! ## What a search comes upon -/

namespace Forest

variable {forest : Forest} {refusal : Refusal}

theorem mem_of_position? {node : NodeId} {position : Position}
    (h : forest.position? node = some position) : position ∈ forest.positions := by
  rw [position?_eq_find?] at h
  exact List.mem_of_find?_eq_some h

/-- A refusal that a search comes upon stems from a node of the forest. By induction on the
steps. -/
theorem exists_refuses_of_mem {context : Position} {steps : List Step}
    (hc : context ∈ forest.positions) (h : .error refusal ∈ sightings context steps) :
    ∃ position ∈ forest.positions, position.Refuses (steps.flatMap Step.constraints) refusal := by
  induction steps generalizing context with
  | nil =>
    rw [sightings, List.mem_singleton] at h
    cases h
  | cons step steps ih =>
    rw [sightings] at h
    obtain ⟨sighting, hs, hm⟩ := List.mem_flatMap.mp h
    obtain ⟨position, hp, hsight⟩ := List.mem_filterMap.mp hs
    have hp : position ∈ forest.positions := (forest.reachable_sublist step hc).subset hp
    rw [List.flatMap_cons]
    cases sighting with
    | error other =>
      rw [Step.pursue, List.mem_singleton] at hm
      cases hm
      exact ⟨position, hp, .inl (Step.refusal?_of_sight hsight)⟩
    | ok candidate =>
      obtain ⟨rfl, -⟩ := Step.sight_eq_ok hsight
      rw [Step.pursue] at hm
      split at hm
      · rename_i hj
        obtain rfl := Except.error.inj (List.mem_singleton.mp hm)
        exact ⟨_, hp, (Position.refuses_of_judge hj).mono (List.subset_append_left _ _)⟩
      · obtain ⟨other, ho, hr⟩ := ih hp hm
        exact ⟨other, ho, hr.mono (List.subset_append_right _ _)⟩
      · cases hm

end Forest

namespace Iterator

variable {cursor : Cursor} {first : Step}

/-- Collecting matches fails with a refusal that a search comes upon. -/
theorem exists_refusal_of_collect {limit : Nat} {error : Error} (hs : cursor.IsSound)
    (he : ((collect limit).run (cursor.iterator first)).1.outcome = .error error) :
    ∃ refusal, error = .lookup refusal ∧ .error refusal ∈ cursor.unpulled := by
  induction limit generalizing cursor with
  | zero => cases he
  | succ limit ih =>
    have hp := Cursor.pull_pulls hs
    generalize ho : cursor.pull.outcome = outcome at hp
    generalize cursor.unpulled = seen at hp
    cases hp with
    | nothing =>
      rw [(run_collect_of_none limit hs ho).1] at he
      cases he
    | refused refusal more =>
      rw [run_collect_of_error limit hs ho] at he
      cases he
      exact ⟨refusal, rfl, List.mem_cons_self⟩
    | node position left hl =>
      rw [(run_collect_of_some limit hs ho).1, ← Reading.outcome_map,
        Reading.outcome_map_eq_error] at he
      obtain ⟨refusal, rfl, hm⟩ := ih hl he
      exact ⟨refusal, rfl, List.mem_cons_of_mem _ hm⟩

/-- Collecting matches comes to an end: a call fails, or the iterator is exhausted. By induction on
what hasn't been pulled yet. -/
theorem exists_collect_end (first : Step) (hs : cursor.IsSound) :
    ∃ limit, (∃ error, ((collect limit).run (cursor.iterator first)).1.outcome = .error error) ∨
      ((collect limit).run (cursor.iterator first)).2.isExhausted = true := by
  generalize hu : cursor.unpulled = seen
  induction seen generalizing cursor with
  | nil =>
    have hp := Cursor.pull_pulls hs
    rw [hu] at hp
    generalize ho : cursor.pull.outcome = outcome at hp
    cases hp with
    | nothing =>
      refine ⟨1, .inr ?_⟩
      rw [(run_collect_of_none 0 hs ho).2]
      rfl
  | cons sighting rest ih =>
    have hp := Cursor.pull_pulls hs
    rw [hu] at hp
    generalize ho : cursor.pull.outcome = outcome at hp
    cases hp with
    | refused refusal more =>
      exact ⟨1, .inl ⟨_, run_collect_of_error 0 hs ho⟩⟩
    | node position left hl =>
      obtain ⟨limit, hlimit⟩ := ih hl rfl
      refine ⟨limit + 1, ?_⟩
      rw [(run_collect_of_some limit hs ho).1, (run_collect_of_some limit hs ho).2]
      refine hlimit.imp_left fun ⟨error, he⟩ => ⟨error, ?_⟩
      rw [he]
      rfl

end Iterator

/-! ## Paths from a node of a forest -/

/-- An origin stands in a forest, and so does its root. -/
structure Origin.IsIn (origin : Origin) (forest : Forest) : Prop where
  /-- the node stands there -/
  position : origin.position ∈ forest.positions
  /-- the root does if it's known -/
  root : ∀ root, origin.root = some root → root ∈ forest.positions

namespace Path

variable {forest : Forest} {origin : Option Origin} {expression : String} {mode : EmptyPath}
  {path : Path} {error : Error} {refusal : Refusal}

/-- The constraints of a compiled path are those in its expression. -/
theorem constraints_of_compile (h : (compile origin expression mode).outcome = .ok path) :
    (path.steps.drop 1).flatMap Step.constraints ⊆ constraintsOf expression := by
  cases origin with
  | none => cases h
  | some origin =>
    by_cases hn : expression.toList = []
    · obtain ⟨-, rfl⟩ := (compile_of_empty hn).mp h
      cases mode <;> exact List.nil_subset _
    · obtain ⟨-, steps, hsteps, hpath⟩ := (compile_eq_ok hn).mp h
      rw [constraintsOf, hsteps]
      split at hpath
      · obtain ⟨first, rest, rfl, hs, -⟩ := hpath
        rw [hs]
        exact List.subset_append_right _ _
      · rw [hpath]
        exact List.Subset.refl _

theorem excuses_of_anchor {origin : Origin} {first : Step} {rest : List Step}
    (ho : origin.IsIn forest) (hs : compileSteps expression = .ok (first :: rest))
    (he : (origin.anchor first).outcome = .error error) : forest.Excuses expression error := by
  rw [Origin.outcome_anchor] at he
  cases hroot : origin.root with
  | none =>
    rw [hroot] at he
    cases he
  | some root =>
    have hmem := ho.root root hroot
    simp only [hroot] at he
    split at he
    · cases he
    · split at he
      · rename_i hr
        cases he
        exact .inr ⟨_, rfl, root, hmem, .inl hr⟩
      · split at he
        · cases hj : root.judge first.constraints with
          | ok verdict =>
            rw [hj] at he
            cases he
          | error refusal =>
            rw [hj] at he
            cases he
            have hsub : first.constraints ⊆ constraintsOf expression := by
              rw [constraintsOf, hs]
              exact List.subset_append_left _ _
            exact .inr ⟨refusal, rfl, root, hmem, (Position.refuses_of_judge hj).mono hsub⟩
        · cases he
          exact .inl rfl

/-- Compiling a path fails with a declared error, or the origin or the root refuses a lookup. -/
theorem excuses_of_compile (ho : ∀ start, origin = some start → start.IsIn forest)
    (he : (compile origin expression mode).outcome = .error error) :
    forest.Excuses expression error := by
  cases origin with
  | none =>
    cases he
    exact .inl rfl
  | some origin =>
    have hin := ho origin rfl
    simp only [compile, Position.tellName] at he
    cases hr : origin.position.refusal? with
    | some refusal =>
      rw [hr] at he
      cases he
      exact .inr ⟨refusal, rfl, origin.position, hin.position, .inl hr⟩
    | none =>
      simp only [hr, pure_bind] at he
      split at he
      · cases mode <;> cases he
      · split at he
        · cases he
          exact .inl rfl
        · rename_i steps hs
          split at he
          · cases steps with
            | nil =>
              cases he
              exact .inl rfl
            | cons first rest =>
              change (origin.anchor first >>= fun anchor =>
                pure ⟨anchor, first :: rest⟩ : Reading Path).outcome = _ at he
              rcases Reading.outcome_bind_eq_error.mp he with he | ⟨_, _, he⟩
              · exact excuses_of_anchor hin hs he
              · cases he
          · cases he

/-- A search along a compiled path fails with a refusal at a node of the forest. -/
theorem excuses_of_mem (ho : ∀ start, origin = some start → start.IsIn forest)
    (hc : (compile origin expression mode).outcome = .ok path)
    (hm : .error refusal ∈ path.sightings) : forest.Excuses expression (.lookup refusal) := by
  cases origin with
  | none => cases hc
  | some origin =>
    have hin := ho origin rfl
    rw [sightings] at hm
    split at hm
    · cases hm
    · rename_i anchor ha
      have hanchor : anchor ∈ forest.positions := by
        rcases anchor_of_compile hc ha with rfl | hr
        · exact hin.position
        · exact hin.root _ hr
      obtain ⟨position, hp, hr⟩ := Forest.exists_refuses_of_mem hanchor hm
      exact .inr ⟨refusal, rfl, position, hp, hr.mono (constraints_of_compile hc)⟩

/-- A search along a compiled path fails to start with a refusal at a node of the forest. -/
theorem excuses_of_start (ho : ∀ start, origin = some start → start.IsIn forest)
    (hc : (compile origin expression mode).outcome = .ok path)
    (he : (Cursor.start path).outcome = .error error) : forest.Excuses expression error := by
  have hs := path.start_shows (steps_ne_nil hc)
  rw [he] at hs
  generalize hseen : path.sightings = seen at hs
  cases hs with
  | refused refusal more => exact excuses_of_mem ho hc (by rw [hseen]; exact List.mem_cons_self)

end Path

/-! ## Queries -/

section Queries

variable {forest : Forest} {origin : Option Origin} {expression : String} {mode : EmptyPath}
  {error : Error}

theorem excuses_of_search (ho : ∀ start, origin = some start → start.IsIn forest)
    (he : (search origin expression mode).outcome = .error error) :
    forest.Excuses expression error := by
  cases origin with
  | none => cases he
  | some origin =>
    rcases Reading.outcome_bind_eq_error.mp he with he | ⟨path, hc, he⟩
    · exact Path.excuses_of_compile ho he
    · exact Path.excuses_of_start ho hc he

theorem excuses_of_iterate (ho : ∀ start, origin = some start → start.IsIn forest)
    (he : (iterate origin expression mode).outcome = .error error) :
    forest.Excuses expression error := by
  cases origin with
  | none => cases he
  | some origin =>
    rcases Reading.outcome_bind_eq_error.mp he with he | ⟨path, hc, he⟩
    · exact Path.excuses_of_compile ho he
    · obtain ⟨first, steps, hp⟩ := List.exists_cons_of_ne_nil (Path.steps_ne_nil hc)
      rw [Iterator.start_eq hp, Reading.outcome_map_eq_error] at he
      exact Path.excuses_of_start ho hc he

/-- All matches of a query can be collected, unless a lookup is refused. -/
theorem ends_of_iterate {iterator : Iterator}
    (ho : ∀ start, origin = some start → start.IsIn forest)
    (hi : (iterate origin expression mode).outcome = .ok iterator) :
    (∃ limit, (∃ error, ((Iterator.collect limit).run iterator).1.outcome = .error error) ∨
      ((Iterator.collect limit).run iterator).2.isExhausted = true) ∧
    ∀ limit error, ((Iterator.collect limit).run iterator).1.outcome = .error error →
      forest.Excuses expression error := by
  cases origin with
  | none =>
    cases hi
    exact ⟨⟨0, .inr rfl⟩, fun limit error he => by cases limit <;> cases he⟩
  | some origin =>
    obtain ⟨path, hc, hi⟩ := Reading.outcome_bind_eq_ok.mp hi
    have hn := Path.steps_ne_nil hc
    obtain ⟨first, steps, hp⟩ := List.exists_cons_of_ne_nil hn
    rw [Iterator.start_eq hp, Reading.outcome_map_eq_ok] at hi
    obtain ⟨cursor, hs, rfl⟩ := hi
    obtain ⟨hr, hu⟩ := Cursor.restsAt_start hn hs
    refine ⟨Iterator.exists_collect_end first hr.isSound, ?_⟩
    intro limit error he
    obtain ⟨refusal, rfl, hm⟩ := Iterator.exists_refusal_of_collect hr.isSound he
    rw [Cursor.unpulled_start hs, hu] at hm
    exact Path.excuses_of_mem ho hc hm

end Queries

namespace Editing

variable {forest : Forest} {expression : String} {mode : EmptyPath}

/-- The origin of a path stands in the forest. -/
theorem originOf_isIn (node : Option NodeId) {bad : Error → Forest → Prop} :
    (originOf node).Ends forest
      (fun origin after => after = forest ∧ ∀ start, origin = some start → start.IsIn forest)
      bad := by
  cases node with
  | none => exact .of_pure _ ⟨rfl, nofun⟩
  | some node =>
    refine .of_origin? fun root hroot => ⟨rfl, fun start hs => ?_⟩
    obtain ⟨position, hp, rfl⟩ := Option.map_eq_some_iff.mp hs
    refine ⟨Forest.mem_of_position? hp, ?_⟩
    -- the root is hidden, or it's that of the tree where the node stands
    intro other hother
    rcases hroot with rfl | rfl
    · cases hother
    · obtain ⟨top, -, ht⟩ := Option.bind_eq_some_iff.mp hother
      exact Forest.mem_of_position? ht

/-- Queries come to their end, and fail only for a reason that excuses it. -/
theorem queries_end (node : Option NodeId) (expression : String) (mode : EmptyPath)
    (forest : Forest) :
    (compilePath node expression mode).Ends forest (fun _ _ => True)
      (fun error _ => forest.Excuses expression error) ∧
    (findFirst node expression mode).Ends forest (fun _ _ => True)
      (fun error _ => forest.Excuses expression error) ∧
    (iterate ⟨node, expression⟩ mode).Ends forest
      (fun iterator _ =>
        (∃ limit, (∃ error, ((Iterator.collect limit).run iterator).1.outcome = .error error) ∨
          ((Iterator.collect limit).run iterator).2.isExhausted = true) ∧
        ∀ limit error, ((Iterator.collect limit).run iterator).1.outcome = .error error →
          forest.Excuses expression error)
      (fun error _ => forest.Excuses expression error) := by
  refine ⟨?_, ?_, ?_⟩
  · refine .bind ((originOf_isIn node).imp ?_ fun _ _ h => h)
    rintro origin after ⟨rfl, ho⟩
    exact .of_read (fun _ _ => trivial) fun _ he => Path.excuses_of_compile ho he
  · refine .bind (.bind ((originOf_isIn node).imp ?_ fun _ _ h => h))
    rintro origin after ⟨rfl, ho⟩
    exact .of_read (fun _ _ => .of_pure _ trivial) fun _ he => excuses_of_search ho he
  · refine .bind ((originOf_isIn node).imp ?_ fun _ _ h => h)
    rintro origin after ⟨rfl, ho⟩
    exact .of_read (fun _ hi => ends_of_iterate ho hi) fun _ he => excuses_of_iterate ho he

end Editing

/-- A node without attributes, below another one. -/
def bareWorkspace : Workspace where
  forest := {
    trees := [⟨.element { id := ⟨0⟩, name := { localPart := "a" } }
      (.element { id := ⟨1⟩, name := { localPart := "b" } } .nil none .nil) none .nil, 0⟩]
    next := 2 }

/-- Not all errors of a search are declared: an attribute is asked for by a name with a brace that
isn't closed. -/
theorem not_isOwn_findFirst :
    ¬ ∀ (node : Option NodeId) (expression : String) (mode : EmptyPath) (workspace : Workspace)
      (error : Error),
      ((Editing.findFirst node expression mode).run workspace).1 = .error error →
      error.isOwn = true := by
  intro h
  have hr : ((Editing.findFirst (some ⟨0⟩) (.ofList ['*', '[', '@', '{', ']']) .self).run
      bareWorkspace).1 = .error (.lookup .unclosedBrace) := by
    decide +kernel
  cases h _ _ _ _ _ hr

end MarkupPath
