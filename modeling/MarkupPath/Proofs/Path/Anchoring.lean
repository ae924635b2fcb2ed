import MarkupPath.Proofs.Path.Concatenation
import MarkupPath.Proofs.Search.Descent

/-!
# Anchors

A path is compiled in relation to an origin, and its anchor is that origin or the root of its tree.
All that is asked of these are their names, and attributes of the root. So at an origin that is like
another one a path has the same steps, and an anchor that is like that of the other one
(`Path.compile_of_isLike`).
-/

namespace MarkupPath

/-- Positions are alike if their elements have the same tag and the same declarations are in effect.
-/
def Position.IsLike (position other : Position) : Prop :=
  other.element.tag = position.element.tag ∧ other.scope = position.scope

namespace Position.IsLike

variable {position other : Position}

theorem refusal?_eq (h : position.IsLike other) : other.refusal? = position.refusal? := by
  rw [refusal?, refusal?, h.1]

theorem name_eq (h : position.IsLike other) : other.name = position.name := by
  rw [name, name, h.1]

theorem judge_eq (h : position.IsLike other) (constraints : List Constraint) :
    other.judge constraints = position.judge constraints := by
  rw [Position.judge_eq, Position.judge_eq, h.1, h.2]

end Position.IsLike

/-! ## The anchor of an absolute path -/

namespace Origin

variable {origin other : Origin} {step : Step} {anchor : Position}

/-- The anchor of an absolute path is the root, unless it doesn't tell its name, has another one, or
doesn't meet the constraints. -/
theorem outcome_anchor (origin : Origin) (step : Step) :
    (origin.anchor step).outcome =
      match origin.root with
      | none => .ok none
      | some root =>
        if step.axis = .unsupported then .ok none
        else
          match root.refusal? with
          | some refusal => .error (.lookup refusal)
          | none =>
            if step.matchesName root.name then
              ((root.judge step.constraints).map fun verdict =>
                if verdict then some root else none).mapError .lookup
            else .error (.rootMismatch step.name root.name) := by
  rw [anchor, Reading.outcome_bind_of_ok _ (Reading.outcome_call ..)]
  cases origin.root with
  | none => rfl
  | some root =>
    dsimp only
    split
    · rfl
    · cases hr : root.refusal? with
      | some refusal =>
        simp only [Position.tellName, hr]
        rfl
      | none =>
        simp only [Position.tellName, hr, pure_bind]
        cases hm : step.matchesName root.name with
        | false => rfl
        | true =>
          simp only [Bool.not_true, Bool.false_eq_true, if_false, if_true]
          rw [Reading.outcome_bind, Step.accepts, outcome_allHold]
          cases root.judge step.constraints with
          | error refusal => rfl
          | ok verdict => cases verdict <;> rfl

/-- Where an absolute path is anchored the root is known. -/
theorem root_of_anchor (h : (origin.anchor step).outcome = .ok (some anchor)) :
    origin.root = some anchor := by
  rw [outcome_anchor] at h
  cases hroot : origin.root with
  | none =>
    rw [hroot] at h
    cases h
  | some root =>
    simp only [hroot] at h
    split at h
    · cases h
    · split at h
      · cases h
      · split at h
        · cases hj : root.judge step.constraints with
          | error refusal =>
            rw [hj] at h
            cases h
          | ok verdict =>
            rw [hj] at h
            cases verdict <;> cases h
            rfl
        · cases h

/-- If the roots are alike an absolute path is anchored at both or at none. -/
theorem anchor_of_isLike {R : Position → Position → Prop} {found : Option Position}
    (hR : ∀ position there, R position there → position.IsLike there)
    (hroot : Option.Rel R origin.root other.root)
    (h : (origin.anchor step).outcome = .ok found) :
    ∃ there, (other.anchor step).outcome = .ok there ∧ Option.Rel R found there := by
  rw [outcome_anchor] at h
  simp only [outcome_anchor]
  generalize origin.root = root at h hroot
  generalize other.root = otherRoot at hroot
  cases hroot with
  | none =>
    cases h
    exact ⟨none, rfl, .none⟩
  | @some root top hr =>
    have hlike := hR root top hr
    simp only [hlike.refusal?_eq, hlike.name_eq, hlike.judge_eq]
    simp only at h
    split at h
    · rename_i hx
      cases h
      rw [if_pos hx]
      exact ⟨none, rfl, .none⟩
    · rename_i hx
      rw [if_neg hx]
      split at h
      · cases h
      · split at h
        · rename_i hm
          rw [if_pos hm]
          cases hj : root.judge step.constraints with
          | error refusal =>
            rw [hj] at h
            cases h
          | ok verdict =>
            rw [hj] at h
            cases verdict <;> cases h
            · exact ⟨none, rfl, .none⟩
            · exact ⟨some top, rfl, .some hr⟩
        · cases h

end Origin

/-! ## Compiled paths -/

namespace Path

variable {origin : Origin} {expression : String} {mode : EmptyPath} {path : Path}

/-- The steps behind the anchor step of a path without an expression. -/
def stepsOfEmpty : EmptyPath → List Step
  | .self => []
  | .children => [{ axis := .anyChild }]

theorem compile_of_empty (hn : expression.toList = []) :
    (compile (some origin) expression mode).outcome = .ok path ↔
      origin.position.refusal? = none ∧
        path = ⟨some origin.position, { name := origin.position.name } :: stepsOfEmpty mode⟩ := by
  have he : expression.isEmpty = true := by simpa using hn
  simp only [compile, Position.tellName, he, if_true]
  cases hr : origin.position.refusal? with
  | some refusal =>
    constructor
    · intro h
      cases h
    · rintro ⟨hr, -⟩
      cases hr
  | none =>
    cases mode <;> simp [stepsOfEmpty, eq_comm]

/-- A compiled path has an anchor step. -/
theorem steps_ne_nil {origin : Option Origin}
    (h : (compile origin expression mode).outcome = .ok path) : path.steps ≠ [] := by
  cases origin with
  | none => cases h
  | some origin =>
    by_cases hn : expression.toList = []
    · obtain ⟨-, rfl⟩ := (compile_of_empty hn).mp h
      exact List.cons_ne_nil _ _
    · obtain ⟨-, steps, -, hpath⟩ := (compile_eq_ok hn).mp h
      split at hpath
      · obtain ⟨first, rest, rfl, hs, -⟩ := hpath
        rw [hs]
        exact List.cons_ne_nil _ _
      · rw [hpath]
        exact List.cons_ne_nil _ _

/-- A path is anchored at the root if it's absolute, and at its origin otherwise. -/
theorem anchor_eq_of_compile {anchor : Position}
    (h : (compile (some origin) expression mode).outcome = .ok path)
    (ha : path.anchor = some anchor) :
    (if isAbsolute expression then origin.root else some origin.position) = some anchor := by
  by_cases hn : expression.toList = []
  · obtain ⟨-, rfl⟩ := (compile_of_empty hn).mp h
    have habs : isAbsolute expression = false := by rw [isAbsolute, hn]
    rw [habs]
    exact ha
  · obtain ⟨-, steps, -, hpath⟩ := (compile_eq_ok hn).mp h
    split at hpath
    · rename_i habs
      obtain ⟨first, rest, -, -, hanchor⟩ := hpath
      rw [if_pos habs]
      exact Origin.root_of_anchor (ha ▸ hanchor)
    · rename_i habs
      rw [if_neg habs, ← ha, hpath]

/-- So that's where its anchor is. -/
theorem anchor_of_compile {anchor : Position}
    (h : (compile (some origin) expression mode).outcome = .ok path)
    (ha : path.anchor = some anchor) : anchor = origin.position ∨ origin.root = some anchor := by
  have hanchor := anchor_eq_of_compile h ha
  split at hanchor
  · exact .inr hanchor
  · exact .inl (Option.some.inj hanchor).symm

/-- A path that has an anchor though the root is hidden is the same when the root is known. -/
theorem compile_of_hidden {position anchor : Position}
    (h : (compile (some ⟨position, none⟩) expression mode).outcome = .ok path)
    (ha : path.anchor = some anchor) (root : Option Position) :
    (compile (some ⟨position, root⟩) expression mode).outcome = .ok path := by
  by_cases hn : expression.toList = []
  · rw [compile_of_empty hn] at h ⊢
    exact h
  · rw [compile_eq_ok hn] at h ⊢
    obtain ⟨hr, steps, hsteps, hpath⟩ := h
    refine ⟨hr, steps, hsteps, ?_⟩
    split at hpath
    · obtain ⟨first, rest, -, -, hanchor⟩ := hpath
      cases Origin.root_of_anchor (ha ▸ hanchor)
    · rename_i habs
      rw [if_neg habs]
      exact hpath

/-- At an origin that is like another one a path is compiled to the same steps and to a like anchor.
-/
theorem compile_of_isLike {R : Position → Position → Prop} (other : Origin)
    (hR : ∀ position there, R position there → position.IsLike there)
    (hp : R origin.position other.position) (hroot : Option.Rel R origin.root other.root)
    (h : (compile (some origin) expression mode).outcome = .ok path) :
    ∃ anchor, (compile (some other) expression mode).outcome = .ok ⟨anchor, path.steps⟩ ∧
      Option.Rel R path.anchor anchor := by
  have hlike := hR _ _ hp
  by_cases hn : expression.toList = []
  · obtain ⟨hr, rfl⟩ := (compile_of_empty hn).mp h
    refine ⟨some other.position, (compile_of_empty hn).mpr ⟨?_, ?_⟩, .some hp⟩
    · rw [hlike.refusal?_eq, hr]
    · rw [hlike.name_eq]
  · obtain ⟨hr, steps, hsteps, hpath⟩ := (compile_eq_ok hn).mp h
    simp only [compile_eq_ok hn, hlike.refusal?_eq, hlike.name_eq]
    split at hpath
    · rename_i habs
      obtain ⟨first, rest, rfl, hs, hanchor⟩ := hpath
      obtain ⟨anchor, ha, hrel⟩ := Origin.anchor_of_isLike hR hroot hanchor
      refine ⟨anchor, ⟨hr, _, hsteps, ?_⟩, hrel⟩
      rw [if_pos habs]
      exact ⟨first, rest, rfl, hs, ha⟩
    · rename_i habs
      subst hpath
      refine ⟨some other.position, ⟨hr, _, hsteps, ?_⟩, .some hp⟩
      rw [if_neg habs]

end Path
end MarkupPath
