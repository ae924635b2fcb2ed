import MarkupPath.Proofs.Path.Anchoring
import MarkupPath.Proofs.Path.PathText
import MarkupPath.Proofs.Path.Slashes

/-!
# What becomes of a path expression

To compile a path takes little of a tree: the names of the origin and of the root, which node is the
root and attributes of that. A `Provider` tells these of nodes of whatever kind, and compiling with
one is what `Path.compile` does with positions (`Path.outcome_compile`).

Main statement: `Path.compile_decided`. How a compilation ends is decided by the first of several
conditions that applies (`Provider.Decides`), for an absolute path by further ones on the root
(`Provider.Anchors`). What the start of an expression says about where its path is anchored never
disagrees with what its parts are compiled to (`Provider.Fits`).
-/

namespace MarkupPath

/-- What is asked of a tree when a path is compiled. -/
structure Provider (ν : Type) where
  /-- the name of a node, or why it's refused -/
  name : ν → Except Refusal String
  /-- the root of the tree that a node belongs to -/
  root? : ν → Option ν
  /-- the value of an attribute, or why the lookup is refused -/
  value? : ν → String → Except Refusal (Option String)

/-- The parts of an expression are compiled to steps, each by itself. -/
def ReadsAs (expression : String) (steps : List Step) : Prop :=
  List.Forall₂ (fun part step => Step.compile part.text part.offset = .ok step)
    (splitPath expression.toList) steps

/-- The first part of an expression that isn't a step is refused. -/
def RefusedAs (expression : String) (malformed : MalformedStep) : Prop :=
  ∃ before part after, splitPath expression.toList = before ++ part :: after ∧
    (∀ earlier ∈ before, IsStepExpression earlier.offset earlier.text) ∧
      Step.compile part.text part.offset = .error malformed

theorem ReadsAs.compileSteps_eq {expression : String} {steps : List Step}
    (h : ReadsAs expression steps) : compileSteps expression = .ok steps :=
  compileParts_eq_ok.mpr h

namespace Provider

variable {ν : Type} (provider : Provider ν)

/-! ## Compiling with a provider -/

/-- Whether a node meets constraints. They are looked up one by one until one isn't met. -/
def judge (node : ν) : List Constraint → Except Refusal Bool
  | [] => .ok true
  | constraint :: rest =>
    match provider.value? node constraint.name with
    | .error refusal => .error refusal
    | .ok value => if constraint.isMetBy value then judge node rest else .ok false

/-- The anchor of an absolute path with the given first step. -/
def anchor (origin : ν) (first : Step) : Except Error (Option ν) :=
  match provider.root? origin with
  | none => .ok none
  | some root =>
    if first.axis = .unsupported then .ok none
    else
      match provider.name root with
      | .error refusal => .error (.lookup refusal)
      | .ok name =>
        if first.matchesName name then
          match provider.judge root first.constraints with
          | .error refusal => .error (.lookup refusal)
          | .ok verdict => .ok (if verdict then some root else none)
        else .error (.rootMismatch first.name name)

/-- The anchor and the steps of a path. -/
def compile (origin : Option ν) (expression : String) (mode : EmptyPath) :
    Except Error (Option ν × List Step) :=
  match origin with
  | none => .error .absentOrigin
  | some origin =>
    match provider.name origin with
    | .error refusal => .error (.lookup refusal)
    | .ok name =>
      if expression.isEmpty then .ok (some origin, { name } :: Path.stepsOfEmpty mode)
      else
        match compileSteps expression with
        | .error malformed => .error (.malformed malformed)
        | .ok steps =>
          if isAbsolute expression then
            match steps with
            | [] => .error .emptyPath
            | first :: _ => (provider.anchor origin first).map (·, steps)
          else .ok (some origin, { name } :: steps)

/-! ## What decides the outcome -/

/-- A node meets a constraint. -/
def Meets (node : ν) (constraint : Constraint) : Prop :=
  ∃ value, provider.value? node constraint.name = .ok (some value) ∧
    (constraint.value = "" ∨ value = constraint.value)

/-- The lookup of an attribute is the first one whose answer isn't that a constraint is met. -/
def StopsWith (node : ν) (constraints : List Constraint)
    (answer : Except Refusal (Option String)) : Prop :=
  ∃ met unmet rest, constraints = met ++ unmet :: rest ∧
    (∀ constraint ∈ met, provider.Meets node constraint) ∧ ¬provider.Meets node unmet ∧
      provider.value? node unmet.name = answer

/-- What the anchor of an absolute path is, given its first step. -/
inductive Anchors (origin : ν) (first : Step) : Except Error (Option ν) → Prop where
  /-- there's no root -/
  | rootless (hr : provider.root? origin = none) : Anchors origin first (.ok none)
  /-- the step isn't understood -/
  | unsupported (ha : first.axis = .unsupported) : Anchors origin first (.ok none)
  /-- the root doesn't tell its name -/
  | untold {root : ν} {refusal : Refusal} (hr : provider.root? origin = some root)
      (ha : first.axis = .root) (hn : provider.name root = .error refusal) :
      Anchors origin first (.error (.lookup refusal))
  /-- the root has another name than the step asks for -/
  | mismatch {root : ν} {name : String} (hr : provider.root? origin = some root)
      (ha : first.axis = .root) (hn : provider.name root = .ok name) (he : first.name ≠ "")
      (hne : name ≠ first.name) : Anchors origin first (.error (.rootMismatch first.name name))
  /-- the root doesn't tell an attribute -/
  | unread {root : ν} {name : String} {refusal : Refusal} (hr : provider.root? origin = some root)
      (ha : first.axis = .root) (hn : provider.name root = .ok name)
      (he : first.name = "" ∨ name = first.name)
      (hs : provider.StopsWith root first.constraints (.error refusal)) :
      Anchors origin first (.error (.lookup refusal))
  /-- the root doesn't meet a constraint -/
  | unmet {root : ν} {name : String} {value : Option String}
      (hr : provider.root? origin = some root) (ha : first.axis = .root)
      (hn : provider.name root = .ok name) (he : first.name = "" ∨ name = first.name)
      (hs : provider.StopsWith root first.constraints (.ok value)) :
      Anchors origin first (.ok none)
  /-- the root has all that the step asks for -/
  | root {root : ν} {name : String} (hr : provider.root? origin = some root)
      (ha : first.axis = .root) (hn : provider.name root = .ok name)
      (he : first.name = "" ∨ name = first.name)
      (hm : ∀ constraint ∈ first.constraints, provider.Meets root constraint) :
      Anchors origin first (.ok (some root))

/-- How compiling a path ends. -/
inductive Decides (mode : EmptyPath) :
    Option ν → String → Except Error (Option ν × List Step) → Prop where
  /-- there's no origin -/
  | absent (expression : String) : Decides mode none expression (.error .absentOrigin)
  /-- the origin doesn't tell its name -/
  | untold {origin : ν} {refusal : Refusal} (hn : provider.name origin = .error refusal)
      (expression : String) : Decides mode (some origin) expression (.error (.lookup refusal))
  /-- there's no expression -/
  | empty {origin : ν} {name : String} (hn : provider.name origin = .ok name) :
      Decides mode (some origin) "" (.ok (some origin, { name } :: Path.stepsOfEmpty mode))
  /-- a part isn't a step -/
  | malformed {origin : ν} {name expression : String} {malformed : MalformedStep}
      (hn : provider.name origin = .ok name) (he : expression ≠ "")
      (hs : RefusedAs expression malformed) :
      Decides mode (some origin) expression (.error (.malformed malformed))
  /-- the path starts at the root, or fails to -/
  | absolute {origin : ν} {name expression : String} {first : Step} {rest : List Step}
      {anchor : Except Error (Option ν)} (hn : provider.name origin = .ok name)
      (hs : ReadsAs expression (first :: rest)) (ha : isAbsolute expression = true)
      (hf : provider.Anchors origin first anchor) :
      Decides mode (some origin) expression (anchor.map (·, first :: rest))
  /-- the path starts at the origin -/
  | relative {origin : ν} {name expression : String} {steps : List Step}
      (hn : provider.name origin = .ok name) (he : expression ≠ "")
      (hs : ReadsAs expression steps) (ha : isAbsolute expression = false) :
      Decides mode (some origin) expression (.ok (some origin, { name } :: steps))

/-- What a compiled path has, given its expression. -/
structure Fits (origin : ν) (expression : String) (anchor : Option ν) (first : Step)
    (rest : List Step) : Prop where
  /-- no step but the first one is for a root -/
  rest_ne_root : ∀ step ∈ rest, step.axis ≠ .root
  /-- the first one is if the expression starts with a single slash, unless it isn't understood -/
  first_root : first.axis = .root ↔ isAbsolute expression = true ∧ first.axis ≠ .unsupported
  /-- behind a single slash the path starts at the root, if that is as the first step asks for -/
  absolute : isAbsolute expression = true →
    ReadsAs expression (first :: rest) ∧ (anchor = none ∨ anchor = provider.root? origin) ∧
      (anchor = none ↔ provider.root? origin = none ∨ first.axis = .unsupported ∨
        ∃ root, provider.root? origin = some root ∧
          ∃ constraint ∈ first.constraints, ¬provider.Meets root constraint)
  /-- any other path starts at the origin, with a step for its name -/
  relative : isAbsolute expression = false →
    anchor = some origin ∧ ReadsAs expression rest ∧
      ∃ name, provider.name origin = .ok name ∧ first = { name }

/-! ## Constraints -/

variable {provider} {node : ν} {constraints : List Constraint}

theorem meets_iff {constraint : Constraint} {value : Option String}
    (hv : provider.value? node constraint.name = .ok value) :
    provider.Meets node constraint ↔ constraint.isMetBy value = true := by
  rw [Meets, hv]
  cases value with
  | none => simp [Constraint.isMetBy]
  | some value => simp [Constraint.isMetBy]

theorem not_meets_of_error {constraint : Constraint} {refusal : Refusal}
    (hv : provider.value? node constraint.name = .error refusal) :
    ¬provider.Meets node constraint := by
  rintro ⟨value, hm, -⟩
  rw [hv] at hm
  cases hm

theorem StopsWith.cons {constraint : Constraint} {answer : Except Refusal (Option String)}
    (hm : provider.Meets node constraint) (h : provider.StopsWith node constraints answer) :
    provider.StopsWith node (constraint :: constraints) answer := by
  obtain ⟨met, unmet, rest, rfl, hmet, hu, ha⟩ := h
  exact ⟨constraint :: met, unmet, rest, rfl, List.forall_mem_cons.mpr ⟨hm, hmet⟩, hu, ha⟩

/-- A node is judged by all constraints or by the first one that isn't met. -/
theorem judge_decided (provider : Provider ν) (node : ν) (constraints : List Constraint) :
    (provider.judge node constraints = .ok true ∧
        ∀ constraint ∈ constraints, provider.Meets node constraint) ∨
      (provider.judge node constraints = .ok false ∧
        ∃ value, provider.StopsWith node constraints (.ok value)) ∨
      ∃ refusal, provider.judge node constraints = .error refusal ∧
        provider.StopsWith node constraints (.error refusal) := by
  induction constraints with
  | nil => exact .inl ⟨rfl, List.forall_mem_nil _⟩
  | cons constraint constraints ih =>
    cases hv : provider.value? node constraint.name with
    | error refusal =>
      have hj : provider.judge node (constraint :: constraints) = .error refusal := by
        simp [judge, hv]
      exact .inr (.inr ⟨refusal, hj, [], constraint, constraints, rfl, List.forall_mem_nil _,
        not_meets_of_error hv, hv⟩)
    | ok value =>
      cases hmet : constraint.isMetBy value with
      | false =>
        have hj : provider.judge node (constraint :: constraints) = .ok false := by
          simp [judge, hv, hmet]
        have hu : ¬provider.Meets node constraint := by simp [meets_iff hv, hmet]
        exact .inr (.inl
          ⟨hj, value, [], constraint, constraints, rfl, List.forall_mem_nil _, hu, hv⟩)
      | true =>
        have hm := (meets_iff hv).mpr hmet
        have hnext : provider.judge node (constraint :: constraints) =
            provider.judge node constraints := by
          simp [judge, hv, hmet]
        rw [hnext]
        rcases ih with ⟨hj, hall⟩ | ⟨hj, value, hs⟩ | ⟨refusal, hj, hs⟩
        · exact .inl ⟨hj, List.forall_mem_cons.mpr ⟨hm, hall⟩⟩
        · exact .inr (.inl ⟨hj, value, hs.cons hm⟩)
        · exact .inr (.inr ⟨refusal, hj, hs.cons hm⟩)

/-- Lookups stop at one place only. -/
theorem StopsWith.judge_eq {answer : Except Refusal (Option String)}
    (h : provider.StopsWith node constraints answer) :
    provider.judge node constraints = answer.map fun _ => false := by
  obtain ⟨met, unmet, rest, rfl, hmet, hu, ha⟩ := h
  induction met with
  | nil =>
    rw [List.nil_append, judge, ha]
    cases answer with
    | error refusal => rfl
    | ok value =>
      rw [meets_iff ha] at hu
      simp [hu, Except.map]
  | cons constraint met ih =>
    obtain ⟨hm, hmet⟩ := List.forall_mem_cons.mp hmet
    have hm' := hm
    obtain ⟨value, hv, -⟩ := hm'
    rw [meets_iff hv] at hm
    simp only [List.cons_append, judge, hv, hm, if_true]
    exact ih hmet

theorem judge_of_meets (hm : ∀ constraint ∈ constraints, provider.Meets node constraint) :
    provider.judge node constraints = .ok true := by
  have hstop {answer : Except Refusal (Option String)} :
      ¬provider.StopsWith node constraints answer := by
    rintro ⟨met, unmet, rest, rfl, -, hu, -⟩
    exact hu (hm unmet (by simp))
  rcases provider.judge_decided node constraints with ⟨hj, -⟩ | ⟨-, value, hs⟩ | ⟨refusal, -, hs⟩
  · exact hj
  · exact absurd hs hstop
  · exact absurd hs hstop

/-! ## Anchors -/

variable {origin : ν} {first : Step}

theorem matchesName_iff {name : String} :
    first.matchesName name = true ↔ first.name = "" ∨ name = first.name := by
  simp [Step.matchesName]

/-- The anchor of an absolute path is what it's decided to be. -/
theorem anchors_anchor (provider : Provider ν) (origin : ν)
    (ha : first.axis = .root ∨ first.axis = .unsupported) :
    provider.Anchors origin first (provider.anchor origin first) := by
  rw [anchor]
  cases hr : provider.root? origin with
  | none => exact .rootless hr
  | some root =>
    dsimp only
    split
    · exact .unsupported ‹_›
    · have ha := ha.resolve_right ‹_›
      cases hn : provider.name root with
      | error refusal => exact .untold hr ha hn
      | ok name =>
        dsimp only
        split
        · have he := matchesName_iff.mp ‹_›
          rcases provider.judge_decided root first.constraints with
            ⟨hj, hm⟩ | ⟨hj, value, hs⟩ | ⟨refusal, hj, hs⟩
          · rw [hj]
            exact .root hr ha hn he hm
          · rw [hj]
            exact .unmet hr ha hn he hs
          · rw [hj]
            exact .unread hr ha hn he hs
        · have he : ¬(first.name = "" ∨ name = first.name) := fun h =>
            absurd (matchesName_iff.mpr h) ‹_›
          exact .mismatch hr ha hn (fun h => he (.inl h)) fun h => he (.inr h)

/-- Nothing else is decided. -/
theorem Anchors.eq {outcome : Except Error (Option ν)} (h : provider.Anchors origin first outcome) :
    provider.anchor origin first = outcome := by
  cases h with
  | rootless hr => simp [anchor, hr]
  | unsupported ha => cases hr : provider.root? origin <;> simp [anchor, hr, ha]
  | untold hr ha hn => simp [anchor, hr, ha, hn]
  | @mismatch root name hr ha hn he hne =>
    have hm : first.matchesName name = false := by
      rw [Bool.eq_false_iff, Ne, matchesName_iff]
      exact not_or.mpr ⟨he, hne⟩
    simp [anchor, hr, ha, hn, hm]
  | unread hr ha hn he hs =>
    simp [anchor, hr, ha, hn, matchesName_iff.mpr he, hs.judge_eq, Except.map]
  | unmet hr ha hn he hs =>
    simp [anchor, hr, ha, hn, matchesName_iff.mpr he, hs.judge_eq, Except.map]
  | root hr ha hn he hm =>
    simp [anchor, hr, ha, hn, matchesName_iff.mpr he, judge_of_meets hm]

/-! ## Outcomes -/

variable {mode : EmptyPath} {expression : String}

/-- A path is compiled as it's decided. -/
theorem decides_compile (provider : Provider ν) (mode : EmptyPath) (origin : Option ν)
    (expression : String) :
    provider.Decides mode origin expression (provider.compile origin expression mode) := by
  cases origin with
  | none => exact .absent expression
  | some origin =>
    rw [compile]
    cases hn : provider.name origin with
    | error refusal => exact .untold hn expression
    | ok name =>
      dsimp only
      split
      · obtain rfl : expression = "" := by simpa using ‹expression.isEmpty = true›
        exact .empty hn
      · have he : expression ≠ "" := by simpa using ‹¬expression.isEmpty = true›
        cases hc : compileSteps expression with
        | error malformed => exact .malformed hn he (compileParts_eq_error.mp hc)
        | ok steps =>
          have hs : ReadsAs expression steps := compileParts_eq_ok.mp hc
          obtain ⟨first, rest, rfl, -, hroot, -⟩ := exists_of_compileSteps hc
          dsimp only
          split
          · have ha : isAbsolute expression = true := ‹_›
            exact .absolute hn hs ha (anchors_anchor provider origin (hroot ha))
          · exact .relative hn he hs (Bool.eq_false_iff.mpr ‹_›)

/-- Nothing else is decided. -/
theorem Decides.eq {origin : Option ν} {outcome : Except Error (Option ν × List Step)}
    (h : provider.Decides mode origin expression outcome) :
    provider.compile origin expression mode = outcome := by
  cases h with
  | absent => rfl
  | untold hn => simp [compile, hn]
  | empty hn => simp [compile, hn]
  | malformed hn he hs =>
    have hc : compileSteps expression = _ := compileParts_eq_error.mpr hs
    simp [compile, hn, he, hc]
  | absolute hn hs ha hf =>
    have hc := hs.compileSteps_eq
    have he : expression ≠ "" := by
      rintro rfl
      cases ha
    simp [compile, hn, he, hc, ha, hf.eq]
  | relative hn he hs ha =>
    have hc := hs.compileSteps_eq
    simp [compile, hn, he, hc, ha]

/-- Where an absolute path is anchored, and when it isn't. -/
theorem Anchors.eq_none_iff {anchor : Option ν} (h : provider.Anchors origin first (.ok anchor)) :
    (anchor = none ∨ anchor = provider.root? origin) ∧
      (anchor = none ↔ provider.root? origin = none ∨ first.axis = .unsupported ∨
        ∃ root, provider.root? origin = some root ∧
          ∃ constraint ∈ first.constraints, ¬provider.Meets root constraint) := by
  cases h with
  | rootless hr => exact ⟨.inl rfl, iff_of_true rfl (.inl hr)⟩
  | unsupported ha => exact ⟨.inl rfl, iff_of_true rfl (.inr (.inl ha))⟩
  | unmet hr ha hn he hs =>
    obtain ⟨met, unmet, rest, hc, -, hu, -⟩ := hs
    have hm : unmet ∈ first.constraints := by simp [hc]
    exact ⟨.inl rfl, iff_of_true rfl (.inr (.inr ⟨_, hr, unmet, hm, hu⟩))⟩
  | root hr ha hn he hm =>
    refine ⟨.inr hr.symm, iff_of_false nofun ?_⟩
    rintro (hr' | ha' | ⟨root, hr', constraint, hc, hu⟩)
    · rw [hr] at hr'
      cases hr'
    · rw [ha] at ha'
      cases ha'
    · obtain rfl := Option.some.inj (hr.symm.trans hr')
      exact hu (hm constraint hc)

/-- A compiled path fits its expression. -/
theorem exists_fits {anchor : Option ν} {steps : List Step} (he : expression ≠ "")
    (h : provider.Decides mode (some origin) expression (.ok (anchor, steps))) :
    ∃ first rest, steps = first :: rest ∧ provider.Fits origin expression anchor first rest := by
  generalize hp : (Except.ok (anchor, steps) : Except Error _) = outcome at h
  cases h with
  | untold => cases hp
  | empty => exact absurd rfl he
  | malformed => cases hp
  | @absolute _ name _ first rest found hn hs ha hf =>
    cases found with
    | error error => cases hp
    | ok found =>
      cases hp
      obtain ⟨_, _, heq, -, hroot, -, hrest⟩ :=
        exists_of_compileSteps hs.compileSteps_eq
      cases heq
      obtain ⟨hanchor, hnone⟩ := hf.eq_none_iff
      refine ⟨first, rest, rfl, fun step hm => (hrest step hm).2, ?_, fun _ => ⟨hs, hanchor, hnone⟩,
        fun hr => ?_⟩
      · rcases hroot ha with hr | hu
        · exact iff_of_true hr ⟨ha, by simp [hr]⟩
        · exact iff_of_false (by simp [hu]) fun h => h.2 hu
      · rw [ha] at hr
        cases hr
  | @relative _ name _ found hn _ hs ha =>
    cases hp
    obtain ⟨front, rest, rfl, -, -, hfront, hrest⟩ :=
      exists_of_compileSteps hs.compileSteps_eq
    refine ⟨{ name }, front :: rest, rfl, ?_, ?_, fun hr => ?_, fun _ => ⟨rfl, hs, name, hn, rfl⟩⟩
    · exact List.forall_mem_cons.mpr ⟨hfront ha, fun step hm => (hrest step hm).2⟩
    · exact iff_of_false nofun fun h => by simp [ha] at h
    · rw [ha] at hr
      cases hr

/-! ## Positions -/

/-- What positions tell, in a tree with the given root. -/
def ofRoot (root : Option Position) : Provider Position where
  name position :=
    match position.refusal? with
    | none => .ok position.name
    | some refusal => .error refusal
  root? _ := root
  value? := Position.value?

@[simp] theorem ofRoot_root? (root : Option Position) (position : Position) :
    (ofRoot root).root? position = root := rfl

@[simp] theorem ofRoot_name (root : Option Position) (position : Position) :
    (ofRoot root).name position =
      match position.refusal? with
      | none => .ok position.name
      | some refusal => .error refusal := rfl

theorem ofRoot_judge (root : Option Position) (position : Position)
    (constraints : List Constraint) :
    (ofRoot root).judge position constraints = position.judge constraints := by
  induction constraints with
  | nil => rfl
  | cons constraint constraints ih =>
    rw [judge, Position.judge, ih]
    rfl

theorem ofRoot_anchor (origin : Origin) (first : Step) :
    (ofRoot origin.root).anchor origin.position first = (origin.anchor first).outcome := by
  rw [Origin.outcome_anchor, anchor, ofRoot_root?]
  cases origin.root with
  | none => rfl
  | some root =>
    simp only [ofRoot_name, ofRoot_judge]
    split
    · rfl
    · cases root.refusal? with
      | some refusal => rfl
      | none =>
        dsimp only
        split
        · cases root.judge first.constraints <;> rfl
        · rfl

end Provider

/-- Paths are compiled with what positions tell. -/
theorem Path.outcome_compile (origin : Option Origin) (expression : String) (mode : EmptyPath) :
    (compile origin expression mode).outcome.map (fun path => (path.anchor, path.steps)) =
      (Provider.ofRoot (origin.bind Origin.root)).compile (origin.map Origin.position) expression
        mode := by
  cases origin with
  | none => rfl
  | some origin =>
    simp only [compile, Position.tellName, Provider.compile, Option.map_some, Option.bind_some,
      Provider.ofRoot_name]
    cases origin.position.refusal? with
    | some refusal => rfl
    | none =>
      simp only [pure_bind]
      split
      · cases mode <;> rfl
      · cases compileSteps expression with
        | error malformed => rfl
        | ok steps =>
          dsimp only
          split
          · cases steps with
            | nil => rfl
            | cons first rest =>
              simp only [Provider.ofRoot_anchor, Reading.outcome_bind]
              cases (origin.anchor first).outcome <;> rfl
          · rfl

/-- How compiling a path ends, with whatever provider, and what the path has that it may give. -/
theorem Path.compile_decided :
    (∀ {ν : Type} (provider : Provider ν) (mode : EmptyPath) (origin : Option ν)
        (expression : String),
      (∀ outcome, provider.compile origin expression mode = outcome ↔
        provider.Decides mode origin expression outcome) ∧
      ∀ anchor steps, provider.compile origin expression mode = .ok (anchor, steps) →
        expression ≠ "" → ∃ start first rest, origin = some start ∧ steps = first :: rest ∧
          provider.Fits start expression anchor first rest) ∧
    ∀ (origin : Option Origin) (expression : String) (mode : EmptyPath),
      (compile origin expression mode).outcome.map (fun path => (path.anchor, path.steps)) =
        (Provider.ofRoot (origin.bind Origin.root)).compile (origin.map Origin.position) expression
          mode := by
  refine ⟨fun provider mode origin expression => ⟨fun outcome => ?_, fun anchor steps h he => ?_⟩,
    outcome_compile⟩
  · constructor
    · rintro rfl
      exact provider.decides_compile mode origin expression
    · exact Provider.Decides.eq
  · have hd := provider.decides_compile mode origin expression
    rw [h] at hd
    cases origin with
    | none => cases hd
    | some start =>
      obtain ⟨first, rest, hs, hf⟩ := Provider.exists_fits he hd
      exact ⟨start, first, rest, rfl, hs, hf⟩

/-- A book whose chapters are the numbers from one on. -/
def bookProvider : Provider Nat where
  name node := .ok (if node = 0 then "book" else "chapter")
  root? _ := some 0
  value? node name := .ok (if node = 0 ∧ name = "id" then some "x" else none)

theorem compile_decided_bookProvider :
    bookProvider.compile (some 1) "/book[@id='x']/chapter" .self =
        .ok (some 0, [{ name := "book", axis := .root, constraints := [⟨"id", "x"⟩] },
          { name := "chapter" }]) ∧
      (∃ start first rest, some 1 = some start ∧
        [{ name := "book", axis := .root, constraints := [⟨"id", "x"⟩] }, { name := "chapter" }] =
          first :: rest ∧
        bookProvider.Fits start "/book[@id='x']/chapter" (some 0) first rest) ∧
      bookProvider.Decides .self (some 1) "/tome/*" (.error (.rootMismatch "tome" "book")) :=
  have hc : bookProvider.compile (some 1) "/book[@id='x']/chapter" .self = .ok (some 0, _) := rfl
  ⟨hc, (Path.compile_decided.1 bookProvider .self (some 1) _).2 _ _ hc (by decide),
    ((Path.compile_decided.1 bookProvider .self (some 1) _).1 _).mp rfl⟩

/-- An expression that is empty isn't always compiled: an origin may not tell its name, and neither
attributes nor the root matter then. -/
theorem not_compiled_untoldForest :
    Forest.Reached untoldForest ∧
      (∃ origin, untoldForest.origin? ⟨0⟩ = some origin ∧
        (Path.compile (some origin) "" .self).outcome = .error (.lookup (.tagName "p:b"))) ∧
      ¬ ∀ (provider : Provider Position) (origin : Position) (mode : EmptyPath),
        (∀ position name, ∃ value, provider.value? position name = .ok value) →
        ∃ steps, provider.compile (some origin) "" mode = .ok (some origin, steps) := by
  let top := untoldForest.positions.get ⟨0, by decide +kernel⟩
  have hr : top.refusal? = some (.tagName "p:b") := by decide +kernel
  refine ⟨.load .empty load_untoldForest, ⟨⟨top, some top⟩, rfl, ?_⟩, fun h => ?_⟩
  · have ho : Origin.position ⟨top, some top⟩ = top := rfl
    exact Path.outcome_compile_of_refusal (ho ▸ hr)
  · let provider : Provider Position := { Provider.ofRoot none with value? := fun _ _ => .ok none }
    obtain ⟨steps, hs⟩ := h provider top .self fun _ _ => ⟨none, rfl⟩
    have hn : provider.name top = .error (.tagName "p:b") := by
      change (Provider.ofRoot none).name top = _
      rw [Provider.ofRoot_name, hr]
    rw [(Provider.Decides.untold hn "").eq] at hs
    cases hs

end MarkupPath
