import Mathlib.Data.List.Basic
import MarkupPath.Proofs.Path.Offsets
import MarkupPath.Proofs.Path.Parts
import MarkupPath.Proofs.Search.Iteration

/-!
# Concatenated paths

Two path expressions are joined by a slash, unless the second one starts with two already. Main
statement: the joined expression has the steps of both, one after the other, and it selects what
the second one selects from each of the nodes that the first one selects
(`search_joinPaths`).

The expression is split where the two were joined (`splitPath_append_slash`), and the parts of the
second one mean the same at their new places (`compileParts_shift`).
-/

namespace MarkupPath

/-- Two path expressions, one behind the other. -/
def joinPaths (first second : String) : String :=
  if second.toList.take 2 = ['/', '/'] then first ++ second else first ++ "/" ++ second

/-- What of a path expression comes behind the slash that joins it to another one. -/
def behindSlash : List Char → List Char
  | '/' :: '/' :: rest => '/' :: rest
  | second => second

/-- A path expression behind which another one can be put: it isn't empty, it doesn't end with a
slash, and all quotes and brackets are closed. -/
structure IsComplete (expression : String) : Prop where
  /-- there's at least one character -/
  nonempty : expression.toList ≠ []
  /-- the last character isn't a slash -/
  last_ne : expression.toList.getLast? ≠ some '/'
  /-- no quote or bracket is open behind it -/
  isOpen : (Split.nestingBehind expression.toList).isOpen = true

/-! ## Steps -/

theorem compileParts_cons {part : Part} {parts : List Part} {steps : List Step} :
    compileParts (part :: parts) = .ok steps ↔
      ∃ step rest, Step.compile part.text part.offset = .ok step ∧
        compileParts parts = .ok rest ∧ steps = step :: rest := by
  rw [compileParts]
  cases Step.compile part.text part.offset with
  | error malformed => simp [bind, Except.bind]
  | ok step =>
    cases compileParts parts with
    | error malformed => simp [bind, Except.bind]
    | ok rest => simp [bind, Except.bind, pure, Except.pure, eq_comm]

/-- Parts are compiled one by one. -/
theorem compileParts_eq_ok {parts : List Part} {steps : List Step} :
    compileParts parts = .ok steps ↔
      List.Forall₂ (fun part step => Step.compile part.text part.offset = .ok step) parts steps := by
  constructor
  · intro h
    induction parts generalizing steps with
    | nil =>
      cases h
      exact .nil
    | cons part parts ih =>
      obtain ⟨step, rest, hs, hr, rfl⟩ := compileParts_cons.mp h
      exact .cons hs (ih hr)
  · intro h
    induction h with
    | nil => rfl
    | cons hs _ ih => exact compileParts_cons.mpr ⟨_, _, hs, ih, rfl⟩

theorem compileParts_append {front back : List Part} {steps more : List Step}
    (hf : compileParts front = .ok steps) (hb : compileParts back = .ok more) :
    compileParts (front ++ back) = .ok (steps ++ more) := by
  induction front generalizing steps with
  | nil =>
    cases hf
    exact hb
  | cons part front ih =>
    obtain ⟨step, rest, hs, hr, rfl⟩ := compileParts_cons.mp hf
    exact compileParts_cons.mpr ⟨step, rest ++ more, hs, ih hr, rfl⟩

/-- Parts that don't start at the very start of a path can be moved. -/
theorem compileParts_shift {parts : List Part} {steps : List Step} (distance : Nat)
    (hp : ∀ part ∈ parts, 0 < part.offset) (h : compileParts parts = .ok steps) :
    compileParts (parts.map (Part.shift · distance)) = .ok steps := by
  induction parts generalizing steps with
  | nil => exact h
  | cons part parts ih =>
    obtain ⟨step, rest, hs, hr, rfl⟩ := compileParts_cons.mp h
    have ho := hp part List.mem_cons_self
    refine compileParts_cons.mpr ⟨step, rest, ?_, ?_, rfl⟩
    · exact Step.compile_at (by omega) (by simp only [Part.shift]; omega) hs
    · exact ih (fun part hm => hp part (List.mem_cons_of_mem _ hm)) hr

/-- The parts of a relative path stand for the same steps behind a slash at another place. -/
theorem compileParts_behindSlash {second : List Char} {steps : List Step} {place : Nat}
    (hp : 0 < place) (hs : second.head? = some '/' → second.take 2 = ['/', '/'])
    (h : compileParts (splitPath second) = .ok steps) :
    compileParts (Split.parts place place {} [] (behindSlash second)) = .ok steps := by
  simp only [behindSlash]
  split
  · -- of the two slashes one is the separator, the other one goes with the step
    rename_i rest
    obtain ⟨first, others, -, ho, he⟩ := Split.exists_parts 2 {} ['/', '/'] rest
    have hstart : Split.parts 2 0 {} ['/', '/'] rest = ⟨0, '/' :: '/' :: first⟩ :: others := by
      simpa [Part.shift] using he 0 0 ['/', '/'] rfl
    have hplace : Split.parts place place {} [] ('/' :: rest) =
        ⟨place, '/' :: first⟩ :: others.map (Part.shift · (place - 1)) := by
      have := he (place - 1) place ['/'] rfl
      rw [show 2 + (place - 1) = place + 1 by omega] at this
      exact this
    change compileParts (Split.parts 2 0 {} ['/', '/'] rest) = .ok steps at h
    rw [hstart] at h
    obtain ⟨step, more, hc, hm, rfl⟩ := compileParts_cons.mp h
    rw [hplace]
    refine compileParts_cons.mpr ⟨step, more, ?_, ?_, rfl⟩
    · exact Step.compile_slash_at (by simpa using hp) hc
    · exact compileParts_shift _ (fun part hm => Nat.zero_lt_of_lt (ho part hm)) hm
  · rename_i hn
    obtain ⟨first, others, hf, ho, he⟩ := Split.exists_parts 0 {} [] second
    have hstart : Split.parts 0 0 {} [] second = ⟨0, first⟩ :: others := by
      simpa [Part.shift] using he 0 0 [] rfl
    have hplace : Split.parts place place {} [] second =
        ⟨place, first⟩ :: others.map (Part.shift · place) := by
      simpa using he place place [] rfl
    -- a single slash can't be at the start, or the path would be absolute
    have hslash : first.head? ≠ some '/' := by
      intro hh
      obtain ⟨behind, rfl⟩ := hf
      cases first with
      | nil => cases hh
      | cons c first =>
        cases hh
        have ht := hs rfl
        cases hb : first ++ behind with
        | nil => simp [hb] at ht
        | cons d rest =>
          obtain rfl : d = '/' := by simpa [hb] using ht
          exact hn rest (by rw [List.cons_append, hb])
    rw [splitPath, hstart] at h
    obtain ⟨step, more, hc, hm, rfl⟩ := compileParts_cons.mp h
    rw [hplace]
    refine compileParts_cons.mpr ⟨step, more, ?_, ?_, rfl⟩
    · exact Step.compile_at_of_start hslash (by simpa using hp) hc
    · exact compileParts_shift _ ho hm

theorem toList_joinPaths (first second : String) :
    (joinPaths first second).toList = first.toList ++ '/' :: behindSlash second.toList := by
  simp only [joinPaths]
  split
  · rename_i h
    obtain ⟨rest, hr⟩ : ∃ rest, second.toList = '/' :: '/' :: rest := by
      rw [← List.take_append_drop 2 second.toList, h]
      exact ⟨_, rfl⟩
    rw [String.toList_append, hr]
    rfl
  · rename_i h
    have hb : behindSlash second.toList = second.toList := by
      simp only [behindSlash]
      split
      · rename_i rest hr
        rw [hr] at h
        exact absurd rfl h
      · rfl
    rw [String.toList_append, String.toList_append, List.append_assoc, hb]
    rfl

/-- A relative path starts with no slash or with two. -/
theorem take_two_of_relative {expression : String} (h : isAbsolute expression = false)
    (hs : expression.toList.head? = some '/') : expression.toList.take 2 = ['/', '/'] := by
  simp only [isAbsolute] at h
  split at h
  · rename_i hl
    rw [hl]
    rfl
  · cases h
  · rename_i hn
    obtain ⟨rest, hr⟩ := List.head?_eq_some_iff.mp hs
    exact absurd hr (hn rest)

/-- What is put behind an expression doesn't change where it's anchored. -/
theorem isAbsolute_joinPaths {first : String} (second : String) (h : IsComplete first) :
    isAbsolute (joinPaths first second) = isAbsolute first := by
  simp only [isAbsolute]
  rw [toList_joinPaths]
  have hne := h.nonempty
  have hlast := h.last_ne
  cases hf : first.toList with
  | nil => exact absurd hf hne
  | cons c rest =>
    cases rest with
    | nil =>
      rw [hf] at hlast
      have : c ≠ '/' := by simpa using hlast
      simp [this]
    | cons d rest =>
      rw [List.cons_append, List.cons_append]
      by_cases hc : c = '/'
      · subst hc
        by_cases hd : d = '/'
        · subst hd
          rfl
        · simp [hd]
      · simp [hc]

theorem compileSteps_joinPaths {first second : String} {steps more : List Step}
    (h : IsComplete first) (hr : isAbsolute second = false) (hf : compileSteps first = .ok steps)
    (hs : compileSteps second = .ok more) :
    compileSteps (joinPaths first second) = .ok (steps ++ more) := by
  rw [compileSteps, toList_joinPaths, splitPath_append_slash h.isOpen h.nonempty h.last_ne]
  exact compileParts_append hf
    (compileParts_behindSlash (Nat.succ_pos _) (take_two_of_relative hr) hs)

/-! ## Paths -/

/-- What it takes to compile an expression that isn't empty. -/
theorem Path.compile_eq_ok {origin : Origin} {expression : String} {mode : EmptyPath} {path : Path}
    (hn : expression.toList ≠ []) :
    (compile (some origin) expression mode).outcome = .ok path ↔
      origin.position.refusal? = none ∧ ∃ steps, compileSteps expression = .ok steps ∧
        if isAbsolute expression = true then
          ∃ first rest, steps = first :: rest ∧ path.steps = steps ∧
            (origin.anchor first).outcome = .ok path.anchor
        else path = ⟨some origin.position, { name := origin.position.name } :: steps⟩ := by
  have he : expression.isEmpty = false := by
    rw [Bool.eq_false_iff]
    intro h
    rw [String.isEmpty_iff] at h
    subst h
    exact hn rfl
  obtain ⟨anchor, psteps⟩ := path
  simp only [compile, Position.tellName, he]
  cases origin.position.refusal? with
  | some refusal => simp
  | none =>
    cases compileSteps expression with
    | error malformed => simp
    | ok steps =>
      cases ha : isAbsolute expression with
      | false => simp [eq_comm]
      | true =>
        cases steps with
        | nil => simp
        | cons first rest =>
          simp only [pure_bind, Bool.false_eq_true, if_false, if_true, Reading.outcome_bind]
          cases hf : (origin.anchor first).outcome with
          | error error => simp [bind, Except.bind, hf]
          | ok found => simp [bind, Except.bind, hf, eq_comm, and_comm]

/-- A joined path has the anchor of the first one and the steps of both. -/
theorem Path.compile_joinPaths {origin other : Origin} {first second : String}
    {mode otherMode : EmptyPath} {path more : Path} (h : IsComplete first)
    (hn : second.toList ≠ []) (hr : isAbsolute second = false)
    (hf : (compile (some origin) first mode).outcome = .ok path)
    (hs : (compile (some other) second otherMode).outcome = .ok more) :
    (compile (some origin) (joinPaths first second) mode).outcome =
      .ok ⟨path.anchor, path.steps ++ more.steps.drop 1⟩ := by
  obtain ⟨hname, steps, hsteps, hpath⟩ := (compile_eq_ok h.nonempty).mp hf
  obtain ⟨-, others, hothers, hmore⟩ := (compile_eq_ok hn).mp hs
  rw [hr, if_neg Bool.false_ne_true] at hmore
  subst hmore
  have hjoined : (joinPaths first second).toList ≠ [] := by
    rw [toList_joinPaths]
    simp
  refine (compile_eq_ok hjoined).mpr
    ⟨hname, steps ++ others, compileSteps_joinPaths h hr hsteps hothers, ?_⟩
  rw [isAbsolute_joinPaths second h]
  split at hpath
  · rename_i ha
    obtain ⟨front, rest, rfl, hp, hanchor⟩ := hpath
    rw [if_pos ha]
    exact ⟨front, rest ++ others, rfl, by rw [hp]; rfl, hanchor⟩
  · rename_i ha
    subst hpath
    rw [if_neg ha]
    rfl

/-- A relative path has the same steps at every node. -/
theorem Path.steps_of_relative {origin other : Origin} {expression : String}
    {mode otherMode : EmptyPath} {path more : Path} (hn : expression.toList ≠ [])
    (hr : isAbsolute expression = false)
    (hf : (compile (some origin) expression mode).outcome = .ok path)
    (hs : (compile (some other) expression otherMode).outcome = .ok more) :
    path.anchor = some origin.position ∧ path.steps.drop 1 = more.steps.drop 1 := by
  obtain ⟨-, steps, hsteps, hpath⟩ := (compile_eq_ok hn).mp hf
  obtain ⟨-, others, hothers, hmore⟩ := (compile_eq_ok hn).mp hs
  rw [hr, if_neg Bool.false_ne_true] at hpath hmore
  obtain rfl : steps = others := Except.ok.inj (hsteps.symm.trans hothers)
  subst hpath hmore
  exact ⟨rfl, rfl⟩

/-! ## Matches -/

/-- What a search for further steps comes upon at a match of those before. -/
def onward (steps : List Step) : Sighting → List Sighting
  | .error refusal => [.error refusal]
  | .ok position => sightings position steps

theorem Step.pursue_flatMap (step : Step) (below : Position → List Sighting) (steps : List Step)
    (sighting : Sighting) :
    step.pursue (fun position => (below position).flatMap (onward steps)) sighting =
      (step.pursue below sighting).flatMap (onward steps) := by
  cases sighting with
  | error refusal => rfl
  | ok position =>
    simp only [pursue]
    split <;> rfl

theorem sightings_append (context : Position) (steps more : List Step) :
    sightings context (steps ++ more) = (sightings context steps).flatMap (onward more) := by
  induction steps generalizing context with
  | nil => exact (List.append_nil _).symm
  | cons step steps ih =>
    rw [List.cons_append, sightings, sightings, List.flatMap_assoc]
    simp only [ih]
    exact congrArg (List.flatMap · _) (funext (step.pursue_flatMap _ more))

/-- Searches at all nodes in turn come upon nodes only if each of them does. -/
theorem flatMap_onward {nodes : List Position} {steps : List Step}
    {found : Position → List Position}
    (h : ∀ node ∈ nodes, sightings node steps = (found node).map .ok) :
    (nodes.map .ok).flatMap (onward steps) = (nodes.flatMap found).map .ok := by
  rw [List.map_flatMap, List.flatMap_map]
  exact List.flatMap_congr h

theorem search_yields_iff {origin : Origin} {expression : String} {mode : EmptyPath}
    {nodes : List Position} :
    (search (some origin) expression mode).Yields nodes ↔
      ∃ path, (Path.compile (some origin) expression mode).outcome = .ok path ∧
        path.steps ≠ [] ∧ path.sightings = nodes.map .ok := by
  have hb : (search (some origin) expression mode).outcome =
      (Path.compile (some origin) expression mode).outcome >>= fun path =>
        (Cursor.start path).outcome := Reading.outcome_bind _ _
  constructor
  · rintro ⟨cursor, limit, hc, hl⟩
    rw [hb] at hc
    cases hp : (Path.compile (some origin) expression mode).outcome with
    | error error =>
      rw [hp] at hc
      cases hc
    | ok path =>
      rw [hp] at hc
      exact ⟨path, rfl, start_yields_iff.mp ⟨cursor, limit, hc, hl⟩⟩
  · rintro ⟨path, hp, hs⟩
    obtain ⟨cursor, limit, hc, hl⟩ := start_yields_iff.mpr hs
    exact ⟨cursor, limit, by rw [hb, hp]; exact hc, hl⟩

/-- A joined path has the steps of both, and it selects what the second one selects from the nodes
that the first one selects. -/
theorem search_joinPaths {origin other : Origin} {first second : String}
    {mode otherMode : EmptyPath} {path more : Path} (h : IsComplete first)
    (hn : second.toList ≠ []) (hr : isAbsolute second = false)
    (hf : (Path.compile (some origin) first mode).outcome = .ok path)
    (hs : (Path.compile (some other) second otherMode).outcome = .ok more) :
    (Path.compile (some origin) (joinPaths first second) mode).outcome =
        .ok ⟨path.anchor, path.steps ++ more.steps.drop 1⟩ ∧
      ∀ (nodes : List Position) (found : Position → List Position),
        (search (some origin) first mode).Yields nodes →
        (∀ node ∈ nodes, (search (some ⟨node, origin.root⟩) second mode).Yields (found node)) →
        (search (some origin) (joinPaths first second) mode).Yields (nodes.flatMap found) := by
  have hjoined := Path.compile_joinPaths h hn hr hf hs
  refine ⟨hjoined, fun nodes found hnodes hfound => ?_⟩
  obtain ⟨path', hp, hne, hseen⟩ := search_yields_iff.mp hnodes
  obtain rfl : path' = path := Except.ok.inj (hp.symm.trans hf)
  refine search_yields_iff.mpr ⟨_, hjoined, by simp [hne], ?_⟩
  obtain ⟨anchor, steps⟩ := path'
  cases steps with
  | nil => exact absurd rfl hne
  | cons front rest =>
    cases anchor with
    | none =>
      cases nodes with
      | nil => rfl
      | cons node nodes => cases hseen
    | some anchor =>
      change sightings anchor (rest ++ more.steps.drop 1) = _
      change sightings anchor rest = nodes.map .ok at hseen
      rw [sightings_append, hseen]
      apply flatMap_onward
      intro node hm
      obtain ⟨there, ht, -, hthere⟩ := search_yields_iff.mp (hfound node hm)
      obtain ⟨ha, hd⟩ := Path.steps_of_relative hn hr ht hs
      rw [Path.sightings, ha, hd] at hthere
      exact hthere

/-- Two nodes of the same name, one of them marked with a slash in an attribute. -/
def markedTree : Position :=
  .top ⟨{ id := ⟨0⟩, name := { localPart := "r" } },
    .element { id := ⟨1⟩, name := { localPart := "a" }, attributes := [⟨{ localPart := "t" }, "x/y"⟩] }
      (.element { id := ⟨2⟩, name := { localPart := "c" } }
        (.element { id := ⟨3⟩, name := { localPart := "c" } } .nil none .nil) none .nil) none
      (.element { id := ⟨4⟩, name := { localPart := "a" } }
        (.element { id := ⟨5⟩, name := { localPart := "c" } } .nil none .nil) none .nil)⟩

theorem search_joinPaths_markedTree :
    IsComplete "a[@t='x/y']" ∧ isAbsolute "//c" = false ∧
      (search (some ⟨markedTree, none⟩) "a[@t='x/y']//c" .self).Yields
        ((markedTree.children.take 1).flatMap Position.descendants) := by
  have h : IsComplete "a[@t='x/y']" := ⟨by decide, by decide, by decide⟩
  have hj := @search_joinPaths ⟨markedTree, none⟩ ⟨markedTree, none⟩ "a[@t='x/y']" "//c" .self .self
    _ _ h (by decide) rfl rfl rfl
  refine ⟨h, rfl, hj.2 _ _ (search_yields_iff.mpr ⟨_, rfl, by decide, rfl⟩) fun node hm => ?_⟩
  obtain rfl := List.mem_singleton.mp hm
  exact search_yields_iff.mpr ⟨_, rfl, by decide, rfl⟩

end MarkupPath
