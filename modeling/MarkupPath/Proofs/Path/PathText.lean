import MarkupPath.Proofs.Path.Concatenation
import MarkupPath.Proofs.Path.StepText

/-!
# Compiling the text of a path

A compiled path has a text, and what that is compiled to is another question. Main statement: as
long as all steps are understood, the text is compiled to the same steps if and only if it's
faithful (`Path.exists_compile_text_iff`). It isn't if a value holds both kinds of quotes, or if a
step for all children comes before another one or right behind the origin, where it leaves a slash
too much or nothing at all (`Path.HasFaithfulText`).

The text is split and compiled step by step. A step that can be read back is exactly one part
(`Step.Fits.isReadBack_cons`); one that can't is read as something else, whatever comes behind it
(`Step.Fits.not_isReadBack`, `not_isReadBack_blank`), so no mistake is made up for by another one.
-/

namespace MarkupPath

open Split

/-! ## Steps behind one another -/

/-- The texts of steps behind another step. -/
def behindText (steps : List Step) : List Char := steps.flatMap fun step => '/' :: step.text.toList

/-- A step with others behind it is read back from its text. -/
def IsReadBack (offset : Nat) (step : Step) (rest : List Step) : Prop :=
  compileParts (parts offset offset {} [] (step.written offset ++ behindText rest)) =
    .ok (step :: rest)

variable {offset : Nat} {step : Step} {rest : List Step}

/-- The part in front of steps ends where they begin. -/
theorem parts_behindText_cons {position offset : Nat} {collected : List Char} (next : Step)
    (hf : isFilled collected = true) :
    parts position offset {} collected (behindText (next :: rest)) =
      ⟨offset, collected⟩ :: parts (position + 1) (position + 1) {} []
        (next.written (position + 1) ++ behindText rest) := by
  have hs : separates {} collected '/' = true := by
    rw [separates_eq, hf]
    rfl
  rw [behindText, List.flatMap_cons, List.cons_append, parts_cons, if_pos hs,
    Step.toList_text_eq_written fun h => absurd h (Nat.succ_ne_zero position)]
  rfl

/-- Behind the slashes there's something else in the text of a step, unless it's for all children.
-/
theorem Step.Fits.head?_body (h : step.Fits offset) (hs : step ≠ {}) :
    ∃ c body, step.bareTest ++ constraintsText step.constraints = c :: body ∧ c ≠ '/' := by
  cases hb : step.bareTest with
  | cons c body =>
    refine ⟨c, body ++ constraintsText step.constraints, rfl, ?_⟩
    exact (h.regular.notMem_bareTest (by rw [hb]; exact List.mem_cons_self)).2
  | nil =>
    cases hc : step.constraints with
    | cons constraint constraints =>
      rw [constraintsText, List.flatMap_cons, Constraint.toList_text]
      exact ⟨'[', _, rfl, by decide⟩
    | nil =>
      refine absurd ?_ hs
      have hsupported := h.supported
      obtain ⟨name, axis, constraints⟩ := step
      cases axis with
      | children =>
        obtain rfl : name = "" := by simpa [bareTest] using hb
        obtain rfl : constraints = [] := hc
        rfl
      | descendants | root =>
        simp only [bareTest] at hb
        split at hb <;> simp_all
      | anyChild | self | parent => cases hb
      | unsupported => exact absurd rfl hsupported

/-- There's more than slashes in the text of a step, unless it's for all children. -/
theorem Step.Fits.isFilled_written (h : step.Fits offset) (hs : step ≠ {}) :
    isFilled (step.written offset) = true := by
  obtain ⟨c, body, hb, hc⟩ := h.head?_body hs
  rw [written, hb, isFilled, List.any_eq_true]
  exact ⟨c, by simp, by simpa using hc⟩

/-- The text of a step whose values can be quoted isn't split. -/
theorem Step.Fits.parts_written (h : step.Fits offset) (hq : step.IsQuotable) (rest : List Char) :
    ∃ place, parts offset offset {} [] (step.written offset ++ rest) =
      parts place offset {} (step.written offset) rest := by
  obtain ⟨hkeeps, hnest⟩ := keeps_constraintsText h.regular.constraints hq
  have hparts := h.regular.parts_text hkeeps offset rest
  rwa [hnest] at hparts

theorem Step.Fits.isReadBack_nil (h : step.Fits offset) (hq : step.IsQuotable) :
    IsReadBack offset step [] := by
  obtain ⟨place, hp⟩ := h.parts_written hq (behindText [])
  rw [IsReadBack, hp]
  exact compileParts_cons.mpr ⟨step, [], h.compile_written hq, rfl, rfl⟩

/-- In front of others a step is read back if they are, provided that it isn't for all children. -/
theorem Step.Fits.isReadBack_cons (h : step.Fits offset) (hq : step.IsQuotable) (hs : step ≠ {})
    (next : Step) (more : List Step) :
    ∃ place, 0 < place ∧ (IsReadBack offset step (next :: more) ↔ IsReadBack place next more) := by
  obtain ⟨place, hp⟩ := h.parts_written hq (behindText (next :: more))
  rw [parts_behindText_cons next (h.isFilled_written hs)] at hp
  refine ⟨place + 1, Nat.succ_pos place, ?_⟩
  rw [IsReadBack, hp, compileParts_cons]
  constructor
  · rintro ⟨first, steps, -, hr, he⟩
    obtain ⟨-, rfl⟩ := List.cons.inj he
    exact hr
  · exact fun hr => ⟨step, next :: more, h.compile_written hq, hr, rfl⟩

/-- A step for all children isn't read back if others follow, as it has no text: the slash behind it
belongs to the next step then. -/
theorem not_isReadBack_blank (next : Step) (more : List Step) :
    ¬IsReadBack offset {} (next :: more) := by
  intro h
  have hw : Step.written {} offset ++ behindText (next :: more) =
      '/' :: (next.text.toList ++ behindText more) := by
    simp [Step.written, Step.marker, Step.bareTest, constraintsText, behindText]
  obtain ⟨first, others, -, -, he⟩ :=
    exists_parts (offset + 1) {} ['/'] (next.text.toList ++ behindText more)
  have hparts := he 0 offset ['/'] rfl
  rw [Nat.add_zero] at hparts
  rw [IsReadBack, hw, parts_cons] at h
  change compileParts (parts (offset + 1) offset {} ['/'] _) = _ at h
  rw [hparts] at h
  obtain ⟨step, steps, hc, -, hs⟩ := compileParts_cons.mp h
  obtain ⟨rfl, -⟩ := List.cons.inj hs
  exact Step.axis_ne_children_of_compile hc rfl

/-- A step isn't read back if one of its values can't be quoted. -/
theorem Step.Fits.not_isReadBack (h : step.Fits offset) (hq : ¬step.IsQuotable) :
    ¬IsReadBack offset step rest := by
  obtain ⟨constraint, hm, hn⟩ : ∃ constraint ∈ step.constraints, ¬constraint.IsQuotable := by
    simpa [Step.IsQuotable] using hq
  obtain ⟨bad, hfind⟩ : ∃ bad, step.constraints.find? (fun c => !decide c.IsQuotable) = some bad :=
    Option.isSome_iff_exists.mp (List.find?_isSome.mpr ⟨constraint, hm, by simpa using hn⟩)
  obtain ⟨hbad, front, back, hs, hfront⟩ := List.find?_eq_some_iff_append.mp hfind
  have hfront : ∀ c ∈ front, c.IsQuotable := fun c hc => by simpa using hfront c hc
  have hregular : ∀ c ∈ front ++ bad :: back, c.IsRegular := hs ▸ h.regular.constraints
  -- up to the first value that can't be quoted, the step is in one part
  have hkeeps : keeps {} (constraintsText (front ++ [bad])) = true := by
    obtain ⟨hk, hnest⟩ := keeps_constraintsText (fun c hc => hregular c (by simp [hc])) hfront
    rw [constraintsText, List.flatMap_append, keeps_append]
    change keeps {} (constraintsText front) = true ∧
      keeps ((constraintsText front).foldl _ {}) _ = true
    rw [hnest, List.flatMap_cons, List.flatMap_nil, List.append_nil]
    exact ⟨hk, (hregular bad (by simp)).keeps_text⟩
  have hw : step.written offset ++ behindText rest =
      step.marker offset ++ (step.bareTest ++ constraintsText (front ++ [bad])) ++
        (constraintsText back ++ behindText rest) := by
    rw [Step.written, hs]
    simp [constraintsText]
  intro hr
  obtain ⟨place, hp⟩ :=
    h.regular.parts_text hkeeps offset (constraintsText back ++ behindText rest)
  obtain ⟨first, others, -, -, he⟩ := exists_parts place
    ((constraintsText (front ++ [bad])).foldl Nesting.after {})
    (step.marker offset ++ (step.bareTest ++ constraintsText (front ++ [bad])))
    (constraintsText back ++ behindText rest)
  have hparts := he 0 offset _ rfl
  rw [Nat.add_zero] at hparts
  rw [IsReadBack, hw, hp, hparts] at hr
  obtain ⟨step', steps, hc, -, hcons⟩ := compileParts_cons.mp hr
  obtain ⟨rfl, -⟩ := List.cons.inj hcons
  exact h.compile_written_ne hs hfront (by simpa using hbad) first hc

/-- Steps are read back if and only if all of their values can be quoted and only the last one is
for all children. -/
theorem isReadBack_iff (h : step.Fits offset)
    (hrest : ∀ other ∈ rest, ∀ place, 0 < place → other.Fits place) :
    IsReadBack offset step rest ↔
      (∀ other ∈ step :: rest, other.IsQuotable) ∧ {} ∉ (step :: rest).dropLast := by
  induction rest generalizing offset step with
  | nil =>
    constructor
    · intro hr
      refine ⟨fun other hm => ?_, by simp⟩
      rw [List.mem_singleton.mp hm]
      exact Classical.byContradiction fun hq => h.not_isReadBack hq hr
    · rintro ⟨hq, -⟩
      exact h.isReadBack_nil (hq step List.mem_cons_self)
  | cons next more ih =>
    rw [List.dropLast_cons_cons, List.mem_cons, not_or, List.forall_mem_cons]
    by_cases hq : step.IsQuotable
    · by_cases hs : step = {}
      · subst hs
        exact iff_of_false (not_isReadBack_blank next more) fun h => h.2.1 rfl
      · obtain ⟨place, hp, hiff⟩ := h.isReadBack_cons hq hs next more
        rw [hiff, ih (hrest next List.mem_cons_self place hp)
          fun other hm => hrest other (List.mem_cons_of_mem _ hm)]
        constructor
        · rintro ⟨hall, hlast⟩
          exact ⟨⟨hq, hall⟩, fun he => hs he.symm, hlast⟩
        · rintro ⟨⟨-, hall⟩, -, hlast⟩
          exact ⟨hall, hlast⟩
    · exact iff_of_false (h.not_isReadBack hq) fun h => hq h.1.1

/-! ## Steps of compiled expressions -/

theorem isRegular_of_compileParts {parts : List Part} {steps : List Step}
    (hp : ∀ part ∈ parts, 0 < part.offset) (h : compileParts parts = .ok steps) :
    ∀ step ∈ steps, step.IsRegular ∧ step.axis ≠ .root := by
  induction parts generalizing steps with
  | nil =>
    cases h
    intro step hm
    cases hm
  | cons part parts ih =>
    obtain ⟨first, rest, hc, hr, rfl⟩ := compileParts_cons.mp h
    have hoffset := hp part List.mem_cons_self
    intro step hm
    rcases List.mem_cons.mp hm with rfl | hm
    · exact ⟨Step.isRegular_of_compile hc, Step.axis_ne_root_of_compile (by omega) hc⟩
    · exact ih (fun part hm => hp part (List.mem_cons_of_mem _ hm)) hr step hm

theorem isAbsolute_iff {expression : String} :
    isAbsolute expression = true ↔
      ∃ rest, expression.toList = '/' :: rest ∧ rest.head? ≠ some '/' := by
  rw [isAbsolute]
  split
  · rename_i rest he
    simp [he]
  · rename_i rest hn he
    refine iff_of_true rfl ⟨rest, he, fun hh => ?_⟩
    obtain ⟨tail, rfl⟩ := List.head?_eq_some_iff.mp hh
    exact hn tail rfl
  · rename_i hn
    refine iff_of_false (by simp) ?_
    rintro ⟨rest, he, -⟩
    exact hn rest he

/-- All steps of an expression are regular, and the first one is anchored at the root if and only if
the expression is absolute, unless it isn't understood. -/
theorem exists_of_compileSteps {expression : String} {steps : List Step}
    (h : compileSteps expression = .ok steps) :
    ∃ first rest, steps = first :: rest ∧ first.IsRegular ∧
      (isAbsolute expression = true → first.axis = .root ∨ first.axis = .unsupported) ∧
      (isAbsolute expression = false → first.axis ≠ .root) ∧
      ∀ step ∈ rest, step.IsRegular ∧ step.axis ≠ .root := by
  obtain ⟨text, others, hsplit, hprefix, hslashes, hoffsets⟩ := exists_splitPath expression.toList
  rw [compileSteps, hsplit] at h
  obtain ⟨first, rest, hc, hr, rfl⟩ := compileParts_cons.mp h
  refine ⟨first, rest, rfl, Step.isRegular_of_compile hc, fun ha => ?_, fun ha => ?_,
    isRegular_of_compileParts hoffsets hr⟩
  · obtain ⟨behind, he, hb⟩ := isAbsolute_iff.mp ha
    rw [he] at hprefix hslashes
    cases text with
    | nil => simp at hslashes
    | cons c text =>
      obtain ⟨rfl, ht⟩ := List.cons_prefix_cons.mp hprefix
      refine Step.axis_eq_root_of_start ?_ hc
      intro hh
      obtain ⟨rest, rfl⟩ := List.head?_eq_some_iff.mp hh
      obtain ⟨more, rfl⟩ := ht
      exact hb rfl
  · refine Step.axis_ne_root_of_start (fun hh => ?_) hc
    obtain ⟨tail, rfl⟩ := List.head?_eq_some_iff.mp hh
    obtain ⟨behind, he⟩ := hprefix
    have htwo := take_two_of_relative ha (by rw [← he]; rfl)
    rw [← List.take_append_drop 2 expression.toList, htwo] at hslashes
    obtain ⟨more, hmore⟩ := hslashes
    rw [← hmore]
    rfl

theorem toList_intercalate_text (first : Step) (rest : List Step) :
    ("/".intercalate ((first :: rest).map Step.text)).toList =
      first.text.toList ++ behindText rest := by
  induction rest generalizing first with
  | nil => simp [behindText]
  | cons next rest ih =>
    have h := ih next
    rw [List.map_cons] at h
    rw [List.map_cons, List.map_cons, String.intercalate_cons_cons, String.toList_append, h]
    simp [behindText]

/-! ## Paths -/

/-- The text of a path stands for its steps. -/
structure Path.HasFaithfulText (path : Path) : Prop where
  /-- no value holds both kinds of quotes -/
  quotable : ∀ step ∈ path.steps, step.IsQuotable
  /-- behind the anchor step only the last one can be for all children -/
  last : {} ∉ (path.steps.drop 1).dropLast
  /-- behind an anchor step that isn't the root, the first one isn't for all children -/
  first : path.steps.head?.any (·.axis == .root) = false → (path.steps.drop 1).head? ≠ some {}

/-- At the start of a path, only the text of a step that is anchored at the root is absolute. -/
theorem Step.Fits.isAbsolute_written {text : String} (h : step.Fits 0) (hs : step ≠ {})
    (ht : text.toList = step.written 0 ++ behindText rest) :
    isAbsolute text = true ↔ step.axis = .root := by
  obtain ⟨c, body, hb, hc⟩ := h.head?_body hs
  rw [written, hb] at ht
  rw [isAbsolute_iff, ht]
  cases ha : step.axis with
  | root => simp [marker, ha, hc]
  | descendants => simp [marker, ha]
  | children | anyChild | self | parent | unsupported => simp [marker, ha, hc]

variable {origin : Origin} {text : String} {mode : EmptyPath} {path : Path}

/-- An absolute path is read back from its text if its steps are. -/
theorem Path.exists_compile_iff_of_root {expression : String} {again : EmptyPath}
    (h : step.Fits 0) (ha : step.axis = .root)
    (ht : text.toList = step.written 0 ++ behindText rest)
    (hn : expression.toList ≠ []) (habs : isAbsolute expression = true)
    (hp : (Path.compile (some origin) expression mode).outcome = .ok path)
    (hsteps : path.steps = step :: rest) :
    (∃ other, (Path.compile (some origin) text again).outcome = .ok other ∧
      other.steps = path.steps) ↔ IsReadBack 0 step rest := by
  have hs : step ≠ {} := by
    rintro rfl
    cases ha
  have htext := (h.isAbsolute_written hs ht).mpr ha
  have hne : text.toList ≠ [] := by
    obtain ⟨behind, he, -⟩ := isAbsolute_iff.mp htext
    simp [he]
  have hcompile : compileSteps text = compileParts
      (Split.parts 0 0 {} [] (step.written 0 ++ behindText rest)) := by
    rw [compileSteps, ht, splitPath]
  obtain ⟨hname, steps, hc, hpath⟩ := (compile_eq_ok hn).mp hp
  rw [if_pos habs] at hpath
  obtain ⟨first, more, rfl, he, hanchor⟩ := hpath
  rw [hsteps] at he
  obtain ⟨rfl, rfl⟩ := List.cons.inj he
  constructor
  · rintro ⟨other, ho, hother⟩
    obtain ⟨-, steps, hc', hpath⟩ := (compile_eq_ok hne).mp ho
    rw [if_pos htext] at hpath
    obtain ⟨first, more, rfl, he, -⟩ := hpath
    rw [IsReadBack, ← hcompile, hc', ← he, hother, hsteps]
  · intro hr
    refine ⟨path, (compile_eq_ok hne).mpr ⟨hname, step :: rest, hcompile.trans hr, ?_⟩, rfl⟩
    rw [if_pos htext]
    exact ⟨step, rest, rfl, hsteps, hanchor⟩

/-- A relative path is read back from its text if its steps are, unless the first one has no text.
-/
theorem Path.exists_compile_iff_of_ne_root {here : Step} {again : EmptyPath}
    (h : step.Fits 0) (ha : step.axis ≠ .root)
    (ht : text.toList = step.written 0 ++ behindText rest)
    (hname : origin.position.refusal? = none) (hhere : here = { name := origin.position.name }) :
    (∃ other, (Path.compile (some origin) text again).outcome = .ok other ∧
      other.steps = here :: step :: rest) ↔ step ≠ {} ∧ IsReadBack 0 step rest := by
  have hcompile : compileSteps text = compileParts
      (Split.parts 0 0 {} [] (step.written 0 ++ behindText rest)) := by
    rw [compileSteps, ht, splitPath]
  constructor
  · rintro ⟨other, ho, hother⟩
    by_cases hne : text.toList = []
    · -- without a text, the path selects the origin or its children
      obtain rfl : text = "" := by simpa using hne
      have hs : step = {} := by
        by_contra hs
        obtain ⟨c, body, hb, -⟩ := h.head?_body hs
        rw [Step.written, hb, hne] at ht
        simp at ht
      subst hs
      have hblank : (Path.compile (some origin) "" again).outcome = .ok other := ho
      simp only [compile, Position.tellName, hname] at hblank
      cases again with
      | self =>
        cases hblank
        cases hother
      | children =>
        cases hblank
        cases hother
    · obtain ⟨-, steps, hc, hpath⟩ := (compile_eq_ok hne).mp ho
      split at hpath
      · rename_i habs
        obtain ⟨first, more, rfl, he, -⟩ := hpath
        obtain ⟨first', more', heq, -, hroot, -⟩ := exists_of_compileSteps hc
        obtain ⟨rfl, -⟩ := List.cons.inj (heq.symm.trans (he.symm.trans hother))
        rcases hroot habs with hr | hr <;> rw [hhere] at hr <;> cases hr
      · subst hpath
        obtain ⟨-, rfl⟩ := List.cons.inj hother
        refine ⟨?_, hcompile.symm.trans hc⟩
        rintro rfl
        cases rest with
        | nil => exact hne ht
        | cons next more => exact not_isReadBack_blank next more (hcompile.symm.trans hc)
  · rintro ⟨hs, hr⟩
    have habs : isAbsolute text = false := by
      rw [Bool.eq_false_iff, ne_eq, h.isAbsolute_written hs ht]
      exact ha
    have hne : text.toList ≠ [] := by
      obtain ⟨c, body, hb, -⟩ := h.head?_body hs
      rw [ht, Step.written, hb]
      simp
    refine ⟨⟨some origin.position, here :: step :: rest⟩, (compile_eq_ok hne).mpr
      ⟨hname, step :: rest, hcompile.trans hr, ?_⟩, rfl⟩
    rw [habs, if_neg Bool.false_ne_true, hhere]

theorem Step.toList_text_of_descendants (h : step.axis = .descendants) :
    '/' :: step.text.toList = step.written 0 := by
  have hw : step.text.toList = step.written 1 :=
    Step.toList_text_eq_written fun h => absurd h Nat.one_ne_zero
  rw [hw]
  simp [written, marker, h]

theorem pathText_of_root (h : step.axis = .root) (rest : List Step) :
    ∃ text, pathText (step :: rest) = some text ∧
      text.toList = step.written 0 ++ behindText rest := by
  refine ⟨_, by rw [pathText, if_pos h], ?_⟩
  rw [← Step.toList_text_eq_written fun _ => by simp [h]]
  cases rest with
  | nil => simp [behindText]
  | cons next rest =>
    simp only [List.isEmpty_cons, Bool.false_eq_true, if_false, String.toList_append,
      toList_intercalate_text]
    simp [behindText]

theorem pathText_of_ne_root {anchor : Step} (h : anchor.axis ≠ .root) (step : Step)
    (rest : List Step) :
    ∃ text, pathText (anchor :: step :: rest) = some text ∧
      text.toList = step.written 0 ++ behindText rest := by
  rw [pathText, if_neg h]
  by_cases hd : step.axis = .descendants
  · refine ⟨_, if_pos (by simp [hd]), ?_⟩
    rw [String.toList_append, toList_intercalate_text, ← Step.toList_text_of_descendants hd]
    rfl
  · refine ⟨_, if_neg (by simp [hd]), ?_⟩
    rw [toList_intercalate_text, Step.toList_text_eq_written fun _ => hd]

theorem Path.hasFaithfulText_iff_of_root (hsteps : path.steps = step :: rest)
    (ha : step.axis = .root) :
    path.HasFaithfulText ↔
      (∀ other ∈ step :: rest, other.IsQuotable) ∧ {} ∉ (step :: rest).dropLast := by
  have hlast : {} ∉ (step :: rest).dropLast ↔ {} ∉ rest.dropLast := by
    cases rest with
    | nil => simp
    | cons next more =>
      have hs : ({} : Step) ≠ step := by
        rintro rfl
        cases ha
      simp [hs]
  rw [hlast]
  constructor
  · rintro ⟨hq, hl, -⟩
    rw [hsteps] at hq hl
    exact ⟨hq, hl⟩
  · rintro ⟨hq, hl⟩
    refine ⟨?_, ?_, fun hr => ?_⟩
    · rwa [hsteps]
    · rwa [hsteps]
    · simp [hsteps, ha] at hr

theorem Path.hasFaithfulText_iff_of_ne_root {name : String}
    (hsteps : path.steps = { name } :: step :: rest) :
    path.HasFaithfulText ↔ step ≠ {} ∧
      (∀ other ∈ step :: rest, other.IsQuotable) ∧ {} ∉ (step :: rest).dropLast := by
  constructor
  · rintro ⟨hq, hl, hf⟩
    rw [hsteps] at hq hl hf
    exact ⟨by simpa using hf rfl, fun other hm => hq other (List.mem_cons_of_mem _ hm), hl⟩
  · rintro ⟨hs, hq, hl⟩
    refine ⟨?_, ?_, fun _ => ?_⟩
    · rw [hsteps]
      intro other hm
      rcases List.mem_cons.mp hm with rfl | hm
      · intro constraint hc
        cases hc
      · exact hq other hm
    · rwa [hsteps]
    · rw [hsteps]
      simpa using hs

/-- The text of a path without steps that aren't understood is compiled to the same steps if and
only if no value in it holds both kinds of quotes, and a step for all children stands only at the
end, and there not right behind the origin. -/
theorem Path.exists_compile_text_iff {expression : String} (again : EmptyPath)
    (hn : expression.toList ≠ [])
    (hp : (Path.compile (some origin) expression mode).outcome = .ok path)
    (hu : ∀ step ∈ path.steps, step.axis ≠ .unsupported) :
    ∃ text, path.text? = some text ∧
      ((∃ other, (Path.compile (some origin) text again).outcome = .ok other ∧
        other.steps = path.steps) ↔ path.HasFaithfulText) := by
  obtain ⟨hname, steps, hc, hpath⟩ := (compile_eq_ok hn).mp hp
  obtain ⟨first, rest, rfl, hregular, habs, hrel, hrest⟩ := exists_of_compileSteps hc
  rw [text?]
  split at hpath
  · rename_i ha
    obtain ⟨first', rest', he, hsteps, -⟩ := hpath
    obtain ⟨rfl, rfl⟩ := List.cons.inj he
    rw [hsteps] at hu
    have hroot : first.axis = .root := (habs ha).resolve_right (hu first List.mem_cons_self)
    have hfits : first.Fits 0 := ⟨hregular, hu first List.mem_cons_self, fun _ => rfl⟩
    have hothers : ∀ other ∈ rest, ∀ place, 0 < place → other.Fits place := fun other hm _ _ =>
      ⟨(hrest other hm).1, hu other (List.mem_cons_of_mem _ hm),
        fun hr => absurd hr (hrest other hm).2⟩
    obtain ⟨text, htext, hlist⟩ := pathText_of_root hroot rest
    refine ⟨text, hsteps ▸ htext, ?_⟩
    rw [exists_compile_iff_of_root hfits hroot hlist hn ha hp hsteps, isReadBack_iff hfits hothers,
      hasFaithfulText_iff_of_root hsteps hroot]
  · rename_i ha
    subst hpath
    have hroot := hrel (Bool.eq_false_iff.mpr ha)
    have hfits : first.Fits 0 := ⟨hregular, hu first (by simp), fun hr => absurd hr hroot⟩
    have hothers : ∀ other ∈ rest, ∀ place, 0 < place → other.Fits place := fun other hm _ _ =>
      ⟨(hrest other hm).1, hu other (by simp [hm]), fun hr => absurd hr (hrest other hm).2⟩
    have hanchor : ({ name := origin.position.name } : Step).axis ≠ .root := by simp
    obtain ⟨text, htext, hlist⟩ := pathText_of_ne_root hanchor first rest
    refine ⟨text, htext, ?_⟩
    rw [exists_compile_iff_of_ne_root hfits hroot hlist hname rfl, isReadBack_iff hfits hothers,
      hasFaithfulText_iff_of_ne_root rfl]

/-- A path with a slash in a value. -/
def slashPath : Path :=
  ⟨some markedTree, [{ name := "r" }, { name := "a", constraints := [⟨"t", "x/y"⟩] },
    { name := "c", axis := .descendants }]⟩

theorem exists_compile_slashPath :
    (Path.compile (some ⟨markedTree, none⟩) "a[ @t = \"x/y\" ]//c" .self).outcome = .ok slashPath ∧
      (∀ step ∈ slashPath.steps, step.axis ≠ .unsupported) ∧
      ∃ other,
        (Path.compile (some ⟨markedTree, none⟩) "a[@t='x/y']//c" .children).outcome = .ok other ∧
        other.steps = slashPath.steps := by
  have hc : (Path.compile (some ⟨markedTree, none⟩) "a[ @t = \"x/y\" ]//c" .self).outcome =
    .ok slashPath := rfl
  have hu : ∀ step ∈ slashPath.steps, step.axis ≠ .unsupported := by decide
  obtain ⟨text, ht, hiff⟩ := Path.exists_compile_text_iff .children (by decide) hc hu
  cases ht
  exact ⟨hc, hu, hiff.mpr ⟨by decide, by decide, fun _ => by decide⟩⟩

end MarkupPath
