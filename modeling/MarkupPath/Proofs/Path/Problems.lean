import MarkupPath.Proofs.Path.Anchoring
import MarkupPath.Proofs.Path.Division
import MarkupPath.Proofs.Path.Names

/-!
# Malformed path expressions

Which part of a path expression is refused, and where in it. A part is refused at a character that
can't stand where it does, or behind its end if that's in a predicate (`Step.compile_eq_error`), and
a path because of the first part that is (`compileParts_eq_error`).

Main statement: `Path.exists_malformed`. Whatever has been read in front of a character that is
refused could go on to a step expression (`Progress.exists_completion`), and with that character it
can't, so the reported position is the first one where it's known that something is wrong.
-/

namespace MarkupPath

/-- The problems are told apart by their wording. -/
theorem StepProblem.message_injective : Function.Injective StepProblem.message := by
  intro problem other h
  have hlist := congrArg String.toList h
  cases problem <;> cases other <;> simp [message] at hlist ⊢
  exact hlist

namespace StepReader.Progress

variable {progress final : Progress} {position place : Int} {text : List Char} {c : Char}
variable {problem : StepProblem}

/-- A character that is refused is the one that is told. -/
theorem take_eq_error (h : progress.take position c = .error problem) :
    problem ≠ .unterminated ∧ ∀ told, problem = .unexpected told → told = c := by
  simp only [take] at h
  cases hm : progress.mode <;> rw [hm] at h <;> simp only at h
  case name =>
    simp only [inName, dot, star, slash, letter] at h
    grind
  case filter => unfold inFilter at h; grind
  case attributeName => unfold inAttributeName at h; grind
  case assignment => unfold inAssignment at h; grind
  case quoted => cases h
  case predicate => unfold inPredicate at h; grind

/-- A text that isn't read to its end is read up to a character that is refused. -/
theorem run_eq_error : progress.run position text = .error (place, problem) ↔
    ∃ front c back between, text = front ++ c :: back ∧
      progress.run position front = .ok between ∧
        between.take (position + front.length) c = .error problem ∧
          place = position + front.length := by
  constructor
  · intro h
    induction text generalizing progress position with
    | nil => cases h
    | cons c text ih =>
      rw [run] at h
      cases ht : progress.take position c with
      | error found =>
        rw [ht] at h
        cases h
        exact ⟨[], c, text, progress, rfl, rfl, by simpa using ht, by simp⟩
      | ok next =>
        rw [ht] at h
        obtain ⟨front, d, back, between, rfl, hr, hd, rfl⟩ := ih h
        have hplace : position + 1 + (front.length : Int) =
            position + ((c :: front).length : Int) := by
          rw [List.length_cons, Int.natCast_add]
          omega
        exact ⟨c :: front, d, back, between, rfl, run_cons_eq_ok.mpr ⟨next, ht, hr⟩,
          hplace ▸ hd, hplace⟩
  · rintro ⟨front, c, back, between, rfl, hr, hc, rfl⟩
    exact run_append_of_error hr hc

/-- Whatever has been read, it can go on to the end of a step expression. -/
theorem exists_completion (progress : Progress) (position : Int) :
    ∃ back final, progress.run position back = .ok final ∧ final.mode = .name := by
  have hassign (progress : Progress) (hm : progress.mode = .assignment) (position : Int) :
      progress.run position [']'] = .ok { progress.close with filtered := true } := by
    simp [run, take, hm, inAssignment]
  cases hm : progress.mode with
  | name => exact ⟨[], progress, rfl, hm⟩
  | filter => exact ⟨[']'], { progress with mode := .name, filtered := true },
      by simp [run, take, hm, inFilter], rfl⟩
  | attributeName =>
    -- with a letter the name isn't blank
    have hname : strip (progress.attributeName ++ ['x']) ≠ [] := by
      rw [Ne, strip_eq_nil_iff]
      intro h
      exact absurd (h 'x' (by simp)) (by decide)
    exact ⟨['x', ']'],
      { close { progress with attributeName := progress.attributeName ++ ['x'] } with
        filtered := true },
      by simp [run, take, hm, inAttributeName, isDelimiter, hname], rfl⟩
  | assignment => exact ⟨[']'], _, hassign progress hm position, rfl⟩
  | quoted quote =>
    refine ⟨[quote, ']'], _, run_cons_eq_ok.mpr ⟨{ progress with mode := .assignment }, ?_,
      hassign _ rfl _⟩, rfl⟩
    simp [take, hm, inQuoted]
  | predicate => exact ⟨[']'], { progress with mode := .name, filtered := true },
      by simp [run, take, hm, inPredicate], rfl⟩

end StepReader.Progress

open StepReader

/-! ## Steps -/

/-- A text that stands for a step at a place of a path. -/
def IsStepExpression (offset : Int) (text : List Char) : Prop :=
  ∃ step, Step.compile text offset = .ok step

/-- A text that a step expression can start with. -/
def IsViable (offset : Int) (front : List Char) : Prop :=
  ∃ back, IsStepExpression offset (front ++ back)

section Steps

variable {offset : Int} {front text : List Char} {c : Char} {between : Progress}
variable {malformed : MalformedStep} {problem : StepProblem}

theorem isStepExpression_iff : IsStepExpression offset text ↔
    ∃ progress, Progress.run {} offset text = .ok progress ∧ progress.mode = .name := by
  constructor
  · rintro ⟨step, h⟩
    obtain ⟨progress, hr, hf⟩ := Step.compile_eq_ok.mp h
    refine ⟨progress, hr, ?_⟩
    by_contra hm
    rw [Progress.finish, if_neg hm] at hf
    cases hf
  · rintro ⟨progress, hr, hm⟩
    exact ⟨_, Step.compile_eq_ok.mpr ⟨progress, hr, if_pos hm⟩⟩

/-- What is read without a problem can be completed. -/
theorem isViable_iff : IsViable offset front ↔
    ∃ progress, Progress.run {} offset front = .ok progress := by
  constructor
  · rintro ⟨back, h⟩
    obtain ⟨final, hr, -⟩ := isStepExpression_iff.mp h
    obtain ⟨between, hr, -⟩ := Progress.run_append_eq_ok.mp hr
    exact ⟨between, hr⟩
  · rintro ⟨progress, hr⟩
    obtain ⟨back, final, hback, hm⟩ := progress.exists_completion (offset + front.length)
    exact ⟨back, isStepExpression_iff.mpr
      ⟨final, Progress.run_append_eq_ok.mpr ⟨progress, hr, hback⟩, hm⟩⟩

/-- Nothing helps behind a character that is refused. -/
theorem not_isViable_of_error (hr : Progress.run {} offset front = .ok between)
    (hc : between.take (offset + front.length) c = .error problem) :
    ¬IsViable offset (front ++ [c]) := by
  rw [isViable_iff]
  rintro ⟨progress, h⟩
  rw [Progress.run_append_of_error hr hc] at h
  cases h

/-- A step is refused at a character or behind its end. -/
theorem Step.compile_eq_error : compile text offset = .error malformed ↔
    (∃ front c back between, text = front ++ c :: back ∧
      Progress.run {} offset front = .ok between ∧
        between.take (offset + front.length) c = .error malformed.problem ∧
          malformed.expression = String.ofList text ∧
            malformed.position = offset + front.length) ∨
    (∃ final, Progress.run {} offset text = .ok final ∧ final.mode ≠ .name ∧
      malformed = ⟨String.ofList text, offset + text.length, .unterminated⟩) := by
  constructor
  · intro h
    rw [compile] at h
    cases hr : Progress.run {} offset text with
    | error failure =>
      rw [hr] at h
      cases h
      obtain ⟨front, c, back, between, ht, hf, hc, hp⟩ := Progress.run_eq_error.mp hr
      exact .inl ⟨front, c, back, between, ht, hf, hc, rfl, hp⟩
    | ok final =>
      simp only [hr, Progress.finish] at h
      by_cases hm : final.mode = .name
      · rw [if_pos hm] at h
        cases h
      · rw [if_neg hm] at h
        cases h
        exact .inr ⟨final, rfl, hm, rfl⟩
  · rintro (⟨front, c, back, between, rfl, hf, hc, he, hp⟩ | ⟨final, hr, hm, rfl⟩)
    · rw [compile, Progress.run_append_of_error hf hc, ← he, ← hp]
    · simp only [compile, hr, Progress.finish, if_neg hm]

/-- Only a step that ends in a predicate is said to. -/
theorem Step.eq_of_unterminated (h : compile text offset = .error malformed)
    (hp : malformed.problem = .unterminated) :
    (∃ final, Progress.run {} offset text = .ok final ∧ final.mode ≠ .name) ∧
      malformed.position = offset + text.length := by
  obtain ⟨front, c, back, between, -, -, hc, -, -⟩ | ⟨final, hr, hm, rfl⟩ :=
    Step.compile_eq_error.mp h
  · exact absurd hp (Progress.take_eq_error hc).1
  · exact ⟨⟨final, hr, hm⟩, rfl⟩

end Steps

/-! ## Paths -/

section Paths

variable {malformed : MalformedStep}

/-- A path is refused because of the first of its parts that is. -/
theorem compileParts_eq_error {parts : List Part} : compileParts parts = .error malformed ↔
    ∃ before part after, parts = before ++ part :: after ∧
      (∀ earlier ∈ before, IsStepExpression earlier.offset earlier.text) ∧
        Step.compile part.text part.offset = .error malformed := by
  induction parts with
  | nil => simp [compileParts]
  | cons first parts ih =>
    constructor
    · intro h
      rw [compileParts] at h
      cases hf : Step.compile first.text first.offset with
      | error found =>
        rw [hf] at h
        cases h
        exact ⟨[], first, parts, rfl, by simp, hf⟩
      | ok step =>
        rw [hf] at h
        cases hr : compileParts parts with
        | error found =>
          rw [hr] at h
          cases h
          obtain ⟨before, part, after, rfl, hb, hp⟩ := ih.mp hr
          exact ⟨first :: before, part, after, rfl,
            List.forall_mem_cons.mpr ⟨⟨step, hf⟩, hb⟩, hp⟩
        | ok steps =>
          rw [hr] at h
          cases h
    · rintro ⟨before, part, after, hs, hb, hp⟩
      cases before with
      | nil =>
        cases hs
        rw [compileParts, hp]
        rfl
      | cons earlier before =>
        cases hs
        obtain ⟨⟨step, hf⟩, hb⟩ := List.forall_mem_cons.mp hb
        rw [compileParts, hf, ih.mpr ⟨before, part, after, rfl, hb, hp⟩]
        rfl

/-- It's only the steps of a path that are malformed. -/
theorem Path.compileSteps_of_malformed {origin : Option Origin} {expression : String}
    {mode : EmptyPath}
    (h : (compile origin expression mode).outcome = .error (.malformed malformed)) :
    compileSteps expression = .error malformed := by
  cases origin with
  | none => cases h
  | some origin =>
    have hanchor (first : Step) :
        (origin.anchor first).outcome ≠ .error (.malformed malformed) := by
      rw [Origin.outcome_anchor]
      unfold Except.mapError
      grind
    simp only [compile, Position.tellName] at h
    cases hr : origin.position.refusal? with
    | some refusal =>
      rw [hr] at h
      cases h
    | none =>
      simp only [hr, pure_bind] at h
      split at h
      · cases mode <;> cases h
      cases hs : compileSteps expression with
      | error found =>
        rw [hs] at h
        cases h
        rfl
      | ok steps =>
        simp only [hs] at h
        split at h
        · cases steps with
          | nil => cases h
          | cons first rest =>
            rcases Reading.outcome_bind_eq_error.mp h with h | ⟨anchor, -, h⟩
            · exact absurd h (hanchor first)
            · cases h
        · cases h

end Paths

/-- Where in an expression a refusal applies: the part that's refused, the parts before it, and the
index of the refused character in the part. -/
structure MalformedStep.IsAt (malformed : MalformedStep) (expression : String)
    (before : List Part) (part : Part) (index : Nat) : Prop where
  /-- the parts before it are step expressions -/
  accepted : ∀ earlier ∈ before, IsStepExpression earlier.offset earlier.text
  /-- the part isn't -/
  refused : ¬IsStepExpression part.offset part.text
  /-- it's the part that is told -/
  told : malformed.expression = String.ofList part.text
  /-- it stands at its offset -/
  stands : part.text <+: expression.toList.drop part.offset
  /-- the position is that of the character in the whole expression -/
  position : malformed.position = part.offset + index
  /-- the character belongs to the part, or is the one behind it -/
  index_le : index ≤ part.text.length
  /-- the part ends within the expression -/
  stop_le : part.stop ≤ expression.length
  /-- up to a refused character the part can be completed, with it it can't, and it's the one that
  the message names -/
  atCharacter : index < part.text.length →
    IsViable part.offset (part.text.take index) ∧
      ¬IsViable part.offset (part.text.take (index + 1)) ∧
        ∀ c, malformed.problem.message = "Unexpected `" ++ String.singleton c ++ "`." →
          expression.toList[malformed.position.toNat]? = some c
  /-- at its end a part is refused because it ends in a predicate, so it can be completed -/
  atEnd : index = part.text.length →
    malformed.problem.message = "Unterminated predicate." ∧ IsViable part.offset part.text

theorem Step.isAt_of_compile {expression : String} {before after : List Part} {part : Part}
    {malformed : MalformedStep} (hs : splitPath expression.toList = before ++ part :: after)
    (hb : ∀ earlier ∈ before, IsStepExpression earlier.offset earlier.text)
    (h : compile part.text part.offset = .error malformed) :
    ∃ index, malformed.IsAt expression before part index := by
  have hrefused : ¬IsStepExpression part.offset part.text := by
    rintro ⟨step, hc⟩
    rw [h] at hc
    cases hc
  obtain ⟨ho, ht⟩ := Split.splitPath_placed hs
  have hdrop : expression.toList.drop part.offset = part.text ++ Split.behind after := by
    rw [ho, ht, List.append_assoc, List.drop_left]
  have hstop : part.stop ≤ expression.length := by
    rw [← String.length_toList, ht, Part.stop, ho, List.length_append, List.length_append]
    exact Nat.le_add_right _ _
  have hprefix : part.text <+: expression.toList.drop part.offset := hdrop ▸ List.prefix_append _ _
  rcases compile_eq_error.mp h with
    ⟨front, c, back, between, hpart, hr, hc, he, hp⟩ | ⟨final, hr, hm, rfl⟩
  · have hlength : part.text.length = front.length + 1 + back.length := by
      rw [hpart, List.length_append, List.length_cons]
      omega
    refine ⟨front.length, hb, hrefused, he, hprefix, hp, by omega, hstop, fun _ => ?_,
      fun hend => ?_⟩
    · have hfront : part.text.take front.length = front := by rw [hpart, List.take_left]
      have hwith : part.text.take (front.length + 1) = front ++ [c] := by
        rw [hpart, List.append_cons, List.take_left' (by simp)]
      rw [hfront, hwith]
      refine ⟨isViable_iff.mpr ⟨between, hr⟩, not_isViable_of_error hr hc, fun told hmessage => ?_⟩
      have hproblem : malformed.problem = .unexpected told :=
        StepProblem.message_injective hmessage
      rw [(Progress.take_eq_error hc).2 told hproblem, hp, ← Int.natCast_add, Int.toNat_natCast,
        ← List.getElem?_drop, hdrop, hpart]
      simp
    · omega
  · refine ⟨part.text.length, hb, hrefused, rfl, hprefix, rfl, le_rfl, hstop, fun hlt => ?_,
      fun _ => ⟨rfl, isViable_iff.mpr ⟨final, hr⟩⟩⟩
    exact absurd hlt (Nat.lt_irrefl _)

/-- A path is malformed at the first place where its first malformed part can't be completed. -/
theorem Path.exists_malformed {origin : Origin} {expression : String} {mode : EmptyPath}
    {malformed : MalformedStep}
    (h : (compile (some origin) expression mode).outcome = .error (.malformed malformed)) :
    ∃ before part after index, splitPath expression.toList = before ++ part :: after ∧
      malformed.IsAt expression before part index := by
  obtain ⟨before, part, after, hs, hb, hp⟩ :=
    compileParts_eq_error.mp (compileSteps_of_malformed h)
  obtain ⟨index, hat⟩ := Step.isAt_of_compile hs hb hp
  exact ⟨before, part, after, index, hs, hat⟩

/-- A node by itself. -/
def loneOrigin : Origin :=
  ⟨.top ⟨{ id := ⟨0⟩, name := { localPart := "r" } }, .nil⟩, none⟩

/-- The name of an attribute is missing in the second of three parts, and a slash between quotes
doesn't end the first. -/
def namelessExpression : String := "//a[@b='/']/c[@ =x]/d["

theorem exists_malformed_namelessExpression :
    (Path.compile (some loneOrigin) namelessExpression .self).outcome =
        .error (.malformed ⟨"c[@ =x]", 16, .unexpected '='⟩) ∧
      ∃ before part after index,
        splitPath namelessExpression.toList = before ++ part :: after ∧
          MalformedStep.IsAt ⟨"c[@ =x]", 16, .unexpected '='⟩ namelessExpression before part
            index := by
  have hmalformed : (Path.compile (some loneOrigin) namelessExpression .self).outcome =
      .error (.malformed ⟨"c[@ =x]", 16, .unexpected '='⟩) := rfl
  exact ⟨hmalformed, Path.exists_malformed hmalformed⟩

end MarkupPath
