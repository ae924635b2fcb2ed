import MarkupPath.Proofs.Path.Reading

/-!
# What compiled steps look like

Not every step is the meaning of an expression. `Step.IsRegular` says what is known of one that is:
its name consists of letters, a step that is asked for by a dot or a star has none, the names in its
constraints are stripped, and no value holds a closing bracket. The reader keeps what it holds
regular (`IsRegular.take`), so every step that it gives is regular (`Step.isRegular_of_compile`).

The axis only ever moves on: a step that began with a slash doesn't become one for children
(`axis_run_ne_children`), and behind the start of a path none is anchored at the root
(`Step.axis_ne_root_of_compile`).
-/

namespace MarkupPath

open StepReader

/-- What a compiled constraint looks like. -/
structure Constraint.IsRegular (constraint : Constraint) : Prop where
  /-- the name is stripped -/
  stripped : strip constraint.name.toList = constraint.name.toList
  /-- the name isn't empty -/
  named : constraint.name.toList ≠ []
  /-- delimiters don't belong to names -/
  letters : ∀ c ∈ constraint.name.toList, Progress.isDelimiter c = false
  /-- the value doesn't end the predicate -/
  value : ']' ∉ constraint.value.toList

/-- What the node test and the constraints of a compiled step look like. -/
structure IsRegularStep (name : List Char) (axis : Axis) (constraints : List Constraint) :
    Prop where
  /-- names consist of letters -/
  letters : ∀ c ∈ name, Progress.isNameLetter c = true
  /-- no name starts with a dot -/
  start : name.head? ≠ some '.'
  /-- behind a slash a name holds no dot -/
  dots : axis = .root ∨ axis = .descendants → '.' ∉ name
  /-- dots and stars are all that there is of a node test -/
  bare : axis = .self ∨ axis = .parent ∨ axis = .anyChild → name = []
  /-- the constraints are regular too -/
  constraints : ∀ constraint ∈ constraints, constraint.IsRegular

/-- What a compiled step looks like. -/
def Step.IsRegular (step : Step) : Prop :=
  IsRegularStep step.name.toList step.axis step.constraints

namespace StepReader.Progress

variable {progress next final : Progress} {position : Int} {text : List Char} {c : Char}

/-- What the reader holds while it reads a step. -/
structure IsRegular (progress : Progress) : Prop where
  /-- what has been read of the step is regular -/
  step : IsRegularStep progress.name progress.axis progress.constraints
  /-- a star isn't followed by a name -/
  wildcard : progress.axis = .anyChild → progress.wildcard = true
  /-- delimiters don't belong to names of attributes -/
  attributeName : ∀ c ∈ progress.attributeName, isDelimiter c = false
  /-- a value belongs to an attribute -/
  named : progress.mode = .assignment ∨ (∃ quote, progress.mode = .quoted quote) →
    strip progress.attributeName ≠ []
  /-- a value doesn't end the predicate -/
  value : ']' ∉ progress.value

/-- A character of a node test leaves what is read of the step regular. -/
theorem NameStep.isRegularStep (h : NameStep progress position c next) (hp : progress.IsRegular)
    (ht : progress.IsTesting) : IsRegularStep next.name next.axis next.constraints := by
  obtain ⟨letters, start, dots, bare, constraints⟩ := hp.step
  cases h with
  | letter hl hs hpar hd =>
    refine ⟨?_, ?_, ?_, ?_, constraints⟩
    · intro d hm
      rcases List.mem_append.mp hm with hm | hm
      · exact letters d hm
      · rwa [List.mem_singleton.mp hm]
    · intro hh
      cases hn : progress.name with
      | nil =>
        rw [hn] at hh
        exact (hd (Option.some.inj hh)).2 hn
      | cons d name =>
        rw [hn] at hh start
        exact start hh
    · intro ha hm
      rcases List.mem_append.mp hm with hm | hm
      · exact dots ha hm
      · have hc := (hd (List.mem_singleton.mp hm).symm).1
        rcases ha with ha | ha <;> cases hc.symm.trans ha
    · rintro (ha | ha | ha)
      · exact absurd ha hs
      · exact absurd ha hpar
      · cases (hp.wildcard ha).symm.trans ht.wildcard
  | self ha hn | any ha hn | root ha hn | within ha hn | descendants ha hn =>
    exact ⟨letters, start, fun _ => by simp [hn], fun _ => hn, constraints⟩
  | parent ha =>
    have hn := bare (.inl ha)
    exact ⟨letters, start, fun _ => by simp [hn], fun _ => hn, constraints⟩
  | wildcard ha hn => exact ⟨letters, start, dots, bare, constraints⟩

/-- Nothing is asked of the node test of a step that isn't understood, except for its letters. -/
theorem isRegularStep_unsupported {name : List Char} {axis : Axis} {constraints : List Constraint}
    (h : IsRegularStep name axis constraints) : IsRegularStep name .unsupported constraints :=
  ⟨h.letters, h.start, fun ha => by simp at ha, fun ha => by simp at ha, h.constraints⟩

/-- A predicate is only closed on an attribute that has a name. -/
theorem IsRegular.close (h : progress.IsRegular) (hn : strip progress.attributeName ≠ []) :
    progress.close.IsRegular := by
  have hc : Constraint.IsRegular
      ⟨String.ofList (strip progress.attributeName), String.ofList progress.value⟩ := by
    refine ⟨?_, ?_, ?_, ?_⟩
    · rw [String.toList_ofList, strip_strip]
    · rwa [String.toList_ofList]
    · rw [String.toList_ofList]
      exact fun c hm => h.attributeName c (mem_of_mem_strip hm)
    · rw [String.toList_ofList]
      exact h.value
  refine ⟨⟨h.step.letters, h.step.start, h.step.dots, h.step.bare, fun constraint hm => ?_⟩,
    h.wildcard, by simp [Progress.close], by simp [Progress.close], by simp [Progress.close]⟩
  rcases List.mem_append.mp hm with hm | hm
  · exact h.step.constraints constraint hm
  · rwa [List.mem_singleton.mp hm]

theorem IsRegular.filtered (h : progress.IsRegular) :
    IsRegular { progress with filtered := true } :=
  ⟨h.step, h.wildcard, h.attributeName, h.named, h.value⟩

/-- What the reader holds stays regular. -/
theorem IsRegular.take (h : progress.IsRegular) (ht : progress.take position c = .ok next) :
    next.IsRegular := by
  cases hm : progress.mode with
  | name =>
    by_cases hc : c = '['
    · subst hc
      simp only [Progress.take, hm, inName, if_true, Except.ok.injEq] at ht
      subst ht
      exact ⟨h.step, h.wildcard, h.attributeName, by simp, h.value⟩
    · obtain ⟨htest, hs⟩ := (take_name hm hc).mp ht
      have hstep := hs.isRegularStep h htest
      refine ⟨hstep, ?_, ?_, ?_, ?_⟩
      · cases hs with
        | letter => exact h.wildcard
        | any | wildcard => exact fun _ => rfl
        | self | parent | root | within | descendants => exact fun h => by cases h
      · cases hs <;> exact h.attributeName
      · cases hs <;> simp [hm]
      · cases hs <;> exact h.value
  | filter =>
    simp only [Progress.take, hm, inFilter] at ht
    split at ht
    · cases ht
      exact ⟨h.step, h.wildcard, h.attributeName, by simp, h.value⟩
    split at ht
    · cases ht
      exact ⟨h.step, h.wildcard, h.attributeName, by simp, h.value⟩
    split at ht
    · cases ht
    split at ht
    · cases ht
      exact h
    · cases ht
      exact ⟨isRegularStep_unsupported h.step, by simp, h.attributeName, by simp, h.value⟩
  | attributeName =>
    simp only [Progress.take, hm, inAttributeName] at ht
    split at ht
    · split at ht
      · cases ht
      rename_i hn
      cases ht
      exact (h.close (by simpa using hn)).filtered
    split at ht
    · split at ht
      · cases ht
      rename_i hn
      cases ht
      exact ⟨h.step, h.wildcard, h.attributeName, fun _ => by simpa using hn, h.value⟩
    split at ht
    · cases ht
    rename_i hd
    cases ht
    refine ⟨h.step, h.wildcard, fun d hm => ?_, by simp, h.value⟩
    rcases List.mem_append.mp hm with hm | hm
    · exact h.attributeName d hm
    · rw [List.mem_singleton.mp hm]
      simpa using hd
  | assignment =>
    have hn := h.named (.inl hm)
    simp only [Progress.take, hm, inAssignment] at ht
    split at ht
    · cases ht
      exact (h.close hn).filtered
    rename_i hc
    split at ht
    · cases ht
      exact ⟨h.step, h.wildcard, h.attributeName, fun _ => hn, h.value⟩
    split at ht
    · cases ht
    split at ht
    · cases ht
      exact h
    · cases ht
      exact ⟨h.step, h.wildcard, h.attributeName, fun _ => hn, by simp [h.value, Ne.symm hc]⟩
  | quoted quote =>
    have hn := h.named (.inr ⟨quote, hm⟩)
    simp only [Progress.take, hm, inQuoted, Except.ok.injEq] at ht
    split at ht
    · subst ht
      exact ⟨h.step, h.wildcard, h.attributeName, fun _ => hn, h.value⟩
    split at ht
    · subst ht
      exact h.close hn
    · rename_i hc
      subst ht
      exact ⟨h.step, h.wildcard, h.attributeName, fun _ => hn, by simp [h.value, Ne.symm hc]⟩
  | predicate =>
    simp only [Progress.take, hm, inPredicate] at ht
    split at ht
    · cases ht
    split at ht
    · cases ht
      exact ⟨h.step, h.wildcard, h.attributeName, by simp, h.value⟩
    · cases ht
      exact h

theorem IsRegular.run (h : progress.IsRegular) (hr : progress.run position text = .ok final) :
    final.IsRegular := by
  induction text generalizing progress position with
  | nil =>
    cases hr
    exact h
  | cons c text ih =>
    obtain ⟨next, ht, hr⟩ := run_cons_eq_ok.mp hr
    exact ih (h.take ht) hr

/-! ## What stays -/

/-- Constraints are only added, and the axis only changes in the node test, unless the step isn't
understood. -/
theorem take_keeps (ht : progress.take position c = .ok next) :
    progress.constraints <+: next.constraints ∧
      (next.axis = progress.axis ∨ next.axis = .unsupported ∨
        NameStep progress position c next) := by
  have hclose : progress.constraints <+: progress.close.constraints := List.prefix_append _ _
  have hsame : progress.constraints <+: progress.constraints := List.prefix_refl _
  cases hm : progress.mode with
  | name =>
    by_cases hc : c = '['
    · subst hc
      simp only [take, hm, inName, if_true, Except.ok.injEq] at ht
      subst ht
      exact ⟨hsame, .inl rfl⟩
    · obtain ⟨-, hs⟩ := (take_name hm hc).mp ht
      refine ⟨?_, .inr (.inr hs)⟩
      cases hs <;> exact hsame
  | filter =>
    simp only [take, hm, inFilter] at ht
    grind
  | attributeName =>
    simp only [take, hm, inAttributeName, close] at ht
    grind
  | assignment =>
    simp only [take, hm, inAssignment, close] at ht
    grind
  | quoted quote =>
    simp only [take, hm, inQuoted, close] at ht
    grind
  | predicate =>
    simp only [take, hm, inPredicate] at ht
    grind

theorem constraints_run (h : progress.run position text = .ok final) :
    progress.constraints <+: final.constraints := by
  induction text generalizing progress position with
  | nil =>
    cases h
    exact List.prefix_refl _
  | cons c text ih =>
    obtain ⟨next, ht, hr⟩ := run_cons_eq_ok.mp h
    exact (take_keeps ht).1.trans (ih hr)

/-- A step that has begun with a slash isn't one for children. -/
theorem axis_run_ne_children (ha : progress.axis ≠ .children)
    (h : progress.run position text = .ok final) : final.axis ≠ .children := by
  induction text generalizing progress position with
  | nil =>
    cases h
    exact ha
  | cons c text ih =>
    obtain ⟨next, ht, hr⟩ := run_cons_eq_ok.mp h
    refine ih ?_ hr
    rcases (take_keeps ht).2 with hn | hn | hn
    · rwa [hn]
    · simp [hn]
    · cases hn with
      | letter | wildcard => exact ha
      | self | parent | any | root | within | descendants => simp

/-- Behind the start of a path, no step is anchored at the root. -/
theorem axis_run_ne_root (ha : progress.axis ≠ .root) (hp : 0 < position)
    (h : progress.run position text = .ok final) : final.axis ≠ .root := by
  induction text generalizing progress position with
  | nil =>
    cases h
    exact ha
  | cons c text ih =>
    obtain ⟨next, ht, hr⟩ := run_cons_eq_ok.mp h
    exact ih (axis_take ha (Int.ne_of_gt hp) ht) (Int.add_pos hp Int.one_pos) hr

/-- A step that has begun with a single slash at the start of a path stays anchored at the root. -/
theorem axis_run_of_root (ha : progress.axis = .root ∨ progress.axis = .unsupported)
    (hp : 1 ≤ position) (hs : position = 1 → text.head? ≠ some '/')
    (h : progress.run position text = .ok final) :
    final.axis = .root ∨ final.axis = .unsupported := by
  induction text generalizing progress position with
  | nil =>
    cases h
    exact ha
  | cons c text ih =>
    obtain ⟨next, ht, hr⟩ := run_cons_eq_ok.mp h
    refine ih ?_ (by omega) (fun hp => by omega) hr
    rcases (take_keeps ht).2 with hn | hn | hn
    · rwa [hn]
    · exact .inr hn
    · cases hn with
      | letter | wildcard => exact ha
      | descendants _ _ hp => exact absurd rfl (hs hp)
      | self hc | any hc | root hc | within hc => rcases ha with ha | ha <;> cases hc.symm.trans ha
      | parent hc => rcases ha with ha | ha <;> cases hc.symm.trans ha

end StepReader.Progress

/-- A compiled step is regular. -/
theorem Step.isRegular_of_compile {text : List Char} {offset : Int} {step : Step}
    (h : Step.compile text offset = .ok step) : step.IsRegular := by
  obtain ⟨progress, hr, hf⟩ := compile_eq_ok.mp h
  have hstart : Progress.IsRegular {} :=
    ⟨⟨by simp, by simp, by simp, by simp, by simp⟩, by simp, by simp, by simp, by simp⟩
  have hregular := (hstart.run hr).step
  rw [Progress.finish] at hf
  split at hf
  · cases hf
    rw [Step.IsRegular, String.toList_ofList]
    exact hregular
  · cases hf

namespace Step

variable {text : List Char} {offset : Int} {step : Step}

theorem axis_eq_of_finish {progress : StepReader.Progress} (h : progress.finish = some step) :
    step.axis = progress.axis := by
  rw [Progress.finish] at h
  split at h
  · cases h
    rfl
  · cases h

/-- No step for children begins with a slash. -/
theorem axis_ne_children_of_compile (h : compile ('/' :: text) offset = .ok step) :
    step.axis ≠ .children := by
  obtain ⟨progress, hr, hf⟩ := compile_eq_ok.mp h
  obtain ⟨next, ht, hr⟩ := Progress.run_cons_eq_ok.mp hr
  rw [axis_eq_of_finish hf]
  refine Progress.axis_run_ne_children ?_ hr
  obtain ⟨-, hs⟩ := (Progress.take_name rfl (by decide)).mp ht
  cases hs with
  | letter hl => cases hl
  | root | within | descendants => simp

/-- Only at the very start of a path a step can be anchored at the root. -/
theorem axis_ne_root_of_compile (ho : 0 < offset) (h : compile text offset = .ok step) :
    step.axis ≠ .root := by
  obtain ⟨progress, hr, hf⟩ := compile_eq_ok.mp h
  rw [axis_eq_of_finish hf]
  exact Progress.axis_run_ne_root (by decide) ho hr

/-- Neither an expression without a slash at its start nor one with two is anchored at the root. -/
theorem axis_ne_root_of_start (hs : text.head? = some '/' → text.take 2 = ['/', '/'])
    (h : compile text 0 = .ok step) : step.axis ≠ .root := by
  by_cases hh : text.head? = some '/'
  · obtain ⟨progress, hr, hf⟩ := compile_eq_ok.mp h
    rw [axis_eq_of_finish hf]
    rw [← List.take_append_drop 2 text, hs hh] at hr
    obtain ⟨between, hb, hr⟩ := Progress.run_append_eq_ok.mp hr
    cases hb
    exact Progress.axis_run_ne_root (by decide) (by decide) hr
  · exact axis_ne_root_of_compile Int.one_pos (compile_at_of_start hh Int.one_pos h)

/-- A single slash at the start of a path anchors the step at the root. -/
theorem axis_eq_root_of_start (hs : text.head? ≠ some '/')
    (h : compile ('/' :: text) 0 = .ok step) :
    step.axis = .root ∨ step.axis = .unsupported := by
  obtain ⟨progress, hr, hf⟩ := compile_eq_ok.mp h
  rw [axis_eq_of_finish hf]
  obtain ⟨next, ht, hr⟩ := Progress.run_cons_eq_ok.mp hr
  cases ht
  exact Progress.axis_run_of_root (.inl rfl) (by decide) (fun _ => hs) hr

end Step
end MarkupPath
