import MarkupPath.Proofs.Path.ConstraintText
import MarkupPath.Proofs.Path.Recognition

/-!
# Reading the text of a step

The text of a step is read as the step again if all of its values can be put between quotes
(`Step.Fits.compile_written`), and as another step if not, whatever follows
(`Step.Fits.compile_written_ne`). It holds for steps as they come out of the reader, and for the
place where they do: a step for descendants is written with two slashes at the very start of a path,
and a step for the root can't be written anywhere else.
-/

namespace MarkupPath

open StepReader Progress Split

variable {constraint : Constraint}

/-- The slashes at the start of a step's text at a position of the path. Two of them ask for
descendants at the very start, where a single one would ask for the root. -/
def Step.marker (step : Step) (offset : Nat) : List Char :=
  match step.axis with
  | .root => ['/']
  | .descendants => if offset = 0 then ['/', '/'] else ['/']
  | _ => []

/-- The node test of a step without slashes. -/
def Step.bareTest (step : Step) : List Char :=
  match step.axis with
  | .anyChild => ['*']
  | .descendants | .root => if step.name.isEmpty then ['*'] else step.name.toList
  | .self => ['.']
  | .parent => ['.', '.']
  | .children | .unsupported => step.name.toList

/-- The text of a step at a position of the path. -/
def Step.written (step : Step) (offset : Nat) : List Char :=
  step.marker offset ++ (step.bareTest ++ constraintsText step.constraints)

/-- What can be said of a step in the path that it was compiled in: it's regular, it's understood,
and it's anchored at the root only at the very start. -/
structure Step.Fits (step : Step) (offset : Nat) : Prop where
  /-- it's regular -/
  regular : step.IsRegular
  /-- it's understood -/
  supported : step.axis ≠ .unsupported
  /-- it's anchored at the root only at the very start -/
  root : step.axis = .root → offset = 0

/-- Every value in the step can be put between quotes. -/
def Step.IsQuotable (step : Step) : Prop := ∀ constraint ∈ step.constraints, constraint.IsQuotable

instance (step : Step) : Decidable step.IsQuotable :=
  inferInstanceAs (Decidable (∀ constraint ∈ step.constraints, constraint.IsQuotable))

variable {st : Step} {offset : Nat}

theorem Step.toList_text (st : Step) :
    st.text.toList = st.nodeTest.toList ++ constraintsText st.constraints := by
  simp [text, constraintsText, String.toList_join, List.flatMap_map]

theorem Step.toList_text_eq_written (h : offset = 0 → st.axis ≠ .descendants) :
    st.text.toList = st.written offset := by
  rw [toList_text, written, ← List.append_assoc]
  congr 1
  simp only [nodeTest, marker, bareTest]
  cases ha : st.axis with
  | descendants =>
    have ho : offset ≠ 0 := fun ho => h ho ha
    simp only [ho, if_false]
    split <;> simp
  | root =>
    dsimp only
    split <;> simp
  | children | anyChild | self | parent | unsupported => simp

theorem Step.eq_slash_of_mem_marker : ∀ c ∈ st.marker offset, c = '/' := by
  rw [marker]
  split
  · simp
  · split <;> simp
  · simp

theorem Step.IsRegular.notMem_bareTest (h : st.IsRegular) {c : Char} (hc : c ∈ st.bareTest) :
    Progress.isDelimiter c = false ∧ c ≠ '/' := by
  have hname {c : Char} (hc : c ∈ st.name.toList) : Progress.isDelimiter c = false ∧ c ≠ '/' := by
    have hl := h.letters c hc
    simp only [isNameLetter, Bool.and_eq_true, Bool.not_eq_true', bne_iff_ne, ne_eq] at hl
    exact hl.1
  rw [bareTest] at hc
  split at hc
  · rw [List.mem_singleton.mp hc]
    decide
  · split at hc
    · rw [List.mem_singleton.mp hc]
      decide
    · exact hname hc
  · split at hc
    · rw [List.mem_singleton.mp hc]
      decide
    · exact hname hc
  · rw [List.mem_singleton.mp hc]
    decide
  · obtain rfl : c = '.' := by simpa using hc
    decide
  · exact hname hc
  · exact hname hc

/-- The slashes and what follows them up to the constraints are a node test. -/
theorem Step.Fits.nodeTest (h : st.Fits offset) :
    NodeTest offset (st.marker offset ++ st.bareTest) { st with constraints := [] } := by
  obtain ⟨⟨letters, start, dots, bare, -⟩, supported, root⟩ := h
  have hname (hn : st.name.isEmpty = false) : IsName st.name.toList :=
    ⟨by simpa using hn, letters, start⟩
  have hempty (hn : st.name.toList = []) : st.name = "" := by simpa using hn
  obtain ⟨name, axis, constraints⟩ := st
  have hmarked {marker : List Char} (hm : Marker offset marker axis) :
      NodeTest offset (marker ++ if name.isEmpty then ['*'] else name.toList) { name, axis } := by
    split
    · rename_i hn
      obtain rfl : name = "" := String.isEmpty_iff.mp hn
      exact .markedAny hm
    · rename_i hn
      have h := NodeTest.markedName hm (hname (by simpa using hn))
      rwa [String.ofList_toList] at h
  cases axis with
  | children =>
    cases hn : name.isEmpty with
    | true =>
      obtain rfl : name = "" := String.isEmpty_iff.mp hn
      exact .nothing
    | false =>
      have h : NodeTest offset name.toList { name := String.ofList name.toList } :=
        .named (hname hn)
      rwa [String.ofList_toList] at h
  | anyChild =>
    obtain rfl := hempty (bare (.inr (.inr rfl)))
    exact .any
  | self =>
    obtain rfl := hempty (bare (.inl rfl))
    exact .self
  | parent =>
    obtain rfl := hempty (bare (.inr (.inl rfl)))
    exact .parent
  | root =>
    obtain rfl := root rfl
    exact hmarked .root
  | descendants =>
    refine hmarked ?_
    simp only [marker]
    split
    · rename_i ho
      rw [ho]
      exact .descendants
    · exact .within (by omega)
  | unsupported => exact absurd rfl supported

/-- Behind a slash there's no dot in the node test of a step. -/
theorem Step.Fits.notMem_dropWhile (h : st.Fits offset) :
    '.' ∉ (st.marker offset ++ st.bareTest).dropWhile (· != '/') := by
  have hbare : st.bareTest.dropWhile (· != '/') = [] := by
    rw [List.dropWhile_eq_nil_iff]
    intro c hc
    simpa using (h.regular.notMem_bareTest hc).2
  have hmarked (ha : st.axis = .root ∨ st.axis = .descendants) :
      '.' ∉ st.marker offset ++ st.bareTest := by
    have hdots := h.regular.dots ha
    rw [List.mem_append, not_or]
    refine ⟨fun hm => absurd (eq_slash_of_mem_marker _ hm) (by decide), ?_⟩
    rcases ha with ha | ha <;> simp only [bareTest, ha] <;> split <;> simp_all
  have hplain (ha : st.marker offset = []) :
      '.' ∉ (st.marker offset ++ st.bareTest).dropWhile (· != '/') := by
    rw [ha, List.nil_append, hbare]
    exact List.not_mem_nil
  cases ha : st.axis with
  | root => exact fun hm => hmarked (.inl ha) ((List.dropWhile_suffix _).subset hm)
  | descendants => exact fun hm => hmarked (.inr ha) ((List.dropWhile_suffix _).subset hm)
  | children | anyChild | self | parent | unsupported => exact hplain (by simp [marker, ha])

/-- The text of a step is read as the step, if all of its values can be quoted. -/
theorem Step.Fits.compile_written (h : st.Fits offset) (hq : st.IsQuotable) :
    Step.compile (st.written offset) offset = .ok st := by
  have hrun := h.nodeTest.runs h.notMem_dropWhile
  obtain ⟨final, hr, hidle, hstep⟩ := @run_constraintsText _
    (offset + (st.marker offset ++ st.bareTest).length) _ h.regular.constraints hq
    (tested_idle (st.marker offset ++ st.bareTest) { st with constraints := [] })
  refine compile_eq_ok.mpr ⟨final, ?_, ?_⟩
  · rw [written, ← List.append_assoc]
    exact run_append_eq_ok.mpr ⟨_, hrun, hr⟩
  · rw [finish, if_pos hidle.mode]
    refine congrArg some (hstep.trans ?_)
    rw [h.nodeTest.step_tested]
    rfl

/-- If one of its values can't be quoted, the text of a step is read as another step, whatever
follows. -/
theorem Step.Fits.compile_written_ne (h : st.Fits offset) {front back : List Constraint}
    (hs : st.constraints = front ++ constraint :: back)
    (hf : ∀ constraint ∈ front, constraint.IsQuotable) (hn : ¬constraint.IsQuotable)
    (rest : List Char) :
    Step.compile
      (st.marker offset ++ (st.bareTest ++ constraintsText (front ++ [constraint])) ++ rest)
      offset ≠ .ok st := by
  intro hc
  obtain ⟨final, hr, hfinish⟩ := compile_eq_ok.mp hc
  have hrun := h.nodeTest.runs h.notMem_dropWhile
  rw [← List.append_assoc (st.marker offset), List.append_assoc] at hr
  obtain ⟨between, hb, hr⟩ := run_append_eq_ok.mp hr
  cases hb.symm.trans hrun
  have hregular : ∀ c ∈ front ++ constraint :: back, c.IsRegular := hs ▸ h.regular.constraints
  refine @run_constraintsText_ne _ _ _ _ _ back _ (fun c hm => hregular c (by simp [hm])) hf
    (hregular constraint (by simp)) hn (tested_idle _ _) hr ?_
  rw [← hs]
  rw [finish] at hfinish
  split at hfinish
  · rw [← Option.some.inj hfinish]
    rfl
  · cases hfinish

/-- The text of a step is split nowhere in front of a constraint whose value can't be quoted. -/
theorem Step.IsRegular.parts_text (h : st.IsRegular) {constraints : List Constraint}
    (hk : keeps {} (constraintsText constraints) = true) (offset : Nat) (rest : List Char) :
    ∃ place, parts offset offset {} []
        (st.marker offset ++ (st.bareTest ++ constraintsText constraints) ++ rest) =
      parts place offset ((constraintsText constraints).foldl Nesting.after {})
        (st.marker offset ++ (st.bareTest ++ constraintsText constraints)) rest := by
  have hslash : '/' ∉ st.bareTest := fun hm => (h.notMem_bareTest hm).2 rfl
  have hnest : st.bareTest.foldl Nesting.after {} = {} :=
    Nesting.foldl_after_of_letters fun c hc => (h.notMem_bareTest hc).1
  have hbody : keeps {} (st.bareTest ++ constraintsText constraints) = true := by
    rw [keeps_append, hnest]
    exact ⟨keeps_of_notMem hslash, hk⟩
  rw [List.append_assoc, parts_of_slashes eq_slash_of_mem_marker rfl, parts_of_keeps hbody,
    List.foldl_append, hnest]
  exact ⟨_, rfl⟩

end MarkupPath
