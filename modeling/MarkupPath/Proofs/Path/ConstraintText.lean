import MarkupPath.Proofs.Path.Acceptance
import MarkupPath.Proofs.Path.Regularity
import MarkupPath.Proofs.Path.Scanning

/-!
# Reading the text of a constraint

The text of a constraint is read as the constraint again if its value can be put between quotes
(`Constraint.IsRegular.run_text`). A value with both kinds of quotes can't: it's closed by the first
quote in it that is of the kind it's put between. What is read instead is shorter than the value,
because what follows can't make up for the characters that are lost (`length_run_of_quoted`). So
another constraint is read, and it stays, whatever comes behind it (`run_constraintsText_ne`).

Neither text is split (`Constraint.IsRegular.keeps_text`).
-/

namespace MarkupPath

open StepReader Progress

/-! ## Constraints -/

/-- The quote around the value in the text of a constraint. -/
def Constraint.quote (constraint : Constraint) : Char :=
  if constraint.value.toList.contains '\'' then '"' else '\''

/-- There's a quote that the value can be put between. -/
def Constraint.IsQuotable (constraint : Constraint) : Prop :=
  '\'' ∉ constraint.value.toList ∨ '"' ∉ constraint.value.toList

instance (constraint : Constraint) : Decidable constraint.IsQuotable :=
  inferInstanceAs (Decidable (_ ∨ _))

variable {constraint : Constraint} {progress between final : Progress} {position : Int}
variable {text : List Char}

theorem Constraint.quote_eq (constraint : Constraint) :
    constraint.quote = '\'' ∨ constraint.quote = '"' := by
  rw [quote]
  split
  · exact .inr rfl
  · exact .inl rfl

theorem Constraint.quote_notMem (h : constraint.IsQuotable) :
    constraint.quote ∉ constraint.value.toList := by
  rw [quote]
  split
  · rename_i hc
    rcases h with h | h
    · exact absurd (List.contains_iff_mem.mp hc) h
    · exact h
  · rename_i hc
    exact fun hm => hc (List.contains_iff_mem.mpr hm)

/-- The text of a constraint between its brackets. -/
def Constraint.inner (constraint : Constraint) : List Char :=
  '@' :: constraint.name.toList ++
    if constraint.value.isEmpty then []
    else '=' :: constraint.quote :: constraint.value.toList ++ [constraint.quote]

theorem Constraint.toList_text (constraint : Constraint) :
    constraint.text.toList = '[' :: constraint.inner ++ [']'] := by
  have hq : (if constraint.value.toList.contains '\'' then "\"" else "'").toList =
      [constraint.quote] := by
    rw [quote]
    split <;> rfl
  simp only [text, inner]
  split
  · simp
  · simp only [String.toList_append, hq]
    simp

theorem Constraint.IsRegular.notMem_inner (h : constraint.IsRegular) : ']' ∉ constraint.inner := by
  have hname : ']' ∉ constraint.name.toList := fun hm => absurd (h.letters _ hm) (by decide)
  have hquote : ']' ≠ constraint.quote := by
    rcases constraint.quote_eq with hq | hq <;> rw [hq] <;> decide
  rw [inner]
  split
  · simp [hname]
  · simp [hname, hquote, h.value]

theorem Constraint.IsRegular.strip_isEmpty (h : constraint.IsRegular) :
    (strip constraint.name.toList).isEmpty = false := by
  rw [h.stripped]
  simpa using h.named

/-- What the reader holds when it has read the text of a constraint up to its name. -/
theorem Constraint.IsRegular.run_name (h : constraint.IsRegular) (hi : progress.Idle) :
    progress.run position ('[' :: '@' :: constraint.name.toList) =
      .ok { progress with mode := .attributeName, attributeName := constraint.name.toList } := by
  refine run_cons_eq_ok.mpr ⟨{ progress with mode := .filter }, ?_, run_cons_eq_ok.mpr
    ⟨{ progress with mode := .attributeName }, rfl, ?_⟩⟩
  · simp [take, hi.mode, inName]
  · rw [run_attributeName rfl h.letters, hi.attributeName, List.nil_append]

/-- What the reader holds when it has read the text of a constraint up to its value. -/
theorem Constraint.IsRegular.run_quote (h : constraint.IsRegular) (hi : progress.Idle) :
    progress.run position ('[' :: '@' :: constraint.name.toList ++ ['=', constraint.quote]) =
      .ok { progress with
        mode := .quoted constraint.quote, attributeName := constraint.name.toList } := by
  refine run_append_eq_ok.mpr ⟨_, h.run_name hi, run_cons_eq_ok.mpr
    ⟨{ progress with mode := .assignment, attributeName := constraint.name.toList }, ?_,
      run_cons_eq_ok.mpr ⟨_, ?_, rfl⟩⟩⟩
  · simp [take, inAttributeName, h.strip_isEmpty]
  · rcases constraint.quote_eq with hq | hq <;> rw [hq] <;> rfl

/-- The text of a constraint with a value, split behind the opening quote. -/
theorem Constraint.toList_text_of_value (h : constraint.value.isEmpty = false) :
    constraint.text.toList = ('[' :: '@' :: constraint.name.toList ++ ['=', constraint.quote]) ++
      ((constraint.value.toList ++ [constraint.quote]) ++ [']']) := by
  rw [toList_text, inner, h]
  simp

/-- The text of a constraint is read as the constraint, if its value can be quoted. -/
theorem Constraint.IsRegular.run_text (h : constraint.IsRegular) (hq : constraint.IsQuotable)
    (hi : progress.Idle) :
    progress.run position constraint.text.toList =
      .ok (progress.restricted (.constraint constraint)) := by
  cases hv : constraint.value.isEmpty with
  | true =>
    have htext : constraint.text.toList = '[' :: '@' :: constraint.name.toList ++ [']'] := by
      rw [toList_text, inner, hv]
      simp
    rw [htext]
    obtain ⟨name, value⟩ := constraint
    obtain rfl : value = "" := String.isEmpty_iff.mp hv
    refine run_append_eq_ok.mpr ⟨_, h.run_name hi, run_cons_eq_ok.mpr ⟨_, ?_, rfl⟩⟩
    simp [take, inAttributeName, h.stripped, h.named, restricted, step, Step.restrict, close,
      hi.mode, hi.attributeName, hi.value]
  | false =>
    rw [toList_text_of_value hv]
    have hvalue : Progress.run { progress with
        mode := .quoted constraint.quote, attributeName := constraint.name.toList }
        (position + ('[' :: '@' :: constraint.name.toList ++ ['=', constraint.quote]).length)
        constraint.value.toList = .ok { progress with
          mode := .quoted constraint.quote
          attributeName := constraint.name.toList
          value := progress.value ++ constraint.value.toList } :=
      run_quoted rfl (quote_notMem hq) h.value
    refine run_append_eq_ok.mpr ⟨_, h.run_quote hi, run_append_eq_ok.mpr ⟨_, run_append_eq_ok.mpr
      ⟨_, hvalue, run_cons_eq_ok.mpr ⟨_, by simp [take, inQuoted]; rfl, rfl⟩⟩,
        run_cons_eq_ok.mpr ⟨_, ?_, rfl⟩⟩⟩
    simp [take, inAssignment, h.stripped, restricted, step, Step.restrict, close,
      hi.mode, hi.attributeName, hi.value]

/-! ### Values that can't be quoted -/

/-- An attribute's value is read. -/
def InValue (progress : Progress) : Prop :=
  progress.mode = .assignment ∨
    ∃ quote, (quote = '\'' ∨ quote = '"') ∧ progress.mode = .quoted quote

/-- What a character of a value does: it's read or dropped, and a quote that opens is dropped. -/
theorem InValue.take {c : Char} {next : Progress} (hm : InValue progress) (hc : c ≠ ']')
    (h : progress.take position c = .ok next) :
    InValue next ∧ next.constraints = progress.constraints ∧
      next.value.length ≤ progress.value.length + 1 ∧
      (progress.mode = .assignment → c = '\'' ∨ c = '"' → next.value = progress.value) ∧
      (progress.mode = .assignment → c ≠ '\'' ∧ c ≠ '"' → next.mode = .assignment) := by
  rcases hm with hm | ⟨quote, hquote, hm⟩
  · simp only [Progress.take, hm, inAssignment, if_neg hc] at h
    split at h
    · rename_i hq
      cases h
      refine ⟨.inr ⟨c, hq, rfl⟩, rfl, Nat.le_succ _, fun _ _ => rfl, fun _ hn => ?_⟩
      rcases hq with hq | hq
      · exact absurd hq hn.1
      · exact absurd hq hn.2
    rename_i hq
    split at h
    · cases h
    split at h
    · cases h
      exact ⟨.inl hm, rfl, Nat.le_succ _, fun _ _ => rfl, fun _ _ => hm⟩
    · cases h
      exact ⟨.inl rfl, rfl, by simp, fun _ h => absurd h hq, fun _ _ => rfl⟩
  · simp only [Progress.take, hm, inQuoted, if_neg hc, Except.ok.injEq] at h
    have hne : progress.mode ≠ .assignment := by simp [hm]
    split at h
    · subst h
      exact ⟨.inl rfl, rfl, Nat.le_succ _, fun h => absurd h hne, fun h => absurd h hne⟩
    · subst h
      exact ⟨.inr ⟨quote, hquote, rfl⟩, rfl, by simp, fun h => absurd h hne, fun h => absurd h hne⟩

/-- No more is read of a value than its text. -/
theorem InValue.run (hm : InValue progress) (hc : ']' ∉ text)
    (h : progress.run position text = .ok final) :
    InValue final ∧ final.constraints = progress.constraints ∧
      final.value.length ≤ progress.value.length + text.length := by
  induction text generalizing progress position with
  | nil =>
    cases h
    exact ⟨hm, rfl, Nat.le_refl _⟩
  | cons c text ih =>
    rw [List.mem_cons, not_or] at hc
    obtain ⟨next, ht, hr⟩ := run_cons_eq_ok.mp h
    obtain ⟨hn, hk, hl, -, -⟩ := hm.take (Ne.symm hc.1) ht
    obtain ⟨hf, hk', hl'⟩ := ih hn hc.2 hr
    refine ⟨hf, hk'.trans hk, ?_⟩
    rw [List.length_cons]
    omega

/-- Outside quotes, less is read of a text that holds a quote: the first one opens. -/
theorem length_run_of_quote (hm : progress.mode = .assignment) (hc : ']' ∉ text)
    (hq : '"' ∈ text) (h : progress.run position text = .ok final) :
    final.value.length < progress.value.length + text.length := by
  induction text generalizing progress position with
  | nil => cases hq
  | cons c text ih =>
    rw [List.mem_cons, not_or] at hc
    obtain ⟨next, ht, hr⟩ := run_cons_eq_ok.mp h
    obtain ⟨hn, -, hl, hdrop, hstay⟩ := InValue.take (.inl hm) (Ne.symm hc.1) ht
    rw [List.length_cons]
    by_cases hquote : c = '\'' ∨ c = '"'
    · have hlength := (hn.run hc.2 hr).2.2
      rw [hdrop hm hquote] at hlength
      omega
    · rw [not_or] at hquote
      have hmem : '"' ∈ text := by
        rcases List.mem_cons.mp hq with hq | hq
        · exact absurd hq.symm hquote.2
        · exact hq
      have := ih (hstay hm hquote) hc.2 hmem hr
      omega

/-- A value that holds a quote isn't read between two of them: it's closed by the first one in it,
and what follows can't make up for the characters that are lost. -/
theorem length_run_of_quoted (hm : progress.mode = .quoted '"') (hc : ']' ∉ text) (hq : '"' ∈ text)
    (h : progress.run position (text ++ ['"']) = .ok final) :
    InValue final ∧ final.constraints = progress.constraints ∧
      final.value.length < progress.value.length + text.length := by
  have hno : ']' ∉ text ++ ['"'] := by simp [hc]
  obtain ⟨hin, hk, -⟩ := InValue.run (.inr ⟨'"', .inr rfl, hm⟩) hno h
  refine ⟨hin, hk, ?_⟩
  obtain ⟨front, back, rfl, hfront⟩ := List.eq_append_cons_of_mem hq
  rw [List.mem_append, List.mem_cons, not_or, not_or] at hc
  rw [List.append_assoc, List.cons_append] at h
  obtain ⟨cut, hcut, hr⟩ := run_append_eq_ok.mp h
  cases hcut.symm.trans (run_quoted hm hfront hc.1)
  obtain ⟨closed, ht, hr⟩ := run_cons_eq_ok.mp hr
  simp only [take, hm, inQuoted, if_true, Except.ok.injEq] at ht
  subst ht
  have hlength := length_run_of_quote rfl (by simp [hc.2.2]) (by simp) hr
  simp only [List.length_append, List.length_cons, List.length_nil] at hlength ⊢
  omega

theorem InValue.close {next : Progress} (hm : InValue progress)
    (h : progress.take position ']' = .ok next) :
    next.constraints = progress.constraints ++
      [⟨String.ofList (strip progress.attributeName), String.ofList progress.value⟩] := by
  rcases hm with hm | ⟨quote, hq, hm⟩
  · simp only [Progress.take, hm, inAssignment, if_true, Except.ok.injEq] at h
    subst h
    rfl
  · have hne : ']' ≠ quote := by rcases hq with rfl | rfl <;> decide
    simp only [Progress.take, hm, Except.ok.injEq, inQuoted, if_neg hne, if_true] at h
    subst h
    rfl

/-- The text of a constraint whose value can't be quoted isn't read as the constraint. -/
theorem Constraint.IsRegular.run_text_ne (h : constraint.IsRegular) (hq : ¬constraint.IsQuotable)
    (hi : progress.Idle) (hr : progress.run position constraint.text.toList = .ok final) :
    ∃ other, other ≠ constraint ∧ final.constraints = progress.constraints ++ [other] := by
  simp only [IsQuotable, not_or, not_not] at hq
  obtain ⟨hsingle, hdouble⟩ := hq
  have hquote : constraint.quote = '"' := by
    rw [quote, if_pos (List.contains_iff_mem.mpr hsingle)]
  have hvalue : constraint.value.isEmpty = false := by
    rw [Bool.eq_false_iff, ne_eq, String.isEmpty_iff]
    intro he
    rw [he] at hsingle
    cases hsingle
  rw [toList_text_of_value hvalue] at hr
  obtain ⟨opened, ho, hr⟩ := run_append_eq_ok.mp hr
  cases ho.symm.trans (h.run_quote hi)
  obtain ⟨last, hlast, hr⟩ := run_append_eq_ok.mp hr
  rw [hquote] at hlast
  obtain ⟨hin, hk, hlength⟩ := length_run_of_quoted rfl h.value hdouble hlast
  obtain ⟨behind, ht, hr⟩ := run_cons_eq_ok.mp hr
  cases hr
  refine ⟨_, ?_, (hin.close ht).trans (by rw [hk])⟩
  intro he
  have hlen := congrArg (List.length ∘ String.toList ∘ Constraint.value) he
  simp only [Function.comp_apply, String.toList_ofList] at hlen
  simp only [hi.value, List.length_nil] at hlength
  omega

/-! ## Sequences of constraints -/

/-- The texts of constraints, one behind the other. -/
def constraintsText (constraints : List Constraint) : List Char :=
  constraints.flatMap (·.text.toList)

/-- Constraints are read one by one. -/
theorem run_constraintsText {constraints : List Constraint}
    (hr : ∀ constraint ∈ constraints, constraint.IsRegular)
    (hq : ∀ constraint ∈ constraints, constraint.IsQuotable) (hi : progress.Idle) :
    ∃ final, progress.run position (constraintsText constraints) = .ok final ∧ final.Idle ∧
      final.step = { progress.step with
        constraints := progress.constraints ++ constraints } := by
  induction constraints generalizing progress position with
  | nil => exact ⟨progress, rfl, hi, by simp [step]⟩
  | cons constraint constraints ih =>
    have hhead : progress.run position constraint.text.toList =
        .ok (progress.restricted (.constraint constraint)) :=
      (hr _ List.mem_cons_self).run_text (hq _ List.mem_cons_self) hi
    obtain ⟨final, hrun, hidle, hstep⟩ := @ih _ (position + constraint.text.toList.length)
      (fun c hm => hr c (List.mem_cons_of_mem _ hm)) (fun c hm => hq c (List.mem_cons_of_mem _ hm))
      (hi.restricted (.constraint constraint))
    refine ⟨final, run_append_eq_ok.mpr ⟨_, hhead, hrun⟩, hidle, ?_⟩
    rw [hstep]
    simp [restricted, step, Step.restrict]

/-- A constraint whose value can't be quoted is lost for good. -/
theorem run_constraintsText_ne {front back : List Constraint} {rest : List Char}
    (hr : ∀ constraint ∈ front, constraint.IsRegular)
    (hq : ∀ constraint ∈ front, constraint.IsQuotable)
    (hb : constraint.IsRegular) (hn : ¬constraint.IsQuotable) (hi : progress.Idle)
    (h : progress.run position (constraintsText (front ++ [constraint]) ++ rest) = .ok final) :
    final.constraints ≠ progress.constraints ++ (front ++ constraint :: back) := by
  rw [constraintsText, List.flatMap_append, List.append_assoc] at h
  obtain ⟨between, hfront, h⟩ := run_append_eq_ok.mp h
  obtain ⟨idle, hrun, hidle, hstep⟩ := run_constraintsText hr hq hi
  cases hfront.symm.trans hrun
  obtain ⟨behind, hbad, h⟩ := run_append_eq_ok.mp h
  rw [List.flatMap_cons, List.flatMap_nil, List.append_nil] at hbad
  obtain ⟨other, hne, hother⟩ := hb.run_text_ne hn hidle hbad
  obtain ⟨more, hmore⟩ := constraints_run h
  have hidleConstraints : between.constraints = progress.constraints ++ front :=
    congrArg Step.constraints hstep
  intro hf
  rw [← hmore, hother, hidleConstraints] at hf
  simp at hf
  exact hne hf.1

/-! ## Splitting -/

open Split

theorem Split.Nesting.foldl_after_of_notMem {quote : Char} {brackets : Nat} (h : quote ∉ text) :
    text.foldl Nesting.after ⟨some quote, brackets⟩ = ⟨some quote, brackets⟩ := by
  induction text with
  | nil => rfl
  | cons c text ih =>
    rw [List.mem_cons, not_or] at h
    rw [List.foldl_cons, Nesting.after]
    simp only [Ne.symm h.1, if_false]
    exact ih h.2

theorem Split.Nesting.foldl_after_of_letters {brackets : Nat}
    (h : ∀ c ∈ text, Progress.isDelimiter c = false) :
    text.foldl Nesting.after ⟨none, brackets⟩ = ⟨none, brackets⟩ := by
  induction text with
  | nil => rfl
  | cons c text ih =>
    have hc := h c List.mem_cons_self
    have hne : c ≠ '\'' ∧ c ≠ '"' ∧ c ≠ '[' ∧ c ≠ ']' := by
      refine ⟨?_, ?_, ?_, ?_⟩ <;> rintro rfl <;> cases hc
    rw [List.foldl_cons, Nesting.after]
    simp only [hne, or_self, if_false]
    exact ih fun d hd => h d (List.mem_cons_of_mem _ hd)

/-- The text of a constraint isn't split. -/
theorem Constraint.IsRegular.keeps_text (h : constraint.IsRegular) :
    keeps {} constraint.text.toList = true := by
  rw [toList_text, List.cons_append, keeps]
  exact keeps_of_brackets (by decide) h.notMem_inner

/-- Behind the text of a constraint all marks are closed, if its value can be quoted. -/
theorem Constraint.IsRegular.foldl_text (h : constraint.IsRegular) (hq : constraint.IsQuotable) :
    constraint.text.toList.foldl Nesting.after {} = {} := by
  have hname : ('[' :: '@' :: constraint.name.toList).foldl Nesting.after {} = ⟨none, 1⟩ :=
    Nesting.foldl_after_of_letters h.letters
  rw [toList_text, inner]
  split
  · rw [List.append_nil, List.foldl_append, hname]
    rfl
  · have hopen : Nesting.after ⟨none, 1⟩ constraint.quote = ⟨some constraint.quote, 1⟩ := by
      rcases constraint.quote_eq with hc | hc <;> rw [hc] <;> rfl
    have hvalue : constraint.value.toList.foldl Nesting.after ⟨some constraint.quote, 1⟩ =
        ⟨some constraint.quote, 1⟩ := Nesting.foldl_after_of_notMem (quote_notMem hq)
    have hclose : Nesting.after ⟨some constraint.quote, 1⟩ constraint.quote = ⟨none, 1⟩ := by
      simp [Nesting.after]
    have hquoted : ('=' :: constraint.quote :: constraint.value.toList ++ [constraint.quote]).foldl
        Nesting.after ⟨none, 1⟩ = ⟨none, 1⟩ := by
      have hequals : Nesting.after ⟨none, 1⟩ '=' = ⟨none, 1⟩ := rfl
      simp only [List.cons_append, List.foldl_cons, List.foldl_append, List.foldl_nil, hequals,
        hopen, hvalue, hclose]
    rw [List.foldl_append, ← List.cons_append, List.foldl_append, hname, hquoted]
    rfl

theorem keeps_constraintsText {constraints : List Constraint}
    (hr : ∀ constraint ∈ constraints, constraint.IsRegular)
    (hq : ∀ constraint ∈ constraints, constraint.IsQuotable) :
    keeps {} (constraintsText constraints) = true ∧
      (constraintsText constraints).foldl Nesting.after {} = {} := by
  induction constraints with
  | nil => exact ⟨rfl, rfl⟩
  | cons constraint constraints ih =>
    obtain ⟨hk, hn⟩ := ih (fun c hm => hr c (List.mem_cons_of_mem _ hm))
      fun c hm => hq c (List.mem_cons_of_mem _ hm)
    have hhead := hr _ List.mem_cons_self
    have hnest := hhead.foldl_text (hq _ List.mem_cons_self)
    rw [constraintsText, List.flatMap_cons, keeps_append, List.foldl_append, hnest]
    exact ⟨⟨hhead.keeps_text, hk⟩, hn⟩

end MarkupPath
