import MarkupPath.Proofs.Search.Sightings
import MarkupPath.Proofs.Search.Walk

/-!
# The candidates of a step, one after the other

A search never lists candidates. It asks a step for the first one and for the one behind another,
and `Finds` says what such a question has to be answered, given the nodes that are left on the
step's axis: the first candidate among them, unless a name is refused in front of it. The candidate
that is found comes with what is left behind it, which is determined by its position alone
(`Step.beyond`), so the next question can be asked from there.
-/

namespace MarkupPath

namespace Step

/-- The nodes on a step's axis that come behind one of them. -/
def beyond (step : Step) (context position : Position) : List Position :=
  match step.axis with
  | .children | .anyChild => position.laterSiblings
  | .descendants => Position.laterWithin context position
  | .self | .parent | .root | .unsupported => []

theorem eq_nil_of_suffix_toList {position : Position} {rest : List Position}
    (node : Option Position) (h : position :: rest <:+ node.toList) : rest = [] := by
  have := h.length_le
  cases node <;> simp at this
  exact this

/-- The position alone tells what comes behind it. -/
theorem beyond_of_suffix {step : Step} {context position : Position} {rest : List Position}
    (h : position :: rest <:+ step.reachable context) : rest = step.beyond context position := by
  simp only [reachable] at h
  simp only [beyond]
  cases hx : step.axis <;> simp only [hx] at h ⊢
  case children | anyChild => exact Position.allIn_suffix h
  case descendants => exact Position.laterWithin_of_suffix h
  case self => exact eq_nil_of_suffix_toList (some context) h
  case parent => exact eq_nil_of_suffix_toList _ h
  case root | unsupported => exact eq_nil_of_suffix_toList none h

/-- A node on the axis is followed there by what comes behind it. -/
theorem cons_beyond_suffix {step : Step} {context position : Position}
    (h : position ∈ step.reachable context) :
    position :: step.beyond context position <:+ step.reachable context := by
  obtain ⟨before, rest, hs⟩ := List.append_of_mem h
  have hr : position :: rest <:+ step.reachable context := ⟨before, hs.symm⟩
  rwa [← beyond_of_suffix hr]

/-- The next descendant that passes the name test is looked for from one to the next. -/
theorem outcome_followingDescendant (step : Step) {context position : Position}
    (h : context.address <:+ position.address) :
    (step.followingDescendant context position).plain.outcome =
      match (Position.laterWithin context position).head? with
      | none => .ok none
      | some next => (do
          if step.matchesName (← next.tellName) then pure (some next)
          else (step.followingDescendant context next).plain : Reading (Option Position)).outcome := by
  rw [followingDescendant, Reading.plain_bind,
    Reading.outcome_bind_of_plain _ (fun found => match found with
      | none => pure none
      | some next => do
        if step.matchesName (← next.tellName) then pure (some next)
        else (step.followingDescendant context next).plain)
    ?_ (Position.outcome_nextInSubtree h)]
  · cases (Position.laterWithin context position).head? <;> rfl
  · rintro (_ | ⟨next, hn⟩)
    · rfl
    · simp only [Reading.plain_bind]
      congr 1
      funext name
      split <;> simp

end Step

/-- The answer to the question for the first candidate among the nodes that are left. -/
inductive Finds (step : Step) : List Position → Except Error (Option Position) → Prop where
  /-- there's no candidate -/
  | nothing {left : List Position} :
    left.filterMap step.sight = [] → Finds step left (.ok none)
  /-- a name is refused before a candidate is found -/
  | refused {left : List Position} {refusal : Refusal} {more : List Sighting} :
    left.filterMap step.sight = .error refusal :: more →
    Finds step left (.error (.lookup refusal))
  /-- a candidate is found, and the nodes behind it are left -/
  | candidate {left rest : List Position} {position : Position} :
    position :: rest <:+ left →
    left.filterMap step.sight = .ok position :: rest.filterMap step.sight →
    Finds step left (.ok (some position))

namespace Finds

variable {step : Step} {left : List Position} {position : Position}

/-- A node that is nothing to the search is passed over. -/
theorem skip {answer : Except Error (Option Position)} (hs : step.sight position = none)
    (h : Finds step left answer) : Finds step (position :: left) answer := by
  have he : (position :: left).filterMap step.sight = left.filterMap step.sight :=
    List.filterMap_cons_none hs
  cases h with
  | nothing hn => exact .nothing (he.trans hn)
  | refused hr => exact .refused (he.trans hr)
  | candidate hc hf => exact .candidate (hc.trans (List.suffix_cons _ _)) (he.trans hf)

theorem refusedHere {refusal : Refusal} (hs : step.sight position = some (.error refusal)) :
    Finds step (position :: left) (.error (.lookup refusal)) :=
  .refused (List.filterMap_cons_some hs)

theorem here (hs : step.sight position = some (.ok position)) :
    Finds step (position :: left) (.ok (some position)) :=
  .candidate (List.suffix_refl _) (List.filterMap_cons_some hs)

/-- A node whose name is told and tested is found if it passes. -/
theorem named (ha : step.asksNames = true) :
    Finds step [position] (step.named position).outcome := by
  rw [Step.named, Position.tellName]
  cases hr : position.refusal? with
  | some refusal => exact .refusedHere (Step.sight_of_refusal ha hr)
  | none =>
    have hs := step.sight_of_told fun _ => hr
    simp only [pure_bind, Reading.outcome_pure]
    by_cases hm : step.matchesName position.name = true
    · rw [if_pos hm] at hs ⊢
      exact .here hs
    · rw [if_neg hm] at hs ⊢
      exact .skip hs (.nothing rfl)

/-- Without a name test the first node is found. -/
theorem any (ha : step.asksNames = false) (hn : step.name.isEmpty = true) (left : List Position) :
    Finds step left (.ok left.head?) := by
  cases left with
  | nil => exact .nothing rfl
  | cons position rest =>
    have hs := step.sight_of_told (show _ → position.refusal? = none by simp [ha])
    rw [if_pos (by simp [Step.matchesName, hn])] at hs
    exact .here hs

/-- Looking for the first element of the name that a step asks for. -/
theorem ofName (ha : step.asksNames = true) (hn : step.name.isEmpty = false) (parent : Position)
    (index : Nat) (content : Content) :
    Finds step (Position.allIn parent index content)
      (match Position.refusalIn step.name content with
        | none => .ok (Position.firstIn parent (some step.name) index content)
        | some refusal => .error (.lookup refusal)) := by
  induction content generalizing index with
  | nil => exact .nothing rfl
  | element tag children tail rest _ ih =>
    rw [Position.allIn, Position.refusalIn, Position.firstIn]
    cases hr : tag.name.refusal? with
    | some refusal => exact .refusedHere (Step.sight_of_refusal ha hr)
    | none =>
      have hs := step.sight_of_told
        (show _ → Position.refusal? (.child parent index ⟨tag, children⟩ rest) = none from fun _ => hr)
      have hm : step.matchesName (Position.name (.child parent index ⟨tag, children⟩ rest)) =
          (tag.name.written == step.name) := by
        rw [Step.matchesName, hn, Bool.false_or]
        rfl
      rw [hm] at hs
      simp only [Position.passes]
      by_cases hw : (tag.name.written == step.name) = true
      · rw [if_pos hw] at hs
        simp only [hw, if_true]
        exact .here hs
      · rw [if_neg hw] at hs
        simp only [hw]
        exact .skip hs (ih (index + 1))
  | comment text tail rest ih => exact ih index
  | instruction target data tail rest ih => exact ih index

/-- Looking for the first child of the name that a step asks for, if it asks for one. -/
theorem ofFilter (hx : step.axis = .children ∨ step.axis = .anyChild) (parent : Position)
    (index : Nat) (content : Content) :
    Finds step (Position.allIn parent index content)
      (match step.nameFilter.bind fun name => Position.refusalIn name content with
        | none => .ok (Position.firstIn parent step.nameFilter index content)
        | some refusal => .error (.lookup refusal)) := by
  have ha : step.asksNames = !step.name.isEmpty := by
    simp only [Step.asksNames]
    rcases hx with hx | hx <;> rw [hx]
  rw [Step.nameFilter]
  by_cases hn : step.name.isEmpty = true
  · rw [if_pos hn, Position.firstIn_none]
    exact .any (by simp [ha, hn]) hn _
  · rw [if_neg hn]
    exact .ofName (by simp [ha, hn]) (by simpa using hn) parent index content

/-- The next descendant that passes the name test, among those that are left. -/
theorem descendant {context position : Position} (ha : step.asksNames = true)
    (hb : context.address <:+ position.address) (hl : left <:+ context.descendants)
    (h : left = Position.laterWithin context position) :
    Finds step left (step.followingDescendant context position).plain.outcome := by
  induction left generalizing position with
  | nil =>
    rw [Step.outcome_followingDescendant step hb, ← h]
    exact .nothing rfl
  | cons next rest ih =>
    have hr : rest = Position.laterWithin context next := Position.laterWithin_of_suffix hl
    have hnext := Position.address_suffix_of_mem (hl.mem List.mem_cons_self)
    rw [Step.outcome_followingDescendant step hb, ← h, List.head?_cons]
    simp only [Position.tellName]
    cases hn : next.refusal? with
    | some refusal => exact .refusedHere (Step.sight_of_refusal ha hn)
    | none =>
      have hs := step.sight_of_told fun _ => hn
      simp only [pure_bind]
      by_cases hm : step.matchesName next.name = true
      · rw [if_pos hm] at hs ⊢
        exact .here hs
      · rw [if_neg hm] at hs ⊢
        exact .skip hs (ih hnext ((List.suffix_cons _ _).trans hl) hr)

end Finds

namespace Step

/-- The first candidate is found among the nodes on the axis. -/
theorem first_finds (step : Step) (context : Position) :
    Finds step (step.reachable context) (step.first context).outcome := by
  simp only [first, reachable]
  cases hx : step.axis <;> simp only
  case children | anyChild => 
    rw [Position.plain_firstChild, Reading.outcome_callUnless]
    exact .ofFilter (by simp [hx]) context 0 context.element.content
  case descendants =>
    exact .descendant (by rw [asksNames, hx]) (List.suffix_refl _) (List.suffix_refl _)
      (Position.laterWithin_self context).symm
  case self => exact .named (by rw [asksNames, hx])
  case parent =>
    rw [Position.parent, Reading.outcome_bind_of_ok _ (Reading.outcome_call _ _ _)]
    cases context.parent? with
    | none => exact .nothing rfl
    | some parent => exact .named (by rw [asksNames, hx])
  case root | unsupported => exact .nothing rfl

/-- The candidate behind another one is found among the nodes behind that. -/
theorem next_finds {step : Step} {context position : Position}
    (h : position ∈ step.reachable context) :
    Finds step (step.beyond context position) (step.next context position).plain.outcome := by
  have hb := cons_beyond_suffix h
  simp only [next, beyond]
  cases hx : step.axis <;> simp only
  case children | anyChild =>
    rw [Reading.plain_weaken, Position.plain_nextSibling, Reading.outcome_callUnless]
    cases position with
    | top element => exact .nothing rfl
    | child parent index element following =>
      exact .ofFilter (by simp [hx]) parent (index + 1) following
  case descendants =>
    rw [beyond, reachable, hx] at hb
    have hbelow := Position.address_suffix_of_mem (hb.mem List.mem_cons_self)
    exact .descendant (by rw [asksNames, hx]) hbelow ((List.suffix_cons _ _).trans hb) rfl
  case self | parent | root | unsupported => exact .nothing rfl

end Step
end MarkupPath
