import MarkupPath.Access.Reading

/-!
# Outcomes of readings

What a reading gives, regardless of the calls that it makes: the outcome of each way to combine
readings in terms of the outcomes of its parts.
-/

namespace MarkupPath

namespace Reading

variable {α β : Type}

@[simp] theorem outcome_pure (a : α) : (pure a : Reading α).outcome = .ok a := rfl

@[simp] theorem outcome_fail (error : Error) : (fail error : Reading α).outcome = .error error :=
  rfl

@[simp] theorem fail_bind (error : Error) (f : α → Reading β) : fail error >>= f = fail error := rfl

@[simp] theorem outcome_call (operation : Operation) (node : NodeId) (a : α) :
    (call operation node a).outcome = .ok a := rfl

@[simp] theorem outcome_attempt (operation : Operation) (node : NodeId)
    (outcome : Except Error α) : (attempt operation node outcome).outcome = outcome := rfl

@[simp] theorem outcome_callUnless (refusal : Option Refusal) (operation : Operation)
    (node : NodeId) (a : α) :
    (callUnless refusal operation node a).outcome =
      match refusal with
      | none => .ok a
      | some refusal => .error (.lookup refusal) := by
  cases refusal <;> rfl

@[simp] theorem outcome_map (f : α → β) (r : Reading α) : (f <$> r).outcome = r.outcome.map f :=
  rfl

/-- An error is left as it is. -/
theorem outcome_map_eq_error {f : α → β} {r : Reading α} {error : Error} :
    (f <$> r).outcome = .error error ↔ r.outcome = .error error := by
  rw [outcome_map]
  cases r.outcome <;> simp [Except.map]

/-- A value is what another one was changed to. -/
theorem outcome_map_eq_ok {f : α → β} {r : Reading α} {b : β} :
    (f <$> r).outcome = .ok b ↔ ∃ a, r.outcome = .ok a ∧ f a = b := by
  rw [outcome_map]
  cases r.outcome <;> simp [Except.map]

/-- Reading on after a value. -/
theorem outcome_bind_of_ok {r : Reading α} {a : α} (f : α → Reading β) (h : r.outcome = .ok a) :
    (r >>= f).outcome = (f a).outcome := by
  rw [bind_eq, bind_of_ok f h]

/-- Nothing is read after an error. -/
theorem outcome_bind_of_error {r : Reading α} {error : Error} (f : α → Reading β)
    (h : r.outcome = .error error) : (r >>= f).outcome = .error error := by
  rw [bind_eq, bind_of_error f h]

theorem outcome_bind (r : Reading α) (f : α → Reading β) :
    (r >>= f).outcome = r.outcome >>= fun a => (f a).outcome := by
  cases h : r.outcome with
  | error error => rw [outcome_bind_of_error f h]; rfl
  | ok a => rw [outcome_bind_of_ok f h]; rfl

/-- A value in the end comes from one in between. -/
theorem outcome_bind_eq_ok {r : Reading α} {f : α → Reading β} {b : β} :
    (r >>= f).outcome = .ok b ↔ ∃ a, r.outcome = .ok a ∧ (f a).outcome = .ok b := by
  cases h : r.outcome with
  | error error => simp [outcome_bind_of_error f h]
  | ok a => simp [outcome_bind_of_ok f h]

/-- An error comes from one of the parts. -/
theorem outcome_bind_eq_error {r : Reading α} {f : α → Reading β} {error : Error} :
    (r >>= f).outcome = .error error ↔
      r.outcome = .error error ∨ ∃ a, r.outcome = .ok a ∧ (f a).outcome = .error error := by
  cases h : r.outcome with
  | error error => simp [outcome_bind_of_error f h]
  | ok a => simp [outcome_bind_of_ok f h]

/-- How reading goes on matters only for the value that there is. -/
theorem bind_congr_of_ok {r : Reading α} {f g : α → Reading β}
    (h : ∀ a, r.outcome = .ok a → f a = g a) : r >>= f = r >>= g := by
  rw [bind_eq, bind_eq]
  cases hr : r.outcome with
  | error error => rw [bind_of_error f hr, bind_of_error g hr]
  | ok a => rw [bind_of_ok f hr, bind_of_ok g hr, h a hr]

/-- Reading on with what was found, when the continuation doesn't look at the proof. -/
theorem outcome_bind_of_plain {P : α → Prop} {r : Reading (Option { a : α // P a })}
    {found : Option α} (f : Option { a : α // P a } → Reading β) (g : Option α → Reading β)
    (h : ∀ found, f found = g found.unattach) (hr : r.plain.outcome = .ok found) :
    (r >>= f).outcome = (g found).outcome := by
  rw [bind_eq_plain_bind r f g h, outcome_bind_of_ok _ hr]

end Reading
end MarkupPath
