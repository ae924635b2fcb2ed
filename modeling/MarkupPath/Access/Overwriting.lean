import MarkupPath.Access.Reading

/-!
# Reading a tree and overwriting a state

Who reads a tree may keep what was found in a state that's overwritten while the reading goes on.
`Overwriting σ` is the monad of such computations. An error ends a reading, but what has been
overwritten until then stays so: there's a state left in any case.
-/

namespace MarkupPath

/-- A computation that reads a tree and overwrites a state. -/
structure Overwriting (σ α : Type) where
  /-- what is read, and the state that is left -/
  run : σ → Reading α × σ

namespace Overwriting

variable {σ α β : Type}

/-- A value that leaves the state alone. -/
protected def pure (a : α) : Overwriting σ α := ⟨fun state => (pure a, state)⟩

/-- Goes on with the value, if there's one, and with the state that was left. -/
protected def bind (m : Overwriting σ α) (f : α → Overwriting σ β) : Overwriting σ β where
  run state :=
    match m.run state with
    | (⟨calls, .error error⟩, left) => (⟨calls, .error error⟩, left)
    | (⟨calls, .ok a⟩, left) =>
      let (next, last) := (f a).run left
      (⟨calls ++ next.calls, next.outcome⟩, last)

instance : Monad (Overwriting σ) where
  pure := Overwriting.pure
  bind := Overwriting.bind

instance : MonadStateOf σ (Overwriting σ) where
  get := ⟨fun state => (pure state, state)⟩
  set state := ⟨fun _ => (pure (), state)⟩
  modifyGet f := ⟨fun state => let (a, left) := f state; (pure a, left)⟩

/-- Reads and leaves the state alone. -/
def read (reading : Reading α) : Overwriting σ α := ⟨fun state => (reading, state)⟩

@[simp] theorem run_pure (a : α) (state : σ) :
    (pure a : Overwriting σ α).run state = (pure a, state) := rfl

@[simp] theorem run_get (state : σ) : (get : Overwriting σ σ).run state = (pure state, state) := rfl

@[simp] theorem run_modify (f : σ → σ) (state : σ) :
    (modify f : Overwriting σ PUnit).run state = (pure (), f state) := rfl

@[simp] theorem run_read (reading : Reading α) (state : σ) :
    (read reading).run state = (reading, state) := rfl

/-- Both parts of a computation read. -/
theorem fst_bind (m : Overwriting σ α) (f : α → Overwriting σ β) (state : σ) :
    ((m >>= f).run state).1 = (m.run state).1 >>= fun a => ((f a).run (m.run state).2).1 := by
  change ((Overwriting.bind m f).run state).1 = Reading.bind _ _
  rw [Overwriting.bind, Reading.bind]
  dsimp only
  generalize m.run state = result
  obtain ⟨⟨calls, _ | a⟩, left⟩ := result <;> rfl

/-- What is left after both parts of a computation. -/
theorem snd_bind_of_ok {m : Overwriting σ α} {state : σ} {a : α} (f : α → Overwriting σ β)
    (h : (m.run state).1.outcome = .ok a) :
    ((m >>= f).run state).2 = ((f a).run (m.run state).2).2 := by
  change ((Overwriting.bind m f).run state).2 = _
  rw [Overwriting.bind]
  dsimp only
  generalize m.run state = result at h
  obtain ⟨⟨calls, _ | b⟩, left⟩ := result
  · cases h
  · cases h
    rfl

/-- Nothing is overwritten after an error. -/
theorem snd_bind_of_error {m : Overwriting σ α} {state : σ} {error : Error}
    (f : α → Overwriting σ β) (h : (m.run state).1.outcome = .error error) :
    ((m >>= f).run state).2 = (m.run state).2 := by
  change ((Overwriting.bind m f).run state).2 = _
  rw [Overwriting.bind]
  dsimp only
  generalize m.run state = result at h
  obtain ⟨⟨calls, _ | b⟩, left⟩ := result
  · rfl
  · cases h

/-- Going on after a value for which nothing was read. -/
theorem run_bind_of_pure {m : Overwriting σ α} {state left : σ} {a : α}
    (f : α → Overwriting σ β) (h : m.run state = (pure a, left)) :
    (m >>= f).run state = (f a).run left := by
  change (Overwriting.bind m f).run state = _
  rw [Overwriting.bind]
  simp only [h]
  rfl

/-- Changing a value in the end. -/
theorem run_bind_pure (m : Overwriting σ α) (f : α → β) (state : σ) :
    (m >>= fun a => pure (f a)).run state = (f <$> (m.run state).1, (m.run state).2) := by
  refine Prod.ext ?_ ?_
  · rw [fst_bind, map_eq_pure_bind]
    rfl
  · cases h : (m.run state).1.outcome with
    | error error => rw [snd_bind_of_error _ h]
    | ok a => rw [snd_bind_of_ok _ h]; rfl

end Overwriting
end MarkupPath
