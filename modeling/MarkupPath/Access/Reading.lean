import MarkupPath.Access.Call
import MarkupPath.Error
import MarkupPath.Tree.Position
import MarkupPath.Tree.UniversalName

/-!
# Reading a tree

A `Reading` is the result of a computation that reads a tree: its outcome and the calls of
operations that were made, in their order. The calls survive an error.

The monad is that of an output list with errors: `Reading.bind` puts the calls of the second
computation behind those of the first, and none if that failed.
-/

namespace MarkupPath

/-- The result of a computation that reads a tree. -/
structure Reading (α : Type) where
  /-- the calls that were made, in their order -/
  calls : List Call
  /-- the value, or why there's none -/
  outcome : Except Error α

namespace Reading

variable {α β γ : Type}

@[ext] theorem ext {r s : Reading α} (hc : r.calls = s.calls) (ho : r.outcome = s.outcome) :
    r = s := by
  cases r; cases s
  subst hc; subst ho
  rfl

/-- A value that needs no access. -/
protected def pure (a : α) : Reading α := ⟨[], .ok a⟩

/-- An error that needs no access. -/
def fail (error : Error) : Reading α := ⟨[], .error error⟩

/-- Reads on with the value, if there's one. -/
protected def bind (r : Reading α) (f : α → Reading β) : Reading β :=
  match r.outcome with
  | .error error => ⟨r.calls, .error error⟩
  | .ok a => ⟨r.calls ++ (f a).calls, (f a).outcome⟩

/-- Changes the value, if there's one. -/
protected def map (f : α → β) (r : Reading α) : Reading β := ⟨r.calls, r.outcome.map f⟩

instance : Monad Reading where
  map := Reading.map
  pure := Reading.pure
  bind := Reading.bind

/-- A value that a single call gives. -/
def call (operation : Operation) (node : NodeId) (a : α) : Reading α :=
  ⟨[⟨operation, node⟩], .ok a⟩

/-- A single call that may fail. -/
def attempt (operation : Operation) (node : NodeId) (outcome : Except Error α) : Reading α :=
  ⟨[⟨operation, node⟩], outcome⟩

/-- A single call that gives a value unless something is refused. -/
def callUnless (refusal : Option Refusal) (operation : Operation) (node : NodeId) (a : α) :
    Reading α :=
  match refusal with
  | none => .call operation node a
  | some refusal => .attempt operation node (.error (.lookup refusal))

@[simp] theorem callUnless_none (operation : Operation) (node : NodeId) (a : α) :
    callUnless none operation node a = call operation node a := rfl

theorem bind_of_ok {r : Reading α} {a : α} (f : α → Reading β) (h : r.outcome = .ok a) :
    r.bind f = ⟨r.calls ++ (f a).calls, (f a).outcome⟩ := by
  simp [Reading.bind, h]

theorem bind_of_error {r : Reading α} {error : Error} (f : α → Reading β)
    (h : r.outcome = .error error) : r.bind f = ⟨r.calls, .error error⟩ := by
  simp [Reading.bind, h]

theorem pure_bind (a : α) (f : α → Reading β) : (Reading.pure a).bind f = f a := by
  simp [Reading.bind, Reading.pure]

theorem bind_pure (r : Reading α) : r.bind Reading.pure = r := by
  ext1 <;> cases h : r.outcome <;> simp [Reading.bind, Reading.pure, h]

theorem bind_assoc (r : Reading α) (f : α → Reading β) (g : β → Reading γ) :
    (r.bind f).bind g = r.bind fun a => (f a).bind g := by
  cases h : r.outcome with
  | error error => simp [Reading.bind, h]
  | ok a =>
    cases hf : (f a).outcome with
    | error error => simp [Reading.bind, h, hf]
    | ok b => simp [Reading.bind, h, hf]

theorem bind_pure_comp (f : α → β) (r : Reading α) :
    (r.bind fun a => Reading.pure (f a)) = r.map f := by
  ext1 <;> cases h : r.outcome <;> simp [Reading.bind, Reading.pure, Reading.map, h, Except.map]

theorem map_id (r : Reading α) : r.map id = r := by
  rw [← bind_pure_comp]
  exact bind_pure r

instance : LawfulMonad Reading :=
  LawfulMonad.mk' Reading (fun r => map_id r) (fun a f => pure_bind a f)
    (fun r f g => bind_assoc r f g) (fun _ _ => rfl) (fun _ _ => rfl) (fun _ _ => rfl)
    (fun f r => bind_pure_comp f r)

theorem bind_eq (r : Reading α) (f : α → Reading β) : r >>= f = r.bind f := rfl

/-! ## Found nodes with a property -/

/-- What was found, with a proof that it has a property. -/
def certify {P : α → Prop} (found : Option α) (h : ∀ a, found = some a → P a) :
    Option { a : α // P a } :=
  match found with
  | none => none
  | some a => some ⟨a, h a rfl⟩

@[simp] theorem unattach_certify {P : α → Prop} (found : Option α)
    (h : ∀ a, found = some a → P a) : (certify found h).unattach = found := by
  cases found <;> rfl

/-- What was found has a weaker property, too. -/
def weaken {P Q : α → Prop} (h : ∀ a, P a → Q a) (r : Reading (Option { a : α // P a })) :
    Reading (Option { a : α // Q a }) :=
  Option.map (fun a => ⟨a.val, h a.val a.property⟩) <$> r

/-- What was found, without a proof. -/
def plain {P : α → Prop} (r : Reading (Option { a : α // P a })) : Reading (Option α) :=
  Option.unattach <$> r

@[simp] theorem plain_pure {P : α → Prop} (found : Option { a : α // P a }) :
    (pure found : Reading _).plain = pure found.unattach := by
  simp [plain]

@[simp] theorem plain_call {P : α → Prop} (operation : Operation) (node : NodeId)
    (found : Option { a : α // P a }) :
    (call operation node found).plain = call operation node found.unattach := rfl

@[simp] theorem plain_callUnless {P : α → Prop} (refusal : Option Refusal)
    (operation : Operation) (node : NodeId) (found : Option { a : α // P a }) :
    (callUnless refusal operation node found).plain =
      callUnless refusal operation node found.unattach := by
  cases refusal <;> rfl

@[simp] theorem plain_weaken {P Q : α → Prop} (h : ∀ a, P a → Q a)
    (r : Reading (Option { a : α // P a })) : (r.weaken h).plain = r.plain := by
  simp only [plain, weaken, Functor.map_map]
  congr 1
  funext found
  cases found <;> rfl

@[simp] theorem plain_bind {P : α → Prop} (r : Reading β)
    (f : β → Reading (Option { a : α // P a })) :
    (r >>= f).plain = r >>= fun b => (f b).plain := by
  simp [plain]

/-- Reading on with what was found doesn't depend on the proof if the continuation doesn't. -/
theorem bind_eq_plain_bind {P : α → Prop} (r : Reading (Option { a : α // P a }))
    (f : Option { a : α // P a } → Reading β) (g : Option α → Reading β)
    (h : ∀ found, f found = g found.unattach) : r >>= f = r.plain >>= g := by
  simp only [plain, map_eq_pure_bind, LawfulMonad.bind_assoc, LawfulMonad.pure_bind]
  exact congrArg (r >>= ·) (funext h)

end Reading

/-! ## The operations that read -/

namespace Position

/-- The value of an attribute, given its written name. A qualifier that isn't declared makes it
absent. -/
def value? (position : Position) (name : String) : Except Refusal (Option String) :=
  (UniversalName.ofAttribute? position.scope name).map fun key =>
    key.bind position.element.tag.value?

/-- Looks up the value of an attribute. -/
def attr (position : Position) (name : String) : Reading (Option String) :=
  .attempt .attr position.id ((position.value? name).mapError .lookup)

/-- The written name of the element. It's refused if no element can have the name. -/
def tellName (position : Position) : Reading String :=
  match position.refusal? with
  | none => return position.name
  | some refusal => .fail (.lookup refusal)

/-- Asks for the first child of the given name, or of any. -/
def firstChild (position : Position) (filter : Option String := none) :
    Reading (Option { next : Position // next.ahead < position.ahead }) :=
  .callUnless (position.childRefusal? filter) .firstChild position.id
    (Reading.certify (position.firstChild? filter) fun _ => ahead_firstChild)

/-- Asks for the next sibling of the given name, or of any. -/
def nextSibling (position : Position) (filter : Option String := none) :
    Reading (Option { next : Position // next.ahead < position.after }) :=
  .callUnless (position.siblingRefusal? filter) .nextSibling position.id
    (Reading.certify (position.nextSibling? filter) fun _ => ahead_nextSibling)

@[simp] theorem plain_firstChild (position : Position) (filter : Option String) :
    (position.firstChild filter).plain =
      .callUnless (position.childRefusal? filter) .firstChild position.id
        (position.firstChild? filter) := by
  simp [firstChild]

@[simp] theorem plain_nextSibling (position : Position) (filter : Option String) :
    (position.nextSibling filter).plain =
      .callUnless (position.siblingRefusal? filter) .nextSibling position.id
        (position.nextSibling? filter) := by
  simp [nextSibling]

/-- Asks for the last child. -/
def lastChild (position : Position) : Reading (Option Position) :=
  .call .lastChild position.id position.lastChild?

/-- Asks for the parent. -/
def parent (position : Position) : Reading (Option Position) :=
  .call .parent position.id position.parent?

/-- Asks for the text in front of the first child. -/
def text (position : Position) : Reading (Option String) :=
  .call .text position.id position.element.tag.text

end Position
end MarkupPath
