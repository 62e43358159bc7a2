/-!
# Terms

A term is one slot for a value: it is unbound, or it holds a value. Equality of values is whatever
`==` says. No law is assumed of it, so a value may equal another one that is not the same, and need
not equal itself.
-/

namespace Hornbase

universe v

/-- The refusal to bind a term that holds a different value. -/
inductive AlreadyBound where
  | differs
deriving DecidableEq

/-- The wording of the refusal. -/
def AlreadyBound.message : AlreadyBound → String
  | .differs => "term is already bound to a different value"

/-- A slot that holds a value or waits for one. -/
structure Term (V : Type v) where
  value : Option V
deriving BEq

namespace Term

variable {V : Type v}

/-- The term that waits for a value. -/
def unbound : Term V := ⟨none⟩

/-- The term that holds `v`. -/
def bound (v : V) : Term V := ⟨some v⟩

instance : Inhabited (Term V) := ⟨unbound⟩

/-- Whether the term holds a value. -/
def isBound (t : Term V) : Bool := t.value.isSome

/-- Binds the term to `v`. A term that holds an equal value keeps the value it has, so binding twice
to equal values is no error. -/
def bind [BEq V] (t : Term V) (v : V) : Except AlreadyBound (Term V) :=
  match t.value with
  | none => .ok (bound v)
  | some held => if held == v then .ok t else .error .differs

variable [BEq V]

/-- An unbound term takes any value. -/
theorem bind_unbound (v : V) : unbound.bind v = .ok (bound v) := rfl

/-- A bound term never changes: binding it leaves it as it was or is refused. -/
theorem bind_bound (w v : V) :
    (bound w).bind v = if w == v then .ok (bound w) else .error .differs := rfl

end Term

end Hornbase
