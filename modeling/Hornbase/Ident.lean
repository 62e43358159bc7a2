/-!
# Handles

A term is named by its position in the pool and a clause by its position in the program. Handles are
plain data: any number makes one, so every operation that takes a handle says what it does when
nothing stands at that position.
-/

namespace Hornbase

/-- The handle of a term: its position in the pool. -/
structure TermId where
  index : Nat
deriving DecidableEq

/-- The handle of a clause: its position in the program. -/
structure ClauseId where
  index : Nat
deriving DecidableEq

/-- A block of terms that lie side by side in the pool. -/
structure Frame where
  /-- The position of the first. -/
  base : Nat
  size : Nat

/-- The term at a position of the frame. -/
def Frame.nth (f : Frame) (position : Nat) : TermId := ⟨f.base + position⟩

instance : ToString TermId := ⟨fun t => "_T" ++ toString t.index⟩

instance : ToString ClauseId := ⟨fun c => "#" ++ toString c.index⟩

end Hornbase
