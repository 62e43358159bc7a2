/-!
# Values of a mixed host

A host whose terms hold values of several kinds. Values of different kinds are never equal. Two
kinds show how little is asked of `==`: a folded text equals others that are spelled differently,
and an odd one equals nothing, not even itself.
-/

namespace Hornbase

/-- The values of a mixed host. -/
inductive Value where
  | int (n : Int)
  | text (s : String)
  | bool (b : Bool)
  | list (items : List Value)
  /-- A text whose ASCII letters count without their case. -/
  | fold (s : String)
  /-- A mark that equals nothing. -/
  | odd (s : String)

namespace Value

/-- A text with its ASCII letters in lower case and all other characters as they are. -/
def foldCase (s : String) : String := s.map Char.toLower

mutual

/-- Whether two values count as equal. -/
def equal : Value → Value → Bool
  | int m, int n => m == n
  | text s, text t => s == t
  | bool a, bool b => a == b
  | list xs, list ys => equalItems xs ys
  | fold s, fold t => foldCase s == foldCase t
  | _, _ => false

/-- Whether two lists are equally long and equal item by item. -/
def equalItems : List Value → List Value → Bool
  | [], [] => true
  | x :: xs, y :: ys => equal x y && equalItems xs ys
  | _, _ => false

end

instance : BEq Value := ⟨equal⟩

/-- An odd value does not equal itself. -/
theorem odd_beq_odd (s t : String) : (odd s == odd t) = false := by
  simp [BEq.beq, equal]

end Value

end Hornbase
