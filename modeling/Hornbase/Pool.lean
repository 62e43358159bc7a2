import Hornbase.Failure

/-!
# The pool of terms

All terms of a database live in one growing array of cells. A cell is a term and the flag that says
whether it is part of a stored clause. Terms and flags could as well stand in two arrays side by
side: whatever adds terms adds a flag for each, and whatever cuts terms off cuts off their flags, so
the two would always be equally long. With one cell for both there is nothing to keep in step.

Beside the cells stands the trail: every binding that a search makes is recorded there, and undoing
a search is clearing the terms recorded since a mark, never restoring a copy.

The operations that change the pool take it apart first, so that its arrays are updated in place.
-/

namespace Hornbase

universe v

/-- A term of the pool, and whether it is part of a stored clause. -/
structure Cell (V : Type v) where
  term : Term V
  owned : Bool

/-- The terms of a database, and the trail of the bindings that may still be undone. -/
structure Pool (V : Type v) where
  cells : Array (Cell V) := #[]
  trail : Array TermId := #[]

namespace Cell

variable {V : Type v}

/-- The cell with its term bound to `v`. -/
def fill (c : Cell V) (v : V) : Cell V := { c with term := .bound v }

/-- The cell with its term unbound. -/
def clear (c : Cell V) : Cell V := { c with term := .unbound }

@[simp] theorem clear_fill (c : Cell V) (v : V) : (c.fill v).clear = c.clear := rfl

end Cell

namespace Pool

variable {V : Type v}

/-! ## Reading -/

/-- How many terms the pool holds. -/
def size (p : Pool V) : Nat := p.cells.size

/-- Whether `t` is a term of the pool. -/
def contains (p : Pool V) (t : TermId) : Bool := t.index < p.size

/-- The term that `t` names. -/
def term? (p : Pool V) (t : TermId) : Option (Term V) := p.cells[t.index]?.map (·.term)

/-- The value that `t` holds; `none` for an unbound or unknown term. -/
def value? (p : Pool V) (t : TermId) : Option V := (p.term? t).bind (·.value)

/-- Whether `t` is part of a stored clause. -/
def isOwned (p : Pool V) (t : TermId) : Bool := p.cells[t.index]?.any (·.owned)

/-- The values of all terms, in the order of their handles. -/
def values (p : Pool V) : List (Option V) := p.cells.toList.map (·.term.value)

/-- The terms of the pool are those that can be looked up. -/
theorem contains_eq_isSome (p : Pool V) (t : TermId) : p.contains t = (p.term? t).isSome := by
  by_cases h : t.index < p.cells.size <;> simp [contains, term?, size, h]

/-! ## Growing and shrinking -/

/-- The pool with one more cell, and the handle of its term. -/
def push (p : Pool V) (c : Cell V) : TermId × Pool V :=
  match p with
  | ⟨cells, trail⟩ => (⟨cells.size⟩, ⟨cells.push c, trail⟩)

/-- Adds a term that the host may bind and unbind. -/
def addFree (p : Pool V) (t : Term V) : TermId × Pool V := p.push ⟨t, false⟩

/-- Adds a term that is part of a stored clause. -/
def addOwned (p : Pool V) (t : Term V) : TermId × Pool V := p.push ⟨t, true⟩

/-- Adds one bound term of a stored clause for each of `vs`, in order. -/
def addTuple (p : Pool V) (vs : List V) : List TermId × Pool V :=
  match p with
  | ⟨cells, trail⟩ =>
    ((List.range' cells.size vs.length).map TermId.mk,
      ⟨cells ++ (vs.map fun v => Cell.mk (.bound v) true).toArray, trail⟩)

/-- Adds `n` unbound terms. -/
def addFrame (p : Pool V) (n : Nat) : Frame × Pool V :=
  match p with
  | ⟨cells, trail⟩ =>
    (⟨cells.size, n⟩, ⟨cells ++ Array.replicate n (Cell.mk .unbound false), trail⟩)

/-- Drops every term from position `n` on. -/
def truncate (p : Pool V) (n : Nat) : Pool V :=
  match p with
  | ⟨cells, trail⟩ => ⟨cells.shrink n, trail⟩

/-! ## Binding and undoing -/

/-- Gives `t` the value `v` and records it on the trail. Meant for a term that is unbound. -/
def assign (p : Pool V) (t : TermId) (v : V) : Pool V :=
  match p with
  | ⟨cells, trail⟩ => ⟨cells.modify t.index (·.fill v), trail.push t⟩

/-- Takes the value of `t` away, whatever the trail says. -/
def clear (p : Pool V) (t : TermId) : Pool V :=
  match p with
  | ⟨cells, trail⟩ => ⟨cells.modify t.index Cell.clear, trail⟩

/-- The present end of the trail. -/
def mark (p : Pool V) : Nat := p.trail.size

/-- Clears the terms recorded since `mark`, the newest first, and forgets their records. -/
def undo (p : Pool V) (mark : Nat) : Pool V :=
  match p with
  | ⟨cells, trail⟩ =>
    let newer := trail.extract mark
    ⟨newer.foldr (fun t cells => cells.modify t.index Cell.clear) cells, trail.shrink mark⟩

/-- Keeps the bindings made since `mark` and forgets their records. -/
def commit (p : Pool V) (mark : Nat) : Pool V :=
  match p with
  | ⟨cells, trail⟩ => ⟨cells, trail.shrink mark⟩

/-- Binds `t` to `v`, and records it if it was unbound. -/
def bind [BEq V] (p : Pool V) (t : TermId) (v : V) : Except Failure (Pool V) :=
  match p.term? t with
  | none => .error (.unknownTerm t)
  | some held =>
    match held.bind v with
    | .error .differs => .error (.clash t)
    | .ok _ => .ok (if held.isBound then p else p.assign t v)

/-! ## The size after each operation -/

@[simp] theorem size_addFree (p : Pool V) (t : Term V) : (p.addFree t).2.size = p.size + 1 := by
  simp [addFree, push, size]

@[simp] theorem size_addOwned (p : Pool V) (t : Term V) : (p.addOwned t).2.size = p.size + 1 := by
  simp [addOwned, push, size]

@[simp] theorem size_addTuple (p : Pool V) (vs : List V) :
    (p.addTuple vs).2.size = p.size + vs.length := by
  simp [addTuple, size]

@[simp] theorem size_addFrame (p : Pool V) (n : Nat) : (p.addFrame n).2.size = p.size + n := by
  simp [addFrame, size]

@[simp] theorem size_truncate (p : Pool V) (n : Nat) : (p.truncate n).size = min n p.size := by
  simp [truncate, size]

@[simp] theorem size_assign (p : Pool V) (t : TermId) (v : V) : (p.assign t v).size = p.size := by
  simp [assign, size]

@[simp] theorem size_clear (p : Pool V) (t : TermId) : (p.clear t).size = p.size := by
  simp [clear, size]

@[simp] theorem size_commit (p : Pool V) (mark : Nat) : (p.commit mark).size = p.size := rfl

/-- Clearing recorded terms one by one drops no cell. -/
theorem size_foldr_clear (ts : List TermId) (cells : Array (Cell V)) :
    (ts.foldr (fun t cells => cells.modify t.index Cell.clear) cells).size = cells.size := by
  induction ts with
  | nil => rfl
  | cons t ts ih => simp [ih]

@[simp] theorem size_undo (p : Pool V) (mark : Nat) : (p.undo mark).size = p.size := by
  simp only [undo, size, ← Array.foldr_toList, size_foldr_clear]

/-! ## The terms after each operation -/

/-- A new cell adds its term behind the others. -/
theorem term?_push (p : Pool V) (c : Cell V) (t : TermId) :
    (p.push c).2.term? t = if t.index = p.size then some c.term else p.term? t := by
  by_cases h : t.index = p.size <;> simp_all [push, term?, size, Array.getElem?_push]

/-- Truncating keeps the terms before the cut and no others. -/
theorem term?_truncate (p : Pool V) (n : Nat) (t : TermId) :
    (p.truncate n).term? t = if t.index < n then p.term? t else none := by
  simp only [truncate, term?, ← Array.getElem?_toList, Array.toList_shrink, List.getElem?_take]
  split <;> rfl

/-- Assigning changes the one term, if it exists. -/
theorem term?_assign (p : Pool V) (s t : TermId) (v : V) :
    (p.assign s v).term? t = if s = t then (p.term? t).map fun _ => .bound v else p.term? t := by
  obtain ⟨s⟩ := s
  obtain ⟨t⟩ := t
  simp only [assign, term?, Array.getElem?_modify, TermId.mk.injEq]
  split <;> simp [Cell.fill, Function.comp_def]

/-- Clearing changes the one term, if it exists. -/
theorem term?_clear (p : Pool V) (s t : TermId) :
    (p.clear s).term? t = if s = t then (p.term? t).map fun _ => .unbound else p.term? t := by
  obtain ⟨s⟩ := s
  obtain ⟨t⟩ := t
  simp only [clear, term?, Array.getElem?_modify, TermId.mk.injEq]
  split <;> simp [Cell.clear, Function.comp_def]

/-- An unknown term cannot be bound. -/
theorem bind_of_unknown [BEq V] {p : Pool V} {t : TermId} (h : p.term? t = none) (v : V) :
    p.bind t v = .error (.unknownTerm t) := by
  rw [bind, h]

/-- An unbound term is assigned the value. -/
theorem bind_of_unbound [BEq V] {p : Pool V} {t : TermId} (h : p.term? t = some .unbound) (v : V) :
    p.bind t v = .ok (p.assign t v) := by
  simp only [bind, h, Term.bind_unbound]
  rfl

/-- A bound term keeps the value that it holds, or cannot be bound. -/
theorem bind_of_bound [BEq V] {p : Pool V} {t : TermId} {w : V} (h : p.term? t = some (.bound w))
    (v : V) : p.bind t v = if w == v then .ok p else .error (.clash t) := by
  simp only [bind, h, Term.bind_bound]
  cases w == v <;> rfl

/-- What binding a term has done: the term was unbound and is assigned the value, or it holds an
equal one and nothing has changed. -/
theorem bind_cases [BEq V] {p q : Pool V} {t : TermId} {v : V} (h : p.bind t v = .ok q) :
    p.term? t = some .unbound ∧ q = p.assign t v ∨
      ∃ w, p.term? t = some (.bound w) ∧ (w == v) = true ∧ q = p := by
  cases hterm : p.term? t with
  | none =>
    rw [bind_of_unknown hterm] at h
    cases h
  | some held =>
    obtain ⟨_ | w⟩ := held
    · rw [bind_of_unbound hterm] at h
      exact .inl ⟨rfl, (Except.ok.inj h).symm⟩
    · rw [bind_of_bound hterm] at h
      split at h
      · next heq => exact .inr ⟨w, rfl, heq, (Except.ok.inj h).symm⟩
      · cases h

/-- Nothing has been recorded since the present mark, so there is nothing to undo. -/
theorem undo_mark (p : Pool V) : p.undo p.mark = p := by
  simp [undo, mark, Array.shrink_eq_take]

/-- Nothing has been recorded since the present mark, so there are no records to forget. -/
@[simp] theorem commit_mark (p : Pool V) : p.commit p.mark = p := by
  simp [commit, mark, Array.shrink_eq_take]

/-- Undoing an assignment clears its term and restores the trail. -/
theorem undo_assign (p : Pool V) (t : TermId) (v : V) :
    (p.assign t v).undo p.mark = p.clear t := by
  obtain ⟨cells, trail⟩ := p
  have newer : (trail.push t).extract trail.size = #[t] := by
    apply Array.ext'
    simp [List.extract_eq_take_drop]
  have older : (trail.push t).shrink trail.size = trail := by
    apply Array.ext'
    simp
  have again : (cells.modify t.index (·.fill v)).modify t.index Cell.clear
      = cells.modify t.index Cell.clear := by
    apply Array.ext_getElem?
    intro i
    by_cases h : t.index = i <;> simp [Array.getElem?_modify, h, Function.comp_def]
  simp only [undo, assign, clear, mark, newer, older, ← Array.foldr_toList, List.foldr_cons,
    List.foldr_nil, again]

end Pool

end Hornbase
