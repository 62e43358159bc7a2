import Hornbase.Clause

/-!
# Programs

A program is a sequence of clauses, each known by its position, with an index from relation names to
the clauses stored under them. Clauses are only ever added at the end, so a name's clauses stand in
the index in the order of declaration. That order is the order in which a search tries them.
-/

namespace Hornbase

universe u

/-- Clauses in the order of declaration, and the clauses of each name. -/
structure Program (N : Type u) where
  clauses : Array (Clause N) := #[]
  index : List (N × List ClauseId) := []

namespace Program

variable {N : Type u}

/-- How many clauses are stored. -/
def size (p : Program N) : Nat := p.clauses.size

/-- The clause that `c` names. -/
def clause? (p : Program N) (c : ClauseId) : Option (Clause N) := p.clauses[c.index]?

/-- The fact that `c` names, if it names one. -/
def fact? (p : Program N) (c : ClauseId) : Option (Fact N) :=
  match p.clause? c with
  | some (.fact f) => some f
  | _ => none

/-- The rule that `c` names, if it names one. -/
def rule? (p : Program N) (c : ClauseId) : Option (Rule N) :=
  match p.clause? c with
  | some (.rule r) => some r
  | _ => none

/-- The handle that the next clause will get. -/
def nextId (p : Program N) : ClauseId := ⟨p.size⟩

/-- Puts a rule in the place of the clause that `c` names. -/
def setRule (p : Program N) (c : ClauseId) (r : Rule N) : Program N :=
  match p with
  | ⟨clauses, index⟩ => ⟨clauses.setIfInBounds c.index (.rule r), index⟩

variable [DecidableEq N]

/-- The clauses that an index files under `name`. -/
def filed (name : N) : List (N × List ClauseId) → List ClauseId
  | [] => []
  | (n, cs) :: rest => if n = name then cs else filed name rest

/-- The index with `c` filed behind the other clauses of its name. -/
def enlist (name : N) (c : ClauseId) : List (N × List ClauseId) → List (N × List ClauseId)
  | [] => [(name, [c])]
  | (n, cs) :: rest => if n = name then (n, cs ++ [c]) :: rest else (n, cs) :: enlist name c rest

/-- The clauses stored under `name`, the oldest first. -/
def candidates (p : Program N) (name : N) : List ClauseId := filed name p.index

/-- Adds a clause at the end, under its name. -/
def add (p : Program N) (c : Clause N) : ClauseId × Program N :=
  match p with
  | ⟨clauses, index⟩ =>
    (⟨clauses.size⟩, ⟨clauses.push c, enlist c.name ⟨clauses.size⟩ index⟩)

/-- The oldest clause under `name` with `arity` positions. -/
def first? (p : Program N) (name : N) (arity : Nat) : Option ClauseId :=
  (p.candidates name).find? fun c => (p.clause? c).any (·.arity == arity)

/-! ## What adding a clause does -/

/-- A name's list grows by the clause that is filed under it, and no other list changes. -/
theorem filed_enlist (name n : N) (c : ClauseId) (index : List (N × List ClauseId)) :
    filed n (enlist name c index) =
      if n = name then filed n index ++ [c] else filed n index := by
  induction index with
  | nil => by_cases h : n = name <;> grind [enlist, filed]
  | cons entry rest ih =>
    obtain ⟨m, cs⟩ := entry
    by_cases hm : m = name <;> by_cases hn : m = n <;> grind [enlist, filed]

/-- The new clause is the last candidate of its name. -/
theorem candidates_add (p : Program N) (c : Clause N) (n : N) :
    (p.add c).2.candidates n =
      if n = c.name then p.candidates n ++ [p.nextId] else p.candidates n :=
  filed_enlist c.name n p.nextId p.index

/-- The new clause stands behind all others. -/
theorem clause?_add (p : Program N) (c : Clause N) (i : ClauseId) :
    (p.add c).2.clause? i = if i = p.nextId then some c else p.clause? i := by
  obtain ⟨i⟩ := i
  simp only [add, clause?, nextId, size, Array.getElem?_push, ClauseId.mk.injEq]

end Program

end Hornbase
