import Hornbase.Program

/-!
# A plain interpreter

What a call means, without a machine: the list of all stores in which depth-first resolution leaves
it proved, in the order of finding. Stores are persistent, so there is nothing to undo, no call
stays open, and no term is ever dropped. A bound on the nesting of rules makes the interpreter
total.
-/

namespace Hornbase

universe u v

/-- The values of all terms by position; `none` is an unbound term. -/
abbrev Store (V : Type v) := List (Option V)

namespace Store

variable {V : Type v}

/-- The value of a term; `none` if it is unbound or there is no such term. -/
def value? (s : Store V) (t : TermId) : Option V := s[t.index]?.join

/-- The values of a list of terms. -/
def values (s : Store V) (ts : List TermId) : List (Option V) := ts.map s.value?

variable [BEq V]

/-- Binds a term. A bound term must hold an equal value, and keeps the one it has. -/
def bind (s : Store V) (t : TermId) (v : V) : Option (Store V) :=
  match s[t.index]? with
  | none => none
  | some none => some (s.set t.index (some v))
  | some (some held) => if held == v then some s else none

/-- Unifies pairs of a part and an argument from left to right, and remembers the pairs of two
unbound sides. -/
def unify : List (TermId × TermId) → Store V → Option (Store V × List (TermId × TermId))
  | [], s => some (s, [])
  | (part, arg) :: rest, s =>
    match s.value? part, s.value? arg with
    | some v, _ => (s.bind arg v).bind (unify rest)
    | none, some w => (s.bind part w).bind (unify rest)
    | none, none => (unify rest s).map fun (s, pairs) => (s, (part, arg) :: pairs)

/-- Copies the values of the parts that have one onto their arguments, in order. -/
def copyBack : List (TermId × TermId) → Store V → Option (Store V)
  | [], s => some s
  | (part, arg) :: rest, s =>
    match s.value? part with
    | none => copyBack rest s
    | some v => (s.bind arg v).bind (copyBack rest)

end Store

/-- The meaning of relations: the stores that prove `name(args)` from a given store. -/
abbrev Meaning (N : Type u) (V : Type v) := N → List TermId → Store V → List (Store V)

namespace Meaning

variable {N : Type u} {V : Type v}

/-- Proves goals from left to right, each in every store that proves those before it. -/
def goals (m : Meaning N V) (frame : Frame) : List (Goal N) → Store V → List (Store V)
  | [], s => [s]
  | g :: rest, s => (m g.name (g.args.map frame.term) s).flatMap (goals m frame rest)

variable [BEq V]

/-- The ways to prove a call by a fact. -/
def fact (f : Fact N) (args : List TermId) (s : Store V) : List (Store V) :=
  ((s.unify (f.parts.zip args)).map (·.1)).toList

/-- The ways to prove a call by a rule whose goals mean `m`. -/
def rule (m : Meaning N V) (r : Rule N) (args : List TermId) (s : Store V) : List (Store V) :=
  let frame : Frame := ⟨s.length, r.locals.length⟩
  let grown : Store V := s ++ List.replicate r.locals.length none
  match grown.unify ((r.params.map frame.term).zip args) with
  | none => []
  | some (entered, pairs) => (m.goals frame r.body entered).filterMap (Store.copyBack pairs)

/-- The ways to prove a call by a clause. The goals of a rule mean `inner`; without it no rule may
be entered. -/
def clause (inner : Option (Meaning N V)) (c : Clause N) (args : List TermId) (s : Store V) :
    List (Store V) :=
  if c.arity ≠ args.length then []
  else
    match c, inner with
    | .fact f, _ => fact f args s
    | .rule r, some m => m.rule r args s
    | .rule _, none => []

variable [DecidableEq N]

/-- The ways to prove a call by the clauses of its name, one after the other. -/
def ofProgram (prog : Program N) (inner : Option (Meaning N V)) : Meaning N V :=
  fun name args s =>
    (prog.candidates name).flatMap fun c =>
      ((prog.clause? c).map fun clause => Meaning.clause inner clause args s).getD []

end Meaning

variable {N : Type u} {V : Type v} [DecidableEq N] [BEq V]

/-- What a program's relations mean when at most `depth` rules may be nested. -/
def Program.meaning (prog : Program N) : (depth : Nat) → Meaning N V
  | 0 => .ofProgram prog none
  | depth + 1 => .ofProgram prog (some (prog.meaning depth))

end Hornbase
