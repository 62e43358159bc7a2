import Hornbase.Clause
import Hornbase.Pool

/-!
# Declaring rules

A rule's head, and every goal of its body, is declared as a list of arguments. The list is first
checked from left to right and only then carried out from left to right, so a declaration that is
refused has added nothing.
-/

namespace Hornbase

universe u v

/-- An argument in the declaration of a head or of a goal. -/
inductive Arg (V : Type v) where
  /-- A new variable. -/
  | fresh
  /-- A constant. -/
  | value (v : V)
  /-- The rule's variable with this template. -/
  | term (t : TermId)
  /-- Whatever the head holds at this position; within a head, at an earlier position. -/
  | param (position : Nat)

namespace Rule

variable {N : Type u} {V : Type v}

/-- Checks the head of the new rule `id`, of which `position` arguments are already checked: it has
no variables to refer to yet, and may repeat earlier positions only. -/
def checkHead (id : ClauseId) (position : Nat) : List (Arg V) → Except Error Unit
  | [] => .ok ()
  | .term t :: _ => .error (.foreignTerm t id)
  | .param i :: rest =>
    if position ≤ i then .error (.unknownParam i id) else checkHead id (position + 1) rest
  | .fresh :: rest => checkHead id (position + 1) rest
  | .value _ :: rest => checkHead id (position + 1) rest

/-- Adds head positions to a rule, and their terms to the pool. -/
def declareHead : List (Arg V) → Rule N → Pool V → Rule N × Pool V
  | [], r, p => (r, p)
  | .value v :: rest, r, p =>
    match p.addOwned (.bound v) with
    | (t, p) => declareHead rest (r.addParamConst t) p
  | .param i :: rest, r, p => declareHead rest (r.addParamRepeat i) p
  | .fresh :: rest, r, p | .term _ :: rest, r, p =>
    match p.addOwned .unbound with
    | (t, p) => declareHead rest (r.addParamVar t) p

/-- Checks the arguments of a goal of the rule `id`: they may refer to its variables and to its head
only. -/
def checkGoal (id : ClauseId) (r : Rule N) : List (Arg V) → Except Error Unit
  | [] => .ok ()
  | .term t :: rest =>
    if r.varOf? t = none then .error (.foreignTerm t id) else checkGoal id r rest
  | .param i :: rest =>
    if r.arity ≤ i then .error (.unknownParam i id) else checkGoal id r rest
  | .fresh :: rest => checkGoal id r rest
  | .value _ :: rest => checkGoal id r rest

/-- Turns the arguments of a goal into operands, and adds the variables and terms that they need. -/
def declareGoal (id : ClauseId) : List (Arg V) → Rule N → Pool V →
    Except Error (List Operand × Rule N × Pool V)
  | [], r, p => .ok ([], r, p)
  | .fresh :: rest, r, p =>
    match p.addOwned .unbound with
    | (t, p) =>
      match r.addVar t with
      | (o, r) => (declareGoal id rest r p).map fun (os, r, p) => (o :: os, r, p)
  | .value v :: rest, r, p =>
    match p.addOwned (.bound v) with
    | (t, p) => (declareGoal id rest r p).map fun (os, r, p) => (.const t :: os, r, p)
  | .term t :: rest, r, p =>
    match r.varOf? t with
    | none => .error (.foreignTerm t id)
    | some n => (declareGoal id rest r p).map fun (os, r, p) => (.var n :: os, r, p)
  | .param i :: rest, r, p =>
    match r.params[i]? with
    | none => .error (.unknownParam i id)
    | some o => (declareGoal id rest r p).map fun (os, r, p) => (o :: os, r, p)

end Rule

end Hornbase
