import Hornbase.Config
import Hornbase.Declaration
import Hornbase.Search

/-!
# Databases

A database is a program, the pool of the terms that its clauses and its host use, and its settings.
Clauses are declared and terms edited by the operations of this module; queries have a module of
their own. A request that makes no sense is refused with an `Error`, and the refusal is all there
is: no changed database comes with it.
-/

namespace Hornbase

universe u v w x

/-- Facts, rules, and the terms that they and their users are made of. -/
structure Database (N : Type u) (V : Type v) where
  program : Program N := {}
  pool : Pool V := {}
  config : Config := {}

/-- What an operation leaves: its result, the database after it, and what it reported, in order. -/
structure Outcome (N : Type u) (V : Type v) (α : Type w) where
  result : α
  db : Database N V
  log : Array (Event N) := #[]

/-- The same outcome with its result turned into another. -/
def Outcome.map {N : Type u} {V : Type v} {α : Type w} {β : Type x} (f : α → β)
    (o : Outcome N V α) : Outcome N V β :=
  ⟨f o.result, o.db, o.log⟩

namespace Database

variable {N : Type u} {V : Type v}

/-- The database without clauses and terms. -/
def empty (config : Config) : Database N V := { config }

/-! ## Reading -/

/-- How many terms the pool holds. -/
def termCount (db : Database N V) : Nat := db.pool.size

/-- How many facts and rules are stored. -/
def clauseCount (db : Database N V) : Nat := db.program.size

/-- The term that `t` names. -/
def term? (db : Database N V) (t : TermId) : Option (Term V) := db.pool.term? t

/-- The value that `t` holds; `none` for an unbound or unknown term. -/
def value? (db : Database N V) (t : TermId) : Option V := db.pool.value? t

/-- Whether `t` holds a value. -/
def isBound (db : Database N V) (t : TermId) : Bool := (db.term? t).any (·.isBound)

/-- The present values of `args`. An unknown term counts as unbound. -/
def answer (db : Database N V) (args : List TermId) : Answer V := db.pool.answer args

/-- The clause that `c` names. -/
def clause? (db : Database N V) (c : ClauseId) : Option (Clause N) := db.program.clause? c

/-- Whether two clauses may stand for each other: two facts whose parts could be unified, or one
rule and itself. -/
def equivalent [BEq V] (db : Database N V) (a b : ClauseId) : Bool :=
  match db.clause? a, db.clause? b with
  | some (.fact f), some (.fact g) => db.pool.compatible f.parts g.parts
  | some (.rule _), some (.rule _) => a == b
  | _, _ => false

/-! ## Terms of the host -/

/-- Adds an unbound term. -/
def addVar (db : Database N V) : TermId × Database N V :=
  match db with
  | ⟨program, pool, config⟩ =>
    match pool.addFree .unbound with
    | (t, pool) => (t, ⟨program, pool, config⟩)

/-- Adds a term bound to `v`. -/
def addConstant (db : Database N V) (v : V) : TermId × Database N V :=
  match db with
  | ⟨program, pool, config⟩ =>
    match pool.addFree (.bound v) with
    | (t, pool) => (t, ⟨program, pool, config⟩)

/-- Binds a term of the host. The binding is never undone by a search. -/
def bind [BEq V] (db : Database N V) (t : TermId) (v : V) : Except Error (Database N V) :=
  if db.pool.isOwned t then .error (.clauseTerm t)
  else
    match db.pool.bind t v with
    | .ok pool => .ok { db with pool := pool.commit db.pool.mark }
    | .error (.unknownTerm t) => .error (.unknownTerm t)
    | .error _ => .error (.alreadyBound .differs)

/-- Takes the value of a term of the host away, so that it can be asked for again. -/
def unbind (db : Database N V) (t : TermId) : Except Error (Database N V) :=
  if db.pool.isOwned t then .error (.clauseTerm t)
  else if db.pool.contains t then .ok { db with pool := db.pool.clear t }
  else .error (.unknownTerm t)

/-! ## Extending rules -/

/-- Adds a variable to the rule `c`, for use in its body. -/
def addRuleVar (db : Database N V) (c : ClauseId) : Except Error (Outcome N V TermId) :=
  match db.program.rule? c with
  | none => .error (.notARule c)
  | some rule =>
    match db.pool.addOwned .unbound with
    | (t, pool) =>
      .ok ⟨t, { db with program := db.program.setRule c (rule.addVar t).2, pool }, #[]⟩

/-- Adds the goal `name(args)` at the end of the body of the rule `c`. -/
def addGoal (db : Database N V) (c : ClauseId) (name : N) (args : List (Arg V)) :
    Except Error (Outcome N V Unit) :=
  match db.program.rule? c with
  | none => .error (.notARule c)
  | some rule =>
    match rule.checkGoal c args with
    | .error e => .error e
    | .ok () =>
      match Rule.declareGoal c args rule db.pool with
      | .error e => .error e
      | .ok (operands, rule, pool) =>
        let goal : Goal N := ⟨name, operands⟩
        .ok ⟨(), { db with program := db.program.setRule c (rule.addGoal goal), pool },
          #[.goalAdded c goal]⟩

variable [DecidableEq N]

/-- The oldest clause under `name` with `arity` positions. -/
def get? (db : Database N V) (name : N) (arity : Nat) : Option ClauseId :=
  db.program.first? name arity

/-! ## Declaring clauses -/

/-- The first fact under `name` that could be unified with the tuple `parts`. -/
def findFact? [BEq V] (program : Program N) (pool : Pool V) (name : N) (parts : List TermId) :
    Option ClauseId :=
  (program.candidates name).find? fun c =>
    (program.fact? c).any fun f => pool.compatible f.parts parts

/-- Stores the fact `name(vs)`. If duplicates are not wanted and an equal fact is stored under
`name`, that one is the result and nothing is stored. -/
def addFact [BEq V] (db : Database N V) (name : N) (vs : List V) : Outcome N V ClauseId :=
  match db with
  | ⟨program, pool, config⟩ =>
    let base := pool.size
    match pool.addTuple vs with
    | (parts, pool) =>
      match if config.dedupFacts then findFact? program pool name parts else none with
      | some c => ⟨c, ⟨program, pool.truncate base, config⟩, #[.factKnown name c]⟩
      | none =>
        match program.add (.fact ⟨name, parts⟩) with
        | (c, program) => ⟨c, ⟨program, pool, config⟩, #[.factAdded name parts.length]⟩

/-- Stores a rule with the head `name(params)` and no goals yet. -/
def addRule (db : Database N V) (name : N) (params : List (Arg V)) :
    Except Error (Outcome N V ClauseId) :=
  match Rule.checkHead db.program.nextId 0 params with
  | .error e => .error e
  | .ok () =>
    match db with
    | ⟨program, pool, config⟩ =>
      match Rule.declareHead params { name } pool with
      | (rule, pool) =>
        match program.add (.rule rule) with
        | (c, program) => .ok ⟨c, ⟨program, pool, config⟩, #[.ruleAdded name rule.arity]⟩

end Database

end Hornbase
