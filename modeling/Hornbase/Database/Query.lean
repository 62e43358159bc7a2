import Hornbase.Database

/-!
# Queries

A query asks whether a relation holds of some terms. If it does, the unbound ones carry the answer
afterwards; if it does not, the database is as it was. Terms that the search allocated are gone
either way.

Each operation that searches takes the number of rounds that the search may last, and gives `none`
when they are used up. An answer does not depend on that number.
-/

namespace Hornbase

universe u v

namespace Database

variable {N : Type u} {V : Type v}

/-- What is wrong with arguments that should be `arity` terms of the pool, if anything is: first
their number, then the first unknown term. -/
def argsFault? (db : Database N V) (arity : Nat) (args : List TermId) : Option Failure :=
  if args.length ≠ arity then some (.arityMismatch arity args.length)
  else (args.find? fun t => !db.pool.contains t).map .unknownTerm

variable [DecidableEq N] [BEq V]

/-- Searches for a proof by any of `clauses`, in order. The bindings of the first proof are
kept; without one nothing is. -/
def prove (rounds : Nat) (db : Database N V) (clauses : List ClauseId)
    (args : List TermId) : Option (Outcome N V Bool) :=
  match db with
  | ⟨program, pool, config⟩ =>
    let terms := pool.size
    let mark := pool.mark
    match Search.next? program config.maxDepth rounds (Search.start pool clauses args) with
    | none => none
    | some (true, s) =>
      some ⟨true, ⟨program, (s.pool.commit mark).truncate terms, config⟩, s.log⟩
    | some (false, s) =>
      some ⟨false, ⟨program, (s.pool.undo mark).truncate terms, config⟩, s.log⟩

/-- Asks whether `name(args)` holds, and says why not. -/
def tryQuery (rounds : Nat) (db : Database N V) (name : N) (arity : Nat) (args : List TermId) :
    Option (Outcome N V (Except Failure Unit)) :=
  match db.argsFault? arity args with
  | some failure => some ⟨.error failure, db, #[]⟩
  | none =>
    (db.prove rounds (db.program.candidates name) args).map fun o =>
      { result := if o.result then .ok () else .error .noMatchingClause
        db := o.db
        log := o.log.push (.querySettled name arity o.result) }

/-- Asks whether `name(args)` holds. -/
def query (rounds : Nat) (db : Database N V) (name : N) (arity : Nat) (args : List TermId) :
    Option (Outcome N V Bool) :=
  (db.tryQuery rounds name arity args).map (·.map Except.toBool)

/-- Every answer to `name(args)`, in the order in which the search finds them. The terms are left as
they were. -/
def queryAll (rounds : Nat) (db : Database N V) (name : N) (arity : Nat) (args : List TermId) :
    Option (Outcome N V (List (Answer V))) :=
  match db.argsFault? arity args with
  | some failure => some ⟨[], db, #[.queryRejected name arity failure]⟩
  | none =>
    match db with
    | ⟨program, pool, config⟩ =>
      let terms := pool.size
      let mark := pool.mark
      let start := Search.start pool (program.candidates name) args
      match Search.all? program config.maxDepth args rounds start with
      | none => none
      | some (answers, s) =>
        some
          { result := answers
            db := ⟨program, (s.pool.undo mark).truncate terms, config⟩
            log := s.log.push (.queryAnswered name arity answers.length) }

omit [DecidableEq N] in
/-- Unifies the fact `c` with `args`; if that fails nothing is bound. -/
def unify (db : Database N V) (c : ClauseId) (args : List TermId) : Outcome N V Bool :=
  match db.program.fact? c with
  | none => ⟨false, db, #[]⟩
  | some f =>
    if f.arity ≠ args.length then ⟨false, db, #[]⟩
    else
      match db with
      | ⟨program, pool, config⟩ =>
        let mark := pool.mark
        let m := pool.unify (f.parts.zip args)
        { result := m.failure.isNone
          db := ⟨program, m.pool.commit mark, config⟩
          log := (Event.ofFactMatch f.parts args m).toArray }

/-- Asks whether the rule `c` proves `args`, without trying the other clauses of its name. -/
def resolve (rounds : Nat) (db : Database N V) (c : ClauseId) (args : List TermId) :
    Option (Outcome N V Bool) :=
  match db.program.rule? c with
  | none => some ⟨false, db, #[]⟩
  | some rule =>
    match db.argsFault? rule.arity args with
    | some _ => some ⟨false, db, #[]⟩
    | none => db.prove rounds [c] args

end Database

end Hornbase
