import Hornbase.Database.Query

/-!
# Commands

A command is one request that may change a database, given as data, so that a whole session is a
list of commands. `Database.exec` carries a command out, and `Database.execAll` a session. A refused
command leaves the database as it was and reports nothing. `Database.Reachable` holds of the
databases that commands lead to.
-/

namespace Hornbase

universe u v

/-- A request to a database. -/
inductive Command (N : Type u) (V : Type v) where
  | addFact (name : N) (values : List V)
  | addRule (name : N) (params : List (Arg V))
  | addRuleVar (rule : ClauseId)
  | addGoal (rule : ClauseId) (name : N) (args : List (Arg V))
  | addVar
  | addConstant (value : V)
  | bind (term : TermId) (value : V)
  | unbind (term : TermId)
  | query (name : N) (arity : Nat) (args : List TermId)
  | tryQuery (name : N) (arity : Nat) (args : List TermId)
  | queryAll (name : N) (arity : Nat) (args : List TermId)
  | unify (fact : ClauseId) (args : List TermId)
  | resolve (rule : ClauseId) (args : List TermId)

/-- The result of a command. -/
inductive Reply (V : Type v) where
  /-- The command is carried out, and there is nothing more to say. -/
  | done
  | clause (id : ClauseId)
  | term (id : TermId)
  | verdict (holds : Bool)
  | answers (found : List (Answer V))
  | failed (failure : Failure)
  | refused (error : Error)

/-- The reply to a query that says why it failed. -/
def Reply.ofTry {V : Type v} : Except Failure Unit → Reply V
  | .ok () => .done
  | .error failure => .failed failure

namespace Database

variable {N : Type u} {V : Type v}

/-- The outcome of a request that may be refused. -/
def orRefused (db : Database N V) :
    Except Error (Outcome N V (Reply V)) → Outcome N V (Reply V)
  | .ok o => o
  | .error e => ⟨.refused e, db, #[]⟩

variable [DecidableEq N] [BEq V]

/-- Carries a command out. A search lasts `rounds` rounds at most, and there is no outcome if it
needs more. -/
def exec (rounds : Nat) (db : Database N V) : Command N V → Option (Outcome N V (Reply V))
  | .addFact name vs => some ((db.addFact name vs).map .clause)
  | .addRule name params => some (db.orRefused ((db.addRule name params).map (·.map .clause)))
  | .addRuleVar c => some (db.orRefused ((db.addRuleVar c).map (·.map .term)))
  | .addGoal c name args =>
    some (db.orRefused ((db.addGoal c name args).map (·.map fun () => .done)))
  | .addVar => match db.addVar with | (t, db) => some ⟨.term t, db, #[]⟩
  | .addConstant v => match db.addConstant v with | (t, db) => some ⟨.term t, db, #[]⟩
  | .bind t v => some (db.orRefused ((db.bind t v).map fun db => ⟨.done, db, #[]⟩))
  | .unbind t => some (db.orRefused ((db.unbind t).map fun db => ⟨.done, db, #[]⟩))
  | .query name arity args => (db.query rounds name arity args).map (·.map .verdict)
  | .tryQuery name arity args => (db.tryQuery rounds name arity args).map (·.map Reply.ofTry)
  | .queryAll name arity args => (db.queryAll rounds name arity args).map (·.map .answers)
  | .unify c args => some ((db.unify c args).map .verdict)
  | .resolve c args => (db.resolve rounds c args).map (·.map .verdict)

/-- Carries commands out one after the other. There is no database if one of them does not end. -/
def execAll (rounds : Nat) : List (Command N V) → Database N V → Option (Database N V)
  | [], db => some db
  | command :: rest, db => (db.exec rounds command).bind fun o => execAll rounds rest o.db

/-- The databases that commands lead to from an empty one. -/
inductive Reachable : Database N V → Prop where
  | empty (config : Config) : Reachable (.empty config)
  | exec {db : Database N V} {rounds : Nat} {command : Command N V} {o : Outcome N V (Reply V)} :
      Reachable db → db.exec rounds command = some o → Reachable o.db

/-- A session leads from a reachable database to a reachable one. -/
theorem Reachable.execAll {rounds : Nat} {commands : List (Command N V)} {db db' : Database N V}
    (h : db.Reachable) (hdb : db.execAll rounds commands = some db') : db'.Reachable := by
  induction commands generalizing db with
  | nil =>
    obtain rfl := Option.some.inj hdb
    exact h
  | cons command rest ih =>
    obtain ⟨o, ho, hrest⟩ := Option.bind_eq_some_iff.1 hdb
    exact ih (h.exec ho) hrest

/-- What a session leads to from an empty database can be looked up by carrying it out. -/
theorem exists_reachable (config : Config) (rounds : Nat) (commands : List (Command N V))
    (P : Database N V → Prop) [DecidablePred P]
    (h : ((empty config).execAll rounds commands).any (fun db => P db) = true) :
    ∃ db : Database N V, db.Reachable ∧ P db := by
  obtain ⟨db, hdb, hP⟩ := (Option.any_eq_true _ _).1 h
  exact ⟨db, (Reachable.empty config).execAll hdb, of_decide_eq_true hP⟩

end Database

end Hornbase
