import Hornbase.Answer
import Hornbase.Event
import Hornbase.Program

/-!
# Search

A search explores the ways to prove a call depth-first, with two stacks. On one stand the open
calls, each with the clauses that are still to be tried for it. On the other stands the work that
waits behind them. It is linked by position, a rule's work to that of its caller, so all clauses of
a call share what comes after the call.

The latest open call goes first. It puts the state back to what it was when the call was opened, by
undoing bindings and cutting off what was added since, and enters its next clause. Calls that run
out of clauses are closed without any repair; the next call that goes on makes up for it.

Entering a rule lays out a frame of fresh terms at the end of the pool and unifies the head with the
arguments. Two unbound sides are not linked; when the body is done, what it found is copied back
onto the arguments.

`step` is one round of the search. It always ends. A whole search need not, so the runs count their
rounds and give `none` when the rounds are used up: that is no answer, and no failure either.
-/

namespace Hornbase

universe u v

/-- An open call, and the state to put back before its next clause is tried. -/
structure OpenCall where
  /-- The clauses not yet tried. -/
  untried : List ClauseId
  args : List TermId
  /-- How many rules are in use around the call. -/
  depth : Nat
  /-- The work that follows the call; none after the query itself. -/
  next : Option Nat
  /-- The end of the trail when the call was opened. -/
  mark : Nat
  /-- The size of the pool then. -/
  terms : Nat
  /-- How much work was waiting then. -/
  work : Nat

/-- Something left to do once a call succeeds, and the link to what follows it. -/
inductive Work (N : Type u) where
  /-- Goals of a rule's body that are still to be called. -/
  | goals (rest : List (Goal N)) (frame : Frame) (depth : Nat) (next : Option Nat)
  /-- The values to copy from a rule's own terms onto its caller's. -/
  | results (pairs : List (TermId × TermId)) (next : Option Nat)

/-- The state of a search. -/
structure Search (N : Type u) (V : Type v) where
  pool : Pool V
  /-- The work that waits, the latest last. -/
  work : Array (Work N) := #[]
  /-- The open calls, the latest first. -/
  calls : List OpenCall := []
  log : Array (Event N) := #[]

/-- Where a search stands after a clause was entered. -/
inductive Standing where
  /-- Nothing is left to prove. -/
  | answered
  /-- A goal was called and waits for its first clause. -/
  | called
deriving DecidableEq

/-- The outcome of one round. -/
inductive Step (N : Type u) (V : Type v) where
  /-- No open call is left. -/
  | exhausted (s : Search N V)
  /-- The query holds, and the pool has an answer. -/
  | answered (s : Search N V)
  /-- The search goes on. -/
  | running (s : Search N V)

namespace Search

variable {N : Type u} {V : Type v}

/-- Reports an event. -/
def report (e : Event N) (s : Search N V) : Search N V :=
  match s with
  | ⟨pool, work, calls, log⟩ => ⟨pool, work, calls, log.push e⟩

/-- Opens a call. -/
def openCall (untried : List ClauseId) (args : List TermId) (depth : Nat) (next : Option Nat)
    (s : Search N V) : Search N V :=
  match s with
  | ⟨pool, work, calls, log⟩ =>
    let call : OpenCall := ⟨untried, args, depth, next, pool.mark, pool.size, work.size⟩
    ⟨pool, work, call :: calls, log⟩

/-- Puts bindings, terms and waiting work back to what they were when the call `c` was opened. The
open calls stay; it is meant for the latest of them. -/
def rewind (c : OpenCall) (s : Search N V) : Search N V :=
  match s with
  | ⟨pool, work, calls, log⟩ =>
    ⟨(pool.undo c.mark).truncate c.terms, work.shrink c.work, calls, log⟩

variable [DecidableEq N] [BEq V]

/-! ## Entering a clause

Each function returns a link to the work to go on with, or why the clause fails, and the state it
leaves. A failure repairs nothing; the next `rewind` does. -/

/-- Unifies a fact with the arguments of the call. -/
def enterFact (f : Fact N) (c : OpenCall) (s : Search N V) :
    Except Failure (Option Nat) × Search N V :=
  match s with
  | ⟨pool, work, calls, log⟩ =>
    let m := pool.unify (f.parts.zip c.args)
    let log := log.appendList (Event.ofFactMatch f.parts c.args m)
    match m.failure with
    | none => (.ok c.next, ⟨m.pool, work, calls, log⟩)
    | some failure => (.error failure, ⟨m.pool, work, calls, log⟩)

/-- Lays out a frame for a rule, unifies its head with the arguments of the call, and leaves its
body to be called. -/
def unfoldRule (id : ClauseId) (r : Rule N) (c : OpenCall) (s : Search N V) :
    Except Failure (Option Nat) × Search N V :=
  match s with
  | ⟨pool, work, calls, log⟩ =>
    match pool.addFrame r.locals.length with
    | (frame, pool) =>
      let m := pool.unify ((r.params.map frame.term).zip c.args)
      let log := log.appendList (Event.ofPutOff m)
      match m.failure with
      | some failure => (.error failure, ⟨m.pool, work, calls, log⟩)
      | none =>
        let log := log.push (.ruleEntered id c.args)
        match m.putOff with
        | [] =>
          (.ok (some work.size),
            ⟨m.pool, work.push (.goals r.body frame (c.depth + 1) c.next), calls, log⟩)
        | pairs =>
          (.ok (some (work.size + 1)),
            ⟨m.pool, (work.push (.results pairs c.next)).push
              (.goals r.body frame (c.depth + 1) (some work.size)), calls, log⟩)

/-- Enters a rule, unless that nests more rules than `limit` allows. -/
def enterRule (limit : Option Nat) (id : ClauseId) (r : Rule N) (c : OpenCall) (s : Search N V) :
    Except Failure (Option Nat) × Search N V :=
  match limit with
  | none => unfoldRule id r c s
  | some limit =>
    if limit ≤ c.depth then (.error (.depthExceeded limit), s.report (.depthReached id limit))
    else unfoldRule id r c s

/-- Enters the clause `id` for the call `c`. -/
def enterClause (prog : Program N) (limit : Option Nat) (id : ClauseId) (c : OpenCall)
    (s : Search N V) : Except Failure (Option Nat) × Search N V :=
  match prog.clause? id with
  | none => (.error .noMatchingClause, s)
  | some clause =>
    if clause.arity ≠ c.args.length then
      (.error (.arityMismatch clause.arity c.args.length), s)
    else
      match clause with
      | .fact f => enterFact f c s
      | .rule r => enterRule limit id r c s

/-! ## Going on after a clause -/

/-- Calls `goal`, to be followed by the goals `rest` and then by the work at `next`. -/
def callGoal (prog : Program N) (goal : Goal N) (rest : List (Goal N)) (frame : Frame) (depth : Nat)
    (next : Option Nat) (s : Search N V) : Except Failure Standing × Search N V :=
  match prog.candidates goal.name with
  | [] => (.error .noMatchingClause, s.report (.noClauses goal.name))
  | candidates =>
    let args := goal.args.map frame.term
    match s with
    | ⟨pool, work, calls, log⟩ =>
      let log := log.push (.goalCalled goal.name args)
      match rest with
      | [] => (.ok .called, openCall candidates args depth next ⟨pool, work, calls, log⟩)
      | rest =>
        (.ok .called, openCall candidates args depth (some work.size)
          ⟨pool, work.push (.goals rest frame depth next), calls, log⟩)

/-- Follows the links from `next` on until a goal is called or no work is left. Each link leads
further down the stack, so `fuel` links are enough when `next` is below `fuel`. -/
def follow (prog : Program N) : (fuel : Nat) → (next : Option Nat) → Search N V →
    Except Failure Standing × Search N V
  | _, none, s => (.ok .answered, s)
  | 0, some link, s => (.error (.brokenLink link), s)
  | fuel + 1, some link, s =>
    match s with
    | ⟨pool, work, calls, log⟩ =>
      match work[link]? with
      | none => (.error (.brokenLink link), ⟨pool, work, calls, log⟩)
      | some (.results pairs next) =>
        match pool.copyBack pairs with
        | (none, pool) => follow prog fuel next ⟨pool, work, calls, log⟩
        | (some failure, pool) => (.error failure, ⟨pool, work, calls, log⟩)
      | some (.goals [] _ _ next) => follow prog fuel next ⟨pool, work, calls, log⟩
      | some (.goals (goal :: rest) frame depth next) =>
        callGoal prog goal rest frame depth next ⟨pool, work, calls, log⟩

/-- Goes on with the work at `next`. -/
def resume (prog : Program N) (next : Option Nat) (s : Search N V) :
    Except Failure Standing × Search N V :=
  follow prog s.work.size next s

/-- Enters the clause `id` for the call `c` and goes on with what follows. -/
def tryClause (prog : Program N) (limit : Option Nat) (id : ClauseId) (c : OpenCall)
    (s : Search N V) : Except Failure Standing × Search N V :=
  match s.enterClause prog limit id c with
  | (.ok next, s) => s.resume prog next
  | (.error failure, s) => (.error failure, s)

/-! ## Rounds and runs -/

/-- One round: the latest open call tries its next clause, or is closed if it has none left. -/
def step (prog : Program N) (limit : Option Nat) (s : Search N V) : Step N V :=
  match s with
  | ⟨pool, work, [], log⟩ => .exhausted ⟨pool, work, [], log⟩
  | ⟨pool, work, c :: below, log⟩ =>
    match c.untried with
    | [] => .running ⟨pool, work, below, log⟩
    | id :: rest =>
      let s := rewind c ⟨pool, work, { c with untried := rest } :: below, log⟩
      match s.tryClause prog limit id c with
      | (.ok .answered, s) => .answered s
      | (.ok .called, s) => .running s
      | (.error failure, s) => .running (s.report (.clauseFailed id c.args failure))

/-- Searches for the next answer within a number of rounds: whether there is one, and the state in
which it was found or the search ended. -/
def next? (prog : Program N) (limit : Option Nat) :
    (rounds : Nat) → Search N V → Option (Bool × Search N V)
  | 0, _ => none
  | rounds + 1, s =>
    match s.step prog limit with
    | .exhausted s => some (false, s)
    | .answered s => some (true, s)
    | .running s => next? prog limit rounds s

/-- Searches for all answers within a number of rounds: the values of `args` in each, in the order
of finding, and the state in which the search ended. -/
def all? (prog : Program N) (limit : Option Nat) (args : List TermId) :
    (rounds : Nat) → Search N V → Option (List (Answer V) × Search N V)
  | 0, _ => none
  | rounds + 1, s =>
    match s.step prog limit with
    | .exhausted s => some ([], s)
    | .running s => all? prog limit args rounds s
    | .answered s =>
      let answer := s.pool.answer args
      (all? prog limit args rounds (s.report .retrying)).map fun (answers, s) =>
        (answer :: answers, s)

/-- The search for proofs of a call, before its first round. -/
def start (pool : Pool V) (untried : List ClauseId) (args : List TermId) : Search N V :=
  openCall untried args 0 none { pool }

end Search

end Hornbase
