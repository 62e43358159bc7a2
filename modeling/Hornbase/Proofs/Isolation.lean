import Hornbase.Proofs.Lockstep

/-!
# Queries see their program and their arguments only

A query depends on the clauses of the names that it can come to, on the values of its arguments and
on which unbound arguments are the same. Other clauses, other terms, the numbers of clauses and
terms and the size of the pool make no difference: not to the answers, and not to whether there
ever is one, or how many rounds it takes.
-/

namespace Hornbase.Database

universe u v

variable {N : Type u} {V : Type v} [DecidableEq N] [BEq V] {db db' : Database N V} {name : N}
  {arity : Nat} {args args' : List TermId}

/-- Whether the clauses of all names that `name` leads to are the same in both databases, in the
same order, up to the numbers of clauses and terms. -/
def SameFrom (db db' : Database N V) (name : N) : Prop :=
  ∀ n, Relation.ReflTransGen db.program.Calls name n →
    List.Forall₂
      (fun id id' => Option.Rel (Clause.Renamed (db.pool.Shares db'.pool)) (db.program.clause? id)
        (db'.program.clause? id'))
      (db.program.candidates n) (db'.program.candidates n)

omit [BEq V] in
/-- Clauses that a name leads to call relations only that it leads to. -/
theorem SameFrom.sameOn (h : db.SameFrom db' name) (hindexed : db.program.Indexed) :
    db.program.SameOn (db.pool.Shares db'.pool) (Relation.ReflTransGen db.program.Calls name)
      db'.program := by
  intro n hn
  refine ((List.forall₂_and_left _ _).2 ⟨fun id hid => hid, h n hn⟩).imp fun id id' hboth => ?_
  refine ⟨hboth.2, fun r hr g hg => hn.tail ⟨id, r, ?_, hindexed.name_eq hboth.1 hr, g, hg, rfl⟩⟩
  simp only [Program.rule?, hr]

/-- Two arguments stand at the same position, or are constants that hold the same value. -/
def Corresponds (db db' : Database N V) (args args' : List TermId) (t t' : TermId) : Prop :=
  db.pool.Shares db'.pool t t' ∨ (t, t') ∈ args.zip args'

omit [DecidableEq N] [BEq V] in
theorem corresponds_args (h : db.pool.Correspond db'.pool args args') :
    List.Forall₂ (db.Corresponds db' args args') args args' :=
  List.forall₂_iff_zip.2 ⟨h.length_eq, fun hmem => .inr hmem⟩

/-- The searches behind corresponding queries go in step. -/
theorem SameFrom.lockstep (hsame : db.SameFrom db' name) (h : db.Reachable)
    (haccepted : db.argsFault? arity args = none) (haccepted' : db'.argsFault? arity args' = none)
    (hcorrespond : db.pool.Correspond db'.pool args args') :
    Search.Lockstep db.program db'.program (db.pool.Shares db'.pool)
      (Relation.ReflTransGen db.program.Calls name) (db.Corresponds db' args args') db.pool db'.pool
      (Search.start db.pool (db.program.candidates name) args)
      (Search.start db'.pool (db'.program.candidates name) args') :=
  Search.lockstep_start
    (hcorrespond.matches_values (of_argsFault?_eq_none haccepted).2
      (of_argsFault?_eq_none haccepted').2)
    (hsame.sameOn h.indexed name .refl) (corresponds_args hcorrespond)

/-- A proof attempt lasts as long as its search, and tells what that found. -/
theorem prove_rel (db : Database N V) (rounds : Nat) (ids : List ClauseId) (args : List TermId) :
    Option.Rel
      (fun o x => x.1 = o.result ∧
        o.db = { db with pool := if o.result then db.pool.kept x.2.pool else db.pool })
      (db.prove rounds ids args)
      (Search.next? db.program db.config.maxDepth rounds (Search.start db.pool ids args)) := by
  cases ho : db.prove rounds ids args with
  | none =>
    have hnone : Search.next? db.program db.config.maxDepth rounds
        (Search.start db.pool ids args) = none := by
      obtain ⟨program, pool, config⟩ := db
      simp only [prove] at ho
      split at ho <;> first | assumption | cases ho
    rw [hnone]
    exact .none
  | some o =>
    obtain ⟨t, ht, -, hdb⟩ := prove_eq_some ho
    rw [ht]
    exact .some ⟨rfl, hdb⟩

/-- A request for all answers lasts as long as its search, and lists what that found. -/
theorem queryAll_rel (haccepted : db.argsFault? arity args = none) (rounds : Nat) (name : N) :
    Option.Rel (fun o x => x.1 = o.result) (db.queryAll rounds name arity args)
      (Search.all? db.program db.config.maxDepth args rounds
        (Search.start db.pool (db.program.candidates name) args)) := by
  cases ho : db.queryAll rounds name arity args with
  | none =>
    have hnone : Search.all? db.program db.config.maxDepth args rounds
        (Search.start db.pool (db.program.candidates name) args) = none := by
      simp only [queryAll, haccepted] at ho
      split at ho <;> first | assumption | cases ho
    rw [hnone]
    exact .none
  | some o =>
    obtain ⟨t, ht, -⟩ := (queryAll_eq_some ho).2 haccepted
    rw [ht]
    exact .some rfl

/-- A proof attempt ends in both databases with the same result and the same values of the
arguments, or it goes on in both. -/
theorem prove_isolated (h : db.Reachable) (hlimit : db.config.maxDepth = db'.config.maxDepth)
    (hsame : db.SameFrom db' name) (haccepted : db.argsFault? arity args = none)
    (haccepted' : db'.argsFault? arity args' = none)
    (hcorrespond : db.pool.Correspond db'.pool args args') (rounds : Nat) :
    Option.Rel (fun o o' => o.result = o'.result ∧ o.db.answer args = o'.db.answer args')
      (db.prove rounds (db.program.candidates name) args)
      (db'.prove rounds (db'.program.candidates name) args') := by
  have hargs := (of_argsFault?_eq_none haccepted).2
  have hargs' := (of_argsFault?_eq_none haccepted').2
  have hrelated := corresponds_args hcorrespond
  have hnext := (hsame.lockstep h haccepted haccepted' hcorrespond).next? h.valid
    (hsame.sameOn h.indexed) (fun _ _ => .inl) db.config.maxDepth rounds
  have hleft := db.prove_rel rounds (db.program.candidates name) args
  have hright := db'.prove_rel rounds (db'.program.candidates name) args'
  rw [← hlimit] at hright
  refine rel_of_rel hnext hleft hright fun o o' x x' hboth ho ho' => ?_
  obtain ⟨hfound, hmatches⟩ := hboth
  have hresult : o.result = o'.result := by rw [← ho.1, ← ho'.1, hfound]
  refine ⟨hresult, ?_⟩
  simp only [answer, ho.2, ho'.2, ← hresult]
  cases hb : o.result with
  -- The first answers come from matching stores.
  | true =>
    simp only [if_true, Pool.answer_kept _ _ hargs, Pool.answer_kept _ _ hargs']
    exact congrArg Answer.mk ((hmatches (ho.1.trans hb)).values_eq hrelated)
  -- Nothing was found, so both pools are as they were.
  | false => exact Pool.answer_eq_of_related (hcorrespond.matches_values hargs hargs') hrelated

/-- A query sees its program and its arguments only. Databases with the same limit and the same
clauses of all names that a name leads to answer corresponding arguments alike: within any number of
rounds a query gives the same result and leaves the same values on the arguments, and a request for
all answers gives the same list; or neither ends. -/
theorem query_isolated (h : db.Reachable) (hlimit : db.config.maxDepth = db'.config.maxDepth)
    (hsame : db.SameFrom db' name) (haccepted : db.argsFault? arity args = none)
    (haccepted' : db'.argsFault? arity args' = none)
    (hcorrespond : db.pool.Correspond db'.pool args args') (rounds : Nat) :
    Option.Rel (fun o o' => o.result = o'.result ∧ o.db.answer args = o'.db.answer args')
        (db.query rounds name arity args) (db'.query rounds name arity args') ∧
      Option.Rel (fun o o' => o.result = o'.result) (db.queryAll rounds name arity args)
        (db'.queryAll rounds name arity args') := by
  constructor
  · have hprove := prove_isolated h hlimit hsame haccepted haccepted' hcorrespond rounds
    simp only [query, tryQuery, haccepted, haccepted', Option.map_map]
    refine rel_map hprove fun o o' ho => ⟨?_, ho.2⟩
    simp only [Function.comp_apply, Outcome.map, ho.1]
  · have hall := (hsame.lockstep h haccepted haccepted' hcorrespond).all? h.valid
      (hsame.sameOn h.indexed) (fun _ _ => .inl) db.config.maxDepth
      (corresponds_args hcorrespond) rounds
    have hleft := queryAll_rel haccepted rounds name
    have hright := queryAll_rel haccepted' rounds name
    rw [← hlimit] at hright
    exact rel_of_rel hall hleft hright fun o o' x x' hfound ho ho' =>
      ho.symm.trans (hfound.trans ho')

/-- A relation that calls itself and another one, among clauses and terms of its own in each
database. Its first answer is found, and the list of all answers has no end. -/
theorem query_isolated_recursive_rule :
    ∃ db db' : Database Nat Nat, db.Reachable ∧ db.config.maxDepth = db'.config.maxDepth ∧
      db.SameFrom db' 1 ∧ db.argsFault? 1 [⟨3⟩] = none ∧ db'.argsFault? 1 [⟨1⟩] = none ∧
      db.pool.Correspond db'.pool [⟨3⟩] [⟨1⟩] ∧ ∀ rounds,
      Option.Rel (fun o o' => o.result = o'.result ∧ o.db.answer [⟨3⟩] = o'.db.answer [⟨1⟩])
          (db.query rounds 1 1 [⟨3⟩]) (db'.query rounds 1 1 [⟨1⟩]) ∧
        Option.Rel (fun o o' => o.result = o'.result) (db.queryAll rounds 1 1 [⟨3⟩])
          (db'.queryAll rounds 1 1 [⟨1⟩]) := by
  obtain ⟨db, hdb⟩ : ∃ db : Database Nat Nat, db =
      ⟨⟨#[.fact ⟨0, [⟨0⟩]⟩, .fact ⟨1, [⟨1⟩]⟩,
          .rule ⟨1, [⟨2⟩], [.var 0], [⟨2⟩], [⟨0, [.var 0]⟩, ⟨1, [.var 0]⟩]⟩],
          [(0, [⟨0⟩]), (1, [⟨1⟩, ⟨2⟩])]⟩,
        ⟨#[⟨⟨some 7⟩, true⟩, ⟨⟨some 7⟩, true⟩, ⟨⟨none⟩, true⟩, ⟨⟨none⟩, false⟩], #[]⟩,
        ⟨none, false⟩⟩ := ⟨_, rfl⟩
  obtain ⟨db', hdb'⟩ : ∃ db' : Database Nat Nat, db' =
      ⟨⟨#[.fact ⟨5, [⟨0⟩]⟩, .fact ⟨1, [⟨2⟩]⟩,
          .rule ⟨1, [⟨3⟩], [.var 0], [⟨3⟩], [⟨0, [.var 0]⟩, ⟨1, [.var 0]⟩]⟩, .fact ⟨0, [⟨4⟩]⟩],
          [(5, [⟨0⟩]), (1, [⟨1⟩, ⟨2⟩]), (0, [⟨3⟩])]⟩,
        ⟨#[⟨⟨some 9⟩, true⟩, ⟨⟨none⟩, false⟩, ⟨⟨some 7⟩, true⟩, ⟨⟨none⟩, true⟩,
            ⟨⟨some 7⟩, true⟩], #[]⟩,
        ⟨none, false⟩⟩ := ⟨_, rfl⟩
  have hsession : (empty ⟨none, false⟩ : Database Nat Nat).execAll 0
      [.addFact 0 [7], .addFact 1 [7], .addRule 1 [.fresh], .addGoal ⟨2⟩ 0 [.param 0],
        .addGoal ⟨2⟩ 1 [.param 0], .addVar] = some db := by
    rw [hdb]
    rfl
  have hreachable : db.Reachable := (Reachable.empty _).execAll hsession
  have hlimit : db.config.maxDepth = db'.config.maxDepth := by rw [hdb, hdb']
  have haccepted : db.argsFault? 1 [⟨3⟩] = none := by rw [hdb]; rfl
  have haccepted' : db'.argsFault? 1 [⟨1⟩] = none := by rw [hdb']; rfl
  have hcorrespond : db.pool.Correspond db'.pool [⟨3⟩] [⟨1⟩] :=
    .singleton (by rw [hdb, hdb']; rfl)
  have hleads : ∀ n, Relation.ReflTransGen db.program.Calls 1 n → n = 0 ∨ n = 1 := by
    intro n hn
    induction hn with
    | refl => exact .inr rfl
    | tail _ hcalls _ =>
      obtain ⟨⟨id⟩, r, hr, -, g, hg, rfl⟩ := hcalls
      rw [hdb] at hr
      match id, hr with
      | 2, hr =>
        obtain rfl := Option.some.inj hr
        revert g
        decide
      | 0, hr | 1, hr | id + 3, hr => cases hr
  have hsame : db.SameFrom db' 1 := by
    intro n hn
    rcases hleads n hn with rfl | rfl
    · rw [hdb, hdb']
      exact .cons (.some (.fact (.cons ⟨7, rfl, rfl⟩ .nil))) .nil
    · rw [hdb, hdb']
      refine .cons (.some (.fact (.cons ⟨7, rfl, rfl⟩ .nil))) (.cons (.some (.rule id ?_)) .nil)
      exact ⟨Function.injective_id, fun _ hi => hi, .cons (.var 0) .nil,
        .cons ⟨rfl, .cons (.var 0) .nil⟩ (.cons ⟨rfl, .cons (.var 0) .nil⟩ .nil)⟩
  exact ⟨db, db', hreachable, hlimit, hsame, haccepted, haccepted', hcorrespond,
    query_isolated hreachable hlimit hsame haccepted haccepted' hcorrespond⟩

end Hornbase.Database
