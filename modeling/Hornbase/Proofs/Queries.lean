import Hornbase.Proofs.Aftermath
import Hornbase.Proofs.DepthLimit
import Hornbase.Proofs.Edits
import Hornbase.Proofs.Refinement

/-!
# Bounded queries

With a bound on the nesting of rules every search ends, and what it finds is what the plain
interpreter lists for the store of the pool. Here this is carried over to the requests of a
database: to the searches that stand behind them first, then to one answer, then to all of them.
-/

namespace Hornbase

universe u v

variable {N : Type u} {V : Type v} [DecidableEq N] [BEq V]

/-! ## Searches from the start -/

namespace Search

/-- A bounded search by some clauses runs to its end. Its answers are those that the clauses mean,
one clause after the other. -/
theorem run_start {prog : Program N} {pool : Pool V} {args : List TermId} (limit : Nat)
    (hvalid : prog.Valid pool) (hargs : ∀ t ∈ args, t.index < pool.size) (ids : List ClauseId) :
    ∃ found t, Run prog (some limit) (start pool ids args) found t ∧ t.calls = [] ∧
      found.map (·.pool.values)
        = ids.flatMap (fun id => prog.byClause limit id args pool.values) ∧
      ∀ e ∈ found, pool.GrowsTo e.pool := by
  have hyields := callsRefine (V := V) prog limit limit { pool }
    ⟨ids, args, 0, none, pool.mark, pool.size, 0⟩ 0 (fun σ => [σ]) (Nat.zero_add limit) rfl rfl rfl
    hargs hvalid (Nat.le_refl 0) (continues_none _ 0) ids (start pool ids args)
    ⟨.refl _, List.prefix_rfl⟩ rfl
  obtain ⟨found, t, hrun, hfound, hgrows, hback⟩ := hyields
  refine ⟨found, t, hrun, hback.calls, ?_, hgrows⟩
  rw [hfound]
  simp only [List.flatMap_singleton']

end Search

namespace Database

/-! ## Accepted arguments -/

omit [DecidableEq N] [BEq V] in
/-- Accepted arguments are as many as they should be, and terms of the pool. -/
theorem of_argsFault?_eq_none {db : Database N V} {arity : Nat} {args : List TermId}
    (h : db.argsFault? arity args = none) :
    args.length = arity ∧ ∀ t ∈ args, t.index < db.pool.size := by
  unfold argsFault? at h
  split at h
  · cases h
  · next hlength =>
    refine ⟨not_not.1 hlength, fun t ht => ?_⟩
    have hknown := List.find?_eq_none.1 (Option.map_eq_none_iff.1 h) t ht
    simpa [Pool.contains] using hknown

omit [DecidableEq N] [BEq V] in
/-- As many terms of the pool as there should be are accepted. -/
theorem argsFault?_eq_none {db : Database N V} {arity : Nat} {args : List TermId}
    (hlength : args.length = arity) (hargs : ∀ t ∈ args, t.index < db.pool.size) :
    db.argsFault? arity args = none := by
  rw [argsFault?, if_neg (not_not.2 hlength), Option.map_eq_none_iff, List.find?_eq_none]
  intro t ht
  simpa [Pool.contains] using hargs t ht

/-! ## Requests

Without a limit of its own a search that ends is bounded by the number of its rounds. -/

variable {db : Database N V} {limit : Nat} {name : N} {arity : Nat} {args : List TermId}

/-- A proof attempt ends if its search runs to an end. -/
theorem exists_prove_of_run {ids : List ClauseId} {found : List (Search N V)} {t : Search N V}
    (hrun : Search.Run db.program db.config.maxDepth (Search.start db.pool ids args) found t)
    (ht : t.calls = []) : ∃ rounds o, db.prove rounds ids args = some o := by
  obtain ⟨rounds, hsome⟩ := (Search.next?_of_run hrun ht).1
  obtain ⟨program, pool, config⟩ := db
  obtain ⟨⟨b, u⟩, hu⟩ := Option.isSome_iff_exists.1 hsome
  refine ⟨rounds, ?_⟩
  simp only [prove, hu]
  cases b <;> exact ⟨_, rfl⟩

/-- A bounded proof attempt ends. -/
theorem exists_prove (hvalid : db.Valid) (hlimit : db.config.maxDepth = some limit)
    (hargs : ∀ t ∈ args, t.index < db.pool.size) (ids : List ClauseId) :
    ∃ rounds o, db.prove rounds ids args = some o := by
  obtain ⟨found, t, hrun, ht, -, -⟩ := Search.run_start limit hvalid hargs ids
  rw [← hlimit] at hrun
  exact exists_prove_of_run hrun ht

/-- A proof attempt that ends tells whether its clauses prove the call. If they do, the first proof
is kept. -/
theorem prove_spec (hvalid : db.Valid) (hargs : ∀ t ∈ args, t.index < db.pool.size)
    {ids : List ClauseId} {rounds : Nat} {o : Outcome N V Bool}
    (ho : db.prove rounds ids args = some o) :
    match ids.flatMap (fun id =>
      db.program.byClause (db.config.maxDepth.getD rounds) id args db.pool.values) with
    | [] => o.result = false ∧ o.db = db
    | s :: _ => o.result = true ∧ ∃ q, db.pool.GrowsTo q ∧ q.values = s ∧
        o.db = { db with pool := db.pool.kept q } := by
  obtain ⟨found, t, hrun, ht, hfound, hgrows⟩ :=
    Search.run_start (db.config.maxDepth.getD rounds) hvalid hargs ids
  obtain ⟨u, hu, -, hdb⟩ := prove_eq_some ho
  have hfirst := (Search.next?_of_run hrun ht).2 rounds _ (Search.next?_getD hu)
  rw [← hfound]
  cases found with
  | nil =>
    obtain ⟨hresult, rfl⟩ := Prod.mk.inj hfirst
    rw [hresult] at hdb
    exact ⟨hresult, hdb⟩
  | cons e rest =>
    obtain ⟨hresult, rfl⟩ := Prod.mk.inj hfirst
    rw [hresult] at hdb
    exact ⟨hresult, u.pool, hgrows u (List.mem_cons_self ..), rfl, hdb⟩

/-- A query ends if its proof attempt does. -/
theorem exists_query_of_prove (haccepted : db.argsFault? arity args = none)
    (h : ∃ rounds o, db.prove rounds (db.program.candidates name) args = some o) :
    ∃ rounds o, db.query rounds name arity args = some o := by
  obtain ⟨rounds, o, ho⟩ := h
  refine ⟨rounds, ?_⟩
  simp only [query, tryQuery, haccepted, ho]
  exact ⟨_, rfl⟩

/-- A bounded query ends. -/
theorem exists_query (hvalid : db.Valid) (hlimit : db.config.maxDepth = some limit)
    (haccepted : db.argsFault? arity args = none) :
    ∃ rounds o, db.query rounds name arity args = some o :=
  exists_query_of_prove haccepted
    (exists_prove hvalid hlimit (of_argsFault?_eq_none haccepted).2 _)

/-- A query that ends tells whether the interpreter proves the call. If it does, its first store is
kept. -/
theorem query_spec (hvalid : db.Valid) (haccepted : db.argsFault? arity args = none) {rounds : Nat}
    {o : Outcome N V Bool} (ho : db.query rounds name arity args = some o) :
    match db.program.meaning (db.config.maxDepth.getD rounds) name args db.pool.values with
    | [] => o.result = false ∧ o.db = db
    | s :: _ => o.result = true ∧ ∃ q, db.pool.GrowsTo q ∧ q.values = s ∧
        o.db = { db with pool := db.pool.kept q } := by
  obtain ⟨hfault, -⟩ | ⟨-, p, hp, hresult, hdb⟩ := query_eq_some ho
  · exact absurd haccepted hfault
  · rw [hresult, hdb, Program.meaning_apply]
    exact prove_spec hvalid (of_argsFault?_eq_none haccepted).2 hp

/-- A request for all answers ends if its search runs to an end, and then lists what was found on
the way. -/
theorem queryAll_of_run (haccepted : db.argsFault? arity args = none)
    {found : List (Search N V)} {t : Search N V}
    (hrun : Search.Run db.program db.config.maxDepth
      (Search.start db.pool (db.program.candidates name) args) found t) (ht : t.calls = []) :
    (∃ rounds o, db.queryAll rounds name arity args = some o) ∧
      ∀ rounds o, db.queryAll rounds name arity args = some o →
        o.result = found.map (·.pool.answer args) := by
  have hall := Search.all?_of_run hrun ht args
  constructor
  · obtain ⟨rounds, hsome⟩ := hall.1
    obtain ⟨program, pool, config⟩ := db
    obtain ⟨⟨answers, u⟩, hu⟩ := Option.isSome_iff_exists.1 hsome
    refine ⟨rounds, ?_⟩
    simp only [queryAll, haccepted, hu]
    exact ⟨_, rfl⟩
  · intro rounds o ho
    obtain ⟨u, hu, -⟩ := (queryAll_eq_some ho).2 haccepted
    exact (Prod.mk.inj (hall.2 rounds _ hu)).1

/-- A bounded request for all answers ends. -/
theorem exists_queryAll (hvalid : db.Valid) (hlimit : db.config.maxDepth = some limit)
    (haccepted : db.argsFault? arity args = none) :
    ∃ rounds o, db.queryAll rounds name arity args = some o := by
  obtain ⟨found, t, hrun, ht, -, -⟩ :=
    Search.run_start limit hvalid (of_argsFault?_eq_none haccepted).2 (db.program.candidates name)
  rw [← hlimit] at hrun
  exact (queryAll_of_run haccepted hrun ht).1

/-- A request for all answers that ends lists the values of the arguments in the stores that the
interpreter lists. -/
theorem queryAll_spec (hvalid : db.Valid) (haccepted : db.argsFault? arity args = none)
    {rounds : Nat} {o : Outcome N V (List (Answer V))}
    (ho : db.queryAll rounds name arity args = some o) :
    o.result = (db.program.meaning (db.config.maxDepth.getD rounds) name args db.pool.values).map
      fun s => ⟨Store.values s args⟩ := by
  obtain ⟨found, t, hrun, ht, hfound, -⟩ :=
    Search.run_start (db.config.maxDepth.getD rounds) hvalid (of_argsFault?_eq_none haccepted).2
      (db.program.candidates name)
  obtain ⟨u, hu, -⟩ := (queryAll_eq_some ho).2 haccepted
  obtain ⟨hresult, -⟩ :=
    Prod.mk.inj ((Search.all?_of_run hrun ht args).2 rounds _ (Search.all?_getD hu))
  rw [hresult, Program.meaning_apply, ← hfound, List.map_map]
  refine List.map_congr_left fun e _ => ?_
  simp [Pool.answer, Store.values]

/-! ## Agreement with the interpreter -/

/-- A bounded request for all answers finds what the plain interpreter finds: the same answers with
the same values, in the same order and as often. The clauses of each name, which the interpreter
tries in turn, are those declared under it, in the order of declaration. -/
theorem queryAll_eq_meaning (h : db.Reachable) (hlimit : db.config.maxDepth = some limit)
    (haccepted : db.argsFault? arity args = none) :
    (∀ n, db.program.candidates n = db.program.declared n) ∧
      (∃ rounds o, db.queryAll rounds name arity args = some o) ∧
      ∀ rounds o, db.queryAll rounds name arity args = some o →
        o.result = (db.program.meaning limit name args db.pool.values).map
          fun s => ⟨Store.values s args⟩ := by
  refine ⟨h.indexed, exists_queryAll h.valid hlimit haccepted, fun rounds o ho => ?_⟩
  have hspec := queryAll_spec h.valid haccepted ho
  rwa [hlimit] at hspec

/-- A rule with two clauses for its goal, asked for its first position: the same two answers from
the search and from the interpreter. -/
theorem queryAll_eq_meaning_rule_over_facts :
    ∃ db : Database Nat Nat, db.Reachable ∧ db.config.maxDepth = some 1 ∧
      db.argsFault? 1 [⟨3⟩] = none ∧
      (∃ rounds o, db.queryAll rounds 1 1 [⟨3⟩] = some o) ∧
      ∀ rounds o, db.queryAll rounds 1 1 [⟨3⟩] = some o → o.result = [⟨[some 5]⟩, ⟨[some 6]⟩] := by
  obtain ⟨db, hreachable, hlimit, haccepted, hmeaning⟩ := exists_reachable ⟨some 1, false⟩ 0
    [.addFact 0 [5], .addFact 0 [6], .addRule 1 [.fresh], .addGoal ⟨2⟩ 0 [.param 0], .addVar]
    (fun db : Database Nat Nat => db.config.maxDepth = some 1 ∧ db.argsFault? 1 [⟨3⟩] = none ∧
      (db.program.meaning 1 1 [⟨3⟩] db.pool.values).map
        (fun s => (⟨Store.values s [⟨3⟩]⟩ : Answer Nat)) = [⟨[some 5]⟩, ⟨[some 6]⟩])
    (by decide +kernel)
  obtain ⟨-, hends, hfound⟩ := queryAll_eq_meaning hreachable hlimit haccepted
  rw [hmeaning] at hfound
  exact ⟨db, hreachable, hlimit, haccepted, hends, hfound⟩

end Database

end Hornbase
