import Hornbase.Proofs.Edits
import Hornbase.Proofs.Queries

/-!
# One question asked in several ways

The same relation can be asked for one answer, for the reason why it has none, for all its answers,
or clause by clause. Each way drives the search differently: it stops at the first answer or goes
on, keeps its bindings or undoes them, tries all clauses of a name or a single one. What they reply
is compared here. A query replies what the list of all answers calls for and leaves the first of
them on its arguments; and it leaves the whole database as asking its clauses one by one does, up to
the first that succeeds.

Every way is described by the stores that it chooses from (`Database.Takes`), and two ways that
choose the same store leave the same database.
-/

namespace Hornbase

universe u v

variable {N : Type u} {V : Type v}

/-! ## What is kept -/

namespace Pool

/-- Known arguments have the same values in what is kept as at the end. -/
theorem answer_kept (p q : Pool V) {args : List TermId} (hargs : ∀ t ∈ args, t.index < p.size) :
    (p.kept q).answer args = ⟨Store.values q.values args⟩ := by
  have hvalues : args.map (p.kept q).value? = args.map (Store.value? q.values) :=
    List.map_congr_left fun t ht => by rw [value?_kept (hargs t ht), value?_values]
  rw [answer, hvalues, Store.values]

end Pool

namespace Database

/-- A call that finds the stores of the list, in this order, ends with the outcome `o`: it succeeds
if there is a store and keeps the first, and changes nothing otherwise. -/
def Takes (db : Database N V) (found : List (Store V)) (o : Outcome N V Bool) : Prop :=
  match found with
  | [] => o.result = false ∧ o.db = db
  | s :: _ => o.result = true ∧ ∃ q, db.pool.GrowsTo q ∧ q.values = s ∧
      o.db = { db with pool := db.pool.kept q }

section

variable {db : Database N V} {found found' : List (Store V)} {o o' : Outcome N V Bool}

theorem Takes.result_eq (h : db.Takes found o) : o.result = !found.isEmpty := by
  cases found <;> exact h.1

/-- A call succeeds if there is a store to take. -/
theorem Takes.result_eq_true_iff (h : db.Takes found o) : o.result = true ↔ found ≠ [] := by
  rw [h.result_eq]
  cases found <;> simp

/-- Calls that find the same store first leave the same database. -/
theorem Takes.db_eq (h : db.Takes found o) (h' : db.Takes found' o')
    (hfirst : found.head? = found'.head?) : o.db = o'.db := by
  cases found with
  | nil =>
    obtain rfl : found' = [] := List.head?_eq_none_iff.1 hfirst.symm
    rw [h.2, h'.2]
  | cons s rest =>
    cases found' with
    | nil => cases hfirst
    | cons s' rest' =>
      obtain rfl : s = s' := Option.some.inj hfirst
      obtain ⟨-, q, hq, hvalues, hdb⟩ := h
      obtain ⟨-, q', hq', hvalues', hdb'⟩ := h'
      have hsame : ∀ t : TermId, t.index < db.pool.size → q.value? t = q'.value? t := fun t _ => by
        rw [← Pool.value?_values, ← Pool.value?_values, hvalues, hvalues']
      rw [hdb, hdb', Pool.kept_congr hq hq' hsame]

/-- After a call that takes a store, known arguments have the values of the first. -/
theorem Takes.answer (h : db.Takes found o) (hresult : o.result = true) {args : List TermId}
    (hargs : ∀ t ∈ args, t.index < db.pool.size) :
    found.head?.map (fun s => ⟨Store.values s args⟩) = some (o.db.answer args) := by
  cases found with
  | nil => rw [h.1] at hresult; cases hresult
  | cons s rest =>
    obtain ⟨-, q, -, rfl, hdb⟩ := h
    rw [hdb]
    exact congrArg some (db.pool.answer_kept q hargs).symm

end

/-! ## One answer and all answers -/

/-- The reply to a query that finds the answers of the list. -/
def verdict (db : Database N V) (arity : Nat) (args : List TermId) (answers : List (Answer V)) :
    Except Failure Unit :=
  if args.length ≠ arity then .error (.arityMismatch arity args.length)
  else
    match args.find? (fun t => !db.pool.contains t), answers with
    | some t, _ => .error (.unknownTerm t)
    | none, [] => .error .noMatchingClause
    | none, _ :: _ => .ok ()

variable {db : Database N V} {name : N} {arity limit : Nat} {args : List TermId}

/-- A fault of the arguments is all that the reply tells. -/
theorem verdict_of_fault {failure : Failure} (h : db.argsFault? arity args = some failure)
    (answers : List (Answer V)) : db.verdict arity args answers = .error failure := by
  unfold argsFault? at h
  unfold verdict
  split
  · next hlength =>
    rw [if_pos hlength] at h
    rw [Option.some.inj h]
  · next hlength =>
    rw [if_neg hlength] at h
    obtain ⟨t, ht, rfl⟩ := Option.map_eq_some_iff.1 h
    rw [ht]

/-- With accepted arguments it matters only whether there is an answer. -/
theorem verdict_of_accepted (h : db.argsFault? arity args = none) (answers : List (Answer V)) :
    db.verdict arity args answers
      = if answers.isEmpty then .error .noMatchingClause else .ok () := by
  unfold argsFault? at h
  unfold verdict
  split
  · next hlength =>
    rw [if_pos hlength] at h
    cases h
  · next hlength =>
    rw [if_neg hlength] at h
    rw [Option.map_eq_none_iff.1 h]
    cases answers <;> rfl

variable [DecidableEq N] [BEq V]

/-- A query that says why it failed is a query: it succeeds if there is no failure. -/
theorem query_of_tryQuery {rounds : Nat} {o : Outcome N V (Except Failure Unit)}
    (h : db.tryQuery rounds name arity args = some o) :
    db.query rounds name arity args = some (o.map Except.toBool) := by
  rw [query, h, Option.map_some]

/-- With accepted arguments a query fails for one reason only. -/
theorem tryQuery_result (haccepted : db.argsFault? arity args = none) {rounds : Nat}
    {o : Outcome N V (Except Failure Unit)} (h : db.tryQuery rounds name arity args = some o) :
    o.result = if o.result.toBool then .ok () else .error .noMatchingClause := by
  simp only [tryQuery, haccepted] at h
  obtain ⟨p, -, rfl⟩ := Option.map_eq_some_iff.1 h
  cases p.result <;> rfl

/-- A query takes the first of the stores in which the interpreter proves it. -/
theorem query_takes (hvalid : db.Valid) (hlimit : db.config.maxDepth = some limit)
    (haccepted : db.argsFault? arity args = none) {rounds : Nat} {o : Outcome N V Bool}
    (h : db.query rounds name arity args = some o) :
    db.Takes (db.program.meaning limit name args db.pool.values) o := by
  have hspec := query_spec hvalid haccepted h
  rwa [hlimit] at hspec

/-- With accepted arguments a query replies what the list of all answers calls for, and leaves the
first of them. -/
theorem tryQuery_of_accepted (hvalid : db.Valid) (hlimit : db.config.maxDepth = some limit)
    (haccepted : db.argsFault? arity args = none) {rounds rounds' : Nat}
    {o : Outcome N V (Except Failure Unit)} {all : Outcome N V (List (Answer V))}
    (ho : db.tryQuery rounds name arity args = some o)
    (hall : db.queryAll rounds' name arity args = some all) :
    o.result = db.verdict arity args all.result ∧
      (o.result = .ok () → all.result.head? = some (o.db.answer args)) := by
  have htakes := query_takes hvalid hlimit haccepted (query_of_tryQuery ho)
  have hlist := queryAll_spec hvalid haccepted hall
  rw [hlimit, Option.getD_some] at hlist
  refine ⟨?_, fun hok => ?_⟩
  · have hresult : o.result.toBool = !all.result.isEmpty := by
      rw [hlist, List.isEmpty_map]
      exact htakes.result_eq
    -- A search that fails is named by the verdict on an empty list.
    rw [verdict_of_accepted haccepted, tryQuery_result haccepted ho, hresult]
    cases all.result <;> rfl
  · have hsucceeds : (o.map Except.toBool).result = true := congrArg Except.toBool hok
    rw [hlist, List.head?_map]
    exact htakes.answer hsucceeds (of_argsFault?_eq_none haccepted).2

/-- A bounded query says exactly what is known of all answers. It fails for the number of its
arguments, else for the first unknown one, else because there is no answer, and for no other reason.
When it succeeds its arguments hold the first of all answers. Asking only whether it holds is the
same query. -/
theorem tryQuery_eq_verdict (h : db.Reachable) (hlimit : db.config.maxDepth = some limit)
    (name : N) (arity : Nat) (args : List TermId) :
    (∃ rounds o, db.tryQuery rounds name arity args = some o) ∧
      (∃ rounds all, db.queryAll rounds name arity args = some all) ∧
      ∀ rounds o, db.tryQuery rounds name arity args = some o →
        db.query rounds name arity args = some (o.map Except.toBool) ∧
        ∀ rounds' all, db.queryAll rounds' name arity args = some all →
          o.result = db.verdict arity args all.result ∧
          (o.result = .ok () → all.result.head? = some (o.db.answer args)) := by
  cases hfault : db.argsFault? arity args with
  -- The request is refused before any search, and in the same way with any number of rounds.
  | some failure =>
    refine ⟨⟨0, ⟨.error failure, db, #[]⟩, by rw [tryQuery, hfault]⟩,
      ⟨0, ⟨[], db, #[.queryRejected name arity failure]⟩, by rw [queryAll, hfault]⟩,
      fun rounds o ho => ⟨query_of_tryQuery ho, fun rounds' all _ => ?_⟩⟩
    rw [tryQuery, hfault] at ho
    obtain rfl := Option.some.inj ho
    refine ⟨(verdict_of_fault hfault _).symm, fun hok => ?_⟩
    cases hok
  | none =>
    have hends : ∃ rounds q, db.query rounds name arity args = some q :=
      exists_query h.valid hlimit hfault
    obtain ⟨rounds, q, hq⟩ := hends
    obtain ⟨o, ho, -⟩ := Option.map_eq_some_iff.1 hq
    exact ⟨⟨rounds, o, ho⟩, exists_queryAll h.valid hlimit hfault, fun rounds o ho =>
      ⟨query_of_tryQuery ho, fun rounds' all => tryQuery_of_accepted h.valid hlimit hfault ho⟩⟩

/-- A rule with two answers: the query holds and leaves the first. -/
theorem tryQuery_eq_verdict_two_answers :
    ∃ db : Database Nat Nat, db.Reachable ∧ db.config.maxDepth = some 1 ∧
      ∃ rounds o all, db.tryQuery rounds 1 1 [⟨3⟩] = some o ∧
        db.queryAll 20 1 1 [⟨3⟩] = some all ∧ all.result = [⟨[some 5]⟩, ⟨[some 6]⟩] ∧
        o.result = .ok () ∧ o.db.answer [⟨3⟩] = ⟨[some 5]⟩ := by
  obtain ⟨db, hreachable, hlimit, hknown, hfound⟩ := exists_reachable ⟨some 1, false⟩ 0
    [.addFact 0 [5], .addFact 0 [6], .addRule 1 [.fresh], .addGoal ⟨2⟩ 0 [.param 0], .addVar]
    (fun db : Database Nat Nat => db.config.maxDepth = some 1 ∧ db.pool.contains ⟨3⟩ = true ∧
      (db.queryAll 20 1 1 [⟨3⟩]).map (·.result) = some [⟨[some 5]⟩, ⟨[some 6]⟩])
    (by decide +kernel)
  obtain ⟨all, hall, hanswers⟩ := Option.map_eq_some_iff.1 hfound
  obtain ⟨⟨rounds, o, ho⟩, -, hreply⟩ := tryQuery_eq_verdict hreachable hlimit 1 1 [⟨3⟩]
  obtain ⟨hverdict, hfirst⟩ := (hreply rounds o ho).2 20 all hall
  rw [hanswers] at hverdict hfirst
  have hok : o.result = .ok () := by
    rw [hverdict]
    simp [verdict, hknown]
  exact ⟨db, hreachable, hlimit, rounds, o, all, ho, hall, hanswers, hok,
    (Option.some.inj (hfirst hok)).symm⟩

/-! ## Clause by clause -/

/-- Asks the single clause `c`: a rule is resolved, and a fact unified. -/
def askClause (rounds : Nat) (db : Database N V) (c : ClauseId) (args : List TermId) :
    Option (Outcome N V Bool) :=
  match db.program.clause? c with
  | some (.rule _) => db.resolve rounds c args
  | _ => some (db.unify c args)

/-- Whether the clause `c` succeeds when it is asked alone. -/
def ClauseSucceeds (db : Database N V) (c : ClauseId) (args : List TermId) : Prop :=
  ∃ rounds o, db.askClause rounds c args = some o ∧ o.result = true

variable {c : ClauseId}

/-- Unifying a fact takes the store in which the fact proves the call, if there is one. -/
theorem unify_takes (hvalid : db.Valid) {f : Fact N}
    (hclause : db.program.clause? c = some (.fact f)) (hargs : ∀ t ∈ args, t.index < db.pool.size)
    (depth : Nat) :
    db.Takes (db.program.byClause depth c args db.pool.values) (db.unify c args) := by
  have hparts : ∀ t ∈ f.parts, t.index < db.pool.size := fun t ht => (hvalid.fact hclause t ht).lt
  have hfact : db.program.fact? c = some f := by simp only [Program.fact?, hclause]
  simp only [unify, hfact, Program.byClause, hclause, Option.map_some, Option.getD_some,
    Meaning.clause]
  by_cases harity : f.arity ≠ args.length
  · have hclauseArity : (Clause.fact f).arity ≠ args.length := harity
    -- The comparison of the lengths comes first on both sides.
    rw [if_pos harity, if_pos hclauseArity]
    exact ⟨rfl, rfl⟩
  · have hclauseArity : ¬ (Clause.fact f).arity ≠ args.length := harity
    rw [if_neg harity, if_neg hclauseArity]
    obtain ⟨program, pool, config⟩ := db
    dsimp only at hargs hparts ⊢
    have hknown : pool.Known (f.parts.zip args) := fun x hx =>
      ⟨hparts x.1 (List.of_mem_zip hx).1, hargs x.2 (List.of_mem_zip hx).2⟩
    rw [Meaning.fact, ← Pool.unify_outcome hknown, Matching.outcome, Pool.commit_unify]
    -- The pool is matched as its store is, and undone where the match fails.
    cases hfailure : (pool.unify (f.parts.zip args)).failure with
    | some failure =>
      rw [Pool.unify_pool_of_failure hfailure, Pool.kept_self]
      exact ⟨rfl, rfl⟩
    | none => exact ⟨rfl, _, (pool.unify_grows _).1, rfl, rfl⟩

/-- Resolving a rule takes the first store in which the rule proves the call. -/
theorem resolve_takes (hvalid : db.Valid) (hlimit : db.config.maxDepth = some limit) {r : Rule N}
    (hclause : db.program.clause? c = some (.rule r)) (hargs : ∀ t ∈ args, t.index < db.pool.size)
    {rounds : Nat} {o : Outcome N V Bool} (h : db.resolve rounds c args = some o) :
    db.Takes (db.program.byClause limit c args db.pool.values) o := by
  have hrule : db.program.rule? c = some r := by simp only [Program.rule?, hclause]
  simp only [resolve, hrule] at h
  split at h
  · next failure hfault =>
    obtain rfl := Option.some.inj h
    -- The arguments are known, so it is their number that is wrong.
    have harity : (Clause.rule r).arity ≠ args.length := fun heq => by
      have haccepted : db.argsFault? r.arity args = none := argsFault?_eq_none heq.symm hargs
      rw [haccepted] at hfault
      cases hfault
    simp only [Program.byClause, hclause, Option.map_some, Option.getD_some, Meaning.clause]
    rw [if_pos harity]
    exact ⟨rfl, rfl⟩
  · have hspec := prove_spec hvalid hargs h
    rwa [hlimit, Option.getD_some, List.flatMap_singleton] at hspec

/-- A clause that is asked alone takes the first store in which it proves the call. -/
theorem askClause_takes (hvalid : db.Valid) (hlimit : db.config.maxDepth = some limit)
    (hstored : ∃ clause, db.program.clause? c = some clause)
    (hargs : ∀ t ∈ args, t.index < db.pool.size) {rounds : Nat} {o : Outcome N V Bool}
    (h : db.askClause rounds c args = some o) :
    db.Takes (db.program.byClause limit c args db.pool.values) o := by
  obtain ⟨clause, hclause⟩ := hstored
  simp only [askClause, hclause] at h
  cases clause with
  | fact f =>
    obtain rfl := Option.some.inj h
    exact unify_takes hvalid hclause hargs limit
  | rule r => exact resolve_takes hvalid hlimit hclause hargs h

/-- A bounded question to a single clause ends. -/
theorem exists_askClause (hvalid : db.Valid) (hlimit : db.config.maxDepth = some limit)
    (c : ClauseId) (args : List TermId) : ∃ rounds o, db.askClause rounds c args = some o := by
  cases hclause : db.program.clause? c with
  | none => exact ⟨0, _, by simp only [askClause, hclause]; rfl⟩
  | some clause =>
    cases clause with
    | fact f => exact ⟨0, _, by simp only [askClause, hclause]; rfl⟩
    | rule r =>
      have hrule : db.program.rule? c = some r := by simp only [Program.rule?, hclause]
      simp only [askClause, hclause, resolve, hrule]
      cases hfault : db.argsFault? r.arity args with
      | some failure => exact ⟨0, _, rfl⟩
      | none => exact exists_prove hvalid hlimit (of_argsFault?_eq_none hfault).2 [c]

/-- A clause succeeds alone if it proves the call in some store. -/
theorem clauseSucceeds_iff (hvalid : db.Valid) (hlimit : db.config.maxDepth = some limit)
    (hstored : ∃ clause, db.program.clause? c = some clause)
    (hargs : ∀ t ∈ args, t.index < db.pool.size) :
    db.ClauseSucceeds c args ↔ db.program.byClause limit c args db.pool.values ≠ [] := by
  constructor
  · rintro ⟨rounds, o, ho, hresult⟩
    exact (askClause_takes hvalid hlimit hstored hargs ho).result_eq_true_iff.1 hresult
  · intro hfound
    obtain ⟨rounds, o, ho⟩ := exists_askClause hvalid hlimit c args
    exact ⟨rounds, o, ho,
      (askClause_takes hvalid hlimit hstored hargs ho).result_eq_true_iff.2 hfound⟩

/-- A bounded query is the first success among the clauses of its name, each asked alone on the same
database. It succeeds if one of them does, and leaves the whole database as the first of these does;
if none succeeds it changes nothing. -/
theorem query_eq_first_clause (h : db.Reachable) (hlimit : db.config.maxDepth = some limit)
    (haccepted : db.argsFault? arity args = none) (name : N) :
    (∃ rounds o, db.query rounds name arity args = some o) ∧
      (∀ c ∈ db.program.declared name, ∃ rounds o, db.askClause rounds c args = some o) ∧
      ∀ rounds o, db.query rounds name arity args = some o →
        (o.result = true ↔ ∃ c ∈ db.program.declared name, db.ClauseSucceeds c args) ∧
        (∀ before c after, db.program.declared name = before ++ c :: after →
          (∀ b ∈ before, ¬ db.ClauseSucceeds b args) → ∀ rounds' o',
            db.askClause rounds' c args = some o' → o'.result = true → o.db = o'.db) ∧
        ((∀ c ∈ db.program.declared name, ¬ db.ClauseSucceeds c args) → o.db = db) := by
  have hargs := (of_argsFault?_eq_none haccepted).2
  rw [← h.indexed name]
  refine ⟨exists_query h.valid hlimit haccepted,
    fun c _ => exists_askClause h.valid hlimit c args, fun rounds o ho => ?_⟩
  have htakes := query_takes h.valid hlimit haccepted ho
  rw [Program.meaning_apply] at htakes
  have hsucceeds : ∀ c ∈ db.program.candidates name, db.ClauseSucceeds c args ↔
      db.program.byClause limit c args db.pool.values ≠ [] := fun c hc =>
    clauseSucceeds_iff h.valid hlimit (h.indexed.exists_clause? hc) hargs
  refine ⟨?_, fun before c after hsplit hbefore rounds' o' ho' hresult => ?_, fun hnone => ?_⟩
  · -- The list of stores is not empty just when the one of some clause is not.
    rw [htakes.result_eq_true_iff, Ne, List.flatMap_eq_nil_iff, not_forall]
    simp only [not_forall, exists_prop]
    exact exists_congr fun c => and_congr_right fun hc => (hsucceeds c hc).symm
  · have hmem : ∀ b ∈ before ++ c :: after, b ∈ db.program.candidates name := by
      rw [hsplit]
      exact fun b hb => hb
    have hc := hmem c (List.mem_append_right _ (List.mem_cons_self ..))
    have htakes' := askClause_takes h.valid hlimit (h.indexed.exists_clause? hc) hargs ho'
    have hfound := htakes'.result_eq_true_iff.1 hresult
    -- The clauses before `c` lead to no store, so the first one is the first of `c`.
    have hnil : before.flatMap (fun id => db.program.byClause limit id args db.pool.values) = [] :=
      List.flatMap_eq_nil_iff.2 fun b hb => by
        by_contra hne
        exact hbefore b hb ((hsucceeds b (hmem b (List.mem_append_left _ hb))).2 hne)
    refine htakes.db_eq htakes' ?_
    rw [hsplit, List.flatMap_append, hnil, List.nil_append, List.flatMap_cons,
      List.head?_append_of_ne_nil _ hfound]
  · -- No clause leads to a store, so nothing is found and nothing changes.
    have hnil : (db.program.candidates name).flatMap
        (fun id => db.program.byClause limit id args db.pool.values) = [] :=
      List.flatMap_eq_nil_iff.2 fun c hc => by
        by_contra hne
        exact hnone c hc ((hsucceeds c hc).2 hne)
    rw [hnil] at htakes
    exact htakes.2

/-- A fact that binds its first argument and clashes at the second, before a rule that succeeds: the
query leaves what the rule leaves. -/
theorem query_eq_first_clause_after_clash :
    ∃ db : Database Nat Nat, db.Reachable ∧ db.config.maxDepth = some 1 ∧
      db.argsFault? 2 [⟨5⟩, ⟨6⟩] = none ∧ db.program.declared 2 = [⟨1⟩, ⟨2⟩] ∧
      ¬ db.ClauseSucceeds ⟨1⟩ [⟨5⟩, ⟨6⟩] ∧
      ∃ o o', db.query 20 2 2 [⟨5⟩, ⟨6⟩] = some o ∧ db.askClause 20 ⟨2⟩ [⟨5⟩, ⟨6⟩] = some o' ∧
        o.result = true ∧ o.db = o'.db := by
  obtain ⟨db, hreachable, hlimit, haccepted, hdeclared, hfact, hunify, hrule, hquery⟩ :=
    exists_reachable ⟨some 1, false⟩ 0
    [.addFact 0 [5], .addFact 2 [7, 8], .addRule 2 [.fresh, .fresh], .addGoal ⟨2⟩ 0 [.param 0],
      .addVar, .addConstant 9]
    (fun db : Database Nat Nat => db.config.maxDepth = some 1 ∧
      db.argsFault? 2 [⟨5⟩, ⟨6⟩] = none ∧ db.program.declared 2 = [⟨1⟩, ⟨2⟩] ∧
      (db.program.fact? ⟨1⟩).isSome = true ∧ (db.unify ⟨1⟩ [⟨5⟩, ⟨6⟩]).result = false ∧
      (db.askClause 20 ⟨2⟩ [⟨5⟩, ⟨6⟩]).any (·.result) = true ∧
      (db.query 20 2 2 [⟨5⟩, ⟨6⟩]).isSome = true)
    (by decide +kernel)
  obtain ⟨f, hf⟩ := Option.isSome_iff_exists.1 hfact
  have hclash : ¬ db.ClauseSucceeds ⟨1⟩ [⟨5⟩, ⟨6⟩] := by
    rintro ⟨rounds, o, ho, hresult⟩
    simp only [askClause, Program.clause?_of_fact? hf] at ho
    rw [← Option.some.inj ho, hunify] at hresult
    cases hresult
  obtain ⟨o', ho', hresult'⟩ := (Option.any_eq_true _ _).1 hrule
  obtain ⟨o, ho⟩ := Option.isSome_iff_exists.1 hquery
  obtain ⟨-, -, hreply⟩ := query_eq_first_clause hreachable hlimit haccepted 2
  obtain ⟨hiff, hfirst, -⟩ := hreply 20 o ho
  refine ⟨db, hreachable, hlimit, haccepted, hdeclared, hclash, o, o', ho, ho', ?_, ?_⟩
  · exact hiff.2 ⟨⟨2⟩, by simp [hdeclared], 20, o', ho', hresult'⟩
  · exact hfirst [⟨1⟩] ⟨2⟩ [] hdeclared (by simpa using hclash) 20 o' ho' hresult'

end Database

end Hornbase
