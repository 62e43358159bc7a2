import Hornbase.Proofs.Validity

/-!
# What commands do to a database

`Database.Edit` lists the changes that a command can make: it changes the pool and keeps what is
fixed, adds a valid clause, or gives a rule further variables and goals. `edit_exec` goes through
the commands once, and what holds of all reachable databases is then shown for the three kinds of
edits. Here it is shown that their programs are valid, and that the index lists the clauses of a
name in the order of declaration.
-/

namespace Hornbase

universe u v

variable {N : Type u} {V : Type v}

/-! ## The order of declaration -/

namespace Program

variable [DecidableEq N]

/-- The clauses of a name in the order of declaration. -/
def declared (prog : Program N) (name : N) : List ClauseId :=
  ((List.range prog.size).map ClauseId.mk).filter fun id =>
    (prog.clause? id).any fun clause => decide (clause.name = name)

/-- Whether the index lists the clauses of each name in the order of declaration. -/
def Indexed (prog : Program N) : Prop := ∀ name, prog.candidates name = prog.declared name

/-- The index lists stored clauses only. -/
theorem Indexed.exists_clause? {prog : Program N} (h : prog.Indexed) {name : N} {id : ClauseId}
    (hid : id ∈ prog.candidates name) : ∃ clause, prog.clause? id = some clause := by
  rw [h name] at hid
  obtain ⟨clause, hclause, -⟩ := (Option.any_eq_true _ _).1 (List.mem_filter.1 hid).2
  exact ⟨clause, hclause⟩

/-- The index lists a clause under its own name. -/
theorem Indexed.name_eq {prog : Program N} (h : prog.Indexed) {name : N} {id : ClauseId}
    (hid : id ∈ prog.candidates name) {clause : Clause N}
    (hclause : prog.clause? id = some clause) : clause.name = name := by
  rw [h name] at hid
  have hname := (List.mem_filter.1 hid).2
  rw [hclause] at hname
  exact of_decide_eq_true hname

/-- A new clause is the last of its name. -/
theorem declared_add (prog : Program N) (c : Clause N) (name : N) :
    (prog.add c).2.declared name =
      if name = c.name then prog.declared name ++ [prog.nextId] else prog.declared name := by
  have hsize : (prog.add c).2.size = prog.size + 1 := by simp [add, size]
  have hold : ∀ id ∈ (List.range prog.size).map ClauseId.mk,
      (prog.add c).2.clause? id = prog.clause? id := by
    intro id hid
    obtain ⟨i, hi, rfl⟩ := List.mem_map.1 hid
    have hne : ClauseId.mk i ≠ prog.nextId := by
      rintro heq
      obtain rfl := ClauseId.mk.inj heq
      exact absurd (List.mem_range.1 hi) (Nat.lt_irrefl _)
    rw [clause?_add, if_neg hne]
  have hnew : (prog.add c).2.clause? prog.nextId = some c := by rw [clause?_add, if_pos rfl]
  -- The positions before the new one are filtered as they were.
  rw [declared, hsize, List.range_succ, List.map_append, List.filter_append]
  rw [List.filter_congr fun id hid => by rw [hold id hid]]
  change prog.declared name ++ List.filter _ [prog.nextId] = _
  by_cases hname : name = c.name
  · have hlast : decide (c.name = name) = true := decide_eq_true hname.symm
    rw [if_pos hname, List.filter_cons_of_pos (by rw [hnew]; exact hlast), List.filter_nil]
  · have hlast : ¬ decide (c.name = name) = true := fun h => hname (of_decide_eq_true h).symm
    rw [if_neg hname, List.filter_cons_of_neg (by rw [hnew]; exact hlast), List.filter_nil,
      List.append_nil]

/-- A rule of the same name takes the place of another in the order. -/
theorem declared_setRule {prog : Program N} {id : ClauseId} {r r' : Rule N}
    (hr : prog.rule? id = some r) (hname : r'.name = r.name) (name : N) :
    (prog.setRule id r').declared name = prog.declared name := by
  have hsize : (prog.setRule id r').size = prog.size := by simp [setRule, size]
  rw [declared, hsize, declared]
  refine List.filter_congr fun i _ => ?_
  rw [clause?_setRule]
  split
  · next heq =>
    rw [heq, clause?_of_rule? hr]
    change decide (r'.name = name) = decide (r.name = name)
    rw [hname]
  · rfl

/-- Adding a clause keeps the index in order. -/
theorem Indexed.add {prog : Program N} (h : prog.Indexed) (c : Clause N) :
    (prog.add c).2.Indexed := by
  intro name
  rw [candidates_add, declared_add, h name]

end Program

/-- The terms that a command asks about; `none` if it declares or edits. -/
def Command.asked? : Command N V → Option (List TermId)
  | .query _ _ args | .tryQuery _ _ args | .queryAll _ _ args => some args
  | .unify _ args | .resolve _ args => some args
  | .addFact .. | .addRule .. | .addRuleVar .. | .addGoal .. => none
  | .addVar | .addConstant .. | .bind .. | .unbind .. => none

/-- Whether a reply says that what was asked holds. A question that may say why it failed replies
`done`. The list of all answers is no success: no answer is left standing. -/
def Reply.succeeds : Reply V → Bool
  | .verdict holds => holds
  | .done => true
  | _ => false

/-! ## Kinds of edits -/

namespace Database

/-- Whether the program of a database is valid in its pool. -/
def Valid (db : Database N V) : Prop := db.program.Valid db.pool

/-- What a command can do to a database. -/
inductive Edit [DecidableEq N] (db : Database N V) : Database N V → Prop
  /-- Terms are added, bound or cleared, and what is fixed stays. -/
  | pool {p : Pool V} : db.pool.Keeps p → Edit db { db with pool := p }
  /-- A clause is added. -/
  | clause {p : Pool V} {c : Clause N} : db.pool.Keeps p → c.Valid p →
      Edit db ⟨(db.program.add c).2, p, db.config⟩
  /-- A rule gets further variables or goals. -/
  | rule {p : Pool V} {id : ClauseId} {r r' : Rule N} : db.pool.Keeps p →
      db.program.rule? id = some r → r.Extends r' → r'.Valid p →
      Edit db ⟨db.program.setRule id r', p, db.config⟩

variable [DecidableEq N]

/-- Nothing is done to a database. -/
theorem Edit.refl (db : Database N V) : db.Edit db := .pool (.refl db.pool)

/-- An edit keeps a database valid. -/
theorem Edit.valid {db db' : Database N V} (h : db.Edit db') (hdb : db.Valid) : db'.Valid := by
  cases h with
  | pool hkeeps => exact Program.Valid.mono hkeeps hdb
  | clause hkeeps hc => exact (Program.Valid.mono hkeeps hdb).add hc
  | rule hkeeps _ _ hr' => exact (Program.Valid.mono hkeeps hdb).setRule hr'

/-- An edit keeps the index in order. -/
theorem Edit.indexed {db db' : Database N V} (h : db.Edit db') (hdb : db.program.Indexed) :
    db'.program.Indexed := by
  cases h with
  | pool _ => exact hdb
  | clause _ _ => exact hdb.add _
  | rule _ hr hextends _ =>
    intro name
    rw [Program.declared_setRule hr hextends.name_eq]
    exact hdb name

/-! ## What commands come down to -/

section

variable {db db' : Database N V}

/-- What a command that asks nothing can make of a database: the outcome of one of its operations,
or nothing new if the command is refused. -/
inductive Declares [BEq V] (db : Database N V) : Database N V → Prop
  | refused : Declares db db
  | fact (name : N) (vs : List V) : Declares db (db.addFact name vs).db
  | rule {name : N} {params : List (Arg V)} {o : Outcome N V ClauseId} :
      db.addRule name params = .ok o → Declares db o.db
  | ruleVar {c : ClauseId} {o : Outcome N V TermId} : db.addRuleVar c = .ok o → Declares db o.db
  | goal {c : ClauseId} {name : N} {args : List (Arg V)} {o : Outcome N V Unit} :
      db.addGoal c name args = .ok o → Declares db o.db
  | term (t : Term V) : Declares db { db with pool := (db.pool.addFree t).2 }
  | bind {t : TermId} {v : V} {db' : Database N V} : db.bind t v = .ok db' → Declares db db'
  | unbind {t : TermId} {db' : Database N V} : db.unbind t = .ok db' → Declares db db'

/-- A command that asks nothing does what its operation does. -/
theorem declares_exec [BEq V] {rounds : Nat} {command : Command N V} {o : Outcome N V (Reply V)}
    (h : db.exec rounds command = some o) (hasked : command.asked? = none) : db.Declares o.db := by
  -- A request that can be refused is looked at only where it is not.
  have hrefusable : ∀ r : Except Error (Outcome N V (Reply V)), db.orRefused r = o →
      (∀ o', r = .ok o' → db.Declares o'.db) → db.Declares o.db := by
    rintro (e | o') rfl hr
    · exact .refused
    · exact hr o' rfl
  cases command with
  | addFact name vs =>
    obtain rfl := Option.some.inj h
    exact .fact name vs
  | addRule name params =>
    refine hrefusable _ (Option.some.inj h) fun o ho => ?_
    obtain ⟨o', ho', rfl⟩ := Except.map_eq_ok ho
    exact .rule ho'
  | addRuleVar c =>
    refine hrefusable _ (Option.some.inj h) fun o ho => ?_
    obtain ⟨o', ho', rfl⟩ := Except.map_eq_ok ho
    exact .ruleVar ho'
  | addGoal c name args =>
    refine hrefusable _ (Option.some.inj h) fun o ho => ?_
    obtain ⟨o', ho', rfl⟩ := Except.map_eq_ok ho
    exact .goal ho'
  | addVar =>
    obtain rfl := Option.some.inj h
    exact .term .unbound
  | addConstant v =>
    obtain rfl := Option.some.inj h
    exact .term (.bound v)
  | bind t v =>
    refine hrefusable _ (Option.some.inj h) fun o ho => ?_
    obtain ⟨db', hdb', rfl⟩ := Except.map_eq_ok ho
    exact .bind hdb'
  | unbind t =>
    refine hrefusable _ (Option.some.inj h) fun o ho => ?_
    obtain ⟨db', hdb', rfl⟩ := Except.map_eq_ok ho
    exact .unbind hdb'
  | query | tryQuery | queryAll | unify | resolve => cases hasked

/-- What a question about `args` can make of a database, and whether it succeeds. -/
inductive Asks [BEq V] (db : Database N V) (args : List TermId) : Bool → Database N V → Prop
  | tryQuery {rounds : Nat} {name : N} {arity : Nat} {o : Outcome N V (Except Failure Unit)} :
      db.tryQuery rounds name arity args = some o → Asks db args o.result.toBool o.db
  | queryAll {rounds : Nat} {name : N} {arity : Nat} {o : Outcome N V (List (Answer V))} :
      db.queryAll rounds name arity args = some o → Asks db args false o.db
  | unify (c : ClauseId) : Asks db args (db.unify c args).result (db.unify c args).db
  | resolve {rounds : Nat} {c : ClauseId} {o : Outcome N V Bool} :
      db.resolve rounds c args = some o → Asks db args o.result o.db

/-- A command that asks something does what its operation does. -/
theorem asks_exec [BEq V] {args : List TermId} {rounds : Nat} {command : Command N V}
    {o : Outcome N V (Reply V)} (h : db.exec rounds command = some o)
    (hasked : command.asked? = some args) : db.Asks args o.result.succeeds o.db := by
  cases command with
  | query name arity args' =>
    obtain rfl := Option.some.inj hasked
    simp only [exec, query, Option.map_map] at h
    obtain ⟨o', ho', rfl⟩ := Option.map_eq_some_iff.1 h
    exact .tryQuery ho'
  | tryQuery name arity args' =>
    obtain rfl := Option.some.inj hasked
    obtain ⟨o', ho', rfl⟩ := Option.map_eq_some_iff.1 h
    -- A reply says that the query has succeeded if there was no failure.
    have hsucceeds : (Reply.ofTry o'.result : Reply V).succeeds = o'.result.toBool := by
      cases o'.result <;> rfl
    show db.Asks args' (Reply.ofTry o'.result : Reply V).succeeds o'.db
    rw [hsucceeds]
    exact .tryQuery ho'
  | queryAll name arity args' =>
    obtain rfl := Option.some.inj hasked
    obtain ⟨o', ho', rfl⟩ := Option.map_eq_some_iff.1 h
    exact .queryAll ho'
  | unify c args' =>
    obtain rfl := Option.some.inj h
    obtain rfl := Option.some.inj hasked
    exact .unify c
  | resolve c args' =>
    obtain rfl := Option.some.inj hasked
    obtain ⟨o', ho', rfl⟩ := Option.map_eq_some_iff.1 h
    exact .resolve ho'
  | addFact | addRule | addRuleVar | addGoal | addVar | addConstant | bind | unbind => cases hasked

/-! ## Declarations that are carried out -/

/-- Adding a fact finds one that may stand for it and changes nothing, or stores what it is
given. -/
theorem addFact_found_or [BEq V] (db : Database N V) (name : N) (vs : List V) :
    (findFact? db.program (db.pool.addTuple vs).2 name (db.pool.addTuple vs).1
        = some (db.addFact name vs).result ∧ (db.addFact name vs).db = db) ∨
      (db.addFact name vs).result = db.program.nextId ∧
        (db.addFact name vs).db = ⟨(db.program.add (.fact ⟨name, (db.pool.addTuple vs).1⟩)).2,
          (db.pool.addTuple vs).2, db.config⟩ := by
  obtain ⟨program, pool, config⟩ := db
  simp only [Database.addFact]
  split
  · next c hc =>
    refine .inl ⟨?_, by rw [pool.truncate_addTuple vs]⟩
    split at hc
    · exact hc
    · cases hc
  · exact .inr ⟨rfl, rfl⟩

/-- Adding a rule checks its head, and stores what it declares. -/
theorem addRule_eq_ok {name : N} {params : List (Arg V)} {o : Outcome N V ClauseId}
    (h : db.addRule name params = .ok o) :
    Rule.checkHead db.program.nextId 0 params = .ok () ∧ o.result = db.program.nextId ∧
      o.db = ⟨(db.program.add (.rule (Rule.declareHead params { name } db.pool).1)).2,
        (Rule.declareHead params { name } db.pool).2, db.config⟩ := by
  unfold Database.addRule at h
  split at h
  · cases h
  · next hcheck =>
    obtain rfl := Except.ok.inj h
    exact ⟨hcheck, rfl, rfl⟩

omit [DecidableEq N] in
/-- A further variable of a rule is a new term. -/
theorem addRuleVar_eq_ok {c : ClauseId} {o : Outcome N V TermId} (h : db.addRuleVar c = .ok o) :
    ∃ r, db.program.rule? c = some r ∧ o.result = (db.pool.addOwned .unbound).1 ∧
      o.db = ⟨db.program.setRule c (r.addVar (db.pool.addOwned .unbound).1).2,
        (db.pool.addOwned .unbound).2, db.config⟩ := by
  unfold Database.addRuleVar at h
  split at h
  · cases h
  · next r hr =>
    obtain rfl := Except.ok.inj h
    exact ⟨r, hr, rfl, rfl⟩

omit [DecidableEq N] in
/-- A further goal of a rule is what its arguments declare. -/
theorem addGoal_eq_ok {c : ClauseId} {name : N} {args : List (Arg V)} {o : Outcome N V Unit}
    (h : db.addGoal c name args = .ok o) :
    ∃ r os r' q, db.program.rule? c = some r ∧
      Rule.DeclaresArgs args r db.pool os r' q ∧
      o.db = ⟨db.program.setRule c (r'.addGoal ⟨name, os⟩), q, db.config⟩ := by
  unfold Database.addGoal at h
  split at h
  · cases h
  · next r hr =>
    split at h
    · cases h
    · split at h
      · cases h
      · next os r' q hgoal =>
        obtain rfl := Except.ok.inj h
        exact ⟨r, os, r', q, hr, Rule.declaresArgs_of_declareGoal hgoal, rfl⟩

/-! ## The edit of each command -/

theorem edit_bind [BEq V] {t : TermId} {v : V} (h : db.bind t v = .ok db') : db.Edit db' := by
  unfold Database.bind at h
  split at h
  · cases h
  · split at h
    · next p hp =>
      obtain rfl := Except.ok.inj h
      exact .pool (Pool.keeps_of_bind hp _)
    · cases h
    · cases h

theorem edit_unbind {t : TermId} (h : db.unbind t = .ok db') : db.Edit db' := by
  unfold Database.unbind at h
  split at h
  · cases h
  · next howned =>
    split at h
    · obtain rfl := Except.ok.inj h
      exact .pool (Pool.keeps_clear (Bool.eq_false_iff.2 howned))
    · cases h

theorem edit_addRuleVar (hdb : db.Valid) {c : ClauseId} {o : Outcome N V TermId}
    (h : db.addRuleVar c = .ok o) : db.Edit o.db := by
  obtain ⟨rule, hrule, -, hadded⟩ := addRuleVar_eq_ok h
  have hkeeps := db.pool.keeps_push ⟨.unbound, true⟩
  have hvalid := (hdb.rule (Program.clause?_of_rule? hrule)).mono hkeeps
  rw [hadded]
  exact .rule hkeeps hrule (rule.extends_addVar _) (hvalid.addVar _)

theorem edit_addGoal (hdb : db.Valid) {c : ClauseId} {name : N} {args : List (Arg V)}
    {o : Outcome N V Unit} (h : db.addGoal c name args = .ok o) : db.Edit o.db := by
  obtain ⟨rule, os, rule', p, hrule, hgoal, hadded⟩ := addGoal_eq_ok h
  have hvalid := hdb.rule (Program.clause?_of_rule? hrule)
  obtain ⟨hkeeps, hvalid', hextends, hos⟩ := hgoal.valid hvalid
  rw [hadded]
  refine .rule hkeeps hrule (hextends.trans (rule'.extends_addGoal _))
    ⟨hvalid'.params, fun g hg => ?_⟩
  rcases List.mem_append.1 hg with hold | hnew
  · exact hvalid'.body g hold
  · obtain rfl := List.mem_singleton.1 hnew
    exact hos

theorem edit_addFact [BEq V] (db : Database N V) (name : N) (vs : List V) :
    db.Edit (db.addFact name vs).db := by
  rcases db.addFact_found_or name vs with ⟨-, hsame⟩ | ⟨-, hadded⟩
  · rw [hsame]
    exact .refl _
  · rw [hadded]
    exact .clause (db.pool.keeps_addTuple vs) (db.pool.fixed_addTuple vs)

theorem edit_addRule {name : N} {params : List (Arg V)} {o : Outcome N V ClauseId}
    (h : db.addRule name params = .ok o) : db.Edit o.db := by
  obtain ⟨-, -, hadded⟩ := addRule_eq_ok h
  have hempty : ({ name } : Rule N).Valid db.pool := ⟨nofun, nofun⟩
  obtain ⟨hkeeps, hvalid⟩ := Rule.declareHead_valid params hempty
  rw [hadded]
  exact .clause hkeeps hvalid

variable [BEq V]

theorem edit_prove {rounds : Nat} {clauses : List ClauseId} {args : List TermId}
    {o : Outcome N V Bool} (h : db.prove rounds clauses args = some o) : db.Edit o.db := by
  obtain ⟨t, _, hgrows, hdb⟩ := prove_eq_some h
  rw [hdb]
  refine .pool ?_
  split
  · exact hgrows.keeps_kept
  · exact .refl _

theorem edit_tryQuery {rounds : Nat} {name : N} {arity : Nat} {args : List TermId}
    {o : Outcome N V (Except Failure Unit)} (h : db.tryQuery rounds name arity args = some o) :
    db.Edit o.db := by
  unfold Database.tryQuery at h
  split at h
  · obtain rfl := Option.some.inj h
    exact .refl db
  · obtain ⟨p, hp, rfl⟩ := Option.map_eq_some_iff.1 h
    exact edit_prove hp

theorem edit_unify (db : Database N V) (c : ClauseId) (args : List TermId) :
    db.Edit (db.unify c args).db := by
  unfold Database.unify
  split
  · exact .refl db
  · split
    · exact .refl db
    · exact .pool (Pool.unify_grows db.pool _).1.keeps

theorem edit_resolve {rounds : Nat} {c : ClauseId} {args : List TermId} {o : Outcome N V Bool}
    (h : db.resolve rounds c args = some o) : db.Edit o.db := by
  unfold Database.resolve at h
  split at h
  · obtain rfl := Option.some.inj h
    exact .refl db
  · split at h
    · obtain rfl := Option.some.inj h
      exact .refl db
    · exact edit_prove h

/-- A command that asks nothing is an edit. -/
theorem Declares.edit (hdb : db.Valid) (h : db.Declares db') : db.Edit db' := by
  cases h with
  | refused => exact .refl db
  | fact name vs => exact db.edit_addFact name vs
  | rule ho => exact edit_addRule ho
  | ruleVar ho => exact edit_addRuleVar hdb ho
  | goal ho => exact edit_addGoal hdb ho
  | term t => exact .pool (db.pool.keeps_push _)
  | bind hdb' => exact edit_bind hdb'
  | unbind hdb' => exact edit_unbind hdb'

/-- A question is an edit. -/
theorem Asks.edit {args : List TermId} {succeeds : Bool} (h : db.Asks args succeeds db') :
    db.Edit db' := by
  cases h with
  | tryQuery ho => exact edit_tryQuery ho
  | queryAll ho =>
    rw [(queryAll_eq_some ho).1]
    exact .refl db
  | unify c => exact db.edit_unify c args
  | resolve ho => exact edit_resolve ho

/-- Every command is an edit. -/
theorem edit_exec (hdb : db.Valid) {rounds : Nat} {command : Command N V}
    {o : Outcome N V (Reply V)} (h : db.exec rounds command = some o) : db.Edit o.db := by
  cases hasked : command.asked? with
  | none => exact (declares_exec h hasked).edit hdb
  | some args => exact (asks_exec h hasked).edit

end

/-! ## Reachable databases -/

variable [BEq V]

/-- Every reachable database is valid. -/
theorem Reachable.valid {db : Database N V} (h : db.Reachable) : db.Valid := by
  induction h with
  | empty config =>
    intro id clause hid
    simp [Database.empty, Program.clause?] at hid
  | exec _ ho ih => exact (edit_exec ih ho).valid ih

/-- In every reachable database the index lists the clauses of each name in the order of
declaration. -/
theorem Reachable.indexed {db : Database N V} (h : db.Reachable) : db.program.Indexed := by
  induction h with
  | empty config => exact fun _ => rfl
  | exec hdb ho ih => exact (edit_exec hdb.valid ho).indexed ih

end Database

end Hornbase
