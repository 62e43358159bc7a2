import Hornbase.Proofs.Changes
import Hornbase.Proofs.Templates
import Mathlib.Data.List.Dedup

/-!
# What a database is made of

Searches rely on more than the types of a database say: that no binding is left on record, that the
index lists each clause once, that no two clauses share a term and that none is without an owner,
and that the head, the parameters and the variables of a rule fit together. `Represents` says all of
this of a database and the commands that led to it, and `History.represents` shows it of every
database that commands lead to.

Who owns what is kept by each of the three changes (`Program.Owns.change`): a change makes all terms
that it adds terms of one clause.
-/

namespace Hornbase

universe u v

variable {N : Type u} {V : Type v}

/-- The ownership flags of all terms, in the order of their handles. -/
def Pool.flags (p : Pool V) : List Bool := p.cells.toList.map (·.owned)

/-! ## Owners -/

namespace Program

/-- Whether `t` is a term of the clause `c`. -/
def Mentions (prog : Program N) (c : ClauseId) (t : TermId) : Prop :=
  ∃ clause, prog.clause? c = some clause ∧ t ∈ clause.terms

/-- Whether the terms that a pool marks as owned are the terms of the clauses, and no two clauses
share one. -/
structure Owns (prog : Program N) (p : Pool V) : Prop where
  isOwned_iff : ∀ t, p.isOwned t = true ↔ ∃ c, prog.Mentions c t
  unique : ∀ t c c', prog.Mentions c t → prog.Mentions c' t → c = c'

/-- Whether all rules have their shape. -/
def Shaped (prog : Program N) : Prop := ∀ c r, prog.clause? c = some (.rule r) → r.Shaped

/-- When the terms that a pool gets all go to one clause, they have one owner each, as the
others. -/
theorem Owns.supply {prog prog' : Program N} {p q : Pool V} (h : prog.Owns p) (hpool : p.Supplies q)
    (id : ClauseId)
    (hmentions : ∀ c t, prog'.Mentions c t ↔ prog.Mentions c t ∨ c = id ∧ p.IsNew q t) :
    prog'.Owns q where
  isOwned_iff t := by
    rw [hpool.isOwned_iff, h.isOwned_iff]
    simp only [hmentions, exists_or, exists_eq_left]
  unique t c c' hc hc' := by
    have hold : ∀ c, prog.Mentions c t → ¬ p.IsNew q t := by
      intro c hc hnew
      have hlt := Pool.lt_of_isOwned ((h.isOwned_iff t).2 ⟨c, hc⟩)
      exact absurd hlt (Nat.not_lt.2 hnew.1)
    -- A term that was mentioned is not new, and the new ones belong to one clause.
    rcases (hmentions c t).1 hc with hc | ⟨rfl, hnew⟩ <;>
      rcases (hmentions c' t).1 hc' with hc' | ⟨rfl, hnew'⟩
    · exact h.unique t c c' hc hc'
    · exact absurd hnew' (hold c hc)
    · exact absurd hnew (hold c' hc')
    · rfl

/-- A rule of an owned program has its templates in the pool. -/
theorem Owns.locals_lt {prog : Program N} {p : Pool V} (h : prog.Owns p) {c : ClauseId} {r : Rule N}
    (hr : prog.clause? c = some (.rule r)) : ∀ t ∈ r.locals, t.index < p.size := fun t ht =>
  Pool.lt_of_isOwned ((h.isOwned_iff t).2 ⟨c, _, hr, Rule.mem_terms.2 (.inr (.inl ht))⟩)

/-- The terms of a further clause are mentioned beside the others. -/
theorem mentions_add [DecidableEq N] (prog : Program N) (clause : Clause N) (c : ClauseId)
    (t : TermId) :
    (prog.add clause).2.Mentions c t ↔ prog.Mentions c t ∨ c = prog.nextId ∧ t ∈ clause.terms := by
  simp only [Mentions, clause?_add]
  split
  · next heq =>
    subst heq
    simp [clause?_nextId]
  · next hne => simp [hne]

/-- A rule that takes terms mentions them beside what is mentioned. -/
theorem mentions_setRule {prog : Program N} {id : ClauseId} {r r' : Rule N} {p q : Pool V}
    (hr : prog.rule? id = some r) (htakes : r.Takes p r' q) (c : ClauseId) (t : TermId) :
    (prog.setRule id r').Mentions c t ↔ prog.Mentions c t ∨ c = id ∧ p.IsNew q t := by
  have hclause := clause?_of_rule? hr
  simp only [Mentions, clause?_setRule]
  split
  · next heq =>
    subst heq
    simp [hclause, htakes.terms_iff]
  · next hne => simp [hne]

variable [DecidableEq N] {db db' : Database N V} {declared : Option N}
  {extended : Option ClauseId}

/-- A change gives each term that it adds one owner, and takes none from its owner. -/
theorem Owns.change (h : db.program.Owns db.pool) (hchange : db.Change declared extended db') :
    db'.program.Owns db'.pool := by
  cases hchange with
  | pool hpool => exact ⟨fun t => (hpool.isOwned_eq t ▸ h.isOwned_iff t :), h.unique⟩
  | clause _ hpool hterms _ =>
    refine h.supply hpool db.program.nextId fun c t => ?_
    rw [mentions_add, hterms]
  | rule _ hr htakes _ _ _ => exact h.supply htakes.pool _ (mentions_setRule hr htakes)

/-- A change keeps all rules in shape. -/
theorem Shaped.change (h : db.program.Shaped) (howns : db.program.Owns db.pool)
    (hchange : db.Change declared extended db') : db'.program.Shaped := by
  cases hchange with
  | pool _ => exact h
  | clause _ _ _ hshaped =>
    intro c r hr
    rw [clause?_add] at hr
    split at hr
    · -- The clause that was added, or one that was there.
      exact hshaped r (Option.some.inj hr)
    · exact h c r hr
  | rule _ hold _ hextends hhead hnodup =>
    intro c r hr
    rw [clause?_setRule] at hr
    split at hr
    · -- The rule that was extended: its new locals are new terms, so none is given twice.
      obtain ⟨_, -, hrule⟩ := Option.map_eq_some_iff.1 hr
      obtain rfl := Clause.rule.inj hrule
      have hclause := clause?_of_rule? hold
      have hshaped := h _ _ hclause
      exact hshaped.extend hextends hhead (hnodup hshaped.locals_nodup (howns.locals_lt hclause))
    · exact h c r hr

end Program

/-! ## Rules -/

/-- Whether a head fits its parameters and variables, and operands refer to variables that there
are. -/
structure Rule.Fits (r : Rule N) : Prop where
  length_eq : r.head.length = r.params.length
  locals_nodup : r.locals.Nodup
  /-- The variables of the head come before all others. -/
  head_first : ∀ m n, m ≤ n → .var n ∈ r.params → .var m ∈ r.params
  var_lt_of_params : ∀ n, .var n ∈ r.params → n < r.locals.length
  var_lt_of_body : ∀ g ∈ r.body, ∀ n, .var n ∈ g.args → n < r.locals.length
  head_var : ∀ (i n : Nat), r.params[i]? = some (.var n) → r.head[i]? = r.locals[n]?
  head_const : ∀ (i : Nat) (t : TermId), r.params[i]? = some (.const t) → r.head[i]? = some t

/-- A rule that has its shape, and whose operands are valid, fits. -/
theorem Rule.Shaped.fits {r : Rule N} {p : Pool V} (h : r.Shaped) (hvalid : r.Valid p) :
    r.Fits where
  length_eq := by simpa using (congrArg List.length h.head_eq).symm
  locals_nodup := h.locals_nodup
  head_first := h.first
  var_lt_of_params n hn := hvalid.params _ hn
  var_lt_of_body g hg n hn := hvalid.body g hg _ hn
  head_var _ _ hi := Rule.getElem?_head h.head_eq hi
  head_const _ _ hi := Rule.getElem?_head h.head_eq hi

/-! ## The index -/

namespace Program

variable [DecidableEq N]

/-- The index of a new clause has no name that the old one does not have, but that of the clause. -/
theorem mem_names_enlist {name n : N} {c : ClauseId} {index : List (N × List ClauseId)}
    (h : n ∈ (enlist name c index).map (·.1)) : n = name ∨ n ∈ index.map (·.1) := by
  induction index with
  | nil => exact .inl (List.mem_singleton.1 h)
  | cons entry rest ih =>
    obtain ⟨m, cs⟩ := entry
    simp only [enlist] at h
    split at h
    · exact .inr h
    · rcases List.mem_cons.1 h with rfl | h
      · exact .inr (List.mem_cons_self ..)
      · exact (ih h).imp_right (List.mem_cons_of_mem _)

/-- The index has each name once. -/
theorem nodup_names_enlist {name : N} {c : ClauseId} {index : List (N × List ClauseId)}
    (h : (index.map (·.1)).Nodup) : ((enlist name c index).map (·.1)).Nodup := by
  induction index with
  | nil => exact List.nodup_singleton _
  | cons entry rest ih =>
    obtain ⟨m, cs⟩ := entry
    obtain ⟨hnot, hrest⟩ := List.nodup_cons.1 h
    simp only [enlist]
    split
    · exact h
    · next hne =>
      refine List.nodup_cons.2 ⟨fun hmem => ?_, ih hrest⟩
      rcases mem_names_enlist hmem with heq | hmem
      · exact hne heq
      · exact hnot hmem

/-- A change files no name twice. -/
theorem nodup_names_change {db db' : Database N V} {declared : Option N}
    {extended : Option ClauseId} (hchange : db.Change declared extended db')
    (h : (db.program.index.map (·.1)).Nodup) : (db'.program.index.map (·.1)).Nodup := by
  cases hchange with
  | pool _ | rule => exact h
  | clause => exact nodup_names_enlist h

/-- Every clause is listed under its name, and under no other. -/
theorem Indexed.mem_candidates_iff {prog : Program N} (h : prog.Indexed) {name : N} {c : ClauseId} :
    c ∈ prog.candidates name ↔ ∃ clause, prog.clause? c = some clause ∧ clause.name = name := by
  rw [h name]
  simp only [declared, List.mem_filter, Option.any_eq_true, decide_eq_true_eq,
    and_iff_right_iff_imp, forall_exists_index, and_imp]
  intro clause hclause _
  exact List.mem_map.2 ⟨c.index, List.mem_range.2 (Array.getElem?_eq_some_iff.1 hclause).1, rfl⟩

/-- The clauses of a name are listed in the order of their numbers. -/
theorem Indexed.pairwise_candidates {prog : Program N} (h : prog.Indexed) (name : N) :
    (prog.candidates name).Pairwise fun c c' => c.index < c'.index := by
  rw [h name]
  refine List.Pairwise.filter _ (List.pairwise_map.2 ?_)
  exact List.pairwise_lt_range

end Program

/-! ## What has been added -/

/-- The clause that a command of the past has added under `name`, or has found stored under it. -/
def addedAs? [DecidableEq N] (name : N) : Command N V × Reply V → Option ClauseId
  | (command, .clause c) => if command.declared? = some name then some c else none
  | _ => none

/-- The clauses that commands of the past, of which the latest comes first, have added under `name`:
all that they gave numbers for, in the order in which each number was given first. -/
def addedUnder [DecidableEq N] (name : N) (past : List (Command N V × Reply V)) : List ClauseId :=
  (past.filterMap (addedAs? name)).dedup.reverse

namespace Database

variable [DecidableEq N] {db db' : Database N V} {declared : Option N}
  {extended : Option ClauseId}

/-- A change that adds no clause lists none. -/
theorem Change.candidates_eq (h : db.Change declared extended db') {name : N}
    (hname : declared ≠ some name) : db'.program.candidates name = db.program.candidates name := by
  cases h with
  | pool _ | rule => rfl
  | @clause q c hdeclared _ _ _ =>
    rw [Program.candidates_add, if_neg]
    rintro rfl
    exact hname hdeclared

/-- A number that is given is on the list of its name already, or comes to stand at the end of
it. -/
def Lists (db : Database N V) (name : N) (c : ClauseId) (db' : Database N V) : Prop :=
  if c ∈ db.program.candidates name
    then db'.program.candidates name = db.program.candidates name
    else db'.program.candidates name = db.program.candidates name ++ [c]

/-- A new clause comes to stand at the end of the list of its name. -/
theorem lists_add (hindexed : db.program.Indexed) (clause : Clause N) (q : Pool V) :
    db.Lists clause.name db.program.nextId ⟨(db.program.add clause).2, q, db.config⟩ := by
  have hnew : db.program.nextId ∉ db.program.candidates clause.name := by
    intro hmem
    obtain ⟨_, hclause⟩ := hindexed.exists_clause? hmem
    rw [Program.clause?_nextId] at hclause
    cases hclause
  rw [Lists, if_neg hnew, Program.candidates_add, if_pos rfl]

variable [BEq V]

theorem lists_addFact (hindexed : db.program.Indexed) (name : N) (vs : List V) :
    db.Lists name (db.addFact name vs).result (db.addFact name vs).db := by
  rcases db.addFact_found_or name vs with ⟨hfound, hsame⟩ | ⟨hid, hadded⟩
  · rw [hsame, Lists, if_pos (List.mem_of_find?_eq_some hfound)]
  · rw [hid, hadded]
    exact lists_add hindexed (.fact ⟨name, _⟩) _

omit [BEq V] in
theorem lists_addRule (hindexed : db.program.Indexed) {name : N} {params : List (Arg V)}
    {o : Outcome N V ClauseId} (h : db.addRule name params = .ok o) :
    db.Lists name o.result o.db := by
  obtain ⟨-, hid, hadded⟩ := addRule_eq_ok h
  have hlists := lists_add hindexed (.rule (Rule.declareHead params { name } db.pool).1)
    (Rule.declareHead params { name } db.pool).2
  rw [show (Clause.rule (Rule.declareHead params { name } db.pool).1).name = name from
    Rule.declareHead_name params _ _] at hlists
  rw [hid, hadded]
  exact hlists

/-- A command lists no clause but the one that its reply names, under the name that it declares. -/
theorem candidates_exec (hdb : db.Reachable) {rounds : Nat} {command : Command N V}
    {o : Outcome N V (Reply V)} (h : db.exec rounds command = some o) (name : N) :
    match addedAs? name (command, o.result) with
    | none => o.db.program.candidates name = db.program.candidates name
    | some c => db.Lists name c o.db := by
  have hchange := change_exec hdb.valid h
  by_cases hdeclared : command.declared? = some name
  · cases command with
    | addFact n vs =>
      obtain rfl := Option.some.inj hdeclared
      obtain rfl := Option.some.inj h
      simp only [addedAs?, Outcome.map, Command.declared?, if_true]
      exact lists_addFact hdb.indexed n vs
    | addRule n params =>
      obtain rfl := Option.some.inj hdeclared
      obtain ⟨-, -, rfl⟩ | ⟨o', ho, rfl⟩ := orRefused_map_cases (Option.some.inj h)
      · rfl
      · simp only [addedAs?, Outcome.map, Command.declared?, if_true]
        exact lists_addRule hdb.indexed ho
    -- These commands declare no name.
    | addRuleVar | addGoal | addVar | addConstant | bind | unbind => cases hdeclared
    | query | tryQuery | queryAll | unify | resolve => cases hdeclared
  · -- A command that is about another name adds nothing under this one.
    have hnone : addedAs? name (command, o.result) = none := by
      unfold addedAs?
      split
      · next heq =>
        obtain ⟨rfl, -⟩ := Prod.mk.inj heq
        exact if_neg hdeclared
      · rfl
    rw [hnone]
    exact hchange.candidates_eq hdeclared

/-- The list of a name has the clauses that were added under it, in the order in which they were. -/
theorem History.candidates_eq {past : List (Command N V × Reply V)} (h : History past db)
    (name : N) : db.program.candidates name = addedUnder name past := by
  induction h with
  | empty config => rfl
  | @exec past db rounds command o hdb ho ih =>
    have hlisted := candidates_exec hdb.reachable ho name
    have hmem : ∀ c, c ∈ db.program.candidates name ↔ c ∈ past.filterMap (addedAs? name) := by
      intro c
      rw [ih, addedUnder, List.mem_reverse, List.mem_dedup]
    rw [addedUnder, List.filterMap_cons]
    split at hlisted
    · next hnone => rw [hnone, hlisted, ih, addedUnder]
    · next c hc =>
      rw [hc]
      simp only [Lists] at hlisted
      -- The clause stands in the list already, as a repeated fact does, or goes to its end.
      split at hlisted
      · next hold =>
        rw [List.dedup_cons_of_mem ((hmem c).1 hold), hlisted, ih, addedUnder]
      · next hnew =>
        rw [List.dedup_cons_of_notMem (fun hold => hnew ((hmem c).2 hold)), List.reverse_cons,
          hlisted, ih, addedUnder]

/-! ## The whole -/

/-- What holds of a database that the commands `past` have led to, the latest first. -/
structure Represents (past : List (Command N V × Reply V)) (db : Database N V) : Prop where
  /-- No binding is left on record. -/
  trail_eq : db.pool.trail = #[]
  flags_length : db.pool.flags.length = db.pool.values.length
  /-- The index has one entry for each name. -/
  names_nodup : (db.program.index.map (·.1)).Nodup
  /-- Each clause is listed, under exactly one name. -/
  listed : ∀ c, c.index < db.clauseCount → ∃! name, c ∈ db.program.candidates name
  lt_of_listed : ∀ name, ∀ c ∈ db.program.candidates name, c.index < db.clauseCount
  /-- The list of a name is strictly increasing, so it has no clause twice. -/
  increasing : ∀ name, (db.program.candidates name).Pairwise fun c c' => c.index < c'.index
  candidates_eq : ∀ name, db.program.candidates name = addedUnder name past
  /-- The terms of clauses exist and are owned. -/
  owned : ∀ c t, db.program.Mentions c t → db.pool.contains t = true ∧ db.pool.isOwned t = true
  /-- Each owned term is a term of exactly one clause. -/
  owner : ∀ t, db.pool.isOwned t = true → ∃! c, db.program.Mentions c t
  rules : ∀ c r, db.clause? c = some (.rule r) → r.Fits

/-- In every reachable database owned terms have one owner each, and rules have their shape. -/
theorem Reachable.owns (h : db.Reachable) :
    db.program.Owns db.pool ∧ db.program.Shaped ∧ (db.program.index.map (·.1)).Nodup := by
  induction h with
  | empty config =>
    refine ⟨⟨fun t => ?_, fun t c c' hc => ?_⟩, fun c r hr => ?_, List.nodup_nil⟩
    · simp [Database.empty, Pool.isOwned, Program.Mentions, Program.clause?]
    · simp [Database.empty, Program.Mentions, Program.clause?] at hc
    · simp [Database.empty, Program.clause?] at hr
  | exec hdb ho ih =>
    have hchange := change_exec hdb.valid ho
    exact ⟨ih.1.change hchange, ih.2.1.change ih.1 hchange,
      Program.nodup_names_change hchange ih.2.2⟩

/-- What a database is made of, whatever commands led to it. -/
theorem History.represents {past : List (Command N V × Reply V)} (h : History past db) :
    Represents past db := by
  have hdb := h.reachable
  obtain ⟨howns, hshaped, hnames⟩ := hdb.owns
  have hindexed := hdb.indexed
  have hstored : ∀ c, c.index < db.clauseCount ↔ ∃ clause, db.program.clause? c = some clause := by
    intro c
    rw [Database.clauseCount, Program.size, Program.clause?, ← Option.isSome_iff_exists]
    simp
  exact
    { trail_eq := hdb.trail_eq
      flags_length := by rw [Pool.flags, Pool.values, List.length_map, List.length_map]
      names_nodup := hnames
      listed := fun c hc => by
        obtain ⟨clause, hclause⟩ := (hstored c).1 hc
        have hlisted := hindexed.mem_candidates_iff.2 ⟨clause, hclause, rfl⟩
        exact ⟨clause.name, hlisted, fun name hname => (hindexed.name_eq hname hclause).symm⟩
      lt_of_listed := fun name c hc => (hstored c).2 (hindexed.exists_clause? hc)
      increasing := hindexed.pairwise_candidates
      candidates_eq := h.candidates_eq
      owned := fun c t hc => by
        have howned := (howns.isOwned_iff t).2 ⟨c, hc⟩
        exact ⟨decide_eq_true (Pool.lt_of_isOwned howned), howned⟩
      owner := fun t ht => by
        obtain ⟨c, hc⟩ := (howns.isOwned_iff t).1 ht
        exact ⟨c, hc, fun c' hc' => howns.unique t c' c hc' hc⟩
      rules := fun c r hr => (hshaped c r hr).fits (hdb.valid.rule hr) }

/-- A session with two clauses, the first of which is declared twice. Its rule repeats a variable in
the head and has a constant there, and it is given a further variable and two goals. -/
theorem represents_rule_over_fact :
    ∃ (past : List (Command Nat Nat × Reply Nat)) (db : Database Nat Nat), History past db ∧
      db.clauseCount = 2 ∧ db.termCount = 5 ∧ db.value? ⟨4⟩ = some 5 ∧
      addedUnder 0 past = [⟨0⟩] ∧ addedUnder 1 past = [⟨1⟩] ∧ Represents past db := by
  have hsession : ((empty ⟨some 2, true⟩).execAll 20 [.addFact 0 [5], .addFact 0 [5],
      .addRule 1 [.fresh, .value 6, .param 0], .addRuleVar ⟨1⟩, .addGoal ⟨1⟩ 0 [.param 0],
      .addGoal ⟨1⟩ 0 [.term ⟨3⟩], .addVar, .query 0 1 [⟨4⟩]]).any (fun db : Database Nat Nat =>
        decide (db.clauseCount = 2 ∧ db.termCount = 5 ∧ db.value? ⟨4⟩ = some 5 ∧
          db.program.candidates 0 = [⟨0⟩] ∧ db.program.candidates 1 = [⟨1⟩])) := by
    decide +kernel
  obtain ⟨db, hdb, hall⟩ := (Option.any_eq_true _ _).1 hsession
  obtain ⟨hclauses, hterms, hvalue, hzero, hone⟩ := of_decide_eq_true hall
  obtain ⟨past, hpast, -⟩ := (History.empty _).execAll hdb
  exact ⟨past, db, hpast, hclauses, hterms, hvalue, (hpast.candidates_eq 0).symm.trans hzero,
    (hpast.candidates_eq 1).symm.trans hone, hpast.represents⟩

end Database

end Hornbase
