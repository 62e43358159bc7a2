import Hornbase.Proofs.Representation

/-!
# What lasts

A host keeps the handles that it is given and expects the clauses that it has stored to stay what
they are. So they do. Whatever commands follow: a fact stays as it is, a rule gets further variables
and goals only by the commands that name it, constants hold the very values that they were declared
with, and a handle stays known and is not given again for anything else. `Persists` says all of this
of one command and what comes after it, and `persists_of_leads` shows it of every command of every
history.

One relation carries the argument through a run: `Lasts` lists what later databases have of earlier
ones, each of the three changes brings it about (`Change.lasts`), and it is transitive.
-/

namespace Hornbase

universe u v

variable {N : Type u} {V : Type v}

/-! ## What is declared -/

/-- Whether an operand is what an argument of a declaration calls for, given the values of terms and
the head of the rule. -/
def Arg.Means (value? : TermId → Option V) (params : List Operand) : Arg V → Operand → Prop
  | .value v, o => ∃ t, o = .const t ∧ value? t = some v
  | .param i, o => params[i]? = some o
  | .fresh, o | .term _, o => ∃ n, o = .var n

/-- An operand means the same where terms hold the values that they held. -/
theorem Arg.Means.mono {f g : TermId → Option V} {params : List Operand} {a : Arg V} {o : Operand}
    (h : a.Means f params o) (hvalue : ∀ t v, o = .const t → f t = some v → g t = some v) :
    a.Means g params o := by
  cases a with
  | value v =>
    obtain ⟨t, ho, ht⟩ := h
    exact ⟨t, ho, hvalue t v ho ht⟩
  | param | fresh | term => exact h

/-- Terms that are added leave the values of the others alone. -/
theorem Pool.StartOf.value?_of_some {p q : Pool V} (h : p.StartOf q) {t : TermId} {v : V}
    (hv : p.value? t = some v) : q.value? t = some v := by
  have hlt : t.index < p.size := by
    rw [← Pool.value?_values] at hv
    simpa using Store.lt_of_value? hv
  rw [h.value?_eq hlt, hv]

namespace Rule

/-- Declaring a head adds one position for each argument, and the operand that it calls for. -/
theorem declareHead_means {id : ClauseId} (params : List (Arg V)) {r : Rule N} (p : Pool V)
    (hlength : r.head.length = r.params.length)
    (hcheck : checkHead id r.params.length params = .ok ()) :
    ∃ os, (declareHead params r p).1.params = r.params ++ os ∧
      params.Forall₂
        (Arg.Means (declareHead params r p).2.value? (declareHead params r p).1.params) os := by
  induction params generalizing r p with
  | nil => exact ⟨[], (List.append_nil _).symm, .nil⟩
  | cons arg rest ih =>
    -- The first position is added to `r`, and the others to the rule that has it.
    have hcons : ∀ (r₁ : Rule N) (p₁ : Pool V) (o : Operand), r₁.head.length = r₁.params.length →
        r₁.params = r.params ++ [o] → checkHead id (r.params.length + 1) rest = .ok () →
        arg.Means p₁.value? r₁.params o →
        ∃ os, (declareHead rest r₁ p₁).1.params = r.params ++ os ∧
          (arg :: rest).Forall₂
            (Arg.Means (declareHead rest r₁ p₁).2.value? (declareHead rest r₁ p₁).1.params) os := by
      intro r₁ p₁ o hlength₁ hparams hrest hmeans
      have hcheck₁ : checkHead id r₁.params.length rest = .ok () := by
        rw [hparams, List.length_append]
        exact hrest
      obtain ⟨os, hos, hall⟩ := ih p₁ hlength₁ hcheck₁
      refine ⟨o :: os, by rw [hos, hparams, List.append_assoc, List.singleton_append], ?_⟩
      refine .cons ?_ hall
      -- Constants keep their values, and positions that a repeat names are there already.
      have hvalues := hmeans.mono fun t v _ hv =>
        (startOf_declareHead rest r₁ p₁).value?_of_some hv
      cases arg with
      | param i =>
        have hi := (List.getElem?_eq_some_iff.1 hmeans).1
        show (declareHead rest r₁ p₁).1.params[i]? = some o
        rw [hos, List.getElem?_append_left hi]
        exact hmeans
      | value | fresh | term => exact hvalues
    have hlonger : ∀ (t : TermId) (o : Operand),
        (r.addParam t o).head.length = (r.addParam t o).params.length := by
      intro t o
      simp [addParam, hlength]
    cases arg with
    | fresh => exact hcons _ _ (.var r.locals.length) (hlonger _ _) rfl hcheck ⟨_, rfl⟩
    | value v =>
      refine hcons _ _ (.const (p.addOwned (.bound v)).1) (hlonger _ _) rfl hcheck ⟨_, rfl, ?_⟩
      simp [Pool.value?, Pool.term?, Pool.addOwned, Pool.push, Term.bound]
    | term t => cases hcheck
    | param i =>
      -- A repeat that has passed the check names a position that is there, so one is added.
      simp only [checkHead] at hcheck
      split at hcheck
      · cases hcheck
      · next hi =>
        have hi := Nat.lt_of_not_le hi
        have hi' : i < r.head.length := hlength ▸ hi
        have hstep : declareHead (.param i :: rest) r p
            = declareHead rest (r.addParam r.head[i] r.params[i]) p := by
          rw [declareHead, addParamRepeat, List.getElem?_eq_getElem hi',
            List.getElem?_eq_getElem hi]
        rw [hstep]
        refine hcons _ p r.params[i] (hlonger _ _) rfl hcheck ?_
        show (r.params ++ [r.params[i]])[i]? = _
        rw [List.getElem?_append_left hi, List.getElem?_eq_getElem hi]

/-- An argument of a goal gives the operand that it calls for. -/
theorem DeclaresArg.means {r r₁ : Rule N} {p p₁ : Pool V} {a : Arg V} {o : Operand}
    (h : r.DeclaresArg p a o r₁ p₁) : a.Means p₁.value? r.params o := by
  cases h with
  | fresh => exact ⟨r.locals.length, rfl⟩
  | value v =>
    refine ⟨_, rfl, ?_⟩
    simp [Pool.value?, Pool.term?, Pool.addOwned, Pool.push, Term.bound]
  | @term _ n _ => exact ⟨n, rfl⟩
  | param ho => exact ho

/-- Declaring a goal gives the operands that its arguments call for. -/
theorem DeclaresArgs.means {args : List (Arg V)} {r r' : Rule N} {p p' : Pool V}
    {os : List Operand} (h : DeclaresArgs args r p os r' p') :
    args.Forall₂ (Arg.Means p'.value? r.params) os := by
  induction h with
  | nil => exact .nil
  | cons hfirst hrest ih =>
    refine .cons (hfirst.means.mono fun t v _ hv => hrest.startOf.value?_of_some hv) ?_
    rwa [hfirst.extends.params_eq] at ih

end Rule

/-! ## What lasts of a database -/

/-- The terms of a clause that hold values: the parts of a fact, and the constants of a rule. -/
def Clause.constants : Clause N → List TermId
  | .fact f => f.parts
  | .rule r => r.operands.filterMap (·.const?)

/-- The constants of a valid clause are fixed. -/
theorem Clause.Valid.fixed {p : Pool V} {c : Clause N} (h : c.Valid p) :
    ∀ t ∈ c.constants, p.Fixed t := by
  cases c with
  | fact f => exact h
  | rule r =>
    have hr : r.Valid p := h
    intro t ht
    obtain ⟨o, ho, hot⟩ := List.mem_filterMap.1 ht
    obtain rfl := Operand.const?_eq_some_iff.1 hot
    rcases List.mem_append.1 ho with ho | ho
    · exact hr.params _ ho
    · obtain ⟨g, hg, ho⟩ := List.mem_flatMap.1 ho
      exact hr.body g hg _ ho

namespace Database

/-- What a later database `db'` has of `db`, if commands in between may have extended the rules
`extended`. -/
structure Lasts [DecidableEq N] (db : Database N V) (extended : ClauseId → Prop)
    (db' : Database N V) : Prop where
  size_le : db.pool.size ≤ db'.pool.size
  cell_eq : ∀ (i : Nat) (v : V), db.pool.cells[i]? = some ⟨.bound v, true⟩ →
    db'.pool.cells[i]? = some ⟨.bound v, true⟩
  fact_eq : ∀ c f, db.clause? c = some (.fact f) → db'.clause? c = some (.fact f)
  rule_grows : ∀ c r, db.clause? c = some (.rule r) →
    ∃ r', db'.clause? c = some (.rule r') ∧ r.Extends r' ∧ r'.head = r.head ∧
      (¬ extended c → r' = r)
  candidates : ∀ name, db.program.candidates name <+: db'.program.candidates name

variable [DecidableEq N] {db db' db'' : Database N V} {extended extended' : ClauseId → Prop}

theorem Lasts.refl (db : Database N V) (extended : ClauseId → Prop) : db.Lasts extended db where
  size_le := Nat.le_refl _
  cell_eq _ _ h := h
  fact_eq _ _ h := h
  rule_grows _ r hr := ⟨r, hr, .refl r, rfl, fun _ => rfl⟩
  candidates _ := List.prefix_refl _

theorem Lasts.trans (h : db.Lasts extended db') (h' : db'.Lasts extended' db'') :
    db.Lasts (fun c => extended c ∨ extended' c) db'' where
  size_le := Nat.le_trans h.size_le h'.size_le
  cell_eq i v hv := h'.cell_eq i v (h.cell_eq i v hv)
  fact_eq c f hf := h'.fact_eq c f (h.fact_eq c f hf)
  rule_grows c r hr := by
    obtain ⟨r₁, hr₁, hextends, hhead, hsame⟩ := h.rule_grows c r hr
    obtain ⟨r₂, hr₂, hextends', hhead', hsame'⟩ := h'.rule_grows c r₁ hr₁
    refine ⟨r₂, hr₂, hextends.trans hextends', hhead'.trans hhead, fun hnot => ?_⟩
    rw [hsame' fun hc => hnot (.inr hc), hsame fun hc => hnot (.inl hc)]
  candidates name := (h.candidates name).trans (h'.candidates name)

/-- Each of the three changes leaves what has to last. -/
theorem Change.lasts {declared : Option N} {id : Option ClauseId}
    (h : db.Change declared id db') : db.Lasts (fun c => id = some c) db' := by
  cases h with
  | pool hpool =>
    -- A new pool: no clause is touched.
    exact { Lasts.refl db _ with size_le := hpool.size_le, cell_eq := hpool.cell_eq }
  | @clause q new _ hpool _ _ =>
    -- A new clause comes behind the others.
    have hold : ∀ c clause, db.clause? c = some clause →
        (db.program.add new).2.clause? c = some clause := fun c clause hc =>
      (db.program.partOf_add new).clause?_eq hc
    exact
      { size_le := hpool.size_le
        cell_eq := fun i v hv => hpool.startOf.cell_eq hv
        fact_eq := fun c f hf => hold c _ hf
        rule_grows := fun c r hr => ⟨r, hold c _ hr, .refl r, rfl, fun _ => rfl⟩
        candidates := fun name => by
          rw [Program.candidates_add]
          split
          · exact List.prefix_append ..
          · exact List.prefix_refl _ }
  | @rule q id' r r' hid hr htakes hextends hhead _ =>
    -- A rule takes the place of the one it extends.
    have hclause := Program.clause?_of_rule? hr
    exact
      { size_le := htakes.pool.size_le
        cell_eq := fun i v hv => htakes.pool.startOf.cell_eq hv
        fact_eq := fun c f hf => by
          rw [Database.clause?, Program.clause?_setRule, if_neg]
          · exact hf
          · -- The rule is not a fact, so the fact is another clause.
            rintro rfl
            cases hclause.symm.trans hf
        rule_grows := fun c s hs => by
          rw [Database.clause?, Program.clause?_setRule]
          split
          · next heq =>
            subst heq
            obtain rfl := Clause.rule.inj (Option.some.inj (hclause.symm.trans hs))
            exact ⟨r', by rw [hclause]; rfl, hextends, hhead, fun hnot => absurd hid hnot⟩
          · exact ⟨s, hs, .refl s, rfl, fun _ => rfl⟩
        candidates := fun name => List.prefix_refl _ }

/-- The constants of clauses keep the values that they have. -/
theorem Lasts.value?_eq (h : db.Lasts extended db') {t : TermId} (ht : db.pool.Fixed t) :
    db'.value? t = db.value? t := by
  obtain ⟨v, hv⟩ := ht
  simp only [Database.value?, Pool.value?, Pool.term?, hv, h.cell_eq _ _ hv]

/-- A clause keeps its name and its number of positions. -/
theorem Lasts.exists_clause? (h : db.Lasts extended db')
    {c : ClauseId} {clause : Clause N} (hc : db.clause? c = some clause) :
    ∃ clause', db'.clause? c = some clause' ∧ clause'.name = clause.name ∧
      clause'.arity = clause.arity := by
  cases clause with
  | fact f => exact ⟨_, h.fact_eq c f hc, rfl, rfl⟩
  | rule r =>
    obtain ⟨r', hr', hextends, -, -⟩ := h.rule_grows c r hc
    exact ⟨_, hr', hextends.name_eq, congrArg List.length hextends.params_eq⟩

/-- What a name and a number of positions stand for, they stand for ever. -/
theorem Lasts.get?_eq (h : db.Lasts extended db') (hindexed : db.program.Indexed) {name : N}
    {arity : Nat} {c : ClauseId} (hc : db.get? name arity = some c) :
    db'.get? name arity = some c := by
  obtain ⟨more, hmore⟩ := h.candidates name
  have hsame : ∀ c ∈ db.program.candidates name,
      (db'.clause? c).any (·.arity == arity) = (db.clause? c).any (·.arity == arity) := by
    intro c hmem
    obtain ⟨clause, hclause⟩ := hindexed.exists_clause? hmem
    obtain ⟨clause', hclause', -, heq⟩ := h.exists_clause? hclause
    rw [hclause', show db.clause? c = some clause from hclause, Option.any_some, Option.any_some,
      heq]
  have hold : (db.program.candidates name).find? (fun c => (db'.clause? c).any (·.arity == arity))
      = some c := by
    rw [← List.head?_filter, List.filter_congr hsame, List.head?_filter]
    exact hc
  show (db'.program.candidates name).find? _ = some c
  rw [← hmore, List.find?_append]
  exact congrArg (Option.or · _) hold

/-- What lasts whatever a set of rules has been through lasts if more may have happened. -/
theorem Lasts.mono (h : db.Lasts extended db') (hmore : ∀ c, extended c → extended' c) :
    db.Lasts extended' db' where
  size_le := h.size_le
  cell_eq := h.cell_eq
  fact_eq := h.fact_eq
  rule_grows c r hr := by
    obtain ⟨r', hr', hextends, hhead, hsame⟩ := h.rule_grows c r hr
    exact ⟨r', hr', hextends, hhead, fun hnot => hsame fun hc => hnot (hmore c hc)⟩
  candidates := h.candidates

/-! ## Runs -/

variable [BEq V] {run : List (Command N V × Reply V)} {rounds : Nat} {command : Command N V}
  {o : Outcome N V (Reply V)}

/-- The commands that lead from one database to another, the earliest first, with their replies. -/
inductive Leads : Database N V → List (Command N V × Reply V) → Database N V → Prop
  | done (db : Database N V) : Leads db [] db
  | exec {db db' : Database N V} {run : List (Command N V × Reply V)} {rounds : Nat}
      {command : Command N V} {o : Outcome N V (Reply V)} :
      db.exec rounds command = some o → Leads o.db run db' →
      Leads db ((command, o.result) :: run) db'

theorem Leads.reachable (h : db.Leads run db') (hdb : db.Reachable) : db'.Reachable := by
  induction h with
  | done => exact hdb
  | exec ho _ ih => exact ih (hdb.exec ho)

/-- A session is a run. -/
theorem exists_leads {commands : List (Command N V)} (h : db.execAll rounds commands = some db') :
    ∃ run, db.Leads run db' ∧ run.map (·.1) = commands := by
  induction commands generalizing db with
  | nil =>
    obtain rfl := Option.some.inj h
    exact ⟨[], .done db, rfl⟩
  | cons command rest ih =>
    obtain ⟨o, ho, hrest⟩ := Option.bind_eq_some_iff.1 h
    obtain ⟨run, hrun, hcommands⟩ := ih hrest
    exact ⟨_, .exec ho hrun, by rw [List.map_cons, hcommands]⟩

/-- A run leaves what has to last. -/
theorem Leads.lasts (h : db.Leads run db') (hdb : db.Reachable) :
    db.Lasts (fun c => ∃ x ∈ run, x.1.extended? = some c) db' := by
  induction h with
  | done db => exact .refl db _
  | exec ho _ ih =>
    refine ((change_exec hdb.valid ho).lasts.trans (ih (hdb.exec ho))).mono fun c hc => ?_
    rcases hc with hfirst | ⟨x, hx, hlater⟩
    · exact ⟨_, List.mem_cons_self .., hfirst⟩
    · exact ⟨x, List.mem_cons_of_mem _ hx, hlater⟩

end Database

namespace Pool

/-- The terms of a new tuple hold the values that it was made of. -/
theorem map_value?_addTuple (p : Pool V) (vs : List V) :
    (p.addTuple vs).1.map (p.addTuple vs).2.value? = vs.map some := by
  refine List.ext_getElem? fun i => ?_
  simp only [addTuple, List.map_map, List.getElem?_map]
  by_cases hi : i < vs.length
  · rw [List.getElem?_range' hi]
    simp [value?, term?, hi, Term.bound]
  · have hlength : (List.range' p.cells.size vs.length).length ≤ i := by simpa using hi
    rw [List.getElem?_eq_none hlength, List.getElem?_eq_none (Nat.le_of_not_lt hi)]
    rfl

/-- Fixed terms hold values. -/
theorem exists_values {p : Pool V} {ts : List TermId} (h : ∀ t ∈ ts, p.Fixed t) :
    ∃ vs : List V, ts.map p.value? = vs.map some := by
  refine exists_eq_map_some fun x hx => ?_
  obtain ⟨t, ht, rfl⟩ := List.mem_map.1 hx
  exact (h t ht).exists_value?

/-- The values of compatible tuples of bound terms are equal at each position. -/
theorem forall₂_of_compatible [BEq V] {p : Pool V} {xs ys : List TermId} {as bs : List V}
    (h : p.compatible xs ys = true) (hxs : xs.map p.value? = as.map some)
    (hys : ys.map p.value? = bs.map some) : as.Forall₂ (fun a b => (a == b) = true) bs := by
  induction xs generalizing ys as bs with
  | nil =>
    obtain rfl : as = [] := by simpa using hxs.symm
    obtain rfl : ys = [] := by
      cases ys with
      | nil => rfl
      | cons => simp [compatible] at h
    obtain rfl : bs = [] := by simpa using hys.symm
    exact .nil
  | cons x xs ih =>
    cases ys with
    | nil => simp [compatible] at h
    | cons y ys =>
      cases as with
      | nil => cases hxs
      | cons a as =>
        cases bs with
        | nil => cases hys
        | cons b bs =>
          -- The values of the first parts are compared first, then those of the others.
          obtain ⟨hx, hxs⟩ := List.cons.inj hxs
          obtain ⟨hy, hys⟩ := List.cons.inj hys
          simp only [compatible, List.length_cons, List.zip_cons_cons, List.all_cons, hx, hy,
            Bool.and_eq_true, beq_iff_eq, Nat.add_right_cancel_iff] at h
          obtain ⟨hlength, hab, hrest⟩ := h
          refine .cons hab (ih ?_ hxs hys)
          rw [compatible, hrest, hlength, beq_self_eq_true, Bool.and_self]

end Pool

namespace Database

variable [DecidableEq N] [BEq V] {db db' : Database N V} {rounds : Nat} {command : Command N V}
  {o : Outcome N V (Reply V)}

/-! ## Handles -/

/-- The terms whose handles a command gives: one that its reply names, or the head of a new rule. -/
def handsOut (o : Outcome N V (Reply V)) : List TermId :=
  match o.result with
  | .term t => [t]
  | .clause c =>
    match o.db.clause? c with
    | some (.rule r) => r.head
    | _ => []
  | _ => []

/-- Whether a command asks for a fact that is stored already, as the clause `c`, with values that
are equal to those asked for. -/
def FindsStored (db : Database N V) (command : Command N V) (c : ClauseId) : Prop :=
  ∃ name vs f, ∃ ws : List V, command = .addFact name vs ∧ db.clause? c = some (.fact f) ∧
    f.name = name ∧ f.parts.map db.value? = ws.map some ∧
    ws.Forall₂ (fun w v => (w == v) = true) vs

/-- Adding a fact finds one stored that has equal values, or stores what it was given. -/
theorem addFact_cases (hdb : db.Reachable) (name : N) (vs : List V) :
    db.FindsStored (.addFact name vs) (db.addFact name vs).result ∧ (db.addFact name vs).db = db ∨
      (db.addFact name vs).result = db.program.nextId ∧
        (db.addFact name vs).db = ⟨(db.program.add (.fact ⟨name, (db.pool.addTuple vs).1⟩)).2,
          (db.pool.addTuple vs).2, db.config⟩ := by
  rcases db.addFact_found_or name vs with ⟨hfound, hsame⟩ | hadded
  · refine .inl ⟨?_, hsame⟩
    unfold findFact? at hfound
    have hmem := List.mem_of_find?_eq_some hfound
    have hmatch := List.find?_some hfound
    obtain ⟨f, hf, hcompatible⟩ := (Option.any_eq_true _ _).1 hmatch
    have hclause := Program.clause?_of_fact? hf
    have hfixed := hdb.valid.fact hclause
    obtain ⟨ws, hws⟩ := Pool.exists_values hfixed
    have hlater : f.parts.map (db.pool.addTuple vs).2.value? = ws.map some := by
      rw [← hws]
      refine List.map_congr_left fun t ht => ?_
      exact (db.pool.startOf_addTuple vs).value?_eq (hfixed t ht).lt
    exact ⟨name, vs, f, ws, rfl, hclause, hdb.indexed.name_eq hmem hclause, hws,
      Pool.forall₂_of_compatible hcompatible hlater (db.pool.map_value?_addTuple vs)⟩
  · exact .inr hadded

omit [BEq V] in
/-- A new clause has the next handle. -/
theorem clause?_of_add (db : Database N V) (clause : Clause N) (q : Pool V) :
    (⟨(db.program.add clause).2, q, db.config⟩ : Database N V).clause? db.program.nextId
      = some clause := by
  rw [Database.clause?, Program.clause?_add, if_pos rfl]

/-- The clause that a reply names is new, or a fact that was found stored. -/
theorem clause_exec (hdb : db.Reachable) (h : db.exec rounds command = some o) {c : ClauseId}
    (hc : o.result = .clause c) :
    (db.clause? c = none ∧ ∃ clause, o.db.clause? c = some clause) ∨
      db.FindsStored command c ∧ o.db = db := by
  cases command with
  | addFact name vs =>
    obtain rfl := Option.some.inj h
    obtain rfl : (db.addFact name vs).result = c := Reply.clause.inj hc
    rcases addFact_cases hdb name vs with hfound | ⟨hid, hadded⟩
    · -- A stored fact stands for the new one.
      exact .inr hfound
    · rw [hid]
      exact .inl ⟨db.program.clause?_nextId, _, hadded ▸ clause?_of_add db _ _⟩
  | addRule name params =>
    obtain ⟨_, -, rfl⟩ | ⟨o', ho, rfl⟩ := orRefused_map_cases (Option.some.inj h)
    · cases hc
    · obtain rfl : o'.result = c := Reply.clause.inj hc
      obtain ⟨-, hid, hadded⟩ := addRule_eq_ok ho
      rw [hid]
      exact .inl ⟨db.program.clause?_nextId, _, hadded ▸ clause?_of_add db _ _⟩
  | addRuleVar | addGoal | bind | unbind =>
    obtain ⟨_, -, rfl⟩ | ⟨_, -, rfl⟩ := orRefused_map_cases (Option.some.inj h) <;> cases hc
  | addVar | addConstant =>
    obtain rfl := Option.some.inj h
    cases hc
  | query | queryAll | resolve =>
    obtain ⟨_, -, rfl⟩ := Option.map_eq_some_iff.1 h
    cases hc
  | tryQuery =>
    obtain ⟨⟨result, _, _⟩, -, rfl⟩ := Option.map_eq_some_iff.1 h
    cases result <;> cases hc
  | unify =>
    obtain rfl := Option.some.inj h
    cases hc

/-- All terms whose handles a command gives are new. -/
theorem isNew_of_handsOut (hdb : db.Reachable) (h : db.exec rounds command = some o) :
    ∀ t ∈ handsOut o, db.pool.IsNew o.db.pool t := by
  intro t ht
  cases command with
  | addFact name vs =>
    obtain rfl := Option.some.inj h
    -- What comes back is the number of a fact, whether it is new or not.
    have hfact : ∃ f, (db.addFact name vs).db.clause? (db.addFact name vs).result
        = some (.fact f) := by
      rcases addFact_cases hdb name vs with ⟨⟨_, _, f, _, -, hclause, -⟩, hsame⟩ | ⟨hid, hadded⟩
      · exact ⟨f, by rw [hsame, hclause]⟩
      · exact ⟨_, by rw [hid, hadded, clause?_of_add]⟩
    obtain ⟨f, hf⟩ := hfact
    simp only [handsOut, Outcome.map, hf, List.not_mem_nil] at ht
  | addRule name params =>
    obtain ⟨_, -, rfl⟩ | ⟨o', ho, rfl⟩ := orRefused_map_cases (Option.some.inj h)
    · cases ht
    · obtain ⟨-, hid, hadded⟩ := addRule_eq_ok ho
      simp only [handsOut, Outcome.map, hid, hadded, clause?_of_add] at ht
      -- The terms of the head are terms of the rule, and it had none before its head was declared.
      have htakes := (Rule.declareHead_takes params (Rule.bare_empty name db.pool)).1
      have hterms := (htakes.terms_iff t).1 (Rule.mem_terms.2 (.inl ht))
      rw [Outcome.map, hadded]
      exact hterms.resolve_left (by simp [Rule.mem_terms, Rule.operands])
  | addRuleVar c =>
    obtain ⟨_, -, rfl⟩ | ⟨o', ho, rfl⟩ := orRefused_map_cases (Option.some.inj h)
    · cases ht
    · obtain ⟨r, -, hresult, hadded⟩ := addRuleVar_eq_ok ho
      obtain rfl := List.mem_singleton.1 ht
      rw [Outcome.map, hadded]
      exact (db.pool.isNew_push _).2 hresult
  | addVar | addConstant =>
    obtain rfl := Option.some.inj h
    obtain rfl := List.mem_singleton.1 ht
    exact (db.pool.isNew_push _).2 rfl
  | addGoal | bind | unbind =>
    obtain ⟨_, -, rfl⟩ | ⟨_, -, rfl⟩ := orRefused_map_cases (Option.some.inj h) <;> cases ht
  | query | queryAll | resolve =>
    obtain ⟨_, -, rfl⟩ := Option.map_eq_some_iff.1 h
    cases ht
  | tryQuery =>
    obtain ⟨⟨result, _, _⟩, -, rfl⟩ := Option.map_eq_some_iff.1 h
    cases result <;> cases ht
  | unify =>
    obtain rfl := Option.some.inj h
    cases ht

/-! ## Declarations -/

/-- What a later database has of what a command declared, where `db` is the database before: the
values, names and operands that the command gives. -/
def Given (db : Database N V) : Command N V → Reply V → Database N V → Prop
  | .addFact name vs, .clause c, later =>
    db.clause? c = none → ∃ f, later.clause? c = some (.fact f) ∧ f.name = name ∧
      f.parts.map later.value? = vs.map some
  | .addRule name params, .clause c, later =>
    ∃ r, later.clause? c = some (.rule r) ∧ r.name = name ∧
      params.Forall₂ (Arg.Means later.value? r.params) r.params
  | .addGoal c name args, .done, later =>
    ∃ r r' os, db.clause? c = some (.rule r) ∧ later.clause? c = some (.rule r') ∧
      r'.body[r.body.length]? = some ⟨name, os⟩ ∧
      args.Forall₂ (Arg.Means later.value? r.params) os
  | _, _, _ => True

/-- A command declares what it gives. -/
theorem given_exec (hdb : db.Reachable) (h : db.exec rounds command = some o) :
    db.Given command o.result o.db := by
  cases command with
  | addFact name vs =>
    obtain rfl := Option.some.inj h
    intro hnone
    rcases addFact_cases hdb name vs with ⟨⟨_, _, f, _, -, hclause, -⟩, -⟩ | ⟨hid, hadded⟩
    · rw [hclause] at hnone
      cases hnone
    · simp only [Outcome.map, hid, hadded]
      exact ⟨_, clause?_of_add db _ _, rfl, db.pool.map_value?_addTuple vs⟩
  | addRule name params =>
    obtain ⟨_, -, rfl⟩ | ⟨o', ho, rfl⟩ := orRefused_map_cases (Option.some.inj h)
    · trivial
    · obtain ⟨hcheck, hid, hadded⟩ := addRule_eq_ok ho
      obtain ⟨os, hos, hmeans⟩ := Rule.declareHead_means params (r := { name }) db.pool rfl hcheck
      obtain rfl : (Rule.declareHead params { name } db.pool).1.params = os := hos
      simp only [Outcome.map, Given, hid, hadded]
      exact ⟨_, clause?_of_add db _ _, Rule.declareHead_name params _ _, hmeans⟩
  | addGoal c name args =>
    obtain ⟨_, -, rfl⟩ | ⟨o', ho, rfl⟩ := orRefused_map_cases (Option.some.inj h)
    · trivial
    · obtain ⟨rule, os, rule', p, hrule, hgoal, hadded⟩ := addGoal_eq_ok ho
      have hclause := Program.clause?_of_rule? hrule
      have hbody := hgoal.takesGoal.same.2.2
      simp only [Outcome.map, Given, hadded]
      refine ⟨rule, rule'.addGoal ⟨name, os⟩, os, hclause, ?_, ?_, hgoal.means⟩
      · show (db.program.setRule c _).clause? c = _
        rw [Program.clause?_setRule, if_pos rfl, hclause]
        rfl
      · -- Its body was not touched while the arguments were turned into operands.
        rw [Rule.addGoal, hbody]
        exact List.getElem?_concat_length
  | addRuleVar | addVar | addConstant | bind | unbind => trivial
  | query | tryQuery | queryAll | unify | resolve => trivial

omit [BEq V] in
/-- What a command has declared stays as it was declared. -/
theorem Given.lasts {reply : Reply V} {later : Database N V} {extended : ClauseId → Prop}
    (h : db.Given command reply db') (hvalid : db'.Valid) (hlasts : db'.Lasts extended later) :
    db.Given command reply later := by
  -- Operands go on meaning what they were declared to mean, since constants keep their values.
  have hmeans : ∀ {params : List Operand} {args : List (Arg V)} {os : List Operand} {k : Nat},
      (∀ o ∈ os, o.Valid db'.pool k) → args.Forall₂ (Arg.Means db'.value? params) os →
      args.Forall₂ (Arg.Means later.value? params) os := by
    intro params args os k hos hall
    refine List.forall₂_iff_zip.2 ⟨hall.length_eq, fun {a o} hmem => ?_⟩
    refine ((List.forall₂_iff_zip.1 hall).2 hmem).mono fun t v ho hv => ?_
    subst ho
    exact (hlasts.value?_eq (hos _ (List.of_mem_zip hmem).2)).trans hv
  unfold Given at h ⊢
  split
  · -- A fact: it is stored still, and its parts are bound for good.
    intro hnone
    obtain ⟨f, hf, hname, hvalues⟩ := h hnone
    refine ⟨f, hlasts.fact_eq _ f hf, hname, ?_⟩
    rw [← hvalues]
    exact List.map_congr_left fun t ht => hlasts.value?_eq (hvalid.fact hf t ht)
  · -- A rule: it has grown, but not at its head.
    obtain ⟨r, hr, hname, hall⟩ := h
    obtain ⟨r', hr', hextends, -, -⟩ := hlasts.rule_grows _ r hr
    refine ⟨r', hr', hextends.name_eq.trans hname, ?_⟩
    rw [hextends.params_eq]
    exact hmeans (hvalid.rule hr).params hall
  · -- A goal: others may have come behind it.
    obtain ⟨r, r', os, hr, hr', hgoal, hall⟩ := h
    obtain ⟨r'', hr'', hextends, -, -⟩ := hlasts.rule_grows _ r' hr'
    refine ⟨r, r'', os, hr, hr'', ?_, ?_⟩
    · obtain ⟨more, hmore⟩ := hextends.body
      rw [← hmore, List.getElem?_append_left (List.getElem?_eq_some_iff.1 hgoal).1, hgoal]
    · exact hmeans ((hvalid.rule hr').body _ (List.mem_of_getElem? hgoal)) hall
  · trivial

/-! ## The whole -/

/-- What lasts of a database `db` and of what a command does to it, if the commands `run` come after
it and lead to `later`. -/
structure Persists (db : Database N V) (command : Command N V) (o : Outcome N V (Reply V))
    (run : List (Command N V × Reply V)) (later : Database N V) : Prop where
  /-- Facts are never altered. -/
  fact_eq : ∀ c f, db.clause? c = some (.fact f) → later.clause? c = some (.fact f)
  /-- Rules keep their heads, and get variables and goals behind those that they have. -/
  rule_grows : ∀ c r, db.clause? c = some (.rule r) → ∃ r', later.clause? c = some (.rule r') ∧
    r'.name = r.name ∧ r'.head = r.head ∧ r'.params = r.params ∧ r.locals <+: r'.locals ∧
    r.body <+: r'.body
  /-- They get them by commands only that name them. -/
  rule_eq : ∀ c r, db.clause? c = some (.rule r) →
    (∀ x ∈ (command, o.result) :: run, x.1.extended? ≠ some c) → later.clause? c = some (.rule r)
  /-- Parts of facts and constants of rules hold the values that they held. -/
  value_eq : ∀ c clause, db.clause? c = some clause → ∀ t ∈ clause.constants,
    ∃ v, db.value? t = some v ∧ later.value? t = some v
  /-- What the command declares holds the values that it gives. -/
  given : db.Given command o.result later
  known_term : ∀ t, db.pool.contains t = true → later.pool.contains t = true
  known_clause : ∀ c clause, db.clause? c = some clause →
    ∃ clause', later.clause? c = some clause' ∧ clause'.name = clause.name
  /-- The handle of a term is new, stays known, and is not given again. -/
  term_handle : ∀ t ∈ handsOut o, db.pool.contains t = false ∧ later.pool.contains t = true ∧
    ∀ rounds command' o', later.exec rounds command' = some o' → t ∉ handsOut o'
  /-- The number of a clause stays known, and is given again only for the fact that it stands
  for. -/
  clause_handle : ∀ c, o.result = .clause c → (∃ clause, later.clause? c = some clause) ∧
    ∀ rounds command' o', later.exec rounds command' = some o' → o'.result = .clause c →
      later.FindsStored command' c ∧ o'.db = later
  get?_eq : ∀ name arity c, db.get? name arity = some c → later.get? name arity = some c

/-- Stored clauses and constants do not change, whatever commands follow, and handles stay valid. -/
theorem persists_of_leads (hdb : db.Reachable) (ho : db.exec rounds command = some o)
    {run : List (Command N V × Reply V)} {later : Database N V} (hrun : o.db.Leads run later) :
    Persists db command o run later := by
  have hafter := hdb.exec ho
  have hlater := hrun.reachable hafter
  -- What was there before lasts through the command and the run, what the command gives through the
  -- run.
  have hwhole := (Leads.exec ho hrun).lasts hdb
  have hrest := hrun.lasts hafter
  exact
    { fact_eq := hwhole.fact_eq
      rule_grows := fun c r hr => by
        obtain ⟨r', hr', hextends, hhead, -⟩ := hwhole.rule_grows c r hr
        exact ⟨r', hr', hextends.name_eq, hhead, hextends.params_eq, hextends.locals, hextends.body⟩
      rule_eq := fun c r hr hnever => by
        obtain ⟨r', hr', -, -, hsame⟩ := hwhole.rule_grows c r hr
        rw [hr', hsame fun ⟨x, hx, hextended⟩ => hnever x hx hextended]
      value_eq := fun c clause hc t ht => by
        have hfixed := (hdb.valid c clause hc).fixed t ht
        obtain ⟨v, hv⟩ := hfixed.exists_value?
        exact ⟨v, hv, (hwhole.value?_eq hfixed).trans hv⟩
      given := (given_exec hdb ho).lasts hafter.valid hrest
      known_term := fun t ht =>
        decide_eq_true (Nat.lt_of_lt_of_le (of_decide_eq_true ht) hwhole.size_le)
      known_clause := fun c clause hc => by
        obtain ⟨clause', hc', hname, -⟩ := hwhole.exists_clause? hc
        exact ⟨clause', hc', hname⟩
      term_handle := fun t ht => by
        obtain ⟨hge, hlt⟩ := isNew_of_handsOut hdb ho t ht
        -- The handle is known from now on, and no later command hands out a known one.
        have hlt := Nat.lt_of_lt_of_le hlt hrest.size_le
        refine ⟨decide_eq_false (Nat.not_lt.2 hge), decide_eq_true hlt, fun _ _ o' ho' hagain => ?_⟩
        exact absurd hlt (Nat.not_lt.2 (isNew_of_handsOut hlater ho' t hagain).1)
      clause_handle := fun c hc => by
        have hknown : ∃ clause, o.db.clause? c = some clause := by
          rcases clause_exec hdb ho hc with ⟨-, hnew⟩ | ⟨⟨_, _, f, _, -, hf, -⟩, hsame⟩
          · exact hnew
          · exact ⟨_, hsame ▸ hf⟩
        obtain ⟨clause, hclause⟩ := hknown
        obtain ⟨clause', hclause', -⟩ := hrest.exists_clause? hclause
        refine ⟨⟨clause', hclause'⟩, fun _ command' o' ho' hc' => ?_⟩
        -- The number is taken, so a command that gives it again has found the fact.
        rcases clause_exec hlater ho' hc' with ⟨hnone, -⟩ | hfound
        · rw [hclause'] at hnone
          cases hnone
        · exact hfound
      get?_eq := fun name arity c hc => hwhole.get?_eq hdb.indexed hc }

/-- A rule with a constant in its head. It gets a variable and a goal afterwards, a stored fact is
asked for again, and the rule answers a query whose answer is taken back. -/
theorem persists_of_leads_rule_with_constant :
    ∃ (db : Database Nat Nat) (o : Outcome Nat Nat (Reply Nat))
      (run : List (Command Nat Nat × Reply Nat)) (later : Database Nat Nat), db.Reachable ∧
      db.exec 0 (.addRule 1 [.fresh, .value 7]) = some o ∧ o.db.Leads run later ∧
      run.map (·.1) = [.addRuleVar ⟨1⟩, .addGoal ⟨1⟩ 0 [.param 0], .addFact 0 [5], .addVar,
        .query 1 2 [⟨0⟩, ⟨5⟩], .unbind ⟨0⟩] ∧
      handsOut o = [⟨2⟩, ⟨3⟩] ∧ later.value? ⟨3⟩ = some 7 ∧ later.value? ⟨5⟩ = some 7 ∧
      later.get? 1 2 = some ⟨1⟩ ∧ Persists db (.addRule 1 [.fresh, .value 7]) o run later := by
  obtain ⟨db, hreachable, hsession⟩ := exists_reachable ⟨none, true⟩ 0 [.addVar, .addFact 0 [5]]
    (fun db : Database Nat Nat => (db.exec 0 (.addRule 1 [.fresh, .value 7])).any (fun o =>
      decide (handsOut o = [⟨2⟩, ⟨3⟩]) &&
      (o.db.execAll 20 [.addRuleVar ⟨1⟩, .addGoal ⟨1⟩ 0 [.param 0], .addFact 0 [5], .addVar,
        .query 1 2 [⟨0⟩, ⟨5⟩], .unbind ⟨0⟩]).any (fun later =>
          decide (later.value? ⟨3⟩ = some 7 ∧ later.value? ⟨5⟩ = some 7 ∧
            later.get? 1 2 = some ⟨1⟩))) = true)
    (by decide +kernel)
  obtain ⟨o, ho, hboth⟩ := (Option.any_eq_true _ _).1 hsession
  obtain ⟨hhanded, hrest⟩ := (Bool.and_eq_true _ _).mp hboth
  obtain ⟨later, hlater, hvalues⟩ := (Option.any_eq_true _ _).1 hrest
  obtain ⟨hconst, hanswer, hget⟩ := of_decide_eq_true hvalues
  obtain ⟨run, hrun, hcommands⟩ := exists_leads hlater
  exact ⟨db, o, run, later, hreachable, ho, hrun, hcommands, of_decide_eq_true hhanded, hconst,
    hanswer, hget, persists_of_leads hreachable ho hrun⟩

end Database

end Hornbase
