import Hornbase.Proofs.Loading

/-!
# Duplicate facts

With duplicate detection a fact is not stored if one with equal values is stored under its name.
That leaves out answers, but none that is not equal to another one, and never the first: whatever
facts and rules are loaded, a query does with detection what it does without it, and every answer
that is found without it has an equal one with it (`condenses_of_loaded`).

Values that are equal need not be the same, so the fact that is left out may give another answer
than the one that stands for it, here and in every rule that calls it. What saves the argument is
that equality is an equivalence: equal values compare alike with all others, so a branch through the
fact that is left out and the branch through the other one succeed or fail together. Of the two, the
second comes first.
-/

namespace Hornbase

universe u v

variable {N : Type u} {V : Type v} [BEq V]

/-- The values count as equal. -/
def Equal (v w : V) : Prop := (v == w) = true

/-- Equal values are compared with the same outcome. -/
theorem comparesAlike_equal [EquivBEq V] : ComparesAlike (V := V) Equal := by
  intro a a' b b' ha hb
  have ha : (a == a') = true := ha
  have hb : (b == b') = true := hb
  rw [Bool.eq_iff_iff]
  constructor
  · intro hab
    exact BEq.trans (BEq.symm ha) (BEq.trans hab hb)
  · intro hab
    exact BEq.trans ha (BEq.trans hab (BEq.symm hb))

namespace Pool

variable {E : V → V → Prop} {p p' : Pool V} {t t' : TermId}

omit [BEq V] in
theorem Fixed.value? (h : p.Fixed t) {v : V} (hv : p.value? t = some v) :
    p.cells[t.index]? = some ⟨.bound v, true⟩ := by
  obtain ⟨w, hw⟩ := h
  obtain rfl : w = v := by simpa [Pool.value?, term?, hw, Term.bound] using hv
  exact hw

omit [BEq V] in
/-- Tuples of fixed terms are related if their values are. -/
theorem forall₂_fixedUpTo {ts ts' : List TermId} {vs vs' : List V} (hts : ∀ t ∈ ts, p.Fixed t)
    (hts' : ∀ t ∈ ts', p'.Fixed t) (hvs : ts.map p.value? = vs.map some)
    (hvs' : ts'.map p'.value? = vs'.map some) (h : List.Forall₂ E vs vs') :
    List.Forall₂ (p.FixedUpTo E p') ts ts' := by
  have hvalues : List.Forall₂ (fun t t' => Option.Rel E (p.value? t) (p'.value? t')) ts ts' := by
    rw [← List.forall₂_map_right_iff, ← List.forall₂_map_left_iff, hvs, hvs',
      List.forall₂_map_left_iff, List.forall₂_map_right_iff]
    exact h.imp fun _ _ => .some
  refine List.forall₂_iff_zip.2 ⟨hvalues.length_eq, fun {t t'} hmem => ?_⟩
  obtain ⟨ht, ht'⟩ := List.of_mem_zip hmem
  obtain ⟨v, hv⟩ := (hts t ht).exists_value?
  obtain ⟨v', hv'⟩ := (hts' t' ht').exists_value?
  have hrel := (List.forall₂_iff_zip.1 hvalues).2 hmem
  rw [hv, hv'] at hrel
  cases hrel with
  | some hE => exact ⟨v, v', (hts t ht).value? hv, (hts' t' ht').value? hv', hE⟩

omit [BEq V] in
/-- Arguments that correspond have the same values. -/
theorem Correspond.answer_eq {args args' : List TermId} (h : p.Correspond p' args args') :
    p.answer args = p'.answer args' := by
  have hvalues : List.Forall₂ Eq (args.map p.value?) (args'.map p'.value?) := by
    rw [List.forall₂_map_left_iff, List.forall₂_map_right_iff, List.forall₂_iff_zip]
    exact ⟨h.length_eq, fun hmem => h.value?_eq _ hmem⟩
  rw [List.forall₂_eq_eq_eq] at hvalues
  exact congrArg Answer.mk hvalues

omit [BEq V] in
theorem FixedUpTo.shares (h : p.FixedUpTo E p' t t') : p.SharesUpTo E p' t t' := by
  obtain ⟨v, v', hv, hv', hE⟩ := h
  exact ⟨v, v', by simp [Pool.value?, term?, hv, Term.bound], by
    simp [Pool.value?, term?, hv', Term.bound], hE⟩

end Pool

namespace Database

/-! ## Clauses that are the same -/

/-- The numbers stand for clauses that are the same up to names and up to constants whose values `E`
relates. -/
def Same (E : V → V → Prop) (db db' : Database N V) (c c' : ClauseId) : Prop :=
  ∃ clause clause', db.clause? c = some clause ∧ db'.clause? c' = some clause' ∧
    clause.Renamed (db.pool.FixedUpTo E db'.pool) clause'

/-- `db'` has the clauses of `db`, with the values that they hold. -/
structure Preserves (db db' : Database N V) : Prop where
  clause?_eq : ∀ {c clause}, db.clause? c = some clause → db'.clause? c = some clause
  cell_eq : ∀ (i : Nat) (v : V), db.pool.cells[i]? = some ⟨.bound v, true⟩ →
    db'.pool.cells[i]? = some ⟨.bound v, true⟩

variable {E E' : V → V → Prop} {db db₁ db' db₁' : Database N V} {c c' : ClauseId} {name : N}

omit [BEq V] in
/-- Clauses stay the same. -/
theorem Same.preserves (h : db.Same E db' c c') (hdb : db.Preserves db₁)
    (hdb' : db'.Preserves db₁') : db₁.Same E db₁' c c' := by
  obtain ⟨clause, clause', hc, hc', hsame⟩ := h
  refine ⟨clause, clause', hdb.clause?_eq hc, hdb'.clause?_eq hc', hsame.mono fun t t' ht => ?_⟩
  obtain ⟨v, v', hv, hv', hE⟩ := ht
  exact ⟨v, v', hdb.cell_eq _ _ hv, hdb'.cell_eq _ _ hv', hE⟩

omit [BEq V] in
theorem Same.alike (h : db.Same E db' c c') :
    db.program.Alike (db.pool.FixedUpTo E db'.pool) db'.program c c' := by
  obtain ⟨clause, clause', hc, hc', hsame⟩ := h
  rw [Program.Alike, show db.program.clause? c = _ from hc,
    show db'.program.clause? c' = _ from hc']
  exact .some hsame

variable [DecidableEq N]

omit [BEq V] in
theorem PartOf.preserves (h : db.PartOf db₁) : db.Preserves db₁ :=
  ⟨h.program.clause?_eq, fun _ _ => h.pool.cell_eq⟩

/-- Under each name `db` has the clauses of `db'`, in the same order, without some that are the same
as an earlier one up to equal values. -/
def Thinned (db db' : Database N V) : Prop :=
  ∀ n, Thins (db.Same Eq db') (db.Same Equal db') (db.program.candidates n)
    (db'.program.candidates n)

theorem Thinned.preserves (h : db.Thinned db') (hdb : db.Preserves db₁) (hdb' : db'.Preserves db₁')
    (n : N) : Thins (db₁.Same Eq db₁') (db₁.Same Equal db₁') (db.program.candidates n)
      (db'.program.candidates n) :=
  (h n).mono (fun _ _ hsame => hsame.preserves hdb hdb') fun _ _ hsame => hsame.preserves hdb hdb'

/-- Without duplicate detection every fact is stored. -/
theorem addFact_of_dedup_off (h : db.config.dedupFacts = false) (name : N) (vs : List V) :
    (db.addFact name vs).db = ⟨(db.program.add (.fact ⟨name, (db.pool.addTuple vs).1⟩)).2,
      (db.pool.addTuple vs).2, db.config⟩ := by
  obtain ⟨program, pool, config⟩ := db
  have h : config.dedupFacts = false := h
  simp only [Database.addFact, h, Bool.false_eq_true, if_false]

/-! ## Loading with and without detection -/

omit [BEq V] in
/-- A fact is the same as a new one up to its values. -/
theorem same_fact (hdb : db.Valid) {f : Fact N} (hf : db.clause? c = some (.fact f))
    {vs ws : List V} (hws : f.parts.map db.value? = ws.map some) (hE : List.Forall₂ E ws vs)
    (name : N) :
    db.Same E ⟨(db'.program.add (.fact ⟨name, (db'.pool.addTuple vs).1⟩)).2,
      (db'.pool.addTuple vs).2, db'.config⟩ c db'.program.nextId :=
  ⟨_, _, hf, clause?_of_add db' _ _, .fact (Pool.forall₂_fixedUpTo (hdb.fact hf)
    (db'.pool.fixed_addTuple vs) hws (db'.pool.map_value?_addTuple vs) hE)⟩

/-- A fact is loaded into both databases, or into the second only, and then one that is equal stands
for it in the first. -/
theorem Thinned.load_fact (h : db.Thinned db') (hdb : db.Reachable)
    (hoff : db'.config.dedupFacts = false) (name : N) (vs : List V) :
    (db.addFact name vs).db.Thinned (db'.addFact name vs).db := by
  intro n
  have hpart : db.PartOf (db.addFact name vs).db := (Adds.fact name vs).partOf
  have hpart' : db'.PartOf (db'.addFact name vs).db := (Adds.fact name vs).partOf
  have hold := h.preserves hpart.preserves hpart'.preserves n
  have hvalid : (db.addFact name vs).db.Valid := (Adds.fact name vs).valid hdb.valid
  rw [addFact_of_dedup_off hoff name vs] at hold ⊢
  rw [Program.candidates_add]
  rcases addFact_cases hdb name vs with
    ⟨⟨_, _, f, ws, heq, hf, hname, hws, hequal⟩, hknown⟩ | ⟨-, hnew⟩
  · -- The fact is known where duplicates are detected; the other program gets it once more.
    obtain ⟨rfl, rfl⟩ := Command.addFact.inj heq
    rw [hknown] at hold ⊢
    split
    · next hn =>
      obtain rfl : n = name := hn
      have hmem := hdb.indexed.mem_candidates_iff.2 ⟨_, hf, hname⟩
      exact hold.drop hmem (same_fact hdb.valid hf hws hequal n)
    · exact hold
  · -- It is new in both, and comes last under its name.
    rw [hnew] at hold hvalid ⊢
    rw [Program.candidates_add]
    show Thins _ _ (if n = name then _ else _) (if n = name then _ else _)
    by_cases hn : n = name
    · rw [if_pos hn, if_pos hn]
      have hvalues : List.Forall₂ Eq vs vs := List.forall₂_same.2 fun _ _ => rfl
      exact hold.keep (same_fact hvalid (clause?_of_add db _ _) (db.pool.map_value?_addTuple vs)
        hvalues _)
    · rw [if_neg hn, if_neg hn]
      exact hold

/-- A rule is loaded into both databases. -/
theorem Thinned.load_rule (h : db.Thinned db') (hdb : db.Reachable) (hdb' : db'.Reachable)
    {params : List (Arg V)} {body : List (BodyPart N V)}
    (hload : db.load (.rule name params body) = some db₁)
    (hload' : db'.load (.rule name params body) = some db₁') : db₁.Thinned db₁' := by
  intro n
  have hold := h.preserves (adds_of_load hload).partOf.preserves
    (adds_of_load hload').partOf.preserves n
  rw [candidates_load_rule hload, candidates_load_rule hload']
  by_cases hn : n = name
  · rw [if_pos hn, if_pos hn]
    obtain ⟨r, r', hr, hr', halike⟩ := alikeAt_of_load hdb hdb' hload hload'
    exact hold.keep ⟨_, _, Program.clause?_of_rule? hr, Program.clause?_of_rule? hr',
      .rule id halike.renamed⟩
  · rw [if_neg hn, if_neg hn]
    exact hold

/-- What is declared is loaded into both databases, or has a fact that stands for it in the
first. -/
theorem Thinned.load (h : db.Thinned db') (hdb : db.Reachable) (hdb' : db'.Reachable)
    (hoff : db'.config.dedupFacts = false) {d : Declaration N V} (hload : db.load d = some db₁)
    (hload' : db'.load d = some db₁') : db₁.Thinned db₁' := by
  cases d with
  | fact name vs =>
    obtain rfl := Option.some.inj hload
    obtain rfl := Option.some.inj hload'
    exact h.load_fact hdb hoff name vs
  | rule name params body => exact h.load_rule hdb hdb' hload hload'

/-- What was loaded last, before the commands that declare nothing and leave the program alone. -/
theorem Loaded.exists_base {config : Config} {ds : List (Declaration N V)}
    (h : Loaded config ds db) : ∃ base, base.Preserves db ∧ db.program = base.program ∧
      match ds with
      | [] => base = .empty config
      | d :: ds => ∃ before, Loaded config ds before ∧ before.load d = some base := by
  induction h with
  | empty => exact ⟨_, ⟨id, fun _ _ => id⟩, rfl, rfl⟩
  | load hbefore hd _ => exact ⟨_, ⟨id, fun _ _ => id⟩, rfl, _, hbefore, hd⟩
  | exec hloaded ho hdeclared hextended ih =>
    obtain ⟨base, hbase, hprogram, hlast⟩ := ih
    have hchange := change_exec hloaded.reachable.valid ho
    rw [hdeclared, hextended] at hchange
    obtain ⟨q, hq, heq⟩ := hchange.eq_of_none
    rw [heq]
    exact ⟨base, ⟨hbase.clause?_eq, fun i v hv => hq.cell_eq i v (hbase.cell_eq i v hv)⟩, hprogram,
      hlast⟩

/-- What is loaded with and without duplicate detection differs by facts that are equal to earlier
ones. -/
theorem thinned_of_loaded {limit : Option Nat} {ds : List (Declaration N V)}
    (h : Loaded ⟨limit, true⟩ ds db) (h' : Loaded ⟨limit, false⟩ ds db') : db.Thinned db' := by
  induction ds generalizing db db' with
  | nil =>
    obtain ⟨base, -, hprogram, rfl⟩ := h.exists_base
    obtain ⟨base', -, hprogram', rfl⟩ := h'.exists_base
    intro n
    rw [hprogram, hprogram']
    exact .nil
  | cons d ds ih =>
    obtain ⟨base, hbase, hprogram, before, hbefore, hd⟩ := h.exists_base
    obtain ⟨base', hbase', hprogram', before', hbefore', hd'⟩ := h'.exists_base
    have hoff : before'.config.dedupFacts = false := by rw [hbefore'.config_eq]
    have hloaded := (ih hbefore hbefore').load hbefore.reachable hbefore'.reachable hoff hd hd'
    intro n
    rw [hprogram, hprogram']
    exact hloaded.preserves hbase hbase' n

variable {limit arity : Nat} {ds : List (Declaration N V)} {args args' : List TermId}

/-- Duplicate detection does not change what can be proved. Whatever is loaded into two databases of
which one detects duplicates: a query succeeds in both or in neither and leaves the same values, the
answers that are found with detection are among those that are found without it, in the same order,
and each of the others equals one of them position by position. -/
theorem condenses_of_loaded [EquivBEq V] (h : Loaded ⟨some limit, true⟩ ds db)
    (h' : Loaded ⟨some limit, false⟩ ds db') (haccepted : db.argsFault? arity args = none)
    (haccepted' : db'.argsFault? arity args' = none)
    (hcorrespond : db.pool.Correspond db'.pool args args') (name : N) :
    Condenses Equal db db' name arity args args' := by
  have hargs := (of_argsFault?_eq_none haccepted).2
  have hargs' := (of_argsFault?_eq_none haccepted').2
  have hrefl : ∀ v : V, Equal v v := fun _ => BEq.rfl
  have hshares : ∀ t t', db.pool.FixedUpTo Eq db'.pool t t' → db.pool.Shares db'.pool t t' := by
    intro t t' ht
    obtain ⟨v, _, hv, hv', rfl⟩ := ht.shares
    exact ⟨v, hv, hv'⟩
  have hthins : ∀ n, Thins (db.program.Alike (db.pool.FixedUpTo Eq db'.pool) db'.program)
      (db.program.Alike (db.pool.FixedUpTo Equal db'.pool) db'.program) (db.program.candidates n)
      (db'.program.candidates n) := fun n =>
    (thinned_of_loaded h h' n).mono (fun _ _ hsame => hsame.alike) fun _ _ hsame => hsame.alike
  have hanswers := Program.thins_answers comparesAlike_equal hrefl h.reachable.valid hshares
    (fun _ _ ht => ht.shares) (fun _ _ ht => ht.imp fun v _ hv => hv ▸ hrefl v) hthins hcorrespond
    hargs hargs' limit name
  exact condenses_of_thins hrefl h.reachable.valid h'.reachable.valid
    (congrArg Config.maxDepth h.config_eq) (congrArg Config.maxDepth h'.config_eq) haccepted
    haccepted' hcorrespond.answer_eq hanswers

end Database

/-! ## Values that are equal and not the same -/

/-- A number with a mark that does not count when it is compared. -/
structure Marked where
  number : Nat
  mark : Nat
deriving DecidableEq

instance : BEq Marked := ⟨fun v w => v.number == w.number⟩

instance : EquivBEq Marked where
  rfl := beq_self_eq_true (α := Nat) _
  symm h := BEq.symm (α := Nat) h
  trans h h' := BEq.trans (α := Nat) h h'

namespace Database

/-- Two facts that are equal and not the same, and a rule over them. Detection leaves the second
fact out, and with it the second answer. -/
theorem condenses_of_loaded_equal_facts :
    ∃ (ds : List (Declaration Nat Marked)) (db db' : Database Nat Marked),
      ds = [.rule 1 [.fresh] [.goal 0 [.param 0]], .fact 0 [⟨7, 1⟩], .fact 0 [⟨7, 0⟩]] ∧
      Loaded ⟨some 1, true⟩ ds db ∧ Loaded ⟨some 1, false⟩ ds db' ∧ db.clauseCount = 2 ∧
      db'.clauseCount = 3 ∧ db.argsFault? 1 [⟨0⟩] = none ∧ db'.argsFault? 1 [⟨0⟩] = none ∧
      db.pool.Correspond db'.pool [⟨0⟩] [⟨0⟩] ∧ Condenses Equal db db' 1 1 [⟨0⟩] [⟨0⟩] := by
  have hvar : ∀ dedup, Loaded ⟨some 1, dedup⟩ [] (empty (V := Marked) ⟨some 1, dedup⟩).addVar.2 :=
    fun dedup => Loaded.empty.exec
      (show (empty ⟨some 1, dedup⟩ : Database Nat Marked).exec 0 .addVar = some _ from rfl) rfl rfl
  obtain ⟨db, hdb, hcount, haccepted, hunbound⟩ := (hvar true).exists_loaded
    [.fact 0 [⟨7, 0⟩], .fact 0 [⟨7, 1⟩], .rule 1 [.fresh] [.goal 0 [.param 0]]]
    (fun db => db.clauseCount = 2 ∧ db.argsFault? 1 [⟨0⟩] = none ∧ db.pool.value? ⟨0⟩ = none)
    (by decide +kernel)
  obtain ⟨db', hdb', hcount', haccepted', hunbound'⟩ := (hvar false).exists_loaded
    [.fact 0 [⟨7, 0⟩], .fact 0 [⟨7, 1⟩], .rule 1 [.fresh] [.goal 0 [.param 0]]]
    (fun db => db.clauseCount = 3 ∧ db.argsFault? 1 [⟨0⟩] = none ∧ db.pool.value? ⟨0⟩ = none)
    (by decide +kernel)
  have hcorrespond : db.pool.Correspond db'.pool [⟨0⟩] [⟨0⟩] :=
    .singleton (hunbound.trans hunbound'.symm)
  exact ⟨_, db, db', rfl, hdb, hdb', hcount, hcount', haccepted, haccepted', hcorrespond,
    condenses_of_loaded hdb hdb' haccepted haccepted' hcorrespond 1⟩

end Database

end Hornbase
