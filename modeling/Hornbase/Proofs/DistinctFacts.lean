import Hornbase.Proofs.Duplicates

/-!
# Facts without duplicates

A database that detects duplicates compares a new fact with those stored under its name. Facts stay
what they are through all commands, and so do the values of their parts, so whatever has differed
once differs for ever: of two facts of a name the older one never equals the younger one
(`FactsDiffer`). The comparison is made while the terms of the new fact are in the pool already;
if it finds a fact, the terms are dropped again and the database is what it was.

No law is assumed of `==`, and so the order of the two sides counts: the older fact stands on the
left. With an equivalence of values the facts fall into classes.
-/

namespace Hornbase

universe u v

variable {N : Type u} {V : Type v}

/-! ## Comparing tuples -/

/-- Lists that are related position by position to the same list are related, if the relation is
transitive. -/
theorem forall₂_trans {α : Type _} {R : α → α → Prop} (hR : ∀ a b c, R a b → R b c → R a c)
    {as bs cs : List α} (h : as.Forall₂ R bs) (h' : bs.Forall₂ R cs) : as.Forall₂ R cs := by
  induction h generalizing cs with
  | nil => exact h'
  | cons hab _ ih =>
    cases h' with
    | cons hbc hrest => exact .cons (hR _ _ _ hab hbc) (ih hrest)

namespace Pool

variable [BEq V] {p q : Pool V} {xs ys : List TermId} {as bs : List V}

/-- Two tuples could not be unified if one is longer, or if they hold values that differ at one
position. -/
theorem compatible_eq_false_iff :
    p.compatible xs ys = false ↔ xs.length ≠ ys.length ∨
      ∃ (i : Nat) (x y : TermId) (a b : V), xs[i]? = some x ∧ ys[i]? = some y ∧
        p.value? x = some a ∧ p.value? y = some b ∧ (a == b) = false := by
  rw [compatible, Bool.and_eq_false_iff, beq_eq_false_iff_ne, List.all_eq_false]
  refine or_congr_right ⟨?_, ?_⟩
  · rintro ⟨⟨x, y⟩, hmem, hdiffer⟩
    obtain ⟨i, hi⟩ := List.getElem?_of_mem hmem
    obtain ⟨hx, hy⟩ := List.getElem?_zip_eq_some.1 hi
    dsimp only at hdiffer
    split at hdiffer
    · next a b ha hb => exact ⟨i, x, y, a, b, hx, hy, ha, hb, Bool.eq_false_iff.2 hdiffer⟩
    · exact absurd rfl hdiffer
  · rintro ⟨i, x, y, a, b, hx, hy, ha, hb, hdiffer⟩
    refine ⟨(x, y), List.mem_of_getElem? (List.getElem?_zip_eq_some.2 ⟨hx, hy⟩), ?_⟩
    simp [ha, hb, hdiffer]

/-- Tuples of bound terms could be unified if their values are equal at each position. -/
theorem compatible_iff_forall₂ (hxs : xs.map p.value? = as.map some)
    (hys : ys.map p.value? = bs.map some) :
    p.compatible xs ys = true ↔ as.Forall₂ (fun a b => (a == b) = true) bs := by
  refine ⟨fun h => forall₂_of_compatible h hxs hys, fun h => ?_⟩
  have hat : ∀ {zs : List TermId} {cs : List V}, zs.map p.value? = cs.map some →
      ∀ (i : Nat) z c, zs[i]? = some z → p.value? z = some c → cs[i]? = some c := by
    intro zs cs hzs i z c hz hc
    have hboth := congrArg (·[i]?) hzs
    simpa [hz, hc, eq_comm] using hboth
  by_contra hnot
  rcases compatible_eq_false_iff.1 (Bool.eq_false_iff.2 hnot) with hlength |
    ⟨i, x, y, a, b, hx, hy, ha, hb, hdiffer⟩
  · have hlengths := And.intro (congrArg List.length hxs) (congrArg List.length hys)
    simp only [List.length_map] at hlengths
    exact hlength (hlengths.1.trans (h.length_eq.trans hlengths.2.symm))
  · have hpair : (as.zip bs)[i]? = some (a, b) :=
      List.getElem?_zip_eq_some.2 ⟨hat hxs i x a hx ha, hat hys i y b hy hb⟩
    rw [(List.forall₂_iff_zip.1 h).2 (List.mem_of_getElem? hpair)] at hdiffer
    cases hdiffer

/-- Comparing tuples looks at the values of their terms only. -/
theorem compatible_congr (hxs : ∀ t ∈ xs, q.value? t = p.value? t)
    (hys : ∀ t ∈ ys, q.value? t = p.value? t) : q.compatible xs ys = p.compatible xs ys := by
  refine congrArg (xs.length == ys.length && ·) (Bool.eq_iff_iff.2 ?_)
  rw [List.all_eq_true, List.all_eq_true]
  refine forall₂_congr fun ⟨x, y⟩ hmem => ?_
  obtain ⟨hx, hy⟩ := List.of_mem_zip hmem
  dsimp only
  rw [hxs x hx, hys y hy]

end Pool

namespace Database

variable [DecidableEq N] [BEq V] {db db' : Database N V} {name : N} {vs : List V} {c : ClauseId}

/-! ## Adding a fact -/

omit [DecidableEq N] [BEq V] in
/-- Of clauses in the order of their numbers, the first of some kind has the least number. -/
theorem index_le_of_find? {p : ClauseId → Bool} {ids : List ClauseId}
    (hids : ids.Pairwise fun c c' => c.index < c'.index) (h : ids.find? p = some c) :
    ∀ c' ∈ ids, p c' = true → c.index ≤ c'.index := by
  obtain ⟨-, before, after, rfl, hbefore⟩ := List.find?_eq_some_iff_append.1 h
  intro c' hc' hp
  rcases List.mem_append.1 hc' with hold | hrest
  · have hnot := hbefore c' hold
    rw [hp] at hnot
    cases hnot
  · rcases List.mem_cons.1 hrest with rfl | hlater
    · exact Nat.le_refl _
    · have hpair := (List.pairwise_append.1 hids).2.1
      exact Nat.le_of_lt ((List.pairwise_cons.1 hpair).1 c' hlater)

/-- A stored fact equals a new one if it is of its name and could be unified with its terms. -/
theorem findsStored_iff (hdb : db.Reachable) :
    db.FindsStored (.addFact name vs) c ↔ c ∈ db.program.candidates name ∧
      ((db.program.fact? c).any fun f =>
        (db.pool.addTuple vs).2.compatible f.parts (db.pool.addTuple vs).1) = true := by
  have hvalues : ∀ f, db.clause? c = some (.fact f) →
      f.parts.map (db.pool.addTuple vs).2.value? = f.parts.map db.value? := fun f hf =>
    List.map_congr_left fun t ht =>
      (db.pool.startOf_addTuple vs).value?_eq (hdb.valid.fact hf t ht).lt
  constructor
  · rintro ⟨_, _, f, ws, heq, hf, hname, hws, hall⟩
    obtain ⟨rfl, rfl⟩ := Command.addFact.inj heq
    refine ⟨hdb.indexed.mem_candidates_iff.2 ⟨_, hf, hname⟩, ?_⟩
    have hfact : db.program.fact? c = some f := by
      rw [Program.fact?, show db.program.clause? c = some (.fact f) from hf]
    rw [hfact, Option.any_some, Pool.compatible_iff_forall₂ ((hvalues f hf).trans hws)
      (db.pool.map_value?_addTuple vs)]
    exact hall
  · rintro ⟨hmem, hany⟩
    obtain ⟨f, hfact, hcompatible⟩ := (Option.any_eq_true _ _).1 hany
    have hf := Program.clause?_of_fact? hfact
    obtain ⟨ws, hws⟩ := Pool.exists_values (hdb.valid.fact hf)
    exact ⟨name, vs, f, ws, rfl, hf, hdb.indexed.name_eq hmem hf, hws,
      Pool.forall₂_of_compatible hcompatible ((hvalues f hf).trans hws)
        (db.pool.map_value?_addTuple vs)⟩

/-- If duplicates are detected, adding a fact finds one that may stand for it and changes nothing,
or there is none and the fact is stored. -/
theorem addFact_of_dedup (hdedup : db.config.dedupFacts = true) (name : N) (vs : List V) :
    (findFact? db.program (db.pool.addTuple vs).2 name (db.pool.addTuple vs).1
        = some (db.addFact name vs).result ∧ (db.addFact name vs).db = db) ∨
      findFact? db.program (db.pool.addTuple vs).2 name (db.pool.addTuple vs).1 = none ∧
        (db.addFact name vs).result = db.program.nextId ∧
        (db.addFact name vs).db = ⟨(db.program.add (.fact ⟨name, (db.pool.addTuple vs).1⟩)).2,
          (db.pool.addTuple vs).2, db.config⟩ := by
  obtain ⟨program, pool, config⟩ := db
  dsimp only at hdedup ⊢
  cases hfound : findFact? program (pool.addTuple vs).2 name (pool.addTuple vs).1 with
  | some c =>
    refine .inl ?_
    simp only [addFact, hdedup, if_true, hfound, pool.truncate_addTuple vs, and_self]
  | none =>
    refine .inr ⟨rfl, ?_⟩
    simp only [addFact, hdedup, if_true, hfound, Program.add, Program.nextId, Program.size,
      and_self]

/-- `db'` is `db` with the fact `name(vs)` behind all clauses, made of one term for each value,
which stand behind all terms. -/
structure Appends (db : Database N V) (name : N) (vs : List V) (db' : Database N V) : Prop where
  clauses_eq : db'.program.clauses = db.program.clauses.push
    (.fact ⟨name, (List.range' db.termCount vs.length).map TermId.mk⟩)
  candidates_eq : ∀ n, db'.program.candidates n =
    if n = name then db.program.candidates n ++ [db.program.nextId] else db.program.candidates n
  cells_eq : db'.pool.cells = db.pool.cells ++ (vs.map fun v => Cell.mk (.bound v) true).toArray
  trail_eq : db'.pool.trail = db.pool.trail
  config_eq : db'.config = db.config

/-- If duplicates are detected, adding a fact gives the least number of a fact that equals it and
changes nothing, or there is no such fact and it is stored. -/
theorem addFact_least_or_appends (hdb : db.Reachable) (hdedup : db.config.dedupFacts = true)
    (name : N) (vs : List V) :
    (db.FindsStored (.addFact name vs) (db.addFact name vs).result ∧
        (∀ c, db.FindsStored (.addFact name vs) c → (db.addFact name vs).result.index ≤ c.index) ∧
        (db.addFact name vs).db = db) ∨
      (∀ c, ¬ db.FindsStored (.addFact name vs) c) ∧
        (db.addFact name vs).result = db.program.nextId ∧
        db.Appends name vs (db.addFact name vs).db := by
  rcases addFact_of_dedup hdedup name vs with ⟨hc, hsame⟩ | ⟨hnone, hid, hadded⟩
  · unfold findFact? at hc
    have hmatch := List.find?_some hc
    refine .inl ⟨(findsStored_iff hdb).2 ⟨List.mem_of_find?_eq_some hc, hmatch⟩,
      fun c' hc' => ?_, hsame⟩
    obtain ⟨hmem, hequal⟩ := (findsStored_iff hdb).1 hc'
    exact index_le_of_find? (hdb.indexed.pairwise_candidates name) hc c' hmem hequal
  · refine .inr ⟨fun c hc => ?_, hid, ?_⟩
    · obtain ⟨hmem, hequal⟩ := (findsStored_iff hdb).1 hc
      exact List.find?_eq_none.1 hnone c hmem hequal
    · rw [hadded]
      exact ⟨rfl, db.program.candidates_add _, rfl, rfl, rfl⟩

/-! ## Any history -/

/-- Of two facts of a name, the one with the smaller number could not be unified with the other. -/
def FactsDiffer (db : Database N V) : Prop :=
  ∀ c c' f f', c.index < c'.index → db.clause? c = some (.fact f) →
    db.clause? c' = some (.fact f') → f.name = f'.name → db.pool.compatible f.parts f'.parts = false

/-- Facts that differ go on to differ while no fact is added. -/
theorem FactsDiffer.lasts {extended : ClauseId → Prop} (h : db.FactsDiffer) (hdb : db.Reachable)
    (hlasts : db.Lasts extended db')
    (hold : ∀ c f, db'.clause? c = some (.fact f) → db.clause? c = some (.fact f)) :
    db'.FactsDiffer := by
  intro c c' f f' hlt hf hf' hname
  have hf := hold c f hf
  have hf' := hold c' f' hf'
  rw [← h c c' f f' hlt hf hf' hname]
  exact Pool.compatible_congr (fun t ht => hlasts.value?_eq (hdb.valid.fact hf t ht))
    fun t ht => hlasts.value?_eq (hdb.valid.fact hf' t ht)

omit [BEq V] in
/-- No change is one of the settings. -/
theorem Change.config_eq {declared : Option N} {extended : Option ClauseId}
    (h : db.Change declared extended db') : db'.config = db.config := by
  cases h <;> rfl

omit [BEq V] in
/-- A change that declares no clause stores no fact. -/
theorem Change.fact_of_none {extended : Option ClauseId} (h : db.Change none extended db')
    {f : Fact N} (hf : db'.clause? c = some (.fact f)) : db.clause? c = some (.fact f) := by
  cases h with
  | pool _ => exact hf
  | clause hdeclared => cases hdeclared
  | @rule q id r r' _ hr _ _ _ _ =>
    rw [Database.clause?, Program.clause?_setRule] at hf
    split at hf
    · rw [Program.clause?_of_rule? hr] at hf
      cases hf
    · exact hf

/-- If duplicates are detected, adding a fact leaves facts that differ. -/
theorem FactsDiffer.addFact (h : db.FactsDiffer) (hdb : db.Reachable)
    (hdedup : db.config.dedupFacts = true) (name : N) (vs : List V) :
    (db.addFact name vs).db.FactsDiffer := by
  rcases addFact_of_dedup hdedup name vs with ⟨-, hsame⟩ | ⟨hnone, -, hadded⟩
  · -- A stored fact stands for the new one, and nothing has changed.
    rw [hsame]
    exact h
  · rw [hadded]
    intro c c' f f' hlt hf hf' hname
    rw [Database.clause?, Program.clause?_add] at hf hf'
    -- The older fact is an old one, as only old clauses stand before the new one.
    have hfirst : db.clause? c = some (.fact f) := by
      split at hf
      · next hnew =>
        subst hnew
        split at hf'
        · next hnew' =>
          subst hnew'
          exact absurd hlt (Nat.lt_irrefl _)
        · have hold := (Array.getElem?_eq_some_iff.1 hf').1
          exact absurd hlt (Nat.lt_asymm hold)
      · exact hf
    split at hf'
    · -- The younger one is the new fact, and no fact of its name is equal to it.
      obtain rfl := Clause.fact.inj (Option.some.inj hf')
      have hmem := hdb.indexed.mem_candidates_iff.2 ⟨_, hfirst, hname⟩
      have hdiffers := List.find?_eq_none.1 hnone c hmem
      rwa [Program.fact?, show db.program.clause? c = some (.fact f) from hfirst, Option.any_some,
        Bool.not_eq_true] at hdiffers
    · -- Both are old, and the new terms do not change the values of their parts.
      rw [← h c c' f f' hlt hfirst hf' hname]
      have hkept := fun t => (db.pool.startOf_addTuple vs).value?_eq (t := t)
      exact Pool.compatible_congr (fun t ht => hkept t (hdb.valid.fact hfirst t ht).lt)
        fun t ht => hkept t (hdb.valid.fact hf' t ht).lt

/-- If duplicates are detected, every command leaves facts that differ. -/
theorem FactsDiffer.exec (h : db.FactsDiffer) (hdb : db.Reachable)
    (hdedup : db.config.dedupFacts = true) {rounds : Nat} {command : Command N V}
    {o : Outcome N V (Reply V)} (ho : db.exec rounds command = some o) : o.db.FactsDiffer := by
  have hchange := change_exec hdb.valid ho
  cases command with
  | addFact name vs =>
    obtain rfl := Option.some.inj ho
    exact h.addFact hdb hdedup name vs
  | addRule name params =>
    refine h.lasts hdb hchange.lasts fun c f hf => ?_
    obtain ⟨_, -, rfl⟩ | ⟨o', ho', rfl⟩ := orRefused_map_cases (Option.some.inj ho)
    · exact hf
    · obtain ⟨-, -, hadded⟩ := addRule_eq_ok ho'
      rw [Outcome.map, hadded, Database.clause?, Program.clause?_add] at hf
      split at hf
      · cases hf
      · exact hf
  | addRuleVar | addGoal | addVar | addConstant | bind | unbind =>
    exact h.lasts hdb hchange.lasts fun c f hf => hchange.fact_of_none hf
  | query | tryQuery | queryAll | unify | resolve =>
    exact h.lasts hdb hchange.lasts fun c f hf => hchange.fact_of_none hf

/-- If duplicates are detected, all facts of a name differ, whatever has been done. -/
theorem Reachable.factsDiffer (hdb : db.Reachable) (hdedup : db.config.dedupFacts = true) :
    db.FactsDiffer := by
  induction hdb with
  | empty config =>
    intro c c' f f' _ hf
    simp [Database.empty, Database.clause?, Program.clause?] at hf
  | @exec db rounds command o hdb ho ih =>
    rw [(change_exec hdb.valid ho).config_eq] at hdedup
    exact (ih hdedup).exec hdb hdedup ho

/-! ## Classes of facts -/

omit [DecidableEq N] in
/-- Two facts are equivalent if their values are equal at each position. -/
theorem equivalent_iff_forall₂ {c' : ClauseId} {f f' : Fact N} {as bs : List V}
    (hf : db.program.fact? c = some f) (hf' : db.program.fact? c' = some f')
    (has : f.parts.map db.value? = as.map some) (hbs : f'.parts.map db.value? = bs.map some) :
    db.equivalent c c' = true ↔ as.Forall₂ (fun a b => (a == b) = true) bs := by
  rw [← Pool.compatible_iff_forall₂ has hbs, equivalent, Database.clause?, Database.clause?,
    Program.clause?_of_fact? hf, Program.clause?_of_fact? hf']

/-- If `==` is an equivalence, facts fall into classes. -/
theorem equivalence_equivalent [EquivBEq V] (hdb : db.Reachable) :
    Equivalence fun c c' : { c : ClauseId // ∃ f, db.program.fact? c = some f } =>
      db.equivalent c c' = true := by
  have htuple : ∀ c : { c : ClauseId // ∃ f, db.program.fact? c = some f },
      ∃ f, ∃ vs : List V, db.program.fact? c = some f ∧ f.parts.map db.value? = vs.map some := by
    rintro ⟨c, f, hf⟩
    obtain ⟨vs, hvs⟩ := Pool.exists_values (hdb.valid.fact (Program.clause?_of_fact? hf))
    exact ⟨f, vs, hf, hvs⟩
  refine ⟨fun c => ?_, fun {c c'} h => ?_, fun {c c' c''} h h' => ?_⟩
  · obtain ⟨f, vs, hf, hvs⟩ := htuple c
    exact (equivalent_iff_forall₂ hf hf hvs hvs).2 (List.forall₂_same.2 fun _ _ => BEq.rfl)
  · obtain ⟨f, vs, hf, hvs⟩ := htuple c
    obtain ⟨f', vs', hf', hvs'⟩ := htuple c'
    have hall := (equivalent_iff_forall₂ hf hf' hvs hvs').1 h
    exact (equivalent_iff_forall₂ hf' hf hvs' hvs).2 (hall.flip.imp fun _ _ => BEq.symm)
  · obtain ⟨f, vs, hf, hvs⟩ := htuple c
    obtain ⟨f', vs', hf', hvs'⟩ := htuple c'
    obtain ⟨f'', vs'', hf'', hvs''⟩ := htuple c''
    have hall := (equivalent_iff_forall₂ hf hf' hvs hvs').1 h
    have hall' := (equivalent_iff_forall₂ hf' hf'' hvs' hvs'').1 h'
    refine (equivalent_iff_forall₂ hf hf'' hvs hvs'').2 (forall₂_trans ?_ hall hall')
    exact fun _ _ _ => BEq.trans

/-! ## The whole -/

/-- In a database that detects duplicates no two facts of a name are equal, compared from the older
to the younger one. Adding a fact gives the number of the oldest fact that equals it and changes
nothing; without one it stores the fact behind all others. In any database, if `==` is an
equivalence, so is the equivalence of facts. -/
theorem facts_distinct_of_dedup (hdb : db.Reachable) :
    (db.config.dedupFacts = true →
      (∀ c c' f f', c.index < c'.index → db.program.fact? c = some f →
        db.program.fact? c' = some f' → f.name = f'.name → db.equivalent c c' = false ∧
          (f.arity ≠ f'.arity ∨ ∃ (i : Nat) (x y : TermId) (v w : V), f.parts[i]? = some x ∧
            f'.parts[i]? = some y ∧ db.value? x = some v ∧ db.value? y = some w ∧
            (v == w) = false)) ∧
        ∀ name vs,
          (db.FindsStored (.addFact name vs) (db.addFact name vs).result ∧
              (∀ c, db.FindsStored (.addFact name vs) c →
                (db.addFact name vs).result.index ≤ c.index) ∧
              (db.addFact name vs).db = db) ∨
            (∀ c, ¬ db.FindsStored (.addFact name vs) c) ∧
              (db.addFact name vs).result = db.program.nextId ∧
              db.Appends name vs (db.addFact name vs).db) ∧
      (EquivBEq V → Equivalence fun c c' : { c : ClauseId // ∃ f, db.program.fact? c = some f } =>
        db.equivalent c c' = true) := by
  refine ⟨fun hdedup => ⟨fun c c' f f' hlt hf hf' hname => ?_, addFact_least_or_appends hdb hdedup⟩,
    fun _ => equivalence_equivalent hdb⟩
  have hclause := Program.clause?_of_fact? hf
  have hclause' := Program.clause?_of_fact? hf'
  have hdiffer := hdb.factsDiffer hdedup c c' f f' hlt hclause hclause' hname
  refine ⟨?_, Pool.compatible_eq_false_iff.1 hdiffer⟩
  rw [equivalent, Database.clause?, Database.clause?, hclause, hclause']
  exact hdiffer

/-- A name shared by a rule and three facts, two of them with one position. They stay apart while
terms are bound and queries are asked, and a fact that equals the younger one is not stored. -/
theorem facts_distinct_of_dedup_shared_name :
    ∃ db : Database Nat Marked, db.Reachable ∧ db.config.dedupFacts = true ∧ db.clauseCount = 4 ∧
      db.value? ⟨2⟩ = some ⟨7, 0⟩ ∧ db.equivalent ⟨0⟩ ⟨3⟩ = false ∧
      (db.addFact 0 [⟨8, 2⟩]).result = ⟨3⟩ ∧ (db.addFact 0 [⟨8, 2⟩]).db = db ∧
      (db.addFact 0 [⟨9, 0⟩]).result = ⟨4⟩ ∧ db.Appends 0 [⟨9, 0⟩] (db.addFact 0 [⟨9, 0⟩]).db := by
  obtain ⟨db, hreachable, hdedup, hcount, hvalue, hfacts, hknown, hnew⟩ :=
    exists_reachable ⟨some 1, true⟩ 20
      [.addFact 0 [⟨7, 0⟩], .addRule 0 [.fresh], .addVar, .addFact 0 [⟨7, 0⟩, ⟨8, 0⟩],
        .query 0 1 [⟨2⟩], .addFact 0 [⟨8, 1⟩], .addFact 0 [⟨7, 1⟩]]
      (fun db : Database Nat Marked => db.config.dedupFacts = true ∧ db.clauseCount = 4 ∧
        db.value? ⟨2⟩ = some ⟨7, 0⟩ ∧
        ((db.program.fact? ⟨0⟩).any fun f => (db.program.fact? ⟨3⟩).any fun f' =>
          decide (f.name = f'.name)) = true ∧
        (db.addFact 0 [⟨8, 2⟩]).result = ⟨3⟩ ∧ (db.addFact 0 [⟨9, 0⟩]).result = ⟨4⟩)
      (by decide +kernel)
  obtain ⟨hdiffer, hadds⟩ := (facts_distinct_of_dedup hreachable).1 hdedup
  obtain ⟨f, hf, hany⟩ := (Option.any_eq_true _ _).1 hfacts
  obtain ⟨f', hf', hname⟩ := (Option.any_eq_true _ _).1 hany
  have hequivalent := (hdiffer ⟨0⟩ ⟨3⟩ f f' (by decide) hf hf' (of_decide_eq_true hname)).1
  have hnext : db.program.nextId = ⟨4⟩ := congrArg ClauseId.mk hcount
  refine ⟨db, hreachable, hdedup, hcount, hvalue, hequivalent, hknown, ?_, hnew, ?_⟩
  · rcases hadds 0 [⟨8, 2⟩] with ⟨-, -, hsame⟩ | ⟨-, hid, -⟩
    · exact hsame
    · rw [hknown, hnext] at hid
      exact absurd hid (by decide)
  · rcases hadds 0 [⟨9, 0⟩] with ⟨⟨_, _, f, _, -, hf, -⟩, -⟩ | ⟨-, -, happends⟩
    · rw [hnew, ← hnext, Database.clause?, Program.clause?_nextId] at hf
      cases hf
    · exact happends

end Database

end Hornbase
