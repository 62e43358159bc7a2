import Hornbase.Command
import Hornbase.Proofs.Edits
import Hornbase.Proofs.Renaming

/-!
# More clauses, more answers

Adding a fact, or a rule with all of its goals, leaves the stored clauses and all terms as they are
(`Adds.partOf`). The branches of before are then branches still, in the same order, though there may
be new ones anywhere between them, below any goal; and since a branch through old clauses comes upon
old terms only, it gives the answer that it gave. So no answer is lost, and the order of the old
ones stays (`queryAll_sublist_of_adds`).
-/

namespace Hornbase

universe u v

variable {N : Type u} {V : Type v}

/-! ## Terms added at the end -/

/-- `q` is `p` with terms added at the end. -/
def Pool.StartOf (p q : Pool V) : Prop := p.cells.toList <+: q.cells.toList

namespace Pool

theorem StartOf.refl (p : Pool V) : p.StartOf p := List.prefix_rfl

theorem StartOf.trans {p q r : Pool V} (hpq : p.StartOf q) (hqr : q.StartOf r) : p.StartOf r :=
  List.IsPrefix.trans hpq hqr

theorem startOf_push (p : Pool V) (c : Cell V) : p.StartOf (p.push c).2 := by
  simp [StartOf, push]

theorem startOf_addTuple (p : Pool V) (vs : List V) : p.StartOf (p.addTuple vs).2 := by
  simp [StartOf, addTuple]

/-- The terms are there still. -/
theorem StartOf.size_le {p q : Pool V} (h : p.StartOf q) : p.size ≤ q.size :=
  List.IsPrefix.length_le h

/-- They have the values that they had. -/
theorem StartOf.value?_eq {p q : Pool V} (h : p.StartOf q) {t : TermId} (ht : t.index < p.size) :
    q.value? t = p.value? t := by
  have hcell : q.cells[t.index]? = p.cells[t.index]? := by
    obtain ⟨more, hmore⟩ := h
    rw [← Array.getElem?_toList, ← Array.getElem?_toList, ← hmore]
    exact List.getElem?_append_left ht
  rw [value?, value?, term?, term?, hcell]

end Pool

namespace Rule

/-- A head needs no terms but those that are added for it. -/
theorem startOf_declareHead (params : List (Arg V)) (r : Rule N) (p : Pool V) :
    p.StartOf (declareHead params r p).2 := by
  induction params generalizing r p with
  | nil => exact .refl p
  | cons arg rest ih =>
    cases arg with
    | fresh | term _ => exact (p.startOf_push ⟨.unbound, true⟩).trans (ih _ _)
    | value v => exact (p.startOf_push ⟨.bound v, true⟩).trans (ih _ _)
    | param i => exact ih _ _

theorem DeclaresArg.startOf {r r₁ : Rule N} {p p₁ : Pool V} {a : Arg V} {o : Operand}
    (h : r.DeclaresArg p a o r₁ p₁) : p.StartOf p₁ := by
  cases h with
  | fresh => exact p.startOf_push ⟨.unbound, true⟩
  | value v => exact p.startOf_push ⟨.bound v, true⟩
  | term _ | param _ => exact .refl p

/-- A goal needs no terms but those that are added for it. -/
theorem DeclaresArgs.startOf {args : List (Arg V)} {r r' : Rule N} {p p' : Pool V}
    {os : List Operand} (h : DeclaresArgs args r p os r' p') : p.StartOf p' := by
  induction h with
  | nil r p => exact .refl p
  | cons hfirst _ ih => exact hfirst.startOf.trans ih

end Rule

/-! ## Clauses added at the end -/

namespace Program

/-- There is no clause with the next handle. -/
theorem clause?_nextId (prog : Program N) : prog.clause? prog.nextId = none :=
  Array.getElem?_eq_none (Nat.le_refl _)

variable [DecidableEq N] {prog prog' : Program N}

/-- A program is part of itself with a further clause. -/
theorem partOf_add (prog : Program N) (c : Clause N) : prog.PartOf (prog.add c).2 where
  candidates name := by
    rw [candidates_add]
    split
    · exact List.sublist_append_left ..
    · exact .refl _
  clause?_eq {id clause} hclause := by
    have hold : id ≠ prog.nextId := by
      rintro rfl
      rw [clause?_nextId] at hclause
      cases hclause
    rw [clause?_add, if_neg hold]
    exact hclause

/-- A rule that is not part of the program may be given further goals. -/
theorem PartOf.setRule (h : prog.PartOf prog') {id : ClauseId} (hnew : prog.clause? id = none)
    (r : Rule N) : prog.PartOf (prog'.setRule id r) where
  candidates := h.candidates
  clause?_eq {i clause} hclause := by
    have hold : i ≠ id := by
      rintro rfl
      rw [hnew] at hclause
      cases hclause
    rw [clause?_setRule, if_neg hold]
    exact h.clause?_eq hclause

end Program

/-! ## Branches through old clauses -/

/-- A valid operand is its own renaming. -/
theorem Operand.Valid.renamed {p : Pool V} {C : TermId → TermId → Prop}
    (hC : ∀ t, p.Fixed t → C t t) {k : Nat} {o : Operand} (ho : o.Valid p k) :
    o.Renamed C id o := by
  cases o with
  | var n => exact .var n
  | const t => exact .const (hC t ho)

/-- A valid clause is its own renaming. -/
theorem Clause.Valid.renamed {p : Pool V} {C : TermId → TermId → Prop} (hC : ∀ t, p.Fixed t → C t t)
    {c : Clause N} (hc : c.Valid p) : c.Renamed C c := by
  cases c with
  | fact f => exact .fact (List.forall₂_same.2 fun t ht => hC t (hc t ht))
  | rule r =>
    have hr : r.Valid p := hc
    refine .rule id ⟨Function.injective_id, fun _ hi => hi, ?_, ?_⟩
    · exact List.forall₂_same.2 fun o ho => (hr.params o ho).renamed hC
    · refine List.forall₂_same.2 fun g hg => ⟨rfl, ?_⟩
      exact List.forall₂_same.2 fun o ho => (hr.body g hg o ho).renamed hC

/-- A branch of a valid program enters the same clauses in a program with more of them. -/
theorem Program.PartOf.rel_of_mem [DecidableEq N] {prog prog' : Program N} {p : Pool V}
    {C : TermId → TermId → Prop} (h : prog.PartOf prog') (hvalid : prog.Valid p)
    (hindexed : prog.Indexed) (hC : ∀ t, p.Fixed t → C t t) {b : Branch} {depth : Nat}
    {names : List N} (hb : b ∈ prog.branches depth names) :
    b.Rel (fun id id' => Option.Rel (Clause.Renamed C) (prog.clause? id) (prog'.clause? id'))
      b := by
  induction b generalizing depth names with
  | nil => exact .nil
  | call id body rest ihBody ihRest =>
    cases names with
    | nil => simp at hb
    | cons name names =>
      obtain ⟨hid, hbody, hrest⟩ := call_mem_branches_iff.1 hb
      obtain ⟨clause, hclause⟩ := hindexed.exists_clause? hid
      refine .call ?_ ?_ (ihRest hrest)
      · rw [hclause, h.clause?_eq hclause]
        exact .some ((hvalid id clause hclause).renamed hC)
      · cases clause with
        | fact f =>
          rw [bodies_fact hclause, List.mem_singleton] at hbody
          exact hbody ▸ .nil
        | rule r =>
          obtain ⟨inner, rfl, hinner⟩ := (mem_bodies_rule hclause).1 hbody
          exact ihBody hinner

/-! ## Additions -/

namespace Database

/-- `db'` has the clauses and terms of `db`, and perhaps others. -/
structure PartOf [DecidableEq N] (db db' : Database N V) : Prop where
  config_eq : db'.config = db.config
  program : db.program.PartOf db'.program
  pool : db.pool.StartOf db'.pool

variable [DecidableEq N]

/-- The rule `c` is given further variables and goals, one after the other. -/
inductive Builds (c : ClauseId) (db : Database N V) : Database N V → Prop
  | done : Builds c db db
  | ruleVar {db' : Database N V} {o : Outcome N V TermId} :
    Builds c db db' → db'.addRuleVar c = .ok o → Builds c db o.db
  | goal {db' : Database N V} {name : N} {args : List (Arg V)} {o : Outcome N V Unit} :
    Builds c db db' → db'.addGoal c name args = .ok o → Builds c db o.db

/-- A clause is added: a fact, or a rule with its head and its whole body. -/
inductive Adds [BEq V] (db : Database N V) : Database N V → Prop
  | fact (name : N) (vs : List V) : Adds db (db.addFact name vs).db
  | rule {name : N} {params : List (Arg V)} {o : Outcome N V ClauseId} {db' : Database N V} :
    db.addRule name params = .ok o → o.db.Builds o.result db' → Adds db db'

variable {db db' : Database N V}

/-- Building a rule keeps a database valid. -/
theorem Builds.valid {c : ClauseId} (h : db.Builds c db') (hdb : db.Valid) : db'.Valid := by
  induction h with
  | done => exact hdb
  | ruleVar _ ho ih => exact (edit_addRuleVar ih ho).valid ih
  | goal _ ho ih => exact (edit_addGoal ih ho).valid ih

/-- Building a new rule changes nothing of what was there before. -/
theorem Builds.partOf {base : Database N V} {c : ClauseId} (h : db.Builds c db')
    (hbase : base.PartOf db) (hnew : base.program.clause? c = none) : base.PartOf db' := by
  induction h with
  | done => exact hbase
  | @ruleVar db' o _ ho ih =>
    obtain ⟨r, -, -, hadded⟩ := addRuleVar_eq_ok ho
    rw [hadded]
    exact ⟨ih.config_eq, ih.program.setRule hnew _, ih.pool.trans (db'.pool.startOf_push _)⟩
  | goal _ ho ih =>
    obtain ⟨r, os, r', p, -, hgoal, hadded⟩ := addGoal_eq_ok ho
    rw [hadded]
    exact ⟨ih.config_eq, ih.program.setRule hnew _, ih.pool.trans hgoal.startOf⟩

variable [BEq V]

/-- Adding a clause keeps a database valid. -/
theorem Adds.valid (h : db.Adds db') (hdb : db.Valid) : db'.Valid := by
  cases h with
  | fact name vs => exact (db.edit_addFact name vs).valid hdb
  | rule ho hbuilds => exact hbuilds.valid ((edit_addRule ho).valid hdb)

/-- Adding a clause changes nothing of what was there before. -/
theorem Adds.partOf (h : db.Adds db') : db.PartOf db' := by
  cases h with
  | fact name vs =>
    rcases db.addFact_found_or name vs with ⟨-, hsame⟩ | ⟨-, hadded⟩
    · rw [hsame]
      exact ⟨rfl, .refl _, .refl _⟩
    · rw [hadded]
      exact ⟨rfl, db.program.partOf_add _, db.pool.startOf_addTuple vs⟩
  | @rule name params o db' ho hbuilds =>
    obtain ⟨-, hid, hadded⟩ := addRule_eq_ok ho
    have hnew : db.program.clause? o.result = none ∧ db.PartOf o.db := by
      rw [hid, hadded]
      exact ⟨db.program.clause?_nextId, rfl, db.program.partOf_add _,
        Rule.startOf_declareHead params { name } db.pool⟩
    exact hbuilds.partOf hnew.2 hnew.1

/-- The answers of before are among those of after, in their order. -/
theorem PartOf.answers_sublist (h : db.PartOf db') (hvalid : db.Valid)
    (hindexed : db.program.Indexed) {args : List TermId}
    (hargs : ∀ t ∈ args, t.index < db.pool.size) (depth : Nat) (name : N) :
    (db.program.answers depth name args db.pool.values).Sublist
      (db'.program.answers depth name args db'.pool.values) := by
  have hfixed : ∀ t, db.pool.Fixed t → db.pool.Shares db'.pool t t := by
    intro t ht
    obtain ⟨v, hv⟩ := ht.exists_value?
    exact ⟨v, hv, (h.pool.value?_eq ht.lt).trans hv⟩
  have hcorrespond : db.pool.Correspond db'.pool args args :=
    .self fun t ht => (h.pool.value?_eq (hargs t ht)).symm
  have hsame : db.program.answers depth name args db.pool.values =
      (db.program.branches depth [name]).filterMap
        (db'.program.answerAlong name args db'.pool.values) := by
    refine List.filterMap_congr fun b hb => ?_
    exact answerAlong_eq hvalid (h.program.rel_of_mem hvalid hindexed hfixed hb) hcorrespond hargs
      (fun t ht => Nat.lt_of_lt_of_le (hargs t ht) h.pool.size_le) name
  rw [hsame]
  exact (h.program.branches_sublist (Nat.le_refl depth) [name]).filterMap _

variable {limit arity : Nat} {args : List TermId}

/-- Adding a clause never loses an answer. Arguments that were accepted still are, all requests end,
the answers of before are among those of after, with the same values and in the same order, and a
query that succeeded still succeeds. -/
theorem queryAll_sublist_of_adds (h : db.Reachable) (hlimit : db.config.maxDepth = some limit)
    (hadds : db.Adds db') (haccepted : db.argsFault? arity args = none) (name : N) :
    db'.argsFault? arity args = none ∧
      ((∃ rounds o, db.queryAll rounds name arity args = some o) ∧
        ∃ rounds o, db'.queryAll rounds name arity args = some o) ∧
      (∀ rounds o rounds' o', db.queryAll rounds name arity args = some o →
        db'.queryAll rounds' name arity args = some o' → o.result.Sublist o'.result) ∧
      ((∃ rounds o, db.query rounds name arity args = some o) ∧
        ∃ rounds o, db'.query rounds name arity args = some o) ∧
      ∀ rounds o rounds' o', db.query rounds name arity args = some o →
        db'.query rounds' name arity args = some o' → o.result = true → o'.result = true := by
  have hpart := hadds.partOf
  obtain ⟨harity, hargs⟩ := of_argsFault?_eq_none haccepted
  have haccepted' : db'.argsFault? arity args = none :=
    argsFault?_eq_none harity fun t ht => Nat.lt_of_lt_of_le (hargs t ht) hpart.pool.size_le
  have hlimit' : db'.config.maxDepth = some limit := by rw [hpart.config_eq, hlimit]
  have hvalid' := hadds.valid h.valid
  -- The branches of the old program are among those of the new one, in the same order.
  have hsublist := hpart.answers_sublist h.valid h.indexed hargs limit name
  -- Both searches end, and what they say is read off these lists.
  obtain ⟨hall, hfound⟩ := queryAll_answers h.valid hlimit haccepted name
  obtain ⟨hall', hfound'⟩ := queryAll_answers hvalid' hlimit' haccepted' name
  obtain ⟨hone, hverdict⟩ := query_answers h.valid hlimit haccepted name
  obtain ⟨hone', hverdict'⟩ := query_answers hvalid' hlimit' haccepted' name
  refine ⟨haccepted', ⟨hall, hall'⟩, fun rounds o rounds' o' ho ho' => ?_, ⟨hone, hone'⟩,
    fun rounds o rounds' o' ho ho' htrue => ?_⟩
  · rw [hfound rounds o ho, hfound' rounds' o' ho']
    exact hsublist
  · -- If nothing were found now, nothing would have been found before.
    rw [hverdict' rounds' o' ho']
    rw [hverdict rounds o ho] at htrue
    intro hnone
    rw [hnone] at hsublist
    exact htrue (List.sublist_nil.1 hsublist)

/-- A rule over one fact, added behind another fact of its name. -/
theorem queryAll_sublist_of_adds_rule :
    ∃ db db' : Database Nat Nat, db.Reachable ∧ db.config.maxDepth = some 1 ∧ db.Adds db' ∧
      db.argsFault? 1 [⟨2⟩] = none ∧ db'.argsFault? 1 [⟨2⟩] = none ∧
      (∃ rounds o, db'.queryAll rounds 1 1 [⟨2⟩] = some o) ∧
      ∀ rounds o rounds' o', db.queryAll rounds 1 1 [⟨2⟩] = some o →
        db'.queryAll rounds' 1 1 [⟨2⟩] = some o' → o.result.Sublist o'.result := by
  obtain ⟨db, hdb⟩ : ∃ db : Database Nat Nat, db =
      ⟨⟨#[.fact ⟨0, [⟨0⟩]⟩, .fact ⟨1, [⟨1⟩]⟩], [(0, [⟨0⟩]), (1, [⟨1⟩])]⟩,
        ⟨#[⟨⟨some 5⟩, true⟩, ⟨⟨some 7⟩, true⟩, ⟨⟨none⟩, false⟩], #[]⟩, ⟨some 1, true⟩⟩ := ⟨_, rfl⟩
  have hsession : (empty ⟨some 1, true⟩ : Database Nat Nat).execAll 0
      [.addFact 0 [5], .addFact 1 [7], .addVar] = some db := by
    rw [hdb]
    rfl
  obtain ⟨o, ho, o', ho'⟩ : ∃ o, db.addRule 1 [.fresh] = .ok o ∧
      ∃ o', o.db.addGoal o.result 0 [.param 0] = .ok o' := by
    rw [hdb]
    exact ⟨_, rfl, _, rfl⟩
  have hreachable : db.Reachable := (Reachable.empty _).execAll hsession
  have hlimit : db.config.maxDepth = some 1 := by rw [hdb]
  have haccepted : db.argsFault? 1 [⟨2⟩] = none := by rw [hdb]; rfl
  have hadds : db.Adds o'.db := .rule ho (.goal .done ho')
  obtain ⟨haccepted', ⟨-, hends⟩, hsublist, -⟩ :=
    queryAll_sublist_of_adds hreachable hlimit hadds haccepted 1
  exact ⟨db, o'.db, hreachable, hlimit, hadds, haccepted, haccepted', hends, hsublist⟩

end Database

end Hornbase
