import Hornbase.Proofs.Queries
import Mathlib.Data.List.Perm.Subperm
import Mathlib.Logic.Relation

/-!
# Searches that end

A search ends if it has a limit on the nesting of rules, whatever its program is. Without a limit it
ends if no relation that it can come to calls itself, directly or through others. Then the names
that a chain of calls passes through are all different, and each of them has a rule; so no search
nests more rules than the program has clauses, and it goes exactly as it would under a limit of that
size.
-/

namespace Hornbase

universe u v

variable {N : Type u} {V : Type v}

/-! ## Calls between relations -/

namespace Program

/-- Some rule of the relation `name` has a goal that calls `callee`. -/
def Calls (prog : Program N) (name callee : N) : Prop :=
  ∃ id r, prog.rule? id = some r ∧ r.name = name ∧ ∃ g ∈ r.body, g.name = callee

/-- No relation that `name` leads to, through any number of calls, leads back to itself. -/
def AcyclicFrom (prog : Program N) (name : N) : Prop :=
  ∀ callee, Relation.ReflTransGen prog.Calls name callee →
    ¬ Relation.TransGen prog.Calls callee callee

/-- A chain of `depth` calls leads from `name` to a relation. -/
inductive CallsIn (prog : Program N) (name : N) : (depth : Nat) → (callee : N) → Prop
  | zero : CallsIn prog name 0 name
  | succ {depth : Nat} {callee callee' : N} : CallsIn prog name depth callee →
      prog.Calls callee callee' → CallsIn prog name (depth + 1) callee'

variable {prog : Program N} {name callee : N} {depth : Nat}

theorem CallsIn.reaches (h : prog.CallsIn name depth callee) :
    Relation.ReflTransGen prog.Calls name callee := by
  induction h with
  | zero => exact .refl
  | succ _ hcalls ih => exact ih.tail hcalls

/-- A relation that calls another has a rule among the clauses. -/
theorem Calls.mem_names (h : prog.Calls name callee) :
    name ∈ prog.clauses.toList.map Clause.name := by
  obtain ⟨id, r, hr, rfl, -⟩ := h
  have hclause : prog.clauses[id.index]? = some (.rule r) := clause?_of_rule? hr
  exact List.mem_map.2 ⟨.rule r, Array.mem_toList_iff.2 (Array.mem_of_getElem? hclause), rfl⟩

/-- The relations that a chain of calls comes through are all different, and each has a rule. -/
theorem AcyclicFrom.exists_callers (h : prog.AcyclicFrom name)
    (hcalled : prog.CallsIn name depth callee) :
    ∃ callers : List N, callers.length = depth ∧ callers.Nodup ∧
      callers ⊆ prog.clauses.toList.map Clause.name ∧
      ∀ n ∈ callers, Relation.TransGen prog.Calls n callee := by
  induction hcalled with
  | zero => exact ⟨[], rfl, List.nodup_nil, List.nil_subset _, nofun⟩
  | @succ depth callee callee' hcalled hcalls ih =>
    obtain ⟨callers, hlength, hnodup, hrules, hlead⟩ := ih
    -- A caller that came again would lead to itself.
    have hnew : callee ∉ callers := fun hmem => h callee hcalled.reaches (hlead callee hmem)
    refine ⟨callee :: callers, congrArg (· + 1) hlength, List.nodup_cons.2 ⟨hnew, hnodup⟩,
      List.cons_subset.2 ⟨hcalls.mem_names, hrules⟩, fun n hn => ?_⟩
    rcases List.mem_cons.1 hn with rfl | hn
    · exact .single hcalls
    · exact (hlead n hn).tail hcalls

/-- No chain of calls is longer than the program. -/
theorem AcyclicFrom.depth_le (h : prog.AcyclicFrom name)
    (hcalled : prog.CallsIn name depth callee) : depth ≤ prog.size := by
  obtain ⟨callers, rfl, hnodup, hrules, -⟩ := h.exists_callers hcalled
  have hle := (List.subperm_of_subset hnodup hrules).length_le
  simpa [size] using hle

/-- A program whose rules call only relations of lower rank has no cycle of calls. -/
theorem acyclicFrom_of_rank (rank : N → Nat)
    (h : ∀ id r, prog.rule? id = some r → ∀ g ∈ r.body, rank g.name < rank r.name) (name : N) :
    prog.AcyclicFrom name := by
  have hcalls : ∀ n m, prog.Calls n m → rank m < rank n := by
    rintro _ _ ⟨id, r, hr, rfl, g, hg, rfl⟩
    exact h id r hr g hg
  have hlead : ∀ n m, Relation.TransGen prog.Calls n m → rank m < rank n := by
    intro n m hnm
    induction hnm with
    | single hcall => exact hcalls _ _ hcall
    | tail _ hcall ih => exact Nat.lt_trans (hcalls _ _ hcall) ih
  exact fun callee _ hcycle => Nat.lt_irrefl _ (hlead callee callee hcycle)

end Program

/-! ## Chains of calls on the stacks -/

variable [DecidableEq N] [BEq V]

namespace Search

variable {prog : Program N} {name : N}

/-- The number of rules in use around whatever stands on the stacks is the length of a chain of
calls that leads to it: goals that wait are called in so many calls, and so is the relation whose
clauses are still to be tried. -/
def Chained (prog : Program N) (name : N) (s : Search N V) : Prop :=
  s.Stacked (fun depth gs => ∀ g ∈ gs, prog.CallsIn name depth g.name)
    fun depth ids => ∃ callee, prog.CallsIn name depth callee ∧
      ∀ id ∈ ids, ∀ r, prog.clause? id = some (.rule r) → r.name = callee

/-- A rule that is entered prolongs the chain by a call. -/
theorem Chained.step (hindexed : prog.Indexed) {s : Search N V} (h : s.Chained prog name)
    (limit : Option Nat) : (s.step prog limit).state.Chained prog name := by
  refine Stacked.step h ⟨?_, ?_, ?_, ?_, ?_, ?_⟩ limit
  · exact fun _ _ hgs => hgs
  · exact fun _ _ hids => hids
  · rintro depth id ids ⟨callee, hcalled, hnamed⟩
    exact ⟨callee, hcalled, fun i hi => hnamed i (List.mem_cons_of_mem id hi)⟩
  · rintro depth id ids r ⟨callee, hcalled, hnamed⟩ hr g hg
    have hname := hnamed id (List.mem_cons_self ..) r hr
    have hrule : prog.rule? id = some r := by simp only [Program.rule?, hr]
    exact hcalled.succ ⟨id, r, hrule, hname, g, hg, rfl⟩
  · exact fun _ g gs hgs g' hg' => hgs g' (List.mem_cons_of_mem g hg')
  · exact fun _ g gs hgs => ⟨g.name, hgs g (List.mem_cons_self ..), fun id hid r hr =>
      hindexed.name_eq hid hr⟩

/-- Without a cycle of calls a limit as great as the program makes no difference. -/
theorem Run.unlimited (hindexed : prog.Indexed) (hacyclic : prog.AcyclicFrom name)
    {s t : Search N V} {found : List (Search N V)}
    (hrun : Run prog (some (prog.size + 1)) s found t) (h : s.Chained prog name) :
    Run prog none s found t := by
  have hstep : ∀ s : Search N V, s.Chained prog name →
      s.step prog (some (prog.size + 1)) = s.step prog none := by
    refine fun s hs => step_some (fun c hc => ?_) prog
    obtain ⟨callee, hcalled, -⟩ := hs.untried c hc
    exact Nat.lt_succ_of_le (hacyclic.depth_le hcalled)
  induction hrun with
  | refl s => exact .refl s
  | running hs _ ih =>
    have hnext := h.step hindexed (some (prog.size + 1))
    rw [hs] at hnext
    rw [hstep _ h] at hs
    exact .running hs (ih hnext)
  | answered hs _ ih =>
    have hnext := h.step hindexed (some (prog.size + 1))
    rw [hs] at hnext
    rw [hstep _ h] at hs
    exact .answered hs (ih ⟨hnext.untried, hnext.goals⟩)

end Search

/-! ## Questions -/

namespace Database

variable {db : Database N V}

/-- A search by clauses of one relation ends if there is a limit, or no cycle of calls in what the
relation leads to. -/
theorem exists_run (h : db.Reachable) {name : N}
    (hends : db.config.maxDepth.isSome = true ∨ db.program.AcyclicFrom name)
    {ids : List ClauseId}
    (hids : ∀ id ∈ ids, ∀ r, db.program.clause? id = some (.rule r) → r.name = name)
    {args : List TermId} (hargs : ∀ t ∈ args, t.index < db.pool.size) :
    ∃ found t, Search.Run db.program db.config.maxDepth (Search.start db.pool ids args) found t ∧
      t.calls = [] := by
  cases hlimit : db.config.maxDepth with
  | some limit =>
    obtain ⟨found, t, hrun, ht, -, -⟩ := Search.run_start limit h.valid hargs ids
    exact ⟨found, t, hrun, ht⟩
  | none =>
    have hacyclic : db.program.AcyclicFrom name := by
      rw [hlimit] at hends
      exact hends.resolve_left nofun
    obtain ⟨found, t, hrun, ht, -, -⟩ :=
      Search.run_start (db.program.size + 1) h.valid hargs ids
    have hstart : (Search.start db.pool ids args).Chained db.program name :=
      Search.stacked_start ⟨name, .zero, hids⟩ db.pool args
    exact ⟨found, t, hrun.unlimited h.indexed hacyclic hstart, ht⟩

/-- Every question ends that has a limit on the nesting of rules, or that starts no cycle of calls:
a query for one answer or for all, for whatever arguments, and the resolution of a single rule. -/
theorem questions_end (h : db.Reachable) :
    (∀ name, db.config.maxDepth.isSome = true ∨ db.program.AcyclicFrom name → ∀ arity args,
        (∃ rounds o, db.query rounds name arity args = some o) ∧
          ∃ rounds o, db.queryAll rounds name arity args = some o) ∧
      ∀ c, db.config.maxDepth.isSome = true ∨
          (∀ r, db.program.rule? c = some r → db.program.AcyclicFrom r.name) →
        ∀ args, ∃ rounds o, db.resolve rounds c args = some o := by
  refine ⟨fun name hends arity args => ?_, fun c hends args => ?_⟩
  · cases hfault : db.argsFault? arity args with
    | some failure =>
      -- Arguments that are refused are not searched for.
      exact ⟨⟨0, _, by simp only [query, tryQuery, hfault]; rfl⟩,
        ⟨0, _, by simp only [queryAll, hfault]; rfl⟩⟩
    | none =>
      obtain ⟨found, t, hrun, ht⟩ := exists_run h hends
        (fun id hid r hr => h.indexed.name_eq hid hr) (of_argsFault?_eq_none hfault).2
      exact ⟨exists_query_of_prove hfault (exists_prove_of_run hrun ht),
        (queryAll_of_run hfault hrun ht).1⟩
  · cases hrule : db.program.rule? c with
    -- Where there is no such rule, there is no search either.
    | none => exact ⟨0, _, by simp only [resolve, hrule]; rfl⟩
    | some r =>
      simp only [resolve, hrule]
      cases hfault : db.argsFault? r.arity args with
      | some failure => exact ⟨0, _, rfl⟩
      | none =>
        -- The search starts with the one rule, which has its own name.
        have hids : ∀ id ∈ [c], ∀ r', db.program.clause? id = some (.rule r') →
            r'.name = r.name := by
          intro id hid r' hr'
          rw [List.mem_singleton.1 hid, Program.clause?_of_rule? hrule] at hr'
          obtain rfl := Clause.rule.inj (Option.some.inj hr')
          rfl
        obtain ⟨found, t, hrun, ht⟩ := exists_run h (hends.imp_right fun hall => hall r hrule)
          hids (of_argsFault?_eq_none hfault).2
        exact exists_prove_of_run hrun ht

/-- Rules over rules over a fact, without a limit. A rule calls only relations of lower numbers than
its own, so there is no cycle: a query for all answers ends, and so does the resolution of the last
rule. -/
theorem questions_end_numbered_relations :
    ∃ db : Database Nat Nat, db.Reachable ∧ db.config.maxDepth = none ∧
      db.argsFault? 1 [⟨3⟩] = none ∧ (db.program.rule? ⟨2⟩).map (·.body.length) = some 2 ∧
      (∀ name, db.program.AcyclicFrom name) ∧
      (∃ rounds o, db.queryAll rounds 2 1 [⟨3⟩] = some o) ∧
      ∃ rounds o, db.resolve rounds ⟨2⟩ [⟨3⟩] = some o := by
  obtain ⟨db, hreachable, hlimit, haccepted, hrule, hdown⟩ := exists_reachable ⟨none, false⟩ 0
    [.addFact 0 [5], .addRule 1 [.fresh], .addGoal ⟨1⟩ 0 [.param 0], .addRule 2 [.fresh],
      .addGoal ⟨2⟩ 1 [.param 0], .addGoal ⟨2⟩ 0 [.param 0], .addVar]
    (fun db : Database Nat Nat => db.config.maxDepth = none ∧ db.argsFault? 1 [⟨3⟩] = none ∧
      (db.program.rule? ⟨2⟩).map (·.body.length) = some 2 ∧
      ∀ i < db.program.size, ∀ r ∈ db.program.rule? ⟨i⟩, ∀ g ∈ r.body, g.name < r.name)
    (by decide +kernel)
  have hacyclic : ∀ name, db.program.AcyclicFrom name :=
    Program.acyclicFrom_of_rank id fun c r hr =>
      hdown c.index (Array.getElem?_eq_some_iff.1 (Program.clause?_of_rule? hr)).1 r hr
  obtain ⟨hquery, hresolve⟩ := questions_end hreachable
  exact ⟨db, hreachable, hlimit, haccepted, hrule, hacyclic,
    (hquery 2 (.inr (hacyclic 2)) 1 [⟨3⟩]).2, hresolve ⟨2⟩ (.inr fun r _ => hacyclic r.name) [⟨3⟩]⟩

end Database

end Hornbase
