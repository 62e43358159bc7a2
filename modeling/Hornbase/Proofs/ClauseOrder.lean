import Hornbase.Command
import Hornbase.Proofs.Renaming

/-!
# The order of clauses

If two programs have the same clauses under every name, up to their order and the names of their
terms, then their branches match one to one: a search tries the same ways in another order, and
matching branches enter the same clauses (`rel_branches`). What an earlier branch did leaves no
trace, so each branch gives the answer that its partner gives, and the two databases find the same
answers, each as often (`permuted_of_sameClauses`). Rules need not be range-restricted, and equality
of values may be anything.
-/

namespace Hornbase

universe u v

variable {N : Type u} {V : Type v} [DecidableEq N]

namespace Program

variable {C : TermId → TermId → Prop} {prog prog' : Program N}

/-- Branches of two programs match if they enter the same clauses up to names. -/
abbrev MatchingBranches (C : TermId → TermId → Prop) (prog prog' : Program N) :
    Multiset Branch → Multiset Branch → Prop :=
  Multiset.Rel (Branch.Rel fun id id' =>
    Option.Rel (Clause.Renamed C) (prog.clause? id) (prog'.clause? id'))

/-- The bodies of a clause match if those of all goals that nest one rule less do. -/
theorem rel_bodies {depth : Nat}
    (hinner : ∀ inner < depth, ∀ names : List N,
      MatchingBranches C prog prog' (prog.branches inner names) (prog'.branches inner names))
    {id id' : ClauseId}
    (hid : Option.Rel (Clause.Renamed C) (prog.clause? id) (prog'.clause? id')) :
    MatchingBranches C prog prog' (prog.bodies depth id) (prog'.bodies depth id') :=
  bodies_of_renamed (P := fun bs bs' => MatchingBranches C prog prog' bs bs') .zero
    (.cons .nil .zero) hinner hid

/-- Programs with the same clauses have the same branches, up to their order and the names that the
clauses use. -/
theorem SameClauses.rel_branches (h : prog.SameClauses (Clause.Renamed C) prog') (depth : Nat)
    (names : List N) :
    MatchingBranches C prog prog' (prog.branches depth names) (prog'.branches depth names) := by
  -- A body nests one rule less, and the goals after the first are fewer at the same depth.
  induction depth using Nat.strongRecOn generalizing names with
  | ind depth ih =>
    induction names with
    | nil =>
      rw [branches_nil, branches_nil]
      exact .cons .nil .zero
    | cons name names ihNames =>
      rw [branches_cons, branches_cons]
      simp only [← Multiset.coe_bind, ← Multiset.map_coe]
      refine Multiset.rel_bind (fun id id' hid => ?_) (h name)
      refine Multiset.rel_bind (fun body body' hbody => ?_) (rel_bodies ih hid)
      exact Multiset.rel_map.2 (ihNames.mono fun rest _ rest' _ hrest => .call hid hbody hrest)

end Program

namespace Database

variable [BEq V]

/-- The order of the clauses makes no difference but to the order of the answers. If two databases
have the same clauses under every name, up to their order and the names of their terms, then they
answer corresponding arguments alike. -/
theorem permuted_of_sameClauses {db db' : Database N V} (h : db.Reachable) (h' : db'.Reachable)
    {limit : Nat} (hlimit : db.config.maxDepth = some limit)
    (hlimit' : db'.config.maxDepth = some limit)
    (hsame : db.program.SameClauses (Clause.Renamed (db.pool.Shares db'.pool)) db'.program)
    {arity : Nat} {args args' : List TermId} (haccepted : db.argsFault? arity args = none)
    (haccepted' : db'.argsFault? arity args' = none)
    (hcorrespond : db.pool.Correspond db'.pool args args') (name : N) :
    db.Permuted db' name arity args args' := by
  obtain ⟨-, hargs⟩ := of_argsFault?_eq_none haccepted
  obtain ⟨-, hargs'⟩ := of_argsFault?_eq_none haccepted'
  refine permuted_of_rel h.valid h'.valid hlimit hlimit' haccepted haccepted'
    (hsame.rel_branches limit [name]) fun b _ b' _ hb => ?_
  exact answerAlong_eq h.valid hb hcorrespond hargs hargs' name

/-- A rule and a fact under one name and a fact under another, declared in opposite orders. -/
theorem permuted_of_sameClauses_opposite :
    ∃ db db' : Database Nat Nat, db.Reachable ∧ db'.Reachable ∧ db.config.maxDepth = some 1 ∧
      db'.config.maxDepth = some 1 ∧
      db.program.SameClauses (Clause.Renamed (db.pool.Shares db'.pool)) db'.program ∧
      db.argsFault? 1 [⟨3⟩] = none ∧ db'.argsFault? 1 [⟨1⟩] = none ∧
      db.pool.Correspond db'.pool [⟨3⟩] [⟨1⟩] ∧ db.Permuted db' 1 1 [⟨3⟩] [⟨1⟩] := by
  obtain ⟨db, hdb⟩ : ∃ db : Database Nat Nat, db =
      ⟨⟨#[.fact ⟨0, [⟨0⟩]⟩, .rule ⟨1, [⟨1⟩], [.var 0], [⟨1⟩], [⟨0, [.var 0]⟩]⟩, .fact ⟨1, [⟨2⟩]⟩],
          [(0, [⟨0⟩]), (1, [⟨1⟩, ⟨2⟩])]⟩,
        ⟨#[⟨⟨some 5⟩, true⟩, ⟨⟨none⟩, true⟩, ⟨⟨some 7⟩, true⟩, ⟨⟨none⟩, false⟩], #[]⟩,
        ⟨some 1, false⟩⟩ := ⟨_, rfl⟩
  obtain ⟨db', hdb'⟩ : ∃ db' : Database Nat Nat, db' =
      ⟨⟨#[.fact ⟨1, [⟨0⟩]⟩, .rule ⟨1, [⟨2⟩], [.var 0], [⟨2⟩], [⟨0, [.var 0]⟩]⟩, .fact ⟨0, [⟨3⟩]⟩],
          [(1, [⟨0⟩, ⟨1⟩]), (0, [⟨2⟩])]⟩,
        ⟨#[⟨⟨some 7⟩, true⟩, ⟨⟨none⟩, false⟩, ⟨⟨none⟩, true⟩, ⟨⟨some 5⟩, true⟩], #[]⟩,
        ⟨some 1, false⟩⟩ := ⟨_, rfl⟩
  have hsession : (empty ⟨some 1, false⟩ : Database Nat Nat).execAll 0
      [.addFact 0 [5], .addRule 1 [.fresh], .addGoal ⟨1⟩ 0 [.param 0], .addFact 1 [7], .addVar]
        = some db := by
    rw [hdb]
    rfl
  have hsession' : (empty ⟨some 1, false⟩ : Database Nat Nat).execAll 0
      [.addFact 1 [7], .addVar, .addRule 1 [.fresh], .addGoal ⟨1⟩ 0 [.param 0], .addFact 0 [5]]
        = some db' := by
    rw [hdb']
    rfl
  have hreachable : db.Reachable := (Reachable.empty _).execAll hsession
  have hreachable' : db'.Reachable := (Reachable.empty _).execAll hsession'
  have hlimit : db.config.maxDepth = some 1 := by rw [hdb]
  have hlimit' : db'.config.maxDepth = some 1 := by rw [hdb']
  have haccepted : db.argsFault? 1 [⟨3⟩] = none := by rw [hdb]; rfl
  have haccepted' : db'.argsFault? 1 [⟨1⟩] = none := by rw [hdb']; rfl
  have hcorrespond : db.pool.Correspond db'.pool [⟨3⟩] [⟨1⟩] :=
    .singleton (by rw [hdb, hdb']; rfl)
  have hsame : db.program.SameClauses (Clause.Renamed (db.pool.Shares db'.pool)) db'.program := by
    rw [hdb, hdb']
    refine Program.sameClauses_of_names [0, 1] (by decide) (by decide) ?_
    rw [List.forall_mem_cons, List.forall_mem_singleton]
    constructor
    · exact .cons (.some (.fact (.cons ⟨5, rfl, rfl⟩ .nil))) .zero
    · have hswap : (([⟨0⟩, ⟨1⟩] : List ClauseId) : Multiset ClauseId) = ↑[(⟨1⟩ : ClauseId), ⟨0⟩] :=
        Multiset.coe_eq_coe.2 (.swap ..)
      refine hswap ▸ .cons (.some (.rule id ⟨Function.injective_id, fun _ hi => hi, ?_, ?_⟩))
        (.cons (.some (.fact (.cons ⟨7, rfl, rfl⟩ .nil))) .zero)
      · exact .cons (.var 0) .nil
      · exact .cons ⟨rfl, .cons (.var 0) .nil⟩ .nil
  exact ⟨db, db', hreachable, hreachable', hlimit, hlimit', hsame, haccepted, haccepted',
    hcorrespond, permuted_of_sameClauses hreachable hreachable' hlimit hlimit' hsame haccepted
      haccepted' hcorrespond 1⟩

end Database

end Hornbase
