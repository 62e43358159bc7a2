import Hornbase.Command
import Hornbase.Proofs.Filtering
import Hornbase.Proofs.Renaming
import Mathlib.Data.List.Zip

/-!
# The order of goals

Which tuples a branch explains does not depend on the order of the goals in it: each goal has a
branch of its own, and all of them explain labels under the same values of the variables. So the
ways through a body, each read as the condition that it puts on these values, are the same multiset
for every order of the body (`explainedBy_perm`). By induction on the nesting of rules the ways to
prove a call then explain the same tuples, each as often, in any two programs whose clauses differ
in names and in the order of goals only (`explained_eq`). Over range-restricted programs a branch
answers what it explains, so these programs find the same answers.
-/

namespace Hornbase

universe u v w

variable {N : Type u} {V : Type v}

/-! ## Clauses up to the order of goals -/

/-- The same clause with other names and with the goals in another order. -/
inductive Clause.Reordered (C : TermId → TermId → Prop) : Clause N → Clause N → Prop
  | fact {f f' : Fact N} : List.Forall₂ C f.parts f'.parts → Reordered C (.fact f) (.fact f')
  | rule {r r' : Rule N} (ρ : Nat → Nat) (body : List (Goal N)) :
    r.body.Perm body → Rule.Renamed C ρ { r with body } r' → Reordered C (.rule r) (.rule r')

/-- An operand with other names means the same if its variables have the same values. -/
theorem Operand.Renamed.ground_eq {C : TermId → TermId → Prop} {ρ : Nat → Nat} {o o' : Operand}
    (h : o.Renamed C ρ o') {value? value?' : TermId → Option V}
    (hC : ∀ t t', C t t' → value? t = value?' t') (σ : Nat → Option V) :
    o'.ground value?' σ = o.ground value? (σ ∘ ρ) := by
  cases h with
  | var n => rfl
  | const ht => exact (hC _ _ ht).symm

/-- Operands with other names mean the same if their variables have the same values. -/
theorem map_ground_eq {C : TermId → TermId → Prop} {ρ : Nat → Nat} {os os' : List Operand}
    (h : List.Forall₂ (Operand.Renamed C ρ) os os') {value? value?' : TermId → Option V}
    (hC : ∀ t t', C t t' → value? t = value?' t') (σ : Nat → Option V) :
    os'.map (·.ground value?' σ) = os.map (·.ground value? (σ ∘ ρ)) := by
  induction h with
  | nil => rfl
  | cons ho _ ih => rw [List.map_cons, List.map_cons, ho.ground_eq hC, ih]

/-! ## What one call of a branch explains -/

section

variable [BEq V] {prog : Program N} {value? : TermId → Option V} {id : ClauseId}
  {body rest : Branch} {ls : List (Option V)}

/-- A branch explains the labels of its first call by itself, and the others by the rest. -/
theorem supports_call_iff {more : List (List (Option V))} :
    Supports prog value? (.call id body rest) (ls :: more) ↔
      Supports prog value? (.call id body .nil) [ls] ∧ Supports prog value? rest more := by
  constructor
  · intro h
    cases h with
    | fact hclause hlabels hmore => exact ⟨.fact hclause hlabels .nil, hmore⟩
    | rule σ hclause hlabels hbody hmore => exact ⟨.rule σ hclause hlabels hbody .nil, hmore⟩
  · rintro ⟨h, hmore⟩
    cases h with
    | fact hclause hlabels _ => exact .fact hclause hlabels hmore
    | rule σ hclause hlabels hbody _ => exact .rule σ hclause hlabels hbody hmore

/-- A fact explains the labels that equal its parts. -/
theorem supports_fact_iff {f : Fact N} (hclause : prog.clause? id = some (.fact f)) :
    Supports prog value? (.call id body .nil) [ls] ↔
      List.Forall₂ (fun x y => (x == y) = true) (f.parts.map value?) ls := by
  constructor
  · intro h
    cases h with
    | fact hclause' hlabels _ =>
      cases hclause.symm.trans hclause'
      exact hlabels
    | rule _ hclause' => cases hclause.symm.trans hclause'
  · exact fun hlabels => .fact hclause hlabels .nil

/-- A rule explains labels if some values of its variables make them equal to its head and are
explained by its body. -/
theorem supports_rule_iff {r : Rule N} (hclause : prog.clause? id = some (.rule r)) :
    Supports prog value? (.call id body .nil) [ls] ↔ ∃ σ,
      List.Forall₂ (fun x y => (x == y) = true) (r.params.map (·.ground value? σ)) ls ∧
        Supports prog value? body (r.body.map fun g => g.args.map (·.ground value? σ)) := by
  constructor
  · intro h
    cases h with
    | fact hclause' => cases hclause.symm.trans hclause'
    | rule σ hclause' hlabels hbody _ =>
      cases hclause.symm.trans hclause'
      exact ⟨σ, hlabels, hbody⟩
  · rintro ⟨σ, hlabels, hbody⟩
    exact .rule σ hclause hlabels hbody .nil

end

/-! ## What all branches explain -/

namespace Program

/-- The goals of a rule, each with its labels under given values of the variables. -/
def labelled (value? : TermId → Option V) (gs : List (Goal N)) :
    List (N × ((Nat → Option V) → List (Option V))) :=
  gs.map fun g => (g.name, fun σ => g.args.map (·.ground value? σ))

/-- Goals with other names have the same labels if their variables have the same values. -/
theorem labelled_eq {C : TermId → TermId → Prop} {ρ : Nat → Nat} {gs gs' : List (Goal N)}
    (h : List.Forall₂ (Goal.Renamed C ρ) gs gs') {value? value?' : TermId → Option V}
    (hC : ∀ t t', C t t' → value? t = value?' t') :
    labelled value?' gs' = (labelled value? gs).map fun g => (g.1, g.2 ∘ (· ∘ ρ)) := by
  induction h with
  | nil => rfl
  | cons hgoal _ ih =>
    refine congrArg₂ List.cons (Prod.ext hgoal.name_eq.symm ?_) ih
    exact funext fun σ => map_ground_eq hgoal.args hC σ

variable [DecidableEq N] [BEq V]

/-- The ways to prove a call of `name`, each as the set of the labels that it explains. -/
def explained (prog : Program N) (value? : TermId → Option V) (depth : Nat) (name : N) :
    Multiset (List (Option V) → Prop) :=
  (prog.branches depth [name] : Multiset Branch).map fun b ls => Supports prog value? b [ls]

/-- The ways through goals whose labels depend on a parameter, each as the set of the parameters for
which it explains them. -/
def explainedBy {α : Type w} (prog : Program N) (value? : TermId → Option V) (depth : Nat)
    (goals : List (N × (α → List (Option V)))) : Multiset (α → Prop) :=
  (prog.branches depth (goals.map (·.1)) : Multiset Branch).map fun b a =>
    Supports prog value? b (goals.map fun g => g.2 a)

section

variable {prog prog' : Program N} {value? value?' : TermId → Option V} {depth : Nat} {α : Type w}

/-- The ways to prove a call enter the candidates for it. -/
theorem explained_eq_bind (name : N) : prog.explained value? depth name =
    (prog.candidates name : Multiset ClauseId).bind fun id =>
      (prog.bodies depth id : Multiset Branch).map fun body ls =>
        Supports prog value? (.call id body .nil) [ls] := by
  simp only [explained, branches_cons, branches_nil, ← Multiset.coe_bind, Multiset.map_bind,
    List.map_cons, List.map_nil, Multiset.coe_singleton, Multiset.bind_singleton, Multiset.map_map,
    Function.comp_def]

/-- The ways through goals are those through the first, each with those through the others. -/
theorem explainedBy_cons (goal : N × (α → List (Option V)))
    (goals : List (N × (α → List (Option V)))) :
    prog.explainedBy value? depth (goal :: goals) =
      (prog.explained value? depth goal.1).bind fun P =>
        (prog.explainedBy value? depth goals).map fun Q a => P (goal.2 a) ∧ Q a := by
  simp only [explained_eq_bind, explainedBy, List.map_cons, branches_cons, ← Multiset.coe_bind,
    ← Multiset.map_coe, Multiset.map_bind, Multiset.bind_assoc, Multiset.bind_map,
    Multiset.map_map, Function.comp_def]
  refine Multiset.bind_congr fun id _ => Multiset.bind_congr fun body _ => ?_
  exact Multiset.map_congr rfl fun rest _ => funext fun a => propext supports_call_iff

/-- The order of the goals makes no difference. -/
theorem explainedBy_perm {goals goals' : List (N × (α → List (Option V)))}
    (h : goals.Perm goals') :
    prog.explainedBy value? depth goals = prog.explainedBy value? depth goals' := by
  induction h with
  | nil => rfl
  | cons goal _ ih => rw [explainedBy_cons, explainedBy_cons, ih]
  | swap first second goals =>
    simp only [explainedBy_cons, Multiset.map_bind, Multiset.map_map, Function.comp_def]
    rw [Multiset.bind_bind]
    refine Multiset.bind_congr fun P _ => Multiset.bind_congr fun Q _ => ?_
    exact Multiset.map_congr rfl fun R _ => funext fun a => propext and_left_comm
  | trans _ _ ih ih' => exact ih.trans ih'

/-- What goals explain depends only on what explains each of them. -/
theorem explainedBy_congr
    (h : ∀ name, prog.explained value? depth name = prog'.explained value?' depth name)
    (goals : List (N × (α → List (Option V)))) :
    prog.explainedBy value? depth goals = prog'.explainedBy value?' depth goals := by
  induction goals with
  | nil =>
    simp only [explainedBy, List.map_nil, branches_nil]
    refine Multiset.map_congr rfl fun b hb => funext fun _ => propext ?_
    obtain rfl := List.mem_singleton.1 hb
    exact iff_of_true .nil .nil
  | cons goal goals ih => rw [explainedBy_cons, explainedBy_cons, h, ih]

/-- The goals are explained for a parameter if they are for what it is turned into. -/
theorem explainedBy_comp {β : Type _} (f : β → α) (goals : List (N × (α → List (Option V)))) :
    prog.explainedBy value? depth (goals.map fun g => (g.1, g.2 ∘ f)) =
      (prog.explainedBy value? depth goals).map fun P => P ∘ f := by
  simp only [explainedBy, Multiset.map_map, List.map_map, Function.comp_def]

end

/-- The ways to prove a call by a rule, if the ways through its body are known. -/
theorem map_bodies_rule {prog : Program N} {value? : TermId → Option V} {id : ClauseId} {r : Rule N}
    (hclause : prog.clause? id = some (.rule r)) (inner : Nat) :
    ((prog.bodies (inner + 1) id : Multiset Branch).map fun body ls =>
        Supports prog value? (.call id body .nil) [ls]) =
      (prog.explainedBy value? inner (labelled value? r.body)).map fun P ls => ∃ σ,
        List.Forall₂ (fun x y => (x == y) = true) (r.params.map (·.ground value? σ)) ls ∧ P σ := by
  simp only [bodies, bodiesOver, hclause, explainedBy, labelled, List.map_map, Multiset.map_map,
    Function.comp_def]
  exact Multiset.map_congr rfl fun body _ => funext fun ls => propext (supports_rule_iff hclause)

variable {C : TermId → TermId → Prop} {prog prog' : Program N} {value? value?' : TermId → Option V}

/-- Goals with other names and in another order are explained for some values of their variables if
the goals are for the values of these under their own names. -/
theorem explainedBy_reordered (hC : ∀ t t', C t t' → value? t = value?' t') {ρ : Nat → Nat}
    {gs body gs' : List (Goal N)} (hperm : gs.Perm body)
    (hbody : List.Forall₂ (Goal.Renamed C ρ) body gs') {depth : Nat}
    (hsame : ∀ name, prog.explained value? depth name = prog'.explained value?' depth name) :
    prog'.explainedBy value?' depth (labelled value?' gs') =
      (prog.explainedBy value? depth (labelled value? gs)).map fun P => P ∘ (· ∘ ρ) := by
  have hordered : prog.explainedBy value? depth (labelled value? gs) =
      prog.explainedBy value? depth (labelled value? body) := explainedBy_perm (hperm.map _)
  rw [hordered, labelled_eq hbody hC, explainedBy_comp, explainedBy_congr hsame]

/-- A clause and the same clause with other names and the goals in another order explain the same
labels, if calls that nest one rule less do. -/
theorem map_bodies_eq (hC : ∀ t t', C t t' → value? t = value?' t') {depth : Nat}
    (hinner : ∀ inner < depth, ∀ name,
      prog.explained value? inner name = prog'.explained value?' inner name)
    {id id' : ClauseId}
    (hid : Option.Rel (Clause.Reordered C) (prog.clause? id) (prog'.clause? id')) :
    ((prog.bodies depth id : Multiset Branch).map fun body ls =>
        Supports prog value? (.call id body .nil) [ls]) =
      (prog'.bodies depth id' : Multiset Branch).map fun body ls =>
        Supports prog' value?' (.call id' body .nil) [ls] := by
  generalize hclause : prog.clause? id = c at hid
  generalize hclause' : prog'.clause? id' = c' at hid
  cases hid with
  -- At no depth does a number without a clause have a body.
  | none => cases depth <;> simp only [bodies, bodiesOver, hclause, hclause'] <;> rfl
  | some hc =>
    cases hc with
    -- A fact's one body is supported by the values at its parts, which are the same in both.
    | @fact f f' hparts =>
      have hvalues : f.parts.map value? = f'.parts.map value?' := by
        rw [← List.forall₂_eq_eq_eq, List.forall₂_map_left_iff, List.forall₂_map_right_iff]
        exact hparts.imp hC
      simp only [bodies_fact hclause, bodies_fact hclause', Multiset.coe_singleton,
        Multiset.map_singleton, supports_fact_iff hclause, supports_fact_iff hclause', hvalues]
    | @rule r r' ρ body hperm hrule =>
      cases depth with
      -- At depth zero a rule has no body in either.
      | zero =>
        simp only [bodies, bodiesOver, hclause, hclause']
        rfl
      | succ inner =>
        have hgoals := explainedBy_reordered hC hperm hrule.body (hinner inner (Nat.lt_succ_self _))
        rw [map_bodies_rule hclause, map_bodies_rule hclause', hgoals, Multiset.map_map]
        refine Multiset.map_congr rfl fun P _ => funext fun ls => propext ?_
        simp only [Function.comp_apply, map_ground_eq hrule.params hC]
        -- Every choice of values is the choice for some values under the other names.
        exact hrule.injective.surjective_comp_right.exists

/-- The ways to prove a call explain the same labels in any two programs with the same clauses, up
to names and the order of the goals. -/
theorem SameClauses.explained_eq (h : prog.SameClauses (Clause.Reordered C) prog')
    (hC : ∀ t t', C t t' → value? t = value?' t') (depth : Nat) (name : N) :
    prog.explained value? depth name = prog'.explained value?' depth name := by
  induction depth using Nat.strongRecOn generalizing name with
  | ind depth ih =>
    rw [explained_eq_bind, explained_eq_bind]
    refine Multiset.rel_eq.1 (Multiset.rel_bind (fun id id' hid => ?_) (h name))
    exact Multiset.rel_eq.2 (map_bodies_eq hC ih hid)

end Program

/-! ## Arguments that correspond -/

namespace Pool

variable {p p' : Pool V} {args args' : List TermId}

/-- The arguments correspond in the other direction, too. -/
theorem Correspond.symm (h : p.Correspond p' args args') : p'.Correspond p args' args := by
  have hswap : ∀ {x : TermId × TermId}, x ∈ args'.zip args → x.swap ∈ args.zip args' := by
    intro x hx
    rw [← List.zip_swap]
    exact List.mem_map_of_mem hx
  refine ⟨h.length_eq.symm, fun x hx => (h.value?_eq _ (hswap hx)).symm,
    fun x hx y hy hnone => (h.eq_iff _ (hswap hx) _ (hswap hy) ?_).symm⟩
  exact (h.value?_eq _ (hswap hx)).trans hnone

/-- Arguments admit every tuple that arguments admit to which they correspond. -/
theorem Correspond.admits (h : p.Correspond p' args args') {xs : List (Option V)}
    (hxs : p.Admits args xs) : p'.Admits args' xs := by
  classical
  obtain ⟨label, hfixed, rfl⟩ := hxs
  refine ⟨fun t' => if ht : ∃ t, (t, t') ∈ args.zip args' then label ht.choose else p'.value? t',
    fun t' v hv => ?_, map_eq_map_iff_zip.2 ⟨h.length_eq, fun x hx => ?_⟩⟩
  · dsimp only
    split
    · next ht => exact hfixed _ _ ((h.value?_eq _ ht.choose_spec).trans hv)
    · exact hv
  · have ht : ∃ t, (t, x.2) ∈ args.zip args' := ⟨x.1, hx⟩
    -- The terms that correspond to `x.2` are all the same, or they all hold its value.
    rw [dif_pos ht]
    have hvalue := (h.value?_eq _ hx).trans (h.value?_eq _ ht.choose_spec).symm
    cases hv : p.value? x.1 with
    | none => exact congrArg label ((h.eq_iff _ hx _ ht.choose_spec hv).2 rfl)
    | some v => rw [hfixed _ _ hv, hfixed _ _ (hvalue.symm.trans hv)]

end Pool

/-! ## Databases -/

namespace Database

variable [DecidableEq N] [BEq V] [LawfulBEq V]

/-- The order of the goals makes no difference over range-restricted programs. If two databases have
the same clauses under every name, up to the names of their terms, the numbers of their variables
and the order of their goals, then they answer corresponding arguments alike. -/
theorem permuted_of_reordered {db db' : Database N V} (h : db.Reachable) (h' : db'.Reachable)
    (hrange : db.program.RangeRestricted) (hrange' : db'.program.RangeRestricted) {limit : Nat}
    (hlimit : db.config.maxDepth = some limit) (hlimit' : db'.config.maxDepth = some limit)
    (hsame : db.program.SameClauses (Clause.Reordered (db.pool.Shares db'.pool)) db'.program)
    {arity : Nat} {args args' : List TermId} (haccepted : db.argsFault? arity args = none)
    (haccepted' : db'.argsFault? arity args' = none)
    (hcorrespond : db.pool.Correspond db'.pool args args') (name : N) :
    db.Permuted db' name arity args args' := by
  obtain ⟨-, hargs⟩ := of_argsFault?_eq_none haccepted
  obtain ⟨-, hargs'⟩ := of_argsFault?_eq_none haccepted'
  have hvalues : ∀ t t', db.pool.Shares db'.pool t t' → db.pool.value? t = db'.pool.value? t' := by
    rintro t t' ⟨v, hv, hv'⟩
    rw [hv, hv']
  have hexplained := hsame.explained_eq hvalues limit name
  refine permuted_of_rel h.valid h'.valid hlimit hlimit' haccepted haccepted'
    (Multiset.rel_map.1 (Multiset.rel_eq.2 hexplained)) fun b hb b' hb' hsupports => ?_
  ext answer
  rw [Program.answerAlong_eq_some_iff hrange h.valid hb hargs,
    Program.answerAlong_eq_some_iff hrange' h'.valid hb' hargs', congrFun hsupports answer.values]
  exact and_congr_left fun _ => ⟨hcorrespond.admits, hcorrespond.symm.admits⟩

/-- A rule for two steps along an edge, with its second step first and its variables numbered in
another way. -/
theorem permuted_of_reordered_two_steps :
    ∃ db db' : Database Nat Nat, db.Reachable ∧ db'.Reachable ∧ db.program.RangeRestricted ∧
      db'.program.RangeRestricted ∧ db.config.maxDepth = some 1 ∧ db'.config.maxDepth = some 1 ∧
      db.program.SameClauses (Clause.Reordered (db.pool.Shares db'.pool)) db'.program ∧
      db.argsFault? 1 [⟨7⟩] = none ∧ db'.argsFault? 1 [⟨7⟩] = none ∧
      db.pool.Correspond db'.pool [⟨7⟩] [⟨7⟩] ∧ db.Permuted db' 1 1 [⟨7⟩] [⟨7⟩] := by
  obtain ⟨pool, hpool⟩ : ∃ pool : Pool Nat, pool =
      ⟨#[⟨⟨some 1⟩, true⟩, ⟨⟨some 2⟩, true⟩, ⟨⟨some 2⟩, true⟩, ⟨⟨some 3⟩, true⟩, ⟨⟨none⟩, true⟩,
        ⟨⟨none⟩, true⟩, ⟨⟨none⟩, true⟩, ⟨⟨none⟩, false⟩], #[]⟩ := ⟨_, rfl⟩
  obtain ⟨db, hdb⟩ : ∃ db : Database Nat Nat, db =
      ⟨⟨#[.fact ⟨0, [⟨0⟩, ⟨1⟩]⟩, .fact ⟨0, [⟨2⟩, ⟨3⟩]⟩,
            .rule ⟨1, [⟨4⟩], [.var 0], [⟨4⟩, ⟨5⟩, ⟨6⟩],
              [⟨0, [.var 0, .var 1]⟩, ⟨0, [.var 1, .var 2]⟩]⟩],
          [(0, [⟨0⟩, ⟨1⟩]), (1, [⟨2⟩])]⟩, pool, ⟨some 1, false⟩⟩ := ⟨_, rfl⟩
  obtain ⟨db', hdb'⟩ : ∃ db' : Database Nat Nat, db' =
      ⟨⟨#[.fact ⟨0, [⟨0⟩, ⟨1⟩]⟩, .fact ⟨0, [⟨2⟩, ⟨3⟩]⟩,
            .rule ⟨1, [⟨4⟩], [.var 0], [⟨4⟩, ⟨5⟩, ⟨6⟩],
              [⟨0, [.var 2, .var 1]⟩, ⟨0, [.var 0, .var 2]⟩]⟩],
          [(0, [⟨0⟩, ⟨1⟩]), (1, [⟨2⟩])]⟩, pool, ⟨some 1, false⟩⟩ := ⟨_, rfl⟩
  have hsession : (empty ⟨some 1, false⟩ : Database Nat Nat).execAll 0
      [.addFact 0 [1, 2], .addFact 0 [2, 3], .addRule 1 [.fresh], .addRuleVar ⟨2⟩, .addRuleVar ⟨2⟩,
        .addGoal ⟨2⟩ 0 [.param 0, .term ⟨5⟩], .addGoal ⟨2⟩ 0 [.term ⟨5⟩, .term ⟨6⟩], .addVar]
        = some db := by
    rw [hdb, hpool]
    rfl
  have hsession' : (empty ⟨some 1, false⟩ : Database Nat Nat).execAll 0
      [.addFact 0 [1, 2], .addFact 0 [2, 3], .addRule 1 [.fresh], .addRuleVar ⟨2⟩, .addRuleVar ⟨2⟩,
        .addGoal ⟨2⟩ 0 [.term ⟨6⟩, .term ⟨5⟩], .addGoal ⟨2⟩ 0 [.param 0, .term ⟨6⟩], .addVar]
        = some db' := by
    rw [hdb', hpool]
    rfl
  have hreachable : db.Reachable := (Reachable.empty _).execAll hsession
  have hreachable' : db'.Reachable := (Reachable.empty _).execAll hsession'
  have hrange : db.program.RangeRestricted := by rw [hdb, hpool]; decide +kernel
  have hrange' : db'.program.RangeRestricted := by rw [hdb', hpool]; decide +kernel
  have hlimit : db.config.maxDepth = some 1 := by rw [hdb]
  have hlimit' : db'.config.maxDepth = some 1 := by rw [hdb']
  have haccepted : db.argsFault? 1 [⟨7⟩] = none := by rw [hdb, hpool]; rfl
  have haccepted' : db'.argsFault? 1 [⟨7⟩] = none := by rw [hdb', hpool]; rfl
  have hcorrespond : db.pool.Correspond db'.pool [⟨7⟩] [⟨7⟩] :=
    .singleton (by rw [hdb, hdb'])
  have hsame : db.program.SameClauses (Clause.Reordered (db.pool.Shares db'.pool)) db'.program := by
    rw [hdb, hdb', hpool]
    refine Program.sameClauses_of_names [0, 1] (by decide) (by decide) ?_
    rw [List.forall_mem_cons, List.forall_mem_singleton]
    constructor
    · exact .cons (.some (.fact (.cons ⟨1, rfl, rfl⟩ (.cons ⟨2, rfl, rfl⟩ .nil))))
        (.cons (.some (.fact (.cons ⟨2, rfl, rfl⟩ (.cons ⟨3, rfl, rfl⟩ .nil)))) .zero)
    · refine .cons (.some (.rule (Equiv.swap 1 2) _ (.swap ..)
        ⟨(Equiv.swap 1 2).injective, by decide, ?_, ?_⟩)) .zero
      · exact .cons (.var 0) .nil
      · exact .cons ⟨rfl, .cons (.var 1) (.cons (.var 2) .nil)⟩
          (.cons ⟨rfl, .cons (.var 0) (.cons (.var 1) .nil)⟩ .nil)
  exact ⟨db, db', hreachable, hreachable', hrange, hrange', hlimit, hlimit', hsame, haccepted,
    haccepted', hcorrespond, permuted_of_reordered hreachable hreachable' hrange hrange' hlimit
      hlimit' hsame haccepted haccepted' hcorrespond 1⟩

end Database

end Hornbase
