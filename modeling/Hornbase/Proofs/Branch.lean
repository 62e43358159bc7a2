import Hornbase.Proofs.Refinement
import Hornbase.Proofs.Stores
import Mathlib.Data.List.Flatten

/-!
# Branches

A branch records the clauses that one way through a search enters: the clause for the first goal,
the branch through its body, and the branch through the goals after it. Which branches there are
depends on the program and the names of the goals, and not on the values of any terms;
`Program.along` goes along one of them in a store and succeeds in at most one way. What the
interpreter lists for some goals is then the list of all branches, each taken to the store at its
end, without those that fail (`meaning_goals`). Two searches for the same names go through the same
branches, in the same order, and differ only in where these fail. With more clauses, or under a
greater limit, others come between them (`PartOf.branches_sublist`).
-/

namespace Hornbase

universe u v

/-- The clauses entered on one way through a search. -/
inductive Branch where
  /-- Nothing is left to prove. -/
  | nil
  /-- The clause for the first goal, the way through its body, and the way through the others. -/
  | call (id : ClauseId) (body rest : Branch)

variable {N : Type u} {V : Type v}

/-! ## Entering a rule -/

/-- The frame that a rule gets behind `n` terms. -/
def Rule.frameAt (r : Rule N) (n : Nat) : Frame := ⟨n, r.locals.length⟩

/-- Lays out the frame of a rule and unifies the head with the arguments of a call. The pairs of two
unbound sides are put off. -/
def Store.enter [BEq V] (r : Rule N) (args : List TermId) (s : Store V) :
    Option (Store V × List (TermId × TermId)) :=
  Store.unify ((r.params.map (r.frameAt s.length).term).zip args)
    (s ++ List.replicate r.locals.length none)

/-- Entering a rule adds its frame and binds terms. -/
theorem Store.enter_grows [BEq V] {r : Rule N} {args : List TermId} {s entered : Store V}
    {pairs : List (TermId × TermId)} (h : s.enter r args = some (entered, pairs)) :
    s.GrowsTo entered ∧ entered.length = s.length + r.locals.length := by
  obtain ⟨hgrow, hlength⟩ := unify_grows h
  refine ⟨(growsTo_append_replicate s _).trans hgrow, ?_⟩
  rw [hlength, List.length_append, List.length_replicate]

/-- A rule means what its goals mean once it is entered, without the results that clash. -/
theorem Meaning.rule_eq [BEq V] (m : Meaning N V) (r : Rule N) (args : List TermId) (s : Store V) :
    m.rule r args s =
      match s.enter r args with
      | none => []
      | some (entered, pairs) =>
        (m.goals (r.frameAt s.length) r.body entered).filterMap (Store.copyBack pairs) :=
  rfl

namespace Program

/-! ## Along one branch -/

section

variable [BEq V]

/-- Proves a call by the clause `id`, and the goals of the clause in the way that `body` does. -/
def viaClause (prog : Program N) (id : ClauseId)
    (body : Frame → List (Goal N) → Store V → Option (Store V)) (args : List TermId)
    (s : Store V) : Option (Store V) :=
  match prog.clause? id with
  | none => none
  | some clause =>
    if clause.arity ≠ args.length then none
    else
      match clause with
      | .fact f => (s.unify (f.parts.zip args)).map (·.1)
      | .rule r =>
        (s.enter r args).bind fun (entered, pairs) =>
          (body (r.frameAt s.length) r.body entered).bind (Store.copyBack pairs)

/-- Proves goals along a branch. A branch that does not fit the goals fails. -/
def along (prog : Program N) : Branch → Frame → List (Goal N) → Store V → Option (Store V)
  | .nil, _, [], s => some s
  | .nil, _, _ :: _, _ => none
  | .call _ _ _, _, [], _ => none
  | .call id body rest, frame, g :: gs, s =>
    (prog.viaClause id (fun frame gs s => along prog body frame gs s) (g.args.map frame.term)
      s).bind fun s => along prog rest frame gs s

/-- How a clause proves a call: by its parts if it is a fact, and by its goals if it is a rule. -/
theorem viaClause_cases {prog : Program N} {id : ClauseId}
    {body : Frame → List (Goal N) → Store V → Option (Store V)} {args : List TermId}
    {s s' : Store V} (h : prog.viaClause id body args s = some s') :
    (∃ f putOff, prog.clause? id = some (.fact f) ∧ f.parts.length = args.length ∧
        s.unify (f.parts.zip args) = some (s', putOff)) ∨
      ∃ r entered pairs proved, prog.clause? id = some (.rule r) ∧
        r.params.length = args.length ∧ s.enter r args = some (entered, pairs) ∧
        body (r.frameAt s.length) r.body entered = some proved ∧
        Store.copyBack pairs proved = some s' := by
  unfold viaClause at h
  split at h
  · -- There is no such clause.
    cases h
  · next clause hclause =>
    split at h
    · -- The number of arguments is wrong.
      cases h
    · next harity =>
      have harity := not_not.1 harity
      cases clause with
      | fact f =>
        obtain ⟨⟨_, putOff⟩, hunify, rfl⟩ := Option.map_eq_some_iff.1 h
        exact .inl ⟨f, putOff, hclause, harity, hunify⟩
      | rule r =>
        -- Entering, proving the body and copying back have all succeeded.
        obtain ⟨⟨entered, pairs⟩, henter, hbody⟩ := Option.bind_eq_some_iff.1 h
        obtain ⟨proved, hproved, hcopied⟩ := Option.bind_eq_some_iff.1 hbody
        exact .inr ⟨r, entered, pairs, proved, hclause, harity, henter, hproved, hcopied⟩

/-- A fact of the right arity proves a call by its parts. -/
theorem viaClause_fact {prog : Program N} {id : ClauseId} {f : Fact N}
    (hclause : prog.clause? id = some (.fact f)) {args : List TermId}
    (harity : f.parts.length = args.length)
    {body : Frame → List (Goal N) → Store V → Option (Store V)} {s s' : Store V}
    {putOff : List (TermId × TermId)} (hunify : s.unify (f.parts.zip args) = some (s', putOff)) :
    prog.viaClause id body args s = some s' := by
  have harity : ¬ (Clause.fact f).arity ≠ args.length := not_not.2 harity
  simp only [viaClause, hclause, if_neg harity, hunify, Option.map_some]

/-- A rule of the right arity proves a call by its goals. -/
theorem viaClause_rule {prog : Program N} {id : ClauseId} {r : Rule N}
    (hclause : prog.clause? id = some (.rule r)) {args : List TermId}
    (harity : r.params.length = args.length)
    {body : Frame → List (Goal N) → Store V → Option (Store V)} {s entered proved s' : Store V}
    {pairs : List (TermId × TermId)} (henter : s.enter r args = some (entered, pairs))
    (hbody : body (r.frameAt s.length) r.body entered = some proved)
    (hcopied : Store.copyBack pairs proved = some s') :
    prog.viaClause id body args s = some s' := by
  have harity : ¬ (Clause.rule r).arity ≠ args.length := not_not.2 harity
  simp only [viaClause, hclause, if_neg harity, henter, Option.bind_some, hbody, hcopied]

/-- A branch through goals begins with a branch through the first of them. -/
theorem along_cons {prog : Program N} {id : ClauseId} {body rest : Branch} {frame : Frame}
    {g : Goal N} {gs : List (Goal N)} {s s' : Store V}
    (h : prog.along (.call id body rest) frame (g :: gs) s = some s') :
    ∃ s₁, prog.viaClause id (prog.along body) (g.args.map frame.term) s = some s₁ ∧
      prog.along rest frame gs s₁ = some s' :=
  Option.bind_eq_some_iff.1 h

/-- A way through the first goal and one through the others make a way through all. -/
theorem along_call {prog : Program N} {id : ClauseId} {body rest : Branch} {frame : Frame}
    {g : Goal N} {gs : List (Goal N)} {s s₁ s' : Store V}
    (hcall : prog.viaClause id (prog.along body) (g.args.map frame.term) s = some s₁)
    (hrest : prog.along rest frame gs s₁ = some s') :
    prog.along (.call id body rest) frame (g :: gs) s = some s' :=
  Option.bind_eq_some_iff.2 ⟨s₁, hcall, hrest⟩

/-- A clause lets the store grow if the proof of its goals does. -/
theorem viaClause_grows {prog : Program N} {id : ClauseId}
    {body : Frame → List (Goal N) → Store V → Option (Store V)}
    (hbody : ∀ frame gs (s s' : Store V), body frame gs s = some s' → s.GrowsTo s')
    {args : List TermId} {s s' : Store V} (h : prog.viaClause id body args s = some s') :
    s.GrowsTo s' := by
  obtain ⟨f, putOff, -, -, hunify⟩ | ⟨r, entered, pairs, proved, -, -, henter, hproved, hcopied⟩ :=
    viaClause_cases h
  · exact (Store.unify_grows hunify).1
  · exact (Store.enter_grows henter).1.trans
      ((hbody _ _ _ _ hproved).trans (Store.copyBack_grows hcopied).1)

/-- The store grows along a branch. -/
theorem along_grows {prog : Program N} {b : Branch} {frame : Frame} {gs : List (Goal N)}
    {s s' : Store V} (h : prog.along b frame gs s = some s') : s.GrowsTo s' := by
  induction b generalizing frame gs s s' with
  | nil =>
    cases gs with
    | nil =>
      obtain rfl := Option.some.inj h
      exact .refl _
    | cons => cases h
  | call id body rest ihBody ihRest =>
    cases gs with
    | nil => cases h
    | cons g gs =>
      obtain ⟨s₁, hcall, hrest⟩ := along_cons h
      exact (viaClause_grows (fun _ _ _ _ => ihBody) hcall).trans (ihRest hrest)

/-- Proves a call along a branch. Its arguments are terms of the store, so any frame will do. -/
def through (prog : Program N) (b : Branch) (name : N) (args : List TermId) (s : Store V) :
    Option (Store V) :=
  prog.along b ⟨0, 0⟩ [⟨name, args.map .const⟩] s

end

/-! ## All branches -/

variable [DecidableEq N]

/-- The ways through the body of the clause `id`, if `inner` gives those through the goals of a
rule. -/
def bodiesOver (prog : Program N) (inner : Option (List N → List Branch)) (id : ClauseId) :
    List Branch :=
  match prog.clause? id, inner with
  | some (.fact _), _ => [.nil]
  | some (.rule r), some inner => inner (r.body.map (·.name))
  | _, _ => []

/-- The ways through goals with the names given, if `inner` gives those through the goals of a
rule. -/
def branchesOver (prog : Program N) (inner : Option (List N → List Branch)) : List N → List Branch
  | [] => [.nil]
  | name :: names =>
    (prog.candidates name).flatMap fun id =>
      (prog.bodiesOver inner id).flatMap fun body =>
        (branchesOver prog inner names).map (.call id body)

/-- The ways through goals with the names given in which at most `depth` rules are nested. -/
def branches (prog : Program N) : (depth : Nat) → List N → List Branch
  | 0 => prog.branchesOver none
  | depth + 1 => prog.branchesOver (some (prog.branches depth))

/-- The ways through the body of a clause when it is one of at most `depth` that may be nested. -/
def bodies (prog : Program N) : (depth : Nat) → ClauseId → List Branch
  | 0 => prog.bodiesOver none
  | depth + 1 => prog.bodiesOver (some (prog.branches depth))

@[simp] theorem branches_nil (prog : Program N) (depth : Nat) :
    prog.branches depth [] = [.nil] := by
  cases depth <;> rfl

theorem branches_cons (prog : Program N) (depth : Nat) (name : N) (names : List N) :
    prog.branches depth (name :: names) = (prog.candidates name).flatMap fun id =>
      (prog.bodies depth id).flatMap fun body =>
        (prog.branches depth names).map (.call id body) := by
  cases depth <;> rfl

/-- A branch through goals is a candidate for the first, a branch through its body, and a branch
through the others. -/
theorem mem_branches_cons {prog : Program N} {depth : Nat} {name : N} {names : List N}
    {b : Branch} : b ∈ prog.branches depth (name :: names) ↔
      ∃ id body rest, b = .call id body rest ∧ id ∈ prog.candidates name ∧
        body ∈ prog.bodies depth id ∧ rest ∈ prog.branches depth names := by
  simp only [branches_cons, List.mem_flatMap, List.mem_map]
  constructor
  · rintro ⟨id, hid, body, hbody, rest, hrest, rfl⟩
    exact ⟨id, body, rest, rfl, hid, hbody, hrest⟩
  · rintro ⟨id, body, rest, rfl, hid, hbody, hrest⟩
    exact ⟨id, hid, body, hbody, rest, hrest, rfl⟩

/-- A call is a branch through goals if its parts are. -/
theorem call_mem_branches_iff {prog : Program N} {depth : Nat} {name : N} {names : List N}
    {id : ClauseId} {body rest : Branch} :
    .call id body rest ∈ prog.branches depth (name :: names) ↔ id ∈ prog.candidates name ∧
      body ∈ prog.bodies depth id ∧ rest ∈ prog.branches depth names := by
  rw [mem_branches_cons]
  constructor
  · rintro ⟨_, _, _, heq, hparts⟩
    obtain ⟨rfl, rfl, rfl⟩ := Branch.call.inj heq
    exact hparts
  · exact fun hparts => ⟨id, body, rest, rfl, hparts⟩

/-- A fact has no body. -/
theorem bodies_fact {prog : Program N} {id : ClauseId} {f : Fact N}
    (h : prog.clause? id = some (.fact f)) (depth : Nat) : prog.bodies depth id = [.nil] := by
  cases depth <;> simp only [bodies, bodiesOver, h]

/-- A body of a rule nests one rule less. -/
theorem mem_bodies_rule {prog : Program N} {id : ClauseId} {r : Rule N}
    (h : prog.clause? id = some (.rule r)) {depth : Nat} {b : Branch} :
    b ∈ prog.bodies depth id ↔
      ∃ inner, depth = inner + 1 ∧ b ∈ prog.branches inner (r.body.map (·.name)) := by
  cases depth with
  | zero => simp [bodies, bodiesOver, h]
  | succ inner =>
    simp only [bodies, bodiesOver, h]
    constructor
    · exact fun hb => ⟨inner, rfl, hb⟩
    · rintro ⟨_, heq, hb⟩
      obtain rfl := Nat.succ.inj heq
      exact hb

/-! ## More clauses and a greater limit -/

/-- `prog'` has all clauses of `prog`, and perhaps others between them. -/
structure PartOf (prog prog' : Program N) : Prop where
  candidates : ∀ name, (prog.candidates name).Sublist (prog'.candidates name)
  clause?_eq : ∀ {id clause}, prog.clause? id = some clause → prog'.clause? id = some clause

theorem PartOf.refl (prog : Program N) : prog.PartOf prog := ⟨fun _ => .refl _, fun h => h⟩

section

variable {prog prog' : Program N} {d d' : Nat}

/-- A clause keeps the ways through its body if its goals keep theirs. -/
theorem bodies_sublist_of_branches (hprog : prog.PartOf prog')
    (h : ∀ inner, d = inner + 1 → ∃ inner', d' = inner' + 1 ∧
      ∀ names, (prog.branches inner names).Sublist (prog'.branches inner' names))
    (id : ClauseId) : (prog.bodies d id).Sublist (prog'.bodies d' id) := by
  cases hclause : prog.clause? id with
  | none => cases d <;> simp [bodies, bodiesOver, hclause]
  | some clause =>
    have hclause' := hprog.clause?_eq hclause
    cases clause with
    | fact f => rw [bodies_fact hclause, bodies_fact hclause']
    | rule r =>
      cases d with
      | zero => simp [bodies, bodiesOver, hclause]
      | succ inner =>
        obtain ⟨inner', rfl, hinner⟩ := h inner rfl
        simpa only [bodies, bodiesOver, hclause, hclause'] using hinner (r.body.map (·.name))

/-- Goals keep their branches if all clauses keep the ways through their bodies. -/
theorem branches_sublist_of_bodies (hprog : prog.PartOf prog')
    (h : ∀ id, (prog.bodies d id).Sublist (prog'.bodies d' id)) (names : List N) :
    (prog.branches d names).Sublist (prog'.branches d' names) := by
  induction names with
  | nil => rw [branches_nil, branches_nil]
  | cons name names ih =>
    rw [branches_cons, branches_cons]
    refine ((hprog.candidates name).flatMap _).trans (List.Sublist.flatMap_right _ fun id _ => ?_)
    have hrest := List.Sublist.flatMap_right (prog'.bodies d' id)
      fun body _ => ih.map (Branch.call id body)
    exact ((h id).flatMap _).trans hrest

/-- All branches through some clauses that a limit allows are allowed by a greater one, and with
more clauses, in the same order. -/
theorem PartOf.branches_sublist (hprog : prog.PartOf prog') (hle : d ≤ d') (names : List N) :
    (prog.branches d names).Sublist (prog'.branches d' names) := by
  induction d generalizing d' names with
  | zero =>
    refine branches_sublist_of_bodies hprog
      (bodies_sublist_of_branches hprog fun inner hinner => ?_) names
    cases hinner
  | succ d ih =>
    obtain ⟨d', rfl⟩ : ∃ k, d' = k + 1 := ⟨d' - 1, by omega⟩
    -- Below a rule there is one less to nest, on either side.
    refine branches_sublist_of_bodies hprog
      (bodies_sublist_of_branches hprog fun inner hinner => ?_) names
    obtain rfl := Nat.succ.inj hinner
    exact ⟨d', rfl, fun names => ih (by omega) names⟩

end

/-! ## The interpreter goes through all branches -/

variable [BEq V]

/-- A clause proves a call once for each way through its body that succeeds. -/
theorem byClause_eq {prog : Program N} {depth : Nat}
    (h : ∀ inner, depth = inner + 1 → ∀ (frame : Frame) (gs : List (Goal N)) (s : Store V),
      (prog.meaning inner).goals frame gs s
        = (prog.branches inner (gs.map (·.name))).filterMap fun b => prog.along b frame gs s)
    (id : ClauseId) (args : List TermId) (s : Store V) :
    prog.byClause depth id args s
      = (prog.bodies depth id).filterMap fun b => prog.viaClause id (prog.along b) args s := by
  cases hclause : prog.clause? id with
  -- There is no such clause on either side.
  | none => cases depth <;> simp [byClause, bodies, bodiesOver, hclause]
  | some clause =>
    by_cases harity : clause.arity ≠ args.length
    · -- With another number of arguments neither side has a store.
      simp [byClause, Meaning.clause, viaClause, hclause, harity]
    · cases clause with
      | fact f =>
        simp only [byClause, hclause, Meaning.clause, if_neg harity, viaClause, bodies_fact hclause,
          Option.map_some, Option.getD_some, Meaning.fact]
        cases (s.unify (f.parts.zip args)).map (·.1) <;> rfl
      | rule r =>
        cases depth with
        | zero =>
          -- No rule may be nested any more, so there are no bodies.
          simp [byClause, hclause, Meaning.clause, inner, bodies, bodiesOver]
        | succ inner =>
          simp only [byClause, hclause, Meaning.clause, if_neg harity, viaClause, Program.inner,
            Option.map_some, Option.getD_some, Meaning.rule_eq, bodies, bodiesOver, h inner rfl]
          cases s.enter r args with
          | none => simp
          | some x => simp [List.filterMap_filterMap]

/-- The stores that prove some goals are those at the ends of the branches that succeed, in the
order of the branches. -/
theorem meaning_goals (prog : Program N) (depth : Nat) (frame : Frame) (gs : List (Goal N))
    (s : Store V) : (prog.meaning depth).goals frame gs s
      = (prog.branches depth (gs.map (·.name))).filterMap fun b => prog.along b frame gs s := by
  -- A body is searched with one rule less to nest, and the goals after it at the same depth.
  induction depth using Nat.strongRecOn generalizing frame gs s with
  | ind depth ih =>
    have hclause : ∀ id args (s : Store V), prog.byClause depth id args s
        = (prog.bodies depth id).filterMap fun b => prog.viaClause id (prog.along b) args s :=
      byClause_eq fun inner hinner frame gs s => ih inner (by omega) frame gs s
    induction gs generalizing s with
    | nil => simp [Meaning.goals, along]
    | cons g gs ihGoals =>
      simp only [Meaning.goals, meaning_apply, List.map_cons, branches_cons, List.flatMap_assoc,
        List.filterMap_flatMap, hclause, List.filterMap_map]
      refine List.flatMap_congr fun id _ => ?_
      rw [List.filterMap_eq_flatMap_toList, List.flatMap_assoc]
      refine List.flatMap_congr fun body _ => ?_
      cases hcall : prog.viaClause id (prog.along body) (g.args.map frame.term) s with
      | none => simp [along, Function.comp_def, hcall]
      | some s₁ => simp [along, Function.comp_def, hcall, ihGoals]

/-- A call means what the branches through it lead to. -/
theorem meaning_eq_filterMap (prog : Program N) (depth : Nat) (name : N) (args : List TermId)
    (s : Store V) : prog.meaning depth name args s
      = (prog.branches depth [name]).filterMap fun b => prog.through b name args s := by
  have hgoals := meaning_goals prog depth ⟨0, 0⟩ [⟨name, args.map .const⟩] s
  simpa [Meaning.goals, Function.comp_def, Frame.term, through] using hgoals

/-- Each store that proves a call is at the end of a branch. -/
theorem mem_meaning_iff {prog : Program N} {depth : Nat} {name : N} {args : List TermId}
    {s s' : Store V} : s' ∈ prog.meaning depth name args s
      ↔ ∃ b ∈ prog.branches depth [name], prog.through b name args s = some s' := by
  rw [meaning_eq_filterMap, List.mem_filterMap]

end Program

end Hornbase
