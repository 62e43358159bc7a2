import Hornbase.Proofs.Changes

/-!
# Refused requests

A request to declare a clause or to edit a term is refused for what the first check that fails finds
wrong, and a refused request does nothing. Arguments are checked from left to right, so the refusal
names the first argument at fault: `FirstFault` says this of any list and any check, and the two
kinds of lists, heads and goals, differ only in the check.

A goal is the one request that adds terms between its lookups: it is checked first and built then,
and both passes look the same variables and positions up. `Rule.buildGoal` is the second pass as it
works in place, where a lookup that fails leaves behind what the earlier arguments have added. What
has been checked against the rule as it was is found in the rule as it is meanwhile, which has
further variables and else the same (`Rule.buildGoal_of_checkGoal`). So the second pass never fails,
and the whole is refused only before it has begun.
-/

namespace Hornbase

universe u v

variable {N : Type u} {V : Type v}

/-! ## The first fault of a list -/

/-- Whether `e` is what `fault` finds wrong with the first element, from left to right, with which
it finds anything wrong. -/
def FirstFault {α : Type v} (fault : Nat → α → Option Error) (xs : List α) (e : Error) : Prop :=
  ∃ p x, xs[p]? = some x ∧ fault p x = some e ∧ ∀ q < p, ∀ y, xs[q]? = some y → fault q y = none

section

variable {α : Type v} {fault : Nat → α → Option Error} {xs : List α} {x : α} {e : Error}

theorem not_firstFault_nil : ¬ FirstFault fault [] e := by
  rintro ⟨p, x, hx, -⟩
  cases hx

/-- The first fault is that of the first element, or else that of the others. -/
theorem firstFault_cons : FirstFault fault (x :: xs) e ↔
    fault 0 x = some e ∨ fault 0 x = none ∧ FirstFault (fun p => fault (p + 1)) xs e := by
  constructor
  · rintro ⟨_ | p, y, hy, he, hbefore⟩
    · obtain rfl := Option.some.inj hy
      exact .inl he
    · refine .inr ⟨hbefore 0 (Nat.succ_pos p) x rfl, p, y, hy, he, fun q hq z hz => ?_⟩
      exact hbefore (q + 1) (Nat.succ_lt_succ hq) z hz
  · rintro (he | ⟨hnone, p, y, hy, he, hbefore⟩)
    · exact ⟨0, x, rfl, he, fun q hq => absurd hq (Nat.not_lt_zero q)⟩
    · refine ⟨p + 1, y, hy, he, fun q hq z hz => ?_⟩
      cases q with
      | zero => exact (Option.some.inj hz) ▸ hnone
      | succ q => exact hbefore q (Nat.lt_of_succ_lt_succ hq) z hz

/-- There is a first fault if there is any. -/
theorem exists_firstFault_iff :
    (∃ e, FirstFault fault xs e) ↔ ∃ p x, xs[p]? = some x ∧ fault p x ≠ none := by
  constructor
  · rintro ⟨e, p, x, hx, he, -⟩
    exact ⟨p, x, hx, by simp [he]⟩
  · rintro ⟨p, x, hx, hfault⟩
    induction xs generalizing fault p with
    | nil => cases hx
    | cons y ys ih =>
      cases hy : fault 0 y with
      | some e => exact ⟨e, firstFault_cons.2 (.inl hy)⟩
      | none =>
        -- The first argument passes, so the faulty one is among the others, each one position
        -- nearer.
        cases p with
        | zero =>
          obtain rfl := Option.some.inj hx
          exact absurd hy hfault
        | succ p =>
          obtain ⟨e, he⟩ : ∃ e, FirstFault (fun p => fault (p + 1)) ys e := ih p hx hfault
          exact ⟨e, firstFault_cons.2 (.inr ⟨hy, he⟩)⟩

end

/-! ## What the two checks find -/

/-- What is wrong with an argument at a position of the head of the new rule `id`: there is no
variable to refer to, and no such position yet. -/
def Arg.headFault (id : ClauseId) (position : Nat) : Arg V → Option Error
  | .term t => some (.foreignTerm t id)
  | .param i => if position ≤ i then some (.unknownParam i id) else none
  | .fresh | .value _ => none

/-- What is wrong with an argument of a goal of the rule `id`: the term is none of its variables, or
its head has no such position. -/
def Arg.goalFault (id : ClauseId) (r : Rule N) : Arg V → Option Error
  | .term t => if t ∈ r.locals then none else some (.foreignTerm t id)
  | .param i => if i < r.arity then none else some (.unknownParam i id)
  | .fresh | .value _ => none

theorem Arg.headFault_ne_none_iff {id : ClauseId} {p : Nat} {a : Arg V} :
    a.headFault id p ≠ none ↔ (∃ t, a = .term t) ∨ ∃ i, a = .param i ∧ p ≤ i := by
  cases a <;> simp [headFault]

theorem Arg.goalFault_ne_none_iff {id : ClauseId} {r : Rule N} {a : Arg V} :
    a.goalFault id r ≠ none ↔
      (∃ t, a = .term t ∧ t ∉ r.locals) ∨ ∃ i, a = .param i ∧ r.arity ≤ i := by
  cases a <;> simp [goalFault]

/-- A repeat without a fault names an earlier position. -/
theorem Arg.lt_of_headFault {id : ClauseId} {p i : Nat}
    (h : headFault (V := V) id p (.param i) = none) : i < p := by
  by_contra hi
  exact headFault_ne_none_iff.2 (.inr ⟨i, rfl, Nat.not_lt.1 hi⟩) h

/-- A term without a fault is the template of a variable. -/
theorem Arg.mem_of_goalFault {id : ClauseId} {r : Rule N} {t : TermId}
    (h : goalFault (V := V) id r (.term t) = none) : t ∈ r.locals := by
  by_contra ht
  exact goalFault_ne_none_iff.2 (.inl ⟨t, rfl, ht⟩) h

/-- A position without a fault is one of the head. -/
theorem Arg.lt_of_goalFault {id : ClauseId} {r : Rule N} {i : Nat}
    (h : goalFault (V := V) id r (.param i) = none) : i < r.arity := by
  by_contra hi
  exact goalFault_ne_none_iff.2 (.inr ⟨i, rfl, Nat.not_lt.1 hi⟩) h

namespace Rule

/-- A term that is none of the variables has no position among them. -/
theorem varOf?_eq_none_iff {r : Rule N} {t : TermId} : r.varOf? t = none ↔ t ∉ r.locals := by
  simp only [varOf?, List.findIdx?_eq_none_iff, beq_eq_false_iff_ne]
  exact ⟨fun h ht => h t ht rfl, fun h u hu heq => h (heq ▸ hu)⟩

/-- The template of a variable has its position among the variables. -/
theorem exists_varOf? {r : Rule N} {t : TermId} (ht : t ∈ r.locals) : ∃ n, r.varOf? t = some n :=
  Option.ne_none_iff_exists'.1 fun hnone => varOf?_eq_none_iff.1 hnone ht

/-- A head is refused for its first fault. -/
theorem checkHead_eq_error_iff {id : ClauseId} {k : Nat} {params : List (Arg V)} {e : Error} :
    checkHead id k params = .error e ↔
      FirstFault (fun p => Arg.headFault id (k + p)) params e := by
  induction params generalizing k with
  | nil => simp [checkHead, not_firstFault_nil]
  | cons a rest ih =>
    have hshift : (fun p => Arg.headFault (V := V) id (k + (p + 1)))
        = fun p => Arg.headFault id (k + 1 + p) := by
      funext p
      rw [Nat.add_right_comm, Nat.add_assoc]
    rw [firstFault_cons, hshift, ← ih]
    cases a with
    | term t => simp [checkHead, Arg.headFault]
    | param i => by_cases hi : k ≤ i <;> simp [checkHead, Arg.headFault, hi]
    | fresh | value v => simp [checkHead, Arg.headFault]

/-- A goal is refused for its first fault. -/
theorem checkGoal_eq_error_iff {id : ClauseId} {r : Rule N} {args : List (Arg V)} {e : Error} :
    checkGoal id r args = .error e ↔ FirstFault (fun _ => Arg.goalFault id r) args e := by
  induction args with
  | nil => simp [checkGoal, not_firstFault_nil]
  | cons a rest ih =>
    rw [firstFault_cons, ← ih]
    cases a with
    | term t =>
      by_cases ht : t ∈ r.locals <;> simp [checkGoal, Arg.goalFault, varOf?_eq_none_iff, ht]
    | param i =>
      by_cases hi : i < r.arity
      · simp [checkGoal, Arg.goalFault, hi, Nat.not_le.2 hi]
      · simp [checkGoal, Arg.goalFault, hi, Nat.not_lt.1 hi]
    | fresh | value v => simp [checkGoal, Arg.goalFault]

/-- A goal passes the check if nothing is wrong with any of its arguments. -/
theorem forall_of_checkGoal {id : ClauseId} {r : Rule N} {args : List (Arg V)}
    (h : checkGoal id r args = .ok ()) : ∀ a ∈ args, a.goalFault id r = none := by
  intro a ha
  by_contra hfault
  obtain ⟨p, hp⟩ := List.getElem?_of_mem ha
  obtain ⟨e, he⟩ : ∃ e, FirstFault (fun _ => Arg.goalFault id r) args e :=
    exists_firstFault_iff.2 ⟨p, a, hp, hfault⟩
  rw [checkGoal_eq_error_iff.2 he] at h
  cases h

/-! ## Building in place -/

/-- Turns the arguments of a goal into operands in place: what the arguments before one that is
refused have added to the rule and to the pool stays there. -/
def buildGoal (id : ClauseId) : List (Arg V) → Rule N → Pool V →
    Except Error (List Operand) × Rule N × Pool V
  | [], r, p => (.ok [], r, p)
  | .fresh :: rest, r, p =>
    match p.addOwned .unbound with
    | (t, p) =>
      match r.addVar t with
      | (o, r) => match buildGoal id rest r p with | (os, left) => (os.map (o :: ·), left)
  | .value v :: rest, r, p =>
    match p.addOwned (.bound v) with
    | (t, p) => match buildGoal id rest r p with | (os, left) => (os.map (.const t :: ·), left)
  | .term t :: rest, r, p =>
    match r.varOf? t with
    | none => (.error (.foreignTerm t id), r, p)
    | some n => match buildGoal id rest r p with | (os, left) => (os.map (.var n :: ·), left)
  | .param i :: rest, r, p =>
    match r.params[i]? with
    | none => (.error (.unknownParam i id), r, p)
    | some o => match buildGoal id rest r p with | (os, left) => (os.map (o :: ·), left)

/-- A goal is declared as it is built in place, and what was added is returned with its operands. -/
theorem declareGoal_eq_buildGoal (id : ClauseId) (args : List (Arg V)) (r : Rule N) (p : Pool V) :
    declareGoal id args r p =
      (buildGoal id args r p).1.map fun os => (os, (buildGoal id args r p).2) := by
  induction args generalizing r p with
  | nil => rfl
  | cons a rest ih =>
    have hcons : ∀ (o : Operand) (r : Rule N) (p : Pool V),
        ((declareGoal id rest r p).map fun x => (o :: x.1, x.2.1, x.2.2))
          = ((buildGoal id rest r p).1.map (o :: ·)).map
            fun os => (os, (buildGoal id rest r p).2) := by
      intro o r p
      rw [ih]
      cases (buildGoal id rest r p).1 <;> rfl
    cases a with
    -- These arguments are never at fault, and the goal goes on.
    | fresh | value v => exact hcons _ _ _
    | term t =>
      simp only [declareGoal, buildGoal]
      cases r.varOf? t with
      | none => rfl
      | some n => exact hcons _ _ _
    | param i =>
      simp only [declareGoal, buildGoal]
      cases r.params[i]? with
      | none => rfl
      | some o => exact hcons _ _ _

/-- What the check finds nothing wrong with in a rule can be built in every rule that has further
variables: the variables and positions that are looked up are there already. -/
theorem exists_buildGoal {id : ClauseId} {r₀ r : Rule N} (hr : r₀.Extends r) {args : List (Arg V)}
    (h : ∀ a ∈ args, a.goalFault id r₀ = none) (p : Pool V) :
    ∃ os, (buildGoal id args r p).1 = .ok os := by
  induction args generalizing r p with
  | nil => exact ⟨[], rfl⟩
  | cons a rest ih =>
    obtain ⟨ha, hrest⟩ := List.forall_mem_cons.1 h
    have hcons : ∀ (o : Operand) {r : Rule N} (p : Pool V), r₀.Extends r →
        ∃ os, (buildGoal id rest r p).1.map (o :: ·) = .ok os := by
      intro o r p hr
      obtain ⟨os, hos⟩ := ih hr hrest p
      exact ⟨o :: os, by rw [hos]; rfl⟩
    cases a with
    -- The rule grows by a variable, and what was found valid for it stays so.
    | fresh => exact hcons _ _ (hr.trans (r.extends_addVar _))
    | value v => exact hcons _ _ hr
    | term t =>
      obtain ⟨n, hn⟩ := exists_varOf? (hr.locals.subset (Arg.mem_of_goalFault ha))
      simp only [buildGoal, hn]
      exact hcons _ _ hr
    | param i =>
      have hi : i < r.params.length := by
        rw [hr.params_eq]
        exact Arg.lt_of_goalFault ha
      simp only [buildGoal, List.getElem?_eq_getElem hi]
      exact hcons _ _ hr

/-- Once the check has accepted a goal, building it cannot be refused. -/
theorem buildGoal_of_checkGoal {id : ClauseId} {r : Rule N} {args : List (Arg V)}
    (h : checkGoal id r args = .ok ()) (p : Pool V) :
    ∃ os, (buildGoal id args r p).1 = .ok os :=
  exists_buildGoal (.refl r) (forall_of_checkGoal h) p

/-- Without the check a goal whose second argument is refused would leave a variable behind. -/
example : (buildGoal ⟨0⟩ [.fresh, .term ⟨7⟩] ({ name := 0 } : Rule Nat) ({} : Pool Nat)).1
      = .error (.foreignTerm ⟨7⟩ ⟨0⟩) ∧
    (buildGoal ⟨0⟩ [.fresh, .term ⟨7⟩] ({ name := 0 } : Rule Nat) ({} : Pool Nat)).2.1.locals
      = [⟨0⟩] := ⟨rfl, rfl⟩

end Rule

/-! ## The requests -/

namespace Database

/-- Adds a goal in place: whatever a refused request has added by then stays there. -/
def addGoalInPlace (db : Database N V) (c : ClauseId) (name : N) (args : List (Arg V)) :
    Except Error Unit × Database N V :=
  match db.program.rule? c with
  | none => (.error (.notARule c), db)
  | some rule =>
    match rule.checkGoal c args with
    | .error e => (.error e, db)
    | .ok () =>
      match Rule.buildGoal c args rule db.pool with
      | (.error e, rule, pool) =>
        (.error e, { db with program := db.program.setRule c rule, pool })
      | (.ok operands, rule, pool) =>
        (.ok (), { db with program := db.program.setRule c (rule.addGoal ⟨name, operands⟩), pool })

/-- Adding a goal in place changes the database if the goal is added, and only then. -/
theorem addGoalInPlace_eq (db : Database N V) (c : ClauseId) (name : N) (args : List (Arg V)) :
    db.addGoalInPlace c name args =
      match db.addGoal c name args with
      | .ok o => (.ok (), o.db)
      | .error e => (.error e, db) := by
  simp only [addGoalInPlace, addGoal]
  cases db.program.rule? c with
  | none => rfl
  | some rule =>
    simp only
    cases hcheck : rule.checkGoal c args with
    | error e => rfl
    | ok u =>
      -- A goal that passes the check is built to its end.
      obtain ⟨os, hos⟩ := Rule.buildGoal_of_checkGoal hcheck db.pool
      rw [Rule.declareGoal_eq_buildGoal, hos]
      generalize Rule.buildGoal c args rule db.pool = built at hos
      obtain ⟨_, r, p⟩ := built
      obtain rfl : _ = Except.ok os := hos
      rfl

/-- A goal is refused if there is no rule for it, and else for its first fault. -/
theorem addGoal_eq_error_iff {db : Database N V} {c : ClauseId} {name : N} {args : List (Arg V)}
    {e : Error} :
    db.addGoal c name args = .error e ↔
      db.program.rule? c = none ∧ e = .notARule c ∨
      ∃ r, db.program.rule? c = some r ∧ FirstFault (fun _ => Arg.goalFault c r) args e := by
  unfold addGoal
  cases db.program.rule? c with
  | none => simp [eq_comm]
  | some r =>
    simp only [← Rule.checkGoal_eq_error_iff, reduceCtorEq, false_and, false_or, Option.some.injEq,
      exists_eq_left']
    cases hcheck : r.checkGoal c args with
    | error e' => simp
    | ok u =>
      obtain ⟨os, hos⟩ := Rule.buildGoal_of_checkGoal hcheck db.pool
      rw [Rule.declareGoal_eq_buildGoal, hos]
      simp [Except.map]

/-- A variable is refused if there is no rule for it. -/
theorem addRuleVar_eq_error_iff {db : Database N V} {c : ClauseId} {e : Error} :
    db.addRuleVar c = .error e ↔ db.program.rule? c = none ∧ e = .notARule c := by
  unfold addRuleVar
  cases db.program.rule? c <;> simp [eq_comm]

/-- A binding is refused for a term of a clause, for a term that is not there, and for one that
holds a value unequal to the new one, in this order. -/
theorem bind_eq_error_iff [BEq V] {db : Database N V} {t : TermId} {v : V} {e : Error} :
    db.bind t v = .error e ↔
      if db.pool.isOwned t then e = .clauseTerm t
      else if db.pool.contains t then
        e = .alreadyBound .differs ∧ ∃ held, db.value? t = some held ∧ (held == v) = false
      else e = .unknownTerm t := by
  unfold Database.bind
  by_cases howned : db.pool.isOwned t
  · simp only [howned, if_true, Except.error.injEq, eq_comm]
  · rw [if_neg howned, if_neg howned]
    have hread : db.value? t = (db.pool.term? t).bind (·.value) := rfl
    rw [Pool.contains_eq_isSome, hread]
    cases hterm : db.pool.term? t with
    | none =>
      rw [Pool.bind_of_unknown hterm]
      simp [eq_comm]
    | some held =>
      obtain ⟨_ | w⟩ := held
      · -- An unbound term takes any value.
        rw [Pool.bind_of_unbound hterm]
        simp
      · -- A bound term takes only what its value is equal to.
        rw [Pool.bind_of_bound hterm]
        cases hheld : w == v with
        | true => simp [hheld]
        | false => simpa [hheld] using eq_comm (a := Error.alreadyBound .differs) (b := e)

/-- Binds a term in place: what has been recorded since the mark is forgotten also where the binding
is refused. -/
def bindInPlace [BEq V] (db : Database N V) (t : TermId) (v : V) :
    Except Error Unit × Database N V :=
  if db.pool.isOwned t then (.error (.clauseTerm t), db)
  else
    let mark := db.pool.mark
    match db.pool.bind t v with
    | .ok pool => (.ok (), { db with pool := pool.commit mark })
    | .error (.unknownTerm t) => (.error (.unknownTerm t), { db with pool := db.pool.commit mark })
    | .error _ => (.error (.alreadyBound .differs), { db with pool := db.pool.commit mark })

/-- Binding in place changes the database if the term is bound, and only then. -/
theorem bindInPlace_eq [BEq V] (db : Database N V) (t : TermId) (v : V) :
    db.bindInPlace t v =
      match db.bind t v with
      | .ok db' => (.ok (), db')
      | .error e => (.error e, db) := by
  unfold bindInPlace Database.bind
  simp only [Pool.commit_mark]
  by_cases howned : db.pool.isOwned t
  · rw [if_pos howned, if_pos howned]
  · rw [if_neg howned, if_neg howned]
    cases db.pool.bind t v with
    | ok pool => rfl
    | error failure => cases failure <;> rfl

/-- Unbinding is refused for a term of a clause, and for a term that is not there. -/
theorem unbind_eq_error_iff {db : Database N V} {t : TermId} {e : Error} :
    db.unbind t = .error e ↔
      if db.pool.isOwned t then e = .clauseTerm t
      else db.pool.contains t = false ∧ e = .unknownTerm t := by
  unfold Database.unbind
  by_cases howned : db.pool.isOwned t <;> by_cases hcontains : db.pool.contains t <;>
    simp [howned, hcontains, eq_comm]

variable [DecidableEq N]

/-- A head is refused for its first fault. -/
theorem addRule_eq_error_iff {db : Database N V} {name : N} {params : List (Arg V)} {e : Error} :
    db.addRule name params = .error e ↔
      FirstFault (Arg.headFault db.program.nextId) params e := by
  have hcheck : Rule.checkHead db.program.nextId 0 params = .error e ↔
      FirstFault (fun p => Arg.headFault db.program.nextId (0 + p)) params e :=
    Rule.checkHead_eq_error_iff
  simp only [Nat.zero_add] at hcheck
  rw [← hcheck]
  unfold addRule
  cases Rule.checkHead db.program.nextId 0 params <;> simp

/-- A refused command has changed nothing, and nothing is reported. -/
theorem exec_of_refused [BEq V] {db : Database N V} {rounds : Nat} {command : Command N V}
    {o : Outcome N V (Reply V)} {e : Error} (h : db.exec rounds command = some o)
    (hrefused : o.result = .refused e) : o.db = db ∧ o.log = #[] := by
  cases command with
  | addRule | addRuleVar | addGoal | bind | unbind =>
    obtain ⟨_, -, rfl⟩ | ⟨_, -, rfl⟩ := orRefused_map_cases (Option.some.inj h)
    · exact ⟨rfl, rfl⟩
    · cases hrefused
  | addFact | addVar | addConstant | unify =>
    obtain rfl := Option.some.inj h
    cases hrefused
  | query | queryAll | resolve =>
    obtain ⟨_, -, rfl⟩ := Option.map_eq_some_iff.1 h
    cases hrefused
  | tryQuery =>
    obtain ⟨⟨result, _, _⟩, -, rfl⟩ := Option.map_eq_some_iff.1 h
    cases result <;> cases hrefused

/-! ## The whole -/

/-- Which requests a database refuses and for what, and that a refused request does nothing. -/
structure Refuses [BEq V] (db : Database N V) : Prop where
  /-- A head is refused for its first argument that refers to a variable or to no earlier
  position. -/
  addRule_iff : ∀ name params e, db.addRule name params = .error e ↔
    FirstFault (Arg.headFault db.program.nextId) params e
  addRule_refused_iff : ∀ name params, (∃ e, db.addRule name params = .error e) ↔
    ∃ (p : Nat) (a : Arg V), params[p]? = some a ∧
      ((∃ t, a = .term t) ∨ ∃ i, a = .param i ∧ p ≤ i)
  /-- A goal is refused if there is no such rule, or else for its first argument that refers to none
  of the rule's variables or to no position of its head. -/
  addGoal_iff : ∀ c name args e, db.addGoal c name args = .error e ↔
    db.program.rule? c = none ∧ e = .notARule c ∨
    ∃ r, db.program.rule? c = some r ∧ FirstFault (fun _ => Arg.goalFault c r) args e
  addGoal_refused_iff : ∀ c name args, (∃ e, db.addGoal c name args = .error e) ↔
    db.program.rule? c = none ∨ ∃ r, db.program.rule? c = some r ∧
      ∃ a ∈ args, (∃ t, a = .term t ∧ t ∉ r.locals) ∨ ∃ i, a = .param i ∧ r.arity ≤ i
  addRuleVar_iff : ∀ c e, db.addRuleVar c = .error e ↔
    db.program.rule? c = none ∧ e = .notARule c
  bind_iff : ∀ t v e, db.bind t v = .error e ↔
    if db.pool.isOwned t then e = .clauseTerm t
    else if db.pool.contains t then
      e = .alreadyBound .differs ∧ ∃ held, db.value? t = some held ∧ (held == v) = false
    else e = .unknownTerm t
  unbind_iff : ∀ t e, db.unbind t = .error e ↔
    if db.pool.isOwned t then e = .clauseTerm t
    else db.pool.contains t = false ∧ e = .unknownTerm t
  /-- A refused command leaves the database as it was, and reports nothing. -/
  unchanged : ∀ rounds command o e, db.exec rounds command = some o → o.result = .refused e →
    o.db = db ∧ o.log = #[]
  /-- The two requests that do something before all of their checks are over leave the database as
  it was also when they work in place. -/
  addGoal_in_place : ∀ c name args, db.addGoalInPlace c name args =
    match db.addGoal c name args with
    | .ok o => (.ok (), o.db)
    | .error e => (.error e, db)
  bind_in_place : ∀ t v, db.bindInPlace t v =
    match db.bind t v with
    | .ok db' => (.ok (), db')
    | .error e => (.error e, db)
  /-- A goal that has passed the check is built. -/
  built : ∀ c r args, db.program.rule? c = some r → r.checkGoal c args = .ok () →
    ∃ os, (Rule.buildGoal c args r db.pool).1 = .ok os

/-- Requests are refused for exactly what is wrong with them, and leave no trace. -/
theorem refuses [BEq V] (db : Database N V) : db.Refuses where
  addRule_iff _ _ _ := addRule_eq_error_iff
  addRule_refused_iff name params := by
    simp only [addRule_eq_error_iff, exists_firstFault_iff, Arg.headFault_ne_none_iff]
  addGoal_iff _ _ _ _ := addGoal_eq_error_iff
  addGoal_refused_iff c name args := by
    simp only [addGoal_eq_error_iff]
    constructor
    · rintro ⟨e, ⟨hnone, -⟩ | ⟨r, hr, he⟩⟩
      · exact .inl hnone
      · obtain ⟨_, a, ha, hfault⟩ := exists_firstFault_iff.1 ⟨e, he⟩
        exact .inr ⟨r, hr, a, List.mem_of_getElem? ha, Arg.goalFault_ne_none_iff.1 hfault⟩
    · rintro (hnone | ⟨r, hr, a, ha, hfault⟩)
      · exact ⟨_, .inl ⟨hnone, rfl⟩⟩
      · obtain ⟨p, hp⟩ := List.getElem?_of_mem ha
        obtain ⟨e, he⟩ : ∃ e, FirstFault (fun _ => Arg.goalFault c r) args e :=
          exists_firstFault_iff.2 ⟨p, a, hp, Arg.goalFault_ne_none_iff.2 hfault⟩
        exact ⟨e, .inr ⟨r, hr, he⟩⟩
  addRuleVar_iff _ _ := addRuleVar_eq_error_iff
  bind_iff _ _ _ := bind_eq_error_iff
  unbind_iff _ _ := unbind_eq_error_iff
  unchanged _ _ _ _ h hrefused := exec_of_refused h hrefused
  addGoal_in_place := db.addGoalInPlace_eq
  bind_in_place := db.bindInPlace_eq
  built _ _ _ _ hcheck := Rule.buildGoal_of_checkGoal hcheck db.pool

end Database

end Hornbase
