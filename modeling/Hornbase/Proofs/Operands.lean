import Hornbase.Proofs.Loading
import Hornbase.Proofs.Refusals
import Mathlib.Logic.Relation

/-!
# What declarations write

A declaration gives a list of arguments, and the rule gets one operand for each. Which one it gets
can be read off the list alone: the number of a new variable is the number of new variables before
it, and the handle of a new term the number of arguments before it that bring a term. This holds of
heads, of which `Rule.WritesHead` says it, and of goals, of which `Rule.WritesGoal` does; they
differ in what a position repeats and in which variables there are already.

Both are shown in the same way. The list is cut before a position; what the arguments before it have
brought is counted, the argument itself is looked at, and what comes after it takes nothing back.
-/

namespace Hornbase

universe u v

variable {N : Type u} {V : Type v}

/-! ## Counting arguments -/

/-- A list keeps its entries when it gets longer. -/
theorem getElem?_of_initial {α : Type v} {xs ys : List α} (h : xs <+: ys) {i : Nat} {x : α}
    (hx : xs[i]? = some x) : ys[i]? = some x := by
  obtain ⟨more, rfl⟩ := h
  rw [List.getElem?_append_left (List.getElem?_eq_some_iff.1 hx).1, hx]

/-- What was put at the end of a list stays there when that gets longer. -/
theorem getElem?_of_concat_initial {α : Type v} {xs ys : List α} {x : α} {n : Nat}
    (hn : xs.length = n) (h : xs ++ [x] <+: ys) : ys[n]? = some x := by
  rw [← hn]
  exact getElem?_of_initial h List.getElem?_concat_length

/-- Behind an entry that counts there is one more. -/
theorem countP_take_lt {α : Type v} {f : α → Bool} {xs : List α} {x : α} {j k : Nat} (hjk : j < k)
    (hx : xs[j]? = some x) (hf : f x = true) : (xs.take j).countP f < (xs.take k).countP f := by
  have hnext : (xs.take (j + 1)).countP f = (xs.take j).countP f + 1 := by
    rw [List.take_add_one, hx, List.countP_append]
    simp [hf]
  have hmono : (xs.take (j + 1)).countP f ≤ (xs.take k).countP f :=
    (List.take_sublist_take_left hjk).countP_le
  omega

/-- Entries that count have different numbers. -/
theorem eq_of_countP_take_eq {α : Type v} {f : α → Bool} {xs : List α} {x y : α} {j k : Nat}
    (hx : xs[j]? = some x) (hf : f x = true) (hy : xs[k]? = some y) (hg : f y = true)
    (heq : (xs.take j).countP f = (xs.take k).countP f) : j = k := by
  rcases Nat.lt_trichotomy j k with hlt | rfl | hlt
  · exact absurd heq (Nat.ne_of_lt (countP_take_lt hlt hx hf))
  · rfl
  · exact absurd heq.symm (Nat.ne_of_lt (countP_take_lt hlt hy hg))

namespace Arg

/-- Whether an argument brings a variable. -/
def isFresh : Arg V → Bool
  | fresh => true
  | value _ | term _ | param _ => false

/-- Whether an argument brings a term: the template of a new variable, or a constant. -/
def addsTerm : Arg V → Bool
  | fresh | value _ => true
  | term _ | param _ => false

/-- How many variables the arguments before a position bring. -/
def freshBefore (args : List (Arg V)) (position : Nat) : Nat :=
  (args.take position).countP isFresh

/-- How many terms the arguments before a position bring. -/
def addedBefore (args : List (Arg V)) (position : Nat) : Nat :=
  (args.take position).countP addsTerm

end Arg

/-- A new constant holds its value. -/
theorem Pool.value?_addOwned (p : Pool V) (v : V) :
    (p.addOwned (.bound v)).2.value? (p.addOwned (.bound v)).1 = some v := by
  simp [value?, term?, addOwned, push, Term.bound]

/-! ## Heads -/

/-- Whether the position `q` of a head is the one that `p` repeats in the end, through any number of
repeats. -/
def Repeats (params : List (Arg V)) (p q : Nat) : Prop :=
  Relation.ReflTransGen (fun p q => params[p]? = some (.param q)) p q

namespace Rule

/-- What the arguments `params` make of a head, if the pool has had `base` terms before and terms
hold the values `value?` now. -/
structure WritesHead (base : Nat) (value? : TermId → Option V) (params : List (Arg V))
    (r : Rule N) : Prop where
  arity_eq : r.arity = params.length
  length_eq : r.head.length = params.length
  /-- A new variable is numbered behind those before it. -/
  fresh : ∀ p : Nat, params[p]? = some .fresh →
    r.params[p]? = some (.var (Arg.freshBefore params p)) ∧
    r.head[p]? = some ⟨base + Arg.addedBefore params p⟩ ∧
    r.locals[Arg.freshBefore params p]? = some ⟨base + Arg.addedBefore params p⟩
  /-- A constant is a new term with the value. -/
  value : ∀ (p : Nat) (v : V), params[p]? = some (.value v) →
    r.params[p]? = some (.const ⟨base + Arg.addedBefore params p⟩) ∧
    r.head[p]? = some ⟨base + Arg.addedBefore params p⟩ ∧
    value? ⟨base + Arg.addedBefore params p⟩ = some v
  /-- No position refers to a variable by its template. -/
  term : ∀ (p : Nat) (t : TermId), params[p]? ≠ some (.term t)
  /-- A repeat has the operand and the term of the earlier position that it names. -/
  param : ∀ p i : Nat, params[p]? = some (.param i) →
    i < p ∧ r.params[p]? = r.params[i]? ∧ r.head[p]? = r.head[i]?

/-- `r'` has further head positions and variables than `r`. -/
structure Begins (r r' : Rule N) : Prop where
  params : r.params <+: r'.params
  head : r.head <+: r'.head
  locals : r.locals <+: r'.locals
  body_eq : r'.body = r.body

theorem Begins.refl (r : Rule N) : r.Begins r :=
  ⟨List.prefix_refl _, List.prefix_refl _, List.prefix_refl _, rfl⟩

theorem Begins.trans {r₁ r₂ r₃ : Rule N} (h : r₁.Begins r₂) (h' : r₂.Begins r₃) : r₁.Begins r₃ :=
  ⟨h.params.trans h'.params, h.head.trans h'.head, h.locals.trans h'.locals,
    h'.body_eq.trans h.body_eq⟩

theorem begins_addParamVar (r : Rule N) (t : TermId) : r.Begins (r.addParamVar t) :=
  ⟨List.prefix_append .., List.prefix_append .., List.prefix_append .., rfl⟩

theorem begins_addParam (r : Rule N) (t : TermId) (o : Operand) : r.Begins (r.addParam t o) :=
  ⟨List.prefix_append .., List.prefix_append .., List.prefix_refl _, rfl⟩

/-- Declaring further positions leaves those that there are. -/
theorem begins_declareHead (params : List (Arg V)) (r : Rule N) (p : Pool V) :
    r.Begins (declareHead params r p).1 := by
  induction params generalizing r p with
  | nil => exact .refl r
  | cons a rest ih =>
    cases a with
    | fresh | term _ => exact (r.begins_addParamVar _).trans (ih _ _)
    | value v => exact (r.begins_addParam _ _).trans (ih _ _)
    | param i =>
      have hrepeat : r.Begins (r.addParamRepeat i) := by
        unfold addParamRepeat
        split
        · exact r.begins_addParam _ _
        · exact .refl r
      exact hrepeat.trans (ih _ _)

/-- Positions are declared one after the other. -/
theorem declareHead_append (xs ys : List (Arg V)) (r : Rule N) (p : Pool V) :
    declareHead (xs ++ ys) r p =
      declareHead ys (declareHead xs r p).1 (declareHead xs r p).2 := by
  induction xs generalizing r p with
  | nil => rfl
  | cons a rest ih => cases a <;> exact ih _ _

/-- A position that repeats one that there is gets its term and its operand. -/
theorem exists_addParamRepeat {r : Rule N} (hlength : r.head.length = r.params.length) {i : Nat}
    (hi : i < r.params.length) : ∃ t o, r.head[i]? = some t ∧ r.params[i]? = some o ∧
      r.addParamRepeat i = r.addParam t o := by
  have ht := List.getElem?_eq_getElem (hlength ▸ hi : i < r.head.length)
  have ho := List.getElem?_eq_getElem hi
  exact ⟨_, _, ht, ho, by rw [addParamRepeat, ht, ho]⟩

/-- The numbers of positions and variables of a rule whose head is being declared, and of the terms
of the pool. -/
structure Counts (r : Rule N) (p : Pool V) (positions vars terms : Nat) : Prop where
  params : r.params.length = positions
  head : r.head.length = positions
  locals : r.locals.length = vars
  size : p.size = terms

variable {id : ClauseId} {r r' : Rule N} {p p' : Pool V} {positions vars terms : Nat}

/-- One argument without a fault brings one position. -/
theorem Counts.declareHead_one (h : r.Counts p positions vars terms) {a : Arg V}
    (hok : a.headFault id positions = none) :
    (declareHead [a] r p).1.Counts (declareHead [a] r p).2 (positions + 1)
      (vars + [a].countP Arg.isFresh) (terms + [a].countP Arg.addsTerm) := by
  obtain ⟨hparams, hhead, hlocals, hsize⟩ := h
  cases a with
  | fresh =>
    exact ⟨by simp [declareHead, addParamVar, addVar, addParam, hparams],
      by simp [declareHead, addParamVar, addVar, addParam, hhead],
      by simp [declareHead, addParamVar, addVar, addParam, hlocals, Arg.isFresh],
      by simp [declareHead, hsize, Arg.addsTerm]⟩
  | value v =>
    exact ⟨by simp [declareHead, addParamConst, addParam, hparams],
      by simp [declareHead, addParamConst, addParam, hhead],
      by simp [declareHead, addParamConst, addParam, hlocals, Arg.isFresh],
      by simp [declareHead, hsize, Arg.addsTerm]⟩
  | term t => cases hok
  | param i =>
    have hi : i < r.params.length := hparams.symm ▸ Arg.lt_of_headFault hok
    obtain ⟨t, o, -, -, hstep⟩ := exists_addParamRepeat (hhead.trans hparams.symm) hi
    simp only [declareHead, hstep]
    exact ⟨by simp [addParam, hparams], by simp [addParam, hhead],
      by simp [addParam, hlocals, Arg.isFresh], by simp [hsize, Arg.addsTerm]⟩

/-- Arguments without a fault bring one position each. -/
theorem Counts.declareHead (h : r.Counts p positions vars terms) (params : List (Arg V))
    (hok : ∀ (j : Nat) (a : Arg V), params[j]? = some a → a.headFault id (positions + j) = none) :
    (declareHead params r p).1.Counts (declareHead params r p).2 (positions + params.length)
      (vars + params.countP Arg.isFresh) (terms + params.countP Arg.addsTerm) := by
  induction params generalizing r p positions vars terms with
  | nil => exact h
  | cons a rest ih =>
    have hfirst := h.declareHead_one (hok 0 a rfl)
    have hrest : ∀ (j : Nat) (b : Arg V), rest[j]? = some b →
        b.headFault id (positions + 1 + j) = none := by
      intro j b hb
      have hb := hok (j + 1) b hb
      rwa [← Nat.add_assoc, Nat.add_right_comm] at hb
    have hall := ih hfirst hrest
    rw [← declareHead_append] at hall
    rw [List.singleton_append] at hall
    rwa [Nat.add_assoc, Nat.add_comm 1, Nat.add_assoc, ← List.countP_append, Nat.add_assoc,
      ← List.countP_append] at hall

/-- A rule that holds only its name has no positions and no variables. -/
theorem counts_empty (name : N) (p : Pool V) : ({ name } : Rule N).Counts p 0 0 p.size :=
  ⟨rfl, rfl, rfl, rfl⟩

section

variable {params : List (Arg V)}
  (hok : ∀ (j : Nat) (a : Arg V), params[j]? = some a → a.headFault id j = none)

include hok

/-- A position of a head is declared after those before it, and those behind it leave it alone. -/
theorem exists_declareHead_at {j : Nat} {a : Arg V} (ha : params[j]? = some a) (name : N)
    (p : Pool V) :
    ∃ (r₁ : Rule N) (p₁ : Pool V),
      r₁.Counts p₁ j (Arg.freshBefore params j) (p.size + Arg.addedBefore params j) ∧
      r₁.Begins (declareHead [a] r₁ p₁).1 ∧
      (declareHead [a] r₁ p₁).1.Begins (declareHead params { name } p).1 ∧
      (declareHead [a] r₁ p₁).2.StartOf (declareHead params { name } p).2 := by
  obtain ⟨hj, rfl⟩ := List.getElem?_eq_some_iff.1 ha
  have hsplit : declareHead params { name } p =
      declareHead ([params[j]] ++ params.drop (j + 1)) (declareHead (params.take j) { name } p).1
        (declareHead (params.take j) { name } p).2 := by
    rw [← declareHead_append, List.singleton_append, List.getElem_cons_drop,
      List.take_append_drop]
  have hbefore := (counts_empty name p).declareHead (params.take j) fun i b hb => by
    rw [Nat.zero_add]
    exact hok i b (getElem?_of_initial (List.take_prefix j params) hb)
  rw [Nat.zero_add, Nat.zero_add, List.length_take_of_le (Nat.le_of_lt hj)] at hbefore
  refine ⟨_, _, hbefore, begins_declareHead _ _ _, ?_, ?_⟩
  · rw [hsplit, declareHead_append]
    exact begins_declareHead _ _ _
  · rw [hsplit, declareHead_append]
    exact startOf_declareHead _ _ _

/-- A head without a fault is written as its arguments say. -/
theorem writesHead_declareHead (name : N) (p : Pool V) :
    (declareHead params { name } p).1.WritesHead p.size (declareHead params { name } p).2.value?
      params := by
  -- How many positions, variables and terms there are follows from the counts.
  have hall := (counts_empty name p).declareHead params fun j a ha => by
    rw [Nat.zero_add]
    exact hok j a ha
  rw [Nat.zero_add, Nat.zero_add] at hall
  refine ⟨hall.params, hall.head, ?_, ?_, ?_, ?_⟩
  · intro j hj
    obtain ⟨r₁, p₁, hcounts, -, hbegins, -⟩ := exists_declareHead_at hok hj name p
    -- A variable: position, template and variable are all put at the ends that have been counted.
    rw [← hcounts.locals, ← hcounts.size]
    exact ⟨getElem?_of_concat_initial hcounts.params hbegins.params,
      getElem?_of_concat_initial hcounts.head hbegins.head,
      getElem?_of_concat_initial rfl hbegins.locals⟩
  · intro j v hj
    obtain ⟨r₁, p₁, hcounts, -, hbegins, hstart⟩ := exists_declareHead_at hok hj name p
    -- A constant: its term is new, and what is declared behind it does not change its value.
    rw [← hcounts.size]
    exact ⟨getElem?_of_concat_initial hcounts.params hbegins.params,
      getElem?_of_concat_initial hcounts.head hbegins.head,
      hstart.value?_of_some (p₁.value?_addOwned v)⟩
  · intro j t hj
    -- A template has a fault in every head.
    cases hok j _ hj
  · intro j i hj
    obtain ⟨r₁, p₁, hcounts, hold, hbegins, -⟩ := exists_declareHead_at hok hj name p
    -- A repeat: what it names is there before it, and is still there in the end.
    have hi : i < j := Arg.lt_of_headFault (hok j _ hj)
    obtain ⟨t, o, ht, ho, hstep⟩ := exists_addParamRepeat
      (hcounts.head.trans hcounts.params.symm) (hcounts.params.symm ▸ hi)
    have hwhole := hold.trans hbegins
    simp only [declareHead, hstep] at hbegins
    refine ⟨hi, ?_, ?_⟩
    · rw [getElem?_of_initial hwhole.params ho]
      exact getElem?_of_concat_initial hcounts.params hbegins.params
    · rw [getElem?_of_initial hwhole.head ht]
      exact getElem?_of_concat_initial hcounts.head hbegins.head

end

section

variable {base : Nat} {f g : TermId → Option V} {params : List (Arg V)}

/-- A position that repeats another has its operand and its term. -/
theorem WritesHead.of_repeats (h : r.WritesHead base f params) {j k : Nat}
    (hjk : Repeats params j k) : r.params[j]? = r.params[k]? ∧ r.head[j]? = r.head[k]? := by
  induction hjk with
  | refl => exact ⟨rfl, rfl⟩
  | tail _ hlast ih =>
    obtain ⟨-, hparams, hhead⟩ := h.param _ _ hlast
    exact ⟨ih.1.trans hparams, ih.2.trans hhead⟩

/-- Each position repeats one in the end that brings a variable or a constant. -/
theorem WritesHead.exists_repeats (h : r.WritesHead base f params) {j : Nat}
    (hj : j < params.length) : ∃ k ≤ j, Repeats params j k ∧
      (params[k]? = some .fresh ∨ ∃ v, params[k]? = some (.value v)) := by
  induction j using Nat.strongRecOn with
  | ind j ih =>
    cases ha : params[j]? with
    | none => exact absurd (List.getElem?_eq_none_iff.1 ha) (Nat.not_le.2 hj)
    | some a =>
      cases a with
      | fresh => exact ⟨j, Nat.le_refl j, .refl, .inl ha⟩
      | value v => exact ⟨j, Nat.le_refl j, .refl, .inr ⟨v, ha⟩⟩
      | term t => exact absurd ha (h.term j t)
      | param i =>
        obtain ⟨hi, -⟩ := h.param j i ha
        obtain ⟨k, hk, hrepeats, hbrings⟩ := ih i hi (Nat.lt_trans hi hj)
        exact ⟨k, Nat.le_trans hk (Nat.le_of_lt hi), .head ha hrepeats, hbrings⟩

/-- A head stays written as it is when its rule gets further variables and goals, and its constants
keep their values. -/
theorem WritesHead.extend (h : r.WritesHead base f params) (hextends : r.Extends r')
    (hhead : r'.head = r.head)
    (hvalue : ∀ t v, .const t ∈ r.params → f t = some v → g t = some v) :
    r'.WritesHead base g params where
  arity_eq := (congrArg List.length hextends.params_eq).trans h.arity_eq
  length_eq := (congrArg List.length hhead).trans h.length_eq
  fresh j hj := by
    obtain ⟨hparam, hterm, hlocal⟩ := h.fresh j hj
    rw [hextends.params_eq, hhead]
    exact ⟨hparam, hterm, getElem?_of_initial hextends.locals hlocal⟩
  value j v hj := by
    obtain ⟨hparam, hterm, hv⟩ := h.value j v hj
    rw [hextends.params_eq, hhead]
    exact ⟨hparam, hterm, hvalue _ v (List.mem_of_getElem? hparam) hv⟩
  term := h.term
  param j i hj := by
    rw [hextends.params_eq, hhead]
    exact h.param j i hj

end

end Rule

/-! ## Goals -/

namespace Rule

/-- What the arguments `args` of a goal under `name` make of the rule `r`, which becomes `r'`, and
of a pool of `base` terms, of which `value?` gives the values then. The goal has the operands
`os`. -/
structure WritesGoal (base : Nat) (value? : TermId → Option V) (name : N) (args : List (Arg V))
    (r r' : Rule N) (os : List Operand) : Prop where
  /-- The goal comes behind the others. -/
  body_eq : r'.body = r.body ++ [⟨name, os⟩]
  length_eq : os.length = args.length
  /-- The head stays as it is. -/
  head_eq : r'.name = r.name ∧ r'.head = r.head ∧ r'.params = r.params
  /-- The new variables come behind the others. -/
  locals : r.locals <+: r'.locals ∧ r'.locals.length = r.locals.length + args.countP Arg.isFresh
  /-- A new variable is numbered behind all that there are, and nothing else refers to it. -/
  fresh : ∀ j : Nat, args[j]? = some .fresh →
    os[j]? = some (.var (r.locals.length + Arg.freshBefore args j)) ∧
    r'.locals[r.locals.length + Arg.freshBefore args j]?
      = some ⟨base + Arg.addedBefore args j⟩ ∧
    .var (r.locals.length + Arg.freshBefore args j) ∉ r.operands ∧
    ∀ k : Nat, os[k]? = os[j]? → k = j
  /-- A constant is a new term with the value, and nothing else refers to it. -/
  value : ∀ (j : Nat) (v : V), args[j]? = some (.value v) →
    os[j]? = some (.const ⟨base + Arg.addedBefore args j⟩) ∧
    value? ⟨base + Arg.addedBefore args j⟩ = some v ∧
    .const ⟨base + Arg.addedBefore args j⟩ ∉ r.operands ∧
    ∀ k : Nat, os[k]? = os[j]? → k = j
  /-- A term stands for the one variable whose template it is. -/
  term : ∀ (j : Nat) (t : TermId), args[j]? = some (.term t) →
    ∃ n, os[j]? = some (.var n) ∧ ∀ m : Nat, r.locals[m]? = some t ↔ m = n
  /-- A position of the head stands for the operand there. -/
  param : ∀ j i : Nat, args[j]? = some (.param i) → i < r.arity ∧ os[j]? = r.params[i]?

variable {r r₁ r' : Rule N} {p p₁ p' : Pool V}

/-- What one argument of a goal brings. -/
theorem DeclaresArg.size {a : Arg V} {o : Operand} (h : r.DeclaresArg p a o r₁ p₁) :
    r₁.locals.length = r.locals.length + [a].countP Arg.isFresh ∧
      p₁.size = p.size + [a].countP Arg.addsTerm := by
  cases h with
  | fresh => exact ⟨by simp [addVar, Arg.isFresh], by simp [Arg.addsTerm]⟩
  | value v => exact ⟨rfl, by simp [Arg.addsTerm]⟩
  | term | param => exact ⟨rfl, rfl⟩

variable {args : List (Arg V)} {os : List Operand}

/-- What the arguments of a goal bring. -/
theorem DeclaresArgs.size (h : DeclaresArgs args r p os r' p') :
    r'.locals.length = r.locals.length + args.countP Arg.isFresh ∧
      p'.size = p.size + args.countP Arg.addsTerm ∧ os.length = args.length := by
  induction h with
  | nil => exact ⟨rfl, rfl, rfl⟩
  | @cons a args _ _ _ _ _ _ _ _ hfirst _ ih =>
    obtain ⟨hlocals, hsize⟩ := hfirst.size
    obtain ⟨hlocals', hsize', hlength⟩ := ih
    rw [← List.singleton_append, List.countP_append, List.countP_append]
    exact ⟨by omega, by omega, congrArg (· + 1) hlength⟩

/-- An argument of a goal is declared after those before it, and those behind it leave alone what
it has brought. -/
theorem DeclaresArgs.exists_at (h : DeclaresArgs args r p os r' p') {j : Nat} {a : Arg V}
    (ha : args[j]? = some a) :
    ∃ o r₁ p₁ r₂ p₂, os[j]? = some o ∧ r.Extends r₁ ∧
      r₁.locals.length = r.locals.length + Arg.freshBefore args j ∧
      p₁.size = p.size + Arg.addedBefore args j ∧ r₁.DeclaresArg p₁ a o r₂ p₂ ∧
      r₂.Extends r' ∧ p₂.StartOf p' := by
  induction h generalizing j with
  | nil => cases ha
  | @cons b args o os r r₁ r' p p₁ p' hfirst hrest ih =>
    cases j with
    | zero =>
      obtain rfl := Option.some.inj ha
      exact ⟨o, r, p, r₁, p₁, rfl, .refl r, rfl, rfl, hfirst, hrest.takesGoal.same.1,
        hrest.startOf⟩
    | succ j =>
      obtain ⟨o', r₂, p₂, r₃, p₃, ho, hextends, hlocals, hsize, hdeclares, hafter⟩ := ih ha
      obtain ⟨hlocals₁, hsize₁⟩ := hfirst.size
      refine ⟨o', r₂, p₂, r₃, p₃, ho, hfirst.extends.trans hextends, ?_, ?_, hdeclares, hafter⟩
      · rw [hlocals, hlocals₁, Nat.add_assoc, Arg.freshBefore, Arg.freshBefore, List.take_succ_cons,
          ← List.countP_append, List.singleton_append]
      · rw [hsize, hsize₁, Nat.add_assoc, Arg.addedBefore, Arg.addedBefore, List.take_succ_cons,
          ← List.countP_append, List.singleton_append]

/-- All operands of a valid rule are valid. -/
theorem Valid.operands (hr : r.Valid p) : ∀ o ∈ r.operands, o.Valid p r.locals.length := by
  intro o ho
  rcases List.mem_append.1 ho with ho | ho
  · exact hr.params o ho
  · obtain ⟨g, hg, ho⟩ := List.mem_flatMap.1 ho
    exact hr.body g hg o ho

/-- A variable behind the others is none of them. -/
theorem not_valid_var (r : Rule N) (p : Pool V) (n : Nat) :
    ¬ (Operand.var (r.locals.length + n)).Valid p r.locals.length :=
  Nat.not_lt.2 (Nat.le_add_right _ n)

/-- A term behind the others is no constant yet. -/
theorem not_valid_const (p : Pool V) (n k : Nat) :
    ¬ (Operand.const ⟨p.size + n⟩).Valid p k :=
  fun h => absurd (Pool.Fixed.lt h) (Nat.not_lt.2 (Nat.le_add_right _ n))

/-- Where no two variables share a template, the variable that is found is the only one. -/
theorem getElem?_iff_of_varOf? (hnodup : r.locals.Nodup) {t : TermId} {n : Nat}
    (h : r.varOf? t = some n) (m : Nat) : r.locals[m]? = some t ↔ m = n := by
  constructor
  · intro hm
    exact Option.some.inj ((varOf?_of_getElem? hnodup hm).symm.trans h)
  · rintro rfl
    obtain ⟨hlt, heq, -⟩ := List.findIdx?_eq_some_iff_getElem.1 h
    rw [List.getElem?_eq_getElem hlt, eq_of_beq heq]

/-- A variable that the check has found is the one that is found later. -/
theorem varOf?_of_goalFault {id : ClauseId} {t : TermId} {n : Nat}
    (hok : Arg.goalFault (V := V) id r (.term t) = none) (hextends : r.Extends r₁)
    (hn : r₁.varOf? t = some n) : r.varOf? t = some n := by
  obtain ⟨m, hm⟩ := exists_varOf? (Arg.mem_of_goalFault hok)
  rw [hm, ← hn, varOf?_of_extends hextends hm]

section

variable (h : DeclaresArgs args r p os r' p') (hr : r.Valid p) {id : ClauseId}
  (hok : ∀ a ∈ args, a.goalFault id r = none)

include h hr hok

/-- The operands of a goal are new variables and new constants, each numbered by its place, and
operands that were valid before. -/
theorem DeclaresArgs.operand_cases {j : Nat} {o : Operand} (ho : os[j]? = some o) :
    args[j]? = some .fresh ∧ o = .var (r.locals.length + Arg.freshBefore args j) ∨
    (∃ v, args[j]? = some (.value v)) ∧ o = .const ⟨p.size + Arg.addedBefore args j⟩ ∨
    o.Valid p r.locals.length := by
  have hj : j < args.length := h.size.2.2 ▸ (List.getElem?_eq_some_iff.1 ho).1
  have ha := List.getElem?_eq_getElem hj
  obtain ⟨o', r₁, p₁, r₂, p₂, ho', hextends, hlocals, hsize, hdeclares, -⟩ := h.exists_at ha
  obtain rfl := Option.some.inj (ho.symm.trans ho')
  rw [← hlocals, ← hsize]
  generalize args[j] = a at ha hdeclares
  cases hdeclares with
  | fresh => exact .inl ⟨ha, rfl⟩
  | value v => exact .inr (.inl ⟨⟨v, ha⟩, rfl⟩)
  | term hn =>
    have hold := varOf?_of_goalFault (hok _ (List.mem_of_getElem? ha)) hextends hn
    exact .inr (.inr (List.findIdx?_eq_some_iff_findIdx_eq.1 hold).1)
  | param hi =>
    rw [hextends.params_eq] at hi
    exact .inr (.inr (hr.params _ (List.mem_of_getElem? hi)))

/-- No two operands of a goal are the same new variable. -/
theorem DeclaresArgs.eq_of_var {j k : Nat} (hj : args[j]? = some .fresh)
    (hk : os[k]? = some (.var (r.locals.length + Arg.freshBefore args j))) : k = j := by
  rcases h.operand_cases hr hok hk with ⟨hfresh, heq⟩ | ⟨-, heq⟩ | hvalid
  · have hnumber : Arg.freshBefore args k = Arg.freshBefore args j :=
      (Nat.add_left_cancel (Operand.var.inj heq)).symm
    exact eq_of_countP_take_eq (f := Arg.isFresh) hfresh rfl hj rfl hnumber
  · cases heq
  · exact absurd hvalid (r.not_valid_var p _)

/-- No two operands of a goal are the same new constant. -/
theorem DeclaresArgs.eq_of_const {j k : Nat} {v : V} (hj : args[j]? = some (.value v))
    (hk : os[k]? = some (.const ⟨p.size + Arg.addedBefore args j⟩)) : k = j := by
  rcases h.operand_cases hr hok hk with ⟨-, heq⟩ | ⟨⟨w, hvalue⟩, heq⟩ | hvalid
  · cases heq
  · have hnumber : Arg.addedBefore args k = Arg.addedBefore args j :=
      (Nat.add_left_cancel (TermId.mk.inj (Operand.const.inj heq))).symm
    exact eq_of_countP_take_eq (f := Arg.addsTerm) hvalue rfl hj rfl hnumber
  · exact absurd hvalid (not_valid_const p _ _)

/-- A goal without a fault is written as its arguments say. -/
theorem DeclaresArgs.writesGoal (hnodup : r.locals.Nodup) (name : N) :
    WritesGoal p.size p'.value? name args r (r'.addGoal ⟨name, os⟩) os := by
  obtain ⟨hextends, hhead, hbody⟩ := h.takesGoal.same
  obtain ⟨hlocals, -, hlength⟩ := h.size
  refine ⟨congrArg (· ++ [_]) hbody, hlength, ⟨hextends.name_eq, hhead, hextends.params_eq⟩,
    ⟨hextends.locals, hlocals⟩, ?_, ?_, ?_, ?_⟩
  · intro j hj
    obtain ⟨o, r₁, p₁, r₂, p₂, ho, -, hlocals₁, hsize₁, hdeclares, hextends₂, -⟩ := h.exists_at hj
    cases hdeclares
    have hlocal := getElem?_of_concat_initial hlocals₁ hextends₂.locals
    rw [hlocals₁] at ho
    rw [← hsize₁]
    -- A new variable is numbered behind those that the rule had, and behind those before it.
    exact ⟨ho, hlocal, fun hold => r.not_valid_var p _ (hr.operands _ hold),
      fun k hk => h.eq_of_var hr hok hj (hk.trans ho)⟩
  · intro j v hj
    obtain ⟨o, r₁, p₁, r₂, p₂, ho, -, -, hsize₁, hdeclares, -, hstart⟩ := h.exists_at hj
    cases hdeclares
    have hvalue := hstart.value?_of_some (p₁.value?_addOwned v)
    rw [show (p₁.addOwned (.bound v)).1 = ⟨p₁.size⟩ from rfl, hsize₁] at ho hvalue
    -- So is the term of a new constant, which keeps the value that it is given.
    exact ⟨ho, hvalue, fun hold => not_valid_const p _ _ (hr.operands _ hold),
      fun k hk => h.eq_of_const hr hok hj (hk.trans ho)⟩
  · intro j t hj
    obtain ⟨o, r₁, p₁, r₂, p₂, ho, hextends₁, -, -, hdeclares, -, -⟩ := h.exists_at hj
    cases hdeclares with
    | term hn =>
      -- A template is looked up among more variables than were checked, and found where it was.
      have hfound := varOf?_of_goalFault (hok _ (List.mem_of_getElem? hj)) hextends₁ hn
      exact ⟨_, ho, getElem?_iff_of_varOf? hnodup hfound⟩
  · intro j i hj
    obtain ⟨o, r₁, p₁, r₂, p₂, ho, hextends₁, -, -, hdeclares, -, -⟩ := h.exists_at hj
    cases hdeclares with
    | param hi =>
      -- The head has not changed while the goal was built.
      rw [hextends₁.params_eq] at hi
      exact ⟨(List.getElem?_eq_some_iff.1 hi).1, ho.trans hi.symm⟩

end

end Rule

/-! ## Positions and templates -/

/-- Whether one argument of a goal may stand for another: it is the other one, or the other is the
template of the variable at the position of the head that it names. -/
inductive Arg.StandsFor (r : Rule N) : Arg V → Arg V → Prop
  | same (a : Arg V) : StandsFor r a a
  | param {i n : Nat} {t : TermId} : r.params[i]? = some (.var n) → r.head[i]? = some t →
    StandsFor r (.param i) (.term t)

namespace Rule

variable {r r₁ : Rule N} {args args' : List (Arg V)}

/-- The template at a position of the head is that of the variable there. -/
theorem Shaped.varOf?_eq (hr : r.Shaped) {i n : Nat} {t : TermId}
    (hparam : r.params[i]? = some (.var n)) (hhead : r.head[i]? = some t) :
    r.varOf? t = some n := by
  refine varOf?_of_getElem? hr.locals_nodup ?_
  rw [← hhead, getElem?_head hr.head_eq hparam]
  rfl

/-- Arguments that stand for others pass the check with them. -/
theorem checkGoal_congr (hr : r.Shaped) (id : ClauseId)
    (h : args.Forall₂ (Arg.StandsFor r) args') : checkGoal id r args = checkGoal id r args' := by
  induction h with
  | nil => rfl
  | @cons a _ _ _ ha _ ih =>
    cases ha with
    | same => cases a <;> simp only [checkGoal, ih]
    | @param i n t hparam hhead =>
      have hi : ¬ r.arity ≤ i := Nat.not_le.2 (List.getElem?_eq_some_iff.1 hparam).1
      simp only [checkGoal, hr.varOf?_eq hparam hhead, hi, if_false, reduceCtorEq, ih]

/-- Arguments that stand for others declare the same goal. -/
theorem declareGoal_congr (hr : r.Shaped) (id : ClauseId)
    (h : args.Forall₂ (Arg.StandsFor r) args') (hextends : r.Extends r₁) (p : Pool V) :
    declareGoal id args r₁ p = declareGoal id args' r₁ p := by
  induction h generalizing r₁ p with
  | nil => rfl
  | @cons a _ _ _ ha _ ih =>
    cases ha with
    | same =>
      cases a with
      | fresh => simp only [declareGoal, ih (hextends.trans (r₁.extends_addVar _))]
      | value | term | param => simp only [declareGoal, ih hextends]
    | @param i n t hparam hhead =>
      have hvar := varOf?_of_extends hextends (hr.varOf?_eq hparam hhead)
      rw [← hextends.params_eq] at hparam
      simp only [declareGoal, hparam, hvar, ih hextends]

end Rule

namespace Database

/-- Arguments that stand for others add the same goal. -/
theorem addGoal_congr {db : Database N V} {c : ClauseId} {r : Rule N}
    (hc : db.program.rule? c = some r) (hr : r.Shaped) (name : N) {args args' : List (Arg V)}
    (h : args.Forall₂ (Arg.StandsFor r) args') :
    db.addGoal c name args = db.addGoal c name args' := by
  simp only [addGoal, hc, Rule.checkGoal_congr hr c h, Rule.declareGoal_congr hr c h (.refl r)]

/-- A goal that is added has no fault. -/
theorem goalFault_of_addGoal {db : Database N V} {c : ClauseId} {name : N} {args : List (Arg V)}
    {o : Outcome N V Unit} (h : db.addGoal c name args = .ok o) {r : Rule N}
    (hr : db.program.rule? c = some r) : ∀ a ∈ args, a.goalFault c r = none := by
  intro a ha
  by_contra hfault
  obtain ⟨j, hj⟩ := List.getElem?_of_mem ha
  obtain ⟨e, he⟩ : ∃ e, FirstFault (fun _ => Arg.goalFault c r) args e :=
    exists_firstFault_iff.2 ⟨j, a, hj, hfault⟩
  cases h.symm.trans (addGoal_eq_error_iff.2 (.inr ⟨r, hr, he⟩))

/-- A head that is added has no fault. -/
theorem headFault_of_addRule [DecidableEq N] {db : Database N V} {name : N} {params : List (Arg V)}
    {o : Outcome N V ClauseId} (h : db.addRule name params = .ok o) :
    ∀ (j : Nat) (a : Arg V), params[j]? = some a → a.headFault db.program.nextId j = none := by
  intro j a ha
  by_contra hfault
  obtain ⟨e, he⟩ : ∃ e, FirstFault (Arg.headFault db.program.nextId) params e :=
    exists_firstFault_iff.2 ⟨j, a, ha, hfault⟩
  cases h.symm.trans (addRule_eq_error_iff.2 he)

/-- A rule that takes the place of another is found there, and the others stay where they are. -/
theorem clause?_of_setRule {db : Database N V} {c : ClauseId} {r : Rule N}
    (hr : db.program.rule? c = some r) (r' : Rule N) (q : Pool V) :
    (⟨db.program.setRule c r', q, db.config⟩ : Database N V).clause? c = some (.rule r') ∧
      ∀ c' ≠ c, (⟨db.program.setRule c r', q, db.config⟩ : Database N V).clause? c'
        = db.clause? c' := by
  constructor
  · rw [Database.clause?, Program.clause?_setRule, if_pos rfl, Program.clause?_of_rule? hr]
    rfl
  · intro c' hne
    rw [Database.clause?, Program.clause?_setRule, if_neg hne]
    rfl

/-! ## The whole -/

variable [DecidableEq N] [BEq V]

/-- What is declared in a database is written as the arguments say. -/
structure WritesDeclarations (db : Database N V) : Prop where
  /-- A new rule has the variables of its head and no goals yet. -/
  new_rule : ∀ name params o, db.addRule name params = .ok o →
    ∃ r, o.db.clause? o.result = some (.rule r) ∧ r.body = [] ∧
      r.locals.length = params.countP Arg.isFresh
  /-- Its head is what the arguments say, and stays so whatever commands follow. Each position
  repeats in the end one that brings a variable or a constant, and is what that one is. -/
  head : ∀ name params o, db.addRule name params = .ok o →
    ∀ run later, o.db.Leads run later → ∃ r, later.clause? o.result = some (.rule r) ∧
      r.name = name ∧ r.WritesHead db.pool.size later.value? params ∧
      ∀ j < params.length, ∃ k ≤ j, Repeats params j k ∧
        (params[k]? = some .fresh ∨ ∃ v, params[k]? = some (.value v)) ∧
        r.params[j]? = r.params[k]? ∧ r.head[j]? = r.head[k]?
  /-- A further variable comes behind the others, and nothing else changes. -/
  variable_added : ∀ c o, db.addRuleVar c = .ok o →
    ∃ r, db.clause? c = some (.rule r) ∧
      o.db.clause? c = some (.rule { r with locals := r.locals ++ [o.result] }) ∧
      (∀ c' ≠ c, o.db.clause? c' = db.clause? c') ∧
      o.result = ⟨db.pool.size⟩ ∧ db.pool.StartOf o.db.pool
  /-- A further goal is what its arguments say, and nothing else changes. -/
  goal : ∀ c name args o, db.addGoal c name args = .ok o →
    ∃ r r' os, db.clause? c = some (.rule r) ∧ o.db.clause? c = some (.rule r') ∧
      Rule.WritesGoal db.pool.size o.db.value? name args r r' os ∧
      (∀ c' ≠ c, o.db.clause? c' = db.clause? c') ∧ db.pool.StartOf o.db.pool
  /-- At a position of the head that holds a variable, the position and the template are one and the
  same argument. -/
  stands_for : ∀ c r name args args', db.clause? c = some (.rule r) →
    args.Forall₂ (Arg.StandsFor r) args' →
    db.addGoal c name args = db.addGoal c name args'

/-- In every reachable database rules are declared as they are written. -/
theorem writes_declarations {db : Database N V} (hdb : db.Reachable) : db.WritesDeclarations where
  new_rule name params o ho := by
    -- The counts are those of an empty rule plus what the arguments bring.
    obtain ⟨-, hid, hadded⟩ := addRule_eq_ok ho
    have hcounts := (Rule.counts_empty name db.pool).declareHead params fun j a ha => by
      rw [Nat.zero_add]
      exact headFault_of_addRule ho j a ha
    rw [Nat.zero_add, Nat.zero_add] at hcounts
    rw [hid, hadded]
    exact ⟨_, clause?_of_add db _ _, (Rule.begins_declareHead params { name } db.pool).body_eq,
      hcounts.locals⟩
  head name params o ho run later hrun := by
    obtain ⟨-, hid, hadded⟩ := addRule_eq_ok ho
    have hafter := hdb.addRule ho
    have hclause : o.db.clause? o.result
        = some (.rule (Rule.declareHead params { name } db.pool).1) := by
      rw [hid, hadded]
      exact clause?_of_add db _ _
    -- The head is as written when it is declared.
    have hwrites := Rule.writesHead_declareHead (headFault_of_addRule ho) name db.pool
    -- What follows changes neither the positions of the head nor the values of constants.
    have hlasts := hrun.lasts hafter
    obtain ⟨r, hr, hextends, hhead, -⟩ := hlasts.rule_grows _ _ hclause
    have hlater := hwrites.extend (g := later.value?) hextends hhead fun t v ht hv => by
      have hfixed : o.db.pool.Fixed t := (hafter.valid.rule hclause).params _ ht
      rw [hlasts.value?_eq hfixed, hadded]
      exact hv
    refine ⟨r, hr, hextends.name_eq.trans (Rule.declareHead_name params _ _), hlater,
      fun j hj => ?_⟩
    obtain ⟨k, hk, hrepeats, hbrings⟩ := hlater.exists_repeats hj
    exact ⟨k, hk, hrepeats, hbrings, hlater.of_repeats hrepeats⟩
  variable_added c o ho := by
    obtain ⟨r, hr, hresult, hadded⟩ := addRuleVar_eq_ok ho
    -- Only the rule under `c` is another than before, and only its variables are.
    obtain ⟨hnew, hothers⟩ := clause?_of_setRule hr (r.addVar (db.pool.addOwned .unbound).1).2
      (db.pool.addOwned .unbound).2
    rw [hresult, hadded]
    exact ⟨r, Program.clause?_of_rule? hr, hnew, hothers, rfl, db.pool.startOf_push _⟩
  goal c name args o ho := by
    obtain ⟨r, os, r', q, hr, hgoal, hadded⟩ := addGoal_eq_ok ho
    obtain ⟨hnew, hothers⟩ := clause?_of_setRule hr (r'.addGoal ⟨name, os⟩) q
    have hclause := Program.clause?_of_rule? hr
    -- The arguments have passed the check, so the goal is written as they say.
    have hwrites := hgoal.writesGoal (hdb.valid.rule hclause) (goalFault_of_addGoal ho hr)
      (hdb.owns.2.1 c r hclause).locals_nodup name
    rw [hadded]
    exact ⟨r, _, os, hclause, hnew, hwrites, hothers, hgoal.startOf⟩
  stands_for c r name args args' hc h := by
    have hr : db.program.rule? c = some r := by
      rw [Program.rule?, show db.program.clause? c = some (.rule r) from hc]
    exact addGoal_congr hr (hdb.owns.2.1 c r hc) name h

/-- A head with a constant and a chain of repeats, and a goal with every kind of argument for the
rule, which has got a variable of its own. -/
theorem writes_declarations_chain_of_repeats :
    ∃ db : Database Nat Nat, db.Reachable ∧
      ((db.addGoal ⟨0⟩ 2 [.term ⟨2⟩, .param 3, .value 8, .fresh]).toOption.bind fun o =>
        (o.db.program.rule? ⟨0⟩).map fun r => (r.params, r.locals, r.body.map (·.args))) =
        some ([.var 0, .const ⟨1⟩, .var 0, .var 0], [⟨0⟩, ⟨2⟩, ⟨4⟩],
          [[.var 1, .var 0, .const ⟨3⟩, .var 2]]) ∧
      db.WritesDeclarations := by
  obtain ⟨db, hdb, hgoal⟩ := exists_reachable ⟨none, false⟩ 0
    [.addRule 1 [.fresh, .value 7, .param 0, .param 2], .addRuleVar ⟨0⟩]
    (fun db : Database Nat Nat =>
      ((db.addGoal ⟨0⟩ 2 [.term ⟨2⟩, .param 3, .value 8, .fresh]).toOption.bind fun o =>
        (o.db.program.rule? ⟨0⟩).map fun r => (r.params, r.locals, r.body.map (·.args))) =
        some ([.var 0, .const ⟨1⟩, .var 0, .var 0], [⟨0⟩, ⟨2⟩, ⟨4⟩],
          [[.var 1, .var 0, .const ⟨3⟩, .var 2]]))
    (by decide +kernel)
  exact ⟨db, hdb, hgoal, writes_declarations hdb⟩

end Database

end Hornbase
