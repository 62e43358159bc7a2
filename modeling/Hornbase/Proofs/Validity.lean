import Hornbase.Command
import Hornbase.Proofs.Aftermath

/-!
# Valid programs

A clause may mention terms only that stand in the pool, are bound and belong to a stored clause, and
a rule may refer only to variables that it has. `Program.Valid` says this of all clauses. It is kept
when terms are added or bound and when clauses are declared, since nothing takes a stored value
away.

What is made of the arguments of a goal is said once, by `Rule.DeclaresArg` for one of them and by
`Rule.DeclaresArgs` for all; what a goal brings to its rule and to the pool is shown for the one and
follows for the others.
-/

namespace Hornbase

universe u v

variable {N : Type u} {V : Type v}

/-! ## Fixed terms -/

namespace Pool

/-- Whether `t` is a bound term of a stored clause. -/
def Fixed (p : Pool V) (t : TermId) : Prop := ∃ v, p.cells[t.index]? = some ⟨.bound v, true⟩

theorem Fixed.lt {p : Pool V} {t : TermId} (h : p.Fixed t) : t.index < p.size := by
  obtain ⟨v, hv⟩ := h
  exact (Array.getElem?_eq_some_iff.1 hv).1

/-- A fixed term holds a value. -/
theorem Fixed.exists_value? {p : Pool V} {t : TermId} (h : p.Fixed t) :
    ∃ v, p.value? t = some v := by
  obtain ⟨v, hv⟩ := h
  exact ⟨v, by simp [value?, term?, hv, Term.bound]⟩

/-- Whether every fixed term of `p` is one of `q`. -/
def Keeps (p q : Pool V) : Prop := ∀ t, p.Fixed t → q.Fixed t

theorem Keeps.refl (p : Pool V) : p.Keeps p := fun _ h => h

theorem Keeps.trans {p q r : Pool V} (hpq : p.Keeps q) (hqr : q.Keeps r) : p.Keeps r :=
  fun t h => hqr t (hpq t h)

/-- Cells that stay where they are keep the terms fixed. -/
theorem keeps_of_cells {p q : Pool V}
    (h : ∀ (i : Nat) (v : V), p.cells[i]? = some ⟨.bound v, true⟩ →
      q.cells[i]? = some ⟨.bound v, true⟩) : p.Keeps q :=
  fun t ⟨v, hv⟩ => ⟨v, h t.index v hv⟩

theorem GrowsTo.keeps {p q : Pool V} (h : p.GrowsTo q) : p.Keeps q := by
  intro t ht
  have hlt := ht.lt
  obtain ⟨v, hv⟩ := ht
  have howned := h.owned_eq hlt
  have hvalue := h.value?_eq (t := t) (v := v) (by simp [value?, term?, hv, Term.bound])
  obtain ⟨⟨⟨value⟩, owned⟩, hc⟩ : ∃ c, q.cells[t.index]? = some c := by
    simp only [value?, term?] at hvalue
    cases hc : q.cells[t.index]? with
    | none => simp [hc] at hvalue
    | some c => exact ⟨c, rfl⟩
  obtain rfl : value = some v := by simpa [value?, term?, hc] using hvalue
  obtain rfl : owned = true := by simpa [hv, hc] using howned
  exact ⟨v, hc⟩

/-- What is kept after a search keeps the terms fixed. -/
theorem GrowsTo.keeps_kept {p q : Pool V} (h : p.GrowsTo q) : p.Keeps (p.kept q) := by
  intro t ht
  obtain ⟨v, hv⟩ := h.keeps t ht
  refine ⟨v, ?_⟩
  rw [kept, getElem?_truncate, if_pos ht.lt]
  exact hv

theorem keeps_push (p : Pool V) (c : Cell V) : p.Keeps (p.push c).2 := by
  refine keeps_of_cells fun i v hv => ?_
  have hlt := (Array.getElem?_eq_some_iff.1 hv).1
  simp only [push, Array.getElem?_push, Nat.ne_of_lt hlt, if_false, hv]

/-- A new bound term of a clause is fixed. -/
theorem fixed_addOwned (p : Pool V) (v : V) :
    (p.addOwned (.bound v)).2.Fixed (p.addOwned (.bound v)).1 :=
  ⟨v, by simp [addOwned, push]⟩

theorem keeps_addTuple (p : Pool V) (vs : List V) : p.Keeps (p.addTuple vs).2 := by
  refine keeps_of_cells fun i v hv => ?_
  have hlt := (Array.getElem?_eq_some_iff.1 hv).1
  simp only [addTuple, Array.getElem?_append_left hlt, hv]

/-- The new terms of a tuple are fixed. -/
theorem fixed_addTuple (p : Pool V) (vs : List V) :
    ∀ t ∈ (p.addTuple vs).1, (p.addTuple vs).2.Fixed t := by
  intro t ht
  obtain ⟨i, hi, rfl⟩ := List.mem_map.1 ht
  obtain ⟨hge, hlt⟩ : p.cells.size ≤ i ∧ i < p.cells.size + vs.length := by simpa using hi
  have hlt : i - p.cells.size < vs.length := by omega
  refine ⟨vs[i - p.cells.size], ?_⟩
  simp only [addTuple, Array.getElem?_append_right hge, List.getElem?_toArray, List.getElem?_map]
  rw [List.getElem?_eq_getElem (show i - p.cells.size < vs.length by omega)]
  rfl

/-- Dropping the terms of a new tuple leaves what was there. -/
theorem truncate_addTuple (p : Pool V) (vs : List V) :
    (p.addTuple vs).2.truncate p.size = p := by
  apply ext_cells
  · intro i
    rw [getElem?_truncate]
    split
    · next hi => simp only [addTuple]; rw [Array.getElem?_append_left hi]
    · exact (Array.getElem?_eq_none (Nat.le_of_not_lt ‹_›)).symm
  · rfl

/-- Clearing a term of the host keeps the terms fixed. -/
theorem keeps_clear {p : Pool V} {t : TermId} (h : p.isOwned t = false) : p.Keeps (p.clear t) := by
  refine keeps_of_cells fun i v hv => ?_
  have hne : t.index ≠ i := by
    rintro rfl
    simp [isOwned, hv] at h
  simp only [clear, Array.getElem?_modify, hne, if_false, hv]

/-- Binding a term keeps the terms fixed. -/
theorem keeps_of_bind [BEq V] {p q : Pool V} {t : TermId} {v : V} (h : p.bind t v = .ok q)
    (mark : Nat) : p.Keeps (q.commit mark) := by
  obtain ⟨hterm, rfl⟩ | ⟨_, -, -, rfl⟩ := bind_cases h
  · have hunbound : p.value? t = none := by rw [value?, hterm]; rfl
    exact (growsTo_assign hunbound v).keeps
  · exact .refl _

end Pool

/-- A list of values, none of them missing. -/
theorem exists_eq_map_some {xs : List (Option V)} (h : ∀ x ∈ xs, ∃ v, x = some v) :
    ∃ vs : List V, xs = vs.map some := by
  induction xs with
  | nil => exact ⟨[], rfl⟩
  | cons x xs ih =>
    obtain ⟨v, rfl⟩ := h x (List.mem_cons_self ..)
    obtain ⟨vs, rfl⟩ := ih fun y hy => h y (List.mem_cons_of_mem _ hy)
    exact ⟨v :: vs, rfl⟩

/-! ## Validity of clauses -/

/-- Whether an operand is fixed, or one of the first `locals` variables. -/
def Operand.Valid (p : Pool V) (locals : Nat) : Operand → Prop
  | .var n => n < locals
  | .const t => p.Fixed t

/-- Whether all operands of a rule are valid. -/
structure Rule.Valid (p : Pool V) (r : Rule N) : Prop where
  params : ∀ o ∈ r.params, o.Valid p r.locals.length
  body : ∀ g ∈ r.body, ∀ o ∈ g.args, o.Valid p r.locals.length

/-- Whether a clause mentions only terms that are fixed. -/
def Clause.Valid (p : Pool V) : Clause N → Prop
  | .fact f => ∀ t ∈ f.parts, p.Fixed t
  | .rule r => r.Valid p

/-- Whether all clauses of a program are valid. -/
def Program.Valid (p : Pool V) (prog : Program N) : Prop :=
  ∀ id clause, prog.clause? id = some clause → clause.Valid p

theorem Operand.Valid.mono {p q : Pool V} (h : p.Keeps q) {m n : Nat} (hmn : m ≤ n) {o : Operand}
    (ho : o.Valid p m) : o.Valid q n := by
  cases o with
  | var i => exact Nat.lt_of_lt_of_le ho hmn
  | const t => exact h t ho

/-- An operand means in a frame at position `n` a term before the end of the frame. -/
theorem Operand.Valid.term_lt {p : Pool V} {n k : Nat} (hn : p.size ≤ n) {o : Operand}
    (ho : o.Valid p k) : ((Frame.mk n k).term o).index < n + k := by
  cases o with
  | var i => exact Nat.add_lt_add_left ho n
  | const t => exact Nat.lt_of_lt_of_le (Pool.Fixed.lt ho) (Nat.le_trans hn (Nat.le_add_right n k))

theorem Rule.Valid.mono {p q : Pool V} (h : p.Keeps q) {r : Rule N} (hr : r.Valid p) :
    r.Valid q where
  params o ho := (hr.params o ho).mono h (Nat.le_refl _)
  body g hg o ho := (hr.body g hg o ho).mono h (Nat.le_refl _)

theorem Clause.Valid.mono {p q : Pool V} (h : p.Keeps q) {c : Clause N} (hc : c.Valid p) :
    c.Valid q := by
  cases c with
  | fact f => exact fun t ht => h t (hc t ht)
  | rule r => exact Rule.Valid.mono h hc

theorem Program.Valid.mono {p q : Pool V} (h : p.Keeps q) {prog : Program N}
    (hprog : prog.Valid p) : prog.Valid q :=
  fun id clause hc => (hprog id clause hc).mono h

theorem Program.Valid.fact {p : Pool V} {prog : Program N} (h : prog.Valid p) {id : ClauseId}
    {f : Fact N} (hf : prog.clause? id = some (.fact f)) : ∀ t ∈ f.parts, p.Fixed t :=
  h id _ hf

theorem Program.Valid.rule {p : Pool V} {prog : Program N} (h : prog.Valid p) {id : ClauseId}
    {r : Rule N} (hr : prog.clause? id = some (.rule r)) : r.Valid p :=
  h id _ hr

theorem Program.clause?_of_fact? {prog : Program N} {id : ClauseId} {f : Fact N}
    (h : prog.fact? id = some f) : prog.clause? id = some (.fact f) := by
  unfold fact? at h
  split at h
  · next hc => rw [hc, Option.some.inj h]
  · cases h

theorem Program.clause?_of_rule? {prog : Program N} {id : ClauseId} {r : Rule N}
    (h : prog.rule? id = some r) : prog.clause? id = some (.rule r) := by
  unfold rule? at h
  split at h
  · next hc => rw [hc, Option.some.inj h]
  · cases h

/-- Adding a valid clause keeps the program valid. -/
theorem Program.Valid.add [DecidableEq N] {p : Pool V} {prog : Program N} (h : prog.Valid p)
    {c : Clause N} (hc : c.Valid p) : (prog.add c).2.Valid p := by
  intro id clause hid
  rw [clause?_add] at hid
  split at hid
  · obtain rfl := Option.some.inj hid
    exact hc
  · exact h id clause hid

/-- Putting a rule in the place of a clause leaves the other clauses alone. -/
theorem Program.clause?_setRule (prog : Program N) (id : ClauseId) (r : Rule N) (i : ClauseId) :
    (prog.setRule id r).clause? i =
      if i = id then (prog.clause? id).map fun _ => .rule r else prog.clause? i := by
  obtain ⟨i⟩ := i
  obtain ⟨k⟩ := id
  simp only [clause?, Program.setRule, Array.getElem?_setIfInBounds, ClauseId.mk.injEq]
  by_cases hik : k = i
  · subst hik
    by_cases hk : k < prog.clauses.size <;> simp [hk]
  · have hki : i ≠ k := fun hki => hik hki.symm
    rw [if_neg hik, if_neg hki]

/-- Putting a valid rule in the place of a clause keeps the program valid. -/
theorem Program.Valid.setRule {p : Pool V} {prog : Program N} (h : prog.Valid p) {id : ClauseId}
    {r : Rule N} (hr : r.Valid p) : (prog.setRule id r).Valid p := by
  intro i clause hi
  rw [clause?_setRule] at hi
  split at hi
  · obtain ⟨_, -, rfl⟩ := Option.map_eq_some_iff.1 hi
    exact hr
  · exact h i clause hi

/-! ## Declarations -/

/-- What is made of a success comes from a success. -/
theorem Except.map_eq_ok {ε α β : Type _} {f : α → β} {x : Except ε α} {b : β}
    (h : x.map f = .ok b) : ∃ a, x = .ok a ∧ f a = b := by
  cases x with
  | error e => cases h
  | ok a => exact ⟨a, rfl, Except.ok.inj h⟩

namespace Rule

/-- `r'` is `r` with further variables and goals. -/
structure Extends (r r' : Rule N) : Prop where
  name_eq : r'.name = r.name
  params_eq : r'.params = r.params
  locals : r.locals <+: r'.locals
  body : r.body <+: r'.body

theorem Extends.refl (r : Rule N) : r.Extends r :=
  ⟨rfl, rfl, List.prefix_refl _, List.prefix_refl _⟩

theorem Extends.trans {r₁ r₂ r₃ : Rule N} (h : r₁.Extends r₂) (h' : r₂.Extends r₃) :
    r₁.Extends r₃ :=
  ⟨h'.name_eq.trans h.name_eq, h'.params_eq.trans h.params_eq, h.locals.trans h'.locals,
    h.body.trans h'.body⟩

theorem extends_addVar (r : Rule N) (t : TermId) : r.Extends (r.addVar t).2 :=
  ⟨rfl, rfl, List.prefix_append .., List.prefix_refl _⟩

theorem extends_addGoal (r : Rule N) (g : Goal N) : r.Extends (r.addGoal g) :=
  ⟨rfl, rfl, List.prefix_refl _, List.prefix_append ..⟩

/-- A further variable keeps a rule valid. -/
theorem Valid.addVar {p : Pool V} {r : Rule N} (h : r.Valid p) (t : TermId) :
    (r.addVar t).2.Valid p where
  params o ho := (h.params o ho).mono (.refl p) (by simp [Rule.addVar])
  body g hg o ho := (h.body g hg o ho).mono (.refl p) (by simp [Rule.addVar])

/-- A valid operand may become a head position. -/
theorem Valid.addParam {p : Pool V} {r : Rule N} (h : r.Valid p) (t : TermId) {o : Operand}
    (ho : o.Valid p r.locals.length) : (r.addParam t o).Valid p where
  params o' ho' := by
    rcases List.mem_append.1 ho' with hold | hnew
    · exact h.params o' hold
    · obtain rfl := List.mem_singleton.1 hnew
      exact ho
  body := h.body

/-- Declaring a head makes a valid rule, and keeps what is fixed. -/
theorem declareHead_valid (params : List (Arg V)) {r : Rule N} {p : Pool V} (h : r.Valid p) :
    p.Keeps (declareHead params r p).2 ∧
      (declareHead params r p).1.Valid (declareHead params r p).2 := by
  induction params generalizing r p with
  | nil => exact ⟨.refl p, h⟩
  | cons arg rest ih =>
    cases arg with
    -- A term given for a head is passed over in favour of a new variable.
    | fresh | term _ =>
      have hkeeps := p.keeps_push ⟨.unbound, true⟩
      have hvalid := ((h.mono hkeeps).addVar (p.addOwned .unbound).1).addParam
        (p.addOwned .unbound).1 (o := .var r.locals.length) (by simp [Operand.Valid, addVar])
      exact ⟨hkeeps.trans (ih hvalid).1, (ih hvalid).2⟩
    | value v =>
      have hkeeps := p.keeps_push ⟨.bound v, true⟩
      have hvalid := (h.mono hkeeps).addParam (p.addOwned (.bound v)).1
        (o := .const (p.addOwned (.bound v)).1) (p.fixed_addOwned v)
      exact ⟨hkeeps.trans (ih hvalid).1, (ih hvalid).2⟩
    | param i =>
      -- A repeat of a position that does not exist adds nothing.
      have hvalid : (r.addParamRepeat i).Valid p := by
        unfold addParamRepeat
        split
        · next ho => exact h.addParam _ (h.params _ (List.mem_of_getElem? ho))
        · exact h
      exact ih hvalid

/-- What is made of one argument of a goal: an operand, and perhaps a further variable or a new
constant. -/
inductive DeclaresArg (r : Rule N) (p : Pool V) : Arg V → Operand → Rule N → Pool V → Prop
  | fresh : DeclaresArg r p .fresh (.var r.locals.length) (r.addVar (p.addOwned .unbound).1).2
      (p.addOwned .unbound).2
  | value (v : V) : DeclaresArg r p (.value v) (.const (p.addOwned (.bound v)).1) r
      (p.addOwned (.bound v)).2
  | term {t : TermId} {n : Nat} : r.varOf? t = some n → DeclaresArg r p (.term t) (.var n) r p
  | param {i : Nat} {o : Operand} : r.params[i]? = some o → DeclaresArg r p (.param i) o r p

/-- What is made of the arguments of a goal, one after the other. -/
inductive DeclaresArgs : List (Arg V) → Rule N → Pool V → List Operand → Rule N → Pool V → Prop
  | nil (r : Rule N) (p : Pool V) : DeclaresArgs [] r p [] r p
  | cons {a : Arg V} {args : List (Arg V)} {o : Operand} {os : List Operand} {r r₁ r' : Rule N}
      {p p₁ p' : Pool V} : r.DeclaresArg p a o r₁ p₁ → DeclaresArgs args r₁ p₁ os r' p' →
      DeclaresArgs (a :: args) r p (o :: os) r' p'

/-- A goal that is declared has had its arguments declared one after the other. -/
theorem declaresArgs_of_declareGoal {id : ClauseId} {args : List (Arg V)} {r r' : Rule N}
    {p p' : Pool V} {os : List Operand} (h : declareGoal id args r p = .ok (os, r', p')) :
    DeclaresArgs args r p os r' p' := by
  induction args generalizing r p os with
  | nil =>
    obtain ⟨rfl, rfl, rfl⟩ : [] = os ∧ r = r' ∧ p = p' := by simpa [declareGoal] using h
    exact .nil r p
  | cons arg rest ih =>
    -- Whatever is made of the first argument, the others are declared after it.
    have hcons : ∀ {r₁ : Rule N} {p₁ : Pool V} {o : Operand}, r.DeclaresArg p arg o r₁ p₁ →
        (declareGoal id rest r₁ p₁).map (fun x => (o :: x.1, x.2.1, x.2.2)) = .ok (os, r', p') →
        DeclaresArgs (arg :: rest) r p os r' p' := by
      intro r₁ p₁ o hfirst hmap
      obtain ⟨⟨os', r₂, p₂⟩, hrest, heq⟩ := Except.map_eq_ok hmap
      obtain ⟨rfl, rfl, rfl⟩ : o :: os' = os ∧ r₂ = r' ∧ p₂ = p' := by simpa using heq
      exact .cons hfirst (ih hrest)
    cases arg with
    | fresh => exact hcons .fresh h
    | value v => exact hcons (.value v) h
    | term t =>
      simp only [declareGoal] at h
      split at h
      · cases h
      · next n hn => exact hcons (.term hn) h
    | param i =>
      simp only [declareGoal] at h
      split at h
      · cases h
      · next o ho => exact hcons (.param ho) h

theorem DeclaresArg.extends {r r₁ : Rule N} {p p₁ : Pool V} {a : Arg V} {o : Operand}
    (h : r.DeclaresArg p a o r₁ p₁) : r.Extends r₁ := by
  cases h with
  | fresh => exact r.extends_addVar _
  | value | term _ | param _ => exact .refl r

/-- Each kind of argument yields a valid operand of a valid rule, and keeps what is fixed. -/
theorem DeclaresArg.valid {r r₁ : Rule N} {p p₁ : Pool V} {a : Arg V} {o : Operand}
    (h : r.DeclaresArg p a o r₁ p₁) (hr : r.Valid p) :
    p.Keeps p₁ ∧ r₁.Valid p₁ ∧ o.Valid p₁ r₁.locals.length := by
  cases h with
  | fresh =>
    have hkeeps := p.keeps_push ⟨.unbound, true⟩
    exact ⟨hkeeps, (hr.mono hkeeps).addVar _, by simp [Operand.Valid, addVar]⟩
  | value v =>
    have hkeeps := p.keeps_push ⟨.bound v, true⟩
    exact ⟨hkeeps, hr.mono hkeeps, p.fixed_addOwned v⟩
  | term hn => exact ⟨.refl p, hr, (List.findIdx?_eq_some_iff_findIdx_eq.1 hn).1⟩
  | param ho => exact ⟨.refl p, hr, hr.params _ (List.mem_of_getElem? ho)⟩

/-- Declaring a goal gives valid operands of a valid rule, which has further variables, and keeps
what is fixed. -/
theorem DeclaresArgs.valid {args : List (Arg V)} {r r' : Rule N} {p p' : Pool V}
    {os : List Operand} (h : DeclaresArgs args r p os r' p') (hr : r.Valid p) :
    p.Keeps p' ∧ r'.Valid p' ∧ r.Extends r' ∧ ∀ o ∈ os, o.Valid p' r'.locals.length := by
  induction h with
  | nil r p => exact ⟨.refl p, hr, .refl r, nofun⟩
  | cons hfirst _ ih =>
    obtain ⟨hkeeps, hvalid, ho⟩ := hfirst.valid hr
    obtain ⟨hkeeps', hvalid', hextends, hos⟩ := ih hvalid
    refine ⟨hkeeps.trans hkeeps', hvalid', hfirst.extends.trans hextends, ?_⟩
    exact List.forall_mem_cons.2 ⟨ho.mono hkeeps' hextends.locals.length_le, hos⟩

end Rule

end Hornbase
