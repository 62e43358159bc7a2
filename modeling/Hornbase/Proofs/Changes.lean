import Hornbase.Proofs.Additions
import Hornbase.Proofs.Footprint

/-!
# What commands do to stored clauses

A command does one of three things to a database. It adds a clause, whose terms are then exactly the
terms that are added to the pool; or it gives a rule further variables or a goal, whose terms are
again exactly those that are added; or it leaves all clauses alone and with them every value that
they hold, whatever it does to the terms of the host. `Database.Change` lists the three, and
`change_exec` goes through the commands once. What a database is made of, and what stays of it for
ever, is then shown for three kinds of changes.
-/

namespace Hornbase

universe u v

variable {N : Type u} {V : Type v}

/-! ## The terms of a clause -/

/-- The constant that an operand mentions, if it is one. -/
def Operand.const? : Operand → Option TermId
  | .var _ => none
  | .const t => some t

/-- The operands of a rule, those of the head first. -/
def Rule.operands (r : Rule N) : List Operand := r.params ++ r.body.flatMap (·.args)

/-- The terms that a clause is made of: the parts of a fact; the head of a rule, its templates and
its constants. -/
def Clause.terms : Clause N → List TermId
  | .fact f => f.parts
  | .rule r => r.head ++ r.locals ++ r.operands.filterMap (·.const?)

theorem Operand.const?_eq_some_iff {o : Operand} {t : TermId} :
    o.const? = some t ↔ o = .const t := by
  cases o <;> simp [const?]

theorem Rule.mem_terms {r : Rule N} {t : TermId} :
    t ∈ (Clause.rule r).terms ↔ t ∈ r.head ∨ t ∈ r.locals ∨ .const t ∈ r.operands := by
  simp only [Clause.terms, List.mem_append, List.mem_filterMap, Operand.const?_eq_some_iff,
    exists_eq_right, or_assoc]

/-- The stored term behind an operand: the template of a variable, or the constant. -/
def Rule.template? (r : Rule N) : Operand → Option TermId
  | .var n => r.locals[n]?
  | .const t => some t

/-- Whether the head of a rule, its parameters and its variables fit together. -/
structure Rule.Shaped (r : Rule N) : Prop where
  /-- Each head position holds the template or the constant that its parameter means. -/
  head_eq : r.params.map r.template? = r.head.map some
  locals_nodup : r.locals.Nodup
  /-- The variables of the head come before all others. -/
  first : ∀ m n, m ≤ n → .var n ∈ r.params → .var m ∈ r.params

/-- Each parameter means a term of the rule. -/
theorem Rule.Shaped.exists_template? {r : Rule N} (h : r.params.map r.template? = r.head.map some)
    {o : Operand} (ho : o ∈ r.params) : ∃ t ∈ r.head, r.template? o = some t := by
  have hmem : r.template? o ∈ r.head.map some := h ▸ List.mem_map_of_mem ho
  obtain ⟨t, ht, heq⟩ := List.mem_map.1 hmem
  exact ⟨t, ht, heq.symm⟩

/-- The head holds at each position what its parameter means. -/
theorem Rule.getElem?_head {r : Rule N} (h : r.params.map r.template? = r.head.map some) {i : Nat}
    {o : Operand} (ho : r.params[i]? = some o) : r.head[i]? = r.template? o := by
  have hboth := congrArg (·[i]?) h
  simp only [List.getElem?_map, ho, Option.map_some] at hboth
  obtain ⟨t, ht, heq⟩ := Option.map_eq_some_iff.1 hboth.symm
  rw [ht, ← heq]

/-- With further variables each parameter means the term that it meant. -/
theorem Rule.template?_of_prefix {r r' : Rule N} (hlocals : r.locals <+: r'.locals) {o : Operand}
    {t : TermId} (h : r.template? o = some t) : r'.template? o = some t := by
  cases o with
  | var n =>
    obtain ⟨more, hmore⟩ := hlocals
    have hn := (List.getElem?_eq_some_iff.1 h).1
    rw [template?, ← hmore, List.getElem?_append_left hn]
    exact h
  | const c => exact h

/-- A rule keeps its shape when it gets further variables that differ from all others. -/
theorem Rule.Shaped.extend {r r' : Rule N} (h : r.Shaped) (hextends : r.Extends r')
    (hhead : r'.head = r.head) (hnodup : r'.locals.Nodup) : r'.Shaped where
  head_eq := by
    rw [hextends.params_eq, hhead, ← h.head_eq]
    refine List.map_congr_left fun o ho => ?_
    obtain ⟨t, -, ht⟩ := exists_template? h.head_eq ho
    rw [ht, template?_of_prefix hextends.locals ht]
  locals_nodup := hnodup
  first := by
    rw [hextends.params_eq]
    exact h.first

/-! ## Pools with further terms -/

namespace Pool

variable {p q r : Pool V} {t : TermId}

/-- Whether `t` is a term of `q` that `p` does not have. -/
def IsNew (p q : Pool V) (t : TermId) : Prop := p.size ≤ t.index ∧ t.index < q.size

theorem not_isNew_self (p : Pool V) (t : TermId) : ¬ p.IsNew p t :=
  fun h => absurd h.2 (Nat.not_lt.2 h.1)

/-- What is new after two steps is new in the first or in the second. -/
theorem isNew_trans (hpq : p.size ≤ q.size) (hqr : q.size ≤ r.size) :
    p.IsNew r t ↔ p.IsNew q t ∨ q.IsNew r t := by
  simp only [IsNew]
  omega

theorem isNew_push (p : Pool V) (c : Cell V) : p.IsNew (p.push c).2 t ↔ t = (p.push c).1 := by
  obtain ⟨i⟩ := t
  simp only [IsNew, push, size, Array.size_push, TermId.mk.injEq]
  omega

theorem isNew_addTuple (p : Pool V) (vs : List V) :
    p.IsNew (p.addTuple vs).2 t ↔ t ∈ (p.addTuple vs).1 := by
  obtain ⟨i⟩ := t
  simp [IsNew, addTuple, size]

/-- `q` is `p` with further terms, which are all parts of clauses. -/
structure Supplies (p q : Pool V) : Prop where
  startOf : p.StartOf q
  owned : ∀ t, p.IsNew q t → q.isOwned t = true

/-- A term of the beginning belongs to whom it belonged. -/
theorem StartOf.isOwned_eq (h : p.StartOf q) (ht : t.index < p.size) :
    q.isOwned t = p.isOwned t := by
  obtain ⟨more, hmore⟩ := h
  have hcell : q.cells[t.index]? = p.cells[t.index]? := by
    rw [← Array.getElem?_toList, ← Array.getElem?_toList, ← hmore]
    exact List.getElem?_append_left ht
  rw [isOwned, isOwned, hcell]

/-- Only a term of the pool is part of a clause. -/
theorem lt_of_isOwned (h : p.isOwned t = true) : t.index < p.size := by
  obtain ⟨c, hc, -⟩ := (Option.any_eq_true _ _).1 h
  exact (Array.getElem?_eq_some_iff.1 hc).1

theorem Supplies.size_le (h : p.Supplies q) : p.size ≤ q.size := h.startOf.size_le

/-- The terms of clauses are those of before and the new ones. -/
theorem Supplies.isOwned_iff (h : p.Supplies q) :
    q.isOwned t = true ↔ p.isOwned t = true ∨ p.IsNew q t := by
  constructor
  · intro ht
    rcases Nat.lt_or_ge t.index p.size with hlt | hge
    · exact .inl ((h.startOf.isOwned_eq hlt).symm.trans ht)
    · exact .inr ⟨hge, lt_of_isOwned ht⟩
  · rintro (ht | ht)
    · exact (h.startOf.isOwned_eq (lt_of_isOwned ht)).trans ht
    · exact h.owned t ht

theorem Supplies.refl (p : Pool V) : p.Supplies p :=
  ⟨.refl p, fun t ht => absurd ht (not_isNew_self p t)⟩

theorem Supplies.trans (hpq : p.Supplies q) (hqr : q.Supplies r) : p.Supplies r where
  startOf := hpq.startOf.trans hqr.startOf
  owned t ht := by
    rw [isNew_trans hpq.size_le hqr.size_le] at ht
    exact hqr.isOwned_iff.2 (ht.imp_left (hpq.owned t))

theorem supplies_addOwned (p : Pool V) (t : Term V) : p.Supplies (p.addOwned t).2 where
  startOf := p.startOf_push _
  owned u hu := by
    obtain rfl := (p.isNew_push _).1 hu
    simp [isOwned, addOwned, push]

theorem supplies_addTuple (p : Pool V) (vs : List V) : p.Supplies (p.addTuple vs).2 where
  startOf := p.startOf_addTuple vs
  owned u hu := by
    obtain ⟨v, hv⟩ := p.fixed_addTuple vs u ((p.isNew_addTuple vs).1 hu)
    simp [isOwned, hv]

/-- A value of a clause stays when terms are added. -/
theorem StartOf.cell_eq (h : p.StartOf q) {i : Nat} {c : Cell V} (hc : p.cells[i]? = some c) :
    q.cells[i]? = some c := by
  obtain ⟨more, hmore⟩ := h
  rw [← Array.getElem?_toList] at hc ⊢
  rw [← hmore, List.getElem?_append_left (List.getElem?_eq_some_iff.1 hc).1, hc]

/-- `q` has all terms of `p`. Each belongs to whom it belonged, and holds what it held if it belongs
to a clause and is bound. Further terms belong to the host. -/
structure Preserves (p q : Pool V) : Prop where
  size_le : p.size ≤ q.size
  isOwned_eq : ∀ t, q.isOwned t = p.isOwned t
  cell_eq : ∀ (i : Nat) (v : V), p.cells[i]? = some ⟨.bound v, true⟩ →
    q.cells[i]? = some ⟨.bound v, true⟩

theorem Preserves.refl (p : Pool V) : p.Preserves p := ⟨Nat.le_refl _, fun _ => rfl, fun _ _ h => h⟩

theorem preserves_addFree (p : Pool V) (t : Term V) : p.Preserves (p.addFree t).2 where
  size_le := by
    rw [size_addFree]
    exact Nat.le_succ _
  isOwned_eq u := by
    simp only [isOwned, addFree, push, Array.getElem?_push]
    split
    · next heq => rw [heq, Array.getElem?_eq_none (Nat.le_refl _)]; rfl
    · rfl
  cell_eq _ _ hv := (p.startOf_push _).cell_eq hv

/-- Changing the term in a cell gives it to nobody else. -/
theorem isOwned_modify (p : Pool V) {f : Cell V → Cell V} (hf : ∀ c, (f c).owned = c.owned)
    (trail : Array TermId) (i : Nat) (t : TermId) :
    isOwned ⟨p.cells.modify i f, trail⟩ t = p.isOwned t := by
  simp only [isOwned, Array.getElem?_modify]
  split
  · simp [Option.any_map, hf]
  · rfl

theorem preserves_clear (h : p.isOwned t = false) : p.Preserves (p.clear t) where
  size_le := Nat.le_of_eq (size_clear p t).symm
  isOwned_eq u := p.isOwned_modify (f := Cell.clear) (fun _ => rfl) _ _ u
  cell_eq i _ hv := (retains_clear h).cell_eq i _ hv rfl

theorem preserves_bind [BEq V] {v : V} (h : p.bind t v = .ok q) (howner : p.isOwned t = false) :
    p.Preserves (q.commit p.mark) := by
  have hretains := retains_bind h howner
  refine ⟨hretains.size_le, fun u => ?_, fun i w hw => hretains.cell_eq i _ hw rfl⟩
  obtain ⟨-, rfl⟩ | ⟨_, -, -, rfl⟩ := bind_cases h
  · exact p.isOwned_modify (f := (·.fill v)) (fun _ => rfl) _ _ u
  · rfl

/-- A bound term of a clause, by what can be seen of it. -/
theorem cell_eq_of_value? {v : V} (hvalue : p.value? t = some v) (howned : p.isOwned t = true) :
    p.cells[t.index]? = some ⟨.bound v, true⟩ := by
  obtain ⟨⟨⟨value⟩, owned⟩, hc, rfl⟩ := (Option.any_eq_true _ _).1 howned
  obtain rfl : value = some v := by simpa [value?, term?, hc] using hvalue
  exact hc

theorem BindsOnly.preserves {args : List TermId} (h : p.BindsOnly args q) : p.Preserves q where
  size_le := Nat.le_of_eq h.size_eq.symm
  isOwned_eq := h.isOwned_eq
  cell_eq i v hv := by
    refine cell_eq_of_value? (t := ⟨i⟩) (h.value?_eq ⟨i⟩ v ?_) ?_
    · simp [value?, term?, hv, Term.bound]
    · rw [h.isOwned_eq, isOwned, hv]
      rfl

end Pool

/-! ## Declaring a head -/

namespace Rule

/-- What holds of a rule while its head is declared: it has no variables but those of its head, and
their templates are different terms of the pool. -/
structure Bare (r : Rule N) (p : Pool V) : Prop where
  head_eq : r.params.map r.template? = r.head.map some
  locals_nodup : r.locals.Nodup
  locals_lt : ∀ t ∈ r.locals, t.index < p.size
  var_mem : ∀ n < r.locals.length, .var n ∈ r.params

/-- A rule without a body has its shape once its head is declared. -/
theorem Bare.shaped {r : Rule N} {p : Pool V} (h : r.Bare p) : r.Shaped where
  head_eq := h.head_eq
  locals_nodup := h.locals_nodup
  first m n hmn hn := by
    obtain ⟨t, -, ht⟩ := Shaped.exists_template? h.head_eq hn
    exact h.var_mem m (Nat.lt_of_le_of_lt hmn (List.getElem?_eq_some_iff.1 ht).1)

/-- A rule that holds only its name is bare. -/
theorem bare_empty (name : N) (p : Pool V) : ({ name } : Rule N).Bare p where
  head_eq := rfl
  locals_nodup := List.nodup_nil
  locals_lt _ ht := absurd ht List.not_mem_nil
  var_mem n hn := absurd hn (Nat.not_lt_zero n)

theorem Bare.mono {r : Rule N} {p q : Pool V} (h : r.Bare p) (hsize : p.size ≤ q.size) :
    r.Bare q :=
  ⟨h.head_eq, h.locals_nodup, fun t ht => Nat.lt_of_lt_of_le (h.locals_lt t ht) hsize, h.var_mem⟩

/-- Templates stay different when a new term becomes the next. -/
theorem nodup_addVar {r : Rule N} {p : Pool V} (hnodup : r.locals.Nodup)
    (hlt : ∀ t ∈ r.locals, t.index < p.size) :
    (r.addVar (p.addOwned .unbound).1).2.locals.Nodup ∧
      ∀ t ∈ (r.addVar (p.addOwned .unbound).1).2.locals,
        t.index < (p.addOwned .unbound).2.size := by
  have hnew : (p.addOwned .unbound).1.index = p.size := rfl
  constructor
  · refine List.nodup_append.2 ⟨hnodup, List.nodup_singleton _, fun t ht u hu => ?_⟩
    rintro rfl
    obtain rfl := List.mem_singleton.1 hu
    exact absurd (hlt _ ht) (by omega)
  · intro t ht
    rw [Pool.size_addOwned]
    rcases List.mem_append.1 ht with ht | ht
    · exact Nat.lt_succ_of_lt (hlt t ht)
    · obtain rfl := List.mem_singleton.1 ht
      omega

/-- A new variable becomes the next head position. -/
theorem Bare.addParamVar {r : Rule N} {p : Pool V} (h : r.Bare p) :
    (r.addParamVar (p.addOwned .unbound).1).Bare (p.addOwned .unbound).2 where
  head_eq := by
    have hold : r.params.map (r.addVar (p.addOwned .unbound).1).2.template? = r.head.map some := by
      rw [← h.head_eq]
      refine List.map_congr_left fun o ho => ?_
      obtain ⟨t, -, ht⟩ := Shaped.exists_template? h.head_eq ho
      rw [ht, template?_of_prefix (r.extends_addVar _).locals ht]
    have hnew : (r.addVar (p.addOwned .unbound).1).2.template? (.var r.locals.length)
        = some (p.addOwned .unbound).1 := List.getElem?_concat_length
    simp only [Rule.addParamVar, addParam, addVar, List.map_append, List.map_singleton]
      at hold hnew ⊢
    exact congrArg₂ _ hold (congrArg (fun x => [x]) hnew)
  locals_nodup := (nodup_addVar h.locals_nodup h.locals_lt).1
  locals_lt := (nodup_addVar h.locals_nodup h.locals_lt).2
  var_mem n hn := by
    have hn : n < r.locals.length + 1 := by simpa [Rule.addParamVar, addParam, addVar] using hn
    rcases Nat.lt_succ_iff_lt_or_eq.1 hn with hlt | rfl
    · exact List.mem_append_left _ (h.var_mem n hlt)
    · exact List.mem_append_right _ (List.mem_singleton.2 rfl)

/-- A parameter that means a term of the rule may become the next head position. -/
theorem Bare.addParam {r : Rule N} {p : Pool V} (h : r.Bare p) {t : TermId} {o : Operand}
    (ho : r.template? o = some t) : (r.addParam t o).Bare p where
  head_eq := by
    have hsame : (r.addParam t o).template? = r.template? := by
      funext o'
      cases o' <;> rfl
    rw [hsame]
    simp only [Rule.addParam, List.map_append, List.map_singleton, h.head_eq, ho]
  locals_nodup := h.locals_nodup
  locals_lt := h.locals_lt
  var_mem n hn := List.mem_append_left _ (h.var_mem n hn)

/-- `r'` and `p'` come from `r` and `p` by declarations: all terms that the pool has got have become
terms of the rule, and no others. -/
structure Takes (r : Rule N) (p : Pool V) (r' : Rule N) (p' : Pool V) : Prop where
  pool : p.Supplies p'
  terms_iff : ∀ t, t ∈ (Clause.rule r').terms ↔ t ∈ (Clause.rule r).terms ∨ p.IsNew p' t

theorem Takes.refl (r : Rule N) (p : Pool V) : r.Takes p r p :=
  ⟨.refl p, fun t => by simp [p.not_isNew_self t]⟩

theorem Takes.trans {r₁ r₂ r₃ : Rule N} {p₁ p₂ p₃ : Pool V} (h : r₁.Takes p₁ r₂ p₂)
    (h' : r₂.Takes p₂ r₃ p₃) : r₁.Takes p₁ r₃ p₃ where
  pool := h.pool.trans h'.pool
  terms_iff t := by
    rw [h'.terms_iff, h.terms_iff, Pool.isNew_trans h.pool.size_le h'.pool.size_le, or_assoc]

/-- A new variable of the head brings one new term. -/
theorem takes_addParamVar (r : Rule N) (p : Pool V) :
    r.Takes p (r.addParamVar (p.addOwned .unbound).1) (p.addOwned .unbound).2 where
  pool := p.supplies_addOwned .unbound
  terms_iff t := by
    rw [Pool.addOwned, Pool.isNew_push, mem_terms, mem_terms]
    simp only [addParamVar, addParam, addVar, operands, List.mem_append, List.mem_singleton,
      reduceCtorEq]
    tauto

/-- A new constant of the head brings one new term. -/
theorem takes_addParamConst (r : Rule N) (p : Pool V) (v : V) :
    r.Takes p (r.addParamConst (p.addOwned (.bound v)).1) (p.addOwned (.bound v)).2 where
  pool := p.supplies_addOwned (.bound v)
  terms_iff t := by
    rw [Pool.addOwned, Pool.isNew_push, mem_terms, mem_terms]
    simp only [addParamConst, addParam, operands, List.mem_append, List.mem_singleton,
      Operand.const.injEq]
    tauto

/-- A repeated head position brings no term. -/
theorem takes_addParamRepeat (r : Rule N) (p : Pool V) (i : Nat) :
    r.Takes p (r.addParamRepeat i) p := by
  unfold addParamRepeat
  split
  · next t o ht ho =>
    refine ⟨.refl p, fun u => ?_⟩
    have ht := List.mem_of_getElem? ht
    have ho := List.mem_of_getElem? ho
    rw [mem_terms, mem_terms]
    simp only [addParam, operands, List.mem_append, List.mem_singleton, p.not_isNew_self, or_false]
    constructor
    · rintro ((hu | rfl) | hu | (hu | rfl) | hu)
      · exact .inl hu
      · exact .inl ht
      · exact .inr (.inl hu)
      · exact .inr (.inr (.inl hu))
      · exact .inr (.inr (.inl ho))
      · exact .inr (.inr (.inr hu))
    · tauto
  · exact .refl r p

/-- Declaring a head takes all terms that it adds, and shapes the rule. -/
theorem declareHead_takes (params : List (Arg V)) {r : Rule N} {p : Pool V} (h : r.Bare p) :
    r.Takes p (declareHead params r p).1 (declareHead params r p).2 ∧
      (declareHead params r p).1.Bare (declareHead params r p).2 := by
  induction params generalizing r p with
  | nil => exact ⟨.refl r p, h⟩
  | cons arg rest ih =>
    cases arg with
    | fresh | term _ =>
      obtain ⟨htakes, hbare⟩ := ih h.addParamVar
      exact ⟨(r.takes_addParamVar p).trans htakes, hbare⟩
    | value v =>
      have hfirst := r.takes_addParamConst p v
      obtain ⟨htakes, hbare⟩ := ih ((h.mono hfirst.pool.size_le).addParam
        (t := (p.addOwned (.bound v)).1) (o := .const (p.addOwned (.bound v)).1) rfl)
      exact ⟨hfirst.trans htakes, hbare⟩
    | param i =>
      have hrepeat : (r.addParamRepeat i).Bare p := by
        unfold addParamRepeat
        split
        · next ht ho => exact h.addParam ((getElem?_head h.head_eq ho).symm.trans ht)
        · exact h
      obtain ⟨htakes, hbare⟩ := ih hrepeat
      exact ⟨(r.takes_addParamRepeat p i).trans htakes, hbare⟩

/-- Declaring a head leaves the name of the rule alone. -/
theorem declareHead_name (params : List (Arg V)) (r : Rule N) (p : Pool V) :
    (declareHead params r p).1.name = r.name := by
  induction params generalizing r p with
  | nil => rfl
  | cons arg rest ih =>
    cases arg with
    | fresh | term _ | value _ => exact ih _ _
    | param i =>
      refine (ih _ _).trans ?_
      unfold addParamRepeat
      split <;> rfl

/-! ## Declaring a goal -/

/-- Declaring a goal takes all terms that it adds, as templates of new variables or as constants of
the goal; its other constants are those of the head. -/
structure TakesGoal (r : Rule N) (p : Pool V) (os : List Operand) (r' : Rule N) (p' : Pool V) :
    Prop where
  pool : p.Supplies p'
  same : r.Extends r' ∧ r'.head = r.head ∧ r'.body = r.body
  nodup : r.locals.Nodup → (∀ t ∈ r.locals, t.index < p.size) →
    r'.locals.Nodup ∧ ∀ t ∈ r'.locals, t.index < p'.size
  terms_iff : ∀ t, t ∈ r'.locals ∨ .const t ∈ os ∨ .const t ∈ r.params ↔
    t ∈ r.locals ∨ .const t ∈ r.params ∨ p.IsNew p' t

/-- One argument takes the term that it adds, if it adds one. -/
theorem DeclaresArg.takesGoal {r r₁ : Rule N} {p p₁ : Pool V} {a : Arg V} {o : Operand}
    (h : r.DeclaresArg p a o r₁ p₁) : r.TakesGoal p [o] r₁ p₁ := by
  cases h with
  | fresh =>
    -- The variable and its template are both new.
    refine ⟨p.supplies_addOwned .unbound, ⟨r.extends_addVar _, rfl, rfl⟩, nodup_addVar, fun t => ?_⟩
    rw [Pool.addOwned, Pool.isNew_push]
    simp only [addVar, List.mem_append, List.mem_singleton, reduceCtorEq]
    tauto
  | value v =>
    -- The constant is new, and no variable comes with it.
    have hpool := p.supplies_addOwned (.bound v)
    refine ⟨hpool, ⟨.refl r, rfl, rfl⟩, fun hn hlt => ⟨hn, fun t ht => ?_⟩, fun t => ?_⟩
    · exact Nat.lt_of_lt_of_le (hlt t ht) hpool.size_le
    · rw [Pool.addOwned, Pool.isNew_push, List.mem_singleton, Operand.const.injEq]
      tauto
  | term _ =>
    -- Nothing is added; the operand stands for a variable that is there.
    refine ⟨.refl p, ⟨.refl r, rfl, rfl⟩, fun hn hlt => ⟨hn, hlt⟩, fun t => ?_⟩
    simp [p.not_isNew_self t]
  | param ho =>
    refine ⟨.refl p, ⟨.refl r, rfl, rfl⟩, fun hn hlt => ⟨hn, hlt⟩, fun t => ?_⟩
    -- Nothing is added; the operand is one of the head.
    have hmem := List.mem_of_getElem? ho
    rw [List.mem_singleton]
    constructor
    · rintro (ht | rfl | ht)
      · exact .inl ht
      · exact .inr (.inl hmem)
      · exact .inr (.inl ht)
    · have hnot := p.not_isNew_self t
      tauto

/-- What an argument takes and what the others take after it, the goal takes. -/
theorem TakesGoal.cons {r r₁ r' : Rule N} {p p₁ p' : Pool V} {o : Operand} {os : List Operand}
    (h : r.TakesGoal p [o] r₁ p₁) (h' : r₁.TakesGoal p₁ os r' p') :
    r.TakesGoal p (o :: os) r' p' where
  pool := h.pool.trans h'.pool
  same := ⟨h.same.1.trans h'.same.1, h'.same.2.1.trans h.same.2.1, h'.same.2.2.trans h.same.2.2⟩
  nodup hnodup hlt := h'.nodup (h.nodup hnodup hlt).1 (h.nodup hnodup hlt).2
  terms_iff t := by
    have hfirst := h.terms_iff t
    have hothers := h'.terms_iff t
    rw [h.same.1.params_eq] at hothers
    rw [List.mem_singleton] at hfirst
    calc t ∈ r'.locals ∨ .const t ∈ o :: os ∨ .const t ∈ r.params
      _ ↔ .const t = o ∨ t ∈ r'.locals ∨ .const t ∈ os ∨ .const t ∈ r.params := by
        rw [List.mem_cons, or_assoc, or_left_comm]
      _ ↔ (t ∈ r₁.locals ∨ .const t = o ∨ .const t ∈ r.params) ∨ p₁.IsNew p' t := by
        rw [hothers, or_left_comm, or_assoc, or_assoc]
      _ ↔ t ∈ r.locals ∨ .const t ∈ r.params ∨ p.IsNew p' t := by
        rw [hfirst, Pool.isNew_trans h.pool.size_le h'.pool.size_le, or_assoc, or_assoc]

theorem DeclaresArgs.takesGoal {args : List (Arg V)} {r r' : Rule N} {p p' : Pool V}
    {os : List Operand} (h : DeclaresArgs args r p os r' p') : r.TakesGoal p os r' p' := by
  induction h with
  | nil r p =>
    refine ⟨.refl p, ⟨.refl r, rfl, rfl⟩, fun hnodup hlt => ⟨hnodup, hlt⟩, fun t => ?_⟩
    simp [p.not_isNew_self t]
  | cons hfirst _ ih => exact hfirst.takesGoal.cons ih

/-- A rule with a further goal takes what the goal has taken. -/
theorem TakesGoal.takes {r r' : Rule N} {p p' : Pool V} {os : List Operand}
    (h : r.TakesGoal p os r' p') (name : N) : r.Takes p (r'.addGoal ⟨name, os⟩) p' where
  pool := h.pool
  terms_iff t := by
    obtain ⟨hextends, hhead, hbody⟩ := h.same
    have hterms := h.terms_iff t
    simp only [mem_terms, addGoal, operands, hhead, hbody, hextends.params_eq, List.flatMap_append,
      List.mem_append, List.flatMap_singleton]
    calc t ∈ r.head ∨ t ∈ r'.locals ∨ .const t ∈ r.params ∨
            .const t ∈ r.body.flatMap (·.args) ∨ .const t ∈ os
      _ ↔ (t ∈ r'.locals ∨ .const t ∈ os ∨ .const t ∈ r.params) ∨
            t ∈ r.head ∨ .const t ∈ r.body.flatMap (·.args) := by
        simp only [or_assoc, or_left_comm, or_comm]
      _ ↔ (t ∈ r.head ∨ t ∈ r.locals ∨ .const t ∈ r.params ∨
            .const t ∈ r.body.flatMap (·.args)) ∨ p.IsNew p' t := by
        rw [hterms]
        simp only [or_assoc, or_left_comm, or_comm]

/-- A further variable takes one new term. -/
theorem takes_addVar (r : Rule N) (p : Pool V) :
    r.Takes p (r.addVar (p.addOwned .unbound).1).2 (p.addOwned .unbound).2 where
  pool := p.supplies_addOwned .unbound
  terms_iff t := by
    rw [Pool.addOwned, Pool.isNew_push, mem_terms, mem_terms]
    simp only [addVar, operands, List.mem_append, List.mem_singleton]
    tauto

end Rule

/-! ## Changes of a database -/

/-- The name under which a command may add a clause. -/
def Command.declared? : Command N V → Option N
  | .addFact name _ | .addRule name _ => some name
  | .addRuleVar .. | .addGoal .. | .addVar | .addConstant .. | .bind .. | .unbind .. => none
  | .query .. | .tryQuery .. | .queryAll .. | .unify .. | .resolve .. => none

/-- The rule that a command may give further variables or goals. -/
def Command.extended? : Command N V → Option ClauseId
  | .addRuleVar c | .addGoal c _ _ => some c
  | .addFact .. | .addRule .. | .addVar | .addConstant .. | .bind .. | .unbind .. => none
  | .query .. | .tryQuery .. | .queryAll .. | .unify .. | .resolve .. => none

namespace Database

/-- What a command can do to a database, where `declared` is the name under which it may add a
clause and `extended` the rule that it may extend. -/
inductive Change [DecidableEq N] (db : Database N V) (declared : Option N)
    (extended : Option ClauseId) : Database N V → Prop
  /-- The clauses stay, with all that they hold. -/
  | pool {q : Pool V} : db.pool.Preserves q → Change db declared extended { db with pool := q }
  /-- A clause is added, and is made of the terms that are added. -/
  | clause {q : Pool V} {c : Clause N} : declared = some c.name → db.pool.Supplies q →
      (∀ t, t ∈ c.terms ↔ db.pool.IsNew q t) → (∀ r, c = .rule r → r.Shaped) →
      Change db declared extended ⟨(db.program.add c).2, q, db.config⟩
  /-- A rule gets further variables or goals, and takes the terms that are added. -/
  | rule {q : Pool V} {id : ClauseId} {r r' : Rule N} : extended = some id →
      db.program.rule? id = some r → r.Takes db.pool r' q → r.Extends r' → r'.head = r.head →
      (r.locals.Nodup → (∀ t ∈ r.locals, t.index < db.pool.size) → r'.locals.Nodup) →
      Change db declared extended ⟨db.program.setRule id r', q, db.config⟩

variable {db : Database N V}

/-- A request is refused and changes nothing, or it is carried out. -/
theorem orRefused_map_cases {α : Type _} {x : Except Error α} {f : α → Outcome N V (Reply V)}
    {o : Outcome N V (Reply V)} (h : db.orRefused (x.map f) = o) :
    (∃ e, x = .error e ∧ o = ⟨.refused e, db, #[]⟩) ∨ ∃ a, x = .ok a ∧ o = f a := by
  cases x with
  | error e => exact .inl ⟨e, rfl, h.symm⟩
  | ok a => exact .inr ⟨a, rfl, h.symm⟩

variable [DecidableEq N] {declared : Option N} {extended : Option ClauseId}

theorem Change.refl (db : Database N V) (declared : Option N) (extended : Option ClauseId) :
    db.Change declared extended db :=
  .pool (.refl db.pool)

theorem change_addFact [BEq V] (db : Database N V) (name : N) (vs : List V) :
    db.Change (some name) extended (db.addFact name vs).db := by
  rcases db.addFact_found_or name vs with ⟨-, hsame⟩ | ⟨-, hadded⟩
  · rw [hsame]
    exact .refl _ _ _
  · rw [hadded]
    refine .clause rfl (db.pool.supplies_addTuple vs)
      (fun t => (db.pool.isNew_addTuple vs).symm) fun r heq => ?_
    cases heq

theorem change_addRule {name : N} {params : List (Arg V)} {o : Outcome N V ClauseId}
    (h : db.addRule name params = .ok o) : db.Change (some name) extended o.db := by
  obtain ⟨-, -, hadded⟩ := addRule_eq_ok h
  obtain ⟨htakes, hbare⟩ := Rule.declareHead_takes params (Rule.bare_empty name db.pool)
  have hname : (Rule.declareHead params { name } db.pool).1.name = name :=
    Rule.declareHead_name params _ _
  rw [hadded]
  refine .clause (congrArg some hname.symm) htakes.pool (fun t => ?_) fun r heq => ?_
  · rw [htakes.terms_iff]
    simp [Clause.terms, Rule.operands]
  · obtain rfl := Clause.rule.inj heq
    exact hbare.shaped

theorem change_addRuleVar {c : ClauseId} {o : Outcome N V TermId} (h : db.addRuleVar c = .ok o) :
    db.Change declared (some c) o.db := by
  obtain ⟨rule, hrule, -, hadded⟩ := addRuleVar_eq_ok h
  rw [hadded]
  exact .rule rfl hrule (rule.takes_addVar db.pool) (rule.extends_addVar _) rfl
    fun hnodup hlt => (Rule.nodup_addVar hnodup hlt).1

theorem change_addGoal {c : ClauseId} {name : N} {args : List (Arg V)} {o : Outcome N V Unit}
    (h : db.addGoal c name args = .ok o) : db.Change declared (some c) o.db := by
  obtain ⟨rule, os, rule', p, hrule, hgoal, hadded⟩ := addGoal_eq_ok h
  have htakes := hgoal.takesGoal
  obtain ⟨hextends, hhead, -⟩ := htakes.same
  rw [hadded]
  exact .rule rfl hrule (htakes.takes name) (hextends.trans (rule'.extends_addGoal _)) hhead
    fun hnodup hlt => (htakes.nodup hnodup hlt).1

theorem change_bind [BEq V] {t : TermId} {v : V} {db' : Database N V} (h : db.bind t v = .ok db') :
    db.Change declared extended db' := by
  unfold Database.bind at h
  split at h
  · cases h
  · next howner =>
    split at h
    · next p hp =>
      obtain rfl := Except.ok.inj h
      exact .pool (Pool.preserves_bind hp (Bool.eq_false_iff.2 howner))
    · cases h
    · cases h

theorem change_unbind {t : TermId} {db' : Database N V} (h : db.unbind t = .ok db') :
    db.Change declared extended db' := by
  unfold Database.unbind at h
  split at h
  · cases h
  · next howner =>
    split at h
    · obtain rfl := Except.ok.inj h
      exact .pool (Pool.preserves_clear (Bool.eq_false_iff.2 howner))
    · cases h

/-- A question leaves all clauses alone. -/
theorem Settles.change {args : List TermId} {succeeded : Bool} {db' : Database N V}
    (h : db.Settles args succeeded db') : db.Change declared extended db' := by
  cases succeeded with
  | true =>
    obtain ⟨q, rfl, hbinds⟩ := h
    exact .pool hbinds.preserves
  | false =>
    rw [show db' = db from h]
    exact .refl db _ _

/-- Every command makes one of the three changes: it adds a clause under no name but the one that it
declares, and extends no rule but the one that it names. -/
theorem change_exec [BEq V] (hdb : db.Valid) {rounds : Nat} {command : Command N V}
    {o : Outcome N V (Reply V)} (h : db.exec rounds command = some o) :
    db.Change command.declared? command.extended? o.db := by
  cases hasked : command.asked? with
  -- Questions change the pool at most.
  | some args => exact ((asks_exec h hasked).settles hdb).change
  | none =>
    cases command with
    | addFact name vs =>
      obtain rfl := Option.some.inj h
      exact db.change_addFact name vs
    | addRule name params =>
      obtain ⟨-, -, rfl⟩ | ⟨o', ho, rfl⟩ := orRefused_map_cases (Option.some.inj h)
      · exact .refl db _ _
      · exact change_addRule ho
    | addRuleVar c =>
      obtain ⟨-, -, rfl⟩ | ⟨o', ho, rfl⟩ := orRefused_map_cases (Option.some.inj h)
      · exact .refl db _ _
      · exact change_addRuleVar ho
    | addGoal c name args =>
      obtain ⟨-, -, rfl⟩ | ⟨o', ho, rfl⟩ := orRefused_map_cases (Option.some.inj h)
      · exact .refl db _ _
      · exact change_addGoal ho
    | addVar =>
      obtain rfl := Option.some.inj h
      exact .pool (db.pool.preserves_addFree _)
    | addConstant v =>
      obtain rfl := Option.some.inj h
      exact .pool (db.pool.preserves_addFree _)
    | bind t v =>
      obtain ⟨-, -, rfl⟩ | ⟨db', hdb', rfl⟩ := orRefused_map_cases (Option.some.inj h)
      · exact .refl db _ _
      · exact change_bind hdb'
    | unbind t =>
      obtain ⟨-, -, rfl⟩ | ⟨db', hdb', rfl⟩ := orRefused_map_cases (Option.some.inj h)
      · exact .refl db _ _
      · exact change_unbind hdb'
    | query | tryQuery | queryAll | unify | resolve => cases hasked

end Database

end Hornbase
