import Hornbase.Proofs.Edits

/-!
# The terms of stored clauses

A command asks something of some terms, or it declares clauses and edits terms of the host. A
command of the second kind leaves the cells of stored clauses alone, and the variables that it gives
to rules have unbound templates (`Declares.retains`). What questions do to the pool is the matter of
searches and stands elsewhere.
-/

namespace Hornbase

universe u v

variable {N : Type u} {V : Type v}

/-! ## Pools -/

namespace Pool

/-- Whether `t` is an unbound term of a stored clause. -/
def Blank (p : Pool V) (t : TermId) : Prop := p.cells[t.index]? = some ⟨.unbound, true⟩

/-- `q` has all cells of stored clauses that `p` has, perhaps more terms, and the same trail. -/
structure Retains (p q : Pool V) : Prop where
  trail_eq : q.trail = p.trail
  size_le : p.size ≤ q.size
  cell_eq : ∀ (i : Nat) (c : Cell V), p.cells[i]? = some c → c.owned = true → q.cells[i]? = some c

theorem Retains.refl (p : Pool V) : p.Retains p := ⟨rfl, Nat.le_refl _, fun _ _ h _ => h⟩

theorem Retains.trans {p q r : Pool V} (hpq : p.Retains q) (hqr : q.Retains r) : p.Retains r where
  trail_eq := hqr.trail_eq.trans hpq.trail_eq
  size_le := Nat.le_trans hpq.size_le hqr.size_le
  cell_eq i c hc howned := hqr.cell_eq i c (hpq.cell_eq i c hc howned) howned

/-- What is blank stays blank. -/
theorem Retains.blank {p q : Pool V} (h : p.Retains q) {t : TermId} (ht : p.Blank t) : q.Blank t :=
  h.cell_eq _ _ ht rfl

theorem retains_push (p : Pool V) (c : Cell V) : p.Retains (p.push c).2 where
  trail_eq := rfl
  size_le := by simp [push, size]
  cell_eq i d hd _ := by
    have hlt := (Array.getElem?_eq_some_iff.1 hd).1
    simp only [push, Array.getElem?_push, Nat.ne_of_lt hlt, if_false, hd]

theorem retains_addTuple (p : Pool V) (vs : List V) : p.Retains (p.addTuple vs).2 where
  trail_eq := rfl
  size_le := by
    rw [size_addTuple]
    exact Nat.le_add_right _ _
  cell_eq i d hd _ := by
    have hlt := (Array.getElem?_eq_some_iff.1 hd).1
    simp only [addTuple, Array.getElem?_append_left hlt, hd]

/-- A new unbound term of a clause is blank. -/
theorem blank_addOwned (p : Pool V) : (p.addOwned .unbound).2.Blank (p.addOwned .unbound).1 := by
  simp [Blank, addOwned, push]

/-- A cell of a stored clause is not that of a term of the host. -/
theorem ne_of_isOwned {p : Pool V} {t : TermId} (h : p.isOwned t = false) {i : Nat} {c : Cell V}
    (hc : p.cells[i]? = some c) (howned : c.owned = true) : t.index ≠ i := by
  rintro rfl
  simp [isOwned, hc, howned] at h

/-- Clearing a term of the host changes no cell of a stored clause. -/
theorem retains_clear {p : Pool V} {t : TermId} (h : p.isOwned t = false) :
    p.Retains (p.clear t) where
  trail_eq := rfl
  size_le := Nat.le_of_eq (size_clear p t).symm
  cell_eq i c hc howned := by
    simp only [clear, Array.getElem?_modify, ne_of_isOwned h hc howned, if_false, hc]

/-- Binding a term of the host changes no cell of a stored clause. -/
theorem retains_bind [BEq V] {p q : Pool V} {t : TermId} {v : V} (h : p.bind t v = .ok q)
    (howner : p.isOwned t = false) : p.Retains (q.commit p.mark) := by
  obtain ⟨-, rfl⟩ | ⟨_, -, -, rfl⟩ := bind_cases h
  · refine ⟨?_, Nat.le_of_eq (size_assign p t v).symm, fun i c hc howned => ?_⟩
    · apply Array.ext'
      simp [commit, assign, mark]
    · simp only [commit, assign, Array.getElem?_modify, ne_of_isOwned howner hc howned, if_false,
        hc]
  · rw [commit_mark]
    exact .refl _

end Pool

/-! ## Variables of rules -/

namespace Rule

/-- `r'` and its pool come from `r` and `p` by declarations: the templates of the variables that it
has in addition are blank. -/
structure Sprouts (r : Rule N) (p : Pool V) (r' : Rule N) (p' : Pool V) : Prop where
  pool : p.Retains p'
  blank : ∀ t ∈ r'.locals, t ∈ r.locals ∨ p'.Blank t

theorem Sprouts.refl (r : Rule N) (p : Pool V) : r.Sprouts p r p := ⟨.refl p, fun _ ht => .inl ht⟩

theorem Sprouts.trans {r₁ r₂ r₃ : Rule N} {p₁ p₂ p₃ : Pool V} (h : r₁.Sprouts p₁ r₂ p₂)
    (h' : r₂.Sprouts p₂ r₃ p₃) : r₁.Sprouts p₁ r₃ p₃ where
  pool := h.pool.trans h'.pool
  blank t ht := by
    rcases h'.blank t ht with ht | ht
    · exact (h.blank t ht).imp_right h'.pool.blank
    · exact .inr ht

/-- A term that is added changes no rule. -/
theorem sprouts_push (r : Rule N) (p : Pool V) (c : Cell V) : r.Sprouts p r (p.push c).2 :=
  ⟨p.retains_push c, fun _ ht => .inl ht⟩

/-- A new variable has a new blank term as its template. -/
theorem sprouts_addVar (r : Rule N) (p : Pool V) :
    r.Sprouts p (r.addVar (p.addOwned .unbound).1).2 (p.addOwned .unbound).2 where
  pool := p.retains_push ⟨.unbound, true⟩
  blank t ht := by
    rcases List.mem_append.1 ht with ht | ht
    · exact .inl ht
    · obtain rfl := List.mem_singleton.1 ht
      exact .inr p.blank_addOwned

/-- Declaring a head gives a rule blank templates only. -/
theorem sprouts_declareHead (params : List (Arg V)) (r : Rule N) (p : Pool V) :
    r.Sprouts p (declareHead params r p).1 (declareHead params r p).2 := by
  induction params generalizing r p with
  | nil => exact .refl r p
  | cons arg rest ih =>
    cases arg with
    | fresh | term _ =>
      -- The position that the variable gets in the head is no concern of the templates.
      have hvar := r.sprouts_addVar p
      have hparam : r.Sprouts p (r.addParamVar (p.addOwned .unbound).1) (p.addOwned .unbound).2 :=
        ⟨hvar.pool, hvar.blank⟩
      exact hparam.trans (ih _ _)
    | value v =>
      have hconst := r.sprouts_push p ⟨.bound v, true⟩
      have hparam : r.Sprouts p (r.addParamConst (p.addOwned (.bound v)).1)
          (p.addOwned (.bound v)).2 := ⟨hconst.pool, hconst.blank⟩
      exact hparam.trans (ih _ _)
    | param i =>
      have hrepeat : (r.addParamRepeat i).locals = r.locals := by
        unfold addParamRepeat
        split <;> rfl
      have hparam : r.Sprouts p (r.addParamRepeat i) p :=
        ⟨.refl p, fun t ht => .inl (by rwa [hrepeat] at ht)⟩
      exact hparam.trans (ih _ _)

theorem DeclaresArg.sprouts {r r₁ : Rule N} {p p₁ : Pool V} {a : Arg V} {o : Operand}
    (h : r.DeclaresArg p a o r₁ p₁) : r.Sprouts p r₁ p₁ := by
  cases h with
  | fresh => exact r.sprouts_addVar p
  | value v => exact r.sprouts_push p ⟨.bound v, true⟩
  | term _ | param _ => exact .refl r p

/-- Declaring a goal gives a rule blank templates only. -/
theorem DeclaresArgs.sprouts {args : List (Arg V)} {r r' : Rule N} {p p' : Pool V}
    {os : List Operand} (h : DeclaresArgs args r p os r' p') : r.Sprouts p r' p' := by
  induction h with
  | nil r p => exact .refl r p
  | cons hfirst _ ih => exact hfirst.sprouts.trans ih

end Rule

/-! ## Commands that declare or edit -/

namespace Database

/-- `db'` has all cells of stored clauses that `db` has, and each template of a rule is one that the
rule had, or is blank. -/
structure Retains (db db' : Database N V) : Prop where
  pool : db.pool.Retains db'.pool
  template : ∀ id r t, db'.program.rule? id = some r → t ∈ r.locals →
    (∃ r', db.program.rule? id = some r' ∧ t ∈ r'.locals) ∨ db'.pool.Blank t

variable {db : Database N V}

theorem Retains.refl (db : Database N V) : db.Retains db :=
  ⟨.refl _, fun _ r _ hr ht => .inl ⟨r, hr, ht⟩⟩

/-- A change of the pool alone. -/
theorem retains_pool {p : Pool V} (h : db.pool.Retains p) : db.Retains { db with pool := p } :=
  ⟨h, fun _ r _ hr ht => .inl ⟨r, hr, ht⟩⟩

/-- A new clause has blank templates if it is a rule, and the other rules are as before. -/
theorem retains_add [DecidableEq N] {p : Pool V} (h : db.pool.Retains p) {c : Clause N}
    (hc : ∀ r, c = .rule r → ∀ t ∈ r.locals, p.Blank t) :
    db.Retains ⟨(db.program.add c).2, p, db.config⟩ where
  pool := h
  template id r t hr ht := by
    have hclause := Program.clause?_of_rule? hr
    rw [Program.clause?_add] at hclause
    split at hclause
    · exact .inr (hc r (Option.some.inj hclause) t ht)
    · exact .inl ⟨r, by simp only [Program.rule?, hclause], ht⟩

/-- A rule that has got further variables has blank templates for them. -/
theorem retains_setRule {p : Pool V} {id : ClauseId} {r r' : Rule N}
    (hr : db.program.rule? id = some r) (h : r.Sprouts db.pool r' p) :
    db.Retains ⟨db.program.setRule id r', p, db.config⟩ where
  pool := h.pool
  template i s t hs ht := by
    have hclause := Program.clause?_of_rule? hs
    rw [Program.clause?_setRule] at hclause
    split at hclause
    · next heq =>
      subst heq
      obtain ⟨_, -, hrule⟩ := Option.map_eq_some_iff.1 hclause
      obtain rfl := Clause.rule.inj hrule
      exact (h.blank t ht).imp_left fun ht => ⟨r, hr, ht⟩
    · exact .inl ⟨s, by simp only [Program.rule?, hclause], ht⟩

theorem retains_addFact [DecidableEq N] [BEq V] (db : Database N V) (name : N) (vs : List V) :
    db.Retains (db.addFact name vs).db := by
  rcases db.addFact_found_or name vs with ⟨-, hsame⟩ | ⟨-, hadded⟩
  · rw [hsame]
    exact .refl _
  · rw [hadded]
    refine retains_add (db.pool.retains_addTuple vs) fun r heq => ?_
    cases heq

theorem retains_addRule [DecidableEq N] {name : N} {params : List (Arg V)}
    {o : Outcome N V ClauseId} (h : db.addRule name params = .ok o) : db.Retains o.db := by
  obtain ⟨-, -, hadded⟩ := addRule_eq_ok h
  have hhead := Rule.sprouts_declareHead params { name } db.pool
  rw [hadded]
  refine retains_add hhead.pool fun r heq t ht => ?_
  obtain rfl := Clause.rule.inj heq
  exact (hhead.blank t ht).resolve_left List.not_mem_nil

theorem retains_addRuleVar {c : ClauseId} {o : Outcome N V TermId}
    (h : db.addRuleVar c = .ok o) : db.Retains o.db := by
  obtain ⟨rule, hrule, -, hadded⟩ := addRuleVar_eq_ok h
  rw [hadded]
  exact retains_setRule hrule (rule.sprouts_addVar db.pool)

theorem retains_addGoal {c : ClauseId} {name : N} {args : List (Arg V)} {o : Outcome N V Unit}
    (h : db.addGoal c name args = .ok o) : db.Retains o.db := by
  obtain ⟨rule, os, rule', p, hrule, hgoal, hadded⟩ := addGoal_eq_ok h
  have hsprouts := hgoal.sprouts
  rw [hadded]
  exact retains_setRule hrule ⟨hsprouts.pool, hsprouts.blank⟩

theorem retains_hostBind [BEq V] {t : TermId} {v : V} {db' : Database N V}
    (h : db.bind t v = .ok db') : db.Retains db' := by
  unfold Database.bind at h
  split at h
  · cases h
  · next howner =>
    split at h
    · next p hp =>
      obtain rfl := Except.ok.inj h
      exact retains_pool (Pool.retains_bind hp (Bool.eq_false_iff.2 howner))
    · cases h
    · cases h

theorem retains_hostUnbind {t : TermId} {db' : Database N V} (h : db.unbind t = .ok db') :
    db.Retains db' := by
  unfold Database.unbind at h
  split at h
  · cases h
  · next howner =>
    split at h
    · obtain rfl := Except.ok.inj h
      exact retains_pool (Pool.retains_clear (Bool.eq_false_iff.2 howner))
    · cases h

/-- A command that declares or edits leaves the cells of stored clauses alone, and all variables
that it gives to rules have blank templates. -/
theorem Declares.retains [DecidableEq N] [BEq V] {db' : Database N V} (h : db.Declares db') :
    db.Retains db' := by
  cases h with
  | refused => exact .refl db
  | fact name vs => exact db.retains_addFact name vs
  | rule ho => exact retains_addRule ho
  | ruleVar ho => exact retains_addRuleVar ho
  | goal ho => exact retains_addGoal ho
  | term t => exact retains_pool (db.pool.retains_push _)
  | bind hdb' => exact retains_hostBind hdb'
  | unbind hdb' => exact retains_hostUnbind hdb'

end Database

end Hornbase
