import Hornbase.Proofs.Labelling

/-!
# Less at the start

A branch that succeeds also succeeds from a store in which fewer of the terms are bound. The two
runs are compared step by step: they lay out the same frames, and whatever the one with less has
bound is bound to an equal value in the other. The one with less puts more pairs off, and copies
them back when the other has long compared them; the values are then equal all the same. No
condition on the program is needed.
-/

namespace Hornbase

universe u v

variable {N : Type u} {V : Type v} [BEq V]

/-- Two stores of the same terms, and what is bound in the first is bound to an equal value in the
second. -/
structure Store.Below (s t : Store V) : Prop where
  length_eq : s.length = t.length
  within : s.Within t.value?

namespace Store.Below

variable {s t : Store V}

/-- What is unbound in the greater store is unbound in the smaller. -/
theorem value?_eq_none (h : s.Below t) {x : TermId} (hx : t.value? x = none) :
    s.value? x = none := by
  cases hv : s.value? x with
  | none => rfl
  | some v =>
    obtain ⟨w, hw, -⟩ := h.within.value hv
    rw [hx] at hw
    cases hw

/-- A store that has grown without new terms is above what was below it. -/
theorem trans_grows (h : s.Below t) {t' : Store V} (hgrow : t.GrowsTo t')
    (hlength : t'.length = t.length) : s.Below t' where
  length_eq := h.length_eq.trans hlength.symm
  within := by
    refine ⟨fun {x v} hv => ?_⟩
    obtain ⟨w, hw, hvw⟩ := h.within.value hv
    exact ⟨w, hgrow.value?_eq hw, hvw⟩

/-- The same number of unbound terms is added to both. -/
theorem append_replicate (h : s.Below t) (n : Nat) :
    Store.Below (s ++ List.replicate n none) (t ++ List.replicate n none) where
  length_eq := by simp [h.length_eq]
  within := by
    refine ⟨fun {x v} hv => ?_⟩
    rw [value?_append_replicate] at hv ⊢
    exact h.within.value hv

/-- Terms that agree have equal values as labels, and are terms of the store below. -/
theorem of_agree (h : s.Below t) {x y : TermId} (hagree : t.Agree x y) :
    x.index < s.length ∧ y.index < s.length ∧ (t.value? x == t.value? y) = true := by
  obtain ⟨v, w, hx, hy, heq⟩ := hagree
  rw [h.length_eq, hx, hy]
  exact ⟨lt_of_value? hx, lt_of_value? hy, heq⟩

variable [EquivBEq V]

/-- Pairs that unify in a store unify in any store below it. -/
theorem unify (h : s.Below t) {pairs putOff : List (TermId × TermId)} {t' : Store V}
    (ht : t.unify pairs = some (t', putOff)) :
    ∃ s' putOff', s.unify pairs = some (s', putOff') ∧ s'.Below t' := by
  induction pairs generalizing s t putOff with
  | nil =>
    obtain ⟨rfl, -⟩ := Prod.mk.inj (Option.some.inj ht)
    exact ⟨s, [], rfl, h⟩
  | cons pair rest ih =>
    obtain ⟨part, arg⟩ := pair
    obtain ⟨t₁, hgrow, hlength, hagree, hrest⟩ | ⟨hpart, harg, pairs, -, hrest⟩ :=
      unify_cons_agree ht
    · -- Below, the pair may have been put off, or compared with a value that it has there already.
      have hbelow := h.trans_grows hgrow hlength
      obtain ⟨hpart, harg, hlabel⟩ := hbelow.of_agree hagree
      obtain ⟨s₁, f, hs₁, hwithin, hf, hunify⟩ := hbelow.within.pair hpart harg hlabel
      obtain ⟨s', putOff', hrest', hs'⟩ := ih ⟨hs₁.trans hbelow.length_eq, hwithin⟩ hrest
      refine ⟨s', (f (s', putOff')).2, ?_, hs'⟩
      rw [hunify, hrest', Option.map_some, Option.some.injEq]
      exact Prod.ext (hf _) rfl
    · -- Above, the pair was put off. Below there is no value for it either.
      obtain ⟨s', putOff', hrest', hs'⟩ := ih h hrest
      refine ⟨s', (part, arg) :: putOff', ?_, hs'⟩
      simp [Store.unify, h.value?_eq_none hpart, h.value?_eq_none harg, hrest']

/-- Pairs that agree wherever their part is bound can be copied back below. -/
theorem copyBack (h : s.Below t) {pairs : List (TermId × TermId)}
    (hagree : ∀ x ∈ pairs, ∀ v, t.value? x.1 = some v → t.Agree x.1 x.2) :
    ∃ s', Store.copyBack pairs s = some s' ∧ s'.Below t := by
  have hlabel : ∀ x ∈ pairs, ∀ v, t.value? x.1 = some v →
      x.2.index < s.length ∧ (t.value? x.1 == t.value? x.2) = true :=
    fun x hx v hv => (h.of_agree (hagree x hx v hv)).2
  obtain ⟨s', hcopied, hs'⟩ := h.within.copyBack hlabel
  exact ⟨s', hcopied, (copyBack_grows hcopied).2.trans h.length_eq, hs'⟩

/-- A rule that can be entered from a store can be entered from any store below it. -/
theorem enter (h : s.Below t) {r : Rule N} {args : List TermId} {entered : Store V}
    {pairs : List (TermId × TermId)} (ht : t.enter r args = some (entered, pairs)) :
    ∃ entered' pairs', s.enter r args = some (entered', pairs') ∧ entered'.Below entered := by
  rw [Store.enter, ← h.length_eq] at ht
  exact (h.append_replicate r.locals.length).unify ht

end Store.Below

/-! ## Leaving a rule -/

variable [EquivBEq V] {prog : Program N} {p : Pool V} {s t t' entered entered' proved : Store V}
  {args : List TermId} {pairs pairs' : List (TermId × TermId)}

omit [BEq V] [EquivBEq V] in
/-- A variable of a rule is no term of the store that the rule is entered from, and a constant is
bound in the pool. -/
theorem Rule.Valid.param_cases {r : Rule N} (hr : r.Valid p) {n : Nat} {x : TermId × TermId}
    (hx : x ∈ (r.params.map (r.frameAt n).term).zip args) :
    n ≤ x.1.index ∨ ∃ v, p.value? x.1 = some v := by
  obtain ⟨o, ho, hterm⟩ := List.mem_map.1 (List.of_mem_zip hx).1
  rw [← hterm]
  cases o with
  | var i => exact .inl (Nat.le_add_right n i)
  | const c => exact .inr (hr.params _ ho).exists_value?

/-- A pair that was put off below agrees above when the rule is left, if its part is bound then. -/
theorem agree_of_putOff {r : Rule N} (hr : r.Valid p) (hbase : Store.GrowsTo p.values s)
    (hbelow : s.Below t) (hargs : ∀ x ∈ args, x.index < s.length)
    (henter : t.enter r args = some (entered, pairs))
    (henter' : s.enter r args = some (entered', pairs')) (hbody : entered.GrowsTo proved)
    (hcopied : Store.copyBack pairs proved = some t') {x : TermId × TermId} (hx : x ∈ pairs')
    {v : V} (hv : t'.value? x.1 = some v) : t'.Agree x.1 x.2 := by
  obtain ⟨hmem, hunbound, -⟩ := Store.unify_putOff henter' x hx
  have habove : x ∈ (r.params.map (r.frameAt t.length).term).zip args := by
    rwa [← hbelow.length_eq]
  -- Above, the pair was put off as well, or it was settled when the rule was entered.
  rcases Store.unify_agree henter x habove with hput | hagree
  · cases hproved : proved.value? x.1 with
    | some w => exact Store.copyBack_agree hcopied hput hproved
    | none =>
      -- Then it is an argument that got a value from another pair, but it is no term of the caller.
      have hframe : s.length ≤ x.1.index := by
        rcases hr.param_cases hmem with hle | ⟨c, hc⟩
        · exact hle
        · -- A constant of the head has a value, so the pair would not have been put off.
          rw [← Pool.value?_values] at hc
          rw [Store.value?_append_replicate, hbase.value?_eq hc] at hunbound
          cases hunbound
      have hne : ∀ y ∈ pairs, x.1 ≠ y.2 := by
        rintro y hy heq
        have harg := hargs y.2 (List.of_mem_zip (Store.unify_putOff henter y hy).1).2
        rw [← heq] at harg
        exact absurd hframe (Nat.not_le.2 harg)
      rw [Store.copyBack_value?_of_ne hcopied hne, hproved] at hv
      cases hv
  · exact hagree.mono (hbody.trans (Store.copyBack_grows hcopied).1)

/-! ## Whole branches -/

/-- A clause that proves a call from a store also proves it from a store below, if this holds of the
goals of the rule that it enters. -/
theorem viaClause_of_below (hvalid : prog.Valid p) {id : ClauseId}
    {body : Frame → List (Goal N) → Store V → Option (Store V)} (hbase : Store.GrowsTo p.values s)
    (hbelow : s.Below t) (hargs : ∀ x ∈ args, x.index < s.length)
    (hgrows : ∀ frame gs (s s' : Store V), body frame gs s = some s' → s.GrowsTo s')
    (hbody : ∀ frame gs (s t t' : Store V), Store.GrowsTo p.values s → s.Below t →
      (∀ g ∈ gs, ∀ o ∈ g.args, (frame.term o).index < s.length) → body frame gs t = some t' →
      ∃ s', body frame gs s = some s' ∧ s'.Below t')
    (h : prog.viaClause id body args t = some t') :
    ∃ s', prog.viaClause id body args s = some s' ∧ s'.Below t' := by
  obtain ⟨f, putOff, hclause, harity, hunify⟩ |
    ⟨r, entered, pairs, proved, hclause, harity, henter, hproved, hcopied⟩ :=
    Program.viaClause_cases h
  · -- A fact that is matched above is matched below.
    obtain ⟨s', putOff', hunify', hs'⟩ := hbelow.unify hunify
    exact ⟨s', Program.viaClause_fact hclause harity hunify', hs'⟩
  · have hr := hvalid.rule hclause
    have hsize : p.size ≤ s.length := by simpa using hbase.length_le
    obtain ⟨entered', pairs', henter', hentered⟩ := hbelow.enter henter
    obtain ⟨hgrow, hlength⟩ := Store.enter_grows henter'
    have hterms : ∀ g ∈ r.body, ∀ o ∈ g.args,
        ((r.frameAt s.length).term o).index < entered'.length := by
      intro g hg o ho
      rw [hlength]
      exact (hr.body g hg o ho).term_lt hsize
    -- Both stores have the same terms, so the rule gets the same frame in both.
    rw [← hbelow.length_eq] at hproved
    obtain ⟨proved', hproved', hbelow'⟩ :=
      hbody _ _ _ _ _ (hbase.trans hgrow) hentered hterms hproved
    obtain ⟨hcopy, hsame⟩ := Store.copyBack_grows hcopied
    have hput : ∀ x ∈ pairs', ∀ v, t'.value? x.1 = some v → t'.Agree x.1 x.2 :=
      fun x hx v => agree_of_putOff hr hbase hbelow hargs henter henter' (hgrows _ _ _ _ hproved)
        hcopied hx
    obtain ⟨s', hcopied', hs'⟩ := (hbelow'.trans_grows hcopy hsame).copyBack hput
    exact ⟨s', Program.viaClause_rule hclause harity henter' hproved' hcopied', hs'⟩

/-- A branch that succeeds from a store also succeeds from a store below it. -/
theorem along_of_below (hvalid : prog.Valid p) {b : Branch} {frame : Frame} {gs : List (Goal N)}
    (hbase : Store.GrowsTo p.values s) (hbelow : s.Below t)
    (hterms : ∀ g ∈ gs, ∀ o ∈ g.args, (frame.term o).index < s.length)
    (h : prog.along b frame gs t = some t') :
    ∃ s', prog.along b frame gs s = some s' ∧ s'.Below t' := by
  induction b generalizing frame gs s t t' with
  | nil =>
    cases gs with
    | nil =>
      obtain rfl := Option.some.inj h
      exact ⟨s, rfl, hbelow⟩
    | cons => cases h
  | call id body rest ihBody ihRest =>
    cases gs with
    | nil => cases h
    | cons g gs =>
      obtain ⟨t₁, hcall, halong⟩ := Program.along_cons h
      have hargs : ∀ x ∈ g.args.map frame.term, x.index < s.length := by
        intro x hx
        obtain ⟨o, ho, rfl⟩ := List.mem_map.1 hx
        exact hterms g (List.mem_cons_self ..) o ho
      -- The first call goes through below, and leaves a store that is below in turn.
      obtain ⟨s₁, hcall', hbelow'⟩ := viaClause_of_below hvalid hbase hbelow hargs
        (fun _ _ _ _ => Program.along_grows) (fun _ _ _ _ _ => ihBody) hcall
      have hgrow := Program.viaClause_grows (fun _ _ _ _ => Program.along_grows) hcall'
      have hterms' : ∀ g' ∈ gs, ∀ o ∈ g'.args, (frame.term o).index < s₁.length :=
        fun g' hg' o ho =>
          Nat.lt_of_lt_of_le (hterms g' (List.mem_cons_of_mem _ hg') o ho) hgrow.length_le
      obtain ⟨s', halong', hs'⟩ := ihRest (hbase.trans hgrow) hbelow' hterms' halong
      exact ⟨s', Program.along_call hcall' halong', hs'⟩

/-- A branch that proves a call from a store also proves it from a store below. -/
theorem through_of_below (hvalid : prog.Valid p) {b : Branch} {name : N}
    (hbase : Store.GrowsTo p.values s) (hbelow : s.Below t) (hargs : ∀ x ∈ args, x.index < s.length)
    (h : prog.through b name args t = some t') :
    ∃ s', prog.through b name args s = some s' ∧ s'.Below t' := by
  refine along_of_below hvalid hbase hbelow (fun g hg o ho => ?_) h
  obtain rfl := List.mem_singleton.1 hg
  obtain ⟨x, hx, rfl⟩ := List.mem_map.1 ho
  exact hargs x hx

end Hornbase
