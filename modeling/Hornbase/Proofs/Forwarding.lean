import Hornbase.Proofs.Duplicates
import Hornbase.Proofs.Pruning

/-!
# Rules that hand their arguments on

A rule with different variables for its head positions and one goal that passes them on unchanged
means what its goal means, one level deeper. The goal is searched on the rule's frame instead of the
arguments. The frame has the values of the bound arguments, and where an argument is unbound a term
of its own, so the frame and the arguments match (`Store.Matches`), provided that no unbound term is
given twice; hence the same branches succeed, and leave the same values in the frame as in the
arguments. Copying them back cannot fail, since the search has had no access to the arguments. No
law is assumed of `==`: all values are copied, and none is compared with another.
-/

namespace Hornbase

universe u v

variable {N : Type u} {V : Type v}

/-! ## Copying onto unbound terms -/

namespace Store

/-- Whether the second terms of some pairs are different, unbound, and none of the first ones. -/
structure Vacant (s : Store V) (pairs : List (TermId × TermId)) : Prop where
  lt : ∀ x ∈ pairs, x.2.index < s.length
  unbound : ∀ x ∈ pairs, s.value? x.2 = none
  nodup : (pairs.map (·.2)).Nodup
  apart : ∀ x ∈ pairs, ∀ y ∈ pairs, x.1 ≠ y.2

variable {s s₁ : Store V} {part arg : TermId} {rest pairs : List (TermId × TermId)}

/-- The second term of the first pair is none of the others. -/
theorem Vacant.head_ne (h : s.Vacant ((part, arg) :: rest)) :
    ∀ x ∈ rest, x.1 ≠ arg ∧ x.2 ≠ arg := by
  refine fun x hx => ⟨h.apart x (List.mem_cons_of_mem _ hx) (part, arg) (List.mem_cons_self ..), ?_⟩
  have hnot := (List.nodup_cons.1 h.nodup).1
  rintro rfl
  exact hnot (List.mem_map_of_mem (f := (·.2)) hx)

theorem Vacant.tail (h : s.Vacant ((part, arg) :: rest)) : s.Vacant rest where
  lt x hx := h.lt x (List.mem_cons_of_mem _ hx)
  unbound x hx := h.unbound x (List.mem_cons_of_mem _ hx)
  nodup := (List.nodup_cons.1 h.nodup).2
  apart x hx y hy := h.apart x (List.mem_cons_of_mem _ hx) y (List.mem_cons_of_mem _ hy)

variable [BEq V]

/-- Binding the second term of the first pair changes nothing for the others. -/
theorem Vacant.bind (h : s.Vacant ((part, arg) :: rest)) {v : V} (hbind : s.bind arg v = some s₁) :
    s₁.Vacant rest := by
  refine { h.tail with lt := fun x hx => ?_, unbound := fun x hx => ?_ }
  · rw [(bind_grows hbind).2]
    exact h.tail.lt x hx
  · rw [bind_value?_of_ne hbind (h.head_ne x hx).2]
    exact h.tail.unbound x hx

/-- Values can always be copied onto vacant terms. -/
theorem Vacant.copyBack (h : s.Vacant pairs) :
    ∃ s', Store.copyBack pairs s = some s' ∧ ∀ x ∈ pairs, s'.value? x.2 = s.value? x.1 := by
  induction pairs generalizing s with
  | nil => exact ⟨s, rfl, fun x hx => absurd hx List.not_mem_nil⟩
  | cons pair rest ih =>
    obtain ⟨part, arg⟩ := pair
    have harg : s.value? arg = none := h.unbound (part, arg) (List.mem_cons_self ..)
    have hne : ∀ x ∈ rest, arg ≠ x.2 := fun x hx => (h.head_ne x hx).2.symm
    rw [Store.copyBack]
    cases hpart : s.value? part with
    | none =>
      -- Nothing is copied here, and no later pair writes to this argument.
      obtain ⟨s', hs', hvalues⟩ := ih h.tail
      refine ⟨s', hs', fun x hx => ?_⟩
      rcases List.mem_cons.1 hx with rfl | hx
      · rw [copyBack_value?_of_ne hs' hne, harg, hpart]
      · exact hvalues x hx
    | some v =>
      obtain ⟨s₁, hbind⟩ : ∃ s₁, s.bind arg v = some s₁ := exists_bind_iff.2
        ⟨h.lt (part, arg) (List.mem_cons_self ..),
          fun held hheld => absurd (harg.symm.trans hheld) (Option.some_ne_none held).symm⟩
      -- Binding this argument leaves the others vacant.
      obtain ⟨s', hs', hvalues⟩ := ih (h.bind hbind)
      refine ⟨s', Option.bind_eq_some_iff.2 ⟨s₁, hbind, hs'⟩, fun x hx => ?_⟩
      rcases List.mem_cons.1 hx with rfl | hx
      · rw [copyBack_value?_of_ne hs' hne, value?_bind hbind, harg, hpart, if_pos rfl,
          Option.none_or]
      · rw [hvalues x hx, bind_value?_of_ne hbind (h.head_ne x hx).1]

/-- Unifying vacant parts is copying the values of the arguments onto them. The pairs without one
are put off. -/
theorem Vacant.unify (h : s.Vacant (pairs.map Prod.swap)) :
    s.unify pairs = (Store.copyBack (pairs.map Prod.swap) s).map fun s' =>
      (s', pairs.filter fun x => (s.value? x.2).isNone) := by
  induction pairs generalizing s with
  | nil => rfl
  | cons pair rest ih =>
    obtain ⟨part, arg⟩ := pair
    rw [List.map_cons, Prod.swap_prod_mk] at h ⊢
    have hpart : s.value? part = none := h.unbound (arg, part) (List.mem_cons_self ..)
    rw [Store.unify, Store.copyBack, hpart]
    cases harg : s.value? arg with
    | none =>
      -- Both sides skip the pair, which is put off.
      dsimp only
      rw [ih h.tail, List.filter_cons_of_pos (by simp [harg])]
      cases Store.copyBack (rest.map Prod.swap) s <;> rfl
    | some w =>
      dsimp only
      rw [List.filter_cons_of_neg (by simp [harg])]
      cases hbind : s.bind part w with
      | none => rfl
      | some s₁ =>
        -- The part that is bound here is no later argument, so the same pairs are put off.
        have hsame : (rest.filter fun x => (s₁.value? x.2).isNone)
            = rest.filter fun x => (s.value? x.2).isNone := by
          refine List.filter_congr fun x hx => ?_
          have hargNe : x.2 ≠ part := (h.head_ne x.swap (List.mem_map_of_mem hx)).1
          rw [bind_value?_of_ne hbind hargNe]
        rw [← hsame]
        exact ih (h.bind hbind)

end Store

/-! ## Entering the rule -/

/-- Whether a rule has different variables at its head positions. -/
structure Rule.Linear (r : Rule N) : Prop where
  vars : ∀ o ∈ r.params, ∃ n, o = .var n
  nodup : r.params.Nodup

/-- The head positions of a rule whose frame lies behind `n` terms, with the arguments of a call. -/
def Rule.positions (r : Rule N) (n : Nat) (args : List TermId) : List (TermId × TermId) :=
  (r.params.map (r.frameAt n).term).zip args

namespace Rule.Linear

variable {r : Rule N} {p : Pool V} {args : List TermId} {n : Nat}

/-- The head's terms lie in the frame. -/
theorem frame (h : r.Linear) (hr : r.Valid p) {x : TermId × TermId} (hx : x ∈ r.positions n args) :
    n ≤ x.1.index ∧ x.1.index < n + r.locals.length := by
  obtain ⟨o, ho, hox⟩ := List.mem_map.1 (List.of_mem_zip hx).1
  obtain ⟨i, rfl⟩ := h.vars o ho
  have hi : i < r.locals.length := hr.params _ ho
  rw [← hox]
  exact ⟨Nat.le_add_right n i, Nat.add_lt_add_left hi n⟩

/-- They are different. -/
theorem nodup_terms (h : r.Linear) (harity : r.params.length = args.length) :
    ((r.positions n args).map (·.1)).Nodup := by
  rw [positions, List.map_fst_zip (by simp [harity])]
  refine h.nodup.map_on fun o ho o' ho' heq => ?_
  obtain ⟨i, rfl⟩ := h.vars o ho
  obtain ⟨j, rfl⟩ := h.vars o' ho'
  have hindex : n + i = n + j := congrArg TermId.index heq
  rw [Nat.add_left_cancel hindex]

variable [BEq V] {s : Store V}

/-- Such a rule can be entered by any arguments. Its frame takes their values, the positions of
unbound ones are put off, and nothing else happens. -/
theorem enter (h : r.Linear) (hr : r.Valid p) (harity : r.params.length = args.length)
    (hargs : ∀ t ∈ args, t.index < s.length) :
    ∃ entered, s.enter r args = some (entered,
        (r.positions s.length args).filter fun x => (s.value? x.2).isNone) ∧
      (∀ x ∈ r.positions s.length args, entered.value? x.1 = s.value? x.2) ∧
      ∀ t : TermId, t.index < s.length → entered.value? t = s.value? t := by
  have hframe : ∀ x ∈ r.positions s.length args,
      s.length ≤ x.1.index ∧ x.1.index < s.length + r.locals.length := fun _ => h.frame hr
  -- Copied the other way round, the arguments are the source and the frame is vacant.
  have hvacant : Store.Vacant (s ++ List.replicate r.locals.length none)
      ((r.positions s.length args).map Prod.swap) := by
    refine ⟨fun x hx => ?_, fun x hx => ?_, ?_, fun x hx y hy heq => ?_⟩
    · obtain ⟨y, hy, rfl⟩ := List.mem_map.1 hx
      simpa using (hframe y hy).2
    · obtain ⟨y, hy, rfl⟩ := List.mem_map.1 hx
      rw [Store.value?_append_replicate, Store.value?,
        List.getElem?_eq_none (show s.length ≤ y.swap.2.index from (hframe y hy).1)]
      rfl
    · rw [List.map_map]
      exact h.nodup_terms harity
    · obtain ⟨z, hz, rfl⟩ := List.mem_map.1 hx
      obtain ⟨w, hw, rfl⟩ := List.mem_map.1 hy
      have hlt : z.2.index < s.length := hargs z.2 (List.of_mem_zip hz).2
      rw [show z.2 = w.1 from heq] at hlt
      exact absurd (hframe w hw).1 (Nat.not_le.2 hlt)
  obtain ⟨entered, hcopied, hvalues⟩ := hvacant.copyBack
  refine ⟨entered, ?_, fun x hx => ?_, fun t ht => ?_⟩
  · show Store.unify (r.positions s.length args) _ = _
    rw [hvacant.unify, hcopied]
    simp only [Option.map_some, Store.value?_append_replicate]
  · have hvalue := hvalues x.swap (List.mem_map_of_mem hx)
    rwa [Store.value?_append_replicate] at hvalue
  · rw [Store.copyBack_value?_of_ne hcopied fun x hx heq => ?_, Store.value?_append_replicate]
    obtain ⟨y, hy, rfl⟩ := List.mem_map.1 hx
    rw [show t = y.1 from heq] at ht
    exact absurd (hframe y hy).1 (Nat.not_le.2 ht)

end Rule.Linear

/-! ## Searching for the goal instead -/

/-- Whether `args` gives no unbound term twice. -/
def Pool.GivesOnce (p : Pool V) (args : List TermId) : Prop :=
  (args.filter fun t => (p.value? t).isNone).Nodup

/-- The terms of the frame and the arguments, and the constants of clauses. -/
def Rule.Stands (r : Rule N) (p : Pool V) (args : List TermId) (t t' : TermId) : Prop :=
  t = t' ∧ p.Fixed t ∨ (t, t') ∈ r.positions p.size args

variable {r : Rule N} {p : Pool V} {args : List TermId} {entered : Store V}

/-- The pairs of a rule's positions whose arguments are unbound have different arguments, if no
unbound term is given twice. -/
theorem Pool.GivesOnce.nodup_putOff (h : p.GivesOnce args)
    (harity : r.params.length = args.length) :
    (((r.positions p.size args).filter fun x => (p.value? x.2).isNone).map (·.2)).Nodup := by
  have hfilter : ((r.positions p.size args).filter fun x => (p.value? x.2).isNone).map (·.2)
      = args.filter fun t => (p.value? t).isNone := by
    have hsnd : (r.positions p.size args).map (·.2) = args := by
      rw [Rule.positions, List.map_snd_zip (by simp [harity])]
    conv_rhs => rw [← hsnd, List.filter_map]
    rfl
  rw [hfilter]
  exact h

/-- Once the rule is entered its frame matches the arguments. -/
theorem Rule.Linear.matches_entered [BEq V] (h : r.Linear) (hr : r.Valid p)
    (harity : r.params.length = args.length) (hargs : ∀ t ∈ args, t.index < p.size)
    (honce : p.GivesOnce args) (hgrow : Store.GrowsTo p.values entered)
    (hlength : entered.length = p.size + r.locals.length)
    (hvalues : ∀ x ∈ r.positions p.size args, entered.value? x.1 = p.value? x.2) :
    Store.Matches (r.Stands p args) entered p.values := by
  have hfixed : ∀ t, p.Fixed t → ∃ v, entered.value? t = some v ∧ p.value? t = some v := by
    intro t ht
    -- Constants keep their values when the rule is entered.
    obtain ⟨v, hv⟩ := ht.exists_value?
    exact ⟨v, hgrow.value?_eq (by rwa [Pool.value?_values]), hv⟩
  refine ⟨?_, ?_, ?_⟩
  · rintro t t' (⟨rfl, ht⟩ | hmem)
    · rw [hlength, Pool.length_values]
      exact ⟨Nat.lt_add_right _ ht.lt, ht.lt⟩
    · rw [hlength, Pool.length_values]
      exact ⟨(h.frame hr hmem).2, hargs t' (List.of_mem_zip hmem).2⟩
  · rintro t t' (⟨rfl, ht⟩ | hmem)
    · obtain ⟨v, hentered, hv⟩ := hfixed t ht
      rw [hentered, Pool.value?_values, hv]
    · rw [hvalues _ hmem, Pool.value?_values]
  · rintro t t' u u' (⟨rfl, ht⟩ | ht) hu hnone
    · obtain ⟨v, hentered, -⟩ := hfixed t ht
      rw [hnone] at hentered
      cases hentered
    · -- An unbound argument stands only for the position it was given at.
      have hnone' : p.value? t' = none := (hvalues _ ht).symm.trans hnone
      rcases hu with ⟨rfl, hu⟩ | hu
      · -- A constant is neither of the unbound ones.
        obtain ⟨v, hentered, hv⟩ := hfixed u hu
        refine iff_of_false ?_ ?_
        · rintro rfl
          exact absurd (hnone.symm.trans hentered) nofun
        · rintro rfl
          exact absurd (hnone'.symm.trans hv) nofun
      · constructor
        · rintro rfl
          exact congrArg Prod.snd (List.inj_on_of_nodup_map (h.nodup_terms harity) ht hu rfl)
        · rintro rfl
          -- Both pairs are put off, and `args` gives no unbound term twice.
          have hput : ∀ w : TermId, (w, t') ∈ r.positions p.size args →
              (w, t') ∈ (r.positions p.size args).filter fun x => (p.value? x.2).isNone :=
            fun w hw => List.mem_filter.2 ⟨hw, by rw [hnone', Option.isNone_none]⟩
          exact congrArg Prod.fst
            (List.inj_on_of_nodup_map (honce.nodup_putOff harity) (hput t ht) (hput u hu) rfl)

/-- A search on the frame leaves the arguments vacant, and its results can be copied back. Each
argument then has the value that its position has in the frame. -/
theorem Rule.Linear.copyBack [BEq V] (h : r.Linear) (hr : r.Valid p)
    (harity : r.params.length = args.length) (hargs : ∀ t ∈ args, t.index < p.size)
    (honce : p.GivesOnce args) {proved : Store V} (hgrow : Store.GrowsTo p.values proved)
    (hvalues : ∀ x ∈ r.positions p.size args, ∀ v, p.value? x.2 = some v →
      proved.value? x.1 = some v)
    (huntouched : ∀ t ∈ args, p.value? t = none → proved.value? t = none) :
    ∃ s', Store.copyBack ((r.positions p.size args).filter fun x => (p.value? x.2).isNone) proved
        = some s' ∧ ∀ x ∈ r.positions p.size args, s'.value? x.2 = proved.value? x.1 := by
  have hput : ∀ x ∈ (r.positions p.size args).filter fun x => (p.value? x.2).isNone,
      x ∈ r.positions p.size args ∧ x.2 ∈ args ∧ p.value? x.2 = none := by
    intro x hx
    obtain ⟨hmem, hnone⟩ := List.mem_filter.1 hx
    exact ⟨hmem, (List.of_mem_zip hmem).2, Option.isNone_iff_eq_none.1 hnone⟩
  -- What was put off goes to distinct arguments, and the body left them unbound.
  have hvacant : proved.Vacant
      ((r.positions p.size args).filter fun x => (p.value? x.2).isNone) := by
    refine ⟨fun x hx => ?_, fun x hx => ?_, honce.nodup_putOff harity, fun x hx y hy heq => ?_⟩
    · have hlt := hargs x.2 (hput x hx).2.1
      rw [← p.length_values] at hlt
      exact Nat.lt_of_lt_of_le hlt hgrow.length_le
    · exact huntouched x.2 (hput x hx).2.1 (hput x hx).2.2
    · have hlt := hargs y.2 (hput y hy).2.1
      rw [← heq] at hlt
      exact absurd (h.frame hr (hput x hx).1).1 (Nat.not_le.2 hlt)
  obtain ⟨s', hs', hcopied⟩ := hvacant.copyBack
  refine ⟨s', hs', fun x hx => ?_⟩
  cases hv : p.value? x.2 with
  | none => exact hcopied x (List.mem_filter.2 ⟨hx, by rw [hv, Option.isNone_none]⟩)
  | some v =>
    rw [hvalues x hx v hv]
    refine (Store.copyBack_grows hs').1.value?_eq (hgrow.value?_eq ?_)
    rwa [Pool.value?_values]

namespace Program

variable [DecidableEq N] {prog : Program N} {name target : N} {c : ClauseId} {d : Nat}

/-- Whether the rule `r`, with the number `c`, is the only clause under `name` and hands its
arguments on to `target`. -/
structure Forwards (prog : Program N) (name target : N) (c : ClauseId) (r : Rule N) : Prop where
  only : prog.declared name = [c]
  rule : prog.rule? c = some r
  linear : r.Linear
  body : r.body = [⟨target, r.params⟩]

/-- The branches of a call by the rule are those of its goal, one level deeper. -/
theorem Forwards.branches_eq (h : prog.Forwards name target c r) (hindexed : prog.Indexed) :
    prog.branches (d + 1) [name]
      = (prog.branches d [target]).map fun b => Branch.call c b .nil := by
  rw [branches_cons, hindexed name, h.only, List.flatMap_singleton, branches_nil]
  simp only [List.map_singleton, bodies, bodiesOver, clause?_of_rule? h.rule, h.body]
  exact List.flatMap_pure_eq_map _ _

/-- The goal asks on the frame what the call asks on the arguments. -/
theorem Forwards.relatedGoals (h : prog.Forwards name target c r)
    (harity : r.params.length = args.length) :
    List.Forall₂ (RelatedGoals (r.Stands p args) (r.frameAt p.size) ⟨0, 0⟩) r.body
      [⟨target, args.map .const⟩] := by
  rw [h.body]
  refine .cons ?_ .nil
  simp only [RelatedGoals, List.map_map, Function.comp_def, Frame.term, List.map_id']
  exact List.forall₂_iff_zip.2 ⟨by simpa using harity, fun hmem => .inr hmem⟩

variable [BEq V]

/-- A branch below the rule is searched between entering the rule and copying back. -/
theorem Forwards.through_eq (h : prog.Forwards name target c r)
    (harity : r.params.length = args.length) {s : Store V} {putOff : List (TermId × TermId)}
    (henter : s.enter r args = some (entered, putOff)) (b : Branch) :
    prog.through (.call c b .nil) name args s
      = (prog.along b (r.frameAt s.length) r.body entered).bind (Store.copyBack putOff) := by
  have hterms : (args.map Operand.const).map (Frame.term ⟨0, 0⟩) = args := by
    simp [Function.comp_def, Frame.term]
  have harity' : ¬ (Clause.rule r).arity ≠ args.length := not_not.2 harity
  simp only [through, along, viaClause, hterms, clause?_of_rule? h.rule, if_neg harity', henter,
    Option.bind_some, Option.bind_fun_some]

/-- A branch through the goal gives the same answer as that branch below the rule. -/
theorem Forwards.answerAlong_eq (h : prog.Forwards name target c r) (hvalid : prog.Valid p)
    (hindexed : prog.Indexed) (harity : r.params.length = args.length)
    (hargs : ∀ t ∈ args, t.index < p.size) (honce : p.GivesOnce args) {b : Branch}
    (hb : b ∈ prog.branches d [target]) :
    prog.answerAlong name args p.values (.call c b .nil)
      = prog.answerAlong target args p.values b := by
  have hclause := clause?_of_rule? h.rule
  have hr := hvalid.rule hclause
  have hknown : ∀ t ∈ args, t.index < p.values.length := by simpa using hargs
  obtain ⟨entered, henter, hvalues, hothers⟩ := h.linear.enter hr harity hknown
  obtain ⟨hgrow, hlength⟩ := Store.enter_grows henter
  simp only [Pool.length_values, Pool.value?_values] at henter hlength hvalues hothers
  -- Both sides enter the same clauses, and pass on terms that match.
  have hmatches := h.linear.matches_entered hr harity hargs honce hgrow hlength hvalues
  have hrel := (PartOf.refl prog).rel_of_mem hvalid hindexed
    (C := fun t t' => t = t' ∧ p.Fixed t) (fun t ht => ⟨rfl, ht⟩) hb
  have halong := along_matchesUpTo comparesAlike_eq hvalid hrel (fun _ _ => .inl)
    (h.relatedGoals harity) (Store.matchesUpTo_eq_iff.2 hmatches)
  rw [answerAlong, answerAlong, h.through_eq harity henter, Pool.length_values]
  change Option.map _ _ = Option.map _ (prog.along b ⟨0, 0⟩ [⟨target, args.map .const⟩] p.values)
  generalize hproved : prog.along b (r.frameAt p.size) r.body entered = x at halong ⊢
  generalize prog.along b ⟨0, 0⟩ [⟨target, args.map .const⟩] p.values = y at halong ⊢
  cases halong with
  | none => rfl
  | @some proved s' hend =>
    have hbody := along_grows hproved
    obtain ⟨copied, hcopied, hcopies⟩ := h.linear.copyBack hr harity hargs honce
      (hgrow.trans hbody) (fun x hx v hv => hbody.value?_eq ((hvalues x hx).trans hv))
      fun t ht hnone => by
        have hunbound : entered.value? t = none := (hothers t (hargs t ht)).trans hnone
        have hlt : t.index < entered.length := by
          rw [hlength]
          exact Nat.lt_add_right _ (hargs t ht)
        exact along_untouched hvalid hgrow hproved hlt hunbound
          (hr.not_mem_args hgrow hunbound (hargs t ht))
    rw [Option.bind_some, hcopied, Option.map_some, Option.map_some, Option.some.injEq,
      Answer.mk.injEq]
    refine List.map_congr_left fun t ht => ?_
    have hlengths : (r.params.map (r.frameAt p.size).term).length = args.length := by
      rw [List.length_map, harity]
    obtain ⟨x, hx⟩ := exists_mem_zip hlengths ht
    rw [hcopies _ hx]
    exact (Store.matchesUpTo_eq_iff.1 hend).value?_eq (.inr hx)

end Program

namespace Database

variable [DecidableEq N] [BEq V] {db : Database N V} {name target : N} {c : ClauseId} {d : Nat}

/-- A rule that hands its arguments on is transparent. For accepted arguments in which no unbound
term is given twice, the request for all answers to its name lists what the request for its goal
lists under a limit that is smaller by one: the same answers, in the same order. Both end. -/
theorem queryAll_forwards (hdb : db.Reachable) (h : db.program.Forwards name target c r) (d : Nat)
    (haccepted : db.argsFault? r.arity args = none) (honce : db.pool.GivesOnce args) :
    (∃ rounds o, (db.withMaxDepth (some (d + 1))).queryAll rounds name r.arity args = some o) ∧
      (∃ rounds o, (db.withMaxDepth (some d)).queryAll rounds target r.arity args = some o) ∧
      ∀ rounds o rounds' o',
        (db.withMaxDepth (some (d + 1))).queryAll rounds name r.arity args = some o →
        (db.withMaxDepth (some d)).queryAll rounds' target r.arity args = some o' →
        o.result = o'.result := by
  obtain ⟨harity, hargs⟩ := of_argsFault?_eq_none haccepted
  obtain ⟨hends, hfound⟩ := queryAll_answers (hdb.valid.withMaxDepth (some (d + 1))) rfl
    (accepted_withMaxDepth haccepted _) name
  obtain ⟨hends', hfound'⟩ := queryAll_answers (hdb.valid.withMaxDepth (some d)) rfl
    (accepted_withMaxDepth haccepted _) target
  refine ⟨hends, hends', fun rounds o rounds' o' ho ho' => ?_⟩
  rw [hfound rounds o ho, hfound' rounds' o' ho']
  show db.program.answers (d + 1) name args db.pool.values
    = db.program.answers d target args db.pool.values
  rw [Program.answers, Program.answers, h.branches_eq hdb.indexed, List.filterMap_map]
  exact List.filterMap_congr fun b hb =>
    h.answerAlong_eq hdb.valid hdb.indexed harity.symm hargs honce hb

/-- A rule over a relation with a fact, a rule without a body and a rule that calls the relation
itself. One argument is bound, to a value that equals the fact's and is not the same. -/
theorem queryAll_forwards_recursive_relation :
    ∃ db : Database Nat Marked, db.Reachable ∧ ∃ r, db.program.Forwards 0 1 ⟨0⟩ r ∧
      db.argsFault? r.arity [⟨8⟩, ⟨9⟩] = none ∧ db.pool.GivesOnce [⟨8⟩, ⟨9⟩] ∧
      (∃ rounds o, (db.withMaxDepth (some 2)).queryAll rounds 0 r.arity [⟨8⟩, ⟨9⟩] = some o) ∧
      ∀ rounds o, (db.withMaxDepth (some 2)).queryAll rounds 0 r.arity [⟨8⟩, ⟨9⟩] = some o →
        o.result = [⟨[some ⟨7, 9⟩, some ⟨8, 0⟩]⟩, ⟨[some ⟨7, 9⟩, none]⟩,
          ⟨[some ⟨7, 9⟩, some ⟨8, 0⟩]⟩] := by
  obtain ⟨db, hreachable, honly, honce, hrule⟩ := exists_reachable ⟨none, true⟩ 0
    [.addRule 0 [.fresh, .fresh], .addGoal ⟨0⟩ 1 [.param 0, .param 1],
      .addFact 1 [⟨7, 0⟩, ⟨8, 0⟩], .addRule 1 [.fresh, .fresh], .addRule 1 [.fresh, .fresh],
      .addGoal ⟨3⟩ 1 [.param 0, .param 1], .addConstant ⟨7, 9⟩, .addVar]
    (fun db : Database Nat Marked => db.program.declared 0 = [⟨0⟩] ∧
      (([⟨8⟩, ⟨9⟩] : List TermId).filter fun t => (db.pool.value? t).isNone).Nodup ∧
      ((db.program.rule? ⟨0⟩).any fun r => decide (r.params = [.var 0, .var 1] ∧
        r.body.map (fun g => (g.name, g.args)) = [(1, [.var 0, .var 1])] ∧
        db.argsFault? r.arity [⟨8⟩, ⟨9⟩] = none ∧
        ((db.withMaxDepth (some 1)).queryAll 20 1 r.arity [⟨8⟩, ⟨9⟩]).any (fun o =>
          o.result = [⟨[some ⟨7, 9⟩, some ⟨8, 0⟩]⟩, ⟨[some ⟨7, 9⟩, none]⟩,
            ⟨[some ⟨7, 9⟩, some ⟨8, 0⟩]⟩]) = true)) = true)
    (by decide +kernel)
  obtain ⟨r, hr, hrest⟩ := (Option.any_eq_true _ _).1 hrule
  obtain ⟨hparams, hbody, haccepted, hanswers⟩ := of_decide_eq_true hrest
  obtain ⟨o', ho', hresult⟩ := (Option.any_eq_true _ _).1 hanswers
  have hgoals : r.body = [⟨1, r.params⟩] := by
    rw [hparams]
    refine List.map_injective_iff.2 (fun g g' heq => ?_) hbody
    obtain ⟨hname, hargs⟩ := Prod.mk.inj heq
    cases g
    exact congr (congrArg Goal.mk hname) hargs
  have hlinear : r.Linear := by
    refine ⟨fun o ho => ?_, by rw [hparams]; decide⟩
    rw [hparams] at ho
    rcases List.mem_cons.1 ho with rfl | ho
    · exact ⟨0, rfl⟩
    · exact ⟨1, List.mem_singleton.1 ho⟩
  have hforwards : db.program.Forwards 0 1 ⟨0⟩ r := ⟨honly, hr, hlinear, hgoals⟩
  obtain ⟨hends, -, hsame⟩ := queryAll_forwards hreachable hforwards 1 haccepted honce
  refine ⟨db, hreachable, r, hforwards, haccepted, honce, hends, fun rounds o ho => ?_⟩
  rw [hsame rounds o 20 o' ho ho']
  exact of_decide_eq_true hresult

end Database

end Hornbase
