import Hornbase.Proofs.Answers
import Hornbase.Proofs.Soundness

/-!
# Binding and identifying query variables

Over a range-restricted program a branch gives at most one answer: the tuple that its clauses
explain, provided that the arguments admit it (`Program.answerAlong_eq_some_iff`). Which tuples the
clauses explain does not depend on the arguments. So a query that binds some of the arguments of
another one, or makes two of them the same, goes through the same branches and keeps the answers
that its own arguments admit. It keeps them in their order, however much earlier its search finds
out that a branch fails.
-/

namespace Hornbase

universe u v

variable {N : Type u} {V : Type v}

/-! ## Tuples that arguments admit -/

/-- The arguments may take the values `xs`: those that are bound have theirs, and the positions of
an unbound one have the same. -/
def Pool.Admits (p : Pool V) (args : List TermId) (xs : List (Option V)) : Prop :=
  ∃ label : TermId → Option V,
    (∀ t v, p.value? t = some v → label t = some v) ∧ xs = args.map label

/-- A bound term is a term of the pool. -/
theorem Pool.lt_of_value? {p : Pool V} {t : TermId} {v : V} (h : p.value? t = some v) :
    t.index < p.size := by
  rw [← p.length_values]
  exact Store.lt_of_value? ((p.value?_values t).trans h)

section

variable [BEq V] [LawfulBEq V] [DecidableEq N] {prog : Program N} {p : Pool V} {depth : Nat}
  {name : N} {args args' : List TermId}

/-- A branch of a range-restricted program gives the answer that its clauses explain and the
arguments admit. -/
theorem Program.answerAlong_eq_some_iff (hrange : prog.RangeRestricted) (hvalid : prog.Valid p)
    {b : Branch} (hb : b ∈ prog.branches depth [name]) (hargs : ∀ t ∈ args, t.index < p.size)
    {a : Answer V} : prog.answerAlong name args p.values b = some a ↔
      p.Admits args a.values ∧ Supports prog p.value? b [a.values] := by
  have hexplained : ∀ {s : Store V}, prog.through b name args p.values = some s →
      Supports prog p.value? b [Store.values s args] := fun hs =>
    supports_of_through hvalid (hrange.bindsRepeats.settled hvalid hb (.refl _) _) (.refl _) hs
  constructor
  · -- An answer gives the terms the values that they have at the end of the branch.
    intro ha
    obtain ⟨s, hs, rfl⟩ := Option.map_eq_some_iff.1 ha
    refine ⟨⟨s.value?, fun t v hv => ?_, rfl⟩, hexplained hs⟩
    exact (along_grows hs).value?_eq ((p.value?_values t).trans hv)
  · rintro ⟨⟨label, hfixed, hlabel⟩, hsupports⟩
    -- The answer is the label of the arguments, and the branch reaches a store that it fits.
    have hwithin : Store.Within p.values label :=
      ⟨fun {t v} hv => ⟨v, hfixed t v ((p.value?_values t).symm.trans hv), BEq.refl v⟩⟩
    have hknown : ∀ t ∈ args, t.index < p.values.length := by
      rwa [p.length_values]
    have hreaches : Store.Reaches p p.values label (prog.through b name args p.values) :=
      through_of_supports hvalid ⟨.refl _, hfixed _ _, hwithin⟩ hknown (hlabel ▸ hsupports)
    obtain ⟨s, label', hs, hfits, -, hkept⟩ := hreaches
    -- Every argument is bound at the end, to its label.
    have hvalues : Store.values s args = a.values := by
      rw [hlabel]
      refine List.map_congr_left fun t ht => ?_
      obtain ⟨v, hv⟩ := (hexplained hs).bound hrange hvalid _ (List.mem_singleton_self _) _
        (List.mem_map_of_mem ht)
      obtain ⟨w, hw, hvw⟩ := hfits.within.value hv
      rw [hv, ← hkept t (hknown t ht), hw, eq_of_beq hvw]
    rw [answerAlong, hs, Option.map_some, hvalues]

/-- If the arguments `args'` admit those of the tuples that `args` admit for which `P` holds, then
the answers for `args'` are the answers for `args` for which `P` holds. -/
theorem Program.answers_eq_filter (hrange : prog.RangeRestricted) (hvalid : prog.Valid p)
    (hargs : ∀ t ∈ args, t.index < p.size) (hargs' : ∀ t ∈ args', t.index < p.size)
    {P : Answer V → Bool}
    (hadmits : ∀ xs, p.Admits args' xs ↔ p.Admits args xs ∧ P ⟨xs⟩ = true) :
    prog.answers depth name args' p.values = (prog.answers depth name args p.values).filter P := by
  rw [answers, answers, List.filter_filterMap]
  refine List.filterMap_congr fun b hb => ?_
  ext a
  rw [Option.filter_eq_some_iff, answerAlong_eq_some_iff hrange hvalid hb hargs',
    answerAlong_eq_some_iff hrange hvalid hb hargs, hadmits]
  exact and_right_comm

end

/-! ## Binding arguments -/

/-- The term `t'` stands for `t`: it holds the value given for `t`, which is unbound, or no value is
given and it is `t` itself. -/
def Pool.Puts (p : Pool V) (given : TermId → Option V) (t t' : TermId) : Prop :=
  match given t with
  | none => t' = t
  | some v => p.value? t = none ∧ p.value? t' = some v

/-- The arguments `args'` are `args` with terms that hold the values `given` in the place of some
unbound terms, at all positions of these. -/
def Pool.Instantiates (p : Pool V) (given : TermId → Option V) (args args' : List TermId) : Prop :=
  List.Forall₂ (p.Puts given) args args'

/-- Whether an answer to `args` holds the values `given`, at all positions of the terms that have
one. -/
def Answer.holds [BEq V] (given : TermId → Option V) (args : List TermId) (a : Answer V) : Bool :=
  (args.zip a.values).all fun (t, x) => (given t).all fun v => x == some v

/-- Arguments with given values at some positions have labels that hold these values. -/
theorem Answer.holds_map [BEq V] [LawfulBEq V] {given label : TermId → Option V}
    {args ts : List TermId} : Answer.holds given args ⟨ts.map label⟩ = true ↔
      ∀ x ∈ args.zip ts, ∀ v, given x.1 = some v → label x.2 = some v := by
  simp only [holds, List.zip_map_right, List.all_map, List.all_eq_true, Function.comp_apply,
    Prod.map_fst, Prod.map_snd, id_eq, Option.all_eq_true, beq_iff_eq]

/-- Arguments that hold given values are terms of the pool if those whose place they take are. -/
theorem Pool.Instantiates.lt {p : Pool V} {given : TermId → Option V} {args args' : List TermId}
    (h : p.Instantiates given args args') (hargs : ∀ t ∈ args, t.index < p.size) :
    ∀ t ∈ args', t.index < p.size := by
  obtain ⟨hlength, hputs⟩ := List.forall₂_iff_zip.1 h
  intro t' ht'
  obtain ⟨t, hmem⟩ := exists_mem_zip hlength ht'
  have hput := hputs hmem
  unfold Puts at hput
  split at hput
  · rw [hput]
    exact hargs t (List.of_mem_zip hmem).1
  · exact lt_of_value? hput.2

/-- Arguments that hold given values admit the tuples that hold these. -/
theorem Pool.Instantiates.admits_iff [BEq V] [LawfulBEq V] {p : Pool V} {given : TermId → Option V}
    {args args' : List TermId} (h : p.Instantiates given args args') (xs : List (Option V)) :
    p.Admits args' xs ↔ p.Admits args xs ∧ Answer.holds given args ⟨xs⟩ = true := by
  obtain ⟨hlength, hputs⟩ := List.forall₂_iff_zip.1 h
  have hkept : ∀ x ∈ args.zip args', given x.1 = none → x.2 = x.1 := by
    intro x hx hgiven
    simpa only [Puts, hgiven] using hputs hx
  have hnew : ∀ x ∈ args.zip args', ∀ v, given x.1 = some v →
      p.value? x.1 = none ∧ p.value? x.2 = some v := by
    intro x hx v hgiven
    simpa only [Puts, hgiven] using hputs hx
  constructor
  · rintro ⟨label, hfixed, rfl⟩
    -- The terms that are replaced get their values as labels.
    refine ⟨⟨fun t => (p.value? t).or ((given t).or (label t)), fun t v hv => ?_,
      (map_eq_map_iff_zip.2 ⟨hlength, fun x hx => ?_⟩).symm⟩,
      Answer.holds_map.2 fun x hx v hgiven => hfixed _ _ (hnew x hx v hgiven).2⟩
    · simp only [hv, Option.some_or]
    · cases hgiven : given x.1 with
      -- The term stays, and so does its label.
      | none =>
        rw [hkept x hx hgiven, Option.none_or]
        cases hv : p.value? x.1 with
        | none => exact Option.none_or
        | some v => exact (hfixed _ _ hv).symm
      | some v =>
        -- The term is replaced: it was unbound, and its label is the given value.
        obtain ⟨hunbound, hv⟩ := hnew x hx v hgiven
        rw [hunbound, hfixed _ _ hv, Option.none_or, Option.some_or]
  · rintro ⟨⟨label, hfixed, rfl⟩, hholds⟩
    -- The same labels do, since the given values are those of the new terms.
    refine ⟨label, hfixed, map_eq_map_iff_zip.2 ⟨hlength, fun x hx => ?_⟩⟩
    cases hgiven : given x.1 with
    | none => rw [hkept x hx hgiven]
    | some v =>
      have hmem : (x.1, x.1) ∈ args.zip args := by
        rw [zip_self]
        exact List.mem_map_of_mem (List.of_mem_zip hx).1
      rw [hfixed _ _ (hnew x hx v hgiven).2]
      exact Answer.holds_map.1 hholds _ hmem v hgiven

/-! ## Identifying arguments -/

/-- The term `z` in the place of `x` and `y`, and every other term as it is. -/
def TermId.merge (x y z t : TermId) : TermId := if t = x ∨ t = y then z else t

/-- The values that an answer to `args` holds at the positions of the terms `ts`. -/
def Answer.valuesAt (args ts : List TermId) (a : Answer V) : List (Option V) :=
  ((args.zip a.values).filter fun (t, _) => t ∈ ts).map (·.2)

/-- Whether an answer to `args` holds the same value at all positions of the terms `ts`. -/
def Answer.holdsOne [BEq V] (args ts : List TermId) (a : Answer V) : Bool :=
  (a.valuesAt args ts).all fun v => (a.valuesAt args ts).all fun w => v == w

/-- A labelling gives an answer that holds one value at all positions of some arguments if it labels
these alike. -/
theorem Answer.holdsOne_map [BEq V] [LawfulBEq V] {args ts : List TermId}
    {label : TermId → Option V} : Answer.holdsOne args ts ⟨args.map label⟩ = true ↔
      ∀ t ∈ args, t ∈ ts → ∀ u ∈ args, u ∈ ts → label t = label u := by
  have hmem : ∀ v, v ∈ Answer.valuesAt args ts ⟨args.map label⟩ ↔
      ∃ t ∈ args, t ∈ ts ∧ label t = v := by
    intro v
    simp [valuesAt, ← List.map_prod_left_eq_zip, and_assoc]
  simp only [holdsOne, List.all_eq_true, hmem, beq_iff_eq]
  constructor
  · exact fun h t ht hts u hu hus => h _ ⟨t, ht, hts, rfl⟩ _ ⟨u, hu, hus, rfl⟩
  · rintro h _ ⟨t, ht, hts, rfl⟩ _ ⟨u, hu, hus, rfl⟩
    exact h t ht hts u hu hus

/-- Terms that are no arguments do not count. -/
theorem Answer.holdsOne_congr [BEq V] {args ts us : List TermId}
    (h : ∀ t ∈ args, t ∈ ts ↔ t ∈ us) (a : Answer V) :
    Answer.holdsOne args ts a = Answer.holdsOne args us a := by
  have hvalues : a.valuesAt args ts = a.valuesAt args us := by
    refine congrArg _ (List.filter_congr fun x hx => ?_)
    exact decide_eq_decide.2 (h x.1 (List.of_mem_zip hx).1)
  rw [holdsOne, holdsOne, hvalues]

/-- Arguments of which two are made one admit the tuples with one value at the positions of both,
and at those of the one if it was an argument before. -/
theorem Pool.admits_merge_iff [BEq V] [LawfulBEq V] {p : Pool V} {args : List TermId}
    {x y z : TermId} (hx : x ∈ args) (hxfree : p.value? x = none) (hyfree : p.value? y = none)
    (hzfree : p.value? z = none) (xs : List (Option V)) :
    p.Admits (args.map (TermId.merge x y z)) xs ↔
      p.Admits args xs ∧ Answer.holdsOne args [x, y, z] ⟨xs⟩ = true := by
  constructor
  · rintro ⟨label, hfixed, rfl⟩
    rw [List.map_map]
    refine ⟨⟨_, fun t v hv => ?_, rfl⟩, Answer.holdsOne_map.2 ?_⟩
    · -- A bound term is neither of the two, so it is not replaced.
      have hnot : ¬ (t = x ∨ t = y) := by
        rintro (rfl | rfl)
        · exact absurd (hxfree.symm.trans hv) nofun
        · exact absurd (hyfree.symm.trans hv) nofun
      rw [Function.comp_apply, TermId.merge, if_neg hnot]
      exact hfixed t v hv
    · -- All three become `z`.
      have hone : ∀ t ∈ [x, y, z], TermId.merge x y z t = z := by
        intro t ht
        unfold TermId.merge
        grind
      intro t _ ht u _ hu
      rw [Function.comp_apply, Function.comp_apply, hone t ht, hone u hu]
  · rintro ⟨⟨label, hfixed, rfl⟩, hone⟩
    have hone := Answer.holdsOne_map.1 hone
    -- The label of `z` becomes that of the two terms that it replaces.
    refine ⟨fun t => if t = z then label x else label t, fun t v hv => ?_, ?_⟩
    · have hnot : t ≠ z := by
        rintro rfl
        exact absurd (hzfree.symm.trans hv) nofun
      simp only [if_neg hnot]
      exact hfixed t v hv
    · rw [List.map_map]
      refine List.map_congr_left fun t ht => ?_
      have hlabel : t ∈ [x, y, z] → label t = label x := fun hmem =>
        hone t ht hmem x hx (List.mem_cons_self ..)
      simp only [Function.comp_apply, TermId.merge]
      grind

namespace Database

variable [DecidableEq N] [BEq V] {db : Database N V} {limit arity : Nat} {args : List TermId}

/-- The arguments `args'` are accepted, and the request for all their answers ends and lists those
of the answers for `args` for which `P` holds, in their order and each as often. -/
structure Filters (db : Database N V) (name : N) (arity : Nat) (args args' : List TermId)
    (P : Answer V → Bool) : Prop where
  /-- The arguments are as many as they should be, and known. -/
  accepted : db.argsFault? arity args' = none
  /-- The request for all answers ends. -/
  ends : ∃ rounds o, db.queryAll rounds name arity args' = some o
  /-- It lists the answers for `args` for which `P` holds. -/
  result_eq : ∀ rounds o rounds' o', db.queryAll rounds name arity args = some o →
    db.queryAll rounds' name arity args' = some o' → o'.result = o.result.filter P

variable [LawfulBEq V]

/-- Over a range-restricted program, arguments that admit some of the tuples that others admit find
the answers among theirs that hold one of these. -/
theorem filters_of_admits (hvalid : db.Valid) (hrange : db.program.RangeRestricted)
    (hlimit : db.config.maxDepth = some limit) (haccepted : db.argsFault? arity args = none)
    {args' : List TermId} (hlength : args'.length = args.length)
    (hargs' : ∀ t ∈ args', t.index < db.pool.size) {P : Answer V → Bool}
    (hadmits : ∀ xs, db.pool.Admits args' xs ↔ db.pool.Admits args xs ∧ P ⟨xs⟩ = true) (name : N) :
    db.Filters name arity args args' P := by
  obtain ⟨harity, hargs⟩ := of_argsFault?_eq_none haccepted
  have haccepted' := argsFault?_eq_none (hlength.trans harity) hargs'
  obtain ⟨-, hfound⟩ := queryAll_answers hvalid hlimit haccepted name
  obtain ⟨hends, hfound'⟩ := queryAll_answers hvalid hlimit haccepted' name
  refine ⟨haccepted', hends, fun rounds o rounds' o' ho ho' => ?_⟩
  rw [hfound rounds o ho, hfound' rounds' o' ho']
  exact Program.answers_eq_filter hrange hvalid hargs hargs' hadmits

/-- Over a range-restricted program, to bind arguments or to identify two of them only filters the
answers: bound arguments keep the answers with the values that they hold, and two arguments that are
made one keep those with one value at the positions of both. If the one term is an argument already,
its own positions must hold this value, too. -/
theorem queryAll_filters (h : db.Reachable) (hrange : db.program.RangeRestricted)
    (hlimit : db.config.maxDepth = some limit) (haccepted : db.argsFault? arity args = none)
    (name : N) :
    (∃ rounds o, db.queryAll rounds name arity args = some o) ∧
      (∀ given args', db.pool.Instantiates given args args' →
        db.Filters name arity args args' (Answer.holds given args)) ∧
      ∀ x ∈ args, ∀ y ∈ args, ∀ z, db.pool.contains z = true →
        db.value? x = none → db.value? y = none → db.value? z = none →
        db.Filters name arity args (args.map (TermId.merge x y z))
            (Answer.holdsOne args [x, y, z]) ∧
          ((z ∈ args → z = x ∨ z = y) →
            db.Filters name arity args (args.map (TermId.merge x y z))
              (Answer.holdsOne args [x, y])) := by
  obtain ⟨-, hargs⟩ := of_argsFault?_eq_none haccepted
  refine ⟨exists_queryAll h.valid hlimit haccepted, fun given args' hgiven => ?_,
    fun x hx y hy z hz hxfree hyfree hzfree => ?_⟩
  · exact filters_of_admits h.valid hrange hlimit haccepted hgiven.length_eq.symm (hgiven.lt hargs)
      hgiven.admits_iff name
  · have hmerged : ∀ t ∈ args.map (TermId.merge x y z), t.index < db.pool.size := by
      intro t ht
      obtain ⟨u, hu, rfl⟩ := List.mem_map.1 ht
      unfold TermId.merge
      split
      · exact of_decide_eq_true hz
      · exact hargs u hu
    have hfilters : db.Filters name arity args (args.map (TermId.merge x y z))
        (Answer.holdsOne args [x, y, z]) :=
      filters_of_admits h.valid hrange hlimit haccepted (List.length_map _) hmerged
        (Pool.admits_merge_iff hx hxfree hyfree hzfree) name
    refine ⟨hfilters, fun hold => ?_⟩
    have hsame : (Answer.holdsOne args [x, y, z] : Answer V → Bool)
        = Answer.holdsOne args [x, y] := by
      refine funext (Answer.holdsOne_congr fun t ht => ?_)
      grind
    exact hsame ▸ hfilters

/-- A rule over the facts (1, 1, 2) and (3, 3, 3): its last argument bound to 2, its first two made
one fresh term, and all three made the last one of them. -/
theorem queryAll_filters_triples :
    ∃ db : Database Nat Nat, db.Reachable ∧ db.program.RangeRestricted ∧
      db.config.maxDepth = some 1 ∧ db.argsFault? 3 [⟨10⟩, ⟨11⟩, ⟨12⟩] = none ∧
      db.Filters 1 3 [⟨10⟩, ⟨11⟩, ⟨12⟩] [⟨10⟩, ⟨11⟩, ⟨9⟩]
        (Answer.holds (fun t => if t = ⟨12⟩ then some 2 else none) [⟨10⟩, ⟨11⟩, ⟨12⟩]) ∧
      db.Filters 1 3 [⟨10⟩, ⟨11⟩, ⟨12⟩] [⟨13⟩, ⟨13⟩, ⟨12⟩]
        (Answer.holdsOne [⟨10⟩, ⟨11⟩, ⟨12⟩] [⟨10⟩, ⟨11⟩]) ∧
      db.Filters 1 3 [⟨10⟩, ⟨11⟩, ⟨12⟩] [⟨12⟩, ⟨12⟩, ⟨12⟩]
        (Answer.holdsOne [⟨10⟩, ⟨11⟩, ⟨12⟩] [⟨10⟩, ⟨11⟩, ⟨12⟩]) := by
  obtain ⟨db, hreachable, hrange, hlimit, haccepted, hconstant, hx, hy, hz, hfresh⟩ :=
    exists_reachable ⟨some 1, false⟩ 0
      [.addFact 0 [1, 1, 2], .addFact 0 [3, 3, 3], .addRule 1 [.fresh, .fresh, .fresh],
        .addGoal ⟨2⟩ 0 [.param 0, .param 1, .param 2], .addConstant 2, .addVar, .addVar, .addVar,
        .addVar]
      (fun db : Database Nat Nat => db.program.RangeRestricted ∧ db.config.maxDepth = some 1 ∧
        db.argsFault? 3 [⟨10⟩, ⟨11⟩, ⟨12⟩] = none ∧ db.value? ⟨9⟩ = some 2 ∧
        db.value? ⟨10⟩ = none ∧ db.value? ⟨11⟩ = none ∧
        (db.pool.contains ⟨12⟩ = true ∧ db.value? ⟨12⟩ = none) ∧
        db.pool.contains ⟨13⟩ = true ∧ db.value? ⟨13⟩ = none)
      (by decide +kernel)
  obtain ⟨-, hbind, hmerge⟩ := queryAll_filters hreachable hrange hlimit haccepted 1
  refine ⟨db, hreachable, hrange, hlimit, haccepted, hbind _ _ ?_, ?_, ?_⟩
  · exact .cons rfl (.cons rfl (.cons ⟨hz.2, hconstant⟩ .nil))
  · exact (hmerge ⟨10⟩ (by decide) ⟨11⟩ (by decide) ⟨13⟩ hfresh.1 hx hy hfresh.2).2 (by decide)
  · exact (hmerge ⟨10⟩ (by decide) ⟨11⟩ (by decide) ⟨12⟩ hz.1 hx hy hz.2).1

/-- Two arguments that become a third one must agree with it as well: of the answers (1, 1, 2) and
(3, 3, 3), both of which hold one value at the first two positions, only the second is left. -/
theorem not_filters_third_argument :
    ∃ db : Database Nat Nat, db.Reachable ∧ db.program.RangeRestricted ∧
      db.config.maxDepth = some 1 ∧ db.argsFault? 3 [⟨6⟩, ⟨7⟩, ⟨8⟩] = none ∧
      db.value? ⟨6⟩ = none ∧ db.value? ⟨7⟩ = none ∧ db.value? ⟨8⟩ = none ∧
      ∃ o o', db.queryAll 9 0 3 [⟨6⟩, ⟨7⟩, ⟨8⟩] = some o ∧
        db.queryAll 9 0 3 ([⟨6⟩, ⟨7⟩, ⟨8⟩].map (TermId.merge ⟨6⟩ ⟨7⟩ ⟨8⟩)) = some o' ∧
        o'.result ≠ o.result.filter (Answer.holdsOne [⟨6⟩, ⟨7⟩, ⟨8⟩] [⟨6⟩, ⟨7⟩]) := by
  obtain ⟨db, hreachable, hrange, hlimit, haccepted, hx, hy, hz, hall, hmerged⟩ :=
    exists_reachable ⟨some 1, false⟩ 0
      [.addFact 0 [1, 1, 2], .addFact 0 [3, 3, 3], .addVar, .addVar, .addVar]
      (fun db : Database Nat Nat => db.program.RangeRestricted ∧ db.config.maxDepth = some 1 ∧
        db.argsFault? 3 [⟨6⟩, ⟨7⟩, ⟨8⟩] = none ∧ db.value? ⟨6⟩ = none ∧
        db.value? ⟨7⟩ = none ∧ db.value? ⟨8⟩ = none ∧
        (db.queryAll 9 0 3 [⟨6⟩, ⟨7⟩, ⟨8⟩]).any (fun o => o.result =
          [⟨[some 1, some 1, some 2]⟩, ⟨[some 3, some 3, some 3]⟩]) = true ∧
        (db.queryAll 9 0 3 [⟨8⟩, ⟨8⟩, ⟨8⟩]).any (fun o => o.result =
          [⟨[some 3, some 3, some 3]⟩]) = true)
      (by decide +kernel)
  obtain ⟨o, ho, hresult⟩ := (Option.any_eq_true _ _).1 hall
  obtain ⟨o', ho', hresult'⟩ := (Option.any_eq_true _ _).1 hmerged
  refine ⟨db, hreachable, hrange, hlimit, haccepted, hx, hy, hz, o, o', ho, ho', ?_⟩
  rw [of_decide_eq_true hresult, of_decide_eq_true hresult']
  decide

end Database

end Hornbase
