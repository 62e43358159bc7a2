import Hornbase.Proofs.Duplicates

/-!
# Matching with one fact

All parts of a stored fact are bound, so unifying the fact with arguments never puts a pair off: the
value of each part is bound to the argument at its position, from left to right (`Store.bindAll`).
The later positions see what the earlier ones have bound. Still the outcome can be told from the
values before the call alone: a bound argument must hold what equals the part, and an unbound one
takes the part at its first position, which must equal those at its further positions
(`Pool.Meets`). No law is assumed of `==`.
-/

namespace Hornbase

universe u v

variable {N : Type u} {V : Type v}

/-! ## The first position of a term -/

/-- A list of pairs files under `u` what its first pair does, or else what the others do. -/
theorem lookup_cons_eq_or (t u : TermId) (v : V) (xs : List (TermId × V)) :
    ((t, v) :: xs).lookup u = (if u = t then some v else none).or (xs.lookup u) := by
  rw [List.lookup_cons]
  by_cases hut : u = t
  · simp [hut]
  · rw [beq_eq_false_iff_ne.2 hut, if_neg hut, Option.none_or]

/-- What the first `i` pairs of two lists file under `t` is what stands in the second list where `t`
first stands in the first one. -/
theorem lookup_take_zip {args : List TermId} {vs : List V} (h : args.length = vs.length) (i : Nat)
    (t : TermId) :
    ((args.zip vs).take i).lookup t = if args.idxOf t < i then vs[args.idxOf t]? else none := by
  induction args generalizing vs i with
  | nil =>
    obtain rfl := List.length_eq_zero_iff.1 h.symm
    simp
  | cons a args ih =>
    cases vs with
    | nil => cases h
    | cons v vs =>
      cases i with
      | zero => simp
      | succ i =>
        rw [List.zip_cons_cons, List.take_succ_cons, lookup_cons_eq_or, ih (Nat.succ.inj h)]
        by_cases hta : t = a
        · simp [hta]
        · simp [hta, List.idxOf_cons_ne args (Ne.symm hta)]

namespace Store

variable [BEq V] {s s' : Store V} {t : TermId} {v : V}

/-! ## Binding some terms after the other -/

/-- Binds terms to values, from left to right. -/
def bindAll : List (TermId × V) → Store V → Option (Store V)
  | [], s => some s
  | (t, v) :: rest, s => (s.bind t v).bind (bindAll rest)

/-- Unifying bound parts binds their values to the arguments, and puts no pair off. -/
theorem unify_eq_bindAll {parts args : List TermId} {vs : List V} {s : Store V}
    (h : parts.map s.value? = vs.map some) :
    s.unify (parts.zip args) = (bindAll (args.zip vs) s).map fun s => (s, []) := by
  induction parts generalizing args vs s with
  | nil =>
    obtain rfl : vs = [] := by simpa using h.symm
    simp [unify, bindAll]
  | cons part parts ih =>
    cases vs with
    | nil => cases h
    | cons v vs =>
      cases args with
      | nil => rfl
      | cons arg args =>
        obtain ⟨hpart, hparts⟩ := List.cons.inj h
        rw [List.zip_cons_cons, List.zip_cons_cons, unify, hpart, bindAll]
        dsimp only
        cases hbind : s.bind arg v with
        | none => rfl
        | some s₁ =>
          -- Binding an argument leaves the other parts the values that they have.
          have hstill : parts.map s₁.value? = vs.map some := by
            rw [← hparts]
            refine List.map_congr_left fun t ht => ?_
            obtain ⟨w, -, hw⟩ := List.mem_map.1 (hparts ▸ List.mem_map_of_mem ht)
            rw [← hw, (bind_grows hbind).1.value?_eq hw.symm]
          exact ih hstill

/-- After binding, each unbound term holds the first value that was listed for it. -/
theorem value?_bindAll {xs : List (TermId × V)} (h : bindAll xs s = some s') (u : TermId) :
    s'.value? u = (s.value? u).or (xs.lookup u) := by
  induction xs generalizing s with
  | nil =>
    obtain rfl := Option.some.inj h
    rw [List.lookup_nil, Option.or_none]
  | cons x rest ih =>
    obtain ⟨t, v⟩ := x
    obtain ⟨s₁, hbind, hrest⟩ := Option.bind_eq_some_iff.1 h
    rw [ih hrest, value?_bind hbind, Option.or_assoc, lookup_cons_eq_or]

/-- Binding succeeds if each term is known and holds, by what it held before or by what an earlier
position has bound it to, nothing that differs from the value listed for it. -/
theorem exists_bindAll_iff {xs : List (TermId × V)} :
    (∃ s', bindAll xs s = some s') ↔ ∀ i t v, xs[i]? = some (t, v) →
      t.index < s.length ∧
        ∀ held, (s.value? t).or ((xs.take i).lookup t) = some held → (held == v) = true := by
  induction xs generalizing s with
  | nil => simp [bindAll]
  | cons x rest ih =>
    obtain ⟨t, v⟩ := x
    -- The later positions see the store that the first one leaves.
    have hlater : ∀ s₁, s.bind t v = some s₁ → ((∃ s', bindAll rest s₁ = some s') ↔
        ∀ i u w, rest[i]? = some (u, w) → u.index < s.length ∧
          ∀ held, (s.value? u).or ((((t, v) :: rest).take (i + 1)).lookup u) = some held →
            (held == w) = true) := by
      intro s₁ hbind
      have hvalue : ∀ i u, (s₁.value? u).or ((rest.take i).lookup u)
          = (s.value? u).or ((((t, v) :: rest).take (i + 1)).lookup u) := by
        intro i u
        rw [value?_bind hbind, Option.or_assoc, List.take_succ_cons, lookup_cons_eq_or]
      simp only [ih, (bind_grows hbind).2, hvalue]
    constructor
    · rintro ⟨s', h⟩ i u w hi
      obtain ⟨s₁, hbind, hrest⟩ := Option.bind_eq_some_iff.1 h
      cases i with
      | zero =>
        -- The first pair is bound as it stands.
        obtain ⟨rfl, rfl⟩ := Prod.mk.inj (Option.some.inj hi)
        simpa using exists_bind_iff.1 ⟨s₁, hbind⟩
      | succ i => exact (hlater s₁ hbind).1 ⟨s', hrest⟩ i u w hi
    · intro h
      -- The first can be bound, and then the others from what it leaves.
      obtain ⟨s₁, hbind⟩ := exists_bind_iff.2 (by simpa using h 0 t v rfl)
      obtain ⟨s', hrest⟩ := (hlater s₁ hbind).2 fun i u w hi => h (i + 1) u w hi
      exact ⟨s', Option.bind_eq_some_iff.2 ⟨s₁, hbind, hrest⟩⟩

end Store

/-! ## Matching by positions -/

/-- Whether `args` match the values `vs`, by what the terms of a pool hold. -/
structure Pool.Meets [BEq V] (p : Pool V) (args : List TermId) (vs : List V) : Prop where
  length_eq : args.length = vs.length
  known : ∀ t ∈ args, p.contains t = true
  /-- A bound argument holds a value that equals the one at its position. -/
  bound : ∀ (i : Nat) t held v, args[i]? = some t → p.value? t = some held → vs[i]? = some v →
    (held == v) = true
  /-- The value at the first position of an unbound argument equals those at its further
  positions. -/
  repeated : ∀ (i : Nat) t w v, args[i]? = some t → p.value? t = none → args.idxOf t < i →
    vs[args.idxOf t]? = some w → vs[i]? = some v → (w == v) = true

/-- Arguments match values if the values can be bound to them in the store of the pool. -/
theorem Pool.meets_iff [BEq V] {p : Pool V} {args : List TermId} {vs : List V}
    (hlength : args.length = vs.length) :
    p.Meets args vs ↔ ∃ s, Store.bindAll (args.zip vs) p.values = some s := by
  rw [Store.exists_bindAll_iff]
  simp only [List.getElem?_zip_eq_some, value?_values, length_values, lookup_take_zip hlength]
  constructor
  · rintro ⟨-, hknown, hbound, hrepeated⟩ i t v ⟨ht, hv⟩
    -- Either the pool has a value for the term, or an earlier position has given it one.
    refine ⟨of_decide_eq_true (hknown t (List.mem_of_getElem? ht)), fun held hheld => ?_⟩
    cases hvalue : p.value? t with
    -- The value is that of the pool.
    | some w =>
      rw [hvalue, Option.some_or] at hheld
      exact hbound i t held v ht (hvalue.trans hheld) hv
    | none =>
      -- The value is that of the first position of the term.
      rw [hvalue, Option.none_or] at hheld
      split at hheld
      · next hfirst => exact hrepeated i t held v ht hvalue hfirst hheld hv
      · cases hheld
  · intro h
    have hvalue : ∀ (i : Nat) t, args[i]? = some t → ∃ v, vs[i]? = some v := fun i t ht =>
      ⟨_, List.getElem?_eq_getElem (hlength ▸ (List.getElem?_eq_some_iff.1 ht).1)⟩
    refine ⟨hlength, fun t ht => ?_, fun i t held v ht hheld hv => ?_,
      fun i t w v ht hnone hfirst hw hv => ?_⟩
    · obtain ⟨i, ht⟩ := List.getElem?_of_mem ht
      obtain ⟨v, hv⟩ := hvalue i t ht
      exact decide_eq_true (h i t v ⟨ht, hv⟩).1
    · refine (h i t v ⟨ht, hv⟩).2 held ?_
      rw [hheld, Option.some_or]
    · refine (h i t v ⟨ht, hv⟩).2 w ?_
      rw [hnone, Option.none_or, if_pos hfirst, hw]

namespace Pool

variable [BEq V] {p : Pool V} {parts args : List TermId} {vs : List V}

/-- Unifying bound parts with known terms comes out as binding their values to the terms does. -/
theorem unify_outcome_of_bound (hparts : parts.map p.value? = vs.map some)
    (hknown : p.Known (parts.zip args)) :
    (p.unify (parts.zip args)).outcome
      = (Store.bindAll (args.zip vs) p.values).map fun s => (s, []) := by
  rw [← List.map_congr_left fun t _ => p.value?_values t] at hparts
  rw [unify_outcome hknown, Store.unify_eq_bindAll hparts]

/-- If bound parts are unified with some terms, their values are bound to the terms in the store. -/
theorem bindAll_of_unify (hparts : parts.map p.value? = vs.map some)
    (h : (p.unify (parts.zip args)).failure = none) :
    Store.bindAll (args.zip vs) p.values = some (p.unify (parts.zip args)).pool.values := by
  have houtcome := unify_outcome_of_bound hparts (known_of_unify h)
  rw [Matching.outcome, h] at houtcome
  obtain ⟨s, hs, heq⟩ := Option.map_eq_some_iff.1 houtcome.symm
  rw [hs, (Prod.mk.inj heq).1]

/-- Bound parts are unified with as many terms if these match their values. -/
theorem unify_failure_eq_none_iff (hparts : parts.map p.value? = vs.map some)
    (hlength : args.length = vs.length) :
    (p.unify (parts.zip args)).failure = none ↔ p.Meets args vs := by
  constructor
  · exact fun h => (meets_iff hlength).2 ⟨_, bindAll_of_unify hparts h⟩
  · intro h
    obtain ⟨s, hs⟩ := (meets_iff hlength).1 h
    have hknown : p.Known (parts.zip args) := by
      intro x hx
      obtain ⟨hpart, harg⟩ := List.of_mem_zip hx
      refine ⟨?_, of_decide_eq_true (h.known _ harg)⟩
      obtain ⟨v, -, hv⟩ := List.mem_map.1 (hparts ▸ List.mem_map_of_mem hpart)
      rw [← length_values]
      exact Store.lt_of_value? ((value?_values p _).trans hv.symm)
    have houtcome := unify_outcome_of_bound hparts hknown
    rw [hs, Matching.outcome] at houtcome
    split at houtcome
    · next hnone => exact hnone
    · cases houtcome

/-- If bound parts are unified with some terms, each unbound one takes the value at its first
position. -/
theorem value?_of_unify (hparts : parts.map p.value? = vs.map some)
    (hlength : args.length = vs.length) (h : (p.unify (parts.zip args)).failure = none) {t : TermId}
    (ht : t ∈ args) (hnone : p.value? t = none) :
    ∃ v, vs[args.idxOf t]? = some v ∧ (p.unify (parts.zip args)).pool.value? t = some v := by
  have hfirst : args.idxOf t < args.length := List.idxOf_lt_length_iff.2 ht
  have hlookup := lookup_take_zip hlength args.length t
  rw [List.take_of_length_le (by simp), if_pos hfirst] at hlookup
  have hvalue := List.getElem?_eq_getElem (hlength ▸ hfirst)
  refine ⟨_, hvalue, ?_⟩
  rw [← value?_values, Store.value?_bindAll (bindAll_of_unify hparts h), value?_values, hnone,
    Option.none_or, hlookup, hvalue]

end Pool

namespace Database

variable [BEq V] {db : Database N V} {c : ClauseId} {f : Fact N} {args : List TermId}

/-- Unifying a stored fact, in terms of its parts. -/
theorem unify_of_fact? (hf : db.program.fact? c = some f) (hlength : f.arity = args.length) :
    (db.unify c args).result = (db.pool.unify (f.parts.zip args)).failure.isNone ∧
      (db.unify c args).db
        = { db with pool := (db.pool.unify (f.parts.zip args)).pool.commit db.pool.mark } := by
  simp only [unify, hf]
  rw [if_neg (not_not.2 hlength)]
  exact ⟨rfl, rfl⟩

/-- A stored fact is not unified with more or fewer terms than it has parts. -/
theorem unify_of_length_ne (hf : db.program.fact? c = some f) (hlength : f.arity ≠ args.length) :
    (db.unify c args).result = false := by
  simp only [unify, hf]
  rw [if_pos hlength]

variable [DecidableEq N]

/-- Unifying a stored fact with terms is matching its values with them, position by position. If it
succeeds, each unbound argument holds the very value at its first position; bound terms and terms
that are no arguments are what they were. If it does not, the whole database is what it was. -/
theorem unify_fact_iff_meets (hdb : db.Reachable) (hf : db.program.fact? c = some f)
    (args : List TermId) :
    ∃ vs, f.parts.map db.value? = vs.map some ∧
      ((db.unify c args).result = true ↔ db.pool.Meets args vs) ∧
      ((db.unify c args).result = true → ∃ q, (db.unify c args).db = { db with pool := q } ∧
        db.pool.BindsOnly args q ∧
        ∀ t ∈ args, db.value? t = none →
          ∃ v, vs[args.idxOf t]? = some v ∧ q.value? t = some v) ∧
      ((db.unify c args).result = false → (db.unify c args).db = db) := by
  have hfixed := hdb.valid.fact (Program.clause?_of_fact? hf)
  obtain ⟨vs, hvs⟩ := Pool.exists_values hfixed
  have harity : f.arity = vs.length := by
    have hboth := congrArg List.length hvs
    rwa [List.length_map, List.length_map] at hboth
  have hsettles : db.Settles args (db.unify c args).result (db.unify c args).db :=
    settles_unify hdb.valid c
  refine ⟨vs, hvs, ?_, fun hresult => ?_, fun hresult => ?_⟩
  · -- With as many arguments as parts, success is the absence of a failure.
    by_cases hlength : f.arity = args.length
    · rw [(unify_of_fact? hf hlength).1, Option.isNone_iff_eq_none]
      exact Pool.unify_failure_eq_none_iff hvs (hlength.symm.trans harity)
    · -- A wrong number of arguments meets nothing.
      rw [unify_of_length_ne hf hlength]
      exact ⟨nofun, fun h => absurd (harity.trans h.length_eq.symm) hlength⟩
  · rw [hresult] at hsettles
    obtain ⟨q, hq, hbinds⟩ := hsettles
    refine ⟨q, hq, hbinds, fun t ht hnone => ?_⟩
    -- It has succeeded, so the number of arguments was right.
    have hlength : f.arity = args.length := by
      by_contra hne
      rw [unify_of_length_ne hf hne] at hresult
      cases hresult
    obtain ⟨hfailure, hafter⟩ := unify_of_fact? hf hlength
    rw [hfailure, Option.isNone_iff_eq_none] at hresult
    obtain rfl : q = (db.pool.unify (f.parts.zip args)).pool.commit db.pool.mark :=
      congrArg Database.pool (hq.symm.trans hafter)
    exact Pool.value?_of_unify hvs (hlength.symm.trans harity) hresult ht hnone
  · rw [hresult] at hsettles
    exact hsettles

/-- Three parts that are equal and not the same, with one bound argument and one that stands at two
positions. It takes the value of the first of them. -/
theorem unify_fact_iff_meets_equal_parts :
    ∃ db : Database Nat Marked, db.Reachable ∧ ∃ f, db.program.fact? ⟨0⟩ = some f ∧
      f.parts.map db.value? = [some ⟨7, 0⟩, some ⟨7, 1⟩, some ⟨7, 2⟩] ∧
      db.value? ⟨3⟩ = some ⟨7, 3⟩ ∧ db.value? ⟨4⟩ = none ∧
      (db.unify ⟨0⟩ [⟨3⟩, ⟨4⟩, ⟨4⟩]).result = true ∧
      (db.unify ⟨0⟩ [⟨3⟩, ⟨4⟩, ⟨4⟩]).db.value? ⟨3⟩ = some ⟨7, 3⟩ ∧
      (db.unify ⟨0⟩ [⟨3⟩, ⟨4⟩, ⟨4⟩]).db.value? ⟨4⟩ = some ⟨7, 1⟩ := by
  obtain ⟨db, hreachable, hfact, hbound, hunbound, hresult⟩ := exists_reachable ⟨none, true⟩ 0
    [.addFact 0 [⟨7, 0⟩, ⟨7, 1⟩, ⟨7, 2⟩], .addConstant ⟨7, 3⟩, .addVar]
    (fun db : Database Nat Marked =>
      ((db.program.fact? ⟨0⟩).any fun f =>
        decide (f.parts.map db.value? = [some ⟨7, 0⟩, some ⟨7, 1⟩, some ⟨7, 2⟩])) = true ∧
      db.value? ⟨3⟩ = some ⟨7, 3⟩ ∧ db.value? ⟨4⟩ = none ∧
      (db.unify ⟨0⟩ [⟨3⟩, ⟨4⟩, ⟨4⟩]).result = true)
    (by decide +kernel)
  obtain ⟨f, hf, hparts⟩ := (Option.any_eq_true _ _).1 hfact
  have hparts := of_decide_eq_true hparts
  obtain ⟨vs, hvs, -, hholds, -⟩ := unify_fact_iff_meets hreachable hf [⟨3⟩, ⟨4⟩, ⟨4⟩]
  obtain ⟨q, hq, hbinds, hfirst⟩ := hholds hresult
  obtain ⟨v, hv, hvalue⟩ := hfirst ⟨4⟩ (by decide) hunbound
  obtain rfl : vs = [⟨7, 0⟩, ⟨7, 1⟩, ⟨7, 2⟩] :=
    List.map_injective_iff.2 (Option.some_injective _) (hvs.symm.trans hparts)
  obtain rfl : (⟨7, 1⟩ : Marked) = v := Option.some.inj hv
  refine ⟨db, hreachable, f, hf, hparts, hbound, hunbound, hresult, ?_, ?_⟩
  · rw [hq]
    exact hbinds.value?_eq _ _ hbound
  · rw [hq]
    exact hvalue

end Database

end Hornbase
