import Hornbase.Proofs.Duplicates
import Hornbase.Proofs.Explanation

/-!
# The head positions of a resolved rule

When a rule has proved a call, each variable of its head that is bound has given an equal value to
every argument at its positions, at once or when its value was copied back. A variable that is still
unbound has done nothing at all. The arguments at its positions were unbound before the call and are
not linked to each other, so each of them is unbound afterwards, unless it stands at a position of
another operand as well and gets its value there.

A value can reach an argument in two ways only: from a bound operand when the rule is entered, or
from a pair that was put off when the rule is left. The body has no access to it
(`along_untouched`).
-/

namespace Hornbase

universe u v

variable {N : Type u} {V : Type v}

/-! ## Where a value comes from -/

namespace Store

variable [BEq V] {s s' : Store V} {t : TermId} {pairs putOff : List (TermId × TermId)}

/-- A term that binding has reached is bound. -/
theorem value?_bind_ne_none {v : V} (h : s.bind t v = some s') : s'.value? t ≠ none := by
  rw [value?_bind h, if_pos rfl]
  cases s.value? t <;> nofun

/-- Only a term of a pair whose two sides are bound in the end is changed by unifying. -/
theorem exists_pair_of_unify (h : unify pairs s = some (s', putOff))
    (hne : s'.value? t ≠ s.value? t) :
    ∃ x ∈ pairs, (t = x.1 ∨ t = x.2) ∧ s'.value? x.1 ≠ none ∧ s'.value? x.2 ≠ none := by
  induction pairs generalizing s putOff with
  | nil =>
    obtain ⟨rfl, -⟩ := Prod.mk.inj (Option.some.inj h)
    exact absurd rfl hne
  | cons pair rest ih =>
    obtain ⟨part, arg⟩ := pair
    -- A pair that changes nothing about `t` leaves the choice to the later ones.
    have later : ∀ {s₁ : Store V} {putOff' : List (TermId × TermId)},
        unify rest s₁ = some (s', putOff') → s₁.value? t = s.value? t →
        ∃ x ∈ (part, arg) :: rest,
          (t = x.1 ∨ t = x.2) ∧ s'.value? x.1 ≠ none ∧ s'.value? x.2 ≠ none := by
      intro s₁ putOff' hrest hsame
      obtain ⟨x, hx, hboth⟩ := ih hrest (by rwa [hsame])
      exact ⟨x, List.mem_cons_of_mem _ hx, hboth⟩
    obtain ⟨v, s₁, hpart, hbind, hrest⟩ | ⟨w, s₁, harg, hbind, hrest⟩ | ⟨-, -, pairs, -, hrest⟩ :=
      unify_cons_cases h
    · -- The argument gets the part's value. If `t` is the argument, this is the pair.
      by_cases hta : t = arg
      · have hgrow := (unify_grows hrest).1
        refine ⟨(part, arg), List.mem_cons_self .., .inr hta, fun hnone => ?_, fun hnone => ?_⟩
        · rw [((bind_grows hbind).1.trans hgrow).value?_eq_none hnone] at hpart
          cases hpart
        · exact value?_bind_ne_none hbind (hgrow.value?_eq_none hnone)
      · exact later hrest (bind_value?_of_ne hbind hta)
    · -- The same with the sides exchanged.
      by_cases htp : t = part
      · have hgrow := (unify_grows hrest).1
        refine ⟨(part, arg), List.mem_cons_self .., .inl htp, fun hnone => ?_, fun hnone => ?_⟩
        · exact value?_bind_ne_none hbind (hgrow.value?_eq_none hnone)
        · rw [((bind_grows hbind).1.trans hgrow).value?_eq_none hnone] at harg
          cases harg
      · exact later hrest (bind_value?_of_ne hbind htp)
    · exact later hrest rfl

/-- Only an argument whose part is bound is changed by copying back. -/
theorem exists_pair_of_copyBack (h : copyBack pairs s = some s') (hne : s'.value? t ≠ s.value? t) :
    ∃ x ∈ pairs, t = x.2 ∧ s'.value? x.1 ≠ none := by
  induction pairs generalizing s with
  | nil =>
    obtain rfl := Option.some.inj h
    exact absurd rfl hne
  | cons pair rest ih =>
    obtain ⟨part, arg⟩ := pair
    obtain ⟨-, hrest⟩ | ⟨v, s₁, hpart, hbind, hrest⟩ := copyBack_cons_cases h
    · obtain ⟨x, hx, hboth⟩ := ih hrest hne
      exact ⟨x, List.mem_cons_of_mem _ hx, hboth⟩
    · by_cases hta : t = arg
      · refine ⟨(part, arg), List.mem_cons_self .., hta, fun hnone => ?_⟩
        rw [((bind_grows hbind).1.trans (copyBack_grows hrest).1).value?_eq_none hnone] at hpart
        cases hpart
      · obtain ⟨x, hx, hboth⟩ := ih hrest (by rwa [bind_value?_of_ne hbind hta])
        exact ⟨x, List.mem_cons_of_mem _ hx, hboth⟩

end Store

/-! ## Leaving a rule -/

variable [BEq V] {prog : Program N} {p : Pool V} {r : Rule N} {args : List TermId}
  {s entered proved s' : Store V} {pairs : List (TermId × TermId)}

/-- Copying back leaves the terms of the frame alone. -/
theorem value?_frame_of_copyBack (hargs : ∀ t ∈ args, t.index < s.length)
    (henter : s.enter r args = some (entered, pairs))
    (hcopied : Store.copyBack pairs proved = some s') (n : Nat) :
    s'.value? ((r.frameAt s.length).nth n) = proved.value? ((r.frameAt s.length).nth n) := by
  refine Store.copyBack_value?_of_ne hcopied fun x hx heq => ?_
  have harg := hargs x.2 (List.of_mem_zip (Store.unify_putOff henter x hx).1).2
  rw [← heq] at harg
  exact absurd harg (Nat.not_lt.2 (Nat.le_add_right s.length n))

/-- A head position as a pair of an operand and an argument. -/
theorem exists_param_of_mem {frame : Frame} {x : TermId × TermId}
    (hx : x ∈ (r.params.map frame.term).zip args) :
    ∃ o, (o, x.2) ∈ r.params.zip args ∧ frame.term o = x.1 := by
  rw [List.zip_map_left] at hx
  obtain ⟨⟨o, arg⟩, ho, rfl⟩ := List.mem_map.1 hx
  exact ⟨o, ho, rfl⟩

/-- An argument that a rule binds stands at a position whose operand is bound when the rule is
left. -/
theorem exists_param_of_bound (hr : r.Valid p) (hbase : Store.GrowsTo p.values s)
    (henter : s.enter r args = some (entered, pairs)) (hbody : entered.GrowsTo proved)
    (huntouched : ∀ t : TermId, t.index < s.length → s.value? t = none → entered.value? t = none →
      proved.value? t = none)
    (hcopied : Store.copyBack pairs proved = some s') {a : TermId} (hlt : a.index < s.length)
    (ha : s.value? a = none) (hbound : s'.value? a ≠ none) :
    ∃ o, (o, a) ∈ r.params.zip args ∧ s'.value? ((r.frameAt s.length).term o) ≠ none := by
  have hcopy := (Store.copyBack_grows hcopied).1
  by_cases hsame : s'.value? a = proved.value? a
  · -- It was bound when the rule was entered.
    have hentered : entered.value? a ≠ none :=
      fun hnone => hbound (hsame.trans (huntouched a hlt ha hnone))
    have hstart : Store.value? (s ++ List.replicate r.locals.length none) a = none := by
      rw [Store.value?_append_replicate, ha]
    obtain ⟨x, hx, hside, hpart, -⟩ :=
      Store.exists_pair_of_unify henter (t := a) (by rwa [hstart])
    obtain ⟨o, ho, hox⟩ := exists_param_of_mem hx
    have hne : a ≠ x.1 := by
      rw [← hox]
      exact (hr.params o (List.of_mem_zip ho).1).ne_term hbase ha hlt
    -- The head's side of the pair is a constant or lies in the frame, so `a` is the argument.
    obtain rfl := hside.resolve_left hne
    refine ⟨o, ho, fun hnone => hpart ?_⟩
    rw [hox] at hnone
    exact (hbody.trans hcopy).value?_eq_none hnone
  · -- It was bound when the values were copied back.
    obtain ⟨x, hx, rfl, hpart⟩ := Store.exists_pair_of_copyBack hcopied hsame
    obtain ⟨o, ho, hox⟩ := exists_param_of_mem (Store.unify_putOff henter x hx).1
    exact ⟨o, ho, hox ▸ hpart⟩

/-- Whether `t` also stands at a head position whose operand is not `o`. -/
def Rule.AlsoAt (r : Rule N) (args : List TermId) (o : Operand) (t : TermId) : Prop :=
  ∃ (k : Nat) (o' : Operand), r.params[k]? = some o' ∧ args[k]? = some t ∧ o' ≠ o

/-- What is left at the head positions of a rule if its variables hold `held` in the end, by the
values of terms before the call and after it. -/
structure Rule.Leaves (r : Rule N) (args : List TermId) (held : Nat → Option V)
    (before after : TermId → Option V) : Prop where
  /-- The argument at a bound variable has got its value. -/
  bound : ∀ n v a, held n = some v → (.var n, a) ∈ r.params.zip args →
    ∃ w, after a = some w ∧ (v == w) = true
  /-- The argument at an unbound variable was unbound, and has got nothing there. -/
  unbound : ∀ n a, held n = none → (.var n, a) ∈ r.params.zip args →
    before a = none ∧ (after a = none ∨ r.AlsoAt args (.var n) a)
  /-- The argument at a constant holds its value. -/
  const : ∀ c a, (.const c, a) ∈ r.params.zip args →
    ∃ v w, before c = some v ∧ after a = some w ∧ (v == w) = true

variable [EquivBEq V]

/-- An argument at a variable that is never bound was unbound. -/
theorem value?_eq_none_of_frame (henter : s.enter r args = some (entered, pairs))
    (hgrow : entered.GrowsTo s') {n : Nat} {a : TermId} (ha : (.var n, a) ∈ r.params.zip args)
    (hnone : s'.value? ((r.frameAt s.length).nth n) = none) : s.value? a = none := by
  have hhead : ((r.frameAt s.length).nth n, a) ∈
      (r.params.map (r.frameAt s.length).term).zip args := by
    rw [List.zip_map_left]
    exact List.mem_map_of_mem ha
  have hput : ((r.frameAt s.length).nth n, a) ∈ pairs := by
    refine (Store.unify_agree henter _ hhead).resolve_right fun ⟨v, _, hv, _⟩ => ?_
    rw [hgrow.value?_eq hv] at hnone
    cases hnone
  have hunbound := (Store.unify_putOff henter _ hput).2.2
  rwa [Store.value?_append_replicate] at hunbound

/-- A rule that has proved a call leaves its head positions as the values of its variables call
for. -/
theorem exists_leaves (hvalid : prog.Valid p) (hbase : Store.GrowsTo p.values s)
    (hargs : ∀ t ∈ args, t.index < s.length) {id : ClauseId}
    (hclause : prog.clause? id = some (.rule r)) {b : Branch}
    (h : prog.viaClause id (prog.along b) args s = some s') :
    ∃ held, r.Leaves args held s.value? s'.value? := by
  obtain ⟨_, _, hfact, -⟩ |
    ⟨r', entered, pairs, proved, hclause', harity, henter, hproved, hcopied⟩ :=
    Program.viaClause_cases h
  · rw [hclause] at hfact
    cases hfact
  obtain rfl := Clause.rule.inj (Option.some.inj (hclause.symm.trans hclause'))
  have hr := hvalid.rule hclause
  have hentered := (Store.enter_grows henter).1
  have hbody := Program.along_grows hproved
  have hcopy := (Store.copyBack_grows hcopied).1
  refine ⟨fun n => s'.value? ((r.frameAt s.length).nth n), fun n v a hv hx => ?_,
    fun n a hnone hx => ?_, fun c a hx => ?_⟩
  · -- A variable that ends bound agrees with each argument it stands opposite to.
    rw [value?_frame_of_copyBack hargs henter hcopied] at hv
    obtain ⟨v', w, hv', hw, heq⟩ := Store.agree_of_rule henter hbody hcopied hx hv
    obtain rfl : v = v' := Option.some.inj ((hcopy.value?_eq hv).symm.trans hv')
    exact ⟨w, hw, heq⟩
  · -- A variable that ends unbound: an argument opposite to it was bound, if at all, elsewhere.
    have ha := value?_eq_none_of_frame henter (hbody.trans hcopy) hx hnone
    refine ⟨ha, or_iff_not_imp_left.2 fun hbound => ?_⟩
    have hlt := hargs a (List.of_mem_zip hx).2
    obtain ⟨o, ho, hsome⟩ := exists_param_of_bound hr hbase henter hbody
      (fun t ht hstart hunbound => along_untouched hvalid (hbase.trans hentered) hproved
        (Nat.lt_of_lt_of_le ht hentered.length_le) hunbound
        (hr.not_mem_args (hbase.trans hentered) hunbound ht)) hcopied hlt ha hbound
    obtain ⟨k, hk⟩ := List.getElem?_of_mem ho
    obtain ⟨hparam, harg⟩ := List.getElem?_zip_eq_some.1 hk
    refine ⟨k, o, hparam, harg, ?_⟩
    rintro rfl
    exact hsome hnone
  · -- A constant of the head keeps its value, and the argument agrees with it.
    obtain ⟨v, hv⟩ := (hr.params _ (List.of_mem_zip hx).1).exists_value?
    have hstart : s.value? c = some v := hbase.value?_eq (by rwa [Pool.value?_values])
    have hlast : proved.value? c = some v := (hentered.trans hbody).value?_eq hstart
    obtain ⟨v', w, hv', hw, heq⟩ := Store.agree_of_rule henter hbody hcopied hx hlast
    obtain rfl : v = v' := Option.some.inj ((hcopy.value?_eq hlast).symm.trans hv')
    exact ⟨v, w, hstart, hw, heq⟩

namespace Database

variable [DecidableEq N] {db : Database N V} {c : ClauseId} {rounds : Nat} {o : Outcome N V Bool}

omit [EquivBEq V] in
/-- A rule that is resolved has accepted its arguments and proves the call along a branch. What is
kept are the values at its end. -/
theorem exists_branch_of_resolve (hvalid : db.Valid) (hr : db.program.rule? c = some r)
    (ho : db.resolve rounds c args = some o) (htrue : o.result = true) :
    db.argsFault? r.arity args = none ∧ ∃ b s,
      db.program.viaClause c (db.program.along b) args db.pool.values = some s ∧
        ∀ t : TermId, t.index < db.pool.size → o.db.value? t = s.value? t := by
  simp only [resolve, hr] at ho
  split at ho
  · obtain rfl := Option.some.inj ho
    cases htrue
  · next haccepted =>
    have hspec := prove_spec hvalid (of_argsFault?_eq_none haccepted).2 ho
    rw [List.flatMap_singleton,
      Program.byClause_eq fun inner _ => db.program.meaning_goals inner] at hspec
    split at hspec
    · -- Without a branch the answer is no.
      rw [hspec.1] at htrue
      cases htrue
    · next s rest hfound =>
      obtain ⟨-, q, -, rfl, hdb⟩ := hspec
      have hmem := List.mem_cons_self (a := q.values) (l := rest)
      rw [← hfound] at hmem
      obtain ⟨b, -, hb⟩ := List.mem_filterMap.1 hmem
      refine ⟨haccepted, b, _, hb, fun t ht => ?_⟩
      rw [hdb, Pool.value?_values]
      exact Pool.value?_kept ht

/-- After a rule is resolved, two arguments at the same variable of its head hold equal values, or
both were unbound before; then each of them is unbound still, unless it also stands at a position of
another operand. An argument at a constant holds an equal value. -/
theorem heads_agree_of_resolve (hdb : db.Reachable) (hr : db.program.rule? c = some r)
    (ho : db.resolve rounds c args = some o) (htrue : o.result = true) :
    args.length = r.arity ∧
      (∀ (i j n : Nat) (a b : TermId), r.params[i]? = some (.var n) →
        r.params[j]? = some (.var n) → args[i]? = some a → args[j]? = some b →
        (∃ v w, o.db.value? a = some v ∧ o.db.value? b = some w ∧ (v == w) = true) ∨
          db.value? a = none ∧ db.value? b = none ∧
            (o.db.value? a = none ∨ r.AlsoAt args (.var n) a) ∧
            (o.db.value? b = none ∨ r.AlsoAt args (.var n) b)) ∧
      ∀ (i : Nat) (t a : TermId), r.params[i]? = some (.const t) → args[i]? = some a →
        ∃ v w, db.value? t = some v ∧ o.db.value? a = some w ∧ (w == v) = true := by
  obtain ⟨haccepted, b, s, hs, hkept⟩ := exists_branch_of_resolve hdb.valid hr ho htrue
  obtain ⟨hlength, hargs⟩ := of_argsFault?_eq_none haccepted
  obtain ⟨held, hbound, hunbound, hconst⟩ := exists_leaves hdb.valid (.refl _)
    (by simpa using hargs) (Program.clause?_of_rule? hr) hs
  have hat : ∀ {i : Nat} {o' : Operand} {a : TermId}, r.params[i]? = some o' → args[i]? = some a →
      (o', a) ∈ r.params.zip args ∧ o.db.value? a = s.value? a := fun ho' ha =>
    ⟨List.mem_of_getElem? (List.getElem?_zip_eq_some.2 ⟨ho', ha⟩),
      hkept _ (hargs _ (List.mem_of_getElem? ha))⟩
  refine ⟨hlength, fun i j n a b hi hj ha hb => ?_, fun i t a hi ha => ?_⟩
  · obtain ⟨hia, hvalue⟩ := hat hi ha
    obtain ⟨hjb, hvalue'⟩ := hat hj hb
    rw [hvalue, hvalue']
    -- Whether the terms agree depends on the variable's cell in the frame at the end.
    cases hheld : held n with
    | some v =>
      obtain ⟨w, hw, hvw⟩ := hbound n v a hheld hia
      obtain ⟨w', hw', hvw'⟩ := hbound n v b hheld hjb
      exact .inl ⟨w, w', hw, hw', BEq.trans (BEq.symm hvw) hvw'⟩
    | none =>
      obtain ⟨hbefore, hafter⟩ := hunbound n a hheld hia
      obtain ⟨hbefore', hafter'⟩ := hunbound n b hheld hjb
      rw [Pool.value?_values] at hbefore hbefore'
      exact .inr ⟨hbefore, hbefore', hafter, hafter'⟩
  · obtain ⟨hia, hvalue⟩ := hat hi ha
    obtain ⟨v, w, hv, hw, heq⟩ := hconst t a hia
    rw [Pool.value?_values] at hv
    exact ⟨v, w, hv, hvalue.trans hw, BEq.symm heq⟩

/-- A rule whose head repeats a variable and has a constant, and whose body binds the variable. One
argument stands at both kinds of positions. The two arguments hold values that are equal and not the
same. -/
theorem heads_agree_of_resolve_repeated_argument :
    ∃ db : Database Nat Marked, db.Reachable ∧ ∃ r o, db.program.rule? ⟨1⟩ = some r ∧
      r.params = [.var 0, .var 0, .const ⟨2⟩] ∧
      db.resolve 20 ⟨1⟩ [⟨3⟩, ⟨4⟩, ⟨4⟩] = some o ∧ o.result = true ∧
      o.db.value? ⟨3⟩ = some ⟨7, 0⟩ ∧ o.db.value? ⟨4⟩ = some ⟨7, 1⟩ ∧
      (∃ v w, o.db.value? ⟨3⟩ = some v ∧ o.db.value? ⟨4⟩ = some w ∧ (v == w) = true) ∧
      ∃ v w, db.value? ⟨2⟩ = some v ∧ o.db.value? ⟨4⟩ = some w ∧ (w == v) = true := by
  obtain ⟨db, hreachable, hrule, hresolve⟩ := exists_reachable ⟨none, true⟩ 0
    [.addFact 0 [⟨7, 0⟩], .addRule 1 [.fresh, .param 0, .value ⟨7, 1⟩], .addGoal ⟨1⟩ 0 [.param 0],
      .addVar, .addVar]
    (fun db : Database Nat Marked =>
      ((db.program.rule? ⟨1⟩).any fun r =>
        decide (r.params = [.var 0, .var 0, .const ⟨2⟩])) = true ∧
      ((db.resolve 20 ⟨1⟩ [⟨3⟩, ⟨4⟩, ⟨4⟩]).any fun o => decide (o.result = true ∧
        o.db.value? ⟨3⟩ = some ⟨7, 0⟩ ∧ o.db.value? ⟨4⟩ = some ⟨7, 1⟩)) = true)
    (by decide +kernel)
  obtain ⟨r, hr, hparams⟩ := (Option.any_eq_true _ _).1 hrule
  have hparams := of_decide_eq_true hparams
  obtain ⟨o, ho, hafter⟩ := (Option.any_eq_true _ _).1 hresolve
  obtain ⟨htrue, hthree, hfour⟩ := of_decide_eq_true hafter
  obtain ⟨-, hvars, hconsts⟩ := heads_agree_of_resolve hreachable hr ho htrue
  rw [hparams] at hvars hconsts
  refine ⟨db, hreachable, r, o, hr, hparams, ho, htrue, hthree, hfour, ?_,
    hconsts 2 ⟨2⟩ ⟨4⟩ rfl rfl⟩
  rcases hvars 0 1 0 ⟨3⟩ ⟨4⟩ rfl rfl rfl rfl with hequal | ⟨-, -, hnone | halso, -⟩
  · exact hequal
  · rw [hthree] at hnone
    cases hnone
  · -- The first argument stands at one position only.
    obtain ⟨k, o', hk, hthird, hne⟩ := halso
    rw [hparams] at hk
    match k with
    | 0 => exact absurd (Option.some.inj hk).symm hne
    | 1 | 2 => exact absurd (Option.some.inj hthird) (by decide)
    | _ + 3 => cases hthird

/-- Two arguments at the same variable that come apart. Nothing binds the variable, and the second
argument gets its value at its other position. -/
theorem not_heads_agree :
    ∃ db : Database Nat Nat, db.Reachable ∧ ∃ r o, db.program.rule? ⟨1⟩ = some r ∧
      r.params = [.var 0, .var 0, .var 1] ∧ db.resolve 20 ⟨1⟩ [⟨3⟩, ⟨4⟩, ⟨4⟩] = some o ∧
      o.result = true ∧ o.db.value? ⟨3⟩ = none ∧ o.db.value? ⟨4⟩ = some 7 := by
  obtain ⟨db, hreachable, hrule, hresolve⟩ := exists_reachable ⟨none, true⟩ 0
    [.addFact 0 [7], .addRule 1 [.fresh, .param 0, .fresh], .addGoal ⟨1⟩ 0 [.param 2], .addVar,
      .addVar]
    (fun db : Database Nat Nat =>
      ((db.program.rule? ⟨1⟩).any fun r => decide (r.params = [.var 0, .var 0, .var 1])) = true ∧
      ((db.resolve 20 ⟨1⟩ [⟨3⟩, ⟨4⟩, ⟨4⟩]).any fun o =>
        decide (o.result = true ∧ o.db.value? ⟨3⟩ = none ∧ o.db.value? ⟨4⟩ = some 7)) = true)
    (by decide +kernel)
  obtain ⟨r, hr, hparams⟩ := (Option.any_eq_true _ _).1 hrule
  obtain ⟨o, ho, hafter⟩ := (Option.any_eq_true _ _).1 hresolve
  exact ⟨db, hreachable, r, o, hr, of_decide_eq_true hparams, ho, of_decide_eq_true hafter⟩

end Database

end Hornbase
