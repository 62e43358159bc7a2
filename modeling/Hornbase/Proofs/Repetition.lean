import Hornbase.Proofs.Grounding
import Hornbase.Proofs.Monotonicity
import Hornbase.Proofs.Queries

/-!
# Asking again

After a query has succeeded its arguments hold the answer, so the same query asked again starts with
more terms bound and compares values that were only copied before. It goes through the same
branches. A branch that succeeds from the answer would have succeeded from the start, so none comes
before the branch of the answer; and that branch, if it is settled, explains what it has left, so it
succeeds again and finds nothing to bind.

A branch that is not settled need not verify itself. Two arguments at one unbound variable are not
linked when the rule is done, and can come to hold different values.
-/

namespace Hornbase

universe u v

variable {N : Type u} {V : Type v} {prog : Program N} {p : Pool V} {depth : Nat} {name : N}
  {args : List TermId} {s s' : Store V}

/-- What is kept of a store that has grown out of a pool has grown out of it too. -/
theorem growsTo_take (h : Store.GrowsTo p.values s) : Store.GrowsTo p.values (s.take p.size) := by
  have htake := h.take
  rwa [Pool.length_values] at htake

/-! ## The first branch that succeeds -/

variable [DecidableEq N] [BEq V]

/-- The first branch through a call that succeeds, and the store at its end. -/
def Program.firstBranch? (prog : Program N) (depth : Nat) (name : N) (args : List TermId)
    (s : Store V) : Option (Branch × Store V) :=
  (prog.branches depth [name]).findSome? fun b => (prog.through b name args s).map (b, ·)

/-- Whether the first branch through a call is settled, for the values that it leaves. -/
def Program.FirstSettled (prog : Program N) (depth : Nat) (name : N) (args : List TermId)
    (s : Store V) : Prop :=
  ∀ b s', prog.firstBranch? depth name args s = some (b, s') →
    prog.Settled s'.value? b ⟨0, 0⟩ [⟨name, args.map .const⟩] s

/-- The branches before the first that succeeds fail. -/
theorem Program.firstBranch?_eq_some_iff {b : Branch} :
    prog.firstBranch? depth name args s = some (b, s') ↔ ∃ before after,
      prog.branches depth [name] = before ++ b :: after ∧ prog.through b name args s = some s' ∧
        ∀ c ∈ before, prog.through c name args s = none := by
  simp only [firstBranch?, List.findSome?_eq_some_iff, Option.map_eq_none_iff,
    Option.map_eq_some_iff, Prod.mk.injEq]
  constructor
  · rintro ⟨before, c, after, hsplit, ⟨_, hc, rfl, rfl⟩, hbefore⟩
    exact ⟨before, after, hsplit, hc, hbefore⟩
  · rintro ⟨before, after, hsplit, hb, hbefore⟩
    exact ⟨before, b, after, hsplit, ⟨s', hb, rfl, rfl⟩, hbefore⟩

/-- The first store that the interpreter lists is at the end of the first branch that succeeds. -/
theorem Program.head?_meaning : (prog.meaning depth name args s).head?
    = (prog.firstBranch? depth name args s).map (·.2) := by
  rw [meaning_eq_filterMap, List.head?_filterMap, firstBranch?, List.map_findSome?]
  congr 1
  funext b
  simp [Function.comp_def]

/-- A search that has found a store has a first branch. -/
theorem Program.exists_firstBranch? {rest : List (Store V)}
    (h : prog.meaning depth name args s = s' :: rest) :
    ∃ b, prog.firstBranch? depth name args s = some (b, s') := by
  have hhead : (prog.firstBranch? depth name args s).map (·.2) = some s' := by
    rw [← head?_meaning, h, List.head?_cons]
  obtain ⟨⟨b, _⟩, hfirst, rfl⟩ := Option.map_eq_some_iff.1 hhead
  exact ⟨b, hfirst⟩

/-- A search with a first branch finds the store at its end first. -/
theorem Program.exists_meaning_cons {b : Branch}
    (h : prog.firstBranch? depth name args s = some (b, s')) :
    ∃ rest, prog.meaning depth name args s = s' :: rest := by
  have hhead : (prog.meaning depth name args s).head? = some s' := by
    rw [head?_meaning, h, Option.map_some]
  exact List.head?_eq_some_iff.1 hhead

namespace Database

/-- A bounded query that succeeds keeps the store at the end of the first branch. -/
theorem firstBranch?_of_query {db : Database N V} (hvalid : db.Valid) {limit : Nat}
    (hlimit : db.config.maxDepth = some limit) {arity rounds : Nat} {o : Outcome N V Bool}
    (ho : db.query rounds name arity args = some o) (htrue : o.result = true) :
    db.argsFault? arity args = none ∧ ∃ b q,
      db.program.firstBranch? limit name args db.pool.values = some (b, q.values) ∧
        db.pool.GrowsTo q ∧ o.db = { db with pool := db.pool.kept q } := by
  -- A refused request answers no.
  have haccepted : db.argsFault? arity args = none := by
    obtain ⟨-, hfalse, -⟩ | ⟨haccepted, -⟩ := query_eq_some ho
    · rw [hfalse] at htrue
      cases htrue
    · exact haccepted
  have hspec := query_spec hvalid haccepted ho
  rw [hlimit] at hspec
  split at hspec
  · rw [hspec.1] at htrue
    cases htrue
  · next hmeaning =>
    obtain ⟨-, q, hgrows, rfl, hdb⟩ := hspec
    obtain ⟨b, hfirst⟩ := Program.exists_firstBranch? hmeaning
    exact ⟨haccepted, b, q, hfirst, hgrows, hdb⟩

/-- A bounded query succeeds if some branch does, and keeps the store at the end of the first. -/
theorem query_of_firstBranch? {db : Database N V} (hvalid : db.Valid) {limit : Nat}
    (hlimit : db.config.maxDepth = some limit) {arity : Nat}
    (haccepted : db.argsFault? arity args = none) {b : Branch}
    (hfirst : db.program.firstBranch? limit name args db.pool.values = some (b, s)) {rounds : Nat}
    {o : Outcome N V Bool} (ho : db.query rounds name arity args = some o) :
    o.result = true ∧ ∃ q, db.pool.GrowsTo q ∧ q.values = s ∧
      o.db = { db with pool := db.pool.kept q } := by
  obtain ⟨rest, hmeaning⟩ := Program.exists_meaning_cons hfirst
  have hspec := query_spec hvalid haccepted ho
  rwa [hlimit, Option.getD_some, hmeaning] at hspec

end Database

variable [EquivBEq V]

/-- If calls bind all variables that heads repeat, the first branch is settled. -/
theorem Program.BindsRepeats.firstSettled (h : prog.BindsRepeats) (hvalid : prog.Valid p) :
    prog.FirstSettled depth name args p.values := by
  intro b s hfirst
  obtain ⟨before, after, hsplit, -, -⟩ := Program.firstBranch?_eq_some_iff.1 hfirst
  have hb : b ∈ prog.branches depth [name] := by
    rw [hsplit]
    exact List.mem_append_right _ (List.mem_cons_self ..)
  exact h.settled hvalid hb (.refl _) _

/-! ## From the answer -/

omit [DecidableEq N] in
/-- A settled branch succeeds again from the part of its store that is kept, and gives the terms of
the pool the same values. -/
theorem through_again (hvalid : prog.Valid p) (hargs : ∀ t ∈ args, t.index < p.size) {b : Branch}
    (hsettled : prog.Settled s.value? b ⟨0, 0⟩ [⟨name, args.map .const⟩] p.values)
    (h : prog.through b name args p.values = some s) :
    ∃ s', prog.through b name args (s.take p.size) = some s' ∧
      ∀ t : TermId, t.index < p.size → s'.value? t = s.value? t := by
  have hgrow : Store.GrowsTo p.values s := Program.along_grows h
  have hkept := growsTo_take hgrow
  have hlength : p.size ≤ (s.take p.size).length := by simpa using hkept.length_le
  -- The values at the end label the terms, and the arguments now have those values.
  have hfits : Store.Fits p (s.take p.size) s.value? := by
    refine ⟨hkept, (Store.Fits.self hgrow).fixed, ⟨fun {t v} hv => ⟨v, ?_, BEq.refl v⟩⟩⟩
    rw [Store.value?_take] at hv
    split at hv
    · exact hv
    · cases hv
  obtain ⟨s', label, hagain, hfits', -, hlabel⟩ := through_of_supports hvalid hfits
    (fun t ht => Nat.lt_of_lt_of_le (hargs t ht) hlength)
    (supports_of_through hvalid hsettled (.refl _) h)
  refine ⟨s', hagain, fun t ht => ?_⟩
  have hstart : Store.value? (s.take p.size) t = s.value? t := by
    rw [Store.value?_take, if_pos ht]
  cases hv : s.value? t with
  | some v => exact (Program.along_grows hagain).value?_eq (hstart.trans hv)
  | none =>
    -- What was unbound has no label, so it cannot get a value now.
    cases hv' : s'.value? t with
    | none => rfl
    | some v =>
      obtain ⟨w, hw, -⟩ := hfits'.within.value hv'
      rw [hlabel t (Nat.lt_of_lt_of_le ht hlength), hv] at hw
      cases hw

/-- What a search starts from is below what is kept of a store that it leads to. -/
theorem below_take (hgrow : Store.GrowsTo p.values s) : Store.Below p.values (s.take p.size) := by
  have hkept := growsTo_take hgrow
  have hsize : p.size ≤ s.length := by simpa using hgrow.length_le
  refine ⟨?_, ⟨fun {t v} hv => ⟨v, hkept.value?_eq hv, BEq.refl v⟩⟩⟩
  rw [Pool.length_values, List.length_take, Nat.min_eq_left hsize]

/-- The first branch that succeeds, if it is settled, is also the first that succeeds from what is
kept of its store, and it gives the terms of the pool the same values. -/
theorem firstBranch?_again (hvalid : prog.Valid p) (hargs : ∀ t ∈ args, t.index < p.size)
    {b : Branch} (hsettled : prog.Settled s.value? b ⟨0, 0⟩ [⟨name, args.map .const⟩] p.values)
    (h : prog.firstBranch? depth name args p.values = some (b, s)) :
    ∃ s', prog.firstBranch? depth name args (s.take p.size) = some (b, s') ∧
      ∀ t : TermId, t.index < p.size → s'.value? t = s.value? t := by
  obtain ⟨before, after, hsplit, hthrough, hbefore⟩ := Program.firstBranch?_eq_some_iff.1 h
  obtain ⟨s', hagain, hsame⟩ := through_again hvalid hargs hsettled hthrough
  refine ⟨s', Program.firstBranch?_eq_some_iff.2 ⟨before, after, hsplit, hagain, ?_⟩, hsame⟩
  intro c hc
  cases hother : prog.through c name args (s.take p.size) with
  | none => rfl
  | some s₁ =>
    -- It would have succeeded from the start, where nothing is bound that is not bound here.
    have hbelow := below_take (Program.along_grows hthrough)
    obtain ⟨_, hstart, -⟩ := through_of_below hvalid (.refl _) hbelow
      (by rw [Pool.length_values]; exact hargs) hother
    rw [hbefore c hc] at hstart
    cases hstart

namespace Database

/-- A bounded query that succeeded by a settled branch succeeds again at once and changes nothing.
-/
theorem query_again_of_firstSettled {db : Database N V} (h : db.Reachable) {limit : Nat}
    (hlimit : db.config.maxDepth = some limit) {name : N} {arity : Nat} {args : List TermId}
    (hsettled : db.program.FirstSettled limit name args db.pool.values) {rounds : Nat}
    {o : Outcome N V Bool} (ho : db.query rounds name arity args = some o)
    (htrue : o.result = true) :
    (∃ rounds' o', o.db.query rounds' name arity args = some o') ∧
      ∀ rounds' o', o.db.query rounds' name arity args = some o' →
        o'.result = true ∧ o'.db = o.db := by
  -- The program, the limit and the known terms are those of the first time.
  obtain ⟨haccepted, b, q, hfirst, hgrows, hdb⟩ := firstBranch?_of_query h.valid hlimit ho htrue
  have hsize := Pool.size_kept hgrows
  have hvalid' : o.db.Valid := by
    rw [hdb]
    exact (Edit.pool hgrows.keeps_kept).valid h.valid
  have hlimit' : o.db.config.maxDepth = some limit := by rw [hdb, hlimit]
  have haccepted' : o.db.argsFault? arity args = none := by
    rw [hdb]
    simpa only [argsFault?, Pool.contains, hsize] using haccepted
  -- The branch that answered goes through again, and the earlier ones still fail.
  obtain ⟨s', hfirst', hsame⟩ := firstBranch?_again h.valid (of_argsFault?_eq_none haccepted).2
    (hsettled b _ hfirst) hfirst
  have hagain : o.db.program.firstBranch? limit name args o.db.pool.values = some (b, s') := by
    rw [hdb, Pool.values_kept]
    exact hfirst'
  refine ⟨exists_query hvalid' hlimit' haccepted', fun rounds' o' ho' => ?_⟩
  obtain ⟨htrue', q', hgrows', rfl, hdb'⟩ :=
    query_of_firstBranch? hvalid' hlimit' haccepted' hagain ho'
  -- It gives every known term the value it has, so nothing is left of the second query.
  have hpool : o.db.pool.kept q' = o.db.pool := by
    refine Pool.kept_eq_of_values hgrows' fun t ht => ?_
    rw [hdb] at ht ⊢
    rw [hsize] at ht
    have hvalue := hsame t ht
    rw [Pool.value?_values, Pool.value?_values] at hvalue
    exact hvalue.trans (Pool.value?_kept ht).symm
  rw [hpool] at hdb'
  exact ⟨htrue', hdb'⟩

/-- A bounded query that succeeded by a settled branch can be asked again. All are of this kind
where calls bind the variables that heads repeat: so if the program is range-restricted, and if its
heads repeat no variable. -/
theorem query_again {db : Database N V} (h : db.Reachable) {limit : Nat}
    (hlimit : db.config.maxDepth = some limit) (name : N) (arity : Nat) (args : List TermId) :
    (db.program.FirstSettled limit name args db.pool.values →
      ∀ rounds o, db.query rounds name arity args = some o → o.result = true →
        (∃ rounds' o', o.db.query rounds' name arity args = some o') ∧
          ∀ rounds' o', o.db.query rounds' name arity args = some o' →
            o'.result = true ∧ o'.db = o.db) ∧
      (db.program.BindsRepeats → db.program.FirstSettled limit name args db.pool.values) ∧
      (db.program.RangeRestricted → db.program.BindsRepeats) ∧
      ((∀ id r, db.program.rule? id = some r → ∀ n, ¬ List.Duplicate (Operand.var n) r.params) →
        db.program.BindsRepeats) :=
  ⟨fun hsettled _ _ ho htrue => query_again_of_firstSettled h hlimit hsettled ho htrue,
    fun hbinds => hbinds.firstSettled h.valid, fun hrange => hrange.bindsRepeats,
    Program.bindsRepeats_of_linear⟩

/-- A rule that repeats a variable in its head and binds it in its body: the query for both
positions can be asked again. -/
theorem query_again_repeated_variable :
    ∃ db : Database Nat Nat, db.Reachable ∧ db.config.maxDepth = some 1 ∧
      db.program.FirstSettled 1 1 [⟨2⟩, ⟨3⟩] db.pool.values ∧
      ∃ o, db.query 9 1 2 [⟨2⟩, ⟨3⟩] = some o ∧ o.result = true ∧
        (∃ rounds o', o.db.query rounds 1 2 [⟨2⟩, ⟨3⟩] = some o') ∧
        ∀ rounds o', o.db.query rounds 1 2 [⟨2⟩, ⟨3⟩] = some o' →
          o'.result = true ∧ o'.db = o.db := by
  obtain ⟨db, hreachable, hlimit, hrange, hquery⟩ := exists_reachable ⟨some 1, false⟩ 0
    [.addFact 0 [5], .addRule 1 [.fresh, .param 0], .addGoal ⟨1⟩ 0 [.param 0], .addVar, .addVar]
    (fun db : Database Nat Nat => db.config.maxDepth = some 1 ∧ db.program.RangeRestricted ∧
      (db.query 9 1 2 [⟨2⟩, ⟨3⟩]).any (·.result) = true)
    (by decide +kernel)
  obtain ⟨o, ho, htrue⟩ := (Option.any_eq_true _ _).1 hquery
  obtain ⟨hagain, hsettles, hbinds, -⟩ := query_again hreachable hlimit 1 2 [⟨2⟩, ⟨3⟩]
  have hsettled : db.program.FirstSettled 1 1 [⟨2⟩, ⟨3⟩] db.pool.values := hsettles (hbinds hrange)
  exact ⟨db, hreachable, hlimit, hsettled, o, ho, htrue, hagain hsettled 9 o ho htrue⟩

/-- An answer that does not verify itself. Relation 0 holds of equal terms and has no body, and 3
holds of a term that is equal to another one of which 1 holds, and of which 2 holds. The first time
both terms are unbound when 0 is called, and they come to hold 2 and 1; the second time they must be
equal. -/
theorem not_repeatable :
    ∃ db : Database Nat Nat, db.Reachable ∧ db.config.maxDepth = some 2 ∧
      db.argsFault? 1 [⟨5⟩] = none ∧ ∃ o o', db.query 20 3 1 [⟨5⟩] = some o ∧ o.result = true ∧
        o.db.query 20 3 1 [⟨5⟩] = some o' ∧ o'.result = false := by
  obtain ⟨db, hreachable, hlimit, haccepted, hquery⟩ := exists_reachable ⟨some 2, true⟩ 0
    [.addRule 0 [.fresh, .param 0], .addFact 1 [2], .addFact 2 [1], .addRule 3 [.fresh],
      .addRuleVar ⟨3⟩, .addGoal ⟨3⟩ 0 [.param 0, .term ⟨4⟩], .addGoal ⟨3⟩ 1 [.term ⟨4⟩],
      .addGoal ⟨3⟩ 2 [.param 0], .addVar]
    (fun db : Database Nat Nat => db.config.maxDepth = some 2 ∧ db.argsFault? 1 [⟨5⟩] = none ∧
      (db.query 20 3 1 [⟨5⟩]).any (fun o =>
        o.result && (o.db.query 20 3 1 [⟨5⟩]).any fun o' => !o'.result) = true)
    (by decide +kernel)
  obtain ⟨o, ho, hboth⟩ := (Option.any_eq_true _ _).1 hquery
  obtain ⟨htrue, hagain⟩ := (Bool.and_eq_true _ _).mp hboth
  obtain ⟨o', ho', hfalse⟩ := (Option.any_eq_true _ _).1 hagain
  exact ⟨db, hreachable, hlimit, haccepted, o, o', ho, htrue, ho', by simpa using hfalse⟩

end Database

end Hornbase
