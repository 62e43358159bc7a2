import Hornbase.Proofs.Branch
import Hornbase.Proofs.Ownership
import Hornbase.Proofs.Queries

/-!
# What a question leaves behind

A search binds arguments of calls and terms of the frames that it lays out. Inside a rule the
arguments of a call are terms of the rule's frame, or constants, which are bound already. So of the
terms that were there before, a whole search can bind those only that it was asked about
(`along_untouched`), and only if they were unbound.

A command that asks something either fails and changes nothing or succeeds and binds some of its
unbound arguments (`Asks.settles`). This holds for any equality of values. That a search without a
limit ends is not shown here.
-/

namespace Hornbase

universe u v

variable {N : Type u} {V : Type v} {p : Pool V} {s s' : Store V} {t : TermId}

/-! ## What a branch binds -/

/-- A fixed term is not an unbound one. -/
theorem Pool.Fixed.ne_of_unbound {part : TermId} (h : p.Fixed part)
    (hbase : Store.GrowsTo p.values s) (ht : s.value? t = none) : t ≠ part := by
  rintro rfl
  obtain ⟨v, hv⟩ := h.exists_value?
  rw [← Pool.value?_values] at hv
  rw [hbase.value?_eq hv] at ht
  cases ht

/-- An unbound term before a frame is no operand of a rule that is entered with the frame. -/
theorem Operand.Valid.ne_term {o : Operand} {k : Nat} (ho : o.Valid p k)
    (hbase : Store.GrowsTo p.values s) (ht : s.value? t = none) {frame : Frame}
    (hlt : t.index < frame.base) : t ≠ frame.term o := by
  cases o with
  | var n =>
    rintro rfl
    exact absurd hlt (Nat.not_lt_of_le (Nat.le_add_right frame.base n))
  | const c => exact Pool.Fixed.ne_of_unbound ho hbase ht

/-- An unbound term before a frame is no argument of the goals of a rule that is entered with the
frame. -/
theorem Rule.Valid.not_mem_args {r : Rule N} (hr : r.Valid p) (hbase : Store.GrowsTo p.values s)
    (ht : s.value? t = none) {frame : Frame} (hlt : t.index < frame.base) :
    ∀ g ∈ r.body, t ∉ g.args.map frame.term := by
  intro g hg hmem
  obtain ⟨o, ho, hot⟩ := List.mem_map.1 hmem
  exact (hr.body g hg o ho).ne_term hbase ht hlt hot.symm

variable [BEq V] {prog : Program N}

/-- A call by a clause leaves an unbound term unbound that is none of its arguments, if the goals of
the clause do. -/
theorem viaClause_untouched (hvalid : prog.Valid p) {id : ClauseId}
    {body : Frame → List (Goal N) → Store V → Option (Store V)} {args : List TermId}
    (hbase : Store.GrowsTo p.values s)
    (hbody : ∀ r frame (s s' : Store V), prog.clause? id = some (.rule r) →
      Store.GrowsTo p.values s → body frame r.body s = some s' → t.index < s.length →
      t.index < frame.base → s.value? t = none → s'.value? t = none)
    (h : prog.viaClause id body args s = some s') (hlt : t.index < s.length)
    (ht : s.value? t = none) (hargs : t ∉ args) : s'.value? t = none := by
  rcases Program.viaClause_cases h with ⟨f, putOff, hclause, -, hunify⟩ |
    ⟨r, entered, pairs, proved, hclause, -, henter, hproved, hcopied⟩
  · -- The fact's own terms are bound, and `t` is no argument.
    rw [Store.unify_value?_of_ne hunify fun x hx => ?_, ht]
    obtain ⟨hpart, harg⟩ := List.of_mem_zip hx
    refine ⟨(hvalid.fact hclause _ hpart).ne_of_unbound hbase ht, ?_⟩
    rintro rfl
    exact hargs harg
  · have hgrow := Store.enter_grows henter
    have hfresh : Store.value? (s ++ List.replicate r.locals.length none) t = none := by
      rw [Store.value?_append_replicate, ht]
    have hentered : entered.value? t = none := by
      rw [Store.unify_value?_of_ne henter fun x hx => ?_, hfresh]
      obtain ⟨hpart, harg⟩ := List.of_mem_zip hx
      constructor
      · -- A parameter stands for a constant or for a cell of the new frame, which lies behind `t`.
        obtain ⟨o, ho, hox⟩ := List.mem_map.1 hpart
        rw [← hox]
        exact ((hvalid.rule hclause).params o ho).ne_term hbase ht hlt
      · rintro rfl
        exact hargs harg
    have hlast : proved.value? t = none :=
      hbody r _ _ _ hclause (hbase.trans hgrow.1) hproved (by omega) hlt hentered
    rw [Store.copyBack_value?_of_ne hcopied fun x hx => ?_, hlast]
    -- What is copied back goes to arguments of the call.
    rintro rfl
    exact hargs (List.of_mem_zip (Store.unify_putOff henter x hx).1).2

/-- Along a branch an unbound term stays unbound that is no argument of any of the goals. -/
theorem along_untouched (hvalid : prog.Valid p) {b : Branch} {frame : Frame} {gs : List (Goal N)}
    (hbase : Store.GrowsTo p.values s) (h : prog.along b frame gs s = some s')
    (hlt : t.index < s.length) (ht : s.value? t = none)
    (hargs : ∀ g ∈ gs, t ∉ g.args.map frame.term) : s'.value? t = none := by
  induction b generalizing frame gs s s' with
  | nil =>
    cases gs with
    | nil =>
      obtain rfl := Option.some.inj h
      exact ht
    | cons => cases h
  | call id body rest ihBody ihRest =>
    cases gs with
    | nil => cases h
    | cons g gs =>
      obtain ⟨s₁, hcall, hrest⟩ := Program.along_cons h
      have hgrow := Program.viaClause_grows (fun _ _ _ _ => Program.along_grows) hcall
      -- In the body, no goal has `t` among its arguments: `t` lies before the rule's frame.
      have hfirst := viaClause_untouched hvalid hbase (fun r frame _ _ hclause hbase hproved hlt
          hframe ht =>
        ihBody hbase hproved hlt ht ((hvalid.rule hclause).not_mem_args hbase ht hframe))
        hcall hlt ht (hargs g (List.mem_cons_self ..))
      exact ihRest (hbase.trans hgrow) hrest (Nat.lt_of_lt_of_le hlt hgrow.length_le) hfirst
        fun g' hg' => hargs g' (List.mem_cons_of_mem g hg')

/-- A call by a clause leaves an unbound term unbound that is none of its arguments. -/
theorem byClause_untouched [DecidableEq N] (hvalid : prog.Valid p) {depth : Nat} {id : ClauseId}
    {args : List TermId} (h : s ∈ prog.byClause depth id args p.values) (hlt : t.index < p.size)
    (ht : p.value? t = none) (hargs : t ∉ args) : s.value? t = none := by
  rw [Program.byClause_eq fun inner _ => prog.meaning_goals inner, List.mem_filterMap] at h
  obtain ⟨body, -, hcall⟩ := h
  rw [← p.length_values] at hlt
  rw [← Pool.value?_values] at ht
  exact viaClause_untouched hvalid (.refl _) (fun r frame _ _ hclause hbase hproved hlt hframe ht =>
      along_untouched hvalid hbase hproved hlt ht
        ((hvalid.rule hclause).not_mem_args hbase ht hframe))
    hcall hlt ht hargs

/-! ## What is left of a pool -/

namespace Pool

/-- `q` is `p` with some unbound terms among `args` bound. -/
structure BindsOnly (args : List TermId) (p q : Pool V) : Prop where
  size_eq : q.size = p.size
  trail_eq : q.trail = p.trail
  isOwned_eq : ∀ t, q.isOwned t = p.isOwned t
  /-- A term that was not asked about is what it was. -/
  term?_eq : ∀ t, t ∉ args → q.term? t = p.term? t
  /-- A term that was bound holds the very value that it held. -/
  value?_eq : ∀ t v, p.value? t = some v → q.value? t = some v

omit [BEq V] in
/-- What is kept of a pool that has grown has some of `args` bound, if every other term that was
unbound still is. -/
theorem bindsOnly_kept {q : Pool V} (h : p.GrowsTo q) {args : List TermId}
    (huntouched : ∀ t : TermId, t.index < p.size → p.value? t = none → t ∉ args →
      q.value? t = none) : p.BindsOnly args (p.kept q) where
  size_eq := size_kept h
  trail_eq := trail_kept h
  isOwned_eq t := by
    simp only [isOwned, kept, getElem?_truncate]
    split
    · next hlt =>
      -- Growth keeps the flags of the cells that were there.
      show q.cells[t.index]?.any (·.owned) = p.cells[t.index]?.any (·.owned)
      have howned := congrArg (Option.any id) (h.owned_eq hlt)
      simpa only [Option.any_map, Function.comp_def, id_eq] using howned
    · next hge => rw [Array.getElem?_eq_none (Nat.le_of_not_lt hge)]
  term?_eq t ht := by
    rcases Nat.lt_or_ge t.index p.size with hlt | hge
    · -- An unbound term that is no argument is covered by `huntouched`, a bound one by growth.
      have hvalue : q.value? t = p.value? t := by
        cases hv : p.value? t with
        | none => exact huntouched t hlt hv ht
        | some v => exact h.value?_eq hv
      rw [term?_of_lt hlt, term?_of_lt (by rwa [size_kept h]), value?_kept hlt, hvalue]
    · have hge' : (p.kept q).cells.size ≤ t.index := by
        rw [← size_kept h] at hge
        exact hge
      rw [term?, term?, Array.getElem?_eq_none hge, Array.getElem?_eq_none hge']
  value?_eq t v hv := by
    have hlt : t.index < p.size := by
      rw [← value?_values] at hv
      rw [← length_values]
      exact Store.lt_of_value? hv
    rw [value?_kept hlt, h.value?_eq hv]

end Pool

/-! ## Questions -/

namespace Database

/-- What a question leaves: some of its arguments bound if it succeeded, and nothing otherwise. -/
def Settles (db : Database N V) (args : List TermId) : (succeeded : Bool) → Database N V → Prop
  | true, db' => ∃ q, db' = { db with pool := q } ∧ db.pool.BindsOnly args q
  | false, db' => db' = db

variable {db : Database N V} {args : List TermId}

omit [BEq V] in
theorem Settles.trail_eq {succeeded : Bool} {db' : Database N V}
    (h : db.Settles args succeeded db') : db'.pool.trail = db.pool.trail := by
  cases succeeded with
  | true =>
    obtain ⟨q, rfl, hbinds⟩ := h
    exact hbinds.trail_eq
  | false => rw [show db' = db from h]

/-- Unifying with a fact binds only the arguments, or nothing. -/
theorem settles_unify (hvalid : db.Valid) (c : ClauseId) :
    db.Settles args (db.unify c args).result (db.unify c args).db := by
  unfold unify
  split
  · rfl
  · next f hf =>
    split
    · rfl
    · obtain ⟨program, pool, config⟩ := db
      have hgrows := pool.unify_grows (f.parts.zip args)
      have hparts := hvalid.fact (Program.clause?_of_fact? hf)
      dsimp only at hparts ⊢
      cases hfailure : (pool.unify (f.parts.zip args)).failure with
      | some failure =>
        -- A refused match is undone, and the mark at its start commits to nothing.
        show _ = _
        rw [Pool.unify_pool_of_failure hfailure, Pool.commit_mark]
      | none =>
        -- All terms are known, so the pool is matched as its store is.
        have hunify := Pool.unify_outcome (Pool.known_of_unify hfailure)
        rw [Matching.outcome, hfailure] at hunify
        refine ⟨_, rfl, ?_⟩
        rw [Pool.commit_unify]
        refine Pool.bindsOnly_kept hgrows.1 fun t hlt ht hnot => ?_
        rw [← Pool.value?_values] at ht ⊢
        rw [Store.unify_value?_of_ne hunify.symm fun x hx => ?_, ht]
        obtain ⟨hpart, harg⟩ := List.of_mem_zip hx
        refine ⟨(hparts _ hpart).ne_of_unbound (.refl _) ht, ?_⟩
        rintro rfl
        exact hnot harg

variable [DecidableEq N]

/-- A proof attempt that succeeds binds only its arguments. -/
theorem settles_prove (hvalid : db.Valid) (hargs : ∀ t ∈ args, t.index < db.pool.size)
    {rounds : Nat} {ids : List ClauseId} {o : Outcome N V Bool}
    (h : db.prove rounds ids args = some o) : db.Settles args o.result o.db := by
  have hspec := prove_spec hvalid hargs h
  split at hspec
  · obtain ⟨hfalse, hdb⟩ := hspec
    rw [hfalse]
    exact hdb
  · next s rest hfound =>
    obtain ⟨htrue, q, hgrows, hq, hdb⟩ := hspec
    rw [htrue]
    refine ⟨db.pool.kept q, hdb, Pool.bindsOnly_kept hgrows fun t hlt ht hnot => ?_⟩
    -- The pool at the end has the values of the first store that some clause leads to.
    have hmem : s ∈ s :: rest := List.mem_cons_self ..
    rw [← hfound] at hmem
    obtain ⟨id, -, hs⟩ := List.mem_flatMap.1 hmem
    rw [← Pool.value?_values, hq]
    exact byClause_untouched hvalid hs hlt ht hnot

theorem settles_tryQuery (hvalid : db.Valid) {rounds : Nat} {name : N} {arity : Nat}
    {o : Outcome N V (Except Failure Unit)} (h : db.tryQuery rounds name arity args = some o) :
    db.Settles args o.result.toBool o.db := by
  unfold tryQuery at h
  split at h
  · obtain rfl := Option.some.inj h
    rfl
  · next haccepted =>
    obtain ⟨p, hp, rfl⟩ := Option.map_eq_some_iff.1 h
    have hprove := settles_prove hvalid (of_argsFault?_eq_none haccepted).2 hp
    cases hresult : p.result <;> rw [hresult] at hprove <;> exact hprove

theorem settles_resolve (hvalid : db.Valid) {rounds : Nat} {c : ClauseId} {o : Outcome N V Bool}
    (h : db.resolve rounds c args = some o) : db.Settles args o.result o.db := by
  unfold resolve at h
  split at h
  · obtain rfl := Option.some.inj h
    rfl
  · split at h
    · obtain rfl := Option.some.inj h
      rfl
    · next haccepted => exact settles_prove hvalid (of_argsFault?_eq_none haccepted).2 h

/-- A question either fails and changes nothing, or succeeds and binds some of the unbound terms
that it asks about. -/
theorem Asks.settles (hvalid : db.Valid) {succeeds : Bool} {db' : Database N V}
    (h : db.Asks args succeeds db') : db.Settles args succeeds db' := by
  cases h with
  | tryQuery ho => exact settles_tryQuery hvalid ho
  | queryAll ho => exact (queryAll_eq_some ho).1
  | unify c => exact settles_unify hvalid c
  | resolve ho => exact settles_resolve hvalid ho

/-- Between commands no binding waits to be undone. -/
theorem Reachable.trail_eq (h : db.Reachable) : db.pool.trail = #[] := by
  induction h with
  | empty config => rfl
  | @exec db rounds command o hdb ho ih =>
    rw [← ih]
    cases hasked : command.asked? with
    | none => exact (declares_exec ho hasked).retains.pool.trail_eq
    | some args => exact ((asks_exec ho hasked).settles hdb.valid).trail_eq

/-- A question that does not succeed leaves the whole database as it was, and so does the question
for all answers, whatever they are. -/
theorem exec_eq_of_not_succeeds (hdb : db.Reachable) {rounds : Nat} {command : Command N V}
    {o : Outcome N V (Reply V)} (h : db.exec rounds command = some o)
    (hasked : command.asked? = some args) (hfails : o.result.succeeds = false) :
    o.db = db ∧ o.db.pool.trail = #[] := by
  have hsettles := (asks_exec h hasked).settles hdb.valid
  rw [hfails] at hsettles
  exact ⟨hsettles, hsettles.trail_eq.trans hdb.trail_eq⟩

/-- A query whose rule binds its variable and fails afterwards. -/
theorem exec_eq_of_not_succeeds_late_failure :
    ∃ db : Database Nat Nat, db.Reachable ∧ ∃ o, db.exec 20 (.query 2 1 [⟨3⟩]) = some o ∧
      o.result.succeeds = false ∧ o.db = db ∧ o.db.pool.trail = #[] := by
  obtain ⟨db, hreachable, hquery⟩ := exists_reachable ⟨none, false⟩ 0
    [.addFact 0 [5], .addFact 1 [6], .addRule 2 [.fresh], .addGoal ⟨2⟩ 0 [.param 0],
      .addGoal ⟨2⟩ 1 [.param 0], .addVar]
    (fun db : Database Nat Nat =>
      (db.exec 20 (.query 2 1 [⟨3⟩])).any (fun o => !o.result.succeeds) = true)
    (by decide +kernel)
  obtain ⟨o, ho, hfails⟩ := (Option.any_eq_true _ _).1 hquery
  have hfalse : o.result.succeeds = false := by simpa using hfails
  exact ⟨db, hreachable, o, ho, hfalse, exec_eq_of_not_succeeds hreachable ho rfl hfalse⟩

/-- A question that succeeds keeps the clauses and the settings, and of the terms it only binds
unbound ones that it was asked about. -/
theorem bindsOnly_of_succeeds (hdb : db.Reachable) {rounds : Nat} {command : Command N V}
    {o : Outcome N V (Reply V)} (h : db.exec rounds command = some o)
    (hasked : command.asked? = some args) (hsucceeds : o.result.succeeds = true) :
    o.db.program = db.program ∧ o.db.config = db.config ∧ o.db.pool.trail = #[] ∧
      db.pool.BindsOnly args o.db.pool := by
  have hsettles := (asks_exec h hasked).settles hdb.valid
  rw [hsucceeds] at hsettles
  have htrail := hsettles.trail_eq.trans hdb.trail_eq
  obtain ⟨q, heq, hbinds⟩ := hsettles
  rw [heq] at htrail ⊢
  exact ⟨rfl, rfl, htrail, hbinds⟩

/-- A query with one argument bound and one to be found, beside a term that is not asked about. -/
theorem bindsOnly_of_succeeds_second_position :
    ∃ db : Database Nat Nat, db.Reachable ∧ ∃ o, db.exec 20 (.query 1 2 [⟨4⟩, ⟨5⟩]) = some o ∧
      o.result.succeeds = true ∧ db.value? ⟨5⟩ = none ∧ o.db.value? ⟨5⟩ = some 7 ∧
      o.db.program = db.program ∧ o.db.config = db.config ∧ o.db.pool.trail = #[] ∧
      db.pool.BindsOnly [⟨4⟩, ⟨5⟩] o.db.pool := by
  obtain ⟨db, hreachable, hunbound, hquery⟩ := exists_reachable ⟨none, false⟩ 0
    [.addFact 0 [6, 7], .addRule 1 [.fresh, .fresh], .addGoal ⟨1⟩ 0 [.param 0, .param 1],
      .addConstant 6, .addVar, .addVar]
    (fun db : Database Nat Nat => db.value? ⟨5⟩ = none ∧
      (db.exec 20 (.query 1 2 [⟨4⟩, ⟨5⟩])).any
        (fun o => o.result.succeeds && decide (o.db.value? ⟨5⟩ = some 7)) = true)
    (by decide +kernel)
  obtain ⟨o, ho, hboth⟩ := (Option.any_eq_true _ _).1 hquery
  obtain ⟨htrue, hbound⟩ := (Bool.and_eq_true _ _).mp hboth
  exact ⟨db, hreachable, o, ho, htrue, hunbound, of_decide_eq_true hbound,
    bindsOnly_of_succeeds hreachable ho rfl htrue⟩

end Database

end Hornbase
