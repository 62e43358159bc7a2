import Hornbase.Proofs.Footprint

/-!
# The templates of rules

A stored rule names its variables by terms of the pool, its templates. They are made unbound, no
search uses them, and the host may neither bind nor clear them. But it may ask about them, for the
questions accept every term of the pool. An answer is then left on the template as on any other
argument (`exists_bound_template`), and nothing takes it away again (`fixed_execAll`).

Apart from that templates stay as they are made: one that is bound was an argument of a question
that succeeded (`template_unbound`).
-/

namespace Hornbase

universe u v

variable {N : Type u} {V : Type v}

/-- A term that was not asked about is blank after the question if it was before. -/
theorem Pool.BindsOnly.blank {args : List TermId} {p q : Pool V} (h : p.BindsOnly args q)
    {t : TermId} (hnot : t ∉ args) (ht : p.Blank t) : q.Blank t := by
  have hterm : q.term? t = some .unbound := by
    rw [h.term?_eq t hnot, term?, show p.cells[t.index]? = _ from ht]
    rfl
  have howned : q.isOwned t = true := by
    rw [h.isOwned_eq, isOwned, show p.cells[t.index]? = _ from ht]
    rfl
  simp only [term?, Option.map_eq_some_iff] at hterm
  obtain ⟨⟨term, owned⟩, hcell, rfl⟩ := hterm
  obtain rfl : owned = true := by simpa [isOwned, hcell] using howned
  exact hcell

namespace Database

variable [DecidableEq N] [BEq V] {db db' : Database N V}
  {past : List (Command N V × Reply V)}

/-- The commands that led to a database from an empty one, the latest first, with their replies. -/
inductive History : List (Command N V × Reply V) → Database N V → Prop
  | empty (config : Config) : History [] (.empty config)
  | exec {past : List (Command N V × Reply V)} {db : Database N V} {rounds : Nat}
      {command : Command N V} {o : Outcome N V (Reply V)} :
      History past db → db.exec rounds command = some o →
      History ((command, o.result) :: past) o.db

/-- Whether one of the commands asked about `t` and succeeded. -/
def AskedOf (past : List (Command N V × Reply V)) (t : TermId) : Prop :=
  ∃ x ∈ past, x.2.succeeds = true ∧ ∃ args, x.1.asked? = some args ∧ t ∈ args

theorem History.reachable (h : History past db) : db.Reachable := by
  induction h with
  | empty config => exact .empty config
  | exec _ ho ih => exact ih.exec ho

/-- Every reachable database has a history. -/
theorem Reachable.exists_history (h : db.Reachable) : ∃ past, History past db := by
  induction h with
  | empty config => exact ⟨[], .empty config⟩
  | exec _ ho ih =>
    obtain ⟨past, hpast⟩ := ih
    exact ⟨_, hpast.exec ho⟩

/-- A session adds its commands to the history. -/
theorem History.execAll {rounds : Nat} {commands : List (Command N V)} (h : History past db)
    (hdb : db.execAll rounds commands = some db') :
    ∃ past', History past' db' ∧ past'.map (·.1) = commands.reverse ++ past.map (·.1) := by
  induction commands generalizing past db with
  | nil =>
    obtain rfl := Option.some.inj hdb
    exact ⟨past, h, rfl⟩
  | cons command rest ih =>
    obtain ⟨o, ho, hrest⟩ := Option.bind_eq_some_iff.1 hdb
    obtain ⟨past', hpast', hcommands⟩ := ih (h.exec ho) hrest
    exact ⟨past', hpast', by rw [hcommands]; simp⟩

/-- A template is blank unless a question that asked about it has succeeded. -/
theorem History.blank (h : History past db) {id : ClauseId} {r : Rule N} {t : TermId}
    (hr : db.program.rule? id = some r) (ht : t ∈ r.locals) (hnot : ¬ AskedOf past t) :
    db.pool.Blank t := by
  induction h generalizing id r with
  | empty config => simp [Database.empty, Program.rule?, Program.clause?] at hr
  | @exec past db rounds command o hdb ho ih =>
    have hearlier : ¬ AskedOf past t := by
      rintro ⟨x, hx, hasked⟩
      exact hnot ⟨x, List.mem_cons_of_mem _ hx, hasked⟩
    cases hasked : command.asked? with
    | none =>
      have hretains := (declares_exec ho hasked).retains
      -- It was there before and has been blank since, or it came with this declaration.
      rcases hretains.template id r t hr ht with ⟨r', hr', ht'⟩ | hblank
      · exact hretains.pool.blank (ih hr' ht' hearlier)
      · exact hblank
    | some args =>
      have hsettles := (asks_exec ho hasked).settles hdb.reachable.valid
      cases hsucceeds : o.result.succeeds with
      -- A request that fails leaves the database as it was.
      | false =>
        rw [hsucceeds] at hsettles
        rw [show o.db = db from hsettles] at hr ⊢
        exact ih hr ht hearlier
      | true =>
        rw [hsucceeds] at hsettles
        obtain ⟨q, heq, hbinds⟩ := hsettles
        rw [heq] at hr ⊢
        -- One that succeeds binds arguments only, and `t` has never been one.
        refine hbinds.blank (fun hmem => hnot ?_) (ih hr ht hearlier)
        exact ⟨_, List.mem_cons_self .., hsucceeds, args, hasked, hmem⟩

/-- A template of a stored rule is unbound unless a question that asked about it has succeeded. -/
theorem template_unbound (h : History past db) {id : ClauseId} {r : Rule N} {t : TermId}
    (hr : db.program.rule? id = some r) (ht : t ∈ r.locals) (hnot : ¬ AskedOf past t) :
    db.term? t = some .unbound := by
  rw [Database.term?, Pool.term?, show db.pool.cells[t.index]? = _ from h.blank hr ht hnot]
  rfl

/-- The template of a rule through which a query has found its answer. -/
theorem template_unbound_after_query :
    ∃ (past : List (Command Nat Nat × Reply Nat)) (db : Database Nat Nat) (r : Rule Nat),
      History past db ∧ db.program.rule? ⟨1⟩ = some r ∧ ⟨1⟩ ∈ r.locals ∧ ¬ AskedOf past ⟨1⟩ ∧
      db.value? ⟨2⟩ = some 5 ∧ db.term? ⟨1⟩ = some .unbound := by
  have hsession : ((empty ⟨none, false⟩).execAll 20 [.addFact 0 [5], .addRule 1 [.fresh],
      .addGoal ⟨1⟩ 0 [.param 0], .addVar, .query 1 1 [⟨2⟩]]).any (fun db : Database Nat Nat =>
        (db.program.rule? ⟨1⟩).any (fun r => ⟨1⟩ ∈ r.locals) && decide (db.value? ⟨2⟩ = some 5)) :=
    by decide +kernel
  obtain ⟨db, hdb, hboth⟩ := (Option.any_eq_true _ _).1 hsession
  obtain ⟨hrule, hvalue⟩ := (Bool.and_eq_true _ _).mp hboth
  obtain ⟨r, hr, hlocal⟩ := (Option.any_eq_true _ _).1 hrule
  obtain ⟨past, hpast, hcommands⟩ := (History.empty _).execAll hdb
  have hnot : ¬ AskedOf past ⟨1⟩ := by
    rintro ⟨x, hx, -, args, hargs, hmem⟩
    have hcommand := List.mem_map_of_mem (f := (·.1)) hx
    rw [hcommands] at hcommand
    have hnever : ∀ c ∈ ([.query 1 1 [⟨2⟩], .addVar, .addGoal ⟨1⟩ 0 [.param 0],
        .addRule 1 [.fresh], .addFact 0 [5]] : List (Command Nat Nat)),
        ∀ args, c.asked? = some args → (⟨1⟩ : TermId) ∉ args := by
      simp [Command.asked?]
    exact hnever _ hcommand args hargs hmem
  exact ⟨past, db, r, hpast, hr, of_decide_eq_true hlocal, hnot, of_decide_eq_true hvalue,
    template_unbound hpast hr (of_decide_eq_true hlocal) hnot⟩

/-- A template that is bound: the rule was resolved for its own variable. -/
theorem exists_bound_template :
    ∃ db : Database Nat Nat, db.Reachable ∧ ∃ id r t, db.program.rule? id = some r ∧
      t ∈ r.locals ∧ db.value? t = some 7 := by
  obtain ⟨db, hreachable, hrule, hvalue⟩ := exists_reachable ⟨none, false⟩ 20
    [.addFact 0 [7], .addRule 1 [.fresh], .addGoal ⟨1⟩ 0 [.param 0], .resolve ⟨1⟩ [⟨1⟩]]
    (fun db : Database Nat Nat => (db.program.rule? ⟨1⟩).any (fun r => ⟨1⟩ ∈ r.locals) ∧
      db.value? ⟨1⟩ = some 7)
    (by decide +kernel)
  obtain ⟨r, hr, hlocal⟩ := (Option.any_eq_true _ _).1 hrule
  exact ⟨db, hreachable, ⟨1⟩, r, ⟨1⟩, hr, of_decide_eq_true hlocal, hvalue⟩

omit [BEq V] in
theorem Edit.keeps (h : db.Edit db') : db.pool.Keeps db'.pool := by
  cases h with
  | pool hkeeps | clause hkeeps | rule hkeeps => exact hkeeps

/-- No session takes the value of a term of a stored clause away. -/
theorem fixed_execAll (hdb : db.Valid) {rounds : Nat} {commands : List (Command N V)}
    (h : db.execAll rounds commands = some db') {t : TermId} (ht : db.pool.Fixed t) :
    db'.pool.Fixed t := by
  induction commands generalizing db with
  | nil =>
    obtain rfl := Option.some.inj h
    exact ht
  | cons command rest ih =>
    obtain ⟨o, ho, hrest⟩ := Option.bind_eq_some_iff.1 h
    have hedit := edit_exec hdb ho
    exact ih (hedit.valid hdb) hrest (hedit.keeps t ht)

end Database

end Hornbase
