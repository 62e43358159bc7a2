import Hornbase.Proofs.Grounding
import Hornbase.Proofs.Queries
import Mathlib.Tactic.Choose

/-!
# Answers of range-restricted programs are derivable

If every variable of a head occurs in the body, a successful branch binds all arguments, and the
values that it leaves explain themselves: the clauses of the branch, instantiated by what their
frames hold at the end, form a proof tree. So whatever a query answers has a derivation, with no
more rules nested than the limit allows. Equality of values must be equality here, since a
derivation is about the values themselves.
-/

namespace Hornbase

universe u v

variable {N : Type u} {V : Type v}

variable [BEq V]

/-- Labels that equal values are values. -/
theorem bound_of_forall₂ {xs ys : List (Option V)}
    (h : List.Forall₂ (fun x y => (x == y) = true) xs ys) (hxs : ∀ x ∈ xs, ∃ v, x = some v) :
    ∀ y ∈ ys, ∃ v, y = some v := by
  intro y hy
  obtain ⟨hlength, hzip⟩ := List.forall₂_iff_zip.1 h
  obtain ⟨x, hx⟩ := exists_mem_zip hlength hy
  obtain ⟨v, rfl⟩ := hxs x (List.of_mem_zip hx).1
  obtain ⟨w, hw, -⟩ := exists_of_some_beq (hzip hx)
  exact ⟨w, hw⟩

variable {prog : Program N} {p : Pool V}

/-- In a range-restricted program only values can be explained. -/
theorem Supports.bound (hrange : prog.RangeRestricted) (hvalid : prog.Valid p) {b : Branch}
    {labels : List (List (Option V))} (h : Supports prog p.value? b labels) :
    ∀ ls ∈ labels, ∀ x ∈ ls, ∃ v, x = some v := by
  induction h with
  | nil => exact nofun
  | @fact id body rest f ls more hclause hlabels _ ih =>
    have hparts : ∀ x ∈ f.parts.map p.value?, ∃ v, x = some v := by
      intro x hx
      obtain ⟨t, ht, rfl⟩ := List.mem_map.1 hx
      exact (hvalid.fact hclause t ht).exists_value?
    intro ls' hls
    rcases List.mem_cons.1 hls with rfl | hls
    · exact bound_of_forall₂ hlabels hparts
    · exact ih ls' hls
  | @rule id body rest r ls more σ hclause hlabels _ _ ihBody ih =>
    have hrule : prog.rule? id = some r := by simp only [Program.rule?, hclause]
    have hparams : ∀ x ∈ r.params.map (·.ground p.value? σ), ∃ v, x = some v := by
      intro x hx
      obtain ⟨o, ho, rfl⟩ := List.mem_map.1 hx
      cases o with
      -- A constant of the head is bound, and a variable of the head stands in the body.
      | const t => exact ((hvalid.rule hclause).params _ ho).exists_value?
      | var n =>
        obtain ⟨g, hg, hvar⟩ := hrange id r hrule n ho
        exact ihBody _ (List.mem_map_of_mem hg) _ (List.mem_map_of_mem hvar)
    intro ls' hls
    rcases List.mem_cons.1 hls with rfl | hls
    · exact bound_of_forall₂ hlabels hparams
    · exact ih ls' hls

variable [LawfulBEq V] [DecidableEq N]

/-- The labels that a branch of a range-restricted program explains are derivable. -/
theorem Supports.derivable (hrange : prog.RangeRestricted) (hvalid : prog.Valid p) {b : Branch}
    {labels : List (List (Option V))} (h : Supports prog p.value? b labels) {depth : Nat}
    {names : List N} (hb : b ∈ prog.branches depth names) :
    ∀ x ∈ names.zip labels, ∃ vs, x.2 = vs.map some ∧ Derivable prog p.value? depth x.1 vs := by
  induction h generalizing depth names with
  | nil =>
    intro x hx
    rw [List.zip_nil_right] at hx
    cases hx
  | @fact id body rest f ls more hclause hlabels hmore ih =>
    have hsupports : Supports prog p.value? (.call id body rest) (ls :: more) :=
      .fact hclause hlabels hmore
    have hbound := hsupports.bound hrange hvalid ls (List.mem_cons_self ..)
    cases names with
    | nil => simp at hb
    | cons name names =>
      obtain ⟨hid, -, hrest⟩ := Program.call_mem_branches_iff.1 hb
      intro x hx
      rcases List.mem_cons.1 hx with rfl | hx
      · -- The goal is the first one, and the fact derives it.
        obtain ⟨vs, rfl⟩ := exists_eq_map_some hbound
        have hfact : prog.fact? id = some f := by simp only [Program.fact?, hclause]
        simp only [beq_iff_eq, List.forall₂_eq_eq_eq] at hlabels
        exact ⟨vs, rfl, .fact hid hfact hlabels⟩
      · exact ih hrest x hx
  | @rule id body rest r ls more σ hclause hlabels hbody hmore ihBody ih =>
    have hsupports : Supports prog p.value? (.call id body rest) (ls :: more) :=
      .rule σ hclause hlabels hbody hmore
    have hbound := hsupports.bound hrange hvalid ls (List.mem_cons_self ..)
    cases names with
    | nil => simp at hb
    | cons name names =>
      obtain ⟨hid, hbodies, hrest⟩ := Program.call_mem_branches_iff.1 hb
      obtain ⟨inner, rfl, hinner⟩ := (Program.mem_bodies_rule hclause).1 hbodies
      intro x hx
      rcases List.mem_cons.1 hx with rfl | hx
      · -- The goal is the first one. The body's goals are derivable one level down.
        obtain ⟨vs, rfl⟩ := exists_eq_map_some hbound
        have hrule : prog.rule? id = some r := by simp only [Program.rule?, hclause]
        simp only [beq_iff_eq, List.forall₂_eq_eq_eq] at hlabels
        have hgoals : ∀ g ∈ r.body, ∃ ws, g.args.map (·.ground p.value? σ) = ws.map some ∧
            Derivable prog p.value? inner g.name ws := by
          intro g hg
          refine ihBody hinner (g.name, g.args.map (·.ground p.value? σ)) ?_
          rw [List.zip_map']
          exact List.mem_map_of_mem hg
        -- Equal goals of a body share a proof, so one tuple for each goal is enough.
        choose! ws hws using hgoals
        exact ⟨vs, rfl, .rule σ ws hid hrule hlabels (fun g hg => (hws g hg).1)
          fun g hg => (hws g hg).2⟩
      · exact ih hrest x hx

/-! ## Stores and answers -/

/-- What the interpreter finds for a call of a range-restricted program is derivable. -/
theorem derivable_of_mem_meaning (hrange : prog.RangeRestricted) (hvalid : prog.Valid p)
    {depth : Nat} {name : N} {args : List TermId} {s : Store V}
    (hs : s ∈ prog.meaning depth name args p.values) :
    ∃ vs, Store.values s args = vs.map some ∧ Derivable prog p.value? depth name vs := by
  obtain ⟨b, hb, halong⟩ := Program.mem_meaning_iff.1 hs
  have hsettled : prog.Settled s.value? b ⟨0, 0⟩ [⟨name, args.map .const⟩] p.values :=
    hrange.bindsRepeats.settled hvalid hb (.refl _) _
  have hsupports := supports_of_through hvalid hsettled (.refl _) halong
  obtain ⟨vs, hvs, hderivable⟩ := hsupports.derivable hrange hvalid hb (name, Store.values s args)
    (List.mem_cons_self ..)
  exact ⟨vs, hvs, hderivable⟩

namespace Database

/-- The answer is a tuple of values for which `name` is derivable, with no more rules nested than
the limit allows. -/
def Proves (db : Database N V) (name : N) (answer : Answer V) : Prop :=
  ∃ vs depth, answer.values = vs.map some ∧
    (∀ limit, db.config.maxDepth = some limit → depth ≤ limit) ∧
    Derivable db.program db.value? depth name vs

/-- Over a range-restricted program, a query that succeeds leaves a derivable tuple in its
arguments, and so is every answer in a list of all answers. -/
theorem answers_derivable {db : Database N V} (h : db.Reachable)
    (hrange : db.program.RangeRestricted) {name : N} {arity : Nat} {args : List TermId}
    (haccepted : db.argsFault? arity args = none) :
    (∀ rounds o, db.query rounds name arity args = some o → o.result = true →
      db.Proves name (o.db.answer args)) ∧
    ∀ rounds o, db.queryAll rounds name arity args = some o →
      ∀ answer ∈ o.result, db.Proves name answer := by
  have hlimit : ∀ rounds limit, db.config.maxDepth = some limit →
      db.config.maxDepth.getD rounds ≤ limit := by
    intro rounds limit hmax
    rw [hmax]
    exact Nat.le_refl limit
  constructor
  · -- The pool at the end holds the values of the first store found, one of those meant.
    intro rounds o ho htrue
    have hspec := query_spec h.valid haccepted ho
    split at hspec
    · rw [hspec.1] at htrue
      cases htrue
    · next s rest hmeaning =>
      obtain ⟨-, q, -, rfl, hdb⟩ := hspec
      obtain ⟨vs, hvs, hderivable⟩ := derivable_of_mem_meaning hrange h.valid
        (hmeaning ▸ List.mem_cons_self ..)
      refine ⟨vs, _, ?_, hlimit rounds, hderivable⟩
      rw [← hvs, hdb]
      refine List.map_congr_left fun t ht => ?_
      rw [Pool.value?_kept ((of_argsFault?_eq_none haccepted).2 t ht), Pool.value?_values]
  · intro rounds o ho answer hanswer
    rw [queryAll_spec h.valid haccepted ho] at hanswer
    obtain ⟨s, hs, rfl⟩ := List.mem_map.1 hanswer
    obtain ⟨vs, hvs, hderivable⟩ := derivable_of_mem_meaning hrange h.valid hs
    exact ⟨vs, _, hvs, hlimit rounds, hderivable⟩

/-- A search without a limit through a recursive relation finds that 3 can be reached from 1. -/
theorem answers_derivable_reach :
    ∃ db : Database Nat Nat, db.Reachable ∧ db.program.RangeRestricted ∧
      db.config.maxDepth = none ∧ db.argsFault? 2 [⟨9⟩, ⟨10⟩] = none ∧
      ∃ o, db.query 20 1 2 [⟨9⟩, ⟨10⟩] = some o ∧ o.result = true ∧
        db.Proves 1 (o.db.answer [⟨9⟩, ⟨10⟩]) := by
  obtain ⟨db, hreachable, hrange, hlimit, haccepted, hquery⟩ := exists_reachable ⟨none, false⟩ 0
    [.addFact 0 [1, 2], .addFact 0 [2, 3],
      .addRule 1 [.fresh, .fresh], .addRuleVar ⟨2⟩, .addGoal ⟨2⟩ 0 [.param 0, .term ⟨6⟩],
      .addGoal ⟨2⟩ 1 [.term ⟨6⟩, .param 1],
      .addRule 1 [.fresh, .fresh], .addGoal ⟨3⟩ 0 [.param 0, .param 1],
      .addConstant 1, .addConstant 3]
    (fun db : Database Nat Nat => db.program.RangeRestricted ∧ db.config.maxDepth = none ∧
      db.argsFault? 2 [⟨9⟩, ⟨10⟩] = none ∧ (db.query 20 1 2 [⟨9⟩, ⟨10⟩]).any (·.result) = true)
    (by decide +kernel)
  obtain ⟨o, ho, htrue⟩ := (Option.any_eq_true _ _).1 hquery
  exact ⟨db, hreachable, hrange, hlimit, haccepted, o, ho, htrue,
    (answers_derivable hreachable hrange haccepted).1 20 o ho htrue⟩

end Database

end Hornbase
