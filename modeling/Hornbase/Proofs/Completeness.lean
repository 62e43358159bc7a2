import Hornbase.Proofs.Labelling
import Hornbase.Proofs.Queries

/-!
# Derivable tuples are answered

A derivation picks a clause for every goal, so it names a branch, and the values in it are labels
that the branch explains. With these labels on the arguments the branch succeeds from the store of
the query, whatever of the tuple is given there. Nothing is asked of the program: where a rule does
not bind an argument, the answer leaves it open.
-/

namespace Hornbase

universe u v

variable {N : Type u} {V : Type v} [BEq V] [DecidableEq N] {prog : Program N}
  {value? : TermId → Option V}

/-! ## The branch of a derivation -/

/-- Goals that are explained one by one are explained together. -/
theorem exists_branch_of_goals {depth : Nat} {gs : List (Goal N)}
    {labels : Goal N → List (Option V)}
    (h : ∀ g ∈ gs, ∃ id body, id ∈ prog.candidates g.name ∧ body ∈ prog.bodies depth id ∧
      ∀ rest more, Supports prog value? rest more →
        Supports prog value? (.call id body rest) (labels g :: more)) :
    ∃ b ∈ prog.branches depth (gs.map (·.name)), Supports prog value? b (gs.map labels) := by
  induction gs with
  | nil => exact ⟨.nil, by simp, .nil⟩
  | cons g gs ih =>
    obtain ⟨id, body, hid, hbody, hcall⟩ := h g (List.mem_cons_self ..)
    obtain ⟨rest, hrest, hmore⟩ := ih fun g' hg' => h g' (List.mem_cons_of_mem _ hg')
    exact ⟨.call id body rest, Program.call_mem_branches_iff.2 ⟨hid, hbody, hrest⟩,
      hcall rest _ hmore⟩

/-- A derivation names a clause and a branch through its body that explain the tuple. -/
theorem Derivable.exists_call [ReflBEq V] {depth : Nat} {name : N} {vs : List V}
    (h : Derivable prog value? depth name vs) :
    ∃ id body, id ∈ prog.candidates name ∧ body ∈ prog.bodies depth id ∧
      ∀ rest more, Supports prog value? rest more →
        Supports prog value? (.call id body rest) (vs.map some :: more) := by
  have hself : ∀ xs : List (Option V), List.Forall₂ (fun x y => (x == y) = true) xs xs :=
    fun xs => List.forall₂_same.2 fun x _ => BEq.refl x
  induction h with
  | @fact depth name vs id f hid hfact hparts =>
    have hclause := Program.clause?_of_fact? hfact
    refine ⟨id, .nil, hid, by simp [Program.bodies_fact hclause], fun rest more hmore => ?_⟩
    exact .fact hclause (hparts ▸ hself _) hmore
  | @rule depth name vs id r σ ws hid hrule hparams hgoals _ ih =>
    have hclause := Program.clause?_of_rule? hrule
    obtain ⟨body, hbody, hsupports⟩ := exists_branch_of_goals ih
    refine ⟨id, body, hid, (Program.mem_bodies_rule hclause).2 ⟨depth, rfl, hbody⟩,
      fun rest more hmore => ?_⟩
    have hsame : r.body.map (fun g => (ws g).map some)
        = r.body.map fun g => g.args.map (·.ground value? σ) :=
      List.map_congr_left fun g hg => (hgoals g hg).symm
    exact .rule σ hclause (hparams ▸ hself _) (hsame ▸ hsupports) hmore

/-- A derivation names a branch that explains the tuple. -/
theorem Derivable.exists_branch [ReflBEq V] {depth : Nat} {name : N} {vs : List V}
    (h : Derivable prog value? depth name vs) :
    ∃ b ∈ prog.branches depth [name], Supports prog value? b [vs.map some] := by
  obtain ⟨id, body, hid, hbody, hcall⟩ := h.exists_call
  exact ⟨.call id body .nil, Program.call_mem_branches_iff.2 ⟨hid, hbody, by simp⟩,
    hcall .nil [] .nil⟩

/-! ## From the tuple to an answer -/

/-- The labels for a query: the values of the bound terms, and those of the tuple for the
arguments. -/
def tupleLabel (p : Pool V) (args : List TermId) (vs : List V) (t : TermId) : Option V :=
  match p.value? t with
  | some v => some v
  | none => vs[args.idxOf t]?

omit [BEq V] [DecidableEq N] in
/-- The arguments have the values of the tuple as their labels, if these agree with what is bound
and with each other. -/
theorem map_tupleLabel {p : Pool V} {args : List TermId} {vs : List V}
    (hlength : args.length = vs.length)
    (hbound : ∀ (i : Nat) t v, args[i]? = some t → p.value? t = some v → vs[i]? = some v)
    (hrepeated : ∀ i j : Nat, ∀ t, args[i]? = some t → args[j]? = some t → vs[i]? = vs[j]?) :
    args.map (tupleLabel p args vs) = vs.map some := by
  apply List.ext_getElem?
  intro i
  rw [List.getElem?_map, List.getElem?_map]
  cases hi : args[i]? with
  | none =>
    have hvs : vs[i]? = none := by
      rw [List.getElem?_eq_none_iff] at hi ⊢
      omega
    rw [hvs]
    rfl
  | some t =>
    have hlabel : tupleLabel p args vs t = vs[i]? := by
      unfold tupleLabel
      split
      · next v hv => exact (hbound i t v hi hv).symm
      · exact hrepeated _ i t (List.getElem?_idxOf (List.mem_of_getElem? hi)) hi
    have hlt : i < vs.length := hlength ▸ (List.getElem?_eq_some_iff.1 hi).1
    rw [Option.map_some, hlabel, List.getElem?_eq_getElem hlt]
    rfl

variable [LawfulBEq V] {p : Pool V}

/-- The interpreter finds a store for every derivable tuple that agrees with the arguments, and what
the store gives to the arguments is part of the tuple. -/
theorem exists_mem_meaning (hvalid : prog.Valid p) {depth : Nat} {name : N} {args : List TermId}
    {vs : List V} (hderivable : Derivable prog p.value? depth name vs)
    (hargs : ∀ t ∈ args, t.index < p.size) (hlength : args.length = vs.length)
    (hbound : ∀ (i : Nat) t v, args[i]? = some t → p.value? t = some v → vs[i]? = some v)
    (hrepeated : ∀ i j : Nat, ∀ t, args[i]? = some t → args[j]? = some t → vs[i]? = vs[j]?) :
    ∃ s ∈ prog.meaning depth name args p.values,
      List.Forall₂ (fun x v => x = none ∨ x = some v) (Store.values s args) vs := by
  -- The arguments are labelled with the tuple, and everything else with what the pool holds.
  obtain ⟨b, hb, hsupports⟩ := hderivable.exists_branch
  have hlabels := map_tupleLabel hlength hbound hrepeated
  have hfits : Store.Fits p p.values (tupleLabel p args vs) := by
    have hfixed : ∀ {t v}, p.value? t = some v → tupleLabel p args vs t = some v := by
      intro t v hv
      rw [tupleLabel, hv]
    refine ⟨.refl _, hfixed, ⟨fun {t v} hv => ⟨v, hfixed ?_, BEq.refl v⟩⟩⟩
    rwa [Pool.value?_values] at hv
  have hknown : ∀ t ∈ args, t.index < p.values.length := by
    rw [Pool.length_values]
    exact hargs
  obtain ⟨s, label, hthrough, hs, -, hkept⟩ :=
    through_of_supports hvalid hfits hknown (hlabels.symm ▸ hsupports)
  refine ⟨s, Program.mem_meaning_iff.2 ⟨b, hb, hthrough⟩, ?_⟩
  rw [Store.values, List.forall₂_map_left_iff, List.forall₂_iff_get]
  refine ⟨hlength, fun i hi hi' => ?_⟩
  -- An argument has kept its label, which is the value at its position.
  have hlabel : label args[i] = some vs[i] := by
    have hat := congrArg (·[i]?) hlabels
    simp only [List.getElem?_map, List.getElem?_eq_getElem hi, List.getElem?_eq_getElem hi',
      Option.map_some, Option.some.injEq] at hat
    rw [hkept _ (hknown _ (List.getElem_mem hi)), hat]
  cases hv : s.value? args[i] with
  | none => exact .inl rfl
  | some v =>
    obtain ⟨w, hw, hvw⟩ := hs.within.value hv
    rw [hlabel, Option.some.injEq] at hw
    obtain rfl := eq_of_beq hvw
    exact .inr (congrArg some hw.symm)

namespace Database

/-- A bounded query with arguments that agree with a derivable tuple succeeds, and one of all
answers is part of the tuple. -/
theorem derivable_answered {db : Database N V} (h : db.Reachable) {limit : Nat}
    (hlimit : db.config.maxDepth = some limit) {name : N} {vs : List V}
    (hderivable : Derivable db.program db.value? limit name vs) {arity : Nat} {args : List TermId}
    (haccepted : db.argsFault? arity args = none) (hlength : args.length = vs.length)
    (hbound : ∀ (i : Nat) t v, args[i]? = some t → db.value? t = some v → vs[i]? = some v)
    (hrepeated : ∀ i j : Nat, ∀ t, args[i]? = some t → args[j]? = some t → vs[i]? = vs[j]?) :
    ((∃ rounds o, db.queryAll rounds name arity args = some o) ∧
      ∀ rounds o, db.queryAll rounds name arity args = some o →
        ∃ answer ∈ o.result, List.Forall₂ (fun x v => x = none ∨ x = some v) answer.values vs) ∧
    ((∃ rounds o, db.query rounds name arity args = some o) ∧
      ∀ rounds o, db.query rounds name arity args = some o → o.result = true) := by
  obtain ⟨s, hs, hpart⟩ := exists_mem_meaning h.valid hderivable
    (of_argsFault?_eq_none haccepted).2 hlength hbound hrepeated
  refine ⟨⟨exists_queryAll h.valid hlimit haccepted, ?_⟩,
    ⟨exists_query h.valid hlimit haccepted, ?_⟩⟩
  · intro rounds o ho
    -- The store that was found gives the answer.
    have hspec := queryAll_spec h.valid haccepted ho
    rw [hlimit] at hspec
    rw [hspec]
    exact ⟨_, List.mem_map_of_mem hs, hpart⟩
  · intro rounds o ho
    have hspec := query_spec h.valid haccepted ho
    rw [hlimit] at hspec
    split at hspec
    · -- No store at all would contradict the one that was found.
      next hnone =>
      rw [Option.getD_some] at hnone
      rw [hnone] at hs
      cases hs
    · exact hspec.1

/-- A rule over a stored fact proves the value of the fact, so a query with an unbound argument
succeeds. -/
theorem derivable_answered_rule_over_fact :
    ∃ db : Database Nat Nat, db.Reachable ∧ db.config.maxDepth = some 1 ∧
      Derivable db.program db.value? 1 1 [5] ∧ db.argsFault? 1 [⟨2⟩] = none ∧
      (∃ rounds o, db.query rounds 1 1 [⟨2⟩] = some o) ∧
      ∀ rounds o, db.query rounds 1 1 [⟨2⟩] = some o → o.result = true := by
  obtain ⟨db, hdb⟩ : ∃ db : Database Nat Nat, db =
      ⟨⟨#[.fact ⟨0, [⟨0⟩]⟩, .rule ⟨1, [⟨1⟩], [.var 0], [⟨1⟩], [⟨0, [.var 0]⟩]⟩],
          [(0, [⟨0⟩]), (1, [⟨1⟩])]⟩,
        ⟨#[⟨⟨some 5⟩, true⟩, ⟨⟨none⟩, true⟩, ⟨⟨none⟩, false⟩], #[]⟩, ⟨some 1, false⟩⟩ := ⟨_, rfl⟩
  have hsession : (Database.empty ⟨some 1, false⟩ : Database Nat Nat).execAll 0
      [.addFact 0 [5], .addRule 1 [.fresh], .addGoal ⟨1⟩ 0 [.param 0], .addVar] = some db := by
    rw [hdb]
    rfl
  have hreachable : db.Reachable := (Reachable.empty _).execAll hsession
  have hrule : Derivable db.program db.value? 1 1 [5] := by
    rw [hdb]
    refine .rule (c := ⟨1⟩) (fun _ => some 5) (fun _ => [5]) (List.mem_singleton.2 rfl) rfl rfl
      ?_ ?_
    · intro g hg
      obtain rfl := List.mem_singleton.1 hg
      rfl
    · intro g hg
      obtain rfl := List.mem_singleton.1 hg
      exact .fact (c := ⟨0⟩) (List.mem_singleton.2 rfl) rfl rfl
  have hlimit : db.config.maxDepth = some 1 := by rw [hdb]
  have haccepted : db.argsFault? 1 [⟨2⟩] = none := by rw [hdb]; rfl
  have honly : ∀ (i : Nat) t, [(⟨2⟩ : TermId)][i]? = some t → i = 0 ∧ t = ⟨2⟩ := by
    intro i t hi
    cases i with
    | zero => exact ⟨rfl, (Option.some.inj hi).symm⟩
    | succ i => cases hi
  refine ⟨db, hreachable, hlimit, hrule, haccepted,
    (derivable_answered hreachable hlimit hrule haccepted rfl ?_ ?_).2⟩
  · intro i t v hi hv
    obtain ⟨rfl, rfl⟩ := honly i t hi
    rw [hdb] at hv
    cases hv
  · intro i j t hi hj
    rw [(honly i t hi).1, (honly j t hj).1]

end Database

end Hornbase
