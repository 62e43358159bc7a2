import Hornbase.Derivation
import Hornbase.Proofs.Explanation
import Mathlib.Data.List.NodupEquivFin

/-!
# Programs whose branches are settled

Unbound terms are not linked, so a rule gives its callers only what its body finds. `Grounds` picks
names whose calls always leave all arguments bound: every variable in the head of such a rule occurs
in a goal with such a name. `BindsRepeats` asks this much for the variables that a head repeats. It
can be read off the program, and all branches of such a program are settled for any labels
(`settled_of_grounds`). Range-restricted programs are of this kind, and so are those whose heads
repeat no variable.
-/

namespace Hornbase

universe u v

variable {N : Type u} {V : Type v} [DecidableEq N]

/-! ## Names that bind their arguments -/

namespace Program

/-- Every variable in the head of a rule with a name in `G` occurs in a goal with a name in `G`. -/
def Grounds (prog : Program N) (G : N → Prop) : Prop :=
  ∀ name, G name → ∀ id ∈ prog.candidates name, ∀ r, prog.rule? id = some r →
    ∀ n, Operand.var n ∈ r.params → ∃ g ∈ r.body, G g.name ∧ Operand.var n ∈ g.args

/-- Every variable that the head of a rule repeats occurs in a goal with a name in `G`. -/
def RepeatsIn (prog : Program N) (G : N → Prop) : Prop :=
  ∀ id r, prog.rule? id = some r → ∀ n, List.Duplicate (Operand.var n) r.params →
    ∃ g ∈ r.body, G g.name ∧ Operand.var n ∈ g.args

/-- Whether calls bind all variables that the head of a rule repeats. -/
def BindsRepeats (prog : Program N) : Prop :=
  ∃ G, prog.Grounds G ∧ prog.RepeatsIn G

/-- In a range-restricted program all calls leave their arguments bound. -/
theorem RangeRestricted.grounds {prog : Program N} (h : prog.RangeRestricted) :
    prog.Grounds fun _ => True := by
  intro name _ id _ r hr n hn
  obtain ⟨g, hg, hvar⟩ := h id r hr n hn
  exact ⟨g, hg, trivial, hvar⟩

omit [DecidableEq N] in
theorem RangeRestricted.repeatsIn {prog : Program N} (h : prog.RangeRestricted) :
    prog.RepeatsIn fun _ => True := by
  intro id r hr n hn
  obtain ⟨g, hg, hvar⟩ := h id r hr n hn.mem
  exact ⟨g, hg, trivial, hvar⟩

/-- A range-restricted program binds what it repeats. -/
theorem RangeRestricted.bindsRepeats {prog : Program N} (h : prog.RangeRestricted) :
    prog.BindsRepeats :=
  ⟨_, h.grounds, h.repeatsIn⟩

/-- A program whose heads repeat no variable has none to bind. -/
theorem bindsRepeats_of_linear {prog : Program N}
    (h : ∀ id r, prog.rule? id = some r → ∀ n, ¬ List.Duplicate (Operand.var n) r.params) :
    prog.BindsRepeats :=
  ⟨fun _ => False, fun _ hname => hname.elim, fun id r hr n hn => absurd hn (h id r hr n)⟩

end Program

/-! ## What such calls leave -/

variable [BEq V] [EquivBEq V] {prog : Program N} {p : Pool V} {G : N → Prop}

/-- A call with a name in `G` has all its arguments bound at the end, if this holds of the goals of
the rule that it enters. -/
theorem viaClause_grounds (hG : prog.Grounds G) (hvalid : prog.Valid p) {name : N} (hname : G name)
    {id : ClauseId} (hid : id ∈ prog.candidates name)
    {body : Frame → List (Goal N) → Store V → Option (Store V)} {args : List TermId}
    {s s' : Store V} (hbase : Store.GrowsTo p.values s)
    (hgrows : ∀ frame gs (s s' : Store V), body frame gs s = some s' → s.GrowsTo s')
    (hbody : ∀ frame r (s s' : Store V), prog.clause? id = some (.rule r) →
      Store.GrowsTo p.values s → body frame r.body s = some s' → ∀ g ∈ r.body, G g.name →
      ∀ o ∈ g.args, ∃ v, s'.value? (frame.term o) = some v)
    (h : prog.viaClause id body args s = some s') {t : TermId} (ht : t ∈ args) :
    ∃ v, s'.value? t = some v := by
  obtain ⟨f, putOff, hclause, harity, hunify⟩ |
    ⟨r, entered, pairs, proved, hclause, harity, henter, hproved, hcopied⟩ :=
    Program.viaClause_cases h
  · -- A match binds the argument to the value of the fact's own term.
    obtain ⟨part, hpair⟩ := exists_mem_zip harity ht
    obtain ⟨v, hv⟩ := (hvalid.fact hclause part (List.of_mem_zip hpair).1).exists_value?
    rw [← Pool.value?_values] at hv
    obtain ⟨-, w, -, hw, -⟩ := Store.unify_agree_of_bound hunify hpair (hbase.value?_eq hv)
    exact ⟨w, hw⟩
  · have hentered := hbase.trans (Store.enter_grows henter).1
    have hgrow := hgrows _ _ _ _ hproved
    obtain ⟨param, hpair⟩ := exists_mem_zip harity ht
    have hparam := (List.of_mem_zip hpair).1
    -- A constant is bound anyway, and a variable by a goal of the body.
    have hbound : ∃ v, proved.value? ((r.frameAt s.length).term param) = some v := by
      cases param with
      | const t =>
        obtain ⟨v, hv⟩ := ((hvalid.rule hclause).params _ hparam).exists_value?
        rw [← Pool.value?_values] at hv
        exact ⟨v, hgrow.value?_eq (hentered.value?_eq hv)⟩
      | var n =>
        have hrule : prog.rule? id = some r := by simp only [Program.rule?, hclause]
        obtain ⟨g, hg, hgname, hvar⟩ := hG name hname id hid r hrule n hparam
        exact hbody _ r _ _ hclause hentered hproved g hg hgname _ hvar
    obtain ⟨v, hv⟩ := hbound
    obtain ⟨-, w, -, hw, -⟩ := Store.agree_of_rule henter hgrow hcopied hpair hv
    exact ⟨w, hw⟩

/-- Goals with names in `G` have all their arguments bound at the end of a branch. -/
theorem along_grounds (hG : prog.Grounds G) (hvalid : prog.Valid p) {b : Branch} {depth : Nat}
    {frame : Frame} {gs : List (Goal N)} {s s' : Store V}
    (hb : b ∈ prog.branches depth (gs.map (·.name))) (hbase : Store.GrowsTo p.values s)
    (h : prog.along b frame gs s = some s') {g : Goal N} (hg : g ∈ gs) (hname : G g.name)
    {o : Operand} (ho : o ∈ g.args) : ∃ v, s'.value? (frame.term o) = some v := by
  induction b generalizing depth frame gs s s' g o with
  | nil =>
    cases gs with
    | nil => cases hg
    | cons => cases h
  | call id body rest ihBody ihRest =>
    cases gs with
    | nil => cases h
    | cons g' gs =>
      obtain ⟨hid, hbodies, hrest⟩ := Program.call_mem_branches_iff.1 hb
      obtain ⟨s₁, hcall, halong⟩ := Program.along_cons h
      have hgrows : ∀ frame gs (s s' : Store V), prog.along body frame gs s = some s' →
          s.GrowsTo s' := fun _ _ _ _ => Program.along_grows
      rcases List.mem_cons.1 hg with rfl | hg
      · -- The goal is the first one: its clause binds all its arguments.
        have hbody : ∀ frame r (s s' : Store V), prog.clause? id = some (.rule r) →
            Store.GrowsTo p.values s → prog.along body frame r.body s = some s' →
            ∀ g ∈ r.body, G g.name → ∀ o ∈ g.args, ∃ v, s'.value? (frame.term o) = some v := by
          intro frame r s s' hclause hbase hproved g hg hname o ho
          obtain ⟨inner, rfl, hinner⟩ := (Program.mem_bodies_rule hclause).1 hbodies
          exact ihBody hinner hbase hproved hg hname ho
        obtain ⟨v, hv⟩ := viaClause_grounds hG hvalid hname hid hbase hgrows hbody hcall
          (List.mem_map_of_mem ho)
        exact ⟨v, (Program.along_grows halong).value?_eq hv⟩
      · -- Later goals start from the store after the first one.
        exact ihRest hrest (hbase.trans (Program.viaClause_grows hgrows hcall)) halong hg hname ho

/-- A member of a list that is paired with two things stands at two positions. -/
theorem eq_or_duplicate {α : Type _} {β : Type _} {l : List α} {ys : List β} {a : α} {x y : β}
    (hx : (a, x) ∈ l.zip ys) (hy : (a, y) ∈ l.zip ys) : x = y ∨ l.Duplicate a := by
  obtain ⟨i, hi, hix⟩ := List.mem_iff_getElem.1 hx
  obtain ⟨j, hj, hjy⟩ := List.mem_iff_getElem.1 hy
  rw [List.getElem_zip, Prod.mk.injEq] at hix hjy
  rw [List.length_zip] at hi hj
  obtain ⟨hli, hxi⟩ := hix
  obtain ⟨hlj, hyj⟩ := hjy
  rw [List.duplicate_iff_exists_distinct_get]
  rcases Nat.lt_trichotomy i j with hlt | rfl | hgt
  · exact .inr ⟨⟨i, by omega⟩, ⟨j, by omega⟩, hlt, hli.symm, hlj.symm⟩
  · exact .inl (hxi.symm.trans hyj)
  · exact .inr ⟨⟨j, by omega⟩, ⟨i, by omega⟩, hgt, hlj.symm, hli.symm⟩

/-- If calls bind what the heads repeat, every branch is settled. -/
theorem settled_of_grounds (hG : prog.Grounds G) (hin : prog.RepeatsIn G) (hvalid : prog.Valid p)
    {b : Branch} {depth : Nat} {frame : Frame} {gs : List (Goal N)} {s : Store V}
    (hb : b ∈ prog.branches depth (gs.map (·.name))) (hbase : Store.GrowsTo p.values s)
    (label : TermId → Option V) : prog.Settled label b frame gs s := by
  induction b generalizing depth frame gs s label with
  | nil => exact trivial
  | call id body rest ihBody ihRest =>
    cases gs with
    | nil => exact trivial
    | cons g gs =>
      obtain ⟨-, hbodies, hrest⟩ := Program.call_mem_branches_iff.1 hb
      constructor
      · intro r entered pairs proved hclause henter hproved
        -- Inside the rule, the body's goals are settled one level down.
        obtain ⟨inner, rfl, hinner⟩ := (Program.mem_bodies_rule hclause).1 hbodies
        have hentered := hbase.trans (Store.enter_grows henter).1
        refine ⟨fun n hnone x y hx hy => ?_, ihBody hinner hentered _⟩
        rcases eq_or_duplicate hx hy with rfl | hrepeated
        · exact BEq.refl (label x)
        · -- A variable at two positions is bound by the body, against `hnone`.
          have hrule : prog.rule? id = some r := by simp only [Program.rule?, hclause]
          obtain ⟨g', hg', hname, hvar⟩ := hin id r hrule n hrepeated
          obtain ⟨v, hv⟩ := along_grounds hG hvalid hinner hentered hproved hg' hname hvar
          rw [show proved.value? ((r.frameAt s.length).nth n) = some v from hv] at hnone
          cases hnone
      · intro s₁ hcall
        exact ihRest hrest
          (hbase.trans (Program.viaClause_grows (fun _ _ _ _ => Program.along_grows) hcall)) label

/-- All branches of a program that binds what it repeats are settled. -/
theorem Program.BindsRepeats.settled (h : prog.BindsRepeats) (hvalid : prog.Valid p) {b : Branch}
    {depth : Nat} {name : N} (hb : b ∈ prog.branches depth [name]) {args : List TermId}
    {s : Store V} (hbase : Store.GrowsTo p.values s) (label : TermId → Option V) :
    prog.Settled label b ⟨0, 0⟩ [⟨name, args.map .const⟩] s := by
  obtain ⟨G, hG, hin⟩ := h
  exact settled_of_grounds hG hin hvalid hb hbase label

end Hornbase
