import Hornbase.Proofs.Branch
import Hornbase.Proofs.Queries
import Hornbase.Proofs.Verdicts
import Mathlib.Data.Multiset.Bind

/-!
# Answers branch by branch

What a bounded request for all answers lists is one answer for each branch that succeeds, in the
order of the branches, and a query succeeds if there is one (`queryAll_answers`, `query_answers`).
Two databases can then be compared through their branches, without a look at the searches: if their
branches match one to one and matching branches give the same answer, then both list the same
answers, each as often (`permuted_of_rel`), and if the branches of one are among those of the other,
in order, then so are its answers.
-/

namespace Hornbase

universe u v

variable {N : Type u} {V : Type v}

/-! ## Answers of a program -/

namespace Program

variable [BEq V]

/-- The answer of a call along a branch, if the branch succeeds. -/
def answerAlong (prog : Program N) (name : N) (args : List TermId) (s : Store V) (b : Branch) :
    Option (Answer V) :=
  (prog.through b name args s).map fun s' => ⟨Store.values s' args⟩

variable [DecidableEq N]

/-- The answers of a call along all branches that nest at most `depth` rules. -/
def answers (prog : Program N) (depth : Nat) (name : N) (args : List TermId) (s : Store V) :
    List (Answer V) :=
  (prog.branches depth [name]).filterMap (prog.answerAlong name args s)

/-- The answers are the values of the arguments in the stores that the interpreter lists. -/
theorem answers_eq_map (prog : Program N) (depth : Nat) (name : N) (args : List TermId)
    (s : Store V) : prog.answers depth name args s
      = (prog.meaning depth name args s).map fun s' => ⟨Store.values s' args⟩ := by
  rw [meaning_eq_filterMap, List.map_filterMap]
  rfl

end Program

/-! ## Branches that match -/

/-- Lists whose members match one to one are the same up to order once they are mapped to something
that does not depend on which of two matching members is taken. -/
theorem perm_filterMap_of_rel {α β γ : Type _} {R : α → β → Prop} {l : List α} {l' : List β}
    {f : α → Option γ} {g : β → Option γ}
    (h : Multiset.Rel R (l : Multiset α) (l' : Multiset β))
    (hfg : ∀ a ∈ l, ∀ b ∈ l', R a b → f a = g b) :
    (l.filterMap f).Perm (l'.filterMap g) := by
  have hsame : Multiset.Rel (fun a b => f a = g b) (l : Multiset α) (l' : Multiset β) :=
    h.mono fun a ha b hb hab => hfg a ha b hb hab
  have hmap : (l.map f).Perm (l'.map g) := by
    rwa [← Multiset.coe_eq_coe, ← Multiset.map_coe, ← Multiset.map_coe, ← Multiset.rel_eq,
      Multiset.rel_map]
  have hflat := hmap.filterMap id
  rwa [List.filterMap_map, List.filterMap_map] at hflat

namespace Database

variable [DecidableEq N] [BEq V] {db db' : Database N V} {limit arity : Nat}
  {args args' : List TermId}

/-! ## Answers of a database -/

/-- A bounded request for all answers ends, and lists the answers of all branches. -/
theorem queryAll_answers (hvalid : db.Valid) (hlimit : db.config.maxDepth = some limit)
    (haccepted : db.argsFault? arity args = none) (name : N) :
    (∃ rounds o, db.queryAll rounds name arity args = some o) ∧
      ∀ rounds o, db.queryAll rounds name arity args = some o →
        o.result = db.program.answers limit name args db.pool.values := by
  refine ⟨exists_queryAll hvalid hlimit haccepted, fun rounds o ho => ?_⟩
  have hspec := queryAll_spec hvalid haccepted ho
  rwa [hlimit, Option.getD_some, ← Program.answers_eq_map] at hspec

/-- A bounded query ends, and succeeds if some branch gives an answer. -/
theorem query_answers (hvalid : db.Valid) (hlimit : db.config.maxDepth = some limit)
    (haccepted : db.argsFault? arity args = none) (name : N) :
    (∃ rounds o, db.query rounds name arity args = some o) ∧
      ∀ rounds o, db.query rounds name arity args = some o →
        (o.result = true ↔ db.program.answers limit name args db.pool.values ≠ []) := by
  refine ⟨exists_query hvalid hlimit haccepted, fun rounds o ho => ?_⟩
  rw [(query_takes hvalid hlimit haccepted ho).result_eq_true_iff, Program.answers_eq_map, ne_eq,
    ne_eq, List.map_eq_nil_iff]

/-- Two databases answer a call with the same answers, each as often as in the other, in whatever
order. All requests end. -/
structure Permuted (db db' : Database N V) (name : N) (arity : Nat) (args args' : List TermId) :
    Prop where
  /-- The request for all answers ends in both. -/
  all_ends : (∃ rounds o, db.queryAll rounds name arity args = some o) ∧
    ∃ rounds o, db'.queryAll rounds name arity args' = some o
  /-- It lists the same answers in both, up to their order. -/
  all_perm : ∀ rounds o rounds' o', db.queryAll rounds name arity args = some o →
    db'.queryAll rounds' name arity args' = some o' → o.result.Perm o'.result
  /-- The query ends in both. -/
  ends : (∃ rounds o, db.query rounds name arity args = some o) ∧
    ∃ rounds o, db'.query rounds name arity args' = some o
  /-- It succeeds in both or in neither. -/
  result_eq : ∀ rounds o rounds' o', db.query rounds name arity args = some o →
    db'.query rounds' name arity args' = some o' → o.result = o'.result

/-- Two databases answer a call alike if their branches match one to one and matching branches give
the same answer. -/
theorem permuted_of_rel (hvalid : db.Valid) (hvalid' : db'.Valid)
    (hlimit : db.config.maxDepth = some limit) (hlimit' : db'.config.maxDepth = some limit)
    (haccepted : db.argsFault? arity args = none)
    (haccepted' : db'.argsFault? arity args' = none) {name : N} {R : Branch → Branch → Prop}
    (hrel : Multiset.Rel R (db.program.branches limit [name] : Multiset Branch)
      (db'.program.branches limit [name] : Multiset Branch))
    (hsame : ∀ b ∈ db.program.branches limit [name], ∀ b' ∈ db'.program.branches limit [name],
      R b b' → db.program.answerAlong name args db.pool.values b
        = db'.program.answerAlong name args' db'.pool.values b') :
    db.Permuted db' name arity args args' := by
  have hperm : (db.program.answers limit name args db.pool.values).Perm
      (db'.program.answers limit name args' db'.pool.values) := perm_filterMap_of_rel hrel hsame
  obtain ⟨hall, hfound⟩ := queryAll_answers hvalid hlimit haccepted name
  obtain ⟨hall', hfound'⟩ := queryAll_answers hvalid' hlimit' haccepted' name
  obtain ⟨hone, hverdict⟩ := query_answers hvalid hlimit haccepted name
  obtain ⟨hone', hverdict'⟩ := query_answers hvalid' hlimit' haccepted' name
  refine ⟨⟨hall, hall'⟩, fun rounds o rounds' o' ho ho' => ?_, ⟨hone, hone'⟩,
    fun rounds o rounds' o' ho ho' => ?_⟩
  · rw [hfound rounds o ho, hfound' rounds' o' ho']
    exact hperm
  · -- A query succeeds just when there are answers, and only an empty list is an order of none.
    rw [Bool.eq_iff_iff, hverdict rounds o ho, hverdict' rounds' o' ho', ne_eq, ne_eq,
      ← List.perm_nil, ← List.perm_nil]
    exact not_congr ⟨fun h => hperm.symm.trans h, fun h => hperm.trans h⟩

end Database

end Hornbase
