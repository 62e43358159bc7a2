import Hornbase.Program

/-!
# Derivations

When a ground tuple follows from a program, said without any search: there is a finite proof tree
whose leaves are facts and whose inner nodes are ground instances of rules.
-/

namespace Hornbase

universe u v

/-- The value of an operand when the rule's variables have the values `σ` and the constants those of
`value?`. A variable that occurs nowhere needs no value. -/
def Operand.ground {V : Type v} (value? : TermId → Option V) (σ : Nat → Option V) :
    Operand → Option V
  | .var n => σ n
  | .const t => value? t

/-- `Derivable prog value? depth name vs` says that `name(vs)` has a proof tree in which no branch
nests more than `depth` rules. -/
inductive Derivable {N : Type u} {V : Type v} [DecidableEq N] (prog : Program N)
    (value? : TermId → Option V) : Nat → N → List V → Prop where
  /-- A stored fact is a leaf, at any depth. -/
  | fact {depth : Nat} {name : N} {vs : List V} {c : ClauseId} {f : Fact N} :
      c ∈ prog.candidates name → prog.fact? c = some f → f.parts.map value? = vs.map some →
      Derivable prog value? depth name vs
  /-- A ground instance of a rule stands on proof trees of its goals. -/
  | rule {depth : Nat} {name : N} {vs : List V} {c : ClauseId} {r : Rule N} (σ : Nat → Option V)
      (ws : Goal N → List V) :
      c ∈ prog.candidates name → prog.rule? c = some r →
      r.params.map (·.ground value? σ) = vs.map some →
      (∀ g ∈ r.body, g.args.map (·.ground value? σ) = (ws g).map some) →
      (∀ g ∈ r.body, Derivable prog value? depth g.name (ws g)) →
      Derivable prog value? (depth + 1) name vs

/-- Whether every variable of a rule's head occurs in its body. -/
def Rule.RangeRestricted {N : Type u} (r : Rule N) : Prop :=
  ∀ n, Operand.var n ∈ r.params → ∃ g ∈ r.body, Operand.var n ∈ g.args

/-- Whether every rule of a program is range-restricted. -/
def Program.RangeRestricted {N : Type u} (prog : Program N) : Prop :=
  ∀ c r, prog.rule? c = some r → r.RangeRestricted

/-! ## Deciding range restriction -/

/-- Whether the body mentions the operand, if it is a variable. -/
def Rule.Mentions {N : Type u} (r : Rule N) : Operand → Prop
  | .var n => ∃ g ∈ r.body, Operand.var n ∈ g.args
  | .const _ => True

instance {N : Type u} (r : Rule N) : (o : Operand) → Decidable (r.Mentions o)
  | .var n => inferInstanceAs (Decidable (∃ g ∈ r.body, Operand.var n ∈ g.args))
  | .const _ => isTrue trivial

theorem Rule.rangeRestricted_iff {N : Type u} (r : Rule N) :
    (∀ o ∈ r.params, r.Mentions o) ↔ r.RangeRestricted := by
  constructor
  · exact fun h n hn => h (.var n) hn
  · intro h o ho
    cases o with
    | var n => exact h n ho
    | const t => trivial

instance {N : Type u} (r : Rule N) : Decidable r.RangeRestricted :=
  decidable_of_iff _ r.rangeRestricted_iff

/-- Whether the clause is range-restricted if it is a rule. -/
def Clause.RangeRestricted {N : Type u} : Clause N → Prop
  | .fact _ => True
  | .rule r => r.RangeRestricted

instance {N : Type u} : (c : Clause N) → Decidable c.RangeRestricted
  | .fact _ => isTrue trivial
  | .rule r => inferInstanceAs (Decidable r.RangeRestricted)

/-- It suffices to look at the clauses that are stored. -/
theorem Program.rangeRestricted_iff {N : Type u} (prog : Program N) :
    (∀ c ∈ prog.clauses.toList, c.RangeRestricted) ↔ prog.RangeRestricted := by
  constructor
  · intro h c r hr
    unfold rule? at hr
    split at hr
    · next r' hc =>
      obtain rfl := Option.some.inj hr
      exact h (.rule r') (Array.mem_toList_iff.2 (Array.mem_of_getElem? hc))
    · cases hr
  · intro h c hc
    cases c with
    | fact f => trivial
    | rule r =>
      obtain ⟨i, hi⟩ := Array.mem_iff_getElem?.1 (Array.mem_toList_iff.1 hc)
      have hclause : prog.clause? ⟨i⟩ = some (.rule r) := hi
      exact h ⟨i⟩ r (by simp only [rule?, hclause])

instance {N : Type u} (prog : Program N) : Decidable prog.RangeRestricted :=
  decidable_of_iff _ prog.rangeRestricted_iff

end Hornbase
