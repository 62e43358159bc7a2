import Hornbase.Proofs.Answers
import Hornbase.Proofs.Labelling
import Hornbase.Proofs.Validity
import Hornbase.Proofs.View
import Mathlib.Data.List.Forall2

/-!
# Other names for the same terms

Nothing depends on which terms a clause or a call is made of: only on their values, and on which of
the unbound ones are the same. Two stores match over a relation between their terms if related terms
have the same value and unbound terms are related one to one (`Store.Matches`). Every step of a
branch preserves this, and a frame that is laid out on both sides extends the relation. So two
branches that enter the same clauses up to the names of their terms both fail, or both succeed and
give the same answer to arguments that correspond (`answerAlong_eq`). Equality of values may be
anything here: the two sides compare the same values in the same order.

The values need not even be the same. It is enough that the two sides compare them with the same
outcomes, so all of this is shown for values that match up to a relation that `==` respects
(`Store.MatchesUpTo`, `answerAlong_rel`).
-/

namespace Hornbase

universe u v

variable {N : Type u} {V : Type v}

/-! ## Clauses up to names -/

/-- The same operand with other names: variables are numbered by `ρ`, and constants are terms that
`C` relates. -/
inductive Operand.Renamed (C : TermId → TermId → Prop) (ρ : Nat → Nat) : Operand → Operand → Prop
  | var (n : Nat) : Renamed C ρ (.var n) (.var (ρ n))
  | const {t t' : TermId} : C t t' → Renamed C ρ (.const t) (.const t')

/-- The same goal with other names. -/
structure Goal.Renamed (C : TermId → TermId → Prop) (ρ : Nat → Nat) (g g' : Goal N) : Prop where
  name_eq : g.name = g'.name
  args : List.Forall₂ (Operand.Renamed C ρ) g.args g'.args

/-- The same head and the same goals with other names, where `ρ` numbers the variables. -/
structure Rule.Renamed (C : TermId → TermId → Prop) (ρ : Nat → Nat) (r r' : Rule N) : Prop where
  injective : Function.Injective ρ
  locals_lt : ∀ i < r.locals.length, ρ i < r'.locals.length
  params : List.Forall₂ (Operand.Renamed C ρ) r.params r'.params
  body : List.Forall₂ (Goal.Renamed C ρ) r.body r'.body

/-- The same clause with other names. -/
inductive Clause.Renamed (C : TermId → TermId → Prop) : Clause N → Clause N → Prop
  | fact {f f' : Fact N} : List.Forall₂ C f.parts f'.parts → Renamed C (.fact f) (.fact f')
  | rule {r r' : Rule N} (ρ : Nat → Nat) : r.Renamed C ρ r' → Renamed C (.rule r) (.rule r')

/-- Clauses that differ in names only have the same arity. -/
theorem Clause.Renamed.arity_eq {C : TermId → TermId → Prop} {c c' : Clause N}
    (h : c.Renamed C c') : c.arity = c'.arity := by
  cases h with
  | fact hparts => exact hparts.length_eq
  | rule ρ hrule => exact hrule.params.length_eq

/-- Goals that differ in names of terms only call the same relations. -/
theorem map_name_eq {C : TermId → TermId → Prop} {ρ : Nat → Nat} {gs gs' : List (Goal N)}
    (h : List.Forall₂ (Goal.Renamed C ρ) gs gs') : gs.map (·.name) = gs'.map (·.name) := by
  induction h with
  | nil => rfl
  | cons hgoal _ ih => rw [List.map_cons, List.map_cons, hgoal.name_eq, ih]

/-- Branches that enter related clauses in turn. -/
inductive Branch.Rel (S : ClauseId → ClauseId → Prop) : Branch → Branch → Prop
  | nil : Rel S .nil .nil
  | call {id id' : ClauseId} {body body' rest rest' : Branch} :
    S id id' → Rel S body body' → Rel S rest rest' →
      Rel S (.call id body rest) (.call id' body' rest')

/-! ## Programs with the same clauses -/

namespace Program

variable [DecidableEq N]

/-- Under every name stand the same clauses up to `S`, in whatever order. -/
def SameClauses (S : Clause N → Clause N → Prop) (prog prog' : Program N) : Prop :=
  ∀ name, Multiset.Rel (fun id id' => Option.Rel S (prog.clause? id) (prog'.clause? id'))
    (prog.candidates name : Multiset ClauseId) (prog'.candidates name : Multiset ClauseId)

/-- Under a name that is not in the index stands no clause. -/
theorem candidates_eq_nil {prog : Program N} {name : N} (h : name ∉ prog.index.map (·.1)) :
    prog.candidates name = [] := by
  obtain ⟨clauses, index⟩ := prog
  simp only [candidates]
  induction index with
  | nil => rfl
  | cons entry rest ih =>
    rw [List.map_cons, List.mem_cons, not_or] at h
    rw [filed, if_neg (Ne.symm h.1)]
    exact ih h.2

/-- It is enough to compare the names that the programs use. -/
theorem sameClauses_of_names {S : Clause N → Clause N → Prop} {prog prog' : Program N}
    (names : List N) (hnames : ∀ name ∈ prog.index.map (·.1), name ∈ names)
    (hnames' : ∀ name ∈ prog'.index.map (·.1), name ∈ names)
    (h : ∀ name ∈ names, Multiset.Rel
      (fun id id' => Option.Rel S (prog.clause? id) (prog'.clause? id'))
      (prog.candidates name : Multiset ClauseId) (prog'.candidates name : Multiset ClauseId)) :
    prog.SameClauses S prog' := by
  intro name
  by_cases hname : name ∈ names
  · exact h name hname
  · rw [candidates_eq_nil (mt (hnames name) hname), candidates_eq_nil (mt (hnames' name) hname)]
    exact .zero

end Program

/-! ## Optional results that are related -/

/-- Related results stay so under a weaker relation. -/
theorem rel_imp {α β : Type _} {R S : α → β → Prop} {x : Option α} {y : Option β}
    (h : Option.Rel R x y) (hRS : ∀ a b, R a b → S a b) : Option.Rel S x y := by
  cases h with
  | none => exact .none
  | some hab => exact .some (hRS _ _ hab)

/-- Related results lead to related results. -/
theorem rel_bind {α β γ δ : Type _} {R : α → β → Prop} {S : γ → δ → Prop} {x : Option α}
    {y : Option β} {f : α → Option γ} {g : β → Option δ} (h : Option.Rel R x y)
    (hfg : ∀ a b, R a b → Option.Rel S (f a) (g b)) : Option.Rel S (x.bind f) (y.bind g) := by
  cases h with
  | none => exact .none
  | some hab => exact hfg _ _ hab

/-- Related results are mapped to related results. -/
theorem rel_map {α β γ δ : Type _} {R : α → β → Prop} {S : γ → δ → Prop} {x : Option α}
    {y : Option β} {f : α → γ} {g : β → δ} (h : Option.Rel R x y)
    (hfg : ∀ a b, R a b → S (f a) (g b)) : Option.Rel S (x.map f) (y.map g) := by
  cases h with
  | none => exact .none
  | some hab => exact .some (hfg _ _ hab)

/-- Results are related if what they come from is. -/
theorem rel_of_rel {α β γ δ : Type _} {R : γ → δ → Prop} {S : α → γ → Prop} {T : β → δ → Prop}
    {Q : α → β → Prop} {x : Option α} {y : Option β} {z : Option γ} {w : Option δ}
    (hz : Option.Rel R z w) (hx : Option.Rel S x z) (hy : Option.Rel T y w)
    (h : ∀ a b c d, R c d → S a c → T b d → Q a b) : Option.Rel Q x y := by
  cases hz with
  | none =>
    cases hx
    cases hy
    exact .none
  | some hR =>
    cases hx with
    | some hS =>
      cases hy with
      | some hT => exact .some (h _ _ _ _ hR hS hT)

/-- Results are the same if they are related by equality. -/
theorem option_rel_eq {α : Type _} {x y : Option α} : Option.Rel Eq x y ↔ x = y := by
  constructor
  · rintro (⟨rfl⟩ | _) <;> rfl
  · rintro rfl
    cases x with
    | none => exact .none
    | some a => exact .some rfl

/-- What stands at the same position of related lists is related. -/
theorem rel_getElem? {α β : Type _} {S : α → β → Prop} {as : List α} {bs : List β}
    (h : List.Forall₂ S as bs) (i : Nat) : Option.Rel S as[i]? bs[i]? := by
  induction h generalizing i with
  | nil => exact .none
  | cons hab _ ih =>
    cases i with
    | zero => exact .some hab
    | succ i => exact ih i

/-! ## Stores that match -/

/-- Terms that `R` relates are terms of the stores with the same value, and unbound terms are
related one to one. -/
structure Store.Matches (R : TermId → TermId → Prop) (s s' : Store V) : Prop where
  lt : ∀ {t t'}, R t t' → t.index < s.length ∧ t'.index < s'.length
  value?_eq : ∀ {t t'}, R t t' → s.value? t = s'.value? t'
  eq_iff : ∀ {t t' u u'}, R t t' → R u u' → s.value? t = none → (t = u ↔ t' = u')

/-- Terms that `R` relates are terms of the stores, with values that `E` relates or with none, and
unbound terms are related one to one. -/
structure Store.MatchesUpTo (E : V → V → Prop) (R : TermId → TermId → Prop) (s s' : Store V) :
    Prop where
  lt : ∀ {t t'}, R t t' → t.index < s.length ∧ t'.index < s'.length
  value?_rel : ∀ {t t'}, R t t' → Option.Rel E (s.value? t) (s'.value? t')
  eq_iff : ∀ {t t' u u'}, R t t' → R u u' → s.value? t = none → (t = u ↔ t' = u')

/-- Values that `E` relates are compared with the same outcome. -/
def ComparesAlike [BEq V] (E : V → V → Prop) : Prop :=
  ∀ {a a' b b'}, E a a' → E b b' → (a == b) = (a' == b')

/-- The same values are. -/
theorem comparesAlike_eq [BEq V] : ComparesAlike (V := V) Eq := by
  rintro a _ b _ rfl rfl
  rfl

/-- Both terms of a pair are related to those of another pair. -/
def RelatedPairs (R : TermId → TermId → Prop) (x x' : TermId × TermId) : Prop :=
  R x.1 x'.1 ∧ R x.2 x'.2

/-- Lists of related terms make related pairs. -/
theorem forall₂_zip {R : TermId → TermId → Prop} {as as' bs bs' : List TermId}
    (has : List.Forall₂ R as as') (hbs : List.Forall₂ R bs bs') :
    List.Forall₂ (RelatedPairs R) (as.zip bs) (as'.zip bs') := by
  induction has generalizing bs bs' with
  | nil => exact .nil
  | cons ha _ ih =>
    cases hbs with
    | nil => exact .nil
    | cons hb hbs => exact .cons ⟨ha, hb⟩ (ih hbs)

/-- `R`, and the relation of the variables of two frames: one at position `n` of a store, the other
at position `n'`. -/
def withFrames (R : TermId → TermId → Prop) (n n' : Nat) (ρ : Nat → Nat) (locals : Nat)
    (t t' : TermId) : Prop :=
  R t t' ∨ ∃ i < locals, t = ⟨n + i⟩ ∧ t' = ⟨n' + ρ i⟩

/-- An operand means related terms in the two frames. -/
theorem Operand.Renamed.term {C R : TermId → TermId → Prop} {ρ : Nat → Nat} {o o' : Operand}
    (h : o.Renamed C ρ o') (hC : ∀ t t', C t t' → R t t') {p : Pool V} {r r' : Rule N}
    (ho : o.Valid p r.locals.length) (n n' : Nat) :
    withFrames R n n' ρ r.locals.length ((r.frameAt n).term o) ((r'.frameAt n').term o') := by
  cases h with
  | var i => exact .inr ⟨i, ho, rfl, rfl⟩
  | const ht => exact .inl (hC _ _ ht)

/-- Operands mean related terms in the two frames. -/
theorem forall₂_term {C R : TermId → TermId → Prop} {ρ : Nat → Nat} {os os' : List Operand}
    (h : List.Forall₂ (Operand.Renamed C ρ) os os') (hC : ∀ t t', C t t' → R t t') {p : Pool V}
    {r r' : Rule N} (hos : ∀ o ∈ os, o.Valid p r.locals.length) (n n' : Nat) :
    List.Forall₂ (withFrames R n n' ρ r.locals.length) (os.map (r.frameAt n).term)
      (os'.map (r'.frameAt n').term) := by
  rw [List.forall₂_map_left_iff, List.forall₂_map_right_iff]
  exact ((List.forall₂_and_left os os').2 ⟨hos, h⟩).imp fun o o' ho => ho.2.term hC ho.1 n n'

namespace Store.MatchesUpTo

variable {E : V → V → Prop} {R : TermId → TermId → Prop} {s s' : Store V}

/-- Stores match over fewer terms, too. -/
theorem mono {R' : TermId → TermId → Prop} (h : s.MatchesUpTo E R' s')
    (hR : ∀ t t', R t t' → R' t t') : s.MatchesUpTo E R s' where
  lt hab := h.lt (hR _ _ hab)
  value?_rel hab := h.value?_rel (hR _ _ hab)
  eq_iff hab hcd := h.eq_iff (hR _ _ hab) (hR _ _ hcd)

/-- Stores that match have related values for related terms. -/
theorem values_rel (h : s.MatchesUpTo E R s') {ts ts' : List TermId} (hts : List.Forall₂ R ts ts') :
    List.Forall₂ (Option.Rel E) (Store.values s ts) (Store.values s' ts') := by
  rw [Store.values, Store.values, List.forall₂_map_left_iff, List.forall₂_map_right_iff]
  exact hts.imp fun _ _ => h.value?_rel

/-- Frames laid out behind stores that match are related variable by variable. -/
theorem frames (h : s.MatchesUpTo E R s') {ρ : Nat → Nat} (hρ : Function.Injective ρ) {k k' : Nat}
    (hlt : ∀ i < k, ρ i < k') :
    Store.MatchesUpTo E (withFrames R s.length s'.length ρ k) (s ++ List.replicate k none)
      (s' ++ List.replicate k' none) := by
  -- An old term is never a term of a frame.
  have hnew : ∀ {t t'}, R t t' → ∀ i, t ≠ ⟨s.length + i⟩ ∧ t' ≠ ⟨s'.length + ρ i⟩ := by
    intro t t' ht i
    obtain ⟨hlt, hlt'⟩ := h.lt ht
    constructor
    · rintro rfl
      exact absurd hlt (Nat.not_lt.2 (Nat.le_add_right ..))
    · rintro rfl
      exact absurd hlt' (Nat.not_lt.2 (Nat.le_add_right ..))
  refine ⟨?_, ?_, ?_⟩
  · rintro t t' (ht | ⟨i, hi, rfl, rfl⟩)
    · obtain ⟨hlt, hlt'⟩ := h.lt ht
      simp only [List.length_append, List.length_replicate]
      omega
    · have := hlt i hi
      simp only [List.length_append, List.length_replicate]
      omega
  · intro t t' ht
    rw [value?_append_replicate, value?_append_replicate]
    obtain ht | ⟨i, hi, rfl, rfl⟩ := ht
    · exact h.value?_rel ht
    · -- Two cells of new frames are both unbound.
      rw [value?, value?, List.getElem?_eq_none (Nat.le_add_right ..),
        List.getElem?_eq_none (Nat.le_add_right ..)]
      exact .none
  · intro t t' u u' ht hu hnone
    rw [value?_append_replicate] at hnone
    obtain ht | ⟨i, -, rfl, rfl⟩ := ht
    · obtain hu | ⟨j, -, rfl, rfl⟩ := hu
      · exact h.eq_iff ht hu hnone
      · -- A term of the frame differs from all older ones on both sides.
        exact iff_of_false (hnew ht j).1 (hnew ht j).2
    · obtain hu | ⟨j, -, rfl, rfl⟩ := hu
      · exact iff_of_false (hnew hu i).1.symm (hnew hu i).2.symm
      · simp only [TermId.mk.injEq, Nat.add_left_cancel_iff, hρ.eq_iff]

variable [BEq V]

/-- Related terms are bound alike to related values. -/
theorem bind (h : s.MatchesUpTo E R s') (hE : ComparesAlike E) {t t' : TermId} (ht : R t t')
    {v v' : V} (hv : E v v') : Option.Rel (Store.MatchesUpTo E R) (s.bind t v) (s'.bind t' v') := by
  obtain ⟨hlt, hlt'⟩ := h.lt ht
  rw [Store.bind, Store.bind, getElem?_of_lt hlt, getElem?_of_lt hlt']
  have hvalue := h.value?_rel ht
  generalize hheld : s.value? t = x at hvalue ⊢
  generalize s'.value? t' = x' at hvalue ⊢
  cases hvalue with
  -- Both terms are bound, and the comparisons come out alike.
  | some hab =>
    simp only [hE hab hv]
    split
    · exact .some h
    · exact .none
  | none =>
    refine .some ⟨fun hu => ?_, fun {u u'} hu => ?_, fun {u u' w w'} hu hw hnone => ?_⟩
    · rw [List.length_set, List.length_set]
      exact h.lt hu
    · rw [value?_set hlt, value?_set hlt']
      -- The terms that now have the value are the same on both sides.
      have hsame : u = t ↔ u' = t' := eq_comm.trans ((h.eq_iff ht hu hheld).trans eq_comm)
      simp only [hsame]
      split
      · exact .some hv
      · exact h.value?_rel hu
    · rw [value?_set hlt] at hnone
      split at hnone
      · cases hnone
      · exact h.eq_iff hu hw hnone

/-- Related pairs unify alike, and what is put off is related. -/
theorem unify (h : s.MatchesUpTo E R s') (hE : ComparesAlike E)
    {pairs pairs' : List (TermId × TermId)} (hpairs : List.Forall₂ (RelatedPairs R) pairs pairs') :
    Option.Rel (fun y y' => y.1.MatchesUpTo E R y'.1 ∧ List.Forall₂ (RelatedPairs R) y.2 y'.2)
      (s.unify pairs) (s'.unify pairs') := by
  induction hpairs generalizing s s' with
  | nil => exact .some ⟨h, .nil⟩
  | @cons pair pair' rest rest' hpair _ ih =>
    obtain ⟨hpart, harg⟩ := hpair
    have hparts := h.value?_rel hpart
    have hargs := h.value?_rel harg
    simp only [Store.unify]
    generalize s.value? pair.1 = x at hparts ⊢
    generalize s'.value? pair'.1 = x' at hparts ⊢
    generalize s.value? pair.2 = y at hargs ⊢
    generalize s'.value? pair'.2 = y' at hargs ⊢
    cases hparts with
    | some hv => exact rel_bind (h.bind hE harg hv) fun _ _ => ih
    | none =>
      cases hargs with
      | some hw => exact rel_bind (h.bind hE hpart hw) fun _ _ => ih
      -- Neither side has a value in either store, so both put the pair off.
      | none => exact rel_map (ih h) fun _ _ hrest => ⟨hrest.1, .cons ⟨hpart, harg⟩ hrest.2⟩

/-- Related pairs are copied back alike. -/
theorem copyBack (h : s.MatchesUpTo E R s') (hE : ComparesAlike E)
    {pairs pairs' : List (TermId × TermId)} (hpairs : List.Forall₂ (RelatedPairs R) pairs pairs') :
    Option.Rel (Store.MatchesUpTo E R) (Store.copyBack pairs s) (Store.copyBack pairs' s') := by
  induction hpairs generalizing s s' with
  | nil => exact .some h
  | @cons pair pair' rest rest' hpair _ ih =>
    have hparts := h.value?_rel hpair.1
    simp only [Store.copyBack]
    generalize s.value? pair.1 = x at hparts ⊢
    generalize s'.value? pair'.1 = x' at hparts ⊢
    cases hparts with
    | none => exact ih h
    | some hv => exact rel_bind (h.bind hE hpair.2 hv) fun _ _ => ih

end Store.MatchesUpTo

/-! ## Stores with the same values -/

/-- Stores match if they do up to equality. -/
theorem Store.matchesUpTo_eq_iff {R : TermId → TermId → Prop} {s s' : Store V} :
    s.MatchesUpTo Eq R s' ↔ s.Matches R s' := by
  constructor
  · exact fun h => ⟨h.lt, fun ht => option_rel_eq.1 (h.value?_rel ht), h.eq_iff⟩
  · exact fun h => ⟨h.lt, fun ht => option_rel_eq.2 (h.value?_eq ht), h.eq_iff⟩

namespace Store.Matches

variable {R : TermId → TermId → Prop} {s s' : Store V}

/-- Stores match over fewer terms, too. -/
theorem mono {R' : TermId → TermId → Prop} (h : s.Matches R' s') (hR : ∀ t t', R t t' → R' t t') :
    s.Matches R s' :=
  matchesUpTo_eq_iff.1 ((matchesUpTo_eq_iff.2 h).mono hR)

/-- Stores that match have the same values for related terms. -/
theorem values_eq (h : s.Matches R s') {ts ts' : List TermId} (hts : List.Forall₂ R ts ts') :
    Store.values s ts = Store.values s' ts' := by
  have hvalues := (matchesUpTo_eq_iff.2 h).values_rel hts
  rw [← List.forall₂_eq_eq_eq]
  exact hvalues.imp fun _ _ => option_rel_eq.1

/-- Frames laid out behind stores that match are related variable by variable. -/
theorem frames (h : s.Matches R s') {ρ : Nat → Nat} (hρ : Function.Injective ρ) {k k' : Nat}
    (hlt : ∀ i < k, ρ i < k') :
    Store.Matches (withFrames R s.length s'.length ρ k) (s ++ List.replicate k none)
      (s' ++ List.replicate k' none) :=
  matchesUpTo_eq_iff.1 ((matchesUpTo_eq_iff.2 h).frames hρ hlt)

variable [BEq V] {pairs pairs' : List (TermId × TermId)}

/-- Related pairs unify alike, and what is put off is related. -/
theorem unify (h : s.Matches R s') (hpairs : List.Forall₂ (RelatedPairs R) pairs pairs') :
    Option.Rel (fun y y' => y.1.Matches R y'.1 ∧ List.Forall₂ (RelatedPairs R) y.2 y'.2)
      (s.unify pairs) (s'.unify pairs') :=
  rel_imp ((matchesUpTo_eq_iff.2 h).unify comparesAlike_eq hpairs) fun _ _ hy =>
    ⟨matchesUpTo_eq_iff.1 hy.1, hy.2⟩

/-- Related pairs are copied back alike. -/
theorem copyBack (h : s.Matches R s') (hpairs : List.Forall₂ (RelatedPairs R) pairs pairs') :
    Option.Rel (Store.Matches R) (Store.copyBack pairs s) (Store.copyBack pairs' s') :=
  rel_imp ((matchesUpTo_eq_iff.2 h).copyBack comparesAlike_eq hpairs) fun _ _ =>
    matchesUpTo_eq_iff.1

end Store.Matches

/-! ## Branches through the same clauses -/

variable [BEq V] {E : V → V → Prop} {C : TermId → TermId → Prop} {prog prog' : Program N}
  {p : Pool V}

/-- Rules with the same head are entered alike by related calls. -/
theorem Store.MatchesUpTo.enter {R : TermId → TermId → Prop} {s s' : Store V}
    (h : s.MatchesUpTo E R s') (hE : ComparesAlike E) (hC : ∀ t t', C t t' → R t t')
    {ρ : Nat → Nat} {r r' : Rule N} (hr : r.Valid p) (hrule : r.Renamed C ρ r')
    {args args' : List TermId} (hargs : List.Forall₂ R args args') :
    Option.Rel (fun y y' =>
        y.1.MatchesUpTo E (withFrames R s.length s'.length ρ r.locals.length) y'.1 ∧
          List.Forall₂ (RelatedPairs (withFrames R s.length s'.length ρ r.locals.length)) y.2 y'.2)
      (s.enter r args) (s'.enter r' args') :=
  (h.frames hrule.injective hrule.locals_lt).unify hE
    (forall₂_zip (forall₂_term hrule.params hC hr.params s.length s'.length)
      (hargs.imp fun _ _ => .inl))

/-- The goals pass related arguments. -/
def RelatedGoals (R : TermId → TermId → Prop) (frame frame' : Frame) (g g' : Goal N) : Prop :=
  List.Forall₂ R (g.args.map frame.term) (g'.args.map frame'.term)

namespace Program

/-- A clause proves related calls alike if a rule's goals are proved alike in related frames. -/
theorem viaClause_matchesUpTo (hE : ComparesAlike E) (hvalid : prog.Valid p) {id id' : ClauseId}
    (hid : Option.Rel (Clause.Renamed C) (prog.clause? id) (prog'.clause? id'))
    {body body' : Frame → List (Goal N) → Store V → Option (Store V)}
    (hbody : ∀ {R : TermId → TermId → Prop} {frame frame' : Frame} {gs gs' : List (Goal N)}
      {s s' : Store V}, (∀ t t', C t t' → R t t') →
        List.Forall₂ (RelatedGoals R frame frame') gs gs' → s.MatchesUpTo E R s' →
        Option.Rel (Store.MatchesUpTo E R) (body frame gs s) (body' frame' gs' s'))
    {R : TermId → TermId → Prop} (hC : ∀ t t', C t t' → R t t') {args args' : List TermId}
    (hargs : List.Forall₂ R args args') {s s' : Store V} (h : s.MatchesUpTo E R s') :
    Option.Rel (Store.MatchesUpTo E R) (prog.viaClause id body args s)
      (prog'.viaClause id' body' args' s') := by
  unfold viaClause
  generalize hclause : prog.clause? id = c at hid
  generalize prog'.clause? id' = c' at hid
  cases hid with
  | none => exact .none
  | @some c c' hc =>
    simp only [hc.arity_eq, hargs.length_eq]
    split
    · -- With the wrong number of arguments neither clause proves anything.
      exact .none
    · cases hc with
      | fact hparts =>
        have hpairs := forall₂_zip (hparts.imp hC) hargs
        exact rel_map (h.unify hE hpairs) fun _ _ hrest => hrest.1
      | @rule r r' ρ hrule =>
        have hr := hvalid.rule hclause
        -- Both rules are entered, their bodies run in related frames, and the results are copied
        -- back.
        refine rel_bind (h.enter hE hC hr hrule hargs) fun entered entered' hentered => ?_
        have hgoals : List.Forall₂ (RelatedGoals (withFrames R s.length s'.length ρ r.locals.length)
            (r.frameAt s.length) (r'.frameAt s'.length)) r.body r'.body :=
          ((List.forall₂_and_left r.body r'.body).2 ⟨hr.body, hrule.body⟩).imp
            fun g g' hg => forall₂_term hg.2.args hC hg.1 _ _
        have hproved := hbody (fun t t' ht => .inl (hC t t' ht)) hgoals hentered.1
        refine rel_bind hproved fun proved proved' hmatches => ?_
        refine rel_imp (hmatches.copyBack hE hentered.2) fun _ _ hcopied => ?_
        -- Terms related before the call are still related after it. The frames are forgotten.
        exact hcopied.mono fun _ _ => .inl

/-- What relates no branches to none, the empty branch to itself and the branches of goals that nest
one rule less relates the ways through the bodies of clauses that differ in names only. -/
theorem bodies_of_renamed [DecidableEq N] {P : List Branch → List Branch → Prop} (hnone : P [] [])
    (hnil : P [.nil] [.nil]) {depth : Nat}
    (hinner : ∀ inner < depth, ∀ names : List N,
      P (prog.branches inner names) (prog'.branches inner names))
    {id id' : ClauseId}
    (hid : Option.Rel (Clause.Renamed C) (prog.clause? id) (prog'.clause? id')) :
    P (prog.bodies depth id) (prog'.bodies depth id') := by
  generalize hclause : prog.clause? id = c at hid
  generalize hclause' : prog'.clause? id' = c' at hid
  cases hid with
  | none => cases depth <;> simpa only [bodies, bodiesOver, hclause, hclause'] using hnone
  | some hc =>
    cases hc with
    | fact =>
      rw [bodies_fact hclause, bodies_fact hclause']
      exact hnil
    | rule ρ hrule =>
      cases depth with
      | zero => simpa only [bodies, bodiesOver, hclause, hclause'] using hnone
      | succ inner =>
        simp only [bodies, bodiesOver, hclause, hclause', map_name_eq hrule.body]
        exact hinner inner (Nat.lt_succ_self inner) _

/-- Branches that enter the same clauses up to names prove related goals alike. -/
theorem along_matchesUpTo (hE : ComparesAlike E) (hvalid : prog.Valid p) {b b' : Branch}
    (hb : b.Rel (fun id id' => Option.Rel (Clause.Renamed C) (prog.clause? id) (prog'.clause? id'))
      b')
    {R : TermId → TermId → Prop} (hC : ∀ t t', C t t' → R t t') {frame frame' : Frame}
    {gs gs' : List (Goal N)} (hgs : List.Forall₂ (RelatedGoals R frame frame') gs gs')
    {s s' : Store V} (h : s.MatchesUpTo E R s') :
    Option.Rel (Store.MatchesUpTo E R) (prog.along b frame gs s)
      (prog'.along b' frame' gs' s') := by
  induction hb generalizing R frame frame' gs gs' s s' with
  | nil =>
    cases hgs with
    | nil => exact .some h
    | cons => exact .none
  | call hid _ _ ihBody ihRest =>
    cases hgs with
    | nil => exact .none
    | cons hg hgs =>
      have hcall := viaClause_matchesUpTo hE hvalid hid (fun hC hgs h => ihBody hC hgs h) hC hg h
      exact rel_bind hcall fun _ _ hmatches => ihRest hC hgs hmatches

end Program

/-! ## Arguments that correspond -/

/-- The terms hold the same value. -/
def Pool.Shares (p p' : Pool V) (t t' : TermId) : Prop :=
  ∃ v, p.value? t = some v ∧ p'.value? t' = some v

/-- The arguments have the same values position by position, and the same pattern of unbound
terms. -/
structure Pool.Correspond (p p' : Pool V) (args args' : List TermId) : Prop where
  length_eq : args.length = args'.length
  value?_eq : ∀ x ∈ args.zip args', p.value? x.1 = p'.value? x.2
  eq_iff : ∀ x ∈ args.zip args', ∀ y ∈ args.zip args', p.value? x.1 = none →
    (x.1 = y.1 ↔ x.2 = y.2)

omit [BEq V] in
/-- Arguments correspond to themselves if they have the same values in both pools. -/
theorem Pool.Correspond.self {p p' : Pool V} {args : List TermId}
    (h : ∀ t ∈ args, p.value? t = p'.value? t) : p.Correspond p' args args := by
  refine ⟨rfl, fun x hx => ?_, fun x hx y hy _ => ?_⟩
  · rw [zip_self] at hx
    obtain ⟨t, ht, rfl⟩ := List.mem_map.1 hx
    exact h t ht
  · rw [zip_self] at hx hy
    obtain ⟨t, -, rfl⟩ := List.mem_map.1 hx
    obtain ⟨u, -, rfl⟩ := List.mem_map.1 hy
    exact Iff.rfl

omit [BEq V] in
/-- Single arguments correspond if they have the same value or are both unbound. -/
theorem Pool.Correspond.singleton {p p' : Pool V} {t t' : TermId} (h : p.value? t = p'.value? t') :
    p.Correspond p' [t] [t'] := by
  refine ⟨rfl, fun x hx => ?_, fun x hx y hy _ => ?_⟩
  · obtain rfl := List.mem_singleton.1 hx
    exact h
  · obtain rfl := List.mem_singleton.1 hx
    obtain rfl := List.mem_singleton.1 hy
    exact iff_of_true rfl rfl

/-- The terms hold values that `E` relates. -/
def Pool.SharesUpTo (E : V → V → Prop) (p p' : Pool V) (t t' : TermId) : Prop :=
  ∃ v v', p.value? t = some v ∧ p'.value? t' = some v' ∧ E v v'

/-- The answers have values that `E` relates, and are unbound, at the same positions. -/
def Answer.MatchesUpTo (E : V → V → Prop) (a a' : Answer V) : Prop :=
  List.Forall₂ (Option.Rel E) a.values a'.values

omit [BEq V] in
/-- Terms that hold the same value hold related ones. -/
theorem Pool.Shares.upTo (hrefl : ∀ v, E v v) {p' : Pool V} {t t' : TermId} (h : p.Shares p' t t') :
    p.SharesUpTo E p' t t' := by
  obtain ⟨v, hv, hv'⟩ := h
  exact ⟨v, v, hv, hv', hrefl v⟩

omit [BEq V] in
/-- Pools match up to `E` over constants that hold related values and over arguments that
correspond. -/
theorem Pool.Correspond.matchesUpTo {p p' : Pool V} {args args' : List TermId}
    (h : p.Correspond p' args args') (hrefl : ∀ v, E v v)
    (hC : ∀ t t', C t t' → p.SharesUpTo E p' t t') (hargs : ∀ t ∈ args, t.index < p.size)
    (hargs' : ∀ t ∈ args', t.index < p'.size) :
    Store.MatchesUpTo E (fun t t' => C t t' ∨ (t, t') ∈ args.zip args') p.values p'.values := by
  refine ⟨?_, ?_, ?_⟩
  · -- Terms that hold equal values are known to both pools, and so are arguments.
    rintro t t' (ht | hmem)
    · obtain ⟨v, v', hv, hv', -⟩ := hC t t' ht
      rw [← value?_values] at hv hv'
      exact ⟨Store.lt_of_value? hv, Store.lt_of_value? hv'⟩
    · rw [length_values, length_values]
      exact ⟨hargs t (List.of_mem_zip hmem).1, hargs' t' (List.of_mem_zip hmem).2⟩
  · intro t t' ht
    rw [value?_values, value?_values]
    obtain ht | hmem := ht
    · obtain ⟨v, v', hv, hv', hvv'⟩ := hC t t' ht
      rw [hv, hv']
      exact .some hvv'
    · rw [show p.value? t = p'.value? t' from h.value?_eq _ hmem]
      cases p'.value? t' with
      | none => exact .none
      | some v => exact .some (hrefl v)
  · intro t t' u u' ht hu hnone
    rw [value?_values] at hnone
    obtain ht | hmem := ht
    · obtain ⟨v, v', hv, -⟩ := hC t t' ht
      rw [hv] at hnone
      cases hnone
    · obtain hu | hmem' := hu
      · -- A bound term is neither of the unbound ones.
        obtain ⟨v, v', hv, hv', -⟩ := hC u u' hu
        have hnone' : p'.value? t' = none := (h.value?_eq _ hmem).symm.trans hnone
        refine iff_of_false ?_ ?_
        · rintro rfl
          exact absurd (hnone.symm.trans hv) nofun
        · rintro rfl
          exact absurd (hnone'.symm.trans hv') nofun
      · -- Two arguments are the same term in one pool just when they are so in the other.
        exact h.eq_iff _ hmem _ hmem' hnone

omit [BEq V] in
/-- Pools match over the constants that they share and over arguments that correspond. -/
theorem Pool.Correspond.matches_values {p p' : Pool V} {args args' : List TermId}
    (h : p.Correspond p' args args') (hargs : ∀ t ∈ args, t.index < p.size)
    (hargs' : ∀ t ∈ args', t.index < p'.size) :
    Store.Matches (fun t t' => p.Shares p' t t' ∨ (t, t') ∈ args.zip args') p.values p'.values :=
  Store.matchesUpTo_eq_iff.1
    (h.matchesUpTo (fun _ => rfl) (fun _ _ ht => ht.upTo fun _ => rfl) hargs hargs')

/-- Branches through the same clauses, up to names and up to constants with values that compare
alike, both fail or give answers that match to arguments that correspond. -/
theorem answerAlong_rel {p' : Pool V} (hE : ComparesAlike E) (hrefl : ∀ v, E v v)
    (hC : ∀ t t', C t t' → p.SharesUpTo E p' t t') (hvalid : prog.Valid p) {b b' : Branch}
    (hb : b.Rel (fun id id' => Option.Rel (Clause.Renamed C) (prog.clause? id) (prog'.clause? id'))
      b')
    {args args' : List TermId} (hcorrespond : p.Correspond p' args args')
    (hargs : ∀ t ∈ args, t.index < p.size) (hargs' : ∀ t ∈ args', t.index < p'.size) (name : N) :
    Option.Rel (Answer.MatchesUpTo E) (prog.answerAlong name args p.values b)
      (prog'.answerAlong name args' p'.values b') := by
  have hrelated : List.Forall₂ (fun t t' => C t t' ∨ (t, t') ∈ args.zip args') args args' :=
    List.forall₂_iff_zip.2 ⟨hcorrespond.length_eq, fun hmem => .inr hmem⟩
  have hgoals : List.Forall₂
      (RelatedGoals (fun t t' => C t t' ∨ (t, t') ∈ args.zip args') ⟨0, 0⟩ ⟨0, 0⟩)
      [⟨name, args.map .const⟩] [⟨name, args'.map .const⟩] := by
    refine .cons ?_ .nil
    simpa only [RelatedGoals, List.map_map, Function.comp_def, Frame.term, List.map_id'] using
      hrelated
  have halong := Program.along_matchesUpTo hE hvalid hb (fun _ _ => .inl) hgoals
    (hcorrespond.matchesUpTo hrefl hC hargs hargs')
  exact rel_map halong fun s s' hmatches => hmatches.values_rel hrelated

/-- Branches through the same clauses up to names give the same answer to arguments that
correspond. -/
theorem answerAlong_eq {p' : Pool V} (hvalid : prog.Valid p) {b b' : Branch}
    (hb : b.Rel (fun id id' =>
      Option.Rel (Clause.Renamed (p.Shares p')) (prog.clause? id) (prog'.clause? id')) b')
    {args args' : List TermId} (hcorrespond : p.Correspond p' args args')
    (hargs : ∀ t ∈ args, t.index < p.size) (hargs' : ∀ t ∈ args', t.index < p'.size) (name : N) :
    prog.answerAlong name args p.values b = prog'.answerAlong name args' p'.values b' := by
  have hanswers := answerAlong_rel comparesAlike_eq (fun _ => rfl)
    (fun _ _ ht => ht.upTo fun _ => rfl) hvalid hb hcorrespond hargs hargs' name
  refine option_rel_eq.1 (rel_imp hanswers fun a a' ha => ?_)
  have hvalues : List.Forall₂ Eq a.values a'.values := ha.imp fun _ _ => option_rel_eq.1
  rw [List.forall₂_eq_eq_eq] at hvalues
  exact congrArg Answer.mk hvalues

end Hornbase
