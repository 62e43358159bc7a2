import Hornbase.Derivation
import Hornbase.Proofs.Branch
import Hornbase.Proofs.Validity
import Hornbase.Proofs.View
import Mathlib.Data.List.Forall2

/-!
# Labellings

A labelling says which value each term may come to hold, if any. A store fits a labelling if every
value in it equals the label of its term. `Supports` says of a branch that its clauses explain given
labels: those of a fact are its parts, and those of a rule are its head under some values of its
variables, which in turn are labels that the branch through the body explains.

The main statement is `along_of_supports`: from any store that fits, a branch that explains the
labels of the goals succeeds, and the store fits at the end. Nothing is asked of what is bound at
the start, so it makes no difference in which order the values become known.
-/

namespace Hornbase

universe u v

variable {N : Type u} {V : Type v} [BEq V]

/-! ## Equal labels -/

/-- Labels are compared by an equivalence if values are. -/
instance Option.instEquivBEq [EquivBEq V] : EquivBEq (Option V) where
  rfl := by
    intro x
    cases x with
    | none => rfl
    | some v => exact BEq.refl v
  symm := by
    intro x y h
    match x, y with
    | none, none => rfl
    | some v, some w => exact BEq.symm (α := V) h
  trans := by
    intro x y z hxy hyz
    match x, y, z with
    | none, none, none => rfl
    | some u, some v, some w => exact BEq.trans (α := V) hxy hyz

/-- A label equal to a value is a value. -/
theorem exists_of_some_beq {v : V} {x : Option V} (h : (some v == x) = true) :
    ∃ w, x = some w ∧ v == w := by
  cases x with
  | none => cases h
  | some w => exact ⟨w, rfl, h⟩

/-! ## Stores within labels -/

namespace Store

/-- Every value in the store equals the label of its term. -/
structure Within (s : Store V) (label : TermId → Option V) : Prop where
  value : ∀ {t v}, s.value? t = some v → ∃ w, label t = some w ∧ v == w

namespace Within

variable [EquivBEq V] {s : Store V} {label : TermId → Option V}

/-- A term can be bound to a value equal to its label. -/
theorem bind (h : s.Within label) {t : TermId} (ht : t.index < s.length) {v : V}
    (hv : (some v == label t) = true) :
    ∃ s', s.bind t v = some s' ∧ s'.length = s.length ∧ s'.Within label := by
  cases hheld : s.value? t with
  | some held =>
    -- The held value and `v` both equal the label, so the store stays as it is.
    obtain ⟨w, hw, hheldw⟩ := h.value hheld
    rw [hw] at hv
    have heq : held == v := BEq.trans hheldw (BEq.symm hv)
    refine ⟨s, ?_, rfl, h⟩
    rw [Store.bind, getElem?_of_lt ht, hheld]
    exact if_pos heq
  | none =>
    have hbind : s.bind t v = some (s.set t.index (some v)) := by
      rw [Store.bind, getElem?_of_lt ht, hheld]
    refine ⟨_, hbind, (bind_grows hbind).2, ⟨fun {u w} hu => ?_⟩⟩
    -- The label speaks for the new value at `t`, and for the old ones elsewhere.
    rw [value?_set ht] at hu
    split at hu
    · next hut =>
      obtain rfl := Option.some.inj hu
      rw [hut]
      exact exists_of_some_beq hv
    · exact h.value hu

/-- The first pair, if its terms have equal labels, is bound or put off. -/
theorem pair (h : s.Within label) {part arg : TermId} (hpart : part.index < s.length)
    (harg : arg.index < s.length) (hlabel : (label part == label arg) = true) :
    ∃ s₁ f, s₁.length = s.length ∧ s₁.Within label ∧
      (∀ x : Store V × List (TermId × TermId), (f x).1 = x.1) ∧
      ∀ rest, Store.unify ((part, arg) :: rest) s = (Store.unify rest s₁).map f := by
  simp only [Store.unify]
  cases hv : s.value? part with
  -- The part's value equals its label, and so the label of the argument.
  | some v =>
    obtain ⟨w, hw, hvw⟩ := h.value hv
    have hvarg : (some v == label arg) = true := by
      refine BEq.trans (b := label part) ?_ hlabel
      rw [hw]
      exact hvw
    obtain ⟨s₁, hbind, hlength, hwithin⟩ := h.bind harg hvarg
    exact ⟨s₁, fun x => x, hlength, hwithin, fun _ => rfl, fun rest => by simp [hbind]⟩
  | none =>
    cases hw : s.value? arg with
    | some w =>
      obtain ⟨x, hx, hwx⟩ := h.value hw
      have hwpart : (some w == label part) = true := by
        refine BEq.trans (b := label arg) ?_ (BEq.symm hlabel)
        rw [hx]
        exact hwx
      obtain ⟨s₁, hbind, hlength, hwithin⟩ := h.bind hpart hwpart
      exact ⟨s₁, fun x => x, hlength, hwithin, fun _ => rfl, fun rest => by simp [hbind]⟩
    | none =>
      -- Neither side has a value, and the pair is put off.
      exact ⟨s, fun x => (x.1, (part, arg) :: x.2), rfl, h, fun _ => rfl, fun rest => rfl⟩

/-- Pairs of terms with equal labels unify. -/
theorem unify {pairs : List (TermId × TermId)} (h : s.Within label)
    (hknown : ∀ x ∈ pairs, x.1.index < s.length ∧ x.2.index < s.length)
    (hlabel : ∀ x ∈ pairs, (label x.1 == label x.2) = true) :
    ∃ s' putOff, Store.unify pairs s = some (s', putOff) ∧ s'.Within label := by
  induction pairs generalizing s with
  | nil => exact ⟨s, [], rfl, h⟩
  | cons pair rest ih =>
    obtain ⟨hpart, harg⟩ := hknown pair (List.mem_cons_self ..)
    obtain ⟨s₁, f, hlength, hwithin, hf, hunify⟩ :=
      h.pair hpart harg (hlabel pair (List.mem_cons_self ..))
    obtain ⟨s', putOff, hrest, hs'⟩ := ih hwithin
      (fun x hx => hlength ▸ hknown x (List.mem_cons_of_mem _ hx))
      (fun x hx => hlabel x (List.mem_cons_of_mem _ hx))
    refine ⟨s', (f (s', putOff)).2, ?_, hs'⟩
    rw [hunify, hrest, Option.map_some, Option.some.injEq]
    exact Prod.ext (hf _) rfl

/-- Pairs of terms can be copied back if their labels are equal where the part has one. -/
theorem copyBack {pairs : List (TermId × TermId)} (h : s.Within label)
    (hlabel : ∀ x ∈ pairs, ∀ v, label x.1 = some v →
      x.2.index < s.length ∧ (label x.1 == label x.2) = true) :
    ∃ s', Store.copyBack pairs s = some s' ∧ s'.Within label := by
  induction pairs generalizing s with
  | nil => exact ⟨s, rfl, h⟩
  | cons pair rest ih =>
    have hrest := fun x hx => hlabel x (List.mem_cons_of_mem pair hx)
    simp only [Store.copyBack]
    cases hv : s.value? pair.1 with
    -- Nothing to copy, so no label is needed for this pair.
    | none => exact ih h hrest
    | some v =>
      -- The value agrees with the label of its source, and so with the label of its target.
      obtain ⟨w, hw, hvw⟩ := h.value hv
      obtain ⟨harg, hsame⟩ := hlabel pair (List.mem_cons_self ..) w hw
      have hvarg : (some v == label pair.2) = true := by
        refine BEq.trans (b := label pair.1) ?_ hsame
        rw [hw]
        exact hvw
      obtain ⟨s₁, hbind, hlength, hwithin⟩ := h.bind harg hvarg
      obtain ⟨s', hcopied, hs'⟩ := ih hwithin (by rw [hlength]; exact hrest)
      exact ⟨s', by simp [hbind, hcopied], hs'⟩

end Within

end Store

/-! ## Stores that fit -/

/-- The store has grown out of the pool `p`, whose values are labels, and its values equal their
labels. -/
structure Store.Fits (p : Pool V) (s : Store V) (label : TermId → Option V) : Prop where
  base : Store.GrowsTo p.values s
  fixed : ∀ {t v}, p.value? t = some v → label t = some v
  within : s.Within label

/-- The labels of the terms before position `n`, and `σ` for those that are added behind. -/
def extendLabel (label : TermId → Option V) (n : Nat) (σ : Nat → Option V) (t : TermId) :
    Option V :=
  if t.index < n then label t else σ (t.index - n)

namespace Store.Fits

variable {p : Pool V} {s : Store V} {label : TermId → Option V}

/-- A term bound in the pool holds its value in the store. -/
theorem value?_of_base (h : s.Fits p label) {t : TermId} {v : V} (hv : p.value? t = some v) :
    s.value? t = some v :=
  h.base.value?_eq (by rwa [Pool.value?_values])

/-- A store fits the labels that are its own values. -/
theorem self [ReflBEq V] (h : Store.GrowsTo p.values s) : s.Fits p s.value? :=
  ⟨h, fun hv => h.value?_eq (by rwa [Pool.value?_values]), ⟨fun {_ v} hv => ⟨v, hv, BEq.refl v⟩⟩⟩

/-- A frame of unbound terms fits any labels. -/
theorem frame (h : s.Fits p label) (n : Nat) (σ : Nat → Option V) :
    Store.Fits p (s ++ List.replicate n none) (extendLabel label s.length σ) where
  base := h.base.trans (growsTo_append_replicate s n)
  fixed := by
    intro t v hv
    rw [extendLabel, if_pos (lt_of_value? (h.value?_of_base hv))]
    exact h.fixed hv
  within := by
    refine ⟨fun {t v} hv => ?_⟩
    rw [value?_append_replicate] at hv
    rw [extendLabel, if_pos (lt_of_value? hv)]
    exact h.within.value hv

end Store.Fits

/-! ## Branches that explain labels -/

/-- `Supports prog value? b labels` says that the clauses of `b` explain the labels of the arguments
of some goals, given the values of the constants. -/
inductive Supports (prog : Program N) (value? : TermId → Option V) :
    Branch → List (List (Option V)) → Prop
  | nil : Supports prog value? .nil []
  | fact {id : ClauseId} {body rest : Branch} {f : Fact N} {labels : List (Option V)}
      {more : List (List (Option V))} :
      prog.clause? id = some (.fact f) →
      List.Forall₂ (fun x y => (x == y) = true) (f.parts.map value?) labels →
      Supports prog value? rest more → Supports prog value? (.call id body rest) (labels :: more)
  | rule {id : ClauseId} {body rest : Branch} {r : Rule N} {labels : List (Option V)}
      {more : List (List (Option V))} (σ : Nat → Option V) :
      prog.clause? id = some (.rule r) →
      List.Forall₂ (fun x y => (x == y) = true) (r.params.map (·.ground value? σ)) labels →
      Supports prog value? body (r.body.map fun g => g.args.map (·.ground value? σ)) →
      Supports prog value? rest more → Supports prog value? (.call id body rest) (labels :: more)

/-- The labels of the arguments of a goal. -/
def Goal.labels (label : TermId → Option V) (frame : Frame) (g : Goal N) : List (Option V) :=
  (g.args.map frame.term).map label

omit [BEq V] in
/-- An operand of a rule has in its frame the label that it has under the labels of the frame. -/
theorem extendLabel_term {p : Pool V} {label : TermId → Option V} {n : Nat} {σ : Nat → Option V}
    {r : Rule N} (hn : p.size ≤ n) (hfixed : ∀ {t v}, p.value? t = some v → label t = some v)
    {o : Operand} (ho : o.Valid p r.locals.length) :
    extendLabel label n σ ((r.frameAt n).term o) = o.ground p.value? σ := by
  cases o with
  | var i =>
    have hge : ¬ (TermId.mk (n + i)).index < n := Nat.not_lt.2 (Nat.le_add_right n i)
    have hsub : (TermId.mk (n + i)).index - n = i := Nat.add_sub_cancel_left ..
    change extendLabel label n σ ⟨n + i⟩ = σ i
    rw [extendLabel, if_neg hge, hsub]
  | const t =>
    have ht : t.index < n := Nat.lt_of_lt_of_le (Pool.Fixed.lt ho) hn
    obtain ⟨v, hv⟩ := Pool.Fixed.exists_value? ho
    change extendLabel label n σ t = p.value? t
    rw [extendLabel, if_pos ht, hv]
    exact hfixed hv

omit [BEq V] in
/-- The goals of a rule have in its frame the labels that the values of its variables give them. -/
theorem Rule.Valid.labels_body {p : Pool V} {label : TermId → Option V} {n : Nat}
    {σ : Nat → Option V} {r : Rule N} (hr : r.Valid p) (hn : p.size ≤ n)
    (hfixed : ∀ {t v}, p.value? t = some v → label t = some v) :
    r.body.map (·.labels (extendLabel label n σ) (r.frameAt n))
      = r.body.map fun g => g.args.map (·.ground p.value? σ) := by
  refine List.map_congr_left fun g hg => ?_
  simp only [Goal.labels, List.map_map]
  exact List.map_congr_left fun o ho => extendLabel_term hn hfixed (hr.body g hg o ho)

/-! ## Labels that are explained can be reached -/

/-- A step from `s` succeeds and ends in a store that fits, and the terms that were there keep their
labels. -/
def Store.Reaches (p : Pool V) (s : Store V) (label : TermId → Option V) (r : Option (Store V)) :
    Prop :=
  ∃ s' label', r = some s' ∧ s'.Fits p label' ∧ s.length ≤ s'.length ∧
    ∀ t : TermId, t.index < s.length → label' t = label t

/-- One step after another. -/
theorem Store.Reaches.bind {p : Pool V} {s : Store V} {label : TermId → Option V}
    {r : Option (Store V)} {k : Store V → Option (Store V)} (h : s.Reaches p label r)
    (hk : ∀ (s' : Store V) (label' : TermId → Option V), s'.Fits p label' → s.length ≤ s'.length →
      (∀ t : TermId, t.index < s.length → label' t = label t) → s'.Reaches p label' (k s')) :
    s.Reaches p label (r.bind k) := by
  obtain ⟨s₁, label₁, rfl, hfits, hlength, hkept⟩ := h
  obtain ⟨s', label', hs', hfits', hlength', hkept'⟩ := hk s₁ label₁ hfits hlength hkept
  refine ⟨s', label', hs', hfits', Nat.le_trans hlength hlength', fun t ht => ?_⟩
  exact (hkept' t (Nat.lt_of_lt_of_le ht hlength)).trans (hkept t ht)

omit [BEq V] in
/-- Two lists of labels are related position by position if the pairs of what is labelled are. -/
theorem forall₂_map_iff_zip {α : Type _} {β : Type _} {R : Option V → Option V → Prop}
    {f : α → Option V} {g : β → Option V} {as : List α} {bs : List β} :
    List.Forall₂ R (as.map f) (bs.map g)
      ↔ as.length = bs.length ∧ ∀ x ∈ as.zip bs, R (f x.1) (g x.2) := by
  rw [List.forall₂_map_left_iff, List.forall₂_map_right_iff, List.forall₂_iff_zip]
  exact and_congr_right fun _ => ⟨fun h x hx => h hx, fun h a b hx => h (a, b) hx⟩

omit [BEq V] in
/-- Two lists have the same labels position by position if the pairs of what is labelled do. -/
theorem map_eq_map_iff_zip {α : Type _} {β : Type _} {f : α → Option V} {g : β → Option V}
    {as : List α} {bs : List β} :
    as.map f = bs.map g ↔ as.length = bs.length ∧ ∀ x ∈ as.zip bs, f x.1 = g x.2 := by
  rw [← forall₂_map_iff_zip, List.forall₂_eq_eq_eq]

/-- Every member of the second of two lists of one length is paired with one of the first. -/
theorem exists_mem_zip {α : Type _} {β : Type _} {as : List α} {bs : List β}
    (h : as.length = bs.length) {b : β} (hb : b ∈ bs) : ∃ a, (a, b) ∈ as.zip bs := by
  obtain ⟨i, hi, rfl⟩ := List.mem_iff_getElem.1 hb
  have hzip : i < (as.zip bs).length := by rw [List.length_zip]; omega
  refine ⟨as[i], ?_⟩
  rw [← List.getElem_zip (h := hzip)]
  exact List.getElem_mem hzip

/-- A list zipped with itself pairs every member with itself. -/
theorem zip_self {α : Type _} (as : List α) : as.zip as = as.map fun a => (a, a) := by
  conv_lhs => rw [← List.map_id' as, List.zip_map']

variable [EquivBEq V] {prog : Program N} {p : Pool V} {s : Store V} {label : TermId → Option V}
  {id : ClauseId} {args : List TermId}

/-- A fact whose parts equal the labels of the arguments proves the call. -/
theorem reaches_fact (hvalid : prog.Valid p) (hfits : s.Fits p label) {f : Fact N}
    (hclause : prog.clause? id = some (.fact f)) (hargs : ∀ t ∈ args, t.index < s.length)
    (hlabels : List.Forall₂ (fun x y => (x == y) = true) (f.parts.map p.value?) (args.map label))
    (body : Frame → List (Goal N) → Store V → Option (Store V)) :
    s.Reaches p label (prog.viaClause id body args s) := by
  obtain ⟨harity, hlabels⟩ := forall₂_map_iff_zip.1 hlabels
  have hfixed := hvalid.fact hclause
  have hknown : ∀ x ∈ f.parts.zip args, x.1.index < s.length ∧ x.2.index < s.length := by
    intro x hx
    have hpart : x.1.index < p.values.length := by
      rw [Pool.length_values]
      exact (hfixed x.1 (List.of_mem_zip hx).1).lt
    exact ⟨Nat.lt_of_lt_of_le hpart hfits.base.length_le, hargs x.2 (List.of_mem_zip hx).2⟩
  -- A part's label is the value it holds, which the explanation compares with the argument's label.
  have hpairs : ∀ x ∈ f.parts.zip args, (label x.1 == label x.2) = true := by
    intro x hx
    obtain ⟨v, hv⟩ := (hfixed x.1 (List.of_mem_zip hx).1).exists_value?
    have hlabel := hlabels x hx
    rwa [hv, ← hfits.fixed hv] at hlabel
  obtain ⟨s', putOff, hunify, hwithin⟩ := hfits.within.unify hknown hpairs
  obtain ⟨hgrow, hlength⟩ := Store.unify_grows hunify
  exact ⟨s', label, Program.viaClause_fact hclause harity hunify,
    ⟨hfits.base.trans hgrow, hfits.fixed, hwithin⟩, Nat.le_of_eq hlength.symm, fun _ _ => rfl⟩

/-- A rule whose head equals the labels of the arguments, under values of its variables from which
its body can be proved, proves the call. -/
theorem reaches_rule (hvalid : prog.Valid p) (hfits : s.Fits p label) {r : Rule N}
    (hclause : prog.clause? id = some (.rule r)) (hargs : ∀ t ∈ args, t.index < s.length)
    {σ : Nat → Option V}
    (hlabels : List.Forall₂ (fun x y => (x == y) = true) (r.params.map (·.ground p.value? σ))
      (args.map label))
    {body : Frame → List (Goal N) → Store V → Option (Store V)}
    (hbody : ∀ entered : Store V, entered.Fits p (extendLabel label s.length σ) →
      entered.length = s.length + r.locals.length →
      entered.Reaches p (extendLabel label s.length σ)
        (body (r.frameAt s.length) r.body entered)) :
    s.Reaches p label (prog.viaClause id body args s) := by
  obtain ⟨harity, hlabels⟩ := forall₂_map_iff_zip.1 hlabels
  have hsize : p.size ≤ s.length := by simpa using hfits.base.length_le
  have hr := hvalid.rule hclause
  have hgrown : (s ++ List.replicate r.locals.length none).length = s.length + r.locals.length := by
    simp
  have hpair : ∀ x ∈ (r.params.map (r.frameAt s.length).term).zip args,
      x.1.index < s.length + r.locals.length ∧ x.2.index < s.length ∧
        (extendLabel label s.length σ x.1 == extendLabel label s.length σ x.2) = true := by
    intro x hx
    rw [List.zip_map_left] at hx
    obtain ⟨⟨o, arg⟩, hmem, rfl⟩ := List.mem_map.1 hx
    have ho := hr.params o (List.of_mem_zip hmem).1
    have harg := hargs arg (List.of_mem_zip hmem).2
    refine ⟨ho.term_lt hsize, harg, ?_⟩
    rw [Prod.map_fst, Prod.map_snd, extendLabel_term hsize hfits.fixed ho]
    rw [id_eq, extendLabel, if_pos harg]
    exact hlabels (o, arg) hmem
  -- The head unifies, since both sides of every pair have equal labels once `σ` labels the frame.
  have hframe := hfits.frame r.locals.length σ
  obtain ⟨entered, pairs, henter, hwithin⟩ := hframe.within.unify
    (fun x hx => by rw [hgrown]; exact ⟨(hpair x hx).1, Nat.lt_add_right _ (hpair x hx).2.1⟩)
    (fun x hx => (hpair x hx).2.2)
  obtain ⟨hgrow, hlength⟩ := Store.enter_grows henter
  obtain ⟨proved, label', hproved, hfits', hlength', hkept⟩ :=
    hbody entered ⟨hfits.base.trans hgrow, hframe.fixed, hwithin⟩ hlength
  -- The body keeps these labels, so what it has bound can be copied back.
  have hput : ∀ x ∈ pairs, ∀ v, label' x.1 = some v →
      x.2.index < proved.length ∧ (label' x.1 == label' x.2) = true := by
    intro x hx _ _
    obtain ⟨hpart, harg, hsame⟩ := hpair x (Store.unify_putOff henter x hx).1
    rw [hkept x.1 (by omega), hkept x.2 (by omega)]
    exact ⟨by omega, hsame⟩
  obtain ⟨s', hcopied, hs'⟩ := hfits'.within.copyBack hput
  obtain ⟨hcopy, hsame⟩ := Store.copyBack_grows hcopied
  refine ⟨s', label', Program.viaClause_rule hclause harity henter hproved hcopied,
    ⟨hfits'.base.trans hcopy, hfits'.fixed, hs'⟩, by omega, fun t ht => ?_⟩
  rw [hkept t (by omega), extendLabel, if_pos ht]

/-- From a store that fits, a branch that explains the labels of the goals succeeds. -/
theorem along_of_supports (hvalid : prog.Valid p) {b : Branch} {frame : Frame} {gs : List (Goal N)}
    (hfits : s.Fits p label) (hterms : ∀ g ∈ gs, ∀ o ∈ g.args, (frame.term o).index < s.length)
    (hsupports : Supports prog p.value? b (gs.map (·.labels label frame))) :
    s.Reaches p label (prog.along b frame gs s) := by
  induction b generalizing frame gs s label with
  | nil =>
    cases gs with
    | nil => exact ⟨s, label, rfl, hfits, Nat.le_refl _, fun _ _ => rfl⟩
    | cons => cases hsupports
  | call id body rest ihBody ihRest =>
    cases gs with
    | nil => cases hsupports
    | cons g gs =>
      have hargs : ∀ t ∈ g.args.map frame.term, t.index < s.length := by
        intro t ht
        obtain ⟨o, ho, rfl⟩ := List.mem_map.1 ht
        exact hterms g (List.mem_cons_self ..) o ho
      have hterms' : ∀ g' ∈ gs, ∀ o ∈ g'.args, (frame.term o).index < s.length :=
        fun g' hg' => hterms g' (List.mem_cons_of_mem _ hg')
      -- The first call extends the labels, which makes no difference to the goals after it.
      have hgoals : ∀ label' : TermId → Option V,
          (∀ t : TermId, t.index < s.length → label' t = label t) →
          gs.map (·.labels label' frame) = gs.map (·.labels label frame) := by
        intro label' hkept
        refine List.map_congr_left fun g' hg' => ?_
        simp only [Goal.labels, List.map_map]
        exact List.map_congr_left fun o ho => hkept _ (hterms' g' hg' o ho)
      rw [List.map_cons] at hsupports
      cases hsupports with
      | fact hclause hlabels hmore =>
        refine (reaches_fact hvalid hfits hclause hargs hlabels _).bind ?_
        intro s₁ label₁ hfits₁ hlength hkept
        exact ihRest hfits₁ (fun g' hg' o ho => Nat.lt_of_lt_of_le (hterms' g' hg' o ho) hlength)
          (hgoals label₁ hkept ▸ hmore)
      | @rule _ _ _ r _ _ σ hclause hlabels hbody hmore =>
        have hr := hvalid.rule hclause
        have hsize : p.size ≤ s.length := by simpa using hfits.base.length_le
        -- Inside the rule, `σ` labels the frame.
        refine (reaches_rule hvalid hfits hclause hargs hlabels ?_).bind ?_
        · intro entered hentered hlength
          refine ihBody hentered (fun g' hg' o ho => ?_) ?_
          · rw [hlength]
            exact (hr.body g' hg' o ho).term_lt hsize
          · rw [hr.labels_body hsize hfits.fixed]
            exact hbody
        · intro s₁ label₁ hfits₁ hlength hkept
          exact ihRest hfits₁ (fun g' hg' o ho => Nat.lt_of_lt_of_le (hterms' g' hg' o ho) hlength)
            (hgoals label₁ hkept ▸ hmore)

omit [BEq V] [EquivBEq V] in
/-- The arguments of a call have their own labels. -/
theorem labels_call (name : N) (args : List TermId) (label : TermId → Option V) :
    [Goal.mk name (args.map .const)].map (·.labels label ⟨0, 0⟩) = [args.map label] := by
  simp [Goal.labels, Frame.term]

/-- From a store that fits, a branch that explains the labels of the arguments proves the call. -/
theorem through_of_supports (hvalid : prog.Valid p) {b : Branch} {name : N}
    (hfits : s.Fits p label) (hargs : ∀ t ∈ args, t.index < s.length)
    (hsupports : Supports prog p.value? b [args.map label]) :
    s.Reaches p label (prog.through b name args s) := by
  refine along_of_supports hvalid hfits ?_ ((labels_call name args label).symm ▸ hsupports)
  intro g hg o ho
  obtain rfl := List.mem_singleton.1 hg
  obtain ⟨t, ht, rfl⟩ := List.mem_map.1 ho
  exact hargs t ht

end Hornbase
