import Hornbase.Proofs.Labelling

/-!
# What a branch explains

The converse of `along_of_supports`: a branch that has succeeded explains what its goals hold then,
and what they hold in any later store. The values of a rule's variables are read off its frame when
its body is done, and a variable that is still unbound stands for the argument at its position in
the head. If a head repeats such a variable there are several arguments, and nothing links them once
the rule is left: one can get a value that the others never see. `Program.Settled` says that this
does not happen along a branch.
-/

namespace Hornbase

universe u v

variable {N : Type u} {V : Type v} [BEq V]

/-! ## Branches that are left settled -/

/-- The values of a rule's variables when its body is done. A variable that is still unbound takes
the label of the argument at its first position in the head. -/
def Rule.values (r : Rule N) (args : List TermId) (label : TermId → Option V) (n : Nat)
    (proved : Store V) (i : Nat) : Option V :=
  match proved.value? ((r.frameAt n).nth i) with
  | some v => some v
  | none => args[r.params.idxOf (.var i)]?.bind label

/-- Whether all arguments at a variable of the head have equal labels, unless the variable is bound
in the frame. -/
def Rule.Tied (r : Rule N) (frame : Frame) (args : List TermId) (label : TermId → Option V)
    (s : Store V) : Prop :=
  ∀ n, s.value? (frame.nth n) = none → ∀ x y, (Operand.var n, x) ∈ r.params.zip args →
    (Operand.var n, y) ∈ r.params.zip args → (label x == label y) = true

/-- Whether the arguments of all rules entered along a branch are tied when the rules are left, for
labels that say what the terms hold in the end. -/
def Program.Settled (prog : Program N) :
    (TermId → Option V) → Branch → Frame → List (Goal N) → Store V → Prop
  | _, .nil, _, _, _ => True
  | _, .call _ _ _, _, [], _ => True
  | label, .call id body rest, frame, g :: gs, s =>
    (∀ r entered pairs proved, prog.clause? id = some (.rule r) →
      s.enter r (g.args.map frame.term) = some (entered, pairs) →
      prog.along body (r.frameAt s.length) r.body entered = some proved →
      r.Tied (r.frameAt s.length) (g.args.map frame.term) label proved ∧
        Settled prog
          (extendLabel label s.length (r.values (g.args.map frame.term) label s.length proved))
          body (r.frameAt s.length) r.body entered) ∧
    ∀ s₁, prog.viaClause id (prog.along body) (g.args.map frame.term) s = some s₁ →
      Settled prog label rest frame gs s₁

/-! ## What a clause leaves -/

variable [EquivBEq V]

/-- What is bound in a rule's head when its body is done agrees with the arguments at the end. -/
theorem Store.agree_of_rule {r : Rule N} {args : List TermId} {s entered proved s' : Store V}
    {pairs : List (TermId × TermId)} (henter : s.enter r args = some (entered, pairs))
    (hbody : entered.GrowsTo proved) (hcopied : Store.copyBack pairs proved = some s')
    {o : Operand} {arg : TermId} (hx : (o, arg) ∈ r.params.zip args) {v : V}
    (hv : proved.value? ((r.frameAt s.length).term o) = some v) :
    s'.Agree ((r.frameAt s.length).term o) arg := by
  have hheads : ((r.frameAt s.length).term o, arg) ∈
      (r.params.map (r.frameAt s.length).term).zip args := by
    rw [List.zip_map_left]
    exact List.mem_map_of_mem hx
  rcases unify_agree henter _ hheads with hput | hagree
  · exact copyBack_agree hcopied hput hv
  · exact hagree.mono (hbody.trans (copyBack_grows hcopied).1)

variable {prog : Program N} {p : Pool V}

/-- An argument that agrees with a term has, in a later store that fits, the value of the term as
its label. -/
theorem Store.Fits.label_of_agree {s s' : Store V} {label : TermId → Option V}
    (hfits : s'.Fits p label) (hlater : s.GrowsTo s') {x y : TermId} (h : s.Agree x y) {v : V}
    (hv : s.value? x = some v) : (some v == label y) = true := by
  obtain ⟨v', w, hx, hy, heq⟩ := h
  obtain rfl : v = v' := Option.some.inj (hv.symm.trans hx)
  obtain ⟨w', hw', hww'⟩ := hfits.within.value (hlater.value?_eq hy)
  rw [hw']
  exact BEq.trans (α := V) heq hww'

/-! ## The values of a rule's variables -/

variable {r : Rule N} {args : List TermId} {label : TermId → Option V}
  {s entered proved s₁ s' : Store V} {pairs : List (TermId × TermId)}

omit [BEq V] [EquivBEq V] in
/-- A bound variable has the value that it holds. -/
theorem Rule.values_of_bound {n i : Nat} {v : V}
    (h : proved.value? ((r.frameAt n).nth i) = some v) :
    r.values args label n proved i = some v := by
  rw [values, h]

/-- With these values the proved body fits the labels of its frame. -/
theorem fits_values (hfits : s'.Fits p label) (hbase : Store.GrowsTo p.values s)
    (hproved : s.GrowsTo proved) (hlater : proved.GrowsTo s') :
    proved.Fits p (extendLabel label s.length (r.values args label s.length proved)) where
  base := hbase.trans hproved
  fixed := by
    intro t v hv
    rw [← Pool.value?_values] at hv
    rw [extendLabel, if_pos (Store.lt_of_value? (hbase.value?_eq hv))]
    exact hfits.fixed (by rwa [← Pool.value?_values])
  within := by
    refine ⟨fun {t v} hv => ?_⟩
    unfold extendLabel
    split
    · exact hfits.within.value (hlater.value?_eq hv)
    · next ht =>
      have hindex : (r.frameAt s.length).nth (t.index - s.length) = t := by
        obtain ⟨i⟩ := t
        rw [Frame.nth, TermId.mk.injEq]
        exact Nat.add_sub_cancel' (Nat.le_of_not_lt ht)
      refine ⟨v, Rule.values_of_bound ?_, BEq.refl v⟩
      rwa [hindex]

omit [EquivBEq V] in
/-- A variable that is unbound when the body is done has the label of any argument at its positions,
if these are tied. -/
theorem Rule.values_of_unbound {n i : Nat} (harity : r.params.length = args.length)
    (htied : r.Tied (r.frameAt n) args label proved)
    (hnone : proved.value? ((r.frameAt n).nth i) = none) {arg : TermId}
    (hx : (Operand.var i, arg) ∈ r.params.zip args) :
    (r.values args label n proved i == label arg) = true := by
  have hidx := List.idxOf_lt_length_of_mem (List.of_mem_zip hx).1
  have hzip : r.params.idxOf (.var i) < (r.params.zip args).length := by
    rw [List.length_zip]
    omega
  have hfirst : (r.params.zip args)[r.params.idxOf (.var i)]
      = (.var i, args[r.params.idxOf (.var i)]) := by
    rw [List.getElem_zip, List.getElem_idxOf]
  rw [values, hnone, List.getElem?_eq_getElem (harity ▸ hidx)]
  exact htied i hnone _ arg (hfirst ▸ List.getElem_mem hzip) hx

/-- With these values the head of the rule equals the labels of the arguments, if these are tied. -/
theorem ground_values (hr : r.Valid p) (hfits : s'.Fits p label)
    (hbase : Store.GrowsTo p.values entered) (henter : s.enter r args = some (entered, pairs))
    (hbody : entered.GrowsTo proved) (hcopied : Store.copyBack pairs proved = some s₁)
    (hlater : s₁.GrowsTo s') (harity : r.params.length = args.length)
    (htied : r.Tied (r.frameAt s.length) args label proved) :
    ∀ x ∈ r.params.zip args,
      (x.1.ground p.value? (r.values args label s.length proved) == label x.2) = true := by
  rintro ⟨o, arg⟩ hx
  have hcopy := (Store.copyBack_grows hcopied).1
  cases o with
  | const t =>
    -- A constant is bound from the start, so the argument has come to agree with it.
    obtain ⟨v, hv⟩ := (hr.params _ (List.of_mem_zip hx).1).exists_value?
    have hproved : proved.value? t = some v :=
      hbody.value?_eq (hbase.value?_eq (by rwa [Pool.value?_values]))
    have hagree := Store.agree_of_rule henter hbody hcopied hx hproved
    change (p.value? t == label arg) = true
    rw [hv]
    exact hfits.label_of_agree hlater hagree (hcopy.value?_eq hproved)
  | var i =>
    change (r.values args label s.length proved i == label arg) = true
    cases hv : proved.value? ((r.frameAt s.length).nth i) with
    | some v =>
      -- The variable has a value when the body is done, and it was copied or compared.
      have hagree := Store.agree_of_rule henter hbody hcopied hx hv
      rw [Rule.values_of_bound hv]
      exact hfits.label_of_agree hlater hagree (hcopy.value?_eq hv)
    -- It has none, so it gets the label of an argument at its positions.
    | none => exact Rule.values_of_unbound harity htied hv hx

/-! ## Whole branches -/

/-- A branch that has succeeded explains the labels of its goals, for any labels that some later
store fits and for which the branch is settled. -/
theorem supports_of_along (hvalid : prog.Valid p) {b : Branch} {frame : Frame} {gs : List (Goal N)}
    (hsettled : prog.Settled label b frame gs s) (hbase : Store.GrowsTo p.values s)
    (h : prog.along b frame gs s = some s₁) (hlater : s₁.GrowsTo s') (hfits : s'.Fits p label) :
    Supports prog p.value? b (gs.map (·.labels label frame)) := by
  induction b generalizing frame gs s s₁ s' label with
  | nil =>
    cases gs with
    | nil => exact .nil
    | cons => cases h
  | call id body rest ihBody ihRest =>
    cases gs with
    | nil => cases h
    | cons g gs =>
      obtain ⟨s₂, hcall, halong⟩ := Program.along_cons h
      have hs₂ : s₂.GrowsTo s' := (Program.along_grows halong).trans hlater
      have hgrow : s.GrowsTo s₂ :=
        Program.viaClause_grows (fun _ _ _ _ => Program.along_grows) hcall
      -- What comes behind the call is explained first, from the store that the call leaves.
      have hmore := ihRest (hsettled.2 s₂ hcall) (hbase.trans hgrow) halong hlater hfits
      obtain ⟨f, putOff, hclause, harity, hunify⟩ |
        ⟨r, entered, pairs, proved, hclause, harity, henter, hproved, hcopied⟩ :=
        Program.viaClause_cases hcall
      · -- A fact: its parts are bound, so the arguments agree with them.
        refine .fact hclause (forall₂_map_iff_zip.2 ⟨harity, ?_⟩) hmore
        rintro ⟨part, arg⟩ hx
        obtain ⟨v, hv⟩ := (hvalid.fact hclause part (List.of_mem_zip hx).1).exists_value?
        have hstart : s.value? part = some v := hbase.value?_eq (by rwa [Pool.value?_values])
        have hagree := Store.unify_agree_of_bound hunify hx hstart
        dsimp only
        rw [hv]
        exact hfits.label_of_agree hs₂ hagree (hgrow.value?_eq hstart)
      · obtain ⟨htied, hinner⟩ := hsettled.1 r entered pairs proved hclause henter hproved
        have hr := hvalid.rule hclause
        have hsize : p.size ≤ s.length := by simpa using hbase.length_le
        have hentered := (Store.enter_grows henter).1
        have hbody := Program.along_grows hproved
        -- The body explains what its frame holds when it is done. No later store is of use here:
        -- the variables left unbound get the labels of the arguments instead.
        have hvalues : proved.Fits p (extendLabel label s.length
            (r.values (g.args.map frame.term) label s.length proved)) :=
          fits_values hfits hbase (hentered.trans hbody)
            ((Store.copyBack_grows hcopied).1.trans hs₂)
        have hhead := ground_values hr hfits (hbase.trans hentered) henter hbody hcopied hs₂ harity
          htied
        have hgoals := ihBody hinner (hbase.trans hentered) hproved (.refl _) hvalues
        rw [hr.labels_body hsize hfits.fixed] at hgoals
        exact .rule _ hclause (forall₂_map_iff_zip.2 ⟨harity, hhead⟩) hgoals hmore

/-- A settled branch that has proved a call explains the values that the arguments have then. -/
theorem supports_of_through (hvalid : prog.Valid p) {b : Branch} {name : N}
    (hsettled : prog.Settled s₁.value? b ⟨0, 0⟩ [⟨name, args.map .const⟩] s)
    (hbase : Store.GrowsTo p.values s) (h : prog.through b name args s = some s₁) :
    Supports prog p.value? b [Store.values s₁ args] := by
  have hfits := Store.Fits.self (hbase.trans (Program.along_grows h))
  rw [Store.values, ← labels_call name args s₁.value?]
  exact supports_of_along hvalid hsettled hbase h (.refl s₁) hfits

end Hornbase
