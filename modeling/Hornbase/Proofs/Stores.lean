import Hornbase.Interpreter

/-!
# Stores that grow

Everything the interpreter does to a store binds unbound terms or adds terms at the end, so a bound
term keeps the very value it has. If equality of values is an equivalence, unification and copying
back also leave equal values on the two sides of every pair that they have dealt with.
-/

namespace Hornbase.Store

universe v

variable {V : Type v}

/-! ## Values of terms -/

/-- Only a term of the store holds a value. -/
theorem lt_of_value? {s : Store V} {t : TermId} {v : V} (h : s.value? t = some v) :
    t.index < s.length := by
  rw [value?] at h
  obtain hlt | hge := Nat.lt_or_ge t.index s.length
  · exact hlt
  · rw [List.getElem?_eq_none hge] at h
    cases h

theorem getElem?_of_lt {s : Store V} {t : TermId} (h : t.index < s.length) :
    s[t.index]? = some (s.value? t) := by
  rw [value?, List.getElem?_eq_getElem h]
  rfl

/-- Added terms are unbound, and nothing happens to the others. -/
theorem value?_append_replicate (s : Store V) (n : Nat) (t : TermId) :
    Store.value? (s ++ List.replicate n none) t = s.value? t := by
  rw [value?, value?, List.getElem?_append]
  split
  · rfl
  · next h =>
    rw [List.getElem?_eq_none (Nat.le_of_not_lt h), List.getElem?_replicate]
    split <;> rfl

/-- Setting an entry changes the one value. -/
theorem value?_set {s : Store V} {t : TermId} (h : t.index < s.length) (x : Option V) (u : TermId) :
    Store.value? (s.set t.index x) u = if u = t then x else s.value? u := by
  obtain ⟨i⟩ := t
  obtain ⟨j⟩ := u
  dsimp only at h
  simp only [value?, List.getElem?_set, TermId.mk.injEq]
  by_cases hij : i = j
  · subst hij
    simp [h]
  · have hji : j ≠ i := fun hji => hij hji.symm
    simp [hij, hji]

/-! ## Growth -/

/-- `s'` is `s` with some unbound terms bound, and some terms added. -/
structure GrowsTo (s s' : Store V) : Prop where
  length_le : s.length ≤ s'.length
  value?_eq : ∀ {t v}, s.value? t = some v → s'.value? t = some v

theorem GrowsTo.refl (s : Store V) : s.GrowsTo s := ⟨Nat.le_refl _, id⟩

theorem GrowsTo.trans {r s t : Store V} (hrs : r.GrowsTo s) (hst : s.GrowsTo t) : r.GrowsTo t :=
  ⟨Nat.le_trans hrs.length_le hst.length_le, fun h => hst.value?_eq (hrs.value?_eq h)⟩

/-- What is unbound later was unbound before. -/
theorem GrowsTo.value?_eq_none {s s' : Store V} (h : s.GrowsTo s') {t : TermId}
    (ht : s'.value? t = none) : s.value? t = none := by
  cases hs : s.value? t with
  | none => rfl
  | some v => rw [h.value?_eq hs] at ht; cases ht

/-- Adding unbound terms is growth. -/
theorem growsTo_append_replicate (s : Store V) (n : Nat) :
    s.GrowsTo (s ++ List.replicate n none) :=
  ⟨by simp, fun h => (value?_append_replicate s n _).trans h⟩

/-- The beginning of a store has the values of its terms. -/
theorem value?_take (s : Store V) (n : Nat) (t : TermId) :
    Store.value? (s.take n) t = if t.index < n then s.value? t else none := by
  rw [value?, value?, List.getElem?_take]
  split <;> rfl

/-- What is grown stays grown when the terms added are dropped. -/
theorem GrowsTo.take {r s : Store V} (h : r.GrowsTo s) : r.GrowsTo (s.take r.length) where
  length_le := by
    rw [List.length_take]
    exact Nat.le_min.2 ⟨Nat.le_refl _, h.length_le⟩
  value?_eq := by
    intro t v hv
    rw [value?_take, if_pos (lt_of_value? hv)]
    exact h.value?_eq hv

variable [BEq V]

/-! ## Binding -/

/-- The two ways in which binding can succeed. -/
theorem bind_cases {s s' : Store V} {t : TermId} {v : V} (h : s.bind t v = some s') :
    (∃ held, s.value? t = some held ∧ held == v ∧ s' = s) ∨
      (t.index < s.length ∧ s.value? t = none ∧ s' = s.set t.index (some v)) := by
  unfold bind at h
  split at h
  · cases h
  · next hterm =>
    obtain rfl := Option.some.inj h
    have hlt := (List.getElem?_eq_some_iff.1 hterm).1
    exact .inr ⟨hlt, by rw [value?, hterm]; rfl, rfl⟩
  · next held hterm =>
    split at h
    · next heq =>
      obtain rfl := Option.some.inj h
      exact .inl ⟨held, by rw [value?, hterm]; rfl, heq, rfl⟩
    · cases h

/-- Binding lets the store grow and adds no term. -/
theorem bind_grows {s s' : Store V} {t : TermId} {v : V} (h : s.bind t v = some s') :
    s.GrowsTo s' ∧ s'.length = s.length := by
  obtain ⟨held, -, -, rfl⟩ | ⟨hlt, hnone, rfl⟩ := bind_cases h
  · exact ⟨.refl _, rfl⟩
  · refine ⟨⟨by simp, fun {u w} hu => ?_⟩, by simp⟩
    rw [value?_set hlt]
    split
    · next hut =>
      rw [hut, hnone] at hu
      cases hu
    · exact hu

/-- Binding changes no other term. -/
theorem bind_value?_of_ne {s s' : Store V} {t : TermId} {v : V} (h : s.bind t v = some s')
    {u : TermId} (hu : u ≠ t) : s'.value? u = s.value? u := by
  obtain ⟨held, -, -, rfl⟩ | ⟨hlt, -, rfl⟩ := bind_cases h
  · rfl
  · rw [value?_set hlt, if_neg hu]

/-- A term can be bound to `v` if it is known and holds nothing that differs from `v`. -/
theorem exists_bind_iff {s : Store V} {t : TermId} {v : V} :
    (∃ s', s.bind t v = some s') ↔
      t.index < s.length ∧ ∀ held, s.value? t = some held → (held == v) = true := by
  constructor
  · rintro ⟨s', h⟩
    obtain ⟨held, hheld, heq, -⟩ | ⟨hlt, hnone, -⟩ := bind_cases h
    · refine ⟨lt_of_value? hheld, fun w hw => ?_⟩
      rw [hheld] at hw
      rwa [← Option.some.inj hw]
    · refine ⟨hlt, fun w hw => ?_⟩
      rw [hnone] at hw
      cases hw
  · rintro ⟨hlt, hheld⟩
    rw [bind, getElem?_of_lt hlt]
    cases hv : s.value? t with
    | none => exact ⟨_, rfl⟩
    | some held => exact ⟨s, if_pos (hheld held hv)⟩

/-- A bound term keeps what it holds, and an unbound one takes `v`. -/
theorem value?_bind {s s' : Store V} {t : TermId} {v : V} (h : s.bind t v = some s') (u : TermId) :
    s'.value? u = (s.value? u).or (if u = t then some v else none) := by
  obtain ⟨held, hheld, -, rfl⟩ | ⟨hlt, hnone, rfl⟩ := bind_cases h
  · split
    · next hut => rw [hut, hheld, Option.some_or]
    · rw [Option.or_none]
  · rw [value?_set hlt]
    split
    · next hut => rw [hut, hnone, Option.none_or]
    · rw [Option.or_none]

/-- A term that was bound to `v` holds a value equal to it. -/
theorem bind_holds [ReflBEq V] {s s' : Store V} {t : TermId} {v : V} (h : s.bind t v = some s') :
    ∃ w, s'.value? t = some w ∧ w == v := by
  obtain ⟨held, hheld, heq, rfl⟩ | ⟨hlt, -, rfl⟩ := bind_cases h
  · exact ⟨held, hheld, heq⟩
  · exact ⟨v, by rw [value?_set hlt, if_pos rfl], BEq.refl v⟩

/-- Two terms that are bound, to equal values. -/
def Agree (s : Store V) (x y : TermId) : Prop :=
  ∃ v w, s.value? x = some v ∧ s.value? y = some w ∧ v == w

theorem Agree.mono {s s' : Store V} (hgrow : s.GrowsTo s') {x y : TermId} (h : s.Agree x y) :
    s'.Agree x y := by
  obtain ⟨v, w, hx, hy, heq⟩ := h
  exact ⟨v, w, hgrow.value?_eq hx, hgrow.value?_eq hy, heq⟩

/-! ## Unifying -/

/-- The three ways in which the first of some pairs can be dealt with. -/
theorem unify_cons_cases {part arg : TermId} {rest putOff : List (TermId × TermId)}
    {s s' : Store V} (h : unify ((part, arg) :: rest) s = some (s', putOff)) :
    (∃ v s₁, s.value? part = some v ∧ s.bind arg v = some s₁ ∧
        unify rest s₁ = some (s', putOff)) ∨
      (∃ w s₁, s.value? arg = some w ∧ s.bind part w = some s₁ ∧
        unify rest s₁ = some (s', putOff)) ∨
      (s.value? part = none ∧ s.value? arg = none ∧
        ∃ pairs, putOff = (part, arg) :: pairs ∧ unify rest s = some (s', pairs)) := by
  rw [unify] at h
  split at h
  · next v hpart =>
    obtain ⟨s₁, hbind, hrest⟩ := Option.bind_eq_some_iff.1 h
    exact .inl ⟨v, s₁, hpart, hbind, hrest⟩
  · next w _ harg =>
    obtain ⟨s₁, hbind, hrest⟩ := Option.bind_eq_some_iff.1 h
    exact .inr (.inl ⟨w, s₁, harg, hbind, hrest⟩)
  · next hpart harg =>
    obtain ⟨⟨s₁, pairs⟩, hrest, heq⟩ := Option.map_eq_some_iff.1 h
    obtain ⟨rfl, rfl⟩ := Prod.mk.inj heq
    exact .inr (.inr ⟨hpart, harg, pairs, rfl, hrest⟩)

/-- Unifying lets the store grow and adds no term. -/
theorem unify_grows {pairs putOff : List (TermId × TermId)} {s s' : Store V}
    (h : unify pairs s = some (s', putOff)) : s.GrowsTo s' ∧ s'.length = s.length := by
  induction pairs generalizing s putOff with
  | nil =>
    obtain ⟨rfl, -⟩ := Prod.mk.inj (Option.some.inj h)
    exact ⟨.refl _, rfl⟩
  | cons pair rest ih =>
    obtain ⟨v, s₁, -, hbind, hrest⟩ | ⟨w, s₁, -, hbind, hrest⟩ | ⟨-, -, pairs, -, hrest⟩ :=
      unify_cons_cases h
    · obtain ⟨hgrow, hlength⟩ := bind_grows hbind
      exact ⟨hgrow.trans (ih hrest).1, (ih hrest).2.trans hlength⟩
    · obtain ⟨hgrow, hlength⟩ := bind_grows hbind
      exact ⟨hgrow.trans (ih hrest).1, (ih hrest).2.trans hlength⟩
    · exact ih hrest

/-- Only given pairs are put off, and only those with two unbound sides. -/
theorem unify_putOff {pairs putOff : List (TermId × TermId)} {s s' : Store V}
    (h : unify pairs s = some (s', putOff)) :
    ∀ x ∈ putOff, x ∈ pairs ∧ s.value? x.1 = none ∧ s.value? x.2 = none := by
  induction pairs generalizing s putOff with
  | nil =>
    obtain ⟨-, rfl⟩ := Prod.mk.inj (Option.some.inj h)
    exact nofun
  | cons pair rest ih =>
    -- Growth forgets no value, so what is unbound later was unbound before.
    have later : ∀ {s₁ : Store V} {putOff' : List (TermId × TermId)}, s.GrowsTo s₁ →
        unify rest s₁ = some (s', putOff') →
        ∀ x ∈ putOff', x ∈ pair :: rest ∧ s.value? x.1 = none ∧ s.value? x.2 = none := by
      intro s₁ putOff' hgrow hrest x hx
      obtain ⟨hmem, hpart, harg⟩ := ih hrest x hx
      exact ⟨List.mem_cons_of_mem _ hmem, hgrow.value?_eq_none hpart, hgrow.value?_eq_none harg⟩
    -- Only a pair without a value on either side is put off.
    obtain ⟨v, s₁, -, hbind, hrest⟩ | ⟨w, s₁, -, hbind, hrest⟩ | ⟨hpart, harg, pairs, rfl, hrest⟩ :=
      unify_cons_cases h
    · exact later (bind_grows hbind).1 hrest
    · exact later (bind_grows hbind).1 hrest
    · intro x hx
      rcases List.mem_cons.1 hx with rfl | hx
      · exact ⟨List.mem_cons_self .., hpart, harg⟩
      · exact later (.refl s) hrest x hx

/-- Unifying changes only the terms of the pairs. -/
theorem unify_value?_of_ne {pairs putOff : List (TermId × TermId)} {s s' : Store V}
    (h : unify pairs s = some (s', putOff)) {t : TermId}
    (ht : ∀ x ∈ pairs, t ≠ x.1 ∧ t ≠ x.2) : s'.value? t = s.value? t := by
  induction pairs generalizing s putOff with
  | nil =>
    obtain ⟨rfl, -⟩ := Prod.mk.inj (Option.some.inj h)
    rfl
  | cons pair rest ih =>
    obtain ⟨hpart, harg⟩ := ht pair (List.mem_cons_self ..)
    have hrest' := fun x hx => ht x (List.mem_cons_of_mem pair hx)
    obtain ⟨v, s₁, -, hbind, hrest⟩ | ⟨w, s₁, -, hbind, hrest⟩ | ⟨-, -, pairs, -, hrest⟩ :=
      unify_cons_cases h
    · exact (ih hrest hrest').trans (bind_value?_of_ne hbind harg)
    · exact (ih hrest hrest').trans (bind_value?_of_ne hbind hpart)
    · exact ih hrest hrest'

/-- The first of some pairs is made to agree, or both its sides are unbound and it is put off. -/
theorem unify_cons_agree [EquivBEq V] {part arg : TermId} {rest putOff : List (TermId × TermId)}
    {s s' : Store V} (h : unify ((part, arg) :: rest) s = some (s', putOff)) :
    (∃ s₁, s.GrowsTo s₁ ∧ s₁.length = s.length ∧ s₁.Agree part arg ∧
        unify rest s₁ = some (s', putOff)) ∨
      (s.value? part = none ∧ s.value? arg = none ∧
        ∃ pairs, putOff = (part, arg) :: pairs ∧ unify rest s = some (s', pairs)) := by
  obtain ⟨v, s₁, hpart, hbind, hrest⟩ | ⟨w, s₁, harg, hbind, hrest⟩ | hboth := unify_cons_cases h
  · obtain ⟨hgrow, hlength⟩ := bind_grows hbind
    obtain ⟨w, harg, heq⟩ := bind_holds hbind
    exact .inl ⟨s₁, hgrow, hlength, ⟨v, w, hgrow.value?_eq hpart, harg, BEq.symm heq⟩, hrest⟩
  · obtain ⟨hgrow, hlength⟩ := bind_grows hbind
    obtain ⟨v, hpart, heq⟩ := bind_holds hbind
    exact .inl ⟨s₁, hgrow, hlength, ⟨v, w, hpart, hgrow.value?_eq harg, heq⟩, hrest⟩
  · exact .inr hboth

/-- Unifying makes the two sides of each pair agree, or puts the pair off. -/
theorem unify_agree [EquivBEq V] {pairs putOff : List (TermId × TermId)} {s s' : Store V}
    (h : unify pairs s = some (s', putOff)) : ∀ x ∈ pairs, x ∈ putOff ∨ s'.Agree x.1 x.2 := by
  induction pairs generalizing s putOff with
  | nil => exact nofun
  | cons pair rest ih =>
    intro x hx
    obtain ⟨s₁, -, -, hagree, hrest⟩ | ⟨-, -, pairs, rfl, hrest⟩ := unify_cons_agree h
    · rcases List.mem_cons.1 hx with rfl | hx
      · exact .inr (hagree.mono (unify_grows hrest).1)
      · exact ih hrest x hx
    · rcases List.mem_cons.1 hx with rfl | hx
      · exact .inl (List.mem_cons_self ..)
      · exact (ih hrest x hx).imp_left (List.mem_cons_of_mem _)

/-- Unifying makes a bound part agree with its argument. -/
theorem unify_agree_of_bound [EquivBEq V] {pairs putOff : List (TermId × TermId)} {s s' : Store V}
    (h : unify pairs s = some (s', putOff)) {x : TermId × TermId} (hx : x ∈ pairs) {v : V}
    (hv : s.value? x.1 = some v) : s'.Agree x.1 x.2 := by
  rcases unify_agree h x hx with hput | hagree
  · rw [(unify_putOff h x hput).2.1] at hv
    cases hv
  · exact hagree

/-! ## Copying back -/

/-- The two ways in which the first of some pairs can be copied back. -/
theorem copyBack_cons_cases {part arg : TermId} {rest : List (TermId × TermId)} {s s' : Store V}
    (h : copyBack ((part, arg) :: rest) s = some s') :
    (s.value? part = none ∧ copyBack rest s = some s') ∨
      ∃ v s₁, s.value? part = some v ∧ s.bind arg v = some s₁ ∧ copyBack rest s₁ = some s' := by
  rw [copyBack] at h
  split at h
  · next hpart => exact .inl ⟨hpart, h⟩
  · next v hpart =>
    obtain ⟨s₁, hbind, hrest⟩ := Option.bind_eq_some_iff.1 h
    exact .inr ⟨v, s₁, hpart, hbind, hrest⟩

/-- Copying back lets the store grow and adds no term. -/
theorem copyBack_grows {pairs : List (TermId × TermId)} {s s' : Store V}
    (h : copyBack pairs s = some s') : s.GrowsTo s' ∧ s'.length = s.length := by
  induction pairs generalizing s with
  | nil =>
    obtain rfl := Option.some.inj h
    exact ⟨.refl _, rfl⟩
  | cons pair rest ih =>
    obtain ⟨-, hrest⟩ | ⟨v, s₁, -, hbind, hrest⟩ := copyBack_cons_cases h
    · exact ih hrest
    · obtain ⟨hgrow, hlength⟩ := bind_grows hbind
      exact ⟨hgrow.trans (ih hrest).1, (ih hrest).2.trans hlength⟩

/-- Copying back changes only arguments. -/
theorem copyBack_value?_of_ne {pairs : List (TermId × TermId)} {s s' : Store V}
    (h : copyBack pairs s = some s') {t : TermId} (ht : ∀ x ∈ pairs, t ≠ x.2) :
    s'.value? t = s.value? t := by
  induction pairs generalizing s with
  | nil =>
    obtain rfl := Option.some.inj h
    rfl
  | cons pair rest ih =>
    have hrest' := fun x hx => ht x (List.mem_cons_of_mem pair hx)
    obtain ⟨-, hrest⟩ | ⟨v, s₁, -, hbind, hrest⟩ := copyBack_cons_cases h
    · exact ih hrest hrest'
    · exact (ih hrest hrest').trans (bind_value?_of_ne hbind (ht pair (List.mem_cons_self ..)))

/-- Copying back makes the argument of each bound part agree with it. -/
theorem copyBack_agree [EquivBEq V] {pairs : List (TermId × TermId)} {s s' : Store V}
    (h : copyBack pairs s = some s') {x : TermId × TermId} (hx : x ∈ pairs) {v : V}
    (hv : s.value? x.1 = some v) : s'.Agree x.1 x.2 := by
  induction pairs generalizing s with
  | nil => cases hx
  | cons pair rest ih =>
    obtain ⟨part, arg⟩ := pair
    obtain ⟨hpart, hrest⟩ | ⟨w, s₁, hpart, hbind, hrest⟩ := copyBack_cons_cases h
    · rcases List.mem_cons.1 hx with rfl | hx
      · rw [hpart] at hv
        cases hv
      · exact ih hrest hx hv
    · have hgrow := (bind_grows hbind).1
      rcases List.mem_cons.1 hx with rfl | hx
      · obtain ⟨u, harg, heq⟩ := bind_holds hbind
        -- The argument holds a value equal to the part's, and nothing later changes either.
        have hagree : s₁.Agree part arg := ⟨w, u, hgrow.value?_eq hpart, harg, BEq.symm heq⟩
        exact hagree.mono (copyBack_grows hrest).1
      · exact ih hrest hx (hgrow.value?_eq hv)

end Hornbase.Store
