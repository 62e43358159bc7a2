import Hornbase.Interpreter
import Hornbase.Proofs.Growth

/-!
# The store in a pool

A store is a pool without flags and trail: the list of the values of all terms. The operations that
a search carries out on its pool are those that the plain interpreter carries out on a store,
provided that the terms they are given exist. The interpreter has no unknown terms to report: it
would put such a pair off.
-/

namespace Hornbase

universe v

variable {V : Type v}

namespace Pool

@[simp] theorem length_values (p : Pool V) : p.values.length = p.size := by
  simp [values, size]

theorem getElem?_values (p : Pool V) (i : Nat) :
    p.values[i]? = p.cells[i]?.map (·.term.value) := by
  simp [values]

/-- A term has the same value in the pool and in its store. -/
@[simp] theorem value?_values (p : Pool V) (t : TermId) : Store.value? p.values t = p.value? t := by
  rw [Store.value?, getElem?_values, value?, term?]
  cases p.cells[t.index]? <;> rfl

theorem values_assign (p : Pool V) (t : TermId) (v : V) :
    (p.assign t v).values = p.values.set t.index (some v) := by
  apply List.ext_getElem?
  intro i
  simp only [getElem?_values, assign, Array.getElem?_modify, List.getElem?_set, length_values]
  by_cases hi : t.index = i
  · subst hi
    by_cases hlt : t.index < p.size
    · have hcells : t.index < p.cells.size := hlt
      simp [hlt, Cell.fill, Term.bound, Array.getElem?_eq_getElem hcells]
    · simp [hlt, Array.getElem?_eq_none (show p.cells.size ≤ t.index from Nat.le_of_not_lt hlt)]
  · simp [hi]

theorem values_addFrame (p : Pool V) (n : Nat) :
    (p.addFrame n).2.values = p.values ++ List.replicate n none := by
  simp [addFrame, values, Term.unbound]

theorem values_truncate (p : Pool V) (n : Nat) : (p.truncate n).values = p.values.take n := by
  simp only [values, truncate, Array.toList_shrink, List.map_take]

@[simp] theorem values_commit (p : Pool V) (mark : Nat) : (p.commit mark).values = p.values := rfl

/-- The pairs whose sides are both terms of the pool. -/
def Known (p : Pool V) (pairs : List (TermId × TermId)) : Prop :=
  ∀ x ∈ pairs, x.1.index < p.size ∧ x.2.index < p.size

theorem Known.of_size_le {p q : Pool V} {pairs : List (TermId × TermId)} (h : p.Known pairs)
    (hsize : p.size ≤ q.size) : q.Known pairs :=
  fun x hx => ⟨Nat.lt_of_lt_of_le (h x hx).1 hsize, Nat.lt_of_lt_of_le (h x hx).2 hsize⟩

/-- A term of the pool has an entry in the store. -/
theorem getElem?_values_of_lt {p : Pool V} {t : TermId} (h : t.index < p.size) :
    p.values[t.index]? = some (p.value? t) := by
  rw [← value?_values, Store.value?]
  have hlt : t.index < p.values.length := by rwa [length_values]
  rw [List.getElem?_eq_getElem hlt]
  rfl

/-- What a term of the pool is. -/
theorem term?_of_lt {p : Pool V} {t : TermId} (h : t.index < p.size) :
    p.term? t = some ⟨p.value? t⟩ := by
  have hlt : t.index < p.cells.size := h
  have hcell : p.cells[t.index]? = some p.cells[t.index] := Array.getElem?_eq_getElem hlt
  simp [value?, term?, hcell]

variable [BEq V]

/-- Looking at a pair of terms of the pool, by their values. -/
theorem pairing_of_lt {p : Pool V} {part arg : TermId} (hpart : part.index < p.size)
    (harg : arg.index < p.size) :
    p.pairing part arg =
      match p.value? part, p.value? arg with
      | some x, some y => if y == x then .agree else .differ
      | some x, none => .flow arg x
      | none, some y => .flow part y
      | none, none => .bothUnbound := by
  rw [pairing, term?_of_lt hpart, term?_of_lt harg]
  cases p.value? part with
  | none => cases p.value? arg <;> rfl
  | some x =>
    cases p.value? arg with
    | none => rfl
    | some y =>
      -- Binding the argument compares what it holds with the value of the part.
      have hbind : (⟨some y⟩ : Term V).bind x
          = if y == x then .ok (.bound y) else .error .differs := Term.bind_bound y x
      simp only [hbind]
      cases y == x <;> rfl

/-- A pair has an unknown side, or both its sides are terms of the pool. -/
theorem pairing_unknown_or_lt (p : Pool V) (part arg : TermId) :
    (∃ t, p.pairing part arg = .unknown t) ∨ part.index < p.size ∧ arg.index < p.size := by
  by_cases hpart : part.index < p.size
  · by_cases harg : arg.index < p.size
    · exact .inr ⟨hpart, harg⟩
    · have hnone : p.term? arg = none := by
        rw [term?, Array.getElem?_eq_none (Nat.le_of_not_lt harg), Option.map_none]
      exact .inl ⟨arg, by rw [pairing, term?_of_lt hpart, hnone]⟩
  · have hnone : p.term? part = none := by
      rw [term?, Array.getElem?_eq_none (Nat.le_of_not_lt hpart), Option.map_none]
    exact .inl ⟨part, by rw [pairing, hnone]⟩

/-- Binding in the store of a pool, by the value that the term has. -/
theorem bind_values {p : Pool V} {t : TermId} (h : t.index < p.size) (v : V) :
    Store.bind p.values t v =
      match p.value? t with
      | none => some (p.assign t v).values
      | some held => if held == v then some p.values else none := by
  rw [Store.bind, getElem?_values_of_lt h, values_assign]
  cases p.value? t <;> rfl

end Pool

/-- How unifying ended, as the interpreter tells it. -/
def Matching.outcome (m : Matching V) : Option (Store V × List (TermId × TermId)) :=
  match m.failure with
  | none => some (m.pool.values, m.putOff)
  | some _ => none

namespace Pool

variable [BEq V]

/-- Unifying pairs in a pool is unifying them in its store. -/
theorem unifyPairs_outcome {pairs : List (TermId × TermId)} {p : Pool V} (h : p.Known pairs) :
    (unifyPairs pairs p).outcome = Store.unify pairs p.values := by
  induction pairs generalizing p with
  | nil => rfl
  | cons pair rest ih =>
    obtain ⟨part, arg⟩ := pair
    have hpart : part.index < p.size := (h (part, arg) (List.mem_cons_self ..)).1
    have harg : arg.index < p.size := (h (part, arg) (List.mem_cons_self ..)).2
    have hrest : p.Known rest := fun x hx => h x (List.mem_cons_of_mem _ hx)
    have hassign : ∀ t v, (p.assign t v).Known rest := fun t v =>
      hrest.of_size_le (Nat.le_of_eq (size_assign p t v).symm)
    rw [unifyPairs, pairing_of_lt hpart harg, Store.unify, value?_values, value?_values]
    -- The four cases of a pair, as the store tells them apart.
    cases hp : p.value? part with
    | some x =>
      dsimp only
      rw [bind_values harg]
      cases ha : p.value? arg with
      | some y =>
        by_cases hxy : y == x
        · simp [hxy, ih hrest]
        · simp [hxy, Matching.outcome]
      | none => simp [ih (hassign arg x)]
    | none =>
      cases ha : p.value? arg with
      | some y => simp [bind_values hpart, hp, ih (hassign part y)]
      | none =>
        rw [← ih hrest]
        cases hm : unifyPairs rest p with
        | mk q putOff failure => cases failure <;> rfl

/-- Unifying all pairs or none in a pool is unifying them in its store. -/
theorem unify_outcome {p : Pool V} {pairs : List (TermId × TermId)} (h : p.Known pairs) :
    (p.unify pairs).outcome = Store.unify pairs p.values := by
  rw [← unifyPairs_outcome h, unify]
  cases hm : unifyPairs pairs p with
  | mk q putOff failure => cases failure <;> rfl

/-- Only terms of the pool can be unified. -/
theorem known_of_unifyPairs {pairs : List (TermId × TermId)} {p : Pool V}
    (h : (unifyPairs pairs p).failure = none) : p.Known pairs := by
  induction pairs generalizing p with
  | nil => exact nofun
  | cons pair rest ih =>
    obtain ⟨part, arg⟩ := pair
    rw [unifyPairs] at h
    -- An unknown term would have ended the match with a failure.
    rcases p.pairing_unknown_or_lt part arg with ⟨t, ht⟩ | hlt
    · rw [ht] at h
      cases h
    · have hrest : p.Known rest := by
        split at h
        · cases h
        · cases h
        · exact ih h
        · next into v _ => exact (ih h).of_size_le (Nat.le_of_eq (size_assign p into v))
        · exact ih h
      intro x hx
      rcases List.mem_cons.1 hx with rfl | hx
      · exact hlt
      · exact hrest x hx

/-- Only terms of the pool can be unified all at once. -/
theorem known_of_unify {pairs : List (TermId × TermId)} {p : Pool V}
    (h : (p.unify pairs).failure = none) : p.Known pairs := by
  apply known_of_unifyPairs
  rw [unify] at h
  cases hm : unifyPairs pairs p with
  | mk q putOff failure =>
    rw [hm] at h
    cases failure with
    | none => rfl
    | some f => cases h

/-- A pair of terms of the pool has no unknown side. -/
theorem pairing_ne_unknown {p : Pool V} {part arg : TermId} (hpart : part.index < p.size)
    (harg : arg.index < p.size) (t : TermId) : p.pairing part arg ≠ .unknown t := by
  rw [pairing_of_lt hpart harg]
  split
  · split <;> nofun
  all_goals nofun

/-- Unifying terms of the pool fails at values that differ, if it fails. -/
theorem clash_of_unifyPairs {pairs : List (TermId × TermId)} {p : Pool V} (h : p.Known pairs)
    {f : Failure} (hf : (unifyPairs pairs p).failure = some f) : ∃ t, f = .clash t := by
  induction pairs generalizing p with
  | nil => cases hf
  | cons pair rest ih =>
    obtain ⟨part, arg⟩ := pair
    obtain ⟨hpart, harg⟩ := h (part, arg) (List.mem_cons_self ..)
    have hrest : p.Known rest := fun x hx => h x (List.mem_cons_of_mem _ hx)
    rw [unifyPairs] at hf
    split at hf
    · next t ht => exact absurd ht (pairing_ne_unknown hpart harg t)
    · exact ⟨arg, (Option.some.inj hf).symm⟩
    · exact ih hrest hf
    · next into v _ => exact ih (hrest.of_size_le (Nat.le_of_eq (size_assign p into v).symm)) hf
    · exact ih hrest hf

/-- Unifying all terms of the pool or none fails at values that differ, if it fails. -/
theorem clash_of_unify {pairs : List (TermId × TermId)} {p : Pool V} (h : p.Known pairs)
    {f : Failure} (hf : (p.unify pairs).failure = some f) : ∃ t, f = .clash t := by
  refine clash_of_unifyPairs h ?_
  rw [unify] at hf
  cases hm : unifyPairs pairs p with
  | mk q putOff failure =>
    rw [hm] at hf
    cases failure with
    | none => cases hf
    | some g => exact hf

/-- Copying back onto terms of the pool fails at values that differ, if it fails. -/
theorem clash_of_copyBack {pairs : List (TermId × TermId)} {p : Pool V} (h : p.Known pairs)
    {f : Failure} (hf : (p.copyBack pairs).1 = some f) : ∃ t, f = .clash t := by
  induction pairs generalizing p with
  | nil => cases hf
  | cons pair rest ih =>
    obtain ⟨part, arg⟩ := pair
    obtain ⟨hpart, harg⟩ := h (part, arg) (List.mem_cons_self ..)
    have hrest : p.Known rest := fun x hx => h x (List.mem_cons_of_mem _ hx)
    rw [copyBack] at hf
    split at hf
    · exact ih hrest hf
    · split at hf
      · next t ht => exact absurd ht (pairing_ne_unknown hpart harg t)
      · exact ⟨arg, (Option.some.inj hf).symm⟩
      · next into v _ => exact ih (hrest.of_size_le (Nat.le_of_eq (size_assign p into v).symm)) hf
      · exact ih hrest hf
      · exact ih hrest hf

/-- Only given pairs are put off. -/
theorem unify_putOff_subset (p : Pool V) (pairs : List (TermId × TermId)) :
    ∀ x ∈ (p.unify pairs).putOff, x ∈ pairs := by
  have hpairs : ∀ q : Pool V, ∀ x ∈ (unifyPairs pairs q).putOff, x ∈ pairs := by
    induction pairs with
    | nil => exact fun q x hx => hx
    | cons pair rest ih =>
      obtain ⟨part, arg⟩ := pair
      intro q x hx
      simp only [unifyPairs] at hx
      split at hx
      · cases hx
      · cases hx
      · exact List.mem_cons_of_mem _ (ih q x hx)
      · exact List.mem_cons_of_mem _ (ih _ x hx)
      · rcases List.mem_cons.1 hx with rfl | hx
        · exact List.mem_cons_self ..
        · exact List.mem_cons_of_mem _ (ih q x hx)
  have hx := hpairs p
  unfold unify
  cases hm : unifyPairs pairs p with
  | mk q putOff failure =>
    rw [hm] at hx
    cases failure <;> exact hx

/-- Copying results back in a pool is copying them back in its store. -/
theorem copyBack_values {pairs : List (TermId × TermId)} {p : Pool V} (h : p.Known pairs) :
    Store.copyBack pairs p.values =
      match p.copyBack pairs with
      | (none, q) => some q.values
      | (some _, _) => none := by
  induction pairs generalizing p with
  | nil => rfl
  | cons pair rest ih =>
    obtain ⟨part, arg⟩ := pair
    have hpart : part.index < p.size := (h (part, arg) (List.mem_cons_self ..)).1
    have harg : arg.index < p.size := (h (part, arg) (List.mem_cons_self ..)).2
    have hrest : p.Known rest := fun x hx => h x (List.mem_cons_of_mem _ hx)
    have hassign : ∀ t v, (p.assign t v).Known rest := fun t v =>
      hrest.of_size_le (Nat.le_of_eq (size_assign p t v).symm)
    rw [Store.copyBack, copyBack, value?_values, pairing_of_lt hpart harg]
    cases hp : p.value? part with
    | none => exact ih hrest
    -- The value goes to the argument, which takes it or holds an equal one.
    | some x =>
      dsimp only
      rw [bind_values harg]
      cases ha : p.value? arg with
      | some y =>
        by_cases hxy : y == x
        · simp [hxy, ih hrest]
        · simp [hxy]
      | none => simp [ih (hassign arg x)]

end Pool

end Hornbase
