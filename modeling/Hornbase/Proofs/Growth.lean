import Hornbase.Unify

/-!
# Pools that grow

While a search goes forward its pool only grows: unbound terms are bound and recorded on the trail,
and new terms are added at the end. `Pool.GrowsTo p q` says this without naming the steps, by what
it is for: undoing and truncating `q` to where `p` ends gives `p` back. The relation composes, so
it holds across any stretch of a search, and the operations that a search is made of all satisfy it.

What grows keeps the values of all bound terms, and who owns which term.
-/

namespace Hornbase.Pool

universe v

variable {V : Type v}

/-! ## Clearing recorded terms -/

/-- Clearing recorded terms clears exactly the cells that they name. -/
theorem getElem?_foldr_clear (ts : List TermId) (cells : Array (Cell V)) (i : Nat) :
    (ts.foldr (fun t cells => cells.modify t.index Cell.clear) cells)[i]?
      = cells[i]?.map fun c => if ⟨i⟩ ∈ ts then c.clear else c := by
  induction ts with
  | nil => simp
  | cons t ts ih =>
    obtain ⟨j⟩ := t
    simp only [List.foldr_cons, Array.getElem?_modify, ih]
    by_cases hj : j = i
    · subst hj
      simp only [if_true, List.mem_cons, true_or, Option.map_map]
      congr 1
      funext c
      by_cases hts : (⟨j⟩ : TermId) ∈ ts <;> simp [hts, Cell.clear]
    · have hne : (⟨i⟩ : TermId) ≠ ⟨j⟩ := fun h => hj (TermId.mk.inj h).symm
      simp [hj, hne]

/-- A cell of an undone pool is the cell it was, or that cell cleared. -/
theorem getElem?_undo (p : Pool V) (mark i : Nat) :
    (p.undo mark).cells[i]?
      = p.cells[i]?.map fun c => if ⟨i⟩ ∈ p.trail.toList.drop mark then c.clear else c := by
  have newer : (p.trail.extract mark).toList = p.trail.toList.drop mark := by
    simp [List.take_of_length_le]
  simp only [undo, ← Array.foldr_toList, getElem?_foldr_clear, newer]

@[simp] theorem trail_undo (p : Pool V) (mark : Nat) :
    (p.undo mark).trail = p.trail.shrink mark := rfl

@[simp] theorem trail_truncate (p : Pool V) (n : Nat) : (p.truncate n).trail = p.trail := rfl

@[simp] theorem mark_undo (p : Pool V) (mark : Nat) : (p.undo mark).mark = min mark p.mark := by
  simp [Pool.mark]

@[simp] theorem mark_truncate (p : Pool V) (n : Nat) : (p.truncate n).mark = p.mark := rfl

theorem getElem?_truncate (p : Pool V) (n i : Nat) :
    (p.truncate n).cells[i]? = if i < n then p.cells[i]? else none := by
  simp only [truncate, ← Array.getElem?_toList, Array.toList_shrink, List.getElem?_take]

/-- Two pools with the same cells and the same trail are equal. -/
theorem ext_cells {p q : Pool V} (hcells : ∀ i : Nat, p.cells[i]? = q.cells[i]?)
    (htrail : p.trail = q.trail) : p = q := by
  obtain ⟨cells, trail⟩ := p
  obtain ⟨cells', trail'⟩ := q
  obtain rfl : cells = cells' := Array.ext_getElem? hcells
  obtain rfl : trail = trail' := htrail
  rfl

/-! ## Undoing and truncating in several steps -/

/-- Undoing to a later mark first makes no difference. -/
theorem undo_undo (p : Pool V) {m n : Nat} (h : m ≤ n) : (p.undo n).undo m = p.undo m := by
  apply ext_cells
  · intro i
    -- The first `n` entries stay on the trail, so what lies behind `m` is undone in two parts.
    have hdrop : ∀ x : TermId, x ∈ p.trail.toList.drop m ↔
        x ∈ (p.trail.toList.take n).drop m ∨ x ∈ p.trail.toList.drop n := by
      intro x
      have hsplit : p.trail.toList.drop m
          = (p.trail.toList.take n).drop m ++ p.trail.toList.drop n := by
        conv => lhs; rw [← List.take_append_drop n p.trail.toList, List.drop_append]
        by_cases hn : n ≤ p.trail.toList.length
        · rw [List.length_take, Nat.min_eq_left hn, Nat.sub_eq_zero_of_le h, List.drop_zero]
        · rw [List.drop_eq_nil_of_le (Nat.le_of_lt (Nat.lt_of_not_le hn)), List.drop_nil]
      rw [hsplit, List.mem_append]
    simp only [getElem?_undo, trail_undo, Array.toList_shrink, Option.map_map]
    congr 1
    funext c
    by_cases hnew : (⟨i⟩ : TermId) ∈ p.trail.toList.drop n
    · by_cases hold : (⟨i⟩ : TermId) ∈ (p.trail.toList.take n).drop m <;>
        simp [hdrop, hnew, hold, Cell.clear]
    · simp [hdrop, hnew]
  · apply Array.ext'
    simp only [trail_undo, Array.toList_shrink, List.take_take, Nat.min_eq_left h]

/-- Undoing and truncating commute. -/
theorem undo_truncate (p : Pool V) (n m : Nat) :
    (p.truncate n).undo m = (p.undo m).truncate n := by
  apply ext_cells
  · intro i
    by_cases hi : i < n
    · simp only [getElem?_undo, getElem?_truncate, hi, if_true]
      rfl
    · simp [getElem?_undo, getElem?_truncate, hi]
  · rfl

/-- Truncating to a greater size first makes no difference. -/
theorem truncate_truncate (p : Pool V) {m n : Nat} (h : m ≤ n) :
    (p.truncate n).truncate m = p.truncate m := by
  apply ext_cells
  · intro i
    simp only [getElem?_truncate]
    by_cases hi : i < m
    · simp [hi, Nat.lt_of_lt_of_le hi h]
    · simp [hi]
  · rfl

/-- Truncating to the present size changes nothing. -/
theorem truncate_size (p : Pool V) : p.truncate p.size = p := by
  apply ext_cells
  · intro i
    rw [getElem?_truncate]
    split
    · rfl
    · exact (Array.getElem?_eq_none (Nat.le_of_not_lt ‹_›)).symm
  · rfl

/-! ## Growth -/

/-- `q` is `p` with some unbound terms bound and recorded, and some terms added: undoing and
truncating `q` to where `p` ends gives `p` back. -/
structure GrowsTo (p q : Pool V) : Prop where
  mark_le : p.mark ≤ q.mark
  size_le : p.size ≤ q.size
  restore : (q.undo p.mark).truncate p.size = p

theorem GrowsTo.refl (p : Pool V) : p.GrowsTo p where
  mark_le := Nat.le_refl _
  size_le := Nat.le_refl _
  restore := by rw [undo_mark, truncate_size]

theorem GrowsTo.trans {p q r : Pool V} (hpq : p.GrowsTo q) (hqr : q.GrowsTo r) : p.GrowsTo r where
  mark_le := Nat.le_trans hpq.mark_le hqr.mark_le
  size_le := Nat.le_trans hpq.size_le hqr.size_le
  restore := calc
    (r.undo p.mark).truncate p.size
        = (((r.undo q.mark).undo p.mark).truncate q.size).truncate p.size := by
          rw [undo_undo r hpq.mark_le, truncate_truncate _ hpq.size_le]
      _ = (((r.undo q.mark).truncate q.size).undo p.mark).truncate p.size := by
          rw [undo_truncate]
      _ = p := by rw [hqr.restore, hpq.restore]

/-- Going back to any point since leaves what `p` had grown to by then. -/
theorem GrowsTo.back {p r : Pool V} (h : p.GrowsTo r) {m n : Nat} (hm : p.mark ≤ m)
    (hmr : m ≤ r.mark) (hn : p.size ≤ n) (hnr : n ≤ r.size) :
    p.GrowsTo ((r.undo m).truncate n) where
  mark_le := by
    rw [mark_truncate, mark_undo, Nat.min_eq_left hmr]
    exact hm
  size_le := by
    rw [size_truncate, size_undo, Nat.min_eq_left hnr]
    exact hn
  restore := by
    rw [undo_truncate, undo_undo r hm, truncate_truncate _ hn, h.restore]

/-- A bound term keeps its value. -/
theorem GrowsTo.value?_eq {p q : Pool V} (h : p.GrowsTo q) {t : TermId} {v : V}
    (hv : p.value? t = some v) : q.value? t = some v := by
  rw [← h.restore] at hv
  simp only [value?, term?, getElem?_truncate, getElem?_undo] at hv ⊢
  split at hv
  · cases hc : q.cells[t.index]? with
    | none => simp [hc] at hv
    | some c =>
      simp only [hc, Option.map_some, Option.bind_some] at hv ⊢
      split at hv
      · simp [Cell.clear, Term.unbound] at hv
      · exact hv
  · simp at hv

/-- A term that was there is owned as before. -/
theorem GrowsTo.owned_eq {p q : Pool V} (h : p.GrowsTo q) {i : Nat} (hi : i < p.size) :
    q.cells[i]?.map (·.owned) = p.cells[i]?.map (·.owned) := by
  rw [← h.restore]
  simp only [getElem?_truncate, getElem?_undo, hi, if_true, Option.map_map]
  congr 1
  funext c
  simp only [Function.comp]
  split <;> rfl

/-! ## The operations of a search -/

/-- Clearing an unbound term changes nothing. -/
theorem clear_of_unbound {p : Pool V} {t : TermId} (h : p.value? t = none) : p.clear t = p := by
  apply ext_cells
  · intro i
    simp only [clear, Array.getElem?_modify]
    split
    · next hi =>
      subst hi
      cases hc : p.cells[t.index]? with
      | none => rfl
      | some c =>
        obtain ⟨⟨value⟩, owned⟩ := c
        obtain rfl : value = none := by simpa [value?, term?, hc] using h
        rfl
    · rfl
  · rfl

/-- Binding an unbound term is growth. -/
theorem growsTo_assign {p : Pool V} {t : TermId} (h : p.value? t = none) (v : V) :
    p.GrowsTo (p.assign t v) where
  mark_le := by simp [mark, assign]
  size_le := Nat.le_of_eq (size_assign p t v).symm
  restore := by rw [undo_assign, clear_of_unbound h, truncate_size]

/-- Adding a frame is growth. -/
theorem growsTo_addFrame (p : Pool V) (n : Nat) : p.GrowsTo (p.addFrame n).2 where
  mark_le := Nat.le_refl _
  size_le := by rw [size_addFrame]; exact Nat.le_add_right _ _
  restore := by
    have hundo : ((p.addFrame n).2.undo p.mark) = (p.addFrame n).2 := undo_mark (p.addFrame n).2
    rw [hundo]
    apply ext_cells
    · intro i
      rw [getElem?_truncate]
      split
      · next hi => simp only [addFrame]; rw [Array.getElem?_append_left hi]
      · exact (Array.getElem?_eq_none (Nat.le_of_not_lt ‹_›)).symm
    · rfl

section

variable [BEq V]

/-- A value flows into an unbound term only. -/
theorem value?_of_pairing_flow {p : Pool V} {part arg into : TermId} {v : V}
    (h : p.pairing part arg = .flow into v) : p.value? into = none := by
  rw [value?, term?_of_pairing_flow h]
  rfl

/-- Unifying pairs lets the pool grow, whether it succeeds or not, and adds no term. -/
theorem unifyPairs_grows (pairs : List (TermId × TermId)) (p : Pool V) :
    p.GrowsTo (unifyPairs pairs p).pool ∧ (unifyPairs pairs p).pool.size = p.size := by
  induction pairs generalizing p with
  | nil => exact ⟨.refl p, rfl⟩
  | cons pair rest ih =>
    obtain ⟨part, arg⟩ := pair
    simp only [unifyPairs]
    split
    · exact ⟨.refl p, rfl⟩
    · exact ⟨.refl p, rfl⟩
    · exact ih p
    · next into v hflow =>
      have hgrow := growsTo_assign (value?_of_pairing_flow hflow) v
      exact ⟨hgrow.trans (ih _).1, (ih _).2.trans (size_assign p into v)⟩
    · exact ih p

/-- After a failure to unify the pool is what it was. -/
theorem unify_pool_of_failure {p : Pool V} {pairs : List (TermId × TermId)} {f : Failure}
    (h : (p.unify pairs).failure = some f) : (p.unify pairs).pool = p := by
  obtain ⟨hgrow, hsize⟩ := unifyPairs_grows pairs p
  unfold unify at h ⊢
  cases hm : unifyPairs pairs p with
  | mk q putOff failure =>
    simp only [hm] at h hgrow hsize ⊢
    cases failure with
    | none => cases h
    | some g =>
      have hrestore := hgrow.restore
      rwa [← hsize, ← size_undo q p.mark, truncate_size] at hrestore

/-- Unifying all or none lets the pool grow and adds no term. -/
theorem unify_grows (p : Pool V) (pairs : List (TermId × TermId)) :
    p.GrowsTo (p.unify pairs).pool ∧ (p.unify pairs).pool.size = p.size := by
  cases hf : (p.unify pairs).failure with
  | some f =>
    rw [unify_pool_of_failure hf]
    exact ⟨.refl p, rfl⟩
  | none =>
    have hpairs := unifyPairs_grows pairs p
    unfold unify at hf ⊢
    cases hm : unifyPairs pairs p with
    | mk q putOff failure =>
      simp only [hm] at hf hpairs ⊢
      cases failure with
      | none => exact hpairs
      | some g => cases hf

/-- Copying results back lets the pool grow and adds no term. -/
theorem copyBack_grows (pairs : List (TermId × TermId)) (p : Pool V) :
    p.GrowsTo (p.copyBack pairs).2 ∧ (p.copyBack pairs).2.size = p.size := by
  induction pairs generalizing p with
  | nil => exact ⟨.refl p, rfl⟩
  | cons pair rest ih =>
    obtain ⟨part, arg⟩ := pair
    simp only [copyBack]
    split
    · exact ih p
    · split
      · exact ⟨.refl p, rfl⟩
      · exact ⟨.refl p, rfl⟩
      · next into v hflow =>
        have hgrow := growsTo_assign (value?_of_pairing_flow hflow) v
        exact ⟨hgrow.trans (ih _).1, (ih _).2.trans (size_assign p into v)⟩
      · exact ih p
      · exact ih p

end

end Hornbase.Pool
