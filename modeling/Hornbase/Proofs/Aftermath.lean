import Hornbase.Database.Query
import Hornbase.Proofs.View
import Hornbase.Proofs.Watermark

/-!
# What a search leaves

A database gives its pool to a search and takes it back when the search ends. After a success the
bindings on the terms that were there before are kept; in every other case the pool is again what it
was, whatever the search did in the meantime.
-/

namespace Hornbase

universe u v

variable {N : Type u} {V : Type v}

/-! ## What is kept of a pool -/

namespace Pool

/-- What is kept of the pool `q` that `p` has grown to: the bindings of the terms of `p`. -/
def kept (p q : Pool V) : Pool V := (q.commit p.mark).truncate p.size

/-- The terms that are kept have the values that they have at the end. -/
theorem value?_kept {p q : Pool V} {t : TermId} (ht : t.index < p.size) :
    (p.kept q).value? t = q.value? t := by
  rw [value?, kept, term?_truncate, if_pos ht]
  rfl

/-- The store of what is kept is the beginning of the store at the end. -/
theorem values_kept (p q : Pool V) : (p.kept q).values = q.values.take p.size := by
  rw [kept, values_truncate, values_commit]

theorem size_kept {p q : Pool V} (h : p.GrowsTo q) : (p.kept q).size = p.size := by
  rw [kept, size_truncate, size_commit, Nat.min_eq_left h.size_le]

/-- Nothing is dropped of a pool that has not changed. -/
theorem kept_self (p : Pool V) : p.kept p = p := by
  rw [kept, commit_mark, truncate_size]

/-- What is kept has the trail of the beginning. -/
theorem trail_kept {p q : Pool V} (h : p.GrowsTo q) : (p.kept q).trail = p.trail := by
  show ((q.undo p.mark).truncate p.size).trail = p.trail
  rw [h.restore]

/-- What is kept depends only on the values that the terms have at the end. -/
theorem kept_congr {p q q' : Pool V} (h : p.GrowsTo q) (h' : p.GrowsTo q')
    (hvalues : ∀ t : TermId, t.index < p.size → q.value? t = q'.value? t) :
    p.kept q = p.kept q' := by
  apply ext_cells
  · intro i
    rw [kept, kept, getElem?_truncate, getElem?_truncate]
    split
    · next hi =>
      -- Both cells have the owner that they had in `p`, and the values agree by assumption.
      have hvalue := hvalues ⟨i⟩ hi
      have howned := (h.owned_eq hi).trans (h'.owned_eq hi).symm
      have hlt : i < q.cells.size := Nat.lt_of_lt_of_le hi h.size_le
      have hlt' : i < q'.cells.size := Nat.lt_of_lt_of_le hi h'.size_le
      have hcell : q.cells[i]? = some q.cells[i] := Array.getElem?_eq_getElem hlt
      have hcell' : q'.cells[i]? = some q'.cells[i] := Array.getElem?_eq_getElem hlt'
      simp only [value?, term?, hcell, hcell', Option.map_some, Option.bind_some] at hvalue
      simp only [hcell, hcell', Option.map_some, Option.some.injEq] at howned
      change q.cells[i]? = q'.cells[i]?
      rw [hcell, hcell', Option.some.injEq]
      generalize q.cells[i] = c at hvalue howned
      generalize q'.cells[i] = d at hvalue howned
      obtain ⟨⟨value⟩, owned⟩ := c
      obtain ⟨⟨value'⟩, owned'⟩ := d
      obtain rfl : value = value' := hvalue
      obtain rfl : owned = owned' := howned
      rfl
    · rfl
  · rw [trail_kept h, trail_kept h']

/-- If no term of a pool is bound since, the pool is what is kept. -/
theorem kept_eq_of_values {p q : Pool V} (h : p.GrowsTo q)
    (hvalues : ∀ t : TermId, t.index < p.size → q.value? t = p.value? t) : p.kept q = p := by
  rw [kept_congr h (.refl p) hvalues, kept_self]

/-- Unifying adds no term, so all of the pool is kept. -/
theorem commit_unify [BEq V] (p : Pool V) (pairs : List (TermId × TermId)) :
    (p.unify pairs).pool.commit p.mark = p.kept (p.unify pairs).pool := by
  rw [kept, ← (p.unify_grows pairs).2, ← size_commit _ p.mark, truncate_size]

end Pool

/-! ## What requests leave -/

namespace Database

variable [DecidableEq N] [BEq V]

/-- A proof attempt ends as its search does, on a pool that has grown. A failed one changes
nothing. -/
theorem prove_eq_some {db : Database N V} {rounds : Nat} {clauses : List ClauseId}
    {args : List TermId} {o : Outcome N V Bool} (h : db.prove rounds clauses args = some o) :
    ∃ t, Search.next? db.program db.config.maxDepth rounds (Search.start db.pool clauses args)
        = some (o.result, t) ∧ db.pool.GrowsTo t.pool ∧
      o.db = { db with pool := if o.result then db.pool.kept t.pool else db.pool } := by
  obtain ⟨program, pool, config⟩ := db
  simp only [prove] at h
  have hover := Search.over_start (N := N) pool clauses args
  split at h
  · -- The rounds are used up.
    cases h
  · -- An answer: the state before the last round is over the pool, and so is the last.
    next t ht =>
    obtain rfl := Option.some.inj h
    refine ⟨t, ht, ?_, rfl⟩
    obtain ⟨_, u, hrun, hu⟩ | ⟨hb, _⟩ := Search.run_of_next? ht
    · have hlast := (Search.Over.run hrun hover).1.step program config.maxDepth
      rw [hu] at hlast
      exact hlast.grows
    · cases hb
  · -- No answer: going back to the start gives the pool again.
    next t ht =>
    obtain rfl := Option.some.inj h
    obtain ⟨hb, _⟩ | ⟨_, hrun, _⟩ := Search.run_of_next? ht
    · cases hb
    · have hgrows := (Search.Over.run hrun hover).1.grows
      refine ⟨t, ht, hgrows, ?_⟩
      simp only [Bool.false_eq_true, if_false, hgrows.restore]

/-- Collecting all answers ends as its search does and changes nothing. It logs what its search
does, and the number of answers. -/
theorem queryAll_eq_some {db : Database N V} {rounds : Nat} {name : N} {arity : Nat}
    {args : List TermId} {o : Outcome N V (List (Answer V))}
    (h : db.queryAll rounds name arity args = some o) :
    o.db = db ∧ (db.argsFault? arity args = none → ∃ t,
      Search.all? db.program db.config.maxDepth args rounds
        (Search.start db.pool (db.program.candidates name) args) = some (o.result, t) ∧
      o.log = t.log.push (.queryAnswered name arity o.result.length)) := by
  simp only [queryAll] at h
  split at h
  · next failure hfault =>
    obtain rfl := Option.some.inj h
    exact ⟨rfl, fun hnone => by rw [hfault] at hnone; cases hnone⟩
  · obtain ⟨program, pool, config⟩ := db
    simp only at h
    split at h
    · cases h
    · next answers t ht =>
      obtain rfl := Option.some.inj h
      obtain ⟨found, hrun, _, _⟩ := Search.run_of_all? ht
      have hover := Search.over_start (N := N) pool (program.candidates name) args
      have hgrows := (Search.Over.run hrun hover).1.grows
      refine ⟨?_, fun _ => ⟨t, ht, rfl⟩⟩
      simp only [hgrows.restore]

/-- A query with arguments that are not accepted fails at once; any other is a proof attempt by the
clauses of its name. -/
theorem query_eq_some {db : Database N V} {rounds : Nat} {name : N} {arity : Nat}
    {args : List TermId} {o : Outcome N V Bool} (h : db.query rounds name arity args = some o) :
    (db.argsFault? arity args ≠ none ∧ o.result = false ∧ o.db = db) ∨
      (db.argsFault? arity args = none ∧ ∃ p, db.prove rounds (db.program.candidates name) args
        = some p ∧ o.result = p.result ∧ o.db = p.db) := by
  simp only [query, tryQuery] at h
  split at h
  · next failure hfault =>
    obtain rfl := Option.some.inj h
    exact .inl ⟨by simp [hfault], rfl, rfl⟩
  · next hfault =>
    simp only [Option.map_map, Option.map_eq_some_iff] at h
    obtain ⟨p, hp, rfl⟩ := h
    refine .inr ⟨hfault, p, hp, ?_, rfl⟩
    cases hr : p.result <;> simp [Function.comp, Outcome.map, Except.toBool, hr]

end Database

end Hornbase
