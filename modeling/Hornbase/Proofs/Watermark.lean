import Hornbase.Proofs.Growth
import Hornbase.Proofs.Run

/-!
# Watermarks

Every open call remembers where the trail, the pool and the waiting work ended when it was opened.
Down the stack of calls these marks never increase, and what lies below the lowest of them is what
the search began with. So whatever clauses were tried and given up, a search stands on the pool that
it was started on: `Over` holds of every state that it comes to.
-/

namespace Hornbase

universe u v

variable {N : Type u} {V : Type v}

/-- The state in which a round ends. -/
def Step.state : Step N V → Search N V
  | .exhausted s | .answered s | .running s => s

namespace Search

/-- `t` has come from `s` by growth of the pool and by more work. -/
structure Advances (s t : Search N V) : Prop where
  pool : s.pool.GrowsTo t.pool
  work : s.work.toList <+: t.work.toList

theorem Advances.refl (s : Search N V) : s.Advances s := ⟨.refl _, List.prefix_rfl⟩

theorem Advances.trans {s t u : Search N V} (hst : s.Advances t) (htu : t.Advances u) :
    s.Advances u :=
  ⟨hst.pool.trans htu.pool, hst.work.trans htu.work⟩

/-- Work that waits stays where it is. -/
theorem Advances.getElem?_work {s t : Search N V} (h : s.Advances t) {i : Nat} {w : Work N}
    (hw : s.work[i]? = some w) : t.work[i]? = some w := by
  obtain ⟨more, hmore⟩ := h.work
  rw [← Array.getElem?_toList] at hw ⊢
  have hlt := (List.getElem?_eq_some_iff.1 hw).1
  rw [← hmore, List.getElem?_append_left hlt, hw]

/-- There is no less work than before. -/
theorem Advances.size_work_le {s t : Search N V} (h : s.Advances t) :
    s.work.size ≤ t.work.size := by
  simpa using h.work.length_le

/-- The latest call of `t` was opened in the state that `t` is in, upon the calls of `s`. -/
def Opened (s t : Search N V) : Prop :=
  ∃ c, t.calls = c :: s.calls ∧ c.mark = t.pool.mark ∧ c.terms = t.pool.size ∧
    c.work = t.work.size

/-! ## What one round does to the stacks -/

section

variable [BEq V]

/-- Entering a fact advances the search and opens no call. -/
theorem enterFact_advances (f : Fact N) (c : OpenCall) (s : Search N V) :
    s.Advances (s.enterFact f c).2 ∧ (s.enterFact f c).2.calls = s.calls := by
  obtain ⟨pool, work, calls, log⟩ := s
  have hgrow := (pool.unify_grows (f.parts.zip c.args)).1
  simp only [enterFact]
  split <;> exact ⟨⟨hgrow, List.prefix_rfl⟩, rfl⟩

/-- Laying out a rule advances the search and opens no call. -/
theorem unfoldRule_advances (id : ClauseId) (r : Rule N) (c : OpenCall) (s : Search N V) :
    s.Advances (s.unfoldRule id r c).2 ∧ (s.unfoldRule id r c).2.calls = s.calls := by
  obtain ⟨pool, work, calls, log⟩ := s
  have hframe := pool.growsTo_addFrame r.locals.length
  simp only [unfoldRule]
  generalize pool.addFrame r.locals.length = laid at hframe ⊢
  obtain ⟨frame, laidPool⟩ := laid
  have hgrow := hframe.trans (laidPool.unify_grows ((r.params.map frame.term).zip c.args)).1
  dsimp only
  split
  · exact ⟨⟨hgrow, List.prefix_rfl⟩, rfl⟩
  · split
    · exact ⟨⟨hgrow, by simp⟩, rfl⟩
    · exact ⟨⟨hgrow, by simp⟩, rfl⟩

/-- Entering a rule advances the search and opens no call. -/
theorem enterRule_advances (limit : Option Nat) (id : ClauseId) (r : Rule N) (c : OpenCall)
    (s : Search N V) :
    s.Advances (s.enterRule limit id r c).2 ∧ (s.enterRule limit id r c).2.calls = s.calls := by
  unfold enterRule
  split
  · exact unfoldRule_advances id r c s
  · split
    · exact ⟨⟨.refl _, List.prefix_rfl⟩, rfl⟩
    · exact unfoldRule_advances id r c s

/-- Entering a clause advances the search and opens no call. -/
theorem enterClause_advances (prog : Program N) (limit : Option Nat) (id : ClauseId) (c : OpenCall)
    (s : Search N V) :
    s.Advances (s.enterClause prog limit id c).2 ∧
      (s.enterClause prog limit id c).2.calls = s.calls := by
  unfold enterClause
  split
  · exact ⟨.refl s, rfl⟩
  · split
    · exact ⟨.refl s, rfl⟩
    · split
      · exact enterFact_advances _ c s
      · exact enterRule_advances limit id _ c s

end

variable [DecidableEq N]

/-- Calling a goal advances the search; if there are clauses for the goal a call is opened. -/
theorem callGoal_advances (prog : Program N) (goal : Goal N) (rest : List (Goal N)) (frame : Frame)
    (depth : Nat) (next : Option Nat) (s : Search N V) :
    let r := s.callGoal prog goal rest frame depth next
    s.Advances r.2 ∧ (r.2.calls = s.calls ∨ s.Opened r.2) := by
  obtain ⟨pool, work, calls, log⟩ := s
  simp only [callGoal]
  split
  · exact ⟨⟨.refl _, List.prefix_rfl⟩, .inl rfl⟩
  · split
    · exact ⟨⟨.refl _, List.prefix_rfl⟩, .inr ⟨_, rfl, rfl, rfl, rfl⟩⟩
    · exact ⟨⟨.refl _, by simp [openCall]⟩, .inr ⟨_, rfl, rfl, rfl, rfl⟩⟩

variable [BEq V]

/-- Following links advances the search and opens one call at most. -/
theorem follow_advances (prog : Program N) (fuel : Nat) (next : Option Nat) (s : Search N V) :
    let r := s.follow prog fuel next
    s.Advances r.2 ∧ (r.2.calls = s.calls ∨ s.Opened r.2) := by
  induction fuel generalizing next s with
  | zero => cases next <;> exact ⟨.refl s, .inl rfl⟩
  | succ fuel ih =>
    cases next with
    | none => exact ⟨.refl s, .inl rfl⟩
    | some link =>
      obtain ⟨pool, work, calls, log⟩ := s
      simp only [follow]
      split
      · exact ⟨.refl _, .inl rfl⟩
      · -- What is copied back binds terms, and opens and drops nothing.
        next pairs next _ =>
        have hgrow := (pool.copyBack_grows pairs).1
        split
        · next q hq =>
          rw [hq] at hgrow
          have hcopied : Advances ⟨pool, work, calls, log⟩ ⟨q, work, calls, log⟩ :=
            ⟨hgrow, List.prefix_rfl⟩
          obtain ⟨hadv, hcalls⟩ := ih next ⟨q, work, calls, log⟩
          exact ⟨hcopied.trans hadv, hcalls⟩
        · next q hq =>
          rw [hq] at hgrow
          exact ⟨⟨hgrow, List.prefix_rfl⟩, .inl rfl⟩
      · exact ih _ _
      · exact callGoal_advances prog _ _ _ _ _ _

/-- Trying a clause advances the search and opens one call at most. -/
theorem tryClause_advances (prog : Program N) (limit : Option Nat) (id : ClauseId) (c : OpenCall)
    (s : Search N V) :
    let r := s.tryClause prog limit id c
    s.Advances r.2 ∧ (r.2.calls = s.calls ∨ s.Opened r.2) := by
  have henter := enterClause_advances prog limit id c s
  simp only [tryClause]
  split
  · next next s' hs =>
    rw [hs] at henter
    obtain ⟨hadv, hcalls⟩ := follow_advances prog s'.work.size next s'
    refine ⟨henter.1.trans hadv, ?_⟩
    rw [Opened, ← henter.2]
    exact hcalls
  · next failure s' hs =>
    rw [hs] at henter
    exact ⟨henter.1, .inl henter.2⟩

/-! ## The marks down the stack -/

/-- The marks of the calls, the latest first, are no greater than the bounds given and than the
marks before them, and no smaller than the ends of `base`. -/
def Marked (base : Pool V) : List OpenCall → (mark terms work : Nat) → Prop
  | [], mark, terms, _ => base.mark ≤ mark ∧ base.size ≤ terms
  | c :: below, mark, terms, work =>
    c.mark ≤ mark ∧ c.terms ≤ terms ∧ c.work ≤ work ∧ Marked base below c.mark c.terms c.work

omit [DecidableEq N] [BEq V] in
theorem Marked.base_le {base : Pool V} {calls : List OpenCall} {mark terms work : Nat}
    (h : Marked base calls mark terms work) : base.mark ≤ mark ∧ base.size ≤ terms := by
  induction calls generalizing mark terms work with
  | nil => exact h
  | cons c below ih =>
    obtain ⟨hmark, hterms, _, hbelow⟩ := h
    exact ⟨Nat.le_trans (ih hbelow).1 hmark, Nat.le_trans (ih hbelow).2 hterms⟩

omit [DecidableEq N] [BEq V] in
theorem Marked.mono {base : Pool V} {calls : List OpenCall} {mark terms work : Nat}
    (h : Marked base calls mark terms work) {mark' terms' work' : Nat} (hmark : mark ≤ mark')
    (hterms : terms ≤ terms') (hwork : work ≤ work') : Marked base calls mark' terms' work' := by
  cases calls with
  | nil => exact ⟨Nat.le_trans h.1 hmark, Nat.le_trans h.2 hterms⟩
  | cons c below =>
    obtain ⟨h₁, h₂, h₃, hbelow⟩ := h
    exact ⟨Nat.le_trans h₁ hmark, Nat.le_trans h₂ hterms, Nat.le_trans h₃ hwork, hbelow⟩

omit [DecidableEq N] [BEq V] in
/-- No call has its watermarks above the bounds. -/
theorem Marked.le_of_mem {base : Pool V} {calls : List OpenCall} {mark terms work : Nat}
    (h : Marked base calls mark terms work) :
    ∀ c ∈ calls, c.mark ≤ mark ∧ c.terms ≤ terms ∧ c.work ≤ work := by
  induction calls generalizing mark terms work with
  | nil => exact nofun
  | cons c below ih =>
    obtain ⟨hmark, hterms, hwork, hbelow⟩ := h
    intro d hd
    rcases List.mem_cons.1 hd with rfl | hd
    · exact ⟨hmark, hterms, hwork⟩
    · obtain ⟨hmark', hterms', hwork'⟩ := ih hbelow d hd
      exact ⟨Nat.le_trans hmark' hmark, Nat.le_trans hterms' hterms, Nat.le_trans hwork' hwork⟩

/-- The search stands on the pool `base`: its pool has grown out of it, and the marks of its calls
lie in between, each no higher than those of the calls opened after it. -/
structure Over (base : Pool V) (s : Search N V) : Prop where
  grows : base.GrowsTo s.pool
  marked : Marked base s.calls s.pool.mark s.pool.size s.work.size

omit [DecidableEq N] [BEq V] in
/-- What has advanced from a search over `base`, and opened one call at most, is over `base`. -/
theorem Over.advance {base : Pool V} {s t : Search N V} (h : Over base s) (hadv : s.Advances t)
    (hcalls : t.calls = s.calls ∨ s.Opened t) : Over base t where
  grows := h.grows.trans hadv.pool
  marked := by
    have hmarked := h.marked.mono hadv.pool.mark_le hadv.pool.size_le hadv.size_work_le
    obtain hsame | ⟨c, hc, hmark, hterms, hwork⟩ := hcalls
    · rw [hsame]
      exact hmarked
    · rw [hc]
      refine ⟨Nat.le_of_eq hmark, Nat.le_of_eq hterms, Nat.le_of_eq hwork, ?_⟩
      rw [hmark, hterms, hwork]
      exact hmarked

omit [DecidableEq N] [BEq V] in
/-- Rewinding to the latest call leaves the search over `base`. -/
theorem Over.rewound {base : Pool V} {s : Search N V} (h : Over base s) {c : OpenCall}
    {below : List OpenCall} (hcalls : s.calls = c :: below) (untried : List ClauseId) :
    Over base (Search.rewind c { s with calls := { c with untried } :: below }) := by
  obtain ⟨pool, work, calls, log⟩ := s
  obtain rfl : calls = c :: below := hcalls
  obtain ⟨hmark, hterms, hwork, hbelow⟩ := h.marked
  have hbase := hbelow.base_le
  dsimp only at hmark hterms hwork
  refine ⟨h.grows.back hbase.1 hmark hbase.2 hterms, ?_⟩
  simp only [Search.rewind, Marked, Pool.mark_truncate, Pool.mark_undo, Pool.size_truncate,
    Pool.size_undo, Array.size_shrink, Nat.min_eq_left hmark, Nat.min_eq_left hterms,
    Nat.min_eq_left hwork]
  exact ⟨Nat.le_refl _, Nat.le_refl _, Nat.le_refl _, hbelow⟩

/-- Every round keeps the search over `base`. -/
theorem Over.step {base : Pool V} {s : Search N V} (h : Over base s) (prog : Program N)
    (limit : Option Nat) : Over base (s.step prog limit).state := by
  obtain ⟨pool, work, calls, log⟩ := s
  cases calls with
  | nil => exact h
  | cons c below =>
    simp only [Search.step]
    split
    · exact ⟨h.grows, h.marked.2.2.2.mono h.marked.1 h.marked.2.1 h.marked.2.2.1⟩
    · next id rest _ =>
      have hrewound := h.rewound rfl rest
      -- The call is rewound below what any later one has left, and then the search only advances.
      have htry := tryClause_advances prog limit id c
        (Search.rewind c ⟨pool, work, { c with untried := rest } :: below, log⟩)
      have hover := hrewound.advance htry.1 htry.2
      split <;> next hs => rw [hs] at hover; exact ⟨hover.grows, hover.marked⟩

/-- What every round keeps, and no report touches, holds all along a run and wherever an answer is
found. -/
theorem Run.invariant {P : Search N V → Prop} {prog : Program N} {limit : Option Nat}
    (hstep : ∀ s, P s → P (s.step prog limit).state) (hreport : ∀ s, P s → P (s.report .retrying))
    {s t : Search N V} {found : List (Search N V)} (hrun : Run prog limit s found t) (h : P s) :
    P t ∧ ∀ e ∈ found, P e := by
  induction hrun with
  | refl => exact ⟨h, fun e he => by cases he⟩
  | running hs _ ih =>
    have hnext := hstep _ h
    rw [hs] at hnext
    exact ih hnext
  -- The answer is recorded in the state that found it, and the run goes on from its report.
  | answered hs _ ih =>
    have hanswered := hstep _ h
    rw [hs] at hanswered
    obtain ⟨ht, hfound⟩ := ih (hreport _ hanswered)
    refine ⟨ht, fun e he => ?_⟩
    rcases List.mem_cons.1 he with rfl | he
    · exact hanswered
    · exact hfound e he

/-- Every run keeps the search over `base`, and so are the states in which it finds answers. -/
theorem Over.run {base : Pool V} {prog : Program N} {limit : Option Nat} {s t : Search N V}
    {found : List (Search N V)} (hrun : Run prog limit s found t) (h : Over base s) :
    Over base t ∧ ∀ e ∈ found, Over base e :=
  hrun.invariant (fun _ hs => hs.step prog limit) (fun _ hs => ⟨hs.grows, hs.marked⟩) h

omit [DecidableEq N] [BEq V] in
/-- A search starts over the pool that it is given. -/
theorem over_start (pool : Pool V) (untried : List ClauseId) (args : List TermId) :
    Over pool (start (N := N) pool untried args) where
  grows := .refl pool
  marked := ⟨Nat.le_refl _, Nat.le_refl _, Nat.le_refl _, Nat.le_refl _, Nat.le_refl _⟩

end Search

end Hornbase
