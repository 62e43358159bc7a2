import Hornbase.Proofs.Watermark

/-!
# What stands on the stacks

How far a search goes is decided by what stands on its two stacks: the clauses that its open calls
have still to try, and the goals that wait in its work, each with the number of rules in use around
it. A round changes them in few ways, which `Program.Leads` lists. `Stacked.step` goes through a
round once for every property of goals and untried clauses; how deep a search nests its rules and
which names it calls are both such properties.
-/

namespace Hornbase

universe u v

variable {N : Type u} {V : Type v}

namespace Search

/-- The goals that wait satisfy `P`, and the clauses that open calls have still to try satisfy `Q`,
each with the number of rules in use around them. -/
structure Stacked (P : Nat → List (Goal N) → Prop) (Q : Nat → List ClauseId → Prop)
    (s : Search N V) : Prop where
  untried : ∀ c ∈ s.calls, Q c.depth c.untried
  goals : ∀ rest frame depth next, Work.goals rest frame depth next ∈ s.work → P depth rest

end Search

/-- The ways in which a round changes the stacks: if goals satisfy `P` and untried clauses `Q`
before it, they satisfy `P'` and `Q'` after it. -/
structure Program.Leads [DecidableEq N] (prog : Program N) (P : Nat → List (Goal N) → Prop)
    (Q : Nat → List ClauseId → Prop) (P' : Nat → List (Goal N) → Prop)
    (Q' : Nat → List ClauseId → Prop) : Prop where
  goals : ∀ depth gs, P depth gs → P' depth gs
  untried : ∀ depth ids, Q depth ids → Q' depth ids
  /-- The first clause is taken off to be tried. -/
  rest : ∀ depth id ids, Q depth (id :: ids) → Q' depth ids
  /-- The clause is a rule, and its body is left as work. -/
  body : ∀ depth id ids r, Q depth (id :: ids) → prog.clause? id = some (.rule r) →
    P' (depth + 1) r.body
  /-- The first goal is called, and the others are left as work. -/
  tail : ∀ depth g gs, P' depth (g :: gs) → P' depth gs
  /-- The first goal is called by the clauses of its name. -/
  call : ∀ depth g gs, P' depth (g :: gs) → Q' depth (prog.candidates g.name)

namespace Search

variable {P : Nat → List (Goal N) → Prop} {Q : Nat → List ClauseId → Prop} {pool : Pool V}
  {work : Array (Work N)} {calls : List OpenCall} {log : Array (Event N)} {s : Search N V}

/-- The pool and the log have no part in it. -/
theorem Stacked.withPool (h : Stacked P Q ⟨pool, work, calls, log⟩) (pool' : Pool V)
    (log' : Array (Event N)) : Stacked P Q ⟨pool', work, calls, log'⟩ :=
  ⟨h.untried, h.goals⟩

/-- Goals may be added that satisfy `P`. -/
theorem Stacked.pushGoals (h : Stacked P Q ⟨pool, work, calls, log⟩) {gs : List (Goal N)}
    {depth : Nat} (hgs : P depth gs) (frame : Frame) (next : Option Nat) :
    Stacked P Q ⟨pool, work.push (.goals gs frame depth next), calls, log⟩ := by
  refine ⟨h.untried, fun rest frame' depth' next' hmem => ?_⟩
  rcases Array.mem_push.1 hmem with hold | hnew
  · exact h.goals _ _ _ _ hold
  · obtain ⟨rfl, -, rfl, -⟩ := Work.goals.inj hnew
    exact hgs

/-- Results may be added. -/
theorem Stacked.pushResults (h : Stacked P Q ⟨pool, work, calls, log⟩)
    (pairs : List (TermId × TermId)) (next : Option Nat) :
    Stacked P Q ⟨pool, work.push (.results pairs next), calls, log⟩ := by
  refine ⟨h.untried, fun rest frame' depth' next' hmem => ?_⟩
  rcases Array.mem_push.1 hmem with hold | hnew
  · exact h.goals _ _ _ _ hold
  · cases hnew

/-- Calls may be opened whose clauses satisfy `Q`. -/
theorem Stacked.openCall (h : s.Stacked P Q) {untried : List ClauseId} {depth : Nat}
    (huntried : Q depth untried) (args : List TermId) (next : Option Nat) :
    (Search.openCall untried args depth next s).Stacked P Q := by
  obtain ⟨pool, work, calls, log⟩ := s
  refine ⟨fun c hc => ?_, h.goals⟩
  rcases List.mem_cons.1 hc with rfl | hc
  · exact huntried
  · exact h.untried c hc

/-- Rewinding adds nothing. -/
theorem Stacked.rewind (h : s.Stacked P Q) (c : OpenCall) : (Search.rewind c s).Stacked P Q := by
  obtain ⟨pool, work, calls, log⟩ := s
  refine ⟨h.untried, fun rest frame depth next hmem => h.goals rest frame depth next ?_⟩
  rw [Search.rewind, ← Array.mem_toList_iff, Array.toList_shrink] at hmem
  exact Array.mem_toList_iff.1 (List.mem_of_mem_take hmem)

/-! ## Entering a clause -/

section

variable [BEq V]

/-- A fact adds nothing. -/
theorem Stacked.enterFact (h : s.Stacked P Q) (f : Fact N) (c : OpenCall) :
    (s.enterFact f c).2.Stacked P Q := by
  obtain ⟨pool, work, calls, log⟩ := s
  simp only [Search.enterFact]
  split <;> exact h.withPool _ _

/-- A rule adds its body. -/
theorem Stacked.unfoldRule (h : s.Stacked P Q) (id : ClauseId) {r : Rule N} {c : OpenCall}
    (hbody : P (c.depth + 1) r.body) : (s.unfoldRule id r c).2.Stacked P Q := by
  obtain ⟨pool, work, calls, log⟩ := s
  simp only [Search.unfoldRule]
  generalize pool.addFrame r.locals.length = laid
  obtain ⟨frame, laid⟩ := laid
  dsimp only
  split
  · exact h.withPool _ _
  · split
    · exact (h.withPool _ _).pushGoals hbody frame _
    · exact ((h.withPool _ _).pushResults _ _).pushGoals hbody frame _

/-- A clause adds its body if it is a rule, whatever the limit. -/
theorem Stacked.enterClause {prog : Program N} (h : s.Stacked P Q) (limit : Option Nat)
    {id : ClauseId} {c : OpenCall}
    (hbody : ∀ r, prog.clause? id = some (.rule r) → P (c.depth + 1) r.body) :
    (s.enterClause prog limit id c).2.Stacked P Q := by
  unfold Search.enterClause
  split
  · exact h
  · next clause hclause =>
    split
    · exact h
    · cases clause with
      | fact f => exact h.enterFact f c
      | rule r =>
        have hentered := h.unfoldRule id (hbody r hclause)
        simp only [Search.enterRule]
        split
        · exact hentered
        · split
          · -- The limit forbids the rule, and only the log has changed.
            exact h.withPool _ _
          · exact hentered

end

/-! ## Going on and rounds -/

variable [DecidableEq N] {prog : Program N}

/-- Calling the first of some goals adds the others and a call. -/
theorem Stacked.callGoal (h : s.Stacked P Q) {goal : Goal N} {rest : List (Goal N)} {depth : Nat}
    (hrest : P depth rest) (hcall : Q depth (prog.candidates goal.name)) (frame : Frame)
    (next : Option Nat) : (s.callGoal prog goal rest frame depth next).2.Stacked P Q := by
  obtain ⟨pool, work, calls, log⟩ := s
  simp only [Search.callGoal]
  split
  · exact h.withPool _ _
  · split
    · exact (h.withPool pool _).openCall hcall _ _
    · exact ((h.withPool pool _).pushGoals hrest frame next).openCall hcall _ _

variable [BEq V]

/-- Following links adds what calling a goal adds. -/
theorem Stacked.follow (h : s.Stacked P Q) (htail : ∀ depth g gs, P depth (g :: gs) → P depth gs)
    (hcall : ∀ depth g gs, P depth (g :: gs) → Q depth (prog.candidates g.name)) (fuel : Nat)
    (next : Option Nat) : (s.follow prog fuel next).2.Stacked P Q := by
  induction fuel generalizing next s with
  | zero => cases next <;> exact h
  | succ fuel ih =>
    cases next with
    | none => exact h
    | some link =>
      obtain ⟨pool, work, calls, log⟩ := s
      simp only [Search.follow]
      split
      · exact h
      · split
        · -- Work is only followed here, and copying back changes the pool alone.
          exact ih (h.withPool _ _) _
        · exact h.withPool _ _
      · exact ih h _
      · -- A call is opened for the next goal, and the goals after it are left as work.
        next goal rest frame depth next hwork =>
        have hgoals := h.goals _ _ _ _ (Array.mem_of_getElem? hwork)
        exact h.callGoal (htail _ _ _ hgoals) (hcall _ _ _ hgoals) frame next

/-- Trying a clause adds its body if it is a rule, and what calling goals adds. -/
theorem Stacked.tryClause (h : s.Stacked P Q) (htail : ∀ depth g gs, P depth (g :: gs) → P depth gs)
    (hcall : ∀ depth g gs, P depth (g :: gs) → Q depth (prog.candidates g.name))
    (limit : Option Nat) {id : ClauseId} {c : OpenCall}
    (hbody : ∀ r, prog.clause? id = some (.rule r) → P (c.depth + 1) r.body) :
    (s.tryClause prog limit id c).2.Stacked P Q := by
  have hentered := h.enterClause limit hbody
  simp only [Search.tryClause]
  split
  · next link t hs =>
    rw [hs] at hentered
    exact hentered.follow htail hcall t.work.size link
  · next hs =>
    rw [hs] at hentered
    exact hentered

/-- A round under any limit leads from one property of the stacks to the other. -/
theorem Stacked.step {P' : Nat → List (Goal N) → Prop} {Q' : Nat → List ClauseId → Prop}
    (h : s.Stacked P Q) (hleads : prog.Leads P Q P' Q') (limit : Option Nat) :
    (s.step prog limit).state.Stacked P' Q' := by
  have hgoals : ∀ rest frame depth next, Work.goals rest frame depth next ∈ s.work →
      P' depth rest := fun _ _ _ _ hmem => hleads.goals _ _ (h.goals _ _ _ _ hmem)
  obtain ⟨pool, work, calls, log⟩ := s
  cases calls with
  | nil => exact ⟨nofun, hgoals⟩
  | cons c below =>
    have hbelow : ∀ d ∈ below, Q' d.depth d.untried :=
      fun d hd => hleads.untried _ _ (h.untried d (List.mem_cons_of_mem c hd))
    have hc : Q c.depth c.untried := h.untried c (List.mem_cons_self ..)
    simp only [Search.step]
    split
    · -- A call without untried clauses is closed.
      exact ⟨hbelow, hgoals⟩
    · next id rest huntried =>
      rw [huntried] at hc
      -- The call goes on with one clause less to try.
      have htaken : Stacked P' Q' ⟨pool, work, { c with untried := rest } :: below, log⟩ := by
        refine ⟨fun d hd => ?_, hgoals⟩
        rcases List.mem_cons.1 hd with rfl | hd
        · exact hleads.rest _ _ _ hc
        · exact hbelow d hd
      have htried := (htaken.rewind c).tryClause hleads.tail hleads.call limit
        fun r hr => hleads.body _ _ _ r hc hr
      split <;> next hs => rw [hs] at htried; exact ⟨htried.untried, htried.goals⟩

omit [DecidableEq N] [BEq V] in
/-- At the start only the clauses of the query stand there. -/
theorem stacked_start {untried : List ClauseId} (huntried : Q 0 untried) (pool : Pool V)
    (args : List TermId) : (start pool untried args).Stacked P Q := by
  have hempty : ({ pool } : Search N V).Stacked P Q :=
    ⟨nofun, fun _ _ _ _ hmem => absurd hmem (Array.not_mem_empty _)⟩
  exact hempty.openCall huntried args none

end Search

end Hornbase
