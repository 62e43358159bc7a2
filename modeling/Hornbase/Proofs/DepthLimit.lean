import Hornbase.Proofs.Stacks

/-!
# Searches without a limit

A round nests at most one rule more than the rounds before it. So a search without a limit that ends
within some number of rounds goes exactly as it would under that number as its limit, and whatever
is shown of bounded searches holds of its outcome.
-/

namespace Hornbase

universe u v

variable {N : Type u} {V : Type v}

/-- The goals in the work have at most `n` rules in use around them. -/
def Work.Shallow (n : Nat) : Work N → Prop
  | .goals _ _ depth _ => depth ≤ n
  | .results _ _ => True

namespace Search

/-- All that is open or waits has at most `n` rules in use around it. -/
structure Shallow (n : Nat) (s : Search N V) : Prop where
  calls : ∀ c ∈ s.calls, c.depth ≤ n
  work : ∀ w ∈ s.work, w.Shallow n

/-- A search is shallow if its goals and untried clauses have at most `n` rules in use around
them. -/
theorem shallow_iff {n : Nat} {s : Search N V} :
    s.Shallow n ↔ s.Stacked (fun depth _ => depth ≤ n) (fun depth _ => depth ≤ n) := by
  constructor
  · exact fun h => ⟨h.calls, fun rest frame depth next hmem => h.work _ hmem⟩
  · refine fun h => ⟨h.untried, fun w hw => ?_⟩
    cases w with
    | goals rest frame depth next => exact h.goals _ _ _ _ hw
    | results => trivial

/-! ## What one round does to the depths -/

section

variable [BEq V]

/-- Entering a clause under a limit is entering it under any that allows no less, unless the limit
is reached and the clause, which is a rule, is refused. -/
theorem enterClause_some_cases {d : Nat} {limit : Option Nat} (hle : ∀ d' ∈ limit, d ≤ d')
    (prog : Program N) (id : ClauseId) (c : OpenCall) (s : Search N V) :
    s.enterClause prog (some d) id c = s.enterClause prog limit id c ∨
      d ≤ c.depth ∧ s.enterClause prog (some d) id c
        = (.error (.depthExceeded d), s.report (.depthReached id d)) := by
  unfold enterClause
  split
  · exact .inl rfl
  · next clause _ =>
    split
    · exact .inl rfl
    · cases clause with
      | fact f => exact .inl rfl
      | rule r =>
        -- A body starts only below the limit, and the smaller limit is reached first.
        by_cases hc : d ≤ c.depth
        · exact .inr ⟨hc, by simp only [enterRule, if_pos hc]⟩
        · left
          cases limit with
          | none => simp only [enterRule, if_neg hc]
          | some d' =>
            have hd' : d ≤ d' := hle d' rfl
            have hc' : ¬ d' ≤ c.depth := by omega
            simp only [enterRule, if_neg hc, if_neg hc']

end

variable [DecidableEq N] [BEq V]

/-- A round nests at most one rule more than is nested already. -/
theorem Shallow.step {n : Nat} {s : Search N V} (h : s.Shallow n) (prog : Program N)
    (limit : Option Nat) : (s.step prog limit).state.Shallow (n + 1) := by
  rw [shallow_iff] at h ⊢
  refine h.step ⟨?_, ?_, ?_, ?_, ?_, ?_⟩ limit
  · exact fun _ _ hle => Nat.le_succ_of_le hle
  · exact fun _ _ hle => Nat.le_succ_of_le hle
  · exact fun _ _ _ hle => Nat.le_succ_of_le hle
  · exact fun _ _ _ _ hle _ => Nat.succ_le_succ hle
  · exact fun _ _ _ hle => hle
  · exact fun _ _ _ hle => hle

/-- A round under a limit that no call has reached is a round without one. -/
theorem step_some {limit : Nat} {s : Search N V} (h : ∀ c ∈ s.calls, c.depth < limit)
    (prog : Program N) : s.step prog (some limit) = s.step prog none := by
  obtain ⟨pool, work, calls, log⟩ := s
  cases calls with
  | nil => rfl
  | cons c below =>
    have hc : c.depth < limit := h c (List.mem_cons_self ..)
    have hnone : ∀ d' ∈ (none : Option Nat), limit ≤ d' := nofun
    have hentered : ∀ id (t : Search N V),
        t.enterClause prog (some limit) id c = t.enterClause prog none id c := fun id t =>
      (enterClause_some_cases hnone prog id c t).resolve_right fun hreached =>
        Nat.not_le_of_lt hc hreached.1
    simp only [Search.step, tryClause, hentered]

theorem Shallow.step_some {n limit : Nat} {s : Search N V} (h : s.Shallow n) (hn : n < limit)
    (prog : Program N) : s.step prog (some limit) = s.step prog none :=
  Search.step_some (fun c hc => Nat.lt_of_le_of_lt (h.calls c hc) hn) prog

/-! ## Whole searches -/

/-- A search for one answer that ends without a limit ends in the same way under a limit. -/
theorem Shallow.next?_some {n rounds : Nat} {s : Search N V} (h : s.Shallow n) {prog : Program N}
    {r : Bool × Search N V} (hr : next? prog none rounds s = some r) :
    next? prog (some (n + rounds)) rounds s = some r := by
  induction rounds generalizing n s with
  | zero => cases hr
  | succ rounds ih =>
    have hstep := h.step prog none
    rw [next?] at hr ⊢
    rw [h.step_some (by omega)]
    split at hr
    · exact hr
    · exact hr
    · next s' hs =>
      rw [hs] at hstep
      have hrest := ih hstep hr
      rwa [Nat.add_assoc, Nat.add_comm 1 rounds] at hrest

/-- A search for all answers that ends without a limit ends in the same way under a limit. -/
theorem Shallow.all?_some {n rounds : Nat} {s : Search N V} (h : s.Shallow n) {prog : Program N}
    {args : List TermId} {r : List (Answer V) × Search N V}
    (hr : all? prog none args rounds s = some r) :
    all? prog (some (n + rounds)) args rounds s = some r := by
  induction rounds generalizing n s r with
  | zero => cases hr
  | succ rounds ih =>
    have hstep := h.step prog none
    rw [all?] at hr ⊢
    rw [h.step_some (by omega)]
    split at hr
    · exact hr
    · next s' hs =>
      rw [hs] at hstep
      -- A round adds at most one level, and there is one round less to go.
      have hrest := ih hstep hr
      rwa [Nat.add_assoc, Nat.add_comm 1 rounds] at hrest
    · next s' hs =>
      rw [hs] at hstep
      obtain ⟨rest, hrest, rfl⟩ := Option.map_eq_some_iff.1 hr
      have hreported : (s'.report .retrying).Shallow (n + 1) := ⟨hstep.calls, hstep.work⟩
      have hmore := ih hreported hrest
      rw [Nat.add_assoc, Nat.add_comm 1 rounds] at hmore
      rw [hmore]
      rfl

omit [DecidableEq N] [BEq V] in
/-- At the start no rule is in use. -/
theorem shallow_start (pool : Pool V) (untried : List ClauseId) (args : List TermId) :
    Shallow 0 (start (N := N) pool untried args) :=
  shallow_iff.2 (stacked_start (Nat.le_refl 0) pool args)

/-- A search for one answer that ends goes as if the number of rounds were its limit, unless it has
one. -/
theorem next?_getD {limit : Option Nat} {prog : Program N} {pool : Pool V} {ids : List ClauseId}
    {args : List TermId} {rounds : Nat} {r : Bool × Search N V}
    (h : next? prog limit rounds (start pool ids args) = some r) :
    next? prog (some (limit.getD rounds)) rounds (start pool ids args) = some r := by
  cases limit with
  | some limit => exact h
  | none =>
    have hsome := (shallow_start pool ids args).next?_some h
    rwa [Nat.zero_add] at hsome

/-- A search for all answers that ends goes as if the number of rounds were its limit, unless it has
one. -/
theorem all?_getD {limit : Option Nat} {prog : Program N} {pool : Pool V} {ids : List ClauseId}
    {args args' : List TermId} {rounds : Nat} {r : List (Answer V) × Search N V}
    (h : all? prog limit args' rounds (start pool ids args) = some r) :
    all? prog (some (limit.getD rounds)) args' rounds (start pool ids args) = some r := by
  cases limit with
  | some limit => exact h
  | none =>
    have hsome := (shallow_start pool ids args).all?_some h
    rwa [Nat.zero_add] at hsome

end Search

end Hornbase
