import Hornbase.Proofs.Ledger
import Hornbase.Proofs.Queries
import Hornbase.Proofs.Stores

/-!
# Lifetimes of frames

The frame of a rule is cut off together with the terms above the watermark of an open call, and its
positions are used again. Here it is shown that nothing refers to it by then: at every round of a
search from a database the accounts of its ledger are in order (`accounts_of_recorded`). So no try
fails because a term is unknown or a link is broken, and no clause is missing.
-/

namespace Hornbase

universe u v

variable {N : Type u} {V : Type v}

/-- Whether the failure is that a reference leads nowhere. -/
def Failure.Dangling : Failure → Prop
  | .unknownTerm _ | .brokenLink _ => True
  | .arityMismatch .. | .clash _ | .noMatchingClause | .depthExceeded _ => False

namespace Search

variable {prog : Program N} {base : Pool V} {args : List TermId} {L : Ledger}

/-- A part of a try has left the accounts in order, and if it failed, then not for a reference. -/
structure InOrder {α : Type} (prog : Program N) (base : Pool V) (args : List TermId) (L : Ledger)
    (r : Except Failure α × Search N V) : Prop where
  accounts : L.Accounts prog base.size args r.2.pool.size r.2.work r.2.calls
  failure : ∀ f, r.1 = .error f → ¬ f.Dangling

/-- A clause was entered in order, and what comes next is a link to work that is there. -/
structure Entered (prog : Program N) (base : Pool V) (args : List TermId) (L : Ledger)
    (r : Except Failure (Option Nat) × Search N V) : Prop extends InOrder prog base args L r where
  link : ∀ next, r.1 = .ok next → ∀ l ∈ next, l < r.2.work.size

theorem InOrder.ok {α : Type} {s : Search N V} {x : α}
    (h : L.Accounts prog base.size args s.pool.size s.work s.calls) :
    InOrder prog base args L (.ok x, s) where
  accounts := h
  failure f hf := by cases hf

theorem InOrder.error {α : Type} {s : Search N V} {f : Failure}
    (h : L.Accounts prog base.size args s.pool.size s.work s.calls) (hf : ¬ f.Dangling) :
    InOrder prog base args L ((.error f, s) : Except Failure α × Search N V) where
  accounts := h
  failure f' hf' := by
    obtain rfl := Except.error.inj hf'
    exact hf

theorem Entered.ok {s : Search N V} {next : Option Nat}
    (h : L.Accounts prog base.size args s.pool.size s.work s.calls)
    (hlink : ∀ l ∈ next, l < s.work.size) : Entered prog base args L (.ok next, s) where
  toInOrder := .ok h
  link next' hnext := by
    obtain rfl := Except.ok.inj hnext
    exact hlink

theorem Entered.error {s : Search N V} {f : Failure}
    (h : L.Accounts prog base.size args s.pool.size s.work s.calls) (hf : ¬ f.Dangling) :
    Entered prog base args L (.error f, s) where
  toInOrder := .error h hf
  link next hnext := by cases hnext

/-- Once its head is unified, a rule leaves its goals behind, and the pairs put off below them. -/
theorem leave_entered {pool : Pool V} {work : Array (Work N)} {calls : List OpenCall}
    {log : Array (Event N)} {r : Rule N} {frame : Frame} {next : Option Nat}
    (h : L.Accounts prog base.size args pool.size work calls)
    (hcalls : ∀ k < calls.length, L.calls k < L.now)
    (hlaid : L.Laid prog pool.size L.now r frame) (depth : Nat)
    (hlink : ∀ l ∈ next, l < work.size) (pairs : List (TermId × TermId)) :
    (∀ x ∈ pairs, frame.Holds x.1 ∧ x.2.index < pool.size ∧ L.terms x.2.index < L.now) →
    Entered prog base args L
      (match pairs with
      | [] => (.ok (some work.size), ⟨pool, work.push (.goals r.body frame depth next), calls, log⟩)
      | pairs => (.ok (some (work.size + 1)),
          ⟨pool, (work.push (.results pairs next)).push
            (.goals r.body frame depth (some work.size)), calls, log⟩)) := by
  intro hpairs
  have hgoals : ∀ position next, (∀ l ∈ next, l < position) →
      L.Accounted prog pool.size L.now position (.goals r.body frame depth next) :=
    fun position next hnext => ⟨⟨L.now, r, Nat.le_refl _, hlaid, List.suffix_rfl⟩, hnext⟩
  cases pairs with
  | nil => exact .ok (h.push hcalls (hgoals work.size next hlink)) (by simp)
  | cons pair pairs =>
    have hresults : L.Accounted prog pool.size L.now work.size (.results (pair :: pairs) next) :=
      ⟨⟨r, frame, hlaid, hpairs⟩, hlink⟩
    exact .ok ((h.push hcalls hresults).push hcalls (hgoals _ (some work.size) (by simp))) (by simp)

variable [BEq V]

/-! ## Entering a clause -/

theorem enterFact_entered {s : Search N V} {f : Fact N} {c : OpenCall}
    (h : L.Accounts prog base.size args s.pool.size s.work s.calls)
    (hparts : ∀ t ∈ f.parts, t.index < s.pool.size) (hargs : ∀ t ∈ c.args, t.index < s.pool.size)
    (hlink : ∀ l ∈ c.next, l < s.work.size) :
    Entered prog base args L (s.enterFact f c) := by
  obtain ⟨pool, work, calls, log⟩ := s
  have hknown : pool.Known (f.parts.zip c.args) := fun x hx =>
    ⟨hparts x.1 (List.of_mem_zip hx).1, hargs x.2 (List.of_mem_zip hx).2⟩
  have hsize := (pool.unify_grows (f.parts.zip c.args)).2
  dsimp only at h hlink
  rw [← hsize] at h
  simp only [enterFact]
  cases hf : (pool.unify (f.parts.zip c.args)).failure with
  | none => exact .ok h hlink
  | some failure =>
    obtain ⟨t, rfl⟩ := Pool.clash_of_unify hknown hf
    exact .error h not_false

/-- The pairs that are put off when a rule is entered go from the frame to older terms. -/
theorem putOff_holds {pool : Pool V} {r : Rule N} {c : OpenCall} {frame : Frame}
    (hsize : frame.size = r.locals.length) (hgrows : base.GrowsTo pool) (hr : r.Valid base)
    (hknown : pool.Known ((r.params.map frame.term).zip c.args))
    (hf : (pool.unify ((r.params.map frame.term).zip c.args)).failure = none) :
    ∀ x ∈ (pool.unify ((r.params.map frame.term).zip c.args)).putOff,
      frame.Holds x.1 ∧ x.2 ∈ c.args := by
  intro x hx
  have hunify := Pool.unify_outcome hknown
  rw [Matching.outcome, hf] at hunify
  obtain ⟨hmem, hunbound, -⟩ := Store.unify_putOff hunify.symm x hx
  obtain ⟨hpart, harg⟩ := List.of_mem_zip hmem
  refine ⟨?_, harg⟩
  obtain ⟨o, ho, hox⟩ := List.mem_map.1 hpart
  have hvalid := hr.params o ho
  rw [← hox, Pool.value?_values] at hunbound
  rw [← hox]
  cases o with
  | var n =>
    have hn : n < r.locals.length := hvalid
    exact ⟨Nat.le_add_right _ _, Nat.add_lt_add_left (hsize ▸ hn) _⟩
  | const t =>
    -- Constants are bound, so no pair with one is put off.
    obtain ⟨v, hv⟩ := Pool.Fixed.exists_value? hvalid
    have hbound : pool.value? (frame.term (.const t)) = some v := hgrows.value?_eq hv
    rw [hunbound] at hbound
    cases hbound

theorem unfoldRule_entered {s : Search N V} {id : ClauseId} {r : Rule N} {c : OpenCall}
    (h : L.Accounts prog base.size args s.pool.size s.work s.calls)
    (hbegins : L.Begins id s.pool.size s.work.size s.calls.length)
    (hgrows : base.GrowsTo s.pool) (hclause : prog.clause? id = some (.rule r)) (hr : r.Valid base)
    (hargs : ∀ t ∈ c.args, t.index < s.pool.size) (hlink : ∀ l ∈ c.next, l < s.work.size) :
    Entered prog base args L (s.unfoldRule id r c) := by
  obtain ⟨pool, work, calls, log⟩ := s
  dsimp only at h hbegins hgrows hargs hlink
  -- The frame is entered into the ledger before the head is unified, so its terms are present then.
  have hlaid := h.laid hbegins hclause
  replace h := h.lay hbegins r.locals.length
  have hlaidGrows := hgrows.trans (pool.growsTo_addFrame r.locals.length)
  have hsize := pool.size_addFrame r.locals.length
  have hframe : (pool.addFrame r.locals.length).1 = ⟨pool.size, r.locals.length⟩ := rfl
  simp only [unfoldRule]
  generalize pool.addFrame r.locals.length = added at hlaidGrows hsize hframe ⊢
  obtain ⟨frame, laid⟩ := added
  dsimp only at hlaidGrows hsize hframe ⊢
  rw [← hframe, ← hsize] at hlaid
  rw [← hsize] at h
  -- Each pair is a term of the frame or of a clause, and an argument that was there before.
  have hknown : laid.Known ((r.params.map frame.term).zip c.args) := by
    intro x hx
    obtain ⟨hpart, harg⟩ := List.of_mem_zip hx
    obtain ⟨o, ho, hox⟩ := List.mem_map.1 hpart
    rw [← hox]
    refine ⟨(hlaid.present h.terms_zero (Nat.le_refl _) (hr.params o ho)).1, ?_⟩
    have hold := hargs x.2 harg
    omega
  -- What unifying leaves is used through these facts only.
  have hputOff := putOff_holds hlaid.size_eq hlaidGrows hr hknown
  have hsame := (laid.unify_grows ((r.params.map frame.term).zip c.args)).2
  have hclash := fun f => Pool.clash_of_unify hknown (f := f)
  generalize laid.unify ((r.params.map frame.term).zip c.args) = m at hputOff hsame hclash ⊢
  obtain ⟨q, putOff, failure⟩ := m
  dsimp only at hputOff hsame hclash ⊢
  rw [← hsame] at h hlaid
  cases failure with
  | some failure =>
    -- All terms are known, so what has failed is a comparison.
    obtain ⟨t, rfl⟩ := hclash failure rfl
    exact .error h not_false
  | none =>
    -- The pairs that were put off lead from the new frame to terms that are older than it.
    refine leave_entered h hbegins.calls_lt hlaid (c.depth + 1) hlink putOff fun x hx => ?_
    obtain ⟨hholds, harg⟩ := hputOff rfl x hx
    have hold := hargs x.2 harg
    exact ⟨hholds, by omega, hbegins.terms_lt _ hold⟩

/-- Entering a clause leaves the accounts in order. -/
theorem enterClause_entered (limit : Option Nat) {s : Search N V} {id : ClauseId} {c : OpenCall}
    (hvalid : prog.Valid base) (h : L.Accounts prog base.size args s.pool.size s.work s.calls)
    (hbegins : L.Begins id s.pool.size s.work.size s.calls.length) (hgrows : base.GrowsTo s.pool)
    (hargs : ∀ t ∈ c.args, t.index < s.pool.size) (hlink : ∀ l ∈ c.next, l < s.work.size) :
    Entered prog base args L (s.enterClause prog limit id c) := by
  unfold enterClause
  split
  · exact .error h not_false
  · next clause hclause =>
    split
    · exact .error h not_false
    · cases clause with
      | fact f =>
        refine enterFact_entered h (fun t ht => ?_) hargs hlink
        exact Nat.lt_of_lt_of_le (hvalid.fact hclause t ht).lt hgrows.size_le
      | rule r =>
        have hr := hvalid.rule hclause
        have hentered := unfoldRule_entered h hbegins hgrows hclause hr hargs hlink
        dsimp only
        unfold enterRule
        split
        · exact hentered
        · split
          · -- The limit forbids one more rule, and nothing has been laid out.
            exact .error h not_false
          · exact hentered

/-! ## Going on -/

variable [DecidableEq N]

omit [BEq V] in
/-- Calling a goal leaves the accounts in order. -/
theorem callGoal_inOrder {s : Search N V} {goal : Goal N} {rest : List (Goal N)} {frame : Frame}
    {depth a : Nat} {next : Option Nat} {r : Rule N} (hvalid : prog.Valid base)
    (hindexed : prog.Indexed) (h : L.Accounts prog base.size args s.pool.size s.work s.calls)
    (hcalls : ∀ k < s.calls.length, L.calls k < L.now) (ha : a ≤ L.now)
    (hlaid : L.Laid prog s.pool.size a r frame) (hgoals : goal :: rest <:+ r.body)
    (hlink : ∀ l ∈ next, l < s.work.size) :
    InOrder prog base args L (s.callGoal prog goal rest frame depth next) := by
  obtain ⟨pool, work, calls, log⟩ := s
  dsimp only at h hcalls hlaid hlink
  obtain ⟨id, -, hclause⟩ := hlaid.rule
  have hgoal : goal ∈ r.body := hgoals.subset (List.mem_cons_self ..)
  -- The arguments come from the frame of the rule that the goal belongs to.
  have hpresent : ∀ t ∈ goal.args.map frame.term, L.Present pool.size L.now t := by
    intro t ht
    obtain ⟨o, ho, rfl⟩ := List.mem_map.1 ht
    exact hlaid.present h.terms_zero ha ((hvalid.rule hclause).body goal hgoal o ho)
  have hstored : ∀ id ∈ prog.candidates goal.name, ∃ clause, prog.clause? id = some clause :=
    fun id => hindexed.exists_clause?
  have hsource : ∃ a r f, a ≤ L.now ∧ L.Laid prog pool.size a r f ∧
      ∃ g ∈ r.body, goal.args.map frame.term = g.args.map f.term :=
    ⟨a, r, frame, ha, hlaid, goal, hgoal, rfl⟩
  simp only [callGoal]
  split
  · exact .error h not_false
  · split
    · -- The goal is the last one, so the call is followed by what follows the rule.
      exact .ok (h.open hstored hpresent hsource rfl rfl hlink)
    · -- The goals behind it are left as work that refers to the same frame.
      have hrest : L.Accounted prog pool.size L.now work.size (.goals rest frame depth next) :=
        ⟨⟨a, r, ha, hlaid, (List.suffix_cons goal rest).trans hgoals⟩, hlink⟩
      exact .ok ((h.push hcalls hrest).open hstored hpresent hsource rfl rfl (by simp))

/-- Following links leaves the accounts in order. -/
theorem follow_inOrder (hvalid : prog.Valid base) (hindexed : prog.Indexed) {fuel : Nat}
    {next : Option Nat} {s : Search N V}
    (h : L.Accounts prog base.size args s.pool.size s.work s.calls)
    (hcalls : ∀ k < s.calls.length, L.calls k < L.now) (hfuel : fuel ≤ s.work.size)
    (hlink : ∀ l ∈ next, l < fuel) : InOrder prog base args L (s.follow prog fuel next) := by
  induction fuel generalizing next s with
  | zero =>
    cases next with
    | none => exact .ok h
    | some link => exact absurd (hlink link rfl) (Nat.not_lt_zero link)
  | succ fuel ih =>
    cases next with
    | none => exact .ok h
    | some link =>
      obtain ⟨pool, work, calls, log⟩ := s
      dsimp only at h hcalls hfuel
      have hlt : link < fuel + 1 := hlink link rfl
      simp only [follow]
      split
      · next hnone =>
        -- The link would lead nowhere, but links lead to work that is there.
        have hge := Array.getElem?_eq_none_iff.1 hnone
        omega
      · next pairs next hw =>
        -- Results go from a frame that is still laid out to terms that are older.
        obtain ⟨⟨r, f, hlaid, hpairs⟩, hnext⟩ := h.accounted link _ hw
        have hknown : pool.Known pairs := fun x hx =>
          ⟨((hlaid.holds_iff x.1).1 (hpairs x hx).1).1, (hpairs x hx).2.1⟩
        have hsize := (pool.copyBack_grows pairs).2
        have hclash := fun f => Pool.clash_of_copyBack hknown (f := f)
        generalize pool.copyBack pairs = copied at hsize hclash ⊢
        obtain ⟨result, q⟩ := copied
        dsimp only at hsize hclash ⊢
        rw [← hsize] at h
        cases result with
        | none =>
          -- They were copied, and what follows them is further down.
          refine ih h hcalls (Nat.le_of_succ_le hfuel) fun l hl => ?_
          have hbelow := hnext l hl
          omega
        | some failure =>
          -- All their terms are known, so the copying has failed in a comparison.
          obtain ⟨t, rfl⟩ := hclash failure rfl
          exact .error h not_false
      · next frame depth next hw =>
        -- The body is done, and what follows it is further down.
        obtain ⟨-, hnext⟩ := h.accounted link _ hw
        refine ih h hcalls (Nat.le_of_succ_le hfuel) fun l hl => ?_
        have hbelow := hnext l hl
        omega
      · next goal rest frame depth next hw =>
        -- The body has been entered before now, so its frame may be referred to.
        obtain ⟨⟨a, r, ha, hlaid, hgoals⟩, hnext⟩ := h.accounted link _ hw
        have hdate := Nat.le_trans ha (L.work_le link)
        refine callGoal_inOrder hvalid hindexed h hcalls hdate hlaid hgoals fun l hl => ?_
        exact Nat.lt_trans (hnext l hl) (Nat.lt_of_lt_of_le hlt hfuel)

/-- A try leaves the accounts in order. -/
theorem tryClause_inOrder (limit : Option Nat) {s : Search N V} {id : ClauseId} {c : OpenCall}
    (hvalid : prog.Valid base) (hindexed : prog.Indexed)
    (h : L.Accounts prog base.size args s.pool.size s.work s.calls)
    (hbegins : L.Begins id s.pool.size s.work.size s.calls.length) (hgrows : base.GrowsTo s.pool)
    (hargs : ∀ t ∈ c.args, t.index < s.pool.size) (hlink : ∀ l ∈ c.next, l < s.work.size) :
    InOrder prog base args L (s.tryClause prog limit id c) := by
  have hentered := enterClause_entered limit hvalid h hbegins hgrows hargs hlink
  have hcalls := (enterClause_advances prog limit id c s).2
  simp only [tryClause]
  generalize s.enterClause prog limit id c = r at hentered hcalls
  obtain ⟨result, t⟩ := r
  obtain ⟨⟨haccounts, hfailure⟩, hlinked⟩ := hentered
  dsimp only at haccounts hfailure hlinked hcalls
  cases result with
  | ok next =>
    refine follow_inOrder hvalid hindexed haccounts ?_ (Nat.le_refl _) (hlinked next rfl)
    rw [hcalls]
    exact hbegins.calls_lt
  | error failure => exact .error haccounts (hfailure failure rfl)

/-! ## Rounds and runs -/

/-- The next round tries a clause, and fails for this reason. -/
def FailsWith (prog : Program N) (limit : Option Nat) (s : Search N V) (failure : Failure) : Prop :=
  ∃ c below id rest t, s.calls = c :: below ∧ c.untried = id :: rest ∧
    (rewind c { s with calls := { c with untried := rest } :: below }).tryClause prog limit id c
      = (.error failure, t)

/-- Going back to the latest call and trying its next clause leaves the accounts in order. -/
theorem try_inOrder (limit : Option Nat) {s : Search N V} {id : ClauseId} {c : OpenCall}
    {below : List OpenCall} {rest : List ClauseId} (hvalid : prog.Valid base)
    (hindexed : prog.Indexed) (hover : Over base s)
    (h : L.Accounts prog base.size args s.pool.size s.work s.calls)
    (hcalls : s.calls = c :: below) (huntried : c.untried = id :: rest) :
    InOrder prog base args (L.begin id c (below.length + 1))
      ((rewind c { s with calls := { c with untried := rest } :: below }).tryClause
        prog limit id c) := by
  -- Going back cuts off what the ledger has recorded since the call was opened.
  have hrewound := hover.rewound hcalls rest
  obtain ⟨pool, work, calls, log⟩ := s
  obtain rfl : calls = c :: below := hcalls
  obtain ⟨-, hterms, hwork, hbelow⟩ := hover.marked
  dsimp only at h hterms hwork
  have hmarks : ∀ d ∈ c :: below, d.terms ≤ c.terms ∧ d.work ≤ c.work := by
    intro d hd
    rcases List.mem_cons.1 hd with rfl | hd
    · exact ⟨Nat.le_refl _, Nat.le_refl _⟩
    · exact (hbelow.le_of_mem d hd).2
  have hsize : ((pool.undo c.mark).truncate c.terms).size = c.terms := by
    rw [Pool.size_truncate, Pool.size_undo, Nat.min_eq_left hterms]
  have hshrink : (work.shrink c.work).size = c.work := by
    rw [Array.size_shrink, Nat.min_eq_left hwork]
  have hbegun := h.begin hmarks id fun i (hi : i ∈ rest) => by
    rw [huntried]
    exact List.mem_cons_of_mem id hi
  -- The call itself has been accounted for since it was opened: its arguments and its link are
  -- there.
  have hc := hbegun.opened _ below List.suffix_rfl
  refine tryClause_inOrder limit hvalid hindexed (s := rewind c ⟨pool, work, _, log⟩) ?_ ?_
    hrewound.grows (fun t ht => ?_) fun l hl => ?_
  · show Ledger.Accounts prog base.size args _ ((pool.undo c.mark).truncate c.terms).size _ _
    rw [hsize]
    exact hbegun
  · show Ledger.Begins _ id ((pool.undo c.mark).truncate c.terms).size (work.shrink c.work).size _
    rw [hsize, hshrink]
    exact h.begins id
  · exact Nat.lt_of_lt_of_le (hc.present t ht).1 (Nat.le_of_eq hsize.symm)
  · exact Nat.lt_of_lt_of_le (hc.link l hl) (Nat.le_of_eq hshrink.symm)

/-- Every round leaves the accounts in order. -/
theorem accounts_step (limit : Option Nat) {s : Search N V} (hvalid : prog.Valid base)
    (hindexed : prog.Indexed) (hover : Over base s)
    (h : L.Accounts prog base.size args s.pool.size s.work s.calls) :
    (L.next s).Accounts prog base.size args (s.step prog limit).state.pool.size
      (s.step prog limit).state.work (s.step prog limit).state.calls := by
  obtain ⟨pool, work, calls, log⟩ := s
  cases calls with
  | nil => exact h
  | cons c below =>
    simp only [Ledger.next, step]
    cases huntried : c.untried with
    | nil => exact h.close
    | cons id rest =>
      have haccounts := (try_inOrder limit hvalid hindexed hover h rfl huntried).accounts
      dsimp only at haccounts ⊢
      split <;> next hs => rw [hs] at haccounts; exact haccounts

/-- All along a search the accounts are in order. -/
theorem accounts_of_recorded {limit : Option Nat} {start s : Search N V} (hvalid : prog.Valid base)
    (hindexed : prog.Indexed) (hover : Over base start)
    (h : Ledger.start.Accounts prog base.size args start.pool.size start.work start.calls)
    (hrecorded : Recorded prog limit start L s) :
    Over base s ∧ L.Accounts prog base.size args s.pool.size s.work s.calls := by
  induction hrecorded with
  | start => exact ⟨hover, h⟩
  | running _ hstep ih =>
    have hround := accounts_step limit hvalid hindexed ih.1 ih.2
    have hover := ih.1.step prog limit
    rw [hstep] at hround hover
    exact ⟨hover, hround⟩
  | answered _ hstep ih =>
    have hround := accounts_step limit hvalid hindexed ih.1 ih.2
    have hover := ih.1.step prog limit
    rw [hstep] at hround hover
    exact ⟨⟨hover.grows, hover.marked⟩, hround⟩

/-- A try does not fail for a reference. -/
theorem not_dangling {limit : Option Nat} {s : Search N V} {failure : Failure}
    (hvalid : prog.Valid base) (hindexed : prog.Indexed) (hover : Over base s)
    (h : L.Accounts prog base.size args s.pool.size s.work s.calls)
    (hfails : s.FailsWith prog limit failure) : ¬ failure.Dangling := by
  obtain ⟨c, below, id, rest, t, hcalls, huntried, hfailed⟩ := hfails
  have htry := try_inOrder limit hvalid hindexed hover h hcalls huntried
  rw [hfailed] at htry
  exact htry.failure failure rfl

end Search

/-! ## Searches from a database -/

namespace Database

variable [DecidableEq N] {db : Database N V} {ids : List ClauseId} {args : List TermId}

/-- The database starts a search by the clauses `ids` for `args`: for a query to a relation, or for
one rule that is to be resolved, with accepted arguments. -/
inductive Searches (db : Database N V) : List ClauseId → List TermId → Prop
  | query (name : N) {arity : Nat} {args : List TermId} : db.argsFault? arity args = none →
      Searches db (db.program.candidates name) args
  | resolve {c : ClauseId} {r : Rule N} {args : List TermId} : db.program.rule? c = some r →
      db.argsFault? r.arity args = none → Searches db [c] args

/-- A search tries stored clauses, for terms of the pool. -/
theorem Searches.known (hindexed : db.program.Indexed) (h : db.Searches ids args) :
    (∀ id ∈ ids, ∃ clause, db.program.clause? id = some clause) ∧
      ∀ t ∈ args, t.index < db.pool.size := by
  cases h with
  | query name haccepted =>
    exact ⟨fun id => hindexed.exists_clause?, (of_argsFault?_eq_none haccepted).2⟩
  | resolve hrule haccepted =>
    refine ⟨fun id hid => ?_, (of_argsFault?_eq_none haccepted).2⟩
    rw [List.mem_singleton.1 hid]
    exact ⟨_, Program.clause?_of_rule? hrule⟩

variable [BEq V]

/-- Frames outlive the references to them. At every round of a search the arguments of open calls,
the pairs of waiting results and the frames of waiting goals are terms of the pool, and those that
were there when the reference was made. The frames of different tries have no term in common, nor do
they share one with the pool before the search. No clause is missing, and no try fails for a term
that is unknown. -/
theorem frames_outlive_references (hdb : db.Reachable) (hsearches : db.Searches ids args)
    {found : List (Search N V)} {s : Search N V}
    (hrun : Search.Run db.program db.config.maxDepth (Search.start db.pool ids args) found s) :
    ∃ L, Search.Recorded db.program db.config.maxDepth (Search.start db.pool ids args) L s ∧
      L.Accounts db.program db.pool.size args s.pool.size s.work s.calls ∧
      (∀ a a' r r' f f', L.Laid db.program s.pool.size a r f →
        L.Laid db.program s.pool.size a' r' f' → a ≠ a' → ∀ t, ¬ (f.Holds t ∧ f'.Holds t)) ∧
      (∀ a r f t, L.Laid db.program s.pool.size a r f → f.Holds t → db.pool.size ≤ t.index) ∧
      (∀ c ∈ s.calls, ∀ id ∈ c.untried, ∃ clause, db.program.clause? id = some clause) ∧
      ∀ failure, s.FailsWith db.program db.config.maxDepth failure → ¬ failure.Dangling := by
  have hindexed := hdb.indexed
  obtain ⟨hstored, hargs⟩ := hsearches.known hindexed
  have hstart := Search.Ledger.accounts_start hstored hargs db.pool.mark
  obtain ⟨L, hrecorded⟩ := Search.Recorded.start.run hrun
  obtain ⟨hover, haccounts⟩ := Search.accounts_of_recorded hdb.valid hindexed
    (Search.over_start db.pool ids args) hstart hrecorded
  refine ⟨L, hrecorded, haccounts, fun a a' r r' f f' h h' hne => h.apart h' hne,
    fun a r f t h => h.beyond haccounts, fun c hc => ?_,
    fun failure => Search.not_dangling hdb.valid hindexed hover haccounts⟩
  obtain ⟨above, below, heq⟩ := List.append_of_mem hc
  exact (haccounts.opened c below ⟨above, heq.symm⟩).stored

/-- A search through a recursive relation, at the round in which it finds its answer. -/
theorem frames_outlive_references_reach :
    ∃ db : Database Nat Nat, db.Reachable ∧
      db.Searches (db.program.candidates 1) [⟨9⟩, ⟨10⟩] ∧ ∃ s t,
      Search.Run db.program db.config.maxDepth
        (Search.start db.pool (db.program.candidates 1) [⟨9⟩, ⟨10⟩]) [] s ∧
      s.step db.program db.config.maxDepth = .answered t ∧
      ∃ L : Search.Ledger,
        L.Accounts db.program db.pool.size [⟨9⟩, ⟨10⟩] s.pool.size s.work s.calls ∧
        ∀ failure, s.FailsWith db.program db.config.maxDepth failure → ¬ failure.Dangling := by
  obtain ⟨db, hreachable, haccepted, hfound⟩ := exists_reachable ⟨none, false⟩ 0
    [.addFact 0 [1, 2], .addFact 0 [2, 3],
      .addRule 1 [.fresh, .fresh], .addRuleVar ⟨2⟩, .addGoal ⟨2⟩ 0 [.param 0, .term ⟨6⟩],
      .addGoal ⟨2⟩ 1 [.term ⟨6⟩, .param 1],
      .addRule 1 [.fresh, .fresh], .addGoal ⟨3⟩ 0 [.param 0, .param 1],
      .addConstant 1, .addConstant 3]
    (fun db : Database Nat Nat => db.argsFault? 2 [⟨9⟩, ⟨10⟩] = none ∧
      (Search.next? db.program db.config.maxDepth 20
        (Search.start db.pool (db.program.candidates 1) [⟨9⟩, ⟨10⟩])).any (·.1) = true)
    (by decide +kernel)
  obtain ⟨⟨b, t⟩, hnext, htrue⟩ := (Option.any_eq_true _ _).1 hfound
  obtain rfl : b = true := htrue
  have hsearches : db.Searches (db.program.candidates 1) [⟨9⟩, ⟨10⟩] := .query 1 haccepted
  rcases Search.run_of_next? hnext with ⟨-, s, hrun, hstep⟩ | ⟨hfalse, -⟩
  · obtain ⟨L, -, haccounts, -, -, -, hfails⟩ :=
      frames_outlive_references hreachable hsearches hrun
    exact ⟨db, hreachable, hsearches, s, t, hrun, hstep, L, haccounts, hfails⟩
  · cases hfalse

end Database

end Hornbase
