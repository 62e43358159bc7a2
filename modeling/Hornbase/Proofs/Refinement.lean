import Hornbase.Interpreter
import Hornbase.Proofs.Validity
import Hornbase.Proofs.View
import Mathlib.Data.List.Basic

/-!
# The search finds what the plain interpreter finds

The search keeps one pool, two stacks and links between them; the interpreter maps a store to the
list of stores that prove a call. They are compared by what follows a call. `Continues` says that
the work at a link, taken up in any state that has come from a given one, finds what a function `K`
of the store lists. Work that is built on such work continues in the same way, with the meaning of
its goals put in front of `K`. The depth that is left bounds the recursion: a call is treated
through the goals of the rules that it enters, and these through calls with one rule less to nest.

The main statement is `callsRefine`. That a bounded search ends at all is part of it.
-/

namespace Hornbase

universe u v

variable {N : Type u} {V : Type v} [DecidableEq N] [BEq V]

/-! ## The meaning of a single clause -/

namespace Program

/-- What the goals of a rule mean when the rule is one of at most `depth` that may be nested. -/
def inner (prog : Program N) : (depth : Nat) → Option (Meaning N V)
  | 0 => none
  | depth + 1 => some (prog.meaning depth)

/-- The ways to prove a call by the clause `id`. -/
def byClause (prog : Program N) (depth : Nat) (id : ClauseId) (args : List TermId) (s : Store V) :
    List (Store V) :=
  ((prog.clause? id).map fun clause => Meaning.clause (prog.inner depth) clause args s).getD []

/-- A call means what its clauses mean, one after the other. -/
theorem meaning_apply (prog : Program N) (depth : Nat) (name : N) (args : List TermId)
    (s : Store V) : prog.meaning depth name args s
      = (prog.candidates name).flatMap fun id => prog.byClause depth id args s := by
  cases depth <;> rfl

end Program

namespace Search

/-! ## Coming back -/

/-- `t` has come from `base`, and all calls opened in between are closed. -/
structure Back (base t : Search N V) : Prop where
  advances : base.Advances t
  calls : t.calls = base.calls

omit [DecidableEq N] [BEq V] in
theorem Back.refl (s : Search N V) : s.Back s := ⟨.refl s, rfl⟩

omit [DecidableEq N] [BEq V] in
theorem Back.trans {r s t : Search N V} (hrs : r.Back s) (hst : s.Back t) : r.Back t :=
  ⟨hrs.advances.trans hst.advances, hst.calls.trans hrs.calls⟩

omit [DecidableEq N] [BEq V] in
/-- A report leaves the search where it is. -/
theorem Back.report {base t : Search N V} (h : base.Back t) (e : Event N) :
    base.Back (t.report e) :=
  ⟨⟨h.advances.pool, h.advances.work⟩, h.calls⟩

/-- The search comes from `s` back to the calls of `base`, and finds the stores of the list. -/
def Yields (prog : Program N) (limit : Option Nat) (base s : Search N V)
    (found : List (Store V)) : Prop :=
  ∃ answers t, Run prog limit s answers t ∧ answers.map (·.pool.values) = found ∧
    (∀ e ∈ answers, base.pool.GrowsTo e.pool) ∧ base.Back t

/-- A clause was tried, with an outcome from which the search comes back to the calls of `base` and
finds the stores of the list. -/
def Settles (prog : Program N) (limit : Option Nat) (base : Search N V)
    (r : Except Failure Standing × Search N V) (found : List (Store V)) : Prop :=
  match r.1 with
  | .ok .answered => found = [r.2.pool.values] ∧ base.Back r.2
  | .ok .called => Yields prog limit base r.2 found
  | .error _ => found = [] ∧ base.Back r.2

/-- Whatever has come from `base` finds the stores that `K` makes of its own when it goes on with
the work at `next`. At most `bound` links have to be followed. -/
def Continues (prog : Program N) (limit : Option Nat) (base : Search N V) (bound : Nat)
    (next : Option Nat) (K : Store V → List (Store V)) : Prop :=
  ∀ s fuel, base.Advances s → bound ≤ fuel →
    Settles prog limit s (s.follow prog fuel next) (K s.pool.values)

variable {prog : Program N} {limit : Option Nat}

theorem Yields.mono {base base' s : Search N V} {found : List (Store V)} (hbase : base.Back base')
    (h : Yields prog limit base' s found) : Yields prog limit base s found := by
  obtain ⟨answers, t, hrun, hfound, hgrows, hback⟩ := h
  exact ⟨answers, t, hrun, hfound, fun e he => hbase.advances.pool.trans (hgrows e he),
    hbase.trans hback⟩

theorem Settles.mono {base base' : Search N V} {r : Except Failure Standing × Search N V}
    {found : List (Store V)} (hbase : base.Back base') (h : Settles prog limit base' r found) :
    Settles prog limit base r found := by
  obtain ⟨result, s⟩ := r
  match result with
  | .ok .answered => exact ⟨h.1, hbase.trans h.2⟩
  | .ok .called => exact Yields.mono hbase h
  | .error _ => exact ⟨h.1, hbase.trans h.2⟩

theorem Continues.mono {base base' : Search N V} {bound bound' : Nat} {next : Option Nat}
    {K : Store V → List (Store V)} (hbase : base.Advances base') (hbound : bound ≤ bound')
    (h : Continues prog limit base bound next K) : Continues prog limit base' bound' next K :=
  fun s fuel hs hfuel => h s fuel (hbase.trans hs) (Nat.le_trans hbound hfuel)

/-- Nothing is left to do after the query itself. -/
theorem continues_none (base : Search N V) (bound : Nat) :
    Continues prog limit base bound none (fun σ => [σ]) := by
  intro s fuel _ _
  cases fuel <;> exact ⟨rfl, .refl s⟩

/-- One round of a search whose latest call has a clause left is a trial of that clause. -/
theorem yields_of_settles {base s : Search N V} {c : OpenCall} {below : List OpenCall}
    {id : ClauseId} {rest : List ClauseId} {found : List (Store V)}
    (hcalls : s.calls = c :: below) (huntried : c.untried = id :: rest)
    (h : Settles prog limit base
      ((Search.rewind c { s with calls := { c with untried := rest } :: below }).tryClause prog
        limit id c) found) :
    Yields prog limit base s found := by
  obtain ⟨pool, work, calls, log⟩ := s
  obtain rfl : calls = c :: below := hcalls
  dsimp only at h
  generalize htry : (Search.rewind c
    ⟨pool, work, { c with untried := rest } :: below, log⟩).tryClause prog limit id c = r at h
  obtain ⟨result, t⟩ := r
  cases result with
  | error failure =>
    obtain ⟨rfl, hback⟩ := h
    -- The clause fails: nothing is found, and whatever it has left can be undone.
    refine ⟨[], t.report (.clauseFailed id c.args failure), .running ?_ (.refl _), rfl, nofun,
      hback.report _⟩
    simp only [step, huntried, htry]
  | ok standing =>
    cases standing with
    | answered =>
      obtain ⟨rfl, hback⟩ := h
      -- An answer: one more store is found, and the search goes on behind it.
      refine ⟨[t], t.report .retrying, .answered ?_ (.refl _), rfl, ?_, hback.report _⟩
      · simp only [step, huntried, htry]
      · intro e he
        obtain rfl := List.mem_singleton.1 he
        exact hback.advances.pool
    | called =>
      obtain ⟨answers, u, hrun, hrest⟩ := h
      -- A call is opened, and what is found is found by the rounds that follow.
      refine ⟨answers, u, .running ?_ hrun, hrest⟩
      simp only [step, huntried, htry]

/-! ## Calls

What is shown of calls at one depth is used for the goals of rules at the next, and the other way
round, so both are stated before either is proved. -/

/-- With `depth` rules left to nest, an open call finds the stores that its clauses prove it in,
each followed by what its continuation makes of it. -/
def CallsRefine (prog : Program N) (limit depth : Nat) : Prop :=
  ∀ (base : Search N V) (c : OpenCall) (bound : Nat) (K : Store V → List (Store V)),
    c.depth + depth = limit → c.mark = base.pool.mark → c.terms = base.pool.size →
    c.work = base.work.size → (∀ t ∈ c.args, t.index < base.pool.size) →
    prog.Valid base.pool → bound ≤ base.work.size →
    Continues prog (some limit) base bound c.next K →
    ∀ (ids : List ClauseId) (s : Search N V), base.Advances s →
      s.calls = { c with untried := ids } :: base.calls →
      Yields prog (some limit) base s
        (ids.flatMap fun id => (prog.byClause depth id c.args base.pool.values).flatMap K)

/-- With `depth` rules left to nest, the work of a rule's goals at a link continues with the meaning
of the goals, followed by what the work below makes of it. -/
def GoalsRefine (V : Type v) [BEq V] (prog : Program N) (limit depth : Nat) : Prop :=
  ∀ (gs : List (Goal N)) (base : Search N V) (frame : Frame) (depth' link bound : Nat)
    (next : Option Nat) (K : Store V → List (Store V)),
    depth' + depth = limit → base.work[link]? = some (.goals gs frame depth' next) →
    bound ≤ link → (∀ g ∈ gs, ∀ o ∈ g.args, (frame.term o).index < base.pool.size) →
    prog.Valid base.pool → Continues prog (some limit) base bound next K →
    Continues prog (some limit) base (link + 1) (some link)
      (fun σ => ((prog.meaning depth).goals frame gs σ).flatMap K)

/-- A finished body goes on with what follows it. -/
theorem follow_goals_nil {s : Search N V} {link depth : Nat} {frame : Frame} {next : Option Nat}
    (h : s.work[link]? = some (.goals [] frame depth next)) (fuel : Nat) :
    s.follow prog (fuel + 1) (some link) = s.follow prog fuel next := by
  obtain ⟨pool, work, calls, log⟩ := s
  dsimp only at h
  simp only [follow, h]

/-- A body with goals calls the first. -/
theorem follow_goals_cons {s : Search N V} {link depth : Nat} {g : Goal N} {rest : List (Goal N)}
    {frame : Frame} {next : Option Nat}
    (h : s.work[link]? = some (.goals (g :: rest) frame depth next)) (fuel : Nat) :
    s.follow prog (fuel + 1) (some link) = s.callGoal prog g rest frame depth next := by
  obtain ⟨pool, work, calls, log⟩ := s
  dsimp only at h
  simp only [follow, h]

/-- An open call finds what its name means, followed by its continuation. -/
theorem CallsRefine.openCall {limit depth : Nat} (h : CallsRefine (V := V) prog limit depth)
    {base : Search N V} {name : N} {args : List TermId} {depth' bound : Nat} {next : Option Nat}
    {K : Store V → List (Store V)} (hdepth : depth' + depth = limit)
    (hargs : ∀ t ∈ args, t.index < base.pool.size) (hvalid : prog.Valid base.pool)
    (hbound : bound ≤ base.work.size) (hK : Continues prog (some limit) base bound next K) :
    Yields prog (some limit) base
      (Search.openCall (prog.candidates name) args depth' next base)
      ((prog.meaning depth name args base.pool.values).flatMap K) := by
  rw [Program.meaning_apply, List.flatMap_assoc]
  exact h base ⟨prog.candidates name, args, depth', next, base.pool.mark, base.pool.size,
    base.work.size⟩ bound K hdepth rfl rfl rfl hargs hvalid hbound hK (prog.candidates name) _
    ⟨.refl _, List.prefix_rfl⟩ rfl

/-- Goals refine their meaning if calls do. -/
theorem CallsRefine.goals {limit depth : Nat} (h : CallsRefine (V := V) prog limit depth) :
    GoalsRefine V prog limit depth := by
  intro gs
  induction gs with
  | nil =>
    -- No goal is left, so the work below goes on from here.
    intro base frame depth' link bound next K _ hwork hbound _ _ hK s fuel hs hfuel
    obtain ⟨fuel, rfl⟩ : ∃ k, fuel = k + 1 := ⟨fuel - 1, by omega⟩
    rw [follow_goals_nil (hs.getElem?_work hwork)]
    simp only [Meaning.goals, List.flatMap_cons, List.flatMap_nil, List.append_nil]
    exact hK s fuel hs (by omega)
  | cons g rest ih =>
    intro base frame depth' link bound next K hdepth hwork hbound hterms hvalid hK s fuel hs hfuel
    obtain ⟨fuel, rfl⟩ : ∃ k, fuel = k + 1 := ⟨fuel - 1, by omega⟩
    rw [follow_goals_cons (hs.getElem?_work hwork)]
    -- The terms of the goals are known in every state that has come from the base.
    have hvalid' : prog.Valid s.pool := Program.Valid.mono hs.pool.keeps hvalid
    have hterms' : ∀ g' ∈ g :: rest, ∀ o ∈ g'.args, (frame.term o).index < s.pool.size :=
      fun g' hg' o ho => Nat.lt_of_lt_of_le (hterms g' hg' o ho) hs.pool.size_le
    have hargs : ∀ t ∈ g.args.map frame.term, t.index < s.pool.size := by
      intro t ht
      obtain ⟨o, ho, rfl⟩ := List.mem_map.1 ht
      exact hterms' g (List.mem_cons_self ..) o ho
    have hlink : link < s.work.size := (Array.getElem?_eq_some_iff.1 (hs.getElem?_work hwork)).1
    have hK' := hK.mono hs (Nat.le_refl bound)
    simp only [Meaning.goals, List.flatMap_assoc]
    obtain ⟨pool, work, calls, log⟩ := s
    simp only [callGoal]
    split
    · -- The goal has no clauses: it fails, and the interpreter finds nothing either.
      next hnone =>
      refine ⟨?_, (Back.refl _).report _⟩
      rw [Program.meaning_apply, hnone]
      rfl
    · generalize Event.goalCalled g.name (g.args.map frame.term) = called
      cases rest with
      | nil =>
        -- The last goal is followed by the work below itself.
        simp only [Meaning.goals, List.flatMap_cons, List.flatMap_nil, List.append_nil]
        have hlog : Back ⟨pool, work, calls, log⟩ ⟨pool, work, calls, log.push called⟩ :=
          ⟨⟨.refl _, List.prefix_rfl⟩, rfl⟩
        exact Yields.mono hlog (h.openCall hdepth hargs hvalid'
          (Nat.le_trans hbound (Nat.le_of_lt hlink)) (hK'.mono hlog.advances (Nat.le_refl _)))
      | cons g' rest =>
        -- The other goals become work of their own, which the induction treats.
        have hpush : Back ⟨pool, work, calls, log⟩
            ⟨pool, work.push (.goals (g' :: rest) frame depth' next), calls, log.push called⟩ :=
          ⟨⟨.refl _, by simp⟩, rfl⟩
        have hgoals := ih
          ⟨pool, work.push (.goals (g' :: rest) frame depth' next), calls, log.push called⟩
          frame depth' work.size bound next K hdepth (by simp)
          (Nat.le_trans hbound (Nat.le_of_lt hlink))
          (fun g' hg' => hterms' g' (List.mem_cons_of_mem _ hg')) hvalid'
          (hK'.mono hpush.advances (Nat.le_refl _))
        exact Yields.mono hpush (h.openCall hdepth hargs hvalid' (by simp) hgoals)

/-- Results that wait at a link are copied back before the work below goes on. -/
theorem Continues.results {base : Search N V} {link bound : Nat}
    {pairs : List (TermId × TermId)} {next : Option Nat} {K : Store V → List (Store V)}
    (hK : Continues prog limit base bound next K)
    (hwork : base.work[link]? = some (.results pairs next)) (hbound : bound ≤ link)
    (hpairs : base.pool.Known pairs) :
    Continues prog limit base (link + 1) (some link)
      (fun σ => (Store.copyBack pairs σ).toList.flatMap K) := by
  intro s fuel hs hfuel
  obtain ⟨fuel, rfl⟩ : ∃ k, fuel = k + 1 := ⟨fuel - 1, by omega⟩
  have hlink := hs.getElem?_work hwork
  have hcopy := Pool.copyBack_values (hpairs.of_size_le hs.pool.size_le)
  have hgrows := (s.pool.copyBack_grows pairs).1
  obtain ⟨pool, work, calls, log⟩ := s
  dsimp only at hlink hcopy hgrows ⊢
  simp only [follow, hlink]
  split
  · -- All results were copied, so the work below goes on from the new store.
    next q hq =>
    rw [hq] at hcopy hgrows
    rw [hcopy]
    have hcopied : Back ⟨pool, work, calls, log⟩ ⟨q, work, calls, log⟩ :=
      ⟨⟨hgrows, List.prefix_rfl⟩, rfl⟩
    simp only [Option.toList_some, List.flatMap_cons, List.flatMap_nil, List.append_nil]
    exact Settles.mono hcopied
      (hK ⟨q, work, calls, log⟩ fuel (hs.trans hcopied.advances) (by omega))
  · -- One of them clashes, in the store too.
    next failure q hq =>
    rw [hq] at hcopy hgrows
    rw [hcopy]
    exact ⟨rfl, ⟨hgrows, List.prefix_rfl⟩, rfl⟩

/-- A clause was entered, and going on with its work finds the stores of the list. -/
def Enters (prog : Program N) (limit : Option Nat) (base : Search N V)
    (r : Except Failure (Option Nat) × Search N V) (found : List (Store V)) : Prop :=
  match r.1 with
  | .ok next => base.Back r.2 ∧ ∃ bound K, bound ≤ r.2.work.size ∧
      Continues prog limit r.2 bound next K ∧ found = K r.2.pool.values
  | .error _ => found = [] ∧ base.Back r.2

theorem Enters.mono {base base' : Search N V} {r : Except Failure (Option Nat) × Search N V}
    {found : List (Store V)} (hbase : base.Back base') (h : Enters prog limit base' r found) :
    Enters prog limit base r found := by
  obtain ⟨result, s⟩ := r
  cases result with
  | ok next => exact ⟨hbase.trans h.1, h.2⟩
  | error failure => exact ⟨h.1, hbase.trans h.2⟩

/-- A fact of the right arity proves the call in at most one way. -/
theorem enterFact_enters {s : Search N V} {f : Fact N} {c : OpenCall} {bound : Nat}
    {K : Store V → List (Store V)} (hparts : ∀ t ∈ f.parts, t.index < s.pool.size)
    (hargs : ∀ t ∈ c.args, t.index < s.pool.size) (hbound : bound ≤ s.work.size)
    (hK : Continues prog limit s bound c.next K) :
    Enters prog limit s (s.enterFact f c) ((Meaning.fact f c.args s.pool.values).flatMap K) := by
  have hknown : s.pool.Known (f.parts.zip c.args) := fun x hx =>
    ⟨hparts x.1 (List.of_mem_zip hx).1, hargs x.2 (List.of_mem_zip hx).2⟩
  have hgrows := (s.pool.unify_grows (f.parts.zip c.args)).1
  rw [Meaning.fact, ← Pool.unify_outcome hknown, Matching.outcome]
  obtain ⟨pool, work, calls, log⟩ := s
  dsimp only at hgrows ⊢
  simp only [enterFact]
  generalize log.appendList (Event.ofFactMatch f.parts c.args _) = log'
  cases hf : (pool.unify (f.parts.zip c.args)).failure with
  | none =>
    have hmatched : Back ⟨pool, work, calls, log⟩
        ⟨(pool.unify (f.parts.zip c.args)).pool, work, calls, log'⟩ :=
      ⟨⟨hgrows, List.prefix_rfl⟩, rfl⟩
    refine ⟨hmatched, bound, K, hbound, hK.mono hmatched.advances (Nat.le_refl _), ?_⟩
    simp
  | some failure => exact ⟨rfl, ⟨hgrows, List.prefix_rfl⟩, rfl⟩

/-- Once the head is unified, a rule leaves its goals as work, and the pairs put off below them. -/
theorem GoalsRefine.enters {limit depth : Nat} (h : GoalsRefine V prog limit depth)
    {pool : Pool V} {work : Array (Work N)} {calls : List OpenCall} {log : Array (Event N)}
    {body : List (Goal N)} {frame : Frame} {depth' bound : Nat} {next : Option Nat}
    {K : Store V → List (Store V)} {pairs : List (TermId × TermId)}
    (hdepth : depth' + depth = limit)
    (hterms : ∀ g ∈ body, ∀ o ∈ g.args, (frame.term o).index < pool.size)
    (hvalid : prog.Valid pool) (hbound : bound ≤ work.size)
    (hK : Continues prog (some limit) ⟨pool, work, calls, log⟩ bound next K) :
    pool.Known pairs → Enters prog (some limit) ⟨pool, work, calls, log⟩
      (match pairs with
      | [] => (.ok (some work.size), ⟨pool, work.push (.goals body frame depth' next), calls, log⟩)
      | pairs => (.ok (some (work.size + 1)),
          ⟨pool, (work.push (.results pairs next)).push
            (.goals body frame depth' (some work.size)), calls, log⟩))
      ((((prog.meaning depth).goals frame body pool.values).filterMap
        (Store.copyBack pairs)).flatMap K) := by
  intro hpairs
  cases pairs with
  | nil =>
    have hback : Back ⟨pool, work, calls, log⟩
        ⟨pool, work.push (.goals body frame depth' next), calls, log⟩ :=
      ⟨⟨.refl _, by simp⟩, rfl⟩
    refine ⟨hback, work.size + 1, _, by simp, h body _ frame depth' work.size bound next K hdepth
      (by simp) hbound hterms hvalid (hK.mono hback.advances (Nat.le_refl _)), ?_⟩
    simp [Store.copyBack]
  | cons pair pairs =>
    -- The results wait below the body, which is linked to them.
    have hback : Back ⟨pool, work, calls, log⟩
        ⟨pool, (work.push (.results (pair :: pairs) next)).push
          (.goals body frame depth' (some work.size)), calls, log⟩ :=
      ⟨⟨.refl _, by simp⟩, rfl⟩
    have hlink : ((work.push (.results (pair :: pairs) next)).push
        (.goals body frame depth' (some work.size)))[work.size]?
        = some (.results (pair :: pairs) next) := by
      rw [Array.getElem?_push, Array.size_push, if_neg (Nat.ne_of_lt (Nat.lt_succ_self _)),
        Array.getElem?_push, if_pos rfl]
    -- What follows the body is copying them back and then what follows the rule.
    have hresults := (hK.mono hback.advances (Nat.le_refl _)).results hlink hbound hpairs
    refine ⟨hback, work.size + 1 + 1, _, by simp, h body _ frame depth' (work.size + 1)
      (work.size + 1) (some work.size) _ hdepth
      (by rw [Array.getElem?_push, Array.size_push, if_pos rfl]) (Nat.le_refl _) hterms hvalid
      hresults, ?_⟩
    simp only [List.filterMap_eq_flatMap_toList, List.flatMap_assoc]

/-- A rule of the right arity proves the call as its goals do, once the head is unified, and before
the results are copied back. -/
theorem unfoldRule_enters {limit depth : Nat} (h : GoalsRefine V prog limit depth)
    {s : Search N V} {id : ClauseId} {r : Rule N} {c : OpenCall} {bound : Nat}
    {K : Store V → List (Store V)} (hdepth : c.depth + 1 + depth = limit)
    (hr : r.Valid s.pool) (hargs : ∀ t ∈ c.args, t.index < s.pool.size)
    (hvalid : prog.Valid s.pool) (hbound : bound ≤ s.work.size)
    (hK : Continues prog (some limit) s bound c.next K) :
    Enters prog (some limit) s (s.unfoldRule id r c)
      (((prog.meaning depth).rule r c.args s.pool.values).flatMap K) := by
  obtain ⟨pool, work, calls, log⟩ := s
  dsimp only at hr hargs hvalid hbound ⊢
  have hlaid := pool.growsTo_addFrame r.locals.length
  have hsize := pool.size_addFrame r.locals.length
  have hvalues := pool.values_addFrame r.locals.length
  have hframe : (pool.addFrame r.locals.length).1 = ⟨pool.size, r.locals.length⟩ := rfl
  simp only [unfoldRule, Meaning.rule, Pool.length_values, ← hvalues]
  generalize pool.addFrame r.locals.length = added at hlaid hsize hframe ⊢
  obtain ⟨frame, laid⟩ := added
  obtain rfl : frame = ⟨pool.size, r.locals.length⟩ := hframe
  dsimp only at hlaid hsize ⊢
  generalize hfr : (⟨pool.size, r.locals.length⟩ : Frame) = frame at *
  -- Every operand of the rule means a term of the frame or a fixed one.
  have hterm : ∀ o : Operand, o.Valid pool r.locals.length → (frame.term o).index < laid.size := by
    intro o ho
    rw [hsize, ← hfr]
    exact ho.term_lt (Nat.le_refl _)
  -- All terms are known, so unifying goes on in the store as it does in the pool.
  have hknown : laid.Known ((r.params.map frame.term).zip c.args) := by
    intro x hx
    obtain ⟨o, ho, hox⟩ := List.mem_map.1 (List.of_mem_zip hx).1
    have harg := hargs x.2 (List.of_mem_zip hx).2
    rw [← hox]
    exact ⟨hterm o (hr.params o ho), Nat.lt_of_lt_of_le harg hlaid.size_le⟩
  have hgrows := laid.unify_grows ((r.params.map frame.term).zip c.args)
  have hputOff := laid.unify_putOff_subset ((r.params.map frame.term).zip c.args)
  rw [← Pool.unify_outcome hknown, Matching.outcome]
  generalize laid.unify ((r.params.map frame.term).zip c.args) = m at hgrows hputOff ⊢
  generalize log.appendList (Event.ofPutOff m) = matched
  obtain ⟨q, putOff, failure⟩ := m
  dsimp only at hgrows hputOff ⊢
  have hq : pool.GrowsTo q := hlaid.trans hgrows.1
  cases failure with
  -- The head does not unify, nor does it in the store.
  | some failure => exact ⟨rfl, ⟨hq, List.prefix_rfl⟩, rfl⟩
  | none =>
    have hback : Back ⟨pool, work, calls, log⟩
        ⟨q, work, calls, matched.push (.ruleEntered id c.args)⟩ := ⟨⟨hq, List.prefix_rfl⟩, rfl⟩
    -- The body refers to the frame, which is laid out, and the pairs to known terms.
    have hterms : ∀ g ∈ r.body, ∀ o ∈ g.args, (frame.term o).index < q.size := by
      intro g hg o ho
      rw [hgrows.2]
      exact hterm o (hr.body g hg o ho)
    have hpairs : q.Known putOff := fun x hx =>
      hknown.of_size_le (Nat.le_of_eq hgrows.2.symm) x (hputOff x hx)
    exact Enters.mono hback (h.enters hdepth hterms (Program.Valid.mono hq.keeps hvalid) hbound
      (hK.mono hback.advances (Nat.le_refl _)) hpairs)

/-- A clause that was entered settles its call by the work that follows. -/
theorem Enters.settles {s : Search N V} {id : ClauseId} {c : OpenCall} {found : List (Store V)}
    (h : Enters prog limit s (s.enterClause prog limit id c) found) :
    Settles prog limit s (s.tryClause prog limit id c) found := by
  simp only [tryClause]
  generalize s.enterClause prog limit id c = r at h
  obtain ⟨result, t⟩ := r
  cases result with
  | ok next =>
    obtain ⟨hback, bound, K, hbound, hK, rfl⟩ := h
    exact Settles.mono hback (hK t t.work.size (.refl t) hbound)
  | error failure => exact h

/-- Trying a clause for a call settles the call by that clause. -/
theorem tryClause_settles {limit depth : Nat}
    (h : ∀ inner, depth = inner + 1 → GoalsRefine V prog limit inner) {s : Search N V}
    {c : OpenCall} {bound : Nat} {K : Store V → List (Store V)} (hdepth : c.depth + depth = limit)
    (hargs : ∀ t ∈ c.args, t.index < s.pool.size) (hvalid : prog.Valid s.pool)
    (hbound : bound ≤ s.work.size) (hK : Continues prog (some limit) s bound c.next K)
    (id : ClauseId) :
    Settles prog (some limit) s (s.tryClause prog (some limit) id c)
      ((prog.byClause depth id c.args s.pool.values).flatMap K) := by
  apply Enters.settles
  simp only [enterClause, Program.byClause]
  cases hclause : prog.clause? id with
  | none => exact ⟨rfl, .refl s⟩
  | some clause =>
    have hclauseValid := hvalid id clause hclause
    simp only [Option.map_some, Option.getD_some, Meaning.clause]
    by_cases harity : clause.arity ≠ c.args.length
    · rw [if_pos harity, if_pos harity]
      exact ⟨rfl, .refl s⟩
    · rw [if_neg harity, if_neg harity]
      cases clause with
      | fact f =>
        have hparts : ∀ t ∈ f.parts, t.index < s.pool.size := fun t ht => (hclauseValid t ht).lt
        exact enterFact_enters hparts hargs hbound hK
      | rule r =>
        cases depth with
        | zero =>
          -- No rule is left to nest, and the interpreter finds nothing.
          simp only [enterRule, Program.inner]
          rw [if_pos (by omega)]
          exact ⟨rfl, (Back.refl s).report _⟩
        | succ inner =>
          -- One rule less may be nested inside this one.
          simp only [enterRule, Program.inner]
          rw [if_neg (by omega)]
          exact unfoldRule_enters (h inner rfl) (by omega) hclauseValid hargs hvalid hbound hK

/-- A call whose clauses are all tried is closed. -/
theorem yields_nil {base s : Search N V} {c : OpenCall} (hadv : base.Advances s)
    (hcalls : s.calls = c :: base.calls) (huntried : c.untried = []) :
    Yields prog limit base s [] := by
  obtain ⟨pool, work, calls, log⟩ := s
  obtain rfl : calls = c :: base.calls := hcalls
  refine ⟨[], ⟨pool, work, base.calls, log⟩, .running ?_ (.refl _), rfl, nofun,
    ⟨hadv.pool, hadv.work⟩, rfl⟩
  simp only [step, huntried]

/-- What one clause finds comes before what the others find. -/
theorem Yields.append {base s : Search N V} {c : OpenCall} {rest : List ClauseId}
    {found more : List (Store V)}
    (h : Yields prog limit { base with calls := { c with untried := rest } :: base.calls } s found)
    (hrest : ∀ t, base.Advances t → t.calls = { c with untried := rest } :: base.calls →
      Yields prog limit base t more) :
    Yields prog limit base s (found ++ more) := by
  obtain ⟨answers, t, hrun, hfound, hgrows, hback⟩ := h
  obtain ⟨answers', u, hrun', hfound', hgrows', hback'⟩ :=
    hrest t ⟨hback.advances.pool, hback.advances.work⟩ hback.calls
  refine ⟨answers ++ answers', u, hrun.trans hrun', ?_, ?_, hback'⟩
  · rw [List.map_append, hfound, hfound']
  · intro e he
    rcases List.mem_append.1 he with he | he
    · exact hgrows e he
    · exact hgrows' e he

omit [DecidableEq N] [BEq V] in
/-- Rewinding to a call gives back the state in which it was opened. -/
theorem rewind_eq {base s : Search N V} {c : OpenCall} (hadv : base.Advances s)
    (hmark : c.mark = base.pool.mark) (hterms : c.terms = base.pool.size)
    (hwork : c.work = base.work.size) :
    Search.rewind c s = ⟨base.pool, base.work, s.calls, s.log⟩ := by
  obtain ⟨pool, work, calls, log⟩ := s
  have hpool := hadv.pool.restore
  have hshrink : work.shrink base.work.size = base.work := by
    apply Array.ext'
    have hprefix := List.prefix_iff_eq_take.1 hadv.work
    simpa using hprefix.symm
  simp only [Search.rewind, hmark, hterms, hwork, hshrink]
  rw [hpool]

/-- Calls refine their meaning if the goals of the rules that they enter do. -/
theorem callsRefine_of_goals {limit depth : Nat}
    (h : ∀ inner, depth = inner + 1 → GoalsRefine V prog limit inner) :
    CallsRefine (V := V) prog limit depth := by
  intro base c bound K hdepth hmark hterms hwork hargs hvalid hbound hK ids
  induction ids with
  | nil => exact fun s hadv hcalls => yields_nil hadv hcalls rfl
  | cons id rest ih =>
    intro s hadv hcalls
    rw [List.flatMap_cons]
    -- Whatever was tried before, the call is rewound first, so each clause starts from `base`.
    refine Yields.append (c := c) ?_ ih
    refine yields_of_settles hcalls rfl ?_
    have hadv' : base.Advances { s with calls := { c with untried := rest } :: base.calls } :=
      ⟨hadv.pool, hadv.work⟩
    rw [rewind_eq (c := { c with untried := id :: rest }) hadv' hmark hterms hwork]
    have hsame : base.Advances
        ⟨base.pool, base.work, { c with untried := rest } :: base.calls, s.log⟩ :=
      ⟨.refl _, List.prefix_rfl⟩
    have htry := tryClause_settles (c := { c with untried := id :: rest })
      (s := ⟨base.pool, base.work, { c with untried := rest } :: base.calls, s.log⟩) h hdepth hargs
      hvalid hbound (hK.mono hsame (Nat.le_refl bound)) id
    have hback : Back { base with calls := { c with untried := rest } :: base.calls }
        ⟨base.pool, base.work, { c with untried := rest } :: base.calls, s.log⟩ :=
      ⟨⟨.refl _, List.prefix_rfl⟩, rfl⟩
    exact Settles.mono hback htry

/-- At every depth the calls of a search refine their meaning. -/
theorem callsRefine (prog : Program N) (limit depth : Nat) :
    CallsRefine (V := V) prog limit depth := by
  induction depth with
  | zero => exact callsRefine_of_goals nofun
  | succ depth ih =>
    refine callsRefine_of_goals fun inner heq => ?_
    obtain rfl : depth = inner := Nat.succ.inj heq
    exact ih.goals

end Search

end Hornbase
