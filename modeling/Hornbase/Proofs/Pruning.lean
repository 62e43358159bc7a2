import Hornbase.Proofs.Branch
import Hornbase.Proofs.Queries

/-!
# What a limit prunes

A limit on the nesting of rules takes branches away from a search and does nothing else. Those that
nest few enough rules are left in their order, and end in the stores in which they would end anyway.
So the answers under a limit are found under a greater limit too, in the same order, with others
between them.

A search that refuses to enter a rule for its limit reports it, and what was reported stays. If the
log has no such report in the end, then no round has met the limit, and the search goes through the
same states under every greater limit, and without a limit.
-/

namespace Hornbase

universe u v w

variable {N : Type u} {V : Type v}

/-! ## Stores under two limits -/

namespace Program

variable [DecidableEq N] {d d' : Nat}

/-- The stores in which a call is proved under a limit are found under a greater one, in the same
order. -/
theorem meaning_sublist [BEq V] (prog : Program N) (hle : d ≤ d') (name : N) (args : List TermId)
    (s : Store V) : (prog.meaning d name args s).Sublist (prog.meaning d' name args s) := by
  rw [meaning_eq_filterMap, meaning_eq_filterMap]
  exact ((PartOf.refl prog).branches_sublist hle [name]).filterMap _

end Program

/-! ## The log of a search -/

namespace Search

/-- What `s` has reported stands at the beginning of what `t` has. -/
def LogsTo (s t : Search N V) : Prop := s.log.toList <+: t.log.toList

theorem LogsTo.refl (s : Search N V) : s.LogsTo s := List.prefix_rfl

theorem LogsTo.trans {s t u : Search N V} (hst : s.LogsTo t) (htu : t.LogsTo u) : s.LogsTo u :=
  List.IsPrefix.trans hst htu

theorem LogsTo.mem {s t : Search N V} (h : s.LogsTo t) {e : Event N} (he : e ∈ s.log) :
    e ∈ t.log :=
  Array.mem_toList_iff.1 (List.IsPrefix.subset h (Array.mem_toList_iff.2 he))

theorem logsTo_push (pool : Pool V) (work : Array (Work N)) (calls : List OpenCall)
    (s : Search N V) (e : Event N) : s.LogsTo ⟨pool, work, calls, s.log.push e⟩ :=
  ⟨[e], by simp⟩

theorem logsTo_report (s : Search N V) (e : Event N) : s.LogsTo (s.report e) :=
  s.logsTo_push _ _ _ e

/-! ## Entering a clause -/

section

variable [BEq V]

/-- Entering a fact adds reports. -/
theorem logsTo_enterFact (s : Search N V) (f : Fact N) (c : OpenCall) :
    s.LogsTo (s.enterFact f c).2 := by
  obtain ⟨pool, work, calls, log⟩ := s
  simp only [enterFact]
  split <;> exact ⟨_, (Array.toList_appendList ..).symm⟩

/-- Entering a rule adds reports. -/
theorem logsTo_unfoldRule (s : Search N V) (id : ClauseId) (r : Rule N) (c : OpenCall) :
    s.LogsTo (s.unfoldRule id r c).2 := by
  obtain ⟨pool, work, calls, log⟩ := s
  simp only [unfoldRule]
  generalize pool.addFrame r.locals.length = laid
  obtain ⟨frame, laid⟩ := laid
  dsimp only
  generalize laid.unify ((r.params.map frame.term).zip c.args) = m
  have hputOff : log.toList <+: (log.appendList (Event.ofPutOff m)).toList :=
    ⟨_, (Array.toList_appendList ..).symm⟩
  split
  · exact hputOff
  · split <;> exact hputOff.trans (by simp)

/-- Entering a clause adds reports. -/
theorem logsTo_enterClause (s : Search N V) (prog : Program N) (limit : Option Nat) (id : ClauseId)
    (c : OpenCall) : s.LogsTo (s.enterClause prog limit id c).2 := by
  unfold enterClause
  split
  · exact .refl s
  · next clause _ =>
    split
    · exact .refl s
    · cases clause with
      | fact f => exact s.logsTo_enterFact f c
      | rule r =>
        simp only [enterRule]
        split
        · exact s.logsTo_unfoldRule id r c
        · split
          · exact s.logsTo_report _
          · exact s.logsTo_unfoldRule id r c

end

/-! ## Rounds and runs -/

variable [DecidableEq N]

/-- Calling a goal adds a report. -/
theorem logsTo_callGoal (s : Search N V) (prog : Program N) (goal : Goal N) (rest : List (Goal N))
    (frame : Frame) (depth : Nat) (next : Option Nat) :
    s.LogsTo (s.callGoal prog goal rest frame depth next).2 := by
  obtain ⟨pool, work, calls, log⟩ := s
  simp only [callGoal]
  split
  · exact logsTo_report _ _
  · split <;> exact logsTo_push _ _ _ ⟨pool, work, calls, log⟩ _

variable [BEq V] {prog : Program N}

/-- Following links adds reports. -/
theorem logsTo_follow (prog : Program N) (fuel : Nat) (next : Option Nat) (s : Search N V) :
    s.LogsTo (s.follow prog fuel next).2 := by
  induction fuel generalizing next s with
  | zero => cases next <;> exact .refl s
  | succ fuel ih =>
    cases next with
    | none => exact .refl s
    | some link =>
      obtain ⟨pool, work, calls, log⟩ := s
      simp only [follow]
      split
      · exact .refl _
      · split
        · next copied _ => exact ih _ ⟨copied, work, calls, log⟩
        · exact List.prefix_rfl
      · exact ih _ _
      · exact logsTo_callGoal _ prog _ _ _ _ _

/-- Trying a clause adds reports. -/
theorem logsTo_tryClause (s : Search N V) (prog : Program N) (limit : Option Nat) (id : ClauseId)
    (c : OpenCall) : s.LogsTo (s.tryClause prog limit id c).2 := by
  have hentered := s.logsTo_enterClause prog limit id c
  simp only [tryClause]
  split
  · next link t hs =>
    rw [hs] at hentered
    exact hentered.trans (logsTo_follow prog t.work.size link t)
  · next hs =>
    rw [hs] at hentered
    exact hentered

/-- A round adds reports. -/
theorem logsTo_step (s : Search N V) (prog : Program N) (limit : Option Nat) :
    s.LogsTo (s.step prog limit).state := by
  obtain ⟨pool, work, calls, log⟩ := s
  cases calls with
  | nil => exact .refl _
  | cons c below =>
    simp only [step]
    split
    · exact .refl _
    · next id rest _ =>
      have htried := (rewind c ⟨pool, work, { c with untried := rest } :: below,
        log⟩).logsTo_tryClause prog limit id c
      split
      · next hs =>
        rw [hs] at htried
        exact htried
      · next hs =>
        rw [hs] at htried
        exact htried
      · -- A clause that fails is reported behind what its try has logged.
        next hs =>
        rw [hs] at htried
        exact htried.trans (logsTo_report _ _)

/-- A search that goes on adds reports. -/
theorem Run.logsTo {limit : Option Nat} {s t : Search N V} {found : List (Search N V)}
    (h : Run prog limit s found t) : s.LogsTo t :=
  (h.invariant (fun u hu => hu.trans (u.logsTo_step prog limit))
    (fun u hu => hu.trans (u.logsTo_report .retrying)) (.refl s)).1

/-- A round under a limit that refuses nothing is a round under any that allows no less. -/
theorem step_eq_of_not_refused {d : Nat} {limit : Option Nat} (hle : ∀ d' ∈ limit, d ≤ d')
    {s : Search N V} (h : ∀ id, .depthReached id d ∉ (s.step prog (some d)).state.log) :
    s.step prog limit = s.step prog (some d) := by
  obtain ⟨pool, work, calls, log⟩ := s
  cases calls with
  | nil => rfl
  | cons c below =>
    simp only [step] at h ⊢
    split
    · rfl
    · next id rest huntried =>
      simp only [huntried, tryClause] at h ⊢
      rcases enterClause_some_cases hle prog id c
        (rewind c ⟨pool, work, { c with untried := rest } :: below, log⟩) with heq | ⟨-, hrefused⟩
      · rw [heq]
      · rw [hrefused] at h
        exact absurd (by simp [Step.state, report]) (h id)

/-- A search under a limit that refuses nothing goes through the same states under any limit that
allows no less. -/
theorem Run.of_not_refused {d : Nat} {limit : Option Nat} (hle : ∀ d' ∈ limit, d ≤ d')
    {s t : Search N V} {found : List (Search N V)} (hrun : Run prog (some d) s found t)
    (h : ∀ id, .depthReached id d ∉ t.log) : Run prog limit s found t := by
  have hsame : ∀ {s : Search N V}, (s.step prog (some d)).state.LogsTo t →
      s.step prog limit = s.step prog (some d) := fun hlogs =>
    step_eq_of_not_refused hle fun id hid => h id (hlogs.mem hid)
  induction hrun with
  | refl s => exact .refl s
  | running hstep hrest ih =>
    refine .running ((hsame ?_).trans hstep) (ih h hsame)
    rw [hstep]
    exact hrest.logsTo
  | answered hstep hrest ih =>
    refine .answered ((hsame ?_).trans hstep) (ih h hsame)
    rw [hstep]
    exact (logsTo_report _ _).trans hrest.logsTo

end Search

/-! ## Requests under two limits -/

/-- Whether an event reports that a rule was not entered for the limit. -/
def Event.isRefusal : Event N → Bool
  | .depthReached .. => true
  | _ => false

/-- It was reported that a rule was not entered for the limit. -/
def Outcome.Refused {α : Type w} (o : Outcome N V α) : Prop := ∃ e ∈ o.log, e.isRefusal = true

instance {α : Type w} (o : Outcome N V α) : Decidable o.Refused :=
  inferInstanceAs (Decidable (∃ e ∈ o.log, e.isRefusal = true))

namespace Database

/-- The same database with another limit on the nesting of rules. -/
def withMaxDepth (db : Database N V) (limit : Option Nat) : Database N V :=
  { db with config := { db.config with maxDepth := limit } }

variable {db : Database N V} {arity : Nat} {args : List TermId}

theorem Valid.withMaxDepth (h : db.Valid) (limit : Option Nat) : (db.withMaxDepth limit).Valid := h

/-- Accepted arguments are accepted under every limit, and without one. -/
theorem accepted_withMaxDepth (haccepted : db.argsFault? arity args = none) (limit : Option Nat) :
    (db.withMaxDepth limit).argsFault? arity args = none :=
  haccepted

variable [DecidableEq N] [BEq V] {name : N} {d d' : Nat}

/-- What is found under a limit is found under a greater one, in the same order. -/
theorem queryAll_sublist (hvalid : db.Valid) (haccepted : db.argsFault? arity args = none)
    (hle : d ≤ d') {rounds rounds' : Nat} {o o' : Outcome N V (List (Answer V))}
    (ho : (db.withMaxDepth (some d)).queryAll rounds name arity args = some o)
    (ho' : (db.withMaxDepth (some d')).queryAll rounds' name arity args = some o') :
    o.result.Sublist o'.result := by
  rw [queryAll_spec (hvalid.withMaxDepth (some d)) (accepted_withMaxDepth haccepted _) ho,
    queryAll_spec (hvalid.withMaxDepth (some d')) (accepted_withMaxDepth haccepted _) ho']
  exact (db.program.meaning_sublist hle name args db.pool.values).map _

/-- Where a limit refuses nothing, the search ends under any limit that allows no less, and finds
the same. -/
theorem queryAll_of_not_refused (haccepted : db.argsFault? arity args = none)
    {limit : Option Nat} (hle : ∀ d' ∈ limit, d ≤ d') {rounds : Nat}
    {o : Outcome N V (List (Answer V))}
    (ho : (db.withMaxDepth (some d)).queryAll rounds name arity args = some o)
    (hrefused : ¬ o.Refused) :
    (∃ rounds' o', (db.withMaxDepth limit).queryAll rounds' name arity args = some o') ∧
      ∀ rounds' o', (db.withMaxDepth limit).queryAll rounds' name arity args = some o' →
        o'.result = o.result := by
  obtain ⟨t, hall, hlog⟩ := (queryAll_eq_some ho).2 haccepted
  obtain ⟨found, hrun, ht, hresult⟩ := Search.run_of_all? hall
  have hnone : ∀ id, .depthReached id d ∉ t.log := fun id hid =>
    hrefused ⟨.depthReached id d, by rw [hlog]; exact Array.mem_push_of_mem _ hid, rfl⟩
  have hrun' : Search.Run db.program limit (Search.start db.pool (db.program.candidates name) args)
      found t := hrun.of_not_refused hle hnone
  rw [hresult]
  exact queryAll_of_run (accepted_withMaxDepth haccepted limit) hrun' ht

/-- A limit only prunes. Under a greater limit every accepted request for all answers lists what it
lists under the smaller one, in the same order, perhaps with more between. If the smaller limit
refuses no rule, then the request lists the same under the greater limit, and it ends without a
limit and lists the same then. -/
theorem limit_only_prunes (h : db.Reachable) (haccepted : db.argsFault? arity args = none)
    (hle : d ≤ d') (name : N) :
    (∃ rounds o, (db.withMaxDepth (some d)).queryAll rounds name arity args = some o) ∧
      (∃ rounds o, (db.withMaxDepth (some d')).queryAll rounds name arity args = some o) ∧
      ∀ rounds o, (db.withMaxDepth (some d)).queryAll rounds name arity args = some o →
        (∀ rounds' o', (db.withMaxDepth (some d')).queryAll rounds' name arity args = some o' →
          o.result.Sublist o'.result) ∧
        (¬ o.Refused →
          (∀ rounds' o', (db.withMaxDepth (some d')).queryAll rounds' name arity args = some o' →
            o'.result = o.result) ∧
          (∃ rounds' o', (db.withMaxDepth none).queryAll rounds' name arity args = some o') ∧
          ∀ rounds' o', (db.withMaxDepth none).queryAll rounds' name arity args = some o' →
            o'.result = o.result) := by
  have hends : ∀ limit, ∃ rounds o,
      (db.withMaxDepth (some limit)).queryAll rounds name arity args = some o := fun limit =>
    exists_queryAll (h.valid.withMaxDepth _) rfl (accepted_withMaxDepth haccepted _)
  refine ⟨hends d, hends d', fun rounds o ho => ⟨fun rounds' o' ho' =>
    queryAll_sublist h.valid haccepted hle ho ho', fun hrefused => ⟨?_, ?_⟩⟩⟩
  · have hgreater : ∀ limit ∈ some d', d ≤ limit := fun limit hlimit => by
      rwa [← Option.some.inj hlimit]
    exact (queryAll_of_not_refused haccepted hgreater ho hrefused).2
  · have hnone : ∀ limit ∈ (none : Option Nat), d ≤ limit := nofun
    exact queryAll_of_not_refused haccepted hnone ho hrefused

/-- A relation with a rule over a rule over a fact, and a fact behind it. A limit of one refuses the
inner rule and leaves the answer of the fact; under a limit of two nothing is refused, and without a
limit the same two answers are found. -/
theorem limit_only_prunes_inner_rule :
    ∃ db : Database Nat Nat, db.Reachable ∧ db.argsFault? 1 [⟨4⟩] = none ∧
      (∃ o, (db.withMaxDepth (some 1)).queryAll 20 2 1 [⟨4⟩] = some o ∧
        o.result = [⟨[some 5]⟩] ∧ o.Refused ∧ o.result.Sublist [⟨[some 6]⟩, ⟨[some 5]⟩]) ∧
      (∃ o, (db.withMaxDepth (some 2)).queryAll 20 2 1 [⟨4⟩] = some o ∧
        o.result = [⟨[some 6]⟩, ⟨[some 5]⟩] ∧ ¬ o.Refused) ∧
      ∃ rounds o, (db.withMaxDepth none).queryAll rounds 2 1 [⟨4⟩] = some o ∧
        o.result = [⟨[some 6]⟩, ⟨[some 5]⟩] := by
  obtain ⟨db, hreachable, haccepted, hone, htwo⟩ := exists_reachable ⟨none, false⟩ 0
    [.addFact 0 [6], .addRule 1 [.fresh], .addGoal ⟨1⟩ 0 [.param 0], .addRule 2 [.fresh],
      .addGoal ⟨2⟩ 1 [.param 0], .addFact 2 [5], .addVar]
    (fun db : Database Nat Nat => db.argsFault? 1 [⟨4⟩] = none ∧
      ((db.withMaxDepth (some 1)).queryAll 20 2 1 [⟨4⟩]).any
        (fun o => o.result = [⟨[some 5]⟩] ∧ o.Refused) = true ∧
      ((db.withMaxDepth (some 2)).queryAll 20 2 1 [⟨4⟩]).any
        (fun o => o.result = [⟨[some 6]⟩, ⟨[some 5]⟩] ∧ ¬ o.Refused) = true)
    (by decide +kernel)
  obtain ⟨o, ho, hfound⟩ := (Option.any_eq_true _ _).1 hone
  obtain ⟨o', ho', hfound'⟩ := (Option.any_eq_true _ _).1 htwo
  obtain ⟨hresult, hrefused⟩ := of_decide_eq_true hfound
  obtain ⟨hresult', hrefused'⟩ := of_decide_eq_true hfound'
  obtain ⟨-, -, hpruned⟩ := limit_only_prunes hreachable haccepted (Nat.le_succ 1) 2
  obtain ⟨-, -, hsame⟩ := limit_only_prunes hreachable haccepted (Nat.le_refl 2) 2
  have hsub := (hpruned 20 o ho).1 20 o' ho'
  obtain ⟨-, ⟨rounds, u, hu⟩, hunlimited⟩ := (hsame 20 o' ho').2 hrefused'
  rw [hresult'] at hsub
  exact ⟨db, hreachable, haccepted, ⟨o, ho, hresult, hrefused, hsub⟩,
    ⟨o', ho', hresult', hrefused'⟩, rounds, u, hu, (hunlimited rounds u hu).trans hresult'⟩

end Database

end Hornbase
