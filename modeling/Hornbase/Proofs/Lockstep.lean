import Hornbase.Proofs.CallGraph
import Hornbase.Proofs.Renaming

/-!
# Searches that go in step

Two searches through the same clauses, up to names, go in step: in each round both close a call, or
both fail at a clause, or both call a goal, or both find an answer. Whether they ever end does not
matter, so nothing is asked of the programs or the limit.

What has to match is not the present pools. After a failure they may be in any state, and their
sizes and trails differ anyway. It is the states to which the open calls will be rewound: a call
of one search and its counterpart in the other come back to pools that match, over a relation of
terms that grows with the calls, and to works that are the same up to that relation (`InStep`).
Later rounds never touch what an earlier call comes back to (`rewind_of_advances`).
-/

namespace Hornbase

universe u v

variable {N : Type u} {V : Type v} {R R' : TermId → TermId → Prop}

/-! ## Pools that match -/

/-- Both attempts to unify failed, or both succeeded and left pools that match. -/
inductive Matching.InStep (R : TermId → TermId → Prop) : Matching V → Matching V → Prop
  | failed {q q' : Pool V} {putOff putOff' : List (TermId × TermId)} {f f' : Failure} :
    InStep R ⟨q, putOff, some f⟩ ⟨q', putOff', some f'⟩
  | unified {q q' : Pool V} {putOff putOff' : List (TermId × TermId)} :
    Store.Matches R q.values q'.values → List.Forall₂ (RelatedPairs R) putOff putOff' →
      InStep R ⟨q, putOff, none⟩ ⟨q', putOff', none⟩

namespace Pool

variable {p p' : Pool V} {pairs pairs' : List (TermId × TermId)}

/-- Related pairs are pairs of terms of pools that match. -/
theorem known_of_related (h : Store.Matches R p.values p'.values)
    (hpairs : List.Forall₂ (RelatedPairs R) pairs pairs') : p.Known pairs ∧ p'.Known pairs' := by
  have hlt : ∀ {t t'}, R t t' → t.index < p.size ∧ t'.index < p'.size := by
    intro t t' ht
    simpa only [length_values] using h.lt ht
  induction hpairs with
  | nil => exact ⟨nofun, nofun⟩
  | cons hpair _ ih =>
    exact ⟨List.forall_mem_cons.2 ⟨⟨(hlt hpair.1).1, (hlt hpair.2).1⟩, ih.1⟩,
      List.forall_mem_cons.2 ⟨⟨(hlt hpair.1).2, (hlt hpair.2).2⟩, ih.2⟩⟩

/-- Related terms have the same values in pools that match. -/
theorem answer_eq_of_related (h : Store.Matches R p.values p'.values) {ts ts' : List TermId}
    (hts : List.Forall₂ R ts ts') : p.answer ts = p'.answer ts' := by
  have hvalues := h.values_eq hts
  have hanswer : ∀ (q : Pool V) (us : List TermId), ⟨Store.values q.values us⟩ = q.answer us :=
    fun q us => congrArg Answer.mk (List.map_congr_left fun u _ => q.value?_values u)
  rw [← hanswer, ← hanswer, hvalues]

variable [BEq V]

/-- Related pairs unify in both pools or in neither. -/
theorem unify_inStep (h : Store.Matches R p.values p'.values)
    (hpairs : List.Forall₂ (RelatedPairs R) pairs pairs') :
    Matching.InStep R (p.unify pairs) (p'.unify pairs') := by
  obtain ⟨hknown, hknown'⟩ := known_of_related h hpairs
  have hunify := h.unify hpairs
  rw [← unify_outcome hknown, ← unify_outcome hknown'] at hunify
  generalize p.unify pairs = m at hunify ⊢
  generalize p'.unify pairs' = m' at hunify ⊢
  obtain ⟨q, putOff, failure⟩ := m
  obtain ⟨q', putOff', failure'⟩ := m'
  cases failure <;> cases failure' <;> cases hunify
  · next hrelated => exact .unified hrelated.1 hrelated.2
  · exact .failed

/-- The heads of rules that differ in names only are unified in both pools or in neither, with
frames laid out behind the other terms. -/
theorem enter_inStep {C : TermId → TermId → Prop} {r r' : Rule N} {ρ : Nat → Nat} {base : Pool V}
    (h : Store.Matches R p.values p'.values) (hC : ∀ t t', C t t' → R t t') (hr : r.Valid base)
    (hrule : r.Renamed C ρ r') {args args' : List TermId} (hargs : List.Forall₂ R args args') :
    Matching.InStep (withFrames R p.size p'.size ρ r.locals.length)
      ((p.addFrame r.locals.length).2.unify
        ((r.params.map (r.frameAt p.size).term).zip args))
      ((p'.addFrame r'.locals.length).2.unify
        ((r'.params.map (r'.frameAt p'.size).term).zip args')) := by
  have hframes := h.frames hrule.injective hrule.locals_lt
  rw [← values_addFrame, ← values_addFrame, length_values, length_values] at hframes
  exact unify_inStep hframes (forall₂_zip (forall₂_term hrule.params hC hr.params p.size p'.size)
    (hargs.imp fun _ _ => .inl))

/-- Related pairs are copied back in both pools or in neither. -/
theorem copyBack_inStep (h : Store.Matches R p.values p'.values)
    (hpairs : List.Forall₂ (RelatedPairs R) pairs pairs') :
    (∃ f q f' q', p.copyBack pairs = (some f, q) ∧ p'.copyBack pairs' = (some f', q')) ∨
      ∃ q q', p.copyBack pairs = (none, q) ∧ p'.copyBack pairs' = (none, q') ∧
        Store.Matches R q.values q'.values := by
  obtain ⟨hknown, hknown'⟩ := known_of_related h hpairs
  have hcopied := h.copyBack hpairs
  rw [copyBack_values hknown, copyBack_values hknown'] at hcopied
  generalize p.copyBack pairs = x at hcopied ⊢
  generalize p'.copyBack pairs' = x' at hcopied ⊢
  obtain ⟨f, q⟩ := x
  obtain ⟨f', q'⟩ := x'
  cases f with
  | some f =>
    cases f' with
    | some f' => exact .inl ⟨f, q, f', q', rfl, rfl⟩
    | none => cases hcopied
  | none =>
    cases f' with
    | some f' => cases hcopied
    | none =>
      cases hcopied with
      | some hmatches => exact .inr ⟨q, q', rfl, rfl, hmatches⟩

end Pool

/-! ## Clauses, goals, calls and work -/

variable {C : TermId → TermId → Prop} {called : N → Prop}

/-- Two clauses differ in names only, and call only relations in `called`. -/
structure Program.SameAt (C : TermId → TermId → Prop) (called : N → Prop) (prog prog' : Program N)
    (id id' : ClauseId) : Prop where
  renamed : Option.Rel (Clause.Renamed C) (prog.clause? id) (prog'.clause? id')
  calls : ∀ r, prog.clause? id = some (.rule r) → ∀ g ∈ r.body, called g.name

/-- The relations in `called` have the same clauses in both programs, in the same order, up to
names. -/
def Program.SameOn [DecidableEq N] (C : TermId → TermId → Prop) (called : N → Prop)
    (prog prog' : Program N) : Prop :=
  ∀ name, called name →
    List.Forall₂ (prog.SameAt C called prog') (prog.candidates name) (prog'.candidates name)

/-- Two calls pass related arguments, with as many rules in use around them and the same work
behind. -/
structure OpenCall.InStep (R : TermId → TermId → Prop) (c c' : OpenCall) : Prop where
  args : List.Forall₂ R c.args c'.args
  depth_eq : c.depth = c'.depth
  next_eq : c.next = c'.next

/-- Two goals call the same relation, which is in `called`, and pass related arguments. -/
structure Goal.InStep (called : N → Prop) (R : TermId → TermId → Prop) (frame frame' : Frame)
    (g g' : Goal N) : Prop where
  name_eq : g.name = g'.name
  calls : called g.name
  args : RelatedGoals R frame frame' g g'

/-- The same work up to names. -/
inductive Work.InStep (called : N → Prop) (R : TermId → TermId → Prop) : Work N → Work N → Prop
  | goals {rest rest' : List (Goal N)} {frame frame' : Frame} (depth : Nat) (next : Option Nat) :
    List.Forall₂ (Goal.InStep called R frame frame') rest rest' →
      InStep called R (.goals rest frame depth next) (.goals rest' frame' depth next)
  | results {pairs pairs' : List (TermId × TermId)} (next : Option Nat) :
    List.Forall₂ (RelatedPairs R) pairs pairs' →
      InStep called R (.results pairs next) (.results pairs' next)

/-- Work is the same up to more names. -/
theorem Work.InStep.mono (hR : ∀ t t', R t t' → R' t t') {w w' : Work N}
    (h : Work.InStep called R w w') : Work.InStep called R' w w' := by
  cases h with
  | goals depth next hgoals =>
    exact .goals depth next (hgoals.imp fun _ _ hg => ⟨hg.name_eq, hg.calls, hg.args.imp hR⟩)
  | results next hpairs =>
    exact .results next (hpairs.imp fun _ _ hpair => ⟨hR _ _ hpair.1, hR _ _ hpair.2⟩)

/-- The goals of a rule and of the same rule under other names, each in its frame. -/
theorem Rule.Renamed.goals_inStep {p : Pool V} {r r' : Rule N} {ρ : Nat → Nat}
    (h : r.Renamed C ρ r') (hC : ∀ t t', C t t' → R t t') (hr : r.Valid p)
    (hcalled : ∀ g ∈ r.body, called g.name) (n n' : Nat) :
    List.Forall₂ (Goal.InStep called (withFrames R n n' ρ r.locals.length) (r.frameAt n)
      (r'.frameAt n')) r.body r'.body := by
  have hboth := (List.forall₂_and_left r.body r'.body).2
    ⟨fun g hg => And.intro (hcalled g hg) (hr.body g hg), h.body⟩
  exact hboth.imp fun g g' hg =>
    ⟨hg.2.name_eq, hg.1.1, forall₂_term hg.2.args hC hg.1.2 n n'⟩

namespace Search

/-- The pools of two searches match, and the same work waits, up to names. -/
structure InStep (called : N → Prop) (R : TermId → TermId → Prop) (s s' : Search N V) : Prop where
  pool : Store.Matches R s.pool.values s'.pool.values
  work : List.Forall₂ (Work.InStep called R) s.work.toList s'.work.toList

/-- As much work waits on both sides. -/
theorem InStep.size_work_eq {s s' : Search N V} (h : s.InStep called R s') :
    s.work.size = s'.work.size := by
  simpa using h.work.length_eq

/-- The same work waits at each position. -/
theorem InStep.getElem?_work {s s' : Search N V} (h : s.InStep called R s') (i : Nat) :
    Option.Rel (Work.InStep called R) s.work[i]? s'.work[i]? := by
  simpa only [Array.getElem?_toList] using rel_getElem? h.work i

/-- Work that is pushed on both sides waits behind the other. -/
theorem forall₂_push {work work' : Array (Work N)} {w w' : Work N}
    (h : List.Forall₂ (Work.InStep called R) work.toList work'.toList)
    (hw : Work.InStep called R w w') :
    List.Forall₂ (Work.InStep called R) (work.push w).toList (work'.push w').toList := by
  rw [Array.toList_push, Array.toList_push]
  exact List.rel_append h (.cons hw .nil)

/-! ## Entering a clause -/

/-- Both searches fail at a clause, or both go on with the same link and are in step, over perhaps
more names. -/
inductive EntersInStep (called : N → Prop) (R : TermId → TermId → Prop) :
    Except Failure (Option Nat) × Search N V → Except Failure (Option Nat) × Search N V → Prop
  | failed (e e' : Failure) (t t' : Search N V) :
    EntersInStep called R (.error e, t) (.error e', t')
  | entered {R' : TermId → TermId → Prop} (next : Option Nat) {t t' : Search N V} :
    (∀ a a', R a a' → R' a a') → t.InStep called R' t' →
      EntersInStep called R (.ok next, t) (.ok next, t')

variable [BEq V] {s s' : Search N V} {c c' : OpenCall}

/-- Facts with related parts are unified in both searches or in neither. -/
theorem enterFact_inStep (h : s.InStep called R s') (hc : c.InStep R c') {f f' : Fact N}
    (hparts : List.Forall₂ R f.parts f'.parts) :
    EntersInStep called R (s.enterFact f c) (s'.enterFact f' c') := by
  obtain ⟨pool, work, calls, log⟩ := s
  obtain ⟨pool', work', calls', log'⟩ := s'
  have hunify := Pool.unify_inStep h.pool (forall₂_zip hparts hc.args)
  simp only [enterFact, hc.next_eq]
  generalize pool.unify _ = m at hunify ⊢
  generalize pool'.unify _ = m' at hunify ⊢
  cases hunify with
  | failed => exact .failed ..
  | unified hmatches _ => exact .entered _ (fun _ _ => id) ⟨hmatches, h.work⟩

variable {p : Pool V}

/-- Rules that differ in names only are laid out in both searches or in neither. -/
theorem unfoldRule_inStep (h : s.InStep called R s') (hc : c.InStep R c') {r r' : Rule N}
    {ρ : Nat → Nat} (hr : r.Valid p) (hrule : r.Renamed C ρ r') (hC : ∀ t t', C t t' → R t t')
    (hcalled : ∀ g ∈ r.body, called g.name) (id id' : ClauseId) :
    EntersInStep called R (s.unfoldRule id r c) (s'.unfoldRule id' r' c') := by
  have hsize : s.work.size = s'.work.size := h.size_work_eq
  obtain ⟨pool, work, calls, log⟩ := s
  obtain ⟨pool', work', calls', log'⟩ := s'
  obtain ⟨hpool, hwork⟩ := h
  dsimp only at hpool hwork hsize
  -- The two new frames are matched position by position, and what was matched stays matched.
  have hmore : ∀ t t', R t t' → withFrames R pool.size pool'.size ρ r.locals.length t t' :=
    fun _ _ => .inl
  have hwork := hwork.imp fun _ _ hw => hw.mono hmore
  have hbody := hrule.goals_inStep hC hr hcalled pool.size pool'.size
  have hunify := Pool.enter_inStep hpool hC hr hrule hc.args
  have hframe : ∀ (q : Pool V) (r : Rule N), (q.addFrame r.locals.length).1 = r.frameAt q.size :=
    fun _ _ => rfl
  simp only [unfoldRule, hframe, hc.next_eq, hc.depth_eq, hsize]
  generalize (pool.addFrame r.locals.length).2.unify _ = m at hunify ⊢
  generalize (pool'.addFrame r'.locals.length).2.unify _ = m' at hunify ⊢
  cases hunify with
  | failed => exact .failed ..
  | unified hmatches hputOff =>
    cases hputOff with
    | nil => exact .entered _ hmore ⟨hmatches, forall₂_push hwork (.goals _ _ hbody)⟩
    | cons hpair hrest =>
      -- Results wait on both sides, and the bodies are linked to them.
      have hresults := forall₂_push hwork (.results c'.next (.cons hpair hrest))
      exact .entered _ hmore ⟨hmatches, forall₂_push hresults (.goals _ _ hbody)⟩

/-- Rules that differ in names only are entered in both searches or in neither, since as many rules
are in use around both calls. -/
theorem enterRule_inStep (h : s.InStep called R s') (hc : c.InStep R c') {r r' : Rule N}
    {ρ : Nat → Nat} (hr : r.Valid p) (hrule : r.Renamed C ρ r') (hC : ∀ t t', C t t' → R t t')
    (hcalled : ∀ g ∈ r.body, called g.name) (limit : Option Nat) (id id' : ClauseId) :
    EntersInStep called R (s.enterRule limit id r c) (s'.enterRule limit id' r' c') := by
  cases limit with
  | none => exact unfoldRule_inStep h hc hr hrule hC hcalled id id'
  | some limit =>
    simp only [enterRule, hc.depth_eq]
    split
    · exact .failed ..
    · exact unfoldRule_inStep h hc hr hrule hC hcalled id id'

variable {prog prog' : Program N}

/-- Clauses that differ in names only are entered in both searches or in neither. -/
theorem enterClause_inStep (hvalid : prog.Valid p) (h : s.InStep called R s') (hc : c.InStep R c')
    {id id' : ClauseId} (hid : prog.SameAt C called prog' id id') (hC : ∀ t t', C t t' → R t t')
    (limit : Option Nat) :
    EntersInStep called R (s.enterClause prog limit id c) (s'.enterClause prog' limit id' c') := by
  obtain ⟨hrenamed, hcalled⟩ := hid
  unfold enterClause
  generalize hclause : prog.clause? id = x at hrenamed
  generalize prog'.clause? id' = x' at hrenamed
  cases hrenamed with
  | none => exact .failed ..
  | @some clause clause' hsame =>
    simp only [hsame.arity_eq, hc.args.length_eq]
    split
    · exact .failed ..
    · cases hsame with
      | fact hparts => exact enterFact_inStep h hc (hparts.imp hC)
      | @rule r r' ρ hrule =>
        exact enterRule_inStep h hc (hvalid.rule hclause) hrule hC (hcalled r hclause) limit id id'

/-! ## Going on after a clause -/

/-- A call that was opened in the present state of a search. -/
structure OpenedNow (d : OpenCall) (t : Search N V) : Prop where
  mark : d.mark = t.pool.mark
  terms : d.terms = t.pool.size
  work : d.work = t.work.size

/-- Both searches fail at a clause, both prove all there is, or both call a goal; and they are in
step, over perhaps more names, unless they fail. -/
inductive TriesInStep (prog prog' : Program N) (C : TermId → TermId → Prop) (called : N → Prop)
    (R : TermId → TermId → Prop) (calls calls' : List OpenCall) :
    Except Failure Standing × Search N V → Except Failure Standing × Search N V → Prop
  | failed (e e' : Failure) {t t' : Search N V} : t.calls = calls → t'.calls = calls' →
    TriesInStep prog prog' C called R calls calls' (.error e, t) (.error e', t')
  | answered {R' : TermId → TermId → Prop} {t t' : Search N V} : t.calls = calls →
    t'.calls = calls' → (∀ a a', R a a' → R' a a') → t.InStep called R' t' →
      TriesInStep prog prog' C called R calls calls' (.ok .answered, t) (.ok .answered, t')
  | called {R' : TermId → TermId → Prop} {t t' : Search N V} {d d' : OpenCall} :
    t.calls = d :: calls → t'.calls = d' :: calls' → (∀ a a', R a a' → R' a a') →
      t.InStep called R' t' → d.InStep R' d' → OpenedNow d t → OpenedNow d' t' →
      List.Forall₂ (prog.SameAt C called prog') d.untried d'.untried →
      TriesInStep prog prog' C called R calls calls' (.ok .called, t) (.ok .called, t')

omit [BEq V] in
/-- What is in step over more names is in step over fewer. -/
theorem TriesInStep.mono {R' : TermId → TermId → Prop} (hR : ∀ a a', R a a' → R' a a')
    {calls calls' : List OpenCall} {x x' : Except Failure Standing × Search N V}
    (h : TriesInStep prog prog' C called R' calls calls' x x') :
    TriesInStep prog prog' C called R calls calls' x x' := by
  cases h with
  | failed e e' ht ht' => exact .failed e e' ht ht'
  | answered ht ht' hmore hstep =>
    exact .answered ht ht' (fun a a' ha => hmore a a' (hR a a' ha)) hstep
  | called ht ht' hmore hstep hd hnow hnow' huntried =>
    exact .called ht ht' (fun a a' ha => hmore a a' (hR a a' ha)) hstep hd hnow hnow' huntried

variable [DecidableEq N]

omit [BEq V] in
/-- A goal is called in both searches, or has no clauses in both. -/
theorem callGoal_inStep (hcandidates : prog.SameOn C called prog') (h : s.InStep called R s')
    {goal goal' : Goal N} {rest rest' : List (Goal N)}
    {frame frame' : Frame} (hgoal : Goal.InStep called R frame frame' goal goal')
    (hrest : List.Forall₂ (Goal.InStep called R frame frame') rest rest') (depth : Nat)
    (next : Option Nat) :
    TriesInStep prog prog' C called R s.calls s'.calls
      (s.callGoal prog goal rest frame depth next)
      (s'.callGoal prog' goal' rest' frame' depth next) := by
  have hsize : s.work.size = s'.work.size := h.size_work_eq
  have hids := hcandidates goal.name hgoal.calls
  obtain ⟨pool, work, calls, log⟩ := s
  obtain ⟨pool', work', calls', log'⟩ := s'
  obtain ⟨hpool, hwork⟩ := h
  dsimp only at hpool hwork hsize
  simp only [callGoal, ← hgoal.name_eq, hsize]
  generalize prog.candidates goal.name = ids at hids ⊢
  generalize prog'.candidates goal.name = ids' at hids ⊢
  cases hids with
  | nil => exact .failed _ _ rfl rfl
  | cons hid hids =>
    cases hrest with
    | nil =>
      -- No goal is left behind the called one, so both calls have the link of their rule.
      exact .called rfl rfl (fun _ _ => id) ⟨hpool, hwork⟩ ⟨hgoal.args, rfl, rfl⟩
        ⟨rfl, rfl, rfl⟩ ⟨rfl, rfl, rfl⟩ (.cons hid hids)
    | cons hnext hrest =>
      -- The goals that are left are pushed on both sides and get the same link.
      have hpushed := forall₂_push hwork (.goals depth next (.cons hnext hrest))
      exact .called rfl rfl (fun _ _ => id) ⟨hpool, hpushed⟩ ⟨hgoal.args, rfl, rfl⟩
        ⟨rfl, rfl, rfl⟩ ⟨rfl, rfl, rfl⟩ (.cons hid hids)

/-- Links are followed in both searches through the same work. -/
theorem follow_inStep (hcandidates : prog.SameOn C called prog') (fuel : Nat) (next : Option Nat)
    (h : s.InStep called R s') :
    TriesInStep prog prog' C called R s.calls s'.calls (s.follow prog fuel next)
      (s'.follow prog' fuel next) := by
  induction fuel generalizing next s s' with
  | zero =>
    cases next with
    | none => exact .answered rfl rfl (fun _ _ => id) h
    -- Both run out of links at the same one.
    | some link => exact .failed _ _ rfl rfl
  | succ fuel ih =>
    cases next with
    | none => exact .answered rfl rfl (fun _ _ => id) h
    | some link =>
      have hwork := h.getElem?_work link
      obtain ⟨pool, work, calls, log⟩ := s
      obtain ⟨pool', work', calls', log'⟩ := s'
      dsimp only at hwork
      simp only [follow]
      generalize work[link]? = w at hwork ⊢
      generalize work'[link]? = w' at hwork ⊢
      cases hwork with
      -- Both links lead nowhere.
      | none => exact .failed _ _ rfl rfl
      | some hsame =>
        cases hsame with
        | results next hpairs =>
          -- Copying back fails on both sides or on neither, and then what is matched is the same.
          rcases Pool.copyBack_inStep h.pool hpairs with ⟨f, q, f', q', hq, hq'⟩ |
            ⟨q, q', hq, hq', hmatches⟩
          · simp only [hq, hq']
            exact .failed _ _ rfl rfl
          · simp only [hq, hq']
            have hback : InStep called R ⟨q, work, calls, log⟩ ⟨q', work', calls', log'⟩ :=
              ⟨hmatches, h.work⟩
            exact ih next hback
        | goals depth next hgoals =>
          cases hgoals with
          -- Both bodies are done.
          | nil => exact ih next h
          -- Both call a goal of the same name.
          | cons hgoal hrest => exact callGoal_inStep hcandidates h hgoal hrest depth next

/-- Clauses that differ in names only are tried with the same success in both searches. -/
theorem tryClause_inStep (hvalid : prog.Valid p) (hcandidates : prog.SameOn C called prog')
    (h : s.InStep called R s') (hc : c.InStep R c') {id id' : ClauseId}
    (hid : prog.SameAt C called prog' id id') (hC : ∀ t t', C t t' → R t t') (limit : Option Nat) :
    TriesInStep prog prog' C called R s.calls s'.calls (s.tryClause prog limit id c)
      (s'.tryClause prog' limit id' c') := by
  have henter := enterClause_inStep hvalid h hc hid hC limit
  have hcalls := (enterClause_advances prog limit id c s).2
  have hcalls' := (enterClause_advances prog' limit id' c' s').2
  unfold tryClause
  generalize s.enterClause prog limit id c = x at henter hcalls ⊢
  generalize s'.enterClause prog' limit id' c' = x' at henter hcalls' ⊢
  cases henter with
  | failed e e' t t' => exact .failed e e' hcalls hcalls'
  | @entered R' next t t' hmore hstep =>
    have hfollow := follow_inStep hcandidates t.work.size next hstep
    dsimp only at hcalls hcalls' ⊢
    rw [hcalls, hcalls'] at hfollow
    unfold resume
    rw [← hstep.size_work_eq]
    exact hfollow.mono hmore

/-! ## What calls come back to -/

omit [BEq V] [DecidableEq N]

/-- The marks of a call are no greater than the bounds. -/
structure Within (d : OpenCall) (mark terms work : Nat) : Prop where
  mark_le : d.mark ≤ mark
  terms_le : d.terms ≤ terms
  work_le : d.work ≤ work

/-- Down the stack of calls the marks do not increase. -/
theorem Marked.within {base : Pool V} {calls : List OpenCall} {mark terms work : Nat}
    (h : Marked base calls mark terms work) : ∀ d ∈ calls, Within d mark terms work := by
  intro d hd
  obtain ⟨hmark, hterms, hwork⟩ := h.le_of_mem d hd
  exact ⟨hmark, hterms, hwork⟩

/-- The calls of before are within the latest of them, also when it has fewer clauses to try. -/
theorem Marked.within_latest {base : Pool V} {c : OpenCall} {below : List OpenCall}
    {mark terms work : Nat} (h : Marked base (c :: below) mark terms work) (rest : List ClauseId) :
    ∀ d ∈ { c with untried := rest } :: below, Within d c.mark c.terms c.work :=
  List.forall_mem_cons.2 ⟨⟨Nat.le_refl _, Nat.le_refl _, Nat.le_refl _⟩, h.2.2.2.within⟩

/-- Going back to a later call first makes no difference. -/
theorem rewind_rewind (s : Search N V) {c d : OpenCall} (h : Within d c.mark c.terms c.work) :
    rewind d (rewind c s) = rewind d s := by
  obtain ⟨pool, work, calls, log⟩ := s
  have hshrink : (work.shrink c.work).shrink d.work = work.shrink d.work := by
    apply Array.ext'
    simp only [Array.toList_shrink, List.take_take, Nat.min_eq_left h.work_le]
  simp only [rewind, Pool.undo_truncate, Pool.undo_undo _ h.mark_le,
    Pool.truncate_truncate _ h.terms_le, hshrink]

/-- What comes after going back to a call does not change what that call, or one that was opened
before it, comes back to. -/
theorem rewind_of_advances {s t : Search N V} {c d : OpenCall} (hadv : (rewind c s).Advances t)
    (hc : Within c s.pool.mark s.pool.size s.work.size) (hd : Within d c.mark c.terms c.work) :
    (rewind d t).pool = (rewind d s).pool ∧ (rewind d t).work = (rewind d s).work := by
  have hback : rewind c t = ⟨(rewind c s).pool, (rewind c s).work, t.calls, t.log⟩ := by
    apply rewind_eq hadv
    · simp [rewind, Nat.min_eq_left hc.mark_le]
    · simp [rewind, Nat.min_eq_left hc.terms_le]
    · simp [rewind, Nat.min_eq_left hc.work_le]
  rw [← rewind_rewind t hd, hback, ← rewind_rewind s hd]
  exact ⟨rfl, rfl⟩

/-! ## Rounds -/

/-- A call and its counterpart have the same clauses to try, and come back to states that are in
step over more names than `R`. -/
def Paired (prog prog' : Program N) (C : TermId → TermId → Prop) (called : N → Prop)
    (R : TermId → TermId → Prop) (s s' : Search N V) (c c' : OpenCall) : Prop :=
  List.Forall₂ (prog.SameAt C called prog') c.untried c'.untried ∧
    ∃ R' : TermId → TermId → Prop, (∀ t t', R t t' → R' t t') ∧ c.InStep R' c' ∧
      (rewind c s).InStep called R' (rewind c' s')

/-- Two searches, each over its base, whose open calls are paired. -/
structure Lockstep (prog prog' : Program N) (C : TermId → TermId → Prop) (called : N → Prop)
    (R : TermId → TermId → Prop) (base base' : Pool V) (s s' : Search N V) : Prop where
  overBase : Over base s
  overBase' : Over base' s'
  calls : List.Forall₂ (Paired prog prog' C called R s s') s.calls s'.calls

/-- Calls stay paired that come back to what they came back to. -/
theorem Paired.congr {s s' t t' : Search N V} {c c' : OpenCall}
    (h : Paired prog prog' C called R s s' c c')
    (ht : (rewind c t).pool = (rewind c s).pool ∧ (rewind c t).work = (rewind c s).work)
    (ht' : (rewind c' t').pool = (rewind c' s').pool ∧ (rewind c' t').work = (rewind c' s').work) :
    Paired prog prog' C called R t t' c c' := by
  obtain ⟨huntried, R', hmore, hc, hpool, hwork⟩ := h
  refine ⟨huntried, R', hmore, hc, ?_, ?_⟩
  · rw [ht.1, ht'.1]
    exact hpool
  · rw [ht.2, ht'.2]
    exact hwork

/-- A call that has just been opened comes back to the present state. -/
theorem OpenedNow.rewind_eq {d : OpenCall} {t : Search N V} (h : OpenedNow d t) :
    rewind d t = t :=
  Search.rewind_eq (.refl t) h.mark h.terms h.work

/-- The outcomes of two rounds that are in step. -/
inductive StepsInStep (R : TermId → TermId → Prop) (P : Search N V → Search N V → Prop) :
    Step N V → Step N V → Prop
  | exhausted {t t' : Search N V} : P t t' → StepsInStep R P (.exhausted t) (.exhausted t')
  | answered {t t' : Search N V} : P t t' → Store.Matches R t.pool.values t'.pool.values →
    StepsInStep R P (.answered t) (.answered t')
  | running {t t' : Search N V} : P t t' → StepsInStep R P (.running t) (.running t')

/-- A report does not bring searches out of step. -/
theorem Lockstep.report {base base' : Pool V} {s s' : Search N V}
    (h : Lockstep prog prog' C called R base base' s s') (e e' : Event N) :
    Lockstep prog prog' C called R base base' (s.report e) (s'.report e') :=
  ⟨⟨h.overBase.grows, h.overBase.marked⟩, ⟨h.overBase'.grows, h.overBase'.marked⟩,
    h.calls.imp fun _ _ hc => hc.congr ⟨rfl, rfl⟩ ⟨rfl, rfl⟩⟩

/-- Calls stay paired while later calls are tried. -/
theorem Paired.advance {s s' t t' : Search N V} {c c' : OpenCall} {calls calls' : List OpenCall}
    (hcalls : List.Forall₂ (Paired prog prog' C called R s s') calls calls')
    (hadv : (rewind c s).Advances t) (hadv' : (rewind c' s').Advances t')
    (hc : Within c s.pool.mark s.pool.size s.work.size)
    (hc' : Within c' s'.pool.mark s'.pool.size s'.work.size)
    (hwithin : ∀ d ∈ calls, Within d c.mark c.terms c.work)
    (hwithin' : ∀ d ∈ calls', Within d c'.mark c'.terms c'.work) :
    List.Forall₂ (Paired prog prog' C called R t t') calls calls' := by
  refine List.forall₂_iff_zip.2 ⟨hcalls.length_eq, fun {d d'} hmem => ?_⟩
  obtain ⟨hd, hd'⟩ := List.of_mem_zip hmem
  exact ((List.forall₂_iff_zip.1 hcalls).2 hmem).congr
    (rewind_of_advances hadv hc (hwithin d hd)) (rewind_of_advances hadv' hc' (hwithin' d' hd'))

/-- The calls of before stay paired while the latest of them tries a clause. -/
theorem Lockstep.kept {base base' pool pool' : Pool V} {work work' : Array (Work N)}
    {c c' : OpenCall} {below below' : List OpenCall} {log log' : Array (Event N)}
    (h : Lockstep prog prog' C called R base base' ⟨pool, work, c :: below, log⟩
      ⟨pool', work', c' :: below', log'⟩)
    {rest rest' : List ClauseId} (hrest : List.Forall₂ (prog.SameAt C called prog') rest rest')
    {t t' : Search N V}
    (hadv : (rewind c ⟨pool, work, { c with untried := rest } :: below, log⟩).Advances t)
    (hadv' : (rewind c' ⟨pool', work', { c' with untried := rest' } :: below', log'⟩).Advances t') :
    List.Forall₂ (Paired prog prog' C called R t t') ({ c with untried := rest } :: below)
      ({ c' with untried := rest' } :: below') := by
  have hmarked := h.overBase.marked
  have hmarked' := h.overBase'.marked
  obtain ⟨⟨-, R', hmore, hsame, hback⟩, hbelow⟩ := List.forall₂_cons.1 h.calls
  refine Paired.advance (.cons ?_ (hbelow.imp fun _ _ hd => hd.congr ⟨rfl, rfl⟩ ⟨rfl, rfl⟩)) hadv
    hadv' (hmarked.within c (List.mem_cons_self ..)) (hmarked'.within c' (List.mem_cons_self ..))
    (hmarked.within_latest rest) (hmarked'.within_latest rest')
  exact ⟨hrest, R', hmore, ⟨hsame.args, hsame.depth_eq, hsame.next_eq⟩, ⟨hback.pool, hback.work⟩⟩

/-- Searches that start from pools that match go in step. -/
theorem lockstep_start {pool pool' : Pool V} (h : Store.Matches R pool.values pool'.values)
    {ids ids' : List ClauseId} (hids : List.Forall₂ (prog.SameAt C called prog') ids ids')
    {args args' : List TermId} (hargs : List.Forall₂ R args args') :
    Lockstep prog prog' C called R pool pool' (start pool ids args) (start pool' ids' args') where
  overBase := over_start pool ids args
  overBase' := over_start pool' ids' args'
  calls := by
    have hback : ∀ (q : Pool V) (is : List ClauseId) (as : List TermId),
        rewind ⟨is, as, 0, none, q.mark, q.size, 0⟩ (start (N := N) q is as) = start q is as :=
      fun _ _ _ => OpenedNow.rewind_eq ⟨rfl, rfl, rfl⟩
    refine .cons ⟨hids, R, fun _ _ => id, ⟨hargs, rfl, rfl⟩, ?_⟩ .nil
    show InStep called R
      (rewind ⟨ids, args, 0, none, pool.mark, pool.size, 0⟩ (start pool ids args))
      (rewind ⟨ids', args', 0, none, pool'.mark, pool'.size, 0⟩ (start pool' ids' args'))
    rw [hback, hback]
    exact ⟨h, .nil⟩

variable [BEq V] [DecidableEq N]

/-- Searches that go in step do so for one more round. -/
theorem Lockstep.step {base base' : Pool V} {s s' : Search N V} (hvalid : prog.Valid p)
    (hcandidates : prog.SameOn C called prog') (hC : ∀ t t', C t t' → R t t')
    (h : Lockstep prog prog' C called R base base' s s') (limit : Option Nat) :
    StepsInStep R (Lockstep prog prog' C called R base base') (s.step prog limit)
      (s'.step prog' limit) := by
  have hover := h.overBase.step prog limit
  have hover' := h.overBase'.step prog' limit
  have hcalls := h.calls
  obtain ⟨pool, work, calls, log⟩ := s
  obtain ⟨pool', work', calls', log'⟩ := s'
  dsimp only at hcalls
  cases hcalls with
  | nil => exact .exhausted h
  | @cons c c' below below' hpaired hbelow =>
    -- The relation `R'` extends `R` to the terms that the two calls come back to.
    obtain ⟨huntried, R', hmore, hsame, hback⟩ := hpaired
    simp only [Search.step] at hover hover' ⊢
    generalize c.untried = ids at huntried hover ⊢
    generalize c'.untried = ids' at huntried hover' ⊢
    cases huntried with
    | nil =>
      -- Both calls are out of clauses and are closed.
      exact .running ⟨hover, hover', hbelow.imp fun _ _ hd => hd.congr ⟨rfl, rfl⟩ ⟨rfl, rfl⟩⟩
    | @cons id id' rest rest' hid hrest =>
      dsimp only at hover hover' ⊢
      -- Whatever the clauses leave, the calls below come back to what they came back to before.
      have hkept := h.kept hrest (tryClause_advances prog limit id c _).1
        (tryClause_advances prog' limit id' c' _).1
      -- Both searches go back to where the calls were opened, and are in step there.
      have hback' : InStep called R'
          (rewind c ⟨pool, work, { c with untried := rest } :: below, log⟩)
          (rewind c' ⟨pool', work', { c' with untried := rest' } :: below', log'⟩) :=
        ⟨hback.pool, hback.work⟩
      have htry := tryClause_inStep hvalid hcandidates hback' hsame hid
        (fun a a' ha => hmore a a' (hC a a' ha)) limit
      generalize tryClause (V := V) prog limit id c _ = x at hkept htry hover ⊢
      generalize tryClause (V := V) prog' limit id' c' _ = x' at hkept htry hover' ⊢
      cases htry with
      | @failed e e' t t' ht ht' =>
        -- Both clauses fail, and the calls that are left are the same as before.
        have hlockstep : Lockstep prog prog' C called R base base' t t' :=
          ⟨⟨hover.grows, hover.marked⟩, ⟨hover'.grows, hover'.marked⟩, by rwa [ht, ht']⟩
        exact .running (hlockstep.report _ _)
      | answered ht ht' hgrown hstep =>
        -- Both have an answer, in which all that was matched is matched still.
        refine .answered ⟨hover, hover', by rwa [ht, ht']⟩ (hstep.pool.mono fun a a' ha => ?_)
        exact hgrown a a' (hmore a a' ha)
      | called ht ht' hgrown hstep hd hnow hnow' huntried =>
        -- Both open a call, which comes back to the state that it is opened in.
        refine .running ⟨hover, hover', ?_⟩
        rw [ht, ht']
        refine .cons ⟨huntried, _, fun a a' ha => hgrown a a' (hmore a a' ha), hd, ?_⟩ hkept
        rwa [hnow.rewind_eq, hnow'.rewind_eq]

/-! ## Runs -/

variable {base base' : Pool V}

/-- Searches that go in step find an answer within the same number of rounds, with the same values,
or both find none, or both go on. -/
theorem Lockstep.next? {s s' : Search N V} (hvalid : prog.Valid p)
    (hcandidates : prog.SameOn C called prog') (hC : ∀ t t', C t t' → R t t')
    (h : Lockstep prog prog' C called R base base' s s')
    (limit : Option Nat) (rounds : Nat) :
    Option.Rel (fun x x' => x.1 = x'.1 ∧
        (x.1 = true → Store.Matches R x.2.pool.values x'.2.pool.values))
      (next? prog limit rounds s) (next? prog' limit rounds s') := by
  induction rounds generalizing s s' with
  | zero => exact .none
  | succ rounds ih =>
    have hstep := h.step hvalid hcandidates hC limit
    rw [Search.next?, Search.next?]
    generalize s.step prog limit = x at hstep ⊢
    generalize s'.step prog' limit = x' at hstep ⊢
    cases hstep with
    | exhausted _ => exact .some ⟨rfl, fun h => absurd h Bool.false_ne_true⟩
    | answered _ hmatches => exact .some ⟨rfl, fun _ => hmatches⟩
    | running hnext => exact ih hnext

/-- Searches that go in step find the same answers, or both go on. -/
theorem Lockstep.all? {s s' : Search N V} (hvalid : prog.Valid p)
    (hcandidates : prog.SameOn C called prog') (hC : ∀ t t', C t t' → R t t')
    (h : Lockstep prog prog' C called R base base' s s')
    (limit : Option Nat) {args args' : List TermId} (hargs : List.Forall₂ R args args')
    (rounds : Nat) :
    Option.Rel (fun x x' => x.1 = x'.1) (all? prog limit args rounds s)
      (all? prog' limit args' rounds s') := by
  induction rounds generalizing s s' with
  | zero => exact .none
  | succ rounds ih =>
    have hstep := h.step hvalid hcandidates hC limit
    rw [Search.all?, Search.all?]
    generalize s.step prog limit = x at hstep ⊢
    generalize s'.step prog' limit = x' at hstep ⊢
    cases hstep with
    | exhausted _ => exact .some rfl
    | answered hnext hmatches =>
      refine rel_map (ih (hnext.report .retrying .retrying)) fun x x' hx => ?_
      exact congrArg₂ List.cons (Pool.answer_eq_of_related hmatches hargs) hx
    | running hnext => exact ih hnext

end Search

end Hornbase
