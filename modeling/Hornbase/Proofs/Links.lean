import Hornbase.Command
import Hornbase.Proofs.Watermark
import Mathlib.Logic.Relation

/-!
# Links

Waiting work is a stack, and what follows a piece of work is given by its position there. A link
that leads nowhere would leave the search with no way to go on, and one that leads up with a loop.
Neither is ever met: every link, of work and of open calls, leads further down than where it stands
(`Search.Linked`). So going on can be said without counting links and without a case for one that is
broken (`Search.Follows`), and it comes to an end all the same.

What a search does between two returns to an open call is a sequence of moves of three kinds
(`Scene.Move`). The functions of a round are gone through once, and found to make such moves only
(`tryClause_goesOn`).
-/

namespace Hornbase

universe u v

variable {N : Type u} {V : Type v}

/-! ## Work that is linked -/

namespace Work

/-- The link from a piece of work to what follows it. -/
def next : Work N → Option Nat
  | goals _ _ _ next | results _ next => next

/-- Whether the work at each position is followed by work further down, if by any. -/
def Linked (work : Array (Work N)) : Prop :=
  ∀ (i : Nat) (w : Work N), work[i]? = some w → ∀ l ∈ w.next, l < i

theorem linked_empty : Linked (#[] : Array (Work N)) := by
  intro i w hw
  simp at hw

/-- Work may be left that is followed by work that there is. -/
theorem Linked.push {work : Array (Work N)} (h : Linked work) {w : Work N}
    (hnext : ∀ l ∈ w.next, l < work.size) : Linked (work.push w) := by
  intro i w' hw'
  rw [Array.getElem?_push] at hw'
  split at hw'
  · next hi =>
    obtain rfl := Option.some.inj hw'
    rw [hi]
    exact hnext
  · exact h i w' hw'

/-- The lower part of linked work is linked. -/
theorem Linked.shrink {work : Array (Work N)} (h : Linked work) (n : Nat) :
    Linked (work.shrink n) := by
  intro i w hw
  rw [← Array.getElem?_toList, Array.toList_shrink] at hw
  refine h i w ?_
  rw [← Array.getElem?_toList]
  have hi := (List.getElem?_eq_some_iff.1 hw).1
  rwa [List.getElem?_take_of_lt (Nat.lt_of_lt_of_le hi (List.length_take_le ..))] at hw

end Work

/-! ## Scenes and moves -/

/-- What a search goes on from: its pool, and the work that waits. -/
structure Scene (N : Type u) (V : Type v) where
  pool : Pool V
  work : Array (Work N)

/-- The scene that a search is in. -/
def Search.scene (s : Search N V) : Scene N V := ⟨s.pool, s.work⟩

namespace Scene

/-- One move forward: an unbound term is bound and recorded, unbound terms are added, or work is
left that is followed by work that there is. -/
inductive Move : Scene N V → Scene N V → Prop
  | bind {p : Pool V} (work : Array (Work N)) {t : TermId} (v : V) : p.term? t = some .unbound →
    Move ⟨p, work⟩ ⟨p.assign t v, work⟩
  | lay (p : Pool V) (work : Array (Work N)) (n : Nat) : Move ⟨p, work⟩ ⟨(p.addFrame n).2, work⟩
  | leave (p : Pool V) {work : Array (Work N)} (w : Work N) : (∀ l ∈ w.next, l < work.size) →
    Move ⟨p, work⟩ ⟨p, work.push w⟩

/-- Whether moves lead from one scene to another. -/
def Leads (a b : Scene N V) : Prop := Relation.ReflTransGen Move a b

variable {a b c : Scene N V}

theorem Leads.refl (a : Scene N V) : a.Leads a := Relation.ReflTransGen.refl

theorem Leads.trans (hab : a.Leads b) (hbc : b.Leads c) : a.Leads c :=
  Relation.ReflTransGen.trans hab hbc

theorem Leads.single (h : a.Move b) : a.Leads b := Relation.ReflTransGen.single h

/-- Moves let the pool grow. -/
theorem Leads.grows (h : a.Leads b) : a.pool.GrowsTo b.pool := by
  induction h with
  | refl => exact .refl _
  | tail _ hmove ih =>
    refine ih.trans ?_
    cases hmove with
    | bind _ v hunbound => exact Pool.growsTo_assign (by rw [Pool.value?, hunbound]; rfl) v
    | lay p _ n => exact p.growsTo_addFrame n
    | leave => exact .refl _

/-- Moves take no work away. -/
theorem Leads.work (h : a.Leads b) : a.work.toList <+: b.work.toList := by
  induction h with
  | refl => exact List.prefix_rfl
  | tail _ hmove ih =>
    refine ih.trans ?_
    cases hmove with
    | bind | lay => exact List.prefix_rfl
    | leave => simp

/-- Moves keep work linked. -/
theorem Leads.linked (h : a.Leads b) (ha : Work.Linked a.work) : Work.Linked b.work := by
  induction h with
  | refl => exact ha
  | tail _ hmove ih =>
    cases hmove with
    | bind | lay => exact ih
    | leave _ _ hnext => exact ih.push hnext

/-- Work that waits keeps its place. -/
theorem Leads.size_le (h : a.Leads b) : a.work.size ≤ b.work.size := by
  simpa using h.work.length_le

end Scene

/-! ## What is bound -/

namespace Pool

variable [BEq V]

variable (work : Array (Work N))

/-- Unifying pairs binds unbound terms. -/
theorem unifyPairs_leads (pairs : List (TermId × TermId)) (p : Pool V) :
    Scene.Leads ⟨p, work⟩ ⟨(unifyPairs pairs p).pool, work⟩ := by
  induction pairs generalizing p with
  | nil => exact .refl _
  | cons pair rest ih =>
    obtain ⟨part, arg⟩ := pair
    simp only [unifyPairs]
    split
    · exact .refl _
    · exact .refl _
    · exact ih p
    · next into v hflow =>
      exact (Scene.Leads.single (.bind work v (term?_of_pairing_flow hflow))).trans (ih _)
    · exact ih p

/-- Unifying all or none binds unbound terms. -/
theorem unify_leads (p : Pool V) (pairs : List (TermId × TermId)) :
    Scene.Leads ⟨p, work⟩ ⟨(p.unify pairs).pool, work⟩ := by
  cases hf : (p.unify pairs).failure with
  | some f =>
    rw [unify_pool_of_failure hf]
    exact .refl _
  | none =>
    have hpairs := unifyPairs_leads work pairs p
    unfold unify at hf ⊢
    cases hm : unifyPairs pairs p with
    | mk q putOff failure =>
      simp only [hm] at hf hpairs ⊢
      cases failure with
      | none => exact hpairs
      | some g => cases hf

/-- Copying results back binds unbound terms. -/
theorem copyBack_leads (pairs : List (TermId × TermId)) (p : Pool V) :
    Scene.Leads ⟨p, work⟩ ⟨(p.copyBack pairs).2, work⟩ := by
  induction pairs generalizing p with
  | nil => exact .refl _
  | cons pair rest ih =>
    obtain ⟨part, arg⟩ := pair
    simp only [copyBack]
    split
    · exact ih p
    · split
      · exact .refl _
      · exact .refl _
      · next into v hflow =>
        exact (Scene.Leads.single (.bind work v (term?_of_pairing_flow hflow))).trans (ih _)
      · exact ih p
      · exact ih p

end Pool

namespace Search

/-! ## What a round does -/

/-- Entering a clause has made moves, and the link to go on with leads to work that is there. -/
structure EntersLinked (s : Search N V) (r : Except Failure (Option Nat) × Search N V) : Prop where
  leads : s.scene.Leads r.2.scene
  link_lt : ∀ next, r.1 = .ok next → ∀ l ∈ next, l < r.2.work.size

/-- After a failure there is no link to go on with. -/
theorem EntersLinked.failed {s t : Search N V} (h : s.scene.Leads t.scene) (failure : Failure) :
    s.EntersLinked (.error failure, t) :=
  ⟨h, fun _ heq => by cases heq⟩

section

variable [BEq V] {s : Search N V} {c : OpenCall}

theorem enterFact_linked (hc : ∀ l ∈ c.next, l < s.work.size) (f : Fact N) :
    s.EntersLinked (s.enterFact f c) := by
  obtain ⟨pool, work, calls, log⟩ := s
  have hleads := pool.unify_leads work (f.parts.zip c.args)
  simp only [enterFact]
  split
  · refine ⟨hleads, fun next heq => ?_⟩
    obtain rfl := Except.ok.inj heq
    exact hc
  · exact .failed hleads _

theorem unfoldRule_linked (hc : ∀ l ∈ c.next, l < s.work.size) (id : ClauseId) (r : Rule N) :
    s.EntersLinked (s.unfoldRule id r c) := by
  -- Three steps lead to the links: the frame is laid, the head unified, the work left.
  obtain ⟨pool, work, calls, log⟩ := s
  have hlay := Scene.Leads.single (.lay pool work r.locals.length)
  simp only [unfoldRule]
  generalize pool.addFrame r.locals.length = laid at hlay ⊢
  obtain ⟨frame, laidPool⟩ := laid
  have hunify := hlay.trans (laidPool.unify_leads work ((r.params.map frame.term).zip c.args))
  dsimp only
  generalize laidPool.unify ((r.params.map frame.term).zip c.args) = m at hunify ⊢
  obtain ⟨q, putOff, failure⟩ := m
  cases failure with
  | some failure => exact .failed hunify failure
  | none =>
    cases putOff with
    | nil =>
      -- Nothing was put off, so the body goes on where the call goes on.
      have hbody := hunify.trans
        (.single (.leave q (.goals r.body frame (c.depth + 1) c.next) hc))
      refine ⟨hbody, fun next heq l hl => ?_⟩
      obtain rfl := Except.ok.inj heq
      obtain rfl := Option.some.inj hl
      simp
    | cons pair pairs =>
      -- The results are left first, and the link of the body leads to them.
      have hresults := hunify.trans (.single (.leave q (.results (pair :: pairs) c.next) hc))
      have hlink : ∀ l ∈ some work.size,
          l < (work.push (.results (pair :: pairs) c.next)).size := by
        intro l hl
        obtain rfl := Option.some.inj hl
        simp
      have hbody := hresults.trans
        (.single (.leave q (.goals r.body frame (c.depth + 1) (some work.size)) hlink))
      refine ⟨hbody, fun next heq l hl => ?_⟩
      obtain rfl := Except.ok.inj heq
      obtain rfl := Option.some.inj hl
      simp

/-- Entering a clause for a call whose link leads to work that is there. -/
theorem enterClause_linked (hc : ∀ l ∈ c.next, l < s.work.size) (prog : Program N)
    (limit : Option Nat) (id : ClauseId) : s.EntersLinked (s.enterClause prog limit id c) := by
  unfold enterClause
  split
  · exact .failed (.refl _) _
  · split
    · exact .failed (.refl _) _
    · split
      · exact enterFact_linked hc _
      · unfold enterRule
        split
        · exact unfoldRule_linked hc id _
        · split
          · exact .failed (t := s.report _) (.refl s.scene) _
          · exact unfoldRule_linked hc id _

end

/-- Going on from `s` has made moves and opened no call, or it ends by opening one, in the scene
that the moves led to, and with a link to work that is there. -/
inductive GoesOn (s : Search N V) : Except Failure Standing × Search N V → Prop
  | stays {x : Except Failure Standing} {t : Search N V} : s.scene.Leads t.scene →
    t.calls = s.calls → x ≠ .ok .called → GoesOn s (x, t)
  | calls {t : Search N V} {untried : List ClauseId} {args : List TermId} {depth : Nat}
    {next : Option Nat} : s.scene.Leads t.scene → t.calls = s.calls →
    (∀ l ∈ next, l < t.work.size) → GoesOn s (.ok .called, t.openCall untried args depth next)

/-- A failure opens no call. -/
theorem GoesOn.failed {s t : Search N V} (h : s.scene.Leads t.scene) (hcalls : t.calls = s.calls)
    (failure : Failure) : s.GoesOn (.error failure, t) :=
  .stays h hcalls (by simp)

/-- What comes first adds its moves. -/
theorem GoesOn.after {s t : Search N V} {r : Except Failure Standing × Search N V}
    (hleads : s.scene.Leads t.scene) (hcalls : t.calls = s.calls) (h : t.GoesOn r) :
    s.GoesOn r := by
  cases h with
  | stays h hsame hx => exact .stays (hleads.trans h) (hsame.trans hcalls) hx
  | calls h hsame hnext => exact .calls (hleads.trans h) (hsame.trans hcalls) hnext

variable [DecidableEq N] {prog : Program N}

/-- A goal is called with a link to work that is there. -/
theorem callGoal_goesOn (goal : Goal N) (rest : List (Goal N)) (frame : Frame) (depth : Nat)
    {next : Option Nat} {s : Search N V} (hnext : ∀ l ∈ next, l < s.work.size) :
    s.GoesOn (s.callGoal prog goal rest frame depth next) := by
  obtain ⟨pool, work, calls, log⟩ := s
  simp only [callGoal]
  split
  · exact .failed (s := ⟨pool, work, calls, log⟩) (t := report _ ⟨pool, work, calls, log⟩)
      (.refl _) rfl _
  · cases rest with
    | nil => exact .calls (t := ⟨pool, work, calls, _⟩) (.refl _) rfl hnext
    | cons g gs =>
      refine .calls (s := ⟨pool, work, calls, log⟩)
        (t := ⟨pool, work.push (.goals (g :: gs) frame depth next), calls, _⟩)
        (.single (.leave pool (.goals (g :: gs) frame depth next) hnext)) rfl fun l hl => ?_
      obtain rfl := Option.some.inj hl
      simp

variable [BEq V]

/-- Where work is linked, going on makes moves only, whatever link it starts with. -/
theorem follow_goesOn {s : Search N V} (hlinked : Work.Linked s.work) (fuel : Nat)
    (next : Option Nat) : s.GoesOn (s.follow prog fuel next) := by
  induction fuel generalizing next s with
  | zero =>
    cases next with
    | none => exact .stays (.refl _) rfl (by simp)
    | some link => exact .failed (.refl _) rfl _
  | succ fuel ih =>
    cases next with
    | none => exact .stays (.refl _) rfl (by simp)
    | some link =>
      obtain ⟨pool, work, calls, log⟩ := s
      simp only [follow]
      split
      · -- No work stands at the link.
        exact .failed (.refl _) rfl _
      · -- Results are copied back, and the search goes on behind them.
        next pairs next _ =>
        have hleads := pool.copyBack_leads work pairs
        split
        · next q hq =>
          rw [hq] at hleads
          exact .after (t := ⟨q, work, calls, log⟩) hleads rfl
            (ih (s := ⟨q, work, calls, log⟩) hlinked next)
        · next q hq =>
          rw [hq] at hleads
          exact .failed (s := ⟨pool, work, calls, log⟩) (t := ⟨q, work, calls, log⟩) hleads rfl _
      · -- A body that is done: the search goes on behind it.
        exact ih hlinked _
      · -- The next goal of a body is called, and its work links to what its body links to.
        next goal rest frame depth next hw =>
        refine callGoal_goesOn goal rest frame depth fun l hl => ?_
        have hlt := (Array.getElem?_eq_some_iff.1 hw).1
        exact Nat.lt_trans (hlinked link _ hw l hl) hlt

/-- Where work is linked, and so is the call, trying a clause makes moves only and opens one call at
most. -/
theorem tryClause_goesOn {s : Search N V} (hlinked : Work.Linked s.work) {c : OpenCall}
    (hc : ∀ l ∈ c.next, l < s.work.size) (limit : Option Nat) (id : ClauseId) :
    s.GoesOn (s.tryClause prog limit id c) := by
  have henters := enterClause_linked hc prog limit id
  have hcalls := (enterClause_advances prog limit id c s).2
  simp only [tryClause]
  split
  · next next t ht =>
    rw [ht] at henters hcalls
    exact (follow_goesOn (henters.leads.linked hlinked) _ next).after henters.leads hcalls
  · next failure t ht =>
    rw [ht] at henters hcalls
    exact .failed henters.leads hcalls failure

/-! ## Going on without counting -/

/-- Going on from the state `s` with the work at a link, for as long as it takes. There is no rule
for a link that leads nowhere. -/
inductive Follows (prog : Program N) :
    Option Nat → Search N V → Except Failure Standing × Search N V → Prop
  | answered (s : Search N V) : Follows prog none s (.ok .answered, s)
  | results {link : Nat} {pairs : List (TermId × TermId)} {next : Option Nat} {s : Search N V}
    {q : Pool V} {r : Except Failure Standing × Search N V} :
    s.work[link]? = some (.results pairs next) → s.pool.copyBack pairs = (none, q) →
    Follows prog next { s with pool := q } r → Follows prog (some link) s r
  | clash {link : Nat} {pairs : List (TermId × TermId)} {next : Option Nat} {s : Search N V}
    {q : Pool V} {failure : Failure} :
    s.work[link]? = some (.results pairs next) → s.pool.copyBack pairs = (some failure, q) →
    Follows prog (some link) s (.error failure, { s with pool := q })
  | done {link : Nat} {frame : Frame} {depth : Nat} {next : Option Nat} {s : Search N V}
    {r : Except Failure Standing × Search N V} :
    s.work[link]? = some (.goals [] frame depth next) → Follows prog next s r →
    Follows prog (some link) s r
  | call {link : Nat} {goal : Goal N} {rest : List (Goal N)} {frame : Frame} {depth : Nat}
    {next : Option Nat} {s : Search N V} :
    s.work[link]? = some (.goals (goal :: rest) frame depth next) →
    Follows prog (some link) s (s.callGoal prog goal rest frame depth next)

/-- With enough links to go, counting them makes no difference. -/
theorem Follows.exists_fuel {next : Option Nat} {s : Search N V}
    {r : Except Failure Standing × Search N V} (h : Follows prog next s r) :
    ∃ k, ∀ m, s.follow prog (m + k) next = r := by
  induction h with
  | answered s => exact ⟨0, fun m => by cases m <;> rfl⟩
  | @results link pairs next s q r hw hcopy _ ih =>
    obtain ⟨k, hk⟩ := ih
    obtain ⟨pool, work, calls, log⟩ := s
    dsimp only at hw hcopy
    -- One link more is followed for each piece of work on the way.
    refine ⟨k + 1, fun m => ?_⟩
    simp only [follow, hw, hcopy]
    exact hk m
  | @clash link pairs next s q failure hw hcopy =>
    obtain ⟨pool, work, calls, log⟩ := s
    dsimp only at hw hcopy
    exact ⟨1, fun m => by simp only [follow, hw, hcopy]⟩
  | @done link frame depth next s r hw _ ih =>
    obtain ⟨k, hk⟩ := ih
    obtain ⟨pool, work, calls, log⟩ := s
    dsimp only at hw
    refine ⟨k + 1, fun m => ?_⟩
    simp only [follow, hw]
    exact hk m
  | @call link goal rest frame depth next s hw =>
    obtain ⟨pool, work, calls, log⟩ := s
    dsimp only at hw
    exact ⟨1, fun m => by simp only [follow, hw]⟩

/-- Going on comes to one end at most. -/
theorem Follows.unique {next : Option Nat} {s : Search N V}
    {r r' : Except Failure Standing × Search N V} (h : Follows prog next s r)
    (h' : Follows prog next s r') : r = r' := by
  obtain ⟨k, hk⟩ := h.exists_fuel
  obtain ⟨k', hk'⟩ := h'.exists_fuel
  rw [← hk k', ← hk' k, Nat.add_comm]

/-- Copying back fails for what the terms are. -/
theorem copyBack_ne_brokenLink {pairs : List (TermId × TermId)} {p : Pool V} {link : Nat} :
    (p.copyBack pairs).1 ≠ some (.brokenLink link) := by
  induction pairs generalizing p with
  | nil => exact nofun
  | cons pair rest ih =>
    obtain ⟨part, arg⟩ := pair
    simp only [Pool.copyBack]
    split
    · exact ih
    · split
      · simp
      · simp
      · exact ih
      · exact ih
      · exact ih

omit [BEq V] in
/-- A call fails for want of clauses. -/
theorem callGoal_ne_brokenLink {goal : Goal N} {rest : List (Goal N)} {frame : Frame} {depth : Nat}
    {next : Option Nat} {s : Search N V} {link : Nat} :
    (s.callGoal prog goal rest frame depth next).1 ≠ .error (.brokenLink link) := by
  obtain ⟨pool, work, calls, log⟩ := s
  simp only [callGoal]
  split
  · simp
  · split <;> simp

/-- Going on without counting comes upon no broken link. -/
theorem Follows.ne_brokenLink {next : Option Nat} {s : Search N V}
    {r : Except Failure Standing × Search N V} (h : Follows prog next s r) (link : Nat) :
    r.1 ≠ .error (.brokenLink link) := by
  induction h with
  | answered => exact nofun
  | results _ _ _ ih => exact ih
  | clash _ hcopy =>
    intro heq
    have hfailure := congrArg Prod.fst hcopy
    rw [Except.error.inj heq] at hfailure
    exact copyBack_ne_brokenLink hfailure
  | done _ _ ih => exact ih
  | call => exact callGoal_ne_brokenLink

/-- Where work is linked, as many links as there is work below the first are enough: going on does
what it does without counting. -/
theorem follows_follow {fuel : Nat} {next : Option Nat} {s : Search N V}
    (hlinked : Work.Linked s.work) (hnext : ∀ l ∈ next, l < fuel) (hfuel : fuel ≤ s.work.size) :
    Follows prog next s (s.follow prog fuel next) := by
  induction fuel generalizing next s with
  | zero =>
    cases next with
    | none => exact .answered s
    -- No link is below zero.
    | some link => exact absurd (hnext link rfl) (Nat.not_lt_zero link)
  | succ fuel ih =>
    cases next with
    | none => exact .answered s
    | some link =>
      have hlink := hnext link rfl
      obtain ⟨pool, work, calls, log⟩ := s
      obtain ⟨w, hw⟩ : ∃ w, work[link]? = some w :=
        ⟨_, Array.getElem?_eq_getElem (Nat.lt_of_lt_of_le hlink hfuel)⟩
      -- What follows the work at the link is further down, and fewer links are enough for it.
      have hbelow : ∀ l ∈ w.next, l < fuel := fun l hl =>
        Nat.lt_of_lt_of_le (hlinked link w hw l hl) (Nat.le_of_lt_succ hlink)
      have hfuel := Nat.le_of_succ_le hfuel
      simp only [follow, hw]
      cases w with
      | results pairs next =>
        dsimp only
        split
        · next q hq =>
          exact .results hw hq (ih (s := ⟨q, work, calls, log⟩) hlinked hbelow hfuel)
        · next hq => exact .clash (s := ⟨pool, work, calls, log⟩) hw hq
      | goals rest frame depth next =>
        cases rest with
        | nil => exact .done hw (ih hlinked hbelow hfuel)
        | cons goal rest => exact .call (s := ⟨pool, work, calls, log⟩) hw

/-! ## Rounds -/

/-- Whether the next round from `s` tries the clause `id` for its latest call `c`, and `t` is the
state that has been put back for it. -/
def Tries (s : Search N V) (c : OpenCall) (id : ClauseId) (t : Search N V) : Prop :=
  ∃ below rest, s.calls = c :: below ∧ c.untried = id :: rest ∧
    t = rewind c { s with calls := { c with untried := rest } :: below }

/-- A search is at its end, or a round closes the latest call, or tries a clause for it. -/
theorem step_cases (prog : Program N) (limit : Option Nat) (s : Search N V) :
    s.calls = [] ∨
    (∃ c below, s.calls = c :: below ∧ c.untried = [] ∧
      s.step prog limit = .running { s with calls := below }) ∨
    ∃ c id t, s.Tries c id t ∧
      ((t.tryClause prog limit id c).1 = .ok .answered ∧
          s.step prog limit = .answered (t.tryClause prog limit id c).2 ∨
        (t.tryClause prog limit id c).1 = .ok .called ∧
          s.step prog limit = .running (t.tryClause prog limit id c).2 ∨
        ∃ failure, (t.tryClause prog limit id c).1 = .error failure ∧
          s.step prog limit = .running
            ((t.tryClause prog limit id c).2.report (.clauseFailed id c.args failure))) := by
  obtain ⟨pool, work, calls, log⟩ := s
  cases calls with
  | nil => exact .inl rfl
  | cons c below =>
    cases huntried : c.untried with
    | nil => exact .inr (.inl ⟨c, below, rfl, huntried, by simp only [step, huntried]⟩)
    | cons id rest =>
      refine .inr (.inr ⟨c, id, _, ⟨below, rest, rfl, huntried, rfl⟩, ?_⟩)
      simp only [step, huntried]
      generalize tryClause prog limit id c
        (rewind c ⟨pool, work, { c with untried := rest } :: below, log⟩) = r
      obtain ⟨x, t⟩ := r
      -- A clause fails, completes an answer, or calls a goal.
      rcases x with failure | _ | _
      · exact .inr (.inr ⟨failure, rfl, rfl⟩)
      · exact .inl ⟨rfl, rfl⟩
      · exact .inr (.inl ⟨rfl, rfl⟩)

/-- An answer comes from a clause that was tried. -/
theorem tries_of_answered {limit : Option Nat} {s u : Search N V}
    (h : s.step prog limit = .answered u) : ∃ c id t, s.Tries c id t ∧
      (t.tryClause prog limit id c).1 = .ok .answered ∧ (t.tryClause prog limit id c).2 = u := by
  rcases s.step_cases prog limit with
    hcalls | ⟨_, _, -, -, hstep⟩ |
    ⟨c, id, t, htries, ⟨hanswers, hstep⟩ | ⟨-, hstep⟩ | ⟨_, -, hstep⟩⟩
  · cases (step_of_calls_nil hcalls).symm.trans h
  · cases hstep.symm.trans h
  · exact ⟨c, id, t, htries, hanswers, Step.answered.inj (hstep.symm.trans h)⟩
  · cases hstep.symm.trans h
  · cases hstep.symm.trans h

/-- Whether all links lead further down: those of work, and those of calls below the work that was
waiting when they were opened. -/
structure Linked (s : Search N V) : Prop where
  work : Work.Linked s.work
  calls : ∀ c ∈ s.calls, ∀ l ∈ c.next, l < c.work

omit [DecidableEq N] [BEq V] in
theorem Linked.report {s : Search N V} (h : s.Linked) (e : Event N) : (s.report e).Linked :=
  ⟨h.work, h.calls⟩

omit [DecidableEq N] [BEq V] in
/-- Going on keeps links in order. -/
theorem Linked.goesOn {s : Search N V} {r : Except Failure Standing × Search N V} (h : s.Linked)
    (hgoes : s.GoesOn r) : r.2.Linked := by
  cases hgoes with
  | stays hleads hcalls _ => exact ⟨hleads.linked h.work, hcalls ▸ h.calls⟩
  | calls hleads hcalls hnext =>
    refine ⟨hleads.linked h.work, fun c hc => ?_⟩
    rcases List.mem_cons.1 hc with rfl | hc
    · exact hnext
    · exact h.calls c (hcalls ▸ hc)

omit [DecidableEq N] [BEq V] in
/-- Going back to the latest call keeps links in order, and leaves the work that was waiting when it
was opened. -/
theorem Linked.tries {s t : Search N V} {c : OpenCall} {id : ClauseId} (h : s.Linked)
    (htries : s.Tries c id t) (hwork : ∀ d ∈ s.calls, d.work ≤ s.work.size) :
    t.Linked ∧ t.work.size = c.work ∧ ∀ l ∈ c.next, l < t.work.size := by
  obtain ⟨below, rest, hcalls, -, rfl⟩ := htries
  have hmem : c ∈ s.calls := hcalls ▸ List.mem_cons_self ..
  have hsize : (s.work.shrink c.work).size = c.work := by
    rw [Array.size_shrink, Nat.min_eq_left (hwork c hmem)]
  refine ⟨⟨h.work.shrink c.work, fun d hd => ?_⟩, hsize, fun l hl => ?_⟩
  · rcases List.mem_cons.1 hd with rfl | hd
    · exact h.calls c hmem
    · exact h.calls d (hcalls ▸ List.mem_cons_of_mem _ hd)
  · exact hsize ▸ h.calls c hmem l hl

/-- A round keeps links in order. -/
theorem Linked.step {s : Search N V} (h : s.Linked) (hwork : ∀ c ∈ s.calls, c.work ≤ s.work.size)
    (limit : Option Nat) : (s.step prog limit).state.Linked := by
  rcases s.step_cases prog limit with
    hcalls | ⟨c, below, hcalls, -, hstep⟩ | ⟨c, id, t, htries, hstep⟩
  · rw [step_of_calls_nil hcalls]
    exact h
  · -- A call without untried clauses is closed, and the others stay.
    rw [hstep]
    exact ⟨h.work, fun d hd => h.calls d (hcalls ▸ List.mem_cons_of_mem _ hd)⟩
  · -- A clause is tried from what the call found, and whatever comes of it is linked.
    obtain ⟨hlinked, -, hc⟩ := h.tries htries hwork
    have hafter : (t.tryClause prog limit id c).2.Linked :=
      hlinked.goesOn (tryClause_goesOn hlinked.work hc limit id)
    rcases hstep with ⟨-, hstep⟩ | ⟨-, hstep⟩ | ⟨failure, -, hstep⟩
    · rw [hstep]
      exact hafter
    · rw [hstep]
      exact hafter
    · rw [hstep]
      exact hafter.report _

omit [DecidableEq N] [BEq V] in
/-- No call of a search over a pool had more work waiting when it was opened than there is. -/
theorem Over.work_le {base : Pool V} {s : Search N V} (h : Over base s) :
    ∀ c ∈ s.calls, c.work ≤ s.work.size :=
  fun c hc => (h.marked.le_of_mem c hc).2.2

omit [DecidableEq N] [BEq V] in
/-- There is no work at the start, and nothing follows the query. -/
theorem linked_start (pool : Pool V) (ids : List ClauseId) (args : List TermId) :
    (start (N := N) pool ids args).Linked := by
  refine ⟨Work.linked_empty, fun c hc => ?_⟩
  obtain rfl := List.mem_singleton.1 hc
  exact nofun

/-- Links are in order all along a run. -/
theorem linked_of_run {limit : Option Nat} {pool : Pool V} {ids : List ClauseId}
    {args : List TermId} {found : List (Search N V)} {s : Search N V}
    (hrun : Run prog limit (start pool ids args) found s) :
    s.Linked ∧ ∀ t ∈ found, t.Linked := by
  have hboth := hrun.invariant (P := fun s => Over pool s ∧ s.Linked)
    (fun s h => ⟨h.1.step prog limit, h.2.step h.1.work_le limit⟩)
    (fun s h => ⟨⟨h.1.grows, h.1.marked⟩, h.2.report _⟩)
    ⟨over_start pool ids args, linked_start pool ids args⟩
  exact ⟨hboth.1.2, fun t ht => (hboth.2 t ht).2⟩

/-- In every state of every search all links lead further down. So do they when a clause is tried:
the link to go on with leads to work that is there, and going on from it comes to an end without
counting, upon no link that is broken. -/
theorem links_lead_down {limit : Option Nat} {pool : Pool V} {ids : List ClauseId}
    {args : List TermId} {found : List (Search N V)} {s : Search N V}
    (hrun : Run prog limit (start pool ids args) found s) :
    s.Linked ∧ (∀ t ∈ found, t.Linked) ∧ (∀ c ∈ s.calls, c.work ≤ s.work.size) ∧
      ∀ c id t, s.Tries c id t → t.Linked ∧ t.work.size = c.work ∧
        ∀ next u, t.enterClause prog limit id c = (.ok next, u) →
          u.Linked ∧ (∀ l ∈ next, l < u.work.size) ∧
          (∀ r, u.Follows prog next r ↔ r = u.resume prog next) ∧
          ∀ link, (u.resume prog next).1 ≠ .error (.brokenLink link) := by
  have hwork := (Over.run hrun (over_start pool ids args)).1.work_le
  obtain ⟨hlinked, hfound⟩ := linked_of_run hrun
  refine ⟨hlinked, hfound, hwork, fun c id t htries => ?_⟩
  -- A try starts from linked work, and entering the clause adds only links to work below it.
  obtain ⟨hback, hsize, hc⟩ := hlinked.tries htries hwork
  refine ⟨hback, hsize, fun next u hu => ?_⟩
  have henters := enterClause_linked hc prog limit id
  have hcalls := (enterClause_advances prog limit id c t).2
  rw [hu] at henters hcalls
  have hentered : u.Linked := ⟨henters.leads.linked hback.work, hcalls ▸ hback.calls⟩
  have hfollows : Follows prog next u (u.resume prog next) :=
    follows_follow hentered.work (henters.link_lt next rfl) (Nat.le_refl _)
  exact ⟨hentered, henters.link_lt next rfl,
    fun r => ⟨fun hr => hr.unique hfollows, fun hr => hr ▸ hfollows⟩, hfollows.ne_brokenLink⟩

/-- A search that goes on from a rule with an empty body, past results that wait behind it and
behind the rule that has called it. -/
theorem links_lead_down_empty_body :
    ∃ (db : Database Nat Nat) (s t u v : Search Nat Nat) (c : OpenCall) (id : ClauseId)
      (next : Option Nat), db.Reachable ∧
      Run db.program none (start db.pool [⟨1⟩] [⟨2⟩]) [] s ∧ s.Linked ∧
      s.calls.map (·.next) = [some 0, none] ∧ s.Tries c id t ∧ t.work.size = c.work ∧
      t.enterClause db.program none id c = (.ok next, u) ∧ u.Linked ∧
      (∀ l ∈ next, l < u.work.size) ∧ u.Follows db.program next (.ok .answered, v) ∧
      v.work.size = 4 := by
  obtain ⟨db, hdb, hsteps⟩ := Database.exists_reachable ⟨none, false⟩ 0
    [.addRule 0 [.fresh], .addRule 1 [.fresh], .addGoal ⟨1⟩ 0 [.param 0], .addVar]
    (fun db : Database Nat Nat =>
      (match (start db.pool [⟨1⟩] [⟨2⟩]).step db.program none with
      | .running s => s.calls.map (·.next) == [some 0, none] &&
        match s.step db.program none with
        | .answered v => v.work.size == 4
        | _ => false
      | _ => false) = true)
    (by decide +kernel)
  split at hsteps
  · next s hs =>
    obtain ⟨hlinks, hanswered⟩ := (Bool.and_eq_true _ _).mp hsteps
    split at hanswered
    · next v hv =>
      have hrun : Run db.program none (start db.pool [⟨1⟩] [⟨2⟩]) [] s := .running hs (.refl s)
      obtain ⟨hlinked, -, -, htried⟩ := links_lead_down hrun
      obtain ⟨c, id, t, htries, hanswers, rfl⟩ := tries_of_answered hv
      obtain ⟨-, hsize, hentered⟩ := htried c id t htries
      cases henter : t.enterClause db.program none id c with
      | mk x u =>
        cases x with
        | error failure =>
          simp only [tryClause, henter] at hanswers
          cases hanswers
        | ok next =>
          obtain ⟨hu, hlt, hfollows, -⟩ := hentered next u henter
          have htry : t.tryClause db.program none id c = u.resume db.program next := by
            simp only [tryClause, henter]
          have hresult : u.Follows db.program next (.ok .answered, (u.resume db.program next).2) :=
            (hfollows _).2 (Prod.ext (htry ▸ hanswers.symm) rfl)
          rw [htry] at hanswered
          exact ⟨db, s, t, u, _, c, id, next, hdb, hrun, hlinked, eq_of_beq hlinks, htries, hsize,
            henter, hu, hlt, hresult, eq_of_beq hanswered⟩
    · cases hanswered
  · cases hsteps

end Search

end Hornbase
