import Hornbase.Proofs.Edits

/-!
# Dating what a search adds

A search cuts its pool and its work back and adds to them again, so the same position means one
thing at one time and another later. A `Ledger` tells them apart: it dates every term, every piece
of work and every open call by the try in which it was added, and lists the clauses that were tried.
The search itself keeps no such record.

With dates it can be said that a reference is still good: what it refers to is there and no younger
than the reference (`Ledger.Accounts`). The watermarks of an open call separate what is as old as
the call from what is younger, so whatever the search cuts off is younger than the references that
are left. This module shows that rewinding and laying out a frame leave all accounts in order.
-/

namespace Hornbase

universe u v

variable {N : Type u} {V : Type v}

/-- Whether `t` is a term of the frame. -/
def Frame.Holds (f : Frame) (t : TermId) : Prop := f.base ≤ t.index ∧ t.index < f.base + f.size

namespace Search

/-! ## Ledgers -/

/-- The tries of a search and the dates of what is there. Try 0 is the start of the search, and no
date lies ahead. A position beyond the end has the present date, which is that of whatever is added
there next. -/
structure Ledger where
  /-- The number of the present try. -/
  now : Nat
  /-- The clause of each try. -/
  clause : Nat → Option ClauseId
  /-- The try in which the term at each position was added. -/
  terms : Nat → Nat
  /-- The try in which the work at each position was left. -/
  work : Nat → Nat
  /-- The try in which the open call with so many calls below it was opened. -/
  calls : Nat → Nat
  clause_zero : clause 0 = none
  terms_le : ∀ i, terms i ≤ now
  work_le : ∀ i, work i ≤ now
  calls_le : ∀ k, calls k ≤ now

/-- The first `k` dates, and the date `now` from there on. -/
def redate (dates : Nat → Nat) (k now : Nat) : Nat → Nat := fun i => if i < k then dates i else now

theorem redate_of_lt {dates : Nat → Nat} {k now i : Nat} (h : i < k) :
    redate dates k now i = dates i := if_pos h

theorem redate_of_le {dates : Nat → Nat} {k now i : Nat} (h : k ≤ i) :
    redate dates k now i = now := if_neg (Nat.not_lt_of_le h)

theorem redate_le {dates : Nat → Nat} {now now' : Nat} (h : ∀ i, dates i ≤ now) (hnow : now ≤ now')
    (k i : Nat) : redate dates k now' i ≤ now' := by
  unfold redate
  split
  · exact Nat.le_trans (h i) hnow
  · exact Nat.le_refl now'

namespace Ledger

/-- The ledger before the first try. -/
def start : Ledger where
  now := 0
  clause _ := none
  terms _ := 0
  work _ := 0
  calls _ := 0
  clause_zero := rfl
  terms_le _ := Nat.le_refl 0
  work_le _ := Nat.le_refl 0
  calls_le _ := Nat.le_refl 0

/-- The ledger after a call with `height` calls below it was closed. -/
def close (L : Ledger) (height : Nat) : Ledger :=
  { L with
    calls := redate L.calls height L.now
    calls_le := redate_le L.calls_le (Nat.le_refl _) height }

/-- The ledger of the next try, of the clause `id` for the call `c`, the latest of `height` calls.
Terms and work above the watermarks of the call are cut off. -/
def begin (L : Ledger) (id : ClauseId) (c : OpenCall) (height : Nat) : Ledger where
  now := L.now + 1
  clause a := if a = L.now + 1 then some id else L.clause a
  terms := redate L.terms c.terms (L.now + 1)
  work := redate L.work c.work (L.now + 1)
  calls := redate L.calls height (L.now + 1)
  clause_zero := (if_neg (Nat.succ_ne_zero _).symm).trans L.clause_zero
  terms_le := redate_le L.terms_le (Nat.le_succ _) c.terms
  work_le := redate_le L.work_le (Nat.le_succ _) c.work
  calls_le := redate_le L.calls_le (Nat.le_succ _) height

section

variable (L : Ledger) (id : ClauseId) (c : OpenCall) {height i : Nat}

theorem close_calls (h : i < height) : (L.close height).calls i = L.calls i := redate_of_lt h

theorem begin_clause_of_le (h : i ≤ L.now) : (L.begin id c height).clause i = L.clause i :=
  if_neg (by omega)

theorem begin_terms (h : i < c.terms) : (L.begin id c height).terms i = L.terms i := redate_of_lt h

theorem begin_work (h : i < c.work) : (L.begin id c height).work i = L.work i := redate_of_lt h

theorem begin_calls (h : i < height) : (L.begin id c height).calls i = L.calls i := redate_of_lt h

end

/-- The ledger after one round from the state `s`. -/
def next (L : Ledger) (s : Search N V) : Ledger :=
  match s.calls with
  | [] => L
  | c :: below =>
    match c.untried with
    | [] => L.close below.length
    | id :: _ => L.begin id c (below.length + 1)

end Ledger

/-- A search has come from the state `start` to `s`, and `L` is its ledger. -/
inductive Recorded [DecidableEq N] [BEq V] (prog : Program N) (limit : Option Nat)
    (start : Search N V) : Ledger → Search N V → Prop
  | start : Recorded prog limit start .start start
  | running {L : Ledger} {s t : Search N V} : Recorded prog limit start L s →
      s.step prog limit = .running t → Recorded prog limit start (L.next s) t
  | answered {L : Ledger} {s t : Search N V} : Recorded prog limit start L s →
      s.step prog limit = .answered t → Recorded prog limit start (L.next s) (t.report .retrying)

/-- Every state that a search comes to has a ledger. -/
theorem Recorded.run [DecidableEq N] [BEq V] {prog : Program N} {limit : Option Nat}
    {start s t : Search N V} {found : List (Search N V)} {L : Ledger}
    (h : Recorded prog limit start L s) (hrun : Run prog limit s found t) :
    ∃ L, Recorded prog limit start L t := by
  induction hrun generalizing L with
  | refl s => exact ⟨L, h⟩
  | running hstep _ ih => exact ih (h.running hstep)
  | answered hstep _ ih => exact ih (h.answered hstep)

namespace Ledger

/-! ## References -/

/-- The rule `r` was entered in the try `a`, and the terms of its frame `f` are still there: they
are the terms of that date. -/
structure Laid (prog : Program N) (L : Ledger) (size a : Nat) (r : Rule N) (f : Frame) : Prop where
  rule : ∃ id, L.clause a = some id ∧ prog.clause? id = some (.rule r)
  size_eq : f.size = r.locals.length
  holds_iff : ∀ t : TermId, f.Holds t ↔ t.index < size ∧ L.terms t.index = a

/-- Whether `t` is a term of the pool of that size, and no younger than `b`. -/
def Present (L : Ledger) (size b : Nat) (t : TermId) : Prop :=
  t.index < size ∧ L.terms t.index ≤ b

/-- What work that was left at `position` in the try `b` refers to is still there. The goals are the
last ones of a rule that was entered then or earlier. Results come from the frame of the rule that
was entered then, and go to terms that are older. Links lead further down. -/
def Accounted (prog : Program N) (L : Ledger) (size b position : Nat) : Work N → Prop
  | .goals rest f _ next =>
    (∃ a r, a ≤ b ∧ L.Laid prog size a r f ∧ rest <:+ r.body) ∧ ∀ l ∈ next, l < position
  | .results pairs next =>
    (∃ r f, L.Laid prog size b r f ∧ ∀ x ∈ pairs, f.Holds x.1 ∧
      x.2.index < size ∧ L.terms x.2.index < b) ∧ ∀ l ∈ next, l < position

/-- What an open call of the date `b` refers to is still there. Its arguments are those of the query
or of a goal of a rule that was entered then or earlier. Its watermarks separate what was there
then from what is younger. -/
structure Opened (prog : Program N) (args : List TermId) (L : Ledger) (size work b : Nat)
    (c : OpenCall) : Prop where
  stored : ∀ id ∈ c.untried, ∃ clause, prog.clause? id = some clause
  present : ∀ t ∈ c.args, L.Present size b t
  source : (b = 0 ∧ c.args = args) ∨
    ∃ a r f, a ≤ b ∧ L.Laid prog size a r f ∧ ∃ g ∈ r.body, c.args = g.args.map f.term
  terms_iff : ∀ i, i < c.terms ↔ i < size ∧ L.terms i ≤ b
  work_iff : ∀ i, i < c.work ↔ i < work ∧ L.work i ≤ b
  link : ∀ l ∈ c.next, l < c.work

/-- All references of a search are still good. Its pool has `size` terms, of which the first `old`
were there before it, and it was started for `args`. -/
structure Accounts (prog : Program N) (old : Nat) (args : List TermId) (L : Ledger) (size : Nat)
    (work : Array (Work N)) (calls : List OpenCall) : Prop where
  terms_zero : ∀ i, i < old ↔ i < size ∧ L.terms i = 0
  terms_new : ∀ i, size ≤ i → L.terms i = L.now
  work_new : ∀ i, work.size ≤ i → L.work i = L.now
  calls_new : ∀ k, calls.length ≤ k → L.calls k = L.now
  accounted : ∀ i w, work[i]? = some w → L.Accounted prog size (L.work i) i w
  opened : ∀ c below, c :: below <:+ calls →
    L.Opened prog args size work.size (L.calls below.length) c

/-- The present try is of the clause `id`, and nothing has been added in it. -/
structure Begins (L : Ledger) (id : ClauseId) (size work calls : Nat) : Prop where
  clause_eq : L.clause L.now = some id
  pos : 0 < L.now
  terms_lt : ∀ i < size, L.terms i < L.now
  work_lt : ∀ i < work, L.work i < L.now
  calls_lt : ∀ k < calls, L.calls k < L.now

variable {prog : Program N} {old size work a b : Nat} {args : List TermId} {L : Ledger}

/-- The terms of different tries are different terms. -/
theorem Laid.apart {a' : Nat} {r r' : Rule N} {f f' : Frame} (h : L.Laid prog size a r f)
    (h' : L.Laid prog size a' r' f') (hne : a ≠ a') (t : TermId) : ¬ (f.Holds t ∧ f'.Holds t) := by
  rintro ⟨hf, hf'⟩
  exact hne (((h.holds_iff t).1 hf).2.symm.trans ((h'.holds_iff t).1 hf').2)

/-- A frame has none of the terms that were there before the search. -/
theorem Laid.beyond {r : Rule N} {f : Frame} {work : Array (Work N)} {calls : List OpenCall}
    (hlaid : L.Laid prog size a r f) (h : L.Accounts prog old args size work calls) {t : TermId}
    (ht : f.Holds t) : old ≤ t.index := by
  refine Nat.le_of_not_lt fun hlt => ?_
  obtain ⟨id, hclause, -⟩ := hlaid.rule
  have hdate := ((h.terms_zero t.index).1 hlt).2
  rw [← ((hlaid.holds_iff t).1 ht).2, hdate, L.clause_zero] at hclause
  cases hclause

/-- The arguments of a goal are there if the frame of its rule is. -/
theorem Laid.present {p : Pool V} {r : Rule N} {f : Frame} (h : L.Laid prog size a r f)
    (hold : ∀ i, i < p.size ↔ i < size ∧ L.terms i = 0) (hab : a ≤ b) {o : Operand}
    (ho : o.Valid p r.locals.length) : L.Present size b (f.term o) := by
  cases o with
  | var n =>
    have hn : n < r.locals.length := ho
    have hholds : f.Holds (f.nth n) :=
      ⟨Nat.le_add_right _ _, Nat.add_lt_add_left (h.size_eq ▸ hn) _⟩
    obtain ⟨hlt, hdate⟩ := (h.holds_iff _).1 hholds
    exact ⟨hlt, Nat.le_trans (Nat.le_of_eq hdate) hab⟩
  | const t =>
    obtain ⟨hlt, hdate⟩ := (hold t.index).1 (Pool.Fixed.lt ho)
    exact ⟨hlt, Nat.le_trans (Nat.le_of_eq hdate) (Nat.zero_le b)⟩

/-! ## What keeps references good -/

/-- The ledgers `L` and `L'`, for pools of their sizes, list the same tries and terms up to the
date `b`. -/
structure Agrees (b : Nat) (L : Ledger) (size : Nat) (L' : Ledger) (size' : Nat) : Prop where
  clause_eq : ∀ a ≤ b, L'.clause a = L.clause a
  terms_iff : ∀ i, ∀ a ≤ b, i < size' ∧ L'.terms i = a ↔ i < size ∧ L.terms i = a

variable {L' : Ledger} {size' : Nat}

theorem Agrees.laid (h : L.Agrees b size L' size') {r : Rule N} {f : Frame} (hab : a ≤ b)
    (hlaid : L.Laid prog size a r f) : L'.Laid prog size' a r f where
  rule := by
    rw [h.clause_eq a hab]
    exact hlaid.rule
  size_eq := hlaid.size_eq
  holds_iff t := (hlaid.holds_iff t).trans (h.terms_iff t.index a hab).symm

theorem Agrees.present (h : L.Agrees b size L' size') {t : TermId} (ht : L.Present size b t) :
    L'.Present size' b t := by
  obtain ⟨hlt, hdate⟩ := ht
  obtain ⟨hlt', hdate'⟩ := (h.terms_iff t.index _ hdate).2 ⟨hlt, rfl⟩
  exact ⟨hlt', by omega⟩

theorem Agrees.accounted (h : L.Agrees b size L' size') {position : Nat} {w : Work N}
    (hw : L.Accounted prog size b position w) : L'.Accounted prog size' b position w := by
  cases w with
  | goals rest f depth next =>
    obtain ⟨⟨a, r, hab, hlaid, hrest⟩, hlink⟩ := hw
    exact ⟨⟨a, r, hab, h.laid hab hlaid, hrest⟩, hlink⟩
  | results pairs next =>
    obtain ⟨⟨r, f, hlaid, hpairs⟩, hlink⟩ := hw
    refine ⟨⟨r, f, h.laid (Nat.le_refl b) hlaid, fun x hx => ?_⟩, hlink⟩
    obtain ⟨hpart, hlt, hdate⟩ := hpairs x hx
    obtain ⟨hlt', hdate'⟩ := (h.terms_iff x.2.index _ (Nat.le_of_lt hdate)).2 ⟨hlt, rfl⟩
    exact ⟨hpart, hlt', by omega⟩

/-- A call keeps what it refers to if the ledgers agree up to its date, about the work too. -/
theorem Agrees.opened (h : L.Agrees b size L' size') {work' : Nat} {c : OpenCall}
    (hwork : ∀ i, i < work' ∧ L'.work i ≤ b ↔ i < work ∧ L.work i ≤ b)
    (hc : L.Opened prog args size work b c) : L'.Opened prog args size' work' b c where
  stored := hc.stored
  present t ht := h.present (hc.present t ht)
  source := by
    refine hc.source.imp_right ?_
    rintro ⟨a, r, f, hab, hlaid, hgoal⟩
    exact ⟨a, r, f, hab, h.laid hab hlaid, hgoal⟩
  terms_iff i := by
    refine (hc.terms_iff i).trans ⟨fun ⟨hlt, hdate⟩ => ?_, fun ⟨hlt, hdate⟩ => ?_⟩
    · obtain ⟨hlt', hdate'⟩ := (h.terms_iff i _ hdate).2 ⟨hlt, rfl⟩
      exact ⟨hlt', by omega⟩
    · obtain ⟨hlt', hdate'⟩ := (h.terms_iff i _ hdate).1 ⟨hlt, rfl⟩
      exact ⟨hlt', by omega⟩
  work_iff i := (hc.work_iff i).trans (hwork i).symm
  link := hc.link

/-- What is added to the pool is younger than all references from earlier tries. -/
theorem agrees_of_new (hb : b < L.now) (hnew : ∀ i, size ≤ i → L.terms i = L.now)
    (hsize : size ≤ size') : L.Agrees b size L size' where
  clause_eq _ _ := rfl
  terms_iff i a hab := by
    refine ⟨fun ⟨_, hdate⟩ => ?_, fun ⟨hlt, hdate⟩ => ⟨Nat.lt_of_lt_of_le hlt hsize, hdate⟩⟩
    rcases Nat.lt_or_ge i size with hlt | hge
    · exact ⟨hlt, hdate⟩
    · rw [hnew i hge] at hdate
      omega

/-- Closing a call changes no dates of terms. -/
theorem agrees_close (L : Ledger) (size b height : Nat) :
    L.Agrees b size (L.close height) size where
  clause_eq _ _ := rfl
  terms_iff _ _ _ := Iff.rfl

/-- Cutting the pool back to a watermark keeps what is older than all that is cut off. -/
theorem agrees_begin (id : ClauseId) {c : OpenCall} {height : Nat} (hb : b ≤ L.now)
    (hle : c.terms ≤ size) (hcut : ∀ i < size, L.terms i ≤ b → i < c.terms) :
    L.Agrees b size (L.begin id c height) c.terms where
  clause_eq a hab := L.begin_clause_of_le id c (Nat.le_trans hab hb)
  terms_iff i a hab := by
    refine ⟨fun ⟨hlt, hdate⟩ => ?_, fun ⟨hlt, hdate⟩ => ?_⟩
    · rw [L.begin_terms id c hlt] at hdate
      exact ⟨Nat.lt_of_lt_of_le hlt hle, hdate⟩
    · have hkept := hcut i hlt (by omega)
      exact ⟨hkept, (L.begin_terms id c hkept).trans hdate⟩

/-! ## Changes of the stacks -/

variable {work : Array (Work N)} {calls below : List OpenCall} {c : OpenCall}

/-- A search that has not tried anything has its accounts in order. -/
theorem accounts_start {ids : List ClauseId}
    (hstored : ∀ id ∈ ids, ∃ clause, prog.clause? id = some clause)
    (hargs : ∀ t ∈ args, t.index < size) (mark : Nat) :
    start.Accounts prog size args size #[] [⟨ids, args, 0, none, mark, size, 0⟩] where
  terms_zero i := (and_iff_left rfl).symm
  terms_new _ _ := rfl
  work_new _ _ := rfl
  calls_new _ _ := rfl
  accounted i w hw := by simp at hw
  opened c rest hc := by
    rcases List.suffix_cons_iff.1 hc with heq | hnil
    · obtain ⟨rfl, rfl⟩ := List.cons.inj heq
      refine ⟨hstored, fun t ht => ⟨hargs t ht, Nat.le_refl 0⟩, .inl ⟨rfl, rfl⟩, fun i => ?_,
        fun i => ?_, nofun⟩
      · exact (and_iff_left (Nat.le_refl 0)).symm
      · simp
    · cases List.suffix_nil.1 hnil

/-- Closing the latest call. -/
theorem Accounts.close (h : L.Accounts prog old args size work (c :: below)) :
    (L.close below.length).Accounts prog old args size work below where
  terms_zero := h.terms_zero
  terms_new := h.terms_new
  work_new := h.work_new
  calls_new k hk := redate_of_le hk
  accounted i w hw := (L.agrees_close size _ _).accounted (h.accounted i w hw)
  opened d rest hd := by
    rw [L.close_calls hd.length_le]
    have hopened := h.opened d rest (hd.trans (List.suffix_cons c below))
    exact (L.agrees_close size _ _).opened (fun _ => Iff.rfl) hopened

theorem Opened.terms_le {work : Nat} (h : L.Opened prog args size work b c) : c.terms ≤ size := by
  rcases Nat.lt_or_ge size c.terms with hlt | hge
  · exact absurd ((h.terms_iff size).1 hlt).1 (Nat.lt_irrefl size)
  · exact hge

theorem Opened.work_le {work : Nat} (h : L.Opened prog args size work b c) : c.work ≤ work := by
  rcases Nat.lt_or_ge work c.work with hlt | hge
  · exact absurd ((h.work_iff work).1 hlt).1 (Nat.lt_irrefl work)
  · exact hge

/-- Going back to the latest call keeps what is no younger than one of the open calls. -/
theorem Accounts.agrees_begin (h : L.Accounts prog old args size work (c :: below))
    (hmarks : ∀ d ∈ c :: below, d.terms ≤ c.terms ∧ d.work ≤ c.work) (id : ClauseId)
    {d : OpenCall} {rest : List OpenCall} (hd : d :: rest <:+ c :: below)
    (hb : b ≤ L.calls rest.length) :
    L.Agrees b size (L.begin id c (below.length + 1)) c.terms ∧
      ∀ i, i < c.work ∧ (L.begin id c (below.length + 1)).work i ≤ b ↔
        i < work.size ∧ L.work i ≤ b := by
  have hopened := h.opened d rest hd
  have hmark := hmarks d (hd.subset (List.mem_cons_self ..))
  have hc := h.opened c below List.suffix_rfl
  have hnow : b ≤ L.now := Nat.le_trans hb (L.calls_le _)
  -- What `d` has found stands below the marks of `c`, so the cut behind them keeps its date.
  refine ⟨Ledger.agrees_begin id hnow hc.terms_le fun i hi hdate => ?_, fun i => ?_⟩
  · have hlt := (hopened.terms_iff i).2 ⟨hi, Nat.le_trans hdate hb⟩
    exact Nat.lt_of_lt_of_le hlt hmark.1
  · constructor
    · rintro ⟨hlt, hdate⟩
      rw [L.begin_work id c hlt] at hdate
      exact ⟨Nat.lt_of_lt_of_le hlt hc.work_le, hdate⟩
    · rintro ⟨hlt, hdate⟩
      have hkept := Nat.lt_of_lt_of_le ((hopened.work_iff i).2 ⟨hlt, Nat.le_trans hdate hb⟩) hmark.2
      rw [L.begin_work id c hkept]
      exact ⟨hkept, hdate⟩

/-- The open calls are as they were after going back to the latest of them. -/
theorem Accounts.opened_begin (h : L.Accounts prog old args size work (c :: below))
    (hmarks : ∀ d ∈ c :: below, d.terms ≤ c.terms ∧ d.work ≤ c.work) (id : ClauseId)
    {d : OpenCall} {rest : List OpenCall} (hd : d :: rest <:+ c :: below) :
    (L.begin id c (below.length + 1)).Opened prog args c.terms c.work
      ((L.begin id c (below.length + 1)).calls rest.length) d := by
  have hlt : rest.length < below.length + 1 := hd.length_le
  obtain ⟨hkept, hkeptWork⟩ := h.agrees_begin hmarks id hd (Nat.le_refl _)
  rw [L.begin_calls id c hlt]
  exact hkept.opened hkeptWork (h.opened d rest hd)

/-- Going back to the latest call, to try one of its clauses. -/
theorem Accounts.begin (h : L.Accounts prog old args size work (c :: below))
    (hmarks : ∀ d ∈ c :: below, d.terms ≤ c.terms ∧ d.work ≤ c.work) (id : ClauseId)
    {rest : List ClauseId} (huntried : ∀ i ∈ rest, i ∈ c.untried) :
    (L.begin id c (below.length + 1)).Accounts prog old args c.terms (work.shrink c.work)
      ({ c with untried := rest } :: below) := by
  have hc := h.opened c below List.suffix_rfl
  have hsize : (work.shrink c.work).size = c.work := by
    rw [Array.size_shrink, Nat.min_eq_left hc.work_le]
  -- Whatever lies behind the marks is cut off and gets the date of the activation that begins.
  exact {
    terms_zero := fun i => by
      have hkept := (h.agrees_begin hmarks id List.suffix_rfl (Nat.zero_le _)).1
      exact (h.terms_zero i).trans (hkept.terms_iff i 0 (Nat.le_refl 0)).symm
    terms_new := fun i hi => redate_of_le hi
    work_new := fun i hi => redate_of_le (hsize ▸ hi)
    calls_new := fun k hk => redate_of_le hk
    accounted := fun i w hw => by
      -- What is left of the work is no younger than the call.
      have hi : i < c.work := hsize ▸ (Array.getElem?_eq_some_iff.1 hw).1
      have hw' : work[i]? = some w := by
        rwa [← Array.getElem?_toList, Array.toList_shrink, List.getElem?_take_of_lt hi,
          Array.getElem?_toList] at hw
      have hkept := (h.agrees_begin hmarks id List.suffix_rfl ((hc.work_iff i).1 hi).2).1
      rw [L.begin_work id c hi]
      exact hkept.accounted (h.accounted i w hw')
    opened := fun d rest' hd => by
      rw [hsize]
      rcases List.suffix_cons_iff.1 hd with heq | hd
      · -- The innermost call itself: some of its clauses are untried no longer.
        obtain ⟨rfl, rfl⟩ := List.cons.inj heq
        have hcall := h.opened_begin hmarks id List.suffix_rfl
        exact ⟨fun i hi => hcall.stored i (huntried i hi), hcall.present, hcall.source,
          hcall.terms_iff, hcall.work_iff, hcall.link⟩
      · exact h.opened_begin hmarks id (hd.trans (List.suffix_cons c below)) }

/-- Nothing is added by going back. -/
theorem Accounts.begins (h : L.Accounts prog old args size work (c :: below)) (id : ClauseId) :
    (L.begin id c (below.length + 1)).Begins id c.terms c.work (below.length + 1) := by
  have hc := h.opened c below List.suffix_rfl
  refine ⟨if_pos rfl, Nat.succ_pos _, fun i hi => ?_, fun i hi => ?_, fun k hk => ?_⟩
  · rw [L.begin_terms id c hi]
    exact Nat.lt_succ_of_le (L.terms_le i)
  · rw [L.begin_work id c hi]
    exact Nat.lt_succ_of_le (L.work_le i)
  · rw [L.begin_calls id c hk]
    exact Nat.lt_succ_of_le (L.calls_le k)

/-- Laying out a frame in a try that has not added anything. -/
theorem Accounts.lay (h : L.Accounts prog old args size work calls) {id : ClauseId}
    (hbegins : L.Begins id size work.size calls.length) (n : Nat) :
    L.Accounts prog old args (size + n) work calls where
  terms_zero i := by
    have hagrees := agrees_of_new hbegins.pos h.terms_new (Nat.le_add_right size n)
    exact (h.terms_zero i).trans (hagrees.terms_iff i 0 (Nat.le_refl 0)).symm
  terms_new i hi := h.terms_new i (by omega)
  work_new := h.work_new
  calls_new := h.calls_new
  accounted i w hw := by
    have hdate := hbegins.work_lt i (Array.getElem?_eq_some_iff.1 hw).1
    have hagrees := agrees_of_new hdate h.terms_new (Nat.le_add_right size n)
    exact hagrees.accounted (h.accounted i w hw)
  opened c below hc := by
    have hdate := hbegins.calls_lt _ hc.length_le
    have hagrees := agrees_of_new hdate h.terms_new (Nat.le_add_right size n)
    exact hagrees.opened (fun _ => Iff.rfl) (h.opened c below hc)

/-- The terms of the new frame are those that have been added in this try. -/
theorem Accounts.laid (h : L.Accounts prog old args size work calls) {id : ClauseId}
    (hbegins : L.Begins id size work.size calls.length) {r : Rule N}
    (hr : prog.clause? id = some (.rule r)) :
    L.Laid prog (size + r.locals.length) L.now r ⟨size, r.locals.length⟩ where
  rule := ⟨id, hbegins.clause_eq, hr⟩
  size_eq := rfl
  holds_iff t := by
    constructor
    · rintro ⟨hge, hlt⟩
      exact ⟨hlt, h.terms_new _ hge⟩
    · rintro ⟨hlt, hdate⟩
      refine ⟨Nat.le_of_not_lt fun hold => ?_, hlt⟩
      exact absurd hdate (Nat.ne_of_lt (hbegins.terms_lt _ hold))

/-- Leaving work behind. -/
theorem Accounts.push (h : L.Accounts prog old args size work calls)
    (hcalls : ∀ k < calls.length, L.calls k < L.now) {w : Work N}
    (hw : L.Accounted prog size L.now work.size w) :
    L.Accounts prog old args size (work.push w) calls where
  terms_zero := h.terms_zero
  terms_new := h.terms_new
  work_new i hi := by
    rw [Array.size_push] at hi
    exact h.work_new i (Nat.le_of_succ_le hi)
  calls_new := h.calls_new
  accounted i v hv := by
    rw [Array.getElem?_push] at hv
    split at hv
    · next heq =>
      obtain rfl := Option.some.inj hv
      -- The new work has today's date, up to which `hw` accounts for it.
      rw [heq, h.work_new _ (Nat.le_refl _)]
      exact hw
    · exact h.accounted i v hv
  opened c below hc := by
    have hopened := h.opened c below hc
    have hdate := hcalls _ hc.length_le
    refine ⟨hopened.stored, hopened.present, hopened.source, hopened.terms_iff, fun i => ?_,
      hopened.link⟩
    rw [hopened.work_iff i, Array.size_push]
    refine ⟨fun ⟨hlt, hi⟩ => ⟨Nat.lt_succ_of_lt hlt, hi⟩, fun ⟨_, hi⟩ => ⟨?_, hi⟩⟩
    -- The new work is younger than the call.
    rcases Nat.lt_or_ge i work.size with hlt | hge
    · exact hlt
    · rw [h.work_new i hge] at hi
      omega

/-- Opening a call for a goal. -/
theorem Accounts.open (h : L.Accounts prog old args size work calls)
    (hstored : ∀ id ∈ c.untried, ∃ clause, prog.clause? id = some clause)
    (hpresent : ∀ t ∈ c.args, L.Present size L.now t)
    (hsource : ∃ a r f, a ≤ L.now ∧ L.Laid prog size a r f ∧
      ∃ g ∈ r.body, c.args = g.args.map f.term)
    (hterms : c.terms = size) (hwork : c.work = work.size) (hlink : ∀ l ∈ c.next, l < work.size) :
    L.Accounts prog old args size work (c :: calls) where
  terms_zero := h.terms_zero
  terms_new := h.terms_new
  work_new := h.work_new
  calls_new k hk := h.calls_new k (Nat.le_of_succ_le hk)
  accounted := h.accounted
  opened d rest hd := by
    rcases List.suffix_cons_iff.1 hd with heq | hd
    · obtain ⟨rfl, rfl⟩ := List.cons.inj heq
      -- A call opened now finds all that is there, whatever its date.
      rw [h.calls_new _ (Nat.le_refl _)]
      refine ⟨hstored, hpresent, .inr hsource, fun i => ?_, fun i => ?_, hwork ▸ hlink⟩
      · rw [hterms]
        exact ⟨fun hi => ⟨hi, L.terms_le i⟩, And.left⟩
      · rw [hwork]
        exact ⟨fun hi => ⟨hi, L.work_le i⟩, And.left⟩
    · exact h.opened d rest hd

end Ledger

end Search

end Hornbase
