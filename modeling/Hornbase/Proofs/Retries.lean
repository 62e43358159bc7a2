import Hornbase.Command
import Hornbase.Proofs.Links
import Hornbase.Proofs.Refinement
import Hornbase.Proofs.Stores
import Mathlib.Data.List.Nodup

/-!
# Retries

When an open call is tried again, bindings, terms and waiting work that were added since are gone,
whatever they have come from: clauses that have failed on the way, calls that were opened above it
and are closed, answers that were found. What is left is the scene in which the call was opened, to
the last cell.

Nothing is repaired when a clause fails or a call is closed, so a single return has to undo what any
number of rounds have left. It can, because a return only ever goes back to a scene that all moves
since have started from: `Piled` says that each scene in which a call was opened leads to the one of
the call above it, and the uppermost to the present one. A record of the scenes is kept beside the
search for this (`Staged`).
-/

namespace Hornbase

universe u v

variable {N : Type u} {V : Type v}

/-! ## What the trail records -/

namespace Pool

/-- Whether the trail of `q` records, once each and from the mark of `p` on, the terms that `q`
binds and `p` does not. -/
structure Records (p q : Pool V) : Prop where
  nodup : (q.trail.toList.drop p.mark).Nodup
  mem_iff : ∀ t, t ∈ q.trail.toList.drop p.mark ↔ p.value? t = none ∧ (q.value? t).isSome

theorem records_refl (p : Pool V) : p.Records p := by
  have hnone : p.trail.toList.drop p.mark = [] := List.drop_eq_nil_of_le (Nat.le_refl _)
  refine ⟨hnone ▸ List.nodup_nil, fun t => ?_⟩
  rw [hnone]
  constructor
  · exact fun h => absurd h List.not_mem_nil
  · rintro ⟨hvalue, hsome⟩
    rw [hvalue] at hsome
    cases hsome

/-- Only terms of the pool are recorded. -/
theorem Records.lt {p q : Pool V} (h : p.Records q) {t : TermId}
    (ht : t ∈ q.trail.toList.drop p.mark) : t.index < q.size := by
  obtain ⟨v, hv⟩ := Option.isSome_iff_exists.1 ((h.mem_iff t).1 ht).2
  rw [← value?_values] at hv
  simpa using Store.lt_of_value? hv

/-- Binding an unbound term gives that term the value and changes no other. -/
theorem value?_assign_of_unbound {q : Pool V} {t : TermId} (h : q.term? t = some .unbound) (v : V)
    (u : TermId) : (q.assign t v).value? u = if t = u then some v else q.value? u := by
  simp only [value?, term?_assign]
  split
  · next heq => rw [← heq, h]; rfl
  · rfl

/-- A binding is recorded. -/
theorem Records.assign {p q : Pool V} (h : p.Records q) (hgrows : p.GrowsTo q) {t : TermId}
    (hunbound : q.term? t = some .unbound) (v : V) : p.Records (q.assign t v) := by
  have hnone : q.value? t = none := by rw [value?, hunbound]; rfl
  -- What is unbound now was unbound at the start, and the trail has not recorded it since.
  have hbase : p.value? t = none := by
    cases hvalue : p.value? t with
    | none => rfl
    | some w => rw [hgrows.value?_eq hvalue] at hnone; cases hnone
  have hnew : t ∉ q.trail.toList.drop p.mark := by
    intro ht
    have hsome := ((h.mem_iff t).1 ht).2
    rw [hnone] at hsome
    cases hsome
  have htrail : (q.assign t v).trail.toList.drop p.mark = q.trail.toList.drop p.mark ++ [t] := by
    have hmark : p.mark ≤ q.trail.toList.length := hgrows.mark_le
    simp only [Pool.assign, Array.toList_push, List.drop_append_of_le_length hmark]
  refine ⟨?_, fun u => ?_⟩
  · rw [htrail]
    exact List.nodup_append.2 ⟨h.nodup, List.nodup_singleton t, fun u hu w hw heq =>
      hnew (List.mem_singleton.1 hw ▸ heq ▸ hu)⟩
  · rw [htrail, List.mem_append, List.mem_singleton, h.mem_iff, value?_assign_of_unbound hunbound]
    by_cases heq : t = u
    · subst heq
      simp [hbase]
    · have hne : u ≠ t := fun h => heq h.symm
      simp [heq, hne]

/-- New terms that are unbound are not recorded. -/
theorem Records.addFrame {p q : Pool V} (h : p.Records q) (n : Nat) :
    p.Records (q.addFrame n).2 := by
  have hvalue : ∀ t, (q.addFrame n).2.value? t = q.value? t := fun t => by
    rw [← value?_values, ← value?_values, values_addFrame, Store.value?_append_replicate]
  exact ⟨h.nodup, fun t => by rw [hvalue]; exact h.mem_iff t⟩

end Pool

/-- Moves are recorded. -/
theorem Scene.Leads.records {a b : Scene N V} (h : a.Leads b) : a.pool.Records b.pool := by
  induction h with
  | refl => exact a.pool.records_refl
  | tail hleads hmove ih =>
    have hgrows := Scene.Leads.grows hleads
    cases hmove with
    | bind _ v hunbound => exact ih.assign hgrows hunbound v
    | lay _ _ n => exact ih.addFrame n
    | leave => exact ih

namespace Search

/-! ## The scenes of open calls -/

section

variable [DecidableEq N] [BEq V]

/-- The scenes in which calls were opened, after a clause was tried: if that has opened one more
call, it was opened in the scene that is left. -/
def scenesWith (scenes : List (Scene N V)) :
    Except Failure Standing × Search N V → List (Scene N V)
  | (.ok .called, t) => t.scene :: scenes
  | _ => scenes

/-- The scenes in which the calls were opened that are open after a round from `s`, where `scenes`
are those of the calls that are open before it; the latest comes first. -/
def scenesAfter (prog : Program N) (limit : Option Nat) (scenes : List (Scene N V))
    (s : Search N V) : List (Scene N V) :=
  match s.calls with
  | [] => scenes
  | c :: below =>
    match c.untried with
    | [] => scenes.tail
    | id :: rest =>
      scenesWith scenes
        ((rewind c { s with calls := { c with untried := rest } :: below }).tryClause
          prog limit id c)

/-- A search has come from the state `start` to `s`, and its open calls were opened in `scenes`. -/
inductive Staged (prog : Program N) (limit : Option Nat) (start : Search N V) :
    List (Scene N V) → Search N V → Prop
  | start : Staged prog limit start [start.scene] start
  | running {scenes : List (Scene N V)} {s t : Search N V} : Staged prog limit start scenes s →
    s.step prog limit = .running t → Staged prog limit start (scenesAfter prog limit scenes s) t
  | answered {scenes : List (Scene N V)} {s t : Search N V} : Staged prog limit start scenes s →
    s.step prog limit = .answered t →
    Staged prog limit start (scenesAfter prog limit scenes s) (t.report .retrying)

/-- The scenes are recorded all along a run. -/
theorem Staged.run {prog : Program N} {limit : Option Nat} {start s t : Search N V}
    {found : List (Search N V)} {scenes : List (Scene N V)}
    (h : Staged prog limit start scenes s) (hrun : Run prog limit s found t) :
    ∃ scenes, Staged prog limit start scenes t := by
  induction hrun generalizing scenes with
  | refl => exact ⟨scenes, h⟩
  | running hstep _ ih => exact ih (h.running hstep)
  | answered hstep _ ih => exact ih (h.answered hstep)

end

/-- Each scene in which a call was opened has the ends that the call remembers, and leads to the
scene of the call above it; the uppermost leads to `top`, and the first of all comes from `base`. -/
inductive Piled (base : Scene N V) : List OpenCall → List (Scene N V) → Scene N V → Prop
  | nil {top : Scene N V} : base.Leads top → Piled base [] [] top
  | cons {c : OpenCall} {below : List OpenCall} {a : Scene N V} {scenes : List (Scene N V)}
    {top : Scene N V} : c.mark = a.pool.mark → c.terms = a.pool.size → c.work = a.work.size →
    a.Leads top → Piled base below scenes a → Piled base (c :: below) (a :: scenes) top

variable {base top top' : Scene N V} {calls : List OpenCall} {scenes : List (Scene N V)}

/-- Moves from the uppermost scene change nothing below. -/
theorem Piled.mono (h : Piled base calls scenes top) (htop : top.Leads top') :
    Piled base calls scenes top' := by
  cases h with
  | nil hbase => exact .nil (hbase.trans htop)
  | cons hmark hterms hwork hleads hbelow =>
    exact .cons hmark hterms hwork (hleads.trans htop) hbelow

/-- All scenes come from the first. -/
theorem Piled.leads (h : Piled base calls scenes top) : base.Leads top := by
  induction h with
  | nil hbase => exact hbase
  | cons _ _ _ hleads _ ih => exact ih.trans hleads

/-- No call has its ends above those of the uppermost scene. -/
theorem Piled.le (h : Piled base calls scenes top) : ∀ c ∈ calls,
    c.mark ≤ top.pool.mark ∧ c.terms ≤ top.pool.size ∧ c.work ≤ top.work.size := by
  induction h with
  | nil => exact nofun
  | cons hmark hterms hwork hleads _ ih =>
    have hgrows := hleads.grows
    refine List.forall_mem_cons.2 ⟨?_, fun d hd => ?_⟩
    · rw [hmark, hterms, hwork]
      exact ⟨hgrows.mark_le, hgrows.size_le, hleads.size_le⟩
    · obtain ⟨hdmark, hdterms, hdwork⟩ := ih d hd
      exact ⟨Nat.le_trans hdmark hgrows.mark_le, Nat.le_trans hdterms hgrows.size_le,
        Nat.le_trans hdwork hleads.size_le⟩

/-- Down the stack of calls the ends never increase. -/
theorem Piled.pairwise (h : Piled base calls scenes top) : calls.Pairwise fun c d =>
    d.mark ≤ c.mark ∧ d.terms ≤ c.terms ∧ d.work ≤ c.work := by
  induction h with
  | nil => exact .nil
  | cons hmark hterms hwork _ hbelow ih =>
    refine .cons (fun d hd => ?_) ih
    rw [hmark, hterms, hwork]
    exact hbelow.le d hd

/-- Going back to where a scene ends gives the scene, whatever moves have been made from it. -/
theorem scene_rewind {a : Scene N V} {c : OpenCall} {s : Search N V} (hleads : a.Leads s.scene)
    (hmark : c.mark = a.pool.mark) (hterms : c.terms = a.pool.size) (hwork : c.work = a.work.size) :
    (rewind c s).scene = a := by
  have hadv : Advances ⟨a.pool, a.work, s.calls, s.log⟩ s := ⟨hleads.grows, hleads.work⟩
  rw [rewind_eq hadv hmark hterms hwork]
  rfl

/-- Going back to any of the open calls gives the scene in which it was opened. -/
theorem Piled.forall₂_rewind (h : Piled base calls scenes top) {s : Search N V}
    (htop : top.Leads s.scene) :
    calls.Forall₂ (fun c a => (rewind c s).scene = a) scenes := by
  induction h with
  | nil => exact .nil
  | cons hmark hterms hwork hleads _ ih =>
    have hfrom := hleads.trans htop
    exact .cons (scene_rewind hfrom hmark hterms hwork) (ih hfrom)

/-! ## What a round leaves -/

/-- A call that is tried again finds the scene in which it was opened. -/
theorem Piled.tries {s t : Search N V} {c : OpenCall} {id : ClauseId}
    (h : Piled base s.calls scenes s.scene) (htries : s.Tries c id t) :
    scenes.head? = some t.scene ∧ Piled base t.calls scenes t.scene := by
  obtain ⟨below, rest, hcalls, -, rfl⟩ := htries
  rw [hcalls] at h
  cases h with
  | cons hmark hterms hwork hleads hbelow =>
    have hscene := scene_rewind (s := { s with calls := { c with untried := rest } :: below })
      hleads hmark hterms hwork
    rw [hscene]
    exact ⟨rfl, .cons hmark hterms hwork (.refl _) hbelow⟩

variable [DecidableEq N] [BEq V] {prog : Program N} {limit : Option Nat}

theorem scenesAfter_of_tries {s t : Search N V} {c : OpenCall} {id : ClauseId}
    (htries : s.Tries c id t) :
    scenesAfter prog limit scenes s = scenesWith scenes (t.tryClause prog limit id c) := by
  obtain ⟨below, rest, hcalls, huntried, rfl⟩ := htries
  simp only [scenesAfter, hcalls, huntried]

omit [DecidableEq N] [BEq V] in
/-- Going on piles moves upon the uppermost scene, and perhaps the scene of a new call. -/
theorem Piled.goesOn {t : Search N V} {r : Except Failure Standing × Search N V}
    (h : Piled base t.calls scenes t.scene) (hgoes : t.GoesOn r) :
    Piled base r.2.calls (scenesWith scenes r) r.2.scene := by
  cases hgoes with
  | @stays x u hleads hcalls hx =>
    have hafter : Piled base u.calls scenes u.scene := hcalls ▸ h.mono hleads
    rcases x with _ | _ | _
    · exact hafter
    · exact hafter
    · exact absurd rfl hx
  | @calls u _ _ _ _ hleads hcalls _ =>
    have hafter : Piled base u.calls scenes u.scene := hcalls ▸ h.mono hleads
    exact .cons rfl rfl rfl (.refl _) hafter

/-- A round keeps the scenes piled and the links in order. -/
theorem Piled.step {s : Search N V} (h : Piled base s.calls scenes s.scene) (hlinked : s.Linked) :
    Piled base (s.step prog limit).state.calls (scenesAfter prog limit scenes s)
      (s.step prog limit).state.scene ∧ (s.step prog limit).state.Linked := by
  have hwork : ∀ d ∈ s.calls, d.work ≤ s.work.size := fun d hd => (h.le d hd).2.2
  refine ⟨?_, hlinked.step hwork limit⟩
  rcases s.step_cases prog limit with
    hcalls | ⟨c, below, hcalls, huntried, hstep⟩ | ⟨c, id, t, htries, hstep⟩
  · rw [step_of_calls_nil hcalls]
    simp only [scenesAfter, hcalls]
    exact h
  · -- A call is closed, and its scene goes with it.
    rw [hstep]
    simp only [scenesAfter, hcalls, huntried]
    rw [hcalls] at h
    cases h with
    | cons _ _ _ hleads hbelow => exact hbelow.mono hleads
  · -- A clause is tried in the scene of its call. A call that it opens stands in the scene it comes
    -- to.
    obtain ⟨ht, -, hc⟩ := hlinked.tries htries hwork
    have hgoes : t.GoesOn (t.tryClause prog limit id c) := tryClause_goesOn ht.work hc limit id
    have hafter := (h.tries htries).2.goesOn hgoes
    rw [scenesAfter_of_tries htries]
    rcases hstep with ⟨-, hstep⟩ | ⟨-, hstep⟩ | ⟨failure, -, hstep⟩ <;>
      (rw [hstep]; exact hafter)

/-- In every state that a search comes to, the scenes of its open calls are piled. -/
theorem piled_of_staged {start s : Search N V} (h : Staged prog limit start scenes s)
    (hstart : Piled base start.calls [start.scene] start.scene) (hlinked : start.Linked) :
    Piled base s.calls scenes s.scene ∧ s.Linked := by
  induction h with
  | start => exact ⟨hstart, hlinked⟩
  | @running scenes s t _ hstep ih =>
    have hafter : Piled base _ (scenesAfter prog limit scenes s) _ ∧ _ := ih.1.step ih.2
    rw [hstep] at hafter
    exact hafter
  | @answered scenes s t _ hstep ih =>
    have hafter : Piled base _ (scenesAfter prog limit scenes s) _ ∧ _ := ih.1.step ih.2
    rw [hstep] at hafter
    exact ⟨hafter.1, hafter.2.report _⟩

/-! ## The whole -/

/-- What a search over `pool` is in the state `s`, if its open calls were opened in `scenes`. -/
structure Restores (pool : Pool V) (scenes : List (Scene N V)) (s : Search N V) : Prop where
  /-- Going back to an open call gives the scene in which it was opened: the same terms with the
  same values and owners, the same trail, and the same work. -/
  rewind_eq : s.calls.Forall₂ (fun c a => (rewind c s).scene = a) scenes
  /-- So the latest call finds its scene when its next clause is tried. -/
  retried : ∀ c id t, s.Tries c id t → scenes.head? = some t.scene ∧ pool.Records t.pool
  /-- The trail has the terms once each that are bound now and were not at the start. -/
  recorded : pool.Records s.pool
  recorded_lt : ∀ t ∈ s.pool.trail.toList.drop pool.mark, s.pool.contains t = true
  /-- Down the stack of calls the ends that they remember never increase. -/
  pairwise : s.calls.Pairwise fun c d => d.mark ≤ c.mark ∧ d.terms ≤ c.terms ∧ d.work ≤ c.work

/-- Whatever a search has been through, each of its open calls is tried again in the scene in which
it was opened. -/
theorem restores_of_run {pool : Pool V} {ids : List ClauseId} {args : List TermId}
    {found : List (Search N V)} {s : Search N V}
    (hrun : Run prog limit (start pool ids args) found s) :
    ∃ scenes, Staged prog limit (start pool ids args) scenes s ∧ Restores pool scenes s := by
  obtain ⟨scenes, hstaged⟩ := Staged.start.run hrun
  have hstart : Piled (start (N := N) pool ids args).scene (start (N := N) pool ids args).calls
      [(start (N := N) pool ids args).scene] (start (N := N) pool ids args).scene :=
    .cons rfl rfl rfl (.refl _) (.nil (.refl _))
  obtain ⟨hpiled, -⟩ := piled_of_staged hstaged hstart (linked_start pool ids args)
  have hrecords : pool.Records s.pool := hpiled.leads.records
  exact ⟨scenes, hstaged,
    { rewind_eq := hpiled.forall₂_rewind (.refl _)
      retried := fun c id t htries => by
        obtain ⟨hhead, hback⟩ := hpiled.tries htries
        exact ⟨hhead, hback.leads.records⟩
      recorded := hrecords
      recorded_lt := fun t ht => decide_eq_true (hrecords.lt ht)
      pairwise := hpiled.pairwise }⟩

/-- A call is tried again after a rule that has left a frame and its body behind and failed. -/
theorem restores_of_run_after_failure :
    ∃ (db : Database Nat Nat) (s t : Search Nat Nat) (c : OpenCall)
      (scenes : List (Scene Nat Nat)), db.Reachable ∧
      Run db.program none (start db.pool [⟨2⟩] [⟨3⟩]) [] s ∧ s.Tries c ⟨1⟩ t ∧
      t.pool.size < s.pool.size ∧ t.work.size < s.work.size ∧
      Staged db.program none (start db.pool [⟨2⟩] [⟨3⟩]) scenes s ∧
      scenes.head? = some t.scene ∧ Restores db.pool scenes s := by
  obtain ⟨db, hdb, hsteps⟩ := Database.exists_reachable ⟨none, false⟩ 0
    [.addRule 0 [.fresh], .addGoal ⟨0⟩ 9 [.param 0], .addFact 0 [2], .addRule 1 [.fresh],
      .addGoal ⟨2⟩ 0 [.param 0], .addVar]
    (fun db : Database Nat Nat =>
      (match (start db.pool [⟨2⟩] [⟨3⟩]).step db.program none with
      | .running r =>
        match r.step db.program none with
        | .running s =>
          s.calls.map (fun c => (c.untried, c.terms, c.work)) == [([⟨1⟩], 5, 2), ([], 4, 0)] &&
            (s.pool.size == 6 && s.work.size == 4)
        | _ => false
      | _ => false) = true)
    (by decide +kernel)
  split at hsteps
  · next r hr =>
    split at hsteps
    · next s hs =>
      obtain ⟨hcalls, hsizes⟩ := (Bool.and_eq_true _ _).mp hsteps
      obtain ⟨hpool, hwork⟩ := (Bool.and_eq_true _ _).mp hsizes
      have hrun : Run db.program none (start db.pool [⟨2⟩] [⟨3⟩]) [] s :=
        .running hr (.running hs (.refl s))
      obtain ⟨scenes, hstaged, hrestores⟩ := restores_of_run hrun
      have hcalls := eq_of_beq hcalls
      cases hlist : s.calls with
      | nil => rw [hlist] at hcalls; cases hcalls
      | cons c below =>
        rw [hlist, List.map_cons] at hcalls
        obtain ⟨huntried, hterms, hleft⟩ : c.untried = [⟨1⟩] ∧ c.terms = 5 ∧ c.work = 2 := by
          simpa using (List.cons.inj hcalls).1
        have htries : s.Tries c ⟨1⟩
            (rewind c { s with calls := { c with untried := [] } :: below }) :=
          ⟨below, [], hlist, huntried, rfl⟩
        refine ⟨db, s, _, c, scenes, hdb, hrun, htries, ?_, ?_, hstaged,
          (hrestores.retried c ⟨1⟩ _ htries).1, hrestores⟩
        · have hsize : s.pool.size = 6 := eq_of_beq hpool
          simp [rewind, hterms, hsize]
        · have hsize : s.work.size = 4 := eq_of_beq hwork
          simp [rewind, hleft, hsize]
    · cases hsteps
  · cases hsteps

end Search

end Hornbase
