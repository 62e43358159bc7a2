import Hornbase.Proofs.Renaming

/-!
# Programs without some of their clauses

If clauses are left out of a program that only repeat what an earlier clause of their name says,
with values that compare alike, then nothing is lost. The branches through the smaller program are
those of the greater one, without some that each follow a branch through the same clauses up to such
values (`thins_branches`). A branch that is left out succeeds exactly if the earlier one does, so it
never gives the first answer, and the answer that it gives is matched by one that stays
(`thins_answers`).

What it means for a list to be thinned in this way is `Thins`. That an element is left out only
behind one that stands for it is all that makes the first success the same on both sides.
-/

namespace Hornbase

universe u v

/-! ## Thinned lists -/

section

variable {α β γ δ : Type _} {S D : α → β → Prop} {S' D' : γ → δ → Prop} {as : List α} {bs : List β}

/-- The first list is the second one, up to `S`, without some elements that each stand behind one
that stays and is related to them by `D`. -/
inductive Thins (S D : α → β → Prop) : List α → List β → Prop
  | nil : Thins S D [] []
  | keep {as : List α} {bs : List β} {a : α} {b : β} :
    Thins S D as bs → S a b → Thins S D (as ++ [a]) (bs ++ [b])
  | drop {as : List α} {bs : List β} {a : α} {b : β} :
    Thins S D as bs → a ∈ as → D a b → Thins S D as (bs ++ [b])

namespace Thins

theorem singleton {a : α} {b : β} (h : S a b) : Thins S D [a] [b] := keep nil h

/-- Several elements may be left out behind those that stand for them. -/
theorem drops (h : Thins S D as bs) {more : List β} (hmore : ∀ b ∈ more, ∃ a ∈ as, D a b) :
    Thins S D as (bs ++ more) := by
  induction more generalizing bs with
  | nil => rwa [List.append_nil]
  | cons b more ih =>
    obtain ⟨⟨a, ha, hab⟩, hmore⟩ := List.forall_mem_cons.1 hmore
    rw [List.append_cons]
    exact ih (h.drop ha hab) hmore

theorem append (h : Thins S D as bs) {as' : List α} {bs' : List β} (h' : Thins S D as' bs') :
    Thins S D (as ++ as') (bs ++ bs') := by
  induction h' with
  | nil => rwa [List.append_nil, List.append_nil]
  | keep _ hab ih =>
    rw [← List.append_assoc, ← List.append_assoc]
    exact ih.keep hab
  | drop _ ha hab ih =>
    rw [← List.append_assoc]
    exact ih.drop (List.mem_append_right _ ha) hab

/-- Every element has one that stands for it, if each that stays stands for itself. -/
theorem exists_of_mem (h : Thins S D as bs) (hSD : ∀ a b, S a b → D a b) :
    ∀ b ∈ bs, ∃ a ∈ as, D a b := by
  induction h with
  | nil => exact nofun
  | @keep as bs a b _ hab ih =>
    rw [List.forall_mem_append, List.forall_mem_singleton]
    refine ⟨fun b' hb' => ?_, a, List.mem_append_right _ (List.mem_singleton_self a), hSD a b hab⟩
    obtain ⟨a', ha', hab'⟩ := ih b' hb'
    exact ⟨a', List.mem_append_left _ ha', hab'⟩
  | @drop as bs a b _ ha hab ih =>
    rw [List.forall_mem_append, List.forall_mem_singleton]
    exact ⟨ih, a, ha, hab⟩

/-- Lists that elements are mapped to make a thinned list if those of related elements do. What an
element that is left out is mapped to has to be left out as a whole. -/
theorem flatMap {f : α → List γ} {g : β → List δ} (h : Thins S D as bs)
    (hkeep : ∀ a b, S a b → Thins S' D' (f a) (g b))
    (hdrop : ∀ a b, D a b → ∀ y ∈ g b, ∃ x ∈ f a, D' x y) :
    Thins S' D' (as.flatMap f) (bs.flatMap g) := by
  induction h with
  | nil => exact nil
  | keep _ hab ih =>
    rw [List.flatMap_append, List.flatMap_append, List.flatMap_singleton, List.flatMap_singleton]
    exact ih.append (hkeep _ _ hab)
  | @drop as bs a b _ ha hab ih =>
    rw [List.flatMap_append, List.flatMap_singleton]
    refine ih.drops fun y hy => ?_
    obtain ⟨x, hx, hxy⟩ := hdrop a b hab y hy
    exact ⟨x, List.mem_flatMap.2 ⟨a, ha, hx⟩, hxy⟩

/-- Related elements that are mapped to related results, or to none on both sides, make a thinned
list of results. -/
theorem filterMap {f : α → Option γ} {g : β → Option δ} (h : Thins S D as bs)
    (hkeep : ∀ a b, S a b → Option.Rel S' (f a) (g b))
    (hdrop : ∀ a b, D a b → Option.Rel D' (f a) (g b)) :
    Thins S' D' (as.filterMap f) (bs.filterMap g) := by
  rw [List.filterMap_eq_flatMap_toList, List.filterMap_eq_flatMap_toList]
  refine h.flatMap (fun a b hab => ?_) fun a b hab y hy => ?_
  · have hrel := hkeep a b hab
    generalize f a = x at hrel ⊢
    generalize g b = y at hrel ⊢
    cases hrel with
    | none => exact nil
    | some hxy => exact singleton hxy
  · -- What is dropped turns into something that is to be dropped, or into nothing.
    have hrel := hdrop a b hab
    generalize f a = x at hrel ⊢
    generalize g b = z at hrel hy
    cases hrel with
    | none => cases hy
    | some hxz =>
      obtain rfl := List.mem_singleton.1 hy
      exact ⟨_, List.mem_singleton_self _, hxz⟩

theorem map {f : α → γ} {g : β → δ} (h : Thins S D as bs) (hkeep : ∀ a b, S a b → S' (f a) (g b))
    (hdrop : ∀ a b, D a b → D' (f a) (g b)) : Thins S' D' (as.map f) (bs.map g) := by
  rw [← List.filterMap_eq_map, ← List.filterMap_eq_map]
  exact h.filterMap (fun a b hab => .some (hkeep a b hab)) fun a b hab => .some (hdrop a b hab)

theorem mono {S' D' : α → β → Prop} (h : Thins S D as bs) (hS : ∀ a b, S a b → S' a b)
    (hD : ∀ a b, D a b → D' a b) : Thins S' D' as bs := by
  simpa only [List.map_id'] using h.map (f := fun a => a) (g := fun b => b) hS hD

/-- What stays is what there was, in its order. -/
theorem sublist {D : α → α → Prop} {as bs : List α} (h : Thins Eq D as bs) : as.Sublist bs := by
  induction h with
  | nil => exact .slnil
  | keep _ hab ih => exact ih.append (hab ▸ .refl _)
  | drop _ _ _ ih => exact ih.trans (List.sublist_append_left ..)

/-- The first element always stays. -/
theorem head?_eq {D : α → α → Prop} {as bs : List α} (h : Thins Eq D as bs) :
    as.head? = bs.head? := by
  induction h with
  | nil => rfl
  | keep _ hab ih => rw [hab, List.head?_append, List.head?_append, ih]
  | @drop as bs a b _ ha _ ih =>
    rw [List.head?_append, ← ih]
    cases as with
    | nil => cases ha
    | cons => rfl

end Thins

end

/-! ## Branches and answers -/

/-- What is the same up to some names is so up to more. -/
theorem Operand.Renamed.mono {C C' : TermId → TermId → Prop} {ρ : Nat → Nat} {o o' : Operand}
    (h : o.Renamed C ρ o') (hC : ∀ t t', C t t' → C' t t') : o.Renamed C' ρ o' := by
  cases h with
  | var n => exact .var n
  | const ht => exact .const (hC _ _ ht)

variable {N : Type u} {V : Type v}

theorem Clause.Renamed.mono {C C' : TermId → TermId → Prop} {c c' : Clause N} (h : c.Renamed C c')
    (hC : ∀ t t', C t t' → C' t t') : c.Renamed C' c' := by
  have hoperands : ∀ {ρ : Nat → Nat} {os os' : List Operand},
      List.Forall₂ (Operand.Renamed C ρ) os os' → List.Forall₂ (Operand.Renamed C' ρ) os os' :=
    fun h => h.imp fun _ _ ho => ho.mono hC
  cases h with
  | fact hparts => exact .fact (hparts.imp hC)
  | rule ρ hrule =>
    exact .rule ρ ⟨hrule.injective, hrule.locals_lt, hoperands hrule.params,
      hrule.body.imp fun _ _ hg => ⟨hg.name_eq, hoperands hg.args⟩⟩

namespace Program

variable {C C' : TermId → TermId → Prop} {prog prog' : Program N}

/-- The clauses are the same up to names, which `C` relates. -/
abbrev Alike (C : TermId → TermId → Prop) (prog prog' : Program N) (id id' : ClauseId) : Prop :=
  Option.Rel (Clause.Renamed C) (prog.clause? id) (prog'.clause? id')

/-- Clauses that are the same up to some names are so up to more. -/
theorem Alike.mono {id id' : ClauseId} (h : prog.Alike C prog' id id')
    (hC : ∀ t t', C t t' → C' t t') : prog.Alike C' prog' id id' :=
  rel_imp h fun _ _ hc => hc.mono hC

/-- The branches of a thinned program, against those of the whole. -/
abbrev ThinsBranches (C C' : TermId → TermId → Prop) (prog prog' : Program N) :
    List Branch → List Branch → Prop :=
  Thins (Branch.Rel (prog.Alike C prog')) (Branch.Rel (prog.Alike C' prog'))

/-- Branches that enter the same clauses up to some names do so up to more. -/
theorem rel_mono (hC : ∀ t t', C t t' → C' t t') {b b' : Branch}
    (h : b.Rel (prog.Alike C prog') b') : b.Rel (prog.Alike C' prog') b' := by
  induction h with
  | nil => exact .nil
  | call hid _ _ ihBody ihRest => exact .call (hid.mono hC) ihBody ihRest

variable [DecidableEq N]

/-- Under each name `prog` has the clauses of `prog'`, up to names that `C` relates, without some
that are the same as an earlier one up to names that `C'` relates. Then the branches of `prog` are
those of `prog'` without some that enter the same clauses as an earlier one. -/
theorem thins_branches (hC : ∀ t t', C t t' → C' t t')
    (h : ∀ name, Thins (prog.Alike C prog') (prog.Alike C' prog') (prog.candidates name)
      (prog'.candidates name)) (depth : Nat) (names : List N) :
    ThinsBranches C C' prog prog' (prog.branches depth names) (prog'.branches depth names) := by
  -- A body nests one rule less, and the goals after the first are fewer at the same depth.
  induction depth using Nat.strongRecOn generalizing names with
  | ind depth ih =>
    have hbodies : ∀ {C₀ : TermId → TermId → Prop} {id id' : ClauseId}, prog.Alike C₀ prog' id id' →
        ThinsBranches C C' prog prog' (prog.bodies depth id) (prog'.bodies depth id') :=
      fun hid => bodies_of_renamed (P := fun bs bs' => ThinsBranches C C' prog prog' bs bs') .nil
        (.singleton .nil) ih hid
    induction names with
    | nil =>
      rw [branches_nil, branches_nil]
      exact .singleton .nil
    | cons name names ihNames =>
      -- A call stands for another one if the clause, its body and the rest do.
      have hcalls : ∀ {id id' : ClauseId} {body body' : Branch}, prog.Alike C' prog' id id' →
          body.Rel (prog.Alike C' prog') body' →
          ∀ b' ∈ (prog'.branches depth names).map (Branch.call id' body'),
            ∃ b ∈ (prog.branches depth names).map (Branch.call id body),
              b.Rel (prog.Alike C' prog') b' := by
        intro id id' body body' hid hbody b' hb'
        obtain ⟨rest', hrest', rfl⟩ := List.mem_map.1 hb'
        obtain ⟨rest, hrest, hrel⟩ := ihNames.exists_of_mem (fun _ _ => rel_mono hC) rest' hrest'
        exact ⟨_, List.mem_map_of_mem hrest, .call hid hbody hrel⟩
      rw [branches_cons, branches_cons]
      refine (h name).flatMap (fun id id' hid => ?_) fun id id' hid b' hb' => ?_
      · -- A clause that is kept: its bodies are thinned, and behind each of them the rest is.
        refine (hbodies hid).flatMap (fun body body' hbody => ?_) fun body body' hbody =>
          hcalls (hid.mono hC) hbody
        exact ihNames.map (fun _ _ => .call hid hbody) fun _ _ =>
          .call (hid.mono hC) (rel_mono hC hbody)
      · -- A clause that is dropped: each call of it stands for a call of the clause kept instead.
        obtain ⟨body', hbody', hb'⟩ := List.mem_flatMap.1 hb'
        obtain ⟨body, hbody, hrel⟩ :=
          (hbodies hid).exists_of_mem (fun _ _ => rel_mono hC) body' hbody'
        obtain ⟨b, hb, hbb'⟩ := hcalls hid hrel b' hb'
        exact ⟨b, List.mem_flatMap.2 ⟨body, hbody, hb⟩, hbb'⟩

variable [BEq V] {E : V → V → Prop} {p p' : Pool V}

/-- The answers of a program without clauses that repeat earlier ones, up to values that compare
alike, are those of the whole program without some that repeat earlier ones. -/
theorem thins_answers (hE : ComparesAlike E) (hrefl : ∀ v, E v v) (hvalid : prog.Valid p)
    (hC : ∀ t t', C t t' → p.Shares p' t t') (hC' : ∀ t t', C' t t' → p.SharesUpTo E p' t t')
    (hmore : ∀ t t', C t t' → C' t t')
    (h : ∀ name, Thins (prog.Alike C prog') (prog.Alike C' prog') (prog.candidates name)
      (prog'.candidates name))
    {args args' : List TermId} (hcorrespond : p.Correspond p' args args')
    (hargs : ∀ t ∈ args, t.index < p.size) (hargs' : ∀ t ∈ args', t.index < p'.size)
    (depth : Nat) (name : N) :
    Thins Eq (Answer.MatchesUpTo E) (prog.answers depth name args p.values)
      (prog'.answers depth name args' p'.values) := by
  refine (thins_branches hmore h depth [name]).filterMap (fun b b' hb => ?_) fun b b' hb => ?_
  · rw [answerAlong_eq hvalid (rel_mono hC hb) hcorrespond hargs hargs' name]
    exact option_rel_eq.2 rfl
  · exact answerAlong_rel hE hrefl hC' hvalid hb hcorrespond hargs hargs' name

end Program

/-! ## Databases -/

namespace Database

variable [DecidableEq N] [BEq V] {db db' : Database N V} {limit arity : Nat} {name : N}
  {args args' : List TermId}

/-- A bounded query succeeds if there is an answer, and leaves the first on its arguments. -/
theorem query_first (hvalid : db.Valid) (hlimit : db.config.maxDepth = some limit)
    (haccepted : db.argsFault? arity args = none) {rounds : Nat} {o : Outcome N V Bool}
    (ho : db.query rounds name arity args = some o) :
    o.result = (db.program.answers limit name args db.pool.values).head?.isSome ∧
      o.db.answer args
        = (db.program.answers limit name args db.pool.values).head?.getD (db.answer args) := by
  have htakes := query_takes hvalid hlimit haccepted ho
  rw [Program.answers_eq_map]
  generalize db.program.meaning limit name args db.pool.values = found at htakes ⊢
  cases found with
  | nil => exact ⟨htakes.1, congrArg (·.answer args) htakes.2⟩
  | cons s rest =>
    refine ⟨htakes.1, ?_⟩
    exact (Option.some.inj (htakes.answer htakes.1 (of_argsFault?_eq_none haccepted).2)).symm

/-- `db` answers a call as `db'` does, but for answers that match another one up to `E`. All
requests end. -/
structure Condenses (E : V → V → Prop) (db db' : Database N V) (name : N) (arity : Nat)
    (args args' : List TermId) : Prop where
  /-- The query ends in both. -/
  ends : (∃ rounds o, db.query rounds name arity args = some o) ∧
    ∃ rounds o, db'.query rounds name arity args' = some o
  /-- It succeeds in both or in neither, and leaves the same values on the arguments. -/
  query_eq : ∀ rounds o rounds' o', db.query rounds name arity args = some o →
    db'.query rounds' name arity args' = some o' →
      o.result = o'.result ∧ o.db.answer args = o'.db.answer args'
  /-- The request for all answers ends in both. -/
  all_ends : (∃ rounds o, db.queryAll rounds name arity args = some o) ∧
    ∃ rounds o, db'.queryAll rounds name arity args' = some o
  /-- The answers of the first are among those of the second, in the same order. -/
  all_sublist : ∀ rounds o rounds' o', db.queryAll rounds name arity args = some o →
    db'.queryAll rounds' name arity args' = some o' → o.result.Sublist o'.result
  /-- Each answer of the second matches one of the first. -/
  all_matched : ∀ rounds o rounds' o', db.queryAll rounds name arity args = some o →
    db'.queryAll rounds' name arity args' = some o' →
      ∀ a' ∈ o'.result, ∃ a ∈ o.result, a.MatchesUpTo E a'

/-- Databases whose answers are those of the other without some that repeat earlier ones. -/
theorem condenses_of_thins {E : V → V → Prop} (hrefl : ∀ v, E v v) (hvalid : db.Valid)
    (hvalid' : db'.Valid) (hlimit : db.config.maxDepth = some limit)
    (hlimit' : db'.config.maxDepth = some limit) (haccepted : db.argsFault? arity args = none)
    (haccepted' : db'.argsFault? arity args' = none) (hbefore : db.answer args = db'.answer args')
    (h : Thins Eq (Answer.MatchesUpTo E) (db.program.answers limit name args db.pool.values)
      (db'.program.answers limit name args' db'.pool.values)) :
    Condenses E db db' name arity args args' := by
  obtain ⟨hall, hfound⟩ := queryAll_answers hvalid hlimit haccepted name
  obtain ⟨hall', hfound'⟩ := queryAll_answers hvalid' hlimit' haccepted' name
  refine ⟨⟨exists_query hvalid hlimit haccepted, exists_query hvalid' hlimit' haccepted'⟩,
    fun rounds o rounds' o' ho ho' => ?_, ⟨hall, hall'⟩, fun rounds o rounds' o' ho ho' => ?_,
    fun rounds o rounds' o' ho ho' => ?_⟩
  · -- A query shows the first answer, and the first element is never dropped.
    obtain ⟨hresult, hanswer⟩ := query_first hvalid hlimit haccepted ho
    obtain ⟨hresult', hanswer'⟩ := query_first hvalid' hlimit' haccepted' ho'
    rw [hresult, hresult', hanswer, hanswer', h.head?_eq, hbefore]
    exact ⟨rfl, rfl⟩
  · rw [hfound rounds o ho, hfound' rounds' o' ho']
    exact h.sublist
  · rw [hfound rounds o ho, hfound' rounds' o' ho']
    refine h.exists_of_mem fun a a' ha => ?_
    rw [ha]
    refine List.forall₂_same.2 fun x _ => ?_
    cases x with
    | none => exact .none
    | some v => exact .some (hrefl v)

end Database

end Hornbase
