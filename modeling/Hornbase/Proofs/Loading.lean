import Hornbase.Proofs.Persistence
import Hornbase.Proofs.Thinning

/-!
# Loading

A clause can be written down without the handles that a database gives for it: a fact by its values,
and a rule with its whole body, where the variables are known by their positions. `Database.load`
stores such a declaration, and `Loaded` holds of the databases that declarations lead to, with
commands in between that declare nothing.

One declaration makes the same clause in every database, up to the names of terms
(`renamed_of_load`). It is shown for the declarations that a rule is built by, one after the other:
what the two rules have in common at each point is `Rule.Alike`.
-/

namespace Hornbase

universe u v

/-! ## Declarations -/

/-- An argument of a goal, where the variables of the rule are known by their positions. -/
inductive Slot (V : Type v) where
  | fresh
  | value (v : V)
  | var (position : Nat)
  | param (position : Nat)

/-- A part of the body of a rule: a further variable, or a goal. -/
inductive BodyPart (N : Type u) (V : Type v) where
  | var
  | goal (name : N) (slots : List (Slot V))

/-- A fact, or a rule with its whole body. -/
inductive Declaration (N : Type u) (V : Type v) where
  | fact (name : N) (values : List V)
  | rule (name : N) (params : List (Arg V)) (body : List (BodyPart N V))

variable {N : Type u} {V : Type v}

/-- The argument that a slot stands for in a rule whose variables have the templates `locals`. -/
def Slot.arg? (locals : List TermId) : Slot V → Option (Arg V)
  | .fresh => some .fresh
  | .value v => some (.value v)
  | .var n => locals[n]?.map .term
  | .param i => some (.param i)

/-- The arguments that slots stand for. -/
def Slot.args? (locals : List TermId) : List (Slot V) → Option (List (Arg V))
  | [] => some []
  | slot :: rest => (slot.arg? locals).bind fun arg => (args? locals rest).map (arg :: ·)

namespace Database

/-- Adds a part to the body of the rule `c`. -/
def extend (db : Database N V) (c : ClauseId) : BodyPart N V → Option (Database N V)
  | .var => (db.addRuleVar c).toOption.map (·.db)
  | .goal name slots =>
    (db.program.rule? c).bind fun r =>
      (Slot.args? r.locals slots).bind fun args => (db.addGoal c name args).toOption.map (·.db)

/-- Adds parts to the body of the rule `c`, one after the other. -/
def extendAll (c : ClauseId) : List (BodyPart N V) → Database N V → Option (Database N V)
  | [], db => some db
  | part :: rest, db => (db.extend c part).bind (extendAll c rest)

variable [DecidableEq N] [BEq V]

/-- Stores what is declared. There is no database if some part of it is refused. -/
def load (db : Database N V) : Declaration N V → Option (Database N V)
  | .fact name vs => some (db.addFact name vs).db
  | .rule name params body =>
    (db.addRule name params).toOption.bind fun o => o.db.extendAll o.result body

/-- Stores what is declared, one declaration after the other. -/
def loadAll : List (Declaration N V) → Database N V → Option (Database N V)
  | [], db => some db
  | d :: rest, db => (db.load d).bind (loadAll rest)

/-- The databases that declarations, the latest first, lead to from an empty one with the settings
`config`. In between the host may do what declares and extends no clause. -/
inductive Loaded (config : Config) : List (Declaration N V) → Database N V → Prop
  | empty : Loaded config [] (.empty config)
  | load {ds : List (Declaration N V)} {d : Declaration N V} {db db' : Database N V} :
    Loaded config ds db → db.load d = some db' → Loaded config (d :: ds) db'
  | exec {ds : List (Declaration N V)} {db : Database N V} {rounds : Nat} {command : Command N V}
      {o : Outcome N V (Reply V)} :
    Loaded config ds db → db.exec rounds command = some o → command.declared? = none →
      command.extended? = none → Loaded config ds o.db

end Database

/-! ## Rules that are built alike -/

/-- Both terms are fixed, and `E` relates their values. -/
def Pool.FixedUpTo (E : V → V → Prop) (p p' : Pool V) (t t' : TermId) : Prop :=
  ∃ v v', p.cells[t.index]? = some ⟨.bound v, true⟩ ∧ p'.cells[t'.index]? = some ⟨.bound v', true⟩ ∧
    E v v'

namespace Pool

variable {E : V → V → Prop} {p p' q q' : Pool V} {t t' : TermId}

/-- What is fixed stays fixed when terms are added. -/
theorem FixedUpTo.startOf (h : p.FixedUpTo E p' t t') (hq : p.StartOf q) (hq' : p'.StartOf q') :
    q.FixedUpTo E q' t t' := by
  obtain ⟨v, v', hv, hv', hvv'⟩ := h
  exact ⟨v, v', hq.cell_eq hv, hq'.cell_eq hv', hvv'⟩

theorem FixedUpTo.imp {E' : V → V → Prop} (h : p.FixedUpTo E p' t t')
    (hE : ∀ v v', E v v' → E' v v') : p.FixedUpTo E' p' t t' := by
  obtain ⟨v, v', hv, hv', hvv'⟩ := h
  exact ⟨v, v', hv, hv', hE v v' hvv'⟩

/-- New constants with the same value. -/
theorem fixedUpTo_addOwned (p p' : Pool V) (v : V) :
    (p.addOwned (.bound v)).2.FixedUpTo Eq (p'.addOwned (.bound v)).2 (p.addOwned (.bound v)).1
      (p'.addOwned (.bound v)).1 :=
  ⟨v, v, by simp [addOwned, push], by simp [addOwned, push], rfl⟩

end Pool

/-- Two rules are the same up to names, and so are the forms of their heads. -/
structure Rule.Alike (C : TermId → TermId → Prop) (r r' : Rule N) : Prop where
  head_length : r.head.length = r'.head.length
  locals_length : r.locals.length = r'.locals.length
  params : List.Forall₂ (Operand.Renamed C id) r.params r'.params
  body : List.Forall₂ (Goal.Renamed C id) r.body r'.body

/-- Two arguments of a goal ask for the same operand. -/
inductive Arg.Alike (r r' : Rule N) : Arg V → Arg V → Prop
  | fresh : Alike r r' .fresh .fresh
  | value (v : V) : Alike r r' (.value v) (.value v)
  | param (i : Nat) : Alike r r' (.param i) (.param i)
  | term {t t' : TermId} {n : Nat} : r.varOf? t = some n → r'.varOf? t' = some n →
    Alike r r' (.term t) (.term t')

namespace Rule

variable {C C' : TermId → TermId → Prop} {r r' r₁ r₁' : Rule N}

theorem Alike.renamed (h : r.Alike C r') : r.Renamed C id r' where
  injective := Function.injective_id
  locals_lt _ hi := h.locals_length ▸ hi
  params := h.params
  body := h.body

theorem Alike.mono (h : r.Alike C r') (hC : ∀ t t', C t t' → C' t t') : r.Alike C' r' where
  head_length := h.head_length
  locals_length := h.locals_length
  params := h.params.imp fun _ _ ho => ho.mono hC
  body := h.body.imp fun _ _ hg => ⟨hg.name_eq, hg.args.imp fun _ _ ho => ho.mono hC⟩

/-- Rules stay alike when both pools get an owned term. -/
theorem Alike.addOwned {p p' : Pool V} (h : r.Alike (p.FixedUpTo Eq p') r') (u u' : Term V) :
    r.Alike ((p.addOwned u).2.FixedUpTo Eq (p'.addOwned u').2) r' :=
  h.mono fun _ _ ht => ht.startOf (p.startOf_push ⟨u, true⟩) (p'.startOf_push ⟨u', true⟩)

/-- Both rules get a variable at the same position. -/
theorem Alike.addVar (h : r.Alike C r') (t t' : TermId) :
    (r.addVar t).2.Alike C (r'.addVar t').2 ∧
      Operand.Renamed C id (r.addVar t).1 (r'.addVar t').1 := by
  refine ⟨⟨h.head_length, ?_, h.params, h.body⟩, ?_⟩
  · simp only [Rule.addVar, List.length_append, h.locals_length]
    rfl
  · rw [Rule.addVar, Rule.addVar, h.locals_length]
    exact .var _

/-- Both rules get the same head position. -/
theorem Alike.addParam (h : r.Alike C r') {o o' : Operand} (ho : o.Renamed C id o')
    (t t' : TermId) : (r.addParam t o).Alike C (r'.addParam t' o') where
  head_length := by simp [Rule.addParam, h.head_length]
  locals_length := h.locals_length
  params := List.rel_append h.params (.cons ho .nil)
  body := h.body

/-- Both rules repeat a head position, or neither has it. -/
theorem Alike.addParamRepeat (h : r.Alike C r') (i : Nat) :
    (r.addParamRepeat i).Alike C (r'.addParamRepeat i) := by
  have hparam := rel_getElem? h.params i
  unfold Rule.addParamRepeat
  by_cases hi : i < r.head.length
  · have hi' : i < r'.head.length := h.head_length ▸ hi
    rw [List.getElem?_eq_getElem hi, List.getElem?_eq_getElem hi']
    generalize r.params[i]? = x at hparam ⊢
    generalize r'.params[i]? = x' at hparam ⊢
    cases hparam with
    | none => exact h
    | some ho => exact h.addParam ho _ _
  · have hi' : ¬ i < r'.head.length := h.head_length ▸ hi
    rw [List.getElem?_eq_none (Nat.le_of_not_lt hi), List.getElem?_eq_none (Nat.le_of_not_lt hi')]
    exact h

/-- One declaration of a head makes heads that are alike. -/
theorem declareHead_alike (params : List (Arg V)) {p p' : Pool V}
    (h : r.Alike (p.FixedUpTo Eq p') r') :
    (declareHead params r p).1.Alike
      ((declareHead params r p).2.FixedUpTo Eq (declareHead params r' p').2)
      (declareHead params r' p').1 := by
  induction params generalizing r r' p p' with
  | nil => exact h
  | cons arg rest ih =>
    cases arg with
    | fresh | term _ =>
      obtain ⟨hvar, ho⟩ := (h.addOwned .unbound .unbound).addVar (p.addOwned .unbound).1
        (p'.addOwned .unbound).1
      exact ih (hvar.addParam ho _ _)
    | value v =>
      have hmore := h.addOwned (.bound v) (.bound v)
      exact ih (hmore.addParam (.const (p.fixedUpTo_addOwned p' v)) _ _)
    | param i => exact ih (h.addParamRepeat i)

/-- A variable keeps its position when the rule gets further ones. -/
theorem varOf?_of_extends (h : r.Extends r₁) {t : TermId} {n : Nat} (ht : r.varOf? t = some n) :
    r₁.varOf? t = some n := by
  obtain ⟨more, hmore⟩ := h.locals
  rw [varOf?, ← hmore, List.findIdx?_append]
  exact congrArg (Option.or · _) ht

end Rule

/-- Arguments ask for the same operand when both rules have got further variables. -/
theorem Arg.Alike.extend {r r' r₁ r₁' : Rule N} {a a' : Arg V} (h : Arg.Alike r r' a a')
    (hr : r.Extends r₁) (hr' : r'.Extends r₁') : Arg.Alike r₁ r₁' a a' := by
  cases h with
  | fresh => exact .fresh
  | value v => exact .value v
  | param i => exact .param i
  | term ht ht' => exact .term (Rule.varOf?_of_extends hr ht) (Rule.varOf?_of_extends hr' ht')

/-- The variable of a template is the one that stands where the template does. -/
theorem Rule.varOf?_of_getElem? {r : Rule N} (hnodup : r.locals.Nodup) {t : TermId} {n : Nat}
    (ht : r.locals[n]? = some t) : r.varOf? t = some n := by
  obtain ⟨hn, rfl⟩ := List.getElem?_eq_some_iff.1 ht
  refine List.findIdx?_eq_some_iff_getElem.2 ⟨hn, beq_self_eq_true _, fun j hj => ?_⟩
  simpa using fun heq => Nat.ne_of_lt hj ((hnodup.getElem_inj_iff).1 heq)

/-- A slot stands for arguments that ask for the same operand. -/
theorem Slot.alike_of_arg? {r r' : Rule N} (hnodup : r.locals.Nodup) (hnodup' : r'.locals.Nodup)
    {slot : Slot V} {a a' : Arg V} (ha : slot.arg? r.locals = some a)
    (ha' : slot.arg? r'.locals = some a') : Arg.Alike r r' a a' := by
  cases slot with
  | fresh =>
    obtain rfl := Option.some.inj ha
    obtain rfl := Option.some.inj ha'
    exact .fresh
  | value v =>
    obtain rfl := Option.some.inj ha
    obtain rfl := Option.some.inj ha'
    exact .value v
  | param i =>
    obtain rfl := Option.some.inj ha
    obtain rfl := Option.some.inj ha'
    exact .param i
  -- A variable's name is its position among the locals, whatever cell it has in either pool.
  | var n =>
    obtain ⟨t, ht, rfl⟩ := Option.map_eq_some_iff.1 ha
    obtain ⟨t', ht', rfl⟩ := Option.map_eq_some_iff.1 ha'
    exact .term (Rule.varOf?_of_getElem? hnodup ht) (Rule.varOf?_of_getElem? hnodup' ht')

theorem Slot.forall₂_of_args? {r r' : Rule N} (hnodup : r.locals.Nodup) (hnodup' : r'.locals.Nodup)
    {slots : List (Slot V)} {as as' : List (Arg V)} (has : Slot.args? r.locals slots = some as)
    (has' : Slot.args? r'.locals slots = some as') : List.Forall₂ (Arg.Alike r r') as as' := by
  induction slots generalizing as as' with
  | nil =>
    obtain rfl := Option.some.inj has
    obtain rfl := Option.some.inj has'
    exact .nil
  | cons slot rest ih =>
    obtain ⟨a, ha, hrest⟩ := Option.bind_eq_some_iff.1 has
    obtain ⟨a', ha', hrest'⟩ := Option.bind_eq_some_iff.1 has'
    obtain ⟨more, hmore, rfl⟩ := Option.map_eq_some_iff.1 hrest
    obtain ⟨more', hmore', rfl⟩ := Option.map_eq_some_iff.1 hrest'
    exact .cons (alike_of_arg? hnodup hnodup' ha ha') (ih hmore hmore')

/-- One argument makes operands that are alike, and leaves rules that are alike. -/
theorem Rule.DeclaresArg.alike {r r' r₁ r₁' : Rule N} {p p' p₁ p₁' : Pool V} {a a' : Arg V}
    {o o' : Operand} (harg : r.DeclaresArg p a o r₁ p₁) (harg' : r'.DeclaresArg p' a' o' r₁' p₁')
    (ha : Arg.Alike r r' a a') (h : r.Alike (p.FixedUpTo Eq p') r') :
    r₁.Alike (p₁.FixedUpTo Eq p₁') r₁' ∧ o.Renamed (p₁.FixedUpTo Eq p₁') id o' := by
  cases ha with
  | fresh =>
    cases harg
    cases harg'
    exact (h.addOwned .unbound .unbound).addVar _ _
  | value v =>
    cases harg
    cases harg'
    exact ⟨h.addOwned (.bound v) (.bound v), .const (p.fixedUpTo_addOwned p' v)⟩
  -- The two terms are variables of one number, and that number is what is declared.
  | term ht ht' =>
    cases harg with
    | term hn =>
      cases harg' with
      | term hn' =>
        obtain rfl := Option.some.inj (ht.symm.trans hn)
        obtain rfl := Option.some.inj (ht'.symm.trans hn')
        exact ⟨h, .var _⟩
  -- A parameter is taken over from the heads, which are alike.
  | param i =>
    cases harg with
    | param ho =>
      cases harg' with
      | param ho' =>
        have hparam := rel_getElem? h.params i
        rw [ho, ho'] at hparam
        cases hparam with
        | some hrenamed => exact ⟨h, hrenamed⟩

/-- One declaration of a goal makes goals that are alike, and leaves rules that are alike. -/
theorem Rule.DeclaresArgs.alike {args args' : List (Arg V)} {r r' r₁ r₁' : Rule N}
    {p p' p₁ p₁' : Pool V} {os os' : List Operand} (hgoal : DeclaresArgs args r p os r₁ p₁)
    (hgoal' : DeclaresArgs args' r' p' os' r₁' p₁')
    (hargs : List.Forall₂ (Arg.Alike r r') args args') (h : r.Alike (p.FixedUpTo Eq p') r') :
    r₁.Alike (p₁.FixedUpTo Eq p₁') r₁' ∧
      List.Forall₂ (Operand.Renamed (p₁.FixedUpTo Eq p₁') id) os os' := by
  induction hgoal generalizing r' p' args' os' with
  | nil =>
    cases hargs
    cases hgoal'
    exact ⟨h, .nil⟩
  | cons hfirst hrest ih =>
    cases hargs with
    | cons ha hothers =>
      cases hgoal' with
      | cons hfirst' hrest' =>
        obtain ⟨halike, ho⟩ := hfirst.alike hfirst' ha h
        have hlater := hothers.imp fun _ _ hb => hb.extend hfirst.extends hfirst'.extends
        obtain ⟨hall, hos⟩ := ih hrest' hlater halike
        -- What the first argument declared is stored in both when the later ones are declared.
        refine ⟨hall, .cons (ho.mono fun t t' ht => ?_) hos⟩
        exact ht.startOf hrest.startOf hrest'.startOf

/-- Both bodies get the same goal. -/
theorem Rule.Alike.addGoal {C : TermId → TermId → Prop} {r r' : Rule N} (h : r.Alike C r')
    (name : N) {os os' : List Operand} (hos : List.Forall₂ (Operand.Renamed C id) os os') :
    (r.addGoal ⟨name, os⟩).Alike C (r'.addGoal ⟨name, os'⟩) where
  head_length := h.head_length
  locals_length := h.locals_length
  params := h.params
  body := List.rel_append h.body (.cons ⟨rfl, hos⟩ .nil)

/-! ## What is loaded -/

/-- The rule that takes the place of another is found there. -/
theorem Program.rule?_setRule {prog : Program N} {c : ClauseId} {r r' : Rule N}
    (hr : prog.rule? c = some r) : (prog.setRule c r').rule? c = some r' := by
  simp only [rule?, clause?_setRule, if_pos, clause?_of_rule? hr,
    Option.map_some]

namespace Database

variable {db db' db₁ db₁' : Database N V} {c c' : ClauseId} {name : N}

/-- A request that gives something is not refused. -/
theorem ok_of_toOption {ε α : Type _} {x : Except ε α} {a : α} (h : x.toOption = some a) :
    x = .ok a := by
  cases x with
  | error e => cases h
  | ok b => exact congrArg Except.ok (Option.some.inj h)

theorem exists_ok_of_toOption {ε α β : Type _} {x : Except ε α} {f : α → β} {b : β}
    (h : x.toOption.map f = some b) : ∃ a, x = .ok a ∧ f a = b := by
  obtain ⟨a, ha, hb⟩ := Option.map_eq_some_iff.1 h
  exact ⟨a, ok_of_toOption ha, hb⟩

/-- What adding a part to a body does. -/
theorem extend_cases {part : BodyPart N V} (h : db.extend c part = some db₁) :
    (part = .var ∧ ∃ o, db.addRuleVar c = .ok o ∧ o.db = db₁) ∨
      ∃ name slots r args o, part = .goal name slots ∧ db.program.rule? c = some r ∧
        Slot.args? r.locals slots = some args ∧ db.addGoal c name args = .ok o ∧ o.db = db₁ := by
  cases part with
  | var =>
    obtain ⟨o, ho⟩ := exists_ok_of_toOption h
    exact .inl ⟨rfl, o, ho⟩
  | goal name slots =>
    obtain ⟨r, hr, hslots⟩ := Option.bind_eq_some_iff.1 h
    obtain ⟨args, hargs, hgoal⟩ := Option.bind_eq_some_iff.1 hslots
    obtain ⟨o, ho, hdb⟩ := exists_ok_of_toOption hgoal
    exact .inr ⟨name, slots, r, args, o, rfl, hr, hargs, ho, hdb⟩

/-- The numbers stand for rules that are alike. -/
def AlikeAt (db db' : Database N V) (c c' : ClauseId) : Prop :=
  ∃ r r', db.program.rule? c = some r ∧ db'.program.rule? c' = some r' ∧
    r.Alike (db.pool.FixedUpTo Eq db'.pool) r'

variable [DecidableEq N] [BEq V]

/-- Rules that are alike stay so when the same part is added to their bodies. -/
theorem AlikeAt.extend (h : db.AlikeAt db' c c') (hdb : db.Reachable) (hdb' : db'.Reachable)
    {part : BodyPart N V} (hpart : db.extend c part = some db₁)
    (hpart' : db'.extend c' part = some db₁') : db₁.AlikeAt db₁' c c' := by
  obtain ⟨r, r', hr, hr', halike⟩ := h
  rcases extend_cases hpart with
    ⟨rfl, o, ho, rfl⟩ | ⟨name, slots, s, args, o, rfl, hs, hargs, ho, rfl⟩
  · -- A further variable of the rule.
    obtain ⟨o', ho', rfl⟩ := exists_ok_of_toOption hpart'
    obtain ⟨s, hs, -, hadded⟩ := addRuleVar_eq_ok ho
    obtain ⟨s', hs', -, hadded'⟩ := addRuleVar_eq_ok ho'
    obtain rfl := Option.some.inj (hr.symm.trans hs)
    obtain rfl := Option.some.inj (hr'.symm.trans hs')
    rw [hadded, hadded']
    exact ⟨_, _, Program.rule?_setRule hr, Program.rule?_setRule hr',
      ((halike.addOwned .unbound .unbound).addVar _ _).1⟩
  · -- A further goal, whose arguments are declared alike in the two rules.
    obtain ⟨⟨⟩, -⟩ | ⟨_, _, s', args', o', heq, hs', hargs', ho', rfl⟩ := extend_cases hpart'
    obtain ⟨rfl, rfl⟩ := BodyPart.goal.inj heq
    obtain rfl := Option.some.inj (hr.symm.trans hs)
    obtain rfl := Option.some.inj (hr'.symm.trans hs')
    obtain ⟨s, os, r₁, q, hs, hdeclared, hadded⟩ := addGoal_eq_ok ho
    obtain ⟨s', os', r₁', q', hs', hdeclared', hadded'⟩ := addGoal_eq_ok ho'
    obtain rfl := Option.some.inj (hr.symm.trans hs)
    obtain rfl := Option.some.inj (hr'.symm.trans hs')
    have hnodup := (hdb.owns.2.1 c r (Program.clause?_of_rule? hr)).locals_nodup
    have hnodup' := (hdb'.owns.2.1 c' r' (Program.clause?_of_rule? hr')).locals_nodup
    obtain ⟨hrules, hos⟩ :=
      hdeclared.alike hdeclared' (Slot.forall₂_of_args? hnodup hnodup' hargs hargs') halike
    rw [hadded, hadded']
    exact ⟨_, _, Program.rule?_setRule hr, Program.rule?_setRule hr', hrules.addGoal name hos⟩

/-- Adding to a body is one command. -/
theorem Reachable.extend (h : db.Reachable) {part : BodyPart N V}
    (hpart : db.extend c part = some db₁) : db₁.Reachable := by
  rcases extend_cases hpart with ⟨-, o, ho, rfl⟩ | ⟨name, _, _, args, o, -, -, -, ho, rfl⟩
  · have hexec : db.exec 0 (.addRuleVar c) = some (o.map .term) := by
      rw [Database.exec, ho]
      rfl
    exact h.exec hexec
  · have hexec : db.exec 0 (.addGoal c name args) = some (o.map fun () => .done) := by
      rw [Database.exec, ho]
      rfl
    exact h.exec hexec

theorem Reachable.extendAll (h : db.Reachable) {body : List (BodyPart N V)}
    (hbody : db.extendAll c body = some db₁) : db₁.Reachable := by
  induction body generalizing db with
  | nil =>
    obtain rfl := Option.some.inj hbody
    exact h
  | cons part rest ih =>
    obtain ⟨db₂, hpart, hrest⟩ := Option.bind_eq_some_iff.1 hbody
    exact ih (h.extend hpart) hrest

/-- Rules that are alike stay so when the same parts are added to their bodies. -/
theorem AlikeAt.extendAll (h : db.AlikeAt db' c c') (hdb : db.Reachable) (hdb' : db'.Reachable)
    {body : List (BodyPart N V)} (hbody : db.extendAll c body = some db₁)
    (hbody' : db'.extendAll c' body = some db₁') : db₁.AlikeAt db₁' c c' := by
  induction body generalizing db db' with
  | nil =>
    obtain rfl := Option.some.inj hbody
    obtain rfl := Option.some.inj hbody'
    exact h
  | cons part rest ih =>
    obtain ⟨db₂, hpart, hrest⟩ := Option.bind_eq_some_iff.1 hbody
    obtain ⟨db₂', hpart', hrest'⟩ := Option.bind_eq_some_iff.1 hbody'
    exact ih (h.extend hdb hdb' hpart hpart') (hdb.extend hpart) (hdb'.extend hpart') hrest hrest'

omit [DecidableEq N] [BEq V] in
/-- A body is added to a rule part by part. -/
theorem builds_extendAll {base : Database N V} (h : base.Builds c db) {body : List (BodyPart N V)}
    (hbody : db.extendAll c body = some db₁) : base.Builds c db₁ := by
  induction body generalizing db with
  | nil =>
    obtain rfl := Option.some.inj hbody
    exact h
  | cons part rest ih =>
    obtain ⟨db₂, hpart, hrest⟩ := Option.bind_eq_some_iff.1 hbody
    refine ih ?_ hrest
    rcases extend_cases hpart with ⟨-, o, ho, rfl⟩ | ⟨_, _, _, _, o, -, -, -, ho, rfl⟩
    · exact h.ruleVar ho
    · exact h.goal ho

/-- Loading a rule stores its head and adds its body part by part. -/
theorem exists_of_load_rule {params : List (Arg V)} {body : List (BodyPart N V)}
    (h : db.load (.rule name params body) = some db₁) :
    ∃ o, db.addRule name params = .ok o ∧ o.db.extendAll o.result body = some db₁ := by
  obtain ⟨o, ho, hbody⟩ := Option.bind_eq_some_iff.1 h
  exact ⟨o, ok_of_toOption ho, hbody⟩

/-- A declaration adds a clause. -/
theorem adds_of_load {d : Declaration N V} (h : db.load d = some db₁) : db.Adds db₁ := by
  cases d with
  | fact name vs =>
    obtain rfl := Option.some.inj h
    exact .fact name vs
  | rule name params body =>
    obtain ⟨o, ho, hbody⟩ := exists_of_load_rule h
    exact .rule ho (builds_extendAll .done hbody)

theorem Reachable.addRule (h : db.Reachable) {params : List (Arg V)} {o : Outcome N V ClauseId}
    (ho : db.addRule name params = .ok o) : o.db.Reachable := by
  have hexec : db.exec 0 (.addRule name params) = some (o.map .clause) := by
    rw [Database.exec, ho]
    rfl
  exact h.exec hexec

theorem Reachable.load (h : db.Reachable) {d : Declaration N V} (hd : db.load d = some db₁) :
    db₁.Reachable := by
  cases d with
  | fact name vs =>
    obtain rfl := Option.some.inj hd
    have hexec : db.exec 0 (.addFact name vs) = some ((db.addFact name vs).map .clause) := rfl
    exact h.exec hexec
  | rule name params body =>
    obtain ⟨o, ho, hbody⟩ := exists_of_load_rule hd
    exact (h.addRule ho).extendAll hbody

theorem Loaded.loadAll {config : Config} {ds more : List (Declaration N V)}
    (h : Loaded config ds db) (hmore : db.loadAll more = some db₁) :
    Loaded config (more.reverse ++ ds) db₁ := by
  induction more generalizing ds db with
  | nil =>
    obtain rfl := Option.some.inj hmore
    exact h
  | cons d rest ih =>
    obtain ⟨db₂, hd, hrest⟩ := Option.bind_eq_some_iff.1 hmore
    rw [List.reverse_cons, List.append_assoc]
    exact ih (h.load hd) hrest

/-- What declarations lead to can be looked up by loading them. -/
theorem Loaded.exists_loaded {config : Config} {ds : List (Declaration N V)}
    (h : Loaded config ds db) (more : List (Declaration N V)) (P : Database N V → Prop)
    [DecidablePred P] (hmore : (db.loadAll more).any (fun db₁ => P db₁) = true) :
    ∃ db₁, Loaded config (more.reverse ++ ds) db₁ ∧ P db₁ := by
  obtain ⟨db₁, hdb₁, hP⟩ := (Option.any_eq_true _ _).1 hmore
  exact ⟨db₁, h.loadAll hdb₁, of_decide_eq_true hP⟩

theorem Loaded.reachable {config : Config} {ds : List (Declaration N V)} (h : Loaded config ds db) :
    db.Reachable := by
  induction h with
  | empty => exact .empty config
  | load _ hd ih => exact ih.load hd
  | exec _ ho _ _ ih => exact ih.exec ho

omit [BEq V] in
/-- A change that declares and extends no clause is one of the pool. -/
theorem Change.eq_of_none (h : db.Change none none db₁) :
    ∃ q, db.pool.Preserves q ∧ db₁ = { db with pool := q } := by
  cases h with
  | pool hpool => exact ⟨_, hpool, rfl⟩
  | clause hdeclared => cases hdeclared
  | rule hextended => cases hextended

theorem Loaded.config_eq {config : Config} {ds : List (Declaration N V)} (h : Loaded config ds db) :
    db.config = config := by
  induction h with
  | empty => rfl
  | load _ hd ih => exact (adds_of_load hd).partOf.config_eq.trans ih
  | exec hloaded ho hdeclared hextended ih =>
    have hchange := change_exec hloaded.reachable.valid ho
    rw [hdeclared, hextended] at hchange
    obtain ⟨q, -, heq⟩ := hchange.eq_of_none
    rw [heq]
    exact ih

omit [BEq V] in
/-- Adding to a body lists no clause. -/
theorem candidates_extendAll {body : List (BodyPart N V)} (h : db.extendAll c body = some db₁) :
    db₁.program.candidates = db.program.candidates := by
  induction body generalizing db with
  | nil =>
    obtain rfl := Option.some.inj h
    rfl
  | cons part rest ih =>
    obtain ⟨db₂, hpart, hrest⟩ := Option.bind_eq_some_iff.1 h
    rw [ih hrest]
    rcases extend_cases hpart with ⟨-, o, ho, rfl⟩ | ⟨_, _, _, _, o, -, -, -, ho, rfl⟩
    · obtain ⟨r, -, -, hadded⟩ := addRuleVar_eq_ok ho
      rw [hadded]
      rfl
    · obtain ⟨s, os, r₁, q, -, -, hadded⟩ := addGoal_eq_ok ho
      rw [hadded]
      rfl

/-- A rule that is declared in full comes to stand at the end of its name's list. -/
theorem candidates_load_rule {params : List (Arg V)} {body : List (BodyPart N V)}
    (h : db.load (.rule name params body) = some db₁) (n : N) :
    db₁.program.candidates n = if n = name then db.program.candidates n ++ [db.program.nextId]
      else db.program.candidates n := by
  obtain ⟨o, ho, hbody⟩ := exists_of_load_rule h
  obtain ⟨-, -, hadded⟩ := addRule_eq_ok ho
  rw [candidates_extendAll hbody, hadded]
  have hname : (Rule.declareHead params { name } db.pool).1.name = name :=
    Rule.declareHead_name params _ _
  rw [Program.candidates_add, Clause.name, hname]

/-- One declaration of a rule makes rules that are alike. -/
theorem alikeAt_of_load (hdb : db.Reachable) (hdb' : db'.Reachable) {params : List (Arg V)}
    {body : List (BodyPart N V)} (h : db.load (.rule name params body) = some db₁)
    (h' : db'.load (.rule name params body) = some db₁') :
    db₁.AlikeAt db₁' db.program.nextId db'.program.nextId := by
  obtain ⟨o, ho, hbody⟩ := exists_of_load_rule h
  obtain ⟨o', ho', hbody'⟩ := exists_of_load_rule h'
  have hheaded := hdb.addRule ho
  have hheaded' := hdb'.addRule ho'
  obtain ⟨-, hid, hadded⟩ := addRule_eq_ok ho
  obtain ⟨-, hid', hadded'⟩ := addRule_eq_ok ho'
  rw [hid] at hbody
  rw [hid'] at hbody'
  refine AlikeAt.extendAll ?_ hheaded hheaded' hbody hbody'
  -- Before its head is declared, the rule is empty in both.
  have hnone : ({ name } : Rule N).Alike (db.pool.FixedUpTo Eq db'.pool) { name } :=
    ⟨rfl, rfl, .nil, .nil⟩
  have hrule : ∀ {prog : Program N} {r : Rule N},
      (prog.add (.rule r)).2.rule? prog.nextId = some r := by
    intro prog r
    rw [Program.rule?, Program.clause?_add, if_pos rfl]
  rw [hadded, hadded']
  exact ⟨_, _, hrule, hrule, Rule.declareHead_alike params hnone⟩

end Database

end Hornbase
