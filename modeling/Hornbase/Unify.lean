import Hornbase.Pool

/-!
# Unification

A clause's stored terms, its parts, are unified with a caller's terms, its arguments, pair by pair
from left to right. A bound side flows into an unbound one and two bound sides must hold equal
values. Two unbound sides are not linked: the pair is put off, and whoever entered the clause copies
the value over once the part has one.
-/

namespace Hornbase

universe v

/-- What unifying one part with one argument calls for. -/
inductive Pairing (V : Type v) where
  /-- There is no such term. -/
  | unknown (term : TermId)
  /-- Both sides hold values, and they differ. -/
  | differ
  /-- Both sides hold equal values. -/
  | agree
  /-- One side is unbound and takes the value of the other. -/
  | flow (into : TermId) (value : V)
  /-- Neither side is bound. -/
  | bothUnbound

/-- The state in which unifying a list of pairs ends. -/
structure Matching (V : Type v) where
  pool : Pool V
  /-- The pairs of two unbound sides met on the way, in order. -/
  putOff : List (TermId × TermId)
  /-- The reason why the pairs do not unify, if they do not. -/
  failure : Option Failure

namespace Pool

variable {V : Type v} [BEq V]

/-- Looks at one pair. A part that holds a value calls for binding the argument to it. -/
def pairing (p : Pool V) (part arg : TermId) : Pairing V :=
  match p.term? part, p.term? arg with
  | none, _ => .unknown part
  | some _, none => .unknown arg
  | some ⟨some x⟩, some held =>
    match held.bind x with
    | .error .differs => .differ
    | .ok _ => if held.isBound then .agree else .flow arg x
  | some ⟨none⟩, some ⟨some y⟩ => .flow part y
  | some ⟨none⟩, some ⟨none⟩ => .bothUnbound

/-- A value flows into a term that is there and unbound. -/
theorem term?_of_pairing_flow {p : Pool V} {part arg into : TermId} {v : V}
    (h : p.pairing part arg = .flow into v) : p.term? into = some .unbound := by
  unfold pairing at h
  split at h
  · cases h
  · cases h
  · next x held _ harg =>
    -- The part is bound, so the value flows into the argument, unless that holds one too.
    split at h
    · cases h
    · split at h
      · cases h
      · next hunbound =>
        cases h
        obtain ⟨_ | w⟩ := held
        · exact harg
        · exact absurd rfl hunbound
  · next y hpart _ =>
    cases h
    exact hpart
  · cases h

/-- Unifies pairs of a part and an argument until one fails. What was bound before a failure stays
bound. -/
def unifyPairs : List (TermId × TermId) → Pool V → Matching V
  | [], p => ⟨p, [], none⟩
  | (part, arg) :: rest, p =>
    match p.pairing part arg with
    | .unknown t => ⟨p, [], some (.unknownTerm t)⟩
    | .differ => ⟨p, [], some (.clash arg)⟩
    | .agree => unifyPairs rest p
    | .flow into v => unifyPairs rest (p.assign into v)
    | .bothUnbound =>
      match unifyPairs rest p with
      | ⟨p, putOff, failure⟩ => ⟨p, (part, arg) :: putOff, failure⟩

/-- Unifies pairs of a part and an argument, all of them or none: after a failure nothing that was
bound on the way is left. -/
def unify (p : Pool V) (pairs : List (TermId × TermId)) : Matching V :=
  let mark := p.mark
  match unifyPairs pairs p with
  | ⟨p, putOff, none⟩ => ⟨p, putOff, none⟩
  | ⟨p, putOff, some failure⟩ => ⟨p.undo mark, putOff, some failure⟩

/-- Copies the values of the parts that have one onto their arguments, pair by pair until one fails.
What was bound before a failure stays bound. -/
def copyBack : List (TermId × TermId) → Pool V → Option Failure × Pool V
  | [], p => (none, p)
  | (part, arg) :: rest, p =>
    match p.value? part with
    | none => copyBack rest p
    | some _ =>
      match p.pairing part arg with
      | .unknown t => (some (.unknownTerm t), p)
      | .differ => (some (.clash arg), p)
      | .flow into v => copyBack rest (p.assign into v)
      | .agree | .bothUnbound => copyBack rest p

/-- Whether two tuples of stored terms could be unified: they are equally long, and no two terms at
the same position hold values that differ. -/
def compatible (p : Pool V) (xs ys : List TermId) : Bool :=
  xs.length == ys.length &&
    (xs.zip ys).all fun (x, y) =>
      match p.value? x, p.value? y with
      | some a, some b => a == b
      | _, _ => true

end Pool

end Hornbase
