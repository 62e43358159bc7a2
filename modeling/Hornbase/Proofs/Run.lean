import Hornbase.Search

/-!
# Runs of a search

`Search.Run` relates a state of a search to one that it comes to after some rounds, and lists the
states in which answers were found on the way. The functions `next?` and `all?` count rounds; a run
does not. `next?_of_run` and `all?_of_run` say what they find when a run ends without open calls:
they find it for every number of rounds that is large enough, and for no number do they find
anything else. `run_of_next?` and `run_of_all?` are the ways back.
-/

namespace Hornbase.Search

universe u v

variable {N : Type u} {V : Type v} [DecidableEq N] [BEq V]

/-- Going on from a state for some rounds, past the answers found in the states of the list. -/
inductive Run (prog : Program N) (limit : Option Nat) :
    Search N V → List (Search N V) → Search N V → Prop
  | refl (s : Search N V) : Run prog limit s [] s
  | running {s s' t : Search N V} {found : List (Search N V)} :
      s.step prog limit = .running s' → Run prog limit s' found t → Run prog limit s found t
  | answered {s s' t : Search N V} {found : List (Search N V)} :
      s.step prog limit = .answered s' → Run prog limit (s'.report .retrying) found t →
      Run prog limit s (s' :: found) t

variable {prog : Program N} {limit : Option Nat}

theorem Run.trans {s t u : Search N V} {found more : List (Search N V)}
    (hst : Run prog limit s found t) (htu : Run prog limit t more u) :
    Run prog limit s (found ++ more) u := by
  induction hst with
  | refl => exact htu
  | running hstep _ ih => exact .running hstep (ih htu)
  | answered hstep _ ih => exact .answered hstep (ih htu)

/-- A state without open calls is the end. -/
theorem step_of_calls_nil {s : Search N V} (h : s.calls = []) :
    s.step prog limit = .exhausted s := by
  obtain ⟨pool, work, calls, log⟩ := s
  obtain rfl : calls = [] := h
  rfl

/-- Only a state without open calls is the end. -/
theorem calls_nil_of_exhausted {s t : Search N V} (h : s.step prog limit = .exhausted t) :
    s.calls = [] ∧ t = s := by
  obtain ⟨pool, work, calls, log⟩ := s
  cases calls with
  | nil => exact ⟨rfl, (Step.exhausted.inj h).symm⟩
  | cons c below =>
    exfalso
    simp only [step] at h
    split at h
    · cases h
    · split at h <;> cases h

/-! ## The number of rounds -/

/-- What is found within a number of rounds is found within any greater one. -/
theorem next?_mono {m n : Nat} (hmn : m ≤ n) {s : Search N V} {r : Bool × Search N V}
    (h : next? prog limit m s = some r) : next? prog limit n s = some r := by
  induction m generalizing n s with
  | zero => cases h
  | succ m ih =>
    obtain ⟨n, rfl⟩ : ∃ k, n = k + 1 := ⟨n - 1, by omega⟩
    simp only [next?] at h ⊢
    split at h
    · exact h
    · exact h
    · exact ih (by omega) h

/-- The answers found within a number of rounds are those found within any greater one. -/
theorem all?_mono {args : List TermId} {m n : Nat} (hmn : m ≤ n) {s : Search N V}
    {r : List (Answer V) × Search N V} (h : all? prog limit args m s = some r) :
    all? prog limit args n s = some r := by
  induction m generalizing n s r with
  | zero => cases h
  | succ m ih =>
    obtain ⟨n, rfl⟩ : ∃ k, n = k + 1 := ⟨n - 1, by omega⟩
    simp only [all?] at h ⊢
    split at h
    · exact h
    · exact ih (by omega) h
    · next s' hstep =>
      obtain ⟨rest, hrest, rfl⟩ := Option.map_eq_some_iff.1 h
      rw [ih (by omega) hrest]
      rfl

/-! ## From runs to their results -/

/-- What a search for all answers finds along a run comes before what it finds after it. -/
theorem Run.all?_eq {s t : Search N V} {found : List (Search N V)} (h : Run prog limit s found t)
    (args : List TermId) : ∃ k, ∀ rounds, all? prog limit args (rounds + k) s
      = (all? prog limit args rounds t).map fun (answers, u) =>
          (found.map (·.pool.answer args) ++ answers, u) := by
  induction h with
  | refl s => exact ⟨0, fun rounds => by simp⟩
  | running hstep _ ih =>
    obtain ⟨k, hk⟩ := ih
    refine ⟨k + 1, fun rounds => ?_⟩
    rw [← Nat.add_assoc, all?, hstep]
    exact hk rounds
  | answered hstep _ ih =>
    obtain ⟨k, hk⟩ := ih
    refine ⟨k + 1, fun rounds => ?_⟩
    rw [← Nat.add_assoc, all?, hstep]
    simp [hk rounds, Function.comp_def]

/-- A run to the end determines what a search for all answers gives. -/
theorem all?_of_run {s t : Search N V} {found : List (Search N V)} (h : Run prog limit s found t)
    (ht : t.calls = []) (args : List TermId) :
    (∃ rounds, (all? prog limit args rounds s).isSome) ∧
      ∀ rounds r, all? prog limit args rounds s = some r →
        r = (found.map (·.pool.answer args), t) := by
  obtain ⟨k, hk⟩ := h.all?_eq args
  have hend : all? prog limit args (1 + k) s = some (found.map (·.pool.answer args), t) := by
    rw [hk, all?, step_of_calls_nil ht]
    simp
  refine ⟨⟨1 + k, by rw [hend]; rfl⟩, fun rounds r hr => ?_⟩
  have hmax := all?_mono (Nat.le_max_left rounds (1 + k)) hr
  rw [all?_mono (Nat.le_max_right rounds (1 + k)) hend] at hmax
  exact (Option.some.inj hmax).symm

/-- What a search for one answer gives, by the answers found along a run to the end. -/
def firstOf (found : List (Search N V)) (t : Search N V) : Bool × Search N V :=
  match found with
  | [] => (false, t)
  | s :: _ => (true, s)

/-- A run to the end determines what a search for one answer gives. -/
theorem next?_of_run {s t : Search N V} {found : List (Search N V)} (h : Run prog limit s found t)
    (ht : t.calls = []) :
    (∃ rounds, (next? prog limit rounds s).isSome) ∧
      ∀ rounds r, next? prog limit rounds s = some r → r = firstOf found t := by
  have hend : ∃ k, next? prog limit k s = some (firstOf found t) := by
    induction h with
    | refl s => exact ⟨1, by rw [next?, step_of_calls_nil ht]; rfl⟩
    | running hstep _ ih =>
      obtain ⟨k, hk⟩ := ih ht
      exact ⟨k + 1, by rw [next?, hstep]; exact hk⟩
    | answered hstep _ _ => exact ⟨1, by rw [next?, hstep]; rfl⟩
  -- Two numbers of rounds are compared at the greater one, where both results are found.
  obtain ⟨k, hk⟩ := hend
  refine ⟨⟨k, by rw [hk]; rfl⟩, fun rounds r hr => ?_⟩
  have hmax := next?_mono (Nat.le_max_left rounds k) hr
  rw [next?_mono (Nat.le_max_right rounds k) hk] at hmax
  exact (Option.some.inj hmax).symm

/-! ## From results to runs -/

/-- A search for one answer that ends has run to an answer, or to the end. -/
theorem run_of_next? {n : Nat} {s t : Search N V} {b : Bool}
    (h : next? prog limit n s = some (b, t)) :
    (b = true ∧ ∃ u, Run prog limit s [] u ∧ u.step prog limit = .answered t) ∨
      (b = false ∧ Run prog limit s [] t ∧ t.calls = []) := by
  induction n generalizing s with
  | zero => cases h
  | succ n ih =>
    rw [next?] at h
    cases hstep : s.step prog limit with
    | exhausted u =>
      rw [hstep] at h
      obtain ⟨rfl, rfl⟩ := Prod.mk.inj (Option.some.inj h)
      obtain ⟨hcalls, rfl⟩ := calls_nil_of_exhausted hstep
      exact .inr ⟨rfl, .refl _, hcalls⟩
    | answered u =>
      rw [hstep] at h
      obtain ⟨rfl, rfl⟩ := Prod.mk.inj (Option.some.inj h)
      exact .inl ⟨rfl, s, .refl s, hstep⟩
    -- A round that goes on is put before the run that follows.
    | running s' =>
      rw [hstep] at h
      obtain ⟨hb, u, hrun, hu⟩ | ⟨hb, hrun, ht⟩ := ih h
      · exact .inl ⟨hb, u, .running hstep hrun, hu⟩
      · exact .inr ⟨hb, .running hstep hrun, ht⟩

/-- A search for all answers that ends has run to the end, past its answers. -/
theorem run_of_all? {args : List TermId} {n : Nat} {s t : Search N V} {answers : List (Answer V)}
    (h : all? prog limit args n s = some (answers, t)) :
    ∃ found, Run prog limit s found t ∧ t.calls = [] ∧
      answers = found.map (·.pool.answer args) := by
  induction n generalizing s answers with
  | zero => cases h
  | succ n ih =>
    rw [all?] at h
    cases hstep : s.step prog limit with
    | exhausted u =>
      rw [hstep] at h
      obtain ⟨rfl, rfl⟩ := Prod.mk.inj (Option.some.inj h)
      obtain ⟨hcalls, rfl⟩ := calls_nil_of_exhausted hstep
      exact ⟨[], .refl _, hcalls, rfl⟩
    | answered u =>
      rw [hstep] at h
      obtain ⟨⟨rest, t'⟩, hrest, heq⟩ := Option.map_eq_some_iff.1 h
      obtain ⟨rfl, rfl⟩ := Prod.mk.inj heq
      obtain ⟨found, hrun, ht, rfl⟩ := ih hrest
      exact ⟨u :: found, .answered hstep hrun, ht, rfl⟩
    | running s' =>
      rw [hstep] at h
      obtain ⟨found, hrun, ht, hanswers⟩ := ih h
      exact ⟨found, .running hstep hrun, ht, hanswers⟩

end Hornbase.Search
