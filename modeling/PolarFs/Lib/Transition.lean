/-
Guarded transition systems: an initial predicate and an executable step function that answers
`none` when the event is not enabled. Reachability, the invariant rule every safety result of the
development goes through, replay of a concrete event list, and the subsystem whose steps all meet
a side condition.
-/
import Mathlib.Data.List.Basic

namespace Transition

/-- A transition system over states `σ` and events `ε`. -/
structure System (σ : Type*) (ε : Type*) where
  init : σ → Prop
  step : σ → ε → Option σ

namespace System

variable {σ ε : Type*} (sys : System σ ε)

/-- The states some run from an initial state ends in. -/
inductive Reachable : σ → Prop where
  | init {s : σ} : sys.init s → Reachable s
  | step {s s' : σ} {e : ε} : Reachable s → sys.step s e = some s' → Reachable s'

/-- Replay of a list of events, `none` as soon as one of them is not enabled. -/
def run : σ → List ε → Option σ
  | s, [] => some s
  | s, e :: es => (sys.step s e).bind fun s' => run s' es

/-- The runs of `sys` whose steps all meet `ok`, as a system of its own. -/
def restrict (ok : σ → ε → Prop) [∀ s e, Decidable (ok s e)] : System σ ε where
  init := sys.init
  step s e := if ok s e then sys.step s e else none

variable {sys}

/-- The invariant rule: what holds initially and is kept by every step from a reachable state
holds in every reachable state. -/
theorem Reachable.invariant {P : σ → Prop} (hinit : ∀ s, sys.init s → P s)
    (hstep : ∀ s e s', sys.Reachable s → P s → sys.step s e = some s' → P s') {s : σ} (h : sys.Reachable s) : P s := by
  induction h with
  | init h0 => exact hinit _ h0
  | step hr he ih => exact hstep _ _ _ hr ih he

theorem run_reachable : ∀ {es : List ε} {s s' : σ}, sys.Reachable s → sys.run s es = some s' →
    sys.Reachable s'
  | [], s, s', hs, h => by cases h; exact hs
  | e :: es, s, s', hs, h => by
    rw [run, Option.bind_eq_some_iff] at h
    obtain ⟨t, ht, hrest⟩ := h
    exact run_reachable (hs.step ht) hrest

/-- The state a replay ends in is reachable. -/
theorem reachable_last (sys : System σ ε) (s : σ) (es : List ε) (h0 : sys.init s) (h : (sys.run s es).isSome) :
    sys.Reachable ((sys.run s es).get h) :=
  run_reachable (.init h0) (Option.some_get h).symm

theorem restrict_step {ok : σ → ε → Prop} [∀ s e, Decidable (ok s e)] {s s' : σ} {e : ε}
    (h : (sys.restrict ok).step s e = some s') : ok s e ∧ sys.step s e = some s' := by
  simp only [restrict] at h
  split at h
  · exact ⟨‹_›, h⟩
  · cases h

/-- The invariant rule for the runs whose steps all meet a condition. -/
theorem Reachable.invariant_restrict {ok : σ → ε → Prop} [∀ s e, Decidable (ok s e)] {P : σ → Prop}
    (hinit : ∀ s, sys.init s → P s) (hstep : ∀ s e s', P s → ok s e → sys.step s e = some s' → P s') {s : σ}
    (h : (sys.restrict ok).Reachable s) : P s := by
  induction h with
  | init h0 => exact hinit _ h0
  | step _ he ih =>
    obtain ⟨hok, he⟩ := restrict_step he
    exact hstep _ _ _ ih hok he

theorem Reachable.step_restrict {ok : σ → ε → Prop} [∀ s e, Decidable (ok s e)] {s s' : σ} {e : ε}
    (h : (sys.restrict ok).Reachable s) (hok : ok s e) (hs : sys.step s e = some s') : (sys.restrict ok).Reachable s' :=
  h.step (e := e) ((if_pos hok).trans hs)

theorem Reachable.of_restrict {ok : σ → ε → Prop} [∀ s e, Decidable (ok s e)] {s : σ}
    (h : (sys.restrict ok).Reachable s) : sys.Reachable s := by
  induction h with
  | init h0 => exact .init h0
  | step _ he ih => exact ih.step (restrict_step he).2

end System

end Transition
