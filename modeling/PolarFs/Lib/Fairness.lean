/-
Infinite runs of a transition system, with moments at which nothing happens, and the progress rule of a
weakly fair set of events: from `P`, which only an event of the set ends and which keeps the set enabled,
the run gets to `Q`.
-/
import PolarFs.Lib.Transition

namespace Transition.System

variable {σ ε : Type*} (sys : System σ ε)

/-- An infinite run; at `none` nothing happens. -/
structure Run where
  state : Nat → σ
  event : Nat → Option ε
  init : sys.init (state 0)
  next : ∀ n, match event n with
    | some e => sys.step (state n) e = some (state (n + 1))
    | none => state (n + 1) = state n

/-- Some event of the set can happen. -/
def Enabled (A : ε → Prop) (s : σ) : Prop := ∃ e, A e ∧ (sys.step s e).isSome

variable {sys}

namespace Run

variable (r : sys.Run)

/-- Weak fairness: a set of events that stays enabled is not passed over for ever. -/
def Fair (A : ε → Prop) : Prop :=
  ∀ n, (∀ m, n ≤ m → sys.Enabled A (r.state m)) → ∃ m e, n ≤ m ∧ r.event m = some e ∧ A e

variable {r}

theorem reachable (n : Nat) : sys.Reachable (r.state n) := by
  induction n with
  | zero => exact .init r.init
  | succ n ih =>
    have hnext := r.next n
    cases he : r.event n with
    | none =>
      rw [he] at hnext
      rw [show r.state (n + 1) = r.state n from hnext]
      exact ih
    | some e =>
      rw [he] at hnext
      exact ih.step hnext

/-- The progress rule; `I` holds all along the run. -/
theorem leadsTo {I P Q : σ → Prop} {A : ε → Prop} (hfair : r.Fair A) (hI : ∀ n, I (r.state n))
    (hstep : ∀ s e s', I s → I s' → P s → sys.step s e = some s' → P s' ∨ Q s')
    (hact : ∀ s e s', I s → I s' → P s → A e → sys.step s e = some s' → Q s')
    (hen : ∀ s, I s → P s → sys.Enabled A s) {n : Nat} (h : P (r.state n)) : ∃ m, n ≤ m ∧ Q (r.state m) := by
  by_contra hno
  have hP : ∀ m, n ≤ m → P (r.state m) := by
    intro m hm
    induction hm with
    | refl => exact h
    | @step m hm ih =>
      have hnext := r.next m
      cases he : r.event m with
      | none =>
        rw [he] at hnext
        rw [show r.state (m + 1) = r.state m from hnext]
        exact ih
      | some e =>
        rw [he] at hnext
        rcases hstep _ e _ (hI m) (hI (m + 1)) ih hnext with hP' | hQ
        · exact hP'
        · exact absurd ⟨m + 1, Nat.le_succ_of_le hm, hQ⟩ hno
  obtain ⟨m, e, hm, he, hA⟩ := hfair n fun m hm => hen _ (hI m) (hP m hm)
  have hnext := r.next m
  rw [he] at hnext
  exact hno ⟨m + 1, Nat.le_succ_of_le hm, hact _ e _ (hI m) (hI (m + 1)) (hP m hm) hA hnext⟩

end Run

end Transition.System
