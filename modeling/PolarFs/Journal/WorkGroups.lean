/-
`WorkGroup` and `GroupedWorkRunner` (`pfs_work_groups.h`), which limit the reads of the leader record. Any
number of threads call `run`, each in any group. A critical section of a group's mutex is one step; the
work function is called outside of it and takes any time.

`try_lock` may fail at any time, as C++ allows. `counter_` is an `int` that wraps. For the statements the
state also has a clock of the steps, the executions that are over and the calls that have returned.
-/
import PolarFs.Lib.Fairness
import Mathlib.Tactic

namespace PolarFs.Work

open Transition
open Function (update update_self update_of_ne)

/-! ## The code -/

/-- An execution of the work function, by a thread whose call of `run` began at `began`. -/
structure Execution (ρ : Type) where
  thread : Nat
  began : Nat
  started : Nat
  finished : Nat
  result : Option ρ
  deriving DecidableEq

/-- `WorkGroup`, with the execution `result_` is from and the moment it was stored. -/
structure WorkGroup (ρ : Type) where
  inProgress : Bool
  counter : BitVec 32
  result : Option ρ
  exec : Option (Execution ρ)
  stored : Nat
  deriving DecidableEq

/-- Where a call of `run` is. -/
inductive Pc (ρ : Type) where
  /-- before `wait_or_run` -/
  | entering (g : Nat)
  /-- in the work function -/
  | running (g started : Nat)
  /-- before `notify_all` of group `i` -/
  | notifying (g i : Nat) (e : Execution ρ)
  /-- in `cv_.wait`; `moves` says how often the counter was moved since -/
  | waiting (g : Nat) (prevCounter : BitVec 32) (since moves : Nat)
  deriving DecidableEq

def Pc.waits {ρ : Type} : Pc ρ → Bool
  | .waiting .. => true
  | _ => false

structure Call (ρ : Type) where
  began : Nat
  pc : Pc ρ
  deriving DecidableEq

/-- A call that has returned `result`, which is from `exec`. -/
structure Returned (ρ : Type) where
  thread : Nat
  began : Nat
  time : Nat
  waited : Bool
  result : Option ρ
  exec : Option (Execution ρ)
  deriving DecidableEq

structure State (ρ : Type) where
  clock : Nat
  groups : Nat → WorkGroup ρ
  calls : Nat → Option (Call ρ)
  execs : List (Execution ρ)
  returns : List (Returned ρ)

inductive Event (ρ : Type) where
  /-- thread `i` calls `run`, `AccessSpreader::current` gives group `g` -/
  | call (i g : Nat)
  | enter (i : Nat)
  | finish (i : Nat) (res : Option ρ)
  | notify (i : Nat) (locked : Bool)
  | wake (i : Nat)
  /-- `run` returns after the loop -/
  | leave (i : Nat)

variable {ρ : Type} {e : Event ρ}

def Event.thread : Event ρ → Nat
  | .call i _ | .enter i | .finish i _ | .notify i _ | .wake i | .leave i => i

/-- One more move of the counter of group `g`, as a waiting call sees it. -/
def Call.moved (g : Nat) (c : Call ρ) : Call ρ :=
  match c.pc with
  | .waiting g' prev since moves => if g' = g then { c with pc := .waiting g' prev since (moves + 1) } else c
  | _ => c

namespace State

variable (s : State ρ)

def setCall (i : Nat) (c : Call ρ) : State ρ := { s with calls := update s.calls i (some c) }

/-- `result_ = res; counter_++; cv_.notify_all()`. -/
def store (g : Nat) (e : Execution ρ) (inProgress : Bool) : State ρ :=
  { s with groups := update s.groups g ⟨inProgress, (s.groups g).counter + 1, e.result, some e, s.clock⟩
           calls := fun j => (s.calls j).map (Call.moved g) }

/-- `run` of thread `i` returns. -/
def ret (i began : Nat) (waited : Bool) (result : Option ρ) (exec : Option (Execution ρ)) : State ρ :=
  { s with calls := update s.calls i none
           returns := ⟨i, began, s.clock, waited, result, exec⟩ :: s.returns }

def tick : State ρ := { s with clock := s.clock + 1 }

/-- The first critical section of `wait_or_run`. -/
def enter (i began g : Nat) : State ρ :=
  if (s.groups g).inProgress then s.setCall i ⟨began, .waiting g (s.groups g).counter s.clock 0⟩
  else { s with groups := update s.groups g { s.groups g with inProgress := true } }.setCall i
    ⟨began, .running g s.clock⟩

/-- The second critical section of `wait_or_run`, after the work function has answered `res`. -/
def finish (i began g started : Nat) (res : Option ρ) : State ρ :=
  let e : Execution ρ := ⟨i, began, started, s.clock, res⟩
  { s.store g e false with execs := e :: s.execs }.setCall i ⟨began, .notifying g 0 e⟩

/-- `WorkGroup::notify_all` of group `k`, from the loop of a call that ran the function in group `g`. -/
def notifyAll (i began g k : Nat) (e : Execution ρ) (locked : Bool) : State ρ :=
  (if k = g ∨ locked = true then s else s.store k e (s.groups k).inProgress).setCall i ⟨began, .notifying g (k + 1) e⟩

end State

/-- One step, with `size` groups. -/
def step (size : Nat) (s : State ρ) : Event ρ → Option (State ρ)
  | .call i g => if (s.calls i).isNone ∧ g < size then some (s.setCall i ⟨s.clock, .entering g⟩).tick else none
  | .enter i => match s.calls i with
    | some ⟨began, .entering g⟩ => some (s.enter i began g).tick
    | _ => none
  | .finish i res => match s.calls i with
    | some ⟨began, .running g started⟩ => some (s.finish i began g started res).tick
    | _ => none
  | .notify i locked => match s.calls i with
    | some ⟨began, .notifying g k e⟩ => if k < size then some (s.notifyAll i began g k e locked).tick else none
    | _ => none
  | .wake i => match s.calls i with
    | some ⟨began, .waiting g prev _ _⟩ =>
      if (s.groups g).counter ≠ prev then
        some (s.ret i began true (s.groups g).result (s.groups g).exec).tick
      else none
    | _ => none
  | .leave i => match s.calls i with
    | some ⟨began, .notifying _ k e⟩ => if size ≤ k then some (s.ret i began false e.result (some e)).tick else none
    | _ => none

/-- A new `GroupedWorkRunner` of `size` groups. -/
def workSystem (ρ : Type) (size : Nat) : System (State ρ) (Event ρ) where
  init s := (∀ g, s.groups g = ⟨false, 0, none, none, 0⟩) ∧ (∀ i, s.calls i = none) ∧ s.execs = [] ∧ s.returns = []
  step := step size

/-- What a step can do. -/
inductive Step (size : Nat) (s : State ρ) : Event ρ → State ρ → Prop where
  | call {i g : Nat} (hi : s.calls i = none) (hg : g < size) :
    Step size s (.call i g) (s.setCall i ⟨s.clock, .entering g⟩).tick
  | enter {i began g : Nat} (hi : s.calls i = some ⟨began, .entering g⟩) :
    Step size s (.enter i) (s.enter i began g).tick
  | finish {i began g started : Nat} {res : Option ρ} (hi : s.calls i = some ⟨began, .running g started⟩) :
    Step size s (.finish i res) (s.finish i began g started res).tick
  | notify {i began g k : Nat} {e : Execution ρ} {locked : Bool} (hi : s.calls i = some ⟨began, .notifying g k e⟩)
    (hk : k < size) : Step size s (.notify i locked) (s.notifyAll i began g k e locked).tick
  | wake {i began g since moves : Nat} {prev : BitVec 32} (hi : s.calls i = some ⟨began, .waiting g prev since moves⟩)
    (hc : (s.groups g).counter ≠ prev) :
    Step size s (.wake i) (s.ret i began true (s.groups g).result (s.groups g).exec).tick
  | leave {i began g k : Nat} {e : Execution ρ} (hi : s.calls i = some ⟨began, .notifying g k e⟩) (hk : size ≤ k) :
    Step size s (.leave i) (s.ret i began false e.result (some e)).tick

theorem step_cases {size : Nat} {s s' : State ρ} (h : step size s e = some s') : Step size s e s' := by
  cases e <;> simp only [step] at h
  case call i g =>
    obtain ⟨hcond, h⟩ := Option.ite_none_right_eq_some.1 h
    cases h
    exact .call (Option.isNone_iff_eq_none.1 hcond.1) hcond.2
  all_goals
    split at h
    case h_2 => cases h
  next hi => cases h; exact .enter hi
  next hi => cases h; exact .finish hi
  next hi =>
    obtain ⟨hk, h⟩ := Option.ite_none_right_eq_some.1 h
    cases h; exact .notify hi hk
  next hi =>
    obtain ⟨hc, h⟩ := Option.ite_none_right_eq_some.1 h
    cases h; exact .wake hi hc
  next hi =>
    obtain ⟨hk, h⟩ := Option.ite_none_right_eq_some.1 h
    cases h; exact .leave hi hk

/-! ## The invariant -/

/-- What holds of a call of thread `i` that began at `began`. -/
def PcOk (s : State ρ) (i began : Nat) : Pc ρ → Prop
  | .entering _ => True
  | .running g started => began < started ∧ started < s.clock ∧ (s.groups g).inProgress = true
  | .notifying _ _ e => e ∈ s.execs ∧ e.thread = i ∧ e.began = began
  | .waiting g prev since moves => began < since ∧ since < s.clock ∧
      (s.groups g).counter = prev + BitVec.ofNat 32 moves ∧ (moves = 0 → (s.groups g).inProgress = true) ∧
      (moves ≠ 0 → since < (s.groups g).stored ∧ (s.groups g).exec.isSome)

structure CallOk (s : State ρ) (i : Nat) (c : Call ρ) : Prop where
  began : c.began < s.clock
  /-- this call has not returned -/
  fresh : ∀ q ∈ s.returns, q.thread = i → q.began < c.began
  pc : PcOk s i c.began c.pc

/-- The stored result is that of a call which had not returned when it was stored. -/
structure Stored (s : State ρ) (w : WorkGroup ρ) (e : Execution ρ) : Prop where
  mem : e ∈ s.execs
  result : w.result = e.result
  order : e.finished ≤ w.stored ∧ w.stored < s.clock
  inside : ∀ q ∈ s.returns, q.thread = e.thread → q.began = e.began → w.stored < q.time

/-- What a call has returned. -/
structure Shared (s : State ρ) (r : Returned ρ) (e : Execution ρ) : Prop where
  exec : r.exec = some e
  mem : e ∈ s.execs
  result : r.result = e.result
  finished : e.finished < r.time
  /-- a call that ran the function returns its own result -/
  own : r.waited = false → e.thread = r.thread ∧ e.began = r.began
  /-- the call that ran it had not returned when this call began -/
  overlaps : ∀ q ∈ s.returns, q.thread = e.thread → q.began = e.began → r.began < q.time

structure Inv (s : State ρ) : Prop where
  call : ∀ i c, s.calls i = some c → CallOk s i c
  running : ∀ g, (s.groups g).inProgress = true → ∃ i began started, s.calls i = some ⟨began, .running g started⟩
  one : ∀ i j g b b' t t', s.calls i = some ⟨b, .running g t⟩ → s.calls j = some ⟨b', .running g t'⟩ → i = j
  stored : ∀ g e, (s.groups g).exec = some e → Stored s (s.groups g) e
  exec : ∀ e ∈ s.execs, e.began < e.started ∧ e.started < e.finished ∧ e.finished < s.clock
  ret : ∀ r ∈ s.returns, r.time < s.clock ∧ r.began < r.time ∧ ∃ e, Shared s r e

variable {size i g began n since moves : Nat} {s s' : State ρ} {c : Call ρ} {pc : Pc ρ} {prev : BitVec 32}

/-- The group whose fields a call depends on. -/
def Pc.group : Pc ρ → Option Nat
  | .running g _ | .waiting g _ _ _ => some g
  | _ => none

/-- What a step leaves of the record of the past. -/
structure Later (s s' : State ρ) : Prop where
  clock : s.clock ≤ s'.clock
  execs : ∀ e ∈ s.execs, e ∈ s'.execs
  returns : ∀ q ∈ s'.returns, q ∈ s.returns ∨ q.time = s.clock

/-- A call of a thread that does not return, whose group's fields stay as they are. -/
theorem CallOk.frame (h : CallOk s i c) (hl : Later s s') (hret : ∀ q ∈ s'.returns, q.thread = i → q ∈ s.returns)
    (hgroup : ∀ g, c.pc.group = some g → s'.groups g = s.groups g) : CallOk s' i c := by
  refine ⟨lt_of_lt_of_le h.began hl.clock, fun q hq hqi => h.fresh q (hret q hq hqi) hqi, ?_⟩
  have hpc := h.pc
  cases hc : c.pc with
  | entering g => trivial
  | running g started =>
    rw [hc] at hpc
    refine ⟨hpc.1, lt_of_lt_of_le hpc.2.1 hl.clock, ?_⟩
    rw [hgroup g (by rw [hc]; rfl)]
    exact hpc.2.2
  | notifying g k e =>
    rw [hc] at hpc
    exact ⟨hl.execs e hpc.1, hpc.2⟩
  | waiting g prev since moves =>
    rw [hc] at hpc
    refine ⟨hpc.1, lt_of_lt_of_le hpc.2.1 hl.clock, ?_⟩
    rw [hgroup g (by rw [hc]; rfl)]
    exact hpc.2.2

/-- A call in a group whose counter moves. -/
theorem CallOk.moved (h : CallOk s i c) (hl : Later s s') (hret : ∀ q ∈ s'.returns, q.thread = i → q ∈ s.returns)
    (hother : ∀ k, k ≠ g → s'.groups k = s.groups k) (hcounter : (s'.groups g).counter = (s.groups g).counter + 1)
    (hstored : (s'.groups g).stored = s.clock) (hexec : (s'.groups g).exec.isSome)
    (hrun : ∀ t, c.pc = .running g t → (s'.groups g).inProgress = (s.groups g).inProgress) :
    CallOk s' i (c.moved g) := by
  by_cases hg : c.pc.group = some g
  · obtain ⟨began, pc⟩ := c
    obtain ⟨hbegan, hfresh, hpc⟩ := h
    cases pc with
    | entering => cases hg
    | notifying => cases hg
    | running g' t =>
      cases hg
      refine ⟨lt_of_lt_of_le hbegan hl.clock, fun q hq hqi => hfresh q (hret q hq hqi) hqi, hpc.1,
        lt_of_lt_of_le hpc.2.1 hl.clock, ?_⟩
      rw [hrun t rfl]
      exact hpc.2.2
    | waiting g' prev since moves =>
      cases hg
      obtain ⟨hb, hs, hcnt, -, -⟩ := hpc
      rw [show (⟨began, .waiting g prev since moves⟩ : Call ρ).moved g = ⟨began, .waiting g prev since (moves + 1)⟩ from
        if_pos rfl]
      refine ⟨lt_of_lt_of_le hbegan hl.clock, fun q hq hqi => hfresh q (hret q hq hqi) hqi, hb,
        lt_of_lt_of_le hs hl.clock, ?_, nofun, fun _ => ⟨hstored ▸ hs, hexec⟩⟩
      rw [hcounter, hcnt, BitVec.ofNat_add, BitVec.add_assoc]
      rfl
  · have hsame : c.moved g = c := by
      obtain ⟨began, pc⟩ := c
      cases pc <;> try rfl
      exact if_neg fun heq => hg (congrArg some heq)
    rw [hsame]
    refine h.frame hl hret fun k hk => hother k ?_
    rintro rfl
    exact hg hk

theorem Stored.frame {w : WorkGroup ρ} {e : Execution ρ} (h : Stored s w e) (hl : Later s s') : Stored s' w e := by
  refine ⟨hl.execs e h.mem, h.result, ⟨h.order.1, lt_of_lt_of_le h.order.2 hl.clock⟩, fun q hq ht hb => ?_⟩
  rcases hl.returns q hq with hq | hq
  · exact h.inside q hq ht hb
  · rw [hq]
    exact h.order.2

namespace Inv

variable (h : Inv s)

include h

theorem ret_frame (hl : Later s s') {r : Returned ρ} (hr : r ∈ s.returns) :
    r.time < s'.clock ∧ r.began < r.time ∧ ∃ e, Shared s' r e := by
  obtain ⟨ht, hb, e, hs⟩ := h.ret r hr
  refine ⟨lt_of_lt_of_le ht hl.clock, hb, e, hs.exec, hl.execs e hs.mem, hs.result, hs.finished, hs.own, ?_⟩
  intro q hq hqt hqb
  rcases hl.returns q hq with hq | hq
  · exact hs.overlaps q hq hqt hqb
  · rw [hq]
    exact lt_trans hb ht

theorem exec_tick {e : Execution ρ} (he : e ∈ s.execs) :
    e.began < e.started ∧ e.started < e.finished ∧ e.finished < s.clock + 1 :=
  ⟨(h.exec e he).1, (h.exec e he).2.1, Nat.lt_succ_of_lt (h.exec e he).2.2⟩

/-- A call that goes from and to a program point outside of the work function. -/
theorem setCall (hold : ∀ b g t, s.calls i ≠ some ⟨b, .running g t⟩) (hnew : ∀ b g t, c ≠ ⟨b, .running g t⟩)
    (hc : CallOk (s.setCall i c).tick i c) : Inv (s.setCall i c).tick := by
  have hl : Later s (s.setCall i c).tick := ⟨Nat.le_succ _, fun _ he => he, fun _ hq => .inl hq⟩
  have hself : (s.setCall i c).tick.calls i = some c := update_self ..
  have hother : ∀ j, j ≠ i → (s.setCall i c).tick.calls j = s.calls j := fun j hj => update_of_ne hj ..
  have hrun : ∀ j b g t, (s.setCall i c).tick.calls j = some ⟨b, .running g t⟩ ↔ s.calls j = some ⟨b, .running g t⟩ := by
    intro j b g t
    by_cases hji : j = i
    · subst hji
      rw [hself]
      exact ⟨fun heq => absurd (Option.some.inj heq) (hnew b g t), fun heq => absurd heq (hold b g t)⟩
    · rw [hother j hji]
  refine ⟨fun j d hd => ?_, fun g hg => ?_, fun j k g b b' t t' hj hk => ?_, fun g e he => (h.stored g e he).frame hl,
    fun e he => h.exec_tick he, fun r hr => h.ret_frame hl hr⟩
  · by_cases hji : j = i
    · subst hji
      cases hself.symm.trans hd
      exact hc
    · exact (h.call j d (hother j hji ▸ hd)).frame hl (fun _ hq _ => hq) fun _ _ => rfl
  · obtain ⟨j, b, t, hj⟩ := h.running g hg
    exact ⟨j, b, t, (hrun j b g t).2 hj⟩
  · exact h.one j k g b b' t t' ((hrun j b g t).1 hj) ((hrun k b' g t').1 hk)

/-- A thread runs the work function in a group where no other one does. -/
theorem enterRun (hi : s.calls i = some ⟨began, .entering g⟩) (hg : ¬ (s.groups g).inProgress = true)
    (hclock : s'.clock = s.clock + 1) (hexecs : s'.execs = s.execs) (hrets : s'.returns = s.returns)
    (hself : s'.calls i = some ⟨began, .running g s.clock⟩) (hother : ∀ j, j ≠ i → s'.calls j = s.calls j)
    (hgself : s'.groups g = { s.groups g with inProgress := true })
    (hgother : ∀ k, k ≠ g → s'.groups k = s.groups k) : Inv s' := by
  have hl : Later s s' := ⟨by omega, fun e he => by rwa [hexecs], fun q hq => .inl (by rwa [← hrets])⟩
  have hno : ∀ j b t, s.calls j ≠ some ⟨b, .running g t⟩ := fun j b t hj => hg (h.call j _ hj).pc.2.2
  refine ⟨fun j d hd => ?_, fun k hk => ?_, fun j j' k b b' t t' hj hj' => ?_, fun k e he => ?_, fun e he => ?_,
    fun r hr => h.ret_frame hl (hrets ▸ hr)⟩
  · by_cases hji : j = i
    · subst hji
      cases hself.symm.trans hd
      have hc := h.call j _ hi
      refine ⟨by have := hc.began; rw [hclock]; exact Nat.lt_succ_of_lt this, fun q hq hqi => hc.fresh q (hrets ▸ hq) hqi,
        hc.began, by omega, by rw [hgself]⟩
    · rw [hother j hji] at hd
      have hc := h.call j d hd
      by_cases hdg : d.pc.group = some g
      · -- a call that waits in this group has seen its counter move
        obtain ⟨b, pc⟩ := d
        cases pc with
        | entering => cases hdg
        | notifying => cases hdg
        | running => cases hdg; exact absurd hd (hno j _ _)
        | waiting _ prev since moves =>
          cases hdg
          obtain ⟨hb, hs, hcnt, hz, hmv⟩ := hc.pc
          refine ⟨lt_of_lt_of_le hc.began hl.clock, fun q hq hqi => hc.fresh q (hrets ▸ hq) hqi, hb,
            lt_of_lt_of_le hs hl.clock, ?_, ?_, ?_⟩ <;> rw [hgself]
          · exact hcnt
          · exact fun _ => rfl
          · exact hmv
      · refine hc.frame hl (fun q hq _ => hrets ▸ hq) fun k hk => hgother k ?_
        rintro rfl
        exact hdg hk
  · by_cases hkg : k = g
    · subst hkg
      exact ⟨i, began, s.clock, hself⟩
    · rw [hgother k hkg] at hk
      obtain ⟨j, b, t, hj⟩ := h.running k hk
      refine ⟨j, b, t, ?_⟩
      rw [hother j, hj]
      rintro rfl
      cases hi.symm.trans hj
  · have hnew : ∀ j b t, s'.calls j = some ⟨b, .running k t⟩ → j = i ∨ (k ≠ g ∧ s.calls j = some ⟨b, .running k t⟩) := by
      intro j b t hj
      by_cases hji : j = i
      · exact .inl hji
      · rw [hother j hji] at hj
        refine .inr ⟨?_, hj⟩
        rintro rfl
        exact hno j b t hj
    have hik : ∀ j b t, s'.calls j = some ⟨b, .running k t⟩ → j = i → k = g := by
      rintro j b t hj rfl
      cases hself.symm.trans hj
      rfl
    rcases hnew j b t hj with hji | ⟨hk, hj₀⟩
    · rcases hnew j' b' t' hj' with hji' | ⟨hk, -⟩
      · rw [hji, hji']
      · exact absurd (hik j b t hj hji) hk
    · rcases hnew j' b' t' hj' with hji' | ⟨-, hj₀'⟩
      · exact absurd (hik j' b' t' hj' hji') hk
      · exact h.one j j' k b b' t t' hj₀ hj₀'
  · have hsame : (s'.groups k).exec = (s.groups k).exec ∧ (s'.groups k).result = (s.groups k).result ∧
        (s'.groups k).stored = (s.groups k).stored := by
      by_cases hkg : k = g
      · rw [hkg, hgself]
        exact ⟨rfl, rfl, rfl⟩
      · rw [hgother k hkg]
        exact ⟨rfl, rfl, rfl⟩
    have hst := (h.stored k e (hsame.1 ▸ he)).frame hl
    exact ⟨hst.mem, hsame.2.1 ▸ hst.result, hsame.2.2 ▸ hst.order, hsame.2.2 ▸ hst.inside⟩
  · rw [hclock]
    exact h.exec_tick (hexecs ▸ he)

/-- A result is stored in group `k`, by a thread that leaves the work function in it or is past it. -/
theorem stores {k : Nat} {e : Execution ρ} {ip : Bool} (hold : ∃ c, s.calls i = some c ∧ c.began = began)
    (he : e.thread = i ∧ e.began = began) (htimes : e.began < e.started ∧ e.started < e.finished ∧ e.finished ≤ s.clock)
    (hrun : ∀ b g t, s.calls i = some ⟨b, .running g t⟩ → g = k ∧ ip = false)
    (hip : ip = (s.groups k).inProgress ∨ ip = false ∧ ∃ b t, s.calls i = some ⟨b, .running k t⟩)
    (hclock : s'.clock = s.clock + 1) (hexecs : ∀ x, x ∈ s'.execs ↔ x ∈ s.execs ∨ x = e)
    (hrets : s'.returns = s.returns) (hself : s'.calls i = some ⟨began, .notifying g n e⟩)
    (hother : ∀ j, j ≠ i → s'.calls j = (s.calls j).map (Call.moved k))
    (hgself : s'.groups k = ⟨ip, (s.groups k).counter + 1, e.result, some e, s.clock⟩)
    (hgother : ∀ l, l ≠ k → s'.groups l = s.groups l) : Inv s' := by
  have hl : Later s s' := ⟨by omega, fun x hx => (hexecs x).2 (.inl hx), fun q hq => .inl (by rwa [← hrets])⟩
  obtain ⟨c, hc, hcb⟩ := hold
  have hmoved : ∀ j b g t, j ≠ i → (s'.calls j = some ⟨b, .running g t⟩ ↔ s.calls j = some ⟨b, .running g t⟩) := by
    intro j b g t hji
    rw [hother j hji]
    cases hd : s.calls j with
    | none => simp
    | some d =>
      obtain ⟨b', pc⟩ := d
      cases pc with
      | waiting g' prev since moves =>
        rw [Option.map_some]
        simp only [Call.moved]
        split <;> simp
      | _ => rw [Option.map_some]; rfl
  -- no other thread is in the function in this group when it is over
  have halone : ∀ j b t, j ≠ i → s.calls j = some ⟨b, .running k t⟩ → ip = (s.groups k).inProgress := by
    intro j b t hji hj
    rcases hip with hip | ⟨-, b', t', hi⟩
    · exact hip
    · exact absurd (h.one j i k b b' t t' hj hi) hji
  refine ⟨fun j d hd => ?_, fun l hlp => ?_, fun j j' l b b' t t' hj hj' => ?_, fun l x hx => ?_, fun x hx => ?_,
    fun r hr => h.ret_frame hl (hrets ▸ hr)⟩
  · by_cases hji : j = i
    · subst hji
      cases hself.symm.trans hd
      have hok := h.call j c hc
      refine ⟨?_, fun q hq hqi => hcb ▸ hok.fresh q (hrets ▸ hq) hqi, (hexecs e).2 (.inr rfl), he⟩
      have := hok.began
      rw [hcb] at this
      exact lt_of_lt_of_le this hl.clock
    · rw [hother j hji, Option.map_eq_some_iff] at hd
      obtain ⟨d₀, hd₀, rfl⟩ := hd
      refine (h.call j d₀ hd₀).moved hl (fun q hq _ => hrets ▸ hq) hgother (by rw [hgself]) (by rw [hgself])
        (by rw [hgself]; rfl) fun t ht => ?_
      obtain ⟨b, pc⟩ := d₀
      cases ht
      rw [hgself]
      exact halone j b t hji hd₀
  · by_cases hlk : l = k
    · subst hlk
      rw [hgself] at hlp
      rcases hip with hip | ⟨hip, -⟩
      · obtain ⟨j, b, t, hj⟩ := h.running l (hip ▸ hlp)
        have hji : j ≠ i := by
          rintro rfl
          have := (hrun b l t hj).2
          rw [show ip = true from hlp] at this
          cases this
        exact ⟨j, b, t, (hmoved j b l t hji).2 hj⟩
      · cases hip.symm.trans hlp
    · rw [hgother l hlk] at hlp
      obtain ⟨j, b, t, hj⟩ := h.running l hlp
      have hji : j ≠ i := by
        rintro rfl
        exact hlk (hrun b l t hj).1
      exact ⟨j, b, t, (hmoved j b l t hji).2 hj⟩
  · have hne : ∀ j b t, s'.calls j = some ⟨b, .running l t⟩ → j ≠ i := by
      rintro j b t hj rfl
      cases hself.symm.trans hj
    exact h.one j j' l b b' t t' ((hmoved j b l t (hne j b t hj)).1 hj) ((hmoved j' b' l t' (hne j' b' t' hj')).1 hj')
  · by_cases hlk : l = k
    · subst hlk
      rw [hgself] at hx ⊢
      cases hx
      refine ⟨(hexecs e).2 (.inr rfl), rfl, ⟨htimes.2.2, by rw [hclock]; exact Nat.lt_succ_self _⟩, ?_⟩
      -- the call that stores has not returned
      intro q hq hqt hqb
      have := (h.call i c hc).fresh q (hrets ▸ hq) (hqt.trans he.1)
      rw [hcb, hqb, he.2] at this
      exact absurd this (lt_irrefl _)
    · rw [hgother l hlk] at hx ⊢
      exact (h.stored l x hx).frame hl
  · rw [hclock]
    rcases (hexecs x).1 hx with hx | rfl
    · exact h.exec_tick hx
    · exact ⟨htimes.1, htimes.2.1, Nat.lt_succ_of_le htimes.2.2⟩

/-- A call returns; it is not in the work function. -/
theorem returns {waited : Bool} {result : Option ρ} {e : Execution ρ} (hi : s.calls i = some ⟨began, pc⟩)
    (hpc : ∀ g t, pc ≠ .running g t) (hmem : e ∈ s.execs) (hres : result = e.result)
    (hown : waited = false → e.thread = i ∧ e.began = began)
    (hover : ∀ q ∈ s.returns, q.thread = e.thread → q.began = e.began → began < q.time) :
    Inv (s.ret i began waited result (some e)).tick := by
  have hc := h.call i _ hi
  have hl : Later s (s.ret i began waited result (some e)).tick := by
    refine ⟨Nat.le_succ _, fun _ hx => hx, fun q hq => ?_⟩
    rcases List.mem_cons.1 hq with rfl | hq
    · exact .inr rfl
    · exact .inl hq
  have hself : (s.ret i began waited result (some e)).tick.calls i = none := update_self ..
  have hother : ∀ j, j ≠ i → (s.ret i began waited result (some e)).tick.calls j = s.calls j :=
    fun j hj => update_of_ne hj ..
  have hne : ∀ j d, (s.ret i began waited result (some e)).tick.calls j = some d → j ≠ i := by
    rintro j d hj rfl
    rw [hself] at hj
    cases hj
  refine ⟨fun j d hd => ?_, fun g hg => ?_, fun j j' g b b' t t' hj hj' => ?_, fun g x hx => (h.stored g x hx).frame hl,
    fun x hx => h.exec_tick hx, fun r hr => ?_⟩
  · have hji := hne j d hd
    refine (h.call j d (hother j hji ▸ hd)).frame hl (fun q hq hqj => ?_) fun _ _ => rfl
    rcases List.mem_cons.1 hq with rfl | hq
    · exact absurd hqj.symm hji
    · exact hq
  · obtain ⟨j, b, t, hj⟩ := h.running g hg
    refine ⟨j, b, t, ?_⟩
    rw [hother j, hj]
    rintro rfl
    cases hi.symm.trans hj
    exact hpc g t rfl
  · have hji := hne j _ hj
    have hji' := hne j' _ hj'
    rw [hother j hji] at hj
    rw [hother j' hji'] at hj'
    exact h.one j j' g b b' t t' hj hj'
  · rcases List.mem_cons.1 hr with rfl | hr
    · refine ⟨Nat.lt_succ_self _, hc.began, e, rfl, hmem, hres, (h.exec e hmem).2.2, hown, fun q hq hqt hqb => ?_⟩
      rcases List.mem_cons.1 hq with rfl | hq
      · exact hc.began
      · exact hover q hq hqt hqb
    · exact h.ret_frame hl hr

/-- A waiting call has seen a result stored since it waits. -/
theorem wakes (hi : s.calls i = some ⟨began, .waiting g prev since moves⟩) (hcnt : (s.groups g).counter ≠ prev) :
    ∃ e, (s.groups g).exec = some e ∧ Stored s (s.groups g) e ∧ began < (s.groups g).stored := by
  obtain ⟨hb, -, hc, -, hmv⟩ := (h.call i _ hi).pc
  have hne : moves ≠ 0 := by
    rintro rfl
    exact hcnt (hc.trans (BitVec.add_zero prev))
  obtain ⟨hs, hsome⟩ := hmv hne
  obtain ⟨e, he⟩ := Option.isSome_iff_exists.1 hsome
  exact ⟨e, he, h.stored g e he, lt_trans hb hs⟩

theorem step (hstep : Step size s e s') : Inv s' := by
  cases hstep with
  | @call i g hi hg =>
    refine h.setCall (fun b g t hc => by rw [hi] at hc; cases hc) nofun
      ⟨Nat.lt_succ_self _, fun q hq _ => lt_trans (h.ret q hq).2.1 (h.ret q hq).1, trivial⟩
  | @enter i began g hi =>
    by_cases hg : (s.groups g).inProgress = true
    · rw [State.enter, if_pos hg]
      have hc := h.call i _ hi
      refine h.setCall (fun b g t hc => by rw [hi] at hc; cases hc) nofun
        ⟨Nat.lt_succ_of_lt hc.began, hc.fresh, hc.began, Nat.lt_succ_self _, (BitVec.add_zero _).symm, fun _ => hg, ?_⟩
      exact fun hne => absurd rfl hne
    · rw [State.enter, if_neg hg]
      exact h.enterRun hi hg rfl rfl rfl (update_self ..) (fun j hj => update_of_ne hj ..) (update_self ..)
        fun k hk => update_of_ne hk ..
  | @finish i began g started res hi =>
    have hc := h.call i _ hi
    refine h.stores (e := ⟨i, began, started, s.clock, res⟩) ⟨_, hi, rfl⟩ ⟨rfl, rfl⟩ ⟨hc.pc.1, hc.pc.2.1, le_refl _⟩ ?_
      (.inr ⟨rfl, began, started, hi⟩) rfl (fun x => ?_) rfl (update_self ..) (fun j hj => update_of_ne hj ..)
      (update_self ..) fun l hl => update_of_ne hl ..
    · intro b g' t heq
      cases hi.symm.trans heq
      exact ⟨rfl, rfl⟩
    · exact List.mem_cons.trans or_comm
  | @notify i began g k e locked hi hk =>
    have hc := h.call i _ hi
    obtain ⟨hmem, hei, heb⟩ := hc.pc
    have hnot : ∀ b g t, s.calls i ≠ some ⟨b, .running g t⟩ := by
      intro b g t heq
      cases hi.symm.trans heq
    by_cases hskip : k = g ∨ locked = true
    · rw [State.notifyAll, if_pos hskip]
      exact h.setCall hnot nofun ⟨Nat.lt_succ_of_lt hc.began, hc.fresh, hmem, hei, heb⟩
    rw [State.notifyAll, if_neg hskip]
    obtain ⟨h1, h2, h3⟩ := h.exec e hmem
    refine h.stores ⟨_, hi, rfl⟩ ⟨hei, heb⟩ ⟨h1, h2, le_of_lt h3⟩ (fun b g t heq => absurd heq (hnot b g t)) (.inl rfl) rfl
      (fun x => ?_) rfl (update_self ..) (fun j hj => update_of_ne hj ..) (update_self ..)
      fun l hl => update_of_ne hl ..
    constructor
    · exact .inl
    · rintro (hx | rfl)
      · exact hx
      · exact hmem
  | @wake i began g since moves prev hi hcnt =>
    obtain ⟨e, he, hst, hb⟩ := h.wakes hi hcnt
    rw [he]
    exact h.returns hi nofun hst.mem hst.result nofun fun q hq hqt hqb => lt_trans hb (hst.inside q hq hqt hqb)
  | @leave i began g k e hi hk =>
    have hc := h.call i _ hi
    obtain ⟨hmem, hei, heb⟩ := hc.pc
    refine h.returns hi nofun hmem rfl (fun _ => ⟨hei, heb⟩) fun q hq hqt hqb => ?_
    have := hc.fresh q hq (hqt.trans hei)
    rw [hqb, heb] at this
    exact absurd this (lt_irrefl _)

end Inv

theorem inv_reachable (hs : (workSystem ρ size).Reachable s) : Inv s := by
  refine hs.invariant (P := Inv) ?_ fun _ _ _ _ hinv hstep => hinv.step (step_cases hstep)
  rintro s ⟨hgroups, hcalls, hexecs, hrets⟩
  refine ⟨fun i c hc => ?_, fun g hg => ?_, fun i _ _ _ _ _ _ hi => ?_, fun g e he => ?_, fun e he => ?_, fun r hr => ?_⟩
  · rw [hcalls] at hc; cases hc
  · rw [hgroups] at hg; cases hg
  · rw [hcalls] at hi; cases hi
  · rw [hgroups] at he; cases he
  · rw [hexecs] at he; cases he
  · rw [hrets] at hr; cases hr

/-! ## Waiting calls are released -/

/-- A waiting call can return once its counter was moved, and an execution in its group moves it. -/
structure Released (size : Nat) (s : State ρ) : Prop where
  busy : ∀ i began g prev since, s.calls i = some ⟨began, .waiting g prev since 0⟩ →
    ∃ j b t, s.calls j = some ⟨b, .running g t⟩
  moved : ∀ i began g prev since moves, s.calls i = some ⟨began, .waiting g prev since moves⟩ →
    moves % 2 ^ 32 ≠ 0 → (step size s (.wake i)).isSome
  finished : ∀ i began g prev since moves j b t res s', s.calls i = some ⟨began, .waiting g prev since moves⟩ →
    s.calls j = some ⟨b, .running g t⟩ → step size s (.finish j res) = some s' → (moves + 1) % 2 ^ 32 ≠ 0 →
    (step size s' (.wake i)).isSome

theorem Inv.wake_isSome (h : Inv s) (size : Nat) (hi : s.calls i = some ⟨began, .waiting g prev since moves⟩)
    (hm : moves % 2 ^ 32 ≠ 0) : (Work.step size s (.wake i)).isSome := by
  have hne : (s.groups g).counter ≠ prev := by
    obtain ⟨-, -, hc, -⟩ := (h.call i _ hi).pc
    intro heq
    have hz : BitVec.ofNat 32 moves = 0#32 := by
      rw [heq] at hc
      exact BitVec.add_right_eq_self.1 hc.symm
    exact hm (by simpa using congrArg BitVec.toNat hz)
  simp [Work.step, hi, hne]

/-- A step of another thread leaves a call as it is, or it moves the counter the call waits for. -/
theorem Step.other (h : Step size s e s') (hi : e.thread ≠ i) :
    s'.calls i = s.calls i ∨ ∃ g, s'.calls i = (s.calls i).map (Call.moved g) := by
  cases h with
  | call => exact .inl (update_of_ne (Ne.symm hi) ..)
  | @enter j began g hj =>
    left
    simp only [State.enter]
    split <;> exact update_of_ne (Ne.symm hi) ..
  | @finish j began g started res hj => exact .inr ⟨g, update_of_ne (Ne.symm hi) ..⟩
  | @notify j began g k e locked hj hk =>
    simp only [State.notifyAll]
    split
    · exact .inl (update_of_ne (Ne.symm hi) ..)
    · exact .inr ⟨k, update_of_ne (Ne.symm hi) ..⟩
  | wake | leave => exact .inl (update_of_ne (Ne.symm hi) ..)

/-- The end of the execution in a group moves the counter of every call that waits in it. -/
theorem Step.execution_moves (h : Step size s e s') {j b t : Nat} (hj : s.calls j = some ⟨b, .running g t⟩)
    (he : e.thread = j) (hi : s.calls i = some ⟨began, .waiting g prev since moves⟩) :
    s'.calls i = some ⟨began, .waiting g prev since (moves + 1)⟩ := by
  subst he
  cases h with
  | @finish j b' g' t' res hj' =>
    cases hj.symm.trans hj'
    have hij : i ≠ j := by
      rintro rfl
      cases hi.symm.trans hj
    have hmap : (s.finish j b g t res).tick.calls i = (s.calls i).map (Call.moved g) := update_of_ne hij ..
    rw [hmap, hi]
    exact congrArg some (if_pos rfl)
  | call hj' | enter hj' | notify hj' | wake hj' | leave hj' => cases hj.symm.trans hj'

theorem Inv.released (h : Inv s) : Released size s := by
  constructor
  case busy =>
    intro i began g prev since hi
    obtain ⟨-, -, -, hz, -⟩ := (h.call i _ hi).pc
    exact h.running g (hz rfl)
  case moved => exact fun i began g prev since moves hi hm => h.wake_isSome size hi hm
  case finished =>
    intro i began g prev since moves j b t res s' hi hj hstep hm
    have hs' := step_cases hstep
    exact (h.step hs').wake_isSome size (hs'.execution_moves hj rfl hi) hm

/-! ## Every call returns -/

/-- Thread `i` goes on in its call. -/
def GoesOn (i : Nat) (e : Event ρ) : Prop := e.thread = i ∧ ∀ g, e ≠ .call i g

/-- The call of thread `i` that began at `began` has returned. -/
def HasReturned (i began : Nat) (s : State ρ) : Prop := ∃ q ∈ s.returns, q.thread = i ∧ q.began = began

/-- No counter goes round while a call waits for it to move. -/
def NoRound (s : State ρ) : Prop :=
  ∀ i began g prev since moves, s.calls i = some ⟨began, .waiting g prev since moves⟩ → moves < 2 ^ 32

/-- What a call does next. -/
theorem Step.own (h : Step size s e s') (hi : s.calls i = some ⟨began, pc⟩) (he : e.thread = i) : match pc with
    | .entering g => s'.calls i = some ⟨began, .waiting g (s.groups g).counter s.clock 0⟩ ∨
        s'.calls i = some ⟨began, .running g s.clock⟩
    | .running g _ => ∃ x, s'.calls i = some ⟨began, .notifying g 0 x⟩
    | .notifying g k x => k < size ∧ s'.calls i = some ⟨began, .notifying g (k + 1) x⟩ ∨ size ≤ k ∧ HasReturned i began s'
    | .waiting g prev _ _ => (s.groups g).counter ≠ prev ∧ HasReturned i began s' := by
  subst he
  cases h with
  | call hj => cases hi.symm.trans hj
  | @enter j b g hj =>
    cases hi.symm.trans hj
    simp only [State.enter]
    split
    · exact .inl (update_self ..)
    · exact .inr (update_self ..)
  | finish hj =>
    cases hi.symm.trans hj
    exact ⟨_, update_self ..⟩
  | notify hj hk =>
    cases hi.symm.trans hj
    exact .inl ⟨hk, update_self ..⟩
  | wake hj hc =>
    cases hi.symm.trans hj
    exact ⟨hc, _, List.mem_cons_self, rfl, rfl⟩
  | leave hj hk =>
    cases hi.symm.trans hj
    exact .inr ⟨hk, _, List.mem_cons_self, rfl, rfl⟩

theorem enabled_own (hi : s.calls i = some ⟨began, pc⟩) (hpc : pc.waits = false) :
    (workSystem ρ size).Enabled (GoesOn i) s := by
  cases pc with
  | entering g => exact ⟨.enter i, ⟨rfl, nofun⟩, by simp [workSystem, step, hi]⟩
  | running g t => exact ⟨.finish i none, ⟨rfl, nofun⟩, by simp [workSystem, step, hi]⟩
  | notifying g k e =>
    by_cases hk : k < size
    · exact ⟨.notify i true, ⟨rfl, nofun⟩, by simp [workSystem, step, hi, hk]⟩
    · exact ⟨.leave i, ⟨rfl, nofun⟩, by simp [workSystem, step, hi, not_lt.1 hk]⟩
  | waiting => cases hpc

section Progress

variable {r : (workSystem ρ size).Run} (hfair : ∀ i, r.Fair (GoesOn i))

include hfair

theorem own_step {Q : State ρ → Prop} (hpc : pc.waits = false)
    (hown : ∀ s e s', s.calls i = some ⟨began, pc⟩ → Step size s e s' → e.thread = i → Q s')
    (h : (r.state n).calls i = some ⟨began, pc⟩) : ∃ m, n ≤ m ∧ Q (r.state m) := by
  refine System.Run.leadsTo (I := fun _ => True) (P := fun s => s.calls i = some ⟨began, pc⟩) (hfair i) (fun _ => trivial)
    ?_ ?_ (fun s _ hi => enabled_own hi hpc) h
  · intro s e s' _ _ hi hstep
    by_cases he : e.thread = i
    · exact .inr (hown s e s' hi (step_cases hstep) he)
    left
    rcases (step_cases hstep).other he with heq | ⟨g, heq⟩
    · rw [heq, hi]
    · rw [heq, hi, Option.map_some]
      cases pc with
      | waiting => cases hpc
      | _ => rfl
  · intro s e s' _ _ hi hA hstep
    exact hown s e s' hi (step_cases hstep) hA.1

theorem notifying_returns {x : Execution ρ} : ∀ (d k : Nat), size ≤ k + d → ∀ {n : Nat},
    (r.state n).calls i = some ⟨began, .notifying g k x⟩ → ∃ m, n ≤ m ∧ HasReturned i began (r.state m) := by
  intro d
  induction d with
  | zero =>
    intro k hk n h
    refine own_step hfair rfl (fun s e s' hi hstep he => ?_) h
    rcases hstep.own hi he with ⟨hlt, -⟩ | ⟨-, hret⟩
    · omega
    · exact hret
  | succ d ih =>
    intro k hk n h
    obtain ⟨m, hnm, hm⟩ := own_step hfair (Q := fun s => s.calls i = some ⟨began, .notifying g (k + 1) x⟩ ∨
      HasReturned i began s) rfl (fun s e s' hi hstep he => Or.imp And.right And.right (hstep.own hi he)) h
    rcases hm with hm | hm
    · obtain ⟨m', hmm', hm'⟩ := ih (k + 1) (by omega) hm
      exact ⟨m', le_trans hnm hmm', hm'⟩
    · exact ⟨m, hnm, hm⟩

theorem running_returns {t : Nat} (h : (r.state n).calls i = some ⟨began, .running g t⟩) :
    ∃ m, n ≤ m ∧ HasReturned i began (r.state m) := by
  obtain ⟨m, hnm, x, hm⟩ := own_step hfair rfl (fun s e s' hi hstep he => hstep.own hi he) h
  obtain ⟨m', hmm', hm'⟩ := notifying_returns hfair size 0 (by omega) hm
  exact ⟨m', le_trans hnm hmm', hm'⟩

variable (hround : ∀ n, NoRound (r.state n))

include hround

theorem moved_returns (hm : 0 < moves) (h : (r.state n).calls i = some ⟨began, .waiting g prev since moves⟩) :
    ∃ m, n ≤ m ∧ HasReturned i began (r.state m) := by
  refine System.Run.leadsTo (I := fun s => Inv s ∧ NoRound s)
    (P := fun s => ∃ moves, 0 < moves ∧ s.calls i = some ⟨began, .waiting g prev since moves⟩) (hfair i)
    (fun k => ⟨inv_reachable (r.reachable k), hround k⟩) ?_ ?_ ?_ ⟨moves, hm, h⟩
  · rintro s e s' _ _ ⟨moves, hm, hi⟩ hstep
    by_cases he : e.thread = i
    · exact .inr ((step_cases hstep).own hi he).2
    left
    rcases (step_cases hstep).other he with heq | ⟨k, heq⟩
    · exact ⟨moves, hm, heq.trans hi⟩
    · rw [hi, Option.map_some] at heq
      simp only [Call.moved] at heq
      split at heq
      · exact ⟨moves + 1, Nat.succ_pos _, heq⟩
      · exact ⟨moves, hm, heq⟩
  · rintro s e s' _ _ ⟨moves, -, hi⟩ hA hstep
    exact ((step_cases hstep).own hi hA.1).2
  · rintro s ⟨hinv, hlt⟩ ⟨moves, hm, hi⟩
    refine ⟨.wake i, ⟨rfl, nofun⟩, hinv.wake_isSome size hi ?_⟩
    rw [Nat.mod_eq_of_lt (hlt i began g prev since moves hi)]
    exact Nat.pos_iff_ne_zero.1 hm

/-- A call that waits for the execution in its group sees the counter move. -/
theorem waiting_returns (h : (r.state n).calls i = some ⟨began, .waiting g prev since moves⟩) :
    ∃ m, n ≤ m ∧ HasReturned i began (r.state m) := by
  rcases Nat.eq_zero_or_pos moves with rfl | hm
  case inr => exact moved_returns hfair hround hm h
  have hrel : Released size (r.state n) := (inv_reachable (r.reachable n)).released
  obtain ⟨j, b, t, hj⟩ := hrel.busy i began g prev since h
  obtain ⟨m, hnm, moves, hpos, hm⟩ : ∃ m, n ≤ m ∧
      ∃ moves, 0 < moves ∧ (r.state m).calls i = some ⟨began, .waiting g prev since moves⟩ := by
    refine System.Run.leadsTo (I := Inv) (Q := fun s => ∃ moves, 0 < moves ∧
      s.calls i = some ⟨began, .waiting g prev since moves⟩) (P := fun s => s.calls i = some ⟨began, .waiting g prev since 0⟩ ∧
      s.calls j = some ⟨b, .running g t⟩) (hfair j) (fun k => inv_reachable (r.reachable k)) ?_ ?_ ?_ ⟨h, hj⟩
    · rintro s e s' hinv _ ⟨hi, hj⟩ hstep
      by_cases hei : e.thread = i
      · -- its counter was not moved, so it cannot wake up
        obtain ⟨-, -, hc, -⟩ := (hinv.call i _ hi).pc
        exact absurd (hc.trans (BitVec.add_zero prev)) ((step_cases hstep).own hi hei).1
      · by_cases hej : e.thread = j
        · exact .inr ⟨1, Nat.one_pos, (step_cases hstep).execution_moves hj hej hi⟩
        · have hj' : s'.calls j = some ⟨b, .running g t⟩ := by
            rcases (step_cases hstep).other hej with heq | ⟨k, heq⟩
            · exact heq.trans hj
            · rw [heq, hj]
              rfl
          rcases (step_cases hstep).other hei with heq | ⟨k, heq⟩
          · exact .inl ⟨heq.trans hi, hj'⟩
          · rw [hi, Option.map_some] at heq
            simp only [Call.moved] at heq
            split at heq
            · exact .inr ⟨1, Nat.one_pos, heq⟩
            · exact .inl ⟨heq, hj'⟩
    · rintro s e s' _ _ ⟨hi, hj⟩ hA hstep
      exact ⟨1, Nat.one_pos, (step_cases hstep).execution_moves hj hA.1 hi⟩
    · rintro s _ ⟨-, hj⟩
      exact enabled_own hj rfl
  obtain ⟨m', hmm', hm'⟩ := moved_returns hfair hround hpos hm
  exact ⟨m', le_trans hnm hmm', hm'⟩

theorem call_returns (h : (r.state n).calls i = some c) : ∃ m, n ≤ m ∧ HasReturned i c.began (r.state m) := by
  obtain ⟨began, pc⟩ := c
  cases pc with
  | entering g =>
    obtain ⟨m, hnm, hm⟩ := own_step hfair (Q := fun s => (∃ prev since, s.calls i = some ⟨began, .waiting g prev since 0⟩) ∨
      ∃ t, s.calls i = some ⟨began, .running g t⟩) rfl
      (fun s e s' hi hstep he => Or.imp (fun h => ⟨_, _, h⟩) (fun h => ⟨_, h⟩) (hstep.own hi he)) h
    obtain ⟨m', hmm', hm'⟩ : ∃ m', m ≤ m' ∧ HasReturned i began (r.state m') := by
      rcases hm with ⟨prev, since, hm⟩ | ⟨t, hm⟩
      · exact waiting_returns hfair hround hm
      · exact running_returns hfair hm
    exact ⟨m', le_trans hnm hmm', hm'⟩
  | running g t => exact running_returns hfair h
  | notifying g k x => exact notifying_returns hfair size k (by omega) h
  | waiting g prev since moves => exact waiting_returns hfair hround h

end Progress

/-- Every call returns the result of an execution by a call that had not returned when it began, its own if it
did not wait. A waiting call can return when the execution in its group ends. If threads go on when they can,
the work function returns and no counter goes round under a waiting call, every call returns. -/
theorem grouped_work_shared (ρ : Type) (size : Nat) :
    (∀ s, (workSystem ρ size).Reachable s → (∀ r ∈ s.returns, ∃ e, Shared s r e ∧ e.began < e.started) ∧ Released size s) ∧
      ∀ r : (workSystem ρ size).Run, (∀ i, r.Fair (GoesOn i)) → (∀ n, NoRound (r.state n)) →
        ∀ n i c, (r.state n).calls i = some c → ∃ m, n ≤ m ∧ HasReturned i c.began (r.state m) := by
  refine ⟨fun s hs => ?_, fun r hfair hround n i c h => call_returns hfair hround h⟩
  have hinv := inv_reachable hs
  refine ⟨fun r hr => ?_, hinv.released⟩
  obtain ⟨-, -, e, he⟩ := hinv.ret r hr
  exact ⟨e, he, (hinv.exec e he.mem).1⟩

/-! ## Results older than the call -/

def newRunner : State Nat := ⟨0, fun _ => ⟨false, 0, none, none, 0⟩, fun _ => none, [], []⟩

/-- Thread 1 has run the function in group 0 before thread 2 calls `run` and waits in group 1, whose function
thread 3 is in; then thread 1 gets to group 1 in its loop. -/
def lateNotifyTrace : List (Event Nat) :=
  [.call 1 0, .enter 1, .call 3 1, .enter 3, .finish 1 (some 7), .notify 1 false, .call 2 1, .enter 2, .notify 1 false,
    .wake 2]

/-- Thread 2 waits in group 1; thread 1 begins and ends an execution in group 0 and finds group 1 locked. -/
def lockedTrace : List (Event Nat) :=
  [.call 3 1, .enter 3, .call 2 1, .enter 2, .call 1 0, .enter 1, .finish 1 (some 7), .notify 1 false, .notify 1 true,
    .leave 1]

/-- Thread 2 waits in the only group for the execution of thread 1, which ends. -/
def awaitedTrace : List (Event Nat) :=
  [.call 1 0, .enter 1, .call 2 0, .enter 2, .finish 1 none, .notify 1 true, .leave 1]

/-- One more call of thread 1. -/
def roundTrace : List (Event Nat) := [.call 1 0, .enter 1, .finish 1 none, .notify 1 true, .leave 1]

/-- Thread 2 still sleeps, its counter was moved `moves` times, and nobody is in the function. -/
def Asleep (moves : Nat) (s : State Nat) : Prop :=
  s.calls 1 = none ∧ (s.groups 0).inProgress = false ∧ ∃ b prev since, s.calls 2 = some ⟨b, .waiting 0 prev since moves⟩

theorem asleep_round {s : State Nat} (hs : (workSystem Nat 1).Reachable s) (h : Asleep moves s) :
    ∃ s', (workSystem Nat 1).Reachable s' ∧ Asleep (moves + 1) s' := by
  obtain ⟨h1, hg, b, prev, since, h2⟩ := h
  have hrun : ∃ s', (workSystem Nat 1).run s roundTrace = some s' ∧ Asleep (moves + 1) s' := by
    simp [System.run, roundTrace, workSystem, step, State.setCall, State.enter, State.finish, State.store, State.notifyAll,
      State.ret, State.tick, Call.moved, Asleep, h1, hg, h2]
  obtain ⟨s', hrun, hs'⟩ := hrun
  exact ⟨s', System.run_reachable hs hrun, hs'⟩

theorem newRunner_init (size : Nat) : (workSystem Nat size).init newRunner := ⟨fun _ => rfl, fun _ => rfl, rfl, rfl⟩

theorem asleep_moves : ∀ n, ∃ s, (workSystem Nat 1).Reachable s ∧ Asleep (n + 1) s
  | 0 => by
    have hs := (workSystem Nat 1).reachable_last newRunner awaitedTrace (newRunner_init 1) (by decide +kernel)
    exact ⟨_, hs, by decide +kernel, by decide +kernel, 2, 0, 3, by decide +kernel⟩
  | n + 1 => by
    obtain ⟨s, hs, h⟩ := asleep_moves n
    exact asleep_round hs h

/-- After 2^32 moves a sleeping call finds its counter as it was. -/
theorem asleep_after_round : ∃ s, (workSystem Nat 1).Reachable s ∧ ∃ b prev since,
    s.calls 2 = some ⟨b, .waiting 0 prev since (2 ^ 32)⟩ ∧ step 1 s (.wake 2) = none := by
  obtain ⟨s, hs, -, -, b, prev, since, h2⟩ := asleep_moves (2 ^ 32 - 1)
  refine ⟨s, hs, b, prev, since, h2, ?_⟩
  obtain ⟨-, -, hc, -⟩ := ((inv_reachable hs).call 2 _ h2).pc
  have hsame : (s.groups 0).counter = prev := by
    rw [hc]
    exact BitVec.add_zero prev
  simp only [step, h2, hsame, ne_eq, not_true_eq_false, if_false]

/-- A call may return the result of an execution that was over before the call began; one that began after the
call and is over need not let it return; and after 2^32 moves of its counter it sleeps on although the execution
is over. -/
theorem not_grouped_work_fresh :
    (∃ s, (workSystem Nat 2).Reachable s ∧ ∃ r ∈ s.returns, ∃ e, r.exec = some e ∧ e.finished < r.began) ∧
    (∃ s, (workSystem Nat 2).Reachable s ∧ ∃ i began g prev since moves, s.calls i = some ⟨began, .waiting g prev since moves⟩ ∧
      (∃ e ∈ s.execs, began < e.started ∧ HasReturned e.thread e.began s) ∧ step 2 s (.wake i) = none) ∧
    ∃ s, (workSystem Nat 1).Reachable s ∧ ∃ i began g prev since moves, s.calls i = some ⟨began, .waiting g prev since moves⟩ ∧
      0 < moves ∧ step 1 s (.wake i) = none := by
  refine ⟨?_, ?_, ?_⟩
  · have hs := (workSystem Nat 2).reachable_last newRunner lateNotifyTrace (newRunner_init 2) (by decide +kernel)
    refine ⟨_, hs, ?_⟩
    change ∃ r ∈ State.returns _, ∃ e ∈ r.exec, e.finished < r.began
    decide +kernel
  · have hs := (workSystem Nat 2).reachable_last newRunner lockedTrace (newRunner_init 2) (by decide +kernel)
    refine ⟨_, hs, 2, 2, 1, 0, 3, 0, by decide +kernel, ?_, Option.isNone_iff_eq_none.1 (by decide +kernel)⟩
    unfold HasReturned
    decide +kernel
  · obtain ⟨s, hs, b, prev, since, h2, hwake⟩ := asleep_after_round
    exact ⟨s, hs, 2, b, 0, prev, since, 2 ^ 32, h2, by decide, hwake⟩

end PolarFs.Work
