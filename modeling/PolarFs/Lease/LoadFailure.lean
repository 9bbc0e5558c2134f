/-
What a `pfs_leader_load` that fails leaves behind once it has announced itself. Each error exit
after the PREPARE write clears the host's sector first, except the one of a failed
`pfs_rw_lease_acquire`: there the PREPARE record, or the RW record if the failed write reached the
disk, stays until it expires.
-/
import PolarFs.Lease.Exclusion

namespace PolarFs.Lease

open Transition Host HostRecord

/-! ## The kill timer outside a holding period -/

/-- Where the kill timer can be armed: it is not during `pfs_leader_unload`, and outside the
renewals and the last step of `pfs_leader_load` only while the lease is held. -/
def TimerInv (h : Host) : Prop :=
  match h.pc with
  | .setHeld => True
  | .renewNow _ | .renewWrite _ _ | .renewPet => h.rwLeaseHeld = true
  | .unloadClear | .unloadDone => h.killTimer = none
  | _ => h.rwLeaseHeld = false → h.killTimer = none

/-- Whether the host is inside `pfs_rw_lease_renew` or `paxos_watchdog_pet`. -/
def Pc.renewing : Pc → Bool
  | .renewNow _ | .renewWrite _ _ | .renewPet => true
  | _ => false

variable {h : Host} {cfg : Config}

theorem TimerInv.of_none (hk : h.killTimer = none ∧ h.pc.renewing = false) : TimerInv h := by
  obtain ⟨hk, hp⟩ := hk
  unfold TimerInv
  cases hpc : h.pc <;> simp [hpc, Pc.renewing] at hp ⊢ <;> simp [hk]

theorem hostStep_timerInv {id : Nat} {io : Io} {sectors : Nat → HostRecord}
    (hh : h.rwLeaseHeld = true → h.pc.mayHold = true) (ht : TimerInv h) :
    TimerInv (hostStep cfg id io sectors h).1 := by
  have hnot := not_held hh
  cases hp : h.pc <;> rw [hp] at hnot <;> simp only [TimerInv, hp] at ht
  case idle => simp only [hostStep, hp, TimerInv]; exact ht
  case setHeld => simp [hostStep, hp, TimerInv]
  case unloadClear | unloadDone => simp [hostStep, hp, TimerInv, goto, ht]
  case renewNow => simpa [hostStep, hp, TimerInv, goto] using ht
  case renewWrite | renewPet => cases io <;> simp [hostStep, hp, TimerInv, goto, killTimerArm, ht]
  case watchdogOpen => cases io <;> simp [hostStep, hp, TimerInv, goto, killTimerArm, ht (hnot rfl)]
  case badReread _ _ todo _ => cases todo <;> simp [hostStep, hp, TimerInv, goto, ht (hnot rfl)]
  all_goals
    -- the points of an acquisition before the timer is armed
    have hk := ht (hnot rfl)
    refine .of_none ?_
    simp only [hostStep, hp]
    (repeat' split) <;> exact ⟨hk, rfl⟩

/-- In every reachable state every running host's kill timer is as its program point says. -/
theorem reachable_timerInv {s : State} (hr : (leaseSystem cfg).Reachable s) :
    ∀ i ∈ hostIds cfg, (s.hosts i).alive = true → TimerInv (s.hosts i) := by
  refine hr.invariant (P := fun s => ∀ i ∈ hostIds cfg, (s.hosts i).alive = true → TimerInv (s.hosts i)) ?_ ?_
  · rintro s ⟨-, hidle⟩ i hi -
    obtain ⟨h1, -, hk⟩ := hidle i hi
    obtain ⟨rv, hp⟩ := Pc.isIdle_iff.1 h1
    simp [TimerInv, hp, hk]
  · intro s e s' hrs ih he i hi ha
    have hinv := reachable_sysInv hrs
    -- only the host an event names changes, but for the clocks of a tick
    have hother : ∀ (j : Nat) (h' : Host), (h'.alive = true → TimerInv h') →
        (Function.update s.hosts j h' i).alive = true → TimerInv (Function.update s.hosts j h' i) := by
      intro j h' hj
      by_cases hij : i = j
      · subst hij; rw [Function.update_self]; exact hj
      · rw [Function.update_of_ne hij]; exact ih i hi
    cases e <;> simp only [leaseSystem, Lease.step, Option.ite_none_right_eq_some, Option.some.injEq] at he
    case run j io =>
      obtain ⟨⟨hj, hja⟩, rfl⟩ := he
      exact hother j _ (fun _ => hostStep_timerInv (hinv.host j hj hja).held (ih j hj hja)) ha
    case load j =>
      obtain ⟨⟨hj, hja, hidle, hheld⟩, rfl⟩ := he
      refine hother j _ (fun _ => ?_) ha
      have ht := ih j hj hja
      obtain ⟨rv, hp⟩ := Pc.isIdle_iff.1 hidle
      simpa [TimerInv, hp, goto] using ht
    case renew j =>
      obtain ⟨⟨-, -, -, hheld⟩, rfl⟩ := he
      exact hother j _ (fun _ => by simpa [TimerInv, goto] using hheld) ha
    case unload j =>
      obtain ⟨-, rfl⟩ := he
      exact hother j _ (fun _ => by simp [TimerInv]) ha
    case crash j =>
      subst he
      exact hother j _ (fun hf => by cases hf) ha
    case restart j bt =>
      obtain ⟨-, rfl⟩ := he
      exact hother j _ (fun _ => by simp [TimerInv, fresh]) ha
    case tick δ =>
      obtain ⟨-, rfl⟩ := he
      exact ih i hi ha

/-! ## The error exits after the PREPARE write -/

/-- The call's PREPARE write has been issued and the call has not returned. -/
def Pc.afterPrepare : Pc → Bool
  | .verifyNow .. | .verify .. | .acquireStart .. | .acquireNow .. | .acquireWrite .. | .prepareExpiry ..
  | .conflictNow _ | .conflict .. | .rwExpiry | .watchdogOpen | .setHeld | .clear _ => true
  | _ => false

/-- The next action is the write of `pfs_rw_lease_acquire` and it fails. -/
def Pc.acquireFails : Pc → Io → Bool
  | .acquireWrite .., .fail .. => true
  | _, _ => false

/-- The next action is the write of `pfs_host_record_clear` and it fails. -/
def Pc.clearFails : Pc → Io → Bool
  | .clear _, .fail .. => true
  | _, _ => false

/-- What a failed acquisition of host `i` should leave, `clearFailed` telling that a clearing write
was tried and failed. -/
structure NoTrace (s : State) (i : Nat) (clearFailed : Bool) : Prop where
  sector : clearFailed = false → s.sectors i = zero
  notHeld : (s.hosts i).rwLeaseHeld = false
  noTimer : (s.hosts i).killTimer = none

/-- The two ways a call returns an error after its PREPARE write: through a clearing write, or from
a failed acquire write. -/
theorem hostStep_error_return {id : Nat} {io : Io} {sectors : Nat → HostRecord} {rv : Int}
    (hp : h.pc.afterPrepare = true) (hret : (hostStep cfg id io sectors h).1.pc = .idle rv) (hneg : rv < 0) :
    (h.pc = .clear rv ∧ hostStep cfg id io sectors h = (h.goto (.idle rv), io.write zero)) ∨
    (∃ dead pi issue now landed, h.pc = .acquireWrite dead pi issue now ∧ io = .fail rv landed ∧
      hostStep cfg id io sectors h =
        (h.goto (.idle rv), io.write (rwRecord cfg id h.hostGeneration now h.currentBallot))) := by
  cases hpc : h.pc <;> rw [hpc] at hp <;> cases hp <;> simp only [hostStep, hpc] at hret ⊢
  case clear rv' =>
    simp only [goto, Pc.idle.injEq] at hret
    subst hret
    exact .inl ⟨rfl, rfl⟩
  case acquireWrite dead pi issue now =>
    cases io with
    | ok => simp at hret
    | fail rv' landed =>
      simp only [goto, Pc.idle.injEq] at hret
      subst hret
      exact .inr ⟨dead, pi, issue, now, landed, rfl, rfl, rfl⟩
  case setHeld =>
    simp only [Pc.idle.injEq] at hret
    subst hret
    exact absurd hneg (by decide)
  case watchdogOpen => cases io <;> simp [goto, killTimerArm] at hret
  case verifyNow | acquireStart | acquireNow | conflictNow => simp [goto] at hret
  case verify | prepareExpiry | conflict | rwExpiry => split_ifs at hret <;> simp [goto] at hret

theorem mkRecord_ne_zero (cfg : Config) (flags hostId generation now mbal bal : Nat) :
    mkRecord cfg flags hostId generation now mbal bal ≠ zero := by
  intro hz
  have hm : (mkRecord cfg flags hostId generation now mbal bal).magic = zero.magic := by rw [hz]
  exact absurd hm (by simp [mkRecord, pfsHostMagic, zero])

/-- Until the acquire write the sector holds the call's PREPARE record. -/
theorem HostInv.acquireWrite_sector {id : Nat} {X : HostRecord} {dead : List DeadSector} {pi issue now : Nat}
    (hi : HostInv cfg id h X) (hp : h.pc = .acquireWrite dead pi issue now) : X ≠ zero := by
  have hpc := hi.pc
  simp only [PcInv, hp] at hpc
  obtain ⟨⟨gen, now', rfl, -⟩, -⟩ := hpc
  exact mkRecord_ne_zero _ _ _ _ _ _ _

/-- The sector of the host that took the step: what it wrote if a write landed. -/
theorem State.apply_sector (s : State) (i : Nat) (r : Host × Option HostRecord) :
    (s.apply i r).sectors i = r.2.getD (s.sectors i) := by
  unfold State.apply
  cases r.2 <;> simp

/-- For any outcome of the I/O, any clock readings and any records of the other hosts: a
`pfs_leader_load` that returns an error after its PREPARE write leaves no trace exactly when it is not
the acquire write that failed. -/
theorem leaderLoad_error_noTrace {cfg : Config} {s s' : State} {i : Nat} {io : Io} {rv : Int}
    (hr : (leaseSystem cfg).Reachable s) (hp : (s.hosts i).pc.afterPrepare = true)
    (hs : step cfg s (.run i io) = some s') (hret : (s'.hosts i).pc = .idle rv) (hneg : rv < 0) :
    NoTrace s' i ((s.hosts i).pc.clearFails io) ↔ (s.hosts i).pc.acquireFails io = false := by
  simp only [step, Option.ite_none_right_eq_some, Option.some.injEq] at hs
  obtain ⟨⟨hi, ha⟩, rfl⟩ := hs
  have hinv := (reachable_sysInv hr).host i hi ha
  have htimer := reachable_timerInv hr i hi ha
  have hhost : (s.apply i (hostStep cfg i io s.sectors (s.hosts i))).hosts i =
      (hostStep cfg i io s.sectors (s.hosts i)).1 := Function.update_self ..
  rw [hhost] at hret
  rcases hostStep_error_return hp hret hneg with ⟨hpc, heq⟩ | ⟨dead, pi, issue, now, landed, hpc, rfl, heq⟩
  · -- a clearing exit: the sector is zero unless that write failed
    have hheld : (s.hosts i).rwLeaseHeld = false := not_held hinv.held (by rw [hpc]; rfl)
    simp only [TimerInv, hpc] at htimer
    simp only [hpc, Pc.acquireFails, iff_true]
    constructor
    · intro hok
      rw [State.apply_sector, heq]
      cases io with
      | ok => rfl
      | fail rv' landed => cases hok
    · rw [hhost, heq]; exact hheld
    · rw [hhost, heq]; exact htimer hheld
  · -- the acquire write failed: the sector holds the PREPARE or the RW record
    simp only [hpc, Pc.acquireFails, Bool.true_eq_false, iff_false]
    rintro ⟨hsec, -, -⟩
    have hz := hsec rfl
    rw [State.apply_sector, heq] at hz
    cases landed with
    | false => exact hinv.acquireWrite_sector hpc hz
    | true => exact mkRecord_ne_zero _ _ _ _ _ _ _ hz

/-- Host 1 is about to clear its sector after a failed PREPARE write. -/
def aboutToClear (s : State) : Bool := (s.hosts 1).alive && decide ((s.hosts 1).pc = .clear (-5))

/-- `pfs_leader_load` of host 1, its PREPARE write failing with EIO but reaching the disk. -/
def prepareFailsTrace : List Event := .load 1 :: (List.replicate 11 (.run 1 .ok) ++ [.run 1 (.fail (-5) true)])

theorem prepareFails_about_to_clear : ∃ s, (leaseSystem twoHosts).Reachable s ∧ aboutToClear s = true :=
  ⟨_, System.reachable_last _ allEmpty prepareFailsTrace allEmpty_init (by decide +kernel), by decide +kernel⟩

theorem leaderLoad_error_noTrace_prepare_fails :
    ∃ s s', (leaseSystem twoHosts).Reachable s ∧ step twoHosts s (.run 1 .ok) = some s' ∧ NoTrace s' 1 false := by
  obtain ⟨s, hs, hp⟩ := prepareFails_about_to_clear
  simp only [aboutToClear, Bool.and_eq_true, decide_eq_true_eq] at hp
  obtain ⟨ha, hpc⟩ := hp
  have hstep : step twoHosts s (.run 1 .ok) = some (s.apply 1 (hostStep twoHosts 1 .ok s.sectors (s.hosts 1))) :=
    if_pos ⟨by decide, ha⟩
  have hret : ((s.apply 1 (hostStep twoHosts 1 .ok s.sectors (s.hosts 1))).hosts 1).pc = .idle (-5) := by
    simp [State.apply, hostStep, hpc, goto]
  have hiff := leaderLoad_error_noTrace hs (by rw [hpc]; rfl) hstep hret (by decide)
  rw [hpc] at hiff
  exact ⟨s, _, hs, hstep, hiff.2 rfl⟩

/-! ## A failed acquire write -/

/-- Host 1 is about to issue the write of `pfs_rw_lease_acquire`, its PREPARE record on disk. -/
def aboutToAcquire (s : State) : Bool :=
  (s.hosts 1).alive && ((s.hosts 1).pc.acquireFails (.fail (-5) false) && decide (s.sectors 1 ≠ zero))

/-- `pfs_leader_load` of host 1 up to the acquire write, two host sectors, every I/O successful. -/
def prepareTrace : List Event := .load 1 :: List.replicate 18 (.run 1 .ok)

theorem prepare_about_to_acquire : ∃ s, (leaseSystem twoHosts).Reachable s ∧ aboutToAcquire s = true :=
  ⟨_, System.reachable_last _ allEmpty prepareTrace allEmpty_init (by decide +kernel), by decide +kernel⟩

/-- With an acquire write that fails with EIO the call returns with its PREPARE record on disk. -/
theorem not_leaderLoad_error_noTrace :
    ¬ ∀ (cfg : Config) (s s' : State) (i : Nat) (io : Io) (rv : Int), (leaseSystem cfg).Reachable s →
      (s.hosts i).pc.afterPrepare = true → step cfg s (.run i io) = some s' → (s'.hosts i).pc = .idle rv → rv < 0 →
      NoTrace s' i ((s.hosts i).pc.clearFails io) := by
  intro hall
  obtain ⟨s, hs, hp⟩ := prepare_about_to_acquire
  simp only [aboutToAcquire, Bool.and_eq_true, decide_eq_true_eq] at hp
  obtain ⟨ha, hacq, hsec⟩ := hp
  cases hpc : (s.hosts 1).pc <;> simp [hpc, Pc.acquireFails] at hacq
  case acquireWrite dead pi issue now =>
    have hstep : step twoHosts s (.run 1 (.fail (-5) false)) =
        some (s.apply 1 (hostStep twoHosts 1 (.fail (-5) false) s.sectors (s.hosts 1))) :=
      if_pos ⟨by decide, ha⟩
    have heq : hostStep twoHosts 1 (.fail (-5) false) s.sectors (s.hosts 1) = ((s.hosts 1).goto (.idle (-5)), none) := by
      simp [hostStep, hpc, Io.write, Io.landed]
    have hno := hall twoHosts s _ 1 (.fail (-5) false) (-5) hs (by rw [hpc]; rfl) hstep
      (by rw [heq]; simp [State.apply, goto]) (by decide)
    refine hsec ?_
    have hz := hno.sector (by rw [hpc]; rfl)
    rwa [State.apply_sector, heq] at hz

end PolarFs.Lease
