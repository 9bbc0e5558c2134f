/-
The RW lease protocol as a transition system: `pfs_leader_load` from the bad-sector wait to
`mnt_rw_lease_held = true`, the log thread's renewal and `pfs_leader_unload`, on every host at once.

Each clock reading, one-sector read and one-sector write is a step of its own, so a host may stall
between any two of them; the clocks move in `tick` steps. A program counter carries the local
variables of the C functions. A `sleep` takes any amount of time, also none.
-/
import PolarFs.Lib.Transition
import PolarFs.Lease.Record

namespace PolarFs.Lease

open Transition

def ebusy : Int := -16
def eagain : Int := -11
def enomem : Int := -12
def pfsOk : Int := 1

/-! ## `pfs_rw_lease_wait_bad_sectors` -/

/-- What the last read of a watched sector saw. -/
inductive BadState where
  | unreadable
  | corrupt (raw : HostRecord)
  deriving DecidableEq, Repr

/-- `struct bad_sector`. -/
structure BadSector where
  hostId : Nat
  state : BadState
  switches : Nat
  since : Nat
  deriving DecidableEq, Repr

/-- What one re-read of a watched sector leads to. -/
inductive BadVerdict where
  | gone
  | busy
  | dead (d : DeadSector)
  | keep (it : BadSector)

/-- The end of the loop body, once `it` holds the current state of the sector. -/
def badWindow (cfg : Config) (now : Nat) (it : BadSector) : BadVerdict :=
  if leaseElapsedSec it.since now ≥ cfg.leaseDuration + cfg.clockSkewMax + 1 then
    match it.state with
    | .unreadable => .busy
    | .corrupt raw => .dead ⟨it.hostId, raw⟩
  else .keep it

/-- The body of the re-read loop, `now` taken before the round's reads and `seen` after this one. -/
def badVerdict (cfg : Config) (now seen : Nat) (it : BadSector) (rd : RecordRead) : BadVerdict :=
  match rd, it.state with
  | .empty, _ => .gone
  | .valid _, _ => .gone
  | .ioError _, .unreadable => badWindow cfg now it
  | .ioError _, .corrupt _ =>
    if it.switches + 1 > 2 then .busy
    else badWindow cfg now { it with state := .unreadable, switches := it.switches + 1, since := seen }
  | .emagic raw, .unreadable | .echecksum raw, .unreadable =>
    if it.switches + 1 > 2 then .busy
    else badWindow cfg now { it with state := .corrupt raw, switches := it.switches + 1, since := seen }
  | .emagic raw, .corrupt old | .echecksum raw, .corrupt old =>
    if old ≠ raw then .busy else badWindow cfg now it

/-! ## Program counters -/

/-- Which call of `pfs_rw_lease_check` is running: the one of `pfs_leader_load`, which may wait for
the blocker, or the re-check of `pfs_rw_lease_wait_and_check`. -/
inductive CheckCall where
  | first
  | recheck
  deriving DecidableEq, Repr

/-- Where a host is. `idle rv` is outside the three functions, `rv` their last return value. -/
inductive Pc where
  | idle (rv : Int)
  -- pfs_rw_lease_wait_bad_sectors
  | badScan (i : Nat) (bad : List BadSector)
  | badSeen (i : Nat) (bad : List BadSector) (state : BadState)
  | badSleep (bad : List BadSector) (dead : List DeadSector)
  | badReread (now : Nat) (done todo : List BadSector) (dead : List DeadSector)
  | badJudge (now : Nat) (done : List BadSector) (it : BadSector) (todo : List BadSector)
      (dead : List DeadSector) (rd : RecordRead)
  -- pfs_rw_lease_check
  | checkNow (dead : List DeadSector) (call : CheckCall)
  | check (dead : List DeadSector) (call : CheckCall) (now i : Nat) (fr : Freshest)
  -- pfs_rw_lease_wait_and_check
  | waitStart (dead : List DeadSector) (blocker : Nat)
  | waitSleep (dead : List DeadSector) (blocker initialTs : Nat)
  | waitPoll (dead : List DeadSector) (blocker initialTs now : Nat)
  -- generation read and pfs_rw_lease_prepare
  | readGeneration (dead : List DeadSector)
  | prepareStart (dead : List DeadSector)
  | prepareNow (dead : List DeadSector) (issue : Nat)
  | prepareWrite (dead : List DeadSector) (issue now : Nat)
  -- pfs_rw_lease_verify_prepare
  | verifyNow (dead : List DeadSector) (prepareIssue : Nat)
  | verify (dead : List DeadSector) (prepareIssue now i : Nat)
  -- pfs_rw_lease_acquire
  | acquireStart (dead : List DeadSector) (prepareIssue : Nat)
  | acquireNow (dead : List DeadSector) (prepareIssue issue : Nat)
  | acquireWrite (dead : List DeadSector) (prepareIssue issue now : Nat)
  -- the expiry tests around pfs_rw_lease_check_conflict
  | prepareExpiry (dead : List DeadSector) (prepareIssue : Nat)
  | conflictNow (dead : List DeadSector)
  | conflict (dead : List DeadSector) (now i : Nat)
  | rwExpiry
  | watchdogOpen
  | setHeld
  -- pfs_host_record_clear on a failure path
  | clear (rv : Int)
  -- pfs_rw_lease_renew and paxos_watchdog_pet
  | renewNow (issue : Nat)
  | renewWrite (issue now : Nat)
  | renewPet
  -- pfs_leader_unload after paxos_watchdog_close
  | unloadClear
  | unloadDone
  deriving DecidableEq, Repr

def Pc.isIdle : Pc → Bool
  | .idle _ => true
  | _ => false

theorem Pc.isIdle_iff {pc : Pc} : pc.isIdle = true ↔ ∃ rv, pc = .idle rv := by
  cases pc <;> simp [Pc.isIdle]

/-- Whether the host is inside `pfs_leader_unload`, its kill timer disarmed. -/
def Pc.unloading : Pc → Bool
  | .unloadClear | .unloadDone => true
  | _ => false

/-- One host: its process, its two clocks and the mount fields the protocol uses. `killTimer` is
the absolute LEASE_CLOCK deadline of the armed timer. -/
structure Host where
  alive : Bool
  pc : Pc
  rt : Nat
  bt : Nat
  hostGeneration : Nat
  currentBallot : Nat
  leaseWriteTime : Nat
  killTimer : Option Nat
  rwLeaseHeld : Bool
  deriving DecidableEq, Repr

def Host.goto (h : Host) (pc : Pc) : Host := { h with pc }

def Io.landed : Io → Bool
  | .ok => true
  | .fail _ landed => landed

/-- The content a write leaves in the sector, `none` if it did not reach the disk. -/
def Io.write (io : Io) (r : HostRecord) : Option HostRecord := if io.landed then some r else none

/-- `paxos_kill_timer_arm`: the timer is set to `mnt_lease_write_time + paxos_lease_duration`; a
deadline that is already past stops the process at once. -/
def Host.killTimerArm (cfg : Config) (h : Host) (next : Pc) : Host :=
  { h with alive := decide (h.bt ≤ h.leaseWriteTime + leaseNsec cfg),
           killTimer := some (h.leaseWriteTime + leaseNsec cfg), pc := next }

/-! ## One step of a host -/

section HostStep

variable (cfg : Config) (id : Nat) (io : Io) (sectors : Nat → HostRecord)

/-- The next atomic action of host `id`, with the content it leaves in its own sector. -/
def hostStep (h : Host) : Host × Option HostRecord :=
  match h.pc with
  | .idle _ => (h, none)
  | .badScan i bad =>
    if cfg.numHosts < i then (h.goto (.badSleep bad []), none)
    else if i = id then (h.goto (.badScan (i + 1) bad), none)
    else match hostRecordRead cfg io (sectors i) with
      | .empty | .valid _ => (h.goto (.badScan (i + 1) bad), none)
      | .ioError _ => (h.goto (.badSeen i bad .unreadable), none)
      | .emagic raw | .echecksum raw => (h.goto (.badSeen i bad (.corrupt raw)), none)
  | .badSeen i bad state => (h.goto (.badScan (i + 1) (bad ++ [⟨i, state, 0, h.bt⟩])), none)
  | .badSleep bad dead =>
    if bad.isEmpty then (h.goto (.checkNow dead .first), none)
    else (h.goto (.badReread h.bt [] bad dead), none)
  | .badReread _ done [] dead => (h.goto (.badSleep done dead), none)
  | .badReread now done (it :: todo) dead =>
    (h.goto (.badJudge now done it todo dead (hostRecordRead cfg io (sectors it.hostId))), none)
  | .badJudge now done it todo dead rd =>
    match badVerdict cfg now h.bt it rd with
    | .gone => (h.goto (.badReread now done todo dead), none)
    | .busy => (h.goto (.idle ebusy), none)
    | .dead d => (h.goto (.badReread now done todo (dead ++ [d])), none)
    | .keep it' => (h.goto (.badReread now (done ++ [it']) todo dead), none)
  | .checkNow dead call => (h.goto (.check dead call h.rt 1 ⟨0, 0⟩), none)
  | .check dead call now i fr =>
    if cfg.numHosts < i then
      if fr.id ≠ 0 then
        match call with
        | .first => (h.goto (.waitStart dead fr.id), none)
        | .recheck => (h.goto (.idle ebusy), none)
      else (h.goto (.readGeneration dead), none)
    else if i = id then (h.goto (.check dead call now (i + 1) fr), none)
    else match checkSector cfg dead now i fr (hostRecordRead cfg io (sectors i)) with
      | some fr' => (h.goto (.check dead call now (i + 1) fr'), none)
      | none => (h.goto (.idle ebusy), none)
  | .waitStart dead blocker =>
    match hostRecordRead cfg io (sectors blocker) with
    | .valid hr =>
      if hr.isRw then (h.goto (.waitSleep dead blocker hr.timestamp), none)
      else (h.goto (.checkNow dead .recheck), none)
    | _ => (h.goto (.checkNow dead .recheck), none)
  | .waitSleep dead blocker initialTs => (h.goto (.waitPoll dead blocker initialTs h.rt), none)
  | .waitPoll dead blocker initialTs now =>
    match hostRecordRead cfg io (sectors blocker) with
    | .valid hr =>
      if hr.timestamp ≠ initialTs then (h.goto (.idle ebusy), none)
      else if !hostRecordLive cfg initialTs now then (h.goto (.checkNow dead .recheck), none)
      else (h.goto (.waitSleep dead blocker initialTs), none)
    | _ => (h.goto (.checkNow dead .recheck), none)
  | .readGeneration dead =>
    match hostRecordRead cfg io (sectors id) with
    | .valid hr => ({ h with hostGeneration := hr.generation + 1, pc := .prepareStart dead }, none)
    | _ => ({ h with hostGeneration := 1, pc := .prepareStart dead }, none)
  | .prepareStart dead =>
    ({ h with currentBallot := ballotGenerate cfg h.hostGeneration id, pc := .prepareNow dead h.bt }, none)
  | .prepareNow dead issue => (h.goto (.prepareWrite dead issue h.rt), none)
  | .prepareWrite dead issue now =>
    let hr := prepareRecord cfg id h.hostGeneration now h.currentBallot
    match io with
    | .ok => ({ h with leaseWriteTime := issue, pc := .verifyNow dead issue }, some hr)
    | .fail rv _ => (h.goto (.clear rv), io.write hr)
  | .verifyNow dead prepareIssue => (h.goto (.verify dead prepareIssue h.rt 1), none)
  | .verify dead prepareIssue now i =>
    if cfg.numHosts < i then (h.goto (.acquireStart dead prepareIssue), none)
    else if i = id then (h.goto (.verify dead prepareIssue now (i + 1)), none)
    else if verifyPrepareSector cfg h.currentBallot dead now i (hostRecordRead cfg io (sectors i)) then
      (h.goto (.verify dead prepareIssue now (i + 1)), none)
    else (h.goto (.clear ebusy), none)
  | .acquireStart dead prepareIssue => (h.goto (.acquireNow dead prepareIssue h.bt), none)
  | .acquireNow dead prepareIssue issue => (h.goto (.acquireWrite dead prepareIssue issue h.rt), none)
  | .acquireWrite dead prepareIssue issue now =>
    let hr := rwRecord cfg id h.hostGeneration now h.currentBallot
    match io with
    | .ok => ({ h with leaseWriteTime := issue, pc := .prepareExpiry dead prepareIssue }, some hr)
    -- the record is left as it is on this path
    | .fail rv _ => (h.goto (.idle rv), io.write hr)
  | .prepareExpiry dead prepareIssue =>
    if leaseWriteExpired cfg prepareIssue h.bt then (h.goto (.clear ebusy), none)
    else (h.goto (.conflictNow dead), none)
  | .conflictNow dead => (h.goto (.conflict dead h.rt 1), none)
  | .conflict dead now i =>
    if cfg.numHosts < i then (h.goto .rwExpiry, none)
    else if i = id then (h.goto (.conflict dead now (i + 1)), none)
    else if checkConflictSector cfg h.currentBallot dead now i (hostRecordRead cfg io (sectors i)) then
      (h.goto (.conflict dead now (i + 1)), none)
    else (h.goto (.clear ebusy), none)
  | .rwExpiry =>
    if leaseWriteExpired cfg h.leaseWriteTime h.bt then (h.goto (.clear ebusy), none)
    else (h.goto .watchdogOpen, none)
  | .watchdogOpen =>
    match io with
    | .ok => (h.killTimerArm cfg .setHeld, none)
    | .fail rv _ => (h.goto (.clear (if rv = eagain then enomem else rv)), none)
  | .setHeld => ({ h with rwLeaseHeld := true, pc := .idle pfsOk }, none)
  | .clear rv => (h.goto (.idle rv), io.write HostRecord.zero)
  | .renewNow issue => (h.goto (.renewWrite issue h.rt), none)
  | .renewWrite issue now =>
    let hr := rwRecord cfg id h.hostGeneration now h.currentBallot
    match io with
    | .ok => ({ h with leaseWriteTime := issue, pc := .renewPet }, some hr)
    | .fail rv _ => (h.goto (.idle rv), io.write hr)
  | .renewPet =>
    match io with
    | .ok => (h.killTimerArm cfg (.idle 0), none)
    | .fail _ _ => (h.goto (.idle 0), none)
  | .unloadClear => (h.goto .unloadDone, io.write HostRecord.zero)
  | .unloadDone => ({ h with rwLeaseHeld := false, pc := .idle 0 }, none)

end HostStep

/-! ## The system -/

/-- All hosts and the paxos file's host sectors. -/
structure State where
  hosts : Nat → Host
  sectors : Nat → HostRecord

/-- What can happen. `load`, `renew` and `unload` start the three entry points; `renew` takes the
LEASE_CLOCK reading of `pfs_rw_lease_renew`, `unload` disarms the kill timer. -/
inductive Event where
  | run (i : Nat) (io : Io)
  | load (i : Nat)
  | renew (i : Nat)
  | unload (i : Nat)
  | crash (i : Nat)
  | restart (i bt : Nat)
  | tick (δ : Nat → Nat)

/-- The host ids `1..num_hosts`. -/
def hostIds (cfg : Config) : List Nat := List.range' 1 cfg.numHosts

/-- The CLOCK_REALTIME readings of any two hosts differ by at most the configured skew, and every
reading fits a 64-bit `time_t`. -/
def ClocksOk (cfg : Config) (hosts : Nat → Host) : Prop :=
  ∀ i ∈ hostIds cfg, tvSec (hosts i).rt < 2 ^ 63 ∧
    ∀ j ∈ hostIds cfg, (hosts i).rt ≤ (hosts j).rt + cfg.clockSkewMax * nsecPerSec

/-- No running host is past the deadline of its armed kill timer. -/
def TimersOk (cfg : Config) (hosts : Nat → Host) : Prop :=
  ∀ i ∈ hostIds cfg, (hosts i).alive = true → ∀ d ∈ (hosts i).killTimer, (hosts i).bt ≤ d

instance (cfg : Config) (hosts : Nat → Host) : Decidable (ClocksOk cfg hosts) :=
  inferInstanceAs (Decidable (∀ i ∈ hostIds cfg, _ ∧ ∀ j ∈ hostIds cfg, _))

instance (cfg : Config) (hosts : Nat → Host) : Decidable (TimersOk cfg hosts) :=
  inferInstanceAs (Decidable (∀ i ∈ hostIds cfg, _ → ∀ d ∈ (hosts i).killTimer, _))

def State.setHost (s : State) (i : Nat) (h : Host) : State :=
  { s with hosts := Function.update s.hosts i h }

/-- The effect of a host's action: its own state, and its own sector if a write landed. -/
def State.apply (s : State) (i : Nat) (r : Host × Option HostRecord) : State where
  hosts := Function.update s.hosts i r.1
  sectors := match r.2 with
    | some hr => Function.update s.sectors i hr
    | none => s.sectors

/-- Both clocks of a host after `δ` more nanoseconds. -/
def Host.tick (h : Host) (δ : Nat) : Host := { h with rt := h.rt + δ, bt := h.bt + δ }

/-- The hosts after their clocks advanced, host `i`'s two clocks both by `δ i`. -/
def advance (hosts : Nat → Host) (δ : Nat → Nat) (i : Nat) : Host := (hosts i).tick (δ i)

/-- A process that has just started on a machine with clocks `rt` and `bt`. -/
def Host.fresh (rt bt : Nat) : Host :=
  { alive := true, pc := .idle 0, rt, bt, hostGeneration := 0, currentBallot := 0, leaseWriteTime := 0,
    killTimer := none, rwLeaseHeld := false }

def step (cfg : Config) (s : State) : Event → Option State
  | .run i io =>
    if i ∈ hostIds cfg ∧ (s.hosts i).alive then
      some (s.apply i (hostStep cfg i io s.sectors (s.hosts i)))
    else none
  | .load i =>
    if i ∈ hostIds cfg ∧ (s.hosts i).alive ∧ (s.hosts i).pc.isIdle ∧ !(s.hosts i).rwLeaseHeld then
      some (s.setHost i ((s.hosts i).goto (.badScan 1 [])))
    else none
  | .renew i =>
    if i ∈ hostIds cfg ∧ (s.hosts i).alive ∧ (s.hosts i).pc.isIdle ∧ (s.hosts i).rwLeaseHeld then
      some (s.setHost i ((s.hosts i).goto (.renewNow (s.hosts i).bt)))
    else none
  | .unload i =>
    if i ∈ hostIds cfg ∧ (s.hosts i).alive ∧ (s.hosts i).pc.isIdle ∧ (s.hosts i).rwLeaseHeld then
      some (s.setHost i { s.hosts i with killTimer := none, pc := .unloadClear })
    else none
  | .crash i => some (s.setHost i { s.hosts i with alive := false })
  | .restart i bt =>
    if !(s.hosts i).alive then some (s.setHost i (Host.fresh (s.hosts i).rt bt)) else none
  | .tick δ =>
    if ClocksOk cfg (advance s.hosts δ) ∧ TimersOk cfg (advance s.hosts δ) then
      some { s with hosts := advance s.hosts δ }
    else none

/-- Every run starts with no host in the middle of the protocol; the sectors hold anything. -/
def Init (cfg : Config) (s : State) : Prop :=
  ClocksOk cfg s.hosts ∧
    ∀ i ∈ hostIds cfg, (s.hosts i).pc.isIdle ∧ (s.hosts i).rwLeaseHeld = false ∧ (s.hosts i).killTimer = none

def leaseSystem (cfg : Config) : System State Event where
  init := Init cfg
  step := step cfg

/-- Host `i` is running with `mnt_rw_lease_held = true`. -/
def Holds (s : State) (i : Nat) : Prop := (s.hosts i).alive = true ∧ (s.hosts i).rwLeaseHeld = true

end PolarFs.Lease
