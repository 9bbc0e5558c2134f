/-
One pfsd and the clients that share its mount (`pfs_mount.cc`): `pfs_mount_acquire`,
`pfs_mount_release` and `pfs_remount` count references for each host id and choose the one the mount
goes by, in whose sector the log thread renews the RW lease. Other hosts scan the sectors
`1..num_hosts` meanwhile, one read after the other.

The three calls hold `pfsd_mnt_shared_info_lock`, so they are steps here; `pfs_orphans_reclaim`, which
runs under it with the lease already held, is a step of its own. Mounts are with `MNTFLG_LOG`.
-/
import PolarFs.Lib.Transition
import PolarFs.Lease.Record
import PolarFs.Lease.RefTable

namespace PolarFs.Lease

open Transition
open Function (update)

/-- The last successful lease write: its issue by LEASE_CLOCK (`mnt_lease_write_time`), the
CLOCK_REALTIME reading in the record, and the sector. -/
structure LeaseWrite where
  issue : Nat
  now : Nat
  sector : Nat
  deriving DecidableEq, Repr

/-- How far the log thread is in `pfs_rw_lease_renew`. -/
inductive Renewing where
  | idle
  | issued (issue : Nat)
  | stamped (issue now : Nat)
  deriving DecidableEq, Repr

/-- The mount; `mnt_rw_lease_held` is true when there is a `lease`. -/
structure Mount where
  hostId : Nat
  writable : Bool
  hostGeneration : Nat
  currentBallot : Nat
  lease : Option LeaseWrite
  renewing : Renewing
  deriving DecidableEq, Repr

/-- The call that runs `pfs_orphans_reclaim`. -/
inductive Reclaim where
  | mount (hostId : Nat)
  | acquire (savedHostId hostId : Nat)
  | remount (savedHostId hostId : Nat)
  deriving DecidableEq, Repr

/-- A scan by another host: its clock reading, the next sector, whether it has met a live RW record of
this node. `during` is the sector of the lease this node held when the scan began, until it is given
back. -/
structure Scan where
  now : Nat
  next : Nat
  met : Bool
  during : Option Nat
  deriving DecidableEq, Repr

/-- The process, its clocks, and the sectors. -/
structure Pfsd extends RefTable where
  mnt : Option Mount
  reclaim : Option Reclaim
  sectors : Nat → HostRecord
  rt : Nat
  bt : Nat
  scans : Nat → Option Scan

/-- How `pfs_leader_load` of a writable mount ends: with the lease, where the readings of the RW
record were taken so long ago, or with an error that leaves some record in the sector. -/
inductive Load where
  | ok (issueAge nowAge generation : Nat)
  | fail (leftover : HostRecord)

/-! ## Reference counts -/

section Refs

variable (s : Pfsd) (hostId : Nat)

def Pfsd.setRefs (t : RefTable) : Pfsd := { s with toRefTable := t }

def Pfsd.hostIncref (wr : Bool) : Option Pfsd := (s.toRefTable.hostIncref hostId wr).map s.setRefs

def Pfsd.hostDecref : Option Pfsd := (s.toRefTable.hostDecref hostId).map s.setRefs

def Pfsd.hostPromotRef : Option Pfsd := (s.toRefTable.hostPromotRef hostId).map s.setRefs

/-- The callers of `pfs_host_depromot_ref` ignore its result. -/
def Pfsd.hostDepromotRef : Pfsd := ((s.toRefTable.hostDepromotRef hostId).map s.setRefs).getD s

end Refs

/-! ## Mounting -/

section Mounting

variable (cfg : Config) (s : Pfsd)

/-- The process is gone, and what the lease promised with it. -/
def Pfsd.die : Pfsd :=
  { s with
    infos := fun _ => ⟨0, false⟩, wrrefCount := 0, refCount := 0, mnt := none, reclaim := none
    scans := fun x => (s.scans x).map fun sc => { sc with during := none } }

/-- `pfs_leader_load` of a writable mount. -/
def Pfsd.leaderLoadRw (m : Mount) (load : Load) : Option Mount × (Nat → HostRecord) :=
  if cfg.numHosts < m.hostId then (none, s.sectors)
  else
    match load with
    | .ok issueAge nowAge generation =>
      if issueAge < leaseNsec cfg ∧ nowAge ≤ issueAge ∧ issueAge ≤ s.bt ∧ nowAge ≤ s.rt then
        let ballot := ballotGenerate cfg generation m.hostId
        (some { m with
          hostGeneration := generation, currentBallot := ballot, renewing := .idle
          lease := some ⟨s.bt - issueAge, s.rt - nowAge, m.hostId⟩ },
          update s.sectors m.hostId (rwRecord cfg m.hostId generation (s.rt - nowAge) ballot))
      else (none, s.sectors)
    | .fail leftover => (none, update s.sectors m.hostId leftover)

/-- `pfs_leader_unload`; the zero-write may fail. -/
def Pfsd.leaderUnload (m : Mount) (cleared : Bool) : Pfsd :=
  if m.lease.isSome then
    { s with
      sectors := if cleared then update s.sectors m.hostId HostRecord.zero else s.sectors
      scans := fun x => (s.scans x).map fun sc => { sc with during := none } }
  else s

/-- `pfs_remount_ro`; a failed read-only load exits. -/
def Pfsd.remountRo (m : Mount) (hostId : Nat) (cleared : Bool) : Pfsd :=
  if m.writable then
    let s := s.leaderUnload m cleared
    if cfg.numHosts < hostId then s.die
    else { s with mnt := some ⟨hostId, false, 0, 0, none, .idle⟩ }
  else { s with mnt := some { m with hostId := hostId } }

/-- `pfs_umount`. -/
def Pfsd.umount (m : Mount) (cleared : Bool) : Pfsd := { s.leaderUnload m cleared with mnt := none }

/-- `pfs_remount_rw` up to `pfs_orphans_reclaim`: the process and whether the mount is writable now.
On a failure the mount is loaded read-only again under its old host id. -/
def Pfsd.remountRw (m : Mount) (hostId : Nat) (load : Load) : Pfsd × Bool :=
  match s.leaderLoadRw cfg { m with hostId := hostId, writable := true } load with
  | (some m', sectors) => ({ s with mnt := some m', sectors := sectors }, true)
  | (none, sectors) =>
    let s := { s with sectors := sectors }
    if cfg.numHosts < m.hostId then (s.die, false) else (s, false)

/-- `pfs_mount` up to `pfs_orphans_reclaim`. -/
def Pfsd.mount (hostId : Nat) (wr : Bool) (load : Load) : Pfsd :=
  let m : Mount := ⟨if hostId = 0 then cfg.numHosts else hostId, wr, 0, 0, none, .idle⟩
  if wr then
    let r := s.leaderLoadRw cfg m load
    { s with mnt := r.1, sectors := r.2 }
  else if cfg.numHosts < hostId then s
  else { s with mnt := some m }

end Mounting

/-! ## The calls -/

section Calls

variable (cfg : Config) (s : Pfsd)

/-- `host_id` 0 stands for the last one. -/
def Config.realHostId (hostId : Nat) : Nat := if hostId = 0 then cfg.numHosts else hostId

/-- The part of `pfs_mount_acquire` that finds the mount in place. -/
def Pfsd.acquireMounted (m : Mount) (hostId : Nat) (wr : Bool) (load : Load) : Pfsd :=
  match s.hostIncref hostId wr with
  | none => s
  | some s' =>
    if wr && !m.writable then
      match s'.remountRw cfg m hostId load with
      | (s', true) => { s' with reclaim := some (.acquire m.hostId hostId) }
      | (s', false) => (s'.hostDecref hostId).getD s'
    else s'

/-- `pfs_mount_acquire`; a new writable mount goes on in `orphansReclaim`. -/
def Pfsd.acquire (hostId : Nat) (wr : Bool) (load : Load) : Pfsd :=
  if defaultMaxHosts < hostId then s
  else
    match s.mnt with
    | some m => s.acquireMounted cfg m (cfg.realHostId hostId) wr load
    | none =>
      let s := s.mount cfg hostId wr load
      match s.mnt with
      | none => s
      | some m =>
        if wr then { s with reclaim := some (.mount (cfg.realHostId hostId)) }
        else s.acquireMounted cfg m (cfg.realHostId hostId) wr load

/-- The end of `pfs_orphans_reclaim`; `none` for the failed assertion of a call that finds no mount. -/
def Pfsd.orphansReclaim (r : Reclaim) (ok cleared : Bool) : Option Pfsd :=
  s.mnt.map fun m =>
    let s := { s with reclaim := none }
    match r with
    | .mount hostId => if ok then (s.hostIncref hostId true).getD s else s.umount m cleared
    | .acquire savedHostId hostId =>
      if ok then s
      else
        let s := s.remountRo cfg m savedHostId cleared
        (s.hostDecref hostId).getD s
    | .remount savedHostId hostId => if ok then s else (s.remountRo cfg m savedHostId cleared).hostDepromotRef hostId

/-- `pfs_mount_release`; `none` when an assertion fails. -/
def Pfsd.release (hostId : Nat) (cleared : Bool) : Option Pfsd :=
  if defaultMaxHosts < hostId then some s
  else
    match s.mnt with
    | none => some s
    | some m =>
      let hostId := cfg.realHostId hostId
      match s.hostDecref hostId with
      | none => some s
      | some s =>
        if s.wrrefCount ≠ 0 then
          -- LOG_TRY_RESET_LOCK
          if m.hostId = hostId then s.hostGetAnotherWrid.map fun next => { s with mnt := some { m with hostId := next } }
          else some s
        else if s.refCount ≠ 0 then
          if m.hostId = hostId then s.hostGetAnotherId.map fun next => s.remountRo cfg m next cleared
          else some s
        else some (s.umount m cleared)

/-- `pfs_remount`. -/
def Pfsd.remount (hostId : Nat) (load : Load) : Pfsd :=
  if hostId = 0 ∨ defaultMaxHosts < hostId then s
  else
    match s.mnt with
    | none => s
    | some m =>
      match s.hostPromotRef hostId with
      | none => s
      | some s =>
        if m.writable then s
        else
          match s.remountRw cfg m hostId load with
          | (s, true) => { s with reclaim := some (.remount m.hostId hostId) }
          | (s, false) => s.hostDepromotRef hostId

end Calls

/-! ## Steps -/

/-- What happens: calls of clients, the log thread's renewals, time, other hosts. -/
inductive PfsdEvent where
  | acquire (hostId : Nat) (wr : Bool) (load : Load)
  | orphans (ok cleared : Bool)
  | release (hostId : Nat) (cleared : Bool)
  | remount (hostId : Nat) (load : Load)
  | renewIssue
  | renewNow
  | renewWrite (io : Io)
  | tick (d : Nat)
  | die
  /-- host `x` starts a scan, by its own clock -/
  | scanStart (x now : Nat)
  | scanRead (x : Nat)
  /-- another host writes its sector -/
  | otherWrite (j : Nat) (hr : HostRecord)

/-- The mount is not in the middle of a renewal: the log thread serves requests between two. -/
def Pfsd.renewIdle (s : Pfsd) : Bool :=
  match s.mnt with
  | some m => m.renewing = .idle
  | none => true

/-- `pfs_rw_lease_renew`, from one clock reading to the next and to the write. -/
def Pfsd.renew (cfg : Config) (s : Pfsd) (m : Mount) (w : LeaseWrite) : PfsdEvent → Option Pfsd
  | .renewIssue => if m.renewing = .idle then some { s with mnt := some { m with renewing := .issued s.bt } } else none
  | .renewNow =>
    match m.renewing with
    | .issued issue => some { s with mnt := some { m with renewing := .stamped issue s.rt } }
    | _ => none
  | .renewWrite io =>
    match m.renewing with
    | .stamped issue now =>
      let hr := rwRecord cfg m.hostId m.hostGeneration now m.currentBallot
      let landed := match io with | .ok => true | .fail _ landed => landed
      let lease := match io with | .ok => ⟨issue, now, m.hostId⟩ | .fail _ _ => w
      some { s with
        sectors := if landed then update s.sectors m.hostId hr else s.sectors
        mnt := some { m with lease := some lease, renewing := .idle } }
    | _ => none
  | _ => none

/-- What a scan sees in a sector that belongs to this node. -/
def liveRw (cfg : Config) (now : Nat) (hr : HostRecord) : Bool :=
  match parseRecord cfg hr with
  | .valid hr => hr.isRw && hostRecordLive cfg hr.timestamp now
  | _ => false

def Pfsd.leaseHeld (s : Pfsd) : Option LeaseWrite := s.mnt.bind Mount.lease

/-- The loop body of a scan by host `x`. -/
def Scan.read (cfg : Config) (mine : Nat → Bool) (sectors : Nat → HostRecord) (x : Nat) (sc : Scan) : Scan :=
  if sc.next = x then { sc with next := sc.next + 1 }
  else { sc with met := sc.met || mine sc.next && liveRw cfg sc.now (sectors sc.next), next := sc.next + 1 }

/-- One step; `mine` are the host ids of this pfsd's clients, other hosts have others. The kill timer
stops the process before the lease write is `paxos_lease_duration` old, and two CLOCK_REALTIME
readings differ by at most the configured skew. -/
def Pfsd.step (cfg : Config) (mine : Nat → Bool) (s : Pfsd) (ev : PfsdEvent) : Option Pfsd :=
  match ev with
  | .acquire hostId wr load =>
    if s.reclaim = none ∧ mine (cfg.realHostId hostId) then some (s.acquire cfg hostId wr load) else none
  | .orphans ok cleared =>
    match s.reclaim with
    | some r => if ok || s.renewIdle then s.orphansReclaim cfg r ok cleared else none
    | none => none
  | .release hostId cleared => if s.reclaim = none ∧ s.renewIdle then s.release cfg hostId cleared else none
  | .remount hostId load => if s.reclaim = none then some (s.remount cfg hostId load) else none
  | .tick d =>
    let alive : Bool := match s.leaseHeld with
      | some w => decide (s.bt + d ≤ w.issue + leaseNsec cfg)
      | none => true
    if alive ∧ tvSec (s.rt + d) < 2 ^ 63 then some { s with rt := s.rt + d, bt := s.bt + d } else none
  | .die => some s.die
  | .scanStart x now =>
    if !mine x ∧ now ≤ s.rt + cfg.clockSkewMax * nsecPerSec ∧ s.rt ≤ now + cfg.clockSkewMax * nsecPerSec then
      some { s with scans := update s.scans x (some ⟨now, 1, false, s.leaseHeld.map LeaseWrite.sector⟩) }
    else none
  | .scanRead x =>
    match s.scans x with
    | some sc =>
      if sc.next ≤ cfg.numHosts then
        some { s with scans := update s.scans x (some (sc.read cfg mine s.sectors x)) }
      else none
    | none => none
  | .otherWrite j hr => if !mine j then some { s with sectors := update s.sectors j hr } else none
  | ev =>
    match s.mnt with
    | some m => m.lease.bind fun w => s.renew cfg m w ev
    | none => none

/-- A pfsd that has just started, on a file system formatted for `num_hosts` hosts. -/
def pfsdSystem (cfg : Config) (mine : Nat → Bool) : System Pfsd PfsdEvent where
  init s := 0 < cfg.numHosts ∧ cfg.numHosts ≤ defaultMaxHosts ∧ s.infos = (fun _ => ⟨0, false⟩) ∧ s.wrrefCount = 0 ∧
    s.refCount = 0 ∧ s.mnt = none ∧ s.reclaim = none ∧ s.scans = (fun _ => none) ∧ tvSec s.rt < 2 ^ 63
  step := Pfsd.step cfg mine

end PolarFs.Lease
