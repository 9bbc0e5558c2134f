/-
Host records of the cross-host RW lease (`pfs_paxos.h`, `pfs_paxos.cc`): the 512-byte record each
host keeps in its own paxos sector, how a sector is parsed, when a record counts as live by the
reader's clock, and what the three scans of an acquisition conclude from one sector.

Clock readings are nanosecond counts; `tvSec` and `tvNsec` are the two fields of the `timespec`.
-/
import Mathlib.Tactic

namespace PolarFs.Lease

/-! ## Clock readings -/

def nsecPerSec : Nat := 1000000000

def tvSec (t : Nat) : Nat := t / nsecPerSec

def tvNsec (t : Nat) : Nat := t % nsecPerSec

/-- `(int64_t)x` of an unsigned 64-bit value. -/
def toInt64 (x : Nat) : Int := Int.bmod x (2 ^ 64)

theorem toInt64_of_lt {x : Nat} (h : x < 2 ^ 63) : toInt64 x = x := by
  unfold toInt64
  rw [Int.bmod_eq_of_le_mul_two] <;> omega

/-! ## The record -/

def pfsHostMagic : Nat := 0xcafebabe
def pfsHostFlRw : Nat := 0x00000001
def pfsHostFlPrepare : Nat := 0x00000002

/-- `pfs_host_record_t` without its checksum: the bytes `host_record_checksum` covers. The padding
`hr_unused` is one number, zero in every record the code writes. -/
structure HostRecordBody where
  magic : Nat
  flags : Nat
  hostId : Nat
  generation : Nat
  timestamp : Nat
  mbal : Nat
  bal : Nat
  unused : Nat
  deriving DecidableEq, Repr

/-- `pfs_host_record_t`. -/
structure HostRecord extends HostRecordBody where
  checksum : Nat
  deriving DecidableEq, Repr

/-- The all-zero record a release writes. -/
def HostRecord.zero : HostRecord := ⟨⟨0, 0, 0, 0, 0, 0, 0, 0⟩, 0⟩

def HostRecordBody.isRw (r : HostRecordBody) : Bool := r.flags &&& pfsHostFlRw != 0

def HostRecordBody.isPrepare (r : HostRecordBody) : Bool := r.flags &&& pfsHostFlPrepare != 0

/-- The options and the format every host of the file system shares. `hostRecordChecksum` is the
`crc32c` of the record's bytes before `hr_checksum`. -/
structure Config where
  numHosts : Nat
  leaseDuration : Nat
  clockSkewMax : Nat
  hostRecordChecksum : HostRecordBody → Nat

/-- What `pfs_host_record_read` answers: a failed read, `0` for an empty sector, `PFS_OK` with the
record, or one of the two corruption codes with the raw bytes. -/
inductive RecordRead where
  | ioError (rv : Int)
  | empty
  | emagic (raw : HostRecord)
  | echecksum (raw : HostRecord)
  | valid (hr : HostRecord)
  deriving DecidableEq, Repr

/-- The raw bytes of a sector that was read but holds a corrupt record (`host_record_corrupt`). -/
def RecordRead.corrupt : RecordRead → Option HostRecord
  | .emagic raw | .echecksum raw => some raw
  | _ => none

/-- The outcome of one device I/O. A failed write may have reached the disk all the same. -/
inductive Io where
  | ok
  | fail (rv : Int) (landed : Bool)
  deriving DecidableEq, Repr

/-- The parse of a sector that was read (`pfs_host_record_read` after the I/O). -/
def parseRecord (cfg : Config) (sector : HostRecord) : RecordRead :=
  if sector.magic = 0 ∧ sector = HostRecord.zero then .empty
  else if sector.magic ≠ pfsHostMagic then .emagic sector
  else if sector.checksum ≠ cfg.hostRecordChecksum sector.toHostRecordBody then .echecksum sector
  else .valid sector

def hostRecordRead (cfg : Config) (io : Io) (sector : HostRecord) : RecordRead :=
  match io with
  | .ok => parseRecord cfg sector
  | .fail rv _ => .ioError rv

/-- The record `pfs_rw_lease_prepare`, `pfs_rw_lease_acquire` and `pfs_rw_lease_renew` build; they
differ in the flag and in `hr_bal`. -/
def mkRecord (cfg : Config) (flags hostId generation now mbal bal : Nat) : HostRecord :=
  let body : HostRecordBody :=
    { magic := pfsHostMagic, flags, hostId, generation := generation % 2 ^ 32,
      timestamp := tvSec now, mbal, bal, unused := 0 }
  { body with checksum := cfg.hostRecordChecksum body }

def prepareRecord (cfg : Config) (hostId generation now ballot : Nat) : HostRecord :=
  mkRecord cfg pfsHostFlPrepare hostId generation now ballot 0

def rwRecord (cfg : Config) (hostId generation now ballot : Nat) : HostRecord :=
  mkRecord cfg pfsHostFlRw hostId generation now ballot ballot

/-- `pfs_ballot_generate`. -/
def ballotGenerate (cfg : Config) (generation hostId : Nat) : Nat :=
  (generation * cfg.numHosts + hostId) % 2 ^ 64

/-- Records the code writes parse back as themselves. -/
theorem parseRecord_mkRecord (cfg : Config) (flags hostId generation now mbal bal : Nat) :
    parseRecord cfg (mkRecord cfg flags hostId generation now mbal bal) =
      .valid (mkRecord cfg flags hostId generation now mbal bal) := by
  simp [parseRecord, mkRecord, pfsHostMagic]

@[simp] theorem prepareRecord_isRw (cfg : Config) (i g now b : Nat) : (prepareRecord cfg i g now b).isRw = false := by
  simp [HostRecordBody.isRw, prepareRecord, mkRecord, pfsHostFlPrepare, pfsHostFlRw]

@[simp] theorem prepareRecord_isPrepare (cfg : Config) (i g now b : Nat) :
    (prepareRecord cfg i g now b).isPrepare = true := by
  simp [HostRecordBody.isPrepare, prepareRecord, mkRecord, pfsHostFlPrepare]

@[simp] theorem rwRecord_isRw (cfg : Config) (i g now b : Nat) : (rwRecord cfg i g now b).isRw = true := by
  simp [HostRecordBody.isRw, rwRecord, mkRecord, pfsHostFlRw]

/-! ## Liveness by the reader's clock -/

/-- `host_record_age`: seconds, negative when the writer's clock is ahead. -/
def hostRecordAge (ts now : Nat) : Int := tvSec now - toInt64 ts

/-- `lease_expiry_age`. -/
def leaseExpiryAge (cfg : Config) : Int := cfg.leaseDuration + cfg.clockSkewMax + 1

/-- `host_record_live`. -/
def hostRecordLive (cfg : Config) (ts now : Nat) : Bool :=
  decide (hostRecordAge ts now < leaseExpiryAge cfg)

/-- The lease duration in nanoseconds. -/
def leaseNsec (cfg : Config) : Nat := cfg.leaseDuration * nsecPerSec

/-- `lease_write_expired`, with `now` the LEASE_CLOCK reading it takes. -/
def leaseWriteExpired (cfg : Config) (issue now : Nat) : Bool :=
  decide ((leaseNsec cfg : Int) ≤ (now : Int) - issue)

/-- `lease_elapsed_sec`. -/
def leaseElapsedSec (since now : Nat) : Int :=
  (tvSec now : Int) - tvSec since - if tvNsec now < tvNsec since then 1 else 0

/-- A stale record is old: by the reader's own clock more than the lease duration, the skew bound
and the second lost to truncation have passed since the writer's timestamp. -/
theorem le_of_not_hostRecordLive {cfg : Config} {ts now : Nat} (hts : ts < 2 ^ 63)
    (h : hostRecordLive cfg ts now = false) :
    (ts + 1) * nsecPerSec + leaseNsec cfg + cfg.clockSkewMax * nsecPerSec ≤ now := by
  simp only [hostRecordLive, hostRecordAge, leaseExpiryAge, toInt64_of_lt hts, decide_eq_false_iff_not,
    not_lt] at h
  have h1 : ts + 1 + cfg.leaseDuration + cfg.clockSkewMax ≤ tvSec now := by omega
  calc (ts + 1) * nsecPerSec + leaseNsec cfg + cfg.clockSkewMax * nsecPerSec
      = (ts + 1 + cfg.leaseDuration + cfg.clockSkewMax) * nsecPerSec := by unfold leaseNsec; ring
    _ ≤ tvSec now * nsecPerSec := Nat.mul_le_mul_right _ h1
    _ ≤ now := Nat.div_mul_le_self _ _

/-- A timestamp loses less than a second of the reading it was taken from. -/
theorem lt_succ_tvSec (now : Nat) : now < (tvSec now + 1) * nsecPerSec := by
  have := Nat.lt_div_mul_add (a := now) (b := nsecPerSec) (by decide)
  unfold tvSec; rw [Nat.add_mul, Nat.one_mul]; exact this

/-! ## Dead sectors -/

/-- `lease_dead_sector`: a corrupt sector whose writer was judged dead, with the bytes it held. -/
structure DeadSector where
  hostId : Nat
  raw : HostRecord
  deriving DecidableEq, Repr

/-- `lease_sector_dead`: the first entry for the host decides. -/
def leaseSectorDead : List DeadSector → Nat → HostRecord → Bool
  | [], _, _ => false
  | d :: rest, hostId, raw => if d.hostId = hostId then d.raw = raw else leaseSectorDead rest hostId raw

/-- Whether a sector that gave no record may be skipped: it is corrupt and still holds the bytes of
a writer judged dead. -/
def deadRead (dead : List DeadSector) (hostId : Nat) (rd : RecordRead) : Bool :=
  match rd.corrupt with
  | some raw => leaseSectorDead dead hostId raw
  | none => false

/-! ## What a scan concludes from one sector -/

/-- One iteration of `pfs_rw_lease_verify_prepare`: whether the scan goes on. -/
def verifyPrepareSector (cfg : Config) (ballot : Nat) (dead : List DeadSector) (now hostId : Nat)
    (rd : RecordRead) : Bool :=
  match rd with
  | .empty => true
  | .valid hr =>
    if !hostRecordLive cfg hr.timestamp now then true
    else if hr.isRw then false
    else if hr.mbal > ballot then false
    else if hr.mbal = ballot then false
    else true
  | rd => deadRead dead hostId rd

/-- One iteration of `pfs_rw_lease_check_conflict`. -/
def checkConflictSector (cfg : Config) (ballot : Nat) (dead : List DeadSector) (now hostId : Nat)
    (rd : RecordRead) : Bool :=
  match rd with
  | .empty => true
  | .valid hr =>
    if !(hr.isRw || hr.isPrepare) then true
    else if !hostRecordLive cfg hr.timestamp now then true
    else
      let otherBallot := if hr.isRw then hr.bal else hr.mbal
      if otherBallot > ballot then false else true
  | rd => deadRead dead hostId rd

/-- The freshest live RW record a check scan has met, `id = 0` for none. -/
structure Freshest where
  id : Nat
  ts : Nat
  deriving DecidableEq, Repr

/-- One iteration of `pfs_rw_lease_check`: `none` is the immediate `-EBUSY` without a blocker. -/
def checkSector (cfg : Config) (dead : List DeadSector) (now hostId : Nat) (fr : Freshest)
    (rd : RecordRead) : Option Freshest :=
  match rd with
  | .empty => some fr
  | .valid hr =>
    if !hr.isRw then some fr
    else if hostRecordLive cfg hr.timestamp now then
      if hr.timestamp > fr.ts ∨ fr.id = 0 then some ⟨hr.hostId, hr.timestamp⟩ else some fr
    else some fr
  | rd => if deadRead dead hostId rd then some fr else none

end PolarFs.Lease
