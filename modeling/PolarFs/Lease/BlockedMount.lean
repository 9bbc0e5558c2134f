/-
What `pfs_mount` writes to the device before the RW lease is decided. The calls up to `pfs_leader_load`
run in order and the first that fails ends the attempt; `-EAGAIN` starts it over. Two of them write:
`pfs_version_upgrade` the header of chunk 0, and the lease protocol the host's own sector of the paxos file.
What an attempt reads are inputs, since other hosts go on meanwhile.
-/
import PolarFs.Lease.Protocol
import PolarFs.Meta.Chunk

namespace PolarFs.Lease

open Meta (ChunkPhy pfsChunkMagic pfsVersionGet chunkMagicMake pbdSectorSize pfsBlockSize)

def eexist : Int := -17
def einval : Int := -22
def eusers : Int := -87
def eio : Int := -5
def enotsup : Int := -95

/-- What a write leaves in a sector. -/
inductive DevSector where
  | chunk (phyck : ChunkPhy)
  | host (hr : HostRecord)
  | other (bytes : Nat)

/-- A write that reached the device: its `bda` and the sector. -/
abbrev DevWrite := Nat × DevSector

/-- A sector of the paxos file, which has the second block of the device. -/
def paxosBda (sector : Nat) : Nat := pfsBlockSize + pbdSectorSize * sector

/-- The mount flags and the host id. -/
structure MountRequest where
  hostId : Nat
  wr : Bool
  log : Bool
  tool : Bool
  pfsd : Bool

/-- The leader record as read, with the checksum computed from the sector. -/
structure LeaderRead where
  magic : Nat
  version : Nat
  sectorSize : Nat
  numHosts : Nat
  checksum : Nat
  computed : Nat

/-- What the lease protocol meets at one of its steps: the outcome of the I/O, the sectors, the clocks. -/
structure LeaseInput where
  io : Io
  sectors : Nat → HostRecord
  rt : Nat
  bt : Nat

/-- What one pass of `pfs_mount` from `remount` on meets. Return values are those of the calls; `after` is
what the mount writes once `pfs_leader_load` has returned. -/
structure Pass where
  mounted : Bool
  freeEntry : Bool
  createMount : Int
  preload : Int
  nodeLock : Int
  loadChunks : Int
  phyck : ChunkPhy
  headerIo : Io
  initAnode : Bool
  paxosOpen : Int
  readLeader : Int
  leader : LeaderRead
  hostidLock : Int
  rt : Nat
  bt : Nat
  lease : List LeaseInput
  after : List DevWrite

/-- How a part of the mount ends: it goes on, it fails, or the process stops there. -/
inductive Verdict where
  | goOn
  | fail (err : Int)
  | stopped
  deriving DecidableEq, Repr

/-- The test `err < 0`. -/
def checkErr (err : Int) : Verdict := if err < 0 then .fail err else .goOn

abbrev Stage := List DevWrite × Verdict

/-- Stages one after the other, up to the first that does not go on. -/
def runStages : List Stage → Stage
  | [] => ([], .goOn)
  | st :: rest =>
    match st.2 with
    | .goOn => (st.1 ++ (runStages rest).1, (runStages rest).2)
    | v => (st.1, v)

section

variable (cfg : Config) (crc : ChunkPhy → Nat) (call : MountRequest) (p : Pass)

/-! ## `pfs_leader_load` -/

/-- `verify_leader`. -/
def verifyLeader (lr : LeaderRead) : Int :=
  if lr.magic = 0x11282016 then -223
  else if lr.magic ≠ 0xbabababa then -223
  else if lr.version &&& 0xFFFF0000 ≠ 0x00010000 then -224
  else if lr.sectorSize ≠ pbdSectorSize then -225
  else if lr.numHosts < call.hostId then -228
  else if lr.checksum ≠ lr.computed then -229
  else pfsOk

/-- The host id the mount goes by: a pfsd without one takes the last. -/
def ownHostId : Nat :=
  if (call.tool || call.pfsd) && call.hostId == 0 then p.leader.numHosts else call.hostId

/-- Where a record goes: `pfs_host_record_write` goes by the record, `pfs_host_record_clear` by the mount. -/
def recordWrite (hostId : Nat) (hr : HostRecord) : DevWrite :=
  (paxosBda (if hr = HostRecord.zero then hostId else hr.hostId), .host hr)

/-- The lease protocol until it returns, or as far as it has come. -/
def leaseRun (id : Nat) : List LeaseInput → Host → List DevWrite × Host
  | [], h => ([], h)
  | x :: xs, h =>
    if h.pc.isIdle || !h.alive then ([], h)
    else
      let r := hostStep cfg id x.io x.sectors { h with rt := x.rt, bt := x.bt }
      ((r.2.map (recordWrite id)).toList ++ (leaseRun id xs r.1).1, (leaseRun id xs r.1).2)

/-- What a run of the lease protocol means for `pfs_leader_load`. -/
def leaseVerdict (h : Host) : Verdict :=
  if !h.alive then .stopped
  else
    match h.pc with
    | .idle rv => checkErr rv
    | _ => .stopped

/-- The part of `pfs_leader_load` under `pfs_writable`. -/
def leaseStage : Stage :=
  let r := leaseRun { cfg with numHosts := p.leader.numHosts } (ownHostId call p) p.lease
    { Host.fresh p.rt p.bt with pc := .badScan 1 [] }
  (r.1, leaseVerdict r.2)

/-- `pfs_leader_load`. -/
def leaderLoad : Stage := runStages
  [([], checkErr p.paxosOpen),
   ([], checkErr p.readLeader),
   ([], checkErr (verifyLeader call p.leader)),
   ([], if p.leader.numHosts < call.hostId then .fail einval else .goOn),
   ([], if ownHostId call p = 0 then .stopped else .goOn),
   ([], if !call.pfsd && call.wr then checkErr p.hostidLock else .goOn),
   if call.wr then leaseStage cfg call p else ([], .goOn)]

/-! ## `pfs_mount` -/

/-- `chunk_magic_version` of chunk 0. -/
def diskVersion : Nat := p.phyck.magic - pfsChunkMagic

/-- `pfs_version_select`. -/
def versionSelect : Verdict := if pfsVersionGet < diskVersion p then .fail enotsup else .goOn

/-- `pfs_version_upgrade`. -/
def versionUpgrade : Stage :=
  if diskVersion p = pfsVersionGet then ([], .goOn)
  else
    let phyck := ChunkPhy.sealed crc { p.phyck with magic := chunkMagicMake 0 }
    match p.headerIo with
    | .ok => ([(0, .chunk phyck)], .goOn)
    | .fail rv landed => (if landed then [(0, .chunk phyck)] else [], checkErr rv)

/-- The calls of `pfs_mount` before `pfs_version_upgrade`. -/
def stagesBefore : List Stage :=
  [([], if p.mounted then .fail eexist else .goOn),
   ([], if p.freeEntry then .goOn else .fail eusers),
   ([], checkErr p.createMount),
   ([], if call.log then checkErr p.preload else .goOn),
   ([], if !call.pfsd && !call.tool && call.wr then checkErr p.nodeLock else .goOn),
   ([], if p.loadChunks ≠ 0 then .fail p.loadChunks else .goOn),
   ([], versionSelect p)]

/-- `pfs_version_upgrade`, of a writable mount that is not a tool's. -/
def upgradeStage : Stage := if !call.tool && call.wr then versionUpgrade crc p else ([], .goOn)

/-- The calls after `pfs_version_upgrade`, up to the lease. -/
def stagesAfter : List Stage :=
  [([], if p.initAnode then .goOn else .fail eio),
   ([], if !call.tool && !call.pfsd && call.hostId == 0 then .fail einval else .goOn),
   if call.log then leaderLoad cfg call p else ([], .goOn)]

/-- One pass. -/
def mountPass : Stage :=
  runStages (stagesBefore call p ++ upgradeStage crc call p :: stagesAfter cfg call p ++ [(p.after, .goOn)])

end

section

variable (cfg : Config) (crc : ChunkPhy → Nat) (call : MountRequest)

/-- The passes of a mount attempt: `-EAGAIN` leads to another one. -/
def executed : List Pass → List Pass
  | [] => []
  | p :: ps => if (mountPass cfg crc call p).2 = .fail eagain then p :: executed ps else [p]

/-- What `pfs_mount` writes. -/
def mountWrites (ps : List Pass) : List DevWrite := (executed cfg crc call ps).flatMap fun p => (mountPass cfg crc call p).1

/-- No pass gets past `pfs_leader_load`. -/
def Blocked (ps : List Pass) : Prop := ∀ p ∈ executed cfg crc call ps, (mountPass cfg crc call p).2 ≠ .goOn

/-- The attempt writes no sector but the host's own. -/
def OwnSectorOnly (ps : List Pass) : Prop :=
  ∀ p ∈ executed cfg crc call ps, ∀ w ∈ (mountPass cfg crc call p).1, w.1 = paxosBda (ownHostId call p)

end

/-- The pass gets to `pfs_version_upgrade` on a volume of an older version, and the header reaches the disk. -/
def Upgrades (call : MountRequest) (p : Pass) : Bool :=
  (runStages (stagesBefore call p)).2 == .goOn && diskVersion p != pfsVersionGet && p.headerIo.landed

/-! ## Frames of the stages -/

/-- The stages write nothing but to `a`. -/
def WritesAt (a : Nat) (ws : List DevWrite) : Prop := ∀ w ∈ ws, w.1 = a

theorem runStages_writesAt {a : Nat} : ∀ {sts : List Stage}, (∀ st ∈ sts, WritesAt a st.1) → WritesAt a (runStages sts).1
  | [], _ => by
    intro w hw
    cases hw
  | (ws, v) :: rest, h => by
    have hws : WritesAt a ws := h (ws, v) (List.mem_cons_self ..)
    have hrest := runStages_writesAt fun st hst => h st (List.mem_cons_of_mem _ hst)
    cases v with
    | goOn =>
      intro w hw
      rcases List.mem_append.1 hw with hw | hw
      · exact hws w hw
      · exact hrest w hw
    | fail err => exact hws
    | stopped => exact hws

theorem runStages_append (xs ys : List Stage) : runStages (xs ++ ys) =
    if (runStages xs).2 = .goOn then ((runStages xs).1 ++ (runStages ys).1, (runStages ys).2) else runStages xs := by
  induction xs with
  | nil => simp [runStages]
  | cons x xs ih =>
    obtain ⟨ws, v⟩ := x
    cases v with
    | goOn =>
      simp only [List.cons_append, runStages, ih]
      split <;> simp_all
    | fail err => simp [runStages]
    | stopped => simp [runStages]

theorem mem_runStages_cons {st : Stage} {rest : List Stage} {w : DevWrite} (hw : w ∈ (runStages (st :: rest)).1) :
    w ∈ st.1 ∨ w ∈ (runStages rest).1 := by
  rw [runStages] at hw
  split at hw
  · exact List.mem_append.1 hw
  · exact Or.inl hw

theorem mem_runStages_of_mem {st : Stage} (rest : List Stage) {w : DevWrite} (hw : w ∈ st.1) :
    w ∈ (runStages (st :: rest)).1 := by
  rw [runStages]
  split
  · exact List.mem_append.2 (Or.inl hw)
  · exact hw

theorem Io.eq_of_write {io : Io} {r hr : HostRecord} (h : io.write r = some hr) : hr = r := by
  unfold Io.write at h
  split at h
  · exact (Option.some.inj h).symm
  · cases h

/-- Whatever a step of the protocol writes goes to the host's own sector. -/
theorem hostStep_recordWrite {cfg : Config} {id : Nat} {io : Io} {sectors : Nat → HostRecord} {h : Host} {hr : HostRecord}
    (hw : (hostStep cfg id io sectors h).2 = some hr) : (recordWrite id hr).1 = paxosBda id := by
  have hzero : (recordWrite id HostRecord.zero).1 = paxosBda id := rfl
  have hrecord : ∀ flags generation now mbal bal, (recordWrite id (mkRecord cfg flags id generation now mbal bal)).1 =
      paxosBda id := by
    intro flags generation now mbal bal
    exact congrArg paxosBda (ite_self id)
  cases hp : h.pc
  case prepareWrite | acquireWrite | renewWrite =>
    cases io with
    | ok =>
      simp only [hostStep, hp, Option.some.injEq] at hw
      subst hw
      exact hrecord ..
    | fail rv landed =>
      simp only [hostStep, hp] at hw
      obtain rfl := Io.eq_of_write hw
      exact hrecord ..
  case clear | unloadClear =>
    simp only [hostStep, hp] at hw
    obtain rfl := Io.eq_of_write hw
    exact hzero
  case badReread _ _ todo _ => cases todo <;> simp [hostStep, hp] at hw
  all_goals
    -- everything else only reads
    simp only [hostStep, hp] at hw
    (repeat' split at hw) <;> cases hw

theorem leaseRun_writesAt (cfg : Config) (id : Nat) : ∀ (xs : List LeaseInput) (h : Host),
    WritesAt (paxosBda id) (leaseRun cfg id xs h).1
  | [], h => by
    intro w hw
    cases hw
  | x :: xs, h => by
    rw [leaseRun]
    split
    · intro w hw
      cases hw
    intro w hw
    rcases List.mem_append.1 hw with hw | hw
    · obtain ⟨hr, hstep, rfl⟩ : ∃ hr, (hostStep cfg id x.io x.sectors { h with rt := x.rt, bt := x.bt }).2 = some hr ∧
          recordWrite id hr = w := by simpa using hw
      exact hostStep_recordWrite hstep
    · exact leaseRun_writesAt cfg id xs _ w hw

section

variable {cfg : Config} {crc : ChunkPhy → Nat} {call : MountRequest} {p : Pass}

theorem writesAt_nil (a : Nat) : WritesAt a [] := fun _ hw => by cases hw

theorem leaderLoad_writesAt (call : MountRequest) (p : Pass) : WritesAt (paxosBda (ownHostId call p)) (leaderLoad cfg call p).1 := by
  apply runStages_writesAt
  simp only [List.forall_mem_cons, List.not_mem_nil, IsEmpty.forall_iff, implies_true, and_true]
  refine ⟨writesAt_nil _, writesAt_nil _, writesAt_nil _, writesAt_nil _, writesAt_nil _, writesAt_nil _, ?_⟩
  split
  · exact leaseRun_writesAt _ _ _ _
  · exact writesAt_nil _

theorem stagesBefore_writes : (runStages (stagesBefore call p)).1 = [] := by
  have h0 : ∀ sts : List Stage, (∀ st ∈ sts, st.1 = []) → (runStages sts).1 = [] := by
    intro sts hsts
    refine List.eq_nil_iff_forall_not_mem.2 fun w hw => ?_
    have hat : ∀ a, WritesAt a (runStages sts).1 := fun a => runStages_writesAt fun st hst => by
      rw [hsts st hst]
      exact writesAt_nil a
    have h1 := (hat (w.1 + 1)) w hw
    omega
  apply h0
  simp [stagesBefore]

/-- The stages after the upgrade keep to the host's sector. -/
theorem stagesAfter_writesAt (call : MountRequest) (p : Pass) :
    WritesAt (paxosBda (ownHostId call p)) (runStages (stagesAfter cfg call p)).1 := by
  apply runStages_writesAt
  simp only [stagesAfter, List.forall_mem_cons, List.not_mem_nil, IsEmpty.forall_iff, implies_true, and_true]
  refine ⟨writesAt_nil _, writesAt_nil _, ?_⟩
  split
  · exact leaderLoad_writesAt call p
  · exact writesAt_nil _

/-- What a blocked pass writes. -/
theorem mountPass_writes (hblocked : (mountPass cfg crc call p).2 ≠ .goOn) : (mountPass cfg crc call p).1 =
    if (runStages (stagesBefore call p)).2 = .goOn then
      (runStages (upgradeStage crc call p :: stagesAfter cfg call p)).1 else [] := by
  rw [mountPass, runStages_append] at hblocked ⊢
  by_cases hgo : (runStages (stagesBefore call p ++ upgradeStage crc call p :: stagesAfter cfg call p)).2 = .goOn
  · rw [if_pos hgo] at hblocked
    exact absurd rfl hblocked
  · rw [if_neg hgo, runStages_append]
    split
    · rw [stagesBefore_writes, List.nil_append]
    · exact stagesBefore_writes

theorem versionUpgrade_bda {w : DevWrite} (hw : w ∈ (versionUpgrade crc p).1) : w.1 = 0 := by
  unfold versionUpgrade at hw
  split at hw
  · cases hw
  cases hio : p.headerIo with
  | ok =>
    rw [hio] at hw
    rw [List.mem_singleton.1 hw]
  | fail rv landed =>
    rw [hio] at hw
    cases landed
    · cases hw
    · rw [List.mem_singleton.1 hw]

theorem versionUpgrade_eq_nil : (versionUpgrade crc p).1 = [] ↔ (diskVersion p != pfsVersionGet && p.headerIo.landed) = false := by
  unfold versionUpgrade
  by_cases hv : diskVersion p = pfsVersionGet
  · simp [hv]
  · rw [if_neg hv]
    cases hio : p.headerIo with
    | ok => simp [hv, Io.landed]
    | fail rv landed => cases landed <;> simp [hv, Io.landed]

/-- A blocked pass keeps to the host's sector exactly if it does not upgrade the volume. -/
theorem mountPass_ownSector_iff (hwr : call.wr = true) (htool : call.tool = false)
    (hblocked : (mountPass cfg crc call p).2 ≠ .goOn) :
    WritesAt (paxosBda (ownHostId call p)) (mountPass cfg crc call p).1 ↔ Upgrades call p = false := by
  have hup : upgradeStage crc call p = versionUpgrade crc p := by simp [upgradeStage, hwr, htool]
  rw [mountPass_writes hblocked, hup]
  by_cases hbefore : (runStages (stagesBefore call p)).2 = .goOn
  · have hiff : Upgrades call p = false ↔ (versionUpgrade crc p).1 = [] := by
      rw [versionUpgrade_eq_nil]
      simp [Upgrades, hbefore]
    rw [if_pos hbefore, hiff]
    constructor
    · intro hown
      refine List.eq_nil_iff_forall_not_mem.2 fun w hw => ?_
      have h0 := versionUpgrade_bda hw
      have hat := hown w (mem_runStages_of_mem _ hw)
      rw [h0, paxosBda, pfsBlockSize] at hat
      omega
    · intro hnil w hw
      rcases mem_runStages_cons hw with hw | hw
      · rw [hnil] at hw
        cases hw
      · exact stagesAfter_writesAt call p w hw
  · rw [if_neg hbefore]
    simp [Upgrades, hbefore, writesAt_nil]

end

/-- A blocked read-write mount writes no sector of the device but its own host sector, if and only if none of
its passes meets an older version of the volume at `pfs_version_upgrade`. -/
theorem blocked_mount_own_sector_iff (cfg : Config) (crc : ChunkPhy → Nat) (call : MountRequest) (ps : List Pass)
    (hwr : call.wr = true) (htool : call.tool = false) (hblocked : Blocked cfg crc call ps) :
    OwnSectorOnly cfg crc call ps ↔ ∀ p ∈ executed cfg crc call ps, Upgrades call p = false := by
  constructor
  · intro hown p hp
    exact (mountPass_ownSector_iff hwr htool (hblocked p hp)).1 (hown p hp)
  · intro hup p hp
    exact (mountPass_ownSector_iff hwr htool (hblocked p hp)).2 (hup p hp)

/-! ## A volume of the version before -/

namespace Sample

def cfg : Config := ⟨2, 10, 2, fun b => b.timestamp + b.flags⟩

/-- Chunk 0 of a volume of the given version. -/
def phyck (version : Nat) : ChunkPhy :=
  ⟨pfsChunkMagic + version, Meta.pbdChunkSize, pfsBlockSize, pbdSectorSize, 0, 1, fun _ => ⟨0, 0, 0⟩, 0⟩

/-- Host 2 holds the lease, its record renewed at `now`. -/
def sectors (now : Nat) (i : Nat) : HostRecord := if i = 2 then rwRecord cfg 2 1 now 4 else HostRecord.zero

def input (now : Nat) : LeaseInput := ⟨.ok, sectors now, now, now⟩

/-- Host 1 finds the lease held and, a renewal later, gives up. -/
def pass (version : Nat) : Pass :=
  { mounted := false, freeEntry := true, createMount := 0, preload := 0, nodeLock := 3, loadChunks := 0
    phyck := phyck version, headerIo := .ok, initAnode := true, paxosOpen := 0, readLeader := 0
    leader := ⟨0xbabababa, 0x00010002, 4096, 2, 7, 7⟩, hostidLock := 4
    rt := 100 * nsecPerSec, bt := 100 * nsecPerSec
    lease := List.replicate 11 (input (100 * nsecPerSec)) ++ List.replicate 4 (input (101 * nsecPerSec)), after := [] }

def call : MountRequest := ⟨1, true, true, false, false⟩

end Sample

/-- Host 2 holds the lease of a volume of version 1. The mount of host 1 fails with `-EBUSY`, and has written
the header of chunk 0. -/
theorem blocked_mount_writes_header :
    (mountPass Sample.cfg (fun _ => 7) Sample.call (Sample.pass 1)).2 = .fail ebusy ∧
      Blocked Sample.cfg (fun _ => 7) Sample.call [Sample.pass 1] ∧
      (mountWrites Sample.cfg (fun _ => 7) Sample.call [Sample.pass 1]).map Prod.fst = [0] := by
  have hpass : (mountPass Sample.cfg (fun _ => 7) Sample.call (Sample.pass 1)).2 = .fail ebusy := by decide +kernel
  have hexec : executed Sample.cfg (fun _ => 7) Sample.call [Sample.pass 1] = [Sample.pass 1] := by
    simp only [executed, hpass]
    rfl
  refine ⟨hpass, ?_, by decide +kernel⟩
  intro p hp
  rw [hexec, List.mem_singleton] at hp
  rw [hp, hpass]
  decide

/-- With the volume of the version of the binary the same attempt leaves the device alone. -/
theorem blocked_mount_own_sector_current : OwnSectorOnly Sample.cfg (fun _ => 7) Sample.call [Sample.pass 2] := by
  have hpass : (mountPass Sample.cfg (fun _ => 7) Sample.call (Sample.pass 2)).2 = .fail ebusy := by decide +kernel
  have hexec : executed Sample.cfg (fun _ => 7) Sample.call [Sample.pass 2] = [Sample.pass 2] := by
    simp only [executed, hpass]
    rfl
  refine (blocked_mount_own_sector_iff Sample.cfg (fun _ => 7) Sample.call [Sample.pass 2] rfl rfl ?_).2 ?_
  · intro p hp
    rw [hexec, List.mem_singleton] at hp
    rw [hp, hpass]
    decide
  · intro p hp
    rw [hexec, List.mem_singleton] at hp
    subst hp
    decide +kernel

end PolarFs.Lease
