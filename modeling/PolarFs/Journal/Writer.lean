/-
The log thread of a host that has the file system mounted writable (`pfs_log.cc`): a commit writes
its log entries and then the leader record, a trim flushes the waiting group's sectors and then
advances the tail in the leader record. One step is one device write, with its outcome, or the work
in memory between two; between any two steps the host may crash and mount again.
-/
import PolarFs.Journal.TrimGroup
import PolarFs.Lib.Transition

namespace PolarFs.Journal

open RedoLog Transition

/-- The metadata sectors, the journal file and the leader record on the device. -/
structure Disk (β : Type) where
  sectors : Key → β
  ring : Nat → LogEntry β
  leader : LeaderRecord

/-- A mount's log state and its metadata in memory (`log_leader`, the sector buffers, the groups). -/
structure Node (β : Type) where
  leader : LeaderRecord
  metabuf : Key → β
  groups : Groups β

/-- The outcome of a device write: a failed one may still have reached the disk. -/
inductive Io where
  | ok
  | fail (landed : Bool)
  deriving DecidableEq, Repr

def Io.landed : Io → Bool
  | .ok => true
  | .fail landed => landed

/-- What the log thread is about to do. -/
inductive Pc (β : Type) where
  /-- not mounted -/
  | down
  /-- `pfs_log_replaytx_put` of the transactions replayed by the mount -/
  | replaying (txs : List (Nat × TxOps β))
  | idle
  /-- `pfs_tx_log`: the entries still to be written, from `offset` on -/
  | logging (ops : TxOps β) (offset : Nat) (todo : List (LogEntry β))
  /-- the leader write of `pfs_log_commit` -/
  | committing (ops : TxOps β) (lrbak : LeaderRecord)
  /-- `pfs_tx_apply` and `pfs_log_add_trimentry` after a commit -/
  | applying (ops : TxOps β)
  /-- `pfs_trimgroup_flush`: the sectors still to be written -/
  | flushing (todo : List (SectBuf β))
  /-- the leader write of `pfs_log_trim` -/
  | trimming (oldlr : LeaderRecord)
  /-- `pfs_log_del_trimentry` after a trim -/
  | deleting

/-- A writable host and its device; `committed` records the transactions whose leader write
completed, in their order. -/
structure Writer (β : Type) where
  disk : Disk β
  node : Node β
  pc : Pc β
  committed : List (TxOps β)

/-- The steps: the requests the log thread serves, the outcome of the device write it is at, the work
in memory after a successful one, and crashes. -/
inductive Event (β : Type) where
  | mount
  | replayInsert (locked : Bool)
  | commit (ops : TxOps β)
  | io (r : Io)
  | apply
  | swap (force : Bool) (type : HandleType) (locked : Bool)
  | trim
  | delTrimentry
  | crash

variable {β : Type}

/-! ## The device -/

def Disk.writeEntry (d : Disk β) (r : Io) (offset : Nat) (e : LogEntry β) : Disk β :=
  if r.landed then { d with ring := Function.update d.ring offset e } else d

/-- `pfs_leader_write`. -/
def Disk.writeLeader (d : Disk β) (r : Io) (lr : LeaderRecord) : Disk β :=
  if r.landed then { d with leader := lr } else d

/-- A sector is written as a whole. -/
def Disk.writeSector (d : Disk β) (r : Io) (bda : Nat) (img : Nat → β) : Disk β :=
  if r.landed then { d with sectors := fun k => if k.1 = bda then img k.2 else d.sectors k } else d

/-- What a mount makes of a device nobody else writes to: the metadata sectors it finds, with the
journal entries in `(tail, head]` of the leader record replayed. -/
def recover (d : Disk β) : Option (Key → β) :=
  (logScan d.ring d.leader.logSize d.leader.tailOffset d.leader.tailTxid d.leader.headTxid).map fun txs =>
    redo d.sectors (txs.map Prod.snd)

/-! ## The log in memory -/

/-- `pfs_log_preload`: the groups of a new mount. -/
def Groups.preload (lr : LeaderRecord) : Groups β where
  workgrp := { TrimGroup.init with ltxid := lr.tailTxid, rtxid := lr.tailTxid, roffset := lr.tailOffset }
  waitgrp := TrimGroup.init

/-- `pfs_log_del_trimentry`. -/
def Groups.delTrimentry (gs : Groups β) (toTxid : Nat) : Groups β where
  waitgrp := gs.waitgrp.delete toTxid
  workgrp := gs.workgrp.delete toTxid

/-- `pfs_log_add_trimentry`. -/
def Groups.addTrimentry (gs : Groups β) (txid txspace : Nat) (ops : TxOps β) (logSize : Nat) : Option (Groups β) :=
  (gs.workgrp.insert txid txspace ops logSize).map fun g => { gs with workgrp := g }

/-- The assertions of `pfs_log_paxos_forward_leader` on the new record and the cached one. -/
def forwardLeader (lr latest : LeaderRecord) : Bool :=
  decide (latest.tailTxid ≤ lr.tailTxid ∧ latest.headTxid ≤ lr.headTxid ∧ latest.headLsn ≤ lr.headLsn ∧
    (latest.tailTxid < lr.tailTxid ∨ (latest.headTxid < lr.headTxid ∧ latest.headLsn < lr.headLsn)))

/-- The head of the log after `pfs_tx_log` wrote `n` entries. -/
def LeaderRecord.advanceHead (lr : LeaderRecord) (n : Nat) : LeaderRecord :=
  { lr with
    headTxid := lr.headTxid + 1
    headLsn := lr.headLsn + n
    headOffset := offModularAdd lr.headOffset n lr.logSize }

/-- The tail of the log after a flush of the group. -/
def LeaderRecord.trimTo (lr : LeaderRecord) (g : TrimGroup β) : LeaderRecord :=
  { lr with tailTxid := g.rtxid, tailOffset := g.roffset }

def Node.setGroups (n : Node β) (gs : Groups β) : Node β := { n with groups := gs }

def Node.setLeader (n : Node β) (lr : LeaderRecord) : Node β := { n with leader := lr }

/-- `pfs_tx_apply`, `pfs_log_add_trimentry` and the swap attempt at the end of `pfs_log_handle_write`. -/
def Node.apply (o : TrimOptions) (n : Node β) (ops : TxOps β) : Option (Node β) := do
  let metabuf := applyTx n.metabuf ops
  let gs ← n.groups.addTrimentry n.leader.headTxid ops.length ops n.leader.logSize
  let gs ← gs.tryswap o metabuf true false .write true
  if gs.workgrp.roffset = n.leader.headOffset then some { n with metabuf := metabuf, groups := gs } else none

/-- One round of `pfs_log_replaytx_put`. -/
def Node.replaytxPut (o : TrimOptions) (n : Node β) (writable locked : Bool) (tx : Nat × TxOps β) :
    Option (Node β) := do
  let gs ← n.groups.addTrimentry tx.1 tx.2.length tx.2 n.leader.logSize
  let gs ← gs.tryswap o n.metabuf writable false .replaydone locked
  some (n.setGroups gs)

/-- The end of `pfs_log_handle_replaydone` during a mount. -/
def Node.replaydone (n : Node β) : Option (Node β) :=
  let gs := n.groups.delTrimentry n.leader.tailTxid
  if gs.workgrp.rtxid = n.leader.headTxid ∧ gs.workgrp.roffset = n.leader.headOffset then some (n.setGroups gs)
  else none

/-! ## Steps -/

/-- A mount while no other host writes: all its reads of the leader record return the same one. -/
def Writer.mount (s : Writer β) : Option (Writer β) := do
  let lr := s.disk.leader
  let txs ← logScan s.disk.ring lr.logSize lr.tailOffset lr.tailTxid lr.headTxid
  let node : Node β := ⟨lr, redo s.disk.sectors (txs.map Prod.snd), Groups.preload lr⟩
  if txs.isEmpty then
    if lr.tailTxid = lr.headTxid then some { s with node := node, pc := .idle } else none
  else some { s with node := node, pc := .replaying txs }

/-- `pfs_log_trim` up to its first device write. -/
def Writer.trim (s : Writer β) : Option (Writer β) :=
  let wait := s.node.groups.waitgrp
  if wait.ltxid = wait.rtxid then some s
  else if s.node.leader.tailTxid = wait.ltxid ∧ wait.rtxid = s.node.groups.workgrp.ltxid then
    if wait.sects.isEmpty then some s else some { s with pc := .flushing wait.sects }
  else none

/-- A device write of `pfs_tx_log`. -/
def Writer.logStep (s : Writer β) (ops : TxOps β) (offset : Nat) (e : LogEntry β) (todo : List (LogEntry β)) (r : Io) :
    Writer β :=
  let lr := s.node.leader
  let disk := s.disk.writeEntry r offset e
  match r with
  | .fail _ => { s with disk := disk, pc := .idle }
  | .ok =>
    if todo.isEmpty then
      { s with disk := disk, node := s.node.setLeader (lr.advanceHead ops.length), pc := .committing ops lr }
    else { s with disk := disk, pc := .logging ops (offModularAdd offset 1 lr.logSize) todo }

/-- The leader write of `pfs_log_commit`; on an error the leader record in memory is restored. -/
def Writer.commitStep (s : Writer β) (ops : TxOps β) (lrbak : LeaderRecord) (r : Io) : Option (Writer β) :=
  if forwardLeader s.node.leader lrbak then
    let disk := s.disk.writeLeader r s.node.leader
    match r with
    | .ok => some { s with disk := disk, committed := s.committed ++ [ops], pc := .applying ops }
    | .fail _ => some { s with disk := disk, node := s.node.setLeader lrbak, pc := .idle }
  else none

/-- A sector write of `pfs_trimgroup_flush`, and what `pfs_log_trim` does after the last one. -/
def Writer.flushStep (s : Writer β) (sb : SectBuf β) (todo : List (SectBuf β)) (r : Io) : Option (Writer β) :=
  let wait := s.node.groups.waitgrp
  let lr := s.node.leader
  if wait.ltxid < sb.txid ∧ sb.txid ≤ wait.rtxid then
    sb.buf.map fun img =>
      let disk := s.disk.writeSector r sb.bda img
      match r with
      | .fail _ => { s with disk := disk, pc := .idle }
      | .ok =>
        if todo.isEmpty then { s with disk := disk, node := s.node.setLeader (lr.trimTo wait), pc := .trimming lr }
        else { s with disk := disk, pc := .flushing todo }
  else none

/-- The leader write of `pfs_log_trim`. -/
def Writer.trimStep (s : Writer β) (oldlr : LeaderRecord) (r : Io) : Option (Writer β) :=
  if forwardLeader s.node.leader oldlr then
    let disk := s.disk.writeLeader r s.node.leader
    match r with
    | .ok => some { s with disk := disk, pc := .deleting }
    | .fail _ => some { s with disk := disk, node := s.node.setLeader oldlr, pc := .idle }
  else none

/-- One step of the host; `none` when the event does not apply or an assertion fails. -/
def Writer.step (o : TrimOptions) (s : Writer β) (ev : Event β) : Option (Writer β) :=
  match s.pc, ev with
  | _, .crash => some { s with pc := .down }
  | .down, .mount => s.mount
  | .replaying (tx :: txs), .replayInsert locked => do
    let node ← s.node.replaytxPut o true locked tx
    if txs.isEmpty then
      let node ← node.replaydone
      some { s with node := node, pc := .idle }
    else some { s with node := node, pc := .replaying txs }
  | .idle, .commit ops =>
    let lr := s.node.leader
    if ops ≠ [] ∧ ops.length < logSpace lr then
      some { s with pc := .logging ops lr.headOffset (txLog (lr.headTxid + 1) lr.headLsn ops) }
    else none
  | .logging ops offset (e :: todo), .io r => some (s.logStep ops offset e todo r)
  | .committing ops lrbak, .io r => s.commitStep ops lrbak r
  | .applying ops, .apply => do
    let node ← s.node.apply o ops
    some { s with node := node, pc := .idle }
  | .idle, .swap force type locked => do
    let gs ← s.node.groups.tryswap o s.node.metabuf true force type locked
    some { s with node := s.node.setGroups gs }
  | .idle, .trim => s.trim
  | .flushing (sb :: todo), .io r => s.flushStep sb todo r
  | .trimming oldlr, .io r => s.trimStep oldlr r
  | .deleting, .delTrimentry =>
    let gs := s.node.groups.delTrimentry s.node.leader.tailTxid
    if gs.waitgrp.ltxid = gs.waitgrp.rtxid then some { s with node := s.node.setGroups gs, pc := .idle } else none
  | _, _ => none

/-! ## What a step can do -/

def Pc.isDown : Pc β → Bool
  | .down => true
  | _ => false

/-- The log thread is not about to write the leader record. -/
def Pc.plain : Pc β → Bool
  | .committing _ _ | .trimming _ => false
  | _ => true

/-- The steps, by their device write. -/
inductive Writer.StepKind (s s' : Writer β) (ev : Event β) : Prop where
  /-- no device write; a mount takes the leader record from the device -/
  | quiet (disk : s'.disk = s.disk) (committed : s'.committed = s.committed) (pc : s'.pc.plain = true)
      (leader : s'.pc = .down ∨
        (s.pc.plain = true ∧ s'.node.leader = if s.pc.isDown then s.disk.leader else s.node.leader))
  | logged (ops : TxOps β) (offset : Nat) (e : LogEntry β) (todo : List (LogEntry β)) (r : Io)
      (pc : s.pc = .logging ops offset (e :: todo)) (ev : ev = .io r) (eq : s' = s.logStep ops offset e todo r)
  | committed (ops : TxOps β) (lrbak : LeaderRecord) (r : Io) (pc : s.pc = .committing ops lrbak) (ev : ev = .io r)
      (eq : s.commitStep ops lrbak r = some s')
  | flushed (sb : SectBuf β) (todo : List (SectBuf β)) (r : Io) (pc : s.pc = .flushing (sb :: todo)) (ev : ev = .io r)
      (eq : s.flushStep sb todo r = some s')
  | trimmed (oldlr : LeaderRecord) (r : Io) (pc : s.pc = .trimming oldlr) (ev : ev = .io r)
      (eq : s.trimStep oldlr r = some s')

section StepKind

variable {o : TrimOptions} {s s' : Writer β} {n n' : Node β}

theorem Node.replaytxPut_node {writable locked : Bool} {tx : Nat × TxOps β}
    (hn : n.replaytxPut o writable locked tx = some n') : n'.leader = n.leader ∧ n'.metabuf = n.metabuf := by
  simp only [Node.replaytxPut, Option.bind_eq_bind, Option.bind_eq_some_iff] at hn
  obtain ⟨_, _, gs, _, hn⟩ := hn
  cases hn
  exact ⟨rfl, rfl⟩

theorem Node.replaydone_node (hn : n.replaydone = some n') : n'.leader = n.leader ∧ n'.metabuf = n.metabuf := by
  unfold Node.replaydone at hn
  dsimp only at hn
  split at hn <;> cases hn
  exact ⟨rfl, rfl⟩

theorem Node.apply_leader {ops : TxOps β} (hn : n.apply o ops = some n') : n'.leader = n.leader := by
  simp only [Node.apply, Option.bind_eq_bind, Option.bind_eq_some_iff] at hn
  obtain ⟨_, _, gs, _, hn⟩ := hn
  split at hn <;> cases hn
  rfl

theorem Writer.stepKind_mount (hpc : s.pc = .down) (hs : s.mount = some s') : s.StepKind s' .mount := by
  unfold Writer.mount at hs
  simp only [Option.bind_eq_bind, Option.bind_eq_some_iff] at hs
  obtain ⟨txs, _, hs⟩ := hs
  split at hs
  · split at hs <;> cases hs
    exact .quiet rfl rfl rfl (Or.inr ⟨by rw [hpc]; rfl, by simp [hpc, Pc.isDown]⟩)
  · cases hs
    exact .quiet rfl rfl rfl (Or.inr ⟨by rw [hpc]; rfl, by simp [hpc, Pc.isDown]⟩)

theorem Writer.stepKind_trim (hpc : s.pc = .idle) (hs : s.trim = some s') : s.StepKind s' .trim := by
  unfold Writer.trim at hs
  dsimp only at hs
  split at hs
  · cases hs; exact .quiet rfl rfl (by simp [hpc, Pc.plain]) (Or.inr ⟨by rw [hpc]; rfl, by simp [hpc, Pc.isDown]⟩)
  split at hs
  · split at hs
    · cases hs; exact .quiet rfl rfl (by simp [hpc, Pc.plain]) (Or.inr ⟨by rw [hpc]; rfl, by simp [hpc, Pc.isDown]⟩)
    · cases hs; exact .quiet rfl rfl rfl (Or.inr ⟨by rw [hpc]; rfl, by simp [hpc, Pc.isDown]⟩)
  · cases hs

/-- Every step is of one of these kinds. -/
theorem Writer.stepKind {ev : Event β} (hs : s.step o ev = some s') : s.StepKind s' ev := by
  unfold Writer.step at hs
  split at hs
  case h_1 =>
    cases hs
    exact .quiet rfl rfl rfl (Or.inl rfl)
  case h_2 hpc => exact Writer.stepKind_mount hpc hs
  case h_3 tx txs locked hpc =>
    obtain ⟨n, hn, hs⟩ := Option.bind_eq_some_iff.mp hs
    have hl := (Node.replaytxPut_node hn).1
    split at hs
    · obtain ⟨n', hn', hs⟩ := Option.bind_eq_some_iff.mp hs
      cases hs
      exact .quiet rfl rfl rfl (Or.inr ⟨by rw [hpc]; rfl, by simpa [hpc, Pc.isDown] using (Node.replaydone_node hn').1.trans hl⟩)
    · cases hs
      exact .quiet rfl rfl rfl (Or.inr ⟨by rw [hpc]; rfl, by simpa [hpc, Pc.isDown] using hl⟩)
  case h_4 ops hpc =>
    dsimp only at hs
    split at hs <;> cases hs
    exact .quiet rfl rfl rfl (Or.inr ⟨by rw [hpc]; rfl, by simp [hpc, Pc.isDown]⟩)
  case h_5 ops offset e todo r hpc =>
    cases hs
    exact .logged ops offset e todo r hpc rfl rfl
  case h_6 ops lrbak r hpc => exact .committed ops lrbak r hpc rfl hs
  case h_7 ops hpc =>
    obtain ⟨n, hn, hs⟩ := Option.bind_eq_some_iff.mp hs
    cases hs
    exact .quiet rfl rfl rfl (Or.inr ⟨by rw [hpc]; rfl, by simpa [hpc, Pc.isDown] using Node.apply_leader hn⟩)
  case h_8 force type locked hpc =>
    obtain ⟨gs, _, hs⟩ := Option.bind_eq_some_iff.mp hs
    cases hs
    exact .quiet rfl rfl (by simp [hpc, Pc.plain]) (Or.inr ⟨by rw [hpc]; rfl, by simp [hpc, Pc.isDown, Node.setGroups]⟩)
  case h_9 hpc => exact Writer.stepKind_trim hpc hs
  case h_10 sb todo r hpc => exact .flushed sb todo r hpc rfl hs
  case h_11 oldlr r hpc => exact .trimmed oldlr r hpc rfl hs
  case h_12 hpc =>
    dsimp only at hs
    split at hs <;> cases hs
    exact .quiet rfl rfl rfl (Or.inr ⟨by rw [hpc]; rfl, by simp [hpc, Pc.isDown, Node.setGroups]⟩)
  case h_13 => cases hs

end StepKind

/-- The leader record of a new file system. -/
def LeaderRecord.mkfs (size : Nat) : LeaderRecord := ⟨0, 0, 0, 0, size, 0⟩

/-- A host on a file system whose journal has room for `size` entries; `base` is the metadata that
mkfs wrote. -/
def writerSystem (o : TrimOptions) (size : Nat) (base : Key → β) : System (Writer β) (Event β) where
  init s := 0 < size ∧ s.disk.sectors = base ∧ s.disk.leader = LeaderRecord.mkfs size ∧ s.pc = .down ∧ s.committed = []
  step := Writer.step o

end PolarFs.Journal
