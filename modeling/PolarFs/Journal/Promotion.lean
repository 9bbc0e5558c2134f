/-
Promotion of a read-only mount (`pfs_remount_rw`, and `pfs_remount_ro` that undoes one). The log
thread is suspended, `pfs_leader_load` reads the leader record, acquires the lease while another host
may still commit, and stores the record it has read as the new `log_leader`; then the log thread is
resumed and polls. The position that was replayed is elsewhere, in `g_rtxid` of the working trim group.
-/
import PolarFs.Journal.Recovery
import PolarFs.Journal.Cluster

namespace PolarFs.Journal

open RedoLog Transition Node TrimGroup

/-- Where the mount stands. -/
inductive PromotePc where
  /-- read-only, and the log thread serves polls -/
  | ro
  /-- suspended; `pfs_leader_load` has read `lr` and acquires the lease -/
  | loading (lr : LeaderRecord)
  /-- suspended and without the lease, before the read-only `pfs_leader_load` -/
  | unloaded
  /-- writable and resumed, before the `pfs_mount_sync` of the promotion has polled -/
  | syncing
  | rw
  /-- `pfs_trimgroup_insert` was called with a transaction that is not the next one -/
  | gap

def PromotePc.isGap : PromotePc → Bool
  | .gap => true
  | _ => false

/-- Another host may hold the lease. -/
def PromotePc.othersWrite : PromotePc → Bool
  | .ro | .loading _ | .unloaded => true
  | _ => false

/-- The mount and the device; `committed` records the transactions of the journal. -/
structure Promotion (β : Type) where
  disk : Disk β
  node : Node β
  pc : PromotePc
  committed : List (TxOps β)

inductive PromotionEvent (β : Type) where
  | remoteCommit (ops : TxOps β)
  | remoteTrim (tail : Nat)
  | poll (locked : Bool)
  /-- `pfs_remount_rw` up to the read of the leader record in `pfs_leader_load` -/
  | promote
  /-- the lease is acquired, and the log thread resumed -/
  | promoteOk (locked : Bool)
  /-- `pfs_leader_load` fails -/
  | promoteFail
  /-- the read-only `pfs_leader_load` -/
  | reloadRo
  | commit (ops : TxOps β)
  | swap (force : Bool) (type : HandleType) (locked : Bool)
  | trim
  /-- `pfs_remount_ro` up to the release of the lease, as after a failed `pfs_orphans_reclaim` -/
  | demote

variable {β : Type}

/-- `pfs_tx_log` without an I/O error. -/
def Disk.writeEntries (size : Nat) (d : Disk β) (offset : Nat) : List (LogEntry β) → Disk β
  | [] => d
  | e :: todo => Disk.writeEntries size (d.writeEntry .ok offset e) (offModularAdd offset 1 size) todo

/-- The device writes of `pfs_log_commit` without an I/O error. -/
def Disk.logCommit (d : Disk β) (lr : LeaderRecord) (ops : TxOps β) : Disk β :=
  (d.writeEntries lr.logSize lr.headOffset (txLog (lr.headTxid + 1) lr.headLsn ops)).writeLeader .ok
    (lr.advanceHead ops.length)

/-- `pfs_trimgroup_flush` without an I/O error. -/
def Disk.flush (grp : TrimGroup β) (d : Disk β) : List (SectBuf β) → Option (Disk β)
  | [] => some d
  | sb :: todo =>
    if grp.ltxid < sb.txid ∧ sb.txid ≤ grp.rtxid then
      sb.buf.bind fun img => Disk.flush grp (d.writeSector .ok sb.bda img) todo
    else none

/-- The loop of `pfs_log_replaytx_put`; it stops with `false` at the assertion of
`pfs_trimgroup_insert` on the transaction's id. -/
def Node.replaytxs (o : TrimOptions) (writable locked : Bool) (n : Node β) :
    List (Nat × TxOps β) → Option (Node β × Bool)
  | [] => some (n, true)
  | tx :: txs =>
    if tx.1 = n.groups.workgrp.rtxid + 1 then
      (n.replaytxPut o writable locked tx).bind fun n' => replaytxs o writable locked n' txs
    else some (n, false)

/-- A poll, the replay of what it scanned and `LOG_REPLAYDONE`; `pc` is where the mount goes on. -/
def Promotion.poll (o : TrimOptions) (s : Promotion β) (writable locked : Bool) (pc : PromotePc) :
    Option (Promotion β) := do
  let latest := s.disk.leader
  let n ← s.node.pollTail latest
  if n.leader.headTxid = latest.headTxid then
    some { s with node := n.setLeader (n.leader.setHead latest), pc := pc }
  else
    let txs ← logScan s.disk.ring n.leader.logSize n.leader.headOffset n.leader.headTxid latest.headTxid
    let n : Node β := ⟨n.leader.setHead latest, redo n.metabuf (txs.map Prod.snd), n.groups⟩
    let r ← n.replaytxs o writable locked txs
    if !r.2 then some { s with node := r.1, pc := .gap }
    else if r.1.groups.workgrp.rtxid = r.1.leader.headTxid ∧ r.1.groups.workgrp.roffset = r.1.leader.headOffset then
      some { s with node := r.1, pc := pc }
    else none

/-- The end of a successful `pfs_leader_load` and `LOG_RESUME` of a writable mount. -/
def Promotion.promoteOk (o : TrimOptions) (s : Promotion β) (lr : LeaderRecord) (locked : Bool) :
    Option (Promotion β) :=
  (s.node.groups.tryswap o s.node.metabuf true true .resume locked).map fun gs =>
    { s with node := { s.node with leader := lr, groups := gs }, pc := .syncing }

/-- `pfs_log_handle_write` of a transaction that fits into the journal. -/
def Promotion.commit (o : TrimOptions) (s : Promotion β) (ops : TxOps β) : Option (Promotion β) :=
  let lr := s.node.leader
  if ops ≠ [] ∧ ops.length < logSpace lr ∧ forwardLeader (lr.advanceHead ops.length) lr then
    let n := s.node.setLeader (lr.advanceHead ops.length)
    let s := { s with disk := s.disk.logCommit lr ops, committed := s.committed ++ [ops] }
    if n.leader.headTxid = n.groups.workgrp.rtxid + 1 then (n.apply o ops).map fun n => { s with node := n }
    else some { s with node := n, pc := .gap }
  else none

/-- `pfs_log_trim`. -/
def Promotion.trim (s : Promotion β) : Option (Promotion β) :=
  let wait := s.node.groups.waitgrp
  let lr := s.node.leader
  if wait.ltxid = wait.rtxid then some s
  else if lr.tailTxid = wait.ltxid ∧ wait.rtxid = s.node.groups.workgrp.ltxid then
    if wait.sects.isEmpty then some s
    else if forwardLeader (lr.trimTo wait) lr then
      (s.disk.flush wait wait.sects).bind fun d =>
        let gs := s.node.groups.delTrimentry wait.rtxid
        if gs.waitgrp.ltxid = gs.waitgrp.rtxid then
          some { s with disk := d.writeLeader .ok (lr.trimTo wait), node := ⟨lr.trimTo wait, s.node.metabuf, gs⟩ }
        else none
    else none
  else none

/-- One step of the mount, or of the host that holds the lease; the other host does not trim what the
mount has not replayed. -/
def Promotion.step (o : TrimOptions) (s : Promotion β) (ev : PromotionEvent β) : Option (Promotion β) :=
  match s.pc, ev with
  | pc, .remoteCommit ops =>
    if pc.othersWrite ∧ ops ≠ [] ∧ ops.length < logSpace s.disk.leader then
      some { s with disk := s.disk.logCommit s.disk.leader ops, committed := s.committed ++ [ops] }
    else none
  | pc, .remoteTrim tail =>
    let lr := s.disk.leader
    if pc.othersWrite ∧ lr.tailTxid ≤ tail ∧ tail ≤ s.node.groups.workgrp.rtxid ∧ tail ≤ lr.headTxid then
      let lr := { lr with tailTxid := tail, tailOffset := lsnAt s.committed tail % lr.logSize }
      some { s with disk := s.disk.writeLeader .ok lr }
    else none
  | .ro, .poll locked => s.poll o false locked .ro
  | .syncing, .poll locked => s.poll o true locked .rw
  | .rw, .poll locked => s.poll o true locked .rw
  | .ro, .promote => some { s with pc := .loading s.disk.leader }
  | .loading lr, .promoteOk locked => s.promoteOk o lr locked
  | .loading _, .promoteFail => some { s with pc := .unloaded }
  | .unloaded, .reloadRo => some { s with node := s.node.setLeader s.disk.leader, pc := .ro }
  | .rw, .commit ops => s.commit o ops
  -- the log thread serves these as soon as it is resumed
  | .syncing, .swap force type locked | .rw, .swap force type locked =>
    (s.node.groups.tryswap o s.node.metabuf true force type locked).map fun gs => { s with node := s.node.setGroups gs }
  | .syncing, .trim | .rw, .trim => s.trim
  | .rw, .demote => some { s with pc := .unloaded }
  | _, _ => none

/-- A read-only mount of a device whose journal holds `committed`. -/
def promotionSystem (o : TrimOptions) (size : Nat) (base : Key → β) : System (Promotion β) (PromotionEvent β) where
  init s := s.pc = .ro ∧ (∃ tl, DiskInv base size s.committed tl s.disk) ∧
    ∃ txs, Node.mountRo o s.disk = some (s.node, txs)
  step := Promotion.step o

/-! ## The journal -/

open Promotion

section Journal

variable {size : Nat} {h : List (TxOps β)} {tl : Nat}

/-- The entries of a transaction, written one after the other ahead of the head. -/
theorem JournalInv.writeEntries : ∀ (todo done : List (LogEntry β)) {d : Disk β}, JournalInv size h tl d →
    RingHolds d.ring size (lsnAt h h.length) done →
    lsnAt h h.length + (done.length + todo.length) < lsnAt h tl + size →
    JournalInv size h tl (d.writeEntries size ((lsnAt h h.length + done.length) % size) todo) ∧
      RingHolds (d.writeEntries size ((lsnAt h h.length + done.length) % size) todo).ring size
        (lsnAt h h.length) (done ++ todo)
  | [], done, d, hj, hring, _ => by
    rw [List.append_nil]
    exact ⟨hj, hring⟩
  | e :: todo, done, d, hj, hring, hfit => by
    rw [List.length_cons] at hfit
    have htl : lsnAt h tl ≤ lsnAt h h.length := lsnAt_mono (le_trans hj.tl_le hj.tail_le)
    have hring' : RingHolds (d.writeEntry .ok ((lsnAt h h.length + done.length) % size) e).ring size
        (lsnAt h h.length) (done ++ [e]) := by
      refine (hring.update (le_refl _) (by omega) e).append (ringHolds_singleton ?_)
      rw [Function.update_self]
    have ih := JournalInv.writeEntries todo (done ++ [e]) (hj.writeEntry .ok (by omega) e) hring'
      (by rw [List.length_append, List.length_singleton]; omega)
    rw [List.length_append, List.length_singleton, ← Nat.add_assoc, List.append_assoc, List.singleton_append] at ih
    rw [Disk.writeEntries, offModularAdd_eq_mod hj.pos hj.pos]
    exact ih

/-- A commit by the host whose leader record is the one on disk. -/
theorem JournalInv.logCommit {d : Disk β} (hj : JournalInv size h d.leader.tailTxid d) {ops : TxOps β}
    (hops : ops ≠ []) (hspace : ops.length < logSpace d.leader) :
    JournalInv size (h ++ [ops]) d.leader.tailTxid (d.logCommit d.leader ops) := by
  have htl : lsnAt h d.leader.tailTxid ≤ lsnAt h h.length := lsnAt_mono hj.tail_le
  rw [hj.leader.logSpace hj.tail_le hj.fit] at hspace
  have hw := JournalInv.writeEntries (txLog (h.length + 1) (lsnAt h h.length) ops) [] hj (ringHolds_nil _ _ _)
    (by rw [length_txLog, List.length_nil]; omega)
  rw [List.length_nil, Nat.add_zero, List.nil_append] at hw
  rw [Disk.logCommit, hj.leader.size, hj.leader.head, hj.leader.headOffset, hj.leader.lsn]
  exact hw.1.commit hops hw.2 (by omega) (le_refl _) hj.tail_le
    (hj.leader.advanceHead hj.tail_le hj.pos (by omega))

/-- A trim by the host whose leader record is the one on disk. -/
theorem JournalInv.writeTail {d : Disk β} (hj : JournalInv size h d.leader.tailTxid d) {lr : LeaderRecord}
    (hlr : LeaderAt h size lr.tailTxid h.length lr) (h1 : d.leader.tailTxid ≤ lr.tailTxid)
    (h2 : lr.tailTxid ≤ h.length) : JournalInv size h lr.tailTxid (d.writeLeader .ok lr) := by
  refine ⟨hj.pos, hj.txs, hlr, h2, le_refl _, hj.ring_from h1 h2, ?_⟩
  have := lsnAt_mono (h := h) h1
  have := hj.fit
  omega

theorem JournalInv.flush {grp : TrimGroup β} : ∀ {todo : List (SectBuf β)} {d d' : Disk β},
    JournalInv size h d.leader.tailTxid d → d.flush grp todo = some d' →
      JournalInv size h d'.leader.tailTxid d' ∧ d'.leader = d.leader
  | [], d, d', hj, hf => by cases hf; exact ⟨hj, rfl⟩
  | sb :: todo, d, d', hj, hf => by
    unfold Disk.flush at hf
    split at hf
    · obtain ⟨img, _, hf⟩ := Option.bind_eq_some_iff.mp hf
      have hj' : JournalInv size h d.leader.tailTxid (d.writeSector .ok sb.bda img) :=
        { hj with }
      exact JournalInv.flush (d := d.writeSector .ok sb.bda img) hj' hf
    · cases hf

end Journal

/-! ## The groups of a node that has replayed a prefix -/

/-- The right ends of the groups are positions of the history, the working group's is `p`. -/
structure GroupsAt (size : Nat) (h : List (TxOps β)) (p : Nat) (gs : Groups β) : Prop where
  rtxid : gs.workgrp.rtxid = p
  roffset : gs.workgrp.roffset = lsnAt h p % size
  wait_le : gs.waitgrp.rtxid ≤ p
  wait_roffset : gs.waitgrp.roffset = lsnAt h gs.waitgrp.rtxid % size

section Groups

variable {o : TrimOptions} {size : Nat} {h : List (TxOps β)} {p : Nat} {gs gs' : Groups β}

namespace GroupsAt

variable (hg : GroupsAt size h p gs)

include hg

theorem append (hp : p ≤ h.length) (h' : List (TxOps β)) : GroupsAt size (h ++ h') p gs := by
  refine ⟨hg.rtxid, ?_, hg.wait_le, ?_⟩
  · rw [lsnAt_append_of_le hp]; exact hg.roffset
  · rw [lsnAt_append_of_le (le_trans hg.wait_le hp)]; exact hg.wait_roffset

omit hg in
theorem preload {lr : LeaderRecord} (hoff : lr.tailOffset = lsnAt h lr.tailTxid % size) :
    GroupsAt size h lr.tailTxid (Groups.preload lr : Groups β) :=
  ⟨rfl, hoff, Nat.zero_le _, by simp [Groups.preload, init, lsnAt]⟩

theorem delTrimentry (upto : Nat) : GroupsAt size h p (gs.delTrimentry upto) := by
  obtain ⟨hr, ho⟩ := delete_right gs.workgrp upto
  obtain ⟨hr', ho'⟩ := delete_right gs.waitgrp upto
  refine ⟨hr.trans hg.rtxid, ho.trans hg.roffset, ?_, ?_⟩
  · show (gs.waitgrp.delete upto).rtxid ≤ p
    rw [hr']; exact hg.wait_le
  · show (gs.waitgrp.delete upto).roffset = lsnAt h (gs.waitgrp.delete upto).rtxid % size
    rw [hr', ho']; exact hg.wait_roffset

theorem directSwap (force : Bool) : GroupsAt size h p (gs.directSwap o force) := by
  unfold Groups.directSwap
  split
  · exact hg
  · split
    · exact hg
    · refine ⟨hg.rtxid, hg.roffset, le_of_eq hg.rtxid, ?_⟩
      show gs.workgrp.roffset = lsnAt h gs.workgrp.rtxid % size
      rw [hg.rtxid]; exact hg.roffset

theorem tryswap {metabuf : Key → β} {writable force : Bool} {type : HandleType} {locked : Bool}
    (hs : gs.tryswap o metabuf writable force type locked = some gs') : GroupsAt size h p gs' := by
  unfold Groups.tryswap at hs
  dsimp only at hs
  split at hs
  · cases hs; exact hg
  split at hs
  · cases hs; exact hg.directSwap force
  split at hs
  · cases hs; exact hg
  split at hs
  · cases hs
  split at hs
  · cases hs; exact hg
  obtain ⟨g', hg', rfl⟩ := Option.map_eq_some_iff.mp hs
  obtain ⟨hr, ho⟩ := swapin_right hg'
  have hfill : GroupsAt size h p { gs with workgrp := g' } :=
    ⟨hr.trans hg.rtxid, ho.trans hg.roffset, hg.wait_le, hg.wait_roffset⟩
  split
  · exact hfill
  · exact hfill.directSwap force

theorem addTrimentry {txid : Nat} (hs : 0 < size) (hp : p < h.length) (hfit : (h.get ⟨p, hp⟩).length ≤ size)
    (ha : gs.addTrimentry txid (h.get ⟨p, hp⟩).length (h.get ⟨p, hp⟩) size = some gs') :
    GroupsAt size h (p + 1) gs' := by
  obtain ⟨g', hg', rfl⟩ := Option.map_eq_some_iff.mp ha
  obtain ⟨hr, ho⟩ := insert_right hg'
  refine ⟨by rw [hr, hg.rtxid], ?_, Nat.le_succ_of_le hg.wait_le, hg.wait_roffset⟩
  rw [ho, hg.roffset, offModularAdd_eq_mod hs hfit, lsnAt_succ hp]

end GroupsAt

end Groups

/-! ## The mount -/

/-- The node has replayed `p` transactions, and its leader record says so; `dt` is the tail on disk. -/
structure FollowsAt (base : Key → β) (size : Nat) (h : List (TxOps β)) (dt p : Nat) (n : Node β) : Prop where
  le : p ≤ h.length
  leader : LeaderAt h size n.leader.tailTxid p n.leader
  tail_le : n.leader.tailTxid ≤ dt
  reached : dt ≤ p
  metabuf : n.metabuf = stateAt base h p
  groups : GroupsAt size h p n.groups

/-- What holds besides, by where the mount stands. -/
def PromotePc.Inv (size : Nat) (s : Promotion β) : PromotePc → Prop
  | .ro | .unloaded | .syncing => True
  | .loading lr => LeaderAt s.committed size lr.tailTxid lr.headTxid lr ∧ lr.headTxid ≤ s.committed.length ∧
      lr.tailTxid ≤ s.disk.leader.tailTxid
  | .rw => s.node.leader = s.disk.leader
  | .gap => False

structure PromotionInv (base : Key → β) (size : Nat) (s : Promotion β) : Prop where
  journal : JournalInv size s.committed s.disk.leader.tailTxid s.disk
  node : ∃ p, FollowsAt base size s.committed s.disk.leader.tailTxid p s.node
  pc : s.pc.Inv size s

section Node

variable {o : TrimOptions} {base : Key → β} {size : Nat} {h : List (TxOps β)} {d : Disk β} {dt p : Nat} {n n' : Node β}

theorem FollowsAt.append (hn : FollowsAt base size h dt p n) (h' : List (TxOps β)) :
    FollowsAt base size (h ++ h') dt p n :=
  ⟨by rw [List.length_append]; exact Nat.le_add_right_of_le hn.le,
    hn.leader.append (le_trans hn.tail_le (le_trans hn.reached hn.le)) hn.le h', hn.tail_le, hn.reached,
    by rw [stateAt_append_of_le hn.le]; exact hn.metabuf, hn.groups.append hn.le h'⟩

/-- Two leader records of one history with the same ends are the same. -/
theorem LeaderAt.eq {t hd : Nat} {lr lr' : LeaderRecord} (hl : LeaderAt h size t hd lr)
    (hl' : LeaderAt h size t hd lr') : lr = lr' := by
  rcases lr with ⟨a, b, c, e, f, g⟩
  rcases lr' with ⟨a', b', c', e', f', g'⟩
  have h1 := hl.tail.trans hl'.tail.symm
  have h2 := hl.head.trans hl'.head.symm
  have h3 := hl.tailOffset.trans hl'.tailOffset.symm
  have h4 := hl.headOffset.trans hl'.headOffset.symm
  have h5 := hl.lsn.trans hl'.lsn.symm
  have h6 := hl.size.trans hl'.size.symm
  dsimp only at h1 h2 h3 h4 h5 h6
  subst h1 h2 h3 h4 h5 h6
  rfl

theorem FollowsAt.pollTail (hj : JournalInv size h d.leader.tailTxid d)
    (hn : FollowsAt base size h d.leader.tailTxid p n) (hp : n.pollTail d.leader = some n') :
    FollowsAt base size h d.leader.tailTxid p n' ∧ n'.leader.tailTxid = d.leader.tailTxid := by
  unfold Node.pollTail at hp
  split at hp
  · cases hp
  split at hp
  · cases hp
    refine ⟨⟨hn.le, ⟨rfl, hn.leader.head, hj.leader.tailOffset, hn.leader.headOffset, hn.leader.lsn, hn.leader.size⟩,
      le_refl _, hn.reached, hn.metabuf, hn.groups.delTrimentry _⟩, rfl⟩
  · cases hp
    exact ⟨hn, le_antisymm hn.tail_le (by omega)⟩

theorem Node.replaytxPut_groups {writable locked : Bool} {tx : Nat × TxOps β}
    (hr : n.replaytxPut o writable locked tx = some n') :
    ∃ gs, n.groups.addTrimentry tx.1 tx.2.length tx.2 n.leader.logSize = some gs ∧
      gs.tryswap o n.metabuf writable false .replaydone locked = some n'.groups := by
  simp only [replaytxPut, Option.bind_eq_bind, Option.bind_eq_some_iff] at hr
  obtain ⟨gs, h1, gs', h2, hr⟩ := hr
  cases hr
  exact ⟨gs, h1, h2⟩

/-- The replayed transactions follow the working group's right end, so the loop of
`pfs_log_replaytx_put` goes through all of them. -/
theorem Node.replaytxs_spec {writable locked : Bool} {r : Node β × Bool} (hj : JournalInv size h d.leader.tailTxid d) :
    ∀ (k p : Nat) {n : Node β}, n.replaytxs o writable locked (numbered p (txSlice h p h.length)) = some r →
      h.length = p + k → d.leader.tailTxid ≤ p → n.leader.logSize = size → GroupsAt size h p n.groups →
      r.2 = true ∧ GroupsAt size h h.length r.1.groups ∧ r.1.leader = n.leader ∧ r.1.metabuf = n.metabuf
  | 0, p, n, hr, hk, _, _, hg => by
    obtain rfl : h.length = p := hk
    rw [txSlice_self] at hr
    cases hr
    exact ⟨rfl, hg, rfl, rfl⟩
  | k + 1, p, n, hr, hk, ht, hsize, hg => by
    have hp : p < h.length := by omega
    rw [txSlice_cons hp, numbered, replaytxs, if_pos (by rw [hg.rtxid])] at hr
    obtain ⟨n', hput, hr⟩ := Option.bind_eq_some_iff.mp hr
    obtain ⟨hl, hm⟩ := replaytxPut_node hput
    obtain ⟨gs, hadd, hswap⟩ := replaytxPut_groups hput
    rw [hsize] at hadd
    have hg' := (hg.addTrimentry hj.pos hp (hj.length_le hp ht) hadd).tryswap hswap
    obtain ⟨h1, h2, h3, h4⟩ := replaytxs_spec hj k (p + 1) hr (by omega) (by omega) (by rw [hl]; exact hsize) hg'
    exact ⟨h1, h2, h3.trans hl, h4.trans hm⟩

theorem Node.replaytxs_of_foldlM {writable locked : Bool} : ∀ {txs : List (Nat × TxOps β)} {n n' : Node β},
    txs.foldlM (fun n tx => n.replaytxPut o writable locked tx) n = some n' →
      n.replaytxs o writable locked txs = some (n', true)
  | [], n, n', hf => by cases hf; rfl
  | tx :: txs, n, n', hf => by
    rw [List.foldlM_cons] at hf
    obtain ⟨n₁, h1, h2⟩ := Option.bind_eq_some_iff.mp hf
    obtain ⟨gs, hadd, _⟩ := replaytxPut_groups h1
    obtain ⟨g, hins, _⟩ := Option.map_eq_some_iff.mp hadd
    rw [replaytxs, if_pos (insert_txid hins).1, h1]
    exact replaytxs_of_foldlM h2

/-- A read-only mount replays the whole journal. -/
theorem FollowsAt.mountRo {tl : Nat} {txs : List (Nat × TxOps β)} (hd : DiskInv base size h tl d)
    (hm : Node.mountRo o d = some (n, txs)) : FollowsAt base size h d.leader.tailTxid h.length n := by
  have hj := hd.toJournalInv.raise hd.tl_le (le_refl _)
  simp only [Node.mountRo, Option.bind_eq_bind, Option.bind_eq_some_iff] at hm
  obtain ⟨txs, hscan, hm⟩ := hm
  rw [hd.logScan] at hscan
  cases hscan
  have hmeta : redo d.sectors ((numbered d.leader.tailTxid (txSlice h d.leader.tailTxid h.length)).map Prod.snd) =
      stateAt base h h.length := by
    rw [map_snd_numbered, redo_of_fuzzy hd.tail_le hd.sectors]
  have hpre : GroupsAt size h d.leader.tailTxid (Groups.preload d.leader : Groups β) := .preload hj.leader.tailOffset
  split at hm
  · split at hm
    case isFalse => cases hm
    case isTrue heq =>
      cases hm
      have heq' : d.leader.tailTxid = h.length := heq.trans hj.leader.head
      refine ⟨le_refl _, hj.leader, le_refl _, hj.tail_le, hmeta, ?_⟩
      rw [← heq']; exact hpre
  · obtain ⟨n₁, hfold, hm⟩ := Option.bind_eq_some_iff.mp hm
    obtain ⟨n₂, hdone, hm⟩ := Option.bind_eq_some_iff.mp hm
    cases hm
    obtain ⟨_, hg, hl, hb⟩ := replaytxs_spec hj (h.length - d.leader.tailTxid) _
      (replaytxs_of_foldlM hfold) (Nat.add_sub_cancel' hj.tail_le).symm (le_refl _) hj.leader.size hpre
    unfold replaydone at hdone
    dsimp only at hdone
    split at hdone <;> cases hdone
    have hlead : n₁.leader = d.leader := hl
    refine ⟨le_refl _, ?_, ?_, hj.tail_le, hb.trans hmeta, hg.delTrimentry _⟩
    · rw [setGroups, hlead]; exact hj.leader
    · rw [setGroups, hlead]

end Node

section Steps

variable {o : TrimOptions} {base : Key → β} {size : Nat} {s s' : Promotion β}

section

variable (hi : PromotionInv base size s)

include hi

/-- A poll brings the node to the head on disk, and its leader record with it. -/
theorem Promotion.poll_spec {writable locked : Bool} {pc : PromotePc} (hs : s.poll o writable locked pc = some s') :
    ∃ n, s' = { s with node := n, pc := pc } ∧
      FollowsAt base size s.committed s.disk.leader.tailTxid s.committed.length n ∧ n.leader = s.disk.leader := by
  have hj := hi.journal
  obtain ⟨p, hn⟩ := hi.node
  simp only [poll, Option.bind_eq_bind, Option.bind_eq_some_iff] at hs
  obtain ⟨n, hp, hs⟩ := hs
  obtain ⟨hn, htail⟩ := hn.pollTail hj hp
  have hlr : n.leader.setHead s.disk.leader = s.disk.leader := by
    refine LeaderAt.eq (h := s.committed) ⟨htail, hj.leader.head, ?_, hj.leader.headOffset, hj.leader.lsn, hn.leader.size⟩
      hj.leader
    rw [← htail]; exact hn.leader.tailOffset
  split at hs
  case isTrue heq =>
    cases hs
    obtain rfl : p = s.committed.length := by rw [← hn.leader.head, heq, hj.leader.head]
    refine ⟨_, rfl, ⟨le_refl _, ?_, ?_, hn.reached, hn.metabuf, hn.groups⟩, hlr⟩
    · rw [setLeader, hlr]; exact hj.leader
    · rw [setLeader, hlr]
  case isFalse hne =>
    obtain ⟨txs, hscan, hs⟩ := Option.bind_eq_some_iff.mp hs
    rw [hn.leader.size, hn.leader.headOffset, hn.leader.head, hj.leader.head,
      hj.logScan_from hn.reached hn.le] at hscan
    cases hscan
    obtain ⟨r, hr, hs⟩ := Option.bind_eq_some_iff.mp hs
    obtain ⟨hok, hg, hl, hm⟩ := replaytxs_spec hj (s.committed.length - p) p hr
      (Nat.add_sub_cancel' hn.le).symm hn.reached hn.leader.size hn.groups
    simp only [hok, Bool.not_true, Bool.false_eq_true, if_false] at hs
    split at hs <;> cases hs
    have hlead : r.1.leader = s.disk.leader := hl.trans hlr
    refine ⟨r.1, rfl, ⟨le_refl _, ?_, ?_, le_trans hn.reached hn.le, ?_, hg⟩, hlead⟩
    · rw [hlead]; exact hj.leader
    · rw [hlead]
    · rw [hm, map_snd_numbered, hn.metabuf, ← stateAt_txSlice hn.le]

/-- A commit of the promoted mount, whose record is the one on disk. -/
theorem Promotion.commit_inv {ops : TxOps β} (hpc : s.pc = .rw) (hs : s.commit o ops = some s') :
    PromotionInv base size s' := by
  have hj := hi.journal
  have hlr : s.node.leader = s.disk.leader := by
    have := hi.pc
    rwa [hpc] at this
  obtain ⟨p, hn⟩ := hi.node
  obtain rfl : p = s.committed.length := by rw [← hn.leader.head, hlr, hj.leader.head]
  simp only [commit, hlr] at hs
  obtain ⟨hok, hs⟩ := Option.ite_none_right_eq_some.1 hs
  have hnext : (s.node.setLeader (s.disk.leader.advanceHead ops.length)).leader.headTxid =
      (s.node.setLeader (s.disk.leader.advanceHead ops.length)).groups.workgrp.rtxid + 1 := by
    show s.disk.leader.headTxid + 1 = s.node.groups.workgrp.rtxid + 1
    rw [hn.groups.rtxid, hj.leader.head]
  rw [if_pos hnext] at hs
  obtain ⟨n, happ, rfl⟩ := Option.map_eq_some_iff.mp hs
  have hlead := apply_leader happ
  have hj' := hj.logCommit hok.1 hok.2.1
  simp only [apply, Option.bind_eq_bind, Option.bind_eq_some_iff] at happ
  obtain ⟨gs, hadd, gs', hswap, happ⟩ := happ
  split at happ <;> cases happ
  have hlt : s.committed.length < (s.committed ++ [ops]).length := by simp
  have hget : (s.committed ++ [ops]).get ⟨s.committed.length, hlt⟩ = ops := by simp
  have hfit := hj'.length_le hlt hj.tail_le
  have hsize : (s.node.setLeader (s.disk.leader.advanceHead ops.length)).leader.logSize = size := hj.leader.size
  rw [hsize] at hadd
  have hg := ((hn.groups.append (le_refl _) [ops]).addTrimentry hj.pos hlt hfit (by rw [hget]; exact hadd)).tryswap hswap
  refine ⟨hj', ⟨s.committed.length + 1, ?_, ?_, le_refl _, ?_, ?_, hg⟩, ?_⟩
  · simp
  · have := hj'.leader
    rwa [List.length_append, List.length_singleton] at this
  · exact Nat.le_succ_of_le hj.tail_le
  · show applyTx s.node.metabuf ops = _
    rw [stateAt_snoc, hn.metabuf]
  · rw [hpc]; rfl

/-- A trim that flushes anything is by the record on disk. -/
theorem Promotion.trim_inv (hpc : s.pc = .rw ∨ s.pc = .syncing)
    (hlr : s.node.groups.waitgrp.sects.isEmpty ∨ s.node.leader = s.disk.leader) (hs : s.trim = some s') :
    PromotionInv base size s' := by
  have hj := hi.journal
  unfold trim at hs
  dsimp only at hs
  split at hs
  · cases hs; exact hi
  split at hs
  case isFalse => cases hs
  split at hs
  · cases hs; exact hi
  obtain ⟨hfwd, hs⟩ := Option.ite_none_right_eq_some.1 hs
  replace hlr := hlr.resolve_left ‹_›
  obtain ⟨p, hn⟩ := hi.node
  obtain rfl : p = s.committed.length := by rw [← hn.leader.head, hlr, hj.leader.head]
  rw [hlr] at hs hfwd
  obtain ⟨d, hflush, hs⟩ := Option.bind_eq_some_iff.mp hs
  split at hs <;> cases hs
  obtain ⟨hjd, hdl⟩ := hj.flush hflush
  have htail : s.disk.leader.tailTxid ≤ s.node.groups.waitgrp.rtxid := by
    simp only [forwardLeader, decide_eq_true_eq] at hfwd
    exact hfwd.1
  have hlead : LeaderAt s.committed size s.node.groups.waitgrp.rtxid s.committed.length
      (s.disk.leader.trimTo s.node.groups.waitgrp) :=
    ⟨rfl, hj.leader.head, hn.groups.wait_roffset, hj.leader.headOffset, hj.leader.lsn, hj.leader.size⟩
  refine ⟨hjd.writeTail hlead (by rw [hdl]; exact htail) hn.groups.wait_le,
    ⟨_, le_refl _, hlead, le_refl _, hn.groups.wait_le, hn.metabuf, hn.groups.delTrimentry _⟩, ?_⟩
  rcases hpc with hpc | hpc <;> rw [hpc] <;> trivial

/-- A record that `pfs_leader_load` stores during a promotion ends at the replayed position, and until the first
poll after it no trim is by a record that is behind the one on disk. -/
def loadsReplayed (s : Promotion β) (ev : PromotionEvent β) : Bool :=
  match s.pc, ev with
  | .loading lr, .promoteOk _ => lr.headTxid == s.node.groups.workgrp.rtxid
  | .unloaded, .reloadRo => s.disk.leader.headTxid == s.node.groups.workgrp.rtxid
  | .syncing, .trim => s.node.groups.waitgrp.sects.isEmpty || decide (s.node.leader = s.disk.leader)
  | _, _ => true

theorem Promotion.remoteCommit_inv {ops : TxOps β} (hs : s.step o (.remoteCommit ops) = some s') :
    PromotionInv base size s' := by
  have hj := hi.journal
  obtain ⟨p, hn⟩ := hi.node
  simp only [step] at hs
  split at hs <;> cases hs
  case isTrue hok =>
    refine ⟨hj.logCommit hok.2.1 hok.2.2, ⟨p, hn.append _⟩, ?_⟩
    have hpc := hi.pc
    have hw := hok.1
    show s.pc.Inv size _
    cases hcur : s.pc <;> rw [hcur] at hpc hw <;> try trivial
    case loading lr =>
      obtain ⟨h1, h2, h3⟩ := hpc
      refine ⟨h1.append (le_trans h3 hj.tail_le) h2 _, ?_, h3⟩
      rw [List.length_append]; exact Nat.le_add_right_of_le h2

theorem Promotion.remoteTrim_inv {tail : Nat} (hs : s.step o (.remoteTrim tail) = some s') :
    PromotionInv base size s' := by
  have hj := hi.journal
  obtain ⟨p, hn⟩ := hi.node
  simp only [step] at hs
  split at hs <;> cases hs
  case isTrue hok =>
    obtain ⟨hw, h1, h2, h3⟩ := hok
    rw [hn.groups.rtxid] at h2
    rw [hj.leader.head] at h3
    have hlead : LeaderAt s.committed size tail s.committed.length
        { s.disk.leader with tailTxid := tail, tailOffset := lsnAt s.committed tail % s.disk.leader.logSize } :=
      ⟨rfl, hj.leader.head, by rw [hj.leader.size], hj.leader.headOffset, hj.leader.lsn, hj.leader.size⟩
    refine ⟨hj.writeTail hlead h1 h3, ⟨p, hn.le, hn.leader, le_trans hn.tail_le h1, h2, hn.metabuf, hn.groups⟩, ?_⟩
    have hpc := hi.pc
    show s.pc.Inv size _
    cases hcur : s.pc <;> rw [hcur] at hpc hw <;> try trivial
    case loading lr => exact ⟨hpc.1, hpc.2.1, le_trans hpc.2.2 h1⟩

/-- One step, when the records that are stored end at the replayed position. -/
theorem Promotion.step_inv {ev : PromotionEvent β} (hok : loadsReplayed s ev = true) (hs : s.step o ev = some s') :
    PromotionInv base size s' := by
  have hj := hi.journal
  cases hcur : s.pc <;> cases ev
  all_goals first
    | exact remoteCommit_inv hi hs
    | exact remoteTrim_inv hi hs
    | skip
  all_goals simp only [step, hcur, reduceCtorEq] at hs
  case ro.poll | syncing.poll | rw.poll =>
    obtain ⟨n, rfl, hn, hlr⟩ := poll_spec hi hs
    first
      | exact ⟨hj, ⟨_, hn⟩, trivial⟩
      | exact ⟨hj, ⟨_, hn⟩, hlr⟩
  case ro.promote =>
    cases hs
    refine ⟨hj, hi.node, ?_, ?_, le_refl _⟩
    · rw [hj.leader.head]; exact hj.leader
    · exact le_of_eq hj.leader.head
  case loading.promoteOk lr locked =>
    obtain ⟨gs, hswap, rfl⟩ := Option.map_eq_some_iff.mp hs
    obtain ⟨p, hn⟩ := hi.node
    have hpc := hi.pc
    rw [hcur] at hpc
    simp only [loadsReplayed, hcur, beq_iff_eq] at hok
    obtain ⟨hl, _, hle⟩ := hpc
    rw [hok, hn.groups.rtxid] at hl
    exact ⟨hj, ⟨p, hn.le, hl, hle, hn.reached, hn.metabuf, hn.groups.tryswap hswap⟩, trivial⟩
  case loading.promoteFail => cases hs; exact ⟨hj, hi.node, trivial⟩
  case unloaded.reloadRo =>
    cases hs
    obtain ⟨p, hn⟩ := hi.node
    simp only [loadsReplayed, hcur, beq_iff_eq] at hok
    have hp : p = s.committed.length := by rw [← hn.groups.rtxid, ← hok, hj.leader.head]
    refine ⟨hj, ⟨p, hn.le, ?_, le_refl _, hn.reached, hn.metabuf, hn.groups⟩, trivial⟩
    rw [hp]; exact hj.leader
  case rw.commit => exact commit_inv hi hcur hs
  case syncing.swap | rw.swap =>
    obtain ⟨gs, hswap, rfl⟩ := Option.map_eq_some_iff.mp hs
    obtain ⟨p, hn⟩ := hi.node
    have hpc := hi.pc
    rw [hcur] at hpc
    exact ⟨hj, ⟨p, hn.le, hn.leader, hn.tail_le, hn.reached, hn.metabuf, hn.groups.tryswap hswap⟩, hpc⟩
  case syncing.trim =>
    simp only [loadsReplayed, hcur, Bool.or_eq_true, decide_eq_true_eq] at hok
    exact trim_inv hi (.inr hcur) hok hs
  case rw.trim =>
    have hpc := hi.pc
    rw [hcur] at hpc
    exact trim_inv hi (.inl hcur) (.inr hpc) hs
  case rw.demote => cases hs; exact ⟨hj, hi.node, trivial⟩

end

end Steps

theorem Promotion.init_inv {o : TrimOptions} {base : Key → β} {size : Nat} {s : Promotion β}
    (hs : (promotionSystem o size base).init s) : PromotionInv base size s := by
  obtain ⟨hpc, ⟨tl, hd⟩, txs, hm⟩ := hs
  refine ⟨hd.toJournalInv.raise hd.tl_le (le_refl _), ⟨_, FollowsAt.mountRo hd hm⟩, ?_⟩
  rw [hpc]
  trivial

/-! ## No transaction is skipped -/

/-- The node has applied the transactions of the journal in order, up to the head of its leader
record, which is the last one in its working group. -/
structure NoGap (base : Key → β) (s : Promotion β) : Prop where
  journal : logScan s.disk.ring s.disk.leader.logSize s.disk.leader.tailOffset s.disk.leader.tailTxid
    s.disk.leader.headTxid =
      some (numbered s.disk.leader.tailTxid (txSlice s.committed s.disk.leader.tailTxid s.committed.length))
  head : s.node.leader.headTxid = s.node.groups.workgrp.rtxid
  le : s.node.leader.headTxid ≤ s.committed.length
  metabuf : s.node.metabuf = stateAt base s.committed s.node.leader.headTxid
  /-- a promoted mount has applied all of them -/
  rw : s.pc = .rw → s.node.leader.headTxid = s.committed.length
  contiguous : s.pc ≠ .gap

theorem PromotionInv.noGap {base : Key → β} {size : Nat} {s : Promotion β} (hi : PromotionInv base size s) :
    NoGap base s := by
  have hj := hi.journal
  have hpc := hi.pc
  obtain ⟨p, hn⟩ := hi.node
  refine ⟨?_, ?_, ?_, ?_, fun hrw => ?_, fun hgap => ?_⟩
  · rw [hj.leader.size, hj.leader.tailOffset, hj.leader.head]
    exact hj.logScan_from (le_refl _) hj.tail_le
  · rw [hn.leader.head, hn.groups.rtxid]
  · rw [hn.leader.head]; exact hn.le
  · rw [hn.leader.head]; exact hn.metabuf
  · rw [hrw] at hpc
    rw [show s.node.leader = s.disk.leader from hpc, hj.leader.head]
  · rw [hgap] at hpc
    exact hpc

/-- In every run in which each leader record that `pfs_leader_load` stores during a promotion ends at
the position the node has replayed, and none that is behind is trimmed by before the first poll; whether
the promotion succeeds or is undone, and whatever the other host commits meanwhile. -/
theorem promotion_no_gap {o : TrimOptions} {size : Nat} {base : Key → β} {s : Promotion β}
    (hs : ((promotionSystem o size base).restrict fun s ev => loadsReplayed s ev = true).Reachable s) : NoGap base s :=
  PromotionInv.noGap <| hs.invariant_restrict (fun _ => init_inv) fun _ _ _ hi hok hstep =>
    step_inv hi hok hstep

/-- A read-only mount of a new file system. -/
def Promotion.fresh (size : Nat) : Promotion Nat where
  disk := (Writer.fresh size fun _ => 0).disk
  node := ⟨LeaderRecord.mkfs size, fun _ => 0, Groups.preload (LeaderRecord.mkfs size)⟩
  pc := .ro
  committed := []

theorem Promotion.fresh_init (o : TrimOptions) {size : Nat} (hs : 0 < size) :
    (promotionSystem o size fun _ => 0).init (fresh size) :=
  ⟨rfl, Writer.init_inv (Writer.fresh_init o hs fun _ => 0), [], rfl⟩

/-- Another host commits one transaction; before it is polled the mount is promoted. -/
def skippedRun : List (PromotionEvent Nat) :=
  [.remoteCommit [((5, 0), 7)], .promote, .promoteOk true, .poll true, .commit [((6, 0), 1)]]

/-- The first commit of the promoted mount meets the assertion of `pfs_trimgroup_insert`. -/
theorem not_promotion_no_gap :
    ¬ ∀ (o : TrimOptions) (size : Nat) (s : Promotion Nat),
      (promotionSystem o size fun _ => 0).Reachable s → NoGap (fun _ => 0) s := by
  intro hall
  obtain ⟨s, hs, hp⟩ : ∃ s, (promotionSystem ⟨1, 1, 1⟩ 8 fun _ => 0).Reachable s ∧ s.pc.isGap = true :=
    ⟨_, System.reachable_last _ (fresh 8) skippedRun (fresh_init ⟨1, 1, 1⟩ (by decide)) (by decide +kernel),
      by decide +kernel⟩
  refine (hall _ _ s hs).contiguous ?_
  cases hpc : s.pc <;> rw [hpc] at hp <;> first | rfl | cases hp

/-- A promotion during which the other host commits once more, after a failed one. -/
def promotedRun : List (PromotionEvent Nat) :=
  [.remoteCommit [((5, 0), 7)], .poll true, .promote, .promoteFail, .reloadRo, .promote,
    .remoteCommit [((5, 0), 8), ((6, 1), 2)], .promoteOk true, .poll true, .commit [((6, 0), 1)], .poll false]

theorem promotion_no_gap_promotedRun : ∃ s : Promotion Nat,
    ((promotionSystem ⟨1, 1, 1⟩ 8 fun _ => 0).restrict fun s ev => loadsReplayed s ev = true).Reachable s ∧
      s.committed = [[((5, 0), 7)], [((5, 0), 8), ((6, 1), 2)], [((6, 0), 1)]] ∧ s.node.leader.headTxid = 3 ∧
      NoGap (fun _ => 0) s := by
  have hs := ((promotionSystem ⟨1, 1, 1⟩ 8 fun _ => 0).restrict fun s ev => loadsReplayed s ev = true).reachable_last
    (fresh 8) promotedRun (fresh_init ⟨1, 1, 1⟩ (by decide)) (by decide +kernel)
  exact ⟨_, hs, by decide +kernel, by decide +kernel, promotion_no_gap hs⟩

end PolarFs.Journal
