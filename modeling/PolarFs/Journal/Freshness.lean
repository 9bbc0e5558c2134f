/-
`pfs_mount_sync` on a read-only mount: any number of threads compare a leader record's head lsn, read by
one of them for a work group (`pfs_work_groups.h`), with the last one the log thread has seen
(`pfs_group_log_header_checker`), and send a `LOG_POLL` when they differ. The log thread hands what it
scanned to the first of the waiting threads, which replays it.
-/
import PolarFs.Journal.Agreement

namespace PolarFs.Journal

open RedoLog Transition Follower

/-- `WorkGroup`. -/
structure WorkGroup where
  inProgress : Bool
  counter : Nat
  result : Option Nat
  deriving DecidableEq, Repr

/-- Where a thread is in `pfs_mount_sync`; `k` is the number of transactions that were committed when
it called. -/
inductive CallPc where
  | out
  /-- before `wait_or_run` of group `g` -/
  | entering (g k : Nat)
  /-- runs the callback of its group -/
  | running (g k : Nat)
  /-- the callback has returned `res` -/
  | ran (g : Nat) (res : Option Nat) (k : Nat)
  /-- `notify_all` of the other groups -/
  | notifying (res : Option Nat) (todo : List Nat) (k : Nat)
  /-- waits for the counter of the group to change -/
  | waiting (g counter k : Nat)
  /-- before the load of `last_head_lsn`; `joined` tells that the read was another thread's -/
  | comparing (res : Option Nat) (joined : Bool) (k : Nat)
  /-- its `LOG_POLL` is queued -/
  | queued (k : Nat)
  /-- its `LOG_POLL` is being handled; it is the first one or not -/
  | polling (first : Bool) (k : Nat)
  /-- has got the scanned transactions -/
  | replaying (k : Nat)
  /-- its request is in `work_req[LOG_REPLAY_WAIT]` -/
  | replayWait (k : Nat)
  | returned (rv : Int) (k : Nat)
  deriving DecidableEq, Repr

/-- The writer, the mount and the threads that sync it. -/
structure Sync (β : Type) where
  writer : Writer β
  follower : Follower β
  lastHeadLsn : Nat
  groups : Nat → WorkGroup
  threads : Nat → CallPc

inductive SyncEvent (β : Type) where
  | writer (ev : Event β)
  | mount
  | call (i g : Nat)
  | enter (i : Nat)
  /-- the read of the leader record, which may fail -/
  | readLeader (i : Nat) (ok : Bool)
  | finish (i : Nat)
  /-- `notify_all` of one group, whose lock may be taken -/
  | notify (i : Nat) (locked : Bool)
  | wake (i : Nat)
  | compare (i : Nat)
  /-- `LOG_POLL` with thread `i`'s request as the first one -/
  | poll (i : Nat)
  | readEntry
  /-- a read of the poll fails -/
  | pollError (rv : Int)
  | replay
  | insert
  | leave (i : Nat)

variable {β : Type}

def Sync.setCall (s : Sync β) (i : Nat) (c : CallPc) : Sync β := { s with threads := Function.update s.threads i c }

def Sync.setGroup (s : Sync β) (g : Nat) (w : WorkGroup) : Sync β := { s with groups := Function.update s.groups g w }

/-- `pfs_log_reply_queue` of `work_req[LOG_POLL]` right after the read of the leader record. -/
def CallPc.replyQueued (rv : Int) : CallPc → CallPc
  | .queued k => .returned rv k
  | c => c

/-- `pfs_log_reply_queue` of `work_req[LOG_POLL]` after a scan. -/
def CallPc.replyPolling (rv : Int) : CallPc → CallPc
  | .polling _ k => .returned rv k
  | c => c

/-- The requests that are handled by a poll which has entries to scan. -/
def CallPc.startPoll : CallPc → CallPc
  | .queued k => .polling false k
  | c => c

/-- The end of `pfs_log_handle_poll` when entries were scanned. -/
def CallPc.scanned : CallPc → CallPc
  | .polling true k => .replaying k
  | .polling false k => .replayWait k
  | c => c

/-- The replies of `pfs_log_handle_replaydone`. -/
def CallPc.replayDone : CallPc → CallPc
  | .replaying k => .returned 0 k
  | .replayWait k => .returned 0 k
  | c => c

def FollowerPc.isOff : FollowerPc β → Bool
  | .off => true
  | _ => false

def FollowerPc.isIdle : FollowerPc β → Bool
  | .idle => true
  | _ => false

/-- `wait_or_run` up to the callback or the wait. -/
def Sync.enter (s : Sync β) (i g k : Nat) : Sync β :=
  if (s.groups g).inProgress then s.setCall i (.waiting g (s.groups g).counter k)
  else (s.setGroup g { s.groups g with inProgress := true }).setCall i (.running g k)

/-- `wait_or_run` after the callback. -/
def Sync.finish (ng : Nat) (s : Sync β) (i g : Nat) (res : Option Nat) (k : Nat) : Sync β :=
  (s.setGroup g ⟨false, (s.groups g).counter + 1, res⟩).setCall i
    (.notifying res ((List.range ng).filter (· ≠ g)) k)

/-- `log_head_lsn_changed` after the read, and the request to the log thread. -/
def Sync.compare (s : Sync β) (i : Nat) (res : Option Nat) (k : Nat) : Sync β :=
  match res with
  | some lsn => if s.lastHeadLsn = lsn then s.setCall i (.returned 0 k) else s.setCall i (.queued k)
  | none => s.setCall i (.queued k)

/-- The handler of `LOG_POLL` up to its scan. -/
def Sync.poll (o : TrimOptions) (s : Sync β) (i k : Nat) : Option (Sync β) :=
  (s.follower.step o s.writer.disk .poll).map fun f =>
    if f.pc.isIdle then
      { s with
        follower := f
        lastHeadLsn := s.writer.disk.leader.headLsn
        threads := fun j => (s.threads j).replyQueued 0 }
    else
      { s with
        follower := f
        threads := Function.update (fun j => (s.threads j).startPoll) i (.polling true k) }

/-- One log entry of the scan; after the last one `pfs_log_poll` publishes the head lsn. -/
def Sync.readEntry (o : TrimOptions) (s : Sync β) : Option (Sync β) :=
  (s.follower.step o s.writer.disk .readEntry).map fun f =>
    if f.pc.isReplaying then
      { s with
        follower := f
        lastHeadLsn := f.node.leader.headLsn
        threads := fun j => (s.threads j).scanned }
    else { s with follower := f }

/-- One step of a thread, of the log thread or of the writer. -/
def Sync.step (o : TrimOptions) (ng : Nat) (s : Sync β) : SyncEvent β → Option (Sync β)
  | .writer ev => (s.writer.step o ev).map fun w => { s with writer := w }
  | .mount =>
    if s.follower.pc.isOff then
      (s.follower.step o s.writer.disk .join).map fun f =>
        { s with follower := f, lastHeadLsn := f.node.leader.headLsn }
    else none
  | .call i g =>
    if s.threads i = .out ∧ g < ng ∧ !s.follower.pc.isOff then
      some (s.setCall i (.entering g s.writer.committed.length))
    else none
  | .enter i =>
    match s.threads i with
    | .entering g k => some (s.enter i g k)
    | _ => none
  | .readLeader i ok =>
    match s.threads i with
    | .running g k => some (s.setCall i (.ran g (if ok then some s.writer.disk.leader.headLsn else none) k))
    | _ => none
  | .finish i =>
    match s.threads i with
    | .ran g res k => some (s.finish ng i g res k)
    | _ => none
  | .notify i locked =>
    match s.threads i with
    | .notifying res (g :: todo) k =>
      let s' := if locked then s else s.setGroup g { s.groups g with result := res, counter := (s.groups g).counter + 1 }
      some (s'.setCall i (.notifying res todo k))
    | .notifying res [] k => some (s.setCall i (.comparing res false k))
    | _ => none
  | .wake i =>
    match s.threads i with
    | .waiting g counter k =>
      if (s.groups g).counter ≠ counter then some (s.setCall i (.comparing (s.groups g).result true k)) else none
    | _ => none
  | .compare i =>
    match s.threads i with
    | .comparing res _ k => some (s.compare i res k)
    | _ => none
  | .poll i =>
    match s.threads i with
    | .queued k => if s.follower.pc.isIdle then s.poll o i k else none
    | _ => none
  | .readEntry => s.readEntry o
  | .pollError rv =>
    if rv < 0 ∧ s.follower.pc.isIdle then some { s with threads := fun j => (s.threads j).replyQueued rv }
    else if rv < 0 ∧ s.follower.pc.isScanning then
      some { s with
        follower := { s.follower with pc := .idle }
        threads := fun j => (s.threads j).replyPolling rv }
    else none
  | .replay => (s.follower.step o s.writer.disk .replay).map fun f => { s with follower := f }
  | .insert =>
    (s.follower.step o s.writer.disk .insert).map fun f =>
      if f.pc.isIdle then { s with follower := f, threads := fun j => (s.threads j).replayDone }
      else { s with follower := f }
  | .leave i =>
    match s.threads i with
    | .returned _ _ => some (s.setCall i .out)
    | _ => none

/-- A new file system on which nothing is mounted; `ng` is the number of work groups. -/
def syncSystem (o : TrimOptions) (ng size : Nat) (base : Key → β) : System (Sync β) (SyncEvent β) where
  init s := (writerSystem o size base).init s.writer ∧ s.follower.pc = .off ∧ s.follower.applied = [] ∧
    (∀ g, s.groups g = ⟨false, 0, none⟩) ∧ ∀ i, s.threads i = .out
  step := Sync.step o ng

/-! ## The invariant -/

open Sync

/-- A head lsn that was read after the call, in which `k` transactions were committed. -/
structure ReadAfter (h : List (TxOps β)) (res : Option Nat) (k : Nat) : Prop where
  le : k ≤ h.length
  read : ∀ lsn, res = some lsn → ∃ m, k ≤ m ∧ m ≤ h.length ∧ lsn = lsnAt h m

/-- What is known of a call: a result of its own read is newer than the call, a poll's leader record is, and so is
what the call was answered with. -/
def CallPc.Inv (h : List (TxOps β)) (f : Follower β) : CallPc → Prop
  | .out => True
  | .entering _ k | .running _ k | .waiting _ _ k | .queued k => k ≤ h.length
  | .ran _ res k | .notifying res _ k => ReadAfter h res k
  | .comparing res joined k => k ≤ h.length ∧ ReadAfter h res (if joined then 0 else k)
  | .polling _ k => ∃ latest offset st, f.pc = .scanning latest offset st ∧ k ≤ latest.headTxid
  | .replaying k | .replayWait k => k ≤ f.node.leader.headTxid
  | .returned rv k => rv = 0 → k ≤ f.replayedAt

structure SyncInv (base : Key → β) (size : Nat) (s : Sync β) : Prop where
  writer : WriterInv base size s.writer
  follower : FollowerInv base size s.writer.committed s.writer.disk.ring s.follower
  last : s.follower.pc ≠ .off → s.lastHeadLsn = lsnAt s.writer.committed s.follower.node.leader.headTxid
  latest : ∀ latest offset st, s.follower.pc = .scanning latest offset st →
    latest.headLsn = lsnAt s.writer.committed latest.headTxid
  calls : ∀ i, (s.threads i).Inv s.writer.committed s.follower
  groups : ∀ g, ReadAfter s.writer.committed (s.groups g).result 0
  off : s.follower.pc = .off → ∀ i, s.threads i = .out

section Calls

variable {h : List (TxOps β)} {f f' : Follower β} {c : CallPc}

theorem ReadAfter.append {res : Option Nat} {k : Nat} (hr : ReadAfter h res k) (h' : List (TxOps β)) :
    ReadAfter (h ++ h') res k := by
  refine ⟨by rw [List.length_append]; exact Nat.le_add_right_of_le hr.le, ?_⟩
  intro lsn hlsn
  obtain ⟨m, h1, h2, rfl⟩ := hr.read lsn hlsn
  exact ⟨m, h1, by rw [List.length_append]; exact Nat.le_add_right_of_le h2, (lsnAt_append_of_le h2 h').symm⟩

theorem ReadAfter.any {res : Option Nat} {k : Nat} (hr : ReadAfter h res k) : ReadAfter h res 0 := by
  refine ⟨Nat.zero_le _, fun lsn hlsn => ?_⟩
  obtain ⟨m, -, h2, heq⟩ := hr.read lsn hlsn
  exact ⟨m, Nat.zero_le _, h2, heq⟩

theorem CallPc.Inv.append (hc : c.Inv h f) (h' : List (TxOps β)) : c.Inv (h ++ h') f := by
  have hlen : h.length ≤ (h ++ h').length := by rw [List.length_append]; exact Nat.le_add_right _ _
  cases c
  case entering | running | waiting | queued => exact le_trans (show _ ≤ h.length from hc) hlen
  case ran | notifying => exact ReadAfter.append hc h'
  case comparing => exact ⟨hc.1.trans hlen, hc.2.append h'⟩
  all_goals exact hc

/-- A step of the log thread keeps what is known of the calls it does not reply to. -/
theorem CallPc.Inv.follower (hc : c.Inv h f) (hhead : f.node.leader.headTxid ≤ f'.node.leader.headTxid)
    (hat : f.replayedAt ≤ f'.replayedAt) (hscan : ∀ latest offset st, f.pc = .scanning latest offset st →
      ∃ offset' st', f'.pc = .scanning latest offset' st') : c.Inv h f' := by
  cases c
  case polling =>
    obtain ⟨latest, offset, st, hpc, hk⟩ := hc
    obtain ⟨offset', st', hpc'⟩ := hscan latest offset st hpc
    exact ⟨latest, offset', st', hpc', hk⟩
  case replaying | replayWait => exact le_trans (show _ ≤ f.node.leader.headTxid from hc) hhead
  case returned => exact fun hrv => le_trans (hc hrv) hat
  all_goals exact hc

/-- No call is in a poll while the log thread is not scanning. -/
theorem CallPc.Inv.not_polling {first : Bool} {k : Nat} (hc : (CallPc.polling first k).Inv h f)
    (hpc : f.pc.isScanning = false) : False := by
  obtain ⟨_, _, _, heq, _⟩ := hc
  rw [heq] at hpc
  cases hpc

end Calls

/-- Head lsns are in the order of the positions of the history. -/
theorem le_of_lsnAt_le {h : List (TxOps β)} (htxs : ∀ tx ∈ h, tx ≠ []) {a b : Nat} (ha : a ≤ h.length)
    (hle : lsnAt h a ≤ lsnAt h b) : a ≤ b := by
  by_contra hlt
  have hb : b < h.length := by omega
  have hgrow : lsnAt h b < lsnAt h a := by
    calc lsnAt h b < lsnAt h (b + 1) := by
          rw [lsnAt_succ hb]
          exact Nat.lt_add_of_pos_right (List.length_pos_of_ne_nil (htxs _ (List.get_mem h ⟨b, hb⟩)))
      _ ≤ lsnAt h a := lsnAt_mono (by omega)
  omega

/-! ## Steps -/

/-- What keeps calls fresh: a commit's failed leader write has not reached the disk, and when a call finds the head
lsn it has read published already, a read that it joined tells of all commits before the call, and none of these
waits for its replay. -/
def syncsFresh (s : Sync β) : SyncEvent β → Bool
  | .writer ev => s.writer.leaderWriteClean ev
  | .compare i =>
    match s.threads i with
    | .comparing (some lsn) joined k => s.lastHeadLsn ≠ lsn ||
        (!joined || decide (lsnAt s.writer.committed k ≤ lsn)) &&
        (!s.follower.pc.isReplaying || decide (k ≤ s.follower.replayedAt))
    | _ => true
  | _ => true

section Steps

variable {o : TrimOptions} {ng : Nat} {base : Key → β} {size : Nat} {s s' : Sync β}

section

variable (hi : SyncInv base size s)

include hi

theorem SyncInv.setGroup (g : Nat) {w : WorkGroup} (hw : ReadAfter s.writer.committed w.result 0) :
    SyncInv base size (s.setGroup g w) :=
  { hi with groups := (Function.forall_update_iff s.groups fun _ w => ReadAfter _ w.result 0).2 ⟨hw, fun g _ => hi.groups g⟩ }

theorem SyncInv.setCall {i : Nat} {c : CallPc} (hc : c.Inv s.writer.committed s.follower) (hpc : s.follower.pc ≠ .off) :
    SyncInv base size (s.setCall i c) := by
  refine { hi with calls := ?_, off := fun hoff => absurd hoff hpc }
  exact (Function.forall_update_iff s.threads fun _ c => c.Inv s.writer.committed s.follower).2 ⟨hc, fun j _ => hi.calls j⟩

theorem SyncInv.call {i : Nat} {c : CallPc} (hc : s.threads i = c) (hout : c ≠ .out) :
    c.Inv s.writer.committed s.follower ∧ s.follower.pc ≠ .off :=
  ⟨hc ▸ hi.calls i, fun hoff => hout (hc.symm.trans (hi.off hoff i))⟩

theorem SyncInv.logStep {f : Follower β} {lsn : Nat} {threads : Nat → CallPc}
    (hf : FollowerInv base size s.writer.committed s.writer.disk.ring f) (hpc : f.pc ≠ .off)
    (hlast : lsn = lsnAt s.writer.committed f.node.leader.headTxid)
    (hlatest : ∀ latest offset st, f.pc = .scanning latest offset st →
      latest.headLsn = lsnAt s.writer.committed latest.headTxid)
    (hcalls : ∀ i, (threads i).Inv s.writer.committed f) : SyncInv base size ⟨s.writer, f, lsn, s.groups, threads⟩ :=
  ⟨hi.writer, hf, fun _ => hlast, hlatest, hcalls, hi.groups, fun hoff => absurd hoff hpc⟩

theorem Sync.writer_inv {ev : Event β} (hok : syncsFresh s (.writer ev) = true)
    (hs : s.step o ng (.writer ev) = some s') : SyncInv base size s' := by
  obtain ⟨w, hw, rfl⟩ := Option.map_eq_some_iff.mp hs
  have hadv := Writer.step_advances hi.writer hw
  obtain ⟨h', hh⟩ := hadv.committed
  refine ⟨Writer.step_inv hi.writer (Writer.commitClean hok) hw, hi.follower.advance hadv, fun hpc => ?_, ?_, fun i => ?_,
    fun g => hh ▸ (hi.groups g).append h', hi.off⟩
  · show s.lastHeadLsn = lsnAt w.committed _
    rw [hh, lsnAt_append_of_le (hi.follower.head_le hpc)]
    exact hi.last hpc
  · intro latest offset st hpc
    show latest.headLsn = lsnAt w.committed _
    rw [hh, lsnAt_append_of_le (hi.follower.latest_le hpc)]
    exact hi.latest latest offset st hpc
  · show (s.threads i).Inv w.committed _
    rw [hh]
    exact (hi.calls i).append h'

theorem Sync.mount_inv (hs : s.step o ng .mount = some s') : SyncInv base size s' := by
  obtain ⟨tl, hd⟩ := hi.writer.disk
  simp only [step] at hs
  obtain ⟨hoff, hs⟩ := Option.ite_none_right_eq_some.1 hs
  have hpc : s.follower.pc = .off := by
    cases hp : s.follower.pc <;> rw [hp] at hoff <;> first | rfl | cases hoff
  obtain ⟨f, hf, rfl⟩ := Option.map_eq_some_iff.mp hs
  have hf' := step_inv hd hi.follower hf
  simp only [Follower.step, hpc] at hf
  obtain ⟨r, hr, rfl⟩ := Option.map_eq_some_iff.mp hf
  obtain ⟨hlead, _, _⟩ := Node.mountRo_spec hd hr
  refine hi.logStep hf' (by simp) ?_ (by simp) fun i => ?_
  · dsimp only
    rw [hlead, hd.leader.head, hd.leader.lsn]
  · rw [hi.off hpc i]
    trivial

/-- A poll replies to everyone who asked before its read of the leader record, or starts a scan for
them. -/
theorem Sync.poll_inv {i k : Nat} (hidle : s.follower.pc.isIdle = true) (hk : s.threads i = .queued k)
    (hs : s.poll o i k = some s') : SyncInv base size s' := by
  obtain ⟨tl, hd⟩ := hi.writer.disk
  have hpc : s.follower.pc = .idle := by
    cases hp : s.follower.pc <;> rw [hp] at hidle <;> first | rfl | cases hidle
  have hnoscan : s.follower.pc.isScanning = false := by rw [hpc]; rfl
  obtain ⟨f, hf, rfl⟩ := Option.map_eq_some_iff.mp hs
  have hf' := step_inv hd hi.follower hf
  simp only [Follower.step, hpc] at hf
  obtain ⟨hhead, ⟨hpc', heq⟩ | ⟨offset, st, hpc'⟩⟩ := poll_cases hf
  · -- the head on disk is the one that is known, and all of it is replayed
    have hat : f.replayedAt = s.writer.committed.length := by
      rw [replayedAt_of_not_replaying (by rw [hpc', hpc]; rfl), hhead, heq, hd.leader.head]
    rw [if_pos (by rw [hpc', hpc]; rfl)]
    rw [hpc] at hpc'
    refine hi.logStep hf' (by simp [hpc']) ?_ (by simp [hpc']) fun j => ?_
    · rw [hhead, heq, hd.leader.head, hd.leader.lsn]
    · have hj := hi.calls j
      cases hc : s.threads j <;> rw [hc] at hj
      case queued => exact fun _ => by rw [hat]; exact hj
      case polling => exact (hj.not_polling hnoscan).elim
      all_goals
        refine CallPc.Inv.follower hj (le_of_eq hhead.symm) ?_ (fun _ _ _ hsc => by rw [hpc] at hsc; cases hsc)
        rw [hat]
        exact (hi.follower.replayedAt (by rw [hpc]; simp)).le
  · rw [if_neg (by rw [hpc']; simp [FollowerPc.isIdle])]
    have hat : s.follower.replayedAt = f.replayedAt := by
      rw [replayedAt_of_not_replaying (by rw [hpc]; rfl),
        replayedAt_of_not_replaying (by rw [hpc']; rfl), hhead]
    refine hi.logStep hf' (by simp [hpc']) (hhead ▸ hi.last (by simp [hpc])) ?_ ?_
    · intro latest _ _ hpc''
      cases hpc'.symm.trans hpc''
      rw [hd.leader.head, hd.leader.lsn]
    · have hlead : ∀ {k' : Nat}, k' ≤ s.writer.committed.length → k' ≤ s.writer.disk.leader.headTxid := by
        intro k' hk'
        rw [hd.leader.head]; exact hk'
      refine (Function.forall_update_iff _ fun _ c => CallPc.Inv _ f c).2 ⟨?_, fun j _ => ?_⟩
      · exact ⟨_, offset, st, hpc', hlead (hi.call hk (by simp)).1⟩
      · have hj := hi.calls j
        cases hc : s.threads j <;> rw [hc] at hj
        case queued => exact ⟨_, offset, st, hpc', hlead hj⟩
        case polling => exact (hj.not_polling hnoscan).elim
        all_goals
          exact CallPc.Inv.follower hj (le_of_eq hhead.symm) (le_of_eq hat)
            (fun _ _ _ hsc => by rw [hpc] at hsc; cases hsc)

theorem Sync.readEntry_inv (hs : s.readEntry o = some s') : SyncInv base size s' := by
  obtain ⟨tl, hd⟩ := hi.writer.disk
  obtain ⟨f, hf, rfl⟩ := Option.map_eq_some_iff.mp hs
  have hf' := step_inv hd hi.follower hf
  cases hpc : s.follower.pc <;> simp only [Follower.step, hpc, reduceCtorEq] at hf
  case scanning latest offset st =>
    have hat := (readEntry_inv hd.pos hpc hi.follower hf).2
    have hlsn := hi.latest latest offset st hpc
    rcases readEntry_cases hf with ⟨txs, hpc', hlead⟩ | ⟨offset', st', hpc', hlead⟩
    · -- the head lsn is published, and the transactions handed out
      rw [if_pos (by rw [hpc']; rfl)]
      have hle : s.follower.node.leader.headTxid ≤ f.node.leader.headTxid := by
        have hold := replayedAt_of_not_replaying (f := s.follower) (by rw [hpc]; rfl)
        rw [← hold, ← hat]
        exact replayedAt_le f
      refine hi.logStep hf' (by simp [hpc']) (by rw [hlead]; exact hlsn) (by simp [hpc']) fun j => ?_
      have hj := hi.calls j
      cases hc : s.threads j <;> rw [hc] at hj
      case polling first k =>
        obtain ⟨latest', offset', st', heq, hk⟩ := hj
        rw [hpc] at heq
        cases heq
        have hk' : k ≤ f.node.leader.headTxid := by rw [hlead]; exact hk
        cases first <;> exact hk'
      case out => trivial
      case replaying | replayWait => exact le_trans (show _ ≤ s.follower.node.leader.headTxid from hj) hle
      case returned => exact fun hrv => by rw [hat]; exact hj hrv
      all_goals exact hj
    · rw [if_neg (by rw [hpc']; simp [FollowerPc.isReplaying])]
      refine hi.logStep hf' (by simp [hpc']) (hlead ▸ hi.last (by simp [hpc])) ?_ fun j => ?_
      · intro latest' _ _ hpc''
        cases hpc'.symm.trans hpc''
        exact hlsn
      · refine (hi.calls j).follower (by rw [hlead]) (le_of_eq hat.symm) ?_
        intro latest' _ _ hsc
        cases hpc.symm.trans hsc
        exact ⟨offset', st', hpc'⟩

theorem Sync.pollError_inv {rv : Int} (hs : s.step o ng (.pollError rv) = some s') : SyncInv base size s' := by
  simp only [step] at hs
  split at hs
  case isTrue hrv =>
    cases hs
    refine { hi with calls := fun j => ?_, off := fun hoff j => ?_ }
    · have hj := hi.calls j
      show ((s.threads j).replyQueued rv).Inv _ _
      cases hc : s.threads j <;> rw [hc] at hj
      case queued => exact fun h0 => absurd hrv.1 (by omega)
      all_goals exact hj
    · show (s.threads j).replyQueued rv = .out
      rw [hi.off hoff j]
      rfl
  case isFalse =>
    split at hs <;> cases hs
    case isTrue hrv =>
      obtain ⟨hneg, hscan⟩ := hrv
      cases hpc : s.follower.pc <;> rw [hpc] at hscan <;> cases hscan
      case scanning latest offset st =>
        obtain ⟨happ, hf⟩ := hi.follower
        rw [hpc] at hf
        obtain ⟨p, q, hat, hhead, hsize, _⟩ := hf
        have hf' : FollowerInv base size s.writer.committed s.writer.disk.ring { s.follower with pc := .idle } :=
          ⟨happ, p, ⟨hat.le, hat.metabuf⟩, hhead, hsize⟩
        refine hi.logStep hf' (by simp) (hi.last (by simp [hpc])) (by simp) fun j => ?_
        have hj := hi.calls j
        have hold := replayedAt_of_not_replaying (f := s.follower) (by rw [hpc]; rfl)
        cases hc : s.threads j <;> rw [hc] at hj
        case polling => exact fun h0 => absurd hneg (by omega)
        case returned => exact fun h0 => le_trans (hj h0) (le_of_eq hold)
        all_goals exact hj

theorem Sync.replay_inv (hs : s.step o ng .replay = some s') : SyncInv base size s' := by
  obtain ⟨tl, hd⟩ := hi.writer.disk
  obtain ⟨f, hf, rfl⟩ := Option.map_eq_some_iff.mp hs
  have hf' := step_inv hd hi.follower hf
  cases hpc : s.follower.pc <;> simp only [Follower.step, hpc, reduceCtorEq] at hf
  case replaying txs =>
    cases hf
    refine hi.logStep hf' (by simp) (hi.last (by simp [hpc])) (by simp) fun j => ?_
    refine (hi.calls j).follower (le_refl _) (replayedAt_le s.follower) ?_
    intro _ _ _ hsc
    cases hpc.symm.trans hsc

/-- At the end of `LOG_REPLAYDONE` everything up to the head is in the metadata. -/
theorem Sync.insert_inv (hs : s.step o ng .insert = some s') : SyncInv base size s' := by
  obtain ⟨tl, hd⟩ := hi.writer.disk
  obtain ⟨f, hf, rfl⟩ := Option.map_eq_some_iff.mp hs
  have hf' := step_inv hd hi.follower hf
  obtain ⟨hr, hr', hlead, hoff', hsc, hsc'⟩ := insert_cases hf
  have hat : s.follower.replayedAt = f.replayedAt := by
    rw [replayedAt_of_not_replaying hr, replayedAt_of_not_replaying hr', hlead]
  have hpc : s.follower.pc ≠ .off := by
    intro hoff
    simp only [Follower.step, hoff, reduceCtorEq] at hf
  have hlast : s.lastHeadLsn = lsnAt s.writer.committed f.node.leader.headTxid := by rw [hlead]; exact hi.last hpc
  have hlatest : ∀ latest offset st, f.pc = .scanning latest offset st →
      latest.headLsn = lsnAt s.writer.committed latest.headTxid := by
    intro _ _ _ hpc'
    rw [hpc'] at hsc'
    cases hsc'
  have hcalls : ∀ j, (s.threads j).Inv s.writer.committed f := by
    intro j
    refine (hi.calls j).follower (by rw [hlead]) (le_of_eq hat) ?_
    intro _ _ _ hpc'
    rw [hpc'] at hsc
    cases hsc
  split
  · refine hi.logStep hf' hoff' hlast hlatest fun j => ?_
    have hj := hcalls j
    cases hc : s.threads j <;> rw [hc] at hj
    case replaying | replayWait =>
      exact fun _ => by rw [replayedAt_of_not_replaying hr']; exact hj
    all_goals exact hj
  · exact hi.logStep hf' hoff' hlast hlatest hcalls

/-- The fast path: the head lsn that was read and published tells of all commits before the call, and they are
replayed. -/
theorem Sync.compare_inv {i : Nat} (hok : syncsFresh s (.compare i) = true) (hs : s.step o ng (.compare i) = some s') :
    SyncInv base size s' := by
  obtain ⟨tl, hd⟩ := hi.writer.disk
  simp only [step] at hs
  split at hs <;> cases hs
  case h_1 res joined k hc =>
    obtain ⟨⟨hk, hread⟩, hpc⟩ : (k ≤ s.writer.committed.length ∧ ReadAfter s.writer.committed res _) ∧ _ := hi.call hc (by simp)
    unfold compare
    split
    case h_1 lsn =>
      split
      case isTrue heq =>
        refine hi.setCall (fun _ => ?_) hpc
        simp only [syncsFresh, hc, heq, ne_eq, not_true_eq_false, decide_false, Bool.false_or, Bool.and_eq_true,
          Bool.or_eq_true, Bool.not_eq_true', decide_eq_true_eq] at hok
        obtain ⟨hjoined, hreplay⟩ := hok
        rcases hreplay with hnot | hat
        · rw [replayedAt_of_not_replaying hnot]
          refine le_of_lsnAt_le hd.txs hk ?_
          rw [← hi.last hpc, heq]
          rcases hjoined with rfl | hle
          · obtain ⟨m, hm, -, rfl⟩ := hread.read lsn rfl
            exact lsnAt_mono hm
          · exact hle
        · exact hat
      case isFalse => exact hi.setCall hk hpc
    case h_2 => exact hi.setCall hk hpc

theorem Sync.step_inv {ev : SyncEvent β} (hok : syncsFresh s ev = true) (hs : s.step o ng ev = some s') :
    SyncInv base size s' := by
  obtain ⟨tl, hd⟩ := hi.writer.disk
  cases ev
  case writer => exact writer_inv hi hok hs
  case mount => exact mount_inv hi hs
  case compare => exact compare_inv hi hok hs
  case readEntry => exact readEntry_inv hi hs
  case pollError => exact pollError_inv hi hs
  case replay => exact replay_inv hi hs
  case insert => exact insert_inv hi hs
  all_goals simp only [step] at hs
  case call i g =>
    split at hs <;> cases hs
    case isTrue hcall =>
      refine hi.setCall (le_refl _) fun hoff => ?_
      rw [hoff] at hcall
      exact absurd hcall.2.2 (by simp [FollowerPc.isOff])
  case poll i =>
    split at hs
    case h_2 => cases hs
    case h_1 k hc =>
      split at hs
      case isFalse => cases hs
      case isTrue hidle => exact poll_inv hi hidle hc hs
  case enter i =>
    split at hs <;> cases hs
    case h_1 g k hc =>
      obtain ⟨hj, hpc⟩ := hi.call hc (by simp)
      unfold enter
      split
      · exact hi.setCall hj hpc
      · exact SyncInv.setCall (hi.setGroup g (w := { s.groups g with inProgress := true }) (hi.groups g)) hj hpc
  case readLeader i ok =>
    split at hs <;> cases hs
    case h_1 g k hc =>
      obtain ⟨hj, hpc⟩ := hi.call hc (by simp)
      refine hi.setCall ⟨hj, fun lsn hlsn => ?_⟩ hpc
      split at hlsn <;> cases hlsn
      exact ⟨_, hj, le_refl _, hd.leader.lsn⟩
  case finish i =>
    split at hs <;> cases hs
    case h_1 g res k hc =>
      obtain ⟨hj, hpc⟩ := hi.call hc (by simp)
      exact (hi.setGroup g hj.any).setCall hj hpc
  case notify i locked =>
    split at hs <;> cases hs
    case h_1 res g todo k hc =>
      obtain ⟨hj, hpc⟩ := hi.call hc (by simp)
      split
      · exact hi.setCall hj hpc
      · exact (hi.setGroup g hj.any).setCall hj hpc
    case h_2 res k hc =>
      obtain ⟨hj, hpc⟩ := hi.call hc (by simp)
      exact hi.setCall ⟨hj.le, hj⟩ hpc
  case wake i =>
    split at hs
    case h_2 => cases hs
    case h_1 g counter k hc =>
      obtain ⟨hj, hpc⟩ := hi.call hc (by simp)
      split at hs <;> cases hs
      exact hi.setCall ⟨hj, hi.groups g⟩ hpc
  case leave i =>
    split at hs <;> cases hs
    case h_1 rv k hc => exact hi.setCall trivial (hi.call hc (by simp)).2

end

theorem Sync.init_inv (hs : (syncSystem o ng size base).init s) : SyncInv base size s := by
  obtain ⟨hw, hpc, happ, hgroups, hout⟩ := hs
  refine ⟨Writer.init_inv hw, ⟨by simp [happ], ?_⟩, fun hne => absurd hpc hne, ?_, fun i => ?_, fun g => ?_, fun _ => hout⟩
  · rw [hpc]; trivial
  · intro _ _ _ hsc
    rw [hpc] at hsc
    cases hsc
  · rw [hout i]; trivial
  · rw [hgroups g]; exact ⟨Nat.zero_le _, nofun⟩

end Steps

/-! ## Freshness -/

/-- A call that has returned 0 finds all that was committed when it began in the metadata. -/
def Fresh (base : Key → β) (s : Sync β) : Prop :=
  ∀ i k, s.threads i = .returned 0 k → ∃ p, k ≤ p ∧ p ≤ s.writer.committed.length ∧
    s.follower.node.metabuf = stateAt base s.writer.committed p

def Sync.fresh (size : Nat) : Sync Nat where
  writer := Writer.fresh size fun _ => 0
  follower := ⟨⟨LeaderRecord.mkfs size, fun _ => 0, ⟨TrimGroup.init, TrimGroup.init⟩⟩, .off, []⟩
  lastHeadLsn := 0
  groups _ := ⟨false, 0, none⟩
  threads _ := .out

theorem Sync.fresh_init (o : TrimOptions) (ng : Nat) {size : Nat} (hs : 0 < size) :
    (syncSystem o ng size fun _ => 0).init (fresh size) :=
  ⟨Writer.fresh_init o hs _, rfl, rfl, fun _ => rfl, fun _ => rfl⟩

/-- Both hosts mount, and the writer commits one transaction. -/
def commitRun : List (SyncEvent Nat) :=
  [.writer .mount, .mount, .writer (.commit [((5, 0), 7)]), .writer (.io .ok), .writer (.io .ok), .writer .apply]

/-- A call of `pfs_mount_sync` by thread `i` up to the comparison, in group 0 of one. -/
def readRun (i : Nat) : List (SyncEvent Nat) :=
  [.call i 0, .enter i, .readLeader i true, .finish i, .notify i false, .compare i]

/-- A state in which thread `i` has returned 0 for a call after the commit, with the old object in
memory, is not fresh. -/
theorem not_fresh_of_old {s : Sync Nat} {i : Nat} (hc : s.threads i = .returned 0 1)
    (hcom : s.writer.committed = [[((5, 0), 7)]]) (hold : s.follower.node.metabuf (5, 0) = 0) :
    ¬ Fresh (fun _ => 0) s := by
  intro hfresh
  obtain ⟨p, hp, hle, hm⟩ := hfresh i 1 hc
  rw [hcom] at hle hm
  obtain rfl : p = 1 := le_antisymm hle hp
  rw [hm] at hold
  revert hold
  decide

/-- Thread 1 has read the leader record before the commit; thread 2 calls after it, joins the read in
progress and returns with its result. Nothing is being replayed. -/
theorem not_fresh_joined_read :
    ∃ s : Sync Nat, ((syncSystem ⟨1, 1, 1⟩ 1 8 fun _ => 0).restrict fun s _ => !s.follower.pc.isReplaying).Reachable s ∧
      ¬ Fresh (fun _ => 0) s := by
  have hs := ((syncSystem ⟨1, 1, 1⟩ 1 8 fun _ => 0).restrict fun s _ => !s.follower.pc.isReplaying).reachable_last
    (fresh 8) [.writer .mount, .mount, .call 1 0, .enter 1, .readLeader 1 true, .writer (.commit [((5, 0), 7)]),
      .writer (.io .ok), .writer (.io .ok), .writer .apply, .call 2 0, .enter 2, .finish 1, .wake 2, .compare 2]
    (fresh_init ⟨1, 1, 1⟩ 1 (by decide)) (by decide +kernel)
  exact ⟨_, hs, not_fresh_of_old (i := 2) (by decide +kernel) (by decide +kernel) (by decide +kernel)⟩

end PolarFs.Journal
