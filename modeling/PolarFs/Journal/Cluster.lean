/-
One writable host and any number of read-only hosts that poll its journal (`pfs_log_poll`,
`pfs_txlist_replay`, `pfs_log_handle_replaydone`). A follower reads the leader record, then the log
entries one by one while the writer goes on, then applies what it scanned.
-/
import PolarFs.Journal.WriterInvariant

namespace PolarFs.Journal

open RedoLog Transition Writer Node

/-- What a follower's log thread, or the thread it polls for, is about to do. -/
inductive FollowerPc (β : Type) where
  /-- not mounted -/
  | off
  | idle
  /-- `pfs_log_scan` up to the head of the record read -/
  | scanning (latest : LeaderRecord) (offset : Nat) (st : ScanState β)
  /-- `pfs_txlist_replay` of the scanned transactions -/
  | replaying (txs : List (Nat × TxOps β))
  /-- `LOG_REPLAYDONE` -/
  | inserting (txs : List (Nat × TxOps β))

/-- A read-only host; `applied` records the transactions it has replayed, with their ids. -/
structure Follower (β : Type) where
  node : Node β
  pc : FollowerPc β
  applied : List (Nat × TxOps β)

inductive FollowerEvent where
  | join
  | poll
  | readEntry
  | replay
  | insert
  | leave
  deriving DecidableEq, Repr

variable {β : Type}

/-- `pfs_log_poll` before its scan: the follower must not have fallen behind the tail, and forgets
what others have trimmed. -/
def Node.pollTail (n : Node β) (latest : LeaderRecord) : Option (Node β) :=
  if n.leader.headTxid < latest.tailTxid then none
  else if n.leader.tailTxid < latest.tailTxid then
    some { n with
      groups := n.groups.delTrimentry latest.tailTxid
      leader := { n.leader with tailTxid := latest.tailTxid, tailOffset := latest.tailOffset } }
  else some n

/-- The new head after a poll. -/
def LeaderRecord.setHead (lr latest : LeaderRecord) : LeaderRecord :=
  { lr with headTxid := latest.headTxid, headOffset := latest.headOffset, headLsn := latest.headLsn }

/-- A read-only mount during which no step of the writer happens. -/
def Node.mountRo (o : TrimOptions) (d : Disk β) : Option (Node β × List (Nat × TxOps β)) := do
  let lr := d.leader
  let txs ← logScan d.ring lr.logSize lr.tailOffset lr.tailTxid lr.headTxid
  let node : Node β := ⟨lr, redo d.sectors (txs.map Prod.snd), Groups.preload lr⟩
  if txs.isEmpty then
    if lr.tailTxid = lr.headTxid then some (node, txs) else none
  else
    let node ← txs.foldlM (fun n tx => n.replaytxPut o false false tx) node
    let node ← node.replaydone
    some (node, txs)

/-- `pfs_log_handle_poll` up to the scan. -/
def Follower.poll (f : Follower β) (latest : LeaderRecord) : Option (Follower β) := do
  let n ← f.node.pollTail latest
  if n.leader.headTxid = latest.headTxid then some { f with node := n.setLeader (n.leader.setHead latest) }
  else some { f with node := n, pc := .scanning latest n.leader.headOffset ⟨none, n.leader.headTxid, []⟩ }

/-- One log entry of the scan. -/
def Follower.readEntry (f : Follower β) (d : Disk β) (latest : LeaderRecord) (offset : Nat) (st : ScanState β) :
    Option (Follower β) :=
  let lr := f.node.leader
  match scanEntry lr.headTxid latest.headTxid st (d.ring offset) with
  | .fail => none
  | .done txs => some { f with node := f.node.setLeader (lr.setHead latest), pc := .replaying txs }
  | .more st' => some { f with pc := .scanning latest (offModularAdd offset 1 lr.logSize) st' }

/-- One step of a follower on the writer's device. -/
def Follower.step (o : TrimOptions) (d : Disk β) (f : Follower β) (ev : FollowerEvent) : Option (Follower β) :=
  match f.pc, ev with
  | _, .leave => some { f with pc := .off, applied := [] }
  | .off, .join => (mountRo o d).map fun r => ⟨r.1, .idle, r.2⟩
  | .idle, .poll => f.poll d.leader
  | .scanning latest offset st, .readEntry => f.readEntry d latest offset st
  | .replaying txs, .replay => some
      { node := { f.node with metabuf := redo f.node.metabuf (txs.map Prod.snd) }
        pc := .inserting txs
        applied := f.applied ++ txs }
  | .inserting (tx :: txs), .insert => do
    let node ← f.node.replaytxPut o false false tx
    if txs.isEmpty then
      if node.groups.workgrp.rtxid = node.leader.headTxid ∧ node.groups.workgrp.roffset = node.leader.headOffset then
        some { f with node := node, pc := .idle }
      else none
    else some { f with node := node, pc := .inserting txs }
  | _, _ => none

/-- The number of transactions in the follower's metadata: what is scanned but not replayed is not. -/
def Follower.replayedAt (f : Follower β) : Nat :=
  match f.pc with
  | .replaying txs => f.node.leader.headTxid - txs.length
  | _ => f.node.leader.headTxid

structure Cluster (β : Type) where
  writer : Writer β
  followers : Nat → Follower β

inductive ClusterEvent (β : Type) where
  | writer (ev : Event β)
  | follower (i : Nat) (ev : FollowerEvent)

def Cluster.step (o : TrimOptions) (s : Cluster β) : ClusterEvent β → Option (Cluster β)
  | .writer ev => (s.writer.step o ev).map fun w => { s with writer := w }
  | .follower i ev =>
    ((s.followers i).step o s.writer.disk ev).map fun f => { s with followers := Function.update s.followers i f }

/-- The writer and its followers on a new file system. -/
def clusterSystem (o : TrimOptions) (size : Nat) (base : Key → β) : System (Cluster β) (ClusterEvent β) where
  init s := (writerSystem o size base).init s.writer ∧ ∀ i, (s.followers i).pc = .off ∧ (s.followers i).applied = []
  step := Cluster.step o

/-! ## What the writer's steps do to a scan -/

open Follower

theorem txid_of_mem_txLog {txid : Nat} {e : LogEntry β} : ∀ {ops : TxOps β} {lsn : Nat},
    e ∈ txLog txid lsn ops → e.txid = txid
  | [], _, h => by cases h
  | op :: ops, lsn, h => by
    rw [txLog, List.mem_cons] at h
    rcases h with rfl | h
    · rfl
    · exact txid_of_mem_txLog h

/-- What a follower may rely on while the writer goes on: the history only grows, and an entry that
the writer puts into the ring belongs to a transaction after the whole history. -/
structure Writer.Advances (s s' : Writer β) : Prop where
  committed : ∃ h', s'.committed = s.committed ++ h'
  ring : ∀ x, s'.disk.ring x = s.disk.ring x ∨ s.committed.length < (s'.disk.ring x).txid

section Advances

variable {o : TrimOptions} {base : Key → β} {size : Nat} {s s' : Writer β}

theorem Writer.Advances.of_same (hc : s'.committed = s.committed) (hr : s'.disk.ring = s.disk.ring) : s.Advances s' :=
  ⟨⟨[], by rw [hc, List.append_nil]⟩, fun x => Or.inl (by rw [hr])⟩

@[simp] theorem Disk.writeLeader_ring (d : Disk β) (r : Io) (lr : LeaderRecord) : (d.writeLeader r lr).ring = d.ring := by
  unfold Disk.writeLeader; split <;> rfl

@[simp] theorem Disk.writeSector_ring (d : Disk β) (r : Io) (bda : Nat) (img : Nat → β) :
    (d.writeSector r bda img).ring = d.ring := by
  unfold Disk.writeSector; split <;> rfl

theorem Writer.logStep_advances {ops : TxOps β} {offset : Nat} {e : LogEntry β} {todo : List (LogEntry β)} (r : Io)
    (hpc : s.pc = .logging ops offset (e :: todo)) (hi : WriterInv base size s) :
    s.Advances (s.logStep ops offset e todo r) := by
  rw [WriterInv, hpc] at hi
  obtain ⟨t, _, _, done, hlog, _, _⟩ := hi
  have htxid : e.txid = s.committed.length + 1 := txid_of_mem_txLog (by rw [hlog]; simp)
  have hdisk : (s.logStep ops offset e todo r).disk = s.disk.writeEntry r offset e := by
    unfold logStep
    cases r with
    | fail => rfl
    | ok => dsimp only; split <;> rfl
  have hcom : (s.logStep ops offset e todo r).committed = s.committed := by
    unfold logStep
    cases r with
    | fail => rfl
    | ok => dsimp only; split <;> rfl
  refine ⟨⟨[], by rw [hcom, List.append_nil]⟩, fun x => ?_⟩
  rw [hdisk]
  unfold Disk.writeEntry
  split
  · by_cases hx : x = offset
    · subst hx
      right
      simp only [Function.update_self]
      omega
    · left
      simp only [Function.update_of_ne hx]
  · exact Or.inl rfl

theorem Writer.commitStep_advances {ops : TxOps β} {lrbak : LeaderRecord} {r : Io}
    (hs : s.commitStep ops lrbak r = some s') : s.Advances s' := by
  unfold commitStep at hs
  split at hs
  · cases r <;> cases hs
    · exact ⟨⟨[ops], rfl⟩, fun x => Or.inl (by rw [Disk.writeLeader_ring])⟩
    · exact .of_same rfl (Disk.writeLeader_ring ..)
  · cases hs

theorem Writer.flushStep_advances {sb : SectBuf β} {todo : List (SectBuf β)} {r : Io}
    (hs : s.flushStep sb todo r = some s') : s.Advances s' := by
  unfold flushStep at hs
  dsimp only at hs
  split at hs
  · obtain ⟨img, _, hs⟩ := Option.map_eq_some_iff.mp hs
    cases r with
    | fail => cases hs; exact .of_same rfl (Disk.writeSector_ring ..)
    | ok => dsimp only at hs; split at hs <;> cases hs <;> exact .of_same rfl (Disk.writeSector_ring ..)
  · cases hs

theorem Writer.trimStep_advances {oldlr : LeaderRecord} {r : Io} (hs : s.trimStep oldlr r = some s') :
    s.Advances s' := by
  unfold trimStep at hs
  split at hs
  · cases r <;> cases hs <;> exact .of_same rfl (Disk.writeLeader_ring ..)
  · cases hs

/-- Every step of the writer lets a scan go on. -/
theorem Writer.step_advances {ev : Event β} (hi : WriterInv base size s) (hs : s.step o ev = some s') :
    s.Advances s' := by
  cases stepKind hs with
  | quiet hdisk hcom _ _ => exact .of_same hcom (by rw [hdisk])
  | logged ops offset e todo r hpc _ heq => rw [heq]; exact logStep_advances r hpc hi
  | committed _ _ _ _ _ heq => exact commitStep_advances heq
  | flushed _ _ _ _ _ heq => exact flushStep_advances heq
  | trimmed _ _ _ _ heq => exact trimStep_advances heq

end Advances

/-! ## The followers' invariant -/

/-- The follower's metadata is the one after `p` transactions. -/
structure FollowerAt (base : Key → β) (h : List (TxOps β)) (p : Nat) (f : Follower β) : Prop where
  le : p ≤ h.length
  metabuf : f.node.metabuf = stateAt base h p

/-- The head of a leader record at position `q`. -/
structure HeadAt (h : List (TxOps β)) (size q : Nat) (lr : LeaderRecord) : Prop where
  le : q ≤ h.length
  head : lr.headTxid = q
  offset : lr.headOffset = lsnAt h q % size

/-- The entries of a scan up to `q` are in the ring from position `l` on, unless the writer has
overwritten them with those of later transactions. -/
def RingMayHold (ring : Nat → LogEntry β) (size l q : Nat) (L : List (LogEntry β)) : Prop :=
  ∀ i (h : i < L.length), ring ((l + i) % size) = L.get ⟨i, h⟩ ∨ q < (ring ((l + i) % size)).txid

def FollowerInv (base : Key → β) (size : Nat) (h : List (TxOps β)) (ring : Nat → LogEntry β) (f : Follower β) : Prop :=
  (∀ t ∈ f.applied, 0 < t.1 ∧ h[t.1 - 1]? = some t.2) ∧
  match f.pc with
  | .off => True
  | .idle => ∃ p, FollowerAt base h p f ∧ HeadAt h size p f.node.leader ∧ f.node.leader.logSize = size
  | .scanning latest offset st => ∃ p q, FollowerAt base h p f ∧ HeadAt h size p f.node.leader ∧
      f.node.leader.logSize = size ∧ HeadAt h size q latest ∧ ∃ l rest, offset = l % size ∧
        RingMayHold ring size l q rest ∧ scanList p q st rest = .done (numbered p (txSlice h p q))
  | .replaying txs => ∃ p q, FollowerAt base h p f ∧ HeadAt h size q f.node.leader ∧ f.node.leader.logSize = size ∧
      p ≤ q ∧ txs = numbered p (txSlice h p q)
  | .inserting _ => ∃ q, FollowerAt base h q f ∧ HeadAt h size q f.node.leader ∧ f.node.leader.logSize = size

/-- No scan of a nonempty list of entries ends without a transaction. -/
theorem scanList_ne_done_nil {start stop : Nat} : ∀ (L : List (LogEntry β)) (st : ScanState β),
    scanList start stop st L ≠ .done []
  | [], st => by simp [scanList]
  | e :: L, st => by
    rw [scanList, scanEntry]
    split
    case h_1 => simp
    case h_2 txs heq =>
      intro hnil
      cases hnil
      split at heq
      · dsimp only at heq
        split at heq
        · have hne : recreateOp e st.txs ≠ [] := by
            rcases st.txs with _ | ⟨t, _ | ⟨t', ts⟩⟩
            · simp [recreateOp]
            · simp only [recreateOp]; split <;> simp
            · simp [recreateOp]
          exact hne (by simpa using heq)
        · cases heq
      · cases heq
    case h_3 st' _ => exact scanList_ne_done_nil L st'

section Follower

variable {o : TrimOptions} {base : Key → β} {size : Nat} {h h' : List (TxOps β)} {ring : Nat → LogEntry β}
  {f f' : Follower β} {d : Disk β}

theorem FollowerAt.append {p : Nat} (hf : FollowerAt base h p f) (h' : List (TxOps β)) :
    FollowerAt base (h ++ h') p f :=
  ⟨by rw [List.length_append]; exact Nat.le_add_right_of_le hf.le,
    by rw [stateAt_append_of_le hf.le]; exact hf.metabuf⟩

theorem HeadAt.append {q : Nat} {lr : LeaderRecord} (hq : HeadAt h size q lr) (h' : List (TxOps β)) :
    HeadAt (h ++ h') size q lr :=
  ⟨by rw [List.length_append]; exact Nat.le_add_right_of_le hq.le, hq.head,
    by rw [lsnAt_append_of_le hq.le]; exact hq.offset⟩

theorem HeadAt.setHead {q : Nat} {latest : LeaderRecord} (hq : HeadAt h size q latest) (lr : LeaderRecord) :
    HeadAt h size q (lr.setHead latest) :=
  { hq with }

/-- A follower is not disturbed by the writer's steps. -/
theorem FollowerInv.advance {w w' : Writer β} (hw : w.Advances w')
    (hf : FollowerInv base size w.committed w.disk.ring f) : FollowerInv base size w'.committed w'.disk.ring f := by
  obtain ⟨h', hh⟩ := hw.committed
  obtain ⟨happ, hf⟩ := hf
  rw [hh]
  refine ⟨fun t ht => ⟨(happ t ht).1, ?_⟩, ?_⟩
  · have hget := (happ t ht).2
    rw [List.getElem?_append_left (List.getElem?_eq_some_iff.mp hget).1]
    exact hget
  cases hpc : f.pc <;> rw [hpc] at hf
  case off => trivial
  case idle =>
    obtain ⟨p, h1, h2, h3⟩ := hf
    exact ⟨p, h1.append h', h2.append h', h3⟩
  case scanning latest offset st =>
    obtain ⟨p, q, h1, h2, h3, h4, l, rest, hoff, hring, hscan⟩ := hf
    refine ⟨p, q, h1.append h', h2.append h', h3, h4.append h', l, rest, hoff, ?_, ?_⟩
    · intro i hi
      rcases hw.ring ((l + i) % size) with heq | hgt
      · rw [heq]; exact hring i hi
      · exact Or.inr (lt_of_le_of_lt h4.le hgt)
    · rw [txSlice_append_of_le h4.le]; exact hscan
  case replaying txs =>
    obtain ⟨p, q, h1, h2, h3, h4, h5⟩ := hf
    exact ⟨p, q, h1.append h', h2.append h', h3, h4, by rw [txSlice_append_of_le h2.le]; exact h5⟩
  case inserting txs =>
    obtain ⟨q, h1, h2, h3⟩ := hf
    exact ⟨q, h1.append h', h2.append h', h3⟩

theorem length_numbered : ∀ (p : Nat) (txs : List (TxOps β)), (numbered p txs).length = txs.length
  | _, [] => rfl
  | p, _ :: txs => by rw [numbered, List.length_cons, List.length_cons, length_numbered (p + 1) txs]

theorem FollowerInv.replayedAt (hf : FollowerInv base size h ring f) (hpc : f.pc ≠ .off) :
    FollowerAt base h f.replayedAt f := by
  obtain ⟨_, hf⟩ := hf
  unfold Follower.replayedAt
  cases hp : f.pc <;> rw [hp] at hf hpc
  case off => exact absurd rfl hpc
  case idle => obtain ⟨p, hat, hhead, _⟩ := hf; rw [hhead.head]; exact hat
  case scanning => obtain ⟨p, q, hat, hhead, _⟩ := hf; rw [hhead.head]; exact hat
  case replaying =>
    obtain ⟨p, q, hat, hhead, _, hle, rfl⟩ := hf
    dsimp only
    rw [hhead.head, length_numbered, length_txSlice hhead.le, Nat.sub_sub_self hle]
    exact hat
  case inserting => obtain ⟨q, hat, hhead, _⟩ := hf; rw [hhead.head]; exact hat

theorem mem_numbered {t : Nat × TxOps β} : ∀ {txs : List (TxOps β)} {p : Nat}, t ∈ numbered p txs →
    p < t.1 ∧ txs[t.1 - p - 1]? = some t.2
  | [], _, ht => by cases ht
  | tx :: txs, p, ht => by
    rw [numbered, List.mem_cons] at ht
    rcases ht with rfl | ht
    · simp
    · obtain ⟨h1, h2⟩ := mem_numbered ht
      refine ⟨by omega, ?_⟩
      rw [show t.1 - p - 1 = (t.1 - (p + 1) - 1) + 1 by omega, List.getElem?_cons_succ]
      exact h2

/-- A transaction of a slice is the history's under the same id. -/
theorem getElem?_of_mem_numbered {p q : Nat} {t : Nat × TxOps β} (ht : t ∈ numbered p (txSlice h p q)) :
    0 < t.1 ∧ h[t.1 - 1]? = some t.2 := by
  obtain ⟨h1, h2⟩ := mem_numbered ht
  refine ⟨by omega, ?_⟩
  rw [txSlice, List.getElem?_drop, List.getElem?_take] at h2
  split at h2
  · rwa [show p + (t.1 - p - 1) = t.1 - 1 by omega] at h2
  · cases h2

theorem Node.foldlM_replaytxPut_node : ∀ (txs : List (Nat × TxOps β)) {n n' : Node β},
    txs.foldlM (fun n tx => n.replaytxPut o false false tx) n = some n' →
      n'.leader = n.leader ∧ n'.metabuf = n.metabuf
  | [], n, n', hn => by cases hn; exact ⟨rfl, rfl⟩
  | tx :: txs, n, n', hn => by
    rw [List.foldlM_cons, Option.bind_eq_bind, Option.bind_eq_some_iff] at hn
    obtain ⟨n₁, h1, h2⟩ := hn
    obtain ⟨h3, h4⟩ := foldlM_replaytxPut_node txs h2
    obtain ⟨h5, h6⟩ := replaytxPut_node h1
    exact ⟨h3.trans h5, h4.trans h6⟩

/-- A follower that joins finds the whole history. -/
theorem Node.mountRo_spec {tl : Nat} (hd : DiskInv base size h tl d) {r : Node β × List (Nat × TxOps β)}
    (hr : mountRo o d = some r) :
    r.1.leader = d.leader ∧ r.1.metabuf = stateAt base h h.length ∧
      r.2 = numbered d.leader.tailTxid (txSlice h d.leader.tailTxid h.length) := by
  unfold mountRo at hr
  simp only [hd.logScan, map_snd_numbered, redo_of_fuzzy hd.tail_le hd.sectors, Option.bind_eq_bind,
    Option.bind_some] at hr
  split at hr
  · split at hr <;> cases hr
    exact ⟨rfl, rfl, rfl⟩
  simp only [Option.bind_eq_some_iff] at hr
  obtain ⟨n₁, h1, n₂, h2, hr⟩ := hr
  cases hr
  obtain ⟨h3, h4⟩ := foldlM_replaytxPut_node _ h1
  obtain ⟨h5, h6⟩ := replaydone_node h2
  exact ⟨h5.trans h3, h6.trans h4, rfl⟩

theorem DiskInv.headAt {tl : Nat} (hd : DiskInv base size h tl d) : HeadAt h size h.length d.leader :=
  ⟨le_refl _, hd.leader.head, hd.leader.headOffset⟩

theorem Node.pollTail_spec {n n' : Node β} {latest : LeaderRecord} (hn : n.pollTail latest = some n') :
    latest.tailTxid ≤ n.leader.headTxid ∧ n'.metabuf = n.metabuf ∧ n'.leader.headTxid = n.leader.headTxid ∧
      n'.leader.headOffset = n.leader.headOffset ∧ n'.leader.logSize = n.leader.logSize := by
  unfold pollTail at hn
  split at hn
  · cases hn
  · split at hn <;> cases hn <;> exact ⟨by omega, rfl, rfl, rfl, rfl⟩

/-- A poll starts its scan while the region is in the ring. -/
theorem Follower.poll_inv {tl : Nat} (hd : DiskInv base size h tl d) (hpc : f.pc = .idle)
    (hf : FollowerInv base size h d.ring f) (hs : f.poll d.leader = some f') : FollowerInv base size h d.ring f' := by
  obtain ⟨happ, hf⟩ := hf
  rw [hpc] at hf
  obtain ⟨p, hat, hhead, hsize⟩ := hf
  simp only [poll, Option.bind_eq_bind, Option.bind_eq_some_iff] at hs
  obtain ⟨n, hn, hs⟩ := hs
  obtain ⟨htail, hmeta, h1, h2, h3⟩ := pollTail_spec hn
  rw [hhead.head] at htail
  split at hs
  case isTrue heq =>
    -- nothing new
    have hp : p = h.length := by rw [h1, hhead.head, hd.leader.head] at heq; exact heq
    cases hs
    refine ⟨happ, ?_⟩
    rw [hpc]
    exact ⟨p, ⟨hat.le, hmeta.trans hat.metabuf⟩, by rw [hp]; exact hd.headAt.setHead _, h3.trans hsize⟩
  case isFalse hne =>
    cases hs
    have hp : p < h.length := by
      rw [h1, hhead.head, hd.leader.head] at hne
      exact lt_of_le_of_ne hat.le hne
    have hring := hd.toJournalInv.ring_from (le_trans hd.tl_le htail) (Nat.le_of_lt hp)
    refine ⟨happ, p, h.length, ⟨hat.le, hmeta.trans hat.metabuf⟩, ⟨hat.le, h1.trans hhead.head, h2.trans hhead.offset⟩,
      h3.trans hsize, hd.headAt, lsnAt h p, journalLog p (lsnAt h p) (txSlice h p h.length), h2.trans hhead.offset,
      fun i hi => Or.inl (hring i hi), ?_⟩
    have hlen : (txSlice h p h.length).length = h.length - p := length_txSlice (le_refl _)
    have hscan := scanList_journalLog (txSlice h p h.length) p (lsnAt h p) none [] (by
        intro hnil; rw [hnil] at hlen; simp at hlen; omega)
      (fun tx htx => hd.txs tx (List.mem_of_mem_take (List.mem_of_mem_drop htx))) (le_refl p)
      (show p + (txSlice h p h.length).length = h.length by omega) (by simp) (by simp)
    rw [h1, hhead.head]
    simpa using hscan

/-- A scan reads the transaction's own entries, or fails on one that is newer than the record it
scans for. -/
theorem Follower.readEntry_inv {latest : LeaderRecord} {offset : Nat} {st : ScanState β} (hpos : 0 < size)
    (hpc : f.pc = .scanning latest offset st) (hf : FollowerInv base size h d.ring f)
    (hs : f.readEntry d latest offset st = some f') :
    FollowerInv base size h d.ring f' ∧ f'.replayedAt = f.replayedAt := by
  obtain ⟨happ, hf⟩ := hf
  rw [hpc] at hf
  obtain ⟨p, q, hat, hhead, hsize, hlatest, l, rest, rfl, hring, hscan⟩ := hf
  have hle : p ≤ q := by
    rcases Nat.lt_or_ge q p with hlt | hge
    · -- an empty slice is never scanned to its end
      have hnil : txSlice h p q = [] := by
        rw [txSlice, List.drop_eq_nil_iff, List.length_take]
        exact le_trans (Nat.min_le_left ..) (Nat.le_of_lt hlt)
      rw [hnil] at hscan
      exact absurd hscan (scanList_ne_done_nil rest st)
    · exact hge
  rcases rest with _ | ⟨e, rest⟩
  · cases hscan
  unfold readEntry at hs
  dsimp only at hs
  rw [hhead.head, hlatest.head] at hs
  rcases hring 0 (by simp) with he | hgt
  · have he : d.ring (l % size) = e := he
    rw [he] at hs
    rw [scanList] at hscan
    cases hstep : scanEntry p q st e with
    | fail => rw [hstep] at hs; cases hs
    | done txs =>
      rw [hstep] at hs hscan
      cases hs
      cases hscan
      refine ⟨⟨happ, p, q, ⟨hat.le, hat.metabuf⟩, hlatest.setHead _, hsize, hle, rfl⟩, ?_⟩
      show latest.headTxid - _ = f.replayedAt
      rw [length_numbered, length_txSlice hlatest.le, hlatest.head, Nat.sub_sub_self hle, Follower.replayedAt, hpc]
      exact hhead.head.symm
    | more st' =>
      rw [hstep] at hs hscan
      cases hs
      refine ⟨⟨happ, p, q, ⟨hat.le, hat.metabuf⟩, hhead, hsize, hlatest, l + 1, rest, ?_, ?_, hscan⟩,
        by simp only [Follower.replayedAt, hpc]⟩
      · rw [hsize, offModularAdd_eq_mod hpos hpos]
      · intro i hi
        have := hring (i + 1) (by simpa using hi)
        rwa [show l + (i + 1) = l + 1 + i by omega] at this
  · have hfail : scanEntry p q st (d.ring (l % size)) = .fail := by
      rw [scanEntry, if_neg]
      rintro ⟨_, _, _, hstop⟩
      have hgt : q < (d.ring (l % size)).txid := hgt
      omega
    rw [hfail] at hs
    cases hs

theorem Follower.step_inv {tl : Nat} {ev : FollowerEvent} (hd : DiskInv base size h tl d)
    (hf : FollowerInv base size h d.ring f) (hs : f.step o d ev = some f') : FollowerInv base size h d.ring f' := by
  unfold step at hs
  split at hs
  case h_1 =>
    cases hs
    exact ⟨by simp, trivial⟩
  case h_2 =>
    obtain ⟨r, hr, rfl⟩ := Option.map_eq_some_iff.mp hs
    obtain ⟨h1, h2, h3⟩ := mountRo_spec hd hr
    refine ⟨fun t ht => getElem?_of_mem_numbered (by rw [← h3]; exact ht), h.length, ⟨le_refl _, h2⟩, ?_, ?_⟩
    · rw [h1]; exact hd.headAt
    · rw [h1]; exact hd.leader.size
  case h_3 hpc => exact poll_inv hd hpc hf hs
  case h_4 hpc => exact (readEntry_inv hd.pos hpc hf hs).1
  case h_5 txs hpc =>
    obtain ⟨happ, hf⟩ := hf
    rw [hpc] at hf
    obtain ⟨p, q, hat, hhead, hsize, hle, rfl⟩ := hf
    cases hs
    refine ⟨fun t ht => ?_, q, ⟨hhead.le, ?_⟩, hhead, hsize⟩
    · rcases List.mem_append.mp ht with ht | ht
      · exact happ t ht
      · exact getElem?_of_mem_numbered ht
    · show redo f.node.metabuf _ = _
      rw [map_snd_numbered, hat.metabuf, ← stateAt_txSlice hle]
  case h_6 tx txs hpc =>
    obtain ⟨happ, hf⟩ := hf
    rw [hpc] at hf
    obtain ⟨q, hat, hhead, hsize⟩ := hf
    obtain ⟨n, hn, hs⟩ := Option.bind_eq_some_iff.mp hs
    obtain ⟨h1, h2⟩ := replaytxPut_node hn
    have hat' : n.metabuf = stateAt base h q := h2.trans hat.metabuf
    have hhead' : HeadAt h size q n.leader := by rw [h1]; exact hhead
    have hsize' : n.leader.logSize = size := by rw [h1]; exact hsize
    split at hs
    · split at hs <;> cases hs
      exact ⟨happ, q, ⟨hat.le, hat'⟩, hhead', hsize'⟩
    · cases hs
      exact ⟨happ, q, ⟨hat.le, hat'⟩, hhead', hsize'⟩
  case h_7 => cases hs

end Follower

def FollowerPc.isScanning : FollowerPc β → Bool
  | .scanning _ _ _ => true
  | _ => false

/-- Transactions were scanned, and are not replayed yet. -/
def FollowerPc.isReplaying : FollowerPc β → Bool
  | .replaying _ => true
  | _ => false

/-! ## What a follower's steps do to its head and its metadata -/

section Follower

variable {o : TrimOptions} {base : Key → β} {size : Nat} {h : List (TxOps β)} {ring : Nat → LogEntry β} {d : Disk β}
  {f f' : Follower β}

theorem FollowerInv.head_le (hf : FollowerInv base size h ring f) (hpc : f.pc ≠ .off) :
    f.node.leader.headTxid ≤ h.length := by
  obtain ⟨_, hf⟩ := hf
  cases hp : f.pc <;> rw [hp] at hf hpc
  case off => exact absurd rfl hpc
  case idle => obtain ⟨p, _, hhead, _⟩ := hf; rw [hhead.head]; exact hhead.le
  case scanning | replaying => obtain ⟨p, q, _, hhead, _⟩ := hf; rw [hhead.head]; exact hhead.le
  case inserting => obtain ⟨q, _, hhead, _⟩ := hf; rw [hhead.head]; exact hhead.le

theorem FollowerInv.latest_le {latest : LeaderRecord} {offset : Nat} {st : ScanState β}
    (hf : FollowerInv base size h ring f) (hpc : f.pc = .scanning latest offset st) : latest.headTxid ≤ h.length := by
  obtain ⟨_, hf⟩ := hf
  rw [hpc] at hf
  obtain ⟨p, q, _, _, _, hlatest, _⟩ := hf
  rw [hlatest.head]
  exact hlatest.le

/-- All but what is being replayed is in the metadata. -/
theorem Follower.replayedAt_of_not_replaying (hpc : f.pc.isReplaying = false) :
    f.replayedAt = f.node.leader.headTxid := by
  unfold Follower.replayedAt
  split
  case h_1 heq => rw [heq] at hpc; cases hpc
  case h_2 => rfl

theorem Follower.replayedAt_le (f : Follower β) : f.replayedAt ≤ f.node.leader.headTxid := by
  unfold Follower.replayedAt
  split
  · exact Nat.sub_le _ _
  · exact le_refl _

/-- A poll finds the head it knows, or starts a scan. -/
theorem Follower.poll_cases {latest : LeaderRecord} (hs : f.poll latest = some f') :
    f'.node.leader.headTxid = f.node.leader.headTxid ∧
      ((f'.pc = f.pc ∧ f.node.leader.headTxid = latest.headTxid) ∨
        ∃ offset st, f'.pc = .scanning latest offset st) := by
  simp only [poll, Option.bind_eq_bind, Option.bind_eq_some_iff] at hs
  obtain ⟨n, hn, hs⟩ := hs
  obtain ⟨_, _, hhead, _⟩ := pollTail_spec hn
  split at hs <;> cases hs
  case isTrue heq => exact ⟨heq.symm.trans hhead, Or.inl ⟨rfl, hhead.symm.trans heq⟩⟩
  case isFalse => exact ⟨hhead, Or.inr ⟨_, _, rfl⟩⟩

/-- A scan goes on, or ends with the new head. -/
theorem Follower.readEntry_cases {latest : LeaderRecord} {offset : Nat} {st : ScanState β}
    (hs : f.readEntry d latest offset st = some f') :
    (∃ txs, f'.pc = .replaying txs ∧ f'.node.leader = f.node.leader.setHead latest) ∨
      ∃ offset' st', f'.pc = .scanning latest offset' st' ∧ f'.node.leader = f.node.leader := by
  unfold readEntry at hs
  dsimp only at hs
  split at hs <;> cases hs
  case h_2 txs _ => exact Or.inl ⟨txs, rfl, rfl⟩
  case h_3 st' _ => exact Or.inr ⟨_, st', rfl, rfl⟩

theorem Follower.insert_cases (hs : f.step o d .insert = some f') :
    f.pc.isReplaying = false ∧ f'.pc.isReplaying = false ∧ f'.node.leader = f.node.leader ∧ f'.pc ≠ .off ∧
      f.pc.isScanning = false ∧ f'.pc.isScanning = false := by
  cases hpc : f.pc <;> simp only [step, hpc, reduceCtorEq] at hs
  case inserting txs =>
    rcases txs with _ | ⟨tx, txs⟩ <;> simp only [reduceCtorEq] at hs
    obtain ⟨n, hn, hs⟩ := Option.bind_eq_some_iff.mp hs
    have hlead := (replaytxPut_node hn).1
    split at hs
    · split at hs <;> cases hs
      exact ⟨rfl, rfl, hlead, by simp, rfl, rfl⟩
    · cases hs
      exact ⟨rfl, rfl, hlead, by simp, rfl, rfl⟩

/-- A step of a follower takes no transaction back; one that joins finds the whole history. -/
theorem Follower.le_replayedAt_step {tl p : Nat} {ev : FollowerEvent} (hd : DiskInv base size h tl d)
    (hf : FollowerInv base size h d.ring f) (hs : f.step o d ev = some f') (hp : p ≤ h.length)
    (hat : f.pc ≠ .off → p ≤ f.replayedAt) (hup : f'.pc ≠ .off) : p ≤ f'.replayedAt := by
  have hstep := hs
  unfold step at hs
  split at hs
  case h_1 => cases hs; exact absurd rfl hup
  case h_2 =>
    obtain ⟨r, hr, rfl⟩ := Option.map_eq_some_iff.1 hs
    show p ≤ r.1.leader.headTxid
    rwa [(mountRo_spec hd hr).1, hd.leader.head]
  case h_7 => cases hs
  all_goals have hhead := le_trans (hat (by simp [*])) f.replayedAt_le
  case h_3 hpc =>
    obtain ⟨heq, hcases⟩ := poll_cases hs
    rw [← heq] at hhead
    rcases hcases with ⟨hpc', -⟩ | ⟨_, _, hpc'⟩ <;> simpa [Follower.replayedAt, hpc', hpc] using hhead
  case h_4 hpc =>
    rw [(readEntry_inv hd.pos hpc hf hs).2]
    exact hat (by simp [hpc])
  case h_5 => cases hs; exact hhead
  case h_6 =>
    obtain ⟨-, hr', hlead, -⟩ := insert_cases hstep
    rwa [replayedAt_of_not_replaying hr', hlead]

end Follower

/-! ## The cluster -/

/-- The writer and every follower agree with one history. -/
structure ClusterInv (base : Key → β) (size : Nat) (s : Cluster β) : Prop where
  writer : WriterInv base size s.writer
  followers : ∀ i, FollowerInv base size s.writer.committed s.writer.disk.ring (s.followers i)

section Cluster

variable {o : TrimOptions} {base : Key → β} {size : Nat} {s s' : Cluster β}

theorem Cluster.init_inv (hs : (clusterSystem o size base).init s) : ClusterInv base size s := by
  refine ⟨Writer.init_inv hs.1, fun i => ?_⟩
  obtain ⟨hpc, happ⟩ := hs.2 i
  refine ⟨by simp [happ], ?_⟩
  rw [hpc]
  trivial

theorem Cluster.step_inv {ev : ClusterEvent β} (hi : ClusterInv base size s)
    (hok : ∀ wev, ev = .writer wev → CommitClean s.writer wev) (hs : s.step o ev = some s') :
    ClusterInv base size s' := by
  cases ev with
  | writer wev =>
    obtain ⟨w, hw, rfl⟩ := Option.map_eq_some_iff.mp hs
    exact ⟨step_inv hi.writer (hok wev rfl) hw,
      fun i => (hi.followers i).advance (step_advances hi.writer hw)⟩
  | follower i fev =>
    obtain ⟨f, hf, rfl⟩ := Option.map_eq_some_iff.mp hs
    obtain ⟨tl, hd⟩ := hi.writer.disk
    have hf' := step_inv hd (hi.followers i) hf
    exact ⟨hi.writer, (Function.forall_update_iff _ fun _ => FollowerInv base size _ _).2 ⟨hf', fun j _ => hi.followers j⟩⟩

end Cluster

end PolarFs.Journal
