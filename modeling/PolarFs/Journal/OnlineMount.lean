/-
A read-only mount while another host keeps committing and trimming (`pfs_mount`, `pfs_log_preload`,
`pfs_leader_load`, `pfs_log_load`, `pfs_txlist_replay`). The mount reads the leader record three
times, the metadata sectors in any order, and the log entries one by one; the writer's steps come in
between. An assertion of the mount that fails is the state `aborted`.
-/
import PolarFs.Journal.Cluster
import PolarFs.Journal.Recovery

namespace PolarFs.Journal

open RedoLog Transition Writer

/-- What the mount knows about the file system: the metadata sectors, the objects of an allocator and
when an object is used. -/
structure MountConfig (β : Type) where
  sects : List Nat
  objs : Finset Key
  objs_mem : ∀ k ∈ objs, k.1 ∈ sects
  used : β → Bool

inductive MountPc (β : Type) where
  | off
  /-- `pfs_meta_load_all_chunks` -/
  | loading
  /-- the allocators are built from the sectors (`pfs_init_anode`) -/
  | anodes
  /-- `pfs_leader_load` is done -/
  | leaderLoaded
  /-- the scan of `pfs_log_load` -/
  | scanning (latest : LeaderRecord) (offset : Nat) (st : ScanState β)
  | replaying (txs : List (Nat × TxOps β))
  | inserting (txs : List (Nat × TxOps β))
  | serving
  | aborted

/-- A mounting host; `tail0` is the tail that `pfs_log_preload` read, `tail1` the one on disk when the first metadata
sector was read, `replayed` what was replayed. -/
structure Mounter (β : Type) where
  node : Node β
  nfree : Int
  loaded : List Nat
  tail0 : Nat
  tail1 : Nat
  replayed : List (Nat × TxOps β)
  pc : MountPc β

inductive MountEvent where
  | preload
  | readSector (bda : Nat)
  | initAnode
  | leaderLoad
  | logLoad
  | readEntry
  | replay
  | insert
  | giveUp
  deriving DecidableEq, Repr

variable {β : Type}

/-! ## Free counts -/

/-- The number of unused objects. -/
def MountConfig.countFree (c : MountConfig β) (m : Key → β) : Int :=
  ((c.objs.filter fun k => c.used (m k) = false).card : Int)

def MountConfig.usedBit (c : MountConfig β) (v : β) : Int := if c.used v then 1 else 0

/-- `pfs_txop_redo` and the allocator's update by its result. -/
def MountConfig.redoOp (c : MountConfig β) (m : (Key → β) × Int) (op : Key × β) : (Key → β) × Int :=
  (Function.update m.1 op.1 op.2,
    if op.1 ∈ c.objs then m.2 + (c.usedBit (m.1 op.1) - c.usedBit op.2) else m.2)

/-- `pfs_txlist_replay`. -/
def MountConfig.replay (c : MountConfig β) (m : (Key → β) × Int) (txs : List (TxOps β)) : (Key → β) × Int :=
  txs.foldl (fun m tx => tx.foldl c.redoOp m) m

theorem MountConfig.countFree_update (c : MountConfig β) (m : Key → β) (k : Key) (v : β) :
    c.countFree (Function.update m k v) =
      if k ∈ c.objs then c.countFree m + (c.usedBit (m k) - c.usedBit v) else c.countFree m := by
  have hsplit : ∀ m' : Key → β, c.countFree m' =
      (((c.objs.erase k).filter fun x => c.used (m' x) = false).card : Int) +
        if k ∈ c.objs then 1 - c.usedBit (m' k) else 0 := by
    intro m'
    by_cases hk : k ∈ c.objs
    · rw [if_pos hk, MountConfig.countFree, ← Finset.insert_erase hk, Finset.filter_insert]
      by_cases hu : c.used (m' k) = false
      · rw [if_pos hu, Finset.card_insert_of_notMem (by simp), Finset.erase_insert (Finset.notMem_erase k _)]
        simp [MountConfig.usedBit, hu]
      · rw [if_neg hu, Finset.erase_insert (Finset.notMem_erase k _)]
        simp [MountConfig.usedBit, hu]
    · rw [if_neg hk, Finset.erase_eq_of_notMem hk, add_zero, MountConfig.countFree]
  have hrest : ((c.objs.erase k).filter fun x => c.used (Function.update m k v x) = false) =
      (c.objs.erase k).filter fun x => c.used (m x) = false := by
    refine Finset.filter_congr fun x hx => ?_
    rw [Function.update_of_ne (Finset.ne_of_mem_erase hx)]
  rw [hsplit (Function.update m k v), hsplit m, hrest, Function.update_self]
  split
  · omega
  · rfl

/-- Replay gives the redone metadata, and keeps the count of unused objects. -/
theorem MountConfig.replay_eq (c : MountConfig β) : ∀ (txs : List (TxOps β)) (m : Key → β),
    c.replay (m, c.countFree m) txs = (redo m txs, c.countFree (redo m txs)) := by
  have hops : ∀ (ops : TxOps β) (m : Key → β),
      ops.foldl c.redoOp (m, c.countFree m) = (applyTx m ops, c.countFree (applyTx m ops)) := by
    intro ops
    induction ops with
    | nil => intro m; rfl
    | cons op ops ih =>
      intro m
      rw [List.foldl_cons, MountConfig.redoOp, applyTx_cons, ← ih]
      congr 1
      rw [Prod.mk.injEq]
      exact ⟨rfl, (c.countFree_update m op.1 op.2).symm⟩
  intro txs
  induction txs with
  | nil => intro m; rfl
  | cons tx txs ih =>
    intro m
    rw [MountConfig.replay, List.foldl_cons, hops tx m, redo_cons]
    exact ih (applyTx m tx)

/-! ## The mount -/

/-- The leader record after `pfs_log_load`. -/
def LeaderRecord.loadFrom (lr latest : LeaderRecord) : LeaderRecord :=
  { lr with
    tailTxid := latest.tailTxid, tailOffset := latest.tailOffset, headTxid := latest.headTxid
    headOffset := latest.headOffset, headLsn := latest.headLsn }

def Mounter.abort (m : Mounter β) : Mounter β := { m with pc := .aborted }

/-- `pfs_log_load` up to its scan, and `pfs_log_handle_load` when there is nothing to scan. A mount
that gets `-EAGAIN` starts again. -/
def Mounter.logLoad (m : Mounter β) (latest : LeaderRecord) : Mounter β :=
  let lr := m.node.leader
  if lr.tailTxid ≤ latest.tailTxid ∧ lr.headTxid ≤ latest.headTxid then
    if lr.headTxid < latest.tailTxid then { m with pc := .off }
    else if lr.tailTxid = latest.headTxid then
      if latest.tailTxid = latest.headTxid then
        { m with node := m.node.setLeader (lr.loadFrom latest), pc := .serving }
      else m.abort
    else { m with pc := .scanning latest lr.tailOffset ⟨none, lr.tailTxid, []⟩ }
  else m.abort

def Mounter.readEntry (m : Mounter β) (d : Disk β) (latest : LeaderRecord) (offset : Nat) (st : ScanState β) :
    Mounter β :=
  let lr := m.node.leader
  match scanEntry lr.tailTxid latest.headTxid st (d.ring offset) with
  | .fail => m.abort
  | .done txs => { m with node := m.node.setLeader (lr.loadFrom latest), pc := .replaying txs }
  | .more st' => { m with pc := .scanning latest (offModularAdd offset 1 lr.logSize) st' }

def Mounter.replay (c : MountConfig β) (m : Mounter β) (txs : List (Nat × TxOps β)) : Mounter β :=
  let r := c.replay (m.node.metabuf, m.nfree) (txs.map Prod.snd)
  { m with node := { m.node with metabuf := r.1 }, nfree := r.2, replayed := txs, pc := .inserting txs }

/-- `pfs_log_handle_replaydone`, one transaction at a time. -/
def Mounter.insert (o : TrimOptions) (m : Mounter β) (tx : Nat × TxOps β) (txs : List (Nat × TxOps β)) : Mounter β :=
  match m.node.replaytxPut o false false tx with
  | none => m.abort
  | some n =>
    if txs.isEmpty then
      match n.replaydone with
      | none => m.abort
      | some n' => { m with node := n', pc := .serving }
    else { m with node := n, pc := .inserting txs }

def Mounter.step (c : MountConfig β) (o : TrimOptions) (d : Disk β) (m : Mounter β) (ev : MountEvent) :
    Option (Mounter β) :=
  match m.pc, ev with
  | .aborted, _ => none
  | _, .giveUp => some { m with pc := .off }
  | .off, .preload => some
      { node := ⟨d.leader, m.node.metabuf, Groups.preload d.leader⟩
        nfree := 0, loaded := [], tail0 := d.leader.tailTxid, tail1 := d.leader.tailTxid, replayed := [], pc := .loading }
  | .loading, .readSector bda =>
    if bda ∈ c.sects then
      some { m with
        node := { m.node with metabuf := fun k => if k.1 = bda then d.sectors k else m.node.metabuf k }
        loaded := bda :: m.loaded, tail1 := if m.loaded.isEmpty then d.leader.tailTxid else m.tail1 }
    else none
  | .loading, .initAnode =>
    if ∀ bda ∈ c.sects, bda ∈ m.loaded then some { m with nfree := c.countFree m.node.metabuf, pc := .anodes }
    else none
  | .anodes, .leaderLoad => some { m with node := m.node.setLeader d.leader, pc := .leaderLoaded }
  | .leaderLoaded, .logLoad => some (m.logLoad d.leader)
  | .scanning latest offset st, .readEntry => some (m.readEntry d latest offset st)
  | .replaying txs, .replay => some (m.replay c txs)
  | .inserting (tx :: txs), .insert => some (m.insert o tx txs)
  | _, _ => none

/-- A writer and a mounting host on one device. -/
structure MountState (β : Type) where
  writer : Writer β
  mounter : Mounter β

inductive MountStep (β : Type) where
  | writer (ev : Event β)
  | mounter (ev : MountEvent)

def MountState.step (c : MountConfig β) (o : TrimOptions) (s : MountState β) : MountStep β → Option (MountState β)
  | .writer ev => (s.writer.step o ev).map fun w => { s with writer := w }
  | .mounter ev => (s.mounter.step c o s.writer.disk ev).map fun m => { s with mounter := m }

def mountSystem (c : MountConfig β) (o : TrimOptions) (size : Nat) (base : Key → β) :
    System (MountState β) (MountStep β) where
  init s := (writerSystem o size base).init s.writer ∧ s.mounter.pc = .off
  step := MountState.step c o

/-! ## The tail on disk -/

/-- The leader record that the writer goes back to if its next leader write fails. The tail on disk may be ahead of
its tail until then: a trim's leader write that failed may have landed. -/
def Writer.stored (w : Writer β) : LeaderRecord :=
  match w.pc with
  | .down => w.disk.leader
  | .committing _ lrbak | .trimming lrbak => lrbak
  | _ => w.node.leader

section Stored

variable {o : TrimOptions} {base : Key → β} {size : Nat} {w w' : Writer β} {ev : Event β}

theorem Writer.stored_of_plain (hpc : w.pc.plain = true) :
    w.stored = if w.pc.isDown then w.disk.leader else w.node.leader := by
  unfold stored
  cases h : w.pc <;> first | rfl | (rw [h] at hpc; cases hpc)

@[simp] theorem Disk.writeEntry_leader (d : Disk β) (r : Io) (offset : Nat) (e : LogEntry β) :
    (d.writeEntry r offset e).leader = d.leader := by
  unfold Disk.writeEntry; split <;> rfl

@[simp] theorem Disk.writeSector_leader (d : Disk β) (r : Io) (bda : Nat) (img : Nat → β) :
    (d.writeSector r bda img).leader = d.leader := by
  unfold Disk.writeSector; split <;> rfl

/-- A step either leaves the record, and the one on disk unless a failed write lands, or makes the two the same. -/
theorem Writer.stored_step (hs : w.step o ev = some w') :
    (w'.stored = w.stored ∧ (FailsCleanly ev → w'.disk.leader = w.disk.leader)) ∨
      (w'.stored = w'.disk.leader ∧
        (w'.disk.leader = w.disk.leader ∨ w.stored.tailTxid ≤ w'.disk.leader.tailTxid)) := by
  cases stepKind hs with
  | quiet hdisk hcom hplain' hlead =>
    rcases hlead with hdown | ⟨hplain, hlead⟩
    · exact Or.inr ⟨by rw [stored, hdown], Or.inl (by rw [hdisk])⟩
    · rw [stored_of_plain hplain', hdisk, hlead, ← stored_of_plain hplain]
      split
      · exact Or.inr ⟨rfl, Or.inl rfl⟩
      · exact Or.inl ⟨rfl, fun _ => rfl⟩
  | logged ops offset e todo r hpc hev heq =>
    subst heq
    left
    unfold logStep stored
    rw [hpc]
    cases r with
    | fail => simp
    | ok => by_cases hlast : todo.isEmpty <;> simp [hlast]
  | flushed sb todo r hpc hev heq =>
    left
    obtain ⟨-, heq⟩ := Option.ite_none_right_eq_some.1 heq
    obtain ⟨img, -, rfl⟩ := Option.map_eq_some_iff.1 heq
    unfold stored
    rw [hpc]
    cases r with
    | fail => simp
    | ok => by_cases hlast : todo.isEmpty <;> simp [hlast]
  | committed ops lrbak r hpc hev heq | trimmed lrbak r hpc hev heq =>
    subst hev
    obtain ⟨hfwd, heq⟩ := Option.ite_none_right_eq_some.1 heq
    have hfwd := of_decide_eq_true hfwd
    cases r with
    | ok =>
      cases heq
      have hle : w.stored.tailTxid ≤ w.node.leader.tailTxid := by simpa only [stored, hpc] using hfwd.1
      exact Or.inr ⟨rfl, Or.inr hle⟩
    | fail landed =>
      cases heq
      refine Or.inl ⟨by simp only [stored, hpc, Node.setLeader], fun hclean => ?_⟩
      cases landed with
      | true => exact absurd rfl hclean
      | false => rfl

/-- Its tail is never ahead of the one on disk. -/
theorem WriterInv.stored_tail_le (hi : WriterInv base size w) : w.stored.tailTxid ≤ w.disk.leader.tailTxid := by
  unfold stored
  unfold WriterInv at hi
  cases hpc : w.pc <;> rw [hpc] at hi
  case replaying =>
    obtain ⟨t, k, hd, hn, -⟩ := hi
    exact hn.leader.tail.trans_le hd.tl_le
  case idle =>
    obtain ⟨t, hidle⟩ := hi
    exact hidle.node.leader.tail.trans_le hidle.disk.tl_le
  case logging | committing | flushing | trimming =>
    obtain ⟨t, hidle, -⟩ := hi
    exact hidle.node.leader.tail.trans_le hidle.disk.tl_le
  case applying =>
    obtain ⟨t, h₀, -, hd, -, hn⟩ := hi
    exact hn.leader.tail.trans_le hd.tl_le
  case deleting =>
    obtain ⟨t, hd, hw, htail, hlead, -⟩ := hi
    exact hlead.tail.trans_le hd.tl_le

/-- And it only moves forward. -/
theorem WriterInv.stored_tail_mono (hi : WriterInv base size w) (hs : w.step o ev = some w') :
    w.stored.tailTxid ≤ w'.stored.tailTxid := by
  rcases stored_step hs with ⟨heq, -⟩ | ⟨heq, hdisk | hle⟩
  · rw [heq]
  · rw [heq, hdisk]; exact hi.stored_tail_le
  · rw [heq]; exact hle

/-- Without a failed write that lands, the tail on disk is the one the writer goes back to. -/
def Writer.TailSync (w : Writer β) : Prop := w.disk.leader.tailTxid = w.stored.tailTxid

theorem Writer.TailSync.step (ht : w.TailSync) (hclean : FailsCleanly ev) (hs : w.step o ev = some w') :
    w'.TailSync := by
  unfold Writer.TailSync at ht ⊢
  rcases stored_step hs with ⟨heq, hdisk⟩ | ⟨heq, -⟩
  · rw [heq, hdisk hclean]; exact ht
  · rw [heq]

end Stored

/-! ## The region a mount scans -/

/-- The ring holds the transactions after `t₀`, and an entry of the commit under way does not reach
them. -/
structure Region (size t₀ : Nat) (w : Writer β) : Prop where
  ring : RingHolds w.disk.ring size (lsnAt w.committed t₀)
    (journalLog t₀ (lsnAt w.committed t₀) (txSlice w.committed t₀ w.committed.length))
  fit : lsnAt w.committed w.committed.length ≤ lsnAt w.committed t₀ + size
  committing : ∀ ops lrbak, w.pc = .committing ops lrbak →
    lsnAt w.committed w.committed.length + ops.length ≤ lsnAt w.committed t₀ + size

section Region

variable {o : TrimOptions} {base : Key → β} {size t₀ : Nat} {w w' : Writer β} {ev : Event β}

theorem lsn_of_txLog {txid : Nat} {e : LogEntry β} {todo : List (LogEntry β)} : ∀ {ops : TxOps β} {lsn : Nat}
    {done : List (LogEntry β)}, txLog txid lsn ops = done ++ e :: todo → e.lsn = lsn + done.length + 1
  | [], _, done, h => by rw [txLog] at h; exact absurd h (by simp)
  | op :: ops, lsn, [], h => by
    rw [txLog, List.nil_append] at h
    rw [← (List.cons.inj h).1]
    rfl
  | op :: ops, lsn, d :: done, h => by
    rw [txLog, List.cons_append] at h
    have := lsn_of_txLog (List.cons.inj h).2
    rw [this, List.length_cons]
    omega

/-- At the moment the mount reads the tail, the region after it is in the ring. -/
theorem Region.of_tail (hi : WriterInv base size w) : Region size w.disk.leader.tailTxid w := by
  obtain ⟨tl, hd⟩ := hi.disk
  have hd' := hd.raise hd.tl_le (le_refl _)
  refine ⟨hd'.ring, Nat.le_of_lt hd'.fit, fun ops lrbak hpc => ?_⟩
  rw [WriterInv, hpc] at hi
  obtain ⟨t, hidle, hfit, _, _⟩ := hi
  -- a failed trim may have left a later tail on disk, never an earlier one
  have htail : lsnAt w.committed t ≤ lsnAt w.committed w.disk.leader.tailTxid := lsnAt_mono hidle.disk.tl_le
  have := hfit.fit
  omega

/-- The writer's steps keep the region, when it does not write over it. -/
theorem Region.step (hi : WriterInv base size w) (ht : t₀ ≤ w.committed.length) (hr : Region size t₀ w)
    (hwrap : ∀ ops offset e todo r, w.pc = .logging ops offset (e :: todo) → ev = .io r →
      e.lsn ≤ lsnAt w.committed t₀ + size) (hs : w.step o ev = some w') : Region size t₀ w' := by
  cases stepKind hs with
  | quiet hdisk hcom hplain _ =>
    refine ⟨by rw [hdisk, hcom]; exact hr.ring, by rw [hcom]; exact hr.fit, fun ops lrbak hpc => ?_⟩
    rw [hpc] at hplain
    cases hplain
  | logged ops offset e todo r hpc hev heq =>
    have hlsn := hwrap ops offset e todo r hpc hev
    rw [WriterInv, hpc] at hi
    obtain ⟨t, hidle, hfit, done, hlog, rfl, _⟩ := hi
    have hmono : lsnAt w.committed t₀ ≤ lsnAt w.committed w.committed.length := lsnAt_mono ht
    have hlen := congrArg List.length hlog
    rw [length_txLog, List.length_append, List.length_cons] at hlen
    rw [lsn_of_txLog hlog] at hlsn
    -- the slot lies after the region and less than a ring from its start
    have hring : RingHolds (w.disk.writeEntry r
        ((lsnAt w.committed w.committed.length + done.length) % size) e).ring size (lsnAt w.committed t₀)
        (journalLog t₀ (lsnAt w.committed t₀) (txSlice w.committed t₀ w.committed.length)) := by
      unfold Disk.writeEntry
      split
      · have := hr.ring.update (j := lsnAt w.committed w.committed.length - lsnAt w.committed t₀ + done.length)
          (by rw [length_journalLog_slice ht]; omega) (by omega) e
        rwa [show lsnAt w.committed t₀ +
          (lsnAt w.committed w.committed.length - lsnAt w.committed t₀ + done.length) =
            lsnAt w.committed w.committed.length + done.length by omega] at this
      · exact hr.ring
    subst heq
    unfold logStep
    cases r with
    | fail => exact ⟨hring, hr.fit, fun _ _ h => by cases h⟩
    | ok =>
      dsimp only
      split
      case isTrue hnil =>
        rw [List.isEmpty_iff] at hnil
        refine ⟨hring, hr.fit, fun ops' lrbak' h => ?_⟩
        cases h
        show lsnAt w.committed w.committed.length + ops.length ≤ lsnAt w.committed t₀ + size
        rw [hnil, List.length_nil] at hlen
        omega
      case isFalse => exact ⟨hring, hr.fit, fun _ _ h => by cases h⟩
  | committed ops lrbak r hpc hev heq =>
    have hfit := hr.committing ops lrbak hpc
    rw [WriterInv, hpc] at hi
    obtain ⟨t, hidle, _, _, hnew⟩ := hi
    unfold commitStep at heq
    obtain ⟨-, heq⟩ := Option.ite_none_right_eq_some.1 heq
    cases r with
    | fail =>
      cases heq
      exact ⟨by rw [Disk.writeLeader_ring]; exact hr.ring, hr.fit, fun _ _ h => by cases h⟩
    | ok =>
      cases heq
      refine ⟨?_, ?_, fun _ _ h => by cases h⟩
      · show RingHolds _ size (lsnAt (w.committed ++ [ops]) t₀) _
        rw [journalLog_snoc ht, lsnAt_append_of_le ht]
        refine hr.ring.append ?_
        rw [length_journalLog_slice ht, Nat.add_sub_cancel' (lsnAt_mono ht)]
        exact hnew
      · show lsnAt (w.committed ++ [ops]) (w.committed ++ [ops]).length ≤ _
        rw [List.length_append, List.length_singleton, lsnAt_snoc, lsnAt_append_of_le ht]
        exact hfit
  | flushed sb todo r hpc hev heq =>
    unfold flushStep at heq
    dsimp only at heq
    obtain ⟨-, heq⟩ := Option.ite_none_right_eq_some.1 heq
    obtain ⟨img, _, heq⟩ := Option.map_eq_some_iff.mp heq
    cases r with
    | fail =>
      cases heq
      exact ⟨by rw [Disk.writeSector_ring]; exact hr.ring, hr.fit, fun _ _ h => by cases h⟩
    | ok =>
      dsimp only at heq
      split at heq <;> cases heq <;> exact ⟨hr.ring, hr.fit, fun _ _ h => by cases h⟩
  | trimmed oldlr r hpc hev heq =>
    unfold trimStep at heq
    obtain ⟨-, heq⟩ := Option.ite_none_right_eq_some.1 heq
    cases r <;> cases heq <;>
      exact ⟨by rw [Disk.writeLeader_ring]; exact hr.ring, hr.fit, fun _ _ h => by cases h⟩

end Region

end PolarFs.Journal
