/-
The test by which `pfs_log_load` decides whether a leader record read earlier and the one on disk now
still have a journal in common: `lr.head_txid >= latest.tail_txid`. It compares transaction ids, while
the scan that follows starts at the old tail, whose entries the writer may overwrite once they are
trimmed.
-/
import PolarFs.Journal.OnlineMount

namespace PolarFs.Journal

open RedoLog Transition

variable {β : Type}

/-! ## A leader record read earlier -/

/-- A writer and the leader record that a mount has read from its device, if it has. -/
structure Observed (β : Type) where
  writer : Writer β
  lr : Option LeaderRecord

inductive ObservedStep (β : Type) where
  | writer (ev : Event β)
  /-- `pfs_leader_load` of the mount -/
  | leaderLoad

def Observed.step (o : TrimOptions) (s : Observed β) : ObservedStep β → Option (Observed β)
  | .writer ev => (s.writer.step o ev).map fun w => { s with writer := w }
  | .leaderLoad => some { s with lr := some s.writer.disk.leader }

def observedSystem (o : TrimOptions) (size : Nat) (base : Key → β) : System (Observed β) (ObservedStep β) where
  init s := (writerSystem o size base).init s.writer ∧ s.lr = none
  step := Observed.step o

/-- `pfs_log_load` goes on to its scan. -/
def LeaderRecord.intersects (lr latest : LeaderRecord) : Prop := latest.tailTxid ≤ lr.headTxid

/-- What the scan of `pfs_log_load` needs, and what it then returns: the entries of every transaction
after the old tail lie in the ring from the old tail's offset on. -/
structure ScanIntact (w : Writer β) (lr : LeaderRecord) : Prop where
  offset : lr.tailOffset = lsnAt w.committed lr.tailTxid % lr.logSize
  ring : RingHolds w.disk.ring lr.logSize (lsnAt w.committed lr.tailTxid)
    (journalLog lr.tailTxid (lsnAt w.committed lr.tailTxid)
      (txSlice w.committed lr.tailTxid w.disk.leader.headTxid))
  scan : logScan w.disk.ring lr.logSize lr.tailOffset lr.tailTxid w.disk.leader.headTxid =
    some (numbered lr.tailTxid (txSlice w.committed lr.tailTxid w.disk.leader.headTxid))

/-- Whatever pair of leader records the test accepts, the scan finds its entries. -/
def IntersectionSufficient (s : Observed β) : Prop :=
  ∀ lr, s.lr = some lr → lr.intersects s.writer.disk.leader → ScanIntact s.writer lr

/-! ## Writes within one ring of the old tail -/

/-- The next entry that the writer puts into the ring lies less than a whole ring after the tail of
`lr`; the position of that tail is the head's less the used space. -/
def withinRing (lr : LeaderRecord) (w : Writer β) (ev : Event β) : Bool :=
  match w.pc, ev with
  | .logging _ _ (e :: _), .io _ =>
    decide (e.lsn + logUsedspace lr.logSize lr.tailOffset lr.headOffset ≤ lr.headLsn + lr.logSize)
  | _, _ => true

/-- The condition on one step, from the state before it: as long as the test may accept `lr`, no entry is written
over its region. -/
def keepsOldTail (s : Observed β) : ObservedStep β → Bool
  | .writer ev => s.writer.leaderWriteClean ev &&
      s.lr.all fun lr => decide (lr.headTxid < s.writer.stored.tailTxid) || withinRing lr s.writer ev
  | .leaderLoad => true

section Invariant

variable {o : TrimOptions} {base : Key → β} {size : Nat} {s s' : Observed β} {w w' : Writer β} {lr : LeaderRecord}
  {ev : Event β}

/-- A leader record of the history, whose region is still in the ring. -/
structure OldLeader (size : Nat) (w : Writer β) (lr : LeaderRecord) : Prop where
  leader : LeaderAt w.committed size lr.tailTxid lr.headTxid lr
  tail_le : lr.tailTxid ≤ lr.headTxid
  head_le : lr.headTxid ≤ w.committed.length
  fit : lsnAt w.committed lr.headTxid < lsnAt w.committed lr.tailTxid + size
  region : Region size lr.tailTxid w

structure Observed.Inv (base : Key → β) (size : Nat) (s : Observed β) : Prop where
  writer : WriterInv base size s.writer
  lr : ∀ lr, s.lr = some lr → s.writer.stored.tailTxid ≤ lr.headTxid → OldLeader size s.writer lr

/-- A leader record that has just been read. -/
theorem OldLeader.of_disk (hi : WriterInv base size w) : OldLeader size w w.disk.leader := by
  obtain ⟨tl, hd⟩ := hi.disk
  have hd' := hd.raise hd.tl_le (le_refl _)
  have hhead : w.disk.leader.headTxid = w.committed.length := hd.leader.head
  refine ⟨?_, ?_, le_of_eq hhead, ?_, Region.of_tail hi⟩
  · rw [hhead]; exact hd.leader
  · rw [hhead]; exact hd.tail_le
  · rw [hhead]; exact hd'.fit

/-- The used space of the record takes its head back to its tail. -/
theorem OldLeader.lsn_tail (hl : OldLeader size w lr) :
    lsnAt w.committed lr.tailTxid + logUsedspace lr.logSize lr.tailOffset lr.headOffset = lr.headLsn := by
  have hmono : lsnAt w.committed lr.tailTxid ≤ lsnAt w.committed lr.headTxid := lsnAt_mono hl.tail_le
  have hfit := hl.fit
  have hused := logUsedspace_mod (a := lsnAt w.committed lr.tailTxid)
    (show lsnAt w.committed lr.headTxid - lsnAt w.committed lr.tailTxid < size by omega)
  rw [Nat.add_sub_cancel' hmono] at hused
  rw [hl.leader.size, hl.leader.tailOffset, hl.leader.headOffset, hused, hl.leader.lsn]
  omega

/-- The writer's steps keep an old leader record, when no entry is written over its region. -/
theorem OldLeader.step (hi : WriterInv base size w) (hl : OldLeader size w lr) (hok : withinRing lr w ev = true)
    (hs : w.step o ev = some w') : OldLeader size w' lr := by
  have hwrap : ∀ ops offset e todo r, w.pc = .logging ops offset (e :: todo) → ev = .io r →
      e.lsn ≤ lsnAt w.committed lr.tailTxid + size := by
    rintro ops offset e todo r hpc rfl
    simp only [withinRing, hpc, decide_eq_true_eq] at hok
    have hlsn := hl.lsn_tail
    have hsize := hl.leader.size
    omega
  have htail : lr.tailTxid ≤ w.committed.length := le_trans hl.tail_le hl.head_le
  have hregion := hl.region.step hi htail hwrap hs
  obtain ⟨h', hh⟩ := (Writer.step_advances hi hs).committed
  refine ⟨?_, hl.tail_le, ?_, ?_, hregion⟩
  · rw [hh]; exact hl.leader.append htail hl.head_le h'
  · rw [hh, List.length_append]; exact Nat.le_add_right_of_le hl.head_le
  · rw [hh, lsnAt_append_of_le hl.head_le, lsnAt_append_of_le htail]; exact hl.fit

theorem Observed.Inv.step (hi : s.Inv base size) {ev : ObservedStep β} (hok : keepsOldTail s ev = true)
    (hs : s.step o ev = some s') : s'.Inv base size := by
  cases ev with
  | leaderLoad =>
    cases hs
    refine ⟨hi.writer, fun lr hlr _ => ?_⟩
    cases hlr
    exact OldLeader.of_disk hi.writer
  | writer ev =>
    obtain ⟨w, hw, rfl⟩ := Option.map_eq_some_iff.mp hs
    simp only [keepsOldTail, Bool.and_eq_true] at hok
    refine ⟨Writer.step_inv hi.writer (Writer.commitClean hok.1) hw, fun lr hlr hle => ?_⟩
    have hlr' : s.lr = some lr := hlr
    rw [hlr', Option.all_some, Bool.or_eq_true, decide_eq_true_eq] at hok
    have hle' := le_trans (hi.writer.stored_tail_mono hw) hle
    exact (hi.lr lr hlr' hle').step hi.writer (hok.2.resolve_left (Nat.not_lt.2 hle')) hw

/-- The region of an old leader record scans back to the transactions after its tail. -/
theorem OldLeader.scanIntact (hi : WriterInv base size w) (hl : OldLeader size w lr) : ScanIntact w lr := by
  obtain ⟨tl, hd⟩ := hi.disk
  have htail : lr.tailTxid ≤ w.committed.length := le_trans hl.tail_le hl.head_le
  have hhead : w.disk.leader.headTxid = w.committed.length := hd.leader.head
  have htxs : ∀ tx ∈ txSlice w.committed lr.tailTxid w.committed.length, tx ≠ [] :=
    fun tx htx => hd.txs tx (List.mem_of_mem_take (List.mem_of_mem_drop htx))
  have hfit := hl.region.fit
  have hlen := lsnAt_txSlice (h := w.committed) htail
  have hscan := logScan_of_ringHolds htxs hl.region.ring (by omega)
  rw [length_txSlice (le_refl _), Nat.add_sub_cancel' htail] at hscan
  refine ⟨?_, ?_, ?_⟩
  · rw [hl.leader.size]; exact hl.leader.tailOffset
  · rw [hl.leader.size, hhead]; exact hl.region.ring
  · rw [hl.leader.size, hl.leader.tailOffset, hhead]; exact hscan

end Invariant

/-- In every run in which no entry is written a whole ring or more after the tail of the record read
earlier, the intersection test is sufficient. -/
theorem intersection_sufficient {o : TrimOptions} {size : Nat} {base : Key → β} {s : Observed β}
    (hs : ((observedSystem o size base).restrict fun s ev => keepsOldTail s ev = true).Reachable s) :
    IntersectionSufficient s := by
  have hi : s.Inv base size := by
    refine hs.invariant_restrict (fun s h0 => ?_) fun _ _ _ hi hok hstep => hi.step hok hstep
    refine ⟨Writer.init_inv h0.1, fun lr hlr => ?_⟩
    rw [h0.2] at hlr
    cases hlr
  intro lr hlr htest
  exact (hi.lr lr hlr (le_trans hi.writer.stored_tail_le htest)).scanIntact hi.writer

/-! ## A trimmed entry that is overwritten -/

def Observed.fresh (size : Nat) : Observed Nat := ⟨Writer.fresh size fun _ => 0, none⟩

theorem Observed.fresh_init (o : TrimOptions) {size : Nat} (hs : 0 < size) :
    (observedSystem o size fun _ => 0).init (Observed.fresh size) :=
  ⟨Writer.fresh_init o hs _, rfl⟩

/-- Two commits, after which a mount reads the leader record; trims of both and two more commits. -/
def trimmedRun : List (ObservedStep Nat) :=
  [.writer .mount, .writer (.commit [((5, 0), 7)]), .writer (.io .ok), .writer (.io .ok), .writer .apply,
    .writer (.commit [((5, 0), 8)]), .writer (.io .ok), .writer (.io .ok), .writer .apply, .leaderLoad,
    .writer .trim, .writer (.io .ok), .writer (.io .ok), .writer .delTrimentry, .writer (.swap true .write true),
    .writer .trim, .writer (.io .ok), .writer (.io .ok), .writer .delTrimentry,
    .writer (.commit [((5, 0), 9)]), .writer (.io .ok), .writer (.io .ok), .writer .apply,
    .writer (.commit [((5, 0), 10)]), .writer (.io .ok), .writer (.io .ok), .writer .apply]

/-- In a ring of three entries the fourth transaction takes the place of the first one: the test
accepts the old record and the scan fails its assertion on the transaction id. -/
theorem not_intersection_sufficient :
    ¬ ∀ (o : TrimOptions) (size : Nat) (s : Observed Nat),
      (observedSystem o size fun _ => 0).Reachable s → IntersectionSufficient s := by
  intro hall
  have hs := (observedSystem ⟨1, 1, 1⟩ 3 fun _ => 0).reachable_last (Observed.fresh 3) trimmedRun
    (Observed.fresh_init ⟨1, 1, 1⟩ (by decide)) (by decide +kernel)
  have hscan := (hall _ _ _ hs ⟨0, 2, 0, 2, 3, 2⟩ (by decide +kernel)
    (by unfold LeaderRecord.intersects; decide +kernel)).scan
  revert hscan
  decide +kernel

/-- The same run in a ring of eight entries. -/
theorem intersection_sufficient_trimmedRun : ∃ s : Observed Nat,
    ((observedSystem ⟨1, 1, 1⟩ 8 fun _ => 0).restrict fun s ev => keepsOldTail s ev = true).Reachable s ∧
      s.lr = some ⟨0, 2, 0, 2, 8, 2⟩ ∧ s.writer.disk.leader.tailTxid = 2 ∧ s.writer.committed.length = 4 ∧
      IntersectionSufficient s := by
  have hs := ((observedSystem ⟨1, 1, 1⟩ 8 fun _ => 0).restrict fun s ev => keepsOldTail s ev = true).reachable_last
    (Observed.fresh 8) trimmedRun (Observed.fresh_init ⟨1, 1, 1⟩ (by decide)) (by decide +kernel)
  exact ⟨_, hs, by decide +kernel, by decide +kernel, by decide +kernel, intersection_sufficient hs⟩

end PolarFs.Journal
