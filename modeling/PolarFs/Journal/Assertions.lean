/-
The assertions of the log thread on the journal's positions and on the trim groups. One that fails is a step that is
not taken here, so the recovery results are about the runs without; but none ever fails: what the log thread comes to
do next, it can do. And no change in memory is missing from the groups.
-/
import PolarFs.Journal.Agreement

namespace PolarFs.Journal

open RedoLog Transition Writer

variable {β : Type} {o : TrimOptions} {size : Nat} {base : Key → β} {s : Writer β}

/-- `pfs_log_need_trim`. -/
def Node.needTrim (o : TrimOptions) (n : Node β) : Option Bool :=
  let work := n.groups.workgrp
  let wait := n.groups.waitgrp
  if n.leader.tailTxid = n.leader.headTxid then
    if work.ltxid = work.rtxid ∧ wait.ltxid = wait.rtxid then some false else none
  else some (work.overThreshold o && decide (wait.ltxid < wait.rtxid))

/-- The log thread comes to `ev`, by what it is doing; a commit that does not fit waits for a trim. -/
def Writer.due (s : Writer β) (ev : Event β) : Bool :=
  match s.pc, ev with
  | _, .crash | .down, .mount | .replaying (_ :: _), .replayInsert _ | .logging _ _ (_ :: _), .io _
  | .committing _ _, .io _ | .applying _, .apply | .idle, .swap _ _ _ | .idle, .trim | .flushing (_ :: _), .io _
  | .trimming _, .io _ | .deleting, .delTrimentry => true
  | .idle, .commit ops => decide (ops ≠ [] ∧ ops.length < logSpace s.node.leader)
  | _, _ => false

namespace WriterInv

variable {tx : Nat × TxOps β} {txs : List (Nat × TxOps β)} {ops : TxOps β} {lr : LeaderRecord} {sb : SectBuf β}
  {todo : List (SectBuf β)} (hi : WriterInv base size s)

include hi

/-- The entries of the leader record are read back. -/
theorem mount_isSome : s.mount.isSome := by
  obtain ⟨tl, hd⟩ := hi.disk
  unfold mount
  simp only [hd.logScan, Option.bind_eq_bind, Option.bind_some]
  split
  case isTrue hnil =>
    -- there are none only when the tail is the head
    have hlen := congrArg List.length (List.isEmpty_iff.1 hnil)
    rw [length_numbered, length_txSlice (le_refl _), List.length_nil] at hlen
    rw [if_pos (le_antisymm (hd.leader.head ▸ hd.tail_le) (by rw [hd.leader.head]; omega))]
    rfl
  case isFalse => rfl

theorem replayInsert_isSome (locked : Bool) (hpc : s.pc = .replaying (tx :: txs)) :
    (s.step o (.replayInsert locked)).isSome := by
  rw [WriterInv, hpc] at hi
  obtain ⟨t, k, hd, hn, hk, htxs⟩ := hi
  have hlen := congrArg List.length htxs
  rw [length_numbered, length_txSlice (le_refl _), List.length_cons] at hlen
  have hlt : k < s.committed.length := by omega
  rw [txSlice_cons hlt, numbered] at htxs
  obtain ⟨rfl, rfl⟩ := List.cons.inj htxs
  obtain ⟨gs, hgs, hginv, -⟩ := hn.groups.addTrimentry (le_refl _) hd.pos hlt (hd.length_le hlt hn.groups.tail_le)
  obtain ⟨gs', hgs', hginv', -⟩ := hginv.tryswap o true false .replaydone locked
  simp only [step, hpc, Node.replaytxPut, hn.leader.size, hgs, hn.metabuf, hgs', Option.bind_eq_bind,
    Option.bind_some]
  split
  case isFalse => rfl
  case isTrue hnil =>
    -- the groups end where the leader record does
    rw [List.isEmpty_iff.1 hnil, List.length_nil] at hlen
    have hlast : k + 1 = s.committed.length := by omega
    rw [Node.replaydone, show (s.node.setGroups gs').leader.tailTxid = t from hn.leader.tail,
      show (s.node.setGroups gs').groups.delTrimentry t = gs' from hginv'.delTrimentry_tail, if_pos]
    · rfl
    · rw [hginv'.rtxid, hginv'.roffset, hlast]
      exact ⟨hn.leader.head.symm, hn.leader.headOffset.symm⟩

theorem commitStep_isSome (r : Io) (hpc : s.pc = .committing ops lr) : (s.commitStep ops lr r).isSome := by
  rw [WriterInv, hpc] at hi
  obtain ⟨t, -, hfit, hlr, -⟩ := hi
  have hpos := List.length_pos_iff.2 hfit.ne
  rw [commitStep, if_pos (by rw [hlr]; simpa [forwardLeader, LeaderRecord.advanceHead] using hpos)]
  cases r <;> rfl

theorem apply_isSome (hpc : s.pc = .applying ops) : (s.step o .apply).isSome := by
  rw [WriterInv, hpc] at hi
  obtain ⟨t, h₀, hh, hd, hops, hn⟩ := hi
  have hlen : s.committed.length = h₀.length + 1 := by rw [hh]; simp
  have hlt : h₀.length < s.committed.length := by omega
  have hget : s.committed.get ⟨h₀.length, hlt⟩ = ops := by rw [List.get_eq_getElem]; simp [hh]
  have hmeta : applyTx s.node.metabuf ops = stateAt base s.committed s.committed.length := by
    rw [hn.metabuf, hlen, hh, stateAt_snoc, stateAt_append_of_le (le_refl _)]
  obtain ⟨gs, hgs, hginv, -⟩ := hn.groups.addTrimentry (le_refl _) hd.pos hlt (by rw [hget]; exact hops)
  rw [hget] at hgs
  rw [← hlen] at hgs hginv
  obtain ⟨gs', hgs', hginv', -⟩ := hginv.tryswap o true false .write true
  simp only [step, hpc, Node.apply, hn.leader.head, hn.leader.size, hgs, hmeta, hgs', Option.bind_eq_bind,
    Option.bind_some]
  rw [if_pos (hginv'.roffset.trans hn.leader.headOffset.symm)]
  rfl

theorem trim_isSome (hpc : s.pc = .idle) : s.trim.isSome := by
  rw [WriterInv, hpc] at hi
  obtain ⟨t, -, hn⟩ := hi
  unfold trim
  dsimp only
  split
  case isTrue => rfl
  case isFalse hne =>
    rcases hn.groups.chain with ⟨hc, -⟩ | hw
    · exact absurd hc hne
    · rw [if_pos ⟨hn.leader.tail.trans hw.ltxid.symm, hw.chain⟩]
      split <;> rfl

theorem needTrim_isSome (hpc : s.pc = .idle) : (s.node.needTrim o).isSome := by
  rw [WriterInv, hpc] at hi
  obtain ⟨t, -, hn⟩ := hi
  unfold Node.needTrim
  dsimp only
  split
  case isFalse => rfl
  case isTrue heq =>
    rw [hn.leader.tail, hn.leader.head] at heq
    rcases hn.groups.chain with ⟨hwait, hwork⟩ | hw
    · rw [if_pos ⟨hwork.trans (heq.trans hn.groups.rtxid.symm), hwait⟩]
      rfl
    · -- a waiting group that is full ends before the head
      have := hw.lt
      have := hn.groups.wait.hi
      omega

theorem flushStep_isSome (r : Io) (hpc : s.pc = .flushing (sb :: todo)) : (s.flushStep sb todo r).isSome := by
  rw [WriterInv, hpc] at hi
  obtain ⟨t, hidle, hw, done, hsects, -⟩ := hi
  have hmem : sb ∈ s.node.groups.waitgrp.sects := by rw [hsects]; simp
  have hcopied := hw.copied
  rw [emptyCount, List.countP_eq_zero] at hcopied
  rw [flushStep, if_pos (hidle.node.groups.wait.rep.txids sb hmem), Option.isSome_map]
  simpa [Option.isSome_iff_ne_none] using hcopied sb hmem

theorem trimStep_isSome (r : Io) (hpc : s.pc = .trimming lr) : (s.trimStep lr r).isSome := by
  rw [WriterInv, hpc] at hi
  obtain ⟨t, ⟨-, hn⟩, hw, hlr, -⟩ := hi
  have hlt : lr.tailTxid < s.node.groups.waitgrp.rtxid := hn.leader.tail.symm ▸ hw.lt
  rw [trimStep, if_pos (by rw [hlr]; simp [forwardLeader, LeaderRecord.trimTo, hlt, Nat.le_of_lt hlt])]
  cases r <;> rfl

end WriterInv

section Runs

variable (hs : ((writerSystem o size base).restrict fun _ ev => FailsCleanly ev).Reachable s)

include hs

theorem Writer.reachable_inv : WriterInv base size s :=
  hs.invariant_restrict (fun _ => init_inv) fun _ _ _ hi hok hstep => step_inv hi hok.commitClean hstep

/-- Whatever the log thread comes to do in a run, its assertions hold, also those it makes before a trim. -/
theorem log_assertions_hold {ev : Event β} (hdue : s.due ev = true) :
    (s.step o ev).isSome ∧ (s.pc = .idle → (s.node.needTrim o).isSome) := by
  have hi := reachable_inv hs
  refine ⟨?_, hi.needTrim_isSome⟩
  unfold due at hdue
  split at hdue
  case h_1 => unfold step; rfl
  case h_2 hpc => simpa only [step, hpc] using hi.mount_isSome
  case h_3 locked hpc => exact hi.replayInsert_isSome locked hpc
  case h_4 r hpc => simp only [step, hpc, Option.isSome_some]
  case h_5 r hpc => simpa only [step, hpc] using hi.commitStep_isSome r hpc
  case h_6 hpc => exact hi.apply_isSome hpc
  case h_7 force type locked hpc =>
    rw [WriterInv, hpc] at hi
    obtain ⟨t, -, hn⟩ := hi
    obtain ⟨gs, hgs, -⟩ := hn.groups.tryswap o true force type locked
    simp only [step, hpc, hn.metabuf, hgs, Option.bind_eq_bind, Option.bind_some, Option.isSome_some]
  case h_8 hpc => simpa only [step, hpc] using hi.trim_isSome hpc
  case h_9 r hpc => simpa only [step, hpc] using hi.flushStep_isSome r hpc
  case h_10 r hpc => simpa only [step, hpc] using hi.trimStep_isSome r hpc
  case h_11 hpc =>
    rw [WriterInv, hpc] at hi
    obtain ⟨t, -, hw, -, hlead, -, hg⟩ := hi
    simp only [step, hpc, hlead.tail, (hg.delTrimentry hw).1, if_true, Option.isSome_some]
  case h_12 ops hpc => simp only [step, hpc, if_pos (of_decide_eq_true hdue), Option.isSome_some]
  case h_13 => cases hdue

/-- An object whose value on disk is not the one in memory is in a sector that a trim will flush. -/
theorem dirty_sectors_grouped (hpc : s.pc = .idle) {k : Key} (hk : s.disk.sectors k ≠ s.node.metabuf k) :
    s.node.groups.workgrp.Holds k.1 ∨ s.node.groups.waitgrp.Holds k.1 := by
  have hi := reachable_inv hs
  rw [WriterInv, hpc] at hi
  obtain ⟨t, hd, hn⟩ := hi
  have hg := hn.groups
  by_contra hnone
  obtain ⟨hwork, hwait⟩ := not_or.1 hnone
  -- no transaction of the waiting group has written the object
  have htaken : Taken base s.committed s.node.groups.workgrp.ltxid s.committed.length k (s.disk.sectors k) := by
    have htaken := (hd.sectors k).mono hd.tl_le (le_refl _)
    rcases hg.chain with ⟨-, ht⟩ | hw
    · rwa [ht]
    · rw [← hw.chain]
      refine htaken.raise (fun htouch => hwait (hg.wait.covers k ?_)) hg.wait.hi
      rwa [hw.ltxid]
  obtain ⟨j, hj, hjlen, heq⟩ := htaken
  refine hk (heq.trans ?_)
  rw [hn.metabuf]
  refine stateAt_of_not_touches (fun htouch => hwork (hg.work.covers k ?_)) hj hjlen
  rwa [hg.rtxid]

end Runs

/-- The trim of the interrupted run, and its first sector write. -/
theorem log_assertions_hold_flush :
    (∃ s : Writer Nat, s.due .trim = true ∧ (s.step ⟨1, 1, 1⟩ .trim).isSome ∧ (s.node.needTrim ⟨1, 1, 1⟩).isSome) ∧
      ∃ s : Writer Nat, s.due (.io .ok) = true ∧ (s.step ⟨1, 1, 1⟩ (.io .ok)).isSome := by
  have hs (n : Nat) := ((writerSystem ⟨1, 1, 1⟩ 8 fun _ => 0).restrict fun _ ev => FailsCleanly ev).reachable_last
    (fresh 8 fun _ => 0) (interruptedRun.take n) (fresh_init ⟨1, 1, 1⟩ (by decide) _)
  obtain ⟨htrim, hneed⟩ := log_assertions_hold (hs 10 (by decide +kernel)) (show due _ .trim = true by decide +kernel)
  have hflush := log_assertions_hold (hs 11 (by decide +kernel)) (show due _ (.io .ok) = true by decide +kernel)
  exact ⟨⟨_, by decide +kernel, htrim, hneed rfl⟩, _, by decide +kernel, hflush.1⟩

/-- After the two commits of that run the sector on disk is as `mkfs` left it. -/
theorem dirty_sectors_grouped_two_commits : ∃ s : Writer Nat,
    s.disk.sectors (5, 0) ≠ s.node.metabuf (5, 0) ∧ (s.node.groups.workgrp.Holds 5 ∨ s.node.groups.waitgrp.Holds 5) := by
  have hs := ((writerSystem ⟨1, 1, 1⟩ 8 fun _ => 0).restrict fun _ ev => FailsCleanly ev).reachable_last
    (fresh 8 fun _ => 0) (interruptedRun.take 10) (fresh_init ⟨1, 1, 1⟩ (by decide) _) (by decide +kernel)
  have hk := dirty_sectors_grouped hs rfl (k := (5, 0)) (by decide +kernel)
  exact ⟨_, by decide +kernel, hk⟩

end PolarFs.Journal
