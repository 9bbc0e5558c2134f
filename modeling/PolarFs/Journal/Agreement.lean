/-
Failed commits: whether the writer, its followers and a recovering host agree on which transactions
took place, when device writes of a commit fail and may or may not have reached the disk.
-/
import PolarFs.Journal.Cluster
import PolarFs.Journal.Recovery

namespace PolarFs.Journal

open RedoLog Transition Cluster

variable {β : Type}

/-- Everyone agrees with the writer's history of committed transactions. -/
structure Agreement (base : Key → β) (s : Cluster β) : Prop where
  /-- the journal between tail and head is whole transactions with consecutive ids -/
  journal : logScan s.writer.disk.ring s.writer.disk.leader.logSize s.writer.disk.leader.tailOffset
    s.writer.disk.leader.tailTxid s.writer.disk.leader.headTxid =
      some (numbered s.writer.disk.leader.tailTxid
        (txSlice s.writer.committed s.writer.disk.leader.tailTxid s.writer.committed.length))
  /-- a recovering host ends with the committed transactions -/
  recovery : recover s.writer.disk = some (redo base s.writer.committed)
  /-- and so does the writer, between two requests -/
  writer : s.writer.pc = .idle → s.writer.node.metabuf = redo base s.writer.committed
  /-- a follower has applied the first ones of them, under their ids -/
  followers : ∀ i, (s.followers i).pc ≠ .off → FollowerAt base s.writer.committed (s.followers i).replayedAt (s.followers i)
  applied : ∀ i, ∀ t ∈ (s.followers i).applied, 0 < t.1 ∧ s.writer.committed[t.1 - 1]? = some t.2

/-- A leader write of `pfs_log_commit` that returns an error has not reached the disk. -/
def leaderWriteClean (s : Cluster β) : ClusterEvent β → Bool
  | .writer ev => s.writer.leaderWriteClean ev
  | .follower .. => true

theorem commitClean_of_leaderWriteClean {s : Cluster β} {ev : ClusterEvent β} (h : leaderWriteClean s ev = true) :
    ∀ wev, ev = .writer wev → CommitClean s.writer wev := by
  rintro wev rfl
  exact Writer.commitClean h

theorem Cluster.inv_reachable {o : TrimOptions} {size : Nat} {base : Key → β} {s : Cluster β}
    (hs : ((clusterSystem o size base).restrict fun s ev => leaderWriteClean s ev = true).Reachable s) :
    ClusterInv base size s :=
  hs.invariant_restrict (fun _ => init_inv) fun _ _ _ hi hok hstep =>
    step_inv hi (commitClean_of_leaderWriteClean hok) hstep

theorem ClusterInv.agreement {base : Key → β} {size : Nat} {s : Cluster β} (hi : ClusterInv base size s) :
    Agreement base s := by
  obtain ⟨tl, hd⟩ := hi.writer.disk
  refine ⟨hd.logScan, by rw [hd.recover, stateAt_length], fun hpc => ?_, fun i => (hi.followers i).replayedAt,
    fun i => (hi.followers i).1⟩
  have hw := hi.writer
  rw [WriterInv, hpc] at hw
  obtain ⟨t, hidle⟩ := hw
  rw [hidle.node.metabuf, stateAt_length]

/-- In every run in which no failed leader write of a commit reached the disk, a transaction reported as
failed is applied by nobody; journal entries of failed commits, failed flushes and failed leader
writes of trims may have landed. -/
theorem failed_commit_all_or_nothing {o : TrimOptions} {size : Nat} {base : Key → β} {s : Cluster β}
    (hs : ((clusterSystem o size base).restrict fun s ev => leaderWriteClean s ev = true).Reachable s) :
    Agreement base s :=
  (inv_reachable hs).agreement

/-! ## A commit whose leader write fails and lands -/

/-- A new file system with no host on it. -/
def Cluster.fresh (size : Nat) : Cluster Nat where
  writer := Writer.fresh size fun _ => 0
  followers _ := ⟨⟨LeaderRecord.mkfs size, fun _ => 0, ⟨TrimGroup.init, TrimGroup.init⟩⟩, .off, []⟩

theorem Cluster.fresh_init (o : TrimOptions) {size : Nat} (hs : 0 < size) :
    (clusterSystem o size fun _ => 0).init (fresh size) :=
  ⟨Writer.fresh_init o hs _, fun _ => ⟨rfl, rfl⟩⟩

/-- The first commit's leader write reports an error although it reached the disk; a follower joins
and finds the transaction; the writer reuses its id for another one. -/
def reusedTxidRun : List (ClusterEvent Nat) :=
  [.writer .mount, .writer (.commit [((5, 0), 7)]), .writer (.io .ok), .writer (.io (.fail true)),
    .follower 0 .join, .writer (.commit [((5, 0), 8)]), .writer (.io .ok), .writer (.io .ok), .writer .apply,
    .follower 0 .poll]

/-- The follower keeps another transaction under the id than the writer. -/
theorem not_agreement_reused_txid :
    ¬ ∀ (o : TrimOptions) (size : Nat) (s : Cluster Nat),
      (clusterSystem o size fun _ => 0).Reachable s → Agreement (fun _ => 0) s := by
  intro hall
  have hs := (clusterSystem ⟨1, 1, 1⟩ 8 fun _ => 0).reachable_last (fresh 8) reusedTxidRun
    (fresh_init ⟨1, 1, 1⟩ (by decide)) (by decide +kernel)
  have happ := (hall _ _ _ hs).applied 0 (1, [((5, 0), 7)]) (by decide +kernel)
  revert happ
  decide +kernel

/-- The theorem's runs include commits that fail after their entries, and a trim whose leader write
fails and lands. -/
def failingRun : List (ClusterEvent Nat) :=
  [.writer .mount, .writer (.commit [((5, 0), 7)]), .writer (.io .ok), .writer (.io .ok), .writer .apply,
    .follower 0 .join, .writer .trim, .writer (.io (.fail true)), .writer .trim, .writer (.io .ok),
    .writer (.io (.fail true)), .writer (.commit [((5, 0), 8), ((6, 0), 1)]), .writer (.io .ok),
    .writer (.io (.fail true)), .writer (.commit [((5, 1), 9)]), .writer (.io .ok), .writer (.io (.fail false)),
    .writer (.commit [((5, 1), 2)]), .writer (.io .ok), .writer (.io .ok), .writer .apply,
    .follower 0 .poll, .follower 0 .readEntry, .follower 0 .replay]

theorem failed_commit_all_or_nothing_failingRun : ∃ s : Cluster Nat,
    ((clusterSystem ⟨1, 1, 1⟩ 8 fun _ => 0).restrict fun s ev => leaderWriteClean s ev = true).Reachable s ∧
      s.writer.committed = [[((5, 0), 7)], [((5, 1), 2)]] ∧
      (s.followers 0).applied = [(1, [((5, 0), 7)]), (2, [((5, 1), 2)])] ∧ Agreement (fun _ => 0) s := by
  have hs := ((clusterSystem ⟨1, 1, 1⟩ 8 fun _ => 0).restrict fun s ev => leaderWriteClean s ev = true).reachable_last
    (fresh 8) failingRun (fresh_init ⟨1, 1, 1⟩ (by decide)) (by decide +kernel)
  exact ⟨_, hs, by decide +kernel, by decide +kernel, failed_commit_all_or_nothing hs⟩

/-! ## Followers over time -/

section Shown

variable {o : TrimOptions} {base : Key → β} {size p i j : Nat} {h : List (TxOps β)} {s s' : Cluster β}

/-- The history has grown from `h`, and follower `j` is not behind the first `p` transactions of it. -/
structure Shown (base : Key → β) (size : Nat) (h : List (TxOps β)) (p j : Nat) (s : Cluster β) : Prop where
  inv : ClusterInv base size s
  grown : ∃ h', s.writer.committed = h ++ h'
  seen : (s.followers j).pc ≠ .off → p ≤ (s.followers j).replayedAt

theorem Shown.step {ev : ClusterEvent β} (hi : Shown base size h p j s) (hp : p ≤ h.length)
    (hok : leaderWriteClean s ev = true) (hs : s.step o ev = some s') : Shown base size h p j s' := by
  obtain ⟨h', hh⟩ := hi.grown
  have hinv := step_inv hi.inv (commitClean_of_leaderWriteClean hok) hs
  cases ev with
  | writer wev =>
    obtain ⟨w, hw, rfl⟩ := Option.map_eq_some_iff.1 hs
    obtain ⟨h'', hh'⟩ := (Writer.step_advances hi.inv.writer hw).committed
    exact ⟨hinv, ⟨h' ++ h'', by rw [hh', hh, List.append_assoc]⟩, hi.seen⟩
  | follower k fev =>
    obtain ⟨f, hf, rfl⟩ := Option.map_eq_some_iff.1 hs
    obtain ⟨tl, hd⟩ := hi.inv.writer.disk
    have hp' : p ≤ s.writer.committed.length := by rw [hh, List.length_append]; omega
    refine ⟨hinv, ⟨h', hh⟩, ?_⟩
    by_cases hk : j = k
    · subst hk
      simpa only [Function.update_self] using Follower.le_replayedAt_step hd (hi.inv.followers j) hf hp' hi.seen
    · simpa only [Function.update_of_ne hk] using hi.seen

/-- What follower `i` shows is a part of what it shows in any later state, and of what a host shows that mounts
later, whatever the writer does between the steps of the hosts; a mount is one step. -/
theorem follower_reads_monotone
    (hs : ((clusterSystem o size base).restrict fun s ev => leaderWriteClean s ev = true).Reachable s)
    (hs' : ({ clusterSystem o size base with init := (· = s) }.restrict fun s ev => leaderWriteClean s ev = true).Reachable s')
    (hi : (s.followers i).pc ≠ .off) (hj : j = i ∨ (s.followers j).pc = .off) (hj' : (s'.followers j).pc ≠ .off) :
    ∃ p p', p ≤ p' ∧ (s.followers i).node.metabuf = stateAt base s'.writer.committed p ∧
      (s'.followers j).node.metabuf = stateAt base s'.writer.committed p' := by
  have hinv := inv_reachable hs
  have hat := (hinv.followers i).replayedAt hi
  obtain ⟨hinv', ⟨h', hh⟩, hseen⟩ : Shown base size s.writer.committed (s.followers i).replayedAt j s' := by
    refine hs'.invariant_restrict ?_ fun _ _ _ ht hok hstep => ht.step hat.le hok hstep
    rintro _ rfl
    refine ⟨hinv, ⟨[], (List.append_nil _).symm⟩, fun hup => ?_⟩
    rcases hj with rfl | hoff
    · exact le_refl _
    · exact absurd hoff hup
  refine ⟨_, _, hseen hj', ?_, ((hinv'.followers j).replayedAt hj').metabuf⟩
  rw [hh, stateAt_append_of_le hat.le]
  exact hat.metabuf

end Shown

/-- A second host mounts after another commit. -/
theorem follower_reads_monotone_later : ∃ s s' : Cluster Nat,
    s.writer.committed.length < s'.writer.committed.length ∧ ∃ p p', p ≤ p' ∧
      (s.followers 0).node.metabuf = stateAt (fun _ => 0) s'.writer.committed p ∧
      (s'.followers 1).node.metabuf = stateAt (fun _ => 0) s'.writer.committed p' := by
  have hs := System.reachable_last ((clusterSystem ⟨1, 1, 1⟩ 8 fun _ => 0).restrict fun s ev => leaderWriteClean s ev = true)
    (fresh 8) (failingRun.take 6) (fresh_init ⟨1, 1, 1⟩ (by decide)) (by decide +kernel)
  refine ⟨_, _, ?_, follower_reads_monotone hs (System.reachable_last _ _ (failingRun.drop 6 ++ [.follower 1 .join]) rfl
    (by decide +kernel)) nofun (Or.inr rfl) nofun⟩
  decide +kernel

end PolarFs.Journal
