/-
Write-ahead crash recovery: at every point of every run of a writable host, the device holds exactly
the transactions whose leader write completed, as far as a mount can tell.
-/
import PolarFs.Journal.WriterInvariant

namespace PolarFs.Journal

open RedoLog Transition

variable {β : Type} {o : TrimOptions} {size : Nat} {base : Key → β} {s : Writer β}

/-- A device write that fails leaves the device as it was. -/
def FailsCleanly (ev : Event β) : Prop := ev ≠ .io (.fail true)

instance (ev : Event β) : Decidable (FailsCleanly ev) :=
  match ev with
  | .io (.fail true) => isFalse fun h => h rfl
  | .io (.fail false) => isTrue fun h => by cases h
  | .io .ok => isTrue fun h => by cases h
  | .mount | .replayInsert _ | .commit _ | .apply | .swap _ _ _ | .trim | .delTrimentry | .crash =>
    isTrue fun h => by cases h

theorem FailsCleanly.commitClean {ev : Event β} (h : FailsCleanly ev) : CommitClean s ev := by
  rintro ops lrbak landed _ rfl
  cases landed with
  | false => rfl
  | true => exact absurd rfl h

/-- Loading the metadata sectors on disk and replaying the journal of the leader record gives the
metadata of the committed transactions, whatever the host was doing when it stopped. -/
theorem crash_recovery
    (hs : ((writerSystem o size base).restrict fun _ ev => FailsCleanly ev).Reachable s) :
    recover s.disk = some (redo base s.committed) := by
  have hi : WriterInv base size s :=
    hs.invariant_restrict (fun _ => Writer.init_inv) fun _ _ _ hi hok hstep => Writer.step_inv hi hok.commitClean hstep
  obtain ⟨tl, hd⟩ := hi.disk
  rw [hd.recover, stateAt_length]

/-- A new file system on which nothing is mounted. -/
def Writer.fresh (size : Nat) (base : Key → Nat) : Writer Nat where
  disk := ⟨base, fun _ => ⟨0, 0, (0, 0), 0, false⟩, LeaderRecord.mkfs size⟩
  node := ⟨LeaderRecord.mkfs size, base, ⟨TrimGroup.init, TrimGroup.init⟩⟩
  pc := .down
  committed := []

theorem Writer.fresh_init (o : TrimOptions) {size : Nat} (hs : 0 < size) (base : Key → Nat) :
    (writerSystem o size base).init (Writer.fresh size base) :=
  ⟨hs, rfl, rfl, rfl, rfl⟩

/-- Two commits, a trim that stops after its first sector, a mount, and a commit that stops between
its entry and its leader write. -/
def interruptedRun : List (Event Nat) :=
  [.mount, .commit [((5, 0), 7)], .io .ok, .io .ok, .apply,
    .commit [((5, 0), 8), ((6, 1), 9)], .io .ok, .io .ok, .io .ok, .apply, .trim, .io .ok, .crash,
    .mount, .replayInsert true, .replayInsert true, .commit [((6, 1), 10)], .io .ok, .io (.fail false),
    .commit [((6, 1), 11)], .io .ok, .crash]

/-- The theorem is not vacuous: in this run the sector on disk still has an object's first value. -/
theorem crash_recovery_interrupted : ∃ s : Writer Nat,
    ((writerSystem ⟨1, 1, 1⟩ 8 fun _ => 0).restrict fun _ ev => FailsCleanly ev).Reachable s ∧
      s.disk.sectors (5, 0) = 7 ∧ s.committed = [[((5, 0), 7)], [((5, 0), 8), ((6, 1), 9)]] ∧
      recover s.disk = some (redo (fun _ => 0) s.committed) := by
  have hs := ((writerSystem ⟨1, 1, 1⟩ 8 fun _ => 0).restrict fun _ ev => FailsCleanly ev).reachable_last
    (Writer.fresh 8 fun _ => 0) interruptedRun (Writer.fresh_init ⟨1, 1, 1⟩ (by decide) _) (by decide +kernel)
  exact ⟨_, hs, by decide +kernel, by decide +kernel, crash_recovery hs⟩

end PolarFs.Journal
