/-
The bad-sector wait of an acquisition (`pfs_rw_lease_wait_bad_sectors`). The sectors of the other hosts
may hold anything at any moment and reads may fail; LEASE_CLOCK moves by any amount between two steps.

The reads of the wait are recorded with their times. When the wait returns 0, each sector was read as
empty or valid, or is in the dead set with bytes that two reads a window apart and all reads between
them saw; the later scans skip a corrupt sector only while it holds exactly these bytes.
-/
import PolarFs.Lease.Protocol

namespace PolarFs.Lease

open Transition DeadSector

/-! ## The reads of a wait -/

/-- A read of another host's sector, with LEASE_CLOCK at that moment. -/
structure SectorRead where
  hostId : Nat
  rd : RecordRead
  time : Nat

/-- `rv == 0 || rv == PFS_OK`. -/
def RecordRead.good : RecordRead → Bool
  | .empty | .valid _ => true
  | _ => false

/-- The read failed. -/
def RecordRead.unreadable : RecordRead → Bool
  | .ioError _ => true
  | _ => false

/-- A host that acquires the lease, with the reads of its bad-sector wait, the last one first. -/
structure Acquisition where
  host : Host
  reads : List SectorRead

/-- The sector that the next step of the wait reads. -/
def Pc.badRead (cfg : Config) (id : Nat) : Pc → Option Nat
  | .badScan i _ => if cfg.numHosts < i ∨ i = id then none else some i
  | .badReread _ _ (it :: _) _ => some it.hostId
  | _ => none

/-- The host goes on, with an outcome of the I/O and any contents of the sectors, or time passes. -/
inductive AcquisitionEvent where
  | run (io : Io) (sectors : Nat → HostRecord)
  | tick (δ : Nat)

def Acquisition.step (cfg : Config) (id : Nat) (a : Acquisition) : AcquisitionEvent → Option Acquisition
  | .run io sectors => some
    { host := (hostStep cfg id io sectors a.host).1
      reads := match a.host.pc.badRead cfg id with
        | some i => ⟨i, hostRecordRead cfg io (sectors i), a.host.bt⟩ :: a.reads
        | none => a.reads }
  | .tick δ => some { a with host := a.host.tick δ }

/-- The acquisition of host `id`, from the first read of the wait on. -/
def acquisitionSystem (cfg : Config) (id : Nat) : System Acquisition AcquisitionEvent where
  init a := a.host.pc = .badScan 1 [] ∧ a.reads = []
  step := Acquisition.step cfg id

/-- The reads of one sector. -/
def readsOf (reads : List SectorRead) (i : Nat) : List SectorRead := reads.filter fun r => r.hostId = i

@[simp] theorem readsOf_cons_self (reads : List SectorRead) (r : SectorRead) :
    readsOf (r :: reads) r.hostId = r :: readsOf reads r.hostId := by
  simp [readsOf]

variable {r : SectorRead} {now : Nat}

theorem readsOf_cons_of_ne (reads : List SectorRead) {i : Nat} (h : r.hostId ≠ i) :
    readsOf (r :: reads) i = readsOf reads i := by
  simp [readsOf, h]

/-- The hosts whose sectors are watched. -/
def Other (cfg : Config) (id i : Nat) : Prop := 1 ≤ i ∧ i ≤ cfg.numHosts ∧ i ≠ id

/-- The expiry window in nanoseconds. -/
def windowNsec (cfg : Config) : Nat := (cfg.leaseDuration + cfg.clockSkewMax + 1) * nsecPerSec

/-- Elapsed seconds are rounded down. -/
theorem le_of_leaseElapsedSec {since w : Nat} (h : leaseElapsedSec since now ≥ w) : since + w * nsecPerSec ≤ now := by
  unfold leaseElapsedSec tvSec tvNsec nsecPerSec at h
  unfold nsecPerSec
  split at h <;> omega

/-- Two reads of a sector a window apart, between which all reads saw the same corrupt bytes. -/
def DeadEvidence (cfg : Config) (d : DeadSector) (reads : List SectorRead) : Prop :=
  ∃ a r₂ b r₁ c, reads = a ++ r₂ :: (b ++ r₁ :: c) ∧ (∀ r ∈ r₂ :: r₁ :: b, r.rd.corrupt = some d.raw) ∧
    r₁.time + windowNsec cfg ≤ r₂.time

/-! ## The invariant of the wait -/

/-- A sector that is not watched any more: its last read did not fail, and one found it empty or valid or it
is in the dead set. -/
structure Settled (dead : List DeadSector) (reads : List SectorRead) (i : Nat) : Prop where
  last : ∃ r rest, reads = r :: rest ∧ r.rd.unreadable = false
  judged : (∃ r ∈ reads, r.rd.good = true) ∨ ∃ d ∈ dead, d.hostId = i

/-- A watched sector that was found corrupt has held its bytes since a read before `since`. -/
def Watched (it : BadSector) (reads : List SectorRead) : Prop :=
  ∀ raw, it.state = .corrupt raw → ∃ b r c, reads = b ++ r :: c ∧ (∀ x ∈ r :: b, x.rd.corrupt = some raw) ∧
    r.time ≤ it.since

/-- What holds of the hosts in `H`, with `bad` the watched sectors. -/
structure WaitInv (cfg : Config) (H : Nat → Prop) (bt : Nat) (reads : List SectorRead) (bad : List BadSector)
    (dead : List DeadSector) : Prop where
  host : ∀ i, H i → (∃ it ∈ bad, it.hostId = i) ∨ Settled dead (readsOf reads i) i
  watched : ∀ it ∈ bad, H it.hostId ∧ Watched it (readsOf reads it.hostId) ∧ it.since ≤ bt
  nodup : (bad.map BadSector.hostId ++ dead.map hostId).Nodup
  dead : ∀ d ∈ dead, H d.hostId ∧ DeadEvidence cfg d (readsOf reads d.hostId)

/-- The dead set of an acquisition whose wait is over. -/
structure DeadOk (cfg : Config) (reads : List SectorRead) (dead : List DeadSector) : Prop where
  nodup : (dead.map hostId).Nodup
  evidence : ∀ d ∈ dead, DeadEvidence cfg d (readsOf reads d.hostId)

variable {cfg : Config} {id : Nat} {H H' : Nat → Prop} {bt : Nat} {reads : List SectorRead} {bad : List BadSector}
  {dead : List DeadSector} {it : BadSector} {rest : List SectorRead} {seen : Nat} {pc : Pc}

namespace WaitInv

variable (h : WaitInv cfg H bt reads bad dead)

include h

theorem deadOk : DeadOk cfg reads dead :=
  ⟨(List.nodup_append.1 h.nodup).2.1, fun d hd => (h.dead d hd).2⟩

theorem mono {bt' : Nat} (hle : bt ≤ bt') : WaitInv cfg H bt' reads bad dead :=
  { h with watched := fun it hit => ⟨(h.watched it hit).1, (h.watched it hit).2.1, le_trans (h.watched it hit).2.2 hle⟩ }

theorem congr (hH : ∀ i, H i ↔ H' i) : WaitInv cfg H' bt reads bad dead :=
  ⟨fun i hi => h.host i ((hH i).2 hi), fun it hit => ⟨(hH _).1 (h.watched it hit).1, (h.watched it hit).2⟩, h.nodup,
    fun d hd => ⟨(hH _).1 (h.dead d hd).1, (h.dead d hd).2⟩⟩

theorem read (hr : ¬ H r.hostId) : WaitInv cfg H bt (r :: reads) bad dead := by
  have hne : ∀ i, H i → readsOf (r :: reads) i = readsOf reads i := by
    intro i hi
    refine readsOf_cons_of_ne reads ?_
    rintro rfl
    exact hr hi
  refine ⟨fun i hi => ?_, fun it hit => ?_, h.nodup, fun d hd => ?_⟩
  · rw [hne i hi]
    exact h.host i hi
  · obtain ⟨hH, hw, hs⟩ := h.watched it hit
    rw [hne _ hH]
    exact ⟨hH, hw, hs⟩
  · obtain ⟨hH, hev⟩ := h.dead d hd
    rw [hne _ hH]
    exact ⟨hH, hev⟩

theorem settle {i : Nat} (hs : Settled dead (readsOf reads i) i) (hH : ∀ j, H' j ↔ H j ∨ j = i) :
    WaitInv cfg H' bt reads bad dead := by
  refine ⟨fun j hj => ?_, fun it hit => ⟨(hH _).2 (.inl (h.watched it hit).1), (h.watched it hit).2⟩, h.nodup,
    fun d hd => ⟨(hH _).2 (.inl (h.dead d hd).1), (h.dead d hd).2⟩⟩
  rcases (hH j).1 hj with hj | rfl
  · exact h.host j hj
  · exact .inr hs

/-- One more host, whose sector is watched from now on; `bad'` has it in some place. -/
theorem watch (it : BadSector) {bad' : List BadSector} (hperm : bad'.Perm (it :: bad)) (hnew : ¬ H it.hostId)
    (hw : Watched it (readsOf reads it.hostId)) (hs : it.since ≤ bt) (hH : ∀ j, H' j ↔ H j ∨ j = it.hostId) :
    WaitInv cfg H' bt reads bad' dead := by
  have hmem : ∀ x, x ∈ bad' ↔ x = it ∨ x ∈ bad := fun x => by rw [hperm.mem_iff, List.mem_cons]
  refine ⟨fun j hj => ?_, fun x hx => ?_, ?_, fun d hd => ⟨(hH _).2 (.inl (h.dead d hd).1), (h.dead d hd).2⟩⟩
  · rcases (hH j).1 hj with hj | rfl
    · rcases h.host j hj with ⟨x, hx, hxj⟩ | hset
      · exact .inl ⟨x, (hmem x).2 (.inr hx), hxj⟩
      · exact .inr hset
    · exact .inl ⟨it, (hmem it).2 (.inl rfl), rfl⟩
  · rcases (hmem x).1 hx with rfl | hx
    · exact ⟨(hH _).2 (.inr rfl), hw, hs⟩
    · exact ⟨(hH _).2 (.inl (h.watched x hx).1), (h.watched x hx).2⟩
  · have hp : (bad'.map BadSector.hostId ++ dead.map hostId).Perm
        (it.hostId :: (bad.map BadSector.hostId ++ dead.map hostId)) :=
      (hperm.map _).append_right _
    refine hp.nodup_iff.2 (List.nodup_cons.2 ⟨fun hin => ?_, h.nodup⟩)
    rcases List.mem_append.1 hin with hin | hin
    · obtain ⟨x, hx, hxi⟩ := List.mem_map.1 hin
      exact hnew (hxi ▸ (h.watched x hx).1)
    · obtain ⟨d, hd, hdi⟩ := List.mem_map.1 hin
      exact hnew (hdi ▸ (h.dead d hd).1)

omit h in
/-- The watched sector that is read next, taken out of the watch. -/
theorem unwatch {todo : List BadSector} {done : List BadSector} (h : WaitInv cfg H bt reads (done ++ it :: todo) dead) :
    WaitInv cfg (fun j => H j ∧ j ≠ it.hostId) bt reads (done ++ todo) dead := by
  have hperm : ((done ++ it :: todo).map BadSector.hostId ++ dead.map hostId).Perm
      (it.hostId :: ((done ++ todo).map BadSector.hostId ++ dead.map hostId)) :=
    (List.perm_middle.map _).append_right _
  obtain ⟨hnew, hnd⟩ := List.nodup_cons.1 (hperm.nodup_iff.1 h.nodup)
  have hne : ∀ x ∈ done ++ todo, x.hostId ≠ it.hostId := fun x hx heq =>
    hnew (List.mem_append_left _ (heq ▸ List.mem_map_of_mem hx))
  refine ⟨fun j ⟨hj, hji⟩ => ?_, fun x hx => ?_, hnd, fun d hd => ?_⟩
  · rcases h.host j hj with ⟨x, hx, hxj⟩ | hset
    · refine .inl ⟨x, ?_, hxj⟩
      simp only [List.mem_append, List.mem_cons] at hx ⊢
      rcases hx with hx | rfl | hx
      · exact .inl hx
      · exact absurd hxj.symm hji
      · exact .inr hx
    · exact .inr hset
  · have hx' : x ∈ done ++ it :: todo := by
      simp only [List.mem_append, List.mem_cons] at hx ⊢
      tauto
    obtain ⟨hH, hw⟩ := h.watched x hx'
    exact ⟨⟨hH, hne x hx⟩, hw⟩
  · obtain ⟨hH, hev⟩ := h.dead d hd
    refine ⟨⟨hH, fun heq => hnew (List.mem_append_right _ (heq ▸ List.mem_map_of_mem hd))⟩, hev⟩

theorem bury {d : DeadSector} (hnew : ¬ H d.hostId) (hev : DeadEvidence cfg d (readsOf reads d.hostId))
    (hlast : ∃ r rest, readsOf reads d.hostId = r :: rest ∧ r.rd.unreadable = false)
    (hH : ∀ j, H' j ↔ H j ∨ j = d.hostId) : WaitInv cfg H' bt reads bad (dead ++ [d]) := by
  refine ⟨fun j hj => ?_, fun it hit => ⟨(hH _).2 (.inl (h.watched it hit).1), (h.watched it hit).2⟩, ?_, fun x hx => ?_⟩
  · rcases (hH j).1 hj with hj | rfl
    · rcases h.host j hj with hw | ⟨hl, hg | ⟨x, hx, hxj⟩⟩
      · exact .inl hw
      · exact .inr ⟨hl, .inl hg⟩
      · exact .inr ⟨hl, .inr ⟨x, List.mem_append_left _ hx, hxj⟩⟩
    · exact .inr ⟨hlast, .inr ⟨d, by simp, rfl⟩⟩
  · rw [List.map_append, ← List.append_assoc]
    refine List.nodup_append.2 ⟨h.nodup, List.nodup_singleton _, ?_⟩
    rintro j hj _ hd rfl
    rw [List.mem_singleton.1 hd] at hj
    rcases List.mem_append.1 hj with hj | hj
    · obtain ⟨x, hx, hxi⟩ := List.mem_map.1 hj
      exact hnew (hxi ▸ (h.watched x hx).1)
    · obtain ⟨x, hx, hxi⟩ := List.mem_map.1 hj
      exact hnew (hxi ▸ (h.dead x hx).1)
  · rcases List.mem_append.1 hx with hx | hx
    · exact ⟨(hH _).2 (.inl (h.dead x hx).1), (h.dead x hx).2⟩
    · rw [List.mem_singleton.1 hx]
      exact ⟨(hH _).2 (.inr rfl), hev⟩

end WaitInv

/-! ## One re-read -/

/-- What the body of the re-read loop does with a watched sector: `rest` are the reads before this one, which
was made after `now` and before `seen`. -/
structure VerdictOk (cfg : Config) (it : BadSector) (r : SectorRead) (rest : List SectorRead) (seen : Nat)
    (v : BadVerdict) : Prop where
  gone : v = .gone → r.rd.good = true
  dead : ∀ d, v = .dead d → d.hostId = it.hostId ∧ r.rd.unreadable = false ∧ DeadEvidence cfg d (r :: rest)
  keep : ∀ it', v = .keep it' → it'.hostId = it.hostId ∧ Watched it' (r :: rest) ∧ it'.since ≤ seen

/-- The end of the loop body, on a sector found as it was. -/
theorem Watched.window {raw : HostRecord} (h : Watched it rest) (hst : it.state = .corrupt raw)
    (hr : r.rd.corrupt = some raw) (hnow : now ≤ r.time) (hs : it.since ≤ seen) :
    VerdictOk cfg it r rest seen (badWindow cfg now it) := by
  obtain ⟨b, r₁, c, rfl, hsame, htime⟩ := h raw hst
  unfold badWindow
  split
  case isTrue hw =>
    rw [hst]
    have hle := le_of_leaseElapsedSec (w := cfg.leaseDuration + cfg.clockSkewMax + 1) (by exact_mod_cast hw)
    refine ⟨nofun, ?_, nofun⟩
    rintro d ⟨⟩
    refine ⟨rfl, ?_, [], r, b, r₁, c, rfl, ?_, ?_⟩
    · cases hrd : r.rd <;> rw [hrd] at hr <;> simp [RecordRead.corrupt] at hr <;> rfl
    · intro x hx
      rcases List.mem_cons.1 hx with rfl | hx
      · exact hr
      · exact hsame x hx
    · unfold windowNsec
      omega
  case isFalse =>
    refine ⟨nofun, nofun, ?_⟩
    rintro it' ⟨⟩
    refine ⟨rfl, ?_, hs⟩
    intro raw' hst'
    obtain rfl : raw = raw' := BadState.corrupt.inj (hst.symm.trans hst')
    refine ⟨r :: b, r₁, c, rfl, ?_, htime⟩
    intro x hx
    rcases List.mem_cons.1 hx with rfl | hx
    · exact hsame x List.mem_cons_self
    · rcases List.mem_cons.1 hx with rfl | hx
      · exact hr
      · exact hsame x (List.mem_cons_of_mem _ hx)

/-- The end of the loop body, on a sector whose window has just begun again. -/
theorem verdict_restart {it' : BadSector} (hid : it'.hostId = it.hostId) (hsince : it'.since = seen) (hnow : now ≤ seen)
    (hw : Watched it' (r :: rest)) : VerdictOk cfg it r rest seen (badWindow cfg now it') := by
  have hlt : ¬ leaseElapsedSec it'.since now ≥ cfg.leaseDuration + cfg.clockSkewMax + 1 := by
    intro h
    have := le_of_leaseElapsedSec (w := cfg.leaseDuration + cfg.clockSkewMax + 1) (by exact_mod_cast h)
    unfold nsecPerSec at this
    omega
  rw [badWindow, if_neg hlt]
  refine ⟨nofun, nofun, ?_⟩
  rintro _ ⟨⟩
  exact ⟨hid, hw, le_of_eq hsince⟩

/-- A sector that stays unreadable is kept or given up. -/
theorem verdict_unreadable (hst : it.state = .unreadable) (hs : it.since ≤ seen) :
    VerdictOk cfg it r rest seen (badWindow cfg now it) := by
  unfold badWindow
  split
  · rw [hst]
    exact ⟨nofun, nofun, nofun⟩
  · refine ⟨nofun, nofun, ?_⟩
    rintro _ ⟨⟩
    refine ⟨rfl, fun raw hraw => ?_, hs⟩
    rw [hst] at hraw
    cases hraw

/-- A corrupt read of a sector that was unreadable starts its window. -/
theorem watched_new {raw : HostRecord} {n : Nat} (hr : r.rd.corrupt = some raw) (ht : r.time ≤ seen) :
    Watched ⟨it.hostId, .corrupt raw, n, seen⟩ (r :: rest) := by
  rintro raw' ⟨⟩
  exact ⟨[], r, rest, rfl, by simpa using hr, ht⟩

theorem badVerdict_ok (h : Watched it rest) (hnow : now ≤ r.time) (ht : r.time ≤ seen) (hs : it.since ≤ seen) :
    VerdictOk cfg it r rest seen (badVerdict cfg now seen it r.rd) := by
  have hbusy : VerdictOk cfg it r rest seen .busy := ⟨nofun, nofun, nofun⟩
  -- a sector whose bytes changed is given up, one with the same bytes is judged by its window
  have hcorrupt : ∀ raw, r.rd.corrupt = some raw →
      VerdictOk cfg it r rest seen (badVerdict cfg now seen it (.emagic raw)) := by
    intro raw hr
    unfold badVerdict
    cases hst : it.state with
    | unreadable =>
      dsimp only
      split
      · exact hbusy
      · exact verdict_restart rfl rfl (le_trans hnow ht) (watched_new hr ht)
    | corrupt old =>
      dsimp only
      split
      · exact hbusy
      · rename_i heq
        exact h.window (not_not.1 heq ▸ hst) hr hnow hs
  cases hrd : r.rd with
  | empty | valid hr => exact ⟨fun _ => by rw [hrd]; rfl, nofun, nofun⟩
  | ioError rv =>
    unfold badVerdict
    cases hst : it.state with
    | unreadable => exact verdict_unreadable hst hs
    | corrupt old =>
      dsimp only
      split
      · exact hbusy
      · exact verdict_restart rfl rfl (le_trans hnow ht) nofun
  | emagic raw | echecksum raw =>
    have := hcorrupt raw (by rw [hrd]; rfl)
    unfold badVerdict at this ⊢
    cases hst : it.state <;> rw [hst] at this <;> exact this

/-! ## The whole acquisition -/

/-- The program points of the wait and its return. -/
def Pc.waiting : Pc → Bool
  | .badScan .. | .badSeen .. | .badSleep .. | .badReread .. | .badJudge .. | .checkNow _ .first => true
  | _ => false

/-- The dead set that a program point after the wait holds. -/
def Pc.deadSet : Pc → Option (List DeadSector)
  | .checkNow dead _ | .check dead .. | .waitStart dead _ | .waitSleep dead .. | .waitPoll dead ..
  | .readGeneration dead | .prepareStart dead | .prepareNow dead _ | .prepareWrite dead .. | .verifyNow dead _
  | .verify dead .. | .acquireStart dead _ | .acquireNow dead .. | .acquireWrite dead .. | .prepareExpiry dead _
  | .conflictNow dead | .conflict dead .. => some dead
  | _ => none

theorem hostStep_deadSet (io : Io) (sectors : Nat → HostRecord) {h : Host}
    (hpc : h.pc.waiting = false ∨ ∃ dead, h.pc = .checkNow dead .first) :
    (hostStep cfg id io sectors h).1.pc.waiting = false ∧
      ((hostStep cfg id io sectors h).1.pc.deadSet = none ∨ (hostStep cfg id io sectors h).1.pc.deadSet = h.pc.deadSet) := by
  cases hp : h.pc
  case badScan | badSeen | badSleep | badReread | badJudge =>
    rw [hp] at hpc
    rcases hpc with hpc | ⟨dead, hpc⟩ <;> cases hpc
  case checkNow dead call => simp [hostStep, hp, Host.goto, Pc.waiting, Pc.deadSet]
  all_goals
    simp only [hostStep, hp, Host.killTimerArm]
    (repeat' split) <;> simp [Host.goto, Pc.waiting, Pc.deadSet, *]

/-- What holds at a program point. -/
def PcWait (cfg : Config) (id bt : Nat) (reads : List SectorRead) : Pc → Prop
  | .badScan i bad => WaitInv cfg (fun j => Other cfg id j ∧ j < i) bt reads bad [] ∧ 1 ≤ i
  | .badSeen i bad state => WaitInv cfg (fun j => Other cfg id j ∧ j < i) bt reads bad [] ∧ Other cfg id i ∧
      ∃ r rest, readsOf reads i = r :: rest ∧ r.time ≤ bt ∧ ∀ raw, state = .corrupt raw → r.rd.corrupt = some raw
  | .badSleep bad dead => WaitInv cfg (Other cfg id) bt reads bad dead
  | .badReread now done todo dead => now ≤ bt ∧ WaitInv cfg (Other cfg id) bt reads (done ++ todo) dead
  | .badJudge now done it todo dead rd =>
      WaitInv cfg (fun j => Other cfg id j ∧ j ≠ it.hostId) bt reads (done ++ todo) dead ∧ Other cfg id it.hostId ∧
      it.since ≤ bt ∧ ∃ r rest, readsOf reads it.hostId = r :: rest ∧ r.rd = rd ∧ now ≤ r.time ∧ r.time ≤ bt ∧
        Watched it rest
  | .checkNow dead .first => WaitInv cfg (Other cfg id) bt reads [] dead
  | pc => ∀ dead, pc.deadSet = some dead → DeadOk cfg reads dead

theorem PcWait.mono {bt bt' : Nat} (h : PcWait cfg id bt reads pc) (hle : bt ≤ bt') : PcWait cfg id bt' reads pc := by
  cases pc
  case badScan => exact ⟨h.1.mono hle, h.2⟩
  case badSeen =>
    obtain ⟨hw, ho, r, rest, hr, ht, hst⟩ := h
    exact ⟨hw.mono hle, ho, r, rest, hr, le_trans ht hle, hst⟩
  case badSleep => exact WaitInv.mono h hle
  case badReread => exact ⟨le_trans h.1 hle, h.2.mono hle⟩
  case badJudge =>
    obtain ⟨hw, ho, hs, r, rest, hr, hrd, hnow, ht, hwat⟩ := h
    exact ⟨hw.mono hle, ho, le_trans hs hle, r, rest, hr, hrd, hnow, le_trans ht hle, hwat⟩
  case checkNow dead call =>
    cases call
    case first => exact WaitInv.mono h hle
    case recheck => exact h
  all_goals exact h

theorem PcWait.deadOk (h : PcWait cfg id bt reads pc) {dead : List DeadSector} (hd : pc.deadSet = some dead) :
    DeadOk cfg reads dead := by
  cases pc
  case badScan | badSeen | badSleep | badReread | badJudge => cases hd
  case checkNow dead' call =>
    cases call
    case first =>
      cases hd
      exact WaitInv.deadOk h
    case recheck => exact h dead hd
  all_goals exact h dead hd

/-- A program point after the wait, with a dead set as before. -/
theorem pcWait_of_deadSet (hw : pc.waiting = false) (h : ∀ dead, pc.deadSet = some dead → DeadOk cfg reads dead) :
    PcWait cfg id bt reads pc := by
  cases pc
  case badScan | badSeen | badSleep | badReread | badJudge => cases hw
  case checkNow dead call =>
    cases call
    case first => cases hw
    case recheck => exact h
  all_goals exact h

theorem hostStep_bt (io : Io) (sectors : Nat → HostRecord) (h : Host) : (hostStep cfg id io sectors h).1.bt = h.bt := by
  cases hp : h.pc
  case badReread _ _ todo _ => cases todo <;> simp [hostStep, hp, Host.goto]
  all_goals
    simp only [hostStep, hp, Host.killTimerArm]
    repeat' split
  all_goals rfl

/-- The invariant of an acquisition. -/
def AcqInv (cfg : Config) (id : Nat) (a : Acquisition) : Prop := PcWait cfg id a.host.bt a.reads a.host.pc

theorem Other.lt_succ_iff {i j : Nat} (h : Other cfg id i) :
    Other cfg id j ∧ j < i + 1 ↔ (Other cfg id j ∧ j < i) ∨ j = i := by
  rw [Nat.lt_succ_iff_lt_or_eq, and_or_left]
  exact or_congr_right (and_iff_right_of_imp fun heq => heq ▸ h)

theorem AcqInv.wait {a : Acquisition} {io : Io} {sectors : Nat → HostRecord} (h : AcqInv cfg id a)
    (hpc : a.host.pc.waiting = true) (hne : ∀ dead, a.host.pc ≠ .checkNow dead .first) :
    PcWait cfg id a.host.bt (match a.host.pc.badRead cfg id with
      | some i => ⟨i, hostRecordRead cfg io (sectors i), a.host.bt⟩ :: a.reads
      | none => a.reads) (hostStep cfg id io sectors a.host).1.pc := by
  unfold AcqInv at h
  cases hp : a.host.pc
  all_goals (rw [hp] at h hpc; try (cases hpc))
  all_goals simp only [hostStep, hp, Pc.badRead]
  case badScan i bad =>
    obtain ⟨hw, hi⟩ := h
    by_cases hgt : cfg.numHosts < i
    · rw [if_pos hgt, if_pos (.inl hgt)]
      exact hw.congr fun j => ⟨fun hj => hj.1, fun hj => ⟨hj, lt_of_le_of_lt hj.2.1 hgt⟩⟩
    by_cases hid : i = id
    · rw [if_neg hgt, if_pos hid, if_pos (.inr hid)]
      refine ⟨hw.congr fun j => ?_, Nat.le_succ_of_le hi⟩
      constructor
      · exact fun hj => ⟨hj.1, Nat.lt_succ_of_lt hj.2⟩
      · rintro ⟨hj, hlt⟩
        refine ⟨hj, lt_of_le_of_ne (Nat.lt_succ_iff.1 hlt) fun heq => hj.2.2 (heq.trans hid)⟩
    · have hother : Other cfg id i := ⟨hi, not_lt.1 hgt, hid⟩
      rw [if_neg hgt, if_neg hid, if_neg (not_or.2 ⟨hgt, hid⟩)]
      -- the read is the first one of this sector
      have hread : ∀ rd, WaitInv cfg (fun j => Other cfg id j ∧ j < i) a.host.bt
          (⟨i, rd, a.host.bt⟩ :: a.reads) bad [] := fun rd => hw.read fun hlt => lt_irrefl i hlt.2
      have hof : ∀ rd, readsOf (⟨i, rd, a.host.bt⟩ :: a.reads) i = ⟨i, rd, a.host.bt⟩ :: readsOf a.reads i :=
        fun rd => readsOf_cons_self a.reads ⟨i, rd, a.host.bt⟩
      have hgood : ∀ rd, rd.good = true → PcWait cfg id a.host.bt (⟨i, rd, a.host.bt⟩ :: a.reads)
          (.badScan (i + 1) bad) := by
        intro rd hg
        refine ⟨(hread rd).settle ?_ fun _ => hother.lt_succ_iff, Nat.le_succ_of_le hi⟩
        rw [hof]
        refine ⟨⟨_, _, rfl, ?_⟩, .inl ⟨_, List.mem_cons_self, hg⟩⟩
        cases rd <;> first | rfl | cases hg
      have hbad : ∀ rd state, (∀ raw, state = .corrupt raw → rd.corrupt = some raw) →
          PcWait cfg id a.host.bt (⟨i, rd, a.host.bt⟩ :: a.reads) (.badSeen i bad state) :=
        fun rd state hst => ⟨hread rd, hother, _, _, hof rd, le_refl _, hst⟩
      dsimp only
      generalize hostRecordRead cfg io (sectors i) = rd
      cases rd with
      | empty | valid hr => exact hgood _ rfl
      | ioError rv => exact hbad _ _ nofun
      | emagic raw | echecksum raw => exact hbad _ _ fun _ heq => by cases heq; rfl
  case badSeen i bad state =>
    obtain ⟨hw, ho, r, rest, hr, ht, hst⟩ := h
    refine ⟨hw.watch ⟨i, state, 0, a.host.bt⟩ (List.perm_append_singleton _ _) (fun hlt => lt_irrefl i hlt.2) ?_
      (le_refl _) fun _ => ho.lt_succ_iff, Nat.le_succ_of_le ho.1⟩
    intro raw hraw
    exact ⟨[], r, rest, hr, by simpa using hst raw hraw, ht⟩
  case badSleep bad dead =>
    cases bad with
    | nil => exact h
    | cons it bad => exact ⟨le_refl _, h⟩
  case badReread now done todo dead =>
    obtain ⟨hnow, hw⟩ := h
    cases todo with
    | nil =>
      rw [List.append_nil] at hw
      exact hw
    | cons it todo =>
      obtain ⟨hother, hwat, hs⟩ := hw.watched it (by simp)
      exact ⟨hw.unwatch.read fun hj => hj.2 rfl, hother, hs, ⟨it.hostId, _, a.host.bt⟩, readsOf a.reads it.hostId,
        readsOf_cons_self a.reads ⟨it.hostId, _, a.host.bt⟩, rfl, hnow, le_refl _, hwat⟩
  case badJudge now done it todo dead rd =>
    obtain ⟨hw, ho, hs, r, rest, hr, rfl, hnow, ht, hwat⟩ := h
    have hnowbt : now ≤ a.host.bt := le_trans hnow ht
    have hverdict : VerdictOk cfg it r rest a.host.bt _ := badVerdict_ok hwat hnow ht hs
    have hH : ∀ j, Other cfg id j ↔ (Other cfg id j ∧ j ≠ it.hostId) ∨ j = it.hostId := by
      intro j
      by_cases hji : j = it.hostId
      · simp [hji, ho]
      · simp [hji]
    cases hv : badVerdict cfg now a.host.bt it r.rd with
    | gone =>
      have hgood := hverdict.gone hv
      refine ⟨hnowbt, hw.settle ?_ hH⟩
      rw [hr]
      refine ⟨⟨r, rest, rfl, ?_⟩, .inl ⟨r, List.mem_cons_self, hgood⟩⟩
      cases hrd : r.rd <;> rw [hrd] at hgood <;> first | rfl | cases hgood
    | busy => exact fun _ hd => by cases hd
    | dead d =>
      obtain ⟨hdi, hrd, hev⟩ := hverdict.dead d hv
      refine ⟨hnowbt, hw.bury (fun hj => hj.2 hdi) ?_ ?_ fun j => by rw [hdi]; exact hH j⟩
      · rw [hdi, hr]
        exact hev
      · rw [hdi]
        exact ⟨r, rest, hr, hrd⟩
    | keep it' =>
      obtain ⟨hid, hwat', hs'⟩ := hverdict.keep it' hv
      refine ⟨hnowbt, hw.watch it' ?_ (fun hj => hj.2 hid) ?_ hs' fun j => by rw [hid]; exact hH j⟩
      · rw [List.append_assoc]
        exact List.perm_middle
      · rw [hid, hr]
        exact hwat'
  case checkNow dead call =>
    cases call
    case first => exact absurd hp (hne dead)
    case recheck => cases hpc

/-- Outside of the wait no reads are recorded. -/
theorem badRead_of_not_waiting (h : pc.waiting = false ∨ ∃ dead, pc = .checkNow dead .first) :
    pc.badRead cfg id = none := by
  cases pc
  case badScan | badSeen | badSleep | badReread | badJudge => rcases h with h | ⟨dead, h⟩ <;> cases h
  all_goals rfl

theorem acqInv_reachable {a : Acquisition} (h : (acquisitionSystem cfg id).Reachable a) : AcqInv cfg id a := by
  refine h.invariant (P := AcqInv cfg id) ?_ ?_
  · rintro a ⟨hpc, hreads⟩
    rw [AcqInv, hpc, hreads]
    refine ⟨⟨fun i hi => absurd hi.2 (not_lt.2 hi.1.1), nofun, List.nodup_nil, nofun⟩, le_refl 1⟩
  · rintro a e a' - hinv hstep
    cases e with
    | tick δ =>
      cases hstep
      exact PcWait.mono hinv (Nat.le_add_right _ _)
    | run io sectors =>
      cases hstep
      show PcWait cfg id (hostStep cfg id io sectors a.host).1.bt _ _
      rw [hostStep_bt]
      by_cases hafter : a.host.pc.waiting = false ∨ ∃ dead, a.host.pc = .checkNow dead .first
      · obtain ⟨hw, hset⟩ := hostStep_deadSet io sectors hafter
        rw [badRead_of_not_waiting hafter]
        refine pcWait_of_deadSet hw fun dead hd => ?_
        rcases hset with hnone | hsame
        · rw [hnone] at hd
          cases hd
        · exact PcWait.deadOk hinv (hsame ▸ hd)
      · rw [not_or, Bool.not_eq_false] at hafter
        exact hinv.wait hafter.1 fun dead heq => hafter.2 ⟨dead, heq⟩

/-! ## What the wait guarantees -/

/-- What the reads say when the wait returns 0 with a dead set. -/
structure WaitOver (cfg : Config) (id : Nat) (reads : List SectorRead) (dead : List DeadSector) : Prop where
  /-- a sector whose first read was bad was read as empty or valid later, or is dead -/
  bad : ∀ i, Other cfg id i → ∀ later first, readsOf reads i = later ++ [first] → first.rd.good = false →
    (∃ r ∈ later, r.rd.good = true) ∨ ∃ d ∈ dead, d.hostId = i ∧ DeadEvidence cfg d (readsOf reads i)
  /-- the last read of every sector succeeded -/
  readable : ∀ i, Other cfg id i → ∃ r rest, readsOf reads i = r :: rest ∧ r.rd.unreadable = false

theorem WaitInv.over (h : WaitInv cfg (Other cfg id) bt reads [] dead) : WaitOver cfg id reads dead := by
  have hsettled : ∀ i, Other cfg id i → Settled dead (readsOf reads i) i := by
    intro i hi
    rcases h.host i hi with ⟨it, hit, -⟩ | hs
    · cases hit
    · exact hs
  refine ⟨fun i hi later first hreads hbad => ?_, fun i hi => (hsettled i hi).last⟩
  rcases (hsettled i hi).judged with ⟨r, hr, hgood⟩ | ⟨d, hd, rfl⟩
  · rw [hreads, List.mem_append, List.mem_singleton] at hr
    rcases hr with hr | rfl
    · exact .inl ⟨r, hr, hgood⟩
    · rw [hgood] at hbad
      cases hbad
  · exact .inr ⟨d, hd, rfl, (h.dead d hd).2⟩

theorem leaseSectorDead_iff : ∀ {dead : List DeadSector}, (dead.map hostId).Nodup → ∀ i raw,
    leaseSectorDead dead i raw = true ↔ ∃ d ∈ dead, d.hostId = i ∧ d.raw = raw
  | [], _, _, _ => by simp [leaseSectorDead]
  | d :: dead, hnd, i, raw => by
    obtain ⟨hnew, hnd⟩ := List.nodup_cons.1 hnd
    rw [leaseSectorDead]
    split
    case isTrue hi =>
      constructor
      · intro h
        exact ⟨d, List.mem_cons_self, hi, by simpa using h⟩
      · rintro ⟨x, hx, hxi, hraw⟩
        rcases List.mem_cons.1 hx with rfl | hx
        · simpa using hraw
        · exact absurd (List.mem_map.2 ⟨x, hx, hxi.trans hi.symm⟩) hnew
    case isFalse hi =>
      rw [leaseSectorDead_iff hnd]
      constructor
      · rintro ⟨x, hx, hxi⟩
        exact ⟨x, List.mem_cons_of_mem _ hx, hxi⟩
      · rintro ⟨x, hx, hxi, hraw⟩
        rcases List.mem_cons.1 hx with rfl | hx
        · exact absurd hxi hi
        · exact ⟨x, hx, hxi, hraw⟩

/-- What the later scans make of a sector that gives no record: they go on only if it is corrupt and holds
exactly the bytes with which it is in the dead set. -/
structure ScansStop (cfg : Config) (dead : List DeadSector) : Prop where
  skip : ∀ i raw, leaseSectorDead dead i raw = true ↔ ∃ d ∈ dead, d.hostId = i ∧ d.raw = raw
  check : ∀ now i fr rd, rd.good = false → (checkSector cfg dead now i fr rd).isSome →
    ∃ d ∈ dead, d.hostId = i ∧ rd.corrupt = some d.raw
  verify : ∀ ballot now i rd, rd.good = false → verifyPrepareSector cfg ballot dead now i rd = true →
    ∃ d ∈ dead, d.hostId = i ∧ rd.corrupt = some d.raw
  conflict : ∀ ballot now i rd, rd.good = false → checkConflictSector cfg ballot dead now i rd = true →
    ∃ d ∈ dead, d.hostId = i ∧ rd.corrupt = some d.raw

theorem DeadOk.scansStop (h : DeadOk cfg reads dead) : ScansStop cfg dead := by
  have hskip : ∀ i rd, deadRead dead i rd = true → ∃ d ∈ dead, d.hostId = i ∧ rd.corrupt = some d.raw := by
    intro i rd hd
    unfold deadRead at hd
    split at hd
    case h_1 raw hraw =>
      obtain ⟨d, hmem, hi, rfl⟩ := (leaseSectorDead_iff h.nodup i raw).1 hd
      exact ⟨d, hmem, hi, hraw⟩
    case h_2 => cases hd
  constructor
  case skip => exact leaseSectorDead_iff h.nodup
  case check =>
    intro now i fr rd hgood hs
    cases rd
    case empty | valid => cases hgood
    all_goals
      refine hskip i _ ?_
      simp only [checkSector] at hs
      split at hs
      · assumption
      · cases hs
  case verify | conflict =>
    intro ballot now i rd hgood hs
    cases rd
    case empty | valid => cases hgood
    all_goals exact hskip i _ hs

/-- When the wait returns 0, its reads vouch for every sector; and from then on the dead set has for each of its
sectors two reads a window apart that saw the same bytes, and the scans skip a corrupt sector only with
these. -/
theorem bad_sector_wait_sound {a : Acquisition} (h : (acquisitionSystem cfg id).Reachable a) :
    (∀ dead, a.host.pc = .checkNow dead .first → WaitOver cfg id a.reads dead) ∧
      ∀ dead, a.host.pc.deadSet = some dead →
        (∀ d ∈ dead, DeadEvidence cfg d (readsOf a.reads d.hostId)) ∧ ScansStop cfg dead := by
  have hinv := acqInv_reachable h
  refine ⟨fun dead hpc => ?_, fun dead hd => ?_⟩
  · rw [AcqInv, hpc] at hinv
    exact WaitInv.over hinv
  · have hok := PcWait.deadOk hinv hd
    exact ⟨hok.evidence, hok.scansStop⟩

/-- What a host left in its sector: not empty, and without the magic number. -/
def tornSector : HostRecord := { HostRecord.zero with flags := 1 }

/-- A wait with one corrupt sector, which is read again at once and when the window is over. -/
def tornTrace : List AcquisitionEvent :=
  let go : AcquisitionEvent := .run .ok fun _ => tornSector
  [go, go, go, go] ++ [go, go, go, go] ++ [.tick (4 * nsecPerSec)] ++ [go, go, go, go, go]

theorem bad_sector_wait_sound_torn : ∃ a, (acquisitionSystem ⟨2, 2, 1, fun _ => 0⟩ 1).Reachable a ∧
    a.host.pc = .checkNow [⟨2, tornSector⟩] .first ∧ WaitOver ⟨2, 2, 1, fun _ => 0⟩ 1 a.reads [⟨2, tornSector⟩] := by
  have ha := (acquisitionSystem ⟨2, 2, 1, fun _ => 0⟩ 1).reachable_last
    ⟨⟨true, .badScan 1 [], 0, 0, 0, 0, 0, none, false⟩, []⟩ tornTrace ⟨rfl, rfl⟩ (by decide +kernel)
  exact ⟨_, ha, by decide +kernel, (bad_sector_wait_sound ha).1 _ (by decide +kernel)⟩

end PolarFs.Lease
