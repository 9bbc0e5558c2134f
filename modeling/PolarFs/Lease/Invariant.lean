/-
What is true of one host at each point of the lease protocol: which record its sector holds, how
its clock readings relate to the record's timestamp and to the kill deadline, and when it is too
late for the host to become the holder.

A host whose record another host saw as stale is `doomed`: it will fail one of its own expiry tests
or arm a timer whose deadline is past (`stale_doomed`); an armed host's record is never stale.
-/
import PolarFs.Lease.Protocol

namespace PolarFs.Lease

open Host

/-! ## Assertions at the program points -/

section Assertions

variable (cfg : Config) (id : Nat) (h : Host) (X : HostRecord)

/-- The pair of clock readings a lease write takes: LEASE_CLOCK first, then CLOCK_REALTIME. -/
def Stamped (issue now : Nat) : Prop :=
  issue ≤ h.bt ∧ issue + h.rt ≤ now + h.bt ∧ now ≤ h.rt

/-- The sector holds the PREPARE record whose write was issued at `prepareIssue`. -/
def Prepared (prepareIssue : Nat) : Prop :=
  ∃ gen now, X = prepareRecord cfg id gen now h.currentBallot ∧ tvSec now < 2 ^ 63 ∧
    prepareIssue ≤ h.bt ∧ prepareIssue + h.rt ≤ now + h.bt

/-- The sector holds the RW record whose write was issued at `mnt_lease_write_time`. -/
def Written : Prop :=
  ∃ gen now, X = rwRecord cfg id gen now h.currentBallot ∧ tvSec now < 2 ^ 63 ∧
    h.leaseWriteTime ≤ h.bt ∧ h.leaseWriteTime + h.rt ≤ now + h.bt

/-- The kill timer is armed, its deadline not past and no later than the lease duration after the
readings behind the RW record in the sector. -/
def Armed : Prop :=
  ∃ d gen now, h.killTimer = some d ∧ h.bt ≤ d ∧ d ≤ h.leaseWriteTime + leaseNsec cfg ∧
    h.leaseWriteTime ≤ h.bt ∧ X = rwRecord cfg id gen now h.currentBallot ∧ tvSec now < 2 ^ 63 ∧
    d + h.rt ≤ now + leaseNsec cfg + h.bt

/-- The assertion at the host's program point. -/
def PcInv : Prop :=
  match h.pc with
  | .prepareNow _ issue => issue ≤ h.bt
  | .prepareWrite _ issue now => Stamped h issue now
  | .verifyNow _ pi | .acquireStart _ pi => Prepared cfg id h X pi
  | .verify _ pi now _ => Prepared cfg id h X pi ∧ now ≤ h.rt
  | .acquireNow _ pi issue => Prepared cfg id h X pi ∧ pi ≤ issue ∧ issue ≤ h.bt
  | .acquireWrite _ pi issue now => Prepared cfg id h X pi ∧ pi ≤ issue ∧ Stamped h issue now
  | .prepareExpiry _ pi => Written cfg id h X ∧ pi ≤ h.leaseWriteTime
  | .conflictNow _ | .rwExpiry | .watchdogOpen => Written cfg id h X
  | .conflict _ now _ => Written cfg id h X ∧ now ≤ h.rt
  | .setHeld => Armed cfg id h X
  | .renewNow issue => Armed cfg id h X ∧ h.leaseWriteTime ≤ issue ∧ issue ≤ h.bt
  | .renewWrite issue now => Armed cfg id h X ∧ h.leaseWriteTime ≤ issue ∧ Stamped h issue now
  | .renewPet => Armed cfg id h X ∧ Written cfg id h X
  | .idle _ => h.rwLeaseHeld = true → Armed cfg id h X
  | _ => True

end Assertions

/-- The program points at which `mnt_rw_lease_held` can be true. -/
def Pc.mayHold : Pc → Bool
  | .idle _ | .renewNow _ | .renewWrite _ _ | .renewPet | .unloadClear | .unloadDone => true
  | _ => false

/-- What holds of a running host and its sector. -/
structure HostInv (cfg : Config) (id : Nat) (h : Host) (X : HostRecord) : Prop where
  held : h.rwLeaseHeld = true → h.pc.mayHold = true
  pc : PcInv cfg id h X

/-! ## Progress of an acquisition -/

/-- The scan of `pfs_rw_lease_verify_prepare` is past host `j`'s sector, or over. -/
def Host.verified (h : Host) (j : Nat) : Prop :=
  match h.pc with
  | .verify _ _ _ i => j < i
  | .acquireStart .. | .acquireNow .. | .acquireWrite .. | .prepareExpiry .. | .conflictNow _
  | .conflict .. | .rwExpiry | .watchdogOpen | .setHeld | .renewNow _ | .renewWrite .. | .renewPet => True
  | .idle _ => h.rwLeaseHeld = true
  | _ => False

/-- The scan of `pfs_rw_lease_check_conflict` is past host `j`'s sector, or over. -/
def Host.conflictChecked (h : Host) (j : Nat) : Prop :=
  match h.pc with
  | .conflict _ _ i => j < i
  | .rwExpiry | .watchdogOpen | .setHeld | .renewNow _ | .renewWrite .. | .renewPet => True
  | .idle _ => h.rwLeaseHeld = true
  | _ => False

/-- One of the expiry tests still ahead of the host can only fail. -/
def Host.doomed (cfg : Config) (h : Host) : Prop :=
  match h.pc with
  | .verifyNow _ pi | .verify _ pi _ _ | .acquireStart _ pi | .acquireNow _ pi _ | .acquireWrite _ pi _ _
  | .prepareExpiry _ pi => pi + leaseNsec cfg < h.bt
  | .conflictNow _ | .conflict .. | .rwExpiry | .watchdogOpen => h.leaseWriteTime + leaseNsec cfg < h.bt
  | _ => False

/-! ## Reading another host's sector -/

variable {j now : Nat}

section Reading

variable {cfg : Config} {id : Nat} {h : Host} {X : HostRecord}

/-- A host that has verified another one is at a point where its sector holds its PREPARE record,
its RW record before the timer is armed, or its RW record under the armed timer. -/
theorem PcInv.cases_of_verified (hi : PcInv cfg id h X) (hv : h.verified j) :
    (∃ pi, Prepared cfg id h X pi ∧ (h.doomed cfg ↔ pi + leaseNsec cfg < h.bt) ∧
      ∀ k, ¬ h.conflictChecked k) ∨
    (Written cfg id h X ∧ (h.leaseWriteTime + leaseNsec cfg < h.bt → h.doomed cfg)) ∨
    Armed cfg id h X := by
  cases hp : h.pc <;> simp only [PcInv, verified, Host.doomed, conflictChecked, hp] at hi hv ⊢
  case acquireStart => exact .inl ⟨_, hi, Iff.rfl, fun _ => not_false⟩
  case verify | acquireNow | acquireWrite => exact .inl ⟨_, hi.1, Iff.rfl, fun _ => not_false⟩
  case prepareExpiry => exact .inr (.inl ⟨hi.1, by have := hi.2; omega⟩)
  case conflict => exact .inr (.inl ⟨hi.1, fun hd => hd⟩)
  case conflictNow | rwExpiry | watchdogOpen => exact .inr (.inl ⟨hi, fun hd => hd⟩)
  case setHeld => exact .inr (.inr hi)
  case renewNow | renewWrite | renewPet => exact .inr (.inr hi.1)
  case idle => exact .inr (.inr (hi hv))

/-- The reader's clock reading `now` was taken by a host whose clock is within the skew bound. -/
def ReadBy (cfg : Config) (h : Host) (now : Nat) : Prop := now ≤ h.rt + cfg.clockSkewMax * nsecPerSec

/-- A record that a reader finds stale carries a clock reading more than the lease duration ago. -/
theorem ReadBy.stale {now' : Nat} (hr : ReadBy cfg h now) (hlt : tvSec now' < 2 ^ 63)
    (hs : hostRecordLive cfg (tvSec now') now = false) : now' + leaseNsec cfg < h.rt := by
  have h1 := le_of_not_hostRecordLive hlt hs
  have h2 := lt_succ_tvSec now'
  unfold ReadBy at hr
  omega

variable (hr : ReadBy cfg h now)
include hr

theorem Prepared.stale {pi : Nat} (hp : Prepared cfg id h X pi) (hs : hostRecordLive cfg X.timestamp now = false) :
    pi + leaseNsec cfg < h.bt := by
  obtain ⟨gen, now', rfl, hlt, -, hle⟩ := hp
  have hage := hr.stale hlt hs
  omega

theorem Written.stale (hw : Written cfg id h X) (hs : hostRecordLive cfg X.timestamp now = false) :
    h.leaseWriteTime + leaseNsec cfg < h.bt := by
  obtain ⟨gen, now', rfl, hlt, -, hle⟩ := hw
  have hage := hr.stale hlt hs
  omega

/-- An armed host's record is live to every other host. -/
theorem Armed.live (ha : Armed cfg id h X) : hostRecordLive cfg X.timestamp now = true := by
  obtain ⟨d, gen, now', -, hbt, -, -, rfl, hlt, hle⟩ := ha
  by_contra hs
  rw [Bool.not_eq_true] at hs
  have hage := hr.stale hlt hs
  omega

namespace PcInv

variable (hi : PcInv cfg id h X) (hv : h.verified j) (hd : ¬ h.doomed cfg)
include hi hv hd

/-- The record another host reads in the sector of a host that is not doomed: valid, live, with
the host's ballot, and PREPARE only before the host's own conflict check. -/
theorem read_live :
    parseRecord cfg X = .valid X ∧ hostRecordLive cfg X.timestamp now = true ∧
    ((X.isRw = false ∧ X.isPrepare = true ∧ X.mbal = h.currentBallot ∧ ∀ k, ¬ h.conflictChecked k) ∨
     (X.isRw = true ∧ X.bal = h.currentBallot)) := by
  rcases hi.cases_of_verified hv with ⟨pi, hp, hpd, hc⟩ | ⟨hw, hwd⟩ | ha
  · have hlive : hostRecordLive cfg X.timestamp now = true := by
      by_contra hs
      exact hd (hpd.2 (Prepared.stale hr hp (by simpa using hs)))
    obtain ⟨gen, now', rfl, -⟩ := hp
    exact ⟨parseRecord_mkRecord .., hlive, .inl ⟨by simp, by simp, rfl, hc⟩⟩
  · have hlive : hostRecordLive cfg X.timestamp now = true := by
      by_contra hs
      exact hd (hwd (Written.stale hr hw (by simpa using hs)))
    obtain ⟨gen, now', rfl, -⟩ := hw
    exact ⟨parseRecord_mkRecord .., hlive, .inr ⟨by simp, rfl⟩⟩
  · have hlive := Armed.live hr ha
    obtain ⟨d, gen, now', -, -, -, -, rfl, -⟩ := ha
    exact ⟨parseRecord_mkRecord .., hlive, .inr ⟨by simp, rfl⟩⟩

/-- A verify scan that gets past the sector of a host that is not doomed has the higher ballot, and
that host's conflict check is still to come. -/
theorem verify_pass {ballot : Nat} {dead : List DeadSector} {io : Io}
    (hpass : verifyPrepareSector cfg ballot dead now id (hostRecordRead cfg io X) = true) :
    h.currentBallot < ballot ∧ ∀ k, ¬ h.conflictChecked k := by
  obtain ⟨hparse, hlive, hkind⟩ := read_live hr hi hv hd
  cases io with
  | fail rv landed => simp [hostRecordRead, verifyPrepareSector, deadRead, RecordRead.corrupt] at hpass
  | ok =>
    rw [hostRecordRead, hparse] at hpass
    rcases hkind with ⟨hrw, -, hmbal, hc⟩ | ⟨hrw, -⟩
    · refine ⟨?_, hc⟩
      simp [verifyPrepareSector, hlive, hrw, hmbal] at hpass
      omega
    · simp [verifyPrepareSector, hlive, hrw] at hpass

/-- A conflict check that gets past the sector of a host that is not doomed saw no higher ballot. -/
theorem conflict_pass {ballot : Nat} {dead : List DeadSector} {io : Io}
    (hpass : checkConflictSector cfg ballot dead now id (hostRecordRead cfg io X) = true) :
    h.currentBallot ≤ ballot := by
  obtain ⟨hparse, hlive, hkind⟩ := read_live hr hi hv hd
  cases io with
  | fail rv landed => simp [hostRecordRead, checkConflictSector, deadRead, RecordRead.corrupt] at hpass
  | ok =>
    rw [hostRecordRead, hparse] at hpass
    rcases hkind with ⟨hrw, hprep, hmbal, -⟩ | ⟨hrw, hbal⟩
    · simpa [checkConflictSector, hlive, hrw, hprep, hmbal] using hpass
    · simpa [checkConflictSector, hlive, hrw, hbal] using hpass

end PcInv

end Reading

/-! ## One action of a host -/

section Step

variable {cfg : Config} {id : Nat} {io : Io} {sectors : Nat → HostRecord} {h : Host} {X : HostRecord}

theorem Stamped.tvSec_lt {issue : Nat} (hs : Stamped h issue now) (hrt : tvSec h.rt < 2 ^ 63) : tvSec now < 2 ^ 63 :=
  lt_of_le_of_lt (Nat.div_le_div_right hs.2.2) hrt

theorem not_held (hheld : h.rwLeaseHeld = true → h.pc.mayHold = true) (hm : h.pc.mayHold = false) :
    h.rwLeaseHeld = false := by
  by_contra hc
  rw [hheld (by simpa using hc)] at hm; cases hm

theorem HostInv.notHeld (hh : h.rwLeaseHeld = false) (hpc : PcInv cfg id h X) : HostInv cfg id h X :=
  ⟨by simp [hh], hpc⟩

/-- Arming the timer for the lease write that is in the sector. -/
theorem Written.killTimerArm {next : Pc} (hw : Written cfg id h X)
    (ha : (h.killTimerArm cfg next).alive = true) : Armed cfg id (h.killTimerArm cfg next) X := by
  obtain ⟨gen, now, rfl, hlt, hle, hrt⟩ := hw
  have hdl : h.bt ≤ h.leaseWriteTime + leaseNsec cfg := of_decide_eq_true ha
  exact ⟨_, gen, now, rfl, hdl, le_rfl, hle, rfl, hlt, by simp only [killTimerArm]; omega⟩

/-- A renewal's RW record under the deadline of the write before it. -/
theorem Armed.renew {issue gen : Nat} (harm : Armed cfg id h X) (hle : h.leaseWriteTime ≤ issue)
    (hs : Stamped h issue now) (hrt : tvSec h.rt < 2 ^ 63) (pc : Pc) {lwt : Nat}
    (hl : lwt = issue ∨ lwt = h.leaseWriteTime) :
    Armed cfg id { h with leaseWriteTime := lwt, pc } (rwRecord cfg id gen now h.currentBallot) := by
  obtain ⟨d, _, _, hd, hbt, hdl, hlw, -, -, -⟩ := harm
  have ⟨h1, h2, h3⟩ := hs
  exact ⟨d, gen, now, hd, hbt, by simp only; omega, by simp only; omega, rfl, hs.tvSec_lt hrt, by simp only; omega⟩

theorem hostStep_inv (hrt : tvSec h.rt < 2 ^ 63) (hi : HostInv cfg id h X)
    (ha : (hostStep cfg id io sectors h).1.alive = true) :
    HostInv cfg id (hostStep cfg id io sectors h).1 ((hostStep cfg id io sectors h).2.getD X) := by
  obtain ⟨hheld, hpc⟩ := hi
  have hnot := not_held hheld
  cases hp : h.pc <;> rw [hp] at hnot <;> simp only [hostStep, hp] at ha ⊢
  case badScan | badSeen | badSleep | badJudge | checkNow | check | waitStart | waitSleep | waitPoll
    | readGeneration | clear =>
    have hh := hnot rfl
    (repeat' split) <;> exact .notHeld hh (by simp [goto, PcInv, hh])
  case badReread now done todo dead =>
    cases todo <;> exact .notHeld (hnot rfl) trivial
  case idle => exact ⟨hheld, hpc⟩
  case unloadClear => exact ⟨fun _ => rfl, trivial⟩
  case unloadDone => exact .notHeld rfl (by simp [PcInv])
  all_goals simp only [PcInv, hp] at hpc
  case prepareStart => exact .notHeld (hnot rfl) le_rfl
  case prepareNow =>
    exact .notHeld (hnot rfl) ⟨hpc, by simp only [goto]; omega, le_rfl⟩
  case prepareWrite dead issue now =>
    cases io <;> refine .notHeld (hnot rfl) ?_
    · exact ⟨_, now, rfl, hpc.tvSec_lt hrt, hpc.1, hpc.2.1⟩
    · trivial
  case verifyNow | conflictNow => exact .notHeld (hnot rfl) ⟨hpc, le_rfl⟩
  case verify | conflict =>
    split_ifs <;> refine .notHeld (hnot rfl) ?_
    exacts [hpc.1, hpc, hpc, trivial]
  case acquireStart =>
    have hle := hpc
    obtain ⟨_, _, _, _, hle, _⟩ := hle
    exact .notHeld (hnot rfl) ⟨hpc, hle, le_rfl⟩
  case acquireNow =>
    exact .notHeld (hnot rfl) ⟨hpc.1, hpc.2.1, hpc.2.2, by simp only [goto]; omega, le_rfl⟩
  case acquireWrite dead pi issue now =>
    obtain ⟨-, hpi, hs⟩ := hpc
    cases io <;> refine .notHeld (hnot rfl) ?_
    · exact ⟨⟨_, now, rfl, hs.tvSec_lt hrt, hs.1, hs.2.1⟩, hpi⟩
    · simp [goto, PcInv, hnot rfl]
  case prepareExpiry =>
    split_ifs <;> refine .notHeld (hnot rfl) ?_
    exacts [trivial, hpc.1]
  case rwExpiry =>
    split_ifs <;> refine .notHeld (hnot rfl) ?_
    exacts [trivial, hpc]
  case watchdogOpen =>
    cases io
    · exact .notHeld (hnot rfl) (hpc.killTimerArm ha)
    · exact .notHeld (hnot rfl) trivial
  case setHeld => exact ⟨fun _ => rfl, fun _ => hpc⟩
  case renewNow issue =>
    exact ⟨fun _ => rfl, hpc.1, hpc.2.1, hpc.2.2, by simp only [goto]; omega, le_rfl⟩
  case renewWrite issue now =>
    obtain ⟨harm, hle, hs⟩ := hpc
    cases io with
    | ok =>
      exact ⟨fun _ => rfl, harm.renew hle hs hrt _ (.inl rfl), _, now, rfl, hs.tvSec_lt hrt, hs.1, hs.2.1⟩
    | fail rv landed =>
      refine ⟨fun _ => rfl, fun _ => ?_⟩
      cases landed
      · exact harm
      · exact harm.renew hle hs hrt (.idle rv) (.inr rfl)
  case renewPet =>
    cases io with
    | ok =>
      exact ⟨fun _ => rfl, fun _ => hpc.2.killTimerArm ha⟩
    | fail => exact ⟨fun _ => rfl, fun _ => hpc.1⟩

/-- What an action of host `id` does to its progress towards the lease, seen from host `j`: either
nothing, or it has just read `j`'s sector and the scan went on. -/
structure Progress (cfg : Config) (io : Io) (sectors : Nat → HostRecord) (j : Nat) (h h' : Host) : Prop where
  ballot : h'.currentBallot = h.currentBallot
  doomed : h.doomed cfg → h'.doomed cfg
  verified : h.verified j ∨ ∃ dead now, now ≤ h.rt ∧
    verifyPrepareSector cfg h.currentBallot dead now j (hostRecordRead cfg io (sectors j)) = true
  checked : h'.conflictChecked j → h.conflictChecked j ∨ ∃ dead now, now ≤ h.rt ∧
    checkConflictSector cfg h.currentBallot dead now j (hostRecordRead cfg io (sectors j)) = true

/-- The program points at which the host has announced nothing, or gives its announcement up. -/
def Pc.early : Pc → Bool
  | .badScan .. | .badSeen .. | .badSleep .. | .badReread .. | .badJudge .. | .checkNow .. | .check .. | .waitStart ..
  | .waitSleep .. | .waitPoll .. | .readGeneration .. | .prepareStart .. | .prepareNow .. | .prepareWrite .. | .clear _
  | .unloadClear | .unloadDone => true
  | _ => false

theorem hostStep_early (he : h.pc.early = true) (hheld : h.rwLeaseHeld = true → h.pc.mayHold = true) :
    ¬ (hostStep cfg id io sectors h).1.verified j := by
  have hnot := not_held hheld
  cases hp : h.pc <;> rw [hp] at hnot he <;> cases he
  case unloadClear | unloadDone => simp [hostStep, hp, verified, goto]
  case badReread _ _ todo _ => cases todo <;> simp [hostStep, hp, verified, goto]
  all_goals
    have hh := hnot rfl
    simp only [hostStep, hp]
    (repeat' split) <;> simp [verified, goto, hh]

theorem hostStep_progress (hi : HostInv cfg id h X) (hj : 1 ≤ j ∧ j ≤ cfg.numHosts) (hne : j ≠ id)
    (ha : (hostStep cfg id io sectors h).1.alive = true) (hv : (hostStep cfg id io sectors h).1.verified j) :
    Progress cfg io sectors j h (hostStep cfg id io sectors h).1 := by
  obtain ⟨hheld, hpc⟩ := hi
  have hnot := not_held hheld
  have hearly : h.pc.early = false := by
    by_contra he
    exact hostStep_early (by simpa using he) hheld hv
  cases hp : h.pc <;> rw [hp] at hearly hnot <;> cases hearly <;>
    simp only [hostStep, hp, PcInv] at ha hv hpc ⊢
  case idle => exact ⟨rfl, fun hd => hd, .inl hv, .inl⟩
  case verifyNow =>
    simp only [verified, goto] at hv
    omega
  case verify dead pi now i =>
    split_ifs at hv ⊢ with h1 h2 h3
    · refine ⟨rfl, by simp [Host.doomed, goto, hp], .inl ?_, by simp [conflictChecked, goto]⟩
      simp only [verified, hp]; omega
    · refine ⟨rfl, by simp [Host.doomed, goto, hp], .inl ?_, by simp [conflictChecked, goto]⟩
      simp only [verified, goto, hp] at hv ⊢; omega
    · refine ⟨rfl, by simp [Host.doomed, goto, hp], ?_, by simp [conflictChecked, goto]⟩
      simp only [verified, goto, hp] at hv ⊢
      rcases Nat.lt_succ_iff_lt_or_eq.1 hv with hlt | rfl
      · exact .inl hlt
      · exact .inr ⟨dead, now, hpc.2, h3⟩
    · simp [verified, goto] at hv
  -- the scan is over at all other points
  all_goals have hvo : h.verified j := by simp [verified, hp]
  case acquireStart | acquireNow =>
    exact ⟨rfl, by simp [Host.doomed, goto, hp], .inl hvo, by simp [conflictChecked, goto]⟩
  case acquireWrite =>
    cases io
    · exact ⟨rfl, by simp [Host.doomed, hp], .inl hvo, by simp [conflictChecked]⟩
    · simp [verified, goto, hnot rfl] at hv
  case prepareExpiry dead pi =>
    split_ifs at hv ⊢ with h1
    · simp [verified, goto] at hv
    · refine ⟨rfl, fun hd => ?_, .inl hvo, by simp [conflictChecked, goto]⟩
      simp only [Host.doomed, hp] at hd
      simp only [leaseWriteExpired, decide_eq_true_eq] at h1
      omega
  case conflictNow =>
    refine ⟨rfl, by simp [Host.doomed, goto, hp], .inl hvo, fun hc => ?_⟩
    simp only [conflictChecked, goto] at hc
    omega
  case conflict dead now i =>
    split_ifs at hv ⊢ with h1 h2 h3
    · refine ⟨rfl, by simp [Host.doomed, goto, hp], .inl hvo, fun _ => .inl ?_⟩
      simp only [conflictChecked, hp]; omega
    · refine ⟨rfl, by simp [Host.doomed, goto, hp], .inl hvo, fun hc => .inl ?_⟩
      simp only [conflictChecked, goto, hp] at hc ⊢; omega
    · refine ⟨rfl, by simp [Host.doomed, goto, hp], .inl hvo, fun hc => ?_⟩
      simp only [conflictChecked, goto, hp] at hc ⊢
      rcases Nat.lt_succ_iff_lt_or_eq.1 hc with hlt | rfl
      · exact .inl hlt
      · exact .inr ⟨dead, now, hpc.2, h3⟩
    · simp [verified, goto] at hv
  case rwExpiry =>
    split_ifs at hv ⊢ with h1
    · simp [verified, goto] at hv
    · exact ⟨rfl, by simp [Host.doomed, goto, hp], .inl hvo, fun _ => .inl (by simp [conflictChecked, hp])⟩
  case watchdogOpen =>
    cases io
    · refine ⟨rfl, fun hd => ?_, .inl hvo, fun _ => .inl (by simp [conflictChecked, hp])⟩
      simp only [Host.doomed, hp] at hd
      simp only [killTimerArm, decide_eq_true_eq] at ha
      omega
    · simp [verified, goto] at hv
  case setHeld | renewNow =>
    exact ⟨rfl, by simp [Host.doomed, hp], .inl hvo, fun _ => .inl (by simp [conflictChecked, hp])⟩
  case renewWrite | renewPet =>
    cases io <;> exact ⟨rfl, by simp [Host.doomed, hp], .inl hvo, fun _ => .inl (by simp [conflictChecked, hp])⟩

end Step

/-! ## Time passing -/

section Tick

variable {cfg : Config} {id : Nat} {h : Host} {X : HostRecord}

theorem Stamped.tick {issue : Nat} (hs : Stamped h issue now) (δ : Nat) : Stamped (h.tick δ) issue now := by
  obtain ⟨h1, h2, h3⟩ := hs
  simp only [Stamped, Host.tick]; omega

theorem Prepared.tick {pi : Nat} (hp : Prepared cfg id h X pi) (δ : Nat) : Prepared cfg id (h.tick δ) X pi := by
  obtain ⟨gen, now, hX, hlt, h1, h2⟩ := hp
  exact ⟨gen, now, hX, hlt, by simp only [Host.tick]; omega, by simp only [Host.tick]; omega⟩

theorem Written.tick (hw : Written cfg id h X) (δ : Nat) : Written cfg id (h.tick δ) X := by
  obtain ⟨gen, now, hX, hlt, h1, h2⟩ := hw
  exact ⟨gen, now, hX, hlt, by simp only [Host.tick]; omega, by simp only [Host.tick]; omega⟩

theorem Armed.tick {δ : Nat} (ha : Armed cfg id h X) (hd : ∀ d ∈ h.killTimer, h.bt + δ ≤ d) :
    Armed cfg id (h.tick δ) X := by
  obtain ⟨d, gen, now, hk, -, h1, h2, hX, hlt, h3⟩ := ha
  exact ⟨d, gen, now, hk, hd d hk, h1, by simp only [Host.tick]; omega, hX, hlt, by simp only [Host.tick]; omega⟩

theorem HostInv.tick {δ : Nat} (hi : HostInv cfg id h X) (hd : ∀ d ∈ h.killTimer, h.bt + δ ≤ d) :
    HostInv cfg id (h.tick δ) X := by
  obtain ⟨hheld, hpc⟩ := hi
  refine ⟨hheld, ?_⟩
  have hle : ∀ {n : Nat}, n ≤ h.bt → n ≤ h.bt + δ := fun hn => by omega
  have hle' : ∀ {n : Nat}, n ≤ h.rt → n ≤ h.rt + δ := fun hn => by omega
  have hpc' : (h.tick δ).pc = h.pc := rfl
  cases hp : h.pc <;> simp only [PcInv, hpc', hp] at hpc ⊢
  case prepareNow => exact hle hpc
  case prepareWrite | verifyNow | acquireStart | conflictNow | rwExpiry | watchdogOpen => exact hpc.tick δ
  case verify | conflict => exact ⟨hpc.1.tick δ, hle' hpc.2⟩
  case acquireNow => exact ⟨hpc.1.tick δ, hpc.2.1, hle hpc.2.2⟩
  case acquireWrite => exact ⟨hpc.1.tick δ, hpc.2.1, hpc.2.2.tick δ⟩
  case prepareExpiry => exact ⟨hpc.1.tick δ, hpc.2⟩
  case setHeld => exact hpc.tick hd
  case renewNow => exact ⟨hpc.1.tick hd, hpc.2.1, hle hpc.2.2⟩
  case renewWrite => exact ⟨hpc.1.tick hd, hpc.2.1, hpc.2.2.tick δ⟩
  case renewPet => exact ⟨hpc.1.tick hd, hpc.2.tick δ⟩
  case idle => exact fun hh => (hpc hh).tick hd

theorem Host.doomed.tick {δ : Nat} (hd : h.doomed cfg) : (h.tick δ).doomed cfg := by
  have hpc' : (h.tick δ).pc = h.pc := rfl
  cases hp : h.pc <;> simp only [Host.doomed, hpc', hp] at hd ⊢ <;> simp only [Host.tick] <;> omega

end Tick

end PolarFs.Lease
