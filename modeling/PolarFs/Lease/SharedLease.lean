/-
Whether the sector a shared mount renews its lease in is one that other hosts scan: for every run of
the clients' calls, as long as each host id that a client mounts with is one the file system was
formatted for.
-/
import PolarFs.Lease.SharedMount

namespace PolarFs.Lease

open Transition Pfsd
open Function (update update_self update_of_ne forall_update_iff)

/-! ## A record that a scan takes for live -/

/-- Sector `a` holds an RW record that is live for a reader whose clock shows `t`. -/
def Shows (cfg : Config) (sectors : Nat → HostRecord) (a t : Nat) : Prop :=
  ∃ g n b, sectors a = rwRecord cfg a g n b ∧ tvSec n < 2 ^ 63 ∧
    t ≤ n + leaseNsec cfg + cfg.clockSkewMax * nsecPerSec

/-- The second that the timestamp loses is allowed for. -/
theorem hostRecordLive_of_le {cfg : Config} {n t : Nat} (hn : tvSec n < 2 ^ 63)
    (ht : t ≤ n + leaseNsec cfg + cfg.clockSkewMax * nsecPerSec) : hostRecordLive cfg (tvSec n) t = true := by
  have hsec : tvSec t ≤ tvSec n + (cfg.leaseDuration + cfg.clockSkewMax) := by
    calc tvSec t ≤ tvSec (n + leaseNsec cfg + cfg.clockSkewMax * nsecPerSec) := Nat.div_le_div_right ht
      _ = tvSec (n + (cfg.leaseDuration + cfg.clockSkewMax) * nsecPerSec) := by
          unfold leaseNsec; rw [Nat.add_mul, Nat.add_assoc]
      _ = tvSec n + (cfg.leaseDuration + cfg.clockSkewMax) := Nat.add_mul_div_right _ _ (by decide)
  simp only [hostRecordLive, hostRecordAge, leaseExpiryAge, toInt64_of_lt hn, decide_eq_true_eq]
  omega

theorem Shows.liveRw {cfg : Config} {sectors : Nat → HostRecord} {a t : Nat} (h : Shows cfg sectors a t) :
    liveRw cfg t (sectors a) = true := by
  obtain ⟨g, n, b, hsec, hn, ht⟩ := h
  have hparse : parseRecord cfg (rwRecord cfg a g n b) = .valid (rwRecord cfg a g n b) :=
    parseRecord_mkRecord cfg pfsHostFlRw a g n b b
  have hlive : hostRecordLive cfg (rwRecord cfg a g n b).timestamp t = true := hostRecordLive_of_le hn ht
  rw [hsec, Lease.liveRw, hparse]
  simp only [rwRecord_isRw, hlive, Bool.and_self]

/-! ## The invariant -/

/-- A host id of this pfsd that the file system was formatted for. -/
structure InRange (cfg : Config) (mine : Nat → Bool) (i : Nat) : Prop where
  pos : 1 ≤ i
  le : i ≤ cfg.numHosts
  mine : mine i = true

/-- What the log thread has read for the next lease write. -/
def Renewing.Inv (rt bt : Nat) (w : LeaseWrite) : Renewing → Prop
  | .idle => True
  | .issued i => w.issue ≤ i ∧ i ≤ bt
  | .stamped i n => w.issue ≤ i ∧ i ≤ bt ∧ w.now ≤ n ∧ n ≤ rt ∧ rt + i ≤ bt + n

/-- The lease: its record is in the sector of the last write, or a newer one, and the kill timer has
not fired. -/
structure LeaseInv (cfg : Config) (mine : Nat → Bool) (rt bt : Nat) (sectors : Nat → HostRecord) (m : Mount)
    (w : LeaseWrite) : Prop where
  sector : InRange cfg mine w.sector
  issue_le : w.issue ≤ bt
  now_le : w.now ≤ rt
  stamp : rt + w.issue ≤ bt + w.now
  armed : bt ≤ w.issue + leaseNsec cfg
  record : ∃ g n b, sectors w.sector = rwRecord cfg w.sector g n b ∧ tvSec n < 2 ^ 63 ∧ w.now ≤ n
  renewing : m.renewing.Inv rt bt w

structure MountInv (cfg : Config) (mine : Nat → Bool) (rt bt : Nat) (sectors : Nat → HostRecord) (m : Mount) :
    Prop where
  hostId : InRange cfg mine m.hostId
  ro : m.writable = false → m.lease = none
  lease : ∀ w, m.lease = some w → LeaseInv cfg mine rt bt sectors m w

/-- A scan that began under a lease will meet its record, or has met it. -/
structure ScanInv (cfg : Config) (mine : Nat → Bool) (sectors : Nat → HostRecord) (held : Option LeaseWrite) (sc : Scan)
    (a : Nat) : Prop where
  sector : InRange cfg mine a
  record : Shows cfg sectors a sc.now
  ahead : sc.met = true ∨ sc.next ≤ a
  held : ∃ w, held = some w ∧ sc.now ≤ w.now + leaseNsec cfg + cfg.clockSkewMax * nsecPerSec

def Reclaim.InRange (cfg : Config) (mine : Nat → Bool) : Reclaim → Prop
  | .mount hostId => Lease.InRange cfg mine hostId
  | .acquire saved hostId | .remount saved hostId => Lease.InRange cfg mine saved ∧ Lease.InRange cfg mine hostId

structure PfsdInv (cfg : Config) (mine : Nat → Bool) (s : Pfsd) : Prop where
  time : tvSec s.rt < 2 ^ 63
  refs : ∀ i, (s.infos i).refCount ≠ 0 ∨ (s.infos i).isRwmnt = true → InRange cfg mine i
  mnt : ∀ m, s.mnt = some m → MountInv cfg mine s.rt s.bt s.sectors m
  reclaim : ∀ r, s.reclaim = some r → r.InRange cfg mine
  others : ∀ x sc, s.scans x = some sc → mine x = false
  scans : ∀ x sc a, s.scans x = some sc → sc.during = some a →
    ScanInv cfg mine s.sectors s.leaseHeld sc a

variable {x : Nat}

namespace PfsdInv

variable {cfg : Config} {mine : Nat → Bool} {s s' : Pfsd} {m : Mount} (hi : PfsdInv cfg mine s) {hostId : Nat}

include hi

theorem setReclaim {r : Option Reclaim} (hr : ∀ r', r = some r' → r'.InRange cfg mine) :
    PfsdInv cfg mine { s with reclaim := r } :=
  { hi with reclaim := hr }

theorem setRefs {i : Nat} {info : SharedInfo} (hr : InRange cfg mine i) (wrref ref : Nat) :
    PfsdInv cfg mine (s.setRefs ⟨update s.infos i info, wrref, ref⟩) := by
  refine { hi with refs := fun j hj => ?_ }
  by_cases hji : j = i
  · subst hji; exact hr
  · refine hi.refs j ?_
    have heq : update s.infos i info j = s.infos j := update_of_ne hji ..
    change (update s.infos i info j).refCount ≠ 0 ∨ (update s.infos i info j).isRwmnt = true at hj
    rwa [heq] at hj

theorem hostIncref {wr : Bool} (hr : InRange cfg mine hostId) (hs : s.hostIncref hostId wr = some s') :
    PfsdInv cfg mine s' ∧ s'.mnt = s.mnt := by
  obtain ⟨t, ht, rfl⟩ := Option.map_eq_some_iff.1 hs
  obtain ⟨rfl, -, -⟩ := RefTable.hostIncref_some ht
  exact ⟨hi.setRefs hr _ _, rfl⟩

/-- Only a host id that has references can lose one. -/
theorem hostDecref (hs : s.hostDecref hostId = some s') :
    PfsdInv cfg mine s' ∧ s'.mnt = s.mnt ∧ s'.reclaim = s.reclaim := by
  obtain ⟨t, ht, rfl⟩ := Option.map_eq_some_iff.1 hs
  obtain ⟨rfl, hne⟩ := RefTable.hostDecref_some ht
  exact ⟨hi.setRefs (hi.refs hostId (Or.inl hne)) _ _, rfl, rfl⟩

theorem hostDecref_getD : PfsdInv cfg mine ((s.hostDecref hostId).getD s) := by
  cases hs : s.hostDecref hostId with
  | none => exact hi
  | some s' => exact (hi.hostDecref hs).1

theorem hostPromotRef (hs : s.hostPromotRef hostId = some s') :
    PfsdInv cfg mine s' ∧ s'.mnt = s.mnt ∧ InRange cfg mine hostId := by
  obtain ⟨t, ht, rfl⟩ := Option.map_eq_some_iff.1 hs
  obtain ⟨rfl, hinfo⟩ := RefTable.hostPromotRef_some ht
  have hr := hi.refs hostId (Or.inl (by rw [hinfo]; decide))
  exact ⟨hi.setRefs hr _ _, rfl, hr⟩

theorem hostDepromotRef : PfsdInv cfg mine (s.hostDepromotRef hostId) := by
  cases ht : s.toRefTable.hostDepromotRef hostId with
  | none => simpa [Pfsd.hostDepromotRef, ht] using hi
  | some t =>
    obtain ⟨rfl, hinfo⟩ := RefTable.hostDepromotRef_some ht
    simpa [Pfsd.hostDepromotRef, ht] using hi.setRefs (hi.refs hostId (Or.inl (by rw [hinfo]; decide))) _ _

theorem hostGetAnotherId {next : Nat} (hs : s.hostGetAnotherId = some next) : InRange cfg mine next :=
  hi.refs next (Or.inl (RefTable.hostGetAnotherId_some hs).2.ne')

theorem hostGetAnotherWrid {next : Nat} (hs : s.hostGetAnotherWrid = some next) : InRange cfg mine next :=
  hi.refs next (Or.inr (RefTable.hostGetAnotherWrid_some hs).2)

/-- Without a lease no scan has anything to meet. -/
theorem during_none (hheld : s.leaseHeld = none) {a : Nat} {sc : Scan} (hsc : s.scans x = some sc) :
    sc.during ≠ some a := by
  intro hd
  obtain ⟨w, hw, _⟩ := (hi.scans x sc a hsc hd).held
  rw [hheld] at hw
  cases hw

/-- Another mount without a lease, and other sectors, on a process that holds none. -/
theorem setMnt (hheld : s.leaseHeld = none) {mnt : Option Mount}
    (hm : ∀ m, mnt = some m → InRange cfg mine m.hostId ∧ m.lease = none) (sectors : Nat → HostRecord) :
    PfsdInv cfg mine { s with mnt := mnt, sectors := sectors } := by
  refine { hi with mnt := fun m hmm => ?_, scans := fun x sc a hsc hd => ?_ }
  · obtain ⟨h1, h2⟩ := hm m hmm
    refine ⟨h1, fun _ => h2, fun w hw => ?_⟩
    rw [h2] at hw
    cases hw
  · exact absurd hd (hi.during_none hheld hsc)

/-- The mount goes, and scans that began under its lease are let go. -/
theorem letGo : PfsdInv cfg mine { s with
    mnt := none, scans := fun x => (s.scans x).map fun sc => { sc with during := none } } := by
  refine ⟨hi.time, hi.refs, nofun, hi.reclaim, fun x sc hsc => ?_, fun x sc a hsc hd => ?_⟩
  · obtain ⟨sc', hsc', rfl⟩ := Option.map_eq_some_iff.mp hsc
    exact hi.others x sc' hsc'
  · obtain ⟨sc', _, rfl⟩ := Option.map_eq_some_iff.mp hsc
    cases hd

theorem die : PfsdInv cfg mine s.die := by
  refine ⟨hi.time, fun i hr => ?_, nofun, nofun, hi.letGo.others, hi.letGo.scans⟩
  rcases hr with hr | hr
  · exact absurd rfl hr
  · cases hr

theorem leaderUnload (hm : s.mnt = some m) (cleared : Bool) {mnt : Option Mount}
    (hmnt : ∀ m, mnt = some m → InRange cfg mine m.hostId ∧ m.lease = none) :
    PfsdInv cfg mine { s.leaderUnload m cleared with mnt := mnt } := by
  unfold Pfsd.leaderUnload
  split
  case isTrue => exact hi.letGo.setMnt rfl hmnt _
  case isFalse hl =>
    refine hi.setMnt ?_ hmnt s.sectors
    rw [leaseHeld, hm, Option.bind_some]
    simpa using hl

theorem umount (hm : s.mnt = some m) (cleared : Bool) : PfsdInv cfg mine (s.umount m cleared) :=
  hi.leaderUnload hm cleared fun _ h => by cases h

theorem remountRo (hm : s.mnt = some m) (hr : InRange cfg mine hostId) (cleared : Bool) :
    PfsdInv cfg mine (s.remountRo cfg m hostId cleared) := by
  have hm' := hi.mnt m hm
  unfold Pfsd.remountRo
  split
  case isTrue =>
    dsimp only
    rw [if_neg (Nat.not_lt.mpr hr.le)]
    refine hi.leaderUnload hm cleared fun m' hmm => ?_
    cases hmm
    exact ⟨hr, rfl⟩
  case isFalse hw =>
    have hl := hm'.ro (by simpa using hw)
    refine hi.setMnt (by rw [leaseHeld, hm, Option.bind_some, hl]) (fun m' hmm => ?_) s.sectors
    cases hmm
    exact ⟨hr, hl⟩

/-- `pfs_leader_load` of a writable mount, on a process without a lease: the new record is in the
sector the mount goes by. -/
theorem leaderLoadRw (hheld : s.leaseHeld = none) (hr : InRange cfg mine m.hostId) (hw : m.writable = true)
    (load : Load) {m' : Mount} (hm' : (s.leaderLoadRw cfg m load).1 = some m') :
    PfsdInv cfg mine { s with mnt := some m', sectors := (s.leaderLoadRw cfg m load).2 } := by
  unfold Pfsd.leaderLoadRw at hm' ⊢
  rw [if_neg (Nat.not_lt.mpr hr.le)] at hm' ⊢
  cases load with
  | fail leftover => cases hm'
  | ok issueAge nowAge generation =>
    dsimp only at hm' ⊢
    split at hm'
    case isFalse => cases hm'
    case isTrue hok =>
      obtain ⟨h1, h2, h3, h4⟩ := hok
      rw [if_pos ⟨h1, h2, h3, h4⟩]
      cases hm'
      refine { hi with mnt := fun m'' hmm => ?_, scans := fun x sc a hsc hd => absurd hd (hi.during_none hheld hsc) }
      cases hmm
      refine ⟨hr, fun hro => ?_, fun w hw => ?_⟩
      · rw [show m.writable = false from hro] at hw
        cases hw
      · cases hw
        have hsec : tvSec (s.rt - nowAge) < 2 ^ 63 :=
          lt_of_le_of_lt (Nat.div_le_div_right (Nat.sub_le _ _)) hi.time
        refine ⟨hr, ?_, ?_, ?_, ?_, ⟨generation, _, _, update_self .., hsec, le_refl _⟩, trivial⟩
        · exact Nat.sub_le _ _
        · exact Nat.sub_le _ _
        · show s.rt + (s.bt - issueAge) ≤ s.bt + (s.rt - nowAge)
          omega
        · show s.bt ≤ s.bt - issueAge + leaseNsec cfg
          omega

theorem remountRw (hm : s.mnt = some m) (hw : m.writable = false) (hr : InRange cfg mine hostId) (load : Load) :
    PfsdInv cfg mine (s.remountRw cfg m hostId load).1 := by
  have hm' := hi.mnt m hm
  have hl := hm'.ro hw
  have hheld : s.leaseHeld = none := by rw [leaseHeld, hm, Option.bind_some, hl]
  unfold Pfsd.remountRw
  split
  case h_1 m₂ sectors heq =>
    have h1 : (s.leaderLoadRw cfg { m with hostId := hostId, writable := true } load).1 = some m₂ := by rw [heq]
    have := hi.leaderLoadRw (m := { m with hostId := hostId, writable := true }) hheld hr rfl load h1
    rw [heq] at this
    exact this
  case h_2 sectors heq =>
    dsimp only
    rw [if_neg (Nat.not_lt.mpr hm'.hostId.le)]
    refine hi.setMnt hheld (fun m'' hmm => ?_) sectors
    rw [hm] at hmm
    cases hmm
    exact ⟨hm'.hostId, hl⟩

theorem acquireMounted (hm : s.mnt = some m) (hr : InRange cfg mine hostId) (wr : Bool) (load : Load) :
    PfsdInv cfg mine (s.acquireMounted cfg m hostId wr load) := by
  unfold Pfsd.acquireMounted
  split
  case h_1 => exact hi
  case h_2 s' hinc =>
    obtain ⟨hi', hmnt⟩ := hi.hostIncref hr hinc
    have hm' : s'.mnt = some m := hmnt.trans hm
    split
    case isFalse => exact hi'
    case isTrue hwr =>
      have hw : m.writable = false := by simpa using (Bool.and_eq_true_iff.mp hwr).2
      have hrw := hi'.remountRw hm' hw hr load
      split
      case h_1 s₂ heq =>
        rw [heq] at hrw
        refine hrw.setReclaim fun r hr' => ?_
        cases hr'
        exact ⟨(hi.mnt m hm).hostId, hr⟩
      case h_2 s₂ heq =>
        rw [heq] at hrw
        exact hrw.hostDecref_getD

theorem acquire (hpos : 0 < cfg.numHosts) (hle : hostId ≤ cfg.numHosts) (hmine : mine (cfg.realHostId hostId) = true)
    (wr : Bool) (load : Load) : PfsdInv cfg mine (s.acquire cfg hostId wr load) := by
  have hr : InRange cfg mine (cfg.realHostId hostId) := by
    refine ⟨?_, ?_, hmine⟩ <;> unfold Config.realHostId <;> split <;> omega
  unfold Pfsd.acquire
  split
  · exact hi
  split
  case h_1 m hm => exact hi.acquireMounted hm hr wr load
  case h_2 hnone =>
    have hheld : s.leaseHeld = none := by rw [leaseHeld, hnone, Option.bind_none]
    have hmount : PfsdInv cfg mine (s.mount cfg hostId wr load) := by
      unfold mount
      dsimp only
      split
      case isTrue hwr =>
        subst hwr
        rw [show (if hostId = 0 then cfg.numHosts else hostId) = cfg.realHostId hostId from rfl]
        cases hload : (s.leaderLoadRw cfg ⟨cfg.realHostId hostId, true, 0, 0, none, .idle⟩ load).1 with
        | none => exact hi.setMnt hheld (fun _ h => by cases h) _
        | some m =>
          exact hi.leaderLoadRw (m := ⟨cfg.realHostId hostId, true, 0, 0, none, .idle⟩) hheld hr rfl load hload
      case isFalse =>
        rw [if_neg (Nat.not_lt.mpr hle)]
        refine hi.setMnt hheld (fun m hm => ?_) s.sectors
        cases hm
        exact ⟨hr, rfl⟩
    dsimp only
    split
    case h_1 => exact hmount
    case h_2 m hm =>
      split
      · refine hmount.setReclaim fun r hr' => ?_
        cases hr'
        exact hr
      · exact hmount.acquireMounted hm hr wr load

theorem orphansReclaim {r : Reclaim} (hr : r.InRange cfg mine) {ok cleared : Bool}
    (hs : s.orphansReclaim cfg r ok cleared = some s') : PfsdInv cfg mine s' := by
  obtain ⟨m, hm, rfl⟩ := Option.map_eq_some_iff.mp hs
  have hi' : PfsdInv cfg mine { s with reclaim := none } := hi.setReclaim fun _ h => by cases h
  have hm' : ({ s with reclaim := none } : Pfsd).mnt = some m := hm
  dsimp only
  cases r with
  | mount hostId =>
    dsimp only
    split
    · cases hinc : ({ s with reclaim := none } : Pfsd).hostIncref hostId true with
      | none => exact hi'
      | some s₂ => exact (hi'.hostIncref hr hinc).1
    · exact hi'.umount hm' cleared
  | acquire saved hostId =>
    dsimp only
    split
    · exact hi'
    · exact (hi'.remountRo hm' hr.1 cleared).hostDecref_getD
  | remount saved hostId =>
    dsimp only
    split
    · exact hi'
    · exact (hi'.remountRo hm' hr.1 cleared).hostDepromotRef

theorem keepLease (hm : s.mnt = some m) {m' : Mount} (hl : m'.lease = m.lease)
    (hm' : MountInv cfg mine s.rt s.bt s.sectors m') : PfsdInv cfg mine { s with mnt := some m' } := by
  refine { hi with mnt := fun m'' hmm => ?_, scans := fun x sc a hsc hd => ?_ }
  · cases hmm
    exact hm'
  · obtain ⟨hsec, hrec, hahead, w, hw, hle⟩ := hi.scans x sc a hsc hd
    rw [leaseHeld, hm] at hw
    exact ⟨hsec, hrec, hahead, w, hl.trans hw, hle⟩

theorem setHostId (hm : s.mnt = some m) {next : Nat} (hr : InRange cfg mine next) :
    PfsdInv cfg mine { s with mnt := some { m with hostId := next } } := by
  have hm' := hi.mnt m hm
  refine hi.keepLease hm rfl ⟨hr, hm'.ro, fun w hw => ?_⟩
  have hl := hm'.lease w hw
  exact { hl with }

theorem release {cleared : Bool} (hs : s.release cfg hostId cleared = some s') : PfsdInv cfg mine s' := by
  unfold Pfsd.release at hs
  split at hs
  · cases hs; exact hi
  split at hs
  case h_1 => cases hs; exact hi
  case h_2 m hm =>
    dsimp only at hs
    split at hs
    case h_1 => cases hs; exact hi
    case h_2 s₂ hdec =>
      obtain ⟨hi₂, hmnt, _⟩ := hi.hostDecref hdec
      have hm₂ : s₂.mnt = some m := hmnt.trans hm
      split at hs
      · split at hs
        · obtain ⟨next, hnext, rfl⟩ := Option.map_eq_some_iff.mp hs
          exact hi₂.setHostId hm₂ (hi₂.hostGetAnotherWrid hnext)
        · cases hs; exact hi₂
      split at hs
      · split at hs
        · obtain ⟨next, hnext, rfl⟩ := Option.map_eq_some_iff.mp hs
          exact hi₂.remountRo hm₂ (hi₂.hostGetAnotherId hnext) cleared
        · cases hs; exact hi₂
      · cases hs
        exact hi₂.umount hm₂ cleared

theorem remount (hostId : Nat) (load : Load) : PfsdInv cfg mine (s.remount cfg hostId load) := by
  unfold Pfsd.remount
  split
  · exact hi
  split
  case h_1 => exact hi
  case h_2 m hm =>
    split
    case h_1 => exact hi
    case h_2 s₂ hpro =>
      obtain ⟨hi₂, hmnt, hr⟩ := hi.hostPromotRef hpro
      have hm₂ : s₂.mnt = some m := hmnt.trans hm
      split
      case isTrue => exact hi₂
      case isFalse hw =>
        have hrw := hi₂.remountRw hm₂ (by simpa using hw) hr load
        split
        case h_1 s₃ heq =>
          rw [heq] at hrw
          refine hrw.setReclaim fun r hr' => ?_
          cases hr'
          exact ⟨(hi.mnt m hm).hostId, hr⟩
        case h_2 s₃ heq =>
          rw [heq] at hrw
          exact hrw.hostDepromotRef

end PfsdInv

/-! ## Renewals, time and scans -/

section Steps

variable {cfg : Config} {mine : Nat → Bool} {s s' : Pfsd} {m : Mount} {w : LeaseWrite}

/-- A record from a newer reading is seen by every scan that an older one would be seen by. -/
theorem Shows.update {sectors : Nat → HostRecord} {a i t g n b : Nat} (h : Shows cfg sectors a t)
    (hn : tvSec n < 2 ^ 63) (ht : t ≤ n + leaseNsec cfg + cfg.clockSkewMax * nsecPerSec) :
    Shows cfg (update sectors i (rwRecord cfg i g n b)) a t := by
  by_cases hai : a = i
  · subst hai
    exact ⟨g, n, b, update_self .., hn, ht⟩
  · obtain ⟨g', n', b', hsec, hn', ht'⟩ := h
    exact ⟨g', n', b', by rw [update_of_ne hai]; exact hsec, hn', ht'⟩

namespace PfsdInv

variable (hi : PfsdInv cfg mine s)

include hi

/-- A renewal that writes nothing yet. -/
theorem setRenewing (hm : s.mnt = some m) (hw : m.lease = some w) {r : Renewing} (hr : r.Inv s.rt s.bt w) :
    PfsdInv cfg mine { s with mnt := some { m with renewing := r } } := by
  have hm' := hi.mnt m hm
  refine hi.keepLease hm rfl ⟨hm'.hostId, hm'.ro, fun w' hw' => ?_⟩
  obtain rfl : w = w' := Option.some.inj (hw.symm.trans hw')
  have hl := hm'.lease w hw
  exact { hl with renewing := hr }

/-- The lease write of a renewal, in the sector the mount goes by at that time; a failed one may have
reached the disk. -/
theorem renewWrite (hm : s.mnt = some m) (hw : m.lease = some w) {issue now : Nat}
    (hren : m.renewing = .stamped issue now) {w' : LeaseWrite} (hw' : w' = ⟨issue, now, m.hostId⟩ ∨ w' = w)
    {sectors : Nat → HostRecord}
    (hsec : sectors = update s.sectors m.hostId (rwRecord cfg m.hostId m.hostGeneration now m.currentBallot) ∨
      (sectors = s.sectors ∧ w' = w)) :
    PfsdInv cfg mine { s with sectors := sectors, mnt := some { m with lease := some w', renewing := .idle } } := by
  have hm' := hi.mnt m hm
  have hl := hm'.lease w hw
  have hstamp := hl.renewing
  rw [hren] at hstamp
  obtain ⟨h1, h2, h3, h4, h5⟩ := hstamp
  have hsecn : tvSec now < 2 ^ 63 := lt_of_le_of_lt (Nat.div_le_div_right h4) hi.time
  have hnow : w.now ≤ w'.now := by rcases hw' with rfl | rfl <;> first | exact h3 | exact le_refl _
  refine { hi with mnt := fun m'' hmm => ?_, scans := fun x sc a hsc hd => ?_ }
  · cases hmm
    refine ⟨hm'.hostId, fun hro => ?_, fun w₂ hw₂ => ?_⟩
    · have := hm'.ro hro
      rw [hw] at this
      cases this
    · cases hw₂
      have hrec : ∃ g n b, sectors w'.sector = rwRecord cfg w'.sector g n b ∧ tvSec n < 2 ^ 63 ∧ w'.now ≤ n := by
        rcases hsec with rfl | ⟨rfl, rfl⟩
        · rcases hw' with rfl | rfl
          · exact ⟨_, now, _, update_self .., hsecn, le_refl _⟩
          · by_cases hs : w'.sector = m.hostId
            · rw [hs]
              exact ⟨_, now, _, update_self .., hsecn, h3⟩
            · rw [update_of_ne hs]
              exact hl.record
        · exact hl.record
      rcases hw' with rfl | rfl
      · exact ⟨hm'.hostId, h2, h4, h5, le_trans hl.armed (Nat.add_le_add_right h1 _), hrec, trivial⟩
      · exact { hl with record := hrec, renewing := trivial }
  · have h := hi.scans x sc a hsc hd
    obtain ⟨w₀, hw₀, hle⟩ := h.held
    rw [leaseHeld, hm, Option.bind_some, hw] at hw₀
    cases hw₀
    refine ⟨h.sector, ?_, h.ahead, w', rfl, by omega⟩
    show Shows cfg sectors a sc.now
    rcases hsec with rfl | ⟨rfl, _⟩
    · exact h.record.update hsecn (by omega)
    · exact h.record

theorem renew (hm : s.mnt = some m) (hw : m.lease = some w) {ev : PfsdEvent} (hs : s.renew cfg m w ev = some s') :
    PfsdInv cfg mine s' := by
  have hl := (hi.mnt m hm).lease w hw
  cases ev <;> simp only [Pfsd.renew, reduceCtorEq] at hs
  case renewIssue =>
    split at hs <;> cases hs
    exact hi.setRenewing hm hw ⟨hl.issue_le, le_refl _⟩
  case renewNow =>
    split at hs <;> cases hs
    case h_1 issue heq =>
      have hren := hl.renewing
      rw [heq] at hren
      exact hi.setRenewing hm hw ⟨hren.1, hren.2, hl.now_le, le_refl _, by have := hren.2; omega⟩
  case renewWrite io =>
    split at hs <;> cases hs
    case h_1 issue now heq =>
      cases io with
      | ok => exact hi.renewWrite hm hw heq (Or.inl rfl) (Or.inl rfl)
      | fail rv landed =>
        refine hi.renewWrite hm hw heq (Or.inr rfl) ?_
        cases landed
        · exact Or.inr ⟨rfl, rfl⟩
        · exact Or.inl rfl

theorem tick {d : Nat} (hlt : tvSec (s.rt + d) < 2 ^ 63)
    (halive : ∀ w, s.leaseHeld = some w → s.bt + d ≤ w.issue + leaseNsec cfg) :
    PfsdInv cfg mine { s with rt := s.rt + d, bt := s.bt + d } := by
  refine { hi with time := hlt, mnt := fun m hm => ?_ }
  have hm' := hi.mnt m hm
  refine ⟨hm'.hostId, hm'.ro, fun w hw => ?_⟩
  have hl := hm'.lease w hw
  have hstamp := hl.stamp
  refine ⟨hl.sector, Nat.le_add_right_of_le hl.issue_le, Nat.le_add_right_of_le hl.now_le, ?_, ?_, hl.record, ?_⟩
  · show s.rt + d + w.issue ≤ s.bt + d + w.now
    omega
  · exact halive w (by rw [leaseHeld, show s.mnt = some m from hm]; exact hw)
  · have hren := hl.renewing
    show m.renewing.Inv (s.rt + d) (s.bt + d) w
    cases hr : m.renewing <;> rw [hr] at hren
    case idle => trivial
    case issued i => exact ⟨hren.1, Nat.le_add_right_of_le hren.2⟩
    case stamped i n =>
      obtain ⟨h1, h2, h3, h4, h5⟩ := hren
      exact ⟨h1, by omega, h3, by omega, by omega⟩

theorem setScan {sc : Scan} (hx : mine x = false)
    (hsc : ∀ a, sc.during = some a → ScanInv cfg mine s.sectors s.leaseHeld sc a) :
    PfsdInv cfg mine { s with scans := update s.scans x (some sc) } := by
  refine { hi with others := ?_, scans := ?_ }
  · exact (forall_update_iff s.scans fun y o => ∀ sc, o = some sc → mine y = false).2 ⟨fun _ _ => hx, fun y _ => hi.others y⟩
  · refine (forall_update_iff s.scans fun _ o => ∀ sc a, o = some sc → sc.during = some a →
      ScanInv cfg mine s.sectors s.leaseHeld sc a).2 ⟨?_, fun y _ => hi.scans y⟩
    rintro _ a ⟨⟩
    exact hsc a

/-- A scan starts while the record of the lease is live for it. -/
theorem scanStart {now : Nat} (hx : mine x = false) (hskew : now ≤ s.rt + cfg.clockSkewMax * nsecPerSec) :
    PfsdInv cfg mine { s with
      scans := update s.scans x (some ⟨now, 1, false, s.leaseHeld.map LeaseWrite.sector⟩) } := by
  refine hi.setScan hx fun a hd => ?_
  obtain ⟨w, hw, rfl⟩ := Option.map_eq_some_iff.mp hd
  obtain ⟨m, hm, hmw⟩ := Option.bind_eq_some_iff.mp hw
  have hl := (hi.mnt m hm).lease w hmw
  obtain ⟨g, n, b, hsec, hn, hle⟩ := hl.record
  have hseen : now ≤ w.now + leaseNsec cfg + cfg.clockSkewMax * nsecPerSec := by
    have h1 := hl.stamp
    have h2 := hl.armed
    omega
  exact ⟨hl.sector, ⟨g, n, b, hsec, hn, by show now ≤ _; omega⟩, Or.inr hl.sector.pos, w, hw, hseen⟩

/-- The read of the sector that shows the record meets it. -/
theorem scanRead {sc : Scan} (hsc : s.scans x = some sc) :
    PfsdInv cfg mine { s with scans := update s.scans x (some (sc.read cfg mine s.sectors x)) } := by
  have hx := hi.others x sc hsc
  have hsame : (sc.read cfg mine s.sectors x).during = sc.during ∧ (sc.read cfg mine s.sectors x).now = sc.now := by
    unfold Scan.read
    split <;> exact ⟨rfl, rfl⟩
  refine hi.setScan hx fun a hd => ?_
  rw [hsame.1] at hd
  have h := hi.scans x sc a hsc hd
  refine ⟨h.sector, by rw [hsame.2]; exact h.record, ?_, by rw [hsame.2]; exact h.held⟩
  -- either the record was met before, or its sector is still ahead, or it is this one
  have hne : a ≠ x := by
    rintro rfl
    rw [h.sector.mine] at hx
    cases hx
  unfold Scan.read
  rcases h.ahead with hmet | hle
  · left
    split
    · exact hmet
    · show (sc.met || _) = true
      rw [hmet, Bool.true_or]
  · rcases Nat.lt_or_ge sc.next a with hlt | hge
    · right
      split <;> exact hlt
    · obtain rfl : sc.next = a := le_antisymm hle hge
      left
      rw [if_neg hne]
      show (sc.met || mine sc.next && liveRw cfg sc.now (s.sectors sc.next)) = true
      rw [h.record.liveRw, h.sector.mine, Bool.and_self, Bool.or_true]

theorem otherWrite {j : Nat} (hj : mine j = false) (hr : HostRecord) :
    PfsdInv cfg mine { s with sectors := update s.sectors j hr } := by
  have hkeep : ∀ {a}, InRange cfg mine a → update s.sectors j hr a = s.sectors a := by
    intro a ha
    refine update_of_ne ?_ ..
    rintro rfl
    rw [ha.mine] at hj
    cases hj
  refine { hi with mnt := fun m hm => ?_, scans := fun x sc a hsc hd => ?_ }
  · have hm' := hi.mnt m hm
    refine ⟨hm'.hostId, hm'.ro, fun w hw => ?_⟩
    have hl := hm'.lease w hw
    refine { hl with record := ?_ }
    show ∃ g n b, update s.sectors j hr w.sector = _ ∧ _
    rw [hkeep hl.sector]
    exact hl.record
  · have h := hi.scans x sc a hsc hd
    refine { h with record := ?_ }
    obtain ⟨g, n, b, hsec, hn, ht⟩ := h.record
    exact ⟨g, n, b, (hkeep h.sector).trans hsec, hn, ht⟩

end PfsdInv

/-- Every host id that a client mounts with is one the file system was formatted for. -/
def mountsInRange (cfg : Config) : PfsdEvent → Bool
  | .acquire hostId _ _ => decide (hostId ≤ cfg.numHosts)
  | _ => true

theorem Pfsd.step_inv {ev : PfsdEvent} (hpos : 0 < cfg.numHosts) (hi : PfsdInv cfg mine s)
    (hok : mountsInRange cfg ev = true) (hs : s.step cfg mine ev = some s') : PfsdInv cfg mine s' := by
  cases ev <;> simp only [step] at hs
  case acquire hostId wr load =>
    split at hs <;> cases hs
    case isTrue hc => exact hi.acquire hpos (by simpa [mountsInRange] using hok) hc.2 wr load
  case orphans ok cleared =>
    split at hs
    case h_2 => cases hs
    case h_1 r hr =>
      split at hs
      case isFalse => cases hs
      case isTrue => exact hi.orphansReclaim (hi.reclaim r hr) hs
  case release hostId cleared =>
    split at hs
    case isFalse => cases hs
    case isTrue => exact hi.release hs
  case remount hostId load =>
    split at hs <;> cases hs
    exact hi.remount hostId load
  case tick d =>
    cases hheld : s.leaseHeld <;> simp only [hheld, decide_eq_true_eq, true_and] at hs <;> split at hs <;> cases hs
    case none.isTrue hc => exact hi.tick hc fun w hw => by rw [hheld] at hw; cases hw
    case some.isTrue w hc =>
      refine hi.tick hc.2 fun w' hw' => ?_
      obtain rfl : w = w' := Option.some.inj (hheld.symm.trans hw')
      exact hc.1
  case die => cases hs; exact hi.die
  case scanStart x now =>
    split at hs <;> cases hs
    case isTrue hc => exact hi.scanStart (by simpa using hc.1) hc.2.1
  case scanRead x =>
    split at hs
    case h_2 => cases hs
    case h_1 sc hsc =>
      split at hs <;> cases hs
      exact hi.scanRead hsc
  case otherWrite j hr =>
    split at hs <;> cases hs
    case isTrue hc => exact hi.otherWrite (by simpa using hc) hr
  all_goals
    split at hs
    case h_2 => cases hs
    case h_1 m hm =>
      obtain ⟨w, hw, hs⟩ := Option.bind_eq_some_iff.mp hs
      exact hi.renew hm hw hs

theorem Pfsd.init_inv (hs : (pfsdSystem cfg mine).init s) : PfsdInv cfg mine s := by
  obtain ⟨_, _, hinfo, _, _, hmnt, hrec, hscan, ht⟩ := hs
  refine ⟨ht, fun i hi => ?_, fun m hm => ?_, fun r hr => ?_, fun x sc hsc => ?_, fun x sc a hsc _ => ?_⟩
  · rw [hinfo] at hi
    rcases hi with hi | hi
    · exact absurd rfl hi
    · cases hi
  · rw [hmnt] at hm; cases hm
  · rw [hrec] at hr; cases hr
  · rw [hscan] at hsc; cases hsc
  · rw [hscan] at hsc; cases hsc

end Steps

/-! ## Every run -/

/-- While the lease is held, the sector of the next renewal is one that is scanned; and a scan that
began under a lease still held has met a record of this node when it is through. -/
structure LeaseScanned (cfg : Config) (s : Pfsd) : Prop where
  renewed : ∀ m, s.mnt = some m → m.lease.isSome → 1 ≤ m.hostId ∧ m.hostId ≤ cfg.numHosts
  met : ∀ x sc, s.scans x = some sc → sc.during.isSome → cfg.numHosts < sc.next → sc.met = true

theorem PfsdInv.leaseScanned {cfg : Config} {mine : Nat → Bool} {s : Pfsd} (hi : PfsdInv cfg mine s) :
    LeaseScanned cfg s := by
  constructor
  · rintro m hm -
    exact ⟨(hi.mnt m hm).hostId.pos, (hi.mnt m hm).hostId.le⟩
  · rintro x sc hsc hd hnext
    obtain ⟨a, ha⟩ := Option.isSome_iff_exists.mp hd
    have h := hi.scans x sc a hsc ha
    refine h.ahead.resolve_right fun hle => ?_
    have := h.sector.le
    omega

/-- In every run in which clients mount with host ids up to `num_hosts`, the lease is renewed in a
sector that other hosts scan, and their scans meet its record. -/
theorem renewed_sector_scanned {cfg : Config} {mine : Nat → Bool} {s : Pfsd}
    (hs : ((pfsdSystem cfg mine).restrict fun _ ev => mountsInRange cfg ev = true).Reachable s) :
    LeaseScanned cfg s := by
  refine (hs.invariant_restrict (P := fun s => 0 < cfg.numHosts ∧ PfsdInv cfg mine s) ?_ ?_).2.leaseScanned
  · rintro s hinit
    exact ⟨hinit.1, init_inv hinit⟩
  · rintro s ev s' ⟨hpos, hinv⟩ hok hstep
    exact ⟨hpos, step_inv hpos hinv hok hstep⟩

/-- Three hosts, leases of ten seconds. -/
def threeHosts : Config := ⟨3, 10, 2, fun _ => 0⟩

/-- A pfsd just started, 100 s on both clocks. -/
def Pfsd.started : Pfsd :=
  ⟨⟨fun _ => ⟨0, false⟩, 0, 0⟩, none, none, fun _ => HostRecord.zero, 100000000000, 100000000000, fun _ => none⟩

theorem Pfsd.started_init (mine : Nat → Bool) : (pfsdSystem threeHosts mine).init started :=
  ⟨by decide, by decide, rfl, rfl, rfl, rfl, rfl, rfl, by decide⟩

/-- Client 1 mounts read-write. Client 200 does so too: the mount is writable already, so nothing
compares 200 with the number of hosts. Client 1 leaves, and the lease goes on under host id 200. -/
theorem not_renewed_sector_scanned :
    ¬ ∀ (cfg : Config) (mine : Nat → Bool) (s : Pfsd), (pfsdSystem cfg mine).Reachable s → LeaseScanned cfg s := by
  intro hall
  have hs := (pfsdSystem threeHosts fun i => i ≠ 3).reachable_last started
    [.acquire 1 true (.ok 0 0 1), .orphans true true, .acquire 200 true (.fail HostRecord.zero), .release 1 true]
    (started_init _) (by decide +kernel)
  have hle := ((hall _ _ _ hs).renewed _ (Option.some_get (by decide +kernel)).symm (by decide +kernel)).2
  revert hle
  decide +kernel

/-- The theorem's runs hand the lease from client 1 to client 2 while host 3 scans. -/
theorem renewed_sector_scanned_handover : ∃ s : Pfsd,
    ((pfsdSystem threeHosts fun i => i ≠ 3).restrict fun _ ev => mountsInRange threeHosts ev = true).Reachable s ∧
      (∃ m, s.mnt = some m ∧ m.lease.map LeaseWrite.sector = some 2 ∧ m.hostId = 2) ∧
      (∃ sc, s.scans 3 = some sc ∧ sc.during = some 1 ∧ sc.next = 4) ∧ LeaseScanned threeHosts s := by
  have hs := ((pfsdSystem threeHosts fun i => i ≠ 3).restrict fun _ ev => mountsInRange threeHosts ev = true).reachable_last
    started
    [.acquire 1 true (.ok 0 0 1), .orphans true true, .acquire 2 true (.fail HostRecord.zero), .tick 1000000000,
      .scanStart 3 102000000000, .release 1 true, .renewIssue, .renewNow, .scanRead 3, .renewWrite .ok, .scanRead 3,
      .scanRead 3] (started_init fun i => i ≠ 3) (by decide +kernel)
  exact ⟨_, hs, ⟨_, (Option.some_get (by decide +kernel)).symm, by decide +kernel⟩,
    ⟨_, (Option.some_get (by decide +kernel)).symm, by decide +kernel⟩, renewed_sector_scanned hs⟩

end PolarFs.Lease
