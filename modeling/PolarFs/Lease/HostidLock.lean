/-
The local lock on a host id (`pfsd_sdk_mount.cc`): a process that mounts a PBD for writing locks the
record of its host id in a lock file of the machine, and in between the record that growfs takes. One
process has one mount (`pfsd_sdk_init`, `pfsd_remount`, `pfsd_umount`); mkfs, fscp and growfs take a
record and keep it until they end.

Failures of `open` and `malloc` and the outcome of the mount itself are inputs. The path of the lock
file is short enough, and 1024 times a host id is an `int`.
-/
import PolarFs.Lib.RecordLock
import PolarFs.Lease.MountRefs

namespace PolarFs.Lease

open Transition RecordLock

abbrev Pid := Nat

/-! ## The record of a host id -/

/-- `FLK_LEN`. -/
def flkLen : Nat := 1024

/-- Host id 0 stands for the whole file. -/
def hostidRange (hostid : Int) : Range := ⟨hostid * flkLen, if 0 < hostid then flkLen else 0⟩

/-- `pfsd_paxos_hostid_local_lock`, and `paxos_hostid_local_lock` of the tools. -/
def hostidLocalLock (f : LockFile Pid) (p : Pid) (hostid : Int) (opened : Bool) : LockFile Pid × Option Nat :=
  if opened then
    let (f', fd) := f.openFd p
    match f'.setlk p (hostidRange hostid) with
    | some f'' => (f'', some fd)
    | none => (f'.closeFd p fd, none)
  else (f, none)

/-- `pfsd_paxos_hostid_local_unlock`. -/
def hostidLocalUnlock (f : LockFile Pid) (p : Pid) : Option Nat → LockFile Pid
  | some fd => f.closeFd p fd
  | none => f

/-! ## The mount of a process -/

/-- `mountargs_t`; -1 is `none`. -/
structure MountArgs where
  metaLockFd : Option Nat
  hostidLockFd : Option Nat
  deriving DecidableEq, Repr

/-- Where a process is: `info` is `s_mount_local_info`, a mount for reading has none. -/
inductive Session where
  | unmounted
  /-- the loop of `pfs_mount_prepare` for the record of growfs -/
  | metaLock (hostId : Int) (flags : MountFlags) (timeoutMs : Int)
  /-- the second half of `pfs_mount_prepare` -/
  | hostidLock (mp : MountArgs) (hostId : Int) (flags : MountFlags)
  /-- between `pfs_mount_prepare` and `pfs_mount_post` -/
  | mounting (mp : Option MountArgs) (hostId : Int) (flags : MountFlags)
  | mounted (info : Option MountArgs) (hostId : Int) (flags : MountFlags)
  /-- between `pfs_remount_prepare` and `pfs_remount_post` -/
  | remounting (mp : MountArgs) (info : Option MountArgs) (hostId : Int) (flags oldFlags : MountFlags)
  /-- between `pfs_umount_prepare` and `pfs_umount_post` -/
  | umounting (info : Option MountArgs) (hostId : Int) (flags : MountFlags)
  /-- mkfs, fscp or growfs with its record -/
  | tool (hostId : Int) (fd : Nat)
  deriving DecidableEq, Repr

/-- A call of the process with its outcome. -/
inductive Call where
  | mountPrepare (hostId : Int) (flags : MountFlags) (malloc : Bool)
  /-- the next lock of `pfs_mount_prepare` -/
  | lock (opened : Bool)
  | mountPost (ok : Bool)
  | remountPrepare (flags : MountFlags) (malloc opened : Bool)
  | remountPost (ok : Bool)
  | umountPrepare
  /-- the session shuts down or does not, then `pfs_umount_post` or nothing -/
  | umountPost (shutdown : Bool)
  | toolLock (hostId : Int) (opened : Bool)
  | exit
  deriving DecidableEq, Repr

/-- `MOUNT_PREPARE_TIMEOUT_MS`. -/
def mountPrepareTimeoutMs : Int := 30 * 1000

/-- The record that `pfs_mount_prepare` locks for the host id. -/
def lockHostid (hostId : Int) (flags : MountFlags) : Int :=
  if flags.tool ∧ hostId = 0 then defaultMaxHosts + 2 else hostId

/-- `pfs_mount_prepare` up to its first lock. -/
def mountPrepare (hostId : Int) (flags : MountFlags) (malloc : Bool) : Session :=
  if !flags.wr then .mounting none hostId flags
  else if !malloc then .unmounted
  else if !flags.tool then .metaLock hostId flags mountPrepareTimeoutMs
  else .hostidLock ⟨none, none⟩ hostId flags

/-- One round of the loop for the record of growfs. -/
def metaLock (f : LockFile Pid) (p : Pid) (hostId : Int) (flags : MountFlags) (timeoutMs : Int) (opened : Bool) :
    LockFile Pid × Session :=
  match hostidLocalLock f p (defaultMaxHosts + 1) opened with
  | (f', some fd) => (f', .hostidLock ⟨some fd, none⟩ hostId flags)
  | (f', none) => (f', if 0 ≤ timeoutMs - 10 then .metaLock hostId flags (timeoutMs - 10) else .unmounted)

/-- The lock on the host id in `pfs_mount_prepare`, and its `err_handle`. -/
def hostidLock (f : LockFile Pid) (p : Pid) (mp : MountArgs) (hostId : Int) (flags : MountFlags) (opened : Bool) :
    LockFile Pid × Session :=
  match hostidLocalLock f p (lockHostid hostId flags) opened with
  | (f', some fd) => (f', .mounting (some { mp with hostidLockFd := some fd }) hostId flags)
  | (f', none) => (hostidLocalUnlock (hostidLocalUnlock f' p mp.hostidLockFd) p mp.metaLockFd, .unmounted)

/-- `pfs_mount_post`; there is nothing to do for a mount that has no handle. -/
def mountPost (f : LockFile Pid) (p : Pid) (mp : Option MountArgs) (hostId : Int) (flags : MountFlags) (ok : Bool) :
    LockFile Pid × Session :=
  match mp with
  | none => (f, if ok then .mounted none hostId flags else .unmounted)
  | some mp =>
    let f' := hostidLocalUnlock f p mp.metaLockFd
    if ok then (f', .mounted (some { mp with metaLockFd := none }) hostId flags)
    else (hostidLocalUnlock f' p mp.hostidLockFd, .unmounted)

/-- `pfsd_remount` up to the return of `pfs_remount_prepare`. -/
def remountPrepare (f : LockFile Pid) (p : Pid) (info : Option MountArgs) (hostId : Int) (oldFlags flags : MountFlags)
    (malloc opened : Bool) : LockFile Pid × Session :=
  if oldFlags.wr ∨ flags.tool ∨ !flags.wr ∨ !malloc then (f, .mounted info hostId oldFlags)
  else
    match hostidLocalLock f p hostId opened with
    | (f', some fd) => (f', .remounting ⟨none, some fd⟩ info hostId flags oldFlags)
    | (f', none) => (f', .mounted info hostId oldFlags)

/-- `pfs_remount_post`, and what `pfsd_remount` does with the handle. -/
def remountPost (f : LockFile Pid) (p : Pid) (mp : MountArgs) (info : Option MountArgs) (hostId : Int)
    (flags oldFlags : MountFlags) (ok : Bool) : LockFile Pid × Session :=
  if ok then (f, .mounted (some mp) hostId flags)
  else (hostidLocalUnlock f p mp.hostidLockFd, .mounted info hostId oldFlags)

/-- `pfs_umount_prepare`. -/
def umountPrepare (f : LockFile Pid) (p : Pid) (info : Option MountArgs) (hostId : Int) (flags : MountFlags) :
    LockFile Pid × Session :=
  match info with
  | none => (f, .umounting none hostId flags)
  | some mp => (hostidLocalUnlock f p mp.metaLockFd, .umounting (some { mp with metaLockFd := none }) hostId flags)

/-- `pfs_umount_post`. -/
def umountPost (f : LockFile Pid) (p : Pid) (info : Option MountArgs) : LockFile Pid × Session :=
  match info with
  | none => (f, .unmounted)
  | some mp => (hostidLocalUnlock f p mp.hostidLockFd, .unmounted)

def toolLock (f : LockFile Pid) (p : Pid) (hostId : Int) (opened : Bool) : LockFile Pid × Session :=
  match hostidLocalLock f p hostId opened with
  | (f', some fd) => (f', .tool hostId fd)
  | (f', none) => (f', .unmounted)

def Session.step (f : LockFile Pid) (p : Pid) (s : Session) (c : Call) : Option (LockFile Pid × Session) :=
  match s, c with
  | _, .exit => some (f.exit p, .unmounted)
  | .unmounted, .mountPrepare hostId flags malloc => some (f, Lease.mountPrepare hostId flags malloc)
  | .unmounted, .toolLock hostId opened => some (Lease.toolLock f p hostId opened)
  | .metaLock hostId flags timeoutMs, .lock opened => some (Lease.metaLock f p hostId flags timeoutMs opened)
  | .hostidLock mp hostId flags, .lock opened => some (Lease.hostidLock f p mp hostId flags opened)
  | .mounting mp hostId flags, .mountPost ok => some (Lease.mountPost f p mp hostId flags ok)
  | .mounted info hostId oldFlags, .remountPrepare flags malloc opened =>
    some (Lease.remountPrepare f p info hostId oldFlags flags malloc opened)
  | .remounting mp info hostId flags oldFlags, .remountPost ok =>
    some (Lease.remountPost f p mp info hostId flags oldFlags ok)
  | .mounted info hostId flags, .umountPrepare => some (Lease.umountPrepare f p info hostId flags)
  | .umounting info hostId flags, .umountPost shutdown =>
    some (if shutdown then Lease.umountPost f p info else (f, .mounted info hostId flags))
  | _, _ => none

/-- The lock file of a PBD on one machine, and the processes there. -/
structure Machine where
  file : LockFile Pid
  proc : Pid → Session

/-- A process makes a call. -/
abbrev MachineStep := Pid × Call

def Machine.step (s : Machine) (ev : MachineStep) : Option Machine :=
  ((s.proc ev.1).step s.file ev.1 ev.2).map fun r => ⟨r.1, Function.update s.proc ev.1 r.2⟩

/-- Nobody has the lock file open to begin with. -/
def hostidLockSystem : System Machine MachineStep where
  init s := s.file.locks = [] ∧ s.file.fds = [] ∧ ∀ p, s.proc p = .unmounted
  step := Machine.step

/-! ## What the locks are for -/

open Session

/-- The host id of a read-write mount that is not a tool's, from its post step to that of its umount. -/
def Session.writer : Session → Option Int
  | .mounted _ hostId flags | .umounting _ hostId flags => if flags.wr ∧ !flags.tool then some hostId else none
  | _ => none

/-- The host id with which the process has passed `pfs_mount_prepare` or `pfs_remount_prepare` for
write access. -/
def Session.passed : Session → Option Int
  | .mounting (some _) hostId _ | .mounted (some _) hostId _ | .umounting (some _) hostId _ => some hostId
  | .remounting _ _ hostId _ _ => some hostId
  | _ => none

/-- The host id whose record the process has been granted. -/
def Session.locked : Session → Option Int
  | .mounting (some _) hostId flags | .mounted (some _) hostId flags | .umounting (some _) hostId flags =>
    some (lockHostid hostId flags)
  | .remounting _ _ hostId _ _ => some hostId
  | .tool hostId _ => some hostId
  | _ => none

/-- While a process has the PBD mounted for writing under a host id, no other one gets write access
under it, and none gets the whole file. -/
def HostidExclusive (s : Machine) : Prop :=
  ∀ p q h, p ≠ q → (s.proc p).writer = some h → (s.proc q).passed ≠ some h ∧ (s.proc q).locked ≠ some 0

/-- The post step of a mount that succeeds has no second descriptor to close. -/
def keepsHostidLock (s : Machine) (ev : MachineStep) : Bool :=
  match s.proc ev.1, ev.2 with
  | .mounting (some mp) _ _, .mountPost true => mp.metaLockFd.isNone
  | _, _ => true

/-! ## The invariant -/

/-- What a process relies on: it has a handle exactly when it is on its way to write access. -/
def Session.Ok : Session → Prop
  | .metaLock _ flags _ | .hostidLock _ _ flags => flags.wr = true
  | .mounting mp _ flags => mp = none ↔ flags.wr = false
  | .mounted info _ flags | .umounting info _ flags =>
    (info = none ↔ flags.wr = false) ∧ ∀ mp, info = some mp → mp.metaLockFd = none
  | .remounting mp info _ flags oldFlags => mp.metaLockFd = none ∧ info = none ∧ flags.wr = true ∧
    flags.tool = false ∧ oldFlags.wr = false
  | .unmounted | .tool _ _ => True

/-- The process has the lock it was granted. -/
def Session.Holds (f : LockFile Pid) (p : Pid) (s : Session) : Prop :=
  ∀ h, s.locked = some h → 0 ≤ h ∧ (p, hostidRange h) ∈ f.locks

structure Machine.Inv (s : Machine) : Prop where
  exclusive : s.file.Exclusive
  ok : ∀ p, (s.proc p).Ok
  holds : ∀ p, (s.proc p).Holds s.file p

section Calls

variable {f f' : LockFile Pid} {p : Pid} {s s' : Session} {c : Call} {hostId : Int} {flags : MountFlags}

/-- Every record has a byte in common with the whole file. -/
theorem mem_hostidRange {h : Int} (hh : 0 ≤ h) : h * flkLen ∈ hostidRange h ∧ h * flkLen ∈ hostidRange 0 := by
  have hlen : flkLen = 1024 := rfl
  refine ⟨⟨le_refl _, ?_⟩, ⟨?_, Or.inl rfl⟩⟩
  · show (if 0 < h then flkLen else 0) = 0 ∨ h * flkLen < h * flkLen + ((if 0 < h then flkLen else 0 : Nat) : Int)
    split
    · right; omega
    · exact Or.inl rfl
  · show (0 : Int) * flkLen ≤ h * flkLen
    rw [hlen]; omega

/-- A lock is granted with its record, or only the process's own locks are touched. -/
theorem hostidLocalLock_spec (f : LockFile Pid) (p : Pid) (h : Int) (opened : Bool) :
    LockFile.OwnStep p f (hostidLocalLock f p h opened).1 ∧
      ∀ fd, (hostidLocalLock f p h opened).2 = some fd →
        0 ≤ h ∧ (p, hostidRange h) ∈ (hostidLocalLock f p h opened).1.locks := by
  unfold hostidLocalLock
  split
  case isFalse => exact ⟨.refl p f, fun fd hfd => by cases hfd⟩
  case isTrue =>
    have hopen := LockFile.OwnStep.openFd f p
    dsimp only
    cases hset : (f.openFd p).1.setlk p (hostidRange h) with
    | none => exact ⟨hopen.trans (.closeFd _ p _), fun fd hfd => by cases hfd⟩
    | some f' =>
      refine ⟨hopen.trans (.setlk hset), fun fd _ => ?_⟩
      obtain ⟨hstart, hlocks, _⟩ := LockFile.setlk_some hset
      have hpos : (0 : Int) ≤ h * (1024 : Nat) := hstart
      exact ⟨by omega, by rw [hlocks]; exact List.mem_cons_self⟩

theorem hostidLocalUnlock_ownStep (f : LockFile Pid) (p : Pid) (fd : Option Nat) :
    LockFile.OwnStep p f (hostidLocalUnlock f p fd) := by
  cases fd with
  | none => exact .refl p f
  | some fd => exact .closeFd f p fd

/-- What a call of `p` gives. -/
structure CallOk (f : LockFile Pid) (p : Pid) (r : LockFile Pid × Session) : Prop where
  own : LockFile.OwnStep p f r.1
  ok : r.2.Ok
  holds : r.2.Holds r.1 p

theorem CallOk.of_unlocked {r : LockFile Pid × Session} (hown : LockFile.OwnStep p f r.1) (hok : r.2.Ok)
    (hlocked : r.2.locked = none) : CallOk f p r :=
  ⟨hown, hok, fun h hh => by rw [hlocked] at hh; cases hh⟩

theorem mountPrepare_ok (hostId : Int) (flags : MountFlags) (malloc : Bool) :
    CallOk f p (f, mountPrepare hostId flags malloc) := by
  refine .of_unlocked (.refl p f) ?_ ?_
  · dsimp only [mountPrepare]
    cases hwr : flags.wr with
    | false => exact ⟨fun _ => hwr, fun _ => rfl⟩
    | true => simp only [Bool.not_true, Bool.false_eq_true, if_false]; split_ifs <;> trivial
  · dsimp only [mountPrepare]
    split_ifs <;> rfl

theorem toolLock_ok (hostId : Int) (opened : Bool) : CallOk f p (toolLock f p hostId opened) := by
  obtain ⟨hown, hgrant⟩ := hostidLocalLock_spec f p hostId opened
  unfold toolLock
  split
  case h_1 f' fd heq =>
    rw [heq] at hown hgrant
    refine ⟨hown, trivial, fun h hh => ?_⟩
    cases hh
    exact hgrant fd rfl
  case h_2 f' heq =>
    rw [heq] at hown
    exact .of_unlocked hown trivial rfl

theorem metaLock_ok (timeoutMs : Int) (opened : Bool) (hwr : flags.wr = true) :
    CallOk f p (metaLock f p hostId flags timeoutMs opened) := by
  obtain ⟨hown, _⟩ := hostidLocalLock_spec f p (defaultMaxHosts + 1) opened
  unfold metaLock
  split
  case h_1 f' fd heq =>
    rw [heq] at hown
    exact .of_unlocked hown hwr rfl
  case h_2 f' heq =>
    rw [heq] at hown
    refine .of_unlocked hown ?_ ?_
    · dsimp only; split <;> first | exact hwr | trivial
    · dsimp only; split <;> rfl

theorem hostidLock_ok (mp : MountArgs) (opened : Bool) (hwr : flags.wr = true) :
    CallOk f p (hostidLock f p mp hostId flags opened) := by
  obtain ⟨hown, hgrant⟩ := hostidLocalLock_spec f p (lockHostid hostId flags) opened
  unfold hostidLock
  split
  case h_1 f' fd heq =>
    rw [heq] at hown hgrant
    refine ⟨hown, ?_, fun h hh => ?_⟩
    · simp [Session.Ok, hwr]
    · cases hh
      exact hgrant fd rfl
  case h_2 f' heq =>
    rw [heq] at hown
    exact .of_unlocked ((hown.trans (hostidLocalUnlock_ownStep _ p _)).trans (hostidLocalUnlock_ownStep _ p _)) trivial rfl

/-- The post step of a mount keeps the record when there is no second descriptor. -/
theorem mountPost_ok {mp : Option MountArgs} {ok : Bool} (hs : (mounting mp hostId flags).Ok)
    (hh : (mounting mp hostId flags).Holds f p) (hkeep : ∀ a, mp = some a → ok = true → a.metaLockFd = none) :
    CallOk f p (mountPost f p mp hostId flags ok) := by
  cases mp with
  | none =>
    refine .of_unlocked (.refl p f) ?_ ?_
    · dsimp only [mountPost]
      split
      · exact ⟨hs, fun mp hmp => by cases hmp⟩
      · trivial
    · dsimp only [mountPost]; split <;> rfl
  | some a =>
    have hwr : flags.wr = true := by simpa [Session.Ok] using hs
    unfold mountPost
    dsimp only
    cases ok with
    | true =>
      rw [if_pos rfl, hkeep a rfl rfl]
      refine ⟨.refl p f, ⟨?_, ?_⟩, hh⟩
      · simp [hwr]
      · intro mp hmp
        cases hmp
        rfl
    | false =>
      exact .of_unlocked ((hostidLocalUnlock_ownStep f p _).trans (hostidLocalUnlock_ownStep _ p _)) trivial rfl

theorem remountPrepare_ok {info : Option MountArgs} {oldFlags : MountFlags}
    (hs : (mounted info hostId oldFlags).Ok) (hh : (mounted info hostId oldFlags).Holds f p)
    (flags : MountFlags) (malloc opened : Bool) :
    CallOk f p (remountPrepare f p info hostId oldFlags flags malloc opened) := by
  unfold remountPrepare
  split
  case isTrue => exact ⟨.refl p f, hs, hh⟩
  case isFalse hflags =>
    simp only [not_or, Bool.not_eq_true, Bool.not_eq_eq_eq_not, Bool.not_true, Bool.not_eq_false] at hflags
    obtain ⟨hold, htool, hwr, _⟩ := hflags
    -- a mount that may be promoted is one for reading: it has no handle
    have hinfo : info = none := hs.1.2 hold
    obtain ⟨hown, hgrant⟩ := hostidLocalLock_spec f p hostId opened
    split
    case h_1 f' fd heq =>
      rw [heq] at hown hgrant
      refine ⟨hown, ⟨rfl, hinfo, hwr, htool, hold⟩, fun h hh => ?_⟩
      cases hh
      exact hgrant fd rfl
    case h_2 f' heq =>
      rw [heq] at hown
      refine .of_unlocked hown hs ?_
      dsimp only
      rw [hinfo]
      rfl

theorem remountPost_ok {mp : MountArgs} {info : Option MountArgs} {oldFlags : MountFlags}
    (hs : (remounting mp info hostId flags oldFlags).Ok)
    (hh : (remounting mp info hostId flags oldFlags).Holds f p) (ok : Bool) :
    CallOk f p (remountPost f p mp info hostId flags oldFlags ok) := by
  obtain ⟨hmeta, rfl, hwr, htool, hold⟩ := hs
  unfold remountPost
  split
  · refine ⟨.refl p f, ⟨?_, ?_⟩, fun h hlocked => ?_⟩
    · simp [hwr]
    · intro mp' hmp
      cases hmp
      exact hmeta
    · have hlock : lockHostid hostId flags = hostId := by simp [lockHostid, htool]
      rw [locked, hlock] at hlocked
      exact hh h hlocked
  · refine .of_unlocked (hostidLocalUnlock_ownStep f p _) ⟨?_, ?_⟩ rfl
    · simp [hold]
    · intro mp' hmp
      cases hmp

theorem umountPrepare_ok {info : Option MountArgs} (hs : (mounted info hostId flags).Ok)
    (hh : (mounted info hostId flags).Holds f p) : CallOk f p (umountPrepare f p info hostId flags) := by
  cases info with
  | none => exact .of_unlocked (.refl p f) hs rfl
  | some mp =>
    have hmeta : mp.metaLockFd = none := hs.2 mp rfl
    rw [umountPrepare, hmeta]
    refine ⟨.refl p f, ⟨?_, ?_⟩, hh⟩
    · have := hs.1
      simpa using this
    · intro mp' hmp
      cases hmp
      rfl

theorem umountPost_ok (f : LockFile Pid) (p : Pid) (info : Option MountArgs) : CallOk f p (umountPost f p info) := by
  cases info with
  | none => exact .of_unlocked (.refl p f) trivial rfl
  | some mp => exact .of_unlocked (hostidLocalUnlock_ownStep f p _) trivial rfl

/-- Every call keeps the process's record as long as it needs it. -/
theorem Session.step_ok {r : LockFile Pid × Session} (hs : s.Ok) (hh : s.Holds f p)
    (hkeep : ∀ a hostId flags, s = .mounting (some a) hostId flags → c = .mountPost true → a.metaLockFd = none)
    (hstep : s.step f p c = some r) : CallOk f p r := by
  unfold step at hstep
  split at hstep <;> cases hstep
  · exact .of_unlocked (.exit f p) trivial rfl
  case h_2 hostId flags malloc => exact mountPrepare_ok hostId flags malloc
  case h_3 hostId opened => exact toolLock_ok hostId opened
  case h_4 hostId flags timeoutMs opened => exact metaLock_ok timeoutMs opened hs
  case h_5 mp hostId flags opened => exact hostidLock_ok mp opened hs
  case h_6 mp hostId flags ok =>
    refine mountPost_ok hs hh fun a hmp hok => ?_
    subst hmp hok
    exact hkeep a hostId flags rfl rfl
  case h_7 info hostId oldFlags flags malloc opened => exact remountPrepare_ok hs hh flags malloc opened
  case h_8 mp info hostId flags oldFlags ok => exact remountPost_ok hs hh ok
  case h_9 => exact umountPrepare_ok hs hh
  case h_10 info hostId flags shutdown =>
    split
    · exact umountPost_ok f p info
    · exact ⟨.refl p f, hs, fun h hlocked => hh h (by cases info <;> exact hlocked)⟩

end Calls

/-! ## Exclusivity -/

theorem Machine.step_inv {s s' : Machine} {ev : MachineStep} (hi : s.Inv) (hok : keepsHostidLock s ev = true)
    (hs : s.step ev = some s') : s'.Inv := by
  obtain ⟨p, c⟩ := ev
  obtain ⟨r, hr, rfl⟩ := Option.map_eq_some_iff.mp hs
  have hcall : CallOk s.file p r := by
    refine step_ok (hi.ok p) (hi.holds p) (fun a hostId flags hses hc => ?_) hr
    subst hc
    simpa [keepsHostidLock, hses] using hok
  refine ⟨hcall.own.exclusive hi.exclusive, fun q => ?_, fun q => ?_⟩ <;> dsimp only <;> by_cases hq : q = p
  · subst hq; rw [Function.update_self]; exact hcall.ok
  · rw [Function.update_of_ne hq]; exact hi.ok q
  · subst hq; rw [Function.update_self]; exact hcall.holds
  · -- the others keep their records
    rw [Function.update_of_ne hq]
    intro h hlocked
    obtain ⟨hpos, hmem⟩ := hi.holds q h hlocked
    exact ⟨hpos, hcall.own.other _ hmem hq⟩

theorem Session.locked_of_writer {s : Session} {h : Int} (hs : s.Ok) (hw : s.writer = some h) : s.locked = some h := by
  have hflags : ∀ {flags : MountFlags} {hostId : Int} {info : Option MountArgs}, (info = none ↔ flags.wr = false) →
      (if flags.wr ∧ !flags.tool then some hostId else none) = some h →
      (∃ mp, info = some mp) ∧ lockHostid hostId flags = h := by
    intro flags hostId info hinfo heq
    obtain ⟨hc, heq⟩ := Option.ite_none_right_eq_some.1 heq
    cases heq
    cases info with
    | none => rw [hinfo.1 rfl] at hc; exact absurd hc.1 (by simp)
    | some mp =>
      have htool : flags.tool = false := by simpa using hc.2
      exact ⟨⟨mp, rfl⟩, by simp [lockHostid, htool]⟩
  cases s with
  | mounted info hostId flags | umounting info hostId flags =>
    obtain ⟨⟨mp, rfl⟩, hlock⟩ := hflags hs.1 hw
    rw [locked, hlock]
  | _ => cases hw

/-- The record of a process that has passed, which is another one for a tool without host id. -/
theorem Session.locked_of_passed {s : Session} {h : Int} (hp : s.passed = some h) :
    s.locked = some h ∨ (h = 0 ∧ s.locked = some (defaultMaxHosts + 2)) := by
  have hflags : ∀ (hostId : Int) (flags : MountFlags), some hostId = some h →
      some (lockHostid hostId flags) = some h ∨ (h = 0 ∧ some (lockHostid hostId flags) = some (defaultMaxHosts + 2 : Int)) := by
    intro hostId flags heq
    cases heq
    unfold lockHostid
    split
    case isTrue hc => exact Or.inr ⟨hc.2, rfl⟩
    case isFalse => exact Or.inl rfl
  cases s with
  | mounting mp hostId flags => cases mp with
    | none => cases hp
    | some mp => exact hflags hostId flags hp
  | mounted info hostId flags | umounting info hostId flags => cases info with
    | none => cases hp
    | some mp => exact hflags hostId flags hp
  | remounting => exact Or.inl hp
  | _ => cases hp

theorem Machine.Inv.exclusive_hostid {s : Machine} (hi : s.Inv) : HostidExclusive s := by
  intro p q h hpq hw
  obtain ⟨hpos, hmem⟩ := hi.holds p h (locked_of_writer (hi.ok p) hw)
  -- no other process has a record that meets this one
  have hfree : ∀ h' x, (s.proc q).locked = some h' → x ∈ hostidRange h → x ∉ hostidRange h' := by
    intro h' x hq hx hx'
    exact hpq (hi.exclusive.owner_eq hmem (hi.holds q h' hq).2 hx hx')
  constructor
  · intro hp
    rcases locked_of_passed hp with hq | ⟨rfl, hq⟩
    · exact hfree h _ hq (mem_hostidRange hpos).1 (mem_hostidRange hpos).1
    · have hrange := mem_hostidRange (h := (defaultMaxHosts + 2 : Int)) (by decide)
      exact hfree _ _ hq hrange.2 hrange.1
  · intro hq
    exact hfree 0 _ hq (mem_hostidRange hpos).1 (mem_hostidRange hpos).2

/-- In every history in which no post step of a mount that succeeds has a second descriptor to close,
host ids are exclusive on the machine. -/
theorem local_hostid_exclusive {s : Machine}
    (hs : (hostidLockSystem.restrict fun s ev => keepsHostidLock s ev = true).Reachable s) : HostidExclusive s := by
  have hi : s.Inv := by
    refine hs.invariant_restrict (fun s h0 => ?_) fun _ _ _ hi hok hstep => Machine.step_inv hi hok hstep
    obtain ⟨hlocks, _, hproc⟩ := h0
    refine ⟨fun l hl => ?_, fun p => ?_, fun p h hlocked => ?_⟩
    · rw [hlocks] at hl
      cases hl
    · rw [hproc p]; trivial
    · rw [hproc p] at hlocked; cases hlocked
  exact hi.exclusive_hostid

def Machine.fresh : Machine := ⟨⟨[], [], 0⟩, fun _ => .unmounted⟩

theorem Machine.fresh_init : hostidLockSystem.init Machine.fresh := ⟨rfl, rfl, fun _ => rfl⟩

/-- `PFS_RDWR` and `PFS_RD`. -/
def rdwrFlags : MountFlags := ⟨true, true, false⟩

def rdFlags : MountFlags := ⟨false, true, false⟩

/-- Process 1 mounts for reading and is promoted; process 2 wants the same host id, and mkfs comes. -/
def promotedRun : List MachineStep :=
  [(1, .mountPrepare 3 rdFlags true), (1, .mountPost true), (1, .remountPrepare rdwrFlags true true),
    (1, .remountPost true), (2, .mountPrepare 3 rdwrFlags true), (2, .lock true), (2, .lock true), (4, .toolLock 0 true)]

theorem local_hostid_exclusive_promotedRun : ∃ s : Machine,
    (hostidLockSystem.restrict fun s ev => keepsHostidLock s ev = true).Reachable s ∧
      (s.proc 1).writer = some 3 ∧ s.proc 2 = .unmounted ∧ s.proc 4 = .unmounted ∧ HostidExclusive s := by
  have hs := (hostidLockSystem.restrict fun s ev => keepsHostidLock s ev = true).reachable_last Machine.fresh promotedRun
    Machine.fresh_init (by decide +kernel)
  exact ⟨_, hs, by decide +kernel, by decide +kernel, by decide +kernel, local_hostid_exclusive hs⟩

/-- Two processes mount for writing under one host id, one after the other. -/
def doubleMountRun : List MachineStep :=
  [(1, .mountPrepare 3 rdwrFlags true), (1, .lock true), (1, .lock true), (1, .mountPost true),
    (2, .mountPrepare 3 rdwrFlags true), (2, .lock true), (2, .lock true)]

/-- `pfs_mount_post` closes the descriptor of growfs's record, and the host id's record goes with it. -/
theorem not_local_hostid_exclusive : ¬ ∀ s : Machine, hostidLockSystem.Reachable s → HostidExclusive s := by
  intro hall
  have hs := hostidLockSystem.reachable_last Machine.fresh doubleMountRun Machine.fresh_init (by decide +kernel)
  exact (hall _ hs 1 2 3 (by decide) (by decide +kernel)).1 (by decide +kernel)

end PolarFs.Lease
