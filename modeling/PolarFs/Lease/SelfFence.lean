/-
The self-fence of the log thread (`pfs_log_thread_entry`) over the whole life of a mount: mounts,
promotions, demotions and unmounts, and the log thread with its local `last_renew`.

`last_renew` is set when the thread starts and by each renewal that succeeds, never by a promotion:
the thread outlives the holding periods. A first renewal that fails soon after a promotion is
therefore measured from before the promotion and aborts at once.
-/
import PolarFs.Lib.Transition
import PolarFs.Lease.Record

namespace PolarFs.Lease

open Transition

/-! ## The two threads -/

/-- `log_state`; `stop` also before `pfs_log_start`. -/
inductive LogState where
  | notLoaded
  | serving
  | suspended
  | stop
  deriving DecidableEq, Repr

/-- Where the log thread is: not running, before the first clock reading, at the top of its loop,
about to write the renewal with the loop's clock reading `ts`, or in the wait for requests. -/
inductive LogThread where
  | off
  | start
  | top
  | renew (ts : Nat)
  | wait
  deriving DecidableEq, Repr

/-- The clock reading of the loop iteration whose renewal is under way. -/
def LogThread.reading : LogThread → Option Nat
  | .renew ts => some ts
  | _ => none

/-- Which function has called `pfs_leader_load`: `pfs_mount`, `pfs_remount_rw`, its read-only
restore, or `pfs_remount_ro`. -/
inductive LoadCaller where
  | mount
  | remountRw
  | restoreRo
  | remountRo
  deriving DecidableEq, Repr

/-- Where the thread is that mounts, remounts and unmounts. `load` is inside `pfs_leader_load`
before the acquire write (`wr`: for a writable mount), `acquired` after it. -/
inductive Client where
  | out
  | load (caller : LoadCaller) (wr : Bool)
  | acquired (caller : LoadCaller)
  | logStart
  | mounted
  | suspending (wr : Bool)
  | unloading (wr : Bool)
  | resuming
  | stopping
  | unmounting
  deriving DecidableEq, Repr

/-- One mount and its log thread; `rt` is CLOCK_REALTIME. `lastWrite` is the time of the last successful
lease write of the holding period, `fresh` tells whether `last_renew` was set in that period, and
`late` how many seconds after the reading it was set to the write ended. -/
structure FencedMount where
  rt : Nat
  logState : LogState
  rwLeaseHeld : Bool
  client : Client
  thread : LogThread
  lastRenew : Nat
  aborted : Bool
  lastWrite : Nat
  fresh : Bool
  late : Nat
  deriving DecidableEq, Repr

inductive FenceEvent where
  | tick (δ : Nat)
  -- the client thread
  | mount (wr : Bool)
  | acquireWrite (ok : Bool)
  | loadDone
  | loadFails
  | logStart
  | remount (wr : Bool)
  | unload
  | umount
  -- the log thread
  | threadStart
  | loopTop
  | renewed (ok : Bool)
  | wake
  | serve
  deriving DecidableEq, Repr

/-! ## Steps -/

section Step

variable (cfg : Config) (logPaxosLease : Int)

/-- Where a `pfs_leader_load` that succeeded returns to. -/
def LoadCaller.done : LoadCaller → Client
  | .mount => .logStart
  | .remountRw | .restoreRo | .remountRo => .resuming

/-- Where one that failed returns to: `pfs_mount` gives up, `pfs_remount_rw` restores the read-only
mount. A failed read-only load exits the process. -/
def LoadCaller.failed : LoadCaller → Option Client
  | .mount => some .out
  | .remountRw => some (.load .restoreRo false)
  | .restoreRo | .remountRo => none

/-- Whole seconds between two readings as the loop computes them. -/
def secDiff (ts since : Nat) : Int := (tvSec ts : Int) - tvSec since

/-- The loop's test for a renewal at the clock reading `ts`. -/
def renewDue (m : FencedMount) (ts : Nat) : Bool :=
  m.logState != .suspended && (m.rwLeaseHeld && decide (logPaxosLease ≤ secDiff ts m.lastRenew))

def FencedMount.step (m : FencedMount) (e : FenceEvent) : Option FencedMount :=
  if m.aborted then none
  else match e, m.client, m.thread with
    | .tick δ, _, _ => some { m with rt := m.rt + δ }
    | .mount wr, .out, _ => some { m with client := .load .mount wr }
    | .acquireWrite true, .load caller true, _ =>
      some { m with client := .acquired caller, lastWrite := m.rt, fresh := false }
    | .acquireWrite false, .load caller true, _ =>
      caller.failed.map fun client => { m with client }
    | .loadDone, .acquired caller, _ => some { m with rwLeaseHeld := true, client := caller.done }
    | .loadDone, .load caller false, _ => some { m with client := caller.done }
    | .loadFails, .load caller _, _ | .loadFails, .acquired caller, _ =>
      caller.failed.map fun client => { m with client }
    | .logStart, .logStart, _ => some { m with client := .mounted, thread := .start, logState := .notLoaded }
    | .remount wr, .mounted, _ =>
      -- `pfs_remount_ro` only acts on a writable mount
      if m.logState = .serving ∧ (wr ∨ m.rwLeaseHeld) then some { m with client := .suspending wr } else none
    | .unload, .unloading wr, _ =>
      some { m with rwLeaseHeld := false, client := .load (if wr then .remountRw else .remountRo) wr }
    | .unload, .unmounting, _ => some { m with rwLeaseHeld := false, client := .out }
    | .umount, .mounted, _ => some { m with client := .stopping }
    | .threadStart, _, .start => some { m with lastRenew := m.rt, fresh := m.rwLeaseHeld, late := 0, thread := .top }
    | .loopTop, _, .top =>
      some { m with thread := if renewDue logPaxosLease m m.rt then .renew m.rt else .wait }
    | .renewed true, _, .renew ts =>
      some { m with lastRenew := ts, lastWrite := m.rt, fresh := true, late := tvSec m.rt - tvSec ts, thread := .wait }
    | .renewed false, _, .renew ts =>
      some { m with aborted := decide ((cfg.leaseDuration : Int) ≤ secDiff ts m.lastRenew), thread := .wait }
    | .wake, _, .wait => some { m with thread := .top }
    | .serve, client, .wait =>
      match m.logState, client with
      | .notLoaded, .mounted => some { m with logState := .serving, thread := .top }
      | .serving, .suspending wr => some { m with logState := .suspended, client := .unloading wr, thread := .top }
      | .suspended, .resuming => some { m with logState := .serving, client := .mounted, thread := .top }
      | .notLoaded, .stopping | .serving, .stopping =>
        some { m with logState := .stop, client := .unmounting, thread := .off }
      | _, _ => none
    | _, _, _ => none

/-- No mount yet, whatever the clock reads. -/
def FencedMount.Init (m : FencedMount) : Prop :=
  m.logState = .stop ∧ m.rwLeaseHeld = false ∧ m.client = .out ∧ m.thread = .off ∧ m.aborted = false

def fenceSystem : System FencedMount FenceEvent where
  init := FencedMount.Init
  step := FencedMount.step cfg logPaxosLease

end Step

/-! ## What the two threads exclude -/

/-- The client's phases in which the log thread may be anywhere in its loop; in the others it is
stopped, or suspended and passing over the renewal. -/
def Client.serving : Client → Bool
  | .mounted | .suspending _ | .stopping => true
  | _ => false

/-- The client is inside a remount's window between LOG_SUSPEND and LOG_RESUME. -/
def Client.remounting : Client → Bool
  | .load .mount _ | .acquired .mount => false
  | .load .. | .acquired _ | .unloading _ | .resuming => true
  | _ => false

/-- A holding period has begun: its acquire write has succeeded. -/
def FencedMount.InPeriod (m : FencedMount) : Prop := m.rwLeaseHeld = true ∨ ∃ caller, m.client = .acquired caller

/-- What holds in every state of a run. -/
structure FencedMount.Inv (m : FencedMount) : Prop where
  /-- While the mount does not serve, the log thread is stopped, or suspended by a remount. -/
  quiet : m.client.serving = false → m.thread = .off ∨
    (m.client.remounting = true ∧ m.logState = .suspended ∧ (m.thread = .top ∨ m.thread = .wait))
  renewing : ∀ ts, m.thread = .renew ts → m.rwLeaseHeld = true ∧ ts ≤ m.rt
  written : m.InPeriod → m.lastWrite ≤ m.rt
  /-- A `last_renew` of this period is, in whole seconds, `late` older than the period's last write at most. -/
  renewed : m.InPeriod → m.fresh = true → tvSec m.lastWrite ≤ tvSec m.lastRenew + m.late

/-- What the loop's whole-second test leaves open: a failed renewal that finds `last_renew` a lease duration old
finds one of this holding period, which is older than that by the seconds its write took, and by the borrow. -/
def lastRenewCurrent (cfg : Config) (m : FencedMount) : FenceEvent → Prop
  | .renewed false => ∀ ts ∈ m.thread.reading, (cfg.leaseDuration : Int) ≤ secDiff ts m.lastRenew → m.fresh = true ∧
      cfg.leaseDuration + m.late + (if tvNsec ts < tvNsec m.lastWrite then 1 else 0) ≤ secDiff ts m.lastRenew
  | _ => True

instance (cfg : Config) (m : FencedMount) (e : FenceEvent) : Decidable (lastRenewCurrent cfg m e) :=
  match e with
  | .renewed false => inferInstanceAs (Decidable (∀ ts ∈ m.thread.reading, _ → _))
  | .tick _ | .mount _ | .acquireWrite _ | .loadDone | .loadFails | .logStart | .remount _ | .unload | .umount
  | .threadStart | .loopTop | .renewed true | .wake | .serve => inferInstanceAs (Decidable True)

theorem tvSec_mono {a b : Nat} (h : a ≤ b) : tvSec a ≤ tvSec b := Nat.div_le_div_right h

/-- A reading is its whole seconds and its nanoseconds. -/
theorem tvSec_add_tvNsec (t : Nat) : tvSec t * nsecPerSec + tvNsec t = t := Nat.div_add_mod' t nsecPerSec

variable {m : FencedMount}

/-- Outside the serving phases no renewal is under way. -/
theorem FencedMount.Inv.not_renewing (hi : m.Inv) (hs : m.client.serving = false) (ts : Nat) :
    m.thread ≠ .renew ts := by
  rcases hi.quiet hs with h | ⟨-, -, h | h⟩ <;> rw [h] <;> exact LogThread.noConfusion

/-- A step outside `pfs_leader_load` that ends with no renewal under way. -/
theorem FencedMount.Inv.moved (hi : m.Inv) {logState : LogState} {client : Client} {thread : LogThread}
    (hq : client.serving = false → thread = .off ∨
      (client.remounting = true ∧ logState = .suspended ∧ (thread = .top ∨ thread = .wait)))
    (hr : ∀ ts, thread ≠ .renew ts) (hw : ∀ caller, client ≠ .acquired caller) :
    FencedMount.Inv { m with logState, client, thread } := by
  have hp : FencedMount.InPeriod { m with logState, client, thread } → m.InPeriod := fun h =>
    h.imp_right fun ⟨c, hc⟩ => absurd hc (hw c)
  exact ⟨hq, fun ts h => absurd h (hr ts), fun h => hi.written (hp h), fun h => hi.renewed (hp h)⟩

/-- The client moves on between two phases in which the mount does not serve. -/
theorem FencedMount.Inv.client (hi : m.Inv) {client : Client} (hs : m.client.serving = false)
    (hr : m.client.remounting = true → client.remounting = true) (hw : ∀ caller, client ≠ .acquired caller) :
    FencedMount.Inv { m with client } :=
  hi.moved (fun _ => (hi.quiet hs).imp_right fun ⟨h1, h2⟩ => ⟨hr h1, h2⟩) (hi.not_renewing hs) hw

/-- The client enters a phase in which the mount serves. -/
theorem FencedMount.Inv.clientServing (hi : m.Inv) {client : Client} (hs : client.serving = true) :
    FencedMount.Inv { m with client } := by
  have hp : FencedMount.InPeriod { m with client } → m.InPeriod := fun h =>
    h.imp_right fun ⟨c, hc⟩ => by cases hc; cases hs
  exact ⟨fun h => absurd hs (by simp [h]), hi.renewing, fun h => hi.written (hp h), fun h => hi.renewed (hp h)⟩

/-- A log thread that is running in an unwritable phase is suspended by a remount. -/
theorem FencedMount.Inv.suspended (hi : m.Inv) (hs : m.client.serving = false) (ht : m.thread ≠ .off) :
    m.client.remounting = true ∧ m.logState = .suspended ∧ (m.thread = .top ∨ m.thread = .wait) :=
  (hi.quiet hs).resolve_left ht

theorem FencedMount.Inv.loop (hi : m.Inv) {thread : LogThread} (ht : m.thread ≠ .off)
    (hl : thread = .top ∨ thread = .wait) : FencedMount.Inv { m with thread } := by
  refine ⟨fun hs => .inr ?_, fun ts h => ?_, hi.written, hi.renewed⟩
  · obtain ⟨h1, h2, -⟩ := hi.suspended hs ht
    exact ⟨h1, h2, hl⟩
  · change thread = .renew ts at h
    rcases hl with h' | h' <;> rw [h'] at h <;> cases h

theorem FencedMount.Inv.loadFailed {m' : FencedMount} {caller : LoadCaller} (hi : m.Inv)
    (hc : (∃ wr, m.client = .load caller wr) ∨ m.client = .acquired caller)
    (hs : (caller.failed.map fun client => { m with client }) = some m') : m'.Inv := by
  obtain ⟨client, hf, rfl⟩ := Option.map_eq_some_iff.1 hs
  have hserv : m.client.serving = false := by
    rcases hc with ⟨wr, hc⟩ | hc <;> rw [hc] <;> rfl
  refine hi.client hserv (fun hr => ?_) ?_ <;> cases caller <;> cases hf
  · rcases hc with ⟨wr, hc⟩ | hc <;> rw [hc] at hr <;> cases hr
  · rfl
  · exact fun _ => Client.noConfusion
  · exact fun _ => Client.noConfusion

/-- `pfs_leader_unload`: the holding period, if there was one, is over. -/
theorem FencedMount.Inv.unload (hi : m.Inv) {client : Client} (hs : m.client.serving = false)
    (hr : m.client.remounting = true → client.remounting = true) (hw : ∀ caller, client ≠ .acquired caller) :
    FencedMount.Inv { m with rwLeaseHeld := false, client } := by
  have hp : ¬ FencedMount.InPeriod { m with rwLeaseHeld := false, client } := by
    rintro (h | ⟨c, hc⟩)
    · cases h
    · exact hw c hc
  exact ⟨fun _ => (hi.quiet hs).imp_right fun ⟨h1, h2⟩ => ⟨hr h1, h2⟩, fun ts ht => absurd ht (hi.not_renewing hs ts),
    fun h => absurd h hp, fun h => absurd h hp⟩

theorem FencedMount.Inv.step_inv {cfg : Config} {lp : Int} {m' : FencedMount} {e : FenceEvent} (hi : m.Inv)
    (hs : m.step cfg lp e = some m') : m'.Inv := by
  unfold FencedMount.step at hs
  split at hs
  · cases hs
  cases e with
  | tick δ =>
    simp only [Option.some.injEq] at hs
    subst hs
    exact ⟨hi.quiet, fun ts ht => ⟨(hi.renewing ts ht).1, Nat.le_add_right_of_le (hi.renewing ts ht).2⟩,
      fun h => Nat.le_add_right_of_le (hi.written h), hi.renewed⟩
  | mount wr =>
    cases hc : m.client <;> simp [hc] at hs
    subst hs
    exact hi.client (by rw [hc]; rfl) (by simp [hc, Client.remounting]) (by simp)
  | acquireWrite ok =>
    cases hc : m.client <;> simp [hc] at hs
    case load caller wr =>
    cases ok <;> cases wr <;> simp at hs
    · exact hi.loadFailed (.inl ⟨true, hc⟩) (Option.map_eq_some_iff.2 hs)
    · subst hs
      have hserv : m.client.serving = false := by rw [hc]; rfl
      refine ⟨fun _ => (hi.quiet hserv).imp_right fun ⟨h1, h2⟩ => ⟨?_, h2⟩, hi.renewing, fun _ => le_rfl,
        fun _ hf => by cases hf⟩
      cases caller <;> simp [hc, Client.remounting] at h1 ⊢
  | loadDone =>
    cases hc : m.client <;> simp [hc] at hs
    case load caller wr =>
      cases wr <;> simp at hs
      subst hs
      exact hi.client (by rw [hc]; rfl) (by cases caller <;> simp [hc, Client.remounting, LoadCaller.done])
        (by cases caller <;> simp [LoadCaller.done])
    case acquired caller =>
      subst hs
      have hserv : m.client.serving = false := by rw [hc]; rfl
      have hp : m.InPeriod := .inr ⟨caller, hc⟩
      refine ⟨fun _ => (hi.quiet hserv).imp_right fun ⟨h1, h2⟩ => ⟨?_, h2⟩,
        fun ts ht => absurd ht (hi.not_renewing hserv ts), fun _ => hi.written hp, fun _ => hi.renewed hp⟩
      cases caller <;> simp [hc, Client.remounting, LoadCaller.done] at h1 ⊢
  | loadFails =>
    cases hc : m.client <;> simp [hc] at hs
    case load caller wr => exact hi.loadFailed (.inl ⟨wr, hc⟩) (Option.map_eq_some_iff.2 hs)
    case acquired caller => exact hi.loadFailed (.inr hc) (Option.map_eq_some_iff.2 hs)
  | logStart =>
    cases hc : m.client <;> simp [hc] at hs
    subst hs
    exact hi.moved (by simp [Client.serving]) (by simp) (by simp)
  | remount wr =>
    cases hc : m.client <;> simp [hc] at hs
    obtain ⟨-, rfl⟩ := hs
    exact hi.clientServing rfl
  | unload =>
    cases hc : m.client <;> simp [hc] at hs
    case unloading wr =>
      subst hs
      exact hi.unload (by rw [hc]; rfl) (fun _ => by cases wr <;> rfl) (fun _ => Client.noConfusion)
    case unmounting =>
      subst hs
      exact hi.unload (by rw [hc]; rfl) (by simp [hc, Client.remounting]) (fun _ => Client.noConfusion)
  | umount =>
    cases hc : m.client <;> simp [hc] at hs
    subst hs
    exact hi.clientServing rfl
  | threadStart =>
    cases ht : m.thread <;> simp [ht] at hs
    subst hs
    refine ⟨fun hserv => ?_, by simp, hi.written, fun hp _ => tvSec_mono (hi.written hp)⟩
    -- a thread that has just been created belongs to a mount that serves
    rcases hi.quiet hserv with h | ⟨-, -, h | h⟩ <;> rw [ht] at h <;> cases h
  | loopTop =>
    cases ht : m.thread <;> simp [ht] at hs
    subst hs
    have hoff : m.thread ≠ .off := by rw [ht]; exact LogThread.noConfusion
    by_cases hdue : renewDue lp m m.rt = true
    · rw [if_pos hdue]
      simp only [renewDue, Bool.and_eq_true, bne_iff_ne, ne_eq, decide_eq_true_eq] at hdue
      obtain ⟨hns, hheld, -⟩ := hdue
      refine ⟨fun hserv => absurd (hi.suspended hserv hoff).2.1 hns, fun ts h => ?_, hi.written, hi.renewed⟩
      cases h
      exact ⟨hheld, le_rfl⟩
    · rw [if_neg hdue]
      exact hi.loop hoff (.inr rfl)
  | renewed ok =>
    cases ht : m.thread <;> simp [ht] at hs
    case renew ts =>
    have hserv : m.client.serving = true := by
      by_contra hc
      exact hi.not_renewing (by simpa using hc) ts ht
    cases ok <;> simp at hs <;> subst hs
    · exact ⟨fun h => absurd hserv (by simp [h]), by simp, hi.written, hi.renewed⟩
    · exact ⟨fun h => absurd hserv (by simp [h]), by simp, fun _ => le_rfl, fun _ _ => by dsimp only; omega⟩
  | wake =>
    cases ht : m.thread <;> simp [ht] at hs
    subst hs
    exact hi.loop (by rw [ht]; exact LogThread.noConfusion) (.inl rfl)
  | serve =>
    cases ht : m.thread <;> simp [ht] at hs
    cases hl : m.logState <;> cases hc : m.client <;> simp [hl, hc] at hs <;> subst hs
    case wait.serving.suspending wr => exact hi.moved (fun _ => .inr ⟨rfl, rfl, .inl rfl⟩) (by simp) (by simp)
    case wait.notLoaded.stopping | wait.serving.stopping => exact hi.moved (fun _ => .inl rfl) (by simp) (by simp)
    case wait.suspended.resuming | wait.notLoaded.mounted => exact hi.moved (by simp [Client.serving]) (by simp) (by simp)

/-! ## The abort -/

/-- Only a failed renewal aborts, and it finds `last_renew` a lease duration old. -/
theorem FencedMount.step_aborted {cfg : Config} {lp : Int} {m' : FencedMount} {e : FenceEvent}
    (hs : m.step cfg lp e = some m') (ha : m'.aborted = true) :
    ∃ ts, e = .renewed false ∧ m.thread = .renew ts ∧ (cfg.leaseDuration : Int) ≤ secDiff ts m.lastRenew ∧
      m'.lastWrite = m.lastWrite ∧ m'.rt = m.rt := by
  unfold FencedMount.step at hs
  split at hs
  · cases hs
  rename_i hna
  -- every branch but the failed renewal leaves `aborted` as it was
  split at hs
  all_goals first
    | contradiction
    | cases hs; exact absurd ha hna
    | obtain ⟨_, -, rfl⟩ := Option.map_eq_some_iff.1 hs; exact absurd ha hna
    | split at hs <;> cases hs <;> exact absurd ha hna
    | skip
  rename_i ts ht
  cases hs
  exact ⟨ts, rfl, ht, of_decide_eq_true ha, rfl, rfl⟩

/-- No mount, at the clock's epoch. -/
def FencedMount.unmounted : FencedMount :=
  { rt := 0, logState := .stop, rwLeaseHeld := false, client := .out, thread := .off, lastRenew := 0, aborted := false,
    lastWrite := 0, fresh := false, late := 0 }

/-- `pfs_mount` up to the first wait of its log thread; `acquire` are the steps of the lease. -/
def mountEvents (wr : Bool) (acquire : List FenceEvent) : List FenceEvent :=
  .mount wr :: (acquire ++ [.loadDone, .logStart, .threadStart, .loopTop, .serve])

/-- One more round of the loop, its renewal failing. -/
def failedRenewal : List FenceEvent := [.loopTop, .renewed false]

/-- A read-only mount serves for 100 s and is then promoted; the acquire write succeeds. The first
renewal fails at once and aborts, no time after the acquire write. -/
def promotedEvents : List FenceEvent :=
  mountEvents false [] ++ [.tick 100000000000, .remount true, .loopTop, .serve, .unload, .acquireWrite true, .loadDone,
    .loopTop, .serve] ++ failedRenewal

end PolarFs.Lease
