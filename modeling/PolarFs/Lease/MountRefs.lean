/-
The reference counts of a shared mount and the results of the calls that move them,
`pfs_mount_acquire`, `pfs_mount_release` and `pfs_remount` of one pfsd on one PBD, for every flag
and every way the inner mount, promotion and demotion can end.

`SharedMount` follows the lease of such a mount; here the mount is what the calls see of it. A call
that ends the process (`exit`, a failed assertion) gives no state.
-/
import PolarFs.Lib.Transition
import PolarFs.Lease.RefTable

namespace PolarFs.Lease

open Transition RefTable

/-! ## The mount -/

/-- `MNTFLG_WR`, `MNTFLG_LOG` and `MNTFLG_TOOL` of a call's flags. -/
structure MountFlags where
  wr : Bool
  log : Bool
  tool : Bool
  deriving DecidableEq, Repr

/-- What the calls use of `pfs_mount_t`: `log` tells whether its log thread runs, `numHosts` is
`mnt_num_hosts`, which only `pfs_leader_load` sets. -/
structure SharedMnt where
  hostId : Nat
  writable : Bool
  log : Bool
  numHosts : Nat
  deriving DecidableEq, Repr

/-- How `pfs_remount_rw` goes: refused before anything changes; none of its `exit` calls reached;
`pfs_leader_load` succeeds; the read-only load of a restore succeeds; the orphans are reclaimed. -/
structure Promotion where
  refused : Bool
  served : Bool
  loaded : Bool
  reloaded : Bool
  reclaimed : Bool
  deriving DecidableEq, Repr

namespace SharedMnt

variable (m : SharedMnt)

/-- `pfs_remount_ro`: a writable mount needs its log thread and a read-only `pfs_leader_load`, which
checks the host id. -/
def remountRo (hostId : Nat) (loaded : Bool) : Option SharedMnt :=
  if m.writable then
    if m.log && loaded && decide (hostId ≤ m.numHosts) then some { m with hostId := hostId, writable := false } else none
  else some { m with hostId := hostId }

/-- `pfs_remount_rw`: the mount afterwards and whether it was promoted. -/
def remountRw (hostId : Nat) (p : Promotion) : Option (SharedMnt × Bool) :=
  if p.refused then some (m, false)
  else if !(m.log && p.served) then none
  else
    let m' := { m with hostId := hostId, writable := true }
    if p.loaded && decide (hostId ≤ m.numHosts) then
      if p.reclaimed then some (m', true)
      else (m'.remountRo m.hostId p.reloaded).map fun m'' => ({ m'' with writable := m.writable }, false)
    else if p.reloaded && decide (m.hostId ≤ m.numHosts) then
      some ({ m' with hostId := m.hostId, writable := m.writable }, false)
    else none

/-- `pfs_mount`, orphans included; `ok` tells that nothing but the host id check makes it fail. -/
def mount (numHosts hostId : Nat) (flags : MountFlags) (ok : Bool) : Option SharedMnt :=
  if !ok then none
  else if flags.log then
    if hostId ≤ numHosts then some ⟨if hostId = 0 then numHosts else hostId, flags.wr, true, numHosts⟩ else none
  else some ⟨hostId, flags.wr, false, 0⟩

/-- `host_id` 0 stands for the last one. -/
def realHostId (hostId : Nat) : Nat := if hostId = 0 then m.numHosts else hostId

end SharedMnt

/-! ## The calls -/

open SharedMnt

/-- The shared state of a pfsd's mount. -/
structure MountRefs where
  tab : RefTable
  mnt : Option SharedMnt

namespace MountRefs

variable (numHosts : Nat) (s : MountRefs)

/-- `pfs_mount_acquire` once there is a mount. -/
def acquireMounted (m : SharedMnt) (hostId : Nat) (flags : MountFlags) (p : Promotion) : Option (MountRefs × Bool) :=
  match s.tab.hostIncref hostId flags.wr with
  | none => some (s, false)
  | some tab =>
    if flags.wr && !m.writable then
      (m.remountRw hostId p).map fun (m', promoted) =>
        if promoted then (⟨tab, some m'⟩, true) else (⟨(tab.hostDecref hostId).getD tab, some m'⟩, false)
    else some (⟨tab, some m⟩, true)

/-- `pfs_mount_acquire`. -/
def acquire (hostId : Nat) (flags : MountFlags) (mountOk : Bool) (p : Promotion) : Option (MountRefs × Bool) :=
  if defaultMaxHosts < hostId then some (s, false)
  else
    match s.mnt with
    | some m => s.acquireMounted m (m.realHostId hostId) flags p
    | none =>
      match mount numHosts hostId flags mountOk with
      | none => some (s, false)
      | some m => { s with mnt := some m }.acquireMounted m (m.realHostId hostId) flags p

/-- `pfs_mount_release`; `demoted` and `umounted` tell that `pfs_remount_ro` and `pfs_umount` do not
end the process. -/
def release (hostId : Nat) (demoted umounted : Bool) : Option (MountRefs × Bool) :=
  if defaultMaxHosts < hostId then some (s, false)
  else
    match s.mnt with
    | none => some (s, false)
    | some m =>
      let hostId := m.realHostId hostId
      match s.tab.hostDecref hostId with
      | none => some (s, false)
      | some tab =>
        if tab.wrrefCount ≠ 0 then
          if m.hostId = hostId then
            -- LOG_TRY_RESET_LOCK, which asserts that the log thread runs
            tab.hostGetAnotherWrid.bind fun next =>
              if m.log then some (⟨tab, some { m with hostId := next }⟩, true) else none
          else some (⟨tab, some m⟩, true)
        else if tab.refCount ≠ 0 then
          if m.hostId = hostId then
            tab.hostGetAnotherId.bind fun next => (m.remountRo next demoted).map fun m' => (⟨tab, some m'⟩, true)
          else some (⟨tab, some m⟩, true)
        else if umounted then some (⟨tab, none⟩, true) else none

/-- `pfs_remount`. -/
def remount (hostId : Nat) (flags : MountFlags) (p : Promotion) : Option (MountRefs × Bool) :=
  if flags.tool ∨ !flags.log ∨ !flags.wr then some (s, false)
  else if hostId = 0 then some (s, false)
  else
    match s.mnt with
    | none => some (s, false)
    | some m =>
      match s.tab.hostPromotRef hostId with
      | none => some (s, false)
      | some tab =>
        if m.writable then some (⟨tab, some m⟩, true)
        else
          (m.remountRw hostId p).map fun (m', promoted) =>
            if promoted then (⟨tab, some m'⟩, true) else (⟨(tab.hostDepromotRef hostId).getD tab, some m'⟩, false)

end MountRefs

/-- A call of a client, with the outcomes of its inner steps. -/
inductive MountCall where
  | acquire (hostId : Nat) (flags : MountFlags) (mountOk : Bool) (p : Promotion)
  | release (hostId : Nat) (demoted umounted : Bool)
  | remount (hostId : Nat) (flags : MountFlags) (p : Promotion)
  deriving DecidableEq, Repr

/-- The host id a call passes. -/
def MountCall.hostId : MountCall → Nat
  | .acquire hostId .. | .release hostId .. | .remount hostId .. => hostId

def MountRefs.call (numHosts : Nat) (s : MountRefs) : MountCall → Option (MountRefs × Bool)
  | .acquire hostId flags mountOk p => s.acquire numHosts hostId flags mountOk p
  | .release hostId demoted umounted => s.release hostId demoted umounted
  | .remount hostId flags p => s.remount hostId flags p

/-- Calls with host ids in range, on a file system formatted for `numHosts` hosts. -/
def mountRefsSystem (numHosts : Nat) : System MountRefs MountCall where
  init s := numHosts ≤ defaultMaxHosts ∧ s.tab = ⟨fun _ => ⟨0, false⟩, 0, 0⟩ ∧ s.mnt = none
  step s c := if c.hostId ≤ defaultMaxHosts then (s.call numHosts c).map Prod.fst else none

/-! ## What holds after each call -/

/-- The state of a shared mount between two calls. -/
structure MountRefs.Ok (s : MountRefs) : Prop where
  tab : s.tab.Ok
  mounted : s.mnt.isSome = true ↔ 0 < s.tab.refCount
  writable : s.mnt.any writable = true ↔ 0 < s.tab.wrrefCount
  hostRef : ∀ m ∈ s.mnt, m.hostId ∈ hosts ∧ 0 < (s.tab.infos m.hostId).refCount
  hostRw : ∀ m ∈ s.mnt, m.writable = true → (s.tab.infos m.hostId).isRwmnt = true

/-- With the host id that 0 stands for in range. -/
structure MountRefs.Inv (s : MountRefs) : Prop extends s.Ok where
  numHosts : ∀ m ∈ s.mnt, m.numHosts ≤ defaultMaxHosts

variable {m : SharedMnt} {hostId : Nat} {p : Promotion}

/-- A mount over a table, from what relates the two. -/
theorem MountRefs.Inv.of_mnt {t : RefTable} (ht : t.Ok) (hw : m.writable = true ↔ 0 < t.wrrefCount)
    (hm : m.hostId ∈ hosts) (hc : 0 < (t.infos m.hostId).refCount)
    (hrw : m.writable = true → (t.infos m.hostId).isRwmnt = true) (hn : m.numHosts ≤ defaultMaxHosts) :
    MountRefs.Inv ⟨t, some m⟩ := by
  constructor
  · constructor
    · exact ht
    · simp only [Option.isSome_some, true_iff]
      exact lt_of_lt_of_le hc (ht.refCount_le hm)
    · simpa using hw
    · rintro _ ⟨⟩; exact ⟨hm, hc⟩
    · rintro _ ⟨⟩; exact hrw
  · rintro _ ⟨⟩; exact hn

theorem SharedMnt.realHostId_mem (hn : m.numHosts ≤ defaultMaxHosts) (h : hostId ≤ defaultMaxHosts) :
    m.realHostId hostId ∈ hosts := by
  rw [mem_hosts, realHostId]
  split <;> assumption

/-- `pfs_remount_rw` of a read-only mount: promoted under the new host id, or as it was. -/
theorem SharedMnt.remountRw_some {m' : SharedMnt} {ok : Bool} (hro : m.writable = false)
    (h : m.remountRw hostId p = some (m', ok)) :
    (ok = true ∧ m' = { m with hostId := hostId, writable := true }) ∨ (ok = false ∧ m' = m) := by
  have hm : { m with writable := false } = m := by rw [← hro]
  unfold remountRw at h
  split_ifs at h
  · simp only [Option.some.injEq, Prod.mk.injEq] at h
    exact .inr ⟨h.2.symm, h.1.symm⟩
  · simp only [Option.some.injEq, Prod.mk.injEq] at h
    exact .inl ⟨h.2.symm, h.1.symm⟩
  · -- the orphans could not be reclaimed: demoted again under the old host id
    simp only [remountRo, if_true, Option.map_eq_some_iff, Option.ite_none_right_eq_some,
      Option.some.injEq, Prod.mk.injEq] at h
    obtain ⟨_, ⟨-, rfl⟩, rfl, rfl⟩ := h
    exact .inr ⟨rfl, by rw [hro]; exact hm⟩
  · simp only [Option.some.injEq, Prod.mk.injEq] at h
    refine .inr ⟨h.2.symm, ?_⟩
    rw [← h.1, hro]; exact hm

theorem SharedMnt.remountRo_some {m' : SharedMnt} {loaded : Bool} (h : m.remountRo hostId loaded = some m') :
    m' = { m with hostId := hostId, writable := false } := by
  unfold remountRo at h
  cases hw : m.writable
  · simp only [hw, Bool.false_eq_true, if_false, Option.some.injEq] at h
    rw [← h, ← hw]
  · simp only [hw, if_true, Option.ite_none_right_eq_some, Option.some.injEq] at h
    exact h.2.symm

namespace MountRefs

/-- What a call may do: keep the invariant, and change nothing if it fails. -/
def CallOk (s : MountRefs) (r : MountRefs × Bool) : Prop := r.1.Inv ∧ (r.2 = false → r.1 = s)

variable {s : MountRefs} {r : MountRefs × Bool}

theorem CallOk.failed (hi : s.Inv) : CallOk s (s, false) := ⟨hi, fun _ => rfl⟩

/-- `pfs_mount_acquire` on a mount: `pfs_host_incref`, and the promotion if it is needed. -/
theorem Inv.acquireMounted {flags : MountFlags} (hi : s.Inv) (hm : s.mnt = some m) (hk : hostId ∈ hosts)
    (h : s.acquireMounted m hostId flags p = some r) : CallOk s r := by
  obtain ⟨tab, mnt⟩ := s
  obtain rfl : mnt = some m := hm
  obtain ⟨hmem, hcnt⟩ := hi.hostRef m rfl
  have hw : m.writable = true ↔ 0 < tab.wrrefCount := by simpa using hi.writable
  unfold MountRefs.acquireMounted at h
  cases hinc : tab.hostIncref hostId flags.wr with
  | none =>
    simp only [hinc, Option.some.injEq] at h
    subst h
    exact .failed hi
  | some tab' =>
    have htab := hi.tab.hostIncref hk hinc
    simp only [hinc] at h
    split_ifs at h with hpromote
    · simp only [Bool.and_eq_true, Bool.not_eq_true'] at hpromote
      obtain ⟨hwr, hro⟩ := hpromote
      rw [hwr] at hinc
      obtain ⟨⟨m', promoted⟩, hrw, rfl⟩ := Option.map_eq_some_iff.1 h
      rcases remountRw_some hro hrw with ⟨rfl, rfl⟩ | ⟨rfl, rfl⟩
      · obtain ⟨rfl, -, -⟩ := hostIncref_some hinc
        exact ⟨.of_mnt htab (by simp) hk (by simp) (by simp) (hi.numHosts m rfl), by simp⟩
      · -- the promotion failed: the reference is taken back
        simp only [Bool.false_eq_true, if_false, hi.tab.decref_incref hk hinc, Option.getD_some]
        exact .failed hi
    · cases h
      obtain ⟨rfl, hzero, -⟩ := hostIncref_some hinc
      refine ⟨.of_mnt htab ?_ hmem ?_ ?_ (hi.numHosts m rfl), by simp⟩
      · -- a new writer finds the mount writable
        cases hwr : flags.wr <;> simp [hwr] at hpromote ⊢
        · exact hw
        · exact hpromote
      · by_cases he : m.hostId = hostId
        · subst he; simp
        · simpa [Function.update_of_ne he] using hcnt
      · intro hmw
        have hrw := hi.hostRw m rfl hmw
        by_cases he : m.hostId = hostId
        · subst he; simpa using .inr hrw
        · simpa [Function.update_of_ne he] using hrw

theorem Inv.acquire {numHosts : Nat} {flags : MountFlags} {mountOk : Bool} (hn : numHosts ≤ defaultMaxHosts)
    (hi : s.Inv) (h : s.acquire numHosts hostId flags mountOk p = some r) : CallOk s r := by
  obtain ⟨tab, mnt⟩ := s
  unfold MountRefs.acquire at h
  split_ifs at h with hmax
  · cases h; exact .failed hi
  rw [not_lt] at hmax
  cases mnt with
  | some m => exact hi.acquireMounted rfl (realHostId_mem (hi.numHosts m rfl) hmax) h
  | none =>
    cases hmount : mount numHosts hostId flags mountOk with
    | none =>
      simp only [hmount, Option.some.injEq] at h
      subst h
      exact .failed hi
    | some m =>
      simp only [hmount] at h
      -- the new mount goes by the host id that is counted, with the flags of the call
      obtain ⟨hid, hwr, hnum⟩ : m.realHostId hostId = m.hostId ∧ m.writable = flags.wr ∧ m.numHosts ≤ defaultMaxHosts := by
        unfold mount at hmount
        split_ifs at hmount <;> cases hmount <;> simp_all [realHostId]
      have hk := realHostId_mem hnum hmax
      rw [hid] at h hk
      have h0 : tab.refCount = 0 := by have := hi.mounted; simp at this; exact this
      have hw0 : tab.wrrefCount = 0 := by have := hi.writable; simp at this; exact this
      obtain ⟨tab', hinc⟩ := hi.tab.hostIncref_first hk h0 flags.wr
      have htab := hi.tab.hostIncref hk hinc
      have hno : (flags.wr && !m.writable) = false := by rw [hwr]; cases flags.wr <;> rfl
      simp only [MountRefs.acquireMounted, hinc, hno, Bool.false_eq_true, if_false, Option.some.injEq] at h
      subst h
      obtain ⟨rfl, -, -⟩ := hostIncref_some hinc
      refine ⟨.of_mnt htab ?_ hk (by simp) (fun hmw => by simp [← hwr, hmw]) hnum, by simp⟩
      rw [hwr]
      cases flags.wr <;> simp [hw0]

/-- A mount that is given up with its last reference. -/
theorem Inv.of_none {t : RefTable} (ht : t.Ok) (hr : t.refCount = 0) (hw : t.wrrefCount = 0) : Inv ⟨t, none⟩ where
  tab := ht
  mounted := by simp [hr]
  writable := by simp [hw]
  hostRef := by simp
  hostRw := by simp
  numHosts := by simp

theorem Inv.release {demoted umounted : Bool} (hi : s.Inv) (h : s.release hostId demoted umounted = some r) :
    CallOk s r := by
  obtain ⟨tab, mnt⟩ := s
  unfold MountRefs.release at h
  split at h
  · cases h; exact .failed hi
  rename_i hmax
  rw [not_lt] at hmax
  cases mnt with
  | none => cases h; exact .failed hi
  | some m =>
    have hnum := hi.numHosts m rfl
    have hk := realHostId_mem hnum hmax
    obtain ⟨hmem, hcnt⟩ := hi.hostRef m rfl
    have hw : m.writable = true ↔ 0 < tab.wrrefCount := by simpa using hi.writable
    dsimp only at h
    generalize m.realHostId hostId = k at h hk
    cases hdec : tab.hostDecref k with
    | none =>
      simp only [hdec, Option.some.injEq] at h
      subst h
      exact .failed hi
    | some tab' =>
      have htab := hi.tab.hostDecref hk hdec
      simp only [hdec] at h
      have hother : ∀ j, j ≠ k → tab'.infos j = tab.infos j := fun j hj => by
        rw [(hostDecref_some hdec).1]; exact Function.update_of_ne hj ..
      have hwle : tab'.wrrefCount ≤ tab.wrrefCount := by
        rw [(hostDecref_some hdec).1]; exact Nat.sub_le ..
      by_cases hwr : tab'.wrrefCount ≠ 0
      · rw [if_pos hwr] at h
        have hmw : m.writable = true := hw.2 (by omega)
        by_cases heq : m.hostId = k
        · -- another writer takes over
          rw [if_pos heq] at h
          obtain ⟨next, hnext, h⟩ := Option.bind_eq_some_iff.1 h
          simp only [Option.ite_none_right_eq_some, Option.some.injEq] at h
          obtain ⟨-, rfl⟩ := h
          obtain ⟨hmem', hrw'⟩ := hostGetAnotherWrid_some hnext
          have hone := htab.single next hmem' hrw'
          refine ⟨.of_mnt htab (iff_of_true hmw (by omega)) hmem' (by dsimp only; omega) (fun _ => hrw') hnum, by simp⟩
        · rw [if_neg heq] at h
          cases h
          refine ⟨.of_mnt htab (iff_of_true hmw (by omega)) hmem ?_ (fun _ => ?_) hnum, by simp⟩
          · rw [hother _ heq]; exact hcnt
          · rw [hother _ heq]; exact hi.hostRw m rfl hmw
      rw [if_neg hwr] at h
      by_cases href : tab'.refCount ≠ 0
      · rw [if_pos href] at h
        by_cases heq : m.hostId = k
        · -- the last writer goes, or the reader whose host id the mount goes by
          rw [if_pos heq] at h
          obtain ⟨next, hnext, h⟩ := Option.bind_eq_some_iff.1 h
          obtain ⟨m', hro, rfl⟩ := Option.map_eq_some_iff.1 h
          obtain rfl := remountRo_some hro
          obtain ⟨hmem', hcnt'⟩ := hostGetAnotherId_some hnext
          exact ⟨.of_mnt htab (by simp; omega) hmem' hcnt' (by simp) hnum, by simp⟩
        · rw [if_neg heq] at h
          cases h
          -- the mount's host is another one: were it a writer, it would still be counted
          have hro : m.writable = false := by
            by_contra hmw
            have hrw := hi.hostRw m rfl (by simpa using hmw)
            have hle := htab.isRwmnt_le hmem
            rw [hother _ heq, hrw, Bool.toNat_true] at hle
            omega
          refine ⟨.of_mnt htab (by rw [hro]; simp; omega) hmem ?_ (by simp [hro]) hnum, by simp⟩
          rw [hother _ heq]; exact hcnt
      · rw [if_neg href] at h
        simp only [Option.ite_none_right_eq_some, Option.some.injEq] at h
        obtain ⟨-, rfl⟩ := h
        exact ⟨.of_none htab (by omega) (by omega), by simp⟩

theorem Inv.remount {flags : MountFlags} (hi : s.Inv) (hmax : hostId ≤ defaultMaxHosts)
    (h : s.remount hostId flags p = some r) : CallOk s r := by
  obtain ⟨tab, mnt⟩ := s
  have hk := mem_hosts.2 hmax
  unfold MountRefs.remount at h
  split at h
  · cases h; exact .failed hi
  split at h
  · cases h; exact .failed hi
  cases mnt with
  | none => cases h; exact .failed hi
  | some m =>
    obtain ⟨hmem, hcnt⟩ := hi.hostRef m rfl
    have hnum := hi.numHosts m rfl
    dsimp only at h
    cases hpro : tab.hostPromotRef hostId with
    | none =>
      simp only [hpro, Option.some.injEq] at h
      subst h
      exact .failed hi
    | some tab' =>
      have htab := hi.tab.hostPromotRef hk hpro
      simp only [hpro] at h
      obtain ⟨htab', hinfo⟩ := hostPromotRef_some hpro
      split at h
      · rename_i hmw
        cases h
        have hrw := hi.hostRw m rfl hmw
        -- the mount's host is a writer already, the promoted one is not
        have hne : m.hostId ≠ hostId := fun he => by rw [he, hinfo] at hrw; cases hrw
        subst htab'
        refine ⟨.of_mnt htab (iff_of_true hmw (Nat.succ_pos _)) hmem ?_ (fun _ => ?_) hnum, by simp⟩
        · simpa [Function.update_of_ne hne] using hcnt
        · simpa [Function.update_of_ne hne] using hrw
      · rename_i hro
        obtain ⟨⟨m', promoted⟩, hrw, rfl⟩ := Option.map_eq_some_iff.1 h
        rcases remountRw_some (by simpa using hro) hrw with ⟨rfl, rfl⟩ | ⟨rfl, rfl⟩
        · subst htab'
          exact ⟨.of_mnt htab (by simp) hk (by simp) (by simp) hnum, by simp⟩
        · simp only [Bool.false_eq_true, if_false, depromot_promot hpro, Option.getD_some]
          exact .failed hi

theorem Inv.call {numHosts : Nat} {c : MountCall} (hi : s.Inv) (hn : numHosts ≤ defaultMaxHosts)
    (hc : c.hostId ≤ defaultMaxHosts) (h : s.call numHosts c = some r) : CallOk s r := by
  cases c with
  | acquire hostId flags mountOk p => exact hi.acquire hn h
  | release hostId demoted umounted => exact hi.release h
  | remount hostId flags p => exact hi.remount hc h

end MountRefs

/-- For every sequence of acquisitions, releases and remounts with host ids in range, any flags and any
outcome of the inner steps, the counts, the mount, its mode and its host id agree after each call,
and a call that fails changes none of them. -/
theorem mount_refs_consistent {numHosts : Nat} {s : MountRefs} (hr : (mountRefsSystem numHosts).Reachable s) :
    s.Ok ∧ ∀ (c : MountCall) (s' : MountRefs), c.hostId ≤ defaultMaxHosts → s.call numHosts c = some (s', false) →
      s' = s := by
  have hinv : numHosts ≤ defaultMaxHosts ∧ s.Inv := by
    refine hr.invariant (P := fun s => numHosts ≤ defaultMaxHosts ∧ s.Inv) ?_ ?_
    · rintro ⟨tab, mnt⟩ ⟨hn, rfl, rfl⟩
      refine ⟨hn, .of_none ?_ rfl rfl⟩
      constructor <;> simp
    · rintro s c s' - ⟨hn, hi⟩ hs
      simp only [mountRefsSystem, Option.ite_none_right_eq_some, Option.map_eq_some_iff] at hs
      obtain ⟨hc, r, hcall, rfl⟩ := hs
      exact ⟨hn, (hi.call hn hc hcall).1⟩
  exact ⟨hinv.2.toOk, fun c s' hc h => (hinv.2.call hinv.1 hc h).2 rfl⟩

/-- A pfsd without clients. -/
def MountRefs.idle : MountRefs := ⟨⟨fun _ => ⟨0, false⟩, 0, 0⟩, none⟩

/-- Every inner step succeeds. -/
def Promotion.smooth : Promotion := ⟨false, true, true, true, true⟩

/-- A reader mounts as host 1, a writer joins as host 2, a second promotion is refused, the reader
leaves. -/
def joinCalls : List MountCall :=
  [.acquire 1 ⟨false, true, false⟩ true .smooth, .acquire 2 ⟨true, true, false⟩ true .smooth,
    .remount 2 ⟨true, true, false⟩ .smooth, .release 1 true true]

theorem mount_refs_consistent_join : ∃ s, (mountRefsSystem 3).Reachable s ∧ s.Ok ∧ s.tab.wrrefCount = 1 ∧
    s.mnt = some ⟨2, true, true, 3⟩ := by
  have hs := (mountRefsSystem 3).reachable_last .idle joinCalls ⟨by decide, rfl, rfl⟩ (by decide +kernel)
  exact ⟨_, hs, (mount_refs_consistent hs).1, by decide +kernel⟩

end PolarFs.Lease
