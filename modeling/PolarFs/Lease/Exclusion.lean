/-
Mutual exclusion of the RW lease. Any two hosts that have both verified each other's sector, and
can both still become the holder, are arbitrated: the one with the lower ballot has its conflict
check of the other still ahead (`Arbitrated`). Every step of every host keeps that, so two hosts
never hold the lease at once.

The one exception is a host inside `pfs_leader_unload`: it has disarmed its timer and cleared its
sector, or is about to, and still has `mnt_rw_lease_held` set.
-/
import PolarFs.Lease.Invariant

namespace PolarFs.Lease

open Transition Host

/-! ## Arbitration between two hosts -/

/-- Of two hosts past each other's verify scan that are not doomed, the one with the lower ballot
has not checked the other for a conflict yet. -/
def Arbitrated (cfg : Config) (i j : Nat) (hi hj : Host) : Prop :=
  hi.alive = true → hj.alive = true → hi.verified j → hj.verified i → ¬ hi.doomed cfg → ¬ hj.doomed cfg →
    (hi.currentBallot < hj.currentBallot ∧ ¬ hi.conflictChecked j) ∨
    (hj.currentBallot < hi.currentBallot ∧ ¬ hj.conflictChecked i)

variable {hi hj : Host} {cfg : Config} {j i : Nat} {s : State}

theorem Arbitrated.symm (h : Arbitrated cfg i j hi hj) : Arbitrated cfg j i hj hi :=
  fun a b c d e f => (h b a d c f e).symm

theorem Arbitrated.of_not_verified (h : ¬ hi.verified j) : Arbitrated cfg i j hi hj :=
  fun _ _ hv => absurd hv h

theorem Arbitrated.of_dead (h : hi.alive = false) : Arbitrated cfg i j hi hj :=
  fun ha => by rw [h] at ha; cases ha

/-- A host that only lost progress towards the lease stays arbitrated. -/
theorem Arbitrated.mono {hi' : Host} (h : Arbitrated cfg i j hi hj) (hal : hi'.alive = true → hi.alive = true)
    (hb : hi'.currentBallot = hi.currentBallot) (hv : hi'.verified j → hi.verified j)
    (hc : hi'.conflictChecked j → hi.conflictChecked j) (hd : hi.doomed cfg → hi'.doomed cfg) :
    Arbitrated cfg i j hi' hj := by
  intro ha haj hvi hvj hdi hdj
  rw [hb]
  exact (h (hal ha) haj (hv hvi) hvj (fun hx => hdi (hd hx)) hdj).imp_left fun ⟨hlt, hn⟩ => ⟨hlt, fun hx => hn (hc hx)⟩

/-- The heart of the protocol: a host's action keeps it arbitrated with every other host. The
later of the two verify reads decides who may win, the conflict read makes the loser give up. -/
theorem Arbitrated.progress {hi' : Host} {io : Io} {sectors : Nat → HostRecord} (h : Arbitrated cfg i j hi hj)
    (hinv : hj.alive = true → HostInv cfg j hj (sectors j)) (hskew : hi.rt ≤ hj.rt + cfg.clockSkewMax * nsecPerSec)
    (hal : hi.alive = true) (hp : hi'.alive = true → hi'.verified j → Progress cfg io sectors j hi hi') :
    Arbitrated cfg i j hi' hj := by
  intro hai haj hvi hvj hdi hdj
  obtain ⟨hb, hd, hver, hchk⟩ := hp hai hvi
  have hpc := (hinv haj).pc
  have hread : ∀ now, now ≤ hi.rt → ReadBy cfg hj now := fun now hn => le_trans hn hskew
  rw [hb]
  rcases hver with hv | ⟨dead, now, hn, hpass⟩
  · rcases h hal haj hv hvj (fun hx => hdi (hd hx)) hdj with ⟨hlt, hnc⟩ | hright
    · refine .inl ⟨hlt, fun hc => ?_⟩
      rcases hchk hc with hc | ⟨dead, now, hn, hpass⟩
      · exact hnc hc
      · have := hpc.conflict_pass (hread now hn) hvj hdj hpass
        omega
    · exact .inr hright
  · obtain ⟨hlt, hnc⟩ := hpc.verify_pass (hread now hn) hvj hdj hpass
    exact .inr ⟨hlt, hnc i⟩

/-! ## The invariant of the whole system -/

structure SysInv (cfg : Config) (s : State) : Prop where
  clocks : ClocksOk cfg s.hosts
  host : ∀ i ∈ hostIds cfg, (s.hosts i).alive = true → HostInv cfg i (s.hosts i) (s.sectors i)
  pair : ∀ i ∈ hostIds cfg, ∀ j ∈ hostIds cfg, i ≠ j → Arbitrated cfg i j (s.hosts i) (s.hosts j)

theorem mem_hostIds : i ∈ hostIds cfg ↔ 1 ≤ i ∧ i ≤ cfg.numHosts := by
  simp only [hostIds, List.mem_range', Nat.one_mul]
  constructor
  · rintro ⟨k, hk, rfl⟩; omega
  · rintro ⟨h1, h2⟩; exact ⟨i - 1, by omega, by omega⟩

/-- A step of one host: only its own state and its own sector change. -/
theorem SysInv.update {s' : State} {h' : Host} (hs : SysInv cfg s) (hh : s'.hosts = Function.update s.hosts i h')
    (hx : ∀ j, j ≠ i → s'.sectors j = s.sectors j) (hrt : h'.rt = (s.hosts i).rt)
    (hinv : i ∈ hostIds cfg → h'.alive = true → HostInv cfg i h' (s'.sectors i))
    (harb : i ∈ hostIds cfg → ∀ j ∈ hostIds cfg, j ≠ i → Arbitrated cfg i j h' (s.hosts j)) : SysInv cfg s' := by
  have hself : s'.hosts i = h' := by rw [hh]; exact Function.update_self ..
  have hother : ∀ j, j ≠ i → s'.hosts j = s.hosts j := fun j hj => by rw [hh]; exact Function.update_of_ne hj ..
  have hrt' : ∀ j, (s'.hosts j).rt = (s.hosts j).rt := by
    intro j
    by_cases hj : j = i
    · subst hj; rw [hself, hrt]
    · rw [hother j hj]
  refine ⟨?_, ?_, ?_⟩
  · intro j hj
    simp only [hrt']
    exact hs.clocks j hj
  · intro j hj ha
    by_cases hji : j = i
    · subst hji; rw [hself] at ha ⊢; exact hinv hj ha
    · rw [hother j hji] at ha ⊢; rw [hx j hji]; exact hs.host j hj ha
  · intro j hj k hk hjk
    by_cases hji : j = i
    · subst hji; rw [hself, hother k (Ne.symm hjk)]; exact harb hj k hk (Ne.symm hjk)
    · rw [hother j hji]
      by_cases hki : k = i
      · subst hki; rw [hself]; exact (harb hk j hj hji).symm
      · rw [hother k hki]; exact hs.pair j hj k hk hjk

theorem hostStep_rt (cfg : Config) (id : Nat) (io : Io) (sectors : Nat → HostRecord) (h : Host) :
    (hostStep cfg id io sectors h).1.rt = h.rt := by
  unfold hostStep
  (repeat' split) <;> rfl

theorem SysInv.run {io : Io} (hs : SysInv cfg s) (hi : i ∈ hostIds cfg) (ha : (s.hosts i).alive = true) :
    SysInv cfg (s.apply i (hostStep cfg i io s.sectors (s.hosts i))) := by
  have hinv := hs.host i hi ha
  have hsec : (s.apply i (hostStep cfg i io s.sectors (s.hosts i))).sectors i =
      (hostStep cfg i io s.sectors (s.hosts i)).2.getD (s.sectors i) := by
    unfold State.apply
    cases (hostStep cfg i io s.sectors (s.hosts i)).2 <;> simp
  refine hs.update rfl ?_ (hostStep_rt ..) ?_ ?_
  · intro j hj
    unfold State.apply
    cases (hostStep cfg i io s.sectors (s.hosts i)).2 <;> simp [Function.update_of_ne hj]
  · intro _ ha'
    rw [hsec]
    exact hostStep_inv (hs.clocks i hi).1 hinv ha'
  · intro _ j hj hji
    exact (hs.pair i hi j hj (Ne.symm hji)).progress (hs.host j hj) ((hs.clocks i hi).2 j hj) ha
      fun ha' hv' => hostStep_progress hinv (mem_hostIds.1 hj) hji ha' hv'

theorem SysInv.tick {δ : Nat → Nat} (hs : SysInv cfg s) (hc : ClocksOk cfg (advance s.hosts δ))
    (ht : TimersOk cfg (advance s.hosts δ)) : SysInv cfg { s with hosts := advance s.hosts δ } := by
  refine ⟨hc, fun i hi ha => (hs.host i hi ha).tick (ht i hi ha), fun i hi j hj hij => ?_⟩
  have hone : Arbitrated cfg i j ((s.hosts i).tick (δ i)) (s.hosts j) :=
    (hs.pair i hi j hj hij).mono (fun ha => ha) rfl (fun hv => hv) (fun hv => hv) doomed.tick
  have hboth : Arbitrated cfg j i ((s.hosts j).tick (δ j)) ((s.hosts i).tick (δ i)) :=
    hone.symm.mono (fun ha => ha) rfl (fun hv => hv) (fun hv => hv) doomed.tick
  exact hboth.symm

theorem SysInv.renew (hs : SysInv cfg s) (hi : i ∈ hostIds cfg) (ha : (s.hosts i).alive = true)
    (hidle : (s.hosts i).pc.isIdle = true) (hheld : (s.hosts i).rwLeaseHeld = true) :
    SysInv cfg (s.setHost i ((s.hosts i).goto (.renewNow (s.hosts i).bt))) := by
  obtain ⟨rv, hp⟩ := Pc.isIdle_iff.1 hidle
  have hpc := (hs.host i hi ha).pc
  simp only [PcInv, hp] at hpc
  have harm := hpc hheld
  obtain ⟨_, _, _, _, _, _, hlw, _⟩ := hpc hheld
  refine hs.update rfl (fun _ _ => rfl) rfl (fun _ _ => ⟨fun _ => rfl, harm, hlw, le_rfl⟩) fun _ j hj hji => ?_
  exact (hs.pair i hi j hj (Ne.symm hji)).mono (fun h => h) rfl (fun _ => by simpa [verified, hp] using hheld)
    (fun _ => by simpa [conflictChecked, hp] using hheld) (fun hd => by simp [doomed, hp] at hd)

theorem SysInv.step {s' : State} {e : Event} (hs : SysInv cfg s) (he : step cfg s e = some s') : SysInv cfg s' := by
  cases e <;> simp only [Lease.step, Option.ite_none_right_eq_some, Option.some.injEq] at he
  case run i io =>
    obtain ⟨⟨hi, ha⟩, rfl⟩ := he
    exact hs.run hi ha
  case load i =>
    obtain ⟨⟨hi, -, -, hheld⟩, rfl⟩ := he
    exact hs.update rfl (fun _ _ => rfl) rfl (fun _ _ => .notHeld (by simpa [goto] using hheld) trivial)
      fun _ j _ _ => .of_not_verified (by simp [verified, goto])
  case renew i =>
    obtain ⟨⟨hi, ha, hidle, hheld⟩, rfl⟩ := he
    exact hs.renew hi ha hidle hheld
  case unload i =>
    obtain ⟨-, rfl⟩ := he
    exact hs.update rfl (fun _ _ => rfl) rfl (fun _ _ => ⟨fun _ => rfl, trivial⟩)
      fun _ j _ _ => .of_not_verified (by simp [verified])
  case crash i =>
    subst he
    exact hs.update rfl (fun _ _ => rfl) rfl (fun _ ha => by cases ha) fun _ j _ _ => .of_dead rfl
  case restart i bt =>
    obtain ⟨-, rfl⟩ := he
    exact hs.update rfl (fun _ _ => rfl) rfl (fun _ _ => .notHeld rfl (by simp [PcInv, fresh]))
      fun _ j _ _ => .of_not_verified (by simp [verified, fresh])
  case tick δ =>
    obtain ⟨⟨hc, ht⟩, rfl⟩ := he
    exact hs.tick hc ht

theorem SysInv.of_init (h : Init cfg s) : SysInv cfg s := by
  obtain ⟨hc, hidle⟩ := h
  refine ⟨hc, fun i hi _ => ?_, fun i hi j _ _ => .of_not_verified ?_⟩ <;>
    obtain ⟨h1, h2, -⟩ := hidle i hi <;> obtain ⟨rv, hp⟩ := Pc.isIdle_iff.1 h1
  · exact .notHeld h2 (by simp [PcInv, hp, h2])
  · simp [verified, hp, h2]

theorem reachable_sysInv (h : (leaseSystem cfg).Reachable s) : SysInv cfg s :=
  h.invariant (fun _ => SysInv.of_init) fun _ _ _ _ hs he => hs.step he

/-! ## Mutual exclusion -/

/-- A running holder outside `pfs_leader_unload` is past both scans of every other host, and no
expiry test is ahead of it. -/
theorem HostInv.holder {id : Nat} {h : Host} {X : HostRecord} (hi : HostInv cfg id h X) (hheld : h.rwLeaseHeld = true)
    (hu : h.pc.unloading = false) : (∀ j, h.verified j) ∧ (∀ j, h.conflictChecked j) ∧ ¬ h.doomed cfg := by
  have hm := hi.held hheld
  cases hp : h.pc <;> rw [hp] at hm hu <;> cases hm <;> cases hu
  all_goals simp [verified, conflictChecked, doomed, hp, hheld]

/-- RW lease mutual exclusion, for any number of hosts, any content of the sectors, any interleaving
of I/Os, stalls, failed I/O, crashes and restarts: if two hosts run with `mnt_rw_lease_held = true`,
one of them is inside `pfs_leader_unload` and has disarmed its kill timer there. -/
theorem lease_exclusive {cfg : Config} {s : State} (hr : (leaseSystem cfg).Reachable s) {i j : Nat}
    (hi : i ∈ hostIds cfg) (hj : j ∈ hostIds cfg) (hij : i ≠ j) (hhi : Holds s i) (hhj : Holds s j) :
    (s.hosts i).pc.unloading = true ∨ (s.hosts j).pc.unloading = true := by
  by_contra hcon
  simp only [not_or, Bool.not_eq_true] at hcon
  have hinv := reachable_sysInv hr
  obtain ⟨hvi, hci, hdi⟩ := (hinv.host i hi hhi.1).holder hhi.2 hcon.1
  obtain ⟨hvj, hcj, hdj⟩ := (hinv.host j hj hhj.1).holder hhj.2 hcon.2
  rcases hinv.pair i hi j hj hij hhi.1 hhj.1 (hvi j) (hvj i) hdi hdj with ⟨-, hn⟩ | ⟨-, hn⟩
  · exact hn (hci j)
  · exact hn (hcj i)

/-! ## The window inside `pfs_leader_unload` -/

/-- Two hosts, the default options, a constant checksum. -/
def twoHosts : Config := ⟨2, 30, 2, fun _ => 0⟩

/-- Both hosts just started, all sectors empty. -/
def allEmpty : State := ⟨fun _ => fresh 0 0, fun _ => HostRecord.zero⟩

/-- A whole successful `pfs_leader_load` of host `i` with two host sectors. -/
def acquireTrace (i : Nat) : List Event := .load i :: List.replicate 27 (.run i .ok)

/-- Host 1 acquires the lease, enters `pfs_leader_unload`, disarms its timer and clears its sector;
before it resets `mnt_rw_lease_held`, host 2 acquires. -/
def handoverTrace : List Event := acquireTrace 1 ++ [.unload 1, .run 1 .ok] ++ acquireTrace 2

def bothHold (s : State) : Bool :=
  (s.hosts 1).alive && (s.hosts 1).rwLeaseHeld && ((s.hosts 2).alive && (s.hosts 2).rwLeaseHeld)

theorem allEmpty_init : (leaseSystem twoHosts).init allEmpty := ⟨by decide, by decide⟩

theorem handover_both_hold : ∃ s, (leaseSystem twoHosts).Reachable s ∧ bothHold s = true :=
  ⟨_, System.reachable_last _ allEmpty handoverTrace allEmpty_init (by decide +kernel), by decide +kernel⟩

theorem handover_reachable : ∃ s, (leaseSystem twoHosts).Reachable s ∧ Holds s 1 ∧ Holds s 2 := by
  obtain ⟨s, hs, hp⟩ := handover_both_hold
  simp only [bothHold, Bool.and_eq_true] at hp
  exact ⟨s, hs, hp.1, hp.2⟩

/-- Without the exception for a host inside `pfs_leader_unload` exclusion fails. -/
theorem not_lease_exclusive_during_unload :
    ¬ ∀ (cfg : Config) (s : State), (leaseSystem cfg).Reachable s → ∀ i ∈ hostIds cfg, ∀ j ∈ hostIds cfg,
      i ≠ j → ¬ (Holds s i ∧ Holds s j) := by
  intro hall
  obtain ⟨s, hs, h1, h2⟩ := handover_reachable
  exact hall twoHosts s hs 1 (by decide) 2 (by decide) (by decide) ⟨h1, h2⟩

theorem lease_exclusive_handover : ∃ s, (leaseSystem twoHosts).Reachable s ∧ Holds s 1 ∧ Holds s 2 ∧
    ((s.hosts 1).pc.unloading = true ∨ (s.hosts 2).pc.unloading = true) := by
  obtain ⟨s, hs, h1, h2⟩ := handover_reachable
  exact ⟨s, hs, h1, h2, lease_exclusive hs (by decide) (by decide) (by decide) h1 h2⟩

end PolarFs.Lease
