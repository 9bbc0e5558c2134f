/-
Trims and live data. As long as no other node's transactions come in, a block that the discard thread trims is
committed as in progress, and stays so until the thread's mark as done is committed: file operations neither
allocate such a block nor have it in use to free it.
-/
import PolarFs.Meta.Allocator

namespace PolarFs.Meta

open Transition Mount

/-- Every step but a replay. -/
def BdEvent.isLocal {α : Type*} : BdEvent α → Bool
  | .replay _ => false
  | _ => true

namespace Mount

/-- The blocks a walk of `pfs_bd_mark_inp` leaves in progress. -/
theorem markInp_dstatus {ready inp : Finset Nat} {no : Nat} {bt bt' : Blktag} (h : markInp ready inp no bt = some bt') :
    bt'.dstatus = .inp := by
  unfold markInp at h
  split at h
  · split at h
    · cases h
    · cases h
      rfl
  · rename_i hst
    split at h
    · cases h
    · cases h
      exact hst
  · cases h

theorem markDone_dstatus {ready inp : Finset Nat} {no : Nat} {bt bt' : Blktag} (h : markDone ready inp no bt = some bt') :
    bt.dstatus = .inp ∧ bt'.dstatus = .none := by
  unfold markDone at h
  split at h
  · rename_i hst
    split at h
    · cases h
    · cases h
      exact ⟨hst, rfl⟩
  · cases h
  · cases h

end Mount

namespace BdNode

variable {α : Type*} {cfg : Config} {s : BdNode α}

/-- What the thread's mark transaction leaves behind, block by block: a block of the new selection was marked, any
other block is as it was. -/
structure Marks (mark : Finset Nat → Finset Nat → Nat → Blktag → Option Blktag) (s s' : BdNode α) : Prop where
  objs : s'.objs = s.objs
  ready : s'.ready = s.ready
  inp : s'.inp = s.inp
  trimmed : s'.trimmed = s.trimmed
  used : ∀ no, (s'.getMo (.blktag, no)).used = (s.getMo (.blktag, no)).used
  marked : ∀ no ∈ s'.bdroot, no ∈ s.bdroot ∧ mark s.ready s.inp no (s.getMo (.blktag, no)).bt =
    some (s'.getMo (.blktag, no)).bt
  same : ∀ no, no ∉ s'.bdroot → s'.getMo (.blktag, no) = s.getMo (.blktag, no) ∧
    (no ∈ s.bdroot → mark s.ready s.inp no (s.getMo (.blktag, no)).bt = none)
  heads : ∃ tx, s'.tx = some tx ∧ ∀ no ∈ s.bdroot, (MetaType.blktag, no) ∈ tx.heads

theorem Ok.marks (h : s.Ok cfg) {mark : Finset Nat → Finset Nat → Nat → Blktag → Option Blktag}
    (hm : Mount.MarkOk mark) (htx : s.tx.isNone) (phase : BdPhase) : Marks mark s (s.bdMark cfg mark phase) := by
  have hnone := Option.isNone_iff_eq_none.1 htx
  have hbegin := h.mount.txBegin hnone .discard
  have hview := getMo_txBegin hnone .discard
  obtain ⟨-, nos, changed, hmarked, hnos, hroot⟩ := hbegin.bdMark hm rfl h.valid
  obtain ⟨heads, tl, htx', -, hheads⟩ := hmarked.tx _ rfl
  -- the attempt to mark a block, seen from before the transaction
  have hobj : ∀ no, markObj mark (s.txBegin .discard) no = { s.getMo (.blktag, no) with
      bt := (mark s.ready s.inp no (s.getMo (.blktag, no)).bt).getD (s.getMo (.blktag, no)).bt } := by
    intro no
    rw [markObj, hview]
    rfl
  have hget : ∀ no, (s.bdMark cfg mark phase).getMo (.blktag, no) =
      if no ∈ s.bdroot then { s.getMo (.blktag, no) with
        bt := (mark s.ready s.inp no (s.getMo (.blktag, no)).bt).getD (s.getMo (.blktag, no)).bt }
      else s.getMo (.blktag, no) := by
    intro no
    have hv := hmarked.view (.blktag, no)
    rw [hobj, hview] at hv
    simp only [hnos, true_and] at hv
    exact hv
  have hchanged : ∀ no, no ∈ changed ↔ no ∈ s.bdroot ∧ mark s.ready s.inp no (s.getMo (.blktag, no)).bt = none := by
    intro no
    have hc := hmarked.changed no
    rw [hnos, hview] at hc
    exact hc
  have hroot : ∀ no, no ∈ (s.bdMark cfg mark phase).bdroot ↔ no ∈ s.bdroot ∧
      mark s.ready s.inp no (s.getMo (.blktag, no)).bt ≠ none := by
    intro no
    rw [show no ∈ (s.bdMark cfg mark phase).bdroot ↔ _ from hroot no, hchanged]
    tauto
  refine ⟨hmarked.objs, hmarked.ready, hmarked.inp, rfl, fun no => ?_, fun no hno => ?_, fun no hno => ?_,
    _, htx', fun no hno => hheads no ((hnos no).2 hno)⟩
  · rw [hget]
    split <;> rfl
  · obtain ⟨hin, hsome⟩ := (hroot no).1 hno
    obtain ⟨bt, hbt⟩ := Option.ne_none_iff_exists'.1 hsome
    rw [hget, if_pos hin, hbt]
    exact ⟨hin, rfl⟩
  · rw [hroot] at hno
    rw [hget]
    by_cases hin : no ∈ s.bdroot
    · have hmk : mark s.ready s.inp no (s.getMo (.blktag, no)).bt = none := by tauto
      rw [if_pos hin, hmk]
      exact ⟨rfl, fun _ => rfl⟩
    · rw [if_neg hin]
      exact ⟨rfl, fun hin' => absurd hin' hin⟩

/-! ## The invariant -/

/-- The discard state in the cache and in the running transaction. -/
def committed (s : BdNode α) (no : Nat) : BdStatus := (s.objs (.blktag, no)).bt.dstatus

def current (s : BdNode α) (no : Nat) : BdStatus := (s.getMo (.blktag, no)).bt.dstatus

structure TrimInv (s : BdNode α) : Prop where
  markingInp : s.phase = .markingInp → ∀ no ∈ s.bdroot, s.current no = .inp
  executing : s.phase = .executing → ∀ no ∈ s.bdroot, s.committed no = .inp ∧ s.current no = .inp
  markingDone : s.phase = .markingDone → ∀ no ∈ s.bdroot, (s.getMo (.blktag, no)).used = false
  trimmed : ∀ no ∈ s.trimmed, s.committed no = .inp ∧ ((s.phase = .markingDone ∧ no ∈ s.bdroot) ∨ s.current no = .inp)

theorem current_of_isNone (h : s.tx.isNone) (no : Nat) : s.current no = s.committed no := by
  unfold current committed
  rw [getMo_of_none (Option.isNone_iff_eq_none.1 h)]

/-- A file operation leaves a block in progress alone. -/
theorem FileOp.current_inp (h : s.Ok cfg) {m : Mount α} (hm : FileOp cfg s.toMount m) {no : Nat} (hst : s.current no = .inp) :
    (m.getMo (.blktag, no)).bt.dstatus = .inp := by
  have hunused : (s.getMo (.blktag, no)).used = false :=
    (h.mount.view (.blktag, no) rfl).unused (by rw [show (s.getMo _).bt.dstatus = _ from hst]; simp)
  rcases hm.blk no with ⟨-, hsame, -⟩ | ⟨-, hne, -, -⟩ | ⟨hused, -, -, -⟩
  · exact hsame.trans hst
  · exact absurd hst hne
  · rw [hunused] at hused
    cases hused

/-- Outside the thread's own transactions the thread's marks are the committed ones or none. -/
theorem TrimInv.trimmed_current (h : s.TrimInv) (hp : s.phase ≠ .markingDone) {no : Nat} (hno : no ∈ s.trimmed) :
    s.current no = .inp :=
  (h.trimmed no hno).2.resolve_left fun hd => hp hd.1

/-- A step of a file operation, its commit or its rollback: the thread's fields stay, and a block that is in
progress in the cache and in the transaction stays so. -/
theorem TrimInv.of_file (h : s.TrimInv) {m : Mount α} (hp : ¬ (s.phase = .markingInp ∨ s.phase = .markingDone))
    (hkeep : ∀ no, s.committed no = .inp → s.current no = .inp →
      (m.objs (.blktag, no)).bt.dstatus = .inp ∧ (m.getMo (.blktag, no)).bt.dstatus = .inp) :
    TrimInv { s with toMount := m } where
  markingInp hi := absurd (Or.inl hi) hp
  executing he no hno := hkeep no (h.executing he no hno).1 (h.executing he no hno).2
  markingDone hd := absurd (Or.inr hd) hp
  trimmed no hno := by
    obtain ⟨hc, hv⟩ := hkeep no (h.trimmed no hno).1 (h.trimmed_current (fun hd => hp (Or.inr hd)) hno)
    exact ⟨hc, Or.inr hv⟩

theorem TrimInv.apply (hok : s.Ok cfg) (h : s.TrimInv) {e : BdEvent α} (hloc : e.isLocal = true) (he : s.Enabled cfg e) :
    (s.apply cfg e).TrimInv := by
  have hfileOp : s.owner = some .file → ∀ m, FileOp cfg s.toMount m → TrimInv { s with toMount := m } := by
    intro hown m hm
    refine h.of_file (not_marking hok (by rw [hown]; nofun)) fun no hc hv => ⟨?_, hm.current_inp hok hv⟩
    rw [hm.objs]
    exact hc
  cases e with
  | replay les => cases hloc
  | txBegin =>
    have hnone := Option.isNone_iff_eq_none.1 he
    refine h.of_file (not_marking hok (by rw [owner_of_isNone he]; nofun)) fun no hc hv => ⟨hc, ?_⟩
    rw [getMo_txBegin hnone]
    exact hv
  | alloc | free | edit =>
    obtain ⟨hown, m, hm, heq⟩ := fileOp_apply hok he (by simp)
    exact heq ▸ hfileOp hown m hm
  | txEnd ok =>
    refine h.of_file (not_marking hok (by rw [show s.owner = _ from he]; nofun)) fun no hc hv => ?_
    obtain ⟨tx, htx, -⟩ := tx_of_owner he
    cases ok with
    | true => exact ⟨hv, hv⟩
    | false =>
      rw [if_neg Bool.false_ne_true, hok.mount.getMo_txRollback htx, (hok.mount.undone htx).objs]
      exact ⟨hc, hc⟩
  | select bs =>
    obtain ⟨-, hidle, -⟩ := he
    have htrim : ∀ no ∈ s.trimmed, s.committed no = .inp ∧ s.current no = .inp := fun no hno =>
      ⟨(h.trimmed no hno).1, h.trimmed_current (by rw [hidle]; nofun) hno⟩
    show (s.select bs).TrimInv
    unfold select
    split
    · exact ⟨nofun, nofun, nofun, fun no hno => ⟨(htrim no hno).1, Or.inr (htrim no hno).2⟩⟩
    · split
      · exact h
      · exact ⟨nofun, nofun, nofun, fun no hno => ⟨(htrim no hno).1, Or.inr (htrim no hno).2⟩⟩
  | markInp =>
    obtain ⟨htx, hphase⟩ := he
    have hm := hok.marks markOk_inp htx .markingInp
    refine ⟨fun _ no hno => markInp_dstatus (hm.marked no hno).2, nofun, nofun, fun no hno => ?_⟩
    have hc := (h.trimmed no (hm.trimmed ▸ hno)).1
    refine ⟨(congrArg (fun o => (o (MetaType.blktag, no)).bt.dstatus) hm.objs).trans hc, Or.inr ?_⟩
    by_cases hin : no ∈ (s.bdMark cfg markInp .markingInp).bdroot
    · exact markInp_dstatus (hm.marked no hin).2
    · exact (congrArg (fun o => o.bt.dstatus) (hm.same no hin).1).trans ((current_of_isNone htx no).trans hc)
  | trim no ok =>
    obtain ⟨hphase, hin, -⟩ := he
    obtain ⟨hc, hv⟩ := h.executing hphase no hin
    have htrim : ∀ n ∈ insert no s.trimmed, s.committed n = .inp ∧ s.current n = .inp := by
      intro n hn
      rcases Finset.mem_insert.1 hn with rfl | hn
      · exact ⟨hc, hv⟩
      · exact ⟨(h.trimmed n hn).1, h.trimmed_current (by rw [hphase]; nofun) hn⟩
    show (s.trim no ok).TrimInv
    unfold trim
    cases ok with
    | true =>
      rw [if_pos rfl]
      exact { h with trimmed := fun n hn => ⟨(htrim n hn).1, Or.inr (htrim n hn).2⟩ }
    | false =>
      rw [if_neg Bool.false_ne_true]
      exact ⟨nofun, nofun, nofun, fun n hn => ⟨(htrim n hn).1, Or.inr (htrim n hn).2⟩⟩
  | markDone =>
    obtain ⟨htx, hphase, -⟩ := he
    have hm := hok.marks markOk_done htx .markingDone
    refine ⟨nofun, nofun, fun _ no hno => ?_, fun no hno => ?_⟩
    · obtain ⟨-, hv⟩ := h.executing hphase no (hm.marked no hno).1
      refine (hm.used no).trans ?_
      exact (hok.mount.view (.blktag, no) rfl).unused (by rw [show (s.getMo _).bt.dstatus = _ from hv]; simp)
    · have hc := (h.trimmed no (hm.trimmed ▸ hno)).1
      refine ⟨(congrArg (fun o => (o (MetaType.blktag, no)).bt.dstatus) hm.objs).trans hc, ?_⟩
      by_cases hin : no ∈ (s.bdMark cfg markDone .markingDone).bdroot
      · exact Or.inl ⟨rfl, hin⟩
      · exact Or.inr ((congrArg (fun o => o.bt.dstatus) (hm.same no hin).1).trans ((current_of_isNone htx no).trans hc))
  | bdTxEnd ok =>
    obtain ⟨hphase, -⟩ := he
    obtain ⟨tx, htx, -⟩ := tx_of_owner (hok.owner.2 hphase)
    show (s.bdTxEnd cfg ok).TrimInv
    unfold bdTxEnd
    cases ok with
    | true =>
      rw [if_pos rfl]
      split
      · rename_i hinp
        refine ⟨nofun, fun _ no hno => ⟨h.markingInp hinp no hno, h.markingInp hinp no hno⟩, nofun, fun no hno => ?_⟩
        have hv := h.trimmed_current (by rw [hinp]; nofun) hno
        exact ⟨hv, Or.inr hv⟩
      · refine ⟨nofun, nofun, nofun, fun no hno => ?_⟩
        obtain ⟨hno, hout⟩ := Finset.mem_sdiff.1 hno
        have hv := (h.trimmed no hno).2.resolve_left fun hd => hout hd.2
        exact ⟨hv, Or.inr hv⟩
    | false =>
      rw [if_neg Bool.false_ne_true]
      refine ⟨nofun, nofun, nofun, fun no hno => ?_⟩
      have hc := (h.trimmed no hno).1
      unfold committed current
      dsimp only
      rw [hok.mount.getMo_txRollback htx, (hok.mount.undone htx).objs]
      exact ⟨hc, Or.inr hc⟩
  | crash => exact ⟨nofun, nofun, nofun, fun no hno => ⟨(h.trimmed no hno).1, Or.inr (h.trimmed no hno).1⟩⟩

end BdNode

/-! ## Every local history -/

/-- A trim hits an unused block, which is unused, in the cache and in every transaction, and given out by no
allocation until its mark as done is committed. -/
structure TrimSafe {α : Type*} (cfg : Config) (s : BdNode α) : Prop where
  issued : ∀ no ok s', (bdSystem cfg).step s (.trim no ok) = some s' →
    (s.objs (.blktag, no)).used = false ∧ no ∈ s'.trimmed
  pending : ∀ no ∈ s.trimmed, (s.objs (.blktag, no)).used = false ∧ (s.getMo (.blktag, no)).used = false
  notAllocated : ∀ top no s', s.owner = some .file → bdGet s.ready top →
    s.metaAlloc cfg .blktag top = some (no, s') → no ∉ s.trimmed

theorem trim_safe {α : Type*} {cfg : Config} {s : BdNode α}
    (h : ((bdSystem cfg).restrict fun _ e => e.isLocal = true).Reachable s) : TrimSafe cfg s := by
  have hok : s.Ok cfg := BdNode.ok_reachable h.of_restrict
  obtain ⟨-, hinv⟩ : s.Ok cfg ∧ s.TrimInv := by
    refine h.invariant_restrict (P := fun s => s.Ok cfg ∧ s.TrimInv) (fun s hs => ⟨BdNode.ok_init hs, ?_⟩) ?_
    · obtain ⟨objs, -, rfl⟩ := hs
      exact ⟨nofun, nofun, nofun, nofun⟩
    · rintro s e s' ⟨hok, hinv⟩ hloc hstep
      obtain ⟨he, rfl⟩ := bdSystem_step hstep
      exact ⟨hok.apply he, hinv.apply hok hloc he⟩
  have hunused : ∀ no, s.committed no = .inp → (s.objs (.blktag, no)).used = false := fun no hc =>
    (hok.mount.objs (.blktag, no) rfl).unused (by rw [show (s.objs _).bt.dstatus = _ from hc]; simp)
  constructor
  case issued =>
    intro no ok s' hstep
    obtain ⟨⟨hphase, hin, -⟩, rfl⟩ := bdSystem_step hstep
    refine ⟨hunused no (hinv.executing hphase no hin).1, ?_⟩
    cases ok <;> exact Finset.mem_insert_self _ _
  case pending =>
    intro no hno
    obtain ⟨hc, hv⟩ := hinv.trimmed no hno
    refine ⟨hunused no hc, ?_⟩
    rcases hv with ⟨hphase, hin⟩ | hv
    · exact hinv.markingDone hphase no hin
    · exact (hok.mount.view (.blktag, no) rfl).unused (by rw [show (s.getMo _).bt.dstatus = _ from hv]; simp)
  case notAllocated =>
    intro top no s' hown htop ha hno
    have hnot := BdNode.not_marking hok (by rw [hown]; nofun)
    have hv := hinv.trimmed_current (fun hd => hnot (Or.inr hd)) hno
    exact (hok.mount.metaAlloc_some (BdNode.isSome_of_owner hown) htop ha).notInp rfl hv

/-- Block 1 is trimmed and not marked done yet; the allocator passes it over. -/
theorem trim_safe_pending : ∃ s : BdNode Unit,
    ((bdSystem smallConfig).restrict fun _ e => e.isLocal = true).Reachable s ∧
      (1 ∈ s.trimmed ∧ (s.getMo (.blktag, 2)).used = true) ∧ TrimSafe smallConfig s := by
  have hs := ((bdSystem smallConfig).restrict fun _ e => e.isLocal = true).reachable_last
    (⟨mount smallConfig smallObjs, .idle, ∅, ∅, ∅⟩ : BdNode Unit)
    [.select {1}, .markInp, .bdTxEnd true, .trim 1 true, .txBegin, .alloc .blktag none] ⟨smallObjs, smallObjs_ok, rfl⟩
    (by decide +kernel)
  exact ⟨_, hs, by decide +kernel, trim_safe hs⟩

end PolarFs.Meta
