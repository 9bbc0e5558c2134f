/-
Where a free block that is to be discarded can be found: in the tree of its status, or in the selection of the
discard thread. Every exit of the thread puts the blocks back by rolling a transaction back, except one: when
the device refuses a trim, the selection is given up although its blocks are committed as in progress. They
are in no tree then, and the allocator refuses them, until the next mount.
-/
import PolarFs.Meta.TrimSafety

namespace PolarFs.Meta

open Transition Mount MetaType

/-- Every step but a trim that the device refuses. -/
def BdEvent.trimsOk {α : Type*} : BdEvent α → Bool
  | .trim _ ok => ok
  | _ => true

/-- Every unused block with a committed discard state is in the tree of that state or in the thread's selection. -/
def FreeBlocksKept {α : Type*} (cfg : Config) (s : BdNode α) : Prop :=
  ∀ no, cfg.Valid (.blktag, no) → (s.getMo (.blktag, no)).used = false →
    ((s.objs (.blktag, no)).bt.dstatus = .ready → no ∈ s.ready ∨ no ∈ s.bdroot) ∧
      ((s.objs (.blktag, no)).bt.dstatus = .inp → no ∈ s.inp ∨ no ∈ s.bdroot)

namespace BdNode

variable {α : Type*} {cfg : Config} {s : BdNode α}

/-! ## The invariant -/

/-- `ready` and `inp` are about the running transaction's view and stay true when it commits, `committedReady` and
`committedInp` about the cache. Only a selection not yet marked holds ready blocks that are not in their tree. -/
structure KeptInv (cfg : Config) (s : BdNode α) : Prop where
  ready : ∀ no, cfg.Valid (.blktag, no) → s.current no = .ready → no ∈ s.ready ∨ (s.phase = .selected ∧ no ∈ s.bdroot)
  inp : ∀ no, cfg.Valid (.blktag, no) → s.current no = .inp → no ∈ s.inp ∨ no ∈ s.bdroot
  committedReady : ∀ no, cfg.Valid (.blktag, no) → s.committed no = .ready → (s.getMo (.blktag, no)).used = false →
    no ∈ s.ready ∨ no ∈ s.bdroot
  committedInp : ∀ no, cfg.Valid (.blktag, no) → s.committed no = .inp → no ∈ s.inp ∨ no ∈ s.bdroot
  heads : ∀ tx, s.tx = some tx → tx.owner = .discard → ∀ no ∈ s.bdroot, (blktag, no) ∈ tx.heads
  markingDone : s.phase = .markingDone → ∀ no ∈ s.bdroot, s.current no = .none

theorem committed_congr {s' : BdNode α} (h : s'.objs = s.objs) (no : Nat) : s'.committed no = s.committed no := by
  unfold committed
  rw [h]

/-- A mount puts a block into the tree of its status. -/
theorem mem_bdBuildIndex_of_ne {objs : Key → MetaObj α} (hobjs : ∀ k, (objs k).Ok k.1) {st : BdStatus} {no : Nat}
    (hv : cfg.Valid (.blktag, no)) (hst : (objs (.blktag, no)).bt.dstatus = st) (hne : st ≠ .none) :
    no ∈ bdBuildIndex cfg objs st :=
  mem_bdBuildIndex.2 ⟨hv, (hobjs (.blktag, no) rfl).unused (by rwa [hst]), hst⟩

/-- With no transaction running, the view's part is the whole invariant. -/
theorem KeptInv.of_isNone (htx : s.tx.isNone) (hphase : s.phase ≠ .markingDone)
    (hready : ∀ no, cfg.Valid (.blktag, no) → s.committed no = .ready → no ∈ s.ready ∨ (s.phase = .selected ∧ no ∈ s.bdroot))
    (hinp : ∀ no, cfg.Valid (.blktag, no) → s.committed no = .inp → no ∈ s.inp ∨ no ∈ s.bdroot) : s.KeptInv cfg where
  ready no hv hst := hready no hv ((current_of_isNone htx no).symm.trans hst)
  inp no hv hst := hinp no hv ((current_of_isNone htx no).symm.trans hst)
  committedReady no hv hst _ := (hready no hv hst).imp_right And.right
  committedInp := hinp
  heads tx heq := by
    rw [Option.isNone_iff_eq_none.1 htx] at heq
    cases heq
  markingDone hp := absurd hp hphase

/-- A block of the selection that could not be marked as in progress is in the tree of its status. -/
theorem markInp_none {ready inp : Finset Nat} {no : Nat} {bt : Blktag} (h : markInp ready inp no bt = none) :
    (bt.dstatus = .ready → no ∈ ready) ∧ (bt.dstatus = .inp → no ∈ inp) := by
  unfold markInp at h
  constructor <;> intro hst <;> rw [hst] at h <;> dsimp only at h <;> split at h
  · assumption
  · cases h
  · assumption
  · cases h

theorem markDone_none {ready inp : Finset Nat} {no : Nat} {bt : Blktag} (h : markDone ready inp no bt = none)
    (hst : bt.dstatus = .inp) : no ∈ inp := by
  unfold markDone at h
  rw [hst] at h
  dsimp only at h
  split at h
  · assumption
  · cases h

/-- Either marking keeps the invariant, where a block it leaves out is in the tree of its committed status and
one it marks is no longer ready. -/
theorem KeptInv.mark {s' : BdNode α} {mark : Finset Nat → Finset Nat → Nat → Blktag → Option Blktag}
    (hm : Marks mark s s') (htx : s.tx.isNone)
    (hready : ∀ no, cfg.Valid (.blktag, no) → s.committed no = .ready → no ∉ s'.bdroot → no ∈ s.ready)
    (hinp : ∀ no, cfg.Valid (.blktag, no) → s.committed no = .inp → no ∉ s'.bdroot → no ∈ s.inp)
    (hmarked : ∀ no ∈ s'.bdroot, s'.current no ≠ .ready)
    (hdone : s'.phase = .markingDone → ∀ no ∈ s'.bdroot, s'.current no = .none) : s'.KeptInv cfg := by
  have hcommitted := committed_congr hm.objs
  have hsame : ∀ no, no ∉ s'.bdroot → s'.current no = s.committed no := fun no hout => by
    rw [← current_of_isNone htx]
    exact congrArg (fun mo => mo.bt.dstatus) (hm.same no hout).1
  constructor
  case ready =>
    intro no hv hst
    rw [hm.ready]
    have hin : no ∉ s'.bdroot := fun hin => hmarked no hin hst
    exact Or.inl (hready no hv ((hsame no hin).symm.trans hst) hin)
  case inp =>
    intro no hv hst
    rw [hm.inp]
    by_cases hin : no ∈ s'.bdroot
    · exact Or.inr hin
    · exact Or.inl (hinp no hv ((hsame no hin).symm.trans hst) hin)
  case committedReady =>
    intro no hv hst _
    rw [hm.ready]
    by_cases hin : no ∈ s'.bdroot
    · exact Or.inr hin
    · exact Or.inl (hready no hv ((hcommitted no).symm.trans hst) hin)
  case committedInp =>
    intro no hv hst
    rw [hm.inp]
    by_cases hin : no ∈ s'.bdroot
    · exact Or.inr hin
    · exact Or.inl (hinp no hv ((hcommitted no).symm.trans hst) hin)
  case heads =>
    intro tx heq _ no hno
    obtain ⟨tx', heq', hheads⟩ := hm.heads
    rw [heq] at heq'
    cases heq'
    exact hheads no (hm.marked no hno).1
  case markingDone => exact hdone

namespace KeptInv

variable (h : s.KeptInv cfg) (hok : s.Ok cfg)

include h hok

theorem fileOp (hown : s.owner = some .file) {m : Mount α}
    (hm : FileOp cfg s.toMount m) : KeptInv cfg { s with toMount := m } := by
  have hphase := not_marking hok (by rw [hown]; nofun)
  have hcommitted : ∀ no, committed { s with toMount := m } no = s.committed no := committed_congr hm.objs
  constructor
  case ready =>
    intro no hv hst
    rcases hm.blk no with ⟨-, hsame, hiff⟩ | ⟨-, -, -, hnone⟩ | ⟨-, -, -, hin⟩
    · exact (h.ready no hv (hsame.symm.trans hst)).imp_left hiff.2
    · rw [show (m.getMo _).bt.dstatus = _ from hst] at hnone
      cases hnone
    · exact Or.inl hin
  case inp =>
    intro no hv hst
    have hinp : m.inp = s.inp := hm.inp
    show no ∈ m.inp ∨ _
    rw [hinp]
    rcases hm.blk no with ⟨-, hsame, -⟩ | ⟨-, -, -, hnone⟩ | ⟨-, -, hready, -⟩
    · exact h.inp no hv (hsame.symm.trans hst)
    · rw [show (m.getMo _).bt.dstatus = _ from hst] at hnone
      cases hnone
    · rw [show (m.getMo _).bt.dstatus = _ from hst] at hready
      cases hready
  case committedReady =>
    intro no hv hst hu
    rw [hcommitted] at hst
    rcases hm.blk no with ⟨hused, -, hiff⟩ | ⟨-, -, hused, -⟩ | ⟨-, -, -, hin⟩
    · exact (h.committedReady no hv hst (hused.symm.trans hu)).imp_left hiff.2
    · rw [show (m.getMo _).used = _ from hu] at hused
      cases hused
    · exact Or.inl hin
  case committedInp =>
    intro no hv hst
    show no ∈ m.inp ∨ _
    rw [show m.inp = s.inp from hm.inp]
    exact h.committedInp no hv (hcommitted no ▸ hst)
  case heads =>
    intro tx heq hd
    have howner : m.tx.map Tx.owner = some .file := hm.owner.trans hown
    rw [show m.tx = _ from heq, Option.map_some, hd] at howner
    cases howner
  case markingDone => exact fun hd => absurd (Or.inr hd) hphase

/-- After a rollback the blocks of the transaction are in the tree of their status, the others where they were. -/
theorem rollback {tx : Tx α} (htx : s.tx = some tx) :
    (∀ no, cfg.Valid (.blktag, no) → s.committed no = .ready →
      no ∈ (s.txRollback cfg).ready ∨ (s.phase = .selected ∧ no ∈ s.bdroot ∧ (blktag, no) ∉ tx.heads)) ∧
    ∀ no, cfg.Valid (.blktag, no) → s.committed no = .inp →
      no ∈ (s.txRollback cfg).inp ∨ (no ∈ s.bdroot ∧ (blktag, no) ∉ tx.heads) := by
  have hundo := hok.mount.undone htx
  have hcur : ∀ no, (blktag, no) ∉ tx.heads → s.current no = s.committed no := fun no hno => by
    unfold current committed
    rw [getMo_of_some htx, if_neg hno]
  constructor
  · intro no hv hst
    rw [hundo.ready]
    by_cases hhead : (blktag, no) ∈ tx.heads
    · rw [if_pos hhead]
      exact Or.inl hst
    · rw [if_neg hhead]
      exact (h.ready no hv ((hcur no hhead).trans hst)).imp_right fun hs => ⟨hs.1, hs.2, hhead⟩
  · intro no hv hst
    rw [hundo.inp]
    by_cases hhead : (blktag, no) ∈ tx.heads
    · rw [if_pos hhead]
      exact Or.inl hst
    · rw [if_neg hhead]
      exact (h.inp no hv ((hcur no hhead).trans hst)).imp_right fun hs => ⟨hs, hhead⟩

omit hok in
/-- The replay of one log entry puts its block where it belongs. -/
theorem metaRedo (htx : s.tx = none) (hphase : s.phase ≠ .markingDone)
    (le : Key × MetaObj α) : KeptInv cfg { s with toMount := Mount.metaRedo cfg s.toMount le } := by
  have hredo := redone cfg s.toMount le
  have hnone : ({ s with toMount := Mount.metaRedo cfg s.toMount le } : BdNode α).tx.isNone := by
    rw [show ({ s with toMount := Mount.metaRedo cfg s.toMount le } : BdNode α).tx = none from hredo.tx.trans htx]
    rfl
  have hst : ∀ no, committed { s with toMount := Mount.metaRedo cfg s.toMount le } no =
      if le.1 = (.blktag, no) then le.2.bt.dstatus else s.committed no := by
    intro no
    unfold committed
    rw [hredo.objs]
    by_cases hk : le.1 = (blktag, no)
    · rw [if_pos hk, ← hk, Function.update_self]
    · rw [if_neg hk, Function.update_of_ne fun he => hk he.symm]
  refine of_isNone hnone hphase (fun no hv hc => ?_) (fun no hv hc => ?_)
  · show no ∈ (Mount.metaRedo cfg s.toMount le).ready ∨ _
    rw [hst] at hc
    rw [hredo.ready]
    by_cases hk : le.1 = (blktag, no)
    · rw [if_pos hk] at hc ⊢
      exact Or.inl hc
    · rw [if_neg hk] at hc ⊢
      exact h.ready no hv ((current_of_isNone (Option.isNone_iff_eq_none.2 htx) no).trans hc)
  · show no ∈ (Mount.metaRedo cfg s.toMount le).inp ∨ _
    rw [hst] at hc
    rw [hredo.inp]
    by_cases hk : le.1 = (blktag, no)
    · rw [if_pos hk] at hc ⊢
      exact Or.inl hc
    · rw [if_neg hk] at hc ⊢
      exact h.committedInp no hv hc

/-! ## Steps of the thread -/

theorem select {bs : Finset Nat} (he : s.Enabled cfg (.select bs)) : (s.select bs).KeptInv cfg := by
  obtain ⟨htx, hidle, -⟩ := he
  have hcur := current_of_isNone htx
  have hroot := hok.idle hidle
  have hready : ∀ no, cfg.Valid (.blktag, no) → s.committed no = .ready → no ∈ s.ready := by
    intro no hv hst
    rcases h.ready no hv ((hcur no).trans hst) with hin | ⟨hp, -⟩
    · exact hin
    · rw [hidle] at hp
      cases hp
  have hinp : ∀ no, cfg.Valid (.blktag, no) → s.committed no = .inp → no ∈ s.inp := by
    intro no hv hst
    rcases h.committedInp no hv hst with hin | hin
    · exact hin
    · rw [hroot] at hin
      cases hin
  unfold BdNode.select
  split
  · exact of_isNone htx nofun (fun no hv hst => Or.inl (hready no hv hst)) fun no hv hst => Or.inr (hinp no hv hst)
  split
  · exact h
  · refine of_isNone htx nofun (fun no hv hst => ?_) fun no hv hst => Or.inl (hinp no hv hst)
    by_cases hbs : no ∈ bs
    · exact Or.inr ⟨rfl, hbs⟩
    · exact Or.inl (Finset.mem_sdiff.2 ⟨hready no hv hst, hbs⟩)

theorem markInp (he : s.Enabled cfg .markInp) : (s.bdMark cfg markInp .markingInp).KeptInv cfg := by
  obtain ⟨htx, -⟩ := he
  have hcur := current_of_isNone htx
  have hm := hok.marks markOk_inp htx .markingInp
  -- a block is marked, or it left the selection and is in the tree of its status
  refine mark hm htx (fun no hv hst hout => ?_) (fun no hv hst hout => ?_) (fun no hin hst => ?_) nofun
  · rcases h.ready no hv ((hcur no).trans hst) with hin | ⟨-, hin⟩
    · exact hin
    · exact (markInp_none ((hm.same no hout).2 hin)).1 ((hcur no).trans hst)
  · rcases h.committedInp no hv hst with hin | hin
    · exact hin
    · exact (markInp_none ((hm.same no hout).2 hin)).2 ((hcur no).trans hst)
  · cases hst.symm.trans (markInp_dstatus (hm.marked no hin).2)

theorem markDone (he : s.Enabled cfg .markDone) : (s.bdMark cfg markDone .markingDone).KeptInv cfg := by
  obtain ⟨htx, hexec, -⟩ := he
  have hcur := current_of_isNone htx
  have hm := hok.marks markOk_done htx .markingDone
  have hmarked := fun no hin => (markDone_dstatus (hm.marked no hin).2).2
  refine mark hm htx (fun no hv hst _ => ?_) (fun no hv hst hout => ?_) (fun no hin hst => ?_) fun _ => hmarked
  · rcases h.ready no hv ((hcur no).trans hst) with hin | ⟨hp, -⟩
    · exact hin
    · rw [hexec] at hp
      cases hp
  · rcases h.committedInp no hv hst with hin | hin
    · exact hin
    · exact markDone_none ((hm.same no hout).2 hin) ((hcur no).trans hst)
  · cases hst.symm.trans (hmarked no hin)

theorem bdTxEnd {ok : Bool} (he : s.Enabled cfg (.bdTxEnd ok)) : (s.bdTxEnd cfg ok).KeptInv cfg := by
  obtain ⟨hphase, -⟩ := he
  obtain ⟨tx, htx, hown⟩ := tx_of_owner (hok.owner.2 hphase)
  have hnotsel : s.phase ≠ .selected := fun hs => by
    rw [hs] at hphase
    rcases hphase with hp | hp <;> cases hp
  have hready : ∀ no, cfg.Valid (.blktag, no) → s.current no = .ready → no ∈ s.ready := fun no hv hst =>
    (h.ready no hv hst).resolve_right fun hs => hnotsel hs.1
  unfold BdNode.bdTxEnd
  cases ok with
  | true =>
    rw [if_pos rfl]
    split
    · exact of_isNone rfl nofun (fun no hv hst => Or.inl (hready no hv hst)) fun no hv hst => h.inp no hv hst
    rename_i hinp
    refine of_isNone rfl nofun (fun no hv hst => Or.inl (hready no hv hst)) fun no hv hst => ?_
    -- the blocks of the selection are marked done in what is committed
    rcases h.inp no hv hst with hin | hin
    · exact Or.inl hin
    · have hnone := h.markingDone (hphase.resolve_left hinp) no hin
      rw [show s.current no = _ from hst] at hnone
      cases hnone
  | false =>
    obtain ⟨hr, hi⟩ := h.rollback hok htx
    have hobjs := (hok.mount.undone htx).objs
    rw [if_neg Bool.false_ne_true]
    refine of_isNone ?_ nofun (fun no hv hst => ?_) fun no hv hst => ?_
    · show (s.txRollback cfg).tx.isNone
      rw [txRollback_eq htx]
      rfl
    · rw [committed_congr hobjs] at hst
      exact Or.inl ((hr no hv hst).resolve_right fun hs => hnotsel hs.1)
    · rw [committed_congr hobjs] at hst
      exact Or.inl ((hi no hv hst).resolve_right fun hs => hs.2 (h.heads tx htx hown no hs.1))

theorem apply {e : BdEvent α} (htrim : e.trimsOk = true) (he : s.Enabled cfg e) : (s.apply cfg e).KeptInv cfg := by
  cases e with
  | txBegin =>
    have hnone := Option.isNone_iff_eq_none.1 he
    have hphase := not_marking hok (by rw [owner_of_isNone he]; nofun)
    have hview : ({ s with toMount := s.txBegin .file } : BdNode α).getMo = s.getMo := getMo_txBegin hnone .file
    refine ⟨fun no hv hst => h.ready no hv ?_, fun no hv hst => h.inp no hv ?_, fun no hv hst hu => h.committedReady no hv hst ?_,
      h.committedInp, fun tx heq hd => ?_, fun hd => absurd (Or.inr hd) hphase⟩
    · unfold current at hst ⊢
      rwa [← hview]
    · unfold current at hst ⊢
      rwa [← hview]
    · rwa [← hview]
    · cases heq
      cases hd
  | alloc | free | edit =>
    obtain ⟨hown, m, hm, heq⟩ := fileOp_apply hok he (by simp)
    exact heq ▸ h.fileOp hok hown hm
  | txEnd ok =>
    have hphase := not_marking hok (by rw [show s.owner = _ from he]; nofun)
    obtain ⟨tx, htx, -⟩ := tx_of_owner he
    have hnotdone : s.phase ≠ .markingDone := fun hd => hphase (Or.inr hd)
    cases ok with
    | true => exact of_isNone rfl hnotdone h.ready h.inp
    | false =>
      obtain ⟨hr, hi⟩ := h.rollback hok htx
      have hobjs := (hok.mount.undone htx).objs
      refine of_isNone ?_ hnotdone (fun no hv hst => ?_) fun no hv hst => ?_
      · show (s.txRollback cfg).tx.isNone
        rw [txRollback_eq htx]
        rfl
      · rw [committed_congr hobjs] at hst
        exact (hr no hv hst).imp_right fun hs => ⟨hs.1, hs.2.1⟩
      · rw [committed_congr hobjs] at hst
        exact (hi no hv hst).imp_right And.left
  | replay les =>
    obtain ⟨htx, hles⟩ := he
    have hphase := not_marking hok (by rw [owner_of_isNone htx]; nofun)
    exact (Mount.Ok.txReplay_induction (P := fun m => KeptInv cfg { s with toMount := m })
      (fun m le _ hnone _ _ hp => hp.metaRedo hnone (fun hd => hphase (Or.inr hd)) le) les hok.mount
      (Option.isNone_iff_eq_none.1 htx) hles h).2.2
  | select bs => exact h.select hok he
  | markInp => exact h.markInp hok he
  | trim no ok =>
    obtain rfl : ok = true := htrim
    exact { h with }
  | markDone => exact h.markDone hok he
  | bdTxEnd ok => exact h.bdTxEnd hok he
  | crash =>
    refine of_isNone rfl nofun (fun no hv hst => Or.inl ?_) fun no hv hst => Or.inl ?_
    · exact mem_bdBuildIndex_of_ne hok.mount.objs hv hst nofun
    · exact mem_bdBuildIndex_of_ne hok.mount.objs hv hst nofun

end KeptInv

theorem keptInv_init (h : (bdSystem cfg).init s) : s.KeptInv cfg := by
  obtain ⟨objs, hobjs, rfl⟩ := h
  refine KeptInv.of_isNone rfl nofun (fun no hv hst => Or.inl ?_) fun no hv hst => Or.inl ?_
  · exact mem_bdBuildIndex_of_ne hobjs hv hst nofun
  · exact mem_bdBuildIndex_of_ne hobjs hv hst nofun

theorem keptInv_reachable (h : ((bdSystem cfg).restrict fun _ e => e.trimsOk = true).Reachable s) :
    s.Ok cfg ∧ s.KeptInv cfg := by
  refine h.invariant_restrict (P := fun s => s.Ok cfg ∧ s.KeptInv cfg)
    (fun s hs => ⟨BdNode.ok_init hs, BdNode.keptInv_init hs⟩) ?_
  rintro s e s' ⟨hok, hinv⟩ htrim hstep
  obtain ⟨he, rfl⟩ := bdSystem_step hstep
  exact ⟨hok.apply he, hinv.apply hok htrim he⟩

end BdNode

/-! ## Every history without a refused trim -/

theorem free_blocks_kept {α : Type*} {cfg : Config} {s : BdNode α}
    (h : ((bdSystem cfg).restrict fun _ e => e.trimsOk = true).Reachable s) : FreeBlocksKept cfg s := by
  obtain ⟨-, hinv⟩ := BdNode.keptInv_reachable h
  intro no hv hu
  exact ⟨fun hst => hinv.committedReady no hv hst hu, fun hst => hinv.committedInp no hv hst⟩

/-- Block 1 is trimmed and waits for its mark as done, in the thread's selection. -/
theorem free_blocks_kept_selected : ∃ s : BdNode Unit,
    ((bdSystem smallConfig).restrict fun _ e => e.trimsOk = true).Reachable s ∧
      (1 ∈ s.bdroot ∧ (s.objs (.blktag, 1)).bt.dstatus = .inp) ∧ FreeBlocksKept smallConfig s := by
  have hs := ((bdSystem smallConfig).restrict fun _ e => e.trimsOk = true).reachable_last
    (⟨mount smallConfig smallObjs, .idle, ∅, ∅, ∅⟩ : BdNode Unit)
    [.select {1}, .markInp, .bdTxEnd true, .trim 1 true] ⟨smallObjs, smallObjs_ok, rfl⟩ (by decide +kernel)
  exact ⟨_, hs, by decide +kernel, free_blocks_kept hs⟩

/-- The trim of block 1 fails: the thread drops the block, whose state is committed as in progress. -/
theorem not_free_blocks_kept : ∃ s : BdNode Unit, (bdSystem smallConfig).Reachable s ∧ ¬ FreeBlocksKept smallConfig s := by
  have hs := (bdSystem smallConfig).reachable_last (⟨mount smallConfig smallObjs, .idle, ∅, ∅, ∅⟩ : BdNode Unit)
    [.select {1}, .markInp, .bdTxEnd true, .trim 1 false] ⟨smallObjs, smallObjs_ok, rfl⟩ (by decide +kernel)
  refine ⟨_, hs, fun hkept => ?_⟩
  have hin := (hkept 1 (by decide) (by decide +kernel)).2 (by decide +kernel)
  revert hin
  decide +kernel

end PolarFs.Meta
