/-
`pfs_tx_end` with an error, on a mount with the journal. The transaction is rolled back: objects and allocation
nodes are as they were, and every block of the transaction is in the tree of its committed status, also one that
the discard thread had taken out of it.
-/
import PolarFs.Meta.FreeBlocks

namespace PolarFs.Meta

open Transition Mount

/-! ## `pfs_tx_end` -/

/-- The answer of the log thread to a `LOG_WRITE`, with the transactions to replay first, and `t_timeoutfail`. -/
structure TxOutcome (α : Type*) where
  logRv : Int
  replay : List (Key × MetaObj α)
  timeoutfail : Bool

/-- What the end of a transaction leaves. A `LOG_WRITE` is all of it that can reach the disk. -/
structure TxEnd (α : Type*) where
  rv : Int
  mount : Mount α
  logged : Bool

/-- `-ETIMEDOUT` and `-EAGAIN`. -/
def etimedout : Int := -110
def eagain : Int := -11

namespace Mount

variable {α : Type*} (cfg : Config)

/-- `pfs_tx_submit`. -/
def txSubmit (s : Mount α) (tx : Tx α) (err : Int) (out : TxOutcome α) : TxEnd α :=
  if tx.heads.isEmpty then ⟨err, { s with tx := none }, false⟩
  else if err ≠ 0 then ⟨err, s.txRollback cfg, false⟩
  else if out.logRv < 0 then
    ⟨if out.logRv = etimedout ∧ !out.timeoutfail then eagain else out.logRv,
      (s.txRollback cfg).txReplay cfg out.replay, true⟩
  else ⟨out.logRv, s.txCommit, true⟩

/-- `pfs_tx_end` of the thread's transaction. Its `pfs_loggable` holds here. -/
def txEnd (s : Mount α) (tx : Tx α) (err : Int) (out : TxOutcome α) : TxEnd α :=
  s.txSubmit cfg tx err out

end Mount

/-! ## What a transaction has touched -/

/-- The steps of the node within a transaction: those of the transaction itself, and the trims of the discard
thread, which need no lock. -/
def BdEvent.inTx {α : Type*} : BdEvent α → Bool
  | .alloc .. | .free _ | .edit .. | .trim .. => true
  | _ => false

/-- The steps that begin a transaction; those of the discard thread also make its operations. -/
def BdEvent.beginsTx {α : Type*} : BdEvent α → Bool
  | .txBegin | .markInp | .markDone => true
  | _ => false

/-- `s` is in the middle of a transaction that began in `s₀`. -/
inductive TxRun {α : Type*} (cfg : Config) (s₀ : BdNode α) : BdNode α → Prop
  | first {s : BdNode α} {e : BdEvent α} : e.beginsTx = true → (bdSystem cfg).step s₀ e = some s → TxRun cfg s₀ s
  | step {s s' : BdNode α} {e : BdEvent α} : TxRun cfg s₀ s → e.inTx = true → (bdSystem cfg).step s e = some s' →
      TxRun cfg s₀ s'

/-- What a running transaction has left alone: the cache, the tree of blocks in progress, and the place of every
block it has no operation on. -/
structure TxFrame {α : Type*} (s₀ s : Mount α) (tx : Tx α) : Prop where
  running : s.tx = some tx
  objs : s.objs = s₀.objs
  inp : s.inp = s₀.inp
  ready : ∀ no, (MetaType.blktag, no) ∉ tx.heads → (no ∈ s.ready ↔ no ∈ s₀.ready)
  before : tx.before = ⟨s₀.objs, s₀.anode⟩

namespace TxFrame

variable {α : Type*} {cfg : Config} {s₀ s : Mount α} {tx : Tx α} (h : TxFrame s₀ s tx)

include h

theorem copy (k : Key) (mo : MetaObj α) : ∃ tx', TxFrame s₀ (s.write k mo) tx' ∧ k ∈ tx'.heads := by
  have hmem : ∀ k', k' ∈ (if k ∈ tx.heads then tx.heads else tx.heads ++ [k]) ↔ k' ∈ tx.heads ∨ k' = k := by
    intro k'
    split
    · exact ⟨Or.inl, fun hor => hor.elim id fun he => he ▸ ‹_›⟩
    · rw [List.mem_append, List.mem_singleton]
  rw [write_eq h.running]
  refine ⟨_, ⟨rfl, h.objs, h.inp, fun no hno => ?_, h.before⟩, (hmem k).2 (Or.inr rfl)⟩
  rw [hmem, not_or] at hno
  exact h.ready no hno.1

theorem setAnode (t : MetaType) (an : Root) : TxFrame s₀ (s.setAnode t an) tx :=
  { h with }

theorem setReady {ready : Finset Nat} (hready : ∀ no, (MetaType.blktag, no) ∉ tx.heads → (no ∈ ready ↔ no ∈ s.ready)) :
    TxFrame s₀ { s with ready := ready } tx :=
  { h with ready := fun no hno => (hready no hno).trans (h.ready no hno) }

/-- The copy of a block, and with it its place in the tree. -/
theorem copyReady (val : Nat) (mo : MetaObj α) {ready : Finset Nat}
    (hready : ∀ no, no ≠ val → (no ∈ ready ↔ no ∈ s.ready)) :
    ∃ tx', TxFrame s₀ { s.write (.blktag, val) mo with ready := ready } tx' := by
  obtain ⟨tx', hcopy, hhead⟩ := h.copy (.blktag, val) mo
  refine ⟨tx', hcopy.setReady fun no hno => ?_⟩
  rw [ready_write]
  exact hready no fun he => hno (he ▸ hhead)

omit h in
theorem anodeAlloc_eq {t : MetaType} {no : Nat} {s' : Mount α} (ha : s.anodeAlloc cfg t = some (no, s')) :
    ∃ an, s' = s.setAnode t an := by
  obtain ⟨r, -, heq⟩ := Option.map_eq_some_iff.1 ha
  exact ⟨_, (Prod.mk.inj heq).2.symm⟩

theorem allocCommon {t : MetaType} {r : Nat × Mount α} (ha : s.allocCommon cfg t = some r) :
    ∃ tx', TxFrame s₀ r.2 tx' := by
  obtain ⟨⟨val, s1⟩, hpick, rfl⟩ := Option.map_eq_some_iff.1 ha
  obtain ⟨an, rfl⟩ := anodeAlloc_eq hpick
  obtain ⟨tx', hcopy, -⟩ := (h.setAnode t an).copy (t, val) { (s.setAnode t an).getMo (t, val) with used := true }
  exact ⟨tx', hcopy⟩

theorem allocBlktag {top : Option Nat} {r : Nat × Mount α} (ha : s.allocBlktag cfg top = some r) :
    ∃ tx', TxFrame s₀ r.2 tx' := by
  obtain ⟨⟨val, s1⟩, hpick, rfl⟩ := Option.map_eq_some_iff.1 ha
  -- taken from the tree or from the nodes
  obtain ⟨ready, an, rfl, hready⟩ : ∃ ready an, s1 = ({ s with ready := ready } : Mount α).setAnode .blktag an ∧
      ∀ n, n ≠ val → (n ∈ ready ↔ n ∈ s.ready) := by
    cases top with
    | some b =>
      obtain ⟨rfl, rfl⟩ := Prod.mk.inj (Option.some.inj hpick)
      exact ⟨_, _, rfl, fun n hn => by rw [Finset.mem_erase, and_iff_right hn]⟩
    | none =>
      obtain ⟨an, rfl⟩ := anodeAlloc_eq hpick
      exact ⟨s.ready, an, rfl, fun _ _ => Iff.rfl⟩
  dsimp only
  rw [write_setAnode]
  obtain ⟨tx', hcopy⟩ := h.copyReady val _ hready
  exact ⟨tx', hcopy.setAnode .blktag an⟩

theorem metaAlloc {t : MetaType} {top : Option Nat} {r : Nat × Mount α} (ha : s.metaAlloc cfg t top = some r) :
    ∃ tx', TxFrame s₀ r.2 tx' := by
  cases t with
  | blktag => exact h.allocBlktag ha
  | direntry | inode => exact h.allocCommon ha

theorem freeCommon (t : MetaType) (no : Nat) : ∃ tx', TxFrame s₀ (s.freeCommon cfg t no) tx' := by
  obtain ⟨tx', hcopy, -⟩ := h.copy (t, no) { s.getMo (t, no) with used := false }
  exact ⟨tx', hcopy.setAnode t _⟩

theorem freeBlktag (no : Nat) : ∃ tx', TxFrame s₀ (s.freeBlktag cfg no) tx' := by
  have hready : ∀ mo n, n ≠ no → (n ∈ insert no (s.write (.blktag, no) mo).ready ↔ n ∈ s.ready) := by
    intro mo n hn
    rw [ready_write, Finset.mem_insert, or_iff_right hn]
  obtain ⟨tx', hcopy⟩ := h.copyReady no _ (hready _)
  exact ⟨tx', hcopy.setAnode .blktag _⟩

theorem metaFree (k : Key) : ∃ tx', TxFrame s₀ (s.metaFree cfg k) tx' := by
  obtain ⟨t, no⟩ := k
  cases t with
  | blktag => exact h.freeBlktag no
  | direntry => exact h.freeCommon .direntry no
  | inode => exact h.freeCommon .inode no

theorem edit (k : Key) (data : α) (holeoff holelen : Nat) : ∃ tx', TxFrame s₀ (s.edit k data holeoff holelen) tx' := by
  obtain ⟨tx', hcopy, -⟩ := h.copy k
    { s.getMo k with data := data, bt := { (s.getMo k).bt with holeoff := holeoff, holelen := holelen } }
  exact ⟨tx', hcopy⟩

omit h in
theorem of_begin (owner : Owner) : TxFrame s₀ (s₀.txBegin owner) ⟨owner, [], s₀.objs, ⟨s₀.objs, s₀.anode⟩⟩ :=
  ⟨rfl, rfl, rfl, fun _ _ => Iff.rfl, rfl⟩

end TxFrame

namespace TxRun

variable {α : Type*} {cfg : Config} {s₀ s : BdNode α}

theorem reachable (h : TxRun cfg s₀ s) (hr : (bdSystem cfg).Reachable s₀) : (bdSystem cfg).Reachable s := by
  induction h with
  | first _ hs => exact hr.step hs
  | step _ _ hs ih => exact ih.step hs

theorem idle (h : TxRun cfg s₀ s) : s₀.tx = none := by
  induction h with
  | @first s e hbegin hs =>
    have he := (bdSystem_step hs).1
    cases e with
    | txBegin => exact Option.isNone_iff_eq_none.1 he
    | markInp | markDone => exact Option.isNone_iff_eq_none.1 he.1
    | _ => cases hbegin
  | step _ _ _ ih => exact ih

theorem frame_bdMark (hok : s₀.Ok cfg) {mark : Finset Nat → Finset Nat → Nat → Blktag → Option Blktag}
    (hm : Mount.MarkOk mark) (htx : s₀.tx.isNone) (phase : BdPhase) :
    ∃ tx, TxFrame s₀.toMount (s₀.bdMark cfg mark phase).toMount tx := by
  have hbegin := hok.mount.txBegin (Option.isNone_iff_eq_none.1 htx) .discard
  obtain ⟨-, nos, changed, hmarked, -, -⟩ := hbegin.bdMark hm rfl hok.valid
  obtain ⟨heads, tl, htx', -⟩ := hmarked.tx _ rfl
  have hready : (s₀.bdMark cfg mark phase).ready = s₀.ready := hmarked.ready
  exact ⟨_, htx', hmarked.objs, hmarked.inp, fun no _ => by rw [hready], rfl⟩

/-- The frame holds all along the transaction. -/
theorem frame (h : TxRun cfg s₀ s) (hr : (bdSystem cfg).Reachable s₀) : ∃ tx, TxFrame s₀.toMount s.toMount tx := by
  have hok := BdNode.ok_reachable hr
  induction h with
  | @first s e hbegin hs =>
    obtain ⟨he, rfl⟩ := bdSystem_step hs
    cases e with
    | txBegin => exact ⟨_, TxFrame.of_begin .file⟩
    | markInp => exact frame_bdMark hok markOk_inp he.1 .markingInp
    | markDone => exact frame_bdMark hok markOk_done he.1 .markingDone
    | _ => cases hbegin
  | @step s s' e _ hin hs ih =>
    obtain ⟨tx, hframe⟩ := ih
    obtain ⟨-, rfl⟩ := bdSystem_step hs
    cases e with
    | alloc t top =>
      show ∃ tx, TxFrame s₀.toMount (((s.metaAlloc cfg t top).map Prod.snd).getD s.toMount) tx
      cases ha : s.metaAlloc cfg t top with
      | none => exact ⟨tx, hframe⟩
      | some r => exact hframe.metaAlloc ha
    | free k => exact hframe.metaFree k
    | edit k data holeoff holelen => exact hframe.edit k data holeoff holelen
    | trim no ok => cases ok <;> exact ⟨tx, hframe⟩
    | _ => cases hin

theorem of_run : ∀ {es : List (BdEvent α)} {s s' : BdNode α}, TxRun cfg s₀ s → es.all BdEvent.inTx = true →
    (bdSystem cfg).run s es = some s' → TxRun cfg s₀ s'
  | [], s, s', hs, _, h => by
    cases h
    exact hs
  | e :: es, s, s', hs, hin, h => by
    rw [List.all_cons, Bool.and_eq_true] at hin
    rw [System.run, Option.bind_eq_some_iff] at h
    obtain ⟨t, ht, hrest⟩ := h
    exact of_run (hs.step hin.1 ht) hin.2 hrest

/-- The replay of a history, of the beginning of a transaction and of its steps. -/
theorem exists_of_run (pre : List (BdEvent α)) (e : BdEvent α) (ops : List (BdEvent α)) (p : BdNode α → BdNode α → Tx α → Bool)
    {s : BdNode α} (h0 : (bdSystem cfg).init s) (hbegin : e.beginsTx = true) (hops : ops.all BdEvent.inTx = true)
    (h : (((bdSystem cfg).run s pre).any fun s₀ => ((bdSystem cfg).step s₀ e).any fun s₁ =>
      ((bdSystem cfg).run s₁ ops).any fun s => s.tx.any (p s₀ s)) = true) :
    ∃ s₀ s tx, (bdSystem cfg).Reachable s₀ ∧ TxRun cfg s₀ s ∧ s.tx = some tx ∧ p s₀ s tx = true := by
  obtain ⟨s₀, hs₀, h⟩ := (Option.any_eq_true _ _).1 h
  obtain ⟨s₁, hs₁, h⟩ := (Option.any_eq_true _ _).1 h
  obtain ⟨s, hs, h⟩ := (Option.any_eq_true _ _).1 h
  obtain ⟨tx, htx, h⟩ := (Option.any_eq_true _ _).1 h
  exact ⟨s₀, s, tx, System.run_reachable (.init h0) hs₀, of_run (.first hbegin hs₁) hops hs, htx, h⟩

end TxRun

/-! ## The end with an error -/

/-- What `pfs_tx_end` of a transaction that began in `s₀` leaves unchanged; `heads` are the objects of the
transaction. The trees keep all they had, and get the transaction's blocks that were out of them. -/
structure NoEffect {α : Type*} (cfg : Config) (s₀ : Mount α) (heads : List Key) (e : TxEnd α) : Prop where
  closed : e.mount.tx = none
  objs : e.mount.objs = s₀.objs
  unlogged : e.logged = false
  anode : ∀ t, (e.mount.anode t).SameFree (cfg.shape t) (s₀.anode t)
  ready : ∀ no, no ∈ e.mount.ready ↔
    no ∈ s₀.ready ∨ ((.blktag, no) ∈ heads ∧ (s₀.objs (.blktag, no)).bt.dstatus = .ready)
  inp : ∀ no, no ∈ e.mount.inp ↔ no ∈ s₀.inp ∨ ((.blktag, no) ∈ heads ∧ (s₀.objs (.blktag, no)).bt.dstatus = .inp)

theorem TxFrame.noEffect {α : Type*} {cfg : Config} {s₀ s : Mount α} {tx : Tx α} (h : TxFrame s₀ s tx) (hok₀ : s₀.Ok cfg)
    (hidle : s₀.tx = none) (hok : s.Ok cfg) (err : Int) : NoEffect cfg s₀ tx.heads ⟨err, s.txRollback cfg, false⟩ := by
  have hundo := hok.undone h.running
  have hview := getMo_of_none hidle
  constructor
  case closed => rw [txRollback_eq h.running]
  case objs => exact hundo.objs.trans h.objs
  case unlogged => rfl
  case anode =>
    intro t
    have hback := hok.txRollback.anode t
    rw [hok.getMo_txRollback h.running, h.objs, ← hview] at hback
    exact hback.sameFree (hok₀.anode t)
  case ready =>
    intro no
    rw [hundo.ready, h.objs]
    by_cases hhead : (MetaType.blktag, no) ∈ tx.heads
    · rw [if_pos hhead, and_iff_right hhead]
      refine ⟨Or.inr, fun hor => hor.elim (fun hin => ?_) id⟩
      rw [← hview]
      exact (hok₀.ready no hin).2
    · rw [if_neg hhead, h.ready no hhead]
      simp [hhead]
  case inp =>
    intro no
    rw [hundo.inp, h.objs]
    by_cases hhead : (MetaType.blktag, no) ∈ tx.heads
    · rw [if_pos hhead, and_iff_right hhead]
      exact ⟨Or.inr, fun hor => hor.elim (fun hin => (hok₀.inp no hin).2.1) id⟩
    · rw [if_neg hhead, h.inp]
      simp [hhead]

/-- The end with an error is the rollback; a transaction without operations has nothing to take back. -/
theorem TxFrame.txEnd {α : Type*} {cfg : Config} {s₀ s : Mount α} {tx : Tx α} (h : TxFrame s₀ s tx) (hok₀ : s₀.Ok cfg)
    (hidle : s₀.tx = none) (hok : s.Ok cfg) {err : Int} (herr : err < 0) (out : TxOutcome α) :
    (s.txEnd cfg tx err out).rv = err ∧ NoEffect cfg s₀ tx.heads (s.txEnd cfg tx err out) := by
  rw [Mount.txEnd, Mount.txSubmit, if_pos (show err ≠ 0 by omega)]
  split_ifs with hempty
  · have hroll : s.txRollback cfg = { s with tx := none } := by
      rw [txRollback_eq h.running, List.isEmpty_iff.1 hempty]
      rfl
    exact ⟨rfl, hroll ▸ h.noEffect hok₀ hidle hok err⟩
  · exact ⟨rfl, h.noEffect hok₀ hidle hok err⟩

/-- Any transaction of any history: ended with an error on a mount with the journal, it returns that error and
leaves objects, disk and allocation nodes as they were; its blocks that were in neither tree go to the tree of
their status, and were selected by the discard thread, unless a trim was refused before. -/
theorem tx_end_with_error {α : Type*} (cfg : Config) {s₀ s : BdNode α} {tx : Tx α} (hr : (bdSystem cfg).Reachable s₀)
    (hrun : TxRun cfg s₀ s) (htx : s.tx = some tx) (err : Int) (herr : err < 0) (out : TxOutcome α) :
    (s.txEnd cfg tx err out).rv = err ∧ NoEffect cfg s₀.toMount tx.heads (s.txEnd cfg tx err out) ∧
      (((bdSystem cfg).restrict fun _ e => e.trimsOk = true).Reachable s₀ →
        ∀ no, (no ∈ (s.txEnd cfg tx err out).mount.ready ∧ no ∉ s₀.ready) ∨
          (no ∈ (s.txEnd cfg tx err out).mount.inp ∧ no ∉ s₀.inp) → no ∈ s₀.bdroot) := by
  have hok₀ := BdNode.ok_reachable hr
  have hok := BdNode.ok_reachable (hrun.reachable hr)
  have hidle := hrun.idle
  obtain ⟨tx', hframe⟩ := hrun.frame hr
  obtain rfl : tx' = tx := Option.some.inj (hframe.running.symm.trans htx)
  obtain ⟨hrv, hnone⟩ := hframe.txEnd hok₀.mount hidle hok.mount herr out
  refine ⟨hrv, hnone, fun hres no hno => ?_⟩
  obtain ⟨-, hkept⟩ := BdNode.keptInv_reachable hres
  have hvalid := (hok.mount.heads tx' hframe.running).2
  rcases hno with ⟨hin, hout⟩ | ⟨hin, hout⟩
  · obtain ⟨hhead, hst⟩ := ((hnone.ready no).1 hin).resolve_left hout
    have hu : (s₀.getMo (.blktag, no)).used = false := by
      rw [getMo_of_none hidle]
      exact (hok₀.mount.objs (.blktag, no) rfl).unused (by rw [hst]; simp)
    exact (hkept.committedReady no (hvalid _ hhead) hst hu).resolve_left hout
  · obtain ⟨hhead, hst⟩ := ((hnone.inp no).1 hin).resolve_left hout
    exact (hkept.committedInp no (hvalid _ hhead) hst).resolve_left hout

/-- A log thread that answers at once. -/
def TxOutcome.plain {α : Type*} : TxOutcome α := ⟨0, [], false⟩

theorem init_smallObjs : (bdSystem smallConfig).init (⟨mount smallConfig smallObjs, .idle, ∅, ∅, ∅⟩ : BdNode Unit) :=
  ⟨smallObjs, smallObjs_ok, rfl⟩

/-- An error does not undo all: the discard thread has taken block 1 out of the tree of ready blocks, and the
error puts it back. -/
theorem tx_end_with_error_changes : ∃ (s₀ s : BdNode Unit) (tx : Tx Unit), (bdSystem smallConfig).Reachable s₀ ∧
    TxRun smallConfig s₀ s ∧ s.tx = some tx ∧ 1 ∉ s₀.ready ∧ 1 ∈ (s.txEnd smallConfig tx (-61) .plain).mount.ready := by
  obtain ⟨s₀, s, tx, hr, hrun, htx, hp⟩ := TxRun.exists_of_run [.select {1}] .markInp []
    (fun s₀ s tx => decide (1 ∉ s₀.ready ∧ 1 ∈ (s.txEnd smallConfig tx (-61) .plain).mount.ready))
    init_smallObjs rfl rfl (by decide +kernel)
  exact ⟨s₀, s, tx, hr, hrun, htx, of_decide_eq_true hp⟩

/-- A transaction that reused block 1, freed block 0 and took an inode, ended with `-ENOSPC`. -/
theorem tx_end_with_error_nospace : ∃ (s₀ s : BdNode Unit) (tx : Tx Unit), (s.getMo (.blktag, 1)).used = true ∧
    (s.txEnd smallConfig tx (-28) .plain).rv = -28 ∧
      NoEffect smallConfig s₀.toMount tx.heads (s.txEnd smallConfig tx (-28) .plain) := by
  obtain ⟨s₀, s, tx, hr, hrun, htx, hp⟩ := TxRun.exists_of_run [] .txBegin
    [.alloc .blktag (some 1), .free (.blktag, 0), .alloc .inode (some 0)] (fun _ s _ => (s.getMo (.blktag, 1)).used)
    init_smallObjs rfl rfl (by decide +kernel)
  have h := tx_end_with_error smallConfig hr hrun htx (-28) (by decide) .plain
  exact ⟨s₀, s, tx, hp, h.1, h.2.1⟩

end PolarFs.Meta
