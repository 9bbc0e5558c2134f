/-
The inodes of a replay (`pfs_get_inode_tx`): a follower that replays a transaction locks each of its inodes
that are in the cache, and records it in an array of four until the end. A rename that replaces a file needs
all four. Two transactions know no bound: the visit that releases the small orphans, and a discard
transaction, which also has an operation for each selected block that was allocated meanwhile.
-/
import PolarFs.Lib.SlotTable
import PolarFs.Meta.Discard
import PolarFs.Meta.Orphans

namespace PolarFs.Meta

open Mount SlotTable

/-! ## Replaying -/

/-- What the redo of a log entry reads: the object, and of a block tag `mo_used`, `bt_dstatus` and
`bt_ino`. -/
structure LogEntry where
  key : Key
  used : Bool
  dstatus : BdStatus
  ino : Nat

namespace LogEntry

def inode (ino : Nat) : LogEntry := ⟨(.inode, ino), true, .none, 0⟩

def direntry (deno : Nat) : LogEntry := ⟨(.direntry, deno), true, .none, 0⟩

/-- A block tag in use. -/
def blktag (ino btno : Nat) : LogEntry := ⟨(.blktag, btno), true, .none, ino⟩

/-- A block tag after `pfs_meta_free_blktag`; it keeps `bt_ino`. -/
def freed (ino btno : Nat) : LogEntry := ⟨(.blktag, btno), false, .ready, ino⟩

/-- The inode that `mt_redo` looks up: `pfs_meta_inode_change`, `pfs_meta_inode_change_findex`. -/
def lookup (le : LogEntry) : Option Nat :=
  match le.key.1 with
  | .inode => some le.key.2
  | .direntry => none
  | .blktag => if le.dstatus = .inp ∨ (le.dstatus = .none ∧ le.used = false) then none else some le.ino

@[simp] theorem lookup_inode (ino : Nat) : (inode ino).lookup = some ino := rfl

@[simp] theorem lookup_blktag (ino btno : Nat) : (blktag ino btno).lookup = some ino := rfl

@[simp] theorem lookup_freed (ino btno : Nat) : (freed ino btno).lookup = some ino := rfl

end LogEntry

/-- What a replay does with an inode of the cache. -/
inductive InodeAct where
  | get (ino : Nat)
  | rplLock (ino : Nat)
  | rplUnlock (ino : Nat)
  | put (ino : Nat)
  deriving DecidableEq

/-- `TX_RPL_MAX_INODES`. -/
def txRplMaxInodes : Nat := 4

/-- `r_inodes` up to the first null pointer, and what was done. -/
structure RplCtx where
  inodes : List Nat
  acts : List InodeAct

/-- `pfs_get_inode_tx`; `none` if the assert fails. -/
def getInodeTx (cached : Nat → Bool) (r : RplCtx) (ino : Nat) : Option RplCtx :=
  if ino ∈ r.inodes then some r
  else if r.inodes.length < txRplMaxInodes then
    some (if cached ino then ⟨r.inodes ++ [ino], r.acts ++ [.get ino, .rplLock ino]⟩ else r)
  else none

/-- `pfs_put_inode_tx_all`. -/
def putInodeTxAll (r : RplCtx) : RplCtx := ⟨[], r.acts ++ r.inodes.flatMap fun i => [.rplUnlock i, .put i]⟩

/-- `pfs_meta_redo` of the entries in turn. -/
def redoLoop (cached : Nat → Bool) : RplCtx → List LogEntry → Option RplCtx
  | r, [] => some r
  | r, le :: les =>
    match le.lookup with
    | none => redoLoop cached r les
    | some ino => (getInodeTx cached r ino).bind fun r => redoLoop cached r les

/-- `pfs_tx_replay`, as far as inodes go. -/
def txReplay (cached : Nat → Bool) (les : List LogEntry) : Option RplCtx :=
  (redoLoop cached ⟨[], []⟩ les).map putInodeTxAll

/-- The replay ends. Each inode of the cache that the entries are about was got and locked once, and at the
end unlocked and put once. -/
def ReplayFits (cached : Nat → Bool) (les : List LogEntry) : Prop :=
  ∃ r : List Nat, txReplay cached les =
      some ⟨[], r.flatMap (fun i => [.get i, .rplLock i]) ++ r.flatMap fun i => [.rplUnlock i, .put i]⟩ ∧
    r.Nodup ∧ ∀ i, i ∈ r ↔ i ∈ les.filterMap LogEntry.lookup ∧ cached i = true

/-- The array is a table of slots. -/
theorem redoLoop_eq (cached : Nat → Bool) (les : List LogEntry) (r : List Nat) :
    redoLoop cached ⟨r, r.flatMap fun i => [.get i, .rplLock i]⟩ les =
      (run txRplMaxInodes cached r (les.filterMap LogEntry.lookup)).map fun r =>
        ⟨r, r.flatMap fun i => [.get i, .rplLock i]⟩ := by
  induction les generalizing r with
  | nil => rfl
  | cons le les ih =>
    unfold redoLoop
    cases hl : le.lookup with
    | none => rw [List.filterMap_cons_none hl, ih]
    | some ino =>
      rw [List.filterMap_cons_some hl, run, look]
      dsimp only [getInodeTx]
      by_cases hin : ino ∈ r
      · rw [if_pos hin, if_pos hin, Option.bind_some, Option.bind_some, ih]
      rw [if_neg hin, if_neg hin]
      by_cases hlt : r.length < txRplMaxInodes
      · rw [if_pos hlt, if_pos hlt, Option.bind_some, Option.bind_some, ← ih]
        by_cases hc : cached ino = true
        · simp [hc]
        · simp [hc]
      · rw [if_neg hlt, if_neg hlt]
        rfl

theorem replayFits_iff {cached : Nat → Bool} {les : List LogEntry} :
    ReplayFits cached les ↔ SlotTable.Fits txRplMaxInodes cached (les.filterMap LogEntry.lookup) := by
  have heq := redoLoop_eq cached les []
  rw [List.flatMap_nil] at heq
  rw [← run_isSome_iff]
  unfold ReplayFits txReplay
  rw [heq]
  constructor
  · rintro ⟨r, hr, -⟩
    cases hrun : run txRplMaxInodes cached [] (les.filterMap LogEntry.lookup) with
    | none =>
      rw [hrun] at hr
      cases hr
    | some r' => exact ⟨r', rfl⟩
  · rintro ⟨r, hrun⟩
    have hholds := run_holds hrun
    rw [hrun]
    exact ⟨r, rfl, hholds.nodup, hholds.mem⟩

/-! ## The transactions of a writer -/

/-- An operation on the blocks or the inode of one file. `tail`, `prev` and `next` are the neighbours in its
list of block tags. -/
inductive FileOp where
  | add (btno : Nat) (tail : Option Nat)
  | del (btno : Nat) (prev next : Option Nat)
  | modifyDblkHole (btno : Nat)
  | change
  | setxattr

/-- The entries of `pfs_inode_add`, `pfs_inode_del`, `pfs_inode_modify_dblk_hole`, `pfs_inode_change` and
`pfs_inodephy_setxattr`. -/
def FileOp.log (ino : Nat) : FileOp → List LogEntry
  | .add btno tail => .blktag ino btno :: .inode ino :: tail.toList.map (.blktag ino)
  | .del btno prev next => .freed ino btno :: .inode ino :: (prev.toList ++ next.toList).map (.blktag ino)
  | .modifyDblkHole btno => [.blktag ino btno]
  | .change => [.inode ino]
  | .setxattr => [.inode ino]

/-- `pfs_inodephy_release`: the inode, and its block tags from the first on. -/
def inodephyReleaseLog (ino : Nat) (btnos : List Nat) : List LogEntry := .inode ino :: btnos.map (.freed ino)

/-- `pfs_dir_add`; `denos` are the name extensions and the last entry of the directory. -/
def dirAddLog (dirino ino deno : Nat) (denos : List Nat) : List LogEntry :=
  .direntry deno :: .inode ino :: .inode dirino :: denos.map .direntry

/-- `pfs_dir_del`; `denos` are the name extensions and the neighbours in the directory. -/
def dirDelLog (dirino ino deno : Nat) (denos : List Nat) : List LogEntry :=
  .direntry deno :: .inode ino :: .inode dirino :: denos.map .direntry

/-- `pfs_dir_move`. -/
def dirMoveLog (odirino ndirino ino deno : Nat) (denos : List Nat) : List LogEntry :=
  .inode odirino :: .inode ndirino :: .direntry deno :: .inode ino :: denos.map .direntry

/-- A transaction of the discard thread: the blocks of `bdroot` are marked as in progress, or as done. -/
structure DiscardTx (α : Type*) where
  cfg : Config
  mount : Mount α
  ok : mount.Ok cfg
  idle : mount.tx = none
  bdroot : Finset Nat
  valid : ∀ no ∈ bdroot, cfg.Valid (.blktag, no)
  done : Bool

namespace DiscardTx

variable {α : Type*} (t : DiscardTx α)

/-- `pfs_meta_bd_mark_inp` or `pfs_meta_bd_mark_done`. -/
def mark : Finset Nat → Finset Nat → Nat → Blktag → Option Blktag :=
  if t.done then markDone else markInp

/-- `pfs_bd_mark_inp` or `pfs_bd_mark_done`, up to the end of the transaction. -/
def marked : Mount α := ((t.mount.txBegin .discard).bdMark t.cfg t.mark t.bdroot).1

/-- The objects of the operations. -/
def heads : List Key := (t.marked.tx.map Tx.heads).getD []

end DiscardTx

/-- A transaction that a writer commits. Operations on an object the transaction already has are merged into
the first one, which looks up no other inode. -/
inductive WriterTx (α : Type*) where
  /-- `pfs_memdir_xlookup` with `O_CREAT`. -/
  | create (dirino ino deno : Nat) (denos : List Nat)
  /-- `pfs_memdir_xremove`. -/
  | remove (dirino ino deno : Nat) (denos : List Nat)
  /-- `pfs_memdir_xrename`, with the inode and the direntry that are replaced. -/
  | rename (odirino ndirino ino deno : Nat) (denos : List Nat) (replaced : Option (Nat × Nat × List Nat))
  /-- `pfs_file_xpwrite`, `pfs_file_xftruncate`, `pfs_file_xfallocate`, `pfs_file_xsetxattr`. -/
  | file (ino : Nat) (ops : List FileOp)
  /-- `pfs_inode_release`. -/
  | release (ino : Nat) (btnos : List Nat)
  /-- `pfs_bd_discard`. -/
  | discard (t : DiscardTx α)
  /-- `pfs_orphans_reclaim`: the visit. -/
  | reclaim (shrink : Nat) (m : Image)

namespace WriterTx

variable {α : Type*} (btIno : α → Nat)

/-- The log entries; `btIno` is `bt_ino` of a block tag's content. -/
def log : WriterTx α → List LogEntry
  | .create dirino ino deno denos => dirAddLog dirino ino deno denos
  | .remove dirino ino deno denos => dirDelLog dirino ino deno denos
  | .rename odirino ndirino ino deno denos replaced =>
    (match replaced with
      | some (nino, ndeno, ndenos) => dirDelLog ndirino nino ndeno ndenos
      | none => []) ++ dirMoveLog odirino ndirino ino deno denos
  | .file ino ops => ops.flatMap (FileOp.log ino)
  | .release ino btnos => inodephyReleaseLog ino btnos
  | .discard t => t.heads.map fun k =>
      let mo := t.marked.getMo k
      ⟨k, mo.used, mo.bt.dstatus, btIno mo.data⟩
  | .reclaim shrink m => (m.smallOrphans shrink).flatMap fun i => inodephyReleaseLog i ((m.inode i).kids.map Prod.snd)

end WriterTx

/-! ## What the transactions look up -/

theorem Mount.heads_bdMarkWalk {α : Type*} (mark : Finset Nat → Finset Nat → Nat → Blktag → Option Blktag) :
    ∀ (nos : List Nat) {s : Mount α} {tx : Tx α}, s.tx = some tx → nos.Nodup →
      (∀ no ∈ nos, (MetaType.blktag, no) ∉ tx.heads) →
        (bdMarkWalk mark s nos).1.tx.map Tx.heads = some (tx.heads ++ nos.map (MetaType.blktag, ·))
  | [], s, tx, htx, _, _ => by
    show s.tx.map Tx.heads = _
    rw [htx, List.map_nil, List.append_nil]
    rfl
  | no :: nos, s, tx, htx, hnd, hout => by
    obtain ⟨hnotin, hnd⟩ := List.nodup_cons.mp hnd
    have hno := hout no List.mem_cons_self
    have hstep := congrArg Mount.tx (write_eq htx (.blktag, no) (markObj mark s no))
    rw [if_neg hno] at hstep
    have hrest := heads_bdMarkWalk mark nos hstep hnd ?_
    · rw [bdMarkWalk, metaBdMark_eq (by rw [htx]; rfl)]
      dsimp only at hrest ⊢
      rw [hrest]
      simp
    · intro n hn hmem
      rcases List.mem_append.mp hmem with hmem | hmem
      · exact hout n (List.mem_cons_of_mem _ hn) hmem
      · cases List.mem_singleton.mp hmem
        exact hnotin hn

namespace DiscardTx

variable {α : Type*} (t : DiscardTx α)

theorem markOk : Mount.MarkOk t.mark := by
  unfold mark
  split
  exacts [markOk_done, markOk_inp]

theorem heads_eq : t.heads = (twalk t.cfg t.bdroot).map (MetaType.blktag, ·) := by
  have hheads := heads_bdMarkWalk t.mark (twalk t.cfg t.bdroot)
    (s := t.mount.txBegin .discard) rfl (nodup_twalk _) fun _ _ => List.not_mem_nil
  show (((bdMarkWalk t.mark _ _).1).tx.map Tx.heads).getD [] = _
  rw [hheads]
  rfl

theorem getMo_marked {no : Nat} (hno : no ∈ twalk t.cfg t.bdroot) :
    t.marked.getMo (.blktag, no) = Mount.markObj t.mark t.mount no := by
  have hok := t.ok.txBegin t.idle .discard
  obtain ⟨-, hmarked⟩ := Mount.Ok.bdMarkWalk t.markOk (twalk t.cfg t.bdroot) hok rfl (nodup_twalk _)
    fun no hno => t.valid no ((mem_twalk t.valid).mp hno)
  refine (hmarked.view (.blktag, no)).trans ?_
  rw [if_pos ⟨rfl, hno⟩]
  unfold Mount.markObj
  rw [getMo_txBegin t.idle]
  rfl

variable (btIno : α → Nat)

/-- The inodes of the selected blocks that cannot be marked, because they were allocated, and perhaps freed
again, after the selection. -/
def owners : List Nat := (twalk t.cfg t.bdroot).filterMap fun no =>
  let mo := t.mount.getMo (.blktag, no)
  if (t.mark t.mount.ready t.mount.inp no mo.bt).isSome then none
  else LogEntry.lookup ⟨(.blktag, no), mo.used, mo.bt.dstatus, btIno mo.data⟩

theorem dstatus_of_mark {ready inp : Finset Nat} {no : Nat} {bt bt' : Blktag} (h : t.mark ready inp no bt = some bt') :
    bt'.dstatus = .inp ∨ bt'.dstatus = .none := by
  unfold mark at h
  split at h
  · unfold markDone at h
    split at h
    · split at h <;> cases h
      exact .inr rfl
    · cases h
    · cases h
  · unfold markInp at h
    split at h
    · split at h <;> cases h
      exact .inl rfl
    · rename_i hst
      split at h <;> cases h
      exact .inl hst
    · cases h

/-- A block that is marked is not in use, and its entry looks up no inode. -/
theorem lookup_markObj (no : Nat) :
    LogEntry.lookup ⟨(.blktag, no), (Mount.markObj t.mark t.mount no).used, (Mount.markObj t.mark t.mount no).bt.dstatus,
        btIno (Mount.markObj t.mark t.mount no).data⟩ =
      if (t.mark t.mount.ready t.mount.inp no (t.mount.getMo (.blktag, no)).bt).isSome then none
      else LogEntry.lookup ⟨(.blktag, no), (t.mount.getMo (.blktag, no)).used, (t.mount.getMo (.blktag, no)).bt.dstatus,
        btIno (t.mount.getMo (.blktag, no)).data⟩ := by
  unfold Mount.markObj
  cases hmark : t.mark t.mount.ready t.mount.inp no (t.mount.getMo (.blktag, no)).bt with
  | none => rfl
  | some bt =>
    have hused := (t.ok.view (.blktag, no) rfl).unused (t.markOk.status hmark)
    rw [Option.getD_some, hused]
    exact if_pos ((t.dstatus_of_mark hmark).imp_right fun h => ⟨h, rfl⟩)

theorem filterMap_lookup : (WriterTx.log btIno (.discard t)).filterMap LogEntry.lookup = t.owners btIno := by
  dsimp only [WriterTx.log, owners]
  rw [heads_eq, List.map_map, List.filterMap_map]
  refine List.filterMap_congr fun no hno => ?_
  rw [Function.comp_apply, Function.comp_apply, getMo_marked t hno]
  exact t.lookup_markObj btIno no

end DiscardTx

theorem filterMap_lookup_direntry (denos : List Nat) : (denos.map LogEntry.direntry).filterMap LogEntry.lookup = [] := by
  rw [List.filterMap_map]
  exact List.filterMap_eq_nil_iff.mpr fun _ _ => rfl

theorem lookup_dirDelLog (dirino ino deno : Nat) (denos : List Nat) :
    (dirDelLog dirino ino deno denos).filterMap LogEntry.lookup = [ino, dirino] :=
  congrArg (ino :: dirino :: ·) (filterMap_lookup_direntry denos)

theorem lookup_dirAddLog (dirino ino deno : Nat) (denos : List Nat) :
    (dirAddLog dirino ino deno denos).filterMap LogEntry.lookup = [ino, dirino] :=
  congrArg (ino :: dirino :: ·) (filterMap_lookup_direntry denos)

theorem lookup_dirMoveLog (odirino ndirino ino deno : Nat) (denos : List Nat) :
    (dirMoveLog odirino ndirino ino deno denos).filterMap LogEntry.lookup = [odirino, ndirino, ino] :=
  congrArg (odirino :: ndirino :: ino :: ·) (filterMap_lookup_direntry denos)

theorem FileOp.lookup_log (ino : Nat) (op : FileOp) : ∀ le ∈ op.log ino, le.lookup = some ino := by
  cases op with
  | add btno tail => simp [FileOp.log]
  | del btno prev next => simp [FileOp.log, or_imp, forall_and]
  | modifyDblkHole btno => simp [FileOp.log]
  | change => simp [FileOp.log]
  | setxattr => simp [FileOp.log]

theorem lookup_inodephyReleaseLog (ino : Nat) (btnos : List Nat) :
    (inodephyReleaseLog ino btnos).filterMap LogEntry.lookup = ino :: btnos.map fun _ => ino := by
  unfold inodephyReleaseLog
  rw [List.filterMap_cons_some (LogEntry.lookup_inode ino), List.filterMap_map]
  exact congrArg (ino :: ·) (List.filterMap_eq_map' ▸ rfl)

/-! ## The bound -/

namespace WriterTx

variable {α : Type*} (btIno : α → Nat) (cached : Nat → Bool)

/-- The inodes of the transaction fit in the array of a follower that has `cached` in its cache. -/
def Fits : WriterTx α → Prop
  | .create .. | .remove .. | .rename .. | .file .. | .release .. => True
  | .discard t => SlotTable.Fits txRplMaxInodes cached (t.owners btIno)
  | .reclaim shrink m => (m.smallOrphans shrink).dropLast.countP cached < txRplMaxInodes

variable {cached}

theorem fits_of_subset {ks : List Nat} {s : Finset Nat} (h : ∀ k ∈ ks, k ∈ s) (hs : s.card ≤ txRplMaxInodes) :
    SlotTable.Fits txRplMaxInodes cached ks :=
  .of_card_le ((Finset.card_le_card fun k hk => h k (List.mem_toFinset.mp hk)).trans hs)

theorem fits_pair {ks : List Nat} {a b : Nat} (h : ks = [a, b]) : SlotTable.Fits txRplMaxInodes cached ks := by
  refine fits_of_subset (s := {a, b}) (fun k hk => ?_) (Finset.card_le_two.trans (by decide))
  rw [h] at hk
  simpa using hk

/-- Everything is about one file. -/
theorem fits_single {ks : List Nat} {a : Nat} (h : ∀ k ∈ ks, k = a) : SlotTable.Fits txRplMaxInodes cached ks :=
  fits_of_subset (s := {a}) (fun k hk => Finset.mem_singleton.mpr (h k hk))
    ((Finset.card_singleton a).le.trans (by decide))

theorem fits_rename (odirino ndirino ino deno : Nat) (denos : List Nat) (replaced : Option (Nat × Nat × List Nat)) :
    SlotTable.Fits txRplMaxInodes cached
      ((WriterTx.log btIno (.rename odirino ndirino ino deno denos replaced)).filterMap LogEntry.lookup) := by
  dsimp only [WriterTx.log]
  rw [List.filterMap_append, lookup_dirMoveLog]
  cases replaced with
  | none =>
    refine fits_of_subset (s := {odirino, ndirino, ino}) (fun k hk => ?_) (Finset.card_le_three.trans (by decide))
    simpa only [List.filterMap_nil, List.nil_append, List.mem_cons, List.not_mem_nil, or_false, Finset.mem_insert,
      Finset.mem_singleton] using hk
  | some r =>
    -- the new directory is both where the entry is removed and where the other one is added
    refine fits_of_subset (s := {r.1, ndirino, odirino, ino}) (fun k hk => ?_) Finset.card_le_four
    rw [lookup_dirDelLog] at hk
    simp only [List.cons_append, List.nil_append, List.mem_cons, List.not_mem_nil] at hk
    simp only [Finset.mem_insert, Finset.mem_singleton]
    tauto

theorem fits_reclaim (shrink : Nat) (m : Image) :
    SlotTable.Fits txRplMaxInodes cached ((WriterTx.log btIno (.reclaim shrink m)).filterMap LogEntry.lookup) ↔
      (m.smallOrphans shrink).dropLast.countP cached < txRplMaxInodes := by
  have hnd : (m.smallOrphans shrink).Nodup := List.nodup_range.filter _
  have hlog : (WriterTx.log btIno (.reclaim shrink m)).filterMap LogEntry.lookup =
      (m.smallOrphans shrink).flatMap fun i => i :: (m.inode i).kids.map fun _ => i := by
    dsimp only [WriterTx.log]
    rw [List.filterMap_flatMap]
    refine List.flatMap_congr fun i _ => ?_
    rw [lookup_inodephyReleaseLog, List.map_map]
    rfl
  rw [hlog, fits_flatMap, fits_iff_of_nodup hnd (by decide)]
  intro i x hx
  obtain ⟨-, -, rfl⟩ := List.mem_map.mp hx
  rfl

end WriterTx

/-- A follower replays a transaction without a fifth inode exactly if the transaction fits. Only orphan
reclaim and discard need not: their inodes are any number of orphans, or the owners of the selected blocks
that were allocated meanwhile. -/
theorem replay_fits_iff {α : Type*} (btIno : α → Nat) (cached : Nat → Bool) (tx : WriterTx α) :
    ReplayFits cached (tx.log btIno) ↔ tx.Fits btIno cached := by
  rw [replayFits_iff]
  cases tx with
  | create dirino ino deno denos => exact iff_of_true (WriterTx.fits_pair (lookup_dirAddLog dirino ino deno denos)) trivial
  | remove dirino ino deno denos => exact iff_of_true (WriterTx.fits_pair (lookup_dirDelLog dirino ino deno denos)) trivial
  | rename odirino ndirino ino deno denos replaced =>
    exact iff_of_true (WriterTx.fits_rename btIno _ _ _ _ _ _) trivial
  | file ino ops =>
    refine iff_of_true (WriterTx.fits_single (a := ino) fun k hk => ?_) trivial
    obtain ⟨le, hle, hk⟩ := List.mem_filterMap.mp hk
    obtain ⟨op, -, hle⟩ := List.mem_flatMap.mp hle
    exact Option.some.inj (hk.symm.trans (op.lookup_log ino le hle))
  | release ino btnos =>
    refine iff_of_true (WriterTx.fits_single (a := ino) fun k hk => ?_) trivial
    dsimp only [WriterTx.log] at hk
    rw [lookup_inodephyReleaseLog] at hk
    rcases List.mem_cons.mp hk with hk | hk
    · exact hk
    · exact (List.mem_map.mp hk).elim fun _ h => h.2.symm
  | discard t =>
    rw [t.filterMap_lookup]
    rfl
  | reclaim shrink m => exact WriterTx.fits_reclaim btIno shrink m

/-- The visit releases five empty orphans in one transaction; a follower that has all of them in its cache
cannot replay it. -/
theorem replay_five_orphans :
    let m : Image := ⟨5, fun _ => ⟨true, .file, none, 0, 0, 7, []⟩, fun _ => false⟩
    (visitInodes 4096 m).isOk = true ∧ m.smallOrphans 4096 = [0, 1, 2, 3, 4] ∧
      txReplay (fun _ => true) (WriterTx.log (fun _ : Unit => 0) (.reclaim 4096 m)) = none := by
  refine ⟨by decide, by decide, ?_⟩
  rfl

end PolarFs.Meta
