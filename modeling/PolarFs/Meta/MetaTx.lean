/-
Metadata objects, the write transaction over them and the search trees of blocks to discard.

A transaction works on copies: the first operation on an object copies it from the metadata cache, later
ones and the reads within the transaction see that copy. The allocation nodes and the search trees are
changed at once. A commit moves the copies to the cache; a rollback takes the changes of nodes and trees
back, object by object in reverse; another node's transaction is replayed from its log entries. The
metadata lock is held throughout, so transactions do not overlap.
-/
import PolarFs.Meta.Anode

namespace PolarFs.Meta

/-! ## Objects -/

/-- `MT_*`. -/
inductive MetaType where
  | blktag
  | direntry
  | inode
  deriving DecidableEq, Repr

/-- `BDS_*`. -/
inductive BdStatus where
  | none
  | ready
  | inp
  deriving DecidableEq, Repr

/-- The fields of `pfs_blktag_phy_t` that allocation and discarding touch. -/
structure Blktag where
  dstatus : BdStatus
  ndiscard : Nat
  holeoff : Nat
  holelen : Nat
  deriving DecidableEq, Repr

/-- `pfs_metaobj_phy_t`. Directory entries and inodes have no `bt`, nothing looks at it there. -/
structure MetaObj (α : Type*) where
  used : Bool
  bt : Blktag
  data : α

abbrev Key := MetaType × Nat

/-- What a mount is configured with. `holelen` is the hole of a new block: `mnt_blksize`, or zero without
`PFS_FEATURE_BLKHOLE`. -/
structure Config where
  nchunk : Nat
  shape : MetaType → Shape
  holelen : Nat
  discardNinp : Nat

/-- The key of an object of the volume. -/
def Config.Valid (cfg : Config) (k : Key) : Prop := (cfg.shape k.1).Valid cfg.nchunk k.2

instance (cfg : Config) (k : Key) : Decidable (cfg.Valid k) := inferInstanceAs (Decidable (Shape.Valid _ _ _))

/-- The first number above those of the objects of a type. -/
def Config.bound (cfg : Config) (t : MetaType) : Nat := cfg.nchunk * 2 ^ (cfg.shape t).shift

/-- Whose transaction it is: a file operation's or the discard thread's. -/
inductive Owner where
  | file
  | discard
  deriving DecidableEq, Repr

/-- Objects and allocation nodes at some moment. -/
structure Saved (α : Type*) where
  objs : Key → MetaObj α
  anode : MetaType → Root

/-- `pfs_tx_t`: the objects with a head operation, in order, and their copies `top_local`. `before` is what
the transaction found when it began, kept for the statements only. -/
structure Tx (α : Type*) where
  owner : Owner
  heads : List Key
  topLocal : Key → MetaObj α
  before : Saved α

/-- The metadata cache, the roots of the allocation nodes, the trees `mnt_bdroot[BDS_READY]` and
`mnt_bdroot[BDS_INP]`, and the transaction that holds the metadata lock. -/
structure Mount (α : Type*) where
  objs : Key → MetaObj α
  anode : MetaType → Root
  ready : Finset Nat
  inp : Finset Nat
  tx : Option (Tx α)

namespace Mount

variable {α : Type*} (cfg : Config) (s : Mount α)

/-- `pfs_tx_get_mo`. -/
def getMo (k : Key) : MetaObj α :=
  match s.tx with
  | some tx => if k ∈ tx.heads then tx.topLocal k else s.objs k
  | none => s.objs k

/-- `pfs_tx_begin`. -/
def txBegin (owner : Owner) : Mount α := { s with tx := some ⟨owner, [], s.objs, ⟨s.objs, s.anode⟩⟩ }

/-- `pfs_txop_init`. -/
def txopInit (k : Key) : Mount α :=
  match s.tx with
  | some tx =>
    if k ∈ tx.heads then s
    else { s with tx := some { tx with heads := tx.heads ++ [k], topLocal := Function.update tx.topLocal k (s.objs k) } }
  | none => s

/-- An operation on an object: it is got with the operation, and its copy becomes `mo`. -/
def write (k : Key) (mo : MetaObj α) : Mount α :=
  let s := s.txopInit k
  match s.tx with
  | some tx => { s with tx := some { tx with topLocal := Function.update tx.topLocal k mo } }
  | none => s

def setAnode (t : MetaType) (an : Root) : Mount α := { s with anode := Function.update s.anode t an }

/-! ## Allocation -/

/-- `pfs_metaset_alloc`. -/
def metasetAlloc (t : MetaType) (mo : MetaObj α) : Bool := !mo.used && (t != .blktag || mo.bt.dstatus != .inp)

/-- `pfs_anode_alloc` on the root of a type. -/
def anodeAlloc (t : MetaType) : Option (Nat × Mount α) :=
  ((s.anode t).alloc (cfg.shape t) fun ci oid => metasetAlloc t (s.getMo (t, (cfg.shape t).mono ci oid))).map fun r =>
    (r.1, s.setAnode t r.2)

/-- `pfs_metaobj_alloc_common`. -/
def allocCommon (t : MetaType) : Option (Nat × Mount α) :=
  (s.anodeAlloc cfg t).map fun r => (r.1, r.2.write (t, r.1) { r.2.getMo (t, r.1) with used := true })

/-- What `pfs_bd_get` may return: the block at the root of the tree, or nothing if the tree is empty. Which
block is at the root is a matter of the tree's shape. -/
def bdGet (tree : Finset Nat) : Option Nat → Prop
  | some val => val ∈ tree
  | none => tree = ∅

instance (tree : Finset Nat) : ∀ top, Decidable (bdGet tree top)
  | some val => inferInstanceAs (Decidable (val ∈ tree))
  | none => inferInstanceAs (Decidable (tree = ∅))

/-- The first part of `pfs_metaobj_alloc_blktag`: a block that waits for its discard is reused, `top` is the
root of their tree. -/
def pickBlktag (top : Option Nat) : Option (Nat × Mount α) :=
  match top with
  | some val =>
    some (val, { s with ready := s.ready.erase val }.setAnode .blktag ((s.anode .blktag).useOne (cfg.shape .blktag) val))
  | none => s.anodeAlloc cfg .blktag

/-- `pfs_metaobj_alloc_blktag`. -/
def allocBlktag (top : Option Nat) : Option (Nat × Mount α) :=
  (s.pickBlktag cfg top).map fun r =>
    (r.1, r.2.write (.blktag, r.1)
      { r.2.getMo (.blktag, r.1) with used := true, bt := ⟨.none, 0, 0, cfg.holelen⟩ })

/-- `pfs_meta_alloc`: `mt_alloc` of the type. -/
def metaAlloc (t : MetaType) (top : Option Nat) : Option (Nat × Mount α) :=
  match t with
  | .blktag => s.allocBlktag cfg top
  | .direntry => s.allocCommon cfg .direntry
  | .inode => s.allocCommon cfg .inode

/-- `pfs_metaobj_free_common`. -/
def freeCommon (t : MetaType) (no : Nat) : Mount α :=
  (s.write (t, no) { s.getMo (t, no) with used := false }).setAnode t ((s.anode t).free (cfg.shape t) no)

/-- `pfs_metaobj_free_blktag`. -/
def freeBlktag (no : Nat) : Mount α :=
  let mo := s.getMo (.blktag, no)
  let s' := s.write (.blktag, no)
    { mo with used := false, bt := { mo.bt with dstatus := .ready, holeoff := 0, holelen := 0 } }
  { s' with ready := insert no s'.ready }.setAnode .blktag ((s.anode .blktag).free (cfg.shape .blktag) no)

/-- `pfs_meta_free`: `mt_free` of the type. -/
def metaFree (k : Key) : Mount α :=
  match k.1 with
  | .blktag => s.freeBlktag cfg k.2
  | .direntry => s.freeCommon cfg .direntry k.2
  | .inode => s.freeCommon cfg .inode k.2

/-- A change of a used object's content: its links and fields, the hole of a block. -/
def edit (k : Key) (data : α) (holeoff holelen : Nat) : Mount α :=
  let mo := s.getMo k
  s.write k { mo with data := data, bt := { mo.bt with holeoff := holeoff, holelen := holelen } }

/-! ## Commit, rollback and replay -/

/-- `pfs_meta_bd_change_index`. -/
def bdChangeIndex (no : Nat) (bt : Blktag) : Mount α :=
  match bt.dstatus with
  | .ready => { s with ready := insert no s.ready, inp := s.inp.erase no }
  | .inp => { s with inp := insert no s.inp, ready := s.ready.erase no }
  | .none => { s with ready := s.ready.erase no, inp := s.inp.erase no }

/-- `mt_undo` and `mt_redo` of the type, as far as the search trees go. -/
def reindex (k : Key) : Mount α :=
  match k.1 with
  | .blktag => s.bdChangeIndex k.2 (s.objs k).bt
  | .direntry => s
  | .inode => s

/-- `pfs_meta_undo` of a head operation. -/
def metaUndo (tx : Tx α) (s : Mount α) (k : Key) : Mount α :=
  let delta := (tx.topLocal k).used.toInt - (s.objs k).used.toInt
  let s' := s.reindex k
  s'.setAnode k.1 ((s'.anode k.1).settle (cfg.shape k.1) delta k.2)

/-- `pfs_tx_rollback`, and the end of the transaction. -/
def txRollback : Mount α :=
  match s.tx with
  | some tx => { tx.heads.reverse.foldl (metaUndo cfg tx) s with tx := none }
  | none => s

/-- `pfs_tx_apply` after the log write, and the end of the transaction. -/
def txCommit : Mount α := { s with objs := s.getMo, tx := none }

/-- `pfs_meta_redo` of a log entry. -/
def metaRedo (s : Mount α) (le : Key × MetaObj α) : Mount α :=
  let delta := (s.objs le.1).used.toInt - le.2.used.toInt
  let s' := { s with objs := Function.update s.objs le.1 le.2 }.reindex le.1
  s'.setAnode le.1.1 ((s'.anode le.1.1).settle (cfg.shape le.1.1) delta le.1.2)

/-- `pfs_tx_replay`. -/
def txReplay (les : List (Key × MetaObj α)) : Mount α := les.foldl (metaRedo cfg) s

/-! ## Discard marks -/

/-- The switch of `pfs_meta_bd_mark_inp`; `none` if the block is not marked. -/
def markInp (ready inp : Finset Nat) (no : Nat) (bt : Blktag) : Option Blktag :=
  match bt.dstatus with
  | .ready => if no ∈ ready then none else some { bt with dstatus := .inp, ndiscard := bt.ndiscard + 1 }
  | .inp => if no ∈ inp then none else some { bt with ndiscard := bt.ndiscard + 1 }
  | .none => none

/-- The switch of `pfs_meta_bd_mark_done`. -/
def markDone (_ready inp : Finset Nat) (no : Nat) (bt : Blktag) : Option Blktag :=
  match bt.dstatus with
  | .inp => if no ∈ inp then none else some { bt with dstatus := .none }
  | .ready => none
  | .none => none

/-- `pfs_meta_bd_mark_inp` and `pfs_meta_bd_mark_done`: the block gets an operation, marked or not. The second
component says whether it was marked. -/
def metaBdMark (mark : Finset Nat → Finset Nat → Nat → Blktag → Option Blktag) (s : Mount α) (no : Nat) : Mount α × Bool :=
  let s' := s.txopInit (.blktag, no)
  let mo := s'.getMo (.blktag, no)
  match mark s'.ready s'.inp no mo.bt with
  | some bt => (s'.write (.blktag, no) { mo with bt := bt }, true)
  | none => (s', false)

/-- The walk of `pfs_bd_mark_inp` and `pfs_bd_mark_done` over the selected blocks, with the blocks not marked,
`mnt_changed_bdroot`. -/
def bdMarkWalk (mark : Finset Nat → Finset Nat → Nat → Blktag → Option Blktag) : Mount α → List Nat → Mount α × List Nat
  | s, [] => (s, [])
  | s, no :: nos =>
    let (s', ok) := metaBdMark mark s no
    let (s'', changed) := bdMarkWalk mark s' nos
    (s'', if ok then changed else no :: changed)

/-- `twalk` over a tree of blocks, in ascending order. -/
def twalk (bdroot : Finset Nat) : List Nat := (List.range (cfg.bound .blktag)).filter (· ∈ bdroot)

/-- `pfs_bd_mark_inp` and `pfs_bd_mark_done`: the blocks that could not be marked leave the selection. -/
def bdMark (mark : Finset Nat → Finset Nat → Nat → Blktag → Option Blktag) (bdroot : Finset Nat) : Mount α × Finset Nat :=
  let (s', changed) := bdMarkWalk mark s (twalk cfg bdroot)
  (s', bdroot.filter (· ∉ changed))

/-! ## Mounting -/

/-- `pfs_metaset_bd_build_index` over all chunks, for one status. -/
def bdBuildIndex (objs : Key → MetaObj α) (status : BdStatus) : Finset Nat :=
  (Finset.range (cfg.bound .blktag)).filter fun no =>
    cfg.Valid (.blktag, no) ∧ (objs (.blktag, no)).used = false ∧ (objs (.blktag, no)).bt.dstatus = status

/-- A mount: the allocation nodes and the trees are built from the objects. -/
def mount (objs : Key → MetaObj α) : Mount α where
  objs := objs
  anode t := Root.init (cfg.shape t) cfg.nchunk fun no => !(objs (t, no)).used
  ready := bdBuildIndex cfg objs .ready
  inp := bdBuildIndex cfg objs .inp
  tx := none

end Mount

end PolarFs.Meta
