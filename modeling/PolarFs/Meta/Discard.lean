/-
The discard thread (`pfs_bd_thread_entry`) next to the transactions of file operations. A run of the thread
takes blocks out of the search trees into one of its own, marks them as in progress in a transaction, trims
them without holding the metadata lock, and marks them done in a second transaction. The node may crash and
mount again at any point, and replays the transactions other nodes committed.

`discard_force` is off, as the thread asserts.
-/
import PolarFs.Meta.MetaInvariant
import PolarFs.Lib.Transition

namespace PolarFs.Meta

open Transition Mount

instance (used : Bool) (bt : Blktag) : Decidable (bt.Ok used) :=
  decidable_of_iff ((used = true → bt.dstatus = .none ∧ bt.ndiscard = 0) ∧ (bt.dstatus = .ready → bt.ndiscard = 0) ∧
    (bt.dstatus = .inp → 0 < bt.ndiscard) ∧ (used = false → bt.holeoff = 0 ∧ bt.holelen = 0))
    ⟨fun h => ⟨h.1, h.2.1, h.2.2.1, h.2.2.2⟩, fun h => ⟨h.clean, h.ready, h.inp, h.hole⟩⟩

instance {α : Type*} (t : MetaType) (mo : MetaObj α) : Decidable (mo.Ok t) :=
  inferInstanceAs (Decidable (_ → _))

/-- Where the thread stands. -/
inductive BdPhase where
  | idle
  | selected
  | markingInp
  | executing
  | markingDone
  deriving DecidableEq, Repr

/-- The mount with its discard thread: the selected blocks and, for the statements, in `trimmed` those handed to
`pfsdev_trim` whose mark as done has not been committed since. -/
structure BdNode (α : Type*) extends Mount α where
  phase : BdPhase
  bdroot : Finset Nat
  done : Finset Nat
  trimmed : Finset Nat

/-- The steps of the node. `top` is the block at the root of the tree of ready blocks, `bs` are the blocks taken
from that tree; `ok` tells whether a transaction commits and whether a trim succeeds. -/
inductive BdEvent (α : Type*) where
  | txBegin
  | alloc (t : MetaType) (top : Option Nat)
  | free (k : Key)
  | edit (k : Key) (data : α) (holeoff holelen : Nat)
  | txEnd (ok : Bool)
  | replay (les : List (Key × MetaObj α))
  | select (bs : Finset Nat)
  | markInp
  | trim (no : Nat) (ok : Bool)
  | markDone
  | bdTxEnd (ok : Bool)
  | crash

namespace BdNode

variable {α : Type*} (cfg : Config) (s : BdNode α)

/-- Whose transaction is running. -/
def owner : Option Owner := s.tx.map Tx.owner

/-- The node after `pfs_bd_reset`. -/
def bdReset : BdNode α := { s with phase := .idle, bdroot := ∅, done := ∅ }

/-- When a step can happen: everything that changes metadata holds the metadata lock, and a file operation frees
or changes only objects in use. Another node's entries are well formed. -/
def Enabled : BdEvent α → Prop
  | .txBegin => s.tx.isNone
  | .alloc _ top => s.owner = some .file ∧ bdGet s.ready top
  | .free k => s.owner = some .file ∧ cfg.Valid k ∧ (s.getMo k).used = true
  | .edit k _ _ _ => s.owner = some .file ∧ cfg.Valid k ∧ (s.getMo k).used = true
  | .txEnd _ => s.owner = some .file
  | .replay les => s.tx.isNone ∧ ∀ le ∈ les, cfg.Valid le.1 ∧ le.2.Ok le.1.1
  | .select bs => s.tx.isNone ∧ s.phase = .idle ∧
      (s.inp = ∅ → bs ⊆ s.ready ∧ bs.card = min cfg.discardNinp s.ready.card)
  | .markInp => s.tx.isNone ∧ s.phase = .selected
  | .trim no _ => s.phase = .executing ∧ no ∈ s.bdroot ∧ no ∉ s.done
  | .markDone => s.tx.isNone ∧ s.phase = .executing ∧ s.done = s.bdroot
  | .bdTxEnd ok => (s.phase = .markingInp ∨ s.phase = .markingDone) ∧ (ok = true → s.bdroot ≠ ∅)
  | .crash => True

instance : ∀ e, Decidable (s.Enabled cfg e)
  | .txBegin => inferInstanceAs (Decidable (_ = true))
  | .txEnd _ => inferInstanceAs (Decidable (_ = _))
  | .alloc _ _ | .free _ | .edit _ _ _ _ | .replay _ | .select _ | .markInp | .trim _ _ | .markDone | .bdTxEnd _ =>
    inferInstanceAs (Decidable (_ ∧ _))
  | .crash => inferInstanceAs (Decidable True)

/-- `pfs_bd_select`: blocks in progress first, all of them; otherwise the ready blocks `bs`. -/
def select (bs : Finset Nat) : BdNode α :=
  if s.inp ≠ ∅ then { s with inp := ∅, phase := .selected, bdroot := s.inp }
  else if bs = ∅ then s
  else { s with ready := s.ready \ bs, phase := .selected, bdroot := bs }

/-- The transaction of `pfs_bd_mark_inp` or `pfs_bd_mark_done`, up to its end. -/
def bdMark (mark : Finset Nat → Finset Nat → Nat → Blktag → Option Blktag) (phase : BdPhase) : BdNode α :=
  let (m, bdroot) := (s.toMount.txBegin .discard).bdMark cfg mark s.bdroot
  { s with toMount := m, phase := phase, bdroot := bdroot }

/-- One call of `pfs_bd_execute_walkfn`: after an error the walk goes on without trimming, and its end gives the
selection up. -/
def trim (no : Nat) (ok : Bool) : BdNode α :=
  if ok then { s with done := insert no s.done, trimmed := insert no s.trimmed }
  else { s.bdReset with trimmed := insert no s.trimmed }

/-- The end of a transaction of the thread. A rollback gives the selection up. -/
def bdTxEnd (ok : Bool) : BdNode α :=
  if ok then
    if s.phase = .markingInp then { s with toMount := s.toMount.txCommit, phase := .executing, done := ∅ }
    else { s.bdReset with toMount := s.toMount.txCommit, trimmed := s.trimmed \ s.bdroot }
  else { s.bdReset with toMount := s.toMount.txRollback cfg }

def apply : BdEvent α → BdNode α
  | .txBegin => { s with toMount := s.toMount.txBegin .file }
  | .alloc t top => { s with toMount := ((s.metaAlloc cfg t top).map Prod.snd).getD s.toMount }
  | .free k => { s with toMount := s.metaFree cfg k }
  | .edit k data holeoff holelen => { s with toMount := s.toMount.edit k data holeoff holelen }
  | .txEnd ok => { s with toMount := if ok then s.txCommit else s.txRollback cfg }
  | .replay les => { s with toMount := s.txReplay cfg les }
  | .select bs => s.select bs
  | .markInp => s.bdMark cfg markInp .markingInp
  | .trim no ok => s.trim no ok
  | .markDone => s.bdMark cfg markDone .markingDone
  | .bdTxEnd ok => s.bdTxEnd cfg ok
  | .crash => { s.bdReset with toMount := mount cfg s.objs }

end BdNode

/-- A node that mounts any well-formed volume. -/
def bdSystem {α : Type*} (cfg : Config) : System (BdNode α) (BdEvent α) where
  init s := ∃ objs : Key → MetaObj α, (∀ k, (objs k).Ok k.1) ∧ s = ⟨mount cfg objs, .idle, ∅, ∅, ∅⟩
  step s e := if s.Enabled cfg e then some (s.apply cfg e) else none

theorem bdSystem_step {α : Type*} {cfg : Config} {s s' : BdNode α} {e : BdEvent α}
    (h : (bdSystem cfg).step s e = some s') : s.Enabled cfg e ∧ s.apply cfg e = s' := by
  rw [bdSystem, Option.ite_none_right_eq_some] at h
  exact ⟨h.1, Option.some.inj h.2⟩

namespace BdNode

variable {α : Type*} {cfg : Config} {s : BdNode α}

/-! ## The invariant -/

structure Ok (cfg : Config) (s : BdNode α) : Prop where
  mount : s.toMount.Ok cfg
  valid : ∀ no ∈ s.bdroot, cfg.Valid (.blktag, no)
  owner : s.owner = some .discard ↔ s.phase = .markingInp ∨ s.phase = .markingDone
  idle : s.phase = .idle → s.bdroot = ∅

theorem tx_of_owner {o : Owner} (h : s.owner = some o) : ∃ tx, s.tx = some tx ∧ tx.owner = o :=
  Option.map_eq_some_iff.1 h

theorem isSome_of_owner {o : Owner} (h : s.owner = some o) : s.tx.isSome := by
  obtain ⟨tx, htx, -⟩ := tx_of_owner h
  rw [htx]
  rfl

/-- What an allocation, a free or a change of content of a file operation does to a block: nothing that
concerns its discard, or it is allocated, or freed. -/
structure FileOp (cfg : Config) (m m' : Mount α) : Prop where
  ok : m'.Ok cfg
  objs : m'.objs = m.objs
  inp : m'.inp = m.inp
  owner : m'.tx.map Tx.owner = m.tx.map Tx.owner
  blk : ∀ no,
    ((m'.getMo (.blktag, no)).used = (m.getMo (.blktag, no)).used ∧
      (m'.getMo (.blktag, no)).bt.dstatus = (m.getMo (.blktag, no)).bt.dstatus ∧ (no ∈ m'.ready ↔ no ∈ m.ready)) ∨
    ((m.getMo (.blktag, no)).used = false ∧ (m.getMo (.blktag, no)).bt.dstatus ≠ .inp ∧
      (m'.getMo (.blktag, no)).used = true ∧ (m'.getMo (.blktag, no)).bt.dstatus = .none) ∨
    ((m.getMo (.blktag, no)).used = true ∧ (m'.getMo (.blktag, no)).used = false ∧
      (m'.getMo (.blktag, no)).bt.dstatus = .ready ∧ no ∈ m'.ready)

theorem FileOp.refl {m : Mount α} (h : m.Ok cfg) : FileOp cfg m m :=
  ⟨h, rfl, rfl, rfl, fun _ => Or.inl ⟨rfl, rfl, Iff.rfl⟩⟩

theorem edited_owner {m m' : Mount α} {k : Key} {mo : MetaObj α} (h : Mount.Edited m m' k mo) :
    m'.tx.map Tx.owner = m.tx.map Tx.owner := by
  obtain ⟨tx, htx⟩ := Option.isSome_iff_exists.1 h.open_
  obtain ⟨heads, tl, htx'⟩ := h.tx tx htx
  rw [htx, htx']
  rfl

theorem fileOp_alloc {m m' : Mount α} {t : MetaType} {no : Nat} (h : Mount.Allocated cfg m m' t no) : FileOp cfg m m' := by
  obtain ⟨mo, hed, hused, hst⟩ := h.edited
  refine ⟨h.ok, hed.objs, hed.inp, edited_owner hed, fun n => ?_⟩
  rw [hed.view]
  by_cases hk : (MetaType.blktag, n) = (t, no)
  · obtain ⟨rfl, rfl⟩ := Prod.mk.inj hk
    rw [Function.update_self]
    exact Or.inr (Or.inl ⟨h.unused, h.notInp rfl, hused, hst rfl⟩)
  · rw [Function.update_of_ne hk, h.ready]
    refine Or.inl ⟨rfl, rfl, ?_⟩
    by_cases ht : t = .blktag
    · subst ht
      have hne : n ≠ no := fun he => hk (by rw [he])
      rw [if_pos rfl, Finset.mem_erase, and_iff_right hne]
    · rw [if_neg ht]

theorem fileOp_free {m m' : Mount α} {k : Key} (h : Mount.Freed cfg m m' k) (hu : (m.getMo k).used = true) :
    FileOp cfg m m' := by
  obtain ⟨mo, hed, hused, hst⟩ := h.edited
  refine ⟨h.ok, hed.objs, hed.inp, edited_owner hed, fun n => ?_⟩
  rw [hed.view]
  by_cases hk : (MetaType.blktag, n) = k
  · subst hk
    rw [Function.update_self, h.ready, if_pos rfl]
    exact Or.inr (Or.inr ⟨hu, hused, hst rfl, Finset.mem_insert_self _ _⟩)
  · rw [Function.update_of_ne hk, h.ready]
    refine Or.inl ⟨rfl, rfl, ?_⟩
    by_cases ht : k.1 = .blktag
    · have hne : n ≠ k.2 := fun he => hk (by rw [he, ← ht])
      rw [if_pos ht, Finset.mem_insert, or_iff_right hne]
    · rw [if_neg ht]

theorem fileOp_edit {m : Mount α} (h : m.Ok cfg) (htx : m.tx.isSome) {k : Key} (hv : cfg.Valid k)
    (hu : (m.getMo k).used = true) (data : α) (holeoff holelen : Nat) :
    FileOp cfg m (m.edit k data holeoff holelen) := by
  have hview := getMo_write htx k
    { m.getMo k with data := data, bt := { (m.getMo k).bt with holeoff := holeoff, holelen := holelen } }
  obtain ⟨tx, heq⟩ := Option.isSome_iff_exists.1 htx
  refine ⟨h.edit htx hv hu data holeoff holelen, objs_write _ _, inp_write _ _, ?_, fun n => ?_⟩
  · rw [edit, write_eq heq, heq]
    rfl
  · have hready : (m.edit k data holeoff holelen).ready = m.ready := ready_write _ _
    rw [hready, edit, hview]
    by_cases hk : (MetaType.blktag, n) = k
    · subst hk
      rw [Function.update_self]
      exact Or.inl ⟨rfl, rfl, Iff.rfl⟩
    · rw [Function.update_of_ne hk]
      exact Or.inl ⟨rfl, rfl, Iff.rfl⟩

/-- The steps of a file operation within its transaction, in one statement. -/
theorem fileOp_apply (h : s.Ok cfg) {e : BdEvent α} (he : s.Enabled cfg e)
    (hfile : (∃ t top, e = .alloc t top) ∨ (∃ k, e = .free k) ∨ ∃ k data holeoff holelen, e = .edit k data holeoff holelen) :
    s.owner = some .file ∧ ∃ m, FileOp cfg s.toMount m ∧ s.apply cfg e = { s with toMount := m } := by
  rcases hfile with ⟨t, top, rfl⟩ | ⟨k, rfl⟩ | ⟨k, data, holeoff, holelen, rfl⟩
  · obtain ⟨hown, htop⟩ := he
    refine ⟨hown, _, ?_, rfl⟩
    cases ha : s.metaAlloc cfg t top with
    | none => exact FileOp.refl h.mount
    | some r => exact fileOp_alloc (h.mount.metaAlloc_some (isSome_of_owner hown) htop ha)
  · obtain ⟨hown, hv, hu⟩ := he
    exact ⟨hown, _, fileOp_free (h.mount.metaFree (isSome_of_owner hown) hv hu) hu, rfl⟩
  · obtain ⟨hown, hv, hu⟩ := he
    exact ⟨hown, _, fileOp_edit h.mount (isSome_of_owner hown) hv hu data holeoff holelen, rfl⟩

theorem not_marking (h : s.Ok cfg) (hown : s.owner ≠ some .discard) : ¬ (s.phase = .markingInp ∨ s.phase = .markingDone) :=
  fun hp => hown (h.owner.2 hp)

theorem idle_not_marking : ¬ (BdPhase.idle = .markingInp ∨ BdPhase.idle = .markingDone) := by decide

theorem owner_of_isNone (h : s.tx.isNone) : s.owner = none := by
  rw [owner, Option.isNone_iff_eq_none.1 h]
  rfl

/-- A mark transaction of the thread up to its end. -/
theorem Ok.bdMark (h : s.Ok cfg) {mark : Finset Nat → Finset Nat → Nat → Blktag → Option Blktag}
    (hm : Mount.MarkOk mark) (htx : s.tx.isNone) {phase : BdPhase} (hp : phase = .markingInp ∨ phase = .markingDone) :
    (s.bdMark cfg mark phase).Ok cfg := by
  have hbegin := h.mount.txBegin (Option.isNone_iff_eq_none.1 htx) .discard
  obtain ⟨hok, nos, changed, hmarked, -, hroot⟩ := hbegin.bdMark hm rfl h.valid
  obtain ⟨heads, tl, htx', -⟩ := hmarked.tx _ rfl
  refine ⟨hok, fun no hno => h.valid no ((hroot no).1 hno).1, ?_, fun hi => ?_⟩
  · have hown : (s.bdMark cfg mark phase).owner = some .discard := congrArg (Option.map Tx.owner) htx'
    exact iff_of_true hown hp
  · have hi : phase = .idle := hi
    rw [hi] at hp
    rcases hp with hp | hp <;> cases hp

theorem Ok.apply (h : s.Ok cfg) {e : BdEvent α} (he : s.Enabled cfg e) : (s.apply cfg e).Ok cfg := by
  have hfileOp : ∀ m, FileOp cfg s.toMount m → Ok cfg { s with toMount := m } := by
    intro m hm
    refine ⟨hm.ok, h.valid, ?_, h.idle⟩
    rw [← h.owner]
    exact iff_of_eq (congrArg (· = _) hm.owner)
  cases e with
  | txBegin =>
    have hphase := not_marking h (by rw [owner_of_isNone he]; nofun)
    exact ⟨h.mount.txBegin (Option.isNone_iff_eq_none.1 he) .file, h.valid, iff_of_false nofun hphase, h.idle⟩
  | alloc | free | edit =>
    obtain ⟨-, m, hm, heq⟩ := fileOp_apply h he (by simp)
    exact heq ▸ hfileOp m hm
  | txEnd ok =>
    have hphase := not_marking h (by rw [show s.owner = _ from he]; nofun)
    cases ok with
    | true => exact ⟨h.mount.txCommit, h.valid, iff_of_false nofun hphase, h.idle⟩
    | false =>
      obtain ⟨tx, htx, -⟩ := tx_of_owner he
      refine ⟨h.mount.txRollback, h.valid, iff_of_false (fun hown => ?_) hphase, h.idle⟩
      replace hown : (s.txRollback cfg).tx.map Tx.owner = some .discard := hown
      rw [txRollback_eq htx] at hown
      cases hown
  | replay les =>
    obtain ⟨htx, hles⟩ := he
    have hphase := not_marking h (by rw [owner_of_isNone htx]; nofun)
    obtain ⟨hok, hnone, -⟩ := Mount.Ok.txReplay_induction (P := fun _ => True) (fun _ _ _ _ _ _ _ => trivial) les h.mount
      (Option.isNone_iff_eq_none.1 htx) hles trivial
    refine ⟨hok, h.valid, iff_of_false (fun ho => ?_) hphase, h.idle⟩
    replace ho : (s.txReplay cfg les).tx.map Tx.owner = some .discard := ho
    rw [hnone] at ho
    cases ho
  | select bs =>
    obtain ⟨htx, hidle, hbs⟩ := he
    have hown := owner_of_isNone htx
    show (s.select bs).Ok cfg
    unfold select
    split
    · refine ⟨h.mount.shrink (Finset.Subset.refl _) (Finset.empty_subset _), fun no hno => (h.mount.inp no hno).1, ?_, nofun⟩
      exact iff_of_false (fun ho => by rw [show s.owner = _ from ho] at hown; cases hown) (by simp)
    rename_i hinp
    have hinp : s.inp = ∅ := not_not.1 hinp
    split
    · exact h
    · refine ⟨h.mount.shrink Finset.sdiff_subset (Finset.Subset.refl _),
        fun no hno => (h.mount.ready no ((hbs hinp).1 hno)).1, ?_, nofun⟩
      exact iff_of_false (fun ho => by rw [show s.owner = _ from ho] at hown; cases hown) (by simp)
  | markInp => exact h.bdMark markOk_inp he.1 (Or.inl rfl)
  | trim no ok =>
    obtain ⟨hphase, -, -⟩ := he
    have hnot : s.owner ≠ some .discard := fun ho => by
      rcases h.owner.1 ho with hp | hp <;> rw [hphase] at hp <;> cases hp
    cases ok with
    | true =>
      refine { h with idle := fun hi => ?_ }
      rw [show s.phase = _ from hi] at hphase
      cases hphase
    | false => exact ⟨h.mount, nofun, iff_of_false hnot idle_not_marking, fun _ => rfl⟩
  | markDone => exact h.bdMark markOk_done he.1 (Or.inr rfl)
  | bdTxEnd ok =>
    obtain ⟨hphase, -⟩ := he
    obtain ⟨tx, htx, -⟩ := tx_of_owner (h.owner.2 hphase)
    show (s.bdTxEnd cfg ok).Ok cfg
    unfold bdTxEnd
    cases ok with
    | true =>
      rw [if_pos rfl]
      split
      · exact ⟨h.mount.txCommit, h.valid, iff_of_false nofun (by simp), nofun⟩
      · exact ⟨h.mount.txCommit, nofun, iff_of_false nofun idle_not_marking, fun _ => rfl⟩
    | false =>
      rw [if_neg Bool.false_ne_true]
      refine ⟨h.mount.txRollback, nofun, iff_of_false (fun ho => ?_) idle_not_marking, fun _ => rfl⟩
      replace ho : (s.txRollback cfg).tx.map Tx.owner = some .discard := ho
      rw [txRollback_eq htx] at ho
      cases ho
  | crash => exact ⟨mount_ok h.mount.objs, nofun, iff_of_false nofun idle_not_marking, fun _ => rfl⟩

theorem ok_init (h : (bdSystem cfg).init s) : s.Ok cfg := by
  obtain ⟨objs, hobjs, rfl⟩ := h
  exact ⟨mount_ok hobjs, nofun, iff_of_false nofun idle_not_marking, fun _ => rfl⟩

theorem ok_reachable (h : (bdSystem cfg).Reachable s) : s.Ok cfg :=
  h.invariant (fun _ => ok_init) fun _ _ _ _ hok hs => by
    obtain ⟨he, rfl⟩ := bdSystem_step hs
    exact hok.apply he

end BdNode

end PolarFs.Meta
