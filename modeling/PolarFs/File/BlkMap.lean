/-
The top level of the block index (`pfs_inode.cc`) as the array it is: `in_blk_table_nhard` tables are
allocated, the first `in_blk_table_nsoft` of them in use. The array is reallocated whenever the number
in use changes, rounded up to 256 tables unless there is one or none; past the old end it holds
anything.

Over any sequence of additions, removals, truncations and reloads no access leaves the array, and the
index is a finite map from block ids to entries.
-/
import Mathlib.Data.List.GetD
import PolarFs.File.BlkTable

namespace PolarFs.File

open Function (update update_self update_of_ne update_eq_self update_idem)
open Table

/-- `in_blk_tables` with its two sizes. -/
structure TableArea where
  tables : List Table
  nsoft : Nat
  nhard : Nat

namespace TableArea

open BlkTables (maxBlkid lastVect)

/-- `pfs_inode_init_blktable`. -/
def init : TableArea := ⟨[], 0, 0⟩

/-- The size that `pfs_inode_realloc_blk_table` allocates, `INODE_BLK_TABLE_INC` being 256. -/
def hardCnt (expect : Nat) : Nat := if 1 < expect then (expect + 255) / 256 * 256 else expect

section Model

variable (fresh : Nat → Table) (fails : Nat → Bool) (t : TableArea)

/-- `pfs_mem_realloc`: past the old end lies whatever was in the memory before. -/
def memRealloc (tables : List Table) (n : Nat) : List Table :=
  tables.take n ++ (List.range' tables.length (n - tables.length)).map fresh

/-- `memset` of the `n` tables from `i` on to zero. -/
def clear (tables : List Table) (i n : Nat) : List Table :=
  tables.take i ++ List.replicate n zero ++ tables.drop (i + n)

/-- `pfs_inode_realloc_blk_table`. -/
def reallocBlkTable (expect : Nat) : TableArea :=
  if t.nhard = hardCnt expect then t
  else
    let tables := memRealloc fresh t.tables (hardCnt expect)
    { t with
      tables := if t.nhard < hardCnt expect then clear tables t.nhard (hardCnt expect - t.nhard) else tables
      nhard := hardCnt expect }

/-- An access to `in_blk_tables[i]`. -/
def tableAt (i : Nat) : Except FileErr Table :=
  match t.tables[i]? with
  | none => .error .undefined
  | some tbl => .ok tbl

/-- `pfs_inode_blk_table_get`. -/
def get (blkid : Nat) : Except FileErr (Option Nat) :=
  let idx := toInt32 (blkTableIdx blkid)
  if (t.nsoft : Int) ≤ idx then .ok none else if idx < 0 then .error .undefined else .ok (some idx.toNat)

/-- `pfs_inode_get_blk`. -/
def getBlk (blkid : Nat) : Except FileErr (Option Dblk) := do
  match ← t.get blkid with
  | none => pure none
  | some i => pure ((← t.tableAt i).vect.map fun v => v (blkVecIdx blkid))

/-- The entries that the search of `pfs_inode_tryremove_blk_table` goes through. -/
def entry (i : Nat) : Table := t.tables[i]?.getD zero

/-- `pfs_inode_tryremove_blk_table`. -/
def tryremove (i : Nat) : Except FileErr TableArea := do
  let tbl ← t.tableAt i
  if tbl.cnt = 0#4 then
    let t := { t with tables := t.tables.set i zero }
    if i + 1 = t.nsoft then
      let n := lastVect t.entry i
      pure (reallocBlkTable fresh { t with nsoft := n } n)
    else pure t
  else pure t

/-- `--dblk_cnt` and `pfs_dblk_fini` of an entry in use. -/
def dropEntry (tbl : Table) (v : Fin 16 → Dblk) (k : Fin 16) : Table :=
  if (v k).empty then tbl else ⟨some (update v k zerodblk), tbl.cnt - 1#4⟩

/-- `pfs_inode_remove_blk`. -/
def removeBlk (blkid : Nat) : Except FileErr TableArea := do
  match ← t.get blkid with
  | none => pure t
  | some i =>
    let tbl ← t.tableAt i
    match tbl.vect with
    | none => pure t
    | some v => tryremove fresh { t with tables := t.tables.set i (dropEntry tbl v (blkVecIdx blkid)) } i

/-- `pfs_inode_trycreate_blkvec`: storing the pointer clears the count in its low bits. -/
def trycreateBlkvec (tbl : Table) : Table := if tbl.vect.isSome then tbl else ⟨some fun _ => zerodblk, 0#4⟩

/-- `++dblk_cnt` for an entry not in use yet, and `pfs_dblk_init`. -/
def setEntry (tbl : Table) (k : Fin 16) (d : Dblk) : Table :=
  let v := tbl.vect.getD fun _ => zerodblk
  ⟨some (update v k d), if (v k).empty then tbl.cnt + 1#4 else tbl.cnt⟩

/-- The reallocation in `pfs_inode_tryadd_blk_table`. -/
def tryaddBlkTable (i : Nat) : TableArea :=
  if t.nsoft ≤ i then reallocBlkTable fresh { t with nsoft := i + 1 } (i + 1) else t

/-- `pfs_inode_add_blk` with `pfs_dblk_init` of the entry. -/
def addBlk (blkid : Nat) (d : Dblk) : Except FileErr TableArea := do
  let i := blkTableIdx blkid
  let t := tryaddBlkTable fresh t i
  let tbl ← t.tableAt i
  pure { t with tables := t.tables.set i (setEntry (trycreateBlkvec tbl) (blkVecIdx blkid) d) }

/-- One round of `pfs_inode_del_from`; `pfs_inode_del` may fail before it removes the entry. -/
def delOne (blkid : Nat) (t : TableArea) : Except FileErr (TableArea × Bool) := do
  match ← t.getBlk blkid with
  | none => pure (t, false)
  | some d =>
    if d.empty then pure (t, false)
    else if fails blkid then pure (t, true)
    else pure (← t.removeBlk fresh blkid, false)

/-- The inner loop of `pfs_inode_del_from`: `n` block ids from `blkid` on. -/
def delVec : Nat → Nat → TableArea → Except FileErr (TableArea × Bool)
  | 0, _, t => pure (t, false)
  | n + 1, blkid, t => do
    let (t, err) ← delOne fresh fails blkid t
    if err then pure (t, true) else delVec n (blkid + 1) t

/-- The outer loop, over at most `n` tables. -/
def delTables : Nat → Nat → Nat → TableArea → Except FileErr (TableArea × Bool)
  | 0, _, _, t => pure (t, false)
  | n + 1, tableIdx, blkid, t =>
    if tableIdx < t.nsoft then do
      let (t, err) ← delVec fresh fails (16 - blkid % 16) blkid t
      if err then pure (t, true) else delTables n (tableIdx + 1) (blkid + (16 - blkid % 16)) t
    else pure (t, false)

/-- `pfs_inode_del_from`. -/
def delFrom (blkid : Nat) : Except FileErr (TableArea × Bool) :=
  delTables fresh fails t.nsoft (blkTableIdx blkid) blkid t

/-- `pfs_inode_create_blktable` on an index without tables. -/
def createBlktable (blkcnt : Nat) : TableArea :=
  let t := if 0 < blkcnt / 16 then reallocBlkTable fresh init (blkcnt / 16) else init
  { t with nsoft := 0 }

end Model

/-! ## The array -/

/-- The array read as the tables it holds, with zeros past its end. -/
def soft (t : TableArea) : BlkTables := ⟨t.entry, t.nsoft⟩

structure Inv (t : TableArea) : Prop where
  index : t.soft.Inv
  area : t.tables.length = t.nhard
  fits : t.nsoft ≤ t.nhard
  hard : t.nsoft = 0 ∨ t.nhard = hardCnt t.nsoft

theorem le_hardCnt (n : Nat) : n ≤ hardCnt n := by
  unfold hardCnt
  split <;> omega

variable (fresh : Nat → Table) {fails : Nat → Bool} {t : TableArea} {i b hi : Nat}

theorem entry_of_lt (hi : i < t.tables.length) : t.tableAt i = .ok (t.entry i) := by
  simp [tableAt, entry, hi]

theorem entry_set (hi : i < t.tables.length) (tbl : Table) (n m : Nat) :
    (TableArea.mk (t.tables.set i tbl) n m).entry = update t.entry i tbl := by
  funext j
  by_cases hj : j = i
  · subst hj
    simp [entry, hi]
  · rw [update_of_ne hj, entry, entry, List.getElem?_set_ne (fun h => hj h.symm)]

/-- A table past `nsoft` is zero, as it has no vector and so no count. -/
theorem entry_beyond {b : BlkTables} (h : b.Inv) (hi : b.nsoft ≤ i) : b.tables i = zero := by
  have hok := h.ok i
  have hv := h.beyond i hi
  rw [Table.Ok, hv] at hok
  cases htbl : b.tables i with
  | mk vect cnt =>
    rw [htbl] at hv hok
    rw [show vect = none from hv, show cnt = 0#4 from hok]
    rfl

/-- A reallocation that drops only zero tables leaves every table as it is: what it adds is cleared. -/
theorem reallocBlkTable_spec (expect : Nat) (harea : t.tables.length = t.nhard)
    (hzero : ∀ i, hardCnt expect ≤ i → t.entry i = zero) :
    let t' := reallocBlkTable fresh t expect
    t'.entry = t.entry ∧ t'.tables.length = t'.nhard ∧ t'.nhard = hardCnt expect ∧ t'.nsoft = t.nsoft := by
  intro t'
  by_cases heq : t.nhard = hardCnt expect
  · have ht' : t' = t := if_pos heq
    rw [ht']
    exact ⟨rfl, harea, heq, rfl⟩
  · have ht' : t' = _ := if_neg heq
    by_cases hlt : t.nhard < hardCnt expect
    · -- the array grows
      have htake : t.tables.take (hardCnt expect) = t.tables := List.take_of_length_le (by omega)
      have htables : t'.tables = t.tables ++ List.replicate (hardCnt expect - t.nhard) zero := by
        rw [ht']
        simp only [hlt, if_true, clear, memRealloc, htake]
        rw [← harea, List.take_left, List.drop_of_length_le (by simp), List.append_nil]
      refine ⟨?_, ?_, by rw [ht'], by rw [ht']⟩
      · funext i
        rw [entry, entry, htables]
        rcases Nat.lt_or_ge i t.tables.length with hi | hi
        · rw [List.getElem?_append_left hi]
        · rw [List.getElem?_append_right hi, List.getElem?_eq_none hi, List.getElem?_replicate]
          split <;> rfl
      · rw [htables, ht', List.length_append, List.length_replicate]
        show _ = hardCnt expect
        omega
    · -- it shrinks, and the tables cut off are zero
      have htables : t'.tables = t.tables.take (hardCnt expect) := by
        rw [ht']
        simp only [hlt, if_false, memRealloc]
        rw [show hardCnt expect - t.tables.length = 0 by omega]
        simp
      refine ⟨?_, ?_, by rw [ht'], by rw [ht']⟩
      · funext i
        rcases Nat.lt_or_ge i (hardCnt expect) with hi | hi
        · rw [entry, entry, htables, List.getElem?_take_of_lt hi]
        · rw [hzero i hi, entry, htables, List.getElem?_eq_none (by rw [List.length_take]; omega)]
          rfl
      · rw [htables, ht', List.length_take]
        show _ = hardCnt expect
        omega

theorem Inv.realloc (h : t.soft.Inv) (harea : t.tables.length = t.nhard) :
    (reallocBlkTable fresh t t.nsoft).Inv ∧ (reallocBlkTable fresh t t.nsoft).soft = t.soft := by
  obtain ⟨hentry, hlen, hhard, hns⟩ := reallocBlkTable_spec fresh t.nsoft harea
    fun i hi => entry_beyond h (le_trans (le_hardCnt _) hi)
  have hsoft : (reallocBlkTable fresh t t.nsoft).soft = t.soft := by
    rw [soft, hentry, hns]
    rfl
  refine ⟨⟨by rw [hsoft]; exact h, hlen, ?_, Or.inr (by rw [hhard, hns])⟩, hsoft⟩
  rw [hhard, hns]
  exact le_hardCnt _

theorem soft_init : init.soft = BlkTables.init := by
  rw [soft, BlkTables.init]
  congr 1

theorem blkTables_inv_init : BlkTables.init.Inv :=
  ⟨fun _ => rfl, fun _ _ => rfl, nofun, nofun, fun _ _ => rfl⟩

theorem Inv.createBlktable (blkcnt : Nat) :
    (createBlktable fresh blkcnt).Inv ∧ (createBlktable fresh blkcnt).soft = BlkTables.init := by
  have hsoft : ∀ t : TableArea, t.entry = init.entry → t.tables.length = t.nhard →
      TableArea.Inv { t with nsoft := 0 } ∧ TableArea.soft { t with nsoft := 0 } = BlkTables.init := by
    intro t hentry harea
    have : TableArea.soft { t with nsoft := 0 } = BlkTables.init := by
      rw [← soft_init, soft, soft, ← hentry]
      rfl
    exact ⟨⟨by rw [this]; exact blkTables_inv_init, harea, Nat.zero_le _, Or.inl rfl⟩, this⟩
  unfold TableArea.createBlktable
  split
  · obtain ⟨hentry, hlen, -⟩ := reallocBlkTable_spec (t := init) fresh (blkcnt / 16) rfl
      fun _ _ => rfl
    exact hsoft _ hentry hlen
  · exact hsoft _ rfl rfl

theorem get_eq (hb : b < maxBlkid) : t.get b = .ok (if t.nsoft ≤ blkTableIdx b then none else some (blkTableIdx b)) :=
  BlkTables.get_eq (t := t.soft) hb

namespace Inv

variable (h : t.Inv)
include h

theorem tableAt_eq (hi : ¬ t.nsoft ≤ i) : t.tableAt i = .ok (t.entry i) :=
  entry_of_lt (by have := h.fits; rw [h.area]; omega)

theorem getBlk_eq (hb : b < maxBlkid) : t.getBlk b = t.soft.getBlk b := by
  rw [TableArea.getBlk, get_eq hb, BlkTables.getBlk, BlkTables.get_eq hb]
  by_cases hn : t.nsoft ≤ blkTableIdx b
  · rw [if_pos hn, if_pos (show t.soft.nsoft ≤ _ from hn)]
    rfl
  · rw [if_neg hn, if_neg (show ¬ t.soft.nsoft ≤ _ from hn)]
    show (do pure (Option.map _ (← t.tableAt (blkTableIdx b)).vect) : Except FileErr _) = _
    rw [h.tableAt_eq hn]
    rfl

theorem tryaddBlkTable (i : Nat) :
    let t' := tryaddBlkTable fresh t i
    t'.entry = t.entry ∧ t'.tables.length = t'.nhard ∧ i < t'.nhard ∧
      t'.nsoft = (if t.nsoft ≤ i then i + 1 else t.nsoft) ∧ t'.nsoft ≤ t'.nhard ∧ t'.nhard = hardCnt t'.nsoft := by
  intro t'
  by_cases hn : t.nsoft ≤ i
  · have ht' : t' = reallocBlkTable fresh { t with nsoft := i + 1 } (i + 1) := if_pos hn
    have hle := le_hardCnt (i + 1)
    obtain ⟨hentry, hlen, hhard, hns⟩ := reallocBlkTable_spec (t := { t with nsoft := i + 1 }) fresh
      (i + 1) h.area fun j hj => entry_beyond h.index (show t.nsoft ≤ j by omega)
    rw [ht', if_pos hn, hns]
    exact ⟨hentry, hlen, by rw [hhard]; exact hle, rfl, by rw [hhard]; exact hle, hhard⟩
  · have ht' : t' = t := if_neg hn
    have hfits := h.fits
    rw [ht', if_neg hn]
    exact ⟨rfl, h.area, by omega, rfl, hfits, h.hard.resolve_left (by omega)⟩

theorem setEntry_eq (i : Nat) (k : Fin 16) (d : Dblk) :
    setEntry (trycreateBlkvec (t.entry i)) k d = setEntry (t.entry i) k d := by
  cases hv : (t.entry i).vect with
  | some v => rw [trycreateBlkvec, if_pos (by rw [hv]; rfl)]
  | none =>
    have hok := h.index.ok i
    rw [Table.Ok, show (t.soft.tables i).vect = none from hv] at hok
    rw [trycreateBlkvec, if_neg (by simp [hv]), setEntry, setEntry, hv]
    rw [show (t.entry i).cnt = 0#4 from hok]
    rfl

theorem addBlk {d : Dblk} (hb : b < maxBlkid) (hd : d.empty = false) :
    ∃ t', t.addBlk fresh b d = .ok t' ∧ t'.Inv ∧ t'.soft = t.soft.addBlk b d := by
  obtain ⟨hentry, hlen, hlt, hns, hfits, hhard⟩ := h.tryaddBlkTable fresh (blkTableIdx b)
  have hstep : t.addBlk fresh b d = .ok { TableArea.tryaddBlkTable fresh t (blkTableIdx b) with
      tables := (TableArea.tryaddBlkTable fresh t (blkTableIdx b)).tables.set (blkTableIdx b)
        (setEntry (trycreateBlkvec (t.entry (blkTableIdx b))) (blkVecIdx b) d) } := by
    show (do let tbl ← TableArea.tableAt _ _; pure _ : Except FileErr TableArea) = _
    rw [entry_of_lt (by rw [hlen]; exact hlt), hentry]
    rfl
  refine ⟨_, hstep, ?_⟩
  rw [h.setEntry_eq]
  generalize TableArea.tryaddBlkTable fresh t (blkTableIdx b) = u at *
  have hsoft : TableArea.soft ⟨u.tables.set (blkTableIdx b) (setEntry (t.entry (blkTableIdx b)) (blkVecIdx b) d),
      u.nsoft, u.nhard⟩ = t.soft.addBlk b d := by
    rw [soft, entry_set (by rw [hlen]; exact hlt), hentry]
    show BlkTables.mk _ u.nsoft = _
    rw [hns]
    rfl
  refine ⟨⟨?_, ?_, hfits, Or.inr hhard⟩, hsoft⟩
  · rw [hsoft]
    exact (h.index.addBlk hb hd).1
  · show (u.tables.set _ _).length = u.nhard
    rw [List.length_set, hlen]

end Inv

/-- `pfs_inode_tryremove_blk_table` after a change to a table in use. -/
theorem tryremove_eq (tbl : Table) (h : t.Inv) (hi : ¬ t.nsoft ≤ i)
    (hinv : (BlkTables.tryremove { t.soft with tables := update t.entry i tbl } i).Inv) :
    ∃ t', tryremove fresh { t with tables := t.tables.set i tbl } i = .ok t' ∧ t'.Inv ∧
      t'.soft = BlkTables.tryremove { t.soft with tables := update t.entry i tbl } i := by
  have hlt : i < t.tables.length := by have := h.fits; rw [h.area]; omega
  have hlt' : i < (t.tables.set i tbl).length := by rw [List.length_set]; exact hlt
  have hentry : ∀ n m, (TableArea.mk (t.tables.set i tbl) n m).entry = update t.entry i tbl :=
    entry_set hlt tbl
  have hzero : ∀ n m, (TableArea.mk ((t.tables.set i tbl).set i zero) n m).entry =
      update t.entry i zero := by
    intro n m
    rw [List.set_set, entry_set hlt]
  rw [BlkTables.tryremove] at hinv ⊢
  have hat : TableArea.tableAt { t with tables := t.tables.set i tbl } i = .ok tbl := by
    rw [entry_of_lt hlt', hentry, update_self]
  have hcnt : (update t.entry i tbl i).cnt = tbl.cnt := by rw [update_self]
  simp only [hcnt, update_idem] at hinv ⊢
  by_cases hc : tbl.cnt = 0#4
  · rw [if_pos hc] at hinv ⊢
    by_cases hlast : i + 1 = t.nsoft
    · -- the last table goes, and with it those without a vector below it
      rw [if_pos (show i + 1 = t.soft.nsoft from hlast)] at hinv ⊢
      let u : TableArea := ⟨(t.tables.set i tbl).set i zero,
        lastVect (update t.entry i zero) i, t.nhard⟩
      have husoft : u.soft = ⟨update t.entry i zero,
          lastVect (update t.entry i zero) i⟩ := by
        rw [soft, hzero]
      have hre := Inv.realloc fresh (t := u) (by rw [husoft]; exact hinv)
        (by show List.length _ = t.nhard; rw [List.length_set, List.length_set, h.area])
      refine ⟨reallocBlkTable fresh u u.nsoft, ?_, hre.1, hre.2.trans husoft⟩
      rw [tryremove, hat]
      show (if tbl.cnt = 0#4 then _ else _) = _
      rw [if_pos hc]
      show (if i + 1 = t.nsoft then _ else _) = _
      rw [if_pos hlast]
      simp only [hzero]
      rfl
    · rw [if_neg (show ¬ i + 1 = t.soft.nsoft from hlast)] at hinv ⊢
      have hsoft : TableArea.soft { t with tables := (t.tables.set i tbl).set i zero } =
          ⟨update t.entry i zero, t.soft.nsoft⟩ := by
        rw [soft, hzero]
        rfl
      refine ⟨{ t with tables := (t.tables.set i tbl).set i zero }, ?_,
        ⟨by rw [hsoft]; exact hinv, ?_, h.fits, h.hard⟩, hsoft⟩
      · rw [tryremove, hat]
        show (if tbl.cnt = 0#4 then _ else _) = _
        rw [if_pos hc]
        exact if_neg hlast
      · show List.length _ = t.nhard
        rw [List.length_set, List.length_set, h.area]
  · rw [if_neg hc] at hinv ⊢
    have hsoft : TableArea.soft { t with tables := t.tables.set i tbl } =
        ⟨update t.entry i tbl, t.soft.nsoft⟩ := by
      rw [soft, hentry]
      rfl
    refine ⟨{ t with tables := t.tables.set i tbl }, ?_, ⟨by rw [hsoft]; exact hinv, ?_, h.fits, h.hard⟩, hsoft⟩
    · rw [tryremove, hat]
      exact if_neg hc
    · show List.length _ = t.nhard
      rw [List.length_set, h.area]

/-- A table with an entry not in use has a count other than zero, and is kept. -/
theorem removeBlk_unused {b : BlkTables} (h : b.Inv) {blkid : Nat} (hb : blkid < maxBlkid)
    (hempty : (b.dblk blkid).empty = true) : b.removeBlk blkid = .ok b := by
  rw [BlkTables.removeBlk, BlkTables.get_eq hb]
  by_cases hn : b.nsoft ≤ blkTableIdx blkid
  · rw [if_pos hn]
  rw [if_neg hn]
  cases hv : (b.tables (blkTableIdx blkid)).vect with
  | none => simp only [hv]
  | some v =>
    have hk : (v (blkVecIdx blkid)).empty = true := by rw [← BlkTables.dblk_of_vect hv]; exact hempty
    obtain ⟨hpos, hcnt⟩ := (h.ok _).some hv
    have hlt : used v < 16 := by
      have := used_update_add hk (d := ⟨1, 0, 0⟩) rfl
      have := used_le (update v (blkVecIdx blkid) ⟨1, 0, 0⟩)
      omega
    have hne : (b.tables (blkTableIdx blkid)).cnt ≠ 0#4 := by
      rw [hcnt]
      intro heq
      have := congrArg BitVec.toNat heq
      rw [BitVec.toNat_ofNat, BitVec.toNat_ofNat] at this
      omega
    simp only [hv, hk, if_true, update_eq_self, BlkTables.tryremove, if_neg hne]

/-- `pfs_inode_remove_blk`, whether the id is in use or not. -/
theorem removeBlk_blkTables {b : BlkTables} (h : b.Inv) {blkid : Nat} (hb : blkid < maxBlkid) :
    ∃ b', b.removeBlk blkid = .ok b' ∧ b'.Inv ∧ b'.dblk = update b.dblk blkid zerodblk ∧
      b'.nsoft ≤ b.nsoft := by
  cases hused : (b.dblk blkid).empty with
  | false => exact h.removeBlk hused
  | true =>
    refine ⟨b, removeBlk_unused h hb hused, h, ?_, le_refl _⟩
    rw [← h.clean blkid hused, update_eq_self]

theorem Inv.removeBlk (h : t.Inv) (hb : b < maxBlkid) :
    ∃ t', t.removeBlk fresh b = .ok t' ∧ t'.Inv ∧ t'.soft.dblk = update t.soft.dblk b zerodblk ∧
      t'.nsoft ≤ t.nsoft := by
  obtain ⟨b', hstep, hinv, hdblk, hns⟩ := removeBlk_blkTables h.index hb
  rw [BlkTables.removeBlk, BlkTables.get_eq hb] at hstep
  rw [TableArea.removeBlk, get_eq hb]
  by_cases hn : t.nsoft ≤ blkTableIdx b
  · rw [if_pos (show t.soft.nsoft ≤ _ from hn)] at hstep
    rw [if_pos hn]
    cases hstep
    exact ⟨t, rfl, h, hdblk, le_refl _⟩
  · rw [if_neg (show ¬ t.soft.nsoft ≤ _ from hn)] at hstep
    rw [if_neg hn]
    simp only [bind, Except.bind]
    rw [h.tableAt_eq hn]
    have hentry : t.soft.tables (blkTableIdx b) = t.entry (blkTableIdx b) := rfl
    simp only [hentry] at hstep ⊢
    cases hv : (t.entry (blkTableIdx b)).vect with
    | none =>
      simp only [hv] at hstep ⊢
      cases hstep
      exact ⟨t, rfl, h, hdblk, le_refl _⟩
    | some v =>
      simp only [hv] at hstep ⊢
      have hb' := Except.ok.inj hstep
      obtain ⟨t', ht', hinv', hsoft⟩ := tryremove_eq fresh (dropEntry (t.entry (blkTableIdx b)) v
        (blkVecIdx b)) h hn (by rw [dropEntry]; exact hb' ▸ hinv)
      have hsb : t'.soft = b' := by rw [hsoft, ← hb']; rfl
      refine ⟨t', ht', hinv', by rw [hsb]; exact hdblk, ?_⟩
      show t'.soft.nsoft ≤ _
      rw [hsb]
      exact hns

/-! ## The map -/

/-- The entry of a block id that has one. -/
def map (t : TableArea) (b : Nat) : Option Dblk :=
  if (t.soft.dblk b).empty then none else some (t.soft.dblk b)

theorem map_of_update {t' : TableArea} {d : Dblk} (h : t'.soft.dblk = update t.soft.dblk b d) :
    t'.map = update t.map b (if d.empty then none else some d) := by
  funext c
  rw [map, h]
  by_cases hc : c = b
  · rw [hc, update_self, update_self]
  · rw [update_of_ne hc, update_of_ne hc, map]

theorem map_eq_none_iff : t.map b = none ↔ (t.soft.dblk b).empty = true := by
  rw [map]
  split <;> simp_all

theorem Inv.map_beyond (h : t.Inv) (hb : t.nsoft ≤ blkTableIdx b) : t.map b = none := by
  rw [map_eq_none_iff, BlkTables.dblk_of_none (h.index.beyond _ hb)]
  rfl

/-- What a truncation did: the ids from `lo` to `hi` are gone, and none of those in use refused. -/
structure Erased (fails : Nat → Bool) (m m' : Nat → Option Dblk) (lo hi : Nat) : Prop where
  le : lo ≤ hi
  map : m' = fun b => if lo ≤ b ∧ b < hi then none else m b
  goes : ∀ b, lo ≤ b → b < hi → (m b).isSome → fails b = false

theorem Erased.refl (m : Nat → Option Dblk) (lo : Nat) : Erased fails m m lo lo :=
  ⟨le_refl lo, funext fun b => (if_neg (by omega)).symm, fun b h1 h2 => by omega⟩

theorem Erased.trans {m₁ m₂ m₃ : Nat → Option Dblk} {lo mid : Nat} (h₁ : Erased fails m₁ m₂ lo mid)
    (h₂ : Erased fails m₂ m₃ mid hi) : Erased fails m₁ m₃ lo hi := by
  have hlm := h₁.le
  have hmh := h₂.le
  refine ⟨le_trans hlm hmh, ?_, ?_⟩
  · rw [h₂.map, h₁.map]
    funext b
    dsimp only
    by_cases hb : mid ≤ b ∧ b < hi
    · rw [if_pos hb, if_pos (by omega)]
    · rw [if_neg hb]
      by_cases hb' : lo ≤ b ∧ b < mid
      · rw [if_pos hb', if_pos (by omega)]
      · rw [if_neg hb', if_neg (by omega)]
  · intro b hlo hhi hs
    rcases Nat.lt_or_ge b mid with hb | hb
    · exact h₁.goes b hlo hb hs
    · refine h₂.goes b hb hhi ?_
      rw [h₁.map]
      simpa [show ¬ b < mid by omega] using hs

/-- The loops of `pfs_inode_del_from` went through the ids from `lo` on: to `hi`, or with an error to
an id in use that refused. -/
def DelRun (fails : Nat → Bool) (t : TableArea) (r : TableArea × Bool) (lo hi : Nat) : Prop :=
  r.1.Inv ∧ r.1.nsoft ≤ t.nsoft ∧
    ((r.2 = false ∧ Erased fails t.map r.1.map lo hi) ∨
      (r.2 = true ∧ ∃ stop, stop < hi ∧ Erased fails t.map r.1.map lo stop ∧ (t.map stop).isSome ∧ fails stop = true))

theorem DelRun.trans {u : TableArea} {r : TableArea × Bool} {lo mid : Nat} (h₁ : DelRun fails t (u, false) lo mid)
    (h₂ : DelRun fails u r mid hi) : DelRun fails t r lo hi := by
  obtain ⟨-, hns, ⟨-, he⟩ | ⟨hf, -⟩⟩ := h₁
  case inr => cases hf
  obtain ⟨hinv, hns', h₂⟩ := h₂
  refine ⟨hinv, le_trans hns' hns, ?_⟩
  rcases h₂ with ⟨hr, he'⟩ | ⟨hr, stop, hlt, he', hs, hf⟩
  · exact Or.inl ⟨hr, he.trans he'⟩
  · refine Or.inr ⟨hr, stop, hlt, he.trans he', ?_, hf⟩
    have hle := he'.le
    rw [he.map] at hs
    simpa [show ¬ stop < mid by omega] using hs

theorem DelRun.err {u : TableArea} {lo mid : Nat} (h : DelRun fails t (u, true) lo mid) (hle : mid ≤ hi) :
    DelRun fails t (u, true) lo hi := by
  obtain ⟨hinv, hns, ⟨hf, -⟩ | ⟨hr, stop, hlt, he⟩⟩ := h
  case inl => cases hf
  exact ⟨hinv, hns, Or.inr ⟨hr, stop, by omega, he⟩⟩

variable (fails) in
theorem Inv.delOne (h : t.Inv) (hb : b < maxBlkid) :
    ∃ r, delOne fresh fails b t = .ok r ∧ DelRun fails t r b (b + 1) := by
  obtain ⟨d?, hget, hd⟩ := h.index.getBlk_eq hb
  -- an id without an entry in use is passed over
  have hskip : (t.soft.dblk b).empty = true → DelRun fails t (t, false) b (b + 1) := by
    intro hempty
    have hnone := map_eq_none_iff.mpr hempty
    refine ⟨h, le_refl _, Or.inl ⟨rfl, by omega, funext fun c => ?_, fun c h1 h2 hs => ?_⟩⟩
    · split
      · rw [show c = b by omega, hnone]
      · rfl
    · rw [show c = b by omega, hnone] at hs
      cases hs
  rw [TableArea.delOne, h.getBlk_eq hb, hget]
  simp only [bind, Except.bind]
  cases d? with
  | none => exact ⟨_, rfl, hskip (by rw [← hd]; rfl)⟩
  | some d =>
    have hd' : d = t.soft.dblk b := hd
    cases hempty : d.empty with
    | true =>
      refine ⟨_, ?_, hskip (by rw [← hd']; exact hempty)⟩
      simp only [hempty, if_true]
      rfl
    | false =>
      have hsome : t.map b = some d := by
        rw [map, ← hd', hempty]
        rfl
      cases hf : fails b with
      | true =>
        refine ⟨(t, true), ?_, h, le_refl _, Or.inr ⟨rfl, b, by omega, Erased.refl _ _, by rw [hsome]; rfl, hf⟩⟩
        simp only [hempty, Bool.false_eq_true, if_false, if_true]
        rfl
      | false =>
        obtain ⟨t', ht', hinv, hdblk, hns⟩ := h.removeBlk fresh hb
        refine ⟨(t', false), ?_, hinv, hns, Or.inl ⟨rfl, by omega, ?_, fun c h1 h2 _ => ?_⟩⟩
        · simp only [hempty, Bool.false_eq_true, if_false, ht']
          rfl
        · rw [map_of_update hdblk]
          funext c
          by_cases hc : c = b
          · rw [hc, update_self, zerodblk_empty, if_pos rfl, if_pos ⟨le_refl b, Nat.lt_succ_self b⟩]
          · rw [update_of_ne hc, if_neg (fun h => hc (Nat.eq_of_le_of_lt_succ h.1 h.2))]
        · rw [show c = b by omega]
          exact hf

variable (fails) in
theorem delVec_run : ∀ {n b : Nat} {t : TableArea}, t.Inv → b + n ≤ maxBlkid →
    ∃ r, delVec fresh fails n b t = .ok r ∧ DelRun fails t r b (b + n)
  | 0, b, t, h, _ => ⟨_, rfl, h, le_refl _, Or.inl ⟨rfl, Erased.refl _ _⟩⟩
  | n + 1, b, t, h, hmax => by
    obtain ⟨⟨u, err⟩, hstep, hrun⟩ := h.delOne fresh fails (b := b) (by omega)
    rw [delVec, hstep]
    simp only [bind, Except.bind]
    cases err with
    | true => exact ⟨_, rfl, hrun.err (by omega)⟩
    | false =>
      obtain ⟨r, hr, hrun'⟩ := delVec_run (n := n) (b := b + 1) hrun.1 (by omega)
      refine ⟨r, hr, ?_⟩
      have := hrun.trans hrun'
      rwa [show b + 1 + n = b + (n + 1) by omega] at this

variable (fails) in
/-- Where the outer loop stops there are no tables, and so no ids past its bound. -/
theorem delTables_run : ∀ {n b : Nat} {t : TableArea}, t.Inv → t.nsoft ≤ blkTableIdx b + n →
    ∃ r, delTables fresh fails n (blkTableIdx b) b t = .ok r ∧
      ∃ hi, DelRun fails t r b hi ∧ (r.2 = false → r.1.nsoft ≤ blkTableIdx hi)
  | 0, b, t, h, hn =>
    ⟨_, rfl, b, ⟨h, le_refl _, Or.inl ⟨rfl, Erased.refl _ _⟩⟩, fun _ => hn⟩
  | n + 1, b, t, h, hn => by
    rw [delTables]
    by_cases hlt : blkTableIdx b < t.nsoft
    · have hmax : b + (16 - b % 16) ≤ maxBlkid := by
        have hle : t.nsoft ≤ 2 ^ 31 := h.index.nsoft_le
        have hidx : b / 16 < t.nsoft := hlt
        unfold maxBlkid
        omega
      have hnext : blkTableIdx (b + (16 - b % 16)) = blkTableIdx b + 1 := by
        show (b + (16 - b % 16)) / 16 = b / 16 + 1
        omega
      obtain ⟨⟨u, err⟩, hstep, hrun⟩ := delVec_run fresh fails h hmax
      rw [if_pos hlt, hstep]
      simp only [bind, Except.bind]
      cases err with
      | true => exact ⟨_, rfl, _, hrun, nofun⟩
      | false =>
        have hns : u.nsoft ≤ t.nsoft := hrun.2.1
        obtain ⟨r, hr, hi, hrun', hend⟩ := delTables_run (n := n) hrun.1 (b := b + (16 - b % 16)) (by
          show u.nsoft ≤ _
          omega)
        rw [hnext] at hr
        exact ⟨r, hr, hi, hrun.trans hrun', hend⟩
    · rw [if_neg hlt]
      exact ⟨_, rfl, b, ⟨h, le_refl _, Or.inl ⟨rfl, Erased.refl _ _⟩⟩, fun _ => by show t.nsoft ≤ _; omega⟩

/-! ## Sequences of operations -/

/-- The operations on the index: those of `pfs_inode_sync_blk_meta`, `pfs_inode_del_from` with the ids
it cannot delete, and the reload of the inode with its number of blocks. -/
inductive Op where
  | add (b : Nat) (d : Dblk) (hb : b < maxBlkid) (hd : d.empty = false)
  | remove (b : Nat) (hb : b < maxBlkid)
  | delFrom (b : Nat) (fails : Nat → Bool)
  | reload (blkcnt : Nat)

/-- One operation on the array; `fresh` is what new memory holds. -/
def exec (fresh : Nat → Table) (t : TableArea) : Op → Except FileErr TableArea
  | .add b d _ _ => t.addBlk fresh b d
  | .remove b _ => t.removeBlk fresh b
  | .delFrom b fails => (t.delFrom fresh fails b).map Prod.fst
  | .reload blkcnt => .ok (createBlktable fresh blkcnt)

/-- The operation on a map: a truncation deletes each id from its bound on, up to the first one in use
that it cannot delete. -/
def Op.onMap (m : Nat → Option Dblk) : Op → Nat → Option Dblk
  | .add b d _ _ => update m b (some d)
  | .remove b _ => update m b none
  | .delFrom b fails =>
    fun c => if b ≤ c ∧ ∀ i ≤ c, b ≤ i → (m i).isSome → fails i = false then none else m c
  | .reload _ => fun _ => none

/-- A truncation that went through deleted every id from its bound on. -/
theorem DelRun.onMap {r : TableArea × Bool} (h : DelRun fails t r b hi)
    (hend : r.2 = false → r.1.nsoft ≤ blkTableIdx hi) : r.1.map = (Op.delFrom b fails).onMap t.map := by
  obtain ⟨hr, -, ⟨hok, he⟩ | ⟨hok, stop, -, he, hs, hf⟩⟩ := h
  · have hle := he.le
    have hbeyond : ∀ c, hi ≤ c → t.map c = none := by
      intro c hc
      have hidx : blkTableIdx hi ≤ blkTableIdx c := Nat.div_le_div_right hc
      have hnone := hr.map_beyond (le_trans (hend hok) hidx)
      rw [he.map] at hnone
      simpa [show ¬ c < hi by omega] using hnone
    funext c
    rw [he.map, Op.onMap]
    dsimp only
    by_cases hc : b ≤ c
    · have hgoes : ∀ i ≤ c, b ≤ i → (t.map i).isSome → fails i = false := by
        intro i _ hbi hs
        rcases Nat.lt_or_ge i hi with hlt | hge
        · exact he.goes i hbi hlt hs
        · rw [hbeyond i hge] at hs
          cases hs
      refine Eq.trans ?_ (if_pos ⟨hc, hgoes⟩).symm
      by_cases hlt : c < hi
      · rw [if_pos ⟨hc, hlt⟩]
      · rw [if_neg (fun h => hlt h.2), hbeyond c (by omega)]
    · rw [if_neg (by omega), if_neg (fun h => hc h.1)]
  · have hle := he.le
    funext c
    rw [he.map, Op.onMap]
    dsimp only
    by_cases hc : b ≤ c ∧ c < stop
    · rw [if_pos hc, if_pos ⟨hc.1, fun i hi hbi => he.goes i hbi (by omega)⟩]
    · rw [if_neg hc, if_neg]
      rintro ⟨hbc, hall⟩
      have := hall stop (by omega) hle hs
      rw [hf] at this
      cases this

theorem Inv.exec (h : t.Inv) (op : Op) : ∃ t', exec fresh t op = .ok t' ∧ t'.Inv ∧ t'.map = op.onMap t.map := by
  cases op with
  | add b d hb hd =>
    obtain ⟨t', ht', hinv, hsoft⟩ := h.addBlk fresh hb hd
    refine ⟨t', ht', hinv, ?_⟩
    have hdblk : t'.soft.dblk = update t.soft.dblk b d := by
      rw [hsoft]
      exact (h.index.addBlk hb hd).2
    have := map_of_update hdblk
    rwa [hd] at this
  | remove b hb =>
    obtain ⟨t', ht', hinv, hdblk, -⟩ := h.removeBlk fresh hb
    exact ⟨t', ht', hinv, map_of_update hdblk⟩
  | delFrom b fails =>
    obtain ⟨r, hr, hi, hrun, hend⟩ := delTables_run fresh fails (n := t.nsoft) (b := b) h (by omega)
    refine ⟨r.1, ?_, hrun.1, hrun.onMap hend⟩
    rw [TableArea.exec, delFrom, hr]
    rfl
  | reload blkcnt =>
    obtain ⟨hinv, hsoft⟩ := Inv.createBlktable fresh blkcnt
    refine ⟨_, rfl, hinv, ?_⟩
    funext b
    rw [map, hsoft]
    rfl

/-- The operations of a list one after the other; each finds its own garbage in new memory. -/
def run : TableArea → List (Op × (Nat → Table)) → Except FileErr TableArea
  | t, [] => .ok t
  | t, (op, fresh) :: ops => do run (← exec fresh t op) ops

/-- The map after the operations of a list. -/
def mapOf (ops : List (Op × (Nat → Table))) : Nat → Option Dblk := ops.foldl (fun m op => op.1.onMap m) fun _ => none

/-- How an index stands for a map. A lookup finds NULL, an entry not in use or the entry of the map; a
table has its vector exactly while the map has an id in it, with their number modulo 16 in the count;
`nsoft` is the least number of tables for all ids, and the array is allocated for it. -/
structure Represents (t : TableArea) (m : Nat → Option Dblk) : Prop where
  lookup : ∀ b < maxBlkid, ∃ d?, t.getBlk b = .ok d? ∧ d?.filter (fun d => !d.empty) = m b
  vect : ∀ i, (t.entry i).vect.isSome ↔ ∃ k : Fin 16, (m (16 * i + k)).isSome
  cnt : ∀ i, (t.entry i).cnt = BitVec.ofNat 4 (Finset.univ.filter fun k : Fin 16 => (m (16 * i + k)).isSome).card
  nsoft : ∀ n, t.nsoft ≤ n ↔ ∀ b, (m b).isSome → blkTableIdx b < n
  nhard : t.tables.length = t.nhard ∧ t.nsoft ≤ t.nhard ∧ (t.nsoft = 0 ∨ t.nhard = hardCnt t.nsoft)

theorem Inv.lookup (h : t.Inv) (hb : b < maxBlkid) :
    ∃ d?, t.getBlk b = .ok d? ∧ d?.filter (fun d => !d.empty) = t.map b := by
  obtain ⟨d?, hget, hd⟩ := h.index.getBlk_eq hb
  refine ⟨d?, by rw [h.getBlk_eq hb, hget], ?_⟩
  rw [map, ← hd]
  cases d? with
  | none => rfl
  | some d => cases hempty : d.empty <;> simp [hempty]

/-- The ids of a table that the map has are the entries in use of its vector. -/
theorem isSome_map_mul_add (t : TableArea) (i : Nat) (k : Fin 16) :
    (t.map (16 * i + k)).isSome ↔ ∃ v, (t.entry i).vect = some v ∧ (v k).empty = false := by
  obtain ⟨h1, h2⟩ := BlkTables.idx_mul_add i k
  have hentry : t.soft.tables (blkTableIdx (16 * i + k)) = t.entry i := by rw [h1]; rfl
  rw [Option.isSome_iff_ne_none, ne_eq, map_eq_none_iff, Bool.not_eq_true]
  cases hv : (t.entry i).vect with
  | none =>
    rw [BlkTables.dblk_of_none (by rw [hentry]; exact hv)]
    constructor
    · nofun
    · rintro ⟨v, hv', -⟩
      cases hv'
  | some v =>
    rw [BlkTables.dblk_of_vect (v := v) (by rw [hentry]; exact hv), h2]
    constructor
    · exact fun hk => ⟨v, rfl, hk⟩
    · rintro ⟨w, hw, hk⟩
      cases hw
      exact hk

theorem Inv.vect_iff (h : t.Inv) (i : Nat) : (t.entry i).vect.isSome ↔ ∃ k : Fin 16, (t.map (16 * i + k)).isSome := by
  constructor
  · intro hs
    obtain ⟨v, hv⟩ := Option.isSome_iff_exists.mp hs
    obtain ⟨k, hk⟩ := exists_of_used_ne ((h.index.ok i).some hv).1
    exact ⟨k, (isSome_map_mul_add t i k).mpr ⟨v, hv, hk⟩⟩
  · rintro ⟨k, hk⟩
    obtain ⟨v, hv, -⟩ := (isSome_map_mul_add t i k).mp hk
    rw [hv]
    rfl

theorem Inv.cnt_eq (h : t.Inv) (i : Nat) :
    (t.entry i).cnt = BitVec.ofNat 4 (Finset.univ.filter fun k : Fin 16 => (t.map (16 * i + k)).isSome).card := by
  have hok := h.index.ok i
  cases hv : (t.entry i).vect with
  | none =>
    rw [Table.Ok, show (t.soft.tables i).vect = none from hv] at hok
    rw [Finset.filter_false_of_mem]
    · exact hok
    · intro k _ hk
      obtain ⟨v, hv', -⟩ := (isSome_map_mul_add t i k).mp hk
      rw [hv] at hv'
      cases hv'
  | some v =>
    have hcnt := (hok.some hv).2
    rw [show (t.soft.tables i).cnt = (t.entry i).cnt from rfl] at hcnt
    rw [hcnt, used]
    congr 3
    ext k
    rw [isSome_map_mul_add]
    constructor
    · exact fun hk => ⟨v, hv, hk⟩
    · rintro ⟨w, hw, hk⟩
      rw [hv] at hw
      cases hw
      exact hk

theorem Inv.nsoft_le_iff (h : t.Inv) (n : Nat) : t.nsoft ≤ n ↔ ∀ b, (t.map b).isSome → blkTableIdx b < n := by
  constructor
  · intro hn b hs
    by_contra hlt
    rw [h.map_beyond (by omega)] at hs
    cases hs
  · intro hall
    by_contra hlt
    -- the last table in use has an id
    obtain ⟨m, hm⟩ : ∃ m, t.nsoft = m + 1 := ⟨t.nsoft - 1, by omega⟩
    obtain ⟨k, hk⟩ := (h.vect_iff m).mp (h.index.last m hm)
    have := hall _ hk
    rw [(BlkTables.idx_mul_add m k).1] at this
    omega

theorem Inv.represents (h : t.Inv) : t.Represents t.map :=
  ⟨fun _ hb => h.lookup hb, h.vect_iff, h.cnt_eq, h.nsoft_le_iff, h.area, h.fits, h.hard⟩

theorem run_eq : ∀ (ops : List (Op × (Nat → Table))) {t : TableArea}, t.Inv →
    ∃ t', run t ops = .ok t' ∧ t'.Inv ∧ t'.map = ops.foldl (fun m op => op.1.onMap m) t.map
  | [], t, h => ⟨t, rfl, h, rfl⟩
  | (op, fresh) :: ops, t, h => by
    obtain ⟨u, hu, hinv, hmap⟩ := h.exec fresh op
    obtain ⟨t', ht', hinv', hmap'⟩ := run_eq ops hinv
    refine ⟨t', ?_, hinv', by rw [hmap', hmap]; rfl⟩
    rw [run, hu]
    exact ht'

/-- Whatever operations are made on an index without tables, none accesses memory outside of the
array, and the index stands for the map that the operations make. -/
theorem block_table_is_map (ops : List (Op × (Nat → Table))) :
    ∃ t, run init ops = .ok t ∧ t.Represents (mapOf ops) ∧ {b | (mapOf ops b).isSome}.Finite := by
  have hinit : init.Inv := ⟨by rw [soft_init]; exact blkTables_inv_init, rfl, le_refl _, Or.inl rfl⟩
  obtain ⟨t, ht, hinv, hmap⟩ := run_eq ops hinit
  have hmap0 : init.map = fun _ => none := by
    funext b
    rw [map, soft_init]
    rfl
  have hmapOf : t.map = mapOf ops := by rw [hmap, hmap0, mapOf]
  refine ⟨t, ht, hmapOf ▸ hinv.represents, ?_⟩
  refine (Set.finite_lt_nat (16 * t.nsoft)).subset fun b hb => ?_
  have hidx := (hinv.nsoft_le_iff t.nsoft).mp (le_refl _) b (by rw [hmapOf]; exact hb)
  have hdiv : b / 16 < t.nsoft := hidx
  show b < 16 * t.nsoft
  omega

end TableArea

end PolarFs.File
