/-
The block index of a file in memory (`pfs_inode.cc`): tables of 16 block entries, allocated on first
use and freed when their count, kept in the low four bits of the pointer, drops to zero. The index is
a map from block ids to entries below 2^35; above that `pfs_inode_blk_table_get` loses bits of the
table number.
-/
import Mathlib.Tactic

namespace PolarFs.File

open Function (update update_self update_of_ne update_eq_self update_idem forall_update_iff)

/-- How a call ends that does not succeed; `undefined` is an access outside of the tables. -/
inductive FileErr where
  | eagain
  | enospc
  | undefined
  deriving DecidableEq, Repr

/-! ## Entries -/

/-- `pfs_dblk_t`. -/
structure Dblk where
  blkno : Nat
  holeoff : Nat
  holelen : Nat
  deriving DecidableEq, Repr

def zerodblk : Dblk := ⟨0, 0, 0⟩

def intMax : Nat := 2 ^ 31 - 1

/-- `pfs_dblk_empty`. -/
def Dblk.empty (d : Dblk) : Bool := d.blkno == zerodblk.blkno

/-- `pfs_dblk_change`. -/
def Dblk.change (d : Dblk) (off len : Nat) : Dblk := ⟨d.blkno, off, len⟩

/-- `pfs_dblk_holeoff`. -/
def Dblk.hole (d : Dblk) : Nat := if d.blkno = 0 then 0 else if 0 < d.holelen then d.holeoff else intMax

variable {d : Dblk} {v : Fin 16 → Dblk} {k : Fin 16}

theorem Dblk.empty_eq_false : d.empty = false ↔ d.blkno ≠ 0 := by simp [Dblk.empty, zerodblk]

@[simp] theorem zerodblk_empty : zerodblk.empty = true := rfl

@[simp] theorem Dblk.change_empty (d : Dblk) (off len : Nat) : (d.change off len).empty = d.empty := rfl

/-! ## One table -/

/-- `pfs_inode_blk_table_t`: a vector of `BLK_TABLE_BLK_CNT` entries or NULL, and `dblk_cnt : 4`. -/
structure Table where
  vect : Option (Fin 16 → Dblk)
  cnt : BitVec 4

def Table.zero : Table := ⟨none, 0#4⟩

/-- How many entries are in use. -/
def used (v : Fin 16 → Dblk) : Nat := (Finset.univ.filter fun k => (v k).empty = false).card

/-- A vector has an entry in use, and the count is their number modulo 16. -/
def Table.Ok (t : Table) : Prop :=
  match t.vect with
  | none => t.cnt = 0#4
  | some v => used v ≠ 0 ∧ t.cnt = BitVec.ofNat 4 (used v)

theorem Table.Ok.some {t : Table} (h : t.Ok) (hv : t.vect = some v) : used v ≠ 0 ∧ t.cnt = BitVec.ofNat 4 (used v) := by
  rw [Table.Ok, hv] at h
  exact h

theorem used_le (v : Fin 16 → Dblk) : used v ≤ 16 :=
  (Finset.card_filter_le _ _).trans (le_of_eq (Finset.card_fin 16))

theorem used_const_zero : used (fun _ => zerodblk) = 0 := by simp [used]

theorem exists_of_used_ne (h : used v ≠ 0) : ∃ k, (v k).empty = false := by
  obtain ⟨k, hk⟩ := Finset.card_pos.mp (Nat.pos_of_ne_zero h)
  exact ⟨k, (Finset.mem_filter.mp hk).2⟩

theorem used_ne_of_entry (h : (v k).empty = false) : used v ≠ 0 :=
  Finset.card_ne_zero_of_mem (Finset.mem_filter.mpr ⟨Finset.mem_univ k, h⟩)

theorem used_update_add (hv : (v k).empty = true) (hd : d.empty = false) : used (update v k d) = used v + 1 := by
  unfold used
  rw [← Finset.card_insert_of_notMem (a := k) (by simp [hv])]
  congr 1
  ext i
  by_cases hik : i = k
  · subst hik
    simp [hd]
  · simp [hik]

theorem used_update_same (h : d.empty = (v k).empty) : used (update v k d) = used v := by
  unfold used
  congr 1
  ext i
  by_cases hik : i = k
  · subst hik
    simp [h]
  · simp [update_of_ne hik]

/-- Fifteen entries at most are left, so that the count is zero only if none is. -/
theorem used_update_remove (hv : (v k).empty = false) : used v = used (update v k zerodblk) + 1 := by
  have h := used_update_add (v := update v k zerodblk) (k := k) (d := v k) (by simp) hv
  rwa [update_idem, update_eq_self] at h

/-! ## All tables -/

/-- `in_blk_tables` and `in_blk_table_nsoft`; what is allocated past `nsoft` is zero. -/
structure BlkTables where
  tables : Nat → Table
  nsoft : Nat

def BlkTables.init : BlkTables := ⟨fun _ => Table.zero, 0⟩

/-- `pfs_inode_blk_table_idx`. -/
def blkTableIdx (blkid : Nat) : Nat := blkid / 16

/-- `pfs_inode_blk_vec_idx`. -/
def blkVecIdx (blkid : Nat) : Fin 16 := ⟨blkid % 16, Nat.mod_lt _ (by decide)⟩

/-- The conversion of an `int64_t` to `int`. -/
def toInt32 (n : Nat) : Int := if n % 2 ^ 32 < 2 ^ 31 then (n % 2 ^ 32 : Nat) else (n % 2 ^ 32 : Nat) - 2 ^ 32

theorem toInt32_of_lt {n : Nat} (h : n < 2 ^ 31) : toInt32 n = n := by
  have hmod : n % 2 ^ 32 = n := Nat.mod_eq_of_lt (by omega)
  rw [toInt32, hmod, if_pos h]

namespace BlkTables

variable (t : BlkTables)

/-- `pfs_inode_blk_table_get`: the table number goes through an `int`. -/
def get (blkid : Nat) : Except FileErr (Option Nat) :=
  let idx := toInt32 (blkTableIdx blkid)
  if (t.nsoft : Int) ≤ idx then .ok none else if idx < 0 then .error .undefined else .ok (some idx.toNat)

/-- `pfs_inode_get_blk`. -/
def getBlk (blkid : Nat) : Except FileErr (Option Dblk) :=
  (t.get blkid).map fun i? => i?.bind fun i => (t.tables i).vect.map fun v => v (blkVecIdx blkid)

/-- `pfs_dblk_change` of the entry that `pfs_inode_get_blk` finds. -/
def changeBlk (blkid off len : Nat) : Except FileErr BlkTables :=
  match t.get blkid with
  | .error e => .error e
  | .ok none => .error .undefined
  | .ok (some i) =>
    match (t.tables i).vect with
    | none => .error .undefined
    | some v =>
      let v := update v (blkVecIdx blkid) ((v (blkVecIdx blkid)).change off len)
      .ok { t with tables := update t.tables i ⟨some v, (t.tables i).cnt⟩ }

/-- `pfs_inode_add_blk` with `pfs_dblk_init` of the entry; here the table number keeps its 64 bits. -/
def addBlk (blkid : Nat) (d : Dblk) : BlkTables :=
  let i := blkTableIdx blkid
  let v := (t.tables i).vect.getD fun _ => zerodblk
  let cnt := if (v (blkVecIdx blkid)).empty then (t.tables i).cnt + 1#4 else (t.tables i).cnt
  { tables := update t.tables i ⟨some (update v (blkVecIdx blkid) d), cnt⟩
    nsoft := if t.nsoft ≤ i then i + 1 else t.nsoft }

/-- The search for the last table with a vector, below `n`. -/
def lastVect (tables : Nat → Table) : Nat → Nat
  | 0 => 0
  | n + 1 => if (tables n).vect.isSome then n + 1 else lastVect tables n

/-- `pfs_inode_tryremove_blk_table`. -/
def tryremove (i : Nat) : BlkTables :=
  if (t.tables i).cnt = 0#4 then
    let tables := update t.tables i Table.zero
    { tables := tables, nsoft := if i + 1 = t.nsoft then lastVect tables i else t.nsoft }
  else t

/-- `pfs_inode_remove_blk`. -/
def removeBlk (blkid : Nat) : Except FileErr BlkTables :=
  match t.get blkid with
  | .error e => .error e
  | .ok none => .ok t
  | .ok (some i) =>
    match (t.tables i).vect with
    | none => .ok t
    | some v =>
      let k := blkVecIdx blkid
      let tbl : Table :=
        if (v k).empty then t.tables i else ⟨some (update v k zerodblk), (t.tables i).cnt - 1#4⟩
      .ok (tryremove { t with tables := update t.tables i tbl } i)

/-! ## The index as a map -/

/-- The entry of a block id. -/
def dblk (blkid : Nat) : Dblk :=
  ((t.tables (blkTableIdx blkid)).vect.map fun v => v (blkVecIdx blkid)).getD zerodblk

/-- The block ids that `pfs_inode_blk_table_get` finds. -/
def maxBlkid : Nat := 2 ^ 35

structure Inv : Prop where
  ok : ∀ i, (t.tables i).Ok
  beyond : ∀ i, t.nsoft ≤ i → (t.tables i).vect = none
  last : ∀ n, t.nsoft = n + 1 → (t.tables n).vect.isSome
  range : ∀ b, (t.dblk b).empty = false → b < maxBlkid
  clean : ∀ b, (t.dblk b).empty = true → t.dblk b = zerodblk

variable {t} {b : Nat}

theorem eq_of_idx {c : Nat} (ht : blkTableIdx b = blkTableIdx c) (hv : blkVecIdx b = blkVecIdx c) : b = c := by
  have hv' : b % 16 = c % 16 := congrArg Fin.val hv
  have ht' : b / 16 = c / 16 := ht
  omega

/-- The block id of entry `k` of table `i`. -/
theorem idx_mul_add (i : Nat) (k : Fin 16) : blkTableIdx (16 * i + k) = i ∧ blkVecIdx (16 * i + k) = k := by
  obtain ⟨k, hk⟩ := k
  refine ⟨?_, Fin.ext ?_⟩
  · show (16 * i + k) / 16 = i
    omega
  · show (16 * i + k) % 16 = k
    omega

theorem dblk_of_vect (hv : (t.tables (blkTableIdx b)).vect = some v) : t.dblk b = v (blkVecIdx b) := by
  simp [dblk, hv]

theorem dblk_of_none (hv : (t.tables (blkTableIdx b)).vect = none) : t.dblk b = zerodblk := by
  simp [dblk, hv]

theorem dblk_update {c : BitVec 4} {n : Nat} (hv : (t.tables (blkTableIdx b)).vect.getD (fun _ => zerodblk) = v) :
    (BlkTables.mk (update t.tables (blkTableIdx b) ⟨some (update v (blkVecIdx b) d), c⟩) n).dblk =
      update t.dblk b d := by
  funext b'
  by_cases ht : blkTableIdx b' = blkTableIdx b
  · rw [dblk_of_vect (v := update v (blkVecIdx b) d) (by simp [ht])]
    by_cases hk : blkVecIdx b' = blkVecIdx b
    · rw [eq_of_idx ht hk, update_self, update_self]
    · have hne : b' ≠ b := fun h => hk (by rw [h])
      rw [update_of_ne hk, update_of_ne hne, ← hv, dblk, ht]
      cases (t.tables (blkTableIdx b)).vect <;> rfl
  · have hne : b' ≠ b := fun h => ht (by rw [h])
    rw [update_of_ne hne]
    simp [dblk, update_of_ne ht]

theorem get_eq (hb : b < maxBlkid) :
    t.get b = .ok (if t.nsoft ≤ blkTableIdx b then none else some (blkTableIdx b)) := by
  have hidx : blkTableIdx b < 2 ^ 31 := by
    unfold maxBlkid at hb
    show b / 16 < 2 ^ 31
    omega
  rw [BlkTables.get, toInt32_of_lt hidx]
  by_cases hn : t.nsoft ≤ blkTableIdx b
  · rw [if_pos (by exact_mod_cast hn), if_pos hn]
  · rw [if_neg (by exact_mod_cast hn), if_neg (by omega), if_neg hn, Int.toNat_natCast]

namespace Inv

variable (h : t.Inv)
include h

theorem nsoft_le : t.nsoft ≤ 2 ^ 31 := by
  by_contra hlt
  obtain ⟨n, hn⟩ : ∃ n, t.nsoft = n + 1 := ⟨t.nsoft - 1, by omega⟩
  obtain ⟨v, hv⟩ := Option.isSome_iff_exists.mp (h.last n hn)
  obtain ⟨k, hk⟩ := exists_of_used_ne ((h.ok n).some hv).1
  obtain ⟨h1, h2⟩ := idx_mul_add n k
  have hb := h.range (16 * n + k) (by rw [dblk_of_vect (v := v) (by rw [h1]; exact hv), h2]; exact hk)
  unfold maxBlkid at hb
  omega

theorem getBlk_eq (hb : b < maxBlkid) : ∃ d?, t.getBlk b = .ok d? ∧ d?.getD zerodblk = t.dblk b := by
  rw [getBlk, get_eq hb]
  refine ⟨_, rfl, ?_⟩
  by_cases hn : t.nsoft ≤ blkTableIdx b
  · rw [if_pos hn, dblk_of_none (h.beyond _ hn)]
    rfl
  · rw [if_neg hn]
    rfl

/-- A block id with an entry in use has its table. -/
theorem vect_of_used (hb : (t.dblk b).empty = false) :
    ∃ v, (t.tables (blkTableIdx b)).vect = some v ∧ ¬ t.nsoft ≤ blkTableIdx b := by
  cases hv : (t.tables (blkTableIdx b)).vect with
  | none =>
    rw [dblk_of_none hv] at hb
    cases hb
  | some v =>
    refine ⟨v, rfl, fun hn => ?_⟩
    rw [h.beyond _ hn] at hv
    cases hv

/-- A table of which one entry is set, with the count of its entries. -/
theorem set {c : BitVec 4} (hb : b < maxBlkid) (hv : (t.tables (blkTableIdx b)).vect.getD (fun _ => zerodblk) = v)
    (hd : d.empty = true → d = zerodblk) (hused : used (update v (blkVecIdx b) d) ≠ 0)
    (hc : c = BitVec.ofNat 4 (used (update v (blkVecIdx b) d))) :
    (BlkTables.mk (update t.tables (blkTableIdx b) ⟨some (update v (blkVecIdx b) d), c⟩)
      (if t.nsoft ≤ blkTableIdx b then blkTableIdx b + 1 else t.nsoft)).Inv := by
  refine ⟨?_, fun i hi => ?_, fun n hn => ?_, ?_, ?_⟩
  · exact (forall_update_iff t.tables fun _ => Table.Ok).2 ⟨⟨hused, hc⟩, fun i _ => h.ok i⟩
  · dsimp only at hi ⊢
    have hne : i ≠ blkTableIdx b ∧ t.nsoft ≤ i := by
      split at hi <;> constructor <;> omega
    rw [update_of_ne hne.1]
    exact h.beyond i hne.2
  · dsimp only at hn ⊢
    by_cases hnb : n = blkTableIdx b
    · rw [hnb, update_self]
      rfl
    · rw [update_of_ne hnb]
      refine h.last n ?_
      split at hn <;> omega
  · rw [dblk_update hv]
    exact (forall_update_iff t.dblk fun b d => d.empty = false → b < maxBlkid).2 ⟨fun _ => hb, fun b' _ => h.range b'⟩
  · rw [dblk_update hv]
    exact (forall_update_iff t.dblk fun _ d => d.empty = true → d = zerodblk).2 ⟨hd, fun b' _ => h.clean b'⟩

theorem addBlk (hb : b < maxBlkid) (hd : d.empty = false) :
    (t.addBlk b d).Inv ∧ (t.addBlk b d).dblk = update t.dblk b d := by
  refine ⟨h.set hb rfl (by simp [hd]) (used_ne_of_entry (k := blkVecIdx b) (by simp [hd])) ?_, dblk_update rfl⟩
  -- a new vector starts from a count of zero
  have hcnt : (t.tables (blkTableIdx b)).cnt =
      BitVec.ofNat 4 (used ((t.tables (blkTableIdx b)).vect.getD fun _ => zerodblk)) := by
    have hok := h.ok (blkTableIdx b)
    cases hv : (t.tables (blkTableIdx b)).vect with
    | none =>
      rw [Table.Ok, hv] at hok
      rw [Option.getD_none, used_const_zero, hok]
    | some v => exact (hok.some hv).2
  split
  case isTrue he => rw [used_update_add he hd, BitVec.ofNat_add, hcnt]
  case isFalse he => rw [used_update_same (by rw [hd]; simpa using he), hcnt]

theorem changeBlk (off len : Nat) (hused : (t.dblk b).empty = false) :
    ∃ t', t.changeBlk b off len = .ok t' ∧ t'.Inv ∧ t'.dblk = update t.dblk b ((t.dblk b).change off len) := by
  obtain ⟨v, hv, hn⟩ := h.vect_of_used hused
  have hdb := dblk_of_vect hv
  have hgetD : (t.tables (blkTableIdx b)).vect.getD (fun _ => zerodblk) = v := by rw [hv]; rfl
  rw [hdb] at hused ⊢
  have hsame : used (update v (blkVecIdx b) ((v (blkVecIdx b)).change off len)) = used v :=
    used_update_same rfl
  obtain ⟨hne, hcnt⟩ := (h.ok _).some hv
  have hinv := h.set (c := (t.tables (blkTableIdx b)).cnt) (h.range b (by rw [hdb]; exact hused)) hgetD
    (d := (v (blkVecIdx b)).change off len) (fun he => by rw [Dblk.change_empty, hused] at he; cases he)
    (by rw [hsame]; exact hne) (by rw [hsame]; exact hcnt)
  rw [if_neg hn] at hinv
  refine ⟨_, ?_, hinv, dblk_update hgetD⟩
  rw [BlkTables.changeBlk, get_eq (h.range b (by rw [hdb]; exact hused)), if_neg hn]
  simp only [hv]

end Inv

theorem lastVect_le (f : Nat → Table) : ∀ n, lastVect f n ≤ n
  | 0 => le_refl 0
  | n + 1 => by
    rw [lastVect]
    split
    · exact le_refl _
    · exact le_trans (lastVect_le f n) (Nat.le_succ n)

theorem lastVect_beyond (f : Nat → Table) : ∀ n i, lastVect f n ≤ i → i < n → (f i).vect = none
  | n + 1, i, hle, hlt => by
    rw [lastVect] at hle
    split at hle
    case isTrue => omega
    case isFalse hn =>
      rcases Nat.lt_succ_iff_lt_or_eq.mp hlt with hlt | rfl
      · exact lastVect_beyond f n i hle hlt
      · simpa using hn

theorem lastVect_last (f : Nat → Table) : ∀ n i, lastVect f n = i + 1 → (f i).vect.isSome
  | n + 1, i, heq => by
    rw [lastVect] at heq
    split at heq
    case isTrue hn =>
      obtain rfl : n = i := by omega
      exact hn
    case isFalse => exact lastVect_last f n i heq

/-- A table whose last entry in use goes is freed. -/
theorem Inv.tryremove_last (h : t.Inv) {tbl : Table} (hv : (t.tables (blkTableIdx b)).vect = some v)
    (hn : ¬ t.nsoft ≤ blkTableIdx b) (hlast : used (update v (blkVecIdx b) zerodblk) = 0)
    (hcnt : tbl.cnt = 0#4) : let t' := tryremove { t with tables := update t.tables (blkTableIdx b) tbl } (blkTableIdx b)
    t'.Inv ∧ t'.dblk = update t.dblk b zerodblk ∧ t'.nsoft ≤ t.nsoft := by
  intro t'
  let f := update t.tables (blkTableIdx b) Table.zero
  have ht' : t' = ⟨f, if blkTableIdx b + 1 = t.nsoft then lastVect f (blkTableIdx b) else t.nsoft⟩ := by
    show tryremove _ _ = _
    rw [tryremove, if_pos (by simpa using hcnt)]
    simp only [update_idem, f]
  have hdblk : t'.dblk = update t.dblk b zerodblk := by
    rw [ht']
    funext b'
    by_cases hi : blkTableIdx b' = blkTableIdx b
    · rw [dblk_of_none (by simp [f, hi, Table.zero])]
      by_cases hbb : b' = b
      · rw [hbb, update_self]
      have hk : blkVecIdx b' ≠ blkVecIdx b := fun hk => hbb (eq_of_idx hi hk)
      rw [update_of_ne hbb]
      refine (h.clean b' ?_).symm
      by_contra hne
      refine used_ne_of_entry (v := update v (blkVecIdx b) zerodblk) (k := blkVecIdx b') ?_ hlast
      rw [update_of_ne hk, ← dblk_of_vect (t := t) (b := b') (v := v) (by rw [hi]; exact hv)]
      simpa using hne
    · have hbb : b' ≠ b := fun hb => hi (by rw [hb])
      rw [update_of_ne hbb]
      simp [dblk, f, update_of_ne hi]
  refine ⟨⟨?_, fun i hi => ?_, fun n hn' => ?_, ?_, ?_⟩, hdblk, ?_⟩
  · rw [ht']
    exact (forall_update_iff t.tables fun _ => Table.Ok).2 ⟨rfl, fun i _ => h.ok i⟩
  · rw [ht'] at hi ⊢
    dsimp only at hi ⊢
    rcases Nat.lt_or_ge i t.nsoft with hlt | hge
    · split at hi
      case isFalse => omega
      case isTrue hlast' =>
        by_cases hib : i = blkTableIdx b
        · rw [hib]
          show (update t.tables (blkTableIdx b) Table.zero (blkTableIdx b)).vect = none
          rw [update_self]
          rfl
        · exact lastVect_beyond f _ i hi (by omega)
    · show (update t.tables (blkTableIdx b) Table.zero i).vect = none
      rw [update_of_ne (by omega)]
      exact h.beyond i hge
  · rw [ht'] at hn' ⊢
    dsimp only at hn' ⊢
    split at hn'
    case isTrue => exact lastVect_last f _ n hn'
    case isFalse hne =>
      show (update t.tables (blkTableIdx b) Table.zero n).vect.isSome
      rw [update_of_ne (by omega)]
      exact h.last n hn'
  · rw [hdblk]
    exact (forall_update_iff t.dblk fun b d => d.empty = false → b < maxBlkid).2 ⟨nofun, fun b' _ => h.range b'⟩
  · rw [hdblk]
    exact (forall_update_iff t.dblk fun _ d => d.empty = true → d = zerodblk).2 ⟨fun _ => rfl, fun b' _ => h.clean b'⟩
  · rw [ht']
    dsimp only
    split
    · exact le_trans (lastVect_le f _) (by omega)
    · exact le_refl _

theorem Inv.removeBlk (h : t.Inv) (hused : (t.dblk b).empty = false) :
    ∃ t', t.removeBlk b = .ok t' ∧ t'.Inv ∧ t'.dblk = update t.dblk b zerodblk ∧ t'.nsoft ≤ t.nsoft := by
  obtain ⟨v, hv, hn⟩ := h.vect_of_used hused
  have hdb := dblk_of_vect hv
  have hgetD : (t.tables (blkTableIdx b)).vect.getD (fun _ => zerodblk) = v := by rw [hv]; rfl
  have hk : (v (blkVecIdx b)).empty = false := hdb ▸ hused
  obtain ⟨-, hcnt⟩ := (h.ok _).some hv
  have hrem := used_update_remove hk
  have hle := used_le v
  have hcnt' : (t.tables (blkTableIdx b)).cnt - 1#4 = BitVec.ofNat 4 (used (update v (blkVecIdx b) zerodblk)) := by
    rw [hcnt, hrem, BitVec.ofNat_add, BitVec.add_sub_cancel]
  let tbl : Table := ⟨some (update v (blkVecIdx b) zerodblk), (t.tables (blkTableIdx b)).cnt - 1#4⟩
  have hstep : t.removeBlk b =
      .ok (tryremove { t with tables := update t.tables (blkTableIdx b) tbl } (blkTableIdx b)) := by
    rw [BlkTables.removeBlk, get_eq (h.range b hused), if_neg hn]
    simp only [hv, hk, Bool.false_eq_true, if_false, tbl]
  by_cases h0 : used (update v (blkVecIdx b) zerodblk) = 0
  · exact ⟨_, hstep, h.tryremove_last hv hn h0 (hcnt'.trans (by rw [h0]))⟩
  -- at most fifteen entries are left, so that their number is not zero modulo 16
  have hne : (t.tables (blkTableIdx b)).cnt - 1#4 ≠ 0#4 := by
    rw [hcnt']
    intro heq
    have := congrArg BitVec.toNat heq
    rw [BitVec.toNat_ofNat, BitVec.toNat_ofNat] at this
    omega
  have hinv := h.set (h.range b hused) hgetD (fun _ => rfl) h0 hcnt'
  rw [if_neg hn] at hinv
  rw [tryremove, if_neg (by simpa [tbl] using hne)] at hstep
  exact ⟨_, hstep, hinv, dblk_update hgetD, le_refl _⟩

end BlkTables

end PolarFs.File
