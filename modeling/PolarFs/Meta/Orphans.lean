/-
The orphans of a crash (`pfs_orphans_reclaim`): files and directories that were removed while open.
A read-write mount visits all inodes and releases the orphans, small ones in the transaction of the
visit, large ones afterwards, truncated piece by piece. An error of the visit ends the process.

Journal commits and device IO succeed here and every transaction fits, so a transaction is its effect.
-/
import Mathlib.Tactic

namespace PolarFs.Meta

open Function (update update_self update_of_ne)

/-- `PFS_INODET_*`. -/
inductive InodeType where
  | none
  | file
  | dir
  deriving DecidableEq, Repr

/-- `pfs_inode_phy_t` with the list it heads: the block tags of a file, as block id and number, or the
entries of a directory. `INVALID_DENO` is `none`. -/
structure PhyInode where
  used : Bool
  type : InodeType
  deno : Option Nat
  nlink : Nat
  size : Nat
  btime : Nat
  kids : List (Nat × Nat)
  deriving DecidableEq, Repr

/-- The inodes and, of each block tag, whether it is used. -/
structure Image where
  ninode : Nat
  inode : Nat → PhyInode
  btUsed : Nat → Bool

inductive Errno where
  | enoent
  | eagain
  | eisdir
  deriving DecidableEq, Repr

/-- Why a call gives no result: an assertion failed, or a loop of the source has not ended yet. -/
inductive Stop where
  | verify
  | fuel
  deriving DecidableEq, Repr

abbrev Res := Except Stop (Image × Option Errno)

/-! ## Releasing an inode -/

open PhyInode

open Image

/-- `PHYIN_ISORPHAN`. -/
def PhyInode.isOrphan (phy : PhyInode) : Bool := phy.type != .none && phy.used && phy.deno.isNone

/-- `PHYIN_IS_LARGE_FILE`. -/
def PhyInode.isLargeFile (shrink : Nat) (phy : PhyInode) : Bool := phy.type == .file && decide (shrink < phy.size)

/-- `pfs_inodephy_fini` and the release of the object; `in_btime` stays. -/
def PhyInode.fini (phy : PhyInode) : PhyInode := ⟨false, .none, none, 0, 0, phy.btime, []⟩

/-- `pfs_meta_free_blktag` of each. -/
def freeBlktags (btUsed : Nat → Bool) (kids : List (Nat × Nat)) : Nat → Bool :=
  kids.foldl (fun f kid => update f kid.2 false) btUsed

/-- The effect of `pfs_inodephy_release`. -/
def Image.release (m : Image) (ino : Nat) : Image :=
  { m with
    inode := update m.inode ino (m.inode ino).fini
    btUsed := freeBlktags m.btUsed (m.inode ino).kids }

/-- `pfs_inodephy_release`. -/
def inodephyRelease (shrink : Nat) (m : Image) (ino btime : Nat) : Res :=
  let phy := m.inode ino
  if phy.type = .none then .ok (m, some .enoent)
  else if btime ≠ phy.btime then .ok (m, some .enoent)
  else if phy.nlink ≠ 0 then .error .verify
  else if phy.type = .file ∧ shrink ≤ phy.size then .ok (m, some .eagain)
  else if phy.type ≠ .file ∧ phy.kids ≠ [] then .error .verify
  else .ok (m.release ino, none)

/-! ## Releasing a large file -/

/-- `pfs_inode_sync_first` of an inode that is not loaded yet. -/
def syncFirst (phy : PhyInode) (btime : Nat) (type : Option InodeType) : Option Errno :=
  if phy.type = .none then some .enoent
  else if phy.btime ≠ btime then some .enoent
  else match type with
    | some t => if phy.type ≠ t then some .eisdir else none
    | none => none

/-- `pfs_inode_del_from`, then the new size. -/
def Image.cut (m : Image) (ino from_ size : Nat) : Image :=
  let phy := m.inode ino
  { m with
    inode := update m.inode ino
      { phy with size := size, kids := phy.kids.filter fun kid => decide (kid.1 < from_) }
    btUsed := freeBlktags m.btUsed (phy.kids.filter fun kid => decide (from_ ≤ kid.1)) }

/-- `pfs_file_truncate`: at most `file_shrink_size` at a time. The result is the new size. -/
def fileTruncate (blksize shrink : Nat) (m : Image) (ino len btime : Nat) : Image × Except Errno Nat :=
  let phy := m.inode ino
  match syncFirst phy btime (some .file) with
  | some e => (m, .error e)
  | none =>
    let len' := if 0 < shrink ∧ shrink < phy.size - len then phy.size - shrink else len
    (m.cut ino (if len' = 0 then 0 else (len' - 1) / blksize + 1) len', .ok len')

/-- `pfs_file_xftruncate`. -/
def fileXftruncate (blksize shrink : Nat) : Nat → Image → Nat → Nat → Nat → Res
  | 0, _, _, _, _ => .error .fuel
  | fuel + 1, m, ino, len, btime =>
    match fileTruncate blksize shrink m ino len btime with
    | (m', .error e) => .ok (m', some e)
    | (m', .ok fsize) => if fsize ≠ len then fileXftruncate blksize shrink fuel m' ino len btime else .ok (m', none)

/-- `pfs_inode_release` of an open inode. -/
def inodeRelease (shrink : Nat) (m : Image) (ino btime : Nat) : Res :=
  match syncFirst (m.inode ino) btime (some .file) with
  | some .enoent => .ok (m, none)
  | some e => .ok (m, some e)
  | none =>
    if shrink ≤ (m.inode ino).size then .ok (m, some .eagain)
    else
      match inodephyRelease shrink m ino btime with
      | .ok (m', some .enoent) => .ok (m', none)
      | r => r

/-- `pfs_file_release`. -/
def fileRelease (blksize shrink : Nat) : Nat → Image → Nat → Nat → Res
  | 0, _, _, _ => .error .fuel
  | fuel + 1, m, ino, btime =>
    match syncFirst (m.inode ino) btime none with
    | some .enoent => .ok (m, none)
    | some e => .ok (m, some e)
    | none =>
      match fileXftruncate blksize shrink (fuel + 1) m ino 0 btime with
      | .error stop => .error stop
      | .ok (m', some .enoent) => .ok (m', none)
      | .ok (m', some .eagain) => fileRelease blksize shrink fuel m' ino btime
      | .ok (m', some e) => .ok (m', some e)
      | .ok (m', none) =>
        match inodeRelease shrink m' ino btime with
        | .ok (m'', some .eagain) => fileRelease blksize shrink fuel m'' ino btime
        | r => r

/-! ## Reclaiming -/

/-- `MAX_NLARGEORPHAN`. -/
def maxNlargeorphan : Nat := 128

/-- `orphan_largefile_arg_t`: the number of large orphans, and the first of them. -/
structure LargeOrphans where
  fcount : Nat
  array : List (Nat × Nat)
  deriving DecidableEq, Repr

def LargeOrphans.add (args : LargeOrphans) (ino btime : Nat) : LargeOrphans where
  fcount := args.fcount + 1
  array := if args.fcount < maxNlargeorphan then args.array ++ [(ino, btime)] else args.array

/-- `pfs_orphans_inode_reclaim`. -/
def orphansInodeReclaim (shrink : Nat) (r : Image × LargeOrphans) (ino : Nat) : Except Stop (Image × LargeOrphans) :=
  let phy := r.1.inode ino
  if phy.isOrphan then
    if phy.isLargeFile shrink then .ok (r.1, r.2.add ino phy.btime)
    else
      match inodephyRelease shrink r.1 ino phy.btime with
      | .ok (m', none) => .ok (m', r.2)
      -- `PFS_VERIFY(err >= 0)`
      | .ok (_, some _) => .error .verify
      | .error stop => .error stop
  else .ok r

/-- `pfs_meta_visit` of the inodes of all chunks. -/
def visitInodes (shrink : Nat) (m : Image) : Except Stop (Image × LargeOrphans) :=
  (List.range m.ninode).foldlM (orphansInodeReclaim shrink) (m, ⟨0, []⟩)

/-- The loop over the array; with the number of large orphans that are left. `pfs_file_release` does
its own retries. -/
def releaseLarge (blksize shrink fuel : Nat) :
    List (Nat × Nat) → Image → Nat → Except Stop ((Image × Nat) × Option Errno)
  | [], m, fcount => .ok ((m, fcount), none)
  | (ino, btime) :: rest, m, fcount =>
    if fcount = 0 then .ok ((m, fcount), none)
    else
      match fileRelease blksize shrink fuel m ino btime with
      | .error stop => .error stop
      | .ok (m', some e) => .ok ((m', fcount), some e)
      | .ok (m', none) => releaseLarge blksize shrink fuel rest m' (fcount - 1)

/-- The passes of `pfs_orphans_reclaim`. -/
def reclaimPasses (blksize shrink fuel : Nat) : Nat → Image → Res
  | 0, _ => .error .fuel
  | passes + 1, m =>
    match visitInodes shrink m with
    | .error stop => .error stop
    | .ok (m', args) =>
      match releaseLarge blksize shrink fuel args.array m' args.fcount with
      | .error stop => .error stop
      | .ok ((m'', _), some e) => .ok (m'', some e)
      | .ok ((m'', fcount), none) =>
        if fcount ≠ 0 then reclaimPasses blksize shrink fuel passes m'' else .ok (m'', none)

/-- `pfs_orphans_reclaim`. -/
def orphansReclaim (blksize shrink fuel : Nat) (m : Image) : Res := reclaimPasses blksize shrink fuel fuel m

/-! ## What reclaiming is for -/

/-- What removal leaves: an orphan has no link, and a directory was empty. -/
structure Image.Ok (m : Image) : Prop where
  nlink : ∀ i < m.ninode, (m.inode i).isOrphan = true → (m.inode i).nlink = 0
  empty : ∀ i < m.ninode, (m.inode i).isOrphan = true → (m.inode i).type ≠ .file → (m.inode i).kids = []

/-- No orphan is left, the blocks of the orphans are free, and nothing else has changed. -/
structure Reclaimed (m m' : Image) : Prop where
  ninode : m'.ninode = m.ninode
  no_orphan : ∀ i < m.ninode, (m'.inode i).isOrphan = false
  freed : ∀ i < m.ninode, (m.inode i).isOrphan = true → ∀ kid ∈ (m.inode i).kids, m'.btUsed kid.2 = false
  inodes : ∀ i, (m.inode i).isOrphan = false → m'.inode i = m.inode i
  blocks : ∀ b, (∀ i < m.ninode, (m.inode i).isOrphan = true → ∀ kid ∈ (m.inode i).kids, kid.2 ≠ b) →
    m'.btUsed b = m.btUsed b

/-- `pfs_orphans_reclaim` returns 0 and has reclaimed the orphans. -/
def ReclaimSucceeds (blksize shrink : Nat) (m : Image) : Prop :=
  ∃ n m', (∀ fuel, n ≤ fuel → orphansReclaim blksize shrink fuel m = .ok (m', none)) ∧ Reclaimed m m'

/-! ## The effect of a release -/

variable {i : Nat}

section Release

variable {m : Image} {shrink : Nat}

def PhyInode.hasBlk (phy : PhyInode) (b : Nat) : Bool := phy.kids.any fun kid => kid.2 == b

theorem freeBlktags_apply (kids : List (Nat × Nat)) (btUsed : Nat → Bool) (b : Nat) :
    freeBlktags btUsed kids b = (btUsed b && !kids.any fun kid => kid.2 == b) := by
  induction kids generalizing btUsed with
  | nil => simp [freeBlktags]
  | cons kid kids ih =>
    show freeBlktags (update btUsed kid.2 false) kids b = _
    rw [ih, List.any_cons]
    by_cases hb : b = kid.2
    · subst hb; simp
    · have hne : (kid.2 == b) = false := beq_eq_false_iff_ne.mpr (Ne.symm hb)
      rw [update_of_ne hb, hne, Bool.false_or]

@[simp] theorem PhyInode.fini_isOrphan (phy : PhyInode) : phy.fini.isOrphan = false := rfl

@[simp] theorem PhyInode.fini_fini (phy : PhyInode) : phy.fini.fini = phy.fini := rfl

theorem Image.release_inode (m : Image) (i j : Nat) :
    (m.release i).inode j = if j = i then (m.inode i).fini else m.inode j := by
  rw [release]
  by_cases h : j = i
  · subst h; rw [if_pos rfl]; exact update_self ..
  · rw [if_neg h]; exact update_of_ne h ..

theorem Image.release_btUsed (m : Image) (i b : Nat) : (m.release i).btUsed b = (m.btUsed b && !(m.inode i).hasBlk b) :=
  freeBlktags_apply (m.inode i).kids m.btUsed b

theorem foldl_release (l : List Nat) (m : Image) :
    (l.foldl release m).ninode = m.ninode ∧
      (∀ j, (l.foldl release m).inode j = if j ∈ l then (m.inode j).fini else m.inode j) ∧
      ∀ b, (l.foldl release m).btUsed b = (m.btUsed b && !l.any fun i => (m.inode i).hasBlk b) := by
  induction l generalizing m with
  | nil => simp
  | cons i l ih =>
    obtain ⟨hn, hino, hbt⟩ := ih (m.release i)
    refine ⟨hn, fun j => ?_, fun b => ?_⟩
    · rw [List.foldl_cons, hino, release_inode]
      by_cases hj : j = i
      · subst hj; simp
      · simp [hj]
    · rw [List.foldl_cons, hbt, release_btUsed, List.any_cons]
      cases hb : (m.inode i).hasBlk b with
      | true => simp
      | false =>
        -- an inode that comes twice has no block the second time, and none with this number before
        have hany : (l.any fun j => ((m.release i).inode j).hasBlk b) = l.any fun j => (m.inode j).hasBlk b := by
          refine List.any_congr rfl fun j => ?_
          rw [release_inode]
          split
          case isTrue hj => subst hj; rw [hb]; rfl
          case isFalse => rfl
        rw [hany]
        simp

/-- Reclaiming is releasing exactly the orphans. -/
theorem Reclaimed.of_foldl {l : List Nat} (hl : ∀ i, i ∈ l ↔ i < m.ninode ∧ (m.inode i).isOrphan = true) :
    Reclaimed m (l.foldl release m) := by
  obtain ⟨hn, hino, hbt⟩ := foldl_release l m
  refine ⟨hn, fun i hi => ?_, fun i hi horph kid hkid => ?_, fun i horph => ?_, fun b hb => ?_⟩
  · rw [hino]
    split
    · rfl
    case isFalse hmem =>
      rw [hl] at hmem
      simpa [hi] using hmem
  · rw [hbt]
    have : (l.any fun i => (m.inode i).hasBlk kid.2) = true :=
      List.any_eq_true.mpr ⟨i, (hl i).mpr ⟨hi, horph⟩, List.any_eq_true.mpr ⟨kid, hkid, beq_self_eq_true _⟩⟩
    rw [this]; simp
  · rw [hino, if_neg]
    rw [hl, horph]
    simp
  · rw [hbt]
    have : (l.any fun i => (m.inode i).hasBlk b) = false := by
      rw [List.any_eq_false]
      intro i hi hblk
      obtain ⟨kid, hkid, heq⟩ := List.any_eq_true.mp hblk
      exact hb i ((hl i).mp hi).1 ((hl i).mp hi).2 kid hkid (beq_iff_eq.mp heq)
    rw [this]; simp

theorem inodephyRelease_ok (htype : (m.inode i).type ≠ .none) (hnlink : (m.inode i).nlink = 0)
    (hsize : (m.inode i).type = .file → (m.inode i).size < shrink)
    (hempty : (m.inode i).type ≠ .file → (m.inode i).kids = []) :
    inodephyRelease shrink m i (m.inode i).btime = .ok (m.release i, none) := by
  unfold inodephyRelease
  dsimp only
  rw [if_neg htype, if_neg (not_not_intro rfl), if_neg (not_not_intro hnlink), if_neg, if_neg]
  · rintro ⟨hne, hkids⟩
    exact hkids (hempty hne)
  · rintro ⟨hfile, hle⟩
    have := hsize hfile
    omega

end Release

/-! ## The visit -/

section Visit

variable {m cur : Image} {shrink : Nat}

theorem PhyInode.isOrphan_type {phy : PhyInode} (h : phy.isOrphan = true) : phy.type ≠ .none := by
  simp only [isOrphan, Bool.and_eq_true, bne_iff_ne] at h
  exact h.1.1

theorem PhyInode.isLargeFile_iff {phy : PhyInode} : phy.isLargeFile shrink = true ↔ phy.type = .file ∧ shrink < phy.size := by
  simp [isLargeFile]

/-- The two tests of the source agree on the inode. -/
def PhyInode.OffBoundary (shrink : Nat) (phy : PhyInode) : Prop :=
  phy.isOrphan = true → phy.type = .file → phy.size ≠ shrink

instance (shrink : Nat) (phy : PhyInode) : Decidable (phy.OffBoundary shrink) :=
  inferInstanceAs (Decidable (_ → _ → _))

def PhyInode.isSmallOrphan (shrink : Nat) (phy : PhyInode) : Bool := phy.isOrphan && !phy.isLargeFile shrink

def PhyInode.isLargeOrphan (shrink : Nat) (phy : PhyInode) : Bool := phy.isOrphan && phy.isLargeFile shrink

theorem orphansInodeReclaim_eq (args : LargeOrphans) (hm : m.Ok) (hi : i < m.ninode) (hcur : cur.inode i = m.inode i)
    (hoff : (m.inode i).OffBoundary shrink) : orphansInodeReclaim shrink (cur, args) i =
      .ok (if (m.inode i).isSmallOrphan shrink then cur.release i else cur,
        if (m.inode i).isLargeOrphan shrink then args.add i (m.inode i).btime else args) := by
  unfold orphansInodeReclaim
  dsimp only
  rw [hcur, isSmallOrphan, isLargeOrphan]
  cases horph : (m.inode i).isOrphan with
  | false => simp
  | true =>
    cases hlarge : (m.inode i).isLargeFile shrink with
    | true => simp
    | false =>
      have hrel : inodephyRelease shrink cur i (cur.inode i).btime = .ok (cur.release i, none) := by
        refine inodephyRelease_ok ?_ ?_ ?_ ?_ <;> rw [hcur]
        · exact isOrphan_type horph
        · exact hm.nlink i hi horph
        · intro hfile
          have hne := hoff horph hfile
          have hle : ¬ (shrink < (m.inode i).size) := fun hlt => by
            rw [isLargeFile_iff.mpr ⟨hfile, hlt⟩] at hlarge
            cases hlarge
          omega
        · exact hm.empty i hi horph
      rw [hcur] at hrel
      simp [hrel]

/-- An orphan on the boundary is taken for a small one, and its release refused. -/
theorem orphansInodeReclaim_verify (args : LargeOrphans) (hm : m.Ok) (hi : i < m.ninode)
    (hcur : cur.inode i = m.inode i) (hoff : ¬ (m.inode i).OffBoundary shrink) :
    orphansInodeReclaim shrink (cur, args) i = .error .verify := by
  simp only [PhyInode.OffBoundary, Classical.not_imp, not_not] at hoff
  obtain ⟨horph, hfile, hsize⟩ := hoff
  have hlarge : (m.inode i).isLargeFile shrink = false := by
    rw [Bool.eq_false_iff, Ne, isLargeFile_iff, hsize]
    exact fun h => lt_irrefl _ h.2
  have hrel : inodephyRelease shrink cur i (m.inode i).btime = .ok (cur, some .eagain) := by
    unfold inodephyRelease
    dsimp only
    rw [hcur, if_neg (isOrphan_type horph), if_neg (not_not_intro rfl),
      if_neg (not_not_intro (hm.nlink i hi horph)), if_pos ⟨hfile, le_of_eq hsize.symm⟩]
  unfold orphansInodeReclaim
  dsimp only
  rw [hcur, horph, hlarge]
  simp [hrel]

/-- The visit of a list of inodes: the induction keeps that the inodes still to come are untouched. -/
theorem foldlM_orphansInodeReclaim (hm : m.Ok) (hoff : ∀ i < m.ninode, (m.inode i).OffBoundary shrink) :
    ∀ (l : List Nat) (cur : Image) (args : LargeOrphans), l.Nodup → (∀ i ∈ l, i < m.ninode ∧ cur.inode i = m.inode i) →
      l.foldlM (orphansInodeReclaim shrink) (cur, args) =
        .ok ((l.filter fun i => (m.inode i).isSmallOrphan shrink).foldl release cur,
          (l.filter fun i => (m.inode i).isLargeOrphan shrink).foldl (fun a i => a.add i (m.inode i).btime) args)
  | [], cur, args, _, _ => rfl
  | i :: l, cur, args, hnd, hcur => by
    obtain ⟨hi, hino⟩ := hcur i List.mem_cons_self
    rw [List.nodup_cons] at hnd
    rw [List.foldlM_cons, orphansInodeReclaim_eq args hm hi hino (hoff i hi), List.filter_cons, List.filter_cons]
    refine (foldlM_orphansInodeReclaim hm hoff l _ _ hnd.2 fun j hj => ?_).trans ?_
    · obtain ⟨hj', hjno⟩ := hcur j (List.mem_cons_of_mem i hj)
      refine ⟨hj', ?_⟩
      split
      · rw [release_inode, if_neg (ne_of_mem_of_not_mem hj hnd.1)]; exact hjno
      · exact hjno
    · split <;> split <;> rfl

theorem foldlM_orphansInodeReclaim_verify (hm : m.Ok) :
    ∀ (l : List Nat) (cur : Image) (args : LargeOrphans), l.Nodup → (∀ i ∈ l, i < m.ninode ∧ cur.inode i = m.inode i) →
      (∃ i ∈ l, ¬ (m.inode i).OffBoundary shrink) →
      l.foldlM (orphansInodeReclaim shrink) (cur, args) = .error .verify
  | [], _, _, _, _, h => by obtain ⟨i, hi, _⟩ := h; cases hi
  | i :: l, cur, args, hnd, hcur, h => by
    obtain ⟨hi, hino⟩ := hcur i List.mem_cons_self
    rw [List.nodup_cons] at hnd
    rw [List.foldlM_cons]
    by_cases hoff : (m.inode i).OffBoundary shrink
    · rw [orphansInodeReclaim_eq args hm hi hino hoff]
      refine foldlM_orphansInodeReclaim_verify hm l _ _ hnd.2 (fun j hj => ?_) ?_
      · obtain ⟨hj', hjno⟩ := hcur j (List.mem_cons_of_mem i hj)
        refine ⟨hj', ?_⟩
        split
        · rw [release_inode, if_neg (ne_of_mem_of_not_mem hj hnd.1)]; exact hjno
        · exact hjno
      · obtain ⟨j, hj, hjoff⟩ := h
        rcases List.mem_cons.mp hj with rfl | hj
        · exact absurd hoff hjoff
        · exact ⟨j, hj, hjoff⟩
    · rw [orphansInodeReclaim_verify args hm hi hino hoff]
      rfl

theorem foldl_add (btime : Nat → Nat) : ∀ (l : List Nat) (args : LargeOrphans),
    l.foldl (fun a i => a.add i (btime i)) args =
      ⟨args.fcount + l.length, args.array ++ (l.take (maxNlargeorphan - args.fcount)).map fun i => (i, btime i)⟩
  | [], args => by simp
  | i :: l, args => by
    rw [List.foldl_cons, foldl_add btime l, LargeOrphans.add]
    dsimp only
    rw [LargeOrphans.mk.injEq]
    refine ⟨by rw [List.length_cons]; omega, ?_⟩
    split
    case isTrue hlt =>
      obtain ⟨k, hk⟩ : ∃ k, maxNlargeorphan - args.fcount = k + 1 := ⟨maxNlargeorphan - args.fcount - 1, by omega⟩
      rw [hk, show maxNlargeorphan - (args.fcount + 1) = k by omega, List.take_succ_cons]
      simp
    case isFalse hge =>
      rw [show maxNlargeorphan - args.fcount = 0 by omega, show maxNlargeorphan - (args.fcount + 1) = 0 by omega]
      simp

def Image.smallOrphans (shrink : Nat) (m : Image) : List Nat :=
  (List.range m.ninode).filter fun i => (m.inode i).isSmallOrphan shrink

def Image.largeOrphans (shrink : Nat) (m : Image) : List Nat :=
  (List.range m.ninode).filter fun i => (m.inode i).isLargeOrphan shrink

/-- The visit releases the small orphans and lists the first large ones. -/
theorem visitInodes_eq (hm : m.Ok) (hoff : ∀ i < m.ninode, (m.inode i).OffBoundary shrink) :
    visitInodes shrink m = .ok ((m.smallOrphans shrink).foldl release m,
      ⟨(m.largeOrphans shrink).length, ((m.largeOrphans shrink).take maxNlargeorphan).map fun i => (i, (m.inode i).btime)⟩) := by
  rw [visitInodes, foldlM_orphansInodeReclaim hm hoff _ m _ List.nodup_range
    fun i hi => ⟨List.mem_range.mp hi, rfl⟩, foldl_add fun i => (m.inode i).btime]
  simp [smallOrphans, largeOrphans]

theorem visitInodes_verify (hm : m.Ok) (hi : i < m.ninode) (hoff : ¬ (m.inode i).OffBoundary shrink) :
    visitInodes shrink m = .error .verify :=
  foldlM_orphansInodeReclaim_verify hm _ m _ List.nodup_range (fun _ hj => ⟨List.mem_range.mp hj, rfl⟩)
    ⟨i, List.mem_range.mpr hi, hoff⟩

end Visit

/-! ## A large orphan -/

section Large

variable {m m' : Image} {blksize shrink i : Nat}

/-- A cut leaves an inode that is released to the same effect. -/
theorem Image.cut_spec (m : Image) (i from_ size : Nat) :
    (m.cut i from_ size).release i = m.release i ∧
      (m.cut i from_ size).inode i =
        { m.inode i with size := size, kids := (m.inode i).kids.filter fun kid => decide (kid.1 < from_) } := by
  have hino : (m.cut i from_ size).inode i =
      { m.inode i with size := size, kids := (m.inode i).kids.filter fun kid => decide (kid.1 < from_) } :=
    update_self ..
  refine ⟨?_, hino⟩
  have hinode : ((m.cut i from_ size).release i).inode = (m.release i).inode := by
    funext j
    rw [release_inode, release_inode, hino]
    by_cases hj : j = i
    · rw [if_pos hj, if_pos hj]; rfl
    · rw [if_neg hj, if_neg hj]; exact update_of_ne hj ..
  have hused : ((m.cut i from_ size).release i).btUsed = (m.release i).btUsed := by
    funext b
    rw [release_btUsed, release_btUsed, hino]
    have hcut : (m.cut i from_ size).btUsed b =
        (m.btUsed b && !((m.inode i).kids.filter fun kid => decide (from_ ≤ kid.1)).any fun kid => kid.2 == b) :=
      freeBlktags_apply _ _ b
    rw [hcut, Bool.and_assoc, ← Bool.not_or]
    -- a block tag is deleted now or later
    have hany : ((((m.inode i).kids.filter fun kid => decide (from_ ≤ kid.1)).any fun kid => kid.2 == b) ||
        hasBlk { m.inode i with
          size := size, kids := (m.inode i).kids.filter fun kid => decide (kid.1 < from_) } b) = (m.inode i).hasBlk b := by
      rw [hasBlk, hasBlk, Bool.eq_iff_iff]
      simp only [Bool.or_eq_true, List.any_eq_true, List.mem_filter, decide_eq_true_eq]
      constructor
      · rintro (⟨kid, ⟨hkid, _⟩, hb⟩ | ⟨kid, ⟨hkid, _⟩, hb⟩) <;> exact ⟨kid, hkid, hb⟩
      · rintro ⟨kid, hkid, hb⟩
        rcases Nat.lt_or_ge kid.1 from_ with hlt | hge
        · exact Or.inr ⟨kid, ⟨hkid, hlt⟩, hb⟩
        · exact Or.inl ⟨kid, ⟨hkid, hge⟩, hb⟩
    rw [hany]
  show mk .. = mk ..
  exact congrArg₂ (mk m.ninode) hinode hused

/-- The inode of a file that has been opened under its birth time. -/
theorem syncFirst_file {phy : PhyInode} (h : phy.type = .file) : syncFirst phy phy.btime (some .file) = none := by
  simp [syncFirst, h]

theorem fileTruncate_zero (blksize : Nat) (hs : 0 < shrink) (htype : (m.inode i).type = .file) :
    ∃ from_, fileTruncate blksize shrink m i 0 (m.inode i).btime =
      (m.cut i from_ ((m.inode i).size - shrink), .ok ((m.inode i).size - shrink)) ∧
        ((m.inode i).size ≤ shrink → from_ = 0) := by
  have hlen : (if 0 < shrink ∧ shrink < (m.inode i).size - 0 then (m.inode i).size - shrink else 0) =
      (m.inode i).size - shrink := by
    split <;> omega
  unfold fileTruncate
  dsimp only
  rw [syncFirst_file htype]
  dsimp only
  rw [hlen]
  exact ⟨_, rfl, fun hle => if_pos (by omega)⟩

/-- Truncation to nothing ends, after one round for each `file_shrink_size`; the induction is on the
rounds. -/
theorem fileXftruncate_eq (blksize : Nat) (hs : 0 < shrink) : ∀ (fuel : Nat) (m : Image) (btime : Nat), (m.inode i).type = .file →
    btime = (m.inode i).btime → (m.inode i).size < fuel →
      ∃ m', fileXftruncate blksize shrink fuel m i 0 btime = .ok (m', none) ∧ m'.release i = m.release i ∧
        m'.inode i = { m.inode i with size := 0, kids := [] }
  | 0, _, _, _, _, h => absurd h (Nat.not_lt_zero _)
  | fuel + 1, m, btime, htype, hbtime, hfuel => by
    subst hbtime
    obtain ⟨from_, htrunc, hfrom⟩ := fileTruncate_zero blksize hs htype
    obtain ⟨hrel, hino⟩ := cut_spec m i from_ ((m.inode i).size - shrink)
    rw [fileXftruncate, htrunc]
    dsimp only
    by_cases hmore : (m.inode i).size - shrink ≠ 0
    · rw [if_pos hmore]
      obtain ⟨m', h1, h2, h3⟩ := fileXftruncate_eq blksize hs fuel (m.cut i from_ ((m.inode i).size - shrink))
        (m.inode i).btime (by rw [hino]; exact htype) (by rw [hino]) (by rw [hino]; dsimp only; omega)
      exact ⟨m', h1, h2.trans hrel, by rw [h3, hino]⟩
    · rw [if_neg hmore]
      refine ⟨_, rfl, hrel, ?_⟩
      rw [hino, hfrom (by omega), not_not.mp hmore]
      simp

/-- The release of a file without links ends and is a plain release. -/
theorem fileRelease_eq (hs : 0 < shrink) {fuel : Nat} (htype : (m.inode i).type = .file)
    (hnlink : (m.inode i).nlink = 0) (hfuel : (m.inode i).size < fuel) :
    fileRelease blksize shrink fuel m i (m.inode i).btime = .ok (m.release i, none) := by
  obtain ⟨k, rfl⟩ : ∃ k, fuel = k + 1 := ⟨fuel - 1, by omega⟩
  obtain ⟨m', hcut, hrel, hino⟩ := fileXftruncate_eq blksize hs (k + 1) m _ htype rfl hfuel
  have hopen : syncFirst (m.inode i) (m.inode i).btime none = none := by simp [syncFirst, htype]
  have hbtime : (m'.inode i).btime = (m.inode i).btime := by rw [hino]
  have hsync : syncFirst (m'.inode i) (m.inode i).btime (some .file) = none := by
    rw [← hbtime]
    exact syncFirst_file (by rw [hino]; exact htype)
  have hphy : inodephyRelease shrink m' i (m.inode i).btime = .ok (m'.release i, none) := by
    rw [← hbtime]
    refine inodephyRelease_ok ?_ ?_ ?_ ?_ <;> rw [hino]
    · dsimp only; rw [htype]; simp
    · exact hnlink
    · exact fun _ => hs
    · exact fun _ => rfl
  have hinode : inodeRelease shrink m' i (m.inode i).btime = .ok (m.release i, none) := by
    rw [inodeRelease, hsync]
    dsimp only
    rw [if_neg (by rw [hino]; exact Nat.not_le.mpr hs), hphy, hrel]
  rw [fileRelease, hopen]
  dsimp only
  rw [hcut]
  dsimp only
  rw [hinode]

/-- The loop over the array releases the files in it. -/
theorem releaseLarge_eq (blksize fuel : Nat) (hs : 0 < shrink) :
    ∀ (l : List Nat) (m : Image) (btime : Nat → Nat) (fcount : Nat),
    l.Nodup → l.length ≤ fcount → (∀ j ∈ l, (m.inode j).type = .file ∧ (m.inode j).nlink = 0 ∧
      (m.inode j).size < fuel ∧ btime j = (m.inode j).btime) →
    releaseLarge blksize shrink fuel (l.map fun j => (j, btime j)) m fcount =
      .ok ((l.foldl release m, fcount - l.length), none)
  | [], m, btime, fcount, _, _, _ => by simp [releaseLarge]
  | j :: l, m, btime, fcount, hnd, hlen, hl => by
    obtain ⟨htype, hnlink, hfuel, hbtime⟩ := hl j List.mem_cons_self
    rw [List.nodup_cons] at hnd
    rw [List.length_cons] at hlen
    rw [List.map_cons, releaseLarge, if_neg (by omega), hbtime, fileRelease_eq hs htype hnlink hfuel]
    dsimp only
    rw [releaseLarge_eq blksize fuel hs l (m.release j) btime (fcount - 1) hnd.2 (by omega) fun k hk => ?_]
    · rw [List.length_cons, List.foldl_cons, Nat.sub_sub, Nat.add_comm 1]
    · rw [release_inode, if_neg (ne_of_mem_of_not_mem hk hnd.1)]
      exact hl k (List.mem_cons_of_mem j hk)

end Large

/-! ## The passes -/

section Passes

variable {m : Image} {blksize shrink bound : Nat}

theorem Image.mem_smallOrphans :
    i ∈ m.smallOrphans shrink ↔ i < m.ninode ∧ (m.inode i).isOrphan = true ∧ (m.inode i).isLargeFile shrink = false := by
  simp [smallOrphans, isSmallOrphan]

theorem Image.mem_largeOrphans :
    i ∈ m.largeOrphans shrink ↔ i < m.ninode ∧ (m.inode i).isOrphan = true ∧ (m.inode i).isLargeFile shrink = true := by
  simp [largeOrphans, isLargeOrphan]

/-- What a pass needs of the image; it holds of any image with fewer orphans. -/
structure Image.Ready (shrink bound : Nat) (m : Image) : Prop extends m.Ok where
  off : ∀ i < m.ninode, (m.inode i).OffBoundary shrink
  size : ∀ i < m.ninode, (m.inode i).size < bound

theorem Image.Ready.foldl_release (hm : m.Ready shrink bound) (l : List Nat) :
    (l.foldl release m).Ready shrink bound := by
  obtain ⟨hn, hino, _⟩ := Meta.foldl_release l m
  refine ⟨⟨?_, ?_⟩, ?_, ?_⟩ <;> intro i hi <;> rw [hn] at hi <;> rw [hino] <;> split
  · exact fun _ => rfl
  · exact hm.nlink i hi
  · exact fun _ _ => rfl
  · exact hm.empty i hi
  · exact fun horph => by cases horph
  · exact hm.off i hi
  · exact Nat.lt_of_le_of_lt (Nat.zero_le _) (hm.size i hi)
  · exact hm.size i hi

/-- One pass: the small orphans and the first large ones are released. -/
def Image.onePass (shrink : Nat) (m : Image) : List Nat :=
  m.smallOrphans shrink ++ (m.largeOrphans shrink).take maxNlargeorphan

theorem reclaimPasses_succ (hs : 0 < shrink) (hm : m.Ready shrink bound) {fuel : Nat} (hfuel : bound ≤ fuel)
    (passes : Nat) :
    reclaimPasses blksize shrink fuel (passes + 1) m =
      if (m.largeOrphans shrink).length ≤ maxNlargeorphan then .ok ((m.onePass shrink).foldl release m, none)
      else reclaimPasses blksize shrink fuel passes ((m.onePass shrink).foldl release m) := by
  have hlarge := releaseLarge_eq blksize fuel hs ((m.largeOrphans shrink).take maxNlargeorphan)
    ((m.smallOrphans shrink).foldl release m) (fun i => (m.inode i).btime) (m.largeOrphans shrink).length
    ((List.nodup_range.filter _).sublist (List.take_sublist ..)) (by rw [List.length_take]; omega) fun j hj => by
      obtain ⟨hlt, horph, hfile⟩ := mem_largeOrphans.mp (List.mem_of_mem_take hj)
      -- a large orphan is not among the small ones
      have hnot : j ∉ m.smallOrphans shrink := fun h => by
        rw [(mem_smallOrphans.mp h).2.2] at hfile
        cases hfile
      rw [(Meta.foldl_release _ m).2.1, if_neg hnot]
      exact ⟨(isLargeFile_iff.mp hfile).1, hm.nlink j hlt horph,
        lt_of_lt_of_le (hm.size j hlt) hfuel, rfl⟩
  rw [reclaimPasses, visitInodes_eq hm.toOk hm.off]
  dsimp only
  rw [hlarge]
  dsimp only
  rw [← List.foldl_append, List.length_take, onePass]
  by_cases hle : (m.largeOrphans shrink).length ≤ maxNlargeorphan
  · rw [if_pos hle, if_neg (by omega)]
  · rw [if_neg hle, if_pos (by omega)]

/-- A pass that leaves large orphans leaves fewer of them. -/
theorem length_largeOrphans_lt (m : Image) (shrink : Nat) (hlt : 0 < (m.largeOrphans shrink).length) :
    (((m.onePass shrink).foldl release m).largeOrphans shrink).length < (m.largeOrphans shrink).length := by
  obtain ⟨hn, hino, _⟩ := foldl_release (m.onePass shrink) m
  have heq : ((m.onePass shrink).foldl release m).largeOrphans shrink =
      (m.largeOrphans shrink).filter fun i => decide (i ∉ m.onePass shrink) := by
    rw [largeOrphans, largeOrphans, hn, List.filter_filter]
    refine List.filter_congr fun i _ => ?_
    rw [hino]
    by_cases hi : i ∈ m.onePass shrink
    · rw [if_pos hi]; simp [hi, isLargeOrphan]
    · rw [if_neg hi]; simp [hi]
  rw [heq, List.length_filter_lt_length_iff_exists]
  obtain ⟨i, rest, hcons⟩ := List.exists_cons_of_length_pos hlt
  refine ⟨i, by rw [hcons]; exact List.mem_cons_self, ?_⟩
  simp [onePass, hcons, maxNlargeorphan]

/-- Enough passes release exactly the orphans. -/
theorem reclaimPasses_eq (blksize : Nat) (hs : 0 < shrink) : ∀ (passes : Nat) (m : Image), m.Ready shrink bound →
    (m.largeOrphans shrink).length < passes →
      ∃ l : List Nat, (∀ i, i ∈ l ↔ i < m.ninode ∧ (m.inode i).isOrphan = true) ∧
        ∀ fuel n, bound ≤ fuel → passes ≤ n →
          reclaimPasses blksize shrink fuel n m = .ok (l.foldl release m, none)
  | 0, _, _, h => absurd h (Nat.not_lt_zero _)
  | passes + 1, m, hm, hlen => by
    obtain ⟨hn, hino, _⟩ := foldl_release (m.onePass shrink) m
    have hpass : ∀ i ∈ m.onePass shrink, i < m.ninode ∧ (m.inode i).isOrphan = true := by
      intro i hi
      rcases List.mem_append.mp hi with hi | hi
      · have := mem_smallOrphans.mp hi; exact ⟨this.1, this.2.1⟩
      · have := mem_largeOrphans.mp (List.mem_of_mem_take hi); exact ⟨this.1, this.2.1⟩
    by_cases hle : (m.largeOrphans shrink).length ≤ maxNlargeorphan
    · refine ⟨m.onePass shrink, fun i => ⟨hpass i, fun ⟨hi, horph⟩ => ?_⟩, fun fuel n hfuel hn => ?_⟩
      · rw [onePass, List.take_of_length_le hle, List.mem_append]
        cases hlarge : (m.inode i).isLargeFile shrink with
        | true => exact Or.inr (mem_largeOrphans.mpr ⟨hi, horph, hlarge⟩)
        | false => exact Or.inl (mem_smallOrphans.mpr ⟨hi, horph, hlarge⟩)
      · obtain ⟨k, rfl⟩ : ∃ k, n = k + 1 := ⟨n - 1, by omega⟩
        rw [reclaimPasses_succ hs hm hfuel, if_pos hle]
    · have hlt := length_largeOrphans_lt m shrink (by omega)
      obtain ⟨l, hl, hrest⟩ := reclaimPasses_eq blksize hs passes _ (hm.foldl_release (m.onePass shrink)) (by omega)
      refine ⟨m.onePass shrink ++ l, fun i => ?_, fun fuel n hfuel hn => ?_⟩
      · rw [List.mem_append, hl, hn, hino]
        by_cases hi : i ∈ m.onePass shrink
        · simp [hi, hpass i hi]
        · simp [hi]
      · obtain ⟨k, rfl⟩ : ∃ k, n = k + 1 := ⟨n - 1, by omega⟩
        rw [reclaimPasses_succ hs hm hfuel, if_neg hle, hrest fuel k hfuel (by omega), List.foldl_append]

end Passes

/-- A removed file of `size` bytes with one block, next to a directory in use. -/
def oneOrphan (size : Nat) : Image where
  ninode := 2
  inode i := if i = 1 then ⟨true, .file, none, 0, size, 7, [(0, 5)]⟩ else ⟨true, .dir, some 0, 1, 0, 3, []⟩
  btUsed b := b == 5 || b == 6

theorem oneOrphan_ok (size : Nat) : (oneOrphan size).Ok := by
  constructor
  · intro i hi horph
    obtain rfl | rfl : i = 0 ∨ i = 1 := by have : i < 2 := hi; omega
    · cases horph
    · rfl
  · intro i hi horph htype
    obtain rfl | rfl : i = 0 ∨ i = 1 := by have : i < 2 := hi; omega
    · rfl
    · exact absurd rfl htype

end PolarFs.Meta
