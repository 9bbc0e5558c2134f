/-
Reading, writing, truncating and allocating a file (`pfs_file.cc`), on a file system with
`PFS_FEATURE_BLKHOLE`: the unwritten end of each block is a hole that reads as zeros without being on
the device. Truncation widens holes, the first write into one fills the rest of the block with zeros,
and a new block is one hole, whatever bytes it holds.

Calls run one after the other. The inode lock, the transaction around a call and all of a block tag
but the block id are left out.
-/
import PolarFs.Lib.Transition
import PolarFs.File.BlkIo
import PolarFs.File.BlkTable
import Mathlib.Data.UInt

namespace PolarFs.File

open Bytes Transition

/-- The inode of a file in memory: the block index, the block id in each of its block tags, the size.
With it goes the device. -/
structure Inode where
  blks : BlkTables
  btBlkid : Nat → Option Nat
  size : Nat
  dev : Device

def Geometry.fblkid (g : Geometry) (off : Nat) : Nat := off / g.blksize

def Geometry.fblkoff (g : Geometry) (off : Nat) : Nat := off % g.blksize

theorem Geometry.fblkoff_lt (g : Geometry) (off : Nat) : g.fblkoff off < g.blksize := Nat.mod_lt _ g.blk_pos

/-! ## The inode -/

section Inode

variable (g : Geometry) (f : Inode)

/-- `pfs_inode_map`: the device block of a file block, 0 if there is none, and where its hole begins. -/
def Inode.map (blkid : Nat) : Except FileErr (Nat × Nat) :=
  (f.blks.getBlk blkid).map fun
    | some d => (d.blkno, d.hole)
    | none => (0, 0)

/-- `pfs_inode_add` of a block that `pfs_meta_alloc_blktag` takes from the free ones. -/
def Inode.add (blkid : Nat) : List Nat → Except FileErr (Inode × List Nat)
  | [] => .error .enospc
  | blkno :: free =>
    .ok ({ f with
      blks := f.blks.addBlk blkid ⟨blkno, 0, g.blksize⟩
      btBlkid := Function.update f.btBlkid blkno (some blkid) }, free)

/-- `pfs_inode_del`: the entry that goes is the one the block tag names. -/
def Inode.del (d : Dblk) : Except FileErr Inode :=
  match f.btBlkid d.blkno with
  | none => .error .undefined
  | some blkid =>
    (f.blks.removeBlk blkid).map fun t => { f with blks := t, btBlkid := Function.update f.btBlkid d.blkno none }

/-- One round of `pfs_inode_del_from`. -/
def Inode.delOne (blkid : Nat) : Except FileErr Inode :=
  match f.blks.getBlk blkid with
  | .error e => .error e
  | .ok none => .ok f
  | .ok (some d) => if d.empty then .ok f else f.del d

/-- The inner loop of `pfs_inode_del_from`: `n` block ids from `blkid` on. -/
def Inode.delVec : Nat → Nat → Inode → Except FileErr Inode
  | 0, _, f => .ok f
  | n + 1, blkid, f => do
    let f ← f.delOne blkid
    Inode.delVec n (blkid + 1) f

/-- The outer loop, over at most `n` tables. -/
def Inode.delTables : Nat → Nat → Nat → Inode → Except FileErr Inode
  | 0, _, _, f => .ok f
  | n + 1, tableIdx, blkid, f =>
    if tableIdx < f.blks.nsoft then do
      let f ← Inode.delVec (16 - blkid % 16) blkid f
      Inode.delTables n (tableIdx + 1) (blkid + (16 - blkid % 16)) f
    else .ok f

/-- `pfs_inode_del_from`. -/
def Inode.delFrom (blkid : Nat) : Except FileErr Inode := Inode.delTables f.blks.nsoft (blkTableIdx blkid) blkid f

/-- `pfs_inode_expand_dblk_hole`, `pfs_inode_shrink_dblk_hole` and `pfs_inode_writemodify_shrink_dblk_hole`. -/
def Inode.setHole (blkid off len : Nat) : Except FileErr Inode :=
  (f.blks.changeBlk blkid off len).map fun t => { f with blks := t }

end Inode

/-! ## The calls -/

section Calls

variable (g : Geometry)

/-- The loop of `pfs_file_read`, with `left` bytes to read. -/
def Inode.readLoop (f : Inode) (offset left : Nat) : Except FileErr (List UInt8) :=
  if _h : left = 0 then .ok []
  else do
    let (dblkno, dbhoff) ← f.map (g.fblkid offset)
    if dblkno = 0 ∧ f.size < offset + left then .error .eagain
    else if _hole : dbhoff ≤ g.fblkoff offset then
      let rlen := min (g.blksize - g.fblkoff offset) left
      let rest ← f.readLoop (offset + rlen) (left - rlen)
      .ok (List.replicate rlen 0 ++ rest)
    else
      let rlen := min (min dbhoff g.blksize - g.fblkoff offset) left
      let rest ← f.readLoop (offset + rlen) (left - rlen)
      .ok (blkioRead g f.dev dblkno (g.fblkoff offset) rlen ++ rest)
termination_by left
decreasing_by
  all_goals have := g.fblkoff_lt offset; omega

/-- `pfs_file_read`; the end of the range is compared as an `ssize_t`. -/
def Inode.read (f : Inode) (len offset : Nat) : Except FileErr (List UInt8) :=
  let len :=
    if f.size ≤ offset then 0
    else if (f.size : Int) ≤ Int.bmod (offset + len : Nat) (2 ^ 64) then f.size - offset
    else len
  f.readLoop g offset len

/-- One round of the loop of `pfs_file_write`: `data` goes into one block. A write that reaches into
the hole fills the block, the gap before it and the rest behind it with zeros. -/
def Inode.writePiece (f : Inode) (blkid dblkno dbhoff blkoff : Nat) (data : List UInt8) : Except FileErr Inode :=
  if dbhoff < g.blksize ∧ dbhoff < blkoff + data.length then do
    let f ← f.setHole blkid g.blksize 0
    let dev := if dbhoff < blkoff then blkioWrite g f.dev dblkno dbhoff (List.replicate (blkoff - dbhoff) 0) else f.dev
    let dev := blkioWrite g dev dblkno blkoff data
    let dev :=
      if blkoff + data.length < g.blksize then
        blkioWrite g dev dblkno (blkoff + data.length) (List.replicate (g.blksize - blkoff - data.length) 0)
      else dev
    .ok { f with dev := dev }
  else .ok { f with dev := blkioWrite g f.dev dblkno blkoff data }

/-- The loop of `pfs_file_write`; `sizeinc` is what `pfs_inode_writemodify_increment_size` recorded. -/
def Inode.writeLoop (fsize : Nat) (f : Inode) (offset sizeinc : Nat) (data : List UInt8) : Except FileErr (Inode × Nat) :=
  if _h : data = [] then .ok (f, sizeinc)
  else do
    let (dblkno, dbhoff) ← f.map (g.fblkid offset)
    if dblkno = 0 then .error .eagain
    else
      let wlen := min (g.blksize - g.fblkoff offset) data.length
      let f ← f.writePiece g (g.fblkid offset) dblkno dbhoff (g.fblkoff offset) (data.take wlen)
      let sizeinc := if fsize < offset + wlen then offset + wlen - fsize else sizeinc
      Inode.writeLoop fsize f (offset + wlen) sizeinc (data.drop wlen)
termination_by data.length
decreasing_by
  have := g.fblkoff_lt offset
  have := List.length_pos_iff.mpr _h
  rw [List.length_drop]
  omega

/-- `pfs_file_write` and `pfs_inode_writemodify_commit`; no offset is `OFFSET_FILE_SIZE`. -/
def Inode.write (f : Inode) (data : List UInt8) (off : Option Nat) : Except FileErr Inode := do
  let (f', sizeinc) ← Inode.writeLoop g f.size f (off.getD f.size) 0 data
  .ok { f' with size := f'.size + sizeinc }

/-- The hole of the last block of a file that shrinks to `len` is slid to the left. -/
def Inode.slideHole (f : Inode) (len : Nat) : Except FileErr Inode := do
  let (dblkno, dbhoff) ← f.map (g.fblkid (len - 1))
  if 0 < dblkno ∧ len < f.size ∧ 0 < g.fblkoff len ∧ g.fblkoff len < dbhoff then
    f.setHole (g.fblkid (len - 1)) (g.fblkoff len) (g.blksize - g.fblkoff len)
  else .ok f

/-- `pfs_file_truncate` to a size within the limit; the blocks behind the last one are deleted. -/
def Inode.truncateTo (f : Inode) (len : Nat) : Except FileErr Inode := do
  let f ← if len = 0 then f.delFrom 0 else f.slideHole g len >>= fun f => f.delFrom (g.fblkid (len - 1) + 1)
  .ok { f with size := len }

/-- A call of `pfs_file_truncate` shrinks a file by `file_shrink_size` at most. -/
def shrinkLen (shrinksize fsize len : Nat) : Nat :=
  if 0 < shrinksize ∧ shrinksize < fsize - len then fsize - shrinksize else len

/-- `pfs_file_truncate`: the file and the size it has now. -/
def Inode.truncate (f : Inode) (shrinksize len : Nat) : Except FileErr (Inode × Nat) :=
  let len := shrinkLen shrinksize f.size len
  (f.truncateTo g len).map fun f => (f, len)

/-- The block of one round of `pfs_file_allocate`, added if there is none; with `FALLOC_FL_NO_HIDE_STALE` a new
block has no hole. -/
def Inode.allocBlk (stale : Bool) (f : Inode) (blkid : Nat) (free : List Nat) : Except FileErr (Inode × List Nat) := do
  let (dblkno, _) ← f.map blkid
  if dblkno = 0 then
    if stale then f.add g blkid free >>= fun (f, free) => (f.setHole blkid g.blksize 0).map fun f => (f, free)
    else f.add g blkid free
  else .ok (f, free)

/-- The loop of `pfs_file_allocate`: the file and its new size. -/
def Inode.allocLoop (stale : Bool) (f : Inode) (offset left fsize : Nat) (free : List Nat) :
    Except FileErr (Inode × Nat) :=
  if _h : left = 0 then .ok (f, fsize)
  else do
    let (f, free) ← f.allocBlk g stale (g.fblkid offset) free
    let alen := min (g.blksize - g.fblkoff offset) left
    let fsize := if fsize < offset + alen then offset + alen else fsize
    Inode.allocLoop stale f (offset + alen) (left - alen) fsize free
termination_by left
decreasing_by
  have := g.fblkoff_lt offset
  omega

/-- `pfs_file_allocate`, with its two flags; `free` are the blocks it gets. -/
def Inode.allocate (stale : Bool) (f : Inode) (off : Option Nat) (len : Nat) (keepSize : Bool) (free : List Nat) :
    Except FileErr Inode := do
  let (f', fsize) ← Inode.allocLoop g stale f (off.getD f.size) len f.size free
  .ok (if !keepSize ∧ f.size < fsize then { f' with size := fsize } else f')

end Calls

/-! ## Sequences of calls -/

/-- A file and the byte array it stands for. -/
structure Traced where
  file : Inode
  posix : ByteFile UInt8

inductive FileEvent where
  | write (data : List UInt8) (off : Option Nat)
  | truncate (shrinksize len : Nat)
  /-- without `FALLOC_FL_NO_HIDE_STALE` -/
  | allocate (off : Option Nat) (len : Nat) (keepSize : Bool) (free : List Nat)
  /-- someone else writes a block that is not in this file -/
  | other (blkno : Nat) (bytes : Nat → UInt8)

/-- The blocks that an allocation gets are free, each once. -/
def Traced.allocate (g : Geometry) (s : Traced) (stale : Bool) (off : Option Nat) (len : Nat) (keepSize : Bool)
    (free : List Nat) : Option Traced :=
  if free.Nodup ∧ ∀ b ∈ free, b ≠ 0 ∧ s.file.btBlkid b = none then
    match s.file.allocate g stale off len keepSize free with
    | .ok f => some ⟨f, if keepSize || len == 0 then s.posix else s.posix.grow (off.getD s.posix.size + len)⟩
    | .error _ => none
  else none

/-- One successful call. -/
def Traced.step (g : Geometry) (s : Traced) : FileEvent → Option Traced
  | .write data off =>
    match s.file.write g data off with
    | .ok f => some ⟨f, s.posix.write (off.getD s.posix.size) data⟩
    | .error _ => none
  | .truncate shrinksize len =>
    match s.file.truncate g shrinksize len with
    | .ok (f, size) => some ⟨f, s.posix.truncate size⟩
    | .error _ => none
  | .allocate off len keepSize free => s.allocate g false off len keepSize free
  | .other blkno bytes =>
    if s.file.btBlkid blkno = none then
      some { s with file := { s.file with
        dev := fun a => if a / g.blksize = blkno then bytes (a % g.blksize) else s.file.dev a } }
    else none

/-- A file just created, on a device with any contents. -/
def fileSystem (g : Geometry) : System Traced FileEvent where
  init s := s.file.blks = BlkTables.init ∧ s.file.btBlkid = (fun _ => none) ∧ s.file.size = 0 ∧ s.posix = ByteFile.empty
  step := Traced.step g

end PolarFs.File
