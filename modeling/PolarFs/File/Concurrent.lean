/-
Calls on files that run at the same time on a read-write node (`pfs_file.cc`, `pfs_inode.cc`), on a
file system with `PFS_FEATURE_BLKHOLE`. A section under the inode lock, a device IO and the end of a
transaction are one step each: reads and writes look a block up under the lock and do the device IO
without it; what holds others back meanwhile is `pfs_inode_sync_impl`.

A transaction keeps the metadata lock to its end, so at most one is open, and no stale inode is
reloaded while one is. The counters and the second size that mark an inode as changed by an open
transaction are the name of the inode in the transaction here. Replay of other nodes' transactions,
device errors and `FALLOC_FL_NO_HIDE_STALE` are left out; the block index is a map.

A byte on the device is stored with the file it was written for. That, the record of where writes
have landed and what a reader has been shown are there for the statements only.
-/
import PolarFs.File.Content

namespace PolarFs.File

open Transition
open Function (update)

/-- A file: an inode number can be used again, at another creation time. -/
structure FileId where
  ino : Nat
  btime : Nat
  deriving DecidableEq

/-- A byte of the device and the file it was written for. -/
structure Cell where
  val : UInt8
  file : Option FileId
  deriving DecidableEq

/-! ## Metadata -/

/-- `pfs_inode_phy_t` of a file with its list of block tags, by block id. -/
structure PhyInode where
  btime : Nat
  size : Nat
  blks : Nat → Dblk

/-- The inodes in use, and of each block tag in use the inode and the block id. -/
structure MetaData where
  inode : Nat → Option PhyInode
  bt : Nat → Option (Nat × Nat)

namespace MetaData

variable (v : MetaData)

/-- The file that a device block belongs to. -/
def owner (blkno : Nat) : Option FileId :=
  (v.bt blkno).bind fun tag => (v.inode tag.1).map fun p => ⟨tag.1, p.btime⟩

def setInode (ino : Nat) (p : Option PhyInode) : MetaData := { v with inode := update v.inode ino p }

/-- The block tags of an inode from a block id on are freed. -/
def freeFrom (ino blkid : Nat) : MetaData :=
  { v with bt := fun b => (v.bt b).filter fun tag => !(tag.1 == ino && decide (blkid ≤ tag.2)) }

end MetaData

/-- A write transaction after its section: the inode it is about and the metadata as it sees them;
`failed` if its caller ends it with an error. -/
structure Tx where
  ino : Nat
  view : MetaData
  failed : Bool

/-! ## Inodes in memory -/

/-- `pfs_writemodify_t` in progress: the entries whose hole was filled, with their block ids. -/
structure WriteModify (n : Nat) where
  dblkv : List (Nat × Dblk)
  sizeinc : Nat
  thread : Fin n

/-- `pfs_inode_t`. -/
structure MemInode (n : Nat) where
  btime : Nat
  size : Nat
  blks : Nat → Dblk
  wm : Option (WriteModify n)
  stale : Bool

variable {n : Nat}

/-- `pfs_inode_load`. -/
def PhyInode.load (p : PhyInode) : MemInode n := ⟨p.btime, p.size, p.blks, none, false⟩

/-- `pfs_inode_writemodify_shrink_dblk_hole` to no hole. -/
def MemInode.fillHole (m : MemInode n) (t : Fin n) (blksize blkid : Nat) : MemInode n :=
  let d := (m.blks blkid).change blksize 0
  { m with
    blks := update m.blks blkid d
    wm := some ⟨m.wm.elim [] (·.dblkv) ++ [(blkid, d)], m.wm.elim 0 (·.sizeinc), t⟩ }

/-- `pfs_inode_writemodify_increment_size`. -/
def MemInode.incrementSize (m : MemInode n) (t : Fin n) (sizeinc : Nat) : MemInode n :=
  { m with wm := some ⟨m.wm.elim [] (·.dblkv), sizeinc, t⟩ }

/-- What `pfs_file_write` does about the size for a piece that ends at `fin`. -/
def MemInode.reach (m : MemInode n) (t : Fin n) (fsize fin : Nat) : MemInode n :=
  if fsize < fin then m.incrementSize t (fin - fsize) else m

/-! ## Calls -/

/-- A device IO on `len` bytes of the block `blkno`, which was looked up as block `blkid` of a file. -/
structure Io where
  blkid : Nat
  blkno : Nat
  blkoff : Nat
  len : Nat

/-- `pfs_file_write`: `data` is what is left to write; no offset is `OFFSET_FILE_SIZE`. -/
structure WriteCall where
  file : FileId
  offset : Option Nat
  fsize : Nat
  data : List UInt8
  first : Bool

/-- `pfs_file_read` from `start`: the bytes it has read and how many are left. -/
structure ReadCall where
  file : FileId
  start : Nat
  left : Nat
  acc : List UInt8
  first : Bool

def ReadCall.offset (r : ReadCall) : Nat := r.start + r.acc.length

/-- What a thread is doing. -/
inductive Call where
  | idle
  /-- in `pfs_file_write`, about to take the inode lock -/
  | write (w : WriteCall)
  /-- in `pfs_blkio_write` for the piece in front of `w.data`, without the inode lock -/
  | writing (w : WriteCall) (data : List UInt8) (io : Io)
  /-- behind `pfs_file_write` in `pfs_file_xpwrite` -/
  | flush (ino : Nat) (failed : Bool)
  | read (r : ReadCall)
  /-- in `pfs_blkio_read`, without the inode lock -/
  | reading (r : ReadCall) (io : Io)
  /-- `pfs_file_read` has returned its bytes -/
  | returned (r : ReadCall)

/-- The device IO a call has issued, and the file it is for. -/
def Call.inFlight : Call → Option (FileId × Io)
  | .writing w _ io => some (w.file, io)
  | .reading r io => some (r.file, io)
  | _ => none

/-- The read call of a thread. -/
def Call.reader : Call → Option ReadCall
  | .read r | .reading r _ | .returned r => some r
  | _ => none

/-! ## The node -/

/-- A data write that has reached the device: the file it was for, and the file the block belonged to
then. -/
structure Landing where
  file : FileId
  owner : Option FileId

structure Node (n : Nat) where
  disk : MetaData
  tx : Option Tx
  mem : Nat → MemInode n
  dev : Nat → Nat → Cell
  calls : Fin n → Call
  born : List FileId
  landed : List Landing

/-- `pfs_blkio_write` on behalf of a file. -/
def blkioPut (dev : Nat → Nat → Cell) (f : FileId) (blkno off len : Nat) (byte : Nat → UInt8) : Nat → Nat → Cell :=
  fun b o => if b = blkno ∧ off ≤ o ∧ o < off + len then ⟨byte (o - off), some f⟩ else dev b o

namespace Node

variable (g : Geometry) (shrinksize : Nat) (s : Node n)

/-- The metadata as the open transaction sees them. -/
def view : MetaData := s.tx.elim s.disk (·.view)

def setMem (ino : Nat) (m : MemInode n) : Node n := { s with mem := update s.mem ino m }

def setCall (t : Fin n) (c : Call) : Node n := { s with calls := update s.calls t c }

/-- `pfs_inode_sync_impl` waits for an open transaction on the inode, for another thread's write modify,
and for the metadata lock if it has to reload, which is an error but on the first sync of a call. -/
def sync (t : Fin n) (f : FileId) (first : Bool) : Option (Node n × Bool) :=
  let m := s.mem f.ino
  if s.tx.any (·.ino == f.ino) || m.wm.any (·.thread != t) then none
  else if m.stale then
    if s.tx.isSome then none
    else
      match s.disk.inode f.ino with
      | none => some (s.setMem f.ino { m with wm := none, blks := fun _ => zerodblk }, false)
      | some p => some (s.setMem f.ino p.load, p.btime == f.btime && first)
  else some (s, m.btime == f.btime)

/-- A piece of `pfs_file_write` that reaches into the hole of its block: the rest of the block is
written with zeros around the data. The inode lock is held. -/
def writeHole (t : Fin n) (f : FileId) (blkid blkoff : Nat) (data : List UInt8) (fsize fin : Nat) : Node n :=
  let m := s.mem f.ino
  let d := m.blks blkid
  let dev := if d.hole < blkoff then blkioPut s.dev f d.blkno d.hole (blkoff - d.hole) fun _ => 0 else s.dev
  let dev := blkioPut dev f d.blkno blkoff data.length fun j => data.getD j 0
  let dev := blkioPut dev f d.blkno (blkoff + data.length) (g.blksize - (blkoff + data.length)) fun _ => 0
  { s.setMem f.ino ((m.fillHole t g.blksize blkid).reach t fsize fin) with
    dev := dev
    landed := ⟨f, s.disk.owner d.blkno⟩ :: s.landed }

/-- One round of the loop of `pfs_file_write`, up to the device IO. -/
def writeRound (t : Fin n) (w : WriteCall) : Node n :=
  let m := s.mem w.file.ino
  let fsize := if w.first then m.size else w.fsize
  let offset := w.offset.getD fsize
  let blkid := g.fblkid offset
  let blkoff := g.fblkoff offset
  let d := m.blks blkid
  if w.data = [] then s.setCall t (.flush w.file.ino false)
  else if d.blkno = 0 then s.setCall t (.flush w.file.ino true)
  else
    let wlen := min (g.blksize - blkoff) w.data.length
    let w' := { w with offset := some (offset + wlen), fsize := fsize, data := w.data.drop wlen, first := false }
    if d.hole < g.blksize ∧ d.hole < blkoff + wlen then
      (s.writeHole g t w.file blkid blkoff (w.data.take wlen) fsize (offset + wlen)).setCall t (.write w')
    else
      (s.setMem w.file.ino (m.reach t fsize (offset + wlen))).setCall t
        (.writing w' (w.data.take wlen) ⟨blkid, d.blkno, blkoff, wlen⟩)

/-- The range that `pfs_file_read` reads; its end is compared as an `ssize_t`. -/
def readLen (size start len : Nat) : Nat :=
  if size ≤ start then 0
  else if (size : Int) ≤ Int.bmod (start + len : Nat) (2 ^ 64) then size - start
  else len

/-- `pfs_file_read` goes on behind a piece: to the next one, or it returns without another sync. -/
def readNext (t : Fin n) (r : ReadCall) (bytes : List UInt8) : Node n :=
  let r := { r with acc := r.acc ++ bytes, left := r.left - bytes.length, first := false }
  s.setCall t (if r.left = 0 then .returned r else .read r)

/-- One round of the loop of `pfs_file_read`, up to the device IO. -/
def readRound (t : Fin n) (r : ReadCall) : Node n :=
  let m := s.mem r.file.ino
  let left := if r.first then readLen m.size r.start r.left else r.left
  let r' := { r with left := left, first := false }
  let blkoff := g.fblkoff r.offset
  let d := m.blks (g.fblkid r.offset)
  if left = 0 then s.setCall t (.returned r')
  else if d.blkno = 0 ∧ m.size < r.offset + left then s.setCall t .idle
  else if d.hole ≤ blkoff then s.readNext t r' (List.replicate (min (g.blksize - blkoff) left) 0)
  else s.setCall t (.reading r' ⟨g.fblkid r.offset, d.blkno, blkoff, min (min d.hole g.blksize - blkoff) left⟩)

/-- A section under the inode lock of `pfs_file_read` or `pfs_file_write`. -/
def roundStep (t : Fin n) : Option (Node n) :=
  match s.calls t with
  | .write w =>
    (s.sync t w.file w.first).map fun
      | (s, true) => s.writeRound g t w
      | (s, false) => s.setCall t (.flush w.file.ino true)
  | .read r =>
    (s.sync t r.file r.first).map fun
      | (s, true) => s.readRound g t r
      | (s, false) => s.setCall t .idle
  | _ => none

/-- The device IO of a call. -/
def ioStep (t : Fin n) : Option (Node n) :=
  match s.calls t with
  | .writing w data io =>
    some { s.setCall t (.write w) with
      dev := blkioPut s.dev w.file io.blkno io.blkoff io.len fun j => data.getD j 0
      landed := ⟨w.file, s.disk.owner io.blkno⟩ :: s.landed }
  | .reading r io =>
    some (s.readNext t r ((List.range io.len).map fun j => (s.dev io.blkno (io.blkoff + j)).val))
  | _ => none

/-- `pfs_inode_phy_check`. -/
def phyCheck (ino : Nat) : Option PhyInode :=
  (s.disk.inode ino).filter fun p => p.btime == (s.mem ino).btime && !(s.mem ino).stale

/-- The rest of `pfs_file_xpwrite`: `pfs_inode_writemodify_commit` in a transaction. -/
def flushStep (t : Fin n) : Option (Node n) :=
  match s.calls t with
  | .flush ino failed =>
    let m := s.mem ino
    match m.wm with
    | none => some (s.setCall t .idle)
    | some wm =>
      if wm.thread ≠ t then some (s.setCall t .idle)
      else if s.tx.isSome then none
      else
        match s.phyCheck ino with
        | none => some ((s.setMem ino { m with wm := none, stale := true }).setCall t .idle)
        | some p =>
          let blks := wm.dblkv.foldl (fun blks kd => update blks kd.1 kd.2) p.blks
          some { (s.setMem ino { m with wm := none, size := m.size + wm.sizeinc }).setCall t .idle with
            tx := some ⟨ino, s.disk.setInode ino (some ⟨p.btime, p.size + wm.sizeinc, blks⟩), failed⟩ }
  | _ => none

/-! ## Calls that change the metadata -/

/-- A call in a transaction of its own: after the first sync, `body` changes the inode in memory and
the metadata. -/
def inTx (t : Fin n) (f : FileId) (body : MemInode n → PhyInode → MetaData → Option (MemInode n × MetaData)) :
    Option (Node n) :=
  match s.calls t with
  | .idle =>
    if s.tx.isSome then none
    else
      (s.sync t f true).bind fun
        | (s, false) => some s
        | (s, true) =>
          match s.phyCheck f.ino with
          | none => some s
          | some p =>
            (body (s.mem f.ino) p s.disk).map fun r => { s.setMem f.ino r.1 with tx := some ⟨f.ino, r.2, false⟩ }
  | _ => none

/-- The entries that `pfs_file_truncate` to `len` leaves: those of the first `keep` blocks, the hole of
the last of them slid to the left if `slide`. -/
def cut (len keep : Nat) (slide : Bool) (blks : Nat → Dblk) (blkid : Nat) : Dblk :=
  if keep ≤ blkid then zerodblk
  else if slide ∧ blkid + 1 = keep then (blks blkid).change (g.fblkoff len) (g.blksize - g.fblkoff len)
  else blks blkid

/-- `lastblkid + 1`. -/
def keptBlks (len : Nat) : Nat := if len = 0 then 0 else g.fblkid (len - 1) + 1

/-- `pfs_file_truncate`. -/
def truncate (f : FileId) (len : Nat) (m : MemInode n) (p : PhyInode) (v : MetaData) : Option (MemInode n × MetaData) :=
  let len := shrinkLen shrinksize m.size len
  let keep := keptBlks g len
  let d := m.blks (keep - 1)
  let slide := decide (0 < len ∧ d.blkno ≠ 0 ∧ len < m.size ∧ 0 < g.fblkoff len ∧ g.fblkoff len < d.hole)
  some ({ m with size := len, blks := cut g len keep slide m.blks },
    (v.freeFrom f.ino keep).setInode f.ino (some ⟨p.btime, p.size + len - m.size, cut g len keep slide p.blks⟩))

/-- `pfs_inode_add` for each block id that has no block; `free` are the blocks it gets. -/
def addBlks (ino : Nat) : List Nat → List Nat → (Nat → Dblk) × PhyInode × (Nat → Option (Nat × Nat)) →
    Option ((Nat → Dblk) × PhyInode × (Nat → Option (Nat × Nat)))
  | [], _, r => some r
  | blkid :: ids, free, (blks, p, bt) =>
    if (blks blkid).blkno ≠ 0 then addBlks ino ids free (blks, p, bt)
    else
      match free with
      | [] => none
      | blkno :: free =>
        if blkno = 0 ∨ (bt blkno).isSome then none
        else
          addBlks ino ids free
            (update blks blkid ⟨blkno, 0, g.blksize⟩,
              { p with blks := update p.blks blkid ⟨blkno, 0, g.blksize⟩ },
              update bt blkno (some (ino, blkid)))

/-- `pfs_file_allocate` without `FALLOC_FL_NO_HIDE_STALE`. -/
def allocate (f : FileId) (off : Option Nat) (len : Nat) (keepSize : Bool) (free : List Nat) (m : MemInode n)
    (p : PhyInode) (v : MetaData) : Option (MemInode n × MetaData) :=
  let off := off.getD m.size
  let ids := if len = 0 then [] else List.range' (g.fblkid off) (g.fblkid (off + len - 1) + 1 - g.fblkid off)
  let inc := if keepSize ∨ len = 0 then 0 else off + len - m.size
  (addBlks g f.ino ids free (m.blks, p, v.bt)).map fun (blks, p, bt) =>
    ({ m with size := m.size + inc, blks := blks },
      { v with bt := bt }.setInode f.ino (some { p with size := p.size + inc }))

/-- `pfs_inode_release` of a file without a name; it is refused, with nothing done, while the file is
large. -/
def release (f : FileId) (m : MemInode n) (_ : PhyInode) (v : MetaData) : Option (MemInode n × MetaData) :=
  if shrinksize ≤ m.size then none
  else some ({ m with stale := true }, (v.freeFrom f.ino 0).setInode f.ino none)

end Node

/-! ## Runs -/

inductive NodeEvent (n : Nat) where
  | read (t : Fin n) (f : FileId) (start len : Nat)
  | write (t : Fin n) (f : FileId) (offset : Option Nat) (data : List UInt8)
  /-- the call of a thread runs its next section -/
  | round (t : Fin n)
  | io (t : Fin n)
  | flush (t : Fin n)
  /-- the caller of `pfs_file_read` takes the bytes -/
  | done (t : Fin n)
  /-- a new file, in an unused inode -/
  | create (ino btime : Nat)
  | truncate (t : Fin n) (f : FileId) (len : Nat)
  | allocate (t : Fin n) (f : FileId) (off : Option Nat) (len : Nat) (keepSize : Bool) (free : List Nat)
  | release (t : Fin n) (f : FileId)
  /-- `pfs_tx_end`: the open transaction commits or rolls back -/
  | txEnd (ok : Bool)

/-- Roll back marks the inode stale. -/
def Node.txEnd (s : Node n) (ok : Bool) : Option (Node n) :=
  s.tx.map fun x =>
    if ok ∧ ¬ x.failed then { s with disk := x.view, tx := none }
    else { s.setMem x.ino { s.mem x.ino with stale := true } with tx := none }

/-- Creation times of files that use one inode number differ. -/
def Node.create (s : Node n) (ino btime : Nat) : Option (Node n) :=
  if s.tx.isSome ∨ (s.disk.inode ino).isSome ∨ ⟨ino, btime⟩ ∈ s.born then none
  else some { s with
    tx := some ⟨ino, s.disk.setInode ino (some ⟨btime, 0, fun _ => zerodblk⟩), false⟩
    born := ⟨ino, btime⟩ :: s.born }

def Node.step (g : Geometry) (shrinksize : Nat) (s : Node n) : NodeEvent n → Option (Node n)
  | .read t f start len =>
    match s.calls t with
    | .idle => some (s.setCall t (.read ⟨f, start, len, [], true⟩))
    | _ => none
  | .write t f offset data =>
    match s.calls t with
    | .idle => some (s.setCall t (.write ⟨f, offset, 0, data, true⟩))
    | _ => none
  | .round t => s.roundStep g t
  | .io t => s.ioStep t
  | .flush t => s.flushStep t
  | .done t =>
    match s.calls t with
    | .returned _ => some (s.setCall t .idle)
    | _ => none
  | .create ino btime => s.create ino btime
  | .truncate t f len => s.inTx t f (Node.truncate g shrinksize f len)
  | .allocate t f off len keepSize free => s.inTx t f (Node.allocate g f off len keepSize free)
  | .release t f => s.inTx t f (Node.release shrinksize f)
  | .txEnd ok => s.txEnd ok

/-- Position `p` of a file holds `v`: the byte is on the block of the file that stands there and was
written for the file, or it is a zero of a hole. -/
def Node.stored (g : Geometry) (s : Node n) (f : FileId) (p : Nat) (v : UInt8) : Bool :=
  (s.disk.inode f.ino).any fun i =>
    let d := i.blks (g.fblkid p)
    i.btime == f.btime &&
      (d.blkno != 0 && s.dev d.blkno (g.fblkoff p) == ⟨v, some f⟩ || decide (d.hole ≤ g.fblkoff p) && v == 0)

/-- A node, and what each position of the file that a thread reads has held since the call began. -/
structure Watched (n : Nat) where
  node : Node n
  seen : Fin n → Nat → UInt8 → Bool

def Watched.step (g : Geometry) (shrinksize : Nat) (s : Watched n) (e : NodeEvent n) : Option (Watched n) :=
  (s.node.step g shrinksize e).map fun node =>
    { node := node
      seen := fun t p v =>
        (s.node.calls t).reader.isSome && s.seen t p v || (node.calls t).reader.any fun r => node.stored g r.file p v }

/-- A node with no files and nothing in memory, on a device with any contents. -/
def nodeSystem (g : Geometry) (shrinksize n : Nat) : System (Watched n) (NodeEvent n) where
  init s :=
    s.node.disk = ⟨fun _ => none, fun _ => none⟩ ∧ s.node.tx = none ∧
      (∀ i, (s.node.mem i).stale = true ∧ (s.node.mem i).wm = none) ∧ (∀ t, s.node.calls t = .idle) ∧ s.node.landed = []
  step := Watched.step g shrinksize

end PolarFs.File
