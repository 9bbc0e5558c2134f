/-
`growfs`: a volume is given the chunks its device has grown by.

The new chunks are formatted first, each with its header last; then the headers of the old chunks are
rewritten with the new number of chunks, in descending order: the header of chunk 0, which a mount goes
by, is the last write. The process can die between any two writes.
-/
import PolarFs.Meta.Chunk
import PolarFs.Lib.PowerOfTwo
import Mathlib.Order.CompletePartialOrder

namespace PolarFs.Tools

open Meta RedoLog PowerOfTwo

/-- What a tool returns: success, an error, or the exit of the process. -/
inductive Result where
  | ok
  | einval
  | eio
  | exitEio
  | exitEbusy
  deriving DecidableEq, Repr

/-- A write to the device. -/
abbrev Write := Nat × Sector

/-- `struct pbdinfo`. -/
structure PbdInfo where
  disksize : Nat
  chunksize : Nat

/-! ## Formatting a chunk -/

/-- `INVALID_INO`, `INVALID_DENO`. -/
def invalidNo : Nat := 18446744073709551615

/-- `metaobj_init` on a zeroed object that has its number. -/
def metaobjInit (now : Nat) (mtype : MetaType) (oid number : Nat) : MetaObjPhy :=
  match mtype with
  | .blktag => ⟨number, 0, 0, .blktag, oid == 0, .blktag⟩
  | .direntry =>
    if number = 0 then ⟨number, 0, 0, .direntry, true, .direntry 0 invalidNo 0 ""⟩
    else if number = 1 then ⟨number, 2, 0, .direntry, true, .direntry 1 0 0 ".pfs-paxos"⟩
    else if number = 2 then ⟨number, 0, 1, .direntry, true, .direntry 2 0 0 ".pfs-journal"⟩
    else ⟨number, 0, 0, .direntry, false, .direntry invalidNo invalidNo 0 ""⟩
  | .inode =>
    if number = 0 then ⟨number, 1, 2, .inode, true, .inode 0 2 1 now⟩
    else if number = 1 then ⟨number, 0, 0, .inode, true, .inode 1 1 1 0⟩
    else if number = 2 then ⟨number, 0, 0, .inode, true, .inode 2 1 1 0⟩
    else ⟨number, 0, 0, .inode, false, .inode invalidNo 0 0 0⟩

/-- `sizeof(pfs_metaobj_phy_t)`. -/
def objsize : Nat := 128

/-- The objects of one sector, from `oid` on. -/
def sectorObjs (now ckno opcs : Nat) (mtype : MetaType) (oid : Nat) : List MetaObjPhy :=
  (List.range' oid (pbdSectorSize / objsize)).map fun o => metaobjInit now mtype o (ckno <<< opcs ||| o)

/-- The loop of `metaset_init` over the sectors of the set. -/
def metasetLoop (now ckno opcs : Nat) (mtype : MetaType) : Nat → Nat → Nat → List Write
  | 0, _, _ => []
  | n + 1, oid, sectbda =>
    (sectbda, .objs (sectorObjs now ckno opcs mtype oid)) ::
      metasetLoop now ckno opcs mtype n (oid + pbdSectorSize / objsize) (sectbda + pbdSectorSize)

/-- `metaset_init`: the set's entry in the header, the writes, and the address after the set. -/
def metasetInit (now : Nat) (nobj : MetaType → Nat) (ckno : Nat) (mtype : MetaType) (sectbda : Nat) :
    MetasetPhy × List Write × Nat :=
  let nsect := nobj mtype * objsize % 2 ^ 32 / pbdSectorSize
  let opcs := ffs (roundup (nobj mtype)) - 1
  (⟨sectbda, nsect, objsize⟩, metasetLoop now ckno opcs mtype nsect 0 sectbda, sectbda + nsect * pbdSectorSize)

/-- `chunk_init`: the header and the writes of the three sets. -/
def chunkInit (crc : ChunkPhy → Nat) (now : Nat) (pbd : PbdInfo) (nobj : MetaType → Nat) (ckno : Nat) :
    ChunkPhy × List Write :=
  let bt := metasetInit now nobj ckno .blktag (pbd.chunksize * ckno + pbdSectorSize)
  let de := metasetInit now nobj ckno .direntry bt.2.2
  let ino := metasetInit now nobj ckno .inode de.2.2
  let phyck : ChunkPhy :=
    { magic := chunkMagicMake ckno
      chunksize := pbd.chunksize
      blksize := pfsBlockSize
      sectsize := pbdSectorSize
      number := ckno
      nchunk := pbd.disksize / pbd.chunksize % 2 ^ 32
      physet := fun
        | .blktag => bt.1
        | .direntry => de.1
        | .inode => ino.1
      checksum := 0 }
  (phyck.sealed crc, bt.2.1 ++ de.2.1 ++ ino.2.1)

/-! ## Growing -/

/-- The first loop of `pfs_grow`: `n` chunks from `i` on. -/
def formatChunks (crc : ChunkPhy → Nat) (now : Nat) (pbd : PbdInfo) (nobj : MetaType → Nat) : Nat → Nat → List Write
  | 0, _ => []
  | n + 1, i =>
    let ck := chunkInit crc now pbd nobj (i % 2 ^ 32)
    ck.2 ++ (i * pbd.chunksize, .chunk ck.1) :: formatChunks crc now pbd nobj n (i + 1)

/-- The header with the new number of chunks. -/
def renumber (crc : ChunkPhy → Nat) (newcknum : Nat) (phyck : ChunkPhy) : ChunkPhy :=
  ChunkPhy.sealed crc { phyck with nchunk := newcknum % 2 ^ 32 }

/-- The second loop of `pfs_grow`, from chunk `i - 1` down to chunk 0. -/
def rewriteHeaders (crc : ChunkPhy → Nat) (pbd : PbdInfo) (newcknum : Nat) : Nat → Pbd → List Write × Result
  | 0, _ => ([], .ok)
  | i + 1, d =>
    match d (i * pbd.chunksize) with
    | .chunk phyck =>
      if metaCheckChunk crc phyck then
        let w : Write := (i * pbd.chunksize, .chunk (renumber crc newcknum phyck))
        let r := rewriteHeaders crc pbd newcknum i (applyTx d [w])
        (w :: r.1, r.2)
      else ([], .exitEio)
    | _ => ([], .exitEio)

/-- `pfs_grow`. -/
def pfsGrow (crc : ChunkPhy → Nat) (now : Nat) (pbd : PbdInfo) (nobj : MetaType → Nat) (oldcknum newcknum : Nat)
    (d : Pbd) : List Write × Result :=
  let ws := formatChunks crc now pbd nobj (newcknum - oldcknum) oldcknum
  let r := rewriteHeaders crc pbd newcknum oldcknum (applyTx d ws)
  (ws ++ r.1, r.2)

/-- `get_pbdsize`. -/
def getPbdsize (pbd : PbdInfo) : Result :=
  if pbd.chunksize ≠ pbdChunkSize then .eio
  else if pbd.disksize < pbdChunkSize then .einval
  else .ok

/-- `verify_args`: an error, or the number of objects per chunk of each type as chunk 0 has it. -/
def verifyArgs (crc : ChunkPhy → Nat) (pbd : PbdInfo) (oldcknum newcknum : Nat) (d : Pbd) :
    Except Result (MetaType → Nat) :=
  if oldcknum = 0 ∨ newcknum ≤ oldcknum then .error .einval
  else if pbd.chunksize * newcknum % 2 ^ 64 ≠ pbd.disksize then .error .einval
  else
    match d 0 with
    | .chunk phyck =>
      if !metaCheckChunk crc phyck then .error .exitEio
      else if phyck.nchunk ≠ oldcknum then .error .einval
      else .ok fun t => (phyck.physet t).nsect * (pbdSectorSize / (phyck.physet t).objsize) % 2 ^ 32
    | _ => .error .exitEio

/-- Whether a sector carries a valid header of a chunk. -/
def headerValid (crc : ChunkPhy → Nat) (d : Pbd) (ckid : Nat) : Bool :=
  match d (ckid * pbdChunkSize) with
  | .chunk phyck => chunkIsvalid crc phyck ckid
  | _ => false

/-- `check_global_security`. -/
def checkGlobalSecurity (crc : ChunkPhy → Nat) (d : Pbd) (ckid : Nat) (force : Bool) : Result :=
  if headerValid crc d ckid && !force then .exitEbusy else .ok

/-- `cmd_growfs`: the writes it issues and how it ends. -/
def cmdGrowfs (crc : ChunkPhy → Nat) (now : Nat) (pbd : PbdInfo) (oldcknum newcknum : Nat) (force : Bool) (d : Pbd) :
    List Write × Result :=
  if getPbdsize pbd ≠ .ok then ([], getPbdsize pbd)
  else
    match verifyArgs crc pbd oldcknum newcknum d with
    | .error r => ([], r)
    | .ok nobj =>
      if checkGlobalSecurity crc d oldcknum force ≠ .ok then ([], checkGlobalSecurity crc d oldcknum force)
      else pfsGrow crc now pbd nobj oldcknum newcknum d

/-! ## Formatted volumes -/

/-- The bits of an object number below the chunk's. -/
def objShift (nsect : MetaType → Nat) (t : MetaType) : Nat :=
  ffs (roundup (nsect t * 32)) - 1

/-- The first sector of a set within its chunk. -/
def setSect (nsect : MetaType → Nat) : MetaType → Nat
  | .blktag => 1
  | .direntry => 1 + nsect .blktag
  | .inode => 1 + nsect .blktag + nsect .direntry

/-- Sets of so many sectors lie in the block reserved for them. -/
structure Layout (nsect : MetaType → Nat) : Prop where
  pos : ∀ t, 0 < nsect t
  fits : 1 + nsect .blktag + nsect .direntry + nsect .inode ≤ pfsBlockSize / pbdSectorSize

/-- The entry of a set in the header of its chunk. -/
def setPhy (nsect : MetaType → Nat) (ckid : Nat) (t : MetaType) : MetasetPhy :=
  ⟨sectBda ckid (setSect nsect t), nsect t, objsize⟩

/-- A volume of `n` chunks with sets of `nsect` sectors, as `mkfs` leaves it and a mount requires it. Only
chunk 0 is bound to name the number of chunks. -/
structure Formatted (crc : ChunkPhy → Nat) (nsect : MetaType → Nat) (n : Nat) (hdr : Nat → ChunkPhy) (d : Pbd) : Prop where
  layout : Layout nsect
  header : ∀ i < n, d (sectBda i 0) = .chunk (hdr i)
  check : ∀ i < n, metaCheckChunk crc (hdr i) = true
  number : ∀ i < n, (hdr i).number = i
  physet : ∀ i < n, (hdr i).physet = setPhy nsect i
  nchunk : (hdr 0).nchunk = n
  objs : ∀ i < n, ∀ t, ∀ f < nsect t, ∃ mobuf, d (sectBda i (setSect nsect t + f)) = .objs mobuf ∧
    mobuf.map MetaObjPhy.number = (List.range' (f * 32) 32).map fun oid => i <<< objShift nsect t ||| oid

/-- The header `growfs` gives a new chunk. -/
def newHeader (crc : ChunkPhy → Nat) (nsect : MetaType → Nat) (newcknum ckid : Nat) : ChunkPhy :=
  ChunkPhy.sealed crc ⟨chunkMagicMake ckid, pbdChunkSize, pfsBlockSize, pbdSectorSize, ckid, newcknum, setPhy nsect ckid, 0⟩

/-- A free object of a new chunk; the first block is taken by the metadata itself. -/
def newObj (nsect : MetaType → Nat) (ckid : Nat) (t : MetaType) (oid : Nat) : MetaObjPhy :=
  let number := ckid <<< objShift nsect t ||| oid
  match t with
  | .blktag => ⟨number, 0, 0, .blktag, oid == 0, .blktag⟩
  | .direntry => ⟨number, 0, 0, .direntry, false, .direntry invalidNo invalidNo 0 ""⟩
  | .inode => ⟨number, 0, 0, .inode, false, .inode invalidNo 0 0 0⟩

/-- The numbers of the objects in a set of a chunk. -/
def setNumbers (nsect : MetaType → Nat) (d : Pbd) (ckid : Nat) (t : MetaType) : Set Nat :=
  { no | ∃ f < nsect t, ∃ mobuf, d (sectBda ckid (setSect nsect t + f)) = .objs mobuf ∧ no ∈ mobuf.map MetaObjPhy.number }

/-- Chunks below `n` hold what they held, but for the number of chunks (and its checksum) in their headers. -/
structure Untouched (n : Nat) (hdr : Nat → ChunkPhy) (d d' : Pbd) : Prop where
  rest : ∀ a < pbdChunkSize * n, (∀ i < n, a ≠ sectBda i 0) → d' a = d a
  header : ∀ i < n, ∃ nchunk checksum,
    d' (sectBda i 0) = .chunk { hdr i with nchunk := nchunk, checksum := checksum }

/-- A sector of a set carries the numbers of its chunk. -/
def Numbered (nsect : MetaType → Nat) (d : Pbd) (i : Nat) (t : MetaType) (f : Nat) : Prop :=
  ∃ mobuf, d (sectBda i (setSect nsect t + f)) = .objs mobuf ∧
    mobuf.map MetaObjPhy.number = (List.range' (f * 32) 32).map fun oid => i <<< objShift nsect t ||| oid

/-- A volume that has grown from `oldcknum` to `newcknum` chunks. -/
structure Grown (crc : ChunkPhy → Nat) (nsect : MetaType → Nat) (oldcknum newcknum : Nat) (d : Pbd) : Prop where
  header : ∀ i < newcknum, ∃ phyck, d (sectBda i 0) = .chunk phyck ∧ metaCheckChunk crc phyck = true ∧
    phyck.number = i ∧ phyck.physet = setPhy nsect i ∧ phyck.nchunk = newcknum
  newChunk : ∀ i < newcknum, oldcknum ≤ i → d (sectBda i 0) = .chunk (newHeader crc nsect newcknum i) ∧
    ∀ t, ∀ f < nsect t, d (sectBda i (setSect nsect t + f)) = .objs ((List.range' (f * 32) 32).map (newObj nsect i t))
  disjoint : ∀ i < newcknum, ∀ j < newcknum, i ≠ j → ∀ t, Disjoint (setNumbers nsect d i t) (setNumbers nsect d j t)

section

variable {crc : ChunkPhy → Nat} {nsect : MetaType → Nat} {hdr : Nat → ChunkPhy} {d : Pbd} {pbd : PbdInfo}
variable {oldcknum newcknum now f i m : Nat}

/-- The device has `newcknum` chunks. -/
structure Matches (pbd : PbdInfo) (newcknum : Nat) : Prop where
  chunksize : pbd.chunksize = pbdChunkSize
  disksize : pbd.disksize = pbdChunkSize * newcknum
  lt : pbd.disksize < 2 ^ 64

theorem Matches.newcknum_lt (h : Matches pbd newcknum) : newcknum < 2 ^ 32 := by
  have hd := h.disksize
  have hlt := h.lt
  simp only [pbdChunkSize] at hd
  omega

theorem Matches.nchunk (h : Matches pbd newcknum) : pbd.disksize / pbd.chunksize % 2 ^ 32 = newcknum := by
  have hlt := h.newcknum_lt
  rw [h.disksize, h.chunksize, Nat.mul_div_cancel_left _ (by decide), Nat.mod_eq_of_lt hlt]

theorem setBda_eq (h : Matches pbd newcknum) (i : Nat) :
    (fun t => match t with
      | .blktag => (⟨pbd.chunksize * i + pbdSectorSize, nsect .blktag, objsize⟩ : MetasetPhy)
      | .direntry => ⟨pbd.chunksize * i + pbdSectorSize + nsect .blktag * pbdSectorSize, nsect .direntry, objsize⟩
      | .inode => ⟨pbd.chunksize * i + pbdSectorSize + nsect .blktag * pbdSectorSize + nsect .direntry * pbdSectorSize,
          nsect .inode, objsize⟩) = setPhy nsect i := by
  funext t
  rw [h.chunksize]
  cases t <;> simp only [setPhy, sectBda, setSect, MetasetPhy.mk.injEq, and_true] <;> grind

/-! ## Where the sets lie -/

theorem setSect_inj {t t' : MetaType} {f' : Nat} (hf : f < nsect t) (hf' : f' < nsect t')
    (heq : setSect nsect t + f = setSect nsect t' + f') : t = t' ∧ f = f' := by
  cases t <;> cases t' <;> simp only [setSect, reduceCtorEq, false_and, true_and] at heq ⊢ <;> omega

section Writes

variable (h : Layout nsect)

include h

theorem Layout.setSect_add_lt (t : MetaType) (hf : f < nsect t) :
    0 < setSect nsect t + f ∧ setSect nsect t + f < 1024 := by
  have hfits := h.fits
  simp only [pfsBlockSize, pbdSectorSize] at hfits
  cases t <;> simp only [setSect] <;> omega

theorem Layout.nsect_lt (t : MetaType) : nsect t < 1024 := by
  have hfits := h.fits
  simp only [pfsBlockSize, pbdSectorSize] at hfits
  cases t <;> omega

theorem Layout.le_objShift (t : MetaType) : nsect t * 32 ≤ 2 ^ objShift nsect t := by
  have := h.pos t
  have := h.nsect_lt t
  exact le_two_pow_ffs_roundup (by omega) (by omega)

/-- Numbers of two chunks are never the same. -/
theorem Layout.number_inj (t : MetaType) {j f' oid oid' : Nat} (hf : f < nsect t)
    (hf' : f' < nsect t) (hoid : oid ∈ List.range' (f * 32) 32) (hoid' : oid' ∈ List.range' (f' * 32) 32)
    (heq : i <<< objShift nsect t ||| oid = j <<< objShift nsect t ||| oid') : i = j := by
  have hle := h.le_objShift t
  rw [List.mem_range'_1] at hoid hoid'
  exact (shiftLeft_or_inj (by omega) (by omega) heq).1

theorem Layout.set_ne_header (i j : Nat) (t : MetaType) (hf : f < nsect t) :
    sectBda i (setSect nsect t + f) ≠ sectBda j 0 := by
  intro heq
  have hlt := h.setSect_add_lt t hf
  have := (sectBda_inj hlt.2 (by decide) heq).2
  omega

/-! ## The writes of the first loop -/

omit h in
theorem mem_metasetLoop {ckno opcs : Nat} {t : MetaType} {w : Write} : ∀ {n oid sectbda : Nat},
    w ∈ metasetLoop now ckno opcs t n oid sectbda ↔
      ∃ f < n, w = (sectbda + f * pbdSectorSize, .objs (sectorObjs now ckno opcs t (oid + f * 32)))
  | 0, oid, sectbda => by simp [metasetLoop]
  | n + 1, oid, sectbda => by
    have hnext : ∀ f, sectbda + pbdSectorSize + f * pbdSectorSize = sectbda + (f + 1) * pbdSectorSize := fun f => by ring
    have hoid : ∀ f, oid + 32 + f * 32 = oid + (f + 1) * 32 := fun f => by ring
    rw [metasetLoop, List.mem_cons, mem_metasetLoop, show pbdSectorSize / objsize = 32 from rfl]
    simp only [hnext, hoid]
    constructor
    · rintro (rfl | ⟨f, hf, rfl⟩)
      · exact ⟨0, by omega, by simp⟩
      · exact ⟨f + 1, by omega, rfl⟩
    · rintro ⟨_ | f, hf, rfl⟩
      · left
        simp
      · exact Or.inr ⟨f, by omega, rfl⟩

theorem metasetInit_eq (ckno sectbda : Nat) (t : MetaType) :
    metasetInit now (fun t => nsect t * 32) ckno t sectbda =
      (⟨sectbda, nsect t, objsize⟩, metasetLoop now ckno (objShift nsect t) t (nsect t) 0 sectbda,
        sectbda + nsect t * pbdSectorSize) := by
  have hlt := h.nsect_lt t
  have hn : nsect t * 32 * objsize % 2 ^ 32 / pbdSectorSize = nsect t := by
    simp only [objsize, pbdSectorSize]
    omega
  simp only [metasetInit, hn, objShift]

/-- The reserved objects of the volume are in chunk 0. -/
theorem sectorObjs_eq {ckno : Nat} (hck : 0 < ckno) (t : MetaType) (oid : Nat) :
    sectorObjs now ckno (objShift nsect t) t oid = (List.range' oid 32).map (newObj nsect ckno t) := by
  rw [sectorObjs, show pbdSectorSize / objsize = 32 from rfl]
  refine List.map_congr_left fun o _ => ?_
  have hbig : 32 ≤ ckno <<< objShift nsect t ||| o := by
    have hpow := h.le_objShift t
    have hpos := h.pos t
    have hmul : 1 * 2 ^ objShift nsect t ≤ ckno * 2 ^ objShift nsect t := Nat.mul_le_mul_right _ hck
    calc 32 ≤ ckno <<< objShift nsect t := by rw [Nat.shiftLeft_eq]; omega
      _ ≤ ckno <<< objShift nsect t ||| o := Nat.left_le_or
  cases t with
  | blktag => rfl
  | direntry | inode =>
    simp only [metaobjInit, newObj]
    rw [if_neg (by omega), if_neg (by omega), if_neg (by omega)]

/-- What formatting chunk `i` leaves in its sector `s`. -/
def FormatSector (crc : ChunkPhy → Nat) (nsect : MetaType → Nat) (newcknum i s : Nat) (v : Sector) : Prop :=
  (s = 0 ∧ v = .chunk (newHeader crc nsect newcknum i)) ∨
    ∃ t, ∃ f < nsect t, s = setSect nsect t + f ∧ v = .objs ((List.range' (f * 32) 32).map (newObj nsect i t))

theorem FormatSector.lt {s : Nat} {v : Sector} (hs : FormatSector crc nsect newcknum i s v) : s < 1024 := by
  rcases hs with ⟨rfl, _⟩ | ⟨t, f, hf, rfl, _⟩
  · decide
  · exact (h.setSect_add_lt t hf).2

theorem FormatSector.unique {s : Nat} {v v' : Sector} (hs : FormatSector crc nsect newcknum i s v)
    (hs' : FormatSector crc nsect newcknum i s v') : v = v' := by
  rcases hs with ⟨rfl, rfl⟩ | ⟨t, f, hf, rfl, rfl⟩ <;> rcases hs' with ⟨hs, rfl⟩ | ⟨t', f', hf', hs, rfl⟩
  · rfl
  · have := (h.setSect_add_lt t' hf').1
    omega
  · have := (h.setSect_add_lt t hf).1
    omega
  · obtain ⟨rfl, rfl⟩ := setSect_inj hf hf' hs
    rfl

variable (hm : Matches pbd newcknum)

include hm

theorem chunkInit_header (i : Nat) :
    (chunkInit crc now pbd (fun t => nsect t * 32) i).1 = newHeader crc nsect newcknum i := by
  simp only [chunkInit, metasetInit_eq h, newHeader, hm.nchunk]
  rw [← setBda_eq hm i, hm.chunksize]

theorem mem_chunkInit (hi : 0 < i) {w : Write} :
    w ∈ (chunkInit crc now pbd (fun t => nsect t * 32) i).2 ↔
      ∃ t, ∃ f < nsect t, w = (sectBda i (setSect nsect t + f), .objs ((List.range' (f * 32) 32).map (newObj nsect i t))) := by
  simp only [chunkInit, metasetInit_eq h, List.mem_append, mem_metasetLoop, sectorObjs_eq h hi, hm.chunksize, Nat.zero_add]
  constructor
  · rintro ((⟨f, hf, rfl⟩ | ⟨f, hf, rfl⟩) | ⟨f, hf, rfl⟩)
    · exact ⟨.blktag, f, hf, by simp only [sectBda, setSect]; congr 1; grind⟩
    · exact ⟨.direntry, f, hf, by simp only [sectBda, setSect]; congr 1; grind⟩
    · exact ⟨.inode, f, hf, by simp only [sectBda, setSect]; congr 1; grind⟩
  · rintro ⟨t, f, hf, rfl⟩
    cases t with
    | blktag => exact Or.inl (Or.inl ⟨f, hf, by simp only [sectBda, setSect]; congr 1; grind⟩)
    | direntry => exact Or.inl (Or.inr ⟨f, hf, by simp only [sectBda, setSect]; congr 1; grind⟩)
    | inode => exact Or.inr ⟨f, hf, by simp only [sectBda, setSect]; congr 1; grind⟩

theorem mem_formatChunks {w : Write} : ∀ {n i : Nat}, 0 < i →
    i + n ≤ newcknum → (w ∈ formatChunks crc now pbd (fun t => nsect t * 32) n i ↔
      ∃ j, i ≤ j ∧ j < i + n ∧ ∃ s, w.1 = sectBda j s ∧ FormatSector crc nsect newcknum j s w.2)
  | 0, i, _, _ => by
    simp only [formatChunks, List.not_mem_nil, false_iff]
    rintro ⟨j, _, _, _⟩
    omega
  | n + 1, i, hi, hle => by
    have hlt := hm.newcknum_lt
    rw [formatChunks, Nat.mod_eq_of_lt (by omega), List.mem_append, List.mem_cons,
      mem_formatChunks (by omega) (by omega), mem_chunkInit h hm hi, chunkInit_header h hm, hm.chunksize,
      Nat.mul_comm i, ← sectBda_zero]
    constructor
    · rintro (⟨t, f, hf, rfl⟩ | rfl | ⟨j, hij, hj, hw⟩)
      · exact ⟨i, le_rfl, by omega, _, rfl, Or.inr ⟨t, f, hf, rfl, rfl⟩⟩
      · exact ⟨i, le_rfl, by omega, _, rfl, Or.inl ⟨rfl, rfl⟩⟩
      · exact ⟨j, by omega, by omega, hw⟩
    · rintro ⟨j, hij, hj, s, hbda, hs⟩
      rcases Nat.eq_or_lt_of_le hij with rfl | hlt
      · rcases hs with ⟨rfl, hv⟩ | ⟨t, f, hf, rfl, hv⟩
        · exact Or.inr (Or.inl (Prod.ext hbda hv))
        · exact Or.inl ⟨t, f, hf, Prod.ext hbda hv⟩
      · exact Or.inr (Or.inr ⟨j, by omega, by omega, s, hbda, hs⟩)

/-- The writes of the first loop. -/
def newWrites (crc : ChunkPhy → Nat) (nsect : MetaType → Nat) (pbd : PbdInfo) (oldcknum newcknum now : Nat) : List Write :=
  formatChunks crc now pbd (fun t => nsect t * 32) (newcknum - oldcknum) oldcknum

variable (hold : 0 < oldcknum) (hlt : oldcknum < newcknum)

include hold hlt

/-- Once the first loop is through, the new chunks are formatted, whatever they held. -/
theorem applyTx_newWrites {s : Nat} {v : Sector} (hi : i < newcknum) (hoi : oldcknum ≤ i)
    (hs : FormatSector crc nsect newcknum i s v) :
    applyTx d (newWrites crc nsect pbd oldcknum newcknum now) (sectBda i s) = v := by
  have hmem := @mem_formatChunks crc nsect pbd newcknum now h hm
  apply applyTx_of_forall
  · refine List.mem_map.2 ⟨(sectBda i s, v), ?_, rfl⟩
    exact (hmem hold (by omega)).2 ⟨i, hoi, by omega, s, rfl, hs⟩
  · intro w hw hbda
    obtain ⟨j, hoj, hj, s', hbda', hs'⟩ := (hmem hold (by omega)).1 hw
    obtain ⟨rfl, rfl⟩ := sectBda_inj (hs.lt h) (hs'.lt h) (hbda.symm.trans hbda')
    exact hs'.unique h hs

theorem le_of_mem_newWrites (now : Nat) {w : Write} (hw : w ∈ newWrites crc nsect pbd oldcknum newcknum now) :
    pbdChunkSize * oldcknum ≤ w.1 := by
  obtain ⟨j, hoj, _, s, hbda, _⟩ := (mem_formatChunks h hm hold (by omega)).1 hw
  rw [hbda]
  exact le_sectBda hoj s

end Writes

/-! ## The writes of the second loop -/

/-- The header of an old chunk as it is rewritten. -/
def headerWrite (crc : ChunkPhy → Nat) (newcknum : Nat) (hdr : Nat → ChunkPhy) (i : Nat) : Write :=
  (sectBda i 0, .chunk (renumber crc newcknum (hdr i)))

theorem metaCheckChunk_renumber {phyck : ChunkPhy} (h : metaCheckChunk crc phyck = true) :
    metaCheckChunk crc (renumber crc newcknum phyck) = true := by
  simp only [metaCheckChunk, Bool.and_eq_true] at h
  simp only [metaCheckChunk, renumber, checksumValid_sealed, Bool.true_and, Bool.and_eq_true]
  exact ⟨⟨h.1.1.2, h.1.2⟩, h.2⟩

theorem rewriteHeaders_eq (hsize : pbd.chunksize = pbdChunkSize) : ∀ {n : Nat} {d : Pbd},
    (∀ i < n, d (sectBda i 0) = .chunk (hdr i)) → (∀ i < n, metaCheckChunk crc (hdr i) = true) →
    rewriteHeaders crc pbd newcknum n d = ((List.range n).reverse.map (headerWrite crc newcknum hdr), .ok)
  | 0, _, _, _ => rfl
  | n + 1, d, hd, hc => by
    have hbda : n * pbd.chunksize = sectBda n 0 := by rw [hsize, Nat.mul_comm, ← sectBda_zero]
    have hrest : ∀ i < n, applyTx d [headerWrite crc newcknum hdr n] (sectBda i 0) = .chunk (hdr i) := by
      intro i hi
      have hne : sectBda i 0 ≠ sectBda n 0 := fun h => by
        have := (sectBda_inj (by decide) (by decide) h).1
        omega
      rw [applyTx_of_notMem _ _ (by simpa [headerWrite] using hne)]
      exact hd i (by omega)
    rw [rewriteHeaders, hbda, hd n (by omega)]
    simp only [hc n (by omega), if_true]
    have hih := rewriteHeaders_eq hsize hrest fun i hi => hc i (by omega)
    rw [headerWrite] at hih
    rw [hih, List.range_succ, List.reverse_append]
    rfl

/-- The chunks whose headers the first `m` rewrites reach. -/
theorem mem_take_reverse_range {n : Nat} : i ∈ (List.range n).reverse.take m ↔ i < n ∧ n ≤ i + m := by
  rw [List.take_reverse, List.mem_reverse, List.length_range, List.range_eq_range', List.drop_range', List.mem_range'_1]
  omega

/-! ## The device after some of the writes -/

/-- The old chunks do not see how far the formatting has come. -/
theorem Formatted.format (h : Formatted crc nsect oldcknum hdr d) {ws : List Write}
    (hws : ∀ w ∈ ws, pbdChunkSize * oldcknum ≤ w.1) :
    Formatted crc nsect oldcknum hdr (applyTx d ws) ∧ Untouched oldcknum hdr d (applyTx d ws) := by
  have hframe : ∀ a < pbdChunkSize * oldcknum, applyTx d ws a = d a := by
    intro a ha
    refine applyTx_of_notMem _ _ fun hmem => ?_
    obtain ⟨w, hw, rfl⟩ := List.mem_map.1 hmem
    have := hws w hw
    omega
  have hheader : ∀ i < oldcknum, applyTx d ws (sectBda i 0) = .chunk (hdr i) := fun i hi => by
    rw [hframe _ (sectBda_lt hi (by decide)), h.header i hi]
  refine ⟨{ h with header := hheader, objs := ?_ }, ⟨fun a ha _ => hframe a ha, ?_⟩⟩
  · intro i hi t f hf
    rw [hframe _ (sectBda_lt hi (h.layout.setSect_add_lt t hf).2)]
    exact h.objs i hi t f hf
  · intro i hi
    exact ⟨(hdr i).nchunk, (hdr i).checksum, hheader i hi⟩

/-- The headers once the first `m` are rewritten. -/
def rewritten (crc : ChunkPhy → Nat) (oldcknum newcknum : Nat) (hdr : Nat → ChunkPhy) (m i : Nat) : ChunkPhy :=
  if oldcknum ≤ i + m then renumber crc newcknum (hdr i) else hdr i

/-- The writes of the second loop. -/
def headerWrites (crc : ChunkPhy → Nat) (oldcknum newcknum : Nat) (hdr : Nat → ChunkPhy) : List Write :=
  (List.range oldcknum).reverse.map (headerWrite crc newcknum hdr)

theorem mem_take_headerWrites {w : Write} : w ∈ (headerWrites crc oldcknum newcknum hdr).take m ↔
    ∃ i < oldcknum, oldcknum ≤ i + m ∧ w = headerWrite crc newcknum hdr i := by
  rw [headerWrites, ← List.map_take, List.mem_map]
  constructor
  · rintro ⟨i, hi, rfl⟩
    exact ⟨i, (mem_take_reverse_range.1 hi).1, (mem_take_reverse_range.1 hi).2, rfl⟩
  · rintro ⟨i, hi, him, rfl⟩
    exact ⟨i, mem_take_reverse_range.2 ⟨hi, him⟩, rfl⟩

theorem applyTx_take_headerWrites_of_ne (m : Nat) {a : Nat} (ha : ∀ i < oldcknum, a ≠ sectBda i 0) :
    applyTx d ((headerWrites crc oldcknum newcknum hdr).take m) a = d a := by
  refine applyTx_of_notMem _ _ fun hmem => ?_
  obtain ⟨w, hw, rfl⟩ := List.mem_map.1 hmem
  obtain ⟨i, hi, _, rfl⟩ := mem_take_headerWrites.1 hw
  exact ha i hi rfl

theorem rewritten_eq (m i : Nat) : ∃ nchunk checksum,
    rewritten crc oldcknum newcknum hdr m i = { hdr i with nchunk := nchunk, checksum := checksum } := by
  unfold rewritten
  split
  · exact ⟨_, _, rfl⟩
  · exact ⟨(hdr i).nchunk, (hdr i).checksum, rfl⟩

namespace Formatted

variable (h : Formatted crc nsect oldcknum hdr d)

include h

theorem applyTx_headers (m : Nat) (hi : i < oldcknum) :
    applyTx d ((headerWrites crc oldcknum newcknum hdr).take m) (sectBda i 0) =
      .chunk (rewritten crc oldcknum newcknum hdr m i) := by
  by_cases him : oldcknum ≤ i + m
  · rw [rewritten, if_pos him]
    apply applyTx_of_forall
    · exact List.mem_map.2 ⟨_, mem_take_headerWrites.2 ⟨i, hi, him, rfl⟩, rfl⟩
    · intro w hw hbda
      obtain ⟨j, _, _, rfl⟩ := mem_take_headerWrites.1 hw
      obtain ⟨rfl, _⟩ := sectBda_inj (by decide) (by decide) hbda
      rfl
  · rw [rewritten, if_neg him, ← h.header i hi]
    refine applyTx_of_notMem _ _ fun hmem => ?_
    obtain ⟨w, hw, hbda⟩ := List.mem_map.1 hmem
    obtain ⟨j, _, hjm, rfl⟩ := mem_take_headerWrites.1 hw
    obtain ⟨rfl, _⟩ := sectBda_inj (by decide) (by decide) hbda
    exact him hjm

theorem check_rewritten (m : Nat) (hi : i < oldcknum) :
    metaCheckChunk crc (rewritten crc oldcknum newcknum hdr m i) = true := by
  unfold rewritten
  split
  · exact metaCheckChunk_renumber (h.check i hi)
  · exact h.check i hi

theorem untouched_headers (m : Nat) :
    Untouched oldcknum hdr d (applyTx d ((headerWrites crc oldcknum newcknum hdr).take m)) := by
  refine ⟨fun a _ ha => applyTx_take_headerWrites_of_ne m ha, fun i hi => ?_⟩
  obtain ⟨nchunk, checksum, heq⟩ := @rewritten_eq crc hdr oldcknum newcknum m i
  exact ⟨nchunk, checksum, by rw [h.applyTx_headers m hi, heq]⟩

theorem objs_headers (m : Nat) (hi : i < oldcknum) (t : MetaType) (hf : f < nsect t) :
    Numbered nsect (applyTx d ((headerWrites crc oldcknum newcknum hdr).take m)) i t f := by
  rw [Numbered, applyTx_take_headerWrites_of_ne m fun j _ => h.layout.set_ne_header i j t hf]
  exact h.objs i hi t f hf

/-- Short of chunk 0 the volume is still one of the old number of chunks. -/
theorem headers (hm : m < oldcknum) : Formatted crc nsect oldcknum (rewritten crc oldcknum newcknum hdr m)
      (applyTx d ((headerWrites crc oldcknum newcknum hdr).take m)) := by
  refine ⟨h.layout, fun i hi => h.applyTx_headers m hi, fun i hi => h.check_rewritten m hi, ?_, ?_, ?_,
    fun i hi t f hf => h.objs_headers m hi t hf⟩
  · intro i hi
    obtain ⟨_, _, heq⟩ := @rewritten_eq crc hdr oldcknum newcknum m i
    rw [heq]
    exact h.number i hi
  · intro i hi
    obtain ⟨_, _, heq⟩ := @rewritten_eq crc hdr oldcknum newcknum m i
    rw [heq]
    exact h.physet i hi
  · rw [rewritten, if_neg (by omega)]
    exact h.nchunk

end Formatted

/-! ## The grown volume -/

theorem metaCheckChunk_newHeader (i : Nat) : metaCheckChunk crc (newHeader crc nsect newcknum i) = true := by
  simp [metaCheckChunk, newHeader, chunkMagicValid_make]

theorem newObj_number (i oid : Nat) (t : MetaType) :
    (newObj nsect i t oid).number = i <<< objShift nsect t ||| oid := by
  cases t <;> rfl

theorem map_number_newObj (i : Nat) (t : MetaType) (l : List Nat) :
    (l.map (newObj nsect i t)).map MetaObjPhy.number = l.map fun o => i <<< objShift nsect t ||| o := by
  rw [List.map_map]
  exact List.map_congr_left fun o _ => newObj_number i o t

/-- Sets whose sectors carry the numbers of their chunks share none. -/
theorem disjoint_setNumbers (h : Layout nsect) {n : Nat} (hobjs : ∀ i < n, ∀ t, ∀ f < nsect t, Numbered nsect d i t f)
    {j : Nat} (hi : i < n) (hj : j < n) (hij : i ≠ j) (t : MetaType) :
    Disjoint (setNumbers nsect d i t) (setNumbers nsect d j t) := by
  have key : ∀ k < n, ∀ no ∈ setNumbers nsect d k t, ∃ f < nsect t, ∃ oid ∈ List.range' (f * 32) 32,
      k <<< objShift nsect t ||| oid = no := by
    rintro k hk no ⟨f, hf, mobuf, hd, hno⟩
    obtain ⟨mobuf', hd', hmap⟩ := hobjs k hk t f hf
    obtain rfl : mobuf = mobuf' := Sector.objs.inj (hd.symm.trans hd')
    rw [hmap] at hno
    obtain ⟨oid, hoid, rfl⟩ := List.mem_map.1 hno
    exact ⟨f, hf, oid, hoid, rfl⟩
  refine Set.disjoint_left.2 fun no hno hno' => hij ?_
  obtain ⟨f, hf, oid, hoid, rfl⟩ := key i hi no hno
  obtain ⟨f', hf', oid', hoid', heq⟩ := key j hj _ hno'
  exact h.number_inj t hf hf' hoid hoid' heq.symm

/-- With the header of chunk 0 rewritten, after all others, the volume has grown. -/
theorem Formatted.grown (h : Formatted crc nsect oldcknum hdr d) (hlt : newcknum < 2 ^ 32)
    (hnew : ∀ i < newcknum, oldcknum ≤ i → ∀ s v, FormatSector crc nsect newcknum i s v → d (sectBda i s) = v)
    (hm : oldcknum ≤ m) :
    Grown crc nsect oldcknum newcknum (applyTx d ((headerWrites crc oldcknum newcknum hdr).take m)) := by
  have hframe : ∀ i < newcknum, oldcknum ≤ i → ∀ s v, FormatSector crc nsect newcknum i s v →
      applyTx d ((headerWrites crc oldcknum newcknum hdr).take m) (sectBda i s) = v := by
    intro i hi hoi s v hs
    rw [applyTx_take_headerWrites_of_ne m fun j hj heq => ?_]
    · exact hnew i hi hoi s v hs
    · have := (sectBda_inj (hs.lt h.layout) (by decide) heq).1
      omega
  have hobjs : ∀ i < newcknum, ∀ t, ∀ f < nsect t,
      Numbered nsect (applyTx d ((headerWrites crc oldcknum newcknum hdr).take m)) i t f := by
    intro i hi t f hf
    rcases Nat.lt_or_ge i oldcknum with hio | hio
    · exact h.objs_headers m hio t hf
    · exact ⟨_, hframe i hi hio _ _ (Or.inr ⟨t, f, hf, rfl, rfl⟩), map_number_newObj i t _⟩
  refine ⟨?_, ?_, fun i hi j hj hij t => disjoint_setNumbers h.layout hobjs hi hj hij t⟩
  · intro i hi
    rcases Nat.lt_or_ge i oldcknum with hio | hio
    · refine ⟨_, h.applyTx_headers m hio, h.check_rewritten m hio, ?_⟩
      rw [rewritten, if_pos (by omega)]
      exact ⟨h.number i hio, h.physet i hio, Nat.mod_eq_of_lt hlt⟩
    · exact ⟨_, hframe i hi hio _ _ (Or.inl ⟨rfl, rfl⟩), metaCheckChunk_newHeader i, rfl, rfl, rfl⟩
  · intro i hi hoi
    exact ⟨hframe i hi hoi _ _ (Or.inl ⟨rfl, rfl⟩), fun t f hf => hframe i hi hoi _ _ (Or.inr ⟨t, f, hf, rfl, rfl⟩)⟩

/-! ## Runs of the command -/

theorem Formatted.header_zero (h : Formatted crc nsect oldcknum hdr d) (hold : 0 < oldcknum) : d 0 = .chunk (hdr 0) :=
  h.header 0 hold

theorem Grown.header_zero (h : Grown crc nsect oldcknum newcknum d) (hpos : 0 < newcknum) :
    ∃ phyck, d 0 = .chunk phyck ∧ phyck.nchunk = newcknum := by
  obtain ⟨phyck, hfirst, _, _, _, hn⟩ := h.header 0 hpos
  exact ⟨phyck, hfirst, hn⟩

theorem Matches.getPbdsize (hm : Matches pbd newcknum) (hpos : 0 < newcknum) : getPbdsize pbd = .ok := by
  have hd := hm.disksize
  have : pbdChunkSize * 1 ≤ pbdChunkSize * newcknum := Nat.mul_le_mul_left _ hpos
  rw [Tools.getPbdsize, if_neg (by simp [hm.chunksize]), if_neg (by omega)]

theorem Untouched.trans {d₁ d₂ : Pbd} (h₁ : Untouched oldcknum hdr d d₁) (h₂ : Untouched oldcknum hdr d₁ d₂) :
    Untouched oldcknum hdr d d₂ :=
  ⟨fun a ha hne => (h₂.rest a ha hne).trans (h₁.rest a ha hne), h₂.header⟩

namespace Formatted

variable (h : Formatted crc nsect oldcknum hdr d) (hm : Matches pbd newcknum) (hold : 0 < oldcknum) (hlt : oldcknum < newcknum)

include h hm hold hlt

theorem verifyArgs : verifyArgs crc pbd oldcknum newcknum d = .ok fun t => nsect t * 32 := by
  have hsize : pbd.chunksize * newcknum % 2 ^ 64 = pbd.disksize := by
    rw [hm.chunksize, ← hm.disksize, Nat.mod_eq_of_lt hm.lt]
  rw [Tools.verifyArgs, if_neg (by omega), if_neg (by rw [hsize]; simp), h.header_zero hold]
  simp only [h.check 0 hold, h.nchunk, Bool.not_true, Bool.false_eq_true, if_false, ne_eq, not_true_eq_false]
  congr 1
  funext t
  have := h.layout.nsect_lt t
  rw [h.physet 0 hold]
  simp only [setPhy, objsize, pbdSectorSize]
  omega

theorem formatted (now : Nat) : Formatted crc nsect oldcknum hdr
      (applyTx d (newWrites crc nsect pbd oldcknum newcknum now)) :=
  (h.format fun _ hw => le_of_mem_newWrites h.layout hm hold hlt now hw).1

theorem cmdGrowfs_eq {force : Bool} (hpass : force = true ∨ headerValid crc d oldcknum = false) :
    cmdGrowfs crc now pbd oldcknum newcknum force d =
      (newWrites crc nsect pbd oldcknum newcknum now ++
        headerWrites crc oldcknum newcknum hdr, .ok) := by
  have hsec : checkGlobalSecurity crc d oldcknum force = .ok := by
    rcases hpass with rfl | hpass
    · simp [checkGlobalSecurity]
    · simp [checkGlobalSecurity, hpass]
  have hfmt := h.formatted hm hold hlt now
  simp only [cmdGrowfs, hm.getPbdsize (by omega), h.verifyArgs hm hold hlt, hsec, ne_eq, not_true_eq_false, if_false, pfsGrow]
  rw [newWrites] at hfmt ⊢
  rw [rewriteHeaders_eq hm.chunksize hfmt.header hfmt.check]
  rfl

theorem cmdGrowfs_refused (hvalid : headerValid crc d oldcknum = true) :
    cmdGrowfs crc now pbd oldcknum newcknum false d = ([], .exitEbusy) := by
  simp [cmdGrowfs, hm.getPbdsize (show 0 < newcknum by omega), h.verifyArgs hm hold hlt, checkGlobalSecurity, hvalid]

theorem grow_completes {force : Bool} (hpass : force = true ∨ headerValid crc d oldcknum = false) :
    (cmdGrowfs crc now pbd oldcknum newcknum force d).2 = .ok ∧
      Grown crc nsect oldcknum newcknum (applyTx d (cmdGrowfs crc now pbd oldcknum newcknum force d).1) := by
  have hfmt := h.formatted hm hold hlt now
  rw [h.cmdGrowfs_eq hm hold hlt hpass]
  refine ⟨rfl, ?_⟩
  have hall : (headerWrites crc oldcknum newcknum hdr).take oldcknum = headerWrites crc oldcknum newcknum hdr :=
    List.take_of_length_le (by simp [headerWrites])
  rw [applyTx_append, ← hall]
  exact hfmt.grown hm.newcknum_lt (fun i hi hoi s v hs => applyTx_newWrites h.layout hm hold hlt hi hoi hs) le_rfl

/-- The device after the first `k` writes of a run: still a volume of the old number of chunks, or a grown one. -/
theorem crash (now : Nat) (force : Bool) (k : Nat) :
    Untouched oldcknum hdr d (applyTx d ((cmdGrowfs crc now pbd oldcknum newcknum force d).1.take k)) ∧
      ((∃ hdr', Formatted crc nsect oldcknum hdr' (applyTx d ((cmdGrowfs crc now pbd oldcknum newcknum force d).1.take k))) ∨
        Grown crc nsect oldcknum newcknum (applyTx d ((cmdGrowfs crc now pbd oldcknum newcknum force d).1.take k))) := by
  by_cases hpass : force = true ∨ headerValid crc d oldcknum = false
  · rw [h.cmdGrowfs_eq hm hold hlt hpass, List.take_append, applyTx_append]
    have hle : ∀ w ∈ newWrites crc nsect pbd oldcknum newcknum now,
        pbdChunkSize * oldcknum ≤ w.1 := fun w hw => le_of_mem_newWrites h.layout hm hold hlt now hw
    have hfmt := h.format fun w hw => hle w (List.mem_of_mem_take (i := k) hw)
    set m := k - (newWrites crc nsect pbd oldcknum newcknum now).length
    refine ⟨hfmt.2.trans (hfmt.1.untouched_headers m), ?_⟩
    rcases Nat.lt_or_ge m oldcknum with hmlt | hmge
    · exact Or.inl ⟨_, hfmt.1.headers hmlt⟩
    -- the second loop has written, so the first is through
    right
    have hall : (newWrites crc nsect pbd oldcknum newcknum now).take k =
        newWrites crc nsect pbd oldcknum newcknum now :=
      List.take_of_length_le (by omega)
    refine hfmt.1.grown hm.newcknum_lt (fun i hi hoi s v hs => ?_) hmge
    rw [hall]
    exact applyTx_newWrites h.layout hm hold hlt hi hoi hs
  · simp only [not_or, Bool.not_eq_true, Bool.not_eq_false] at hpass
    obtain ⟨rfl, hvalid⟩ := hpass
    rw [h.cmdGrowfs_refused hm hold hlt hvalid, List.take_nil]
    exact ⟨⟨fun _ _ _ => rfl, fun i hi => ⟨(hdr i).nchunk, (hdr i).checksum, h.header i hi⟩⟩, Or.inl ⟨hdr, h⟩⟩

end Formatted

end

/-- A crash between any two writes of `growfs` leaves the old chunks untouched and chunk 0 naming the old or
the new number of chunks. In the second case the volume has grown; in the first `growfs` run again completes,
with `-f`, and without it unless the first new chunk has got its header, where it is refused. -/
theorem growfs_crash_safe (crc : ChunkPhy → Nat) (nsect : MetaType → Nat) (hdr : Nat → ChunkPhy) (d : Pbd) (pbd : PbdInfo)
    (oldcknum newcknum now : Nat) (force : Bool) (hold : 0 < oldcknum) (hlt : oldcknum < newcknum)
    (hm : Matches pbd newcknum) (h : Formatted crc nsect oldcknum hdr d) (k : Nat) :
    let crash := applyTx d ((cmdGrowfs crc now pbd oldcknum newcknum force d).1.take k)
    Untouched oldcknum hdr d crash ∧
      (((∃ phyck, crash 0 = .chunk phyck ∧ phyck.nchunk = oldcknum) ∧
          ∀ (now' : Nat) (force' : Bool),
            if force' = true ∨ headerValid crc crash oldcknum = false then
              (cmdGrowfs crc now' pbd oldcknum newcknum force' crash).2 = .ok ∧
                Grown crc nsect oldcknum newcknum
                  (applyTx crash (cmdGrowfs crc now' pbd oldcknum newcknum force' crash).1)
            else cmdGrowfs crc now' pbd oldcknum newcknum force' crash = ([], .exitEbusy)) ∨
        ((∃ phyck, crash 0 = .chunk phyck ∧ phyck.nchunk = newcknum) ∧ Grown crc nsect oldcknum newcknum crash)) := by
  intro crash
  obtain ⟨huntouched, ⟨hdr', hcrash⟩ | hgrown⟩ := h.crash hm hold hlt now force k
  · refine ⟨huntouched, Or.inl ⟨⟨hdr' 0, hcrash.header_zero hold, hcrash.nchunk⟩, fun now' force' => ?_⟩⟩
    split
    · exact hcrash.grow_completes hm hold hlt ‹_›
    · rename_i hrefused
      simp only [not_or, Bool.not_eq_true, Bool.not_eq_false] at hrefused
      obtain ⟨rfl, hvalid⟩ := hrefused
      exact hcrash.cmdGrowfs_refused hm hold hlt hvalid
  · exact ⟨huntouched, Or.inr ⟨hgrown.header_zero (by omega), hgrown⟩⟩

/-! ## A small volume -/

/-- A checksum that depends on the fields `growfs` changes. -/
def sampleCrc (phyck : ChunkPhy) : Nat := phyck.number + 2 * phyck.nchunk + 1

/-- A volume of `n` chunks with one sector per set, on a device whose other chunks are blank. -/
def samplePbd (n : Nat) : Pbd := fun a =>
  let ckid := a / pbdChunkSize
  let objs (t : MetaType) : Sector := .objs ((List.range' 0 32).map (newObj (fun _ => 1) ckid t))
  if n ≤ ckid then .other 0
  else if a % pbdChunkSize = 0 then .chunk (newHeader sampleCrc (fun _ => 1) n ckid)
  else if a % pbdChunkSize = 4096 then objs .blktag
  else if a % pbdChunkSize = 8192 then objs .direntry
  else if a % pbdChunkSize = 12288 then objs .inode
  else .other 0

theorem formatted_samplePbd (n : Nat) :
    Formatted sampleCrc (fun _ => 1) n (newHeader sampleCrc (fun _ => 1) n) (samplePbd n) where
  layout := ⟨fun _ => by decide, by decide⟩
  header i hi := by simp [samplePbd, sectBda, pbdChunkSize, hi]
  check i _ := metaCheckChunk_newHeader i
  number _ _ := rfl
  physet _ _ := rfl
  nchunk := rfl
  objs i hi t f hf := by
    obtain rfl : f = 0 := by omega
    refine ⟨(List.range' 0 32).map (newObj (fun _ => 1) i t), ?_, map_number_newObj i t _⟩
    have hckid : ∀ c < 10737418240, (10737418240 * i + c) / 10737418240 = i := fun c hc => by omega
    cases t <;> simp [samplePbd, sectBda, setSect, pbdSectorSize, pbdChunkSize, hckid, hi]

/-- The number of chunks that a header names. -/
def nchunkAt (d : Pbd) (ckid : Nat) : Nat :=
  match d (sectBda ckid 0) with
  | .chunk phyck => phyck.nchunk
  | _ => 0

/-- The process dies after the three sets and the header of chunk 1: run again as before, `growfs` does not
complete. On a volume of two chunks it dies one write later: the header of chunk 1 is new, that of chunk 0 old. -/
theorem rerun_growfs_refused :
    (Formatted sampleCrc (fun _ => 1) 1 (newHeader sampleCrc (fun _ => 1) 1) (samplePbd 1) ∧
      (cmdGrowfs sampleCrc 0 ⟨2 * pbdChunkSize, pbdChunkSize⟩ 1 2 false (samplePbd 1)).2 = .ok ∧
      (cmdGrowfs sampleCrc 0 ⟨2 * pbdChunkSize, pbdChunkSize⟩ 1 2 false (applyTx (samplePbd 1)
        ((cmdGrowfs sampleCrc 0 ⟨2 * pbdChunkSize, pbdChunkSize⟩ 1 2 false (samplePbd 1)).1.take 4))).2 = .exitEbusy) ∧
    Formatted sampleCrc (fun _ => 1) 2 (newHeader sampleCrc (fun _ => 1) 2) (samplePbd 2) ∧
      nchunkAt (samplePbd 2) 1 = 2 ∧
      let crash := applyTx (samplePbd 2)
        ((cmdGrowfs sampleCrc 0 ⟨3 * pbdChunkSize, pbdChunkSize⟩ 2 3 false (samplePbd 2)).1.take 5)
      nchunkAt crash 0 = 2 ∧ nchunkAt crash 1 = 3 :=
  ⟨⟨formatted_samplePbd 1, by decide +kernel, by decide +kernel⟩, formatted_samplePbd 2, rfl, by decide +kernel⟩

theorem growfs_crash_safe_sample :
    Grown sampleCrc (fun _ => 1) 1 2 (applyTx (samplePbd 1)
      ((cmdGrowfs sampleCrc 0 ⟨2 * pbdChunkSize, pbdChunkSize⟩ 1 2 false (samplePbd 1)).1.take 5)) := by
  have h := growfs_crash_safe sampleCrc (fun _ => 1) (newHeader sampleCrc (fun _ => 1) 1) (samplePbd 1)
    ⟨2 * pbdChunkSize, pbdChunkSize⟩ 1 2 0 false (by decide) (by decide) ⟨rfl, by decide, by decide⟩
    (formatted_samplePbd 1) 5
  rcases h.2 with ⟨⟨phyck, hfirst, hn⟩, _⟩ | ⟨_, hgrown⟩
  · have hnew : nchunkAt (applyTx (samplePbd 1)
        ((cmdGrowfs sampleCrc 0 ⟨2 * pbdChunkSize, pbdChunkSize⟩ 1 2 false (samplePbd 1)).1.take 5)) 0 = 2 := by
      decide +kernel
    rw [nchunkAt, show sectBda 0 0 = 0 from rfl, hfirst] at hnew
    exact absurd (hn.symm.trans hnew) (by decide)
  · exact hgrown

end PolarFs.Tools
