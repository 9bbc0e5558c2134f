/-
The chunk header: the first sector of every chunk of the device, which names the number of chunks and
the place of the three metadata sets. The device is a map from block device addresses to sectors.
-/
import PolarFs.Meta.MetaTx
import PolarFs.Lib.RedoLog

namespace PolarFs.Meta

/-- `PBD_CHUNK_SIZE`. -/
def pbdChunkSize : Nat := 10737418240

/-- `PBD_SECTOR_SIZE`. -/
def pbdSectorSize : Nat := 4096

/-- `PFS_BLOCK_SIZE`. -/
def pfsBlockSize : Nat := 4194304

/-- `PFS_CHUNK_MAGIC`. -/
def pfsChunkMagic : Nat := 0x5046534348

/-- `PFS_MAX_VERSION`. -/
def pfsMaxVersion : Nat := 64

/-- `pfs_metaset_phy_t`. -/
structure MetasetPhy where
  sectbda : Nat
  nsect : Nat
  objsize : Nat
  deriving DecidableEq, Repr

/-- `pfs_chunk_phy_t`. -/
structure ChunkPhy where
  magic : Nat
  chunksize : Nat
  blksize : Nat
  sectsize : Nat
  number : Nat
  nchunk : Nat
  physet : MetaType → MetasetPhy
  checksum : Nat

/-- `mo_data` of the three types, without the fields that only mounted volumes write. -/
inductive ObjData where
  | blktag
  | direntry (ino dirino extdeno : Nat) (name : String)
  | inode (deno type nlink btime : Nat)
  deriving DecidableEq, Repr

/-- `pfs_metaobj_phy_t` as it lies in a sector. -/
structure MetaObjPhy where
  number : Nat
  next : Nat
  prev : Nat
  type : MetaType
  used : Bool
  data : ObjData
  deriving DecidableEq, Repr

/-- What a sector holds: a chunk header, metadata objects, or bytes that are neither. -/
inductive Sector where
  | chunk (phyck : ChunkPhy)
  | objs (mobuf : List MetaObjPhy)
  | other (bytes : Nat)

/-- The sectors of the device by their `bda`. -/
abbrev Pbd := Nat → Sector

/-- The `bda` of a sector of a chunk. -/
def sectBda (ckid sect : Nat) : Nat := pbdChunkSize * ckid + pbdSectorSize * sect

theorem sectBda_inj {i j s s' : Nat} (hs : s < 1024) (hs' : s' < 1024) (h : sectBda i s = sectBda j s') :
    i = j ∧ s = s' := by
  simp only [sectBda, pbdChunkSize, pbdSectorSize] at h
  omega

theorem sectBda_zero (i : Nat) : sectBda i 0 = pbdChunkSize * i := by
  rw [sectBda, Nat.mul_zero, Nat.add_zero]

theorem sectBda_lt {i n s : Nat} (hi : i < n) (hs : s < 1024) : sectBda i s < pbdChunkSize * n := by
  simp only [sectBda, pbdChunkSize, pbdSectorSize]
  omega

theorem le_sectBda {i n : Nat} (hi : n ≤ i) (s : Nat) : pbdChunkSize * n ≤ sectBda i s := by
  simp only [sectBda, pbdChunkSize, pbdSectorSize]
  omega

/-! ## Validity -/

/-- `crc32c_compute` of a header, with the field `ck_checksum` taken as zero. -/
def ChunkPhy.crc32cCompute (crc : ChunkPhy → Nat) (phyck : ChunkPhy) : Nat := crc { phyck with checksum := 0 }

/-- `chunk_magic_valid`: chunk 0 carries the version of the volume in its magic. -/
def chunkMagicValid (ckid magic : Nat) : Bool :=
  magic == pfsChunkMagic ||
    (ckid == 0 && decide (pfsChunkMagic ≤ magic) && decide (magic - pfsChunkMagic < pfsMaxVersion))

/-- `pfs_version_get`. -/
def pfsVersionGet : Nat := 2

/-- `chunk_magic_make`. -/
def chunkMagicMake (ckid : Nat) : Nat := if ckid ≠ 0 then pfsChunkMagic else pfsChunkMagic + pfsVersionGet

/-- The test of `ck_checksum`; headers of old versions have none. -/
def ChunkPhy.checksumValid (crc : ChunkPhy → Nat) (phyck : ChunkPhy) : Bool :=
  phyck.checksum == 0 || phyck.checksum == phyck.crc32cCompute crc

/-- `pfs_meta_check_chunk`; false where it ends the process. -/
def metaCheckChunk (crc : ChunkPhy → Nat) (phyck : ChunkPhy) : Bool :=
  phyck.checksumValid crc && chunkMagicValid phyck.number phyck.magic && phyck.chunksize == pbdChunkSize &&
    phyck.sectsize == pbdSectorSize

/-- `chunk_isvalid`. -/
def chunkIsvalid (crc : ChunkPhy → Nat) (phyck : ChunkPhy) (ckid : Nat) : Bool :=
  chunkMagicValid phyck.number phyck.magic && phyck.chunksize == pbdChunkSize && phyck.sectsize == pbdSectorSize &&
    phyck.number == ckid && phyck.checksumValid crc

/-- The header with its checksum computed anew. -/
def ChunkPhy.sealed (crc : ChunkPhy → Nat) (phyck : ChunkPhy) : ChunkPhy :=
  { phyck with checksum := phyck.crc32cCompute crc }

variable {crc : ChunkPhy → Nat} {phyck : ChunkPhy}

@[simp] theorem sealed_magic : (phyck.sealed crc).magic = phyck.magic := rfl

@[simp] theorem sealed_chunksize : (phyck.sealed crc).chunksize = phyck.chunksize := rfl

@[simp] theorem sealed_sectsize : (phyck.sealed crc).sectsize = phyck.sectsize := rfl

@[simp] theorem sealed_number : (phyck.sealed crc).number = phyck.number := rfl

@[simp] theorem checksumValid_sealed : (phyck.sealed crc).checksumValid crc = true := by
  simp [ChunkPhy.checksumValid, ChunkPhy.sealed, ChunkPhy.crc32cCompute]

theorem chunkMagicValid_make (ckid : Nat) : chunkMagicValid ckid (chunkMagicMake ckid) = true := by
  by_cases h : ckid = 0
  · subst h
    decide
  · simp [chunkMagicValid, chunkMagicMake, h]

end PolarFs.Meta
