/-
Block IO (`pfs_blkio.cc`): a read or a write inside one block is cut at sector and fragment
boundaries, and a piece that does not fill its sectors goes through an aligned buffer, on a write by
read, modify and write. Here the pieces together are shown to be a plain read or write of the range.

The device is a function of the byte address (`pfs_bda_t`); its IO succeeds.
-/
import PolarFs.Lib.Bytes
import Mathlib.Tactic

namespace PolarFs.File

open Bytes

/-- `mnt_sectsize`, `mnt_fragsize` and `mnt_blksize`; a block offset fits an `int32_t`. -/
structure Geometry where
  sectsize : Nat
  fragsize : Nat
  blksize : Nat
  sect_pos : 0 < sectsize
  sect_dvd : sectsize ∣ fragsize
  frag_dvd : fragsize ∣ blksize
  blk_pos : 0 < blksize
  blk_lt : blksize < 2 ^ 31

/-- `PBD_SECTOR_SIZE`, `PFS_FRAG_SIZE` and `PFS_BLOCK_SIZE`. -/
def pfsGeometry : Geometry :=
  ⟨4096, 16384, 4194304, by decide, by decide, by decide, by decide, by decide⟩

abbrev Device : Type := Nat → UInt8

namespace Geometry

variable (g : Geometry)

theorem frag_pos : 0 < g.fragsize := Nat.pos_of_dvd_of_pos g.frag_dvd g.blk_pos

theorem sect_le_frag : g.sectsize ≤ g.fragsize := Nat.le_of_dvd g.frag_pos g.sect_dvd

/-- `roundup(x, mnt_sectsize)`. -/
def roundup (x : Nat) : Nat := (x + (g.sectsize - 1)) / g.sectsize * g.sectsize

/-- `pfs_blkio_align`: the aligned address, the length of the IO and the length of the operation. -/
def blkioAlign (bda len : Nat) : Nat × Nat × Nat :=
  let sectOff := bda % g.sectsize
  let fragOff := bda % g.fragsize
  if sectOff ≠ 0 then (bda - sectOff, g.sectsize, min (g.sectsize - sectOff) len)
  else
    let opLen := min (g.fragsize - fragOff) len
    (bda, g.roundup opLen, opLen)

theorem le_roundup (x : Nat) : x ≤ g.roundup x := by
  have h := Nat.lt_div_mul_add (a := x + (g.sectsize - 1)) g.sect_pos
  have := g.sect_pos
  unfold roundup
  omega

theorem roundup_le {x y : Nat} (hxy : x ≤ y) (hy : g.sectsize ∣ y) : g.roundup x ≤ y := by
  obtain ⟨k, rfl⟩ := hy
  have hlt : (x + (g.sectsize - 1)) / g.sectsize < k + 1 := by
    rw [Nat.div_lt_iff_lt_mul g.sect_pos, Nat.add_mul, Nat.one_mul, Nat.mul_comm k]
    have := g.sect_pos
    omega
  calc g.roundup x ≤ k * g.sectsize := Nat.mul_le_mul_right _ (Nat.le_of_lt_succ hlt)
    _ = g.sectsize * k := Nat.mul_comm ..

/-- What `pfs_blkio_align` asserts of its result, and that the operation makes progress inside the IO. -/
structure Aligned (bda len : Nat) (r : Nat × Nat × Nat) : Prop where
  addr_le : r.1 ≤ bda
  io_le : r.2.1 ≤ g.fragsize
  op_le : r.2.2 ≤ len
  op_pos : 0 < len → 0 < r.2.2
  inside : bda + r.2.2 ≤ r.1 + r.2.1
  direct : r.2.1 = r.2.2 → r.1 = bda

theorem blkioAlign_aligned (bda len : Nat) : g.Aligned bda len (g.blkioAlign bda len) := by
  have hs := Nat.mod_lt bda g.sect_pos
  have hf := Nat.mod_lt bda g.frag_pos
  have hle := Nat.mod_le bda g.sectsize
  unfold blkioAlign
  by_cases h0 : bda % g.sectsize = 0
  · rw [if_neg (by simpa using h0)]
    have hdvd : g.sectsize ∣ g.fragsize - bda % g.fragsize := by
      refine (Nat.dvd_sub g.sect_dvd ?_)
      exact (Nat.dvd_mod_iff g.sect_dvd).mpr (Nat.dvd_of_mod_eq_zero h0)
    have hround := g.roundup_le (min_le_left (g.fragsize - bda % g.fragsize) len) hdvd
    have hle' := g.le_roundup (min (g.fragsize - bda % g.fragsize) len)
    refine ⟨le_refl _, ?_, min_le_right .., fun hlen => lt_min (by omega) hlen, ?_, fun _ => rfl⟩
    · show g.roundup _ ≤ _
      omega
    · show bda + min _ _ ≤ bda + g.roundup _
      omega
  · rw [if_pos (by simpa using h0)]
    refine ⟨Nat.sub_le .., g.sect_le_frag, min_le_right .., fun hlen => lt_min (by omega) hlen, ?_, fun h => ?_⟩
    · show bda + min (g.sectsize - bda % g.sectsize) len ≤ bda - bda % g.sectsize + g.sectsize
      omega
    · -- the operation is shorter than the sector it lies in
      have : g.sectsize = min (g.sectsize - bda % g.sectsize) len := h
      omega

end Geometry

/-! ## Segments -/

/-- `pfs_blkio_read_segment`. -/
def blkioReadSegment (dev : Device) (albda allen bda len : Nat) : List UInt8 :=
  if allen ≠ len then ((readAt dev albda allen).drop (bda - albda)).take len else readAt dev bda len

/-- `pfs_blkio_write_segment`; `buf` is copied over its part of the aligned buffer. -/
def blkioWriteSegment (dev : Device) (albda allen bda : Nat) (buf : List UInt8) : Device :=
  if allen ≠ buf.length then
    let albuf := readAt dev albda allen
    writeAt dev albda (albuf.take (bda - albda) ++ buf ++ albuf.drop (bda - albda + buf.length))
  else writeAt dev bda buf

theorem blkioReadSegment_eq {dev : Device} {albda allen bda len : Nat} (hle : albda ≤ bda)
    (hin : bda + len ≤ albda + allen) : blkioReadSegment dev albda allen bda len = readAt dev bda len := by
  unfold blkioReadSegment
  split
  · rw [take_drop_readAt (by omega), Nat.add_sub_cancel' hle]
  · rfl

theorem blkioWriteSegment_eq {dev : Device} {albda allen bda : Nat} {buf : List UInt8} (hle : albda ≤ bda)
    (hin : bda + buf.length ≤ albda + allen) : blkioWriteSegment dev albda allen bda buf = writeAt dev bda buf := by
  unfold blkioWriteSegment
  split
  · rw [writeAt_readAt_splice (by omega), Nat.add_sub_cancel' hle]
  · rfl

/-! ## The loop -/

section Execute

variable {σ : Type} (g : Geometry)

/-- `pfs_blkio_execute`: `iofunc` gets the aligned range and the range of each piece. -/
def blkioExecute (iofunc : Nat → Nat → Nat → Nat → σ → σ) (blkno off left : Nat) (s : σ) : σ :=
  if _h : left = 0 then s
  else
    let bda := blkno * g.blksize + off
    let al := g.blkioAlign bda left
    blkioExecute iofunc blkno (off + al.2.2) (left - al.2.2) (iofunc al.1 al.2.1 bda al.2.2 s)
termination_by left
decreasing_by
  have := (g.blkioAlign_aligned (blkno * g.blksize + off) left).op_pos (by omega)
  omega

/-- What holds before the loop and after each piece, given how much is left, holds at its end. -/
theorem blkioExecute_induct (iofunc : Nat → Nat → Nat → Nat → σ → σ) (blkno : Nat) (P : Nat → Nat → σ → Prop)
    (hstep : ∀ off left s r, P off left s → g.Aligned (blkno * g.blksize + off) left r →
      P (off + r.2.2) (left - r.2.2) (iofunc r.1 r.2.1 (blkno * g.blksize + off) r.2.2 s))
    (off left : Nat) (s : σ) (h : P off left s) : ∃ off', P off' 0 (blkioExecute g iofunc blkno off left s) := by
  induction left using Nat.strong_induction_on generalizing off s with
  | _ left ih =>
    unfold blkioExecute
    by_cases h0 : left = 0
    · rw [dif_pos h0]
      exact ⟨off, h0 ▸ h⟩
    · rw [dif_neg h0]
      have hal := g.blkioAlign_aligned (blkno * g.blksize + off) left
      have hpos := hal.op_pos (by omega)
      exact ih _ (by omega) _ _ (hstep _ _ _ _ h hal)

end Execute

variable (g : Geometry)

/-- `pfs_blkio_read`. -/
def blkioRead (dev : Device) (blkno off len : Nat) : List UInt8 :=
  blkioExecute g (fun albda allen bda n data => data ++ blkioReadSegment dev albda allen bda n) blkno off len []

/-- `pfs_blkio_write`; a null pointer stands for zeros, which the callers here write out. -/
def blkioWrite (dev : Device) (blkno off : Nat) (data : List UInt8) : Device :=
  (blkioExecute g (fun albda allen bda n s => (blkioWriteSegment s.1 albda allen bda (s.2.take n), s.2.drop n))
    blkno off data.length (dev, data)).1

theorem blkioRead_eq (dev : Device) (blkno off len : Nat) :
    blkioRead g dev blkno off len = readAt dev (blkno * g.blksize + off) len := by
  -- after each piece: what is read so far, and what is left to read, make up the range
  let P : Nat → Nat → List UInt8 → Prop := fun o left data =>
    data ++ readAt dev (blkno * g.blksize + o) left = readAt dev (blkno * g.blksize + off) len
  let io := fun albda allen bda n data => data ++ blkioReadSegment dev albda allen bda n
  have hstep : ∀ o left data r, P o left data → g.Aligned (blkno * g.blksize + o) left r →
      P (o + r.2.2) (left - r.2.2) (io r.1 r.2.1 (blkno * g.blksize + o) r.2.2 data) := by
    intro o left data r h hal
    show _ ++ _ ++ _ = _
    rw [blkioReadSegment_eq hal.addr_le hal.inside, List.append_assoc, ← Nat.add_assoc, ← readAt_add,
      Nat.add_sub_cancel' hal.op_le]
    exact h
  obtain ⟨o, ho⟩ := blkioExecute_induct g io blkno P hstep off len [] (List.nil_append _)
  rw [← ho, readAt_zero, List.append_nil]
  rfl

theorem blkioWrite_eq (dev : Device) (blkno off : Nat) (data : List UInt8) :
    blkioWrite g dev blkno off data = writeAt dev (blkno * g.blksize + off) data := by
  let P : Nat → Nat → Device × List UInt8 → Prop := fun o left s =>
    s.2.length = left ∧ writeAt s.1 (blkno * g.blksize + o) s.2 = writeAt dev (blkno * g.blksize + off) data
  let io := fun albda allen bda n (s : Device × List UInt8) =>
    (blkioWriteSegment s.1 albda allen bda (s.2.take n), s.2.drop n)
  have hstep : ∀ o left s r, P o left s → g.Aligned (blkno * g.blksize + o) left r →
      P (o + r.2.2) (left - r.2.2) (io r.1 r.2.1 (blkno * g.blksize + o) r.2.2 s) := by
    rintro o left ⟨d, rest⟩ r ⟨hlen, h⟩ hal
    have hn : (rest.take r.2.2).length = r.2.2 := by
      rw [List.length_take, hlen, min_eq_left hal.op_le]
    refine ⟨by rw [List.length_drop, hlen], ?_⟩
    show writeAt (blkioWriteSegment d _ _ _ (rest.take r.2.2)) _ (rest.drop r.2.2) = _
    rw [blkioWriteSegment_eq hal.addr_le (by rw [hn]; exact hal.inside), ← h]
    conv_rhs => rw [← List.take_append_drop r.2.2 rest, ← writeAt_append, hn, Nat.add_assoc]
  obtain ⟨o, hlen, ho⟩ := blkioExecute_induct g io blkno P hstep off data.length (dev, data) ⟨rfl, rfl⟩
  rw [List.length_eq_zero_iff.mp hlen, writeAt_nil] at ho
  exact ho

end PolarFs.File
