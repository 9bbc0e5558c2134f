/-
Sequences of calls on one file: every read returns the bytes of the byte array that the same calls
make, as long as no call reaches a block id that the index does not find. A file can be truncated to
more than that, and then reads the block of another id.
-/
import PolarFs.File.Refinement

namespace PolarFs.File

open Bytes Transition BlkTables Traced Inode

variable {g : Geometry} {s : Traced} {f : Inode}

/-! ## Every run -/

/-- The file stands for the byte array next to it, and is no larger than the index allows. -/
structure Traced.Inv (g : Geometry) (s : Traced) : Prop where
  holds : s.file.Holds g s.posix.byte
  size : s.file.size = s.posix.size
  bound : s.posix.size ≤ maxBlkid * g.blksize

/-- Every read returns what the byte array has there. -/
def ReadsPosix (g : Geometry) (s : Traced) : Prop :=
  ∀ off len, off + len < 2 ^ 63 → s.file.read g len off = .ok (s.posix.read off len)

/-- The call ends below block id 2^35. -/
def withinIndex (g : Geometry) (s : Traced) : FileEvent → Bool
  | .write data off => decide (off.getD s.file.size + data.length ≤ maxBlkid * g.blksize)
  | .truncate _ len => decide (len ≤ maxBlkid * g.blksize)
  | .allocate off len _ _ => decide (off.getD s.file.size + len ≤ maxBlkid * g.blksize)
  | .other _ _ => true

theorem Traced.Inv.readsPosix (h : s.Inv g) : ReadsPosix g s := by
  intro off len hend
  have hsz := h.size
  have hbound := h.bound
  have hmod : Int.bmod (off + len : Nat) (2 ^ 64) = (off + len : Nat) := Int.bmod_eq_of_le (by omega) (by omega)
  -- the clipped length is the one of the byte array
  have hlen : (if s.file.size ≤ off then 0
      else if (s.file.size : Int) ≤ Int.bmod (off + len : Nat) (2 ^ 64) then s.file.size - off else len) =
      min len (s.posix.size - off) := by
    rw [hmod]
    split
    · omega
    · split <;> omega
  rw [Inode.read, hlen, h.holds.readLoop_eq (by omega) (by omega)]
  rfl

theorem Traced.Inv.write (h : s.Inv g) {data : List UInt8} {off : Option Nat}
    (hmax : off.getD s.file.size + data.length ≤ maxBlkid * g.blksize)
    (hrun : s.file.write g data off = .ok f) : Traced.Inv g ⟨f, s.posix.write (off.getD s.posix.size) data⟩ := by
  rw [Inode.write] at hrun
  cases hloop : writeLoop g s.file.size s.file (off.getD s.file.size) 0 data with
  | error e =>
    rw [hloop] at hrun
    cases hrun
  | ok r =>
    rw [hloop] at hrun
    cases hrun
    obtain ⟨hholds, hsz, -, hinc⟩ := h.holds.writeLoop_eq hmax hloop
    rw [h.size] at hholds hinc hmax
    have hbound := h.bound
    have hsize : r.1.size + r.2 = (s.posix.write (off.getD s.posix.size) data).size := by
      rw [hsz, h.size, hinc]
      show _ = if data = [] then s.posix.size else _
      by_cases hd : data = []
      · rw [if_pos hd, if_neg fun hc => hc.1 hd]
        rfl
      · rw [if_neg hd]
        simp only [ne_eq, hd, not_false_eq_true, true_and]
        split <;> omega
    refine ⟨hholds.setSize _, hsize, ?_⟩
    show (if data = [] then s.posix.size else _) ≤ _
    split
    · exact hbound
    · exact max_le hbound hmax

theorem Traced.Inv.truncate (h : s.Inv g) {shrinksize len size : Nat} (hmax : len ≤ maxBlkid * g.blksize)
    (hrun : s.file.truncate g shrinksize len = .ok (f, size)) : Traced.Inv g ⟨f, s.posix.truncate size⟩ := by
  have hzero : ∀ i, s.file.size ≤ i → s.posix.byte i = 0 := by
    rw [h.size]
    exact s.posix.zero_past
  have hbound := h.bound
  obtain ⟨f', size', heq, hholds, hsz, hto⟩ := h.holds.truncate_eq hzero shrinksize (h.size ▸ hbound) hmax
  rw [heq] at hrun
  cases hrun
  refine ⟨hholds, hsz, ?_⟩
  show size ≤ _
  have := h.size
  omega

theorem Traced.Inv.allocate (h : s.Inv g) {off : Option Nat} {len : Nat} {keepSize : Bool} {free : List Nat}
    (hmax : off.getD s.file.size + len ≤ maxBlkid * g.blksize) (hnd : free.Nodup)
    (hfree : ∀ b ∈ free, b ≠ 0 ∧ s.file.btBlkid b = none) (hrun : s.file.allocate g false off len keepSize free = .ok f) :
    Traced.Inv g ⟨f, if keepSize || len == 0 then s.posix else s.posix.grow (off.getD s.posix.size + len)⟩ := by
  rw [Inode.allocate] at hrun
  cases hloop : allocLoop g false s.file (off.getD s.file.size) len s.file.size free with
  | error e =>
    rw [hloop] at hrun
    cases hrun
  | ok r =>
    rw [hloop] at hrun
    cases hrun
    obtain ⟨hholds, hsz, hfs⟩ := h.holds.allocLoop_eq hmax hnd hfree hloop
    rw [h.size] at hfs hmax
    have hbound := h.bound
    cases keepSize with
    | true => exact ⟨hholds, hsz.trans h.size, hbound⟩
    | false =>
      by_cases h0 : len = 0
      · rw [if_pos h0] at hfs
        rw [if_neg (by rw [h.size]; omega), if_pos (by simp [h0])]
        exact ⟨hholds, hsz.trans h.size, hbound⟩
      · rw [if_neg h0] at hfs
        rw [if_neg (c := (false || len == 0) = true) (by simpa using h0)]
        have hgrow : s.posix.size ≤ r.2 := by omega
        refine ⟨?_, ?_, max_le hbound hmax⟩
        · split
          · exact hholds.setSize _
          · exact hholds
        · show Inode.size (if _ then _ else _) = max s.posix.size (off.getD s.posix.size + len)
          have := h.size
          split
          · exact hfs
          · rw [hsz, ← hfs]
            simp only [Bool.not_false, true_and] at *
            omega

theorem Traced.Inv.other (h : s.Inv g) {blkno : Nat} (hfree : s.file.btBlkid blkno = none) (bytes : Nat → UInt8) :
    Traced.Inv g { s with file := { s.file with
      dev := fun a => if a / g.blksize = blkno then bytes (a % g.blksize) else s.file.dev a } } := by
  refine ⟨⟨h.holds.index, h.holds.tag, fun b p hp => ?_⟩, h.size, h.bound⟩
  rw [h.holds.content_block hp, content]
  dsimp only
  cases hb : (s.file.blks.dblk b).empty with
  | true => rw [Dblk.hole_of_empty hb, if_neg (Nat.not_lt_zero p), if_neg (Nat.not_lt_zero p)]
  | false =>
    -- the block is in this file, so that it is not the one written
    rw [if_neg (c := _ / g.blksize = blkno)]
    intro heq
    have htag := h.holds.tag b hb
    rw [show (s.file.blks.dblk b).blkno = blkno from (g.fblkid_eq hp).symm.trans heq, hfree] at htag
    cases htag

theorem Traced.step_inv {s' : Traced} {ev : FileEvent} (h : s.Inv g) (hok : withinIndex g s ev = true)
    (hs : s.step g ev = some s') : s'.Inv g := by
  cases ev <;> simp only [Traced.step, Traced.allocate] at hs <;> simp only [withinIndex, decide_eq_true_eq] at hok
  case write data off =>
    split at hs <;> cases hs
    case h_1 f hf => exact h.write hok hf
  case truncate shrinksize len =>
    split at hs <;> cases hs
    case h_1 f size hf => exact h.truncate hok hf
  case allocate off len keepSize free =>
    obtain ⟨hc, hs⟩ := Option.ite_none_right_eq_some.1 hs
    split at hs <;> cases hs
    case h_1 f hf => exact h.allocate hok hc.1 hc.2 hf
  case other blkno bytes =>
    split at hs <;> cases hs
    case isTrue hc => exact h.other hc bytes

theorem Traced.init_inv (hs : (fileSystem g).init s) : s.Inv g := by
  obtain ⟨hb, -, hsz, hp⟩ := hs
  have hdblk : ∀ b, s.file.blks.dblk b = zerodblk := fun b => by rw [hb]; rfl
  refine ⟨⟨⟨fun i => ?_, fun i _ => ?_, fun n hn => ?_, fun b hu => ?_, fun b _ => hdblk b⟩, fun b hu => ?_, fun b p hlt => ?_⟩,
    ?_, ?_⟩
  · rw [hb]
    exact rfl
  · rw [hb]
    rfl
  · rw [hb] at hn
    cases hn
  · rw [hdblk] at hu
    cases hu
  · rw [hdblk] at hu
    cases hu
  · rw [hp, Inode.Holds.content_of_empty (by rw [hdblk]; rfl)]
    rfl
  · rw [hsz, hp]
    rfl
  · rw [hp]
    exact Nat.zero_le _

theorem Traced.inv_of_reachable (hs : ((fileSystem g).restrict fun s ev => withinIndex g s ev = true).Reachable s) :
    s.Inv g :=
  hs.invariant_restrict (fun _ hi => init_inv hi) fun _ _ _ h hok hstep => step_inv h hok hstep

/-- In every sequence of calls that end below block id 2^35, every read returns the bytes of the byte
array. -/
theorem read_returns_posix {s : Traced}
    (hs : ((fileSystem g).restrict fun s ev => withinIndex g s ev = true).Reachable s) : ReadsPosix g s :=
  (inv_of_reachable hs).readsPosix

/-! ## Block ids that the index takes for others -/

/-- What a block id is looked up as: its table number as an `int` and its place in the table. -/
theorem map_congr (f : Inode) {b c : Nat} (hidx : toInt32 (blkTableIdx b) = toInt32 (blkTableIdx c))
    (hvec : blkVecIdx b = blkVecIdx c) : f.map b = f.map c := by
  simp only [map, BlkTables.getBlk, BlkTables.get, hidx, hvec]

/-- A table number 2^32 further is the same `int`. -/
theorem map_alias (f : Inode) (b : Nat) : f.map (b + 2 ^ 36) = f.map b := by
  refine map_congr f ?_ (Fin.ext ?_)
  · have hmod : blkTableIdx (b + 2 ^ 36) % 2 ^ 32 = blkTableIdx b % 2 ^ 32 := by
      show (b + 2 ^ 36) / 16 % 2 ^ 32 = b / 16 % 2 ^ 32
      omega
    rw [toInt32, toInt32, hmod]
  · show (b + 2 ^ 36) % 16 = b % 16
    omega

theorem fblkid_alias (off : Nat) : g.fblkid (2 ^ 36 * g.blksize + off) = g.fblkid off + 2 ^ 36 := by
  show (2 ^ 36 * g.blksize + off) / g.blksize = off / g.blksize + 2 ^ 36
  rw [Nat.add_comm, Nat.add_mul_div_right _ _ g.blk_pos]

theorem fblkoff_alias (off : Nat) : g.fblkoff (2 ^ 36 * g.blksize + off) = g.fblkoff off := by
  show (2 ^ 36 * g.blksize + off) % g.blksize = off % g.blksize
  rw [Nat.add_comm, Nat.add_mul_mod_self_right]

/-- A file that grows to reach past block id 2^36 keeps its index. -/
theorem truncate_alias {byte : Nat → UInt8} (h : f.Holds g byte) {off : Nat} (hoff : off < f.size)
    (hmax : f.size ≤ maxBlkid * g.blksize) : f.truncate g 0 (2 ^ 36 * g.blksize + off + 1) =
      .ok ({ f with size := 2 ^ 36 * g.blksize + off + 1 }, 2 ^ 36 * g.blksize + off + 1) := by
  have hsize : f.size ≤ 2 ^ 36 * g.blksize := le_trans hmax (Nat.mul_le_mul_right _ (by decide))
  have hlast : g.fblkid (2 ^ 36 * g.blksize + off + 1 - 1) = g.fblkid off + 2 ^ 36 := by
    rw [Nat.add_sub_cancel, fblkid_alias]
  have hslide : f.slideHole g (2 ^ 36 * g.blksize + off + 1) = .ok f := by
    rw [slideHole, hlast, map_alias, h.map_eq (g.fblkid_lt (by omega))]
    show (if _ then _ else _) = _
    rw [if_neg (by omega)]
  -- the tables end long before
  have hdel : f.delFrom (g.fblkid off + 2 ^ 36 + 1) = .ok f := by
    have hn := h.index.nsoft_le
    have hidx : f.blks.nsoft ≤ blkTableIdx (g.fblkid off + 2 ^ 36 + 1) := by
      show _ ≤ (g.fblkid off + 2 ^ 36 + 1) / 16
      omega
    unfold delFrom
    cases f.blks.nsoft with
    | zero => rfl
    | succ n => rw [delTables, if_neg (by omega)]
  rw [truncate, shrinkLen, if_neg (by omega), truncateTo, if_neg (by omega), hslide, hlast]
  show Except.map _ (do let f ← f.delFrom _; _) = _
  rw [hdel]
  rfl

/-- A read of one byte below the size, in the block that the lookup finds. -/
theorem read_byte {off dblkno dbhoff : Nat} (hmap : f.map (g.fblkid off) = .ok (dblkno, dbhoff)) (hoff : off < f.size)
    (hend : off + 1 < 2 ^ 63) :
    f.read g 1 off = .ok [if g.fblkoff off < dbhoff then f.dev (dblkno * g.blksize + g.fblkoff off) else 0] := by
  have hmod : Int.bmod (off + 1 : Nat) (2 ^ 64) = (off + 1 : Nat) := Int.bmod_eq_of_le (by omega) (by omega)
  have hlen : (if f.size ≤ off then 0
      else if (f.size : Int) ≤ Int.bmod (off + 1 : Nat) (2 ^ 64) then f.size - off else 1) = 1 := by
    rw [hmod, if_neg (by omega)]
    split <;> omega
  have hlt := g.fblkoff_lt off
  have hnil : ∀ o, f.readLoop g o 0 = .ok [] := fun o => by rw [Inode.readLoop, dif_pos rfl]
  rw [Inode.read, hlen, Inode.readLoop, dif_neg one_ne_zero, hmap]
  show (if _ then _ else _) = _
  rw [if_neg (by omega)]
  by_cases hhole : dbhoff ≤ g.fblkoff off
  · rw [dif_pos hhole, if_neg (by omega)]
    dsimp only
    rw [show min (g.blksize - g.fblkoff off) 1 = 1 by omega, Nat.sub_self, hnil]
    rfl
  · rw [dif_neg hhole, if_pos (by omega)]
    dsimp only
    rw [blkioRead_eq, show min (min dbhoff g.blksize - g.fblkoff off) 1 = 1 by omega, Nat.sub_self, hnil]
    rfl

/-- Its last byte then reads as the byte 2^36 blocks before. -/
theorem read_alias {byte : Nat → UInt8} (h : f.Holds g byte) {off : Nat} (hoff : off < f.size)
    (hmax : f.size ≤ maxBlkid * g.blksize) (hend : 2 ^ 36 * g.blksize + off + 1 < 2 ^ 63) :
    Inode.read g { f with size := 2 ^ 36 * g.blksize + off + 1 } 1 (2 ^ 36 * g.blksize + off) = .ok [byte off] := by
  have hmap : map { f with size := 2 ^ 36 * g.blksize + off + 1 } (g.fblkid (2 ^ 36 * g.blksize + off)) =
      .ok ((f.blks.dblk (g.fblkid off)).blkno, (f.blks.dblk (g.fblkid off)).hole) := by
    rw [fblkid_alias, map_alias]
    exact h.map_eq (g.fblkid_lt (by omega))
  have hbyte : byte off = f.content g (g.fblkid off) (g.fblkoff off) := by
    rw [← h.content _ _ (g.fblkoff_lt off), g.fblkid_mul_add]
  rw [read_byte hmap (Nat.lt_succ_self _) hend, fblkoff_alias, hbyte]
  rfl

/-- A file with a byte that is not zero does not read as a byte array any more once it is truncated to
end 2^36 blocks after that byte. -/
theorem Traced.Inv.exists_not_readsPosix (h : s.Inv g) (off : Nat) (hoff : off < s.posix.size)
    (hne : s.posix.byte off ≠ 0) (hend : 2 ^ 36 * g.blksize + off + 1 < 2 ^ 63) :
    ∃ s', s.step g (.truncate 0 (2 ^ 36 * g.blksize + off + 1)) = some s' ∧ ¬ ReadsPosix g s' := by
  have hoff' : off < s.file.size := h.size ▸ hoff
  have hmax : s.file.size ≤ maxBlkid * g.blksize := h.size ▸ h.bound
  refine ⟨_, by rw [Traced.step, truncate_alias h.holds hoff' hmax], fun hreads => hne ?_⟩
  have hread := hreads (2 ^ 36 * g.blksize + off) 1 hend
  rw [read_alias h.holds hoff' hmax hend] at hread
  have hpast : s.posix.byte (2 ^ 36 * g.blksize + off) = 0 := by
    refine s.posix.zero_past _ (le_trans h.bound (le_trans ?_ (Nat.le_add_right ..)))
    exact Nat.mul_le_mul_right _ (by decide)
  have hposix : (s.posix.truncate (2 ^ 36 * g.blksize + off + 1)).read (2 ^ 36 * g.blksize + off) 1 = [0] := by
    rw [ByteFile.read, show (s.posix.truncate _).size = 2 ^ 36 * g.blksize + off + 1 from rfl,
      show min 1 (2 ^ 36 * g.blksize + off + 1 - (2 ^ 36 * g.blksize + off)) = 1 by omega]
    show [if 2 ^ 36 * g.blksize + off + 0 < 2 ^ 36 * g.blksize + off + 1 then s.posix.byte _ else 0] = _
    rw [if_pos (by omega), Nat.add_zero, hpast]
  rw [hposix] at hread
  exact List.head_eq_of_cons_eq (Except.ok.inj hread)

/-! ## A file of one byte -/

/-- `_pfs_pwrite`: allocation without a change of the size, then the write. -/
theorem Traced.Inv.pwrite (h : s.Inv g) (data : List UInt8) (off : Nat) {free : List Nat}
    (hmax : off + data.length ≤ maxBlkid * g.blksize) (hnd : free.Nodup)
    (hfree : ∀ b ∈ free, b ≠ 0 ∧ s.file.btBlkid b = none) (henough : data.length ≤ free.length) :
    ∃ s₁ s₂, s.step g (.allocate (some off) data.length true free) = some s₁ ∧
      s₁.step g (.write data (some off)) = some s₂ ∧ s₂.posix = s.posix.write off data := by
  obtain ⟨r, hr, hmapped, -⟩ := h.holds.allocLoop_ok s.file.size hmax hnd hfree henough
  obtain ⟨hholds, -⟩ := h.holds.allocLoop_eq hmax hnd hfree hr
  obtain ⟨r', hr'⟩ := hholds.writeLoop_ok r.1.size 0 hmax hmapped
  have halloc : s.file.allocate g false (some off) data.length true free = .ok r.1 := by
    rw [Inode.allocate, Option.getD_some, hr]
    rfl
  obtain ⟨f₂, hwrite⟩ : ∃ f₂, r.1.write g data (some off) = .ok f₂ :=
    ⟨_, by rw [Inode.write, Option.getD_some, hr']; rfl⟩
  refine ⟨⟨r.1, s.posix⟩, ⟨f₂, s.posix.write off data⟩, ?_, ?_, rfl⟩
  · rw [Traced.step, Traced.allocate, if_pos ⟨hnd, hfree⟩, halloc]
    rfl
  · rw [Traced.step, hwrite]
    rfl

/-- A new file on a device of ones. -/
def Traced.created : Traced := ⟨⟨init, fun _ => none, 0, fun _ => 1⟩, ByteFile.empty⟩

theorem Traced.created_init : (fileSystem pfsGeometry).init created := ⟨rfl, rfl, rfl, rfl⟩

/-- Device block 7 for block 0, then a byte into it. -/
theorem Traced.exists_one_byte :
    ∃ s, ((fileSystem pfsGeometry).restrict fun s ev => withinIndex pfsGeometry s ev = true).Reachable s ∧
      s.posix.size = 1 ∧ s.posix.byte 0 = 65 := by
  obtain ⟨s₁, s₂, h₁, h₂, hp⟩ := (init_inv created_init).pwrite [65] 0
    (by decide) (List.nodup_singleton 7) (by intro b hb; rw [List.mem_singleton] at hb; subst hb; exact ⟨by decide, rfl⟩) (by decide)
  have hs₀ : ((fileSystem pfsGeometry).restrict fun s ev => withinIndex pfsGeometry s ev = true).Reachable
      created := .init created_init
  have hs₁ : ((fileSystem pfsGeometry).restrict fun s ev => withinIndex pfsGeometry s ev = true).Reachable s₁ :=
    hs₀.step_restrict (e := FileEvent.allocate (some 0) 1 true [7]) rfl h₁
  refine ⟨s₂, hs₁.step_restrict (e := FileEvent.write [65] (some 0)) rfl h₂, ?_, ?_⟩
  · rw [hp]
    rfl
  · rw [hp]
    rfl

/-- Write a byte, truncate the file to 2^58 + 1 bytes: the last byte reads as the first one. -/
theorem not_read_returns_posix : ¬ ∀ (g : Geometry) (s : Traced), (fileSystem g).Reachable s → ReadsPosix g s := by
  intro hall
  obtain ⟨s, hs, hsize, hbyte⟩ := exists_one_byte
  obtain ⟨s', hstep, hnot⟩ := (inv_of_reachable hs).exists_not_readsPosix 0 (by rw [hsize]; decide)
    (by rw [hbyte]; decide) (by decide)
  exact hnot (hall _ _ (.step (e := .truncate 0 _) hs.of_restrict hstep))

/-- The theorem's runs write. -/
theorem read_returns_posix_one_byte :
    ∃ s, ((fileSystem pfsGeometry).restrict fun s ev => withinIndex pfsGeometry s ev = true).Reachable s ∧
      s.file.read pfsGeometry 5 0 = .ok [65] := by
  obtain ⟨s, hs, hsize, hbyte⟩ := exists_one_byte
  refine ⟨s, hs, ?_⟩
  rw [read_returns_posix hs 0 5 (by decide), ByteFile.read, hsize]
  show Except.ok [s.posix.byte 0] = _
  rw [hbyte]

end PolarFs.File
