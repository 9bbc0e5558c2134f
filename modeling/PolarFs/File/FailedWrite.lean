/-
A write that fails, or is cut short by a crash, before its transaction commits (`pfs_file_xpwrite`):
holes and size are rolled back, or never reach the journal, while the bytes that got to the device
stay there. A hole hides them; where the block has none, the next call that lets the file grow shows
them.
-/
import PolarFs.File.Posix

namespace PolarFs.File

open Bytes Transition Traced

variable {g : Geometry} {f : Inode} {s : Traced}

/-! ## Failing -/

/-- The byte is not in the hole of its block. -/
def Inode.written (g : Geometry) (f : Inode) (i : Nat) : Bool :=
  decide (g.fblkoff i < (f.blks.dblk (g.fblkid i)).hole)

inductive CrashEvent where
  | call (ev : FileEvent)
  /-- with `FALLOC_FL_NO_HIDE_STALE` -/
  | allocateStale (off : Option Nat) (len : Nat) (keepSize : Bool) (free : List Nat)
  /-- a write of `data` that stops after `n` bytes; `landed` tells which bytes the device took -/
  | failedWrite (data : List UInt8) (off : Option Nat) (n : Nat) (landed : Nat → Bool)

/-- The file after a failed write: as before, but for the bytes on the device. -/
def Inode.failedWrite (g : Geometry) (f : Inode) (data : List UInt8) (off : Nat) (landed : Nat → Bool) :
    Except FileErr Inode :=
  (Inode.writeLoop g f.size f off 0 data).map fun r =>
    { f with dev := fun a => if landed a then r.1.dev a else f.dev a }

/-- The loop of `pfs_file_write` stops after a block, or at the end of the data. -/
def stopsAt (g : Geometry) (off len n : Nat) : Bool := decide (n = len ∨ n < len ∧ g.fblkoff (off + n) = 0)

def Traced.crashStep (g : Geometry) (s : Traced) : CrashEvent → Option Traced
  | .call ev => s.step g ev
  | .allocateStale off len keepSize free => s.allocate g true off len keepSize free
  | .failedWrite data off n landed =>
    let start := off.getD s.file.size
    if stopsAt g start data.length n then
      match s.file.failedWrite g (data.take n) start landed with
      | .ok f => some ⟨f, s.posix.failWrite start (data.take n) fun i => landed (s.file.addr g i) && s.file.written g i⟩
      | .error _ => none
    else none

/-- The calls of `fileSystem`, with writes that fail and allocations of blocks without a hole among them. -/
def crashFileSystem (g : Geometry) : System Traced CrashEvent where
  init := (fileSystem g).init
  step := crashStep g

/-- The call ends below block id 2^35, and is no `fallocate` with `FALLOC_FL_NO_HIDE_STALE`; what a failed write left
on the device at or past the end of the file lies in a hole. -/
def leavesNoTail (g : Geometry) (s : Traced) : CrashEvent → Bool
  | .call ev => withinIndex g s ev
  | .allocateStale .. => false
  | .failedWrite _ off n landed =>
    let start := off.getD s.file.size
    decide (start + n ≤ BlkTables.maxBlkid * g.blksize) && (List.range n).all fun k =>
      decide (start + k < s.file.size) || !landed (s.file.addr g (start + k)) || !s.file.written g (start + k)

/-! ## Every run -/

/-- The bytes that a write puts on the device, seen through the index before it. -/
theorem Inode.Holds.writeLoop_dev {byte : Nat → UInt8} (h : f.Holds g byte) {fsize offset sizeinc : Nat}
    {data : List UInt8} {r : Inode × Nat} (hmax : offset + data.length ≤ BlkTables.maxBlkid * g.blksize)
    (hrun : Inode.writeLoop g fsize f offset sizeinc data = .ok r) {i : Nat} (hi : f.written g i = true) :
    r.1.dev (f.addr g i) = writeAt byte offset data i := by
  obtain ⟨hholds, -, hfills, -⟩ := h.writeLoop_eq hmax hrun
  have hlt := g.fblkoff_lt i
  have hblk := g.blk_lt
  have hcont := hholds.content (g.fblkid i) (g.fblkoff i) hlt
  rw [g.fblkid_mul_add] at hcont
  rw [hcont, Inode.content, hfills.blkno, if_pos]
  · rfl
  · rw [Inode.written, decide_eq_true_eq] at hi
    rcases hfills.hole (g.fblkid i) with heq | heq <;> rw [heq]
    · exact hi
    · unfold intMax; omega

theorem Inode.Holds.byte_eq {byte : Nat → UInt8} (h : f.Holds g byte) (i : Nat) :
    byte i = if f.written g i then f.dev (f.addr g i) else 0 := by
  have hcont := h.content (g.fblkid i) (g.fblkoff i) (g.fblkoff_lt i)
  rw [g.fblkid_mul_add] at hcont
  rw [hcont, Inode.content, Inode.written, Inode.addr]
  simp only [decide_eq_true_eq]

/-- An inode holds whatever its index and the device make. -/
theorem Inode.Holds.of_byte (hidx : f.blks.Inv)
    (htag : ∀ b, (f.blks.dblk b).empty = false → f.btBlkid (f.blks.dblk b).blkno = some b) {byte : Nat → UInt8}
    (hbyte : ∀ i, byte i = if f.written g i then f.dev (f.addr g i) else 0) : f.Holds g byte := by
  refine ⟨hidx, htag, fun b p hp => ?_⟩
  have hoff : g.fblkoff (b * g.blksize + p) = p := by
    show (b * g.blksize + p) % g.blksize = p
    rw [Nat.mul_comm, Nat.mul_add_mod, Nat.mod_eq_of_lt hp]
  rw [hbyte, Inode.written, Inode.addr, g.fblkid_eq hp, hoff, Inode.content]
  simp only [decide_eq_true_eq]

theorem Traced.Inv.failedWrite (h : s.Inv g) {data : List UInt8} {start : Nat} {landed : Nat → Bool}
    (hmax : start + data.length ≤ BlkTables.maxBlkid * g.blksize)
    (htail : ∀ i, start ≤ i → i < start + data.length → s.file.size ≤ i → landed (s.file.addr g i) = true →
      s.file.written g i = false) (hrun : s.file.failedWrite g data start landed = .ok f) :
    Traced.Inv g ⟨f, s.posix.failWrite start data fun i => landed (s.file.addr g i) && s.file.written g i⟩ := by
  rw [Inode.failedWrite] at hrun
  cases hloop : Inode.writeLoop g s.file.size s.file start 0 data with
  | error e =>
    rw [hloop] at hrun
    cases hrun
  | ok r =>
    rw [hloop] at hrun
    cases hrun
    refine ⟨Inode.Holds.of_byte (by exact h.holds.index) (by exact h.holds.tag) fun i => ?_, h.size, h.bound⟩
    show (if i < s.posix.size ∧ (landed (s.file.addr g i) && s.file.written g i) = true then _ else _) =
      if s.file.written g i = true then
        (if landed (s.file.addr g i) = true then r.1.dev (s.file.addr g i) else s.file.dev (s.file.addr g i)) else 0
    have hbyte := h.holds.byte_eq i
    cases hw : s.file.written g i with
    | false =>
      rw [hw] at hbyte
      simpa using hbyte
    | true =>
      rw [hw, if_pos rfl] at hbyte
      rw [if_pos rfl, Bool.and_true]
      cases hl : landed (s.file.addr g i) with
      | false => simpa using hbyte
      | true =>
        rw [if_pos rfl, h.holds.writeLoop_dev hmax hloop hw]
        by_cases hi : i < s.posix.size
        · rw [if_pos ⟨hi, rfl⟩]
        -- past the end only a hole takes the bytes
        rw [if_neg fun hc => hi hc.1]
        have hout : i < start ∨ start + data.length ≤ i := by
          by_contra hin
          have hsize := h.size
          rw [htail i (by omega) (by omega) (by omega) hl] at hw
          cases hw
        rcases hout with hlt | hge
        · rw [writeAt_of_lt hlt]
        · rw [writeAt_of_ge hge]

theorem Traced.crashStep_inv {s' : Traced} {ev : CrashEvent} (h : s.Inv g) (hok : leavesNoTail g s ev = true)
    (hs : s.crashStep g ev = some s') : s'.Inv g := by
  cases ev with
  | call ev => exact step_inv h hok hs
  | allocateStale => cases hok
  | failedWrite data off n landed =>
    simp only [leavesNoTail, Bool.and_eq_true, decide_eq_true_eq, List.all_eq_true, List.mem_range] at hok
    simp only [crashStep] at hs
    obtain ⟨hstop, hs⟩ := Option.ite_none_right_eq_some.1 hs
    have hlen : (data.take n).length = n := by
      rw [stopsAt, decide_eq_true_eq] at hstop
      rw [List.length_take]
      omega
    split at hs <;> cases hs
    case h_1 f hf =>
      refine h.failedWrite (by rw [hlen]; exact hok.1) (fun i hi hi' hsize hl => ?_) hf
      have hk := hok.2 (i - off.getD s.file.size) (by omega)
      rw [Nat.add_sub_cancel' hi, hl, decide_eq_false (by omega)] at hk
      simpa using hk

theorem Traced.inv_of_crash_reachable
    (hs : ((crashFileSystem g).restrict fun s ev => leavesNoTail g s ev = true).Reachable s) : s.Inv g :=
  hs.invariant_restrict (fun s (hi : (crashFileSystem g).init s) => init_inv (s := s) hi) fun _ _ _ h hok hstep =>
    crashStep_inv h hok hstep

/-- In every sequence of calls without `FALLOC_FL_NO_HIDE_STALE` in which what a failed write leaves past the end of
the file lies in holes, every read returns the bytes of the byte array, which has none of it. -/
theorem failed_write_invisible {s : Traced}
    (hs : ((crashFileSystem g).restrict fun s ev => leavesNoTail g s ev = true).Reachable s) : ReadsPosix g s :=
  (inv_of_crash_reachable hs).readsPosix

/-! ## A byte that was never written -/

theorem Inode.written_empty {i : Nat} (h : f.written g i = true) : (f.blks.dblk (g.fblkid i)).empty = false := by
  rw [Inode.written, decide_eq_true_eq] at h
  by_contra he
  rw [Dblk.hole_of_empty (by simpa using he)] at h
  exact Nat.not_lt_zero _ h

/-- Wherever a block has no hole past the end of the file, a failed write of a byte there and a later
write of the next byte make a file that does not read as the byte array. -/
theorem Traced.Inv.exposes_failed_write (h : s.Inv g) {i : Nat} {x : UInt8} (hx : x ≠ 0) (hsize : s.file.size ≤ i)
    (hw : s.file.written g i = true) (hnext : g.fblkid (i + 1) = g.fblkid i)
    (hmax : i + 2 ≤ BlkTables.maxBlkid * g.blksize) (hend : i + 1 < 2 ^ 63) :
    ∃ s' s'', s.crashStep g (.failedWrite [x] (some i) 1 fun _ => true) = some s' ∧
      s'.crashStep g (.call (.write [0] (some (i + 1)))) = some s'' ∧ ¬ ReadsPosix g s'' := by
  have hne := Inode.written_empty hw
  have hmapped : ∀ f : Inode, (f.blks.dblk (g.fblkid i)).empty = false → ∀ j, (j = i ∨ j = i + 1) →
      Inode.Holds.Mapped g f j 1 := by
    intro f hf j hj k hk hk'
    rcases hj with rfl | rfl
    · rwa [show k = j by omega]
    · rwa [show k = i + 1 by omega, hnext]
  -- the failed write leaves its byte on the device
  obtain ⟨r, hr⟩ := h.holds.writeLoop_ok s.file.size 0 (show i + [x].length ≤ _ by rw [List.length_singleton]; omega)
    (hmapped s.file hne i (Or.inl rfl))
  let f₃ : Inode := { s.file with dev := r.1.dev }
  have hfail : s.file.failedWrite g [x] i (fun _ => true) = .ok f₃ := by
    rw [Inode.failedWrite, hr]
    rfl
  have hbyte₃ : f₃.dev (f₃.addr g i) = x := by
    show r.1.dev (s.file.addr g i) = x
    rw [h.holds.writeLoop_dev (by rw [List.length_singleton]; omega) hr hw,
      writeAt_of_mem 0 (le_refl i) (by simp), Nat.sub_self]
    rfl
  have h₃ : f₃.Holds g fun j => if f₃.written g j then f₃.dev (f₃.addr g j) else 0 :=
    Inode.Holds.of_byte (by exact h.holds.index) (by exact h.holds.tag) fun _ => rfl
  -- and the next write makes it part of the file
  obtain ⟨r', hr'⟩ := h₃.writeLoop_ok f₃.size 0 (show i + 1 + [(0 : UInt8)].length ≤ _ by rw [List.length_singleton]; omega)
    (hmapped f₃ hne (i + 1) (Or.inr rfl))
  obtain ⟨h₄, hsz₄, -, hinc⟩ := h₃.writeLoop_eq (by rw [List.length_singleton]; omega) hr'
  have hsize₄ : r'.1.size + r'.2 = i + 2 := by
    have hs₃ : f₃.size = s.file.size := rfl
    rw [hsz₄, hinc, hs₃, if_pos ⟨by simp, by rw [List.length_singleton]; omega⟩, List.length_singleton]
    omega
  let p₃ := s.posix.failWrite i [x] fun j => true && s.file.written g j
  have hstep₃ : s.crashStep g (.failedWrite [x] (some i) 1 fun _ => true) = some ⟨f₃, p₃⟩ := by
    simp only [crashStep, Option.getD_some]
    rw [if_pos (by simp [stopsAt]), show [x].take 1 = [x] from rfl, hfail]
  let f₄ : Inode := { r'.1 with size := r'.1.size + r'.2 }
  have hstep₄ : crashStep g ⟨f₃, p₃⟩ (.call (.write [0] (some (i + 1)))) = some ⟨f₄, p₃.write (i + 1) [0]⟩ := by
    have hwrite : f₃.write g [0] (some (i + 1)) = .ok f₄ := by
      rw [Inode.write, Option.getD_some, hr']
      rfl
    simp only [crashStep, step, hwrite, Option.getD_some]
  refine ⟨_, _, hstep₃, hstep₄, fun hreads => hx ?_⟩
  have hread : f₄.read g 1 i = .ok [x] := by
    have hmod : Int.bmod (i + 1 : Nat) (2 ^ 64) = (i + 1 : Nat) := Int.bmod_eq_of_le (by omega) (by omega)
    have hs₄ : f₄.size = i + 2 := hsize₄
    rw [Inode.read, hs₄, if_neg (by omega), hmod, if_neg (by omega),
      (h₄.setSize (r'.1.size + r'.2)).readLoop_eq (by rw [hsize₄]; show 1 ≤ i + 2 - i; omega) (by rw [hsize₄]; exact hmax)]
    show Except.ok [writeAt _ (i + 1) [0] i] = _
    rw [writeAt_of_lt (Nat.lt_succ_self i)]
    show Except.ok [if s.file.written g i = true then _ else _] = _
    rw [if_pos hw, hbyte₃]
  have hposix : (p₃.write (i + 1) [0]).read i 1 = [0] := by
    have hle : p₃.size ≤ i := by show s.posix.size ≤ i; rw [← h.size]; exact hsize
    have hzero : p₃.byte i = 0 := p₃.zero_past i hle
    rw [ByteFile.read, show (p₃.write (i + 1) [0]).size = max p₃.size (i + 1 + 1) from rfl,
      show min 1 (max p₃.size (i + 1 + 1) - i) = 1 by omega]
    show [writeAt p₃.byte (i + 1) [0] i] = [0]
    rw [writeAt_of_lt (Nat.lt_succ_self i), hzero]
  have := hreads i 1 hend
  rw [hread, hposix] at this
  exact List.head_eq_of_cons_eq (Except.ok.inj this)

/-- The file with device block 7 for block 0; a new block is one hole. -/
def oneBlock : Inode :=
  { created.file with
    blks := BlkTables.init.addBlk 0 ⟨7, 0, pfsGeometry.blksize⟩
    btBlkid := Function.update (fun _ => none) 7 (some 0) }

theorem created_allocate : created.step pfsGeometry (.allocate (some 0) 1 true [7]) =
    some ⟨oneBlock, ByteFile.empty⟩ := by
  have hblk : created.file.allocBlk pfsGeometry false (pfsGeometry.fblkid 0) [7] = .ok (oneBlock, []) := rfl
  have hloop : Inode.allocLoop pfsGeometry false created.file 0 1 0 [7] = .ok (oneBlock, 1) := by
    rw [Inode.allocLoop, dif_neg one_ne_zero, hblk]
    show Inode.allocLoop pfsGeometry false oneBlock 1 0 1 [] = _
    rw [Inode.allocLoop, dif_pos rfl]
  have halloc : created.file.allocate pfsGeometry false (some 0) 1 true [7] = .ok oneBlock := by
    rw [Inode.allocate, Option.getD_some, show created.file.size = 0 from rfl, hloop]
    rfl
  rw [step, allocate, if_pos ⟨List.nodup_singleton 7, by simp [created]⟩, halloc]
  rfl

/-- The file system of the runs below. -/
abbrev cleanFailures : System Traced CrashEvent :=
  (crashFileSystem pfsGeometry).restrict fun s ev => leavesNoTail pfsGeometry s ev = true

theorem oneBlock_reachable : cleanFailures.Reachable ⟨oneBlock, ByteFile.empty⟩ := by
  have hs₀ : cleanFailures.Reachable created := .init created_init
  exact hs₀.step_restrict (e := CrashEvent.call (.allocate (some 0) 1 true [7])) rfl created_allocate

/-- A byte at the start of the new block: the rest of the block is filled with zeros, and has no hole. -/
theorem oneBlock_writeLoop : ∃ r, Inode.writeLoop pfsGeometry 0 oneBlock 0 0 [65] = .ok r ∧ r.1.size = 0 ∧ r.2 = 1 ∧
    (r.1.blks.dblk 0).hole = intMax ∧ r.1.dev (7 * pfsGeometry.blksize) = 65 := by
  have hi := inv_of_crash_reachable oneBlock_reachable
  have hblk : oneBlock.blks.dblk 0 = ⟨7, 0, pfsGeometry.blksize⟩ := by decide
  obtain ⟨r, hr⟩ := hi.holds.writeLoop_ok 0 0 (show 0 + [(65 : UInt8)].length ≤ _ by decide) fun k _ hk => by
    obtain rfl : k = 0 := by rw [List.length_singleton] at hk; omega
    show (oneBlock.blks.dblk 0).empty = false
    rw [hblk]
    rfl
  obtain ⟨hholds, hsz, hfills, hinc⟩ := hi.holds.writeLoop_eq (by decide) hr
  have hblkno : (r.1.blks.dblk 0).blkno = 7 := by rw [hfills.blkno, hblk]
  have hfirst : (65 : UInt8) = if 0 < (r.1.blks.dblk 0).hole then r.1.dev ((r.1.blks.dblk 0).blkno * _ + 0) else 0 :=
    hholds.content 0 0 (by decide)
  -- the byte is there, so the hole at 0 is gone
  have hhole : (r.1.blks.dblk 0).hole = intMax := by
    rcases hfills.hole 0 with heq | heq
    · rw [heq, hblk, if_neg (by decide)] at hfirst
      exact absurd hfirst (by decide)
    · exact heq
  refine ⟨r, hr, hsz, hinc, hhole, ?_⟩
  rw [hhole, if_pos (by decide), hblkno] at hfirst
  exact hfirst.symm

/-- Write a byte, fail to write the next one, write the one after: the failed byte is in the file. -/
theorem not_failed_write_invisible :
    ¬ ∀ (g : Geometry) (s : Traced), (crashFileSystem g).Reachable s → ReadsPosix g s := by
  intro hall
  obtain ⟨r, hr, hsz, hinc, hhole, -⟩ := oneBlock_writeLoop
  have hwrite : crashStep pfsGeometry ⟨oneBlock, ByteFile.empty⟩ (.call (.write [65] (some 0))) =
      some ⟨{ r.1 with size := r.1.size + r.2 }, ByteFile.empty.write 0 [65]⟩ := by
    have hw : oneBlock.write pfsGeometry [65] (some 0) = .ok { r.1 with size := r.1.size + r.2 } := by
      rw [Inode.write, Option.getD_some, show oneBlock.size = 0 from rfl, hr]
      rfl
    simp only [crashStep, step, hw, Option.getD_some]
  have hs := oneBlock_reachable.step_restrict (e := CrashEvent.call (.write [65] (some 0))) rfl hwrite
  have hw : Inode.written pfsGeometry { r.1 with size := r.1.size + r.2 } 1 = true := by
    show decide (_ < (r.1.blks.dblk 0).hole) = true
    rw [hhole]
    rfl
  obtain ⟨s', s'', h', h'', hnot⟩ := (inv_of_crash_reachable hs).exposes_failed_write (i := 1) (x := 66)
    (by decide) (by show r.1.size + r.2 ≤ 1; omega) hw (by decide) (by decide) (by decide)
  exact hnot (hall _ _ ((hs.of_restrict.step (e := CrashEvent.failedWrite [66] (some 1) 1 fun _ => true) h').step
    (e := CrashEvent.call (.write [0] (some 2))) h''))

/-- The theorem's runs fail: here a write into a block that is one hole lands and does not show, also
when the file grows over it. -/
theorem failed_write_invisible_in_hole :
    ∃ s s', cleanFailures.Reachable s ∧ s.file.dev (7 * pfsGeometry.blksize) = 65 ∧
      s.crashStep pfsGeometry (.call (.truncate 0 3)) = some s' ∧ cleanFailures.Reachable s' ∧
      s'.file.read pfsGeometry 1 0 = .ok [0] := by
  obtain ⟨r, hr, -, -, -, hdev⟩ := oneBlock_writeLoop
  let f : Inode := { oneBlock with dev := r.1.dev }
  let p := (ByteFile.empty (α := UInt8)).failWrite 0 [65] fun i => true && oneBlock.written pfsGeometry i
  have hfail : crashStep pfsGeometry ⟨oneBlock, ByteFile.empty⟩ (.failedWrite [65] (some 0) 1 fun _ => true) =
      some ⟨f, p⟩ := by
    have hf : oneBlock.failedWrite pfsGeometry [65] 0 (fun _ => true) = .ok f := by
      rw [Inode.failedWrite, show oneBlock.size = 0 from rfl, hr]
      rfl
    simp only [crashStep, Option.getD_some]
    rw [if_pos (by decide), show [(65 : UInt8)].take 1 = [65] from rfl, hf]
  have hs := oneBlock_reachable.step_restrict (e := CrashEvent.failedWrite [65] (some 0) 1 fun _ => true) (by decide) hfail
  have hi := inv_of_crash_reachable hs
  obtain ⟨f', size', htrunc, -, -, hto⟩ := hi.holds.truncate_eq (by rw [hi.size]; exact p.zero_past) 0
    (Nat.zero_le _) (show 3 ≤ _ by decide)
  obtain rfl : size' = 3 := by
    have : f.size = 0 := rfl
    dsimp only at hto
    omega
  have hstep : crashStep pfsGeometry ⟨f, p⟩ (.call (.truncate 0 3)) = some ⟨f', p.truncate 3⟩ := by
    simp only [crashStep, step, htrunc]
  have hs' := hs.step_restrict (e := CrashEvent.call (.truncate 0 3)) rfl hstep
  refine ⟨_, _, hs, hdev, hstep, hs', ?_⟩
  rw [failed_write_invisible hs' 0 1 (by decide)]
  rfl

end PolarFs.File
