/-
The bytes that a file stands for, read off its index and the device, and how each call changes them:
as the call does to a byte array, as long as it stays below the block ids that the index finds.
-/
import PolarFs.File.Content

namespace PolarFs.File

open Bytes Transition BlkTables Inode Dblk
open Function (update update_self update_of_ne)

/-! ## Blocks -/

variable {b p blkno : Nat} {data : List UInt8} {dev : Device}

section Blocks

variable {g : Geometry} {off : Nat}

theorem Geometry.fblkid_mul_add (g : Geometry) (off : Nat) : g.fblkid off * g.blksize + g.fblkoff off = off :=
  Nat.div_add_mod' off g.blksize

theorem Geometry.fblkid_lt (g : Geometry) {n : Nat} (h : off < n * g.blksize) : g.fblkid off < n :=
  Nat.div_lt_of_lt_mul (by rwa [Nat.mul_comm])

theorem Geometry.fblkid_eq (g : Geometry) (hp : p < g.blksize) : g.fblkid (b * g.blksize + p) = b := by
  show (b * g.blksize + p) / g.blksize = b
  rw [Nat.add_comm, Nat.add_mul_div_right _ _ g.blk_pos, Nat.div_eq_of_lt hp, Nat.zero_add]

/-- An offset at or after `off` and before the end of its block. -/
theorem Geometry.exists_fblkoff (g : Geometry) {i : Nat} (h : off ≤ i) (h' : i < off + (g.blksize - g.fblkoff off)) :
    ∃ p, i = g.fblkid off * g.blksize + p ∧ p < g.blksize ∧ g.fblkoff off ≤ p ∧ p - g.fblkoff off = i - off := by
  have hoff := g.fblkid_mul_add off
  have hlt := g.fblkoff_lt off
  exact ⟨i - g.fblkid off * g.blksize, by omega, by omega, by omega, by omega⟩

theorem blkioWrite_other (dev : Device) {a : Nat} (hlen : off + data.length ≤ g.blksize) (ha : g.fblkid a ≠ blkno) :
    blkioWrite g dev blkno off data a = dev a := by
  rw [blkioWrite_eq]
  rcases Nat.lt_or_ge a (blkno * g.blksize + off) with hlt | hge
  · exact writeAt_of_lt hlt
  · refine writeAt_of_ge (Nat.le_of_not_lt fun hlt => ha ?_)
    obtain ⟨p, rfl⟩ := Nat.exists_eq_add_of_le (le_trans (Nat.le_add_right ..) hge)
    exact g.fblkid_eq (by omega)

theorem blkioWrite_same : blkioWrite g dev blkno off data (blkno * g.blksize + p) =
      writeAt (fun p => dev (blkno * g.blksize + p)) off data p := by
  rw [blkioWrite_eq, writeAt_shift]

/-- Zeros from `off` to `stop`, if there is anything between. -/
theorem blkioWrite_zeros {stop : Nat} :
    (if off < stop then blkioWrite g dev blkno off (List.replicate (stop - off) 0) else dev) (blkno * g.blksize + p) =
      if off ≤ p ∧ p < stop then 0 else dev (blkno * g.blksize + p) := by
  by_cases hstop : off < stop
  · rw [if_pos hstop, blkioWrite_same]
    by_cases hp : off ≤ p ∧ p < stop
    · rw [if_pos hp, writeAt_of_mem 0 hp.1 (by rw [List.length_replicate]; omega), List.getD_replicate]
      omega
    · rw [if_neg hp]
      rcases Nat.lt_or_ge p off with hlt | hge
      · rw [writeAt_of_lt hlt]
      · rw [writeAt_of_ge (by rw [List.length_replicate]; omega)]
  · rw [if_neg hstop, if_neg (by omega)]

theorem blkioWrite_zeros_other {stop a : Nat} (hlen : stop ≤ g.blksize) (ha : g.fblkid a ≠ blkno) :
    (if off < stop then blkioWrite g dev blkno off (List.replicate (stop - off) 0) else dev) a = dev a := by
  split
  · exact blkioWrite_other _ (by rw [List.length_replicate]; omega) ha
  · rfl

end Blocks

/-! ## The bytes of a file -/

variable {g : Geometry} {f f' : Inode} {byte byte' : Nat → UInt8} {d : Dblk}

/-- The device address of a byte of the file. -/
def Inode.addr (g : Geometry) (f : Inode) (i : Nat) : Nat :=
  (f.blks.dblk (g.fblkid i)).blkno * g.blksize + g.fblkoff i

/-- What block `b` reads at offset `p`. -/
def Inode.content (g : Geometry) (f : Inode) (b p : Nat) : UInt8 :=
  if p < (f.blks.dblk b).hole then f.dev ((f.blks.dblk b).blkno * g.blksize + p) else 0

/-- The index is in order, a device block is in one place of the file only, and the blocks hold
`byte`. -/
structure Inode.Holds (g : Geometry) (f : Inode) (byte : Nat → UInt8) : Prop where
  index : f.blks.Inv
  tag : ∀ b, (f.blks.dblk b).empty = false → f.btBlkid (f.blks.dblk b).blkno = some b
  content : ∀ b p, p < g.blksize → byte (b * g.blksize + p) = f.content g b p

theorem Dblk.hole_of_empty (h : d.empty = true) : d.hole = 0 := by
  rw [hole, if_pos (by simpa [Dblk.empty, zerodblk] using h)]

theorem Dblk.hole_of_holelen (h : d.empty = false) (hlen : 0 < d.holelen) : d.hole = d.holeoff := by
  rw [hole, if_neg (empty_eq_false.mp h), if_pos hlen]

theorem Dblk.hole_of_full (h : d.empty = false) (hlen : d.holelen = 0) : d.hole = intMax := by
  rw [hole, if_neg (empty_eq_false.mp h), if_neg (by omega)]

/-- What writing does to the index: every block stays where it is, and its hole is as it was or gone. -/
structure Inode.Fills (f f' : Inode) : Prop where
  blkno : ∀ c, (f'.blks.dblk c).blkno = (f.blks.dblk c).blkno
  hole : ∀ c, (f'.blks.dblk c).hole = (f.blks.dblk c).hole ∨ (f'.blks.dblk c).hole = intMax

theorem Inode.Fills.refl (f : Inode) : f.Fills f := ⟨fun _ => rfl, fun _ => Or.inl rfl⟩

theorem Inode.Fills.trans {f₁ f₂ f₃ : Inode} (h : f₁.Fills f₂) (h' : f₂.Fills f₃) : f₁.Fills f₃ := by
  refine ⟨fun c => (h'.blkno c).trans (h.blkno c), fun c => ?_⟩
  rcases h'.hole c with heq | hmax
  · rw [heq]; exact h.hole c
  · exact Or.inr hmax

theorem Inode.Fills.empty {f f' : Inode} (h : f.Fills f') (c : Nat) :
    (f'.blks.dblk c).empty = (f.blks.dblk c).empty := by
  rw [Dblk.empty, Dblk.empty, h.blkno c]

namespace Inode.Holds

variable (h : f.Holds g byte) {offset : Nat}

include h

theorem map_eq (hb : b < maxBlkid) : f.map b = .ok ((f.blks.dblk b).blkno, (f.blks.dblk b).hole) := by
  obtain ⟨d?, hget, hd⟩ := h.index.getBlk_eq hb
  rw [map, hget, ← hd]
  cases d? <;> rfl

omit h in
theorem content_of_empty (he : (f.blks.dblk b).empty = true) : f.content g b p = 0 := by
  rw [Inode.content, hole_of_empty he, if_neg (Nat.not_lt_zero p)]

theorem blkno_ne {c : Nat} (hb : (f.blks.dblk b).empty = false) (hc : (f.blks.dblk c).empty = false) (hne : b ≠ c) :
    (f.blks.dblk b).blkno ≠ (f.blks.dblk c).blkno := by
  intro heq
  have hb' := h.tag b hb
  rw [heq, h.tag c hc] at hb'
  exact hne (Option.some.inj hb').symm

theorem readLoop_eq {left : Nat} (hsize : left ≤ f.size - offset) (hmax : f.size ≤ maxBlkid * g.blksize) :
    f.readLoop g offset left = .ok (readAt byte offset left) := by
  induction left using Nat.strong_induction_on generalizing offset with
  | _ left ih =>
    rw [readLoop]
    by_cases h0 : left = 0
    · rw [dif_pos h0, h0]
      rfl
    have hlt := g.fblkoff_lt offset
    rw [dif_neg h0, h.map_eq (g.fblkid_lt (by omega))]
    have hstay : ¬ ((f.blks.dblk (g.fblkid offset)).blkno = 0 ∧ f.size < offset + left) := by omega
    show (if _ then _ else _) = _
    rw [if_neg hstay]
    -- each piece reads the content of its block
    have hpiece : ∀ {rlen}, rlen ≤ left → 0 < rlen → ∀ {l}, l = readAt byte offset rlen →
        (do let rest ← f.readLoop g (offset + rlen) (left - rlen); Except.ok (l ++ rest)) =
          (Except.ok (readAt byte offset left) : Except FileErr _) := by
      intro rlen hle hpos l hl
      rw [ih (left - rlen) (by omega) (by omega), hl]
      show Except.ok _ = _
      rw [← readAt_add, Nat.add_sub_cancel' hle]
    by_cases hhole : (f.blks.dblk (g.fblkid offset)).hole ≤ g.fblkoff offset
    · rw [dif_pos hhole]
      refine hpiece (min_le_right ..) (by omega) (readAt_const fun i hi hi' => ?_).symm
      obtain ⟨p, rfl, hp, hge, -⟩ := g.exists_fblkoff hi (by omega)
      rw [h.content _ p hp, Inode.content, if_neg (by omega)]
    · rw [dif_neg hhole]
      refine hpiece (min_le_right ..) (by omega) ?_
      rw [blkioRead_eq]
      refine List.map_congr_left fun j hj => ?_
      rw [List.mem_range] at hj
      obtain ⟨p, hip, hp, hge, hpj⟩ := g.exists_fblkoff (show offset ≤ offset + j by omega) (by omega)
      rw [hip, h.content _ p hp, Inode.content, if_pos (by omega)]
      congr 1
      omega

theorem setBlock {t : BlkTables} (hne : (f.blks.dblk b).empty = false) (hno : d.blkno = (f.blks.dblk b).blkno)
    (ht : t.Inv) (hd : t.dblk = update f.blks.dblk b d)
    (hdev : ∀ a, g.fblkid a ≠ (f.blks.dblk b).blkno → dev a = f.dev a) (hbyte : ∀ i, g.fblkid i ≠ b → byte' i = byte i)
    (hcont : ∀ p, p < g.blksize → byte' (b * g.blksize + p) = if p < d.hole then dev (d.blkno * g.blksize + p) else 0) :
    Inode.Holds g { f with blks := t, dev := dev } byte' := by
  have hempty : d.empty = false := by
    rw [empty_eq_false, hno]
    exact empty_eq_false.mp hne
  refine ⟨ht, fun c hc => ?_, fun c p hp => ?_⟩
  · show f.btBlkid (t.dblk c).blkno = some c
    rw [show t.dblk c = update f.blks.dblk b d c from congrFun hd c] at hc ⊢
    by_cases hcb : c = b
    · rw [hcb, update_self, hno]
      exact h.tag b hne
    · rw [update_of_ne hcb] at hc ⊢
      exact h.tag c hc
  · show byte' (c * g.blksize + p) =
      if p < (t.dblk c).hole then dev ((t.dblk c).blkno * g.blksize + p) else 0
    rw [hd]
    by_cases hcb : c = b
    · rw [hcb, update_self]
      exact hcont p hp
    · rw [update_of_ne hcb, hbyte _ (by rw [g.fblkid_eq hp]; exact hcb), h.content c p hp, Inode.content]
      cases hc : (f.blks.dblk c).empty with
      | true => rw [hole_of_empty hc, if_neg (Nat.not_lt_zero p), if_neg (Nat.not_lt_zero p)]
      | false => rw [hdev _ (by rw [g.fblkid_eq hp]; exact h.blkno_ne hc hne hcb)]

/-! ## Writing -/

theorem setHole_eq (off len : Nat) (hne : (f.blks.dblk b).empty = false) :
    ∃ t, f.setHole b off len = .ok { f with blks := t } ∧ t.Inv ∧
      t.dblk = update f.blks.dblk b ((f.blks.dblk b).change off len) := by
  obtain ⟨t, ht, hinv, hd⟩ := h.index.changeBlk off len hne
  exact ⟨t, by rw [setHole, ht]; rfl, hinv, hd⟩

theorem content_block (hp : p < g.blksize) :
    byte (b * g.blksize + p) = if p < (f.blks.dblk b).hole then f.dev ((f.blks.dblk b).blkno * g.blksize + p) else 0 :=
  h.content b p hp

theorem writePiece_eq (off : Nat) (data : List UInt8) (hne : (f.blks.dblk b).empty = false)
    (hlen : off + data.length ≤ g.blksize) :
    ∃ f', f.writePiece g b (f.blks.dblk b).blkno (f.blks.dblk b).hole off data = .ok f' ∧
      f'.Holds g (writeAt byte (b * g.blksize + off) data) ∧ f'.size = f.size ∧ f.Fills f' := by
  have hblk := g.blk_lt
  have hbyte : ∀ i, g.fblkid i ≠ b → writeAt byte (b * g.blksize + off) data i = byte i := by
    intro i hi
    have := blkioWrite_other byte hlen hi
    rwa [blkioWrite_eq] at this
  unfold writePiece
  by_cases hfill : (f.blks.dblk b).hole < g.blksize ∧ (f.blks.dblk b).hole < off + data.length
  · rw [if_pos hfill]
    obtain ⟨t, ht, hinv, hd⟩ := h.setHole_eq g.blksize 0 hne
    rw [ht]
    refine ⟨_, rfl, h.setBlock (d := (f.blks.dblk b).change g.blksize 0) hne rfl hinv hd (fun a ha => ?_) hbyte
      fun p hp => ?_, rfl, fun c => ?_, fun c => ?_⟩
    · -- three writes inside the block
      rw [Nat.sub_sub, blkioWrite_zeros_other (le_refl _) ha, blkioWrite_other _ hlen ha,
        blkioWrite_zeros_other (by omega) ha]
    · rw [Nat.sub_sub, hole_of_full (by exact hne) rfl, if_pos (by unfold intMax; omega)]
      rw [show ((f.blks.dblk b).change g.blksize 0).blkno = (f.blks.dblk b).blkno from rfl, blkioWrite_zeros,
        blkioWrite_same, writeAt_shift]
      rcases Nat.lt_or_ge p off with hlt | hge
      · rw [writeAt_of_lt hlt, writeAt_of_lt hlt, if_neg (by omega), blkioWrite_zeros, h.content_block hp]
        by_cases hp' : p < (f.blks.dblk b).hole
        · rw [if_pos hp', if_neg (by omega)]
        · rw [if_neg hp', if_pos (by omega)]
      · rcases Nat.lt_or_ge p (off + data.length) with hin | hout
        · rw [writeAt_of_mem 0 hge hin, writeAt_of_mem 0 hge hin, if_neg (by omega)]
        · rw [writeAt_of_ge hout, h.content_block hp, if_neg (by omega), if_pos (by omega)]
    · show (t.dblk c).blkno = _
      rw [hd]
      by_cases hcb : c = b
      · rw [hcb, update_self]; rfl
      · rw [update_of_ne hcb]
    · show (t.dblk c).hole = _ ∨ (t.dblk c).hole = _
      rw [hd]
      by_cases hcb : c = b
      · rw [hcb, update_self]; exact Or.inr (hole_of_full hne rfl)
      · rw [update_of_ne hcb]; exact Or.inl rfl
  · rw [if_neg hfill]
    refine ⟨_, rfl, h.setBlock (t := f.blks) (d := f.blks.dblk b) hne rfl h.index (by simp)
      (fun a ha => blkioWrite_other _ hlen ha) hbyte fun p hp => ?_, rfl, fun _ => rfl, fun _ => Or.inl rfl⟩
    rw [blkioWrite_same, writeAt_shift]
    rcases Nat.lt_or_ge p off with hlt | hge
    · rw [writeAt_of_lt hlt, writeAt_of_lt hlt, h.content_block hp]
    · rcases Nat.lt_or_ge p (off + data.length) with hin | hout
      · rw [writeAt_of_mem 0 hge hin, writeAt_of_mem 0 hge hin, if_pos (by omega)]
      · rw [writeAt_of_ge hout, writeAt_of_ge hout, h.content_block hp]

/-- The loop of `pfs_file_write`: the bytes written, and by how much the size grows. -/
theorem writeLoop_eq {fsize sizeinc : Nat} {r : Inode × Nat}
    (hmax : offset + data.length ≤ maxBlkid * g.blksize)
    (hrun : writeLoop g fsize f offset sizeinc data = .ok r) :
    r.1.Holds g (writeAt byte offset data) ∧ r.1.size = f.size ∧ f.Fills r.1 ∧
      r.2 = if data ≠ [] ∧ fsize < offset + data.length then offset + data.length - fsize else sizeinc := by
  induction hn : data.length using Nat.strong_induction_on generalizing f byte offset sizeinc data with
  | _ n ih =>
    subst hn
    rw [writeLoop] at hrun
    by_cases h0 : data = []
    · rw [dif_pos h0] at hrun
      cases hrun
      subst h0
      rw [writeAt_nil]
      exact ⟨h, rfl, .refl _, by simp⟩
    have hpos := List.length_pos_iff.mpr h0
    have hlt := g.fblkoff_lt offset
    have hb := g.fblkid_lt (show offset < maxBlkid * g.blksize by omega)
    rw [dif_neg h0, h.map_eq hb] at hrun
    replace hrun : (if (f.blks.dblk (g.fblkid offset)).blkno = 0 then _ else _) = _ := hrun
    by_cases hno : (f.blks.dblk (g.fblkid offset)).blkno = 0
    · rw [if_pos hno] at hrun
      cases hrun
    rw [if_neg hno] at hrun
    -- the piece in this block, and the rest
    generalize hw : min (g.blksize - g.fblkoff offset) data.length = wlen at hrun
    have htake : (data.take wlen).length = wlen := by rw [List.length_take]; omega
    obtain ⟨f₁, hf₁, hholds, hsz, hfills⟩ := h.writePiece_eq (b := g.fblkid offset) (g.fblkoff offset)
      (data.take wlen) (empty_eq_false.mpr hno) (by omega)
    rw [hf₁] at hrun
    rw [g.fblkid_mul_add] at hholds
    obtain ⟨hholds', hsz', hfills', hinc⟩ := ih (data.drop wlen).length (by rw [List.length_drop]; omega) hholds
      (by rw [List.length_drop]; omega) hrun rfl
    refine ⟨?_, hsz'.trans hsz, hfills.trans hfills', ?_⟩
    · have happ := writeAt_append byte offset (data.take wlen) (data.drop wlen)
      rw [htake, List.take_append_drop] at happ
      rwa [happ] at hholds'
    · rw [hinc, List.length_drop, ← Nat.add_sub_assoc (by omega), Nat.add_right_comm, Nat.add_sub_cancel]
      have hend : data.drop wlen = [] ↔ wlen = data.length := by
        rw [List.drop_eq_nil_iff]
        omega
      by_cases hrest : data.drop wlen = []
      · rw [if_neg fun hc => hc.1 hrest, hend.mp hrest]
        simp only [ne_eq, h0, not_false_eq_true, true_and]
      · simp only [ne_eq, hrest, not_false_eq_true, true_and, h0]
        by_cases hgrow : fsize < offset + data.length
        · rw [if_pos hgrow, if_pos hgrow]
        · rw [if_neg hgrow, if_neg hgrow, if_neg (by omega)]

/-! ## Deleting blocks -/

theorem congr (hb : ∀ i, byte' i = byte i) : f.Holds g byte' := by
  rwa [show byte' = byte from funext hb]

theorem del_eq (hne : (f.blks.dblk b).empty = false) :
    ∃ f', f.del (f.blks.dblk b) = .ok f' ∧ f'.Holds g (fun i => if g.fblkid i = b then 0 else byte i) ∧
      f'.size = f.size ∧ f'.blks.nsoft ≤ f.blks.nsoft := by
  obtain ⟨t, ht, hinv, hd, hn⟩ := h.index.removeBlk hne
  have hdel : f.del (f.blks.dblk b) =
      .ok { f with blks := t, btBlkid := update f.btBlkid (f.blks.dblk b).blkno none } := by
    simp only [del, h.tag b hne, ht]
    rfl
  refine ⟨_, hdel, ?_, rfl, hn⟩
  refine ⟨hinv, fun c hc => ?_, fun c p hp => ?_⟩
  · show update f.btBlkid (f.blks.dblk b).blkno none (t.dblk c).blkno = some c
    rw [show t.dblk c = update f.blks.dblk b zerodblk c from congrFun hd c] at hc ⊢
    by_cases hcb : c = b
    · rw [hcb, update_self] at hc
      cases hc
    · rw [update_of_ne hcb] at hc ⊢
      rw [update_of_ne (h.blkno_ne hc hne hcb)]
      exact h.tag c hc
  · rw [g.fblkid_eq hp]
    show _ = if p < (t.dblk c).hole then f.dev ((t.dblk c).blkno * g.blksize + p) else 0
    rw [hd]
    by_cases hcb : c = b
    · rw [if_pos hcb, hcb, update_self, hole_of_empty rfl, if_neg (Nat.not_lt_zero p)]
    · rw [if_neg hcb, update_of_ne hcb, h.content_block hp]

/-- One round of `pfs_inode_del_from` leaves the block empty. -/
theorem delOne_eq (hb : b < maxBlkid) :
    ∃ f', f.delOne b = .ok f' ∧ f'.Holds g (fun i => if g.fblkid i = b then 0 else byte i) ∧
      f'.size = f.size ∧ f'.blks.nsoft ≤ f.blks.nsoft := by
  have hkeep : (f.blks.dblk b).empty = true → f.Holds g (fun i => if g.fblkid i = b then 0 else byte i) := by
    intro he
    refine h.congr fun i => ?_
    by_cases hib : g.fblkid i = b
    · rw [if_pos hib, ← g.fblkid_mul_add i, h.content _ _ (g.fblkoff_lt i), hib, content_of_empty he]
    · rw [if_neg hib]
  obtain ⟨d?, hget, hd⟩ := h.index.getBlk_eq hb
  cases d? with
  | none => exact ⟨f, by rw [delOne, hget], hkeep (by rw [← hd]; rfl), rfl, le_refl _⟩
  | some d =>
    obtain rfl : d = f.blks.dblk b := hd
    cases he : (f.blks.dblk b).empty with
    | true => exact ⟨f, by simp only [delOne, hget, he, if_true], hkeep he, rfl, le_refl _⟩
    | false =>
      obtain ⟨f', hdel, hrest⟩ := h.del_eq he
      exact ⟨f', by simpa only [delOne, hget, he, Bool.false_eq_true, if_false] using hdel, hrest⟩

omit h in
theorem delVec_eq : ∀ {n b : Nat} {f : Inode} {byte : Nat → UInt8}, f.Holds g byte → b + n ≤ maxBlkid →
    ∃ f', delVec n b f = .ok f' ∧
      f'.Holds g (fun i => if b ≤ g.fblkid i ∧ g.fblkid i < b + n then 0 else byte i) ∧
      f'.size = f.size ∧ f'.blks.nsoft ≤ f.blks.nsoft
  | 0, b, f, byte, h, _ => ⟨f, rfl, h.congr fun i => if_neg (by omega), rfl, le_refl _⟩
  | n + 1, b, f, byte, h, hmax => by
    obtain ⟨f₁, hf₁, hholds, hsz, hns⟩ := h.delOne_eq (b := b) (by omega)
    obtain ⟨f₂, hf₂, hholds₂, hsz₂, hns₂⟩ := delVec_eq (n := n) (b := b + 1) hholds (by omega)
    refine ⟨f₂, ?_, hholds₂.congr fun i => ?_, hsz₂.trans hsz, le_trans hns₂ hns⟩
    · rw [delVec, hf₁]
      exact hf₂
    · by_cases h1 : b + 1 ≤ g.fblkid i ∧ g.fblkid i < b + 1 + n
      · rw [if_pos h1, if_pos (by omega)]
      · rw [if_neg h1]
        by_cases h2 : g.fblkid i = b
        · rw [if_pos h2, if_pos (by omega)]
        · rw [if_neg h2, if_neg (by omega)]

/-- From a table that is not there on, there are no blocks. -/
theorem cut_of_nsoft (hn : f.blks.nsoft ≤ blkTableIdx b) :
    f.Holds g (fun i => if g.fblkid i < b then byte i else 0) := by
  refine h.congr fun i => ?_
  by_cases hi : g.fblkid i < b
  · rw [if_pos hi]
  · have hidx : blkTableIdx b ≤ blkTableIdx (g.fblkid i) := Nat.div_le_div_right (by omega)
    rw [if_neg hi, ← g.fblkid_mul_add i, h.content _ _ (g.fblkoff_lt i), content_of_empty]
    rw [dblk_of_none (h.index.beyond _ (le_trans hn hidx))]
    rfl

omit h in
/-- The outer loop: where it stops there are no tables, and so no blocks. -/
theorem delTables_eq : ∀ {n b : Nat} {f : Inode} {byte : Nat → UInt8}, f.Holds g byte →
    f.blks.nsoft ≤ blkTableIdx b + n →
    ∃ f', delTables n (blkTableIdx b) b f = .ok f' ∧
      f'.Holds g (fun i => if g.fblkid i < b then byte i else 0) ∧ f'.size = f.size := by
  intro n
  induction n with
  | zero =>
    intro b f byte h hn
    exact ⟨f, rfl, h.cut_of_nsoft hn, rfl⟩
  | succ n ih =>
    intro b f byte h hn
    rw [delTables]
    by_cases hlt : blkTableIdx b < f.blks.nsoft
    · rw [if_pos hlt]
      have hmax : b + (16 - b % 16) ≤ maxBlkid := by
        have := h.index.nsoft_le
        have hidx : blkTableIdx b = b / 16 := rfl
        unfold maxBlkid
        omega
      obtain ⟨f₁, hf₁, hholds, hsz, hns⟩ := h.delVec_eq hmax
      have hidx : blkTableIdx (b + (16 - b % 16)) = blkTableIdx b + 1 := by
        show (b + (16 - b % 16)) / 16 = b / 16 + 1
        omega
      obtain ⟨f₂, hf₂, hholds₂, hsz₂⟩ := ih (b := b + (16 - b % 16)) hholds (by omega)
      rw [hidx] at hf₂
      refine ⟨f₂, ?_, hholds₂.congr fun i => ?_, hsz₂.trans hsz⟩
      · rw [hf₁]
        exact hf₂
      · by_cases h1 : g.fblkid i < b
        · rw [if_pos h1, if_pos (by omega), if_neg (by omega)]
        · rw [if_neg h1]
          by_cases h2 : g.fblkid i < b + (16 - b % 16)
          · rw [if_pos h2, if_pos (by omega)]
          · rw [if_neg h2]
    · rw [if_neg hlt]
      exact ⟨f, rfl, h.cut_of_nsoft (by omega), rfl⟩

theorem delFrom_eq (b : Nat) :
    ∃ f', f.delFrom b = .ok f' ∧ f'.Holds g (fun i => if g.fblkid i < b then byte i else 0) ∧ f'.size = f.size :=
  h.delTables_eq (Nat.le_add_left ..)

/-! ## Truncating -/

theorem setSize (n : Nat) : Inode.Holds g { f with size := n } byte := { h with }

/-- The hole of the last block is slid to the left, or reads zero from there on already. -/
theorem slideHole_eq (hzero : ∀ i, f.size ≤ i → byte i = 0) {len : Nat} (hlen : len ≠ 0)
    (hmax : len ≤ maxBlkid * g.blksize) : ∃ f', f.slideHole g len = .ok f' ∧
      f'.Holds g (fun i => if g.fblkid i = g.fblkid (len - 1) ∧ len ≤ i then 0 else byte i) ∧ f'.size = f.size := by
  let last := g.fblkid (len - 1)
  let d := f.blks.dblk last
  have hrun : f.slideHole g len = if 0 < d.blkno ∧ len < f.size ∧ 0 < g.fblkoff len ∧ g.fblkoff len < d.hole then
      f.setHole last (g.fblkoff len) (g.blksize - g.fblkoff len) else .ok f := by
    rw [slideHole, h.map_eq (g.fblkid_lt (by omega))]
    rfl
  rw [hrun]
  have hoff := g.fblkoff_lt len
  -- unless the size is block aligned, it lies in the last block
  have hlast : 0 < g.fblkoff len → last * g.blksize + g.fblkoff len = len := by
    intro hpos
    have hsame : last = g.fblkid len := by
      have h1 := g.fblkid_mul_add len
      have h2 : len - 1 = g.fblkid len * g.blksize + (g.fblkoff len - 1) := by omega
      show g.fblkid (len - 1) = _
      rw [h2, g.fblkid_eq (by omega)]
    rw [hsame, g.fblkid_mul_add]
  by_cases hslide : 0 < d.blkno ∧ len < f.size ∧ 0 < g.fblkoff len ∧ g.fblkoff len < d.hole
  · rw [if_pos hslide]
    obtain ⟨hno, -, hpos, hhole⟩ := hslide
    have hne : d.empty = false := empty_eq_false.mpr (by omega)
    obtain ⟨t, ht, hinv, hd⟩ := h.setHole_eq (g.fblkoff len) (g.blksize - g.fblkoff len) hne
    have hhole' : (d.change (g.fblkoff len) (g.blksize - g.fblkoff len)).hole = g.fblkoff len :=
      hole_of_holelen (by exact hne) (by show 0 < g.blksize - g.fblkoff len; omega)
    refine ⟨_, ht, h.setBlock (d := d.change (g.fblkoff len) (g.blksize - g.fblkoff len)) hne rfl hinv hd
      (fun _ _ => rfl) (fun i hi => if_neg fun hc => hi hc.1) fun p hp => ?_, rfl⟩
    have hlen' := hlast hpos
    rw [hhole', g.fblkid_eq hp]
    by_cases hpo : p < g.fblkoff len
    · rw [if_pos hpo, if_neg (by omega), h.content_block hp, if_pos (lt_trans hpo hhole)]
      rfl
    · rw [if_neg hpo, if_pos ⟨rfl, by omega⟩]
  · rw [if_neg hslide]
    refine ⟨f, rfl, h.congr fun i => ?_, rfl⟩
    by_cases hi : g.fblkid i = last ∧ len ≤ i
    · rw [if_pos hi]
      obtain ⟨hib, hle⟩ := hi
      have hdiv := g.fblkid_mul_add i
      have hmod := g.fblkoff_lt i
      -- a block aligned size leaves no such offset in the last block
      have hpos : 0 < g.fblkoff len := by
        refine Nat.pos_of_ne_zero fun h0 => ?_
        have hlen' := g.fblkid_mul_add len
        have hpred := g.fblkid_mul_add (len - 1)
        have hsame : g.fblkid (len - 1) = g.fblkid len :=
          le_antisymm (Nat.div_le_div_right (Nat.sub_le len 1)) (hib ▸ Nat.div_le_div_right hle : g.fblkid len ≤ last)
        rw [hsame] at hpred
        omega
      rcases Nat.lt_or_ge i f.size with hlt | hge
      · rw [← hdiv, h.content_block hmod, hib]
        refine (if_neg fun hp => hslide ⟨Nat.pos_of_ne_zero fun h0 => ?_, by omega, hpos, ?_⟩).symm
        · -- a block that is not there has no bytes before its hole
          rw [show f.blks.dblk last = d from rfl, hole, if_pos h0] at hp
          exact Nat.not_lt_zero _ hp
        · have := hlast hpos
          rw [hib] at hdiv
          exact lt_of_le_of_lt (by omega) hp
      · exact (hzero i hge).symm
    · rw [if_neg hi]

theorem truncateTo_eq (hzero : ∀ i, f.size ≤ i → byte i = 0) (len : Nat) (hmax : len ≤ maxBlkid * g.blksize) :
    ∃ f', f.truncateTo g len = .ok f' ∧ f'.Holds g (fun i => if i < len then byte i else 0) ∧ f'.size = len := by
  unfold truncateTo
  by_cases h0 : len = 0
  · rw [if_pos h0]
    obtain ⟨f₁, hf₁, hholds, -⟩ := h.delFrom_eq 0
    rw [hf₁]
    refine ⟨_, rfl, (hholds.setSize len).congr fun i => ?_, rfl⟩
    rw [if_neg (by omega), if_neg (Nat.not_lt_zero _)]
  · rw [if_neg h0]
    obtain ⟨f₁, hf₁, hholds, -⟩ := h.slideHole_eq hzero h0 hmax
    obtain ⟨f₂, hf₂, hholds₂, -⟩ := hholds.delFrom_eq (g.fblkid (len - 1) + 1)
    have hcut : (f.slideHole g len >>= fun f => f.delFrom (g.fblkid (len - 1) + 1)) = .ok f₂ := by
      rw [hf₁]
      exact hf₂
    rw [hcut]
    refine ⟨_, rfl, (hholds₂.setSize len).congr fun i => ?_, rfl⟩
    by_cases hi : i < len
    · have hle : g.fblkid i ≤ g.fblkid (len - 1) := Nat.div_le_div_right (by omega)
      rw [if_pos hi, if_pos (by omega), if_neg (by omega)]
    · have hge : g.fblkid (len - 1) ≤ g.fblkid i := Nat.div_le_div_right (by omega)
      rw [if_neg hi]
      split
      · rw [if_pos ⟨by omega, by omega⟩]
      · rfl

/-- `pfs_file_truncate`: the size it returns is the one asked for, or one on the way down to it. -/
theorem truncate_eq (hzero : ∀ i, f.size ≤ i → byte i = 0) (shrinksize : Nat) {len : Nat}
    (hsize : f.size ≤ maxBlkid * g.blksize) (hmax : len ≤ maxBlkid * g.blksize) :
    ∃ f' size, f.truncate g shrinksize len = .ok (f', size) ∧
      f'.Holds g (fun i => if i < size then byte i else 0) ∧ f'.size = size ∧
      (size = len ∨ len < size ∧ size < f.size) := by
  unfold truncate shrinkLen
  dsimp only
  split
  case isTrue hs =>
    obtain ⟨f', hf', hholds, hsz⟩ := h.truncateTo_eq hzero (f.size - shrinksize) (by omega)
    exact ⟨f', _, by rw [hf']; rfl, hholds, hsz, Or.inr ⟨by omega, by omega⟩⟩
  case isFalse =>
    obtain ⟨f', hf', hholds, hsz⟩ := h.truncateTo_eq hzero len hmax
    exact ⟨f', _, by rw [hf']; rfl, hholds, hsz, Or.inl rfl⟩

/-! ## Allocating -/

/-- `pfs_inode_add` of a free device block: the file reads zero there before and after. -/
theorem add_eq (hb : b < maxBlkid) (he : (f.blks.dblk b).empty = true) (hno : blkno ≠ 0)
    (hfree : f.btBlkid blkno = none) : Inode.Holds g { f with
      blks := f.blks.addBlk b ⟨blkno, 0, g.blksize⟩
      btBlkid := update f.btBlkid blkno (some b) } byte := by
  have hne : Dblk.empty ⟨blkno, 0, g.blksize⟩ = false := empty_eq_false.mpr hno
  obtain ⟨hinv, hd⟩ := h.index.addBlk hb hne
  refine ⟨hinv, fun c hc => ?_, fun c p hp => ?_⟩
  · show update f.btBlkid blkno (some b) ((f.blks.addBlk b _).dblk c).blkno = some c
    rw [show (f.blks.addBlk b _).dblk c = update f.blks.dblk b ⟨blkno, 0, g.blksize⟩ c from congrFun hd c] at hc ⊢
    by_cases hcb : c = b
    · rw [hcb, update_self, update_self]
    rw [update_of_ne hcb] at hc ⊢
    have htag := h.tag c hc
    rw [update_of_ne]
    · exact htag
    · intro heq
      rw [heq, hfree] at htag
      cases htag
  · show _ = if p < ((f.blks.addBlk b _).dblk c).hole then f.dev (((f.blks.addBlk b _).dblk c).blkno * g.blksize + p) else 0
    rw [hd, h.content_block hp]
    by_cases hcb : c = b
    · rw [hcb, update_self, hole_of_empty he, hole_of_holelen hne g.blk_pos]
      rfl
    · rw [update_of_ne hcb]

theorem allocBlk_eq {free : List Nat} {r : Inode × List Nat} (hb : b < maxBlkid) (hnd : free.Nodup)
    (hfree : ∀ c ∈ free, c ≠ 0 ∧ f.btBlkid c = none) (hrun : f.allocBlk g false b free = .ok r) :
    r.1.Holds g byte ∧ r.1.size = f.size ∧ r.2.Nodup ∧ ∀ c ∈ r.2, c ≠ 0 ∧ r.1.btBlkid c = none := by
  rw [allocBlk, h.map_eq hb] at hrun
  replace hrun : (if (f.blks.dblk b).blkno = 0 then _ else _) = _ := hrun
  by_cases hno : (f.blks.dblk b).blkno = 0
  · rw [if_pos hno, if_neg Bool.false_ne_true] at hrun
    cases free with
    | nil => cases hrun
    | cons c free =>
      cases hrun
      obtain ⟨hc, hnd⟩ := List.nodup_cons.mp hnd
      obtain ⟨hc0, hcf⟩ := hfree c (List.mem_cons_self ..)
      refine ⟨h.add_eq hb (by simp [Dblk.empty, zerodblk, hno]) hc0 hcf, rfl, hnd, fun a ha => ?_⟩
      obtain ⟨ha0, haf⟩ := hfree a (List.mem_cons_of_mem _ ha)
      refine ⟨ha0, ?_⟩
      show update f.btBlkid c (some b) a = none
      have hac : a ≠ c := by
        rintro rfl
        exact hc ha
      rw [update_of_ne hac]
      exact haf
  · rw [if_neg hno] at hrun
    cases hrun
    exact ⟨h, rfl, hnd, hfree⟩

theorem allocLoop_eq {left fsize : Nat} {free : List Nat} {r : Inode × Nat}
    (hmax : offset + left ≤ maxBlkid * g.blksize) (hnd : free.Nodup)
    (hfree : ∀ c ∈ free, c ≠ 0 ∧ f.btBlkid c = none) (hrun : allocLoop g false f offset left fsize free = .ok r) :
    r.1.Holds g byte ∧ r.1.size = f.size ∧ r.2 = if left = 0 then fsize else max fsize (offset + left) := by
  induction left using Nat.strong_induction_on generalizing f offset fsize free with
  | _ left ih =>
    rw [allocLoop] at hrun
    by_cases h0 : left = 0
    · rw [dif_pos h0] at hrun
      cases hrun
      exact ⟨h, rfl, by rw [if_pos h0]⟩
    rw [dif_neg h0] at hrun
    have hlt := g.fblkoff_lt offset
    cases hblk : f.allocBlk g false (g.fblkid offset) free with
    | error e =>
      rw [hblk] at hrun
      cases hrun
    | ok r₁ =>
      obtain ⟨f₁, free₁⟩ := r₁
      rw [hblk] at hrun
      obtain ⟨h₁, hsz₁, hnd₁, hfree₁⟩ := h.allocBlk_eq (g.fblkid_lt (by omega)) hnd hfree hblk
      obtain ⟨h₂, hsz₂, hfs⟩ := ih _ (by omega) h₁ (by omega) hnd₁ hfree₁ hrun
      refine ⟨h₂, hsz₂.trans hsz₁, ?_⟩
      rw [hfs]
      split <;> split <;> omega

/-! ## Calls that succeed -/

/-- Every offset of the range is in a block. -/
def Mapped (g : Geometry) (f : Inode) (offset len : Nat) : Prop :=
  ∀ i, offset ≤ i → i < offset + len → (f.blks.dblk (g.fblkid i)).empty = false

/-- With a free block for each byte of the range at most, `pfs_file_allocate` succeeds and the range is
in blocks after it. -/
theorem allocLoop_ok {left : Nat} (fsize : Nat) {free : List Nat}
    (hmax : offset + left ≤ maxBlkid * g.blksize) (hnd : free.Nodup)
    (hfree : ∀ c ∈ free, c ≠ 0 ∧ f.btBlkid c = none) (henough : left ≤ free.length) :
    ∃ r, allocLoop g false f offset left fsize free = .ok r ∧ Mapped g r.1 offset left ∧
      ∀ b, (f.blks.dblk b).empty = false → (r.1.blks.dblk b).empty = false := by
  induction left using Nat.strong_induction_on generalizing f offset fsize free with
  | _ left ih =>
    rw [allocLoop]
    by_cases h0 : left = 0
    · rw [dif_pos h0]
      exact ⟨_, rfl, fun i _ _ => by omega, fun _ hb => hb⟩
    rw [dif_neg h0]
    have hlt := g.fblkoff_lt offset
    have hb := g.fblkid_lt (show offset < maxBlkid * g.blksize by omega)
    -- this round's block is there after it
    obtain ⟨f₁, free₁, hblk, hthere, hkeep, hlen⟩ : ∃ f₁ free₁, f.allocBlk g false (g.fblkid offset) free = .ok (f₁, free₁) ∧
        (f₁.blks.dblk (g.fblkid offset)).empty = false ∧
        (∀ b, (f.blks.dblk b).empty = false → (f₁.blks.dblk b).empty = false) ∧ left ≤ free₁.length + 1 := by
      rw [allocBlk, h.map_eq hb]
      show ∃ _ _, (if (f.blks.dblk (g.fblkid offset)).blkno = 0 then _ else _) = _ ∧ _
      by_cases hno : (f.blks.dblk (g.fblkid offset)).blkno = 0
      · rw [if_pos hno, if_neg Bool.false_ne_true]
        cases free with
        | nil => exact absurd henough (by simpa using h0)
        | cons c free =>
          have hc : Dblk.empty ⟨c, 0, g.blksize⟩ = false := empty_eq_false.mpr (hfree c (List.mem_cons_self ..)).1
          have hd := (h.index.addBlk hb hc).2
          refine ⟨_, _, rfl, ?_, fun b hused => ?_, by simpa using henough⟩
          · show ((f.blks.addBlk _ _).dblk _).empty = false
            rw [hd, update_self, hc]
          · show ((f.blks.addBlk _ _).dblk b).empty = false
            rw [hd]
            by_cases hbo : b = g.fblkid offset
            · rw [hbo, update_self, hc]
            · rw [update_of_ne hbo, hused]
      · rw [if_neg hno]
        exact ⟨f, free, rfl, empty_eq_false.mpr hno, fun _ hused => hused, by omega⟩
    rw [hblk]
    obtain ⟨h₁, -, hnd₁, hfree₁⟩ := h.allocBlk_eq hb hnd hfree hblk
    obtain ⟨r, hr, hmapped, hkeep'⟩ := ih (left - min (g.blksize - g.fblkoff offset) left) (by omega) h₁ _
      (show offset + min (g.blksize - g.fblkoff offset) left + _ ≤ _ by omega) hnd₁ hfree₁ (by dsimp only; omega)
    refine ⟨r, hr, fun i hi hi' => ?_, fun b hused => hkeep' b (hkeep b hused)⟩
    rcases Nat.lt_or_ge i (offset + min (g.blksize - g.fblkoff offset) left) with hin | hout
    · obtain ⟨p, rfl, hp, -⟩ := g.exists_fblkoff hi (by omega)
      rw [g.fblkid_eq hp]
      exact hkeep' _ hthere
    · exact hmapped i hout (by omega)

theorem writeLoop_ok (fsize sizeinc : Nat) (hmax : offset + data.length ≤ maxBlkid * g.blksize)
    (hmapped : Mapped g f offset data.length) : ∃ r, writeLoop g fsize f offset sizeinc data = .ok r := by
  induction hn : data.length using Nat.strong_induction_on generalizing f byte offset sizeinc data with
  | _ n ih =>
    subst hn
    rw [writeLoop]
    by_cases h0 : data = []
    · rw [dif_pos h0]
      exact ⟨_, rfl⟩
    have hpos := List.length_pos_iff.mpr h0
    have hlt := g.fblkoff_lt offset
    have hne := hmapped offset (le_refl _) (by omega)
    rw [dif_neg h0, h.map_eq (g.fblkid_lt (by omega))]
    show ∃ r, (if (f.blks.dblk (g.fblkid offset)).blkno = 0 then _ else _) = _
    rw [if_neg (empty_eq_false.mp hne)]
    generalize hw : min (g.blksize - g.fblkoff offset) data.length = wlen
    have htake : (data.take wlen).length = wlen := by rw [List.length_take]; omega
    obtain ⟨f₁, hf₁, hholds, -, hfills⟩ := h.writePiece_eq (g.fblkoff offset) (data.take wlen) hne (by omega)
    obtain ⟨r, hr⟩ := ih (data.drop wlen).length (by rw [List.length_drop]; omega) hholds
      (if fsize < offset + wlen then offset + wlen - fsize else sizeinc)
      (show offset + wlen + (data.drop wlen).length ≤ _ by rw [List.length_drop]; omega)
      (fun i hi hi' => by rw [hfills.empty]; exact hmapped i (by omega) (by rw [List.length_drop] at hi'; omega)) rfl
    exact ⟨r, by dsimp only; rw [hf₁]; exact hr⟩

end Inode.Holds

end PolarFs.File
