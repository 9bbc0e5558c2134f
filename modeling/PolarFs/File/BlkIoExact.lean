/-
Block IO touches exactly the range it is asked for: what the device holds at any time of a call, with
any of the IO outstanding, done or failed, is what was there before or what is to be there after it.
-/
import PolarFs.File.BlkIoDevice

namespace PolarFs.File

/-- Where a piece of a range begins and ends: at a sector boundary, or where the range does. -/
theorem Geometry.blkioAlign_sect (g : Geometry) (bda left : Nat) :
    (g.blkioAlign bda left).1 % g.sectsize = 0 ∧ (g.blkioAlign bda left).2.1 % g.sectsize = 0 ∧
      ((g.blkioAlign bda left).1 = bda ∨ bda % g.sectsize ≠ 0) ∧
      ((g.blkioAlign bda left).2.2 = left ∨
        bda + (g.blkioAlign bda left).2.2 = (g.blkioAlign bda left).1 + (g.blkioAlign bda left).2.1) := by
  have hs := Nat.mod_lt bda g.sect_pos
  have hle := Nat.mod_le bda g.sectsize
  unfold Geometry.blkioAlign
  by_cases h0 : bda % g.sectsize = 0
  · rw [if_neg (not_not.mpr h0)]
    refine ⟨h0, Nat.mul_mod_left .., .inl rfl, ?_⟩
    have hdvd : g.sectsize ∣ g.fragsize - bda % g.fragsize :=
      Nat.dvd_sub g.sect_dvd ((Nat.dvd_mod_iff g.sect_dvd).mpr (Nat.dvd_of_mod_eq_zero h0))
    rcases Nat.le_total left (g.fragsize - bda % g.fragsize) with hl | hl
    · exact .inl (min_eq_right hl)
    · refine .inr ?_
      show bda + min _ left = bda + g.roundup (min _ left)
      rw [min_eq_left hl, Nat.le_antisymm (g.roundup_le (le_refl _) hdvd) (g.le_roundup _)]
  · rw [if_pos h0]
    refine ⟨?_, Nat.mod_self _, .inr h0, ?_⟩
    · have hdiv := Nat.div_add_mod bda g.sectsize
      show (bda - bda % g.sectsize) % g.sectsize = 0
      rw [show bda - bda % g.sectsize = g.sectsize * (bda / g.sectsize) by omega, Nat.mul_mod_right]
    · dsimp only
      omega

namespace Devio

open Bytes IoQueue

/-! ## What the bytes may become -/

theorem copyPart_cases (dst src : Nat → UInt8) (a len j : Nat) (part : Nat → Bool) :
    copyPart dst a src len part j = dst j ∨ ∃ i < len, j = a + i ∧ copyPart dst a src len part j = src i := by
  unfold copyPart
  split
  · next h => exact .inr ⟨j - a, by omega, by omega, rfl⟩
  · exact .inl rfl

variable {a len i bda off : Nat} {m : Mem} {u : DevIo}

theorem copyPart_all (dst src : Nat → UInt8) (hi : i < len) :
    copyPart dst a src len (fun _ => true) (a + i) = src i := by
  rw [copyPart, if_pos ⟨by omega, by omega, rfl⟩, Nat.add_sub_cancel_left]

theorem copyPart_outside (dst src : Nat → UInt8) {j : Nat} (part : Nat → Bool) (h : j < a ∨ a + len ≤ j) :
    copyPart dst a src len part j = dst j := if_neg (by omega)

/-- The contents of the device and of the caller's buffer before and after a call. -/
structure Goal where
  dev : Device
  dev' : Device
  data : Nat → UInt8
  data' : Nat → UInt8

namespace Goal

variable (G : Goal)

/-- Every byte is as before the call or as after it. -/
structure Between (m : Mem) : Prop where
  dev : ∀ a, m.dev a = G.dev a ∨ m.dev a = G.dev' a
  data : ∀ i, m.data i = G.data i ∨ m.data i = G.data' i

/-- An IO on the caller's buffer moves what is to be there after the call. -/
def Moves (t : DevIo) : Prop :=
  match t.op, t.buf with
  | .rd, .data off => ∀ i < t.len, G.dev (t.bda + i) = G.data' (off + i) ∧ G.dev' (t.bda + i) = G.data' (off + i)
  | .wr, .data off => ∀ i < t.len, G.data (off + i) = G.dev' (t.bda + i) ∧ G.data' (off + i) = G.dev' (t.bda + i)
  | _, .albuf => False

/-- What is there once an IO is done. In the aligned buffer only the bytes count that the call does not
change. -/
def Moved (t : DevIo) (m : Mem) : Prop :=
  match t.op, t.buf with
  | .rd, .data off => ∀ i < t.len, m.data (off + i) = G.data' (off + i)
  | .rd, .albuf => ∀ i < t.len, G.dev (t.bda + i) = G.dev' (t.bda + i) → m.albuf i = G.dev' (t.bda + i)
  | .wr, _ => ∀ i < t.len, m.dev (t.bda + i) = G.dev' (t.bda + i)

/-- The aligned buffer holds what the IO `x` writes from it. -/
def Filled (x : Option DevIo) (m : Mem) : Prop :=
  ∀ t, x = some t → t.op = .wr → ∀ i < t.len, m.albuf i = G.dev' (t.bda + i)

/-- The IO that may be in the queue: those on the caller's buffer, and `x` on the aligned one. -/
def Queued (x : Option DevIo) (t : DevIo) : Prop := G.Moves t ∨ (x = some t ∧ t.buf = .albuf)

variable {G}

theorem Between.of_dev (h : G.Between m) (ha : G.dev a = G.dev' a) : m.dev a = G.dev' a :=
  (h.dev a).elim (fun h => h.trans ha) id

theorem Between.source_rd (h : G.Between m) (hm : G.Moves ⟨.rd, .data off, len, bda⟩) (hi : i < len) :
    m.dev (bda + i) = G.data' (off + i) :=
  (h.dev (bda + i)).elim (fun h => h.trans (hm i hi).1) fun h => h.trans (hm i hi).2

theorem Between.source_wr (h : G.Between m) (hm : G.Moves ⟨.wr, .data off, len, bda⟩) (hi : i < len) :
    m.data (off + i) = G.dev' (bda + i) :=
  (h.data (off + i)).elim (fun h => h.trans (hm i hi).1) fun h => h.trans (hm i hi).2

/-- Some bytes became what they are after the call. -/
structure Toward (G : Goal) (m m' : Mem) : Prop where
  dev : ∀ a, m'.dev a = m.dev a ∨ m'.dev a = G.dev' a
  data : ∀ i, m'.data i = m.data i ∨ m'.data i = G.data' i

theorem Between.toward {m' : Mem} (h : G.Between m) (ht : G.Toward m m') : G.Between m' := by
  refine ⟨fun a => ?_, fun i => ?_⟩
  · rcases ht.dev a with ha | ha
    · rw [ha]
      exact h.dev a
    · exact .inr ha
  · rcases ht.data i with hi | hi
    · rw [hi]
      exact h.data i
    · exact .inr hi

theorem Moved.toward {m' : Mem} (h : G.Moved u m) (ht : G.Toward m m') (hu : u.op = .rd → u.buf ≠ .albuf) :
    G.Moved u m' := by
  obtain ⟨op, buf, len, bda⟩ := u
  cases op with
  | wr => exact fun i hi => (ht.dev (bda + i)).elim (fun ha => ha.trans (h i hi)) id
  | rd =>
    cases buf with
    | data off => exact fun i hi => (ht.data (off + i)).elim (fun hj => hj.trans (h i hi)) id
    | albuf => exact absurd rfl (hu rfl)

theorem Moves.not_albuf (h : G.Moves u) : u.buf ≠ .albuf := by
  obtain ⟨op, buf, len, bda⟩ := u
  rintro rfl
  cases op <;> cases h

section Move

variable {x : Option DevIo} {t : DevIo} {part : Nat → Bool} {m : Mem}

/-- What a write of the queue takes from its buffer. -/
theorem Between.source (h : G.Between m ∧ G.Filled x m) {buf : Buf} (hq : G.Queued x ⟨.wr, buf, len, bda⟩)
    (hi : i < len) : m.buf buf i = G.dev' (bda + i) := by
  rcases hq with hm | ⟨hx, hbuf⟩
  · cases buf with
    | data off => exact h.1.source_wr hm hi
    | albuf => cases hm
  · obtain rfl : buf = .albuf := hbuf
    exact h.2 _ hx rfl i hi

theorem move_toward (h : G.Between m ∧ G.Filled x m) (hq : G.Queued x t) : G.Toward m (t.move part m) := by
  obtain ⟨op, buf, len, bda⟩ := t
  cases op with
  | wr =>
    refine ⟨fun a => ?_, fun _ => .inl rfl⟩
    refine (copyPart_cases m.dev (m.buf buf) bda len a part).imp id ?_
    rintro ⟨i, hi, rfl, ha⟩
    exact ha.trans (Between.source h hq hi)
  | rd =>
    cases buf with
    | albuf => exact ⟨fun _ => .inl rfl, fun _ => .inl rfl⟩
    | data off =>
      refine ⟨fun _ => .inl rfl, fun j => ?_⟩
      refine (copyPart_cases m.data (fun i => m.dev (bda + i)) off len j part).imp id ?_
      rintro ⟨i, hi, rfl, ha⟩
      rcases hq with hm | ⟨-, hbuf⟩
      · exact ha.trans (h.1.source_rd hm hi)
      · cases hbuf

/-- Only the read into the aligned buffer changes it. -/
theorem move_albuf (hq : G.Queued x t) : (t.move part m).albuf = m.albuf ∨ x = some t ∧ t.op = .rd := by
  obtain ⟨op, buf, len, bda⟩ := t
  cases op with
  | wr => exact .inl rfl
  | rd =>
    cases buf with
    | data off => exact .inl rfl
    | albuf => exact .inr ⟨(hq.resolve_left id).1, rfl⟩

theorem Between.keep (h : G.Between m ∧ G.Filled x m) (hq : G.Queued x t) :
    G.Between (t.move part m) ∧ G.Filled x (t.move part m) := by
  refine ⟨h.1.toward (move_toward h hq), ?_⟩
  rcases move_albuf hq with hal | ⟨rfl, hrd⟩
  · intro u hu hop i hi
    rw [hal]
    exact h.2 u hu hop i hi
  · rintro u ⟨⟩ hop
    rw [hrd] at hop
    cases hop

theorem Between.whole (h : G.Between m ∧ G.Filled x m) (hq : G.Queued x t) : G.Moved t (t.move (fun _ => true) m) := by
  obtain ⟨op, buf, len, bda⟩ := t
  cases op with
  | wr => exact fun i hi => (copyPart_all m.dev (m.buf buf) hi).trans (Between.source h hq hi)
  | rd =>
    cases buf with
    | data off =>
      intro i hi
      have hm := hq.resolve_right fun hc => nomatch hc.2
      exact (copyPart_all m.data (fun i => m.dev (bda + i)) hi).trans (h.1.source_rd hm hi)
    | albuf =>
      intro i hi heq
      have hc := copyPart_all m.albuf (fun i => m.dev (bda + i)) (a := 0) hi
      rw [Nat.zero_add] at hc
      exact hc.trans (h.1.of_dev heq)

theorem Between.stay (h : G.Between m ∧ G.Filled x m) (ht : G.Queued x t) (hu : G.Queued x u) (hd : G.Moved u m) :
    G.Moved u (t.move part m) := by
  by_cases hal : u.op = .rd ∧ u.buf = .albuf
  · obtain ⟨op, buf, len, bda⟩ := u
    obtain ⟨rfl, rfl⟩ := hal
    intro i hi heq
    rcases move_albuf ht with hkeep | ⟨hx, -⟩
    · rw [hkeep]
      exact hd i hi heq
    -- the same IO moves once more what is there already
    cases hx.symm.trans (hu.resolve_left id).1
    rcases copyPart_cases m.albuf (fun i => m.dev (bda + i)) 0 len i part with hj | ⟨k, -, rfl, hj⟩
    · exact hj.trans (hd i hi heq)
    · rw [Nat.zero_add] at heq hj ⊢
      exact hj.trans (h.1.of_dev heq)
  · exact hd.toward (move_toward h ht) fun hop hbuf => hal ⟨hop, hbuf⟩

end Move

/-- The IO of one call, with `x` on the aligned buffer. -/
def rules (G : Goal) (x : Option DevIo) : Rules DevIo.move where
  P m := G.Between m ∧ G.Filled x m
  Q := G.Queued x
  D := G.Moved
  keep := Between.keep
  whole := Between.whole
  stay := Between.stay

end Goal

namespace Ioq

/-! ## The aligned buffer -/

section Segment

variable {G : Goal} {s : Ioq} {nowait : Bool} {good : Ioq → Prop} {depth : Nat} {io : DevIo}

theorem Inv.enter {q : State DevIo Mem} (h : Inv (G.rules none) q) (hf : G.Filled (some io) q.mem) :
    Inv (G.rules (some io)) q :=
  ⟨⟨h.mem.1, hf⟩, fun e he => .inl ((h.sound e he).resolve_right fun hc => nomatch hc.1), h.done, h.recorded⟩

theorem Inv.leave {q : State DevIo Mem} (h : Inv (G.rules (some io)) q) (hq : ∀ u ∈ q.ios, G.Queued none u) :
    Inv (G.rules none) q :=
  ⟨⟨h.mem.1, nofun⟩, fun e he => hq e.io (List.mem_map_of_mem he), h.done, h.recorded⟩

/-- An IO on the aligned buffer that is waited for leaves the queue to the others. -/
theorem Ends.leave {o : Option (Nat × Ioq)} (hs : Inv (G.rules none) s.q)
    (h : Ends (G.rules (some io)) false good s o) : Ends (G.rules none) nowait good s o := by
  rcases o with _ | ⟨err, s'⟩
  · exact h
  · have hinv : Inv (G.rules none) s'.q := Inv.leave h.inv fun u hu => hs.sound_ios (h.settled rfl hu)
    refine ⟨h.sched, hinv, h.grows, fun _ => h.settled rfl, fun h0 => ?_, h.faulty⟩
    obtain ⟨hk, hg⟩ := h.ok h0
    refine ⟨{ hk with inv := hinv, done := fun u hQ hd => hk.done u (.inl (hQ.resolve_right fun hc => nomatch hc.1)) hd }, hg⟩

theorem albufRead (h : Inv (G.rules none) s.q) (hd : 0 < depth) (len bda : Nat) :
    Ends (G.rules none) nowait (fun s => G.Moved ⟨.rd, .albuf, len, bda⟩ s.q.mem) s
      (doIo depth ⟨.rd, .albuf, len, bda⟩ false s) := by
  refine Ends.leave h (doIo_wait (Inv.enter h ?_) hd (.inr ⟨rfl, rfl⟩))
  rintro t ⟨⟩ hop
  cases hop

theorem albufWrite (h : Inv (G.rules none) s.q) (hd : 0 < depth)
    (hfill : ∀ i < len, s.q.mem.albuf i = G.dev' (bda + i)) :
    Ends (G.rules none) nowait (fun s => G.Moved ⟨.wr, .albuf, len, bda⟩ s.q.mem) s
      (doIo depth ⟨.wr, .albuf, len, bda⟩ false s) := by
  refine Ends.leave h (doIo_wait (Inv.enter h ?_) hd (.inr ⟨rfl, rfl⟩))
  rintro t ⟨⟩ -
  exact hfill

/-- The IO is outstanding or done. -/
def Issued (G : Goal) (u : DevIo) (s : Ioq) : Prop := u ∈ s.q.ios ∨ G.Moved u s.q.mem

theorem Issued.kept {s' : Ioq} (h : Issued G u s) (hu : G.Moves u) (hk : Kept (G.rules none) s.q s'.q) :
    Issued G u s' :=
  h.elim (hk.issued u) fun hd => .inr (hk.done u (.inl hu) hd)

theorem doIo_data (h : Inv (G.rules none) s.q) (hd : 0 < depth) (hio : G.Moves io) :
    Ends (G.rules none) nowait (Issued G io) s (doIo depth io nowait s) := by
  cases nowait with
  | true => exact (doIo_nowait h hd (.inl hio)).imp id fun _ _ => .inl
  | false => exact (doIo_wait h hd (.inl hio)).imp id fun _ _ => .inr

theorem Ends.setMem {o : Option (Nat × Ioq)} (h : Inv (G.rules none) s.q) (hto : G.Toward s.q.mem m)
    (ho : Inv (G.rules none) (s.setMem m).q → Ends (G.rules none) nowait good (s.setMem m) o) :
    Ends (G.rules none) nowait good s o := by
  have hk : Kept (G.rules none) s.q (s.setMem m).q := h.setMem ⟨h.mem.1.toward hto, nofun⟩ fun u hu hdone =>
    hdone.toward hto fun _ => (hu.resolve_right fun hc => nomatch hc.1).not_albuf
  have hends := ho hk.inv
  rcases o with _ | ⟨err, s'⟩
  · exact hends
  · exact { hends with ok := fun h0 => ⟨hk.trans h (hends.ok h0).1, (hends.ok h0).2⟩ }

/-- A piece of the range `[start, start + len)` at `pos`, as `pfs_blkio_align` cuts it. -/
structure Piece (g : Geometry) (start len pos : Nat) (r : Nat × Nat × Nat) : Prop where
  aligned : g.Aligned (start + pos) (len - pos) r
  op_pos : 0 < r.2.2
  addr_sect : r.1 % g.sectsize = 0
  io_sect : r.2.1 % g.sectsize = 0
  outside : ∀ a, r.1 ≤ a → a < r.1 + r.2.1 → a < start + pos ∨ start + pos + r.2.2 ≤ a → a < start ∨ start + len ≤ a

variable {g : Geometry} {start len pos : Nat} {r : Nat × Nat × Nat}

theorem Piece.le (hp : Piece g start len pos r) : pos + r.2.2 ≤ len := by
  have := hp.op_pos
  have := hp.aligned.op_le
  omega

theorem Piece.devRw (hp : Piece g start len pos r) (op : Req) (buf : Buf) (nowait : Bool) (s : Ioq) :
    devRw g depth op buf r.2.1 r.1 nowait s = doIo depth ⟨op, buf, r.2.1, r.1⟩ nowait s := by
  have := hp.op_pos
  have := hp.aligned.addr_le
  have := hp.aligned.inside
  exact if_pos ⟨hp.addr_sect, by omega, hp.io_sect⟩

theorem blkioReadSegment_spec (h : Inv (G.rules none) s.q) (hd : 0 < depth) (hp : Piece g start len pos r)
    (hm : G.Moves ⟨.rd, .data pos, r.2.2, start + pos⟩) :
    Ends (G.rules none) nowait (Issued G ⟨.rd, .data pos, r.2.2, start + pos⟩) s
      (blkioReadSegment g depth r.1 r.2.1 (start + pos) pos r.2.2 nowait s) := by
  have hle := hp.aligned.addr_le
  have hin := hp.aligned.inside
  unfold blkioReadSegment
  split
  · rw [hp.devRw]
    refine Ends.andThen h (albufRead h hd r.2.1 r.1) fun s₁ hk hmoved => ?_
    -- the bytes copied from the aligned buffer are those of the device
    have hcopy : ∀ i < r.2.2, s₁.q.mem.albuf (start + pos - r.1 + i) = G.data' (pos + i) := by
      intro i hi
      have ha : r.1 + (start + pos - r.1 + i) = start + pos + i := by omega
      have hg := hm i hi
      have := hmoved (start + pos - r.1 + i) (show _ < r.2.1 by omega)
      rw [show (⟨.rd, .albuf, r.2.1, r.1⟩ : DevIo).bda = r.1 from rfl, ha] at this
      exact (this (hg.1.trans hg.2.symm)).trans hg.2
    have hto : G.Toward s₁.q.mem (s₁.q.mem.fromAlbuf pos (start + pos - r.1) r.2.2) := by
      refine ⟨fun _ => .inl rfl, fun j => ?_⟩
      simp only [Mem.fromAlbuf]
      refine (copyPart_cases s₁.q.mem.data _ pos r.2.2 j _).imp id ?_
      rintro ⟨i, hi, rfl, hj⟩
      exact hj.trans (hcopy i hi)
    refine Ends.setMem hk.inv hto fun hinv => Ends.done hinv (.inr fun i hi => ?_)
    exact (copyPart_all s₁.q.mem.data (fun i => s₁.q.mem.albuf (start + pos - r.1 + i)) hi).trans (hcopy i hi)
  · rename_i heq
    have hlen : r.2.1 = r.2.2 := not_not.mp heq
    have haddr := hp.aligned.direct hlen
    rw [if_pos haddr, ← haddr, ← hlen, hp.devRw]
    rw [← haddr, ← hlen] at hm
    exact doIo_data h hd hm

theorem blkioWriteSegment_spec (h : Inv (G.rules none) s.q) (hd : 0 < depth) (hp : Piece g start len pos r)
    (hm : G.Moves ⟨.wr, .data pos, r.2.2, start + pos⟩)
    (hout : ∀ a, a < start ∨ start + len ≤ a → G.dev a = G.dev' a) :
    Ends (G.rules none) nowait (Issued G ⟨.wr, .data pos, r.2.2, start + pos⟩) s
      (blkioWriteSegment g depth r.1 r.2.1 (start + pos) pos r.2.2 nowait s) := by
  have hle := hp.aligned.addr_le
  have hin := hp.aligned.inside
  unfold blkioWriteSegment
  split
  · rw [hp.devRw]
    refine Ends.andThen h (albufRead h hd r.2.1 r.1) fun s₁ hk hmoved => ?_
    rw [hp.devRw]
    -- what was read lies around the piece, hence outside the range
    have hfill : ∀ i < r.2.1, (s₁.q.mem.toAlbuf (start + pos - r.1) pos r.2.2).albuf i = G.dev' (r.1 + i) := by
      intro i hi
      simp only [Mem.toAlbuf]
      by_cases hc : i < start + pos - r.1 ∨ start + pos - r.1 + r.2.2 ≤ i
      · rw [copyPart_outside _ _ _ hc]
        exact hmoved i hi (hout _ (hp.outside (r.1 + i) (by omega) (by omega) (by omega)))
      · obtain ⟨k, rfl⟩ := Nat.exists_eq_add_of_le (show start + pos - r.1 ≤ i by omega)
        rw [copyPart_all _ _ (by omega), show r.1 + (start + pos - r.1 + k) = start + pos + k by omega]
        exact hk.inv.mem.1.source_wr hm (by omega)
    have hto : G.Toward s₁.q.mem (s₁.q.mem.toAlbuf (start + pos - r.1) pos r.2.2) :=
      ⟨fun _ => .inl rfl, fun _ => .inl rfl⟩
    refine Ends.setMem hk.inv hto fun hinv => (albufWrite hinv hd hfill).imp id fun s₂ _ hdone => .inr fun i hi => ?_
    have hi' : i < r.2.2 := hi
    have := hdone (start + pos - r.1 + i) (show _ < r.2.1 by omega)
    rwa [show (⟨.wr, .albuf, r.2.1, r.1⟩ : DevIo).bda + (start + pos - r.1 + i) = start + pos + i from
      show r.1 + _ = _ by omega] at this
  · rename_i heq
    have hlen : r.2.1 = r.2.2 := not_not.mp heq
    have haddr := hp.aligned.direct hlen
    rw [if_pos haddr, ← haddr, ← hlen, hp.devRw]
    rw [← haddr, ← hlen] at hm
    exact doIo_data h hd hm

/-! ## The pieces together -/

/-- The first `pos` bytes of the range are in pieces outstanding or done. -/
def Pieces (G : Goal) (op : Req) (start len pos : Nat) (s : Ioq) : Prop :=
  ∀ i < pos, ∃ o n, o ≤ i ∧ i < o + n ∧ o + n ≤ len ∧ Issued G ⟨op, .data o, n, start + o⟩ s

theorem Pieces.kept {op : Req} {s' : Ioq} (h : Pieces G op start len pos s)
    (hm : ∀ o n, o + n ≤ len → G.Moves ⟨op, .data o, n, start + o⟩) (hk : Kept (G.rules none) s.q s'.q) :
    Pieces G op start len pos s' := by
  intro i hi
  obtain ⟨o, n, hoi, hin, hon, hiss⟩ := h i hi
  exact ⟨o, n, hoi, hin, hon, hiss.kept (hm o n hon) hk⟩

theorem piece_blkioAlign (start : Nat) (hlt : pos < len) (hhead : pos = 0 ∨ (start + pos) % g.sectsize = 0) :
    Piece g start len pos (g.blkioAlign (start + pos) (len - pos)) := by
  have hal := g.blkioAlign_aligned (start + pos) (len - pos)
  obtain ⟨hs, hio, hfirst, hlast⟩ := g.blkioAlign_sect (start + pos) (len - pos)
  have hle := hal.addr_le
  refine ⟨hal, hal.op_pos (by omega), hs, hio, ?_⟩
  rintro a ha ha' (hb | hb)
  · -- before the piece: only the first one begins inside a sector
    rcases hfirst with heq | hne
    · omega
    · rcases hhead with rfl | h0
      · exact .inl hb
      · exact absurd h0 hne
  · rcases hlast with heq | heq <;> omega

theorem executeLoop_spec {op : Req} (iofunc : Nat → Nat → Nat → Nat → Nat → Ioq → Option (Nat × Ioq)) {blkno : Nat}
    (hm : ∀ o n, o + n ≤ len → G.Moves ⟨op, .data o, n, blkno * g.blksize + off + o⟩)
    (hseg : ∀ pos r s, Inv (G.rules none) s.q → Piece g (blkno * g.blksize + off) len pos r →
      Ends (G.rules none) nowait (Issued G ⟨op, .data pos, r.2.2, blkno * g.blksize + off + pos⟩) s
        (iofunc r.1 r.2.1 (blkno * g.blksize + off + pos) pos r.2.2 s)) (left pos : Nat) (s : Ioq)
    (hlen : pos + left = len) (hhead : left = 0 ∨ pos = 0 ∨ (blkno * g.blksize + off + pos) % g.sectsize = 0)
    (h : Inv (G.rules none) s.q) (hpieces : Pieces G op (blkno * g.blksize + off) len pos s) :
    Ends (G.rules none) nowait (Pieces G op (blkno * g.blksize + off) len len) s
      (executeLoop g iofunc blkno (off + pos) pos left s) := by
  induction left using Nat.strong_induction_on generalizing pos s with
  | _ left ih =>
    unfold executeLoop
    by_cases h0 : left = 0
    · rw [dif_pos h0]
      obtain rfl : pos = len := by omega
      exact Ends.done h hpieces
    · rw [dif_neg h0]
      have hp := piece_blkioAlign (blkno * g.blksize + off) (show pos < len by omega) (hhead.resolve_left h0)
      rw [show len - pos = left by omega] at hp
      obtain ⟨hs, hio, -, hlast⟩ := g.blkioAlign_sect (blkno * g.blksize + off + pos) left
      dsimp only
      rw [← Nat.add_assoc (blkno * g.blksize) off pos]
      generalize g.blkioAlign (blkno * g.blksize + off + pos) left = r at hp hs hio hlast
      have hop := hp.aligned.op_le
      have hpos := hp.op_pos
      refine Ends.andThen h (hseg pos r s h hp) fun s₁ hk hiss => ?_
      rw [Nat.add_assoc off pos]
      refine ih (left - r.2.2) (by omega) (pos + r.2.2) s₁ (by omega) ?_ hk.inv fun i hi => ?_
      · rcases hlast with heq | heq
        · exact .inl (by omega)
        · refine .inr (.inr ?_)
          rw [← Nat.add_assoc, heq, Nat.add_mod, hs, hio, Nat.add_zero, Nat.zero_mod]
      · by_cases hi' : i < pos
        · exact hpieces.kept hm hk i hi'
        · exact ⟨pos, r.2.2, by omega, hi, by omega, hiss⟩

/-- `pfs_blkio_done` leaves nothing outstanding, and returns an error that was still in the queue. -/
theorem blkioDone_spec {R : Rules DevIo.move} (h : Inv R s.q) (hq : nowait = false → s.q.ios = []) :
    let done := if nowait = true then s.waitIo else (0, s)
    (done.2.q.ios = [] ∧ Inv R done.2.q ∧ s.q.results ⊆ done.2.q.results) ∧
      (done.1 = 0 → Kept R s.q done.2.q) ∧ (done.1 ≠ 0 → ∃ r ∈ done.2.q.results, r.2 ≠ 0) := by
  cases nowait with
  | true =>
    obtain ⟨hend, hok, herr⟩ := waitIoLoop_spec (R := R) s.q.ios.length 0 s h rfl
    exact ⟨hend, fun h0 => (hok h0).2, fun h0 => (herr h0).resolve_left (absurd rfl)⟩
  | false => exact ⟨⟨hq rfl, h, fun _ => id⟩, fun _ => Kept.refl h, fun h0 => absurd rfl h0⟩

theorem errUpdate_eq_zero {err err1 : Nat} : errUpdate err err1 = 0 ↔ err = 0 ∧ err1 = 0 := by
  unfold errUpdate
  split <;> simp_all

end Segment

end Ioq

open Ioq

/-! ## The calls -/

/-- A call of `len` bytes returns unless the device is out of buffers. Then no IO is outstanding and `frame`
holds; it returns `len` and `full` holds, all its IO having succeeded, or an error, and some IO failed
or was refused. -/
def Exact (sched : List Turn) (len : Nat) (frame full : Mem → Prop) : Option (Except Nat Nat × Ioq) → Prop
  | none => ∃ t ∈ sched, t.submit = enobufs
  | some (r, s) => s.q.queue = [] ∧ frame s.q.mem ∧
      (r = .ok len ∧ full s.q.mem ∧ (∀ p ∈ s.q.results, p.2 = 0) ∨
        (r = .error eio ∨ r = .error etimedout) ∧ Faulty sched s.q)

theorem blkioExecute_exact (G : Goal) {g : Geometry} {op : Req} {blkno : Nat} (sched : List Turn)
    {iofunc : Nat → Nat → Nat → Nat → Nat → Bool → Ioq → Option (Nat × Ioq)} (hb : G.Between m)
    (hm : ∀ o n, o + n ≤ len → G.Moves ⟨op, .data o, n, blkno * g.blksize + off + o⟩)
    (hseg : ∀ nowait pos r s, Inv (G.rules none) s.q → Piece g (blkno * g.blksize + off) len pos r →
      Ends (G.rules none) nowait (Issued G ⟨op, .data pos, r.2.2, blkno * g.blksize + off + pos⟩) s
        (iofunc r.1 r.2.1 (blkno * g.blksize + off + pos) pos r.2.2 nowait s)) :
    Exact sched len G.Between (fun m => ∀ i < len, ∃ o n, o ≤ i ∧ i < o + n ∧ o + n ≤ len ∧
        G.Moved ⟨op, .data o, n, blkno * g.blksize + off + o⟩ m)
      (Ioq.blkioExecute g iofunc blkno off len ⟨⟨m, [], []⟩, sched⟩) := by
  have hinit : Inv (G.rules none) (⟨m, [], []⟩ : State DevIo Mem) := ⟨⟨hb, nofun⟩, nofun, nofun, nofun⟩
  unfold Ioq.blkioExecute
  dsimp only
  generalize decide (2 * g.fragsize ≤ len) = nowait
  have hloop := executeLoop_spec (fun albda allen bda pos n => iofunc albda allen bda pos n nowait) hm (hseg nowait) len 0
    ⟨⟨m, [], []⟩, sched⟩ (Nat.zero_add _) (.inr (.inl rfl)) hinit (fun i hi => absurd hi (Nat.not_lt_zero i))
  rw [Nat.add_zero] at hloop
  generalize executeLoop g _ blkno off 0 len _ = o at hloop
  rcases o with _ | ⟨err, s⟩
  · exact hloop
  have hdone := blkioDone_spec hloop.inv fun hw => List.subset_nil.mp (hloop.settled hw)
  dsimp only at hdone ⊢
  generalize (if nowait = true then s.waitIo else (0, s)) = done at hdone
  obtain ⟨⟨hnil, hinv, hgrows⟩, hok, herr⟩ := hdone
  have hqueue : done.2.q.queue = [] := List.map_eq_nil_iff.mp hnil
  refine ⟨hqueue, hinv.mem.1, ?_⟩
  by_cases h0 : errUpdate err done.1 = 0
  · obtain ⟨he, hd⟩ := errUpdate_eq_zero.mp h0
    obtain ⟨hk, hpieces⟩ := hloop.ok he
    refine .inl ⟨if_neg (not_not.mpr h0), fun i hi => ?_, fun p hp => ?_⟩
    · obtain ⟨o, n, hoi, hin, hon, hiss⟩ := hpieces.kept hm (hok hd) i hi
      refine ⟨o, n, hoi, hin, hon, hiss.resolve_left ?_⟩
      rw [hnil]
      exact List.not_mem_nil
    · have hlost : NoneLost (⟨m, [], []⟩ : State DevIo Mem) := nofun
      exact ((hok hd).lost (hk.lost hlost)).of_nil hqueue hp
  · refine .inr ⟨?_, ?_⟩
    · rw [if_pos h0]
      split
      exacts [.inr rfl, .inl rfl]
    · by_cases he : err = 0
      · exact .inl (herr fun hd => h0 (errUpdate_eq_zero.mpr ⟨he, hd⟩))
      · exact (hloop.faulty he).mono (fun _ => id) hgrows

theorem Exact.imp {sched : List Turn} {frame frame' full full' : Mem → Prop} {o : Option (Except Nat Nat × Ioq)}
    (h : Exact sched len frame full o) (hframe : ∀ m, frame m → frame' m) (hfull : ∀ m, frame m → full m → full' m) :
    Exact sched len frame' full' o := by
  rcases o with _ | ⟨r, s⟩
  · exact h
  · obtain ⟨hq, hf, hr⟩ := h
    exact ⟨hq, hframe _ hf, hr.imp (fun ⟨hok, hd, hz⟩ => ⟨hok, hfull _ hf hd, hz⟩) id⟩

theorem writeAt_readAt_add (d src : Nat → UInt8) {b : Nat} (hi : i < len) :
    writeAt d a (readAt src b len) (a + i) = src (b + i) := by
  rw [writeAt_of_mem 0 (by omega) (by simpa using hi), Nat.add_sub_cancel_left, List.getD_eq_getElem?_getD,
    getElem?_readAt, if_pos hi, Option.getD_some]

theorem writeAt_readAt_outside (d src : Nat → UInt8) {b j : Nat} (h : j < a ∨ a + len ≤ j) :
    writeAt d a (readAt src b len) j = d j :=
  h.elim writeAt_of_lt fun h => writeAt_of_ge (by simpa using h)

def Goal.write (m : Mem) (start len : Nat) : Goal :=
  ⟨m.dev, writeAt m.dev start (readAt m.data 0 len), m.data, m.data⟩

def Goal.read (m : Mem) (start len : Nat) : Goal :=
  ⟨m.dev, m.dev, m.data, writeAt m.data 0 (readAt m.dev start len)⟩

theorem Goal.write_moves (m : Mem) {start o n : Nat} (hon : o + n ≤ len) :
    (Goal.write m start len).Moves ⟨.wr, .data o, n, start + o⟩ := by
  intro i hi
  have hlt : o + i < len := Nat.lt_of_lt_of_le (Nat.add_lt_add_left hi o) hon
  have heq : (Goal.write m start len).dev' (start + o + i) = m.data (o + i) := by
    rw [Nat.add_assoc, ← Nat.zero_add (o + i)]
    exact (writeAt_readAt_add _ _ (by omega)).trans (by simp)
  exact ⟨heq.symm, heq.symm⟩

theorem Goal.read_moves (m : Mem) {start o n : Nat} (hon : o + n ≤ len) :
    (Goal.read m start len).Moves ⟨.rd, .data o, n, start + o⟩ := by
  intro i hi
  have hlt : o + i < len := Nat.lt_of_lt_of_le (Nat.add_lt_add_left hi o) hon
  have heq := writeAt_readAt_add m.data m.dev (a := 0) (b := start) hlt
  rw [Nat.zero_add, ← Nat.add_assoc] at heq
  exact ⟨heq.symm, heq.symm⟩

theorem blkioWrite_exact (g : Geometry) {depth : Nat} (hdepth : 0 < depth) (sched : List Turn) (m : Mem)
    (blkno off len : Nat) :
    Exact sched len
      (fun m' => ∀ a, m'.dev a = m.dev a ∨ blkno * g.blksize + off ≤ a ∧ a < blkno * g.blksize + off + len ∧
        m'.dev a = m.data (a - (blkno * g.blksize + off)))
      (fun m' => m'.dev = writeAt m.dev (blkno * g.blksize + off) (readAt m.data 0 len))
      (Ioq.blkioExecute g (Ioq.blkioWriteSegment g depth) blkno off len ⟨⟨m, [], []⟩, sched⟩) := by
  have hout : ∀ a, a < blkno * g.blksize + off ∨ blkno * g.blksize + off + len ≤ a →
      m.dev a = writeAt m.dev (blkno * g.blksize + off) (readAt m.data 0 len) a :=
    fun a ha => (writeAt_readAt_outside _ _ ha).symm
  have hcall := blkioExecute_exact (Goal.write m (blkno * g.blksize + off) len) sched (m := m)
    ⟨fun _ => .inl rfl, fun _ => .inl rfl⟩ (fun o n => Goal.write_moves m) fun nowait pos r s h hp =>
      blkioWriteSegment_spec h hdepth hp (Goal.write_moves m hp.le) hout
  refine hcall.imp (fun m' hbet a => ?_) fun m' hbet hfull => funext fun a => ?_
  all_goals
    by_cases ha : a < blkno * g.blksize + off ∨ blkno * g.blksize + off + len ≤ a
  · exact .inl ((hbet.of_dev (hout a ha)).trans (hout a ha).symm)
  · obtain ⟨i, rfl⟩ := Nat.exists_eq_add_of_le (show blkno * g.blksize + off ≤ a by omega)
    refine (hbet.dev _).imp id fun hnew => ⟨by omega, by omega, hnew.trans ?_⟩
    rw [Nat.add_sub_cancel_left]
    exact (writeAt_readAt_add _ _ (by omega)).trans (by rw [Nat.zero_add])
  · exact hbet.of_dev (hout a ha)
  · obtain ⟨i, rfl⟩ := Nat.exists_eq_add_of_le (show blkno * g.blksize + off ≤ a by omega)
    obtain ⟨o, n, ho, hn, -, hmoved⟩ := hfull i (by omega)
    have := hmoved (i - o) (show i - o < n by omega)
    rwa [show (⟨.wr, .data o, n, blkno * g.blksize + off + o⟩ : DevIo).bda + (i - o) = blkno * g.blksize + off + i from
      show blkno * g.blksize + off + o + (i - o) = _ by omega] at this

theorem blkioRead_exact (g : Geometry) {depth : Nat} (hdepth : 0 < depth) (sched : List Turn) (m : Mem)
    (blkno off len : Nat) :
    Exact sched len (fun m' => m'.dev = m.dev ∧ ∀ i, len ≤ i → m'.data i = m.data i)
      (fun m' => readAt m'.data 0 len = readAt m.dev (blkno * g.blksize + off) len)
      (Ioq.blkioExecute g (Ioq.blkioReadSegment g depth) blkno off len ⟨⟨m, [], []⟩, sched⟩) := by
  have hcall := blkioExecute_exact (Goal.read m (blkno * g.blksize + off) len) sched (m := m)
    ⟨fun _ => .inl rfl, fun _ => .inl rfl⟩ (fun o n => Goal.read_moves m) fun nowait pos r s h hp =>
      blkioReadSegment_spec h hdepth hp (Goal.read_moves m hp.le)
  refine hcall.imp (fun m' hbet => ⟨funext fun a => hbet.of_dev rfl, fun i hi => ?_⟩) fun m' hbet hfull => ?_
  · refine (hbet.data i).elim id fun hnew => hnew.trans ?_
    exact writeAt_readAt_outside m.data m.dev (a := 0) (.inr (by omega))
  · refine List.map_congr_left fun i hi => ?_
    have hi' := List.mem_range.mp hi
    obtain ⟨o, n, ho, hn, -, hmoved⟩ := hfull i hi'
    have := hmoved (i - o) (show i - o < n by omega)
    rw [show o + (i - o) = 0 + i by omega] at this
    exact this.trans (writeAt_readAt_add m.data m.dev (a := 0) (b := blkno * g.blksize + off) hi')

/-- For every device and however the range lies in the block: `pfs_blkio_write` changes exactly the range,
`pfs_blkio_read` returns it and writes nothing else in the buffer, each piece takes something off the
range, and an IO that fails is an error of the call. -/
theorem blkio_touches_exactly (g : Geometry) (depth : Nat) (hdepth : 0 < depth) (sched : List Turn) (m : Mem)
    (null : Bool) (blkno off len : Nat) (hin : off + len ≤ g.blksize) :
    Exact sched len
        (fun m' => ∀ a, m'.dev a = m.dev a ∨ blkno * g.blksize + off ≤ a ∧ a < blkno * g.blksize + off + len ∧
          m'.dev a = if null then 0 else m.data (a - (blkno * g.blksize + off)))
        (fun m' => m'.dev = writeAt m.dev (blkno * g.blksize + off) (readAt (if null then fun _ => 0 else m.data) 0 len))
        (blkioWrite g depth sched m null blkno off len) ∧
      Exact sched len (fun m' => m'.dev = m.dev ∧ ∀ i, len ≤ i → m'.data i = m.data i)
        (fun m' => readAt m'.data 0 len = readAt m.dev (blkno * g.blksize + off) len)
        (blkioRead g depth sched m blkno off len) ∧
      ∀ bda left, 0 < left → 0 < (g.blkioAlign bda left).2.2 ∧ (g.blkioAlign bda left).2.2 ≤ left := by
  refine ⟨?_, ?_, fun bda left hleft => ?_⟩
  · rw [blkioWrite, if_pos hin]
    cases null with
    | false => exact blkioWrite_exact g hdepth sched m blkno off len
    | true => exact blkioWrite_exact g hdepth sched { m with data := fun _ => 0 } blkno off len
  · rw [blkioRead, if_pos hin]
    exact blkioRead_exact g hdepth sched m blkno off len
  · have hal := g.blkioAlign_aligned bda left
    exact ⟨hal.op_pos hleft, hal.op_le⟩

/-- A device that fails its second IO. -/
def failingDevice : List Turn := [{}, {}, {}, { err := eio }]

/-- A range of three sectors' length that begins and ends inside sectors is written, and read. -/
theorem blkio_touches_exactly_unaligned :
    (0 < 65536 ∧ 100 + 12000 ≤ pfsGeometry.blksize) ∧
      Exact failingDevice 12000
        (fun m' => ∀ a, m'.dev a = 7 ∨ 3 * pfsGeometry.blksize + 100 ≤ a ∧ a < 3 * pfsGeometry.blksize + 100 + 12000 ∧
          m'.dev a = 0)
        (fun m' => m'.dev = writeAt (fun _ => 7) (3 * pfsGeometry.blksize + 100) (readAt (fun _ => 0) 0 12000))
        (blkioWrite pfsGeometry 65536 failingDevice ⟨fun _ => 7, fun _ => 0, fun _ => 1⟩ false 3 100 12000) ∧
      Exact failingDevice 12000 (fun m' => m'.dev = (fun _ => 7) ∧ ∀ i, 12000 ≤ i → m'.data i = 0)
        (fun m' => readAt m'.data 0 12000 = readAt (fun _ => 7) (3 * pfsGeometry.blksize + 100) 12000)
        (blkioRead pfsGeometry 65536 failingDevice ⟨fun _ => 7, fun _ => 0, fun _ => 1⟩ 3 100 12000) :=
  have h := blkio_touches_exactly pfsGeometry 65536 (by decide) failingDevice ⟨fun _ => 7, fun _ => 0, fun _ => 1⟩ false
    3 100 12000 (by decide)
  ⟨by decide, h.1, h.2.1⟩

end Devio

end PolarFs.File
