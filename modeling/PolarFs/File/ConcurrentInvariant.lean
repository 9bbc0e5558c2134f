/-
The invariant of concurrent calls, kept by every step that does not free a block with an IO in
flight: such an IO is on a block of its file, in the committed metadata and as the open transaction
sees them.
-/
import PolarFs.File.ConcurrentMeta

namespace PolarFs.File

open Function (update update_self update_of_ne update_eq_self forall_update_iff)
open MetaData

variable {g : Geometry} {n : Nat}

/-! ## The invariant -/

/-- A call that may have a write modify on an inode. -/
def Call.writes (i : Nat) : Call → Prop
  | .write w => w.file.ino = i
  | .writing w _ _ => w.file.ino = i
  | .flush ino _ => ino = i
  | _ => False

/-- A read in flight: where it stands, and that there are only bytes of the file. -/
structure ReadOk (g : Geometry) (dev : Nat → Nat → Cell) (r : ReadCall) (io : Io) : Prop where
  blkid : io.blkid = g.fblkid r.offset
  blkoff : io.blkoff = g.fblkoff r.offset
  len : io.blkoff + io.len ≤ g.blksize
  file : ∀ j, j < io.len → (dev io.blkno (io.blkoff + j)).file = some r.file

structure Node.Inv (g : Geometry) (s : Node n) : Prop where
  disk : s.disk.Ok g s.dev
  view : s.view.Ok g s.dev
  tx : ∀ x, s.tx = some x → ∀ i, i ≠ x.ino → x.view.inode i = s.disk.inode i
  mem : ∀ i, (s.mem i).stale = false → (s.mem i).Ok g s.view s.dev i
  wm : ∀ i w, (s.mem i).wm = some w → (s.calls w.thread).writes i
  inFlight : ∀ t f io, (s.calls t).inFlight = some (f, io) →
    s.disk.Maps f io.blkid io.blkno ∧ s.view.Maps f io.blkid io.blkno
  reading : ∀ t r io, s.calls t = .reading r io → ReadOk g s.dev r io
  landed : ∀ l ∈ s.landed, l.owner = some l.file

namespace Node

variable {s s' : Node n} {t : Fin n} {i k keep len : Nat} {c : Call} {f : FileId} {p : PhyInode} {blks : Nat → Dblk}
  {slide : Bool}

@[simp] theorem setMem_self (s : Node n) (i : Nat) (m : MemInode n) : (s.setMem i m).mem i = m :=
  update_self ..

@[simp] theorem setCall_self (s : Node n) (t : Fin n) (c : Call) : (s.setCall t c).calls t = c :=
  update_self ..

theorem setMem_of_ne (s : Node n) {j : Nat} (m : MemInode n) (h : j ≠ i) : (s.setMem i m).mem j = s.mem j :=
  update_of_ne h _ _

theorem setCall_of_ne (s : Node n) {t t' : Fin n} (c : Call) (h : t' ≠ t) : (s.setCall t c).calls t' = s.calls t' :=
  update_of_ne h _ _

theorem view_of_none (h : s.tx = none) : s.view = s.disk := by rw [Node.view, h]; rfl

theorem view_of_some {x : Tx} (h : s.tx = some x) : s.view = x.view := by rw [Node.view, h]; rfl

theorem phyCheck_eq {ino : Nat} (h : s.phyCheck ino = some p) :
    s.disk.inode ino = some p ∧ p.btime = (s.mem ino).btime ∧ (s.mem ino).stale = false := by
  obtain ⟨hp, hcheck⟩ := Option.filter_eq_some_iff.1 h
  simp only [Bool.and_eq_true, beq_iff_eq, Bool.not_eq_true'] at hcheck
  exact ⟨hp, hcheck⟩

/-- What the write modify does to the entries of the inode: each is as it was, or a copy. -/
theorem foldl_copies {entries : Nat → Dblk} {l : List (Nat × Dblk)} (hl : ∀ kd ∈ l, kd.2.Within (entries kd.1))
    (hb : ∀ k, (blks k).Within (entries k)) (k : Nat) :
    (l.foldl (fun blks kd => update blks kd.1 kd.2) blks k).Within (entries k) := by
  induction l generalizing blks with
  | nil => exact hb k
  | cons kd l ih =>
    refine ih (fun kd' h => hl kd' (List.mem_cons_of_mem _ h)) ?_
    exact (forall_update_iff blks fun k b => b.Within (entries k)).2 ⟨hl kd List.mem_cons_self, fun k' _ => hb k'⟩

theorem Inv.view_inode (h : s.Inv g) (hi : ∀ x, s.tx = some x → x.ino ≠ i) : s.view.inode i = s.disk.inode i := by
  cases htx : s.tx with
  | none => rw [view_of_none htx]
  | some x =>
    rw [view_of_some htx]
    exact h.tx x htx i (hi x htx).symm

/-- What `pfs_inode_sync_impl` leaves: the inode in memory is loaded or as it was, no open transaction
is about it, and its write modify is the thread's own. -/
structure Synced (g : Geometry) (s : Node n) (t : Fin n) (f : FileId) (s' : Node n) (ok : Bool) : Prop where
  eq : ∃ m, s' = s.setMem f.ino m
  inv : s'.Inv g
  tx : ∀ x, s.tx = some x → x.ino ≠ f.ino
  wm : ∀ w, (s'.mem f.ino).wm = some w → w.thread = t
  ok : ok = true → (s'.mem f.ino).stale = false ∧ (s'.mem f.ino).btime = f.btime

/-- The blocks of a synced inode are blocks of the file, committed and in the open transaction. -/
theorem Synced.maps (h : Synced g s t f s' true) (hb : ((s'.mem f.ino).blks k).blkno ≠ 0) :
    s'.disk.Maps f k ((s'.mem f.ino).blks k).blkno ∧ s'.view.Maps f k ((s'.mem f.ino).blks k).blkno := by
  obtain ⟨hstale, hbt⟩ := h.ok rfl
  have hview := (h.inv.mem f.ino hstale).maps hb
  rw [hbt] at hview
  refine ⟨hview.congr (h.inv.view_inode ?_).symm, hview⟩
  obtain ⟨m, rfl⟩ := h.eq
  exact h.tx

namespace Inv

variable (h : s.Inv g)

include h

theorem setMem {m : MemInode n} (hm : m.stale = false → m.Ok g s.view s.dev i)
    (hwm : ∀ w, m.wm = some w → (s.calls w.thread).writes i) : (s.setMem i m).Inv g := by
  refine { h with mem := ?_, wm := ?_ }
  · intro j
    by_cases hj : j = i
    · subst hj
      rw [setMem_self]
      exact hm
    · rw [setMem_of_ne s m hj]
      exact h.mem j
  · intro j w
    by_cases hj : j = i
    · subst hj
      rw [setMem_self]
      exact hwm w
    · rw [setMem_of_ne s m hj]
      exact h.wm j w

theorem setCall (hwm : ∀ i w, (s.mem i).wm = some w → w.thread = t → c.writes i)
    (hfl : ∀ f io, c.inFlight = some (f, io) → s.disk.Maps f io.blkid io.blkno ∧ s.view.Maps f io.blkid io.blkno)
    (hrd : ∀ r io, c = .reading r io → ReadOk g s.dev r io) : (s.setCall t c).Inv g := by
  refine ⟨h.disk, h.view, h.tx, h.mem, ?_, ?_, ?_, h.landed⟩
  · intro i w hw
    by_cases ht : w.thread = t
    · rw [ht, setCall_self]
      exact hwm i w hw ht
    · rw [setCall_of_ne s c ht]
      exact h.wm i w hw
  · intro t' f io
    by_cases ht : t' = t
    · rw [ht, setCall_self]
      exact hfl f io
    · rw [setCall_of_ne s c ht]
      exact h.inFlight t' f io
  · intro t' r io
    by_cases ht : t' = t
    · rw [ht, setCall_self]
      exact hrd r io
    · rw [setCall_of_ne s c ht]
      exact h.reading t' r io

theorem wm_writes {j : Nat} (hc : s.calls t = c) (hw : ∀ k, c.writes k → k = i) :
    ∀ w, (s.mem j).wm = some w → w.thread = t → j = i := by
  intro w hwm ht
  have hj := h.wm j w hwm
  rw [ht, hc] at hj
  exact hw j hj

theorem put {b : Nat} {dev : Nat → Nat → Cell} (hdisk : s.disk.Maps f k b) (hview : s.view.Maps f k b)
    (hdev : OnlyIn f b s.dev dev) : Node.Inv g { s with dev := dev, landed := ⟨f, s.disk.owner b⟩ :: s.landed } := by
  refine ⟨h.disk.onlyIn hdisk hdev, h.view.onlyIn hview hdev, h.tx, ?_, h.wm, h.inFlight, ?_, ?_⟩
  · intro i hi
    exact (h.mem i hi).onlyIn h.view hview hdev
  · intro t' r io hr
    have hok := h.reading t' r io hr
    refine { hok with file := fun j hj => hdev.file (hok.file j hj) ?_ }
    rintro rfl
    exact h.disk.maps_unique hdisk (h.inFlight t' r.file io (by rw [hr]; rfl)).1
  · intro l hl
    rcases List.mem_cons.1 hl with rfl | hl
    · exact h.disk.owner_eq hdisk
    · exact h.landed l hl

/-! ## Sync -/

theorem sync {first ok : Bool} (hs : s.sync t f first = some (s', ok)) : Synced g s t f s' ok := by
  unfold Node.sync at hs
  dsimp only at hs
  split at hs
  · cases hs
  rename_i hwait
  simp only [Bool.or_eq_true, not_or, Bool.not_eq_true, Option.any_eq_false, beq_eq_false_iff_ne, ne_eq,
    bne_eq_false_iff_eq] at hwait
  obtain ⟨htx, hwm⟩ := hwait
  split at hs
  · rename_i hst
    split at hs
    · cases hs
    rename_i hnone
    have hnone : s.tx = none := by simpa using hnone
    split at hs
    · cases hs
      refine ⟨⟨_, rfl⟩, h.setMem ?_ (by simp), htx, by simp, by simp⟩
      intro hstale
      rw [hst] at hstale
      cases hstale
    · rename_i p hp
      cases hs
      refine ⟨⟨_, rfl⟩, h.setMem (fun _ => ?_) (by simp [PhyInode.load]), htx, by simp [PhyInode.load], ?_⟩
      · exact MemInode.load_ok h.view (by rw [view_of_none hnone]; exact hp)
      · intro hok
        simp only [Bool.and_eq_true, beq_iff_eq] at hok
        exact ⟨by simp [PhyInode.load], by simpa [PhyInode.load] using hok.1⟩
  · rename_i hst
    cases hs
    refine ⟨⟨s.mem f.ino, by simp [Node.setMem]⟩, h, htx, hwm, fun hok => ⟨by simpa using hst, by simpa using hok⟩⟩

/-! ## Reads and writes -/

theorem writeHole {blkoff fsize fin : Nat} {data : List UInt8} (hstale : (s.mem f.ino).stale = false)
    (hbt : (s.mem f.ino).btime = f.btime)
    (hmaps : s.disk.Maps f k ((s.mem f.ino).blks k).blkno ∧ s.view.Maps f k ((s.mem f.ino).blks k).blkno)
    (hlt : ((s.mem f.ino).blks k).hole < g.blksize) (hw : (s.calls t).writes f.ino) :
    (s.writeHole g t f k blkoff data fsize fin).Inv g := by
  unfold Node.writeHole
  dsimp only
  set d := (s.mem f.ino).blks k with hd
  set dev₁ := if d.hole < blkoff then blkioPut s.dev f d.blkno d.hole (blkoff - d.hole) fun _ => 0 else s.dev with hdev₁
  set dev₂ := blkioPut dev₁ f d.blkno blkoff data.length fun j => data.getD j 0 with hdev₂
  set dev₃ := blkioPut dev₂ f d.blkno (blkoff + data.length) (g.blksize - (blkoff + data.length)) fun _ => 0 with hdev₃
  have honly₁ : OnlyIn f d.blkno s.dev dev₁ := by
    rw [hdev₁]
    split
    · exact (OnlyIn.refl _ _ _).put _ _ _
    · exact OnlyIn.refl _ _ _
  have honly : OnlyIn f d.blkno s.dev dev₃ := (honly₁.put _ _ _).put _ _ _
  -- from the hole on the block is zeros, data and zeros again
  have hrest : ∀ o, d.hole ≤ o → o < g.blksize → (dev₃ d.blkno o).file = some f := by
    intro o ho hlt'
    by_cases hback : blkoff + data.length ≤ o
    · exact blkioPut_file _ hback (by omega)
    refine blkioPut_file_of _ ?_
    by_cases hfront : o < blkoff
    · refine blkioPut_file_of _ ?_
      rw [hdev₁, if_pos (by omega)]
      exact blkioPut_file _ ho (by omega)
    · exact blkioPut_file _ (by omega) (by omega)
  have hput := h.put hmaps.1 hmaps.2 honly
  have hfile : (⟨f.ino, (s.mem f.ino).btime⟩ : FileId) = f := by rw [hbt]
  refine hput.setMem (fun _ => MemInode.Ok.reach ?_ t fsize fin) ?_
  · exact (h.mem f.ino hstale).fillHole t hlt (hfile ▸ honly) h.view hmaps.1.1 (by rw [hfile]; exact hrest)
  · intro w hwm
    have hthread : w.thread = t := by
      rcases MemInode.reach_wm hwm with hwm | ⟨ht, -⟩
      · cases hwm
        rfl
      · exact ht
    rw [hthread]
    exact hw

/-- A thread in a write call goes on in a write call on the same inode, with no IO in flight. -/
theorem setWrite (hw : ∀ k, (s.calls t).writes k → k = i) (hc : c.writes i) (hfl : c.inFlight = none) :
    (s.setCall t c).Inv g := by
  refine h.setCall ?_ ?_ ?_
  · intro j w hwm ht
    rw [h.wm_writes rfl hw w hwm ht]
    exact hc
  · intro f io hf
    rw [hfl] at hf
    cases hf
  · rintro r io rfl
    cases hfl

omit h in
theorem writeRound {w : WriteCall} (h : Synced g s t w.file s' true) (hc : s.calls t = .write w) :
    (s'.writeRound g t w).Inv g := by
  obtain ⟨hstale, hbt⟩ := h.ok rfl
  have hc' : s'.calls t = .write w := by
    obtain ⟨m, rfl⟩ := h.eq
    exact hc
  have hown : ∀ k, (s'.calls t).writes k → k = w.file.ino := by
    intro k hk
    rw [hc'] at hk
    exact hk.symm
  unfold Node.writeRound
  dsimp only
  generalize (if w.first = true then (s'.mem w.file.ino).size else w.fsize) = fsize
  split
  · exact h.inv.setWrite hown rfl rfl
  split
  · exact h.inv.setWrite hown rfl rfl
  rename_i hb
  split
  · -- the piece reaches into the hole
    rename_i hhole
    exact Inv.setWrite (h.inv.writeHole hstale hbt (h.maps hb) hhole.1 (by rw [hc']; rfl)) hown rfl rfl
  · have hmem := h.inv.mem w.file.ino hstale
    have hreach : ∀ {fsize fin}, (s'.setMem w.file.ino ((s'.mem w.file.ino).reach t fsize fin)).Inv g := by
      intro fsize fin
      refine h.inv.setMem (fun _ => hmem.reach t fsize fin) fun x hx => ?_
      have hthread : x.thread = t := (MemInode.reach_wm hx).elim (h.wm x) And.left
      rw [hthread, hc']
      rfl
    refine hreach.setCall ?_ ?_ ?_
    · intro j x hx ht
      have hj : (s'.calls t).writes j := ht ▸ hreach.wm j x hx
      rw [hc'] at hj
      exact hj
    · rintro f io ⟨⟩
      exact h.maps hb
    · rintro r io ⟨⟩

/-- A thread that does not write goes on in a call that has no IO in flight. -/
theorem setRead (hw : ∀ k, ¬ (s.calls t).writes k) (hfl : c.inFlight = none) : (s.setCall t c).Inv g := by
  refine h.setCall ?_ ?_ ?_
  · rintro j w hwm rfl
    exact absurd (h.wm j w hwm) (hw j)
  · intro f io hf
    rw [hfl] at hf
    cases hf
  · rintro r io rfl
    cases hfl

theorem readNext (hw : ∀ k, ¬ (s.calls t).writes k) (r : ReadCall) (bytes : List UInt8) :
    (s.readNext t r bytes).Inv g := by
  unfold Node.readNext
  dsimp only
  refine h.setRead hw ?_
  split <;> rfl

omit h in
theorem readRound {r : ReadCall} (h : Synced g s t r.file s' true) (hc : s.calls t = .read r) :
    (s'.readRound g t r).Inv g := by
  obtain ⟨hstale, hbt⟩ := h.ok rfl
  have hw : ∀ k, ¬ (s'.calls t).writes k := by
    obtain ⟨m, rfl⟩ := h.eq
    intro k hk
    rw [show (s.setMem r.file.ino m).calls t = .read r from hc] at hk
    exact hk
  unfold Node.readRound
  dsimp only
  generalize (if r.first = true then readLen (s'.mem r.file.ino).size r.start r.left else r.left) = left
  split
  · exact h.inv.setRead hw rfl
  split
  · exact h.inv.setRead hw rfl
  split
  · exact h.inv.readNext hw _ _
  rename_i hhole
  have ho : g.fblkoff r.offset < ((s'.mem r.file.ino).blks (g.fblkid r.offset)).hole := by omega
  refine h.inv.setCall ?_ ?_ ?_
  · rintro j w hwm rfl
    exact absurd (h.inv.wm j w hwm) (hw j)
  · rintro f io ⟨⟩
    exact h.maps (Dblk.blkno_ne_zero ho)
  · rintro r' io ⟨⟩
    have hlt := g.fblkoff_lt r.offset
    refine ⟨rfl, rfl, ?_, ?_⟩
    · dsimp only
      omega
    · intro j hj
      have hfile : (⟨r.file.ino, (s'.mem r.file.ino).btime⟩ : FileId) = r.file := by rw [hbt]
      dsimp only at hj ⊢
      rw [← hfile]
      exact (h.inv.mem r.file.ino hstale).written (by omega) (by omega)

theorem roundStep (hs : s.roundStep g t = some s') : s'.Inv g := by
  unfold Node.roundStep at hs
  split at hs
  · rename_i w hc
    obtain ⟨⟨s₁, ok⟩, hsync, hs⟩ := Option.map_eq_some_iff.1 hs
    have hsy := h.sync hsync
    cases ok with
    | true =>
      cases hs
      exact writeRound hsy hc
    | false =>
      cases hs
      refine hsy.inv.setWrite (i := w.file.ino) ?_ rfl rfl
      obtain ⟨m, rfl⟩ := hsy.eq
      intro k hk
      rw [show (s.setMem w.file.ino m).calls t = .write w from hc] at hk
      exact hk.symm
  · rename_i r hc
    obtain ⟨⟨s₁, ok⟩, hsync, hs⟩ := Option.map_eq_some_iff.1 hs
    have hsy := h.sync hsync
    cases ok with
    | true =>
      cases hs
      exact readRound hsy hc
    | false =>
      cases hs
      refine hsy.inv.setRead ?_ rfl
      obtain ⟨m, rfl⟩ := hsy.eq
      intro k hk
      rw [show (s.setMem r.file.ino m).calls t = .read r from hc] at hk
      exact hk
  · cases hs

theorem ioStep (hs : s.ioStep t = some s') : s'.Inv g := by
  unfold Node.ioStep at hs
  split at hs
  · rename_i w data io hc
    cases hs
    obtain ⟨hdisk, hview⟩ := h.inFlight t w.file io (by rw [hc]; rfl)
    have hput := h.put hdisk hview
      ((OnlyIn.refl w.file io.blkno s.dev).put io.blkoff io.len fun j => data.getD j 0)
    refine hput.setWrite (t := t) (i := w.file.ino) (c := .write w) ?_ rfl rfl
    intro k hk
    rw [show s.calls t = .writing w data io from hc] at hk
    exact hk.symm
  · rename_i r io hc
    cases hs
    refine h.readNext ?_ _ _
    intro k hk
    rw [hc] at hk
    exact hk
  · cases hs

/-! ## Transactions -/

theorem openTx (htx : s.tx = none) {m : MemInode n} {v : MetaData} {failed : Bool} {born : List FileId}
    (hv : v.Ok g s.dev) (hother : ∀ j, j ≠ i → v.inode j = s.disk.inode j) (hm : m.stale = false → m.Ok g v s.dev i)
    (hwm : ∀ w, m.wm = some w → (s.calls w.thread).writes i)
    (hfl : ∀ t f io, (s.calls t).inFlight = some (f, io) → f.ino = i → v.Maps f io.blkid io.blkno) :
    Node.Inv g { s.setMem i m with tx := some ⟨i, v, failed⟩, born := born } := by
  refine ⟨h.disk, hv, ?_, ?_, ?_, ?_, h.reading, h.landed⟩
  · rintro x ⟨⟩
    exact hother
  · intro j
    by_cases hj : j = i
    · subst hj
      show ((s.setMem j m).mem j).stale = false → MemInode.Ok g v s.dev j ((s.setMem j m).mem j)
      rw [setMem_self]
      exact hm
    · show ((s.setMem i m).mem j).stale = false → MemInode.Ok g v s.dev j ((s.setMem i m).mem j)
      rw [setMem_of_ne s m hj]
      intro hstale
      exact (h.mem j hstale).congr (by rw [view_of_none htx, hother j hj])
  · intro j w
    show ((s.setMem i m).mem j).wm = some w → _
    by_cases hj : j = i
    · subst hj
      rw [setMem_self]
      exact hwm w
    · rw [setMem_of_ne s m hj]
      exact h.wm j w
  · intro t f io hf
    obtain ⟨hdisk, -⟩ := h.inFlight t f io hf
    refine ⟨hdisk, ?_⟩
    by_cases hi : f.ino = i
    · exact hfl t f io hf hi
    · exact hdisk.congr (hother _ hi)

theorem txEnd {ok : Bool} (hs : s.txEnd ok = some s') : s'.Inv g := by
  unfold Node.txEnd at hs
  obtain ⟨x, hx, hs⟩ := Option.map_eq_some_iff.1 hs
  have hview := view_of_some hx
  split at hs
  · subst hs
    refine ⟨hview ▸ h.view, hview ▸ h.view, (by rintro y ⟨⟩), ?_, h.wm, ?_, h.reading, h.landed⟩
    · intro i hi
      exact (h.mem i hi).congr (by rw [hview]; rfl)
    · intro t f io hf
      have := (h.inFlight t f io hf).2
      rw [hview] at this
      exact ⟨this, this⟩
  · -- back to the committed metadata; the inode that had changed is stale
    subst hs
    refine ⟨h.disk, h.disk, (by rintro y ⟨⟩), ?_, ?_, ?_, h.reading, h.landed⟩
    · intro i
      show ((s.setMem x.ino _).mem i).stale = false → MemInode.Ok g s.disk s.dev i ((s.setMem x.ino _).mem i)
      by_cases hi : i = x.ino
      · subst hi
        rw [setMem_self]
        intro hstale
        cases hstale
      · rw [setMem_of_ne s _ hi]
        intro hstale
        exact (h.mem i hstale).congr (by rw [hview, h.tx x hx i hi])
    · intro i w
      show ((s.setMem x.ino _).mem i).wm = some w → _
      by_cases hi : i = x.ino
      · subst hi
        rw [setMem_self]
        exact h.wm x.ino w
      · rw [setMem_of_ne s _ hi]
        exact h.wm i w
    · intro t f io hf
      have := (h.inFlight t f io hf).1
      exact ⟨this, this⟩

theorem create {ino btime : Nat} (hs : s.create ino btime = some s') : s'.Inv g := by
  unfold Node.create at hs
  split at hs
  · cases hs
  rename_i hno
  simp only [not_or, Bool.not_eq_true, Option.isSome_eq_false_iff, Option.isNone_iff_eq_none] at hno
  obtain ⟨htx, hfree, -⟩ := hno
  cases hs
  have hnone : ∀ {p}, s.disk.inode ino ≠ some p := by simp [hfree]
  suffices hopen : Node.Inv g { s.setMem ino (s.mem ino) with
      tx := some ⟨ino, s.disk.setInode ino (some ⟨btime, 0, fun _ => zerodblk⟩), false⟩
      born := ⟨ino, btime⟩ :: s.born } by
    rwa [show s.setMem ino (s.mem ino) = s by simp [Node.setMem]] at hopen
  refine h.openTx htx ?_ ?_ ?_ (h.wm ino) ?_
  · refine h.disk.replace (fun j hj => setInode_of_ne _ _ hj) (fun b j k _ => Iff.rfl) ?_ ?_
    · intro b k
      refine (h.disk.tag b ino k).trans ⟨?_, ?_⟩
      · rintro ⟨-, p, hp, -⟩
        exact absurd hp hnone
      · rintro ⟨hb, p, hp, hpb⟩
        obtain rfl := Option.some.inj ((setInode_self ..).symm.trans hp)
        exact absurd hpb.symm hb
    · intro p hp k o ho
      obtain rfl := Option.some.inj ((setInode_self ..).symm.trans hp)
      exact absurd ho (Nat.not_lt_zero o)
  · exact fun j hj => setInode_of_ne _ _ hj
  · intro hstale
    obtain ⟨p, hp, -⟩ := (h.mem ino hstale).inode
    rw [view_of_none htx] at hp
    exact absurd hp hnone
  · rintro t f io hf rfl
    obtain ⟨-, p, hp, -⟩ := (h.inFlight t f io hf).1
    exact absurd hp hnone

theorem flushStep (hs : s.flushStep t = some s') : s'.Inv g := by
  unfold Node.flushStep at hs
  split at hs
  case h_2 => cases hs
  rename_i ino failed hc
  have hown : ∀ k, (s.calls t).writes k → k = ino := by
    intro k hk
    rw [hc] at hk
    exact hk.symm
  dsimp only at hs
  -- a thread is done with an inode on which it has no write modify
  have hidle : ∀ {s₁ : Node n}, s₁.Inv g → s₁.calls = s.calls →
      (∀ w, (s₁.mem ino).wm = some w → w.thread ≠ t) → (s₁.setCall t .idle).Inv g := by
    intro s₁ h₁ hcalls hno
    refine h₁.setCall ?_ (by rintro f io ⟨⟩) (by rintro r io ⟨⟩)
    intro i w hw ht
    obtain rfl := h₁.wm_writes rfl (by rw [hcalls]; exact hown) w hw ht
    exact absurd ht (hno w hw)
  split at hs
  · rename_i hwm
    cases hs
    exact hidle h rfl (by simp [hwm])
  rename_i wm hwm
  split at hs
  · rename_i hne
    cases hs
    exact hidle h rfl (by simpa [hwm] using hne)
  split at hs
  · cases hs
  rename_i htx
  have htx : s.tx = none := by simpa using htx
  split at hs
  · cases hs
    exact hidle (h.setMem (by simp) (by simp)) rfl (by simp)
  rename_i p hp
  cases hs
  obtain ⟨hpi, hpt, hstale⟩ := phyCheck_eq hp
  have hmem := h.mem ino hstale
  have hblk := hmem.within (by rw [view_of_none htx]; exact hpi)
  have hnew := foldl_copies (hmem.copies wm hwm) hblk
  set blks := wm.dblkv.foldl (fun blks kd => update blks kd.1 kd.2) p.blks with hblks
  have hopen : Node.Inv g { s.setMem ino { s.mem ino with wm := none, size := (s.mem ino).size + wm.sizeinc } with
      tx := some ⟨ino, s.disk.setInode ino (some ⟨p.btime, p.size + wm.sizeinc, blks⟩), failed⟩, born := s.born } := by
    refine h.openTx htx ?_ (fun j hj => setInode_of_ne _ _ hj) (fun _ => ?_) (by simp) ?_
    · refine h.disk.setInode hpi (fun k => (hnew k).1.trans (hblk k).1.symm) ?_
      intro k o ho hlt
      rw [(hnew k).1, hpt]
      exact hmem.written (lt_of_lt_of_le ho (hnew k).2) hlt
    · exact ⟨⟨_, setInode_self .., hpt, hnew⟩, hmem.written, by rintro w ⟨⟩⟩
    · rintro t' f io hf rfl
      obtain ⟨hb, p', hp', ht', hpb⟩ := (h.inFlight t' f io hf).1
      rw [hpi] at hp'
      cases hp'
      exact ⟨hb, _, setInode_self .., ht', ((hnew _).1.trans (hblk _).1.symm).trans hpb⟩
  exact hidle hopen rfl (by simp)

end Inv

/-! ## Truncation, allocation, removal -/

/-- The inode of a file is in memory and as committed, before a transaction on it. -/
structure Ready (g : Geometry) (s : Node n) (f : FileId) (p : PhyInode) : Prop where
  inv : s.Inv g
  tx : s.tx = none
  inode : s.disk.inode f.ino = some p
  btime : p.btime = f.btime
  mem : (s.mem f.ino).Ok g s.disk s.dev f.ino
  membtime : (s.mem f.ino).btime = f.btime
  wm : (s.mem f.ino).wm = none

/-- What a call may do in its section: it changes its own inode, and the blocks with an IO in flight
stay where they are. -/
structure Edit (g : Geometry) (s : Node n) (f : FileId) (r : MemInode n × MetaData) : Prop where
  view : r.2.Ok g s.dev
  other : ∀ j, j ≠ f.ino → r.2.inode j = s.disk.inode j
  mem : r.1.stale = false → r.1.Ok g r.2 s.dev f.ino
  wm : r.1.wm = none
  inFlight : ∀ t io, (s.calls t).inFlight = some (f, io) → r.2.Maps f io.blkid io.blkno

theorem Ready.inFlight_blkno (h : Ready g s f p) {io : Io} (hf : (s.calls t).inFlight = some (f, io)) :
    io.blkno ≠ 0 ∧ (p.blks io.blkid).blkno = io.blkno := by
  obtain ⟨hb, p', hp', -, hpb⟩ := (h.inv.inFlight t f io hf).1
  obtain rfl : p = p' := Option.some.inj (h.inode.symm.trans hp')
  exact ⟨hb, hpb⟩

theorem Inv.inTx (h : s.Inv g) {body : MemInode n → PhyInode → MetaData → Option (MemInode n × MetaData)}
    (hs : s.inTx t f body = some s')
    (hbody : ∀ s₁ p r, s.sync t f true = some (s₁, true) → Ready g s₁ f p → s₁.calls = s.calls →
      body (s₁.mem f.ino) p s₁.disk = some r → Edit g s₁ f r) : s'.Inv g := by
  unfold Node.inTx at hs
  split at hs
  case h_2 => cases hs
  rename_i hidle
  split at hs
  · cases hs
  rename_i htx
  have htx : s.tx = none := by simpa using htx
  obtain ⟨⟨s₁, ok⟩, hsync, hs⟩ := Option.bind_eq_some_iff.1 hs
  have hsy := h.sync hsync
  cases ok with
  | false =>
    cases hs
    exact hsy.inv
  | true =>
    dsimp only at hs
    split at hs
    · cases hs
      exact hsy.inv
    rename_i p hp
    obtain ⟨r, hr, rfl⟩ := Option.map_eq_some_iff.1 hs
    obtain ⟨hpi, hpt, hstale⟩ := phyCheck_eq hp
    obtain ⟨-, hbt⟩ := hsy.ok rfl
    have hcalls : s₁.calls = s.calls := by
      obtain ⟨m, rfl⟩ := hsy.eq
      rfl
    have htx₁ : s₁.tx = none := by
      obtain ⟨m, rfl⟩ := hsy.eq
      exact htx
    -- the thread was idle, so it has no write modify, and no other thread has one
    have hwm : (s₁.mem f.ino).wm = none := by
      cases hwm : (s₁.mem f.ino).wm with
      | none => rfl
      | some w =>
        have hw := hsy.inv.wm f.ino w hwm
        rw [hsy.wm w hwm, hcalls, hidle] at hw
        exact hw.elim
    have hready : Ready g s₁ f p :=
      ⟨hsy.inv, htx₁, hpi, hpt.trans hbt, view_of_none htx₁ ▸ hsy.inv.mem f.ino hstale, hbt, hwm⟩
    have hedit := hbody s₁ p r hsync hready hcalls hr
    refine hsy.inv.openTx htx₁ hedit.view hedit.other hedit.mem (by simp [hedit.wm]) ?_
    intro t' f' io hf hino
    obtain ⟨-, p', hp', ht', -⟩ := (hsy.inv.inFlight t' f' io hf).1
    rw [hino, hpi] at hp'
    cases hp'
    obtain rfl : f' = f := by
      cases f
      cases f'
      simp only [FileId.mk.injEq]
      exact ⟨hino, ht'.symm.trans (hpt.trans hbt)⟩
    exact hedit.inFlight t' io hf

theorem cut_of_le (h : keep ≤ k) : cut g len keep slide blks k = zerodblk :=
  if_pos h

theorem cut_blkno (h : k < keep) : (cut g len keep slide blks k).blkno = (blks k).blkno := by
  rw [cut, if_neg (by omega)]
  split <;> rfl

theorem hole_change_le (d : Dblk) (off len : Nat) (h : 0 < len) : (d.change off len).hole ≤ off := by
  unfold Dblk.hole Dblk.change
  by_cases hb : d.blkno = 0
  · simp [hb]
  · simp [hb, h]

/-- The entries that are left have their hole no further back. -/
theorem cut_hole_le {entries : Nat → Dblk} (hb : ∀ k, (blks k).hole ≤ (entries k).hole)
    (hslide : slide = true → g.fblkoff len < (entries (keep - 1)).hole) (k : Nat) :
    (cut g len keep slide blks k).hole ≤ (entries k).hole := by
  unfold cut
  split
  · exact Nat.zero_le _
  split
  · rename_i hs
    have hlast : k = keep - 1 := by omega
    have hpos := g.fblkoff_lt len
    have hle := hole_change_le (blks k) (g.fblkoff len) (g.blksize - g.fblkoff len) (by omega)
    have hlt := hslide hs.1
    rw [← hlast] at hlt
    omega
  · exact hb k

theorem cut_within {entries : Nat → Dblk} (hb : ∀ k, (blks k).Within (entries k)) (k : Nat) :
    (cut g len keep slide blks k).Within (cut g len keep slide entries k) := by
  unfold cut
  split
  · exact .refl _
  split
  · refine ⟨(hb k).1, ?_⟩
    simp only [Dblk.hole, Dblk.change, (hb k).1]
    exact le_rfl
  · exact hb k

theorem lt_keptBlks (h : k * g.blksize < len) : k < keptBlks g len := by
  rw [keptBlks, if_neg (by omega)]
  exact Nat.lt_succ_of_le ((Nat.le_div_iff_mul_le g.blk_pos).2 (by omega))

theorem Ready.truncate {shrinksize : Nat} {r : MemInode n × MetaData} (h : Ready g s f p)
    (hr : Node.truncate g shrinksize f len (s.mem f.ino) p s.disk = some r)
    (hfl : ∀ t io, (s.calls t).inFlight = some (f, io) →
      io.blkid * g.blksize < shrinkLen shrinksize (s.mem f.ino).size len) : Edit g s f r := by
  unfold Node.truncate at hr
  dsimp only at hr
  generalize shrinkLen shrinksize (s.mem f.ino).size len = len' at hr hfl
  set keep := keptBlks g len' with hkeep
  set d := (s.mem f.ino).blks (keep - 1)
  generalize hsl : decide (0 < len' ∧ d.blkno ≠ 0 ∧ len' < (s.mem f.ino).size ∧ 0 < g.fblkoff len' ∧
    g.fblkoff len' < d.hole) = slide at hr
  have hslide : slide = true → g.fblkoff len' < ((s.mem f.ino).blks (keep - 1)).hole := by
    rintro rfl
    exact (of_decide_eq_true hsl).2.2.2.2
  cases hr
  have hblk := h.mem.within h.inode
  have hmaps : ∀ {k o : Nat}, o < (cut g len' keep slide p.blks k).hole → k < keep := by
    intro k o ho
    by_contra hk
    rw [cut_of_le (by omega)] at ho
    exact absurd ho (Nat.not_lt_zero o)
  refine ⟨?_, fun j hj => setInode_of_ne _ _ hj, fun hstale => ⟨?_, ?_, ?_⟩, h.wm, ?_⟩
  · refine h.inv.disk.freeFrom h.inode ?_ ?_ ?_
    · exact fun k hk => ⟨_, rfl, cut_blkno hk⟩
    · rintro p' ⟨⟩ k hk
      dsimp only
      rw [cut_of_le hk]
      rfl
    · rintro p' ⟨⟩ k o ho hlt
      dsimp only at ho ⊢
      rw [cut_blkno (hmaps ho), (hblk k).1, h.btime, ← h.membtime]
      exact h.mem.written (lt_of_lt_of_le ho (cut_hole_le (fun k => (hblk k).2) hslide k)) hlt
  · exact ⟨_, setInode_self .., h.btime.trans h.membtime.symm, cut_within hblk⟩
  · intro k o ho hlt
    dsimp only at ho ⊢
    have hk : k < keep := by
      by_contra hk
      rw [cut_of_le (by omega)] at ho
      exact absurd ho (Nat.not_lt_zero o)
    rw [cut_blkno hk]
    exact h.mem.written (lt_of_lt_of_le ho (cut_hole_le (fun _ => le_rfl) hslide k)) hlt
  · intro w hw
    exact absurd (h.wm.symm.trans hw) (by simp)
  · intro t io hf
    obtain ⟨hb, hpb⟩ := h.inFlight_blkno hf
    have hk : io.blkid < keep := lt_keptBlks (hfl t io hf)
    exact ⟨hb, _, setInode_self .., h.btime, (cut_blkno hk).trans hpb⟩

/-- `pfs_inode_add` of the blocks of a range, as long as its entries are loaded from the inode. -/
theorem addBlks_spec {v : MetaData} {dev : Nat → Nat → Cell} {i : Nat} {m : MemInode n} (hwm : m.wm = none) :
    ∀ (ids free : List Nat) (blks : Nat → Dblk) (p : PhyInode) (bt : Nat → Option (Nat × Nat))
      {r : (Nat → Dblk) × PhyInode × (Nat → Option (Nat × Nat))},
      addBlks g i ids free (blks, p, bt) = some r →
      ({ v with bt := bt }.setInode i (some p)).Ok g dev →
      MemInode.Ok g ({ v with bt := bt }.setInode i (some p)) dev i { m with blks := blks } →
      ({ v with bt := r.2.2 }.setInode i (some r.2.1)).Ok g dev ∧
        MemInode.Ok g ({ v with bt := r.2.2 }.setInode i (some r.2.1)) dev i { m with blks := r.1 } ∧
        r.2.1.btime = p.btime ∧ ∀ k, (p.blks k).blkno ≠ 0 → (r.2.1.blks k).blkno = (p.blks k).blkno
  | [], free, blks, p, bt, r, hr, hv, hm => by
    rw [addBlks] at hr
    cases hr
    exact ⟨hv, hm, rfl, fun _ _ => rfl⟩
  | blkid :: ids, free, blks, p, bt, r, hr, hv, hm => by
    unfold addBlks at hr
    split at hr
    · exact addBlks_spec hwm ids free blks p bt hr hv hm
    rename_i hno
    have hno : (blks blkid).blkno = 0 := by simpa using hno
    split at hr
    · cases hr
    rename_i blkno free
    split at hr
    · cases hr
    rename_i hfree
    simp only [not_or, Bool.not_eq_true, Option.isSome_eq_false_iff, Option.isNone_iff_eq_none] at hfree
    have hpi : ({ v with bt := bt }.setInode i (some p)).inode i = some p := setInode_self ..
    have hblk := hm.within hpi
    set d : Dblk := ⟨blkno, 0, g.blksize⟩ with hd
    have hole : d.hole = 0 := by simp [Dblk.hole, hd, g.blk_pos]
    have hp0 : (p.blks blkid).blkno = 0 := (hblk blkid).1.trans hno
    have hadd := hv.addBlk (d := d) hpi hp0 hfree.1 hfree.2 rfl hole
    have hv' : ({ v with bt := update bt blkno (some (i, blkid)) }.setInode i
        (some { p with blks := update p.blks blkid d })).Ok g dev := by
      simpa [setInode] using hadd
    have hm' : MemInode.Ok g ({ v with bt := update bt blkno (some (i, blkid)) }.setInode i
        (some { p with blks := update p.blks blkid d })) dev i
        { m with blks := update blks blkid d } := by
      obtain ⟨p', hp', hbt, -⟩ := hm.inode
      obtain rfl : p = p' := Option.some.inj (hpi.symm.trans hp')
      refine ⟨⟨_, setInode_self .., hbt, fun k => ?_⟩, ?_, fun w hw => absurd (hwm.symm.trans hw) (by simp)⟩
      · by_cases hk : k = blkid
        · subst hk
          simp only [update_self]
          exact .refl _
        · simp only [update_of_ne hk]
          exact hblk k
      · intro k o ho hlt
        by_cases hk : k = blkid
        · subst hk
          simp only [update_self, hole] at ho
          omega
        · simp only [update_of_ne hk] at ho ⊢
          exact hm.written ho hlt
    obtain ⟨h1, h2, h3, h4⟩ := addBlks_spec hwm ids free _ _ _ hr hv' hm'
    refine ⟨h1, h2, h3, fun k hk => ?_⟩
    have hne : k ≠ blkid := by
      rintro rfl
      exact hk hp0
    have := h4 k (by simpa only [update_of_ne hne] using hk)
    simpa only [update_of_ne hne] using this

theorem Ready.allocate {off : Option Nat} {keepSize : Bool} {free : List Nat} {r : MemInode n × MetaData}
    (h : Ready g s f p) (hr : Node.allocate g f off len keepSize free (s.mem f.ino) p s.disk = some r) :
    Edit g s f r := by
  unfold Node.allocate at hr
  obtain ⟨⟨blks, p', bt⟩, hadd, rfl⟩ := Option.map_eq_some_iff.1 hr
  have hself : { s.disk with bt := s.disk.bt }.setInode f.ino (some p) = s.disk := by
    simp only [setInode, ← h.inode, update_eq_self]
  obtain ⟨hv, hm, hpt, hblk⟩ := addBlks_spec (v := s.disk) h.wm _ _ _ _ _ hadd (by rw [hself]; exact h.inv.disk)
    (by rw [hself]; exact h.mem)
  have hpi : ({ s.disk with bt := bt }.setInode f.ino (some p')).inode f.ino = some p' := setInode_self ..
  have hset : ∀ q : PhyInode, ({ s.disk with bt := bt }.setInode f.ino (some p')).setInode f.ino (some q) =
      { s.disk with bt := bt }.setInode f.ino (some q) := by
    intro q
    simp [setInode]
  refine ⟨?_, fun j hj => setInode_of_ne _ _ hj, fun _ => ?_, h.wm, ?_⟩
  · dsimp only
    rw [← hset]
    exact hv.setInode hpi (fun _ => rfl) fun k o ho hlt => hv.written (p := p') hpi ho hlt
  · obtain ⟨p'', hp'', hbt, hwithin⟩ := hm.inode
    obtain rfl : p' = p'' := Option.some.inj (hpi.symm.trans hp'')
    exact ⟨⟨_, setInode_self .., hbt, hwithin⟩, hm.written, hm.copies⟩
  · intro t io hf
    obtain ⟨hb, hpb⟩ := h.inFlight_blkno hf
    refine ⟨hb, _, setInode_self .., hpt.trans h.btime, ?_⟩
    exact (hblk io.blkid (by rw [hpb]; exact hb)).trans hpb

theorem Ready.release {shrinksize : Nat} {r : MemInode n × MetaData} (h : Ready g s f p)
    (hr : Node.release shrinksize f (s.mem f.ino) p s.disk = some r)
    (hfl : ∀ t io, (s.calls t).inFlight ≠ some (f, io)) : Edit g s f r := by
  unfold Node.release at hr
  split at hr
  · cases hr
  cases hr
  refine ⟨?_, fun j hj => setInode_of_ne _ _ hj, (by rintro ⟨⟩), h.wm, ?_⟩
  · exact h.inv.disk.freeFrom h.inode (fun k hk => absurd hk (Nat.not_lt_zero k)) (by rintro p' ⟨⟩) (by rintro p' ⟨⟩)
  · exact fun t io hf => absurd hf (hfl t io)

end Node

end PolarFs.File
