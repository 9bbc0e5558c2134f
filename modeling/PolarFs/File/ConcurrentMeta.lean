/-
Metadata, inodes in memory and the device under concurrent calls: what makes them agree with each
other. The block tags and the inodes name each other; an inode in memory has the blocks of the inode
it was loaded from; below the hole of each block there are only bytes of its file.
-/
import PolarFs.File.Concurrent

namespace PolarFs.File

open Function (update update_self update_of_ne)

variable {g : Geometry} {n blkno o b k : Nat} {dev : Nat → Nat → Cell} {f : FileId} {p : PhyInode}

/-! ## Device writes -/

/-- The device has changed in one block at most, by bytes of one file. -/
def OnlyIn (f : FileId) (blkno : Nat) (dev dev' : Nat → Nat → Cell) : Prop :=
  ∀ b o, dev' b o = dev b o ∨ b = blkno ∧ (dev' b o).file = some f

theorem OnlyIn.refl (f : FileId) (blkno : Nat) (dev : Nat → Nat → Cell) : OnlyIn f blkno dev dev :=
  fun _ _ => Or.inl rfl

theorem OnlyIn.put {dev' : Nat → Nat → Cell} (h : OnlyIn f blkno dev dev') (off len : Nat) (byte : Nat → UInt8) :
    OnlyIn f blkno dev (blkioPut dev' f blkno off len byte) := by
  intro b o
  unfold blkioPut
  split
  · exact Or.inr ⟨(‹_ ∧ _› : _ ∧ _).1, rfl⟩
  · exact h b o

theorem OnlyIn.file {dev' : Nat → Nat → Cell} (h : OnlyIn f blkno dev dev') {f' : FileId}
    (hf : (dev b o).file = some f') (hb : b = blkno → f' = f) : (dev' b o).file = some f' := by
  rcases h b o with heq | ⟨hb', hw⟩
  · rw [heq, hf]
  · rw [hw, hb hb']

theorem blkioPut_file {off len : Nat} (byte : Nat → UInt8) (h : off ≤ o) (h' : o < off + len) :
    (blkioPut dev f blkno off len byte blkno o).file = some f := by
  rw [blkioPut, if_pos ⟨rfl, h, h'⟩]

theorem blkioPut_file_of {off len : Nat} (byte : Nat → UInt8) (h : (dev blkno o).file = some f) :
    (blkioPut dev f blkno off len byte blkno o).file = some f := by
  unfold blkioPut
  split
  · rfl
  · exact h

/-! ## Well-formed metadata -/

/-- The block tags and the inodes name each other, and a block holds bytes of its file up to the
hole. -/
structure MetaData.Ok (g : Geometry) (v : MetaData) (dev : Nat → Nat → Cell) : Prop where
  tag : ∀ b i k, v.bt b = some (i, k) ↔ b ≠ 0 ∧ ∃ p, v.inode i = some p ∧ (p.blks k).blkno = b
  written : ∀ {i p k o}, v.inode i = some p → o < (p.blks k).hole → o < g.blksize →
    (dev (p.blks k).blkno o).file = some ⟨i, p.btime⟩

/-- Block `blkid` of the file is the device block `blkno`. -/
def MetaData.Maps (v : MetaData) (f : FileId) (blkid blkno : Nat) : Prop :=
  blkno ≠ 0 ∧ ∃ p, v.inode f.ino = some p ∧ p.btime = f.btime ∧ (p.blks blkid).blkno = blkno

theorem Dblk.blkno_ne_zero {d : Dblk} (h : o < d.hole) : d.blkno ≠ 0 := by
  intro h0
  rw [Dblk.hole, if_pos h0] at h
  omega

/-- The same block, with the hole no further back. -/
def Dblk.Within (d d' : Dblk) : Prop := d.blkno = d'.blkno ∧ d.hole ≤ d'.hole

theorem Dblk.Within.refl (d : Dblk) : d.Within d := ⟨rfl, le_rfl⟩

theorem Dblk.Within.trans {d d' d'' : Dblk} (h : d.Within d') (h' : d'.Within d'') : d.Within d'' :=
  ⟨h.1.trans h'.1, h.2.trans h'.2⟩

namespace MetaData

variable {v v' : MetaData} {dev dev' : Nat → Nat → Cell} {i : Nat}

theorem Maps.of_inode (hp : v.inode f.ino = some p) (ht : p.btime = f.btime) (hb : (p.blks k).blkno ≠ 0) :
    v.Maps f k (p.blks k).blkno :=
  ⟨hb, p, hp, ht, rfl⟩

theorem Maps.congr (h : v.Maps f k b) (hv : v'.inode f.ino = v.inode f.ino) : v'.Maps f k b := by
  obtain ⟨hb, p, hp, hrest⟩ := h
  exact ⟨hb, p, hv.trans hp, hrest⟩

theorem Ok.maps_unique (h : v.Ok g dev) {f' : FileId} {k' : Nat} (hm : v.Maps f k b) (hm' : v.Maps f' k' b) :
    f' = f := by
  obtain ⟨hb, p, hp, ht, hpb⟩ := hm
  obtain ⟨-, p', hp', ht', hpb'⟩ := hm'
  have htag := (h.tag b f.ino k).2 ⟨hb, p, hp, hpb⟩
  have htag' := (h.tag b f'.ino k').2 ⟨hb, p', hp', hpb'⟩
  have hino : f'.ino = f.ino := by
    rw [htag] at htag'
    injection htag' with htag'
    exact (congrArg Prod.fst htag').symm
  rw [hino, hp] at hp'
  injection hp' with hp'
  subst hp'
  cases f
  cases f'
  simp only [FileId.mk.injEq]
  exact ⟨hino, ht'.symm.trans ht⟩

theorem Ok.owner_eq (h : v.Ok g dev) (hm : v.Maps f k b) : v.owner b = some f := by
  obtain ⟨hb, p, hp, ht, hpb⟩ := hm
  have hbt := (h.tag b f.ino k).2 ⟨hb, p, hp, hpb⟩
  simp only [owner, hbt, hp, ht, Option.bind_some, Option.map_some]

/-- Bytes of a file on its own block change nothing. -/
theorem Ok.onlyIn (h : v.Ok g dev) (hm : v.Maps f k b) (hdev : OnlyIn f b dev dev') : v.Ok g dev' := by
  refine ⟨h.tag, ?_⟩
  intro i p k' o hp ho hlt
  refine hdev.file (h.written hp ho hlt) fun hb => ?_
  have hm' : v.Maps ⟨i, p.btime⟩ k' b := hb ▸ Maps.of_inode hp rfl (Dblk.blkno_ne_zero ho)
  exact h.maps_unique hm hm'

theorem Ok.replace (h : v.Ok g dev) (hother : ∀ j, j ≠ i → v'.inode j = v.inode j)
    (hbt : ∀ b j k, j ≠ i → (v'.bt b = some (j, k) ↔ v.bt b = some (j, k)))
    (hself : ∀ b k, v'.bt b = some (i, k) ↔ b ≠ 0 ∧ ∃ p, v'.inode i = some p ∧ (p.blks k).blkno = b)
    (hw : ∀ p, v'.inode i = some p → ∀ k o, o < (p.blks k).hole → o < g.blksize →
      (dev (p.blks k).blkno o).file = some ⟨i, p.btime⟩) : v'.Ok g dev := by
  constructor
  · intro b j k
    by_cases hj : j = i
    · subst hj
      exact hself b k
    · rw [hbt b j k hj, hother j hj]
      exact h.tag b j k
  · intro j p k o hp ho hlt
    by_cases hj : j = i
    · subst hj
      exact hw p hp k o ho hlt
    · exact h.written ((hother j hj).symm.trans hp) ho hlt

@[simp] theorem setInode_self (v : MetaData) (i : Nat) (q : Option PhyInode) : (v.setInode i q).inode i = q :=
  update_self ..

theorem setInode_of_ne (v : MetaData) {j : Nat} (q : Option PhyInode) (h : j ≠ i) :
    (v.setInode i q).inode j = v.inode j :=
  update_of_ne h _ _

theorem freeFrom_bt {keep j : Nat} :
    (v.freeFrom i keep).bt b = some (j, k) ↔ v.bt b = some (j, k) ∧ (j = i → k < keep) := by
  simp [freeFrom, Option.filter_eq_some_iff, imp_iff_not_or]

/-- The block tags of an inode from `keep` on are freed; its other blocks stay where they are. -/
theorem Ok.freeFrom {q : Option PhyInode} {keep : Nat} (h : v.Ok g dev) (hp : v.inode i = some p)
    (hkeep : ∀ k, k < keep → ∃ p', q = some p' ∧ (p'.blks k).blkno = (p.blks k).blkno)
    (hfree : ∀ p', q = some p' → ∀ k, keep ≤ k → (p'.blks k).blkno = 0)
    (hw : ∀ p', q = some p' → ∀ k o, o < (p'.blks k).hole → o < g.blksize →
      (dev (p'.blks k).blkno o).file = some ⟨i, p'.btime⟩) : ((v.freeFrom i keep).setInode i q).Ok g dev := by
  refine h.replace (fun j hj => setInode_of_ne _ _ hj) ?_ ?_ ?_
  · intro b j k hj
    exact freeFrom_bt.trans (and_iff_left fun h => absurd h hj)
  · intro b k
    refine freeFrom_bt.trans ?_
    rw [h.tag, setInode_self]
    constructor
    · rintro ⟨⟨hb, p', hp', hpb⟩, hk⟩
      obtain rfl : p = p' := Option.some.inj (hp.symm.trans hp')
      obtain ⟨p'', hq, hsame⟩ := hkeep k (hk rfl)
      exact ⟨hb, p'', hq, hsame.trans hpb⟩
    · rintro ⟨hb, p', hq, hpb⟩
      have hk : k < keep := by
        by_contra hk
        exact hb (hpb.symm.trans (hfree p' hq k (by omega)))
      obtain ⟨p'', hq', hsame⟩ := hkeep k hk
      obtain rfl : p' = p'' := Option.some.inj (hq.symm.trans hq')
      exact ⟨⟨hb, p, hp, hsame.symm.trans hpb⟩, fun _ => hk⟩
  · intro p' hp'
    exact hw p' ((setInode_self ..).symm.trans hp')

theorem Ok.setInode {p' : PhyInode} (h : v.Ok g dev) (hp : v.inode i = some p)
    (hblk : ∀ k, (p'.blks k).blkno = (p.blks k).blkno)
    (hw : ∀ k o, o < (p'.blks k).hole → o < g.blksize → (dev (p'.blks k).blkno o).file = some ⟨i, p'.btime⟩) :
    (v.setInode i (some p')).Ok g dev := by
  refine h.replace (fun j hj => setInode_of_ne _ _ hj) (fun b j k _ => Iff.rfl) ?_ ?_
  · intro b k
    refine (h.tag b i k).trans (and_congr_right fun _ => ?_)
    simp only [hp, setInode_self, Option.some.injEq, exists_eq_left', hblk k]
  · intro q hq
    obtain rfl := Option.some.inj ((setInode_self ..).symm.trans hq)
    exact hw

theorem Ok.addBlk {d : Dblk} (h : v.Ok g dev) (hp : v.inode i = some p) (hk : (p.blks k).blkno = 0) (hb : b ≠ 0)
    (hbt : v.bt b = none) (hd : d.blkno = b) (hole : d.hole = 0) :
    ({ v with bt := update v.bt b (some (i, k)) }.setInode i
      (some { p with blks := update p.blks k d })).Ok g dev := by
  have hnew : ∀ {j k'}, v.bt b ≠ some (j, k') := by simp [hbt]
  refine h.replace (fun j hj => setInode_of_ne _ _ hj) ?_ ?_ ?_
  · intro b' j k' hj
    show update v.bt b (some (i, k)) b' = _ ↔ _
    by_cases hbb : b' = b
    · subst hbb
      simp [hnew, hj.symm]
    · rw [update_of_ne hbb]
  · intro b' k'
    show update v.bt b (some (i, k)) b' = _ ↔ _
    rw [setInode_self]
    by_cases hk' : k' = k
    · subst hk'
      by_cases hbb : b' = b
      · subst hbb
        simp [hb, hd]
      · have hne : b ≠ b' := fun heq => hbb heq.symm
        rw [update_of_ne hbb, h.tag]
        simp only [hp, Option.some.injEq, exists_eq_left', update_self, hk, hd]
        omega
    · by_cases hbb : b' = b
      · subst hbb
        have := h.tag b' i k'
        simp only [hbt, hp, Option.some.injEq, exists_eq_left', reduceCtorEq, false_iff] at this
        simp only [update_self, Option.some.injEq, Prod.mk.injEq, exists_eq_left', update_of_ne hk']
        exact ⟨fun heq => absurd heq.2.symm hk', fun h' => absurd h' this⟩
      · rw [update_of_ne hbb, h.tag]
        simp only [hp, Option.some.injEq, exists_eq_left', update_of_ne hk']
  · intro q hq k' o ho hlt
    obtain rfl := Option.some.inj ((setInode_self ..).symm.trans hq)
    by_cases hk' : k' = k
    · subst hk'
      simp only [update_self, hole] at ho
      omega
    · simp only [update_of_ne hk'] at ho ⊢
      exact h.written hp ho hlt

end MetaData

/-! ## Inodes in memory -/

/-- An inode in memory that is not stale: it is loaded from the inode, with its blocks; a hole can be
filled that is not yet filled in the metadata, and the write modify has a copy of the entry. -/
structure MemInode.Ok (g : Geometry) (v : MetaData) (dev : Nat → Nat → Cell) (i : Nat) (m : MemInode n) : Prop where
  inode : ∃ p, v.inode i = some p ∧ p.btime = m.btime ∧ ∀ k, (p.blks k).Within (m.blks k)
  written : ∀ {k o}, o < (m.blks k).hole → o < g.blksize → (dev (m.blks k).blkno o).file = some ⟨i, m.btime⟩
  copies : ∀ w, m.wm = some w → ∀ kd ∈ w.dblkv, kd.2.Within (m.blks kd.1)

namespace MemInode

variable {v v' : MetaData} {dev dev' : Nat → Nat → Cell} {i : Nat} {m : MemInode n}

theorem Ok.maps (h : m.Ok g v dev i) (hb : (m.blks k).blkno ≠ 0) : v.Maps ⟨i, m.btime⟩ k (m.blks k).blkno := by
  obtain ⟨p, hp, ht, hblk⟩ := h.inode
  exact ⟨hb, p, hp, ht, (hblk k).1⟩

theorem Ok.within (h : m.Ok g v dev i) (hp : v.inode i = some p) (k : Nat) : (p.blks k).Within (m.blks k) := by
  obtain ⟨p', hp', -, hblk⟩ := h.inode
  obtain rfl : p = p' := Option.some.inj (hp.symm.trans hp')
  exact hblk k

theorem Ok.congr (h : m.Ok g v dev i) (hv : v'.inode i = v.inode i) : m.Ok g v' dev i :=
  ⟨by rw [hv]; exact h.inode, h.written, h.copies⟩

theorem Ok.onlyIn (h : m.Ok g v dev i) (hv : v.Ok g dev) (hm : v.Maps f k b) (hdev : OnlyIn f b dev dev') :
    m.Ok g v dev' i := by
  refine ⟨h.inode, ?_, h.copies⟩
  intro k' o ho hlt
  refine hdev.file (h.written ho hlt) fun hb => ?_
  have hm' : v.Maps ⟨i, m.btime⟩ k' b := hb ▸ h.maps (Dblk.blkno_ne_zero ho)
  exact hv.maps_unique hm hm'

theorem load_ok (h : v.Ok g dev) (hp : v.inode i = some p) : MemInode.Ok g v dev i (p.load : MemInode n) :=
  ⟨⟨p, hp, rfl, fun _ => .refl _⟩, fun ho hlt => h.written hp ho hlt, fun _ hw => by cases hw⟩

@[simp] theorem reach_blks (m : MemInode n) (t : Fin n) (fsize fin : Nat) : (m.reach t fsize fin).blks = m.blks := by
  unfold reach incrementSize
  split <;> rfl

@[simp] theorem reach_btime (m : MemInode n) (t : Fin n) (fsize fin : Nat) : (m.reach t fsize fin).btime = m.btime := by
  unfold reach incrementSize
  split <;> rfl

/-- The write modify after `reach`: the entries are those of before. -/
theorem reach_wm {m : MemInode n} {t : Fin n} {fsize fin : Nat} {w : WriteModify n}
    (h : (m.reach t fsize fin).wm = some w) :
    m.wm = some w ∨ w.thread = t ∧ (w.dblkv = [] ∨ ∃ w', m.wm = some w' ∧ w.dblkv = w'.dblkv) := by
  unfold reach incrementSize at h
  split at h
  · cases h
    refine Or.inr ⟨rfl, ?_⟩
    cases hwm : m.wm with
    | none => exact Or.inl rfl
    | some w' => exact Or.inr ⟨w', rfl, rfl⟩
  · exact Or.inl h

theorem Ok.reach (h : m.Ok g v dev i) (t : Fin n) (fsize fin : Nat) : (m.reach t fsize fin).Ok g v dev i := by
  refine ⟨by simpa using h.inode, ?_, ?_⟩
  · intro k o
    rw [reach_blks, reach_btime]
    exact h.written
  intro w hw kd hkd
  rw [reach_blks]
  rcases reach_wm hw with hw | ⟨-, hw | ⟨w', hw', hw⟩⟩
  · exact h.copies w hw kd hkd
  · rw [hw] at hkd
    cases hkd
  · exact h.copies w' hw' kd (hw ▸ hkd)

theorem within_fill (d : Dblk) (blksize : Nat) (h : d.hole < blksize) (hlt : blksize < 2 ^ 31) :
    d.Within (d.change blksize 0) := by
  refine ⟨rfl, ?_⟩
  by_cases hb : d.blkno = 0
  · simp [Dblk.hole, hb]
  · have : (d.change blksize 0).hole = intMax := by simp [Dblk.hole, Dblk.change, hb]
    rw [this, intMax]
    omega

/-- A hole is filled once the rest of the block is written. -/
theorem Ok.fillHole (h : m.Ok g v dev i) (t : Fin n) (hlt : (m.blks k).hole < g.blksize)
    (hdev : OnlyIn ⟨i, m.btime⟩ (m.blks k).blkno dev dev') (hv : v.Ok g dev) (hb : (m.blks k).blkno ≠ 0)
    (hrest : ∀ o, (m.blks k).hole ≤ o → o < g.blksize → (dev' (m.blks k).blkno o).file = some ⟨i, m.btime⟩) :
    (m.fillHole t g.blksize k).Ok g v dev' i := by
  have h' := h.onlyIn hv (h.maps hb) hdev
  obtain ⟨p, hp, ht, hblk⟩ := h.inode
  refine ⟨⟨p, hp, ht, fun k' => ?_⟩, ?_, ?_⟩
  · by_cases hk : k' = k
    · subst hk
      simp only [MemInode.fillHole, update_self]
      exact (hblk k').trans (within_fill _ _ hlt g.blk_lt)
    · simp only [MemInode.fillHole, update_of_ne hk]
      exact hblk k'
  · intro k' o ho hlt'
    by_cases hk : k' = k
    · subst hk
      simp only [MemInode.fillHole, update_self] at ho ⊢
      by_cases hin : o < (m.blks k').hole
      · exact h'.written hin hlt'
      · exact hrest o (by omega) hlt'
    · simp only [MemInode.fillHole, update_of_ne hk] at ho ⊢
      exact h'.written ho hlt'
  · intro w hw kd hkd
    obtain rfl : _ = w := Option.some.inj hw
    -- the copies of before, whose entries have at least the hole they had, and the new one
    have hold : ∀ w', m.wm = some w' → kd ∈ w'.dblkv → kd.2.Within ((m.fillHole t g.blksize k).blks kd.1) := by
      intro w' hw' hmem
      have hcopy := h.copies w' hw' kd hmem
      by_cases hk : kd.1 = k
      · rw [hk] at hcopy ⊢
        simp only [MemInode.fillHole, update_self]
        exact hcopy.trans (within_fill _ _ hlt g.blk_lt)
      · simp only [MemInode.fillHole, update_of_ne hk]
        exact hcopy
    rcases List.mem_append.1 hkd with hkd | hkd
    · cases hwm : m.wm with
      | none => simp [hwm] at hkd
      | some w' => exact hold w' hwm (by simpa [hwm] using hkd)
    · rw [List.mem_singleton.1 hkd]
      simp only [MemInode.fillHole, update_self]
      exact .refl _

end MemInode

end PolarFs.File
