/-
The invariant of a writable host: what the device, the leader record in memory and the two trim
groups have to do with the history of committed transactions, at every step of the log thread.
-/
import PolarFs.Journal.Writer

namespace PolarFs.Journal

open RedoLog Transition Writer TrimGroup

variable {β : Type} {lr : LeaderRecord} {t : Nat} {ops : TxOps β}

/-! ## The device -/

/-- The leader record for the range `(t, hd]` of the history. -/
structure LeaderAt (h : List (TxOps β)) (size t hd : Nat) (lr : LeaderRecord) : Prop where
  tail : lr.tailTxid = t
  head : lr.headTxid = hd
  tailOffset : lr.tailOffset = lsnAt h t % size
  headOffset : lr.headOffset = lsnAt h hd % size
  lsn : lr.headLsn = lsnAt h hd
  size : lr.logSize = size

/-- The journal holds the history: the leader record names its head, and the ring holds the
transactions after `tl`, which is not after the record's tail. -/
structure JournalInv (size : Nat) (h : List (TxOps β)) (tl : Nat) (d : Disk β) : Prop where
  pos : 0 < size
  txs : ∀ tx ∈ h, tx ≠ []
  leader : LeaderAt h size d.leader.tailTxid h.length d.leader
  tail_le : d.leader.tailTxid ≤ h.length
  tl_le : tl ≤ d.leader.tailTxid
  ring : RingHolds d.ring size (lsnAt h tl) (journalLog tl (lsnAt h tl) (txSlice h tl h.length))
  fit : lsnAt h h.length < lsnAt h tl + size

/-- And every object on disk was taken between the record's tail and head. -/
structure DiskInv (base : Key → β) (size : Nat) (h : List (TxOps β)) (tl : Nat) (d : Disk β) : Prop
    extends JournalInv size h tl d where
  sectors : Fuzzy base h d.leader.tailTxid h.length d.sectors

section Disk

variable {base : Key → β} {size : Nat} {h : List (TxOps β)} {tl : Nat} {d : Disk β}

theorem LeaderAt.append {hd : Nat} (hl : LeaderAt h size t hd lr) (ht : t ≤ h.length) (hhd : hd ≤ h.length)
    (h' : List (TxOps β)) : LeaderAt (h ++ h') size t hd lr := by
  refine ⟨hl.tail, hl.head, ?_, ?_, ?_, hl.size⟩
  · rw [lsnAt_append_of_le ht]; exact hl.tailOffset
  · rw [lsnAt_append_of_le hhd]; exact hl.headOffset
  · rw [lsnAt_append_of_le hhd]; exact hl.lsn

/-- The free space of a leader record whose head is the whole history. -/
theorem LeaderAt.logSpace (hl : LeaderAt h size t h.length lr) (ht : t ≤ h.length)
    (hfit : lsnAt h h.length < lsnAt h t + size) : logSpace lr = size - (lsnAt h h.length - lsnAt h t) := by
  have htl : lsnAt h t ≤ lsnAt h h.length := lsnAt_mono ht
  have hused := logUsedspace_mod (a := lsnAt h t) (show lsnAt h h.length - lsnAt h t < size by omega)
  rw [Nat.add_sub_cancel' htl] at hused
  rw [Journal.logSpace, hl.size, hl.tailOffset, hl.headOffset, hused]

theorem length_journalLog_slice {a b : Nat} (hab : a ≤ b) :
    (journalLog a (lsnAt h a) (txSlice h a b)).length = lsnAt h b - lsnAt h a := by
  rw [length_journalLog, lsnAt_txSlice hab]; omega

namespace JournalInv

variable (hj : JournalInv size h tl d)

include hj

/-- The ring holds the transactions after any position that is not before `tl`. -/
theorem ring_from {p : Nat} (h1 : tl ≤ p) (h2 : p ≤ h.length) :
    RingHolds d.ring size (lsnAt h p) (journalLog p (lsnAt h p) (txSlice h p h.length)) := by
  have hring := hj.ring
  rw [journalLog_txSlice h1 h2 h2] at hring
  have := hring.drop
  rwa [length_journalLog_slice h1, Nat.add_sub_cancel' (lsnAt_mono h1)] at this

theorem raise {tl' : Nat} (h1 : tl ≤ tl') (h2 : tl' ≤ d.leader.tailTxid) : JournalInv size h tl' d := by
  refine ⟨hj.pos, hj.txs, hj.leader, hj.tail_le, h2, hj.ring_from h1 (le_trans h2 hj.tail_le), ?_⟩
  have := lsnAt_mono (h := h) h1
  have := hj.fit
  omega

/-- The region after any such position scans back to the transactions of the history. -/
theorem logScan_from {p : Nat} (h1 : tl ≤ p) (h2 : p ≤ h.length) :
    logScan d.ring size (lsnAt h p % size) p h.length = some (numbered p (txSlice h p h.length)) := by
  have hstop : h.length = p + (txSlice h p h.length).length := by
    rw [length_txSlice (le_refl _), Nat.add_sub_cancel' h2]
  have htxs : ∀ tx ∈ txSlice h p h.length, tx ≠ [] :=
    fun tx htx => hj.txs tx (List.mem_of_mem_take (List.mem_of_mem_drop htx))
  have hscan := logScan_of_ringHolds htxs (hj.ring_from h1 h2) (by
      have := lsnAt_txSlice (h := h) h2
      have := lsnAt_mono (h := h) h1
      have := hj.fit
      omega)
  rwa [← hstop] at hscan

/-- A log entry written ahead of the head leaves the region alone. -/
theorem writeEntry (r : Io) {j : Nat}
    (hjs : lsnAt h h.length + j < lsnAt h tl + size) (e : LogEntry β) :
    JournalInv size h tl (d.writeEntry r ((lsnAt h h.length + j) % size) e) := by
  unfold Disk.writeEntry
  split
  · have htl : tl ≤ h.length := le_trans hj.tl_le hj.tail_le
    have hmono := lsnAt_mono (h := h) htl
    refine { hj with ring := ?_ }
    have := hj.ring.update (j := lsnAt h h.length - lsnAt h tl + j)
      (by rw [length_journalLog_slice htl]; omega) (by omega) e
    rwa [show lsnAt h tl + (lsnAt h h.length - lsnAt h tl + j) = lsnAt h h.length + j by omega] at this
  · exact hj

theorem commit (hops : ops ≠ [])
    (hring : RingHolds d.ring size (lsnAt h h.length) (txLog (h.length + 1) (lsnAt h h.length) ops))
    (hfit : lsnAt h h.length + ops.length < lsnAt h tl + size) (ht : tl ≤ t) (hth : t ≤ h.length)
    (hlr : LeaderAt (h ++ [ops]) size t (h.length + 1) lr) :
    JournalInv size (h ++ [ops]) tl (d.writeLeader .ok lr) := by
  have htl : tl ≤ h.length := le_trans ht hth
  have hlen : (h ++ [ops]).length = h.length + 1 := by simp
  refine ⟨hj.pos, ?_, ?_, ?_, ?_, ?_, ?_⟩
  · intro tx htx
    rcases List.mem_append.mp htx with htx | htx
    · exact hj.txs tx htx
    · rw [List.mem_singleton.mp htx]; exact hops
  · show LeaderAt _ size lr.tailTxid _ lr
    rw [hlr.tail, hlen]; exact hlr
  · show lr.tailTxid ≤ _
    rw [hlr.tail, hlen]; omega
  · show tl ≤ lr.tailTxid
    rw [hlr.tail]; exact ht
  · rw [journalLog_snoc htl, lsnAt_append_of_le htl]
    refine hj.ring.append ?_
    rw [length_journalLog_slice htl, Nat.add_sub_cancel' (lsnAt_mono htl)]
    exact hring
  · rw [hlen, lsnAt_snoc, lsnAt_append_of_le htl]; exact hfit

end JournalInv

namespace DiskInv

variable (hd : DiskInv base size h tl d)

include hd

theorem raise {tl' : Nat} (h1 : tl ≤ tl') (h2 : tl' ≤ d.leader.tailTxid) : DiskInv base size h tl' d :=
  ⟨hd.toJournalInv.raise h1 h2, hd.sectors⟩

/-- The region of the leader record scans back to the transactions of the history. -/
theorem logScan :
    logScan d.ring d.leader.logSize d.leader.tailOffset d.leader.tailTxid d.leader.headTxid =
      some (numbered d.leader.tailTxid (txSlice h d.leader.tailTxid h.length)) := by
  rw [hd.leader.head, hd.leader.size, hd.leader.tailOffset]
  exact hd.toJournalInv.logScan_from hd.tl_le hd.tail_le

/-- Loading the sectors and replaying `(tail, head]` gives the state after the whole history. -/
theorem recover : recover d = some (stateAt base h h.length) := by
  rw [Journal.recover, hd.logScan, Option.map_some, map_snd_numbered, redo_of_fuzzy hd.tail_le hd.sectors]

theorem writeEntry (r : Io) {j : Nat}
    (hj : lsnAt h h.length + j < lsnAt h tl + size) (e : LogEntry β) :
    DiskInv base size h tl (d.writeEntry r ((lsnAt h h.length + j) % size) e) := by
  refine ⟨hd.toJournalInv.writeEntry r hj e, ?_⟩
  unfold Disk.writeEntry
  split <;> exact hd.sectors

/-- A sector image of objects taken after the tail may be written at any time. -/
theorem writeSector (r : Io) {bda : Nat} {img : Nat → β}
    (himg : ∀ i, Taken base h d.leader.tailTxid h.length (bda, i) (img i)) :
    DiskInv base size h tl (d.writeSector r bda img) := by
  unfold Disk.writeSector
  split
  · refine ⟨{ hd with }, ?_⟩
    rintro ⟨b, i⟩
    show Taken base h d.leader.tailTxid h.length (b, i) (if b = bda then img i else d.sectors (b, i))
    split
    case isTrue hb => subst hb; exact himg i
    case isFalse => exact hd.sectors (b, i)
  · exact hd

/-- A leader record with another tail, when the sectors allow that tail. -/
theorem writeTail (r : Io) (hlr : LeaderAt h size t h.length lr) (h1 : tl ≤ t)
    (h2 : t ≤ h.length) (hf : Fuzzy base h t h.length d.sectors) : DiskInv base size h tl (d.writeLeader r lr) := by
  unfold Disk.writeLeader
  split
  · refine ⟨⟨hd.pos, hd.txs, ?_, ?_, ?_, hd.ring, hd.fit⟩, ?_⟩
    · rw [hlr.tail]; exact hlr
    · rw [hlr.tail]; exact h2
    · rw [hlr.tail]; exact h1
    · rw [hlr.tail]; exact hf
  · exact hd

theorem commit (hops : ops ≠ [])
    (hring : RingHolds d.ring size (lsnAt h h.length) (txLog (h.length + 1) (lsnAt h h.length) ops))
    (hfit : lsnAt h h.length + ops.length < lsnAt h tl + size) (hlr : LeaderAt (h ++ [ops]) size tl (h.length + 1) lr) :
    DiskInv base size (h ++ [ops]) tl (d.writeLeader .ok lr) := by
  refine ⟨hd.toJournalInv.commit hops hring hfit (le_refl tl) (le_trans hd.tl_le hd.tail_le) hlr, ?_⟩
  show Fuzzy base _ lr.tailTxid _ d.sectors
  rw [hlr.tail, List.length_append]
  exact (hd.sectors.append (le_refl _) _).mono hd.tl_le (Nat.le_succ _)

end DiskInv

end Disk

/-! ## The trim groups -/

/-- The waiting group is flushed next: it starts at the tail, ends where the working group starts, and
every image in it is copied. -/
structure WaitFull (size : Nat) (h : List (TxOps β)) (t : Nat) (gs : Groups β) : Prop where
  ltxid : gs.waitgrp.ltxid = t
  lt : t < gs.waitgrp.rtxid
  chain : gs.waitgrp.rtxid = gs.workgrp.ltxid
  copied : emptyCount gs.waitgrp.sects = 0
  roffset : gs.waitgrp.roffset = lsnAt h gs.waitgrp.rtxid % size

/-- The two groups cover the transactions in `(t, r]`, one after the other; `hd` is the last
transaction an image may hold. -/
structure GroupsInv (base : Key → β) (size : Nat) (h : List (TxOps β)) (hd t r : Nat) (gs : Groups β) : Prop where
  work : gs.workgrp.Covers base h hd
  wait : gs.waitgrp.Covers base h hd
  rtxid : gs.workgrp.rtxid = r
  roffset : gs.workgrp.roffset = lsnAt h r % size
  chain : (gs.waitgrp.ltxid = gs.waitgrp.rtxid ∧ gs.workgrp.ltxid = t) ∨ WaitFull size h t gs

section Groups

variable {base : Key → β} {size : Nat} {h : List (TxOps β)} {hd t r : Nat} {gs : Groups β}

theorem TrimGroup.Covers.sects_nil {g : TrimGroup β} (hc : g.Covers base h hd) (hlr : g.ltxid = g.rtxid) :
    g.sects = [] ∧ g.nsects = 0 ∧ g.nsectsEmpty = 0 ∧ g.sectEmptyFirst = none := by
  have hs : g.sects = [] := by
    rcases hsects : g.sects with _ | ⟨sb, sbs⟩
    · rfl
    · have := hc.rep.txids sb (by rw [hsects]; simp)
      omega
  refine ⟨hs, by rw [hc.rep.nsects, hs]; rfl, by rw [hc.rep.nempty, hs]; rfl, ?_⟩
  have hf := hc.rep.first
  rw [hs] at hf
  cases hfirst : g.sectEmptyFirst with
  | none => rfl
  | some b => rw [hfirst] at hf; exact absurd hf.1 (by simp)

namespace GroupsInv

variable (hg : GroupsInv base size h hd t r gs)

include hg

theorem append (hlen : hd ≤ h.length) (h' : List (TxOps β)) {hd' : Nat} (hhd : hd ≤ hd') :
    GroupsInv base size (h ++ h') hd' t r gs := by
  have hr : r ≤ h.length := by rw [← hg.rtxid]; exact le_trans hg.work.hi hlen
  refine ⟨hg.work.append hlen h' hhd, hg.wait.append hlen h' hhd, hg.rtxid, ?_, ?_⟩
  · rw [lsnAt_append_of_le hr]; exact hg.roffset
  · rcases hg.chain with hc | hc
    · exact Or.inl hc
    · refine Or.inr { hc with roffset := ?_ }
      rw [lsnAt_append_of_le (le_trans hg.wait.hi hlen)]
      exact hc.roffset

theorem addTrimentry (hlen : hd ≤ h.length) (hs : 0 < size) (hr : r < hd)
    (hfit : (h.get ⟨r, lt_of_lt_of_le hr hlen⟩).length ≤ size) :
    ∃ gs', gs.addTrimentry (r + 1) (h.get ⟨r, lt_of_lt_of_le hr hlen⟩).length (h.get ⟨r, lt_of_lt_of_le hr hlen⟩) size =
      some gs' ∧ GroupsInv base size h hd t (r + 1) gs' ∧ gs'.workgrp.ltxid = gs.workgrp.ltxid := by
  have hlt : r < h.length := lt_of_lt_of_le hr hlen
  obtain rfl := hg.rtxid
  obtain ⟨g', h1, h2, h3⟩ := insert_spec hg.work.rep hg.work.le (h.get ⟨_, hlt⟩).length (h.get ⟨_, hlt⟩) size
  refine ⟨{ gs with workgrp := g' }, by rw [Groups.addTrimentry, h1]; rfl, ⟨hg.work.insert hlen hr h2, hg.wait, h2.rtxid,
    ?_, ?_⟩, h2.ltxid⟩
  · show g'.roffset = _
    rw [h3, hg.roffset, offModularAdd_eq_mod hs hfit, lsnAt_succ hlt]
  · rcases hg.chain with ⟨hc, ht⟩ | hc
    · exact Or.inl ⟨hc, h2.ltxid.trans ht⟩
    · exact Or.inr { hc with chain := hc.chain.trans h2.ltxid.symm }

theorem tryswap (o : TrimOptions) (writable force : Bool) (type : HandleType) (locked : Bool) :
    ∃ gs', gs.tryswap o (stateAt base h hd) writable force type locked = some gs' ∧
      GroupsInv base size h hd t r gs' ∧ gs.workgrp.ltxid ≤ gs'.workgrp.ltxid := by
  obtain ⟨gs', g', h1, hfill, h2⟩ := Groups.tryswap_spec o (stateAt base h hd) writable force type locked hg.work.rep
  have hcov := hg.work.fill hfill
  have hroff : g'.roffset = lsnAt h g'.rtxid % size := by rw [hfill.roffset, hg.roffset, hfill.rtxid, hg.rtxid]
  refine ⟨gs', h1, ?_⟩
  rcases h2 with rfl | ⟨hntx, hcopied, rfl⟩
  · refine ⟨⟨hcov, hg.wait, hfill.rtxid.trans hg.rtxid, by rw [hroff, hfill.rtxid, hg.rtxid], ?_⟩,
      le_of_eq hfill.ltxid.symm⟩
    rcases hg.chain with ⟨hc, ht⟩ | hc
    · exact Or.inl ⟨hc, hfill.ltxid.trans ht⟩
    · exact Or.inr { hc with chain := hc.chain.trans hfill.ltxid.symm }
  · -- the groups are swapped: the waiting one was empty
    have hempty : gs.waitgrp.ltxid = gs.waitgrp.rtxid := by
      have := hg.wait.le
      unfold ntx at hntx
      omega
    have ht : g'.ltxid = t := by
      rcases hg.chain with ⟨_, ht⟩ | hc
      · rw [hfill.ltxid, ht]
      · have := hc.lt
        have := hc.ltxid
        omega
    obtain ⟨hs, hn, he, hf⟩ := hg.wait.sects_nil hempty
    refine ⟨⟨covers_of_empty hs hn he hf rfl hcov.hi, hcov, hfill.rtxid.trans hg.rtxid, ?_, ?_⟩,
      by rw [← hfill.ltxid]; exact hcov.le⟩
    · show g'.roffset = _
      rw [hroff, hfill.rtxid, hg.rtxid]
    · rcases Nat.lt_or_eq_of_le hcov.le with hlt | heq
      · exact Or.inr ⟨ht, by rw [← ht]; exact hlt, rfl, hcopied, hroff⟩
      · exact Or.inl ⟨heq, heq.symm.trans ht⟩

theorem tail_le_ltxid : t ≤ gs.workgrp.ltxid := by
  rcases hg.chain with ⟨_, ht⟩ | hc
  · exact le_of_eq ht.symm
  · rw [← hc.chain]; exact Nat.le_of_lt hc.lt

theorem tail_le : t ≤ r := by
  rw [← hg.rtxid]; exact le_trans hg.tail_le_ltxid hg.work.le

/-- Deleting up to the tail, where the groups start, changes nothing. -/
theorem delTrimentry_tail : gs.delTrimentry t = gs := by
  have hwait : gs.waitgrp.delete t = gs.waitgrp := by
    rcases hg.chain with ⟨hc, _⟩ | hc
    · exact delete_of_nil (hg.wait.sects_nil hc).1 hc
    · exact delete_of_le (le_of_eq hc.ltxid.symm)
  rw [Groups.delTrimentry, hwait, delete_of_le hg.tail_le_ltxid]

/-- Deleting up to the end of the flushed waiting group empties it and leaves the other one alone. -/
theorem delTrimentry (hw : WaitFull size h t gs) :
    (gs.delTrimentry gs.waitgrp.rtxid).waitgrp.ltxid = (gs.delTrimentry gs.waitgrp.rtxid).waitgrp.rtxid ∧
      GroupsInv base size h hd gs.waitgrp.rtxid r (gs.delTrimentry gs.waitgrp.rtxid) := by
  have hcopied : ∀ sb ∈ gs.waitgrp.sects, sb.buf.isSome := by
    intro sb hsb
    have h0 := hw.copied
    rw [emptyCount, List.countP_eq_zero] at h0
    simpa [Option.isSome_iff_ne_none] using h0 sb hsb
  have hfirst : gs.waitgrp.sectEmptyFirst = none := by
    have hf := hg.wait.rep.first
    cases hfirst : gs.waitgrp.sectEmptyFirst with
    | none => rfl
    | some b => rw [hfirst] at hf; have := hf.1; rw [hw.copied] at this; omega
  have hwait : gs.waitgrp.delete gs.waitgrp.rtxid =
      { gs.waitgrp with nsects := gs.waitgrp.nsects - gs.waitgrp.sects.length, sects := [], ltxid := gs.waitgrp.rtxid } := by
    rw [delete, if_neg (by have := hw.lt; have := hw.ltxid; omega),
      deleteLoop_all _ _ (fun sb hsb => (hg.wait.rep.txids sb hsb).2) hcopied hfirst]
    simp
  have hwork : gs.workgrp.delete gs.waitgrp.rtxid = gs.workgrp := delete_of_le (le_of_eq hw.chain)
  rw [Groups.delTrimentry, hwait, hwork]
  refine ⟨rfl, hg.work, covers_of_empty rfl ?_ ?_ hfirst rfl hg.wait.hi, hg.rtxid, hg.roffset,
    Or.inl ⟨rfl, hw.chain.symm⟩⟩
  · show gs.waitgrp.nsects - gs.waitgrp.sects.length = 0
    rw [hg.wait.rep.nsects]; omega
  · show gs.waitgrp.nsectsEmpty = 0
    rw [hg.wait.rep.nempty, hw.copied]; rfl

end GroupsInv

end Groups

/-! ## The host -/

/-- A host between two requests: the leader record names `(t, |h|]`, the groups reach up to `r`, the
metadata in memory is the one after `m` transactions. The tail `dt` on disk is not `t` after a leader
write of a trim that failed and yet landed. -/
structure NodeInv (base : Key → β) (size : Nat) (h : List (TxOps β)) (dt t r m : Nat) (n : Node β) : Prop where
  leader : LeaderAt h size t h.length n.leader
  metabuf : n.metabuf = stateAt base h m
  groups : GroupsInv base size h h.length t r n.groups
  tail_le : dt ≤ n.groups.workgrp.ltxid

/-- The host serves requests; its leader record has tail `t`. -/
structure IdleInv (base : Key → β) (size t : Nat) (s : Writer β) : Prop where
  disk : DiskInv base size s.committed t s.disk
  node : NodeInv base size s.committed s.disk.leader.tailTxid t s.committed.length s.committed.length s.node

/-- A transaction that fits into the free part of the ring. -/
structure Fits (size : Nat) (h : List (TxOps β)) (t : Nat) (ops : TxOps β) : Prop where
  ne : ops ≠ []
  fit : lsnAt h h.length + ops.length < lsnAt h t + size

/-- The invariant, by what the log thread is about to do. -/
def WriterInv (base : Key → β) (size : Nat) (s : Writer β) : Prop :=
  let h := s.committed
  match s.pc with
  | .down => ∃ tl, DiskInv base size h tl s.disk
  | .replaying txs => ∃ t k, DiskInv base size h t s.disk ∧
      NodeInv base size h s.disk.leader.tailTxid t k h.length s.node ∧ k ≤ h.length ∧ txs = numbered k (txSlice h k h.length)
  | .idle => ∃ t, IdleInv base size t s
  | .logging ops offset todo => ∃ t, IdleInv base size t s ∧ Fits size h t ops ∧
      ∃ done, txLog (h.length + 1) (lsnAt h h.length) ops = done ++ todo ∧
        offset = (lsnAt h h.length + done.length) % size ∧ RingHolds s.disk.ring size (lsnAt h h.length) done
  | .committing ops lrbak => ∃ t, IdleInv base size t { s with node := s.node.setLeader lrbak } ∧ Fits size h t ops ∧
      s.node.leader = lrbak.advanceHead ops.length ∧
      RingHolds s.disk.ring size (lsnAt h h.length) (txLog (h.length + 1) (lsnAt h h.length) ops)
  | .applying ops => ∃ t h₀, h = h₀ ++ [ops] ∧ DiskInv base size h t s.disk ∧ ops.length ≤ size ∧
      NodeInv base size h s.disk.leader.tailTxid t h₀.length h₀.length s.node
  | .flushing todo => ∃ t, IdleInv base size t s ∧ WaitFull size h t s.node.groups ∧
      ∃ done, s.node.groups.waitgrp.sects = done ++ todo ∧
        ∀ sb ∈ done, ∀ i, Taken base h s.node.groups.waitgrp.rtxid h.length (sb.bda, i) (s.disk.sectors (sb.bda, i))
  | .trimming oldlr => ∃ t, IdleInv base size t { s with node := s.node.setLeader oldlr } ∧
      WaitFull size h t s.node.groups ∧ s.node.leader = oldlr.trimTo s.node.groups.waitgrp ∧
      Fuzzy base h s.node.groups.waitgrp.rtxid h.length s.disk.sectors
  | .deleting => ∃ t, DiskInv base size h s.node.groups.waitgrp.rtxid s.disk ∧ WaitFull size h t s.node.groups ∧
      s.disk.leader.tailTxid = s.node.groups.waitgrp.rtxid ∧
      LeaderAt h size s.node.groups.waitgrp.rtxid h.length s.node.leader ∧
      s.node.metabuf = stateAt base h h.length ∧ GroupsInv base size h h.length t h.length s.node.groups

section Steps

variable {o : TrimOptions} {base : Key → β} {size : Nat} {s s' : Writer β} {h : List (TxOps β)}

/-- Whatever the host is doing, the device holds the history. -/
theorem WriterInv.disk (hi : WriterInv base size s) : ∃ tl, DiskInv base size s.committed tl s.disk := by
  unfold WriterInv at hi
  cases hpc : s.pc <;> rw [hpc] at hi
  case down => exact hi
  case replaying => obtain ⟨t, _, hd, _⟩ := hi; exact ⟨t, hd⟩
  case idle => obtain ⟨t, hi⟩ := hi; exact ⟨t, hi.disk⟩
  case applying => obtain ⟨t, _, _, hd, _⟩ := hi; exact ⟨t, hd⟩
  case logging | committing | flushing | trimming => obtain ⟨t, hi, _⟩ := hi; exact ⟨t, hi.disk⟩
  case deleting => obtain ⟨_, hd, _⟩ := hi; exact ⟨_, hd⟩

theorem GroupsInv.preload {d : Disk β} {tl : Nat} (hd : DiskInv base size h tl d) :
    GroupsInv base size h h.length d.leader.tailTxid d.leader.tailTxid (Groups.preload d.leader) :=
  ⟨covers_of_empty rfl rfl rfl rfl rfl hd.tail_le, covers_of_empty rfl rfl rfl rfl rfl (Nat.zero_le _),
    rfl, hd.leader.tailOffset, Or.inl ⟨rfl, rfl⟩⟩

/-- A mount finds the history on the device. -/
theorem Writer.mount_inv {tl : Nat} (hd : DiskInv base size s.committed tl s.disk) (hs : s.mount = some s') :
    WriterInv base size s' := by
  have hd' := hd.raise hd.tl_le (le_refl _)
  have hnode : NodeInv base size s.committed s.disk.leader.tailTxid s.disk.leader.tailTxid s.disk.leader.tailTxid
      s.committed.length ⟨s.disk.leader, redo s.disk.sectors (txSlice s.committed s.disk.leader.tailTxid s.committed.length),
        Groups.preload s.disk.leader⟩ :=
    ⟨hd.leader, redo_of_fuzzy hd.tail_le hd.sectors, GroupsInv.preload hd, le_refl _⟩
  unfold mount at hs
  simp only [hd.logScan, map_snd_numbered, Option.bind_eq_bind, Option.bind_some] at hs
  split at hs
  · split at hs
    case isTrue htail =>
      cases hs
      rw [hd.leader.head] at htail
      refine ⟨s.disk.leader.tailTxid, hd', ?_⟩
      have hgroups := hnode.groups
      exact { hnode with groups := by rw [htail] at hgroups ⊢; exact hgroups }
    case isFalse => cases hs
  · cases hs
    exact ⟨_, _, hd', hnode, hd.tail_le, rfl⟩

theorem txSlice_cons {k : Nat} (hk : k < h.length) :
    txSlice h k h.length = h.get ⟨k, hk⟩ :: txSlice h (k + 1) h.length := by
  rw [txSlice, List.take_length, txSlice, List.take_length, List.drop_eq_getElem_cons hk]
  rfl

/-- A transaction in the ring is not longer than the ring. -/
theorem JournalInv.length_le {d : Disk β} {tl : Nat} (hd : JournalInv size h tl d) {k : Nat} (hk : k < h.length)
    (htl : tl ≤ k) : (h.get ⟨k, hk⟩).length ≤ size := by
  have h1 := lsnAt_txSlice (h := h) (le_trans htl (Nat.le_of_lt hk))
  have h2 := hd.fit
  rw [txSlice_append htl (Nat.le_of_lt hk), txSlice_cons hk] at h1
  simp only [List.map_append, List.map_cons, List.sum_append, List.sum_cons] at h1
  omega

/-- The leader record of the transaction being committed. -/
theorem LeaderAt.advanceHead (hl : LeaderAt h size t h.length lr) (ht : t ≤ h.length) (hs : 0 < size)
    (hops : ops.length ≤ size) : LeaderAt (h ++ [ops]) size t (h.length + 1) (lr.advanceHead ops.length) := by
  refine ⟨hl.tail, by rw [← hl.head]; rfl, ?_, ?_, ?_, hl.size⟩
  · rw [lsnAt_append_of_le ht]; exact hl.tailOffset
  · show offModularAdd lr.headOffset ops.length lr.logSize = _
    rw [hl.size, hl.headOffset, offModularAdd_eq_mod hs hops, lsnAt_snoc]
  · show lr.headLsn + ops.length = _
    rw [hl.lsn, lsnAt_snoc]

/-- Once all sectors of the waiting group are on disk, the tail may move to the group's end. -/
theorem fuzzy_of_flushed (hd : DiskInv base size s.committed t s.disk)
    (hg : GroupsInv base size s.committed s.committed.length t s.committed.length s.node.groups)
    (hw : WaitFull size s.committed t s.node.groups) {sectors : Key → β}
    (hflushed : ∀ sb ∈ s.node.groups.waitgrp.sects, ∀ i,
      Taken base s.committed s.node.groups.waitgrp.rtxid s.committed.length (sb.bda, i) (sectors (sb.bda, i)))
    (hother : ∀ k : Key, ¬ s.node.groups.waitgrp.Holds k.1 → sectors k = s.disk.sectors k) :
    Fuzzy base s.committed s.node.groups.waitgrp.rtxid s.committed.length sectors := by
  intro k
  by_cases hk : s.node.groups.waitgrp.Holds k.1
  · obtain ⟨sb, hsb, hb⟩ := hk
    have := hflushed sb hsb k.2
    rwa [hb] at this
  · rw [hother k hk]
    refine ((hd.sectors k).mono hd.tl_le (le_refl _)).raise (fun htouch => hk ?_) hg.wait.hi
    rw [← hw.ltxid] at htouch
    exact hg.wait.covers k htouch

section

variable (hi : WriterInv base size s)

include hi

theorem Writer.replayInsert_inv {tx : Nat × TxOps β} {txs : List (Nat × TxOps β)} {locked : Bool}
    (hpc : s.pc = .replaying (tx :: txs)) (hs : s.step o (.replayInsert locked) = some s') :
    WriterInv base size s' := by
  rw [WriterInv, hpc] at hi
  obtain ⟨t, k, hd, hn, hk, htxs⟩ := hi
  have hlt : k < s.committed.length := by
    rcases Nat.lt_or_eq_of_le hk with h | rfl
    · exact h
    · rw [txSlice_self] at htxs; cases htxs
  rw [txSlice_cons hlt, numbered] at htxs
  obtain ⟨rfl, rfl⟩ := List.cons.inj htxs
  have hsize := hn.leader.size
  obtain ⟨gs, hgs, hginv, hl⟩ := hn.groups.addTrimentry (le_refl _) hd.pos hlt (hd.length_le hlt hn.groups.tail_le)
  obtain ⟨gs', hgs', hginv', hl'⟩ := hginv.tryswap o true false .replaydone locked
  have hnode : NodeInv base size s.committed s.disk.leader.tailTxid t (k + 1) s.committed.length (s.node.setGroups gs') :=
    ⟨hn.leader, hn.metabuf, hginv', le_trans hn.tail_le (by rw [← hl]; exact hl')⟩
  simp only [step, hpc, Node.replaytxPut, hsize, hgs, hn.metabuf, hgs', Option.bind_eq_bind,
    Option.bind_some] at hs
  split at hs
  case isTrue hnil =>
    -- the last one: nothing is left to insert
    have hlast : k + 1 = s.committed.length := by
      rw [List.isEmpty_iff] at hnil
      have hlen := congrArg List.length (congrArg (List.map Prod.snd) hnil)
      rw [map_snd_numbered, length_txSlice (le_refl _)] at hlen
      simp at hlen
      omega
    rw [Node.replaydone, show (s.node.setGroups gs').leader.tailTxid = t from hn.leader.tail,
      show (s.node.setGroups gs').groups.delTrimentry t = gs' from hginv'.delTrimentry_tail] at hs
    split at hs
    · cases hs
      rw [hlast] at hnode
      exact ⟨t, hd, hnode⟩
    · cases hs
  case isFalse =>
    cases hs
    exact ⟨t, k + 1, hd, hnode, hlt, rfl⟩

theorem Writer.commit_inv (hpc : s.pc = .idle) (hs : s.step o (.commit ops) = some s') : WriterInv base size s' := by
  rw [WriterInv, hpc] at hi
  obtain ⟨t, hidle⟩ := hi
  simp only [step, hpc] at hs
  obtain ⟨hok, hs⟩ := Option.ite_none_right_eq_some.1 hs
  cases hs
  have hlr := hidle.node.leader
  have htl : lsnAt s.committed t ≤ lsnAt s.committed s.committed.length := lsnAt_mono hidle.node.groups.tail_le
  have hspace := hlr.logSpace hidle.node.groups.tail_le hidle.disk.fit
  rw [hspace] at hok
  have hfits : Fits size s.committed t ops := ⟨hok.1, by omega⟩
  refine ⟨t, ⟨hidle.disk, hidle.node⟩, hfits, [], ?_, ?_, ringHolds_nil _ _ _⟩
  · rw [hlr.head, hlr.lsn]; rfl
  · rw [hlr.headOffset]; rfl

theorem Writer.logStep_inv {offset : Nat} {e : LogEntry β} {todo : List (LogEntry β)} (r : Io)
    (hpc : s.pc = .logging ops offset (e :: todo)) : WriterInv base size (s.logStep ops offset e todo r) := by
  rw [WriterInv, hpc] at hi
  obtain ⟨t, hidle, hfit, done, hlog, rfl, hring⟩ := hi
  have hlen : done.length < ops.length := by
    have := congrArg List.length hlog
    rw [length_txLog, List.length_append, List.length_cons] at this
    omega
  have htl : lsnAt s.committed t ≤ lsnAt s.committed s.committed.length := lsnAt_mono hidle.node.groups.tail_le
  have hlt := hfit.fit
  have hdisk := hidle.disk.writeEntry r (j := done.length) (by omega) e
  have htail : (s.disk.writeEntry r ((lsnAt s.committed s.committed.length + done.length) % size) e).leader =
      s.disk.leader := by
    unfold Disk.writeEntry; split <;> rfl
  have hnode := hidle.node
  rw [← htail] at hnode
  cases r with
  | fail landed => exact ⟨t, hdisk, hnode⟩
  | ok =>
    have hring' : RingHolds (s.disk.writeEntry .ok ((lsnAt s.committed s.committed.length + done.length) % size) e).ring
        size (lsnAt s.committed s.committed.length) (done ++ [e]) := by
      refine (hring.update (le_refl _) (by omega) e).append (ringHolds_singleton ?_)
      rw [Function.update_self]
    unfold logStep
    simp only
    split
    case isTrue hnil =>
      rw [List.isEmpty_iff] at hnil
      subst hnil
      exact ⟨t, ⟨hdisk, hnode⟩, hfit, rfl, by rw [hlog]; exact hring'⟩
    case isFalse =>
      refine ⟨t, ⟨hdisk, hnode⟩, hfit, done ++ [e], by rw [hlog]; simp, ?_, hring'⟩
      rw [hidle.node.leader.size, offModularAdd_eq_mod hidle.disk.pos hidle.disk.pos, List.length_append,
        List.length_singleton, Nat.add_assoc]

theorem Writer.commitStep_inv {lrbak : LeaderRecord} {r : Io} (hpc : s.pc = .committing ops lrbak)
    (hr : ∀ landed, r = .fail landed → landed = false) (hs : s.commitStep ops lrbak r = some s') :
    WriterInv base size s' := by
  rw [WriterInv, hpc] at hi
  obtain ⟨t, hidle, hfit, hlr, hring⟩ := hi
  have ht : t ≤ s.committed.length := hidle.node.groups.tail_le
  have htl : lsnAt s.committed t ≤ lsnAt s.committed s.committed.length := lsnAt_mono ht
  have hops : ops.length ≤ size := by have := hfit.fit; omega
  unfold commitStep at hs
  obtain ⟨-, hs⟩ := Option.ite_none_right_eq_some.1 hs
  cases r with
  | fail landed =>
    obtain rfl := hr landed rfl
    cases hs
    exact ⟨t, hidle.disk, hidle.node⟩
  | ok =>
    cases hs
    have hlead : LeaderAt (s.committed ++ [ops]) size t (s.committed.length + 1) s.node.leader := by
      rw [hlr]; exact LeaderAt.advanceHead hidle.node.leader ht hidle.disk.pos hops
    refine ⟨t, s.committed, rfl, hidle.disk.commit hfit.ne hring hfit.fit hlead, hops, ?_, ?_, ?_, ?_⟩
    · show LeaderAt _ size t (s.committed ++ [ops]).length _
      rw [List.length_append]; exact hlead
    · rw [stateAt_append_of_le (le_refl _)]; exact hidle.node.metabuf
    · exact hidle.node.groups.append (le_refl _) _ (by simp)
    · show s.node.leader.tailTxid ≤ s.node.groups.workgrp.ltxid
      rw [hlead.tail]; exact hidle.node.groups.tail_le_ltxid

theorem Writer.apply_inv (hpc : s.pc = .applying ops) (hs : s.step o .apply = some s') : WriterInv base size s' := by
  rw [WriterInv, hpc] at hi
  obtain ⟨t, h₀, hh, hd, hops, hn⟩ := hi
  have hlen : s.committed.length = h₀.length + 1 := by rw [hh]; simp
  have hlt : h₀.length < s.committed.length := by omega
  have hget : s.committed.get ⟨h₀.length, hlt⟩ = ops := by
    rw [List.get_eq_getElem]; simp [hh]
  have hmeta : applyTx s.node.metabuf ops = stateAt base s.committed s.committed.length := by
    rw [hn.metabuf, hlen, hh, stateAt_snoc, stateAt_append_of_le (le_refl _)]
  obtain ⟨gs, hgs, hginv, hl⟩ := hn.groups.addTrimentry (le_refl _) hd.pos hlt (by rw [hget]; exact hops)
  rw [hget] at hgs
  rw [← hlen] at hgs hginv
  obtain ⟨gs', hgs', hginv', hl'⟩ := hginv.tryswap o true false .write true
  simp only [step, hpc, Node.apply, hn.leader.head, hn.leader.size, hgs, hmeta, hgs', Option.bind_eq_bind,
    Option.bind_some] at hs
  split at hs
  case isTrue =>
    cases hs
    exact ⟨t, hd, hn.leader, rfl, hginv', le_trans hn.tail_le (by rw [← hl]; exact hl')⟩
  case isFalse => cases hs

theorem Writer.swap_inv {force : Bool} {type : HandleType} {locked : Bool} (hpc : s.pc = .idle)
    (hs : s.step o (.swap force type locked) = some s') : WriterInv base size s' := by
  rw [WriterInv, hpc] at hi
  obtain ⟨t, hd, hn⟩ := hi
  obtain ⟨gs, hgs, hginv, hl⟩ := hn.groups.tryswap o true force type locked
  simp only [step, hpc, hn.metabuf, hgs, Option.bind_eq_bind, Option.bind_some] at hs
  cases hs
  exact ⟨t, hd, hn.leader, hn.metabuf, hginv, le_trans hn.tail_le hl⟩

theorem Writer.trim_inv (hpc : s.pc = .idle) (hs : s.trim = some s') : WriterInv base size s' := by
  obtain ⟨t, hd, hn⟩ : ∃ t, IdleInv base size t s := by rw [WriterInv, hpc] at hi; exact hi
  unfold trim at hs
  dsimp only at hs
  split at hs
  case isTrue => cases hs; exact hi
  case isFalse hne =>
    obtain ⟨-, hs⟩ := Option.ite_none_right_eq_some.1 hs
    split at hs
    · cases hs; exact hi
    cases hs
    have hw : WaitFull size s.committed t s.node.groups := by
      rcases hn.groups.chain with ⟨hc, _⟩ | hc
      · exact absurd hc hne
      · exact hc
    exact ⟨t, ⟨hd, hn⟩, hw, [], rfl, by simp⟩

theorem Writer.flushStep_inv {sb : SectBuf β} {todo : List (SectBuf β)} {r : Io} (hpc : s.pc = .flushing (sb :: todo))
    (hs : s.flushStep sb todo r = some s') : WriterInv base size s' := by
  rw [WriterInv, hpc] at hi
  obtain ⟨t, ⟨hd, hn⟩, hw, done, hsects, hdone⟩ := hi
  have hmem : sb ∈ s.node.groups.waitgrp.sects := by rw [hsects]; simp
  unfold flushStep at hs
  dsimp only at hs
  obtain ⟨-, hs⟩ := Option.ite_none_right_eq_some.1 hs
  obtain ⟨img, hbuf, hs⟩ := Option.map_eq_some_iff.mp hs
  have himg : ∀ i, Taken base s.committed s.node.groups.waitgrp.rtxid s.committed.length (sb.bda, i) (img i) :=
    fun i => hn.groups.wait.image (sb.bda, i) (img i) ⟨sb, hmem, rfl, img, hbuf, rfl⟩
  have htail : s.disk.leader.tailTxid ≤ s.node.groups.waitgrp.rtxid := by rw [hw.chain]; exact hn.tail_le
  have hdisk := hd.writeSector r fun i => (himg i).mono htail (le_refl _)
  have hlead : (s.disk.writeSector r sb.bda img).leader = s.disk.leader := by
    unfold Disk.writeSector; split <;> rfl
  have hnode := hn
  rw [← hlead] at hnode
  cases r with
  | fail landed => cases hs; exact ⟨t, hdisk, hnode⟩
  | ok =>
    -- the sectors written so far, this one included
    have hdone' : ∀ x ∈ done ++ [sb], ∀ i, Taken base s.committed s.node.groups.waitgrp.rtxid s.committed.length
        (x.bda, i) ((s.disk.writeSector .ok sb.bda img).sectors (x.bda, i)) := by
      intro x hx i
      show Taken _ _ _ _ _ (if x.bda = sb.bda then img i else s.disk.sectors (x.bda, i))
      split
      case isTrue hb => rw [hb]; exact himg i
      case isFalse hb =>
        rcases List.mem_append.mp hx with hx | hx
        · exact hdone x hx i
        · rw [List.mem_singleton.mp hx] at hb; exact absurd rfl hb
    dsimp only at hs
    split at hs
    case isTrue hnil =>
      cases hs
      rw [List.isEmpty_iff] at hnil
      subst hnil
      refine ⟨t, ⟨hdisk, hnode⟩, hw, rfl, fuzzy_of_flushed hd hn.groups hw ?_ fun k hk => ?_⟩
      · intro x hx
        rw [hsects] at hx
        exact hdone' x hx
      · exact if_neg fun hb => hk ⟨sb, hmem, hb.symm⟩
    case isFalse =>
      cases hs
      exact ⟨t, ⟨hdisk, hnode⟩, hw, done ++ [sb], by rw [hsects]; simp, hdone'⟩

theorem Writer.trimStep_inv {oldlr : LeaderRecord} {r : Io} (hpc : s.pc = .trimming oldlr)
    (hs : s.trimStep oldlr r = some s') : WriterInv base size s' := by
  rw [WriterInv, hpc] at hi
  obtain ⟨t, ⟨hd, hn⟩, hw, hlr, hf⟩ := hi
  have hle : s.node.groups.waitgrp.rtxid ≤ s.committed.length := hn.groups.wait.hi
  have hlead : LeaderAt s.committed size s.node.groups.waitgrp.rtxid s.committed.length s.node.leader := by
    rw [hlr]
    exact ⟨rfl, hn.leader.head, hw.roffset, hn.leader.headOffset, hn.leader.lsn, hn.leader.size⟩
  have hdisk := hd.writeTail r hlead (Nat.le_of_lt hw.lt) hle hf
  unfold trimStep at hs
  obtain ⟨-, hs⟩ := Option.ite_none_right_eq_some.1 hs
  cases r with
  | ok =>
    cases hs
    have htail : (s.disk.writeLeader .ok s.node.leader).leader.tailTxid = s.node.groups.waitgrp.rtxid := hlead.tail
    exact ⟨t, hdisk.raise (Nat.le_of_lt hw.lt) (le_of_eq htail.symm), hw, htail, hlead, hn.metabuf, hn.groups⟩
  | fail landed =>
    cases hs
    refine ⟨t, hdisk, hn.leader, hn.metabuf, hn.groups, ?_⟩
    unfold Disk.writeLeader
    split
    · show s.node.leader.tailTxid ≤ s.node.groups.workgrp.ltxid
      rw [hlead.tail, hw.chain]
    · exact hn.tail_le

theorem Writer.delTrimentry_inv (hpc : s.pc = .deleting) (hs : s.step o .delTrimentry = some s') :
    WriterInv base size s' := by
  rw [WriterInv, hpc] at hi
  obtain ⟨t, hd, hw, htail, hlead, hmeta, hg⟩ := hi
  obtain ⟨hempty, hg'⟩ := hg.delTrimentry hw
  simp only [step, hpc, hlead.tail, hempty, if_true] at hs
  cases hs
  refine ⟨_, hd, hlead, hmeta, hg', ?_⟩
  rw [htail]
  exact hg'.tail_le_ltxid

/-- No leader write of a commit fails and yet reaches the disk. -/
def CommitClean (s : Writer β) (ev : Event β) : Prop :=
  ∀ ops lrbak landed, s.pc = .committing ops lrbak → ev = .io (.fail landed) → landed = false

def Writer.leaderWriteClean (s : Writer β) (ev : Event β) : Bool :=
  match s.pc, ev with
  | .committing _ _, .io (.fail landed) => !landed
  | _, _ => true

omit hi in
theorem Writer.commitClean {ev : Event β} (h : s.leaderWriteClean ev = true) : CommitClean s ev := by
  rintro ops lrbak landed hpc rfl
  simpa [leaderWriteClean, hpc] using h

/-- Every step keeps the invariant; the only writes that must not land when they fail are the leader
writes of commits. -/
theorem Writer.step_inv {ev : Event β} (hok : CommitClean s ev) (hs : s.step o ev = some s') :
    WriterInv base size s' := by
  have hstep := hs
  unfold step at hs
  split at hs
  case h_1 =>
    cases hs
    exact hi.disk
  case h_2 hpc =>
    obtain ⟨tl, hd⟩ := hi.disk
    exact mount_inv hd hs
  case h_3 hpc => exact replayInsert_inv hi hpc hstep
  case h_4 hpc => exact commit_inv hi hpc hstep
  case h_5 hpc =>
    cases hs
    exact logStep_inv hi _ hpc
  case h_6 ops lrbak r hpc => exact commitStep_inv hi hpc (fun landed hr => hok ops lrbak landed hpc (by rw [hr])) hs
  case h_7 hpc => exact apply_inv hi hpc hstep
  case h_8 hpc => exact swap_inv hi hpc hstep
  case h_9 hpc => exact trim_inv hi hpc hs
  case h_10 hpc => exact flushStep_inv hi hpc hs
  case h_11 hpc => exact trimStep_inv hi hpc hs
  case h_12 hpc => exact delTrimentry_inv hi hpc hstep
  case h_13 => cases hs

end

theorem Writer.init_inv (hs : (writerSystem o size base).init s) : WriterInv base size s := by
  obtain ⟨hpos, hsec, hlead, hpc, hcom⟩ := hs
  rw [WriterInv, hpc]
  refine ⟨0, ⟨hpos, by simp [hcom], ?_, ?_, Nat.zero_le _, ?_, ?_⟩, ?_⟩
  · rw [hlead, hcom]
    exact ⟨rfl, rfl, by simp [LeaderRecord.mkfs, lsnAt], by simp [LeaderRecord.mkfs, lsnAt], rfl, rfl⟩
  · rw [hlead, hcom]; exact le_refl 0
  · rw [hcom]; exact ringHolds_nil _ _ _
  · rw [hcom]; simpa [lsnAt] using hpos
  · rw [hlead, hsec]
    intro k
    exact ⟨0, le_refl 0, Nat.zero_le _, by rw [stateAt_zero]⟩

end Steps

end PolarFs.Journal
