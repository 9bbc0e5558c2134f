/-
What a mount recovers while another host writes: the metadata at the head it read last, provided the
tail did not move from its first read of a sector to its second read of the leader record, nor, if there is
something to replay, since its first one.
-/
import PolarFs.Journal.OnlineMount

namespace PolarFs.Journal

open RedoLog Transition Mounter

variable {β : Type}

/-! ## What is assumed, and what is promised -/

/-- The writer does not wrap around onto the entries after the tail the mount works from. -/
def noWrap (size : Nat) (s : MountState β) (ev : Event β) : Bool :=
  match s.mounter.pc, s.writer.pc, ev with
  | .leaderLoaded, .logging _ _ (e :: _), .io _ | .scanning _ _ _, .logging _ _ (e :: _), .io _ =>
    decide (e.lsn ≤ lsnAt s.writer.committed s.mounter.node.leader.tailTxid + size)
  | _, _, _ => true

/-- Device writes that fail do not land, and the log entries the mount needs are not overwritten. -/
def mountAssumed (size : Nat) (s : MountState β) : MountStep β → Bool
  | .writer ev => decide (FailsCleanly ev) && noWrap size s ev
  | .mounter _ => true

/-- A mount that is not about to start again works from the tail that was on disk when it read its first sector, and,
if it has something to replay, `pfs_log_preload` has read that tail too. -/
def tailKept (s : MountState β) : MountStep β → Bool
  | .mounter .logLoad =>
    let lr := s.mounter.node.leader
    let latest := s.writer.disk.leader
    decide (lr.headTxid < latest.tailTxid ∨
      lr.tailTxid = s.mounter.tail1 ∧ (latest.headTxid = s.mounter.tail1 ∨ s.mounter.tail1 = s.mounter.tail0))
  | _ => true

/-- The mount holds the metadata after every transaction up to the head that `pfs_log_load` read. -/
structure Recovered (c : MountConfig β) (base : Key → β) (s : MountState β) : Prop where
  head_le : s.mounter.node.leader.headTxid ≤ s.writer.committed.length
  metabuf : ∀ k : Key, k.1 ∈ c.sects →
    s.mounter.node.metabuf k = stateAt base s.writer.committed s.mounter.node.leader.headTxid k
  nfree : s.mounter.nfree = c.countFree (stateAt base s.writer.committed s.mounter.node.leader.headTxid)
  /-- it has replayed every transaction after the tail on disk before its first sector read -/
  replayed : s.mounter.replayed = numbered s.mounter.tail1
    (txSlice s.writer.committed s.mounter.tail1 s.mounter.node.leader.headTxid)

/-- No assertion of the mount fails, and a mount that serves has recovered. -/
structure MountExact (c : MountConfig β) (base : Key → β) (s : MountState β) : Prop where
  no_abort : s.mounter.pc ≠ .aborted
  serving : s.mounter.pc = .serving → Recovered c base s

/-! ## The invariant -/

/-- What the mount has read so far: groups that start at the tail that was read first, and the objects of the loaded
sectors, taken after the tail of the first sector read and up to `hi`. -/
structure LoadedInv (base : Key → β) (size : Nat) (h : List (TxOps β)) (hi : Nat) (m : Mounter β) : Prop where
  groups : GroupsInv base size h h.length m.tail0 m.tail0 m.node.groups
  taken : ∀ b ∈ m.loaded, ∀ i, Taken base h m.tail1 hi (b, i) (m.node.metabuf (b, i))
  replayed : m.replayed = []

/-- All sectors are loaded and the free count is theirs. -/
structure AnodesInv (c : MountConfig β) (m : Mounter β) : Prop where
  all : ∀ b ∈ c.sects, b ∈ m.loaded
  nfree : m.nfree = c.countFree m.node.metabuf

/-- The head `q` that `pfs_log_load` read, with what lies between the first tail and it. -/
structure HeadRead (size : Nat) (h : List (TxOps β)) (t₀ t q : Nat) (latest : LeaderRecord) : Prop where
  leader : LeaderAt h size t q latest
  tail_le : t₀ ≤ t
  le : t ≤ q
  q_le : q ≤ h.length
  fit : lsnAt h q ≤ lsnAt h t₀ + size

def MountInv (c : MountConfig β) (base : Key → β) (size : Nat) (w : Writer β) (m : Mounter β) : Prop :=
  let h := w.committed
  match m.pc with
  | .off => True
  | .loading => LoadedInv base size h h.length m ∧ m.tail1 ≤ w.disk.leader.tailTxid
  | .anodes => LoadedInv base size h h.length m ∧ AnodesInv c m
  | .leaderLoaded => LoadedInv base size h h.length m ∧ AnodesInv c m ∧
      m.node.leader.tailTxid ≤ w.disk.leader.tailTxid ∧ Region size m.node.leader.tailTxid w ∧
      ∃ q, LeaderAt h size m.node.leader.tailTxid q m.node.leader ∧ m.node.leader.tailTxid ≤ q ∧ q ≤ h.length
  | .scanning latest offset st => AnodesInv c m ∧ Region size m.tail0 w ∧ m.tail1 = m.tail0 ∧
      m.node.leader.tailTxid = m.tail0 ∧ m.node.leader.logSize = size ∧
      ∃ t q, LoadedInv base size h q m ∧ HeadRead size h m.tail0 t q latest ∧
        ∃ done rest, journalLog m.tail0 (lsnAt h m.tail0) (txSlice h m.tail0 q) = done ++ rest ∧
          offset = (lsnAt h m.tail0 + done.length) % size ∧
          scanList m.tail0 q st rest = .done (numbered m.tail0 (txSlice h m.tail0 q))
  | .replaying txs => AnodesInv c m ∧ m.tail1 = m.tail0 ∧ ∃ t q, LoadedInv base size h q m ∧
      HeadRead size h m.tail0 t q m.node.leader ∧ txs = numbered m.tail0 (txSlice h m.tail0 q)
  | .inserting txs => ∃ t q r, HeadRead size h m.tail0 t q m.node.leader ∧ Recovered c base ⟨w, m⟩ ∧
      GroupsInv base size h h.length m.tail0 r m.node.groups ∧ r ≤ q ∧ txs = numbered r (txSlice h r q)
  | .serving => Recovered c base ⟨w, m⟩
  | .aborted => False

section Grow

variable {base : Key → β} {size : Nat} {h : List (TxOps β)} {c : MountConfig β} {w w' : Writer β} {m : Mounter β}

theorem LoadedInv.append {hi hi' : Nat} (hm : LoadedInv base size h hi m) (hle : hi ≤ h.length) (hii : hi ≤ hi')
    (h' : List (TxOps β)) : LoadedInv base size (h ++ h') hi' m :=
  ⟨hm.groups.append (le_refl _) h' (by rw [List.length_append]; omega),
    fun b hb i => ((hm.taken b hb i).append hle h').mono (le_refl _) hii, hm.replayed⟩

theorem HeadRead.start_le {t₀ t q : Nat} {lr : LeaderRecord} (hq : HeadRead size h t₀ t q lr) : t₀ ≤ h.length :=
  le_trans hq.tail_le (le_trans hq.le hq.q_le)

theorem HeadRead.append {t₀ t q : Nat} {lr : LeaderRecord} (hq : HeadRead size h t₀ t q lr) (h' : List (TxOps β)) :
    HeadRead size (h ++ h') t₀ t q lr :=
  ⟨hq.leader.append (le_trans hq.le hq.q_le) hq.q_le h', hq.tail_le, hq.le,
    by rw [List.length_append]; exact Nat.le_add_right_of_le hq.q_le,
    by rw [lsnAt_append_of_le hq.q_le, lsnAt_append_of_le hq.start_le]; exact hq.fit⟩

theorem Recovered.advance (hr : Recovered c base ⟨w, m⟩) (hw : w.Advances w') : Recovered c base ⟨w', m⟩ := by
  obtain ⟨h', hh⟩ := hw.committed
  have hle : m.node.leader.headTxid ≤ w.committed.length := hr.head_le
  refine ⟨?_, fun k hk => ?_, ?_, ?_⟩
  · show m.node.leader.headTxid ≤ w'.committed.length
    rw [hh, List.length_append]; omega
  · show m.node.metabuf k = stateAt base w'.committed m.node.leader.headTxid k
    rw [hh, stateAt_append_of_le hle]; exact hr.metabuf k hk
  · show m.nfree = c.countFree (stateAt base w'.committed m.node.leader.headTxid)
    rw [hh, stateAt_append_of_le hle]; exact hr.nfree
  · show m.replayed = numbered m.tail1 (txSlice w'.committed m.tail1 m.node.leader.headTxid)
    rw [hh, txSlice_append_of_le hle]; exact hr.replayed

/-- The writer's steps leave what the mount relies on alone. -/
theorem MountInv.advance {o : TrimOptions} {ev : Event β} (hi : WriterInv base size w) (hsync : w.TailSync)
    (hm : MountInv c base size w m) (hok : mountAssumed size ⟨w, m⟩ (.writer ev) = true)
    (hs : w.step o ev = some w') : MountInv c base size w' m := by
  simp only [mountAssumed, Bool.and_eq_true, decide_eq_true_eq] at hok
  obtain ⟨hclean, hwrap⟩ := hok
  have hadv := Writer.step_advances hi hs
  have htail : w.disk.leader.tailTxid ≤ w'.disk.leader.tailTxid :=
    calc w.disk.leader.tailTxid = w.stored.tailTxid := hsync
      _ ≤ w'.stored.tailTxid := hi.stored_tail_mono hs
      _ = w'.disk.leader.tailTxid := (hsync.step hclean hs).symm
  obtain ⟨h', hh⟩ := hadv.committed
  have hlen : w.committed.length ≤ w'.committed.length := by rw [hh, List.length_append]; omega
  unfold MountInv at hm ⊢
  cases hpc : m.pc <;> rw [hpc] at hm <;> dsimp only at hm ⊢
  case loading =>
    obtain ⟨h1, h2⟩ := hm
    exact ⟨by rw [hh] at hlen ⊢; exact h1.append (le_refl _) hlen h', le_trans h2 htail⟩
  case anodes =>
    obtain ⟨h1, h2⟩ := hm
    exact ⟨by rw [hh] at hlen ⊢; exact h1.append (le_refl _) hlen h', h2⟩
  case leaderLoaded =>
    obtain ⟨h1, h2, h3, h4, q, h5, h6, h7⟩ := hm
    have ht := le_trans h6 h7
    refine ⟨by rw [hh] at hlen ⊢; exact h1.append (le_refl _) hlen h', h2, le_trans h3 htail, ?_, q, ?_, h6, by omega⟩
    · refine Region.step hi ht h4 (fun ops offset e todo r hw hev => ?_) hs
      subst hev
      simpa only [noWrap, hpc, hw, decide_eq_true_eq] using hwrap
    · rw [hh]; exact h5.append ht h7 h'
  case scanning latest offset st =>
    obtain ⟨h1, h2, hstart, h3, hsize, t, q, h4, h5, done, rest, hlog, hoff, hscan⟩ := hm
    have ht₀ := h5.start_le
    refine ⟨h1, ?_, hstart, h3, hsize, t, q, ?_, ?_, done, rest, ?_, ?_, ?_⟩
    · refine Region.step hi ht₀ h2 (fun ops offset e todo r hw hev => ?_) hs
      subst hev
      simp only [noWrap, hpc, hw, decide_eq_true_eq] at hwrap
      rwa [h3] at hwrap
    all_goals rw [hh]
    · exact h4.append h5.q_le (le_refl _) h'
    · exact h5.append h'
    · rw [lsnAt_append_of_le ht₀, txSlice_append_of_le h5.q_le]; exact hlog
    · rw [lsnAt_append_of_le ht₀]; exact hoff
    · rw [txSlice_append_of_le h5.q_le]; exact hscan
  case replaying txs =>
    obtain ⟨h1, hstart, t, q, h2, h3, h4⟩ := hm
    rw [hh]
    exact ⟨h1, hstart, t, q, h2.append h3.q_le (le_refl _) h', h3.append h', by rw [txSlice_append_of_le h3.q_le]; exact h4⟩
  case inserting txs =>
    obtain ⟨t, q, r, h1, h2, h3, h4, h5⟩ := hm
    refine ⟨t, q, r, by rw [hh]; exact h1.append h', h2.advance hadv, ?_, h4, ?_⟩
    · rw [hh] at hlen ⊢; exact h3.append (le_refl _) h' hlen
    · rw [hh, txSlice_append_of_le h1.q_le]; exact h5
  case serving => exact hm.advance hadv

end Grow

/-! ## The mount's own steps -/

section Steps

variable {base : Key → β} {size : Nat} {c : MountConfig β} {o : TrimOptions} {w : Writer β} {m m' : Mounter β}

theorem Mounter.preload_inv {tl : Nat} (hd : DiskInv base size w.committed tl w.disk) :
    MountInv c base size w { node := ⟨w.disk.leader, m.node.metabuf, Groups.preload w.disk.leader⟩
                             nfree := 0, loaded := [], tail0 := w.disk.leader.tailTxid
                             tail1 := w.disk.leader.tailTxid, replayed := [], pc := .loading } :=
  ⟨⟨GroupsInv.preload hd, fun b hb => by simp at hb, rfl⟩, le_refl _⟩

/-- What is loaded and then brought up to the head is recovered. -/
theorem recovered_of_replay {q : Nat} (h1 : LoadedInv base size w.committed q m) (h2 : AnodesInv c m)
    (hle : m.tail1 ≤ q) (hq : q ≤ w.committed.length) (hhead : m'.node.leader.headTxid = q)
    (hmeta : m'.node.metabuf = redo m.node.metabuf (txSlice w.committed m.tail1 q))
    (hfree : m'.nfree = c.countFree m'.node.metabuf) (ht : m'.tail1 = m.tail1)
    (hrep : m'.replayed = numbered m.tail1 (txSlice w.committed m.tail1 q)) : Recovered c base ⟨w, m'⟩ := by
  have hbuf : ∀ k : Key, k.1 ∈ c.sects → m'.node.metabuf k = stateAt base w.committed q k := by
    intro k hk
    rw [hmeta]
    exact redo_of_taken hle (h1.taken k.1 (h2.all k.1 hk) k.2)
  refine ⟨?_, fun k hk => ?_, ?_, ?_⟩
  · show m'.node.leader.headTxid ≤ w.committed.length
    rw [hhead]; exact hq
  · show m'.node.metabuf k = stateAt base w.committed m'.node.leader.headTxid k
    rw [hhead]; exact hbuf k hk
  · show m'.nfree = c.countFree (stateAt base w.committed m'.node.leader.headTxid)
    rw [hfree, hhead, MountConfig.countFree, MountConfig.countFree]
    congr 2
    refine Finset.filter_congr fun k hk => ?_
    rw [hbuf k (c.objs_mem k hk)]
  · show m'.replayed = numbered m'.tail1 (txSlice w.committed m'.tail1 m'.node.leader.headTxid)
    rw [hhead, ht]; exact hrep

theorem LeaderAt.loadFrom {h : List (TxOps β)} {t q : Nat} {lr latest : LeaderRecord} (hl : LeaderAt h size t q latest)
    (hsize : lr.logSize = size) : LeaderAt h size t q (lr.loadFrom latest) :=
  { hl with size := hsize }

theorem txSlice_cons_of_lt {h : List (TxOps β)} {r q : Nat} (hrq : r < q) (hq : q ≤ h.length) :
    txSlice h r q = h.get ⟨r, lt_of_lt_of_le hrq hq⟩ :: txSlice h (r + 1) q := by
  rw [txSlice_append (Nat.le_succ r) hrq, txSlice_succ (le_refl r) (lt_of_lt_of_le hrq hq), txSlice_self]
  rfl

section

variable (hm : MountInv c base size w m)

include hm

theorem Mounter.replay_inv {txs : List (Nat × TxOps β)} (hpc : m.pc = .replaying txs) :
    MountInv c base size w (m.replay c txs) := by
  unfold MountInv at hm
  rw [hpc] at hm
  obtain ⟨h1, hstart, t, q, h2, h3, rfl⟩ := hm
  have hreplay := c.replay_eq (txSlice w.committed m.tail0 q) m.node.metabuf
  have hle : m.tail0 ≤ q := le_trans h3.tail_le h3.le
  unfold replay
  dsimp only
  rw [map_snd_numbered, h1.nfree, hreplay]
  exact ⟨t, q, m.tail0, { h3 with },
    recovered_of_replay (m := m) h2 h1 (by rw [hstart]; exact hle) h3.q_le h3.leader.head (by rw [hstart]) rfl rfl
      (by rw [hstart]), h2.groups, hle, rfl⟩

section

variable {tl : Nat} (hd : DiskInv base size w.committed tl w.disk)

include hd

theorem Mounter.readSector_inv (hpc : m.pc = .loading) (bda : Nat) : MountInv c base size w { m with
    node := { m.node with metabuf := fun k => if k.1 = bda then w.disk.sectors k else m.node.metabuf k }
    loaded := bda :: m.loaded, tail1 := if m.loaded.isEmpty then w.disk.leader.tailTxid else m.tail1 } := by
  unfold MountInv at hm ⊢
  rw [hpc] at hm
  dsimp only at hm ⊢
  obtain ⟨h1, h2⟩ := hm
  rw [hpc]
  have htail : (if m.loaded.isEmpty then w.disk.leader.tailTxid else m.tail1) ≤ w.disk.leader.tailTxid := by
    split
    · exact le_refl _
    · exact h2
  refine ⟨{ h1 with taken := fun b hb i => ?_ }, htail⟩
  show Taken base w.committed (if m.loaded.isEmpty then w.disk.leader.tailTxid else m.tail1) w.committed.length (b, i)
    (if b = bda then w.disk.sectors (b, i) else m.node.metabuf (b, i))
  by_cases hbda : b = bda
  · rw [if_pos hbda]
    exact (hd.sectors (b, i)).mono htail (le_refl _)
  · have hb : b ∈ m.loaded := (List.mem_cons.mp hb).resolve_left hbda
    rw [if_neg hbda, if_neg (by rw [List.isEmpty_iff]; exact List.ne_nil_of_mem hb)]
    exact h1.taken b hb i

theorem Mounter.leaderLoad_inv (hi : WriterInv base size w) (hpc : m.pc = .anodes) :
    MountInv c base size w { m with node := m.node.setLeader w.disk.leader, pc := .leaderLoaded } := by
  unfold MountInv at hm
  rw [hpc] at hm
  obtain ⟨h1, h2⟩ := hm
  exact ⟨{ h1 with }, ⟨h2.all, h2.nfree⟩, le_refl _, Region.of_tail hi, _, hd.leader, hd.tail_le, le_refl _⟩

theorem Mounter.logLoad_inv (hpc : m.pc = .leaderLoaded) (hkept : tailKept ⟨w, m⟩ (.mounter .logLoad) = true) :
    MountInv c base size w (m.logLoad w.disk.leader) := by
  unfold MountInv at hm
  rw [hpc] at hm
  obtain ⟨h1, h2, h3, h4, q, h5, -, h6⟩ := hm
  have hhead := hd.leader.head
  unfold logLoad
  dsimp only
  rw [if_pos ⟨h3, by rw [h5.head, hhead]; exact h6⟩]
  split
  case isTrue => trivial
  case isFalse hgoes =>
  obtain ⟨hlr, hkept⟩ := (of_decide_eq_true hkept).resolve_left hgoes
  dsimp only at hlr hkept
  rw [hhead] at hkept ⊢
  split
  case isTrue heq =>
    -- nothing to scan: the tail has not moved either
    have htail : w.disk.leader.tailTxid = w.committed.length := by have := hd.tail_le; omega
    have hnil : txSlice w.committed m.tail1 w.committed.length = [] := by rw [← hlr, heq]; exact txSlice_self _
    rw [if_pos htail]
    refine recovered_of_replay (m := m) h1 h2 (by omega) (le_refl _) hhead ?_ h2.nfree rfl ?_
    · rw [hnil]; rfl
    · rw [hnil]; exact h1.replayed
  case isFalse hne =>
    have hstart : m.tail1 = m.tail0 := hkept.resolve_left fun h => hne (hlr.trans h.symm)
    have htail0 : m.node.leader.tailTxid = m.tail0 := hlr.trans hstart
    rw [htail0] at h3 h4 h5 hne ⊢
    have hread : HeadRead size w.committed m.tail0 w.disk.leader.tailTxid w.committed.length w.disk.leader :=
      ⟨hd.leader, h3, hd.tail_le, le_refl _, h4.fit⟩
    have hlt : m.tail0 < w.committed.length := lt_of_le_of_ne hread.start_le hne
    have hlen : (txSlice w.committed m.tail0 w.committed.length).length = w.committed.length - m.tail0 :=
      length_txSlice (le_refl _)
    have hscan := scanList_journalLog (txSlice w.committed m.tail0 w.committed.length) m.tail0
      (lsnAt w.committed m.tail0) none [] (by intro hnil; rw [hnil] at hlen; simp at hlen; omega)
      (fun tx htx => hd.txs tx (List.mem_of_mem_take (List.mem_of_mem_drop htx))) (le_refl m.tail0)
      (show m.tail0 + (txSlice w.committed m.tail0 w.committed.length).length = w.committed.length by omega)
      (by simp) (by simp)
    exact ⟨⟨h2.all, h2.nfree⟩, h4, hstart, htail0, h5.size, _, _, { h1 with }, hread,
      [], _, rfl, h5.tailOffset, by simpa using hscan⟩

theorem Mounter.readEntry_inv {latest : LeaderRecord} {offset : Nat} {st : ScanState β}
    (hpc : m.pc = .scanning latest offset st) : MountInv c base size w (m.readEntry w.disk latest offset st) := by
  unfold MountInv at hm
  rw [hpc] at hm
  obtain ⟨h1, h2, hstart, h3, hsize, t, q, h4, h5, done, rest, hlog, rfl, hscan⟩ := hm
  -- what is left to scan is in the ring
  have hring : RingHolds w.disk.ring size (lsnAt w.committed m.tail0 + done.length) rest := by
    have hall := h2.ring
    rw [journalLog_txSlice (le_trans h5.tail_le h5.le) h5.q_le h5.q_le, hlog, List.append_assoc] at hall
    intro i hi
    have := hall.drop i (by rw [List.length_append]; omega)
    rw [this, List.get_eq_getElem, List.getElem_append_left hi]
    rfl
  rcases rest with _ | ⟨e, rest⟩
  · cases hscan
  unfold readEntry
  dsimp only
  rw [hring.head, h3, h5.leader.head]
  rw [scanList] at hscan
  cases hstep : scanEntry m.tail0 q st e with
  | fail => rw [hstep] at hscan; cases hscan
  | done txs =>
    rw [hstep] at hscan
    cases hscan
    exact ⟨⟨h1.all, h1.nfree⟩, hstart, t, q, { h4 with },
      { h5 with leader := h5.leader.loadFrom hsize }, rfl⟩
  | more st' =>
    rw [hstep] at hscan
    refine ⟨⟨h1.all, h1.nfree⟩, h2, hstart, h3, hsize, t, q, { h4 with }, h5, done ++ [e], rest,
      by rw [hlog]; simp, ?_, hscan⟩
    rw [hsize, offModularAdd_eq_mod hd.pos hd.pos, List.length_append, List.length_singleton, Nat.add_assoc]

/-- The replayed transactions follow the groups' end one by one, so no assertion fails. -/
theorem Mounter.insert_inv {tx : Nat × TxOps β} {txs : List (Nat × TxOps β)}
    (hpc : m.pc = .inserting (tx :: txs)) : MountInv c base size w (m.insert o tx txs) := by
  unfold MountInv at hm
  rw [hpc] at hm
  obtain ⟨t, q, r, h1, h2, h3, h4, h5⟩ := hm
  have hlt : r < q := by
    rcases Nat.lt_or_eq_of_le h4 with hlt | rfl
    · exact hlt
    · rw [txSlice_self] at h5; cases h5
  have hrlen : r < w.committed.length := lt_of_lt_of_le hlt h1.q_le
  rw [txSlice_cons_of_lt hlt h1.q_le, numbered] at h5
  obtain ⟨rfl, rfl⟩ := List.cons.inj h5
  have hfit : (w.committed.get ⟨r, hrlen⟩).length ≤ size := by
    have ha := lsnAt_txSlice (h := w.committed) (le_trans h3.tail_le h4)
    rw [txSlice_append h3.tail_le h4, txSlice_cons_of_lt hlt h1.q_le] at ha
    simp only [List.map_append, List.map_cons, List.sum_append, List.sum_cons] at ha
    have := h1.fit
    omega
  obtain ⟨gs, hgs, hg, _⟩ := h3.addTrimentry (le_refl _) hd.pos hrlen hfit
  have hput : m.node.replaytxPut o false false (r + 1, w.committed.get ⟨r, hrlen⟩) = some (m.node.setGroups gs) := by
    simp only [Node.replaytxPut, h1.leader.size, hgs, Groups.tryswap, Option.bind_eq_bind, Option.bind_some,
      Bool.not_false, if_true]
  unfold insert
  rw [hput]
  dsimp only
  split
  case isTrue hnil =>
    have hlast : r + 1 = q := by
      rw [List.isEmpty_iff] at hnil
      have hlen := congrArg List.length (congrArg (List.map Prod.snd) hnil)
      rw [map_snd_numbered, length_txSlice h1.q_le] at hlen
      simp at hlen
      omega
    -- the final assertions: the groups end at the head
    have hdone : (m.node.setGroups gs).replaydone =
        some ((m.node.setGroups gs).setGroups (gs.delTrimentry m.node.leader.tailTxid)) := by
      unfold Node.replaydone
      rw [if_pos]
      · rfl
      · show (gs.workgrp.delete m.node.leader.tailTxid).rtxid = m.node.leader.headTxid ∧
          (gs.workgrp.delete m.node.leader.tailTxid).roffset = m.node.leader.headOffset
        rw [(TrimGroup.delete_right ..).1, (TrimGroup.delete_right ..).2, hg.rtxid, hg.roffset, h1.leader.head,
          h1.leader.headOffset, hlast]
        exact ⟨rfl, rfl⟩
    rw [hdone]
    exact { h2 with }
  case isFalse =>
    exact ⟨t, q, r + 1, h1, { h2 with }, hg, hlt, rfl⟩

end

theorem Mounter.step_inv {ev : MountEvent} (hi : WriterInv base size w)
    (hkept : tailKept ⟨w, m⟩ (.mounter ev) = true) (hs : m.step c o w.disk ev = some m') :
    MountInv c base size w m' := by
  obtain ⟨tl, hd⟩ := hi.disk
  unfold step at hs
  split at hs
  case h_1 => cases hs
  case h_2 => cases hs; trivial
  case h_3 => cases hs; exact preload_inv hd
  case h_4 bda hpc =>
    split at hs <;> cases hs
    exact readSector_inv hm hd hpc bda
  case h_5 hpc =>
    obtain ⟨hall, hs⟩ := Option.ite_none_right_eq_some.1 hs
    cases hs
    unfold MountInv at hm
    rw [hpc] at hm
    exact ⟨{ hm.1 with }, ⟨hall, rfl⟩⟩
  case h_6 hpc => cases hs; exact leaderLoad_inv hm hd hi hpc
  case h_7 hpc => cases hs; exact logLoad_inv hm hd hpc hkept
  case h_8 hpc => cases hs; exact readEntry_inv hm hd hpc
  case h_9 hpc => cases hs; exact replay_inv hm hpc
  case h_10 hpc => cases hs; exact insert_inv hm hd hpc
  case h_11 => cases hs

end

end Steps

/-! ## Every run -/

structure MountStateInv (c : MountConfig β) (base : Key → β) (size : Nat) (s : MountState β) : Prop where
  writer : WriterInv base size s.writer
  sync : s.writer.TailSync
  mounter : MountInv c base size s.writer s.mounter

theorem MountStateInv.mountExact {c : MountConfig β} {base : Key → β} {size : Nat} {s : MountState β}
    (hi : MountStateInv c base size s) : MountExact c base s := by
  have hm := hi.mounter
  unfold MountInv at hm
  constructor
  · intro hpc
    rw [hpc] at hm
    exact hm
  · intro hpc
    rw [hpc] at hm
    exact hm

/-- In every run of a mount next to a writer in which the tail is kept, no assertion of the mount fails and a mount
that serves holds exactly the metadata at the head it read last. -/
theorem online_mount_exact {c : MountConfig β} {o : TrimOptions} {size : Nat} {base : Key → β} {s : MountState β}
    (hs : ((mountSystem c o size base).restrict fun s ev =>
      mountAssumed size s ev = true ∧ tailKept s ev = true).Reachable s) : MountExact c base s := by
  suffices hi : MountStateInv c base size s from hi.mountExact
  refine hs.invariant_restrict ?_ ?_
  · intro s h0
    refine ⟨Writer.init_inv h0.1, ?_, ?_⟩
    · rw [Writer.TailSync, Writer.stored, h0.1.2.2.2.1]
    · unfold MountInv; rw [h0.2]; trivial
  · intro s ev s' hi hok hstep
    cases ev with
    | writer wev =>
      obtain ⟨w, hw, rfl⟩ := Option.map_eq_some_iff.mp hstep
      have hclean : FailsCleanly wev := by
        have := hok.1
        simp only [mountAssumed, Bool.and_eq_true, decide_eq_true_eq] at this
        exact this.1
      exact ⟨Writer.step_inv hi.writer hclean.commitClean hw, hi.sync.step hclean hw,
        hi.mounter.advance hi.writer hi.sync hok.1 hw⟩
    | mounter mev =>
      obtain ⟨m, hm, rfl⟩ := Option.map_eq_some_iff.mp hstep
      exact ⟨hi.writer, hi.sync, step_inv hi.mounter hi.writer hok.2 hm⟩

/-! ## A tail that moves during the mount -/

/-- One metadata sector with one object, used when its value is not 0. -/
def oneSector : MountConfig Nat where
  sects := [5]
  objs := {(5, 0)}
  objs_mem := by decide
  used := fun v => v != 0

def MountState.fresh (size : Nat) : MountState Nat where
  writer := Writer.fresh size fun _ => 0
  mounter := ⟨⟨LeaderRecord.mkfs size, fun _ => 0, ⟨TrimGroup.init, TrimGroup.init⟩⟩, 0, [], 0, 0, [], .off⟩

theorem MountState.fresh_init (c : MountConfig Nat) (o : TrimOptions) {size : Nat} (hs : 0 < size) :
    (mountSystem c o size fun _ => 0).init (MountState.fresh size) :=
  ⟨Writer.fresh_init o hs _, rfl⟩

def MountPc.isServing : MountPc β → Bool
  | .serving => true
  | _ => false

theorem MountPc.eq_of_isServing {pc : MountPc β} (h : pc.isServing = true) : pc = .serving := by
  cases pc <;> first | rfl | cases h

/-- The mount reads a sector; the writer flushes it and advances the tail; the mount's next read of
the leader record finds nothing left to replay. -/
def movedTailRun : List (MountStep Nat) :=
  [.writer .mount, .writer (.commit [((5, 0), 7)]), .writer (.io .ok), .writer (.io .ok), .writer .apply,
    .mounter .preload, .mounter (.readSector 5), .mounter .initAnode,
    .writer .trim, .writer (.io .ok), .writer (.io .ok), .writer .delTrimentry,
    .mounter .leaderLoad, .mounter .logLoad]

/-- Without the condition on the tail a mount can serve without a committed transaction. -/
theorem not_online_mount_exact :
    ¬ ∀ (c : MountConfig Nat) (o : TrimOptions) (size : Nat) (s : MountState Nat),
      ((mountSystem c o size fun _ => 0).restrict fun s ev => mountAssumed size s ev = true).Reachable s →
        MountExact c (fun _ => 0) s := by
  intro hall
  have hs := ((mountSystem oneSector ⟨1, 1, 1⟩ 8 fun _ => 0).restrict fun s ev => mountAssumed 8 s ev = true).reachable_last
    (MountState.fresh 8) movedTailRun (MountState.fresh_init oneSector ⟨1, 1, 1⟩ (by decide)) (by decide +kernel)
  have hexact := (hall _ _ _ _ hs).serving (MountPc.eq_of_isServing (by decide +kernel))
  have hval := hexact.metabuf (5, 0) (by decide)
  revert hval
  decide +kernel

/-- A mount before whose first sector read the tail moves, and which finds nothing to replay; then one between whose
reads the writer commits, and trims after the tail was read twice. -/
def onlineRun : List (MountStep Nat) :=
  [.writer .mount, .writer (.commit [((5, 0), 3)]), .writer (.io .ok), .writer (.io .ok), .writer .apply,
    .mounter .preload, .writer .trim, .writer (.io .ok), .writer (.io .ok), .writer .delTrimentry,
    .mounter (.readSector 5), .mounter .initAnode, .mounter .leaderLoad, .mounter .logLoad, .mounter .giveUp,
    .writer (.commit [((5, 0), 7)]), .writer (.io .ok), .writer (.io .ok), .writer .apply,
    .mounter .preload, .mounter (.readSector 5), .writer (.commit [((5, 0), 0)]), .writer (.io .ok), .mounter .initAnode,
    .writer (.io .ok), .writer .apply, .mounter .leaderLoad,
    .writer .trim, .writer (.io .ok), .writer (.io .ok), .writer .delTrimentry,
    .mounter .logLoad, .mounter .readEntry, .writer (.commit [((5, 0), 9)]), .writer (.io .ok), .mounter .readEntry,
    .mounter .replay, .writer (.io .ok), .mounter .insert, .mounter .insert]

theorem online_mount_exact_onlineRun : ∃ s : MountState Nat,
    ((mountSystem oneSector ⟨1, 1, 1⟩ 8 fun _ => 0).restrict fun s ev =>
      mountAssumed 8 s ev = true ∧ tailKept s ev = true).Reachable s ∧
      s.mounter.pc = .serving ∧ s.writer.committed.length = 4 ∧ MountExact oneSector (fun _ => 0) s := by
  have hs := ((mountSystem oneSector ⟨1, 1, 1⟩ 8 fun _ => 0).restrict fun s ev =>
    mountAssumed 8 s ev = true ∧ tailKept s ev = true).reachable_last (MountState.fresh 8) onlineRun
      (MountState.fresh_init oneSector ⟨1, 1, 1⟩ (by decide)) (by decide +kernel)
  exact ⟨_, hs, MountPc.eq_of_isServing (by decide +kernel), by decide +kernel, online_mount_exact hs⟩

end PolarFs.Journal
