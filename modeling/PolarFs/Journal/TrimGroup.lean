/-
Trim groups (`pfs_log.cc`): the dirty sectors of a range `(ltxid, rtxid]` of transactions, each with
an image that is copied from memory some time after the sector was dirtied. Two groups follow each
other: transactions are inserted into the working one, the waiting one is flushed by a trim.

An assertion of the source that fails is `none` here.
-/
import PolarFs.Journal.Entry

namespace PolarFs.Journal

open RedoLog

/-- `pfs_sectbuf_t`; `s_buf` is `none` until the image is copied, `s_metabuf` is the sector `bda` of
the node's memory. -/
structure SectBuf (β : Type) where
  bda : Nat
  txid : Nat
  buf : Option (Nat → β)

/-- `pfs_trimgroup_t`; `g_sect_empty_first` is given by the sector's address, which is unique in a
group (`g_rootp`). -/
structure TrimGroup (β : Type) where
  ltxid : Nat
  rtxid : Nat
  roffset : Nat
  nsects : Int
  nsectsEmpty : Int
  sectEmptyFirst : Option Nat
  sects : List (SectBuf β)

/-- The handlers that call `pfs_log_tryswap_trimgroup`; the periodic call passes `LOG_NREQ`. -/
inductive HandleType where
  | write
  | replaydone
  | trim
  | resume
  | nreq
  deriving DecidableEq, Repr

/-- The tunables of trimming. -/
structure TrimOptions where
  nsectThreshold : Int
  ntxThreshold : Int
  nsectsSwapinmax : Int
  deriving DecidableEq, Repr

variable {β : Type} {sb : SectBuf β} {r l : List (SectBuf β)} {g g' : TrimGroup β} {txid : Nat} {metabuf : Key → β}

/-! ## Sector buffers -/

open TrimGroup

/-- The list around the first buffer of sector `bda`. -/
def sectSplit (bda : Nat) : List (SectBuf β) → Option (List (SectBuf β) × SectBuf β × List (SectBuf β))
  | [] => none
  | sb :: sbs =>
    if sb.bda = bda then some ([], sb, sbs)
    else (sectSplit bda sbs).map fun r => (sb :: r.1, r.2)

theorem sectSplit_eq_some {bda : Nat} : ∀ {L l r : List (SectBuf β)} {sb : SectBuf β},
    sectSplit bda L = some (l, sb, r) → L = l ++ sb :: r ∧ sb.bda = bda
  | [], _, _, _, h => by cases h
  | x :: L, l, r, sb, h => by
    unfold sectSplit at h
    split at h
    · cases h; exact ⟨rfl, ‹_›⟩
    · obtain ⟨⟨l', sb', r'⟩, hr, he⟩ := Option.map_eq_some_iff.mp h
      cases he
      obtain ⟨rfl, hb⟩ := sectSplit_eq_some hr
      exact ⟨rfl, hb⟩

theorem sectSplit_eq_none {bda : Nat} : ∀ {L : List (SectBuf β)},
    sectSplit bda L = none → ∀ sb ∈ L, sb.bda ≠ bda
  | [], _, _, hm => by cases hm
  | x :: L, h, sb, hm => by
    unfold sectSplit at h
    split at h
    · cases h
    · rcases List.mem_cons.mp hm with rfl | hm
      · assumption
      · exact sectSplit_eq_none (Option.map_eq_none_iff.mp h) sb hm

theorem sectSplit_of_mem {bda : Nat} {L : List (SectBuf β)} (hm : sb ∈ L) (hb : sb.bda = bda) :
    ∃ l x r, sectSplit bda L = some (l, x, r) := by
  cases hs : sectSplit bda L with
  | none => exact absurd hb (sectSplit_eq_none hs sb hm)
  | some t => exact ⟨t.1, t.2.1, t.2.2, rfl⟩

/-- `pfs_sectbuf_sync`: an image that is already copied takes the new value of the object. -/
def SectBuf.sync (sb : SectBuf β) (idx : Nat) (val : β) : SectBuf β :=
  { sb with buf := sb.buf.map fun img => Function.update img idx val }

/-- The number of sectors whose image is not copied. -/
def emptyCount (sects : List (SectBuf β)) : Nat := sects.countP fun sb => sb.buf.isNone

/-! ## `pfs_trimgroup_insert` -/

/-- `pfs_trimgroup_init`. -/
def TrimGroup.init : TrimGroup β := ⟨0, 0, 0, 0, 0, none, []⟩

/-- `pfs_trimgroup_ntx`. -/
def TrimGroup.ntx (g : TrimGroup β) : Int := (g.rtxid : Int) - g.ltxid

/-- The loop body of `pfs_trimgroup_insert`. -/
def TrimGroup.insertOp (txid : Nat) (g : TrimGroup β) (op : Key × β) : Option (TrimGroup β) :=
  match sectSplit op.1.1 g.sects with
  | some (before, sb2, after) =>
    -- a known sector moves to the tail, so that the list stays in the order of txids
    if sb2.txid ≤ txid ∧ (g.sectEmptyFirst.isSome ∨ sb2.buf.isSome) then
      some { g with
        sectEmptyFirst :=
          if g.sectEmptyFirst = some sb2.bda ∧ after ≠ [] then after.head?.map SectBuf.bda else g.sectEmptyFirst
        sects := before ++ after ++ [{ sb2.sync op.1.2 op.2 with txid := txid }] }
    else none
  | none =>
    if g.nsectsEmpty = 0 then
      if g.sectEmptyFirst = none then
        some { g with
          nsects := g.nsects + 1, nsectsEmpty := g.nsectsEmpty + 1, sectEmptyFirst := some op.1.1
          sects := g.sects ++ [⟨op.1.1, txid, none⟩] }
      else none
    else
      some { g with
        nsects := g.nsects + 1, nsectsEmpty := g.nsectsEmpty + 1
        sects := g.sects ++ [⟨op.1.1, txid, none⟩] }

/-- `pfs_trimgroup_insert`; `logused` is the number of log entries of the transaction. -/
def TrimGroup.insert (g : TrimGroup β) (txid logused : Nat) (ops : TxOps β) (logsize : Nat) :
    Option (TrimGroup β) :=
  if txid = g.rtxid + 1 then
    (ops.foldlM (insertOp txid) g).map fun g' =>
      { g' with rtxid := txid, roffset := offModularAdd g'.roffset logused logsize }
  else none

/-! ## `pfs_trimgroup_delete` -/

/-- The loop of `pfs_trimgroup_delete`: the buffers up to `toTxid` leave the head of the list. -/
def TrimGroup.deleteLoop (toTxid : Nat) (g : TrimGroup β) : List (SectBuf β) → TrimGroup β
  | [] => { g with sects := [] }
  | sb :: sbs =>
    if sb.txid ≤ toTxid then
      deleteLoop toTxid
        { g with
          nsects := g.nsects - 1
          nsectsEmpty := if sb.buf.isNone then g.nsectsEmpty - 1 else g.nsectsEmpty
          sectEmptyFirst :=
            if g.sectEmptyFirst = some sb.bda then sbs.head?.map SectBuf.bda else g.sectEmptyFirst } sbs
    else { g with sects := sb :: sbs }

/-- `pfs_trimgroup_delete`. -/
def TrimGroup.delete (g : TrimGroup β) (toTxid : Nat) : TrimGroup β :=
  if toTxid ≤ g.ltxid then g
  else
    let g' := deleteLoop toTxid g g.sects
    { g' with ltxid := min toTxid g'.rtxid }

/-! ## `pfs_log_tryswap_trimgroup` -/

/-- The copying loop of a swap-in, from `g_sect_empty_first` on: the buffers it walked over, the
images still missing and where it stopped. -/
def swapinLoop (metabuf : Key → β) (nswapin nempty : Int) :
    List (SectBuf β) → List (SectBuf β) × Int × Option Nat
  | [] => ([], nempty, none)
  | sb :: sbs =>
    if sb.buf.isNone then
      let sb' := { sb with buf := some fun i => metabuf (sb.bda, i) }
      if nempty - 1 = 0 then (sb' :: sbs, 0, some sb.bda)
      else if nswapin - 1 = 0 then (sb' :: sbs, nempty - 1, sbs.head?.map SectBuf.bda)
      else
        let r := swapinLoop metabuf (nswapin - 1) (nempty - 1) sbs
        (sb' :: r.1, r.2)
    else
      let r := swapinLoop metabuf nswapin nempty sbs
      (sb :: r.1, r.2)

/-- The swap-in of at most `nswapin` images. -/
def TrimGroup.swapin (metabuf : Key → β) (nswapin : Int) (g : TrimGroup β) : Option (TrimGroup β) :=
  match g.sectEmptyFirst.bind fun first => sectSplit first g.sects with
  | none => none
  | some (before, sb, after) =>
    let r := swapinLoop metabuf nswapin g.nsectsEmpty (sb :: after)
    let g' := { g with sects := before ++ r.1, nsectsEmpty := r.2.1 }
    if r.2.1 ≠ 0 then r.2.2.map fun stop => { g' with sectEmptyFirst := some stop }
    else some { g' with sectEmptyFirst := none }

/-- The two groups of a node's log. -/
structure Groups (β : Type) where
  workgrp : TrimGroup β
  waitgrp : TrimGroup β

/-- The working group is over one of its thresholds. -/
def TrimGroup.overThreshold (o : TrimOptions) (g : TrimGroup β) : Bool :=
  decide (g.ntx ≥ o.ntxThreshold ∨ g.nsects ≥ o.nsectThreshold)

/-- The label `direct_swap`. -/
def Groups.directSwap (o : TrimOptions) (gs : Groups β) (force : Bool) : Groups β :=
  if gs.waitgrp.ntx > 0 then gs
  else if !force && decide (gs.workgrp.nsects < o.nsectThreshold) && decide (gs.workgrp.ntx < o.ntxThreshold) then gs
  else
    -- the groups stay contiguous
    { waitgrp := gs.workgrp
      workgrp := { gs.waitgrp with
        ltxid := gs.workgrp.rtxid, rtxid := gs.workgrp.rtxid, roffset := gs.workgrp.roffset } }

/-- `pfs_log_tryswap_trimgroup`; `locked` is what `MOUNT_META_TRYRDLOCK` returns. -/
def Groups.tryswap (o : TrimOptions) (metabuf : Key → β) (writable force : Bool) (type : HandleType) (locked : Bool)
    (gs : Groups β) : Option (Groups β) :=
  let g := gs.workgrp
  let overThr := g.overThreshold o
  if !writable then some gs
  else if g.nsectsEmpty = 0 then some (gs.directSwap o force)
  else if !force && (type == .write || type == .replaydone) && !overThr then some gs
  else if g.sectEmptyFirst = none then none
  else if type != .write && !locked then some gs
  else
    (g.swapin metabuf (if !force && !overThr then o.nsectsSwapinmax else g.nsectsEmpty)).map fun g' =>
      if g'.nsectsEmpty ≠ 0 then { gs with workgrp := g' } else { gs with workgrp := g' }.directSwap o force

/-! ## What a group holds -/

/-- Sector `bda` is in the group. -/
def TrimGroup.Holds (g : TrimGroup β) (bda : Nat) : Prop := ∃ sb ∈ g.sects, sb.bda = bda

/-- The copied image of an object's sector has the value `v` for it. -/
def TrimGroup.Image (g : TrimGroup β) (k : Key) (v : β) : Prop :=
  ∃ sb ∈ g.sects, sb.bda = k.1 ∧ ∃ img, sb.buf = some img ∧ img k.2 = v

/-- `g_sect_empty_first`: null when every image is copied, else a sector before which all are. -/
def EmptyFirst (sects : List (SectBuf β)) : Option Nat → Prop
  | none => emptyCount sects = 0
  | some bda => 0 < emptyCount sects ∧ ∃ l sb r, sects = l ++ sb :: r ∧ sb.bda = bda ∧ emptyCount l = 0

/-- The representation invariant of a group, for transaction ids up to `hi`. -/
structure TrimGroup.Rep (g : TrimGroup β) (hi : Nat) : Prop where
  nodup : (g.sects.map SectBuf.bda).Nodup
  txids : ∀ sb ∈ g.sects, g.ltxid < sb.txid ∧ sb.txid ≤ hi
  nsects : g.nsects = g.sects.length
  nempty : g.nsectsEmpty = emptyCount g.sects
  first : EmptyFirst g.sects g.sectEmptyFirst

@[simp] theorem emptyCount_nil : emptyCount ([] : List (SectBuf β)) = 0 := rfl

@[simp] theorem emptyCount_append (l r : List (SectBuf β)) : emptyCount (l ++ r) = emptyCount l + emptyCount r :=
  List.countP_append ..

@[simp] theorem emptyCount_cons (sb : SectBuf β) (l : List (SectBuf β)) :
    emptyCount (sb :: l) = emptyCount l + if sb.buf.isNone then 1 else 0 :=
  List.countP_cons

@[simp] theorem SectBuf.sync_isNone (sb : SectBuf β) (idx : Nat) (val : β) :
    (sb.sync idx val).buf.isNone = sb.buf.isNone := by
  simp [SectBuf.sync]

/-- In a list without duplicates a buffer splits the list in one way only. -/
theorem sects_split_unique {l' r' : List (SectBuf β)} {x : SectBuf β} (hn : ((l ++ sb :: r).map SectBuf.bda).Nodup)
    (heq : l ++ sb :: r = l' ++ x :: r') (hx : x.bda = sb.bda) : l' = l ∧ x = sb ∧ r' = r := by
  rcases List.append_eq_append_iff.mp heq with ⟨m, rfl, hm⟩ | ⟨m, rfl, hm⟩
  · cases m with
    | nil => simp only [List.nil_append, List.cons.injEq] at hm; exact ⟨by simp, hm.1.symm, hm.2.symm⟩
    | cons y m =>
      simp only [List.cons_append, List.cons.injEq] at hm
      obtain ⟨rfl, rfl⟩ := hm
      simp [List.nodup_append, hx] at hn
  · cases m with
    | nil => simp only [List.nil_append, List.cons.injEq] at hm; exact ⟨by simp, hm.1, hm.2⟩
    | cons y m =>
      simp only [List.cons_append, List.cons.injEq] at hm
      obtain ⟨rfl, rfl⟩ := hm
      simp [List.nodup_append, hx] at hn

/-- Every image before the buffer that `g_sect_empty_first` names is copied. -/
theorem emptyCount_before {L : List (SectBuf β)} {bda : Nat} (heq : L = l ++ sb :: r) (hb : sb.bda = bda)
    (hn : ((l ++ sb :: r).map SectBuf.bda).Nodup) (h : EmptyFirst L (some bda)) : emptyCount l = 0 := by
  obtain ⟨_, l', x, r', heq', hx, hl'⟩ := h
  obtain ⟨rfl, _, _⟩ := sects_split_unique hn (heq.symm.trans heq') (hx.trans hb.symm)
  exact hl'

/-- A buffer that moves to the tail keeps the pointer's property, when the pointer steps over it. -/
theorem EmptyFirst.moveToTail {sb' : SectBuf β} {first : Option Nat} (hn : ((l ++ sb :: r).map SectBuf.bda).Nodup)
    (h : EmptyFirst (l ++ sb :: r) first) (hbda : sb'.bda = sb.bda) (hbuf : sb'.buf.isNone = sb.buf.isNone) :
    EmptyFirst (l ++ r ++ [sb']) (if first = some sb.bda ∧ r ≠ [] then r.head?.map SectBuf.bda else first) := by
  have hcount : emptyCount (l ++ r ++ [sb']) = emptyCount (l ++ sb :: r) := by
    simp only [emptyCount_append, emptyCount_cons, emptyCount_nil, hbuf]; omega
  cases first with
  | none => simpa only [EmptyFirst, hcount, reduceCtorEq, false_and, if_false] using h
  | some bda =>
    obtain ⟨hpos, l', x, r', heq, hx, hl'⟩ := h
    by_cases hfirst : bda = sb.bda
    · -- the pointer stands on the moved buffer
      obtain ⟨rfl, rfl, rfl⟩ := sects_split_unique hn heq (hx.trans hfirst)
      rcases r' with _ | ⟨y, r'⟩
      · simp only [ne_eq, not_true_eq_false, and_false, if_false]
        exact ⟨by rw [hcount]; exact hpos, l', sb', [], by simp, hbda.trans hfirst.symm, hl'⟩
      · rw [if_pos ⟨by rw [hfirst], by simp⟩]
        exact ⟨by rw [hcount]; exact hpos, l', y, r' ++ [sb'], by simp, rfl, hl'⟩
    · rw [if_neg (by simp [hfirst])]
      refine ⟨by rw [hcount]; exact hpos, ?_⟩
      have hne : x ≠ sb := by rintro rfl; exact hfirst hx.symm
      rcases List.append_eq_append_iff.mp heq with ⟨m, rfl, hm⟩ | ⟨m, rfl, hm⟩
      · cases m with
        | nil => simp only [List.nil_append, List.cons.injEq] at hm; exact absurd hm.1.symm hne
        | cons y m =>
          simp only [List.cons_append, List.cons.injEq] at hm
          obtain ⟨rfl, rfl⟩ := hm
          -- the moved buffer is before the pointer
          refine ⟨l ++ m, x, r' ++ [sb'], by simp, hx, ?_⟩
          simp only [emptyCount_append, emptyCount_cons] at hl' ⊢; omega
      · cases m with
        | nil => simp only [List.nil_append, List.cons.injEq] at hm; exact absurd hm.1 hne
        | cons y m =>
          simp only [List.cons_append, List.cons.injEq] at hm
          obtain ⟨rfl, rfl⟩ := hm
          exact ⟨l', x, m ++ r ++ [sb'], by simp, hx, hl'⟩

/-! ## Inserting -/

/-- What inserting one operation does to a well-formed group; no assertion fails. -/
structure TrimGroup.InsertedOp (g g' : TrimGroup β) (txid : Nat) (op : Key × β) : Prop where
  rep : g'.Rep txid
  ltxid : g'.ltxid = g.ltxid
  rtxid : g'.rtxid = g.rtxid
  roffset : g'.roffset = g.roffset
  holds : ∀ b, g'.Holds b ↔ b = op.1.1 ∨ g.Holds b
  image : ∀ k v, g'.Image k v → (k = op.1 ∧ v = op.2) ∨ (k ≠ op.1 ∧ g.Image k v)

theorem TrimGroup.insertOp_known {hi : Nat} (hg : g.Rep hi) (hhi : hi ≤ txid) (hl : g.ltxid < txid) (op : Key × β)
    (hs : sectSplit op.1.1 g.sects = some (l, sb, r)) :
    ∃ g', g.insertOp txid op = some g' ∧ g.InsertedOp g' txid op := by
  obtain ⟨heq, hb⟩ := sectSplit_eq_some hs
  have hmem : sb ∈ g.sects := by rw [heq]; simp
  have hassert : sb.txid ≤ txid ∧ (g.sectEmptyFirst.isSome ∨ sb.buf.isSome) := by
    refine ⟨le_trans (hg.txids sb hmem).2 hhi, ?_⟩
    -- with a null pointer every image is copied
    cases hf : g.sectEmptyFirst with
    | some b => exact Or.inl rfl
    | none =>
      have hzero := hg.first
      rw [hf, EmptyFirst, heq, emptyCount_append, emptyCount_cons] at hzero
      right
      cases hbuf : sb.buf with
      | none => simp [hbuf] at hzero
      | some img => rfl
  have hnodup := hg.nodup
  rw [heq] at hnodup
  have hfirst := hg.first
  rw [heq] at hfirst
  refine ⟨_, by rw [insertOp, hs]; exact if_pos hassert, ?_⟩
  refine ⟨⟨?_, ?_, ?_, ?_, ?_⟩, rfl, rfl, rfl, ?_, ?_⟩
  · simp only [SectBuf.sync, List.map_append, List.map_cons, List.map_nil]
    rw [List.map_append, List.map_cons] at hnodup
    refine (List.Perm.nodup_iff ?_).mp hnodup
    rw [List.append_assoc]
    exact List.Perm.append_left _ (List.perm_append_singleton _ _).symm
  · intro x hx
    rcases List.mem_append.mp hx with hx | hx
    · have hx' : x ∈ g.sects := by rw [heq]; rcases List.mem_append.mp hx with h | h <;> simp [h]
      exact ⟨(hg.txids x hx').1, le_trans (hg.txids x hx').2 hhi⟩
    · rw [List.mem_singleton.mp hx]; exact ⟨hl, le_refl _⟩
  · show g.nsects = _
    rw [hg.nsects, heq]; simp
  · show g.nsectsEmpty = _
    rw [hg.nempty, heq]
    simp only [emptyCount_append, emptyCount_cons, emptyCount_nil, SectBuf.sync_isNone]; omega
  · exact hfirst.moveToTail hnodup rfl (SectBuf.sync_isNone ..)
  · intro b
    simp only [TrimGroup.Holds, heq, SectBuf.sync, List.mem_append, List.mem_cons, List.not_mem_nil, or_false]
    constructor
    · rintro ⟨x, (hx | hx) | rfl, rfl⟩
      · exact Or.inr ⟨x, Or.inl hx, rfl⟩
      · exact Or.inr ⟨x, Or.inr (Or.inr hx), rfl⟩
      · exact Or.inl hb
    · rintro (rfl | ⟨x, hx | rfl | hx, rfl⟩)
      · exact ⟨_, Or.inr rfl, hb⟩
      · exact ⟨x, Or.inl (Or.inl hx), rfl⟩
      · exact ⟨_, Or.inr rfl, rfl⟩
      · exact ⟨x, Or.inl (Or.inr hx), rfl⟩
  · rintro k v ⟨x, hx, hxb, img, hbuf, hv⟩
    rcases List.mem_append.mp hx with hx | hx
    · -- another sector
      have hx' : x ∈ g.sects := by rw [heq]; rcases List.mem_append.mp hx with h | h <;> simp [h]
      refine Or.inr ⟨?_, x, hx', hxb, img, hbuf, hv⟩
      rintro rfl
      have hdup := (List.nodup_middle.mp (by rwa [List.map_append, List.map_cons] at hnodup))
      rw [List.nodup_cons, ← List.map_append, hb, ← hxb] at hdup
      exact hdup.1 (List.mem_map_of_mem hx)
    · rw [List.mem_singleton] at hx
      subst hx
      obtain ⟨img₀, hbuf₀, rfl⟩ := Option.map_eq_some_iff.mp hbuf
      by_cases hk : k = op.1
      · subst hk
        rw [Function.update_self] at hv
        exact Or.inl ⟨rfl, hv.symm⟩
      · refine Or.inr ⟨hk, sb, hmem, hxb, img₀, hbuf₀, ?_⟩
        rwa [Function.update_of_ne] at hv
        intro hidx
        exact hk (Prod.ext (hxb.symm.trans hb) hidx)

theorem TrimGroup.insertOp_new {hi : Nat} (hg : g.Rep hi) (hhi : hi ≤ txid) (hl : g.ltxid < txid) (op : Key × β)
    (hs : sectSplit op.1.1 g.sects = none) : ∃ g', g.insertOp txid op = some g' ∧ g.InsertedOp g' txid op := by
  have hnew := sectSplit_eq_none hs
  -- the pointer is null exactly when no image is missing
  have hfirst : EmptyFirst (g.sects ++ [⟨op.1.1, txid, none⟩])
      (if g.nsectsEmpty = 0 then some op.1.1 else g.sectEmptyFirst) := by
    have h := hg.first
    have hn := hg.nempty
    cases hf : g.sectEmptyFirst with
    | none =>
      rw [hf] at h
      rw [if_pos (by rw [hn]; exact_mod_cast h)]
      exact ⟨by simp, g.sects, _, [], rfl, rfl, h⟩
    | some b =>
      rw [hf] at h
      obtain ⟨hpos, l, sb, r, heq, hb, hl0⟩ := h
      rw [if_neg (by omega)]
      exact ⟨by simp, l, sb, r ++ [⟨op.1.1, txid, none⟩], by simp [heq], hb, hl0⟩
  have hnull : g.nsectsEmpty = 0 → g.sectEmptyFirst = none := by
    intro h0
    have h := hg.first
    have hn := hg.nempty
    cases hf : g.sectEmptyFirst with
    | none => rfl
    | some b => rw [hf] at h; have := h.1; omega
  refine ⟨{ g with
      nsects := g.nsects + 1, nsectsEmpty := g.nsectsEmpty + 1
      sectEmptyFirst := if g.nsectsEmpty = 0 then some op.1.1 else g.sectEmptyFirst
      sects := g.sects ++ [⟨op.1.1, txid, none⟩] }, ?_, ?_⟩
  · rw [insertOp, hs]
    by_cases h0 : g.nsectsEmpty = 0
    · simp only [h0, if_true, hnull h0]
    · simp only [h0, if_false]
  refine ⟨⟨?_, ?_, ?_, ?_, hfirst⟩, rfl, rfl, rfl, ?_, ?_⟩
  · rw [List.map_append, List.map_cons, List.map_nil]
    refine List.Nodup.append hg.nodup (by simp) ?_
    rw [List.disjoint_singleton, List.mem_map]
    rintro ⟨sb, hsb, h⟩
    exact hnew sb hsb h
  · intro x hx
    rcases List.mem_append.mp hx with hx | hx
    · exact ⟨(hg.txids x hx).1, le_trans (hg.txids x hx).2 hhi⟩
    · rw [List.mem_singleton.mp hx]; exact ⟨hl, le_refl _⟩
  · show g.nsects + 1 = _
    rw [hg.nsects]; simp
  · show g.nsectsEmpty + 1 = _
    rw [hg.nempty]; simp
  · intro b
    simp only [TrimGroup.Holds, List.mem_append, List.mem_singleton]
    constructor
    · rintro ⟨x, hx | rfl, rfl⟩
      · exact Or.inr ⟨x, hx, rfl⟩
      · exact Or.inl rfl
    · rintro (rfl | ⟨x, hx, rfl⟩)
      · exact ⟨_, Or.inr rfl, rfl⟩
      · exact ⟨x, Or.inl hx, rfl⟩
  · rintro k v ⟨x, hx, hxb, img, hbuf, hv⟩
    rcases List.mem_append.mp hx with hx | hx
    · refine Or.inr ⟨?_, x, hx, hxb, img, hbuf, hv⟩
      rintro rfl
      exact hnew x hx hxb
    · rw [List.mem_singleton] at hx; subst hx; cases hbuf

theorem TrimGroup.insertOp_spec {hi : Nat} (hg : g.Rep hi) (hhi : hi ≤ txid) (hl : g.ltxid < txid) (op : Key × β) :
    ∃ g', g.insertOp txid op = some g' ∧ g.InsertedOp g' txid op := by
  cases hs : sectSplit op.1.1 g.sects with
  | none => exact insertOp_new hg hhi hl op hs
  | some t => exact insertOp_known hg hhi hl op hs

/-- What inserting a transaction does to a well-formed group; no assertion fails. -/
structure TrimGroup.Inserted (g g' : TrimGroup β) (ops : TxOps β) : Prop where
  rep : g'.Rep (g.rtxid + 1)
  ltxid : g'.ltxid = g.ltxid
  rtxid : g'.rtxid = g.rtxid + 1
  holds : ∀ b, g'.Holds b ↔ (∃ op ∈ ops, op.1.1 = b) ∨ g.Holds b
  image : ∀ m k v, g'.Image k v →
    (k ∈ ops.map Prod.fst ∧ v = applyTx m ops k) ∨ (k ∉ ops.map Prod.fst ∧ g.Image k v)

theorem TrimGroup.foldlM_insertOp_spec {txid : Nat} : ∀ (ops : TxOps β) {g : TrimGroup β} {hi : Nat}, g.Rep hi →
    hi ≤ txid → g.ltxid < txid → ∃ g', ops.foldlM (insertOp txid) g = some g' ∧ g'.Rep txid ∧
      g'.ltxid = g.ltxid ∧ g'.roffset = g.roffset ∧ (∀ b, g'.Holds b ↔ (∃ op ∈ ops, op.1.1 = b) ∨ g.Holds b) ∧
      ∀ m k v, g'.Image k v →
        (k ∈ ops.map Prod.fst ∧ v = applyTx m ops k) ∨ (k ∉ ops.map Prod.fst ∧ g.Image k v)
  | [], g, hi, hg, hhi, hl =>
    ⟨g, rfl, { hg with txids := fun sb h => ⟨(hg.txids sb h).1, le_trans (hg.txids sb h).2 hhi⟩ },
      rfl, rfl, by simp, fun _ _ _ h => Or.inr ⟨by simp, h⟩⟩
  | op :: ops, g, hi, hg, hhi, hl => by
    obtain ⟨g₁, h₁, i₁⟩ := insertOp_spec hg hhi hl op
    obtain ⟨g', h', hrep, hlt, hro, hholds, himg⟩ :=
      foldlM_insertOp_spec ops i₁.rep (le_refl txid) (by rw [i₁.ltxid]; exact hl)
    refine ⟨g', by rw [List.foldlM_cons, h₁]; exact h', hrep, hlt.trans i₁.ltxid, hro.trans i₁.roffset, ?_, ?_⟩
    · intro b
      rw [hholds, i₁.holds]
      constructor
      · rintro (⟨o, ho, rfl⟩ | rfl | hb)
        · exact Or.inl ⟨o, List.mem_cons_of_mem _ ho, rfl⟩
        · exact Or.inl ⟨op, List.mem_cons_self .., rfl⟩
        · exact Or.inr hb
      · rintro (⟨o, ho, rfl⟩ | hb)
        · rcases List.mem_cons.mp ho with rfl | ho
          · exact Or.inr (Or.inl rfl)
          · exact Or.inl ⟨o, ho, rfl⟩
        · exact Or.inr (Or.inr hb)
    · intro m k v hv
      rw [List.map_cons, List.mem_cons, applyTx_cons]
      rcases himg (Function.update m op.1 op.2) k v hv with ⟨hk, rfl⟩ | ⟨hk, hv₁⟩
      · exact Or.inl ⟨Or.inr hk, rfl⟩
      · rcases i₁.image k v hv₁ with ⟨rfl, rfl⟩ | ⟨hne, hv₀⟩
        · exact Or.inl ⟨Or.inl rfl, by rw [applyTx_of_notMem _ _ hk, Function.update_self]⟩
        · exact Or.inr ⟨by rintro (h | h) <;> contradiction, hv₀⟩

theorem TrimGroup.insert_spec (hg : g.Rep g.rtxid) (hlr : g.ltxid ≤ g.rtxid) (n : Nat) (ops : TxOps β) (size : Nat) :
    ∃ g', g.insert (g.rtxid + 1) n ops size = some g' ∧ g.Inserted g' ops ∧
      g'.roffset = offModularAdd g.roffset n size := by
  obtain ⟨g', h', hrep, hlt, hro, hholds, himg⟩ :=
    foldlM_insertOp_spec ops hg (Nat.le_succ g.rtxid) (Nat.lt_succ_of_le hlr)
  refine ⟨{ g' with rtxid := g.rtxid + 1, roffset := offModularAdd g'.roffset n size }, ?_,
    ⟨?_, hlt, rfl, hholds, himg⟩, by rw [← hro]⟩
  · rw [insert, if_pos rfl]
    exact congrArg (Option.map _) h'
  · exact { hrep with }

/-- The contiguity assertion: a transaction enters the group only as the next one. -/
theorem TrimGroup.insert_txid {n size : Nat} {ops : TxOps β} (h : g.insert txid n ops size = some g') :
    txid = g.rtxid + 1 ∧ g'.rtxid = txid := by
  unfold insert at h
  split at h
  · obtain ⟨g₁, _, rfl⟩ := Option.map_eq_some_iff.mp h
    exact ⟨‹_›, rfl⟩
  · cases h

theorem TrimGroup.insertOp_right {op : Key × β} (h : g.insertOp txid op = some g') :
    g'.rtxid = g.rtxid ∧ g'.roffset = g.roffset := by
  unfold insertOp at h
  split at h
  · split at h <;> cases h
    exact ⟨rfl, rfl⟩
  · split at h
    · split at h <;> cases h
      exact ⟨rfl, rfl⟩
    · cases h
      exact ⟨rfl, rfl⟩

theorem TrimGroup.foldlM_insertOp_right {txid : Nat} : ∀ {ops : TxOps β} {g g' : TrimGroup β},
    ops.foldlM (insertOp txid) g = some g' → g'.rtxid = g.rtxid ∧ g'.roffset = g.roffset
  | [], g, g', h => by cases h; exact ⟨rfl, rfl⟩
  | op :: ops, g, g', h => by
    rw [List.foldlM_cons] at h
    obtain ⟨g₁, h1, h2⟩ := Option.bind_eq_some_iff.mp h
    obtain ⟨hr, ho⟩ := insertOp_right h1
    obtain ⟨hr', ho'⟩ := foldlM_insertOp_right h2
    exact ⟨hr'.trans hr, ho'.trans ho⟩

theorem TrimGroup.insert_right {n size : Nat} {ops : TxOps β} (h : g.insert txid n ops size = some g') :
    g'.rtxid = g.rtxid + 1 ∧ g'.roffset = offModularAdd g.roffset n size := by
  unfold insert at h
  obtain ⟨htx, h⟩ := Option.ite_none_right_eq_some.1 h
  obtain ⟨g₁, h1, rfl⟩ := Option.map_eq_some_iff.mp h
  exact ⟨htx, by rw [← (foldlM_insertOp_right h1).2]⟩

theorem TrimGroup.swapin_right {nswapin : Int} (h : g.swapin metabuf nswapin = some g') :
    g'.rtxid = g.rtxid ∧ g'.roffset = g.roffset := by
  unfold swapin at h
  split at h
  · cases h
  dsimp only at h
  split at h
  · obtain ⟨_, _, rfl⟩ := Option.map_eq_some_iff.mp h
    exact ⟨rfl, rfl⟩
  · cases h
    exact ⟨rfl, rfl⟩

/-! ## Deleting -/

theorem TrimGroup.delete_of_le {upto : Nat} (h : upto ≤ g.ltxid) : g.delete upto = g := if_pos h

theorem TrimGroup.delete_of_nil {upto : Nat} (hs : g.sects = []) (hlr : g.ltxid = g.rtxid) : g.delete upto = g := by
  rcases g with ⟨l, r, ro, n, e, f, ss⟩
  obtain rfl : ss = [] := hs
  obtain rfl : l = r := hlr
  by_cases hle : upto ≤ l
  · exact delete_of_le hle
  · rw [delete, if_neg hle]
    simp only [deleteLoop]
    rw [Nat.min_eq_right (by omega)]

theorem TrimGroup.deleteLoop_right (upto : Nat) : ∀ (sbs : List (SectBuf β)) (g : TrimGroup β),
    (g.deleteLoop upto sbs).rtxid = g.rtxid ∧ (g.deleteLoop upto sbs).roffset = g.roffset
  | [], _ => ⟨rfl, rfl⟩
  | sb :: sbs, g => by
    unfold deleteLoop
    split
    · exact deleteLoop_right upto sbs _
    · exact ⟨rfl, rfl⟩

theorem TrimGroup.delete_right (g : TrimGroup β) (upto : Nat) :
    (g.delete upto).rtxid = g.rtxid ∧ (g.delete upto).roffset = g.roffset := by
  unfold delete
  split
  · exact ⟨rfl, rfl⟩
  · exact deleteLoop_right upto _ g

/-- Deleting everything, in a group whose pointer is null: what is left is empty. -/
theorem TrimGroup.deleteLoop_all {upto : Nat} : ∀ (sbs : List (SectBuf β)) (g : TrimGroup β),
    (∀ sb ∈ sbs, sb.txid ≤ upto) → (∀ sb ∈ sbs, sb.buf.isSome) → g.sectEmptyFirst = none →
      g.deleteLoop upto sbs = { g with nsects := g.nsects - sbs.length, sects := [] }
  | [], g, _, _, _ => by simp [deleteLoop]
  | sb :: sbs, g, hle, hbuf, hf => by
    have hsome : sb.buf.isNone = false := by
      have := hbuf sb (List.mem_cons_self ..)
      cases h : sb.buf with
      | none => rw [h] at this; cases this
      | some _ => rfl
    rw [deleteLoop, if_pos (hle sb (List.mem_cons_self ..)), deleteLoop_all sbs _
      (fun x hx => hle x (List.mem_cons_of_mem _ hx)) (fun x hx => hbuf x (List.mem_cons_of_mem _ hx)) (by simp [hf])]
    simp only [hsome, hf, reduceCtorEq, if_false, Bool.false_eq_true, List.length_cons]
    congr 1
    push_cast
    omega

/-! ## Swapping in -/

/-- A buffer after a swap-in: unchanged, or its image is now the sector in memory. -/
def SectBuf.FilledFrom (metabuf : Key → β) (sb sb' : SectBuf β) : Prop :=
  sb' = sb ∨ (sb.buf = none ∧ sb' = { sb with buf := some fun i => metabuf (sb.bda, i) })

theorem swapinLoop_spec (metabuf : Key → β) : ∀ (L : List (SectBuf β)) (nswapin nempty : Int),
    nempty = emptyCount L → 0 < emptyCount L → ∀ r, swapinLoop metabuf nswapin nempty L = r →
      List.Forall₂ (SectBuf.FilledFrom metabuf) L r.1 ∧ r.2.1 = emptyCount r.1 ∧
      (r.2.1 ≠ 0 → ∃ l x t, r.1 = l ++ x :: t ∧ r.2.2 = some x.bda ∧ emptyCount l = 0)
  | [], _, _, _, hpos, _, _ => by simp at hpos
  | sb :: sbs, nswapin, nempty, hn, hpos, r, hr => by
    have hrefl : ∀ l : List (SectBuf β), List.Forall₂ (SectBuf.FilledFrom metabuf) l l := fun l =>
      List.forall₂_same.mpr fun x _ => Or.inl rfl
    rw [emptyCount_cons] at hn hpos
    unfold swapinLoop at hr
    by_cases hnone : sb.buf.isNone = true
    · simp only [hnone, if_true] at hn hpos hr
      have hfill : SectBuf.FilledFrom metabuf sb { sb with buf := some fun i => metabuf (sb.bda, i) } :=
        Or.inr ⟨Option.isNone_iff_eq_none.mp hnone, rfl⟩
      split at hr
      · -- the last missing image
        subst hr
        refine ⟨List.Forall₂.cons hfill (hrefl sbs), ?_, fun h => absurd rfl h⟩
        simp only [emptyCount_cons, Option.isNone_some, Bool.false_eq_true, if_false]
        omega
      split at hr
      · -- the quota is used up: the next buffer exists, an image is still missing
        subst hr
        refine ⟨List.Forall₂.cons hfill (hrefl sbs), ?_, fun _ => ?_⟩
        · simp only [emptyCount_cons, Option.isNone_some, Bool.false_eq_true, if_false]
          omega
        · rcases sbs with _ | ⟨y, sbs⟩
          · simp at hn; omega
          · exact ⟨[_], y, sbs, rfl, rfl, by simp⟩
      · subst hr
        obtain ⟨h1, h2, h3⟩ := swapinLoop_spec metabuf sbs (nswapin - 1) (nempty - 1) (by omega) (by omega) _ rfl
        refine ⟨List.Forall₂.cons hfill h1, ?_, fun h => ?_⟩
        · simp only [emptyCount_cons, Option.isNone_some, Bool.false_eq_true, if_false, h2]
          omega
        · obtain ⟨l, x, t, hl, hx, he⟩ := h3 h
          exact ⟨{ sb with buf := some fun i => metabuf (sb.bda, i) } :: l, x, t, by simp [hl], hx, by simp [he]⟩
    · simp only [hnone, if_false, Bool.false_eq_true, Nat.add_zero] at hn hpos hr
      subst hr
      obtain ⟨h1, h2, h3⟩ := swapinLoop_spec metabuf sbs nswapin nempty hn hpos _ rfl
      refine ⟨List.Forall₂.cons (Or.inl rfl) h1, ?_, fun h => ?_⟩
      · simp only [emptyCount_cons, hnone, if_false, Bool.false_eq_true, Nat.add_zero]
        exact h2
      · obtain ⟨l, x, t, hl, hx, he⟩ := h3 h
        exact ⟨sb :: l, x, t, by simp [hl], hx, by simp [he, hnone]⟩

/-- A group after a swap-in of some of its missing images. -/
structure TrimGroup.Filled (metabuf : Key → β) (g g' : TrimGroup β) : Prop where
  rep : g'.Rep g.rtxid
  ltxid : g'.ltxid = g.ltxid
  rtxid : g'.rtxid = g.rtxid
  roffset : g'.roffset = g.roffset
  sects : List.Forall₂ (SectBuf.FilledFrom metabuf) g.sects g'.sects

theorem TrimGroup.Filled.refl (metabuf : Key → β) (hg : g.Rep g.rtxid) : g.Filled metabuf g :=
  ⟨hg, rfl, rfl, rfl, List.forall₂_same.mpr fun _ _ => Or.inl rfl⟩

theorem SectBuf.FilledFrom.bda_eq {sb' : SectBuf β} (h : sb.FilledFrom metabuf sb') : sb'.bda = sb.bda := by
  rcases h with rfl | ⟨_, rfl⟩ <;> rfl

theorem SectBuf.FilledFrom.txid_eq {sb' : SectBuf β} (h : sb.FilledFrom metabuf sb') : sb'.txid = sb.txid := by
  rcases h with rfl | ⟨_, rfl⟩ <;> rfl

theorem forall₂_filledFrom_map_bda {l' : List (SectBuf β)} (h : List.Forall₂ (SectBuf.FilledFrom metabuf) l l') :
    l'.map SectBuf.bda = l.map SectBuf.bda := by
  induction h with
  | nil => rfl
  | cons hx _ ih => rw [List.map_cons, List.map_cons, hx.bda_eq, ih]

theorem forall₂_filledFrom_mem {l' : List (SectBuf β)} (h : List.Forall₂ (SectBuf.FilledFrom metabuf) l l') :
    ∀ x' ∈ l', ∃ x ∈ l, x.FilledFrom metabuf x' := by
  induction h with
  | nil => intro x' hx'; cases hx'
  | cons hx _ ih =>
    intro x' hx'
    rcases List.mem_cons.mp hx' with rfl | hx'
    · exact ⟨_, List.mem_cons_self .., hx⟩
    · obtain ⟨y, hy, hyx⟩ := ih x' hx'
      exact ⟨y, List.mem_cons_of_mem _ hy, hyx⟩

theorem TrimGroup.Filled.holds (h : g.Filled metabuf g') (b : Nat) : g'.Holds b ↔ g.Holds b := by
  have hmap := forall₂_filledFrom_map_bda h.sects
  have hiff : ∀ l : List (SectBuf β), (∃ sb ∈ l, sb.bda = b) ↔ b ∈ l.map SectBuf.bda := fun l => by
    rw [List.mem_map]
  rw [TrimGroup.Holds, TrimGroup.Holds, hiff, hiff, hmap]

theorem TrimGroup.Filled.image (h : g.Filled metabuf g') {k : Key} {v : β} (hv : g'.Image k v) :
    g.Image k v ∨ v = metabuf k := by
  obtain ⟨x', hx', hb, img, hbuf, rfl⟩ := hv
  obtain ⟨x, hx, rfl | ⟨_, rfl⟩⟩ := forall₂_filledFrom_mem h.sects x' hx'
  · exact Or.inl ⟨x', hx, hb, img, hbuf, rfl⟩
  · cases hbuf
    exact Or.inr (congrArg metabuf (Prod.ext hb rfl))

/-- The copying loop fills the group and leaves its pointer right. -/
theorem TrimGroup.filled_of_swapin (hg : g.Rep g.rtxid) {l₂ : List (SectBuf β)} {first : Option Nat}
    (heq : g.sects = l ++ sb :: l₂) {L : List (SectBuf β)} (hL : List.Forall₂ (SectBuf.FilledFrom metabuf) (sb :: l₂) L)
    (hfirst : EmptyFirst (l ++ L) first) :
    g.Filled metabuf { g with sects := l ++ L, nsectsEmpty := emptyCount (l ++ L), sectEmptyFirst := first } := by
  have hsects : List.Forall₂ (SectBuf.FilledFrom metabuf) g.sects (l ++ L) := by
    rw [heq]
    have hl : List.Forall₂ (SectBuf.FilledFrom metabuf) l l := List.forall₂_same.mpr fun _ _ => Or.inl rfl
    exact List.rel_append hl hL
  refine ⟨⟨?_, ?_, ?_, rfl, hfirst⟩, rfl, rfl, rfl, hsects⟩
  · rw [forall₂_filledFrom_map_bda hsects]
    exact hg.nodup
  · intro x' hx'
    obtain ⟨x, hx, hxx⟩ := forall₂_filledFrom_mem hsects x' hx'
    rw [hxx.txid_eq]
    exact hg.txids x hx
  · rw [hg.nsects, List.Forall₂.length_eq hsects]

theorem TrimGroup.swapin_spec (metabuf : Key → β) (nswapin : Int) (hg : g.Rep g.rtxid) (hne : g.nsectsEmpty ≠ 0) :
    ∃ g', g.swapin metabuf nswapin = some g' ∧ g.Filled metabuf g' := by
  have hpos : 0 < emptyCount g.sects := by have := hg.nempty; omega
  have hfirst := hg.first
  -- the pointer is not null, and points into the list
  cases hf : g.sectEmptyFirst with
  | none => rw [hf] at hfirst; exact absurd hfirst (Nat.ne_of_gt hpos)
  | some first =>
    rw [hf] at hfirst
    obtain ⟨_, l₀, x₀, r₀, heq₀, hx₀, hl₀⟩ := id hfirst
    obtain ⟨l, sb, after, hsplit⟩ := sectSplit_of_mem (show x₀ ∈ g.sects by rw [heq₀]; simp) hx₀
    obtain ⟨heq, hsb⟩ := sectSplit_eq_some hsplit
    -- everything before it is copied, so the loop sees every missing image
    have hl : emptyCount l = 0 := emptyCount_before heq hsb (by rw [← heq]; exact hg.nodup) hfirst
    have hcount : emptyCount g.sects = emptyCount (sb :: after) := by
      rw [heq, emptyCount_append, hl, Nat.zero_add]
    obtain ⟨h1, h2, h3⟩ := swapinLoop_spec metabuf (sb :: after) nswapin g.nsectsEmpty
      (by rw [hg.nempty, hcount]) (by omega) _ rfl
    rw [swapin, hf, Option.bind_some, hsplit]
    dsimp only
    generalize swapinLoop metabuf nswapin g.nsectsEmpty (sb :: after) = r at h1 h2 h3
    have hr : r.2.1 = emptyCount (l ++ r.1) := by rw [h2, emptyCount_append, hl, Nat.zero_add]
    rw [hr] at h3 ⊢
    by_cases hmore : (emptyCount (l ++ r.1) : Int) ≠ 0
    · obtain ⟨l', x, t, hlr, hx, he⟩ := h3 hmore
      have hptr : EmptyFirst (l ++ r.1) (some x.bda) :=
        ⟨by omega, l ++ l', x, t, by simp [hlr], rfl, by rw [emptyCount_append, hl, he]⟩
      exact ⟨_, by rw [if_pos hmore, hx]; rfl, filled_of_swapin hg heq h1 hptr⟩
    · refine ⟨_, if_neg hmore, filled_of_swapin hg heq h1 ?_⟩
      show emptyCount (l ++ r.1) = 0
      omega

/-- What a swap attempt leads to: the working group filled further, and possibly handed over to the
place of the waiting group, which then is empty, once every image is there. -/
structure Groups.Swapped (metabuf : Key → β) (gs gs' : Groups β) (g' : TrimGroup β) : Prop where
  filled : gs.workgrp.Filled metabuf g'
  cases : gs' = { gs with workgrp := g' } ∨
    (gs.waitgrp.ntx ≤ 0 ∧ emptyCount g'.sects = 0 ∧ gs' =
      { waitgrp := g'
        workgrp := { gs.waitgrp with ltxid := g'.rtxid, rtxid := g'.rtxid, roffset := g'.roffset } })

theorem Groups.directSwap_spec (o : TrimOptions) (force : Bool) {gs : Groups β} (hfill : gs.workgrp.Filled metabuf g')
    (h0 : emptyCount g'.sects = 0) : gs.Swapped metabuf ({ gs with workgrp := g' }.directSwap o force) g' := by
  refine ⟨hfill, ?_⟩
  unfold Groups.directSwap
  by_cases hntx : gs.waitgrp.ntx > 0
  · rw [if_pos hntx]; exact Or.inl rfl
  rw [if_neg hntx]
  split
  · exact Or.inl rfl
  · exact Or.inr ⟨by omega, h0, rfl⟩

theorem Groups.tryswap_spec (o : TrimOptions) (metabuf : Key → β) (writable force : Bool) (type : HandleType)
    (locked : Bool) {gs : Groups β} (hg : gs.workgrp.Rep gs.workgrp.rtxid) :
    ∃ gs' g', gs.tryswap o metabuf writable force type locked = some gs' ∧ gs.Swapped metabuf gs' g' := by
  have hrefl := TrimGroup.Filled.refl metabuf hg
  have hsame : gs.Swapped metabuf gs gs.workgrp := ⟨hrefl, Or.inl rfl⟩
  unfold Groups.tryswap
  dsimp only
  by_cases hw : (!writable) = true
  · rw [if_pos hw]; exact ⟨gs, _, rfl, hsame⟩
  rw [if_neg hw]
  by_cases hne : gs.workgrp.nsectsEmpty = 0
  · rw [if_pos hne]
    exact ⟨_, _, rfl, Groups.directSwap_spec o force hrefl (by have := hg.nempty; omega)⟩
  rw [if_neg hne]
  split
  · exact ⟨gs, _, rfl, hsame⟩
  obtain ⟨g', hg', hfill⟩ := swapin_spec metabuf
    (if (!force && !gs.workgrp.overThreshold o) = true then o.nsectsSwapinmax else gs.workgrp.nsectsEmpty) hg hne
  have hptr : gs.workgrp.sectEmptyFirst ≠ none := by
    intro hf
    rw [swapin, hf] at hg'
    cases hg'
  rw [if_neg hptr]
  split
  · exact ⟨gs, _, rfl, hsame⟩
  rw [hg', Option.map_some]
  by_cases hmore : g'.nsectsEmpty ≠ 0
  · rw [if_pos hmore]; exact ⟨_, g', rfl, hfill, Or.inl rfl⟩
  · rw [if_neg hmore]
    exact ⟨_, g', rfl, Groups.directSwap_spec o force hfill (by have := hfill.rep.nempty; omega)⟩

/-! ## Groups and the history of transactions -/

/-- The group holds every sector its transactions touch, and an object's value in a copied image is
the object's at some position from the group's end up to `hd`. -/
structure TrimGroup.Covers (m₀ : Key → β) (h : List (TxOps β)) (hd : Nat) (g : TrimGroup β) : Prop where
  rep : g.Rep g.rtxid
  le : g.ltxid ≤ g.rtxid
  hi : g.rtxid ≤ hd
  covers : ∀ k, Touches (txSlice h g.ltxid g.rtxid) k → g.Holds k.1
  image : ∀ k v, g.Image k v → Taken m₀ h g.rtxid hd k v

section Covers

variable {m₀ : Key → β} {h : List (TxOps β)} {hd : Nat} {g g' : TrimGroup β}

theorem TrimGroup.Covers.append (hc : g.Covers m₀ h hd) (hlen : hd ≤ h.length) (h' : List (TxOps β)) {hd' : Nat}
    (hhd : hd ≤ hd') : g.Covers m₀ (h ++ h') hd' := by
  refine ⟨hc.rep, hc.le, le_trans hc.hi hhd, ?_, fun k v hv => ?_⟩
  · rw [txSlice_append_of_le (le_trans hc.hi hlen)]
    exact hc.covers
  · exact ((hc.image k v hv).append hlen h').mono (le_refl _) hhd

/-- The next transaction of the history enters the group. -/
theorem TrimGroup.Covers.insert (hc : g.Covers m₀ h hd) (hlen : hd ≤ h.length) (hlt : g.rtxid < hd)
    (hi : g.Inserted g' (h.get ⟨g.rtxid, lt_of_lt_of_le hlt hlen⟩)) : g'.Covers m₀ h hd := by
  have hget : g.rtxid < h.length := lt_of_lt_of_le hlt hlen
  have hseg : txSlice h g.rtxid (g.rtxid + 1) = [h.get ⟨g.rtxid, hget⟩] := by
    rw [txSlice_succ (le_refl _) hget, txSlice_self, List.nil_append]
  refine ⟨by rw [hi.rtxid]; exact hi.rep, ?_, ?_, ?_, ?_⟩
  · rw [hi.ltxid, hi.rtxid]; exact le_trans hc.le (Nat.le_succ _)
  · rw [hi.rtxid]; exact hlt
  · rintro k ⟨tx, htx, hk⟩
    rw [hi.ltxid, hi.rtxid, txSlice_succ hc.le hget] at htx
    rw [hi.holds]
    rcases List.mem_append.mp htx with htx | htx
    · exact Or.inr (hc.covers k ⟨tx, htx, hk⟩)
    · rw [List.mem_singleton.mp htx] at hk
      obtain ⟨op, hop, rfl⟩ := List.mem_map.mp hk
      exact Or.inl ⟨op, hop, rfl⟩
  · intro k v hv
    rw [hi.rtxid]
    rcases hi.image (stateAt m₀ h g.rtxid) k v hv with ⟨_, rfl⟩ | ⟨hk, hv⟩
    · -- written by this transaction
      refine ⟨g.rtxid + 1, le_refl _, hlt, ?_⟩
      rw [stateAt_txSlice (Nat.le_succ g.rtxid), hseg, redo_cons, redo_nil]
    · refine (hc.image k v hv).raise ?_ hlt
      rw [hseg]
      rintro ⟨tx, htx, hk'⟩
      rw [List.mem_singleton.mp htx] at hk'
      exact hk hk'

theorem TrimGroup.Covers.fill (hc : g.Covers m₀ h hd) (hf : g.Filled (stateAt m₀ h hd) g') : g'.Covers m₀ h hd := by
  refine ⟨by rw [hf.rtxid]; exact hf.rep, ?_, ?_, fun k hk => ?_, fun k v hv => ?_⟩
  · rw [hf.ltxid, hf.rtxid]; exact hc.le
  · rw [hf.rtxid]; exact hc.hi
  · rw [hf.ltxid, hf.rtxid] at hk
    exact (hf.holds _).mpr (hc.covers k hk)
  · rw [hf.rtxid]
    rcases hf.image hv with hv | rfl
    · exact hc.image k v hv
    · exact Taken.stateAt hc.hi (le_refl hd)

theorem TrimGroup.covers_of_empty (hs : g.sects = []) (hn : g.nsects = 0) (he : g.nsectsEmpty = 0)
    (hf : g.sectEmptyFirst = none) (hlr : g.ltxid = g.rtxid) (hhd : g.rtxid ≤ hd) : g.Covers m₀ h hd := by
  refine ⟨⟨?_, ?_, ?_, ?_, ?_⟩, le_of_eq hlr, hhd, ?_, ?_⟩
  · simp [hs]
  · simp [hs]
  · simp [hs, hn]
  · simp [hs, he]
  · rw [hs, hf]; rfl
  · rintro k ⟨tx, htx, _⟩
    rw [hlr, txSlice_self] at htx
    cases htx
  · rintro k v ⟨sb, hsb, _⟩
    rw [hs] at hsb
    cases hsb

end Covers

end PolarFs.Journal
