/-
What a mount keeps at every moment: the allocation nodes agree with the objects as the running transaction
sees them, block tags are well formed in the cache and in the transaction, and the search trees hold only
blocks of their status. One lemma per operation of the transaction layer.
-/
import PolarFs.Meta.MetaTx

namespace PolarFs.Meta

open Function (update update_self update_of_ne update_eq_self forall_update_iff)
open MetaType

/-- A well-formed block tag of a used or unused block: discard state and count go together, and only a block
in use has a hole. -/
structure Blktag.Ok (used : Bool) (bt : Blktag) : Prop where
  clean : used = true → bt.dstatus = .none ∧ bt.ndiscard = 0
  ready : bt.dstatus = .ready → bt.ndiscard = 0
  inp : bt.dstatus = .inp → 0 < bt.ndiscard
  hole : used = false → bt.holeoff = 0 ∧ bt.holelen = 0

theorem Blktag.Ok.unused {used : Bool} {bt : Blktag} (h : bt.Ok used) (hs : bt.dstatus ≠ .none) : used = false := by
  cases hu : used with
  | false => rfl
  | true => exact absurd (h.clean hu).1 hs

/-- Well formed as an object of its type. -/
def MetaObj.Ok {α : Type*} (t : MetaType) (mo : MetaObj α) : Prop := t = .blktag → mo.bt.Ok mo.used

variable {no : Nat} {t : MetaType}

theorem Config.Valid.lt_bound {cfg : Config} (h : cfg.Valid (t, no)) : no < cfg.bound t := by
  have hchunk : no / 2 ^ (cfg.shape t).shift < cfg.nchunk := by
    rw [← Nat.shiftRight_eq_div_pow]
    exact h.1
  exact (Nat.div_lt_iff_lt_mul (Nat.two_pow_pos _)).1 hchunk

namespace Mount

variable {α : Type*} {cfg : Config} {s : Mount α} {tx : Tx α}

structure Ok (cfg : Config) (s : Mount α) : Prop where
  anode : ∀ t, (s.anode t).Ok (cfg.shape t) cfg.nchunk fun no => !(s.getMo (t, no)).used
  objs : ∀ k, (s.objs k).Ok k.1
  view : ∀ k, (s.getMo k).Ok k.1
  ready : ∀ no ∈ s.ready, cfg.Valid (.blktag, no) ∧ (s.getMo (.blktag, no)).bt.dstatus = .ready
  inp : ∀ no ∈ s.inp, cfg.Valid (.blktag, no) ∧ (s.objs (.blktag, no)).bt.dstatus = .inp ∧
    (s.getMo (.blktag, no)).bt.dstatus = .inp
  heads : ∀ tx, s.tx = some tx → tx.heads.Nodup ∧ ∀ k ∈ tx.heads, cfg.Valid k
  before : ∀ tx, s.tx = some tx → tx.before.objs = s.objs ∧
    ∀ t, (tx.before.anode t).Ok (cfg.shape t) cfg.nchunk fun no => !(s.objs (t, no)).used

/-! ## Operations on copies -/

theorem update_of_number_ne {β : Type*} {f : Key → β} {k : Key} {b : β} (h : t = k.1 → no ≠ k.2) :
    update f k b (t, no) = f (t, no) :=
  update_of_ne (fun he => h (congrArg Prod.fst he) (congrArg Prod.snd he)) ..

/-- An object changes, and with it the nodes of its type. -/
theorem anode_update {anode : MetaType → Root} {f : Key → MetaObj α} {k : Key} {mo : MetaObj α} {an : Root}
    (h : ∀ t, (anode t).Ok (cfg.shape t) cfg.nchunk fun no => !(f (t, no)).used)
    (han : an.Ok (cfg.shape k.1) cfg.nchunk (update (fun no => !(f (k.1, no)).used) k.2 (!mo.used))) (t : MetaType) :
    (update anode k.1 an t).Ok (cfg.shape t) cfg.nchunk fun no => !(update f k mo (t, no)).used := by
  refine (forall_update_iff anode fun t an => an.Ok (cfg.shape t) cfg.nchunk fun no => !(update f k mo (t, no)).used).2
    ⟨han.congr fun no _ => ?_, fun t ht => (h t).congr fun no _ => ?_⟩ t
  · by_cases hno : no = k.2
    · subst hno
      simp
    · rw [update_of_ne hno, update_of_number_ne fun _ => hno]
  · rw [update_of_number_ne fun he => absurd he ht]

theorem getMo_of_none (h : s.tx = none) : s.getMo = s.objs := by
  funext k
  rw [getMo, h]

theorem getMo_of_some (h : s.tx = some tx) (k : Key) :
    s.getMo k = if k ∈ tx.heads then tx.topLocal k else s.objs k := by
  rw [getMo, h]

/-- An operation on an object leaves everything but the transaction alone. -/
theorem write_eq (h : s.tx = some tx) (k : Key) (mo : MetaObj α) : s.write k mo = { s with tx := some { tx with
      heads := if k ∈ tx.heads then tx.heads else tx.heads ++ [k]
      topLocal := update tx.topLocal k mo } } := by
  by_cases hk : k ∈ tx.heads
  · simp [write, txopInit, h, hk]
  · simp [write, txopInit, h, hk]

theorem txopInit_eq (h : s.tx = some tx) (k : Key) : s.txopInit k = s.write k (s.getMo k) := by
  by_cases hk : k ∈ tx.heads
  · rw [write_eq h, getMo_of_some h, if_pos hk, if_pos hk, update_eq_self, txopInit, h]
    dsimp only
    rw [if_pos hk, ← h]
  · rw [write_eq h, getMo_of_some h, if_neg hk, if_neg hk]
    simp [txopInit, h, hk]

theorem getMo_write (h : s.tx.isSome) (k : Key) (mo : MetaObj α) : (s.write k mo).getMo = update s.getMo k mo := by
  obtain ⟨tx, htx⟩ := Option.isSome_iff_exists.1 h
  funext k'
  rw [write_eq htx, getMo]
  dsimp only
  by_cases hkk : k' = k
  · subst hkk
    by_cases hk : k' ∈ tx.heads <;> simp [hk]
  · rw [update_of_ne hkk, update_of_ne hkk, getMo_of_some htx]
    by_cases hk : k ∈ tx.heads <;> simp [hk, hkk]

theorem isSome_write (h : s.tx.isSome) (k : Key) (mo : MetaObj α) : (s.write k mo).tx.isSome := by
  obtain ⟨tx, htx⟩ := Option.isSome_iff_exists.1 h
  rw [write_eq htx]
  rfl

theorem anode_write (k : Key) (mo : MetaObj α) : (s.write k mo).anode = s.anode := by
  cases htx : s.tx with
  | none => simp [write, txopInit, htx]
  | some tx => rw [write_eq htx]

theorem objs_write (k : Key) (mo : MetaObj α) : (s.write k mo).objs = s.objs := by
  cases htx : s.tx with
  | none => simp [write, txopInit, htx]
  | some tx => rw [write_eq htx]

theorem ready_write (k : Key) (mo : MetaObj α) : (s.write k mo).ready = s.ready := by
  cases htx : s.tx with
  | none => simp [write, txopInit, htx]
  | some tx => rw [write_eq htx]

theorem inp_write (k : Key) (mo : MetaObj α) : (s.write k mo).inp = s.inp := by
  cases htx : s.tx with
  | none => simp [write, txopInit, htx]
  | some tx => rw [write_eq htx]

/-- The nodes and the tree may be changed before the copy or after it. -/
theorem write_setAnode (ready : Finset Nat) (t : MetaType) (an : Root) (k : Key) (mo : MetaObj α) :
    ({ s with ready := ready }.setAnode t an).write k mo = { s.write k mo with ready := ready }.setAnode t an := by
  cases htx : s.tx with
  | none => simp [write, txopInit, setAnode, htx]
  | some tx => by_cases hk : k ∈ tx.heads <;> simp [write, txopInit, setAnode, htx, hk]

/-- `s'` is `s` after an operation of the running transaction on one object. -/
structure Edited (s s' : Mount α) (k : Key) (mo : MetaObj α) : Prop where
  open_ : s.tx.isSome
  view : s'.getMo = Function.update s.getMo k mo
  objs : s'.objs = s.objs
  inp : s'.inp = s.inp
  tx : ∀ tx, s.tx = some tx → ∃ heads topLocal, s'.tx = some { tx with heads := heads, topLocal := topLocal }

theorem edited_write (h : s.tx.isSome) (k : Key) (mo : MetaObj α) (ready : Finset Nat) (t : MetaType) (an : Root) :
    Edited s ({ s.write k mo with ready := ready }.setAnode t an) k mo where
  open_ := h
  view := getMo_write h k mo
  objs := objs_write k mo
  inp := inp_write k mo
  tx _ htx := ⟨_, _, congrArg Mount.tx (write_eq htx k mo)⟩

/-- What an allocation gives: an object that was unused, of a block one not in discard, and that is in use
now; the tree of ready blocks loses it. -/
structure Allocated (cfg : Config) (s s' : Mount α) (t : MetaType) (no : Nat) : Prop where
  valid : cfg.Valid (t, no)
  unused : (s.getMo (t, no)).used = false
  notInp : t = .blktag → (s.getMo (t, no)).bt.dstatus ≠ .inp
  edited : ∃ mo, Edited s s' (t, no) mo ∧ mo.used = true ∧ (t = .blktag → mo.bt.dstatus = .none)
  ready : s'.ready = if t = .blktag then s.ready.erase no else s.ready
  ok : s'.Ok cfg

/-- What freeing a used object gives: it is unused, and a block waits for its discard. -/
structure Freed (cfg : Config) (s s' : Mount α) (k : Key) : Prop where
  edited : ∃ mo, Edited s s' k mo ∧ mo.used = false ∧ (k.1 = .blktag → mo.bt.dstatus = .ready)
  ready : s'.ready = if k.1 = .blktag then insert k.2 s.ready else s.ready
  ok : s'.Ok cfg

namespace Ok

variable (h : s.Ok cfg) {s' : Mount α} {top : Option Nat}

include h

theorem unused_of_ready (hr : no ∈ s.ready) : (s.getMo (.blktag, no)).used = false :=
  (h.view (.blktag, no) rfl).unused (by rw [(h.ready no hr).2]; simp)

theorem anodeAlloc_some (ha : s.anodeAlloc cfg t = some (no, s')) :
    cfg.Valid (t, no) ∧ metasetAlloc t (s.getMo (t, no)) = true ∧
      ∃ an : Root, s' = s.setAnode t an ∧
        an.Ok (cfg.shape t) cfg.nchunk (update (fun no => !(s.getMo (t, no)).used) no false) := by
  obtain ⟨⟨val, an⟩, hroot, heq⟩ := Option.map_eq_some_iff.1 ha
  obtain ⟨rfl, rfl⟩ := Prod.mk.inj heq
  obtain ⟨hv, -, hacc, hok⟩ := (h.anode t).alloc_some hroot
  rw [Shape.mono_of_valid hv] at hacc
  exact ⟨hv, hacc, an, rfl, hok⟩

theorem anodeAlloc_none (ha : s.anodeAlloc cfg t = none) (hv : cfg.Valid (t, no)) :
    metasetAlloc t (s.getMo (t, no)) = false := by
  cases hu : (s.getMo (t, no)).used with
  | true => simp [metasetAlloc, hu]
  | false =>
    have hnone := (h.anode t).alloc_none (Option.map_eq_none_iff.1 ha) hv (by rw [hu]; rfl)
    rwa [Shape.mono_of_valid hv] at hnone

theorem pickBlktag_some (htop : bdGet s.ready top) (ha : s.pickBlktag cfg top = some (no, s')) :
    cfg.Valid (.blktag, no) ∧ metasetAlloc .blktag (s.getMo (.blktag, no)) = true ∧
      ∃ an : Root, s' = { s with ready := s.ready.erase no }.setAnode .blktag an ∧
        an.Ok (cfg.shape .blktag) cfg.nchunk (update (fun no => !(s.getMo (.blktag, no)).used) no false) := by
  cases top with
  | some val =>
    obtain ⟨rfl, rfl⟩ := Prod.mk.inj (Option.some.inj ha)
    obtain ⟨hv, hst⟩ := h.ready val htop
    have hu := h.unused_of_ready htop
    refine ⟨hv, ?_, _, rfl, (h.anode .blktag).useOne hv (by rw [hu]; rfl)⟩
    rw [metasetAlloc, hu, hst]
    rfl
  | none =>
    obtain ⟨hv, hacc, an, rfl, han⟩ := h.anodeAlloc_some ha
    refine ⟨hv, hacc, an, ?_, han⟩
    have hempty : s.ready = ∅ := htop
    rw [hempty, Finset.erase_empty, ← hempty]

/-- No space is reported only when every object is in use or, of a block, in discard. -/
theorem metaAlloc_none (ha : s.metaAlloc cfg t top = none) (hv : cfg.Valid (t, no)) :
    metasetAlloc t (s.getMo (t, no)) = false := by
  cases t with
  | blktag =>
    have hpick := Option.map_eq_none_iff.1 ha
    cases top with
    | some val => cases hpick
    | none => exact h.anodeAlloc_none hpick hv
  | direntry | inode => exact h.anodeAlloc_none (Option.map_eq_none_iff.1 ha) hv

variable (htx : s.tx.isSome) {k : Key}

include htx

/-- One operation: the copy of an object, the nodes of its type and the tree of ready blocks change together. -/
theorem write (hv : cfg.Valid k) {mo : MetaObj α} (hmo : mo.Ok k.1) {an : Root}
    (han : an.Ok (cfg.shape k.1) cfg.nchunk (update (fun no => !(s.getMo (k.1, no)).used) k.2 (!mo.used)))
    (ready : Finset Nat) (hready : ∀ no ∈ ready, cfg.Valid (.blktag, no) ∧
      (update s.getMo k mo (.blktag, no)).bt.dstatus = .ready)
    (hinp : ∀ no ∈ s.inp, k = (.blktag, no) → mo.bt.dstatus = .inp) :
    Ok cfg ({ s.write k mo with ready := ready }.setAnode k.1 an) := by
  have hview : ({ s.write k mo with ready := ready }.setAnode k.1 an).getMo = update s.getMo k mo :=
    getMo_write htx k mo
  obtain ⟨tx, heq⟩ := Option.isSome_iff_exists.1 htx
  constructor
  case anode =>
    intro t
    rw [hview]
    show ((update (s.write k mo).anode k.1 an) t).Ok _ _ _
    rw [anode_write]
    exact anode_update h.anode han t
  case objs =>
    intro k'
    show ((s.write k mo).objs k').Ok _
    rw [objs_write]
    exact h.objs k'
  case view =>
    rw [hview]
    exact (forall_update_iff s.getMo fun k mo => mo.Ok k.1).2 ⟨hmo, fun k' _ => h.view k'⟩
  case ready =>
    intro no hno
    rw [hview]
    exact hready no hno
  case inp =>
    intro no hno
    replace hno : no ∈ s.inp := by
      rw [← inp_write k mo]
      exact hno
    obtain ⟨hval, hobj, hcopy⟩ := h.inp no hno
    refine ⟨hval, ?_, ?_⟩
    · show ((s.write k mo).objs _).bt.dstatus = _
      rwa [objs_write]
    · rw [hview]
      by_cases hk : (blktag, no) = k
      · rw [hk, update_self]
        exact hinp no hno hk.symm
      · rwa [update_of_ne hk]
  case heads =>
    intro tx' htx'
    obtain ⟨hnd, hall⟩ := h.heads tx heq
    replace htx' : (s.write k mo).tx = some tx' := htx'
    rw [write_eq heq] at htx'
    cases htx'
    dsimp only
    by_cases hk : k ∈ tx.heads
    · rw [if_pos hk]
      exact ⟨hnd, hall⟩
    rw [if_neg hk]
    refine ⟨List.nodup_append.2 ⟨hnd, List.nodup_singleton k, ?_⟩, fun k' hk' => ?_⟩
    · intro a ha b hb hab
      rw [List.mem_singleton] at hb
      exact hk (hb ▸ hab ▸ ha)
    · rcases List.mem_append.1 hk' with hk' | hk'
      · exact hall k' hk'
      · rw [List.mem_singleton] at hk'
        exact hk' ▸ hv
  case before =>
    intro tx' htx'
    replace htx' : (s.write k mo).tx = some tx' := htx'
    have hobjs : ({ s.write k mo with ready := ready }.setAnode k.1 an).objs = s.objs := objs_write k mo
    rw [write_eq heq] at htx'
    cases htx'
    rw [hobjs]
    exact h.before tx heq

theorem write_same (hv : cfg.Valid k) {mo : MetaObj α} (hmo : mo.Ok k.1) (hused : mo.used = (s.getMo k).used)
    (hready : ∀ no ∈ s.ready, k = (.blktag, no) → mo.bt.dstatus = .ready)
    (hinp : ∀ no ∈ s.inp, k = (.blktag, no) → mo.bt.dstatus = .inp) : (s.write k mo).Ok cfg := by
  have han : (s.anode k.1).Ok (cfg.shape k.1) cfg.nchunk
      (update (fun no => !(s.getMo (k.1, no)).used) k.2 (!mo.used)) := by
    refine (h.anode k.1).congr fun no _ => ?_
    by_cases hno : no = k.2
    · subst hno
      rw [update_self, hused]
    · rw [update_of_ne hno]
  have hok := h.write htx hv hmo han s.ready (fun no hno => ?_) hinp
  · have hself : ({ s.write k mo with ready := s.ready }.setAnode k.1 (s.anode k.1)) = s.write k mo := by
      rw [setAnode]
      dsimp only
      rw [anode_write, update_eq_self, ← anode_write k mo, ← ready_write k mo]
    rwa [hself] at hok
  · obtain ⟨hval, hst⟩ := h.ready no hno
    refine ⟨hval, ?_⟩
    by_cases hk : (blktag, no) = k
    · rw [hk, update_self]
      exact hready no hno hk.symm
    · rwa [update_of_ne hk]

theorem allocCommon_some (ht : t ≠ .blktag) (ha : s.allocCommon cfg t = some (no, s')) : Allocated cfg s s' t no := by
  obtain ⟨⟨val, s1⟩, hpick, heq⟩ := Option.map_eq_some_iff.1 ha
  obtain ⟨rfl, rfl⟩ := Prod.mk.inj heq
  obtain ⟨hv, hacc, an, rfl, han⟩ := h.anodeAlloc_some hpick
  have hu : (s.getMo (t, val)).used = false := by
    rw [metasetAlloc, Bool.and_eq_true, Bool.not_eq_true'] at hacc
    exact hacc.1
  have hswap : (s.setAnode t an).write (t, val) { (s.setAnode t an).getMo (t, val) with used := true } =
      { s.write (t, val) { s.getMo (t, val) with used := true } with ready := s.ready }.setAnode t an :=
    write_setAnode s.ready t an (t, val) _
  have hok : Ok cfg ({ s.write (t, val) { s.getMo (t, val) with used := true } with ready := s.ready }.setAnode t an) :=
    h.write htx hv (fun hb => absurd hb ht) han s.ready (fun no hno => ?_)
      (fun no _ hk => absurd (congrArg Prod.fst hk) ht)
  · show Allocated cfg s ((s.setAnode t an).write (t, val) { (s.setAnode t an).getMo (t, val) with used := true }) t val
    rw [hswap]
    refine ⟨hv, hu, fun hb => absurd hb ht, ⟨_, edited_write htx _ _ _ _ _, rfl, fun hb => absurd hb ht⟩, ?_, hok⟩
    rw [if_neg ht]
    rfl
  · rw [update_of_number_ne fun he => absurd he.symm ht]
    exact h.ready no hno

theorem allocBlktag_some (htop : bdGet s.ready top) (ha : s.allocBlktag cfg top = some (no, s')) :
    Allocated cfg s s' .blktag no := by
  obtain ⟨⟨val, s1⟩, hpick, heq⟩ := Option.map_eq_some_iff.1 ha
  obtain ⟨rfl, rfl⟩ := Prod.mk.inj heq
  obtain ⟨hv, hacc, an, rfl, han⟩ := h.pickBlktag_some htop hpick
  obtain ⟨hu, hinp⟩ : (s.getMo (.blktag, val)).used = false ∧ (s.getMo (.blktag, val)).bt.dstatus ≠ .inp := by
    rw [metasetAlloc, Bool.and_eq_true, Bool.not_eq_true'] at hacc
    exact ⟨hacc.1, by simpa using hacc.2⟩
  generalize hmo : ({ s.getMo (.blktag, val) with used := true, bt := ⟨.none, 0, 0, cfg.holelen⟩ } : MetaObj α) = mo
  have hmook : mo.Ok .blktag := by
    intro _
    rw [← hmo]
    exact ⟨fun _ => ⟨rfl, rfl⟩, nofun, nofun, nofun⟩
  have hused : mo.used = true := by rw [← hmo]
  have hok := h.write htx hv hmook (by rw [hused]; exact han) (s.ready.erase val) (fun no hno => ?_) (fun no hno hk => ?_)
  · show Allocated cfg s (({ s with ready := s.ready.erase val }.setAnode .blktag an).write (.blktag, val)
      { s.getMo (.blktag, val) with used := true, bt := ⟨.none, 0, 0, cfg.holelen⟩ }) .blktag val
    rw [hmo, write_setAnode]
    refine ⟨hv, hu, fun _ => hinp, ⟨mo, edited_write htx _ _ _ _ _, hused, fun _ => by rw [← hmo]⟩, ?_, hok⟩
    rw [if_pos rfl]
    rfl
  · obtain ⟨hne, hno⟩ := Finset.mem_erase.1 hno
    rw [update_of_number_ne fun _ => hne]
    exact h.ready no hno
  · obtain rfl : val = no := congrArg Prod.snd hk
    exact absurd (h.inp val hno).2.2 hinp

theorem metaAlloc_some (htop : bdGet s.ready top) (ha : s.metaAlloc cfg t top = some (no, s')) :
    Allocated cfg s s' t no := by
  cases t with
  | blktag => exact h.allocBlktag_some htx htop ha
  | direntry | inode => exact h.allocCommon_some htx (by simp) ha

theorem freeCommon (ht : t ≠ .blktag) (hv : cfg.Valid (t, no)) (hu : (s.getMo (t, no)).used = true) :
    Freed cfg s (s.freeCommon cfg t no) (t, no) := by
  have hfree := (h.anode t).free hv (by rw [hu]; rfl)
  have hself : s.freeCommon cfg t no = { s.write (t, no) { s.getMo (t, no) with used := false } with
      ready := s.ready }.setAnode t ((s.anode t).free (cfg.shape t) no) := by
    rw [Mount.freeCommon, ← ready_write (t, no) { s.getMo (t, no) with used := false }]
  rw [hself]
  refine ⟨⟨_, edited_write htx _ _ _ _ _, rfl, fun hb => absurd hb ht⟩, (if_neg ht).symm,
    h.write htx hv (fun hb => absurd hb ht) hfree s.ready (fun n hn => ?_) fun n _ hk => absurd (congrArg Prod.fst hk) ht⟩
  rw [update_of_number_ne fun he => absurd he.symm ht]
  exact h.ready n hn

theorem freeBlktag (hv : cfg.Valid (.blktag, no)) (hu : (s.getMo (.blktag, no)).used = true) :
    Freed cfg s (s.freeBlktag cfg no) (.blktag, no) := by
  obtain ⟨hclean, hnd⟩ := (h.view (.blktag, no) rfl).clean hu
  have hfree := (h.anode .blktag).free hv (by rw [hu]; rfl)
  generalize hmo : ({ s.getMo (.blktag, no) with used := false, bt := { (s.getMo (.blktag, no)).bt with
    dstatus := .ready, holeoff := 0, holelen := 0 } } : MetaObj α) = mo
  have hused : mo.used = false := by rw [← hmo]
  have hst : mo.bt.dstatus = .ready := by rw [← hmo]
  have hself : s.freeBlktag cfg no = { s.write (.blktag, no) mo with ready := insert no s.ready }.setAnode .blktag
      ((s.anode .blktag).free (cfg.shape .blktag) no) := by
    rw [Mount.freeBlktag]
    dsimp only
    rw [hmo, ready_write]
  have hmook : mo.Ok .blktag := by
    intro _
    rw [← hmo]
    exact ⟨nofun, fun _ => hnd, nofun, fun _ => ⟨rfl, rfl⟩⟩
  rw [hself]
  refine ⟨⟨mo, edited_write htx _ _ _ _ _, hused, fun _ => hst⟩, (if_pos rfl).symm,
    h.write htx hv hmook (by rw [hused]; exact hfree) _ (fun n hn => ?_) fun n hn hk => ?_⟩
  · by_cases hno : n = no
    · rw [hno, update_self]
      exact ⟨hv, hst⟩
    · rw [update_of_number_ne fun _ => hno]
      exact h.ready n (Finset.mem_of_mem_insert_of_ne hn hno)
  · obtain rfl : no = n := congrArg Prod.snd hk
    rw [(h.inp no hn).2.2] at hclean
    cases hclean

theorem metaFree (hv : cfg.Valid k) (hu : (s.getMo k).used = true) : Freed cfg s (s.metaFree cfg k) k := by
  obtain ⟨t, no⟩ := k
  cases t with
  | blktag => exact h.freeBlktag htx hv hu
  | direntry | inode => exact h.freeCommon htx (by simp) hv hu

theorem edit (hv : cfg.Valid k) (hu : (s.getMo k).used = true) (data : α) (holeoff holelen : Nat) :
    (s.edit k data holeoff holelen).Ok cfg := by
  refine h.write_same htx hv (fun hb => ?_) rfl (fun no hno hk => ?_) (fun no hno hk => ?_)
  · obtain ⟨hclean, hready, hinp, -⟩ := h.view k hb
    exact ⟨hclean, hready, hinp, fun hn => absurd hn (by rw [hu]; simp)⟩
  · rw [hk, h.unused_of_ready hno] at hu
    cases hu
  · rw [hk, (h.view (.blktag, no) rfl).unused (by rw [(h.inp no hno).2.2]; simp)] at hu
    cases hu

end Ok

/-! ## Discard marks -/

/-- A mark is made on a block of its status that is in neither tree, and gives a well-formed tag. -/
structure MarkOk (mark : Finset Nat → Finset Nat → Nat → Blktag → Option Blktag) : Prop where
  ok : ∀ {ready inp no bt bt'}, mark ready inp no bt = some bt' → bt.Ok false → bt'.Ok false
  status : ∀ {ready inp no bt bt'}, mark ready inp no bt = some bt' → bt.dstatus ≠ .none
  ready : ∀ {ready inp no bt bt'}, mark ready inp no bt = some bt' → bt.dstatus = .ready → no ∉ ready
  inp : ∀ {ready inp no bt bt'}, mark ready inp no bt = some bt' → bt.dstatus = .inp → no ∉ inp

theorem markOk_inp : MarkOk markInp := by
  constructor <;> intro ready inp no bt bt' hm <;> unfold markInp at hm
  case ok =>
    intro hbt
    split at hm
    · split at hm
      · cases hm
      · cases hm
        exact ⟨nofun, nofun, fun _ => Nat.succ_pos _, hbt.hole⟩
    · rename_i hst
      split at hm
      · cases hm
      · cases hm
        exact ⟨nofun, fun hr => (by rw [hst] at hr; cases hr), fun _ => Nat.succ_pos _, hbt.hole⟩
    · cases hm
  case status => intro hst; rw [hst] at hm; cases hm
  case ready | inp =>
    intro hst hin
    rw [hst] at hm
    dsimp only at hm
    rw [if_pos hin] at hm
    cases hm

theorem markOk_done : MarkOk markDone := by
  constructor <;> intro ready inp no bt bt' hm <;> unfold markDone at hm
  case ok =>
    intro hbt
    split at hm
    · split at hm
      · cases hm
      · cases hm
        exact ⟨nofun, nofun, nofun, hbt.hole⟩
    · cases hm
    · cases hm
  case status | ready => intro hst; rw [hst] at hm; cases hm
  case inp =>
    intro hst hin
    rw [hst] at hm
    dsimp only at hm
    rw [if_pos hin] at hm
    cases hm

/-- The object of a block after an attempt to mark it. -/
def markObj (mark : Finset Nat → Finset Nat → Nat → Blktag → Option Blktag) (s : Mount α) (no : Nat) : MetaObj α :=
  { s.getMo (.blktag, no) with
    bt := (mark s.ready s.inp no (s.getMo (.blktag, no)).bt).getD (s.getMo (.blktag, no)).bt }

variable {mark : Finset Nat → Finset Nat → Nat → Blktag → Option Blktag}

theorem write_write (h : s.tx.isSome) (k : Key) (mo mo' : MetaObj α) : (s.write k mo).write k mo' = s.write k mo' := by
  obtain ⟨tx, htx⟩ := Option.isSome_iff_exists.1 h
  rw [write_eq htx k mo', write_eq htx k mo]
  by_cases hk : k ∈ tx.heads <;> simp [write, txopInit, hk]

theorem metaBdMark_eq (h : s.tx.isSome) (no : Nat) : metaBdMark mark s no =
    (s.write (.blktag, no) (markObj mark s no), (mark s.ready s.inp no (s.getMo (.blktag, no)).bt).isSome) := by
  obtain ⟨tx, htx⟩ := Option.isSome_iff_exists.1 h
  have hself : (s.write (.blktag, no) (s.getMo (.blktag, no))).getMo = s.getMo := by
    rw [getMo_write h, update_eq_self]
  unfold metaBdMark markObj
  dsimp only
  rw [txopInit_eq htx, hself, ready_write, inp_write]
  cases mark s.ready s.inp no (s.getMo (.blktag, no)).bt with
  | none => rfl
  | some bt =>
    dsimp only
    rw [write_write h]
    rfl

theorem Ok.metaBdMark (h : s.Ok cfg) (hm : MarkOk mark) (htx : s.tx.isSome) (hv : cfg.Valid (.blktag, no)) :
    (metaBdMark mark s no).1.Ok cfg := by
  rw [metaBdMark_eq htx]
  have hview := h.view (.blktag, no) rfl
  cases hbt : mark s.ready s.inp no (s.getMo (.blktag, no)).bt with
  | none =>
    have hobj : markObj mark s no = s.getMo (.blktag, no) := by rw [markObj, hbt]; rfl
    rw [hobj]
    refine h.write_same htx hv (fun _ => hview) rfl (fun n hn hk => ?_) (fun n hn hk => ?_)
    · rw [hk]
      exact (h.ready n hn).2
    · rw [hk]
      exact (h.inp n hn).2.2
  | some bt =>
    have hobj : markObj mark s no = { s.getMo (.blktag, no) with bt := bt } := by rw [markObj, hbt]; rfl
    have hunused := hview.unused (hm.status hbt)
    rw [hobj]
    refine h.write_same htx hv (fun _ => ?_) rfl (fun n hn hk => ?_) (fun n hn hk => ?_)
    · rw [hunused] at hview ⊢
      exact hm.ok hbt hview
    · obtain rfl : no = n := congrArg Prod.snd hk
      exact absurd hn (hm.ready hbt (h.ready no hn).2)
    · obtain rfl : no = n := congrArg Prod.snd hk
      exact absurd hn (hm.inp hbt (h.inp no hn).2.2)

/-- `s'` is `s` after the walk over `nos`: every block of the walk has an operation, those that could be marked
are, and nothing but the transaction changed. -/
structure Marked (mark : Finset Nat → Finset Nat → Nat → Blktag → Option Blktag) (s s' : Mount α)
    (nos changed : List Nat) : Prop where
  objs : s'.objs = s.objs
  ready : s'.ready = s.ready
  inp : s'.inp = s.inp
  view : ∀ k, s'.getMo k = if k.1 = .blktag ∧ k.2 ∈ nos then markObj mark s k.2 else s.getMo k
  changed : ∀ no, no ∈ changed ↔ no ∈ nos ∧ mark s.ready s.inp no (s.getMo (.blktag, no)).bt = none
  tx : ∀ tx, s.tx = some tx → ∃ heads topLocal, s'.tx = some { tx with heads := heads, topLocal := topLocal } ∧
    (∀ k ∈ tx.heads, k ∈ heads) ∧ ∀ no ∈ nos, (blktag, no) ∈ heads

theorem Ok.bdMarkWalk (hm : MarkOk mark) : ∀ (nos : List Nat) {s : Mount α}, s.Ok cfg → s.tx.isSome → nos.Nodup →
    (∀ no ∈ nos, cfg.Valid (.blktag, no)) →
    (bdMarkWalk mark s nos).1.Ok cfg ∧ Marked mark s (bdMarkWalk mark s nos).1 nos (bdMarkWalk mark s nos).2
  | [], s, h, _, _, _ => by
    refine ⟨h, rfl, rfl, rfl, fun k => ?_, fun no => ?_, fun tx htx => ⟨tx.heads, tx.topLocal, htx, fun _ hk => hk, ?_⟩⟩
    · simp [Mount.bdMarkWalk]
    · simp [Mount.bdMarkWalk]
    · simp
  | no :: nos, s, h, htx, hnd, hval => by
    obtain ⟨hnotin, hnd⟩ := List.nodup_cons.1 hnd
    have hok1 := h.metaBdMark hm htx (hval no List.mem_cons_self)
    rw [metaBdMark_eq htx] at hok1
    obtain ⟨hok, hrest⟩ := Ok.bdMarkWalk hm nos hok1 (isSome_write htx _ _) hnd
      fun n hn => hval n (List.mem_cons_of_mem _ hn)
    rw [Mount.bdMarkWalk, metaBdMark_eq htx]
    dsimp only
    generalize hw : Mount.bdMarkWalk mark (s.write (.blktag, no) (markObj mark s no)) nos = w at hok hrest
    have hview1 : (s.write (.blktag, no) (markObj mark s no)).getMo = update s.getMo (.blktag, no) (markObj mark s no) :=
      getMo_write htx _ _
    -- the later blocks see what they would have seen before the first one
    have hother : ∀ n, n ≠ no → markObj mark (s.write (.blktag, no) (markObj mark s no)) n = markObj mark s n := by
      intro n hn
      unfold markObj at hview1 ⊢
      rw [hview1, update_of_number_ne fun _ => hn, ready_write, inp_write]
    refine ⟨hok, hrest.objs.trans (objs_write _ _), hrest.ready.trans (ready_write _ _),
      hrest.inp.trans (inp_write _ _), fun k => ?_, fun n => ?_, fun tx heq => ?_⟩
    · rw [hrest.view k, hview1]
      obtain ⟨t, n⟩ := k
      by_cases hn : t = .blktag ∧ n ∈ nos
      · obtain ⟨rfl, hn⟩ := hn
        rw [if_pos ⟨rfl, hn⟩, if_pos ⟨rfl, List.mem_cons_of_mem _ hn⟩]
        exact hother n fun he => hnotin (he ▸ hn)
      · rw [if_neg hn]
        by_cases hk : (t, n) = (blktag, no)
        · obtain ⟨rfl, rfl⟩ := Prod.mk.inj hk
          rw [update_self, if_pos ⟨rfl, List.mem_cons_self⟩]
        · rw [update_of_ne hk, if_neg]
          rintro ⟨rfl, hmem⟩
          rcases List.mem_cons.1 hmem with rfl | hmem
          · exact hk rfl
          · exact hn ⟨rfl, hmem⟩
    · have hrest' : n ∈ w.2 ↔ n ∈ nos ∧ mark s.ready s.inp n (s.getMo (.blktag, n)).bt = none := by
        rw [hrest.changed n, ready_write, inp_write, hview1]
        refine and_congr_right fun hn => ?_
        rw [update_of_number_ne]
        rintro - rfl
        exact hnotin hn
      cases hmk : mark s.ready s.inp no (s.getMo (.blktag, no)).bt with
      | none =>
        rw [Option.isSome_none, if_neg Bool.false_ne_true, List.mem_cons, List.mem_cons, hrest']
        constructor
        · rintro (rfl | ⟨hn, hnone⟩)
          · exact ⟨Or.inl rfl, hmk⟩
          · exact ⟨Or.inr hn, hnone⟩
        · rintro ⟨rfl | hn, hnone⟩
          · exact Or.inl rfl
          · exact Or.inr ⟨hn, hnone⟩
      | some bt =>
        rw [Option.isSome_some, if_pos rfl, List.mem_cons, hrest']
        constructor
        · rintro ⟨hn, hnone⟩
          exact ⟨Or.inr hn, hnone⟩
        · rintro ⟨rfl | hn, hnone⟩
          · rw [hmk] at hnone
            cases hnone
          · exact ⟨hn, hnone⟩
    · obtain ⟨heads, tl, htx', hsub, hall⟩ := hrest.tx _ (congrArg Mount.tx (write_eq heq _ _))
      have hhead : (blktag, no) ∈ heads ∧ ∀ k ∈ tx.heads, k ∈ heads := by
        dsimp only at hsub
        by_cases hk : (blktag, no) ∈ tx.heads
        · rw [if_pos hk] at hsub
          exact ⟨hsub _ hk, hsub⟩
        · rw [if_neg hk] at hsub
          exact ⟨hsub _ (List.mem_append_right _ (List.mem_singleton_self _)),
            fun k hk' => hsub k (List.mem_append_left _ hk')⟩
      refine ⟨heads, tl, htx', hhead.2, fun n hn => ?_⟩
      rcases List.mem_cons.1 hn with rfl | hn
      · exact hhead.1
      · exact hall n hn

theorem mem_twalk {bdroot : Finset Nat} (h : ∀ no ∈ bdroot, cfg.Valid (.blktag, no)) :
    no ∈ twalk cfg bdroot ↔ no ∈ bdroot := by
  unfold twalk
  rw [List.mem_filter, List.mem_range, decide_eq_true_eq]
  exact and_iff_right_of_imp fun hno => (h no hno).lt_bound

theorem nodup_twalk (bdroot : Finset Nat) : (twalk cfg bdroot).Nodup := List.nodup_range.filter _

/-- The marks of a transaction of the discard thread: the selection keeps the blocks that were marked. -/
theorem Ok.bdMark (h : s.Ok cfg) (hm : MarkOk mark) (htx : s.tx.isSome) {bdroot : Finset Nat}
    (hval : ∀ no ∈ bdroot, cfg.Valid (.blktag, no)) :
    (s.bdMark cfg mark bdroot).1.Ok cfg ∧ ∃ nos changed, Marked mark s (s.bdMark cfg mark bdroot).1 nos changed ∧
      (∀ no, no ∈ nos ↔ no ∈ bdroot) ∧ ∀ no, no ∈ (s.bdMark cfg mark bdroot).2 ↔ no ∈ bdroot ∧ no ∉ changed := by
  obtain ⟨hok, hmarked⟩ := Ok.bdMarkWalk hm (twalk cfg bdroot) h htx (nodup_twalk bdroot)
    fun no hno => hval no ((mem_twalk hval).1 hno)
  refine ⟨hok, _, _, hmarked, fun no => mem_twalk hval, fun no => ?_⟩
  show no ∈ bdroot.filter _ ↔ _
  rw [Finset.mem_filter]

/-! ## The ends of a transaction -/

theorem getMo_txBegin (h : s.tx = none) (owner : Owner) : (s.txBegin owner).getMo = s.getMo := by
  rw [getMo_of_none h]
  funext k
  show (if k ∈ ([] : List Key) then s.objs k else s.objs k) = s.objs k
  exact if_neg List.not_mem_nil

theorem Ok.txBegin (h : s.Ok cfg) (htx : s.tx = none) (owner : Owner) : (s.txBegin owner).Ok cfg := by
  have hview := getMo_txBegin htx owner
  constructor
  case anode => rw [hview]; exact h.anode
  case objs => exact h.objs
  case view => rw [hview]; exact h.view
  case ready => rw [hview]; exact h.ready
  case inp => rw [hview]; exact h.inp
  case heads =>
    intro tx heq
    cases heq
    exact ⟨List.nodup_nil, fun k hk => absurd hk List.not_mem_nil⟩
  case before =>
    intro tx heq
    cases heq
    have hanode := h.anode
    rw [getMo_of_none htx] at hanode
    exact ⟨rfl, hanode⟩

theorem Ok.txCommit (h : s.Ok cfg) : s.txCommit.Ok cfg where
  anode := h.anode
  objs := h.view
  view := h.view
  ready := h.ready
  inp no hno := ⟨(h.inp no hno).1, (h.inp no hno).2.2, (h.inp no hno).2.2⟩
  heads _ heq := nomatch heq
  before _ heq := nomatch heq

/-- Indexing an object anew puts a block into the tree of its status. -/
theorem mem_reindex (k : Key) (no : Nat) :
    (no ∈ (s.reindex k).ready ↔ if k = (.blktag, no) then (s.objs (.blktag, no)).bt.dstatus = .ready else no ∈ s.ready) ∧
      (no ∈ (s.reindex k).inp ↔ if k = (.blktag, no) then (s.objs (.blktag, no)).bt.dstatus = .inp else no ∈ s.inp) := by
  obtain ⟨t, n⟩ := k
  cases t with
  | direntry => simp [reindex]
  | inode => simp [reindex]
  | blktag =>
    unfold reindex bdChangeIndex
    by_cases hn : n = no
    · subst hn
      cases (s.objs (blktag, n)).bt.dstatus <;> simp
    · have hne : no ≠ n := fun he => hn he.symm
      cases (s.objs (blktag, n)).bt.dstatus <;> simp [hn, hne]

theorem reindex_frame (k : Key) :
    (s.reindex k).objs = s.objs ∧ (s.reindex k).anode = s.anode ∧ (s.reindex k).tx = s.tx := by
  obtain ⟨t, n⟩ := k
  cases t with
  | direntry => exact ⟨rfl, rfl, rfl⟩
  | inode => exact ⟨rfl, rfl, rfl⟩
  | blktag =>
    unfold reindex bdChangeIndex
    cases (s.objs (blktag, n)).bt.dstatus <;> exact ⟨rfl, rfl, rfl⟩

/-- `s'` is `s` with the changes to the objects of `l` taken back in nodes and trees; `f` is what the nodes of `s`
agree with. -/
structure Undone (cfg : Config) (s s' : Mount α) (l : List Key) (f : Key → MetaObj α) : Prop where
  objs : s'.objs = s.objs
  ready : ∀ no, no ∈ s'.ready ↔ if (blktag, no) ∈ l then (s.objs (.blktag, no)).bt.dstatus = .ready else no ∈ s.ready
  inp : ∀ no, no ∈ s'.inp ↔ if (blktag, no) ∈ l then (s.objs (.blktag, no)).bt.dstatus = .inp else no ∈ s.inp
  anode : ∀ t, (s'.anode t).Ok (cfg.shape t) cfg.nchunk fun no => !(if (t, no) ∈ l then s.objs (t, no) else f (t, no)).used

theorem ite_mem_cons {β : Sort*} (k x : Key) (l : List Key) (a b : β) :
    (if x ∈ l then a else if k = x then a else b) = if x ∈ k :: l then a else b := by
  by_cases hl : x ∈ l
  · rw [if_pos hl, if_pos (List.mem_cons_of_mem _ hl)]
  · by_cases hk : k = x
    · rw [if_neg hl, if_pos hk, if_pos (hk ▸ List.mem_cons_self)]
    · rw [if_neg hl, if_neg hk, if_neg fun hm => (List.mem_cons.1 hm).elim (fun he => hk he.symm) hl]

theorem undone_foldl (cfg : Config) (tx : Tx α) : ∀ (l : List Key) {s : Mount α} {f : Key → MetaObj α},
    (∀ t, (s.anode t).Ok (cfg.shape t) cfg.nchunk fun no => !(f (t, no)).used) → (∀ k ∈ l, cfg.Valid k) → l.Nodup →
    (∀ k ∈ l, f k = tx.topLocal k) → Undone cfg s (l.foldl (metaUndo cfg tx) s) l f
  | [], s, f, han, _, _, _ => ⟨rfl, fun no => by simp, fun no => by simp, fun t => by simpa using han t⟩
  | k :: l, s, f, han, hval, hnd, hf => by
    obtain ⟨hnotin, hnd⟩ := List.nodup_cons.1 hnd
    obtain ⟨hobjs, hanode, -⟩ := reindex_frame (s := s) k
    have hstep : ∀ t, ((metaUndo cfg tx s k).anode t).Ok (cfg.shape t) cfg.nchunk
        fun no => !(update f k (s.objs k) (t, no)).used := by
      intro t
      show (update (s.reindex k).anode k.1 _ t).Ok _ _ _
      rw [hanode]
      have hd : (tx.topLocal k).used.toInt - (s.objs k).used.toInt = (!(s.objs k).used).toInt - (!(f k).used).toInt := by
        rw [← hf k List.mem_cons_self]
        cases (s.objs k).used <;> cases (f k).used <;> rfl
      exact anode_update han ((han k.1).settle (hval k List.mem_cons_self) (!(s.objs k).used) hd) t
    have htop : ∀ k' ∈ l, update f k (s.objs k) k' = tx.topLocal k' := by
      intro k' hk'
      have hne : k' ≠ k := fun he => hnotin (he ▸ hk')
      rw [update_of_ne hne]
      exact hf k' (List.mem_cons_of_mem _ hk')
    have hrest := undone_foldl cfg tx l hstep (fun k' hk' => hval k' (List.mem_cons_of_mem _ hk')) hnd htop
    have hobjs1 : (metaUndo cfg tx s k).objs = s.objs := hobjs
    rw [List.foldl_cons]
    refine ⟨hrest.objs.trans hobjs1, fun no => ?_, fun no => ?_, fun t => (hrest.anode t).congr fun no _ => ?_⟩
    · have hone : no ∈ (metaUndo cfg tx s k).ready ↔ _ := (mem_reindex k no).1
      rw [hrest.ready, hobjs1, hone, ite_mem_cons]
    · have hone : no ∈ (metaUndo cfg tx s k).inp ↔ _ := (mem_reindex k no).2
      rw [hrest.inp, hobjs1, hone, ite_mem_cons]
    · have hone : update f k (s.objs k) (t, no) = if k = (t, no) then s.objs (t, no) else f (t, no) := by
        by_cases hk : k = (t, no)
        · rw [if_pos hk, hk, update_self]
        · rw [if_neg hk, update_of_ne fun he => hk he.symm]
      rw [hobjs1, hone, ite_mem_cons]

theorem txRollback_eq (h : s.tx = some tx) :
    s.txRollback cfg = { tx.heads.reverse.foldl (metaUndo cfg tx) s with tx := none } := by
  rw [txRollback, h]

/-- What a rollback gives: the objects are as they were, every block of the transaction is in the tree of its
status, other blocks are where they were, and the nodes agree with the objects. -/
theorem Ok.undone (h : s.Ok cfg) (htx : s.tx = some tx) : Undone cfg s (s.txRollback cfg) tx.heads s.getMo := by
  obtain ⟨hnd, hval⟩ := h.heads tx htx
  obtain ⟨hobjs, hready, hinp, hanode⟩ := undone_foldl cfg tx tx.heads.reverse h.anode
    (fun k hk => hval k (List.mem_reverse.1 hk)) (List.nodup_reverse.2 hnd) fun k hk => by
      rw [getMo_of_some htx, if_pos (List.mem_reverse.1 hk)]
  rw [txRollback_eq htx]
  simp only [List.mem_reverse] at hready hinp hanode
  exact ⟨hobjs, hready, hinp, hanode⟩

theorem Ok.getMo_txRollback (h : s.Ok cfg) (htx : s.tx = some tx) : (s.txRollback cfg).getMo = s.objs := by
  have hnone : (s.txRollback cfg).tx = none := by rw [txRollback_eq htx]
  rw [getMo_of_none hnone, (h.undone htx).objs]

theorem Ok.txRollback (h : s.Ok cfg) : (s.txRollback cfg).Ok cfg := by
  cases htx : s.tx with
  | none =>
    rw [Mount.txRollback, htx]
    exact h
  | some tx =>
    obtain ⟨hobjs, hready, hinp, hanode⟩ := h.undone htx
    have hval := (h.heads tx htx).2
    have hnone : (s.txRollback cfg).tx = none := by rw [txRollback_eq htx]
    have hview := h.getMo_txRollback htx
    have hobj : ∀ k, (if k ∈ tx.heads then s.objs k else s.getMo k) = s.objs k := by
      intro k
      rw [getMo_of_some htx]
      split <;> rfl
    constructor
    case anode =>
      intro t
      refine (hanode t).congr fun no _ => ?_
      rw [hobj, hview]
    case objs => rw [hobjs]; exact h.objs
    case view => rw [hview]; exact h.objs
    case ready =>
      intro no hno
      rw [hready] at hno
      rw [hview]
      by_cases hk : (blktag, no) ∈ tx.heads
      · rw [if_pos hk] at hno
        exact ⟨hval _ hk, hno⟩
      · rw [if_neg hk] at hno
        have hst := h.ready no hno
        rwa [getMo_of_some htx, if_neg hk] at hst
    case inp =>
      intro no hno
      rw [hinp] at hno
      rw [hview, hobjs]
      by_cases hk : (blktag, no) ∈ tx.heads
      · rw [if_pos hk] at hno
        exact ⟨hval _ hk, hno, hno⟩
      · rw [if_neg hk] at hno
        obtain ⟨hv, hst, -⟩ := h.inp no hno
        exact ⟨hv, hst, hst⟩
    case heads => intro tx' heq; rw [hnone] at heq; cases heq
    case before => intro tx' heq; rw [hnone] at heq; cases heq

/-- What the replay of one log entry gives. -/
structure Redone (s s' : Mount α) (le : Key × MetaObj α) : Prop where
  objs : s'.objs = Function.update s.objs le.1 le.2
  tx : s'.tx = s.tx
  ready : ∀ no, no ∈ s'.ready ↔ if le.1 = (.blktag, no) then le.2.bt.dstatus = .ready else no ∈ s.ready
  inp : ∀ no, no ∈ s'.inp ↔ if le.1 = (.blktag, no) then le.2.bt.dstatus = .inp else no ∈ s.inp

theorem redone (cfg : Config) (s : Mount α) (le : Key × MetaObj α) : Redone s (metaRedo cfg s le) le := by
  obtain ⟨hobjs, -, htx⟩ := reindex_frame (s := { s with objs := update s.objs le.1 le.2 }) le.1
  have hone := mem_reindex (s := { s with objs := update s.objs le.1 le.2 }) le.1
  have hself : ∀ no status (p : Prop),
      (if le.1 = (.blktag, no) then (update s.objs le.1 le.2 (.blktag, no)).bt.dstatus = status else p) ↔
        if le.1 = (.blktag, no) then le.2.bt.dstatus = status else p := by
    intro no status p
    by_cases hk : le.1 = (blktag, no)
    · rw [if_pos hk, if_pos hk, ← hk, update_self]
    · rw [if_neg hk, if_neg hk]
  exact ⟨hobjs, htx, fun no => (hone no).1.trans (hself ..), fun no => (hone no).2.trans (hself ..)⟩

theorem Ok.metaRedo (h : s.Ok cfg) (htx : s.tx = none) {le : Key × MetaObj α} (hv : cfg.Valid le.1) (hmo : le.2.Ok le.1.1) :
    (metaRedo cfg s le).Ok cfg := by
  obtain ⟨hobjs, htx', hready, hinp⟩ := redone cfg s le
  have hnone : (Mount.metaRedo cfg s le).tx = none := htx'.trans htx
  have hview : (Mount.metaRedo cfg s le).getMo = update s.objs le.1 le.2 := by rw [getMo_of_none hnone, hobjs]
  have hold := getMo_of_none htx
  have hobj : ∀ k, (update s.objs le.1 le.2 k).Ok k.1 :=
    (forall_update_iff s.objs fun k mo => mo.Ok k.1).2 ⟨hmo, fun k _ => h.objs k⟩
  constructor
  case anode =>
    intro t
    obtain ⟨-, hanode, -⟩ := reindex_frame (s := { s with objs := update s.objs le.1 le.2 }) le.1
    rw [hview]
    show (update (Mount.reindex _ le.1).anode le.1.1 _ t).Ok _ _ _
    rw [hanode]
    have han := h.anode
    rw [hold] at han
    have hd : (s.objs le.1).used.toInt - le.2.used.toInt = (!le.2.used).toInt - (!(s.objs le.1).used).toInt := by
      cases le.2.used <;> cases (s.objs le.1).used <;> rfl
    exact anode_update han ((han le.1.1).settle hv (!le.2.used) hd) t
  case objs => rw [hobjs]; exact hobj
  case view => rw [hview]; exact hobj
  case ready =>
    intro no hno
    rw [hready] at hno
    rw [hview]
    by_cases hk : le.1 = (blktag, no)
    · rw [if_pos hk] at hno
      rw [← hk, update_self]
      exact ⟨hv, hno⟩
    · rw [if_neg hk] at hno
      rw [update_of_ne fun he => hk he.symm, ← hold]
      exact h.ready no hno
  case inp =>
    intro no hno
    rw [hinp] at hno
    rw [hview, hobjs]
    by_cases hk : le.1 = (blktag, no)
    · rw [if_pos hk] at hno
      rw [← hk, update_self]
      exact ⟨hv, hno, hno⟩
    · rw [if_neg hk] at hno
      obtain ⟨hval, hst, -⟩ := h.inp no hno
      rw [update_of_ne fun he => hk he.symm]
      exact ⟨hval, hst, hst⟩
  case heads => intro tx heq; rw [hnone] at heq; cases heq
  case before => intro tx heq; rw [hnone] at heq; cases heq

/-- A whole replay, for any property of the mount that the replay of one entry keeps. -/
theorem Ok.txReplay_induction {P : Mount α → Prop}
    (hP : ∀ m le, m.Ok cfg → m.tx = none → cfg.Valid le.1 → le.2.Ok le.1.1 → P m → P (Mount.metaRedo cfg m le)) :
    ∀ (les : List (Key × MetaObj α)) {s : Mount α}, s.Ok cfg → s.tx = none →
      (∀ le ∈ les, cfg.Valid le.1 ∧ le.2.Ok le.1.1) → P s →
      (s.txReplay cfg les).Ok cfg ∧ (s.txReplay cfg les).tx = none ∧ P (s.txReplay cfg les)
  | [], _, h, htx, _, hp => ⟨h, htx, hp⟩
  | le :: les, s, h, htx, hall, hp => by
    obtain ⟨hv, hmo⟩ := hall le List.mem_cons_self
    exact txReplay_induction hP les (h.metaRedo htx hv hmo) ((redone cfg s le).tx.trans htx)
      (fun le' hle' => hall le' (List.mem_cons_of_mem _ hle')) (hP s le h htx hv hmo hp)

theorem Ok.shrink (h : s.Ok cfg) {ready inp : Finset Nat} (hr : ready ⊆ s.ready) (hi : inp ⊆ s.inp) :
    Ok cfg { s with ready := ready, inp := inp } :=
  { h with ready := fun no hno => h.ready no (hr hno), inp := fun no hno => h.inp no (hi hno) }

/-! ## Mounting -/

theorem mem_bdBuildIndex {objs : Key → MetaObj α} {status : BdStatus} : no ∈ bdBuildIndex cfg objs status ↔
    cfg.Valid (.blktag, no) ∧ (objs (.blktag, no)).used = false ∧ (objs (.blktag, no)).bt.dstatus = status := by
  unfold bdBuildIndex
  rw [Finset.mem_filter, Finset.mem_range]
  exact and_iff_right_of_imp fun ⟨hv, _⟩ => hv.lt_bound

theorem mount_ok {objs : Key → MetaObj α} (h : ∀ k, (objs k).Ok k.1) : (mount cfg objs).Ok cfg := by
  have hview : (mount cfg objs).getMo = objs := rfl
  constructor
  case anode => intro t; rw [hview]; exact Root.init_ok (cfg.shape t) cfg.nchunk fun no => !(objs (t, no)).used
  case objs => exact h
  case view => rw [hview]; exact h
  case ready =>
    intro no hno
    replace hno : no ∈ bdBuildIndex cfg objs .ready := hno
    obtain ⟨hv, -, hst⟩ := mem_bdBuildIndex.1 hno
    exact ⟨hv, hview ▸ hst⟩
  case inp =>
    intro no hno
    replace hno : no ∈ bdBuildIndex cfg objs .inp := hno
    obtain ⟨hv, -, hst⟩ := mem_bdBuildIndex.1 hno
    exact ⟨hv, hst, hview ▸ hst⟩
  case heads => intro tx heq; cases heq
  case before => intro tx heq; cases heq

end Mount

end PolarFs.Meta
