/-
The allocator over whole histories of a node: bitmaps and counters agree with the objects as the running
transaction sees them, an allocation gives an object that was free, and a rollback restores what the
transaction found.
-/
import PolarFs.Meta.Discard

namespace PolarFs.Meta

open Transition Bitmap Mount

/-- Two roots with the same counters and the same bitmaps. -/
structure Root.SameFree (sh : Shape) (a b : Root) : Prop where
  nfree : a.nfree = b.nfree
  nchild : a.children.length = b.children.length
  leaf : ∀ (ci : Nat) (ca cb : Leaf), a.children[ci]? = some ca → b.children[ci]? = some cb →
    ca.nfree = cb.nfree ∧ ∀ oid < sh.nall, ca.isfreeObj oid = cb.isfreeObj oid

theorem Root.Ok.sameFree {sh : Shape} {nchunk : Nat} {a b : Root} {isFree : Nat → Bool} (ha : a.Ok sh nchunk isFree)
    (hb : b.Ok sh nchunk isFree) : a.SameFree sh b := by
  have hleaf : ∀ (ci : Nat) (ca cb : Leaf), a.children[ci]? = some ca → b.children[ci]? = some cb →
      ca.nfree = cb.nfree ∧ ∀ oid < sh.nall, ca.isfreeObj oid = cb.isfreeObj oid := by
    intro ci ca cb hca hcb
    have hoka := ha.leaf ci ca hca
    have hokb := hb.leaf ci cb hcb
    exact ⟨hoka.nfree.trans hokb.nfree.symm, fun oid ho => (hoka.bits oid ho).trans (hokb.bits oid ho).symm⟩
  have hlen : a.children.length = b.children.length := ha.length.trans hb.length.symm
  have hmap : a.children.map Leaf.nfree = b.children.map Leaf.nfree := by
    refine List.ext_getElem? fun ci => ?_
    rw [List.getElem?_map, List.getElem?_map]
    rcases Nat.lt_or_ge ci a.children.length with hlt | hge
    · have hca := List.getElem?_eq_getElem hlt
      have hcb := List.getElem?_eq_getElem (hlen ▸ hlt)
      rw [hca, hcb, Option.map_some, Option.map_some, (hleaf ci _ _ hca hcb).1]
    · rw [List.getElem?_eq_none hge, List.getElem?_eq_none (hlen ▸ hge)]
  exact ⟨by rw [ha.sum, hb.sum, hmap], hlen, hleaf⟩

/-- The sum of the leaves' counters is at most the number of objects. -/
theorem Root.Ok.sum_bounds {sh : Shape} {nchunk : Nat} {an : Root} {isFree : Nat → Bool} (h : an.Ok sh nchunk isFree) :
    0 ≤ (an.children.map Leaf.nfree).sum ∧ (an.children.map Leaf.nfree).sum ≤ nchunk * sh.nall := by
  have hbound : ∀ x ∈ an.children.map Leaf.nfree, 0 ≤ x ∧ x ≤ sh.nall := by
    intro x hx
    obtain ⟨can, hcan, rfl⟩ := List.mem_map.1 hx
    obtain ⟨ci, hci⟩ := List.mem_iff_getElem?.1 hcan
    exact (h.leaf ci can hci).nfree_bounds
  constructor
  · exact List.sum_nonneg fun x hx => (hbound x hx).1
  · have hle := List.sum_le_card_nsmul _ _ fun x hx => (hbound x hx).2
    rwa [List.length_map, h.length, nsmul_eq_mul] at hle

/-- What the allocator guarantees in a state of the mount, with the running transaction's view of the objects. -/
structure AllocatorOk {α : Type*} (cfg : Config) (s : Mount α) : Prop where
  /-- a leaf for every chunk -/
  nchild : ∀ t, (s.anode t).children.length = cfg.nchunk
  /-- a bit is set exactly when the object is unused -/
  bitmap : ∀ t (ci : Nat) (can : Leaf), (s.anode t).children[ci]? = some can → ∀ oid < (cfg.shape t).nall,
    can.isfreeObj oid = !(s.getMo (t, (cfg.shape t).mono ci oid)).used
  /-- a leaf counts its set bits -/
  leafCount : ∀ t, ∀ can ∈ (s.anode t).children,
    can.nfree = ((List.range (cfg.shape t).nall).countP can.isfreeObj : Nat)
  /-- the root holds the sum of the leaves as an `int32_t` -/
  rootCount : ∀ t, (s.anode t).nfree = int32 ((s.anode t).children.map Leaf.nfree).sum
  rootExact : ∀ t, cfg.nchunk * (cfg.shape t).nall < 2 ^ 31 →
    (s.anode t).nfree = ((s.anode t).children.map Leaf.nfree).sum
  /-- an allocation gives an object that was unused, and it is in use afterwards -/
  alloc : ∀ t top no s', s.tx.isSome → bdGet s.ready top → s.metaAlloc cfg t top = some (no, s') →
    cfg.Valid (t, no) ∧ (s.getMo (t, no)).used = false ∧
      (t = .blktag → (s.getMo (t, no)).bt.dstatus ≠ .inp) ∧ (s'.getMo (t, no)).used = true
  /-- no space is reported only when nothing can be allocated -/
  nospace : ∀ t top, bdGet s.ready top → s.metaAlloc cfg t top = none → ∀ no, cfg.Valid (t, no) →
    (s.getMo (t, no)).used = true ∨ (t = .blktag ∧ (s.getMo (t, no)).bt.dstatus = .inp)
  /-- a rollback restores objects, bitmaps and counters -/
  rollback : ∀ tx, s.tx = some tx → (s.txRollback cfg).getMo = tx.before.objs ∧
    ∀ t, ((s.txRollback cfg).anode t).SameFree (cfg.shape t) (tx.before.anode t)

theorem card_eq_countP (f : Nat → Bool) (n : Nat) : card f n = (List.range n).countP f := by
  induction n with
  | zero => rfl
  | succ n ih =>
    rw [card_succ, List.range_succ, List.countP_append, ih]
    cases hf : f n <;> simp [hf]

theorem Mount.Ok.allocatorOk {α : Type*} {cfg : Config} {s : Mount α} (h : s.Ok cfg) : AllocatorOk cfg s := by
  constructor
  case nchild => exact fun t => (h.anode t).length
  case bitmap => exact fun t ci can hci oid ho => ((h.anode t).leaf ci can hci).bits oid ho
  case leafCount =>
    intro t can hcan
    obtain ⟨ci, hci⟩ := List.mem_iff_getElem?.1 hcan
    have hok := (h.anode t).leaf ci can hci
    rw [hok.nfree, ← card_eq_countP, card_congr hok.bits]
  case rootCount => exact fun t => (h.anode t).sum
  case rootExact =>
    intro t hlt
    obtain ⟨h0, h1⟩ := (h.anode t).sum_bounds
    rw [(h.anode t).sum]
    have hlt : (cfg.nchunk * (cfg.shape t).nall : Int) < 2 ^ 31 := by exact_mod_cast hlt
    exact int32_of_bounds (by omega) (by omega)
  case alloc =>
    intro t top no s' htx htop ha
    obtain ⟨hv, hu, hinp, ⟨mo, hed, hused, -⟩, -, -⟩ := h.metaAlloc_some htx htop ha
    refine ⟨hv, hu, hinp, ?_⟩
    rw [hed.view, Function.update_self, hused]
  case nospace =>
    intro t top _ ha no hv
    have hnone := h.metaAlloc_none ha hv
    cases hu : (s.getMo (t, no)).used with
    | true => exact Or.inl rfl
    | false =>
      rw [metasetAlloc, hu] at hnone
      right
      simpa using hnone
  case rollback =>
    intro tx htx
    obtain ⟨hobjs, hanode⟩ := h.before tx htx
    have hview := h.getMo_txRollback htx
    refine ⟨hview.trans hobjs.symm, fun t => ?_⟩
    have hback := h.txRollback.anode t
    rw [hview] at hback
    exact hback.sameFree (hanode t)

/-! ## Every history -/

theorem allocator_reachable {α : Type*} {cfg : Config} {s : BdNode α} (h : (bdSystem cfg).Reachable s) :
    AllocatorOk cfg s.toMount :=
  (BdNode.ok_reachable h).mount.allocatorOk

/-- Two chunks of two objects a type. -/
def smallConfig : Config where
  nchunk := 2
  shape _ := ⟨2, 1, by decide, by decide, by decide⟩
  holelen := 4
  discardNinp := 1

/-- Block 0 is in use and block 1 waits for its discard, everything else is unused. -/
def smallObjs (k : Key) : MetaObj Unit :=
  if k = (.blktag, 0) then ⟨true, ⟨.none, 0, 0, 0⟩, ()⟩
  else if k = (.blktag, 1) then ⟨false, ⟨.ready, 0, 0, 0⟩, ()⟩
  else ⟨false, ⟨.none, 0, 0, 0⟩, ()⟩

theorem smallObjs_ok (k : Key) : (smallObjs k).Ok k.1 := by
  intro _
  unfold smallObjs
  split_ifs
  · exact ⟨fun _ => ⟨rfl, rfl⟩, nofun, nofun, nofun⟩
  · exact ⟨nofun, fun _ => rfl, nofun, fun _ => ⟨rfl, rfl⟩⟩
  · exact ⟨nofun, nofun, nofun, fun _ => ⟨rfl, rfl⟩⟩

/-- In the middle of a transaction that reused block 1, freed block 0 and took an inode. -/
theorem allocator_reachable_in_tx : ∃ s : BdNode Unit, (bdSystem smallConfig).Reachable s ∧
    ((s.getMo (.blktag, 1)).used = true ∧ (s.objs (.blktag, 1)).used = false ∧ (s.getMo (.inode, 0)).used = true) ∧
    AllocatorOk smallConfig s.toMount := by
  have hs := (bdSystem smallConfig).reachable_last (⟨mount smallConfig smallObjs, .idle, ∅, ∅, ∅⟩ : BdNode Unit)
    [.txBegin, .alloc .blktag (some 1), .free (.blktag, 0), .alloc .inode (some 0)] ⟨smallObjs, smallObjs_ok, rfl⟩
    (by decide +kernel)
  exact ⟨_, hs, by decide +kernel, allocator_reachable hs⟩

/-! ## The width of the root's counter -/

/-- `2 ^ 20` chunks of 2560 block tags, 2048 directory entries and 2048 inodes. -/
def largeConfig : Config where
  nchunk := 2 ^ 20
  shape
    | .blktag => ⟨2560, 12, by decide, by decide, by decide⟩
    | .direntry => ⟨2048, 11, by decide, by decide, by decide⟩
    | .inode => ⟨2048, 11, by decide, by decide, by decide⟩
  holelen := 2 ^ 22
  discardNinp := 64

/-- The first block of every chunk holds its metadata, everything else is unused. -/
def largeObjs (k : Key) : MetaObj Unit := ⟨k.1 == .blktag && k.2 % 4096 == 0, ⟨.none, 0, 0, 0⟩, ()⟩

theorem card_ne_zero (n : Nat) : card (fun i => decide (i ≠ 0)) (n + 1) = n := by
  induction n with
  | zero => rfl
  | succ n ih =>
    rw [card_succ, ih]
    simp

/-- On a volume that large the free blocks do not fit the root's `int32_t`. -/
theorem root_nfree_wraps : ∃ s : BdNode Unit, (bdSystem largeConfig).Reachable s ∧
    (s.anode .blktag).nfree ≠ ((s.anode .blktag).children.map Leaf.nfree).sum := by
  have hobjs : ∀ k, (largeObjs k).Ok k.1 := fun k _ => ⟨fun _ => ⟨rfl, rfl⟩, nofun, nofun, fun _ => ⟨rfl, rfl⟩⟩
  have hok : (mount largeConfig largeObjs).Ok largeConfig := mount_ok hobjs
  refine ⟨⟨mount largeConfig largeObjs, .idle, ∅, ∅, ∅⟩, .init ⟨largeObjs, hobjs, rfl⟩, ?_⟩
  have hroot := hok.anode .blktag
  have hleaf : ∀ x ∈ ((mount largeConfig largeObjs).anode .blktag).children.map Leaf.nfree, 2559 ≤ x := by
    intro x hx
    obtain ⟨can, hcan, rfl⟩ := List.mem_map.1 hx
    obtain ⟨ci, hci⟩ := List.mem_iff_getElem?.1 hcan
    have hfree : ∀ oid < (largeConfig.shape .blktag).nall,
        (!(largeObjs (.blktag, (largeConfig.shape .blktag).mono ci oid)).used) = decide (oid ≠ 0) := by
      intro oid ho
      have hmod : (ci * 2 ^ 12 + oid) % 4096 = oid := by
        have : oid < 2560 := ho
        omega
      rw [Shape.mono_eq ho]
      show (!(true && (ci * 2 ^ 12 + oid) % 4096 == 0)) = _
      rw [hmod]
      cases oid <;> rfl
    have hcount := (hroot.leaf ci can hci).nfree
    have hcard : card (fun oid => !(largeObjs (.blktag, (largeConfig.shape .blktag).mono ci oid)).used) 2560 = 2559 :=
      (card_congr hfree).trans (card_ne_zero 2559)
    rw [hcount]
    exact_mod_cast hcard.ge
  have hsum := List.card_nsmul_le_sum _ _ hleaf
  rw [List.length_map, hroot.length, nsmul_eq_mul] at hsum
  have hlt : int32 (((mount largeConfig largeObjs).anode .blktag).children.map Leaf.nfree).sum < 2 ^ 31 :=
    Int.bmod_lt (by decide)
  have hlarge : (2 : Int) ^ 31 ≤ ((largeConfig.nchunk : Nat) : Int) * 2559 := by decide
  show ((mount largeConfig largeObjs).anode .blktag).nfree ≠
    (((mount largeConfig largeObjs).anode .blktag).children.map Leaf.nfree).sum
  rw [hroot.sum]
  omega

end PolarFs.Meta
