/-
The allocation nodes (`pfs_anode_t`). Each chunk has a leaf for its objects of a type, with a bitmap of
the free ones, their number and a hint where to look next; the root of the type sums the leaves up.
An object number is the chunk number above the number within the chunk.

`Leaf.Ok` and `Root.Ok` say that a node agrees with a predicate of free numbers; every operation of the
source changes it at one number.
-/
import PolarFs.Lib.Bitmap

namespace PolarFs.Meta

open Bitmap
open Function (update update_self update_of_ne)

/-! ## Object numbers -/

/-- `an_nall` and `an_shift` of the leaves of a type, the same in every chunk: the shift makes room for
all objects of a chunk. -/
structure Shape where
  nall : Nat
  shift : Nat
  nall_pos : 0 < nall
  nall_le : nall ≤ 2 ^ shift
  nall_lt : nall < 2 ^ 31

variable {oid val ci : Nat} {delta : Int}

namespace Shape

variable (sh : Shape)

/-- `MONO_MAKE`. -/
def mono (ci oid : Nat) : Nat := ci <<< sh.shift ||| oid

def chunkOf (val : Nat) : Nat := val >>> sh.shift

def oidOf (val : Nat) : Nat := val &&& (2 ^ sh.shift - 1)

/-- The numbers of the objects of `nchunk` chunks. -/
def Valid (nchunk val : Nat) : Prop := sh.chunkOf val < nchunk ∧ sh.oidOf val < sh.nall

instance (nchunk val : Nat) : Decidable (sh.Valid nchunk val) := inferInstanceAs (Decidable (_ ∧ _))

variable {sh}

theorem mono_eq (h : oid < sh.nall) (ci : Nat) : sh.mono ci oid = ci * 2 ^ sh.shift + oid := by
  have hlt : oid < 2 ^ sh.shift := Nat.lt_of_lt_of_le h sh.nall_le
  rw [mono, ← Nat.shiftLeft_add_eq_or_of_lt hlt, Nat.shiftLeft_eq]

theorem chunkOf_mono (h : oid < sh.nall) (ci : Nat) : sh.chunkOf (sh.mono ci oid) = ci := by
  have hlt : oid < 2 ^ sh.shift := Nat.lt_of_lt_of_le h sh.nall_le
  rw [chunkOf, mono_eq h, Nat.shiftRight_eq_div_pow, Nat.mul_comm, Nat.mul_add_div (Nat.two_pow_pos _),
    Nat.div_eq_of_lt hlt, Nat.add_zero]

theorem oidOf_mono (h : oid < sh.nall) (ci : Nat) : sh.oidOf (sh.mono ci oid) = oid := by
  have hlt : oid < 2 ^ sh.shift := Nat.lt_of_lt_of_le h sh.nall_le
  rw [oidOf, mono_eq h, Nat.and_two_pow_sub_one_eq_mod, Nat.mul_comm, Nat.mul_add_mod, Nat.mod_eq_of_lt hlt]

theorem mono_of_valid {nchunk : Nat} (h : sh.Valid nchunk val) : sh.mono (sh.chunkOf val) (sh.oidOf val) = val := by
  rw [mono_eq h.2, chunkOf, oidOf, Nat.shiftRight_eq_div_pow, Nat.and_two_pow_sub_one_eq_mod, Nat.mul_comm]
  exact Nat.div_add_mod val (2 ^ sh.shift)

theorem valid_mono {nchunk : Nat} (hc : ci < nchunk) (ho : oid < sh.nall) : sh.Valid nchunk (sh.mono ci oid) := by
  constructor
  · rwa [chunkOf_mono ho]
  · rwa [oidOf_mono ho]

end Shape

/-! ## The nodes -/

/-- An `int32_t`. -/
def int32 (x : Int) : Int := Int.bmod x (2 ^ 32)

theorem int32_of_bounds {x : Int} (h0 : -(2 ^ 31) ≤ x) (h1 : x < 2 ^ 31) : int32 x = x :=
  Int.bmod_eq_of_le (by omega) (by omega)

theorem int32_add (x d : Int) : int32 (int32 x + d) = int32 (x + d) := Int.bmod_add_bmod

structure Leaf where
  nfree : Int
  next : Nat
  freeBmp : Words

structure Root where
  nfree : Int
  children : List Leaf

namespace Leaf

/-- `pfs_anode_nfree_inc` of a leaf. -/
def nfreeInc (an : Leaf) (val : Nat) (delta : Int) : Leaf :=
  { an with nfree := int32 (an.nfree + delta), freeBmp := flip an.freeBmp val delta }

/-- `pfs_anode_isfree_obj`. -/
def isfreeObj (an : Leaf) (val : Nat) : Bool := isSet an.freeBmp val

/-- `pfs_anode_alloc` of a leaf: from the hint on once round, the first free object that `allocfunc`
accepts. -/
def alloc (sh : Shape) (allocfunc : Nat → Bool) (an : Leaf) : Option (Nat × Leaf) :=
  (round sh.nall an.next fun nxt => if an.isfreeObj nxt && allocfunc nxt then some nxt else none).map fun nxt =>
    (nxt, { an.nfreeInc nxt (-1) with next := if sh.nall ≤ nxt + 1 then 0 else nxt + 1 })

/-- `pfs_anode_free` of a leaf. -/
def free (an : Leaf) (val : Nat) : Leaf := { an.nfreeInc val 1 with next := min val an.next }

/-- `pfs_anode_undo` and `pfs_anode_redo` of a leaf, whose callback found that the number of free objects
changes by `delta`. -/
def settle (delta : Int) (an : Leaf) (val : Nat) : Leaf := { an.nfreeInc val delta with next := 0 }

/-- `pfs_metaset_init_anode`: one round per object, with the first free one in the second component. -/
def initRound (unused : Nat → Bool) (st : Leaf × Option Nat) (oid : Nat) : Leaf × Option Nat :=
  if unused oid then (st.1.nfreeInc oid 1, st.2.or (some oid)) else st

def init (sh : Shape) (unused : Nat → Bool) : Leaf :=
  let st := (List.range sh.nall).foldl (initRound unused) (⟨0, 0, fun _ => 0#64⟩, none)
  { st.1 with next := st.2.getD 0 }

end Leaf

namespace Root

/-- `pfs_anode_nfree_inc` of the root, which has no bitmap. -/
def nfreeInc (an : Root) (delta : Int) : Root := { an with nfree := int32 (an.nfree + delta) }

/-- The child with most free objects, the first of them; none if no child has any. -/
def maxChild (children : List Leaf) : Option Nat :=
  (children.zipIdx.foldl (fun (m : Int × Option Nat) c => if m.1 < c.1.nfree then (c.1.nfree, some c.2) else m)
    (0, none)).2

/-- `pfs_anode_alloc` of the root: from the child with most free objects on once round, the first child
that can allocate; `none` is `ENOSPC`. -/
def alloc (sh : Shape) (allocfunc : Nat → Nat → Bool) (an : Root) : Option (Nat × Root) :=
  (maxChild an.children).bind fun maxindx =>
    (round an.children.length maxindx fun i =>
      (an.children[i]?).bind fun can =>
        if 0 < can.nfree then (can.alloc sh (allocfunc i)).map fun r => (i, r.1, r.2) else none).map fun r =>
      (sh.mono r.1 r.2.1, { an with children := an.children.set r.1 r.2.2 }.nfreeInc (-1))

/-- What `pfs_anode_free`, `pfs_anode_visit`, `pfs_anode_undo` and `pfs_anode_redo` have in common: down to
the leaf of the object's chunk with the number within the chunk, and back to the root. -/
def visit (sh : Shape) (leafFn : Leaf → Nat → Leaf) (delta : Int) (an : Root) (val : Nat) : Root :=
  { an with children := an.children.modify (sh.chunkOf val) fun can => leafFn can (sh.oidOf val) }.nfreeInc delta

/-- `pfs_anode_free`. -/
def free (sh : Shape) (an : Root) (val : Nat) : Root := an.visit sh Leaf.free 1 val

/-- `pfs_anode_visit` with `pfs_metaobj_use_one`. -/
def useOne (sh : Shape) (an : Root) (val : Nat) : Root := an.visit sh (fun can oid => can.nfreeInc oid (-1)) (-1) val

/-- `pfs_anode_undo` and `pfs_anode_redo`. -/
def settle (sh : Shape) (delta : Int) (an : Root) (val : Nat) : Root := an.visit sh (Leaf.settle delta) delta val

/-- `pfs_init_anode` over the leaves of the chunks. -/
def init (sh : Shape) (nchunk : Nat) (unused : Nat → Bool) : Root :=
  (List.range nchunk).foldl
    (fun an ci =>
      let can := Leaf.init sh fun oid => unused (sh.mono ci oid)
      { an with children := an.children ++ [can] }.nfreeInc can.nfree)
    ⟨0, []⟩

end Root

/-! ## Leaves -/

/-- The leaf agrees with the predicate of free numbers within the chunk. -/
structure Leaf.Ok (sh : Shape) (an : Leaf) (free : Nat → Bool) : Prop where
  bits : ∀ oid < sh.nall, an.isfreeObj oid = free oid
  nfree : an.nfree = card free sh.nall
  next : an.next < sh.nall

namespace Leaf.Ok

variable {sh : Shape} {an : Leaf} {free : Nat → Bool}

theorem nfree_bounds (h : an.Ok sh free) : 0 ≤ an.nfree ∧ an.nfree ≤ sh.nall := by
  have hle := card_le free sh.nall
  rw [h.nfree]
  omega

/-- A change of one number, with any hint. -/
theorem nfreeInc (h : an.Ok sh free) (ho : oid < sh.nall) (b : Bool) (hd : delta = b.toInt - (free oid).toInt)
    {next : Nat} (hn : next < sh.nall) :
    Leaf.Ok sh { an.nfreeInc oid delta with next := next } (update free oid b) := by
  have hunit : delta = 1 ∨ delta = 0 ∨ delta = -1 := by
    rw [hd]
    cases b <;> cases free oid <;> simp
  have hcard := card_update free ho b
  refine ⟨fun i hi => ?_, ?_, hn⟩
  · show isSet (flip an.freeBmp oid delta) i = _
    rw [isSet_flip hunit]
    by_cases hio : i = oid
    · subst hio
      have hbit : isSet an.freeBmp i = free i := h.bits i hi
      rw [if_pos rfl, update_self, hbit, hd]
      cases b <;> cases free i <;> simp
    · rw [if_neg hio, update_of_ne hio]
      exact h.bits i hi
  · show int32 (an.nfree + delta) = _
    have hle := card_le (update free oid b) sh.nall
    have hlt := sh.nall_lt
    rw [← h.nfree, ← hd] at hcard
    rw [← hcard]
    exact int32_of_bounds (by omega) (by omega)

theorem congr (h : an.Ok sh free) {free' : Nat → Bool} (hf : ∀ oid < sh.nall, free oid = free' oid) : an.Ok sh free' := by
  refine ⟨fun i hi => (h.bits i hi).trans (hf i hi), ?_, h.next⟩
  rw [h.nfree, card_congr hf]

theorem alloc_some (h : an.Ok sh free) {allocfunc : Nat → Bool} {an' : Leaf}
    (ha : an.alloc sh allocfunc = some (oid, an')) :
    oid < sh.nall ∧ free oid = true ∧ allocfunc oid = true ∧ an'.Ok sh (update free oid false) ∧
      an'.nfree = int32 (an.nfree - 1) := by
  obtain ⟨nxt, hround, heq⟩ := Option.map_eq_some_iff.1 ha
  obtain ⟨hnxt, hfree, hacc⟩ : nxt < sh.nall ∧ free nxt = true ∧ allocfunc nxt = true := by
    obtain ⟨j, hj, hjf⟩ := round_some h.next hround
    rw [Option.ite_none_right_eq_some, Bool.and_eq_true, h.bits j hj] at hjf
    obtain ⟨⟨hf, hacc⟩, hjn⟩ := hjf
    cases hjn
    exact ⟨hj, hf, hacc⟩
  obtain ⟨rfl, rfl⟩ := Prod.mk.inj heq
  have hnext : (if sh.nall ≤ nxt + 1 then 0 else nxt + 1) < sh.nall := by
    have := sh.nall_pos
    split <;> omega
  exact ⟨hnxt, hfree, hacc, h.nfreeInc hnxt false (by rw [hfree]; rfl) hnext, rfl⟩

theorem alloc_none (h : an.Ok sh free) {allocfunc : Nat → Bool} (ha : an.alloc sh allocfunc = none) (ho : oid < sh.nall)
    (hf : free oid = true) : allocfunc oid = false := by
  have hnone := round_none h.next (Option.map_eq_none_iff.1 ha) oid ho
  rw [h.bits oid ho, hf, Bool.true_and] at hnone
  cases hal : allocfunc oid with
  | false => rfl
  | true => rw [hal] at hnone; cases hnone

end Leaf.Ok

/-- After the objects below `k` the leaf counts those, and the hint is one of them. -/
theorem Leaf.initRound_spec (sh : Shape) (unused : Nat → Bool) : ∀ k ≤ sh.nall,
    let st := (List.range k).foldl (initRound unused) (⟨0, 0, fun _ => 0#64⟩, none)
    Leaf.Ok sh { st.1 with next := 0 } (fun i => decide (i < k) && unused i) ∧ ∀ n, st.2 = some n → n < k
  | 0, _ => by
    refine ⟨⟨fun i _ => ?_, ?_, sh.nall_pos⟩, fun n hn => by cases hn⟩
    · simp [isfreeObj, isSet]
    · have hzero : card (fun i => decide (i < 0) && unused i) sh.nall = 0 :=
        Nat.count_iff_forall_not.2 fun i _ => by simp
      rw [hzero]
      rfl
  | k + 1, hk => by
    obtain ⟨ih, ihn⟩ := initRound_spec sh unused k (by omega)
    have hsplit : (fun i => decide (i < k + 1) && unused i) =
        update (fun i => decide (i < k) && unused i) k (unused k) := by
      funext i
      by_cases hik : i = k
      · subst hik
        simp
      · have hlt : i < k + 1 ↔ i < k := by omega
        simp [update_of_ne hik, hlt]
    rw [hsplit, List.range_succ, List.foldl_append]
    generalize (List.range k).foldl (initRound unused) (⟨0, 0, fun _ => 0#64⟩, none) = st at ih ihn
    cases hu : unused k with
    | false =>
      have hst : [k].foldl (initRound unused) st = st := by simp [initRound, hu]
      rw [hst]
      refine ⟨ih.congr fun i _ => ?_, fun n hn => Nat.lt_succ_of_lt (ihn n hn)⟩
      by_cases hik : i = k
      · subst hik
        simp
      · rw [update_of_ne hik]
    | true =>
      have hst : [k].foldl (initRound unused) st = (st.1.nfreeInc k 1, st.2.or (some k)) := by simp [initRound, hu]
      rw [hst]
      refine ⟨ih.nfreeInc hk true (by simp) sh.nall_pos, fun n hn => ?_⟩
      cases hnext : st.2 with
      | none =>
        rw [hnext] at hn
        cases hn
        exact Nat.lt_succ_self k
      | some m =>
        rw [hnext] at hn
        cases hn
        exact Nat.lt_succ_of_lt (ihn n hnext)

theorem Leaf.init_ok (sh : Shape) (unused : Nat → Bool) : (Leaf.init sh unused).Ok sh unused := by
  obtain ⟨hok, hnext⟩ := initRound_spec sh unused sh.nall (Nat.le_refl _)
  have hall : ∀ i < sh.nall, (decide (i < sh.nall) && unused i) = unused i := fun i hi => by simp [hi]
  obtain ⟨hbits, hnfree, -⟩ := hok.congr hall
  refine ⟨hbits, hnfree, ?_⟩
  unfold Leaf.init
  generalize (List.range sh.nall).foldl (initRound unused) (⟨0, 0, fun _ => 0#64⟩, none) = st at hnext ⊢
  obtain ⟨st, _ | n⟩ := st
  · exact sh.nall_pos
  · exact hnext n rfl

/-! ## The root -/

/-- The root agrees with the predicate of free numbers: every leaf does, and the counter is the sum of the
leaves' counters as far as an `int32_t` holds it. -/
structure Root.Ok (sh : Shape) (nchunk : Nat) (an : Root) (free : Nat → Bool) : Prop where
  length : an.children.length = nchunk
  leaf : ∀ (ci : Nat) (can : Leaf), an.children[ci]? = some can → can.Ok sh fun oid => free (sh.mono ci oid)
  sum : an.nfree = int32 (an.children.map Leaf.nfree).sum

theorem sum_map_set (l : List Leaf) {can : Leaf} (h : l[ci]? = some can) (can' : Leaf) :
    ((l.set ci can').map Leaf.nfree).sum = (l.map Leaf.nfree).sum + (can'.nfree - can.nfree) := by
  induction l generalizing ci with
  | nil => cases h
  | cons x xs ih =>
    cases ci with
    | zero =>
      cases h
      simp only [List.set_cons_zero, List.map_cons, List.sum_cons]
      ring
    | succ ci =>
      have ih := ih h
      simp only [List.set_cons_succ, List.map_cons, List.sum_cons, ih]
      ring

/-- The loop of `maxChild` over the children from index `i` on. -/
theorem Root.maxChild_fold : ∀ (l : List Leaf) (i : Nat) (m : Int × Option Nat), 0 ≤ m.1 →
    (m.2 = none → m.1 = 0) →
    let r := (l.zipIdx i).foldl
      (fun (m : Int × Option Nat) c => if m.1 < c.1.nfree then (c.1.nfree, some c.2) else m) m
    (∀ j, r.2 = some j → m.2 = some j ∨ (i ≤ j ∧ j < i + l.length)) ∧
      (r.2 = none → m.2 = none ∧ ∀ can ∈ l, can.nfree ≤ 0)
  | [], i, m, _, _ => ⟨fun j hj => Or.inl hj, fun hn => ⟨hn, by simp⟩⟩
  | can :: l, i, m, h0, hm => by
    simp only [List.zipIdx_cons, List.foldl_cons]
    by_cases hlt : m.1 < can.nfree
    · rw [if_pos hlt]
      obtain ⟨hsome, hnone⟩ := maxChild_fold l (i + 1) (can.nfree, some i) (by dsimp only; omega) (by simp)
      refine ⟨fun j hj => ?_, fun hn => absurd (hnone hn).1 (by simp)⟩
      rcases hsome j hj with heq | hbound
      · cases heq
        exact Or.inr ⟨Nat.le_refl _, by simp⟩
      · refine Or.inr ⟨by omega, ?_⟩
        rw [List.length_cons]
        omega
    · rw [if_neg hlt]
      obtain ⟨hsome, hnone⟩ := maxChild_fold l (i + 1) m h0 hm
      refine ⟨fun j hj => (hsome j hj).imp id fun hbound => ?_, fun hn => ?_⟩
      · rw [List.length_cons]
        omega
      · obtain ⟨hmn, hall⟩ := hnone hn
        refine ⟨hmn, fun c hc => ?_⟩
        rcases List.mem_cons.1 hc with rfl | hc
        · have := hm hmn
          omega
        · exact hall c hc

theorem Root.maxChild_lt {children : List Leaf} {i : Nat} (h : maxChild children = some i) : i < children.length := by
  have hsome := (maxChild_fold children 0 (0, none) (Int.le_refl _) (fun _ => rfl)).1 i h
  rcases hsome with heq | hbound
  · cases heq
  · omega

theorem Root.maxChild_none {children : List Leaf} (h : maxChild children = none) : ∀ can ∈ children, can.nfree ≤ 0 :=
  ((maxChild_fold children 0 (0, none) (Int.le_refl _) (fun _ => rfl)).2 h).2

namespace Root.Ok

variable {sh : Shape} {nchunk : Nat} {an : Root} {isFree : Nat → Bool} (h : an.Ok sh nchunk isFree)

include h

theorem congr {isFree' : Nat → Bool} (hf : ∀ val, sh.Valid nchunk val → isFree val = isFree' val) :
    an.Ok sh nchunk isFree' := by
  refine ⟨h.length, fun ci can hci => (h.leaf ci can hci).congr fun oid ho => hf _ ?_, h.sum⟩
  have hlt := (List.getElem?_eq_some_iff.1 hci).1
  exact Shape.valid_mono (h.length ▸ hlt) ho

theorem child (hc : ci < nchunk) : ∃ can, an.children[ci]? = some can :=
  ⟨_, List.getElem?_eq_getElem (h.length ▸ hc)⟩

/-- One leaf changed at one number, and the root's counter by as much. -/
theorem set {can can' : Leaf} (hci : an.children[ci]? = some can) (ho : oid < sh.nall) (b : Bool)
    (hcan : can'.Ok sh (update (fun o => isFree (sh.mono ci o)) oid b)) (hd : can'.nfree = can.nfree + delta) :
    Root.Ok sh nchunk ({ an with children := an.children.set ci can' }.nfreeInc delta)
      (update isFree (sh.mono ci oid) b) := by
  have hlt := (List.getElem?_eq_some_iff.1 hci).1
  refine ⟨(List.length_set ..).trans h.length, fun cj cn hcj => ?_, ?_⟩
  · replace hcj : (an.children.set ci can')[cj]? = some cn := hcj
    by_cases hj : ci = cj
    · subst hj
      rw [List.getElem?_set_self hlt] at hcj
      cases hcj
      refine hcan.congr fun o hon => ?_
      by_cases heq : o = oid
      · rw [heq, update_self, update_self]
      · have hne : sh.mono ci o ≠ sh.mono ci oid := fun hm =>
          heq (by rw [← Shape.oidOf_mono hon ci, hm, Shape.oidOf_mono ho])
        rw [update_of_ne heq, update_of_ne hne]
    · rw [List.getElem?_set_ne hj] at hcj
      refine (h.leaf cj cn hcj).congr fun o hon => ?_
      have hne : sh.mono cj o ≠ sh.mono ci oid := fun hm =>
        hj (by rw [← Shape.chunkOf_mono ho ci, ← hm, Shape.chunkOf_mono hon])
      rw [update_of_ne hne]
  · show int32 (an.nfree + delta) = int32 ((an.children.set ci can').map Leaf.nfree).sum
    rw [sum_map_set _ hci, h.sum, int32_add, hd]
    congr 1
    ring

/-- Down to a leaf and back, where the leaf function changes one number. -/
theorem visit (hv : sh.Valid nchunk val) (b : Bool) (hd : delta = b.toInt - (isFree val).toInt)
    {leafFn : Leaf → Nat → Leaf} (hfn : ∀ can : Leaf, can.next < sh.nall →
      ∃ next < sh.nall, leafFn can (sh.oidOf val) = { can.nfreeInc (sh.oidOf val) delta with next := next }) :
    (an.visit sh leafFn delta val).Ok sh nchunk (update isFree val b) := by
  obtain ⟨can, hcan⟩ := h.child hv.1
  have hok := h.leaf _ _ hcan
  have hmono := Shape.mono_of_valid hv
  have hleaf : (leafFn can (sh.oidOf val)).Ok sh
      (update (fun o => isFree (sh.mono (sh.chunkOf val) o)) (sh.oidOf val) b) := by
    obtain ⟨next, hnext, heq⟩ := hfn can hok.next
    rw [heq]
    exact hok.nfreeInc hv.2 b (by rw [hmono]; exact hd) hnext
  have hdelta : (leafFn can (sh.oidOf val)).nfree = can.nfree + delta := by
    have hnew := hleaf.nfree
    rw [card_update _ hv.2, ← hok.nfree, hmono, ← hd] at hnew
    exact hnew
  have hset := h.set hcan hv.2 b hleaf hdelta
  have hmod : an.children.modify (sh.chunkOf val) (fun can => leafFn can (sh.oidOf val)) =
      an.children.set (sh.chunkOf val) (leafFn can (sh.oidOf val)) := by
    rw [List.modify_eq_set_getElem?]
    simp [hcan]
  rw [hmono] at hset
  rw [Root.visit, hmod]
  exact hset

theorem free (hv : sh.Valid nchunk val) (hf : isFree val = false) :
    (an.free sh val).Ok sh nchunk (update isFree val true) :=
  h.visit hv true (by rw [hf]; rfl) fun _ _ => ⟨_, Nat.lt_of_le_of_lt (Nat.min_le_left ..) hv.2, rfl⟩

theorem useOne (hv : sh.Valid nchunk val) (hf : isFree val = true) :
    (an.useOne sh val).Ok sh nchunk (update isFree val false) :=
  h.visit hv false (by rw [hf]; rfl) fun _ hn => ⟨_, hn, rfl⟩

theorem settle (hv : sh.Valid nchunk val) (b : Bool) (hd : delta = b.toInt - (isFree val).toInt) :
    (an.settle sh delta val).Ok sh nchunk (update isFree val b) :=
  h.visit hv b hd fun _ _ => ⟨0, sh.nall_pos, rfl⟩

theorem alloc_some {allocfunc : Nat → Nat → Bool} {an' : Root} (ha : an.alloc sh allocfunc = some (val, an')) :
    sh.Valid nchunk val ∧ isFree val = true ∧ allocfunc (sh.chunkOf val) (sh.oidOf val) = true ∧
      an'.Ok sh nchunk (update isFree val false) := by
  obtain ⟨maxindx, hmax, hround⟩ := Option.bind_eq_some_iff.1 ha
  obtain ⟨r, hfound, heq⟩ := Option.map_eq_some_iff.1 hround
  obtain ⟨rfl, rfl⟩ := Prod.mk.inj heq
  obtain ⟨ci, hi, hif⟩ := round_some (Root.maxChild_lt hmax) hfound
  obtain ⟨can, hcan, hif⟩ := Option.bind_eq_some_iff.1 hif
  rw [Option.ite_none_right_eq_some] at hif
  obtain ⟨-, hif⟩ := hif
  obtain ⟨⟨oid, can'⟩, hleaf, rfl⟩ := Option.map_eq_some_iff.1 hif
  obtain ⟨ho, hfree, hacc, hok, -⟩ := (h.leaf _ _ hcan).alloc_some hleaf
  have hv : sh.Valid nchunk (sh.mono ci oid) := Shape.valid_mono (h.length ▸ hi) ho
  refine ⟨hv, hfree, ?_, h.set hcan ho false hok ?_⟩
  · rwa [Shape.chunkOf_mono ho, Shape.oidOf_mono ho]
  · have hnew := hok.nfree
    rw [card_update _ ho, ← (h.leaf _ _ hcan).nfree, hfree] at hnew
    exact hnew

/-- `ENOSPC`: the callback refuses every free object. -/
theorem alloc_none {allocfunc : Nat → Nat → Bool} (ha : an.alloc sh allocfunc = none) (hv : sh.Valid nchunk val)
    (hf : isFree val = true) : allocfunc (sh.chunkOf val) (sh.oidOf val) = false := by
  obtain ⟨can, hcan⟩ := h.child hv.1
  have hok := h.leaf _ _ hcan
  have hfree : isFree (sh.mono (sh.chunkOf val) (sh.oidOf val)) = true := by rw [Shape.mono_of_valid hv]; exact hf
  have hpos : 0 < can.nfree := by
    have hcard : 0 < card (fun oid => isFree (sh.mono (sh.chunkOf val) oid)) sh.nall := card_pos hv.2 hfree
    rw [hok.nfree]
    omega
  cases hmax : maxChild an.children with
  | none =>
    have hle := Root.maxChild_none hmax can (List.mem_of_getElem? hcan)
    omega
  | some maxindx =>
    rw [Root.alloc, hmax] at ha
    have hnone := round_none (Root.maxChild_lt hmax) (Option.map_eq_none_iff.1 ha) _ (h.length.symm ▸ hv.1)
    rw [hcan, Option.bind_some, if_pos hpos, Option.map_eq_none_iff] at hnone
    exact hok.alloc_none hnone hv.2 hfree

end Root.Ok

theorem Root.init_ok (sh : Shape) (nchunk : Nat) (unused : Nat → Bool) : (Root.init sh nchunk unused).Ok sh nchunk unused := by
  unfold Root.init
  induction nchunk with
  | zero => exact ⟨rfl, fun ci can hci => (by cases hci), rfl⟩
  | succ n ih =>
    rw [List.range_succ, List.foldl_append]
    generalize (List.range n).foldl _ _ = an at ih
    refine ⟨?_, fun ci can hci => ?_, ?_⟩
    · show (an.children ++ [_]).length = n + 1
      rw [List.length_append, ih.length]
      rfl
    · replace hci : (an.children ++ [Leaf.init sh fun oid => unused (sh.mono n oid)])[ci]? = some can := hci
      rcases Nat.lt_or_ge ci an.children.length with hlt | hge
      · rw [List.getElem?_append_left hlt] at hci
        exact ih.leaf ci can hci
      rw [List.getElem?_append_right hge, ih.length, List.getElem?_singleton] at hci
      split at hci
      · rename_i hcn
        cases hci
        have hcn : ci = n := by
          rw [ih.length] at hge
          omega
        subst hcn
        exact Leaf.init_ok sh _
      · cases hci
    · show int32 (an.nfree + _) = int32 ((an.children ++ [_]).map Leaf.nfree).sum
      rw [ih.sum, int32_add, List.map_append, List.sum_append]
      simp

end PolarFs.Meta
