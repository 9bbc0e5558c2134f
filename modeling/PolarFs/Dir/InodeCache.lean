/-
The inodes in memory (`pfs_get_inode`, `pfs_put_inode` and `pfs_add_inode` in `pfs_mount.cc`, the index of a
directory in `pfs_inode.cc`). An inode is counted by those who have got it, and by the index of the directory
above it if it is a directory. When the tree is too large `pfs_put_inode` takes the first inode of every
shard, if it is not in use, out of the tree and destroys it, under the locks of tree and shard. If that is a
directory whose index refers to another inode, the destruction calls `pfs_put_inode` again.
-/
import PolarFs.Lib.RefCount
import PolarFs.Lib.Transition

namespace PolarFs.InodeCache

open Transition (System)
open Function (update update_self update_of_ne update_eq_self)

/-! ## The cache -/

/-- The address of a `pfs_inode_t`. -/
abbrev Addr := Nat

/-- `pfs_dxent_t`; `e_in` is there if the entry is a directory. The name's hash is left out. -/
structure Dxent where
  ino : Nat
  inode : Option Addr
  deriving DecidableEq, Repr

/-- `mnt_num_shards`, the shard of an inode number and `inodetree_lru_size`. -/
structure Params where
  numShards : Nat
  shard : Nat → Nat
  shard_lt : ∀ ino, shard ino < numShards
  lruSize : Int

/-- The fields of the inodes that are allocated, `mnt_inodetree` and `mnt_inodelist`. `excess` counts the calls of
`pfs_put_inode` that have found the tree too large and are about to lock it again; `reentered` tells whether one
has called itself with the locks. `gets` counts those who have got an inode. -/
structure Cache where
  alive : Finset Addr
  ino : Addr → Nat
  refcnt : Addr → Int
  shardId : Addr → Nat
  dxRoot : Addr → List Dxent
  tree : List Addr
  lists : Nat → List Addr
  excess : Nat
  reentered : Bool
  gets : Addr → Nat

namespace Cache

variable (p : Params) (s : Cache)

/-- `pfs_avl_find`. -/
def find (ino : Nat) : Option Addr := s.tree.find? fun a => s.ino a = ino

/-- `pfs_inode_create`. -/
def inodeCreate (a : Addr) (ino : Nat) : Cache :=
  { s with
    alive := insert a s.alive
    ino := update s.ino a ino
    refcnt := update s.refcnt a 0
    shardId := update s.shardId a (p.shard ino)
    dxRoot := update s.dxRoot a [] }

/-- `pfs_add_inode`. If there is such an inode already, the caller destroys the new one. -/
def addInode (a : Addr) : Cache :=
  match s.find (s.ino a) with
  | some _ => s
  | none =>
    { s with
      tree := a :: s.tree
      lists := update s.lists (s.shardId a) (s.lists (s.shardId a) ++ [a]) }

/-- `pfs_get_inode`, once the inode is found. -/
def getInode (a : Addr) : Cache :=
  let n := s.refcnt a + 1
  let l := s.lists (s.shardId a)
  { s with
    refcnt := update s.refcnt a n
    lists := if n = 1 then update s.lists (s.shardId a) (l.erase a ++ [a]) else s.lists }

/-- `pfs_put_inode`, up to the test of the size. -/
def putInode (a : Addr) : Cache :=
  let n := s.refcnt a - 1
  let l := s.lists (s.shardId a)
  { s with
    refcnt := update s.refcnt a n
    lists := if n = 0 then update s.lists (s.shardId a) (a :: l.erase a) else s.lists
    excess := if p.lruSize < s.tree.length then s.excess + 1 else s.excess }

/-- An index that `pfs_inode_destroy` cannot take apart without `pfs_put_inode`. -/
def HasChild (a : Addr) : Prop := ∃ ent ∈ s.dxRoot a, ent.inode ≠ none

instance (a : Addr) : Decidable (s.HasChild a) := inferInstanceAs (Decidable (∃ ent ∈ s.dxRoot a, ent.inode ≠ none))

/-- The turn of a shard in the second part of `pfs_put_inode`, with `pfs_inode_destroy`. -/
def evictShard (i : Nat) : Cache :=
  if s.reentered then s
  else
    match s.lists i with
    | [] => s
    | a :: l =>
      if s.refcnt a = 0 then
        let s := { s with tree := s.tree.erase a, lists := update s.lists i l }
        if s.HasChild a then { s with reentered := true } else { s with alive := s.alive.erase a }
      else s

/-- The second part of `pfs_put_inode`. -/
def evict : Cache := (List.range p.numShards).foldl evictShard s

/-- `pfs_inode_dx_add`, with the inode if the entry is a directory. -/
def dxAdd (d ino : Nat) (child : Option Addr) : Cache :=
  { s with dxRoot := update s.dxRoot d (⟨ino, child⟩ :: s.dxRoot d) }

/-- `pfs_inode_dx_del` up to the inode of the entry; `isdir` says whether it has one. -/
def dxDel (d ino : Nat) : Cache :=
  { s with dxRoot := update s.dxRoot d ((s.dxRoot d).eraseP fun ent => ent.ino = ino) }

/-- Nobody but its creator knows an inode that is not in the tree. -/
def Own (d : Addr) : Prop := d ∈ s.alive ∧ (d ∉ s.tree ∨ 0 < s.gets d)

instance (d : Addr) : Decidable (s.Own d) := inferInstanceAs (Decidable (_ ∧ (_ ∨ _)))

end Cache

inductive Event where
  | create (a : Addr) (ino : Nat)
  | add (a : Addr)
  | get (ino : Nat)
  | put (a : Addr)
  /-- an entry for the index of `d`, when it is loaded or a transaction ends -/
  | dxAdd (d : Addr) (ino : Nat) (isdir : Bool)
  /-- an entry less, when the index is reloaded or destroyed or a transaction ends -/
  | dxDel (d : Addr) (ino : Nat)
  /-- the end of `pfs_inode_destroy` of an inode that was not added -/
  | free (a : Addr)
  /-- the second part of a `pfs_put_inode` -/
  | evict

namespace Cache

variable (p : Params) (s : Cache)

/-- Each event is a part of the code under the lock of the tree; `pfs_inode_get` is `get`, and `create`, `add` and
`get` again if there is no inode. The index of an inode is changed by who has got it, or has created it. -/
def step : Event → Option Cache
  | .create a ino => if a ∉ s.alive then some (s.inodeCreate p a ino) else none
  | .add a => if s.reentered = false ∧ a ∈ s.alive ∧ a ∉ s.tree then some (s.addInode a) else none
  | .get ino =>
    if s.reentered then none
    else match s.find ino with
      | none => some s
      | some a => some { s.getInode a with gets := update s.gets a (s.gets a + 1) }
  | .put a =>
    if s.reentered = false ∧ 0 < s.gets a then
      some { s.putInode p a with gets := update s.gets a (s.gets a - 1) }
    else none
  | .dxAdd d ino isdir =>
    if s.reentered = false ∧ s.Own d then
      if isdir then (s.find ino).map fun a => (s.getInode a).dxAdd d ino (some a) else some (s.dxAdd d ino none)
    else none
  | .dxDel d ino =>
    if s.reentered = false ∧ s.Own d then
      ((s.dxRoot d).find? fun ent => ent.ino = ino).map fun ent =>
        match ent.inode with
        | some a => (s.dxDel d ino).putInode p a
        | none => s.dxDel d ino
    else none
  | .free a => if a ∈ s.alive ∧ a ∉ s.tree ∧ s.dxRoot a = [] then some { s with alive := s.alive.erase a } else none
  | .evict => if s.reentered = false ∧ 0 < s.excess then some ({ s with excess := s.excess - 1 }.evict p) else none

/-- The references in the indexes. -/
def counted : RefCount.State Addr := ⟨s.alive, fun b => (s.dxRoot b).filterMap Dxent.inode, s.gets, s.refcnt⟩

/-- What is in the tree is in the list of its shard, once, and in no other; it is counted for those who have got it
and the indexes that refer to it; these refer to inodes that are still there. -/
structure Consistent : Prop where
  listed : ∀ a ∈ s.tree, s.shardId a < p.numShards ∧ (s.lists (s.shardId a)).count a = 1 ∧
    ∀ i, i ≠ s.shardId a → a ∉ s.lists i
  cached : ∀ i, ∀ a ∈ s.lists i, a ∈ s.tree
  unique : ∀ a ∈ s.tree, ∀ b ∈ s.tree, s.ino a = s.ino b → a = b
  count : ∀ a ∈ s.tree, s.refcnt a = s.gets a + s.counted.refs a
  kept : ∀ a, (0 < s.gets a ∨ ∃ b ∈ s.alive, a ∈ s.counted.out b) → a ∈ s.tree ∧ a ∈ s.alive
  notEntered : s.reentered = false

/-- The first inode of a shard can be evicted without another call. -/
def Evictable (i : Nat) : Prop := ∀ a ∈ (s.lists i).head?, s.refcnt a = 0 → ¬ s.HasChild a

instance (i : Nat) : Decidable (s.Evictable i) :=
  inferInstanceAs (Decidable (∀ a ∈ (s.lists i).head?, s.refcnt a = 0 → ¬ s.HasChild a))

/-- No inode that is about to be evicted refers to another one. -/
def Regular : Event → Prop
  | .evict => ∀ i < p.numShards, s.Evictable i
  | _ => True

instance : ∀ e, Decidable (s.Regular p e)
  | .evict => inferInstanceAs (Decidable (∀ i < p.numShards, s.Evictable i))
  | .create _ _ | .add _ | .get _ | .put _ | .dxAdd _ _ _ | .dxDel _ _ | .free _ => inferInstanceAs (Decidable True)

end Cache

/-- A mount from its first inode on. -/
def cacheSystem (p : Params) : System Cache Event where
  init s := s = ⟨∅, fun _ => 0, fun _ => 0, fun _ => 0, fun _ => [], [], fun _ => [], 0, false, fun _ => 0⟩
  step s e := s.step p e

/-! ## The invariant -/

namespace Cache

variable {p : Params} {s : Cache} {a d : Addr} {ino : Nat}

/-- The list of each shard has the inodes of the tree that belong to it. -/
structure ListsOk (s : Cache) : Prop where
  nodup : ∀ i, (s.lists i).Nodup
  mem : ∀ i a, a ∈ s.lists i ↔ a ∈ s.tree ∧ s.shardId a = i

structure Inv (p : Params) (s : Cache) : Prop where
  refs : s.counted.Ok
  treeNodup : s.tree.Nodup
  tree : ∀ a ∈ s.tree, a ∈ s.alive
  unique : ∀ a ∈ s.tree, ∀ b ∈ s.tree, s.ino a = s.ino b → a = b
  shard : ∀ a ∈ s.alive, s.shardId a < p.numShards
  lists : s.ListsOk
  private_ : ∀ a ∈ s.alive, a ∉ s.tree → s.refcnt a = 0
  notEntered : s.reentered = false

/-- An inode may go anywhere in the list of its shard. -/
theorem ListsOk.move (h : s.ListsOk) {l : List Addr} (hl : l.Perm (s.lists (s.shardId a))) (c : Prop) [Decidable c] :
    let lists := if c then update s.lists (s.shardId a) l else s.lists
    (∀ i, (lists i).Nodup) ∧ ∀ i x, x ∈ lists i ↔ x ∈ s.tree ∧ s.shardId x = i := by
  by_cases hc : c
  · simp only [hc, if_true]
    refine ⟨fun i => ?_, fun i x => ?_⟩
    · by_cases hi : i = s.shardId a
      · rw [hi, update_self]
        exact hl.nodup_iff.2 (h.nodup _)
      · rw [update_of_ne hi]
        exact h.nodup i
    · by_cases hi : i = s.shardId a
      · rw [hi, update_self, hl.mem_iff, h.mem]
      · rw [update_of_ne hi, h.mem]
  · simp only [hc, if_false]
    exact ⟨h.nodup, h.mem⟩

theorem ListsOk.perm_tail (h : s.ListsOk) (ha : a ∈ s.tree) :
    ((s.lists (s.shardId a)).erase a ++ [a]).Perm (s.lists (s.shardId a)) :=
  (List.perm_append_singleton ..).trans (List.perm_cons_erase ((h.mem _ a).2 ⟨ha, rfl⟩)).symm

theorem ListsOk.perm_head (h : s.ListsOk) (ha : a ∈ s.tree) :
    (a :: (s.lists (s.shardId a)).erase a).Perm (s.lists (s.shardId a)) :=
  (List.perm_cons_erase ((h.mem _ a).2 ⟨ha, rfl⟩)).symm

theorem update_of_not_mem {f : Addr → Int} {n : Int} {l : List Addr} (ha : a ∈ l) (x : Addr) (hx : x ∉ l) :
    update f a n x = f x :=
  update_of_ne (fun heq : x = a => hx (heq ▸ ha)) ..

theorem find_mem (h : s.find ino = some a) : a ∈ s.tree := List.mem_of_find?_eq_some h

theorem out_update (f : Addr → List Dxent) (d : Addr) (l : List Dxent) :
    (fun b => (update f d l b).filterMap Dxent.inode) =
      update (fun b => (f b).filterMap Dxent.inode) d (l.filterMap Dxent.inode) := by
  funext b
  by_cases hb : b = d
  · rw [hb, update_self, update_self]
  · rw [update_of_ne hb, update_of_ne hb]

theorem perm_eraseP {β : Type*} {q : β → Bool} {x : β} : ∀ {l : List β}, l.find? q = some x → l.Perm (x :: l.eraseP q)
  | y :: l, h => by
    by_cases hy : q y = true
    · rw [List.find?_cons_of_pos hy] at h
      cases h
      rw [List.eraseP_cons_of_pos hy]
    · rw [List.find?_cons_of_neg hy] at h
      rw [List.eraseP_cons_of_neg hy]
      exact ((perm_eraseP h).cons y).trans (List.Perm.swap ..)

theorem filterMap_eraseP {β γ : Type*} {q : β → Bool} {f : β → Option γ} {x : β} (hx : f x = none) :
    ∀ {l : List β}, l.find? q = some x → (l.eraseP q).filterMap f = l.filterMap f
  | y :: l, h => by
    by_cases hy : q y = true
    · rw [List.find?_cons_of_pos hy] at h
      cases h
      rw [List.eraseP_cons_of_pos hy, List.filterMap_cons_none hx]
    · rw [List.find?_cons_of_neg hy] at h
      rw [List.eraseP_cons_of_neg hy, List.filterMap_cons, List.filterMap_cons, filterMap_eraseP hx h]

namespace Inv

variable (h : s.Inv p)

include h

theorem mem_tree (ha : a ∈ s.alive) (hne : s.refcnt a ≠ 0) : a ∈ s.tree := by
  by_contra hout
  exact hne (h.private_ a ha hout)

theorem mem_tree_of_held (ha : 0 < s.gets a) : a ∈ s.tree := by
  have halive := h.refs.held a ha
  have hcount : s.refcnt a = s.gets a + s.counted.refs a := h.refs.count a halive
  exact h.mem_tree halive (by omega)

theorem mem_tree_of_ref {b : Addr} (hb : b ∈ s.alive) (ha : a ∈ s.counted.out b) : a ∈ s.tree := by
  have halive := h.refs.out b hb a ha
  have hcount : s.refcnt a = s.gets a + s.counted.refs a := h.refs.count a halive
  have hpos : s.counted.refs a ≠ 0 := fun h0 => RefCount.State.refs_eq_zero.1 h0 b hb ha
  exact h.mem_tree halive (by omega)

theorem consistent : s.Consistent p where
  listed a ha := by
    refine ⟨h.shard a (h.tree a ha), List.count_eq_one_of_mem (h.lists.nodup _) ((h.lists.mem _ a).2 ⟨ha, rfl⟩), fun i hi hm => ?_⟩
    exact hi ((h.lists.mem i a).1 hm).2.symm
  cached i a ha := ((h.lists.mem i a).1 ha).1
  unique := h.unique
  count a ha := h.refs.count a (h.tree a ha)
  kept a hr := by
    rcases hr with hheld | ⟨b, hb, hm⟩
    · exact ⟨h.mem_tree_of_held hheld, h.refs.held a hheld⟩
    · exact ⟨h.mem_tree_of_ref hb hm, h.refs.out b hb a hm⟩
  notEntered := h.notEntered

/-! ## The steps -/

/-- A step that changes counts and indexes, and the order of lists. -/
theorem recount {s' : Cache} (halive : s'.alive = s.alive) (hino : s'.ino = s.ino) (hshard : s'.shardId = s.shardId)
    (htree : s'.tree = s.tree) (hentered : s'.reentered = s.reentered)
    (hlists : (∀ i, (s'.lists i).Nodup) ∧ ∀ i x, x ∈ s'.lists i ↔ x ∈ s.tree ∧ s.shardId x = i) (hrefs : s'.counted.Ok)
    (hcnt : ∀ x, x ∉ s.tree → s'.refcnt x = s.refcnt x) : s'.Inv p := by
  refine ⟨hrefs, htree ▸ h.treeNodup, ?_, ?_, ?_, ⟨hlists.1, ?_⟩, ?_, hentered.trans h.notEntered⟩
  · rw [htree, halive]
    exact h.tree
  · rw [htree, hino]
    exact h.unique
  · rw [halive, hshard]
    exact h.shard
  · rw [htree, hshard]
    exact hlists.2
  · intro x hx hout
    rw [halive] at hx
    rw [htree] at hout
    exact (hcnt x hout).trans (h.private_ x hx hout)

theorem get (ha : a ∈ s.tree) : { s.getInode a with gets := update s.gets a (s.gets a + 1) }.Inv p := by
  refine h.recount rfl rfl rfl rfl rfl (h.lists.move (h.lists.perm_tail ha) _) ?_ (update_of_not_mem ha)
  exact h.refs.hold (h.tree a ha) (by push_cast; rfl)

theorem put (ha : 0 < s.gets a) : { s.putInode p a with gets := update s.gets a (s.gets a - 1) }.Inv p := by
  have hmem := h.mem_tree_of_held ha
  refine h.recount rfl rfl rfl rfl rfl (h.lists.move (h.lists.perm_head hmem) _) ?_ (update_of_not_mem hmem)
  have hn : ((s.gets a - 1 : Nat) : Int) = s.gets a + -1 := by omega
  exact h.refs.hold (h.tree a hmem) hn

theorem dxAdd_dir (hd : d ∈ s.alive) (ha : a ∈ s.tree) : ((s.getInode a).dxAdd d ino (some a)).Inv p := by
  refine h.recount rfl rfl rfl rfl rfl (h.lists.move (h.lists.perm_tail ha) _) ?_ (update_of_not_mem ha)
  have hcounted : ((s.getInode a).dxAdd d ino (some a)).counted = s.counted.refer d (a :: s.counted.out d) a 1 := by
    unfold Cache.counted Cache.dxAdd
    rw [out_update]
    rfl
  rw [hcounted]
  refine h.refs.refer hd (fun x hx => ?_) fun x => ?_
  · rcases List.mem_cons.1 hx with rfl | hx
    · exact h.tree x ha
    · exact h.refs.out d hd x hx
  · rw [List.count_cons]
    by_cases hx : x = a
    · simp [hx]
    · simp [hx, Ne.symm hx]

theorem same_children {l : List Dxent} (hl : l.filterMap Dxent.inode = (s.dxRoot d).filterMap Dxent.inode) :
    { s with dxRoot := update s.dxRoot d l }.Inv p := by
  refine h.recount rfl rfl rfl rfl rfl ⟨h.lists.nodup, h.lists.mem⟩ ?_ fun _ _ => rfl
  have hcounted : { s with dxRoot := update s.dxRoot d l }.counted = s.counted := by
    unfold Cache.counted
    rw [out_update, hl]
    congr 1
    exact update_eq_self ..
  rw [hcounted]
  exact h.refs

theorem dxDel_dir (hd : d ∈ s.alive) {ent : Dxent} (hent : ((s.dxRoot d).find? fun ent => ent.ino = ino) = some ent)
    (ha : ent.inode = some a) : ((s.dxDel d ino).putInode p a).Inv p := by
  have hperm := (perm_eraseP hent).filterMap Dxent.inode
  rw [List.filterMap_cons_some ha] at hperm
  have hout : a ∈ s.counted.out d := hperm.mem_iff.2 List.mem_cons_self
  have hmem := h.mem_tree_of_ref hd hout
  refine h.recount rfl rfl rfl rfl rfl (h.lists.move (h.lists.perm_head hmem) _) ?_ (update_of_not_mem hmem)
  have hcounted : ((s.dxDel d ino).putInode p a).counted =
      s.counted.refer d (((s.dxRoot d).eraseP fun ent => ent.ino = ino).filterMap Dxent.inode) a (-1) := by
    unfold Cache.counted Cache.dxDel Cache.putInode
    rw [out_update]
    rfl
  rw [hcounted]
  refine h.refs.refer hd (fun x hx => ?_) fun x => ?_
  · exact h.refs.out d hd x (hperm.mem_iff.2 (List.mem_cons_of_mem _ hx))
  · have hcount := hperm.count_eq x
    rw [List.count_cons] at hcount
    show _ = (((s.dxRoot d).filterMap Dxent.inode).count x : Int) + _
    rw [hcount]
    by_cases hx : x = a
    · simp [hx]
    · simp [hx, Ne.symm hx]

theorem create (ha : a ∉ s.alive) : (s.inodeCreate p a ino).Inv p := by
  have hne : ∀ x ∈ s.tree, x ≠ a := fun x hx heq => ha (heq ▸ h.tree x hx)
  refine ⟨?_, h.treeNodup, fun x hx => Finset.mem_insert_of_mem (h.tree x hx), fun x hx y hy heq => ?_, fun x hx => ?_,
    ⟨h.lists.nodup, fun i x => ?_⟩, fun x hx hout => ?_, h.notEntered⟩
  · have hcounted : (s.inodeCreate p a ino).counted = s.counted.create a := by
      unfold Cache.counted Cache.inodeCreate
      rw [out_update]
      rfl
    rw [hcounted]
    exact h.refs.create ha
  · dsimp only [Cache.inodeCreate] at heq
    rw [update_of_ne (hne x hx), update_of_ne (hne y hy)] at heq
    exact h.unique x hx y hy heq
  · dsimp only [Cache.inodeCreate] at hx ⊢
    by_cases hxa : x = a
    · rw [hxa, update_self]
      exact p.shard_lt ino
    · rw [update_of_ne hxa]
      exact h.shard x ((Finset.mem_insert.1 hx).resolve_left hxa)
  · dsimp only [Cache.inodeCreate]
    rw [h.lists.mem]
    refine and_congr_right fun hx => ?_
    rw [update_of_ne (hne x hx)]
  · dsimp only [Cache.inodeCreate] at hx ⊢
    by_cases hxa : x = a
    · rw [hxa, update_self]
    · rw [update_of_ne hxa]
      exact h.private_ x ((Finset.mem_insert.1 hx).resolve_left hxa) hout

theorem add (ha : a ∈ s.alive) (hout : a ∉ s.tree) : (s.addInode a).Inv p := by
  unfold Cache.addInode
  split
  · exact h
  rename_i hfind
  have hnew : ∀ x ∈ s.tree, s.ino x ≠ s.ino a := by simpa using List.find?_eq_none.1 hfind
  have hlist : a ∉ s.lists (s.shardId a) := fun hm => hout ((h.lists.mem _ a).1 hm).1
  refine ⟨h.refs, List.nodup_cons.2 ⟨hout, h.treeNodup⟩, ?_, ?_, h.shard, ⟨fun i => ?_, fun i x => ?_⟩, ?_, h.notEntered⟩
  · rintro x (_ | ⟨_, hx⟩)
    exacts [ha, h.tree x hx]
  · rintro x (_ | ⟨_, hx⟩) y (_ | ⟨_, hy⟩) heq
    · rfl
    · exact absurd heq.symm (hnew y hy)
    · exact absurd heq (hnew x hx)
    · exact h.unique x hx y hy heq
  · dsimp only
    by_cases hi : i = s.shardId a
    · rw [hi, update_self]
      exact (List.perm_append_singleton ..).nodup_iff.2 (List.nodup_cons.2 ⟨hlist, h.lists.nodup _⟩)
    · rw [update_of_ne hi]
      exact h.lists.nodup i
  · dsimp only
    rw [List.mem_cons]
    by_cases hi : i = s.shardId a
    · rw [hi, update_self, List.mem_append, List.mem_singleton, h.lists.mem]
      constructor
      · rintro (⟨hx, hs⟩ | rfl)
        exacts [⟨.inr hx, hs⟩, ⟨.inl rfl, rfl⟩]
      · rintro ⟨rfl | hx, hs⟩
        exacts [.inr rfl, .inl ⟨hx, hs⟩]
    · rw [update_of_ne hi, h.lists.mem]
      refine and_congr_left fun hs => (or_iff_right ?_).symm
      rintro rfl
      exact hi hs.symm
  · intro x hx hxt
    exact h.private_ x hx fun hm => hxt (List.mem_cons_of_mem _ hm)

/-- An inode without a count and without children can be freed. -/
theorem destroy (ha : a ∈ s.alive) (hcnt : s.refcnt a = 0) (hchild : ¬ s.HasChild a) :
    { s with alive := s.alive.erase a }.counted.Ok := by
  refine h.refs.destroy ha hcnt (List.filterMap_eq_nil_iff.2 fun ent hent => ?_)
  by_contra hne
  exact hchild ⟨ent, hent, hne⟩

theorem free (ha : a ∈ s.alive) (hout : a ∉ s.tree) (hroot : s.dxRoot a = []) :
    { s with alive := s.alive.erase a }.Inv p := by
  have hchild : ¬ s.HasChild a := by
    rintro ⟨ent, hent, -⟩
    rw [hroot] at hent
    cases hent
  refine ⟨h.destroy ha (h.private_ a ha hout) hchild, h.treeNodup, fun x hx => ?_, h.unique,
    fun x hx => h.shard x (Finset.mem_of_mem_erase hx), ⟨h.lists.nodup, h.lists.mem⟩,
    fun x hx => h.private_ x (Finset.mem_of_mem_erase hx), h.notEntered⟩
  exact Finset.mem_erase.2 ⟨fun heq => hout (heq ▸ hx), h.tree x hx⟩

/-! ## Making room -/

theorem evictShard {i : Nat} (he : s.Evictable i) : (s.evictShard i).Inv p := by
  unfold Cache.evictShard
  rw [if_neg (by rw [h.notEntered]; decide)]
  split
  · exact h
  rename_i a l hl
  split
  · rename_i hcnt
    have hmem : a ∈ s.lists i := by
      rw [hl]
      exact List.mem_cons_self
    obtain ⟨htree, hshard⟩ := (h.lists.mem i a).1 hmem
    have halive := h.tree a htree
    have hchild : ¬ s.HasChild a := he a (by rw [hl]; rfl) hcnt
    have hnodup := h.lists.nodup i
    rw [hl, List.nodup_cons] at hnodup
    dsimp only
    rw [if_neg (by exact hchild)]
    refine ⟨h.destroy halive hcnt hchild, h.treeNodup.erase a, fun x hx => ?_, fun x hx y hy => ?_, fun x hx => ?_,
      ⟨fun j => ?_, fun j x => ?_⟩, fun x hx hout => ?_, h.notEntered⟩
    · obtain ⟨hne, hx⟩ := h.treeNodup.mem_erase_iff.1 hx
      exact Finset.mem_erase.2 ⟨hne, h.tree x hx⟩
    · exact h.unique x (List.mem_of_mem_erase hx) y (List.mem_of_mem_erase hy)
    · exact h.shard x (Finset.mem_of_mem_erase hx)
    · dsimp only
      by_cases hj : j = i
      · rw [hj, update_self]
        exact hnodup.2
      · rw [update_of_ne hj]
        exact h.lists.nodup j
    · dsimp only
      rw [h.treeNodup.mem_erase_iff]
      by_cases hj : j = i
      · have hmem' := h.lists.mem i x
        rw [hl, List.mem_cons] at hmem'
        rw [hj, update_self]
        constructor
        · intro hx
          obtain ⟨ht, hs⟩ := hmem'.1 (.inr hx)
          exact ⟨⟨fun heq => hnodup.1 (heq ▸ hx), ht⟩, hs⟩
        · rintro ⟨⟨hne, ht⟩, hs⟩
          exact (hmem'.2 ⟨ht, hs⟩).resolve_left hne
      · rw [update_of_ne hj, h.lists.mem]
        refine and_congr_left fun hs => (and_iff_right ?_).symm
        rintro rfl
        exact hj (hs.symm.trans hshard)
    · obtain ⟨hne, hx⟩ := Finset.mem_erase.1 hx
      exact h.private_ x hx fun ht => hout (h.treeNodup.mem_erase_iff.2 ⟨hne, ht⟩)
  · exact h

end Inv

theorem evictShard_evictable {i j : Nat} (hj : j ≠ i) (he : s.Evictable j) : (s.evictShard i).Evictable j := by
  unfold Cache.evictShard
  split
  · exact he
  split
  · exact he
  · split
    · dsimp only
      split <;> simpa [Evictable, Cache.HasChild, hj] using he
    · exact he

theorem Inv.foldl_evictShard : ∀ {l : List Nat} {s : Cache}, s.Inv p → l.Nodup → (∀ i ∈ l, s.Evictable i) →
    (l.foldl Cache.evictShard s).Inv p
  | [], _, h, _, _ => h
  | i :: l, s, h, hnd, he => by
    obtain ⟨hi, hnd⟩ := List.nodup_cons.1 hnd
    rw [List.foldl_cons]
    refine foldl_evictShard (h.evictShard (he i List.mem_cons_self)) hnd fun j hj => ?_
    exact evictShard_evictable (fun heq => hi (heq ▸ hj)) (he j (List.mem_cons_of_mem _ hj))

theorem Inv.step (h : s.Inv p) {e : Event} {s' : Cache} (hreg : s.Regular p e) (hstep : s.step p e = some s') :
    s'.Inv p := by
  cases e with
  | create a ino =>
    obtain ⟨ha, hs⟩ := Option.ite_none_right_eq_some.1 hstep
    cases hs
    exact h.create ha
  | add a =>
    obtain ⟨⟨-, ha, hout⟩, hs⟩ := Option.ite_none_right_eq_some.1 hstep
    cases hs
    exact h.add ha hout
  | get ino =>
    obtain ⟨-, hs⟩ := Option.ite_none_left_eq_some.1 hstep
    split at hs
    · cases hs
      exact h
    · rename_i a ha
      cases hs
      exact h.get (find_mem ha)
  | put a =>
    obtain ⟨⟨-, ha⟩, hs⟩ := Option.ite_none_right_eq_some.1 hstep
    cases hs
    exact h.put ha
  | dxAdd d ino isdir =>
    obtain ⟨⟨-, hd, -⟩, hs⟩ := Option.ite_none_right_eq_some.1 hstep
    cases isdir with
    | true =>
      obtain ⟨a, ha, rfl⟩ := Option.map_eq_some_iff.1 hs
      exact h.dxAdd_dir hd (find_mem ha)
    | false =>
      cases hs
      exact h.same_children rfl
  | dxDel d ino =>
    obtain ⟨⟨-, hd, -⟩, hs⟩ := Option.ite_none_right_eq_some.1 hstep
    obtain ⟨ent, hent, rfl⟩ := Option.map_eq_some_iff.1 hs
    cases ha : ent.inode with
    | some a => exact h.dxDel_dir hd hent ha
    | none => exact h.same_children (filterMap_eraseP ha hent)
  | free a =>
    obtain ⟨⟨ha, hout, hroot⟩, hs⟩ := Option.ite_none_right_eq_some.1 hstep
    cases hs
    exact h.free ha hout hroot
  | evict =>
    obtain ⟨-, hs⟩ := Option.ite_none_right_eq_some.1 hstep
    cases hs
    have hover : { s with excess := s.excess - 1 }.Inv p :=
      h.recount rfl rfl rfl rfl rfl ⟨h.lists.nodup, h.lists.mem⟩ h.refs fun _ _ => rfl
    exact hover.foldl_evictShard List.nodup_range fun i hi => hreg i (List.mem_range.1 hi)

end Cache

theorem inv_init (p : Params) {s : Cache} (h : (cacheSystem p).init s) : s.Inv p := by
  obtain rfl : s = _ := h
  refine ⟨⟨nofun, nofun, fun a ha => ?_⟩, List.nodup_nil, nofun, nofun, nofun, ⟨fun _ => List.nodup_nil, ?_⟩, nofun, rfl⟩
  · exact absurd ha (Nat.lt_irrefl 0)
  · exact fun i a => ⟨nofun, fun h => nomatch h.1⟩

/-- If no inode is evicted that refers to another one, the cache stays consistent and no `pfs_put_inode` enters
another one with the locks. -/
theorem cache_consistent (p : Params) {s : Cache} (h : ((cacheSystem p).restrict (Cache.Regular p)).Reachable s) :
    s.Consistent p :=
  (h.invariant_restrict (P := Cache.Inv p) (fun _ hs => inv_init p hs) fun _ _ _ hs hok hstep =>
    hs.step hok hstep).consistent

/-! ## Two runs -/

/-- One shard, and room for one inode. -/
def oneShard : Params := ⟨1, fun _ => 0, fun _ => Nat.zero_lt_one, 1⟩

def emptyCache : Cache :=
  ⟨∅, fun _ => 0, fun _ => 0, fun _ => 0, fun _ => [], [], fun _ => [], 0, false, fun _ => 0⟩

/-- The root is loaded with its directory 1, which is loaded with its directory 2 by someone who then puts it. -/
def nestedDirs : List Event :=
  [.create 10 0, .add 10, .get 0, .create 11 1, .add 11, .dxAdd 10 1 true, .get 1, .create 12 2, .add 12, .dxAdd 11 2 true,
   .put 11, .evict]

/-- Directory 1 drops its index before the root does, and is evicted. -/
theorem cache_consistent_evicted :
    ∃ s, ((cacheSystem oneShard).restrict (Cache.Regular oneShard)).Reachable s ∧ s.tree = [12, 10] ∧ s.refcnt 10 = 1 ∧
      s.Consistent oneShard := by
  have hs := ((cacheSystem oneShard).restrict (Cache.Regular oneShard)).reachable_last emptyCache
    (nestedDirs ++ [.get 1, .dxDel 11 2, .put 11, .dxDel 10 1, .evict]) rfl (by decide +kernel)
  exact ⟨_, hs, by decide +kernel, by decide +kernel, cache_consistent oneShard hs⟩

/-- The root is reloaded: with its index goes the count of directory 1, which is evicted in the same call and still
refers to directory 2. -/
theorem put_inode_reentered : ∃ s, (cacheSystem oneShard).Reachable s ∧ s.reentered = true := by
  have hs := (cacheSystem oneShard).reachable_last emptyCache (nestedDirs ++ [.dxDel 10 1, .evict]) rfl (by decide +kernel)
  exact ⟨_, hs, by decide +kernel⟩

end PolarFs.InodeCache
